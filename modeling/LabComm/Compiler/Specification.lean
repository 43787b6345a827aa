import LabComm.Format.DataType

set_option autoImplicit false

/-! # Specifications

What the parser builds of a specification, the checks the compiler makes of it, and the
declarations with every type name resolved. A specification that passes the checks resolves,
and its types are acceptable in the sense of `DataType.Accepted` (`resolveDecls_of_errorCheck`).

A type name refers to the typedef of that name among the declarations before the use.
-/

namespace LabComm.Compiler

/-! ## What the parser builds -/

mutual

/-- A data type with its names unresolved. `array` is a `ParseArrayType`: an element type and
one list of expressions for each pair of brackets. -/
inductive ParsedType where
  | void
  | prim (p : Prim)
  | user (name : Name)
  | struct (fields : ParsedFields)
  | array (elem : ParsedType) (dims : List (List Exp))

/-- The fields of a struct. -/
inductive ParsedFields where
  | nil
  | cons (intentions : List Intention) (name : Name) (type : ParsedType) (rest : ParsedFields)

end

/-- The classes of declarations. -/
inductive DeclKind where
  | typeDecl | sampleDecl
  deriving DecidableEq, Repr

/-- A declaration with its names unresolved. -/
structure ParsedDecl where
  kind : DeclKind
  intentions : List Intention
  name : Name
  type : ParsedType

/-- The number of fields. -/
def ParsedFields.length : ParsedFields → Nat
  | .nil => 0
  | .cons _ _ _ rest => rest.length + 1

mutual

/-- The lists the grammar does not allow to be empty are not, and every list is one of the
compiler's. -/
def ParsedType.Parsed : ParsedType → Prop
  | .void => True
  | .prim _ => True
  | .user _ => True
  | .struct fields => fields.length ≠ 0 ∧ fields.length < 2 ^ 31 ∧ fields.Parsed
  | .array elem dims => dims ≠ [] ∧ (∀ dim ∈ dims, dim ≠ [] ∧ dim.length < 2 ^ 31) ∧ elem.Parsed

/-- The same of every field. -/
def ParsedFields.Parsed : ParsedFields → Prop
  | .nil => True
  | .cons intentions _ type rest =>
      intentions.length + 1 < 2 ^ 31 ∧ type.Parsed ∧ rest.Parsed

end

/-! ## The checks -/

/-- The typedefs before a declaration, in order, with whether they are `isNull`. -/
abbrev NullEnv := List (Name × Bool)

/-- `lookupType` -/
def lookupType {α : Type} (env : List (Name × α)) (name : Name) : Option α :=
  (env.find? fun d => d.1 = name).map Prod.snd

/-- `isNull`; of an undeclared name the compiler cannot tell. -/
def ParsedType.isNull (env : NullEnv) : ParsedType → Bool
  | .void => true
  | .user name => (lookupType env name).getD false
  | _ => false

mutual

/-- `nameCheck` and `nullTypeCheck` find no error in the type. -/
def errorCheckType (env : NullEnv) : ParsedType → Bool
  | .void => true
  | .prim _ => true
  | .user name => (lookupType env name).isSome
  | .struct fields => errorCheckFields env [] fields
  | .array elem _ => !elem.isNull env && errorCheckType env elem

/-- The same of the fields, where `names` are those of the fields before. -/
def errorCheckFields (env : NullEnv) (names : List Name) : ParsedFields → Bool
  | .nil => true
  | .cons _ name type rest =>
      !names.contains name && !type.isNull env && errorCheckType env type &&
        errorCheckFields env (names ++ [name]) rest

end

/-- `annotationCheck`: a typedef has no intention but its name. -/
def annotationCheck (d : ParsedDecl) : Bool :=
  d.kind == .sampleDecl || d.intentions.all fun i => i.key == []

/-- `errorCheck` finds no error in the declarations, where `names` and `env` are those of the
declarations before. -/
def errorCheck (names : List Name) (env : NullEnv) : List ParsedDecl → Bool
  | [] => true
  | d :: decls =>
      !names.contains d.name && errorCheckType env d.type && annotationCheck d &&
        errorCheck (names ++ [d.name])
          (if d.kind = .typeDecl then env ++ [(d.name, d.type.isNull env)] else env) decls

/-- What is parsed and passes the checks. -/
structure Specification where
  decls : List ParsedDecl
  parsed : ∀ d ∈ decls, d.type.Parsed
  checked : errorCheck [] [] decls = true

/-! ## Resolution -/

/-- The order in which a Java `HashSet` yields its elements. -/
structure IterationOrder (α : Type) where
  order : List α → List α
  perm : ∀ l, (order l).Perm l

/-- The rewrite of a `ParseArrayType`: the first pair of brackets is the outermost array. -/
def rewriteArray (elem : DataType) : List (List Exp) → DataType
  | [] => elem
  | dim :: dims => .array (rewriteArray elem dims) dim

/-- `intentionSet`: the intentions that were written and the one that carries the name. -/
def intentionSet (h : IterationOrder Intention) (intentions : List Intention) (name : Name) :
    List Intention :=
  h.order (intentions ++ [⟨[], name⟩])

mutual

/-- The type with the types its names refer to. -/
def resolveType (h : IterationOrder Intention) (env : List (Name × DataType)) :
    ParsedType → Option DataType
  | .void => some .void
  | .prim p => some (.prim p)
  | .user name => (lookupType env name).map (.user name)
  | .struct fields => (resolveFields h env fields).map .struct
  | .array elem dims => (resolveType h env elem).map fun elem => rewriteArray elem dims

/-- The same of the fields. -/
def resolveFields (h : IterationOrder Intention) (env : List (Name × DataType)) :
    ParsedFields → Option Fields
  | .nil => some .nil
  | .cons intentions name type rest => do
      let type ← resolveType h env type
      let rest ← resolveFields h env rest
      pure (.cons (intentionSet h intentions name) name type rest)

end

/-- A declaration. -/
structure Decl where
  kind : DeclKind
  intentions : List Intention
  name : Name
  type : DataType

/-- `isSampleDecl` -/
def Decl.isSampleDecl (d : Decl) : Bool := d.kind == .sampleDecl

/-- The declarations in order, where `env` are the typedefs before. -/
def resolveDecls (h : IterationOrder Intention) (env : List (Name × DataType)) :
    List ParsedDecl → Option (List Decl)
  | [] => some []
  | d :: decls => do
      let type ← resolveType h env d.type
      let rest ← resolveDecls h
        (if d.kind = .typeDecl then env ++ [(d.name, type)] else env) decls
      pure (⟨d.kind, intentionSet h d.intentions d.name, d.name, type⟩ :: rest)

/-! ## Checked specifications resolve -/

theorem rewriteArray_isNull {elem : DataType} {dims : List (List Exp)} (h : dims ≠ []) :
    (rewriteArray elem dims).isNull = false := by
  cases dims with
  | nil => exact absurd rfl h
  | cons dim dims => rfl

theorem rewriteArray_accepted {elem : DataType} (hnull : elem.isNull = false)
    (hacc : elem.Accepted) {dims : List (List Exp)}
    (h : ∀ dim ∈ dims, dim ≠ [] ∧ dim.length < 2 ^ 31) : (rewriteArray elem dims).Accepted := by
  induction dims with
  | nil => exact hacc
  | cons dim dims ih =>
      obtain ⟨h0, h1⟩ := h dim List.mem_cons_self
      refine ⟨h0, h1, ?_, ih fun d hd => h d (List.mem_cons_of_mem _ hd)⟩
      cases dims with
      | nil => exact hnull
      | cons dim dims => rfl

/-- The environment of the checks is that of the resolution. -/
def nullEnv (env : List (Name × DataType)) : NullEnv := env.map fun d => (d.1, d.2.isNull)

theorem lookupType_map {α β : Type} (f : α → β) (env : List (Name × α)) (name : Name) :
    lookupType (env.map fun d => (d.1, f d.2)) name = (lookupType env name).map f := by
  induction env with
  | nil => rfl
  | cons d env ih =>
      rw [lookupType, lookupType] at ih ⊢
      rw [List.map_cons, List.find?_cons, List.find?_cons]
      by_cases hd : d.1 = name
      · simp [hd]
      · simpa [hd] using ih

theorem lookupType_nullEnv (env : List (Name × DataType)) (name : Name) :
    lookupType (nullEnv env) name = (lookupType env name).map DataType.isNull :=
  lookupType_map DataType.isNull env name

theorem lookupType_mem {α : Type} {env : List (Name × α)} {name : Name} {a : α}
    (h : lookupType env name = some a) : (name, a) ∈ env := by
  rw [lookupType, Option.map_eq_some_iff] at h
  obtain ⟨d, hd, rfl⟩ := h
  have hname : d.1 = name := by simpa using List.find?_some hd
  rw [← hname]
  exact List.mem_of_find?_eq_some hd

theorem intentionSet_length (h : IterationOrder Intention) (intentions : List Intention)
    (name : Name) : (intentionSet h intentions name).length = intentions.length + 1 := by
  rw [intentionSet, (h.perm _).length_eq, List.length_append, List.length_singleton]

section Resolve

variable (h : IterationOrder Intention) {env : List (Name × DataType)}

mutual

theorem resolveType_of_errorCheck (henv : ∀ d ∈ env, d.2.Accepted) : ∀ t : ParsedType, t.Parsed →
    errorCheckType (nullEnv env) t = true →
    ∃ t', resolveType h env t = some t' ∧ t'.Accepted ∧ t'.isNull = t.isNull (nullEnv env)
  | .void, _, _ => ⟨.void, rfl, trivial, rfl⟩
  | .prim p, _, _ => ⟨.prim p, rfl, trivial, rfl⟩
  | .user name, _, hc => by
      have hsome : (lookupType (nullEnv env) name).isSome = true := hc
      rw [lookupType_nullEnv, Option.isSome_map] at hsome
      obtain ⟨t, ht⟩ := Option.isSome_iff_exists.mp hsome
      refine ⟨.user name t, by rw [resolveType, ht]; rfl, henv _ (lookupType_mem ht), ?_⟩
      rw [ParsedType.isNull, lookupType_nullEnv, ht]
      rfl
  | .struct fields, hp, hc => by
      obtain ⟨fields', hf, hacc, hlen⟩ :=
        resolveFields_of_errorCheck henv fields [] hp.2.2 hc
      refine ⟨.struct fields', by rw [resolveType, hf]; rfl, ⟨?_, ?_, hacc⟩, rfl⟩
      · rw [hlen]
        exact hp.1
      · rw [hlen]
        exact hp.2.1
  | .array elem dims, hp, hc => by
      obtain ⟨hnull, hc⟩ := (Bool.and_eq_true_iff).mp hc
      obtain ⟨elem', he, hacc, hn⟩ := resolveType_of_errorCheck henv elem hp.2.2 hc
      have hnull' : elem'.isNull = false := by
        rw [hn]
        simpa using hnull
      refine ⟨rewriteArray elem' dims, by rw [resolveType, he]; rfl,
        rewriteArray_accepted hnull' hacc hp.2.1, ?_⟩
      rw [rewriteArray_isNull hp.1]
      rfl

theorem resolveFields_of_errorCheck (henv : ∀ d ∈ env, d.2.Accepted) :
    ∀ (fields : ParsedFields) (names : List Name),
    fields.Parsed → errorCheckFields (nullEnv env) names fields = true →
    ∃ fields', resolveFields h env fields = some fields' ∧ fields'.Accepted ∧
      fields'.length = fields.length
  | .nil, _, _, _ => ⟨.nil, rfl, trivial, rfl⟩
  | .cons intentions name type rest, names, hp, hc => by
      simp only [errorCheckFields, Bool.and_eq_true] at hc
      obtain ⟨⟨⟨_, hnull⟩, htype⟩, hrest⟩ := hc
      obtain ⟨type', ht, htacc, hn⟩ := resolveType_of_errorCheck henv type hp.2.1 htype
      obtain ⟨rest', hr, hracc, hlen⟩ := resolveFields_of_errorCheck henv rest _ hp.2.2 hrest
      have hnull' : type'.isNull = false := by
        rw [hn]
        simpa using hnull
      refine ⟨.cons (intentionSet h intentions name) name type' rest', ?_,
        ⟨?_, hnull', htacc, hracc⟩, ?_⟩
      · rw [resolveFields, ht, hr]
        rfl
      · rw [intentionSet_length]
        exact hp.1
      · rw [Fields.length, ParsedFields.length, hlen]

end

end Resolve

/-- **A specification that passes the checks resolves, to acceptable types.** -/
theorem resolveDecls_of_errorCheck (h : IterationOrder Intention) {names : List Name}
    (env : List (Name × DataType)) (henv : ∀ d ∈ env, d.2.Accepted) {decls : List ParsedDecl}
    (hp : ∀ d ∈ decls, d.type.Parsed) (hc : errorCheck names (nullEnv env) decls = true) :
    ∃ ds, resolveDecls h env decls = some ds ∧ ∀ d ∈ ds, d.type.Accepted := by
  induction decls generalizing names env with
  | nil => exact ⟨[], rfl, by simp⟩
  | cons d decls ih =>
      simp only [errorCheck, Bool.and_eq_true] at hc
      obtain ⟨⟨⟨_, htype⟩, _⟩, hrest⟩ := hc
      obtain ⟨type, ht, hacc, hn⟩ :=
        resolveType_of_errorCheck h henv d.type (hp d List.mem_cons_self) htype
      have hstep : (if d.kind = .typeDecl then
          nullEnv env ++ [(d.name, d.type.isNull (nullEnv env))] else nullEnv env) =
          nullEnv (if d.kind = .typeDecl then env ++ [(d.name, type)] else env) := by
        split
        · rw [← hn]
          simp [nullEnv]
        · rfl
      rw [hstep] at hrest
      obtain ⟨ds, hds, hall⟩ := ih _ (by
        intro x hx
        split at hx
        · rcases List.mem_append.mp hx with hx | hx
          · exact henv x hx
          · rw [List.mem_singleton] at hx
            subst hx
            exact hacc
        · exact henv x hx) (fun x hx => hp x (List.mem_cons_of_mem _ hx)) hrest
      refine ⟨_, by rw [resolveDecls, ht, Option.bind_eq_bind, Option.bind_some, hds]; rfl, ?_⟩
      intro x hx
      rcases List.mem_cons.mp hx with rfl | hx
      · exact hacc
      · exact hall x hx

theorem resolveDecls_names {h : IterationOrder Intention} {env : List (Name × DataType)}
    {decls : List ParsedDecl} {ds : List Decl} (hds : resolveDecls h env decls = some ds) :
    ds.map Decl.name = decls.map ParsedDecl.name := by
  induction decls generalizing env ds with
  | nil =>
      cases hds
      rfl
  | cons d decls ih =>
      rw [resolveDecls, Option.bind_eq_bind, Option.bind_eq_some_iff] at hds
      obtain ⟨type, _, hds⟩ := hds
      rw [Option.bind_eq_bind, Option.bind_eq_some_iff] at hds
      obtain ⟨rest, hrest, hds⟩ := hds
      cases hds
      rw [List.map_cons, List.map_cons, ih hrest]

/-- Declarations that pass the checks have distinct names, other than those before. -/
theorem names_nodup_of_errorCheck {names : List Name} {env : NullEnv} {decls : List ParsedDecl}
    (hc : errorCheck names env decls = true) :
    (decls.map ParsedDecl.name).Nodup ∧ ∀ name ∈ names, name ∉ decls.map ParsedDecl.name := by
  induction decls generalizing names env with
  | nil => simp
  | cons d decls ih =>
      simp only [errorCheck, Bool.and_eq_true] at hc
      obtain ⟨⟨⟨hname, _⟩, _⟩, hrest⟩ := hc
      obtain ⟨hnodup, hnot⟩ := ih hrest
      have hnew : d.name ∉ names := by simpa using hname
      rw [List.map_cons, List.nodup_cons]
      refine ⟨⟨hnot d.name (by simp), hnodup⟩, fun name hmem => ?_⟩
      rw [List.mem_cons, not_or]
      refine ⟨?_, hnot name (List.mem_append_left _ hmem)⟩
      rintro rfl
      exact hnew hmem

/-- The declarations of a specification. -/
def Specification.resolve (h : IterationOrder Intention) (spec : Specification) : List Decl :=
  (resolveDecls h [] spec.decls).get (by
    obtain ⟨ds, hds, _⟩ := resolveDecls_of_errorCheck h [] (by simp) spec.parsed
      spec.checked
    rw [hds]
    rfl)

theorem Specification.resolve_eq (h : IterationOrder Intention) (spec : Specification) :
    resolveDecls h [] spec.decls = some (spec.resolve h) := by
  rw [Specification.resolve, Option.some_get]

/-- The declarations have distinct names. -/
theorem Specification.names_nodup (h : IterationOrder Intention) (spec : Specification) :
    ((spec.resolve h).map Decl.name).Nodup := by
  rw [resolveDecls_names (spec.resolve_eq h)]
  exact (names_nodup_of_errorCheck spec.checked).1

/-- The types of a specification are acceptable. -/
theorem Specification.accepted (h : IterationOrder Intention) (spec : Specification) {d : Decl}
    (hd : d ∈ spec.resolve h) : d.type.Accepted := by
  obtain ⟨ds, hds, hall⟩ := resolveDecls_of_errorCheck h [] (by simp) spec.parsed
    spec.checked
  rw [spec.resolve_eq h, Option.some.injEq] at hds
  exact hall d (hds ▸ hd)

end LabComm.Compiler
