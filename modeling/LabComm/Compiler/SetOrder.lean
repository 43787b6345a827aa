import LabComm.Compiler.IntentionBytes
import LabComm.Compiler.Compatibility
import LabComm.Library.Sorting

set_option autoImplicit false

/-! # The order of a set of intentions

`intentionSet` is a `HashSet` of objects that are equal only to themselves, so its order is another
one in each run of the compiler. `Collections.sort` is stable and `intentionComp` compares keys, so
what has one key is emitted in that order.

Two runs emit the same signatures if and only if, in every declaration that can be emitted, no
field has two intentions with one key and different values (`stableSignatures_iff`).
-/

namespace LabComm.Compiler

open Library Arrays

/-! ## Runs of the compiler -/

mutual

/-- A run resolves a type to `t`: the set of each field yields its elements in some order. -/
inductive ResolvesType (env : List (Name × DataType)) : ParsedType → DataType → Prop where
  | void : ResolvesType env .void .void
  | prim (p : Prim) : ResolvesType env (.prim p) (.prim p)
  | user {name : Name} {t : DataType} (h : lookupType env name = some t) :
      ResolvesType env (.user name) (.user name t)
  | struct {fields : ParsedFields} {fields' : Fields} (h : ResolvesFields env fields fields') :
      ResolvesType env (.struct fields) (.struct fields')
  | array {elem : ParsedType} {elem' : DataType} {dims : List (List Exp)}
      (h : ResolvesType env elem elem') :
      ResolvesType env (.array elem dims) (rewriteArray elem' dims)

/-- The same of the fields. -/
inductive ResolvesFields (env : List (Name × DataType)) : ParsedFields → Fields → Prop where
  | nil : ResolvesFields env .nil .nil
  | cons {intentions is : List Intention} {name : Name} {type : ParsedType} {type' : DataType}
      {rest : ParsedFields} {rest' : Fields} (hset : is.Perm (intentions ++ [⟨[], name⟩]))
      (htype : ResolvesType env type type') (hrest : ResolvesFields env rest rest') :
      ResolvesFields env (.cons intentions name type rest) (.cons is name type' rest')

end

/-- A run resolves the declarations, where `env` are the typedefs before. -/
inductive ResolvesDecls : List (Name × DataType) → List ParsedDecl → List Decl → Prop where
  | nil {env : List (Name × DataType)} : ResolvesDecls env [] []
  | cons {env : List (Name × DataType)} {d : ParsedDecl} {decls : List ParsedDecl}
      {is : List Intention} {type : DataType} {ds : List Decl}
      (hset : is.Perm (d.intentions ++ [⟨[], d.name⟩])) (htype : ResolvesType env d.type type)
      (hrest : ResolvesDecls (if d.kind = .typeDecl then env ++ [(d.name, type)] else env)
        decls ds) :
      ResolvesDecls env (d :: decls) (⟨d.kind, is, d.name, type⟩ :: ds)

/-- A run of the compiler works with these declarations. -/
def Compiles (spec : Specification) (ds : List Decl) : Prop := ResolvesDecls [] spec.decls ds

/-- The signatures emitted for a declaration: the bytes of the flat one, and the table of the
hierarchical one. -/
def emittedSignatures (version : Nat) (index : Name → Int) (d : Decl) :
    Option (List UInt8) × Option C.SignatureData :=
  (flatBytes version d.type, treedata version index d.type)

/-- Any two runs emit the same signatures. -/
def StableSignatures (version : Nat) (spec : Specification) : Prop :=
  ∀ ds ds' : List Decl, Compiles spec ds → Compiles spec ds' → ∀ index : Name → Int,
    ds.map (emittedSignatures version index) = ds'.map (emittedSignatures version index)

/-! ## What is in a type -/

mutual

/-- The intentions of the fields of a type, user types replaced. -/
def fieldIntentions : DataType → List (List Intention)
  | .void => []
  | .prim _ => []
  | .user _ type => fieldIntentions type
  | .struct fields => fieldsIntentions fields
  | .array elem _ => fieldIntentions elem

/-- The same of the fields in order. -/
def fieldsIntentions : Fields → List (List Intention)
  | .nil => []
  | .cons intentions _ type rest => intentions :: (fieldIntentions type ++ fieldsIntentions rest)

end

mutual

/-- The sizes of the dimensions of a type, user types replaced; a variable one is 0. -/
def dimSizes : DataType → List Nat
  | .void => []
  | .prim _ => []
  | .user _ type => dimSizes type
  | .struct fields => fieldsDimSizes fields
  | .array elem dim => dim.map signatureSize ++ dimSizes elem

/-- The same of the fields. -/
def fieldsDimSizes : Fields → List Nat
  | .nil => []
  | .cons _ _ type rest => dimSizes type ++ fieldsDimSizes rest

end

/-- The signatures of the type can be emitted: the version is one of the two, the sizes are
`int`s, and there is room for the bytes of each intention. -/
structure Emittable (version : Nat) (t : DataType) : Prop where
  version : version = 2006 ∨ version = 2014
  sizes : ∀ n ∈ dimSizes t, n < 2 ^ 31
  short : ∀ is ∈ fieldIntentions t, ∀ i ∈ is, Short i

/-- No field has two intentions with one key and different values. -/
def Untied (t : DataType) : Prop :=
  ∀ is ∈ fieldIntentions t, ∀ i ∈ is, ∀ j ∈ is, i.key = j.key → i.value = j.value

/-! ## Another order -/

mutual

/-- The type with the intentions of each field in another order. -/
def reorder (f : List Intention → List Intention) : DataType → DataType
  | .void => .void
  | .prim p => .prim p
  | .user name type => .user name (reorder f type)
  | .struct fields => .struct (reorderFields f fields)
  | .array elem dim => .array (reorder f elem) dim

/-- The same of the fields. -/
def reorderFields (f : List Intention → List Intention) : Fields → Fields
  | .nil => .nil
  | .cons intentions name type rest =>
      .cons (f intentions) name (reorder f type) (reorderFields f rest)

end

/-- The declaration with all intentions in another order. -/
def Decl.reorder (f : List Intention → List Intention) (d : Decl) : Decl :=
  ⟨d.kind, f d.intentions, d.name, Compiler.reorder f d.type⟩

/-- The typedefs with their intentions in another order. -/
def reorderEnv (f : List Intention → List Intention) (env : List (Name × DataType)) :
    List (Name × DataType) := env.map fun d => (d.1, reorder f d.2)

section Reorder

variable (f : List Intention → List Intention)

theorem reorder_rewriteArray (elem : DataType) (dims : List (List Exp)) :
    reorder f (rewriteArray elem dims) = rewriteArray (reorder f elem) dims := by
  induction dims with
  | nil => rfl
  | cons dim dims ih => rw [rewriteArray, reorder, ih, rewriteArray]

theorem lookupType_reorderEnv (env : List (Name × DataType)) (name : Name) :
    lookupType (reorderEnv f env) name = (lookupType env name).map (reorder f) :=
  lookupType_map (reorder f) env name

/-- The typedefs behind a declaration. -/
theorem reorderEnv_step (env : List (Name × DataType)) (d : ParsedDecl) (type : DataType) :
    reorderEnv f (if d.kind = .typeDecl then env ++ [(d.name, type)] else env) =
      if d.kind = .typeDecl then reorderEnv f env ++ [(d.name, reorder f type)]
      else reorderEnv f env := by
  split
  · exact List.map_append
  · rfl

mutual

theorem fieldIntentions_reorder : ∀ t : DataType,
    fieldIntentions (reorder f t) = (fieldIntentions t).map f
  | .void => rfl
  | .prim _ => rfl
  | .user _ type => fieldIntentions_reorder type
  | .struct fields => fieldsIntentions_reorder fields
  | .array elem _ => fieldIntentions_reorder elem

theorem fieldsIntentions_reorder : ∀ fields : Fields,
    fieldsIntentions (reorderFields f fields) = (fieldsIntentions fields).map f
  | .nil => rfl
  | .cons intentions name type rest => by
      rw [reorderFields, fieldsIntentions, fieldsIntentions, fieldIntentions_reorder,
        fieldsIntentions_reorder rest, List.map_cons, List.map_append]

end

mutual

theorem dimSizes_reorder : ∀ t : DataType, dimSizes (reorder f t) = dimSizes t
  | .void => rfl
  | .prim _ => rfl
  | .user _ type => dimSizes_reorder type
  | .struct fields => fieldsDimSizes_reorder fields
  | .array elem dim => congrArg (dim.map signatureSize ++ ·) (dimSizes_reorder elem)

theorem fieldsDimSizes_reorder : ∀ fields : Fields,
    fieldsDimSizes (reorderFields f fields) = fieldsDimSizes fields
  | .nil => rfl
  | .cons intentions name type rest => by
      rw [reorderFields, fieldsDimSizes, fieldsDimSizes, dimSizes_reorder,
        fieldsDimSizes_reorder rest]

end

section Perm

variable {f} (hperm : ∀ is, (f is).Perm is)

include hperm

theorem forall_mem_reorder {P : Intention → Prop} {t : DataType} :
    (∀ is ∈ fieldIntentions (reorder f t), ∀ i ∈ is, P i) ↔
      ∀ is ∈ fieldIntentions t, ∀ i ∈ is, P i := by
  rw [fieldIntentions_reorder, List.forall_mem_map]
  simp only [(hperm _).mem_iff]

theorem emittable_reorder {version : Nat} {t : DataType} :
    Emittable version (reorder f t) ↔ Emittable version t := by
  have hlit := dimSizes_reorder f t
  have hshort := @forall_mem_reorder f hperm Short t
  constructor
  · exact fun ⟨hv, hl, hs⟩ => ⟨hv, hlit ▸ hl, hshort.mp hs⟩
  · exact fun ⟨hv, hl, hs⟩ => ⟨hv, hlit.symm ▸ hl, hshort.mpr hs⟩

theorem untied_reorder {t : DataType} : Untied (reorder f t) ↔ Untied t := by
  unfold Untied
  rw [fieldIntentions_reorder, List.forall_mem_map]
  simp only [(hperm _).mem_iff]

end Perm

end Reorder

/-! ## Runs in another order -/

section Runs

variable {f : List Intention → List Intention}

section Perm

mutual

/-- What a run resolves can be in any other order too. -/
theorem resolvesType_reorder (hperm : ∀ is, (f is).Perm is) {env : List (Name × DataType)} :
    ∀ {t : ParsedType} {t' : DataType}, ResolvesType env t t' →
      ResolvesType (reorderEnv f env) t (reorder f t')
  | _, _, .void => .void
  | _, _, .prim p => .prim p
  | _, _, .user h => .user (by rw [lookupType_reorderEnv, h, Option.map_some])
  | _, _, .struct h => .struct (resolvesFields_reorder hperm h)
  | _, _, .array h => by
      rw [reorder_rewriteArray]
      exact .array (resolvesType_reorder hperm h)

theorem resolvesFields_reorder (hperm : ∀ is, (f is).Perm is) {env : List (Name × DataType)} :
    ∀ {fields : ParsedFields} {fields' : Fields}, ResolvesFields env fields fields' →
      ResolvesFields (reorderEnv f env) fields (reorderFields f fields')
  | _, _, .nil => .nil
  | _, _, .cons hset htype hrest =>
      .cons ((hperm _).trans hset) (resolvesType_reorder hperm htype)
        (resolvesFields_reorder hperm hrest)

end

variable (hperm : ∀ is, (f is).Perm is)

include hperm

theorem resolvesDecls_reorder {env : List (Name × DataType)} {decls : List ParsedDecl}
    {ds : List Decl} (h : ResolvesDecls env decls ds) :
    ResolvesDecls (reorderEnv f env) decls (ds.map (Decl.reorder f)) := by
  induction h with
  | nil => exact .nil
  | cons hset htype _ ih =>
      rw [reorderEnv_step] at ih
      exact .cons ((hperm _).trans hset) (resolvesType_reorder hperm htype) ih

theorem Compiles.reorder {spec : Specification} {ds : List Decl} (h : Compiles spec ds) :
    Compiles spec (ds.map (Decl.reorder f)) :=
  resolvesDecls_reorder hperm h

end Perm

section Canonical

mutual

/-- Two runs differ in the order alone. -/
theorem resolvesType_canonical
    (hcanonical : ∀ {is js : List Intention}, is.Perm js → f is = f js)
    {env env' : List (Name × DataType)} (henv : reorderEnv f env = reorderEnv f env') :
    ∀ {t : ParsedType} {u u' : DataType}, ResolvesType env t u → ResolvesType env' t u' →
      reorder f u = reorder f u'
  | _, _, _, .void, .void => rfl
  | _, _, _, .prim _, .prim _ => rfl
  | .user name, _, _, .user h, .user h' => by
      -- the typedef was resolved in both runs, to the same type in the one order
      have hlookup := congrArg (lookupType · name) henv
      simp only [lookupType_reorderEnv, h, h', Option.map_some, Option.some.injEq] at hlookup
      rw [reorder, reorder, hlookup]
  | _, _, _, .struct h, .struct h' => by
      rw [reorder, reorder, resolvesFields_canonical hcanonical henv h h']
  | _, _, _, .array h, .array h' => by
      rw [reorder_rewriteArray, reorder_rewriteArray, resolvesType_canonical hcanonical henv h h']

theorem resolvesFields_canonical
    (hcanonical : ∀ {is js : List Intention}, is.Perm js → f is = f js)
    {env env' : List (Name × DataType)} (henv : reorderEnv f env = reorderEnv f env') :
    ∀ {fields : ParsedFields} {u u' : Fields}, ResolvesFields env fields u →
      ResolvesFields env' fields u' → reorderFields f u = reorderFields f u'
  | _, _, _, .nil, .nil => rfl
  | _, _, _, .cons hset htype hrest, .cons hset' htype' hrest' => by
      rw [reorderFields, reorderFields, hcanonical (hset.trans hset'.symm),
        resolvesType_canonical hcanonical henv htype htype',
        resolvesFields_canonical hcanonical henv hrest hrest']

end

variable (hcanonical : ∀ {is js : List Intention}, is.Perm js → f is = f js)

include hcanonical

theorem resolvesDecls_canonical {decls : List ParsedDecl} {env env' : List (Name × DataType)}
    {ds ds' : List Decl} (henv : reorderEnv f env = reorderEnv f env')
    (h : ResolvesDecls env decls ds) (h' : ResolvesDecls env' decls ds') :
    ds.map (Decl.reorder f) = ds'.map (Decl.reorder f) := by
  induction h generalizing env' ds' with
  | nil =>
      cases h'
      rfl
  | @cons env d decls is type ds hset htype _ ih =>
      cases h' with
      | @cons _ _ _ is' type' ds' hset' htype' hrest' =>
          -- both sets have the intentions that were written
          have hintentions : f is = f is' := hcanonical (hset.trans hset'.symm)
          have hsame := resolvesType_canonical hcanonical henv htype htype'
          have hnext : ds.map (Decl.reorder f) = ds'.map (Decl.reorder f) := by
            refine ih ?_ hrest'
            rw [reorderEnv_step, reorderEnv_step, henv, hsame]
          rw [List.map_cons, List.map_cons, hnext, Decl.reorder, Decl.reorder, hintentions, hsame]

end Canonical

end Runs

/-- One order for all permutations of a list. -/
noncomputable def canonical (is : List Intention) : List Intention :=
  (is : Multiset Intention).toList

theorem canonical_perm (is : List Intention) : (canonical is).Perm is :=
  Multiset.coe_eq_coe.mp (Multiset.coe_toList _)

theorem canonical_eq {is js : List Intention} (h : is.Perm js) : canonical is = canonical js := by
  rw [canonical, canonical, Multiset.coe_eq_coe.mpr h]

/-- In one order, all runs are the same. -/
theorem Compiles.canonical_eq {spec : Specification} {ds ds' : List Decl} (h : Compiles spec ds)
    (h' : Compiles spec ds') :
    ds.map (Decl.reorder canonical) = ds'.map (Decl.reorder canonical) :=
  resolvesDecls_canonical Compiler.canonical_eq rfl h h'

section Resolve

variable (h : IterationOrder Intention) {env : List (Name × DataType)}

mutual

theorem resolvesType_of_resolveType : ∀ {t : ParsedType} {t' : DataType},
    resolveType h env t = some t' → ResolvesType env t t'
  | .void, _, ht => by
      cases ht
      exact .void
  | .prim p, _, ht => by
      cases ht
      exact .prim p
  | .user name, _, ht => by
      rw [resolveType, Option.map_eq_some_iff] at ht
      obtain ⟨t, hlookup, rfl⟩ := ht
      exact .user hlookup
  | .struct fields, _, ht => by
      rw [resolveType, Option.map_eq_some_iff] at ht
      obtain ⟨fields', hfields, rfl⟩ := ht
      exact .struct (resolvesFields_of_resolveFields hfields)
  | .array elem dims, _, ht => by
      rw [resolveType, Option.map_eq_some_iff] at ht
      obtain ⟨elem', helem, rfl⟩ := ht
      exact .array (resolvesType_of_resolveType helem)

theorem resolvesFields_of_resolveFields : ∀ {fields : ParsedFields} {fields' : Fields},
    resolveFields h env fields = some fields' → ResolvesFields env fields fields'
  | .nil, _, hf => by
      cases hf
      exact .nil
  | .cons intentions name type rest, _, hf => by
      simp only [resolveFields, Option.bind_eq_bind, Option.bind_eq_some_iff] at hf
      obtain ⟨type', htype, rest', hrest, hpure⟩ := hf
      cases hpure
      exact .cons (h.perm _) (resolvesType_of_resolveType htype)
        (resolvesFields_of_resolveFields hrest)

end

theorem resolvesDecls_of_resolveDecls {env : List (Name × DataType)} {decls : List ParsedDecl}
    {ds : List Decl} (hds : resolveDecls h env decls = some ds) : ResolvesDecls env decls ds := by
  induction decls generalizing env ds with
  | nil =>
      cases hds
      exact .nil
  | cons d decls ih =>
      simp only [resolveDecls, Option.bind_eq_bind, Option.bind_eq_some_iff] at hds
      obtain ⟨type, htype, rest, hrest, hpure⟩ := hds
      cases hpure
      exact .cons (h.perm _) (resolvesType_of_resolveType h htype) (ih hrest)

end Resolve

/-- The declarations of `resolve` are those of a run. -/
theorem Specification.compiles_resolve (spec : Specification) (h : IterationOrder Intention) :
    Compiles spec (spec.resolve h) :=
  resolvesDecls_of_resolveDecls h (spec.resolve_eq h)

/-! ## Lines -/

mutual

/-- The line with its intentions in another order. -/
def reorderLine (f : List Intention → List Intention) : SignatureLine → SignatureLine
  | .comment => .comment
  | .int data => .int data
  | .intentions is => .intentions (f is)
  | .typeRef name lines => .typeRef name (reorderLines f lines)

/-- The same of all lines. -/
def reorderLines (f : List Intention → List Intention) :
    List SignatureLine → List SignatureLine
  | [] => []
  | line :: lines => reorderLine f line :: reorderLines f lines

end

mutual

/-- The intentions of a line, references expanded. -/
def lineIntentions : SignatureLine → List (List Intention)
  | .comment => []
  | .int _ => []
  | .intentions is => [is]
  | .typeRef _ lines => linesIntentions lines

/-- The same of all lines. -/
def linesIntentions : List SignatureLine → List (List Intention)
  | [] => []
  | line :: lines => lineIntentions line ++ linesIntentions lines

end

theorem reorderLines_append (f : List Intention → List Intention) (l m : List SignatureLine) :
    reorderLines f (l ++ m) = reorderLines f l ++ reorderLines f m := by
  induction l with
  | nil => rfl
  | cons line l ih => rw [List.cons_append, reorderLines, ih, reorderLines, List.cons_append]

theorem linesIntentions_append (l m : List SignatureLine) :
    linesIntentions (l ++ m) = linesIntentions l ++ linesIntentions m := by
  induction l with
  | nil => rfl
  | cons line l ih => rw [List.cons_append, linesIntentions, ih, linesIntentions, List.append_assoc]

/-- Lines that are numbers, like those of dimensions. -/
theorem reorderLines_ints (f : List Intention → List Intention) (ns : List Nat) :
    reorderLines f (ns.map .int) = ns.map .int := by
  induction ns with
  | nil => rfl
  | cons n ns ih => rw [List.map_cons, reorderLines, ih, reorderLine]

theorem linesIntentions_ints (ns : List Nat) : linesIntentions (ns.map .int) = [] := by
  induction ns with
  | nil => rfl
  | cons n ns ih => rw [List.map_cons, linesIntentions, ih, lineIntentions, List.append_nil]

theorem reorderFields_length (f : List Intention → List Intention) : ∀ fields : Fields,
    (reorderFields f fields).length = fields.length
  | .nil => rfl
  | .cons _ _ _ rest => congrArg (· + 1) (reorderFields_length f rest)

mutual

/-- The lines of a type in another order. -/
theorem genSigLine_reorder (f : List Intention → List Intention) : ∀ t : DataType,
    genSigLine (reorder f t) = (genSigLine t).map (reorderLines f)
  | .void => rfl
  | .prim _ => rfl
  | .user name type => by
      rw [reorder, genSigLine, genSigLine_reorder f type, genSigLine]
      cases genSigLine type <;> rfl
  | .struct fields => by
      rw [reorder, genSigLine, genSigLineFields_reorder f fields, genSigLine,
        reorderFields_length f fields]
      cases genSigLineFields fields with
      | none => rfl
      | some lines =>
          show some (_ :: _ :: (reorderLines f lines ++ [.comment])) =
            some (_ :: _ :: reorderLines f (lines ++ [.comment]))
          rw [reorderLines_append]
          rfl
  | .array elem dim => by
      rw [reorder, genSigLine, genSigLine_reorder f elem, genSigLine, mapM_signatureLine]
      split
      · cases genSigLine elem with
        | none => rfl
        | some lines =>
            refine congrArg some (congrArg (_ :: _ :: ·) ?_)
            show _ ++ (reorderLines f lines ++ [.comment]) = reorderLines f (_ ++ (lines ++ _))
            rw [reorderLines_append, reorderLines_append, reorderLines_ints]
            rfl
      · rfl

theorem genSigLineFields_reorder (f : List Intention → List Intention) : ∀ fields : Fields,
    genSigLineFields (reorderFields f fields) = (genSigLineFields fields).map (reorderLines f)
  | .nil => rfl
  | .cons intentions name type rest => by
      rw [reorderFields, genSigLineFields, genSigLine_reorder f type,
        genSigLineFields_reorder f rest, genSigLineFields]
      cases genSigLine type with
      | none => rfl
      | some lines =>
          cases genSigLineFields rest with
          | none => rfl
          | some more =>
              exact congrArg some (congrArg (_ :: ·) (reorderLines_append f lines more).symm)

end

mutual

/-- The lines of a type have its intentions. -/
theorem genSigLine_intentions : ∀ {t : DataType} {lines : List SignatureLine},
    genSigLine t = some lines → linesIntentions lines = fieldIntentions t
  | .void, _, h => by
      cases h
      rfl
  | .prim _, _, h => by
      cases h
      rfl
  | .user name type, _, h => by
      simp only [genSigLine, Option.bind_eq_bind, Option.bind_eq_some_iff] at h
      obtain ⟨lines, hlines, hpure⟩ := h
      cases hpure
      show linesIntentions lines ++ [] = fieldIntentions type
      rw [List.append_nil, genSigLine_intentions hlines]
  | .struct fields, _, h => by
      simp only [genSigLine, Option.bind_eq_bind, Option.bind_eq_some_iff] at h
      obtain ⟨lines, hlines, hpure⟩ := h
      cases hpure
      show linesIntentions (lines ++ [.comment]) = _
      rw [linesIntentions_append, genSigLineFields_intentions hlines]
      exact List.append_nil _
  | .array elem dim, _, h => by
      simp only [genSigLine, Option.bind_eq_bind, Option.bind_eq_some_iff] at h
      obtain ⟨exps, hexps, lines, hlines, hpure⟩ := h
      cases hpure
      rw [mapM_signatureLine] at hexps
      split at hexps
      · cases hexps
        show linesIntentions (_ ++ (lines ++ [.comment])) = _
        rw [linesIntentions_append, linesIntentions_append, linesIntentions_ints,
          genSigLine_intentions hlines]
        exact List.append_nil _
      · cases hexps

theorem genSigLineFields_intentions : ∀ {fields : Fields} {lines : List SignatureLine},
    genSigLineFields fields = some lines → linesIntentions lines = fieldsIntentions fields
  | .nil, _, h => by
      cases h
      rfl
  | .cons intentions name type rest, _, h => by
      simp only [genSigLineFields, Option.bind_eq_bind, Option.bind_eq_some_iff] at h
      obtain ⟨lines, hlines, more, hmore, hpure⟩ := h
      cases hpure
      show intentions :: linesIntentions (lines ++ more) = _
      rw [linesIntentions_append, genSigLine_intentions hlines, genSigLineFields_intentions hmore,
        fieldsIntentions]

end

mutual

/-- A type has lines if its sizes are `int`s. -/
theorem genSigLine_isSome : ∀ t : DataType,
    (genSigLine t).isSome ↔ ∀ n ∈ dimSizes t, n < 2 ^ 31
  | .void => by simp [genSigLine, dimSizes]
  | .prim _ => by simp [genSigLine, dimSizes]
  | .user name type => by
      rw [dimSizes, ← genSigLine_isSome type, genSigLine]
      cases genSigLine type <;> rfl
  | .struct fields => by
      rw [dimSizes, ← genSigLineFields_isSome fields, genSigLine]
      cases genSigLineFields fields <;> rfl
  | .array elem dim => by
      rw [dimSizes, List.forall_mem_append, ← genSigLine_isSome elem, genSigLine,
        mapM_signatureLine]
      split
      · rename_i hdim
        rw [and_iff_right hdim]
        cases genSigLine elem <;> rfl
      · rename_i hdim
        exact iff_of_false (by simp) fun h => hdim h.1

theorem genSigLineFields_isSome : ∀ fields : Fields,
    (genSigLineFields fields).isSome ↔ ∀ n ∈ fieldsDimSizes fields, n < 2 ^ 31
  | .nil => by simp [genSigLineFields, fieldsDimSizes]
  | .cons intentions name type rest => by
      rw [fieldsDimSizes, List.forall_mem_append, ← genSigLine_isSome type,
        ← genSigLineFields_isSome rest, genSigLineFields]
      cases genSigLine type <;> cases genSigLineFields rest <;> simp

end

/-! ## Bytes -/

/-- The intentions of a field have bytes if they are short. -/
theorem getIntentionBytes_isSome (is : List Intention) :
    (getIntentionBytes is).isSome ↔ ∀ i ∈ is, Short i := by
  have heach (i : Intention) : (Compiler.toByteArray i).isSome ↔ Short i := by
    constructor
    · intro h
      obtain ⟨bs, hbs⟩ := Option.isSome_iff_exists.mp h
      obtain ⟨hkey, hvalue, _⟩ := toByteArray_eq hbs
      exact ⟨hkey, hvalue⟩
    · intro hshort
      have hfits : LengthsFit i := ⟨by have := hshort.1; omega, by have := hshort.2; omega⟩
      have hok := (Arrays.toByteArray_ok hfits i.bytes).mpr ⟨hshort, rfl⟩
      rw [(toByteArray_ok_iff_some hfits i.bytes).mp hok]
      rfl
  have hall (js : List Intention) :
      (js.mapM Compiler.toByteArray).isSome ↔ ∀ i ∈ js, Short i := by
    induction js with
    | nil => simp
    | cons j js ih =>
        rw [List.forall_mem_cons, ← heach j, ← ih, List.mapM_cons]
        cases Compiler.toByteArray j <;> cases js.mapM Compiler.toByteArray <;> simp
  rw [← forall_mem_sortedIntentions is Short, ← hall, getIntentionBytes]
  cases (sortedIntentions is).mapM Compiler.toByteArray <;> rfl

theorem getIntBytes_isSome (data version : Nat) :
    (getIntBytes data version).isSome ↔ version = 2006 ∨ version = 2014 := by
  unfold getIntBytes
  split <;> simp_all

theorem joined_isSome (a b : Option (List UInt8)) :
    (joined a b).isSome ↔ a.isSome ∧ b.isSome := by
  cases a <;> cases b <;> simp [joined]

section Version

variable {version : Nat}

mutual

theorem expandLine_isSome (hversion : version = 2006 ∨ version = 2014) : ∀ line : SignatureLine,
    (expandLine version line).isSome ↔ ∀ is ∈ lineIntentions line, ∀ i ∈ is, Short i
  | .comment => by simp [expandLine, lineIntentions]
  | .int data => by simp [expandLine, lineIntentions, getIntBytes_isSome, hversion]
  | .intentions is => by
      rw [expandLine, lineIntentions, List.forall_mem_singleton, getIntentionBytes_isSome]
  | .typeRef _ lines => by rw [expandLine, lineIntentions, expandLines_isSome hversion lines]

/-- In a known version, lines have bytes if their intentions are short. -/
theorem expandLines_isSome (hversion : version = 2006 ∨ version = 2014) :
    ∀ lines : List SignatureLine,
    (expandLines version lines).isSome ↔ ∀ is ∈ linesIntentions lines, ∀ i ∈ is, Short i
  | [] => by simp [expandLines, linesIntentions]
  | line :: lines => by
      rw [expandLines_cons, joined_isSome, expandLine_isSome hversion line,
        expandLines_isSome hversion lines, linesIntentions, List.forall_mem_append]

end

end Version

/-- The first line of a flat signature is a number. -/
theorem flatSignature_head : ∀ {t : DataType} {lines : List SignatureLine},
    flatSignature t = some lines → ∃ n rest, lines = .int n :: rest
  | .void, _, h => by
      cases h
      exact ⟨_, _, rfl⟩
  | .prim _, _, h => by
      cases h
      exact ⟨_, _, rfl⟩
  | .user _ type, _, h => flatSignature_head (t := type) h
  | .struct _, _, h => by
      simp only [flatSignature, Option.bind_eq_bind, Option.bind_eq_some_iff] at h
      obtain ⟨lines, _, hpure⟩ := h
      cases hpure
      exact ⟨_, _, rfl⟩
  | .array _ _, _, h => by
      simp only [flatSignature, Option.bind_eq_bind, Option.bind_eq_some_iff] at h
      obtain ⟨exps, _, lines, _, hpure⟩ := h
      cases hpure
      exact ⟨_, _, rfl⟩

theorem version_of_flatBytes {version : Nat} {t : DataType} {bs : List UInt8}
    (h : flatBytes version t = some bs) : version = 2006 ∨ version = 2014 := by
  obtain ⟨lines, hlines, hbytes⟩ := Option.bind_eq_some_iff.mp h
  obtain ⟨n, rest, rfl⟩ := flatSignature_head hlines
  rw [dataBytes_cons] at hbytes
  obtain ⟨a, _, ha, _, _⟩ := joined_eq_some hbytes
  refine (getIntBytes_isSome n version).mp ?_
  rw [show getIntBytes n version = some a from ha]
  rfl

/-- **What can be emitted** has a version, sizes and intentions that fit. -/
theorem flatBytes_isSome (version : Nat) (t : DataType) :
    (flatBytes version t).isSome ↔ Emittable version t := by
  rw [← genSigLine_expand]
  constructor
  · intro h
    obtain ⟨bs, hbs⟩ := Option.isSome_iff_exists.mp h
    obtain ⟨lines, hlines, hbytes⟩ := Option.bind_eq_some_iff.mp hbs
    -- the expanded lines are those of the flat signature, whose first one is a number
    have hversion := version_of_flatBytes ((genSigLine_expand version t).symm.trans hbs)
    refine ⟨hversion, (genSigLine_isSome t).mp (by rw [hlines]; rfl), ?_⟩
    rw [← genSigLine_intentions hlines, ← expandLines_isSome hversion, hbytes]
    rfl
  · rintro ⟨hversion, hsizes, hshort⟩
    obtain ⟨lines, hlines⟩ := Option.isSome_iff_exists.mp ((genSigLine_isSome t).mpr hsizes)
    rw [← genSigLine_intentions hlines, ← expandLines_isSome hversion] at hshort
    rwa [hlines, Option.bind_some]

/-! ## The same bytes -/

/-- The bytes of the intentions are the same in another order. -/
def SameBytes (f : List Intention → List Intention) (intentions : List (List Intention)) : Prop :=
  ∀ is ∈ intentions, getIntentionBytes (f is) = getIntentionBytes is

section Same

variable {f : List Intention → List Intention} (version : Nat) (index : Name → Int)

mutual

/-- Then the entry of a line is the same. -/
theorem emitLine_reorder : ∀ {line : SignatureLine}, SameBytes f (lineIntentions line) →
    emitLine version index (reorderLine f line) = emitLine version index line
  | .comment, _ => rfl
  | .int _, _ => rfl
  | .intentions is, h => by rw [reorderLine, emitLine, emitLine, h is List.mem_cons_self]
  | .typeRef _ lines, h => by rw [reorderLine, emitLine, emitLine, emitLines_reorder h]

theorem emitLines_reorder : ∀ {lines : List SignatureLine}, SameBytes f (linesIntentions lines) →
    emitLines version index (reorderLines f lines) = emitLines version index lines
  | [], _ => rfl
  | line :: lines, h => by
      obtain ⟨hline, hlines⟩ := List.forall_mem_append.mp h
      rw [reorderLines, emitLines, emitLines, emitLine_reorder hline, emitLines_reorder hlines]

end

/-- Then the table of a type is the same. -/
theorem treedata_reorder {t : DataType} (h : SameBytes f (fieldIntentions t)) :
    treedata version index (reorder f t) = treedata version index t := by
  unfold treedata
  rw [genSigLine_reorder]
  cases hlines : genSigLine t with
  | none => rfl
  | some lines =>
      rw [← genSigLine_intentions hlines] at h
      exact emitLines_reorder version index h

theorem emittedSignatures_reorder {d : Decl} (h : SameBytes f (fieldIntentions d.type)) :
    emittedSignatures version index (d.reorder f) = emittedSignatures version index d := by
  have htable := treedata_reorder version index h
  unfold emittedSignatures Decl.reorder
  rw [← treedata_flattened version index, htable, treedata_flattened]

end Same

/-- What has no bytes has no table. -/
theorem emittedSignatures_none {version : Nat} {index : Name → Int} {d : Decl}
    (h : ¬ Emittable version d.type) : emittedSignatures version index d = (none, none) := by
  have hflat : flatBytes version d.type = none := by
    rwa [← flatBytes_isSome, Option.not_isSome_iff_eq_none] at h
  have htable := treedata_flattened version index d.type
  rw [hflat, Option.map_eq_none_iff] at htable
  rw [emittedSignatures, hflat, htable]

section Injective

variable {f : List Intention → List Intention} {version : Nat}

mutual

/-- Lines with the same bytes have their intentions sorted alike, if they differ in the order of
these alone. -/
theorem expandLine_inj (hperm : ∀ is, (f is).Perm is) : ∀ {line : SignatureLine} {a b r s : List UInt8},
    expandLine version (reorderLine f line) = some a → expandLine version line = some b →
      a ++ r = b ++ s →
      (∀ is ∈ lineIntentions line, sortedIntentions (f is) = sortedIntentions is) ∧ r = s
  | .comment, _, _, _, _, ha, hb, h => by
      cases ha
      cases hb
      exact ⟨fun _ hmem => absurd hmem (by simp [lineIntentions]), h⟩
  | .int _, _, _, _, _, ha, hb, h => by
      cases ha.symm.trans hb
      exact ⟨fun _ hmem => absurd hmem (by simp [lineIntentions]), List.append_cancel_left h⟩
  | .intentions is, _, _, _, _, ha, hb, h => by
      -- as many intentions in both, each with the lengths of its key and value in front
      obtain ⟨hsorted, hrest⟩ := sortedIntentions_append_inj (hperm is).length_eq ha hb h
      refine ⟨fun js hjs => ?_, hrest⟩
      obtain rfl : js = is := List.mem_singleton.mp hjs
      exact hsorted
  | .typeRef _ lines, _, _, _, _, ha, hb, h => @expandLines_inj hperm lines _ _ _ _ ha hb h

theorem expandLines_inj (hperm : ∀ is, (f is).Perm is) : ∀ {lines : List SignatureLine} {a b r s : List UInt8},
    expandLines version (reorderLines f lines) = some a → expandLines version lines = some b →
      a ++ r = b ++ s →
      (∀ is ∈ linesIntentions lines, sortedIntentions (f is) = sortedIntentions is) ∧ r = s
  | [], _, _, _, _, ha, hb, h => by
      cases ha
      cases hb
      exact ⟨fun _ hmem => absurd hmem (by simp [linesIntentions]), h⟩
  | line :: lines, _, _, _, _, ha, hb, h => by
      rw [reorderLines, expandLines_cons] at ha
      rw [expandLines_cons] at hb
      obtain ⟨a, a', hline, hlines, rfl⟩ := joined_eq_some ha
      obtain ⟨b, b', hline', hlines', rfl⟩ := joined_eq_some hb
      rw [List.append_assoc, List.append_assoc] at h
      obtain ⟨hfirst, hnext⟩ := expandLine_inj hperm hline hline' h
      obtain ⟨hothers, hrest⟩ := expandLines_inj hperm hlines hlines' hnext
      exact ⟨List.forall_mem_append.mpr ⟨hfirst, hothers⟩, hrest⟩

end

/-- The bytes of a type tell how its intentions are sorted. -/
theorem sortedIntentions_of_flatBytes (hperm : ∀ is, (f is).Perm is) {t : DataType} (hemit : Emittable version t)
    (h : flatBytes version (reorder f t) = flatBytes version t) :
    ∀ is ∈ fieldIntentions t, sortedIntentions (f is) = sortedIntentions is := by
  obtain ⟨bs, hbs⟩ := Option.isSome_iff_exists.mp ((flatBytes_isSome version t).mpr hemit)
  rw [hbs, ← genSigLine_expand, genSigLine_reorder] at h
  rw [← genSigLine_expand] at hbs
  obtain ⟨lines, hlines, hexpand⟩ := Option.bind_eq_some_iff.mp hbs
  rw [hlines] at h
  rw [← genSigLine_intentions hlines]
  exact (@expandLines_inj f version hperm lines bs bs [] [] h hexpand rfl).1

end Injective

/-! ## Intentions with one key -/

theorem keyLe_trans (i j k : Intention) (hij : keyLe i j = true) (hjk : keyLe j k = true) :
    keyLe i k = true := by
  simp only [keyLe, decide_eq_true_eq] at hij hjk ⊢
  exact List.le_trans hij hjk

theorem keyLe_total (i j : Intention) : (keyLe i j || keyLe j i) = true := by
  simpa [keyLe] using List.le_total i.key j.key

/-- The intentions of a field are sorted alike in every order if one key has one value. -/
theorem sortedIntentions_orderFree_iff (is : List Intention) :
    (∀ js : List Intention, js.Perm is → sortedIntentions js = sortedIntentions is) ↔
      ∀ i ∈ is, ∀ j ∈ is, i.key = j.key → i.value = j.value := by
  unfold sortedIntentions
  rw [mergeSort_orderFree_iff keyLe_trans keyLe_total]
  refine forall₄_congr fun i _ j _ => ⟨fun h hkey => ?_, fun h hij hji => ?_⟩
  · have hle (x y : Intention) (hxy : x.key = y.key) : keyLe x y = true := by
      simp [keyLe, hxy]
    rw [h (hle i j hkey) (hle j i hkey.symm)]
  · simp only [keyLe, decide_eq_true_eq] at hij hji
    have hkey := List.le_antisymm hij hji
    have hvalue := h hkey
    cases i
    cases j
    exact congrArg₂ _ hkey hvalue

/-- The type has one order if no field is tied. -/
theorem Untied.sameBytes {t : DataType} (h : Untied t) :
    SameBytes canonical (fieldIntentions t) := by
  intro is his
  have hsorted := (sortedIntentions_orderFree_iff is).mpr (h is his) _ (canonical_perm is)
  rw [getIntentionBytes, getIntentionBytes, hsorted, (canonical_perm is).length_eq]

/-- The order in which one set yields `js`, and every other what was written. -/
def pick (js is : List Intention) : List Intention := if js.Perm is then js else is

theorem pick_perm (js is : List Intention) : (pick js is).Perm is := by
  unfold pick
  split
  · assumption
  · exact List.Perm.refl is

/-- The order of what was written. -/
def writtenOrder : IterationOrder Intention := ⟨id, List.Perm.refl⟩

/-- **Two runs emit the same signatures** if and only if, in what can be emitted, no field has two
intentions with one key and different values. -/
theorem stableSignatures_iff (version : Nat) (spec : Specification) :
    StableSignatures version spec ↔
      ∀ d ∈ spec.resolve writtenOrder, Emittable version d.type → Untied d.type := by
  have hwritten := spec.compiles_resolve writtenOrder
  constructor
  · intro hstable d hd hemit is his
    rw [← sortedIntentions_orderFree_iff]
    intro js hjs
    -- a run whose order is another one for the intentions of this field
    have hother := hwritten.reorder (pick_perm js)
    have hsame := hstable _ _ hother hwritten fun _ => 0
    rw [List.map_map, List.map_inj_left] at hsame
    have hflat : flatBytes version (reorder (pick js) d.type) = flatBytes version d.type :=
      congrArg Prod.fst (hsame d hd)
    have hsorted := sortedIntentions_of_flatBytes (pick_perm js) hemit hflat is his
    rwa [pick, if_pos hjs] at hsorted
  · intro huntied ds ds' hds hds' index
    -- each run emits what the one with the canonical order does
    have hcanonical (es : List Decl) (hes : Compiles spec es) :
        es.map (emittedSignatures version index) =
          (es.map (Decl.reorder canonical)).map (emittedSignatures version index) := by
      rw [List.map_map, List.map_inj_left]
      intro e he
      obtain ⟨d, hd, hde⟩ : ∃ d ∈ spec.resolve writtenOrder,
          d.reorder canonical = e.reorder canonical := by
        have hmem := List.mem_map_of_mem (f := Decl.reorder canonical) he
        rw [hes.canonical_eq hwritten, List.mem_map] at hmem
        exact hmem
      have htype : reorder canonical d.type = reorder canonical e.type := congrArg Decl.type hde
      have hemit : Emittable version d.type ↔ Emittable version e.type := by
        rw [← emittable_reorder canonical_perm, htype, emittable_reorder canonical_perm]
      -- what cannot be emitted is emitted in no order
      by_cases hcan : Emittable version e.type
      · have htied := huntied d hd (hemit.mpr hcan)
        rw [← untied_reorder canonical_perm, htype, untied_reorder canonical_perm] at htied
        exact (emittedSignatures_reorder version index htied.sameBytes).symm
      · have hcan' : ¬ Emittable version (e.reorder canonical).type := by
          rwa [Decl.reorder, emittable_reorder canonical_perm]
        rw [Function.comp_apply, emittedSignatures_none hcan, emittedSignatures_none hcan']
    rw [hcanonical ds hds, hcanonical ds' hds', hds.canonical_eq hds']

/-! ## A tied field -/

/-- `(k:"a") (k:"b") int x;` -/
def tiedIntentions : List Intention := [⟨[107], [97]⟩, ⟨[107], [98]⟩]

/-- `sample struct { (k:"a") (k:"b") int x; } s;` -/
def tiedSpec : Specification where
  decls := [⟨.sampleDecl, [], [115], .struct (.cons tiedIntentions [120] (.prim .int) .nil)⟩]
  parsed := by
    intro d hd
    obtain rfl := List.mem_singleton.mp hd
    exact ⟨by decide, by decide, by decide, trivial, trivial⟩
  checked := by decide

/-- The declaration in a run where the set of the field yields `is`. -/
def tiedDecl (is : List Intention) : Decl :=
  ⟨.sampleDecl, [⟨[], [115]⟩], [115], .struct (.cons is [120] (.prim .int) .nil)⟩

theorem tiedSpec_compiles {is : List Intention}
    (hset : is.Perm (tiedIntentions ++ [⟨[], [120]⟩])) : Compiles tiedSpec [tiedDecl is] :=
  .cons (List.Perm.refl _) (.struct (.cons hset (.prim .int) .nil)) .nil

/-- What is sorted already has its bytes in the order it is in. -/
theorem flatBytes_tiedDecl {is : List Intention}
    (hsorted : is.Pairwise fun i j => keyLe i j = true) :
    flatBytes 2014 (tiedDecl is).type = (is.mapM Compiler.toByteArray).map fun bytes =>
      [0x11, 1] ++ (packed32 is.length ++ bytes.flatten ++ [0x23]) := by
  have hbytes : getIntentionBytes is = (is.mapM Compiler.toByteArray).map fun bytes =>
      packed32 is.length ++ bytes.flatten := by
    rw [getIntentionBytes, sortedIntentions, List.mergeSort_of_pairwise hsorted]
    cases is.mapM Compiler.toByteArray <;> rfl
  have hrest : joined (flatBytes 2014 (.prim .int)) (flatFieldBytes .nil) = some [0x23] := rfl
  have hfirst : packed32 LABCOMM_STRUCT ++ packed32 1 = [0x11, 1] := rfl
  rw [tiedDecl, flatBytes_struct, flatFieldBytes_cons, hbytes, hrest]
  simp only [Fields.length, Nat.zero_add, hfirst]
  cases is.mapM Compiler.toByteArray <;> rfl

/-- The two intentions of one key, in the order of one run and in that of another. -/
theorem not_stableSignatures_tied : ¬ StableSignatures 2014 tiedSpec := by
  intro h
  have hruns := h _ _ (@tiedSpec_compiles [⟨[], [120]⟩, ⟨[107], [97]⟩, ⟨[107], [98]⟩] (by decide))
    (@tiedSpec_compiles [⟨[], [120]⟩, ⟨[107], [98]⟩, ⟨[107], [97]⟩] (by decide)) fun _ => 0
  have hflat := congrArg Prod.fst (List.singleton_injective hruns)
  rw [emittedSignatures, emittedSignatures, flatBytes_tiedDecl (by decide),
    flatBytes_tiedDecl (by decide)] at hflat
  revert hflat
  decide +kernel

end LabComm.Compiler
