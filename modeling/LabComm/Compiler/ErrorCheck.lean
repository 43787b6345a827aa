import LabComm.Compiler.Specification
import LabComm.Library.Parsing

set_option autoImplicit false

/-! # The traversal that looks for errors

`errorCheck` visits every node of a parsed specification. At each it calls `nameCheck`, which goes
on to the children unless the node is a declaration, a field or a user type, and `typeCheck`, and
then it collects what the node has reported. `isNull` of a user type is that of what is declared,
and `lookupType` returns null for what is not.

So the checks are total just if no field and no element of an array has a type whose name, or the
name of a typedef it leads to, is undeclared (`checksTotal_iff`).
-/

namespace LabComm.Compiler.Checks

open Library

/-! ## Names -/

/-- The loop of `lookupType`: the first typedef of the name, with the declarations before it. -/
def lookupTypeDecl : List ParsedDecl → Name → Option (List ParsedDecl × ParsedDecl)
  | [], _ => none
  | d :: ds, name =>
      if d.kind = .typeDecl ∧ d.name = name then some ([], d)
      else (lookupTypeDecl ds name).map fun found => (d :: found.1, found.2)

/-- The loop of `lookupName`. -/
def lookupName (before : List ParsedDecl) (name : Name) : Option Name :=
  (before.map ParsedDecl.name).find? (· == name)

/-- What is found is one of the declarations, with those before it. -/
theorem lookupTypeDecl_some {before : List ParsedDecl} {name : Name}
    {found : List ParsedDecl × ParsedDecl} (h : lookupTypeDecl before name = some found) :
    (∃ after, before = found.1 ++ found.2 :: after) ∧ found.2.kind = .typeDecl ∧
      found.2.name = name := by
  induction before generalizing found with
  | nil => cases h
  | cons d ds ih =>
      rw [lookupTypeDecl] at h
      split at h
      · rename_i hd
        cases h
        exact ⟨⟨ds, rfl⟩, hd⟩
      · obtain ⟨found', hfound, rfl⟩ := Option.map_eq_some_iff.mp h
        obtain ⟨⟨after, rfl⟩, hdecl⟩ := ih hfound
        exact ⟨⟨after, rfl⟩, hdecl⟩

/-- A typedef is found strictly before its use. -/
theorem lookupTypeDecl_lt {before : List ParsedDecl} {name : Name}
    {found : List ParsedDecl × ParsedDecl} (h : lookupTypeDecl before name = some found) :
    found.1.length < before.length := by
  obtain ⟨⟨after, rfl⟩, _⟩ := lookupTypeDecl_some h
  rw [List.length_append, List.length_cons]
  omega

/-! ## What is thrown and what is reported -/

/-- What is thrown. -/
inductive CheckException where
  | nullPointer
  deriving DecidableEq

/-- An argument of `error`. -/
inductive CheckError where
  | multiplyDeclared (name : Name)
  | undeclaredType
  | voidField (name declName : Name)
  | voidElement (declName : Name)
  | typedefIntention (name : Name)
  deriving DecidableEq

/-- The bytes of a text. -/
def text (s : String) : List UInt8 := s.toList.map fun c => UInt8.ofNat c.toNat

/-- What is printed of it, behind the line. -/
def CheckError.message : CheckError → List UInt8
  | multiplyDeclared name => name ++ text " multiply declared"
  | undeclaredType => text "Use of undeclared type"
  | voidField name declName =>
      text "field " ++ name ++ text " of struct " ++ declName ++ text " may not be of type void"
  | voidElement declName =>
      text "elements of array " ++ declName ++ text " may not be of type void"
  | typedefIntention name =>
      text "TypeDecl " ++ name ++ text " has intentions. (Not allowed for typedefs)"

/-- A check that throws, or returns the errors of each node that has some. -/
abbrev Check := Except CheckException (List (List CheckError))

/-- `if (hasErrors()) collection.add(errors)` -/
def collected (errors : List CheckError) : List (List CheckError) :=
  if errors = [] then [] else [errors]

/-- The errors of `times` calls of `nameCheck`, of which each reports `e` if `wrong`. -/
def named (times : Nat) (wrong : Bool) (e : CheckError) : List CheckError :=
  if wrong then List.replicate times e else []

/-! ## The checks -/

/-- `isNull` of a type of a declaration behind `before`. -/
def isNull (before : List ParsedDecl) : ParsedType → Except CheckException Bool
  | .void => pure true
  | .user name =>
      match _h : lookupTypeDecl before name with
      | none => throw .nullPointer
      | some found => isNull found.1 found.2.type
  | _ => pure false
termination_by before.length
decreasing_by exact lookupTypeDecl_lt _h

section Traversal

variable (before : List ParsedDecl) (declName : Name)

/-- `errorCheck` of the array that a `ParseArrayType` is rewritten to, given `isNull` and
`errorCheck` of its element type. -/
def errorCheckArray (null : Except CheckException Bool) (elem : Nat → Check) :
    Nat → List (List Exp) → Check
  | reached, [] => elem reached
  | reached, _ :: dims => do
      let null' ← if dims = [] then null else pure false
      let inner ← errorCheckArray null elem (reached + 1) dims
      pure (collected (if null' then [.voidElement declName] else []) ++ inner)

mutual

/-- `errorCheck` of a type of the declaration `declName`, that `reached` calls of `nameCheck` for
the nodes around it have come to before. -/
def errorCheckType : Nat → ParsedType → Check
  | _, .void => pure []
  | _, .prim _ => pure []
  | reached, .user name =>
      pure (collected (named (reached + 1) (lookupTypeDecl before name).isNone .undeclaredType))
  | reached, .struct fields => errorCheckFields (reached + 2) [] fields
  | reached, .array elem dims =>
      errorCheckArray declName (isNull before elem) (fun r => errorCheckType r elem) reached dims

/-- The same of the fields, where `names` are those of the fields before. -/
def errorCheckFields : Nat → List Name → ParsedFields → Check
  | _, _, .nil => pure []
  | reached, names, .cons _ name type rest => do
      let null ← isNull before type
      let inner ← errorCheckType 0 type
      let more ← errorCheckFields reached (names ++ [name]) rest
      pure (collected (named (reached + 1) (names.contains name) (.multiplyDeclared name) ++
        if null then [.voidField name declName] else []) ++ (inner ++ more))

end

end Traversal

/-- `annotationCheck` of a declaration, for the intentions that were written. -/
def annotationErrors (d : ParsedDecl) : List CheckError :=
  if d.kind = .typeDecl then
    (d.intentions.filter fun i => i.key ≠ []).map fun _ => .typedefIntention d.name
  else []

/-- `errorCheck` of the declarations behind `before`. Before it comes to one, `nameCheck` of the
specification and of the list have. -/
def errorCheckDecls (before : List ParsedDecl) : List ParsedDecl → Check
  | [] => pure []
  | d :: decls => do
      let declared := (lookupTypeDecl before d.name).isSome || (lookupName before d.name).isSome
      let inner ← errorCheckType before d.name 1 d.type
      let more ← errorCheckDecls (before ++ [d]) decls
      pure (collected (named 3 declared (.multiplyDeclared d.name) ++ annotationErrors d) ++
        (inner ++ more))

/-- `errorCheck` of a specification. -/
def errorCheck (decls : List ParsedDecl) : Check := errorCheckDecls [] decls

/-! ## What is in a type -/

mutual

/-- The names of the user types in a type. -/
def userNames : ParsedType → List Name
  | .void => []
  | .prim _ => []
  | .user name => [name]
  | .struct fields => fieldsUserNames fields
  | .array elem _ => userNames elem

/-- The same of the fields. -/
def fieldsUserNames : ParsedFields → List Name
  | .nil => []
  | .cons _ _ type rest => userNames type ++ fieldsUserNames rest

end

mutual

/-- The types of the fields and the array elements in a type. -/
def members : ParsedType → List ParsedType
  | .void => []
  | .prim _ => []
  | .user _ => []
  | .struct fields => fieldsMembers fields
  | .array elem _ => elem :: members elem

/-- The same of the fields. -/
def fieldsMembers : ParsedFields → List ParsedType
  | .nil => []
  | .cons _ _ type rest => type :: (members type ++ fieldsMembers rest)

end

/-- `P` holds of each declaration and those before it, where the first has `before` in front. -/
def AtEach (P : List ParsedDecl → ParsedDecl → Prop) (before decls : List ParsedDecl) : Prop :=
  ∀ (mid : List ParsedDecl) (d : ParsedDecl) (after : List ParsedDecl),
    decls = mid ++ d :: after → P (before ++ mid) d

theorem atEach_nil {P : List ParsedDecl → ParsedDecl → Prop} {before : List ParsedDecl} :
    AtEach P before [] := by
  intro mid d after h
  simp at h

theorem atEach_cons {P : List ParsedDecl → ParsedDecl → Prop} {before decls : List ParsedDecl}
    {d : ParsedDecl} :
    AtEach P before (d :: decls) ↔ P before d ∧ AtEach P (before ++ [d]) decls := by
  constructor
  · intro h
    refine ⟨?_, fun mid e after hdecls => ?_⟩
    · have hfirst := h [] d decls rfl
      rwa [List.append_nil] at hfirst
    · have hnext := h (d :: mid) e after (by rw [hdecls, List.cons_append])
      rwa [List.append_assoc, List.singleton_append]
  · rintro ⟨hfirst, hrest⟩ mid e after hdecls
    cases mid with
    | nil =>
        obtain ⟨rfl, _⟩ := List.cons.inj hdecls
        rwa [List.append_nil]
    | cons x mid =>
        obtain ⟨rfl, hmid⟩ := List.cons.inj hdecls
        have hnext := hrest mid e after hmid
        rwa [List.append_assoc, List.singleton_append] at hnext

/-- A type that is `void`, or a typedef that leads to it. -/
inductive DenotesVoid : List ParsedDecl → ParsedType → Prop where
  | void {before : List ParsedDecl} : DenotesVoid before .void
  | typedef {before : List ParsedDecl} {name : Name} {found : List ParsedDecl × ParsedDecl}
      (hname : lookupTypeDecl before name = some found) (htype : DenotesVoid found.1 found.2.type) :
      DenotesVoid before (.user name)

/-- A type that is no undeclared name, and neither is what it leads to. -/
inductive Grounded : List ParsedDecl → ParsedType → Prop where
  | builtin {before : List ParsedDecl} {t : ParsedType} (h : ∀ name, t ≠ .user name) :
      Grounded before t
  | typedef {before : List ParsedDecl} {name : Name} {found : List ParsedDecl × ParsedDecl}
      (hname : lookupTypeDecl before name = some found) (htype : Grounded found.1 found.2.type) :
      Grounded before (.user name)

theorem isNull_user (before : List ParsedDecl) (name : Name) :
    isNull before (.user name) = match lookupTypeDecl before name with
      | none => throw .nullPointer
      | some found => isNull found.1 found.2.type := by
  rw [isNull]
  cases lookupTypeDecl before name <;> rfl

theorem isNull_void (before : List ParsedDecl) : isNull before .void = .ok true := by
  rw [isNull]
  rfl

theorem isNull_builtin {before : List ParsedDecl} {t : ParsedType} (hvoid : t ≠ .void)
    (huser : ∀ name, t ≠ .user name) : isNull before t = .ok false := by
  cases t with
  | void => exact absurd rfl hvoid
  | user name => exact absurd rfl (huser name)
  | prim p => rw [isNull] <;> simp [pure, Except.pure]
  | struct fields => rw [isNull] <;> simp [pure, Except.pure]
  | array elem dims => rw [isNull] <;> simp [pure, Except.pure]

/-- `isNull` returns for what is grounded. -/
theorem isNull_ok_iff {before : List ParsedDecl} {t : ParsedType} :
    (∃ b, isNull before t = .ok b) ↔ Grounded before t := by
  constructor
  · rintro ⟨b, h⟩
    induction before, t using isNull.induct with
    | case1 before => exact .builtin (by simp)
    | case2 before name hname =>
        rw [isNull_user, hname] at h
        cases h
    | case3 before name found hname ih =>
        rw [isNull_user, hname] at h
        exact .typedef hname (ih h)
    | case4 before t hvoid huser => exact .builtin huser
  · intro h
    induction h with
    | @builtin before t huser =>
        by_cases hvoid : t = .void
        · exact ⟨true, hvoid ▸ isNull_void before⟩
        · exact ⟨false, isNull_builtin hvoid huser⟩
    | @typedef before name found hname _ ih =>
        rw [isNull_user, hname]
        exact ih

/-- `isNull` is true of what denotes `void`. -/
theorem isNull_true_iff {before : List ParsedDecl} {t : ParsedType} :
    isNull before t = .ok true ↔ DenotesVoid before t := by
  constructor
  · intro h
    induction before, t using isNull.induct with
    | case1 before => exact .void
    | case2 before name hname =>
        rw [isNull_user, hname] at h
        cases h
    | case3 before name found hname ih =>
        rw [isNull_user, hname] at h
        exact .typedef hname (ih h)
    | case4 before t hvoid huser =>
        rw [isNull_builtin hvoid huser] at h
        cases h
  · intro h
    induction h with
    | void => exact isNull_void _
    | @typedef before name found hname _ ih =>
        rw [isNull_user, hname]
        exact ih

/-! ## When the checks return -/

section Returns

variable {before : List ParsedDecl} {declName : Name}

/-- The arrays around the innermost one report nothing. -/
theorem errorCheckArray_cons (null : Except CheckException Bool) (elem : Nat → Check)
    (reached : Nat) (dim : List Exp) (dims : List (List Exp)) :
    errorCheckArray declName null elem reached (dim :: dims) = (do
      let null' ← null
      let inner ← elem (reached + dims.length + 1)
      pure (collected (if null' then [.voidElement declName] else []) ++ inner)) := by
  induction dims generalizing reached dim with
  | nil => rfl
  | cons dim' dims ih =>
      rw [errorCheckArray, if_neg (by simp), ih]
      simp only [pure_bind, bind_assoc, List.length_cons]
      -- the element of an array that is no innermost one is an array, and so not null
      have hreached : reached + 1 + dims.length + 1 = reached + (dims.length + 1) + 1 := by omega
      rw [hreached]
      rfl

mutual

/-- The traversal of a type returns if `isNull` does for the types in it. -/
theorem errorCheckType_ok_iff : ∀ {t : ParsedType} {reached : Nat}, t.Parsed →
    ((∃ r, errorCheckType before declName reached t = .ok r) ↔
      ∀ u ∈ members t, ∃ b, isNull before u = .ok b)
  | .void, _, _ => by simp [errorCheckType, members, pure, Except.pure]
  | .prim _, _, _ => by simp [errorCheckType, members, pure, Except.pure]
  | .user _, _, _ => by simp [errorCheckType, members, pure, Except.pure]
  | .struct fields, _, hp => by
      rw [errorCheckType, members]
      exact errorCheckFields_ok_iff hp.2.2
  | .array elem dims, reached, hp => by
      obtain ⟨dim, dims, rfl⟩ := List.exists_cons_of_ne_nil hp.1
      have ih := @errorCheckType_ok_iff elem (reached + dims.length + 1) hp.2.2
      rw [errorCheckType, errorCheckArray_cons, members, List.forall_mem_cons, ← ih]
      constructor
      · rintro ⟨r, h⟩
        obtain ⟨b, hb, h⟩ := except_bind_ok.mp h
        obtain ⟨inner, hinner, _⟩ := except_bind_ok.mp h
        exact ⟨⟨b, hb⟩, ⟨inner, hinner⟩⟩
      · rintro ⟨⟨b, hb⟩, ⟨inner, hinner⟩⟩
        exact ⟨_, except_bind_ok.mpr ⟨b, hb, except_bind_ok.mpr ⟨inner, hinner, rfl⟩⟩⟩

theorem errorCheckFields_ok_iff : ∀ {fields : ParsedFields} {reached : Nat} {names : List Name},
    fields.Parsed →
      ((∃ r, errorCheckFields before declName reached names fields = .ok r) ↔
        ∀ u ∈ fieldsMembers fields, ∃ b, isNull before u = .ok b)
  | .nil, _, _, _ => by simp [errorCheckFields, fieldsMembers, pure, Except.pure]
  | .cons intentions name type rest, reached, names, hp => by
      have ih := @errorCheckType_ok_iff type 0 hp.2.1
      have ihr := @errorCheckFields_ok_iff rest reached (names ++ [name]) hp.2.2
      rw [errorCheckFields, fieldsMembers, List.forall_mem_cons, List.forall_mem_append, ← ih,
        ← ihr]
      constructor
      · rintro ⟨r, h⟩
        obtain ⟨b, hb, h⟩ := except_bind_ok.mp h
        obtain ⟨inner, hinner, h⟩ := except_bind_ok.mp h
        obtain ⟨more, hmore, _⟩ := except_bind_ok.mp h
        exact ⟨⟨b, hb⟩, ⟨inner, hinner⟩, ⟨more, hmore⟩⟩
      · rintro ⟨⟨b, hb⟩, ⟨inner, hinner⟩, ⟨more, hmore⟩⟩
        exact ⟨_, except_bind_ok.mpr ⟨b, hb, except_bind_ok.mpr ⟨inner, hinner,
          except_bind_ok.mpr ⟨more, hmore, rfl⟩⟩⟩⟩

end

end Returns

/-- The types of the fields and the array elements are grounded. -/
def MembersGrounded (before : List ParsedDecl) (d : ParsedDecl) : Prop :=
  ∀ t ∈ members d.type, Grounded before t

theorem errorCheckDecls_ok_iff {before decls : List ParsedDecl} (hp : ∀ d ∈ decls, d.type.Parsed) :
    (∃ r, errorCheckDecls before decls = .ok r) ↔ AtEach MembersGrounded before decls := by
  induction decls generalizing before with
  | nil => exact iff_of_true ⟨_, rfl⟩ atEach_nil
  | cons d decls ih =>
      have hd := @errorCheckType_ok_iff before d.name d.type 1 (hp d List.mem_cons_self)
      have hrest := @ih (before ++ [d]) fun e he => hp e (List.mem_cons_of_mem d he)
      simp only [isNull_ok_iff] at hd
      rw [atEach_cons, MembersGrounded, ← hd, ← hrest, errorCheckDecls]
      constructor
      · rintro ⟨r, h⟩
        obtain ⟨inner, hinner, h⟩ := except_bind_ok.mp h
        obtain ⟨more, hmore, _⟩ := except_bind_ok.mp h
        exact ⟨⟨inner, hinner⟩, ⟨more, hmore⟩⟩
      · rintro ⟨⟨inner, hinner⟩, ⟨more, hmore⟩⟩
        exact ⟨_, except_bind_ok.mpr ⟨inner, hinner, except_bind_ok.mpr ⟨more, hmore, rfl⟩⟩⟩

/-! ## When nothing is reported -/

theorem lookupTypeDecl_append (ds es : List ParsedDecl) (name : Name) :
    lookupTypeDecl (ds ++ es) name = ((lookupTypeDecl ds name).or
      ((lookupTypeDecl es name).map fun found => (ds ++ found.1, found.2))) := by
  induction ds with
  | nil => simp [lookupTypeDecl]
  | cons d ds ih =>
      rw [List.cons_append, lookupTypeDecl, lookupTypeDecl]
      split
      · rfl
      · rw [ih]
        cases lookupTypeDecl ds name <;> cases lookupTypeDecl es name <;> rfl

theorem lookupType_append {α : Type} (env env' : List (Name × α)) (name : Name) :
    lookupType (env ++ env') name = (lookupType env name).or (lookupType env' name) := by
  rw [lookupType, List.find?_append, Option.map_or]
  rfl

/-- The typedefs up to a declaration, with whether they are `isNull`. -/
def nullStep (env : NullEnv) (d : ParsedDecl) : NullEnv :=
  if d.kind = .typeDecl then env ++ [(d.name, d.type.isNull env)] else env

/-- Those of the declarations before. -/
def nullEnvOf (before : List ParsedDecl) : NullEnv := before.foldl nullStep []

theorem nullEnvOf_append_singleton (before : List ParsedDecl) (d : ParsedDecl) :
    nullEnvOf (before ++ [d]) = nullStep (nullEnvOf before) d := by
  rw [nullEnvOf, List.foldl_append]
  rfl

/-- Both lookups find the same typedef. -/
theorem lookupType_nullEnvOf (before : List ParsedDecl) (name : Name) :
    lookupType (nullEnvOf before) name = (lookupTypeDecl before name).map fun found =>
      found.2.type.isNull (nullEnvOf found.1) := by
  induction before using List.reverseRecOn with
  | nil => rfl
  | append_singleton ds d ih =>
      -- the last declaration is found only if none before it is
      rw [nullEnvOf_append_singleton, nullStep, lookupTypeDecl_append]
      by_cases hkind : d.kind = .typeDecl
      · rw [if_pos hkind, lookupType_append, ih]
        by_cases hname : d.name = name
        · cases lookupTypeDecl ds name <;> simp [lookupTypeDecl, lookupType, hkind, hname]
        · cases lookupTypeDecl ds name <;> simp [lookupTypeDecl, lookupType, hname]
      · rw [if_neg hkind, ih]
        cases lookupTypeDecl ds name <;> simp [lookupTypeDecl, hkind]

/-- `isNull` in terms of the typedefs before. -/
theorem isNull_nullEnvOf {before : List ParsedDecl} {t : ParsedType} {b : Bool}
    (h : isNull before t = .ok b) : t.isNull (nullEnvOf before) = b := by
  induction before, t using isNull.induct with
  | case1 before =>
      rw [isNull_void] at h
      cases h
      rfl
  | case2 before name hname =>
      rw [isNull_user, hname] at h
      cases h
  | case3 before name found hname ih =>
      rw [isNull_user, hname] at h
      rw [ParsedType.isNull, lookupType_nullEnvOf, hname]
      exact ih h
  | case4 before t hvoid huser =>
      rw [isNull_builtin hvoid huser] at h
      cases h
      cases t with
      | void => exact absurd rfl hvoid
      | user name => exact absurd rfl (huser name)
      | prim p => rfl
      | struct fields => rfl
      | array elem dims => rfl

theorem isNull_false_iff {before : List ParsedDecl} {t : ParsedType} :
    isNull before t = .ok false ↔ Grounded before t ∧ t.isNull (nullEnvOf before) = false := by
  constructor
  · exact fun h => ⟨isNull_ok_iff.mp ⟨false, h⟩, isNull_nullEnvOf h⟩
  · rintro ⟨hgrounded, hnull⟩
    obtain ⟨b, hb⟩ := isNull_ok_iff.mpr hgrounded
    rw [hb, ← hnull, isNull_nullEnvOf hb]

theorem collected_eq_nil {errors : List CheckError} : collected errors = [] ↔ errors = [] := by
  unfold collected
  split <;> simp_all

theorem named_eq_nil {times : Nat} {wrong : Bool} {e : CheckError} :
    named (times + 1) wrong e = [] ↔ wrong = false := by
  cases wrong <;> simp [named, List.replicate_succ]

section Silent

variable {before : List ParsedDecl} {declName : Name}

mutual

/-- Nothing is reported of a type that passes the checks and returns from them. -/
theorem errorCheckType_nil_iff : ∀ {t : ParsedType} {reached : Nat}, t.Parsed →
    (errorCheckType before declName reached t = .ok [] ↔
      Compiler.errorCheckType (nullEnvOf before) t = true ∧ ∀ u ∈ members t, Grounded before u)
  | .void, _, _ => by simp [errorCheckType, Compiler.errorCheckType, members, pure, Except.pure]
  | .prim _, _, _ => by simp [errorCheckType, Compiler.errorCheckType, members, pure, Except.pure]
  | .user name, reached, _ => by
      rw [errorCheckType, Compiler.errorCheckType, lookupType_nullEnvOf, Option.isSome_map]
      show Except.ok _ = Except.ok _ ↔ _
      rw [Except.ok.injEq, collected_eq_nil, named_eq_nil]
      cases lookupTypeDecl before name <;> simp [members]
  | .struct fields, _, hp => by
      rw [errorCheckType, Compiler.errorCheckType, members]
      exact errorCheckFields_nil_iff hp.2.2
  | .array elem dims, reached, hp => by
      obtain ⟨dim, dims, rfl⟩ := List.exists_cons_of_ne_nil hp.1
      have ih := @errorCheckType_nil_iff elem (reached + dims.length + 1) hp.2.2
      rw [errorCheckType, errorCheckArray_cons, Compiler.errorCheckType, members,
        List.forall_mem_cons]
      constructor
      · intro h
        obtain ⟨b, hb, h⟩ := except_bind_ok.mp h
        obtain ⟨inner, hinner, h⟩ := except_bind_ok.mp h
        obtain ⟨hvoid, rfl⟩ := List.append_eq_nil_iff.mp (Except.ok.inj h)
        obtain ⟨hcheck, hmembers⟩ := ih.mp hinner
        -- a `void` element would have been reported
        rw [collected_eq_nil] at hvoid
        obtain rfl : b = false := by
          cases b
          · rfl
          · cases hvoid
        obtain ⟨hgrounded, hnull⟩ := isNull_false_iff.mp hb
        exact ⟨by rw [hnull, hcheck]; rfl, hgrounded, hmembers⟩
      · rintro ⟨hbool, hgrounded, hmembers⟩
        obtain ⟨hnull, hcheck⟩ := Bool.and_eq_true_iff.mp hbool
        have hb := isNull_false_iff.mpr ⟨hgrounded, by simpa using hnull⟩
        exact except_bind_ok.mpr ⟨false, hb, except_bind_ok.mpr
          ⟨[], ih.mpr ⟨hcheck, hmembers⟩, rfl⟩⟩

theorem errorCheckFields_nil_iff :
    ∀ {fields : ParsedFields} {reached : Nat} {names : List Name}, fields.Parsed →
      (errorCheckFields before declName reached names fields = .ok [] ↔
        Compiler.errorCheckFields (nullEnvOf before) names fields = true ∧
          ∀ u ∈ fieldsMembers fields, Grounded before u)
  | .nil, _, _, _ => by
      simp [errorCheckFields, Compiler.errorCheckFields, fieldsMembers, pure, Except.pure]
  | .cons intentions name type rest, reached, names, hp => by
      have ih := @errorCheckType_nil_iff type 0 hp.2.1
      have ihr := @errorCheckFields_nil_iff rest reached (names ++ [name]) hp.2.2
      rw [errorCheckFields, Compiler.errorCheckFields, fieldsMembers, List.forall_mem_cons,
        List.forall_mem_append]
      simp only [Bool.and_eq_true, Bool.not_eq_true']
      constructor
      · -- no message: none of the name, none of the type and none of the rest
        intro h
        obtain ⟨b, hb, h⟩ := except_bind_ok.mp h
        obtain ⟨inner, hinner, h⟩ := except_bind_ok.mp h
        obtain ⟨more, hmore, h⟩ := except_bind_ok.mp h
        obtain ⟨hown, hrest⟩ := List.append_eq_nil_iff.mp (Except.ok.inj h)
        obtain ⟨rfl, rfl⟩ := List.append_eq_nil_iff.mp hrest
        rw [collected_eq_nil, List.append_eq_nil_iff, named_eq_nil] at hown
        obtain ⟨hname, hvoid⟩ := hown
        obtain rfl : b = false := by
          cases b
          · rfl
          · cases hvoid
        obtain ⟨hgrounded, hnull⟩ := isNull_false_iff.mp hb
        obtain ⟨hcheck, hmembers⟩ := ih.mp hinner
        obtain ⟨hchecks, hmore'⟩ := ihr.mp hmore
        exact ⟨⟨⟨⟨hname, hnull⟩, hcheck⟩, hchecks⟩, hgrounded, hmembers, hmore'⟩
      · rintro ⟨⟨⟨⟨hname, hnull⟩, hcheck⟩, hchecks⟩, hgrounded, hmembers, hmore⟩
        refine except_bind_ok.mpr ⟨false, isNull_false_iff.mpr ⟨hgrounded, hnull⟩, ?_⟩
        refine except_bind_ok.mpr ⟨[], ih.mpr ⟨hcheck, hmembers⟩, ?_⟩
        refine except_bind_ok.mpr ⟨[], ihr.mpr ⟨hchecks, hmore⟩, ?_⟩
        rw [hname]
        rfl

end

end Silent

theorem annotationErrors_eq_nil (d : ParsedDecl) :
    annotationErrors d = [] ↔ annotationCheck d = true := by
  cases hkind : d.kind <;> simp [annotationErrors, annotationCheck, hkind]

/-- A name is declared before if one of the names before is the same. -/
theorem declared_eq (before : List ParsedDecl) (name : Name) :
    ((lookupTypeDecl before name).isSome || (lookupName before name).isSome) =
      (before.map ParsedDecl.name).contains name := by
  have hname : (lookupName before name).isSome = (before.map ParsedDecl.name).contains name := by
    rw [Bool.eq_iff_iff, lookupName, List.find?_isSome, List.contains_iff_mem]
    simp
  rw [hname]
  cases hfound : lookupTypeDecl before name with
  | none => rfl
  | some found =>
      obtain ⟨⟨after, rfl⟩, _, rfl⟩ := lookupTypeDecl_some hfound
      simp

theorem errorCheckDecls_nil_iff {before decls : List ParsedDecl}
    (hp : ∀ d ∈ decls, d.type.Parsed) : errorCheckDecls before decls = .ok [] ↔
      Compiler.errorCheck (before.map ParsedDecl.name) (nullEnvOf before) decls = true ∧
        AtEach MembersGrounded before decls := by
  induction decls generalizing before with
  | nil => exact iff_of_true rfl ⟨rfl, atEach_nil⟩
  | cons d decls ih =>
      have hd := @errorCheckType_nil_iff before d.name d.type 1 (hp d List.mem_cons_self)
      have hrest := @ih (before ++ [d]) fun e he => hp e (List.mem_cons_of_mem d he)
      rw [nullEnvOf_append_singleton, List.map_append] at hrest
      rw [atEach_cons, MembersGrounded, errorCheckDecls, Compiler.errorCheck, declared_eq]
      simp only [Bool.and_eq_true, Bool.not_eq_true']
      constructor
      · intro h
        obtain ⟨inner, hinner, h⟩ := except_bind_ok.mp h
        obtain ⟨more, hmore, h⟩ := except_bind_ok.mp h
        obtain ⟨hown, hothers⟩ := List.append_eq_nil_iff.mp (Except.ok.inj h)
        obtain ⟨rfl, rfl⟩ := List.append_eq_nil_iff.mp hothers
        rw [collected_eq_nil, List.append_eq_nil_iff, named_eq_nil, annotationErrors_eq_nil] at hown
        obtain ⟨hcheck, hmembers⟩ := hd.mp hinner
        obtain ⟨hchecks, hall⟩ := hrest.mp hmore
        exact ⟨⟨⟨⟨hown.1, hcheck⟩, hown.2⟩, hchecks⟩, hmembers, hall⟩
      · rintro ⟨⟨⟨⟨hname, hcheck⟩, hannotation⟩, hchecks⟩, hmembers, hall⟩
        refine except_bind_ok.mpr ⟨[], hd.mpr ⟨hcheck, hmembers⟩, ?_⟩
        refine except_bind_ok.mpr ⟨[], hrest.mpr ⟨hchecks, hall⟩, ?_⟩
        rw [hname, (annotationErrors_eq_nil d).mpr hannotation]
        rfl

/-- Nothing is reported of the type of a declaration. -/
def TypeSilent (before : List ParsedDecl) (d : ParsedDecl) : Prop :=
  errorCheckType before d.name 1 d.type = .ok []

/-- Nothing is reported of declarations if their names are different, and nothing is of their
types and intentions. -/
theorem errorCheckDecls_nil_of_names {before decls : List ParsedDecl}
    (hplain : ∀ d ∈ decls, annotationErrors d = []) : errorCheckDecls before decls = .ok [] ↔
      ((decls.map ParsedDecl.name).Nodup ∧
        ∀ d ∈ decls, d.name ∉ before.map ParsedDecl.name) ∧ AtEach TypeSilent before decls := by
  induction decls generalizing before with
  | nil => exact iff_of_true rfl ⟨⟨List.nodup_nil, by simp⟩, atEach_nil⟩
  | cons d decls ih =>
      have hrest := @ih (before ++ [d]) fun e he => hplain e (List.mem_cons_of_mem d he)
      have hd := hplain d List.mem_cons_self
      rw [atEach_cons, TypeSilent, errorCheckDecls, declared_eq, hd, List.append_nil,
        List.forall_mem_cons, List.map_cons, List.nodup_cons]
      simp only [List.map_append, List.map_singleton, List.mem_append, List.mem_singleton] at hrest
      constructor
      · intro h
        obtain ⟨inner, hinner, h⟩ := except_bind_ok.mp h
        obtain ⟨more, hmore, h⟩ := except_bind_ok.mp h
        obtain ⟨hown, hothers⟩ := List.append_eq_nil_iff.mp (Except.ok.inj h)
        obtain ⟨rfl, rfl⟩ := List.append_eq_nil_iff.mp hothers
        rw [collected_eq_nil, named_eq_nil] at hown
        obtain ⟨⟨hnodup, hnot⟩, hall⟩ := hrest.mp hmore
        refine ⟨⟨⟨fun hmem => ?_, hnodup⟩, by simpa using hown,
          fun e he hmem => hnot e he (.inl hmem)⟩, hinner, hall⟩
        obtain ⟨e, he, hname⟩ := List.mem_map.mp hmem
        exact hnot e he (.inr hname)
      · rintro ⟨⟨⟨hfirst, hnodup⟩, hname, hnot⟩, hinner, hall⟩
        refine except_bind_ok.mpr ⟨[], hinner, except_bind_ok.mpr ⟨[], ?_, ?_⟩⟩
        · refine hrest.mpr ⟨⟨hnodup, fun e he hmem => ?_⟩, hall⟩
          rcases hmem with hmem | hmem
          · exact hnot e he hmem
          · exact hfirst (List.mem_map.mpr ⟨e, he, hmem⟩)
        · have hcontains : (before.map ParsedDecl.name).contains d.name = false := by
            simpa using hname
          rw [hcontains]
          rfl

theorem errorCheckArray_nil {declName : Name} {null : Except CheckException Bool}
    {elem : Nat → Check} {reached : Nat} {dims : List (List Exp)}
    (h : errorCheckArray declName null elem reached dims = .ok []) :
    elem (reached + dims.length) = .ok [] := by
  cases dims with
  | nil => exact h
  | cons dim dims =>
      rw [errorCheckArray_cons] at h
      obtain ⟨b, _, h⟩ := except_bind_ok.mp h
      obtain ⟨inner, hinner, h⟩ := except_bind_ok.mp h
      obtain ⟨_, rfl⟩ := List.append_eq_nil_iff.mp (Except.ok.inj h)
      exact hinner

section Declared

variable {before : List ParsedDecl} {declName : Name}

mutual

/-- The names in a type of which nothing is reported are declared before. -/
theorem declared_of_silent : ∀ {t : ParsedType} {reached : Nat},
    errorCheckType before declName reached t = .ok [] →
      ∀ name ∈ userNames t, (lookupTypeDecl before name).isSome
  | .void, _, _, _, hmem => absurd hmem List.not_mem_nil
  | .prim _, _, _, _, hmem => absurd hmem List.not_mem_nil
  | .user _, _, h, _, hmem => by
      obtain rfl := List.mem_singleton.mp hmem
      rw [errorCheckType] at h
      have hsilent := collected_eq_nil.mp (Except.ok.inj h)
      rw [named_eq_nil, Option.isNone_eq_false_iff] at hsilent
      exact hsilent
  | .struct fields, reached, h, name, hmem =>
      @declaredFields_of_silent fields (reached + 2) [] h name hmem
  | .array elem dims, reached, h, name, hmem =>
      @declared_of_silent elem (reached + dims.length) (errorCheckArray_nil h) name hmem

theorem declaredFields_of_silent : ∀ {fields : ParsedFields} {reached : Nat} {names : List Name},
    errorCheckFields before declName reached names fields = .ok [] →
      ∀ name ∈ fieldsUserNames fields, (lookupTypeDecl before name).isSome
  | .nil, _, _, _, _, hmem => absurd hmem List.not_mem_nil
  | .cons _ _ type rest, _, _, h, name, hmem => by
      obtain ⟨b, _, h⟩ := except_bind_ok.mp h
      obtain ⟨inner, hinner, h⟩ := except_bind_ok.mp h
      obtain ⟨more, hmore, h⟩ := except_bind_ok.mp h
      obtain ⟨_, hothers⟩ := List.append_eq_nil_iff.mp (Except.ok.inj h)
      obtain ⟨rfl, rfl⟩ := List.append_eq_nil_iff.mp hothers
      rcases List.mem_append.mp hmem with hmem | hmem
      · exact declared_of_silent hinner name hmem
      · exact declaredFields_of_silent hmore name hmem

end

end Declared

/-! ## What is declared -/

mutual

/-- The names in a type that passes the checks are declared. -/
theorem declared_of_errorCheckType {env : NullEnv} : ∀ {t : ParsedType},
    Compiler.errorCheckType env t = true → ∀ name ∈ userNames t, (lookupType env name).isSome
  | .void, _, _, hmem => absurd hmem List.not_mem_nil
  | .prim _, _, _, hmem => absurd hmem List.not_mem_nil
  | .user _, h, _, hmem => by
      obtain rfl := List.mem_singleton.mp hmem
      exact h
  | .struct fields, h, name, hmem => @declared_of_errorCheckFields env fields [] h name hmem
  | .array elem _, h, name, hmem =>
      declared_of_errorCheckType (t := elem) (Bool.and_eq_true_iff.mp h).2 name hmem

theorem declared_of_errorCheckFields {env : NullEnv} :
    ∀ {fields : ParsedFields} {names : List Name},
      Compiler.errorCheckFields env names fields = true →
        ∀ name ∈ fieldsUserNames fields, (lookupType env name).isSome
  | .nil, _, _, _, hmem => absurd hmem List.not_mem_nil
  | .cons _ _ type rest, _, h, name, hmem => by
      simp only [Compiler.errorCheckFields, Bool.and_eq_true] at h
      rcases List.mem_append.mp hmem with hmem | hmem
      · exact declared_of_errorCheckType h.1.2 name hmem
      · exact declared_of_errorCheckFields h.2 name hmem

end

mutual

/-- A name that is a member of a type is one of its names. -/
theorem mem_userNames_of_members {name : Name} : ∀ {t : ParsedType},
    ParsedType.user name ∈ members t → name ∈ userNames t
  | .void, hmem => absurd hmem List.not_mem_nil
  | .prim _, hmem => absurd hmem List.not_mem_nil
  | .user _, hmem => absurd hmem List.not_mem_nil
  | .struct fields, hmem => @mem_fieldsUserNames_of_members name fields hmem
  | .array elem _, hmem => by
      rcases List.mem_cons.mp hmem with rfl | hmem
      · exact List.mem_singleton_self name
      · exact mem_userNames_of_members (t := elem) hmem

theorem mem_fieldsUserNames_of_members {name : Name} : ∀ {fields : ParsedFields},
    ParsedType.user name ∈ fieldsMembers fields → name ∈ fieldsUserNames fields
  | .nil, hmem => absurd hmem List.not_mem_nil
  | .cons _ _ type rest, hmem => by
      rw [fieldsMembers] at hmem
      rw [fieldsUserNames, List.mem_append]
      rcases List.mem_cons.mp hmem with rfl | hmem
      · exact .inl (List.mem_singleton_self name)
      · rcases List.mem_append.mp hmem with hmem | hmem
        · exact .inl (mem_userNames_of_members hmem)
        · exact .inr (mem_fieldsUserNames_of_members hmem)

end

/-- The names in the type of the declaration are declared before. -/
def NamesDeclared (before : List ParsedDecl) (d : ParsedDecl) : Prop :=
  ∀ name ∈ userNames d.type, (lookupTypeDecl before name).isSome

/-- The typedefs before lead to no undeclared name. -/
def TypedefsGrounded (before : List ParsedDecl) : Prop :=
  ∀ (name : Name) (found : List ParsedDecl × ParsedDecl),
    lookupTypeDecl before name = some found → Grounded found.1 found.2.type

/-- A type with a declared name is grounded, if the typedefs before are. -/
theorem TypedefsGrounded.grounded {before : List ParsedDecl} (h : TypedefsGrounded before)
    {t : ParsedType} (ht : ∀ name, t = .user name → (lookupTypeDecl before name).isSome) :
    Grounded before t := by
  by_cases huser : ∃ name, t = .user name
  · obtain ⟨name, rfl⟩ := huser
    obtain ⟨found, hfound⟩ := Option.isSome_iff_exists.mp (ht name rfl)
    exact .typedef hfound (h name found hfound)
  · exact .builtin fun name hname => huser ⟨name, hname⟩

theorem TypedefsGrounded.append_singleton {before : List ParsedDecl} {d : ParsedDecl}
    (h : TypedefsGrounded before) (hd : Grounded before d.type) :
    TypedefsGrounded (before ++ [d]) := by
  intro name found hfound
  rw [lookupTypeDecl_append] at hfound
  cases hbefore : lookupTypeDecl before name with
  | some found' =>
      rw [hbefore] at hfound
      cases hfound
      exact h name found hbefore
  | none =>
      rw [hbefore, Option.none_or, Option.map_eq_some_iff] at hfound
      obtain ⟨found', hfound', rfl⟩ := hfound
      -- it is the new one that is found
      rw [lookupTypeDecl] at hfound'
      split at hfound'
      · cases hfound'
        rwa [List.append_nil]
      · cases hfound'

/-- In what passes the checks all names are declared, and lead to no undeclared one. -/
theorem declared_of_errorCheck {names : List Name} {before decls : List ParsedDecl}
    (hbefore : TypedefsGrounded before)
    (h : Compiler.errorCheck names (nullEnvOf before) decls = true) :
    AtEach NamesDeclared before decls ∧ AtEach MembersGrounded before decls := by
  induction decls generalizing names before with
  | nil => exact ⟨atEach_nil, atEach_nil⟩
  | cons d decls ih =>
      simp only [Compiler.errorCheck, Bool.and_eq_true] at h
      obtain ⟨⟨⟨_, htype⟩, _⟩, hrest⟩ := h
      have hnames : NamesDeclared before d := by
        intro name hmem
        have hlookup := declared_of_errorCheckType htype name hmem
        rwa [lookupType_nullEnvOf, Option.isSome_map] at hlookup
      -- a member with a name is a user type of the declaration
      have hmembers : MembersGrounded before d := fun t ht => by
        refine hbefore.grounded fun name hname => ?_
        subst hname
        exact hnames name (mem_userNames_of_members ht)
      have hd : Grounded before d.type := by
        refine hbefore.grounded fun name hname => hnames name ?_
        rw [hname]
        exact List.mem_singleton_self name
      rw [← nullStep, ← nullEnvOf_append_singleton] at hrest
      have hnext := ih (hbefore.append_singleton hd) hrest
      exact ⟨atEach_cons.mpr ⟨hnames, hnext.1⟩, atEach_cons.mpr ⟨hmembers, hnext.2⟩⟩

theorem typedefsGrounded_nil : TypedefsGrounded [] := by
  intro name found hfound
  cases hfound

/-- **The traversal reports nothing** if and only if the specification passes the checks. -/
theorem errorCheck_nil_iff {decls : List ParsedDecl} (hp : ∀ d ∈ decls, d.type.Parsed) :
    errorCheck decls = .ok [] ↔ Compiler.errorCheck [] [] decls = true := by
  rw [errorCheck, errorCheckDecls_nil_iff hp]
  exact and_iff_left_of_imp fun h => (declared_of_errorCheck typedefsGrounded_nil h).2

/-! ## Total checks -/

/-- What the parser accepts. -/
structure ParsedSpecification where
  decls : List ParsedDecl
  parsed : ∀ d ∈ decls, d.type.Parsed

/-- What must be reported: a name that is not declared before, two declarations of one name, or a
field or an array element that is `void`. -/
inductive Faulty (decls : List ParsedDecl) : Prop where
  | undeclared {before : List ParsedDecl} {d : ParsedDecl} {after : List ParsedDecl} {name : Name}
      (hdecls : decls = before ++ d :: after) (hname : name ∈ userNames d.type)
      (hnone : lookupTypeDecl before name = none) : Faulty decls
  | twice (h : ¬ (decls.map ParsedDecl.name).Nodup) : Faulty decls
  | voidMember {before : List ParsedDecl} {d : ParsedDecl} {after : List ParsedDecl}
      {t : ParsedType} (hdecls : decls = before ++ d :: after) (ht : t ∈ members d.type)
      (hvoid : DenotesVoid before t) : Faulty decls

/-- The checks return, and report what is faulty. -/
structure ChecksTotal (decls : List ParsedDecl) : Prop where
  returns : ∃ errors, errorCheck decls = .ok errors
  reports : Faulty decls → errorCheck decls ≠ .ok []

mutual

/-- The members of a type that passes the checks are not `void`. -/
theorem members_of_errorCheckType {env : NullEnv} : ∀ {t : ParsedType},
    Compiler.errorCheckType env t = true → ∀ u ∈ members t, u.isNull env = false
  | .void, _, _, hmem => absurd hmem List.not_mem_nil
  | .prim _, _, _, hmem => absurd hmem List.not_mem_nil
  | .user _, _, _, hmem => absurd hmem List.not_mem_nil
  | .struct fields, h, u, hmem => @members_of_errorCheckFields env fields [] h u hmem
  | .array elem _, h, u, hmem => by
      obtain ⟨hnull, helem⟩ := Bool.and_eq_true_iff.mp h
      rcases List.mem_cons.mp hmem with rfl | hmem
      · simpa using hnull
      · exact members_of_errorCheckType helem u hmem

theorem members_of_errorCheckFields {env : NullEnv} :
    ∀ {fields : ParsedFields} {names : List Name},
      Compiler.errorCheckFields env names fields = true →
        ∀ u ∈ fieldsMembers fields, u.isNull env = false
  | .nil, _, _, _, hmem => absurd hmem List.not_mem_nil
  | .cons _ _ type rest, _, h, u, hmem => by
      simp only [Compiler.errorCheckFields, Bool.and_eq_true, Bool.not_eq_true'] at h
      obtain ⟨⟨⟨_, hnull⟩, htype⟩, hrest⟩ := h
      rcases List.mem_cons.mp hmem with rfl | hmem
      · exact hnull
      · rcases List.mem_append.mp hmem with hmem | hmem
        · exact members_of_errorCheckType htype u hmem
        · exact members_of_errorCheckFields hrest u hmem

end

/-- Each declaration of what passes the checks does. -/
theorem errorCheckType_of_errorCheck {names : List Name} {before decls : List ParsedDecl}
    (h : Compiler.errorCheck names (nullEnvOf before) decls = true) :
    AtEach (fun before d => Compiler.errorCheckType (nullEnvOf before) d.type = true)
      before decls := by
  induction decls generalizing names before with
  | nil => exact atEach_nil
  | cons d decls ih =>
      simp only [Compiler.errorCheck, Bool.and_eq_true] at h
      obtain ⟨⟨⟨_, htype⟩, _⟩, hrest⟩ := h
      rw [← nullStep, ← nullEnvOf_append_singleton] at hrest
      exact atEach_cons.mpr ⟨htype, ih hrest⟩

/-- What passes the checks is not faulty. -/
theorem not_faulty_of_errorCheck {decls : List ParsedDecl}
    (h : Compiler.errorCheck [] [] decls = true) : ¬ Faulty decls := by
  rintro (⟨hdecls, hname, hnone⟩ | htwice | ⟨hdecls, ht, hvoid⟩)
  · have hdeclared := (declared_of_errorCheck typedefsGrounded_nil h).1 _ _ _ hdecls _ hname
    rw [List.nil_append, hnone] at hdeclared
    cases hdeclared
  · exact htwice (names_nodup_of_errorCheck h).1
  · have htype := @errorCheckType_of_errorCheck [] [] _ h _ _ _ hdecls
    have hnull := members_of_errorCheckType htype _ ht
    rw [List.nil_append, isNull_nullEnvOf (isNull_true_iff.mpr hvoid)] at hnull
    cases hnull

/-- **The checks are total** if and only if no field and no array element leads to an undeclared
name. -/
theorem checksTotal_iff (S : ParsedSpecification) :
    ChecksTotal S.decls ↔ AtEach MembersGrounded [] S.decls := by
  constructor
  · exact fun h => (errorCheckDecls_ok_iff S.parsed).mp h.returns
  · intro h
    refine ⟨(errorCheckDecls_ok_iff S.parsed).mpr h, fun hfaulty hnil => ?_⟩
    exact not_faulty_of_errorCheck ((errorCheck_nil_iff S.parsed).mp hnil) hfaulty

/-- `sample struct { t x; } s;` -/
def undeclaredField : List ParsedDecl :=
  [⟨.sampleDecl, [], [115], .struct (.cons [] [120] (.user [116]) .nil)⟩]

/-- The type of the field is looked up by `nullTypeCheck` before its own check reports it. -/
theorem not_checksTotal_undeclaredField : ¬ ChecksTotal undeclaredField := by
  rintro ⟨⟨errors, h⟩, _⟩
  -- there is nothing to find before the only declaration
  have hthrown : isNull [] (.user [116]) = .error .nullPointer := by
    rw [isNull_user]
    rfl
  rw [errorCheck, undeclaredField, errorCheckDecls, errorCheckType, errorCheckFields, hthrown] at h
  cases h

end LabComm.Compiler.Checks
