import LabComm.Java.TypeDefParser
import LabComm.Library.Stream
import LabComm.Compiler.ErrorCheck

set_option autoImplicit false

/-! # Specifications built from type definitions

`ASTbuilder.java`, which makes a syntax tree of the compiler from the definition of a sample that
was parsed, with a declaration for each definition it depends on. `addAllDeps` adds what a
definition depends on each time it comes to the definition, so one that is reached along two paths
is declared twice, and `errorCheck` reports it. And `makeDecl` of a `ParsedSampleDef`, which is no
`SigSampleDef`, is the one that makes a typedef.

So no specification that is built has the sample as a sample. What is returned is otherwise as it
should be just if the names along all paths are different, and the checks find no fault in the
types (`reconstructs_iff`).
-/

namespace LabComm.Java

open Library Compiler Checks

/-! ## Definitions -/

/-- `SigTypeDef`, of which `ParsedTypeDef` and `ParsedSampleDef` are subclasses, with the
definitions that `deps` yields, in that order. -/
inductive SigTypeDef where
  | mk (idx : Int) (name : Name) (type : SigType Name) (deps : List SigTypeDef)

/-- `getName()` -/
def SigTypeDef.name : SigTypeDef → Name
  | .mk _ name _ _ => name

/-- `getType()`, where null is a type. -/
def SigTypeDef.type : SigTypeDef → SigType Name
  | .mk _ _ type _ => type

/-! ## The builder -/

/-- The stacks, with the top in front. -/
structure ASTbuilder where
  typeStack : List ParsedType := []
  fieldStack : List (Name × ParsedType) := []

/-- What is thrown. The tag of a primitive type is one for which its constructor has not. -/
inductive BuildException where
  | nullPointer
  | notPrimitive (tag : Int)
  | noSuchElement
  | stackNotEmpty
  | internal
  deriving DecidableEq

/-- A method of the builder. -/
abbrev BuildM := ExceptT BuildException (StateM ASTbuilder)

/-- `typeStack.push(t)` -/
def pushType (t : ParsedType) : BuildM Unit :=
  modify fun b => { b with typeStack := t :: b.typeStack }

/-- `typeStack.pop()` -/
def popType : BuildM ParsedType := do
  match (← get).typeStack with
  | [] => throw .noSuchElement
  | t :: ts => do
      modify fun b => { b with typeStack := ts }
      pure t

/-- `fieldStack.push(new Field(new TypeInstance(type, name)))` -/
def pushField (f : Name × ParsedType) : BuildM Unit :=
  modify fun b => { b with fieldStack := f :: b.fieldStack }

/-- `fieldStack.pop()` -/
def popField : BuildM (Name × ParsedType) := do
  match (← get).fieldStack with
  | [] => throw .noSuchElement
  | f :: fs => do
      modify fun b => { b with fieldStack := fs }
      pure f

/-- `assertStacksEmpty` -/
def assertStacksEmpty : BuildM Unit := do
  let b ← get
  if b.typeStack ≠ [] then throw .stackNotEmpty
  if b.fieldStack ≠ [] then throw .stackNotEmpty

/-- `new PrimType(t.getName(), t.getTag())` -/
def primType (tag : Int) : Option Prim :=
  [Prim.boolean, .byte, .short, .int, .long, .float, .double, .string, .sample].find? fun p =>
    (p.token : Int) = tag

/-- The dimension for a number; a literal has no sign. -/
def dimension (i : Int) : Exp := if i = 0 then .variableSize else .integerLiteral i.natAbs

/-- `isVoid()` -/
def SigFields.isVoid {S : Type} : SigFields S → Bool
  | .nil => true
  | .cons _ _ _ => false

mutual

/-- `t.accept(this)` -/
def visit : SigType Name → BuildM Unit
  | .null => throw .nullPointer
  | .primitive tag =>
      match primType tag with
      | none => throw (.notPrimitive tag)
      | some p => pushType (.prim p)
  | .struct fields =>
      if fields.isVoid then pushType .void
      else do
        let tmpF ← visitFields fields
        pushType (.struct tmpF)
  | .array type idx => do
      visit type
      let elem ← popType
      pushType (.array elem [idx.map dimension])
  | .user name => pushType (.user name)

/-- The loop over the fields, with `visit(SigField)`. -/
def visitFields : SigFields Name → BuildM ParsedFields
  | .nil => pure .nil
  | .cons name type rest => do
      visit type
      let t ← popType
      pushField (name, t)
      let f ← popField
      let more ← visitFields rest
      pure (.cons [] f.1 f.2 more)

end

/-- `makeDecl(SigTypeDef)` -/
def makeDecl (d : SigTypeDef) : BuildM ParsedDecl := do
  visit d.type
  let t ← popType
  pure ⟨.typeDecl, [], d.name, t⟩

mutual

/-- `addAllDeps` -/
def addAllDeps (ds : List ParsedDecl) : SigTypeDef → BuildM (List ParsedDecl)
  | .mk _ _ _ deps => addDeps ds deps

/-- The loop over what is depended on. -/
def addDeps (ds : List ParsedDecl) : List SigTypeDef → BuildM (List ParsedDecl)
  | [] => pure ds
  | dd :: rest => do
      let ds ← addAllDeps ds dd
      let decl ← makeDecl dd
      addDeps (ds ++ [decl]) rest

end

/-- `createAndCheckSpecification` -/
def createAndCheckSpecification (ds : List ParsedDecl) : BuildM (List ParsedDecl) :=
  match Checks.errorCheck ds with
  | .error .nullPointer => throw .nullPointer
  | .ok errors => if errors = [] then pure ds else throw .internal

/-- `makeSpecification(ParsedSampleDef)`: of the methods `makeDecl` the one for a `SigTypeDef` is
called for the sample too. -/
def makeSpecification (d : SigTypeDef) : BuildM (List ParsedDecl) := do
  assertStacksEmpty
  let ds ← addAllDeps [] d
  let decl ← makeDecl d
  assertStacksEmpty
  createAndCheckSpecification (ds ++ [decl])

/-! ## What is built -/

mutual

/-- The type that is built, if none is. -/
def builtType : SigType Name → Except BuildException ParsedType
  | .null => throw .nullPointer
  | .primitive tag =>
      match primType tag with
      | none => throw (.notPrimitive tag)
      | some p => pure (.prim p)
  | .struct fields =>
      if fields.isVoid then pure .void
      else do
        let tmpF ← builtFields fields
        pure (.struct tmpF)
  | .array type idx => do
      let elem ← builtType type
      pure (.array elem [idx.map dimension])
  | .user name => pure (.user name)

/-- The same of the fields. -/
def builtFields : SigFields Name → Except BuildException ParsedFields
  | .nil => pure .nil
  | .cons name type rest => do
      let t ← builtType type
      let more ← builtFields rest
      pure (.cons [] name t more)

end

/-- The declaration that is built. -/
def builtDecl (d : SigTypeDef) : Except BuildException ParsedDecl := do
  let t ← builtType d.type
  pure ⟨.typeDecl, [], d.name, t⟩

mutual

/-- The definitions that one depends on, along every path, each behind those it depends on. -/
def paths : SigTypeDef → List SigTypeDef
  | .mk _ _ _ deps => pathsOf deps

/-- The same for a list of definitions, with these. -/
def pathsOf : List SigTypeDef → List SigTypeDef
  | [] => []
  | dd :: rest => paths dd ++ dd :: pathsOf rest

end

/-! ## The stacks -/

/-- The method ends so, and leaves the stacks as they were. -/
def Ends {α : Type} (m : BuildM α) (r : Except BuildException α) : Prop :=
  ∀ b : ASTbuilder, m.run b = (r, b)

/-- The method pushes a type, or throws and leaves the stacks as they were. -/
def Pushes (m : BuildM Unit) (r : Except BuildException ParsedType) : Prop :=
  ∀ b : ASTbuilder, m.run b = match r with
    | .ok t => (.ok (), { b with typeStack := t :: b.typeStack })
    | .error e => (.error e, b)

section Ends

variable {α β : Type}

theorem Ends.pure (a : α) : Ends (Pure.pure a) (.ok a) := fun _ => rfl

theorem Ends.bind {m : BuildM α} {r : Except BuildException α} {f : α → BuildM β}
    {g : α → Except BuildException β} (hm : Ends m r) (hf : ∀ a, Ends (f a) (g a)) :
    Ends (m >>= f) (r >>= g) := by
  intro b
  have hrun := hm b
  cases r with
  | error e => exact run_bind_error hrun
  | ok a => exact (run_bind_ok hrun).trans (hf a b)

/-- What is pushed is popped. -/
theorem Pushes.pop {m : BuildM Unit} {r : Except BuildException ParsedType} (h : Pushes m r) :
    Ends (m >>= fun _ => popType) r := by
  intro b
  have hrun := h b
  cases r with
  | error e => exact run_bind_error hrun
  | ok t => exact (run_bind_ok hrun).trans rfl

theorem Ends.push {m : BuildM α} {r : Except BuildException α} (h : Ends m r)
    (f : α → ParsedType) :
    Pushes (m >>= fun a => pushType (f a)) (r >>= fun a => Pure.pure (f a)) := by
  intro b
  have hrun := h b
  cases r with
  | error e => exact run_bind_error hrun
  | ok a => exact (run_bind_ok hrun).trans rfl

theorem pushField_popField (f : Name × ParsedType) :
    Ends (pushField f >>= fun _ => popField) (.ok f) := fun _ => rfl

end Ends

mutual

/-- The visitor of a type pushes the type that is built. -/
theorem visit_pushes : ∀ t : SigType Name, Pushes (visit t) (builtType t)
  | .null => fun _ => rfl
  | .primitive tag => by
      intro b
      rw [visit, builtType]
      cases primType tag <;> rfl
  | .struct .nil => fun _ => rfl
  | .struct (.cons name type rest) => (visitFields_ends (.cons name type rest)).push .struct
  | .array type idx => by
      -- the type of the elements is popped as soon as it is there
      have hpop := (visit_pushes type).pop
      have hpush := hpop.push fun elem => ParsedType.array elem [idx.map dimension]
      rw [bind_assoc] at hpush
      exact hpush
  | .user _ => fun _ => rfl

/-- The loop over the fields ends with those that are built. -/
theorem visitFields_ends : ∀ fields : SigFields Name, Ends (visitFields fields) (builtFields fields)
  | .nil => Ends.pure _
  | .cons name type rest => by
      have hpop := (visit_pushes type).pop
      have hrest (t : ParsedType) : Ends (do
          pushField (name, t)
          let f ← popField
          let more ← visitFields rest
          Pure.pure (ParsedFields.cons [] f.1 f.2 more))
          (do
            let more ← builtFields rest
            Pure.pure (ParsedFields.cons [] name t more)) := by
        have hfield := (pushField_popField (name, t)).bind fun f =>
          (visitFields_ends rest).bind fun more =>
            Ends.pure (ParsedFields.cons [] f.1 f.2 more)
        rw [bind_assoc] at hfield
        exact hfield
      have hall := hpop.bind hrest
      rw [bind_assoc] at hall
      exact hall

end

theorem makeDecl_ends (d : SigTypeDef) : Ends (makeDecl d) (builtDecl d) := by
  have hdecl := (visit_pushes d.type).pop.bind fun t =>
    Ends.pure (⟨.typeDecl, [], d.name, t⟩ : ParsedDecl)
  rw [bind_assoc] at hdecl
  exact hdecl

mutual

/-- `addAllDeps` adds a declaration for each definition along each path. -/
theorem addAllDeps_ends (ds : List ParsedDecl) : ∀ d : SigTypeDef,
    Ends (addAllDeps ds d) ((paths d).mapM builtDecl >>= fun more => pure (ds ++ more))
  | .mk _ _ _ deps => addDeps_ends ds deps

theorem addDeps_ends (ds : List ParsedDecl) : ∀ deps : List SigTypeDef,
    Ends (addDeps ds deps) ((pathsOf deps).mapM builtDecl >>= fun more => pure (ds ++ more))
  | [] => fun b => by
      show (Except.ok ds, b) = (Except.ok (ds ++ []), b)
      rw [List.append_nil]
  | dd :: rest => by
      -- first what the definition depends on, then itself, then the others
      have hall := (addAllDeps_ends ds dd).bind fun ds' =>
        (makeDecl_ends dd).bind fun decl => addDeps_ends (ds' ++ [decl]) rest
      rw [pathsOf, List.mapM_append, List.mapM_cons]
      simp only [bind_assoc, pure_bind, List.append_assoc, List.singleton_append] at hall ⊢
      exact hall

end

/-- The declarations for a definition and what it depends on. -/
def declarations (d : SigTypeDef) : Except BuildException (List ParsedDecl) :=
  (paths d ++ [d]).mapM builtDecl

/-- The check of what is built. -/
def checked (ds : List ParsedDecl) : Except BuildException (List ParsedDecl) :=
  match Checks.errorCheck ds with
  | .error .nullPointer => .error .nullPointer
  | .ok errors => if errors = [] then .ok ds else .error .internal

theorem createAndCheckSpecification_ends (ds : List ParsedDecl) :
    Ends (createAndCheckSpecification ds) (checked ds) := by
  intro b
  unfold createAndCheckSpecification checked
  cases Checks.errorCheck ds with
  | error e => rfl
  | ok errors => by_cases h : errors = [] <;> simp only [h, if_true, if_false] <;> rfl

theorem declarations_eq (d : SigTypeDef) : declarations d = (do
    let ds ← (paths d).mapM builtDecl
    let decl ← builtDecl d
    pure (ds ++ [decl])) := by
  rw [declarations, List.mapM_append]
  simp only [List.mapM_cons, List.mapM_nil, bind_assoc, pure_bind]

/-- What is returned by a builder with empty stacks, which leaves them empty. -/
theorem makeSpecification_run (d : SigTypeDef) :
    (makeSpecification d).run {} = (declarations d >>= checked, {}) := by
  -- every step leaves the stacks empty, so the second assertion holds as the first does
  have hempty : assertStacksEmpty.run {} = (.ok (), {}) := rfl
  have hdeps := addAllDeps_ends [] d {}
  have hlast := makeDecl_ends d {}
  rw [declarations_eq]
  unfold makeSpecification
  rw [run_bind_ok hempty]
  cases hpaths : (paths d).mapM builtDecl with
  | error e =>
      rw [hpaths] at hdeps
      exact run_bind_error hdeps
  | ok ds =>
      rw [hpaths] at hdeps
      rw [run_bind_ok hdeps]
      cases hdecl : builtDecl d with
      | error e =>
          rw [hdecl] at hlast
          exact run_bind_error hlast
      | ok decl =>
          rw [hdecl] at hlast
          rw [run_bind_ok hlast, run_bind_ok hempty, createAndCheckSpecification_ends]
          rfl

/-! ## What is reconstructed -/

/-- The declarations are those of the definition: one for each definition that it depends on, each
with names that are declared before, and then one of this kind for itself; and the checks report
nothing. -/
structure Represents (kind : DeclKind) (d : SigTypeDef) (typedefs : List ParsedDecl)
    (last : ParsedDecl) : Prop where
  lastKind : last.kind = kind
  lastName : last.name = d.name
  kinds : ∀ t ∈ typedefs, t.kind = .typeDecl
  each : ∀ u ∈ paths d, ∃ t ∈ typedefs, builtDecl u = .ok t
  only : ∀ t ∈ typedefs, ∃ u ∈ paths d, builtDecl u = .ok t
  once : (typedefs.map ParsedDecl.name).Nodup
  before : AtEach NamesDeclared [] (typedefs ++ [last])
  accepted : Checks.errorCheck (typedefs ++ [last]) = .ok []

/-- `makeSpecification` of a new builder returns a specification of the definition, which ends
with a declaration of this kind. -/
def Reconstructs (kind : DeclKind) (d : SigTypeDef) : Prop :=
  ∃ typedefs last, ((makeSpecification d).run {}).1 = .ok (typedefs ++ [last]) ∧
    Represents kind d typedefs last

/-- The names along all paths are different, and the checks find no fault in the types. -/
def Sound (d : SigTypeDef) : Prop :=
  ((paths d ++ [d]).map SigTypeDef.name).Nodup ∧
    ∃ ds, declarations d = .ok ds ∧ AtEach TypeSilent [] ds

theorem checked_ok_iff {ds ps : List ParsedDecl} :
    checked ds = .ok ps ↔ Checks.errorCheck ds = .ok [] ∧ ps = ds := by
  unfold checked
  rcases Checks.errorCheck ds with ⟨⟨⟩⟩ | errors
  · simp
  · by_cases h : errors = [] <;> simp [h, eq_comm]

theorem makeSpecification_ok_iff {d : SigTypeDef} {ps : List ParsedDecl} :
    ((makeSpecification d).run {}).1 = .ok ps ↔
      declarations d = .ok ps ∧ Checks.errorCheck ps = .ok [] := by
  rw [makeSpecification_run, except_bind_ok]
  simp only [checked_ok_iff]
  constructor
  · rintro ⟨ds, hds, hcheck, rfl⟩
    exact ⟨hds, hcheck⟩
  · rintro ⟨hds, hcheck⟩
    exact ⟨ps, hds, hcheck, rfl⟩

theorem builtDecl_ok {u : SigTypeDef} {t : ParsedDecl} (h : builtDecl u = .ok t) :
    t.kind = .typeDecl ∧ t.name = u.name ∧ t.intentions = [] := by
  obtain ⟨type, _, hpure⟩ := except_bind_ok.mp h
  cases hpure
  exact ⟨rfl, rfl, rfl⟩

section Declarations

variable {us : List SigTypeDef} {ds : List ParsedDecl}
  (h : List.Forall₂ (fun u t => builtDecl u = .ok t) us ds)

include h

theorem built_names : ds.map ParsedDecl.name = us.map SigTypeDef.name := by
  induction h with
  | nil => rfl
  | cons hd _ ih => rw [List.map_cons, List.map_cons, ih, (builtDecl_ok hd).2.1]

theorem built_of_mem : ∀ t ∈ ds, ∃ u ∈ us, builtDecl u = .ok t := by
  induction h with
  | nil => simp
  | cons hd _ ih =>
      intro t ht
      rcases List.mem_cons.mp ht with rfl | ht
      · exact ⟨_, List.mem_cons_self, hd⟩
      · obtain ⟨u, hu, hut⟩ := ih t ht
        exact ⟨u, List.mem_cons_of_mem _ hu, hut⟩

theorem built_mem : ∀ u ∈ us, ∃ t ∈ ds, builtDecl u = .ok t := by
  induction h with
  | nil => simp
  | cons hd _ ih =>
      intro u hu
      rcases List.mem_cons.mp hu with rfl | hu
      · exact ⟨_, List.mem_cons_self, hd⟩
      · obtain ⟨t, ht, hut⟩ := ih u hu
        exact ⟨t, List.mem_cons_of_mem _ ht, hut⟩

end Declarations

/-- The last declaration is that of the definition itself. -/
theorem declarations_append {d : SigTypeDef} {typedefs : List ParsedDecl} {last : ParsedDecl}
    (h : declarations d = .ok (typedefs ++ [last])) :
    List.Forall₂ (fun u t => builtDecl u = .ok t) (paths d) typedefs ∧
      builtDecl d = .ok last := by
  rw [declarations_eq] at h
  obtain ⟨ds, hds, h⟩ := except_bind_ok.mp h
  obtain ⟨decl, hdecl, hpure⟩ := except_bind_ok.mp h
  obtain ⟨rfl, hsingle⟩ := List.append_inj' (Except.ok.inj hpure) rfl
  rw [← List.singleton_injective hsingle]
  exact ⟨except_mapM_ok.mp hds, hdecl⟩

/-- The checks report nothing just if the definition is sound. -/
theorem errorCheck_declarations {d : SigTypeDef} {ds : List ParsedDecl}
    (h : declarations d = .ok ds) : Checks.errorCheck ds = .ok [] ↔
      ((paths d ++ [d]).map SigTypeDef.name).Nodup ∧ AtEach TypeSilent [] ds := by
  have hall := except_mapM_ok.mp h
  have hplain : ∀ t ∈ ds, annotationErrors t = [] := by
    intro t ht
    obtain ⟨u, _, hut⟩ := built_of_mem hall t ht
    rw [annotationErrors, (builtDecl_ok hut).2.2]
    exact ite_self _
  rw [Checks.errorCheck, errorCheckDecls_nil_of_names hplain, built_names hall]
  simp

/-- A name that comes twice along the paths, as in a diamond, is an internal error. -/
theorem makeSpecification_twice {d : SigTypeDef}
    (htwice : ¬ ((paths d ++ [d]).map SigTypeDef.name).Nodup) (ps : List ParsedDecl) :
    ((makeSpecification d).run {}).1 ≠ .ok ps := by
  intro hrun
  obtain ⟨hdecls, hcheck⟩ := makeSpecification_ok_iff.mp hrun
  exact htwice ((errorCheck_declarations hdecls).mp hcheck).1

/-- `typedef int t; typedef t a; typedef t b; sample struct { a x; b y; } s;` -/
example : let t : SigTypeDef := .mk 0x40 [116] (.primitive 0x23) []
    let a : SigTypeDef := .mk 0x41 [97] (.user [116]) [t]
    let b : SigTypeDef := .mk 0x42 [98] (.user [116]) [t]
    (paths (.mk 0x43 [115] (.struct (.cons [120] (.user [97]) (.cons [121] (.user [98]) .nil)))
      [a, b])).map SigTypeDef.name = [[116], [97], [116], [98]] := rfl

/-- **No sample is reconstructed**, as its declaration is that of a typedef. Otherwise what is
returned is a specification of the definition if and only if the names along all paths are
different and the types are sound. -/
theorem reconstructs_iff (d : SigTypeDef) :
    ¬ Reconstructs .sampleDecl d ∧ (Reconstructs .typeDecl d ↔ Sound d) := by
  constructor
  · rintro ⟨typedefs, last, hrun, hrep⟩
    obtain ⟨hdecls, _⟩ := makeSpecification_ok_iff.mp hrun
    -- the last declaration is made like those of the dependencies
    have hkind := (builtDecl_ok (declarations_append hdecls).2).1
    rw [hrep.lastKind] at hkind
    cases hkind
  constructor
  · rintro ⟨typedefs, last, hrun, hrep⟩
    obtain ⟨hdecls, hcheck⟩ := makeSpecification_ok_iff.mp hrun
    obtain ⟨hnames, htypes⟩ := (errorCheck_declarations hdecls).mp hcheck
    exact ⟨hnames, _, hdecls, htypes⟩
  · rintro ⟨hnames, ds, hdecls, htypes⟩
    have hcheck := (errorCheck_declarations hdecls).mpr ⟨hnames, htypes⟩
    obtain ⟨typedefs, last, rfl⟩ : ∃ typedefs last, ds = typedefs ++ [last] := by
      have hne : ds ≠ [] := by
        rintro rfl
        have hlength := (except_mapM_ok.mp hdecls).length_eq
        simp at hlength
      exact ⟨ds.dropLast, ds.getLast hne, (List.dropLast_append_getLast hne).symm⟩
    obtain ⟨hall, hlast⟩ := declarations_append hdecls
    refine ⟨typedefs, last, makeSpecification_ok_iff.mpr ⟨hdecls, hcheck⟩, ?_⟩
    exact {
      lastKind := (builtDecl_ok hlast).1
      lastName := (builtDecl_ok hlast).2.1
      kinds := fun t ht => by
        obtain ⟨u, _, hut⟩ := built_of_mem hall t ht
        exact (builtDecl_ok hut).1
      each := built_mem hall
      only := built_of_mem hall
      once := by
        rw [List.map_append, List.nodup_append] at hnames
        rw [built_names hall]
        exact hnames.1
      before := fun before t after hsplit => declared_of_silent (htypes before t after hsplit)
      accepted := hcheck }

/-- `sample int s;` -/
def plainSample : SigTypeDef := .mk 0x40 [115] (.primitive 0x23) []

/-- What is returned is `typedef int s;`. -/
theorem not_reconstructs_plain : ¬ Reconstructs .sampleDecl plainSample := by
  rintro ⟨typedefs, last, hrun, hrep⟩
  have htypedef : ((makeSpecification plainSample).run {}).1 =
      .ok [⟨.typeDecl, [], [115], .prim .int⟩] := by
    rfl
  have hlist := Except.ok.inj (htypedef.symm.trans hrun)
  have hsplit : [] ++ [⟨.typeDecl, [], [115], .prim .int⟩] = typedefs ++ [last] := hlist
  obtain ⟨rfl, hsingle⟩ := List.append_inj' hsplit rfl
  have hkind := hrep.lastKind
  rw [← List.singleton_injective hsingle] at hkind
  cases hkind

end LabComm.Java
