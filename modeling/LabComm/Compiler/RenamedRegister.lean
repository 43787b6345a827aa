import LabComm.Compiler.GeneratedRuns
import LabComm.C.TypeBindings

set_option autoImplicit false

/-! # The generated register functions on a stack of encoders

The generated code calls the functions of the encoder it is given, which may be a renaming
encoder. `GeneratedOn` is the code of `Generated` on such an encoder; on the base encoder it is
the same (`generateOn_base`).

Every binding that the register functions send through renaming encoders is to a type that was
defined before, as long as the samples refer to typedefs (`register_bindingsResolve`). For a
sample that refers to none the generated code sends no type, but a renaming encoder binds the
sample to one (`not_bindingsResolve_int`).
-/

namespace LabComm.Compiler

open Library C

variable {ω : WriterAction}

/-! ## The code on an encoder -/

/-- What is generated for a declaration, on an encoder. -/
structure GeneratedOn (ω : WriterAction) where
  decl : Decl
  signature : Signature
  hasDeps : Bool
  userTypeDeps : StackM ω Unit

/-- `labcomm2014_encoder_type_register_…` -/
def GeneratedOn.typeRegister (e : EncoderInterface ω) (g : GeneratedOn ω) : StackM ω Int := do
  g.userTypeDeps
  if !g.decl.isSampleDecl || g.hasDeps then
    e.typeRegister g.signature
  else
    return 0

/-- `if (result >= 0) { … }` -/
def GeneratedOn.bindType (e : EncoderInterface ω) (g : GeneratedOn ω) (result : Int) :
    StackM ω Unit :=
  if result ≥ 0 then do
    let _ ← g.typeRegister e
    let _ ← e.typeBind g.signature g.hasDeps
  else
    pure ()

/-- `labcomm2014_encoder_register_…` of a sample. -/
def GeneratedOn.register (e : EncoderInterface ω) (g : GeneratedOn ω) : StackM ω Int := do
  let result ← e.sampleRegister g.signature
  g.bindType e result
  return result

/-- The function of the typedef a name refers to. -/
def typeNamedOn (generated : List (GeneratedOn ω)) (name : Name) : Option (GeneratedOn ω) :=
  generated.find? fun g => !g.decl.isSampleDecl && g.decl.name = name

/-- `C_emitUserTypeDeps` -/
def emitUserTypeDepsOn (e : EncoderInterface ω) (generated : List (GeneratedOn ω))
    (deps : List Name) : StackM ω Unit :=
  deps.forM fun name =>
    match typeNamedOn generated name with
    | none => pure ()
    | some t => do
        t.userTypeDeps
        let _ ← t.typeRegister e

/-- The code of the declarations in order, after that of `before`. -/
def generateOn (e : EncoderInterface ω) (h : IterationOrder Name) (before : List (GeneratedOn ω)) :
    List (Generated ω) → List (GeneratedOn ω)
  | [] => before
  | g :: rest =>
      generateOn e h (before ++ [⟨g.decl, g.signature, g.hasDeps,
        emitUserTypeDepsOn e before (typeDependencies h g.decl)⟩]) rest

/-- What is generated for the sample of the name. -/
def sampleNamedOn (generated : List (GeneratedOn ω)) (name : Name) : Option (GeneratedOn ω) :=
  generated.find? fun g => g.decl.isSampleDecl && g.decl.name = name

/-! ## Registration through a stack -/

/-- A call of a generated register function on the encoder below the first `above` layers of a
stack. -/
structure RegisterCall where
  above : Nat
  name : Name

/-- The layers of the encoder that is called. -/
def RegisterCall.layers (layers : List Layer) (call : RegisterCall) : List Layer :=
  layers.drop call.above

/-- The function that is called; there may be none of the name. -/
def RegisterCall.function (h : IterationOrder Name) (generated : List (Generated ω))
    (layers : List Layer) (call : RegisterCall) : Option (StackM ω Int) :=
  (sampleNamedOn (generateOn (stackEncoder (call.layers layers)) h [] generated) call.name).map
    (GeneratedOn.register (stackEncoder (call.layers layers)))

/-- The functions one after the other. -/
def runRegisters (functions : List (StackM ω Int)) : StackM ω Unit :=
  functions.forM fun f => do
    let _ ← f

/-! ## On the base encoder -/

/-- What is generated for a declaration, on the base encoder. -/
def Generated.on (g : Generated ω) : GeneratedOn ω :=
  ⟨g.decl, g.signature, g.hasDeps, onBase g.userTypeDeps⟩

theorem typeRegister_on (g : Generated ω) : g.on.typeRegister baseEncoder = onBase g.typeRegister := by
  unfold GeneratedOn.typeRegister Generated.typeRegister
  rw [onBase_bind]
  refine congrArg (onBase g.userTypeDeps >>= ·) (funext fun _ => ?_)
  show (if _ then _ else _) = onBase (if _ then _ else _)
  rw [apply_ite (onBase (ω := ω) (α := Int))]
  rfl

/-- The register function is that of the base encoder. -/
theorem register_on (g : Generated ω) : g.on.register baseEncoder = onBase g.register := by
  unfold GeneratedOn.register Generated.register
  rw [onBase_bind]
  refine congrArg (onBase (doSampleRegister g.signature) >>= ·) (funext fun result => ?_)
  unfold GeneratedOn.bindType
  split
  · rw [typeRegister_on, onBase_bind]
    simp only [bind_assoc, onBase_bind]
    rfl
  · rw [pure_bind]
    rfl

theorem typeNamedOn_on (generated : List (Generated ω)) (name : Name) :
    typeNamedOn (generated.map Generated.on) name = (typeNamed generated name).map Generated.on := by
  rw [typeNamedOn, typeNamed, List.find?_map]
  rfl

theorem emitUserTypeDepsOn_on (generated : List (Generated ω)) (deps : List Name) :
    emitUserTypeDepsOn baseEncoder (generated.map Generated.on) deps =
      onBase (emitUserTypeDeps generated deps) := by
  unfold emitUserTypeDepsOn emitUserTypeDeps
  induction deps with
  | nil => rfl
  | cons name deps ih =>
      change (_ >>= fun _ => List.forM deps _) = onBase (_ >>= fun _ => List.forM deps _)
      rw [onBase_bind, ih]
      beta_reduce
      rw [typeNamedOn_on]
      cases typeNamed generated name with
      | none => rfl
      | some t =>
          refine congrArg (· >>= _) ?_
          show (onBase t.userTypeDeps >>= fun _ => t.on.typeRegister baseEncoder >>= fun _ => pure ())
            = onBase (t.userTypeDeps >>= fun _ => t.typeRegister >>= fun _ => pure ())
          rw [onBase_bind, typeRegister_on]
          simp only [onBase_bind, onBase_pure]

/-- The declarations that code is generated for, and the code on the base encoder. -/
theorem emitDecls_generated {h : IterationOrder Name} {version : Nat} {index : Name → Int}
    {ds : List Decl} {before final : List (Generated ω)}
    (hemit : emitDecls h version index before ds = some final) :
    ∃ new, final = before ++ new ∧ new.map Generated.decl = ds ∧
      (∀ g ∈ new, g.hasDeps = hasDependencies h g.decl) ∧
      generateOn baseEncoder h (before.map Generated.on) new = final.map Generated.on := by
  induction ds generalizing before with
  | nil =>
      cases hemit
      exact ⟨[], by simp, rfl, by simp, rfl⟩
  | cons d ds ih =>
      rw [emitDecls, Option.bind_eq_bind, Option.bind_eq_some_iff] at hemit
      obtain ⟨s, _, hemit⟩ := hemit
      let g : Generated ω := ⟨d, s, hasDependencies h d,
        emitUserTypeDeps before (typeDependencies h d)⟩
      obtain ⟨new, hfinal, hdecls, hdeps, hcode⟩ := ih hemit
      refine ⟨g :: new, ?_, ?_, ?_, ?_⟩
      · rw [hfinal, List.append_assoc, List.singleton_append]
      · rw [List.map_cons, hdecls]
      · intro g' hg'
        rcases List.mem_cons.mp hg' with rfl | hg'
        · rfl
        · exact hdeps g' hg'
      · rw [generateOn, emitUserTypeDepsOn_on, ← hcode, List.map_append]
        rfl

/-- **On the base encoder the code is that of `Generated`.** -/
theorem generateOn_base {env : Environment} {version : Nat} {spec : Specification}
    {generated : List (Generated ω)} (hgen : emitC ω env version spec = some generated) :
    generateOn baseEncoder env.declOrder [] generated = generated.map Generated.on := by
  obtain ⟨new, hfinal, _, _, hcode⟩ := emitDecls_generated hgen
  rw [List.nil_append] at hfinal
  rw [hfinal]
  rw [hfinal] at hcode
  exact hcode

/-! ## Bindings -/

/-- The code of each declaration is that of one of `generated`. -/
theorem mem_generateOn {e : EncoderInterface ω} {h : IterationOrder Name}
    {before : List (GeneratedOn ω)} {generated : List (Generated ω)} {t : GeneratedOn ω}
    (ht : t ∈ generateOn e h before generated) :
    t ∈ before ∨ ∃ g ∈ generated, t.decl = g.decl ∧ t.hasDeps = g.hasDeps := by
  induction generated generalizing before with
  | nil => exact .inl ht
  | cons g generated ih =>
      rcases ih ht with hmem | ⟨g', hg', heq⟩
      · rcases List.mem_append.mp hmem with hmem | hmem
        · exact .inl hmem
        · rw [List.mem_singleton] at hmem
          subst hmem
          exact .inr ⟨g, List.mem_cons_self, rfl, rfl⟩
      · exact .inr ⟨g', List.mem_cons_of_mem _ hg', heq⟩

section Calls

variable {layers : List Layer} {e : EncoderInterface ω} (he : Binds layers e)

include he

theorem typeRegister_keeps {t : GeneratedOn ω} (ht : KeepsBindings t.userTypeDeps) :
    KeepsBindings (t.typeRegister e) := by
  refine ht.bind fun _ => ?_
  split
  · exact he.typeRegister t.signature
  · exact KeepsBindings.pure 0

theorem emitUserTypeDepsOn_keeps {before : List (GeneratedOn ω)}
    (hbefore : ∀ t ∈ before, KeepsBindings t.userTypeDeps) (deps : List Name) :
    KeepsBindings (emitUserTypeDepsOn e before deps) := by
  refine KeepsBindings.forM fun name _ => ?_
  cases ht : typeNamedOn before name with
  | none => exact KeepsBindings.pure ()
  | some t =>
      have hdeps := hbefore t (List.mem_of_find?_eq_some ht)
      exact hdeps.bind fun _ => (typeRegister_keeps he hdeps).bind fun _ => KeepsBindings.pure ()

theorem generateOn_keeps {h : IterationOrder Name} {before : List (GeneratedOn ω)}
    (hbefore : ∀ t ∈ before, KeepsBindings t.userTypeDeps) (generated : List (Generated ω)) :
    ∀ t ∈ generateOn e h before generated, KeepsBindings t.userTypeDeps := by
  induction generated generalizing before with
  | nil => exact hbefore
  | cons g generated ih =>
      refine ih fun t ht => ?_
      rcases List.mem_append.mp ht with ht | ht
      · exact hbefore t ht
      · rw [List.mem_singleton] at ht
        subst ht
        exact emitUserTypeDepsOn_keeps he hbefore _

/-- **The register function of a sample that has dependencies, or is called on the base
encoder**: the type that the sample is bound to is the one the stack has defined. -/
theorem register_keeps {t : GeneratedOn ω} (ht : KeepsBindings t.userTypeDeps)
    (hdeps : layers = [] ∨ t.hasDeps = true) : KeepsBindings (t.register e) := by
  refine Preserves.bind (Q := fun _ s => TypesBacked s ∧ ∃ y, Resolves layers s t.signature y)
    Forward.trans (he.sampleRegister t.signature) fun result => ?_
  suffices hbind : Preserves BindInv Forward
      (fun s => TypesBacked s ∧ ∃ y, Resolves layers s t.signature y) (t.bindType e result)
      fun _ => TypesBacked from hbind.bind Forward.trans fun _ => KeepsBindings.pure result
  -- `y` is what the layers have made of the signature of the sample
  rintro s hI ⟨hbacked, y, hy⟩
  suffices hbind : Preserves BindInv Forward
      (fun s => TypesBacked s ∧ Resolves layers s t.signature y) (t.bindType e result)
      fun _ => TypesBacked from hbind s hI ⟨hbacked, hy⟩
  unfold GeneratedOn.bindType
  split
  · refine Preserves.bind (Q := fun _ s => (TypesBacked s ∧
        (t.hasDeps = true → 0 < y.index → s.base.done .typedefs y.index = true)) ∧
          Resolves layers s t.signature y) Forward.trans ?_ fun _ => ?_
    · refine Preserves.bind (Q := fun _ s => TypesBacked s ∧ Resolves layers s t.signature y)
        Forward.trans (ht.frame (stable_resolves layers t.signature y)) fun _ => ?_
      -- the types it needs are defined first, if there are any
      split
      · have hdefines := (he.defines t.signature y).frame (stable_resolves layers t.signature y)
        refine hdefines.weaken (fun s hs => ⟨hs, hs.2⟩) ?_
        rintro _ s ⟨⟨hbacked, hdone⟩, hy⟩
        exact ⟨⟨hbacked, fun _ => hdone⟩, hy⟩
      · rename_i hnone
        refine Preserves.pure Forward.refl ?_
        rintro s ⟨hbacked, hy⟩
        refine ⟨⟨hbacked, fun h => ?_⟩, hy⟩
        simp [h] at hnone
    · -- the binding refers to what has been defined
      have htype := he.typeBind t.signature y t.hasDeps
      refine (htype.weaken ?_ fun _ _ h => h).bind Forward.trans fun _ => KeepsBindings.pure ()
      rintro s ⟨⟨hbacked, hdone⟩, hy⟩
      refine ⟨hbacked, hy, fun hneeds => hdone ?_⟩
      rcases hneeds with hneeds | hneeds
      · exact hneeds
      · exact hdeps.resolve_left hneeds
  · exact Preserves.pure Forward.refl fun _ hs => hs.1

end Calls

/-! ## Runs -/

/-- A sample that is registered through a renaming encoder refers to a typedef. -/
def RegisterCall.Typed (env : Environment) (spec : Specification) (layers : List Layer)
    (call : RegisterCall) : Prop :=
  call.layers layers = [] ∨ ∀ d ∈ decls env spec, d.isSampleDecl = true → d.name = call.name →
    userTypes d.type ≠ []

theorem hasDependencies_of_userTypes {h : IterationOrder Name} {d : Decl}
    (hd : userTypes d.type ≠ []) : hasDependencies h d = true := by
  obtain ⟨name, hname⟩ := List.exists_mem_of_ne_nil _ hd
  have hmem : name ∈ typeDependencies h d := mem_typeDependencies.mpr hname
  rw [hasDependencies, Bool.not_eq_true', List.isEmpty_eq_false_iff]
  exact List.ne_nil_of_mem hmem

theorem newStack_bindInv (w : Writer ω) (localIndex : Int) :
    BindInv (newStack (newEncoder w) localIndex) ∧
      TypesBacked (newStack (newEncoder w) localIndex) := by
  refine ⟨⟨?_, fun k a _ => rfl⟩, ?_⟩
  · exact Justified.nil.concat (bindingNeeds_of_ne fun _ _ => by simp)
  · intro i hi
    exact absurd hi (by simp [newStack, newEncoder_done])

/-- **Every binding that the register functions send through a stack of renaming encoders is to
no type or to one that was defined before**, as long as the samples refer to typedefs. -/
theorem register_bindingsResolve (hω : ω.Flushes) (hstart : ∀ n, ω.start n = 0)
    {env : Environment} {version : Nat} {spec : Specification} {generated : List (Generated ω)}
    (hgen : emitC ω env version spec = some generated) {layers : List Layer}
    {calls : List RegisterCall} {functions : List (StackM ω Int)}
    (hcalls : calls.mapM (RegisterCall.function env.declOrder generated layers) = some functions)
    (htyped : ∀ call ∈ calls, call.Typed env spec layers) (w : Writer ω) (localIndex : Int) :
    BindingsResolve ((runRegisters functions).run (newStack (newEncoder w) localIndex)).2.base := by
  have hfunctions : ∀ f ∈ functions, KeepsBindings f := by
    intro f hf
    obtain ⟨call, hcall, hfunction⟩ := mem_of_mapM_eq_some hcalls hf
    rw [RegisterCall.function, Option.map_eq_some_iff] at hfunction
    obtain ⟨t, ht, rfl⟩ := hfunction
    have hbinds := stackEncoder_binds hω hstart (call.layers layers)
    have hmem := List.mem_of_find?_eq_some ht
    have hfound := List.find?_some ht
    simp only [Bool.and_eq_true, decide_eq_true_eq] at hfound
    refine register_keeps hbinds (generateOn_keeps hbinds (by simp) generated t hmem) ?_
    refine (htyped call hcall).imp_right fun hnamed => ?_
    rcases mem_generateOn hmem with hmem | ⟨g, hg, hdecl, hdeps⟩
    · simp at hmem
    · obtain ⟨new, hfinal, hdecls, hnew, _⟩ := emitDecls_generated hgen
      rw [List.nil_append] at hfinal
      subst hfinal
      have hd : g.decl ∈ decls env spec := by
        show g.decl ∈ spec.resolve env.intentionOrder
        rw [← hdecls]
        exact List.mem_map_of_mem hg
      rw [hdeps, hnew g hg]
      rw [hdecl] at hfound
      exact hasDependencies_of_userTypes (hnamed g.decl hd hfound.1 hfound.2)
  have hrun : KeepsBindings (runRegisters functions) :=
    KeepsBindings.forM fun f hf => (hfunctions f hf).bind fun _ => KeepsBindings.pure ()
  obtain ⟨hinv, hbacked⟩ := newStack_bindInv w localIndex
  exact (hrun _ hinv hbacked).1.bindings

/-- A name after a `p`. -/
def prefixLayer : Layer := ⟨0, ([112] ++ ·)⟩

/-- Two encoders of a stack of two layers, and a sample that is registered again. -/
def renamedCalls : List RegisterCall := [⟨1, [97]⟩, ⟨0, [97]⟩, ⟨0, [97]⟩]

theorem register_bindingsResolve_typedef :
    ∃ generated functions, emitC bytewise firstEnvironment 2014 typedefSpec = some generated ∧
      renamedCalls.mapM (RegisterCall.function firstEnvironment.declOrder generated
        [prefixLayer, prefixLayer]) = some functions ∧
      BindingsResolve ((runRegisters functions).run
        (newStack (newEncoder (.empty bytewise)) 0x42)).2.base := by
  have hgen : (emitC bytewise firstEnvironment 2014 typedefSpec).isSome := by decide
  have hfunctions : (renamedCalls.mapM (RegisterCall.function firstEnvironment.declOrder
      ((emitC bytewise firstEnvironment 2014 typedefSpec).get hgen)
      [prefixLayer, prefixLayer])).isSome := by decide +revert
  refine ⟨_, _, (Option.some_get hgen).symm, (Option.some_get hfunctions).symm, ?_⟩
  refine register_bindingsResolve (fun _ => rfl) (fun _ => rfl) (Option.some_get hgen).symm
    (Option.some_get hfunctions).symm ?_ _ _
  intro call _
  refine .inr fun d hd _ _ => ?_
  have hdecls : d ∈ typedefSpec.resolve ⟨id, fun _ => .refl _⟩ := hd
  rw [typedefSpec_resolve] at hdecls
  rcases List.mem_cons.mp hdecls with rfl | hdecls
  · simp_all [Decl.isSampleDecl]
  · rw [List.mem_singleton] at hdecls
    subst hdecls
    simp [userTypes]

/-- `sample int a;` -/
def intSpec : Specification where
  decls := [⟨.sampleDecl, [], [97], .prim .int⟩]
  parsed := by simp [ParsedType.Parsed]
  checked := by decide

/-- What is generated for `intSpec`. -/
def intGenerated : List (Generated bytewise) :=
  (emitC bytewise firstEnvironment 2014 intSpec).get (by decide)

/-- The sample is registered through one renaming encoder. -/
def intCalls : List (StackM bytewise Int) :=
  ([(⟨0, [97]⟩ : RegisterCall)].mapM (RegisterCall.function firstEnvironment.declOrder intGenerated
    [prefixLayer])).get (by decide +kernel)

/-- The encoder afterwards. -/
def intEncoder : Encoder bytewise :=
  ((runRegisters intCalls).run (newStack (newEncoder (.empty bytewise)) 0x41)).2.base

/-- The sample has no dependencies, so the generated code does not define its type; the renaming
encoder binds it to that type. -/
theorem not_bindingsResolve_int :
    emitC bytewise firstEnvironment 2014 intSpec = some intGenerated ∧
      [(⟨0, [97]⟩ : RegisterCall)].mapM (RegisterCall.function firstEnvironment.declOrder
        intGenerated [prefixLayer]) = some intCalls ∧
      ¬ BindingsResolve ((runRegisters intCalls).run
        (newStack (newEncoder (.empty bytewise)) 0x41)).2.base := by
  refine ⟨Option.eq_some_of_isSome _, Option.eq_some_of_isSome _, fun h => ?_⟩
  have hresolve : BindingsResolve intEncoder := by
    unfold intEncoder
    exact h
  have hlast : (intEncoder.sent.drop 2).map Sent.packet = [.typeBinding 0x41 0x41] := by
    decide +kernel
  have hnone : ∀ s ∈ intEncoder.sent, definedEntry s.packet ≠ some (.typedefs, 0x41) := by
    decide +kernel
  obtain ⟨s, hs, hbinding⟩ := List.map_eq_singleton_iff.mp hlast
  have hsplit : intEncoder.sent = intEncoder.sent.take 2 ++ s :: [] := by
    rw [← hs, List.take_append_drop]
  rcases hresolve _ s [] hsplit _ _ hbinding with h0 | ⟨d, hd, hdefined⟩
  · simp at h0
  · exact hnone d (List.mem_of_mem_take hd) hdefined

end LabComm.Compiler
