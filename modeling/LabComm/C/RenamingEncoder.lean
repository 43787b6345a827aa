import LabComm.C.Encoder
import LabComm.C.RenamingRegistry

set_option autoImplicit false

/-! # Renaming encoders

`labcomm2014_renaming_encoder.c`. An encoder is a record of functions; a renaming encoder has
functions that call those of the encoder below it on a renamed signature. A stack of renaming
encoders is given by its layers, the top one first, over the base encoder.
-/

namespace LabComm.C

open Library

variable {ω : WriterAction}

/-! ## State -/

/-- The ways the process ends in a stack of encoders. -/
inductive StackExit where
  | encoder (x : Exit)
  | registry (x : RegistryExit)

/-- What the functions of a stack of encoders work on: the base encoder, the renaming registries
with their common variable `local_index`, and the array `renamed` of each layer. -/
structure EncoderStack (ω : WriterAction) where
  base : Encoder ω
  registries : Nat → RenamingRegistry
  localIndex : Int
  renamed : Nat → SigArray (Option Addr)

/-- A function of a stack of encoders; it may end the process. -/
abbrev StackM (ω : WriterAction) := ExceptT StackExit (StateM (EncoderStack ω))

/-- A call on the base encoder. -/
def onBase {α : Type} (m : EncoderM ω α) : StackM ω α := fun s =>
  match m.run s.base with
  | (.ok a, e) => (.ok a, { s with base := e })
  | (.error x, e) => (.error (.encoder x), { s with base := e })

/-- A call on a renaming registry. -/
def onRegistry {α : Type} (k : Nat) (m : RegistryM α) : StackM ω α := fun s =>
  match m { s.registries k with localIndex := s.localIndex } with
  | .ok (a, r) => (.ok a, { s with
      registries := Function.update s.registries k r
      localIndex := r.localIndex })
  | .error x => (.error (.registry x), s)

theorem onBase_ok {α : Type} {m : EncoderM ω α} {s : EncoderStack ω} {a : α} {e : Encoder ω}
    (h : m.run s.base = (.ok a, e)) : (onBase m).run s = (.ok a, { s with base := e }) := by
  change (match m.run s.base with
    | (.ok a, e) => _
    | (.error x, e) => _) = _
  rw [h]

theorem onBase_error {α : Type} {m : EncoderM ω α} {s : EncoderStack ω} {x : Exit}
    {e : Encoder ω} (h : m.run s.base = (.error x, e)) :
    (onBase m).run s = (.error (.encoder x), { s with base := e }) := by
  change (match m.run s.base with
    | (.ok a, e) => _
    | (.error x, e) => _) = _
  rw [h]

theorem onBase_pure {α : Type} (a : α) : onBase (ω := ω) (pure a) = pure a := rfl

theorem onBase_bind {α β : Type} (m : EncoderM ω α) (f : α → EncoderM ω β) :
    onBase (m >>= f) = onBase m >>= fun a => onBase (f a) := by
  funext s
  cases hrun : m.run s.base with
  | mk r e =>
      cases r with
      | ok a =>
          have hleft := run_bind_ok (f := f) hrun
          have hright := run_bind_ok (f := fun a => onBase (f a)) (onBase_ok hrun)
          calc onBase (m >>= f) s
              = onBase (f a) { s with base := e } := by
                simp only [onBase]
                rw [hleft]
            _ = (onBase m >>= fun a => onBase (f a)) s := hright.symm
      | error x =>
          have hleft := run_bind_error (f := f) hrun
          have hright := run_bind_error (f := fun a => onBase (f a)) (onBase_error hrun)
          exact (onBase_error hleft).trans hright.symm

/-- The registry with the common `local_index`. -/
def EncoderStack.registry (s : EncoderStack ω) (k : Nat) : RenamingRegistry :=
  { s.registries k with localIndex := s.localIndex }

theorem onRegistry_ok {α : Type} {k : Nat} {m : RegistryM α} {s : EncoderStack ω} {a : α}
    {r : RenamingRegistry} (h : m (s.registry k) = .ok (a, r)) :
    (onRegistry k m).run s = (.ok a, { s with
      registries := Function.update s.registries k r
      localIndex := r.localIndex }) := by
  change (match m (s.registry k) with
    | .ok (a, r) => _
    | .error x => _) = _
  rw [h]

theorem onRegistry_error {α : Type} {k : Nat} {m : RegistryM α} {s : EncoderStack ω}
    {x : RegistryExit} (h : m (s.registry k) = .error x) :
    (onRegistry k m).run s = (.error (.registry x), s) := by
  change (match m (s.registry k) with
    | .ok (a, r) => _
    | .error x => _) = _
  rw [h]

/-- `struct labcomm2014_encoder`: the functions that the generated code calls. -/
structure EncoderInterface (ω : WriterAction) where
  typeRegister : Signature → StackM ω Int
  typeBind : Signature → Bool → StackM ω Int
  sampleRegister : Signature → StackM ω Int
  refRegister : Signature → StackM ω Int
  encode : Signature → DataType → Value → StackM ω Int
  refGet : Signature → StackM ω Signature

/-- The functions of `labcomm2014_encoder.c`; a sample reference is its signature. -/
def baseEncoder : EncoderInterface ω where
  typeRegister s := onBase (doTypeRegister s)
  typeBind s hasDeps := onBase (doTypeBind s hasDeps)
  sampleRegister s := onBase (doSampleRegister s)
  refRegister s := onBase (doRefRegister s)
  encode s type v := onBase (doEncode s type v)
  refGet s := pure s

/-! ## One layer -/

/-- The registry of a renaming encoder, and its rename function with its context. -/
structure Layer where
  registry : Nat
  rename : Name → Name

/-- A store into the array of a layer. -/
def EncoderStack.setRenamed (s : EncoderStack ω) (layer : Nat) (index : Int) (a : Addr) :
    EncoderStack ω :=
  { s with renamed := Function.update s.renamed layer ((s.renamed layer).set index a) }

/-- `get_renamed` -/
def getRenamed (layer : Nat) (signature : Signature) : StackM ω (Option Addr) := do
  let index ← onBase (getLocalIndex (some signature))
  return ((← get).renamed layer).get index

/-- `set_renamed` -/
def setRenamed (layer : Nat) (l : Layer) (signature : Signature) : StackM ω Addr := do
  match ← getRenamed layer signature with
  | some result => pure result
  | none =>
      let entry ← onRegistry l.registry (renameNew signature l.rename)
      modify fun s => s.setRenamed layer signature.index entry
      pure entry

/-- `labcomm2014_renaming_rename_signature` -/
def signatureOf (l : Layer) (renamed : Addr) : StackM ω Signature := do
  match renameSignature ((← get).registries l.registry) renamed with
  | some signature => pure signature
  | none => throw (.registry .freed)

/-- The functions of `labcomm2014_renaming_encoder.c`, of the layer with this number over the
encoder `next`. -/
def renamingEncoder (layer : Nat) (l : Layer) (next : EncoderInterface ω) :
    EncoderInterface ω where
  typeRegister signature := do
    match ← getRenamed layer signature with
    | some renamed =>
        -- Register base type and renamed type
        let _ ← next.typeRegister signature
        next.typeRegister (← signatureOf l renamed)
    | none => next.typeRegister signature
  typeBind signature hasDeps := do
    match ← getRenamed layer signature with
    | some renamed => next.typeBind (← signatureOf l renamed) true
    | none => next.typeBind signature hasDeps
  sampleRegister signature := do
    let renamed ← setRenamed layer l signature
    next.sampleRegister (← signatureOf l renamed)
  refRegister signature := do
    let renamed ← setRenamed layer l signature
    next.refRegister (← signatureOf l renamed)
  encode signature type v := do
    match ← getRenamed layer signature with
    | none => pure (-EINVAL)
    | some renamed => next.encode (← signatureOf l renamed) type v
  refGet signature := do
    match ← getRenamed layer signature with
    | none => next.refGet signature
    | some renamed => next.refGet (← signatureOf l renamed)

/-! ## Stacks -/

/-- The encoder on top of the layers. -/
def stackEncoder : List Layer → EncoderInterface ω
  | [] => baseEncoder
  | l :: below => renamingEncoder below.length l (stackEncoder below)

/-- A stack over an encoder, before anything is registered. -/
def newStack (base : Encoder ω) (localIndex : Int) : EncoderStack ω :=
  ⟨base, fun _ => registryInit localIndex, localIndex, fun _ => .init⟩

end LabComm.C
