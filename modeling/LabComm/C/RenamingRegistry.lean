import LabComm.C.Signature
import LabComm.C.SignatureArray

set_option autoImplicit false

/-! # The renaming registry

`labcomm2014_renaming_registry.c`. A renamed signature lives at two places: it is in the list of
its base signature, and it has an entry of its own in an array indexed by local index, which
points back to the entry of the base. Both kinds of records are in memory that is freed when
the last use is given back, so the model keeps them in a heap.
-/

namespace LabComm.C

/-! ## State -/

/-- A pointer to allocated memory. -/
abbrev Addr := Nat

/-- The ways the process ends in the registry. -/
inductive RegistryExit where
  /-- `LABCOMM2014_ERROR_SIGNATURE_NOT_SET` -/
  | signatureNotSet
  /-- `LABCOMM2014_ERROR_SIGNATURE_ALREADY_SET` -/
  | signatureAlreadySet
  /-- `labcomm2014_error_warning(r->error, …, "Signature has no index: %s\n", …)` -/
  | noIndex
  /-- A pointer to memory that was freed is followed. -/
  | freed
  deriving DecidableEq

/-- `struct registry`; `rename` is the list that starts there, along the `next` pointers. -/
structure Registry where
  base : Option Addr
  signature : Signature
  rename : List Addr

/-- `struct labcomm2014_renaming_rename` -/
structure Rename where
  useCount : Int
  base : Addr
  signature : Signature

/-- `struct labcomm2014_renaming_registry`, with the memory it uses and the variable
`local_index`. -/
structure RenamingRegistry where
  registry : SigArray (Option Addr)
  registries : Addr → Option Registry
  renames : Addr → Option Rename
  /-- Nothing is allocated from here on. -/
  unused : Addr
  localIndex : Int

/-- A function of the registry; it may end the process. -/
abbrev RegistryM := StateT RenamingRegistry (Except RegistryExit)

/-- `labcomm2014_renaming_registry_new` -/
def registryInit (localIndex : Int) : RenamingRegistry :=
  ⟨.init, fun _ => none, fun _ => none, 0, localIndex⟩

/-! ## Memory -/

/-- A `struct registry` is read. -/
def loadRegistry (a : Addr) : RegistryM Registry := do
  match (← get).registries a with
  | some e => pure e
  | none => throw .freed

/-- A rename is read. -/
def loadRename (a : Addr) : RegistryM Rename := do
  match (← get).renames a with
  | some e => pure e
  | none => throw .freed

/-- A `struct registry` is written, or freed. -/
def RenamingRegistry.storeRegistry (r : RenamingRegistry) (a : Addr) (e : Option Registry) :
    RenamingRegistry :=
  { r with registries := Function.update r.registries a e }

/-- A rename is written, or freed. -/
def RenamingRegistry.storeRename (r : RenamingRegistry) (a : Addr) (e : Option Rename) :
    RenamingRegistry :=
  { r with renames := Function.update r.renames a e }

/-- A store into the array. -/
def RenamingRegistry.setSlot (r : RenamingRegistry) (index : Int) (e : Option Addr) :
    RenamingRegistry :=
  { r with registry := r.registry.set index e }

section Stores

variable (r : RenamingRegistry) (a : Addr) (e : Option Registry) (x : Option Rename) (i : Int)
variable (l : Option Addr)

@[simp] theorem storeRegistry_registries :
    (r.storeRegistry a e).registries = Function.update r.registries a e := rfl
@[simp] theorem storeRegistry_registry : (r.storeRegistry a e).registry = r.registry := rfl
@[simp] theorem storeRegistry_renames : (r.storeRegistry a e).renames = r.renames := rfl
@[simp] theorem storeRegistry_unused : (r.storeRegistry a e).unused = r.unused := rfl
@[simp] theorem storeRegistry_localIndex : (r.storeRegistry a e).localIndex = r.localIndex := rfl

@[simp] theorem storeRename_renames :
    (r.storeRename a x).renames = Function.update r.renames a x := rfl
@[simp] theorem storeRename_registry : (r.storeRename a x).registry = r.registry := rfl
@[simp] theorem storeRename_registries : (r.storeRename a x).registries = r.registries := rfl
@[simp] theorem storeRename_unused : (r.storeRename a x).unused = r.unused := rfl
@[simp] theorem storeRename_localIndex : (r.storeRename a x).localIndex = r.localIndex := rfl

@[simp] theorem setSlot_get (j : Int) :
    (r.setSlot i l).registry.get j = if j = i then l else r.registry.get j :=
  SigArray.get_set _ _ _ _
@[simp] theorem setSlot_registries : (r.setSlot i l).registries = r.registries := rfl
@[simp] theorem setSlot_renames : (r.setSlot i l).renames = r.renames := rfl
@[simp] theorem setSlot_unused : (r.setSlot i l).unused = r.unused := rfl
@[simp] theorem setSlot_localIndex : (r.setSlot i l).localIndex = r.localIndex := rfl

end Stores

/-- `labcomm2014_memory_alloc` -/
def memoryAlloc : RegistryM Addr := do
  let a := (← get).unused
  modify fun r => { r with unused := a + 1 }
  pure a

/-! ## Indices -/

/-- `labcomm2014_get_local_index` -/
def registryIndex (s : Signature) : RegistryM Int :=
  if s.index = 0 then throw .signatureNotSet else pure s.index

/-- The signature with this index. -/
def Signature.withIndex : Signature → Int → Signature
  | .mk name signature _ treedata, index => .mk name signature index treedata

/-- `labcomm2014_set_local_index` -/
def setLocalIndex (s : Signature) : RegistryM Signature := do
  if s.index ≠ 0 then
    throw .signatureAlreadySet
  else
    let index := (← get).localIndex
    modify fun r => { r with localIndex := index + 1 }
    pure (s.withIndex index)

/-! ## The functions -/

/-- `registry_new` -/
def registryNew (signature : Signature) (base : Option Addr) : RegistryM Addr := do
  let index ← registryIndex signature
  if index ≤ 0 then
    throw .noIndex
  else
    modify fun r => { r with registry := r.registry.ref index }
    match (← get).registry.get index with
    | some result => pure result
    | none =>
        let result ← memoryAlloc
        modify fun r => (r.storeRegistry result (some ⟨base, signature, []⟩)).setSlot index result
        pure result

/-- The loop of `labcomm2014_renaming_rename_new` that looks for a name. -/
def findRename (newName : Name) : List Addr → RegistryM (Option Addr)
  | [] => pure none
  | l :: next => do
      let e ← loadRename l
      if e.signature.name = newName then
        pure (some l)
      else
        findRename newName next

/-- The signature of a new rename; its hierarchical signature refers to the base signature. -/
def renamedSignature (base : Signature) (newName : Name) : Signature :=
  .mk newName base.signature 0 (.sigdefSignature base .sigdefEnd)

/-- A new rename, at the end of the list of its base. -/
def addRename (base : Addr) (newName : Name) : RegistryM Addr := do
  let entry ← memoryAlloc
  let signature ← setLocalIndex (renamedSignature (← loadRegistry base).signature newName)
  let _ ← registryNew signature (some base)
  let e ← loadRegistry base
  modify fun r => (r.storeRename entry (some ⟨0, base, signature⟩)).storeRegistry base
    (some { e with rename := e.rename ++ [entry] })
  pure entry

/-- The rename with the name: the one that was found, or a new one. -/
def foundOrAdded (base : Addr) (newName : Name) : Option Addr → RegistryM Addr
  | some l => pure l
  | none => addRename base newName

/-- The part of `labcomm2014_renaming_rename_new` after the entry of the base is found. -/
def useRename (base : Addr) (newName : Name) : RegistryM Addr := do
  let l ← findRename newName (← loadRegistry base).rename
  let result ← foundOrAdded base newName l
  let e ← loadRename result
  modify fun r => r.storeRename result (some { e with useCount := e.useCount + 1 })
  pure result

/-- `labcomm2014_renaming_rename_new` -/
def renameNew (signature : Signature) (rename : Name → Name) : RegistryM Addr := do
  let base ← registryNew signature none
  let e ← loadRegistry base
  useRename (e.base.getD base) (rename signature.name)

/-- The entry of a signature is freed and taken out of the array. -/
def freeIndex (signature : Signature) : RegistryM Unit := do
  let index ← registryIndex signature
  match (← get).registry.get index with
  | some e => modify fun r => (r.storeRegistry e none).setSlot index none
  | none => modify fun r => r.setSlot index none

/-- `if (rename->base->rename == NULL) { … }` -/
def freeUnused (signature : Signature) (next : List Addr) : RegistryM Unit :=
  if next = [] then freeIndex signature else pure ()

/-- What `labcomm2014_renaming_rename_free` does when nobody uses the rename any more. -/
def dropRename (rename : Addr) (e : Rename) : RegistryM Unit := do
  let base ← loadRegistry e.base
  let next := base.rename.erase rename
  modify fun r => r.storeRegistry e.base (some { base with rename := next })
  freeUnused base.signature next
  freeIndex e.signature
  modify fun r => r.storeRename rename none

/-- `labcomm2014_renaming_rename_free` -/
def renameFree (rename : Addr) : RegistryM Unit := do
  let e ← loadRename rename
  let e := { e with useCount := e.useCount - 1 }
  modify fun r => r.storeRename rename (some e)
  if e.useCount = 0 then dropRename rename e else pure ()

/-- `labcomm2014_renaming_rename_signature` -/
def renameSignature (r : RenamingRegistry) (rename : Addr) : Option Signature :=
  (r.renames rename).map Rename.signature

end LabComm.C
