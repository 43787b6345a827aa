import LabComm.C.RenamingRuns
import Mathlib.Data.Finset.Lattice.Fold

set_option autoImplicit false

/-! # Renames that fail

`labcomm2014_renaming_registry.c` when the memory has nothing left, or when the function that makes
the new name returns null. What a call asks the memory for is answered separately at each place, and
the array and the names are kept account of like the entries.

A call that fails leaves everything as it was if and only if it fails early
(`failedRename_unchanged_iff`): an entry that was made for the base signature stays, a name is lost
when the rename gets no entry of its own, and an array that cannot grow loses all entries. In a run
where calls fail early only, nothing is left when everything is given back.
-/

namespace LabComm.C

open Library

/-! ## State -/

/-- The registry with the rest of its memory. -/
structure RegistryMemory where
  registry : RenamingRegistry
  /-- `r->registry.data`; the array has entries only while it is not null. -/
  data : Option Nat
  /-- The names that are allocated. -/
  names : Finset Nat
  /-- `signature.name` of each rename. -/
  nameOf : Addr → Nat

/-- The ways the process ends. -/
inductive MemoryExit where
  | registry (e : RegistryExit)
  /-- The entries are copied from an array that is null. -/
  | nullData
  deriving DecidableEq

/-- A function of the registry. -/
abbrev RegistryMemoryM := StateT RegistryMemory (Except MemoryExit)

/-- A step that does not ask for memory. -/
def onEntries {α : Type} (m : RegistryM α) : RegistryMemoryM α := fun f =>
  match m f.registry with
  | .ok (a, r) => .ok (a, { f with registry := r })
  | .error e => .error (.registry e)

/-- What the memory answers in a call of `labcomm2014_renaming_rename_new`, at each place where
something is allocated. -/
structure RenameAnswers where
  baseArray : Bool
  baseEntry : Bool
  rename : Bool
  array : Bool
  entry : Bool

/-- The entry of an index. -/
def RegistryMemory.slot (f : RegistryMemory) (i : Int) : Option Addr :=
  if f.data.isSome then f.registry.registry.get i else none

/-- What was allocated and not freed: the array, the entries and renames, and the names. -/
inductive RegistryBlock where
  | array (n : Nat)
  | record (a : Addr)
  | name (n : Nat)

/-- The block is allocated. -/
def RegistryMemory.Outstanding (f : RegistryMemory) : RegistryBlock → Prop
  | .array n => f.data = some n
  | .record a => f.registry.registries a ≠ none ∨ f.registry.renames a ≠ none
  | .name n => n ∈ f.names

/-! ## The functions -/

/-- The array was not used before. -/
def RegistryMemory.Unused (f : RegistryMemory) : Prop :=
  f.registry.registry.first = 0 ∧ f.registry.registry.last = 0

/-- The array has no place for the index. -/
def RegistryMemory.Outside (f : RegistryMemory) (index : Int) : Prop :=
  index < f.registry.registry.first ∨ f.registry.registry.last ≤ index

instance RegistryMemory.decidableUnused (f : RegistryMemory) : Decidable f.Unused :=
  inferInstanceAs (Decidable (_ ∧ _))

instance RegistryMemory.decidableOutside (f : RegistryMemory) (index : Int) :
    Decidable (f.Outside index) :=
  inferInstanceAs (Decidable (_ ∨ _))

/-- The array with a place for the index, at `data`. -/
def RegistryMemory.resized (f : RegistryMemory) (index : Int) (data : Option Nat) :
    RegistryMemory :=
  { f with registry := f.registry.grown index, data := data }

/-- A block that is not the array. -/
def RegistryMemory.newData (f : RegistryMemory) : Nat := f.data.elim 0 (· + 1)

/-- `LABCOMM_SIGNATURE_ARRAY_REF`; the result is whether the pointer is not null. -/
def registryRef (answer : Bool) (index : Int) : RegistryMemoryM Bool := fun f =>
  let data := if answer then some f.newData else none
  if f.Unused then
    .ok (answer, f.resized index data)
  else if f.Outside index then
    if answer ∧ f.data = none then .error .nullData else .ok (answer, f.resized index data)
  else .ok (f.data.isSome, f)

/-- The part of `registry_new` that is reached when the array has a place for the index. -/
def knownOrNew (arrayAnswer entryAnswer : Bool) (signature : Signature) (base : Option Addr)
    (index : Int) : RegistryMemoryM (Option Addr) := do
  match (← get).registry.registry.get index with
  | some result => return some result
  | none =>
      if !(← registryRef arrayAnswer index) then
        return none
      if !entryAnswer then
        return none
      let result ← onEntries memoryAlloc
      onEntries (modify fun r =>
        (r.storeRegistry result (some ⟨base, signature, []⟩)).setSlot index result)
      return some result

/-- `registry_new` -/
def registryNewIn (arrayAnswer entryAnswer : Bool) (signature : Signature) (base : Option Addr) :
    RegistryMemoryM (Option Addr) := do
  let index ← onEntries (registryIndex signature)
  if index ≤ 0 then
    throw (.registry .noIndex)
  if !(← registryRef arrayAnswer index) then
    return none
  knownOrNew arrayAnswer entryAnswer signature base index

/-- What the function that makes the new name allocates. -/
def allocName : RegistryMemoryM Nat := fun f =>
  let name := f.names.sup id + 1
  .ok (name, { f with names := insert name f.names })

/-- `labcomm2014_memory_free` of a name. -/
def freeName (name : Nat) : RegistryMemoryM Unit := modify fun f =>
  { f with names := f.names.erase name }

/-- `result->use_count++` -/
def useEntry (result : Addr) : RegistryM Unit := do
  let e ← loadRename result
  modify fun r => r.storeRename result (some { e with useCount := e.useCount + 1 })

/-- `entry->next = NULL; …; (*l) = entry` -/
def linkRename (base entry : Addr) (signature : Signature) : RegistryM Unit := do
  let e ← loadRegistry base
  modify fun r => (r.storeRename entry (some ⟨0, base, signature⟩)).storeRegistry base
    (some { e with rename := e.rename ++ [entry] })

/-- The part of `labcomm2014_renaming_rename_new` that makes a new rename. -/
def addRenameIn (a : RenameAnswers) (base : Addr) (newName : Name) (name : Nat) :
    RegistryMemoryM (Option Addr) := do
  if !a.rename then
    freeName name
    return none
  let entry ← onEntries memoryAlloc
  let b ← onEntries (loadRegistry base)
  let signature ← onEntries (setLocalIndex (renamedSignature b.signature newName))
  match ← registryNewIn a.array a.entry signature (some base) with
  | none =>
      -- `new_name` is null by now, so that the name is not freed with the entry
      onEntries (modify fun r => r.storeRename entry none)
      return none
  | some _ =>
      onEntries (linkRename base entry signature)
      modify fun f => { f with nameOf := Function.update f.nameOf entry name }
      onEntries (useEntry entry)
      return some entry

/-- The part of `labcomm2014_renaming_rename_new` after the entry of the signature is found. -/
def useRenameIn (a : RenameAnswers) (signature : Signature) (rename : Name → Option Name)
    (base : Addr) : RegistryMemoryM (Option Addr) := do
  let e ← onEntries (loadRegistry base)
  let base := e.base.getD base
  match rename signature.name with
  | none => return none
  | some newName =>
      let name ← allocName
      let b ← onEntries (loadRegistry base)
      match ← onEntries (findRename newName b.rename) with
      | some l =>
          onEntries (useEntry l)
          freeName name
          return some l
      | none => addRenameIn a base newName name

/-- `labcomm2014_renaming_rename_new` -/
def renameNewIn (a : RenameAnswers) (signature : Signature) (rename : Name → Option Name) :
    RegistryMemoryM (Option Addr) := do
  match ← registryNewIn a.baseArray a.baseEntry signature none with
  | none => return none
  | some base => useRenameIn a signature rename base

/-- `labcomm2014_renaming_rename_free`; the entries it takes out of the array are there. -/
def renameFreeIn (rename : Addr) : RegistryMemoryM Unit := do
  let e ← onEntries (loadRename rename)
  onEntries (renameFree rename)
  if e.useCount - 1 = 0 then
    freeName ((← get).nameOf rename)

/-! ## What a failed call leaves -/

/-- The array has to be made larger, or is made. -/
def RegistryMemory.Grows (f : RegistryMemory) (index : Int) : Prop := f.Unused ∨ f.Outside index

instance RegistryMemory.decidableGrows (f : RegistryMemory) (index : Int) :
    Decidable (f.Grows index) :=
  inferInstanceAs (Decidable (_ ∨ _))

/-- The registry has the same entries, lists and use counts, and the same is allocated. -/
structure RegistryMemory.Unchanged (f f' : RegistryMemory) : Prop where
  slots : ∀ i, f'.slot i = f.slot i
  registries : f'.registry.registries = f.registry.registries
  renames : f'.registry.renames = f.registry.renames
  outstanding : ∀ b, f'.Outstanding b ↔ f.Outstanding b

/-- The call fails before it has made anything that stays: there is no array and there can be none,
the base signature can have no entry although there is a place for it, or it has one and the new
name or the rename itself cannot be made. -/
def FailsEarly (f : RegistryMemory) (a : RenameAnswers) (s : Signature)
    (rename : Name → Option Name) : Prop :=
  if f.Grows s.index then a.baseArray = false ∧ f.data = none
  else f.data = none ∨
    if f.slot s.index = none then a.baseEntry = false else rename s.name = none ∨ a.rename = false

/-! ## Steps -/

section Steps

variable {α β : Type} {f f' : RegistryMemory}

theorem memory_bind_ok {m : RegistryMemoryM α} {k : α → RegistryMemoryM β} {b : β} :
    (m >>= k) f = .ok (b, f') ↔ ∃ a g, m f = .ok (a, g) ∧ k a g = .ok (b, f') := by
  show (m f >>= fun p => k p.1 p.2) = _ ↔ _
  cases m f with
  | error e =>
      constructor
      · rintro ⟨⟩
      · rintro ⟨a, g, ⟨⟩, _⟩
  | ok p =>
      constructor
      · exact fun h => ⟨p.1, p.2, rfl, h⟩
      · rintro ⟨a, g, ⟨⟩, h⟩
        exact h

theorem memory_pure_ok {a b : α} : (pure a : RegistryMemoryM α) f = .ok (b, f') ↔ b = a ∧ f' = f := by
  show Except.ok (a, f) = .ok (b, f') ↔ _
  rw [Except.ok.injEq, Prod.mk.injEq, eq_comm, @eq_comm _ f]

theorem onEntries_ok {m : RegistryM α} {a : α} :
    onEntries m f = .ok (a, f') ↔
      ∃ r, m f.registry = .ok (a, r) ∧ f' = { f with registry := r } := by
  unfold onEntries
  cases m f.registry with
  | error e => simp
  | ok p =>
      constructor
      · intro h
        cases h
        exact ⟨p.2, rfl, rfl⟩
      · rintro ⟨r, hp, rfl⟩
        cases hp
        rfl

end Steps

/-! ## The array -/

section Array

variable {f f' : RegistryMemory} {i : Int}

theorem not_grows_resized (data : Option Nat) : ¬ (f.resized i data).Grows i := by
  obtain ⟨hfirst, hlast⟩ := f.registry.registry.ref_bounds i
  rintro (⟨h0, h1⟩ | h | h)
  · change (f.registry.registry.ref i).first = 0 at h0
    change (f.registry.registry.ref i).last = 0 at h1
    omega
  · change i < (f.registry.registry.ref i).first at h
    omega
  · change (f.registry.registry.ref i).last ≤ i at h
    omega

/-- An array that has a place for the index is not changed. -/
theorem grown_of_not_grows (h : ¬ f.Grows i) : f.registry.grown i = f.registry := by
  have hunused : ¬ (f.registry.registry.first = 0 ∧ f.registry.registry.last = 0) :=
    fun hu => h (.inl hu)
  have houtside : ¬ (i < f.registry.registry.first ∨ f.registry.registry.last ≤ i) :=
    fun ho => h (.inr ho)
  have href : f.registry.registry.ref i = f.registry.registry := by
    rw [SigArray.ref, if_neg hunused, dif_neg houtside]
  rw [RenamingRegistry.grown, href]

/-- There is no entry where there is no place. -/
theorem get_of_grows (h : f.Grows i) : f.registry.registry.get i = none := by
  rw [SigArray.get, if_neg]
  · rfl
  · rcases h with ⟨h0, h1⟩ | h | h <;> omega

theorem registryRef_inside (answer : Bool) (h : ¬ f.Grows i) :
    registryRef answer i f = .ok (f.data.isSome, f) := by
  unfold registryRef
  rw [if_neg fun hu => h (.inl hu), if_neg fun ho => h (.inr ho)]

theorem registryRef_grows {answer b : Bool} (hgrows : f.Grows i)
    (h : registryRef answer i f = .ok (b, f')) :
    b = answer ∧ f' = f.resized i (if answer then some f.newData else none) := by
  unfold registryRef at h
  by_cases hunused : f.Unused
  · rw [if_pos hunused] at h
    cases h
    exact ⟨rfl, rfl⟩
  · rw [if_neg hunused, if_pos (hgrows.resolve_left hunused)] at h
    split at h
    · cases h
    · cases h
      exact ⟨rfl, rfl⟩

/-- The array with a place for the index, if the memory has one. -/
def RegistryMemory.room (f : RegistryMemory) (i : Int) : RegistryMemory :=
  if f.Grows i then f.resized i (some f.newData) else f

theorem room_registry : (f.room i).registry = f.registry.grown i := by
  unfold RegistryMemory.room
  split
  · rfl
  · rename_i h
    exact (grown_of_not_grows h).symm

theorem room_names : (f.room i).names = f.names := by
  unfold RegistryMemory.room
  split <;> rfl

theorem not_grows_room : ¬ (f.room i).Grows i := by
  unfold RegistryMemory.room
  split
  · exact not_grows_resized _
  · assumption

end Array

/-! ## An entry -/

/-- What `registry_new` does. -/
inductive NewEntry (f : RegistryMemory) (arrayAnswer entryAnswer : Bool) (s : Signature)
    (base : Option Addr) : Option Addr → RegistryMemory → Prop where
  | noArray (hgrows : f.Grows s.index) (hanswer : arrayAnswer = false) :
      NewEntry f arrayAnswer entryAnswer s base none (f.resized s.index none)
  | nullArray (hgrows : ¬ f.Grows s.index) (hdata : f.data = none) :
      NewEntry f arrayAnswer entryAnswer s base none f
  | known {e : Addr} (hgrows : ¬ f.Grows s.index) (hslot : f.slot s.index = some e) :
      NewEntry f arrayAnswer entryAnswer s base (some e) f
  | noEntry (hanswer : f.Grows s.index → arrayAnswer = true) (hdata : (f.room s.index).data ≠ none)
      (hget : f.registry.registry.get s.index = none) (hentry : entryAnswer = false) :
      NewEntry f arrayAnswer entryAnswer s base none (f.room s.index)
  | new (hanswer : f.Grows s.index → arrayAnswer = true) (hdata : (f.room s.index).data ≠ none)
      (hget : f.registry.registry.get s.index = none) (hentry : entryAnswer = true) :
      NewEntry f arrayAnswer entryAnswer s base (some f.registry.unused)
        { f.room s.index with registry := f.registry.withEntry ⟨base, s, []⟩ }

theorem knownOrNew_cases {f f' g : RegistryMemory} {arrayAnswer entryAnswer : Bool} {s : Signature}
    {base result : Option Addr} (hg : g = f.room s.index) (hdata : g.data ≠ none)
    (hanswer : f.Grows s.index → arrayAnswer = true)
    (h : knownOrNew arrayAnswer entryAnswer s base s.index g = .ok (result, f')) :
    NewEntry f arrayAnswer entryAnswer s base result f' := by
  have hget : g.registry.registry.get s.index = f.registry.registry.get s.index := by
    rw [hg, room_registry, grown_get]
  obtain ⟨_, _, hstate, h⟩ := memory_bind_ok.mp h
  cases hstate
  rw [hget] at h
  cases hentry : f.registry.registry.get s.index with
  | some e =>
      have hgrows : ¬ f.Grows s.index := fun hgrows => by
        rw [get_of_grows hgrows] at hentry
        cases hentry
      have hroom : f.room s.index = f := if_neg hgrows
      rw [hentry] at h
      obtain ⟨rfl, rfl⟩ := memory_pure_ok.mp h
      rw [hroom] at hg
      subst hg
      refine .known hgrows ?_
      rw [RegistryMemory.slot, if_pos (Option.isSome_iff_ne_none.mpr hdata)]
      exact hentry
  | none =>
      rw [hentry] at h
      obtain ⟨there, g', href, h⟩ := memory_bind_ok.mp h
      -- the second reference finds the place that the first one made
      rw [registryRef_inside arrayAnswer (hg ▸ not_grows_room),
        Option.isSome_iff_ne_none.mpr hdata] at href
      cases href
      rw [if_neg (by decide)] at h
      subst hg
      cases entryAnswer with
      | false =>
          obtain ⟨rfl, rfl⟩ := memory_pure_ok.mp h
          exact .noEntry hanswer hdata hentry rfl
      | true =>
          rw [if_neg (by decide)] at h
          obtain ⟨a, g, halloc, h⟩ := memory_bind_ok.mp h
          obtain ⟨r, hr, rfl⟩ := onEntries_ok.mp halloc
          cases hr
          obtain ⟨_, g, hset, h⟩ := memory_bind_ok.mp h
          obtain ⟨r, hr, rfl⟩ := onEntries_ok.mp hset
          cases hr
          obtain ⟨rfl, rfl⟩ := memory_pure_ok.mp h
          rw [room_registry]
          exact .new hanswer hdata hentry rfl

theorem registryNewIn_cases {f f' : RegistryMemory} {arrayAnswer entryAnswer : Bool} {s : Signature}
    {base result : Option Addr}
    (h : registryNewIn arrayAnswer entryAnswer s base f = .ok (result, f')) :
    0 < s.index ∧ NewEntry f arrayAnswer entryAnswer s base result f' := by
  obtain ⟨index, g, hindex, h⟩ := memory_bind_ok.mp h
  obtain ⟨r, hr, rfl⟩ := onEntries_ok.mp hindex
  have hne : s.index ≠ 0 := by
    intro h0
    rw [registryIndex, if_pos h0] at hr
    cases hr
  rw [registryIndex, if_neg hne] at hr
  cases hr
  -- the tests in the order of the source
  by_cases hle : s.index ≤ 0
  · rw [if_pos hle] at h
    cases h
  rw [if_neg hle] at h
  obtain ⟨there, g, href, h⟩ := memory_bind_ok.mp h
  change registryRef arrayAnswer s.index f = .ok (there, g) at href
  refine ⟨by omega, ?_⟩
  -- either the array has to grow, or it has the index
  by_cases hgrows : f.Grows s.index
  · obtain ⟨rfl, rfl⟩ := registryRef_grows hgrows href
    cases there with
    | false =>
        obtain ⟨rfl, rfl⟩ := memory_pure_ok.mp h
        exact .noArray hgrows rfl
    | true =>
        refine knownOrNew_cases (if_pos hgrows).symm ?_ (fun _ => rfl) h
        exact Option.some_ne_none _
  · rw [registryRef_inside arrayAnswer hgrows] at href
    cases href
    cases hdata : f.data with
    | none =>
        rw [hdata] at h
        obtain ⟨rfl, rfl⟩ := memory_pure_ok.mp h
        exact .nullArray hgrows hdata
    | some n =>
        rw [hdata] at h
        refine knownOrNew_cases (if_neg hgrows).symm ?_ (fun hg => absurd hg hgrows) h
        rw [hdata]
        exact Option.some_ne_none _

/-- No call of `registry_new` allocates or frees a name. -/
theorem NewEntry.names {f f' : RegistryMemory} {arrayAnswer entryAnswer : Bool} {s : Signature}
    {base result : Option Addr} (h : NewEntry f arrayAnswer entryAnswer s base result f') :
    f'.names = f.names := by
  cases h with
  | noArray => rfl
  | nullArray => rfl
  | known => rfl
  | noEntry => exact room_names
  | new => exact room_names

/-! ## Names -/

theorem sup_notMem (names : Finset Nat) : names.sup id + 1 ∉ names := by
  intro hmem
  have hle := Finset.le_sup (f := id) hmem
  simp only [id] at hle
  omega

/-- A step that only looks at the registry. -/
def Looks {α : Type} (m : RegistryM α) : Prop := ∀ ⦃r a r'⦄, m r = .ok (a, r') → r' = r

theorem loadRegistry_looks (a : Addr) : Looks (loadRegistry a) := by
  intro r e r' h
  cases hr : r.registries a with
  | none => simp [loadRegistry, hr, bind, StateT.bind, Except.bind, get, getThe, MonadStateOf.get,
      StateT.get, pure, Except.pure, throw, throwThe, MonadExceptOf.throw, StateT.lift] at h
  | some E =>
      rw [loadRegistry_eq hr] at h
      cases h
      rfl

theorem loadRename_looks (a : Addr) : Looks (loadRename a) := by
  intro r e r' h
  cases hr : r.renames a with
  | none => simp [loadRename, hr, bind, StateT.bind, Except.bind, get, getThe, MonadStateOf.get,
      StateT.get, pure, Except.pure, throw, throwThe, MonadExceptOf.throw, StateT.lift] at h
  | some R =>
      rw [loadRename_eq hr] at h
      cases h
      rfl

theorem registry_bind_inv {α β : Type} {m : RegistryM α} {k : α → RegistryM β}
    {r r' : RenamingRegistry} {b : β} (h : (m >>= k) r = .ok (b, r')) :
    ∃ a r₁, m r = .ok (a, r₁) ∧ k a r₁ = .ok (b, r') := by
  change (m r >>= fun p => k p.1 p.2) = _ at h
  cases hm : m r with
  | error e =>
      rw [hm] at h
      cases h
  | ok p =>
      rw [hm] at h
      exact ⟨p.1, p.2, rfl, h⟩

theorem findRename_looks (newName : Name) : ∀ l : List Addr, Looks (findRename newName l)
  | [] => by
      intro r a r' h
      cases h
      rfl
  | x :: l => by
      intro r a r' h
      obtain ⟨e, r₁, hload, htail⟩ := registry_bind_inv h
      obtain rfl := loadRename_looks x hload
      split at htail
      · cases htail
        rfl
      · exact findRename_looks newName l htail

theorem onEntries_looks {α : Type} {m : RegistryM α} (hm : Looks m) {f g : RegistryMemory} {a : α}
    (h : onEntries m f = .ok (a, g)) : g = f := by
  obtain ⟨r, hr, rfl⟩ := onEntries_ok.mp h
  rw [hm hr]

/-- What a new rename does when it fails: the name is freed, or it stays. -/
theorem addRenameIn_none {f f' : RegistryMemory} {a : RenameAnswers} {base : Addr}
    {newName : Name} {name : Nat} (h : addRenameIn a base newName name f = .ok (none, f')) :
    (a.rename = false ∧ f' = { f with names := f.names.erase name }) ∨
      (a.rename = true ∧ f'.names = f.names) := by
  cases hrename : a.rename with
  | false =>
      rw [addRenameIn, hrename] at h
      cases h
      exact .inl ⟨rfl, rfl⟩
  | true =>
      rw [addRenameIn, hrename] at h
      obtain ⟨entry, g₁, halloc, h⟩ := memory_bind_ok.mp h
      obtain ⟨r₁, _, rfl⟩ := onEntries_ok.mp halloc
      obtain ⟨b, g₂, hb, h⟩ := memory_bind_ok.mp h
      obtain ⟨r₂, _, rfl⟩ := onEntries_ok.mp hb
      obtain ⟨signature, g₃, hset, h⟩ := memory_bind_ok.mp h
      obtain ⟨r₃, _, rfl⟩ := onEntries_ok.mp hset
      obtain ⟨result, g₄, hnew, h⟩ := memory_bind_ok.mp h
      have hnames := (registryNewIn_cases hnew).2.names
      cases result with
      | none =>
          obtain ⟨_, g₅, hfree, h⟩ := memory_bind_ok.mp h
          obtain ⟨r₅, _, rfl⟩ := onEntries_ok.mp hfree
          obtain ⟨_, rfl⟩ := memory_pure_ok.mp h
          exact .inr ⟨rfl, hnames⟩
      | some e =>
          obtain ⟨_, g₅, _, h⟩ := memory_bind_ok.mp h
          obtain ⟨_, g₆, _, h⟩ := memory_bind_ok.mp h
          obtain ⟨_, g₇, _, h⟩ := memory_bind_ok.mp h
          exact absurd (memory_pure_ok.mp h).1 (by simp)

/-- What a call does that fails after the entry of the signature is found: nothing, or a name is
lost. -/
theorem useRenameIn_none {f f' : RegistryMemory} {a : RenameAnswers} {s : Signature}
    {rename : Name → Option Name} {base : Addr}
    (h : useRenameIn a s rename base f = .ok (none, f')) :
    (f' = f ∧ (rename s.name = none ∨ a.rename = false)) ∨
      (rename s.name ≠ none ∧ a.rename = true ∧ ∃ n ∈ f'.names, n ∉ f.names) := by
  obtain ⟨e, g, hload, htail⟩ := memory_bind_ok.mp h
  obtain rfl := onEntries_looks (loadRegistry_looks base) hload
  cases hrename : rename s.name with
  | none =>
      rw [hrename] at htail
      exact .inl ⟨(memory_pure_ok.mp htail).2, .inl rfl⟩
  | some newName =>
      rw [hrename] at htail
      obtain ⟨name, g₁, halloc, htail⟩ := memory_bind_ok.mp htail
      cases halloc
      obtain ⟨b, g₂, hb, htail⟩ := memory_bind_ok.mp htail
      obtain rfl := onEntries_looks (loadRegistry_looks _) hb
      obtain ⟨l, g₃, hfind, htail⟩ := memory_bind_ok.mp htail
      obtain rfl := onEntries_looks (findRename_looks newName _) hfind
      have hfresh := sup_notMem g.names
      cases l with
      | some l =>
          obtain ⟨_, g₅, _, htail⟩ := memory_bind_ok.mp htail
          obtain ⟨_, g₆, _, htail⟩ := memory_bind_ok.mp htail
          exact absurd (memory_pure_ok.mp htail).1 (by simp)
      | none =>
          rcases addRenameIn_none htail with ⟨hanswer, rfl⟩ | ⟨hanswer, hnames⟩
          · refine .inl ⟨?_, .inr hanswer⟩
            simp only [Finset.erase_insert hfresh]
          · refine .inr ⟨by simp, hanswer, _, ?_, hfresh⟩
            rw [hnames]
            exact Finset.mem_insert_self _ _

/-! ## A call that fails -/

theorem RegistryMemory.Unchanged.refl (f : RegistryMemory) : f.Unchanged f :=
  ⟨fun _ => rfl, rfl, rfl, fun _ => Iff.rfl⟩

/-- Making place for an index in an array that there is not, without memory for it. -/
theorem unchanged_resized {f : RegistryMemory} (hdata : f.data = none) (i : Int) :
    f.Unchanged (f.resized i none) := by
  refine ⟨fun j => ?_, rfl, rfl, fun b => ?_⟩
  · rw [RegistryMemory.slot, RegistryMemory.slot, hdata]
    rfl
  · cases b with
    | array n => rw [RegistryMemory.Outstanding, RegistryMemory.Outstanding, hdata]; rfl
    | record a => rfl
    | name n => rfl

/-- The array is another one when it has grown. -/
theorem not_unchanged_resized {f : RegistryMemory} (i : Int) :
    ¬ f.Unchanged (f.resized i (some f.newData)) := by
  intro h
  have hdata : f.data = some f.newData := (h.outstanding (.array f.newData)).mp rfl
  cases hf : f.data with
  | none =>
      rw [hf] at hdata
      cases hdata
  | some n =>
      rw [RegistryMemory.newData, hf, Option.some.injEq] at hdata
      simp only [Option.elim_some] at hdata
      omega

/-- The base signature has got an entry. -/
theorem slot_new {f : RegistryMemory} {s : Signature} {base : Option Addr}
    (hdata : (f.room s.index).data ≠ none) :
    ({ f.room s.index with registry := f.registry.withEntry ⟨base, s, []⟩ } :
      RegistryMemory).slot s.index = some f.registry.unused := by
  rw [RegistryMemory.slot, if_pos (Option.isSome_iff_ne_none.mpr hdata), withEntry_get, if_pos rfl]

theorem slot_of_get {f : RegistryMemory} {i : Int} (h : f.registry.registry.get i = none) :
    f.slot i = none := by
  rw [RegistryMemory.slot, h, ite_self]

/-- A call that fails early makes place in an array that there is not, if it does anything; one that
does not leaves something behind. -/
theorem renameNewIn_none {f f' : RegistryMemory} {a : RenameAnswers} {s : Signature}
    {rename : Name → Option Name} (h : renameNewIn a s rename f = .ok (none, f')) :
    (FailsEarly f a s rename ∧ (f' = f ∨ (f.data = none ∧ f' = f.resized s.index none))) ∨
      (¬ FailsEarly f a s rename ∧ ¬ f.Unchanged f') := by
  obtain ⟨base, g, hbase, h⟩ := memory_bind_ok.mp h
  -- by what happened to the entry of the base
  cases (registryNewIn_cases hbase).2 with
  | noArray hgrows hanswer =>
      obtain ⟨_, rfl⟩ := memory_pure_ok.mp h
      rw [FailsEarly, if_pos hgrows]
      cases hdata : f.data with
      | none => exact .inl ⟨⟨hanswer, rfl⟩, .inr ⟨rfl, rfl⟩⟩
      | some n =>
          -- the array there was has been freed
          refine .inr ⟨fun hfails => Option.some_ne_none _ hfails.2, fun hsame => ?_⟩
          cases (hsame.outstanding (.array n)).mpr hdata
  | nullArray hgrows hdata =>
      obtain ⟨_, rfl⟩ := memory_pure_ok.mp h
      rw [FailsEarly, if_neg hgrows]
      exact .inl ⟨.inl hdata, .inl rfl⟩
  | noEntry hanswer hdata hget hentry =>
      obtain ⟨_, rfl⟩ := memory_pure_ok.mp h
      rw [FailsEarly]
      by_cases hgrows : f.Grows s.index
      · rw [if_pos hgrows, RegistryMemory.room, if_pos hgrows, hanswer hgrows]
        exact .inr ⟨fun hfails => absurd hfails.1 (by decide), not_unchanged_resized _⟩
      · rw [if_neg hgrows, RegistryMemory.room, if_neg hgrows, if_pos (slot_of_get hget)]
        exact .inl ⟨.inr hentry, .inl rfl⟩
  | known hgrows hslot =>
      -- an entry is in an array
      have hdata : f.data ≠ none := by
        intro hnone
        rw [RegistryMemory.slot, hnone] at hslot
        cases hslot
      rw [FailsEarly, if_neg hgrows, if_neg (by simp [hslot])]
      rcases useRenameIn_none h with ⟨rfl, hfails⟩ | ⟨hname, hanswer, n, hn, hnot⟩
      · exact .inl ⟨.inr hfails, .inl rfl⟩
      · refine .inr ⟨?_, fun hsame => hnot ((hsame.outstanding (.name n)).mp hn)⟩
        rintro (hnone | hnone | hfails)
        · exact hdata hnone
        · exact hname hnone
        · rw [hanswer] at hfails
          cases hfails
  | new hanswer hdata hget hentry =>
      -- the entry of the base was made, so that the call went beyond its first allocations
      have hearly : ¬ FailsEarly f a s rename := by
        rw [FailsEarly]
        split
        · rename_i hgrows
          rw [hanswer hgrows]
          exact fun hfails => absurd hfails.1 (by decide)
        · rename_i hgrows
          rw [RegistryMemory.room, if_neg hgrows] at hdata
          rw [if_pos (slot_of_get hget), hentry]
          rintro (hnone | hfails)
          · exact hdata hnone
          · cases hfails
      refine .inr ⟨hearly, fun hsame => ?_⟩
      rcases useRenameIn_none h with ⟨rfl, _⟩ | ⟨_, _, n, hn, hnot⟩
      · -- the entry of the base signature stays
        have hslot := hsame.slots s.index
        rw [slot_new hdata, slot_of_get hget] at hslot
        cases hslot
      · have hmem := (hsame.outstanding (.name n)).mp hn
        exact hnot (room_names (f := f) (i := s.index) ▸ hmem)

/-- **A call that returns null leaves everything as it was if and only if it fails early.** -/
theorem unchanged_iff_failsEarly {f f' : RegistryMemory} {a : RenameAnswers} {s : Signature}
    {rename : Name → Option Name} (h : renameNewIn a s rename f = .ok (none, f')) :
    f.Unchanged f' ↔ FailsEarly f a s rename := by
  rcases renameNewIn_none h with ⟨hearly, rfl | ⟨hdata, rfl⟩⟩ | ⟨hearly, hchanged⟩
  · exact iff_of_true (.refl _) hearly
  · exact iff_of_true (unchanged_resized hdata s.index) hearly
  · exact iff_of_false hchanged hearly

/-! ## Calls that succeed -/

theorem NewEntry.registry {f f' : RegistryMemory} {arrayAnswer entryAnswer : Bool} {s : Signature}
    {base : Option Addr} {e : Addr} (hs : 0 < s.index)
    (h : NewEntry f arrayAnswer entryAnswer s base (some e) f') :
    registryNew s base f.registry = .ok (e, f'.registry) ∧ f'.nameOf = f.nameOf ∧
      f.registry.unused ≤ f'.registry.unused := by
  cases h with
  | known hgrows hslot =>
      have hget : f.registry.registry.get s.index = some e := by
        rw [RegistryMemory.slot] at hslot
        split at hslot
        · exact hslot
        · cases hslot
      refine ⟨?_, rfl, le_rfl⟩
      rw [registryNew_known base hs hget, grown_of_not_grows hgrows]
  | new hanswer hdata hget hentry =>
      refine ⟨registryNew_unknown base hs hget, ?_, Nat.le_succ _⟩
      unfold RegistryMemory.room
      split <;> rfl

/-- The names after a call that succeeds: what the function made was freed, or is the name of the new
rename. -/
inductive KeepsNames (f f' : RegistryMemory) (x : Addr) : Prop where
  | found (hnames : f'.names = f.names) (hnameOf : f'.nameOf = f.nameOf)
  | added {n : Nat} (hnames : f'.names = insert n f.names)
      (hnameOf : f'.nameOf = Function.update f.nameOf x n) (hx : f.registry.unused ≤ x)

theorem addRenameIn_some {f f' : RegistryMemory} {a : RenameAnswers} {base x : Addr}
    {newName : Name} {name : Nat} (h : addRenameIn a base newName name f = .ok (some x, f')) :
    (∃ r, addRename base newName f.registry = .ok (x, r) ∧
      useEntry x r = .ok ((), f'.registry)) ∧ f'.names = f.names ∧
      f'.nameOf = Function.update f.nameOf x name ∧ f.registry.unused ≤ x := by
  cases hrename : a.rename with
  | false =>
      rw [addRenameIn, hrename] at h
      cases h
  | true =>
      rw [addRenameIn, hrename] at h
      obtain ⟨entry, g₁, halloc, h⟩ := memory_bind_ok.mp h
      obtain ⟨r₁, hr₁, rfl⟩ := onEntries_ok.mp halloc
      cases hr₁
      obtain ⟨b, g₂, hb, h⟩ := memory_bind_ok.mp h
      obtain ⟨r₂, hr₂, rfl⟩ := onEntries_ok.mp hb
      obtain ⟨signature, g₃, hset, h⟩ := memory_bind_ok.mp h
      obtain ⟨r₃, hr₃, rfl⟩ := onEntries_ok.mp hset
      obtain ⟨result, g₄, hnew, h⟩ := memory_bind_ok.mp h
      obtain ⟨hpos, hentry⟩ := registryNewIn_cases hnew
      cases result with
      | none =>
          obtain ⟨_, g₅, _, h⟩ := memory_bind_ok.mp h
          exact absurd (memory_pure_ok.mp h).1 (by simp)
      | some e =>
          obtain ⟨hr₄, hnameOf, _⟩ := hentry.registry hpos
          obtain ⟨_, g₅, hlink, h⟩ := memory_bind_ok.mp h
          obtain ⟨r₅, hr₅, rfl⟩ := onEntries_ok.mp hlink
          obtain ⟨_, g₆, hname, h⟩ := memory_bind_ok.mp h
          cases hname
          obtain ⟨_, g₇, huse, h⟩ := memory_bind_ok.mp h
          obtain ⟨r₇, hr₇, rfl⟩ := onEntries_ok.mp huse
          obtain ⟨hx, rfl⟩ := memory_pure_ok.mp h
          cases hx
          refine ⟨⟨r₅, ?_, hr₇⟩, hentry.names, by rw [hnameOf], le_rfl⟩
          obtain ⟨E, r₆, hload, hstore⟩ := registry_bind_inv hr₅
          cases hstore
          -- the same steps without the allocations
          rw [addRename, registry_bind_ok (show memoryAlloc f.registry = .ok (_, _) from rfl),
            registry_bind_ok hr₂, registry_bind_ok hr₃, registry_bind_ok hr₄,
            registry_bind_ok hload]
          rfl

/-- The steps of a call that succeeds, without what is asked of the memory. -/
theorem useRename_ok {r r₁ r' : RenamingRegistry} {base x : Addr} {newName : Name} {E : Registry}
    {l : Option Addr} (hload : loadRegistry base r = .ok (E, r))
    (hfind : findRename newName E.rename r = .ok (l, r))
    (hfound : foundOrAdded base newName l r = .ok (x, r₁))
    (huse : useEntry x r₁ = .ok ((), r')) : useRename base newName r = .ok (x, r') := by
  obtain ⟨R, r₂, hR, hstore⟩ := registry_bind_inv huse
  cases hstore
  rw [useRename, registry_bind_ok hload, registry_bind_ok hfind, registry_bind_ok hfound,
    registry_bind_ok hR]
  rfl

theorem useRenameIn_some {f f' : RegistryMemory} {a : RenameAnswers} {s : Signature}
    {rename : Name → Option Name} {base x : Addr}
    (h : useRenameIn a s rename base f = .ok (some x, f')) :
    ∃ newName E, rename s.name = some newName ∧ loadRegistry base f.registry = .ok (E, f.registry) ∧
      useRename (E.base.getD base) newName f.registry = .ok (x, f'.registry) ∧ KeepsNames f f' x := by
  obtain ⟨E, g, hload, htail⟩ := memory_bind_ok.mp h
  obtain rfl := onEntries_looks (loadRegistry_looks base) hload
  obtain ⟨r, hr, hg⟩ := onEntries_ok.mp hload
  obtain rfl := loadRegistry_looks base hr
  cases hrename : rename s.name with
  | none =>
      rw [hrename] at htail
      exact absurd (memory_pure_ok.mp htail).1 (by simp)
  | some newName =>
      rw [hrename] at htail
      refine ⟨newName, E, rfl, hr, ?_⟩
      obtain ⟨name, g₁, halloc, htail⟩ := memory_bind_ok.mp htail
      cases halloc
      obtain ⟨B, g₂, hb, htail⟩ := memory_bind_ok.mp htail
      obtain ⟨r₂, hr₂, rfl⟩ := onEntries_ok.mp hb
      obtain rfl := loadRegistry_looks _ hr₂
      obtain ⟨l, g₃, hfind, htail⟩ := memory_bind_ok.mp htail
      obtain ⟨r₃, hr₃, rfl⟩ := onEntries_ok.mp hfind
      obtain rfl := findRename_looks newName _ hr₃
      -- the rename is there, and the name is freed again; or it is new and keeps the name
      cases l with
      | some l =>
          obtain ⟨_, g₅, huse, htail⟩ := memory_bind_ok.mp htail
          obtain ⟨r₅, hr₅, rfl⟩ := onEntries_ok.mp huse
          obtain ⟨_, g₆, hfree, htail⟩ := memory_bind_ok.mp htail
          cases hfree
          obtain ⟨hx, rfl⟩ := memory_pure_ok.mp htail
          cases hx
          exact ⟨useRename_ok hr₂ hr₃ rfl hr₅, .found (Finset.erase_insert (sup_notMem _)) rfl⟩
      | none =>
          obtain ⟨⟨r₅, hadd, huse⟩, hnames, hnameOf, hx⟩ := addRenameIn_some htail
          exact ⟨useRename_ok hr₂ hr₃ hadd huse, .added hnames hnameOf hx⟩

/-- **A call that succeeds does what it does when there is always memory.** -/
theorem renameNewIn_some {f f' : RegistryMemory} {a : RenameAnswers} {s : Signature}
    {rename : Name → Option Name} {x : Addr} (h : renameNewIn a s rename f = .ok (some x, f')) :
    ∃ newName, rename s.name = some newName ∧
      renameNew s (fun _ => newName) f.registry = .ok (x, f'.registry) ∧ KeepsNames f f' x := by
  obtain ⟨base, g, hbase, htail⟩ := memory_bind_ok.mp h
  obtain ⟨hpos, hentry⟩ := registryNewIn_cases hbase
  cases base with
  | none => exact absurd (memory_pure_ok.mp htail).1 (by simp)
  | some base =>
      obtain ⟨hnew, hnameOf, hunused⟩ := hentry.registry hpos
      obtain ⟨newName, E, hname, hload, huse, hnames⟩ := useRenameIn_some htail
      refine ⟨newName, hname, ?_, ?_⟩
      · rw [renameNew, registry_bind_ok hnew, registry_bind_ok hload]
        exact huse
      · cases hnames with
        | found hn hof => exact .found (hn.trans hentry.names) (hof.trans hnameOf)
        | added hn hof hx =>
            refine .added (hentry.names ▸ hn) (hnameOf ▸ hof) (hunused.trans hx)

/-! ## Runs -/

/-- A registry with its memory, and the calls as in `RegistryRun`. -/
structure MemoryRun where
  memory : RegistryMemory
  bases : List Signature
  held : List Acquisition
  history : List Acquisition

/-- The run without what is asked of the memory. -/
def MemoryRun.calls (m : MemoryRun) : RegistryRun :=
  ⟨m.memory.registry, m.bases, m.held, m.history⟩

/-- One call; a rename that cannot be acquired fails early. -/
inductive MemoryStep : MemoryRun → MemoryRun → Prop where
  | declare {m : MemoryRun} {s b : Signature} {r' : RenamingRegistry}
      (h : setLocalIndex s m.memory.registry = .ok (b, r')) :
      MemoryStep m { m with memory := { m.memory with registry := r' }, bases := b :: m.bases }
  | acquire {m : MemoryRun} {a : RenameAnswers} {s b s' : Signature} {rename : Name → Option Name}
      {newName : Name} {x : Addr} {f' : RegistryMemory} (hs : m.calls.Passes s b)
      (hname : rename s.name = some newName)
      (h : renameNewIn a s rename m.memory = .ok (some x, f'))
      (hx : renameSignature f'.registry x = some s') :
      MemoryStep m ⟨f', m.bases, ⟨b, newName, x, s'.index⟩ :: m.held,
        ⟨b, newName, x, s'.index⟩ :: m.history⟩
  | fails {m : MemoryRun} {a : RenameAnswers} {s b : Signature} {rename : Name → Option Name}
      {f' : RegistryMemory} (hs : m.calls.Passes s b)
      (h : renameNewIn a s rename m.memory = .ok (none, f'))
      (hearly : FailsEarly m.memory a s rename) : MemoryStep m { m with memory := f' }
  | free {m : MemoryRun} {a : Acquisition} {f' : RegistryMemory} (ha : a ∈ m.held)
      (h : renameFreeIn a.rename m.memory = .ok ((), f')) :
      MemoryStep m { m with
        memory := f', held := m.held.eraseP fun c => c.rename = a.rename }

/-- A run starts with an empty registry. -/
def MemoryRun.start : MemoryRun := ⟨⟨registryInit 0x40, none, ∅, fun _ => 0⟩, [], [], []⟩

/-- The states of the runs in which every call that fails does so early. -/
def MemoryRun.Reachable (m : MemoryRun) : Prop := Relation.ReflTransGen MemoryStep .start m

/-- The registry has no entry, and nothing is allocated but the array. -/
def RegistryMemory.Empty (f : RegistryMemory) : Prop :=
  (∀ i, f.slot i = none) ∧ ∀ b, f.Outstanding b → ∃ n, b = .array n

/-- Nothing is left of a run in which every call that fails does so early, when everything that was
acquired is given back. -/
def RunsLeaveNothing : Prop := ∀ m : MemoryRun, m.Reachable → m.held = [] → m.memory.Empty

/-- The registry is in order, and each name is that of a rename. -/
structure MemoryInv (m : MemoryRun) (table : RenameTable) : Prop where
  calls : RegistryInv m.calls table
  names : ∀ n ∈ m.memory.names, ∃ x R, m.memory.registry.renames x = some R ∧
    m.memory.nameOf x = n

/-! ## One step -/

section FreeRenames

variable {r r' : RenamingRegistry}

theorem freeIndex_renames {s : Signature} (h : freeIndex s r = .ok ((), r')) :
    r'.renames = r.renames := by
  obtain ⟨index, r₁, hindex, htail⟩ := registry_bind_inv h
  have hr₁ : r₁ = r := by
    rw [registryIndex] at hindex
    split at hindex
    · cases hindex
    · cases hindex
      rfl
  subst hr₁
  obtain ⟨r₂, _, hget, htail⟩ := registry_bind_inv htail
  cases hget
  cases hslot : r₁.registry.get index with
  | none =>
      rw [hslot] at htail
      cases htail
      rfl
  | some e =>
      rw [hslot] at htail
      cases htail
      rfl

theorem freeUnused_renames {s : Signature} {next : List Addr}
    (h : freeUnused s next r = .ok ((), r')) : r'.renames = r.renames := by
  rw [freeUnused] at h
  split at h
  · exact freeIndex_renames h
  · cases h
    rfl

theorem dropRename_renames {x : Addr} {e : Rename} (h : dropRename x e r = .ok ((), r')) :
    r'.renames = Function.update r.renames x none := by
  obtain ⟨base, r₁, hload, htail⟩ := registry_bind_inv h
  obtain rfl := loadRegistry_looks _ hload
  obtain ⟨_, r₂, hstore, htail⟩ := registry_bind_inv htail
  cases hstore
  obtain ⟨_, r₃, hunused, htail⟩ := registry_bind_inv htail
  obtain ⟨_, r₄, hindex, htail⟩ := registry_bind_inv htail
  cases htail
  rw [storeRename_renames, freeIndex_renames hindex, freeUnused_renames hunused]
  rfl

/-- A rename is freed when nobody uses it any more, and no other one is. -/
theorem renameFree_renames {x : Addr} {e : Rename} (hx : r.renames x = some e)
    (h : renameFree x r = .ok ((), r')) :
    (∀ y, y ≠ x → r'.renames y = r.renames y) ∧
      (e.useCount - 1 ≠ 0 → ∃ R, r'.renames x = some R) := by
  rw [renameFree, registry_bind_ok (loadRename_eq hx)] at h
  obtain ⟨_, r₁, hstore, htail⟩ := registry_bind_inv h
  cases hstore
  by_cases hzero : e.useCount - 1 = 0
  · rw [if_pos hzero] at htail
    rw [dropRename_renames htail, storeRename_renames]
    exact ⟨fun y hy => by rw [Function.update_of_ne hy, Function.update_of_ne hy],
      fun hne => absurd hzero hne⟩
  · rw [if_neg hzero] at htail
    cases htail
    rw [storeRename_renames]
    exact ⟨fun y hy => Function.update_of_ne hy _ _, fun _ => ⟨_, Function.update_self ..⟩⟩

end FreeRenames

section Step

variable {m m' : MemoryRun} {table : RenameTable}

theorem MemoryInv.start : MemoryInv .start [] where
  calls := RegistryInv.start
  names n hn := by cases hn

/-- The array of a registry that is in order may get larger. -/
theorem RegistryInv.grown {run : RegistryRun} (h : RegistryInv run table) (i : Int) :
    RegistryInv { run with registry := run.registry.grown i } table :=
  ⟨h.represents.grown i, h.accounts, h.bases, h.index⟩

theorem MemoryInv.acquire (h : MemoryInv m table) {a : RenameAnswers} {s b s' : Signature}
    {rename : Name → Option Name} {newName : Name} {x : Addr} {f' : RegistryMemory}
    (hs : m.calls.Passes s b) (hname : rename s.name = some newName)
    (hcall : renameNewIn a s rename m.memory = .ok (some x, f'))
    (hx : renameSignature f'.registry x = some s') :
    ∃ table', MemoryInv ⟨f', m.bases, ⟨b, newName, x, s'.index⟩ :: m.held,
      ⟨b, newName, x, s'.index⟩ :: m.history⟩ table' := by
  obtain ⟨newName', hname', hnew, hnames⟩ := renameNewIn_some hcall
  obtain rfl : newName = newName' := Option.some.inj (hname.symm.trans hname')
  have hstep : RegistryStep m.calls _ := .acquire hs hnew hx
  obtain ⟨table', hinv⟩ := h.calls.step hstep
  have hkeeps : KeepsSignatures m.memory.registry f'.registry := by
    obtain ⟨r', new, hnew', -, -, hkeeps⟩ := renameNew_represents h.calls.represents
      h.calls.accounts.items (h.calls.live hs) fun _ => newName
    have hr' : r' = f'.registry :=
      congrArg Prod.snd (Except.ok.inj (hnew'.symm.trans hnew))
    exact hr' ▸ hkeeps
  obtain ⟨R, hR, -⟩ := Option.map_eq_some_iff.mp hx
  refine ⟨table', hinv, fun n hn => ?_⟩
  cases hnames with
  | found hn' hof =>
      obtain ⟨y, S, hS, hny⟩ := h.names n (hn' ▸ hn)
      obtain ⟨k, hk⟩ := hkeeps y S hS
      exact ⟨y, _, hk, (congrFun hof y).trans hny⟩
  | @added k hn' hof hle =>
      rcases Finset.mem_insert.mp (hn' ▸ hn) with rfl | hold
      · exact ⟨_, R, hR, (congrFun hof _).trans (Function.update_self ..)⟩
      · obtain ⟨y, S, hS, hny⟩ := h.names n hold
        obtain ⟨c, hc⟩ := hkeeps y S hS
        refine ⟨y, _, hc, ((congrFun hof y).trans (Function.update_of_ne ?_ _ _)).trans hny⟩
        -- the new rename is where nothing was allocated
        rintro rfl
        have hnone : m.memory.registry.renames y = none := (h.calls.represents.unused _ hle).2
        rw [hS] at hnone
        cases hnone

theorem MemoryInv.free (h : MemoryInv m table) {a : Acquisition} {f' : RegistryMemory}
    (ha : a ∈ m.held) (hcall : renameFreeIn a.rename m.memory = .ok ((), f')) :
    ∃ table', MemoryInv { m with
      memory := f', held := m.held.eraseP fun c => c.rename = a.rename } table' := by
  obtain ⟨e, g, hload, htail⟩ := memory_bind_ok.mp hcall
  obtain ⟨r, hr, rfl⟩ := onEntries_ok.mp hload
  obtain rfl := loadRename_looks _ hr
  obtain ⟨R, hR, -⟩ := h.calls.index a ha
  have he := loadRename_eq hR
  change loadRename a.rename m.memory.registry = _ at he
  rw [he, Except.ok.injEq, Prod.mk.injEq] at hr
  obtain ⟨rfl, -⟩ := hr
  obtain ⟨_, g, hfree, htail⟩ := memory_bind_ok.mp htail
  obtain ⟨r', hr', rfl⟩ := onEntries_ok.mp hfree
  -- other renames are as they were; this one is there while it has uses
  obtain ⟨hothers, hself⟩ := renameFree_renames hR hr'
  have hstep : RegistryStep m.calls _ := .free ha hr'
  obtain ⟨table', hinv⟩ := h.calls.step hstep
  refine ⟨table', ?_⟩
  -- its name is freed with the last use
  by_cases hzero : R.useCount - 1 = 0
  · rw [if_pos hzero] at htail
    obtain ⟨_, g, hget, htail⟩ := memory_bind_ok.mp htail
    cases hget
    cases htail
    refine ⟨hinv, fun n hn => ?_⟩
    obtain ⟨hne, hold⟩ := Finset.mem_erase.mp hn
    obtain ⟨y, S, hS, hny⟩ := h.names n hold
    have hy : y ≠ a.rename := by
      rintro rfl
      exact hne hny.symm
    exact ⟨y, S, (hothers y hy).trans hS, hny⟩
  · rw [if_neg hzero] at htail
    obtain ⟨_, rfl⟩ := memory_pure_ok.mp htail
    refine ⟨hinv, fun n hn => ?_⟩
    obtain ⟨y, S, hS, hny⟩ := h.names n hn
    by_cases hy : y = a.rename
    · subst hy
      obtain ⟨S', hS'⟩ := hself hzero
      exact ⟨_, S', hS', hny⟩
    · exact ⟨y, S, (hothers y hy).trans hS, hny⟩

theorem MemoryInv.step (h : MemoryInv m table) (hstep : MemoryStep m m') :
    ∃ table', MemoryInv m' table' := by
  cases hstep with
  | @declare s b r' hset =>
      have hdeclare : RegistryStep m.calls _ := .declare hset
      obtain ⟨table', hinv⟩ := h.calls.step hdeclare
      obtain ⟨rfl, rfl⟩ := setLocalIndex_cases hset
      exact ⟨table', hinv, h.names⟩
  | acquire hs hname hcall hx => exact h.acquire hs hname hcall hx
  | @fails a s b rename f' hs hcall hearly =>
      rcases renameNewIn_none hcall with ⟨_, rfl | ⟨_, rfl⟩⟩ | ⟨hnot, _⟩
      · exact ⟨table, h⟩
      · exact ⟨table, h.calls.grown s.index, h.names⟩
      · exact absurd hearly hnot
  | free ha hcall => exact h.free ha hcall

theorem MemoryRun.Reachable.inv (h : m.Reachable) : ∃ table, MemoryInv m table := by
  induction h with
  | refl => exact ⟨[], .start⟩
  | tail _ hstep ih =>
      obtain ⟨table, htable⟩ := ih
      exact htable.step hstep

/-- When everything is given back there is nothing left. -/
theorem MemoryRun.Reachable.empty (h : m.Reachable) (hheld : m.held = []) : m.memory.Empty := by
  obtain ⟨table, hinv⟩ := h.inv
  obtain ⟨hslots, hrecords⟩ := hinv.calls.inOrder.empty hheld
  refine ⟨fun i => slot_of_get (hslots i), fun b hb => ?_⟩
  cases b with
  | array n => exact ⟨n, rfl⟩
  | record a =>
      obtain ⟨hregistries, hrenames⟩ := hrecords a
      rcases hb with hb | hb
      · exact absurd hregistries hb
      · exact absurd hrenames hb
  | name n =>
      obtain ⟨x, R, hR, _⟩ := hinv.names n hb
      have hnone := (hrecords x).2
      change m.memory.registry.renames x = none at hnone
      rw [hR] at hnone
      cases hnone

end Step

/-- **A call that returns null leaves everything as it was if and only if it fails early, and in a
run where all of them do nothing is left when everything is given back.** -/
theorem failedRename_unchanged_iff {f f' : RegistryMemory} {a : RenameAnswers} {s : Signature}
    {rename : Name → Option Name} (h : renameNewIn a s rename f = .ok (none, f')) :
    (f.Unchanged f' ↔ FailsEarly f a s rename) ∧ RunsLeaveNothing :=
  ⟨unchanged_iff_failsEarly h, fun _ hm => hm.empty⟩

/-- All memory that is asked for is there. -/
def allAnswered : RenameAnswers := ⟨true, true, true, true, true⟩

/-- A function that cannot make a name. -/
def noName (_ : Name) : Option Name := none

/-- The registry after a call of `labcomm2014_renaming_rename_new` for a new signature, where the
name cannot be made. -/
def afterNoName : RegistryMemory :=
  { MemoryRun.start.memory with
    registry := (registryInit 0x40).withEntry ⟨none, intSignature, []⟩
    data := some 0 }

theorem failedRename_unchanged_iff_noName :
    (MemoryRun.start.memory.Unchanged afterNoName ↔
      FailsEarly MemoryRun.start.memory allAnswered intSignature noName) ∧
      RunsLeaveNothing :=
  @failedRename_unchanged_iff _ _ allAnswered intSignature noName rfl

/-- The entry of the signature is left behind. -/
theorem not_unchanged_noName :
    renameNewIn allAnswered intSignature noName MemoryRun.start.memory =
        .ok (none, afterNoName) ∧ ¬ MemoryRun.start.memory.Unchanged afterNoName := by
  refine ⟨rfl, fun h => ?_⟩
  have hslot := h.slots 0x40
  revert hslot
  decide

end LabComm.C
