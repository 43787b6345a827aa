import LabComm.C.RenamingRegistry
import LabComm.Library.Interning
import LabComm.Library.Stream

set_option autoImplicit false

/-! # Runs of the renaming registry

The registry is a table of shared items (`Library.Interned`): the key of a rename is the index
of its base signature and its name. `Represents` says how such a table is laid out in the
array and the heap, and each function of the registry does to the layout what the operation
of the table does to the table (`renameNew_represents`, `renameFree_represents`).
-/

namespace LabComm.C

open Library

/-! ## The layout -/

/-- The renames that are in use. -/
abbrev RenameTable := List (Interned (Int × Name) Addr)

/-- The list of the base with this index. -/
def itemsOf (table : RenameTable) (base : Int) : List Addr :=
  (table.filter fun x => x.key.1 = base).map Interned.item

/-- The signature of a rename with an index. -/
def renamed (base : Signature) (name : Name) (index : Int) : Signature :=
  (renamedSignature base name).withIndex index

@[simp] theorem renamed_name (base : Signature) (name : Name) (index : Int) :
    (renamed base name index).name = name := rfl

@[simp] theorem renamed_index (base : Signature) (name : Name) (index : Int) :
    (renamed base name index).index = index := rfl

/-- Where a rename is: the entry `e` of its base, and its own entry `e'` at index `i`. -/
structure StoredAt (r : RenamingRegistry) (x : Interned (Int × Name) Addr) (list : List Addr)
    (b : Signature) (e : Addr) (i : Int) (e' : Addr) : Prop where
  baseSlot : r.registry.get b.index = some e
  baseEntry : r.registries e = some ⟨none, b, list⟩
  slot : r.registry.get i = some e'
  entry : r.registries e' = some ⟨some e, renamed b x.key.2 i, []⟩
  rename : r.renames x.item = some ⟨x.count, e, renamed b x.key.2 i⟩

/-- The base signatures have indices, each its own. -/
structure Bases (localIndex : Int) (bases : List Signature) : Prop where
  positive : 0 < localIndex
  index : ∀ b ∈ bases, 0 < b.index ∧ b.index < localIndex
  inj : ∀ b ∈ bases, ∀ c ∈ bases, b.index = c.index → b = c

/-- The array and the heap hold the renames of the table and nothing else, except for an entry
at the index `spare`. -/
structure Represents (r : RenamingRegistry) (bases : List Signature) (table : RenameTable)
    (spare : Option Int) : Prop where
  indexed : Bases r.localIndex bases
  stored : ∀ x ∈ table, ∃ b ∈ bases, b.index = x.key.1 ∧ ∃ e i e',
    (∀ c ∈ bases, c.index ≠ i) ∧ StoredAt r x (itemsOf table b.index) b e i e'
  slots : ∀ i e, r.registry.get i = some e → 0 < i ∧ i < r.localIndex ∧
    (spare = some i ∨ ∃ x ∈ table, i = x.key.1 ∨
      ∃ R, r.renames x.item = some R ∧ R.signature.index = i)
  registries : ∀ e E, r.registries e = some E → r.registry.get E.signature.index = some e
  renames : ∀ a R, r.renames a = some R → ∃ x ∈ table, x.item = a
  unused : ∀ a, r.unused ≤ a → r.registries a = none ∧ r.renames a = none

/-- The entry of the base `b` is there, and is at `e`. -/
structure Opened (r : RenamingRegistry) (bases : List Signature) (table : RenameTable)
    (b : Signature) (e : Addr) : Prop where
  represents : Represents r bases table (some b.index)
  mem : b ∈ bases
  slot : r.registry.get b.index = some e
  entry : r.registries e = some ⟨none, b, itemsOf table b.index⟩

/-! ## Reading -/

theorem loadRegistry_eq {r : RenamingRegistry} {a : Addr} {e : Registry}
    (h : r.registries a = some e) : loadRegistry a r = .ok (e, r) := by
  simp [loadRegistry, h, bind, StateT.bind, Except.bind, pure, stateT_pure_apply, Except.pure, get,
    getThe, MonadStateOf.get, StateT.get]

theorem loadRename_eq {r : RenamingRegistry} {a : Addr} {e : Rename}
    (h : r.renames a = some e) : loadRename a r = .ok (e, r) := by
  simp [loadRename, h, bind, StateT.bind, Except.bind, pure, stateT_pure_apply, Except.pure, get,
    getThe, MonadStateOf.get, StateT.get]

/-- The array with room for an index. -/
def RenamingRegistry.grown (r : RenamingRegistry) (index : Int) : RenamingRegistry :=
  { r with registry := r.registry.ref index }

/-- The registry with a new entry. -/
def RenamingRegistry.withEntry (r : RenamingRegistry) (e : Registry) : RenamingRegistry :=
  { (r.grown e.signature.index).storeRegistry r.unused (some e) with
    unused := r.unused + 1 }.setSlot e.signature.index r.unused

section Stores

variable (r : RenamingRegistry) (i j : Int) (e : Registry)

@[simp] theorem grown_get : (r.grown i).registry.get j = r.registry.get j := SigArray.get_ref _ _ _
@[simp] theorem grown_registries : (r.grown i).registries = r.registries := rfl
@[simp] theorem grown_renames : (r.grown i).renames = r.renames := rfl
@[simp] theorem grown_unused : (r.grown i).unused = r.unused := rfl
@[simp] theorem grown_localIndex : (r.grown i).localIndex = r.localIndex := rfl

@[simp] theorem withEntry_get : (r.withEntry e).registry.get j =
    if j = e.signature.index then some r.unused else r.registry.get j := by
  rw [RenamingRegistry.withEntry, setSlot_get]
  exact ite_congr rfl (fun _ => rfl) fun _ => grown_get r _ _
@[simp] theorem withEntry_registries :
    (r.withEntry e).registries = Function.update r.registries r.unused (some e) := rfl
@[simp] theorem withEntry_renames : (r.withEntry e).renames = r.renames := rfl
@[simp] theorem withEntry_unused : (r.withEntry e).unused = r.unused + 1 := rfl
@[simp] theorem withEntry_localIndex : (r.withEntry e).localIndex = r.localIndex := rfl

end Stores

theorem registryNew_known {r : RenamingRegistry} {s : Signature} {e : Addr} (base : Option Addr)
    (hs : 0 < s.index) (h : r.registry.get s.index = some e) :
    registryNew s base r = .ok (e, r.grown s.index) := by
  have h0 : s.index ≠ 0 := by omega
  have h1 : ¬ s.index ≤ 0 := by omega
  simp [registryNew, registryIndex, h0, h1, h, RenamingRegistry.grown, bind, StateT.bind,
    Except.bind, pure, stateT_pure_apply, Except.pure, get, getThe, MonadStateOf.get, StateT.get,
    modify, modifyGet, MonadStateOf.modifyGet, StateT.modifyGet]

theorem registryNew_unknown {r : RenamingRegistry} {s : Signature} (base : Option Addr)
    (hs : 0 < s.index) (h : r.registry.get s.index = none) :
    registryNew s base r = .ok (r.unused, r.withEntry ⟨base, s, []⟩) := by
  have h0 : s.index ≠ 0 := by omega
  have h1 : ¬ s.index ≤ 0 := by omega
  simp [registryNew, registryIndex, h0, h1, h, RenamingRegistry.withEntry, memoryAlloc,
    RenamingRegistry.grown, RenamingRegistry.storeRegistry, RenamingRegistry.setSlot, bind,
    StateT.bind, Except.bind, pure, stateT_pure_apply, Except.pure, get, getThe, MonadStateOf.get,
    StateT.get, modify, modifyGet, MonadStateOf.modifyGet, StateT.modifyGet]

/-! ## The entry of the base -/

variable {r : RenamingRegistry} {bases : List Signature} {table : RenameTable}
variable {b : Signature} {e : Addr}


theorem Represents.lt_unused {spare : Option Int} (h : Represents r bases table spare) {a : Addr}
    {E : Registry} (ha : r.registries a = some E) : a < r.unused := by
  by_contra hle
  rw [(h.unused a (not_lt.mp hle)).1] at ha
  cases ha

theorem StoredAt.grown {x : Interned (Int × Name) Addr} {list : List Addr} {i : Int} {e' : Addr}
    (h : StoredAt r x list b e i e') (index : Int) :
    StoredAt (r.grown index) x list b e i e' :=
  ⟨by simpa using h.baseSlot, h.baseEntry, by simpa using h.slot, h.entry, h.rename⟩

theorem Represents.grown {spare : Option Int} (h : Represents r bases table spare)
    (index : Int) : Represents (r.grown index) bases table spare where
  indexed := h.indexed
  stored x hx := by
    obtain ⟨b, hb, hkey, e, i, e', hi, hat⟩ := h.stored x hx
    exact ⟨b, hb, hkey, e, i, e', hi, hat.grown index⟩
  slots i e he := h.slots i e (by simpa using he)
  registries e E hE := by simpa using h.registries e E hE
  renames := h.renames
  unused := h.unused

/-- More may be spare. -/
theorem Represents.spare (h : Represents r bases table none) (index : Int) :
    Represents r bases table (some index) :=
  { h with
    slots := fun i e he => by
      obtain ⟨h0, h1, hs⟩ := h.slots i e he
      exact ⟨h0, h1, Or.inr (hs.resolve_left (by simp))⟩ }

/-- The entry of a base that renames in use have. -/
theorem Represents.opened (h : Represents r bases table none) {x : Interned (Int × Name) Addr}
    (hx : x ∈ table) (hb : b ∈ bases) (hkey : b.index = x.key.1) :
    ∃ e i e', Opened r bases table b e ∧ StoredAt r x (itemsOf table b.index) b e i e' := by
  obtain ⟨c, hc, hckey, e, i, e', _, hat⟩ := h.stored x hx
  obtain rfl := h.indexed.inj c hc b hb (hckey.trans hkey.symm)
  exact ⟨e, i, e', ⟨h.spare _, hb, hat.baseSlot, hat.baseEntry⟩, hat⟩

/-- An entry at the index of a base is that of renames in use. -/
theorem Represents.base_of_slot (h : Represents r bases table none) (hb : b ∈ bases)
    (he : r.registry.get b.index = some e) : ∃ x ∈ table, b.index = x.key.1 := by
  obtain ⟨_, _, hs⟩ := h.slots b.index e he
  obtain ⟨x, hx, hkey | ⟨R, hR, hindex⟩⟩ := hs.resolve_left (by simp)
  · exact ⟨x, hx, hkey⟩
  · -- the index of a rename is not that of a base
    obtain ⟨c, _, _, e, i, e', hi, hat⟩ := h.stored x hx
    rw [hat.rename, Option.some.injEq] at hR
    subst hR
    exact absurd hindex.symm (hi b hb)

/-- A new entry of a base. -/
theorem Represents.withEntry (h : Represents r bases table none) (hb : b ∈ bases)
    (hnone : r.registry.get b.index = none) :
    Opened (r.withEntry ⟨none, b, []⟩) bases table b r.unused := by
  -- no rename in use has this base, since the base of each has an entry
  have hitems : itemsOf table b.index = [] := by
    unfold itemsOf
    rw [List.map_eq_nil_iff, List.filter_eq_nil_iff]
    intro x hx hkey
    obtain ⟨e, i, e', hopen, _⟩ := h.opened hx hb (by simpa using (of_decide_eq_true hkey).symm)
    rw [hopen.slot] at hnone
    cases hnone
  -- the entry is added where there was none
  have hold : ∀ j a, r.registry.get j = some a →
      (r.withEntry ⟨none, b, []⟩).registry.get j = some a := by
    intro j a hj
    have hne : j ≠ b.index := by
      rintro rfl
      rw [hnone] at hj
      cases hj
    simp [hne, hj]
  have hkept : ∀ a D, r.registries a = some D →
      (r.withEntry ⟨none, b, []⟩).registries a = some D := by
    intro a D ha
    rw [withEntry_registries, Function.update_of_ne (h.lt_unused ha).ne, ha]
  refine ⟨?_, hb, by simp, by simp [hitems]⟩
  refine ⟨h.indexed, ?_, ?_, ?_, h.renames, ?_⟩
  · intro x hx
    obtain ⟨c, hc, hkey, e, i, e', hi, hat⟩ := h.stored x hx
    exact ⟨c, hc, hkey, e, i, e', hi, hold _ _ hat.baseSlot, hkept _ _ hat.baseEntry,
      hold _ _ hat.slot, hkept _ _ hat.entry, hat.rename⟩
  · intro j a ha
    rw [withEntry_get] at ha
    split at ha
    · rename_i hj
      obtain rfl : j = b.index := hj
      exact ⟨(h.indexed.index b hb).1, (h.indexed.index b hb).2, Or.inl rfl⟩
    · exact (h.spare b.index).slots j a ha
  · intro a E hE
    rw [withEntry_registries] at hE
    by_cases ha : a = r.unused
    · subst ha
      rw [Function.update_self, Option.some.injEq] at hE
      subst hE
      simp
    · rw [Function.update_of_ne ha] at hE
      exact hold _ _ (h.registries a E hE)
  · intro a ha
    have hlt : r.unused < a := ha
    rw [withEntry_registries, Function.update_of_ne hlt.ne']
    exact h.unused a hlt.le

/-- The signature is a base signature, or that of a rename in use; `b` is its base. -/
inductive LiveSignature (r : RenamingRegistry) (bases : List Signature) (table : RenameTable) :
    Signature → Signature → Prop where
  | base {b : Signature} (hb : b ∈ bases) : LiveSignature r bases table b b
  | rename {b : Signature} {x : Interned (Int × Name) Addr} {R : Rename} (hb : b ∈ bases)
      (hx : x ∈ table) (hkey : b.index = x.key.1) (hR : r.renames x.item = some R) :
      LiveSignature r bases table R.signature b

/-- `registry_new` finds the entry of a signature, and by way of it that of its base. -/
theorem registryNew_live (h : Represents r bases table none) {s : Signature}
    (hs : LiveSignature r bases table s b) :
    ∃ a r' E, registryNew s none r = .ok (a, r') ∧ r'.registries a = some E ∧
      Opened r' bases table b (E.base.getD a) ∧ r'.renames = r.renames := by
  cases hs with
  | base hb =>
      have hpos := (h.indexed.index b hb).1
      cases he : r.registry.get b.index with
      | none =>
          have hopen := h.withEntry hb he
          exact ⟨_, _, _, registryNew_unknown none hpos he, hopen.entry, hopen, rfl⟩
      | some a =>
          obtain ⟨x, hx, hkey⟩ := h.base_of_slot hb he
          obtain ⟨a', _, _, hopen, _⟩ := h.opened hx hb hkey
          obtain rfl : a' = a := Option.some.inj (hopen.slot.symm.trans he)
          refine ⟨_, _, _, registryNew_known none hpos he, hopen.entry, ?_, rfl⟩
          exact ⟨hopen.represents.grown _, hb, by simpa using hopen.slot, hopen.entry⟩
  | @rename _ x R hb hx hkey hR =>
      obtain ⟨e, i, e', hopen, hat⟩ := h.opened hx hb hkey
      rw [hat.rename, Option.some.injEq] at hR
      subst hR
      have hpos := (h.slots i e' hat.slot).1
      refine ⟨_, _, _, registryNew_known none hpos hat.slot, hat.entry, ?_, rfl⟩
      exact ⟨hopen.represents.grown _, hb, by simpa using hopen.slot, hopen.entry⟩

/-! ## Names -/

theorem registry_bind_ok {α β : Type} {m : RegistryM α} {f : α → RegistryM β}
    {r r' : RenamingRegistry} {a : α} (h : m r = .ok (a, r')) : (m >>= f) r = f a r' := by
  show (m r >>= fun p => f p.1 p.2) = _
  rw [h]
  rfl

theorem findRename_eq (newName : Name) (xs : RenameTable)
    (h : ∀ x ∈ xs, ∃ R, r.renames x.item = some R ∧ R.signature.name = x.key.2) :
    findRename newName (xs.map Interned.item) r =
      .ok ((xs.find? fun x => x.key.2 = newName).map Interned.item, r) := by
  induction xs with
  | nil => rfl
  | cons x xs ih =>
      obtain ⟨R, hR, hname⟩ := h x List.mem_cons_self
      rw [List.map_cons, findRename, registry_bind_ok (loadRename_eq hR), hname, List.find?_cons]
      by_cases hx : x.key.2 = newName
      · simp only [hx, if_true, decide_true]
        rfl
      · simp only [hx, if_false, decide_false]
        exact ih fun y hy => h y (List.mem_cons_of_mem _ hy)

/-- The loop finds the rename of the base with the name. -/
theorem Opened.findRename (h : Opened r bases table b e) (newName : Name) :
    findRename newName (itemsOf table b.index) r =
      .ok ((table.find? fun x => x.key = (b.index, newName)).map Interned.item, r) := by
  unfold itemsOf
  rw [findRename_eq]
  · rw [List.find?_filter]
    congr 4
    funext x
    simp [Prod.ext_iff]
  · intro x hx
    obtain ⟨c, _, _, e, i, e', _, hat⟩ := h.represents.stored x (List.mem_filter.mp hx).1
    exact ⟨_, hat.rename, rfl⟩

/-! ## Use counts -/

theorem itemsOf_setCount (table : RenameTable) (item : Addr) (n : Nat) (base : Int) :
    itemsOf (setCount table item n) base = itemsOf table base := by
  have hpair (x : Interned (Int × Name) Addr) :
      ((if x.item = item then { x with count := n } else x).key = x.key) ∧
        ((if x.item = item then { x with count := n } else x).item = x.item) := by
    split <;> exact ⟨rfl, rfl⟩
  unfold itemsOf setCount
  rw [List.filter_map, List.map_map]
  congr 1
  · funext x
    exact (hpair x).2
  · congr 1
    funext x
    simp only [Function.comp_apply, (hpair x).1]

/-- Another use count. -/
theorem Represents.setCount {spare : Option Int} (h : Represents r bases table spare)
    (hitems : (table.map Interned.item).Nodup) {x : Interned (Int × Name) Addr} (hx : x ∈ table)
    {R : Rename} (hR : r.renames x.item = some R) (n : Nat) :
    Represents (r.storeRename x.item (some { R with useCount := n })) bases
      (setCount table x.item n) spare where
  indexed := h.indexed
  stored y hy := by
    obtain ⟨z, hz, rfl⟩ := mem_setCount.mp hy
    obtain ⟨b, hb, hkey, e, i, e', hi, hat⟩ := h.stored z hz
    simp only [itemsOf_setCount]
    -- the rename itself, or another one
    by_cases hzx : z.item = x.item
    · obtain rfl := eq_of_map_nodup hitems hz hx hzx
      rw [hat.rename, Option.some.injEq] at hR
      subst hR
      simp only [if_true]
      exact ⟨b, hb, hkey, e, i, e', hi, hat.baseSlot, hat.baseEntry, hat.slot, hat.entry,
        by simp⟩
    · rw [if_neg hzx]
      exact ⟨b, hb, hkey, e, i, e', hi, hat.baseSlot, hat.baseEntry, hat.slot, hat.entry,
        by simp [Function.update_of_ne hzx, hat.rename]⟩
  slots i e he := by
    obtain ⟨h0, h1, hs⟩ := h.slots i e he
    refine ⟨h0, h1, hs.imp id ?_⟩
    rintro ⟨z, hz, hzi⟩
    refine ⟨_, mem_setCount.mpr ⟨z, hz, rfl⟩, ?_⟩
    by_cases hzx : z.item = x.item
    · simp only [hzx, if_true]
      refine hzi.imp id ?_
      rintro ⟨S, hS, hindex⟩
      rw [hzx, hR, Option.some.injEq] at hS
      subst hS
      exact ⟨_, Function.update_self _ _ _, hindex⟩
    · simp only [hzx, if_false]
      refine hzi.imp id ?_
      rintro ⟨S, hS, hindex⟩
      exact ⟨S, by simp [Function.update_of_ne hzx, hS], hindex⟩
  registries := h.registries
  renames a S hS := by
    have hmem : ∃ z ∈ table, z.item = a := by
      by_cases ha : a = x.item
      · exact ⟨x, hx, ha.symm⟩
      · rw [storeRename_renames, Function.update_of_ne ha] at hS
        exact h.renames a S hS
    obtain ⟨z, hz, rfl⟩ := hmem
    refine ⟨_, mem_setCount.mpr ⟨z, hz, rfl⟩, ?_⟩
    split <;> rfl
  unused a ha := by
    refine ⟨(h.unused a ha).1, ?_⟩
    have hne : a ≠ x.item := by
      rintro rfl
      rw [(h.unused _ ha).2] at hR
      cases hR
    rw [storeRename_renames, Function.update_of_ne hne]
    exact (h.unused a ha).2

/-- Nothing is spare when the base has a rename. -/
theorem Represents.close {i : Int} (h : Represents r bases table (some i))
    {x : Interned (Int × Name) Addr} (hx : x ∈ table) (hkey : i = x.key.1) :
    Represents r bases table none :=
  { h with
    slots := fun j e he => by
      obtain ⟨h0, h1, hs⟩ := h.slots j e he
      refine ⟨h0, h1, Or.inr ?_⟩
      rcases hs with hs | hs
      · obtain rfl := Option.some.inj hs
        exact ⟨x, hx, Or.inl hkey⟩
      · exact hs }

/-- The entry of a rename is not that of a base. -/
theorem ne_of_base {a a' o : Addr} {c s : Signature} {list list' : List Addr}
    (hc : r.registries a = some ⟨none, c, list⟩)
    (hs : r.registries a' = some ⟨some o, s, list'⟩) : a ≠ a' := by
  rintro rfl
  have := hc.symm.trans hs
  cases this

/-- The entries of two bases are two entries. -/
theorem ne_of_index_ne {a : Addr} {c : Signature} {list list' : List Addr}
    (hc : r.registries a = some ⟨none, c, list⟩) (hb : r.registries e = some ⟨none, b, list'⟩)
    (hne : c.index ≠ b.index) : a ≠ e := by
  rintro rfl
  have := hc.symm.trans hb
  simp only [Option.some.injEq, Registry.mk.injEq] at this
  exact hne (congrArg Signature.index this.2.1)

/-! ## A new rename -/

/-- The registry with a rename nobody uses yet, at the end of the list of its base. -/
def RenamingRegistry.withRename (r : RenamingRegistry) (e : Addr) (b : Signature)
    (newName : Name) (list : List Addr) : RenamingRegistry :=
  let s := renamed b newName r.localIndex
  ((RenamingRegistry.withEntry { r with unused := r.unused + 1, localIndex := r.localIndex + 1 }
    ⟨some e, s, []⟩).storeRename r.unused (some ⟨0, e, s⟩)).storeRegistry e
      (some ⟨none, b, list ++ [r.unused]⟩)

section Stores

variable (r : RenamingRegistry) (e : Addr) (b : Signature) (newName : Name) (list : List Addr)

@[simp] theorem withRename_get (j : Int) :
    (r.withRename e b newName list).registry.get j =
      if j = r.localIndex then some (r.unused + 1) else r.registry.get j :=
  withEntry_get _ _ _
@[simp] theorem withRename_registries : (r.withRename e b newName list).registries =
    Function.update (Function.update r.registries (r.unused + 1)
      (some ⟨some e, renamed b newName r.localIndex, []⟩)) e
      (some ⟨none, b, list ++ [r.unused]⟩) := rfl
@[simp] theorem withRename_renames : (r.withRename e b newName list).renames =
    Function.update r.renames r.unused (some ⟨0, e, renamed b newName r.localIndex⟩) := rfl
@[simp] theorem withRename_unused :
    (r.withRename e b newName list).unused = r.unused + 1 + 1 := rfl
@[simp] theorem withRename_localIndex :
    (r.withRename e b newName list).localIndex = r.localIndex + 1 := rfl

end Stores

theorem itemsOf_concat (table : RenameTable) (x : Interned (Int × Name) Addr) (base : Int) :
    itemsOf (table ++ [x]) base =
      if x.key.1 = base then itemsOf table base ++ [x.item] else itemsOf table base := by
  unfold itemsOf
  rw [List.filter_append, List.map_append]
  by_cases hx : x.key.1 = base
  · simp [hx]
  · simp [hx]

theorem Represents.item_lt_unused {spare : Option Int} (h : Represents r bases table spare)
    {x : Interned (Int × Name) Addr} (hx : x ∈ table) : x.item < r.unused := by
  obtain ⟨b, _, _, e, i, e', _, hat⟩ := h.stored x hx
  by_contra hle
  have hnone := (h.unused x.item (not_lt.mp hle)).2
  rw [hat.rename] at hnone
  cases hnone

theorem Represents.localIndex_free {spare : Option Int} (h : Represents r bases table spare) :
    r.registry.get r.localIndex = none := by
  cases hslot : r.registry.get r.localIndex with
  | none => rfl
  | some a => exact absurd (h.slots _ a hslot).2.1 (lt_irrefl _)

/-- `addRename` in a registry where the entry of the base is. -/
theorem Opened.addRename (h : Opened r bases table b e) (newName : Name) :
    addRename e newName r =
      .ok (r.unused, r.withRename e b newName (itemsOf table b.index)) := by
  have hpos := h.represents.indexed.positive
  have hfree := h.represents.localIndex_free
  have hlt : e < r.unused := h.represents.lt_unused h.entry
  let r1 : RenamingRegistry := { r with unused := r.unused + 1 }
  let r2 : RenamingRegistry := { r1 with localIndex := r.localIndex + 1 }
  let s := renamed b newName r.localIndex
  have hload : loadRegistry e r1 = .ok (⟨none, b, itemsOf table b.index⟩, r1) :=
    loadRegistry_eq h.entry
  have hset : setLocalIndex (renamedSignature b newName) r1 = .ok (s, r2) := rfl
  have hnew : registryNew s (some e) r2 = .ok (r.unused + 1, r2.withEntry ⟨some e, s, []⟩) :=
    registryNew_unknown (some e) hpos hfree
  have hagain : loadRegistry e (r2.withEntry ⟨some e, s, []⟩) =
      .ok (⟨none, b, itemsOf table b.index⟩, r2.withEntry ⟨some e, s, []⟩) := by
    apply loadRegistry_eq
    rw [withEntry_registries, Function.update_of_ne (lt_trans hlt (Nat.lt_succ_self _)).ne]
    exact h.entry
  rw [C.addRename, registry_bind_ok (show memoryAlloc r = .ok (r.unused, r1) from rfl),
    registry_bind_ok hload, registry_bind_ok hset, registry_bind_ok hnew, registry_bind_ok hagain]
  rfl

section WithRename

variable {spare : Option Int} (newName : Name) (list : List Addr)

/-- The slots in use stay: no slot has the index of the new rename. -/
theorem Represents.get_withRename (h : Represents r bases table spare) {j : Int} {a : Addr}
    (hj : r.registry.get j = some a) :
    (r.withRename e b newName list).registry.get j = some a := by
  rw [withRename_get, if_neg (h.slots j a hj).2.1.ne, hj]

/-- The entries stay, that of the base apart. -/
theorem Represents.registries_withRename (h : Represents r bases table spare) {a : Addr}
    {E : Registry} (ha : r.registries a = some E) (hne : a ≠ e) :
    (r.withRename e b newName list).registries a = some E := by
  have hlt : a < r.unused + 1 := lt_trans (h.lt_unused ha) (Nat.lt_succ_self _)
  rw [withRename_registries, Function.update_of_ne hne, Function.update_of_ne hlt.ne, ha]

/-- The renames in use stay. -/
theorem Represents.renames_withRename (h : Represents r bases table spare)
    {x : Interned (Int × Name) Addr} (hx : x ∈ table) {R : Rename}
    (hR : r.renames x.item = some R) :
    (r.withRename e b newName list).renames x.item = some R := by
  rw [withRename_renames, Function.update_of_ne (h.item_lt_unused hx).ne, hR]

theorem withRename_baseEntry : (r.withRename e b newName list).registries e =
    some ⟨none, b, list ++ [r.unused]⟩ := by
  rw [withRename_registries, Function.update_self]

theorem withRename_ownEntry (hlt : e < r.unused) :
    (r.withRename e b newName list).registries (r.unused + 1) =
      some ⟨some e, renamed b newName r.localIndex, []⟩ := by
  rw [withRename_registries, Function.update_of_ne (lt_trans hlt (Nat.lt_succ_self _)).ne',
    Function.update_self]

/-- A rename that was in the table is where it was. -/
theorem Opened.stored_withRename (h : Opened r bases table b e)
    {x : Interned (Int × Name) Addr} (hx : x ∈ table) :
    ∃ c ∈ bases, c.index = x.key.1 ∧ ∃ a i a', (∀ d ∈ bases, d.index ≠ i) ∧
      StoredAt (r.withRename e b newName (itemsOf table b.index)) x
        (itemsOf (table ++ [⟨(b.index, newName), r.unused, 0⟩]) c.index) c a i a' := by
  obtain ⟨c, hc, hkey, a, i, a', hi, hat⟩ := h.represents.stored x hx
  refine ⟨c, hc, hkey, a, i, a', hi, h.represents.get_withRename newName _ hat.baseSlot, ?_,
    h.represents.get_withRename newName _ hat.slot,
    h.represents.registries_withRename newName _ hat.entry (ne_of_base h.entry hat.entry).symm,
    h.represents.renames_withRename newName _ hx hat.rename⟩
  rw [itemsOf_concat]
  by_cases hcb : b.index = c.index
  · -- the base of the new rename: its list is longer
    obtain rfl := h.represents.indexed.inj b h.mem c hc hcb
    obtain rfl : a = e := Option.some.inj (hat.baseSlot.symm.trans h.slot)
    rw [if_pos rfl, withRename_baseEntry]
  · rw [if_neg hcb]
    exact h.represents.registries_withRename newName _ hat.baseEntry
      (ne_of_index_ne hat.baseEntry h.entry (Ne.symm hcb))

/-- The new rename is at the next index. -/
theorem Opened.stored_new (h : Opened r bases table b e) :
    StoredAt (r.withRename e b newName (itemsOf table b.index))
      ⟨(b.index, newName), r.unused, 0⟩
      (itemsOf (table ++ [⟨(b.index, newName), r.unused, 0⟩]) b.index) b e r.localIndex
      (r.unused + 1) where
  baseSlot := h.represents.get_withRename newName _ h.slot
  baseEntry := by rw [itemsOf_concat, if_pos rfl, withRename_baseEntry]
  slot := by rw [withRename_get, if_pos rfl]
  entry := withRename_ownEntry newName _ (h.represents.lt_unused h.entry)
  rename := by
    rw [withRename_renames, Function.update_self]
    rfl

/-- No slot is spare: the entry of the base has a rename now. -/
theorem Opened.slots_withRename (h : Opened r bases table b e) {j : Int} {a : Addr}
    (ha : (r.withRename e b newName (itemsOf table b.index)).registry.get j = some a) :
    0 < j ∧ j < r.localIndex + 1 ∧
      ∃ x ∈ table ++ [⟨(b.index, newName), r.unused, 0⟩], j = x.key.1 ∨
        ∃ R, (r.withRename e b newName (itemsOf table b.index)).renames x.item = some R ∧
          R.signature.index = j := by
  have hnew := List.mem_append_right table
    (List.mem_singleton_self (⟨(b.index, newName), r.unused, 0⟩ : Interned (Int × Name) Addr))
  rw [withRename_get] at ha
  split at ha
  · rename_i hj
    subst hj
    exact ⟨h.represents.indexed.positive, by omega, _, hnew,
      Or.inr ⟨_, (h.stored_new newName).rename, rfl⟩⟩
  · obtain ⟨h0, h1, hs⟩ := h.represents.slots j a ha
    refine ⟨h0, by omega, ?_⟩
    rcases hs with hs | ⟨x, hx, hs⟩
    · exact ⟨_, hnew, Or.inl (Option.some.inj hs).symm⟩
    · refine ⟨x, List.mem_append_left _ hx, hs.imp id ?_⟩
      rintro ⟨R, hR, hindex⟩
      exact ⟨R, h.represents.renames_withRename newName _ hx hR, hindex⟩

/-- Every entry is at the slot of its index. -/
theorem Opened.get_of_registries_withRename (h : Opened r bases table b e) {a : Addr}
    {E : Registry}
    (hE : (r.withRename e b newName (itemsOf table b.index)).registries a = some E) :
    (r.withRename e b newName (itemsOf table b.index)).registry.get E.signature.index =
      some a := by
  by_cases hae : a = e
  · subst hae
    rw [withRename_baseEntry, Option.some.injEq] at hE
    subst hE
    exact h.represents.get_withRename newName _ h.slot
  · rw [withRename_registries, Function.update_of_ne hae] at hE
    by_cases hau : a = r.unused + 1
    · subst hau
      rw [Function.update_self, Option.some.injEq] at hE
      subst hE
      exact (h.stored_new newName).slot
    · rw [Function.update_of_ne hau] at hE
      exact h.represents.get_withRename newName _ (h.represents.registries a E hE)

/-- The new rename is in the table, with no use yet. -/
theorem Opened.withRename (h : Opened r bases table b e) :
    Represents (r.withRename e b newName (itemsOf table b.index)) bases
      (table ++ [⟨(b.index, newName), r.unused, 0⟩]) none where
  indexed := by
    have hpos := h.represents.indexed.positive
    refine ⟨by rw [withRename_localIndex]; omega, ?_, h.represents.indexed.inj⟩
    intro c hc
    have := h.represents.indexed.index c hc
    rw [withRename_localIndex]
    omega
  stored x hx := by
    rcases List.mem_append.mp hx with hx | hx
    · exact h.stored_withRename newName hx
    · obtain rfl := List.mem_singleton.mp hx
      exact ⟨b, h.mem, rfl, e, r.localIndex, r.unused + 1,
        fun c hc => (h.represents.indexed.index c hc).2.ne, h.stored_new newName⟩
  slots j a ha := by
    obtain ⟨h0, h1, hs⟩ := h.slots_withRename newName ha
    exact ⟨h0, h1, Or.inr hs⟩
  registries a E hE := h.get_of_registries_withRename newName hE
  renames a R hR := by
    rw [withRename_renames] at hR
    by_cases ha : a = r.unused
    · exact ⟨_, List.mem_append_right _ (List.mem_singleton_self _), ha.symm⟩
    · rw [Function.update_of_ne ha] at hR
      obtain ⟨x, hx, rfl⟩ := h.represents.renames a R hR
      exact ⟨x, List.mem_append_left _ hx, rfl⟩
  unused a ha := by
    have hlt : e < r.unused := h.represents.lt_unused h.entry
    have ha1 : r.unused + 1 < a := ha
    have ha0 : r.unused < a := lt_trans (Nat.lt_succ_self _) ha1
    rw [withRename_registries, withRename_renames, Function.update_of_ne (lt_trans hlt ha0).ne',
      Function.update_of_ne ha1.ne', Function.update_of_ne ha0.ne']
    exact h.represents.unused a ha0.le

end WithRename

/-! ## `labcomm2014_renaming_rename_new` -/

/-- The renames that are there keep their signatures. -/
def KeepsSignatures (r r' : RenamingRegistry) : Prop :=
  ∀ a R, r.renames a = some R → ∃ n, r'.renames a = some { R with useCount := n }

theorem KeepsSignatures.storeRename (r : RenamingRegistry) {a : Addr} {R : Rename}
    (hR : r.renames a = some R) (n : Int) :
    KeepsSignatures r (r.storeRename a (some { R with useCount := n })) := by
  intro a' R' hR'
  by_cases ha : a' = a
  · subst ha
    rw [hR, Option.some.injEq] at hR'
    subst hR'
    exact ⟨n, Function.update_self _ _ _⟩
  · exact ⟨R'.useCount, by rw [storeRename_renames, Function.update_of_ne ha, hR']⟩

/-- The last step: the rename that was found or made has one more use. -/
theorem addUse {r : RenamingRegistry} {spare : Option Int} (h : Represents r bases table spare)
    (hitems : (table.map Interned.item).Nodup) {x : Interned (Int × Name) Addr} (hx : x ∈ table)
    {R : Rename} (hR : r.renames x.item = some R) :
    Represents (r.storeRename x.item (some { R with useCount := R.useCount + 1 })) bases
      (setCount table x.item (x.count + 1)) spare := by
  obtain ⟨_, _, _, _, _, _, _, hat⟩ := h.stored x hx
  have hcount : R.useCount = x.count := by
    rw [hat.rename, Option.some.injEq] at hR
    rw [← hR]
  have key := h.setCount hitems hx hR (x.count + 1)
  rw [hcount]
  exact_mod_cast key

theorem setCount_concat {table : RenameTable} {key : Int × Name} {item : Addr}
    (h : item ∉ table.map Interned.item) (m n : Nat) :
    setCount (table ++ [⟨key, item, m⟩]) item n = table ++ [⟨key, item, n⟩] := by
  have hother : ∀ x ∈ table, (if x.item = item then { x with count := n } else x) = x := by
    intro x hx
    rw [if_neg]
    rintro rfl
    exact h (List.mem_map_of_mem hx)
  unfold setCount
  rw [List.map_append, List.map_congr_left hother, List.map_id']
  simp

theorem Opened.useRename (h : Opened r bases table b e) (hitems : (table.map Interned.item).Nodup)
    (newName : Name) :
    ∃ r' new, useRename e newName r = .ok ((acquire table (b.index, newName) new).1, r') ∧
      new ∉ table.map Interned.item ∧
      Represents r' bases (acquire table (b.index, newName) new).2 none ∧
      KeepsSignatures r r' := by
  -- the address of a new rename is not in use
  have hfresh : r.unused ∉ table.map Interned.item := by
    intro hmem
    obtain ⟨x, hx, he⟩ := List.mem_map.mp hmem
    exact absurd (h.represents.item_lt_unused hx) (by rw [he]; exact lt_irrefl _)
  have hload : loadRegistry e r = .ok (⟨none, b, itemsOf table b.index⟩, r) :=
    loadRegistry_eq h.entry
  unfold acquire
  rw [C.useRename, registry_bind_ok hload, registry_bind_ok (h.findRename newName)]
  cases hfind : table.find? (fun x => x.key = (b.index, newName)) with
  | some x =>
      -- the rename is there and gets one more use
      have hx : x ∈ table := List.mem_of_find?_eq_some hfind
      have hkey : x.key = (b.index, newName) := by simpa using List.find?_some hfind
      obtain ⟨_, _, _, e', i, e'', _, hat⟩ := h.represents.stored x hx
      have hR := hat.rename
      generalize (⟨x.count, e', _⟩ : Rename) = R at hR
      refine ⟨r.storeRename x.item (some { R with useCount := R.useCount + 1 }), r.unused, ?_,
        hfresh, ?_, .storeRename r hR _⟩
      · have hfound : foundOrAdded e newName (some x.item) r = .ok (x.item, r) := rfl
        rw [Option.map_some, registry_bind_ok hfound, registry_bind_ok (loadRename_eq hR)]
        rfl
      · have hused := addUse h.represents hitems hx hR
        have hx' : (if x.item = x.item then { x with count := x.count + 1 } else x) ∈
            setCount table x.item (x.count + 1) := mem_setCount.mpr ⟨x, hx, rfl⟩
        rw [if_pos rfl] at hx'
        exact hused.close hx' (congrArg Prod.fst hkey).symm
  | none =>
      -- a rename is added, with a signature of its own, and gets its first use
      have hadd := h.addRename newName
      have hrep := h.withRename newName
      have hx : (⟨(b.index, newName), r.unused, 0⟩ : Interned (Int × Name) Addr) ∈
          table ++ [⟨(b.index, newName), r.unused, 0⟩] := by simp
      have hR : (r.withRename e b newName (itemsOf table b.index)).renames r.unused =
          some ⟨0, e, renamed b newName r.localIndex⟩ := by
        rw [withRename_renames, Function.update_self]
      have hnodup : ((table ++ [⟨(b.index, newName), r.unused, 0⟩] : RenameTable).map
          Interned.item).Nodup := by
        rw [List.map_append, List.nodup_append]
        refine ⟨hitems, List.nodup_singleton _, ?_⟩
        intro a ha c hc
        obtain rfl : c = r.unused := by simpa using hc
        exact fun he => hfresh (he ▸ ha)
      refine ⟨(r.withRename e b newName (itemsOf table b.index)).storeRename r.unused
        (some (Rename.mk (0 + 1) e (renamed b newName r.localIndex))), r.unused, ?_, hfresh, ?_, ?_⟩
      · rw [Option.map_none, registry_bind_ok (show foundOrAdded e newName none r = _ from hadd),
          registry_bind_ok (loadRename_eq hR)]
        rfl
      · have hused := addUse hrep hnodup hx hR
        rw [setCount_concat hfresh] at hused
        exact hused
      · intro a R ha
        have hne : a ≠ r.unused := by
          rintro rfl
          rw [(h.represents.unused _ le_rfl).2] at ha
          cases ha
        exact ⟨R.useCount, by simp [Function.update_of_ne hne, ha]⟩

/-- **A rename is the shared item of its base and its name.** -/
theorem renameNew_represents (h : Represents r bases table none)
    (hitems : (table.map Interned.item).Nodup) {s : Signature}
    (hs : LiveSignature r bases table s b) (rename : Name → Name) :
    ∃ r' new,
      renameNew s rename r = .ok ((acquire table (b.index, rename s.name) new).1, r') ∧
      new ∉ table.map Interned.item ∧
      Represents r' bases (acquire table (b.index, rename s.name) new).2 none ∧
      KeepsSignatures r r' := by
  obtain ⟨a, r1, E, hnew, hE, hopen, hrenames⟩ := registryNew_live h hs
  obtain ⟨r', new, huse, hfresh, hrep, hkeeps⟩ := hopen.useRename hitems (rename s.name)
  refine ⟨r', new, ?_, hfresh, hrep, fun a R hR => hkeeps a R (hrenames ▸ hR)⟩
  rw [renameNew, registry_bind_ok hnew, registry_bind_ok (loadRegistry_eq hE)]
  exact huse

/-! ## `labcomm2014_renaming_rename_free` -/

/-- The registry after `next` became the list of the base `b` at `e`: without an entry when the
list is empty. -/
def RenamingRegistry.closeBase (r : RenamingRegistry) (e : Addr) (b : Signature)
    (next : List Addr) : RenamingRegistry :=
  if next = [] then (r.storeRegistry e none).setSlot b.index none
  else r.storeRegistry e (some ⟨none, b, next⟩)

/-- The registry without a rename, its entry `e'` at index `i`, and its place in the list of its
base. -/
def RenamingRegistry.without (r : RenamingRegistry) (item e : Addr) (b : Signature) (i : Int)
    (e' : Addr) (next : List Addr) : RenamingRegistry :=
  (((r.closeBase e b next).storeRegistry e' none).setSlot i none).storeRename item none

section Stores

variable (r : RenamingRegistry) (item e : Addr) (b : Signature) (i : Int) (e' : Addr)
variable (next : List Addr)

@[simp] theorem closeBase_get (j : Int) : (r.closeBase e b next).registry.get j =
    if next = [] ∧ j = b.index then none else r.registry.get j := by
  unfold RenamingRegistry.closeBase
  by_cases hnext : next = []
  · simp [hnext]
  · simp [hnext]
@[simp] theorem closeBase_registries : (r.closeBase e b next).registries =
    Function.update r.registries e (if next = [] then none else some ⟨none, b, next⟩) := by
  unfold RenamingRegistry.closeBase
  split <;> rfl
@[simp] theorem closeBase_renames : (r.closeBase e b next).renames = r.renames := by
  unfold RenamingRegistry.closeBase
  split <;> rfl
@[simp] theorem closeBase_unused : (r.closeBase e b next).unused = r.unused := by
  unfold RenamingRegistry.closeBase
  split <;> rfl
@[simp] theorem closeBase_localIndex : (r.closeBase e b next).localIndex = r.localIndex := by
  unfold RenamingRegistry.closeBase
  split <;> rfl

@[simp] theorem without_get (j : Int) : (r.without item e b i e' next).registry.get j =
    if j = i then none else if next = [] ∧ j = b.index then none else r.registry.get j := by
  simp [RenamingRegistry.without]
@[simp] theorem without_registries : (r.without item e b i e' next).registries =
    Function.update (Function.update r.registries e
      (if next = [] then none else some ⟨none, b, next⟩)) e' none := by
  simp [RenamingRegistry.without]
@[simp] theorem without_renames :
    (r.without item e b i e' next).renames = Function.update r.renames item none := by
  simp [RenamingRegistry.without]
@[simp] theorem without_unused : (r.without item e b i e' next).unused = r.unused := by
  simp [RenamingRegistry.without]
@[simp] theorem without_localIndex :
    (r.without item e b i e' next).localIndex = r.localIndex := by
  simp [RenamingRegistry.without]

end Stores

theorem freeIndex_eq {r : RenamingRegistry} {s : Signature} {e : Addr} (hs : s.index ≠ 0)
    (h : r.registry.get s.index = some e) :
    freeIndex s r = .ok ((), (r.storeRegistry e none).setSlot s.index none) := by
  simp [freeIndex, registryIndex, hs, h, bind, StateT.bind, Except.bind, pure, stateT_pure_apply,
    Except.pure, get, getThe, MonadStateOf.get, StateT.get, modify, modifyGet,
    MonadStateOf.modifyGet, StateT.modifyGet]

/-- Two entries of the table at the same index are the same. -/
theorem Represents.eq_of_index (h : Represents r bases table none)
    (hkeys : (table.map Interned.key).Nodup) {x y : Interned (Int × Name) Addr} (hx : x ∈ table)
    (hy : y ∈ table) {R S : Rename} (hR : r.renames x.item = some R)
    (hS : r.renames y.item = some S) (hindex : R.signature.index = S.signature.index) :
    x = y := by
  obtain ⟨b, hb, hbkey, e, i, e', _, hat⟩ := h.stored x hx
  obtain ⟨c, hc, hckey, a, j, a', _, hat'⟩ := h.stored y hy
  rw [hat.rename, Option.some.injEq] at hR
  rw [hat'.rename, Option.some.injEq] at hS
  subst hR hS
  obtain rfl : i = j := hindex
  -- the entry at the index has the name and the base
  obtain rfl : e' = a' := Option.some.inj (hat.slot.symm.trans hat'.slot)
  have hentry := hat.entry.symm.trans hat'.entry
  simp only [Option.some.injEq, Registry.mk.injEq] at hentry
  have hname : x.key.2 = y.key.2 := congrArg Signature.name hentry.2.1
  obtain rfl : e = a := hentry.1
  have hbase := hat.baseEntry.symm.trans hat'.baseEntry
  simp only [Option.some.injEq, Registry.mk.injEq] at hbase
  obtain rfl : b = c := hbase.2.1
  exact eq_of_map_nodup hkeys hx hy (Prod.ext (hbkey.symm.trans hckey) hname)

theorem mem_itemsOf {table : RenameTable} {base : Int} {a : Addr} :
    a ∈ itemsOf table base ↔ ∃ x ∈ table, x.key.1 = base ∧ x.item = a := by
  unfold itemsOf
  simp only [List.mem_map, List.mem_filter, decide_eq_true_eq, and_assoc]

theorem itemsOf_filter (hitems : (table.map Interned.item).Nodup) (item : Addr) (base : Int) :
    itemsOf (table.filter fun y => y.item ≠ item) base = (itemsOf table base).erase item := by
  have hnodup : (itemsOf table base).Nodup := hitems.sublist (List.filter_sublist.map _)
  rw [hnodup.erase_eq_filter]
  unfold itemsOf
  rw [List.filter_map, List.filter_filter, List.filter_filter]
  congr 2
  funext y
  by_cases hy : y.item = item <;> simp [hy]

section Without

variable {x : Interned (Int × Name) Addr} {i : Int} {e' : Addr} {next : List Addr}

/-- The other renames of the base keep its list from being empty. -/
theorem ne_nil_of_sibling (hnext : itemsOf (table.filter fun y => y.item ≠ x.item) b.index = next)
    {y : Interned (Int × Name) Addr} (hy : y ∈ table) (hne : y.item ≠ x.item)
    (hkey : y.key.1 = b.index) : next ≠ [] := by
  rintro rfl
  have hmem : y.item ∈ itemsOf (table.filter fun y => y.item ≠ x.item) b.index :=
    mem_itemsOf.mpr ⟨y, by simpa using ⟨hy, hne⟩, hkey, rfl⟩
  rw [hnext] at hmem
  cases hmem

/-- The list of a base after a rename was given back: that of its own base became `next`, the
others stay. -/
theorem Represents.baseEntry_without (h : Represents r bases table none)
    (hitems : (table.map Interned.item).Nodup) (hx : x ∈ table) (hb : b ∈ bases)
    (hkey : b.index = x.key.1) (hat : StoredAt r x (itemsOf table b.index) b e i e')
    (hnext : itemsOf (table.filter fun y => y.item ≠ x.item) b.index = next)
    {y : Interned (Int × Name) Addr} (hy : y ∈ table) (hne : y.item ≠ x.item) {c : Signature}
    (hc : c ∈ bases) (hckey : c.index = y.key.1) {a : Addr}
    (hslot : r.registry.get c.index = some a)
    (hentry : r.registries a = some ⟨none, c, itemsOf table c.index⟩) :
    (r.without x.item e b i e' next).registries a =
      some ⟨none, c, itemsOf (table.filter fun y => y.item ≠ x.item) c.index⟩ := by
  rw [without_registries, Function.update_of_ne (ne_of_base hentry hat.entry)]
  by_cases hcb : c.index = b.index
  · obtain rfl := h.indexed.inj c hc b hb hcb
    obtain rfl : a = e := Option.some.inj (hslot.symm.trans hat.baseSlot)
    rw [Function.update_self, if_neg (ne_nil_of_sibling hnext hy hne hckey.symm), hnext]
  · have hother : x.item ∉ itemsOf table c.index := by
      intro hmem
      obtain ⟨z, hz, hzkey, hzitem⟩ := mem_itemsOf.mp hmem
      obtain rfl := eq_of_map_nodup hitems hz hx hzitem
      exact hcb (hzkey.symm.trans hkey.symm)
    rw [Function.update_of_ne (ne_of_index_ne hentry hat.baseEntry hcb), itemsOf_filter hitems,
      List.erase_of_not_mem hother, hentry]

/-- The renames that are left are where they were. -/
theorem Represents.stored_without (h : Represents r bases table none)
    (hkeys : (table.map Interned.key).Nodup) (hitems : (table.map Interned.item).Nodup)
    (hx : x ∈ table) (hb : b ∈ bases) (hkey : b.index = x.key.1)
    (hi : ∀ c ∈ bases, c.index ≠ i) (hat : StoredAt r x (itemsOf table b.index) b e i e')
    (hnext : itemsOf (table.filter fun y => y.item ≠ x.item) b.index = next)
    {y : Interned (Int × Name) Addr} (hy : y ∈ table) (hne : y.item ≠ x.item) :
    ∃ c ∈ bases, c.index = y.key.1 ∧ ∃ a j a', (∀ d ∈ bases, d.index ≠ j) ∧
      StoredAt (r.without x.item e b i e' next) y
        (itemsOf (table.filter fun y => y.item ≠ x.item) c.index) c a j a' := by
  obtain ⟨c, hc, hckey, a, j, a', hj, hat'⟩ := h.stored y hy
  have hji : j ≠ i := by
    rintro rfl
    have := h.eq_of_index hkeys hy hx hat'.rename hat.rename rfl
    exact hne (congrArg Interned.item this)
  have ha' : a' ≠ e' := by
    rintro rfl
    have := hat'.entry.symm.trans hat.entry
    simp only [Option.some.injEq, Registry.mk.injEq] at this
    exact hji (congrArg Signature.index this.2.1)
  refine ⟨c, hc, hckey, a, j, a', hj, ?_,
    h.baseEntry_without hitems hx hb hkey hat hnext hy hne hc hckey hat'.baseSlot hat'.baseEntry,
    ?_, ?_, ?_⟩
  · rw [without_get, if_neg (hi c hc), if_neg, hat'.baseSlot]
    rintro ⟨hnil, hcb⟩
    exact ne_nil_of_sibling hnext hy hne (hckey.symm.trans hcb) hnil
  · rw [without_get, if_neg hji, if_neg (fun hnil => hj b hb hnil.2.symm), hat'.slot]
  · rw [without_registries, Function.update_of_ne ha',
      Function.update_of_ne (ne_of_base hat.baseEntry hat'.entry).symm, hat'.entry]
  · rw [without_renames, Function.update_of_ne hne, hat'.rename]

/-- The slots in use are those of the renames that are left. -/
theorem Represents.slots_without (h : Represents r bases table none)
    (hitems : (table.map Interned.item).Nodup) (hx : x ∈ table) (hkey : b.index = x.key.1)
    (hat : StoredAt r x (itemsOf table b.index) b e i e')
    (hnext : itemsOf (table.filter fun y => y.item ≠ x.item) b.index = next) {j : Int} {a : Addr}
    (ha : (r.without x.item e b i e' next).registry.get j = some a) :
    0 < j ∧ j < r.localIndex ∧ ∃ y ∈ table.filter fun y => y.item ≠ x.item, j = y.key.1 ∨
      ∃ R, (r.without x.item e b i e' next).renames y.item = some R ∧
        R.signature.index = j := by
  rw [without_get] at ha
  split at ha
  · cases ha
  split at ha
  · cases ha
  rename_i hji hopen
  obtain ⟨h0, h1, hs⟩ := h.slots j a ha
  refine ⟨h0, h1, ?_⟩
  obtain ⟨y, hy, hyj⟩ := hs.resolve_left (by simp)
  by_cases hyx : y.item = x.item
  · -- of what the rename had only the entry of its base can be left, for another rename
    obtain rfl := eq_of_map_nodup hitems hy hx hyx
    rcases hyj with hyj | ⟨R, hR, hindex⟩
    · have hne : next ≠ [] := fun hnil => hopen ⟨hnil, hyj.trans hkey.symm⟩
      obtain ⟨z, hz⟩ := List.exists_mem_of_ne_nil next hne
      rw [← hnext] at hz
      obtain ⟨z, hz, hzkey, _⟩ := mem_itemsOf.mp hz
      exact ⟨z, hz, Or.inl (hyj.trans (hkey.symm.trans hzkey.symm))⟩
    · rw [hat.rename, Option.some.injEq] at hR
      subst hR
      exact absurd hindex.symm hji
  · refine ⟨y, by simpa using ⟨hy, hyx⟩, hyj.imp id ?_⟩
    rintro ⟨R, hR, hindex⟩
    exact ⟨R, by rw [without_renames, Function.update_of_ne hyx, hR], hindex⟩

/-- Every entry that is left is at the slot of its index. -/
theorem Represents.get_of_registries_without (h : Represents r bases table none) (hb : b ∈ bases)
    (hi : ∀ c ∈ bases, c.index ≠ i) (hat : StoredAt r x (itemsOf table b.index) b e i e')
    {a : Addr} {E : Registry} (hE : (r.without x.item e b i e' next).registries a = some E) :
    (r.without x.item e b i e' next).registry.get E.signature.index = some a := by
  rw [without_registries] at hE
  by_cases hae' : a = e'
  · subst hae'
    rw [Function.update_self] at hE
    cases hE
  rw [Function.update_of_ne hae'] at hE
  by_cases hae : a = e
  · subst hae
    rw [Function.update_self] at hE
    split at hE
    · cases hE
    · rename_i hne
      cases hE
      rw [without_get, if_neg (hi b hb), if_neg (fun hnil => hne hnil.1), hat.baseSlot]
  · rw [Function.update_of_ne hae] at hE
    have hold := h.registries a E hE
    rw [without_get, if_neg, if_neg, hold]
    · rintro ⟨_, hindex⟩
      rw [hindex, hat.baseSlot] at hold
      exact hae (Option.some.inj hold).symm
    · intro hindex
      rw [hindex, hat.slot] at hold
      exact hae' (Option.some.inj hold).symm

/-- The last use of a rename is given back. -/
theorem Represents.without (h : Represents r bases table none)
    (hkeys : (table.map Interned.key).Nodup) (hitems : (table.map Interned.item).Nodup)
    (hx : x ∈ table) (hb : b ∈ bases) (hkey : b.index = x.key.1)
    (hi : ∀ c ∈ bases, c.index ≠ i) (hat : StoredAt r x (itemsOf table b.index) b e i e') :
    Represents (r.without x.item e b i e' ((itemsOf table b.index).erase x.item)) bases
      (table.filter fun y => y.item ≠ x.item) none := by
  have hkept : ∀ y, y ∈ table.filter (fun y => y.item ≠ x.item) ↔ y ∈ table ∧ y.item ≠ x.item := by
    simp
  rw [← itemsOf_filter hitems]
  generalize hnext : itemsOf (table.filter fun y => y.item ≠ x.item) b.index = next
  refine ⟨by simpa using h.indexed, ?_, ?_,
    fun a E hE => h.get_of_registries_without hb hi hat hE, ?_, ?_⟩
  · intro y hy
    obtain ⟨hyt, hne⟩ := (hkept y).mp hy
    exact h.stored_without hkeys hitems hx hb hkey hi hat hnext hyt hne
  · intro j a ha
    obtain ⟨h0, h1, hs⟩ := h.slots_without hitems hx hkey hat hnext ha
    exact ⟨h0, by simpa using h1, Or.inr hs⟩
  · intro a R hR
    rw [without_renames] at hR
    by_cases ha : a = x.item
    · subst ha
      rw [Function.update_self] at hR
      cases hR
    · rw [Function.update_of_ne ha] at hR
      obtain ⟨y, hy, rfl⟩ := h.renames a R hR
      exact ⟨y, (hkept y).mpr ⟨hy, ha⟩, rfl⟩
  · intro a ha
    rw [without_unused] at ha
    -- what is freed was allocated, so that it is below `unused`
    obtain ⟨hregistry, hnone⟩ := h.unused a ha
    have he := h.lt_unused hat.baseEntry
    have he' := h.lt_unused hat.entry
    rw [without_registries, without_renames, Function.update_of_ne (lt_of_lt_of_le he' ha).ne',
      Function.update_of_ne (lt_of_lt_of_le he ha).ne',
      Function.update_of_ne (lt_of_lt_of_le (h.item_lt_unused hx) ha).ne']
    exact ⟨hregistry, hnone⟩

end Without

theorem dropRename_eq (h : Represents r bases table none) {x : Interned (Int × Name) Addr}
    {list : List Addr} {i : Int} {e' : Addr} (hb : b ∈ bases) (hi : b.index ≠ i)
    (hat : StoredAt r x list b e i e') :
    dropRename x.item ⟨0, e, renamed b x.key.2 i⟩ r =
      .ok ((), r.without x.item e b i e' (list.erase x.item)) := by
  have hbpos := (h.indexed.index b hb).1
  have hipos := (h.slots i e' hat.slot).1
  have hload : loadRegistry e r = .ok (⟨none, b, list⟩, r) := loadRegistry_eq hat.baseEntry
  have hunused : ∀ next, freeUnused b next (r.storeRegistry e (some ⟨none, b, next⟩)) =
      .ok ((), r.closeBase e b next) := by
    intro next
    unfold RenamingRegistry.closeBase freeUnused
    split
    · rw [freeIndex_eq (by omega) (show (r.storeRegistry e _).registry.get b.index = some e from
        hat.baseSlot)]
      simp [RenamingRegistry.storeRegistry]
    · rfl
  have hfree : freeIndex (renamed b x.key.2 i) (r.closeBase e b (list.erase x.item)) =
      .ok ((), ((r.closeBase e b (list.erase x.item)).storeRegistry e' none).setSlot i none) := by
    apply freeIndex_eq (by rw [renamed_index]; omega)
    rw [closeBase_get, if_neg (fun hnil => hi hnil.2.symm)]
    exact hat.slot
  have hstore : (modify fun r : RenamingRegistry =>
      r.storeRegistry e (some ⟨none, b, list.erase x.item⟩) : RegistryM PUnit) r =
        .ok (⟨⟩, r.storeRegistry e (some ⟨none, b, list.erase x.item⟩)) := rfl
  rw [dropRename, registry_bind_ok hload, registry_bind_ok hstore, registry_bind_ok (hunused _),
    registry_bind_ok hfree]
  rfl

theorem storeRename_without (r : RenamingRegistry) (item e e' : Addr) (R : Option Rename)
    (b : Signature) (i : Int) (next : List Addr) :
    (r.storeRename item R).without item e b i e' next = r.without item e b i e' next := by
  unfold RenamingRegistry.without RenamingRegistry.closeBase
  split <;> simp [RenamingRegistry.storeRename, RenamingRegistry.storeRegistry,
    RenamingRegistry.setSlot]

/-- **Giving back a rename gives back the shared item.** -/
theorem renameFree_represents (h : Represents r bases table none)
    (hkeys : (table.map Interned.key).Nodup) (hitems : (table.map Interned.item).Nodup)
    {x : Interned (Int × Name) Addr} (hx : x ∈ table) (hpos : 0 < x.count) :
    ∃ r', renameFree x.item r = .ok ((), r') ∧ Represents r' bases (release table x) none ∧
      ∀ y ∈ release table x, ∀ R, r.renames y.item = some R →
        ∃ n, r'.renames y.item = some { R with useCount := n } := by
  obtain ⟨b, hb, hkey, e, i, e', hi, hat⟩ := h.stored x hx
  have hR := hat.rename
  unfold release
  by_cases hone : x.count = 1
  · rw [if_pos hone]
    -- the count is stored before the rename is freed
    have hzero := h.setCount hitems hx hR 0
    have hat0 : StoredAt (r.storeRename x.item
        (some ⟨(0 : Nat), e, renamed b x.key.2 i⟩)) { x with count := 0 }
        (itemsOf table b.index) b e i e' :=
      ⟨hat.baseSlot, hat.baseEntry, hat.slot, hat.entry, by simp⟩
    have hdrop := dropRename_eq hzero hb (hi b hb) hat0
    rw [storeRename_without] at hdrop
    refine ⟨_, ?_, h.without hkeys hitems hx hb hkey hi hat, ?_⟩
    · rw [renameFree, registry_bind_ok (loadRename_eq hR)]
      simp only [hone, Nat.cast_one, sub_self]
      exact hdrop
    · intro y hy R hyR
      have hne : y.item ≠ x.item := by simpa using (List.mem_filter.mp hy).2
      exact ⟨R.useCount, by rw [without_renames, Function.update_of_ne hne, hyR]⟩
  · rw [if_neg hone]
    have hcount : ((x.count : Int) - 1) = ((x.count - 1 : Nat) : Int) := by omega
    have hne : ((x.count - 1 : Nat) : Int) ≠ 0 := by omega
    refine ⟨_, ?_, h.setCount hitems hx hR (x.count - 1), fun y _ R hyR => ?_⟩
    · rw [renameFree, registry_bind_ok (loadRename_eq hR)]
      simp only [hcount, hne, if_false]
      rfl
    · exact KeepsSignatures.storeRename r hR _ _ _ hyR

/-! ## Runs -/

/-- What a call of `labcomm2014_renaming_rename_new` gave: the rename and its local index, for a
base signature and a name. -/
structure Acquisition where
  base : Signature
  name : Name
  rename : Addr
  index : Int

/-- A registry, the base signatures there are, what was acquired and not given back, and all that
was ever acquired. -/
structure RegistryRun where
  registry : RenamingRegistry
  bases : List Signature
  held : List Acquisition
  history : List Acquisition

/-- The signature `s` may be passed to `labcomm2014_renaming_rename_new`: it is a base signature or
that of a rename in use. Its base is `b`. -/
inductive RegistryRun.Passes (run : RegistryRun) : Signature → Signature → Prop where
  | base {b : Signature} (hb : b ∈ run.bases) : run.Passes b b
  | held {a : Acquisition} {s : Signature} (ha : a ∈ run.held)
      (hs : renameSignature run.registry a.rename = some s) : run.Passes s a.base

/-- One call: a base signature gets its index, a rename is acquired, or one that is held is given
back. -/
inductive RegistryStep : RegistryRun → RegistryRun → Prop where
  | declare {run : RegistryRun} {s b : Signature} {r' : RenamingRegistry}
      (h : setLocalIndex s run.registry = .ok (b, r')) :
      RegistryStep run { run with registry := r', bases := b :: run.bases }
  | acquire {run : RegistryRun} {s b s' : Signature} {rename : Name → Name} {x : Addr}
      {r' : RenamingRegistry} (hs : run.Passes s b)
      (h : renameNew s rename run.registry = .ok (x, r')) (hx : renameSignature r' x = some s') :
      RegistryStep run ⟨r', run.bases, ⟨b, rename s.name, x, s'.index⟩ :: run.held,
        ⟨b, rename s.name, x, s'.index⟩ :: run.history⟩
  | free {run : RegistryRun} {a : Acquisition} {r' : RenamingRegistry} (ha : a ∈ run.held)
      (h : renameFree a.rename run.registry = .ok ((), r')) :
      RegistryStep run { run with
        registry := r', held := run.held.eraseP fun c => c.rename = a.rename }

/-- A run starts with an empty registry. -/
def RegistryRun.start : RegistryRun := ⟨registryInit 0x40, [], [], []⟩

/-- The states of the runs. -/
def RegistryRun.Reachable (run : RegistryRun) : Prop :=
  Relation.ReflTransGen RegistryStep .start run

/-- The key and the item of what is held. -/
def Acquisition.pair (a : Acquisition) : (Int × Name) × Addr := ((a.base.index, a.name), a.rename)

/-- The registry is a table that accounts for what is held. -/
structure RegistryInv (run : RegistryRun) (table : RenameTable) : Prop where
  represents : Represents run.registry run.bases table none
  accounts : Accounts table (run.held.map Acquisition.pair)
  bases : ∀ a ∈ run.held, a.base ∈ run.bases
  index : ∀ a ∈ run.held, ∃ R, run.registry.renames a.rename = some R ∧
    R.signature.index = a.index

/-! ## One step -/

variable {run run' : RegistryRun}

theorem RegistryInv.start : RegistryInv .start [] where
  represents := by
    refine ⟨⟨by decide, ?_, ?_⟩, ?_, ?_, ?_, ?_, ?_⟩
    · intro b hb
      cases hb
    · intro b hb
      cases hb
    · intro x hx
      cases hx
    · intro i e he
      change (SigArray.init : SigArray (Option Addr)).get i = some e at he
      rw [SigArray.get_init] at he
      cases he
    · intro e E hE
      cases hE
    · intro a R hR
      cases hR
    · exact fun a _ => ⟨rfl, rfl⟩
  accounts := .nil
  bases a ha := by cases ha
  index a ha := by cases ha

/-- What is held is in the table. -/
theorem RegistryInv.mem (h : RegistryInv run table) {a : Acquisition} (ha : a ∈ run.held) :
    ∃ x ∈ table, x.key = (a.base.index, a.name) ∧ x.item = a.rename := by
  obtain ⟨x, hx, hpair⟩ := h.accounts.held _ (List.mem_map_of_mem ha)
  exact ⟨x, hx, (Prod.ext_iff.mp hpair).1, (Prod.ext_iff.mp hpair).2⟩

/-- What is held of one rename is the same. -/
theorem RegistryInv.pair_eq (h : RegistryInv run table) {a c : Acquisition} (ha : a ∈ run.held)
    (hc : c ∈ run.held) (hrename : c.rename = a.rename) : c.pair = a.pair :=
  Prod.ext ((h.accounts.item_eq_iff (List.mem_map_of_mem hc) (List.mem_map_of_mem ha)).mpr hrename)
    hrename

theorem RegistryInv.live (h : RegistryInv run table) {s b : Signature} (hs : run.Passes s b) :
    LiveSignature run.registry run.bases table s b := by
  cases hs with
  | base hb => exact .base hb
  | @held a s ha hs =>
      obtain ⟨x, hx, hkey, hitem⟩ := h.mem ha
      obtain ⟨R, hR, rfl⟩ := Option.map_eq_some_iff.mp hs
      exact .rename (h.bases a ha) hx (congrArg Prod.fst hkey).symm (hitem ▸ hR)

theorem setLocalIndex_cases {s b : Signature} {r' : RenamingRegistry}
    (h : setLocalIndex s r = .ok (b, r')) :
    b = s.withIndex r.localIndex ∧ r' = { r with localIndex := r.localIndex + 1 } := by
  unfold setLocalIndex at h
  split at h
  · cases h
  · cases h
    exact ⟨rfl, rfl⟩

theorem withIndex_index (s : Signature) (index : Int) : (s.withIndex index).index = index := by
  cases s
  rfl

/-- A signature gets the next index. -/
theorem Represents.declare (h : Represents r bases table none) {b : Signature}
    (hb : b.index = r.localIndex) :
    Represents { r with localIndex := r.localIndex + 1 } (b :: bases) table none where
  indexed := by
    have hpos := h.indexed.positive
    -- the new index is above all that were given
    have hlt : ∀ c ∈ bases, c.index < b.index := by
      intro c hc
      rw [hb]
      exact (h.indexed.index c hc).2
    refine ⟨by simp only; omega, ?_, ?_⟩
    · intro c hc
      simp only
      rcases List.mem_cons.mp hc with rfl | hc
      · omega
      · have := h.indexed.index c hc
        omega
    · intro c hc d hd hcd
      rcases List.mem_cons.mp hc with rfl | hc' <;> rcases List.mem_cons.mp hd with rfl | hd'
      · rfl
      · have := hlt d hd'
        omega
      · have := hlt c hc'
        omega
      · exact h.indexed.inj c hc' d hd' hcd
  stored x hx := by
    obtain ⟨c, hc, hkey, e, i, e', hi, hat⟩ := h.stored x hx
    refine ⟨c, List.mem_cons_of_mem _ hc, hkey, e, i, e', ?_, hat.1, hat.2, hat.3, hat.4, hat.5⟩
    intro d hd
    rcases List.mem_cons.mp hd with rfl | hd
    · have := (h.slots i e' hat.slot).2.1
      omega
    · exact hi d hd
  slots i e he := by
    obtain ⟨h0, h1, hs⟩ := h.slots i e he
    exact ⟨h0, by simp only; omega, hs⟩
  registries := h.registries
  renames := h.renames
  unused := h.unused

/-- **One call keeps the invariant.** -/
theorem RegistryInv.step (h : RegistryInv run table) (hstep : RegistryStep run run') :
    ∃ table', RegistryInv run' table' := by
  cases hstep with
  | @declare s b r' hset =>
      obtain ⟨rfl, rfl⟩ := setLocalIndex_cases hset
      exact ⟨table, h.represents.declare (withIndex_index s _), h.accounts,
        fun a ha => List.mem_cons_of_mem _ (h.bases a ha), h.index⟩
  | @acquire s b s' rename x r' hs hcall hx =>
      have hlive := h.live hs
      -- `b` is a base, also where a rename of it is renamed
      have hb : b ∈ run.bases := by
        cases hs with
        | base hb => exact hb
        | held ha _ => exact h.bases _ ha
      obtain ⟨r1, new, hnew, hfresh, hrep, hkeeps⟩ :=
        renameNew_represents h.represents h.accounts.items hlive rename
      obtain ⟨rfl, rfl⟩ := Prod.ext_iff.mp (Except.ok.inj (hnew.symm.trans hcall))
      obtain ⟨R, hR, rfl⟩ := Option.map_eq_some_iff.mp hx
      refine ⟨_, hrep, h.accounts.acquire (b.index, rename s.name) hfresh, ?_, ?_⟩
      · intro a ha
        rcases List.mem_cons.mp ha with rfl | ha
        · exact hb
        · exact h.bases a ha
      · intro a ha
        rcases List.mem_cons.mp ha with rfl | ha
        · exact ⟨R, hR, rfl⟩
        · obtain ⟨S, hS, hindex⟩ := h.index a ha
          obtain ⟨n, hn⟩ := hkeeps _ S hS
          exact ⟨_, hn, hindex⟩
  | @free a r' ha hcall =>
      obtain ⟨x, hx, hkey, hitem⟩ := h.mem ha
      obtain ⟨r1, hfree, hrep, hkeeps⟩ := renameFree_represents h.represents h.accounts.keys
        h.accounts.items hx (h.accounts.counted x hx).1
      rw [hitem] at hfree
      obtain ⟨_, rfl⟩ := Prod.ext_iff.mp (Except.ok.inj (hfree.symm.trans hcall))
      have haccounts := h.accounts.release hx
      rw [hkey, hitem] at haccounts
      -- the acquisition that ends is found by the address of its rename
      have hmap := map_eraseP (f := Acquisition.pair) (a := a)
        (p := fun c => c.rename = a.rename) fun c hc => by
          rw [decide_eq_true_iff]
          exact ⟨h.pair_eq ha hc, fun he => (Prod.ext_iff.mp he).2⟩
      have haccounts' : Accounts (release table x)
          ((run.held.eraseP fun c => c.rename = a.rename).map Acquisition.pair) := by
        rw [hmap]
        exact haccounts
      refine ⟨_, hrep, haccounts', ?_, ?_⟩
      · intro c hc
        exact h.bases c (List.mem_of_mem_eraseP hc)
      · intro c hc
        obtain ⟨S, hS, hindex⟩ := h.index c (List.mem_of_mem_eraseP hc)
        obtain ⟨y, hy, hpair⟩ := haccounts'.held _ (List.mem_map_of_mem hc)
        have hyc : y.item = c.rename := (Prod.ext_iff.mp hpair).2
        rw [← hyc] at hS ⊢
        obtain ⟨n, hn⟩ := hkeeps y hy S hS
        exact ⟨_, hn, hindex⟩

/-- **A whole run keeps the invariant.** -/
theorem RegistryRun.Reachable.inv (h : run.Reachable) : ∃ table, RegistryInv run table := by
  induction h with
  | refl => exact ⟨[], .start⟩
  | tail _ hstep ih =>
      obtain ⟨table, htable⟩ := ih
      exact htable.step hstep

/-! ## What holds in every run -/

/-- What the registry promises of a state. -/
structure RegistryRun.InOrder (run : RegistryRun) : Prop where
  /-- What is held for the same base and the same name is the same rename. -/
  same : ∀ a ∈ run.held, ∀ c ∈ run.held, a.base = c.base → a.name = c.name →
    a.rename = c.rename ∧ a.index = c.index
  /-- What is held for another base or another name has another index. -/
  other : ∀ a ∈ run.held, ∀ c ∈ run.held, a.base ≠ c.base ∨ a.name ≠ c.name → a.index ≠ c.index
  /-- The use counts are the numbers of acquisitions that were not given back. -/
  useCount : ∀ a ∈ run.held, ∃ R, run.registry.renames a.rename = some R ∧
    R.signature.index = a.index ∧ R.signature.name = a.name ∧
    R.useCount = run.held.countP fun c => c.rename = a.rename
  /-- A rename is held, and the entry of its base is there. -/
  base : ∀ x R, run.registry.renames x = some R → ∃ a ∈ run.held, a.rename = x ∧
    ∃ E, run.registry.registries R.base = some E ∧ E.base = none ∧ E.signature = a.base ∧
      x ∈ E.rename
  /-- When nothing is held, the array has no entry, and everything is freed. -/
  empty : run.held = [] → (∀ i, run.registry.registry.get i = none) ∧
    ∀ x, run.registry.registries x = none ∧ run.registry.renames x = none
  /-- A rename can be acquired. -/
  acquires : ∀ s b, run.Passes s b → ∀ rename, ∃ x r', renameNew s rename run.registry = .ok (x, r')
  /-- What is held can be given back. -/
  frees : ∀ a ∈ run.held, ∃ r', renameFree a.rename run.registry = .ok ((), r')

theorem RegistryInv.rename (h : RegistryInv run table) {a : Acquisition} (ha : a ∈ run.held) :
    ∃ x ∈ table, x.key = (a.base.index, a.name) ∧ x.item = a.rename ∧ ∃ e e',
      StoredAt run.registry x (itemsOf table a.base.index) a.base e a.index e' := by
  obtain ⟨x, hx, hkey, hitem⟩ := h.mem ha
  obtain ⟨e, i, e', _, hat⟩ := h.represents.opened hx (h.bases a ha) (congrArg Prod.fst hkey).symm
  obtain ⟨R, hR, hindex⟩ := h.index a ha
  rw [← hitem, hat.rename, Option.some.injEq] at hR
  subst hR
  obtain rfl : i = a.index := hindex
  exact ⟨x, hx, hkey, hitem, e, e', hat⟩

theorem RegistryInv.inOrder (h : RegistryInv run table) : run.InOrder where
  same a ha c hc hbase hname := by
    -- one rename for each base and name
    have hitem : a.rename = c.rename :=
      (h.accounts.item_eq_iff (List.mem_map_of_mem ha) (List.mem_map_of_mem hc)).mp
        (Prod.ext (congrArg Signature.index hbase) hname)
    obtain ⟨R, hR, hRindex⟩ := h.index a ha
    obtain ⟨S, hS, hSindex⟩ := h.index c hc
    rw [hitem, hS, Option.some.injEq] at hR
    rw [← hRindex, ← hSindex, hR]
    exact ⟨hitem, rfl⟩
  other a ha c hc hother hindex := by
    obtain ⟨x, hx, hxkey, _, _, _, hat⟩ := h.rename ha
    obtain ⟨y, hy, hykey, _, _, _, hat'⟩ := h.rename hc
    -- the index tells the rename, and the rename its base and name
    obtain rfl := h.represents.eq_of_index h.accounts.keys hx hy hat.rename hat'.rename hindex
    have hpair := hxkey.symm.trans hykey
    rw [Prod.mk.injEq] at hpair
    have hbase := h.represents.indexed.inj _ (h.bases a ha) _ (h.bases c hc) hpair.1
    rcases hother with hne | hne
    · exact hne hbase
    · exact hne hpair.2
  useCount a ha := by
    obtain ⟨x, hx, hkey, hitem, e, e', hat⟩ := h.rename ha
    have hname : x.key.2 = a.name := congrArg Prod.snd hkey
    refine ⟨⟨x.count, e, renamed a.base x.key.2 a.index⟩, hitem ▸ hat.rename, rfl, hname, ?_⟩
    have hcount := (h.accounts.counted x hx).2
    rw [hkey, hitem, List.count, List.countP_map] at hcount
    show (x.count : Int) = _
    rw [hcount, List.countP_congr]
    intro c hc
    simp only [Function.comp_apply, beq_iff_eq, decide_eq_true_eq]
    exact ⟨fun he => (Prod.ext_iff.mp he).2, fun he => h.pair_eq ha hc he⟩
  base x R hR := by
    obtain ⟨y, hy, rfl⟩ := h.represents.renames x R hR
    obtain ⟨hpos, hcount⟩ := h.accounts.counted y hy
    rw [hcount] at hpos
    obtain ⟨a, ha, hpair⟩ := List.mem_map.mp (List.count_pos_iff.mp hpos)
    have hitem : a.rename = y.item := (Prod.ext_iff.mp hpair).2
    obtain ⟨z, hz, hkey, hzitem, e, e', hat⟩ := h.rename ha
    obtain rfl := eq_of_map_nodup h.accounts.items hz hy (hzitem.trans hitem)
    rw [hat.rename, Option.some.injEq] at hR
    subst hR
    exact ⟨a, ha, hitem, _, hat.baseEntry, rfl, rfl,
      mem_itemsOf.mpr ⟨z, hz, congrArg Prod.fst hkey, rfl⟩⟩
  empty hempty := by
    have haccounts := h.accounts
    rw [hempty] at haccounts
    obtain rfl := haccounts.eq_nil
    -- every entry in the table is that of a rename in use, and there is none
    have hslot : ∀ i, run.registry.registry.get i = none := by
      intro i
      cases hi : run.registry.registry.get i with
      | none => rfl
      | some e =>
          obtain ⟨_, _, hs⟩ := h.represents.slots i e hi
          obtain ⟨x, hx, _⟩ := hs.resolve_left (by simp)
          cases hx
    refine ⟨hslot, fun x => ⟨?_, ?_⟩⟩
    · cases hE : run.registry.registries x with
      | none => rfl
      | some E =>
          have := h.represents.registries x E hE
          rw [hslot] at this
          cases this
    · cases hR : run.registry.renames x with
      | none => rfl
      | some R =>
          obtain ⟨y, hy, _⟩ := h.represents.renames x R hR
          cases hy
  acquires s b hs rename := by
    obtain ⟨r', new, hnew, _⟩ :=
      renameNew_represents h.represents h.accounts.items (h.live hs) rename
    exact ⟨_, r', hnew⟩
  frees a ha := by
    obtain ⟨x, hx, _, hitem⟩ := h.mem ha
    obtain ⟨r', hfree, _⟩ := renameFree_represents h.represents h.accounts.keys h.accounts.items hx
      (h.accounts.counted x hx).1
    exact ⟨r', hitem ▸ hfree⟩

/-- **The registry is in order in every state of every run.** -/
theorem registry_inOrder (h : run.Reachable) : run.InOrder := by
  obtain ⟨table, htable⟩ := h.inv
  exact htable.inOrder

/-! ## A rename that was given back -/

/-- The state a call leaves. -/
def stateAfter {α : Type} (m : RegistryM α) (r : RenamingRegistry) : RenamingRegistry :=
  match m r with
  | .ok p => p.2
  | .error _ => r

/-- A sample type that has no index yet. -/
def unsetSignature : Signature := .mk [97] (some [0x23]) 0 (.sigdefBytes 0x23 [] .sigdefEnd)

/-- It gets its index, … -/
def declared : RenamingRegistry := stateAfter (setLocalIndex unsetSignature) (registryInit 0x40)

/-- … is renamed, … -/
def acquired : RenamingRegistry := stateAfter (renameNew intSignature id) declared

/-- … the rename is given back, … -/
def freed : RenamingRegistry := stateAfter (renameFree 1) acquired

/-- … and acquired again. -/
def reacquired : RenamingRegistry := stateAfter (renameNew intSignature id) freed

/-- The two renames. -/
def firstRename : Acquisition := ⟨intSignature, [97], 1, 0x41⟩
def secondRename : Acquisition := ⟨intSignature, [97], 4, 0x42⟩

theorem acquired_reachable :
    RegistryRun.Reachable ⟨acquired, [intSignature], [firstRename], [firstRename]⟩ := by
  have hdeclare : RegistryStep .start ⟨declared, [intSignature], [], []⟩ :=
    .declare (s := unsetSignature) rfl
  have hacquire : RegistryStep ⟨declared, [intSignature], [], []⟩
      ⟨acquired, [intSignature], [firstRename], [firstRename]⟩ :=
    @RegistryStep.acquire _ intSignature intSignature (renamed intSignature [97] 0x41) id 1 acquired
      (.base (List.mem_singleton_self _)) rfl rfl
  exact (Relation.ReflTransGen.single hdeclare).tail hacquire

/-- The rename is acquired once more, … -/
def shared : RenamingRegistry := stateAfter (renameNew intSignature id) acquired

/-- … and then renamed itself. -/
def renamedTwice : RenamingRegistry :=
  stateAfter (renameNew (renamed intSignature [97] 0x41) (· ++ [98])) shared

/-- The rename of the rename. -/
def renameOfRename : Acquisition := ⟨intSignature, [97, 98], 3, 0x42⟩

theorem renamedTwice_reachable : RegistryRun.Reachable ⟨renamedTwice, [intSignature],
    [renameOfRename, firstRename, firstRename], [renameOfRename, firstRename, firstRename]⟩ := by
  have hshare : RegistryStep ⟨acquired, [intSignature], [firstRename], [firstRename]⟩
      ⟨shared, [intSignature], [firstRename, firstRename], [firstRename, firstRename]⟩ :=
    @RegistryStep.acquire _ intSignature intSignature (renamed intSignature [97] 0x41) id 1 shared
      (.base (List.mem_singleton_self _)) rfl rfl
  have hrename : RegistryStep
      ⟨shared, [intSignature], [firstRename, firstRename], [firstRename, firstRename]⟩
      ⟨renamedTwice, [intSignature], [renameOfRename, firstRename, firstRename],
        [renameOfRename, firstRename, firstRename]⟩ :=
    @RegistryStep.acquire _ (renamed intSignature [97] 0x41) intSignature
      (renamed intSignature [97, 98] 0x42) (· ++ [98]) 3 renamedTwice
      (.held (a := firstRename) List.mem_cons_self rfl) rfl rfl
  exact (acquired_reachable.tail hshare).tail hrename

/-- Two users of one rename, and a rename of it. -/
theorem registry_inOrder_acquired : RegistryRun.InOrder ⟨renamedTwice, [intSignature],
    [renameOfRename, firstRename, firstRename], [renameOfRename, firstRename, firstRename]⟩ :=
  registry_inOrder renamedTwice_reachable

/-- A rename that was given back is not the one acquired later under the same name. -/
theorem rename_index_changes : ∃ run : RegistryRun, run.Reachable ∧ ∃ a ∈ run.history,
    ∃ c ∈ run.history, a.base = c.base ∧ a.name = c.name ∧ a.index ≠ c.index := by
  have hfree : RegistryStep ⟨acquired, [intSignature], [firstRename], [firstRename]⟩
      ⟨freed, [intSignature], [], [firstRename]⟩ :=
    .free (a := firstRename) (List.mem_singleton_self _) rfl
  have hacquire : RegistryStep ⟨freed, [intSignature], [], [firstRename]⟩
      ⟨reacquired, [intSignature], [secondRename], [secondRename, firstRename]⟩ :=
    @RegistryStep.acquire _ intSignature intSignature (renamed intSignature [97] 0x42) id 4
      reacquired (.base (List.mem_singleton_self _)) rfl rfl
  refine ⟨_, (acquired_reachable.tail hfree).tail hacquire, firstRename, by simp, secondRename,
    by simp, rfl, rfl, by decide⟩

end LabComm.C
