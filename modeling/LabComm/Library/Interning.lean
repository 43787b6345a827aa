import Mathlib.Tactic

set_option autoImplicit false

/-! # A table of shared items with use counts

An item is asked for by a key. The first request for a key makes an item, later ones get the
same item and raise its count; when the count is back at 0 the item leaves the table. `Accounts`
ties the table to the list of what is held, one entry for each request not given back.
-/

namespace LabComm.Library

/-- An item of the table. -/
structure Interned (κ α : Type) where
  key : κ
  item : α
  count : Nat

variable {κ α : Type} {table : List (Interned κ α)}

theorem eq_of_map_nodup {β : Type} {f : Interned κ α → β} (h : (table.map f).Nodup)
    {x y : Interned κ α} (hx : x ∈ table) (hy : y ∈ table) (hxy : f x = f y) : x = y :=
  List.inj_on_of_nodup_map h hx hy hxy

/-! ## Accounts -/

section Accounts

variable [BEq (κ × α)]

/-- No two entries have the same key or the same item, and the counts are those of what is
held. -/
structure Accounts (table : List (Interned κ α)) (held : List (κ × α)) : Prop where
  keys : (table.map Interned.key).Nodup
  items : (table.map Interned.item).Nodup
  counted : ∀ x ∈ table, 0 < x.count ∧ x.count = held.count (x.key, x.item)
  held : ∀ h ∈ held, ∃ x ∈ table, (x.key, x.item) = h

variable {held : List (κ × α)}

theorem Accounts.nil : Accounts ([] : List (Interned κ α)) [] :=
  ⟨List.nodup_nil, List.nodup_nil, by simp, by simp⟩

/-- What is held under one key is one item, and an item is held under one key. -/
theorem Accounts.item_eq_iff (h : Accounts table held) {a b : κ × α} (ha : a ∈ held)
    (hb : b ∈ held) : a.1 = b.1 ↔ a.2 = b.2 := by
  obtain ⟨x, hx, rfl⟩ := h.held a ha
  obtain ⟨y, hy, rfl⟩ := h.held b hb
  constructor
  · intro hkey
    rw [eq_of_map_nodup h.keys hx hy hkey]
  · intro hitem
    rw [eq_of_map_nodup h.items hx hy hitem]

/-- When nothing is held the table is empty. -/
theorem Accounts.eq_nil (h : Accounts table ([] : List (κ × α))) : table = [] := by
  rw [List.eq_nil_iff_forall_not_mem]
  intro x hx
  have := h.counted x hx
  rw [List.count_nil] at this
  omega

/-- One of the records of what is held is taken out. -/
theorem map_eraseP [LawfulBEq (κ × α)] {β : Type} {f : β → κ × α} {p : β → Bool} {l : List β} {a : β}
    (h : ∀ c ∈ l, p c = true ↔ f c = f a) : (l.eraseP p).map f = (l.map f).erase (f a) := by
  induction l with
  | nil => rfl
  | cons c l ih =>
      have hc := h c List.mem_cons_self
      have hrest := ih fun d hd => h d (List.mem_cons_of_mem _ hd)
      by_cases hp : p c = true
      · rw [List.eraseP_cons_of_pos hp, List.map_cons, hc.mp hp, List.erase_cons_head]
      · have hne : f c ≠ f a := fun he => hp (hc.mpr he)
        rw [List.eraseP_cons_of_neg hp, List.map_cons, List.map_cons,
          List.erase_cons_tail (by simpa using hne), hrest]

end Accounts

/-! ## Counts -/

variable [DecidableEq α]

/-- Another count for one item. -/
def setCount (table : List (Interned κ α)) (item : α) (n : Nat) : List (Interned κ α) :=
  table.map fun y => if y.item = item then { y with count := n } else y

@[simp] theorem map_key_setCount (item : α) (n : Nat) :
    (setCount table item n).map Interned.key = table.map Interned.key := by
  unfold setCount
  rw [List.map_map]
  apply List.map_congr_left
  intro y _
  simp only [Function.comp_apply]
  split <;> rfl

@[simp] theorem map_item_setCount (item : α) (n : Nat) :
    (setCount table item n).map Interned.item = table.map Interned.item := by
  unfold setCount
  rw [List.map_map]
  apply List.map_congr_left
  intro y _
  simp only [Function.comp_apply]
  split <;> rfl

/-- The entries of a table with another count are those of the table. -/
theorem mem_setCount {item : α} {n : Nat} {y : Interned κ α} :
    y ∈ setCount table item n ↔
      ∃ x ∈ table, y = if x.item = item then { x with count := n } else x := by
  unfold setCount
  rw [List.mem_map]
  constructor
  · rintro ⟨x, hx, rfl⟩
    exact ⟨x, hx, rfl⟩
  · rintro ⟨x, hx, rfl⟩
    exact ⟨x, hx, rfl⟩

variable [BEq (κ × α)] [LawfulBEq (κ × α)] {held : List (κ × α)}

/-- The count of an item changes with what is held of it. -/
theorem Accounts.setCount (h : Accounts table held) {x : Interned κ α} (hx : x ∈ table)
    {n : Nat} (hn : 0 < n) {held' : List (κ × α)} (hcount : n = held'.count (x.key, x.item))
    (hother : ∀ a, a ≠ (x.key, x.item) → held'.count a = held.count a) :
    Accounts (setCount table x.item n) held' := by
  refine ⟨by rw [map_key_setCount]; exact h.keys, by rw [map_item_setCount]; exact h.items, ?_, ?_⟩
  · intro y hy
    obtain ⟨z, hz, rfl⟩ := mem_setCount.mp hy
    by_cases hzx : z.item = x.item
    · obtain rfl := eq_of_map_nodup h.items hz hx hzx
      simp only [if_true]
      exact ⟨hn, hcount⟩
    · rw [if_neg hzx, hother _ (fun he => hzx (Prod.ext_iff.mp he).2)]
      exact h.counted z hz
  · intro a ha
    have hheld : ∃ z ∈ table, (z.key, z.item) = a := by
      by_cases hax : a = (x.key, x.item)
      · exact ⟨x, hx, hax.symm⟩
      · apply h.held
        rw [← List.count_pos_iff, ← hother a hax]
        exact List.count_pos_iff.mpr ha
    obtain ⟨z, hz, rfl⟩ := hheld
    refine ⟨_, mem_setCount.mpr ⟨z, hz, rfl⟩, ?_⟩
    split <;> rfl

/-! ## Giving back -/

/-- One use of an item is given back. -/
def release (table : List (Interned κ α)) (x : Interned κ α) : List (Interned κ α) :=
  if x.count = 1 then table.filter (fun y => y.item ≠ x.item)
  else setCount table x.item (x.count - 1)

/-- Giving back what is held keeps the accounts. -/
theorem Accounts.release (h : Accounts table held) {x : Interned κ α} (hx : x ∈ table) :
    Accounts (release table x) (held.erase (x.key, x.item)) := by
  obtain ⟨hpos, hcount⟩ := h.counted x hx
  unfold Library.release
  split
  · rename_i hone
    have hsub : ∀ y, y ∈ table.filter (fun y => y.item ≠ x.item) ↔
        y ∈ table ∧ y.item ≠ x.item := by simp
    refine ⟨h.keys.sublist (List.filter_sublist.map _), h.items.sublist (List.filter_sublist.map _),
      ?_, ?_⟩
    · intro y hy
      obtain ⟨hy, hne⟩ := (hsub y).mp hy
      have hpair : (x.key, x.item) ≠ (y.key, y.item) := fun he => hne (Prod.ext_iff.mp he).2.symm
      rw [List.count_erase_of_ne hpair.symm]
      exact h.counted y hy
    · intro a ha
      have hne : a ≠ (x.key, x.item) := by
        rintro rfl
        have := List.count_pos_iff.mpr ha
        rw [List.count_erase_self] at this
        omega
      obtain ⟨y, hy, rfl⟩ := h.held a (List.mem_of_mem_erase ha)
      refine ⟨y, (hsub y).mpr ⟨hy, fun he => ?_⟩, rfl⟩
      rw [eq_of_map_nodup h.items hy hx he] at hne
      exact hne rfl
  · refine h.setCount hx (by omega) ?_ ?_
    · rw [List.count_erase_self, ← hcount]
    · intro a ha
      rw [List.count_erase_of_ne ha]

/-! ## Requests -/

variable [DecidableEq κ]

/-- The item of a key; `new` is made if there is none yet. -/
def acquire (table : List (Interned κ α)) (key : κ) (new : α) : α × List (Interned κ α) :=
  match table.find? (fun x => x.key = key) with
  | some x => (x.item, setCount table x.item (x.count + 1))
  | none => (new, table ++ [⟨key, new, 1⟩])

/-- A request keeps the accounts. -/
theorem Accounts.acquire (h : Accounts table held) (key : κ) {new : α}
    (hnew : new ∉ table.map Interned.item) :
    Accounts (acquire table key new).2 ((key, (acquire table key new).1) :: held) := by
  unfold Library.acquire
  cases hfind : table.find? (fun x => x.key = key) with
  | some x =>
      -- the key is there: one more of its item
      have hx : x ∈ table := List.mem_of_find?_eq_some hfind
      obtain rfl : x.key = key := by simpa using List.find?_some hfind
      refine h.setCount hx (by omega) ?_ ?_
      · rw [List.count_cons_self, ← (h.counted x hx).2]
      · intro a ha
        rw [List.count_cons_of_ne ha.symm]
  | none =>
      -- the key is new, and nobody holds its item
      have hkey : ∀ x ∈ table, x.key ≠ key := by
        simpa using List.find?_eq_none.mp hfind
      have hunheld : (key, new) ∉ held := by
        intro hmem
        obtain ⟨x, hx, he⟩ := h.held _ hmem
        exact hkey x hx (Prod.ext_iff.mp he).1
      refine ⟨?_, ?_, ?_, ?_⟩
      · rw [List.map_append, List.nodup_append]
        refine ⟨h.keys, List.nodup_singleton _, ?_⟩
        intro k hk k' hk'
        obtain ⟨x, hx, rfl⟩ := List.mem_map.mp hk
        obtain rfl : k' = key := by simpa using hk'
        exact hkey x hx
      · rw [List.map_append, List.nodup_append]
        refine ⟨h.items, List.nodup_singleton _, ?_⟩
        intro a ha b hb
        obtain rfl : b = new := by simpa using hb
        exact fun he => hnew (he ▸ ha)
      · intro y hy
        rcases List.mem_append.mp hy with hy | hy
        · have hne : (key, new) ≠ (y.key, y.item) := fun he => hkey y hy (Prod.ext_iff.mp he).1.symm
          rw [List.count_cons_of_ne hne]
          exact h.counted y hy
        · obtain rfl : y = ⟨key, new, 1⟩ := by simpa using hy
          rw [List.count_cons_self, List.count_eq_zero_of_not_mem hunheld]
          exact ⟨Nat.one_pos, rfl⟩
      · intro a ha
        rcases List.mem_cons.mp ha with rfl | ha
        · exact ⟨⟨key, new, 1⟩, by simp, rfl⟩
        · obtain ⟨x, hx, he⟩ := h.held a ha
          exact ⟨x, List.mem_append_left _ hx, he⟩

end LabComm.Library
