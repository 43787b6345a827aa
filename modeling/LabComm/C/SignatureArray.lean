import Mathlib.Tactic

set_option autoImplicit false

/-! # Arrays indexed by signature index

`LABCOMM_SIGNATURE_ARRAY`: the entries of the indices from `first` up to `last`, in an array
that grows in both directions when an entry outside is asked for. New entries are zero, and
reading outside gives the same zero, so that the array is a total map (`SigArray.get`) that
growing does not change (`SigArray.get_ref`). That is what the code computes as long as every
access fits (`SigArray.Fits`): the number of bytes is an `int`, and memory may run out.
-/

namespace LabComm.C

/-- `LABCOMM_SIGNATURE_ARRAY_DEF`; the zero of the entries is their `default`. -/
structure SigArray (α : Type) where
  first : Int
  last : Int
  data : List α
  size : (data.length : Int) = last - first

variable {α : Type} [Inhabited α]

/-- `LABCOMM_SIGNATURE_ARRAY_INIT` -/
def SigArray.init : SigArray α := ⟨0, 0, [], rfl⟩

/-- `LABCOMM_SIGNATURE_ARRAY_GET`, where `nomatch` is the zero of the entries. -/
def SigArray.get (t : SigArray α) (index : Int) : α :=
  if t.first ≤ index ∧ index < t.last then t.data.getD (index - t.first).toNat default
  else default

/-- `labcomm2014_signature_array_ref`: the array with an entry for `index`. -/
def SigArray.ref (t : SigArray α) (index : Int) : SigArray α :=
  if t.first = 0 ∧ t.last = 0 then
    ⟨index, index + 1, [default], by simp⟩
  else if h : index < t.first ∨ t.last ≤ index then
    let first := if index < t.first then index else t.first
    let last := if t.last ≤ index then index + 1 else t.last
    ⟨first, last,
      List.replicate (t.first - first).toNat default ++ t.data ++
        List.replicate (last - t.last).toNat default, by
      have := t.size
      simp only [List.length_append, List.length_replicate, first, last]
      split <;> split <;> omega⟩
  else t

/-- A store through the pointer that `LABCOMM_SIGNATURE_ARRAY_REF` returns. -/
def SigArray.set (t : SigArray α) (index : Int) (x : α) : SigArray α :=
  let t := t.ref index
  ⟨t.first, t.last, t.data.set (index - t.first).toNat x, by rw [List.length_set]; exact t.size⟩

/-- The bytes of the entries. -/
def SigArray.bytes (size : Nat) (t : SigArray α) : Int := (t.last - t.first) * size

/-- There is no entry for the index yet. -/
def SigArray.Grows (t : SigArray α) (index : Int) : Prop :=
  (t.first = 0 ∧ t.last = 0) ∨ index < t.first ∨ t.last ≤ index

/-- The access to an array of entries of `size` bytes can be computed with `int`s, and there is
memory if the array has to grow for it. -/
def SigArray.Fits (size : Nat) (memory : Nat → Bool) (t : SigArray α) (index : Int) : Prop :=
  (t.ref index).last < 2 ^ 31 ∧ (t.ref index).bytes size < 2 ^ 31 ∧
    (t.Grows index → memory ((t.ref index).bytes size).toNat = true)

instance (t : SigArray α) (index : Int) : Decidable (t.Grows index) :=
  inferInstanceAs (Decidable (_ ∨ _))

instance (size : Nat) (memory : Nat → Bool) (t : SigArray α) (index : Int) :
    Decidable (t.Fits size memory index) := inferInstanceAs (Decidable (_ ∧ _ ∧ (_ → _)))

/-- The indices `LABCOMM_SIGNATURE_ARRAY_FOREACH` runs over, in order. -/
def SigArray.indices (t : SigArray α) : List Int :=
  (List.range t.data.length).map fun k : Nat => t.first + k

/-! ## The map -/

@[simp] theorem SigArray.get_init (i : Int) : (SigArray.init : SigArray α).get i = default := by
  simp [SigArray.get, SigArray.init]

/-- The entry of index `i` of a list whose first entry has index `first`. -/
def entry (first : Int) (data : List α) (i : Int) : α :=
  if first ≤ i then data.getD (i - first).toNat default else default

theorem SigArray.get_eq_entry (t : SigArray α) (i : Int) : t.get i = entry t.first t.data i := by
  have := t.size
  rw [SigArray.get, entry]
  by_cases h0 : t.first ≤ i
  · by_cases h1 : i < t.last
    · rw [if_pos ⟨h0, h1⟩, if_pos h0]
    · rw [if_neg (by omega), if_pos h0, List.getD_eq_getElem?_getD,
        List.getElem?_eq_none (by omega)]
      rfl
  · rw [if_neg (by omega), if_neg h0]

theorem entry_append_zeros (first : Int) (data : List α) (k : Nat) (i : Int) :
    entry first (data ++ List.replicate k default) i = entry first data i := by
  simp only [entry, List.getD_eq_getElem?_getD, List.getElem?_append, List.getElem?_replicate]
  split
  · split
    · rfl
    · rename_i h
      rw [List.getElem?_eq_none (l := data) (by omega)]
      split <;> rfl
  · rfl

theorem entry_zeros_append (first : Int) (data : List α) (k : Nat) (i : Int) :
    entry (first - k) (List.replicate k default ++ data) i = entry first data i := by
  simp only [entry, List.getD_eq_getElem?_getD, List.getElem?_append, List.getElem?_replicate,
    List.length_replicate]
  by_cases h0 : first ≤ i
  · have hk : (i - (first - k)).toNat = (i - first).toNat + k := by omega
    rw [if_pos h0, if_pos (by omega), hk, if_neg (by omega), Nat.add_sub_cancel]
  · rw [if_neg h0]
    split
    · rw [if_pos (by omega), if_pos (by omega)]
      rfl
    · rfl

theorem SigArray.ref_bounds (t : SigArray α) (index : Int) :
    (t.ref index).first ≤ index ∧ index < (t.ref index).last := by
  rw [SigArray.ref]
  split
  · simp
  · split
    · dsimp only
      split <;> split <;> omega
    · omega

/-- Growing leaves the map as it is. -/
@[simp] theorem SigArray.get_ref (t : SigArray α) (index i : Int) :
    (t.ref index).get i = t.get i := by
  have hsize := t.size
  rw [SigArray.get_eq_entry, SigArray.get_eq_entry, SigArray.ref]
  split
  · -- the empty array gets its first entry
    have hnil : t.data = [] := List.eq_nil_of_length_eq_zero (by omega)
    rw [hnil]
    simp only [entry, List.getD_nil, ite_self]
    split
    · rcases (i - index).toNat with _ | n <;> rfl
    · rfl
  · split
    · dsimp only
      rw [entry_append_zeros]
      by_cases hlt : index < t.first
      · have hk : index = t.first - ((t.first - index).toNat : Nat) := by omega
        simp only [if_pos hlt]
        conv_lhs => rw [hk]
        rw [show t.first - (t.first - ((t.first - index).toNat : Nat)) =
          ((t.first - index).toNat : Nat) by omega, Int.toNat_natCast]
        exact entry_zeros_append _ _ _ _
      · simp only [if_neg hlt, Int.sub_self, Int.toNat_zero, List.replicate_zero,
          List.nil_append]
    · rfl

/-- A store changes the entry it is made to and no other. -/
theorem SigArray.get_set (t : SigArray α) (index i : Int) (x : α) :
    (t.set index x).get i = if i = index then x else t.get i := by
  have hb := t.ref_bounds index
  have hsize := (t.ref index).size
  rw [← SigArray.get_ref t index i, SigArray.get_eq_entry, SigArray.get_eq_entry, SigArray.set]
  simp only [entry, List.getD_eq_getElem?_getD, List.getElem?_set]
  by_cases hi : i = index
  · subst hi
    rw [if_pos hb.1, if_pos rfl, if_pos rfl, if_pos (by omega)]
    rfl
  · rw [if_neg hi]
    split
    · rw [if_neg (by omega)]
    · rfl

@[simp] theorem SigArray.get_set_self (t : SigArray α) (index : Int) (x : α) :
    (t.set index x).get index = x := by
  rw [SigArray.get_set, if_pos rfl]

theorem SigArray.get_set_ne (t : SigArray α) {index i : Int} (h : i ≠ index) (x : α) :
    (t.set index x).get i = t.get i := by
  rw [SigArray.get_set, if_neg h]

theorem SigArray.ref_of_bounds {t : SigArray α} {index : Int} (h : t.first ≤ index)
    (h' : index < t.last) : t.ref index = t := by
  rw [SigArray.ref, if_neg (by omega), dif_neg (by omega)]

/-- A store makes the entry it needs, so the next access to it fits too. -/
theorem SigArray.Fits.set {size : Nat} {memory : Nat → Bool} {t : SigArray α} {index : Int}
    (h : t.Fits size memory index) (x : α) : (t.set index x).Fits size memory index := by
  obtain ⟨hfirst, hlast⟩ := t.ref_bounds index
  have href : (t.set index x).ref index = t.set index x :=
    SigArray.ref_of_bounds (show (t.ref index).first ≤ index from hfirst)
      (show index < (t.ref index).last from hlast)
  have hbounds : (t.set index x).first = (t.ref index).first ∧
      (t.set index x).last = (t.ref index).last := ⟨rfl, rfl⟩
  rw [SigArray.Fits, href]
  refine ⟨h.1, h.2.1, fun hgrows => ?_⟩
  unfold SigArray.Grows at hgrows
  omega

omit [Inhabited α] in
/-- The loop visits every index between the bounds. -/
theorem SigArray.mem_indices {t : SigArray α} {i : Int} (h : t.first ≤ i ∧ i < t.last) :
    i ∈ t.indices := by
  have := t.size
  have hlt : (i - t.first).toNat < t.data.length := by omega
  rw [SigArray.indices, List.mem_map]
  exact ⟨(i - t.first).toNat, List.mem_range.mpr hlt, by omega⟩

/-- An entry that is not zero is between the bounds. -/
theorem SigArray.mem_indices_of_ne {t : SigArray α} {i : Int} (h : t.get i ≠ default) :
    i ∈ t.indices := by
  apply SigArray.mem_indices
  by_contra hout
  exact h (by rw [SigArray.get, if_neg hout])

omit [Inhabited α] in
/-- A loop that looks for an entry finds it when there is no other. -/
theorem SigArray.find?_indices {t : SigArray α} {p : Int → Bool} {i : Int} (hi : i ∈ t.indices)
    (hp : p i = true) (honly : ∀ j, p j = true → j = i) : t.indices.find? p = some i := by
  cases hfind : t.indices.find? p with
  | none => exact absurd hp (List.find?_eq_none.mp hfind i hi)
  | some j => rw [honly j (List.find?_some hfind)]

end LabComm.C
