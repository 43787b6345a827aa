import LabComm.Library.Int32

set_option autoImplicit false

/-! # The growth of signature arrays

`labcomm2014_signature_array_ref` as it computes: the indices and the number of bytes are `int`s
that wrap around, an allocation may fail, and `memset` and `memcpy` are undefined outside of what
was allocated. The accesses are safe in every run that stays within the range of an `int` and does
not grow an array that an allocation failed for (`tableRun_safe`).
-/

namespace LabComm.C

open Library

/-! ## Memory -/

/-- The width of `size_t`. -/
inductive SizeT where
  | bits32
  | bits64
  deriving DecidableEq

def SizeT.bits : SizeT → Nat
  | bits32 => 32
  | bits64 => 64

/-- The `size_t` that an `int` is converted to. -/
def SizeT.ofInt (w : SizeT) (i : Int32) : Nat := (i.toInt % 2 ^ w.bits).toNat

/-- What an allocation returns: null, or memory that is filled with something. -/
inductive Allocation where
  | fails
  | returns (junk : UInt8)
  deriving DecidableEq

/-- `labcomm2014_memory_alloc`, with what the memory holds. -/
def Allocation.memoryAlloc (size : Nat) : Allocation → Option (List UInt8)
  | fails => none
  | returns junk => some (List.replicate size junk)

/-- Some bytes are stored in a block; there is no result if they are not all inside. -/
def storeBytes (block : List UInt8) (offset : Int) (bytes : List UInt8) : Option (List UInt8) :=
  if 0 ≤ offset ∧ offset + bytes.length ≤ block.length then
    some (block.take offset.toNat ++ bytes ++ block.drop (offset.toNat + bytes.length))
  else none

/-- `memset(block, 0, size)` -/
def memset (block : List UInt8) (size : Nat) : Option (List UInt8) :=
  storeBytes block 0 (List.replicate size 0)

/-- `memcpy(block + offset, source, size)`, where `source` may be null. -/
def memcpy (block : List UInt8) (offset : Int) (source : Option (List UInt8)) (size : Nat) :
    Option (List UInt8) :=
  match source with
  | none => if size = 0 then some block else none
  | some old => if size ≤ old.length then storeBytes block offset (old.take size) else none

/-! ## Signature arrays -/

/-- `LABCOMM_SIGNATURE_ARRAY_DEF`, with what is at `data`. -/
structure SignatureArray where
  first : Int32
  last : Int32
  data : Option (List UInt8)
  deriving DecidableEq

/-- `LABCOMM_SIGNATURE_ARRAY_INIT` -/
def SignatureArray.init : SignatureArray := ⟨0, 0, none⟩

/-- The test for an array that was not used. -/
def SignatureArray.Unused (t : SignatureArray) : Prop := t.first = 0 ∧ t.last = 0

/-- The test for an index that needs a larger array. -/
def SignatureArray.Outside (t : SignatureArray) (index : Int32) : Prop :=
  index < t.first ∨ t.last ≤ index

instance (t : SignatureArray) : Decidable t.Unused := inferInstanceAs (Decidable (_ ∧ _))

instance (t : SignatureArray) (index : Int32) : Decidable (t.Outside index) :=
  inferInstanceAs (Decidable (_ ∨ _))

/-- The first branch: the array gets its first entry. -/
def SignatureArray.start (w : SizeT) (size index : Int32) (answer : Allocation) :
    Option SignatureArray := do
  match answer.memoryAlloc (w.ofInt size) with
  | none => some ⟨index, index + 1, none⟩
  | some block =>
      let data ← memset block (w.ofInt size)
      some ⟨index, index + 1, some data⟩

/-- `*first` in the second branch. -/
def SignatureArray.newFirst (t : SignatureArray) (index : Int32) : Int32 :=
  if index < t.first then index else t.first

/-- `*last` in the second branch. -/
def SignatureArray.newLast (t : SignatureArray) (index : Int32) : Int32 :=
  if t.last ≤ index then index + 1 else t.last

/-- The second branch: the entries are copied to a larger array; the old one is freed whether there
is a new one or not. -/
def SignatureArray.grow (w : SizeT) (size : Int32) (t : SignatureArray) (index : Int32)
    (answer : Allocation) : Option SignatureArray := do
  let first := t.newFirst index
  let last := t.newLast index
  let n := last - first
  match answer.memoryAlloc (w.ofInt (n * size)) with
  | none => some ⟨first, last, none⟩
  | some block =>
      let zeroed ← memset block (w.ofInt (n * size))
      let data ← memcpy zeroed ((t.first - first) * size).toInt t.data
        (w.ofInt ((t.last - t.first) * size))
      some ⟨first, last, some data⟩

/-- The array in which the entry of `index` is. -/
def SignatureArray.refTable (w : SizeT) (size : Int32) (t : SignatureArray) (index : Int32)
    (answer : Allocation) : Option SignatureArray :=
  if t.Unused then start w size index answer
  else if t.Outside index then t.grow w size index answer
  else some t

/-- The offset of the entry of `index`, as it is computed. -/
def SignatureArray.slot (size : Int32) (t : SignatureArray) (index : Int32) : Int :=
  ((index - t.first) * size).toInt

/-- `labcomm2014_signature_array_ref`: the array, and the offset in `data` of the pointer that is
returned, which may be null. There is no result if memory outside of an allocation is accessed. -/
def SignatureArray.ref (w : SizeT) (size : Int32) (t : SignatureArray) (index : Int32)
    (answer : Allocation) : Option (SignatureArray × Option Int) := do
  let t ← t.refTable w size index answer
  some (t, t.data.map fun _ => t.slot size index)

/-! ## Arithmetic without overflow -/

theorem toInt_add_eq {a b : Int32} (h0 : -2 ^ 31 ≤ a.toInt + b.toInt)
    (h1 : a.toInt + b.toInt < 2 ^ 31) : (a + b).toInt = a.toInt + b.toInt := by
  rw [Int32.toInt_add]
  exact wrap32_of_lt h0 h1

theorem toInt_sub_eq {a b : Int32} (h0 : -2 ^ 31 ≤ a.toInt - b.toInt)
    (h1 : a.toInt - b.toInt < 2 ^ 31) : (a - b).toInt = a.toInt - b.toInt := by
  rw [Int32.toInt_sub]
  exact wrap32_of_lt h0 h1

theorem toInt_mul_eq {a b : Int32} (h0 : -2 ^ 31 ≤ a.toInt * b.toInt)
    (h1 : a.toInt * b.toInt < 2 ^ 31) : (a * b).toInt = a.toInt * b.toInt := by
  rw [Int32.toInt_mul]
  exact wrap32_of_lt h0 h1

theorem SizeT.ofInt_eq (w : SizeT) {i : Int32} (h : 0 ≤ i.toInt) : (w.ofInt i : Int) = i.toInt := by
  have hlt := i.toInt_lt
  have hmod : i.toInt % 2 ^ w.bits = i.toInt := by
    apply Int.emod_eq_of_lt h
    cases w <;> simp only [SizeT.bits] <;> omega
  rw [SizeT.ofInt, hmod, Int.toNat_of_nonneg h]

/-- `sizeof` of the entries of an array. -/
structure Kind where
  size : Nat
  pos : 0 < size
  fits : size < 2 ^ 31

/-- The argument `size`. -/
def Kind.int (k : Kind) : Int32 := Int32.ofNat k.size

@[simp] theorem Kind.toInt_int (k : Kind) : k.int.toInt = k.size :=
  Int32.toInt_ofNat_of_lt k.fits

/-- A number of entries, and of their bytes, that an `int` can hold. -/
theorem bytes_eq (k : Kind) {a b : Int32} (h0 : b.toInt ≤ a.toInt)
    (h1 : (a.toInt - b.toInt) * k.size < 2 ^ 31) :
    ((a - b) * k.int).toInt = (a.toInt - b.toInt) * k.size := by
  have hpos := k.pos
  have hnonneg : 0 ≤ (a.toInt - b.toInt) * (k.size : Int) := by
    apply Int.mul_nonneg <;> omega
  have hle : a.toInt - b.toInt ≤ (a.toInt - b.toInt) * (k.size : Int) := by
    nlinarith
  have hsub : (a - b).toInt = a.toInt - b.toInt := toInt_sub_eq (by omega) (by omega)
  have hmul := toInt_mul_eq (a := a - b) (b := k.int) (by rw [hsub, k.toInt_int]; omega)
    (by rw [hsub, k.toInt_int]; omega)
  rw [hmul, hsub, k.toInt_int]

/-! ## Stores inside a block -/

theorem storeBytes_eq (before old after bytes : List UInt8) {offset : Int}
    (hoffset : offset = before.length) (hlength : bytes.length = old.length) :
    storeBytes (before ++ old ++ after) offset bytes = some (before ++ bytes ++ after) := by
  subst hoffset
  have htake : (before ++ old ++ after).take before.length = before := by simp
  have hdrop : (before ++ old ++ after).drop (before.length + old.length) = after := by
    rw [← List.length_append, List.drop_left]
  rw [storeBytes, if_pos ⟨by omega, by simp only [List.length_append]; omega⟩, Int.toNat_natCast,
    hlength, htake, hdrop]

/-- All of a new block is set to zero. -/
theorem memset_alloc (size : Nat) (junk : UInt8) :
    memset (List.replicate size junk) size = some (List.replicate size 0) := by
  have h := storeBytes_eq [] (List.replicate size junk) [] (List.replicate size 0)
    (show (0 : Int) = _ from rfl) (by simp)
  simpa [memset] using h

/-- A block is copied to the middle of zeros. -/
theorem memcpy_zeros (before after : Nat) (old : List UInt8) :
    memcpy (List.replicate (before + old.length + after) 0) before (some old) old.length =
      some (List.replicate before 0 ++ old ++ List.replicate after 0) := by
  have h := storeBytes_eq (List.replicate before 0) (List.replicate old.length 0)
    (List.replicate after 0) old (show (before : Int) = _ by simp) (by simp)
  rw [List.replicate_append_replicate, List.replicate_append_replicate] at h
  rw [memcpy, if_pos le_rfl, List.take_length, h]

/-! ## Accesses that fit -/

/-- Where the array is to begin after an access. -/
def SignatureArray.low (t : SignatureArray) (index : Int32) : Int :=
  if t.Unused then index.toInt else min t.first.toInt index.toInt

/-- Where it is to end. -/
def SignatureArray.high (t : SignatureArray) (index : Int32) : Int :=
  if t.Unused then index.toInt + 1 else max t.last.toInt (index.toInt + 1)

/-- The access can be computed with `int`s, and there is something to copy when there is something
to copy it to. -/
structure AccessFits (k : Kind) (t : SignatureArray) (index : Int32) (answer : Allocation) :
    Prop where
  last : t.high index < 2 ^ 31
  extent : (t.high index - t.low index) * k.size < 2 ^ 31
  copied : ¬ t.Unused → t.Outside index → t.data = none → answer = .fails

/-- What holds of an array while all accesses fit. -/
structure Sound (k : Kind) (t : SignatureArray) : Prop where
  unused : t.Unused → t.data = none
  used : ¬ t.Unused → t.first.toInt < t.last.toInt
  extent : (t.last.toInt - t.first.toInt) * k.size < 2 ^ 31
  allocated : ∀ block, t.data = some block →
    (block.length : Int) = (t.last.toInt - t.first.toInt) * k.size

theorem sound_init (k : Kind) : Sound k .init where
  unused _ := rfl
  used h := absurd ⟨rfl, rfl⟩ h
  extent := by
    show ((0 : Int32).toInt - (0 : Int32).toInt) * (k.size : Int) < 2 ^ 31
    simp
  allocated block h := by cases h

/-- What an access makes of the data. -/
def SignatureArray.refData (k : Kind) (t : SignatureArray) (index : Int32) (answer : Allocation) :
    Option (List UInt8) :=
  if t.Unused then
    match answer with
    | .fails => none
    | .returns _ => some (List.replicate k.size 0)
  else if t.Outside index then
    match answer with
    | .fails => none
    | .returns _ => t.data.map fun old =>
        List.replicate ((t.first.toInt - t.low index) * k.size).toNat 0 ++ old ++
          List.replicate ((t.high index - t.last.toInt) * k.size).toNat 0
  else t.data

variable {k : Kind} {t : SignatureArray} {index : Int32} {answer : Allocation}

theorem toInt_succ (h : index.toInt + 1 < 2 ^ 31) : (index + 1).toInt = index.toInt + 1 := by
  have := index.le_toInt
  exact toInt_add_eq (b := 1) (by rw [show (1 : Int32).toInt = 1 from rfl]; omega) h

theorem Unused.start_eq (w : SizeT) (hu : t.Unused) (h : AccessFits k t index answer) :
    ∃ t', SignatureArray.start w k.int index answer = some t' ∧ t'.first.toInt = t.low index ∧
      t'.last.toInt = t.high index ∧ t'.data = t.refData k index answer := by
  have hlast := h.last
  rw [SignatureArray.high, if_pos hu] at hlast
  have hsize : w.ofInt k.int = k.size := by
    have := w.ofInt_eq (i := k.int) (by rw [k.toInt_int]; omega)
    rw [k.toInt_int] at this
    omega
  unfold SignatureArray.low SignatureArray.high SignatureArray.refData
  rw [if_pos hu, if_pos hu, if_pos hu]
  cases answer with
  | fails => exact ⟨_, rfl, rfl, toInt_succ hlast, rfl⟩
  | returns junk =>
      refine ⟨⟨index, index + 1, some (List.replicate k.size 0)⟩, ?_, rfl, toInt_succ hlast, rfl⟩
      rw [SignatureArray.start, hsize]
      simp only [Allocation.memoryAlloc, memset_alloc, Option.bind_eq_bind, Option.bind_some]

/-- The bounds of an array that was used already. -/
theorem grown_bounds (hu : ¬ t.Unused) (h : t.high index < 2 ^ 31) :
    (t.newFirst index).toInt = t.low index ∧ (t.newLast index).toInt = t.high index := by
  rw [SignatureArray.high, if_neg hu] at h
  rw [SignatureArray.low, SignatureArray.high, SignatureArray.newFirst, SignatureArray.newLast,
    if_neg hu, if_neg hu]
  constructor
  · split <;> rename_i hlt <;> rw [Int32.lt_iff_toInt_lt] at hlt <;> omega
  · split <;> rename_i hle <;> rw [Int32.le_iff_toInt_le] at hle
    · rw [toInt_succ (by omega)]
      omega
    · omega

/-- A number of bytes that is computed without overflow, as a `size_t`. -/
theorem size_eq (k : Kind) (w : SizeT) {a b : Int32} (h0 : b.toInt ≤ a.toInt)
    (h1 : (a.toInt - b.toInt) * k.size < 2 ^ 31) :
    (w.ofInt ((a - b) * k.int) : Int) = (a.toInt - b.toInt) * k.size := by
  have hbytes := bytes_eq k h0 h1
  have hnonneg : 0 ≤ (a.toInt - b.toInt) * (k.size : Int) := by
    apply Int.mul_nonneg <;> omega
  rw [w.ofInt_eq (by rw [hbytes]; exact hnonneg), hbytes]

theorem Sound.grow_eq (hs : Sound k t) (w : SizeT) (hu : ¬ t.Unused) (ho : t.Outside index)
    (h : AccessFits k t index answer) :
    ∃ t', t.grow w k.int index answer = some t' ∧ t'.first.toInt = t.low index ∧
      t'.last.toInt = t.high index ∧ t'.data = t.refData k index answer := by
  obtain ⟨hfirst, hlast⟩ := grown_bounds hu h.last
  unfold SignatureArray.refData
  rw [if_neg hu, if_pos ho]
  cases answer with
  | fails => exact ⟨_, rfl, hfirst, hlast, rfl⟩
  | returns junk =>
      obtain ⟨old, hold⟩ : ∃ old, t.data = some old :=
        Option.ne_none_iff_exists'.mp fun hnone => by cases h.copied hu ho hnone
      have hlength := hs.allocated old hold
      have hextent := h.extent
      have hused := hs.used hu
      have hlow : t.low index ≤ t.first.toInt := by
        rw [SignatureArray.low, if_neg hu]
        omega
      have hhigh : t.last.toInt ≤ t.high index := by
        rw [SignatureArray.high, if_neg hu]
        omega
      rw [SignatureArray.grow]
      generalize t.newFirst index = first at hfirst
      generalize t.newLast index = last at hlast
      -- the bytes before the old entries, the old ones and the ones after them
      have hsplit : (t.high index - t.low index) * (k.size : Int) =
          (t.first.toInt - t.low index) * k.size + (t.last.toInt - t.first.toInt) * k.size +
            (t.high index - t.last.toInt) * k.size := by ring
      have hbefore : 0 ≤ (t.first.toInt - t.low index) * (k.size : Int) := by
        apply Int.mul_nonneg <;> omega
      have hafter : 0 ≤ (t.high index - t.last.toInt) * (k.size : Int) := by
        apply Int.mul_nonneg <;> omega
      have hoffset := bytes_eq k (a := t.first) (b := first) (by omega) (by rw [hfirst]; omega)
      have holdSize := size_eq k w (a := t.last) (b := t.first) hused.le (by omega)
      have hsize := size_eq k w (a := last) (b := first) (by omega) (by rw [hfirst, hlast]; omega)
      rw [hfirst] at hoffset
      rw [hfirst, hlast] at hsize
      have hcopied : w.ofInt ((t.last - t.first) * k.int) = old.length := by omega
      have htotal : w.ofInt ((last - first) * k.int) =
          ((t.first.toInt - t.low index) * k.size).toNat + old.length +
            ((t.high index - t.last.toInt) * k.size).toNat := by omega
      have hcopy := memcpy_zeros ((t.first.toInt - t.low index) * k.size).toNat
        ((t.high index - t.last.toInt) * k.size).toNat old
      rw [Int.toNat_of_nonneg hbefore] at hcopy
      rw [hold, Option.map_some]
      generalize List.replicate _ (0 : UInt8) ++ old ++ List.replicate _ 0 = data at hcopy ⊢
      refine ⟨⟨first, last, some data⟩, ?_, hfirst, hlast, rfl⟩
      simp only [Allocation.memoryAlloc, memset_alloc, hcopied, htotal, Option.bind_eq_bind,
        Option.bind_some, hoffset, hcopy]

/-- The bounds do not change when the entry is there. -/
theorem inside_bounds (hu : ¬ t.Unused) (ho : ¬ t.Outside index) :
    t.low index = t.first.toInt ∧ t.high index = t.last.toInt := by
  rw [SignatureArray.Outside, Int32.lt_iff_toInt_lt, Int32.le_iff_toInt_le] at ho
  unfold SignatureArray.low SignatureArray.high
  rw [if_neg hu, if_neg hu]
  omega

/-- `t'` is the array after an access to `t`. -/
structure Accessed (k : Kind) (t : SignatureArray) (index : Int32) (answer : Allocation)
    (t' : SignatureArray) : Prop where
  first : t'.first.toInt = t.low index
  last : t'.last.toInt = t.high index
  data : t'.data = t.refData k index answer

theorem Sound.refTable_eq (hs : Sound k t) (w : SizeT) (h : AccessFits k t index answer) :
    ∃ t', t.refTable w k.int index answer = some t' ∧ Accessed k t index answer t' := by
  rw [SignatureArray.refTable]
  by_cases hu : t.Unused
  · obtain ⟨t', hstart, hfirst, hlast, hdata⟩ := Unused.start_eq w hu h
    rw [if_pos hu]
    exact ⟨t', hstart, hfirst, hlast, hdata⟩
  · rw [if_neg hu]
    by_cases ho : t.Outside index
    · obtain ⟨t', hgrow, hfirst, hlast, hdata⟩ := hs.grow_eq w hu ho h
      rw [if_pos ho]
      exact ⟨t', hgrow, hfirst, hlast, hdata⟩
    · obtain ⟨hlow, hhigh⟩ := inside_bounds hu ho
      rw [if_neg ho]
      refine ⟨t, rfl, hlow.symm, hhigh.symm, ?_⟩
      unfold SignatureArray.refData
      rw [if_neg hu, if_neg ho]

/-- The entry of the index is between the bounds. -/
theorem low_le (t : SignatureArray) (index : Int32) :
    t.low index ≤ index.toInt ∧ index.toInt < t.high index := by
  unfold SignatureArray.low SignatureArray.high
  split <;> omega

theorem Accessed.used {t' : SignatureArray} (h : Accessed k t index answer t') :
    t'.first.toInt < t'.last.toInt := by
  have := low_le t index
  rw [h.first, h.last]
  omega

theorem Accessed.not_unused {t' : SignatureArray} (h : Accessed k t index answer t') :
    ¬ t'.Unused := by
  rintro ⟨hfirst, hlast⟩
  have := h.used
  rw [hfirst, hlast] at this
  omega

/-- The bounds of an array that was used do not get closer. -/
theorem outer_bounds (hu : ¬ t.Unused) (index : Int32) :
    t.low index ≤ t.first.toInt ∧ t.last.toInt ≤ t.high index := by
  unfold SignatureArray.low SignatureArray.high
  rw [if_neg hu, if_neg hu]
  omega

/-- The data has room for the entries between the bounds. -/
theorem Sound.refData_length (hs : Sound k t) {block : List UInt8}
    (h : t.refData k index answer = some block) :
    (block.length : Int) = (t.high index - t.low index) * k.size := by
  unfold SignatureArray.refData at h
  by_cases hu : t.Unused
  · rw [if_pos hu] at h
    cases answer with
    | fails => cases h
    | returns junk =>
        obtain rfl := Option.some.inj h
        unfold SignatureArray.low SignatureArray.high
        rw [if_pos hu, if_pos hu, List.length_replicate]
        ring
  · rw [if_neg hu] at h
    by_cases ho : t.Outside index
    · rw [if_pos ho] at h
      cases answer with
      | fails => cases h
      | returns junk =>
          obtain ⟨old, hold, rfl⟩ := Option.map_eq_some_iff.mp h
          have hlength := hs.allocated old hold
          obtain ⟨hlow, hhigh⟩ := outer_bounds hu index
          have hbefore : 0 ≤ (t.first.toInt - t.low index) * (k.size : Int) := by
            apply Int.mul_nonneg <;> omega
          have hafter : 0 ≤ (t.high index - t.last.toInt) * (k.size : Int) := by
            apply Int.mul_nonneg <;> omega
          simp only [List.length_append, List.length_replicate, Nat.cast_add,
            Int.toNat_of_nonneg hbefore, Int.toNat_of_nonneg hafter, hlength]
          ring
    · rw [if_neg ho] at h
      obtain ⟨hlow, hhigh⟩ := inside_bounds hu ho
      rw [hlow, hhigh]
      exact hs.allocated block h

/-- The step of the invariant. -/
theorem Sound.accessed (hs : Sound k t) (h : AccessFits k t index answer) {t' : SignatureArray}
    (ht : Accessed k t index answer t') : Sound k t' where
  unused hu := absurd hu ht.not_unused
  used _ := ht.used
  extent := by
    rw [ht.first, ht.last]
    exact h.extent
  allocated block hblock := by
    rw [ht.first, ht.last]
    exact hs.refData_length (ht.data.symm.trans hblock)

/-! ## Slots -/

/-- The offset of an entry between the bounds. -/
theorem Sound.slot_eq (hs : Sound k t) {i : Int32} (h0 : t.first.toInt ≤ i.toInt)
    (h1 : i.toInt < t.last.toInt) : t.slot k.int i = (i.toInt - t.first.toInt) * k.size := by
  refine bytes_eq k h0 (lt_of_le_of_lt ?_ hs.extent)
  exact Int.mul_le_mul_of_nonneg_right (by omega) (by omega)

/-- An entry ends before the data does. -/
theorem Sound.slot_inside (hs : Sound k t) {i : Int32} (h0 : t.first.toInt ≤ i.toInt)
    (h1 : i.toInt < t.last.toInt) {block : List UInt8} (hblock : t.data = some block) :
    0 ≤ t.slot k.int i ∧ t.slot k.int i + k.size ≤ block.length := by
  have hslot := hs.slot_eq h0 h1
  have hlength := hs.allocated block hblock
  have hle : (i.toInt - t.first.toInt + 1) * (k.size : Int) ≤
      (t.last.toInt - t.first.toInt) * k.size :=
    Int.mul_le_mul_of_nonneg_right (by omega) (by omega)
  have hnonneg : 0 ≤ (i.toInt - t.first.toInt) * (k.size : Int) := by
    apply Int.mul_nonneg <;> omega
  have hsucc : (i.toInt - t.first.toInt + 1) * (k.size : Int) =
      (i.toInt - t.first.toInt) * k.size + k.size := by ring
  omega

/-- Of two entries, the one with the lower index ends before the other begins. -/
theorem Sound.slot_disjoint (hs : Sound k t) {i j : Int32} (h0 : t.first.toInt ≤ i.toInt)
    (hij : i.toInt < j.toInt) (h1 : j.toInt < t.last.toInt) :
    t.slot k.int i + k.size ≤ t.slot k.int j := by
  rw [hs.slot_eq h0 (by omega), hs.slot_eq (by omega) h1]
  have hle : (i.toInt - t.first.toInt + 1) * (k.size : Int) ≤
      (j.toInt - t.first.toInt) * k.size :=
    Int.mul_le_mul_of_nonneg_right (by omega) (by omega)
  have hsucc : (i.toInt - t.first.toInt + 1) * (k.size : Int) =
      (i.toInt - t.first.toInt) * k.size + k.size := by ring
  omega

/-! ## Safe accesses -/

/-- The number of bytes that is computed for an allocation. -/
def SignatureArray.allocBytes (size : Int32) (t : SignatureArray) (index : Int32) : Int32 :=
  if t.Unused then size else (t.newLast index - t.newFirst index) * size

/-- The access is arithmetically safe: it ends, with the array `t'` and the pointer `slot`. -/
structure SafeAccess (k : Kind) (t : SignatureArray) (index : Int32) (t' : SignatureArray)
    (slot : Option Int) : Prop where
  /-- The bounds did not wrap around. -/
  first : t'.first.toInt = t.low index
  last : t'.last.toInt = t.high index
  /-- What is allocated has the size of the entries. -/
  computed : t.Unused ∨ t.Outside index →
    (t.allocBytes k.int index).toInt = (t'.last.toInt - t'.first.toInt) * k.size
  /-- The pointer, if there is one, points inside of the allocation. -/
  inside : ∀ offset, slot = some offset →
    ∃ block, t'.data = some block ∧ 0 ≤ offset ∧ offset + k.size ≤ block.length
  /-- The pointers of two entries are to different memory. -/
  disjoint : ∀ i j : Int32, i ≠ j → ¬ t'.Outside i → ¬ t'.Outside j →
    t'.slot k.int i + k.size ≤ t'.slot k.int j ∨ t'.slot k.int j + k.size ≤ t'.slot k.int i

theorem not_outside {i : Int32} (h : ¬ t.Outside i) :
    t.first.toInt ≤ i.toInt ∧ i.toInt < t.last.toInt := by
  rw [SignatureArray.Outside, Int32.lt_iff_toInt_lt, Int32.le_iff_toInt_le] at h
  omega

theorem allocBytes_eq (hs : Sound k t) (h : AccessFits k t index answer) :
    (t.allocBytes k.int index).toInt = (t.high index - t.low index) * k.size := by
  rw [SignatureArray.allocBytes]
  by_cases hu : t.Unused
  · rw [if_pos hu, k.toInt_int]
    unfold SignatureArray.low SignatureArray.high
    rw [if_pos hu, if_pos hu]
    ring
  · obtain ⟨hfirst, hlast⟩ := grown_bounds hu h.last
    obtain ⟨hlow, hhigh⟩ := outer_bounds hu index
    have hused := hs.used hu
    rw [if_neg hu, bytes_eq k (by omega) (by rw [hfirst, hlast]; exact h.extent), hfirst, hlast]

/-- An access that fits is safe, and the array stays sound. -/
theorem Sound.ref_safe (hs : Sound k t) (w : SizeT) (h : AccessFits k t index answer) :
    ∃ t' slot, t.ref w k.int index answer = some (t', slot) ∧ SafeAccess k t index t' slot ∧
      Sound k t' := by
  obtain ⟨t', htable, ht⟩ := hs.refTable_eq w h
  have hs' := hs.accessed h ht
  obtain ⟨hge, hlt⟩ := low_le t index
  refine ⟨t', t'.data.map fun _ => t'.slot k.int index, ?_, ⟨ht.first, ht.last, ?_, ?_, ?_⟩, hs'⟩
  · rw [SignatureArray.ref, htable]
    rfl
  · intro _
    rw [allocBytes_eq hs h, ht.first, ht.last]
  · intro offset hoffset
    obtain ⟨block, hblock, rfl⟩ := Option.map_eq_some_iff.mp hoffset
    exact ⟨block, hblock, hs'.slot_inside (by rw [ht.first]; exact hge) (by rw [ht.last]; exact hlt)
      hblock⟩
  · intro i j hij hi hj
    obtain ⟨hi0, hi1⟩ := not_outside hi
    obtain ⟨hj0, hj1⟩ := not_outside hj
    rcases lt_trichotomy i.toInt j.toInt with hlt | heq | hgt
    · exact .inl (hs'.slot_disjoint hi0 hlt hj1)
    · exact absurd (Int32.toInt_inj.mp heq) hij
    · exact .inr (hs'.slot_disjoint hj0 hgt hi1)

/-- An array that an allocation failed for cannot be copied. -/
theorem Sound.grow_null (hs : Sound k t) (w : SizeT) (hu : ¬ t.Unused) (hnull : t.data = none)
    (junk : UInt8) : t.grow w k.int index (.returns junk) = none := by
  have hused := hs.used hu
  have hpos := k.pos
  have hold := size_eq k w (a := t.last) (b := t.first) hused.le hs.extent
  have hbytes : 0 < (t.last.toInt - t.first.toInt) * (k.size : Int) := by
    apply Int.mul_pos <;> omega
  have hne : w.ofInt ((t.last - t.first) * k.int) ≠ 0 := by omega
  rw [SignatureArray.grow]
  simp only [Allocation.memoryAlloc, memset_alloc, hnull, memcpy, hne, if_false, Option.bind_eq_bind,
    Option.bind_some, Option.bind_none]

/-- Only accesses that fit are safe. -/
theorem Sound.fits_of_safe (hs : Sound k t) {w : SizeT} {t' : SignatureArray} {slot : Option Int}
    (href : t.ref w k.int index answer = some (t', slot)) (h : SafeAccess k t index t' slot) :
    AccessFits k t index answer where
  last := by
    rw [← h.last]
    exact t'.last.toInt_lt
  extent := by
    by_cases hnew : t.Unused ∨ t.Outside index
    · rw [← h.first, ← h.last, ← h.computed hnew]
      exact Int32.toInt_lt _
    · obtain ⟨hu, ho⟩ := not_or.mp hnew
      obtain ⟨hlow, hhigh⟩ := inside_bounds hu ho
      rw [hlow, hhigh]
      exact hs.extent
  copied hu ho hnull := by
    cases answer with
    | fails => rfl
    | returns junk =>
        rw [SignatureArray.ref, SignatureArray.refTable, if_neg hu, if_pos ho,
          hs.grow_null w hu hnull] at href
        cases href

/-! ## Runs -/

/-- Every access of a run from `t` on, of indices with the answers to their allocations, is
safe. -/
def RunSafe (w : SizeT) (k : Kind) (t : SignatureArray) : List (Int32 × Allocation) → Prop
  | [] => True
  | (index, answer) :: accesses => ∃ t' slot, t.ref w k.int index answer = some (t', slot) ∧
      SafeAccess k t index t' slot ∧ RunSafe w k t' accesses

/-- Every access of a run fits when it is made. -/
def RunFits (w : SizeT) (k : Kind) (t : SignatureArray) : List (Int32 × Allocation) → Prop
  | [] => True
  | (index, answer) :: accesses => AccessFits k t index answer ∧
      ∀ t' slot, t.ref w k.int index answer = some (t', slot) → RunFits w k t' accesses

theorem Sound.runSafe_iff (hs : Sound k t) (w : SizeT) (accesses : List (Int32 × Allocation)) :
    RunSafe w k t accesses ↔ RunFits w k t accesses := by
  induction accesses generalizing t with
  | nil => exact Iff.rfl
  | cons access accesses ih =>
      obtain ⟨index, answer⟩ := access
      constructor
      · rintro ⟨t', slot, href, hsafe, hrun⟩
        have hfits := hs.fits_of_safe href hsafe
        obtain ⟨t'', slot', href', _, hs'⟩ := hs.ref_safe w hfits
        refine ⟨hfits, fun u p hu => ?_⟩
        -- the step is a function
        have hsame := href.symm.trans hu
        have hsame' := href.symm.trans href'
        rw [Option.some.injEq, Prod.mk.injEq] at hsame hsame'
        rw [← hsame.1]
        rw [← hsame'.1] at hs'
        exact (ih hs').mp hrun
      · rintro ⟨hfits, hrun⟩
        obtain ⟨t', slot, href, hsafe, hs'⟩ := hs.ref_safe w hfits
        exact ⟨t', slot, href, hsafe, (ih hs').mpr (hrun t' slot href)⟩

/-- **The accesses of a run are safe exactly as long as** the bounds and the number of bytes fit
an `int`, and an array that an allocation failed for does not get another one. -/
theorem tableRun_safe_iff (w : SizeT) (k : Kind) (accesses : List (Int32 × Allocation)) :
    RunSafe w k .init accesses ↔ RunFits w k .init accesses :=
  (sound_init k).runSafe_iff w accesses

/-- The tables of indices have entries of four bytes. -/
def Kind.ofInt : Kind := ⟨4, by norm_num, by norm_num⟩

/-- The index `0x40000040` after the index `0x40`: four bytes are allocated for more than `2 ^ 30`
entries, and both have the same slot. -/
theorem not_runSafe_far :
    ¬ RunSafe .bits64 .ofInt .init [(0x40, .returns 0), (0x40000040, .returns 0)] := by
  rintro ⟨t, slot, href, _, t', slot', href', hsafe, _⟩
  have ht : SignatureArray.init.ref .bits64 Kind.ofInt.int 0x40 (.returns 0) =
      some (⟨0x40, 0x41, some [0, 0, 0, 0]⟩, some 0) := by decide +kernel
  have hsame := href.symm.trans ht
  rw [Option.some.injEq, Prod.mk.injEq] at hsame
  obtain ⟨rfl, rfl⟩ := hsame
  have ht' : SignatureArray.ref .bits64 Kind.ofInt.int ⟨0x40, 0x41, some [0, 0, 0, 0]⟩ 0x40000040
      (.returns 0) = some (⟨0x40, 0x40000041, some [0, 0, 0, 0]⟩, some 0) := by decide +kernel
  have hsame' := href'.symm.trans ht'
  rw [Option.some.injEq, Prod.mk.injEq] at hsame'
  obtain ⟨rfl, rfl⟩ := hsame'
  have hboth := hsafe.disjoint 0x40 0x40000040 (by decide) (by decide +kernel) (by decide +kernel)
  exact absurd hboth (by decide +kernel)

/-! ## Failed allocations -/

/-- Some bytes of a block; there is no result if they are not all inside. -/
def loadBytes (block : List UInt8) (offset : Int) (size : Nat) : Option (List UInt8) :=
  if 0 ≤ offset ∧ offset + size ≤ block.length then
    some ((block.drop offset.toNat).take size)
  else none

/-- `LABCOMM_SIGNATURE_ARRAY_GET`; there is no result if memory outside of the data is read. -/
def SignatureArray.get (k : Kind) (t : SignatureArray) (index : Int32) (noMatch : List UInt8) :
    Option (List UInt8) :=
  if t.first ≤ index ∧ index < t.last then
    match t.data with
    | none => none
    | some block => loadBytes block ((index - t.first).toInt * k.size) k.size
  else some noMatch

/-- What the pointer of `LABCOMM_SIGNATURE_ARRAY_REF` points at, if the entry is there already. -/
def SignatureArray.refEntry (k : Kind) (t : SignatureArray) (index : Int32) :
    Option (List UInt8) :=
  if t.Unused ∨ t.Outside index then none
  else t.data.bind fun block => loadBytes block (t.slot k.int index) k.size

/-- `LABCOMM_SIGNATURE_ARRAY_GET` finds an entry. -/
def SignatureArray.Finds (k : Kind) (t : SignatureArray) (i : Int32) (v : List UInt8) : Prop :=
  ∀ noMatch, t.get k i noMatch = some v

/-- No entry can be retrieved, by either macro. -/
def SignatureArray.Empty (k : Kind) (t : SignatureArray) : Prop :=
  (∀ i v, ¬ t.Finds k i v) ∧ ∀ i, t.refEntry k i = none

/-- A failed growth from `t` to `t'` keeps the entries, and the data is not read through null. -/
structure KeepsEntries (k : Kind) (t t' : SignatureArray) : Prop where
  get : ∀ i v, t.Finds k i v → t'.Finds k i v
  ref : ∀ i v, t.refEntry k i = some v → t'.refEntry k i = some v
  notNull : ∀ i, t'.first ≤ i → i < t'.last → t'.data ≠ none

/-- An access with an allocation that fails returns null and keeps the entries. -/
def FailsAtomically (w : SizeT) (k : Kind) (t : SignatureArray) (index : Int32) : Prop :=
  ∃ t', t.ref w k.int index .fails = some (t', none) ∧ KeepsEntries k t t'

/-- The array after an allocation that failed. -/
def SignatureArray.failed (t : SignatureArray) (index : Int32) : SignatureArray :=
  if t.Unused then ⟨index, index + 1, none⟩ else ⟨t.newFirst index, t.newLast index, none⟩

theorem ref_fails (w : SizeT) (k : Kind) (h : t.Unused ∨ t.Outside index) :
    t.ref w k.int index .fails = some (t.failed index, none) := by
  rw [SignatureArray.ref, SignatureArray.refTable, SignatureArray.failed]
  by_cases hu : t.Unused
  · rw [if_pos hu, if_pos hu]
    rfl
  · rw [if_neg hu, if_neg hu, if_pos (h.resolve_left hu)]
    rfl

theorem failed_data (t : SignatureArray) (index : Int32) : (t.failed index).data = none := by
  unfold SignatureArray.failed
  split <;> rfl

/-- The bounds say that the entry is there, unless the upper one wrapped around. -/
theorem failed_bounds (h : t.Unused ∨ t.Outside index) (hmax : index.toInt ≠ 2 ^ 31 - 1) :
    (t.failed index).first ≤ index ∧ index < (t.failed index).last := by
  have hlt := index.toInt_lt
  have hsucc : (index + 1).toInt = index.toInt + 1 := toInt_succ (by omega)
  rw [Int32.le_iff_toInt_le, Int32.lt_iff_toInt_lt, SignatureArray.failed]
  by_cases hu : t.Unused
  · rw [if_pos hu]
    dsimp only
    omega
  · rw [if_neg hu]
    have ho := h.resolve_left hu
    rw [SignatureArray.Outside, Int32.lt_iff_toInt_lt, Int32.le_iff_toInt_le] at ho
    simp only [SignatureArray.newFirst, SignatureArray.newLast, Int32.lt_iff_toInt_lt,
      Int32.le_iff_toInt_le]
    constructor <;> split <;> omega

/-- After the largest index the range is empty. -/
theorem failed_max (t : SignatureArray) (hmax : index.toInt = 2 ^ 31 - 1) (i : Int32) :
    ¬ i < (t.failed index).last := by
  have hwrap : (index + 1).toInt = -2 ^ 31 := by
    rw [Int32.toInt_add, hmax]
    decide
  have hlast : (t.failed index).last = index + 1 := by
    unfold SignatureArray.failed SignatureArray.newLast
    split
    · rfl
    · rw [if_pos (by
        rw [Int32.le_iff_toInt_le]
        have := t.last.toInt_lt
        omega)]
  have hge := i.le_toInt
  rw [hlast, Int32.lt_iff_toInt_lt, hwrap]
  omega

/-- **A failed growth is never atomic**, but for the largest index in an array that had no entry to
lose: there the upper bound wraps around, and the array is empty. -/
theorem failsAtomically_iff (w : SizeT) (k : Kind) (t : SignatureArray) (index : Int32)
    (h : t.Unused ∨ t.Outside index) :
    FailsAtomically w k t index ↔ index.toInt = 2 ^ 31 - 1 ∧ t.Empty k := by
  rw [FailsAtomically, ref_fails w k h]
  constructor
  · rintro ⟨t', hsame, hkeeps⟩
    obtain rfl : t.failed index = t' := by
      rw [Option.some.injEq, Prod.mk.injEq] at hsame
      exact hsame.1
    have hmax : index.toInt = 2 ^ 31 - 1 := by
      by_contra hne
      obtain ⟨hfirst, hlast⟩ := failed_bounds h hne
      exact hkeeps.notNull index hfirst hlast (failed_data t index)
    refine ⟨hmax, fun i v hfinds => ?_, fun i => ?_⟩
    · -- nothing is found afterwards
      have hafter := hkeeps.get i v hfinds (0 :: v)
      rw [SignatureArray.get, if_neg fun hin => failed_max t hmax i hin.2] at hafter
      have hlength := congrArg List.length (Option.some.inj hafter)
      simp at hlength
    · cases hentry : t.refEntry k i with
      | none => rfl
      | some v =>
          have hafter := hkeeps.ref i v hentry
          rw [SignatureArray.refEntry, failed_data, Option.bind_none, ite_self] at hafter
          cases hafter
  · rintro ⟨hmax, hget, href⟩
    refine ⟨t.failed index, rfl, fun i v hfinds => absurd hfinds (hget i v), fun i v hentry => ?_,
      fun i _ hlast => absurd hlast (failed_max t hmax i)⟩
    rw [href i] at hentry
    cases hentry

/-- The second entry of a table. -/
theorem failsAtomically_second :
    FailsAtomically .bits64 .ofInt ⟨0x40, 0x41, some [0x40, 0, 0, 0]⟩ 0x41 ↔
      (0x41 : Int32).toInt = 2 ^ 31 - 1 ∧
        SignatureArray.Empty .ofInt ⟨0x40, 0x41, some [0x40, 0, 0, 0]⟩ :=
  failsAtomically_iff .bits64 .ofInt _ _ (.inr (.inr (by decide)))

/-- The entry of `0x40` is lost when there is no memory for the one of `0x41`. -/
theorem not_failsAtomically_second :
    ¬ FailsAtomically .bits64 .ofInt ⟨0x40, 0x41, some [0x40, 0, 0, 0]⟩ 0x41 := by
  rintro ⟨t, href, hkeeps⟩
  have ht : SignatureArray.ref .bits64 Kind.ofInt.int ⟨0x40, 0x41, some [0x40, 0, 0, 0]⟩ 0x41
      .fails = some (⟨0x40, 0x42, none⟩, none) := by decide +kernel
  have hsame := href.symm.trans ht
  rw [Option.some.injEq, Prod.mk.injEq] at hsame
  obtain ⟨rfl, _⟩ := hsame
  exact hkeeps.notNull 0x40 (by decide) (by decide) rfl

end LabComm.C
