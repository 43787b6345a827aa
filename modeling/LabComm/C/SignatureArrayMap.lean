import LabComm.C.SignatureArrayRef
import LabComm.C.SignatureArray

set_option autoImplicit false

/-! # Signature arrays as finite maps

While the accesses fit, `labcomm2014_signature_array_ref` does what `SigArray` describes: the data
is the entries one after the other (`Models`, `SigArray.Fits.refines`). So the array is the map of
the values stored last, with zeros in the gaps. It stops to be that map with the first access to the largest `int`, whose
upper bound wraps around (`finiteMap_iff`).
-/

namespace LabComm.C

open Library

/-! ## Uses of an array -/

/-- A value of a kind. -/
structure Cell (k : Kind) where
  bytes : List UInt8
  size : bytes.length = k.size

instance (k : Kind) : Inhabited (Cell k) := ⟨⟨List.replicate k.size 0, by simp⟩⟩

/-- `LABCOMM_SIGNATURE_ARRAY_REF`, and perhaps a store through the pointer; what is allocated for it
is filled with `junk`. -/
structure Use (k : Kind) where
  index : Int32
  stored : Option (Cell k)
  junk : UInt8

/-- The store; a pointer that is null cannot be stored through. -/
def storeCell {k : Kind} (t : SignatureArray) (slot : Option Int) (v : Cell k) :
    Option SignatureArray := do
  let offset ← slot
  let block ← t.data
  let data ← storeBytes block offset v.bytes
  some { t with data := some data }

def SignatureArray.use {k : Kind} (w : SizeT) (t : SignatureArray) (u : Use k) :
    Option SignatureArray := do
  let (t, slot) ← t.ref w k.int u.index (.returns u.junk)
  match u.stored with
  | none => some t
  | some v => storeCell t slot v

/-- The array after some uses. -/
def arrayAfter {k : Kind} (w : SizeT) (uses : List (Use k)) : Option SignatureArray :=
  uses.foldlM (SignatureArray.use w) .init

/-- The indices of `LABCOMM_SIGNATURE_ARRAY_FOREACH`. -/
def SignatureArray.foreach (t : SignatureArray) : List Int32 :=
  (List.range (t.last.toInt - t.first.toInt).toNat).map fun n => t.first + Int32.ofNat n

/-! ## The map -/

/-- The value that was stored last at an index. -/
def lastStored {k : Kind} (uses : List (Use k)) (i : Int32) : Option (Cell k) :=
  (uses.filterMap fun u => if u.index = i then u.stored else none).getLast?

/-- The index lies in the range that the array has grown to. -/
def Covered {k : Kind} (uses : List (Use k)) (i : Int32) : Prop :=
  (∃ u ∈ uses, u.index ≤ i) ∧ ∃ u ∈ uses, i ≤ u.index

/-- The array is the map of what was stored. -/
structure FiniteMap {k : Kind} (uses : List (Use k)) (t : SignatureArray) : Prop where
  stored : ∀ i v noMatch, lastStored uses i = some v → t.get k i noMatch = some v.bytes
  gap : ∀ i noMatch, lastStored uses i = none → Covered uses i →
    t.get k i noMatch = some (List.replicate k.size 0)
  outside : ∀ i noMatch, ¬ Covered uses i → t.get k i noMatch = some noMatch
  /-- Each index is visited once. -/
  foreach : ∀ u ∈ uses, t.foreach.count u.index = 1

/-! ## The entries in the data -/

variable {k : Kind}

/-- `t` has the entries of `s` in its data. -/
structure Models (s : SigArray (Cell k)) (t : SignatureArray) : Prop where
  first : t.first.toInt = s.first
  last : t.last.toInt = s.last
  data : t.data = if s.data = [] then none else some (s.data.flatMap Cell.bytes)

theorem flatMap_bytes_length (cells : List (Cell k)) :
    (cells.flatMap Cell.bytes).length = cells.length * k.size := by
  induction cells with
  | nil => simp
  | cons c cells ih =>
      rw [List.flatMap_cons, List.length_append, c.size, ih, List.length_cons]
      ring

theorem flatMap_bytes_zeros (n : Nat) :
    (List.replicate n (default : Cell k)).flatMap Cell.bytes = List.replicate (n * k.size) 0 := by
  induction n with
  | zero => simp
  | succ n ih =>
      rw [List.replicate_succ, List.flatMap_cons, ih, Nat.succ_mul, Nat.add_comm]
      exact List.replicate_append_replicate

theorem models_init : Models (k := k) .init .init where
  first := rfl
  last := rfl
  data := rfl

variable {s : SigArray (Cell k)} {t t' : SignatureArray} {index : Int32} {junk : UInt8}

theorem Models.unused_iff (h : Models s t) : t.Unused ↔ s.first = 0 ∧ s.last = 0 := by
  rw [SignatureArray.Unused, ← h.first, ← h.last, ← Int32.toInt_inj, ← Int32.toInt_inj]
  rfl

theorem Models.outside_iff (h : Models s t) :
    t.Outside index ↔ index.toInt < s.first ∨ s.last ≤ index.toInt := by
  rw [SignatureArray.Outside, Int32.lt_iff_toInt_lt, Int32.le_iff_toInt_le, h.first, h.last]

theorem Models.data_ne_nil (h : Models s t) (hs : Sound k t) (hu : ¬ t.Unused) : s.data ≠ [] := by
  intro hnil
  have hused := hs.used hu
  have hsize := s.size
  rw [h.first, h.last] at hused
  rw [hnil, List.length_nil] at hsize
  omega

theorem toNat_mul_size (k : Kind) {i : Int} (h : 0 ≤ i) :
    (i * (k.size : Int)).toNat = i.toNat * k.size := by
  obtain ⟨n, rfl⟩ := Int.eq_ofNat_of_zero_le h
  rw [← Nat.cast_mul, Int.toNat_natCast, Int.toNat_natCast]

/-- Growing the array is growing the table. -/
theorem Models.ref (h : Models s t) (hs : Sound k t) (ht : Accessed k t index (.returns junk) t') :
    Models (s.ref index.toInt) t' := by
  obtain ⟨hfirst, hlast, hdata⟩ := ht
  unfold SignatureArray.low at hfirst
  unfold SignatureArray.high at hlast
  unfold SignatureArray.refData at hdata
  rw [SigArray.ref]
  -- the branches of the source: the first access, a growth, an index that is there
  by_cases hu : t.Unused
  · rw [if_pos hu] at hfirst hlast hdata
    rw [if_pos (h.unused_iff.mp hu)]
    exact ⟨hfirst, hlast, by rw [hdata]; simp [default]⟩
  · have hne := h.data_ne_nil hs hu
    rw [if_neg hu] at hfirst hlast hdata
    rw [if_neg fun h0 => hu (h.unused_iff.mpr h0)]
    by_cases ho : t.Outside index
    · obtain ⟨hlow, hhigh⟩ := outer_bounds hu index
      have hbefore : t.first.toInt - t.low index =
          s.first - if index.toInt < s.first then index.toInt else s.first := by
        unfold SignatureArray.low
        rw [if_neg hu, ← h.first]
        split <;> omega
      have hafter : t.high index - t.last.toInt =
          (if s.last ≤ index.toInt then index.toInt + 1 else s.last) - s.last := by
        unfold SignatureArray.high
        rw [if_neg hu, ← h.last]
        split <;> omega
      rw [if_pos ho, h.data, if_neg hne, Option.map_some, toNat_mul_size k (by omega),
        toNat_mul_size k (by omega), ← flatMap_bytes_zeros, ← flatMap_bytes_zeros,
        ← List.flatMap_append, ← List.flatMap_append, hbefore, hafter] at hdata
      rw [dif_pos (h.outside_iff.mp ho)]
      refine ⟨?_, ?_, ?_⟩
      · rw [hfirst, h.first]
        dsimp only
        split <;> omega
      · rw [hlast, h.last]
        dsimp only
        split <;> omega
      · exact hdata.trans (if_neg (by simp [hne])).symm
    · obtain ⟨hlow, hhigh⟩ := inside_bounds hu ho
      unfold SignatureArray.low at hlow
      unfold SignatureArray.high at hhigh
      rw [if_neg hu] at hlow hhigh
      rw [if_neg ho] at hdata
      rw [dif_neg fun h0 => ho (h.outside_iff.mpr h0)]
      exact ⟨by rw [hfirst, hlow, h.first], by rw [hlast, hhigh, h.last], by rw [hdata, h.data]⟩

/-- Both get the same bounds. -/
theorem Models.bounds (h : Models s t) (index : Int32) :
    (s.ref index.toInt).first = t.low index ∧ (s.ref index.toInt).last = t.high index := by
  unfold SignatureArray.low SignatureArray.high
  rw [SigArray.ref, h.first, h.last]
  by_cases hu : t.Unused
  · rw [if_pos (h.unused_iff.mp hu), if_pos hu, if_pos hu]
    exact ⟨rfl, rfl⟩
  · rw [if_neg fun h0 => hu (h.unused_iff.mpr h0), if_neg hu, if_neg hu]
    split
    · dsimp only
      constructor
      · split <;> omega
      · split <;> omega
    · constructor
      · omega
      · omega

/-- **An access that fits returns the entry**, in the array that `SigArray.ref` describes. -/
theorem SigArray.Fits.refines {memory : Nat → Bool} (hf : s.Fits k.size memory index.toInt)
    (h : Models s t) (hs : Sound k t) (w : SizeT) (junk : UInt8) :
    ∃ t', t.ref w k.int index (.returns junk) = some (t', some (t'.slot k.int index)) ∧
      Sound k t' ∧ Models (s.ref index.toInt) t' := by
  obtain ⟨hlow, hhigh⟩ := h.bounds index
  obtain ⟨hlast, hbytes, _⟩ := hf
  have hfits : AccessFits k t index (.returns junk) := by
    refine ⟨hhigh ▸ hlast, ?_, fun hused _ hnull => ?_⟩
    · rwa [SigArray.bytes, hlow, hhigh] at hbytes
    · have hdata := h.data
      rw [if_neg (h.data_ne_nil hs hused), hnull] at hdata
      cases hdata
  obtain ⟨t', htable, ht⟩ := hs.refTable_eq w hfits
  have hmodels := h.ref hs ht
  have hsound := hs.accessed hfits ht
  have hne := hmodels.data_ne_nil hsound ht.not_unused
  refine ⟨t', ?_, hsound, hmodels⟩
  rw [SignatureArray.ref, htable]
  show some (t', t'.data.map _) = _
  rw [hmodels.data, if_neg hne]
  rfl

/-! ## The entry of an index -/

/-- The data before an entry, the entry, and the data after it. -/
theorem flatMap_bytes_split {cells : List (Cell k)} {n : Nat} (h : n < cells.length) :
    ∃ before after : List UInt8, before.length = n * k.size ∧
      cells.flatMap Cell.bytes = before ++ cells[n].bytes ++ after ∧
      ∀ v : Cell k, (cells.set n v).flatMap Cell.bytes = before ++ v.bytes ++ after := by
  refine ⟨(cells.take n).flatMap Cell.bytes, (cells.drop (n + 1)).flatMap Cell.bytes, ?_, ?_,
    fun v => ?_⟩
  · rw [flatMap_bytes_length, List.length_take, Nat.min_eq_left h.le]
  · have hcells : cells = cells.take n ++ cells[n] :: cells.drop (n + 1) := by
      rw [← List.drop_eq_getElem_cons h, List.take_append_drop]
    conv_lhs => rw [hcells]
    rw [List.flatMap_append, List.flatMap_cons, List.append_assoc]
  · rw [List.set_eq_take_append_cons_drop, if_pos h]
    simp

theorem loadBytes_eq (before bytes after : List UInt8) {offset : Int} {size : Nat}
    (hoffset : offset = before.length) (hsize : bytes.length = size) :
    loadBytes (before ++ bytes ++ after) offset size = some bytes := by
  subst hoffset
  rw [loadBytes, if_pos ⟨by omega, by simp only [List.length_append]; omega⟩, Int.toNat_natCast,
    List.append_assoc, List.drop_left, ← hsize, List.take_left]

/-- A store through the pointer of an entry. -/
theorem Models.storeCell (h : Models s t) (hs : Sound k t) (hu : ¬ t.Unused)
    (hin : ¬ t.Outside index) (v : Cell k) : ∃ t',
      storeCell t (t.data.map fun _ => t.slot k.int index) v = some t' ∧ t'.first = t.first ∧
        t'.last = t.last ∧ Sound k t' ∧ Models (⟨s.first, s.last,
          s.data.set (index.toInt - s.first).toNat v, by rw [List.length_set]; exact s.size⟩) t' := by
  have hne := h.data_ne_nil hs hu
  have hdata := h.data
  have hsize := s.size
  obtain ⟨h0, h1⟩ := not_outside hin
  have hslot := hs.slot_eq h0 h1
  rw [if_neg hne] at hdata
  rw [h.first] at h0 hslot
  rw [h.last] at h1
  obtain ⟨before, after, hbefore, hsplit, hset⟩ := flatMap_bytes_split
    (show (index.toInt - s.first).toNat < s.data.length by omega)
  have hoffset : t.slot k.int index = before.length := by
    rw [hslot, hbefore, Nat.cast_mul, Int.toNat_of_nonneg (by omega)]
  have hstore : storeBytes (s.data.flatMap Cell.bytes) (t.slot k.int index) v.bytes =
      some ((s.data.set (index.toInt - s.first).toNat v).flatMap Cell.bytes) := by
    rw [hsplit, hset]
    exact storeBytes_eq before _ after v.bytes hoffset (by rw [v.size, Cell.size])
  refine ⟨⟨t.first, t.last, some ((s.data.set (index.toInt - s.first).toNat v).flatMap Cell.bytes)⟩,
    ?_, rfl, rfl, ?_, h.first, h.last, ?_⟩
  · simp only [LabComm.C.storeCell, hdata, Option.map_some, Option.bind_eq_bind, Option.bind_some,
      hstore]
  · refine ⟨fun h0 => absurd h0 hu, hs.used, hs.extent, ?_⟩
    rintro block hblock
    obtain rfl := Option.some.inj hblock
    rw [flatMap_bytes_length, List.length_set, ← flatMap_bytes_length]
    exact hs.allocated _ hdata
  · rw [if_neg (by simpa using hne)]

/-! ## Reading -/

theorem get_in (hin : ¬ t.Outside index) (noMatch : List UInt8) : t.get k index noMatch =
    t.data.bind fun block => loadBytes block ((index - t.first).toInt * k.size) k.size := by
  have hrange : t.first ≤ index ∧ index < t.last := by
    rw [Int32.le_iff_toInt_le, Int32.lt_iff_toInt_lt]
    exact not_outside hin
  rw [SignatureArray.get, if_pos hrange]
  cases t.data <;> rfl

theorem get_out (hout : t.Outside index) (noMatch : List UInt8) :
    t.get k index noMatch = some noMatch := by
  refine if_neg fun hin => ?_
  rw [Int32.le_iff_toInt_le, Int32.lt_iff_toInt_lt] at hin
  rw [SignatureArray.Outside, Int32.lt_iff_toInt_lt, Int32.le_iff_toInt_le] at hout
  omega

/-- What is read between the bounds is the entry of the table. -/
theorem Models.get (h : Models s t) (hs : Sound k t) (hu : ¬ t.Unused) (hin : ¬ t.Outside index)
    (noMatch : List UInt8) : t.get k index noMatch = some (s.get index.toInt).bytes := by
  have hne := h.data_ne_nil hs hu
  have hdata := h.data
  have hsize := s.size
  have hpos := k.pos
  obtain ⟨h0, h1⟩ := not_outside hin
  have hextent := hs.extent
  have hle : t.last.toInt - t.first.toInt ≤ (t.last.toInt - t.first.toInt) * (k.size : Int) := by
    nlinarith
  have hsub : (index - t.first).toInt = index.toInt - t.first.toInt :=
    toInt_sub_eq (by omega) (by omega)
  rw [if_neg hne] at hdata
  rw [get_in hin, hdata, Option.bind_some, hsub, h.first]
  rw [h.first] at h0
  rw [h.last] at h1
  have hlt : (index.toInt - s.first).toNat < s.data.length := by omega
  obtain ⟨before, after, hbefore, hsplit, _⟩ := flatMap_bytes_split hlt
  have hentry : s.get index.toInt = s.data[(index.toInt - s.first).toNat] := by
    rw [SigArray.get, if_pos ⟨h0, h1⟩, List.getD_eq_getElem?_getD,
      List.getElem?_eq_getElem hlt, Option.getD_some]
  rw [hsplit, hentry]
  exact loadBytes_eq before _ after (by rw [hbefore, Nat.cast_mul, Int.toNat_of_nonneg (by omega)])
    (Cell.size _)

/-- The index of a round of the loop does not overflow. -/
theorem foreach_toInt {n : Nat} (h : n < (t.last.toInt - t.first.toInt).toNat) :
    (t.first + Int32.ofNat n).toInt = t.first.toInt + n := by
  have hlast := t.last.toInt_lt
  have hfirst := t.first.le_toInt
  have hn : (Int32.ofNat n).toInt = (n : Int).bmod (2 ^ 32) := Int32.toInt_ofNat'
  rw [Int32.toInt_add, hn, Int.add_bmod_bmod]
  exact wrap32_of_lt (by omega) (by omega)

/-- The loop visits the indices between the bounds. -/
theorem mem_foreach {i : Int32} :
    i ∈ t.foreach ↔ t.first.toInt ≤ i.toInt ∧ i.toInt < t.last.toInt := by
  rw [SignatureArray.foreach, List.mem_map]
  constructor
  · rintro ⟨n, hn, rfl⟩
    rw [List.mem_range] at hn
    rw [foreach_toInt hn]
    omega
  · intro h
    have hn : (i.toInt - t.first.toInt).toNat < (t.last.toInt - t.first.toInt).toNat := by omega
    refine ⟨(i.toInt - t.first.toInt).toNat, List.mem_range.mpr hn, ?_⟩
    apply Int32.toInt_inj.mp
    rw [foreach_toInt hn]
    omega

theorem foreach_nodup (t : SignatureArray) : t.foreach.Nodup := by
  refine List.Nodup.map_on (fun m hm n hn h => ?_) List.nodup_range
  rw [List.mem_range] at hm hn
  have htoInt := congrArg Int32.toInt h
  rw [foreach_toInt hm, foreach_toInt hn] at htoInt
  omega

/-! ## Runs -/

/-- The table after some uses. -/
def SigArray.use (s : SigArray (Cell k)) (u : Use k) : SigArray (Cell k) :=
  match u.stored with
  | none => s.ref u.index.toInt
  | some v => s.set u.index.toInt v

/-- What holds of the array after some uses, as long as all of them fit. -/
structure HoldsUses (uses : List (Use k)) (s : SigArray (Cell k)) (t : SignatureArray) :
    Prop where
  sound : Sound k t
  models : Models s t
  /-- The bounds are those of the indices. -/
  bounds : uses = [] ∧ t.Unused ∨ ¬ t.Unused ∧ (∃ u ∈ uses, t.first.toInt = u.index.toInt) ∧
    ∃ u ∈ uses, t.last.toInt = u.index.toInt + 1
  between : ∀ u ∈ uses, t.first.toInt ≤ u.index.toInt ∧ u.index.toInt < t.last.toInt
  entries : ∀ i : Int32, s.get i.toInt = (lastStored uses i).getD default

theorem holdsUses_init : HoldsUses (k := k) [] .init .init where
  sound := sound_init k
  models := models_init
  bounds := .inl ⟨rfl, rfl, rfl⟩
  between u hu := by cases hu
  entries i := SigArray.get_init i.toInt

theorem lastStored_concat (uses : List (Use k)) (u : Use k) (i : Int32) :
    lastStored (uses ++ [u]) i =
      if u.index = i ∧ u.stored.isSome then u.stored else lastStored uses i := by
  rw [lastStored, List.filterMap_append]
  by_cases hi : u.index = i
  · cases hv : u.stored with
    | none => simp [hi, hv, lastStored]
    | some v => simp [hi, hv]
  · simp [hi, lastStored]

/-- The number of entries from any index to any other fits with its bytes in an `int`. -/
def UsesFit (uses : List (Use k)) : Prop :=
  ∀ u ∈ uses, ∀ v ∈ uses, (u.index.toInt - v.index.toInt + 1) * k.size < 2 ^ 31

instance (uses : List (Use k)) : Decidable (UsesFit uses) :=
  inferInstanceAs (Decidable (∀ u ∈ uses, ∀ v ∈ uses, _))

/-- No use is of the largest index. -/
def BelowMax (uses : List (Use k)) : Prop := ∀ u ∈ uses, u.index.toInt ≠ 2 ^ 31 - 1

variable {uses : List (Use k)} {u : Use k}

/-- The bounds after the next use are those of an index, too. -/
theorem HoldsUses.next_bounds (h : HoldsUses uses s t) (u : Use k) :
    (∃ v ∈ uses ++ [u], t.low u.index = v.index.toInt) ∧
      ∃ v ∈ uses ++ [u], t.high u.index = v.index.toInt + 1 := by
  have hu : u ∈ uses ++ [u] := List.mem_append_right _ (List.mem_singleton_self u)
  unfold SignatureArray.low SignatureArray.high
  rcases h.bounds with ⟨_, hunused⟩ | ⟨hused, ⟨a, ha, hfirst⟩, b, hb, hlast⟩
  · rw [if_pos hunused, if_pos hunused]
    exact ⟨⟨u, hu, rfl⟩, u, hu, rfl⟩
  · rw [if_neg hused, if_neg hused]
    constructor
    · rcases min_choice t.first.toInt u.index.toInt with hmin | hmin
      · exact ⟨a, List.mem_append_left _ ha, by rw [hmin, hfirst]⟩
      · exact ⟨u, hu, hmin⟩
    · rcases max_choice t.last.toInt (u.index.toInt + 1) with hmax | hmax
      · exact ⟨b, List.mem_append_left _ hb, by rw [hmax, hlast]⟩
      · exact ⟨u, hu, hmax⟩

theorem HoldsUses.fits (h : HoldsUses uses s t) (hfit : UsesFit (uses ++ [u]))
    (hmax : BelowMax (uses ++ [u])) : AccessFits k t u.index (.returns u.junk) := by
  obtain ⟨⟨a, ha, hlow⟩, b, hb, hhigh⟩ := h.next_bounds u
  refine ⟨?_, ?_, fun hused _ hnull => ?_⟩
  · have hlt := b.index.toInt_lt
    have hne := hmax b hb
    omega
  · rw [hlow, hhigh, show b.index.toInt + 1 - a.index.toInt =
      b.index.toInt - a.index.toInt + 1 by ring]
    exact hfit b hb a ha
  · -- the allocations so far did not fail
    have hdata := h.models.data
    rw [if_neg (h.models.data_ne_nil h.sound hused), hnull] at hdata
    cases hdata

/-- The array after the access, before anything is stored. -/
theorem HoldsUses.accessed (h : HoldsUses uses s t) (hfits : AccessFits k t u.index
    (.returns u.junk)) (ht : Accessed k t u.index (.returns u.junk) t') :
    Sound k t' ∧ Models (s.ref u.index.toInt) t' ∧ ¬ t'.Unused ∧ ¬ t'.Outside u.index ∧
      ∀ v ∈ uses ++ [u], t'.first.toInt ≤ v.index.toInt ∧ v.index.toInt < t'.last.toInt := by
  have hin := low_le t u.index
  rw [← ht.first, ← ht.last] at hin
  refine ⟨h.sound.accessed hfits ht, h.models.ref h.sound ht, ht.not_unused, ?_, fun v hv => ?_⟩
  · rw [SignatureArray.Outside, Int32.lt_iff_toInt_lt, Int32.le_iff_toInt_le]
    omega
  · rcases List.mem_append.mp hv with hv | hv
    · have hused : ¬ t.Unused := by
        rcases h.bounds with ⟨hnil, _⟩ | ⟨hused, _⟩
        · rw [hnil] at hv
          cases hv
        · exact hused
      have hbetween := h.between v hv
      have houter := outer_bounds hused u.index
      rw [ht.first, ht.last]
      omega
    · rw [List.mem_singleton.mp hv]
      exact hin

/-- **One use.** -/
theorem HoldsUses.use (h : HoldsUses uses s t) (w : SizeT) (hfit : UsesFit (uses ++ [u]))
    (hmax : BelowMax (uses ++ [u])) :
    ∃ t', t.use w u = some t' ∧ HoldsUses (uses ++ [u]) (s.use u) t' := by
  have hfits := h.fits hfit hmax
  obtain ⟨t', htable, ht⟩ := h.sound.refTable_eq w hfits
  obtain ⟨hsound, hmodels, hused, hin, hbetween⟩ := h.accessed hfits ht
  obtain ⟨hlow, hhigh⟩ := h.next_bounds u
  rw [← ht.first] at hlow
  rw [← ht.last] at hhigh
  have href : t.ref w k.int u.index (.returns u.junk) =
      some (t', t'.data.map fun _ => t'.slot k.int u.index) := by
    rw [SignatureArray.ref, htable]
    rfl
  rw [SignatureArray.use, href, SigArray.use]
  -- an access that only reads keeps the entries
  cases hstored : u.stored with
  | none =>
      refine ⟨t', rfl, hsound, hmodels, .inr ⟨hused, hlow, hhigh⟩, hbetween, fun i => ?_⟩
      rw [lastStored_concat, hstored, SigArray.get_ref, h.entries]
      simp
  | some v =>
      obtain ⟨t'', hstore, hfirst, hlast, hsound', hmodels'⟩ :=
        hmodels.storeCell hsound hused hin v
      have hused' : ¬ t''.Unused := by
        rw [SignatureArray.Unused, hfirst, hlast]
        exact hused
      refine ⟨t'', hstore, hsound', hmodels', .inr ⟨hused', ?_, ?_⟩, ?_, fun i => ?_⟩
      · rw [hfirst]
        exact hlow
      · rw [hlast]
        exact hhigh
      · rw [hfirst, hlast]
        exact hbetween
      · show (s.set u.index.toInt v).get i.toInt = _
        rw [lastStored_concat, hstored, SigArray.get_set, h.entries]
        by_cases hi : u.index = i
        · simp [hi]
        · have hne : i.toInt ≠ u.index.toInt := fun h0 => hi (Int32.toInt_inj.mp h0).symm
          simp [hi, hne]

theorem UsesFit.of_subset {vs : List (Use k)} (h : UsesFit uses) (hsub : vs ⊆ uses) :
    UsesFit vs := fun u hu v hv => h u (hsub hu) v (hsub hv)

/-- The array after a run, by induction on its uses from the last one. -/
theorem arrayAfter_holdsUses (w : SizeT) (hfit : UsesFit uses) (hmax : BelowMax uses) :
    ∃ s t, arrayAfter w uses = some t ∧ HoldsUses uses s t := by
  induction uses using List.reverseRecOn with
  | nil => exact ⟨_, _, rfl, holdsUses_init⟩
  | append_singleton uses u ih =>
      obtain ⟨s, t, hrun, h⟩ := ih (hfit.of_subset (List.subset_append_left uses [u]))
        (fun v hv => hmax v (List.mem_append_left _ hv))
      obtain ⟨t', huse, h'⟩ := h.use w hfit hmax
      refine ⟨_, t', ?_, h'⟩
      rw [arrayAfter, List.foldlM_append, show uses.foldlM (SignatureArray.use w) .init = some t from
        hrun]
      simp [huse]

/-! ## The map of a run -/

theorem lastStored_mem {i : Int32} {v : Cell k} (h : lastStored uses i = some v) :
    ∃ u ∈ uses, u.index = i := by
  obtain ⟨u, hu, hstored⟩ := List.mem_filterMap.mp (List.mem_of_getLast? h)
  refine ⟨u, hu, ?_⟩
  by_contra hne
  rw [if_neg hne] at hstored
  cases hstored

theorem HoldsUses.used (h : HoldsUses uses s t) (hu : u ∈ uses) : ¬ t.Unused := by
  rcases h.bounds with ⟨rfl, _⟩ | ⟨hused, _⟩
  · cases hu
  · exact hused

/-- The range of the indices is that of the array. -/
theorem HoldsUses.covered_iff (h : HoldsUses uses s t) (i : Int32) :
    Covered uses i ↔ ¬ t.Outside i := by
  rw [SignatureArray.Outside, Int32.lt_iff_toInt_lt, Int32.le_iff_toInt_le, not_or, not_lt, not_le]
  constructor
  · rintro ⟨⟨u, hu, hle⟩, v, hv, hge⟩
    rw [Int32.le_iff_toInt_le] at hle hge
    have hbelow := h.between u hu
    have habove := h.between v hv
    omega
  · rintro ⟨h0, h1⟩
    rcases h.bounds with ⟨_, hfirst, hlast⟩ | ⟨_, ⟨u, hu, hfirst⟩, v, hv, hlast⟩
    · rw [hfirst] at h0
      rw [hlast] at h1
      omega
    · refine ⟨⟨u, hu, ?_⟩, v, hv, ?_⟩
      · rw [Int32.le_iff_toInt_le]
        omega
      · rw [Int32.le_iff_toInt_le]
        omega

theorem HoldsUses.finiteMap (h : HoldsUses uses s t) : FiniteMap uses t where
  stored i v noMatch hv := by
    obtain ⟨u, hu, rfl⟩ := lastStored_mem hv
    have hin := (h.covered_iff u.index).mp ⟨⟨u, hu, Int32.le_refl _⟩, u, hu, Int32.le_refl _⟩
    rw [h.models.get h.sound (h.used hu) hin, h.entries, hv]
    rfl
  gap i noMatch hnone hcovered := by
    obtain ⟨u, hu, _⟩ := hcovered.1
    rw [h.models.get h.sound (h.used hu) ((h.covered_iff i).mp hcovered), h.entries, hnone]
    rfl
  outside i noMatch hout := get_out (not_not.mp (mt (h.covered_iff i).mpr hout)) noMatch
  foreach u hu := List.count_eq_one_of_mem (foreach_nodup t) (mem_foreach.mpr (h.between u hu))

/-- The array is a finite map after each of the accesses. -/
def StaysFiniteMap (w : SizeT) (uses : List (Use k)) : Prop :=
  ∀ n, ∃ t, arrayAfter w (uses.take n) = some t ∧ FiniteMap (uses.take n) t

/-- **Signature arrays are finite maps** exactly if the largest `int` is not one of the indices. -/
theorem finiteMap_iff (w : SizeT) (uses : List (Use k)) (hfit : UsesFit uses) :
    StaysFiniteMap w uses ↔ BelowMax uses := by
  constructor
  · intro h u hu hmax
    obtain ⟨t, _, hmap⟩ := h uses.length
    rw [List.take_length] at hmap
    have hmem : u.index ∈ t.foreach := by
      rw [← List.count_pos_iff, hmap.foreach u hu]
      norm_num
    -- no bound is above the largest `int`
    have hlast := (mem_foreach.mp hmem).2
    have hlt := t.last.toInt_lt
    omega
  · intro hmax n
    have hsub := List.take_subset n uses
    obtain ⟨s, t, hrun, h⟩ := arrayAfter_holdsUses w (hfit.of_subset hsub)
      (fun u hu => hmax u (hsub hu))
    exact ⟨t, hrun, h.finiteMap⟩

/-- A table of indices that grows in both directions. -/
def usesBoth : List (Use Kind.ofInt) :=
  [⟨0x42, some ⟨[1, 0, 0, 0], rfl⟩, 0xff⟩, ⟨0x44, some ⟨[2, 0, 0, 0], rfl⟩, 0xff⟩,
    ⟨0x40, some ⟨[3, 0, 0, 0], rfl⟩, 0xff⟩]

theorem finiteMap_both : StaysFiniteMap .bits64 usesBoth ↔ BelowMax usesBoth :=
  finiteMap_iff .bits64 usesBoth (by decide +kernel)

/-- A first access to the largest `int`. -/
def useMax : Use Kind.ofInt := ⟨0x7fffffff, some ⟨[1, 0, 0, 0], rfl⟩, 0xff⟩

/-- The value that is stored there is not found. -/
theorem not_finiteMap_max : UsesFit [useMax] ∧ ¬ StaysFiniteMap .bits64 [useMax] := by
  refine ⟨by decide +kernel, fun h => ?_⟩
  obtain ⟨t, hrun, hmap⟩ := h 1
  have hafter : arrayAfter .bits64 [useMax] =
      some ⟨0x7fffffff, 0x80000000, some [1, 0, 0, 0]⟩ := by decide +kernel
  obtain rfl := Option.some.inj (hrun.symm.trans hafter)
  have hget := hmap.stored 0x7fffffff ⟨[1, 0, 0, 0], rfl⟩ [] rfl
  exact absurd hget (by decide +kernel)

end LabComm.C
