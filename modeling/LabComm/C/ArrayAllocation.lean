import LabComm.C.SignatureArrayRef
import LabComm.C.RoundTrip

set_option autoImplicit false

/-! # The memory of decoded arrays

The generated decoder of a variable array takes its dimensions from the wire. The size of the
array is a product of `size_t`s, the loops compare `int`s, and the index of an element is computed
with `int`s. The elements are inside of what was allocated exactly as long as neither product
overflows (`decodesWithin_iff`); nothing checks that.
-/

namespace LabComm.C

open Library

variable {φ : Host}

/-! ## The generated code -/

/-- A `VariableArrayType`. -/
structure VariableArrayType where
  elem : DataType
  dim : List Exp
  hasVariable : isVariable dim = true

/-- The argument of `labcomm2014_memory_alloc` in `C_emitDecoderArrayAllocate`, a product of
`size_t`s. -/
def arrayBytes (w : SizeT) (sizeof : Nat) (limits : List Int) : Nat :=
  limits.foldl (fun bytes n => bytes * (n % 2 ^ w.bits).toNat % 2 ^ w.bits) sizeof

/-- The index of each element that the loops store, in order. -/
def storedIndices (dim : List Exp) (limits : List Int) : List Int :=
  Id.run (nest (limits.map Int.toNat)
    (fun is stored => pure (stored ++ [elementIndex dim limits is])) [])

/-- What the decoder does with the memory of an array. -/
structure ArrayMemory where
  /-- The error of the reader before anything is stored. -/
  error : Int
  allocated : Nat
  stored : List Int

/-- `ArrayType.C_emitDecoder`, without the decoders of the elements. -/
def decodeArray (w : SizeT) (sizeof : Nat) (dim : List Exp) : StateM (Reader φ) ArrayMemory := do
  let n ← cEmitDecoderDecodeLimit dim
  let r ← get
  let limits := loopLimits dim n
  pure ⟨r.error, arrayBytes w sizeof limits, storedIndices dim limits⟩

/-- There is room for the elements that are stored, at the places where they are stored. -/
def ArrayMemory.Within (m : ArrayMemory) (sizeof : Nat) : Prop :=
  sizeof * m.stored.length ≤ m.allocated ∧ ∀ i ∈ m.stored, 0 ≤ i ∧ i < m.stored.length

/-- An array that is read from `r` stays within its memory, or an error is reported. -/
def DecodesWithin (w : SizeT) (sizeof : Nat) (dim : List Exp) (r : Reader φ) : Prop :=
  (decodeArray w sizeof dim r).1.error ≠ 0 ∨ (decodeArray w sizeof dim r).1.Within sizeof

/-! ## The number of bytes -/

theorem arrayBytes_cons (w : SizeT) (sizeof : Nat) (n : Int) (limits : List Int) :
    arrayBytes w sizeof (n :: limits) =
      arrayBytes w (sizeof * (n % 2 ^ w.bits).toNat % 2 ^ w.bits) limits := rfl

/-- The product is that of the numbers, modulo the range of `size_t`. -/
theorem arrayBytes_eq (w : SizeT) {limits : List Int} (hne : limits ≠ []) (sizeof : Nat) :
    (arrayBytes w sizeof limits : Int) = sizeof * limits.prod % 2 ^ w.bits := by
  induction limits generalizing sizeof with
  | nil => exact absurd rfl hne
  | cons n limits ih =>
      have hpow : (0 : Int) < 2 ^ w.bits := by positivity
      have hfirst : ((sizeof * (n % 2 ^ w.bits).toNat % 2 ^ w.bits : Nat) : Int) =
          sizeof * n % 2 ^ w.bits := by
        push_cast
        rw [Int.toNat_of_nonneg (Int.emod_nonneg n hpow.ne'), Int.mul_emod, Int.emod_emod_of_dvd,
          ← Int.mul_emod]
        exact dvd_rfl
      rw [arrayBytes_cons, List.prod_cons]
      cases limits with
      | nil => simpa [arrayBytes] using hfirst
      | cons m limits =>
          rw [ih (by simp), hfirst, ← mul_assoc, Int.mul_emod, Int.emod_emod_of_dvd _ dvd_rfl,
            ← Int.mul_emod]

/-! ## The indices -/

/-- The index expression is the position modulo the range of `int`. -/
theorem wrap32_calcIndexFrom {ns is : List Nat} (h : InLimits is ns) {acc : Int} {k : Nat}
    (hacc : wrap32 acc = wrap32 k) :
    wrap32 (calcIndexFrom acc (ns.map Nat.cast) is) = wrap32 (horner ns k is) := by
  induction h generalizing acc k with
  | nil => simpa [calcIndexFrom] using hacc
  | @cons i n is ns _ _ ih =>
      rw [List.map_cons, calcIndexFrom, horner_cons]
      refine ih ?_
      calc wrap32 (wrap32 (wrap32 (acc * n) + i))
          = wrap32 (wrap32 (wrap32 acc * n) + i) := by rw [wrap32_wrap32_mul, wrap32_wrap32]
        _ = wrap32 (k * n + i : Nat) := by
            rw [hacc, wrap32_wrap32_mul, wrap32_wrap32_add]
            push_cast
            rfl

/-- The result of an operation is an `int`, and so is the first loop variable. -/
theorem calcIndexFrom_int (ns is : List Nat) {acc : Int} (hacc : wrap32 acc = acc) :
    wrap32 (calcIndexFrom acc (ns.map Nat.cast) is) = calcIndexFrom acc (ns.map Nat.cast) is := by
  induction ns generalizing acc is with
  | nil => simpa [calcIndexFrom] using hacc
  | cons n ns ih =>
      cases is with
      | nil => simpa [calcIndexFrom] using hacc
      | cons i is =>
          rw [List.map_cons, calcIndexFrom]
          exact ih is (wrap32_wrap32 _)

/-- A dimension that is the only one was read as an `int`. -/
theorem first_lt {dim : List Exp} (hvar : isVariable dim = true) {m : Int} {n : List Int}
    (h : List.Forall₂ HoldsSize dim (m :: n)) : n ≠ [] ∨ m < 2 ^ 31 := by
  cases h with
  | @cons e _ dim _ he hrest =>
      cases hrest with
      | cons => exact .inl (by simp)
      | nil =>
          cases e with
          | integerLiteral value => simp [isVariable, Exp.isVariable] at hvar
          | variableSize => exact .inr he.2

theorem calcIndexFrom_wraps {ns is : List Nat} (h : InLimits is ns) {i : Nat}
    (hint : ns ≠ [] ∨ i < 2 ^ 31) :
    calcIndexFrom i (ns.map Nat.cast) is = wrap32 (horner ns i is) := by
  rw [← wrap32_calcIndexFrom h rfl]
  symm
  cases h with
  | nil =>
      have hi : wrap32 (i : Int) = i := wrap32_natCast (hint.resolve_left fun hne => hne rfl)
      exact calcIndexFrom_int [] [] hi
  | @cons j n is ns _ _ =>
      rw [List.map_cons, calcIndexFrom]
      exact calcIndexFrom_int ns is (wrap32_wrap32 _)

theorem elementIndex_wraps {dim : List Exp} (hvar : isVariable dim = true) {n : List Int}
    (h : List.Forall₂ HoldsSize dim n) (hpos : ∀ i ∈ n, 0 ≤ i) {is : List Nat}
    (his : InLimits is (n.map Int.toNat)) :
    elementIndex dim n is = wrap32 (horner (n.map Int.toNat) 0 is) := by
  rw [elementIndex, if_pos hvar]
  cases n with
  | nil =>
      cases h
      simp [isVariable] at hvar
  | cons m n =>
      have hcast := map_cast_toNat fun i hi => hpos i (List.mem_cons_of_mem _ hi)
      cases his with
      | @cons i _ is _ hi hrest =>
          have hint : n.map Int.toNat ≠ [] ∨ i < 2 ^ 31 :=
            (first_lt hvar h).imp (by simp) (by omega)
          rw [cCalcIndex, List.map_cons, horner_cons, Nat.zero_mul, Nat.zero_add,
            ← calcIndexFrom_wraps hrest hint, hcast]

theorem run_range_concat (f : Nat → Int) (n : Nat) (stored : List Int) :
    Id.run ((List.range n).foldlM (fun stored k => pure (stored ++ [f k])) stored) =
      stored ++ (List.range n).map f := by
  induction n with
  | zero => simp
  | succ n ih =>
      rw [List.range_succ, List.foldlM_append, List.map_append]
      simp only [List.foldlM_cons, List.foldlM_nil, Id.run_bind, ih]
      simp

/-- The loops store the positions of the array in order, as `int`s. -/
theorem storedIndices_eq {dim : List Exp} (hvar : isVariable dim = true) {n : List Int}
    (h : List.Forall₂ HoldsSize dim n) (hpos : ∀ i ∈ n, 0 ≤ i) :
    storedIndices dim n = (List.range n.prod.toNat).map fun k : Nat => wrap32 k := by
  have hbody : ∀ is, InLimits is (n.map Int.toNat) →
      (fun stored : List Int => (pure (stored ++ [elementIndex dim n is]) : Id (List Int))) =
        fun stored => pure (stored ++ [wrap32 (horner (n.map Int.toNat) 0 is)]) :=
    fun is his => by rw [elementIndex_wraps hvar h hpos his]
  have hprod : n.prod.toNat = (n.map Int.toNat).prod := by
    rw [← prod_toNat hpos, Int.toNat_natCast]
  rw [storedIndices, nest_congr hbody, hprod,
    nest_horner _ (fun k stored => (pure (stored ++ [wrap32 k]) : Id (List Int)))]
  simpa using run_range_concat (fun k : Nat => wrap32 k) _ []

/-- The loops visit nothing when a dimension is not positive. -/
theorem storedIndices_empty (dim : List Exp) {n : List Int} (h : ∃ i ∈ n, i ≤ 0) :
    storedIndices dim n = [] := by
  obtain ⟨i, hi, hle⟩ := h
  have hzero : (n.map Int.toNat).prod = 0 :=
    List.prod_eq_zero (List.mem_map.mpr ⟨i, hi, Int.toNat_of_nonpos hle⟩)
  have hbody : ∀ is, InLimits is (n.map Int.toNat) →
      (fun stored : List Int => (pure (stored ++ [elementIndex dim n is]) : Id (List Int))) =
        fun stored => pure stored := by
    intro is his
    have hpos := his.prod_pos
    omega
  rw [storedIndices, nest_congr hbody,
    nest_horner _ (fun _ stored => (pure stored : Id (List Int))), hzero]
  rfl

/-! ## The memory of an array -/

/-- What is known of the decoder once the dimensions are read. -/
theorem decodeArray_eq (w : SizeT) (sizeof : Nat) {dim : List Exp} {n : List Int}
    (h : List.Forall₂ HoldsSize dim n) {r : Reader φ} (hr : r.error = 0) {rest : List UInt8}
    (hu : r.unread = wireDims dim n ++ rest) :
    (decodeArray w sizeof dim r).1 = ⟨0, arrayBytes w sizeof n, storedIndices dim n⟩ := by
  obtain ⟨hn, hok, _⟩ := (decodeLimit_of_holds h).reads r rest (not_not.mpr hr) hu
  have herror : (cEmitDecoderDecodeLimit dim r).2.error = 0 := not_not.mp hok
  have hrun : (decodeArray w sizeof dim r).1 =
      ⟨(cEmitDecoderDecodeLimit dim r).2.error,
        arrayBytes w sizeof (loopLimits dim (cEmitDecoderDecodeLimit dim r).1),
        storedIndices dim (loopLimits dim (cEmitDecoderDecodeLimit dim r).1)⟩ := rfl
  rw [hrun, hn, herror, loopLimits_of_holds h]

/-- The positions of an array of `m` elements, as `int`s, are those of the elements. -/
theorem positions_within (m : Nat) :
    (∀ i ∈ (List.range m).map fun k : Nat => wrap32 k, 0 ≤ i ∧ i < m) ↔ m ≤ 2 ^ 31 := by
  constructor
  · intro h
    by_contra hlt
    have hmem : wrap32 (2 ^ 31 : Nat) ∈ (List.range m).map fun k : Nat => wrap32 k :=
      List.mem_map.mpr ⟨2 ^ 31, List.mem_range.mpr (by omega), rfl⟩
    have hneg : wrap32 (2 ^ 31 : Nat) = -2 ^ 31 := by decide
    have hge := (h _ hmem).1
    omega
  · intro hm i hi
    obtain ⟨k, hk, rfl⟩ := List.mem_map.mp hi
    rw [List.mem_range] at hk
    rw [wrap32_natCast (by omega)]
    omega

theorem within_iff (w : SizeT) (sizeof : Nat) {dim : List Exp} (hvar : isVariable dim = true)
    {n : List Int} (h : List.Forall₂ HoldsSize dim n) (hpos : ∀ i ∈ n, 0 < i) :
    (ArrayMemory.mk 0 (arrayBytes w sizeof n) (storedIndices dim n)).Within sizeof ↔
      n.prod ≤ 2 ^ 31 ∧ sizeof * n.prod < 2 ^ w.bits := by
  have hne : n ≠ [] := by
    rintro rfl
    cases h
    simp [isVariable] at hvar
  have hnonneg : 0 ≤ n.prod := List.prod_nonneg fun i hi => (hpos i hi).le
  obtain ⟨m, hm⟩ := Int.eq_ofNat_of_zero_le hnonneg
  have hbytes := arrayBytes_eq w hne sizeof
  have hstored := storedIndices_eq hvar h fun i hi => (hpos i hi).le
  have hpow : (0 : Int) < 2 ^ w.bits := by positivity
  rw [hm] at hbytes hstored ⊢
  rw [Int.toNat_natCast] at hstored
  rw [ArrayMemory.Within, hstored, List.length_map, List.length_range, positions_within]
  -- the size is what the product is reduced to, if it is less than the modulus
  have hsize : sizeof * m ≤ arrayBytes w sizeof n ↔ (sizeof * m : Int) < 2 ^ w.bits := by
    constructor
    · intro hle
      have hlt := Int.emod_lt_of_pos (sizeof * m : Int) hpow
      omega
    · intro hlt
      rw [Int.emod_eq_of_lt (by positivity) hlt] at hbytes
      have : (arrayBytes w sizeof n : Int) = (sizeof * m : Nat) := by rw [hbytes]; push_cast; rfl
      omega
  rw [hsize, and_comm]
  constructor
  · rintro ⟨hle, hlt⟩
    exact ⟨by omega, hlt⟩
  · rintro ⟨hle, hlt⟩
    exact ⟨by omega, hlt⟩

/-- **A decoded array stays within its memory exactly if** it is empty, or its elements can be
counted by an `int` and their bytes by a `size_t`. -/
theorem decodesWithin_iff (w : SizeT) (sizeof : DataType → Nat) (a : VariableArrayType)
    {n : List Int} (hn : List.Forall₂ HoldsSize a.dim n) (r : Reader φ) (hr : r.error = 0)
    (rest : List UInt8) (hu : r.unread = wireDims a.dim n ++ rest) :
    DecodesWithin w (sizeof a.elem) a.dim r ↔
      (∃ i ∈ n, i ≤ 0) ∨ n.prod ≤ 2 ^ 31 ∧ sizeof a.elem * n.prod < 2 ^ w.bits := by
  rw [DecodesWithin, decodeArray_eq w _ hn hr hu]
  by_cases hempty : ∃ i ∈ n, i ≤ 0
  · simp [hempty, ArrayMemory.Within, storedIndices_empty a.dim hempty]
  · have hpos : ∀ i ∈ n, 0 < i := by
      intro i hi
      by_contra hle
      exact hempty ⟨i, hi, by omega⟩
    simp only [hempty, ne_eq, not_true_eq_false, false_or]
    exact within_iff w _ a.hasVariable hn hpos

/-- An array of bytes with two dimensions. -/
def byteMatrix : VariableArrayType := ⟨.prim .byte, [.variableSize, .variableSize], rfl⟩

/-- A host whose fills fail with -1. -/
def failing : Host := .of (-1) (by decide)

/-- The sizes of the elements of `byteMatrix` and of other arrays of bytes. -/
def oneByte : DataType → Nat := fun _ => 1

theorem decodesWithin_small :
    DecodesWithin .bits64 (oneByte byteMatrix.elem) byteMatrix.dim
        (Reader.ofBytes failing [2, 3]) ↔
      (∃ i ∈ [(2 : Int), 3], i ≤ 0) ∨
        [(2 : Int), 3].prod ≤ 2 ^ 31 ∧ oneByte byteMatrix.elem * [(2 : Int), 3].prod < 2 ^ 64 :=
  decodesWithin_iff .bits64 oneByte byteMatrix
    (.cons ⟨by norm_num, by norm_num⟩ (.cons ⟨by norm_num, by norm_num⟩ .nil)) _ rfl []
    (by rw [Reader.ofBytes_unread]; decide)

/-- The bytes of the dimensions 65536 and 65536. -/
def largeMatrix : List UInt8 := [0x84, 0x80, 0x00, 0x84, 0x80, 0x00]

/-- The index of the element in the middle is negative. -/
theorem not_decodesWithin_large :
    ¬ DecodesWithin .bits64 (oneByte byteMatrix.elem) byteMatrix.dim
      (Reader.ofBytes failing largeMatrix) := by
  have hdims : List.Forall₂ HoldsSize byteMatrix.dim [65536, 65536] :=
    .cons ⟨by norm_num, by norm_num⟩ (.cons ⟨by norm_num, by norm_num⟩ .nil)
  have hwire : (Reader.ofBytes failing largeMatrix).unread =
      wireDims byteMatrix.dim [65536, 65536] ++ [] := by
    rw [Reader.ofBytes_unread]
    decide +kernel
  rw [DecodesWithin, decodeArray_eq .bits64 _ hdims rfl hwire,
    within_iff .bits64 _ byteMatrix.hasVariable hdims (by simp)]
  norm_num

end LabComm.C
