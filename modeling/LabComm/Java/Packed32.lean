import LabComm.C.Packed32
import LabComm.CSharp.Encoder
import LabComm.Java.EncoderChannel
import LabComm.Java.DecoderChannel

set_option autoImplicit false

/-! # Numbers of variable length in Java

`0xffffffff` is an `int` in Java, so that the mask of the writers keeps every bit of a `long`.
An `int` below 0 stays below 0 when it is shifted, and fills `tmp` until its end. The writers
write what C and C# write exactly for the numbers below `2 ^ 31` (`writersAgree_iff`).
-/

namespace LabComm.Java

open Library

/-! ## The writers -/

/-- What a writer throws. -/
inductive PackedException where
  | arrayIndexOutOfBounds
  /-- The `Error` with the text "wrong length". -/
  | wrongLength
  deriving DecidableEq

/-- An `int` as an argument of type `long`. -/
def toLong (i : BitVec 32) : BitVec 64 := i.signExtend 64

/-- `value & 0xffffffff` -/
def masked (value : BitVec 64) : BitVec 64 := value &&& toLong 0xffffffff#32

/-- The loop that fills `tmp`, which has room for `room` more bytes; `flag` is stored with all
groups but the first. -/
def fillGroups (flag : BitVec 64) : Nat → Bool → BitVec 64 → Except PackedException (List UInt8)
  | room, first, v =>
      if first || v ≠ 0 then
        match room with
        | 0 => throw .arrayIndexOutOfBounds
        | room + 1 => do
            let tmp ← fillGroups flag room false (v.sshiftRight 7)
            pure (UInt8.ofNat (v &&& 0x7f ||| if first then 0x00 else flag).toNat :: tmp)
      else pure []

/-- The bytes of `tmp` from the end, with the flag on all but `tmp[0]`. -/
def emitGroups (tmp : List UInt8) : List UInt8 :=
  (tmp.mapIdx fun i b => b ||| if i ≠ 0 then 0x80 else 0x00).reverse

/-- `EncoderChannel.WritePacked32` -/
def EncoderChannel.writePacked32 (value : BitVec 64) : Except PackedException (List UInt8) := do
  let tmp1 ← fillGroups 0x80 5 true (masked value)
  pure tmp1.reverse

/-- `EncoderChannel.encodePacked32` -/
def EncoderChannel.encodePacked32 (value : BitVec 64) : Except PackedException (List UInt8) := do
  let tmp ← fillGroups 0x00 5 true (masked value)
  pure (emitGroups tmp)

/-- The groups that the loop of `size_packed32` counts after the first; `>>>` shifts in zeros. -/
def Utilities.countGroups (d : BitVec 64) : Nat :=
  if d = 0 then 0 else countGroups (d >>> 7) + 1
termination_by d.toNat
decreasing_by
  rw [BitVec.toNat_ushiftRight, Nat.shiftRight_eq_div_pow]
  exact Nat.div_lt_self (Nat.pos_of_ne_zero fun h => ‹d ≠ 0› (BitVec.eq_of_toNat_eq h))
    (by norm_num)

/-- `Utilities.size_packed32` -/
def Utilities.sizePacked32 (data : BitVec 64) : Nat := countGroups (masked data >>> 7) + 1

/-- `buf[pos++] = …` for some bytes. -/
def Utilities.storeAll (buf : List UInt8) (pos : Nat) :
    List UInt8 → Except PackedException (List UInt8 × Nat)
  | [] => pure (buf, pos)
  | b :: bs =>
      if pos < buf.length then storeAll (buf.set pos b) (pos + 1) bs
      else throw .arrayIndexOutOfBounds

/-- `Utilities.encodePacked32`, with `buf` afterwards and the position that is returned. -/
def Utilities.encodePacked32 (value : BitVec 64) (buf : List UInt8) (start len : Nat) :
    Except PackedException (List UInt8 × Nat) := do
  let tmp ← fillGroups 0x00 5 true (masked value)
  if tmp.length ≠ len then
    throw .wrongLength
  storeAll buf start (emitGroups tmp)

/-! ## The groups of a number -/

@[simp] theorem masked_eq (value : BitVec 64) : masked value = value := by
  have hones : toLong 0xffffffff#32 = BitVec.allOnes 64 := by decide
  rw [masked, hones, BitVec.and_allOnes]

theorem toInt_toLong (x : BitVec 32) : (toLong x).toInt = x.toInt := by
  rw [toLong, BitVec.toInt_signExtend_of_le (by norm_num)]

theorem toInt_shift (v : BitVec 64) : (v.sshiftRight 7).toInt = v.toInt / 128 := by
  rw [BitVec.toInt_sshiftRight, Int.shiftRight_eq_div_pow]
  norm_num

theorem ne_zero_iff (v : BitVec 64) : v ≠ 0 ↔ v.toInt ≠ 0 := by
  rw [ne_eq, ne_eq, ← BitVec.toInt_inj]
  simp

/-- A stored byte, with the flag or without. -/
theorem group_eq (v : BitVec 64) :
    UInt8.ofNat (v &&& 0x7f).toNat = UInt8.ofNat (v.toNat % 128) := by
  rw [BitVec.toNat_and]
  exact congrArg UInt8.ofNat (Nat.and_two_pow_sub_one_eq_mod v.toNat 7)

theorem flagged_group_eq (v : BitVec 64) :
    UInt8.ofNat (v &&& 0x7f ||| 0x80).toNat = UInt8.ofNat (v.toNat % 128 + 128) := by
  have hlow : (v &&& 0x7f).toNat = v.toNat % 128 := by
    rw [BitVec.toNat_and]
    exact Nat.and_two_pow_sub_one_eq_mod v.toNat 7
  have hor := Nat.two_pow_add_eq_or_of_lt (i := 7) (Nat.mod_lt v.toNat (by norm_num)) 1
  rw [BitVec.toNat_or, hlow]
  refine congrArg UInt8.ofNat ?_
  calc v.toNat % 128 ||| 128 = 2 ^ 7 * 1 ||| v.toNat % 128 := Nat.or_comm _ _
    _ = v.toNat % 128 + 128 := by rw [← hor]; omega

/-- One round of the loop. -/
theorem fillGroups_succ {flag : BitVec 64} {room : Nat} {first : Bool} {v : BitVec 64}
    (h : first = true ∨ v ≠ 0) : fillGroups flag (room + 1) first v = (do
      let tmp ← fillGroups flag room false (v.sshiftRight 7)
      pure (UInt8.ofNat (v &&& 0x7f ||| if first then 0x00 else flag).toNat :: tmp)) := by
  rw [fillGroups, if_pos (by simpa only [Bool.or_eq_true, decide_eq_true_iff] using h)]

theorem fillGroups_full {flag : BitVec 64} {first : Bool} {v : BitVec 64}
    (h : first = true ∨ v ≠ 0) : fillGroups flag 0 first v = .error .arrayIndexOutOfBounds := by
  rw [fillGroups, if_pos (by simpa only [Bool.or_eq_true, decide_eq_true_iff] using h)]
  rfl

theorem fillGroups_end (flag : BitVec 64) (room : Nat) : fillGroups flag room false 0 = .ok [] := by
  cases room <;> rfl

theorem not_more {first : Bool} {v : BitVec 64} (h : ¬ (first = true ∨ v ≠ 0)) :
    first = false ∧ v = 0 := by
  simpa using h

/-! ## Numbers below 0 -/

/-- The shift keeps the sign, so that the loop does not end before `tmp` does. -/
theorem fillGroups_neg (flag : BitVec 64) (room : Nat) (first : Bool) {v : BitVec 64}
    (hv : v.toInt < 0) : fillGroups flag room first v = .error .arrayIndexOutOfBounds := by
  have h0 : v ≠ 0 := (ne_zero_iff v).mpr (by omega)
  induction room generalizing v first with
  | zero => exact fillGroups_full (.inr h0)
  | succ room ih =>
      have hshift : (v.sshiftRight 7).toInt < 0 := by
        rw [toInt_shift]
        omega
      rw [fillGroups_succ (.inr h0), ih false hshift ((ne_zero_iff _).mpr (by omega))]
      rfl

/-! ## Numbers from 0 on -/

theorem toNat_shift {v : BitVec 64} (hv : v.msb = false) :
    (v.sshiftRight 7).msb = false ∧ (v.sshiftRight 7).toNat = v.toNat / 128 := by
  constructor
  · rw [BitVec.msb_sshiftRight, hv]
  · rw [BitVec.sshiftRight_eq_of_msb_false hv, BitVec.toNat_ushiftRight,
      Nat.shiftRight_eq_div_pow]

theorem packedGroups_succ {room n : Nat} {first : Bool} (h : first = true ∨ n ≠ 0) :
    CSharp.packedGroups (room + 1) n first =
      UInt8.ofNat (n % 128 + if first then 0 else 128) ::
        CSharp.packedGroups room (n / 128) false := by
  rw [CSharp.packedGroups, if_pos (by simpa using h)]

/-- The loop stores what the loop in C# stores, if `tmp` has the room. -/
theorem fillGroups_eq (room : Nat) (first : Bool) {v : BitVec 64} (hv : v.msb = false)
    (hroom : v.toNat < 128 ^ room) (hfirst : first = true → 0 < room) :
    fillGroups 0x80 room first v = .ok (CSharp.packedGroups room v.toNat first) := by
  induction room generalizing v first with
  | zero =>
      have h0 : v = 0 := BitVec.eq_of_toNat_eq (by simpa using hroom)
      cases first with
      | true => exact absurd (hfirst rfl) (by omega)
      | false =>
          subst h0
          rfl
  | succ room ih =>
      by_cases hmore : first = true ∨ v ≠ 0
      · obtain ⟨hmsb, hdiv⟩ := toNat_shift hv
        have hless : (v.sshiftRight 7).toNat < 128 ^ room := by
          rw [hdiv, Nat.div_lt_iff_lt_mul (by norm_num), ← pow_succ]
          exact hroom
        have hmore' : first = true ∨ v.toNat ≠ 0 :=
          hmore.imp_right fun h h' => h (BitVec.eq_of_toNat_eq h')
        have hbyte : UInt8.ofNat (v &&& 0x7f ||| if first then 0x00 else 0x80).toNat =
            UInt8.ofNat (v.toNat % 128 + if first then 0 else 128) := by
          cases first with
          | true => exact (congrArg _ (congrArg _ (BitVec.or_zero))).trans (group_eq v)
          | false => exact flagged_group_eq v
        rw [fillGroups_succ hmore, packedGroups_succ hmore', ih false hmsb hless (by simp), hdiv,
          hbyte]
        rfl
      · obtain ⟨rfl, rfl⟩ := not_more hmore
        rw [fillGroups_end]
        simp [CSharp.packedGroups]

/-- The loop without the flag stores the same, but for the flag. -/
theorem fillGroups_flag (room : Nat) (first : Bool) (v : BitVec 64) :
    fillGroups 0x80 room first v = (fillGroups 0x00 room first v).map
      fun tmp => tmp.mapIdx fun i b => b ||| if first = true ∧ i = 0 then 0x00 else 0x80 := by
  induction room generalizing v first with
  | zero =>
      by_cases hmore : first = true ∨ v ≠ 0
      · rw [fillGroups_full hmore, fillGroups_full hmore]
        rfl
      · obtain ⟨rfl, rfl⟩ := not_more hmore
        rfl
  | succ room ih =>
      by_cases hmore : first = true ∨ v ≠ 0
      · rw [fillGroups_succ hmore, fillGroups_succ hmore, ih]
        cases fillGroups 0x00 room false (v.sshiftRight 7) with
        | error e => rfl
        | ok tmp =>
            have hbyte : UInt8.ofNat (v &&& 0x7f ||| if first then 0x00 else 0x80).toNat =
                UInt8.ofNat (v &&& 0x7f ||| if first then 0x00 else 0x00).toNat |||
                  if first = true ∧ 0 = 0 then 0x00 else 0x80 := by
              cases first with
              | true => simp
              | false => simp
            simp only [Except.map, bind, Except.bind, pure, Except.pure, List.mapIdx_cons, hbyte]
            simp
      · obtain ⟨rfl, rfl⟩ := not_more hmore
        rfl

theorem emitGroups_fill (room : Nat) (v : BitVec 64) :
    (fillGroups 0x00 room true v).map emitGroups =
      (fillGroups 0x80 room true v).map List.reverse := by
  rw [fillGroups_flag]
  cases fillGroups 0x00 room true v with
  | error e => rfl
  | ok tmp =>
      have hflag : (fun (i : Nat) (b : UInt8) => b ||| if i ≠ 0 then 0x80 else 0x00) =
          fun i b => b ||| if true = true ∧ i = 0 then 0x00 else 0x80 := by
        funext i b
        by_cases h : i = 0 <;> simp [h]
      simp only [Except.map, emitGroups, hflag]

/-- The shifts with and without the sign agree, so that the size is right. -/
theorem countGroups_eq {k n : Nat} {d : BitVec 64} (hd : d.toNat = n) (hn : n < 128 ^ k) :
    Utilities.countGroups d = (CSharp.packedGroups k n false).length := by
  induction k generalizing d n with
  | zero =>
      have h0 : d = 0 := BitVec.eq_of_toNat_eq (by simpa [hd] using hn)
      rw [Utilities.countGroups, if_pos h0]
      rfl
  | succ k ih =>
      rw [Utilities.countGroups]
      by_cases h0 : d = 0
      · have hn0 : n = 0 := by rw [← hd, h0]; rfl
        rw [if_pos h0, hn0]
        rfl
      · have hn0 : n ≠ 0 := fun h => h0 (BitVec.eq_of_toNat_eq (by rw [hd, h]; rfl))
        have hshift : (d >>> 7).toNat = n / 128 := by
          rw [BitVec.toNat_ushiftRight, Nat.shiftRight_eq_div_pow, hd]
        have hless : n / 128 < 128 ^ k := by
          rw [Nat.div_lt_iff_lt_mul (by norm_num), ← pow_succ]
          exact hn
        rw [if_neg h0, packedGroups_succ (.inr hn0), List.length_cons, ih hshift hless]

theorem storeAll_eq (before old after bytes : List UInt8) (h : bytes.length = old.length) :
    Utilities.storeAll (before ++ old ++ after) before.length bytes =
      .ok (before ++ bytes ++ after, before.length + bytes.length) := by
  induction bytes generalizing before old with
  | nil =>
      obtain rfl : old = [] := List.length_eq_zero_iff.mp h.symm
      rfl
  | cons b bytes ih =>
      cases old with
      | nil => simp at h
      | cons o old =>
          have hrest := ih (before ++ [b]) old (by simpa using h)
          rw [Utilities.storeAll, if_pos (by simp)]
          have hset : (before ++ o :: old ++ after).set before.length b =
              before ++ [b] ++ old ++ after := by simp
          rw [hset, show before.length + 1 = (before ++ [b]).length by simp, hrest]
          simp
          omega

/-! ## The writers of the four languages -/

/-- The writers write `bytes` for the 32 bits `x`, and `bytes` are read as the `int` `x`. -/
structure AllWrite (x : BitVec 32) (bytes : List UInt8) : Prop where
  c : ∀ (ω : C.WriterAction) (w : C.Writer ω), ω.Flushes →
    (C.writePacked32 x.toNat w).1 = 0 ∧ (C.writePacked32 x.toNat w).2.written = w.written ++ bytes
  csharp : CSharp.writePacked32 x.toNat = bytes
  write : EncoderChannel.writePacked32 (toLong x) = .ok bytes
  encode : EncoderChannel.encodePacked32 (toLong x) = .ok bytes
  /-- In a buffer with room for what `size_packed32` returns. -/
  utilities : ∀ before old after : List UInt8, old.length = Utilities.sizePacked32 (toLong x) →
    Utilities.encodePacked32 (toLong x) (before ++ old ++ after) before.length
        (Utilities.sizePacked32 (toLong x)) =
      .ok (before ++ bytes ++ after, before.length + bytes.length)
  decode : Consumes decodePacked32 bytes x.toInt

/-- The writers agree on the 32 bits `x`. -/
def WritersAgree (x : BitVec 32) : Prop := ∃ bytes, AllWrite x bytes

theorem msb_toLong (x : BitVec 32) : (toLong x).msb = x.msb := by
  rw [BitVec.msb_eq_toInt, BitVec.msb_eq_toInt, toInt_toLong]

theorem toNat_toLong {x : BitVec 32} (hx : x.msb = false) : (toLong x).toNat = x.toNat := by
  rw [toLong, BitVec.signExtend_eq_setWidth_of_msb_false hx, BitVec.toNat_setWidth]
  have := x.isLt
  omega

theorem toInt_eq_wrap32 (x : BitVec 32) : x.toInt = wrap32 x.toNat := BitVec.toInt_eq_toNat_bmod x

/-- The groups of a number below `2 ^ 31`, the lowest first. -/
theorem fillGroups_toLong {x : BitVec 32} (hx : x.msb = false) :
    fillGroups 0x80 5 true (masked (toLong x)) =
      .ok (CSharp.packedGroups 5 x.toNat true) := by
  have hlt : x.toNat < 2 ^ 32 := x.isLt
  rw [masked_eq, ← toNat_toLong hx]
  refine fillGroups_eq 5 true (by rw [msb_toLong, hx]) ?_ (by simp)
  rw [toNat_toLong hx]
  omega

theorem fillGroups_toLong_neg {x : BitVec 32} (hx : x.msb = true) (flag : BitVec 64) :
    fillGroups flag 5 true (masked (toLong x)) = .error .arrayIndexOutOfBounds := by
  rw [masked_eq]
  refine fillGroups_neg flag 5 true ?_
  rw [BitVec.msb_eq_toInt, decide_eq_true_iff] at hx
  rwa [toInt_toLong]

variable {x : BitVec 32}

theorem writePacked32_toLong (hx : x.msb = false) :
    EncoderChannel.writePacked32 (toLong x) = .ok (packed32 x.toNat) := by
  rw [EncoderChannel.writePacked32, fillGroups_toLong hx,
    ← CSharp.packedGroups_first_reverse 5 x.isLt (by norm_num)]
  rfl

/-- What is stored without the flag. -/
theorem unflagged_toLong (hx : x.msb = false) : ∃ tmp,
    fillGroups 0x00 5 true (masked (toLong x)) = .ok tmp ∧ emitGroups tmp = packed32 x.toNat ∧
      tmp.length = (packed32 x.toNat).length := by
  have hfill := emitGroups_fill 5 (masked (toLong x))
  rw [fillGroups_toLong hx] at hfill
  cases htmp : fillGroups 0x00 5 true (masked (toLong x)) with
  | error e =>
      rw [htmp] at hfill
      cases hfill
  | ok tmp =>
      rw [htmp] at hfill
      have hemit : emitGroups tmp = packed32 x.toNat := by
        rw [← CSharp.packedGroups_first_reverse 5 x.isLt (by norm_num)]
        exact Except.ok.inj hfill
      refine ⟨tmp, rfl, hemit, ?_⟩
      rw [← hemit]
      simp [emitGroups]

theorem encodePacked32_toLong (hx : x.msb = false) :
    EncoderChannel.encodePacked32 (toLong x) = .ok (packed32 x.toNat) := by
  obtain ⟨tmp, hfill, hemit, _⟩ := unflagged_toLong hx
  rw [EncoderChannel.encodePacked32, hfill, ← hemit]
  rfl

theorem sizePacked32_toLong (hx : x.msb = false) :
    Utilities.sizePacked32 (toLong x) = (packed32 x.toNat).length := by
  have hlt : x.toNat < 2 ^ 32 := x.isLt
  have hshift : (masked (toLong x) >>> 7).toNat = x.toNat / 128 := by
    rw [masked_eq, BitVec.toNat_ushiftRight, Nat.shiftRight_eq_div_pow, toNat_toLong hx]
  rw [Utilities.sizePacked32, countGroups_eq (k := 4) hshift (by omega),
    ← CSharp.packedGroups_first_reverse 5 x.isLt (by norm_num), List.length_reverse,
    packedGroups_succ (.inl rfl), List.length_cons]

theorem utilities_toLong (hx : x.msb = false) (before old after : List UInt8)
    (hold : old.length = Utilities.sizePacked32 (toLong x)) :
    Utilities.encodePacked32 (toLong x) (before ++ old ++ after) before.length
        (Utilities.sizePacked32 (toLong x)) =
      .ok (before ++ packed32 x.toNat ++ after,
        before.length + (packed32 x.toNat).length) := by
  obtain ⟨tmp, hfill, hemit, hlength⟩ := unflagged_toLong hx
  have hsize := sizePacked32_toLong hx
  have hstore := storeAll_eq before old after (packed32 x.toNat) (by rw [hold, hsize])
  rw [Utilities.encodePacked32, hfill, ← hstore, ← hemit]
  simp [bind, Except.bind, hlength, hsize]

/-- **The writers agree exactly on the numbers below `2 ^ 31`**, which are the `int`s from 0
on. -/
theorem writersAgree_iff (x : BitVec 32) : WritersAgree x ↔ x.toNat < 2 ^ 31 := by
  have hmsb : x.toNat < 2 ^ 31 ↔ x.msb = false := by
    rw [BitVec.msb_eq_decide, decide_eq_false_iff_not, not_le]
  rw [hmsb]
  constructor
  · rintro ⟨bytes, h⟩
    by_contra hx
    have hthrown := h.write
    rw [EncoderChannel.writePacked32, fillGroups_toLong_neg (by simpa using hx)] at hthrown
    cases hthrown
  · intro hx
    refine ⟨packed32 x.toNat, ?_, ?_, writePacked32_toLong hx, encodePacked32_toLong hx,
      utilities_toLong hx, ?_⟩
    · intro ω w hω
      obtain ⟨hresult, _, _, hwritten⟩ := C.writePacked32_emits x.toNat w hω
      exact ⟨hresult, hwritten⟩
    · rw [CSharp.writePacked32_eq, toUnsigned_natCast x.isLt]
    · rw [toInt_eq_wrap32]
      exact decodePacked32_consumes x.isLt

/-- From `2 ^ 31` on, each of the writers throws. -/
theorem writers_throw (hx : 2 ^ 31 ≤ x.toNat) :
    EncoderChannel.writePacked32 (toLong x) = .error .arrayIndexOutOfBounds ∧
    EncoderChannel.encodePacked32 (toLong x) = .error .arrayIndexOutOfBounds ∧
    ∀ (buf : List UInt8) (start len : Nat),
      Utilities.encodePacked32 (toLong x) buf start len = .error .arrayIndexOutOfBounds := by
  have hmsb : x.msb = true := by
    rw [BitVec.msb_eq_decide, decide_eq_true_iff]
    exact hx
  refine ⟨?_, ?_, fun buf start len => ?_⟩
  · rw [EncoderChannel.writePacked32, fillGroups_toLong_neg hmsb]
    rfl
  · rw [EncoderChannel.encodePacked32, fillGroups_toLong_neg hmsb]
    rfl
  · rw [Utilities.encodePacked32, fillGroups_toLong_neg hmsb]
    rfl

/-- C and C# write `8F FF FF FF 7F` for the largest number. -/
theorem not_writersAgree_max : ¬ WritersAgree 0xffffffff#32 := by
  rintro ⟨bytes, h⟩
  have hthrown := h.write
  rw [EncoderChannel.writePacked32, fillGroups_toLong_neg (by decide)] at hthrown
  cases hthrown

end LabComm.Java
