import LabComm.C.RoundTrip

set_option autoImplicit false

/-! # Numbers of variable length in C

`labcomm2014_write_packed32`, `labcomm2014_read_packed32` and `labcomm2014_size_packed32` agree
on every number of 32 bits, wherever the buffers end, and no shorter sequence of bytes is read
as the number (`packed32_codec`).
-/

namespace LabComm.C

open Library

variable {φ : Host}

/-- A number that is read without an error is in the bytes up to the first one below 128. -/
theorem readPacked32_consumes {r : Reader φ} (hr : r.error = 0)
    (hok : (readPacked32 r).2.error = 0) :
    ∃ bs, bs ≠ [] ∧ r.unread = bs ++ (readPacked32 r).2.unread ∧
      (readPacked32 r).1 = varintValue 0 bs % 2 ^ 32 := by
  rcases varint_split r.unread with ⟨init, last, rest, hsplit, hinit, hlast⟩ | hall
  · obtain ⟨hvalue, _, hrest⟩ :=
      (readPacked32_spelled (φ := φ) hinit hlast).reads r rest (not_not.mpr hr) hsplit
    refine ⟨init ++ [last], by simp, ?_, hvalue⟩
    have hunread : (readPacked32 r).2.unread = rest := hrest
    rw [hunread]
    exact hsplit
  · -- the number does not end, so that the reader fails
    have hparses := readPacked32_spelled (φ := φ) hall (show (0 : UInt8).toNat < 128 by decide)
    have hfails := hparses.starves r [0] (not_not.mpr hr) (by simp) rfl
    exact absurd hok hfails

/-- What the three functions do with a number. -/
structure Packed32Codec (v : Nat) : Prop where
  /-- What is written has the size that is computed, and is read as the number. -/
  roundTrip : ∀ (ω : WriterAction) (w : Writer ω), ω.Flushes → ∃ bs : List UInt8,
    (writePacked32 v w).1 = 0 ∧ (writePacked32 v w).2.written = w.written ++ bs ∧
      bs.length = sizePacked32 v ∧ 1 ≤ bs.length ∧ bs.length ≤ 5 ∧
        ∀ (φ : Host) (r : Reader φ) (rest : List UInt8), r.error = 0 →
          r.unread = bs ++ rest → (readPacked32 r).1 = v ∧ (readPacked32 r).2.error = 0 ∧
            (readPacked32 r).2.unread = rest
  /-- No other number is written as the same bytes. -/
  unique : ∀ (ω : WriterAction) (w : Writer ω), ω.Flushes → ∀ v' < 2 ^ 32,
    (writePacked32 v' w).2.written = (writePacked32 v w).2.written → v' = v
  /-- Whatever is read as the number has at least as many bytes. -/
  shortest : ∀ (φ : Host) (r : Reader φ), r.error = 0 → (readPacked32 r).1 = v →
    (readPacked32 r).2.error = 0 →
      ∃ bs, r.unread = bs ++ (readPacked32 r).2.unread ∧ sizePacked32 v ≤ bs.length

theorem packed32_roundTrip {v : Nat} (hv : v < 2 ^ 32) (ω : WriterAction) (w : Writer ω)
    (hω : ω.Flushes) : ∃ bs : List UInt8,
      (writePacked32 v w).1 = 0 ∧ (writePacked32 v w).2.written = w.written ++ bs ∧
        bs.length = sizePacked32 v ∧ 1 ≤ bs.length ∧ bs.length ≤ 5 ∧
          ∀ (φ : Host) (r : Reader φ) (rest : List UInt8), r.error = 0 →
            r.unread = bs ++ rest → (readPacked32 r).1 = v ∧ (readPacked32 r).2.error = 0 ∧
              (readPacked32 r).2.unread = rest := by
  obtain ⟨hresult, _, _, hwritten⟩ := writePacked32_emits v w hω
  refine ⟨packed32 v, hresult, hwritten, (sizePacked32_eq v).symm, varint_length_pos 4 v,
    varint_length_le 5 v, fun φ r rest hr hu => ?_⟩
  obtain ⟨hvalue, hok, hrest⟩ := (readPacked32_parses hv).reads r rest (not_not.mpr hr) hu
  exact ⟨hvalue, not_not.mp hok, hrest⟩

theorem packed32_unique {v v' : Nat} (hv : v < 2 ^ 32) (hv' : v' < 2 ^ 32) {ω : WriterAction}
    (w : Writer ω) (hω : ω.Flushes)
    (h : (writePacked32 v' w).2.written = (writePacked32 v w).2.written) : v' = v := by
  have hleft : (writePacked32 v' w).2.written = w.written ++ packed32 v' :=
    (writePacked32_emits v' w hω).2.2.2
  have hright : (writePacked32 v w).2.written = w.written ++ packed32 v :=
    (writePacked32_emits v w hω).2.2.2
  rw [hleft, hright, List.append_cancel_left_eq] at h
  have hbound : 2 ^ 32 < 128 ^ (4 + 1) := by norm_num
  exact (varint_append_inj (r := []) (s := []) (hv'.trans hbound) (hv.trans hbound)
    (by simpa [packed32] using h)).1

theorem packed32_shortest {v : Nat} {r : Reader φ} (hr : r.error = 0)
    (hvalue : (readPacked32 r).1 = v) (hok : (readPacked32 r).2.error = 0) :
    ∃ bs, r.unread = bs ++ (readPacked32 r).2.unread ∧ sizePacked32 v ≤ bs.length := by
  obtain ⟨bs, hne, hsplit, hread⟩ := readPacked32_consumes hr hok
  refine ⟨bs, hsplit, ?_⟩
  rw [sizePacked32_eq]
  by_cases hlong : 5 ≤ bs.length
  · exact (varint_length_le 5 v).trans hlong
  · -- four bytes hold less than 32 bits
    have hlt : varintValue 0 bs < 2 ^ 32 := by
      calc varintValue 0 bs < (0 + 1) * 128 ^ bs.length := varintValue_lt 0 bs
        _ ≤ 1 * 128 ^ 4 := Nat.mul_le_mul_left _ (Nat.pow_le_pow_right (by norm_num) (by omega))
        _ < 2 ^ 32 := by norm_num
    rw [Nat.mod_eq_of_lt hlt] at hread
    exact varint_length_le_of_value hne (hread.symm.trans hvalue)

/-- **The codec of numbers of variable length.** -/
theorem packed32_codec {v : Nat} (hv : v < 2 ^ 32) : Packed32Codec v where
  roundTrip := packed32_roundTrip hv
  unique _ w hω _ hv' h := packed32_unique hv hv' w hω h
  shortest _ _ hr hvalue hok := packed32_shortest hr hvalue hok

/-- The first number of three bytes. -/
theorem packed32_codec_16384 : Packed32Codec 16384 := packed32_codec (by norm_num)

end LabComm.C
