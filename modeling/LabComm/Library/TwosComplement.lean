import LabComm.Library.Positional

set_option autoImplicit false

/-! # Signed numbers as byte strings

`unsigned w` and `signed w` go between a signed number of `w` bytes and the natural number its
bytes write; on the numbers that fit they are inverse to each other.
-/

namespace LabComm.Library

/-- The number fits into `w` bytes. -/
def SignedFits (w : Nat) (i : Int) : Prop := -(256 ^ w : Nat) ≤ 2 * i ∧ 2 * i < (256 ^ w : Nat)

instance (w : Nat) (i : Int) : Decidable (SignedFits w i) :=
  inferInstanceAs (Decidable (_ ∧ _))

/-- The natural number with the same `w` bytes. -/
def unsigned (w : Nat) (i : Int) : Nat := (i % (256 ^ w : Nat)).toNat

/-- The signed number with the same `w` bytes. -/
def signed (w n : Nat) : Int := (n : Int).bmod (256 ^ w)

theorem unsigned_lt (w : Nat) (i : Int) : unsigned w i < 256 ^ w := by
  have hpos : 0 < 256 ^ w := Nat.pow_pos (by norm_num)
  have h := Int.emod_lt_of_pos i (b := ((256 ^ w : Nat) : Int)) (by omega)
  have h' := Int.emod_nonneg i (b := ((256 ^ w : Nat) : Int)) (by omega)
  unfold unsigned
  omega

/-- The bytes above the lowest one. -/
theorem unsigned_succ_div (w : Nat) (i : Int) : unsigned (w + 1) i / 256 = unsigned w (i / 256) := by
  have hpos : 0 < 256 ^ w := Nat.pow_pos (by norm_num)
  have hdiv : i % ((256 ^ (w + 1) : Nat) : Int) / 256 = i / 256 % (256 ^ w : Nat) := by
    rw [pow_succ', Nat.cast_mul, Int.emod_def, Int.emod_def, ← Int.ediv_ediv_of_nonneg (by omega),
      Int.mul_assoc]
    generalize ((256 ^ w : Nat) : Int) * (i / ((256 : Nat) : Int) / ((256 ^ w : Nat) : Int)) = k
    omega
  have h := Int.emod_nonneg i (b := ((256 ^ (w + 1) : Nat) : Int)) (by positivity)
  have h' := Int.emod_nonneg (i / 256) (b := ((256 ^ w : Nat) : Int)) (by omega)
  unfold unsigned
  omega

/-- The lowest byte. -/
theorem unsigned_succ_mod (w : Nat) (i : Int) :
    unsigned (w + 1) i % 256 = (i % 256).toNat := by
  have hmod : i % ((256 ^ (w + 1) : Nat) : Int) % 256 = i % 256 :=
    Int.emod_emod_of_dvd i ⟨256 ^ w, by push_cast; ring⟩
  have h := Int.emod_nonneg i (b := ((256 ^ (w + 1) : Nat) : Int)) (by positivity)
  unfold unsigned
  omega

theorem signed_fits (w n : Nat) : SignedFits w (signed w n) := by
  have hpos : 0 < 256 ^ w := Nat.pow_pos (by norm_num)
  have hlow := Int.le_bmod (x := (n : Int)) hpos
  have hhigh := Int.bmod_lt (x := (n : Int)) hpos
  unfold SignedFits signed
  omega

theorem signed_unsigned {w : Nat} {i : Int} (h : SignedFits w i) :
    signed w (unsigned w i) = i := by
  have hpos : 0 < 256 ^ w := Nat.pow_pos (by norm_num)
  have hnonneg := Int.emod_nonneg i (b := ((256 ^ w : Nat) : Int)) (by omega)
  unfold SignedFits at h
  unfold signed unsigned
  rw [Int.toNat_of_nonneg hnonneg, Int.emod_bmod]
  apply Int.bmod_eq_of_le <;> omega

theorem unsigned_signed {w n : Nat} (h : n < 256 ^ w) : unsigned w (signed w n) = n := by
  unfold signed unsigned
  rw [Int.bmod_emod, Int.emod_eq_of_lt (by omega) (by omega), Int.toNat_natCast]

/-- What `w` bytes write is less than `256 ^ w`. -/
theorem ofBigEndian_lt (bs : List UInt8) : ofBigEndian bs < 256 ^ bs.length := by
  induction bs with
  | nil => simp [ofBigEndian]
  | cons b bs ih =>
      have hb : b.toNat < 256 := b.toNat_lt
      rw [ofBigEndian, List.length_cons, pow_succ]
      calc b.toNat * 256 ^ bs.length + ofBigEndian bs
          < b.toNat * 256 ^ bs.length + 256 ^ bs.length := by omega
        _ = (b.toNat + 1) * 256 ^ bs.length := by ring
        _ ≤ 256 * 256 ^ bs.length := Nat.mul_le_mul_right _ (by omega)
        _ = 256 ^ bs.length * 256 := Nat.mul_comm _ _

end LabComm.Library
