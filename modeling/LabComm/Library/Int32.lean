import Mathlib.Tactic

set_option autoImplicit false

/-! # 32-bit machine integers

`wrap32` reduces an integer to the value a signed 32-bit variable holds after it is assigned,
and `toUnsigned` is the conversion to an unsigned variable of the same width.
-/

namespace LabComm.Library

/-- The value of a signed 32-bit variable that was assigned `i`. -/
def wrap32 (i : Int) : Int := i.bmod (2 ^ 32)

/-- The value of an unsigned 32-bit variable that was assigned `i`. -/
def toUnsigned (i : Int) : Nat := (i % 2 ^ 32).toNat

theorem wrap32_of_lt {i : Int} (h0 : -2 ^ 31 ≤ i) (h1 : i < 2 ^ 31) : wrap32 i = i := by
  rw [wrap32]
  apply Int.bmod_eq_of_le <;> norm_num <;> omega

theorem wrap32_natCast {n : Nat} (h : n < 2 ^ 31) : wrap32 n = n :=
  wrap32_of_lt (by omega) (by omega)

/-- From `2 ^ 31` on a number of 32 bits is negative. -/
theorem wrap32_natCast_of_ge {n : Nat} (h0 : 2 ^ 31 ≤ n) (h1 : n < 2 ^ 32) :
    wrap32 n = n - 2 ^ 32 := by
  have hsub : wrap32 (n - 2 ^ 32) = wrap32 n := Int.sub_bmod_right n (2 ^ 32)
  rw [← hsub, wrap32_of_lt (by omega) (by omega)]

theorem wrap32_ge (i : Int) : -2 ^ 31 ≤ wrap32 i := by
  have := Int.le_bmod (x := i) (m := 2 ^ 32) (by norm_num)
  rw [wrap32]
  norm_num at this ⊢
  omega

theorem wrap32_lt (i : Int) : wrap32 i < 2 ^ 31 := by
  have := Int.bmod_lt (x := i) (m := 2 ^ 32) (by norm_num)
  rw [wrap32]
  norm_num at this ⊢
  omega

@[simp] theorem wrap32_wrap32_add (i j : Int) : wrap32 (wrap32 i + j) = wrap32 (i + j) := by
  simp [wrap32]

@[simp] theorem wrap32_add_wrap32 (i j : Int) : wrap32 (i + wrap32 j) = wrap32 (i + j) := by
  simp [wrap32]

@[simp] theorem wrap32_mul_wrap32 (i j : Int) : wrap32 (i * wrap32 j) = wrap32 (i * j) := by
  simp [wrap32]

@[simp] theorem wrap32_wrap32_mul (i j : Int) : wrap32 (wrap32 i * j) = wrap32 (i * j) := by
  simp [wrap32]

@[simp] theorem wrap32_wrap32 (i : Int) : wrap32 (wrap32 i) = wrap32 i := by
  simpa using wrap32_wrap32_add i 0

theorem toUnsigned_lt (i : Int) : toUnsigned i < 2 ^ 32 := by
  rw [toUnsigned]
  omega

theorem toUnsigned_natCast {n : Nat} (h : n < 2 ^ 32) : toUnsigned n = n := by
  rw [toUnsigned]
  omega

theorem toUnsigned_of_nonneg {i : Int} (h0 : 0 ≤ i) (h1 : i < 2 ^ 32) :
    (toUnsigned i : Int) = i := by
  rw [toUnsigned]
  omega

@[simp] theorem toUnsigned_wrap32 (i : Int) : toUnsigned (wrap32 i) = toUnsigned i := by
  rw [toUnsigned, toUnsigned, wrap32]
  congr 1
  exact Int.bmod_emod

/-- Converting to unsigned and back is the identity of the signed type. -/
theorem wrap32_toUnsigned {i : Int} (h0 : -2 ^ 31 ≤ i) (h1 : i < 2 ^ 31) :
    wrap32 (toUnsigned i) = i := by
  have key : ((toUnsigned i : Nat) : Int) = i % 2 ^ 32 := by
    rw [toUnsigned]
    omega
  rw [key, wrap32]
  have := Int.emod_bmod i (2 ^ 32)
  norm_num at this ⊢
  rw [this]
  exact wrap32_of_lt h0 h1

end LabComm.Library
