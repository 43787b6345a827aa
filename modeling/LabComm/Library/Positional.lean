import Mathlib.Data.Nat.Digits.Defs
import Mathlib.Tactic

set_option autoImplicit false

/-! # Positional numerals as byte strings

Two ways of writing a natural number as bytes, most significant position first:

* `bigEndian w n`: exactly `w` bytes, base 256;
* `varint k n`: at most `k` groups of seven bits, where every byte but the last has its top
  bit set.

Both have a reading function that inverts them (`ofBigEndian_bigEndian`,
`varintValue_varint`), and a varint can be found at the front of a longer string because only
its last byte is below 128 (`varint_shape`).
-/

namespace LabComm.Library

/-! ## Fixed width -/

/-- The byte of weight `256 ^ i` of `n`. -/
def byteAt (n i : Nat) : UInt8 := UInt8.ofNat (n / 256 ^ i)

/-- The `w` low bytes of `n`, most significant first. -/
def bigEndian : Nat → Nat → List UInt8
  | 0, _ => []
  | w + 1, n => byteAt n w :: bigEndian w n

/-- The number a byte string writes, most significant byte first. -/
def ofBigEndian : List UInt8 → Nat
  | [] => 0
  | b :: bs => b.toNat * 256 ^ bs.length + ofBigEndian bs

theorem byteAt_toNat (n i : Nat) : (byteAt n i).toNat = n / 256 ^ i % 256 := by
  simp [byteAt]

@[simp] theorem bigEndian_length (w n : Nat) : (bigEndian w n).length = w := by
  induction w with
  | zero => rfl
  | succ w ih => simp [bigEndian, ih]

theorem ofBigEndian_bigEndian_mod (w n : Nat) : ofBigEndian (bigEndian w n) = n % 256 ^ w := by
  induction w with
  | zero => simp [bigEndian, ofBigEndian, Nat.mod_one]
  | succ w ih =>
      rw [bigEndian, ofBigEndian, bigEndian_length, byteAt_toNat, ih, Nat.mod_pow_succ]
      ring

theorem ofBigEndian_bigEndian {w n : Nat} (h : n < 256 ^ w) :
    ofBigEndian (bigEndian w n) = n := by
  rw [ofBigEndian_bigEndian_mod, Nat.mod_eq_of_lt h]

/-- The last byte is the lowest one. -/
theorem bigEndian_concat (w n : Nat) :
    bigEndian (w + 1) n = bigEndian w (n / 256) ++ [UInt8.ofNat n] := by
  induction w with
  | zero => simp [bigEndian, byteAt]
  | succ w ih =>
      have hbyte : byteAt n (w + 1) = byteAt (n / 256) w := by
        rw [byteAt, byteAt, Nat.div_div_eq_div_mul, pow_succ']
      rw [bigEndian, ih, hbyte]
      rfl

/-! ## Seven bits at a time -/

/-- The base-128 digits of `n`, least significant first and at least one of them; no more
than `k` are produced. -/
def groups : Nat → Nat → List Nat
  | 0, _ => []
  | k + 1, n => n % 128 :: if n / 128 = 0 then [] else groups k (n / 128)

/-- The digits as bytes, most significant first. `f` is added to the last byte, 128 to every
other one. -/
def flagged (f : Nat) : List Nat → List UInt8
  | [] => []
  | g :: gs => flagged 128 gs ++ [UInt8.ofNat (g + f)]

/-- `n` in at most `k` seven-bit groups, most significant first, with the continuation bit on
every byte but the last. -/
def varint (k n : Nat) : List UInt8 := flagged 0 (groups k n)

/-- The number the low seven bits of a byte string write, after the number `acc`. -/
def varintValue (acc : Nat) (bs : List UInt8) : Nat :=
  bs.foldl (fun a b => a * 128 + b.toNat % 128) acc

@[simp] theorem varintValue_nil (acc : Nat) : varintValue acc [] = acc := rfl

@[simp] theorem varintValue_cons (acc : Nat) (b : UInt8) (bs : List UInt8) :
    varintValue acc (b :: bs) = varintValue (acc * 128 + b.toNat % 128) bs := rfl

theorem varintValue_append (acc : Nat) (bs cs : List UInt8) :
    varintValue acc (bs ++ cs) = varintValue (varintValue acc bs) cs := by
  simp [varintValue, List.foldl_append]

/-- The value modulo `m` depends only on the number before it modulo `m`. -/
theorem varintValue_mod (m acc : Nat) (bs : List UInt8) :
    varintValue (acc % m) bs % m = varintValue acc bs % m := by
  induction bs generalizing acc with
  | nil => simp
  | cons b bs ih =>
      rw [varintValue_cons, varintValue_cons, ← ih, ← ih (acc * 128 + b.toNat % 128)]
      congr 2
      rw [Nat.add_mod, Nat.mul_mod, Nat.mod_mod, ← Nat.mul_mod, ← Nat.add_mod]

theorem groups_lt (k n : Nat) : ∀ g ∈ groups k n, g < 128 := by
  induction k generalizing n with
  | zero => intro g hg; cases hg
  | succ k ih =>
      intro g hg
      rcases List.mem_cons.mp hg with rfl | hg
      · exact Nat.mod_lt _ (by decide)
      · split at hg
        · cases hg
        · exact ih _ g hg

theorem ofDigits_groups {k n : Nat} (h : n < 128 ^ k) : Nat.ofDigits 128 (groups k n) = n := by
  induction k generalizing n with
  | zero =>
      have hn : n = 0 := by simpa using h
      simp [groups, hn]
  | succ k ih =>
      have hq : n / 128 < 128 ^ k := by
        rw [Nat.div_lt_iff_lt_mul (by decide)]
        rwa [pow_succ] at h
      rw [groups, Nat.ofDigits_cons]
      by_cases h0 : n / 128 = 0
      · rw [if_pos h0, Nat.ofDigits_nil]
        omega
      · rw [if_neg h0, ih hq]
        omega

@[simp] theorem flagged_length (f : Nat) (gs : List Nat) : (flagged f gs).length = gs.length := by
  induction gs generalizing f with
  | nil => rfl
  | cons g gs ih => simp [flagged, ih]

theorem flagged_high {gs : List Nat} (h : ∀ g ∈ gs, g < 128) :
    ∀ b ∈ flagged 128 gs, 128 ≤ b.toNat := by
  induction gs with
  | nil => intro b hb; cases hb
  | cons g gs ih =>
      intro b hb
      rcases List.mem_append.mp hb with hb | hb
      · exact ih (fun x hx => h x (List.mem_cons_of_mem _ hx)) b hb
      · have hg := h g List.mem_cons_self
        rw [List.mem_singleton] at hb
        subst hb
        rw [UInt8.toNat_ofNat']
        omega

theorem varintValue_flagged {gs : List Nat} (h : ∀ g ∈ gs, g < 128) (f : Nat)
    (hf : f = 0 ∨ f = 128) :
    varintValue 0 (flagged f gs) = Nat.ofDigits 128 gs := by
  induction gs generalizing f with
  | nil => rfl
  | cons g gs ih =>
      have hg := h g List.mem_cons_self
      rw [flagged, varintValue_append, ih (fun x hx => h x (List.mem_cons_of_mem _ hx)) 128
        (Or.inr rfl), Nat.ofDigits_cons, varintValue_cons, varintValue_nil, UInt8.toNat_ofNat']
      rcases hf with rfl | rfl <;> omega

/-- The reading function inverts `varint`. -/
theorem varintValue_varint {k n : Nat} (h : n < 128 ^ k) : varintValue 0 (varint k n) = n := by
  rw [varint, varintValue_flagged (groups_lt k n) 0 (Or.inl rfl), ofDigits_groups h]

/-- A varint ends at its first byte below 128. -/
theorem varint_shape (k n : Nat) :
    ∃ init last, varint (k + 1) n = init ++ [last] ∧ (∀ b ∈ init, 128 ≤ b.toNat) ∧
      last.toNat < 128 := by
  have hlt := groups_lt (k + 1) n
  rw [groups] at hlt
  refine ⟨_, _, by rw [varint, groups, flagged], flagged_high fun g hg =>
    hlt g (List.mem_cons_of_mem _ hg), ?_⟩
  have := hlt _ List.mem_cons_self
  rw [UInt8.toNat_ofNat']
  omega

theorem varint_length_pos (k n : Nat) : 0 < (varint (k + 1) n).length := by
  simp [varint, groups]

theorem varint_length_le (k n : Nat) : (varint k n).length ≤ k := by
  have key : (groups k n).length ≤ k := by
    induction k generalizing n with
    | zero => simp [groups]
    | succ k ih =>
        rw [groups, List.length_cons]
        split
        · simp
        · exact Nat.succ_le_succ (ih _)
  simpa [varint] using key

/-- Two strings that start with a varint of the same width and agree write the same number and
agree after it. -/
theorem varint_append_inj {k m n : Nat} {r s : List UInt8} (hm : m < 128 ^ (k + 1))
    (hn : n < 128 ^ (k + 1)) (h : varint (k + 1) m ++ r = varint (k + 1) n ++ s) :
    m = n ∧ r = s := by
  obtain ⟨i, a, hi, hih, ha⟩ := varint_shape k m
  obtain ⟨j, b, hj, hjh, hb⟩ := varint_shape k n
  -- the first byte below 128 splits both strings at the same place
  have split : ∀ (i j : List UInt8), (∀ x ∈ i, 128 ≤ x.toNat) → (∀ x ∈ j, 128 ≤ x.toNat) →
      i ++ a :: r = j ++ b :: s → i = j ∧ a = b ∧ r = s := by
    intro i
    induction i with
    | nil =>
        intro j _ hjh h
        cases j with
        | nil => simpa using h
        | cons x j =>
            have hx := hjh x List.mem_cons_self
            simp only [List.nil_append, List.cons_append, List.cons.injEq] at h
            rw [h.1] at ha
            omega
    | cons y i ih =>
        intro j hih hjh h
        cases j with
        | nil =>
            have hy := hih y List.mem_cons_self
            simp only [List.nil_append, List.cons_append, List.cons.injEq] at h
            rw [h.1] at hy
            omega
        | cons x j =>
            simp only [List.cons_append, List.cons.injEq] at h
            obtain ⟨h1, h2⟩ := ih j (fun z hz => hih z (List.mem_cons_of_mem _ hz))
              (fun z hz => hjh z (List.mem_cons_of_mem _ hz)) h.2
            exact ⟨by rw [h.1, h1], h2⟩
  rw [hi, hj, List.append_assoc, List.append_assoc] at h
  obtain ⟨rfl, rfl, rfl⟩ := split i j hih hjh h
  refine ⟨?_, rfl⟩
  rw [← varintValue_varint hm, ← varintValue_varint hn, hi, hj]

/-! ## The shortest varint -/

theorem varintValue_lt (acc : Nat) (bs : List UInt8) :
    varintValue acc bs < (acc + 1) * 128 ^ bs.length := by
  induction bs generalizing acc with
  | nil => simp
  | cons b bs ih =>
      have hb : b.toNat % 128 < 128 := Nat.mod_lt _ (by norm_num)
      calc varintValue acc (b :: bs)
          < (acc * 128 + b.toNat % 128 + 1) * 128 ^ bs.length := ih _
        _ ≤ ((acc + 1) * 128) * 128 ^ bs.length := Nat.mul_le_mul_right _ (by omega)
        _ = (acc + 1) * 128 ^ (b :: bs).length := by
            rw [List.length_cons, pow_succ]
            ring

/-- All groups but a single one are there because the number needs them. -/
theorem pow_groups_length_le {k n : Nat} (h : 1 < (groups k n).length) :
    128 ^ ((groups k n).length - 1) ≤ n := by
  induction k generalizing n with
  | zero => simp [groups] at h
  | succ k ih =>
      rw [groups, List.length_cons] at h ⊢
      split at h
      · simp at h
      · rename_i hq
        rw [if_neg hq, Nat.add_sub_cancel]
        by_cases hlast : 1 < (groups k (n / 128)).length
        · have hpow := ih hlast
          have hsucc : (groups k (n / 128)).length = ((groups k (n / 128)).length - 1) + 1 := by
            omega
          rw [hsucc, pow_succ]
          calc 128 ^ ((groups k (n / 128)).length - 1) * 128
              ≤ n / 128 * 128 := Nat.mul_le_mul_right _ hpow
            _ ≤ n := Nat.div_mul_le_self n 128
        · have hone : (groups k (n / 128)).length = 1 := by omega
          rw [hone, pow_one]
          omega

/-- A number of fewer bytes is smaller. -/
theorem varint_length_le_of_le {k n : Nat} {bs : List UInt8} (hbs : bs ≠ [])
    (h : n ≤ varintValue 0 bs) : (varint k n).length ≤ bs.length := by
  have hlt := varintValue_lt 0 bs
  rw [Nat.zero_add, Nat.one_mul] at hlt
  rw [varint, flagged_length]
  have hpos : 0 < bs.length := List.length_pos_of_ne_nil hbs
  by_contra hlong
  have hmany : 1 < (groups k n).length := by omega
  have hle := pow_groups_length_le hmany
  have hpow : 128 ^ bs.length ≤ 128 ^ ((groups k n).length - 1) :=
    Nat.pow_le_pow_right (by norm_num) (by omega)
  omega

theorem varint_length_le_of_value {k n : Nat} {bs : List UInt8} (hbs : bs ≠ [])
    (h : varintValue 0 bs = n) : (varint k n).length ≤ bs.length :=
  varint_length_le_of_le hbs h.ge

/-- The bytes are a number: up to the last of them, all have the bit that says that more is to
come. There are many ways to write a number, with zeros in front. -/
def Spells (bs : List UInt8) (n : Nat) : Prop :=
  ∃ init last, bs = init ++ [last] ∧ (∀ b ∈ init, 128 ≤ b.toNat) ∧ last.toNat < 128 ∧
    varintValue 0 bs = n

theorem varint_spells {k n : Nat} (h : n < 128 ^ (k + 1)) : Spells (varint (k + 1) n) n := by
  obtain ⟨init, last, hshape, hinit, hlast⟩ := varint_shape k n
  exact ⟨init, last, hshape, hinit, hlast, varintValue_varint h⟩

/-- No way to write a number is shorter than the usual one for it, or for a smaller number. -/
theorem Spells.length_le {bs : List UInt8} {m n : Nat} (h : Spells bs n) (hm : m ≤ n) (k : Nat) :
    (varint k m).length ≤ bs.length := by
  obtain ⟨init, last, rfl, _, _, hvalue⟩ := h
  exact varint_length_le_of_le (by simp) (hvalue ▸ hm)

/-- The first bytes of a number are not those of zero. -/
theorem varint_prefix_ne_zero {k n : Nat} (hn : n < 128 ^ (k + 1)) {bs cs : List UInt8}
    (h : varint (k + 1) n = bs ++ cs) (hbs : bs ≠ []) (hcs : cs ≠ []) : varintValue 0 bs ≠ 0 := by
  intro hzero
  have hvalue := varintValue_varint hn
  rw [h, varintValue_append, hzero] at hvalue
  have hlen := varint_length_le_of_value (k := k + 1) hcs hvalue
  rw [h, List.length_append] at hlen
  have hpos := List.length_pos_of_ne_nil hbs
  omega

/-- Some bytes end a number, or there is none that ends. -/
theorem varint_split (bs : List UInt8) :
    (∃ init last rest, bs = init ++ [last] ++ rest ∧ (∀ b ∈ init, 128 ≤ b.toNat) ∧
      last.toNat < 128) ∨ ∀ b ∈ bs, 128 ≤ b.toNat := by
  induction bs with
  | nil => exact .inr (by simp)
  | cons b bs ih =>
      by_cases hb : b.toNat < 128
      · exact .inl ⟨[], b, bs, by simp, by simp, hb⟩
      · rcases ih with ⟨init, last, rest, rfl, hinit, hlast⟩ | hall
        · refine .inl ⟨b :: init, last, rest, by simp, ?_, hlast⟩
          intro x hx
          rcases List.mem_cons.mp hx with rfl | hx
          · exact not_lt.mp hb
          · exact hinit x hx
        · refine .inr fun x hx => ?_
          rcases List.mem_cons.mp hx with rfl | hx
          · exact not_lt.mp hb
          · exact hall x hx

end LabComm.Library
