import LabComm.Format.Packet
import LabComm.Library.Int32
import LabComm.Library.Parsing

set_option autoImplicit false

/-! # What the Java decoder reads

`DecoderChannel.java`, as far as numbers and intentions are read. A number is gathered in a
`long` and returned as an `int`; what is counted by a negative number is empty, and an array
cannot have a negative length.
-/

namespace LabComm.Java

open Library

/-- What is thrown while something is read. -/
inductive DecodeException where
  /-- `EOFException` -/
  | eof
  /-- `NegativeArraySizeException` -/
  | negativeArraySize
  deriving DecidableEq

/-- A method of the channel that reads. -/
abbrev JavaParser (α : Type) := Parser DecodeException α

/-! ## Reading -/

/-- The loop of `decodePacked32`, with the 64 bits of `res`. -/
def decodePacked32From (res : Nat) : JavaParser Int
  | [] => .error .eof
  | c :: rest =>
      let res : Nat := (res * 128 + c.toNat % 128) % 2 ^ 64
      -- the mask is that of an int, so that no bit is cleared
      if c < 128 then .ok (wrap32 res, rest) else decodePacked32From res rest

/-- `decodePacked32` -/
def decodePacked32 : JavaParser Int := decodePacked32From 0

/-- `decodeBytes` -/
def decodeBytes : JavaParser (List UInt8) := do
  let len ← decodePacked32
  if len < 0 then
    throw .negativeArraySize
  else
    readBytes .eof len.toNat

/-- The loop of `decodeIntentions`; `newString` makes a `String` of the bytes of the name. -/
def decodeIntentionsFrom {S : Type} (newString : List UInt8 → S) : Nat → S → JavaParser S
  | 0, name => pure name
  | n + 1, name => do
      let key ← decodeBytes
      let val ← decodeBytes
      decodeIntentionsFrom newString n (if key.length = 0 then newString val else name)

/-- `decodeIntentions`; the name is `empty` unless there is one. -/
def decodeIntentions {S : Type} (newString : List UInt8 → S) (empty : S) : JavaParser S := do
  let numIntentions ← decodePacked32
  decodeIntentionsFrom newString numIntentions.toNat empty

/-! ## What is read -/

theorem decodePacked32From_append {init : List UInt8} {last : UInt8}
    (hinit : ∀ b ∈ init, 128 ≤ b.toNat) (hlast : last.toNat < 128) (res : Nat)
    (rest : List UInt8) :
    decodePacked32From res (init ++ [last] ++ rest) =
      .ok (wrap32 ((varintValue res (init ++ [last]) % 2 ^ 64 : Nat) : Int), rest) := by
  induction init generalizing res with
  | nil =>
      have hlt : last < 128 := by
        rw [UInt8.lt_iff_toNat_lt]
        exact hlast
      simp [decodePacked32From, hlt]
  | cons b init ih =>
      have hb : ¬ b < 128 := by
        rw [UInt8.lt_iff_toNat_lt, not_lt]
        exact hinit b List.mem_cons_self
      rw [List.cons_append, List.cons_append, decodePacked32From]
      rw [if_neg hb, ih fun x hx => hinit x (List.mem_cons_of_mem _ hx), varintValue_mod,
        varintValue_cons]

theorem decodePacked32From_lt {res : Nat} {s q : List UInt8} {a : Int}
    (h : decodePacked32From res s = .ok (a, q)) : a < 2 ^ 31 := by
  induction s generalizing res with
  | nil => cases h
  | cons c s ih =>
      unfold decodePacked32From at h
      dsimp only at h
      split at h
      · simp only [Except.ok.injEq, Prod.mk.injEq] at h
        rw [← h.1]
        exact wrap32_lt _
      · exact ih h

/-- A number of 32 bits is read as the `int` with the same bits. -/
theorem decodePacked32_consumes {n : Nat} (h : n < 2 ^ 32) :
    Consumes decodePacked32 (packed32 n) (wrap32 n) := by
  intro rest
  obtain ⟨init, last, hshape, hinit, hlast⟩ := varint_shape 4 n
  have hrun := decodePacked32From_append hinit hlast 0 rest
  rw [← hshape, varintValue_varint (lt_trans h (by norm_num)),
    Nat.mod_eq_of_lt (lt_trans h (by norm_num))] at hrun
  exact hrun

theorem decodeBytes_consumes {bs : List UInt8} (h : bs.length < 2 ^ 31) :
    Consumes decodeBytes (counted bs) bs := by
  refine (decodePacked32_consumes (by omega)).bind ?_
  rw [wrap32_natCast h]
  intro rest
  have hneg : ¬ (bs.length : Int) < 0 := by omega
  rw [if_neg hneg, Int.toNat_natCast]
  exact readBytes_consumes DecodeException.eof bs rest

section Intentions

variable {S : Type} (newString : List UInt8 → S)

/-- The name after some intentions: that of the last one with an empty key. -/
def nameOf (name : S) (intentions : List Intention) : S :=
  intentions.foldl (fun name i => if i.key.length = 0 then newString i.value else name) name

theorem decodeIntentionsFrom_consumes {intentions : List Intention}
    (h : ∀ i ∈ intentions, i.key.length < 2 ^ 31 ∧ i.value.length < 2 ^ 31) (name : S) :
    Consumes (decodeIntentionsFrom newString intentions.length name)
      (intentions.flatMap Intention.bytes) (nameOf newString name intentions) := by
  induction intentions generalizing name with
  | nil => exact Consumes.pure name
  | cons i intentions ih =>
      have hi := h i List.mem_cons_self
      have hrest := ih (fun j hj => h j (List.mem_cons_of_mem _ hj))
        (if i.key.length = 0 then newString i.value else name)
      rw [List.flatMap_cons, Intention.bytes, List.append_assoc]
      exact (decodeBytes_consumes hi.1).bind ((decodeBytes_consumes hi.2).bind hrest)

theorem decodeIntentions_consumes {intentions : List Intention}
    (hfew : intentions.length < 2 ^ 31)
    (h : ∀ i ∈ intentions, i.key.length < 2 ^ 31 ∧ i.value.length < 2 ^ 31) (empty : S) :
    Consumes (decodeIntentions newString empty) (intentionsBytes intentions)
      (nameOf newString empty intentions) := by
  refine (decodePacked32_consumes (by omega)).bind ?_
  rw [wrap32_natCast hfew, Int.toNat_natCast]
  exact decodeIntentionsFrom_consumes newString h empty

end Intentions

/-! ## How much is read -/

/-- What does not end is no number. -/
theorem decodePacked32From_high {s : List UInt8} (h : ∀ b ∈ s, 128 ≤ b.toNat) (res : Nat) :
    decodePacked32From res s = .error .eof := by
  induction s generalizing res with
  | nil => rfl
  | cons b s ih =>
      have hb : ¬ b < 128 := by
        rw [UInt8.lt_iff_toNat_lt, not_lt]
        exact h b List.mem_cons_self
      rw [decodePacked32From]
      rw [if_neg hb, ih fun x hx => h x (List.mem_cons_of_mem _ hx)]

theorem wrap32_mod_toNat_le (n : Nat) : (wrap32 ((n % 2 ^ 64 : Nat) : Int)).toNat ≤ n := by
  have hlt := wrap32_lt ((n % 2 ^ 64 : Nat) : Int)
  have hge := wrap32_ge ((n % 2 ^ 64 : Nat) : Int)
  have hmod : wrap32 ((n % 2 ^ 64 : Nat) : Int) % 2 ^ 32 = ((n % 2 ^ 64 : Nat) : Int) % 2 ^ 32 := by
    rw [wrap32]
    exact Int.bmod_emod
  have hle : n % 2 ^ 64 ≤ n := Nat.mod_le _ _
  omega

/-- A number is not read from fewer bytes than it is written with. -/
theorem decodePacked32_uses (v : Int) : Uses decodePacked32 v (packed32 v.toNat).length := by
  intro s q h
  rcases varint_split s with ⟨init, last, rest, rfl, hinit, hlast⟩ | hall
  · have hrun : decodePacked32.run (init ++ [last] ++ rest) = _ :=
      decodePacked32From_append hinit hlast 0 rest
    rw [hrun, Except.ok.injEq, Prod.mk.injEq] at h
    obtain ⟨hv, rfl⟩ := h
    have hle := wrap32_mod_toNat_le (varintValue 0 (init ++ [last]))
    rw [hv] at hle
    have hlen := varint_length_le_of_le (k := 5) (by simp) hle
    rw [List.length_append, packed32]
    omega
  · have hrun : decodePacked32.run s = _ := decodePacked32From_high hall 0
    rw [hrun] at h
    exact absurd h (by simp)

theorem decodeBytes_uses (bs : List UInt8) : Uses decodeBytes bs (counted bs).length := by
  intro s q h
  obtain ⟨len, r, hlen, hbs⟩ := run_bind_eq_ok.mp h
  have huse := decodePacked32_uses len s r hlen
  split at hbs
  · exact absurd hbs (by simp [throw, throwThe, MonadExceptOf.throw, bind, Except.bind])
  · obtain ⟨hlength, rfl⟩ := readBytes_length hbs
    rw [← hlength] at huse
    rw [counted, List.length_append]
    rw [List.length_append] at huse
    omega

/-- Nothing is given back. -/
theorem decodeIntentionsFrom_grows {S : Type} {newString : List UInt8 → S} (n : Nat) (s t : S) :
    Uses (decodeIntentionsFrom newString n s) t 0 := by
  induction n generalizing s with
  | zero => exact Uses.pure s t
  | succ n ih =>
      unfold decodeIntentionsFrom
      apply Uses.bind
      intro key
      refine ⟨0, 0, le_refl 0, (decodeBytes_uses key).mono (Nat.zero_le _), ?_⟩
      apply Uses.bind
      intro val
      exact ⟨0, 0, le_refl 0, (decodeBytes_uses val).mono (Nat.zero_le _), ih _⟩

section Name

variable {S : Type} {newString : List UInt8 → S} {name : List UInt8}
  (hname : ∀ bs, newString bs = newString name → bs = name)

include hname

/-- A name is not read from fewer bytes than an empty key and the name are written with. -/
theorem decodeIntentionsFrom_uses (n : Nat) {s : S} (hs : s ≠ newString name) :
    Uses (decodeIntentionsFrom newString n s) (newString name)
      (Intention.bytes ⟨[], name⟩).length := by
  induction n generalizing s with
  | zero =>
      intro t q h
      have h' : (Except.ok (s, t) : Except DecodeException _) = .ok (newString name, q) := h
      simp only [Except.ok.injEq, Prod.mk.injEq] at h'
      exact absurd h'.1 hs
  | succ n ih =>
      unfold decodeIntentionsFrom
      apply Uses.bind
      intro key
      refine ⟨(counted key).length, (Intention.bytes ⟨[], name⟩).length - (counted key).length,
        by omega, decodeBytes_uses key, ?_⟩
      apply Uses.bind
      intro val
      by_cases hkey : key.length = 0
      · rw [if_pos hkey]
        by_cases hval : newString val = newString name
        · -- this is the name
          have hkey' : key = [] := List.length_eq_zero_iff.mp hkey
          have hval' := hname val hval
          refine ⟨(counted val).length, 0, ?_, decodeBytes_uses val, ?_⟩
          · rw [hkey', hval']
            show (counted [] ++ counted name).length - _ ≤ _
            rw [List.length_append]
            omega
          · exact decodeIntentionsFrom_grows n _ _
        · exact ⟨0, (Intention.bytes ⟨[], name⟩).length, by omega,
            (decodeBytes_uses val).mono (Nat.zero_le _), ih hval⟩
      · rw [if_neg hkey]
        exact ⟨0, (Intention.bytes ⟨[], name⟩).length, by omega,
          (decodeBytes_uses val).mono (Nat.zero_le _), ih hs⟩

theorem decodeIntentions_uses {empty : S} (hempty : empty ≠ newString name) :
    Uses (decodeIntentions newString empty) (newString name)
      (intentionsBytes [⟨[], name⟩]).length := by
  unfold decodeIntentions
  apply Uses.bind
  intro n
  refine ⟨1, (Intention.bytes ⟨[], name⟩).length, ?_, ?_, decodeIntentionsFrom_uses hname _ hempty⟩
  · show (packed32 1 ++ (Intention.bytes ⟨[], name⟩ ++ [])).length ≤ _
    rw [List.append_nil, List.length_append]
    exact le_refl _
  · exact (decodePacked32_uses n).mono (varint_length_pos 4 n.toNat)

end Name

end LabComm.Java
