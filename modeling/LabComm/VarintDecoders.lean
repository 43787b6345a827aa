import LabComm.C.Packed32
import LabComm.Java.DecoderChannel
import LabComm.Python.Codec

set_option autoImplicit false

/-! # The decoders of numbers of variable length

A number may be spelled with any number of leading zero groups, and with more than 32 bits. The
decoders in C, Java and C# and the parser of signatures keep the low 32 bits; Python keeps them
all. They agree exactly on the spellings of numbers below `2 ^ 32` (`decodersAgree_iff`).
-/

namespace LabComm

open Library

/-! ## Spellings -/

/-- The bytes of a number: each but the last says that more follow. -/
structure Spelling where
  init : List UInt8
  last : UInt8
  init_high : ∀ b ∈ init, 128 ≤ b.toNat
  last_low : last.toNat < 128

def Spelling.bytes (s : Spelling) : List UInt8 := s.init ++ [s.last]

/-- The number that is spelled. -/
def Spelling.value (s : Spelling) : Nat := varintValue 0 s.bytes

end LabComm

/-! ## The decoder in C# -/

namespace LabComm.CSharp

open Library

/-- What is thrown while something is read. -/
inductive ReadException where
  | EndOfStreamException
  deriving DecidableEq

/-- The loop of `decodePacked32`, with the 64 bits of `res`. -/
def decodePacked32From (res : Nat) : Parser ReadException Int
  | [] => .error .EndOfStreamException
  | c :: rest =>
      let res : Nat := (res * 128 + c.toNat % 128) % 2 ^ 64
      -- here the mask is unsigned, and the cast is not checked
      if c < 128 then .ok (wrap32 (res % 2 ^ 32 : Nat), rest) else decodePacked32From res rest

/-- `DecoderChannel.decodePacked32` -/
def decodePacked32 : Parser ReadException Int := decodePacked32From 0

theorem decodePacked32From_append {init : List UInt8} {last : UInt8}
    (hinit : ∀ b ∈ init, 128 ≤ b.toNat) (hlast : last.toNat < 128) (res : Nat)
    (rest : List UInt8) :
    decodePacked32From res (init ++ [last] ++ rest) =
      .ok (wrap32 (varintValue res (init ++ [last]) % 2 ^ 32 : Nat), rest) := by
  induction init generalizing res with
  | nil =>
      have hlt : last < 128 := by
        rw [UInt8.lt_iff_toNat_lt]
        exact hlast
      have hmod (n : Nat) : n % 2 ^ 64 % 2 ^ 32 = n % 2 ^ 32 := by omega
      rw [List.nil_append, List.singleton_append, decodePacked32From]
      simp only [hlt, if_true, hmod, varintValue_cons, varintValue_nil]
  | cons b init ih =>
      have hb : ¬ b < 128 := by
        rw [UInt8.lt_iff_toNat_lt, not_lt]
        exact hinit b List.mem_cons_self
      rw [List.cons_append, List.cons_append, decodePacked32From]
      rw [if_neg hb, ih fun x hx => hinit x (List.mem_cons_of_mem _ hx), varintValue_cons]
      -- the bits above the 64 do not reach the 32 that are returned
      have hmod (n : Nat) : varintValue (n % 2 ^ 64) (init ++ [last]) % 2 ^ 32 =
          varintValue n (init ++ [last]) % 2 ^ 32 := by
        rw [← varintValue_mod (2 ^ 32) (n % 2 ^ 64), ← varintValue_mod (2 ^ 32) n]
        congr 2
        omega
      rw [hmod]

end LabComm.CSharp

/-! ## The parser of signatures -/

namespace LabComm.C

open Library

/-- The loop of `unpack_varint` from `buf[idx + i]` on, with the result and the size. The index is
unsigned, so that after `2 ^ 32` rounds the loop is where it began and does not end. -/
def unpackVarintFrom (buf : List UInt8) (idx : Int) : Nat → Nat → Int → Option (Int × Nat)
  | 0, _, _ => none
  | rounds + 1, i, res => do
      let c ← buf[toUnsigned (idx + i)]?
      let res := wrap32 (res * 128 + c.toNat % 128)
      let i := toUnsigned (i + 1)
      if 128 ≤ c.toNat then unpackVarintFrom buf idx rounds i res else some (res, i)

/-- `unpack_varint`; nothing is returned if a byte outside of `buf` is read. -/
def unpackVarint (buf : List UInt8) (idx : Int) : Option (Int × Nat) :=
  unpackVarintFrom buf idx (2 ^ 32) 0 0

/-- One round, on the byte that the index addresses. -/
theorem unpackVarintFrom_succ {buf rest : List UInt8} {pos i rounds acc : Nat} {b : UInt8}
    (hbuf : buf.drop (pos + i) = b :: rest) (hfits : pos + i + 1 < 2 ^ 32) :
    unpackVarintFrom buf pos (rounds + 1) i (wrap32 acc) =
      if 128 ≤ b.toNat then
        unpackVarintFrom buf pos rounds (i + 1) (wrap32 (acc * 128 + b.toNat % 128 : Nat))
      else some (wrap32 (acc * 128 + b.toNat % 128 : Nat), i + 1) := by
  have hindex : toUnsigned ((pos : Int) + i) = pos + i := by
    rw [← Nat.cast_add, toUnsigned_natCast (by omega)]
  have hbyte : buf[pos + i]? = some b := by
    rw [← List.head?_drop, hbuf, List.head?_cons]
  have hnext : toUnsigned ((i : Int) + 1) = i + 1 := by
    rw [← Nat.cast_succ, toUnsigned_natCast (by omega)]
  have hres : wrap32 (wrap32 acc * 128 + b.toNat % 128) =
      wrap32 (acc * 128 + b.toNat % 128 : Nat) := by
    rw [← wrap32_wrap32_add, wrap32_wrap32_mul, wrap32_wrap32_add]
    push_cast
    rfl
  rw [unpackVarintFrom, hindex, hbyte, hnext, Option.bind_eq_bind, Option.bind_some, hres]

theorem unpackVarintFrom_append {init : List UInt8} {last : UInt8}
    (hinit : ∀ b ∈ init, 128 ≤ b.toNat) (hlast : last.toNat < 128) {buf rest : List UInt8}
    (acc : Nat) {pos i rounds : Nat} (hbuf : buf.drop (pos + i) = init ++ [last] ++ rest)
    (hfits : pos + i + init.length + 1 < 2 ^ 32) (hrounds : init.length < rounds) :
    unpackVarintFrom buf pos rounds i (wrap32 acc) =
      some (wrap32 (varintValue acc (init ++ [last]) : Nat), i + init.length + 1) := by
  induction init generalizing i rounds acc with
  | nil =>
      obtain ⟨rounds, rfl⟩ := Nat.exists_eq_succ_of_ne_zero (show rounds ≠ 0 by omega)
      rw [unpackVarintFrom_succ hbuf (by omega), if_neg (by omega)]
      rfl
  | cons b init ih =>
      obtain ⟨rounds, rfl⟩ := Nat.exists_eq_succ_of_ne_zero (show rounds ≠ 0 by omega)
      have hb : 128 ≤ b.toNat := hinit b List.mem_cons_self
      have hrest : buf.drop (pos + (i + 1)) = init ++ [last] ++ rest := by
        rw [← Nat.add_assoc, ← List.tail_drop, hbuf]
        rfl
      rw [List.length_cons] at hfits hrounds ⊢
      rw [unpackVarintFrom_succ hbuf (by omega), if_pos hb,
        ih (fun x hx => hinit x (List.mem_cons_of_mem _ hx)) _ hrest (by omega) (by omega)]
      rw [List.cons_append, varintValue_cons, show i + 1 + init.length + 1 =
        i + (init.length + 1) + 1 by omega]

/-- The sequence is at `before.length` in the buffer, and its positions are unsigned numbers. -/
theorem unpackVarint_append (s : Spelling) (before rest : List UInt8)
    (hfits : (before ++ s.bytes).length < 2 ^ 32) :
    unpackVarint (before ++ s.bytes ++ rest) before.length =
      some (wrap32 s.value, s.bytes.length) := by
  have hlength : s.bytes.length = s.init.length + 1 := by simp [Spelling.bytes]
  rw [List.length_append, hlength] at hfits
  have hbuf : (before ++ s.bytes ++ rest).drop (before.length + 0) =
      s.init ++ [s.last] ++ rest := by
    rw [Nat.add_zero, List.append_assoc, List.drop_left]
    rfl
  have hrun := unpackVarintFrom_append s.init_high s.last_low 0 hbuf (by omega)
    (show s.init.length < 2 ^ 32 by omega)
  rw [hlength, unpackVarint, Spelling.value, Spelling.bytes]
  rw [Nat.zero_add] at hrun
  exact hrun

end LabComm.C

/-! ## The decoders of the languages -/

namespace LabComm

open Library

/-- The decoders whose results have 32 bits read `bs`, and nothing else, as the unsigned
number `v`. -/
structure FixedWidthDecode (bs : List UInt8) (v : Nat) : Prop where
  c : ∀ (φ : C.Host) (r : C.Reader φ) (rest : List UInt8), r.error = 0 →
    r.unread = bs ++ rest → (C.readPacked32 r).1 = v ∧ (C.readPacked32 r).2.error = 0 ∧
      (C.readPacked32 r).2.unread = rest
  java : ∃ i : Int, Consumes Java.decodePacked32 bs i ∧ toUnsigned i = v
  csharp : ∃ i : Int, Consumes CSharp.decodePacked32 bs i ∧ toUnsigned i = v
  /-- The index of the last byte is an unsigned number, too. -/
  sigParser : ∀ before rest : List UInt8, (before ++ bs).length < 2 ^ 32 →
    ∃ i : Int, C.unpackVarint (before ++ bs ++ rest) before.length = some (i, bs.length) ∧
      toUnsigned i = v

/-- All decoders do; the type of the numbers of Python allows these numbers, too. -/
structure AllDecode (bs : List UInt8) (v : Nat) : Prop extends FixedWidthDecode bs v where
  python : ∃ n, Consumes Python.decodePacked32 bs n ∧ n % 2 ^ 32 = v ∧ n < 2 ^ 32
  range : v < 2 ^ 32

/-- The decoders agree on `bs`. -/
def DecodersAgree (bs : List UInt8) : Prop := ∃ v, AllDecode bs v

theorem toUnsigned_wrap32_natCast (n : Nat) : toUnsigned (wrap32 n) = n % 2 ^ 32 := by
  rw [toUnsigned_wrap32, toUnsigned]
  omega

/-- Whatever the length of the sequence, four of the decoders keep the low 32 bits. -/
theorem fixedWidth_decode (s : Spelling) : FixedWidthDecode s.bytes (s.value % 2 ^ 32) where
  c φ r rest hr hu := by
    obtain ⟨hvalue, hok, hrest⟩ :=
      (C.readPacked32_spelled s.init_high s.last_low).reads r rest (not_not.mpr hr) hu
    exact ⟨hvalue, not_not.mp hok, hrest⟩
  java := ⟨_, Java.decodePacked32From_append s.init_high s.last_low 0, by
    rw [toUnsigned_wrap32_natCast, Nat.mod_mod_of_dvd _ (by norm_num)]
    rfl⟩
  csharp := ⟨_, CSharp.decodePacked32From_append s.init_high s.last_low 0, by
    rw [toUnsigned_wrap32_natCast, Nat.mod_mod]
    rfl⟩
  sigParser before rest hfits :=
    ⟨_, C.unpackVarint_append s before rest hfits, toUnsigned_wrap32_natCast s.value⟩

/-- What Python returns is the number itself. -/
theorem python_consumes (s : Spelling) : Consumes Python.decodePacked32 s.bytes s.value :=
  readVarintFrom_append Python.PyError.EOFError s.init_high s.last_low 0

/-- **The decoders agree exactly on the numbers of 32 bits**, in whatever way they are spelled. -/
theorem decodersAgree_iff (s : Spelling) : DecodersAgree s.bytes ↔ s.value < 2 ^ 32 := by
  constructor
  · rintro ⟨v, h⟩
    obtain ⟨n, hn, _, hlt⟩ := h.python
    have hboth := (hn []).symm.trans (python_consumes s [])
    have hvalue : n = s.value := congrArg Prod.fst (Except.ok.inj hboth)
    rwa [← hvalue]
  · intro hlt
    exact ⟨_, fixedWidth_decode s, ⟨_, python_consumes s, rfl, hlt⟩, Nat.mod_lt _ (by norm_num)⟩

/-- The five bytes of `2 ^ 32`. -/
def Spelling.beyond : Spelling := ⟨[0x90, 0x80, 0x80, 0x80], 0x00, by simp, by decide⟩

/-- Four of the decoders return 0 for them, and Python returns `2 ^ 32`. -/
theorem not_decodersAgree_beyond : ¬ DecodersAgree Spelling.beyond.bytes := by
  rintro ⟨v, h⟩
  obtain ⟨n, hn, _, hlt⟩ := h.python
  have hboth := (hn []).symm.trans (python_consumes Spelling.beyond [])
  have hvalue : n = 2 ^ 32 := congrArg Prod.fst (Except.ok.inj hboth)
  omega

end LabComm
