import LabComm.Java.TypeDefParser
import LabComm.Java.Strings
import LabComm.Library.Reading

set_option autoImplicit false

/-! # Two readers of a type definition

The body of a `TYPE_DEF` is read by `TypeDef.decode` if there is a handler, and by the catch block
of `DecoderChannel.processTypeDef` if there is none. The catch block reads all intentions; `decode`
reads a number of intentions, the length of one key, and a string.

They agree if and only if there is one intention and its key is empty, or it is nothing that
`decode` can tell from an empty name (`decodeAgrees_iff`).
-/

namespace LabComm.Java

open Library Python

/-! ## Reading -/

/-- What a handler throws: an `IOException`, or another `Exception`. -/
inductive HandlerException where
  | io
  | other
  deriving DecidableEq

/-- What is thrown by a method of the channel. -/
inductive ChannelException where
  | decode (e : DecodeException)
  /-- The `IOException` of `processSample` when there is no entry, dispatcher or handler. -/
  | unhandled
  | handler (e : HandlerException)
  deriving DecidableEq

/-- `catch (IOException ex)` -/
def ChannelException.isIOException : ChannelException → Bool
  | decode .eof => true
  | decode .negativeArraySize => false
  | unhandled => true
  | handler .io => true
  | handler .other => false

/-- A method of the channel. -/
abbrev ChannelM (α : Type) := Reading ChannelException α

namespace DecoderChannel

/-- `decodePacked32` -/
def readPacked32 : ChannelM Int := Reading.ofParser .decode decodePacked32

/-- `len` calls of `decodeByte` -/
def readTimes (len : Nat) : ChannelM (List UInt8) := Reading.ofParser .decode (readBytes .eof len)

/-- `new byte[len]` and the loop that fills it -/
def readArray (len : Int) : ChannelM (List UInt8) :=
  if len < 0 then throw (.decode .negativeArraySize) else readTimes len.toNat

/-- `decodeBytes` -/
def readCounted : ChannelM (List UInt8) := do
  let len ← readPacked32
  readArray len

section Names

variable {S : Type} (newString : List UInt8 → S)

/-- `decodeString` -/
def readString : ChannelM S := do
  let len ← readPacked32
  let chars ← readArray len
  pure (newString chars)

/-- The loop of `decodeIntentions`. -/
def readIntentionsFrom : Nat → S → ChannelM S
  | 0, name => pure name
  | n + 1, name => do
      let key ← readCounted
      let val ← readCounted
      readIntentionsFrom n (if key.length = 0 then newString val else name)

/-- `decodeIntentions` -/
def readIntentions (empty : S) : ChannelM S := do
  let numIntentions ← readPacked32
  readIntentionsFrom newString numIntentions.toNat empty

/-- The catch block of `processTypeDef`, with its variables `idx` and `name`. -/
def skipTypeDef (empty : S) : ChannelM (Int × S) := do
  let idx ← readPacked32
  let name ← readIntentions newString empty
  let siglen ← readPacked32
  let _ ← readTimes siglen.toNat
  pure (idx, name)

end Names

end DecoderChannel

open DecoderChannel

/-- `TypeDef.decode` -/
def TypeDef.decode {S : Type} (newString : List UInt8 → S) : ChannelM (TypeDef S) := do
  let index ← readPacked32
  let _numIntentions ← readPacked32
  let _keylen ← readPacked32
  let name ← readString newString
  let siglen ← readPacked32
  let sig ← readArray siglen
  pure ⟨index, name, sig⟩

/-! ## Bodies -/

/-- The body of a `TYPE_DEF`; its length can be kept in an `int`. -/
structure TypeDefBody where
  index : Nat
  intentions : List Intention
  signature : List UInt8
  index_lt : index < 2 ^ 32
  length_lt : (definitionBytes index intentions signature).length < 2 ^ 31

/-- The bytes of the body. -/
def TypeDefBody.bytes (p : TypeDefBody) : List UInt8 :=
  definitionBytes p.index p.intentions p.signature

/-! ## What the channel takes -/

/-- The bytes of a number that is read as `v`. -/
def Number (v : Int) (c : List UInt8) : Prop := ∃ n, Spells c n ∧ wrap32 n = v

/-- A length and the bytes it counts. -/
def Counted (bs c : List UInt8) : Prop := ∃ l, Number bs.length l ∧ c = l ++ bs

theorem wrap32_mod (n : Nat) : wrap32 ((n % 2 ^ 64 : Nat) : Int) = wrap32 n := by
  have hmod : ((n % 2 ^ 64 : Nat) : Int) % (2 ^ 32 : Nat) = (n : Int) % (2 ^ 32 : Nat) := by omega
  calc wrap32 ((n % 2 ^ 64 : Nat) : Int)
      = (((n % 2 ^ 64 : Nat) : Int) % (2 ^ 32 : Nat)).bmod (2 ^ 32) :=
        (Int.emod_bmod _ _).symm
    _ = ((n : Int) % (2 ^ 32 : Nat)).bmod (2 ^ 32) := by rw [hmod]
    _ = wrap32 n := Int.emod_bmod _ _

theorem decodePacked32_spells {c : List UInt8} {n : Nat} (h : Spells c n) (q : List UInt8) :
    decodePacked32.run (c ++ q) = .ok (wrap32 n, q) := by
  obtain ⟨init, last, rfl, hinit, hlast, rfl⟩ := h
  have hrun : decodePacked32.run (init ++ [last] ++ q) = _ :=
    decodePacked32From_append hinit hlast 0 q
  rw [hrun, wrap32_mod]

theorem readPacked32_takes (v : Int) : Takes readPacked32 (.ok v) (Number v) := by
  intro s q
  rw [readPacked32, on_ofParser_ok]
  constructor
  · intro h
    rcases varint_split s with ⟨init, last, rest, rfl, hinit, hlast⟩ | hall
    · have hspells : Spells (init ++ [last]) (varintValue 0 (init ++ [last])) :=
        ⟨init, last, rfl, hinit, hlast, rfl⟩
      rw [decodePacked32_spells hspells, Except.ok.injEq, Prod.mk.injEq] at h
      obtain ⟨hv, rfl⟩ := h
      exact ⟨_, ⟨_, hspells, hv⟩, rfl⟩
    · have hrun : decodePacked32.run s = _ := decodePacked32From_high hall 0
      rw [hrun] at h
      cases h
  · rintro ⟨c, ⟨n, hspells, rfl⟩, rfl⟩
    exact decodePacked32_spells hspells q

theorem readTimes_takes (len : Nat) (a : List UInt8) :
    Takes (readTimes len) (.ok a) (fun c => a.length = len ∧ c = a) := by
  intro s q
  rw [readTimes, on_ofParser_ok]
  constructor
  · intro h
    obtain ⟨hlength, rfl⟩ := readBytes_length h
    exact ⟨a, ⟨hlength, rfl⟩, rfl⟩
  · rintro ⟨_, ⟨rfl, rfl⟩, rfl⟩
    exact readBytes_consumes DecodeException.eof _ q

theorem readArray_takes (len : Int) (a : List UInt8) :
    Takes (readArray len) (.ok a) (fun c => (a.length : Int) = len ∧ c = a) := by
  unfold readArray
  split
  · rename_i hneg
    intro s q
    constructor
    · intro h
      cases h
    · rintro ⟨_, ⟨hlen, _⟩, _⟩
      omega
  · refine (readTimes_takes len.toNat a).congr fun c => and_congr_left fun _ => ?_
    omega

theorem readCounted_takes (bs : List UInt8) : Takes readCounted (.ok bs) (Counted bs) := by
  refine (Takes.bind readPacked32_takes fun len => readArray_takes len bs).congr fun c => ?_
  constructor
  · rintro ⟨len, l, _, hl, ⟨rfl, rfl⟩, rfl⟩
    exact ⟨l, hl, rfl⟩
  · rintro ⟨l, hl, rfl⟩
    exact ⟨bs.length, l, bs, hl, ⟨rfl, rfl⟩, rfl⟩

section Names

variable {S : Type} {newString : List UInt8 → S}

theorem readString_eq :
    readString newString = readCounted >>= fun chars => pure (newString chars) := by
  rw [readCounted, bind_assoc]
  rfl

theorem decode_eq : TypeDef.decode newString =
    (do
      let index ← readPacked32
      let _ ← readPacked32
      let _ ← readPacked32
      let chars ← readCounted
      let sig ← readCounted
      pure ⟨index, newString chars, sig⟩) := by
  simp only [TypeDef.decode, readString_eq, readCounted, bind_assoc, pure_bind]

/-- What `TypeDef.decode` takes for a definition: an index, two numbers, and a name and a
signature with their lengths. -/
def TypeDefLayout (index : Int) (chars sig c : List UInt8) : Prop :=
  ∃ a b k l m, Number index a ∧ (∃ n, Number n b) ∧ (∃ n, Number n k) ∧ Counted chars l ∧
    Counted sig m ∧ c = a ++ (b ++ (k ++ (l ++ m)))

theorem decode_takes (td : TypeDef S) : Takes (TypeDef.decode newString) (.ok td)
    (fun c => ∃ chars, newString chars = td.name ∧ TypeDefLayout td.index chars td.signature c) := by
  rw [decode_eq]
  refine (Takes.bind readPacked32_takes fun index => Takes.bind readPacked32_takes fun n =>
    Takes.bind readPacked32_takes fun k => Takes.bind readCounted_takes fun chars =>
    Takes.bind readCounted_takes fun sig => takes_pure _ _).congr fun c => ?_
  constructor
  · rintro ⟨index, a, _, ha, ⟨n, b, _, hb, ⟨k, d, _, hd, ⟨chars, l, _, hl, ⟨sig, m, _, hm,
      ⟨rfl, rfl⟩, rfl⟩, rfl⟩, rfl⟩, rfl⟩, rfl⟩
    rw [List.append_nil]
    exact ⟨chars, rfl, a, b, d, l, m, ha, ⟨n, hb⟩, ⟨k, hd⟩, hl, hm, rfl⟩
  · rintro ⟨chars, hchars, a, b, d, l, m, ha, ⟨n, hb⟩, ⟨k, hd⟩, hl, hm, rfl⟩
    refine ⟨td.index, a, _, ha, ⟨n, b, _, hb, ⟨k, d, _, hd, ⟨chars, l, _, hl,
      ⟨td.signature, m, [], hm, ⟨?_, rfl⟩, rfl⟩, rfl⟩, rfl⟩, rfl⟩, ?_⟩
    · rw [hchars]
    · rw [List.append_nil]

/-! ## What the catch block takes -/

theorem refines_packed32 : Refines decodePacked32 readPacked32 := Refines.ofParser _ _

theorem refines_counted : Refines decodeBytes readCounted := by
  refine refines_packed32.bind fun len => ?_
  unfold readArray
  split
  · intro s a q
    constructor
    · intro h
      cases h
    · intro h
      cases h
  · exact Refines.ofParser _ _

theorem refines_intentionsFrom (n : Nat) (name : S) :
    Refines (decodeIntentionsFrom newString n name) (readIntentionsFrom newString n name) := by
  induction n generalizing name with
  | zero => exact Refines.pure name
  | succ n ih => exact refines_counted.bind fun key => refines_counted.bind fun val => ih _

theorem refines_intentions (empty : S) :
    Refines (decodeIntentions newString empty) (readIntentions newString empty) :=
  refines_packed32.bind fun n => refines_intentionsFrom n.toNat empty

/-- Each intention is within the bytes of all. -/
theorem intentions_within (intentions : List Intention) :
    intentions.length ≤ (intentions.flatMap Intention.bytes).length ∧
      ∀ i ∈ intentions, i.key.length ≤ (intentions.flatMap Intention.bytes).length ∧
        i.value.length ≤ (intentions.flatMap Intention.bytes).length := by
  induction intentions with
  | nil => simp
  | cons i intentions ih =>
      obtain ⟨hcount, hall⟩ := ih
      have hpos := packed32_length_pos i.key.length
      have hkey := length_le_counted i.key
      have hvalue := length_le_counted i.value
      have hlength : ((i :: intentions).flatMap Intention.bytes).length =
          (counted i.key).length + (counted i.value).length +
            (intentions.flatMap Intention.bytes).length := by
        rw [List.flatMap_cons, List.length_append, Intention.bytes, List.length_append]
      have hcounted := counted_length i.key
      refine ⟨by rw [List.length_cons]; omega, fun j hj => ?_⟩
      rcases List.mem_cons.mp hj with rfl | hj
      · omega
      · have := hall j hj
        omega

namespace TypeDefBody

variable (p : TypeDefBody)

/-- Everything in the body has a length that an `int` can hold. -/
theorem lengths_lt : p.intentions.length < 2 ^ 31 ∧ p.signature.length < 2 ^ 31 ∧
    ∀ i ∈ p.intentions, i.key.length < 2 ^ 31 ∧ i.value.length < 2 ^ 31 := by
  have hlength := p.length_lt
  obtain ⟨hcount, hall⟩ := intentions_within p.intentions
  have hsig := length_le_definitionBytes p.index p.intentions p.signature
  have hintentions : (p.intentions.flatMap Intention.bytes).length ≤
      (definitionBytes p.index p.intentions p.signature).length := by
    simp only [definitionBytes, intentionsBytes, List.length_append]
    omega
  refine ⟨by omega, by omega, fun i hi => ?_⟩
  have := hall i hi
  omega

/-- The catch block reads the body, whatever the intentions are. -/
theorem skip_on (empty : S) (q : List UInt8) : (skipTypeDef newString empty).on (p.bytes ++ q) =
    (.ok (wrap32 p.index, nameOf newString empty p.intentions), q) := by
  obtain ⟨hcount, hsig, hall⟩ := p.lengths_lt
  have hindex := fun r => refines_packed32.on_append (decodePacked32_consumes p.index_lt) r
  have hname := fun r => (refines_intentions empty).on_append
    (decodeIntentions_consumes newString hcount hall empty) r
  have hsiglen := fun r => refines_packed32.on_append
    (decodePacked32_consumes (n := p.signature.length) (by omega)) r
  have hbytes := fun r => (readTimes_takes p.signature.length p.signature).on_append ⟨rfl, rfl⟩ r
  rw [wrap32_natCast hsig] at hsiglen
  rw [TypeDefBody.bytes, definitionBytes, counted]
  simp only [List.append_assoc]
  unfold skipTypeDef
  rw [on_bind, hindex]
  simp only [on_bind, hname, hsiglen, Int.toNat_natCast, hbytes, on_pure]

end TypeDefBody

end Names

/-! ## Counting the ends of numbers -/

/-- The number of bytes that can end a number. -/
def ends (bs : List UInt8) : Nat := bs.countP fun b => b.toNat < 128

theorem ends_append (bs cs : List UInt8) : ends (bs ++ cs) = ends bs + ends cs :=
  List.countP_append

theorem ends_eq_zero {bs : List UInt8} : ends bs = 0 ↔ ∀ b ∈ bs, 128 ≤ b.toNat := by
  simp [ends, List.countP_eq_zero]

/-- A number has one end. -/
theorem ends_spells {c : List UInt8} {n : Nat} (h : Spells c n) : ends c = 1 := by
  obtain ⟨init, last, rfl, hinit, hlast, _⟩ := h
  rw [ends_append, ends_eq_zero.mpr hinit, zero_add, ends, List.countP_singleton]
  simp [hlast]

theorem ends_number {c : List UInt8} {v : Int} (h : Number v c) : ends c = 1 := by
  obtain ⟨n, hn, _⟩ := h
  exact ends_spells hn

theorem number_ne_nil {c : List UInt8} {v : Int} (h : Number v c) : c ≠ [] := by
  rintro rfl
  have hends := ends_number h
  cases hends

theorem packed32_spells {n : Nat} (h : n < 2 ^ 32) : Spells (packed32 n) n :=
  varint_spells (lt_trans h (by norm_num))

/-- Where two numbers start the same bytes, they are the same bytes. -/
theorem spells_append_inj {c c' x y : List UInt8} {n n' : Nat} (h : Spells c n) (h' : Spells c' n')
    (heq : c ++ x = c' ++ y) : c = c' ∧ x = y := by
  have hrun := decodePacked32_spells h x
  rw [heq, decodePacked32_spells h' y, Except.ok.injEq, Prod.mk.injEq] at hrun
  obtain ⟨_, rfl⟩ := hrun
  exact ⟨List.append_cancel_right heq, rfl⟩

theorem ends_counted {bs : List UInt8} (h : bs.length < 2 ^ 31) :
    ends (counted bs) = 1 + ends bs := by
  rw [counted, ends_append, ends_spells (packed32_spells (by omega))]

/-- The bytes the name is made of, if there is an intention with an empty key. -/
def nameBytes (intentions : List Intention) : List UInt8 := nameOf id [] intentions

theorem nameOf_eq {S : Type} (newString : List UInt8 → S) (name : List UInt8)
    (intentions : List Intention) :
    nameOf newString (newString name) intentions = newString (nameOf id name intentions) := by
  induction intentions generalizing name with
  | nil => rfl
  | cons i intentions ih =>
      have hstep := ih (if i.key.length = 0 then i.value else name)
      rw [apply_ite newString] at hstep
      exact hstep

/-- The name is one of the values. -/
theorem ends_nameOf_le (name : List UInt8) (intentions : List Intention) :
    ends (nameOf id name intentions) ≤
      ends name + (intentions.map fun i => ends i.value).sum := by
  induction intentions generalizing name with
  | nil => exact Nat.le_add_right _ _
  | cons i intentions ih =>
      have hstep := ih (if i.key.length = 0 then i.value else name)
      rw [List.map_cons, List.sum_cons]
      refine le_trans hstep ?_
      split <;> omega

/-- Two numbers for each intention, and what is in the keys and the values. -/
theorem ends_intentions {intentions : List Intention}
    (h : ∀ i ∈ intentions, i.key.length < 2 ^ 31 ∧ i.value.length < 2 ^ 31) :
    2 * intentions.length + (intentions.map fun i => ends i.value).sum ≤
      ends (intentions.flatMap Intention.bytes) := by
  induction intentions with
  | nil => exact le_refl _
  | cons i intentions ih =>
      have hrest := ih fun j hj => h j (List.mem_cons_of_mem _ hj)
      obtain ⟨hkey, hvalue⟩ := h i List.mem_cons_self
      rw [List.flatMap_cons, ends_append, Intention.bytes, ends_append, ends_counted hkey,
        ends_counted hvalue, List.length_cons, List.map_cons, List.sum_cons]
      omega

/-! ## Names -/

/-- What a `String` is made of where the bytes are no UTF-8: what is malformed is replaced, and
the ASCII characters stay. -/
structure ReplacesMalformed (malformed : List UInt8 → String) : Prop where
  ascii : ∀ bs, decodeUtf8 bs = none →
    (malformed bs).toList.countP (fun c => c.toNat < 128) = ends bs
  nonempty : ∀ bs, decodeUtf8 bs = none → malformed bs ≠ ""

theorem ends_utf8EncodeChar (c : Char) :
    ends (String.utf8EncodeChar c) = if c.toNat < 128 then 1 else 0 := by
  have hval : c.val.toNat = c.toNat := rfl
  unfold ends String.utf8EncodeChar
  rw [hval]
  by_cases h1 : c.toNat ≤ 0x7f
  · have hmod : c.toNat % 256 = c.toNat := by omega
    simp only [h1, if_true]
    simp [hmod]
  · have hbig : ¬ c.toNat < 128 := by omega
    rw [if_neg hbig]
    by_cases h2 : c.toNat ≤ 0x7ff
    · simp only [h1, h2, if_true, if_false]
      simp
      omega
    · by_cases h3 : c.toNat ≤ 0xffff
      · simp only [h1, h2, h3, if_true, if_false]
        simp
        omega
      · simp only [h1, h2, h3, if_false]
        simp
        omega

theorem ends_utf8 (s : String) : ends (utf8 s) = s.toList.countP (fun c => c.toNat < 128) := by
  rw [utf8_eq_flatMap]
  induction s.toList with
  | nil => rfl
  | cons c cs ih =>
      rw [List.flatMap_cons, ends_append, ih, ends_utf8EncodeChar, List.countP_cons]
      split
      · rename_i hlow
        rw [if_pos (by simpa using hlow)]
        omega
      · rename_i hhigh
        rw [if_neg (by simpa using hhigh)]
        omega

section Strings

variable {malformed : List UInt8 → String} (hmalformed : ReplacesMalformed malformed)
  {bs cs : List UInt8}

include hmalformed

/-- A `String` has as many ASCII characters as there are such bytes. -/
theorem ends_newString : (newString malformed bs).toList.countP (fun c => c.toNat < 128) = ends bs := by
  unfold newString
  cases hdecode : decodeUtf8 bs with
  | none => exact hmalformed.ascii bs hdecode
  | some s =>
      obtain rfl := decodeUtf8_eq_some.mp hdecode
      exact (ends_utf8 s).symm

theorem ends_eq_of_newString (h : newString malformed bs = newString malformed cs) :
    ends bs = ends cs := by
  rw [← ends_newString hmalformed, h, ends_newString hmalformed]

/-- No bytes but none make the empty `String`. -/
theorem newString_eq_empty (h : newString malformed bs = "") : bs = [] := by
  unfold newString at h
  cases hdecode : decodeUtf8 bs with
  | none =>
      rw [hdecode] at h
      exact absurd h (hmalformed.nonempty bs hdecode)
  | some s =>
      rw [hdecode] at h
      obtain rfl : s = "" := h
      exact (decodeUtf8_eq_some.mp hdecode).symm

end Strings

theorem newString_nil (malformed : List UInt8 → String) : newString malformed [] = "" := by
  have hdecode : decodeUtf8 [] = some "" := decodeUtf8_eq_some.mpr rfl
  rw [newString, hdecode]
  rfl

/-! ## Agreement -/

/-- `TypeDef.decode` reads the body to its end, and what it returns has the index, the name that
`decodeIntentions` gives it, and the signature. -/
structure DecodeAgrees (malformed : List UInt8 → String) (p : TypeDefBody) : Prop where
  decode : ∀ q, (TypeDef.decode (newString malformed)).on (p.bytes ++ q) =
    (.ok ⟨wrap32 p.index, nameOf (newString malformed) "" p.intentions, p.signature⟩, q)
  skip : ∀ q, (skipTypeDef (newString malformed) "").on (p.bytes ++ q) =
    (.ok (wrap32 p.index, nameOf (newString malformed) "" p.intentions), q)

/-- There is one intention; its key is empty, or its value is, and the key with the byte of the
length of that value is a number that an `int` has no bits of. -/
def ReadsAsName (intentions : List Intention) : Prop :=
  ∃ i, intentions = [i] ∧ (i.key = [] ∨
    i.value = [] ∧ (∀ b ∈ i.key, 128 ≤ b.toNat) ∧ 2 ^ 25 ∣ varintValue 0 i.key)

/-! ## Bodies that are read as names -/

theorem number_packed32 {n : Nat} (h : n < 2 ^ 32) : Number (wrap32 n) (packed32 n) :=
  ⟨n, packed32_spells h, rfl⟩

theorem counted_counted {bs : List UInt8} (h : bs.length < 2 ^ 31) : Counted bs (counted bs) := by
  refine ⟨packed32 bs.length, ?_, rfl⟩
  have hnumber := number_packed32 (n := bs.length) (by omega)
  rwa [wrap32_natCast h] at hnumber

theorem wrap32_eq_zero {n : Nat} : wrap32 n = 0 ↔ 2 ^ 32 ∣ n := by
  have hmod : wrap32 n % (2 ^ 32 : Nat) = (n : Int) % (2 ^ 32 : Nat) := Int.bmod_emod
  have hlt := wrap32_lt n
  have hge := wrap32_ge n
  omega

/-- Bytes in front of a number count for its higher digits. -/
theorem varintValue_shift (acc : Nat) (bs : List UInt8) :
    varintValue acc bs = acc * 128 ^ bs.length + varintValue 0 bs := by
  induction bs generalizing acc with
  | nil => simp
  | cons b bs ih =>
      rw [varintValue_cons, varintValue_cons, ih, ih (0 * 128 + b.toNat % 128), List.length_cons,
        pow_succ]
      ring

/-- The length of a value is no part of a number that is zero, unless the value is empty. -/
theorem eq_zero_of_number {key : List UInt8} {n : Nat} (hn : n < 2 ^ 31)
    (h : Number 0 (key ++ packed32 n)) : n = 0 ∧ 2 ^ 25 ∣ varintValue 0 key := by
  obtain ⟨v, ⟨_, _, _, _, _, rfl⟩, hv⟩ := h
  have hpacked : varintValue 0 (packed32 n) = n :=
    varintValue_varint (lt_trans hn (by norm_num))
  have hlt := varintValue_lt 0 (packed32 n)
  have hpos := packed32_length_pos n
  have hle := packed32_length_le n
  rw [wrap32_eq_zero, varintValue_append, varintValue_shift, hpacked] at hv
  rw [hpacked] at hlt
  have hzero : n = 0 := by
    obtain hlength | hlength | hlength | hlength | hlength : (packed32 n).length = 1 ∨
        (packed32 n).length = 2 ∨ (packed32 n).length = 3 ∨ (packed32 n).length = 4 ∨
        (packed32 n).length = 5 := by omega
    all_goals
      rw [hlength] at hv hlt
      norm_num at hv hlt
      omega
  subst hzero
  have hone : (packed32 0).length = 1 := rfl
  rw [hone] at hv
  refine ⟨rfl, ?_⟩
  omega

/-- Bytes that end no number, in front of a number. -/
theorem spells_append {bs c : List UInt8} {n : Nat} (hbs : ∀ b ∈ bs, 128 ≤ b.toNat)
    (hc : Spells c n) : Spells (bs ++ c) (varintValue 0 (bs ++ c)) := by
  obtain ⟨init, last, rfl, hinit, hlast, _⟩ := hc
  refine ⟨bs ++ init, last, (List.append_assoc ..).symm, fun b hb => ?_, hlast, rfl⟩
  rcases List.mem_append.mp hb with hb | hb
  · exact hbs b hb
  · exact hinit b hb

theorem bytes_single {p : TypeDefBody} {key value : List UInt8}
    (h : p.intentions = [⟨key, value⟩]) :
    p.bytes = packed32 p.index ++ (packed32 1 ++ (packed32 key.length ++
      (key ++ (counted value ++ counted p.signature)))) := by
  rw [TypeDefBody.bytes, definitionBytes, intentionsBytes, h]
  simp [Intention.bytes, counted]

theorem layout_of_readsAsName {p : TypeDefBody} (h : ReadsAsName p.intentions) :
    TypeDefLayout (wrap32 p.index) (nameBytes p.intentions) p.signature p.bytes := by
  obtain ⟨hcount, hsig, hall⟩ := p.lengths_lt
  obtain ⟨⟨key, value⟩, hone, hshape⟩ := h
  have hfits := hall ⟨key, value⟩ (by rw [hone]; exact List.mem_singleton_self _)
  obtain ⟨hkey, hvalue⟩ : key.length < 2 ^ 31 ∧ value.length < 2 ^ 31 := hfits
  rw [bytes_single hone, hone, ← List.append_assoc key]
  refine ⟨packed32 p.index, packed32 1, packed32 key.length, key ++ counted value,
    counted p.signature, number_packed32 p.index_lt, ⟨_, number_packed32 (by norm_num)⟩,
    ⟨_, number_packed32 (by omega)⟩, ?_, counted_counted hsig, rfl⟩
  rcases hshape with hempty | ⟨hempty, hhigh, hdvd⟩
  · obtain rfl : key = [] := hempty
    exact counted_counted hvalue
  · obtain rfl : value = [] := hempty
    change 2 ^ 25 ∣ varintValue 0 key at hdvd
    have hname : nameBytes [⟨key, []⟩] = [] := by simp [nameBytes, nameOf]
    have hspells := spells_append hhigh (packed32_spells (n := 0) (by norm_num))
    rw [hname]
    refine ⟨key ++ packed32 0, ⟨_, hspells, ?_⟩, (List.append_nil _).symm⟩
    rw [varintValue_append]
    show wrap32 (varintValue 0 key * 128 + 0 : Nat) = 0
    rw [wrap32_eq_zero]
    omega

section Layout

variable {p : TypeDefBody} {chars : List UInt8}

/-- A layout leaves room for one name and no more. -/
theorem ends_of_layout (h : TypeDefLayout (wrap32 p.index) chars p.signature p.bytes) :
    ends (p.intentions.flatMap Intention.bytes) = 2 + ends chars := by
  obtain ⟨hcount, hsig, _⟩ := p.lengths_lt
  obtain ⟨a, b, k, _, _, ha, ⟨_, hb⟩, ⟨_, hk⟩, ⟨l, hl, rfl⟩, ⟨m, hm, rfl⟩, heq⟩ := h
  have hends := congrArg ends heq
  rw [TypeDefBody.bytes, definitionBytes, intentionsBytes] at hends
  simp only [ends_append, ends_counted hsig, ends_spells (packed32_spells p.index_lt),
    ends_spells (packed32_spells (lt_trans hcount (by norm_num))), ends_number ha, ends_number hb,
    ends_number hk, ends_number hl, ends_number hm] at hends
  omega

/-- **One intention.** The name has the ends of one value at the most, so that there is none left
for a second intention. -/
theorem readsAsName_of_layout (h : TypeDefLayout (wrap32 p.index) chars p.signature p.bytes)
    (hends : ends chars = ends (nameBytes p.intentions))
    (hempty : nameBytes p.intentions = [] → chars = []) : ReadsAsName p.intentions := by
  obtain ⟨hcount, hsig, hall⟩ := p.lengths_lt
  have hroom := ends_of_layout h
  have hmany := ends_intentions hall
  have hname := ends_nameOf_le [] p.intentions
  have hnil : ends [] = 0 := rfl
  rw [hends] at hroom
  unfold nameBytes at hroom
  have hsome : 0 < p.intentions.length := by
    rw [List.length_pos_iff]
    intro hnone
    rw [hnone] at hroom
    cases hroom
  have hone : p.intentions.length = 1 := by omega
  obtain ⟨⟨key, value⟩, hsingle⟩ := List.length_eq_one_iff.mp hone
  refine ⟨⟨key, value⟩, hsingle, or_iff_not_imp_left.mpr fun hkey => ?_⟩
  change key ≠ [] at hkey
  have hnone : nameBytes p.intentions = [] := by
    rw [hsingle]
    simp [nameBytes, nameOf, hkey]
  obtain rfl := hempty hnone
  -- what is read as a name is empty, and starts with the key
  obtain ⟨a, b, k, _, _, ⟨_, ha, _⟩, ⟨_, _, hb, _⟩, ⟨_, _, hk, _⟩, ⟨l, hl, rfl⟩, ⟨m, hm, rfl⟩, heq⟩ := h
  have hfits := hall ⟨key, value⟩ (by rw [hsingle]; exact List.mem_singleton_self _)
  obtain ⟨hkeyfits, hvaluefits⟩ : key.length < 2 ^ 31 ∧ value.length < 2 ^ 31 := hfits
  have hcountSpells : Spells (packed32 1) 1 := packed32_spells (by norm_num)
  have hkeySpells : Spells (packed32 key.length) key.length := packed32_spells (by omega)
  have hvalueSpells : Spells (packed32 value.length) value.length := packed32_spells (by omega)
  have hsigSpells : Spells (packed32 p.signature.length) p.signature.length :=
    packed32_spells (by omega)
  rw [bytes_single hsingle] at heq
  obtain ⟨_, heq⟩ := spells_append_inj (packed32_spells p.index_lt) ha heq
  obtain ⟨_, heq⟩ := spells_append_inj hcountSpells hb heq
  obtain ⟨_, heq⟩ := spells_append_inj hkeySpells hk heq
  rw [List.append_nil, counted, counted, ← List.append_assoc, ← List.append_assoc,
    ← List.append_assoc, ← List.append_assoc] at heq
  have hshort := List.append_cancel_right heq
  have hendsEq := congrArg ends hshort
  simp only [ends_append, ends_spells hvalueSpells, ends_spells hsigSpells, ends_number hl,
    ends_number hm] at hendsEq
  have hhigh : ∀ b ∈ key, 128 ≤ b.toNat := ends_eq_zero.mp (by omega)
  have hspells := spells_append hhigh hvalueSpells
  obtain ⟨n, hln, hzero⟩ := hl
  rw [List.append_assoc] at hshort
  obtain ⟨rfl, _⟩ := spells_append_inj hspells hln hshort
  obtain ⟨hvalue, hdvd⟩ := eq_zero_of_number hvaluefits ⟨n, hln, hzero⟩
  exact ⟨List.length_eq_zero_iff.mp hvalue, hhigh, hdvd⟩

end Layout

/-- **The two readers agree** exactly if there is one intention and it reads as a name. -/
theorem decodeAgrees_iff {malformed : List UInt8 → String} (hmalformed : ReplacesMalformed malformed)
    (p : TypeDefBody) : DecodeAgrees malformed p ↔ ReadsAsName p.intentions := by
  have hname : nameOf (newString malformed) "" p.intentions =
      newString malformed (nameBytes p.intentions) := by
    rw [← newString_nil malformed]
    exact nameOf_eq _ [] _
  have htakes := @decode_takes _ (newString malformed)
    ⟨wrap32 p.index, nameOf (newString malformed) "" p.intentions, p.signature⟩
  dsimp only at htakes
  rw [hname] at htakes
  constructor
  · rintro ⟨hdecode, _⟩
    rw [hname] at hdecode
    obtain ⟨chars, hchars, hlayout⟩ := (htakes.on_append_iff _ _).mp (hdecode [])
    refine readsAsName_of_layout hlayout (ends_eq_of_newString hmalformed hchars) fun hnone => ?_
    rw [hnone, newString_nil] at hchars
    exact newString_eq_empty hmalformed hchars
  · intro h
    refine ⟨fun q => ?_, fun q => p.skip_on "" q⟩
    rw [hname]
    exact htakes.on_append ⟨_, rfl, layout_of_readsAsName h⟩ q

/-- Every byte that is no ASCII character is replaced. -/
def replaceBytes (bs : List UInt8) : String :=
  String.ofList (bs.map fun b => if b.toNat < 128 then Char.ofNat b.toNat else '\ufffd')

theorem toNat_ofNat_ascii : ∀ n < 128, (Char.ofNat n).toNat = n := by decide

theorem replaceBytes_replaces : ReplacesMalformed replaceBytes := by
  constructor
  · intro bs _
    rw [replaceBytes, String.toList_ofList, List.countP_map, ends]
    refine List.countP_congr fun b _ => ?_
    simp only [Function.comp_apply, decide_eq_true_eq]
    split
    · rename_i hlow
      rw [toNat_ofNat_ascii _ hlow]
    · rename_i hhigh
      exact iff_of_false (by decide) hhigh
  · intro bs hdecode hempty
    rw [replaceBytes, String.ofList_eq_empty_iff, List.map_eq_nil_iff] at hempty
    rw [hempty, (decodeUtf8_eq_some.mpr rfl : decodeUtf8 [] = some "")] at hdecode
    cases hdecode

/-- A definition of `a`. -/
def namedBody : TypeDefBody := ⟨0x40, [⟨[], [97]⟩], [0x23], by decide, by decide⟩

theorem decodeAgrees_iff_named :
    DecodeAgrees replaceBytes namedBody ↔ ReadsAsName namedBody.intentions :=
  decodeAgrees_iff replaceBytes_replaces namedBody

/-- A definition of `a` with another intention. -/
def annotatedBody : TypeDefBody :=
  ⟨0x40, [⟨[], [97]⟩, ⟨[107], [118]⟩], [0x23], by decide, by decide⟩

/-- The second intention is read as the signature, and four bytes are left. -/
theorem not_decodeAgrees_annotated : ¬ DecodeAgrees replaceBytes annotatedBody := by
  intro h
  have hleft := congrArg Prod.snd (h.decode [])
  revert hleft
  decide +kernel

end LabComm.Java
