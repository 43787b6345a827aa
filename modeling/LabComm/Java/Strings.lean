import LabComm.Java.Packed32
import LabComm.Python.Codec

set_option autoImplicit false

/-! # Strings in Java

`encodeString` takes the bytes of a string from `DataOutputStream.writeUTF`, without the two of
their length. `writeUTF` has a format of its own: U+0000 takes two bytes, a supplementary character
is written as its two surrogates, and there are at most 65535 bytes. The other languages write
UTF-8, and `decodeString` reads it (`stringAgrees_iff`).
-/

namespace LabComm.Java

open Library Python

/-! ## Writing -/

/-- The UTF-16 code units of a character. -/
def utf16 (c : Char) : List Nat :=
  if c.toNat ≤ 0xffff then [c.toNat]
  else [0xd800 + (c.toNat - 0x10000) / 0x400, 0xdc00 + (c.toNat - 0x10000) % 0x400]

/-- What `writeUTF` writes for a `char`. -/
def utfChar (c : Nat) : List UInt8 :=
  if 0x0001 ≤ c ∧ c ≤ 0x007f then [UInt8.ofNat c]
  else if 0x07ff < c then
    [UInt8.ofNat (c / 4096 % 0x10 + 0xe0), UInt8.ofNat (c / 64 % 0x40 + 0x80),
      UInt8.ofNat (c % 0x40 + 0x80)]
  else [UInt8.ofNat (c / 64 % 0x20 + 0xc0), UInt8.ofNat (c % 0x40 + 0x80)]

/-- The bytes of a character in `writeUTF`. -/
def utfBytes (c : Char) : List UInt8 := (utf16 c).flatMap utfChar

/-- The bytes of a string in `writeUTF`. -/
def utf (s : String) : List UInt8 := s.toList.flatMap utfBytes

/-- What `encodeString` throws. -/
inductive StringException where
  /-- The `UTFDataFormatException` of `writeUTF`. -/
  | utfDataFormat
  | packed (e : PackedException)
  deriving DecidableEq

/-- `DataOutputStream.writeUTF` -/
def writeUTF (value : String) : Except StringException (List UInt8) :=
  let bytes := utf value
  if 65535 < bytes.length then throw .utfDataFormat else pure (bigEndian 2 bytes.length ++ bytes)

/-- `EncoderChannel.encodeString` -/
def EncoderChannel.encodeString (value : String) : Except StringException (List UInt8) := do
  let tmp ← writeUTF value
  let len ← (EncoderChannel.encodePacked32 (toLong (.ofNat 32 (tmp.length - 2)))).mapError .packed
  pure (len ++ tmp.drop 2)

/-! ## Reading -/

/-- `new String(chars)` when the charset is UTF-8; `malformed` is the text of other bytes. -/
def newString (malformed : List UInt8 → String) (chars : List UInt8) : String :=
  (decodeUtf8 chars).getD (malformed chars)

/-- `DecoderChannel.decodeString`; the mask of the length keeps every bit. -/
def decodeString (malformed : List UInt8 → String) : JavaParser String := do
  let len ← decodePacked32
  if len < 0 then
    throw .negativeArraySize
  else
    let chars ← readBytes .eof len.toNat
    pure (newString malformed chars)

/-! ## The bytes of a character -/

theorem utf8_eq_flatMap (s : String) : utf8 s = s.toList.flatMap String.utf8EncodeChar := by
  rw [utf8, ← String.utf8Encode_toList, List.utf8Encode, List.toList_data_toByteArray]

/-- The characters on which the two formats agree. -/
def SameInBoth (c : Char) : Prop := c.toNat ≠ 0 ∧ c.toNat ≤ 0xffff

theorem utfBytes_eq {c : Char} (h : SameInBoth c) : utfBytes c = String.utf8EncodeChar c := by
  obtain ⟨hzero, hmax⟩ := h
  have hval : c.val.toNat = c.toNat := rfl
  rw [utfBytes, utf16, if_pos hmax, List.flatMap_singleton, utfChar, String.utf8EncodeChar, hval]
  by_cases h1 : c.toNat ≤ 0x7f
  · rw [if_pos ⟨by omega, h1⟩]
    simp only [h1, if_true]
  · rw [if_neg (by omega)]
    by_cases h2 : c.toNat ≤ 0x7ff
    · rw [if_neg (by omega)]
      simp only [h1, h2, if_true, if_false]
    · rw [if_pos (by omega)]
      simp only [h1, h2, hmax, if_true, if_false]

/-- Any other character takes more bytes in `writeUTF`. -/
theorem utfBytes_longer {c : Char} (h : ¬ SameInBoth c) :
    (String.utf8EncodeChar c).length < (utfBytes c).length := by
  have hval : c.val.toNat = c.toNat := rfl
  by_cases hmax : c.toNat ≤ 0xffff
  · have hzero : c.toNat = 0 := by
      by_contra h0
      exact h ⟨h0, hmax⟩
    rw [utfBytes, utf16, if_pos hmax, List.flatMap_singleton, utfChar, String.utf8EncodeChar, hval,
      hzero]
    decide
  · -- a surrogate is above U+07FF, and takes three bytes
    have hthree (n : Nat) (hn : 0x7ff < n) : (utfChar n).length = 3 := by
      rw [utfChar, if_neg (by omega), if_pos hn]
      rfl
    have hfour : (String.utf8EncodeChar c).length ≤ 4 := by
      rw [String.length_utf8EncodeChar]
      exact Char.utf8Size_le_four c
    rw [utfBytes, utf16, if_neg hmax]
    simp only [List.flatMap_cons, List.flatMap_nil, List.append_nil, List.length_append]
    rw [hthree _ (by omega), hthree _ (by omega)]
    omega

/-! ## The bytes of a string -/

theorem utf_eq {s : String} (h : ∀ c ∈ s.toList, SameInBoth c) : utf s = utf8 s := by
  rw [utf, utf8_eq_flatMap]
  exact List.flatMap_congr fun c hc => utfBytes_eq (h c hc)

theorem utfBytes_length_le (c : Char) :
    (String.utf8EncodeChar c).length ≤ (utfBytes c).length := by
  by_cases h : SameInBoth c
  · rw [utfBytes_eq h]
  · exact (utfBytes_longer h).le

theorem flatMap_utf_longer {cs : List Char} (h : ∃ c ∈ cs, ¬ SameInBoth c) :
    (cs.flatMap String.utf8EncodeChar).length < (cs.flatMap utfBytes).length := by
  have hle (cs : List Char) :
      (cs.flatMap String.utf8EncodeChar).length ≤ (cs.flatMap utfBytes).length := by
    rw [List.length_flatMap, List.length_flatMap]
    exact List.sum_le_sum fun c _ => utfBytes_length_le c
  obtain ⟨c, hc, hother⟩ := h
  obtain ⟨before, after, rfl⟩ := List.append_of_mem hc
  have hbefore := hle before
  have hafter := hle after
  have hlonger := utfBytes_longer hother
  simp only [List.flatMap_append, List.flatMap_cons, List.length_append]
  omega

theorem utf_longer {s : String} (h : ¬ ∀ c ∈ s.toList, SameInBoth c) :
    (utf8 s).length < (utf s).length := by
  rw [utf, utf8_eq_flatMap]
  exact flatMap_utf_longer (by simpa using h)

/-- The two bytes of the length are dropped, and the length is written as a packed number. -/
theorem encodeString_eq {s : String} (h : (utf s).length ≤ 65535) :
    EncoderChannel.encodeString s = .ok (packed32 (utf s).length ++ utf s) := by
  have hwrite : writeUTF s = .ok (bigEndian 2 (utf s).length ++ utf s) := if_neg (by
    rw [not_lt]
    exact h)
  have hlen : (BitVec.ofNat 32 (utf s).length).toNat = (utf s).length := by
    rw [BitVec.toNat_ofNat, Nat.mod_eq_of_lt (by omega)]
  have hpacked := encodePacked32_toLong (x := .ofNat 32 (utf s).length) (by
    rw [BitVec.msb_eq_decide, hlen, decide_eq_false_iff_not]
    omega)
  have htmp : (bigEndian 2 (utf s).length ++ utf s).length - 2 = (utf s).length := by
    simp
  have hdrop : (bigEndian 2 (utf s).length ++ utf s).drop 2 = utf s := by
    rw [List.drop_append_of_le_length (by simp), List.drop_of_length_le (by simp)]
    rfl
  rw [EncoderChannel.encodeString, hwrite]
  show (do let len ← (EncoderChannel.encodePacked32 (toLong (.ofNat 32
    ((bigEndian 2 (utf s).length ++ utf s).length - 2)))).mapError StringException.packed; _) = _
  rw [htmp, hpacked, hlen, ← hdrop]
  rfl

theorem encodeString_long {s : String} (h : 65535 < (utf s).length) :
    EncoderChannel.encodeString s = .error .utfDataFormat := by
  have hwrite : writeUTF s = .error .utfDataFormat := if_pos h
  rw [EncoderChannel.encodeString, hwrite]
  rfl

/-! ## The strings of the languages -/

/-- The string is written as the packed length and the bytes of its UTF-8, as it is in Python and
in C#, and is read again. -/
structure StringAgrees (malformed : List UInt8 → String) (s : String) : Prop where
  java : EncoderChannel.encodeString s = .ok (packed32 (utf8 s).length ++ utf8 s)
  python : Python.encodeString s = some (packed32 (utf8 s).length ++ utf8 s)
  csharp : CSharp.encodeString s = packed32 (utf8 s).length ++ utf8 s
  decode : Consumes (decodeString malformed) (packed32 (utf8 s).length ++ utf8 s) s

theorem decodeString_consumes (malformed : List UInt8 → String) {s : String}
    (h : (utf8 s).length < 2 ^ 31) :
    Consumes (decodeString malformed) (packed32 (utf8 s).length ++ utf8 s) s := by
  refine (decodePacked32_consumes (by omega)).bind ?_
  rw [wrap32_natCast h, if_neg (by omega), Int.toNat_natCast]
  have hchars := (readBytes_consumes DecodeException.eof (utf8 s)).bind
    (f := fun chars => pure (newString malformed chars)) (Consumes.pure _)
  rw [List.append_nil] at hchars
  rwa [newString, decodeUtf8_eq_some.mpr rfl] at hchars

theorem csharp_encodeString {s : String} (h : (utf8 s).length < 2 ^ 31) :
    CSharp.encodeString s = packed32 (utf8 s).length ++ utf8 s := by
  show CSharp.writePacked32 (utf8 s).length ++ utf8 s = _
  rw [CSharp.writePacked32_eq, toUnsigned_natCast (by omega)]

theorem python_encodeString {s : String} (h : (utf8 s).length < 2 ^ 31) :
    Python.encodeString s = some (packed32 (utf8 s).length ++ utf8 s) := by
  rw [Python.encodeString_string, stringBytes, Python.encodePacked32, Nat.mod_eq_of_lt (by omega)]

/-- **Java writes UTF-8 exactly if** the string has no U+0000, no supplementary character and no
more than 65535 bytes. -/
theorem stringAgrees_iff (malformed : List UInt8 → String) (s : String) :
    StringAgrees malformed s ↔
      (∀ c ∈ s.toList, c.toNat ≠ 0 ∧ c.toNat ≤ 0xffff) ∧ (utf8 s).length ≤ 65535 := by
  constructor
  · rintro ⟨hjava, _, _, _⟩
    by_cases hlong : 65535 < (utf s).length
    · rw [encodeString_long hlong] at hjava
      cases hjava
    · rw [encodeString_eq (not_lt.mp hlong), Except.ok.injEq] at hjava
      -- the lengths come first, so that they agree
      have hlengths : (utf s).length = (utf8 s).length := by
        by_contra hne
        by_cases hall : ∀ c ∈ s.toList, SameInBoth c
        · exact hne (congrArg _ (utf_eq hall))
        · have hlonger := utf_longer hall
          have hinj := varint_append_inj (k := 4) (m := (utf s).length) (n := (utf8 s).length)
            (by omega) (by omega) hjava
          exact hne hinj.1
      refine ⟨?_, by omega⟩
      by_contra hother
      have hlonger := utf_longer hother
      omega
  · rintro ⟨hall, hlength⟩
    have hutf := utf_eq hall
    have hjava := encodeString_eq (s := s) (by rw [hutf]; exact hlength)
    rw [hutf] at hjava
    exact ⟨hjava, python_encodeString (by omega), csharp_encodeString (by omega),
      decodeString_consumes malformed (by omega)⟩

/-- U+0000 is written as `C0 80`. -/
theorem not_stringAgrees_zero : ¬ StringAgrees (fun _ => "") "\x00" := by
  rintro ⟨hjava, _, _, _⟩
  exact absurd hjava (by decide +kernel)

end LabComm.Java
