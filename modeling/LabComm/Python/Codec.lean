import LabComm.Python.Decl

set_option autoImplicit false

/-! # Python packing

The functions of the Python encoder and decoder for single numbers and strings, in the format of
version LabComm2014. What `encode_packed32` and `encode_string` write is read back if and only if
the number, and the length of the string, has at most 32 bits.
-/

namespace LabComm.Python

open Library

/-- The exceptions. -/
inductive PyError where
  | EOFError | structError | UnicodeDecodeError | KeyError | AttributeError | TypeError
  | NameError
  /-- Raised as a bare `Exception`. -/
  | exception
  deriving DecidableEq, Repr

/-- `dict[k]` -/
def orKeyError {α : Type} : Option α → Except PyError α
  | some a => pure a
  | none => throw .KeyError

/-- `i_USER` -/
def i_USER : Nat := 0x40

/-! ## Numbers -/

/-- `Encoder.encode_packed32`: only the low 32 bits count. -/
def encodePacked32 (v : Nat) : List UInt8 := packed32 (v % 2 ^ 32)

/-- `Decoder.decode_packed32`: the number may have any number of bits. -/
def decodePacked32 : Parser PyError Nat := readVarint .EOFError

theorem decodePacked32_consumes (v : Nat) :
    Consumes decodePacked32 (encodePacked32 v) (v % 2 ^ 32) := by
  apply readVarint_consumes
  have := Nat.mod_lt v (show 0 < 2 ^ 32 by norm_num)
  norm_num at this ⊢
  omega

theorem decodePacked32_readsBack (v : Nat) :
    ReadsBack decodePacked32 (encodePacked32 v) v (v < 2 ^ 32) := by
  constructor
  · intro hv
    have h := decodePacked32_consumes v
    rwa [Nat.mod_eq_of_lt hv] at h
  · intro hv rest q h
    have hmod := Nat.mod_lt v (show 0 < 2 ^ 32 by norm_num)
    rw [decodePacked32_consumes v, Except.ok.injEq, Prod.mk.injEq] at h
    omega

theorem encodePacked32_length_pos (v : Nat) : 0 < (encodePacked32 v).length :=
  packed32_length_pos _

/-! ## Strings -/

section Strings

variable {S : Type} [PyText S]

/-- `Encoder.encode_string`, which may raise `UnicodeDecodeError` before it writes anything. -/
def encodeString (v : S) : Option (List UInt8) := do
  let s ← PyText.encode v
  pure (encodePacked32 s.length ++ s)

/-- The loop of `encode_intentions`: at the first string that raises it stops, and what it has
written stays. -/
def encodeIntentionsFrom : Intentions S → List UInt8
  | [] => []
  | (k, v) :: rest =>
      match encodeString k with
      | none => []
      | some key =>
          match encodeString v with
          | none => key
          | some value => key ++ value ++ encodeIntentionsFrom rest

/-- `Encoder.encode_intentions` -/
def encodeIntentions (intentions : Intentions S) : List UInt8 :=
  encodePacked32 intentions.length ++ encodeIntentionsFrom intentions

end Strings

/-- `Decoder.decode_string` -/
def decodeString : Parser PyError String := do
  let length ← decodePacked32
  let bs ← readBytes .EOFError length
  match decodeUtf8 bs with
  | some s => pure s
  | none => throw .UnicodeDecodeError

/-- `Decoder.decode_intentions` -/
def decodeIntentions : Parser PyError (Intentions String) := do
  let numIntentions ← decodePacked32
  let res ← times numIntentions do
    let key ← decodeString
    let val ← decodeString
    pure (key, val)
  pure (sortedTuple res)

/-- The bytes that `encode_string` writes for a `unicode` object. -/
def stringBytes (s : String) : List UInt8 := encodePacked32 (utf8 s).length ++ utf8 s

theorem encodeString_string (s : String) : encodeString s = some (stringBytes s) := rfl

/-- The length of the string has at most 32 bits. -/
def StringFits (s : String) : Prop := (utf8 s).length < 2 ^ 32

theorem utf8_injective : Function.Injective utf8 := by
  intro s t h
  have hs := decodeUtf8_eq_some.mpr (rfl : utf8 s = utf8 s)
  have ht := decodeUtf8_eq_some.mpr h.symm
  rw [hs, Option.some.injEq] at ht
  exact ht

theorem decodeString_readsBack (s : String) :
    ReadsBack decodeString (stringBytes s) s (StringFits s) := by
  have hdec : Consumes (ε := PyError) (match decodeUtf8 (utf8 s) with
      | some s => pure s
      | none => throw .UnicodeDecodeError) [] s := by
    rw [decodeUtf8_eq_some.mpr rfl]
    exact Consumes.pure s
  have hbytes := ((readBytes_consumes PyError.EOFError (utf8 s)).bind (f := fun bs =>
    match decodeUtf8 bs with
      | some s => pure s
      | none => throw .UnicodeDecodeError) hdec).readsBack
  rw [List.append_nil] at hbytes
  refine ((decodePacked32_readsBack (utf8 s).length).bind hbytes ?_).congr (by
    rw [and_true, StringFits])
  intro n _ t q _ h
  obtain ⟨bs, r, hread, hdecode⟩ := run_bind_eq_ok.mp h
  have hlen := (readBytes_length hread).1
  split at hdecode
  · rename_i s' hs'
    have hpure : (Except.ok (s', r) : Except PyError _) = .ok (s, q) := hdecode
    simp only [Except.ok.injEq, Prod.mk.injEq] at hpure
    rw [hpure.1, decodeUtf8_eq_some] at hs'
    rw [hs', hlen]
  · exact absurd hdecode (by simp [throw, throwThe, MonadExceptOf.throw, StateT.run,
      StateT.lift])

/-- The pair of a key and a value. -/
def pairBytes (p : String × String) : List UInt8 := stringBytes p.1 ++ stringBytes p.2

theorem encodeIntentionsFrom_string (l : Intentions String) :
    encodeIntentionsFrom l = l.flatMap pairBytes := by
  induction l with
  | nil => rfl
  | cons p l ih =>
      rw [encodeIntentionsFrom, encodeString_string, encodeString_string, ih]
      rfl

end LabComm.Python
