import LabComm.Compiler.ClassTypes
import LabComm.Format.Wire
import LabComm.Java.Strings
import LabComm.Library.Rows

set_option autoImplicit false

/-! # Generated Java encoders and decoders

The code that `Java_emitEncoder` and `Java_emitDecoder` generate for a data type, over the
functions of `EncoderChannel` and `DecoderChannel`. An array of several dimensions is an array of
arrays. The decoder reads all limits before it allocates the first array, and the encoder takes the
limits from the first element of each array: there is none if one of them is empty
(`reencodes_iff`).
-/

namespace LabComm.Java.Generated

open Library

/-! ## Values -/

/-- A Java value; a float is kept as its bits, and a class is a number. -/
inductive Value where
  | null
  | boolean (b : Bool)
  | byte (x : BitVec 8)
  | short (x : BitVec 16)
  | int (x : BitVec 32)
  | long (x : BitVec 64)
  | float (bits : BitVec 32)
  | double (bits : BitVec 64)
  | string (s : String)
  | sampleClass (class_ : Nat)
  | object (fields : List Value)
  | array (items : List Value)

/-- What is thrown in the generated code and in the functions it calls. -/
inductive CodecException where
  | decode (e : DecodeException)
  | string (e : StringException)
  | packed (e : PackedException)
  | NullPointerException
  | ArrayIndexOutOfBoundsException
  /-- A class is not registered. -/
  | IOException
  /-- The code does not fit the value; the Java compiler rejects it. -/
  | typeError

/-- What an encoding writes to `data`. -/
abbrev Written := Except CodecException (List UInt8)

/-- A method that reads. -/
abbrev Reading (α : Type) := Parser CodecException α

/-! ## The channels -/

/-- An encoder channel and a decoder channel, as far as a value is concerned: the indices in the
`sample_ref_registry`, the classes in the `ref_registry`, and the text of bytes that are not
UTF-8. -/
structure Channels where
  getTag : Nat → Option (BitVec 32)
  getSampleClass : BitVec 32 → Option Nat
  malformed : List UInt8 → String

/-- `Float.floatToIntBits`: there is one NaN. -/
def floatToIntBits (bits : BitVec 32) : BitVec 32 :=
  if 0x7f800000 < bits.toNat % 2 ^ 31 then 0x7fc00000 else bits

/-- `Double.doubleToLongBits` -/
def doubleToLongBits (bits : BitVec 64) : BitVec 64 :=
  if 0x7ff0000000000000 < bits.toNat % 2 ^ 63 then 0x7ff8000000000000 else bits

/-- A number of `n` bits in `w` bytes, as `DataInputStream` reads it. -/
def readBits (w n : Nat) : Reading (BitVec n) :=
  (fun bs => BitVec.ofNat n (ofBigEndian bs)) <$> readBytes (.decode .eof) w

/-- A method of `DecoderChannel`. -/
def lift {α : Type} (p : JavaParser α) : Reading α := fun bs => (p.run bs).mapError .decode

variable (c : Channels)

/-- `encodeSampleRef`: for `null` there is a `NullPointerException`, which is caught. -/
def Channels.encodeSampleRef : Value → Written
  | .null => pure (bigEndian 4 0)
  | .sampleClass class_ =>
      match c.getTag class_ with
      | some index => pure (bigEndian 4 index.toNat)
      | none => throw .IOException
  | _ => throw .typeError

/-- `decodeSampleRef` -/
def Channels.decodeSampleRef : Reading Value := do
  let index ← readBits 4 32
  pure (((c.getSampleClass index).map Value.sampleClass).getD .null)

/-- The functions `encodeBoolean`, `encodeByte`, … on a value of their type. -/
def Channels.encodePrim : Prim → Value → Written
  | .boolean, .boolean b => pure [if b then 1 else 0]
  | .byte, .byte x => pure (bigEndian 1 x.toNat)
  | .short, .short x => pure (bigEndian 2 x.toNat)
  | .int, .int x => pure (bigEndian 4 x.toNat)
  | .long, .long x => pure (bigEndian 8 x.toNat)
  | .float, .float bits => pure (bigEndian 4 (floatToIntBits bits).toNat)
  | .double, .double bits => pure (bigEndian 8 (doubleToLongBits bits).toNat)
  | .string, .string s => (EncoderChannel.encodeString s).mapError .string
  | .string, .null => throw .NullPointerException
  | .sample, v => c.encodeSampleRef v
  | _, _ => throw .typeError

/-- The functions `decodeBoolean`, `decodeByte`, … -/
def Channels.decodePrim : Prim → Reading Value
  | .boolean => (fun b => Value.boolean (b ≠ 0)) <$> readByte (.decode .eof)
  | .byte => Value.byte <$> readBits 1 8
  | .short => Value.short <$> readBits 2 16
  | .int => Value.int <$> readBits 4 32
  | .long => Value.long <$> readBits 8 64
  | .float => Value.float <$> readBits 4 32
  | .double => Value.double <$> readBits 8 64
  | .string => Value.string <$> lift (decodeString c.malformed)
  | .sample => c.decodeSampleRef

/-! ## The generated encoder -/

/-- `name[i]` -/
def index : Value → Nat → Except CodecException Value
  | .array items, i =>
      match items[i]? with
      | some x => pure x
      | none => throw .ArrayIndexOutOfBoundsException
  | .null, _ => throw .NullPointerException
  | _, _ => throw .typeError

/-- `name[i_0][i_1]…` -/
def element : Value → List Nat → Except CodecException Value
  | v, [] => pure v
  | v, i :: is => do
      let x ← index v i
      element x is

/-- `name.length` -/
def length : Value → Except CodecException Nat
  | .array items => pure items.length
  | .null => throw .NullPointerException
  | _ => throw .typeError

/-- `Exp.Java_emitEncoder` for the expressions from the one at `i` on, with `[0]` behind the name
`i` times: what is written, and the limits of the loops. -/
def emitLimits (v : Value) : Nat → List Exp → Except CodecException (List UInt8 × List Nat)
  | _, [] => pure ([], [])
  | i, .integerLiteral value :: dim => do
      let rest ← emitLimits v (i + 1) dim
      pure (rest.1, value :: rest.2)
  | i, .variableSize :: dim => do
      let x ← element v (List.replicate i 0)
      let n ← length x
      let bs ← (EncoderChannel.encodePacked32 (toLong (.ofNat 32 n))).mapError .packed
      let rest ← emitLimits v (i + 1) dim
      pure (bs ++ rest.1, n :: rest.2)

mutual

/-- What the code of `DataType.Java_emitEncoder` does in a class that compiles; the code of a typedef
is in a method or put in its place. -/
def emitEncoder : DataType → Value → Written
  | .void, _ => pure []
  | .prim p, v => c.encodePrim p v
  | .user _ type, v => emitEncoder type v
  | .struct fields, .object vs => emitEncoderFields fields vs
  | .struct _, .null => throw .NullPointerException
  | .struct _, _ => throw .typeError
  | .array elem dim, v => do
      let limits ← emitLimits v 0 dim
      nest limits.2 (fun is out => do
        let x ← element v is
        let more ← emitEncoder elem x
        pure (out ++ more)) limits.1

/-- The fields of a struct, in order. -/
def emitEncoderFields : Fields → List Value → Written
  | .nil, _ => pure []
  | .cons _ _ type rest, v :: vs => do
      let bs ← emitEncoder type v
      let more ← emitEncoderFields rest vs
      pure (bs ++ more)
  | .cons .., [] => throw .typeError

end

/-! ## The generated decoder -/

/-- `Exp.Java_emitDecoder` for all expressions: the limits of the loops. -/
def decodeLimits : List Exp → Reading (List Int)
  | [] => pure []
  | .integerLiteral value :: dim => do
      let ns ← decodeLimits dim
      pure ((value : Int) :: ns)
  | .variableSize :: dim => do
      let n ← lift decodePacked32
      let ns ← decodeLimits dim
      pure (n :: ns)

/-- The loops, with `new` in front of each. -/
def decodeRows (p : Reading Value) : List Int → Reading Value
  | [] => p
  | n :: ns =>
      if n < 0 then throw (.decode .negativeArraySize)
      else Value.array <$> times n.toNat (decodeRows p ns)

mutual

/-- What the code of `DataType.Java_emitDecoder` does in a class that compiles. -/
def emitDecoder : DataType → Reading Value
  | .void => pure .null
  | .prim p => c.decodePrim p
  | .user _ type => emitDecoder type
  | .struct fields => Value.object <$> emitDecoderFields fields
  | .array elem dim => do
      let limits ← decodeLimits dim
      decodeRows (emitDecoder elem) limits

/-- The fields of a struct, in order. -/
def emitDecoderFields : Fields → Reading (List Value)
  | .nil => pure []
  | .cons _ _ type rest => do
      let v ← emitDecoder type
      let vs ← emitDecoderFields rest
      pure (v :: vs)

end

/-- The method `encode` of the class that is generated for a sample of this name and type, if there
is such a class. -/
def encoder (name : Name) (t : DataType) : Option (Value → Written) :=
  if Classes.compiles .java name t then some (emitEncoder c t) else none

/-- The method `decode` of this class. -/
def decoder (name : Name) (t : DataType) : Option (Reading Value) :=
  if Classes.compiles .java name t then some (emitDecoder c t) else none

theorem encoder_of_hasCode (name : Name) {t : DataType} (h : Classes.HasCode .java t) :
    encoder c name t = some (emitEncoder c t) :=
  if_pos ((Classes.compiles_iff .java name t).mpr h)

theorem decoder_of_hasCode (name : Name) {t : DataType} (h : Classes.HasCode .java t) :
    decoder c name t = some (emitDecoder c t) :=
  if_pos ((Classes.compiles_iff .java name t).mpr h)

theorem encoder_eq {name : Name} {t : DataType} {encode : Value → Written}
    (h : encoder c name t = some encode) : encode = emitEncoder c t := by
  unfold encoder at h
  split at h
  · exact (Option.some.inj h).symm
  · cases h

theorem decoder_eq {name : Name} {t : DataType} {decode : Reading Value}
    (h : decoder c name t = some decode) : decode = emitDecoder c t := by
  unfold decoder at h
  split at h
  · exact (Option.some.inj h).symm
  · cases h

/-! ## Which values can be encoded, and which come back -/

/-- A string has at most 65535 bytes, and a class is registered. -/
def Channels.PrimEncodable : Prim → Value → Prop
  | .string, .string s => (utf s).length ≤ 65535
  | .sample, .sampleClass class_ => (c.getTag class_).isSome = true
  | _, _ => True

/-- A NaN is the one that is written, a string is the text of what is written of it, and a reference
has the same index on both sides. -/
def Channels.PrimKept : Prim → Value → Prop
  | .float, .float bits => floatToIntBits bits = bits
  | .double, .double bits => doubleToLongBits bits = bits
  | .string, .string s => newString c.malformed (utf s) = s
  | .sample, .null => c.getSampleClass 0 = none
  | .sample, .sampleClass class_ =>
      ∀ index, c.getTag class_ = some index → c.getSampleClass index = some class_
  | _, _ => True

/-- No variable dimension is behind an empty one. -/
def Reaches : List Exp → Value → Prop
  | [], _ => True
  | _ :: dim, .array [] => isVariable dim = false
  | _ :: dim, .array (x :: _) => Reaches dim x
  | _ :: _, _ => False

/-- The values that are `n` arrays deep. -/
def elements : Nat → Value → List Value
  | 0, v => [v]
  | n + 1, .array items => items.flatMap (elements n)
  | _ + 1, _ => []

/-- The items of an array. -/
def Value.items : Value → List Value
  | array items => items
  | _ => []

/-- The fields of an object. -/
def Value.fields : Value → List Value
  | object fields => fields
  | _ => []

mutual

/-- The encoder has what it needs. -/
def Encodable : DataType → Value → Prop
  | .void, _ => True
  | .prim p, v => c.PrimEncodable p v
  | .user _ type, v => Encodable type v
  | .struct fields, v => FieldsEncodable fields v.fields
  | .array elem dim, v => Reaches dim v ∧ ∀ e ∈ elements dim.length v, Encodable elem e

/-- The same of the fields. -/
def FieldsEncodable : Fields → List Value → Prop
  | .cons _ _ type rest, v :: vs => Encodable type v ∧ FieldsEncodable rest vs
  | _, _ => True

end

mutual

/-- What is written is read as the same value again. -/
def Kept : DataType → Value → Prop
  | .void, _ => True
  | .prim p, v => c.PrimKept p v
  | .user _ type, v => Kept type v
  | .struct fields, v => FieldsKept fields v.fields
  | .array elem dim, v => ∀ e ∈ elements dim.length v, Kept elem e

/-- The same of the fields. -/
def FieldsKept : Fields → List Value → Prop
  | .cons _ _ type rest, v :: vs => Kept type v ∧ FieldsKept rest vs
  | _, _ => True

end

/-! ## Primitive values -/

theorem readBits_consumes (w n : Nat) (h : n = 8 * w) (x : BitVec n) :
    Consumes (readBits w n) (bigEndian w x.toNat) x := by
  have hlt : x.toNat < 256 ^ w :=
    calc x.toNat < 2 ^ n := x.isLt
      _ = 2 ^ (8 * w) := congrArg (2 ^ ·) h
      _ = 256 ^ w := pow_mul 2 8 w
  have hread := (readBytes_consumes (CodecException.decode .eof) (bigEndian w x.toNat)).map
    fun bs => BitVec.ofNat n (ofBigEndian bs)
  rwa [bigEndian_length, ofBigEndian_bigEndian hlt, BitVec.ofNat_toNat, BitVec.setWidth_eq] at hread

theorem lift_consumes {α : Type} {p : JavaParser α} {bs : List UInt8} {a : α}
    (h : Consumes p bs a) : Consumes (lift p) bs a := by
  intro rest
  show (p.run (bs ++ rest)).mapError _ = _
  rw [h rest]
  rfl

theorem lift_run_eq_ok {α : Type} {p : JavaParser α} {s q : List UInt8} {a : α}
    (h : (lift p).run s = .ok (a, q)) : p.run s = .ok (a, q) := by
  have h' : (p.run s).mapError CodecException.decode = .ok (a, q) := h
  cases hp : p.run s with
  | error e =>
      rw [hp] at h'
      cases h'
  | ok x =>
      rw [hp] at h'
      cases h'
      rfl

theorem decodeString_reads (malformed : List UInt8 → String) {bs : List UInt8}
    (h : bs.length < 2 ^ 31) :
    Consumes (decodeString malformed) (packed32 bs.length ++ bs) (newString malformed bs) := by
  refine (decodePacked32_consumes (by omega)).bind ?_
  rw [wrap32_natCast h, if_neg (by omega), Int.toNat_natCast]
  have hchars := (readBytes_consumes DecodeException.eof bs).bind
    (f := fun chars => pure (newString malformed chars)) (Consumes.pure _)
  rwa [List.append_nil] at hchars

/-- A number comes back. -/
theorem bits_codesBack (w n : Nat) (h : n = 8 * w) {f : BitVec n → Value}
    (hf : ∀ x y, f x = f y → x = y) (x : BitVec n) :
    CodesBack (.ok (bigEndian w x.toNat)) (f <$> readBits w n) (f x) True True :=
  ((readBits_consumes w n h x).readsBack.map fun y => hf y x).codesBack

/-- A number that is written as another one comes back if it is that one. -/
theorem otherBits_codesBack (w n : Nat) (h : n = 8 * w) {f : BitVec n → Value}
    (hf : ∀ x y, f x = f y → x = y) (x x' : BitVec n) :
    CodesBack (.ok (bigEndian w x'.toNat)) (f <$> readBits w n) (f x) True (x' = x) := by
  refine (Consumes.readsBack_eq ((readBits_consumes w n h x').map f)).codesBack.congr Iff.rfl ?_
  exact ⟨hf x' x, congrArg f⟩

/-- A boolean is written as 0 or 1, and any other byte is read as `true`. -/
theorem boolean_codesBack (b : Bool) :
    CodesBack (.ok [if b then 1 else 0])
      ((fun b => Value.boolean (b ≠ 0)) <$> readByte (CodecException.decode .eof))
      (.boolean b) True True := by
  have hread := (readByte_consumes (CodecException.decode .eof) (if b then 1 else 0)).map
    fun b => Value.boolean (b ≠ 0)
  refine (Consumes.readsBack_eq hread).codesBack.congr Iff.rfl (iff_of_true ?_ trivial)
  cases b <;> rfl

theorem string_codesBack (c : Channels) (s : String) :
    CodesBack ((EncoderChannel.encodeString s).mapError CodecException.string)
      (Value.string <$> lift (decodeString c.malformed)) (.string s) ((utf s).length ≤ 65535)
      (newString c.malformed (utf s) = s) := by
  constructor
  · intro hlength
    have hreads : Consumes (Value.string <$> lift (decodeString c.malformed))
        (packed32 (utf s).length ++ utf s) (.string (newString c.malformed (utf s))) :=
      (lift_consumes (decodeString_reads c.malformed (by omega))).map Value.string
    refine ⟨_, ?_, (Consumes.readsBack_eq hreads).congr ?_⟩
    · rw [encodeString_eq hlength]
      rfl
    · rw [Value.string.injEq]
  · intro hlength bs hbs
    rw [encodeString_long (not_le.mp hlength)] at hbs
    cases hbs

theorem decodeSampleRef_consumes (index : BitVec 32) :
    Consumes c.decodeSampleRef (bigEndian 4 index.toNat)
      (((c.getSampleClass index).map Value.sampleClass).getD .null) := by
  have hread := (readBits_consumes 4 32 rfl index).bind (f := fun index =>
    pure (((c.getSampleClass index).map Value.sampleClass).getD .null)) (Consumes.pure _)
  rwa [List.append_nil] at hread

theorem nullRef_codesBack :
    CodesBack (c.encodeSampleRef .null) c.decodeSampleRef .null True
      (c.getSampleClass 0 = none) := by
  -- the index 0
  refine (Consumes.readsBack_eq (decodeSampleRef_consumes c 0)).codesBack.congr Iff.rfl ?_
  cases c.getSampleClass 0 with
  | none => exact iff_of_true rfl rfl
  | some class_ => exact iff_of_false (fun h => by cases h) (fun h => by cases h)

theorem sampleRef_codesBack (class_ : Nat) :
    CodesBack (c.encodeSampleRef (.sampleClass class_)) c.decodeSampleRef (.sampleClass class_)
      (c.PrimEncodable .sample (.sampleClass class_))
      (c.PrimKept .sample (.sampleClass class_)) := by
  cases htag : c.getTag class_ with
  | none =>
      simp only [Channels.encodeSampleRef, Channels.PrimEncodable, htag]
      exact ⟨fun h => (by cases h), fun _ bs hbs => (by cases hbs)⟩
  | some index =>
      simp only [Channels.encodeSampleRef, Channels.PrimEncodable, Channels.PrimKept, htag]
      refine (Consumes.readsBack_eq (decodeSampleRef_consumes c index)).codesBack.congr
        (by simp) ?_
      simp only [Option.some.injEq, forall_eq']
      cases c.getSampleClass index with
      | none => exact iff_of_false (fun h => by cases h) (fun h => by cases h)
      | some class' =>
          show Value.sampleClass class' = _ ↔ _
          rw [Value.sampleClass.injEq, Option.some.injEq]

/-- A value of the Java type of a primitive type, and no null string. -/
def PrimShaped : Prim → Value → Prop
  | .boolean, .boolean _ => True
  | .byte, .byte _ => True
  | .short, .short _ => True
  | .int, .int _ => True
  | .long, .long _ => True
  | .float, .float _ => True
  | .double, .double _ => True
  | .string, .string _ => True
  | .sample, .null => True
  | .sample, .sampleClass _ => True
  | _, _ => False

/-- What is decoded of a primitive type. -/
theorem primShaped_of_returns {p : Prim} {v : Value} (hv : Returns (c.decodePrim p) v) :
    PrimShaped p v := by
  obtain ⟨s, q, h⟩ := hv
  cases p with
  | sample =>
      obtain ⟨index, r, _, hpure⟩ := run_bind_eq_ok.mp h
      have hvalue : ((c.getSampleClass index).map Value.sampleClass).getD .null = v :=
        congrArg Prod.fst (Except.ok.inj hpure)
      rw [← hvalue]
      -- an index that nothing is registered for is read as null
      cases c.getSampleClass index <;> trivial
  | boolean | byte | short | int | long | float | double | string =>
      obtain ⟨x, _, rfl⟩ := run_map_eq_ok.mp h
      trivial

/-- A value of a primitive type comes back if it is kept. -/
theorem encodePrim_codesBack {p : Prim} {v : Value} (hv : PrimShaped p v) :
    CodesBack (c.encodePrim p v) (c.decodePrim p) v (c.PrimEncodable p v) (c.PrimKept p v) := by
  cases p <;> cases v <;> try exact hv.elim
  case boolean b => exact boolean_codesBack b
  case byte x => exact bits_codesBack 1 8 rfl (fun x y => Value.byte.inj) x
  case short x => exact bits_codesBack 2 16 rfl (fun x y => Value.short.inj) x
  case int x => exact bits_codesBack 4 32 rfl (fun x y => Value.int.inj) x
  case long x => exact bits_codesBack 8 64 rfl (fun x y => Value.long.inj) x
  case float x => exact otherBits_codesBack 4 32 rfl (fun x y => Value.float.inj) x _
  case double x => exact otherBits_codesBack 8 64 rfl (fun x y => Value.double.inj) x _
  case string s => exact string_codesBack c s
  case null => exact nullRef_codesBack c
  case sampleClass class_ => exact sampleRef_codesBack c class_

/-! ## The limits of an array -/

/-- `R` holds of the elements of an array of arrays with the dimensions `ds`. -/
def Nested (R : Value → Prop) : List Int → Value → Prop
  | [], v => R v
  | n :: ds, v => ∃ items, v = .array items ∧ (items.length : Int) = n ∧ ∀ x ∈ items, Nested R ds x

theorem Nested.mono {R R' : Value → Prop} (hR : ∀ x, R x → R' x) {ds : List Int} {v : Value}
    (h : Nested R ds v) : Nested R' ds v := by
  induction ds generalizing v with
  | nil => exact hR v h
  | cons n ds ih =>
      obtain ⟨items, hv, hlength, hitems⟩ := h
      exact ⟨items, hv, hlength, fun x hx => ih (hitems x hx)⟩

theorem decodeRows_nested {p : Reading Value} {ds : List Int} {v : Value}
    (h : Returns (decodeRows p ds) v) : Nested (Returns p) ds v := by
  induction ds generalizing v with
  | nil => exact h
  | cons n ds ih =>
      obtain ⟨s, q, hrun⟩ := h
      unfold decodeRows at hrun
      by_cases hn : n < 0
      · rw [if_pos hn] at hrun
        cases hrun
      · rw [if_neg hn] at hrun
        obtain ⟨items, hitems, rfl⟩ := run_map_eq_ok.mp hrun
        refine ⟨items, rfl, ?_, times_forall (fun s a q ha => ih ⟨s, q, ha⟩) hitems⟩
        rw [times_length hitems]
        omega

/-- An array with a row has its dimensions in common with it. -/
theorem Nested.row {R : Value → Prop} {n : Int} {ds : List Int} {x : Value} {items : List Value}
    (h : Nested R (n :: ds) (.array (x :: items))) : Nested R ds x := by
  obtain ⟨items', heq, _, hitems⟩ := h
  cases heq
  exact hitems x List.mem_cons_self

theorem Nested.length_eq {R : Value → Prop} {n : Int} {ds : List Int} {items : List Value}
    (h : Nested R (n :: ds) (.array items)) : (items.length : Int) = n := by
  obtain ⟨items', heq, hlength, _⟩ := h
  cases heq
  exact hlength

/-- A limit that the decoder can read. -/
def Admits : Exp → Int → Prop
  | .integerLiteral value, n => n = value
  | .variableSize, n => n < 2 ^ 31

theorem decodeLimits_admits {dim : List Exp} {ds : List Int} {s q : List UInt8}
    (h : (decodeLimits dim).run s = .ok (ds, q)) : List.Forall₂ Admits dim ds := by
  induction dim generalizing s q ds with
  | nil =>
      have h' : (Except.ok ([], s) : Except CodecException _) = .ok (ds, q) := h
      cases h'
      exact List.Forall₂.nil
  | cons e dim ih =>
      cases e with
      | integerLiteral value =>
          unfold decodeLimits at h
          obtain ⟨ns, r, hns, hpure⟩ := run_bind_eq_ok.mp h
          cases hpure
          exact List.Forall₂.cons rfl (ih hns)
      | variableSize =>
          unfold decodeLimits at h
          obtain ⟨n, r, hn, hrest⟩ := run_bind_eq_ok.mp h
          obtain ⟨ns, r', hns, hpure⟩ := run_bind_eq_ok.mp hrest
          cases hpure
          refine List.Forall₂.cons ?_ (ih hns)
          exact decodePacked32From_lt (lift_run_eq_ok hn)

/-- Limits without a variable one are those of the type. -/
theorem Admits.unique {dim : List Exp} {ds ds' : List Int} (h : List.Forall₂ Admits dim ds)
    (h' : List.Forall₂ Admits dim ds') (hdim : isVariable dim = false) : ds = ds' := by
  induction h generalizing ds' with
  | nil =>
      cases h'
      rfl
  | @cons e n dim ds hn _ ih =>
      cases h' with
      | @cons _ n' _ ds' hn' hds' =>
          cases e with
          | integerLiteral value =>
              have hhead : n = n' := Eq.trans hn (Eq.symm hn')
              rw [hhead, ih hds' hdim]
          | variableSize => cases hdim

/-- An array that goes as deep as its variable dimensions shows the limits. -/
theorem Nested.unique {R R' : Value → Prop} {dim : List Exp} {ds ds' : List Int} {v : Value}
    (h : Nested R ds v) (h' : Nested R' ds' v) (hds : List.Forall₂ Admits dim ds)
    (hds' : List.Forall₂ Admits dim ds') (hreach : Reaches dim v) : ds = ds' := by
  induction hds generalizing ds' v with
  | nil =>
      cases hds'
      rfl
  | @cons e n dim ds hn hdim ih =>
      cases hds' with
      | @cons _ n' _ ds' hn' hdim' =>
          obtain ⟨items, rfl, hlength, _⟩ := id h
          have hhead : n = n' := Eq.trans (Eq.symm hlength) h'.length_eq
          cases items with
          | nil => rw [hhead, Admits.unique hdim hdim' hreach]
          | cons x items => rw [hhead, ih h.row h'.row hdim' hreach]

/-! ### Writing them -/

theorem packedLength {n : Nat} (h : n < 2 ^ 31) :
    EncoderChannel.encodePacked32 (toLong (.ofNat 32 n)) = .ok (packed32 n) := by
  have hlen : (BitVec.ofNat 32 n).toNat = n := by
    rw [BitVec.toNat_ofNat, Nat.mod_eq_of_lt (by omega)]
  have hpacked := encodePacked32_toLong (x := .ofNat 32 n) (by
    rw [BitVec.msb_eq_decide, hlen, decide_eq_false_iff_not]
    omega)
  rwa [hlen] at hpacked

theorem decodeLength_consumes {n : Nat} (h : n < 2 ^ 31) :
    Consumes (lift decodePacked32) (packed32 n) (n : Int) := by
  have hread := lift_consumes (decodePacked32_consumes (show n < 2 ^ 32 by omega))
  rwa [wrap32_natCast h] at hread

/-- The limits are read as they are written. -/
theorem decodeLimits_consumes {dim : List Exp} {ds : List Int}
    (h : List.Forall₂ Exp.Admits dim ds) : Consumes (decodeLimits dim) (wireDims dim ds) ds := by
  induction h with
  | nil => exact Consumes.pure []
  | @cons e n dim ds hn _ ih =>
      have hrest := ih.bind (f := fun ns => pure (n :: ns)) (Consumes.pure _)
      rw [List.append_nil] at hrest
      cases e with
      | integerLiteral value =>
          have hvalue : n = (value : Int) := hn
          unfold decodeLimits
          rw [← hvalue]
          exact hrest
      | variableSize =>
          obtain ⟨k, rfl⟩ := Int.eq_ofNat_of_zero_le hn.1
          have hk : k < 2 ^ 31 := by
            have hlt := hn.2
            omega
          rw [wireDims, toUnsigned_natCast (by omega)]
          exact (decodeLength_consumes hk).bind hrest

theorem element_append (v : Value) (is : List Nat) (i : Nat) :
    element v (is ++ [i]) = element v is >>= fun x => index x i := by
  induction is generalizing v with
  | nil =>
      show (index v i >>= fun x => pure x) = index v i
      exact bind_pure _
  | cons j is ih =>
      show (index v j >>= fun x => element x (is ++ [i])) =
        ((index v j >>= fun x => element x is) >>= fun x => index x i)
      rw [bind_assoc]
      congr 1
      funext x
      exact ih x

/-- `[0]` once more. -/
theorem element_succ (v : Value) (i : Nat) :
    element v (List.replicate (i + 1) 0) =
      element v (List.replicate i 0) >>= fun x => index x 0 := by
  rw [List.replicate_succ', element_append]

/-- Behind an empty array nothing has a length. -/
theorem emitLimits_dead {v : Value} {e : CodecException} {i : Nat} {dim : List Exp}
    (hv : element v (List.replicate i 0) = .error e) (hdim : isVariable dim = true)
    (r : List UInt8 × List Nat) : emitLimits v i dim ≠ .ok r := by
  induction dim generalizing i e r with
  | nil => cases hdim
  | cons d dim ih =>
      cases d with
      | integerLiteral value =>
          intro h
          unfold emitLimits at h
          obtain ⟨rest, hrest, _⟩ := except_bind_ok.mp h
          have hnext : element v (List.replicate (i + 1) 0) = .error e := by
            rw [element_succ, hv]
            rfl
          exact ih hnext hdim rest hrest
      | variableSize =>
          intro h
          unfold emitLimits at h
          rw [hv] at h
          cases h

/-- What the array shows of the limits is what the format allows. -/
theorem Nested.admits {R : Value → Prop} {dim : List Exp} {ds : List Int} {v : Value}
    (h : Nested R ds v) (hds : List.Forall₂ Admits dim ds) (hreach : Reaches dim v) :
    List.Forall₂ Exp.Admits dim ds := by
  have hfixed : ∀ {dim : List Exp} {ds : List Int}, List.Forall₂ Admits dim ds →
      isVariable dim = false → List.Forall₂ Exp.Admits dim ds := by
    intro dim ds hds hdim
    induction hds with
    | nil => exact List.Forall₂.nil
    | @cons e n dim ds hn _ ih =>
        cases e with
        | integerLiteral value => exact List.Forall₂.cons hn (ih hdim)
        | variableSize => cases hdim
  induction hds generalizing v with
  | nil => exact List.Forall₂.nil
  | @cons e n dim ds hn hdim ih =>
      obtain ⟨items, rfl, hlength, _⟩ := id h
      have hhead : e.Admits n := by
        cases e with
        | integerLiteral value => exact hn
        | variableSize => exact ⟨by omega, hn⟩
      cases items with
      | nil => exact List.Forall₂.cons hhead (hfixed hdim hreach)
      | cons x items => exact List.Forall₂.cons hhead (ih h.row hreach)

theorem wireDims_cons (e : Exp) (dim : List Exp) (n : Int) (ds : List Int) :
    wireDims (e :: dim) (n :: ds) = wireDims [e] [n] ++ wireDims dim ds := by
  cases e with
  | integerLiteral value => rfl
  | variableSize =>
      show packed32 (toUnsigned n) ++ wireDims dim ds = packed32 (toUnsigned n) ++ [] ++ _
      rw [List.append_nil]

/-- The first limit. -/
theorem emitLimits_cons {v : Value} {items : List Value} {i : Nat} {e : Exp} {n : Int}
    (hv : element v (List.replicate i 0) = .ok (.array items)) (hlength : (items.length : Int) = n)
    (hn : Admits e n) (dim : List Exp) :
    emitLimits v i (e :: dim) = (do
      let rest ← emitLimits v (i + 1) dim
      pure (wireDims [e] [n] ++ rest.1, n.toNat :: rest.2)) := by
  cases e with
  | integerLiteral value =>
      cases hn
      rw [emitLimits]
      rfl
  | variableSize =>
      subst hlength
      have hlt : items.length < 2 ^ 31 := by
        have hn' : (items.length : Int) < 2 ^ 31 := hn
        omega
      have hbytes : wireDims [.variableSize] [(items.length : Int)] = packed32 items.length := by
        show packed32 (toUnsigned _) ++ [] = _
        rw [toUnsigned_natCast (by omega), List.append_nil]
      have hlen : length (.array items) = .ok items.length := rfl
      rw [emitLimits, hv, hbytes]
      show (length (.array items) >>= fun n => _) = _
      rw [hlen]
      show (Except.mapError CodecException.packed (EncoderChannel.encodePacked32 _) >>= _) = _
      rw [packedLength hlt]
      rfl

/-- Limits without a variable one are not written. -/
theorem emitLimits_fixed {dim : List Exp} {ds : List Int} (hds : List.Forall₂ Exp.Admits dim ds)
    (hdim : isVariable dim = false) (v : Value) (i : Nat) :
    emitLimits v i dim = .ok (wireDims dim ds, ds.map Int.toNat) := by
  induction hds generalizing i with
  | nil => rfl
  | @cons e n dim ds hn _ ih =>
      cases e with
      | integerLiteral value =>
          cases hn
          rw [emitLimits, ih hdim (i + 1)]
          rfl
      | variableSize => cases hdim

/-- The encoder finds the limits that the decoder read. -/
theorem emitLimits_reaches {R : Value → Prop} {v x : Value} {i : Nat} {dim : List Exp}
    {ds : List Int} (hv : element v (List.replicate i 0) = .ok x) (hx : Nested R ds x)
    (hds : List.Forall₂ Exp.Admits dim ds) (hreach : Reaches dim x) :
    emitLimits v i dim = .ok (wireDims dim ds, ds.map Int.toNat) := by
  induction hds generalizing i x with
  | nil => rfl
  | @cons e n dim ds hn hdim ih =>
      obtain ⟨items, rfl, hlength, _⟩ := id hx
      have hadmits : Admits e n := by
        cases e with
        | integerLiteral value => exact hn
        | variableSize => exact hn.2
      rw [emitLimits_cons hv hlength hadmits, wireDims_cons e dim]
      cases items with
      | nil =>
          rw [emitLimits_fixed hdim hreach]
          rfl
      | cons y items =>
          -- the next `[0]` is the first row
          have hnext : element v (List.replicate (i + 1) 0) = .ok y := by
            rw [element_succ, hv]
            rfl
          rw [ih hnext hx.row hreach]
          rfl

theorem emitLimits_not_reaches {R : Value → Prop} {v x : Value} {i : Nat} {dim : List Exp}
    {ds : List Int} (hv : element v (List.replicate i 0) = .ok x) (hx : Nested R ds x)
    (hds : List.Forall₂ Admits dim ds) (hreach : ¬ Reaches dim x) (r : List UInt8 × List Nat) :
    emitLimits v i dim ≠ .ok r := by
  induction hds generalizing i x r with
  | nil => exact absurd trivial hreach
  | @cons e n dim ds hn hdim ih =>
      obtain ⟨items, rfl, hlength, _⟩ := id hx
      rw [emitLimits_cons hv hlength hn]
      intro h
      obtain ⟨rest, hrest, _⟩ := except_bind_ok.mp h
      cases items with
      | nil =>
          have hnext : element v (List.replicate (i + 1) 0) =
              .error .ArrayIndexOutOfBoundsException := by
            rw [element_succ, hv]
            rfl
          exact emitLimits_dead hnext (by simpa [Reaches] using hreach) rest hrest
      | cons y items =>
          have hnext : element v (List.replicate (i + 1) 0) = .ok y := by
            rw [element_succ, hv]
            rfl
          exact ih hnext hx.row hreach rest hrest

/-! ## Arrays in row-major order -/

/-- The array of arrays with the dimensions `ns` that has the elements `a`. -/
abbrev rows (ns : List Nat) (a : List Value) : Value := rowsOf .array .null ns a

theorem rows_nested {R : Value → Prop} {ds : List Int} {a : List Value} (hds : ∀ n ∈ ds, 0 ≤ n)
    (hlen : a.length = (ds.map Int.toNat).prod) (h : ∀ x ∈ a, R x) :
    Nested R ds (rows (ds.map Int.toNat) a) := by
  have hcast : (ds.map Int.toNat).map Int.ofNat = ds := by
    rw [List.map_map]
    refine (List.map_congr_left fun n hn => ?_).trans (List.map_id ds)
    exact Int.toNat_of_nonneg (hds n hn)
  have hrows : Nested R ((ds.map Int.toNat).map Int.ofNat) (rows (ds.map Int.toNat) a) := by
    refine rowsOf_induction (P := fun ns v => Nested R (ns.map Int.ofNat) v) (fun x hx => hx) ?_
      hlen h
    intro n ns items hitems hall
    exact ⟨items, rfl, congrArg Int.ofNat hitems, hall⟩
  rwa [hcast] at hrows

theorem elements_rows {ns : List Nat} {a : List Value} (hlen : a.length = ns.prod) :
    elements ns.length (rows ns a) = a := by
  have hleaves : ∀ n v, elements n v = leaves Value.items n v := by
    intro n
    induction n with
    | zero => exact fun v => rfl
    | succ n ih =>
        intro v
        have hfun : elements n = leaves Value.items n := funext ih
        cases v <;> first | rfl | exact congrArg (List.flatMap · _) hfun
  rw [hleaves]
  exact leaves_rowsOf (fun _ => rfl) hlen

theorem decodeRows_eq (p : Reading Value) {ds : List Int} (hds : ∀ n ∈ ds, 0 ≤ n) :
    decodeRows p ds = timesRows .array p (ds.map Int.toNat) := by
  induction ds with
  | nil => rfl
  | cons n ds ih =>
      have hn := hds n List.mem_cons_self
      rw [decodeRows, if_neg (by omega), ih fun m hm => hds m (List.mem_cons_of_mem _ hm)]
      rfl

/-- What is read one after the other is put into rows. -/
theorem decodeRows_consumes {α : Type} {p : Reading Value} {g : α → List UInt8} {f : α → Value}
    {ds : List Int} {a : List α} (hds : ∀ n ∈ ds, 0 ≤ n)
    (hlen : a.length = (ds.map Int.toNat).prod) (h : ∀ x ∈ a, Consumes p (g x) (f x)) :
    Consumes (decodeRows p ds) (a.flatMap g) (rows (ds.map Int.toNat) (a.map f)) := by
  rw [decodeRows_eq p hds]
  exact Consumes.rows hlen h

/-! ## The loops -/

/-- The loops of the encoder, over the rows. -/
def emitRows (encode : Value → Written) : List Int → Value → Written
  | [], v => encode v
  | _ :: ds, .array items => writeEach (emitRows encode ds) items
  | _ :: _, _ => throw .typeError

/-- The nest of loops over indices is one over the rows. -/
theorem nest_emitRows {R : Value → Prop} (encode : Value → Written) {ds : List Int} {v : Value}
    (h : Nested R ds v) (out : List UInt8) :
    nest (ds.map Int.toNat) (fun is out => do
        let x ← element v is
        let more ← encode x
        pure (out ++ more)) out =
      (do let more ← emitRows encode ds v; pure (out ++ more)) := by
  induction ds generalizing v out with
  | nil => rfl
  | cons n ds ih =>
      obtain ⟨items, rfl, hlength, hitems⟩ := h
      have hn : n.toNat = items.length := by omega
      rw [List.map_cons, nest, hn]
      -- the loop variable is the number of a row
      have hrow : ∀ i ∈ List.range items.length, ∀ out : List UInt8,
          nest (ds.map Int.toNat) (fun is out => do
            let x ← element (.array items) (i :: is)
            let more ← encode x
            pure (out ++ more)) out =
          (do let more ← emitRows encode ds (items.getD i .null); pure (out ++ more)) := by
        intro i hi out
        have hlt : i < items.length := List.mem_range.mp hi
        have hget : items[i]? = some (items.getD i .null) := by
          rw [List.getD_eq_getElem?_getD, List.getElem?_eq_getElem hlt, Option.getD_some]
        have helement : ∀ is, element (.array items) (i :: is) =
            element (items.getD i .null) is := by
          intro is
          show (index (.array items) i >>= _) = _
          rw [index, hget]
          rfl
        simp only [helement]
        refine ih (hitems _ ?_) out
        exact List.mem_of_getElem? hget
      rw [foldlM_congr_mem _ hrow]
      calc (List.range items.length).foldlM (fun out i => do
              let more ← emitRows encode ds (items.getD i .null)
              pure (out ++ more)) out
          = ((List.range items.length).map fun i => items.getD i .null).foldlM (fun out x => do
              let more ← emitRows encode ds x
              pure (out ++ more)) out := by rw [List.foldlM_map]
        _ = items.foldlM (fun out x => do
              let more ← emitRows encode ds x
              pure (out ++ more)) out := by rw [map_getD_range]
        _ = _ := foldlM_writeEach _ _ _

/-- The loops write the elements in order. -/
theorem emitRows_eq {R : Value → Prop} (encode : Value → Written) {ds : List Int} {v : Value}
    (h : Nested R ds v) : emitRows encode ds v = writeEach encode (elements ds.length v) := by
  induction ds generalizing v with
  | nil => exact (writeEach_singleton encode v).symm
  | cons n ds ih =>
      obtain ⟨items, rfl, _, hitems⟩ := h
      rw [emitRows, List.length_cons, elements, writeEach_flatMap]
      exact writeEach_congr fun x hx => ih (hitems x hx)

theorem emitRows_codesBack {p : Reading Value} {encode : Value → Written} {R F Q : Value → Prop}
    (h : ∀ e, R e → CodesBack (encode e) p e (F e) (Q e)) {ds : List Int} {v : Value}
    (hv : Nested R ds v) :
    CodesBack (emitRows encode ds v) (decodeRows p ds) v (∀ e ∈ elements ds.length v, F e)
      (∀ e ∈ elements ds.length v, Q e) := by
  induction ds generalizing v with
  | nil => exact (h v hv).congr (by simp [elements]) (by simp [elements])
  | cons n ds ih =>
      obtain ⟨items, rfl, hlength, hitems⟩ := hv
      have hn : n.toNat = items.length := by omega
      have hnn : ¬ n < 0 := by omega
      rw [decodeRows, if_neg hnn, hn]
      refine ((CodesBack.writeEach fun x hx => ih (hitems x hx)).map ?_).congr ?_ ?_
      · exact fun a' => Value.array.inj
      · simp only [List.length_cons, elements, List.mem_flatMap]
        exact ⟨fun hx e he => hx _ he.choose_spec.1 e he.choose_spec.2,
          fun he x hx e hex => he e ⟨x, hx, hex⟩⟩
      · simp only [List.length_cons, elements, List.mem_flatMap]
        exact ⟨fun hx e he => hx _ he.choose_spec.1 e he.choose_spec.2,
          fun he x hx e hex => he e ⟨x, hx, hex⟩⟩

/-! ## Shapes -/

mutual

/-- What the decoder can build: objects with all fields, and arrays whose rows have one length in
each dimension, the one of the type if that is fixed. -/
def Shaped : DataType → Value → Prop
  | .void, v => v = .null
  | .prim p, v => PrimShaped p v
  | .user _ type, v => Shaped type v
  | .struct fields, v => ∃ vs, v = .object vs ∧ FieldsShaped fields vs
  | .array elem dim, v => ∃ ds, List.Forall₂ Admits dim ds ∧ Nested (Shaped elem) ds v

/-- The same of the fields. -/
def FieldsShaped : Fields → List Value → Prop
  | .nil, vs => vs = []
  | .cons _ _ type rest, vs => ∃ v ws, vs = v :: ws ∧ Shaped type v ∧ FieldsShaped rest ws

end

mutual

theorem shaped_of_returns (t : DataType) {v : Value} (hv : Returns (emitDecoder c t) v) :
    Shaped t v := by
  obtain ⟨s, q, h⟩ := hv
  cases t with
  | void =>
      have hvalue : Value.null = v := congrArg Prod.fst (Except.ok.inj h)
      exact hvalue.symm
  | prim p => exact primShaped_of_returns c ⟨s, q, h⟩
  | user name type => exact shaped_of_returns type ⟨s, q, h⟩
  | struct fields =>
      unfold emitDecoder at h
      obtain ⟨vs, hvs, rfl⟩ := run_map_eq_ok.mp h
      exact ⟨vs, rfl, fieldsShaped_of_returns fields ⟨s, q, hvs⟩⟩
  | array elem dim =>
      unfold emitDecoder at h
      obtain ⟨ds, r, hds, hrows⟩ := run_bind_eq_ok.mp h
      have hnested := decodeRows_nested ⟨r, q, hrows⟩
      exact ⟨ds, decodeLimits_admits hds, hnested.mono fun x hx => shaped_of_returns elem hx⟩

theorem fieldsShaped_of_returns (fields : Fields) {vs : List Value}
    (hvs : Returns (emitDecoderFields c fields) vs) : FieldsShaped fields vs := by
  obtain ⟨s, q, h⟩ := hvs
  cases fields with
  | nil =>
      have hvalue : [] = vs := congrArg Prod.fst (Except.ok.inj h)
      exact hvalue.symm
  | cons name intentions type rest =>
      unfold emitDecoderFields at h
      obtain ⟨v, r, hv, hrest⟩ := run_bind_eq_ok.mp h
      obtain ⟨ws, r', hws, hpure⟩ := run_bind_eq_ok.mp hrest
      have hvalue : v :: ws = vs := congrArg Prod.fst (Except.ok.inj hpure)
      exact ⟨v, ws, hvalue.symm, shaped_of_returns type ⟨s, r, hv⟩,
        fieldsShaped_of_returns rest ⟨r, r', hws⟩⟩

end

/-- An array whose elements come back. -/
theorem emitArray_codesBack {elem : DataType} {dim : List Exp} {v : Value}
    (helem : ∀ e, Shaped elem e →
      CodesBack (emitEncoder c elem e) (emitDecoder c elem) e (Encodable c elem e) (Kept c elem e))
    (hv : Shaped (.array elem dim) v) :
    CodesBack (emitEncoder c (.array elem dim) v) (emitDecoder c (.array elem dim)) v
      (Encodable c (.array elem dim) v) (Kept c (.array elem dim) v) := by
  obtain ⟨ds, hadmits, hnested⟩ := hv
  have hrowsBack := emitRows_codesBack helem hnested
  rw [← hadmits.length_eq] at hrowsBack
  unfold emitEncoder emitDecoder Encodable Kept
  by_cases hreach : Reaches dim v
  · have hformat := hnested.admits hadmits hreach
    have hbody : (emitLimits v 0 dim >>= fun limits => nest limits.2 (fun is out => do
        let x ← element v is
        let more ← emitEncoder c elem x
        pure (out ++ more)) limits.1) =
        (do
          let bs ← Except.ok (wireDims dim ds)
          let cs ← emitRows (emitEncoder c elem) ds v
          pure (bs ++ cs)) := by
      rw [emitLimits_reaches (v := v) (i := 0) rfl hnested hformat hreach]
      exact nest_emitRows (emitEncoder c elem) hnested (wireDims dim ds)
    rw [hbody]
    refine ((decodeLimits_consumes hformat).readsBack.codesBack.bind hrowsBack ?_).congr
      (by simp [hreach]) (by simp)
    intro _ ds' s' r' q' hds' hrows'
    exact ((hnested.unique (decodeRows_nested ⟨r', q', hrows'⟩) hadmits
      (decodeLimits_admits hds') hreach)).symm
  · refine ⟨fun hE => absurd hE.1 hreach, fun _ bs hbs => ?_⟩
    obtain ⟨limits, hlimits, _⟩ := except_bind_ok.mp hbs
    exact emitLimits_not_reaches (v := v) (i := 0) rfl hnested hadmits hreach limits hlimits

/-! ## The round trip -/

mutual

theorem emitEncoder_codesBack (t : DataType) {v : Value} (hv : Shaped t v) :
    CodesBack (emitEncoder c t v) (emitDecoder c t) v (Encodable c t v) (Kept c t v) := by
  cases t with
  | void =>
      obtain rfl : v = .null := hv
      exact (ReadsBack.pure Value.null).codesBack
  | prim p =>
      unfold emitDecoder
      exact encodePrim_codesBack c hv
  | user name type =>
      unfold emitDecoder
      exact emitEncoder_codesBack type hv
  | struct fields =>
      obtain ⟨vs, rfl, hvs⟩ := hv
      unfold emitDecoder
      exact (emitEncoderFields_codesBack fields hvs).map fun vs' => Value.object.inj
  | array elem dim => exact emitArray_codesBack c (fun e he => emitEncoder_codesBack elem he) hv

theorem emitEncoderFields_codesBack (fields : Fields) {vs : List Value}
    (hvs : FieldsShaped fields vs) :
    CodesBack (emitEncoderFields c fields vs) (emitDecoderFields c fields) vs
      (FieldsEncodable c fields vs) (FieldsKept c fields vs) := by
  cases fields with
  | nil =>
      obtain rfl : vs = [] := hvs
      exact (ReadsBack.pure []).codesBack
  | cons name intentions type rest =>
      obtain ⟨v, ws, rfl, hv, hws⟩ := hvs
      have hback := (emitEncoderFields_codesBack rest hws).map
        (f := fun vs => v :: vs) (by simp)
      rw [map_eq_pure_bind] at hback
      unfold emitDecoderFields
      refine (emitEncoder_codesBack type hv).bind hback ?_
      intro _ v' s' r₁ q₁ _ hrun
      obtain ⟨vs₂, r₂, _, hpure₂⟩ := run_bind_eq_ok.mp hrun
      have hvalue : v' :: vs₂ = v :: ws := congrArg Prod.fst (Except.ok.inj hpure₂)
      exact (List.cons.inj hvalue).1

end

/-- **What the generated decoder returns is encoded and decoded to the same value again** if and
only if no variable dimension is behind an empty one, no string has more bytes than fit, every
class is registered under an index that is known on the other side, there is no NaN but the one that
is written, and the strings are UTF-8. -/
theorem reencodes_iff (t : DataType) {v : Value} (hv : Returns (emitDecoder c t) v) :
    (∃ bs, emitEncoder c t v = .ok bs ∧ Consumes (emitDecoder c t) bs v) ↔
      Encodable c t v ∧ Kept c t v :=
  (emitEncoder_codesBack c t (shaped_of_returns c t hv)).iff

/-- Channels on which no class is registered. -/
def noClasses : Channels := ⟨fun _ => none, fun _ => none, fun _ => ""⟩

/-- The rows of a `short a[_, _]` are decoded. -/
theorem shortRows_consumes (ds : List Int) (a : List (BitVec 16))
    (hadmits : List.Forall₂ Exp.Admits [.variableSize, .variableSize] ds) (hds : ∀ n ∈ ds, 0 ≤ n)
    (hlen : a.length = (ds.map Int.toNat).prod) :
    Consumes (emitDecoder noClasses (.array (.prim .short) [.variableSize, .variableSize]))
      (wireDims [.variableSize, .variableSize] ds ++ a.flatMap fun x => bigEndian 2 x.toNat)
      (rows (ds.map Int.toNat) (a.map .short)) :=
  (decodeLimits_consumes hadmits).bind (decodeRows_consumes hds hlen fun x _ =>
    (readBits_consumes 2 16 rfl x).map Value.short)

/-- `short a[_, _]`: one row comes back, and no rows do not. -/
theorem reencodes_rows :
    (∃ bs, emitEncoder noClasses (.array (.prim .short) [.variableSize, .variableSize])
        (.array [.array [.short 7, .short (-1)]]) = .ok bs ∧
      Consumes (emitDecoder noClasses (.array (.prim .short) [.variableSize, .variableSize])) bs
        (.array [.array [.short 7, .short (-1)]])) ∧
    ¬ ∃ bs, emitEncoder noClasses (.array (.prim .short) [.variableSize, .variableSize])
        (.array []) = .ok bs ∧
      Consumes (emitDecoder noClasses (.array (.prim .short) [.variableSize, .variableSize])) bs
        (.array []) := by
  have hreturns : ∀ (ds : List Int) (a : List (BitVec 16)) (v : Value),
      List.Forall₂ Exp.Admits [.variableSize, .variableSize] ds → (∀ n ∈ ds, 0 ≤ n) →
      a.length = (ds.map Int.toNat).prod → rows (ds.map Int.toNat) (a.map .short) = v →
      Returns (emitDecoder noClasses (.array (.prim .short) [.variableSize, .variableSize])) v := by
    intro ds a v hadmits hds hlen hv
    have hread := shortRows_consumes ds a hadmits hds hlen
    rw [hv] at hread
    exact ⟨_, _, hread []⟩
  constructor
  · refine (reencodes_iff noClasses _ (hreturns [1, 2] [7, -1] _ ?_ (by decide) rfl rfl)).mpr
      ⟨⟨trivial, ?_⟩, ?_⟩
    · exact .cons ⟨by decide, by decide⟩ (.cons ⟨by decide, by decide⟩ .nil)
    all_goals
      intro e he
      have hmem : e ∈ [Value.short 7, .short (-1)] := he
      simp only [List.mem_cons, List.not_mem_nil, or_false] at hmem
      rcases hmem with rfl | rfl <;> trivial
  · intro h
    have hback := (reencodes_iff noClasses _ (hreturns [0, 2] [] _ ?_ (by decide) rfl rfl)).mp h
    · have hfixed : isVariable [.variableSize] = false := hback.1.1
      cases hfixed
    · -- the dimensions 0 and 2
      exact .cons ⟨by decide, by decide⟩ (.cons ⟨by decide, by decide⟩ .nil)

/-- **The generated classes**: what the decoder returns is encoded if and only if no variable
dimension is behind an empty one, no string has more bytes than fit and every class is registered;
and what is encoded is decoded to the same value if and only if it has the shape that the decoder
builds and its strings, references and NaNs are kept. -/
theorem codec_roundTrips_iff {name : Name} {t : DataType} {encode : Value → Written}
    {decode : Reading Value} (hencode : encoder c name t = some encode)
    (hdecode : decoder c name t = some decode) (v : Value) :
    (Returns decode v → ((∃ bs, encode v = .ok bs) ↔ Encodable c t v)) ∧
      ∀ bs, encode v = .ok bs → (Consumes decode bs v ↔ Shaped t v ∧ Kept c t v) := by
  obtain rfl := encoder_eq c hencode
  obtain rfl := decoder_eq c hdecode
  constructor
  · intro hv
    exact (emitEncoder_codesBack c t (shaped_of_returns c t hv)).written_iff
  · intro bs hbs
    have hback := fun hv : Shaped t v => (emitEncoder_codesBack c t hv).consumes_iff hbs
    constructor
    · intro hread
      have hv := shaped_of_returns c t ⟨bs ++ [], [], hread []⟩
      exact ⟨hv, (hback hv).mp hread⟩
    · rintro ⟨hv, hkept⟩
      exact (hback hv).mpr hkept

/-- `short a[_, _]`: two rows are encoded and come back. -/
theorem codec_roundTrips_rows : ∃ encode decode bs,
    encoder noClasses [97] (.array (.prim .short) [.variableSize, .variableSize]) = some encode ∧
    decoder noClasses [97] (.array (.prim .short) [.variableSize, .variableSize]) = some decode ∧
    encode (.array [.array [.short 7], .array [.short (-1)]]) = .ok bs ∧
    Consumes decode bs (.array [.array [.short 7], .array [.short (-1)]]) := by
  have hcode : Classes.HasCode .java (.array (.prim .short) [.variableSize, .variableSize]) :=
    .inr ⟨List.all_eq_true.mp rfl, rfl, trivial⟩
  have hencode := encoder_of_hasCode noClasses [97] hcode
  have hdecode := decoder_of_hasCode noClasses [97] hcode
  have hkept : ∀ e ∈ [Value.short 7, .short (-1)], Kept noClasses (.prim .short) e := by
    intro e he
    simp only [List.mem_cons, List.not_mem_nil, or_false] at he
    rcases he with rfl | rfl <;> trivial
  refine ⟨_, _, _, hencode, hdecode, rfl, ?_⟩
  refine ((codec_roundTrips_iff noClasses hencode hdecode _).2 _ rfl).mpr ⟨?_, hkept⟩
  have hlimits : List.Forall₂ Admits [.variableSize, .variableSize] [2, 1] :=
    .cons (show (2 : Int) < 2 ^ 31 by decide) (.cons (show (1 : Int) < 2 ^ 31 by decide) .nil)
  have hshaped : ∀ x : BitVec 16, Nested (Shaped (.prim .short)) [1] (.array [.short x]) := by
    intro x
    refine ⟨_, rfl, rfl, ?_⟩
    intro e he
    rw [List.mem_singleton.mp he]
    trivial
  refine ⟨[2, 1], hlimits, _, rfl, rfl, ?_⟩
  intro row hrow
  simp only [List.mem_cons, List.not_mem_nil, or_false] at hrow
  rcases hrow with rfl | rfl
  · exact hshaped 7
  · exact hshaped (-1)

/-- `short a[_, _]`: the bytes `00 02` are decoded, and what is decoded is not encoded; rows of
different lengths are encoded, and do not come back. -/
theorem not_codec_roundTrips : ∃ encode decode,
    encoder noClasses [97] (.array (.prim .short) [.variableSize, .variableSize]) = some encode ∧
    decoder noClasses [97] (.array (.prim .short) [.variableSize, .variableSize]) = some decode ∧
    (decode.run [0, 2] = .ok (.array [], []) ∧ ∀ bs, encode (.array []) ≠ .ok bs) ∧
    ∃ bs, encode (.array [.array [.short 1], .array [.short 2, .short 3]]) = .ok bs ∧
      ¬ Consumes decode bs (.array [.array [.short 1], .array [.short 2, .short 3]]) := by
  have hcode : Classes.HasCode .java (.array (.prim .short) [.variableSize, .variableSize]) :=
    .inr ⟨List.all_eq_true.mp rfl, rfl, trivial⟩
  refine ⟨_, _, encoder_of_hasCode noClasses [97] hcode, decoder_of_hasCode noClasses [97] hcode,
    ⟨?_, ?_⟩, _, rfl, ?_⟩
  · exact shortRows_consumes [0, 2] []
      (.cons ⟨by decide, by decide⟩ (.cons ⟨by decide, by decide⟩ .nil)) (by decide) rfl []
  · -- `a[0].length` is looked for in no rows
    intro bs h
    cases h
  · -- the second row is written up to the length of the first
    intro hback
    have hother := shortRows_consumes [2, 1] [1, 2]
      (.cons ⟨by decide, by decide⟩ (.cons ⟨by decide, by decide⟩ .nil)) (by decide) rfl []
    cases (hback []).symm.trans hother

end LabComm.Java.Generated
