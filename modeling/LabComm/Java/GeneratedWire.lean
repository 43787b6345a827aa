import LabComm.C.RoundTrip
import LabComm.Java.Generated

set_option autoImplicit false

/-! # Generated Java code and the wire format

What the generated C encoder writes, the generated Java decoder reads, if there is code for the type
in Java (`emitDecoder_reads_c`).
In the other direction, the Java value that corresponds to a C value is written as the bytes that
the C encoder writes (`emitEncoder_eq`), if the Java encoder has what it needs.
-/

namespace LabComm.Java.Generated

open Library

variable (c : Channels) (refs : RefTables)

/-! ## What is received -/

/-- What becomes of a primitive value. A `boolean` may have any byte, and so may a string. -/
def Channels.receivedPrim : Prim → LabComm.Value → Value
  | .boolean, .bits n => .boolean (n ≠ 0)
  | .byte, .bits n => .byte (.ofNat 8 n)
  | .short, .bits n => .short (.ofNat 16 n)
  | .int, .bits n => .int (.ofNat 32 n)
  | .long, .bits n => .long (.ofNat 64 n)
  | .float, .bits n => .float (.ofNat 32 n)
  | .double, .bits n => .double (.ofNat 64 n)
  | .string, .string s => .string (newString c.malformed s)
  | .sample, .ref s =>
      let index : BitVec 32 := .ofNat 32 (toUnsigned (refs.toIndex s))
      ((c.getSampleClass index).map Value.sampleClass).getD .null
  | _, _ => .null

mutual

/-- What becomes of a C value. -/
def received : DataType → LabComm.Value → Value
  | .prim p, v => c.receivedPrim refs p v
  | .user _ type, v => received type v
  | .struct fields, .struct vs => .object (receivedFields fields vs)
  | .array elem _, .array n a => rows (n.map Int.toNat) (a.map (received elem))
  | _, _ => .null

/-- The same of the values of the fields. -/
def receivedFields : Fields → List LabComm.Value → List Value
  | .cons _ _ type rest, v :: vs => received type v :: receivedFields rest vs
  | _, _ => []

end

/-! ## Reading -/

variable {c refs}

/-- The bytes of a number, read as a number of `n` bits. -/
theorem readBits_wire (w n : Nat) (h : n = 8 * w) {k : Nat} (hk : k < 256 ^ w)
    (f : BitVec n → Value) : Consumes (f <$> readBits w n) (bigEndian w k) (f (.ofNat n k)) := by
  have hlt : k < 2 ^ n :=
    calc k < 256 ^ w := hk
      _ = 2 ^ (8 * w) := (pow_mul 2 8 w).symm
      _ = 2 ^ n := congrArg (2 ^ ·) h.symm
  have hread := (readBits_consumes w n h (.ofNat n k)).map f
  rwa [BitVec.toNat_ofNat, Nat.mod_eq_of_lt hlt] at hread

theorem decodeBoolean_wire {k : Nat} (hk : k < 256) :
    Consumes (c.decodePrim .boolean) (bigEndian 1 k) (.boolean (k ≠ 0)) := by
  have hread := (readByte_consumes (CodecException.decode .eof) (UInt8.ofNat k)).map
    fun b => Value.boolean (b ≠ 0)
  have hbyte : UInt8.ofNat k ≠ 0 ↔ k ≠ 0 := by
    rw [ne_eq, ← UInt8.toNat_inj, UInt8.toNat_ofNat', Nat.mod_eq_of_lt hk]
    rfl
  have hbytes : bigEndian 1 k = [UInt8.ofNat k] := by
    rw [bigEndian_concat]
    rfl
  have hvalue : decide (UInt8.ofNat k ≠ 0) = decide (k ≠ 0) := decide_eq_decide.mpr hbyte
  rw [hbytes, ← hvalue]
  exact hread

theorem decodePrim_wire {R : Option Nat → Prop} {p : Prim} {v : LabComm.Value}
    (hv : WellTyped R (.prim p) v) (hs : C.StringsBelow (2 ^ 31) (.prim p) v) :
    Consumes (c.decodePrim p) (wire refs (.prim p) v) (c.receivedPrim refs p v) := by
  cases p with
  | string =>
      obtain ⟨s, rfl, _⟩ := hv
      exact (lift_consumes (decodeString_reads c.malformed hs)).map Value.string
  | sample =>
      obtain ⟨s, rfl, _⟩ := hv
      have hread := decodeSampleRef_consumes c (.ofNat 32 (toUnsigned (refs.toIndex s)))
      rwa [BitVec.toNat_ofNat, Nat.mod_eq_of_lt (toUnsigned_lt _)] at hread
  | boolean =>
      obtain ⟨n, rfl, hn⟩ := hv
      exact decodeBoolean_wire hn
  | byte =>
      obtain ⟨n, rfl, hn⟩ := hv
      exact readBits_wire 1 8 rfl hn _
  | short =>
      obtain ⟨n, rfl, hn⟩ := hv
      exact readBits_wire 2 16 rfl hn _
  | int =>
      obtain ⟨n, rfl, hn⟩ := hv
      exact readBits_wire 4 32 rfl hn _
  | long =>
      obtain ⟨n, rfl, hn⟩ := hv
      exact readBits_wire 8 64 rfl hn _
  | float =>
      obtain ⟨n, rfl, hn⟩ := hv
      exact readBits_wire 4 32 rfl hn _
  | double =>
      obtain ⟨n, rfl, hn⟩ := hv
      exact readBits_wire 8 64 rfl hn _

/-- As many elements as the dimensions say. -/
theorem length_eq_prod {dim : List Exp} {n : List Int} {a : List LabComm.Value}
    (hdim : List.Forall₂ Exp.Admits dim n) (hlen : (a.length : Int) = n.prod) :
    a.length = (n.map Int.toNat).prod := by
  have hprod := C.prod_toNat (C.admits_nonneg hdim)
  omega

variable {R : Option Nat → Prop}

mutual

/-- The generated Java decoder reads the wire format. -/
theorem emitDecoder_consumes (t : DataType) {v : LabComm.Value} (hv : WellTyped R t v)
    (hs : C.StringsBelow (2 ^ 31) t v) :
    Consumes (emitDecoder c t) (wire refs t v) (received c refs t v) := by
  cases t with
  | void =>
      cases hv
      exact Consumes.pure Value.null
  | prim p =>
      unfold emitDecoder
      exact decodePrim_wire hv hs
  | user name type =>
      unfold emitDecoder
      exact emitDecoder_consumes type hv hs
  | struct fields =>
      obtain ⟨vs, rfl, hvs⟩ := hv
      unfold emitDecoder
      exact (emitDecoderFields_consumes fields hvs hs).map Value.object
  | array elem dim =>
      obtain ⟨n, a, rfl, hdim, hlen, _, hall⟩ := hv
      unfold emitDecoder
      -- the elements are in the order in which the loops store them
      exact (decodeLimits_consumes hdim).bind
        (decodeRows_consumes (C.admits_nonneg hdim) (length_eq_prod hdim hlen)
          fun x hx => emitDecoder_consumes elem (hall x hx) (hs x hx))

theorem emitDecoderFields_consumes (fields : Fields) {vs : List LabComm.Value}
    (hvs : FieldsTyped R fields vs) (hs : C.StringsBelowFields (2 ^ 31) fields vs) :
    Consumes (emitDecoderFields c fields) (wireFields refs fields vs)
      (receivedFields c refs fields vs) := by
  cases fields with
  | nil =>
      cases hvs
      exact Consumes.pure []
  | cons name intentions type rest =>
      obtain ⟨v, ws, rfl, hv, hws⟩ := hvs
      unfold emitDecoderFields
      have htail := (emitDecoderFields_consumes rest hws hs.2).bind
        (f := fun vs => pure (received c refs type v :: vs)) (Consumes.pure _)
      rw [List.append_nil] at htail
      exact (emitDecoder_consumes type hv hs.1).bind htail

end

/-- **The generated Java decoder reads what the generated C encoder writes**, and takes up all of
it: every number with its bits, every reference as the class that has the index, every string as the
text of its bytes, and the elements of an array in rows. -/
theorem emitDecoder_reads_c (c : Channels) (refs : RefTables) (name : Name) (t : DataType)
    (ht : Classes.HasCode .java t) : ∃ decode, decoder c name t = some decode ∧
      ∀ v, WellTyped R t v → C.StringsBelow (2 ^ 31) t v →
        ∃ bs, (∀ ω : C.WriterAction, Emits (C.cEncode (ω := ω) refs t v) 0 bs) ∧
          Consumes decode bs (received c refs t v) :=
  ⟨emitDecoder c t, decoder_of_hasCode c name ht, fun v hv hs =>
    ⟨wire refs t v, fun _ => C.cEncode_emits hv hs, emitDecoder_consumes t hv hs⟩⟩

/-- `short a[_, 2]` with one row. -/
theorem emitDecoder_reads_c_row : ∃ decode bs,
    decoder noClasses [97] (.array (.prim .short) [.variableSize, .integerLiteral 2]) =
      some decode ∧
    Emits (C.cEncode (ω := C.bytewise) noRefs
      (.array (.prim .short) [.variableSize, .integerLiteral 2])
      (.array [1, 2] [.bits 7, .bits 65535])) 0 bs ∧
    Consumes decode bs (.array [.array [.short 7, .short (-1)]]) := by
  have hcode : Classes.HasCode .java (.array (.prim .short) [.variableSize, .integerLiteral 2]) :=
    .inr ⟨List.all_eq_true.mp rfl, rfl, trivial⟩
  have hv : WellTyped (fun _ => False) (.array (.prim .short) [.variableSize, .integerLiteral 2])
      (.array [1, 2] [.bits 7, .bits 65535]) := by
    refine ⟨[1, 2], _, rfl, .cons ⟨by decide, by decide⟩ (.cons rfl .nil), rfl,
      fun _ => by decide, ?_⟩
    intro x hx
    simp only [List.mem_cons, List.not_mem_nil, or_false] at hx
    rcases hx with rfl | rfl
    · exact ⟨7, rfl, by decide⟩
    · exact ⟨65535, rfl, by decide⟩
  have hs : C.StringsBelow (2 ^ 31) (.array (.prim .short) [.variableSize, .integerLiteral 2])
      (.array [1, 2] [.bits 7, .bits 65535]) := by
    intro x hx
    simp only [List.mem_cons, List.not_mem_nil, or_false] at hx
    rcases hx with rfl | rfl <;> trivial
  obtain ⟨decode, hdecode, hreads⟩ := emitDecoder_reads_c noClasses noRefs [97] _ hcode
  obtain ⟨bs, hemits, hread⟩ := hreads _ hv hs
  exact ⟨decode, bs, hdecode, hemits C.bytewise, hread⟩

/-! ## Corresponding values -/

variable (c refs)

/-- The same primitive value in C and in Java. A C `boolean` is 0 or 1, a NaN is the one that Java
writes, a string is what Java writes of the text, and a class is registered under the index of the
sample. -/
def Channels.PrimCorresponds : Prim → LabComm.Value → Value → Prop
  | .boolean, .bits n, .boolean b => n = if b then 1 else 0
  | .byte, .bits n, .byte x => n = x.toNat
  | .short, .bits n, .short x => n = x.toNat
  | .int, .bits n, .int x => n = x.toNat
  | .long, .bits n, .long x => n = x.toNat
  | .float, .bits n, .float bits => n = bits.toNat ∧ floatToIntBits bits = bits
  | .double, .bits n, .double bits => n = bits.toNat ∧ doubleToLongBits bits = bits
  | .string, .string s, .string t => s = utf t ∧ newString c.malformed s = t
  | .sample, .ref s, .null => s = none ∧ c.getSampleClass 0 = none
  | .sample, .ref s, .sampleClass class_ => ∃ index, c.getTag class_ = some index ∧
      c.getSampleClass index = some class_ ∧ toUnsigned (refs.toIndex s) = index.toNat
  | _, _, _ => False

mutual

/-- The same value in C and in Java. -/
def Corresponds : DataType → LabComm.Value → Value → Prop
  | .void, .unset, .null => True
  | .prim p, v, w => c.PrimCorresponds refs p v w
  | .user _ type, v, w => Corresponds type v w
  | .struct fields, .struct vs, .object ws => FieldsCorrespond fields vs ws
  | .array elem _, .array n a, w => ∃ b, w = rows (n.map Int.toNat) b ∧
      List.Forall₂ (Corresponds elem) a b
  | _, _, _ => False

/-- The same of the fields, in order. -/
def FieldsCorrespond : Fields → List LabComm.Value → List Value → Prop
  | .nil, [], [] => True
  | .cons _ _ type rest, v :: vs, w :: ws => Corresponds type v w ∧ FieldsCorrespond rest vs ws
  | _, _, _ => False

end

variable {c refs}

theorem encodePrim_eq {p : Prim} {v : LabComm.Value} {w : Value}
    (hc : c.PrimCorresponds refs p v w) (hw : c.PrimEncodable p w) :
    c.encodePrim p w = .ok (wire refs (.prim p) v) := by
  cases p <;> cases v <;> cases w <;> try exact hc.elim
  case boolean n b =>
      obtain rfl : n = if b then 1 else 0 := hc
      cases b <;> rfl
  case byte n x | short n x | int n x | long n x =>
      obtain rfl : n = x.toNat := hc
      rfl
  case float n bits | double n bits =>
      obtain ⟨rfl, hbits⟩ := hc
      rw [Channels.encodePrim, hbits]
      rfl
  case string s t =>
      obtain ⟨rfl, _⟩ := hc
      rw [Channels.encodePrim, encodeString_eq hw]
      rfl
  case sample.ref.null s =>
      obtain ⟨rfl, _⟩ := hc
      rw [wire, refs.toIndex_none]
      rfl
  case sample.ref.sampleClass s class_ =>
      obtain ⟨index, htag, _, hindex⟩ := hc
      rw [Channels.encodePrim, Channels.encodeSampleRef, htag, wire, hindex]
      rfl

theorem receivedPrim_eq {p : Prim} {v : LabComm.Value} {w : Value}
    (hc : c.PrimCorresponds refs p v w) : c.receivedPrim refs p v = w := by
  cases p <;> cases v <;> cases w <;> try exact hc.elim
  case boolean n b =>
      obtain rfl : n = if b then 1 else 0 := hc
      cases b <;> rfl
  case byte n x | short n x | int n x | long n x =>
      obtain rfl : n = x.toNat := hc
      simp [Channels.receivedPrim]
  case float n bits | double n bits =>
      obtain ⟨rfl, _⟩ := hc
      simp [Channels.receivedPrim]
  case string s t => exact congrArg Value.string hc.2
  case sample.ref.null s =>
      obtain ⟨rfl, hnone⟩ := hc
      rw [Channels.receivedPrim, refs.toIndex_none]
      show (Option.map Value.sampleClass (c.getSampleClass 0)).getD .null = _
      rw [hnone]
      rfl
  case sample.ref.sampleClass s class_ =>
      obtain ⟨index, _, hclass, hindex⟩ := hc
      rw [Channels.receivedPrim, hindex, BitVec.ofNat_toNat, BitVec.setWidth_eq, hclass]
      rfl

mutual

/-- What is received of a value is the one that corresponds to it. -/
theorem received_eq (t : DataType) {v : LabComm.Value} {w : Value} (hc : Corresponds c refs t v w) :
    received c refs t v = w := by
  cases t with
  | void => cases v <;> cases w <;> first | rfl | exact hc.elim
  | prim p =>
      unfold received
      unfold Corresponds at hc
      exact receivedPrim_eq hc
  | user name type =>
      unfold received
      exact received_eq type hc
  | struct fields =>
      cases v <;> cases w <;> try exact hc.elim
      exact congrArg Value.object (receivedFields_eq fields hc)
  | array elem dim =>
      cases v with
      | array n a =>
          obtain ⟨b, rfl, hab⟩ := hc
          have hmap : List.Forall₂ (· = ·) (a.map (received c refs elem)) b := by
            rw [List.forall₂_map_left_iff]
            exact hab.imp fun x y hxy => received_eq elem hxy
          rw [List.forall₂_eq_eq_eq] at hmap
          unfold received
          rw [hmap]
      | _ => exact hc.elim

theorem receivedFields_eq (fields : Fields) {vs : List LabComm.Value} {ws : List Value}
    (hc : FieldsCorrespond c refs fields vs ws) : receivedFields c refs fields vs = ws := by
  cases fields with
  | nil => cases vs <;> cases ws <;> first | rfl | exact hc.elim
  | cons name intentions type rest =>
      cases vs <;> cases ws <;> try exact hc.elim
      unfold receivedFields
      rw [received_eq type hc.1, receivedFields_eq rest hc.2]

end

mutual

/-- The generated Java encoder writes the wire format. -/
theorem emitEncoder_eq (t : DataType) {v : LabComm.Value} {w : Value} (hv : WellTyped R t v)
    (hc : Corresponds c refs t v w) (hw : Encodable c t w) :
    emitEncoder c t w = .ok (wire refs t v) := by
  cases t with
  | void =>
      cases hv
      rfl
  | prim p =>
      unfold emitEncoder
      unfold Corresponds at hc
      exact encodePrim_eq hc hw
  | user name type =>
      unfold emitEncoder
      exact emitEncoder_eq type hv hc hw
  | struct fields =>
      obtain ⟨vs, rfl, hvs⟩ := hv
      cases w <;> try exact hc.elim
      exact emitEncoderFields_eq fields hvs hc hw
  | array elem dim =>
      obtain ⟨n, a, rfl, hdim, hlen, _, hall⟩ := hv
      obtain ⟨b, rfl, hab⟩ := hc
      obtain ⟨hreach, hencodable⟩ := hw
      have hnonneg := C.admits_nonneg hdim
      have hcount : b.length = (n.map Int.toNat).prod := by
        rw [← hab.length_eq]
        exact length_eq_prod hdim hlen
      have hnested : Nested (fun _ => True) n (rows (n.map Int.toNat) b) :=
        rows_nested hnonneg hcount fun _ _ => trivial
      have helements : elements n.length (rows (n.map Int.toNat) b) = b := by
        have h := elements_rows hcount
        rwa [List.length_map] at h
      rw [hdim.length_eq, helements] at hencodable
      have heach : writeEach (emitEncoder c elem) b = .ok (a.flatMap (wire refs elem)) :=
        writeEach_ok (forall₂_mem hab fun x hx y hy hxy =>
          emitEncoder_eq elem (hall x hx) hxy (hencodable y hy))
      unfold emitEncoder wire
      -- the limits first, and then the elements in order
      rw [emitLimits_reaches (v := rows (n.map Int.toNat) b) (i := 0) rfl hnested hdim hreach]
      show nest (n.map Int.toNat) _ (wireDims dim n) = _
      rw [nest_emitRows (emitEncoder c elem) hnested, emitRows_eq _ hnested, helements, heach]
      rfl

theorem emitEncoderFields_eq (fields : Fields) {vs : List LabComm.Value} {ws : List Value}
    (hvs : FieldsTyped R fields vs) (hc : FieldsCorrespond c refs fields vs ws)
    (hw : FieldsEncodable c fields ws) :
    emitEncoderFields c fields ws = .ok (wireFields refs fields vs) := by
  cases fields with
  | nil =>
      cases hvs
      rfl
  | cons name intentions type rest =>
      obtain ⟨v, vs, rfl, hv, hvs⟩ := hvs
      cases ws with
      | nil => exact hc.elim
      | cons w ws =>
          unfold emitEncoderFields wireFields
          rw [emitEncoder_eq type hv hc.1 hw.1, emitEncoderFields_eq rest hvs hc.2 hw.2]
          rfl

end

end LabComm.Java.Generated
