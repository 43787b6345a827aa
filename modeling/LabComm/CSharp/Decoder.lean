import LabComm.CSharp.Encoder
import LabComm.VarintDecoders

set_option autoImplicit false

/-! # Generated C# decoders

The code that `CS_emitDecoder` generates for a data type, over the functions of `DecoderChannel`.
An array of several dimensions is one object that knows its lengths, so that it is encoded and
decoded even if it is empty, if there is code for the type (`decodes_iff`).
-/

namespace LabComm.CSharp

open Library Python

/-! ## The channel -/

/-- What is thrown while a value is read. -/
inductive DecoderException where
  | read (e : ReadException)
  | OverflowException
  /-- A sample reference; the values here have none. -/
  | typeError
  deriving DecidableEq

/-- A method that reads from the stream. -/
abbrev Reading (α : Type) := Parser DecoderException α

/-- `ReadBytes`, and what is thrown at the end of the stream. -/
def readStream (length : Nat) : Reading (List UInt8) :=
  readBytes (.read .EndOfStreamException) length

/-- `ReadInt`, before it is cast to a type with as many bytes. -/
def readInt (length : Nat) : Reading Nat := ofBigEndian <$> readStream length

/-- `decodePacked32`, among the methods that may throw something else. -/
def readPacked32 : Reading Int := fun bs => (decodePacked32.run bs).mapError .read

variable (malformed : List UInt8 → String)

/-- `Encoding.UTF8.GetString`; `malformed` is the text of bytes that are not UTF-8. -/
def getString (buf : List UInt8) : String := (decodeUtf8 buf).getD (malformed buf)

/-- `decodeString` -/
def decodeString : Reading String := do
  let length ← readPacked32
  if length < 0 then throw .OverflowException
  else
    let buf ← readStream length.toNat
    pure (getString malformed buf)

/-- The functions `decodeBoolean`, `decodeByte`, … -/
def decodePrim : Prim → Reading Value
  | .boolean => (fun n => Value.bool (n ≠ 0)) <$> readInt 1
  | .byte => Value.byte <$> readInt 1
  | .short => (fun n => Value.short (signed 2 n)) <$> readInt 2
  | .int => (fun n => Value.int (signed 4 n)) <$> readInt 4
  | .long => (fun n => Value.long (signed 8 n)) <$> readInt 8
  | .float => Value.float <$> readInt 4
  | .double => Value.double <$> readInt 8
  | .string => Value.string <$> decodeString malformed
  | .sample => throw .typeError

/-! ## The generated code -/

/-- `Exp.CS_emitDecoder` for all expressions: the limits of the loops. -/
def decodeLimits : List Exp → Reading (List Int)
  | [] => pure []
  | .integerLiteral value :: dim => do
      let limits ← decodeLimits dim
      pure ((value : Int) :: limits)
  | .variableSize :: dim => do
      let n ← readPacked32
      let limits ← decodeLimits dim
      pure (n :: limits)

/-- The array is allocated with all its lengths, and the loops store an element at each position. -/
def decodeElements (p : Reading Value) (limits : List Int) : Reading Value :=
  if ∃ n ∈ limits, n < 0 then throw .OverflowException
  else
    let lengths := limits.map Int.toNat
    Value.array lengths <$> nest lengths (fun is a => do
      let x ← p
      pure (a.set (horner lengths 0 is) x)) (List.replicate lengths.prod .unit)

mutual

/-- What the code of `DataType.CS_emitDecoder` does in a class that compiles (`decoder`). -/
def emitDecoder : DataType → Reading Value
  | .void => pure .unit
  | .prim p => decodePrim malformed p
  | .user _ type => emitDecoder type
  | .struct fields => Value.object <$> emitDecoderFields fields
  | .array elem dim => do
      let limits ← decodeLimits dim
      decodeElements (emitDecoder elem) limits

/-- The fields of a struct, in order. -/
def emitDecoderFields : Fields → Reading (List Value)
  | .nil => pure []
  | .cons _ _ type rest => do
      let v ← emitDecoder type
      let vs ← emitDecoderFields rest
      pure (v :: vs)

end

/-- The method `decode` of the class that is generated for a sample of this name and type, if there
is such a class. -/
def decoder (name : Name) (t : DataType) : Option (Reading Value) :=
  if Classes.compiles .csharp name t then some (emitDecoder malformed t) else none

/-! ## Values of a type -/

/-- The values of a primitive type. -/
def PrimTyped : Prim → Value → Prop
  | .boolean, .bool _ => True
  | .byte, .byte n => n < 256
  | .short, .short i => SignedFits 2 i
  | .int, .int i => SignedFits 4 i
  | .long, .long i => SignedFits 8 i
  | .float, .float bits => bits < 256 ^ 4
  | .double, .double bits => bits < 256 ^ 8
  | .string, .string _ => True
  | _, _ => False

mutual

/-- The values of a type. -/
def Typed : DataType → Value → Prop
  | .void, w => w = .unit
  | .prim p, w => PrimTyped p w
  | .user _ type, w => Typed type w
  | .struct fields, w => ∃ ws, w = .object ws ∧ FieldsTyped fields ws
  | .array elem dim, w => ∃ lengths a, w = .array lengths a ∧
      List.Forall₂ Exp.Admits dim (lengths.map Int.ofNat) ∧ a.length = lengths.prod ∧
      ∀ x ∈ a, Typed elem x

/-- The same of the fields. -/
def FieldsTyped : Fields → List Value → Prop
  | .nil, ws => ws = []
  | .cons _ _ type rest, ws => ∃ w more, ws = w :: more ∧ Typed type w ∧ FieldsTyped rest more

end

mutual

/-- Strings have less than `2 ^ 31` bytes. -/
def StringsFit : DataType → Value → Prop
  | .prim .string, .string s => (getBytes s).length < 2 ^ 31
  | .user _ type, w => StringsFit type w
  | .struct fields, .object ws => FieldsStringsFit fields ws
  | .array elem _, .array _ a => ∀ x ∈ a, StringsFit elem x
  | _, _ => True

/-- The same of the fields. -/
def FieldsStringsFit : Fields → List Value → Prop
  | .cons _ _ type rest, w :: ws => StringsFit type w ∧ FieldsStringsFit rest ws
  | _, _ => True

end

/-! ## Numbers and strings -/

theorem readInt_consumes {w n : Nat} (h : n < 256 ^ w) :
    Consumes (readInt w) (bigEndian w n) n := by
  have hread : Consumes (readInt w) (bigEndian w n) (ofBigEndian (bigEndian w n)) := by
    have hbytes := readBytes_consumes (DecoderException.read .EndOfStreamException) (bigEndian w n)
    rw [bigEndian_length] at hbytes
    exact hbytes.map ofBigEndian
  rwa [ofBigEndian_bigEndian h] at hread

theorem readPacked32_consumes {n : Nat} (h : n < 2 ^ 31) :
    Consumes readPacked32 (packed32 n) (n : Int) := by
  intro rest
  obtain ⟨init, last, hshape, hinit, hlast⟩ := varint_shape 4 n
  have hrun := decodePacked32From_append hinit hlast 0 rest
  rw [← hshape, varintValue_varint (by omega), Nat.mod_eq_of_lt (by omega),
    wrap32_natCast h] at hrun
  show (decodePacked32From 0 (packed32 n ++ rest)).mapError _ = _
  unfold packed32
  rw [hrun]
  rfl

theorem decodePacked32From_lt {res : Nat} {s q : List UInt8} {i : Int}
    (h : decodePacked32From res s = .ok (i, q)) : i < 2 ^ 31 := by
  induction s generalizing res with
  | nil => cases h
  | cons c s ih =>
      unfold decodePacked32From at h
      dsimp only at h
      split at h
      · simp only [Except.ok.injEq, Prod.mk.injEq] at h
        rw [← h.1]
        exact wrap32_lt _
      · exact ih h

theorem readPacked32_lt {s q : List UInt8} {i : Int} (h : readPacked32.run s = .ok (i, q)) :
    i < 2 ^ 31 := by
  have h' : (decodePacked32From 0 s).mapError DecoderException.read = .ok (i, q) := h
  cases hrun : decodePacked32From 0 s with
  | error e =>
      rw [hrun] at h'
      cases h'
  | ok x =>
      rw [hrun] at h'
      have hx : x = (i, q) := Except.ok.inj h'
      rw [hx] at hrun
      exact decodePacked32From_lt hrun

theorem readInt_lt {w n : Nat} {s q : List UInt8} (h : (readInt w).run s = .ok (n, q)) :
    n < 256 ^ w := by
  obtain ⟨bs, hbs, rfl⟩ := run_map_eq_ok.mp h
  rw [← (readBytes_length hbs).1]
  exact ofBigEndian_lt bs

theorem getBytes_eq (s : String) : getBytes s = utf8 s := rfl

theorem decodeString_consumes (s : String) (h : (getBytes s).length < 2 ^ 31) :
    Consumes (decodeString malformed) (encodeString s) s := by
  have hbytes : encodeString s = packed32 (getBytes s).length ++ getBytes s := by
    show writePacked32 ((getBytes s).length : Int) ++ getBytes s = _
    rw [writePacked32_eq, toUnsigned_natCast (by omega)]
  have htext : getString malformed (getBytes s) = s := by
    unfold getString
    rw [getBytes_eq, decodeUtf8_eq_some.mpr rfl, Option.getD_some]
  have hbuf := readBytes_consumes (DecoderException.read .EndOfStreamException) (getBytes s)
  have hread := hbuf.bind (f := fun buf => pure (getString malformed buf)) (Consumes.pure _)
  rw [htext, List.append_nil] at hread
  rw [hbytes]
  refine (readPacked32_consumes h).bind ?_
  rw [if_neg (by omega), Int.toNat_natCast]
  exact hread

/-! ## Arrays -/

/-- A limit that the decoder can read. -/
def HoldsLimit : Exp → Int → Prop
  | .integerLiteral value, n => n = value
  | .variableSize, n => n < 2 ^ 31

theorem decodeLimits_holds {dim : List Exp} {limits : List Int} {s q : List UInt8}
    (h : (decodeLimits dim).run s = .ok (limits, q)) : List.Forall₂ HoldsLimit dim limits := by
  induction dim generalizing s q limits with
  | nil =>
      have h' : (Except.ok ([], s) : Except DecoderException _) = .ok (limits, q) := h
      cases h'
      exact List.Forall₂.nil
  | cons e dim ih =>
      cases e with
      | integerLiteral value =>
          unfold decodeLimits at h
          obtain ⟨ns, r, hns, hpure⟩ := run_bind_eq_ok.mp h
          cases hpure
          exact List.Forall₂.cons rfl (ih hns)
      | variableSize =>
          unfold decodeLimits at h
          obtain ⟨n, r, hn, hrest⟩ := run_bind_eq_ok.mp h
          obtain ⟨ns, r', hns, hpure⟩ := run_bind_eq_ok.mp hrest
          cases hpure
          exact List.Forall₂.cons (readPacked32_lt hn) (ih hns)

theorem decodeLimits_consumes {dim : List Exp} {lengths : List Nat}
    (h : List.Forall₂ Exp.Admits dim (lengths.map Int.ofNat)) :
    Consumes (decodeLimits dim) (wireDims dim (lengths.map Int.ofNat)) (lengths.map Int.ofNat) := by
  induction dim generalizing lengths with
  | nil =>
      rw [List.forall₂_nil_left_iff] at h
      rw [h]
      exact Consumes.pure []
  | cons e dim ih =>
      cases lengths with
      | nil => cases h
      | cons n lengths =>
          rw [List.map_cons, List.forall₂_cons] at h
          have hrest := (ih h.2).bind (f := fun ns => pure (Int.ofNat n :: ns)) (Consumes.pure _)
          rw [List.append_nil] at hrest
          cases e with
          | integerLiteral value =>
              have hvalue : Int.ofNat n = (value : Int) := h.1
              unfold decodeLimits
              rw [← hvalue]
              exact hrest
          | variableSize =>
              have hlt : (n : Int) < 2 ^ 31 := h.1.2
              have hread := readPacked32_consumes (show n < 2 ^ 31 by omega)
              have hn : toUnsigned (Int.ofNat n) = n := toUnsigned_natCast (by omega)
              rw [List.map_cons, wireDims, hn]
              exact hread.bind hrest

/-- The loops store the elements in the order in which they are read. -/
theorem nest_times (p : Reading Value) (lengths : List Nat) :
    nest lengths (fun is a => do let x ← p; pure (a.set (horner lengths 0 is) x))
        (List.replicate lengths.prod .unit) = times lengths.prod p := by
  have hstore := foldlM_set_times p [] (List.replicate lengths.prod .unit) lengths.prod (by simp)
  calc nest lengths (fun is a => do let x ← p; pure (a.set (horner lengths 0 is) x))
        (List.replicate lengths.prod .unit)
      = (List.range lengths.prod).foldlM (fun a k => do let x ← p; pure (a.set k x))
          (List.replicate lengths.prod .unit) :=
        nest_horner lengths (fun k (a : List Value) => do let x ← p; pure (a.set k x)) _
    _ = (do let xs ← times lengths.prod p; pure ([] ++ xs ++ _)) := by
        rw [List.range_eq_range']
        exact hstore
    _ = times lengths.prod p := by simp

theorem decodeElements_eq (p : Reading Value) {limits : List Int} (h : ∀ n ∈ limits, 0 ≤ n) :
    decodeElements p limits =
      Value.array (limits.map Int.toNat) <$> times (limits.map Int.toNat).prod p := by
  have hneg : ¬ ∃ n ∈ limits, n < 0 := by
    rintro ⟨n, hn, hlt⟩
    have := h n hn
    omega
  unfold decodeElements
  rw [if_neg hneg]
  show Value.array _ <$> nest _ _ _ = _
  rw [nest_times]

theorem decodeElements_nonneg {p : Reading Value} {limits : List Int} {w : Value}
    {s q : List UInt8} (h : (decodeElements p limits).run s = .ok (w, q)) :
    ∀ n ∈ limits, 0 ≤ n := by
  intro n hn
  by_contra hlt
  have hneg : ∃ n ∈ limits, n < 0 := ⟨n, hn, not_le.mp hlt⟩
  unfold decodeElements at h
  rw [if_pos hneg] at h
  cases h

theorem admits_of_holds {dim : List Exp} {limits : List Int}
    (h : List.Forall₂ HoldsLimit dim limits) (hnonneg : ∀ n ∈ limits, 0 ≤ n) :
    List.Forall₂ Exp.Admits dim ((limits.map Int.toNat).map Int.ofNat) := by
  induction h with
  | nil => exact List.Forall₂.nil
  | @cons e n dim limits hn _ ih =>
      have hcast : Int.ofNat n.toNat = n := by
        have := hnonneg n List.mem_cons_self
        rw [Int.ofNat_eq_natCast]
        omega
      rw [List.map_cons, List.map_cons, hcast]
      refine List.Forall₂.cons ?_ (ih fun m hm => hnonneg m (List.mem_cons_of_mem _ hm))
      cases e with
      | integerLiteral value => exact hn
      | variableSize => exact ⟨hnonneg n List.mem_cons_self, hn⟩

/-! ## What is decoded -/

variable {malformed}

theorem decodePrim_typed {p : Prim} {w : Value} (h : Returns (decodePrim malformed p) w) :
    PrimTyped p w := by
  obtain ⟨s, q, h⟩ := h
  cases p with
  | sample => cases h
  | boolean | string =>
      obtain ⟨x, _, rfl⟩ := run_map_eq_ok.mp h
      trivial
  | byte =>
      obtain ⟨n, hn, rfl⟩ := run_map_eq_ok.mp h
      exact readInt_lt hn
  | short | int | long =>
      obtain ⟨n, _, rfl⟩ := run_map_eq_ok.mp h
      exact signed_fits _ n
  | float | double =>
      obtain ⟨n, hn, rfl⟩ := run_map_eq_ok.mp h
      exact readInt_lt hn

mutual

/-- The generated decoder returns values of the type. -/
theorem emitDecoder_typed (t : DataType) {w : Value} (h : Returns (emitDecoder malformed t) w) :
    Typed t w := by
  cases t with
  | void =>
      obtain ⟨s, q, h⟩ := h
      exact (congrArg Prod.fst (Except.ok.inj h)).symm
  | prim p =>
      unfold emitDecoder at h
      exact decodePrim_typed h
  | user name type =>
      unfold emitDecoder at h
      exact emitDecoder_typed type h
  | struct fields =>
      obtain ⟨s, q, h⟩ := h
      unfold emitDecoder at h
      obtain ⟨ws, hws, rfl⟩ := run_map_eq_ok.mp h
      exact ⟨ws, rfl, emitDecoderFields_typed fields ⟨s, q, hws⟩⟩
  | array elem dim =>
      obtain ⟨s, q, h⟩ := h
      unfold emitDecoder at h
      obtain ⟨limits, r, hlimits, helements⟩ := run_bind_eq_ok.mp h
      have hnonneg := decodeElements_nonneg helements
      rw [decodeElements_eq _ hnonneg] at helements
      obtain ⟨a, ha, rfl⟩ := run_map_eq_ok.mp helements
      refine ⟨_, a, rfl, admits_of_holds (decodeLimits_holds hlimits) hnonneg, times_length ha, ?_⟩
      exact times_forall (fun s x q hx => emitDecoder_typed elem ⟨s, q, hx⟩) ha

theorem emitDecoderFields_typed (fields : Fields) {ws : List Value}
    (h : Returns (emitDecoderFields malformed fields) ws) : FieldsTyped fields ws := by
  cases fields with
  | nil =>
      obtain ⟨s, q, h⟩ := h
      exact (congrArg Prod.fst (Except.ok.inj h)).symm
  | cons name intentions type rest =>
      obtain ⟨s, q, h⟩ := h
      unfold emitDecoderFields at h
      obtain ⟨w, r, hw, hrest⟩ := run_bind_eq_ok.mp h
      obtain ⟨more, r', hmore, hpure⟩ := run_bind_eq_ok.mp hrest
      refine ⟨w, more, (congrArg Prod.fst (Except.ok.inj hpure)).symm, ?_, ?_⟩
      · exact emitDecoder_typed type ⟨s, r, hw⟩
      · exact emitDecoderFields_typed rest ⟨r, r', hmore⟩

end

/-! ## Round trip -/

theorem signed_unsigned_map {w : Nat} {i : Int} (h : SignedFits w i) (f : Int → Value) :
    Consumes ((fun n => f (signed w n)) <$> readInt w) (bigEndian w (unsigned w i)) (f i) := by
  have hread := (readInt_consumes (unsigned_lt w i)).map fun n => f (signed w n)
  rwa [signed_unsigned h] at hread

theorem encodePrim_consumes {p : Prim} {w : Value} (hw : PrimTyped p w)
    (hs : StringsFit (.prim p) w) :
    ∃ bs, encodePrim p w = .ok bs ∧ Consumes (decodePrim malformed p) bs w := by
  cases p <;> cases w <;> try exact hw.elim
  case boolean b =>
      refine ⟨_, rfl, ?_⟩
      have hread := (readInt_consumes (w := 1) (n := if b then 1 else 0) (by
        cases b <;> decide)).map fun n => Value.bool (n ≠ 0)
      cases b <;> exact hread
  case byte n =>
      have hn : n < 256 := hw
      refine ⟨_, rfl, ?_⟩
      have hread := (readInt_consumes (w := 1) (n := n) hn).map Value.byte
      have hbytes : writeInt n 1 = bigEndian 1 n := by
        rw [writeInt_eq]
        congr 1
        unfold unsigned
        omega
      rwa [← hbytes] at hread
  case short i | int i | long i =>
      refine ⟨_, rfl, ?_⟩
      rw [writeInt_eq]
      exact signed_unsigned_map hw _
  case float bits | double bits =>
      refine ⟨_, rfl, ?_⟩
      rw [writeInt_eq, unsigned_signed hw]
      exact (readInt_consumes hw).map _
  case string s =>
      exact ⟨_, rfl, (decodeString_consumes malformed s hs).map Value.string⟩

/-- What the encoder writes, if it does not throw. -/
def encoded (t : DataType) (w : Value) : List UInt8 := (emitEncoder t w).toOption.getD []

theorem encoded_eq {t : DataType} {w : Value} {bs : List UInt8} (h : emitEncoder t w = .ok bs) :
    encoded t w = bs := by
  unfold encoded
  rw [h]
  rfl

mutual

/-- Each value of the type is encoded, and read back. -/
theorem emitEncoder_consumes (t : DataType) {w : Value} (hw : Typed t w) (hs : StringsFit t w) :
    ∃ bs, emitEncoder t w = .ok bs ∧ Consumes (emitDecoder malformed t) bs w := by
  cases t with
  | void =>
      cases hw
      exact ⟨[], rfl, Consumes.pure _⟩
  | prim p =>
      unfold emitEncoder emitDecoder
      exact encodePrim_consumes hw hs
  | user name type =>
      unfold emitEncoder emitDecoder
      exact emitEncoder_consumes type hw hs
  | struct fields =>
      obtain ⟨ws, rfl, hws⟩ := hw
      unfold emitEncoder emitDecoder
      obtain ⟨bs, hbs, hread⟩ := emitEncoderFields_consumes fields hws hs
      exact ⟨bs, hbs, hread.map Value.object⟩
  | array elem dim =>
      obtain ⟨lengths, a, rfl, hdim, hlen, hall⟩ := hw
      -- one element after the other
      have helem : ∀ x ∈ a, emitEncoder elem x = .ok (encoded elem x) ∧
          Consumes (emitDecoder malformed elem) (encoded elem x) x := by
        intro x hx
        obtain ⟨bs, hbs, hread⟩ := emitEncoder_consumes elem (hall x hx) (hs x hx)
        rw [encoded_eq hbs]
        exact ⟨hbs, hread⟩
      have hlimits := emitLimits_eq [] hdim
      rw [List.nil_append, List.length_nil] at hlimits
      have hget : ∀ k (hk : k < a.length), emitEncoder elem a[k] =
          .ok (encoded elem (a.getD k .unit)) := by
        intro k hk
        have hk' : a.getD k .unit = a[k] := by simp [hk]
        rw [hk']
        exact (helem _ (List.getElem_mem hk)).1
      refine ⟨wireDims dim (lengths.map Int.ofNat) ++ a.flatMap (encoded elem), ?_, ?_⟩
      · rw [emitEncoder, ← flatMap_getD_range a .unit, ← loops_eq hlen hget, hlimits]
        rfl
      · unfold emitDecoder
        refine (decodeLimits_consumes hdim).bind ?_
        have hlengths : (lengths.map Int.ofNat).map Int.toNat = lengths := by
          rw [List.map_map]
          exact List.map_id lengths
        rw [decodeElements_eq, hlengths, ← hlen]
        · have hread := (Consumes.times (f := id) fun x hx => (helem x hx).2).map
            (Value.array lengths)
          rwa [List.map_id] at hread
        · intro n hn
          obtain ⟨k, _, rfl⟩ := List.mem_map.mp hn
          exact Int.natCast_nonneg k

theorem emitEncoderFields_consumes (fields : Fields) {ws : List Value} (hws : FieldsTyped fields ws)
    (hs : FieldsStringsFit fields ws) :
    ∃ bs, emitEncoderFields fields ws = .ok bs ∧
      Consumes (emitDecoderFields malformed fields) bs ws := by
  cases fields with
  | nil =>
      cases hws
      exact ⟨[], rfl, Consumes.pure _⟩
  | cons name intentions type rest =>
      obtain ⟨w, more, rfl, hw, hmore⟩ := hws
      obtain ⟨bs, hbs, hread⟩ : ∃ bs, emitEncoder type w = .ok bs ∧
          Consumes (emitDecoder malformed type) bs w := emitEncoder_consumes type hw hs.1
      obtain ⟨cs, hcs, hreads⟩ : ∃ cs, emitEncoderFields rest more = .ok cs ∧
          Consumes (emitDecoderFields malformed rest) cs more :=
        emitEncoderFields_consumes rest hmore hs.2
      refine ⟨bs ++ cs, ?_, ?_⟩
      · unfold emitEncoderFields
        rw [hbs, hcs]
        rfl
      · unfold emitDecoderFields
        have htail := hreads.bind (f := fun vs => pure (w :: vs)) (Consumes.pure _)
        rw [List.append_nil] at htail
        exact hread.bind htail

end

/-! ## Values that correspond to C values -/

theorem primTyped_of_corresponds {p : Prim} {v : LabComm.Value} {w : Value}
    (hc : Corresponds (.prim p) v w) : PrimTyped p w ∧ StringsFit (.prim p) w := by
  cases p <;> cases v <;> cases w <;> try exact hc.elim
  case boolean | byte | short | int | long | float | double =>
      first
        | exact ⟨trivial, trivial⟩
        | exact ⟨hc.2, trivial⟩
  case string s t =>
      obtain ⟨rfl, hlen⟩ := hc
      exact ⟨trivial, hlen⟩

mutual

theorem typed_of_corresponds {R : Option Nat → Prop} (t : DataType) {v : LabComm.Value} {w : Value}
    (hv : WellTyped R t v) (hc : Corresponds t v w) : Typed t w ∧ StringsFit t w := by
  cases t with
  | void =>
      cases hv
      cases w <;> try exact hc.elim
      exact ⟨rfl, trivial⟩
  | prim p => exact primTyped_of_corresponds hc
  | user name type => exact typed_of_corresponds type hv hc
  | struct fields =>
      obtain ⟨vs, rfl, hvs⟩ := hv
      cases w <;> try exact hc.elim
      have hfields := fieldsTyped_of_correspond fields hvs hc
      exact ⟨⟨_, rfl, hfields.1⟩, hfields.2⟩
  | array elem dim =>
      obtain ⟨n, a, rfl, hdim, hlen, _, hall⟩ := hv
      cases w <;> try exact hc.elim
      rename_i lengths b
      obtain ⟨rfl, hab⟩ := hc
      have hcast : (lengths.map Int.ofNat).prod = ((lengths.prod : Nat) : Int) :=
        (Nat.cast_list_prod lengths).symm
      have hcount : b.length = lengths.prod := by
        rw [hcast] at hlen
        have hlength := hab.length_eq
        omega
      have helem : ∀ y ∈ b, Typed elem y ∧ StringsFit elem y := by
        intro y hy
        obtain ⟨k, hk, rfl⟩ := List.mem_iff_getElem.mp hy
        have hka : k < a.length := by
          rw [hab.length_eq]
          exact hk
        exact typed_of_corresponds elem (hall _ (List.getElem_mem hka))
          ((List.forall₂_iff_get.mp hab).2 k hka hk)
      exact ⟨⟨lengths, b, rfl, hdim, hcount, fun y hy => (helem y hy).1⟩,
        fun y hy => (helem y hy).2⟩

theorem fieldsTyped_of_correspond {R : Option Nat → Prop} (fields : Fields)
    {vs : List LabComm.Value} {ws : List Value} (hvs : LabComm.FieldsTyped R fields vs)
    (hc : FieldsCorrespond fields vs ws) : FieldsTyped fields ws ∧ FieldsStringsFit fields ws := by
  cases fields with
  | nil =>
      cases hvs
      cases ws with
      | nil => exact ⟨rfl, trivial⟩
      | cons w ws => exact hc.elim
  | cons name intentions type rest =>
      obtain ⟨v, vs, rfl, hv, hvs⟩ := hvs
      cases ws with
      | nil => exact hc.elim
      | cons w ws =>
          have hfirst := typed_of_corresponds type hv hc.1
          have hrest := fieldsTyped_of_correspond rest hvs hc.2
          exact ⟨⟨w, ws, rfl, hfirst.1, hrest.1⟩, hfirst.2, hrest.2⟩

end

/-- The generated C# decoder reads the wire format. -/
theorem emitDecoder_consumes {R : Option Nat → Prop} (refs : RefTables) (t : DataType)
    {v : LabComm.Value} {w : Value} (hv : WellTyped R t v) (hc : Corresponds t v w) :
    Consumes (emitDecoder malformed t) (wire refs t v) w := by
  have htyped := typed_of_corresponds t hv hc
  obtain ⟨bs, hbs, hread⟩ : ∃ bs, emitEncoder t w = .ok bs ∧
      Consumes (emitDecoder malformed t) bs w := emitEncoder_consumes t htyped.1 htyped.2
  rw [emitEncoder_eq refs t v w hv hc, Except.ok.injEq] at hbs
  rwa [hbs]

/-! ## What comes back -/

theorem decoder_of_hasCode (name : Name) {t : DataType} (h : Classes.HasCode .csharp t) :
    decoder malformed name t = some (emitDecoder malformed t) :=
  if_pos ((Classes.compiles_iff .csharp name t).mpr h)

/-- **The generated C# decoder returns the values of the type, and each of them is encoded and
decoded to itself**, if there is code for the type and the strings of the value fit into an array of
bytes. -/
theorem decodes_iff (malformed : List UInt8 → String) (name : Name) (t : DataType)
    (ht : Classes.HasCode .csharp t) :
    ∃ encode decode, encoder name t = some encode ∧ decoder malformed name t = some decode ∧
      ∀ w, StringsFit t w → (Returns decode w ↔
        Typed t w ∧ ∃ bs, encode w = .ok bs ∧ Consumes decode bs w) := by
  refine ⟨_, _, encoder_of_hasCode name ht, decoder_of_hasCode name ht, fun w hs => ?_⟩
  constructor
  · intro h
    exact ⟨emitDecoder_typed t h, emitEncoder_consumes t (emitDecoder_typed t h) hs⟩
  · rintro ⟨_, bs, _, hread⟩
    exact ⟨_, _, hread []⟩

/-- `short a[_, _]` with the lengths 0 and 2, which a Java program cannot encode. -/
theorem decodes_empty : ∃ encode decode,
    encoder [97] (.array (.prim .short) [.variableSize, .variableSize]) = some encode ∧
    decoder (fun _ => "") [97] (.array (.prim .short) [.variableSize, .variableSize]) =
      some decode ∧
    ∃ bs, encode (.array [0, 2] []) = .ok bs ∧ Consumes decode bs (.array [0, 2] []) := by
  have hcode : Classes.HasCode .csharp (.array (.prim .short) [.variableSize, .variableSize]) :=
    .inr ⟨List.all_eq_true.mp rfl, rfl, trivial⟩
  have hs : StringsFit (.array (.prim .short) [.variableSize, .variableSize])
      (.array [0, 2] []) := by
    intro x hx
    cases hx
  have hw : Typed (.array (.prim .short) [.variableSize, .variableSize]) (.array [0, 2] []) := by
    refine ⟨[0, 2], [], rfl, ?_, rfl, fun x hx => by cases hx⟩
    exact .cons ⟨by decide, by decide⟩ (.cons ⟨by decide, by decide⟩ .nil)
  obtain ⟨bs, hbs, hread⟩ := @emitEncoder_consumes (fun _ => "") _ _ hw hs
  obtain ⟨encode, decode, hencode, hdecode, hiff⟩ := decodes_iff (fun _ => "") [97] _ hcode
  have hreturns : Returns decode (.array [0, 2] []) := by
    rw [decoder_of_hasCode _ hcode] at hdecode
    cases hdecode
    exact ⟨_, _, hread []⟩
  exact ⟨encode, decode, hencode, hdecode, ((hiff _ hs).mp hreturns).2⟩

end LabComm.CSharp
