import LabComm.Python.Decoder
import LabComm.Python.RoundTrip

set_option autoImplicit false

/-! # Python versions

The version of an encoder or a decoder decides how its numbers are written, and whether a packet has
a length. What stands in a packet is written by encoders of no version, as in LabComm2014, where an
encoder of LabComm2006 writes only the type number in front itself. A decoder of LabComm2006 reads
all numbers as LabComm2006 has them, the ones inside the packets too.
-/

namespace LabComm.Python.Versions

open Library

/-- The versions of encoders and decoders. -/
inductive Version where
  /-- `None`, for the encoders of what stands in a packet -/
  | none
  | LabComm2006
  | LabComm2014

/-- `version`, where it has a text -/
def Version.text : Version → Option String
  | none => Option.none
  | LabComm2006 => some "LabComm2006"
  | LabComm2014 => some "LabComm2014"

/-- `usePacketLength` -/
def usePacketLength : Version → Bool
  | .none => true
  | .LabComm2006 => false
  | .LabComm2014 => true

/-! ## Encoding -/

/-- `Encoder.encode_packed32` -/
def encodePacked32 (version : Version) (v : Nat) : Written :=
  match version with
  | .none | .LabComm2014 => pure (Python.encodePacked32 v)
  | .LabComm2006 => packInt 4 ((v % 2 ^ 32 : Nat) : Int)

/-- What a `length_encoder` writes when it is left. -/
def lengthEncoder (version : Version) (data : List UInt8) : Written :=
  if usePacketLength version then do
    let length ← encodePacked32 version data.length
    pure (length ++ data)
  else
    pure data

/-- `sample_def.encode_decl`; the encoders inside have no version. -/
def encodeDecl (version : Version) (c : Codec String) (s : SampleDef String) : Written := do
  let type ← encodePacked32 version i_SAMPLE_DEF
  let index ← orKeyError (getItem (TypeDecl.sample s).key c.decl_to_index)
  let decl ← lengthEncoder .none (Python.encodeDecl c s.decl)
  let data ← lengthEncoder version
    (Python.encodePacked32 index ++ encodeIntentions s.intentions ++ decl)
  pure (type ++ data)

/-- An encoder of LabComm2014 writes what the model without versions writes. -/
theorem encodeDecl_LabComm2014 (c : Codec String) (s : SampleDef String) :
    encodeDecl .LabComm2014 c s = s.encodeDecl c := by
  rw [encodeDecl, SampleDef.encodeDecl]
  cases getItem (TypeDecl.sample s).key c.decl_to_index with
  | none => rfl
  | some index => rfl

/-- `Encoder.add_decl` of a sample definition: the tables, and what is written. -/
def addDecl (version : Version) (c : Codec String) (s : SampleDef String) :
    Except PyError (Codec String × List UInt8) :=
  match c.add_decl (.sample s) 0 with
  | (codec, true) => do
      let bs ← encodeDecl version codec s
      pure (codec, bs)
  | (codec, false) => pure (codec, [])

/-- `Encoder.encode_type_number` of a sample definition -/
def encodeTypeNumber (version : Version) (c : Codec String) (s : SampleDef String) : Written :=
  match getItem (TypeDecl.sample s).key c.decl_to_index with
  | some index => encodePacked32 version index
  | none => encodeDecl version c s

/-- `Encoder.encode` -/
def encode (version : Version) (c : Codec String) (refs : Refs) (object : Value)
    (s : SampleDef String) : Written := do
  let number ← encodeTypeNumber version c s
  let data ← Python.encode refs s.decl object
  let framed ← lengthEncoder version data
  pure (number ++ framed)

/-! ## Reading numbers and declarations -/

/-- `Decoder.decode_packed32`; LabComm2006 has numbers with a sign. -/
def decodePacked32 : Version → Parser PyError Int
  | .none => throw .exception
  | .LabComm2006 => unpackInt 4
  | .LabComm2014 => (fun n : Nat => (n : Int)) <$> Python.decodePacked32

/-- `Decoder.decode_string`; a negative length makes a format that there is not. -/
def decodeString (version : Version) : Parser PyError String := do
  let length ← decodePacked32 version
  if length < 0 then throw .structError
  else do
    let bs ← readBytes .EOFError length.toNat
    match decodeUtf8 bs with
    | some s => pure s
    | none => throw .UnicodeDecodeError

/-- A decoder of LabComm2014 reads what the model without versions reads. -/
theorem decodeString_LabComm2014 : decodeString .LabComm2014 = Python.decodeString := by
  rw [decodeString, Python.decodeString, decodePacked32, map_eq_pure_bind, bind_assoc]
  refine bind_congr fun n => ?_
  have hn : ¬ (n : Int) < 0 := by omega
  rw [pure_bind]
  exact if_neg hn

/-- `Decoder.decode_intentions` -/
def decodeIntentions (version : Version) : Parser PyError (Intentions String) := do
  let numIntentions ← decodePacked32 version
  let res ← times numIntentions.toNat do
    let key ← decodeString version
    let val ← decodeString version
    pure (key, val)
  pure (sortedTuple res)

/-- An index of an array. Nothing that was declared has a negative one, and the model ends there. -/
def decodeDim (version : Version) : Parser PyError Nat := do
  let index ← decodePacked32 version
  if index < 0 then throw .exception else pure index.toNat

/-- The tables of a decoder, whose indices can have a sign. -/
structure Tables where
  index_to_decl : List (Int × TypeDecl String)
  decl_to_index : List (DeclKey String × Int)
  decl_index : Int

/-- `Codec.add_decl` -/
def Tables.add_decl (c : Tables) (decl : TypeDecl String) (index : Int) : Tables :=
  if index = 0 then
    match getItem decl.key c.decl_to_index with
    | some _ => c
    | none =>
        { index_to_decl := setItem c.decl_index decl c.index_to_decl
          decl_to_index := setItem decl.key c.decl_index c.decl_to_index
          decl_index := c.decl_index + 1 }
  else
    { c with
      index_to_decl := setItem index decl c.index_to_decl
      decl_to_index := setItem decl.key index c.decl_to_index }

/-- The tables of a new decoder. -/
def Tables.new : Tables :=
  predefinedTypes.foldl (fun c p => c.add_decl p.1 p.2) ⟨[], [], i_USER⟩

/-- A field, as `struct.decode_decl` reads it. -/
def decodeField (version : Version) (decodeDecl : Parser PyError (Decl String)) :
    Parser PyError (Intentions String × Decl String) := do
  let ints ← decodeIntentions version
  let decl ← decodeDecl
  pure (ints, decl)

/-- The method `decode_decl` of an entry of the table. -/
def decodeTemplate (version : Version) (decodeDecl : Parser PyError (Decl String)) :
    TypeDecl String → Parser PyError (Decl String)
  | .decl (.primitive p) => pure (.primitive p)
  | .decl (.struct _) => do
      let n_field ← decodePacked32 version
      let field ← times n_field.toNat (decodeField version decodeDecl)
      pure (.struct (.ofList field))
  | .ARRAY | .decl (.array _ _) => do
      let n_indices ← decodePacked32 version
      let indices ← times n_indices.toNat (decodeDim version)
      let elem_decl ← decodeDecl
      pure (.array indices elem_decl)
  | _ => throw .exception

/-- `Decoder.decode_decl`, for declarations that are nested up to `fuel` deep. -/
def decodeDeclFuel (version : Version) (c : Tables) : Nat → Parser PyError (Decl String)
  | 0 => throw .EOFError
  | fuel + 1 => do
      let index ← decodePacked32 version
      match getItem index c.index_to_decl with
      | none => throw .KeyError
      | some result =>
          if index < i_USER then decodeTemplate version (decodeDeclFuel version c fuel) result
          else throw .exception

/-- `Decoder.decode_decl`: each level takes at least one byte. -/
def decodeDecl (version : Version) (c : Tables) : Parser PyError (Decl String) :=
  fun s => (decodeDeclFuel version c s.length).run s

/-- `sample_def.decode_decl`, with the index of the new declaration. -/
def decodeSampleDef (version : Version) (c : Tables) :
    Parser PyError (Int × SampleDef String) := do
  let index ← decodePacked32 version
  let ints ← decodeIntentions version
  if usePacketLength version then
    let _length ← decodePacked32 version
  let decl ← decodeDecl version c
  pure (index, sampleDef ints decl)

/-! ## Reading values -/

/-- The methods `decode` of the primitives. -/
def decodePrimitive (version : Version) (c : Refs) : Prim → Parser PyError Value
  | .string => .string <$> decodeString version
  | p => Python.decodePrimitive c p

/-- The loop of `array.decode` over the indices. -/
def decodeIndices (version : Version) : List Nat → Parser PyError (List Int)
  | [] => pure []
  | i :: rest => do
      let n ← if i = 0 then decodePacked32 version else pure (i : Int)
      let indices ← decodeIndices version rest
      pure (n :: indices)

/-- `array.decode_value` -/
def decodeValue (decode : Parser PyError Value) : List Int → Parser PyError Value
  | [] => decode
  | n :: indices => .list <$> times n.toNat (decodeValue decode indices)

mutual

/-- The method `decode` of a declaration. -/
def decodeData (version : Version) (c : Refs) : Decl String → Parser PyError Value
  | .primitive p => decodePrimitive version c p
  | .array indices decl => do
      let indices ← decodeIndices version indices
      decodeValue (decodeData version c decl) indices
  | .struct field => .object <$> decodeFields version c field []

/-- The loop of `struct.decode`. -/
def decodeFields (version : Version) (c : Refs) : Fields String →
    List (Intentions String × Value) → Parser PyError (List (Intentions String × Value))
  | .nil, obj => pure obj
  | .cons intentions decl rest, obj => do
      let v ← decodeData version c decl
      decodeFields version c rest (setItem intentions v obj)

end

/-! ## The decoder -/

/-- The tables of a decoder. -/
structure Decoder where
  codec : Tables
  refs : Refs

/-- `Decoder.__init__` -/
def Decoder.new : Decoder := ⟨Tables.new, Refs.new⟩

/-- The loop of `Decoder.decode` over the type number and the length, where there is one, past
`fuel - 1` packets with the version. -/
def decodeHeaderFuel (version : Version) : Nat → Parser PyError (Int × Option Int)
  | 0 => throw .EOFError
  | fuel + 1 => do
      let index ← decodePacked32 version
      let length ← if usePacketLength version then some <$> decodePacked32 version else pure none
      if index ≠ i_VERSION then pure (index, length)
      else do
        let other_version ← decodeString version
        if version.text ≠ some other_version then throw .NameError
        else decodeHeaderFuel version fuel

/-- What `Decoder.decode` returns. -/
abbrev Decoded := Option Value × Option (SampleDef String)

/-- `Decoder.decode` after the loop; without a length, the variable is not bound where a packet is
skipped. -/
def Decoder.decodeBody (d : Decoder) (version : Version) (index : Int) (length : Option Int) :
    Parser PyError (Decoded × Decoder) :=
  if index = i_SAMPLE_DEF then do
    let (i, s) ← decodeSampleDef version d.codec
    pure ((none, some s), { d with codec := d.codec.add_decl (.sample s) i })
  else if index = i_SAMPLE_REF then do
    let (i, s) ← decodeSampleDef version d.codec
    let sample := if s.name = none then none else some s
    pure ((none, some s), { d with refs := d.refs.add_ref sample i })
  else if index = i_TYPE_DEF ∨ index = i_TYPE_BINDING ∨ index = i_PRAGMA then
    match length with
    | none => throw .NameError
    | some length => do
        skip length.toNat
        pure ((none, none), d)
  else if index < i_USER then throw .exception
  else
    match getItem index d.codec.index_to_decl with
    | none => throw .KeyError
    | some (.sample s) => do
        let value ← decodeData version d.refs s.decl
        pure ((some value, some s), d)
    | some _ => throw .AttributeError

/-- `Decoder.decode` -/
def Decoder.decode (d : Decoder) (version : Version) : Parser PyError (Decoded × Decoder) :=
  fun bs => (do
    let (index, length) ← decodeHeaderFuel version bs.length
    d.decodeBody version index length).run bs

/-! ## LabComm2006 -/

/-- What `add_decl` and then `encode` write is read back by two calls of `decode`: the first takes
off what `add_decl` has written and returns the same declaration, and the second takes off the rest
and returns the same value. -/
def RoundTrips (s : SampleDef String) (v : Value) : Prop :=
  ∃ c bs bs', addDecl .LabComm2006 Codec.empty s = .ok (c, bs) ∧
    encode .LabComm2006 c Refs.new v s = .ok bs' ∧
      ∃ t d t' d', (Decoder.new.decode .LabComm2006).run (bs ++ bs') =
          .ok (((none, some t), d), bs') ∧ s.eq t = true ∧
        (d.decode .LabComm2006).run bs' = .ok (((some v, some t'), d'), []) ∧ s.eq t' = true

/-- The tables of an encoder after the first declaration. -/
def firstDecl (s : SampleDef String) : Codec String where
  index_to_decl := [(i_USER, .sample s)]
  decl_to_index := [((TypeDecl.sample s).key, i_USER)]
  decl_index := i_USER + 1

theorem getItem_firstDecl (s : SampleDef String) :
    getItem (TypeDecl.sample s).key (firstDecl s).decl_to_index = some i_USER := by
  rw [firstDecl, getItem_cons, if_pos rfl]

/-- The type number of a declaration has four bytes, and the index that follows has one. -/
theorem addDecl_starts {s : SampleDef String} {c : Codec String} {bs : List UInt8}
    (h : addDecl .LabComm2006 Codec.empty s = .ok (c, bs)) :
    c = firstDecl s ∧ ∃ rest, bs = [0, 0, 0, 2] ++ 0x40 :: rest := by
  have hencode : addDecl .LabComm2006 Codec.empty s =
      encodeDecl .LabComm2006 (firstDecl s) s >>= fun bs => pure (firstDecl s, bs) := rfl
  rw [hencode] at h
  obtain ⟨bs₀, hbs, hpure⟩ := except_bind_ok.mp h
  cases hpure
  refine ⟨rfl, ?_⟩
  rw [encodeDecl, getItem_firstDecl] at hbs
  cases hbs
  exact ⟨_, rfl⟩

/-- The type number of a sample has four bytes. -/
theorem encode_starts {s : SampleDef String} {v : Value} {bs : List UInt8}
    (h : encode .LabComm2006 (firstDecl s) Refs.new v s = .ok bs) :
    ∃ rest, bs = [0, 0, 0, 0x40] ++ rest := by
  rw [encode, encodeTypeNumber, getItem_firstDecl] at h
  obtain ⟨number, hnumber, h⟩ := except_bind_ok.mp h
  obtain ⟨data, _, h⟩ := except_bind_ok.mp h
  cases hnumber
  cases h
  exact ⟨data, rfl⟩

/-- A number whose first byte is that of a short index is a large one. -/
theorem large_of_unpackInt {l r : List UInt8} {i : Int}
    (h : (unpackInt 4).run (0x40 :: l) = .ok (i, r)) : 2 ^ 30 ≤ i := by
  obtain ⟨n, hn, rfl⟩ := run_map_eq_ok.mp h
  obtain ⟨bs, hbs, rfl⟩ := run_map_eq_ok.mp hn
  obtain ⟨hlength, hsplit⟩ := readBytes_length hbs
  cases bs with
  | nil => cases hlength
  | cons b bs =>
      have hb : (0x40 : UInt8) = b := (List.cons.inj hsplit).1
      have hthree : bs.length = 3 := by
        rw [List.length_cons] at hlength
        omega
      have hlt := ofBigEndian_lt bs
      have hvalue : ofBigEndian (b :: bs) = 2 ^ 30 + ofBigEndian bs := by
        rw [← hb, ofBigEndian, hthree]
        rfl
      rw [hthree] at hlt
      rw [signed, Int.bmod_eq_of_le]
      · rw [hvalue]
        omega
      · rw [hvalue]
        norm_num
        omega
      · rw [hvalue]
        norm_num
        omega

/-- A packet that does not start with the version. -/
theorem header_run {i : Int} (hi : i ≠ i_VERSION) {l r : List UInt8} {fuel : Nat}
    (h : (unpackInt 4).run l = .ok (i, r)) :
    (decodeHeaderFuel .LabComm2006 (fuel + 1)).run l = .ok ((i, none), r) := by
  rw [decodeHeaderFuel, run_bind_of_ok (p := decodePacked32 .LabComm2006) h]
  show (if i ≠ i_VERSION then (pure (i, none) : Parser PyError (Int × Option Int)) else _).run r = _
  rw [if_pos hi]
  rfl

/-- A packet of LabComm2006. -/
theorem decode_run {d : Decoder} {i : Int} (hi : i ≠ i_VERSION) {l r : List UInt8}
    (h : (unpackInt 4).run l = .ok (i, r)) :
    (d.decode .LabComm2006).run l = (d.decodeBody .LabComm2006 i none).run r := by
  obtain ⟨fuel, hfuel⟩ : ∃ fuel, l.length = fuel + 1 := by
    cases l with
    | nil =>
        cases h
    | cons b l => exact ⟨l.length, rfl⟩
  show ((decodeHeaderFuel .LabComm2006 l.length >>= fun x =>
    d.decodeBody .LabComm2006 x.1 x.2).run l) = _
  rw [hfuel, run_bind_of_ok (header_run hi h)]

/-- After a declaration from an encoder of LabComm2006 nothing has its index. -/
theorem lookup_none {t : SampleDef String} {i : Int} (hi : 2 ^ 30 ≤ i) :
    getItem (i_USER : Int) (Tables.new.add_decl (.sample t) i).index_to_decl = none := by
  rw [Tables.add_decl, if_neg (by omega)]
  show getItem (i_USER : Int) (setItem i _ _) = none
  rw [getItem_setItem, if_neg]
  · rfl
  · rw [i_USER]
    omega

theorem decodeBody_missing {d : Decoder}
    (h : getItem (i_USER : Int) d.codec.index_to_decl = none) :
    d.decodeBody .LabComm2006 i_USER none = throw .KeyError := by
  rw [Decoder.decodeBody, if_neg (by decide), if_neg (by decide), if_neg (by decide),
    if_neg (by decide), h]

/-- **Versions.** No declaration and no value that an encoder of LabComm2006 has written are read
back by a decoder of LabComm2006: the index of the declaration is written without a version, and
read as four bytes, so that the sample has no declaration. -/
theorem not_roundTrips (s : SampleDef String) (v : Value) : ¬ RoundTrips s v := by
  rintro ⟨c, bs, bs', hadd, hencode, t, d, t', d', hfirst, _, hsecond, _⟩
  obtain ⟨rfl, rest, rfl⟩ := addDecl_starts hadd
  obtain ⟨rest', rfl⟩ := encode_starts hencode
  -- the first call finds a large index
  have htype : Consumes (unpackInt 4) [0, 0, 0, 2] 2 :=
    unpackInt_consumes (w := 4) (i := 2) (by decide)
  have hnumber : Consumes (unpackInt 4) [0, 0, 0, 0x40] 0x40 :=
    unpackInt_consumes (w := 4) (i := 0x40) (by decide)
  rw [List.append_assoc, decode_run (by decide) (htype _), Decoder.decodeBody,
    if_pos (by decide)] at hfirst
  obtain ⟨⟨i, t₁⟩, r, hdef, hpure⟩ := run_bind_eq_ok.mp hfirst
  cases hpure
  obtain ⟨index, r, hindex, hdef⟩ := run_bind_eq_ok.mp hdef
  have hlarge := large_of_unpackInt hindex
  obtain ⟨ints, r, _, hdef⟩ := run_bind_eq_ok.mp hdef
  obtain ⟨decl, r, _, hdef⟩ := run_bind_eq_ok.mp hdef
  cases hdef
  -- the second call looks for the index that was written
  rw [decode_run (by decide) (hnumber _)] at hsecond
  have hmissing := @decodeBody_missing
    ⟨Tables.new.add_decl (.sample (sampleDef ints decl)) i, Refs.new⟩ (lookup_none hlarge)
  have hthrow : (.error PyError.KeyError : Except PyError ((Decoded × Decoder) × List UInt8)) =
      .ok (((some v, some t'), d'), []) := by
    rw [← hsecond]
    exact (congrArg (fun p : Parser PyError (Decoded × Decoder) => p.run rest') hmissing).symm
  cases hthrow

/-- A sample type that is a byte. -/
def byteSample : SampleDef String := sampleDef [("", "a")] (.primitive .byte)

/-- What is written for the byte 7, and that its declaration is not read. -/
theorem not_roundTrips_byte :
    addDecl .LabComm2006 Codec.empty byteSample =
        .ok (firstDecl byteSample, [0, 0, 0, 2, 0x40, 1, 0, 1, 97, 1, 0x21]) ∧
      encode .LabComm2006 (firstDecl byteSample) Refs.new (.int 7) byteSample =
        .ok [0, 0, 0, 0x40, 7] ∧
      (Decoder.new.decode .LabComm2006).run
        [0, 0, 0, 2, 0x40, 1, 0, 1, 97, 1, 0x21, 0, 0, 0, 0x40, 7] = .error .EOFError := by
  refine ⟨rfl, rfl, ?_⟩
  have htype : Consumes (unpackInt 4) [0, 0, 0, 2] 2 :=
    unpackInt_consumes (w := 4) (i := 2) (by decide)
  have hindex : Consumes (unpackInt 4) [0x40, 1, 0, 1] 0x40010001 :=
    unpackInt_consumes (w := 4) (i := 0x40010001) (by decide)
  have hcount : Consumes (unpackInt 4) [97, 1, 0x21, 0] 0x61012100 :=
    unpackInt_consumes (w := 4) (i := 0x61012100) (by decide)
  have hlength : Consumes (unpackInt 4) [0, 0, 0x40, 7] 0x4007 :=
    unpackInt_consumes (w := 4) (i := 0x4007) (by decide)
  have hbytes : ([0, 0, 0, 2, 0x40, 1, 0, 1, 97, 1, 0x21, 0, 0, 0, 0x40, 7] : List UInt8) =
    [0, 0, 0, 2] ++ ([0x40, 1, 0, 1] ++ ([97, 1, 0x21, 0] ++ ([0, 0, 0x40, 7] ++ []))) := rfl
  rw [hbytes, decode_run (by decide) (htype _), Decoder.decodeBody, if_pos (by decide),
    decodeSampleDef]
  -- the first key is longer than what is left
  have hkey : (decodeString .LabComm2006).run ([0, 0, 0x40, 7] ++ []) = .error .EOFError := by
    rw [decodeString, run_bind_of_ok (p := decodePacked32 .LabComm2006) (hlength []),
      if_neg (by decide)]
    rfl
  have hpairs : ∀ n : Nat, n ≠ 0 → (times n (do
      let key ← decodeString .LabComm2006
      let val ← decodeString .LabComm2006
      pure (key, val))).run ([0, 0, 0x40, 7] ++ []) = .error .EOFError := by
    intro n hn
    obtain ⟨k, rfl⟩ := Nat.exists_eq_succ_of_ne_zero hn
    exact run_bind_of_error (run_bind_of_error hkey _) _
  have hints : (decodeIntentions .LabComm2006).run
      ([97, 1, 0x21, 0] ++ ([0, 0, 0x40, 7] ++ [])) = .error .EOFError := by
    rw [decodeIntentions, run_bind_of_ok (p := decodePacked32 .LabComm2006) (hcount _)]
    exact run_bind_of_error (hpairs _ (by decide)) _
  refine run_bind_of_error ?_ _
  rw [run_bind_of_ok (p := decodePacked32 .LabComm2006) (hindex _)]
  exact run_bind_of_error hints _

end LabComm.Python.Versions
