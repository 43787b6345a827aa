import LabComm.C.DecoderSteps

set_option autoImplicit false

/-! # Runs of the decoder

Any sequence of registrations and received packets on a decoder. A packet arrives when the reader
has no error and the packet is what it reads next; where the packet ends in the buffer and what
comes after it is up to the environment. This module says what the decoder does with each kind of
packet when it arrives.
-/

namespace LabComm.C

open Library

variable {φ : Host}

/-! ## Events -/

/-- A call of the program, or a packet for `do_decode_one`, with the reader it is read from and
what the variable that is not initialised happens to hold. -/
inductive DecoderEvent (φ : Host) where
  | registerSample (s : Signature) (type : DataType) (handler : Handler)
  | registerTypeDef (handler : Handler)
  | registerTypeBinding (handler : Handler)
  | registerRef (s : Signature)
  | receive (p : Packet) (r : Reader φ) (uninit : Int)

/-- What the decoder is made to do. -/
def DecoderEvent.function : DecoderEvent φ → DecoderM φ Int
  | registerSample s type handler => doRegisterSample s type handler
  | registerTypeDef handler => LabComm.C.registerTypeDef handler
  | registerTypeBinding handler => LabComm.C.registerTypeBinding handler
  | registerRef s => doRefRegisterDecoder s
  | receive _ r uninit => do
      modify fun d => d.withReader r
      doDecodeOne uninit

/-- An event in a run of a decoder. -/
abbrev DecoderStep (φ : Host) := Step (DecoderEvent φ) (Decoder φ) DecoderExit Int

/-- The events of a run of a new decoder, up to the one that ends the process. -/
def decoderSteps (r : Reader φ) (events : List (DecoderEvent φ)) : List (DecoderStep φ) :=
  trace DecoderEvent.function (decoderNew r) events

/-- The packet is what the reader has to deliver next. -/
def Arrives (p : Packet) (r : Reader φ) : Prop :=
  r.error = 0 ∧ ∃ rest, r.unread = p.bytes ++ rest

/-- A reader whose file has come to its end. -/
def endOfFile : Host := .of (-5) (by decide)

/-- A packet that is alone in the buffer when it arrives. -/
def readerOf (p : Packet) : Reader φ := ⟨p.bytes, 0, 0, [], noSupply, noError φ⟩

theorem readerOf_arrives (p : Packet) : Arrives p (readerOf (φ := φ) p) :=
  ⟨rfl, [], by simp [Reader.unread, readerOf]⟩

/-- The version packet of the current version. -/
def currentVersion : Packet := .version CURRENT_VERSION

theorem currentVersion_wellFormed : currentVersion.WellFormed := ⟨trivial, by decide⟩

/-- The event that a packet arrives alone in the buffer. -/
def arrival (p : Packet) : DecoderEvent φ := .receive p (readerOf p) 0

/-- The signature has the index of a user type. -/
def Signature.HasIndex (s : Signature) : Prop := LABCOMM_USER ≤ s.index ∧ s.index < 2 ^ 31

/-- The event registers the signature, as a sample type or as a reference. -/
def DecoderEvent.Registers (s : Signature) : DecoderEvent φ → Prop
  | registerSample s' _ _ => s' = s
  | registerRef s' => s' = s
  | _ => False

/-- The signatures have user indices, each its own, and differ in name or bytes. -/
structure Distinct (K : Signature → Prop) : Prop where
  hasIndex : ∀ s, K s → s.HasIndex
  index : ∀ s s', K s → K s' → s.index = s'.index → s = s'
  content : ∀ s s', K s → K s' → SameSignature s s'.name s'.bytes → s = s'

/-- The signatures that a list of events registers. -/
def Registered (events : List (DecoderEvent φ)) (s : Signature) : Prop :=
  ∃ e ∈ events, e.Registers s

/-! ## Registrations -/

theorem Signature.HasIndex.pos {s : Signature} (h : s.HasIndex) : 0 < s.index := by
  have := h.1
  unfold LABCOMM_USER at this
  omega

theorem localIndexOf_run {s : Signature} (h : s.HasIndex) (d : Decoder φ) :
    (liftM (localIndexOf s) : DecoderM φ Int).run d = (.ok s.index, d) := by
  rw [localIndexOf, if_neg h.pos.ne']
  rfl

/-- What a registration of a sample type changes. -/
def Decoder.register (d : Decoder φ) (s : Signature) (type : DataType) (handler : Handler) :
    Decoder φ :=
  { d with locals := d.locals.set s.index ⟨0, some s, some (.sample type), handler⟩ }

theorem doRegisterSample_run {s : Signature} (h : s.HasIndex) (type : DataType)
    (handler : Handler) {d : Decoder φ} (hroom : φ.HasEntry .locals d.locals s.index) :
    (doRegisterSample s type handler).run d = (.ok s.index, d.register s type handler) := by
  have hget : (get : DecoderM φ (Decoder φ)).run d = (.ok d, d) := rfl
  rw [doRegisterSample, run_bind_ok (localIndexOf_run h d), if_neg h.pos.not_ge, run_bind_ok hget,
    run_bind_ok (needEntry_run hroom d)]
  rfl

/-- What a registration of a handler for type packets changes. -/
def Decoder.registerTag (d : Decoder φ) (tag : Int) (decode : DecodeFunction)
    (handler : Handler) : Decoder φ :=
  { d with
    locals := d.locals.set tag ⟨tag, none, some decode, handler⟩
    remoteToLocal := d.remoteToLocal.set tag tag }

/-- There are entries for a tag with a handler of its own. -/
def Decoder.RoomForTag (d : Decoder φ) (tag : Int) : Prop :=
  φ.HasEntry .locals d.locals tag ∧ φ.HasEntry .remoteToLocal d.remoteToLocal tag

theorem registerTag_run {tag : Int} (decode : DecodeFunction) (handler : Handler)
    {d : Decoder φ} (hroom : d.RoomForTag tag) :
    (registerTag tag decode handler).run d = (.ok tag, d.registerTag tag decode handler) := by
  have hget : (get : DecoderM φ (Decoder φ)).run d = (.ok d, d) := rfl
  rw [LabComm.C.registerTag, run_bind_ok hget, run_bind_ok (needEntry_run hroom.1 d),
    run_bind_ok hget, run_bind_ok (needEntry_run hroom.2 d)]
  rfl

/-- What a registration of a reference changes. -/
def Decoder.registerRef (d : Decoder φ) (s : Signature) : Decoder φ :=
  if (d.localRef.get s.index).isSome then
    d
  else
    { d with
      localRef := d.localRef.set s.index (some s)
      remoteToLocalRef := d.remoteToLocalRef.set s.index 0 }

/-- There are entries for a reference that is registered. -/
def Decoder.RoomForRef (d : Decoder φ) (index : Int) : Prop :=
  φ.HasEntry .localRef d.localRef index ∧
    ((d.localRef.get index).isNone → φ.HasEntry .remoteToLocalRef d.remoteToLocalRef index)

theorem doRefRegisterDecoder_run {s : Signature} (h : s.HasIndex) {d : Decoder φ}
    (hroom : d.RoomForRef s.index) :
    (doRefRegisterDecoder s).run d = (.ok s.index, d.registerRef s) := by
  have hget : (get : DecoderM φ (Decoder φ)).run d = (.ok d, d) := rfl
  rw [doRefRegisterDecoder, run_bind_ok (localIndexOf_run h d), if_neg h.pos.not_ge, run_bind_ok hget,
    run_bind_ok (needEntry_run hroom.1 d), run_bind_ok hget, Decoder.registerRef]
  by_cases hsome : (d.localRef.get s.index).isSome = true
  · rw [if_pos hsome, if_pos hsome]
    rfl
  · rw [if_neg hsome, if_neg hsome, run_bind_ok hget,
      run_bind_ok (needEntry_run (hroom.2 (by simpa using hsome)) d)]
    rfl

/-- Without room in the tables the process is lost at a reference. -/
theorem doRefRegisterDecoder_lost {s : Signature} (h : s.HasIndex) {d : Decoder φ}
    (hlost : ¬ d.RoomForRef s.index) :
    ((doRefRegisterDecoder s).run d).1 = .error .lostTable := by
  have hget : (get : DecoderM φ (Decoder φ)).run d = (.ok d, d) := rfl
  rw [doRefRegisterDecoder, run_bind_ok (localIndexOf_run h d), if_neg h.pos.not_ge, run_bind_ok hget]
  by_cases hlocal : φ.HasEntry .localRef d.localRef s.index
  · have hremote : ¬ ((d.localRef.get s.index).isNone →
        φ.HasEntry .remoteToLocalRef d.remoteToLocalRef s.index) := fun hr => hlost ⟨hlocal, hr⟩
    rw [Classical.not_imp] at hremote
    rw [run_bind_ok (needEntry_run hlocal d), run_bind_ok hget,
      if_neg (by simpa using hremote.1), run_bind_ok hget,
      run_bind_error (needEntry_lost hremote.2 d)]
  · rw [run_bind_error (needEntry_lost hlocal d)]

/-! ## Packets -/

theorem definition_intentionsFit {index : Nat} {intentions : List Intention}
    {signature : List UInt8} (hlen : (definitionBytes index intentions signature).length < 2 ^ 31) :
    ∀ i ∈ intentions, Intention.Fits i := by
  intro i hi
  obtain ⟨pre, post, rfl⟩ := List.append_of_mem hi
  have hkey := length_le_counted i.key
  have hvalue := length_lt_counted i.value
  simp only [definitionBytes, intentionsBytes, List.length_append, List.flatMap_append,
    List.flatMap_cons, Intention.bytes] at hlen
  exact ⟨by omega, by omega, fun _ => by omega⟩

theorem definitionFits {index : Nat} {intentions : List Intention} {signature : List UInt8}
    (hindex : index < 2 ^ 31) (hfew : intentions.length < 128)
    (hlen : (definitionBytes index intentions signature).length < 2 ^ 31) :
    DefinitionFits index intentions signature :=
  ⟨hindex, hfew, definition_intentionsFit hlen,
    lt_of_le_of_lt (length_le_definitionBytes _ _ _) hlen⟩

/-- The reader of a packet that arrives, behind the tag and the length. -/
theorem Arrives.header {p : Packet} {r : Reader φ} (htag : p.tag < 2 ^ 31)
    (hlen : p.body.length < 2 ^ 31) (h : Arrives p r) :
    (readHeader r).1 = .ok ((p.tag : Int), (p.body.length : Int)) ∧
      (readHeader r).2.error = 0 ∧ ∃ rest, (readHeader r).2.unread = p.body ++ rest := by
  obtain ⟨h0, rest, hu⟩ := h
  have hbytes : r.unread = packed32 p.tag ++ packed32 p.body.length ++ (p.body ++ rest) := by
    rw [hu, Packet.bytes, counted]
    simp only [List.append_assoc]
  obtain ⟨hread, herror, hrest⟩ :=
    (readHeader_parses htag hlen).reads r _ (not_not.mpr h0) hbytes
  exact ⟨hread, not_not.mp herror, rest, hrest⟩

/-- A packet is decoded from its body on, unless its header could not be read. -/
theorem doDecodeOne_run (uninit : Int) (d : Decoder φ) :
    (doDecodeOne uninit).run d =
      match (readHeader d.reader).1 with
      | .error error => (.ok error, d.withReader (readHeader d.reader).2)
      | .ok (tag, length) =>
          (decodeBody uninit tag length).run (d.withReader (readHeader d.reader).2) := by
  rw [doDecodeOne, run_bind_ok (onReader_run readHeader d)]
  cases (readHeader d.reader).1 with
  | error error => rfl
  | ok header => rfl

/-- The tag and the length of a packet have been read. -/
theorem receive_header_of {p : Packet} {r : Reader φ} (htag : p.tag < 2 ^ 31)
    (hlen : p.body.length < 2 ^ 31) (h : Arrives p r) (uninit : Int) (d : Decoder φ) :
    ∃ (r' : Reader φ) (rest : List UInt8),
      (DecoderEvent.receive p r uninit).function.run d =
        (decodeBody uninit p.tag p.body.length).run (d.withReader r') ∧
      r'.error = 0 ∧ r'.unread = p.body ++ rest := by
  obtain ⟨hread, h0, rest, hu⟩ := h.header htag hlen
  refine ⟨(readHeader r).2, rest, ?_, h0, hu⟩
  have hrun : (DecoderEvent.receive p r uninit).function.run d =
      (doDecodeOne uninit).run (d.withReader r) := rfl
  rw [hrun, doDecodeOne_run, show (d.withReader r).reader = r from rfl, hread]
  rfl

/-- The decoder has read the tag and the length of the packet that arrives. -/
theorem receive_header {p : Packet} {r : Reader φ} (hwf : p.WellFormed) (h : Arrives p r)
    (uninit : Int) (d : Decoder φ) :
    ∃ (r' : Reader φ) (rest : List UInt8),
      (DecoderEvent.receive p r uninit).function.run d =
        (decodeBody uninit p.tag p.body.length).run (d.withReader r') ∧
      r'.error = 0 ∧ r'.unread = p.body ++ rest :=
  receive_header_of hwf.tag_lt hwf.length h uninit d

theorem decodeBody_version (uninit length : Int) :
    decodeBody (φ := φ) uninit LABCOMM_VERSION length = decodeVersion := by
  rw [decodeBody, if_pos rfl]

/-- Until the version has been seen no other packet is looked at. -/
theorem decodeBody_refused {d : Decoder φ} (hv : d.versionOk = false) {remoteIndex : Int}
    (htag : remoteIndex ≠ LABCOMM_VERSION) (uninit length : Int) :
    (decodeBody uninit remoteIndex length).run d = (.ok (-ECONNRESET), d) := by
  have hget : (get : DecoderM φ (Decoder φ)).run d = (.ok d, d) := rfl
  rw [decodeBody, if_neg htag, run_bind_ok hget, if_pos hv]
  rfl

/-- What is done with a packet when the version has been seen. -/
theorem decodeBody_accepted {d : Decoder φ} (hv : d.versionOk = true) {remoteIndex : Int}
    (htag : remoteIndex ≠ LABCOMM_VERSION) (uninit length : Int) :
    (decodeBody uninit remoteIndex length).run d =
      (if remoteIndex = LABCOMM_SAMPLE_DEF then
        decodeSampleDefOrRef uninit LABCOMM_SAMPLE_DEF
      else if remoteIndex = LABCOMM_SAMPLE_REF then
        decodeSampleDefOrRef uninit LABCOMM_SAMPLE_REF
      else if remoteIndex = LABCOMM_TYPE_DEF then decodeTypePacket remoteIndex length
      else if remoteIndex = LABCOMM_TYPE_BINDING then decodeTypePacket remoteIndex length
      else if remoteIndex = LABCOMM_PRAGMA then decodePragma length
      else if remoteIndex < LABCOMM_USER then onReader (readerSkip length remoteIndex)
      else decodeAndHandle remoteIndex).run d := by
  have hget : (get : DecoderM φ (Decoder φ)).run d = (.ok d, d) := rfl
  rw [decodeBody, if_neg htag, run_bind_ok hget, if_neg (by rw [hv]; decide)]

/-- The decoder after a version. -/
def Decoder.seeVersion (d : Decoder φ) (s : List UInt8) : Decoder φ :=
  { d with versionOk := d.versionOk || decide (cString s = CURRENT_VERSION) }

theorem receive_version {s : List UInt8} {r : Reader φ} (hwf : (Packet.version s).WellFormed)
    (h : Arrives (.version s) r) (uninit : Int) (d : Decoder φ) :
    ∃ result d', (DecoderEvent.receive (.version s) r uninit).function.run d =
        (.ok result, d') ∧ SameTables (d.seeVersion s) d' ∧ d'.calls = d.calls := by
  obtain ⟨r', rest, hrun, hr0, hru⟩ := receive_header hwf h uninit d
  have hs : s.length + 1 < 2 ^ 31 := lt_of_le_of_lt (length_lt_counted s) hwf.length
  obtain ⟨r'', hread, _, _⟩ :=
    onReader_reads (d := d.withReader r') (readVersion_parses hs) hr0 hru
  rw [Packet.tag, decodeBody_version, decodeVersion, run_bind_ok hread] at hrun
  dsimp only at hrun
  by_cases hcur : cString s = CURRENT_VERSION
  · rw [if_pos hcur] at hrun
    refine ⟨_, _, hrun, ⟨?_, fun _ => rfl, fun _ => rfl, fun _ => rfl, fun _ => rfl⟩, rfl⟩
    show true = (d.versionOk || decide (cString s = CURRENT_VERSION))
    rw [decide_eq_true hcur, Bool.or_true]
  · rw [if_neg hcur] at hrun
    refine ⟨_, _, hrun, ⟨?_, fun _ => rfl, fun _ => rfl, fun _ => rfl, fun _ => rfl⟩, rfl⟩
    show d.versionOk = (d.versionOk || decide (cString s = CURRENT_VERSION))
    rw [decide_eq_false hcur, Bool.or_false]

/-! ### Definitions -/

/-- A definition has been read and is compared with what is registered; its index is kept in an
`int`. -/
theorem receive_sampleDef_wrap {k : Nat} {intentions : List Intention} {signature : List UInt8}
    {r : Reader φ} {d : Decoder φ} (hk : k < 2 ^ 32)
    (hlen : (definitionBytes k intentions signature).length < 2 ^ 31)
    (h : Arrives (.sampleDef k intentions signature) r) (hfew : intentions.length < 128)
    (hv : d.versionOk = true) (uninit : Int) :
    ∃ r', (DecoderEvent.receive (.sampleDef k intentions signature) r uninit).function.run d =
      (handleSampleDef uninit ⟨wrap32 k, nameFrom none intentions, signature⟩ >>= fun result =>
        freeSignatureName (nameFrom none intentions) result).run (d.withReader r') := by
  obtain ⟨r', rest, hrun, hr0, hru⟩ :=
    receive_header_of (p := .sampleDef k intentions signature) (by rw [Packet.tag]; decide) hlen
      h uninit d
  have hsize := lt_of_le_of_lt (length_le_definitionBytes k intentions signature) hlen
  obtain ⟨r'', hread, _, _⟩ := onReader_reads (d := d.withReader r')
    (readDefinition_parses_wrap hk hfew (definition_intentionsFit hlen) hsize) hr0 hru
  refine ⟨r'', ?_⟩
  rw [hrun, Packet.tag, decodeBody_accepted (d := d.withReader r') hv (by decide), if_pos rfl,
    decodeSampleDefOrRef, run_bind_ok hread]
  dsimp only
  rw [if_pos rfl]
  rfl

theorem receive_sampleDef {k : Nat} {intentions : List Intention} {signature : List UInt8}
    {r : Reader φ} {d : Decoder φ} (hwf : (Packet.sampleDef k intentions signature).WellFormed)
    (h : Arrives (.sampleDef k intentions signature) r) (hfew : intentions.length < 128)
    (hv : d.versionOk = true) (uninit : Int) :
    ∃ r', (DecoderEvent.receive (.sampleDef k intentions signature) r uninit).function.run d =
      (handleSampleDef uninit ⟨k, nameFrom none intentions, signature⟩ >>= fun result =>
        freeSignatureName (nameFrom none intentions) result).run (d.withReader r') := by
  have hk := hwf.ids.2
  have hrun := receive_sampleDef_wrap (show k < 2 ^ 32 by omega) hwf.length h hfew hv uninit
  rwa [wrap32_natCast hk] at hrun

theorem receive_sampleRef_wrap {k : Nat} {intentions : List Intention} {signature : List UInt8}
    {r : Reader φ} {d : Decoder φ} (hk : k < 2 ^ 32)
    (hlen : (definitionBytes k intentions signature).length < 2 ^ 31)
    (h : Arrives (.sampleRef k intentions signature) r) (hfew : intentions.length < 128)
    (hv : d.versionOk = true) (uninit : Int) :
    ∃ r', (DecoderEvent.receive (.sampleRef k intentions signature) r uninit).function.run d =
      (handleSampleRef uninit ⟨wrap32 k, nameFrom none intentions, signature⟩ >>= fun result =>
        freeSignatureName (nameFrom none intentions)
          (if result = -ENOENT then LABCOMM_SAMPLE_REF else result)).run (d.withReader r') := by
  obtain ⟨r', rest, hrun, hr0, hru⟩ :=
    receive_header_of (p := .sampleRef k intentions signature) (by rw [Packet.tag]; decide) hlen
      h uninit d
  have hsize := lt_of_le_of_lt (length_le_definitionBytes k intentions signature) hlen
  obtain ⟨r'', hread, _, _⟩ := onReader_reads (d := d.withReader r')
    (readDefinition_parses_wrap hk hfew (definition_intentionsFit hlen) hsize) hr0 hru
  refine ⟨r'', ?_⟩
  rw [hrun, Packet.tag, decodeBody_accepted (d := d.withReader r') hv (by decide),
    if_neg (by decide), if_pos rfl, decodeSampleDefOrRef, run_bind_ok hread]
  dsimp only
  rw [if_neg (by decide), if_pos rfl]
  rfl

theorem receive_sampleRef {k : Nat} {intentions : List Intention} {signature : List UInt8}
    {r : Reader φ} {d : Decoder φ} (hwf : (Packet.sampleRef k intentions signature).WellFormed)
    (h : Arrives (.sampleRef k intentions signature) r) (hfew : intentions.length < 128)
    (hv : d.versionOk = true) (uninit : Int) :
    ∃ r', (DecoderEvent.receive (.sampleRef k intentions signature) r uninit).function.run d =
      (handleSampleRef uninit ⟨k, nameFrom none intentions, signature⟩ >>= fun result =>
        freeSignatureName (nameFrom none intentions)
          (if result = -ENOENT then LABCOMM_SAMPLE_REF else result)).run (d.withReader r') := by
  have hk := hwf.ids.2
  have hrun := receive_sampleRef_wrap (show k < 2 ^ 32 by omega) hwf.length h hfew hv uninit
  rwa [wrap32_natCast hk] at hrun

/-- No other result than `-ENOENT` ends the process. -/
theorem freeSignatureName_ok {result : Int} (h : result ≠ -ENOENT)
    (name : Option (List UInt8)) (d : Decoder φ) :
    (freeSignatureName name result).run d = (.ok result, d) := by
  rw [freeSignatureName, if_neg (fun hand => h hand.2)]
  rfl

theorem freeSignatureName_nameless (result : Int) (d : Decoder φ) :
    (freeSignatureName none result).run d = (.ok result, d) := by
  rw [freeSignatureName, if_neg (by simp)]
  rfl

theorem handleSampleDef_run (uninit : Int) (read : ReadDefinition) (d : Decoder φ) :
    (handleSampleDef uninit read).run d =
      (handleSampleDefFrom read.remoteIndex read.name read.signature uninit d.locals.indices).run
        d := by
  have hget : (get : DecoderM φ (Decoder φ)).run d = (.ok d, d) := rfl
  rw [handleSampleDef, run_bind_ok hget]

theorem handleSampleRef_run (uninit : Int) (read : ReadDefinition) (d : Decoder φ) :
    (handleSampleRef uninit read).run d =
      (handleSampleRefFrom read.remoteIndex read.name read.signature uninit
        d.localRef.indices).run d := by
  have hget : (get : DecoderM φ (Decoder φ)).run d = (.ok d, d) := rfl
  rw [handleSampleRef, run_bind_ok hget]

/-- The local index of the sample type that matches. -/
def Decoder.defMatch (d : Decoder φ) (name : Option (List UInt8)) (signature : List UInt8) :
    Option Int :=
  name.bind fun name => d.locals.indices.find? (d.matchesDef name signature)

/-- The local index of the reference that matches. -/
def Decoder.refMatch (d : Decoder φ) (name : Option (List UInt8)) (signature : List UInt8) :
    Option Int :=
  name.bind fun name => d.localRef.indices.find? (d.matchesRef name signature)

section Definitions

variable {k : Nat} {intentions : List Intention} {signature : List UInt8} {r : Reader φ}
  {d : Decoder φ} {name : List UInt8}

/-- A definition that matches binds its index to the sample type. -/
theorem receive_sampleDef_bound (hwf : (Packet.sampleDef k intentions signature).WellFormed)
    (h : Arrives (.sampleDef k intentions signature) r) (hfew : intentions.length < 128)
    (hv : d.versionOk = true) (hname : nameFrom none intentions = some name) {i : Int}
    (hfind : d.locals.indices.find? (d.matchesDef name signature) = some i)
    (hroom : φ.HasEntry .remoteToLocal d.remoteToLocal k) (uninit : Int) :
    ∃ r', (DecoderEvent.receive (.sampleDef k intentions signature) r uninit).function.run d =
      (.ok (k : Int), (d.withReader r').bindDef k i) := by
  obtain ⟨r', hrun⟩ := receive_sampleDef hwf h hfew hv uninit
  refine ⟨r', ?_⟩
  have hloop := handleSampleDefFrom_named k name signature uninit d.locals.indices
    (d.withReader r')
  rw [show (d.withReader r').matchesDef name signature = d.matchesDef name signature from rfl,
    hfind] at hloop
  replace hloop := hloop.trans (matchDef_room (d := d.withReader r') hroom i)
  rw [hname] at hrun
  have hk : (k : Int) ≠ -ENOENT := by
    have : (0 : Int) < ENOENT := by decide
    omega
  rw [hrun, run_bind_ok ((handleSampleDef_run _ _ _).trans hloop), freeSignatureName_ok hk]

/-- A definition without a name changes nothing. -/
theorem receive_sampleDef_nameless (hwf : (Packet.sampleDef k intentions signature).WellFormed)
    (h : Arrives (.sampleDef k intentions signature) r) (hfew : intentions.length < 128)
    (hv : d.versionOk = true) (hname : nameFrom none intentions = none)
    (hsize : ∀ i s, (d.locals.get i).signature = some s → s.bytes.length ≠ signature.length)
    (uninit : Int) :
    ∃ result r',
      (DecoderEvent.receive (.sampleDef k intentions signature) r uninit).function.run d =
        (.ok result, d.withReader r') := by
  obtain ⟨r', hrun⟩ := receive_sampleDef hwf h hfew hv uninit
  have hloop := handleSampleDefFrom_nameless k signature uninit d.locals.indices
    (d.withReader r')
  have hno : ¬ (d.locals.indices.any fun i => (d.locals.get i).signature.any fun s =>
      s.bytes.length = signature.length) = true := by
    simp only [List.any_eq_true, Option.any_eq_true, decide_eq_true_eq, not_exists, not_and]
    intro i _ s hs
    exact hsize i s hs
  rw [show (d.withReader r').locals = d.locals from rfl, if_neg hno] at hloop
  rw [hname, run_bind_ok ((handleSampleDef_run _ _ _).trans hloop),
    freeSignatureName_nameless] at hrun
  exact ⟨_, r', hrun⟩

/-- The reference can be compared with those that are registered: it is read in full, and it has
a name or no registered one has its size. -/
def Decoder.Compares (d : Decoder φ) (intentions : List Intention) (signature : List UInt8) :
    Prop :=
  intentions.length < 128 ∧ (nameFrom none intentions = none →
    ∀ i s, d.localRef.get i = some s → s.signature.isSome = true →
      s.bytes.length ≠ signature.length)

/-- A reference that can be compared never ends the process; it is bound when it matches. -/
theorem receive_sampleRef_compared (hwf : (Packet.sampleRef k intentions signature).WellFormed)
    (h : Arrives (.sampleRef k intentions signature) r) (hc : d.Compares intentions signature)
    (hv : d.versionOk = true)
    (hroom : (d.refMatch (nameFrom none intentions) signature).isSome →
      φ.HasEntry .remoteToLocalRef d.remoteToLocalRef k) (uninit : Int) :
    ∃ result r',
      (DecoderEvent.receive (.sampleRef k intentions signature) r uninit).function.run d =
        (.ok result, match d.refMatch (nameFrom none intentions) signature with
          | some i => (d.withReader r').bindRef k i
          | none => d.withReader r') := by
  obtain ⟨r', hrun⟩ := receive_sampleRef hwf h hc.1 hv uninit
  -- a reference that matches nothing is no error: its result is the tag
  have hnot : ∀ result : Int,
      (if result = -ENOENT then (LABCOMM_SAMPLE_REF : Int) else result) ≠ -ENOENT := by
    intro result
    split
    · decide
    · assumption
  rw [Decoder.refMatch] at hroom ⊢
  -- without a name nothing is compared, by the condition on the sizes
  cases hname : nameFrom none intentions with
  | none =>
      have hloop := handleSampleRefFrom_nameless k signature uninit d.localRef.indices
        (d.withReader r') (hc.2 hname)
      rw [hname, run_bind_ok ((handleSampleRef_run _ _ _).trans hloop),
        freeSignatureName_nameless] at hrun
      exact ⟨_, r', hrun⟩
  | some name =>
      have hloop := handleSampleRefFrom_named k name signature uninit d.localRef.indices
        (d.withReader r')
      rw [show (d.withReader r').matchesRef name signature = d.matchesRef name signature from rfl]
        at hloop
      rw [Option.bind_some]
      cases hfind : d.localRef.indices.find? (d.matchesRef name signature) with
      | some i =>
          rw [hname, Option.bind_some, hfind] at hroom
          rw [hfind] at hloop
          replace hloop := hloop.trans (matchRef_room (d := d.withReader r') (hroom rfl) i)
          rw [run_bind_ok ((handleSampleRef_run _ _ _).trans (hname ▸ hloop)),
            freeSignatureName_ok (hnot _)] at hrun
          exact ⟨_, r', hrun⟩
      | none =>
          rw [hfind] at hloop
          rw [run_bind_ok ((handleSampleRef_run _ _ _).trans (hname ▸ hloop)),
            freeSignatureName_ok (hnot _)] at hrun
          exact ⟨_, r', hrun⟩

end Definitions

/-! ### Other packets -/

/-- The decode function of the tag is looked up. -/
def LooksUp (tag : Int) : Prop :=
  tag = LABCOMM_TYPE_DEF ∨ tag = LABCOMM_TYPE_BINDING ∨ LABCOMM_USER ≤ tag

/-- Whatever it finds, `decode_and_handle` returns when it can look. -/
theorem decodeAndHandle_returns {d : Decoder φ} {remoteIndex : Int}
    (hroom : d.CanLookUp remoteIndex) :
    ∃ result d', (decodeAndHandle remoteIndex).run d = (.ok result, d') := by
  cases hfound : d.found remoteIndex with
  | none =>
      obtain ⟨d', hrun, _⟩ := decodeAndHandle_notFound hroom hfound
      exact ⟨_, d', hrun⟩
  | some found =>
      obtain ⟨e, _, _, _, hrest⟩ := decodeAndHandle_run hroom hfound
      obtain ⟨e', _, hrun, _⟩ := decodeRun_callsOnly found.2 found.1 e
      exact ⟨_, e', hrest e' hrun⟩

theorem decodeTypePacket_returns {d : Decoder φ} {remoteIndex : Int}
    (hroom : d.CanLookUp remoteIndex) (length : Int) :
    ∃ result d', (decodeTypePacket remoteIndex length).run d = (.ok result, d') := by
  obtain ⟨result, d', hrun⟩ := decodeAndHandle_returns hroom
  rw [decodeTypePacket, run_bind_ok hrun]
  split
  · exact ⟨_, _, rfl⟩
  · exact ⟨_, _, rfl⟩

/-- A pragma whose type there is memory for is skipped. -/
theorem decodePragma_returns {type data rest : List UInt8} {d : Decoder φ}
    (htype : type.length + 1 < 2 ^ 31) (h0 : d.reader.error = 0)
    (hu : d.reader.unread = counted type ++ data ++ rest) (length : Int) :
    ∃ result d', (decodePragma length).run d = (.ok result, d') := by
  rw [counted, List.append_assoc] at hu
  have hread := (readString_parses (φ := φ) htype).reads d.reader (data ++ rest)
    (not_not.mpr h0) hu
  have hpragma : readPragma length d.reader =
      (some <$> readerSkip (wrap32 (length - sizeString type)) LABCOMM_PRAGMA)
        (readString d.reader).2 := by
    rw [readPragma, stateM_bind, hread.1, checked_ok (not_not.mp hread.2.1)]
  have hsome : (readPragma length d.reader).1 =
      some (readerSkip (wrap32 (length - sizeString type)) LABCOMM_PRAGMA
        (readString d.reader).2).1 := by
    rw [hpragma, stateM_map]
  rw [decodePragma, run_bind_ok (onReader_run _ d), hsome]
  exact ⟨_, _, rfl⟩

theorem sample_tag_ne {k : Nat} (h : UserIndex k) :
    (k : Int) ≠ LABCOMM_TYPE_DEF ∧ (k : Int) ≠ LABCOMM_TYPE_BINDING ∧
      (k : Int) ≠ LABCOMM_PRAGMA := by
  have := h.1
  unfold LABCOMM_USER at this
  unfold LABCOMM_TYPE_DEF LABCOMM_TYPE_BINDING LABCOMM_PRAGMA
  omega

/-- A type packet or a pragma leaves the tables alone. -/
theorem receive_keepsTables {p : Packet} {r : Reader φ} {d : Decoder φ} (hwf : p.WellFormed)
    (h : Arrives p r) (hv : d.versionOk = true)
    (htag : p.tag ≠ LABCOMM_VERSION ∧ p.tag ≠ LABCOMM_SAMPLE_DEF ∧ p.tag ≠ LABCOMM_SAMPLE_REF)
    (hroom : LooksUp p.tag → d.CanLookUp p.tag) (uninit : Int) :
    ∃ result d', (DecoderEvent.receive p r uninit).function.run d = (.ok result, d') ∧
      SameTables d d' := by
  obtain ⟨r', rest, hrun, hr0, hru⟩ := receive_header hwf h uninit d
  obtain ⟨h1, h2, h3⟩ := htag
  rw [decodeBody_accepted (d := d.withReader r') hv (by exact_mod_cast h1),
    if_neg (by exact_mod_cast h2), if_neg (by exact_mod_cast h3)] at hrun
  have hsame : SameTables d (d.withReader r') := (SameTables.refl d).withReader r'
  -- whichever function handles the packet keeps the tables, so that only its return is left
  have hkeeps : ∀ m : DecoderM φ Int, KeepsTables m →
      (∃ result d', m.run (d.withReader r') = (.ok result, d')) →
      ∃ result d', m.run (d.withReader r') = (.ok result, d') ∧ SameTables d d' := by
    rintro m hm ⟨result, d', hok⟩
    have hsame' := hm (d.withReader r')
    rw [hok] at hsame'
    exact ⟨result, d', hok, hsame.trans _ _ _ hsame'⟩
  rw [hrun]
  apply hkeeps
  · repeat' split
    · exact decodeTypePacket_keepsTables _ _
    · exact decodeTypePacket_keepsTables _ _
    · exact decodePragma_keepsTables _
    · exact onReader_keepsTables _
    · exact decodeAndHandle_keepsTables _
  · cases p with
    | version s => exact absurd rfl h1
    | sampleDef index intentions signature => exact absurd rfl h2
    | sampleRef index intentions signature => exact absurd rfl h3
    | typeDef index intentions signature =>
        rw [Packet.tag] at hroom ⊢
        rw [if_pos rfl]
        exact decodeTypePacket_returns (d := d.withReader r') (hroom (.inl rfl)) _
    | typeBinding sindex tindex =>
        rw [Packet.tag] at hroom ⊢
        rw [if_neg (by decide), if_pos rfl]
        exact decodeTypePacket_returns (d := d.withReader r') (hroom (.inr (.inl rfl))) _
    | pragma type data =>
        have htype : type.length + 1 < 2 ^ 31 := by
          have hlt := length_lt_counted type
          have hlen := hwf.length
          simp only [Packet.body, List.length_append] at hlen
          omega
        rw [Packet.tag, if_neg (by decide), if_neg (by decide), if_pos rfl]
        exact decodePragma_returns htype hr0 hru _
    | sample k body =>
        obtain ⟨h4, h5, h63⟩ := sample_tag_ne hwf.ids
        have huser : (LABCOMM_USER : Int) ≤ k := by exact_mod_cast hwf.ids.1
        rw [Packet.tag] at hroom ⊢
        rw [if_neg h4, if_neg h5, if_neg h63, if_neg (by omega)]
        exact decodeAndHandle_returns (d := d.withReader r') (hroom (.inr (.inr huser)))

/-- A sample with a user index is handed to the decode function of its index. -/
theorem receive_sample {k : Nat} {body : List UInt8} {r : Reader φ} {d : Decoder φ}
    (hwf : (Packet.sample k body).WellFormed) (h : Arrives (.sample k body) r)
    (hv : d.versionOk = true) (uninit : Int) :
    ∃ (r' : Reader φ) (rest : List UInt8),
      (DecoderEvent.receive (.sample k body) r uninit).function.run d =
        (decodeAndHandle k).run (d.withReader r') ∧
      r'.error = 0 ∧ r'.unread = body ++ rest := by
  obtain ⟨r', rest, hrun, hr0, hru⟩ := receive_header hwf h uninit d
  refine ⟨r', rest, ?_, hr0, hru⟩
  have hk : (LABCOMM_USER : Int) ≤ k := by exact_mod_cast hwf.ids.1
  have huser : (LABCOMM_USER : Int) = 64 := rfl
  have htags : ((LABCOMM_VERSION : Int) = 1 ∧ (LABCOMM_SAMPLE_DEF : Int) = 2 ∧
    (LABCOMM_SAMPLE_REF : Int) = 3 ∧ (LABCOMM_TYPE_DEF : Int) = 4 ∧
    (LABCOMM_TYPE_BINDING : Int) = 5 ∧ (LABCOMM_PRAGMA : Int) = 63) := by decide
  obtain ⟨t1, t2, t3, t4, t5, t6⟩ := htags
  rw [hrun, Packet.tag, decodeBody_accepted (d := d.withReader r') hv (by omega),
    if_neg (by omega), if_neg (by omega), if_neg (by omega), if_neg (by omega),
    if_neg (by omega), if_neg (by omega)]

/-- The body stands for the value `w` of the type; the sender has the references `refs`. -/
def IsSample (type : DataType) (body : List UInt8) (refs : RefTables) (w : Value) : Prop :=
  (∃ R, WellTyped R type w) ∧ StringsFit type w ∧ body = wire refs type w

/-- The body is a sample of the type, and `v` what the decoder makes of it. -/
def Decoder.Receives (d : Decoder φ) (type : DataType) (body : List UInt8) (v : Value) : Prop :=
  ∃ refs w, IsSample type body refs w ∧ v = mapRefs (refs.seen d.toRef) type w

/-- A sample whose index is bound is handed to the handler of its type. -/
theorem receive_sample_bound {k : Nat} {body : List UInt8} {r : Reader φ} {d : Decoder φ}
    (hwf : (Packet.sample k body).WellFormed) (h : Arrives (.sample k body) r)
    (hv : d.versionOk = true) (hroom : d.CanLookUp k) {type : DataType} {handler : Handler}
    (hfound : d.found k = some (.sample type, handler)) {v : Value}
    (hbody : d.Receives type body v) (uninit : Int) :
    ∃ d', (DecoderEvent.receive (.sample k body) r uninit).function.run d =
        (.ok (d.remoteToLocal.get k), d') ∧ SameTables d d' ∧
      d'.calls = d.calls ++ [⟨handler, .sample v⟩] := by
  obtain ⟨r', rest, hrun, hr0, hru⟩ := receive_sample hwf h hv uninit
  obtain ⟨refs, w, ⟨⟨R, hw⟩, hs, rfl⟩, rfl⟩ := hbody
  obtain ⟨d', hdone, hsame, _, _, hcalls⟩ :=
    decodeAndHandle_sample (d := d.withReader r') hroom hfound refs hw hs hr0 hru
  exact ⟨d', hrun.trans hdone, ((SameTables.refl d).withReader r').trans _ _ _ hsame, hcalls⟩

/-! ## Room in the tables -/

/-- There is room for what a packet with the tag does to the tables, where its body is read by
`r`. -/
structure Decoder.RoomFor (d : Decoder φ) (tag : Int) (r : Reader φ) : Prop where
  sampleDef : tag = LABCOMM_SAMPLE_DEF → ∀ read, (readDefinition r).1 = .ok read →
    (d.defMatch read.name read.signature).isSome →
      φ.HasEntry .remoteToLocal d.remoteToLocal read.remoteIndex
  sampleRef : tag = LABCOMM_SAMPLE_REF → ∀ read, (readDefinition r).1 = .ok read →
    (d.refMatch read.name read.signature).isSome →
      φ.HasEntry .remoteToLocalRef d.remoteToLocalRef read.remoteIndex
  lookUp : LooksUp tag → d.CanLookUp tag

/-- Every access an event makes to a table fits. -/
def Decoder.Room (d : Decoder φ) : DecoderEvent φ → Prop
  | .registerSample s _ _ => φ.HasEntry .locals d.locals s.index
  | .registerTypeDef _ => d.RoomForTag LABCOMM_TYPE_DEF
  | .registerTypeBinding _ => d.RoomForTag LABCOMM_TYPE_BINDING
  | .registerRef s => d.RoomForRef s.index
  | .receive _ r _ => d.versionOk = true →
      ∀ tag length, (readHeader r).1 = .ok (tag, length) → d.RoomFor tag (readHeader r).2

/-- What is read of a definition that arrives, whatever its index. -/
theorem Arrives.definition {p : Packet} {k : Nat} {intentions : List Intention}
    {signature : List UInt8} {r : Reader φ} (hbody : p.body = definitionBytes k intentions signature)
    (htag : p.tag < 2 ^ 31) (hk : k < 2 ^ 31) (hfew : intentions.length < 128)
    (hlen : p.body.length < 2 ^ 31) (h : Arrives p r) :
    (readDefinition (readHeader r).2).1 = .ok ⟨k, nameFrom none intentions, signature⟩ := by
  obtain ⟨_, h0, rest, hu⟩ := h.header htag hlen
  rw [hbody] at hlen hu
  exact ((readDefinition_parses (definitionFits hk hfew hlen)).reads (readHeader r).2 rest
    (not_not.mpr h0) hu).1

section Room

variable {d : Decoder φ} {p : Packet} {r : Reader φ} {uninit : Int} (hwf : p.WellFormed)
  (h : Arrives p r) (hv : d.versionOk = true) (hroom : d.Room (.receive p r uninit))

include hwf h hv hroom

theorem Decoder.Room.packet : d.RoomFor p.tag (readHeader r).2 :=
  hroom hv _ _ (h.header hwf.tag_lt hwf.length).1

theorem Decoder.Room.sampleDef {k : Nat} {intentions : List Intention} {signature : List UInt8}
    (hp : p = .sampleDef k intentions signature) (hfew : intentions.length < 128)
    (hmatch : (d.defMatch (nameFrom none intentions) signature).isSome) :
    φ.HasEntry .remoteToLocal d.remoteToLocal k := by
  subst hp
  exact (hroom.packet hwf h hv).sampleDef rfl _
    (h.definition rfl hwf.tag_lt hwf.ids.2 hfew hwf.length) hmatch

theorem Decoder.Room.sampleRef {k : Nat} {intentions : List Intention} {signature : List UInt8}
    (hp : p = .sampleRef k intentions signature) (hfew : intentions.length < 128)
    (hmatch : (d.refMatch (nameFrom none intentions) signature).isSome) :
    φ.HasEntry .remoteToLocalRef d.remoteToLocalRef k := by
  subst hp
  exact (hroom.packet hwf h hv).sampleRef rfl _
    (h.definition rfl hwf.tag_lt hwf.ids.2 hfew hwf.length) hmatch

theorem Decoder.Room.sample {k : Nat} {body : List UInt8} (hp : p = .sample k body) :
    d.CanLookUp k := by
  subst hp
  exact (hroom.packet hwf h hv).lookUp (.inr (.inr (by exact_mod_cast hwf.ids.1)))

end Room

end LabComm.C
