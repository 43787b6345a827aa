import LabComm.C.DecoderReads
import LabComm.C.Signature
import LabComm.C.SignatureArray

set_option autoImplicit false

/-! # The C decoder

`labcomm2014_decoder.c`. Four tables: the registered sample types by local index (`locals`), the
local index of each index of the sender (`remoteToLocal`), and the same two for references.

An access to a table that does not fit (`SigArray.Fits`) ends the process in the model
(`needEntry`): the offset of the entry overflows an `int`, or the pointer to it is null.

A handler is user code; the model keeps a log of its calls (`Decoder.calls`) and takes it that a
handler does not call the decoder.
-/

namespace LabComm.C

open Library

/-! ## State -/

/-- The ways the process ends in the decoder. -/
inductive DecoderExit where
  /-- `labcomm2014_error_fatal_global(LABCOMM2014_ERROR_SIGNATURE_NOT_SET, …)` -/
  | signatureNotSet
  /-- `labcomm2014_error_warning(…, LABCOMM2014_ERROR_DEC_NO_REG_SIGNATURE, …)`, which calls
  `exit` -/
  | noRegSignature
  /-- `strcmp` is called on the name of a definition that has none. -/
  | nullName
  /-- `strcmp` or `strlen` is called on a string there was no memory for. -/
  | nullString
  /-- The table has no entry for the index, nor room for one. Only a registration tells that there
  is no memory, with `-ENOMEM`, and it loses the table. -/
  | lostTable
  deriving DecidableEq

/-- A handler function and the context it is called with. -/
structure Handler where
  function : Nat
  context : Nat
  deriving DecidableEq

/-- A function that decodes the body of a packet: the one generated for a sample type, or one of
the two for type packets. -/
inductive DecodeFunction where
  | sample (type : DataType)
  | rawTypeDef
  | typeBinding

/-- `struct sample_entry` -/
structure SampleEntry where
  remoteIndex : Int
  signature : Option Signature
  decode : Option DecodeFunction
  handler : Handler

instance : Inhabited SampleEntry := ⟨⟨0, none, none, ⟨0, 0⟩⟩⟩

/-- What a handler is called with. -/
inductive HandlerValue where
  | sample (v : Value)
  | rawTypeDef (index : Int) (name : Option (List UInt8)) (signature : List UInt8)
  | typeBinding (sampleIndex typeIndex : Int)

/-- A call of a handler. -/
structure HandlerCall where
  handler : Handler
  value : HandlerValue

variable {φ : Host}

/-- `struct decoder`, with the log of the handler calls. -/
structure Decoder (φ : Host) where
  reader : Reader φ
  versionOk : Bool
  locals : SigArray SampleEntry
  remoteToLocal : SigArray Int
  localRef : SigArray (Option Signature)
  remoteToLocalRef : SigArray Int
  calls : List HandlerCall

/-- `labcomm2014_decoder_new` -/
def decoderNew (r : Reader φ) : Decoder φ := ⟨r, false, .init, .init, .init, .init, []⟩

/-- A function of the decoder; it may end the process. -/
abbrev DecoderM (φ : Host) := ExceptT DecoderExit (StateM (Decoder φ))

/-- A call on `d->reader`. -/
def onReader {α : Type} (m : StateM (Reader φ) α) : DecoderM φ α :=
  ExceptT.lift fun d => ((m d.reader).1, { d with reader := (m d.reader).2 })

/-- There is an entry for the index, or room for it. -/
def Host.HasEntry {α : Type} [Inhabited α] (φ : Host) (table : DecoderTable) (t : SigArray α)
    (index : Int) : Prop := t.Fits (φ.sizeof table) (φ.memory table) index

instance {α : Type} [Inhabited α] (table : DecoderTable) (t : SigArray α) (index : Int) :
    Decidable (φ.HasEntry table t index) := inferInstanceAs (Decidable (SigArray.Fits ..))

/-- An access with `LABCOMM_SIGNATURE_ARRAY_REF` is made. -/
def needEntry {α : Type} [Inhabited α] (table : DecoderTable) (t : SigArray α) (index : Int) :
    DecoderM φ Unit :=
  if φ.HasEntry table t index then pure () else throw .lostTable

/-- `labcomm2014_get_local_index` -/
def localIndexOf (s : Signature) : Except DecoderExit Int :=
  if s.index = 0 then .error .signatureNotSet else .ok s.index

/-! ## Registration -/

/-- `do_register_sample`, with the decoder generated for a sample of type `type`. -/
def doRegisterSample (s : Signature) (type : DataType) (handler : Handler) : DecoderM φ Int := do
  let localIndex ← localIndexOf s
  if localIndex ≤ 0 then
    return localIndex
  needEntry .locals (← get).locals localIndex
  modify fun d => { d with
    locals := d.locals.set localIndex ⟨0, some s, some (.sample type), handler⟩ }
  return localIndex

/-- `labcomm2014_decoder_register_labcomm2014_type_def` and `…_type_binding`. -/
def registerTag (tag : Int) (decode : DecodeFunction) (handler : Handler) : DecoderM φ Int := do
  needEntry .locals (← get).locals tag
  needEntry .remoteToLocal (← get).remoteToLocal tag
  modify fun d => { d with
    locals := d.locals.set tag ⟨tag, none, some decode, handler⟩
    remoteToLocal := d.remoteToLocal.set tag tag }
  return tag

/-- `labcomm2014_decoder_register_labcomm2014_type_def` -/
def registerTypeDef (handler : Handler) : DecoderM φ Int :=
  registerTag LABCOMM_TYPE_DEF .rawTypeDef handler

/-- `labcomm2014_decoder_register_labcomm2014_type_binding` -/
def registerTypeBinding (handler : Handler) : DecoderM φ Int :=
  registerTag LABCOMM_TYPE_BINDING .typeBinding handler

/-- `do_ref_register`: a new entry of `localRef` also clears the entry of `remoteToLocalRef` of
the same number. -/
def doRefRegisterDecoder (s : Signature) : DecoderM φ Int := do
  let localIndex ← localIndexOf s
  if localIndex ≤ 0 then
    return localIndex
  needEntry .localRef (← get).localRef localIndex
  if ((← get).localRef.get localIndex).isSome then
    return localIndex
  needEntry .remoteToLocalRef (← get).remoteToLocalRef localIndex
  modify fun d => { d with
    localRef := d.localRef.set localIndex (some s)
    remoteToLocalRef := d.remoteToLocalRef.set localIndex 0 }
  return localIndex

/-- `do_index_to_sample_ref` -/
def Decoder.indexToSampleRef (d : Decoder φ) (index : Int) : Option Signature :=
  let localIndex := d.remoteToLocalRef.get index
  if localIndex ≠ 0 then d.localRef.get localIndex else none

/-- The reference of a value; it is known by the local index of its signature. -/
def Decoder.toRef (d : Decoder φ) (index : Int) : Option Nat :=
  (d.indexToSampleRef index).map fun s => s.index.toNat

/-! ## Definitions -/

/-- The characters of a C string. -/
def cString (s : List UInt8) : List UInt8 := s.takeWhile (· ≠ 0)

/-- The comparison of a registered signature with a received one: sizes, names and bytes, in that
order. -/
def compareSignature (s : Signature) (name : Option (List UInt8)) (bytes : List UInt8) :
    Except DecoderExit Bool :=
  if s.size ≠ bytes.length then
    .ok false
  else
    match name with
    | none => .error .nullName
    | some name => .ok (cString s.name = cString name && s.bytes = bytes)

/-- The loop of `handle_sample_def`, where `result` is the value of the variable. It stays inside
of `locals`; `remoteToLocal` may have to grow for the index of the sender. -/
def handleSampleDefFrom (remoteIndex : Int) (name : Option (List UInt8)) (bytes : List UInt8)
    (result : Int) : List Int → DecoderM φ Int
  | [] => return result
  | i :: indices => do
      let entry := (← get).locals.get i
      match entry.signature with
      | none => handleSampleDefFrom remoteIndex name bytes (-ENOENT) indices
      | some s =>
          if ← compareSignature s name bytes then
            needEntry .remoteToLocal (← get).remoteToLocal remoteIndex
            modify fun d => { d with
              locals := d.locals.set i { entry with remoteIndex := remoteIndex }
              remoteToLocal := d.remoteToLocal.set remoteIndex i }
            return remoteIndex
          else
            handleSampleDefFrom remoteIndex name bytes (-ENOENT) indices

/-- `handle_sample_def`: `result` is not initialised before the loop. -/
def handleSampleDef (uninit : Int) (read : ReadDefinition) : DecoderM φ Int := do
  handleSampleDefFrom read.remoteIndex read.name read.signature uninit (← get).locals.indices

/-- The loop of `handle_sample_ref`. -/
def handleSampleRefFrom (remoteIndex : Int) (name : Option (List UInt8)) (bytes : List UInt8)
    (result : Int) : List Int → DecoderM φ Int
  | [] => return result
  | i :: indices => do
      match (← get).localRef.get i with
      | none => handleSampleRefFrom remoteIndex name bytes (-ENOENT) indices
      | some s =>
          if s.signature.isNone then
            handleSampleRefFrom remoteIndex name bytes (-ENOENT) indices
          else if ← compareSignature s name bytes then
            needEntry .remoteToLocalRef (← get).remoteToLocalRef remoteIndex
            modify fun d => { d with
              remoteToLocalRef := d.remoteToLocalRef.set remoteIndex i }
            return remoteIndex
          else
            handleSampleRefFrom remoteIndex name bytes (-ENOENT) indices

/-- `handle_sample_ref` -/
def handleSampleRef (uninit : Int) (read : ReadDefinition) : DecoderM φ Int := do
  handleSampleRefFrom read.remoteIndex read.name read.signature uninit (← get).localRef.indices

/-- The end of `decode_sample_def_or_ref`: a definition with a name and the result `-ENOENT` ends
the process. -/
def freeSignatureName (name : Option (List UInt8)) (result : Int) : DecoderM φ Int :=
  if name.isSome ∧ result = -ENOENT then
    throw .noRegSignature
  else
    return result

/-- `decode_sample_def_or_ref` -/
def decodeSampleDefOrRef (uninit : Int) (kind : Nat) : DecoderM φ Int := do
  match ← onReader readDefinition with
  | .error (result, name) => freeSignatureName name result
  | .ok read =>
      if kind = LABCOMM_SAMPLE_DEF then
        let result ← handleSampleDef uninit read
        freeSignatureName read.name result
      else if kind = LABCOMM_SAMPLE_REF then
        let result ← handleSampleRef uninit read
        freeSignatureName read.name (if result = -ENOENT then LABCOMM_SAMPLE_REF else result)
      else
        freeSignatureName read.name (-EINVAL)

/-! ## Samples and type packets -/

/-- `call_handler` -/
def callHandler (handler : Handler) (value : HandlerValue) : DecoderM φ Unit :=
  modify fun d =>
    if d.reader.error ≥ 0 then { d with calls := d.calls ++ [⟨handler, value⟩] } else d

/-- What `decode_type_binding` reads. -/
def readTypeBinding : StateM (Reader φ) (Option (Int × Int)) := do
  let sampleIndex := wrap32 (← readPacked32)
  checked (fun _ => none) do
    let typeIndex := wrap32 (← readPacked32)
    checked (fun _ => none) (pure (some (sampleIndex, typeIndex)))

/-- A decode function, with `call_handler` as its `handle`. -/
def DecodeFunction.run (handler : Handler) : DecodeFunction → DecoderM φ Unit
  | .sample type => do
      let v ← onReader (cEmitDecoder (← get).toRef type)
      callHandler handler (.sample v)
  | .rawTypeDef => do
      match ← onReader readDefinition with
      | .error _ => pure ()
      | .ok read => callHandler handler (.rawTypeDef read.remoteIndex read.name read.signature)
  | .typeBinding => do
      match ← onReader readTypeBinding with
      | none => pure ()
      | some (sampleIndex, typeIndex) => callHandler handler (.typeBinding sampleIndex typeIndex)

/-- `lookup_h`: the local index, and the decode function with its handler. -/
def lookupH (remoteIndex : Int) : DecoderM φ (Int × Option (DecodeFunction × Handler)) := do
  needEntry .remoteToLocal (← get).remoteToLocal remoteIndex
  modify fun d => { d with remoteToLocal := d.remoteToLocal.ref remoteIndex }
  let localIndex := (← get).remoteToLocal.get remoteIndex
  if localIndex ≠ 0 then
    needEntry .locals (← get).locals localIndex
    modify fun d => { d with locals := d.locals.ref localIndex }
    let entry := (← get).locals.get localIndex
    return (localIndex, entry.decode.map fun decode => (decode, entry.handler))
  else
    return (localIndex, none)

/-- `decode_and_handle` -/
def decodeAndHandle (remoteIndex : Int) : DecoderM φ Int := do
  let (localIndex, found) ← lookupH remoteIndex
  match found with
  | none => return -ENOENT
  | some (decode, handler) =>
      decode.run handler
      let error := (← get).reader.error
      return if error < 0 then error else localIndex

/-! ## Packets -/

/-- `decode_pragma`, without the call of `strlen` on null. -/
def readPragma (len : Int) : StateM (Reader φ) (Option Int) := do
  let type ← readString
  checked some do
    match type with
    | none => pure none
    | some type => some <$> readerSkip (wrap32 (len - sizeString type)) LABCOMM_PRAGMA

/-- `decode_pragma` -/
def decodePragma (len : Int) : DecoderM φ Int := do
  match ← onReader (readPragma len) with
  | none => throw .nullString
  | some result => return result

/-- The version that is received. -/
def readVersion : StateM (Reader φ) (Except Int (Option (List UInt8))) := do
  let version ← readString
  checked .error (pure (.ok version))

/-- The branch of `do_decode_one` for the version. -/
def decodeVersion : DecoderM φ Int := do
  match ← onReader readVersion with
  | .error error => return error
  | .ok none => throw .nullString
  | .ok (some version) =>
      if cString version = CURRENT_VERSION then
        modify fun d => { d with versionOk := true }
        return LABCOMM_VERSION
      else
        return -ECONNRESET

/-- A type packet nobody handles is skipped. -/
def decodeTypePacket (remoteIndex length : Int) : DecoderM φ Int := do
  let result ← decodeAndHandle remoteIndex
  if result = -ENOENT then
    onReader (readerSkip length remoteIndex)
  else
    return result

/-- `do_decode_one` after the header of the packet. -/
def decodeBody (uninit remoteIndex length : Int) : DecoderM φ Int := do
  if remoteIndex = LABCOMM_VERSION then
    decodeVersion
  else if (← get).versionOk = false then
    return -ECONNRESET
  else if remoteIndex = LABCOMM_SAMPLE_DEF then
    decodeSampleDefOrRef uninit LABCOMM_SAMPLE_DEF
  else if remoteIndex = LABCOMM_SAMPLE_REF then
    decodeSampleDefOrRef uninit LABCOMM_SAMPLE_REF
  else if remoteIndex = LABCOMM_TYPE_DEF then
    decodeTypePacket remoteIndex length
  else if remoteIndex = LABCOMM_TYPE_BINDING then
    decodeTypePacket remoteIndex length
  else if remoteIndex = LABCOMM_PRAGMA then
    decodePragma length
  else if remoteIndex < LABCOMM_USER then
    onReader (readerSkip length remoteIndex)
  else
    decodeAndHandle remoteIndex

/-- The tag and the length of a packet. -/
def readHeader : StateM (Reader φ) (Except Int (Int × Int)) := do
  let remoteIndex := wrap32 (← readPacked32)
  checked .error do
    let length := wrap32 (← readPacked32)
    checked .error (pure (.ok (remoteIndex, length)))

/-- `do_decode_one`; `uninit` is what the uninitialised variable of `handle_sample_def` or
`handle_sample_ref` happens to hold. -/
def doDecodeOne (uninit : Int) : DecoderM φ Int := do
  match ← onReader readHeader with
  | .error error => return error
  | .ok (remoteIndex, length) => decodeBody uninit remoteIndex length

end LabComm.C
