import LabComm.C.Signature
import LabComm.C.SignatureArray
import LabComm.C.Sizeof

set_option autoImplicit false

/-! # The C encoder

`labcomm2014_encoder.c`. Three tables indexed by local index say for which signatures a
`SAMPLE_DEF`, a `SAMPLE_REF` and a `TYPE_DEF` are done. The three functions that register a
signature have one shape (`register`): look at the table, mark the entry, start the writer,
write the definition.

The model also keeps a log of the packets in the order they are written (`Encoder.sent`). That
the bytes that reach the writer are those of the packets in the log is a theorem
(`doRegister_sends` and its siblings), under the bounds an `int` sets on their lengths.
-/

namespace LabComm.C

open Library

/-! ## State -/

/-- The ways the process ends in the encoder. -/
inductive Exit where
  /-- `labcomm2014_error_fatal_global(LABCOMM2014_ERROR_SIGNATURE_NOT_SET, …)` -/
  | signatureNotSet
  deriving DecidableEq

/-- A packet of the log, and the reference indices other than 0 in its body. -/
structure Sent where
  packet : Packet
  refs : List Int
  deriving DecidableEq

variable {ω : WriterAction}

/-- `struct encoder`, with the log. -/
structure Encoder (ω : WriterAction) where
  writer : Writer ω
  registered : SigArray Bool
  sampleRef : SigArray Bool
  typedefs : SigArray Bool
  sent : List Sent

/-- A function of the encoder; it may end the process. -/
abbrev EncoderM (ω : WriterAction) := ExceptT Exit (StateM (Encoder ω))

/-- The tables of the encoder. -/
inductive Table where
  | registered | sampleRef | typedefs
  deriving DecidableEq

/-- A table of the encoder. -/
def Encoder.table (e : Encoder ω) : Table → SigArray Bool
  | .registered => e.registered
  | .sampleRef => e.sampleRef
  | .typedefs => e.typedefs

/-- `*done = 1` -/
def Encoder.setDone (e : Encoder ω) (table : Table) (index : Int) : Encoder ω :=
  match table with
  | .registered => { e with registered := e.registered.set index true }
  | .sampleRef => { e with sampleRef := e.sampleRef.set index true }
  | .typedefs => { e with typedefs := e.typedefs.set index true }

/-- `*done` -/
def Encoder.done (e : Encoder ω) (table : Table) (index : Int) : Bool :=
  (e.table table).get index

/-! ## Helpers -/

/-- A call on `e->writer`. -/
def onWriter {α : Type} (m : StateM (Writer ω) α) : EncoderM ω α :=
  ExceptT.lift fun e => ((m e.writer).1, { e with writer := (m e.writer).2 })

/-- The packet has been written. -/
def logPacket (packet : Packet) (refs : List Int) : EncoderM ω Unit :=
  modify fun e => { e with sent := e.sent ++ [⟨packet, refs⟩] }

/-- `labcomm2014_get_local_index` -/
def getLocalIndex : Option Signature → Except Exit Int
  | none => .ok 0
  | some s => if s.index = 0 then .error .signatureNotSet else .ok s.index

/-- `TODO_sizeof_intentions` -/
def todoSizeofIntentions (s : Signature) : Int := wrap32 (sizeString s.name + 2)

/-- `TODO_encode_intentions`: one intention, with the empty key and the name. -/
def todoEncodeIntentions (s : Signature) : StateM (Writer ω) Unit := do
  let _ ← writePacked32 1
  let _ ← writePacked32 0
  let _ ← writeString s.name

/-- `sig_size` -/
def sigSize (_ : UInt8) : Option Signature → StateT Int (Except Exit) Unit
  | some s => do
      let idx ← getLocalIndex (some s)
      modify fun result => wrap32 (result + sizePacked32 (toUnsigned idx))
  | none => modify fun result => wrap32 (result + 1)

/-- `calc_sig_encoded_size` -/
def calcSigEncodedSize (s : Signature) : Except Exit Int := do
  let (_, result) ← (mapSignature sigSize false s).run 0
  pure result

/-- `write_sig_tree_byte` -/
def writeSigTreeByte (b : UInt8) : Option Signature → EncoderM ω Unit
  | some s => do
      let idx ← getLocalIndex (some s)
      let _ ← onWriter (writePacked32 (toUnsigned idx))
  | none => onWriter (writeRawByte b)

/-- The bytes of a definition: tag, length, index, intentions and a signature of `size` bytes
that `body` writes. -/
def writeDefinition (tag : Nat) (index : Int) (s : Signature) (size : Int)
    (body : EncoderM ω Unit) : EncoderM ω Unit := do
  let length := wrap32 (sizePacked32 (toUnsigned index) + todoSizeofIntentions s +
    sizePacked32 (toUnsigned size) + size)
  let _ ← onWriter (writePacked32 tag)
  let _ ← onWriter (writePacked32 (toUnsigned length))
  let _ ← onWriter (writePacked32 (toUnsigned index))
  onWriter (todoEncodeIntentions s)
  let _ ← onWriter (writePacked32 (toUnsigned size))
  body

/-! ## Registration -/

/-- What is done after a successful start: `define` writes the packet, the writer is ended, and
its error field is the result. -/
def finish (define : EncoderM ω Unit) (packet : Packet) : EncoderM ω Int := do
  define
  logPacket packet []
  let _ ← onWriter writerEnd
  return (← get).writer.error

/-- What `do_sample_register`, `do_ref_register` and `internal_reg_type` have in common. The
entry is marked before the writer is started, and stays marked when that fails. -/
def register (table : Table) (s : Signature) (define : Int → EncoderM ω Unit)
    (packet : Int → Packet) : EncoderM ω Int := do
  let index ← getLocalIndex (some s)
  if index ≤ 0 then
    return -EINVAL
  if (← get).done table index then
    return -EINVAL
  modify fun e => e.setDone table index
  let err ← onWriter writerStart
  if err = -EALREADY then
    return 0
  if err ≠ 0 then
    return err
  finish (define index) (packet index)

/-- The bytes of the flat signature, one after the other. -/
def writeFlatSignature (s : Signature) : EncoderM ω Unit :=
  s.bytes.forM fun b => onWriter (writeRawByte b)

/-- `do_sample_register` -/
def doSampleRegister (s : Signature) : EncoderM ω Int :=
  register .registered s
    (fun index => writeDefinition LABCOMM_SAMPLE_DEF index s s.size (writeFlatSignature s))
    (fun index => .sampleDef (toUnsigned index) [nameIntention s.name] s.bytes)

/-- `do_ref_register` -/
def doRefRegister (s : Signature) : EncoderM ω Int :=
  register .sampleRef s
    (fun index => writeDefinition LABCOMM_SAMPLE_REF index s s.size (writeFlatSignature s))
    (fun index => .sampleRef (toUnsigned index) [nameIntention s.name] s.bytes)

/-- The items of a hierarchical signature. -/
def SignatureData.items : SignatureData → List SigItem
  | .sigdefEnd => []
  | .sigdefBytes b bs rest => (b :: bs).map SigItem.byte ++ rest.items
  | .sigdefSignature s rest => SigItem.typeId (toUnsigned s.index) :: rest.items

/-- `internal_reg_type`, which `do_type_register` calls with `flatten` false. -/
def doTypeRegister (s : Signature) : EncoderM ω Int :=
  register .typedefs s
    (fun index => do
      let size ← calcSigEncodedSize s
      writeDefinition LABCOMM_TYPE_DEF index s size (mapSignature writeSigTreeByte false s))
    (fun index => .typeDef (toUnsigned index) [nameIntention s.name] s.treedata.items)

/-- The type id of a binding; `labcomm2014_get_local_type_index` is the local index. -/
def boundTypeIndex (s : Signature) (hasDeps : Bool) : Except Exit Int :=
  if hasDeps then getLocalIndex (some s) else .ok LABCOMM_BIND_SELF

/-- The bytes of a binding. -/
def writeBinding (sindex tindex : Int) : EncoderM ω Unit := do
  let length := wrap32 (sizePacked32 (toUnsigned sindex) + sizePacked32 (toUnsigned tindex))
  let _ ← onWriter (writePacked32 LABCOMM_TYPE_BINDING)
  let _ ← onWriter (writePacked32 (toUnsigned length))
  let _ ← onWriter (writePacked32 (toUnsigned sindex))
  let _ ← onWriter (writePacked32 (toUnsigned tindex))

/-- `do_type_bind` -/
def doTypeBind (s : Signature) (hasDeps : Bool) : EncoderM ω Int := do
  let sindex ← getLocalIndex (some s)
  let tindex ← boundTypeIndex s hasDeps
  if sindex ≤ 0 ∨ (hasDeps ∧ tindex ≤ 0) then
    return -EINVAL
  let err ← onWriter writerStart
  if err = -EALREADY then
    return 0
  if err ≠ 0 then
    return err
  finish (writeBinding sindex tindex) (.typeBinding (toUnsigned sindex) (toUnsigned tindex))

/-! ## Samples -/

/-- `do_sample_ref_to_index`, where a reference is known by the local index of its signature. -/
def doSampleRefToIndex (sampleRef : SigArray Bool) : Option Nat → Int
  | none => 0
  | some s => if sampleRef.get s then s else 0

/-- The function pointer `encoder->sample_ref_to_index` the generated encoders call. -/
def Encoder.refs (e : Encoder ω) : RefTables where
  toIndex := doSampleRefToIndex e.sampleRef
  toRef _ := none
  toIndex_none := rfl
  toRef_zero := noRefs.toRef_zero

mutual

/-- The indices other than 0 that stand for the references of a value. -/
def refIndices (refs : RefTables) : DataType → Value → List Int
  | .prim .sample, .ref s => if refs.toIndex s = 0 then [] else [refs.toIndex s]
  | .user _ type, v => refIndices refs type v
  | .struct fields, .struct vs => refIndicesFields refs fields vs
  | .array elem _, .array _ a => a.flatMap (refIndices refs elem)
  | _, _ => []

/-- The same of the fields, in order. -/
def refIndicesFields (refs : RefTables) : Fields → List Value → List Int
  | .cons _ _ type rest, v :: vs => refIndices refs type v ++ refIndicesFields refs rest vs
  | _, _ => []

end

/-- The bytes of a sample; `refs` are the reference indices of the encoder. -/
def writeSample (refs : RefTables) (index length : Int) (type : DataType) (v : Value) :
    EncoderM ω Int := do
  let _ ← onWriter (writePacked32 (toUnsigned index))
  let result ← onWriter (writePacked32 (toUnsigned length))
  if result ≠ 0 then
    return result
  onWriter (cEncode refs type v)

/-- `do_encode` of a sample of type `type`, with `signature->encoded_size` and `encode` the
functions that were generated for it. -/
def doEncode (s : Signature) (type : DataType) (v : Value) : EncoderM ω Int := do
  let index ← getLocalIndex (some s)
  let length := (cSizeof type v).getD 0
  let e ← get
  if !e.registered.get index then
    return -EINVAL
  let result ← onWriter writerStart
  if result = -EALREADY then
    return 0
  if result ≠ 0 then
    let _ ← onWriter writerEnd
    return result
  let result ← writeSample e.refs index length type v
  logPacket (.sample (toUnsigned index) (wire e.refs type v)) (refIndices e.refs type v)
  let _ ← onWriter writerEnd
  return result

/-- `labcomm2014_internal_sizeof` -/
def internalSizeof (s : Signature) (type : DataType) (v : Value) : Int :=
  let length := (cSizeof type v).getD 0
  wrap32 (sizePacked32 (toUnsigned s.index) + sizePacked32 (toUnsigned length) + length)

/-- `internal_encoder_new`: the tables are empty, and the version is sent whatever the writer's
start returns. -/
def encoderNew : StateM (Writer ω) (Encoder ω) := do
  let _ ← writerStart
  let _ ← writePacked32 LABCOMM_VERSION
  let _ ← writePacked32 (toUnsigned (sizeString CURRENT_VERSION))
  let _ ← writeString CURRENT_VERSION
  let _ ← writerEnd
  let w ← get
  return ⟨w, .init, .init, .init, [⟨.version CURRENT_VERSION, []⟩]⟩

end LabComm.C
