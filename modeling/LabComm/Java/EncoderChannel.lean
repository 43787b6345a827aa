import LabComm.Compiler.GeneratedRuns

set_option autoImplicit false

/-! # The Java encoder

`EncoderChannel.java` and `EncoderRegistry.java`, as far as declarations are registered, and the
dispatchers that are generated for the declarations of a specification. A call may end in an
exception; the channel can be used afterwards, so the state is kept.

The classes of the declarations are told apart by their names, which the compiler checks to be
distinct. The indices are an `int` that does not overflow.
-/

namespace LabComm.Java

open Library Compiler

/-! ## Dispatchers -/

/-- A line of the generated `emitSignature`: some bytes, or the id of a class. -/
inductive EmitLine where
  | encodeBytes (bytes : List UInt8)
  | encodeTypeId (sampleClass : Name)
  deriving DecidableEq

/-- `SignatureLine.Java_emitSignature` -/
def emitLine : SignatureLine → Option EmitLine
  | .typeRef name _ => some (.encodeTypeId name)
  | .comment => some (.encodeBytes [])
  | .int data => (getIntBytes data 2014).map .encodeBytes
  | .intentions is => (getIntentionBytes is).map .encodeBytes

/-- What a `SampleDispatcher` has for the encoder. -/
structure SampleDispatcher where
  sampleClass : Name
  name : Name
  isSample : Bool
  hasDependencies : Bool
  /-- `getSignature()`, which throws for a typedef. -/
  signature : Option (List UInt8)
  /-- What `encodeTypeDef` does. -/
  typeDef : List EmitLine
  deriving DecidableEq

/-- `getTypeDeclTag()` -/
def SampleDispatcher.typeDeclTag (d : SampleDispatcher) : Nat :=
  if d.isSample then LABCOMM_SAMPLE_DEF else LABCOMM_TYPE_DEF

/-- `SignatureList.Java_emitSignature` of the hierarchical signature. -/
def emitSignature (t : DataType) : Option (List EmitLine) := do
  let lines ← genSigLine t
  lines.mapM emitLine

/-- What `encodeTypeDef` does: the type of a sample without dependencies is not encoded. -/
def emitTypeDef (h : IterationOrder Name) (d : Decl) : Option (List EmitLine) :=
  if !d.isSampleDecl || hasDependencies h d then emitSignature d.type else some []

/-- `Java_emitDispatcher` -/
def emitDispatcher (h : IterationOrder Name) (d : Decl) : Option SampleDispatcher := do
  let typeDef ← emitTypeDef h d
  if d.isSampleDecl then
    let signature ← flatBytes 2014 d.type
    pure ⟨d.name, d.name, true, hasDependencies h d, some signature, typeDef⟩
  else
    pure ⟨d.name, d.name, false, hasDependencies h d, none, typeDef⟩

/-- A generated class: its dispatcher, and the dispatchers that `registerTypeDeps` gives to
`Encoder.register`, in order. -/
structure GeneratedClass where
  dispatcher : SampleDispatcher
  typeDeps : List SampleDispatcher

/-- `registerTypeDeps`: for each dependency its own dependencies, and then itself. -/
def registerTypeDeps (classes : List GeneratedClass) (deps : List Name) :
    List SampleDispatcher :=
  deps.flatMap fun name =>
    match classes.find? fun c => c.dispatcher.sampleClass = name with
    | none => []
    | some c => c.typeDeps ++ [c.dispatcher]

/-- `Java_emitClass` for the declarations in order, after those of `classes`; a typedef that is
not referenced has no dispatcher. -/
def emitClasses (h : IterationOrder Name) (referenced : Name → Bool)
    (classes : List GeneratedClass) : List Decl → Option (List GeneratedClass)
  | [] => some classes
  | d :: decls => do
      let dispatcher ← emitDispatcher h d
      emitClasses h referenced
        (if d.isSampleDecl || referenced d.name then
          classes ++ [⟨dispatcher, registerTypeDeps classes (typeDependencies h d)⟩]
        else classes) decls

/-- The classes of a specification. -/
def emitJava (intentionOrder : IterationOrder Intention) (h : IterationOrder Name)
    (spec : Specification) : Option (List GeneratedClass) :=
  emitClasses h (isReferenced h (spec.resolve intentionOrder)) [] (spec.resolve intentionOrder)

/-! ## Writers -/

/-- What is thrown. -/
inductive JavaException where
  /-- An `IOException` of the writer. -/
  | writer
  /-- The `IOException` of `getTag`. -/
  | notRegistered (sampleClass : Name)
  /-- The `UTFDataFormatException` of `writeUTF`. -/
  | utfDataFormat
  /-- An `Error`. -/
  | error
  deriving DecidableEq

/-- A `Writer`, whose calls are numbered: `fails` says which of them throw, and how many of the
bytes have been written then. -/
structure Writer where
  fails : Nat → Option Nat
  calls : Nat
  written : List UInt8

/-- The next `n` calls do not throw. -/
def Writer.Accepts (w : Writer) (n : Nat) : Prop := ∀ i < n, w.fails (w.calls + i) = none

/-! ## State -/

/-- `EncoderRegistry` -/
structure EncoderRegistry where
  userIndex : Nat
  byClass : Name → Option Nat

/-- A registry without entries. -/
def EncoderRegistry.new : EncoderRegistry := ⟨LABCOMM_USER, fun _ => none⟩

/-- `EncoderRegistry.add`, with the registry afterwards. -/
def EncoderRegistry.add (r : EncoderRegistry) (sampleClass : Name) : Nat × EncoderRegistry :=
  match r.byClass sampleClass with
  | some index => (index, r)
  | none => (r.userIndex,
      ⟨r.userIndex + 1, Function.update r.byClass sampleClass (some r.userIndex)⟩)

/-- `EncoderChannel`, with a log of the packets that were ended. -/
structure EncoderChannel where
  writer : Writer
  bytes : List UInt8
  currentTag : Nat
  sampleDefRegistry : EncoderRegistry
  typeDefRegistry : EncoderRegistry
  sent : List Packet

/-- A method of the channel; it may throw. -/
abbrev EncoderM := ExceptT JavaException (StateM EncoderChannel)

/-! ## Packets -/

/-- `writer.write` -/
def write (bytes : List UInt8) : EncoderM Unit := do
  let w := (← get).writer
  match w.fails w.calls with
  | none => modify fun e => { e with
      writer := { w with calls := w.calls + 1, written := w.written ++ bytes } }
  | some n =>
      modify fun e => { e with
        writer := { w with calls := w.calls + 1, written := w.written ++ bytes.take n } }
      throw .writer

/-- `WritePacked32`: each byte is written on its own. -/
def writePacked32 (value : Nat) : EncoderM Unit := (packed32 value).forM fun b => write [b]

def encodeBytes (bytes : List UInt8) : EncoderM Unit :=
  modify fun e => { e with bytes := e.bytes ++ bytes }

def encodePacked32 (value : Nat) : EncoderM Unit := encodeBytes (packed32 value)

/-- `writeUTF` takes no more than 65535 bytes; a name is in ASCII. -/
def encodeString (s : List UInt8) : EncoderM Unit :=
  if 65535 < s.length then
    throw .utfDataFormat
  else do
    encodePacked32 s.length
    encodeBytes s

def begin (tag : Nat) : EncoderM Unit := modify fun e => { e with currentTag := tag, bytes := [] }

/-- `end`; `p` is what the packet is, for the log. -/
def endPacket (p : Packet) : EncoderM Unit := do
  let e ← get
  writePacked32 e.currentTag
  writePacked32 e.bytes.length
  write e.bytes
  modify fun e => { e with bytes := [], sent := e.sent ++ [p] }

/-! ## Registration -/

/-- `getTypeId` -/
def getTypeId (sampleClass : Name) : EncoderM Nat := do
  match (← get).typeDefRegistry.byClass sampleClass with
  | some index => pure index
  | none => throw (.notRegistered sampleClass)

/-- A line of `emitSignature` on the wrapped encoder, which asks this one for the ids. -/
def EmitLine.emit : EmitLine → EncoderM (List SigItem)
  | encodeBytes bytes => pure (bytes.map .byte)
  | encodeTypeId sampleClass => do
      let index ← getTypeId sampleClass
      pure [.typeId index]

/-- `encodeTypeDef` on the wrapped encoder: what its buffer holds afterwards. -/
def encodeTypeDef (d : SampleDispatcher) : EncoderM (List SigItem) := do
  let items ← d.typeDef.mapM EmitLine.emit
  pure items.flatten

/-- `type_def_registry.add` -/
def addTypeDef (d : SampleDispatcher) : EncoderM Nat := do
  let (index, r) := (← get).typeDefRegistry.add d.sampleClass
  modify fun e => { e with typeDefRegistry := r }
  pure index

/-- `sample_def_registry.add` -/
def addSampleDef (d : SampleDispatcher) : EncoderM Nat := do
  let (index, r) := (← get).sampleDefRegistry.add d.sampleClass
  modify fun e => { e with sampleDefRegistry := r }
  pure index

/-- What a definition has between `begin` and `end`: one intention, and the signature. -/
def encodeDefinition (index : Nat) (name : Name) (signature : List UInt8) : EncoderM Unit := do
  encodePacked32 index
  encodePacked32 1
  encodePacked32 0
  encodeString name
  encodePacked32 signature.length
  encodeBytes signature

/-- The branch of `registerTypeDef` that is taken when `getTag` throws. -/
def defineType (d : SampleDispatcher) : EncoderM Nat := do
  let index ← addTypeDef d
  let items ← encodeTypeDef d
  begin LABCOMM_TYPE_DEF
  encodeDefinition index d.name (items.flatMap SigItem.bytes)
  endPacket (.typeDef index [nameIntention d.name] items)
  pure index

def registerTypeDef (d : SampleDispatcher) : EncoderM Nat := do
  match (← get).typeDefRegistry.byClass d.sampleClass with
  | some index => pure index
  | none => defineType d

def bindType (sampleId typeId : Nat) : EncoderM Unit := do
  begin LABCOMM_TYPE_BINDING
  encodePacked32 sampleId
  encodePacked32 typeId
  endPacket (.typeBinding sampleId typeId)

/-- The SAMPLE_DEF of `registerSample`. -/
def defineSample (d : SampleDispatcher) : EncoderM Nat := do
  let index ← addSampleDef d
  begin d.typeDeclTag
  match d.signature with
  | none => throw .error
  | some signature =>
      encodeDefinition index d.name signature
      endPacket (.sampleDef index [nameIntention d.name] signature)
      pure index

/-- The type that a sample is bound to. -/
def sampleType (d : SampleDispatcher) : EncoderM Nat :=
  if d.hasDependencies then registerTypeDef d else pure LABCOMM_BIND_SELF.toNat

def registerSample (d : SampleDispatcher) : EncoderM Unit := do
  let index ← defineSample d
  let tindex ← sampleType d
  bindType index tindex

/-- `EncoderChannel.register` -/
def register (d : SampleDispatcher) : EncoderM Unit :=
  if d.typeDeclTag = LABCOMM_SAMPLE_DEF then
    registerSample d
  else if d.typeDeclTag = LABCOMM_TYPE_DEF then do
    let _ ← registerTypeDef d
  else
    throw .error

/-- The generated `register` of a class: the dependencies, and then the class itself. -/
def GeneratedClass.register (c : GeneratedClass) : EncoderM Unit :=
  (c.typeDeps ++ [c.dispatcher]).forM Java.register

/-- What the constructor sends. -/
def sendVersion : EncoderM Unit := do
  begin LABCOMM_VERSION
  encodeString CURRENT_VERSION
  endPacket (.version CURRENT_VERSION)

/-- The channel before anything is sent. -/
def EncoderChannel.start (w : Writer) : EncoderChannel := ⟨w, [], 0, .new, .new, []⟩

/-- The constructor: the channel, unless the version cannot be written. -/
def newChannel (w : Writer) : Except JavaException EncoderChannel :=
  match sendVersion.run (.start w) with
  | (.ok _, e) => .ok e
  | (.error x, _) => .error x

end LabComm.Java
