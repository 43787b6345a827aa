import LabComm.Java.DecoderRegistry
import LabComm.Java.GeneratedWire
import LabComm.Java.MetadataPackets

set_option autoImplicit false

/-! # The loop of the Java decoder

`DecoderChannel.run` with the two registries: definitions are added to them, and a sample goes to
the dispatcher and the handler of its index. The generated decoders are here methods of the channel,
which leave what they have not read also when they throw something, since `processSample` catches
what is not an `IOException` (`refines_readValue`).
-/

namespace LabComm.Java

open Library Compiler

/-! ## Values -/

namespace Generated

open DecoderChannel

variable (c : Channels)

/-- A number of `n` bits in `w` bytes, as `DataInputStream` reads it. -/
def takeBits (w n : Nat) : ChannelM (BitVec n) := do
  let bs ← readTimes w
  pure (BitVec.ofNat n (ofBigEndian bs))

/-- The functions `decodeBoolean`, `decodeByte`, … -/
def readPrim : Prim → ChannelM Value
  | .boolean => do
      let b ← takeBits 1 8
      pure (.boolean (b ≠ 0))
  | .byte => do
      let x ← takeBits 1 8
      pure (.byte x)
  | .short => do
      let x ← takeBits 2 16
      pure (.short x)
  | .int => do
      let x ← takeBits 4 32
      pure (.int x)
  | .long => do
      let x ← takeBits 8 64
      pure (.long x)
  | .float => do
      let bits ← takeBits 4 32
      pure (.float bits)
  | .double => do
      let bits ← takeBits 8 64
      pure (.double bits)
  | .string => do
      let s ← readString (newString c.malformed)
      pure (.string s)
  | .sample => do
      let index ← takeBits 4 32
      pure (((c.getSampleClass index).map Value.sampleClass).getD .null)

/-- The limits of the loops. -/
def readLimits : List Exp → ChannelM (List Int)
  | [] => pure []
  | .integerLiteral value :: dim => do
      let ns ← readLimits dim
      pure ((value : Int) :: ns)
  | .variableSize :: dim => do
      let n ← readPacked32
      let ns ← readLimits dim
      pure (n :: ns)

/-- `n` rounds of a loop. -/
def readRounds : Nat → ChannelM Value → ChannelM (List Value)
  | 0, _ => pure []
  | n + 1, p => do
      let x ← p
      let xs ← readRounds n p
      pure (x :: xs)

/-- The loops, with `new` in front of each. -/
def readRows (p : ChannelM Value) : List Int → ChannelM Value
  | [] => p
  | n :: ns =>
      if n < 0 then throw (.decode .negativeArraySize)
      else do
        let items ← readRounds n.toNat (readRows p ns)
        pure (.array items)

mutual

/-- `DataType.Java_emitDecoder` -/
def readValue : DataType → ChannelM Value
  | .void => pure .null
  | .prim p => readPrim c p
  | .user _ type => readValue type
  | .struct fields => do
      let vs ← readFields fields
      pure (.object vs)
  | .array elem dim => do
      let limits ← readLimits dim
      readRows (readValue elem) limits

/-- The fields of a struct, in order. -/
def readFields : Fields → ChannelM (List Value)
  | .nil => pure []
  | .cons _ _ type rest => do
      let v ← readValue type
      let vs ← readFields rest
      pure (v :: vs)

end

/-! ### They read what the generated decoder reads -/

variable {c}

theorem readBytes_ok {ε ε' : Type} (e : ε) (e' : ε') (n : Nat) (s : List UInt8)
    (r : List UInt8 × List UInt8) :
    (readBytes e n).run s = .ok r ↔ (readBytes e' n).run s = .ok r := by
  show (if n ≤ s.length then Except.ok (s.take n, s.drop n) else .error e) = _ ↔
    (if n ≤ s.length then Except.ok (s.take n, s.drop n) else .error e') = _
  split
  · simp
  · simp

theorem refines_map {α β : Type} {p : Parser CodecException α} {m : ChannelM α}
    (h : Refines p m) (f : α → β) : Refines (f <$> p) (m >>= fun a => pure (f a)) := by
  rw [map_eq_pure_bind]
  exact h.bind fun a => Refines.pure (f a)

theorem refines_bits (w n : Nat) : Refines (readBits w n) (takeBits w n) := by
  refine refines_map (f := fun bs => BitVec.ofNat n (ofBigEndian bs)) fun s a q => ?_
  rw [readTimes, on_ofParser_ok]
  exact readBytes_ok _ _ w s (a, q)

theorem refines_lift {α : Type} {p : JavaParser α} {m : ChannelM α} (h : Refines p m) :
    Refines (lift p) m := by
  intro s a q
  rw [h s a q]
  show _ ↔ (p.run s).mapError CodecException.decode = _
  cases p.run s with
  | ok r => exact ⟨fun hs => hs ▸ rfl, fun hs => congrArg Except.ok (Except.ok.inj hs)⟩
  | error e =>
      constructor
      · intro hs
        cases hs
      · intro hs
        cases hs

theorem refines_string : Refines (lift (decodeString c.malformed))
    (readString (newString c.malformed)) := by
  refine refines_lift ?_
  rw [readString, decodeString]
  refine refines_packed32.bind fun len => ?_
  unfold readArray
  by_cases h : len < 0
  · rw [if_pos h, if_pos h]
    intro s a q
    constructor
    · intro hs
      cases hs
    · intro hs
      cases hs
  · rw [if_neg h, if_neg h]
    exact (Refines.ofParser _ _).bind fun chars => Refines.pure _

theorem readByte_eq_bits :
    (fun b => Value.boolean (b ≠ 0)) <$> readByte (CodecException.decode .eof) =
      (fun x : BitVec 8 => Value.boolean (x ≠ 0)) <$> readBits 1 8 := by
  funext s
  cases s with
  | nil => rfl
  | cons b s =>
      have hbits : (BitVec.ofNat 8 (ofBigEndian [b]) ≠ 0) ↔ b ≠ 0 := by
        rw [ofBigEndian, ofBigEndian, List.length_nil, pow_zero, Nat.mul_one, Nat.add_zero, ne_eq,
          ne_eq, not_iff_not, ← UInt8.toNat_inj, ← BitVec.toNat_inj, BitVec.toNat_ofNat]
        simp [Nat.mod_eq_of_lt b.toNat_lt]
      have hdecide : decide (BitVec.ofNat 8 (ofBigEndian [b]) ≠ 0) = decide (b ≠ 0) :=
        decide_eq_decide.mpr hbits
      show (Except.ok (Value.boolean (decide (b ≠ 0)), s) : Except CodecException _) =
        .ok (.boolean (decide (BitVec.ofNat 8 (ofBigEndian [b]) ≠ 0)), s)
      rw [hdecide]

theorem refines_prim (p : Prim) : Refines (c.decodePrim p) (readPrim c p) := by
  cases p with
  | boolean =>
      rw [Channels.decodePrim, readByte_eq_bits]
      exact refines_map (refines_bits 1 8) _
  | byte => exact refines_map (refines_bits 1 8) _
  | short => exact refines_map (refines_bits 2 16) _
  | int => exact refines_map (refines_bits 4 32) _
  | long => exact refines_map (refines_bits 8 64) _
  | float => exact refines_map (refines_bits 4 32) _
  | double => exact refines_map (refines_bits 8 64) _
  | string => exact refines_map refines_string _
  | sample => exact (refines_bits 4 32).bind fun index => Refines.pure _

theorem refines_limits (dim : List Exp) : Refines (decodeLimits dim) (readLimits dim) := by
  induction dim with
  | nil => exact Refines.pure _
  | cons e dim ih =>
      cases e with
      | integerLiteral value => exact ih.bind fun ns => Refines.pure _
      | variableSize =>
          exact (refines_lift refines_packed32).bind fun n => ih.bind fun ns => Refines.pure _

theorem refines_rounds {p : Reading Value} {m : ChannelM Value} (h : Refines p m) (n : Nat) :
    Refines (times n p) (readRounds n m) := by
  induction n with
  | zero => exact Refines.pure _
  | succ n ih => exact h.bind fun x => ih.bind fun xs => Refines.pure _

theorem refines_rows {p : Reading Value} {m : ChannelM Value} (h : Refines p m) (ds : List Int) :
    Refines (decodeRows p ds) (readRows m ds) := by
  induction ds with
  | nil => exact h
  | cons n ds ih =>
      unfold decodeRows readRows
      by_cases hn : n < 0
      · rw [if_pos hn, if_pos hn]
        intro s a q
        constructor
        · intro hs
          cases hs
        · intro hs
          cases hs
      · rw [if_neg hn, if_neg hn]
        exact refines_map (refines_rounds ih n.toNat) _

mutual

/-- The method of the channel returns what the generated decoder returns. -/
theorem refines_readValue (t : DataType) : Refines (emitDecoder c t) (readValue c t) := by
  cases t with
  | void => exact Refines.pure _
  | prim p =>
      unfold emitDecoder readValue
      exact refines_prim p
  | user name type =>
      unfold emitDecoder readValue
      exact refines_readValue type
  | struct fields =>
      unfold emitDecoder readValue
      exact refines_map (refines_readFields fields) _
  | array elem dim =>
      unfold emitDecoder readValue
      exact (refines_limits dim).bind fun limits => refines_rows (refines_readValue elem) limits

theorem refines_readFields (fields : Fields) :
    Refines (emitDecoderFields c fields) (readFields c fields) := by
  cases fields with
  | nil => exact Refines.pure _
  | cons name intentions type rest =>
      unfold emitDecoderFields readFields
      exact (refines_readValue type).bind fun v =>
        (refines_readFields rest).bind fun vs => Refines.pure _

end

end Generated

/-! ## The channel -/

namespace DecoderSession

/-- What a handler is called with. -/
inductive Sample where
  | typeDef (td : TypeDef String)
  | typeBinding (sampleIndex typeIndex : Int)
  | user (v : Generated.Value)

/-- A call of a handler. -/
structure HandlerCall where
  handler : Nat
  sample : Sample

/-- What a channel runs with: the type of each generated class, which handlers are of the interface
of a class, what a handler throws, the order in which a map is gone through, and the text of bytes
that are not UTF-8. -/
structure Program where
  type : Nat → DataType
  accepts : Nat → SampleClass → Bool
  throws : Nat → Sample → Option HandlerException
  order : DecoderRegistry Nat → IterationOrder Nat
  malformed : List UInt8 → String

/-- `DecoderChannel`, with a log of the calls of handlers. -/
structure Channel where
  input : List UInt8
  defRegistry : DecoderRegistry Nat
  refRegistry : DecoderRegistry Nat
  calls : List HandlerCall

/-- `new DecoderChannel(in)` -/
def Channel.new (input : List UInt8) : Channel := ⟨input, .new, .new, []⟩

/-- What is thrown. -/
inductive SessionException where
  | channel (e : ChannelException)
  | registry (e : RegistryException)
  /-- The version is not the current one. -/
  | version

/-- `catch (IOException ex)` -/
def SessionException.isIOException : SessionException → Bool
  | channel e => e.isIOException
  | registry e => e = .io
  | version => true

/-- A method of the channel that works on its registries. -/
abbrev SessionM (α : Type) := ExceptT SessionException (StateM Channel) α

variable {α : Type}

/-- What is read from `in`. -/
def reading (p : ChannelM α) : SessionM α := ExceptT.mk fun ch =>
  ((p.on ch.input).1.mapError .channel, { ch with input := (p.on ch.input).2 })

/-- The end of a call of `add`: when something is thrown, the registry is as it was. -/
def added (ch : Channel) (set : DecoderRegistry Nat → Channel) :
    Except RegistryException (DecoderRegistry Nat) → Except SessionException Unit × Channel
  | .ok r => (.ok (), set r)
  | .error e => (.error (.registry e), ch)

/-- A call of `add` of `def_registry`. -/
def addToDefs (f : DecoderRegistry Nat → Except RegistryException (DecoderRegistry Nat)) :
    SessionM Unit := ExceptT.mk fun ch =>
  added ch (fun r => { ch with defRegistry := r }) (f ch.defRegistry)

/-- A call of `add` of `ref_registry`. -/
def addToRefs (f : DecoderRegistry Nat → Except RegistryException (DecoderRegistry Nat)) :
    SessionM Unit := ExceptT.mk fun ch =>
  added ch (fun r => { ch with refRegistry := r }) (f ch.refRegistry)

/-- A class as a value. -/
def classNumber : SampleClass → Nat
  | .typeDef => 0
  | .typeBinding => 1
  | .user id => id + 2

variable (w : Program)

/-- `decodeSampleRef` looks up classes in `ref_registry`. -/
def Program.channels (r : DecoderRegistry Nat) : Generated.Channels :=
  ⟨fun _ => none, fun index => ((r.get index.toInt).bind Entry.dispatcher).map fun d =>
    classNumber d.sampleClass, w.malformed⟩

open DecoderChannel

/-- What `processSampleDef` and `processSampleRef` read. -/
def readDefinition : ChannelM (Int × String × List UInt8) := do
  let index ← readPacked32
  let name ← readIntentions (newString w.malformed) ""
  let signatureLength ← readPacked32
  let signature ← readArray signatureLength
  pure (index, name, signature)

/-- `processSampleDef` -/
def processSampleDef : SessionM Unit := do
  let d ← reading (readDefinition w)
  addToDefs fun r => r.addDefinition (w.order r) d.1 d.2.1 (some d.2.2)

/-- `processSampleRef` -/
def processSampleRef : SessionM Unit := do
  let d ← reading (readDefinition w)
  addToRefs fun r => r.addDefinition (w.order r) d.1 d.2.1 (some d.2.2)

/-- `decode` of a class -/
def decodeSample : SampleClass → SessionM Sample
  | .typeDef => do
      let td ← reading (TypeDef.decode (newString w.malformed))
      pure (.typeDef td)
  | .typeBinding => do
      let b ← reading TypeBinding.decode
      pure (.typeBinding b.1 b.2)
  | .user id => do
      let ch ← get
      let v ← reading (Generated.readValue (w.channels ch.refRegistry) (w.type id))
      pure (.user v)

/-- The handler is called. -/
def callHandler (handler : Nat) (sample : Sample) : SessionM Unit := do
  modify fun ch => { ch with calls := ch.calls ++ [⟨handler, sample⟩] }
  match w.throws handler sample with
  | none => pure ()
  | some e => throw (.channel (.handler e))

/-- `decodeAndHandle`: the handler is cast before the sample is decoded. Where it is the other way
round, the type is `void`, and there is nothing to decode. -/
def decodeAndHandle (sampleClass : SampleClass) (handler : Nat) : SessionM Unit :=
  if w.accepts handler sampleClass then do
    let sample ← decodeSample w sampleClass
    callHandler w handler sample
  else throw (.channel (.handler .other))

/-- The dispatcher and the handler of an entry, if it has both. -/
def handling (e : Entry Nat) : Option (Dispatcher × Nat) :=
  e.dispatcher.bind fun d => e.handler.map fun h => (d, h)

/-- `processSample` -/
def processSample (tag : Int) : SessionM Unit := do
  let ch ← get
  match (ch.defRegistry.get tag).bind handling with
  | none => throw (.channel .unhandled)
  | some x => tryCatch (decodeAndHandle w x.1.sampleClass x.2) fun ex =>
      if ex.isIOException then throw ex else pure ()

/-- `processTypeDef` -/
def processTypeDef : SessionM Unit :=
  tryCatch (processSample w LABCOMM_TYPE_DEF) fun _ => do
    let _ ← reading (skipTypeDef (newString w.malformed) "")
    pure ()

/-- `processTypeBinding` -/
def processTypeBinding (len : Int) : SessionM Unit :=
  tryCatch (processSample w LABCOMM_TYPE_BINDING) fun _ => do
    let _ ← reading (readTimes len.toNat)
    pure ()

/-- `processPragma` -/
def processPragma (len : Int) : SessionM Unit := do
  let _ ← reading (readTimes len.toNat)
  pure ()

/-- `Constant.CURRENT_VERSION` -/
def currentVersion : String := "LabComm2014"

/-- The case of `runOne` for the version. -/
def processVersion : SessionM Unit := do
  let version ← reading (readString (newString w.malformed))
  if version = currentVersion then pure () else throw .version

/-- The `switch` of `runOne`, with the value that `done` has after it. -/
def processPacket (tag length : Int) : SessionM Bool :=
  if tag = LABCOMM_VERSION then do
    processVersion w
    pure false
  else if tag = LABCOMM_SAMPLE_DEF then do
    processSampleDef w
    pure false
  else if tag = LABCOMM_SAMPLE_REF then do
    processSampleRef w
    pure false
  else if tag = LABCOMM_TYPE_DEF then do
    processTypeDef w
    pure false
  else if tag = LABCOMM_TYPE_BINDING then do
    processTypeBinding w length
    pure false
  else if tag = LABCOMM_PRAGMA then do
    processPragma length
    pure false
  else do
    processSample w tag
    pure true

/-- One round of the loop in `runOne`. -/
def round : SessionM Bool := do
  let tag ← reading readPacked32
  let length ← reading readPacked32
  processPacket w tag length

/-- `run`, which calls `runOne` again and again, for at most `n` rounds of the loops in these. -/
def run : Nat → SessionM Unit
  | 0 => pure ()
  | n + 1 => do
      let _ ← round w
      run n

/-- `register` -/
def register (d : Dispatcher) (handler : Nat) : SessionM Unit :=
  addToDefs fun r => r.add (w.order r) d (some handler)

/-- `registerSampleRef` -/
def registerSampleRef (d : Dispatcher) : SessionM Unit :=
  addToRefs fun r => r.add (w.order r) d none

/-- Registrations one after the other. -/
def registerAll : List (Dispatcher × Nat) → SessionM Unit
  | [] => pure ()
  | x :: samples => do
      register w x.1 x.2
      registerAll samples

/-- References registered one after the other. -/
def registerRefs : List Dispatcher → SessionM Unit
  | [] => pure ()
  | d :: refs => do
      registerSampleRef w d
      registerRefs refs

/-- A program that registers its sample types and references, and then runs. -/
def receiveAll (samples : List (Dispatcher × Nat)) (refs : List Dispatcher) (n : Nat) :
    SessionM Unit := do
  registerAll w samples
  registerRefs w refs
  run w n

end DecoderSession

end LabComm.Java
