import LabComm.C.DecoderRoom
import LabComm.C.Dispatch
import LabComm.C.EncoderStream
import LabComm.C.SampleRefs
import LabComm.C.SystemTags
import LabComm.C.WriterStatements

set_option autoImplicit false

/-! # From an encoder to a decoder

Any sequence of calls of an encoder, and a decoder that reads what the encoder wrote with
`labcomm2014_decoder_run`. What the two know of each other is what the encoder has been told so
far (`Told`): it determines the packets of the next call (`Told.packets`), and the tables of a
decoder that has read everything up to there (`InStep`). From that, by induction on the calls, the
handlers are called with the samples that were encoded, in their order, each of them once
(`decoderRun_delivers`).
-/

namespace LabComm.C

open Library

variable {ω : WriterAction} {φ : Host}

/-! ## The loop of a decoder -/

/-- `labcomm2014_decoder_run`, for at most `n` rounds; the result is that of the last one. In each
round `uninit` is what a variable that is not initialised holds. -/
def decoderRun (uninit : Nat → Int) : Nat → DecoderM φ (Option Int)
  | 0 => return none
  | n + 1 => do
      let result ← doDecodeOne (uninit n)
      if result > 0 then decoderRun uninit n else return some result

/-- Sample types registered one after the other. -/
def registerSamples : List Registration → DecoderM φ Unit
  | [] => pure ()
  | reg :: regs => do
      let _ ← doRegisterSample reg.signature reg.type reg.handler
      registerSamples regs

/-- References registered one after the other. -/
def registerRefs : List Signature → DecoderM φ Unit
  | [] => pure ()
  | s :: refs => do
      let _ ← doRefRegisterDecoder s
      registerRefs refs

/-- A program that registers its sample types and references, and then reads. -/
def receiveAll (regs : List Registration) (refs : List Signature) (uninit : Nat → Int) (n : Nat) :
    DecoderM φ (Option Int) := do
  registerSamples regs
  registerRefs refs
  decoderRun uninit n

/-! ## What an encoder has been told -/

/-- The signatures that were registered in each table, the latest first. -/
abbrev Told := Table → List Signature

/-- A new encoder has been told nothing. -/
def Told.nothing : Told := fun _ => []

/-- A signature with this index is registered. -/
def Told.has (t : Told) (table : Table) (index : Int) : Bool :=
  (t table).any fun s => s.index = index

/-- A registration, which does nothing the second time. -/
def Told.add (t : Told) (table : Table) (s : Signature) : Told :=
  if t.has table s.index then t else Function.update t table (s :: t table)

/-- The calls of an encoder, registrations all alike. -/
def Told.after (t : Told) : Operation → Told
  | .sampleRegister s => t.add .registered s
  | .refRegister s => t.add .sampleRef s
  | .typeRegister s => t.add .typedefs s
  | .typeBind .. => t
  | .encode .. => t

/-- The index that is sent for a reference. -/
def Told.toIndex (t : Told) : Option Nat → Int
  | none => 0
  | some i => if t.has .sampleRef i then i else 0

/-- The references as they are sent. -/
def Told.refs (t : Told) : RefTables := ⟨t.toIndex, fun _ => none, rfl, noRefs.toRef_zero⟩

/-- The packet of a registration that is not the second one. -/
def Told.definitions (t : Told) (table : Table) (s : Signature) : List Packet :=
  if t.has table s.index then [] else [definition table s]

/-- The packets of a call: a sample is sent if its type is registered. -/
def Told.packets (t : Told) : Operation → List Packet
  | .sampleRegister s => t.definitions .registered s
  | .refRegister s => t.definitions .sampleRef s
  | .typeRegister s => t.definitions .typedefs s
  | .typeBind s hasDeps => [binding s hasDeps]
  | .encode s type v =>
      if t.has .registered s.index then [.sample (toUnsigned s.index) (wire t.refs type v)] else []

/-- The signature of a call. -/
def Operation.signature : Operation → Signature
  | sampleRegister s => s
  | refRegister s => s
  | typeRegister s => s
  | typeBind s _ => s
  | encode s _ _ => s

/-- The packet of the call can be represented. -/
def Operation.Fits : Operation → Prop
  | sampleRegister s => PacketFits .registered s
  | refRegister s => PacketFits .sampleRef s
  | typeRegister s => s.treedata.RefsSet ∧ PacketFits .typedefs s
  | typeBind .. => True
  | encode _ type v => SampleFits type v

section Told

variable {t : Told} {table : Table} {s : Signature}

theorem Told.has_add (t : Told) (table : Table) (s : Signature) (table' : Table) (index : Int) :
    (t.add table s).has table' index =
      (t.has table' index || decide (table' = table ∧ index = s.index)) := by
  unfold Told.add
  by_cases h : t.has table s.index = true
  · rw [if_pos h]
    by_cases hsame : table' = table ∧ index = s.index
    · rw [hsame.1, hsame.2, h, Bool.true_or]
    · rw [decide_eq_false hsame, Bool.or_false]
  · rw [if_neg h, Told.has]
    by_cases htable : table' = table
    · have hself : decide (s.index = index) = decide (index = s.index) :=
        decide_eq_decide.mpr eq_comm
      rw [htable, Function.update_self, List.any_cons, Bool.or_comm, hself]
      simp only [true_and]
      rfl
    · rw [Function.update_of_ne htable]
      simp [htable, Told.has]

theorem Told.mem_add {s' : Signature} {table' : Table} (h : s' ∈ (t.add table s) table') :
    s' ∈ t table' ∨ (table' = table ∧ s' = s) := by
  unfold Told.add at h
  split at h
  · exact .inl h
  · by_cases htable : table' = table
    · rw [htable, Function.update_self] at h
      rw [htable]
      exact (List.mem_cons.mp h).symm.imp_right fun hs => ⟨rfl, hs⟩
    · rw [Function.update_of_ne htable] at h
      exact .inl h

theorem Told.add_of_ne {table' : Table} (h : table' ≠ table) (t : Told) (s : Signature) :
    (t.add table s) table' = t table' := by
  unfold Told.add
  split
  · rfl
  · exact Function.update_of_ne h _ _

theorem Told.add_of_not_has (h : t.has table s.index = false) :
    (t.add table s) table = s :: t table := by
  rw [Told.add, h, if_neg (by decide), Function.update_self]

/-- Everything that was told was in some call. -/
theorem Told.mem_after {op : Operation} {s' : Signature} (h : s' ∈ t.after op table) :
    s' ∈ t table ∨ s' = op.signature := by
  cases op with
  | sampleRegister s => exact (Told.mem_add h).imp_right And.right
  | refRegister s => exact (Told.mem_add h).imp_right And.right
  | typeRegister s => exact (Told.mem_add h).imp_right And.right
  | typeBind s hasDeps => exact .inl h
  | encode s type v => exact .inl h

end Told

/-- A call sends one packet, or none, and then there is nothing new to be told. -/
theorem Told.packets_cases (t : Told) (op : Operation) :
    (∃ p, t.packets op = [p]) ∨ (t.packets op = [] ∧ t.after op = t) := by
  have hdefinitions : ∀ table s, (∃ p, t.definitions table s = [p]) ∨
      (t.definitions table s = [] ∧ t.add table s = t) := by
    intro table s
    unfold Told.definitions Told.add
    split
    · exact .inr ⟨rfl, rfl⟩
    · exact .inl ⟨_, rfl⟩
  cases op with
  | sampleRegister s => exact hdefinitions _ s
  | refRegister s => exact hdefinitions _ s
  | typeRegister s => exact hdefinitions _ s
  | typeBind s hasDeps => exact .inl ⟨_, rfl⟩
  | encode s type v =>
      rw [Told.packets]
      split
      · exact .inl ⟨_, rfl⟩
      · exact .inr ⟨rfl, rfl⟩

/-- The packets of the calls, from what has been told before them on. -/
def Told.stream : Told → List Operation → List Packet
  | _, [] => []
  | t, op :: ops => t.packets op ++ (t.after op).stream ops

theorem Told.stream_length_le (t : Told) (ops : List Operation) :
    (t.stream ops).length ≤ ops.length := by
  induction ops generalizing t with
  | nil => exact le_refl _
  | cons op ops ih =>
      have hrest := ih (t.after op)
      have hone : (t.packets op).length ≤ 1 := by
        rcases t.packets_cases op with ⟨p, hp⟩ | ⟨hp, _⟩
        · rw [hp, List.length_singleton]
        · rw [hp]
          exact Nat.zero_le 1
      rw [Told.stream, List.length_append, List.length_cons]
      omega

/-- Calls one after the other, whatever they return. -/
def callOperations : List Operation → EncoderM ω Unit
  | [] => pure ()
  | op :: ops => do
      let _ ← op.run
      callOperations ops

/-! ## The encoder -/

/-- The tables of the encoder are what it has been told. -/
def Reflects (t : Told) (e : Encoder ω) : Prop :=
  ∀ table index, e.done table index = t.has table index

theorem Reflects.refs {t : Told} {e : Encoder ω} (h : Reflects t e) : e.refs = t.refs := by
  have hindex : doSampleRefToIndex e.sampleRef = t.toIndex := by
    funext s
    cases s with
    | none => rfl
    | some i =>
        show (if e.done .sampleRef i then (i : Int) else 0) = _
        rw [h]
        rfl
  unfold Encoder.refs Told.refs
  simp only [hindex]

theorem Signature.HasIndex.toUnsigned_eq {s : Signature} (h : s.HasIndex) :
    (toUnsigned s.index : Int) = s.index := by
  have := h.2
  exact toUnsigned_of_nonneg h.pos.le (by omega)

theorem Signature.HasIndex.userIndex {s : Signature} (h : s.HasIndex) :
    UserIndex (toUnsigned s.index) := by
  have heq := h.toUnsigned_eq
  have hbounds := h
  unfold Signature.HasIndex at hbounds
  exact ⟨by omega, by omega⟩

section Sending

variable (hω : ω.Flushes) (hstart : ∀ n, ω.start n = 0) {t : Told} {e : Encoder ω}

include hω hstart

/-- A registration sends the definition the first time. -/
theorem doRegister_reflects {table : Table} {s : Signature} (h : Reflects t e) (hs : s.HasIndex)
    (hdef : Definable table s) (hfits : PacketFits table s) :
    ∃ r e', (doRegister table s).run e = (.ok r, e') ∧ Reflects (t.add table s) e' ∧
      e'.writer.written =
        e.writer.written ++ (t.definitions table s).flatMap Packet.bytes := by
  have hpos := hs.pos
  unfold Told.definitions
  by_cases hdone : e.done table s.index = true
  · have hhas : t.has table s.index = true := (h table s.index).symm.trans hdone
    refine ⟨_, e, doRegister_refused hpos.ne' (.inr hdone), ?_, ?_⟩
    · rw [Told.add, if_pos hhas]
      exact h
    · rw [if_pos hhas, List.flatMap_nil, List.append_nil]
  · have hnot : e.done table s.index = false := by simpa using hdone
    have hhas : ¬ t.has table s.index = true := by rw [← h, hnot]; decide
    obtain ⟨w, hrun, _, _, hwritten⟩ := doRegister_sends hω hpos hnot (hstart _) hdef
    refine ⟨_, _, hrun, ?_, ?_⟩
    · intro table' index
      show (e.setDone table s.index).done table' index = _
      rw [Encoder.done_setDone, Told.has_add, h, Bool.or_comm]
    · rw [if_neg hhas, List.flatMap_singleton, ← sentDefinition_eq hfits]
      exact hwritten

/-- **A call of the encoder sends its packets.** -/
theorem operation_sends {op : Operation} (h : Reflects t e) (hs : op.signature.HasIndex)
    (hfits : op.Fits) :
    ∃ r e', op.run.run e = (.ok r, e') ∧ Reflects (t.after op) e' ∧
      e'.writer.written = e.writer.written ++ (t.packets op).flatMap Packet.bytes := by
  cases op with
  | sampleRegister s => exact doRegister_reflects hω hstart h hs (by rintro ⟨⟩) hfits
  | refRegister s => exact doRegister_reflects hω hstart h hs (by rintro ⟨⟩) hfits
  | typeRegister s => exact doRegister_reflects hω hstart h hs (fun _ => hfits.1) hfits.2
  | typeBind s hasDeps =>
      obtain ⟨w, hrun, _, _, hwritten⟩ := doTypeBind_sends hasDeps hω hs.pos (hstart _)
      refine ⟨_, _, hrun, h, ?_⟩
      rw [Told.packets, List.flatMap_singleton]
      exact hwritten
  | encode s type v =>
      obtain ⟨hlit, hv, hlen⟩ := hfits
      have hlt := hlen t.refs
      by_cases hdone : e.done .registered s.index = true
      · have hhas : t.has .registered s.index = true := (h _ _).symm.trans hdone
        obtain ⟨w, hrun, _, _, hwritten⟩ := doEncode_sends type v hω hs.pos.ne' hdone (hstart _)
          (cEmitEncoder_completes e.refs type v hv
            (stringsFit_of_length e.refs type v hv (hlen _)).below)
        refine ⟨_, _, hrun, h, ?_⟩
        rw [Told.packets, if_pos hhas, List.flatMap_singleton, ← h.refs]
        rw [← h.refs] at hlt
        show w.written = _
        rw [hwritten, cSizeof_eq hlit hv hlt, Option.getD_some, toUnsigned_natCast (by omega)]
        rfl
      · have hnot : e.done .registered s.index = false := by simpa using hdone
        have hhas : ¬ t.has .registered s.index = true := by rw [← h, hnot]; decide
        refine ⟨_, _, doEncode_refused type v hs.pos.ne' hnot, h, ?_⟩
        rw [Told.packets, if_neg hhas, List.flatMap_nil, List.append_nil]

/-- **The calls of an encoder send their packets**, one after the other. -/
theorem operations_send {ops : List Operation} (h : Reflects t e)
    (hops : ∀ op ∈ ops, op.signature.HasIndex ∧ op.Fits) :
    ∃ e', (callOperations ops).run e = (.ok (), e') ∧
      e'.writer.written = e.writer.written ++ (t.stream ops).flatMap Packet.bytes := by
  induction ops generalizing t e with
  | nil =>
      refine ⟨e, rfl, ?_⟩
      rw [Told.stream, List.flatMap_nil, List.append_nil]
  | cons op ops ih =>
      obtain ⟨hop, hrest⟩ := List.forall_mem_cons.mp hops
      obtain ⟨r, e', hrun, hreflects, hwritten⟩ := operation_sends hω hstart h hop.1 hop.2
      obtain ⟨e'', hrun', hwritten'⟩ := ih hreflects hrest
      refine ⟨e'', ?_, ?_⟩
      · rw [callOperations, run_bind_ok hrun, hrun']
      · rw [hwritten', hwritten, Told.stream, List.flatMap_append, List.append_assoc]

end Sending

/-! ## What the decoder makes of it -/

/-- What a decoder has registered, the latest first. -/
structure Receiver where
  registered : List Registration
  refs : List Signature

/-- The registration for a sample type of the sender. -/
def Receiver.registration (y : Receiver) (s : Signature) : Option Registration :=
  y.registered.find? fun reg => SameSignature reg.signature s.name s.bytes

/-- The registered reference for a signature of the sender. -/
def Receiver.ref (y : Receiver) (s : Signature) : Option Signature :=
  y.refs.find? fun s' => s'.signature.isSome && SameSignature s' s.name s.bytes

/-- What becomes of a reference: it is null unless both sides have registered it. -/
def Receiver.translate (y : Receiver) (t : Told) (s : Option Nat) : Option Nat :=
  s.bind fun i => ((t .sampleRef).find? fun s => s.index = (i : Int)).bind fun s =>
    (y.ref s).map fun s' => s'.index.toNat

/-- The calls of handlers that a call of the encoder leads to. -/
def Receiver.callsOf (y : Receiver) (t : Told) : Operation → List HandlerCall
  | .encode s type v =>
      if t.has .registered s.index then
        (y.registration s).toList.map fun reg =>
          ⟨reg.handler, .sample (mapRefs (y.translate t) type v)⟩
      else []
  | _ => []

/-- Where nothing is sent no handler is called. -/
theorem Receiver.callsOf_of_packets {y : Receiver} {t : Told} {op : Operation}
    (h : t.packets op = []) : y.callsOf t op = [] := by
  cases op with
  | sampleRegister | refRegister | typeRegister | typeBind => rfl
  | encode s type v =>
      rw [Told.packets] at h
      split at h
      · cases h
      · rename_i hhas
        exact if_neg hhas

/-- The calls of handlers that all calls of the encoder lead to, in order. -/
def Receiver.calls (y : Receiver) : Told → List Operation → List HandlerCall
  | _, [] => []
  | t, op :: ops => y.callsOf t op ++ y.calls (t.after op) ops

/-- The sample types and their latest definitions. -/
def Receiver.dispatch (y : Receiver) (t : Told) : Dispatch :=
  ⟨true, y.registered, fun k => ((t .registered).find? fun s => s.index = (k : Int)).bind fun s =>
    (y.registration s).map (·.signature)⟩

/-- The references and their announcements. -/
def Receiver.refDispatch (y : Receiver) (t : Told) : RefDispatch :=
  ⟨true, y.refs, fun k => (((t .sampleRef).find? fun s => s.index = k).map fun s =>
    RefState.never.announced (y.ref s)).getD .never⟩

/-- The tables of a decoder that has read everything the encoder was told to send. -/
structure InStep (K : Signature → Prop) (y : Receiver) (t : Told) (d : Decoder φ) : Prop where
  dispatch : DispatchInv K (y.dispatch t) d
  refs : RefInv K (y.refDispatch t) d
  system : ∀ tag : Int, 0 ≤ tag → tag < LABCOMM_USER → d.remoteToLocal.get tag = 0

/-- The bytes are what the decoder has to read next. -/
structure Decoder.Reading (d : Decoder φ) (bs : List UInt8) : Prop where
  error : d.reader.error = 0
  unread : d.reader.unread = bs

/-- One round of the loop reads up to `rest`, makes the calls and goes on. -/
def Decoder.Takes (d : Decoder φ) (uninit : Int) (rest : List UInt8) (calls : List HandlerCall)
    (After : Decoder φ → Prop) : Prop :=
  ∃ result d', (doDecodeOne uninit).run d = (.ok result, d') ∧ 0 < result ∧ d'.Reading rest ∧
    d'.calls = d.calls ++ calls ∧ After d'

section Telling

variable {t : Told} {table : Table} {s : Signature}

theorem Told.find?_none {index : Int} (h : t.has table index = false) :
    ((t table).find? fun s => s.index = index) = none := by
  rw [List.find?_eq_none]
  intro s hs hindex
  rw [Told.has, List.any_eq_false] at h
  exact h s hs hindex

theorem Told.find?_add (h : t.has table s.index = false) (index : Int) :
    (((t.add table s) table).find? fun s => s.index = index) =
      if index = s.index then some s else (t table).find? fun s => s.index = index := by
  rw [Told.add_of_not_has h, List.find?_cons]
  by_cases hindex : index = s.index
  · rw [if_pos hindex, decide_eq_true hindex.symm]
  · rw [if_neg hindex, decide_eq_false fun heq => hindex heq.symm]

/-- A definition is the latest of its index. -/
theorem Receiver.dispatch_add (y : Receiver) (h : t.has .registered s.index = false)
    (hs : s.HasIndex) {reg : Registration} (hreg : y.registration s = some reg) :
    y.dispatch (t.add .registered s) = { y.dispatch t with
      latest := Function.update (y.dispatch t).latest (toUnsigned s.index) (some reg.signature) } := by
  unfold Receiver.dispatch
  congr 1
  funext k
  have heq := hs.toUnsigned_eq
  rw [Told.find?_add h, Function.update_apply]
  by_cases hk : k = toUnsigned s.index
  · rw [if_pos (by omega), if_pos hk, Option.bind_some, hreg]
    rfl
  · rw [if_neg (by omega), if_neg hk]

/-- An announcement is the first of its index. -/
theorem Receiver.refDispatch_add (y : Receiver) (h : t.has .sampleRef s.index = false) :
    y.refDispatch (t.add .sampleRef s) = { y.refDispatch t with
      state := Function.update (y.refDispatch t).state s.index
        (((y.refDispatch t).state s.index).announced (y.ref s)) } := by
  unfold Receiver.refDispatch
  congr 1
  funext k
  rw [Told.find?_add h, Function.update_apply]
  by_cases hk : k = s.index
  · rw [if_pos hk, if_pos hk]
    dsimp only
    rw [Told.find?_none h]
    rfl
  · rw [if_neg hk, if_neg hk]

theorem Receiver.dispatch_of_eq (y : Receiver) {t' : Told} (h : t' .registered = t .registered) :
    y.dispatch t' = y.dispatch t := by
  unfold Receiver.dispatch
  rw [h]

theorem Receiver.refDispatch_of_eq (y : Receiver) {t' : Told} (h : t' .sampleRef = t .sampleRef) :
    y.refDispatch t' = y.refDispatch t := by
  unfold Receiver.refDispatch
  rw [h]

end Telling

section Receiving

variable {K L : Signature → Prop} (hK : Distinct K) (hL : Distinct L) {y : Receiver} {t : Told}
  {d : Decoder φ} {s : Signature}

include hK in
/-- The registration that matches is the one at its index. -/
theorem Receiver.registration_eq (hknown : ∀ reg ∈ y.registered, K reg.signature)
    {reg : Registration} (hreg : y.registration s = some reg) :
    (y.dispatch t).registration reg.signature.index = some reg := by
  have hmem := List.mem_of_find?_eq_some hreg
  have hsame : SameSignature reg.signature s.name s.bytes := of_decide_eq_true
    (List.find?_some (p := fun reg : Registration =>
      decide (SameSignature reg.signature s.name s.bytes)) hreg)
  rw [Dispatch.registration, ← hreg, Receiver.registration]
  refine List.find?_congr fun reg' hmem' => decide_eq_decide.mpr ⟨fun hindex => ?_, fun hsame' => ?_⟩
  · rwa [hK.index _ _ (hknown reg' hmem') (hknown reg hmem) hindex]
  · rw [hK.content _ _ (hknown reg' hmem') (hknown reg hmem)
      ⟨hsame'.1.trans hsame.1.symm, hsame'.2.trans hsame.2.symm⟩]

include hL in
/-- What is told under the index of a signature is the signature. -/
theorem Told.find?_of_has {table : Table} (hsent : ∀ s ∈ t table, L s) (hs : L s)
    (h : t.has table s.index = true) :
    ((t table).find? fun s' => s'.index = s.index) = some s := by
  obtain ⟨s', hs', hindex⟩ := List.any_eq_true.mp h
  cases hfind : (t table).find? fun s' => s'.index = s.index with
  | none => exact absurd hindex (List.find?_eq_none.mp hfind s' hs')
  | some s'' =>
      have heq : s''.index = s.index := of_decide_eq_true
        (List.find?_some (p := fun s' : Signature => decide (s'.index = s.index)) hfind)
      rw [hL.index s'' s (hsent s'' (List.mem_of_find?_eq_some hfind)) hs heq]

include hK hL in
/-- **References are translated** by what both sides have registered. -/
theorem InStep.seen (h : InStep K y t d) (hsent : ∀ s ∈ t .sampleRef, L s) :
    t.refs.seen d.toRef = y.translate t := by
  -- the index 0 stands for null on the wire, and no reference has it
  have hnull : d.toRef 0 = none := by
    have hstate : (y.refDispatch t).state 0 = .never := by
      have hnone : ((t .sampleRef).find? fun s => s.index = 0) = none := by
        rw [List.find?_eq_none]
        intro s hs hzero
        have hpos := (hL.hasIndex s (hsent s hs)).pos
        rw [decide_eq_true_eq] at hzero
        omega
      show (Option.map _ ((t .sampleRef).find? fun s => s.index = 0)).getD _ = _
      rw [hnone]
      rfl
    rw [Decoder.toRef, h.refs.unresolved hstate]
    rfl
  have hzero : d.toRef (wrap32 (toUnsigned 0)) = none := by
    rw [show wrap32 (toUnsigned 0) = 0 from rfl, hnull]
  funext ref
  cases ref with
  | none => exact hzero
  | some i =>
      unfold RefTables.seen Receiver.translate
      rw [Option.bind_some]
      show d.toRef (wrap32 (toUnsigned (if t.has .sampleRef i then (i : Int) else 0))) = _
      -- what was not announced is sent as 0
      by_cases hhas : t.has .sampleRef i = true
      · obtain ⟨s, hs, hindex⟩ := List.any_eq_true.mp hhas
        rw [decide_eq_true_eq] at hindex
        have huser := hL.hasIndex s (hsent s hs)
        have hbound := huser.2
        have hfind := Told.find?_of_has hL hsent (hsent s hs) (hindex.symm ▸ hhas)
        rw [hindex] at hfind hbound
        rw [if_pos hhas, toUnsigned_natCast (by omega), wrap32_natCast (by omega), hfind,
          Option.bind_some]
        have hstate : (y.refDispatch t).state i = RefState.never.announced (y.ref s) := by
          show (Option.map _ ((t .sampleRef).find? fun s => s.index = (i : Int))).getD _ = _
          rw [hfind]
          rfl
        cases href : y.ref s with
        | none =>
            rw [href] at hstate
            rw [Decoder.toRef, h.refs.unresolved hstate]
        | some s' =>
            rw [href] at hstate
            rw [Decoder.toRef, h.refs.resolves hK hstate]
      · rw [if_neg hhas, Told.find?_none (by simpa using hhas)]
        exact hzero

/-! ## One packet -/

/-- The header of the next packet is read. -/
theorem Decoder.Reading.header {p : Packet} {rest : List UInt8} (h : d.Reading (p.bytes ++ rest))
    (hwf : p.WellFormed) (uninit : Int) :
    ∃ r, (doDecodeOne uninit).run d =
        (decodeBody uninit p.tag p.body.length).run (d.withReader r) ∧
      (d.withReader r).Reading (p.body ++ rest) := by
  have hread : d.reader.unread = packed32 p.tag ++ packed32 p.body.length ++ (p.body ++ rest) := by
    rw [h.unread, p.bytes_eq, Packet.header, List.append_assoc]
  obtain ⟨r, hrun, hr0, hru⟩ := doDecodeOne_header uninit hwf.tag_lt hwf.length h.error hread
  exact ⟨r, hrun, hr0, hru⟩

theorem definition_wellFormed {table : Table} (hs : s.HasIndex) (hfits : PacketFits table s) :
    (definition table s).WellFormed := by
  refine ⟨?_, hfits.length⟩
  have huser := hs.userIndex
  cases table with
  | registered => exact huser
  | sampleRef => exact huser
  | typedefs => exact huser

theorem binding_wellFormed (hs : s.HasIndex) (hasDeps : Bool) :
    (binding s hasDeps).WellFormed := by
  have huser := hs.userIndex
  have hsample := packed32_length_le (toUnsigned s.index)
  have htype := packed32_length_le (if hasDeps then toUnsigned s.index else 0)
  refine ⟨⟨huser, ?_⟩, ?_⟩
  · cases hasDeps with
    | false => exact .inl rfl
    | true => exact .inr huser
  · show (packed32 _ ++ packed32 _).length < 2 ^ 31
    rw [List.length_append]
    omega

/-- The body of a definition is read, whichever of the two kinds it is. -/
theorem Decoder.Reading.definition {k : Nat} {name signature rest : List UInt8}
    (h : d.Reading (definitionBytes k [nameIntention name] signature ++ rest)) (hk : k < 2 ^ 31)
    (hlen : (definitionBytes k [nameIntention name] signature).length < 2 ^ 31) :
    ∃ r, (onReader readDefinition).run d =
        (.ok (.ok ⟨k, some name, signature⟩), d.withReader r) ∧ (d.withReader r).Reading rest := by
  have hfew : [nameIntention name].length < 128 := (by decide : 1 < 128)
  obtain ⟨r, hrun, hr0, hru⟩ := onReader_reads
    (readDefinition_parses (definitionFits hk hfew hlen)) h.error h.unread
  exact ⟨r, hrun, hr0, hru⟩

section Definitions

variable {rest : List UInt8} (h : InStep K y t d) (hs : s.HasIndex) (uninit : Int)

include hK h hs in
/-- **A definition binds its index** to the registration that matches. -/
theorem InStep.takes_sampleDef (hnew : t.has .registered s.index = false)
    (hfits : PacketFits .registered s) {reg : Registration} (hreg : y.registration s = some reg)
    (hroom : φ.HasEntry .remoteToLocal d.remoteToLocal (toUnsigned s.index))
    (hread : d.Reading ((definition .registered s).bytes ++ rest)) :
    d.Takes uninit rest [] (InStep K y (t.add .registered s)) := by
  have hwf := definition_wellFormed hs hfits
  have hk := hs.userIndex
  obtain ⟨r, hrun, hbody⟩ := hread.header hwf uninit
  rw [show (definition .registered s).tag = LABCOMM_SAMPLE_DEF from rfl] at hrun
  obtain ⟨r', hdef, hrest⟩ := hbody.definition hk.2 hwf.length
  have hfind := h.dispatch.find?_matchesDef hK s.name s.bytes
  rw [show (y.dispatch t).matching s.name s.bytes = (y.registration s).map (·.signature) from rfl,
    hreg, Option.map_some, Option.map_some] at hfind
  have hloop := handleSampleDefFrom_named (toUnsigned s.index) s.name s.bytes uninit
    d.locals.indices (d.withReader r')
  rw [show (d.withReader r').matchesDef s.name s.bytes = d.matchesDef s.name s.bytes from rfl,
    hfind] at hloop
  dsimp only at hloop
  rw [matchDef_room (d := d.withReader r') hroom] at hloop
  -- the index is not the code that ends the process
  have hne : (toUnsigned s.index : Int) ≠ -ENOENT := by
    have : (0 : Int) < ENOENT := by decide
    omega
  have hdone : (doDecodeOne uninit).run d = (.ok (toUnsigned s.index : Int),
      (d.withReader r').bindDef (toUnsigned s.index) reg.signature.index) := by
    rw [hrun, decodeBody_accepted (d := d.withReader r) h.dispatch.version (by decide), if_pos rfl,
      decodeSampleDefOrRef, run_bind_ok hdef]
    dsimp only
    rw [if_pos rfl, run_bind_ok ((handleSampleDef_run _ _ _).trans hloop),
      freeSignatureName_ok hne]
  have hpos := hs.pos
  have heq := hs.toUnsigned_eq
  refine ⟨_, _, hdone, by omega, ⟨hrest.error, hrest.unread⟩, (List.append_nil _).symm, ?_⟩
  have h' : DispatchInv K (y.dispatch t) (d.withReader r') :=
    h.dispatch.sameTables ((SameTables.refl d).withReader r')
  refine ⟨?_, ?_, fun tag h0 htag => ?_⟩
  · rw [y.dispatch_add hnew hs hreg]
    have hmatching : (y.dispatch t).matching s.name s.bytes = some reg.signature := by
      show (y.registration s).map (·.signature) = _
      rw [hreg]
      rfl
    exact h'.bindDef (toUnsigned s.index) hmatching
  · rw [y.refDispatch_of_eq (Told.add_of_ne (by decide) t s)]
    exact h.refs.sameRefs ⟨rfl, fun _ => rfl, fun _ => rfl⟩
  · have huser : (LABCOMM_USER : Int) ≤ toUnsigned s.index := by exact_mod_cast hk.1
    show (d.remoteToLocal.set _ _).get tag = 0
    rw [SigArray.get_set_ne _ (by omega)]
    exact h.system tag h0 htag

include hK h hs in
/-- **An announcement binds its index** to the reference that matches, if one does. -/
theorem InStep.takes_sampleRef (hnew : t.has .sampleRef s.index = false)
    (hfits : PacketFits .sampleRef s) (hne : y.refs ≠ [])
    (hroom : φ.HasEntry .remoteToLocalRef d.remoteToLocalRef (toUnsigned s.index))
    (hread : d.Reading ((definition .sampleRef s).bytes ++ rest)) :
    d.Takes uninit rest [] (InStep K y (t.add .sampleRef s)) := by
  have hwf := definition_wellFormed hs hfits
  have hk := hs.userIndex
  obtain ⟨r, hrun, hbody⟩ := hread.header hwf uninit
  rw [show (definition .sampleRef s).tag = LABCOMM_SAMPLE_REF from rfl] at hrun
  obtain ⟨r', hdef, hrest⟩ := hbody.definition hk.2 hwf.length
  -- with a reference in the table the result is assigned, whether one matches or not
  have hindices : d.localRef.indices ≠ [] := by
    obtain ⟨s', hs'⟩ := List.exists_mem_of_ne_nil _ hne
    have hget := (h.refs.entries s'.index s').mpr ⟨hs', rfl⟩
    have hmem := SigArray.mem_indices_of_ne (t := d.localRef) (i := s'.index)
      (by rw [hget]; exact Option.some_ne_none _)
    exact List.ne_nil_of_mem hmem
  have hloop := handleSampleRefFrom_named (toUnsigned s.index) s.name s.bytes uninit
    d.localRef.indices (d.withReader r')
  have hmatch := h.refs.refMatch hK (some s.name) s.bytes
  have hinv := h.refs.announced hK s.index (some s.name) s.bytes
  rw [show (y.refDispatch t).matching (some s.name) s.bytes = y.ref s from rfl] at hmatch hinv
  rw [← y.refDispatch_add hnew, hmatch] at hinv
  rw [show (d.withReader r').matchesRef s.name s.bytes = d.matchesRef s.name s.bytes from rfl,
    show d.localRef.indices.find? (d.matchesRef s.name s.bytes) = (y.ref s).map Signature.index
      from hmatch, if_neg hindices] at hloop
  have hdone : ∀ result d', (handleSampleRefFrom (toUnsigned s.index) (some s.name) s.bytes uninit
      d.localRef.indices).run (d.withReader r') = (.ok result, d') →
        (doDecodeOne uninit).run d =
          (.ok (if result = -ENOENT then (LABCOMM_SAMPLE_REF : Int) else result), d') := by
    intro result d' hresult
    have hnot : (if result = -ENOENT then (LABCOMM_SAMPLE_REF : Int) else result) ≠ -ENOENT := by
      split
      · decide
      · assumption
    rw [hrun, decodeBody_accepted (d := d.withReader r) h.dispatch.version (by decide),
      if_neg (by decide), if_pos rfl, decodeSampleDefOrRef, run_bind_ok hdef]
    dsimp only
    rw [if_neg (by decide), if_pos rfl,
      run_bind_ok ((handleSampleRef_run _ _ _).trans hresult), freeSignatureName_ok hnot]
  have heq := hs.toUnsigned_eq
  have hpos := hs.pos
  have hdispatch : y.dispatch (t.add .sampleRef s) = y.dispatch t :=
    y.dispatch_of_eq (Told.add_of_ne (by decide) t s)
  -- the receiver has such a reference, or keeps the announcement as one that matches nothing
  cases href : y.ref s with
  | none =>
      rw [href] at hinv hloop
      refine ⟨_, _, hdone _ _ hloop, by decide, ⟨hrest.error, hrest.unread⟩,
        (List.append_nil _).symm, ⟨?_, hinv.sameRefs ⟨rfl, fun _ => rfl, fun _ => rfl⟩, h.system⟩⟩
      rw [hdispatch]
      exact h.dispatch.sameTables ((SameTables.refl d).withReader r')
  | some s' =>
      rw [href] at hinv hloop
      dsimp only [Option.map_some] at hloop
      rw [matchRef_room (d := d.withReader r') hroom] at hloop
      refine ⟨_, _, hdone _ _ hloop, ?_, ⟨hrest.error, hrest.unread⟩, (List.append_nil _).symm,
        ⟨?_, ?_, h.system⟩⟩
      · split
        · decide
        · omega
      · rw [hdispatch]
        exact h.dispatch.congr rfl (fun _ => rfl) fun _ => rfl
      · rw [heq]
        exact hinv.sameRefs ⟨rfl, fun _ => rfl, fun _ => rfl⟩

end Definitions

/-! ### Other packets -/

/-- The tables are those of before, and what has been told is no sample type and no reference. -/
theorem InStep.sameTables (h : InStep K y t d) {d' : Decoder φ} (hsame : SameTables d d')
    {t' : Told} (hsamples : t' .registered = t .registered) (hrefs : t' .sampleRef = t .sampleRef) :
    InStep K y t' d' := by
  refine ⟨?_, ?_, fun tag h0 htag => ?_⟩
  · rw [y.dispatch_of_eq hsamples]
    exact h.dispatch.sameTables hsame
  · rw [y.refDispatch_of_eq hrefs]
    exact h.refs.sameRefs hsame.sameRefs
  · rw [hsame.remoteToLocal]
    exact h.system tag h0 htag

/-- **A packet on a type is skipped**: no handler is registered for it. -/
theorem InStep.takes_type (h : InStep K y t d) {p : Packet} (hwf : p.WellFormed)
    (htag : p.tag = LABCOMM_TYPE_DEF ∨ p.tag = LABCOMM_TYPE_BINDING)
    (hroom : d.CanLookUp p.tag) {rest : List UInt8}
    (hread : d.Reading (p.bytes ++ rest)) (uninit : Int) {t' : Told}
    (hsamples : t' .registered = t .registered) (hrefs : t' .sampleRef = t .sampleRef) :
    d.Takes uninit rest [] (InStep K y t') := by
  obtain ⟨r, hrun, hbody⟩ := hread.header hwf uninit
  -- no system tag is bound
  have hfound : (d.withReader r).found p.tag = none := by
    have hzero : d.remoteToLocal.get p.tag = 0 := by
      refine h.system _ (Int.natCast_nonneg _) ?_
      rcases htag with htag | htag
      · rw [htag]
        decide
      · rw [htag]
        decide
    unfold Decoder.found
    exact if_neg (not_not.mpr hzero)
  have hdecode : (decodeBody uninit p.tag p.body.length).run (d.withReader r) =
      (decodeTypePacket p.tag p.body.length).run (d.withReader r) := by
    rcases htag with htag | htag
    · rw [htag, decodeBody_accepted (d := d.withReader r) h.dispatch.version (by decide),
        if_neg (by decide), if_neg (by decide), if_pos rfl]
    · rw [htag, decodeBody_accepted (d := d.withReader r) h.dispatch.version (by decide),
        if_neg (by decide), if_neg (by decide), if_neg (by decide), if_pos rfl]
  have hroom' : (d.withReader r).CanLookUp p.tag := hroom
  have hsame := decodeTypePacket_keepsTables (p.tag : Int) p.body.length (d.withReader r)
  obtain ⟨hresult, hreader, hcalls⟩ := decodeTypePacket_skips hroom' hfound p.body.length
  obtain ⟨hpass, herror, hunread⟩ := (readerSkip_parses (φ := φ) p.tag p.body rfl).reads r rest
    (not_not.mpr hbody.error) hbody.unread
  have hpos : 0 < p.tag := by
    rcases htag with htag | htag
    · rw [htag]
      decide
    · rw [htag]
      decide
  refine ⟨p.tag, _, (hrun.trans hdecode).trans (Prod.ext (hresult.trans (congrArg _ hpass)) rfl),
    by exact_mod_cast hpos, ⟨?_, ?_⟩, ?_, ?_⟩
  · rw [hreader]
    exact not_not.mp herror
  · rw [hreader]
    exact hunread
  · rw [List.append_nil]
    exact hcalls
  · exact h.sameTables (((SameTables.refl d).withReader r).trans _ _ _ hsame) hsamples hrefs

/-- What both sides know of a call: it can be sent, and the receiver has what it needs. -/
structure Operation.Known (L : Signature → Prop) (y : Receiver) (op : Operation) : Prop where
  known : L op.signature
  fits : op.Fits
  sample : ∀ s, op = .sampleRegister s → ∃ reg, y.registration s = some reg
  ref : ∀ s, op = .refRegister s → y.refs ≠ []
  type : ∀ s type v, op = .encode s type v → ∀ reg, y.registration s = some reg → reg.type = type

/-- The same of what has been told. -/
structure Told.Known (L : Signature → Prop) (y : Receiver) (t : Told) : Prop where
  known : ∀ table, ∀ s ∈ t table, L s
  sample : ∀ s ∈ t .registered, ∃ reg, y.registration s = some reg

theorem Told.Known.after {op : Operation} (ht : t.Known L y) (hop : op.Known L y) :
    (t.after op).Known L y := by
  refine ⟨fun table s' hs' => ?_, fun s' hs' => ?_⟩
  · rcases Told.mem_after hs' with hold | rfl
    · exact ht.known table s' hold
    · exact hop.known
  · cases op with
    | sampleRegister s =>
        rcases Told.mem_add hs' with hold | ⟨_, rfl⟩
        · exact ht.sample s' hold
        · exact hop.sample s' rfl
    | refRegister s =>
        have hsame : (t.add .sampleRef s) .registered = t .registered :=
          Told.add_of_ne (by decide) t s
        exact ht.sample s' (hsame ▸ hs')
    | typeRegister s =>
        have hsame : (t.add .typedefs s) .registered = t .registered :=
          Told.add_of_ne (by decide) t s
        exact ht.sample s' (hsame ▸ hs')
    | typeBind s hasDeps => exact ht.sample s' hs'
    | encode s type v => exact ht.sample s' hs'

include hK hL in
/-- **A sample is handed to the handler of its registration.** -/
theorem InStep.takes_sample (h : InStep K y t d) (ht : t.Known L y) {type : DataType} {v : Value}
    (hop : (Operation.encode s type v).Known L y) (hhas : t.has .registered s.index = true)
    (hroom : d.CanLookUp (toUnsigned s.index)) {rest : List UInt8}
    (hread : d.Reading
      ((Packet.sample (toUnsigned s.index) (wire t.refs type v)).bytes ++ rest))
    (uninit : Int) :
    d.Takes uninit rest (y.callsOf t (.encode s type v)) (InStep K y t) := by
  have hLs : L s := hop.known
  have hs := hL.hasIndex s hLs
  have hk := hs.userIndex
  have heq := hs.toUnsigned_eq
  obtain ⟨_, hv, hlen⟩ := hop.fits
  have hlt := hlen t.refs
  have hwf : (Packet.sample (toUnsigned s.index) (wire t.refs type v)).WellFormed := ⟨hk, hlt⟩
  have htold := Told.find?_of_has hL (ht.known .registered) hLs hhas
  obtain ⟨reg, hreg⟩ := ht.sample s (List.mem_of_find?_eq_some htold)
  obtain rfl := hop.type s type v rfl reg hreg
  -- the registration is what `lookup_h` finds
  have hlatest : (y.dispatch t).latest (toUnsigned s.index) = some reg.signature := by
    show ((t .registered).find? fun s' => s'.index = (toUnsigned s.index : Int)).bind _ = _
    rw [heq, htold, Option.bind_some, hreg]
    rfl
  have hcurrent : (y.dispatch t).current (toUnsigned s.index) = some reg := by
    rw [Dispatch.current, hlatest, Option.bind_some]
    exact Receiver.registration_eq hK h.dispatch.known hreg
  have hfound := h.dispatch.found hK hk
  rw [hcurrent, Option.map_some] at hfound
  have hlocal := h.dispatch.remote (toUnsigned s.index) hk
  rw [hlatest, Option.map_some, Option.getD_some] at hlocal
  have hlocalpos : 0 < reg.signature.index :=
    (hK.hasIndex _ (h.dispatch.known reg (List.mem_of_find?_eq_some hreg))).pos
  -- the packet is read
  obtain ⟨r, hrun, hbody⟩ := hread.header hwf uninit
  have huser : (LABCOMM_USER : Int) ≤ toUnsigned s.index := by exact_mod_cast hk.1
  have hdecode : (decodeBody uninit (toUnsigned s.index : Nat)
      ((Packet.sample (toUnsigned s.index) (wire t.refs reg.type v)).body.length : Nat)).run
        (d.withReader r) = (decodeAndHandle (toUnsigned s.index)).run (d.withReader r) := by
    have hbig : ∀ tag : Nat, tag < LABCOMM_USER → ((toUnsigned s.index : Nat) : Int) ≠ tag := by
      intro tag htag
      omega
    rw [decodeBody_accepted (d := d.withReader r) h.dispatch.version (hbig _ (by decide)),
      if_neg (hbig _ (by decide)), if_neg (hbig _ (by decide)), if_neg (hbig _ (by decide)),
      if_neg (hbig _ (by decide)), if_neg (hbig _ (by decide)), if_neg (by omega)]
  obtain ⟨d', hdone, hsame, herror, hunread, hcalls⟩ := decodeAndHandle_sample
    (show (d.withReader r).CanLookUp (toUnsigned s.index) from hroom)
    (show (d.withReader r).found (toUnsigned s.index) = some (.sample reg.type, reg.handler)
      from hfound)
    t.refs hv (stringsFit_of_length t.refs reg.type v hv hlt) hbody.error hbody.unread
  refine ⟨_, d', (hrun.trans hdecode).trans hdone, ?_, ⟨herror, hunread⟩, ?_, ?_⟩
  · show 0 < d.remoteToLocal.get _
    rw [hlocal]
    exact hlocalpos
  · rw [hcalls, Receiver.callsOf, if_pos hhas, hreg]
    rw [show (d.withReader r).toRef = d.toRef from rfl, h.seen hK hL (ht.known .sampleRef)]
    rfl
  · exact h.sameTables (((SameTables.refl d).withReader r).trans _ _ _ hsame) rfl rfl

/-! ## The loop -/

theorem decoderRun_succ {uninit : Nat → Int} {n : Nat} {result : Int} {d' : Decoder φ}
    (hrun : (doDecodeOne (uninit n)).run d = (.ok result, d')) (hpos : 0 < result) :
    (decoderRun uninit (n + 1)).run d = (decoderRun uninit n).run d' := by
  rw [decoderRun, run_bind_ok hrun, if_pos hpos]

/-- The packets of a call are about its signature. -/
theorem Told.packets_idsBelow {op : Operation} (hs : op.signature.HasIndex) {n : Nat}
    (hn : op.signature.index < n) : ∀ p ∈ t.packets op, IdsBelow n p := by
  have heq := hs.toUnsigned_eq
  have huser := hs.userIndex.1
  have hlt : toUnsigned op.signature.index < n := by omega
  have hone : [nameIntention op.signature.name].length < 128 := (by decide : 1 < 128)
  have hdefinitions : ∀ table, ∀ p ∈ t.definitions table op.signature, IdsBelow n p := by
    intro table p hp
    unfold Told.definitions at hp
    split at hp
    · cases hp
    · rw [List.mem_singleton] at hp
      subst hp
      cases table with
      | registered => exact ⟨hlt, hone⟩
      | sampleRef => exact ⟨hlt, hone⟩
      | typedefs => trivial
  intro p hp
  cases op with
  | sampleRegister s => exact hdefinitions _ p hp
  | refRegister s => exact hdefinitions _ p hp
  | typeRegister s => exact hdefinitions _ p hp
  | typeBind s hasDeps =>
      obtain rfl := List.mem_singleton.mp hp
      trivial
  | encode s type v =>
      rw [Told.packets] at hp
      split at hp
      · obtain rfl := List.mem_singleton.mp hp
        exact ⟨huser, hlt⟩
      · cases hp

/-- The tables stay within the bound of the indices that are read. -/
theorem Decoder.Within.takes {n : Nat} (hφ : φ.Ample n) (hw : d.Within n) {p : Packet}
    (hids : IdsBelow n p) (hlen : p.body.length < 2 ^ 31) {rest : List UInt8}
    (hread : d.Reading (p.bytes ++ rest)) {uninit result : Int} {d' : Decoder φ}
    (hrun : (doDecodeOne uninit).run d = (.ok result, d')) : d'.Within n := by
  have hbody := hw.body hφ (r := d.reader) ⟨hlen, ⟨hread.error, rest, hread.unread⟩, hids⟩ uninit
  have hsame : (DecoderEvent.receive p d.reader uninit).function.run d =
      (doDecodeOne uninit).run d := rfl
  rwa [hsame, hrun] at hbody

section Loop

variable {n : Nat} (hφ : φ.Ample n) (hn : ∀ s, L s → s.index < n)

include hφ hn hK hL

/-- **A packet of a call takes a round**: there is room in the tables for its indices. -/
theorem InStep.takes_packet (h : InStep K y t d) (hw : d.Within n) (ht : t.Known L y)
    {op : Operation} (hop : op.Known L y) {p : Packet} (hp : t.packets op = [p])
    {rest : List UInt8} (hread : d.Reading (p.bytes ++ rest)) (uninit : Int) :
    p.body.length < 2 ^ 31 ∧
      d.Takes uninit rest (y.callsOf t op) (InStep K y (t.after op)) := by
  have hs : op.signature.HasIndex := hL.hasIndex _ hop.known
  have hids : (toUnsigned op.signature.index : Int) < n := by
    rw [hs.toUnsigned_eq]
    exact hn _ hop.known
  have hremote := fun {α : Type} [Inhabited α] {table : SigArray α} (hwithin : table.Within n)
    (of : DecoderTable) => hφ.hasEntry hwithin (Int.natCast_nonneg _) hids of
  have htags := hφ.tags
  -- a registration sends a packet only the first time, and it is the definition
  have hnew : ∀ {table : Table}, t.definitions table op.signature = [p] →
      t.has table op.signature.index = false ∧ p = definition table op.signature := by
    intro table hdefinitions
    unfold Told.definitions at hdefinitions
    split at hdefinitions
    · cases hdefinitions
    · rename_i hhas
      exact ⟨by simpa using hhas, (List.singleton_injective hdefinitions).symm⟩
  cases op with
  | sampleRegister s =>
      obtain ⟨hnot, rfl⟩ := hnew hp
      obtain ⟨reg, hreg⟩ := hop.sample s rfl
      exact ⟨hop.fits.length, h.takes_sampleDef hK hs uninit hnot hop.fits hreg
        (hremote hw.remoteToLocal _) hread⟩
  | refRegister s =>
      obtain ⟨hnot, rfl⟩ := hnew hp
      exact ⟨hop.fits.length, h.takes_sampleRef hK hs uninit hnot hop.fits (hop.ref s rfl)
        (hremote hw.remoteToLocalRef _) hread⟩
  | typeRegister s =>
      obtain ⟨hnot, rfl⟩ := hnew hp
      have hroom : d.CanLookUp LABCOMM_TYPE_DEF :=
        hw.canLookUp hφ (by decide) (by exact_mod_cast lt_trans (by decide) htags)
      exact ⟨hop.fits.2.length, h.takes_type (definition_wellFormed hs hop.fits.2) (.inl rfl) hroom
        hread uninit (Told.add_of_ne (by decide) t s) (Told.add_of_ne (by decide) t s)⟩
  | typeBind s hasDeps =>
      obtain rfl := List.singleton_injective hp
      have hroom : d.CanLookUp LABCOMM_TYPE_BINDING :=
        hw.canLookUp hφ (by decide) (by exact_mod_cast htags)
      have hwf := binding_wellFormed hs hasDeps
      exact ⟨hwf.length, h.takes_type hwf (.inr rfl) hroom hread uninit rfl rfl⟩
  | encode s type v =>
      rw [Told.packets] at hp
      split at hp
      · rename_i hhas
        obtain rfl := List.singleton_injective hp
        exact ⟨hop.fits.2.2 t.refs, h.takes_sample hK hL ht hop hhas
          (hw.canLookUp hφ (Int.natCast_nonneg _) hids) hread uninit⟩
      · cases hp

/-- **The packets of a call take a round each.** -/
theorem InStep.call (h : InStep K y t d) (hw : d.Within n) (ht : t.Known L y) {op : Operation}
    (hop : op.Known L y) {rest : List UInt8}
    (hread : d.Reading ((t.packets op).flatMap Packet.bytes ++ rest)) (uninit : Nat → Int)
    (m : Nat) :
    ∃ d', (decoderRun uninit (m + (t.packets op).length)).run d = (decoderRun uninit m).run d' ∧
      d'.Reading rest ∧ d'.calls = d.calls ++ y.callsOf t op ∧ InStep K y (t.after op) d' ∧
      d'.Within n := by
  have hs : op.signature.HasIndex := hL.hasIndex _ hop.known
  rcases t.packets_cases op with ⟨p, hp⟩ | ⟨hp, hafter⟩
  · rw [hp, List.flatMap_singleton] at hread
    obtain ⟨hlen, result, d', hrun, hpos, hrest, hcalls, hinstep⟩ :=
      h.takes_packet hK hL hφ hn hw ht hop hp hread (uninit m)
    have hids : IdsBelow n p := Told.packets_idsBelow hs (hn _ hop.known) p
      (by rw [hp]; exact List.mem_singleton_self p)
    rw [hp]
    exact ⟨d', decoderRun_succ hrun hpos, hrest, hcalls, hinstep, hw.takes hφ hids hlen hread hrun⟩
  · rw [hp, List.flatMap_nil, List.nil_append] at hread
    rw [hp, Receiver.callsOf_of_packets hp, hafter, List.append_nil]
    exact ⟨d, rfl, hread, rfl, h, hw⟩

/-- **The loop takes the packets of all calls**, and calls the handlers as it should. -/
theorem InStep.operations {ops : List Operation} (h : InStep K y t d) (hw : d.Within n)
    (ht : t.Known L y) (hops : ∀ op ∈ ops, op.Known L y)
    (hread : d.Reading ((t.stream ops).flatMap Packet.bytes)) (uninit : Nat → Int) (m : Nat) :
    ∃ d', (decoderRun uninit (m + (t.stream ops).length)).run d = (decoderRun uninit m).run d' ∧
      d'.Reading [] ∧ d'.calls = d.calls ++ y.calls t ops := by
  induction ops generalizing t d with
  | nil => exact ⟨d, rfl, hread, (List.append_nil _).symm⟩
  | cons op ops ih =>
      obtain ⟨hop, hrest⟩ := List.forall_mem_cons.mp hops
      rw [Told.stream, List.flatMap_append] at hread
      obtain ⟨d', hrun, hread', hcalls, hstep, hw'⟩ :=
        h.call hK hL hφ hn hw ht hop hread uninit (m + ((t.after op).stream ops).length)
      obtain ⟨d'', hrun', hdone, hcalls'⟩ := ih hstep hw' (ht.after hop) hrest hread'
      refine ⟨d'', ?_, hdone, ?_⟩
      · rw [Told.stream, List.length_append, Nat.add_comm (t.packets op).length, ← Nat.add_assoc,
          hrun, hrun']
      · rw [hcalls', hcalls, List.append_assoc]
        rfl

end Loop

/-- At the end of its input the loop stops. -/
theorem decoderRun_end (hread : d.Reading []) (uninit : Nat → Int) (n : Nat) :
    ∃ d', (decoderRun uninit (n + 1)).run d = (.ok (some φ.code), d') ∧ d'.calls = d.calls := by
  have hzero : 0 < 2 ^ 31 := by decide
  have hheader := readHeader_parses (φ := φ) hzero hzero
  have hne : packed32 0 ++ packed32 0 ≠ [] := by decide
  have hfail := hheader.starves d.reader _ (not_not.mpr hread.error) hne
    (show _ = d.reader.unread ++ _ by rw [hread.unread, List.nil_append])
  have hrun : (onReader readHeader).run d =
      (.ok (.error φ.code), d.withReader (readHeader d.reader).2) := by
    show (Except.ok (readHeader d.reader).1, _) = _
    rw [readHeader_reports d.reader hfail]
    rfl
  have hone : (doDecodeOne (uninit n)).run d =
      (.ok φ.code, d.withReader (readHeader d.reader).2) := by
    rw [doDecodeOne, run_bind_ok hrun]
    rfl
  have hneg := φ.neg
  refine ⟨d.withReader (readHeader d.reader).2, ?_, rfl⟩
  rw [decoderRun, run_bind_ok hone, if_neg (by omega)]
  rfl

/-! ## The start -/

/-- The tables of a decoder that has registered everything and read nothing. -/
structure Prepared (K : Signature → Prop) (y : Receiver) (d : Decoder φ) : Prop where
  dispatch : DispatchInv K ⟨false, y.registered, fun _ => none⟩ d
  refs : RefInv K ⟨false, y.refs, fun _ => .never⟩ d
  system : ∀ tag : Int, 0 ≤ tag → tag < LABCOMM_USER → d.remoteToLocal.get tag = 0

theorem prepared_new (K : Signature → Prop) (r : Reader φ) :
    Prepared K ⟨[], []⟩ (decoderNew r) := by
  refine ⟨decoderNew_dispatchInv K r, decoderNew_refInv K r, fun tag _ _ => ?_⟩
  show (SigArray.init : SigArray Int).get tag = 0
  rw [SigArray.get_init]
  rfl

section Registering

variable {n : Nat} (hφ : φ.Ample n) (hn : ∀ s, K s → s.index < n)

include hφ hn hK

/-- The sample types are registered, the last one first in the list. -/
theorem Prepared.samples {regs : List Registration} (h : Prepared K y d) (hw : d.Within n)
    (hregs : ∀ reg ∈ regs, K reg.signature) :
    ∃ d', (registerSamples regs).run d = (.ok (), d') ∧ d'.reader = d.reader ∧
      d'.calls = d.calls ∧ Prepared K ⟨regs.reverse ++ y.registered, y.refs⟩ d' ∧ d'.Within n := by
  induction regs generalizing y d with
  | nil => exact ⟨d, rfl, rfl, rfl, h, hw⟩
  | cons reg regs ih =>
      obtain ⟨hreg, hrest⟩ := List.forall_mem_cons.mp hregs
      have hbelow : (DecoderEvent.registerSample reg.signature reg.type reg.handler :
          DecoderEvent φ).Below n := ⟨hK.hasIndex _ hreg, hn _ hreg⟩
      have hrun := doRegisterSample_run hbelow.1 reg.type reg.handler (hw.room hφ hbelow)
      have hw' := function_keepsWithin hφ hbelow d hw
      rw [DecoderEvent.function, hrun] at hw'
      have hone : Prepared K ⟨reg :: y.registered, y.refs⟩
          (d.register reg.signature reg.type reg.handler) :=
        ⟨h.dispatch.registerSample hreg reg.type reg.handler,
          h.refs.sameRefs ⟨rfl, fun _ => rfl, fun _ => rfl⟩, h.system⟩
      obtain ⟨d', hrun', hreader, hcalls, hprepared, hwithin⟩ := ih hone hw' hrest
      refine ⟨d', ?_, hreader, hcalls, ?_, hwithin⟩
      · rw [registerSamples, run_bind_ok hrun, hrun']
      · rw [List.reverse_cons, List.append_assoc]
        exact hprepared

/-- The references are registered, the last one first in the list. -/
theorem Prepared.references {refs : List Signature} (h : Prepared K y d) (hw : d.Within n)
    (hrefs : ∀ s ∈ refs, K s) :
    ∃ d', (registerRefs refs).run d = (.ok (), d') ∧ d'.reader = d.reader ∧
      d'.calls = d.calls ∧ Prepared K ⟨y.registered, refs.reverse ++ y.refs⟩ d' ∧ d'.Within n := by
  induction refs generalizing y d with
  | nil => exact ⟨d, rfl, rfl, rfl, h, hw⟩
  | cons s refs ih =>
      obtain ⟨hs, hrest⟩ := List.forall_mem_cons.mp hrefs
      have hbelow : (DecoderEvent.registerRef s : DecoderEvent φ).Below n :=
        ⟨hK.hasIndex _ hs, hn _ hs⟩
      have hrun := doRefRegisterDecoder_run hbelow.1 (hw.room hφ hbelow)
      have hw' := function_keepsWithin hφ hbelow d hw
      rw [DecoderEvent.function, hrun] at hw'
      have hkept : (d.registerRef s).reader = d.reader ∧ (d.registerRef s).calls = d.calls ∧
          (d.registerRef s).versionOk = d.versionOk ∧ (d.registerRef s).locals = d.locals ∧
          (d.registerRef s).remoteToLocal = d.remoteToLocal := by
        unfold Decoder.registerRef
        split
        · exact ⟨rfl, rfl, rfl, rfl, rfl⟩
        · exact ⟨rfl, rfl, rfl, rfl, rfl⟩
      obtain ⟨hreader, hcalls, hversion, hlocals, hremote⟩ := hkept
      have hone : Prepared K ⟨y.registered, s :: y.refs⟩ (d.registerRef s) :=
        ⟨h.dispatch.congr hversion (fun i => by rw [hlocals]) fun i => by rw [hremote],
          h.refs.registerRef hK hs (.inr fun s' hs' => by cases hs'),
          fun tag h0 htag => by rw [hremote]; exact h.system tag h0 htag⟩
      obtain ⟨d', hrun', hreader', hcalls', hprepared, hwithin⟩ := ih hone hw' hrest
      refine ⟨d', ?_, hreader'.trans hreader, hcalls'.trans hcalls, ?_, hwithin⟩
      · rw [registerRefs, run_bind_ok hrun, hrun']
      · rw [List.reverse_cons, List.append_assoc]
        exact hprepared

end Registering

/-- **The version comes first**, and then both sides are in step. -/
theorem Prepared.takes_version (h : Prepared K y d) {rest : List UInt8}
    (hread : d.Reading (currentVersion.bytes ++ rest)) (uninit : Int) :
    d.Takes uninit rest [] (InStep K y Told.nothing) := by
  obtain ⟨r, hrun, hbody⟩ := hread.header currentVersion_wellFormed uninit
  obtain ⟨r', hversion, hr0, hru⟩ := onReader_reads
    (readVersion_parses (s := CURRENT_VERSION) (by decide)) hbody.error hbody.unread
  have hdone : (doDecodeOne uninit).run d = (.ok (LABCOMM_VERSION : Int),
      { (d.withReader r').withReader r' with versionOk := true }) := by
    rw [hrun, show currentVersion.tag = LABCOMM_VERSION from rfl, decodeBody_version, decodeVersion,
      run_bind_ok hversion]
    dsimp only
    rw [if_pos (by decide)]
    rfl
  refine ⟨_, _, hdone, by decide, ⟨hr0, hru⟩, (List.append_nil _).symm, ⟨?_, ?_, h.system⟩⟩
  · exact ⟨rfl, h.dispatch.known, h.dispatch.entries, h.dispatch.absent, h.dispatch.remote,
      h.dispatch.latest⟩
  · exact ⟨rfl, h.refs.known, h.refs.entries, h.refs.bound, h.refs.never⟩

end Receiving

/-! ## Delivery -/

/-- A program that knows everything it has to reads all that calls have sent. -/
theorem receiveAll_reads {K L : Signature → Prop} (hK : Distinct K) (hL : Distinct L) {m : Nat}
    (hφ : φ.Ample m) (hKm : ∀ s, K s → s.index < m) (hLm : ∀ s, L s → s.index < m)
    {ops : List Operation} {regs : List Registration} {refs : List Signature}
    (hregs : ∀ reg ∈ regs, K reg.signature) (hrefs : ∀ s ∈ refs, K s)
    (hops : ∀ op ∈ ops, op.Known L ⟨regs.reverse, refs.reverse⟩) {r : Reader φ} (hr : r.error = 0)
    (hread : r.unread = currentVersion.bytes ++ (Told.nothing.stream ops).flatMap Packet.bytes)
    (uninit : Nat → Int) {n : Nat} (hn : (Told.nothing.stream ops).length + 1 < n) :
    ∃ d, (receiveAll regs refs uninit n).run (decoderNew r) = (.ok (some φ.code), d) ∧
      d.calls = Receiver.calls ⟨regs.reverse, refs.reverse⟩ Told.nothing ops := by
  -- before anything is read
  obtain ⟨d1, hsamples, hreader1, hcalls1, hprepared1, hwithin1⟩ := (prepared_new K r).samples hK hφ
    hKm (decoderNew_within (Nat.zero_lt_of_lt hφ.tags) r) hregs
  obtain ⟨d2, hreferences, hreader2, hcalls2, hprepared2, hwithin2⟩ :=
    hprepared1.references hK hφ hKm hwithin1 hrefs
  rw [List.append_nil, List.append_nil] at hprepared2
  have hreader : d2.reader = r := hreader2.trans hreader1
  have hreading : d2.Reading (currentVersion.bytes ++
      (Told.nothing.stream ops).flatMap Packet.bytes) := by
    refine ⟨by rw [hreader, hr], ?_⟩
    rw [hreader]
    exact hread
  -- the loop: the version, the packets of the calls, the end
  obtain ⟨k, rfl⟩ : ∃ k, n = k + 1 + (Told.nothing.stream ops).length + 1 :=
    ⟨n - 2 - (Told.nothing.stream ops).length, by omega⟩
  obtain ⟨result, d3, hversion, hpos, hreading3, hcalls3, hstep⟩ :=
    hprepared2.takes_version hreading (uninit (k + 1 + (Told.nothing.stream ops).length))
  have ht : Told.nothing.Known L ⟨regs.reverse, refs.reverse⟩ :=
    ⟨fun _ s hs => absurd hs List.not_mem_nil, fun s hs => absurd hs List.not_mem_nil⟩
  have hwithin3 : d3.Within m :=
    hwithin2.takes hφ (p := currentVersion) trivial currentVersion_wellFormed.length hreading hversion
  obtain ⟨d4, hloop, hreading4, hcalls4⟩ :=
    hstep.operations hK hL hφ hLm hwithin3 ht hops hreading3 uninit (k + 1)
  obtain ⟨d5, hend, hcalls5⟩ := decoderRun_end hreading4 uninit k
  refine ⟨d5, ?_, ?_⟩
  · rw [receiveAll, run_bind_ok hsamples, run_bind_ok hreferences, decoderRun_succ hversion hpos,
      hloop, hend]
  · rw [hcalls5, hcalls4, hcalls3, List.append_nil, hcalls2, hcalls1]
    rfl

/-- The programs on the two sides are made from the same declarations: what is registered for
samples on one side is registered on the other with the same type, under any local indices below
`m`. A reference may be known to one side alone, as long as the receiver has some. -/
structure Agree (m : Nat) (ops : List Operation) (regs : List Registration)
    (refs : List Signature) : Prop where
  sender : Distinct fun s => ∃ op ∈ ops, op.signature = s
  fits : ∀ op ∈ ops, op.Fits
  receiver : Distinct fun s => (∃ reg ∈ regs, reg.signature = s) ∨ s ∈ refs
  sent_lt : ∀ op ∈ ops, op.signature.index < m
  registered_lt : ∀ s, (∃ reg ∈ regs, reg.signature = s) ∨ s ∈ refs → s.index < m
  samples : ∀ s, Operation.sampleRegister s ∈ ops →
    ∃ reg ∈ regs, SameSignature reg.signature s.name s.bytes
  types : ∀ s type v, Operation.encode s type v ∈ ops →
    ∀ reg ∈ regs, SameSignature reg.signature s.name s.bytes → reg.type = type
  refs : ∀ s, Operation.refRegister s ∈ ops → refs ≠ []

/-- The two sides agree on each call. -/
theorem Agree.known {m : Nat} {ops : List Operation} {regs : List Registration}
    {refs : List Signature} (h : Agree m ops regs refs) : ∀ op ∈ ops,
      op.Known (fun s => ∃ op ∈ ops, op.signature = s) ⟨regs.reverse, refs.reverse⟩ := by
  intro op hop
  refine ⟨⟨op, hop, rfl⟩, h.fits op hop, ?_, ?_, ?_⟩
  · rintro s rfl
    obtain ⟨reg, hmem, hsame⟩ := h.samples s hop
    exact Option.isSome_iff_exists.mp (List.find?_isSome.mpr
      ⟨reg, List.mem_reverse.mpr hmem, decide_eq_true hsame⟩)
  · rintro s rfl
    exact fun hnil => h.refs s hop (List.reverse_eq_nil_iff.mp hnil)
  · rintro s type v rfl reg hreg
    exact h.types s type v hop reg (List.mem_reverse.mp (List.mem_of_find?_eq_some hreg))
      (of_decide_eq_true (List.find?_some
        (p := fun reg : Registration => decide (SameSignature reg.signature s.name s.bytes)) hreg))

/-- **A decoder that reads what an encoder has sent** takes all of it, calls the handlers with the
samples that were encoded after their registration, in that order and each once, and stops at the
end of its input. Its tables have room for the local indices. -/
theorem decoderRun_delivers (hω : ω.Flushes) (hstart : ∀ n, ω.start n = 0) {m : Nat}
    (hφ : φ.Ample m) {ops : List Operation} {regs : List Registration} {refs : List Signature}
    (h : Agree m ops regs refs) (w : Writer ω) (r : Reader φ) (hr : r.error = 0)
    (hsent : ((callOperations ops).run (newEncoder w)).2.writer.written = w.written ++ r.unread)
    (uninit : Nat → Int) {n : Nat} (hn : ops.length + 1 < n) :
    ((callOperations ops).run (newEncoder w)).1 = .ok () ∧
      ∃ d, (receiveAll regs refs uninit n).run (decoderNew r) = (.ok (some φ.code), d) ∧
        d.calls = Receiver.calls ⟨regs.reverse, refs.reverse⟩ Told.nothing ops := by
  have hops : ∀ op ∈ ops, op.signature.HasIndex ∧ op.Fits := fun op hop =>
    ⟨h.sender.hasIndex _ ⟨op, hop, rfl⟩, h.fits op hop⟩
  have hnew : Reflects Told.nothing (newEncoder w) := newEncoder_done w
  obtain ⟨e', hrun, hwritten⟩ := operations_send hω hstart hnew hops
  rw [hrun] at hsent
  rw [hsent, (newEncoder_writer hω w).2, List.append_assoc, List.append_cancel_left_eq] at hwritten
  have hlength := Told.stream_length_le Told.nothing ops
  have hsender : ∀ s, (∃ op ∈ ops, op.signature = s) → s.index < m := by
    rintro s ⟨op, hop, rfl⟩
    exact h.sent_lt op hop
  exact ⟨by rw [hrun], receiveAll_reads h.receiver h.sender hφ h.registered_lt hsender
    (fun reg hreg => .inl ⟨reg, hreg, rfl⟩) (fun s hs => .inr hs) h.known hr hwritten uninit
    (by omega)⟩

/-- A sample type that is a reference, under a local index. -/
def refSignature (index : Int) : Signature :=
  .mk [97] (some [0x28]) index (.sigdefBytes 0x28 [] .sigdefEnd)

/-- The sample type is registered, also as a reference, and a reference to it is sent. -/
def refCalls : List Operation :=
  [.sampleRegister (refSignature 0x40), .refRegister (refSignature 0x40),
    .encode (refSignature 0x40) (.prim .sample) (.ref (some 0x40))]

theorem signature_of_mem_refCalls {s : Signature} (h : ∃ op ∈ refCalls, op.signature = s) :
    s = refSignature 0x40 := by
  obtain ⟨op, hop, rfl⟩ := h
  simp only [refCalls, List.mem_cons, List.not_mem_nil, or_false] at hop
  rcases hop with rfl | rfl | rfl
  · rfl
  · rfl
  · rfl

theorem distinct_singleton {K : Signature → Prop} {s : Signature} (hs : s.HasIndex)
    (h : ∀ s', K s' → s' = s) : Distinct K := by
  refine ⟨fun s' hs' => ?_, fun s' s'' hs' hs'' _ => ?_, fun s' s'' hs' hs'' _ => ?_⟩
  · rw [h s' hs']
    exact hs
  · rw [h s' hs', h s'' hs'']
  · rw [h s' hs', h s'' hs'']

/-- The receiver has another local index for the type. -/
theorem refCalls_agree :
    Agree 128 refCalls [⟨refSignature 0x50, .prim .sample, ⟨1, 0⟩⟩] [refSignature 0x50] := by
  have hsame : SameSignature (refSignature 0x50) [97] [0x28] := ⟨rfl, rfl⟩
  refine ⟨distinct_singleton (s := refSignature 0x40) ⟨by decide, by decide⟩
    fun s => signature_of_mem_refCalls, ?_, distinct_singleton (s := refSignature 0x50)
      ⟨by decide, by decide⟩ ?_, ?_, ?_, ?_, ?_, ?_⟩
  · intro op hop
    simp only [refCalls, List.mem_cons, List.not_mem_nil, or_false] at hop
    rcases hop with rfl | rfl | rfl
    · exact ⟨by decide, by decide⟩
    · exact ⟨by decide, by decide⟩
    · refine ⟨trivial, ⟨some 0x40, rfl, trivial⟩, fun refs => ?_⟩
      show (bigEndian 4 _).length < 2 ^ 31
      rw [bigEndian_length]
      decide
  · rintro s (⟨reg, hreg, rfl⟩ | hs)
    · rw [List.mem_singleton.mp hreg]
    · exact List.mem_singleton.mp hs
  · intro op hop
    rw [signature_of_mem_refCalls ⟨op, hop, rfl⟩]
    decide
  · rintro s (⟨reg, hreg, rfl⟩ | hs)
    · rw [List.mem_singleton.mp hreg]
      decide
    · rw [List.mem_singleton.mp hs]
      decide
  · intro s hs
    obtain rfl : s = refSignature 0x40 := signature_of_mem_refCalls ⟨_, hs, rfl⟩
    exact ⟨_, List.mem_singleton_self _, hsame⟩
  · intro s type v hencode reg hreg _
    simp only [refCalls, List.mem_cons, List.not_mem_nil, or_false, reduceCtorEq, false_or,
      Operation.encode.injEq] at hencode
    rw [List.mem_singleton.mp hreg, hencode.2.1]
  · intro s _
    exact List.cons_ne_nil _ _

/-- The handler gets the receiver's own reference. -/
theorem decoderRun_delivers_ref : ∃ d : Decoder endOfFile,
    (receiveAll [⟨refSignature 0x50, .prim .sample, ⟨1, 0⟩⟩] [refSignature 0x50] (fun _ => 0) 5).run
        (decoderNew (Reader.ofBytes endOfFile ((callOperations refCalls).run
          (newEncoder (.empty bytewise))).2.writer.written)) = (.ok (some (-5)), d) ∧
      d.calls = [⟨⟨1, 0⟩, .sample (.ref (some 0x50))⟩] := by
  have hcalls : Receiver.calls ⟨[⟨refSignature 0x50, .prim .sample, ⟨1, 0⟩⟩], [refSignature 0x50]⟩
      Told.nothing refCalls = [⟨⟨1, 0⟩, .sample (.ref (some 0x50))⟩] := rfl
  rw [← hcalls]
  exact (decoderRun_delivers (fun _ => rfl) (fun _ => rfl) endOfFile_ample refCalls_agree
    (.empty bytewise) (Reader.ofBytes endOfFile _) rfl
    (by rw [Reader.ofBytes_unread]; exact (List.nil_append _).symm) (fun _ => 0) (by decide)).2

end LabComm.C
