import LabComm.C.Encoder

set_option autoImplicit false

/-! # What one call of the encoder does

For each function of the encoder, all its outcomes: what it returns, which entry of which
table it marks and what it adds to the log. The runs of the encoder are studied from these
alone.
-/

namespace LabComm.C

open Library

variable {ω : WriterAction}

/-! ## The encoder as a sink

Writing through the encoder changes the writer and nothing else. -/

instance : Sink (Encoder ω)
    (Int × Nat × SigArray Bool × SigArray Bool × SigArray Bool × List Sent) where
  written e := e.writer.written
  kept e := (e.writer.error, e.writer.starts, e.registered, e.sampleRef, e.typedefs, e.sent)
  Ready _ := ω.Flushes

theorem onWriter_completes {α : Type} {m : StateM (Writer ω) α} {a : α} {bs : List UInt8}
    (h : Emits m a bs) : Completes (onWriter m : EncoderM ω α) a bs := by
  intro e he
  obtain ⟨h1, h2, h3, h4⟩ := h e.writer he
  refine ⟨congrArg Except.ok h1, h2, ?_, h4⟩
  have herr := congrArg Prod.fst h3
  have hstarts := congrArg Prod.snd h3
  simp only [Sink.kept] at herr hstarts ⊢
  show ((m e.writer).2.error, (m e.writer).2.starts, _) = _
  rw [herr, hstarts]
  rfl

/-- The encoder after writing: all fields but the writer are as they were. -/
theorem completes_encoder {α : Type} {m : EncoderM ω α} {a : α} {bs : List UInt8}
    (h : Completes m a bs) (hω : ω.Flushes) (e : Encoder ω) :
    ∃ w : Writer ω, m.run e = (.ok a, { e with writer := w }) ∧ w.error = e.writer.error ∧
      w.starts = e.writer.starts ∧ w.written = e.writer.written ++ bs := by
  obtain ⟨h1, _, h3, h4⟩ := h e hω
  simp only [Sink.kept, Prod.mk.injEq] at h3
  obtain ⟨k1, k2, k3, k4, k5, k6⟩ := h3
  refine ⟨(m.run e).2.writer, ?_, k1, k2, h4⟩
  rw [← h1, ← k3, ← k4, ← k5, ← k6]
  rfl

/-! ## Definitions -/

/-- What is written of a definition. -/
def writtenDefinition (tag : Nat) (index : Int) (s : Signature) (size : Int)
    (body : List UInt8) : List UInt8 :=
  let length := wrap32 (sizePacked32 (toUnsigned index) + todoSizeofIntentions s +
    sizePacked32 (toUnsigned size) + size)
  packed32 tag ++ (packed32 (toUnsigned length) ++ (packed32 (toUnsigned index) ++
    (packed32 1 ++ (packed32 0 ++ stringBytes s.name) ++ (packed32 (toUnsigned size) ++ body))))

theorem todoEncodeIntentions_emits (s : Signature) :
    Emits (todoEncodeIntentions (ω := ω) s) ()
      (packed32 1 ++ (packed32 0 ++ stringBytes s.name)) := by
  have hname := (writeString_emits (ω := ω) s.name).bind (f := fun _ => pure ()) (Emits.pure ())
  rw [List.append_nil] at hname
  exact (writePacked32_emits 1).bind ((writePacked32_emits 0).bind hname)

theorem writeDefinition_completes {tag : Nat} {index : Int} {s : Signature} {size : Int}
    {body : EncoderM ω Unit} {bs : List UInt8} (h : Completes body () bs) :
    Completes (writeDefinition tag index s size body) ()
      (writtenDefinition tag index s size bs) :=
  (onWriter_completes (writePacked32_emits _)).bind
    ((onWriter_completes (writePacked32_emits _)).bind
      ((onWriter_completes (writePacked32_emits _)).bind
        ((onWriter_completes (todoEncodeIntentions_emits s)).bind
          ((onWriter_completes (writePacked32_emits _)).bind h))))

theorem writeFlatSignature_completes (s : Signature) :
    Completes (writeFlatSignature s : EncoderM ω Unit) () s.bytes := by
  have key := Completes.forM (ω := Encoder ω) (ε := Exit) s.bytes
    (f := fun b => onWriter (writeRawByte b)) (h := fun b => [b])
    fun b _ => onWriter_completes (writeRawByte_emits b)
  rwa [List.flatMap_singleton'] at key

/-! ## Hierarchical signatures -/

/-- Every signature the entries point to has its index. -/
def SignatureData.RefsSet : SignatureData → Prop
  | .sigdefEnd => True
  | .sigdefBytes _ _ rest => rest.RefsSet
  | .sigdefSignature s rest => s.index ≠ 0 ∧ rest.RefsSet

/-- The bytes of a hierarchical signature. -/
def SignatureData.itemBytes (d : SignatureData) : List UInt8 := d.items.flatMap SigItem.bytes

theorem SignatureData.itemBytes_sigdefBytes (b : UInt8) (bs : List UInt8)
    (rest : SignatureData) :
    (SignatureData.sigdefBytes b bs rest).itemBytes = b :: bs ++ rest.itemBytes := by
  simp [SignatureData.itemBytes, SignatureData.items, List.flatMap_cons, SigItem.bytes,
    List.flatMap_map]

theorem SignatureData.itemBytes_sigdefSignature (s : Signature) (rest : SignatureData) :
    (SignatureData.sigdefSignature s rest).itemBytes =
      packed32 (toUnsigned s.index) ++ rest.itemBytes := by
  simp [SignatureData.itemBytes, SignatureData.items, SigItem.bytes]

theorem getLocalIndex_some {s : Signature} (h : s.index ≠ 0) :
    getLocalIndex (some s) = .ok s.index := if_neg h

theorem forM_sigSize (bs : List UInt8) (r : Int) :
    (bs.forM fun b => sigSize b none).run (wrap32 r) = .ok ((), wrap32 (r + bs.length)) := by
  induction bs generalizing r with
  | nil => simp [StateT.run, pure, stateT_pure_apply, Except.pure]
  | cons b bs ih =>
      show (bs.forM fun b => sigSize b none).run (wrap32 (wrap32 r + 1)) = _
      rw [wrap32_wrap32_add, ih, List.length_cons]
      push_cast
      rw [add_assoc, add_comm 1]

theorem mapSignatureData_sigSize (d : SignatureData) (h : d.RefsSet) (r : Int) :
    (mapSignatureData sigSize false d).run (wrap32 r) =
      .ok ((), wrap32 (r + d.itemBytes.length)) := by
  match d with
  | .sigdefEnd => simp [mapSignatureData, SignatureData.itemBytes, SignatureData.items,
      StateT.run, pure, stateT_pure_apply, Except.pure]
  | .sigdefBytes b bs rest =>
      have ih := mapSignatureData_sigSize rest h (r + (b :: bs).length)
      have hrun : (mapSignatureData sigSize false (.sigdefBytes b bs rest)).run (wrap32 r) =
          ((b :: bs).forM fun b => sigSize b none).run (wrap32 r) >>= fun p =>
            (mapSignatureData sigSize false rest).run p.2 := rfl
      rw [hrun, forM_sigSize, SignatureData.itemBytes_sigdefBytes, List.length_append]
      show (mapSignatureData sigSize false rest).run _ = _
      rw [ih]
      push_cast
      rw [add_assoc]
  | .sigdefSignature s rest =>
      have ih := mapSignatureData_sigSize rest h.2 (r + (packed32 (toUnsigned s.index)).length)
      have hsize : (sigSize 0 (some s)).run (wrap32 r) =
          .ok ((), wrap32 (r + (packed32 (toUnsigned s.index)).length)) := by
        rw [sigSize, getLocalIndex_some h.1]
        show Except.ok ((), wrap32 (wrap32 r + sizePacked32 (toUnsigned s.index))) = _
        rw [wrap32_wrap32_add, sizePacked32_eq]
      have hrun : (mapSignatureData sigSize false (.sigdefSignature s rest)).run (wrap32 r) =
          (sigSize 0 (some s)).run (wrap32 r) >>= fun p =>
            (mapSignatureData sigSize false rest).run p.2 := rfl
      rw [hrun, hsize, SignatureData.itemBytes_sigdefSignature, List.length_append]
      show (mapSignatureData sigSize false rest).run _ = _
      rw [ih]
      push_cast
      rw [add_assoc]

/-- The size that is computed of a hierarchical signature, if every reference is set. -/
theorem calcSigEncodedSize_eq (s : Signature) (h : s.treedata.RefsSet) :
    calcSigEncodedSize s = .ok (wrap32 s.treedata.itemBytes.length) := by
  obtain ⟨name, signature, index, treedata⟩ := s
  have hzero : wrap32 0 = 0 := by decide
  have key := mapSignatureData_sigSize treedata h 0
  rw [hzero, zero_add] at key
  rw [calcSigEncodedSize, mapSignature, key]
  rfl

theorem mapSignatureData_sigSize_error (d : SignatureData) (h : ¬ d.RefsSet) (r : Int) :
    (mapSignatureData sigSize false d).run (wrap32 r) = .error .signatureNotSet := by
  match d with
  | .sigdefEnd => exact absurd trivial h
  | .sigdefBytes b bs rest =>
      have ih := mapSignatureData_sigSize_error rest h (r + (b :: bs).length)
      have hrun : (mapSignatureData sigSize false (.sigdefBytes b bs rest)).run (wrap32 r) =
          ((b :: bs).forM fun b => sigSize b none).run (wrap32 r) >>= fun p =>
            (mapSignatureData sigSize false rest).run p.2 := rfl
      rw [hrun, forM_sigSize]
      exact ih
  | .sigdefSignature s rest =>
      have hrun : (mapSignatureData sigSize false (.sigdefSignature s rest)).run (wrap32 r) =
          (sigSize 0 (some s)).run (wrap32 r) >>= fun p =>
            (mapSignatureData sigSize false rest).run p.2 := rfl
      rw [hrun]
      by_cases hs : s.index = 0
      · rw [sigSize, getLocalIndex, if_pos hs]
        rfl
      · have ih := mapSignatureData_sigSize_error rest (fun hrest => h ⟨hs, hrest⟩)
          (r + sizePacked32 (toUnsigned s.index))
        rw [sigSize, getLocalIndex_some hs]
        show (mapSignatureData sigSize false rest).run (wrap32 (wrap32 r + _)) = _
        rw [wrap32_wrap32_add, ih]

theorem calcSigEncodedSize_error (s : Signature) (h : ¬ s.treedata.RefsSet) :
    calcSigEncodedSize s = .error .signatureNotSet := by
  obtain ⟨name, signature, index, treedata⟩ := s
  have hzero : wrap32 0 = 0 := by decide
  have key := mapSignatureData_sigSize_error treedata h 0
  rw [hzero] at key
  rw [calcSigEncodedSize, mapSignature, key]
  rfl

theorem mapSignatureData_writeSigTreeByte (d : SignatureData) (h : d.RefsSet) :
    Completes (mapSignatureData writeSigTreeByte false d : EncoderM ω Unit) () d.itemBytes := by
  match d with
  | .sigdefEnd => exact Completes.pure ()
  | .sigdefBytes b bs rest =>
      have hbytes := Completes.forM (ω := Encoder ω) (ε := Exit) (b :: bs)
        (f := fun b => writeSigTreeByte b none) (h := fun b => [b])
        fun b _ => onWriter_completes (writeRawByte_emits b)
      rw [List.flatMap_singleton'] at hbytes
      rw [SignatureData.itemBytes_sigdefBytes]
      exact hbytes.bind (mapSignatureData_writeSigTreeByte rest h)
  | .sigdefSignature s rest =>
      have href : Completes (writeSigTreeByte 0 (some s) : EncoderM ω Unit) ()
          (packed32 (toUnsigned s.index)) := by
        have key := (onWriter_completes (writePacked32_emits (ω := ω) (toUnsigned s.index))).bind
          (f := fun _ => pure ()) (Completes.pure ())
        rw [List.append_nil] at key
        rw [writeSigTreeByte, getLocalIndex_some h.1]
        exact key
      rw [SignatureData.itemBytes_sigdefSignature]
      exact href.bind (mapSignatureData_writeSigTreeByte rest h.2)

theorem mapSignature_writeSigTreeByte (s : Signature) (h : s.treedata.RefsSet) :
    Completes (mapSignature writeSigTreeByte false s : EncoderM ω Unit) ()
      s.treedata.itemBytes := by
  obtain ⟨name, signature, index, treedata⟩ := s
  exact mapSignatureData_writeSigTreeByte treedata h

/-! ## Registration -/

/-- The encoder after a call of the writer's start. -/
def Encoder.started (e : Encoder ω) : Encoder ω := { e with writer := (writerStart e.writer).2 }

@[simp] theorem Encoder.setDone_writer (e : Encoder ω) (table : Table) (index : Int) :
    (e.setDone table index).writer = e.writer := by
  cases table <;> rfl

@[simp] theorem Encoder.setDone_sent (e : Encoder ω) (table : Table) (index : Int) :
    (e.setDone table index).sent = e.sent := by
  cases table <;> rfl

/-- Marking an entry changes the entry. -/
theorem Encoder.done_setDone (e : Encoder ω) (table table' : Table) (index i : Int) :
    (e.setDone table index).done table' i =
      (decide (table' = table ∧ i = index) || e.done table' i) := by
  by_cases hi : i = index
  · subst hi
    cases table <;> cases table' <;> simp [Encoder.done, Encoder.table, Encoder.setDone]
  · cases table <;> cases table' <;>
      simp [Encoder.done, Encoder.table, Encoder.setDone, SigArray.get_set, hi]

/-- **All outcomes of a registration.** -/
theorem register_run (table : Table) (s : Signature) (define : Int → EncoderM ω Unit)
    (packet : Int → Packet) (e : Encoder ω) :
    (register table s define packet).run e =
      if s.index = 0 then (.error .signatureNotSet, e)
      else if s.index ≤ 0 ∨ e.done table s.index = true then (.ok (-EINVAL), e)
      else if ω.start e.writer.starts = -EALREADY then (.ok 0, (e.setDone table s.index).started)
      else if ω.start e.writer.starts ≠ 0 then
        (.ok (ω.start e.writer.starts), (e.setDone table s.index).started)
      else (finish (define s.index) (packet s.index)).run (e.setDone table s.index).started := by
  have hstarts : (e.setDone table s.index).writer.starts = e.writer.starts := by
    rw [Encoder.setDone_writer]
  -- the checks in the order of the source
  by_cases h0 : s.index = 0
  · rw [if_pos h0]
    simp only [register, getLocalIndex, if_pos h0]
    rfl
  rw [if_neg h0]
  simp only [register, getLocalIndex, if_neg h0]
  by_cases h1 : s.index ≤ 0
  · rw [if_pos (Or.inl h1)]
    show ((if s.index ≤ 0 then _ else _ : EncoderM ω Int).run e) = _
    rw [if_pos h1]
    rfl
  show ((if s.index ≤ 0 then _ else _ : EncoderM ω Int).run e) = _
  rw [if_neg h1]
  by_cases h2 : e.done table s.index = true
  · rw [if_pos (Or.inr h2)]
    show ((if e.done table s.index = true then _ else _ : EncoderM ω Int).run e) = _
    rw [if_pos h2]
    rfl
  rw [if_neg (not_or.mpr ⟨h1, h2⟩)]
  show ((if e.done table s.index = true then _ else _ : EncoderM ω Int).run e) = _
  rw [if_neg h2]
  show ((if ω.start (e.setDone table s.index).writer.starts = -EALREADY then _ else _ :
    EncoderM ω Int).run (e.setDone table s.index).started) = _
  rw [hstarts]
  by_cases h3 : ω.start e.writer.starts = -EALREADY
  · rw [if_pos h3, if_pos h3]
    rfl
  rw [if_neg h3, if_neg h3]
  show ((if ω.start (e.setDone table s.index).writer.starts ≠ 0 then _ else _ :
    EncoderM ω Int).run (e.setDone table s.index).started) = _
  rw [hstarts]
  by_cases h4 : ω.start e.writer.starts ≠ 0
  · rw [if_pos h4, if_pos h4, ← hstarts]
    rfl
  · rw [if_neg h4, if_neg h4]

/-- After a successful start the definition goes out. -/
theorem finish_run {define : EncoderM ω Unit} {bs : List UInt8} (h : Completes define () bs)
    (hω : ω.Flushes) (packet : Packet) (e : Encoder ω) :
    ∃ w : Writer ω, (finish define packet).run e =
        (.ok e.writer.error, { e with writer := w, sent := e.sent ++ [⟨packet, []⟩] }) ∧
      w.error = e.writer.error ∧ w.starts = e.writer.starts ∧
      w.written = e.writer.written ++ bs := by
  obtain ⟨w, hrun, herr, hstarts, hwritten⟩ := completes_encoder h hω e
  let e' : Encoder ω := { e with writer := w, sent := e.sent ++ [⟨packet, []⟩] }
  obtain ⟨w', hrun', herr', hstarts', hwritten'⟩ :=
    completes_encoder (onWriter_completes (writerFlush_emits (ω := ω))) hω e'
  refine ⟨w', ?_, herr'.trans herr, hstarts'.trans hstarts, ?_⟩
  · rw [finish, run_bind_ok hrun]
    show ((onWriter writerFlush >>= fun _ => do return (← get).writer.error :
      EncoderM ω Int).run e') = _
    rw [run_bind_ok hrun']
    show (Except.ok w'.error, _) = _
    rw [herr', herr]
  · rw [hwritten', List.append_nil]
    exact hwritten

/-! ## The three registrations -/

/-- The call that registers a signature in a table. -/
def doRegister : Table → Signature → EncoderM ω Int
  | .registered => doSampleRegister
  | .sampleRef => doRefRegister
  | .typedefs => doTypeRegister

/-- The packet that goes with an entry of a table. -/
def definition (table : Table) (s : Signature) : Packet :=
  match table with
  | .registered => .sampleDef (toUnsigned s.index) [nameIntention s.name] s.bytes
  | .sampleRef => .sampleRef (toUnsigned s.index) [nameIntention s.name] s.bytes
  | .typedefs => .typeDef (toUnsigned s.index) [nameIntention s.name] s.treedata.items

/-- The signature that is part of a definition. -/
def definedBytes (table : Table) (s : Signature) : List UInt8 :=
  match table with
  | .registered => s.bytes
  | .sampleRef => s.bytes
  | .typedefs => s.treedata.itemBytes

/-- The size that goes with it. -/
def definedSize (table : Table) (s : Signature) : Int :=
  match table with
  | .registered => s.size
  | .sampleRef => s.size
  | .typedefs => wrap32 s.treedata.itemBytes.length

/-- What is written of a definition. -/
def sentDefinition (table : Table) (s : Signature) : List UInt8 :=
  writtenDefinition (definition table s).tag s.index s (definedSize table s)
    (definedBytes table s)

/-- The definition of a signature can be written. -/
def Definable (table : Table) (s : Signature) : Prop :=
  table = .typedefs → s.treedata.RefsSet

theorem doRegister_unset {s : Signature} (table : Table) (e : Encoder ω) (h : s.index = 0) :
    (doRegister table s).run e = (.error .signatureNotSet, e) := by
  cases table <;> exact (register_run ..).trans (if_pos h)

theorem doRegister_refused {s : Signature} {table : Table} {e : Encoder ω} (h0 : s.index ≠ 0)
    (h : s.index ≤ 0 ∨ e.done table s.index = true) :
    (doRegister table s).run e = (.ok (-EINVAL), e) := by
  cases table <;> exact (register_run ..).trans ((if_neg h0).trans (if_pos h))

/-- The entry is marked although the writer did not start. -/
theorem doRegister_notStarted {s : Signature} {table : Table} {e : Encoder ω}
    (h0 : 0 < s.index) (hdone : e.done table s.index = false)
    (hstart : ω.start e.writer.starts ≠ 0) :
    (doRegister table s).run e =
      (.ok (if ω.start e.writer.starts = -EALREADY then 0 else ω.start e.writer.starts),
        (e.setDone table s.index).started) := by
  have hgo : ¬ (s.index ≤ 0 ∨ e.done table s.index = true) := by
    rw [hdone]
    simpa using h0
  have key : ∀ define packet, (register table s define packet).run e =
      (.ok (if ω.start e.writer.starts = -EALREADY then 0 else ω.start e.writer.starts),
        (e.setDone table s.index).started) := by
    intro define packet
    rw [register_run, if_neg h0.ne', if_neg hgo]
    split
    · rfl
    · rfl
  cases table <;> exact key _ _

theorem started_ok {e : Encoder ω} (h : ω.start e.writer.starts = 0) :
    e.started.writer.error = 0 := by
  show (if ω.start e.writer.starts = -EALREADY then _ else _ : Int) = 0
  rw [h, if_neg (by decide)]

theorem sampleDef_completes (tag : Nat) (index : Int) (s : Signature) :
    Completes (writeDefinition tag index s s.size (writeFlatSignature s) : EncoderM ω Unit) ()
      (writtenDefinition tag index s s.size s.bytes) :=
  writeDefinition_completes (writeFlatSignature_completes s)

theorem typeDef_completes (index : Int) {s : Signature} (hdef : s.treedata.RefsSet) :
    Completes (do
      let size ← calcSigEncodedSize s
      writeDefinition LABCOMM_TYPE_DEF index s size (mapSignature writeSigTreeByte false s) :
        EncoderM ω Unit) ()
      (writtenDefinition LABCOMM_TYPE_DEF index s (wrap32 s.treedata.itemBytes.length)
        s.treedata.itemBytes) := by
  have key := (Completes.ofExcept (calcSigEncodedSize_eq s hdef)).bind
    (f := fun size => writeDefinition LABCOMM_TYPE_DEF index s size
      (mapSignature writeSigTreeByte false s))
    (writeDefinition_completes (mapSignature_writeSigTreeByte (ω := ω) s hdef))
  rwa [List.nil_append] at key

/-- **A registration that is not refused sends the definition.** -/
theorem doRegister_sends {s : Signature} {table : Table} {e : Encoder ω} (hω : ω.Flushes)
    (h0 : 0 < s.index) (hdone : e.done table s.index = false)
    (hstart : ω.start e.writer.starts = 0) (hdef : Definable table s) :
    ∃ w : Writer ω, (doRegister table s).run e =
        (.ok 0, { e.setDone table s.index with
          writer := w
          sent := e.sent ++ [⟨definition table s, []⟩] }) ∧
      w.error = 0 ∧ w.starts = e.writer.starts + 1 ∧
      w.written = e.writer.written ++ sentDefinition table s := by
  have hgo : ¬ (s.index ≤ 0 ∨ e.done table s.index = true) := by
    rw [hdone]
    simpa using h0
  -- the three kinds differ in what writes the packet
  have key : ∀ (define : Int → EncoderM ω Unit) (packet : Int → Packet),
      packet s.index = definition table s →
      Completes (define s.index) () (sentDefinition table s) →
      ∃ w : Writer ω, (register table s define packet).run e =
        (.ok 0, { e.setDone table s.index with
          writer := w
          sent := e.sent ++ [⟨definition table s, []⟩] }) ∧
      w.error = 0 ∧ w.starts = e.writer.starts + 1 ∧
      w.written = e.writer.written ++ sentDefinition table s := by
    intro define packet hpacket hcomp
    obtain ⟨w, hrun, herr, hstarts, hwritten⟩ :=
      finish_run hcomp hω (packet s.index) (e.setDone table s.index).started
    have herr0 : (e.setDone table s.index).started.writer.error = 0 :=
      started_ok (by rw [Encoder.setDone_writer]; exact hstart)
    refine ⟨w, ?_, herr.trans herr0, hstarts.trans ?_, hwritten.trans ?_⟩
    · rw [register_run, if_neg h0.ne', if_neg hgo, hstart, if_neg (by decide),
        if_neg (by decide), hrun, herr0, hpacket]
      simp only [Encoder.started, Encoder.setDone_sent]
    · show (e.setDone table s.index).writer.starts + 1 = _
      rw [Encoder.setDone_writer]
    · show (e.setDone table s.index).writer.written ++ _ = _
      rw [Encoder.setDone_writer]
  cases table with
  | registered => exact key _ _ rfl (sampleDef_completes LABCOMM_SAMPLE_DEF s.index s)
  | sampleRef => exact key _ _ rfl (sampleDef_completes LABCOMM_SAMPLE_REF s.index s)
  | typedefs => exact key _ _ rfl (typeDef_completes s.index (hdef rfl))

/-- A type register whose hierarchical signature refers to a signature without an index ends
the process, after the entry was marked. -/
theorem doTypeRegister_unsetRef {s : Signature} {e : Encoder ω} (h0 : 0 < s.index)
    (hdone : e.done .typedefs s.index = false) (hstart : ω.start e.writer.starts = 0)
    (hdef : ¬ s.treedata.RefsSet) :
    (doRegister .typedefs s).run e =
      (.error .signatureNotSet, (e.setDone .typedefs s.index).started) := by
  have hgo : ¬ (s.index ≤ 0 ∨ e.done .typedefs s.index = true) := by
    rw [hdone]
    simpa using h0
  refine (register_run ..).trans ?_
  rw [if_neg h0.ne', if_neg hgo, hstart, if_neg (by decide), if_neg (by decide)]
  refine run_bind_error ?_
  rw [calcSigEncodedSize_error s hdef]
  rfl

/-! ## The bytes of a definition -/

/-- The lengths of the packet can be kept in an `int`, and the name is a C string. -/
structure PacketFits (table : Table) (s : Signature) : Prop where
  name : (0 : UInt8) ∉ s.name
  length : (definition table s).body.length < 2 ^ 31

theorem definition_body (table : Table) (s : Signature) :
    (definition table s).body =
      packed32 (toUnsigned s.index) ++ (packed32 1 ++ (packed32 0 ++ counted s.name)) ++
        counted (definedBytes table s) := by
  cases table <;>
    simp [definition, definedBytes, Packet.body, definitionBytes, intentionsBytes, counted,
      nameIntention, Intention.bytes, SignatureData.itemBytes]

/-- The sizes are computed modulo `2 ^ 32`, which is enough when the body is shorter. Only the
length of the name has to be an `int`, since it is compared with one. -/
theorem sentDefinition_bytes {table : Table} {s : Signature} (h0 : (0 : UInt8) ∉ s.name)
    (hshort : s.name.length < 2 ^ 31) (hlen : (definition table s).body.length < 2 ^ 32) :
    sentDefinition table s = (definition table s).bytes := by
  have hbody := definition_body table s
  -- the body in its four parts
  have hparts : (definition table s).body.length = (packed32 (toUnsigned s.index)).length +
      ((counted s.name).length + 2) + (packed32 (definedBytes table s).length).length +
        (definedBytes table s).length := by
    have hone : (packed32 1).length = 1 := by decide
    have hzero : (packed32 0).length = 1 := by decide
    rw [hbody]
    simp only [List.length_append, counted_length]
    omega
  have hname : stringBytes s.name = counted s.name := stringBytes_eq h0 hshort
  have hstring : sizeString s.name = wrap32 ((counted s.name).length : Nat) := by
    rw [sizeString, strlen_of_not_mem h0, wrap32_natCast hshort,
      toUnsigned_natCast (by omega), sizePacked32_eq, counted_length]
    push_cast
    rfl
  have hsize : toUnsigned (definedSize table s) = (definedBytes table s).length := by
    have hfit : (definedBytes table s).length < 2 ^ 32 := by omega
    cases table with
    | registered => exact toUnsigned_natCast hfit
    | sampleRef => exact toUnsigned_natCast hfit
    | typedefs => exact (toUnsigned_wrap32 _).trans (toUnsigned_natCast hfit)
  -- a sum modulo `2 ^ 32` may be reduced anywhere
  have hwrap : ∀ i : Int, wrap32 (i + definedSize table s) =
      wrap32 (i + (definedBytes table s).length) := by
    intro i
    cases table with
    | registered => rfl
    | sampleRef => rfl
    | typedefs => exact wrap32_add_wrap32 i _
  have hlength : toUnsigned (wrap32 (sizePacked32 (toUnsigned s.index) + todoSizeofIntentions s +
      sizePacked32 (toUnsigned (definedSize table s)) + definedSize table s)) =
        (definition table s).body.length := by
    have hsum : wrap32 (sizePacked32 (toUnsigned s.index) + todoSizeofIntentions s +
        sizePacked32 (toUnsigned (definedSize table s)) + definedSize table s) =
          wrap32 ((definition table s).body.length : Nat) := by
      rw [hwrap, hsize, todoSizeofIntentions, hstring, wrap32_wrap32_add, sizePacked32_eq,
        sizePacked32_eq, hparts]
      generalize (packed32 (toUnsigned s.index)).length = a
      generalize (counted s.name).length = b
      generalize (packed32 (definedBytes table s).length).length = c
      generalize (definedBytes table s).length = d
      calc wrap32 (a + wrap32 (b + 2) + c + d)
          = wrap32 (a + c + d + wrap32 (b + 2)) := congrArg wrap32 (by ring)
        _ = wrap32 (a + c + d + (b + 2)) := wrap32_add_wrap32 _ _
        _ = wrap32 (a + (b + 2) + c + d : Nat) := congrArg wrap32 (by push_cast; ring)
    rw [hsum, toUnsigned_wrap32, toUnsigned_natCast hlen]
  rw [sentDefinition, writtenDefinition]
  simp only [hlength]
  rw [hname, hsize, Packet.bytes, hbody]
  simp only [counted, List.append_assoc]

/-- **What is written of a definition are the bytes of its packet.** -/
theorem sentDefinition_eq {table : Table} {s : Signature} (h : PacketFits table s) :
    sentDefinition table s = (definition table s).bytes := by
  have hlen := h.length
  have hname : s.name.length < 2 ^ 31 := by
    rw [definition_body] at hlen
    simp only [List.length_append, counted_length] at hlen
    omega
  exact sentDefinition_bytes h.name hname (by omega)

/-! ## Bindings -/

/-- The packet of a binding. -/
def binding (s : Signature) (hasDeps : Bool) : Packet :=
  .typeBinding (toUnsigned s.index) (if hasDeps then toUnsigned s.index else 0)

theorem doTypeBind_unset {s : Signature} (hasDeps : Bool) (e : Encoder ω) (h : s.index = 0) :
    (doTypeBind s hasDeps).run e = (.error .signatureNotSet, e) := by
  rw [doTypeBind, getLocalIndex, if_pos h]
  rfl

theorem boundTypeIndex_eq {s : Signature} (hasDeps : Bool) (h : s.index ≠ 0) :
    boundTypeIndex s hasDeps = .ok (if hasDeps then s.index else 0) := by
  cases hasDeps
  · rfl
  · exact getLocalIndex_some h

theorem doTypeBind_run {s : Signature} (hasDeps : Bool) (e : Encoder ω) (h : s.index ≠ 0) :
    (doTypeBind s hasDeps).run e =
      if s.index ≤ 0 then (.ok (-EINVAL), e)
      else if ω.start e.writer.starts = -EALREADY then (.ok 0, e.started)
      else if ω.start e.writer.starts ≠ 0 then (.ok (ω.start e.writer.starts), e.started)
      else (finish (writeBinding s.index (if hasDeps then s.index else 0))
        (binding s hasDeps)).run e.started := by
  have hpacket : binding s hasDeps = .typeBinding (toUnsigned s.index)
      (toUnsigned (if hasDeps then s.index else 0)) := by
    cases hasDeps <;> rfl
  rw [hpacket]
  simp only [doTypeBind, getLocalIndex_some h, boundTypeIndex_eq hasDeps h]
  generalize htindex : (if hasDeps = true then s.index else 0) = tindex
  have hcond : (s.index ≤ 0 ∨ (hasDeps = true ∧ tindex ≤ 0)) ↔ s.index ≤ 0 := by
    rw [← htindex]
    cases hasDeps <;> simp
  show ((if s.index ≤ 0 ∨ (hasDeps = true ∧ tindex ≤ 0) then _ else _ :
    EncoderM ω Int).run e) = _
  by_cases h1 : s.index ≤ 0
  · rw [if_pos (hcond.mpr h1), if_pos h1]
    rfl
  rw [if_neg (fun hc => h1 (hcond.mp hc)), if_neg h1]
  show ((if ω.start e.writer.starts = -EALREADY then _ else _ : EncoderM ω Int).run
    e.started) = _
  by_cases h2 : ω.start e.writer.starts = -EALREADY
  · rw [if_pos h2, if_pos h2]
    rfl
  rw [if_neg h2, if_neg h2]
  show ((if ω.start e.writer.starts ≠ 0 then _ else _ : EncoderM ω Int).run e.started) = _
  by_cases h3 : ω.start e.writer.starts ≠ 0
  · rw [if_pos h3, if_pos h3]
    rfl
  · rw [if_neg h3, if_neg h3]

theorem writeBinding_completes (sindex tindex : Int) :
    Completes (writeBinding sindex tindex : EncoderM ω Unit) ()
      (Packet.typeBinding (toUnsigned sindex) (toUnsigned tindex)).bytes := by
  have hs := packed32_length_le (toUnsigned sindex)
  have ht := packed32_length_le (toUnsigned tindex)
  have hlength : toUnsigned (wrap32 (sizePacked32 (toUnsigned sindex) +
      sizePacked32 (toUnsigned tindex))) =
      (packed32 (toUnsigned sindex) ++ packed32 (toUnsigned tindex)).length := by
    rw [sizePacked32_eq, sizePacked32_eq, List.length_append, ← Nat.cast_add,
      wrap32_natCast (by omega), toUnsigned_natCast (by omega)]
  have key : Completes (writeBinding sindex tindex : EncoderM ω Unit) ()
      (packed32 LABCOMM_TYPE_BINDING ++ (packed32 (toUnsigned (wrap32 (sizePacked32
        (toUnsigned sindex) + sizePacked32 (toUnsigned tindex)))) ++
          (packed32 (toUnsigned sindex) ++ (packed32 (toUnsigned tindex) ++ [])))) :=
    (onWriter_completes (writePacked32_emits _)).bind
      ((onWriter_completes (writePacked32_emits _)).bind
        ((onWriter_completes (writePacked32_emits _)).bind
          ((onWriter_completes (writePacked32_emits _)).bind (Completes.pure ()))))
  rw [List.append_nil, hlength] at key
  exact key

/-- **A binding goes out.** -/
theorem doTypeBind_sends {s : Signature} (hasDeps : Bool) {e : Encoder ω} (hω : ω.Flushes)
    (h0 : 0 < s.index) (hstart : ω.start e.writer.starts = 0) :
    ∃ w : Writer ω, (doTypeBind s hasDeps).run e =
        (.ok 0, { e with writer := w, sent := e.sent ++ [⟨binding s hasDeps, []⟩] }) ∧
      w.error = 0 ∧ w.starts = e.writer.starts + 1 ∧
      w.written = e.writer.written ++ (binding s hasDeps).bytes := by
  have hpacket : binding s hasDeps = .typeBinding (toUnsigned s.index)
      (toUnsigned (if hasDeps then s.index else 0)) := by
    cases hasDeps <;> rfl
  obtain ⟨w, hrun, herr, hstarts, hwritten⟩ := finish_run
    (writeBinding_completes (ω := ω) s.index (if hasDeps then s.index else 0)) hω (binding s hasDeps) e.started
  have herr0 := started_ok hstart
  refine ⟨w, ?_, herr.trans herr0, hstarts, ?_⟩
  · rw [doTypeBind_run hasDeps e h0.ne', if_neg (by omega), hstart, if_neg (by decide),
      if_neg (by decide), hrun, herr0]
    rfl
  · rw [hpacket]
    exact hwritten

/-! ## Samples -/

theorem doEncode_unset {s : Signature} (type : DataType) (v : Value) (e : Encoder ω)
    (h : s.index = 0) : (doEncode s type v).run e = (.error .signatureNotSet, e) := by
  rw [doEncode, getLocalIndex, if_pos h]
  rfl

theorem doEncode_refused {s : Signature} (type : DataType) (v : Value) {e : Encoder ω}
    (h0 : s.index ≠ 0) (h : e.done .registered s.index = false) :
    (doEncode s type v).run e = (.ok (-EINVAL), e) := by
  simp only [doEncode, getLocalIndex_some h0]
  show ((if (!e.registered.get s.index) = true then _ else _ : EncoderM ω Int).run e) = _
  have hreg : e.registered.get s.index = false := h
  rw [hreg]
  rfl

/-- The log entry of a sample. -/
def sentSample (refs : RefTables) (s : Signature) (type : DataType) (v : Value) : Sent :=
  ⟨.sample (toUnsigned s.index) (wire refs type v), refIndices refs type v⟩

theorem doEncode_run {s : Signature} (type : DataType) (v : Value) {e : Encoder ω}
    (h0 : s.index ≠ 0) (h : e.done .registered s.index = true) :
    (doEncode s type v).run e =
      if ω.start e.writer.starts = -EALREADY then (.ok 0, e.started)
      else if ω.start e.writer.starts ≠ 0 then
        (do
          let _ ← onWriter writerEnd
          return ω.start e.writer.starts : EncoderM ω Int).run e.started
      else (do
        let result ← writeSample e.refs s.index ((cSizeof type v).getD 0) type v
        logPacket (sentSample e.refs s type v).packet (sentSample e.refs s type v).refs
        let _ ← onWriter writerEnd
        return result : EncoderM ω Int).run e.started := by
  have hreg : e.registered.get s.index = true := h
  simp only [doEncode, getLocalIndex_some h0]
  show ((if (!e.registered.get s.index) = true then _ else _ : EncoderM ω Int).run e) = _
  rw [hreg, if_neg (by decide)]
  show ((if ω.start e.writer.starts = -EALREADY then _ else _ : EncoderM ω Int).run
    e.started) = _
  by_cases h2 : ω.start e.writer.starts = -EALREADY
  · rw [if_pos h2, if_pos h2]
    rfl
  rw [if_neg h2, if_neg h2]
  show ((if ω.start e.writer.starts ≠ 0 then _ else _ : EncoderM ω Int).run e.started) = _
  by_cases h3 : ω.start e.writer.starts ≠ 0
  · rw [if_pos h3, if_pos h3]
    rfl
  · rw [if_neg h3, if_neg h3]
    rfl

/-- A sample the writer does not start leaves nothing but the writer changed. -/
theorem doEncode_notStarted {s : Signature} (type : DataType) (v : Value) {e : Encoder ω}
    (hω : ω.Flushes) (h0 : s.index ≠ 0) (h : e.done .registered s.index = true)
    (hstart : ω.start e.writer.starts ≠ 0) :
    ∃ w : Writer ω, (doEncode s type v).run e =
        (.ok (if ω.start e.writer.starts = -EALREADY then 0 else ω.start e.writer.starts),
          { e with writer := w }) ∧
      w.starts = e.writer.starts + 1 := by
  rw [doEncode_run type v h0 h]
  by_cases h2 : ω.start e.writer.starts = -EALREADY
  · rw [if_pos h2, if_pos h2]
    exact ⟨_, rfl, rfl⟩
  · obtain ⟨w, hrun, _, hstarts, _⟩ :=
      completes_encoder (onWriter_completes (writerFlush_emits (ω := ω))) hω e.started
    rw [if_neg h2, if_pos hstart, if_neg h2]
    refine ⟨w, ?_, hstarts⟩
    show ((onWriter writerFlush >>= fun _ => pure (ω.start e.writer.starts) :
      EncoderM ω Int).run e.started) = _
    rw [run_bind_ok hrun]
    rfl

/-- **A sample of a registered type goes out**: its index, its size, and what the generated
encoder writes. -/
theorem doEncode_sends {s : Signature} (type : DataType) (v : Value) {e : Encoder ω}
    (hω : ω.Flushes) (h0 : s.index ≠ 0) (h : e.done .registered s.index = true)
    (hstart : ω.start e.writer.starts = 0) {body : List UInt8}
    (hbody : Completes (cEmitEncoder (ω := ω) e.refs type v) () body) :
    ∃ w : Writer ω, (doEncode s type v).run e =
        (.ok 0, { e with writer := w, sent := e.sent ++ [sentSample e.refs s type v] }) ∧
      w.error = 0 ∧ w.starts = e.writer.starts + 1 ∧
      w.written = e.writer.written ++ (packed32 (toUnsigned s.index) ++
        (packed32 (toUnsigned ((cSizeof type v).getD 0)) ++ body)) := by
  have hwrite : Completes (writeSample e.refs s.index ((cSizeof type v).getD 0) type v :
      EncoderM ω Int) 0
      (packed32 (toUnsigned s.index) ++ (packed32 (toUnsigned ((cSizeof type v).getD 0)) ++
        body)) := by
    refine (onWriter_completes (writePacked32_emits _)).bind
      ((onWriter_completes (writePacked32_emits _)).bind ?_)
    rw [if_neg (by decide)]
    exact onWriter_completes (cEncode_of_completes hbody)
  obtain ⟨w, hrun, herr, hstarts, hwritten⟩ := completes_encoder hwrite hω e.started
  let e' : Encoder ω := { e with writer := w, sent := e.sent ++ [sentSample e.refs s type v] }
  obtain ⟨w', hrun', herr', hstarts', hwritten'⟩ :=
    completes_encoder (onWriter_completes (writerFlush_emits (ω := ω))) hω e'
  have herr0 := started_ok hstart
  refine ⟨w', ?_, ?_, ?_, ?_⟩
  · rw [doEncode_run type v h0 h, hstart, if_neg (by decide), if_neg (by decide)]
    rw [run_bind_ok hrun]
    show ((onWriter writerFlush >>= fun _ => pure 0 : EncoderM ω Int).run e') = _
    rw [run_bind_ok hrun']
    rfl
  · exact herr'.trans (herr.trans herr0)
  · exact hstarts'.trans hstarts
  · rw [hwritten', List.append_nil]
    exact hwritten

end LabComm.C
