import LabComm.C.EncoderLog

set_option autoImplicit false

/-! # Runs of the encoder

Any sequence of registrations and encodes on a new encoder whose writer may fail to start. The
three functions that register a signature mark it before they start the writer, so a start
that fails leaves a mark with no definition behind it. What the encoder promises holds in
exactly the runs where that does not happen (`leavesNoTrace_iff`).
-/

namespace LabComm.C

open Library

variable {ω : WriterAction}

/-! ## Runs -/

/-- A call of a function of the encoder. -/
inductive EncoderCall where
  | register (table : Table) (s : Signature)
  | encode (s : Signature) (type : DataType) (v : Value)

/-- The function that is called. -/
def EncoderCall.function : EncoderCall → EncoderM ω Int
  | .register table s => doRegister table s
  | .encode s type v => doEncode s type v

/-- A call in a run of an encoder. -/
abbrev EncoderStep (ω : WriterAction) := Step EncoderCall (Encoder ω) Exit Int

/-- The calls of a run, up to the one that ends the process. -/
def encoderSteps (calls : List EncoderCall) (e : Encoder ω) : List (EncoderStep ω) :=
  trace EncoderCall.function e calls

/-! ## What a run should do -/

/-- The call is a registration that returns the error of the writer's start. -/
def EncoderStep.ReturnsStartError (st : EncoderStep ω) : Prop :=
  (∃ table s, st.call = .register table s) ∧
    ω.start st.before.writer.starts ≠ 0 ∧
    st.after.writer.starts = st.before.writer.starts + 1 ∧
    st.result = .ok (ω.start st.before.writer.starts)

/-- A registration that returns the start error leaves the tables as they were, and the log is
in order after the step. -/
structure EncoderStep.LeavesNoTrace (st : EncoderStep ω) : Prop where
  tables : st.ReturnsStartError →
    ∀ table index, st.after.done table index = st.before.done table index
  inOrder : InOrder st.after.sent

/-- The writer starts when the call is a registration that is not refused. -/
def EncoderStep.Started (st : EncoderStep ω) : Prop :=
  ∀ table s, st.call = .register table s → Fresh st.before table s →
    ω.start st.before.writer.starts = 0

/-- Everything marked for samples and for references has its definition in the log. -/
structure EncoderInv (e : Encoder ω) : Prop where
  inOrder : InOrder e.sent
  registered : Backed e .registered
  sampleRef : Backed e .sampleRef

/-- One step keeps the invariant. -/
theorem EncoderInv.step (hω : ω.Flushes) {st : EncoderStep ω} (hrun : st.Ran EncoderCall.function)
    (hstarted : st.Started) (h : EncoderInv st.before) : EncoderInv st.after := by
  obtain ⟨past, before, call, result, after⟩ := st
  cases call with
  | register table s =>
      change (doRegister table s).run before = (result, after) at hrun
      rcases doRegister_cases hω table s before with
        ⟨_, r, hr, _⟩ | ⟨hfresh, hfail, _⟩ | ⟨_, _, hdef, hr⟩ | ⟨_, _, _, w, hr, _⟩
      · cases hrun.symm.trans hr
        exact h
      · exact absurd (hstarted table s rfl hfresh) hfail
      · -- only a type register can end here, and it marks no sample
        cases hrun.symm.trans hr
        obtain ⟨rfl, _⟩ := Classical.not_imp.mp hdef
        exact ⟨h.inOrder, h.registered, h.sampleRef⟩
      · cases hrun.symm.trans hr
        exact ⟨h.inOrder.concat (sampleNeeds_definition _ table s), backed_sends h.registered,
          backed_sends h.sampleRef⟩
  | encode s type v =>
      change (doEncode s type v).run before = (result, after) at hrun
      rcases doEncode_cases hω s type v before with
        ⟨r, hr⟩ | ⟨_, _, w, hr⟩ | ⟨hdone, _, w, hr, _⟩
      · cases hrun.symm.trans hr
        exact h
      · cases hrun.symm.trans hr
        exact ⟨h.inOrder, h.registered, h.sampleRef⟩
      · cases hrun.symm.trans hr
        exact ⟨h.inOrder.concat (sampleNeeds_sentSample h.registered h.sampleRef hdone type v),
          fun i hi => (h.registered i hi).append _, fun i hi => (h.sampleRef i hi).append _⟩

/-- A registration that is not refused although the writer does not start changes its table. -/
theorem not_leavesNoTrace (hω : ω.Flushes) (hready : ∀ n, ω.start n ≠ -EALREADY)
    {st : EncoderStep ω} (hrun : st.Ran EncoderCall.function) (h : ¬ st.Started) : ¬ st.LeavesNoTrace := by
  obtain ⟨past, before, call, result, after⟩ := st
  unfold EncoderStep.Started at h
  push Not at h
  obtain ⟨table, s, rfl, hfresh, hfail⟩ := h
  change (doRegister table s).run before = (result, after) at hrun
  rcases doRegister_cases hω table s before with
    ⟨hnot, _⟩ | ⟨_, _, hr⟩ | ⟨_, hstart, _⟩ | ⟨_, hstart, _⟩
  · exact absurd hfresh hnot
  · rw [if_neg (hready _)] at hr
    cases hrun.symm.trans hr
    intro hkept
    have hreturns : EncoderStep.ReturnsStartError ⟨past, before, .register table s,
        .ok (ω.start before.writer.starts), (before.setDone table s.index).started⟩ := by
      refine ⟨⟨table, s, rfl⟩, hfail, ?_, rfl⟩
      show (before.setDone table s.index).writer.starts + 1 = _
      rw [Encoder.setDone_writer]
    have hsame := hkept.tables hreturns table s.index
    have hmarked : (before.setDone table s.index).done table s.index = true := by
      rw [Encoder.done_setDone]
      simp
    exact absurd (hsame.symm.trans hmarked) (by rw [hfresh.2]; decide)
  · exact absurd hstart hfail
  · exact absurd hstart hfail

/-! ## New encoders -/

theorem newEncoder_inv (w : Writer ω) : EncoderInv (newEncoder w) := by
  have hnone : ∀ table, Backed (newEncoder w) table := by
    intro table index h
    rw [newEncoder_done] at h
    exact absurd h (by decide)
  refine ⟨?_, hnone _, hnone _⟩
  refine Justified.nil.concat ⟨?_, by simp⟩
  rintro index body ⟨⟩

/-- **A run of a new encoder leaves no trace of failed registrations, with every sample after
its definitions, if and only if the writer starts at each registration that is not refused.** -/
theorem leavesNoTrace_iff (hω : ω.Flushes) (hready : ∀ n, ω.start n ≠ -EALREADY) (w : Writer ω)
    (calls : List EncoderCall) :
    (∀ st ∈ encoderSteps calls (newEncoder w), st.LeavesNoTrace) ↔
      ∀ st ∈ encoderSteps calls (newEncoder w), st.Started := by
  constructor
  · intro h st hst
    by_contra hnot
    exact not_leavesNoTrace hω hready (ran_of_mem_trace hst) hnot (h st hst)
  · intro h st hst
    have hran := ran_of_mem_trace hst
    have hbefore := trace_inv (I := fun _ => EncoderInv)
      (fun st _ hran _ hmeets => EncoderInv.step hω hran hmeets) (newEncoder_inv w) h st hst
    refine ⟨?_, (EncoderInv.step hω hran (h st hst) hbefore).inOrder⟩
    rintro ⟨⟨table, s, hcall⟩, hfail, hstarts, _⟩
    -- a registration that starts the writer is not refused
    exfalso
    obtain ⟨past, before, call, result, after⟩ := st
    subst hcall
    have hrun : (doRegister table s).run before = (result, after) := hran
    rcases doRegister_cases hω table s before with
      ⟨_, r, hr, _⟩ | ⟨hfresh, _⟩ | ⟨_, hstart, _⟩ | ⟨_, hstart, _⟩
    · cases hrun.symm.trans hr
      exact absurd hstarts (by simp)
    · exact hfail (h _ hst table s rfl hfresh)
    · exact hfail hstart
    · exact hfail hstart

/-- A writer that flushes every byte, and whose start number `k` fails for lack of memory. -/
def startFails (k : Nat) : WriterAction where
  room _ := 0
  flush _ := 0
  start n := if n = k then -12 else 0

theorem startFails_flushes (k : Nat) : (startFails k).Flushes := fun _ => rfl

theorem startFails_ready (k n : Nat) : (startFails k).start n ≠ -EALREADY := by
  unfold startFails
  dsimp only
  split <;> decide

/-- The start for a sample fails, which leaves no trace. -/
theorem leavesNoTrace_startFails :
    (encoderSteps [.register .registered intSignature,
      .encode intSignature (.prim .int) (.bits 7), .encode intSignature (.prim .int) (.bits 8)]
      (newEncoder (ω := startFails 2) ⟨[], [], 1, 0, 0, 0⟩)).Forall EncoderStep.LeavesNoTrace := by
  rw [List.forall_iff_forall_mem, leavesNoTrace_iff (startFails_flushes 2) (startFails_ready 2)]
  intro st hst table s hcall _
  rw [encoderSteps, trace, traceFrom] at hst
  rcases List.mem_cons.mp hst with rfl | hst
  · rw [(newEncoder_writer (startFails_flushes 2) _).1]
    decide
  · split at hst
    · exact absurd hst (by simp)
    · have hmem := call_mem_of_mem_traceFrom hst
      rw [hcall] at hmem
      simp at hmem

/-- **After a failed start the sample goes out although nothing defines it.** -/
theorem not_inOrder_of_startFails (hω : ω.Flushes) (hready : ∀ n, ω.start n ≠ -EALREADY)
    {e : Encoder ω} {s : Signature} (hfresh : Fresh e .registered s)
    (hundefined : ¬ Defined e.sent .registered (toUnsigned s.index))
    (hfail : ω.start e.writer.starts ≠ 0) (hnext : ω.start (e.writer.starts + 1) = 0)
    (type : DataType) (v : Value) :
    ∃ st ∈ encoderSteps [.register .registered s, .encode s type v] e,
      ¬ InOrder st.after.sent := by
  let e' : Encoder ω := (e.setDone .registered s.index).started
  have hreg : (doRegister .registered s).run e = (.ok (ω.start e.writer.starts), e') := by
    rw [doRegister_notStarted hfresh.1 hfresh.2 hfail, if_neg (hready _)]
  have hdone : e'.done .registered s.index = true := by
    show (e.setDone .registered s.index).done .registered s.index = true
    rw [Encoder.done_setDone]
    simp
  obtain ⟨bs, hbs⟩ := cEmitEncoder_ends (ω := ω) e'.refs type v
  obtain ⟨w, henc, _⟩ := doEncode_sends type v hω (by have := hfresh.1; omega) hdone hnext hbs
  let e'' : Encoder ω :=
    { e' with writer := w, sent := e'.sent ++ [sentSample e'.refs s type v] }
  refine ⟨⟨[.register .registered s], e', .encode s type v, .ok 0, e''⟩, ?_, ?_⟩
  · simp only [encoderSteps, trace, traceFrom, EncoderCall.function, hreg, henc,
      List.nil_append]
    exact List.mem_cons_of_mem _ List.mem_cons_self
  · intro horder
    have hneeds := horder e.sent (sentSample e'.refs s type v) [] rfl
    exact hundefined (hneeds.1 _ _ rfl)

/-- The start for the definition fails: the tables are changed, and the sample that follows has
no definition. -/
theorem not_leavesNoTrace_startFails :
    ¬ ∀ st ∈ encoderSteps [.register .registered intSignature,
      .encode intSignature (.prim .int) (.bits 7)]
      (newEncoder (ω := startFails 1) ⟨[], [], 1, 0, 0, 0⟩), st.LeavesNoTrace := by
  intro h
  have hfresh : Fresh (newEncoder (ω := startFails 1) ⟨[], [], 1, 0, 0, 0⟩) .registered
      intSignature := ⟨by decide, newEncoder_done _ _ _⟩
  have hundefined : ¬ Defined (newEncoder (ω := startFails 1) ⟨[], [], 1, 0, 0, 0⟩).sent
      .registered (toUnsigned intSignature.index) := by
    rintro ⟨s, hs, hd⟩
    rw [newEncoder_sent, List.mem_singleton] at hs
    subst hs
    exact absurd hd (by decide)
  obtain ⟨st, hst, hbad⟩ := not_inOrder_of_startFails (startFails_flushes 1)
    (startFails_ready 1) hfresh hundefined
    (by rw [(newEncoder_writer (startFails_flushes 1) _).1]; decide)
    (by rw [(newEncoder_writer (startFails_flushes 1) _).1]; decide) (.prim .int) (.bits 7)
  exact hbad (h st hst).inOrder

end LabComm.C
