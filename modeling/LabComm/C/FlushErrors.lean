import LabComm.C.WriterStatements

set_option autoImplicit false

/-! # Errors of the flushes of a sample

`do_encode` and the generated encoders hand an error of the writer on by looking at the result of
each write. Two writes are not looked at: that of the index, whose result the write of the length
overwrites, and those of the dimensions of an array. A flush that fails there is lost unless a
later one fails too, where the result counts (`reportsFlushErrors_iff`).
-/

namespace LabComm.C

open Library

variable {σ : Type} (W : WriterInterface σ)

/-! ## Watching the flushes -/

/-- The writer, with the results of its flushes in order. -/
def WriterInterface.watched : WriterInterface (σ × List Int) where
  full p := W.full p.1
  store b := fun p => ((), (W.store b p.1).2, p.2)
  flush := fun p => ((W.flush p.1).1, (W.flush p.1).2, p.2 ++ [(W.flush p.1).1])
  start := fun p => ((W.start p.1).1, (W.start p.1).2, p.2)
  finish := fun p => ((), (W.finish p.1).2, p.2)
  error p := W.error p.1

/-- The encoder before its first flush is seen. -/
def EncoderOn.watched (e : EncoderOn σ) : EncoderOn (σ × List Int) :=
  ⟨(e.writer, []), e.registered, e.sampleRef, e.typedefs⟩

/-- If a flush of `do_encode` returns an error then so does `do_encode`. -/
def ReportsFlushErrors (e : EncoderOn σ) (s : Signature) (type : DataType) (v : Value) : Prop :=
  ∀ result e', (doEncodeOn W.watched s type v).run e.watched = (.ok result, e') →
    (∃ r ∈ e'.writer.2, r ≠ 0) → result ≠ 0

/-- Some statement for which `p` holds does not go through, when all of them are executed one
after the other from `x`. -/
def FailsAmong (p : Write → Bool) : List Write → σ → Prop
  | [], _ => False
  | w :: ws, x => (p w = true ∧ (W.attempt w x).1 ≠ 0) ∨ FailsAmong p ws (W.attempt w x).2

/-! ## One statement -/

/-- `m'` does what `m` does, and its result is an error exactly if one of its flushes has one. -/
def Watches (m' : StateM (σ × List Int) Int) (m : StateM σ Int) : Prop :=
  ∀ x l, ∃ new, m' (x, l) = ((m x).1, (m x).2, l ++ new) ∧ ((∃ r ∈ new, r ≠ 0) ↔ (m x).1 ≠ 0)

theorem makeRoom_watches : Watches W.watched.makeRoom W.makeRoom := by
  intro x l
  by_cases h : W.full x = true
  · refine ⟨[(W.flush x).1], ?_, ?_⟩
    · have hfull : W.watched.full (x, l) = true := h
      rw [WriterInterface.makeRoom, WriterInterface.makeRoom, if_pos h, if_pos hfull]
      rfl
    · rw [WriterInterface.makeRoom, if_pos h]
      simp
  · refine ⟨[], ?_, ?_⟩
    · have hfull : ¬ W.watched.full (x, l) = true := h
      rw [WriterInterface.makeRoom, WriterInterface.makeRoom, if_neg h, if_neg hfull,
        List.append_nil]
    · rw [WriterInterface.makeRoom, if_neg h]
      simp

theorem putBytes_watches (bs : List UInt8) : Watches (W.watched.putBytes bs) (W.putBytes bs) := by
  induction bs with
  | nil =>
      have hnil : ∀ x, (W.putBytes [] x).1 = 0 := fun _ => rfl
      exact fun x l => ⟨[], by rw [List.append_nil]; rfl, by simp [hnil]⟩
  | cons b bs ih =>
      intro x l
      obtain ⟨first, hrun, hfirst⟩ := makeRoom_watches W x l
      rw [putBytes_cons, putBytes_cons, hrun]
      by_cases h : (W.makeRoom x).1 ≠ 0
      · -- the flush fails, and its result is that of the whole write
        rw [if_pos h, if_pos h]
        exact ⟨first, rfl, hfirst⟩
      · rw [if_neg h, if_neg h]
        obtain ⟨rest, hrest, hiff⟩ := ih (W.store b (W.makeRoom x).2).2 (l ++ first)
        refine ⟨first ++ rest, ?_, ?_⟩
        · rw [← List.append_assoc]
          exact hrest
        · have hnone : ¬ ∃ r ∈ first, r ≠ 0 := fun hr => h (hfirst.mp hr)
          rw [← hiff]
          constructor
          · rintro ⟨r, hr, hne⟩
            rcases List.mem_append.mp hr with hr | hr
            · exact absurd ⟨r, hr, hne⟩ hnone
            · exact ⟨r, hr, hne⟩
          · rintro ⟨r, hr, hne⟩
            exact ⟨r, List.mem_append_right first hr, hne⟩

theorem attempt_watches (w : Write) : Watches (W.watched.attempt w) (W.attempt w) := by
  cases w with
  | checked bs => exact putBytes_watches W bs
  | ignored bs => exact putBytes_watches W bs
  | raw b =>
      intro x l
      obtain ⟨new, hrun, hiff⟩ := makeRoom_watches W x l
      refine ⟨new, ?_, hiff⟩
      show ((W.watched.makeRoom (x, l)).1, (W.watched.store b (W.watched.makeRoom (x, l)).2).2) = _
      rw [hrun]
      rfl

/-! ## All statements -/

/-- The statements return an error exactly if one of those whose result counts has one. -/
theorem perform_result (ws : List Write) (x : σ) :
    (W.perform ws x).1 ≠ 0 ↔ FailsAmong W Write.isChecked ws x := by
  induction ws generalizing x with
  | nil => simp [FailsAmong, perform_nil]
  | cons w ws ih =>
      rw [perform_cons, FailsAmong, ← ih]
      by_cases h : w.isChecked = true ∧ (W.attempt w x).1 ≠ 0
      · rw [if_pos h]
        exact ⟨fun _ => .inl h, fun _ => h.2⟩
      · rw [if_neg h]
        exact ⟨fun hrest => .inr hrest, fun hany => hany.resolve_left h⟩

/-- When they return 0, the flushes that failed are those of the other statements. -/
theorem perform_watched (ws : List Write) (x : σ) (l : List Int) :
    ∃ new, W.watched.perform ws (x, l) = ((W.perform ws x).1, (W.perform ws x).2, l ++ new) ∧
      ((W.perform ws x).1 = 0 →
        ((∃ r ∈ new, r ≠ 0) ↔ FailsAmong W (fun w => !w.isChecked) ws x)) := by
  induction ws generalizing x l with
  | nil => exact ⟨[], by rw [List.append_nil]; rfl, fun _ => by simp [FailsAmong]⟩
  | cons w ws ih =>
      obtain ⟨first, hrun, hfirst⟩ := attempt_watches W w x l
      rw [perform_cons, perform_cons, hrun]
      by_cases h : w.isChecked = true ∧ (W.attempt w x).1 ≠ 0
      · rw [if_pos h, if_pos h]
        exact ⟨first, rfl, fun hzero => absurd hzero h.2⟩
      · rw [if_neg h, if_neg h]
        obtain ⟨rest, hrest, hiff⟩ := ih (W.attempt w x).2 (l ++ first)
        refine ⟨first ++ rest, ?_, fun hzero => ?_⟩
        · rw [← List.append_assoc]
          exact hrest
        · -- a flush of this statement fails only if its result does not count
          have hhead : (∃ r ∈ first, r ≠ 0) ↔
              ((!w.isChecked) = true ∧ (W.attempt w x).1 ≠ 0) := by
            rw [hfirst]
            constructor
            · intro hne
              have hunchecked : ¬ w.isChecked = true := fun hc => h ⟨hc, hne⟩
              exact ⟨by simpa using hunchecked, hne⟩
            · exact fun hboth => hboth.2
          rw [FailsAmong, ← hhead, ← hiff hzero]
          constructor
          · rintro ⟨r, hr, hne⟩
            exact (List.mem_append.mp hr).imp (fun hr => ⟨r, hr, hne⟩) fun hr => ⟨r, hr, hne⟩
          · rintro (⟨r, hr, hne⟩ | ⟨r, hr, hne⟩)
            · exact ⟨r, List.mem_append_left rest hr, hne⟩
            · exact ⟨r, List.mem_append_right first hr, hne⟩

/-! ## Encoding -/

/-- **When `do_encode` reports the errors of its flushes**: exactly if a flush that fails in the
write of the index or of a dimension comes with one that fails in the write of the length or of a
value. -/
theorem reportsFlushErrors_iff (e : EncoderOn σ) (s : Signature) (type : DataType) (v : Value) :
    ReportsFlushErrors W e s type v ↔
      (s.index ≠ 0 → e.registered.get s.index = true → (W.start e.writer).1 = 0 →
        FailsAmong W (fun w => !w.isChecked)
          (sampleWrites e.refs s.index ((cSizeof type v).getD 0) type v) (W.start e.writer).2 →
        FailsAmong W Write.isChecked
          (sampleWrites e.refs s.index ((cSizeof type v).getD 0) type v) (W.start e.writer).2) := by
  have hrun := doEncodeOn_run W.watched s type v e.watched
  have hstart : (W.watched.start e.watched.writer).1 = (W.start e.writer).1 := rfl
  have hreg : e.watched.registered = e.registered := rfl
  rw [hstart, hreg] at hrun
  by_cases h0 : s.index = 0
  · -- the process ends
    rw [if_pos h0] at hrun
    refine ⟨fun _ hne => absurd h0 hne, fun _ result e' hres => ?_⟩
    rw [hrun] at hres
    exact absurd (congrArg Prod.fst hres) (by simp)
  rw [if_neg h0] at hrun
  cases hr : e.registered.get s.index with
  | false =>
      rw [if_pos hr] at hrun
      refine ⟨fun _ _ htrue => absurd htrue (by simp), fun _ result e' hres hfail => ?_⟩
      rw [hrun] at hres
      obtain ⟨-, rfl⟩ := Prod.mk.inj hres
      obtain ⟨r, hr, -⟩ := hfail
      exact absurd hr (by simp [EncoderOn.watched])
  | true =>
      rw [if_neg (by simp [hr])] at hrun
      by_cases h1 : (W.start e.writer).1 = 0
      · rw [h1, if_neg (by decide), if_neg (by decide)] at hrun
        -- the watched writer does the same, and remembers the results of its flushes
        obtain ⟨new, hws, hiff⟩ := perform_watched W
          (sampleWrites e.refs s.index ((cSizeof type v).getD 0) type v) (W.start e.writer).2 []
        rw [← perform_result]
        constructor
        · intro hreports _ _ _ hlost hzero
          obtain ⟨r, hmem, hne⟩ := (hiff hzero).mpr hlost
          refine hreports _ _ hrun ⟨r, ?_, hne⟩ ?_
          · show r ∈ (W.watched.perform _ ((W.start e.writer).2, [])).2.2
            exact (congrArg (fun q => r ∈ q.2.2) hws).mpr hmem
          · exact (congrArg Prod.fst hws).trans hzero
        · intro hcond result e' hres hfail hzero
          rw [hrun] at hres
          obtain ⟨hresult, rfl⟩ := Prod.mk.inj hres
          have hperform : (W.perform _ (W.start e.writer).2).1 = 0 :=
            (congrArg Prod.fst hws).symm.trans ((Except.ok.inj hresult).trans hzero)
          obtain ⟨r, hmem, hne⟩ := hfail
          -- before the start there is no flush, so the failed one is of these writes
          have hnew : r ∈ new := (congrArg (fun q => r ∈ q.2.2) hws).mp hmem
          exact hcond h0 rfl h1 ((hiff hperform).mp ⟨r, hnew, hne⟩) hperform
      · -- nothing is written
        refine ⟨fun _ _ _ hzero => absurd hzero h1, fun _ result e' hres hfail => ?_⟩
        rw [hrun] at hres
        by_cases h2 : (W.start e.writer).1 = -EALREADY
        · rw [if_pos h2] at hres
          obtain ⟨-, rfl⟩ := Prod.mk.inj hres
          obtain ⟨r, hr, -⟩ := hfail
          exact absurd hr (by simp [EncoderOn.watched, EncoderOn.started, WriterInterface.watched])
        · rw [if_neg h2, if_pos h1] at hres
          obtain ⟨hresult, -⟩ := Prod.mk.inj hres
          rw [← Except.ok.inj hresult]
          exact h1

/-- A writer whose first flush fails, and no other. -/
def failingOnce : WriterAction := ⟨fun _ => 99, fun n => if n = 0 then -5 else 0, fun _ => 0⟩

/-- An encoder of `byteSignature`, with a buffer of one byte that is full. -/
def fullBuffer : EncoderOn (Writer failingOnce) :=
  ⟨⟨[], [0], 1, 0, 0, 0⟩, SigArray.init.set 0x41 true, .init, .init⟩

/-- The flush before the index fails, the next one does not, and the result is 0. -/
theorem not_reportsFlushErrors_index :
    ¬ ReportsFlushErrors writerInterface fullBuffer byteSignature (.prim .byte) (.bits 7) := by
  intro h
  exact h 0 _ rfl ⟨-5, by decide, by decide⟩ rfl

end LabComm.C
