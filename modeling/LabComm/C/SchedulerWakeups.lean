import LabComm.C.SchedulerQueues

set_option autoImplicit false

/-! # Wake-ups

A thread in `scheduler_sleep` is to block only when there is no action without a delay, or when
some other thread is about to run it. `run_deferred` does not look at the first queue again once
it runs the actions with a delay: an action without a delay that is enqueued then stays where it
is when the thread goes to sleep (`lost_wakeup`). Where nothing is enqueued without a delay while
a thread is in the second loop, no wake-up is lost (`no_lost_wakeup`).
-/

namespace LabComm.C

open Library

/-- The thread has been woken, and will look at the queues when it gets the lock. -/
def ThreadState.Awake : ThreadState → Prop
  | .awake _ => True
  | _ => False

theorem ThreadState.Waits.runs {state : ThreadState} (h : state.Waits) : state.runs = none := by
  cases state <;> first | rfl | cases h

section System

variable {T A : Type} [DecidableEq T] {y y' : PthreadSystem T A}

/-- There is no action without a delay, or a thread other than `t` is in the loop over these. -/
def Drained (y : PthreadSystem T A) (t : T) : Prop :=
  y.scheduler.queueEmpty .deferred = true ∨
    ∃ t', t' ≠ t ∧ ∃ element, (y.thread t').runs = some (element, none)

/-- No thread is blocked while an action without a delay stays in the queue, with nobody on the
way to it. -/
def NoLostWakeup (y : PthreadSystem T A) : Prop :=
  ∀ t, (y.thread t).Waits → Drained y t ∨ ∃ t', (y.thread t').Awake

/-- A thread is in the loop over the actions with a delay. -/
def InSecondLoop (y : PthreadSystem T A) : Prop :=
  ∃ t element now, (y.thread t).runs = some (element, some now)

/-- Nothing is enqueued without a delay while a thread is in the second loop. -/
def NotInSecondLoop (y : PthreadSystem T A) (event : PthreadEvent) : Prop :=
  event = .enqueue 0 → ¬ InSecondLoop y

/-- The invariant under which no wake-up is lost. -/
structure WakeupInv (y : PthreadSystem T A) : Prop where
  system : ThreadsInv y
  secondLoop : InSecondLoop y → y.scheduler.queueEmpty .deferred = true
  waits : NoLostWakeup y

/-- A thread blocks only where it may. -/
def BlocksDrained (y y' : PthreadSystem T A) : Prop :=
  ∀ t, ¬ (y.thread t).Waits → (y'.thread t).Waits → Drained y' t

/-- Threads that were not blocked are not blocked by a signal. -/
theorem CondSignal.waits {thread thread' : T → ThreadState} (h : CondSignal thread thread')
    {t : T} (ht : (thread' t).Waits) : (thread t).Waits ∧ ∃ t', (thread' t').Awake := by
  cases h with
  | lost h => exact absurd ht (h t)
  | wakes t' time wakeup h =>
      refine ⟨?_, t', ?_⟩
      · by_cases heq : t = t'
        · rw [heq, Function.update_self] at ht
          cases ht
        · rwa [Function.update_of_ne heq] at ht
      · rw [Function.update_self]
        trivial

omit [DecidableEq T] in
theorem inSecondLoop_congr (hruns : ∀ t, (y'.thread t).runs = (y.thread t).runs) :
    InSecondLoop y' ↔ InSecondLoop y := by
  unfold InSecondLoop
  simp only [hruns]

/-- A thread that does not run an action, and neither is woken nor blocks, does not matter. -/
theorem WakeupInv.other (h : WakeupInv y) (hsystem : ThreadsInv y')
    (hscheduler : y'.scheduler = y.scheduler) {t : T} {state : ThreadState}
    (hthread : y'.thread = Function.update y.thread t state) (hruns : (y.thread t).runs = none)
    (hawake : ¬ (y.thread t).Awake) (hstate : state.runs = none) (hstate' : ¬ state.Waits) :
    WakeupInv y' ∧ BlocksDrained y y' := by
  have hsame : ∀ t', (y'.thread t').runs = (y.thread t').runs := by
    rw [hthread]
    exact update_runs (hstate.trans hruns.symm)
  have hwaits : ∀ t', (y'.thread t').Waits → t' ≠ t ∧ (y.thread t').Waits := by
    intro t' ht'
    rw [hthread] at ht'
    by_cases heq : t' = t
    · rw [heq, Function.update_self] at ht'
      exact absurd ht' hstate'
    · rw [Function.update_of_ne heq] at ht'
      exact ⟨heq, ht'⟩
  refine ⟨⟨hsystem, ?_, ?_⟩, fun t' hnot ht' => absurd (hwaits t' ht').2 hnot⟩
  · rw [inSecondLoop_congr hsame, hscheduler]
    exact h.secondLoop
  · intro t' ht'
    unfold Drained
    simp only [hscheduler, hsame]
    rcases h.waits t' (hwaits t' ht').2 with hdrained | ⟨u, hu⟩
    · exact .inl hdrained
    · have hne : u ≠ t := fun heq => hawake (heq ▸ hu)
      refine .inr ⟨u, ?_⟩
      rw [hthread, Function.update_of_ne hne]
      exact hu

omit [DecidableEq T] in
/-- Who holds `writer_mutex` does not matter. -/
theorem WakeupInv.congr (h : WakeupInv y) (hscheduler : y'.scheduler = y.scheduler)
    (hthread : y'.thread = y.thread) : WakeupInv y' ∧ BlocksDrained y y' := by
  have hsame : ∀ t, (y'.thread t).runs = (y.thread t).runs := fun t => by rw [hthread]
  refine ⟨⟨h.system.congr hscheduler hthread, ?_, ?_⟩, ?_⟩
  · rw [inSecondLoop_congr hsame, hscheduler]
    exact h.secondLoop
  · unfold NoLostWakeup Drained
    simp only [hscheduler, hthread]
    exact h.waits
  · intro t hnot ht
    rw [hthread] at ht
    exact absurd ht hnot

/-- The only thread in `run_deferred` goes on, and the first queue is empty when it leaves the
first loop. -/
theorem wakeupInv_goOn {r : RunDeferred × PthreadScheduler A} (h : Continues (· = []) r) {t : T}
    (hothers : ∀ t', t' ≠ t → (y.thread t').runs = none) (caller : Caller) (now : Timespec) :
    WakeupInv (y.goOn t (proceed caller now r)) ∧
      BlocksDrained y (y.goOn t (proceed caller now r)) := by
  have hsystem := threadsInv_goOn h t hothers caller now
  obtain ⟨point, s⟩ := r
  cases point with
  | action element loop =>
      -- it starts an action: in the second loop, the first queue is empty
      obtain ⟨_, _, l, m, hqueues, hdone⟩ := h
      have hruns : ((y.goOn t (proceed caller now (.action element loop, s))).thread t).runs =
          some (element, loop) := by
        simp [PthreadSystem.goOn, proceed, ThreadState.runs]
      have hrunsOthers : ∀ t', t' ≠ t →
          ((y.goOn t (proceed caller now (.action element loop, s))).thread t').runs = none := by
        intro t' hne
        simp only [PthreadSystem.goOn, Function.update_of_ne hne]
        exact hothers t' hne
      have hdrained : ∀ t', t' ≠ t →
          Drained (y.goOn t (proceed caller now (.action element loop, s))) t' := by
        intro t' hne
        cases loop with
        | none => exact .inr ⟨t, hne.symm, element, hruns⟩
        | some started => exact .inl (hqueues.queueEmpty_deferred.mpr (hdone (by simp)))
      have hwaits : ∀ t', ((y.goOn t (proceed caller now (.action element loop, s))).thread
          t').Waits → t' ≠ t := by
        rintro t' ht' rfl
        rw [ht'.runs] at hruns
        cases hruns
      refine ⟨⟨hsystem, ?_, fun t' ht' => .inl (hdrained t' (hwaits t' ht'))⟩,
        fun t' _ ht' => hdrained t' (hwaits t' ht')⟩
      rintro ⟨t', element', now', hsecond⟩
      -- the thread in the second loop is this one
      have heq : t' = t := by
        by_contra hne
        rw [hrunsOthers t' hne] at hsecond
        cases hsecond
      rw [heq, hruns] at hsecond
      cases hsecond
      exact hqueues.queueEmpty_deferred.mpr (hdone (by simp))
  | out =>
      -- it leaves, and the first queue is empty
      obtain ⟨_, l, m, hqueues, hdone⟩ := h
      obtain ⟨_, wakeup, heq⟩ := proceed_out caller now s
      have hempty :
          (y.goOn t (proceed caller now (.out, s))).scheduler.queueEmpty .deferred = true := by
        simp only [PthreadSystem.goOn, heq]
        exact hqueues.queueEmpty_deferred.mpr hdone
      exact ⟨⟨hsystem, fun _ => hempty, fun _ _ => .inl (.inl hempty)⟩, fun _ _ _ => .inl hempty⟩

/-- A thread comes to `run_deferred`. -/
theorem WakeupInv.runDeferred (h : WakeupInv y) {t : T} (ht : (y.thread t).runs = none)
    (caller : Caller) {now : Timespec} (hnow : now.Reading) (now' : Timespec) :
    WakeupInv (y.goOn t (proceed caller now' (y.scheduler.runDeferred now))) ∧
      BlocksDrained y (y.goOn t (proceed caller now' (y.scheduler.runDeferred now))) := by
  obtain ⟨l, m, r, hqueues, hrunner⟩ := h.system
  rcases hrunner with ⟨hrun, rfl, hruns⟩ | ⟨hrun, u, element, loop, _, _, hu, _⟩
  · exact wakeupInv_goOn (hqueues.runDeferred hrun hnow) (fun t' _ => hruns t') caller now'
  · -- `u` is in there: in the first loop it will look, and in the second the queue is empty
    have hsystem := h.system.runDeferred ht caller hnow now'
    have hout : y.scheduler.runDeferred now = (.out, y.scheduler) := by
      unfold PthreadScheduler.runDeferred
      rw [hrun]
      rfl
    rw [hout] at hsystem ⊢
    obtain ⟨hruns, wakeup, heq⟩ := proceed_out caller now' y.scheduler
    have hsame : ∀ t', ((y.goOn t (proceed caller now' (.out, y.scheduler))).thread t').runs =
        (y.thread t').runs := update_runs (hruns.trans ht.symm)
    have hqueue : (y.goOn t (proceed caller now' (.out, y.scheduler))).scheduler.queueEmpty
        .deferred = y.scheduler.queueEmpty .deferred := by
      simp only [PthreadSystem.goOn, heq]
      rfl
    have hdrained : ∀ t', ((y.goOn t (proceed caller now' (.out, y.scheduler))).thread t').Waits →
        Drained (y.goOn t (proceed caller now' (.out, y.scheduler))) t' := by
      intro t' ht'
      cases loop with
      | none =>
          refine .inr ⟨u, ?_, element, (hsame u).trans hu⟩
          rintro rfl
          have hnone := ht'.runs
          rw [hsame, hu] at hnone
          cases hnone
      | some started =>
          left
          rw [hqueue]
          exact h.secondLoop ⟨u, element, started, hu⟩
    refine ⟨⟨hsystem, ?_, fun t' ht' => .inl (hdrained t' ht')⟩, fun t' _ ht' => hdrained t' ht'⟩
    rw [inSecondLoop_congr hsame, hqueue]
    exact h.secondLoop

/-- An action returns. -/
theorem WakeupInv.actionDone (h : WakeupInv y) {t : T} {caller : Caller} {element : DeferredPtr}
    {loop : Option Timespec} (ht : y.thread t = .inAction caller element loop) {now : Timespec}
    (hnow : now.Reading) (now' : Timespec) :
    WakeupInv (y.goOn t (proceed caller now' (y.scheduler.actionDone element loop now))) ∧
      BlocksDrained y (y.goOn t (proceed caller now' (y.scheduler.actionDone element loop now))) := by
  obtain ⟨l, m, r, hqueues, hrunner⟩ := h.system
  have hruns : (y.thread t).runs = some (element, loop) := by rw [ht]; rfl
  rcases hrunner with ⟨_, _, hnone⟩ | ⟨hrun, u, element', loop', rfl, hreading, hu, hothers⟩
  · rw [hnone t] at hruns
    cases hruns
  · -- only one thread is in `run_deferred`
    have heq : t = u := by
      by_contra hne
      rw [hothers t hne] at hruns
      cases hruns
    rw [heq, hu] at hruns
    cases hruns
    rw [heq]
    refine wakeupInv_goOn ?_ hothers caller now'
    have hdone := hqueues.actionDone hrun hreading hnow
    cases loop with
    | none => exact hdone
    | some started =>
        have hl : l = [] := hqueues.queueEmpty_deferred.mp (h.secondLoop ⟨u, element, started, hu⟩)
        rw [hl] at hdone
        exact hdone

/-- A step keeps the invariant, and its thread blocks only where it may. -/
theorem PthreadStep.wakeupInv {event : PthreadEvent} (hstep : PthreadStep y event y')
    (hallowed : NotInSecondLoop y event) (h : WakeupInv y) :
    WakeupInv y' ∧ BlocksDrained y y' := by
  have hsystem := hstep.threadsInv h.system
  cases hstep with
  | enqueue t address delay now action scheduler thread hcalls hfree hnow henqueue hsignal =>
      refine ⟨⟨hsystem, ?_, fun t' ht' => .inr (hsignal.waits ht').2⟩,
        fun t' hnot ht' => absurd (hsignal.waits ht').1 hnot⟩
      intro hsecond
      rw [inSecondLoop_congr (y := y) hsignal.runs] at hsecond
      obtain ⟨l, m, r, hqueues, _⟩ := h.system
      obtain ⟨s', l', m', hs', hqueues', _, hdelay⟩ :=
        hqueues.enqueue hfree ⟨by simp, by simp⟩ delay hnow action
      rw [hs'] at henqueue
      cases henqueue
      -- the first queue grows only by an action without a delay, which is not enqueued now
      by_cases hzero : delay = 0
      · rw [hzero] at hallowed
        exact absurd hsecond (hallowed rfl)
      · have hl : l = [] := hqueues.queueEmpty_deferred.mp (h.secondLoop hsecond)
        rw [hdelay hzero, hl] at hqueues'
        exact hqueues'.queueEmpty_deferred.mpr rfl
  | wakeup t thread hcalls hsignal =>
      refine ⟨⟨hsystem, ?_, fun t' ht' => .inr (hsignal.waits ht').2⟩,
        fun t' hnot ht' => absurd (hsignal.waits ht').1 hnot⟩
      rw [inSecondLoop_congr (y := y) hsignal.runs]
      exact h.secondLoop
  | sleep t time now now' hcalls hnow hnow' =>
      apply h.runDeferred _ _ hnow
      rw [hcalls]
      rfl
  | awake t time now now' hawake hnow hnow' =>
      apply h.runDeferred _ _ hnow
      rw [hawake]
      rfl
  | interrupt t time wakeup hwaits =>
      have hsame : ∀ t', (Function.update y.thread t (.awake time) t').runs =
          (y.thread t').runs := by
        apply update_runs
        rw [hwaits]
        rfl
      -- the thread that is interrupted is awake
      refine ⟨⟨hsystem, ?_, fun t' ht' => .inr ⟨t, by simp [ThreadState.Awake]⟩⟩, ?_⟩
      · rw [inSecondLoop_congr (y := y) hsame]
        exact h.secondLoop
      · intro t' hnot ht'
        by_cases heq : t' = t
        · rw [heq] at ht'
          simp [ThreadState.Waits] at ht'
        · simp only [Function.update_of_ne heq] at ht'
          exact absurd ht' hnot
  | actionDone t caller element loop now now' haction hnow hnow' =>
      exact h.actionDone haction hnow now'
  | writerLock t now now' hcalls hnow hnow' =>
      apply h.runDeferred _ _ hnow
      rw [hcalls]
      rfl
  | takeWriter t hwriter hfree =>
      refine h.other hsystem rfl rfl ?_ ?_ rfl id
      · rw [hwriter]
        rfl
      · rw [hwriter]
        exact id
  | giveWriter t hcalls hwriter =>
      refine h.other hsystem rfl rfl ?_ ?_ rfl id
      · rw [hcalls]
        rfl
      · rw [hcalls]
        exact id
  | writerUnlock t now now' hunlocked hnow hnow' =>
      apply h.runDeferred _ _ hnow
      rw [hunlocked]
      rfl
  | actionWriterLock t caller element loop now haction hnow hfree =>
      refine h.congr ?_ rfl
      simp only [h.system.runDeferred_nested haction]
  | actionWriterUnlock t caller element loop now haction hnow hwriter =>
      refine h.congr ?_ rfl
      simp only [h.system.runDeferred_nested haction]

/-- It holds of every system that is reached where nothing is enqueued without a delay while a
thread is in the second loop. -/
theorem PthreadReachable.wakeupInv (h : PthreadReachable NotInSecondLoop y) : WakeupInv y := by
  induction h with
  | new memory =>
      refine ⟨⟨[], [], [], queues_new memory, .inl ⟨rfl, rfl, fun _ => rfl⟩⟩, fun _ => ?_, ?_⟩
      · exact (queues_new memory).queueEmpty_deferred.mpr rfl
      · intro t ht
        cases ht
  | step h hallowed hstep ih => exact (hstep.wakeupInv hallowed ih).1

/-- **No wake-up is lost** in a run in which nothing is enqueued without a delay while a thread is
in the second loop of `run_deferred`: a thread that blocks leaves no action without a delay
behind, or another thread is in the first loop; and as long as it is blocked this is so, or some
thread has been woken. -/
theorem no_lost_wakeup (h : PthreadReachable NotInSecondLoop y) :
    NoLostWakeup y ∧
      ∀ (event : PthreadEvent) (y' : PthreadSystem T A), NotInSecondLoop y event →
        PthreadStep y event y' → BlocksDrained y y' := by
  refine ⟨h.wakeupInv.waits, ?_⟩
  intro event y' hallowed hstep
  exact (hstep.wakeupInv hallowed h.wakeupInv).2

end System

/-! ## Two runs -/

theorem reading_of_pos {sec : Nat} (h : 0 < sec) : (⟨sec, 0⟩ : Timespec).Reading := by
  refine ⟨?_, by simp⟩
  simp only [ne_eq, Timespec.mk.injEq]
  omega

/-- An action with a delay of a microsecond is in the queue. -/
def delayedSystem : PthreadSystem Unit Unit :=
  { PthreadSystem.new blankMemory with
    scheduler := (PthreadScheduler.new blankMemory).insert (.element 0) .deferredWithDelay
      (some ⟨5, 1000⟩) () }

/-- A thread sleeps, and runs that action. -/
def secondLoopSystem : PthreadSystem Unit Unit :=
  delayedSystem.goOn ()
    (proceed (.sleep none) ⟨6, 0⟩ (delayedSystem.scheduler.runDeferred ⟨6, 0⟩))

/-- The action enqueues one without a delay. -/
def enqueuedSystem : PthreadSystem Unit Unit :=
  { secondLoopSystem with
    scheduler := secondLoopSystem.scheduler.insert (.element 1) .deferred none () }

/-- The action has returned. -/
def blockedSystem : PthreadSystem Unit Unit :=
  enqueuedSystem.goOn () (proceed (.sleep none) ⟨7, 0⟩
    (enqueuedSystem.scheduler.actionDone (.element 0) (some ⟨6, 0⟩) ⟨7, 0⟩))

theorem blockedSystem_step : PthreadStep enqueuedSystem .other blockedSystem :=
  .actionDone enqueuedSystem () (.sleep none) (.element 0) (some ⟨6, 0⟩) ⟨7, 0⟩ ⟨7, 0⟩
    (by decide +kernel) (reading_of_pos (by decide)) (reading_of_pos (by decide))

theorem enqueuedSystem_reachable : PthreadReachable (fun _ _ => True) enqueuedSystem := by
  have hdelayed : PthreadStep (PthreadSystem.new blankMemory) (.enqueue 1) delayedSystem :=
    .enqueue _ () 0 1 ⟨5, 0⟩ () _ _ trivial rfl (reading_of_pos (by decide)) rfl
      (.lost fun _ => id)
  have hsecond : PthreadStep delayedSystem .other secondLoopSystem :=
    .sleep delayedSystem () none ⟨6, 0⟩ ⟨6, 0⟩ rfl (reading_of_pos (by decide))
      (reading_of_pos (by decide))
  have hthread : secondLoopSystem.thread () =
      .inAction (.sleep none) (.element 0) (some ⟨6, 0⟩) := by
    decide +kernel
  have henqueued : PthreadStep secondLoopSystem (.enqueue 0) enqueuedSystem := by
    refine .enqueue _ () 1 0 ⟨6, 0⟩ () _ _ ?_ ?_ (reading_of_pos (by decide)) rfl (.lost ?_)
    · rw [hthread]
      trivial
    · decide +kernel
    · intro t
      rw [hthread]
      exact id
  exact .step (.step (.step (.new blankMemory) trivial hdelayed) trivial hsecond) trivial henqueued

/-- The sleeping thread is blocked, nobody else is there, and the action stays in the queue. -/
theorem lost_wakeup : ∃ y y' : PthreadSystem Unit Unit,
    PthreadReachable (fun _ _ => True) y ∧ PthreadStep y .other y' ∧
      ¬ NoLostWakeup y' ∧ ¬ BlocksDrained y y' := by
  have hthread : blockedSystem.thread () = .waiting none none := by
    decide +kernel
  have hwaits : (blockedSystem.thread ()).Waits := by
    rw [hthread]
    trivial
  have hrunning : enqueuedSystem.thread () =
      .inAction (.sleep none) (.element 0) (some ⟨6, 0⟩) := by
    decide +kernel
  have hqueue : blockedSystem.scheduler.queueEmpty .deferred = false := by
    decide +kernel
  have hdrained : ¬ Drained blockedSystem () := by
    rintro (hempty | ⟨t', hne, _⟩)
    · rw [hqueue] at hempty
      cases hempty
    · exact hne rfl
  refine ⟨enqueuedSystem, blockedSystem, enqueuedSystem_reachable, blockedSystem_step, ?_, ?_⟩
  · intro h
    rcases h () hwaits with hd | ⟨t', hawake⟩
    · exact hdrained hd
    · rw [hthread] at hawake
      exact hawake
  · intro h
    apply hdrained
    apply h () _ hwaits
    rw [hrunning]
    exact id

/-- One thread is about to run an action, without a delay. -/
def immediateSystem : PthreadSystem Bool Unit :=
  { PthreadSystem.new blankMemory with
    scheduler := (PthreadScheduler.new blankMemory).insert (.element 0) .deferred none () }

/-- The thread runs it. -/
def firstLoopSystem : PthreadSystem Bool Unit :=
  immediateSystem.goOn true
    (proceed .writerLock ⟨6, 0⟩ (immediateSystem.scheduler.runDeferred ⟨6, 0⟩))

/-- The action enqueues another one. -/
def drainingSystem : PthreadSystem Bool Unit :=
  { firstLoopSystem with
    scheduler := firstLoopSystem.scheduler.insert (.element 1) .deferred none () }

theorem drainingSystem_reachable : PthreadReachable NotInSecondLoop drainingSystem := by
  have himmediate : PthreadStep (PthreadSystem.new blankMemory) (.enqueue 0) immediateSystem :=
    .enqueue _ true 0 0 ⟨5, 0⟩ () _ _ trivial rfl (reading_of_pos (by decide)) rfl
      (.lost fun _ => id)
  have hfirst : PthreadStep immediateSystem .other firstLoopSystem :=
    .writerLock immediateSystem true ⟨6, 0⟩ ⟨6, 0⟩ rfl (reading_of_pos (by decide))
      (reading_of_pos (by decide))
  have hthread : firstLoopSystem.thread true = .inAction .writerLock (.element 0) none ∧
      firstLoopSystem.thread false = .outside := by
    decide +kernel
  have hdraining : PthreadStep firstLoopSystem (.enqueue 0) drainingSystem := by
    refine .enqueue _ true 1 0 ⟨6, 0⟩ () _ _ ?_ ?_ (reading_of_pos (by decide)) rfl (.lost ?_)
    · rw [hthread.1]
      trivial
    · decide +kernel
    · rintro (_ | _)
      · rw [hthread.2]
        exact id
      · rw [hthread.1]
        exact id
  have hallowed : NotInSecondLoop firstLoopSystem (.enqueue 0) := by
    rintro _ ⟨_ | _, element, now, hruns⟩
    · rw [hthread.2] at hruns
      cases hruns
    · rw [hthread.1] at hruns
      cases hruns
  refine .step (.step (.step (.new blankMemory) ?_ himmediate) ?_ hfirst) hallowed hdraining
  · rintro _ ⟨t, element, now, hruns⟩
    cases hruns
  · intro hevent
    cases hevent

/-- The other thread sleeps and blocks; the first one is in the first loop. -/
theorem no_lost_wakeup_two : ∃ y y' : PthreadSystem Bool Unit,
    PthreadStep y .other y' ∧ (y'.thread false).Waits ∧
      y'.scheduler.queueEmpty .deferred = false ∧ NoLostWakeup y ∧ BlocksDrained y y' := by
  let y' := drainingSystem.goOn false
    (proceed (.sleep none) ⟨7, 0⟩ (drainingSystem.scheduler.runDeferred ⟨7, 0⟩))
  have hstep : PthreadStep drainingSystem .other y' :=
    .sleep drainingSystem false none ⟨7, 0⟩ ⟨7, 0⟩ (by decide +kernel)
      (reading_of_pos (by decide)) (reading_of_pos (by decide))
  have hthread : y'.thread false = .waiting none none := by
    decide +kernel
  obtain ⟨hwakeup, hblocks⟩ := no_lost_wakeup drainingSystem_reachable
  refine ⟨drainingSystem, y', hstep, ?_, by decide +kernel, hwakeup, hblocks .other y' ?_ hstep⟩
  · rw [hthread]
    trivial
  · intro hevent
    cases hevent

end LabComm.C
