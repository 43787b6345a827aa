import LabComm.C.PthreadScheduler
import Mathlib.Data.List.TakeWhile

set_option autoImplicit false

/-! # The queues of the scheduler

In every system that the threads reach, the two queues are linked in both directions, the one with
the delays is in the order of the deadlines and then of the calls, and every call of `enqueue` is
either in a queue or has been started, once (`scheduler_queues`).
-/

namespace LabComm.C

open Library

/-! ## Deadlines -/

/-- The nanoseconds since the epoch. -/
def Timespec.ns (t : Timespec) : Nat := t.tv_sec * 1000000000 + t.tv_nsec

theorem Timespec.Reading.ns_pos {t : Timespec} (h : t.Reading) : 0 < t.ns := by
  obtain ⟨sec, nsec⟩ := t
  have hne := h.1
  unfold Timespec.ns
  by_contra hzero
  apply hne
  simp only [Timespec.mk.injEq]
  simp only at hzero
  omega

theorem Timespec.ns_inj {t u : Timespec} (ht : t.tv_nsec < 1000000000)
    (hu : u.tv_nsec < 1000000000) (h : t.ns = u.ns) : t = u := by
  obtain ⟨tsec, tnsec⟩ := t
  obtain ⟨usec, unsec⟩ := u
  unfold Timespec.ns at h
  simp only at ht hu h
  rw [Timespec.mk.injEq]
  omega

theorem Timespec.Reading.not_zero {t : Timespec} (h : t.Reading) :
    ¬ (t.tv_sec = 0 ∧ t.tv_nsec = 0) := by
  intro hzero
  have hpos := h.ns_pos
  unfold Timespec.ns at hpos
  omega

/-- Readings are compared by their nanoseconds. -/
theorem timespecCompare_le {t u : Timespec} (ht : t.Reading) (hu : u.Reading) :
    timespecCompare t u ≤ 0 ↔ t.ns ≤ u.ns := by
  have htz := ht.not_zero
  have huz := hu.not_zero
  have htn := ht.2
  have hun := hu.2
  unfold timespecCompare Timespec.ns
  split_ifs <;> omega

theorem timespecCompare_neg {t u : Timespec} (ht : t.Reading) (hu : u.Reading) :
    timespecCompare t u < 0 ↔ t.ns < u.ns := by
  have htz := ht.not_zero
  have huz := hu.not_zero
  have htn := ht.2
  have hun := hu.2
  unfold timespecCompare Timespec.ns
  split_ifs <;> omega

theorem le_timespecCompare {t u : Timespec} (ht : t.Reading) (hu : u.Reading) :
    0 ≤ timespecCompare t u ↔ u.ns ≤ t.ns := by
  have htz := ht.not_zero
  have huz := hu.not_zero
  have htn := ht.2
  have hun := hu.2
  unfold timespecCompare Timespec.ns
  split_ifs <;> omega

/-- The end of time is later than every reading. -/
theorem timespecCompare_end {t : Timespec} (ht : t.Reading) : timespecCompare ⟨0, 0⟩ t = 1 := by
  have htz := ht.not_zero
  have hne : ¬ (0 = t.tv_sec ∧ 0 = t.tv_nsec) := by omega
  unfold timespecCompare
  rw [if_neg hne, if_pos ⟨rfl, rfl⟩]

theorem timespecCompare_to_end {t : Timespec} (ht : t.Reading) :
    timespecCompare t ⟨0, 0⟩ = -1 := by
  have htz := ht.not_zero
  unfold timespecCompare
  rw [if_neg htz, if_neg htz, if_pos ⟨rfl, rfl⟩]

/-- A deadline is that many microseconds after the reading, and keeps its form. -/
theorem timespecAddUsec_ns (t : Timespec) (usec : UInt32) :
    (timespecAddUsec t usec).ns = t.ns + usec.toNat * 1000 ∧
      (timespecAddUsec t usec).tv_nsec < 1000000000 := by
  unfold timespecAddUsec Timespec.ns
  simp only
  omega

theorem timespecAddUsec_reading {t : Timespec} (ht : t.Reading) (usec : UInt32) :
    (timespecAddUsec t usec).Reading := by
  obtain ⟨hns, hnsec⟩ := timespecAddUsec_ns t usec
  refine ⟨?_, hnsec⟩
  intro hzero
  have hpos := ht.ns_pos
  rw [hzero] at hns
  unfold Timespec.ns at hns hpos
  simp only at hns
  omega

/-! ## The invariant of the data -/

section Queues

variable {A : Type}

/-- An element comes before another in the queue with the delays. -/
def DeferredMemory.Before (memory : DeferredMemory A) (p q : DeferredPtr) : Prop :=
  (memory.when p).ns < (memory.when q).ns ∨
    (memory.when p = memory.when q ∧ memory.call p < memory.call q)

/-- The elements of the two queues are `l` and `m`, and `r` those whose actions are being run. -/
structure Queues (s : PthreadScheduler A) (l m r : List DeferredPtr) : Prop where
  deferred : Ring s.memory.links .deferred l
  delayed : Ring s.memory.links .deferredWithDelay m
  nodup : (l ++ (m ++ r)).Nodup
  elements : ∀ p ∈ l ++ (m ++ r), s.memory.allocated p = true ∧ p ≠ .deferred ∧
    p ≠ .deferredWithDelay
  endOfTime : s.memory.when .deferredWithDelay = ⟨0, 0⟩
  actions : ∀ p ∈ l ++ (m ++ r), ∃ c, s.calls[s.memory.call p]? = some c ∧
    s.memory.action p = some c.action
  deadlines : ∀ p ∈ m, (s.memory.when p).Reading ∧ ∃ c, s.calls[s.memory.call p]? = some c ∧
    c.deadline = some (s.memory.when p)
  sorted : m.Pairwise s.memory.Before
  readings : ∀ c ∈ s.calls, ∀ w, c.deadline = some w → w.Reading
  /-- Each call is in a queue or has been started, and not twice. -/
  once : (s.starts.map Start.call ++ (l ++ m).map s.memory.call).Perm
    (List.range s.calls.length)
  immediate : ∀ p ∈ l, ∃ c, s.calls[s.memory.call p]? = some c ∧ c.deadline = none
  fifo : ((s.starts.filter fun st => st.now = none).map Start.call ++
    l.map s.memory.call).Pairwise (· < ·)
  started : ∀ st ∈ s.starts, ∃ c, s.calls[st.call]? = some c ∧
    match st.now with
      | none => c.deadline = none
      | some now => ∃ when, c.deadline = some when ∧ timespecCompare when now ≤ 0

variable {s : PthreadScheduler A} {l m r : List DeferredPtr}

theorem queues_new (memory : DeferredMemory A) : Queues (PthreadScheduler.new memory) [] [] [] where
  deferred := by
    apply ring_nil
    · simp [PthreadScheduler.new, Links.setNext, Links.setPrev]
    · simp [PthreadScheduler.new, Links.setNext, Links.setPrev]
  delayed := by
    apply ring_nil
    · simp [PthreadScheduler.new, Links.setNext, Links.setPrev]
    · simp [PthreadScheduler.new, Links.setNext, Links.setPrev]
  nodup := by simp
  elements := by simp
  endOfTime := by simp [PthreadScheduler.new]
  actions := by simp
  deadlines := by simp
  sorted := List.Pairwise.nil
  readings := by simp [PthreadScheduler.new]
  once := by simp [PthreadScheduler.new]
  immediate := by simp
  fifo := by simp [PthreadScheduler.new]
  started := by simp [PthreadScheduler.new]

/-- A flag is not part of it. -/
theorem Queues.flags (h : Queues s l m r) (wakeup runningDeferred : Bool) :
    Queues { s with wakeup := wakeup, runningDeferred := runningDeferred } l m r :=
  ⟨h.deferred, h.delayed, h.nodup, h.elements, h.endOfTime, h.actions, h.deadlines, h.sorted,
    h.readings, h.once, h.immediate, h.fifo, h.started⟩

theorem Queues.queueEmpty_deferred (h : Queues s l m r) :
    s.queueEmpty .deferred = true ↔ l = [] := by
  unfold PthreadScheduler.queueEmpty
  rw [decide_eq_true_iff]
  exact h.deferred.next_head_iff

theorem Queues.queueEmpty_delayed (h : Queues s l m r) :
    s.queueEmpty .deferredWithDelay = true ↔ m = [] := by
  unfold PthreadScheduler.queueEmpty
  rw [decide_eq_true_iff]
  exact h.delayed.next_head_iff

/-- The heads and the elements of the two queues are different. -/
theorem Queues.disjoint (h : Queues s l m r) {p : DeferredPtr} (hl : p ∈ .deferred :: l) :
    p ∉ DeferredPtr.deferredWithDelay :: m := by
  intro hm
  have hnd := h.nodup
  rw [List.nodup_append] at hnd
  rcases List.mem_cons.mp hl with rfl | hl
  · rcases List.mem_cons.mp hm with heq | hm
    · cases heq
    · exact (h.elements _ (by simp [hm])).2.1 rfl
  · rcases List.mem_cons.mp hm with rfl | hm
    · exact (h.elements _ (by simp [hl])).2.2 rfl
    · exact hnd.2.2 p hl p (by simp [hm]) rfl

/-- A call in a queue or started is a call that has been made. -/
theorem Queues.call_lt (h : Queues s l m r) {n : Nat}
    (hn : n ∈ s.starts.map Start.call ++ (l ++ m).map s.memory.call) : n < s.calls.length :=
  List.mem_range.mp (h.once.mem_iff.mp hn)

/-! ## Starting an action -/

/-- The first action without a delay is started. -/
theorem Queues.runAction_immediate {x : DeferredPtr} (h : Queues s (x :: l) m []) :
    Queues (s.runAction x none) l m [x] where
  deferred := Ring.unlink (l := []) h.deferred
  delayed := by
    have hring : Ring s.memory.links .deferred ([] ++ x :: l) := h.deferred
    -- the neighbours of the first action are in its own queue
    apply h.delayed.unlink_other
    · apply h.disjoint
      rw [(chain_append.mp hring.1).2.next_eq]
      cases l <;> simp
    · apply h.disjoint
      rw [(chain_append.mp hring.1).1.prev_eq]
      simp
  nodup := by
    have hnd := h.nodup
    rw [List.cons_append, List.nodup_cons] at hnd
    simp only [List.append_nil] at hnd
    rw [← List.append_assoc, List.nodup_append]
    refine ⟨hnd.2, List.nodup_singleton x, ?_⟩
    intro a ha b hb hab
    rw [List.mem_singleton] at hb
    exact hnd.1 (hb ▸ hab ▸ ha)
  elements := by
    intro p hp
    apply h.elements p
    simp only [List.mem_append, List.mem_cons, List.not_mem_nil] at hp ⊢
    tauto
  endOfTime := h.endOfTime
  actions := by
    intro p hp
    apply h.actions p
    simp only [List.mem_append, List.mem_cons, List.not_mem_nil] at hp ⊢
    tauto
  deadlines := h.deadlines
  sorted := h.sorted
  readings := h.readings
  once := by
    have honce := h.once
    simp only [PthreadScheduler.runAction, List.map_append, List.map_cons, List.map_nil,
      List.cons_append, List.append_assoc, List.nil_append] at honce ⊢
    exact honce
  immediate := fun p hp => h.immediate p (List.mem_cons_of_mem x hp)
  fifo := by
    have hfifo := h.fifo
    simp only [PthreadScheduler.runAction, List.filter_append, List.map_append, List.map_cons]
      at hfifo ⊢
    simpa using hfifo
  started := by
    intro st hst
    rcases List.mem_append.mp hst with hold | hnew
    · exact h.started st hold
    · -- the one that is started has no delay
      rw [List.mem_singleton] at hnew
      obtain ⟨c, hc, hnone⟩ := h.immediate x List.mem_cons_self
      rw [hnew]
      exact ⟨c, hc, hnone⟩

/-- The first action with a delay is started when its deadline is reached. -/
theorem Queues.runAction_delayed {x : DeferredPtr} (h : Queues s l (x :: m) [])
    {now : Timespec} (hnow : timespecCompare (s.memory.when x) now ≤ 0) :
    Queues (s.runAction x (some now)) l m [x] where
  deferred := by
    have hring : Ring s.memory.links .deferredWithDelay ([] ++ x :: m) := h.delayed
    -- the neighbours of the first action are in its own queue
    apply h.deferred.unlink_other
    · intro hmem
      apply h.disjoint hmem
      rw [(chain_append.mp hring.1).2.next_eq]
      cases m <;> simp
    · intro hmem
      apply h.disjoint hmem
      rw [(chain_append.mp hring.1).1.prev_eq]
      simp
  delayed := Ring.unlink (l := []) h.delayed
  nodup := by
    have hnd := h.nodup
    simp only [List.append_nil, List.nodup_append, List.nodup_cons, List.mem_cons] at hnd
    simp only [List.nodup_append, List.mem_append, List.mem_singleton]
    refine ⟨hnd.1, ⟨hnd.2.1.2, List.nodup_singleton x, ?_⟩, ?_⟩
    · rintro a ha b rfl hab
      exact hnd.2.1.1 (hab ▸ ha)
    · rintro a ha b (hb | rfl)
      · exact hnd.2.2 a ha b (.inr hb)
      · exact hnd.2.2 a ha b (.inl rfl)
  elements := by
    intro p hp
    apply h.elements p
    simp only [List.mem_append, List.mem_cons, List.not_mem_nil] at hp ⊢
    tauto
  endOfTime := h.endOfTime
  actions := by
    intro p hp
    apply h.actions p
    simp only [List.mem_append, List.mem_cons, List.not_mem_nil] at hp ⊢
    tauto
  deadlines := fun p hp => h.deadlines p (List.mem_cons_of_mem x hp)
  sorted := (List.pairwise_cons.mp h.sorted).2
  readings := h.readings
  once := by
    refine List.Perm.trans ?_ h.once
    simp only [PthreadScheduler.runAction, List.map_append, List.map_cons, List.map_nil,
      List.append_assoc, List.cons_append, List.nil_append]
    exact List.Perm.append_left _ List.perm_middle.symm
  immediate := h.immediate
  fifo := by
    have hfifo := h.fifo
    simp only [PthreadScheduler.runAction, List.filter_append]
    simpa using hfifo
  started := by
    intro st hst
    rcases List.mem_append.mp hst with hold | hnew
    · exact h.started st hold
    · -- its deadline, the first of the queue, has been reached
      rw [List.mem_singleton] at hnew
      obtain ⟨_, c, hc, hdeadline⟩ := h.deadlines x List.mem_cons_self
      rw [hnew]
      exact ⟨c, hc, _, hdeadline, hnow⟩

/-- The memory of an element is given back after its action. -/
theorem Queues.free {e : DeferredPtr} (h : Queues s l m [e]) :
    Queues { s with memory :=
      { s.memory with allocated := Function.update s.memory.allocated e false } } l m [] where
  deferred := h.deferred
  delayed := h.delayed
  nodup := by
    have hnd := h.nodup
    rw [← List.append_assoc, List.nodup_append] at hnd
    simpa using hnd.1
  elements := by
    intro p hp
    have hnd := h.nodup
    rw [← List.append_assoc, List.nodup_append] at hnd
    rw [List.append_nil] at hp
    have hne : p ≠ e := fun heq => hnd.2.2 p hp e (by simp) heq
    show Function.update s.memory.allocated e false p = true ∧ _
    rw [Function.update_of_ne hne]
    apply h.elements p
    rw [← List.append_assoc]
    exact List.mem_append_left _ hp
  endOfTime := h.endOfTime
  actions := by
    intro p hp
    apply h.actions p
    rw [← List.append_assoc]
    rw [List.append_nil] at hp
    exact List.mem_append_left _ hp
  deadlines := h.deadlines
  sorted := h.sorted
  readings := h.readings
  once := h.once
  immediate := h.immediate
  fifo := h.fifo
  started := h.started

/-! ## Enqueueing -/

theorem getElem?_append_call {α : Type} {l : List α} {i : Nat} {a : α} (h : l[i]? = some a)
    (b : α) : (l ++ [b])[i]? = some a := by
  rw [List.getElem?_append_left (List.getElem?_eq_some_iff.mp h).1]
  exact h

theorem getElem?_append_new {α : Type} (l : List α) (b : α) : (l ++ [b])[l.length]? = some b := by
  simp

/-- An element that gets its memory is in no queue. -/
theorem Queues.not_mem_of_free (h : Queues s l m r) {x : DeferredPtr}
    (hx : s.memory.allocated x = false) : x ∉ l ++ (m ++ r) := by
  intro hmem
  rw [(h.elements x hmem).1] at hx
  cases hx

section Insert

variable {x : DeferredPtr} (y : DeferredPtr) (deadline : Option Timespec) (action : A)
  (h : Queues s l m r) (hx : s.memory.allocated x = false)

include h hx

/-- What an inserted element does not change of the others. -/
theorem Queues.insert_others {p : DeferredPtr} (hp : p ∈ l ++ (m ++ r)) :
    (s.insert x y deadline action).memory.when p = s.memory.when p ∧
      (s.insert x y deadline action).memory.action p = s.memory.action p ∧
      (s.insert x y deadline action).memory.allocated p = s.memory.allocated p ∧
      (s.insert x y deadline action).memory.call p = s.memory.call p := by
  have hne : p ≠ x := fun heq => h.not_mem_of_free hx (heq ▸ hp)
  unfold PthreadScheduler.insert
  refine ⟨?_, Function.update_of_ne hne _ _, Function.update_of_ne hne _ _,
    Function.update_of_ne hne _ _⟩
  cases deadline with
  | none => rfl
  | some w => exact Function.update_of_ne hne _ _

theorem Queues.insert_calls {l' : List DeferredPtr} (hl : ∀ p ∈ l', p ∈ l ++ (m ++ r)) :
    l'.map (s.insert x y deadline action).memory.call = l'.map s.memory.call := by
  apply List.map_congr_left
  intro p hp
  exact (h.insert_others y deadline action hx (hl p hp)).2.2.2

/-- All elements have their memory and their action. -/
theorem Queues.insert_actions (hx' : x ≠ .deferred ∧ x ≠ .deferredWithDelay) {p : DeferredPtr}
    (hp : p = x ∨ p ∈ l ++ (m ++ r)) :
    ((s.insert x y deadline action).memory.allocated p = true ∧ p ≠ .deferred ∧
      p ≠ .deferredWithDelay) ∧
    ∃ c, (s.insert x y deadline action).calls[
        (s.insert x y deadline action).memory.call p]? = some c ∧
      (s.insert x y deadline action).memory.action p = some c.action := by
  rcases hp with rfl | hp
  · refine ⟨⟨Function.update_self _ _ _, hx'⟩, ⟨deadline, action⟩, ?_, Function.update_self _ _ _⟩
    have hcall : (s.insert p y deadline action).memory.call p = s.calls.length :=
      Function.update_self _ _ _
    rw [hcall]
    exact getElem?_append_new _ _
  · obtain ⟨_, haction, hallocated, hcall⟩ := h.insert_others y deadline action hx hp
    rw [haction, hallocated, hcall]
    obtain ⟨c, hc, hca⟩ := h.actions p hp
    exact ⟨h.elements p hp, c, getElem?_append_call hc _, hca⟩

/-- What is known of the call of an element stays. -/
theorem Queues.insert_call {p : DeferredPtr} (hp : p ∈ l ++ (m ++ r)) {P : EnqueueCall A → Prop}
    (hc : ∃ c, s.calls[s.memory.call p]? = some c ∧ P c) :
    ∃ c, (s.insert x y deadline action).calls[
      (s.insert x y deadline action).memory.call p]? = some c ∧ P c := by
  obtain ⟨c, hc, hP⟩ := hc
  rw [(h.insert_others y deadline action hx hp).2.2.2]
  exact ⟨c, getElem?_append_call hc _, hP⟩

theorem Queues.insert_deadline {p : DeferredPtr} (hp : p ∈ m) :
    ((s.insert x y deadline action).memory.when p).Reading ∧
      ∃ c, (s.insert x y deadline action).calls[
          (s.insert x y deadline action).memory.call p]? = some c ∧
        c.deadline = some ((s.insert x y deadline action).memory.when p) := by
  have hmem : p ∈ l ++ (m ++ r) := by simp [hp]
  rw [(h.insert_others y deadline action hx hmem).1]
  exact ⟨(h.deadlines p hp).1, h.insert_call y deadline action hx hmem (h.deadlines p hp).2⟩

/-- Elements stay in their order. -/
theorem Queues.insert_pairwise {m' : List DeferredPtr} (hm : ∀ p ∈ m', p ∈ l ++ (m ++ r))
    (hsorted : m'.Pairwise s.memory.Before) :
    m'.Pairwise (s.insert x y deadline action).memory.Before := by
  refine hsorted.imp_of_mem ?_
  intro p q hp hq hbefore
  obtain ⟨hwhenp, _, _, hcallp⟩ := h.insert_others y deadline action hx (hm p hp)
  obtain ⟨hwhenq, _, _, hcallq⟩ := h.insert_others y deadline action hx (hm q hq)
  unfold DeferredMemory.Before at hbefore ⊢
  rw [hwhenp, hwhenq, hcallp, hcallq]
  exact hbefore

omit hx in
theorem Queues.insert_readings (hw : ∀ w, deadline = some w → w.Reading) :
    ∀ c ∈ (s.insert x y deadline action).calls, ∀ w, c.deadline = some w → w.Reading := by
  intro c hc w hcw
  rcases List.mem_append.mp hc with hc | hc
  · exact h.readings c hc w hcw
  · rw [List.mem_singleton] at hc
    rw [hc] at hcw
    exact hw w hcw

omit h hx in
theorem perm_append_call {a b c : List Nat} {n : Nat} (h : (a ++ b).Perm (List.range n))
    (hc : (b ++ [n]).Perm c) : (a ++ c).Perm (List.range (n + 1)) := by
  rw [List.range_succ]
  calc (a ++ c).Perm (a ++ (b ++ [n])) := List.Perm.append_left a hc.symm
    _ = (a ++ b) ++ [n] := (List.append_assoc a b [n]).symm
    (a ++ b ++ [n]).Perm (List.range n ++ [n]) := h.append_right [n]

/-- The new call is that of the new element, in whichever queue it is. -/
theorem Queues.insert_once {q : List DeferredPtr} (hq : (x :: (l ++ m)).Perm q) :
    (s.starts.map Start.call ++ q.map (s.insert x y deadline action).memory.call).Perm
      (List.range (s.insert x y deadline action).calls.length) := by
  have hcall : (s.insert x y deadline action).memory.call x = s.calls.length :=
    Function.update_self _ _ _
  have hlen : (s.insert x y deadline action).calls.length = s.calls.length + 1 :=
    List.length_append
  have hold : (l ++ m).map (s.insert x y deadline action).memory.call =
      (l ++ m).map s.memory.call := by
    refine h.insert_calls y deadline action hx fun p hp => ?_
    rw [← List.append_assoc]
    exact List.mem_append_left r hp
  have hnew := hq.map (s.insert x y deadline action).memory.call
  rw [List.map_cons, hold, hcall] at hnew
  rw [hlen]
  exact perm_append_call h.once ((List.perm_append_singleton _ _).trans hnew)

omit hx in
theorem Queues.insert_started : ∀ st ∈ s.starts, ∃ c,
    (s.insert x y deadline action).calls[st.call]? = some c ∧
    match st.now with
      | none => c.deadline = none
      | some now => ∃ when, c.deadline = some when ∧ timespecCompare when now ≤ 0 := by
  intro st hst
  obtain ⟨c, hc, hst'⟩ := h.started st hst
  exact ⟨c, getElem?_append_call hc _, hst'⟩

/-- The calls without a delay that were started or are in the queue are older than the new one. -/
theorem Queues.insert_fifo :
    ((s.starts.filter fun st => st.now = none).map Start.call ++
      (l ++ [x]).map (s.insert x y deadline action).memory.call).Pairwise (· < ·) := by
  have hcall : (s.insert x y deadline action).memory.call x = s.calls.length :=
    Function.update_self _ _ _
  have hl : l.map (s.insert x y deadline action).memory.call = l.map s.memory.call :=
    h.insert_calls _ _ _ hx fun p hp => by simp [hp]
  rw [List.map_append, hl, List.map_singleton, hcall, ← List.append_assoc]
  refine List.pairwise_append.mpr ⟨h.fifo, List.pairwise_singleton _ _, ?_⟩
  intro a ha b hb
  rw [List.mem_singleton] at hb
  rw [hb]
  apply h.call_lt
  simp only [List.mem_append, List.mem_map, List.mem_filter] at ha ⊢
  rcases ha with ⟨st, hst, rfl⟩ | ⟨p, hp, rfl⟩
  · exact .inl ⟨st, hst.1, rfl⟩
  · exact .inr ⟨p, .inl hp, rfl⟩

/-- An action without a delay comes last. -/
theorem Queues.insert_immediate (hx' : x ≠ .deferred ∧ x ≠ .deferredWithDelay) :
    Queues (s.insert x .deferred none action) (l ++ [x]) m r := by
  have hmem := h.not_mem_of_free hx
  have hring : Ring s.memory.links .deferred (l ++ []) := by
    rw [List.append_nil]
    exact h.deferred
  have hxl : x ∉ DeferredPtr.deferred :: (l ++ []) := by
    simp only [List.mem_append, List.mem_cons, List.append_nil] at hmem ⊢
    tauto
  -- the new action is linked in between the last one and the head
  have hprev : s.memory.links.prev .deferred ∈ DeferredPtr.deferred :: l := hring.prev_mem
  have hperm : (x :: (l ++ (m ++ r))).Perm (l ++ [x] ++ (m ++ r)) := by
    rw [List.append_assoc]
    exact List.perm_middle.symm
  have hentries := fun p (hp : p ∈ l ++ [x] ++ (m ++ r)) =>
    h.insert_actions .deferred none action hx hx' (List.mem_cons.mp (hperm.mem_iff.mpr hp))
  exact
    { deferred := hring.insertBefore hxl rfl
      delayed := by
        -- no element of the other queue gets a new neighbour
        apply h.delayed.insertBefore_other
        · intro heq
          rw [← heq] at hprev
          exact hxl (by rw [List.append_nil]; exact hprev)
        · simp only [List.mem_append, List.mem_cons] at hmem ⊢
          tauto
        · exact h.disjoint List.mem_cons_self
        · exact h.disjoint hprev
      nodup := hperm.nodup_iff.mp (List.nodup_cons.mpr ⟨hmem, h.nodup⟩)
      elements := fun p hp => (hentries p hp).1
      endOfTime := h.endOfTime
      actions := fun p hp => (hentries p hp).2
      deadlines := fun p hp => h.insert_deadline _ _ _ hx hp
      sorted := h.insert_pairwise _ _ _ hx (fun p hp => by simp [hp]) h.sorted
      readings := h.insert_readings _ _ _ fun w hw => by cases hw
      once := by
        refine h.insert_once _ _ _ hx ?_
        rw [List.append_assoc]
        exact List.perm_middle.symm
      immediate := by
        intro p hp
        rcases List.mem_append.mp hp with hp | hp
        · exact h.insert_call _ _ _ hx (List.mem_append_left _ hp) (h.immediate p hp)
        · rw [List.mem_singleton] at hp
          have hcall : (s.insert x .deferred none action).memory.call x = s.calls.length :=
            Function.update_self _ _ _
          rw [hp, hcall]
          exact ⟨⟨none, action⟩, getElem?_append_new _ _, rfl⟩
      fifo := h.insert_fifo _ _ _ hx
      started := h.insert_started _ _ _ }

omit h in
/-- The new element comes after those with a deadline that is not later, which are older, and before
the others. -/
theorem Queues.insert_sorted {m₁ m₂ : List DeferredPtr} {w : Timespec}
    (h : Queues s l (m₁ ++ m₂) r) (hw : w.Reading)
    (hbefore : ∀ p ∈ m₁, (s.memory.when p).ns ≤ w.ns)
    (hafter : ∀ p ∈ m₂, w.ns < (s.memory.when p).ns) :
    (m₁ ++ x :: m₂).Pairwise (s.insert x y (some w) action).memory.Before := by
  have hcall : (s.insert x y (some w) action).memory.call x = s.calls.length :=
    Function.update_self _ _ _
  have hwhen : (s.insert x y (some w) action).memory.when x = w := Function.update_self _ _ _
  have hmem : ∀ p ∈ m₁ ++ m₂, p ∈ l ++ (m₁ ++ m₂ ++ r) := fun p hp =>
    List.mem_append_right l (List.mem_append_left r hp)
  have hothers := fun p hp => h.insert_others y (some w) action hx (hmem p hp)
  obtain ⟨hsorted₁, hsorted₂, hcross⟩ :=
    List.pairwise_append.mp (h.insert_pairwise y (some w) action hx hmem h.sorted)
  refine List.pairwise_append.mpr ⟨hsorted₁, List.pairwise_cons.mpr ⟨?_, hsorted₂⟩, ?_⟩
  · intro q hq
    left
    rw [hwhen, (hothers q (List.mem_append_right m₁ hq)).1]
    exact hafter q hq
  · intro p hp q hq
    rcases List.mem_cons.mp hq with rfl | hq
    · obtain ⟨hwhenp, _, _, hcallp⟩ := hothers p (List.mem_append_left m₂ hp)
      unfold DeferredMemory.Before
      rw [hwhenp, hcallp, hwhen, hcall]
      rcases (hbefore p hp).lt_or_eq with hlt | heq
      · exact .inl hlt
      · -- an equal deadline: the call is later than all calls so far
        right
        obtain ⟨hreading, _⟩ := h.deadlines p (List.mem_append_left m₂ hp)
        refine ⟨Timespec.ns_inj hreading.2 hw.2 heq, h.call_lt ?_⟩
        simp only [List.mem_append, List.mem_map]
        exact .inr ⟨p, .inr (.inl hp), rfl⟩
    · exact hcross p hp q hq

omit h in
/-- An action with a delay comes after those whose deadlines are not later. -/
theorem Queues.insert_delayed {m₁ m₂ : List DeferredPtr} {w : Timespec}
    (h : Queues s l (m₁ ++ m₂) r) (hx' : x ≠ .deferred ∧ x ≠ .deferredWithDelay)
    (hy : m₂.headD .deferredWithDelay = y) (hw : w.Reading)
    (hbefore : ∀ p ∈ m₁, (s.memory.when p).ns ≤ w.ns)
    (hafter : ∀ p ∈ m₂, w.ns < (s.memory.when p).ns) :
    Queues (s.insert x y (some w) action) l (m₁ ++ x :: m₂) r := by
  have hmem := h.not_mem_of_free hx
  have hxm : x ∉ DeferredPtr.deferredWithDelay :: (m₁ ++ m₂) := by
    simp only [List.mem_append, List.mem_cons] at hmem ⊢
    tauto
  have hprev : s.memory.links.prev y ∈ DeferredPtr.deferredWithDelay :: (m₁ ++ m₂) := by
    have hbefore := h.delayed.prev_mem
    rw [hy] at hbefore
    simp only [List.mem_append, List.mem_cons] at hbefore ⊢
    tauto
  -- its successor is in the queue of the deadlines, or is its head
  have hym : y ∈ DeferredPtr.deferredWithDelay :: (m₁ ++ m₂) := by
    rw [← hy]
    cases m₂ <;> simp
  have hinner : (x :: (m₁ ++ m₂)).Perm (m₁ ++ x :: m₂) := List.perm_middle.symm
  have hperm : (x :: (l ++ (m₁ ++ m₂ ++ r))).Perm (l ++ (m₁ ++ x :: m₂ ++ r)) :=
    List.perm_middle.symm.trans ((hinner.append_right r).append_left l)
  have hentries := fun p (hp : p ∈ l ++ (m₁ ++ x :: m₂ ++ r)) =>
    h.insert_actions y (some w) action hx hx' (List.mem_cons.mp (hperm.mem_iff.mpr hp))
  exact
    { deferred := by
        apply h.deferred.insertBefore_other
        · exact fun heq => hxm (heq ▸ hprev)
        · simp only [List.mem_append, List.mem_cons] at hmem ⊢
          tauto
        · exact fun hyl => h.disjoint hyl hym
        · exact fun hpl => h.disjoint hpl hprev
      delayed := h.delayed.insertBefore hxm hy
      nodup := hperm.nodup_iff.mp (List.nodup_cons.mpr ⟨hmem, h.nodup⟩)
      elements := fun p hp => (hentries p hp).1
      endOfTime := by
        show Function.update s.memory.when x w .deferredWithDelay = _
        rw [Function.update_of_ne hx'.2.symm]
        exact h.endOfTime
      actions := fun p hp => (hentries p hp).2
      deadlines := by
        intro p hp
        rcases List.mem_cons.mp (hinner.mem_iff.mpr hp) with rfl | hp
        · -- the new one has the deadline that it was enqueued with
          have hcall : (s.insert p y (some w) action).memory.call p = s.calls.length :=
            Function.update_self _ _ _
          have hwhen : (s.insert p y (some w) action).memory.when p = w :=
            Function.update_self _ _ _
          rw [hwhen, hcall]
          exact ⟨hw, ⟨some w, action⟩, getElem?_append_new _ _, rfl⟩
        · exact h.insert_deadline _ _ _ hx hp
      sorted := h.insert_sorted y action hx hw hbefore hafter
      readings := h.insert_readings _ _ _ fun w' hw' => Option.some.inj hw' ▸ hw
      once := h.insert_once _ _ _ hx
        (List.perm_middle.symm.trans (hinner.append_left l))
      immediate := fun p hp => h.insert_call _ _ _ hx (List.mem_append_left _ hp) (h.immediate p hp)
      fifo := by
        rw [h.insert_calls y (some w) action hx fun p hp => List.mem_append_left _ hp]
        exact h.fifo
      started := h.insert_started _ _ _ }

end Insert

/-- The loop ends at the first element with a later deadline, if it may take enough rounds. -/
theorem insertionPoint_spec {memory : DeferredMemory A} {w : Timespec} (hw : w.Reading)
    (hend : memory.when .deferredWithDelay = ⟨0, 0⟩) {m : List DeferredPtr} {a : DeferredPtr}
    (hchain : Chain memory.links a m .deferredWithDelay)
    (hreading : ∀ p ∈ m, (memory.when p).Reading) {n : Nat} (hn : m.length < n) :
    memory.insertionPoint w n (memory.links.next a) =
      some ((m.dropWhile fun p => (memory.when p).ns ≤ w.ns).headD .deferredWithDelay) := by
  induction m generalizing a n with
  | nil =>
      obtain ⟨n, rfl⟩ : ∃ k, n = k + 1 := ⟨n - 1, by simp at hn; omega⟩
      rw [hchain.1, DeferredMemory.insertionPoint, hend, timespecCompare_to_end hw]
      rfl
  | cons p m ih =>
      rw [List.length_cons] at hn
      obtain ⟨n, rfl⟩ : ∃ k, n = k + 1 := ⟨n - 1, by omega⟩
      have hp := hreading p List.mem_cons_self
      rw [hchain.1, DeferredMemory.insertionPoint]
      by_cases hle : (memory.when p).ns ≤ w.ns
      · rw [if_pos ((le_timespecCompare hw hp).mpr hle),
          ih hchain.2.2 (fun q hq => hreading q (List.mem_cons_of_mem p hq)) (by omega),
          List.dropWhile_cons_of_pos (by simpa using hle)]
      · rw [if_neg (fun h => hle ((le_timespecCompare hw hp).mp h)),
          List.dropWhile_cons_of_neg (by simpa using hle)]
        rfl

/-- From the first element with a later deadline on all deadlines are later. -/
theorem lt_of_mem_dropWhile {memory : DeferredMemory A} (w : Timespec) {m : List DeferredPtr}
    (h : m.Pairwise memory.Before) :
    ∀ p ∈ m.dropWhile fun p => (memory.when p).ns ≤ w.ns, w.ns < (memory.when p).ns := by
  induction m with
  | nil => simp
  | cons q m ih =>
      obtain ⟨hfirst, hrest⟩ := List.pairwise_cons.mp h
      by_cases hle : (memory.when q).ns ≤ w.ns
      · rw [List.dropWhile_cons_of_pos (by simpa using hle)]
        exact ih hrest
      · rw [List.dropWhile_cons_of_neg (by simpa using hle)]
        have hlt : w.ns < (memory.when q).ns := by omega
        intro p hp
        rcases List.mem_cons.mp hp with rfl | hp
        · exact hlt
        · rcases hfirst p hp with hns | ⟨heq, _⟩
          · omega
          · rw [← heq]
            exact hlt

/-- **What a call of `enqueue` does**: the loop ends, and the queues are as they should be. -/
theorem Queues.enqueue (h : Queues s l m r) {x : DeferredPtr}
    (hx : s.memory.allocated x = false) (hx' : x ≠ .deferred ∧ x ≠ .deferredWithDelay)
    (delay : UInt32) {now : Timespec} (hnow : now.Reading) (action : A) :
    ∃ s' l' m', s.enqueue x delay now action = some s' ∧ Queues s' l' m' r ∧
      s'.runningDeferred = s.runningDeferred ∧ (delay ≠ 0 → l' = l) := by
  unfold PthreadScheduler.enqueue
  by_cases hdelay : delay = 0
  · rw [if_pos hdelay]
    exact ⟨_, _, _, rfl, h.insert_immediate action hx hx', rfl, fun hne => absurd hdelay hne⟩
  · rw [if_neg hdelay]
    have hw := timespecAddUsec_reading hnow delay
    have hreading : ∀ p ∈ m, (s.memory.when p).Reading := fun p hp => (h.deadlines p hp).1
    have hlen : m.length < s.calls.length + 1 := by
      have honce := h.once.length_eq
      simp only [List.length_append, List.length_map, List.length_range] at honce
      omega
    have hpoint := insertionPoint_spec hw h.endOfTime h.delayed.1 hreading hlen
    simp only [hpoint, Option.bind_eq_bind, Option.bind_some, Option.pure_def]
    have hsplit := List.takeWhile_append_dropWhile
      (p := fun p => decide ((s.memory.when p).ns ≤ (timespecAddUsec now delay).ns)) (l := m)
    have hqueues := h
    rw [← hsplit] at hqueues
    refine ⟨_, _, _, rfl, hqueues.insert_delayed _ action hx hx' rfl hw ?_ ?_, rfl, fun _ => rfl⟩
    · intro p hp
      simpa using List.mem_takeWhile_imp hp
    · exact lt_of_mem_dropWhile _ h.sorted

/-! ## Running -/

/-- What `run_deferred` has come to: it runs an action, or both loops are over. `Done` is what
holds of the queue without delays once the first loop is over. -/
def Continues (Done : List DeferredPtr → Prop) (r : RunDeferred × PthreadScheduler A) : Prop :=
  match r.1 with
  | .action element loop => r.2.runningDeferred = true ∧
      (∀ now, loop = some now → now.Reading) ∧
      ∃ l m, Queues r.2 l m [element] ∧ (loop ≠ none → Done l)
  | .out => r.2.runningDeferred = false ∧ ∃ l m, Queues r.2 l m [] ∧ Done l

/-- The second loop never looks at the queue without delays. -/
theorem Queues.runDelayed (h : Queues s l m []) (hrun : s.runningDeferred = true)
    {now : Timespec} (hnow : now.Reading) : Continues (· = l) (s.runDelayed now) := by
  unfold PthreadScheduler.runDelayed
  simp only
  cases m with
  | nil =>
      rw [h.delayed.next_head, List.headD_nil, h.endOfTime, timespecCompare_end hnow]
      exact ⟨rfl, l, [], h.flags s.wakeup false, rfl⟩
  | cons x m =>
      rw [h.delayed.next_head_cons]
      by_cases hle : timespecCompare (s.memory.when x) now ≤ 0
      · rw [if_pos hle]
        have hreading : ∀ t, some now = some t → t.Reading := by
          intro t ht
          cases ht
          exact hnow
        exact ⟨hrun, hreading, l, m, h.runAction_delayed hle, fun _ => rfl⟩
      · rw [if_neg hle]
        exact ⟨rfl, l, x :: m, h.flags s.wakeup false, rfl⟩

/-- The first loop goes on until there is no action without a delay. -/
theorem Queues.runImmediate (h : Queues s l m []) (hrun : s.runningDeferred = true)
    {now : Timespec} (hnow : now.Reading) : Continues (· = []) (s.runImmediate now) := by
  unfold PthreadScheduler.runImmediate
  cases l with
  | nil =>
      have hempty : s.queueEmpty .deferred = true := h.queueEmpty_deferred.mpr rfl
      rw [hempty]
      by_cases hdelayed : s.queueEmpty .deferredWithDelay = true
      · rw [hdelayed]
        exact ⟨rfl, [], m, h.flags s.wakeup false, rfl⟩
      · rw [Bool.not_eq_true] at hdelayed
        rw [hdelayed]
        exact h.runDelayed hrun hnow
  | cons x l =>
      have hempty : s.queueEmpty .deferred = false := by
        rw [← Bool.not_eq_true, h.queueEmpty_deferred]
        simp
      rw [hempty, h.deferred.next_head_cons]
      have hreading : ∀ t : Timespec, none = some t → t.Reading := by
        intro t ht
        cases ht
      exact ⟨hrun, hreading, l, m, h.runAction_immediate, fun hne => absurd rfl hne⟩

theorem Queues.runDeferred (h : Queues s l m []) (hrun : s.runningDeferred = false)
    {now : Timespec} (hnow : now.Reading) : Continues (· = []) (s.runDeferred now) := by
  unfold PthreadScheduler.runDeferred
  rw [hrun]
  have hqueues := h.flags s.wakeup true
  exact hqueues.runImmediate rfl hnow

/-- After an action its loop goes on. -/
theorem Queues.actionDone {e : DeferredPtr} (h : Queues s l m [e])
    (hrun : s.runningDeferred = true) {loop : Option Timespec}
    (hloop : ∀ now, loop = some now → now.Reading) {now : Timespec} (hnow : now.Reading) :
    Continues (match loop with | none => (· = []) | some _ => (· = l))
      (s.actionDone e loop now) := by
  unfold PthreadScheduler.actionDone
  cases loop with
  | none => exact h.free.runImmediate hrun hnow
  | some started => exact h.free.runDelayed hrun (hloop started rfl)

end Queues

/-! ## Threads -/

/-- The element whose action a thread runs, and the loop it is in. -/
def ThreadState.runs : ThreadState → Option (DeferredPtr × Option Timespec)
  | .inAction _ element loop => some (element, loop)
  | _ => none

section System

variable {T A : Type} [DecidableEq T] {y y' : PthreadSystem T A}

/-- Nobody is in `run_deferred`, or one thread is, in an action. -/
def Runner (y : PthreadSystem T A) (r : List DeferredPtr) : Prop :=
  (y.scheduler.runningDeferred = false ∧ r = [] ∧ ∀ t, (y.thread t).runs = none) ∨
  (y.scheduler.runningDeferred = true ∧ ∃ t element loop, r = [element] ∧
    (∀ now, loop = some now → now.Reading) ∧ (y.thread t).runs = some (element, loop) ∧
    ∀ t', t' ≠ t → (y.thread t').runs = none)

/-- The invariant of a system. -/
def ThreadsInv (y : PthreadSystem T A) : Prop :=
  ∃ l m r, Queues y.scheduler l m r ∧ Runner y r

omit [DecidableEq T] in
/-- It depends on what the threads run, and not on where else they are. -/
theorem Runner.congr {r : List DeferredPtr} (h : Runner y r)
    (hflag : y'.scheduler.runningDeferred = y.scheduler.runningDeferred)
    (hruns : ∀ t, (y'.thread t).runs = (y.thread t).runs) : Runner y' r := by
  unfold Runner at h ⊢
  simp only [hflag, hruns]
  exact h

/-- A signal does not reach a thread in an action. -/
theorem CondSignal.runs {thread thread' : T → ThreadState} (h : CondSignal thread thread') (t : T) :
    (thread' t).runs = (thread t).runs := by
  cases h with
  | lost h => rfl
  | wakes t' time wakeup h =>
      by_cases heq : t = t'
      · rw [heq, Function.update_self, h]
        rfl
      · rw [Function.update_of_ne heq]

theorem update_runs {thread : T → ThreadState} {t : T} {state : ThreadState}
    (h : state.runs = (thread t).runs) (t' : T) :
    (Function.update thread t state t').runs = (thread t').runs := by
  by_cases heq : t' = t
  · rw [heq, Function.update_self, h]
  · rw [Function.update_of_ne heq]

/-- After `run_deferred` its caller is in no action, and at most the flag of `wakeup` is
different. -/
theorem proceed_out (caller : Caller) (now : Timespec) (s : PthreadScheduler A) :
    (proceed caller now (.out, s)).1.runs = none ∧
      ∃ wakeup, (proceed caller now (.out, s)).2 = { s with wakeup := wakeup } := by
  unfold proceed
  cases caller with
  | writerLock => exact ⟨rfl, s.wakeup, rfl⟩
  | writerUnlock => exact ⟨rfl, s.wakeup, rfl⟩
  | sleep time =>
      simp only
      split_ifs
      · exact ⟨rfl, false, rfl⟩
      · exact ⟨rfl, s.wakeup, rfl⟩

/-- A thread that is the only one in `run_deferred` goes on. -/
theorem threadsInv_goOn {Done : List DeferredPtr → Prop}
    {r : RunDeferred × PthreadScheduler A} (h : Continues Done r) (t : T)
    (hothers : ∀ t', t' ≠ t → (y.thread t').runs = none) (caller : Caller) (now : Timespec) :
    ThreadsInv (y.goOn t (proceed caller now r)) := by
  obtain ⟨point, s⟩ := r
  cases point with
  | action element loop =>
      obtain ⟨hrun, hreading, l, m, hqueues, _⟩ := h
      refine ⟨l, m, [element], hqueues, .inr ⟨hrun, t, element, loop, rfl, hreading, ?_, ?_⟩⟩
      · simp [PthreadSystem.goOn, proceed, ThreadState.runs]
      · intro t' hne
        simp only [PthreadSystem.goOn, Function.update_of_ne hne]
        exact hothers t' hne
  | out =>
      obtain ⟨hrun, l, m, hqueues, _⟩ := h
      obtain ⟨hruns, wakeup, heq⟩ := proceed_out caller now s
      refine ⟨l, m, [], ?_, .inl ⟨?_, rfl, ?_⟩⟩
      · simp only [PthreadSystem.goOn, heq]
        exact hqueues.flags wakeup s.runningDeferred
      · simp only [PthreadSystem.goOn, heq]
        exact hrun
      · intro t'
        simp only [PthreadSystem.goOn]
        by_cases hne : t' = t
        · rw [hne, Function.update_self]
          exact hruns
        · rw [Function.update_of_ne hne]
          exact hothers t' hne

omit [DecidableEq T] in
/-- An action comes to `run_deferred`, which returns at once. -/
theorem ThreadsInv.runDeferred_nested (h : ThreadsInv y) {t : T} {caller : Caller}
    {element : DeferredPtr} {loop : Option Timespec}
    (ht : y.thread t = .inAction caller element loop) (now : Timespec) :
    y.scheduler.runDeferred now = (.out, y.scheduler) := by
  have hruns : (y.thread t).runs = some (element, loop) := by rw [ht]; rfl
  obtain ⟨_, _, _, _, ⟨_, _, hnone⟩ | ⟨hrun, _⟩⟩ := h
  · rw [hnone t] at hruns
    cases hruns
  · unfold PthreadScheduler.runDeferred
    rw [hrun]
    rfl

omit [DecidableEq T] in
/-- It does not depend on who holds `writer_mutex`. -/
theorem ThreadsInv.congr (h : ThreadsInv y) (hscheduler : y'.scheduler = y.scheduler)
    (hthread : y'.thread = y.thread) : ThreadsInv y' := by
  obtain ⟨l, m, r, hqueues, hrunner⟩ := h
  refine ⟨l, m, r, hscheduler ▸ hqueues, hrunner.congr (by rw [hscheduler]) ?_⟩
  intro t
  rw [hthread]

/-- A thread comes to `run_deferred`. -/
theorem ThreadsInv.runDeferred (h : ThreadsInv y) {t : T} (ht : (y.thread t).runs = none)
    (caller : Caller) {now : Timespec} (hnow : now.Reading) (now' : Timespec) :
    ThreadsInv (y.goOn t (proceed caller now' (y.scheduler.runDeferred now))) := by
  obtain ⟨l, m, r, hqueues, hrunner⟩ := h
  rcases hrunner with ⟨hrun, rfl, hruns⟩ | hrunner
  · exact threadsInv_goOn (hqueues.runDeferred hrun hnow) t (fun t' _ => hruns t') caller now'
  · -- somebody else is in there: the thread goes on at once
    have hout : y.scheduler.runDeferred now = (.out, y.scheduler) := by
      unfold PthreadScheduler.runDeferred
      rw [hrunner.1]
      rfl
    obtain ⟨hruns, wakeup, heq⟩ := proceed_out caller now' y.scheduler
    rw [hout]
    refine ⟨l, m, r, ?_, Runner.congr (.inr hrunner) ?_ ?_⟩
    · simp only [PthreadSystem.goOn, heq]
      exact hqueues.flags wakeup y.scheduler.runningDeferred
    · simp only [PthreadSystem.goOn, heq]
    · exact update_runs (hruns.trans ht.symm)

/-- An action returns. -/
theorem ThreadsInv.actionDone (h : ThreadsInv y) {t : T} {caller : Caller} {element : DeferredPtr}
    {loop : Option Timespec} (ht : y.thread t = .inAction caller element loop) {now : Timespec}
    (hnow : now.Reading) (now' : Timespec) :
    ThreadsInv (y.goOn t (proceed caller now' (y.scheduler.actionDone element loop now))) := by
  obtain ⟨l, m, r, hqueues, hrunner⟩ := h
  have hruns : (y.thread t).runs = some (element, loop) := by rw [ht]; rfl
  rcases hrunner with ⟨_, _, hnone⟩ | ⟨hrun, t₀, element', loop', rfl, hreading, ht₀, hothers⟩
  · rw [hnone t] at hruns
    cases hruns
  · have heq : t = t₀ := by
      by_contra hne
      rw [hothers t hne] at hruns
      cases hruns
    rw [heq, ht₀] at hruns
    cases hruns
    rw [heq]
    exact threadsInv_goOn (hqueues.actionDone hrun hreading hnow) t₀ hothers caller now'

/-- A step keeps the invariant. -/
theorem PthreadStep.threadsInv {event : PthreadEvent} (hstep : PthreadStep y event y')
    (h : ThreadsInv y) : ThreadsInv y' := by
  cases hstep with
  | enqueue t address delay now action scheduler thread hcalls hfree hnow henqueue hsignal =>
      obtain ⟨l, m, r, hqueues, hrunner⟩ := h
      obtain ⟨s', l', m', hs', hqueues', hflag, _⟩ :=
        hqueues.enqueue hfree ⟨by simp, by simp⟩ delay hnow action
      rw [hs'] at henqueue
      cases henqueue
      exact ⟨l', m', r, hqueues', hrunner.congr hflag hsignal.runs⟩
  | wakeup t thread hcalls hsignal =>
      obtain ⟨l, m, r, hqueues, hrunner⟩ := h
      exact ⟨l, m, r, hqueues.flags true y.scheduler.runningDeferred,
        hrunner.congr rfl hsignal.runs⟩
  | sleep t time now now' hcalls hnow hnow' =>
      apply h.runDeferred _ _ hnow
      rw [hcalls]
      rfl
  | awake t time now now' hawake hnow hnow' =>
      apply h.runDeferred _ _ hnow
      rw [hawake]
      rfl
  | interrupt t time wakeup hwaits =>
      obtain ⟨l, m, r, hqueues, hrunner⟩ := h
      refine ⟨l, m, r, hqueues, hrunner.congr rfl (update_runs ?_)⟩
      rw [hwaits]
      rfl
  | actionDone t caller element loop now now' haction hnow hnow' =>
      exact h.actionDone haction hnow now'
  | writerLock t now now' hcalls hnow hnow' =>
      apply h.runDeferred _ _ hnow
      rw [hcalls]
      rfl
  | takeWriter t hwriter hfree =>
      obtain ⟨l, m, r, hqueues, hrunner⟩ := h
      refine ⟨l, m, r, hqueues, hrunner.congr rfl (update_runs ?_)⟩
      rw [hwriter]
      rfl
  | giveWriter t hcalls hwriter =>
      obtain ⟨l, m, r, hqueues, hrunner⟩ := h
      refine ⟨l, m, r, hqueues, hrunner.congr rfl (update_runs ?_)⟩
      rw [hcalls]
      rfl
  | writerUnlock t now now' hunlocked hnow hnow' =>
      apply h.runDeferred _ _ hnow
      rw [hunlocked]
      rfl
  | actionWriterLock t caller element loop now haction hnow hfree =>
      -- `run_deferred` returns at once to a thread that runs an action
      refine h.congr ?_ rfl
      simp only [h.runDeferred_nested haction]
  | actionWriterUnlock t caller element loop now haction hnow hwriter =>
      refine h.congr ?_ rfl
      simp only [h.runDeferred_nested haction]

/-- It holds of all systems that are reached. -/
theorem PthreadReachable.threadsInv {Allowed : PthreadSystem T A → PthreadEvent → Prop}
    (h : PthreadReachable Allowed y) : ThreadsInv y := by
  induction h with
  | new memory => exact ⟨[], [], [], queues_new memory, .inl ⟨rfl, rfl, fun _ => rfl⟩⟩
  | step h hallowed hstep ih => exact hstep.threadsInv ih

/-! ## The queues of a system that is reached -/

/-- What the queues are to be, where their elements are `l` and `m`. -/
structure ConsistentQueues {A : Type} (s : PthreadScheduler A) (l m : List DeferredPtr) : Prop where
  /-- Both are linked in both directions, and no element is in them twice. -/
  linked : Ring s.memory.links .deferred l ∧ Ring s.memory.links .deferredWithDelay m ∧
    (l ++ m).Nodup ∧ ∀ p ∈ l ++ m, s.memory.allocated p = true
  /-- Each element is that of its call. -/
  calls : (∀ p ∈ l, ∃ c, s.calls[s.memory.call p]? = some c ∧ c.deadline = none ∧
      s.memory.action p = some c.action) ∧
    ∀ p ∈ m, ∃ c, s.calls[s.memory.call p]? = some c ∧ c.deadline = some (s.memory.when p) ∧
      s.memory.action p = some c.action
  /-- By the deadline, and where that is the same, by the call. -/
  sorted : m.Pairwise fun p q => timespecCompare (s.memory.when p) (s.memory.when q) < 0 ∨
    (s.memory.when p = s.memory.when q ∧ s.memory.call p < s.memory.call q)
  /-- The head of the second queue is later than any deadline and any reading. -/
  endOfTime : ∀ t : Timespec, t.Reading →
    timespecCompare (s.memory.when .deferredWithDelay) t = 1
  /-- All deadlines that were ever stored have their form. -/
  nanoseconds : ∀ c ∈ s.calls, ∀ w, c.deadline = some w → w.Reading
  /-- Each call is in a queue or has been started, and not twice. -/
  once : (s.starts.map Start.call ++ (l ++ m).map s.memory.call).Perm
    (List.range s.calls.length)
  /-- Those without a delay are started in the order of the calls, and before those that are
  still in the queue. -/
  fifo : ((s.starts.filter fun st => st.now = none).map Start.call ++
    l.map s.memory.call).Pairwise (· < ·)
  /-- The first loop starts those without a delay, and the second those with a delay whose
  deadline the reading of the clock has reached. -/
  started : ∀ st ∈ s.starts, ∃ c, s.calls[st.call]? = some c ∧
    match st.now with
      | none => c.deadline = none
      | some now => ∃ when, c.deadline = some when ∧ timespecCompare when now ≤ 0

theorem Queues.consistent {s : PthreadScheduler A} {l m r : List DeferredPtr}
    (h : Queues s l m r) : ConsistentQueues s l m where
  linked := by
    have hnd := h.nodup
    rw [← List.append_assoc, List.nodup_append] at hnd
    refine ⟨h.deferred, h.delayed, hnd.1, ?_⟩
    intro p hp
    apply (h.elements p _).1
    rw [← List.append_assoc]
    exact List.mem_append_left r hp
  calls := by
    constructor
    · intro p hp
      obtain ⟨c, hc, hnone⟩ := h.immediate p hp
      obtain ⟨c', hc', haction⟩ := h.actions p (List.mem_append_left _ hp)
      rw [hc] at hc'
      cases hc'
      exact ⟨c, hc, hnone, haction⟩
    · intro p hp
      obtain ⟨_, c, hc, hdeadline⟩ := h.deadlines p hp
      obtain ⟨c', hc', haction⟩ :=
        h.actions p (List.mem_append_right l (List.mem_append_left r hp))
      rw [hc] at hc'
      cases hc'
      exact ⟨c, hc, hdeadline, haction⟩
  sorted := by
    -- of readings the comparison of `timespec` is that of the nanoseconds
    refine h.sorted.imp_of_mem ?_
    intro p q hp hq hbefore
    rcases hbefore with hlt | heq
    · exact .inl ((timespecCompare_neg (h.deadlines p hp).1 (h.deadlines q hq).1).mpr hlt)
    · exact .inr heq
  endOfTime := by
    intro t ht
    rw [h.endOfTime]
    exact timespecCompare_end ht
  nanoseconds := h.readings
  once := h.once
  fifo := h.fifo
  started := h.started

/-- **In every system that is reached the queues are consistent**, and the next call of `enqueue`
ends, whatever it is. -/
theorem scheduler_queues (h : PthreadReachable (fun _ _ => True) y) :
    (∃ l m, ConsistentQueues y.scheduler l m) ∧
      ∀ (address : Nat) (delay : UInt32) (now : Timespec) (action : A),
        y.scheduler.memory.allocated (.element address) = false → now.Reading →
        (y.scheduler.enqueue (.element address) delay now action).isSome := by
  obtain ⟨l, m, r, hqueues, _⟩ := h.threadsInv
  refine ⟨⟨l, m, hqueues.consistent⟩, ?_⟩
  intro address delay now action hfree hnow
  obtain ⟨s', _, _, hs', _⟩ := hqueues.enqueue hfree ⟨by simp, by simp⟩ delay hnow action
  rw [hs']
  rfl

end System

/-- Some memory. -/
def blankMemory : DeferredMemory Unit :=
  ⟨⟨fun _ => .deferred, fun _ => .deferred⟩, fun _ => ⟨0, 0⟩, fun _ => none, fun _ => false,
    fun _ => 0⟩

/-- Two calls with a delay, the later one with the earlier deadline, and one without. -/
def queuedScheduler : PthreadScheduler Unit :=
  (((PthreadScheduler.new blankMemory).insert (.element 0) .deferredWithDelay
    (some ⟨7, 5000⟩) ()).insert (.element 1) .deferred none ()).insert (.element 2) (.element 0)
      (some ⟨7, 3000⟩) ()

theorem queuedScheduler_reachable : PthreadReachable (fun _ _ => True)
    { (PthreadSystem.new blankMemory : PthreadSystem Unit Unit) with
      scheduler := queuedScheduler } := by
  let y : PthreadSystem Unit Unit := PthreadSystem.new blankMemory
  let s₁ := y.scheduler.insert (.element 0) .deferredWithDelay (some ⟨7, 5000⟩) ()
  let s₂ := s₁.insert (.element 1) .deferred none ()
  have hreading : ∀ nsec < 1000000000, (⟨7, nsec⟩ : Timespec).Reading := by
    intro nsec hlt
    exact ⟨by simp, hlt⟩
  have hfirst : PthreadStep y (.enqueue 5) { y with scheduler := s₁ } :=
    .enqueue y () 0 5 ⟨7, 0⟩ () s₁ y.thread trivial rfl (hreading 0 (by decide)) rfl
      (.lost fun _ => id)
  have hsecond : PthreadStep { y with scheduler := s₁ } (.enqueue 0)
      { y with scheduler := s₂ } :=
    .enqueue _ () 1 0 ⟨7, 0⟩ () s₂ y.thread trivial rfl (hreading 0 (by decide)) rfl
      (.lost fun _ => id)
  have hthird : PthreadStep { y with scheduler := s₂ } (.enqueue 2)
      { y with scheduler := queuedScheduler } :=
    .enqueue _ () 2 2 ⟨7, 1000⟩ () queuedScheduler y.thread trivial (by decide +kernel)
      (hreading 1000 (by decide)) rfl (.lost fun _ => id)
  exact .step (.step (.step (.new blankMemory) trivial hfirst) trivial hsecond) trivial hthird

/-- Both queues have elements, and another call of `enqueue` comes to its end. -/
theorem scheduler_queues_delayed :
    queuedScheduler.queueEmpty .deferred = false ∧
      queuedScheduler.memory.links.next .deferredWithDelay = .element 2 ∧
      queuedScheduler.memory.links.next (.element 2) = .element 0 ∧
      (∃ l m, ConsistentQueues queuedScheduler l m) ∧
      (queuedScheduler.enqueue (.element 3) 3 ⟨7, 2000⟩ ()).isSome := by
  obtain ⟨hqueues, hends⟩ := scheduler_queues queuedScheduler_reachable
  refine ⟨by decide +kernel, by decide +kernel, by decide +kernel, hqueues, ?_⟩
  exact hends 3 3 ⟨7, 2000⟩ () (by decide +kernel) ⟨by simp, by decide⟩

end LabComm.C
