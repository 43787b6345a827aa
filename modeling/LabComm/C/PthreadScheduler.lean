import LabComm.Library.LinkedRing

set_option autoImplicit false

/-! # The pthread scheduler

`labcomm2014_pthread_scheduler.c`. Actions are put off in two rings of elements, one of those
without a delay and one of those with a delay, and run by the threads that sleep or that lock and
unlock the writer, one thread at a time and with the lock of the data given back for each action.

What a thread does while it holds `data_mutex` is one step of the system, up to the next action,
wait or return. An element gets its memory in the step that enqueues it, wherever there is some,
and gives it back in the step after its action. An action may enqueue, wake up, and lock and
unlock the writer; it does not sleep.
-/

namespace LabComm.C

open Library

/-! ## Time -/

/-- `struct timespec`, of a clock that counts from the epoch on: its readings have
`tv_sec >= 0`. -/
structure Timespec where
  tv_sec : Nat
  tv_nsec : Nat
  deriving DecidableEq

/-- `timespec_add_usec` -/
def timespecAddUsec (t : Timespec) (usec : UInt32) : Timespec :=
  let sec := usec.toNat / 1000000
  let nsec := usec.toNat % 1000000 * 1000
  let tv_nsec := t.tv_nsec + nsec
  ⟨t.tv_sec + sec + tv_nsec / 1000000000, tv_nsec % 1000000000⟩

/-- `timespec_compare` -/
def timespecCompare (t1 t2 : Timespec) : Int :=
  if t1.tv_sec = t2.tv_sec ∧ t1.tv_nsec = t2.tv_nsec then 0
  else if t1.tv_sec = 0 ∧ t1.tv_nsec = 0 then 1
  else if t2.tv_sec = 0 ∧ t2.tv_nsec = 0 then -1
  else if t1.tv_sec < t2.tv_sec then -1
  else if t1.tv_sec = t2.tv_sec then
    if t1.tv_nsec < t2.tv_nsec then -1
    else if t1.tv_nsec = t2.tv_nsec then 0
    else 1
  else 1

/-! ## The data -/

/-- A `struct pthread_deferred *`: one of the two that are part of the scheduler, or an element
at some address. -/
inductive DeferredPtr where
  | deferred
  | deferredWithDelay
  | element (address : Nat)
  deriving DecidableEq

/-- What `next`, `prev`, `when` and `action` are at each pointer, and which elements have their
memory; `call` is the number of the call of `enqueue` that the element is from. -/
structure DeferredMemory (A : Type) where
  links : Links DeferredPtr
  when : DeferredPtr → Timespec
  action : DeferredPtr → Option A
  allocated : DeferredPtr → Bool
  call : DeferredPtr → Nat

/-- A call of `enqueue`, with the deadline that was computed for it, if it has a delay. -/
structure EnqueueCall (A : Type) where
  deadline : Option Timespec
  action : A

/-- The start of an action: the number of its call and, in the loop over the actions with a delay,
the reading of the clock that the loop goes by. -/
structure Start where
  call : Nat
  now : Option Timespec
  deriving DecidableEq

/-- `struct pthread_scheduler` without its locks, and what has happened so far. -/
structure PthreadScheduler (A : Type) where
  memory : DeferredMemory A
  wakeup : Bool
  runningDeferred : Bool
  calls : List (EnqueueCall A)
  starts : List Start

/-- `labcomm2014_pthread_scheduler_new`; `memory` is what was in the memory before. -/
def PthreadScheduler.new {A : Type} (memory : DeferredMemory A) : PthreadScheduler A where
  memory :=
    { memory with
      links := (((memory.links.setNext .deferred .deferred).setPrev .deferred .deferred).setNext
        .deferredWithDelay .deferredWithDelay).setPrev .deferredWithDelay .deferredWithDelay
      when := Function.update memory.when .deferredWithDelay ⟨0, 0⟩
      allocated := fun _ => false }
  wakeup := false
  runningDeferred := false
  calls := []
  starts := []

section Scheduler

variable {A : Type} (s : PthreadScheduler A)

/-- `queue_empty` -/
def PthreadScheduler.queueEmpty (queue : DeferredPtr) : Bool := s.memory.links.next queue = queue

/-! ## Running -/

/-- `run_action` up to the call of the action; `now` is what the loop goes by. -/
def PthreadScheduler.runAction (element : DeferredPtr) (now : Option Timespec) :
    PthreadScheduler A :=
  { s with
    memory := { s.memory with links := s.memory.links.unlink element }
    starts := s.starts ++ [⟨s.memory.call element, now⟩] }

/-- What `run_deferred` has come to: an action that it runs, without the lock, or its end. -/
inductive RunDeferred where
  | action (element : DeferredPtr) (now : Option Timespec)
  | out

/-- The loop over the actions with a delay, up to the next action. -/
def PthreadScheduler.runDelayed (now : Timespec) : RunDeferred × PthreadScheduler A :=
  let next := s.memory.links.next .deferredWithDelay
  if timespecCompare (s.memory.when next) now ≤ 0 then
    (.action next (some now), s.runAction next (some now))
  else
    (.out, { s with runningDeferred := false })

/-- The loop over the actions without a delay, up to the next action, and what follows. -/
def PthreadScheduler.runImmediate (now : Timespec) : RunDeferred × PthreadScheduler A :=
  if !s.queueEmpty .deferred then
    let next := s.memory.links.next .deferred
    (.action next none, s.runAction next none)
  else if !s.queueEmpty .deferredWithDelay then
    s.runDelayed now
  else
    (.out, { s with runningDeferred := false })

/-- `run_deferred` up to the first action; `now` is what the clock shows if it is asked. -/
def PthreadScheduler.runDeferred (now : Timespec) : RunDeferred × PthreadScheduler A :=
  if s.runningDeferred then (.out, s) else { s with runningDeferred := true }.runImmediate now

/-- The end of `run_action` and the loop from there. -/
def PthreadScheduler.actionDone (element : DeferredPtr) (loop : Option Timespec)
    (now : Timespec) : RunDeferred × PthreadScheduler A :=
  let s := { s with memory :=
    { s.memory with allocated := Function.update s.memory.allocated element false } }
  match loop with
  | none => s.runImmediate now
  | some started => s.runDelayed started

/-! ## Enqueueing -/

/-- The loop that looks for the first element with a later deadline. The number of rounds it may
take is given; `none` is no end. -/
def DeferredMemory.insertionPoint (memory : DeferredMemory A) (when : Timespec) :
    Nat → DeferredPtr → Option DeferredPtr
  | 0, _ => none
  | n + 1, insertBefore =>
      if 0 ≤ timespecCompare when (memory.when insertBefore) then
        memory.insertionPoint when n (memory.links.next insertBefore)
      else
        some insertBefore

/-- An element is filled in and linked. -/
def PthreadScheduler.insert (element insertBefore : DeferredPtr) (deadline : Option Timespec)
    (action : A) : PthreadScheduler A :=
  { s with
    memory :=
      { links := s.memory.links.insertBefore element insertBefore
        when := match deadline with
          | none => s.memory.when
          | some when => Function.update s.memory.when element when
        action := Function.update s.memory.action element (some action)
        allocated := Function.update s.memory.allocated element true
        call := Function.update s.memory.call element s.calls.length }
    calls := s.calls ++ [⟨deadline, action⟩] }

/-- `scheduler_enqueue` of an element that has memory, up to the signal. A ring has at most as
many elements as there have been calls. -/
def PthreadScheduler.enqueue (element : DeferredPtr) (delay : UInt32) (now : Timespec)
    (action : A) : Option (PthreadScheduler A) :=
  if delay = 0 then
    some (s.insert element .deferred none action)
  else do
    let when := timespecAddUsec now delay
    let insertBefore ← s.memory.insertionPoint when (s.calls.length + 1)
      (s.memory.links.next .deferredWithDelay)
    pure (s.insert element insertBefore (some when) action)

end Scheduler

/-! ## Threads -/

/-- Who has called `run_deferred`; a sleep may have a time at which it ends. -/
inductive Caller where
  | sleep (time : Option Timespec)
  | writerLock
  | writerUnlock
  deriving DecidableEq

/-- Where a thread is while it does not hold `data_mutex`. -/
inductive ThreadState where
  /-- In none of the functions. -/
  | outside
  /-- In an action that it runs. -/
  | inAction (caller : Caller) (element : DeferredPtr) (loop : Option Timespec)
  /-- In `pthread_cond_wait`, or in `pthread_cond_timedwait` up to some time. -/
  | waiting (time : Option Timespec) (wakeup : Option Timespec)
  /-- Out of the wait, but without the lock. -/
  | awake (time : Option Timespec)
  /-- In `writer_lock`, where it waits for `writer_mutex`. -/
  | atWriter
  /-- In `writer_unlock`, after it gave `writer_mutex` back. -/
  | unlocked
  deriving DecidableEq

/-- The scheduler, the thread that holds `writer_mutex`, and all threads. -/
structure PthreadSystem (T A : Type) where
  scheduler : PthreadScheduler A
  writer : Option T
  thread : T → ThreadState

/-- The time up to which a thread waits. -/
def PthreadScheduler.wakeupTime {A : Type} (s : PthreadScheduler A) (time : Option Timespec) :
    Option Timespec :=
  if !s.queueEmpty .deferredWithDelay then
    let when := s.memory.when (s.memory.links.next .deferredWithDelay)
    match time with
    | some abstime => if timespecCompare abstime when < 0 then some abstime else some when
    | none => some when
  else
    time

/-- How its caller goes on when `run_deferred` has come to some point, up to the next action, wait
or return; `now` is what the clock shows after `run_deferred`. -/
def proceed {A : Type} (caller : Caller) (now : Timespec)
    (r : RunDeferred × PthreadScheduler A) : ThreadState × PthreadScheduler A :=
  match r.1 with
  | .action element loop => (.inAction caller element loop, r.2)
  | .out =>
      match caller with
      | .writerLock => (.atWriter, r.2)
      | .writerUnlock => (.outside, r.2)
      | .sleep time =>
          let reached := match time with
            | some abstime => timespecCompare abstime now ≤ 0
            | none => false
          if r.2.wakeup || reached then
            (.outside, { r.2 with wakeup := false })
          else
            (.waiting time (r.2.wakeupTime time), r.2)

/-- A thread that is outside or in an action: those call `enqueue` and `wakeup`. -/
def ThreadState.Calls : ThreadState → Prop
  | .outside => True
  | .inAction .. => True
  | _ => False

/-- The thread is blocked on `data_cond`. -/
def ThreadState.Waits : ThreadState → Prop
  | .waiting .. => True
  | _ => False

section System

variable {T A : Type} [DecidableEq T]

/-- `pthread_cond_signal` on `data_cond`: one of the threads that are blocked goes on, if there
are any. More may go on, as they may at any time (`PthreadStep.interrupt`). -/
inductive CondSignal (thread : T → ThreadState) : (T → ThreadState) → Prop where
  | lost (h : ∀ t, ¬ (thread t).Waits) : CondSignal thread thread
  | wakes (t : T) (time wakeup : Option Timespec) (h : thread t = .waiting time wakeup) :
      CondSignal thread (Function.update thread t (.awake time))

/-- A reading of the clock. -/
def Timespec.Reading (t : Timespec) : Prop := t ≠ ⟨0, 0⟩ ∧ t.tv_nsec < 1000000000

/-- What a step does. -/
inductive PthreadEvent where
  | enqueue (delay : UInt32)
  | other
  deriving DecidableEq

/-- Thread `t` goes on with `run_deferred` or after it. -/
def PthreadSystem.goOn (y : PthreadSystem T A) (t : T) (r : ThreadState × PthreadScheduler A) :
    PthreadSystem T A :=
  { y with scheduler := r.2, thread := Function.update y.thread t r.1 }

/-- The steps of the threads. -/
inductive PthreadStep : PthreadSystem T A → PthreadEvent → PthreadSystem T A → Prop where
  /-- `scheduler_enqueue`, from outside or from an action. -/
  | enqueue (y : PthreadSystem T A) (t : T) (address : Nat) (delay : UInt32) (now : Timespec)
      (action : A) (scheduler : PthreadScheduler A) (thread : T → ThreadState)
      (hcalls : (y.thread t).Calls)
      (hfree : y.scheduler.memory.allocated (.element address) = false) (hnow : now.Reading)
      (henqueue : y.scheduler.enqueue (.element address) delay now action = some scheduler)
      (hsignal : CondSignal y.thread thread) :
      PthreadStep y (.enqueue delay) { y with scheduler := scheduler, thread := thread }
  /-- `scheduler_wakeup`, from outside or from an action. -/
  | wakeup (y : PthreadSystem T A) (t : T) (thread : T → ThreadState)
      (hcalls : (y.thread t).Calls) (hsignal : CondSignal y.thread thread) :
      PthreadStep y .other
        { y with scheduler := { y.scheduler with wakeup := true }, thread := thread }
  /-- `scheduler_sleep` up to the first action or wait. -/
  | sleep (y : PthreadSystem T A) (t : T) (time : Option Timespec) (now now' : Timespec)
      (hcalls : y.thread t = .outside) (hnow : now.Reading) (hnow' : now'.Reading) :
      PthreadStep y .other
        (y.goOn t (proceed (.sleep time) now' (y.scheduler.runDeferred now)))
  /-- A thread that is out of the wait gets the lock, and repeats the loop of
  `scheduler_sleep`. -/
  | awake (y : PthreadSystem T A) (t : T) (time : Option Timespec) (now now' : Timespec)
      (hawake : y.thread t = .awake time) (hnow : now.Reading) (hnow' : now'.Reading) :
      PthreadStep y .other
        (y.goOn t (proceed (.sleep time) now' (y.scheduler.runDeferred now)))
  /-- A wait ends without a signal, at its time or not. -/
  | interrupt (y : PthreadSystem T A) (t : T) (time wakeup : Option Timespec)
      (hwaits : y.thread t = .waiting time wakeup) :
      PthreadStep y .other { y with thread := Function.update y.thread t (.awake time) }
  /-- An action returns. -/
  | actionDone (y : PthreadSystem T A) (t : T) (caller : Caller) (element : DeferredPtr)
      (loop : Option Timespec) (now now' : Timespec)
      (haction : y.thread t = .inAction caller element loop) (hnow : now.Reading)
      (hnow' : now'.Reading) :
      PthreadStep y .other
        (y.goOn t (proceed caller now' (y.scheduler.actionDone element loop now)))
  /-- `scheduler_writer_lock` up to the first action or the wait for `writer_mutex`. -/
  | writerLock (y : PthreadSystem T A) (t : T) (now now' : Timespec)
      (hcalls : y.thread t = .outside) (hnow : now.Reading) (hnow' : now'.Reading) :
      PthreadStep y .other
        (y.goOn t (proceed .writerLock now' (y.scheduler.runDeferred now)))
  /-- `writer_mutex` is taken. -/
  | takeWriter (y : PthreadSystem T A) (t : T) (hwriter : y.thread t = .atWriter)
      (hfree : y.writer = none) :
      PthreadStep y .other
        { y with writer := some t, thread := Function.update y.thread t .outside }
  /-- `scheduler_writer_unlock` up to the lock of the data. -/
  | giveWriter (y : PthreadSystem T A) (t : T) (hcalls : y.thread t = .outside)
      (hwriter : y.writer = some t) :
      PthreadStep y .other
        { y with writer := none, thread := Function.update y.thread t .unlocked }
  /-- The rest of it, up to the first action or the return. -/
  | writerUnlock (y : PthreadSystem T A) (t : T) (now now' : Timespec)
      (hunlocked : y.thread t = .unlocked) (hnow : now.Reading) (hnow' : now'.Reading) :
      PthreadStep y .other
        (y.goOn t (proceed .writerUnlock now' (y.scheduler.runDeferred now)))
  /-- `scheduler_writer_lock` from an action. The call of `run_deferred` in it returns at once
  (`ThreadsInv.runDeferred_nested`), so that the wait for `writer_mutex` is all there is to it. -/
  | actionWriterLock (y : PthreadSystem T A) (t : T) (caller : Caller) (element : DeferredPtr)
      (loop : Option Timespec) (now : Timespec)
      (haction : y.thread t = .inAction caller element loop) (hnow : now.Reading)
      (hfree : y.writer = none) :
      PthreadStep y .other
        { y with scheduler := (y.scheduler.runDeferred now).2, writer := some t }
  /-- `scheduler_writer_unlock` from an action, with the same call in it. -/
  | actionWriterUnlock (y : PthreadSystem T A) (t : T) (caller : Caller) (element : DeferredPtr)
      (loop : Option Timespec) (now : Timespec)
      (haction : y.thread t = .inAction caller element loop) (hnow : now.Reading)
      (hwriter : y.writer = some t) :
      PthreadStep y .other
        { y with scheduler := (y.scheduler.runDeferred now).2, writer := none }

/-- A new scheduler, and no thread in any function. -/
def PthreadSystem.new (memory : DeferredMemory A) : PthreadSystem T A :=
  ⟨PthreadScheduler.new memory, none, fun _ => .outside⟩

/-- The systems that are reached by steps that are allowed. -/
inductive PthreadReachable (Allowed : PthreadSystem T A → PthreadEvent → Prop) :
    PthreadSystem T A → Prop where
  | new (memory : DeferredMemory A) : PthreadReachable Allowed (PthreadSystem.new memory)
  | step {y y' : PthreadSystem T A} {event : PthreadEvent} (h : PthreadReachable Allowed y)
      (hallowed : Allowed y event) (hstep : PthreadStep y event y') :
      PthreadReachable Allowed y'

end System

end LabComm.C
