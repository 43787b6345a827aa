import Mathlib.Data.Finset.Basic
import Mathlib.Data.Fintype.Basic
import Mathlib.Tactic

set_option autoImplicit false

/-! # Threads that share mutexes

The code of a thread is what it has still to do: locks and unlocks of mutexes, and actions, which
change the shared state and are replaced by more code. A contract says which mutexes an action needs
to be held, and which are held when its code is done.

Where actions keep to their contracts and new code is bracketed (`Contract.Brackets`), no thread asks
for a mutex that it holds (`Coherent.notHeld`).
-/

namespace LabComm.Library

variable {T M A S E : Type}

/-! ## Systems -/

/-- An instruction. -/
inductive Instr (M A : Type) where
  | lock (m : M)
  | unlock (m : M)
  | act (a : A)
  deriving DecidableEq

/-- What each thread has still to do, who holds each mutex, and what is shared. -/
structure Threads (T M A S : Type) where
  code : T → List (Instr M A)
  owner : M → Option T
  shared : S

/-- The code of actions: what they are replaced by, from a shared state and with the choices of an
event, if they go on at all; and what a thread does that has nothing left to do. -/
structure ThreadProgram (M A S E : Type) where
  perform : E → A → S → Option (List (Instr M A) × S)
  start : E → List (Instr M A)

/-- Nobody does anything. -/
def Threads.idle (s : S) : Threads T M A S := ⟨fun _ => [], fun _ => none, s⟩

section Step

variable [DecidableEq T] [DecidableEq M]

/-- The thread goes on with other code. -/
def Threads.goOn (y : Threads T M A S) (t : T) (code : List (Instr M A)) : Threads T M A S :=
  { y with code := Function.update y.code t code }

/-- One step of a thread; a thread waits for a mutex that is held. -/
def Threads.step (P : ThreadProgram M A S E) (y : Threads T M A S) (t : T) (e : E) :
    Option (Threads T M A S) :=
  match y.code t with
  | [] => some (y.goOn t (P.start e))
  | .lock m :: is =>
      if y.owner m = none then
        some { y.goOn t is with owner := Function.update y.owner m (some t) }
      else none
  | .unlock m :: is =>
      if y.owner m = some t then
        some { y.goOn t is with owner := Function.update y.owner m none }
      else none
  | .act a :: is => (P.perform e a y.shared).map fun p =>
      { y.goOn t (p.1 ++ is) with shared := p.2 }

section Equations

variable {P : ThreadProgram M A S E} {y : Threads T M A S} {t : T} {e : E} {is : List (Instr M A)}

theorem step_nil (h : y.code t = []) : y.step P t e = some (y.goOn t (P.start e)) := by
  unfold Threads.step
  rw [h]

theorem step_lock {m : M} (h : y.code t = .lock m :: is) : y.step P t e =
    if y.owner m = none then
      some { y.goOn t is with owner := Function.update y.owner m (some t) }
    else none := by
  unfold Threads.step
  rw [h]

theorem step_unlock {m : M} (h : y.code t = .unlock m :: is) : y.step P t e =
    if y.owner m = some t then
      some { y.goOn t is with owner := Function.update y.owner m none }
    else none := by
  unfold Threads.step
  rw [h]

theorem step_act {a : A} (h : y.code t = .act a :: is) : y.step P t e =
    (P.perform e a y.shared).map fun p => { y.goOn t (p.1 ++ is) with shared := p.2 } := by
  unfold Threads.step
  rw [h]

end Equations

/-- The state a run ends in, if every step can be taken. -/
def Threads.run (P : ThreadProgram M A S E) :
    List (T × E) → Threads T M A S → Option (Threads T M A S)
  | [], y => some y
  | (t, e) :: es, y => (y.step P t e).bind (Threads.run P es)

/-- A property holds in every state of a run. -/
def Always (P : ThreadProgram M A S E) (I : Threads T M A S → Prop) :
    List (T × E) → Threads T M A S → Prop
  | [], y => I y
  | (t, e) :: es, y => I y ∧ ∀ y', y.step P t e = some y' → Always P I es y'

/-- What always holds, holds in the end. -/
theorem Always.run {P : ThreadProgram M A S E} {I : Threads T M A S → Prop} {es : List (T × E)}
    {y y' : Threads T M A S} (h : Always P I es y) (hrun : y.run P es = some y') : I y' := by
  induction es generalizing y with
  | nil =>
      cases hrun
      exact h
  | cons p es ih =>
      obtain ⟨t, e⟩ := p
      obtain ⟨y₁, hstep, hrest⟩ := Option.bind_eq_some_iff.mp hrun
      exact ih (h.2 y₁ hstep) hrest

/-- No step of a run is one of the given kind. -/
def Avoids (P : ThreadProgram M A S E) (Q : Threads T M A S → T → E → Prop) :
    List (T × E) → Threads T M A S → Prop
  | [], _ => True
  | (t, e) :: es, y => ¬ Q y t e ∧ ∀ y', y.step P t e = some y' → Avoids P Q es y'

/-- The next thing a thread does is to ask for a mutex that it does not hold. -/
def AsksForOthers (y : Threads T M A S) : Prop :=
  ∀ t m is, y.code t = .lock m :: is → y.owner m ≠ some t

end Step

/-! ## Contracts -/

/-- Which mutexes an action needs to be held, and which are held in the end. -/
structure Contract (M A : Type) where
  needs : A → Finset M → Prop
  leaves : A → Finset M → Finset M

section Brackets

variable [DecidableEq M] {C : Contract M A} {held held' : Finset M} {is js : List (Instr M A)}

/-- The code starts with some mutexes held and ends with others, and in between asks only for what
is not held and gives back only what is. -/
def Contract.Brackets (C : Contract M A) : Finset M → List (Instr M A) → Finset M → Prop
  | held, [], held' => held = held'
  | held, .lock m :: is, held' => m ∉ held ∧ C.Brackets (insert m held) is held'
  | held, .unlock m :: is, held' => m ∈ held ∧ C.Brackets (held.erase m) is held'
  | held, .act a :: is, held' => C.needs a held ∧ C.Brackets (C.leaves a held) is held'

/-- **Sequencing.** -/
theorem Contract.Brackets.append {held'' : Finset M} (his : C.Brackets held is held')
    (hjs : C.Brackets held' js held'') : C.Brackets held (is ++ js) held'' := by
  induction is generalizing held with
  | nil =>
      cases his
      exact hjs
  | cons i is ih =>
      cases i with
      | lock m => exact ⟨his.1, ih his.2⟩
      | unlock m => exact ⟨his.1, ih his.2⟩
      | act a => exact ⟨his.1, ih his.2⟩

theorem Contract.Brackets.flatMap {α : Type} {f : α → List (Instr M A)}
    (h : ∀ x, C.Brackets held (f x) held) (l : List α) : C.Brackets held (l.flatMap f) held := by
  induction l with
  | nil => rfl
  | cons x l ih =>
      rw [List.flatMap_cons]
      exact (h x).append ih

end Brackets

section Coherent

variable [DecidableEq T] [DecidableEq M] [Fintype M] {C : Contract M A} {P : ThreadProgram M A S E}
  {y y' : Threads T M A S} {t : T} {e : E}

/-- The mutexes a thread holds. -/
def Threads.held (y : Threads T M A S) (t : T) : Finset M :=
  Finset.univ.filter fun m => y.owner m = some t

/-- What each thread has to do brackets the mutexes it holds, down to none. -/
def Coherent (C : Contract M A) (y : Threads T M A S) : Prop :=
  ∀ t, C.Brackets (y.held t) (y.code t) ∅

omit [DecidableEq M] in
theorem mem_held {m : M} : m ∈ y.held t ↔ y.owner m = some t := by
  simp [Threads.held]

theorem coherent_idle (s : S) : Coherent C (Threads.idle s : Threads T M A S) := by
  intro t
  have hheld : (Threads.idle s : Threads T M A S).held t = ∅ := by
    simp [Threads.held, Threads.idle]
  rw [hheld]
  rfl

/-- No thread of a coherent system asks for a mutex that it holds. -/
theorem Coherent.notHeld (h : Coherent C y) : AsksForOthers y := by
  intro t m is hcode howner
  have hbrackets := h t
  rw [hcode] at hbrackets
  exact hbrackets.1 (mem_held.mpr howner)

/-- A thread goes on where it may, and the other threads hold what they held. -/
theorem Coherent.update (h : Coherent C y) {code : List (Instr M A)} {owner : M → Option T} {s : S}
    (hothers : ∀ t' m, t' ≠ t → (owner m = some t' ↔ y.owner m = some t'))
    (hcode : C.Brackets (Finset.univ.filter fun m => owner m = some t) code ∅) :
    Coherent C { y.goOn t code with owner := owner, shared := s } := by
  intro t'
  by_cases ht : t' = t
  · subst ht
    rw [Threads.goOn, Threads.held]
    simp only [Function.update_self]
    exact hcode
  · have hheld : Threads.held { y.goOn t code with owner := owner, shared := s } t' = y.held t' := by
      ext m
      rw [mem_held, mem_held]
      exact hothers t' m ht
    rw [hheld, Threads.goOn]
    simp only [Function.update_of_ne ht]
    exact h t'

/-- An action keeps to its contract. -/
def Keeps (C : Contract M A) (P : ThreadProgram M A S E) (e : E) (a : A) (s : S) : Prop :=
  ∀ new s' held, P.perform e a s = some (new, s') → C.needs a held →
    C.Brackets held new (C.leaves a held)

/-- **One step.** -/
theorem Coherent.step (h : Coherent C y) (hstep : y.step P t e = some y')
    (hstart : C.Brackets ∅ (P.start e) ∅)
    (hact : ∀ a is, y.code t = .act a :: is → Keeps C P e a y.shared) : Coherent C y' := by
  have hbrackets := h t
  cases hcode : y.code t with
  | nil =>
      -- a thread at rest holds nothing when it starts
      rw [hcode] at hbrackets
      rw [step_nil hcode] at hstep
      cases hstep
      refine h.update (fun _ _ _ => Iff.rfl) ?_
      have hnone : y.held t = ∅ := hbrackets
      rw [← Threads.held, hnone]
      exact hstart
  | cons i is =>
      rw [hcode] at hbrackets
      cases i with
      | lock m =>
          rw [step_lock hcode] at hstep
          split at hstep
          · rename_i hfree
            cases hstep
            -- the mutex is added to those that the thread holds
            have hheld : (Finset.univ.filter fun n => Function.update y.owner m (some t) n = some t) =
                insert m (y.held t) := by
              ext n
              by_cases hn : n = m
              · simp [hn]
              · simp [hn, Threads.held]
            refine h.update (fun t' n ht => ?_) (hheld ▸ hbrackets.2)
            by_cases hn : n = m
            · subst hn
              rw [Function.update_self, hfree]
              simp [Ne.symm ht]
            · rw [Function.update_of_ne hn]
          · cases hstep
      | unlock m =>
          rw [step_unlock hcode] at hstep
          split at hstep
          · rename_i howner
            cases hstep
            -- the mutex is taken out of those that the thread holds
            have hheld : (Finset.univ.filter fun n => Function.update y.owner m none n = some t) =
                (y.held t).erase m := by
              ext n
              by_cases hn : n = m
              · simp [hn]
              · simp [hn, Threads.held]
            refine h.update (fun t' n ht => ?_) (hheld ▸ hbrackets.2)
            by_cases hn : n = m
            · subst hn
              rw [Function.update_self, howner]
              simp [Ne.symm ht]
            · rw [Function.update_of_ne hn]
          · cases hstep
      | act a =>
          rw [step_act hcode] at hstep
          obtain ⟨⟨new, s'⟩, hperform, rfl⟩ := Option.map_eq_some_iff.mp hstep
          refine h.update (fun _ _ _ => Iff.rfl) ?_
          rw [← Threads.held]
          exact (hact a is hcode new s' _ hperform hbrackets.1).append hbrackets.2

/-- **A whole run** asks for nothing that is held as long as no step breaks a contract, and a step
that does asks for something that is. -/
theorem Coherent.always_iff {Q : Threads T M A S → T → E → Prop} (h : Coherent C y)
    (hstart : ∀ e, C.Brackets ∅ (P.start e) ∅)
    (hact : ∀ (y : Threads T M A S) t e, ¬ Q y t e → ∀ a is, y.code t = .act a :: is →
      Keeps C P e a y.shared)
    (hbreaks : ∀ (y : Threads T M A S) t e, Coherent C y → Q y t e →
      ∃ y', y.step P t e = some y' ∧ ¬ AsksForOthers y') (es : List (T × E)) :
    Always P AsksForOthers es y ↔ Avoids P Q es y := by
  induction es generalizing y with
  | nil => exact iff_of_true h.notHeld trivial
  | cons p es ih =>
      obtain ⟨t, e⟩ := p
      by_cases hQ : Q y t e
      · obtain ⟨y', hstep, hasks⟩ := hbreaks y t e h hQ
        refine iff_of_false (fun halways => hasks ?_) fun havoids => havoids.1 hQ
        have hrest := halways.2 y' hstep
        cases es with
        | nil => exact hrest
        | cons _ _ => exact hrest.1
      · have hnext : ∀ y', y.step P t e = some y' → Coherent C y' := fun y' hstep =>
          h.step hstep (hstart e) (hact y t e hQ)
        constructor
        · exact fun halways => ⟨hQ, fun y' hstep =>
            (ih (hnext y' hstep)).mp (halways.2 y' hstep)⟩
        · exact fun havoids => ⟨h.notHeld, fun y' hstep =>
            (ih (hnext y' hstep)).mpr (havoids.2 y' hstep)⟩

end Coherent

end LabComm.Library
