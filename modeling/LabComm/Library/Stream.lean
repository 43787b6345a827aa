import Mathlib.Tactic

set_option autoImplicit false

/-! # Rules for programs that read or write a byte stream

A program over a stream is a state transformer. Two classes say what the rules need to know of
its state:

* `Source`: which bytes are still to come, and whether reading has failed;
* `Sink`: which bytes have been written, and whether the state is one that can be written to.

A reading program `Parses bs a` when it turns an input that starts with `bs` into `a` and
leaves the rest, and when every input that stops inside `bs` makes it fail. A writing program
`Emits a bs` when it returns `a` after having written exactly `bs`. Both are closed under
sequencing and under loops, with the byte strings concatenated.
-/

namespace LabComm.Library

/-! ## Sources -/

/-- A state bytes are read from. -/
class Source (σ : Type) where
  /-- The bytes still to come. -/
  unread : σ → List UInt8
  /-- Reading has run into an error. -/
  Failed : σ → Prop

section Source

variable {σ : Type} [Source σ] {α β : Type}

open Source

/-- On an input that starts with `bs`, `m` returns `a` and leaves what follows `bs`. -/
def Reads (m : StateM σ α) (bs : List UInt8) (a : α) : Prop :=
  ∀ s rest, ¬ Failed s → unread s = bs ++ rest →
    (m s).1 = a ∧ ¬ Failed (m s).2 ∧ unread (m s).2 = rest

/-- An input that stops inside `bs` makes `m` fail. -/
def Starves (m : StateM σ α) (bs : List UInt8) : Prop :=
  ∀ s tail, ¬ Failed s → tail ≠ [] → bs = unread s ++ tail → Failed (m s).2

/-- `m` does not recover from a failure. -/
def Sticky (m : StateM σ α) : Prop := ∀ s, Failed s → Failed (m s).2

/-- `m` reads exactly `bs`, and fails on anything shorter. -/
structure Parses (m : StateM σ α) (bs : List UInt8) (a : α) : Prop where
  reads : Reads m bs a
  starves : Starves m bs

/-- One step of a state transformer. -/
theorem stateM_bind {σ : Type} (m : StateM σ α) (f : α → StateM σ β) (s : σ) :
    (m >>= f) s = f (m s).1 (m s).2 := rfl

theorem stateM_map {σ : Type} (f : α → β) (m : StateM σ α) (s : σ) :
    (f <$> m) s = (f (m s).1, (m s).2) := rfl

theorem Reads.pure (a : α) : Reads (σ := σ) (pure a) [] a :=
  fun _ _ hs hr => ⟨rfl, hs, hr⟩

theorem Reads.bind {m : StateM σ α} {f : α → StateM σ β} {bs cs : List UInt8} {a : α} {b : β}
    (hm : Reads m bs a) (hf : Reads (f a) cs b) : Reads (m >>= f) (bs ++ cs) b := by
  intro s rest hs hr
  rw [List.append_assoc] at hr
  obtain ⟨h1, h2, h3⟩ := hm s _ hs hr
  have := hf (m s).2 rest h2 h3
  rw [← h1] at this
  exact this

theorem Sticky.pure (a : α) : Sticky (σ := σ) (pure a) := fun _ hs => hs

theorem Sticky.bind {m : StateM σ α} {f : α → StateM σ β} (hm : Sticky m)
    (hf : ∀ a, Sticky (f a)) : Sticky (m >>= f) :=
  fun s hs => hf (m s).1 (m s).2 (hm s hs)

theorem Sticky.map {m : StateM σ α} (f : α → β) (hm : Sticky m) : Sticky (f <$> m) :=
  fun s hs => hm s hs

theorem Sticky.foldlM {γ : Type} (l : List γ) {f : β → γ → StateM σ β}
    (hf : ∀ b x, Sticky (f b x)) (b : β) : Sticky (l.foldlM f b) := by
  induction l generalizing b with
  | nil => exact Sticky.pure b
  | cons x l ih =>
      rw [List.foldlM_cons]
      exact (hf b x).bind ih

theorem Parses.pure (a : α) : Parses (σ := σ) (pure a) [] a := by
  refine ⟨Reads.pure a, fun s tail _ ht h => ?_⟩
  simp only [List.nil_eq, List.append_eq_nil_iff] at h
  exact absurd h.2 ht

/-- An input that stops in two parts after each other has all of the first part, or stops in it. -/
theorem append_stops {γ : Type} {bs cs us tail : List γ} (h : bs ++ cs = us ++ tail) :
    (∃ mid, us = bs ++ mid ∧ cs = mid ++ tail) ∨ ∃ mid, mid ≠ [] ∧ bs = us ++ mid := by
  rcases List.append_eq_append_iff.mp h with hfirst | ⟨mid, h1, h2⟩
  · exact .inl hfirst
  · cases mid with
    | nil => exact .inl ⟨[], by simpa using h1.symm, by simpa using h2.symm⟩
    | cons x mid => exact .inr ⟨x :: mid, by simp, h1⟩

theorem Starves.map {m : StateM σ α} {bs : List UInt8} (h : Starves m bs) (f : α → β) :
    Starves (f <$> m) bs := fun s tail => h s tail

/-- What follows a failed first half must not recover. -/
theorem Starves.bind {m : StateM σ α} {f : α → StateM σ β} {bs cs : List UInt8} {a : α}
    (hm : Parses m bs a) (hf : Starves (f a) cs) (hs : ∀ a, Sticky (f a)) :
    Starves (m >>= f) (bs ++ cs) := by
  intro s tail hok ht h
  show Failed (f (m s).1 (m s).2).2
  rcases append_stops h with ⟨mid, h1, h2⟩ | ⟨mid, hne, h1⟩
  · -- the input reaches to the end of the first half
    obtain ⟨e1, e2, e3⟩ := hm.reads s mid hok h1
    rw [e1]
    exact hf _ tail e2 ht (by rw [e3, h2])
  · exact hs _ _ (hm.starves s mid hok hne h1)

/-- **Sequencing.** -/
theorem Parses.bind {m : StateM σ α} {f : α → StateM σ β} {bs cs : List UInt8} {a : α} {b : β}
    (hm : Parses m bs a) (hf : Parses (f a) cs b) (hs : ∀ a, Sticky (f a)) :
    Parses (m >>= f) (bs ++ cs) b :=
  ⟨hm.reads.bind hf.reads, .bind hm hf.starves hs⟩

theorem Parses.map {m : StateM σ α} {bs : List UInt8} {a : α} (f : α → β)
    (hm : Parses m bs a) : Parses (f <$> m) bs (f a) := by
  refine ⟨fun s rest hs hr => ?_, fun s tail hs ht h => hm.starves s tail hs ht h⟩
  obtain ⟨h1, h2, h3⟩ := hm.reads s rest hs hr
  exact ⟨congrArg f h1, h2, h3⟩

/-- A loop reads the concatenation of what its rounds read. -/
theorem Parses.foldlM {γ : Type} (l : List γ) {f : β → γ → StateM σ β} {g : β → γ → β}
    {h : γ → List UInt8} (hf : ∀ x ∈ l, ∀ b, Parses (f b x) (h x) (g b x))
    (hs : ∀ b x, Sticky (f b x)) (b : β) :
    Parses (l.foldlM f b) (l.flatMap h) (l.foldl g b) := by
  induction l generalizing b with
  | nil => exact Parses.pure b
  | cons x l ih =>
      rw [List.foldlM_cons, List.flatMap_cons, List.foldl_cons]
      exact (hf x List.mem_cons_self b).bind
        (ih (fun y hy => hf y (List.mem_cons_of_mem _ hy)) _) (fun b => Sticky.foldlM l hs b)

end Source

/-! ## Programs that may stop early -/

section Stop

variable {ε σ α β : Type}

theorem stateT_pure_apply {m : Type → Type} [Monad m] (a : α) (s : σ) :
    (StateT.pure a : StateT σ m α) s = Pure.pure (a, s) := rfl

theorem run_bind_ok {m : ExceptT ε (StateM σ) α} {f : α → ExceptT ε (StateM σ) β} {s t : σ}
    {a : α} (h : m.run s = (.ok a, t)) : (m >>= f).run s = (f a).run t := by
  have run : (m >>= f).run s = (ExceptT.bindCont f (m.run s).1 : StateM σ (Except ε β))
      (m.run s).2 := rfl
  rw [run, h]
  rfl

theorem run_bind_error {m : ExceptT ε (StateM σ) α} {f : α → ExceptT ε (StateM σ) β} {s t : σ}
    {x : ε} (h : m.run s = (.error x, t)) : (m >>= f).run s = (.error x, t) := by
  have run : (m >>= f).run s = (ExceptT.bindCont f (m.run s).1 : StateM σ (Except ε β))
      (m.run s).2 := rfl
  rw [run, h]
  rfl

end Stop

/-! ## Sinks -/

/-- A state bytes are written to. -/
class Sink (ω : Type) (κ : outParam Type) where
  /-- The bytes written so far. -/
  written : ω → List UInt8
  /-- The part of the state that writing leaves alone. -/
  kept : ω → κ
  /-- The state accepts more bytes. -/
  Ready : ω → Prop

section Sink

variable {ω κ : Type} [Sink ω κ] {α β ε : Type}

open Sink

/-- `m` returns `a` and writes exactly `bs`. -/
def Emits (m : StateM ω α) (a : α) (bs : List UInt8) : Prop :=
  ∀ w, Ready w → (m w).1 = a ∧ Ready (m w).2 ∧ kept (m w).2 = kept w ∧
    written (m w).2 = written w ++ bs

theorem Emits.pure (a : α) : Emits (ω := ω) (pure a) a [] :=
  fun _ hw => ⟨rfl, hw, rfl, (List.append_nil _).symm⟩

theorem Emits.bind {m : StateM ω α} {f : α → StateM ω β} {a : α} {b : β} {bs cs : List UInt8}
    (hm : Emits m a bs) (hf : Emits (f a) b cs) : Emits (m >>= f) b (bs ++ cs) := by
  intro w hw
  obtain ⟨h1, h2, h3, h4⟩ := hm w hw
  obtain ⟨k1, k2, k3, k4⟩ := hf (m w).2 h2
  rw [← h1] at k1 k2 k3 k4
  refine ⟨k1, k2, k3.trans h3, ?_⟩
  rw [← List.append_assoc, ← h4]
  exact k4

/-- A program that may stop early runs to its end and writes `bs`. -/
def Completes (m : ExceptT ε (StateM ω) α) (a : α) (bs : List UInt8) : Prop :=
  Emits m.run (.ok a) bs

theorem Completes.pure (a : α) : Completes (ω := ω) (ε := ε) (pure a) a [] :=
  Emits.pure (ω := ω) (Except.ok (ε := ε) a)

theorem Completes.bind {m : ExceptT ε (StateM ω) α} {f : α → ExceptT ε (StateM ω) β} {a : α}
    {b : β} {bs cs : List UInt8} (hm : Completes m a bs) (hf : Completes (f a) b cs) :
    Completes (m >>= f) b (bs ++ cs) := by
  intro w hw
  obtain ⟨h1, h2, h3, h4⟩ := hm w hw
  obtain ⟨k1, k2, k3, k4⟩ := hf _ h2
  have run : (m >>= f).run w = (f a).run (m.run w).2 := run_bind_ok (Prod.ext h1 rfl)
  rw [run]
  refine ⟨k1, k2, k3.trans h3, ?_⟩
  rw [k4, h4, List.append_assoc]

theorem Completes.lift {m : StateM ω α} {a : α} {bs : List UInt8} (hm : Emits m a bs) :
    Completes (ε := ε) (ExceptT.lift m) a bs := by
  intro w hw
  obtain ⟨h1, h2, h3, h4⟩ := hm w hw
  exact ⟨congrArg Except.ok h1, h2, h3, h4⟩

/-- A result that is already there. -/
theorem Completes.ofExcept {x : Except ε α} {a : α} (h : x = .ok a) :
    Completes (ω := ω) (liftM x : ExceptT ε (StateM ω) α) a [] := by
  subst h
  exact Completes.pure a

/-- A loop writes the concatenation of what its rounds write. -/
theorem Completes.foldlM {γ : Type} (l : List γ) {f : β → γ → ExceptT ε (StateM ω) β}
    {g : β → γ → β} {h : γ → List UInt8}
    (hf : ∀ x ∈ l, ∀ b, Completes (f b x) (g b x) (h x)) (b : β) :
    Completes (l.foldlM f b) (l.foldl g b) (l.flatMap h) := by
  induction l generalizing b with
  | nil => exact Completes.pure b
  | cons x l ih =>
      rw [List.foldlM_cons, List.foldl_cons, List.flatMap_cons]
      exact (hf x List.mem_cons_self b).bind
        (ih (fun y hy => hf y (List.mem_cons_of_mem _ hy)) _)

/-- A program that is run for its effect on every entry of a list. -/
theorem Completes.forM {γ : Type} (l : List γ) {f : γ → ExceptT ε (StateM ω) Unit}
    {h : γ → List UInt8} (hf : ∀ x ∈ l, Completes (f x) () (h x)) :
    Completes (l.forM f) () (l.flatMap h) := by
  induction l with
  | nil => exact Completes.pure ()
  | cons x l ih =>
      rw [List.flatMap_cons]
      exact (hf x List.mem_cons_self).bind (ih fun y hy => hf y (List.mem_cons_of_mem _ hy))

end Sink

end LabComm.Library
