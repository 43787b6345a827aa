import LabComm.Library.Positional

set_option autoImplicit false

/-! # Parsers that raise exceptions

A parser takes what it needs off a list of bytes, or raises an exception. `Consumes p bs a` says
that `p` turns an input that starts with `bs` into `a` and leaves the rest, and `Misses p bs a`
that it turns no such input into `a`. What is written and then parsed comes back if and only if
some condition holds: `ReadsBack p bs a P`, which is closed under sequencing and under loops, with
the conditions joined.
-/

namespace LabComm.Library

/-- A parser over bytes. -/
abbrev Parser (ε α : Type) := StateT (List UInt8) (Except ε) α

section Parser

variable {ε α β : Type}

/-- `n` rounds of a parser. -/
def times : Nat → Parser ε α → Parser ε (List α)
  | 0, _ => pure []
  | n + 1, p => do
      let x ← p
      let xs ← times n p
      pure (x :: xs)

/-- On an input that starts with `bs`, `p` returns `a` and leaves what follows `bs`. -/
def Consumes (p : Parser ε α) (bs : List UInt8) (a : α) : Prop :=
  ∀ rest, p.run (bs ++ rest) = .ok (a, rest)

/-- On no input that starts with `bs` does `p` return `a`. -/
def Misses (p : Parser ε α) (bs : List UInt8) (a : α) : Prop :=
  ∀ rest q, p.run (bs ++ rest) ≠ .ok (a, q)

/-- What was written as `bs` is parsed as `a` again if and only if `P`. -/
structure ReadsBack (p : Parser ε α) (bs : List UInt8) (a : α) (P : Prop) : Prop where
  consumes : P → Consumes p bs a
  misses : ¬ P → Misses p bs a

/-! ## Sequencing -/

theorem run_bind (p : Parser ε α) (f : α → Parser ε β) (s : List UInt8) :
    (p >>= f).run s = p.run s >>= fun x => (f x.1).run x.2 := rfl

/-- Two steps return if the first does and the second does for its result. -/
theorem except_bind_ok {m : Except ε α} {f : α → Except ε β} {b : β} :
    m >>= f = .ok b ↔ ∃ a, m = .ok a ∧ f a = .ok b := by
  cases m with
  | error e =>
      constructor
      · intro h
        cases h
      · rintro ⟨a, h, _⟩
        cases h
  | ok a =>
      constructor
      · exact fun h => ⟨a, rfl, h⟩
      · rintro ⟨a', h, hf⟩
        cases h
        exact hf

/-- A step for each element returns if every one of them does. -/
theorem except_mapM_ok {f : α → Except ε β} {as : List α} {bs : List β} :
    as.mapM f = .ok bs ↔ List.Forall₂ (fun a b => f a = .ok b) as bs := by
  induction as generalizing bs with
  | nil =>
      rw [List.forall₂_nil_left_iff]
      constructor
      · intro h
        cases h
        rfl
      · rintro rfl
        rfl
  | cons a as ih =>
      rw [List.mapM_cons, List.forall₂_cons_left_iff, except_bind_ok]
      constructor
      · rintro ⟨b, hb, h⟩
        obtain ⟨bs', hbs, hpure⟩ := except_bind_ok.mp h
        cases hpure
        exact ⟨b, bs', hb, ih.mp hbs, rfl⟩
      · rintro ⟨b, bs', hb, hbs, rfl⟩
        exact ⟨b, hb, except_bind_ok.mpr ⟨bs', ih.mpr hbs, rfl⟩⟩

theorem run_bind_eq_ok {p : Parser ε α} {f : α → Parser ε β} {s q : List UInt8} {b : β} :
    (p >>= f).run s = .ok (b, q) ↔ ∃ a r, p.run s = .ok (a, r) ∧ (f a).run r = .ok (b, q) := by
  rw [run_bind, except_bind_ok]
  constructor
  · rintro ⟨x, hp, hf⟩
    exact ⟨x.1, x.2, hp, hf⟩
  · rintro ⟨a, r, hp, hf⟩
    exact ⟨(a, r), hp, hf⟩

/-- After a step that returns, the rest of the steps go on. -/
theorem run_bind_of_ok {p : Parser ε α} {s r : List UInt8} {a : α} (h : p.run s = .ok (a, r))
    (f : α → Parser ε β) : (p >>= f).run s = (f a).run r := by
  rw [run_bind, h]
  rfl

theorem run_bind_of_error {p : Parser ε α} {s : List UInt8} {e : ε} (h : p.run s = .error e)
    (f : α → Parser ε β) : (p >>= f).run s = .error e := by
  rw [run_bind, h]
  rfl

theorem run_map_eq_ok {p : Parser ε α} {f : α → β} {s q : List UInt8} {b : β} :
    (f <$> p).run s = .ok (b, q) ↔ ∃ a, p.run s = .ok (a, q) ∧ f a = b := by
  rw [map_eq_pure_bind, run_bind_eq_ok]
  constructor
  · rintro ⟨a, r, hp, hf⟩
    have hf' : (Except.ok (f a, r) : Except ε _) = .ok (b, q) := hf
    simp only [Except.ok.injEq, Prod.mk.injEq] at hf'
    exact ⟨a, by rw [hp, hf'.2], hf'.1⟩
  · rintro ⟨a, hp, rfl⟩
    exact ⟨a, q, hp, rfl⟩

theorem Consumes.pure (a : α) : Consumes (ε := ε) (pure a) [] a := fun _ => rfl

theorem Consumes.bind {p : Parser ε α} {f : α → Parser ε β} {bs cs : List UInt8} {a : α} {b : β}
    (hp : Consumes p bs a) (hf : Consumes (f a) cs b) : Consumes (p >>= f) (bs ++ cs) b := by
  intro rest
  rw [List.append_assoc, run_bind, hp]
  exact hf rest

theorem Consumes.run_bind {p : Parser ε α} {bs : List UInt8} {a : α} (hp : Consumes p bs a)
    (f : α → Parser ε β) (rest : List UInt8) : (p >>= f).run (bs ++ rest) = (f a).run rest := by
  rw [Library.run_bind, hp]
  rfl

theorem Consumes.map {p : Parser ε α} {bs : List UInt8} {a : α} (f : α → β)
    (hp : Consumes p bs a) : Consumes (f <$> p) bs (f a) :=
  fun rest => run_map_eq_ok.mpr ⟨a, hp rest, rfl⟩

theorem ReadsBack.pure (a : α) : ReadsBack (ε := ε) (pure a) [] a True :=
  ⟨fun _ => Consumes.pure a, fun h => absurd trivial h⟩

/-- A condition that never fails. -/
theorem Consumes.readsBack {p : Parser ε α} {bs : List UInt8} {a : α} (h : Consumes p bs a) :
    ReadsBack p bs a True :=
  ⟨fun _ => h, fun hn => absurd trivial hn⟩

/-- What comes out is the same or it is not. -/
theorem Consumes.readsBack_eq {p : Parser ε α} {bs : List UInt8} {a b : α} (h : Consumes p bs b) :
    ReadsBack p bs a (b = a) := by
  constructor
  · rintro rfl
    exact h
  · intro hne rest q hrun
    rw [h rest, Except.ok.injEq, Prod.mk.injEq] at hrun
    exact hne hrun.1

theorem ReadsBack.congr {p : Parser ε α} {bs : List UInt8} {a : α} {P Q : Prop}
    (h : ReadsBack p bs a P) (hPQ : P ↔ Q) : ReadsBack p bs a Q :=
  ⟨fun hQ => h.consumes (hPQ.mpr hQ), fun hQ => h.misses fun hP => hQ (hPQ.mp hP)⟩

/-- **Sequencing.** The second half must not be able to make up for a first half that came out
differently. -/
theorem ReadsBack.bind {p : Parser ε α} {f : α → Parser ε β} {bs cs : List UInt8} {a : α} {b : β}
    {P Q : Prop} (hp : ReadsBack p bs a P) (hf : ReadsBack (f a) cs b Q)
    (hdet : ∀ a' s r q, p.run s = .ok (a', r) → (f a').run r = .ok (b, q) → a' = a) :
    ReadsBack (p >>= f) (bs ++ cs) b (P ∧ Q) := by
  constructor
  · rintro ⟨hP, hQ⟩
    exact (hp.consumes hP).bind (hf.consumes hQ)
  · intro hPQ rest q h
    obtain ⟨a', r, hrun, hb⟩ := run_bind_eq_ok.mp h
    have ha := hdet a' _ r q hrun hb
    subst ha
    rw [List.append_assoc] at hrun
    by_cases hP : P
    · rw [hp.consumes hP, Except.ok.injEq, Prod.mk.injEq] at hrun
      rw [← hrun.2] at hb
      exact hf.misses (fun hQ => hPQ ⟨hP, hQ⟩) rest q hb
    · exact hp.misses hP _ r hrun

/-- A first half that always comes out the same. -/
theorem ReadsBack.after {p : Parser ε α} {f : α → Parser ε β} {bs cs : List UInt8} {a : α} {b : β}
    {Q : Prop} (hp : Consumes p bs a) (hf : ReadsBack (f a) cs b Q) :
    ReadsBack (p >>= f) (bs ++ cs) b Q := by
  refine ⟨fun hQ => hp.bind (hf.consumes hQ), fun hQ rest q h => ?_⟩
  rw [List.append_assoc, run_bind, hp] at h
  exact hf.misses hQ rest q h

theorem ReadsBack.map {p : Parser ε α} {bs : List UInt8} {a : α} {P : Prop} {f : α → β}
    (hp : ReadsBack p bs a P) (hf : ∀ a', f a' = f a → a' = a) :
    ReadsBack (f <$> p) bs (f a) P := by
  constructor
  · exact fun hP => (hp.consumes hP).map f
  · intro hP rest q h
    obtain ⟨a', hrun, ha⟩ := run_map_eq_ok.mp h
    rw [hf a' ha] at hrun
    exact hp.misses hP rest q hrun

/-! ## How much is used up -/

/-- To return `a`, `p` uses up `n` bytes or more. -/
def Uses (p : Parser ε α) (a : α) (n : Nat) : Prop :=
  ∀ s q, p.run s = .ok (a, q) → n + q.length ≤ s.length

theorem Uses.pure (a b : α) : Uses (ε := ε) (pure a) b 0 := by
  intro s q h
  have h' : (Except.ok (a, s) : Except ε _) = .ok (b, q) := h
  simp only [Except.ok.injEq, Prod.mk.injEq] at h'
  rw [h'.2, zero_add]

theorem Uses.mono {p : Parser ε α} {a : α} {m n : Nat} (h : Uses p a n) (hle : m ≤ n) :
    Uses p a m := by
  intro s q hrun
  have := h s q hrun
  omega

/-- What the two halves use up together, for every result of the first. -/
theorem Uses.bind {p : Parser ε α} {f : α → Parser ε β} {b : β} {n : Nat}
    (h : ∀ a, ∃ k m, n ≤ k + m ∧ Uses p a k ∧ Uses (f a) b m) : Uses (p >>= f) b n := by
  intro s q hrun
  obtain ⟨a, r, hp, hf⟩ := run_bind_eq_ok.mp hrun
  obtain ⟨k, m, hle, hk, hm⟩ := h a
  have h₁ := hk s r hp
  have h₂ := hm r q hf
  omega

/-- What `p` leaves is the end of what it was given. -/
def Shrinks (p : Parser ε α) : Prop := ∀ s a q, p.run s = .ok (a, q) → q <:+ s

theorem Shrinks.pure (a : α) : Shrinks (ε := ε) (pure a) := by
  intro s b q h
  have h' : (Except.ok (a, s) : Except ε _) = .ok (b, q) := h
  simp only [Except.ok.injEq, Prod.mk.injEq] at h'
  rw [h'.2]

theorem Shrinks.bind {p : Parser ε α} {f : α → Parser ε β} (hp : Shrinks p)
    (hf : ∀ a, Shrinks (f a)) : Shrinks (p >>= f) := by
  intro s b q h
  obtain ⟨a, r, hrun, hb⟩ := run_bind_eq_ok.mp h
  exact (hf a r b q hb).trans (hp s a r hrun)

theorem Shrinks.map {p : Parser ε α} (f : α → β) (hp : Shrinks p) : Shrinks (f <$> p) := by
  intro s b q h
  obtain ⟨a, hrun, _⟩ := run_map_eq_ok.mp h
  exact hp s a q hrun

theorem Shrinks.ite {P : Prop} [Decidable P] {p q : Parser ε α} (hp : Shrinks p)
    (hq : Shrinks q) : Shrinks (if P then p else q) := by
  split
  · exact hp
  · exact hq

/-- On an input that starts with `bs`, `p` returns something and leaves what follows `bs`. -/
def Skips (p : Parser ε α) (bs : List UInt8) : Prop :=
  ∀ rest, ∃ a, p.run (bs ++ rest) = .ok (a, rest)

/-- A first half whose result does not matter. -/
theorem Skips.bind {p : Parser ε α} {f : α → Parser ε β} {bs cs : List UInt8} {b : β}
    (hp : Skips p bs) (hf : ∀ a, Consumes (f a) cs b) : Consumes (p >>= f) (bs ++ cs) b := by
  intro rest
  obtain ⟨a, h⟩ := hp (cs ++ rest)
  rw [List.append_assoc, run_bind_of_ok h]
  exact hf a rest

/-! ## Results -/

/-- What `p` returns is among `R`. -/
def Delivers (R : α → Prop) (p : Parser ε α) : Prop := ∀ s a q, p.run s = .ok (a, q) → R a

theorem Delivers.pure {R : α → Prop} {a : α} (h : R a) : Delivers R (pure a : Parser ε α) := by
  intro s b q hrun
  have hrun' : (Except.ok (a, s) : Except ε _) = .ok (b, q) := hrun
  simp only [Except.ok.injEq, Prod.mk.injEq] at hrun'
  rw [← hrun'.1]
  exact h

theorem Delivers.throw {R : α → Prop} (e : ε) : Delivers R (throw e : Parser ε α) := by
  intro s b q hrun
  cases hrun

theorem Delivers.bind {R : β → Prop} (p : Parser ε α) {f : α → Parser ε β}
    (hf : ∀ a, Delivers R (f a)) : Delivers R (p >>= f) := by
  intro s b q h
  obtain ⟨a, r, _, hb⟩ := run_bind_eq_ok.mp h
  exact hf a r b q hb

theorem Delivers.ite {R : α → Prop} {P : Prop} [Decidable P] {p q : Parser ε α}
    (hp : P → Delivers R p) (hq : ¬ P → Delivers R q) : Delivers R (if P then p else q) := by
  split
  · exact hp ‹_›
  · exact hq ‹_›

/-! ## Exceptions -/

/-- On inputs of less than `n` bytes the exceptions of `p` are among `E`. -/
def Throws (n : Nat) (E : ε → Prop) (p : Parser ε α) : Prop :=
  ∀ s e, s.length < n → p.run s = .error e → E e

section Throws

variable {n : Nat} {E : ε → Prop} {p q : Parser ε α}

theorem Throws.pure (a : α) : Throws n E (pure a : Parser ε α) := by
  intro s e _ h
  cases h

theorem Throws.throw {e : ε} (he : E e) : Throws n E (throw e : Parser ε α) := by
  intro s e' _ h
  cases h
  exact he

theorem Throws.bind {f : α → Parser ε β} (hp : Throws n E p) (hs : Shrinks p)
    (hf : ∀ a, Throws n E (f a)) : Throws n E (p >>= f) := by
  intro s e hlt h
  cases hrun : p.run s with
  | error e' =>
      rw [run_bind_of_error hrun] at h
      cases h
      exact hp s _ hlt hrun
  | ok x =>
      have hle := (hs s x.1 x.2 hrun).length_le
      rw [run_bind_of_ok hrun] at h
      exact hf x.1 x.2 e (by omega) h

theorem Throws.map {f : α → β} (hp : Throws n E p) : Throws n E (f <$> p) := by
  intro s e hlt h
  cases hrun : p.run s with
  | error e' =>
      rw [map_eq_pure_bind, run_bind_of_error hrun] at h
      cases h
      exact hp s _ hlt hrun
  | ok x =>
      rw [map_eq_pure_bind, run_bind_of_ok hrun] at h
      cases h

theorem Throws.ite {P : Prop} [Decidable P] (hp : P → Throws n E p) (hq : ¬ P → Throws n E q) :
    Throws n E (if P then p else q) := by
  split
  · exact hp ‹_›
  · exact hq ‹_›

end Throws

/-! ## Loops -/

theorem times_length {n : Nat} {p : Parser ε α} {s q : List UInt8} {l : List α}
    (h : (times n p).run s = .ok (l, q)) : l.length = n := by
  induction n generalizing s q l with
  | zero =>
      have h' : (Except.ok ([], s) : Except ε _) = .ok (l, q) := h
      simp only [Except.ok.injEq, Prod.mk.injEq] at h'
      rw [← h'.1]
      rfl
  | succ n ih =>
      unfold times at h
      obtain ⟨x, r, _, hrest⟩ := run_bind_eq_ok.mp h
      obtain ⟨xs, r', hxs, hpure⟩ := run_bind_eq_ok.mp hrest
      have hpure' : (Except.ok (x :: xs, r') : Except ε _) = .ok (l, q) := hpure
      simp only [Except.ok.injEq, Prod.mk.injEq] at hpure'
      rw [← hpure'.1, List.length_cons, ih hxs]

/-- What comes out of the rounds is what comes out of one of them. -/
theorem times_forall {p : Parser ε α} {R : α → Prop}
    (hp : ∀ s a q, p.run s = .ok (a, q) → R a) {n : Nat} {s q : List UInt8} {l : List α}
    (h : (times n p).run s = .ok (l, q)) : ∀ x ∈ l, R x := by
  induction n generalizing s q l with
  | zero =>
      have h' : (Except.ok ([], s) : Except ε _) = .ok (l, q) := h
      simp only [Except.ok.injEq, Prod.mk.injEq] at h'
      simp [← h'.1]
  | succ n ih =>
      unfold times at h
      obtain ⟨x, r, hx, hrest⟩ := run_bind_eq_ok.mp h
      obtain ⟨xs, r', hxs, hpure⟩ := run_bind_eq_ok.mp hrest
      have hpure' : (Except.ok (x :: xs, r') : Except ε _) = .ok (l, q) := hpure
      simp only [Except.ok.injEq, Prod.mk.injEq] at hpure'
      intro y hy
      rw [← hpure'.1] at hy
      rcases List.mem_cons.mp hy with rfl | hy
      · exact hp _ _ _ hx
      · exact ih hxs y hy

/-- What a loop uses up is what its rounds use up. -/
theorem Uses.times {p : Parser ε α} {c : α → Nat} (h : ∀ a, Uses p a (c a)) (n : Nat)
    (l : List α) : Uses (times n p) l (l.map c).sum := by
  induction n generalizing l with
  | zero =>
      intro s q hrun
      have hrun' : (Except.ok ([], s) : Except ε _) = .ok (l, q) := hrun
      simp only [Except.ok.injEq, Prod.mk.injEq] at hrun'
      rw [← hrun'.1, hrun'.2, List.map_nil, List.sum_nil, zero_add]
  | succ n ih =>
      intro s q hrun
      unfold Library.times at hrun
      obtain ⟨x, r, hx, hrest⟩ := run_bind_eq_ok.mp hrun
      obtain ⟨xs, r', hxs, hpure⟩ := run_bind_eq_ok.mp hrest
      have hpure' : (Except.ok (x :: xs, r') : Except ε _) = .ok (l, q) := hpure
      simp only [Except.ok.injEq, Prod.mk.injEq] at hpure'
      obtain ⟨rfl, rfl⟩ := hpure'
      have h₁ := h x s r hx
      have h₂ := ih xs r r' hxs
      rw [List.map_cons, List.sum_cons]
      omega

/-- A loop over inputs that are parsed one after the other. -/
theorem Consumes.times {γ : Type} {p : Parser ε α} {g : γ → List UInt8} {f : γ → α} {l : List γ}
    (h : ∀ x ∈ l, Consumes p (g x) (f x)) :
    Consumes (times l.length p) (l.flatMap g) (l.map f) := by
  induction l with
  | nil => exact Consumes.pure []
  | cons x l ih =>
      rw [List.length_cons, Library.times, List.flatMap_cons, List.map_cons]
      refine (h x List.mem_cons_self).bind ?_
      have htail := (ih fun y hy => h y (List.mem_cons_of_mem _ hy)).bind
        (f := fun xs => Pure.pure (f x :: xs)) (Consumes.pure _)
      rwa [List.append_nil] at htail

/-- A loop reads back a list whose elements are read back. -/
theorem ReadsBack.times {p : Parser ε α} {g : α → List UInt8} {P : α → Prop} {l : List α}
    (h : ∀ x ∈ l, ReadsBack p (g x) x (P x)) :
    ReadsBack (times l.length p) (l.flatMap g) l (∀ x ∈ l, P x) := by
  induction l with
  | nil => exact (ReadsBack.pure []).congr (by simp)
  | cons x l ih =>
      have hrest : ReadsBack (do let xs ← Library.times l.length p; Pure.pure (x :: xs))
          (l.flatMap g) (x :: l) (∀ y ∈ l, P y) := by
        have hmap := (ih fun y hy => h y (List.mem_cons_of_mem _ hy)).map
          (f := fun xs => x :: xs) (by simp)
        rwa [map_eq_pure_bind] at hmap
      rw [List.flatMap_cons, List.length_cons, Library.times]
      refine ((h x List.mem_cons_self).bind hrest ?_).congr (by simp)
      intro x' s r q _ hrun
      obtain ⟨xs, r, _, hpure⟩ := run_bind_eq_ok.mp hrun
      have hpure' : (Except.ok (x' :: xs, r) : Except ε _) = .ok (x :: l, q) := hpure
      simp only [Except.ok.injEq, Prod.mk.injEq, List.cons.injEq] at hpure'
      exact hpure'.1.1

/-- A loop that stores what it parses, one position after the other. -/
theorem foldlM_set_times (p : Parser ε α) (before rest : List α) (n : Nat) (h : n ≤ rest.length) :
    (List.range' before.length n).foldlM (fun a k => do let x ← p; pure (a.set k x))
        (before ++ rest) =
      (do let xs ← times n p; pure (before ++ xs ++ rest.drop n)) := by
  induction n generalizing before rest with
  | zero =>
      rw [List.range'_zero, List.foldlM_nil, times, pure_bind, List.append_nil, List.drop_zero]
  | succ n ih =>
      cases rest with
      | nil => simp at h
      | cons y rest =>
          have hn : n ≤ rest.length := by
            rw [List.length_cons] at h
            omega
          rw [List.range'_succ, List.foldlM_cons, times, bind_assoc, bind_assoc]
          congr 1
          funext x
          -- the position is the one behind what was stored
          have hset : (before ++ y :: rest).set before.length x = before ++ [x] ++ rest := by
            rw [List.set_append_right _ _ le_rfl, Nat.sub_self, List.set_cons_zero,
              List.append_assoc, List.singleton_append]
          have hrest := ih (before ++ [x]) rest hn
          rw [List.length_append, List.length_singleton] at hrest
          rw [pure_bind, hset, hrest, bind_assoc]
          simp

/-! ## Writers that may fail -/

/-- `p` returns `a` on some input. -/
def Returns (p : Parser ε α) (a : α) : Prop := ∃ s q, p.run s = .ok (a, q)

/-- Writing succeeds if and only if `E`, and what was written is then parsed as `a` again if and
only if `P`. -/
structure CodesBack (written : Except ε (List UInt8)) (p : Parser ε α) (a : α) (E P : Prop) :
    Prop where
  writes : E → ∃ bs, written = .ok bs ∧ ReadsBack p bs a P
  fails : ¬ E → ∀ bs, written ≠ .ok bs

section Writers

variable {written written' : Except ε (List UInt8)} {p : Parser ε α} {a : α} {E E' P P' : Prop}

theorem ReadsBack.codesBack {bs : List UInt8} (h : ReadsBack p bs a P) :
    CodesBack (.ok bs) p a True P :=
  ⟨fun _ => ⟨bs, rfl, h⟩, fun hn => absurd trivial hn⟩

theorem CodesBack.congr (h : CodesBack written p a E P) (hE : E ↔ E') (hP : P ↔ P') :
    CodesBack written p a E' P' := by
  rw [← propext hE, ← propext hP]
  exact h

/-- Writing succeeds if and only if the first condition holds. -/
theorem CodesBack.written_iff (h : CodesBack written p a E P) : (∃ bs, written = .ok bs) ↔ E := by
  constructor
  · rintro ⟨bs, hw⟩
    by_contra hE
    exact h.fails hE bs hw
  · intro hE
    obtain ⟨bs, hw, _⟩ := h.writes hE
    exact ⟨bs, hw⟩

/-- What was written is parsed back if and only if the second condition holds. -/
theorem CodesBack.consumes_iff (h : CodesBack written p a E P) {bs : List UInt8}
    (hw : written = .ok bs) : Consumes p bs a ↔ P := by
  obtain ⟨bs', hw', hr⟩ := h.writes (h.written_iff.mp ⟨bs, hw⟩)
  obtain rfl : bs' = bs := Except.ok.inj (hw'.symm.trans hw)
  constructor
  · intro hc
    by_contra hP
    exact hr.misses hP [] [] (hc [])
  · exact hr.consumes

/-- Writing and parsing back succeeds if and only if both conditions hold. -/
theorem CodesBack.iff (h : CodesBack written p a E P) :
    (∃ bs, written = .ok bs ∧ Consumes p bs a) ↔ E ∧ P := by
  constructor
  · rintro ⟨bs, hw, hc⟩
    exact ⟨h.written_iff.mp ⟨bs, hw⟩, (h.consumes_iff hw).mp hc⟩
  · rintro ⟨hE, hP⟩
    obtain ⟨bs, hw⟩ := h.written_iff.mpr hE
    exact ⟨bs, hw, (h.consumes_iff hw).mpr hP⟩

theorem CodesBack.map {f : α → β} (h : CodesBack written p a E P)
    (hf : ∀ a', f a' = f a → a' = a) : CodesBack written (f <$> p) (f a) E P := by
  refine ⟨fun hE => ?_, h.fails⟩
  obtain ⟨bs, hw, hr⟩ := h.writes hE
  exact ⟨bs, hw, hr.map hf⟩

theorem CodesBack.bind {f : α → Parser ε β} {b : β} (h : CodesBack written p a E P)
    (h' : CodesBack written' (f a) b E' P')
    (hdet : E → ∀ a' s r q, p.run s = .ok (a', r) → (f a').run r = .ok (b, q) → a' = a) :
    CodesBack (do let bs ← written; let cs ← written'; pure (bs ++ cs)) (p >>= f) b (E ∧ E')
      (P ∧ P') := by
  constructor
  · rintro ⟨hE, hE'⟩
    obtain ⟨bs, hw, hr⟩ := h.writes hE
    obtain ⟨cs, hw', hr'⟩ := h'.writes hE'
    refine ⟨bs ++ cs, ?_, hr.bind hr' (hdet hE)⟩
    rw [hw, hw']
    rfl
  · intro hn bs
    cases hw : written with
    | error e => exact fun h => by cases h
    | ok cs =>
        cases hw' : written' with
        | error e => exact fun h => by cases h
        | ok ds =>
            -- both halves were written, so that both conditions hold
            intro _
            apply hn
            constructor
            · by_contra hE
              exact h.fails hE cs hw
            · by_contra hE'
              exact h'.fails hE' ds hw'

/-- `for x in l: write(x)` -/
def writeEach (write : α → Except ε (List UInt8)) : List α → Except ε (List UInt8)
  | [] => pure []
  | x :: l => do
      let bs ← write x
      let more ← writeEach write l
      pure (bs ++ more)

theorem writeEach_singleton (write : α → Except ε (List UInt8)) (x : α) :
    writeEach write [x] = write x := by
  rw [Library.writeEach, Library.writeEach]
  cases write x with
  | error e => rfl
  | ok bs =>
      show Except.ok (bs ++ []) = Except.ok bs
      rw [List.append_nil]

theorem writeEach_append (write : α → Except ε (List UInt8)) (l l' : List α) :
    writeEach write (l ++ l') =
      (do let bs ← writeEach write l; let more ← writeEach write l'; pure (bs ++ more)) := by
  induction l with
  | nil =>
      show writeEach write l' = (writeEach write l' >>= fun more => pure ([] ++ more))
      cases writeEach write l' <;> rfl
  | cons x l ih =>
      rw [List.cons_append, Library.writeEach, Library.writeEach, ih]
      cases write x with
      | error e => rfl
      | ok bs =>
          cases writeEach write l with
          | error e => rfl
          | ok cs =>
              cases writeEach write l' with
              | error e => rfl
              | ok ds =>
                  show Except.ok (bs ++ (cs ++ ds)) = Except.ok (bs ++ cs ++ ds)
                  rw [List.append_assoc]

/-- A loop in a loop. -/
theorem writeEach_flatMap {γ : Type} (write : α → Except ε (List UInt8)) (f : γ → List α)
    (l : List γ) :
    writeEach write (l.flatMap f) = writeEach (fun x => writeEach write (f x)) l := by
  induction l with
  | nil => rfl
  | cons x l ih => rw [List.flatMap_cons, writeEach_append, ih, Library.writeEach]

theorem writeEach_congr {write write' : α → Except ε (List UInt8)} {l : List α}
    (h : ∀ x ∈ l, write x = write' x) : writeEach write l = writeEach write' l := by
  induction l with
  | nil => rfl
  | cons x l ih =>
      rw [Library.writeEach, Library.writeEach, h x List.mem_cons_self,
        ih fun y hy => h y (List.mem_cons_of_mem _ hy)]

/-- A loop that does not fail. -/
theorem writeEach_ok {γ : Type} {write : α → Except ε (List UInt8)} {g : γ → List UInt8}
    {l : List γ} {l' : List α} (h : List.Forall₂ (fun x y => write y = .ok (g x)) l l') :
    writeEach write l' = .ok (l.flatMap g) := by
  induction h with
  | nil => rfl
  | @cons x y l l' hxy _ ih =>
      rw [Library.writeEach, hxy, ih, List.flatMap_cons]
      rfl

/-- A loop that appends to what was written. -/
theorem foldlM_writeEach (write : α → Except ε (List UInt8)) (l : List α) (out : List UInt8) :
    l.foldlM (fun out x => do let more ← write x; pure (out ++ more)) out =
      (do let more ← Library.writeEach write l; pure (out ++ more)) := by
  induction l generalizing out with
  | nil =>
      show Except.ok out = Except.ok (out ++ [])
      rw [List.append_nil]
  | cons x l ih =>
      rw [List.foldlM_cons, Library.writeEach]
      cases write x with
      | error e => rfl
      | ok bs =>
          show l.foldlM _ (out ++ bs) = _
          rw [ih]
          show _ = ((Library.writeEach write l >>= fun more => pure (bs ++ more)) >>=
            fun more => pure (out ++ more))
          cases Library.writeEach write l with
          | error e => rfl
          | ok more =>
              show Except.ok (out ++ bs ++ more) = Except.ok (out ++ (bs ++ more))
              rw [List.append_assoc]

/-- A loop that writes and a loop that parses. -/
theorem CodesBack.writeEach {write : α → Except ε (List UInt8)} {F Q : α → Prop} {l : List α}
    (h : ∀ x ∈ l, CodesBack (write x) p x (F x) (Q x)) :
    CodesBack (writeEach write l) (times l.length p) l (∀ x ∈ l, F x) (∀ x ∈ l, Q x) := by
  induction l with
  | nil => exact (ReadsBack.pure []).codesBack.congr (by simp) (by simp)
  | cons x l ih =>
      have hrest : CodesBack (Library.writeEach write l)
          (do let xs ← Library.times l.length p; Pure.pure (x :: xs)) (x :: l)
          (∀ y ∈ l, F y) (∀ y ∈ l, Q y) := by
        have hmap := (ih fun y hy => h y (List.mem_cons_of_mem _ hy)).map
          (f := fun xs => x :: xs) (by simp)
        rwa [map_eq_pure_bind] at hmap
      rw [List.length_cons, Library.times]
      refine ((h x List.mem_cons_self).bind hrest ?_).congr (by simp) (by simp)
      intro _ x' s r q _ hrun
      obtain ⟨xs, r, _, hpure⟩ := run_bind_eq_ok.mp hrun
      have hpure' : (Except.ok (x' :: xs, r) : Except ε _) = .ok (x :: l, q) := hpure
      simp only [Except.ok.injEq, Prod.mk.injEq, List.cons.injEq] at hpure'
      exact hpure'.1.1

end Writers

/-! ## Bytes -/

/-- One byte. -/
def readByte (eof : ε) : Parser ε UInt8
  | [] => .error eof
  | b :: bs => .ok (b, bs)

/-- `n` bytes. -/
def readBytes (eof : ε) (n : Nat) : Parser ε (List UInt8) := fun bs =>
  if n ≤ bs.length then .ok (bs.take n, bs.drop n) else .error eof

/-- The loop over the bytes of a varint, up to the first one below 128; the number may be of any
size. -/
def readVarintFrom (eof : ε) (acc : Nat) : Parser ε Nat
  | [] => .error eof
  | b :: bs =>
      if b < 128 then .ok (acc * 128 + b.toNat % 128, bs)
      else readVarintFrom eof (acc * 128 + b.toNat % 128) bs

/-- A varint. -/
def readVarint (eof : ε) : Parser ε Nat := readVarintFrom eof 0

variable (eof : ε)

theorem readByte_consumes (b : UInt8) : Consumes (readByte eof) [b] b := fun _ => rfl

theorem readBytes_consumes (bs : List UInt8) : Consumes (readBytes eof bs.length) bs bs := by
  intro rest
  show (if bs.length ≤ (bs ++ rest).length then _ else _) = _
  rw [if_pos (by simp), List.take_left, List.drop_left]

variable {eof}

theorem readBytes_length {n : Nat} {s bs q : List UInt8}
    (h : (readBytes eof n).run s = .ok (bs, q)) : bs.length = n ∧ s = bs ++ q := by
  have h' : (if n ≤ s.length then Except.ok (s.take n, s.drop n) else .error eof) =
      Except.ok (bs, q) := h
  split at h'
  · rename_i hn
    simp only [Except.ok.injEq, Prod.mk.injEq] at h'
    obtain ⟨rfl, rfl⟩ := h'
    exact ⟨by rw [List.length_take]; omega, (List.take_append_drop n s).symm⟩
  · exact absurd h' (by simp)

variable (eof)

theorem readVarintFrom_append {init : List UInt8} {last : UInt8}
    (hinit : ∀ b ∈ init, 128 ≤ b.toNat) (hlast : last.toNat < 128) (acc : Nat)
    (rest : List UInt8) :
    readVarintFrom eof acc (init ++ [last] ++ rest) =
      .ok (varintValue acc (init ++ [last]), rest) := by
  induction init generalizing acc with
  | nil =>
      have hlt : last < 128 := by
        rw [UInt8.lt_iff_toNat_lt]
        exact hlast
      simp [readVarintFrom, hlt]
  | cons b init ih =>
      have hb : ¬ b < 128 := by
        rw [UInt8.lt_iff_toNat_lt, not_lt]
        exact hinit b List.mem_cons_self
      rw [List.cons_append, List.cons_append, readVarintFrom, if_neg hb,
        ih (fun x hx => hinit x (List.mem_cons_of_mem _ hx)), varintValue_cons]

theorem readVarintFrom_shrinks (acc : Nat) : Shrinks (readVarintFrom eof acc) := by
  intro s a q h
  induction s generalizing acc with
  | nil => cases h
  | cons b bs ih =>
      have h' : (if b < 128 then Except.ok (acc * 128 + b.toNat % 128, bs)
          else readVarintFrom eof (acc * 128 + b.toNat % 128) bs) = .ok (a, q) := h
      split at h'
      · simp only [Except.ok.injEq, Prod.mk.injEq] at h'
        rw [← h'.2]
        exact List.suffix_cons b bs
      · exact (ih _ h').trans (List.suffix_cons b bs)

theorem readVarintFrom_throws (n acc : Nat) : Throws n (· = eof) (readVarintFrom eof acc) := by
  intro s e hlt h
  induction s generalizing acc with
  | nil =>
      cases h
      rfl
  | cons b bs ih =>
      have h' : (if b < 128 then Except.ok (acc * 128 + b.toNat % 128, bs)
          else readVarintFrom eof (acc * 128 + b.toNat % 128) bs) = .error e := h
      split at h'
      · cases h'
      · rw [List.length_cons] at hlt
        exact ih _ (by omega) h'

/-- At least one byte is taken. -/
theorem readVarintFrom_length_lt {acc a : Nat} {s q : List UInt8}
    (h : readVarintFrom eof acc s = .ok (a, q)) : q.length < s.length := by
  cases s with
  | nil => cases h
  | cons b bs =>
      rw [readVarintFrom] at h
      split at h
      · simp only [Except.ok.injEq, Prod.mk.injEq] at h
        rw [← h.2, List.length_cons]
        omega
      · have := (readVarintFrom_shrinks eof _ bs a q h).length_le
        rw [List.length_cons]
        omega

/-- A number has as many digits as it has bytes. -/
theorem readVarintFrom_lt {acc a : Nat} {s q : List UInt8}
    (h : readVarintFrom eof acc s = .ok (a, q)) : a < (acc + 1) * 128 ^ (s.length - q.length) := by
  induction s generalizing acc with
  | nil => cases h
  | cons b bs ih =>
      rw [readVarintFrom] at h
      have hdigit : acc * 128 + b.toNat % 128 + 1 ≤ (acc + 1) * 128 := by omega
      split at h
      · simp only [Except.ok.injEq, Prod.mk.injEq] at h
        rw [← h.1, ← h.2, List.length_cons, Nat.add_sub_cancel_left, pow_one]
        omega
      · have hlt := ih h
        have hle := readVarintFrom_length_lt eof h
        have hlength : (b :: bs).length - q.length = (bs.length - q.length) + 1 := by
          rw [List.length_cons]
          omega
        rw [hlength, pow_succ', ← mul_assoc]
        exact hlt.trans_le (Nat.mul_le_mul_right _ hdigit)

theorem readVarint_consumes {k n : Nat} (h : n < 128 ^ (k + 1)) :
    Consumes (readVarint eof) (varint (k + 1) n) n := by
  intro rest
  obtain ⟨init, last, hshape, hinit, hlast⟩ := varint_shape k n
  have hrun := readVarintFrom_append eof hinit hlast 0 rest
  rw [← hshape, varintValue_varint h] at hrun
  exact hrun

end Parser

end LabComm.Library
