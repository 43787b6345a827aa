import Mathlib.Data.List.Forall2

set_option autoImplicit false

/-! # Parsers of a grammar

A nonterminal of a grammar is a relation between what is built and the symbols it is built from. A
parser with one symbol of lookahead takes as many symbols off its input as it can. `Recognizes p R
F` says that it returns `a` just if it has taken the symbols of an `a` of the nonterminal `R`, and
what is left satisfies `F`: it does not go on with a symbol that the parser would have taken too.

The lists of a grammar are left recursive (`ListOf`). The parser makes them of a first element and
a loop that goes on as long as the next symbol tells it to (`recognizes_whileNext`).
-/

namespace LabComm.Library

/-- A parser of symbols. -/
abbrev Phrase (τ α : Type) := StateT (List τ) Option α

variable {τ α β : Type}

/-- On `s`, the parser returns `a` and leaves `rest` just if what it has taken off is an `a` of the
nonterminal, and `rest` may follow. -/
def Recognizes (p : Phrase τ α) (R : α → List τ → Prop) (F : List τ → Prop) : Prop :=
  ∀ s a rest, p.run s = some (a, rest) ↔ ∃ u, s = u ++ rest ∧ R a u ∧ F rest

/-- The next symbol satisfies `c`. -/
def Starts (c : τ → Bool) (s : List τ) : Prop := ∃ x u, s = x :: u ∧ c x = true

theorem starts_cons {c : τ → Bool} {x : τ} {u : List τ} : Starts c (x :: u) ↔ c x = true := by
  constructor
  · rintro ⟨y, v, h, hy⟩
    obtain ⟨rfl, rfl⟩ := List.cons.inj h
    exact hy
  · exact fun h => ⟨x, u, rfl, h⟩

theorem not_starts_cons {c : τ → Bool} {x : τ} {u : List τ} (h : c x = false) :
    ¬ Starts c (x :: u) := by
  rw [starts_cons, h]
  exact Bool.false_ne_true

theorem not_starts_nil {c : τ → Bool} : ¬ Starts c ([] : List τ) := by
  rintro ⟨y, v, h, _⟩
  cases h

theorem Starts.append {c : τ → Bool} {u : List τ} (h : Starts c u) (v : List τ) :
    Starts c (u ++ v) := by
  obtain ⟨x, w, rfl, hx⟩ := h
  exact ⟨x, w ++ v, rfl, hx⟩

/-! ## Steps -/

theorem phrase_bind {p : Phrase τ α} {f : α → Phrase τ β} {s rest : List τ} {b : β} :
    (p >>= f).run s = some (b, rest) ↔
      ∃ a r, p.run s = some (a, r) ∧ (f a).run r = some (b, rest) := by
  show (p.run s).bind (fun x => (f x.1).run x.2) = some (b, rest) ↔ _
  rw [Option.bind_eq_some_iff]
  constructor
  · rintro ⟨x, hp, hf⟩
    exact ⟨x.1, x.2, hp, hf⟩
  · rintro ⟨a, r, hp, hf⟩
    exact ⟨(a, r), hp, hf⟩

theorem phrase_pure {a b : α} {s rest : List τ} :
    (pure a : Phrase τ α).run s = some (b, rest) ↔ a = b ∧ s = rest := by
  show some (a, s) = some (b, rest) ↔ _
  rw [Option.some.injEq, Prod.mk.injEq]

/-- The next symbol, if there is one. -/
def peek : Phrase τ (Option τ) := fun s => some (s.head?, s)

theorem phrase_peek {f : Option τ → Phrase τ β} {s : List τ} :
    ((peek : Phrase τ (Option τ)) >>= f).run s = (f s.head?).run s := rfl

/-! ## Lists -/

/-- A non-empty list of the grammar: an element, or a list, a separator and an element. -/
inductive ListOf (sep : List τ → Prop) (R : α → List τ → Prop) : List α → List τ → Prop
  | one {a : α} {u : List τ} : R a u → ListOf sep R [a] u
  | snoc {as : List α} {a : α} {u s v : List τ} :
      ListOf sep R as u → sep s → R a v → ListOf sep R (as ++ [a]) (u ++ s ++ v)

/-- An element for each of a list. -/
def Each (R : α → List τ → Prop) (as : List α) (u : List τ) : Prop :=
  ∃ us, List.Forall₂ R as us ∧ us.flatten = u

theorem each_nil {R : α → List τ → Prop} {u : List τ} : Each R [] u ↔ u = [] := by
  constructor
  · rintro ⟨us, hus, rfl⟩
    cases hus
    rfl
  · rintro rfl
    exact ⟨[], .nil, rfl⟩

theorem each_cons {R : α → List τ → Prop} {a : α} {as : List α} {u : List τ} :
    Each R (a :: as) u ↔ ∃ v w, R a v ∧ Each R as w ∧ u = v ++ w := by
  constructor
  · rintro ⟨us, hus, rfl⟩
    cases hus with
    | cons hv hvs => exact ⟨_, _, hv, ⟨_, hvs, rfl⟩, rfl⟩
  · rintro ⟨v, w, hv, ⟨us, hus, rfl⟩, rfl⟩
    exact ⟨v :: us, .cons hv hus, rfl⟩

theorem Each.append {R : α → List τ → Prop} {as bs : List α} {u v : List τ} (hu : Each R as u)
    (hv : Each R bs v) : Each R (as ++ bs) (u ++ v) := by
  induction as generalizing u with
  | nil =>
      rw [each_nil.mp hu]
      exact hv
  | cons a as ih =>
      obtain ⟨w, x, hw, hx, rfl⟩ := each_cons.mp hu
      exact each_cons.mpr ⟨w, x ++ v, hw, ih hx, List.append_assoc w x v⟩

/-- A condition on the elements. -/
theorem each_and {R : α → List τ → Prop} {Q : α → Prop} {as : List α} {u : List τ} :
    Each (fun a v => R a v ∧ Q a) as u ↔ Each R as u ∧ ∀ a ∈ as, Q a := by
  induction as generalizing u with
  | nil => simp [each_nil]
  | cons a as ih =>
      rw [each_cons, each_cons, List.forall_mem_cons]
      constructor
      · rintro ⟨v, w, ⟨hv, ha⟩, hw, rfl⟩
        obtain ⟨hw', has⟩ := ih.mp hw
        exact ⟨⟨v, w, hv, hw', rfl⟩, ha, has⟩
      · rintro ⟨⟨v, w, hv, hw, rfl⟩, ha, has⟩
        exact ⟨v, w, ⟨hv, ha⟩, ih.mpr ⟨hw, has⟩, rfl⟩

/-- An element is made of some of the symbols. -/
theorem Each.exists_of_mem {R : α → List τ → Prop} {as : List α} {u : List τ} (h : Each R as u)
    {a : α} (ha : a ∈ as) : ∃ v, R a v ∧ v <:+: u := by
  induction as generalizing u with
  | nil => cases ha
  | cons b as ih =>
      obtain ⟨v, w, hv, hw, rfl⟩ := each_cons.mp h
      rcases List.mem_cons.mp ha with rfl | ha
      · exact ⟨v, hv, (List.prefix_append v w).isInfix⟩
      · obtain ⟨x, hx, hxw⟩ := ih hw ha
        exact ⟨x, hx, hxw.trans (List.suffix_append v w).isInfix⟩

theorem Each.mono {R Q : α → List τ → Prop} {as : List α} {u : List τ} (h : Each R as u)
    (hQ : ∀ a v, R a v → Q a v) : Each Q as u := by
  obtain ⟨us, hus, rfl⟩ := h
  exact ⟨us, hus.imp fun a v => hQ a v, rfl⟩

/-- A separator with the element behind it. -/
def Separated (sep : List τ → Prop) (R : α → List τ → Prop) (a : α) (u : List τ) : Prop :=
  ∃ s v, sep s ∧ R a v ∧ u = s ++ v

/-- **A left recursive list is a first element and the others, each behind a separator.** -/
theorem listOf_iff {sep : List τ → Prop} {R : α → List τ → Prop} {l : List α} {u : List τ} :
    ListOf sep R l u ↔
      ∃ a as v w, l = a :: as ∧ R a v ∧ Each (Separated sep R) as w ∧ u = v ++ w := by
  constructor
  · intro h
    induction h with
    | one ha => exact ⟨_, [], _, [], rfl, ha, each_nil.mpr rfl, (List.append_nil _).symm⟩
    | @snoc bs b x s y _ hs hb ih =>
        obtain ⟨a, as, v, w, rfl, ha, has, rfl⟩ := ih
        have hlast : Each (Separated sep R) [b] (s ++ y) :=
          each_cons.mpr ⟨s ++ y, [], ⟨s, y, hs, hb, rfl⟩, each_nil.mpr rfl,
            (List.append_nil _).symm⟩
        exact ⟨a, as ++ [b], v, w ++ (s ++ y), rfl, ha, has.append hlast, by simp⟩
  · rintro ⟨a, as, v, w, rfl, ha, has, rfl⟩
    -- from the front, with the list so far
    suffices hsuff : ∀ (bs : List α) (x : List τ), ListOf sep R bs x →
        ListOf sep R (bs ++ as) (x ++ w) from hsuff [a] v (.one ha)
    induction as generalizing w with
    | nil =>
        intro bs x hbs
        rw [each_nil.mp has, List.append_nil, List.append_nil]
        exact hbs
    | cons c cs ih =>
        intro bs x hbs
        obtain ⟨_, z, ⟨s, y, hs, hc, rfl⟩, hz, rfl⟩ := each_cons.mp has
        have hstep := ih z hz _ _ (hbs.snoc hs hc)
        simpa using hstep

/-- Without separators. -/
theorem separated_nil {R : α → List τ → Prop} {a : α} {u : List τ} :
    Separated (· = []) R a u ↔ R a u := by
  constructor
  · rintro ⟨s, v, rfl, hv, rfl⟩
    exact hv
  · exact fun h => ⟨[], u, rfl, h, rfl⟩

theorem listOf_nil_iff {R : α → List τ → Prop} {l : List α} {u : List τ} :
    ListOf (· = []) R l u ↔ l ≠ [] ∧ Each R l u := by
  rw [listOf_iff]
  constructor
  · rintro ⟨a, as, v, w, rfl, ha, has, rfl⟩
    have has' := has.mono fun b x hx => separated_nil.mp hx
    exact ⟨List.cons_ne_nil a as, each_cons.mpr ⟨v, w, ha, has', rfl⟩⟩
  · rintro ⟨hne, h⟩
    cases l with
    | nil => exact absurd rfl hne
    | cons a as =>
        obtain ⟨v, w, ha, has, rfl⟩ := each_cons.mp h
        exact ⟨a, as, v, w, rfl, ha, has.mono fun b x hx => separated_nil.mpr hx, rfl⟩

/-! ## The loop -/

/-- At most `n` rounds, as long as the next symbol satisfies `c`. -/
def rounds (c : τ → Bool) (p : Phrase τ α) : Nat → Phrase τ (List α)
  | 0 => pure []
  | n + 1 => do
      if (← peek).any c then
        let a ← p
        let as ← rounds c p n
        pure (a :: as)
      else pure []

/-- The elements, as long as the next symbol satisfies `c`. -/
def whileNext (c : τ → Bool) (p : Phrase τ α) : Phrase τ (List α) :=
  fun s => (rounds c p s.length).run s

theorem head?_any {c : τ → Bool} {s : List τ} : s.head?.any c = true ↔ Starts c s := by
  cases s with
  | nil => exact iff_of_false (by simp) not_starts_nil
  | cons x u => rw [starts_cons, List.head?_cons, Option.any_some]

/-- **The loop recognizes a list**, if every element starts with a symbol that the loop goes on
with, and every element may stand in front of the next one and in front of what ends the loop. -/
theorem recognizes_whileNext {c : τ → Bool} {p : Phrase τ α} {R : α → List τ → Prop}
    {F : List τ → Prop} (h : Recognizes p R F) (hstart : ∀ a u, R a u → Starts c u)
    (hnext : ∀ s, Starts c s → F s) (hend : ∀ s, ¬ Starts c s → F s) :
    Recognizes (whileNext c p) (Each R) fun rest => ¬ Starts c rest := by
  suffices hsuff : ∀ (n : Nat) (s : List τ) (as : List α) (rest : List τ), s.length ≤ n →
      ((rounds c p n).run s = some (as, rest) ↔
        ∃ u, s = u ++ rest ∧ Each R as u ∧ ¬ Starts c rest) from
    fun s as rest => hsuff s.length s as rest (Nat.le_refl _)
  intro n
  induction n with
  | zero =>
      intro s as rest hs
      have hnil : s = [] := List.length_eq_zero_iff.mp (Nat.le_zero.mp hs)
      subst hnil
      rw [rounds, phrase_pure]
      constructor
      · rintro ⟨rfl, rfl⟩
        exact ⟨[], rfl, each_nil.mpr rfl, not_starts_nil⟩
      · rintro ⟨u, hu, has, _⟩
        obtain ⟨rfl, rfl⟩ := List.append_eq_nil_iff.mp hu.symm
        cases as with
        | nil => exact ⟨rfl, rfl⟩
        | cons a as =>
            -- an element is not empty
            obtain ⟨v, w, hv, _, hvw⟩ := each_cons.mp has
            obtain ⟨x, v', rfl, _⟩ := hstart a v hv
            cases hvw
  | succ n ih =>
      intro s as rest hs
      rw [rounds, phrase_peek]
      split
      · rename_i hc
        rw [head?_any] at hc
        simp only [phrase_bind, phrase_pure]
        constructor
        · rintro ⟨a, r, hp, as', r', hrounds, rfl, rfl⟩
          obtain ⟨v, rfl, hv, _⟩ := (h _ _ _).mp hp
          have hlen : r.length ≤ n := by
            obtain ⟨x, v', rfl, _⟩ := hstart a v hv
            simp at hs
            omega
          obtain ⟨w, rfl, hw, hrest⟩ := (ih r as' r' hlen).mp hrounds
          exact ⟨v ++ w, (List.append_assoc v w r').symm, each_cons.mpr ⟨v, w, hv, hw, rfl⟩, hrest⟩
        · rintro ⟨u, rfl, has, hrest⟩
          cases as with
          | nil =>
              rw [each_nil.mp has] at hc
              exact absurd hc hrest
          | cons a as =>
              obtain ⟨v, w, hv, hw, rfl⟩ := each_cons.mp has
              have hlen : (w ++ rest).length ≤ n := by
                obtain ⟨x, v', rfl, _⟩ := hstart a v hv
                simp at hs ⊢
                omega
              have hF : F (w ++ rest) := by
                by_cases hgo : Starts c (w ++ rest)
                · exact hnext _ hgo
                · exact hend _ hgo
              have hp : p.run (v ++ w ++ rest) = some (a, w ++ rest) :=
                (h _ _ _).mpr ⟨v, List.append_assoc v w rest, hv, hF⟩
              have hrest' : (rounds c p n).run (w ++ rest) = some (as, rest) :=
                (ih _ as rest hlen).mpr ⟨w, rfl, hw, hrest⟩
              exact ⟨a, w ++ rest, hp, as, rest, hrest', rfl, rfl⟩
      · rename_i hc
        rw [head?_any] at hc
        rw [phrase_pure]
        constructor
        · rintro ⟨rfl, rfl⟩
          exact ⟨[], rfl, each_nil.mpr rfl, hc⟩
        · rintro ⟨u, rfl, has, _⟩
          cases as with
          | nil =>
              rw [each_nil.mp has]
              exact ⟨rfl, rfl⟩
          | cons a as =>
              obtain ⟨v, w, hv, _, rfl⟩ := each_cons.mp has
              exact absurd (((hstart a v hv).append w).append rest) hc

end LabComm.Library
