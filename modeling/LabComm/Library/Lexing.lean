import Mathlib.Computability.Language

set_option autoImplicit false

/-! # Scanners made of regular expressions

A scanner is a list of rules, each a regular expression with an action. At every point of the
input the rule with the longest match is taken, and the first of several such rules (`bestRule`).

The expressions are over classes of characters and have a complement, and with it "all text up to
and including". Which of them match is decided by derivatives (`mem_deriv`), and the longest match
is found by taking one derivative after the other (`longest_eq_some`).

What is scanned does not depend on what follows, where no rule has a match that goes on into it
(`bestRule_append`). So a text can be scanned piece by piece (`Scans.append`).
-/

namespace LabComm.Library

/-! ## Regular expressions -/

/-- A regular expression over classes of characters. -/
inductive Regex (α : Type) where
  | fail
  | empty
  | cls (p : α → Bool)
  | seq (r s : Regex α)
  | alt (r s : Regex α)
  | star (r : Regex α)
  | compl (r : Regex α)

namespace Regex

variable {α : Type}

/-- The texts that a regular expression matches. -/
def lang : Regex α → Language α
  | fail => 0
  | empty => 1
  | cls p => {w | ∃ a, p a = true ∧ w = [a]}
  | seq r s => r.lang * s.lang
  | alt r s => r.lang + s.lang
  | star r => KStar.kstar r.lang
  | compl r => {w | w ∉ r.lang}

theorem mem_cls {p : α → Bool} {w : List α} :
    w ∈ (cls p).lang ↔ ∃ a, p a = true ∧ w = [a] := Iff.rfl

theorem mem_empty {w : List α} : w ∈ (empty : Regex α).lang ↔ w = [] := Iff.rfl

theorem mem_seq {r s : Regex α} {w : List α} :
    w ∈ (seq r s).lang ↔ ∃ u ∈ r.lang, ∃ v ∈ s.lang, u ++ v = w := Iff.rfl

theorem mem_alt {r s : Regex α} {w : List α} :
    w ∈ (alt r s).lang ↔ w ∈ r.lang ∨ w ∈ s.lang := Iff.rfl

theorem mem_compl {r : Regex α} {w : List α} : w ∈ (compl r).lang ↔ w ∉ r.lang := Iff.rfl

/-- `seq`, with what cannot match left out. -/
def andThen : Regex α → Regex α → Regex α
  | fail, _ => fail
  | empty, s => s
  | r, s => seq r s

/-- `alt`, with what cannot match left out. -/
def orElse : Regex α → Regex α → Regex α
  | fail, s => s
  | r, fail => r
  | r, s => alt r s

theorem lang_andThen (r s : Regex α) : (r.andThen s).lang = r.lang * s.lang := by
  unfold andThen
  split
  · exact (zero_mul s.lang).symm
  · exact (one_mul s.lang).symm
  · rfl

theorem lang_orElse (r s : Regex α) : (r.orElse s).lang = r.lang + s.lang := by
  unfold orElse
  split
  · exact (zero_add _).symm
  · exact (add_zero _).symm
  · rfl

/-- The empty text is matched. -/
def nullable : Regex α → Bool
  | fail => false
  | empty => true
  | cls _ => false
  | seq r s => r.nullable && s.nullable
  | alt r s => r.nullable || s.nullable
  | star _ => true
  | compl r => !r.nullable

/-- What is left to match after the character `a`. -/
def deriv (a : α) : Regex α → Regex α
  | fail => fail
  | empty => fail
  | cls p => if p a then empty else fail
  | seq r s =>
      if r.nullable then ((r.deriv a).andThen s).orElse (s.deriv a) else (r.deriv a).andThen s
  | alt r s => (r.deriv a).orElse (s.deriv a)
  | star r => (r.deriv a).andThen (star r)
  | compl r => compl (r.deriv a)

theorem nullable_iff (r : Regex α) : r.nullable = true ↔ [] ∈ r.lang := by
  induction r with
  | fail => simp [nullable, lang]
  | empty => simp [nullable, lang]
  | cls p => simp [nullable, mem_cls]
  | seq r s ihr ihs =>
      rw [nullable, Bool.and_eq_true, ihr, ihs, mem_seq]
      constructor
      · rintro ⟨hr, hs⟩
        exact ⟨[], hr, [], hs, rfl⟩
      · rintro ⟨u, hu, v, hv, huv⟩
        obtain ⟨rfl, rfl⟩ := List.append_eq_nil_iff.mp huv
        exact ⟨hu, hv⟩
  | alt r s ihr ihs => rw [nullable, Bool.or_eq_true, ihr, ihs, mem_alt]
  | star r => exact iff_of_true rfl (Language.nil_mem_kstar r.lang)
  | compl r ih =>
      rw [mem_compl, ← ih, nullable, Bool.not_eq_true']
      exact Bool.eq_false_iff

theorem cons_mem_mul {K L : Language α} {a : α} {w : List α} :
    a :: w ∈ K * L ↔ (∃ u v, a :: u ∈ K ∧ v ∈ L ∧ w = u ++ v) ∨ [] ∈ K ∧ a :: w ∈ L := by
  rw [Language.mem_mul]
  constructor
  · rintro ⟨u, hu, v, hv, huv⟩
    cases u with
    | nil =>
        subst huv
        exact .inr ⟨hu, hv⟩
    | cons b u =>
        obtain ⟨rfl, rfl⟩ := List.cons.inj huv
        exact .inl ⟨u, v, hu, hv, rfl⟩
  · rintro (⟨u, v, hu, hv, rfl⟩ | ⟨hnil, hw⟩)
    · exact ⟨a :: u, hu, v, hv, rfl⟩
    · exact ⟨[], hnil, a :: w, hw, rfl⟩

theorem cons_mem_kstar {L : Language α} {a : α} {w : List α} :
    a :: w ∈ KStar.kstar L ↔ ∃ u v, a :: u ∈ L ∧ v ∈ KStar.kstar L ∧ w = u ++ v := by
  rw [Language.mem_kstar_iff_exists_nonempty]
  constructor
  · rintro ⟨S, hS, hall⟩
    -- the first of the pieces has the character
    cases S with
    | nil => cases hS
    | cons y S =>
        obtain ⟨hy, hne⟩ := hall y List.mem_cons_self
        cases y with
        | nil => exact absurd rfl hne
        | cons b u =>
            obtain ⟨rfl, rfl⟩ := List.cons.inj hS
            exact ⟨u, S.flatten, hy,
              Language.join_mem_kstar fun z hz => (hall z (List.mem_cons_of_mem _ hz)).1, rfl⟩
  · rintro ⟨u, v, hu, hv, rfl⟩
    obtain ⟨S, rfl, hall⟩ := Language.mem_kstar_iff_exists_nonempty.mp hv
    refine ⟨(a :: u) :: S, rfl, fun y hy => ?_⟩
    rcases List.mem_cons.mp hy with rfl | hy
    · exact ⟨hu, List.cons_ne_nil a u⟩
    · exact hall y hy

/-- **The derivative matches what is left.** -/
theorem mem_deriv {r : Regex α} {a : α} {w : List α} : w ∈ (r.deriv a).lang ↔ a :: w ∈ r.lang := by
  induction r generalizing w with
  | fail => simp [deriv, lang]
  | empty => simp [deriv, lang]
  | cls p =>
      rw [deriv, mem_cls]
      split
      · rename_i hp
        rw [mem_empty]
        constructor
        · rintro rfl
          exact ⟨a, hp, rfl⟩
        · rintro ⟨b, _, hb⟩
          exact (List.cons.inj hb).2
      · rename_i hp
        constructor
        · intro h
          cases h
        · rintro ⟨b, hb, hab⟩
          exact absurd ((List.cons.inj hab).1 ▸ hb) hp
  | seq r s ihr ihs =>
      -- the first letter is matched by `r`
      have hleft : w ∈ ((r.deriv a).andThen s).lang ↔
          ∃ u v, a :: u ∈ r.lang ∧ v ∈ s.lang ∧ w = u ++ v := by
        rw [lang_andThen, Language.mem_mul]
        constructor
        · rintro ⟨u, hu, v, hv, rfl⟩
          exact ⟨u, v, ihr.mp hu, hv, rfl⟩
        · rintro ⟨u, v, hu, hv, rfl⟩
          exact ⟨u, ihr.mpr hu, v, hv, rfl⟩
      rw [lang, cons_mem_mul, ← hleft, ← nullable_iff, deriv]
      -- or by `s`, where `r` matches nothing
      split
      · rename_i hnull
        rw [lang_orElse, Language.mem_add, ihs]
        simp [hnull]
      · rename_i hnull
        simp [hnull]
  | alt r s ihr ihs => rw [deriv, lang_orElse, Language.mem_add, ihr, ihs, mem_alt]
  | star r ih =>
      -- the first round takes the letter
      rw [deriv, lang_andThen, Language.mem_mul, lang, cons_mem_kstar]
      constructor
      · rintro ⟨u, hu, v, hv, rfl⟩
        exact ⟨u, v, ih.mp hu, hv, rfl⟩
      · rintro ⟨u, v, hu, hv, rfl⟩
        exact ⟨u, ih.mpr hu, v, hv, rfl⟩
  | compl r ih => rw [deriv, mem_compl, mem_compl, ih]

/-! ## Expressions made of these -/

/-- Just the text `w`. -/
def literal [DecidableEq α] : List α → Regex α
  | [] => empty
  | a :: w => seq (cls fun b => decide (b = a)) (literal w)

/-- Any character. -/
def any : Regex α := cls fun _ => true

/-- At least once. -/
def plus (r : Regex α) : Regex α := seq r (star r)

/-- At most once. -/
def opt (r : Regex α) : Regex α := alt r empty

/-- All text up to and including the first that is matched. -/
def upto (r : Regex α) : Regex α := seq (compl (seq (star any) (seq r (star any)))) r

theorem mem_literal [DecidableEq α] {l w : List α} : w ∈ (literal l).lang ↔ w = l := by
  induction l generalizing w with
  | nil => exact mem_empty
  | cons a l ih =>
      rw [literal, mem_seq]
      constructor
      · rintro ⟨u, ⟨b, hb, rfl⟩, v, hv, rfl⟩
        rw [of_decide_eq_true hb, ih.mp hv]
        rfl
      · rintro rfl
        exact ⟨[a], ⟨a, decide_eq_true rfl, rfl⟩, l, ih.mpr rfl, rfl⟩

theorem mem_star_cls {p : α → Bool} {w : List α} :
    w ∈ (star (cls p)).lang ↔ ∀ a ∈ w, p a = true := by
  induction w with
  | nil => exact iff_of_true (Language.nil_mem_kstar (cls p).lang) fun a ha => nomatch ha
  | cons a w ih =>
      rw [lang, cons_mem_kstar]
      constructor
      · rintro ⟨u, v, ⟨b, hb, hu⟩, hv, rfl⟩
        obtain ⟨rfl, rfl⟩ := List.cons.inj hu
        exact List.forall_mem_cons.mpr ⟨hb, ih.mp hv⟩
      · intro h
        exact ⟨[], w, ⟨a, h a List.mem_cons_self, rfl⟩,
          ih.mpr fun b hb => h b (List.mem_cons_of_mem _ hb), rfl⟩

/-! ## The longest match -/

/-- The length of the longest text that is matched at the start of `w`. Nothing is looked at once
nothing can match any more. -/
def longest : Regex α → List α → Option Nat
  | fail, _ => none
  | r, [] => if r.nullable then some 0 else none
  | r, a :: w =>
      match longest (r.deriv a) w with
      | some n => some (n + 1)
      | none => if r.nullable then some 0 else none

theorem longest_nil (r : Regex α) : r.longest [] = if r.nullable then some 0 else none := by
  cases r <;> rfl

theorem longest_fail (w : List α) : (fail : Regex α).longest w = none := by
  cases w <;> rfl

theorem longest_cons (r : Regex α) (a : α) (w : List α) :
    r.longest (a :: w) =
      match (r.deriv a).longest w with
      | some n => some (n + 1)
      | none => if r.nullable then some 0 else none := by
  cases r with
  | fail =>
      rw [longest_fail, deriv, longest_fail]
      rfl
  | empty => rfl
  | cls p => rfl
  | seq r s => rfl
  | alt r s => rfl
  | star r => rfl
  | compl r => rfl

theorem longest_eq_none {r : Regex α} {w : List α} :
    r.longest w = none ↔ ∀ u, u <+: w → u ∉ r.lang := by
  induction w generalizing r with
  | nil =>
      rw [longest_nil]
      simp [← nullable_iff]
  | cons a w ih =>
      rw [longest_cons]
      constructor
      · intro h u hu hmem
        split at h
        · cases h
        · rename_i hnone
          cases u with
          | nil =>
              rw [← nullable_iff] at hmem
              rw [if_pos hmem] at h
              cases h
          | cons b u =>
              obtain ⟨rfl, hu'⟩ := List.cons_prefix_cons.mp hu
              exact ih.mp hnone u hu' (mem_deriv.mpr hmem)
      · intro h
        have hnone : (r.deriv a).longest w = none :=
          ih.mpr fun u hu hmem =>
            h (a :: u) (List.cons_prefix_cons.mpr ⟨rfl, hu⟩) (mem_deriv.mp hmem)
        have hnull : ¬ r.nullable = true :=
          fun hn => h [] List.nil_prefix ((nullable_iff r).mp hn)
        rw [hnone]
        exact if_neg hnull

/-- **The longest match.** -/
theorem longest_eq_some {r : Regex α} {w : List α} {n : Nat} :
    r.longest w = some n ↔
      (∃ u, u <+: w ∧ u ∈ r.lang ∧ u.length = n) ∧ ∀ u, u <+: w → u ∈ r.lang → u.length ≤ n := by
  induction w generalizing r n with
  | nil =>
      rw [longest_nil]
      split
      · rename_i hnull
        have hmem := (nullable_iff r).mp hnull
        simp [hmem, eq_comm]
      · rename_i hnull
        have hmem : [] ∉ r.lang := fun h => hnull ((nullable_iff r).mpr h)
        simp [hmem]
  | cons a w ih =>
      rw [longest_cons]
      split
      · rename_i m hm
        -- the longest of the derivative, with the letter before it
        obtain ⟨⟨u, hu, hmem, rfl⟩, hmax⟩ := ih.mp hm
        have hmem' : a :: u ∈ r.lang := mem_deriv.mp hmem
        have hpre : a :: u <+: a :: w := List.cons_prefix_cons.mpr ⟨rfl, hu⟩
        have hmax' : ∀ v, v <+: a :: w → v ∈ r.lang → v.length ≤ u.length + 1 := by
          intro v hv hvmem
          cases v with
          | nil => exact Nat.zero_le _
          | cons b v =>
              obtain ⟨rfl, hv'⟩ := List.cons_prefix_cons.mp hv
              exact Nat.succ_le_succ (hmax v hv' (mem_deriv.mpr hvmem))
        constructor
        · intro h
          cases h
          exact ⟨⟨a :: u, hpre, hmem', rfl⟩, hmax'⟩
        · rintro ⟨⟨v, hv, hvmem, rfl⟩, hbound⟩
          have h1 := hmax' v hv hvmem
          have h2 := hbound _ hpre hmem'
          rw [List.length_cons] at h2
          rw [Option.some.injEq]
          omega
      · rename_i hnone
        -- the derivative has no match, so that only the empty word is left
        have hno : ∀ u, u <+: a :: w → u ∈ r.lang → u = [] := by
          intro u hu hmem
          cases u with
          | nil => rfl
          | cons b u =>
              obtain ⟨rfl, hu'⟩ := List.cons_prefix_cons.mp hu
              exact absurd (mem_deriv.mpr hmem) (longest_eq_none.mp hnone u hu')
        split
        · rename_i hnull
          constructor
          · intro h
            cases h
            refine ⟨⟨[], List.nil_prefix, (nullable_iff r).mp hnull, rfl⟩, fun u hu hmem => ?_⟩
            rw [hno u hu hmem]
            exact Nat.le_refl 0
          · rintro ⟨⟨u, hu, hmem, rfl⟩, _⟩
            rw [hno u hu hmem]
            rfl
        · rename_i hnull
          constructor
          · intro h
            cases h
          · rintro ⟨⟨u, hu, hmem, _⟩, _⟩
            rw [hno u hu hmem] at hmem
            exact absurd ((nullable_iff r).mpr hmem) hnull

/-- Expressions that match the same starts of the input have the same longest match. -/
theorem longest_congr {r s : Regex α} {w : List α} (h : ∀ u, u <+: w → (u ∈ r.lang ↔ u ∈ s.lang)) :
    r.longest w = s.longest w := by
  cases hs : s.longest w with
  | none =>
      rw [longest_eq_none] at hs ⊢
      exact fun u hu hmem => hs u hu ((h u hu).mp hmem)
  | some n =>
      rw [longest_eq_some] at hs ⊢
      obtain ⟨⟨u, hu, hmem, hlen⟩, hmax⟩ := hs
      exact ⟨⟨u, hu, (h u hu).mpr hmem, hlen⟩, fun v hv hvmem => hmax v hv ((h v hv).mp hvmem)⟩

/-- A longer input has the same longest match, if no match goes beyond the shorter one. -/
theorem longest_append {r : Regex α} {u v : List α}
    (h : ∀ p, p <+: u ++ v → p ∈ r.lang → p.length ≤ u.length) :
    r.longest (u ++ v) = r.longest u := by
  have hpre : ∀ p, p ∈ r.lang → (p <+: u ++ v ↔ p <+: u) := by
    intro p hmem
    constructor
    · intro hp
      exact List.prefix_of_prefix_length_le hp (List.prefix_append u v) (h p hp hmem)
    · intro hp
      exact hp.trans (List.prefix_append u v)
  cases hu : r.longest u with
  | none =>
      rw [longest_eq_none] at hu ⊢
      exact fun p hp hmem => hu p ((hpre p hmem).mp hp) hmem
  | some n =>
      rw [longest_eq_some] at hu ⊢
      obtain ⟨⟨p, hp, hmem, hlen⟩, hmax⟩ := hu
      exact ⟨⟨p, (hpre p hmem).mpr hp, hmem, hlen⟩,
        fun q hq hqmem => hmax q ((hpre q hqmem).mp hq) hqmem⟩

end Regex

/-! ## Rules -/

/-- What is done with what a rule matches. -/
inductive Action (τ : Type) where
  | skip
  | token (t : τ)
  | error
  deriving DecidableEq

/-- A token with its text. -/
structure Lexeme (τ α : Type) where
  id : τ
  value : List α
  deriving DecidableEq

variable {α τ : Type}

/-- The rule with the longest match at the start of `w`, the first of several. -/
def bestRule : List (Regex α × Action τ) → List α → Option (Action τ × Nat)
  | [], _ => none
  | rule :: rules, w =>
      match rule.1.longest w, bestRule rules w with
      | none, best => best
      | some n, none => some (rule.2, n)
      | some n, some (a, m) => if n < m then some (a, m) else some (rule.2, n)

/-- Rounds of the scanner. A match of the empty text is no match. -/
def scanFrom (rules : List (Regex α × Action τ)) : Nat → List α → Option (List (Lexeme τ α))
  | _, [] => some []
  | 0, _ :: _ => none
  | n + 1, a :: w =>
      match bestRule rules (a :: w) with
      | some (.skip, k + 1) => scanFrom rules n (w.drop k)
      | some (.token t, k + 1) =>
          (scanFrom rules n (w.drop k)).map fun ls => ⟨t, a :: w.take k⟩ :: ls
      | _ => none

/-- The tokens of a text. -/
def scan (rules : List (Regex α × Action τ)) (w : List α) : Option (List (Lexeme τ α)) :=
  scanFrom rules w.length w

section Rules

variable {rules : List (Regex α × Action τ)} {w : List α} {a : Action τ} {n : Nat}

theorem bestRule_mem (h : bestRule rules w = some (a, n)) :
    ∃ r, (r, a) ∈ rules ∧ r.longest w = some n := by
  induction rules generalizing a n with
  | nil => cases h
  | cons rule rules ih =>
      rw [bestRule] at h
      have htail : ∀ {b m}, bestRule rules w = some (b, m) →
          ∃ r, (r, b) ∈ rule :: rules ∧ r.longest w = some m := by
        intro b m hb
        obtain ⟨r, hr, hlong⟩ := ih hb
        exact ⟨r, List.mem_cons_of_mem _ hr, hlong⟩
      split at h
      · exact htail h
      · rename_i m hm hnone
        cases h
        exact ⟨rule.1, List.mem_cons_self, hm⟩
      · rename_i m b k hm hb
        split at h
        · cases h
          exact htail hb
        · cases h
          exact ⟨rule.1, List.mem_cons_self, hm⟩

/-- The rule that is taken matches. -/
theorem bestRule_lang (h : bestRule rules w = some (a, w.length)) :
    ∃ r, (r, a) ∈ rules ∧ w ∈ r.lang := by
  obtain ⟨r, hr, hlong⟩ := bestRule_mem h
  obtain ⟨⟨u, hu, hmem, hlen⟩, _⟩ := Regex.longest_eq_some.mp hlong
  rw [hu.eq_of_length hlen] at hmem
  exact ⟨r, hr, hmem⟩

theorem bestRule_none (h : bestRule rules w = none) {r : Regex α × Action τ} (hr : r ∈ rules) :
    r.1.longest w = none := by
  induction rules with
  | nil => cases hr
  | cons rule rules ih =>
      rw [bestRule] at h
      split at h
      · rename_i hm
        rcases List.mem_cons.mp hr with rfl | hr
        · exact hm
        · exact ih h hr
      · cases h
      · split at h <;> cases h

/-- No rule has a longer match than the one that is taken. -/
theorem bestRule_le (h : bestRule rules w = some (a, n)) {r : Regex α × Action τ} (hr : r ∈ rules)
    {m : Nat} (hm : r.1.longest w = some m) : m ≤ n := by
  induction rules generalizing a n with
  | nil => cases hr
  | cons rule rules ih =>
      rw [bestRule] at h
      split at h
      · rename_i hnone
        rcases List.mem_cons.mp hr with rfl | hr
        · rw [hm] at hnone
          cases hnone
        · exact ih h hr
      · rename_i k hk hnone
        cases h
        rcases List.mem_cons.mp hr with rfl | hr
        · rw [hm, Option.some.injEq] at hk
          omega
        · rw [bestRule_none hnone hr] at hm
          cases hm
      · rename_i k b j hk hb
        have hhead : r = rule → m = k := by
          rintro rfl
          rw [hm, Option.some.injEq] at hk
          exact hk
        rcases List.mem_cons.mp hr with hr | hr
        · split at h <;> cases h <;> have := hhead hr <;> omega
        · have := ih hb hr
          split at h <;> cases h <;> omega

/-- **What follows does not matter** where no match goes on into it. -/
theorem bestRule_append {u v : List α}
    (h : ∀ r ∈ rules, ∀ p, p <+: u ++ v → p ∈ r.1.lang → p.length ≤ u.length) :
    bestRule rules (u ++ v) = bestRule rules u := by
  induction rules with
  | nil => rfl
  | cons rule rules ih =>
      rw [bestRule, bestRule, Regex.longest_append (h rule List.mem_cons_self),
        ih fun r hr => h r (List.mem_cons_of_mem _ hr)]

/-- Alone, the text of a match is matched by the same rule. -/
theorem bestRule_take {u v : List α} (h : bestRule rules (u ++ v) = some (a, u.length)) :
    bestRule rules u = some (a, u.length) := by
  rw [← h]
  refine (bestRule_append fun r hr p hp hmem => ?_).symm
  cases hlong : r.1.longest (u ++ v) with
  | none => exact absurd hmem (Regex.longest_eq_none.mp hlong p hp)
  | some m =>
      exact Nat.le_trans ((Regex.longest_eq_some.mp hlong).2 p hp hmem) (bestRule_le h hr hlong)

/-! ## Runs of the scanner -/

theorem scanFrom_eq_scan (rules : List (Regex α × Action τ)) {n : Nat} {w : List α}
    (h : w.length ≤ n) : scanFrom rules n w = scan rules w := by
  suffices hsuff : ∀ (m n : Nat) (w : List α), w.length ≤ m → w.length ≤ n →
      scanFrom rules m w = scanFrom rules n w from hsuff n w.length w h (Nat.le_refl _)
  intro m
  induction m with
  | zero =>
      intro n w hm _
      rw [List.length_eq_zero_iff.mp (Nat.le_zero.mp hm)]
      cases n <;> rfl
  | succ m ih =>
      intro n w hm hn
      cases w with
      | nil => cases n <;> rfl
      | cons b w =>
          cases n with
          | zero => exact absurd hn (Nat.not_succ_le_zero _)
          | succ n =>
              have hrest : ∀ k, scanFrom rules m (w.drop k) = scanFrom rules n (w.drop k) := by
                intro k
                have hdrop : (w.drop k).length ≤ w.length := by
                  rw [List.length_drop]
                  omega
                rw [List.length_cons] at hm hn
                exact ih n _ (by omega) (by omega)
              rw [scanFrom, scanFrom]
              simp only [hrest]

@[simp] theorem scan_nil : scan rules ([] : List α) = some [] := rfl

theorem scan_skip {u v : List α} (hne : u ≠ [])
    (h : bestRule rules (u ++ v) = some (.skip, u.length)) :
    scan rules (u ++ v) = scan rules v := by
  cases u with
  | nil => exact absurd rfl hne
  | cons b u =>
      rw [scan, List.cons_append, List.length_cons, scanFrom]
      rw [List.cons_append, List.length_cons] at h
      simp only [h, List.drop_left]
      exact scanFrom_eq_scan rules (by simp)

theorem scan_token {u v : List α} {t : τ} (hne : u ≠ [])
    (h : bestRule rules (u ++ v) = some (.token t, u.length)) :
    scan rules (u ++ v) = (scan rules v).map fun ls => ⟨t, u⟩ :: ls := by
  cases u with
  | nil => exact absurd rfl hne
  | cons b u =>
      rw [scan, List.cons_append, List.length_cons, scanFrom]
      rw [List.cons_append, List.length_cons] at h
      simp only [h, List.drop_left, List.take_left]
      rw [scanFrom_eq_scan rules (by simp)]

/-- A lexeme that the scanner makes of its text. -/
structure Lexeme.Scanned (rules : List (Regex α × Action τ)) (l : Lexeme τ α) : Prop where
  ne_nil : l.value ≠ []
  best : bestRule rules l.value = some (.token l.id, l.value.length)

/-- **Every token that comes out of a text is made of its own text.** -/
theorem scanned_of_scan {w : List α} {ls : List (Lexeme τ α)} (h : scan rules w = some ls) :
    ∀ l ∈ ls, l.Scanned rules := by
  suffices hsuff : ∀ (n : Nat) (w : List α) (ls : List (Lexeme τ α)),
      scanFrom rules n w = some ls → ∀ l ∈ ls, l.Scanned rules from hsuff w.length w ls h
  intro n
  induction n with
  | zero =>
      intro w ls h
      cases w with
      | nil =>
          cases h
          exact fun l hl => nomatch hl
      | cons b w => cases h
  | succ n ih =>
      intro w ls h
      cases w with
      | nil =>
          cases h
          exact fun l hl => nomatch hl
      | cons b w =>
          rw [scanFrom] at h
          split at h
          · exact ih _ _ h
          · rename_i t k hbest
            obtain ⟨ls', hls, rfl⟩ := Option.map_eq_some_iff.mp h
            intro l hl
            rcases List.mem_cons.mp hl with rfl | hl
            · refine ⟨List.cons_ne_nil _ _, ?_⟩
              have hlen : (b :: w.take k).length = k + 1 := by
                -- the match is a start of what is scanned
                obtain ⟨r, _, hlong⟩ := bestRule_mem hbest
                obtain ⟨⟨u, hu, _, hlen⟩, _⟩ := Regex.longest_eq_some.mp hlong
                have hle := hu.length_le
                rw [List.length_cons] at hle
                rw [List.length_cons, List.length_take]
                omega
              have hsplit : b :: w = (b :: w.take k) ++ w.drop k := by
                rw [List.cons_append, List.take_append_drop]
              have htake : bestRule rules ((b :: w.take k) ++ w.drop k) =
                  some (.token t, (b :: w.take k).length) := by
                rw [← hsplit, hlen]
                exact hbest
              exact bestRule_take htake
            · exact ih _ _ hls l hl
          · cases h

/-- In front of everything that satisfies `P`, the text `w` is scanned as `ls`. -/
def Scans (rules : List (Regex α × Action τ)) (P : List α → Prop) (w : List α)
    (ls : List (Lexeme τ α)) : Prop :=
  ∀ v, P v → scan rules (w ++ v) = (scan rules v).map (ls ++ ·)

theorem Scans.nil (P : List α → Prop) : Scans rules P [] [] := by
  intro v _
  cases h : scan rules v <;> simp [h]

/-- One text after the other. -/
theorem Scans.append {P Q : List α → Prop} {w x : List α} {ls ms : List (Lexeme τ α)}
    (hw : Scans rules P w ls) (hx : Scans rules Q x ms) (h : ∀ v, Q v → P (x ++ v)) :
    Scans rules Q (w ++ x) (ls ++ ms) := by
  intro v hv
  rw [List.append_assoc, hw _ (h v hv), hx v hv, Option.map_map]
  congr 1
  funext ns
  exact (List.append_assoc ls ms ns).symm

theorem Scans.mono {P Q : List α → Prop} {w : List α} {ls : List (Lexeme τ α)}
    (h : Scans rules P w ls) (hQ : ∀ v, Q v → P v) : Scans rules Q w ls :=
  fun v hv => h v (hQ v hv)

theorem Scans.scan {P : List α → Prop} {w : List α} {ls : List (Lexeme τ α)}
    (h : Scans rules P w ls) (hP : P []) : scan rules w = some ls := by
  have := h [] hP
  simpa using this

end Rules

end LabComm.Library
