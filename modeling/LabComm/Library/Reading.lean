import LabComm.Library.Parsing

set_option autoImplicit false

/-! # Reading methods

A reading method returns something or raises an exception, and leaves what it has not read either
way: who catches the exception goes on from there. `Takes p r G` says that `p` comes out as `r`
exactly after the bytes in `G`. A `Parser`, which tells nothing of the input when it raises an
exception, says when a method returns (`Refines`).
-/

namespace LabComm.Library

variable {ε ε' α β : Type}

/-- A reading method: what it returns or raises, and what is left of the input. -/
abbrev Reading (ε α : Type) := ExceptT ε (StateM (List UInt8)) α

/-- A call of a method with an input. -/
def Reading.on (p : Reading ε α) (s : List UInt8) : Except ε α × List UInt8 := (p.run).run s

/-- What is left when an exception comes at the end of the input. -/
def leftBy (f : ε' → ε) : Except ε' (α × List UInt8) → Except ε α × List UInt8
  | .ok (a, q) => (.ok a, q)
  | .error e => (.error (f e), [])

/-- A parser that raises an exception only when it has read everything. -/
def Reading.ofParser (f : ε' → ε) (p : Parser ε' α) : Reading ε α :=
  ExceptT.mk fun s => leftBy f (p.run s)

/-! ## Calls -/

section Calls

variable {p : Reading ε α} {f : α → Reading ε β} {s q : List UInt8} {b : β} {e : ε}

@[simp] theorem on_pure (a : α) : (pure a : Reading ε α).on s = (.ok a, s) := rfl

@[simp] theorem on_throw : (throw e : Reading ε α).on s = (.error e, s) := rfl

theorem on_bind : (p >>= f).on s =
    match p.on s with
    | (.ok a, r) => (f a).on r
    | (.error e, r) => (.error e, r) := by
  show (ExceptT.bindCont f (p.on s).1 : StateM _ _) (p.on s).2 = _
  rcases p.on s with ⟨_ | _, _⟩ <;> rfl

theorem on_tryCatch {h : ε → Reading ε α} : (tryCatch p h : Reading ε α).on s =
    match p.on s with
    | (.ok a, r) => (.ok a, r)
    | (.error e, r) => (h e).on r := by
  show (match (p.on s).1 with
    | Except.ok a => (pure (Except.ok a) : StateM (List UInt8) (Except ε α))
    | Except.error e => h e) (p.on s).2 = _
  rcases p.on s with ⟨_ | _, _⟩ <;> rfl

theorem on_bind_ok : (p >>= f).on s = (.ok b, q) ↔
    ∃ a r, p.on s = (.ok a, r) ∧ (f a).on r = (.ok b, q) := by
  rw [on_bind]
  rcases hp : p.on s with ⟨e | a, r⟩
  · constructor
    · exact fun h => absurd h (by simp)
    · rintro ⟨a, r', h, _⟩
      exact absurd h (by simp)
  · constructor
    · exact fun h => ⟨a, r, rfl, h⟩
    · rintro ⟨a', r', h, hf⟩
      cases h
      exact hf

theorem on_bind_error : (p >>= f).on s = (.error e, q) ↔
    p.on s = (.error e, q) ∨ ∃ a r, p.on s = (.ok a, r) ∧ (f a).on r = (.error e, q) := by
  rw [on_bind]
  rcases hp : p.on s with ⟨e' | a, r⟩
  · simp
  · simp

theorem on_ofParser_ok {g : ε' → ε} {p : Parser ε' α} {a : α} :
    (Reading.ofParser g p).on s = (.ok a, q) ↔ p.run s = .ok (a, q) := by
  show leftBy g (p.run s) = _ ↔ _
  rcases p.run s with e | ⟨a', q'⟩
  · simp [leftBy]
  · simp [leftBy]

theorem on_ofParser_error {g : ε' → ε} {p : Parser ε' α} :
    (Reading.ofParser g p).on s = (.error e, q) ↔ q = [] ∧ ∃ e', p.run s = .error e' ∧ g e' = e := by
  show leftBy g (p.run s) = _ ↔ _
  rcases p.run s with e' | ⟨a', q'⟩
  · simp [leftBy, and_comm, eq_comm]
  · simp [leftBy]

end Calls

/-! ## Which bytes are taken -/

/-- The method comes out as `r` after the bytes in `G`, and only then. -/
def Takes (p : Reading ε α) (r : Except ε α) (G : List UInt8 → Prop) : Prop :=
  ∀ s q, p.on s = (r, q) ↔ ∃ c, G c ∧ s = c ++ q

section Taking

variable {p : Reading ε α} {f : α → Reading ε β} {G : α → List UInt8 → Prop}
  {H : α → List UInt8 → Prop} {b : β} {e : ε}

theorem Takes.congr {r : Except ε α} {K L : List UInt8 → Prop} (h : Takes p r K)
    (hKL : ∀ c, K c ↔ L c) : Takes p r L := by
  intro s q
  rw [h s q]
  exact exists_congr fun c => and_congr_left fun _ => hKL c

/-- Where the input starts with what is taken, the rest is left. -/
theorem Takes.on_append {r : Except ε α} {K : List UInt8 → Prop} (h : Takes p r K) {c : List UInt8}
    (hc : K c) (q : List UInt8) : p.on (c ++ q) = (r, q) :=
  (h _ q).mpr ⟨c, hc, rfl⟩

/-- What is taken does not depend on what follows. -/
theorem Takes.on_append_iff {r : Except ε α} {K : List UInt8 → Prop} (h : Takes p r K)
    (c q : List UInt8) : p.on (c ++ q) = (r, q) ↔ K c := by
  rw [h]
  constructor
  · rintro ⟨c', hc', heq⟩
    rwa [List.append_cancel_right heq]
  · exact fun hc => ⟨c, hc, rfl⟩

theorem takes_pure (a a' : α) :
    Takes (pure a : Reading ε α) (.ok a') (fun c => a = a' ∧ c = []) := by
  intro s q
  simp only [on_pure, Prod.mk.injEq, Except.ok.injEq]
  constructor
  · rintro ⟨ha, rfl⟩
    exact ⟨[], ⟨ha, rfl⟩, rfl⟩
  · rintro ⟨_, ⟨ha, rfl⟩, rfl⟩
    exact ⟨ha, rfl⟩

/-- **Sequencing**, where both halves return. -/
theorem Takes.bind (hp : ∀ a, Takes p (.ok a) (G a)) (hf : ∀ a, Takes (f a) (.ok b) (H a)) :
    Takes (p >>= f) (.ok b) (fun c => ∃ a c₁ c₂, G a c₁ ∧ H a c₂ ∧ c = c₁ ++ c₂) := by
  intro s q
  rw [on_bind_ok]
  constructor
  · rintro ⟨a, r, hr, hq⟩
    obtain ⟨c₁, h₁, rfl⟩ := (hp a s r).mp hr
    obtain ⟨c₂, h₂, rfl⟩ := (hf a r q).mp hq
    exact ⟨c₁ ++ c₂, ⟨a, c₁, c₂, h₁, h₂, rfl⟩, (List.append_assoc ..).symm⟩
  · rintro ⟨_, ⟨a, c₁, c₂, h₁, h₂, rfl⟩, rfl⟩
    refine ⟨a, c₂ ++ q, ?_, (hf a).on_append h₂ q⟩
    rw [List.append_assoc]
    exact (hp a).on_append h₁ _

/-- An exception of one of the halves. -/
theorem Takes.bind_error {K : List UInt8 → Prop} (hp : ∀ a, Takes p (.ok a) (G a))
    (hthrow : Takes p (.error e) K) (hf : ∀ a, Takes (f a) (.error e) (H a)) :
    Takes (p >>= f) (.error e)
      (fun c => K c ∨ ∃ a c₁ c₂, G a c₁ ∧ H a c₂ ∧ c = c₁ ++ c₂) := by
  intro s q
  rw [on_bind_error]
  constructor
  · rintro (hthrown | ⟨a, r, hr, hq⟩)
    · obtain ⟨c, hc, rfl⟩ := (hthrow s q).mp hthrown
      exact ⟨c, .inl hc, rfl⟩
    · obtain ⟨c₁, h₁, rfl⟩ := (hp a s r).mp hr
      obtain ⟨c₂, h₂, rfl⟩ := (hf a r q).mp hq
      exact ⟨c₁ ++ c₂, .inr ⟨a, c₁, c₂, h₁, h₂, rfl⟩, (List.append_assoc ..).symm⟩
  · rintro ⟨_, hc | ⟨a, c₁, c₂, h₁, h₂, rfl⟩, rfl⟩
    · exact .inl (hthrow.on_append hc q)
    · refine .inr ⟨a, c₂ ++ q, ?_, (hf a).on_append h₂ q⟩
      rw [List.append_assoc]
      exact (hp a).on_append h₁ _

end Taking

/-! ## Parsers -/

/-- The method returns what the parser returns. -/
def Refines (p : Parser ε' α) (m : Reading ε α) : Prop :=
  ∀ s a q, m.on s = (.ok a, q) ↔ p.run s = .ok (a, q)

section Refining

variable {p : Parser ε' α} {m : Reading ε α}

theorem Refines.ofParser (g : ε' → ε) (p : Parser ε' α) : Refines p (Reading.ofParser g p) :=
  fun _ _ _ => on_ofParser_ok

theorem Refines.pure (a : α) : Refines (pure a : Parser ε' α) (pure a : Reading ε α) := by
  intro s a' q
  show ((Except.ok a, s) : Except ε α × List UInt8) = _ ↔ (.ok (a, s) : Except ε' _) = _
  simp

theorem Refines.bind {f : α → Parser ε' β} {n : α → Reading ε β} (hp : Refines p m)
    (hf : ∀ a, Refines (f a) (n a)) : Refines (p >>= f) (m >>= n) := by
  intro s b q
  rw [on_bind_ok, run_bind_eq_ok]
  exact exists_congr fun a => exists_congr fun r => and_congr (hp s a r) (hf a r b q)

/-- What the parser consumes, the method takes. -/
theorem Refines.on_append (h : Refines p m) {bs : List UInt8} {a : α} (hp : Consumes p bs a)
    (q : List UInt8) : m.on (bs ++ q) = (.ok a, q) :=
  (h _ a q).mpr (hp q)

end Refining

end LabComm.Library
