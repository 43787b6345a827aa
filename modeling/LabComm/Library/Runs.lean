import LabComm.Library.Stream

set_option autoImplicit false

/-! # Logs and runs

A log whose entries are each allowed by the entries before (`Justified`), programs that keep an
invariant and only move a state forward (`Preserves`), and the calls of a system one after the
other (`trace`).
-/

namespace LabComm.Library

/-! ## Logs -/

section Justified

variable {α : Type} {Needs : List α → α → Prop}

/-- Every entry has what it needs in front of it. -/
def Justified (Needs : List α → α → Prop) (l : List α) : Prop :=
  ∀ pre a post, l = pre ++ a :: post → Needs pre a

theorem Justified.nil : Justified Needs [] := by
  intro pre a post h
  exact absurd h (by simp)

theorem Justified.of_append {l m : List α} (h : Justified Needs (l ++ m)) : Justified Needs l := by
  rintro pre a post rfl
  exact h pre a (post ++ m) (by simp)

/-- An entry is added by showing what it needs. -/
theorem Justified.concat {l : List α} {a : α} (h : Justified Needs l) (ha : Needs l a) :
    Justified Needs (l ++ [a]) := by
  intro pre b post heq
  rcases List.eq_nil_or_concat post with rfl | ⟨post, c, rfl⟩
  · obtain ⟨rfl, hab⟩ := List.append_inj' heq rfl
    cases hab
    exact ha
  · have hl : l = pre ++ b :: post := by
      have hsplit : l ++ [a] = (pre ++ b :: post) ++ [c] := by simpa using heq
      exact (List.append_inj' hsplit rfl).1
    exact h pre b post hl

theorem Justified.mono {Needs' : List α → α → Prop} {l : List α} (h : Justified Needs l)
    (himp : ∀ pre a, Needs pre a → Needs' pre a) : Justified Needs' l :=
  fun pre a post heq => himp pre a (h pre a post heq)

end Justified

/-! ## Programs -/

section Preserves

variable {σ ε α β : Type} {I : σ → Prop} {R : σ → σ → Prop} {P : σ → Prop} {Q : α → σ → Prop}

/-- From a state with `P`, `m` keeps the invariant and moves forward, also when it stops early;
when it returns, `Q` holds of what it returns. -/
def Preserves (I : σ → Prop) (R : σ → σ → Prop) (P : σ → Prop) (m : ExceptT ε (StateM σ) α)
    (Q : α → σ → Prop) : Prop :=
  ∀ s, I s → P s → I (m.run s).2 ∧ R s (m.run s).2 ∧
    ∀ a, (m.run s).1 = .ok a → Q a (m.run s).2

/-- What holds of a state keeps to hold when it moves forward. -/
def Stable (R : σ → σ → Prop) (P : σ → Prop) : Prop := ∀ ⦃s t⦄, R s t → P s → P t

theorem Preserves.pure (hrefl : ∀ s, R s s) {a : α} (h : ∀ s, P s → Q a s) :
    Preserves (ε := ε) I R P (pure a) Q := by
  intro s hI hP
  refine ⟨hI, hrefl s, ?_⟩
  intro b hb
  cases hb
  exact h s hP

theorem Preserves.bind (htrans : ∀ s t u, R s t → R t u → R s u)
    {m : ExceptT ε (StateM σ) α} {f : α → ExceptT ε (StateM σ) β} {Q' : β → σ → Prop}
    (hm : Preserves I R P m Q) (hf : ∀ a, Preserves I R (Q a) (f a) Q') :
    Preserves I R P (m >>= f) Q' := by
  intro s hI hP
  obtain ⟨hI', hR, hQ⟩ := hm s hI hP
  cases hrun : (m.run s).1 with
  | error x =>
      rw [run_bind_error (Prod.ext hrun rfl)]
      refine ⟨hI', hR, ?_⟩
      intro b hb
      cases hb
  | ok a =>
      rw [run_bind_ok (Prod.ext hrun rfl)]
      obtain ⟨kI, kR, kQ⟩ := hf a _ hI' (hQ a hrun)
      exact ⟨kI, htrans _ _ _ hR kR, kQ⟩

theorem Preserves.weaken {m : ExceptT ε (StateM σ) α} {S : σ → Prop} {T : α → σ → Prop}
    (h : Preserves I R P m Q) (hP : ∀ s, S s → P s) (hQ : ∀ a s, Q a s → T a s) :
    Preserves I R S m T := by
  intro s hI hs
  obtain ⟨kI, kR, kQ⟩ := h s hI (hP s hs)
  exact ⟨kI, kR, fun a ha => hQ a _ (kQ a ha)⟩

/-- What holds before and is stable holds after as well. -/
theorem Preserves.frame {m : ExceptT ε (StateM σ) α} {F : σ → Prop} (hF : Stable R F)
    (h : Preserves I R P m Q) : Preserves I R (fun s => P s ∧ F s) m fun a s => Q a s ∧ F s := by
  intro s hI hs
  obtain ⟨kI, kR, kQ⟩ := h s hI hs.1
  exact ⟨kI, kR, fun a ha => ⟨kQ a ha, hF kR hs.2⟩⟩

/-- Whatever comes of it, the program takes a state to a related one. -/
def Relates (R : σ → σ → Prop) (m : ExceptT ε (StateM σ) α) : Prop := ∀ s, R s (m.run s).2

theorem Relates.pure (hrefl : ∀ s, R s s) (a : α) :
    Relates R (pure a : ExceptT ε (StateM σ) α) := hrefl

theorem Relates.throw (hrefl : ∀ s, R s s) (x : ε) :
    Relates R (throw x : ExceptT ε (StateM σ) α) := hrefl

theorem Relates.get (hrefl : ∀ s, R s s) : Relates R (get : ExceptT ε (StateM σ) σ) := hrefl

theorem Relates.bind (htrans : ∀ s t u, R s t → R t u → R s u) {m : ExceptT ε (StateM σ) α}
    {f : α → ExceptT ε (StateM σ) β} (hm : Relates R m) (hf : ∀ a, Relates R (f a)) :
    Relates R (m >>= f) := by
  intro s
  cases hrun : (m.run s).1 with
  | error x =>
      rw [run_bind_error (Prod.ext hrun rfl)]
      exact hm s
  | ok a =>
      rw [run_bind_ok (Prod.ext hrun rfl)]
      exact htrans _ _ _ (hm s) (hf a _)

theorem Relates.mono {S : σ → σ → Prop} (h : ∀ s t, R s t → S s t) {m : ExceptT ε (StateM σ) α}
    (hm : Relates R m) : Relates S m := fun s => h _ _ (hm s)

/-- A loop: what each round achieves lasts to the end. -/
theorem Preserves.forM (hrefl : ∀ s, R s s) (htrans : ∀ s t u, R s t → R t u → R s u)
    (hP : Stable R P) {l : List α} {f : α → ExceptT ε (StateM σ) Unit} {G : α → σ → Prop}
    (hG : ∀ x, Stable R (G x)) (hf : ∀ x ∈ l, Preserves I R P (f x) fun _ s => G x s) :
    Preserves I R P (l.forM f) fun _ s => ∀ x ∈ l, G x s := by
  induction l with
  | nil => exact Preserves.pure hrefl (by simp)
  | cons x l ih =>
      have hx := (hf x List.mem_cons_self).frame hP
      have hl := (ih fun y hy => hf y (List.mem_cons_of_mem _ hy)).frame (hG x)
      have key := (hx.weaken (S := P) (fun s hs => ⟨hs, hs⟩) fun _ s hs => hs).bind htrans
        fun _ => hl.weaken (S := fun s => G x s ∧ P s) (fun s hs => ⟨hs.2, hs.1⟩)
          (T := fun _ s => ∀ y ∈ x :: l, G y s) (by
            rintro _ s ⟨hall, hx⟩ y hy
            rcases List.mem_cons.mp hy with rfl | hy
            · exact hx
            · exact hall y hy)
      exact key

end Preserves

/-! ## Traces -/

section Trace

variable {γ σ ε α : Type} {f : γ → ExceptT ε (StateM σ) α}

/-- A call in a run: the calls before it, the states around it and what it returns. -/
structure Step (γ σ ε α : Type) where
  past : List γ
  before : σ
  call : γ
  result : Except ε α
  after : σ

/-- The step is what the system does. -/
def Step.Ran (f : γ → ExceptT ε (StateM σ) α) (st : Step γ σ ε α) : Prop :=
  (f st.call).run st.before = (st.result, st.after)

/-- The steps of the calls from a state on, up to the one that ends the process. -/
def traceFrom (f : γ → ExceptT ε (StateM σ) α) (past : List γ) (s : σ) :
    List γ → List (Step γ σ ε α)
  | [] => []
  | call :: calls =>
      let ran := (f call).run s
      ⟨past, s, call, ran.1, ran.2⟩ ::
        match ran.1 with
        | .error _ => []
        | .ok _ => traceFrom f (past ++ [call]) ran.2 calls

/-- The steps of a run. -/
def trace (f : γ → ExceptT ε (StateM σ) α) (s : σ) (calls : List γ) : List (Step γ σ ε α) :=
  traceFrom f [] s calls

/-- After a call that returns the run goes on. -/
theorem mem_traceFrom_cons {past calls : List γ} {call : γ} {s t : σ} {a : α}
    (h : (f call).run s = (.ok a, t)) {st : Step γ σ ε α}
    (hst : st ∈ traceFrom f (past ++ [call]) t calls) : st ∈ traceFrom f past s (call :: calls) := by
  rw [traceFrom, h]
  exact List.mem_cons_of_mem _ hst

theorem ran_of_mem_traceFrom {past calls : List γ} {s : σ} {st : Step γ σ ε α}
    (h : st ∈ traceFrom f past s calls) : st.Ran f := by
  induction calls generalizing past s with
  | nil => exact absurd h (by simp [traceFrom])
  | cons call calls ih =>
      rw [traceFrom] at h
      rcases List.mem_cons.mp h with rfl | h
      · rfl
      · split at h
        · exact absurd h (by simp)
        · exact ih h

theorem ran_of_mem_trace {calls : List γ} {s : σ} {st : Step γ σ ε α}
    (h : st ∈ trace f s calls) : st.Ran f := ran_of_mem_traceFrom h

theorem split_of_mem_traceFrom {past calls : List γ} {s : σ} {st : Step γ σ ε α}
    (h : st ∈ traceFrom f past s calls) : ∃ post, past ++ calls = st.past ++ st.call :: post := by
  induction calls generalizing past s with
  | nil => exact absurd h (by simp [traceFrom])
  | cons call calls ih =>
      rw [traceFrom] at h
      rcases List.mem_cons.mp h with rfl | h
      · exact ⟨calls, rfl⟩
      · split at h
        · exact absurd h (by simp)
        · obtain ⟨post, hpost⟩ := ih h
          exact ⟨post, by rw [← hpost, List.append_assoc, List.singleton_append]⟩

theorem split_of_mem_trace {calls : List γ} {s : σ} {st : Step γ σ ε α}
    (h : st ∈ trace f s calls) : ∃ post, calls = st.past ++ st.call :: post :=
  split_of_mem_traceFrom h

theorem call_mem_of_mem_traceFrom {past calls : List γ} {s : σ} {st : Step γ σ ε α}
    (h : st ∈ traceFrom f past s calls) : st.call ∈ calls := by
  induction calls generalizing past s with
  | nil => exact absurd h (by simp [traceFrom])
  | cons call calls ih =>
      rw [traceFrom] at h
      rcases List.mem_cons.mp h with rfl | h
      · exact List.mem_cons_self
      · split at h
        · exact absurd h (by simp)
        · exact List.mem_cons_of_mem _ (ih h)

theorem call_mem_of_mem_trace {calls : List γ} {s : σ} {st : Step γ σ ε α}
    (h : st ∈ trace f s calls) : st.call ∈ calls := call_mem_of_mem_traceFrom h

/-- What every call has in front of it, it has in front of it in a run. -/
theorem Justified.of_mem_trace {Needs : List γ → γ → Prop} {calls : List γ}
    (hcalls : Justified Needs calls) {s : σ} {st : Step γ σ ε α} (h : st ∈ trace f s calls) :
    Needs st.past st.call := by
  obtain ⟨post, hpost⟩ := split_of_mem_trace h
  exact hcalls _ _ post hpost

theorem traceFrom_inv {I : List γ → σ → Prop} {M : Step γ σ ε α → Prop}
    (hstep : ∀ st : Step γ σ ε α, ∀ a, st.Ran f → st.result = .ok a → M st →
      I st.past st.before → I (st.past ++ [st.call]) st.after)
    {past calls : List γ} {s : σ} (hInv : I past s)
    (hall : ∀ st ∈ traceFrom f past s calls, M st) :
    ∀ st ∈ traceFrom f past s calls, I st.past st.before := by
  induction calls generalizing past s with
  | nil => simp [traceFrom]
  | cons call calls ih =>
      rw [traceFrom] at hall ⊢
      intro st hst
      rcases List.mem_cons.mp hst with rfl | hst
      · exact hInv
      · let first : Step γ σ ε α := ⟨past, s, call, ((f call).run s).1, ((f call).run s).2⟩
        have hafter : ∀ a, first.result = .ok a → I (past ++ [call]) first.after :=
          fun a ha => hstep first a rfl ha (hall _ List.mem_cons_self) hInv
        have hrest : ∀ st ∈ _, M st := fun st h => hall st (List.mem_cons_of_mem _ h)
        split at hst
        · exact absurd hst (by simp)
        · rename_i a hok
          rw [hok] at hrest
          exact ih (hafter a hok) hrest st hst

/-- What every step keeps that returns and is in order, holds before every step of a run whose
steps are in order. -/
theorem trace_inv {I : List γ → σ → Prop} {M : Step γ σ ε α → Prop}
    (hstep : ∀ st : Step γ σ ε α, ∀ a, st.Ran f → st.result = .ok a → M st →
      I st.past st.before → I (st.past ++ [st.call]) st.after)
    {calls : List γ} {s : σ} (hInv : I [] s) (hall : ∀ st ∈ trace f s calls, M st) :
    ∀ st ∈ trace f s calls, I st.past st.before :=
  traceFrom_inv hstep hInv hall

/-- A run whose steps return and are in order can go on from a state that has been kept in
order. -/
theorem traceFrom_append {I : List γ → σ → Prop} {M : Step γ σ ε α → Prop}
    (hstep : ∀ st : Step γ σ ε α, st.Ran f → M st → I st.past st.before →
      (∃ a, st.result = .ok a) ∧ I (st.past ++ [st.call]) st.after)
    {past calls : List γ} {s : σ} (hInv : I past s)
    (hall : ∀ st ∈ traceFrom f past s calls, M st) (more : List γ) :
    ∃ t, I (past ++ calls) t ∧
      ∀ st ∈ traceFrom f (past ++ calls) t more, st ∈ traceFrom f past s (calls ++ more) := by
  induction calls generalizing past s with
  | nil =>
      rw [List.append_nil]
      exact ⟨s, hInv, fun st hst => hst⟩
  | cons call calls ih =>
      rw [traceFrom] at hall
      let first : Step γ σ ε α := ⟨past, s, call, ((f call).run s).1, ((f call).run s).2⟩
      obtain ⟨⟨a, ha⟩, hafter⟩ := hstep first rfl (hall _ List.mem_cons_self) hInv
      have hrest : ∀ st ∈ _, M st := fun st h => hall st (List.mem_cons_of_mem _ h)
      rw [show ((f call).run s).1 = .ok a from ha] at hrest
      obtain ⟨t, ht, hmore⟩ := ih hafter hrest
      rw [List.append_assoc, List.singleton_append] at ht hmore
      refine ⟨t, ht, fun st hst => ?_⟩
      rw [List.cons_append, traceFrom]
      rw [show ((f call).run s).1 = .ok a from ha]
      exact List.mem_cons_of_mem _ (hmore st hst)

end Trace

/-! ## Runs that go on -/

section Fold

variable {γ σ : Type} {f : σ → γ → σ} {I : σ → Prop} {M : γ → σ → Prop}

/-- A system that goes on after every call: when a call keeps the invariant exactly if it is in
order, all states of a run have the invariant exactly if all its calls are in order. -/
theorem foldl_inv_iff {calls : List γ}
    (hstep : ∀ c ∈ calls, ∀ s, I s → (M c s ↔ I (f s c))) {s : σ} (hI : I s) :
    (∀ pre c post, calls = pre ++ c :: post → M c (pre.foldl f s)) ↔
      ∀ pre, pre <+: calls → I (pre.foldl f s) := by
  induction calls generalizing s with
  | nil =>
      constructor
      · intro _ pre hpre
        rw [List.prefix_nil.mp hpre]
        exact hI
      · intro _ pre c post h
        exact absurd h (by simp)
  | cons c calls ih =>
      have hc := hstep c List.mem_cons_self s hI
      have hrest := fun d hd => hstep d (List.mem_cons_of_mem _ hd)
      constructor
      · intro hM pre hpre
        have hnext : I (f s c) := hc.mp (hM [] c calls rfl)
        cases pre with
        | nil => exact hI
        | cons d pre =>
            obtain ⟨rfl, hprefix⟩ := List.cons_prefix_cons.mp hpre
            refine (ih hrest hnext).mp (fun p c post h => ?_) pre hprefix
            exact hM (_ :: p) c post (by rw [h, List.cons_append])
      · intro hall pre d post h
        have hnext : I (f s c) := hall [c] (by simp)
        cases pre with
        | nil =>
            obtain ⟨rfl, rfl⟩ := List.cons.inj h
            exact hc.mpr hnext
        | cons c' pre =>
            obtain ⟨rfl, hsplit⟩ := List.cons.inj h
            refine (ih hrest hnext).mpr (fun p hp => ?_) pre d post hsplit
            exact hall (_ :: p) (List.cons_prefix_cons.mpr ⟨rfl, hp⟩)

end Fold

end LabComm.Library
