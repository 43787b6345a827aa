import Mathlib.Tactic

set_option autoImplicit false

/-! # Relations between three lists

`Together P xs ys zs` says that the lists have the same length and that `P` holds of the entries
at each position, as `List.Forall₂` does for two lists.
-/

namespace LabComm.Library

variable {α β γ : Type} {P Q : α → β → γ → Prop}

/-- `P` holds of the entries at each position of three lists of the same length. -/
def Together (P : α → β → γ → Prop) : List α → List β → List γ → Prop
  | [], [], [] => True
  | x :: xs, y :: ys, z :: zs => P x y z ∧ Together P xs ys zs
  | _, _, _ => False

theorem Together.length_eq {xs : List α} {ys : List β} {zs : List γ} (h : Together P xs ys zs) :
    xs.length = ys.length ∧ zs.length = ys.length := by
  induction xs generalizing ys zs with
  | nil =>
      cases ys with
      | nil =>
          cases zs with
          | nil => exact ⟨rfl, rfl⟩
          | cons => exact h.elim
      | cons => cases zs <;> exact h.elim
  | cons x xs ih =>
      cases ys with
      | nil => cases zs <;> exact h.elim
      | cons y ys =>
          cases zs with
          | nil => exact h.elim
          | cons z zs =>
              obtain ⟨h1, h2⟩ := ih h.2
              exact ⟨by rw [List.length_cons, List.length_cons, h1],
                by rw [List.length_cons, List.length_cons, h2]⟩

/-- The entries at a position. -/
theorem Together.at {xs : List α} {ys : List β} {zs : List γ} (h : Together P xs ys zs) {k : Nat}
    (hk : k < ys.length) :
    ∃ x y z, xs[k]? = some x ∧ ys[k]? = some y ∧ zs[k]? = some z ∧ P x y z := by
  induction xs generalizing ys zs k with
  | nil =>
      cases ys with
      | nil => exact absurd hk (by simp)
      | cons => cases zs <;> exact h.elim
  | cons x xs ih =>
      cases ys with
      | nil => exact absurd hk (by simp)
      | cons y ys =>
          cases zs with
          | nil => exact h.elim
          | cons z zs =>
              cases k with
              | zero => exact ⟨x, y, z, rfl, rfl, rfl, h.1⟩
              | succ k =>
                  obtain ⟨x', y', z', hx, hy, hz, hP⟩ := ih h.2 (by simpa using hk)
                  exact ⟨x', y', z', hx, hy, hz, hP⟩

theorem Together.imp {xs : List α} {ys : List β} {zs : List γ} (h : Together P xs ys zs)
    (hPQ : ∀ x y, ∀ z ∈ zs, P x y z → Q x y z) : Together Q xs ys zs := by
  induction xs generalizing ys zs with
  | nil =>
      cases ys with
      | nil =>
          cases zs with
          | nil => trivial
          | cons => exact h.elim
      | cons => cases zs <;> exact h.elim
  | cons x xs ih =>
      cases ys with
      | nil => cases zs <;> exact h.elim
      | cons y ys =>
          cases zs with
          | nil => exact h.elim
          | cons z zs =>
              exact ⟨hPQ x y z List.mem_cons_self h.1,
                ih h.2 fun x y z hz => hPQ x y z (List.mem_cons_of_mem _ hz)⟩

theorem Together.concat {xs : List α} {ys : List β} {zs : List γ} (h : Together P xs ys zs)
    {x : α} {y : β} {z : γ} (hP : P x y z) : Together P (xs ++ [x]) (ys ++ [y]) (zs ++ [z]) := by
  induction xs generalizing ys zs with
  | nil =>
      cases ys with
      | nil =>
          cases zs with
          | nil => exact ⟨hP, trivial⟩
          | cons => exact h.elim
      | cons => cases zs <;> exact h.elim
  | cons x' xs ih =>
      cases ys with
      | nil => cases zs <;> exact h.elim
      | cons y' ys =>
          cases zs with
          | nil => exact h.elim
          | cons z' zs => exact ⟨h.1, ih h.2⟩

/-- If the first entry determines the second, so do the lists. -/
theorem Together.unique {xs : List α} {ys ys' : List β} {zs zs' : List γ}
    (hP : ∀ x y y' z z', P x y z → P x y' z' → y = y') (h : Together P xs ys zs)
    (h' : Together P xs ys' zs') : ys = ys' := by
  refine List.ext_getElem? fun k => ?_
  have hlen : ys.length = ys'.length := h.length_eq.1.symm.trans h'.length_eq.1
  by_cases hk : k < ys.length
  · obtain ⟨x, y, z, hx, hy, -, hxy⟩ := h.at hk
    obtain ⟨x', y', z', hx', hy', -, hxy'⟩ := h'.at (hlen ▸ hk)
    rw [hx, Option.some.injEq] at hx'
    subst hx'
    rw [hy, hy', hP x y y' z z' hxy hxy']
  · rw [List.getElem?_eq_none (by omega), List.getElem?_eq_none (by omega)]

theorem together_replicate {x : α} {y : β} {z : γ} (h : P x y z) (n : Nat) :
    Together P (List.replicate n x) (List.replicate n y) (List.replicate n z) := by
  induction n with
  | zero => trivial
  | succ n ih => exact ⟨h, ih⟩

end LabComm.Library
