import Mathlib.Tactic

set_option autoImplicit false

/-! # Nested counting loops over a row-major array

A nest of loops `for i₀ < n₀`, `for i₁ < n₁`, … visits the cells of a multi-dimensional array,
and `horner` computes the position of a cell in the flat array that stores it. The nest visits
the positions `0, 1, …` of the flat array in order (`nest_horner`), so that every fact about
the nest is a fact about one loop over `List.range n.prod`.
-/

namespace LabComm.Library

/-! ## The loops -/

section Loops

variable {m : Type → Type} [Monad m] {β : Type}

/-- `for i₀ < n₀`, `for i₁ < n₁`, …: the body gets the loop variables, outermost first, and
the state the loops carry. -/
def nest : List Nat → (List Nat → β → m β) → β → m β
  | [], body, b => body [] b
  | n :: ns, body, b =>
      (List.range n).foldlM (fun b i => nest ns (fun is => body (i :: is)) b) b

/-- The loop variables `is` are within the limits `ns`. -/
def InLimits (is ns : List Nat) : Prop := List.Forall₂ (· < ·) is ns

/-- `((acc * n₀ + i₀) * n₁ + i₁) * …`: the flat position of a cell. -/
def horner : List Nat → Nat → List Nat → Nat
  | n :: ns, acc, i :: is => horner ns (acc * n + i) is
  | _, acc, _ => acc

@[simp] theorem horner_nil (acc : Nat) (is : List Nat) : horner [] acc is = acc := by
  cases is <;> rfl

@[simp] theorem horner_cons (n i acc : Nat) (ns is : List Nat) :
    horner (n :: ns) acc (i :: is) = horner ns (acc * n + i) is := rfl

theorem foldlM_congr_mem {γ : Type} (l : List γ) {f g : β → γ → m β}
    (h : ∀ x ∈ l, ∀ b, f b x = g b x) (b : β) : l.foldlM f b = l.foldlM g b := by
  induction l generalizing b with
  | nil => rfl
  | cons x l ih =>
      simp only [List.foldlM_cons, h x List.mem_cons_self]
      congr 1
      funext b'
      exact ih (fun y hy => h y (List.mem_cons_of_mem _ hy)) b'

/-- Two bodies that agree within the limits give the same nest. -/
theorem nest_congr {ns : List Nat} {f g : List Nat → β → m β}
    (h : ∀ is, InLimits is ns → f is = g is) (b : β) : nest ns f b = nest ns g b := by
  induction ns generalizing f g b with
  | nil => rw [nest, nest, h [] List.Forall₂.nil]
  | cons n ns ih =>
      rw [nest, nest]
      refine foldlM_congr_mem _ (fun i hi b => ?_) b
      exact ih (fun is his => h (i :: is) (List.Forall₂.cons (List.mem_range.mp hi) his)) b

variable [LawfulMonad m]

theorem foldlM_range_mul (n k : Nat) (f : β → Nat → m β) (b : β) :
    (List.range (n * k)).foldlM f b =
      (List.range n).foldlM (fun b i => (List.range k).foldlM (fun b j => f b (i * k + j)) b)
        b := by
  induction n generalizing b with
  | zero => simp
  | succ n ih =>
      rw [Nat.succ_mul, List.range_add, List.foldlM_append, ih, List.range_succ,
        List.foldlM_append]
      congr 1
      funext b'
      simp [List.foldlM_map]

theorem nest_horner_from (ns : List Nat) (acc : Nat) (f : Nat → β → m β) (b : β) :
    nest ns (fun is => f (horner ns acc is)) b =
      (List.range ns.prod).foldlM (fun b k => f (acc * ns.prod + k) b) b := by
  induction ns generalizing acc b with
  | nil => simp [nest]
  | cons n ns ih =>
      rw [nest, List.prod_cons, foldlM_range_mul]
      refine foldlM_congr_mem _ (fun i _ b => ?_) b
      simp only [horner_cons, ih]
      refine foldlM_congr_mem _ (fun j _ b => ?_) b
      congr 1
      ring

/-- **The nest visits the flat positions in order.** -/
theorem nest_horner (ns : List Nat) (f : Nat → β → m β) (b : β) :
    nest ns (fun is => f (horner ns 0 is)) b =
      (List.range ns.prod).foldlM (fun b k => f k b) b := by
  simpa using nest_horner_from ns 0 f b

end Loops

/-! ## Positions are in range -/

theorem horner_lt_from {ns is : List Nat} (h : InLimits is ns) (acc : Nat) :
    horner ns acc is < (acc + 1) * ns.prod := by
  induction h generalizing acc with
  | nil => simp
  | @cons i n is ns hi _ ih =>
      rw [horner_cons, List.prod_cons]
      calc horner ns (acc * n + i) is < (acc * n + i + 1) * ns.prod := ih _
        _ ≤ (acc + 1) * n * ns.prod := by
            apply Nat.mul_le_mul_right
            rw [Nat.succ_mul]
            omega
        _ = (acc + 1) * (n * ns.prod) := by ring

/-- A cell within the limits has a position within the array. -/
theorem horner_lt {ns is : List Nat} (h : InLimits is ns) : horner ns 0 is < ns.prod := by
  simpa using horner_lt_from h 0

theorem InLimits.prod_pos {is ns : List Nat} (h : InLimits is ns) : 0 < ns.prod := by
  have := horner_lt h
  omega

theorem InLimits.le_horner {is ns : List Nat} (h : InLimits is ns) (acc : Nat) :
    acc ≤ horner ns acc is := by
  induction h generalizing acc with
  | nil => simp
  | @cons i n is ns hi _ ih =>
      have hn : acc ≤ acc * n := Nat.le_mul_of_pos_right acc (by omega)
      have := ih (acc * n + i)
      rw [horner_cons]
      omega

/-! ## Arrays as lists -/

section Arrays

variable {α γ : Type}

theorem map_getD_range (a : List α) (d : α) :
    (List.range a.length).map (fun k => a.getD k d) = a := by
  apply List.ext_getElem
  · simp
  · intro k h1 h2
    simp [h2]

/-- What is said of the cells one position after the other is said of the list. -/
theorem flatMap_getD_range (a : List α) (d : α) (f : α → List γ) :
    (List.range a.length).flatMap (fun k => f (a.getD k d)) = a.flatMap f := by
  conv_rhs => rw [← map_getD_range a d]
  rw [List.flatMap_map]

theorem foldl_set_range (a b : List α) (d : α) (h : b.length = a.length) (n : Nat)
    (hn : n ≤ a.length) :
    (List.range n).foldl (fun b k => b.set k (a.getD k d)) b = a.take n ++ b.drop n := by
  induction n with
  | zero => simp
  | succ n ih =>
      have hlt : n < a.length := by omega
      rw [List.range_succ, List.foldl_append, ih (by omega), List.foldl_cons, List.foldl_nil,
        List.set_append_right _ _ (by simp), List.length_take_of_le (by omega),
        Nat.sub_self, List.drop_eq_getElem_cons (by omega), List.set_cons_zero,
        List.take_add_one, List.append_assoc]
      congr 1
      simp [hlt]

/-- Storing every cell of `a` at its position makes any array of its size equal to `a`. -/
theorem foldl_set_eq (a b : List α) (d : α) (h : b.length = a.length) :
    (List.range a.length).foldl (fun b k => b.set k (a.getD k d)) b = a := by
  rw [foldl_set_range a b d h a.length le_rfl, List.take_length, ← h, List.drop_length,
    List.append_nil]

/-- The chunks of size `k`, one after the other. -/
theorem flatMap_chunks (a : List α) (n k : Nat) :
    (List.range n).flatMap (fun i => (a.drop (i * k)).take k) = a.take (n * k) := by
  induction n with
  | zero => simp
  | succ n ih =>
      rw [List.range_succ, List.flatMap_append, ih, List.flatMap_singleton, Nat.succ_mul,
        List.take_add]

theorem chunk_length {a : List α} {n k i : Nat} (h : a.length = n * k) (hi : i < n) :
    ((a.drop (i * k)).take k).length = k := by
  have hle : i * k + k ≤ n * k := by
    rw [← Nat.succ_mul]
    exact Nat.mul_le_mul_right k hi
  rw [List.length_take, List.length_drop, h]
  omega

end Arrays

end LabComm.Library
