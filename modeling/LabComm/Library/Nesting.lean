import Mathlib.Tactic

set_option autoImplicit false

/-! # The shape of nested lists

`minMaxShape` walks a nesting of lists and keeps, for each depth, the least and the greatest
length seen there; `lengths` collects the lengths themselves. The walk summarises them
(`minMaxShape_summarizes`), so that the least and the greatest length agree at every depth if
and only if the nesting is `Rect`.
-/

namespace LabComm.Library

/-- A nesting of lists. -/
inductive Nest where
  | leaf
  | node (items : List Nest)

/-- The lengths of the lists at a depth. -/
def lengths : Nat → Nest → List Nat
  | _, .leaf => []
  | 0, .node items => [items.length]
  | k + 1, .node items => items.flatMap (lengths k)

/-- Any two lists at the same depth have the same length. -/
def Rect (t : Nest) : Prop := ∀ k, ∀ m ∈ lengths k t, ∀ n ∈ lengths k t, m = n

/-- There is a list at each of the first `n` depths. -/
def Deep (n : Nat) (t : Nest) : Prop := ∀ k < n, lengths k t ≠ []

@[simp] theorem lengths_leaf (k : Nat) : lengths k .leaf = [] := by
  cases k <;> rfl

@[simp] theorem lengths_zero_node (items : List Nest) :
    lengths 0 (.node items) = [items.length] := rfl

@[simp] theorem lengths_succ_node (k : Nat) (items : List Nest) :
    lengths (k + 1) (.node items) = items.flatMap (lengths k) := rfl

/-! ## The walk -/

/-- What is known of each depth: the least and the greatest length. -/
abbrev MinMax := List (Nat × Nat)

/-- A list of this length was seen at this depth. -/
def widen (length depth : Nat) (shape : MinMax) : MinMax :=
  match shape[depth]? with
  | none => shape ++ [(length, length)]
  | some (low, high) => shape.set depth (min low length, max high length)

mutual

/-- The walk over a nesting. -/
def minMaxShape : Nest → Nat → MinMax → MinMax
  | .leaf, _, shape => shape
  | .node items, depth, shape => minMaxShapes items (depth + 1) (widen items.length depth shape)

/-- The walk over the items of a list. -/
def minMaxShapes : List Nest → Nat → MinMax → MinMax
  | [], _, shape => shape
  | e :: items, depth, shape => minMaxShapes items depth (minMaxShape e depth shape)

end

/-! ## What the walk finds -/

/-- `shape` has the least and the greatest of the numbers `seen` at each depth. -/
def Summarizes (seen : Nat → List Nat) (shape : MinMax) : Prop :=
  ∀ k, match shape[k]? with
    | none => seen k = []
    | some (low, high) => low ∈ seen k ∧ high ∈ seen k ∧ ∀ n ∈ seen k, low ≤ n ∧ n ≤ high

theorem Summarizes.congr {seen seen' : Nat → List Nat} {shape : MinMax}
    (h : Summarizes seen shape) (hs : ∀ k, seen k = seen' k) : Summarizes seen' shape := by
  have : seen = seen' := funext hs
  rwa [← this]

/-- The numbers `seen`, and `more` at `depth` and below. -/
def seenAt (seen : Nat → List Nat) (depth : Nat) (more : Nat → List Nat) (k : Nat) : List Nat :=
  seen k ++ if depth ≤ k then more (k - depth) else []

theorem widen_length (length depth : Nat) (shape : MinMax) :
    shape.length ≤ (widen length depth shape).length := by
  unfold widen
  split <;> simp

theorem widen_lt {depth : Nat} {shape : MinMax} (h : depth ≤ shape.length) (length : Nat) :
    depth < (widen length depth shape).length := by
  unfold widen
  split
  · simp only [List.length_append, List.length_singleton]
    omega
  · rename_i heq
    rw [List.length_set]
    exact (List.getElem?_eq_some_iff.mp heq).1

theorem widen_summarizes {seen : Nat → List Nat} {shape : MinMax} {depth : Nat}
    (h : Summarizes seen shape) (hdepth : depth ≤ shape.length) (length : Nat) :
    Summarizes (fun k => seen k ++ if k = depth then [length] else [])
      (widen length depth shape) := by
  intro k
  have hk := h k
  have hd := h depth
  unfold widen
  cases heq : shape[depth]? with
  | none =>
      -- the first list of this depth adds an entry to the shape
      have hlen : shape.length = depth := by
        have := List.getElem?_eq_none_iff.mp heq
        omega
      rw [heq] at hd
      by_cases hkd : k = depth
      · subst hkd
        simp only [← hlen, List.getElem?_concat_length, if_true]
        rw [hlen, hd]
        simp
      · simp only [hkd, if_false, List.append_nil]
        rcases lt_or_ge k depth with hlt | hge
        · rw [List.getElem?_append_left (by omega)]
          exact hk
        · rw [List.getElem?_eq_none (by omega)] at hk
          rw [List.getElem?_eq_none (by simp only [List.length_append, List.length_singleton]; omega)]
          exact hk
  | some p =>
      obtain ⟨low, high⟩ := p
      -- the entry is widened to the new length
      have hlt : depth < shape.length := (List.getElem?_eq_some_iff.mp heq).1
      rw [heq] at hd
      obtain ⟨hlow, hhigh, hall⟩ := hd
      by_cases hkd : k = depth
      · subst hkd
        simp only [List.getElem?_set_self hlt, if_true, List.mem_append, List.mem_singleton]
        have hlh := hall low hlow
        refine ⟨?_, ?_, ?_⟩
        · rcases min_choice low length with hm | hm <;> simp [hm, hlow]
        · rcases max_choice high length with hm | hm <;> simp [hm, hhigh]
        · rintro n (hn | rfl)
          · have := hall n hn
            omega
          · omega
      · simp only [hkd, if_false, List.append_nil]
        rw [List.getElem?_set_ne (fun he => hkd he.symm)]
        exact hk

mutual

theorem minMaxShape_summarizes_from (t : Nest) {seen : Nat → List Nat} {shape : MinMax}
    {depth : Nat} (h : Summarizes seen shape) (hdepth : depth ≤ shape.length) :
    Summarizes (seenAt seen depth fun k => lengths k t) (minMaxShape t depth shape) ∧
      shape.length ≤ (minMaxShape t depth shape).length := by
  match t with
  | .leaf =>
      refine ⟨h.congr fun k => ?_, le_rfl⟩
      simp [seenAt]
  | .node items =>
      have hw := widen_summarizes h hdepth items.length
      have hl := widen_length items.length depth shape
      obtain ⟨hs, hlen⟩ := minMaxShapes_summarizes_from items hw (widen_lt hdepth items.length)
      refine ⟨hs.congr fun k => ?_, hl.trans hlen⟩
      -- the list itself is at `depth`, its items are below
      unfold seenAt
      rcases lt_trichotomy k depth with hk | rfl | hk
      · have h1 : ¬ depth + 1 ≤ k := by omega
        have h2 : ¬ depth ≤ k := by omega
        have h3 : k ≠ depth := by omega
        simp [h1, h2, h3]
      · simp
      · obtain ⟨j, rfl⟩ := Nat.exists_eq_add_of_lt hk
        have h1 : depth + 1 ≤ depth + j + 1 := by omega
        have h2 : depth ≤ depth + j + 1 := by omega
        have h3 : depth + j + 1 ≠ depth := by omega
        have h4 : depth + j + 1 - (depth + 1) = j := by omega
        have h5 : depth + j + 1 - depth = j + 1 := by omega
        simp [h1, h2, h3, h4, h5]

theorem minMaxShapes_summarizes_from (items : List Nest) {seen : Nat → List Nat}
    {shape : MinMax} {depth : Nat} (h : Summarizes seen shape) (hdepth : depth ≤ shape.length) :
    Summarizes (seenAt seen depth fun k => items.flatMap (lengths k))
        (minMaxShapes items depth shape) ∧
      shape.length ≤ (minMaxShapes items depth shape).length := by
  match items with
  | [] =>
      refine ⟨h.congr fun k => ?_, le_rfl⟩
      simp [seenAt]
  | e :: items =>
      obtain ⟨he, hle⟩ := minMaxShape_summarizes_from e h hdepth
      obtain ⟨hs, hlen⟩ := minMaxShapes_summarizes_from items he (hdepth.trans hle)
      refine ⟨hs.congr fun k => ?_, hle.trans hlen⟩
      unfold seenAt
      by_cases hk : depth ≤ k <;> simp [hk]

end

/-- **The walk summarises the lengths.** -/
theorem minMaxShape_summarizes (t : Nest) :
    Summarizes (fun k => lengths k t) (minMaxShape t 0 []) := by
  have hnil : Summarizes (fun _ => []) [] := fun k => by simp
  refine (minMaxShape_summarizes_from t hnil (le_refl 0)).1.congr fun k => ?_
  simp [seenAt]

/-- The least and the greatest length agree at every depth if and only if the nesting is
rectangular. -/
theorem minMaxShape_rect (t : Nest) :
    (∀ p ∈ minMaxShape t 0 [], p.1 = p.2) ↔ Rect t := by
  have hsum := minMaxShape_summarizes t
  constructor
  · intro h k m hm n hn
    have hk := hsum k
    split at hk
    · have hnil : lengths k t = [] := hk
      rw [hnil] at hm
      cases hm
    · rename_i low high heq
      have hlh : low = high := h _ (List.mem_of_getElem? heq)
      have hm' := hk.2.2 m hm
      have hn' := hk.2.2 n hn
      omega
  · intro h p hp
    obtain ⟨k, hk⟩ := List.mem_iff_getElem?.mp hp
    have hs := hsum k
    rw [hk] at hs
    exact h k _ hs.1 _ hs.2.1

/-- The walk reaches `n` depths if and only if the nesting does. -/
theorem minMaxShape_deep (t : Nest) (n : Nat) : n ≤ (minMaxShape t 0 []).length ↔ Deep n t := by
  have hsum := minMaxShape_summarizes t
  constructor
  · intro h k hk hnil
    have hs := hsum k
    rw [List.getElem?_eq_getElem (by omega)] at hs
    have hmem : (minMaxShape t 0 [])[k].1 ∈ lengths k t := hs.1
    rw [hnil] at hmem
    cases hmem
  · intro h
    by_contra hlt
    have hs := hsum (minMaxShape t 0 []).length
    rw [List.getElem?_eq_none le_rfl] at hs
    exact h _ (by omega) hs

/-- The least length at a depth is one of those there. -/
theorem minMaxShape_mem (t : Nest) {k : Nat} {p : Nat × Nat}
    (h : (minMaxShape t 0 [])[k]? = some p) : p.1 ∈ lengths k t := by
  have hs := minMaxShape_summarizes t k
  rw [h] at hs
  exact hs.1

end LabComm.Library
