import Mathlib.Tactic

set_option autoImplicit false

/-! # Doubly linked rings

Nodes with a link to the next node and one to the node before, in rings that each have a head: a
node that carries nothing and stays. `Ring k head l` says that the nodes after the head are `l`,
in this order, and that the links lead around in both directions.

A node can be inserted before any other (`Ring.insertBefore`) and taken out (`Ring.unlink`), and
neither changes a ring with other nodes (`Ring.congr`).
-/

namespace LabComm.Library

/-- The links of all nodes. -/
structure Links (P : Type) where
  next : P → P
  prev : P → P

section Links

variable {P : Type} [DecidableEq P]

/-- `x->next = y` -/
def Links.setNext (k : Links P) (x y : P) : Links P :=
  { k with next := Function.update k.next x y }

/-- `x->prev = y` -/
def Links.setPrev (k : Links P) (x y : P) : Links P :=
  { k with prev := Function.update k.prev x y }

/-- A new node `x` before `y`. -/
def Links.insertBefore (k : Links P) (x y : P) : Links P :=
  let k := k.setNext x y
  let k := k.setPrev x (k.prev y)
  let k := k.setNext (k.prev x) x
  k.setPrev (k.next x) x

/-- The nodes beside `x` are linked to each other. -/
def Links.unlink (k : Links P) (x : P) : Links P :=
  let k := k.setNext (k.prev x) (k.next x)
  k.setPrev (k.next x) (k.prev x)

end Links

/-! ## Chains -/

section Chain

variable {P : Type}

/-- From `a` the links lead through `l` to `b`, and back. -/
def Chain (k : Links P) (a : P) : List P → P → Prop
  | [], b => k.next a = b ∧ k.prev b = a
  | x :: l, b => k.next a = x ∧ k.prev x = a ∧ Chain k x l b

/-- The nodes after the head are `l`. -/
def Ring (k : Links P) (head : P) (l : List P) : Prop :=
  Chain k head l head ∧ (head :: l).Nodup

variable {k k' : Links P} {a b x head : P} {l m : List P}

theorem chain_append : Chain k a (l ++ x :: m) b ↔ Chain k a l x ∧ Chain k x m b := by
  induction l generalizing a with
  | nil => simp only [List.nil_append, Chain, and_assoc]
  | cons y l ih => simp only [List.cons_append, Chain, ih, and_assoc]

theorem Chain.next_eq (h : Chain k a l b) : k.next a = l.headD b := by
  cases l with
  | nil => exact h.1
  | cons x l => exact h.1

theorem Chain.prev_eq (h : Chain k a l b) : k.prev b = (a :: l).getLast (by simp) := by
  induction l generalizing a with
  | nil => exact h.2
  | cons x l ih =>
      rw [ih h.2.2]
      exact (List.getLast_cons (by simp)).symm

/-- Where the links are the same, so is a chain. -/
theorem Chain.congr (h : Chain k a l b) (hnext : ∀ z ∈ a :: l, k'.next z = k.next z)
    (hprev : ∀ z ∈ l ++ [b], k'.prev z = k.prev z) : Chain k' a l b := by
  induction l generalizing a with
  | nil =>
      refine ⟨?_, ?_⟩
      · rw [hnext a (by simp)]
        exact h.1
      · rw [hprev b (by simp)]
        exact h.2
  | cons x l ih =>
      refine ⟨?_, ?_, ?_⟩
      · rw [hnext a (by simp)]
        exact h.1
      · rw [hprev x (by simp)]
        exact h.2.1
      · exact ih h.2.2 (fun z hz => hnext z (List.mem_cons_of_mem a hz))
          (fun z hz => hprev z (List.mem_cons_of_mem x hz))

/-- A chain that ends elsewhere, with the last link to there. -/
theorem Chain.redirect {c : P} (h : Chain k a l b) (hnd : (a :: l).Nodup)
    (hlast : k'.next (k.prev b) = c) (hback : k'.prev c = k.prev b)
    (hnext : ∀ z ∈ a :: l, z ≠ k.prev b → k'.next z = k.next z)
    (hprev : ∀ z ∈ l, k'.prev z = k.prev z) : Chain k' a l c := by
  induction l generalizing a with
  | nil =>
      rw [h.2] at hlast hback
      exact ⟨hlast, hback⟩
  | cons x l ih =>
      have hne : a ≠ k.prev b := by
        rw [h.prev_eq, List.getLast_cons (by simp)]
        intro heq
        have hmem := List.getLast_mem (l := x :: l) (by simp)
        rw [← heq] at hmem
        exact (List.nodup_cons.mp hnd).1 hmem
      refine ⟨?_, ?_, ?_⟩
      · rw [hnext a (by simp) hne]
        exact h.1
      · rw [hprev x (by simp)]
        exact h.2.1
      · exact ih h.2.2 (List.nodup_cons.mp hnd).2
          (fun z hz => hnext z (List.mem_cons_of_mem a hz))
          (fun z hz => hprev z (List.mem_cons_of_mem x hz))

end Chain

/-! ## Rings -/

section Ring

variable {P : Type} {k k' : Links P} {x y head : P} {l m : List P}

/-- The first node is the one after the head. -/
theorem Ring.next_head (h : Ring k head l) : k.next head = l.headD head :=
  h.1.next_eq

theorem Ring.next_head_cons (h : Ring k head (x :: l)) : k.next head = x := h.1.1

/-- A ring is empty when its head is linked to itself. -/
theorem Ring.next_head_iff (h : Ring k head l) : k.next head = head ↔ l = [] := by
  cases l with
  | nil => simp [h.1.1]
  | cons x l =>
      have hne : x ≠ head := by
        intro heq
        have hnd := h.2
        rw [heq] at hnd
        simp at hnd
      simp [h.next_head_cons, hne]

theorem ring_nil (hnext : k.next head = head) (hprev : k.prev head = head) : Ring k head [] :=
  ⟨⟨hnext, hprev⟩, by simp⟩

/-- Where the links of its nodes are the same, so is a ring. -/
theorem Ring.congr (h : Ring k head l) (hnext : ∀ z ∈ head :: l, k'.next z = k.next z)
    (hprev : ∀ z ∈ head :: l, k'.prev z = k.prev z) : Ring k' head l := by
  refine ⟨h.1.congr hnext ?_, h.2⟩
  intro z hz
  apply hprev
  simpa [or_comm] using hz

/-- The nodes in front of a node of a ring. -/
theorem Ring.chain_before (h : Ring k head (l ++ m)) : Chain k head l (m.headD head) := by
  cases m with
  | nil => simpa using h.1
  | cons y m => exact (chain_append.mp h.1).1

/-- The node before a node of a ring is one of the ring. -/
theorem Ring.prev_mem (h : Ring k head (l ++ m)) :
    k.prev (m.headD head) ∈ head :: l := by
  rw [h.chain_before.prev_eq]
  exact List.getLast_mem _

/-- What comes before a node of a ring is another node. -/
theorem Ring.headD_not_mem (h : Ring k head (l ++ m)) : m.headD head ∉ l := by
  have hnd := h.2
  rw [List.nodup_cons, List.mem_append, List.nodup_append] at hnd
  cases m with
  | nil => exact fun hmem => hnd.1 (.inl hmem)
  | cons y m => exact fun hmem => hnd.2.2.2 y hmem y List.mem_cons_self rfl

/-- Nothing of the ring is the new node. -/
theorem ne_of_not_mem {z : P} (hx : x ∉ head :: (l ++ m)) (hz : z ∈ head :: l ∨ z ∈ m) :
    z ≠ x := by
  rintro rfl
  apply hx
  simp only [List.mem_cons, List.mem_append] at hz ⊢
  tauto

variable [DecidableEq P]

theorem insertBefore_next (z : P) :
    (k.insertBefore x y).next z =
      if z = k.prev y then x else if z = x then y else k.next z := by
  simp [Links.insertBefore, Links.setNext, Links.setPrev, Function.update_apply]

theorem insertBefore_prev (hx : x ≠ k.prev y) (z : P) :
    (k.insertBefore x y).prev z =
      if z = y then x else if z = x then k.prev y else k.prev z := by
  simp [Links.insertBefore, Links.setNext, Links.setPrev, Function.update_apply, hx]

theorem unlink_next (z : P) :
    (k.unlink x).next z = if z = k.prev x then k.next x else k.next z := by
  simp [Links.unlink, Links.setNext, Links.setPrev, Function.update_apply]

theorem unlink_prev (z : P) :
    (k.unlink x).prev z = if z = k.next x then k.prev x else k.prev z := by
  by_cases hx : x = k.prev x
  · simp [Links.unlink, Links.setNext, Links.setPrev, Function.update_apply]
  · simp [Links.unlink, Links.setNext, Links.setPrev, Function.update_apply]

section InsertBefore

variable (h : Ring k head (l ++ m)) (hx : x ∉ head :: (l ++ m))

include h hx

/-- The nodes up to the new one. -/
theorem Ring.insertBefore_front : Chain (k.insertBefore x (m.headD head)) head l x := by
  have hxp : x ≠ k.prev (m.headD head) := (ne_of_not_mem hx (.inl h.prev_mem)).symm
  have hxy : x ≠ m.headD head := by
    cases m with
    | nil => exact (ne_of_not_mem hx (.inl List.mem_cons_self)).symm
    | cons y m => exact (ne_of_not_mem hx (.inr List.mem_cons_self)).symm
  have hnd : (head :: l).Nodup := by
    have hall := h.2
    rw [← List.cons_append] at hall
    exact hall.of_append_left
  apply h.chain_before.redirect hnd
  · rw [insertBefore_next, if_pos rfl]
  · rw [insertBefore_prev hxp, if_neg hxy, if_pos rfl]
  · intro z hz hne
    rw [insertBefore_next, if_neg hne, if_neg (ne_of_not_mem hx (.inl hz))]
  · intro z hz
    have hzy : z ≠ m.headD head := fun heq => h.headD_not_mem (heq ▸ hz)
    have hzx := ne_of_not_mem hx (.inl (List.mem_cons_of_mem head hz))
    rw [insertBefore_prev hxp, if_neg hzy, if_neg hzx]

/-- The nodes from the new one on. -/
theorem Ring.insertBefore_back : Chain (k.insertBefore x (m.headD head)) x m head := by
  have hprev := h.prev_mem
  have hxp : x ≠ k.prev (m.headD head) := (ne_of_not_mem hx (.inl hprev)).symm
  have hlink : (k.insertBefore x (m.headD head)).next x = m.headD head ∧
      (k.insertBefore x (m.headD head)).prev (m.headD head) = x := by
    rw [insertBefore_next, insertBefore_prev hxp, if_neg hxp, if_pos rfl, if_pos rfl]
    exact ⟨rfl, rfl⟩
  cases m with
  | nil => exact hlink
  | cons y m =>
      have hnd := h.2
      rw [List.nodup_cons, List.mem_append, List.nodup_append] at hnd
      obtain ⟨hhead, _, hndm, hdisj⟩ := hnd
      rw [List.headD_cons] at hprev hxp hlink ⊢
      refine ⟨hlink.1, hlink.2, ?_⟩
      -- the links between the old nodes are those that they were
      apply (chain_append.mp h.1).2.congr
      · intro w hw
        have hwp : w ≠ k.prev y := by
          rintro rfl
          rcases List.mem_cons.mp hprev with hwh | hwl
          · exact hhead (.inr (hwh ▸ hw))
          · exact hdisj _ hwl _ hw rfl
        rw [insertBefore_next, if_neg hwp, if_neg (ne_of_not_mem hx (.inr hw))]
      · intro w hw
        rw [List.mem_append, List.mem_singleton] at hw
        have hwy : w ≠ y := by
          rintro rfl
          rcases hw with hw | hw
          · exact (List.nodup_cons.mp hndm).1 hw
          · exact hhead (.inr (hw ▸ List.mem_cons_self))
        have hwx : w ≠ x := by
          rcases hw with hw | rfl
          · exact ne_of_not_mem hx (.inr (List.mem_cons_of_mem y hw))
          · exact ne_of_not_mem hx (.inl List.mem_cons_self)
        rw [insertBefore_prev hxp, if_neg hwy, if_neg hwx]

end InsertBefore

/-- **A new node comes between the nodes before `y` and those from `y` on.** -/
theorem Ring.insertBefore (h : Ring k head (l ++ m)) (hx : x ∉ head :: (l ++ m))
    (hy : m.headD head = y) : Ring (k.insertBefore x y) head (l ++ x :: m) := by
  subst hy
  refine ⟨chain_append.mpr ⟨h.insertBefore_front hx, h.insertBefore_back hx⟩, ?_⟩
  have hperm : (head :: (l ++ x :: m)).Perm (x :: head :: (l ++ m)) :=
    (List.perm_middle.cons head).trans (List.Perm.swap x head _)
  exact hperm.nodup_iff.mpr (List.nodup_cons.mpr ⟨hx, h.2⟩)

/-- **What is taken out is no longer in the ring.** -/
theorem Ring.unlink (h : Ring k head (l ++ x :: m)) : Ring (k.unlink x) head (l ++ m) := by
  have hnd := h.2
  rw [List.nodup_cons, List.mem_append, List.nodup_append, List.mem_cons, List.nodup_cons] at hnd
  obtain ⟨hhead, hndl, ⟨hxm, hndm⟩, hdisj⟩ := hnd
  obtain ⟨hl, hm⟩ := chain_append.mp h.1
  -- the neighbours of `x`
  have hprev : k.prev x ∈ head :: l := by
    rw [hl.prev_eq]
    exact List.getLast_mem _
  have hnext : k.next x = m.headD head := hm.next_eq
  have hprev_next : k.prev (k.next x) = x := by
    cases m with
    | nil =>
        rw [hm.1]
        exact hm.2
    | cons y m =>
        rw [hm.1]
        exact hm.2.1
  have hxl : x ∉ l := fun hmem => hdisj x hmem x List.mem_cons_self rfl
  have hxh : x ≠ head := fun heq => hhead (.inr (.inl heq.symm))
  constructor
  · -- up to `x` the chain is the old one, and its end leads past `x`
    have hfirst : Chain (k.unlink x) head l (k.next x) := by
      apply hl.redirect (List.nodup_cons.mpr ⟨fun hmem => hhead (.inl hmem), hndl⟩)
      · rw [unlink_next, if_pos rfl]
      · rw [unlink_prev, if_pos rfl]
      · intro z _ hne
        rw [unlink_next, if_neg hne]
      · intro z hz
        have hzn : z ≠ k.next x := by
          intro heq
          rw [heq] at hz
          have hmem : k.next x ∈ m ++ [head] := by
            rw [hnext]
            cases m <;> simp
          rw [List.mem_append, List.mem_singleton] at hmem
          rcases hmem with hmem | hmem
          · exact hdisj _ hz _ (List.mem_cons_of_mem x hmem) rfl
          · exact hhead (.inl (hmem ▸ hz))
        rw [unlink_prev, if_neg hzn]
    cases m with
    | nil =>
        rw [List.append_nil]
        rw [hm.1] at hfirst
        exact hfirst
    | cons y m =>
        rw [hm.1] at hfirst
        apply chain_append.mpr
        refine ⟨hfirst, ?_⟩
        apply hm.2.2.congr
        · intro w hw
          -- behind `x` nothing changes but the way back
          have hwp : w ≠ k.prev x := by
            intro heq
            rw [← heq] at hprev
            rcases List.mem_cons.mp hprev with hwh | hwl
            · exact hhead (.inr (.inr (hwh ▸ hw)))
            · exact hdisj w hwl w (List.mem_cons_of_mem x hw) rfl
          rw [unlink_next, if_neg hwp]
        · intro w hw
          -- nor does the way back of any other element
          have hwy : w ≠ k.next x := by
            rw [hm.1]
            intro heq
            rw [heq, List.mem_append, List.mem_singleton] at hw
            rcases hw with hw | hw
            · exact (List.nodup_cons.mp hndm).1 hw
            · exact hhead (.inr (.inr (hw ▸ List.mem_cons_self)))
          rw [unlink_prev, if_neg hwy]
  · rw [List.nodup_cons, List.mem_append, List.nodup_append]
    refine ⟨?_, hndl, hndm, ?_⟩
    · rintro (hmem | hmem)
      · exact hhead (.inl hmem)
      · exact hhead (.inr (.inr hmem))
    · exact fun u hu v hv => hdisj u hu v (List.mem_cons_of_mem x hv)

/-- A ring that has neither `y` nor the node before it stays when a node comes between them. -/
theorem Ring.insertBefore_other (h : Ring k head l) (hxp : x ≠ k.prev y)
    (hx : x ∉ head :: l) (hy : y ∉ head :: l) (hprev : k.prev y ∉ head :: l) :
    Ring (k.insertBefore x y) head l := by
  apply h.congr
  · intro z hz
    have hzp : z ≠ k.prev y := fun heq => hprev (heq ▸ hz)
    have hzx : z ≠ x := fun heq => hx (heq ▸ hz)
    rw [insertBefore_next, if_neg hzp, if_neg hzx]
  · intro z hz
    have hzy : z ≠ y := fun heq => hy (heq ▸ hz)
    have hzx : z ≠ x := fun heq => hx (heq ▸ hz)
    rw [insertBefore_prev hxp, if_neg hzy, if_neg hzx]

/-- A ring that has neither neighbour of `x` stays when `x` is taken out. -/
theorem Ring.unlink_other (h : Ring k head l) (hnext : k.next x ∉ head :: l)
    (hprev : k.prev x ∉ head :: l) : Ring (k.unlink x) head l := by
  apply h.congr
  · intro z hz
    have hzp : z ≠ k.prev x := fun heq => hprev (heq ▸ hz)
    rw [unlink_next, if_neg hzp]
  · intro z hz
    have hzn : z ≠ k.next x := fun heq => hnext (heq ▸ hz)
    rw [unlink_prev, if_neg hzn]

end Ring

end LabComm.Library
