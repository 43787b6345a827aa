import Mathlib.Tactic

set_option autoImplicit false

/-! # Sorting what was in no order

A stable sort of a list leaves what is tied in the order it was in. So the result is the same for
every order of the list just if no two different elements are tied (`mergeSort_orderFree_iff`).
-/

namespace LabComm.Library

variable {α : Type} {le : α → α → Bool}

section Preorder

variable (htrans : ∀ a b c, le a b = true → le b c = true → le a c = true)
  (htotal : ∀ a b, (le a b || le b a) = true)

include htrans htotal

/-- What is tied stays in its order. -/
theorem filter_mergeSort {p : α → Bool} (htied : ∀ a b, p a = true → p b = true → le a b = true)
    (l : List α) : (l.mergeSort le).filter p = l.filter p := by
  have hsorted : (l.filter p).Pairwise fun a b => le a b = true := by
    refine List.pairwise_of_forall_mem_list fun a ha b hb => ?_
    exact htied a b (List.mem_filter.mp ha).2 (List.mem_filter.mp hb).2
  -- a sorted part of the list is a part of the result, in its order
  have hsub : (l.filter p).Sublist (l.mergeSort le) :=
    List.sublist_mergeSort htrans htotal hsorted List.filter_sublist
  have hfilter : (l.filter p).Sublist ((l.mergeSort le).filter p) := by
    have h := hsub.filter p
    rwa [List.filter_filter, List.filter_congr fun a _ => Bool.and_self (p a)] at h
  -- and the result has no more of what is tied
  have hlength := ((List.mergeSort_perm l le).filter p).length_eq
  exact (hfilter.eq_of_length hlength.symm).symm

/-- **The order does not matter** just if no two different elements are tied. -/
theorem mergeSort_orderFree_iff (l : List α) :
    (∀ l' : List α, l'.Perm l → l'.mergeSort le = l.mergeSort le) ↔
      ∀ a ∈ l, ∀ b ∈ l, le a b = true → le b a = true → a = b := by
  constructor
  · intro hfree a ha b hb hab hba
    by_contra hne
    -- two orders in which the tied elements come first, one way and the other
    obtain ⟨rest, hrest⟩ : ∃ rest, l.Perm (a :: b :: rest) := by
      classical
      have hmem : b ∈ l.erase a := (List.mem_erase_of_ne (Ne.symm hne)).mpr hb
      exact ⟨(l.erase a).erase b,
        (List.perm_cons_erase ha).trans ((List.perm_cons_erase hmem).cons a)⟩
    have hsame : (a :: b :: rest).mergeSort le = (b :: a :: rest).mergeSort le := by
      rw [hfree _ hrest.symm, hfree _ ((List.Perm.swap a b rest).trans hrest.symm)]
    have htied : ∀ x y, (le a x && le x a) = true → (le a y && le y a) = true →
        le x y = true := by
      intro x y hx hy
      rw [Bool.and_eq_true] at hx hy
      exact htrans x a y hx.2 hy.1
    have hfilter : (a :: b :: rest).filter (fun x => le a x && le x a) =
        (b :: a :: rest).filter fun x => le a x && le x a := by
      rw [← filter_mergeSort htrans htotal htied, hsame, filter_mergeSort htrans htotal htied]
    have haa : le a a = true := by simpa using htotal a a
    have hhead := congrArg List.head? hfilter
    rw [List.filter_cons_of_pos (by simp [haa]),
      @List.filter_cons_of_pos _ _ b (a :: rest) (by simp [hab, hba])] at hhead
    exact hne (Option.some.inj hhead)
  · intro hties l' hperm
    -- both results are sorted, and the order is antisymmetric on what is in them
    have hmem : ∀ {x}, x ∈ l'.mergeSort le → x ∈ l := fun hx =>
      hperm.mem_iff.mp (List.mem_mergeSort.mp hx)
    refine List.Perm.eq_of_pairwise (fun a b ha hb => ?_)
      (List.pairwise_mergeSort htrans htotal l') (List.pairwise_mergeSort htrans htotal l)
      ((List.mergeSort_perm l' le).trans (hperm.trans (List.mergeSort_perm l le).symm))
    exact hties a (hmem ha) b (List.mem_mergeSort.mp hb)

end Preorder

end LabComm.Library
