import Mathlib.Tactic

set_option autoImplicit false

/-! # Dictionaries

A dictionary as the list of its keys and values in the order in which the keys were first set.
Every operation keeps each key once (`setItem_nodup`).
-/

namespace LabComm.Library

section Dictionary

variable {K V : Type} [DecidableEq K]

/-- `d[k] = v` -/
def setItem (k : K) (v : V) : List (K × V) → List (K × V)
  | [] => [(k, v)]
  | p :: d => if p.1 = k then (k, v) :: d else p :: setItem k v d

/-- The dictionary that a list of keys and values makes, where the last value of a key counts. -/
def dict (l : List (K × V)) : List (K × V) := l.foldl (fun d p => setItem p.1 p.2 d) []

/-- The value of a key. -/
def getItem (k : K) (d : List (K × V)) : Option V := (d.find? fun p => p.1 = k).map Prod.snd

@[simp] theorem getItem_nil (k : K) : getItem k ([] : List (K × V)) = none := rfl

theorem getItem_cons (k : K) (p : K × V) (d : List (K × V)) :
    getItem k (p :: d) = if p.1 = k then some p.2 else getItem k d := by
  unfold getItem
  by_cases h : p.1 = k <;> simp [h]

theorem getItem_setItem (k k' : K) (v : V) (d : List (K × V)) :
    getItem k' (setItem k v d) = if k' = k then some v else getItem k' d := by
  induction d with
  | nil =>
      rw [setItem, getItem_cons]
      by_cases h : k' = k
      · simp [h]
      · rw [if_neg h, if_neg (fun hk => h hk.symm)]
  | cons p d ih =>
      unfold setItem
      split
      · rename_i hp
        rw [getItem_cons, getItem_cons, hp]
        by_cases h : k' = k
        · simp [h]
        · rw [if_neg (fun hk : k = k' => h hk.symm), if_neg h,
            if_neg (fun hk : k = k' => h hk.symm)]
      · rename_i hp
        rw [getItem_cons, getItem_cons, ih]
        by_cases h : k' = k
        · rw [if_pos h, if_pos h, if_neg (by rw [h]; exact hp)]
        · simp [h]

section Map

variable {K' V' : Type} [DecidableEq K'] {f : K → K'} (hf : Function.Injective f) (g : V → V')

include hf

/-- The dictionary with other keys and values. -/
theorem getItem_map (k : K) (d : List (K × V)) :
    getItem (f k) (d.map (Prod.map f g)) = (getItem k d).map g := by
  induction d with
  | nil => rfl
  | cons p d ih =>
      rw [List.map_cons, getItem_cons, getItem_cons, ih, Prod.map_fst]
      by_cases h : p.1 = k
      · rw [if_pos h, if_pos (congrArg f h)]
        rfl
      · rw [if_neg h, if_neg (fun hk => h (hf hk))]

theorem setItem_map (k : K) (v : V) (d : List (K × V)) :
    setItem (f k) (g v) (d.map (Prod.map f g)) = (setItem k v d).map (Prod.map f g) := by
  induction d with
  | nil => rfl
  | cons p d ih =>
      rw [List.map_cons, setItem, setItem, Prod.map_fst]
      by_cases h : p.1 = k
      · rw [if_pos h, if_pos (congrArg f h)]
        rfl
      · rw [if_neg h, if_neg (fun hk => h (hf hk)), ih]
        rfl

end Map

/-- The value of a key comes from the list. -/
theorem mem_of_getItem {k : K} {v : V} {d : List (K × V)} (h : getItem k d = some v) :
    (k, v) ∈ d := by
  unfold getItem at h
  rw [Option.map_eq_some_iff] at h
  obtain ⟨p, hp, rfl⟩ := h
  have hk : p.1 = k := by simpa using List.find?_some hp
  rw [← hk]
  exact List.mem_of_find?_eq_some hp

/-- Where each key is once, every value in the list is that of its key. -/
theorem getItem_of_mem {k : K} {v : V} {d : List (K × V)} (hd : (d.map Prod.fst).Nodup)
    (h : (k, v) ∈ d) : getItem k d = some v := by
  induction d with
  | nil => simp at h
  | cons p d ih =>
      rw [List.map_cons, List.nodup_cons] at hd
      rw [getItem_cons]
      rcases List.mem_cons.mp h with rfl | hmem
      · simp
      · have hne : p.1 ≠ k := by
          intro hk
          exact hd.1 (hk ▸ List.mem_map_of_mem (f := Prod.fst) hmem)
        rw [if_neg hne, ih hd.2 hmem]

theorem getItem_eq_none {k : K} {d : List (K × V)} (h : k ∉ d.map Prod.fst) :
    getItem k d = none := by
  unfold getItem
  rw [Option.map_eq_none_iff, List.find?_eq_none]
  intro p hp hk
  exact h (List.mem_map.mpr ⟨p, hp, by simpa using hk⟩)

theorem exists_getItem {k : K} {d : List (K × V)} (h : k ∈ d.map Prod.fst) :
    ∃ v, getItem k d = some v := by
  obtain ⟨p, hp, rfl⟩ := List.mem_map.mp h
  unfold getItem
  cases hfind : d.find? fun q => q.1 = p.1 with
  | none => exact absurd (by simp) (List.find?_eq_none.mp hfind p hp)
  | some q => exact ⟨q.2, rfl⟩

theorem setItem_keys (k : K) (v : V) (d : List (K × V)) :
    (setItem k v d).map Prod.fst =
      if k ∈ d.map Prod.fst then d.map Prod.fst else d.map Prod.fst ++ [k] := by
  induction d with
  | nil => rfl
  | cons p d ih =>
      unfold setItem
      by_cases h : p.1 = k
      · simp [h]
      · rw [if_neg h, List.map_cons, ih, List.map_cons]
        have hk : k ≠ p.1 := fun hk => h hk.symm
        by_cases hmem : k ∈ d.map Prod.fst
        · rw [if_pos hmem, if_pos (List.mem_cons_of_mem _ hmem)]
        · rw [if_neg hmem, if_neg (by simp only [List.mem_cons, hk, hmem, or_self, not_false_eq_true]),
            List.cons_append]

theorem setItem_nodup (k : K) (v : V) {d : List (K × V)} (h : (d.map Prod.fst).Nodup) :
    ((setItem k v d).map Prod.fst).Nodup := by
  rw [setItem_keys]
  split
  · exact h
  · rename_i hk
    exact List.nodup_append.mpr ⟨h, List.nodup_singleton k, by
      intro a ha b hb hab
      rw [List.mem_singleton] at hb
      exact hk (hb ▸ hab ▸ ha)⟩

/-- A dictionary has each key once. -/
theorem dict_nodup (l : List (K × V)) : ((dict l).map Prod.fst).Nodup := by
  unfold dict
  have hfold : ∀ d : List (K × V), (d.map Prod.fst).Nodup →
      ((l.foldl (fun d p => setItem p.1 p.2 d) d).map Prod.fst).Nodup := by
    induction l with
    | nil => exact fun d h => h
    | cons p l ih => exact fun d h => ih _ (setItem_nodup p.1 p.2 h)
  exact hfold [] List.nodup_nil

theorem setItem_of_not_mem {k : K} {d : List (K × V)} (v : V) (h : k ∉ d.map Prod.fst) :
    setItem k v d = d ++ [(k, v)] := by
  induction d with
  | nil => rfl
  | cons p d ih =>
      rw [List.map_cons, List.mem_cons, not_or] at h
      unfold setItem
      rw [if_neg (fun hp => h.1 hp.symm), ih h.2, List.cons_append]

/-- A list that has each key once is the dictionary it makes. -/
theorem dict_of_nodup {l : List (K × V)} (h : (l.map Prod.fst).Nodup) : dict l = l := by
  unfold dict
  have hfold : ∀ d : List (K × V), ((d ++ l).map Prod.fst).Nodup →
      l.foldl (fun d p => setItem p.1 p.2 d) d = d ++ l := by
    induction l with
    | nil => simp
    | cons p l ih =>
        intro d hd
        have hnew : p.1 ∉ d.map Prod.fst := by
          rw [List.map_append, List.nodup_append] at hd
          exact fun hp => hd.2.2 p.1 hp p.1 (by simp) rfl
        rw [List.foldl_cons, setItem_of_not_mem p.2 hnew,
          ih (by rw [List.map_cons] at h; exact h.of_cons) _ (by simpa using hd)]
        simp
  exact hfold [] (by simpa using h)

theorem setItem_length (k : K) (v : V) (d : List (K × V)) :
    (setItem k v d).length = if k ∈ d.map Prod.fst then d.length else d.length + 1 := by
  have hkeys := congrArg List.length (setItem_keys k v d)
  rw [List.length_map] at hkeys
  rw [hkeys]
  split <;> simp

theorem dict_length_from (l d : List (K × V)) :
    (l.foldl (fun d p => setItem p.1 p.2 d) d).length ≤ d.length + l.length ∧
      ((d.map Prod.fst).Nodup →
        (l.foldl (fun d p => setItem p.1 p.2 d) d).length = d.length + l.length →
        ((d ++ l).map Prod.fst).Nodup) := by
  induction l generalizing d with
  | nil => simp
  | cons p l ih =>
      obtain ⟨hle, hnodup⟩ := ih (setItem p.1 p.2 d)
      have hlen := setItem_length p.1 p.2 d
      simp only [List.foldl_cons, List.length_cons]
      by_cases hp : p.1 ∈ d.map Prod.fst
      · -- a key that is set again makes the dictionary too short
        rw [if_pos hp] at hlen
        refine ⟨by omega, fun _ h => by omega⟩
      · rw [if_neg hp] at hlen
        refine ⟨by omega, fun hd h => ?_⟩
        have hall := hnodup (setItem_nodup p.1 p.2 hd) (by omega)
        rw [setItem_of_not_mem p.2 hp] at hall
        simpa using hall

theorem dict_length_le (l : List (K × V)) : (dict l).length ≤ l.length := by
  simpa [dict] using (dict_length_from l []).1

/-- A list that loses nothing when it is made into a dictionary has each key once. -/
theorem nodup_of_dict_length {l : List (K × V)} (h : (dict l).length = l.length) :
    (l.map Prod.fst).Nodup := by
  simpa using (dict_length_from l []).2 List.nodup_nil (by simpa [dict] using h)

/-- A value that is set last, or was there. -/
theorem getItem_foldl {k : K} {v : V} (l d : List (K × V))
    (h : getItem k (l.foldl (fun d p => setItem p.1 p.2 d) d) = some v) :
    (k, v) ∈ l ∨ getItem k d = some v := by
  induction l generalizing d with
  | nil => exact .inr h
  | cons p l ih =>
      rcases ih _ h with hmem | hset
      · exact .inl (List.mem_cons_of_mem p hmem)
      · rw [getItem_setItem] at hset
        split at hset
        · rename_i hk
          rw [hk, ← Option.some.inj hset]
          exact .inl List.mem_cons_self
        · exact .inr hset

theorem mem_of_getItem_dict {k : K} {v : V} {l : List (K × V)} (h : getItem k (dict l) = some v) :
    (k, v) ∈ l := by
  rcases getItem_foldl l [] h with hmem | hnil
  · exact hmem
  · simp at hnil

theorem exists_getItem_foldl {k : K} (l d : List (K × V))
    (h : k ∈ l.map Prod.fst ∨ ∃ v, getItem k d = some v) :
    ∃ v, getItem k (l.foldl (fun d p => setItem p.1 p.2 d) d) = some v := by
  induction l generalizing d with
  | nil => exact h.resolve_left (by simp)
  | cons p l ih =>
      apply ih
      by_cases hk : k = p.1
      · exact .inr ⟨p.2, by rw [getItem_setItem, if_pos hk]⟩
      · rcases h with hmem | hold
        · rw [List.map_cons, List.mem_cons] at hmem
          exact .inl (hmem.resolve_left hk)
        · rw [getItem_setItem, if_neg hk]
          exact .inr hold

/-- Every key of the list has a value. -/
theorem exists_getItem_dict {k : K} {l : List (K × V)} (h : k ∈ l.map Prod.fst) :
    ∃ v, getItem k (dict l) = some v :=
  exists_getItem_foldl l [] (.inl h)

end Dictionary

end LabComm.Library
