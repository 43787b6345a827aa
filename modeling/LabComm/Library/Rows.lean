import LabComm.Library.Parsing
import LabComm.Library.RowMajor

set_option autoImplicit false

/-! # Rows of a row-major array

A language without arrays of several dimensions has arrays of arrays, and the elements of a
row-major array have to be put into rows (`rowsOf`). A loop in a loop that parses the elements does
this (`Consumes.rows`), and walking over the rows gives the elements again (`leaves_rowsOf`).
-/

namespace LabComm.Library

section Rows

variable {α β ε : Type} (node : List β → β) (default : β)

/-- The elements `a` in rows, for the dimensions `ns`; the rows of an array are put together by
`node`. -/
def rowsOf : List Nat → List β → β
  | [], a => a.headD default
  | n :: ns, a => node ((List.range n).map fun i => rowsOf ns ((a.drop (i * ns.prod)).take ns.prod))

/-- The values that are `n` levels below a value. -/
def leaves (children : β → List β) : Nat → β → List β
  | 0, v => [v]
  | n + 1, v => (children v).flatMap (leaves children n)

/-- A loop in a loop, for the dimensions `ns`. -/
def timesRows (p : Parser ε β) : List Nat → Parser ε β
  | [] => p
  | n :: ns => node <$> times n (timesRows p ns)

variable {node default}

/-- An element of a row is one of the elements. -/
theorem mem_of_mem_chunk {a : List α} {x : α} {i k : Nat} (h : x ∈ (a.drop i).take k) : x ∈ a :=
  List.mem_of_mem_drop (List.mem_of_mem_take h)

/-- What holds of the elements and goes from the rows to the array of them holds of the array. -/
theorem rowsOf_induction {R : β → Prop} {P : List Nat → β → Prop} (hnil : ∀ x, R x → P [] x)
    (hcons : ∀ n ns items, items.length = n → (∀ x ∈ items, P ns x) → P (n :: ns) (node items))
    {ns : List Nat} {a : List β} (hlen : a.length = ns.prod) (h : ∀ x ∈ a, R x) :
    P ns (rowsOf node default ns a) := by
  induction ns generalizing a with
  | nil =>
      obtain ⟨x, rfl⟩ := List.length_eq_one_iff.mp hlen
      exact hnil x (h x List.mem_cons_self)
  | cons n ns ih =>
      rw [List.prod_cons] at hlen
      refine hcons n ns _ (by simp) fun x hx => ?_
      obtain ⟨i, hi, rfl⟩ := List.mem_map.mp hx
      exact ih (chunk_length hlen (List.mem_range.mp hi)) fun y hy => h y (mem_of_mem_chunk hy)

/-- The elements are found again, in order. -/
theorem leaves_rowsOf {children : β → List β} (hchildren : ∀ items, children (node items) = items)
    {ns : List Nat} {a : List β} (hlen : a.length = ns.prod) :
    leaves children ns.length (rowsOf node default ns a) = a := by
  induction ns generalizing a with
  | nil =>
      obtain ⟨x, rfl⟩ := List.length_eq_one_iff.mp hlen
      rfl
  | cons n ns ih =>
      rw [List.prod_cons] at hlen
      rw [List.length_cons, rowsOf, leaves, hchildren, List.flatMap_map]
      calc (List.range n).flatMap (fun i =>
              leaves children ns.length
                (rowsOf node default ns ((a.drop (i * ns.prod)).take ns.prod)))
          = (List.range n).flatMap (fun i => (a.drop (i * ns.prod)).take ns.prod) := by
            refine List.flatMap_congr fun i hi => ?_
            exact ih (chunk_length hlen (List.mem_range.mp hi))
        _ = a.take (n * ns.prod) := flatMap_chunks a n ns.prod
        _ = a := by rw [← hlen, List.take_length]

/-- What is parsed one after the other is put into rows. -/
theorem Consumes.rows {p : Parser ε β} {g : α → List UInt8} {f : α → β} {ns : List Nat}
    {a : List α} (hlen : a.length = ns.prod) (h : ∀ x ∈ a, Consumes p (g x) (f x)) :
    Consumes (timesRows node p ns) (a.flatMap g) (rowsOf node default ns (a.map f)) := by
  induction ns generalizing a with
  | nil =>
      obtain ⟨x, rfl⟩ := List.length_eq_one_iff.mp hlen
      have hx := h x List.mem_cons_self
      rwa [List.flatMap_singleton]
  | cons n ns ih =>
      rw [List.prod_cons] at hlen
      rw [timesRows, rowsOf]
      -- one row is one chunk
      have hchunk : ∀ i ∈ List.range n, Consumes (timesRows node p ns)
          (((a.drop (i * ns.prod)).take ns.prod).flatMap g)
          (rowsOf node default ns (((a.map f).drop (i * ns.prod)).take ns.prod)) := by
        intro i hi
        rw [← List.map_drop, ← List.map_take]
        exact ih (chunk_length hlen (List.mem_range.mp hi)) fun x hx => h x (mem_of_mem_chunk hx)
      have hall := (Consumes.times hchunk).map node
      have hbytes : (List.range n).flatMap (fun i =>
          ((a.drop (i * ns.prod)).take ns.prod).flatMap g) = a.flatMap g := by
        rw [← List.flatMap_assoc, flatMap_chunks, ← hlen, List.take_length]
      rwa [List.length_range, hbytes] at hall

/-- What holds of the elements of the two lists may be used. -/
theorem forall₂_mem {γ : Type} {Q S : α → γ → Prop} {a : List α} {b : List γ}
    (h : List.Forall₂ Q a b) (hS : ∀ x ∈ a, ∀ y ∈ b, Q x y → S x y) : List.Forall₂ S a b := by
  rw [List.forall₂_iff_zip]
  refine ⟨h.length_eq, fun hmem => ?_⟩
  have hxy := List.of_mem_zip hmem
  exact hS _ hxy.1 _ hxy.2 (List.forall₂_zip h hmem)

/-- The same for elements that are parsed as those of another list. -/
theorem Consumes.rows_forall₂ {p : Parser ε β} {g : α → List UInt8} {ns : List Nat} {a : List α}
    {b : List β} (hlen : a.length = ns.prod)
    (h : List.Forall₂ (fun x y => Consumes p (g x) y) a b) :
    Consumes (timesRows node p ns) (a.flatMap g) (rowsOf node default ns b) := by
  have hab := h.length_eq
  have hfst : (a.zip b).map Prod.fst = a := List.map_fst_zip hab.le
  have hsnd : (a.zip b).map Prod.snd = b := List.map_snd_zip hab.ge
  have hzip : (a.zip b).length = ns.prod := by
    rw [List.length_zip]
    omega
  have hread : Consumes (timesRows node p ns) ((a.zip b).flatMap fun x => g x.1)
      (rowsOf node default ns ((a.zip b).map Prod.snd)) :=
    Consumes.rows hzip fun x hx => List.forall₂_zip h hx
  have hbytes : (a.zip b).flatMap (fun x => g x.1) = a.flatMap g := by
    conv_rhs => rw [← hfst, List.flatMap_map]
  rwa [hbytes, hsnd] at hread

end Rows

end LabComm.Library
