import LabComm.C.ArrayAllocation
import LabComm.C.Sizeof
import LabComm.Library.Memory
import LabComm.Library.Together

set_option autoImplicit false

/-! # Values in memory

What a variable of a generated C type holds (`Slot`), the blocks its pointers lead to
(`Contents`), and when the two store a value of the type (`Holds`). `Holds` comes with the list of
the blocks that belong to the stored value: one for each string and for each variable array.

An array without elements is a block without slots; `malloc` may return the null pointer for it,
which `free` accepts.
-/

namespace LabComm.C

open Library

/-! ## Objects -/

/-- What is stored in an object of a generated C type. -/
inductive Slot where
  | unset
  | bits (n : Nat)
  /-- `char *` -/
  | chars (p : Nat)
  | ref (s : Option Nat)
  | struct (fields : List Slot)
  /-- `struct { … a[…]; }` -/
  | fixedArray (a : List Slot)
  /-- `struct { int n_0; …; … *a; }`; the entry of a literal dimension is not stored. -/
  | variableArray (n : List Int) (a : Nat)

/-- What is in an allocated block. -/
inductive Contents where
  | string (bytes : List UInt8)
  | elements (a : List Slot)

/-- A program on the memory of the generated code. -/
abbrev MemoryM (ρ : Type) := Program ρ Contents

/-- `a[i]` -/
def slotAt (a : List Slot) (i : Int) : Option Slot := if 0 ≤ i then a[i.toNat]? else none

/-- `a[i] = x` -/
def setSlot (a : List Slot) (i : Int) (x : Slot) : Option (List Slot) :=
  if 0 ≤ i ∧ i.toNat < a.length then some (a.set i.toNat x) else none

theorem slotAt_natCast (a : List Slot) (k : Nat) : slotAt a (k : Int) = a[k]? := by
  rw [slotAt, if_pos (by omega), Int.toNat_natCast]

theorem setSlot_natCast {a : List Slot} {k : Nat} (h : k < a.length) (x : Slot) :
    setSlot a (k : Int) x = some (a.set k x) := by
  rw [setSlot, if_pos ⟨by omega, by rwa [Int.toNat_natCast]⟩, Int.toNat_natCast]

/-! ## Stored values -/

mutual

/-- The object stores the value, with the blocks `as` of the heap. -/
def Holds (h : Heap Contents) : DataType → Slot → Value → List Nat → Prop
  | .void, x, v, as => x = .unset ∧ v = .unset ∧ as = []
  | .prim .string, x, v, as => ∃ p s, x = .chars p ∧ v = .string s ∧
      h.block p = some (.string (s ++ [0])) ∧ as = [p]
  | .prim .sample, x, v, as => ∃ s, x = .ref s ∧ v = .ref s ∧ as = []
  | .prim _, x, v, as => ∃ n, x = .bits n ∧ v = .bits n ∧ as = []
  | .user _ type, x, v, as => Holds h type x v as
  | .struct fields, x, v, as => ∃ xs vs, x = .struct xs ∧ v = .struct vs ∧
      HoldsFields h fields xs vs as
  | .array elem dim, x, v, as => ∃ n a slots ass, v = .array n a ∧
      List.Forall₂ HoldsSize dim n ∧ a.length = (n.map Int.toNat).prod ∧
      Together (fun x v as => Holds h elem x v as) slots a ass ∧
      (isVariable dim = false ∧ x = .fixedArray slots ∧ as = ass.flatten ∨
        isVariable dim = true ∧ ∃ p, x = .variableArray n p ∧
          h.block p = some (.elements slots) ∧ as = p :: ass.flatten)

/-- The same of the fields, in order. -/
def HoldsFields (h : Heap Contents) : Fields → List Slot → List Value → List Nat → Prop
  | .nil, xs, vs, as => xs = [] ∧ vs = [] ∧ as = []
  | .cons _ _ type rest, xs, vs, as => ∃ x ys v ws bs cs, xs = x :: ys ∧ vs = v :: ws ∧
      as = bs ++ cs ∧ Holds h type x v bs ∧ HoldsFields h rest ys ws cs

end

mutual

/-- A value of the type: what `WellTyped` says, without a bound on the number of elements of a
variable array. -/
def Storable : DataType → Value → Prop
  | .void, v => v = .unset
  | .prim .string, v => ∃ s, v = .string s ∧ (0 : UInt8) ∉ s
  | .prim .sample, v => ∃ s, v = .ref s
  | .prim p, v => ∃ n, v = .bits n ∧ n < 256 ^ p.size
  | .user _ type, v => Storable type v
  | .struct fields, v => ∃ vs, v = .struct vs ∧ StorableFields fields vs
  | .array elem dim, v => ∃ n a, v = .array n a ∧ List.Forall₂ Exp.Admits dim n ∧
      (a.length : Int) = n.prod ∧ ∀ x ∈ a, Storable elem x

/-- The same of the fields, in order. -/
def StorableFields : Fields → List Value → Prop
  | .nil, vs => vs = []
  | .cons _ _ type rest, vs => ∃ v ws, vs = v :: ws ∧ Storable type v ∧ StorableFields rest ws

end

mutual

/-- No variable array in the value has more than `2 ^ 31` elements. -/
def ArraysFit : DataType → Value → Prop
  | .user _ type, v => ArraysFit type v
  | .struct fields, .struct vs => ArraysFitFields fields vs
  | .array elem dim, .array _ a =>
      (isVariable dim = true → a.length ≤ 2 ^ 31) ∧ ∀ x ∈ a, ArraysFit elem x
  | _, _ => True

/-- The same of the fields, in order. -/
def ArraysFitFields : Fields → List Value → Prop
  | .cons _ _ type rest, v :: vs => ArraysFit type v ∧ ArraysFitFields rest vs
  | _, _ => True

end

/-! ## What a stored value depends on -/

theorem mem_flatten_of {ass : List (List Nat)} {as : List Nat} (h : as ∈ ass) {b : Nat}
    (hb : b ∈ as) : b ∈ ass.flatten := List.mem_flatten.mpr ⟨as, h, hb⟩

mutual

/-- Only the blocks of the value matter. -/
theorem holds_congr {h h' : Heap Contents} :
    ∀ (t : DataType) (x : Slot) (v : Value) (as : List Nat),
      (∀ b ∈ as, h'.block b = h.block b) → Holds h t x v as → Holds h' t x v as
  | .void, _, _, _, _, hx => hx
  | .prim p, _, _, _, hsame, hx => by
      cases p with
      | string =>
          obtain ⟨p, s, rfl, rfl, hp, rfl⟩ := hx
          exact ⟨p, s, rfl, rfl, by rw [hsame p List.mem_cons_self, hp], rfl⟩
      | sample | boolean | byte | short | int | long | float | double => exact hx
  | .user _ type, x, v, as, hsame, hx => holds_congr type x v as hsame hx
  | .struct fields, _, _, as, hsame, hx => by
      obtain ⟨xs, vs, rfl, rfl, hxs⟩ := hx
      exact ⟨xs, vs, rfl, rfl, holdsFields_congr fields xs vs as hsame hxs⟩
  | .array elem dim, _, _, _, hsame, hx => by
      obtain ⟨n, a, slots, ass, rfl, hn, hlen, hslots, hshape⟩ := hx
      have hmem : ∀ bs ∈ ass, ∀ b ∈ bs, h'.block b = h.block b := by
        intro bs hbs b hb
        rcases hshape with ⟨-, -, rfl⟩ | ⟨-, p, -, -, rfl⟩
        · exact hsame b (mem_flatten_of hbs hb)
        · exact hsame b (List.mem_cons_of_mem p (mem_flatten_of hbs hb))
      refine ⟨n, a, slots, ass, rfl, hn, hlen,
        hslots.imp fun x v bs hbs hx => holds_congr elem x v bs (hmem bs hbs) hx, ?_⟩
      rcases hshape with hfixed | ⟨hvar, p, rfl, hp, rfl⟩
      · exact .inl hfixed
      · exact .inr ⟨hvar, p, rfl, by rw [hsame p List.mem_cons_self, hp], rfl⟩

theorem holdsFields_congr {h h' : Heap Contents} :
    ∀ (fields : Fields) (xs : List Slot) (vs : List Value) (as : List Nat),
      (∀ b ∈ as, h'.block b = h.block b) → HoldsFields h fields xs vs as →
      HoldsFields h' fields xs vs as
  | .nil, _, _, _, _, hx => hx
  | .cons _ _ type rest, _, _, _, hsame, hx => by
      obtain ⟨x, ys, v, ws, bs, cs, rfl, rfl, rfl, hfirst, hrest⟩ := hx
      exact ⟨x, ys, v, ws, bs, cs, rfl, rfl, rfl,
        holds_congr type x v bs (fun b hb => hsame b (List.mem_append_left cs hb)) hfirst,
        holdsFields_congr rest ys ws cs (fun b hb => hsame b (List.mem_append_right bs hb)) hrest⟩

end

/-- Every entry of the third list belongs to entries of the other two. -/
theorem together_mem {P : Slot → Value → List Nat → Prop} {xs : List Slot} {vs : List Value}
    {ass : List (List Nat)} (h : Together P xs vs ass) {as : List Nat} (has : as ∈ ass) :
    ∃ x v, v ∈ vs ∧ P x v as := by
  obtain ⟨k, hk⟩ := List.mem_iff_getElem?.mp has
  have hlt : k < vs.length := by
    obtain ⟨hlt, -⟩ := List.getElem?_eq_some_iff.mp hk
    rw [← h.length_eq.2]
    exact hlt
  obtain ⟨x, v, bs, -, hv, hbs, hP⟩ := h.at hlt
  rw [hk, Option.some.injEq] at hbs
  exact ⟨x, v, List.mem_of_getElem? hv, hbs ▸ hP⟩

mutual

/-- The blocks of a stored value are there. -/
theorem holds_live {h : Heap Contents} :
    ∀ (t : DataType) (x : Slot) (v : Value) (as : List Nat), Holds h t x v as →
      ∀ b ∈ as, ∃ c, h.block b = some c
  | .void, _, _, _, hx, b, hb => by
      obtain ⟨-, -, rfl⟩ := hx
      exact absurd hb (by simp)
  | .prim p, _, _, _, hx, b, hb => by
      cases p with
      | string =>
          obtain ⟨p, s, -, -, hp, rfl⟩ := hx
          rw [List.mem_singleton] at hb
          exact ⟨_, hb ▸ hp⟩
      | sample | boolean | byte | short | int | long | float | double =>
          obtain ⟨_, -, -, rfl⟩ := hx
          exact absurd hb (by simp)
  | .user _ type, x, v, as, hx, b, hb => holds_live type x v as hx b hb
  | .struct fields, _, _, as, hx, b, hb => by
      obtain ⟨xs, vs, -, -, hxs⟩ := hx
      exact holdsFields_live fields xs vs as hxs b hb
  | .array elem dim, _, _, _, hx, b, hb => by
      obtain ⟨n, a, slots, ass, -, -, -, hslots, hshape⟩ := hx
      have helem : ∀ b ∈ ass.flatten, ∃ c, h.block b = some c := by
        intro b hb
        obtain ⟨bs, hbs, hb⟩ := List.mem_flatten.mp hb
        obtain ⟨x, v, -, hx⟩ := together_mem hslots hbs
        exact holds_live elem x v bs hx b hb
      rcases hshape with ⟨-, -, rfl⟩ | ⟨-, p, -, hp, rfl⟩
      · exact helem b hb
      · rcases List.mem_cons.mp hb with rfl | hb
        · exact ⟨_, hp⟩
        · exact helem b hb

theorem holdsFields_live {h : Heap Contents} :
    ∀ (fields : Fields) (xs : List Slot) (vs : List Value) (as : List Nat),
      HoldsFields h fields xs vs as → ∀ b ∈ as, ∃ c, h.block b = some c
  | .nil, _, _, _, hx, b, hb => by
      obtain ⟨-, -, rfl⟩ := hx
      exact absurd hb (by simp)
  | .cons _ _ type rest, _, _, _, hx, b, hb => by
      obtain ⟨x, ys, v, ws, bs, cs, -, -, rfl, hfirst, hrest⟩ := hx
      rcases List.mem_append.mp hb with hb | hb
      · exact holds_live type x v bs hfirst b hb
      · exact holdsFields_live rest ys ws cs hrest b hb

end

/-- New blocks do not change a stored value. -/
theorem Holds.extend {h h' : Heap Contents} {bs : List Nat} {t : DataType} {x : Slot} {v : Value}
    {as : List Nat} (hx : Holds h t x v as) (hs : Extends h h' bs) : Holds h' t x v as := by
  refine holds_congr t x v as (fun b hb => ?_) hx
  obtain ⟨c, hc⟩ := holds_live t x v as hx b hb
  exact hs.block (h.lt_next hc)

theorem HoldsFields.extend {h h' : Heap Contents} {bs : List Nat} {fields : Fields}
    {xs : List Slot} {vs : List Value} {as : List Nat} (hx : HoldsFields h fields xs vs as)
    (hs : Extends h h' bs) : HoldsFields h' fields xs vs as := by
  refine holdsFields_congr fields xs vs as (fun b hb => ?_) hx
  obtain ⟨c, hc⟩ := holdsFields_live fields xs vs as hx b hb
  exact hs.block (h.lt_next hc)

mutual

/-- A type that is not dynamic has no blocks. -/
theorem holds_static {h : Heap Contents} :
    ∀ (t : DataType) (x : Slot) (v : Value) (as : List Nat), cIsDynamic t = false →
      Holds h t x v as → as = []
  | .void, _, _, _, _, hx => hx.2.2
  | .prim p, _, _, _, hdyn, hx => by
      cases p with
      | string => exact absurd hdyn (by simp [cIsDynamic])
      | sample | boolean | byte | short | int | long | float | double =>
          obtain ⟨_, -, -, has⟩ := hx
          exact has
  | .user _ type, x, v, as, hdyn, hx => by
      rw [cIsDynamic] at hdyn
      exact holds_static type x v as hdyn hx
  | .struct fields, _, _, as, hdyn, hx => by
      rw [cIsDynamic] at hdyn
      obtain ⟨xs, vs, -, -, hxs⟩ := hx
      exact holdsFields_static fields xs vs as hdyn hxs
  | .array elem dim, _, _, as, hdyn, hx => by
      rw [cIsDynamic, Bool.or_eq_false_iff] at hdyn
      obtain ⟨n, a, slots, ass, -, -, -, hslots, hshape⟩ := hx
      rcases hshape with ⟨-, -, rfl⟩ | ⟨hvar, -⟩
      · refine List.flatten_eq_nil_iff.mpr fun bs hbs => ?_
        obtain ⟨x, v, -, hx⟩ := together_mem hslots hbs
        exact holds_static elem x v bs hdyn.2 hx
      · exact absurd hvar (by simp [hdyn.1])

theorem holdsFields_static {h : Heap Contents} :
    ∀ (fields : Fields) (xs : List Slot) (vs : List Value) (as : List Nat),
      cIsDynamicFields fields = false → HoldsFields h fields xs vs as → as = []
  | .nil, _, _, _, _, hx => hx.2.2
  | .cons _ _ type rest, _, _, _, hdyn, hx => by
      rw [cIsDynamicFields, Bool.or_eq_false_iff] at hdyn
      obtain ⟨x, ys, v, ws, bs, cs, -, -, rfl, hfirst, hrest⟩ := hx
      rw [holds_static type x v bs hdyn.1 hfirst, holdsFields_static rest ys ws cs hdyn.2 hrest]
      rfl

end

/-- The elements of an array of a type that is not dynamic have no blocks. -/
theorem together_static {h : Heap Contents} {t : DataType} (hdyn : cIsDynamic t = false)
    {xs : List Slot} {vs : List Value} {ass : List (List Nat)}
    (hx : Together (fun x v as => Holds h t x v as) xs vs ass) : ass.flatten = [] := by
  refine List.flatten_eq_nil_iff.mpr fun bs hbs => ?_
  obtain ⟨x, v, -, hx⟩ := together_mem hx hbs
  exact holds_static t x v bs hdyn hx

/-! ## Loops over an array -/

/-- The index that is computed for the element at position `k`. -/
def position (dim : List Exp) (k : Nat) : Int := if isVariable dim then wrap32 k else k

theorem position_eq {dim : List Exp} {k : Nat} (h : isVariable dim = true → k < 2 ^ 31) :
    position dim k = k := by
  rw [position]
  split
  · rename_i hvar
    exact wrap32_natCast (h hvar)
  · rfl

/-- The loops visit the positions of the array in order. -/
theorem nest_positions {m : Type → Type} [Monad m] [LawfulMonad m] {β : Type} {dim : List Exp}
    {n : List Int} (h : List.Forall₂ HoldsSize dim n) (f : Int → β → m β) (b : β) :
    nest (n.map Int.toNat) (fun is => f (elementIndex dim n is)) b =
      (List.range (n.map Int.toNat).prod).foldlM (fun b k => f (position dim k) b) b := by
  rw [← nest_horner (n.map Int.toNat) (fun k => f (position dim k)) b]
  refine nest_congr (fun is his => ?_) b
  -- a position is reached only if no dimension is negative
  have hpos : ∀ i ∈ n, 0 ≤ i := by
    intro i hi
    by_contra hneg
    have hzero : (n.map Int.toNat).prod = 0 :=
      List.prod_eq_zero (List.mem_map.mpr ⟨i, hi, Int.toNat_of_nonpos (by omega)⟩)
    have := his.prod_pos
    omega
  rw [position]
  split
  · rename_i hvar
    rw [elementIndex_wraps hvar h hpos his]
  · rename_i hvar
    rw [elementIndex, if_neg hvar]

/-- The limits of the loops over a fixed array. -/
def literalLimits (dim : List Exp) : List Int := dim.map fun e => cGetLimit e 0

theorem literalLimits_eq {dim : List Exp} (hfixed : isVariable dim = false) {n : List Int}
    (h : List.Forall₂ HoldsSize dim n) : n = literalLimits dim := by
  induction h with
  | nil => rfl
  | @cons e i dim n hei _ ih =>
      rw [isVariable, List.any_cons, Bool.or_eq_false_iff] at hfixed
      cases e with
      | integerLiteral value =>
          rw [literalLimits, List.map_cons]
          exact congrArg₂ List.cons hei (ih hfixed.2)
      | variableSize => exact absurd hfixed.1 (by simp [Exp.isVariable])

/-- Two sizes of a fixed array are the same. -/
theorem holdsSize_unique {dim : List Exp} (hfixed : isVariable dim = false) {n n' : List Int}
    (h : List.Forall₂ HoldsSize dim n) (h' : List.Forall₂ HoldsSize dim n') : n = n' :=
  (literalLimits_eq hfixed h).trans (literalLimits_eq hfixed h').symm

theorem literalLimits_holds {dim : List Exp} (hfixed : isVariable dim = false) :
    List.Forall₂ HoldsSize dim (literalLimits dim) := by
  induction dim with
  | nil => exact .nil
  | cons e dim ih =>
      rw [isVariable, List.any_cons, Bool.or_eq_false_iff] at hfixed
      cases e with
      | integerLiteral value => exact .cons rfl (ih hfixed.2)
      | variableSize => exact absurd hfixed.1 (by simp [Exp.isVariable])

/-! ## One value for each object -/

mutual

/-- An object stores one value. -/
theorem holds_unique {h : Heap Contents} :
    ∀ (t : DataType) (x : Slot) (v w : Value) (as bs : List Nat), Holds h t x v as →
      Holds h t x w bs → v = w
  | .void, _, _, _, _, _, hv, hw => hv.2.1.trans hw.2.1.symm
  | .prim p, _, _, _, _, _, hv, hw => by
      cases p with
      | string =>
          obtain ⟨p, s, rfl, rfl, hp, -⟩ := hv
          obtain ⟨q, s', heq, rfl, hq, -⟩ := hw
          cases heq
          rw [hp, Option.some.injEq, Contents.string.injEq] at hq
          rw [List.append_cancel_right hq]
      | sample | boolean | byte | short | int | long | float | double =>
          obtain ⟨i, rfl, rfl, -⟩ := hv
          obtain ⟨j, heq, rfl, -⟩ := hw
          cases heq
          rfl
  | .user _ type, x, v, w, as, bs, hv, hw => holds_unique type x v w as bs hv hw
  | .struct fields, _, _, _, as, bs, hv, hw => by
      obtain ⟨xs, vs, rfl, rfl, hvs⟩ := hv
      obtain ⟨ys, ws, heq, rfl, hws⟩ := hw
      cases heq
      rw [holdsFields_unique fields xs vs ws as bs hvs hws]
  | .array elem dim, _, _, _, _, _, hv, hw => by
      obtain ⟨n, a, slots, ass, rfl, hn, -, hslots, hshape⟩ := hv
      obtain ⟨n', a', slots', ass', rfl, hn', -, hslots', hshape'⟩ := hw
      have hunique := fun x v w as bs => holds_unique (h := h) elem x v w as bs
      -- the elements are in the struct itself, or behind a pointer to one block
      rcases hshape with ⟨hfixed, rfl, -⟩ | ⟨hvar, p, rfl, hp, -⟩
      · rcases hshape' with ⟨-, heq, -⟩ | ⟨hvar, -⟩
        · cases heq
          rw [hslots.unique hunique hslots', holdsSize_unique hfixed hn hn']
        · exact absurd hvar (by simp [hfixed])
      · rcases hshape' with ⟨hfixed, -⟩ | ⟨-, q, heq, hq, -⟩
        · exact absurd hvar (by simp [hfixed])
        · cases heq
          rw [hp, Option.some.injEq, Contents.elements.injEq] at hq
          subst hq
          rw [hslots.unique hunique hslots']

theorem holdsFields_unique {h : Heap Contents} :
    ∀ (fields : Fields) (xs : List Slot) (vs ws : List Value) (as bs : List Nat),
      HoldsFields h fields xs vs as → HoldsFields h fields xs ws bs → vs = ws
  | .nil, _, _, _, _, _, hv, hw => hv.2.1.trans hw.2.1.symm
  | .cons _ _ type rest, _, _, _, _, _, hv, hw => by
      obtain ⟨x, xs, v, vs, as, as', rfl, rfl, -, hv, hvs⟩ := hv
      obtain ⟨y, ys, w, ws, bs, bs', heq, rfl, -, hw, hws⟩ := hw
      cases heq
      rw [holds_unique type x v w as bs hv hw, holdsFields_unique rest xs vs ws as' bs' hvs hws]

end

end LabComm.C
