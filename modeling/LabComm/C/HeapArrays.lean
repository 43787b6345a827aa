import LabComm.C.StoredValues

set_option autoImplicit false

/-! # Loops over arrays in memory

How the generated code gets at the elements of an array, and the loops that store them: in place
for a fixed array, in memory that is allocated for a variable one. `fillFixed_some` and
`fillVariable_some` say what such loops leave behind if they come to their end,
`fillFixed_exists` and `fillVariable_exists` when they do.
-/

namespace LabComm.C

open Library

variable {ρ : Type}

/-! ## Memory accesses -/

/-- `p[i]` -/
def loadSlot (p : Nat) (i : Int) : MemoryM ρ Slot := do
  match ← loadBlock p with
  | .elements a => given (slotAt a i)
  | .string _ => given none

/-- `p[i] = x` -/
def storeSlot (p : Nat) (i : Int) (x : Slot) : MemoryM ρ Unit := do
  match ← loadBlock p with
  | .elements a => do
      let b ← given (setSlot a i x)
      storeBlock p (.elements b)
  | .string _ => given none

/-- The characters up to the zero that `strlen` looks for. -/
def loadString (p : Nat) : MemoryM ρ (List UInt8) := do
  match ← loadBlock p with
  | .string bytes => given (if 0 ∈ bytes then some (bytes.takeWhile (· ≠ 0)) else none)
  | .elements _ => given none

/-! ## Arrays -/

/-- The loops over an array; the body gets the index of the element. -/
def arrayLoop {β : Type} (dim : List Exp) (limits : List Int) (body : Int → β → MemoryM ρ β)
    (b : β) : MemoryM ρ β :=
  nest (limits.map Int.toNat) (fun is => body (elementIndex dim limits is)) b

/-- The elements of a fixed array are stored where it is. -/
def fillFixed (dim : List Exp) (element : Int → MemoryM ρ Slot) : MemoryM ρ (List Slot) :=
  let limits := literalLimits dim
  arrayLoop dim limits (fun i a => do
    let x ← element i
    given (setSlot a i x)) (List.replicate (limits.map Int.toNat).prod .unset)

/-- The elements of a variable array are stored in memory that is allocated for them. -/
def fillVariable (dim : List Exp) (n : List Int) (element : Int → MemoryM ρ Slot) :
    MemoryM ρ Nat := do
  let limits := loopLimits dim n
  let a ← newBlock (.elements (List.replicate (limits.map Int.toNat).prod .unset))
  arrayLoop dim limits (fun i _ => do
    let x ← element i
    storeSlot a i x) ()
  pure a

/-! ## Single accesses -/

variable {s s' : Machine ρ Contents}

theorem loadSlot_eq_some {p : Nat} {i : Int} {x : Slot} (h : loadSlot p i s = some (x, s')) :
    ∃ a, s.heap.block p = some (.elements a) ∧ slotAt a i = some x ∧ s' = s := by
  obtain ⟨c, t, hload, hrest⟩ := bind_eq_some h
  obtain ⟨hblock, rfl⟩ := loadBlock_eq_some hload
  cases c with
  | string bytes => exact absurd (given_eq_some hrest).1 (by simp)
  | elements a =>
      obtain ⟨hx, rfl⟩ := given_eq_some hrest
      exact ⟨a, hblock, hx, rfl⟩

theorem loadSlot_of_block {p : Nat} {a : List Slot} {i : Int} {x : Slot}
    (hp : s.heap.block p = some (.elements a)) (hx : slotAt a i = some x) :
    loadSlot p i s = some (x, s) := by
  rw [loadSlot, bind_of_some (loadBlock_of_block hp)]
  show given (slotAt a i) s = _
  rw [hx]
  rfl

theorem storeSlot_eq_some {p : Nat} {i : Int} {x : Slot} {u : Unit}
    (h : storeSlot p i x s = some (u, s')) :
    ∃ a, ∃ hp : s.heap.block p = some (.elements a), 0 ≤ i ∧ i.toNat < a.length ∧
      s' = ⟨s.io, s.heap.replace p (.elements (a.set i.toNat x)) (s.heap.lt_next hp)⟩ := by
  obtain ⟨c, t, hload, hrest⟩ := bind_eq_some h
  obtain ⟨hblock, rfl⟩ := loadBlock_eq_some hload
  cases c with
  | string bytes => exact absurd (given_eq_some hrest).1 (by simp)
  | elements a =>
      obtain ⟨b, t, hset, hstore⟩ := bind_eq_some hrest
      obtain ⟨hb, rfl⟩ := given_eq_some hset
      rw [storeBlock_of_block hblock] at hstore
      by_cases hi : 0 ≤ i ∧ i.toNat < a.length
      · rw [setSlot, if_pos hi, Option.some.injEq] at hb
        subst hb
        cases hstore
        exact ⟨a, hblock, hi.1, hi.2, rfl⟩
      · rw [setSlot, if_neg hi] at hb
        exact absurd hb (by simp)

theorem storeSlot_of_block {p : Nat} {a : List Slot} {k : Nat} (x : Slot)
    (hp : s.heap.block p = some (.elements a)) (hk : k < a.length) :
    storeSlot p (k : Int) x s =
      some ((), ⟨s.io, s.heap.replace p (.elements (a.set k x)) (s.heap.lt_next hp)⟩) := by
  rw [storeSlot, bind_of_some (loadBlock_of_block hp)]
  show (given (setSlot a k x) >>= fun b => storeBlock p (.elements b)) s = _
  rw [setSlot_natCast hk]
  exact storeBlock_of_block hp

/-- The loops visit the elements in order, with the indices that are computed. -/
theorem arrayLoop_eq {β : Type} {dim : List Exp} {n : List Int}
    (h : List.Forall₂ HoldsSize dim n) (body : Int → β → MemoryM ρ β) (b : β) :
    arrayLoop dim n body b =
      (List.range (n.map Int.toNat).prod).foldlM (fun b k => body (position dim k) b) b :=
  nest_positions h body b

theorem map_eq_some {α β : Type} {m : MemoryM ρ α} {f : α → β} {b : β}
    (h : (f <$> m) s = some (b, s')) : ∃ a, m s = some (a, s') ∧ b = f a := by
  rw [program_map] at h
  obtain ⟨⟨a, t⟩, hm, heq⟩ := Option.map_eq_some_iff.mp h
  cases heq
  exact ⟨a, hm, rfl⟩

theorem map_of_some {α β : Type} {m : MemoryM ρ α} {a : α} (f : α → β) (h : m s = some (a, s')) :
    (f <$> m) s = some (f a, s') := by
  rw [program_map, h]
  rfl

/-! ## Filling an array -/

section Filling

variable (h : Heap Contents) (front : List Nat) (elem : DataType)
  (Track : Nat → ρ → List Value → Prop)

/-- The first `k` of `n` elements are stored, in a heap that extends `h` by the blocks `front` and
those of the elements. `Track` is what is known of their values. -/
def Filled (n k : Nat) (slots : List Slot) (s : Machine ρ Contents) : Prop :=
  ∃ ys vs bss, slots = ys ++ List.replicate (n - k) .unset ∧
    Extends h s.heap (front ++ bss.flatten) ∧
    Together (fun x v as => Holds s.heap elem x v as) ys vs bss ∧ vs.length = k ∧
    Track k s.io vs

/-- A program that comes up with the element at position `k`. -/
def Builds (k : Nat) (m : MemoryM ρ Slot) : Prop :=
  ∀ s as vs x s', Extends h s.heap as → vs.length = k → Track k s.io vs →
    m s = some (x, s') → ∃ v bs, Extends s.heap s'.heap bs ∧ Holds s'.heap elem x v bs ∧
      Track (k + 1) s'.io (vs ++ [v])

variable {h front elem Track}

theorem Filled.length {n k : Nat} {slots : List Slot} (hf : Filled h front elem Track n k slots s)
    (hk : k ≤ n) : slots.length = n := by
  obtain ⟨ys, vs, bss, rfl, -, hys, hlen, -⟩ := hf
  rw [List.length_append, List.length_replicate, hys.length_eq.1, hlen]
  omega

/-- The next element. -/
theorem Filled.step {n k : Nat} {slots : List Slot} (hf : Filled h front elem Track n k slots s)
    (hk : k < n) {m : MemoryM ρ Slot} (hm : Builds h elem Track k m) {x : Slot}
    (hrun : m s = some (x, s')) : Filled h front elem Track n (k + 1) (slots.set k x) s' := by
  obtain ⟨ys, vs, bss, rfl, hext, hys, hlen, htrack⟩ := hf
  obtain ⟨v, bs, hnew, hx, htrack'⟩ := hm s _ vs x s' hext hlen htrack hrun
  have hlength : ys.length = k := hys.length_eq.1.trans hlen
  refine ⟨ys ++ [x], vs ++ [v], bss ++ [bs], ?_, ?_, ?_, by rw [List.length_append, hlen]; rfl,
    htrack'⟩
  · have hsucc : n - k = (n - (k + 1)) + 1 := by omega
    rw [List.set_append_right _ _ (by omega), hlength, Nat.sub_self, hsucc,
      List.replicate_succ, List.set_cons_zero, List.append_assoc]
    rfl
  · have hflatten : front ++ (bss ++ [bs]).flatten = (front ++ bss.flatten) ++ bs := by
      simp
    rw [hflatten]
    exact hext.trans hnew
  · exact (hys.imp fun x v as _ hx => hx.extend hnew).concat hx

/-- The block that holds the array is none of those of the elements. -/
theorem Filled.replace {n k p : Nat} {slots : List Slot}
    (hf : Filled h [p] elem Track n k slots s) (c : Contents) (hp : p < s.heap.next) :
    Filled h [p] elem Track n k slots ⟨s.io, s.heap.replace p c hp⟩ := by
  obtain ⟨ys, vs, bss, rfl, hext, hys, hlen, htrack⟩ := hf
  have hnodup := hext.nodup
  rw [List.singleton_append, List.nodup_cons] at hnodup
  refine ⟨ys, vs, bss, rfl, hext.replace (by simp) c, hys.imp fun x v as has hx => ?_, hlen,
    htrack⟩
  refine holds_congr elem x v as (fun b hb => ?_) hx
  have hne : b ≠ p := fun heq => hnodup.1 (heq ▸ mem_flatten_of has hb)
  exact Function.update_of_ne hne _ _

variable {dim : List Exp} {n : List Int} {element : Int → MemoryM ρ Slot}

/-- The array after its elements are stored. -/
theorem fillFixed_some (hfixed : isVariable dim = false) (hT : Track 0 s.io [])
    (hb : ∀ k < ((literalLimits dim).map Int.toNat).prod,
      Builds s.heap elem Track k (element k)) {a : List Slot}
    (hrun : fillFixed dim element s = some (a, s')) :
    ∃ vs bss, Extends s.heap s'.heap bss.flatten ∧
      Together (fun x v as => Holds s'.heap elem x v as) a vs bss ∧
      vs.length = ((literalLimits dim).map Int.toNat).prod ∧
      Track ((literalLimits dim).map Int.toNat).prod s'.io vs := by
  rw [fillFixed, arrayLoop_eq (literalLimits_holds hfixed)] at hrun
  generalize hN : ((literalLimits dim).map Int.toNat).prod = N at hrun hb ⊢
  have hstart : Filled s.heap [] elem Track N 0 (List.replicate N .unset) s :=
    ⟨[], [], [], by simp, by simpa using Extends.refl s.heap, trivial, rfl, hT⟩
  have hend := foldlM_range_some (P := fun k a s' => Filled s.heap [] elem Track N k a s')
    (fun k hk a t a' t' hf hround => by
      obtain ⟨x, u, hx, hset⟩ := bind_eq_some hround
      obtain ⟨ha', rfl⟩ := given_eq_some hset
      rw [position_eq (by simp [hfixed])] at hx ha'
      rw [setSlot_natCast (by rw [hf.length hk.le]; exact hk), Option.some.injEq] at ha'
      subst ha'
      exact hf.step hk (hb k hk) hx) hstart hrun
  obtain ⟨ys, vs, bss, rfl, hext, hys, hlen, htrack⟩ := hend
  rw [Nat.sub_self, List.replicate_zero, List.append_nil]
  exact ⟨vs, bss, hext, hys, hlen, htrack⟩

/-- The loop over a variable array, as long as it has a result. -/
def VariableLoop (h : Heap Contents) (elem : DataType) (Track : Nat → ρ → List Value → Prop)
    (p n k : Nat) (s : Machine ρ Contents) : Prop :=
  ∃ slots, s.heap.block p = some (.elements slots) ∧ Filled h [p] elem Track n k slots s ∧
    k ≤ 2 ^ 31

/-- A round of the loop: the index is in the array, so that it was not reduced. -/
theorem VariableLoop.step {p N k : Nat} (hvar : isVariable dim = true)
    (hP : VariableLoop h elem Track p N k s) (hk : k < N)
    (hm : k < 2 ^ 31 → Builds h elem Track k (element k)) {u : Unit}
    (hround : (do
      let x ← element (position dim k)
      storeSlot p (position dim k) x : MemoryM ρ Unit) s = some (u, s')) :
    VariableLoop h elem Track p N (k + 1) s' := by
  obtain ⟨slots, hblock, hf, hle⟩ := hP
  obtain ⟨x, t, hx, hstore⟩ := bind_eq_some hround
  obtain ⟨slots', hblock', hnonneg, hlt, rfl⟩ := storeSlot_eq_some hstore
  have hsmall : k < 2 ^ 31 := by
    by_contra hge
    have hk31 : k = 2 ^ 31 := by omega
    rw [position, if_pos hvar, hk31] at hnonneg
    exact absurd hnonneg (by decide)
  rw [position_eq fun _ => hsmall] at hx
  obtain ⟨ys, vs, bss, hslots, hext, hys, hlen, htrack⟩ := hf
  obtain ⟨v, bs, hnew, -, -⟩ := hm hsmall s _ vs x t hext hlen htrack hx
  -- the element did not touch the block of the array
  have hsame : slots' = slots := by
    have := hnew.live hblock
    rw [this] at hblock'
    simpa using hblock'.symm
  subst hsame
  have hstep := Filled.step (n := N) ⟨ys, vs, bss, hslots, hext, hys, hlen, htrack⟩ hk (hm hsmall) hx
  have hpos : (position dim k).toNat = k := by
    rw [position_eq fun _ => hsmall, Int.toNat_natCast]
  refine ⟨slots'.set k x, ?_, ?_, by omega⟩
  · rw [hpos]
    exact Function.update_self ..
  · exact hstep.replace _ _

theorem variableLoop_start (hT : Track 0 s.io []) (N : Nat) :
    VariableLoop s.heap elem Track s.heap.next N 0
      ⟨s.io, s.heap.allocate (.elements (List.replicate N .unset))⟩ := by
  refine ⟨List.replicate N .unset, Function.update_self .., ⟨[], [], [], by simp, ?_, trivial, rfl,
    hT⟩, by omega⟩
  simpa using Extends.allocate s.heap _

/-- The array after its memory is allocated and its elements are stored. -/
theorem fillVariable_some (hvar : isVariable dim = true) (hn : List.Forall₂ HoldsSize dim n)
    (hT : Track 0 s.io [])
    (hb : ∀ k < (n.map Int.toNat).prod, k < 2 ^ 31 → Builds s.heap elem Track k (element k))
    {p : Nat} (hrun : fillVariable dim n element s = some (p, s')) :
    ∃ slots vs bss, s'.heap.block p = some (.elements slots) ∧
      Extends s.heap s'.heap (p :: bss.flatten) ∧
      Together (fun x v as => Holds s'.heap elem x v as) slots vs bss ∧
      vs.length = (n.map Int.toNat).prod ∧ (n.map Int.toNat).prod ≤ 2 ^ 31 ∧
      Track (n.map Int.toNat).prod s'.io vs := by
  rw [fillVariable, loopLimits_of_holds hn] at hrun
  obtain ⟨q, t, hnew, hrest⟩ := bind_eq_some hrun
  cases hnew
  obtain ⟨⟨⟩, t, hloop, hend⟩ := bind_eq_some hrest
  cases hend
  rw [arrayLoop_eq hn] at hloop
  generalize hN : (n.map Int.toNat).prod = N at hloop hb ⊢
  obtain ⟨slots, hblock, ⟨ys, vs, bss, rfl, hext, hys, hlen, htrack⟩, hle⟩ :=
    foldlM_range_some (P := fun k _ s' => VariableLoop s.heap elem Track s.heap.next N k s')
      (fun k hk _ t _ t' hP hround => hP.step hvar hk (hb k hk) hround)
      (variableLoop_start hT N) hloop
  rw [Nat.sub_self, List.replicate_zero, List.append_nil] at hblock
  exact ⟨ys, vs, bss, hblock, hext, hys, hlen, hle, htrack⟩

/-- Filling a fixed array has a result if each element has one. -/
theorem fillFixed_exists (hfixed : isVariable dim = false) (hT : Track 0 s.io [])
    (hb : ∀ k < ((literalLimits dim).map Int.toNat).prod,
      Builds s.heap elem Track k (element k))
    (hex : ∀ k < ((literalLimits dim).map Int.toNat).prod, ∀ t as vs, Extends s.heap t.heap as →
      vs.length = k → Track k t.io vs → ∃ x t', element k t = some (x, t')) :
    ∃ a s', fillFixed dim element s = some (a, s') := by
  rw [fillFixed, arrayLoop_eq (literalLimits_holds hfixed)]
  generalize hN : ((literalLimits dim).map Int.toNat).prod = N at hb hex ⊢
  have hstart : Filled s.heap [] elem Track N 0 (List.replicate N .unset) s :=
    ⟨[], [], [], by simp, by simpa using Extends.refl s.heap, trivial, rfl, hT⟩
  obtain ⟨a, s', hrun, -⟩ := foldlM_range_exists (n := N)
    (P := fun k a s' => Filled s.heap [] elem Track N k a s')
    (f := fun a k => do
      let x ← element (position dim k)
      given (setSlot a (position dim k) x))
    (fun k hk a t hf => by
      have hset := setSlot_natCast (a := a) (by rw [hf.length hk.le]; exact hk)
      obtain ⟨ys, vs, bss, ha, hext, hys, hlen, htrack⟩ := hf
      obtain ⟨x, t', hx⟩ := hex k hk t _ vs hext hlen htrack
      refine ⟨a.set k x, t', ?_,
        Filled.step ⟨ys, vs, bss, ha, hext, hys, hlen, htrack⟩ hk (hb k hk) hx⟩
      rw [position_eq (by simp [hfixed]), bind_of_some hx, hset]
      rfl) hstart
  exact ⟨a, s', hrun⟩

/-- Filling a variable array has a result if each element has one and an `int` counts them. -/
theorem fillVariable_exists (hvar : isVariable dim = true) (hn : List.Forall₂ HoldsSize dim n)
    (hfit : (n.map Int.toNat).prod ≤ 2 ^ 31) (hT : Track 0 s.io [])
    (hb : ∀ k < (n.map Int.toNat).prod, Builds s.heap elem Track k (element k))
    (hex : ∀ k < (n.map Int.toNat).prod, ∀ t as vs, Extends s.heap t.heap as →
      vs.length = k → Track k t.io vs → ∃ x t', element k t = some (x, t')) :
    ∃ p s', fillVariable dim n element s = some (p, s') := by
  rw [fillVariable, loopLimits_of_holds hn]
  generalize hN : (n.map Int.toNat).prod = N at hfit hb hex
  obtain ⟨⟨⟩, s', hrun, -⟩ := foldlM_range_exists (n := N)
    (P := fun k _ s' => VariableLoop s.heap elem Track s.heap.next N k s')
    (f := fun (_ : Unit) k => do
      let x ← element (position dim k)
      storeSlot s.heap.next (position dim k) x)
    (fun k hk _ t hP => by
      have hpos : position dim k = k := position_eq fun _ => by omega
      obtain ⟨slots, hblock, hf, hle⟩ := id hP
      have hlength := hf.length hk.le
      obtain ⟨ys, vs, bss, -, hext, -, hlen, htrack⟩ := hf
      obtain ⟨x, t', hx⟩ := hex k hk t _ vs hext hlen htrack
      obtain ⟨v, bs, hnew, -, -⟩ := hb k hk t _ vs x t' hext hlen htrack hx
      have hround : ∃ u, (do
          let x ← element (position dim k)
          storeSlot s.heap.next (position dim k) x : MemoryM ρ Unit) t = some ((), u) := by
        rw [hpos, bind_of_some hx]
        exact ⟨_, storeSlot_of_block x (hnew.live hblock) (by rw [hlength]; exact hk)⟩
      obtain ⟨u, hround⟩ := hround
      exact ⟨(), u, hround, hP.step hvar hk (fun _ => hb k hk) hround⟩)
    (variableLoop_start hT N)
  refine ⟨s.heap.next, s', ?_⟩
  have hnew : newBlock (.elements (List.replicate N .unset)) s = some (s.heap.next,
      (⟨s.io, s.heap.allocate (.elements (List.replicate N .unset))⟩ : Machine ρ Contents)) := rfl
  rw [bind_of_some hnew, arrayLoop_eq hn, hN, bind_of_some hrun]
  rfl

end Filling

end LabComm.C
