import Mathlib.Tactic

set_option autoImplicit false

/-! # Memory with allocations

A heap of blocks at addresses that are not given out twice. A program on it has no result when it
uses an address at which there is no block, so that reading after a release, releasing twice and
accesses out of range are all programs without a result.

`Extends h h' as` says that `h'` is `h` with new blocks at the addresses `as`; a program that
builds a structure is described by the blocks it adds, and releasing all of them gives the old
blocks back (`Extends.without`). `Releases` says of a program that it releases certain blocks and
no other.
-/

namespace LabComm.Library

/-! ## Heaps -/

/-- Blocks at addresses; those from `next` on were never given out. -/
structure Heap (α : Type) where
  block : Nat → Option α
  next : Nat
  fresh : ∀ a, next ≤ a → block a = none

section Heap

variable {α : Type}

theorem Heap.lt_next (h : Heap α) {a : Nat} {x : α} (ha : h.block a = some x) : a < h.next := by
  by_contra hge
  rw [h.fresh a (by omega)] at ha
  exact absurd ha (by simp)

/-- A heap without blocks. -/
def Heap.empty (α : Type) : Heap α := ⟨fun _ => none, 0, fun _ _ => rfl⟩

/-- A new block. -/
def Heap.allocate (h : Heap α) (x : α) : Heap α where
  block := Function.update h.block h.next (some x)
  next := h.next + 1
  fresh a ha := by
    rw [Function.update_of_ne (by omega)]
    exact h.fresh a (by omega)

/-- The heap without a block. -/
def Heap.release (h : Heap α) (a : Nat) : Heap α where
  block := Function.update h.block a none
  next := h.next
  fresh b hb := by
    by_cases hab : b = a
    · rw [hab, Function.update_self]
    · rw [Function.update_of_ne hab]
      exact h.fresh b hb

/-- The heap with other contents of a block. -/
def Heap.replace (h : Heap α) (a : Nat) (x : α) (ha : a < h.next) : Heap α where
  block := Function.update h.block a (some x)
  next := h.next
  fresh b hb := by
    rw [Function.update_of_ne (by omega)]
    exact h.fresh b hb

/-- The blocks of `h` that are not at one of the addresses. -/
def Heap.without (h : Heap α) (as : List Nat) : Nat → Option α :=
  fun a => if a ∈ as then none else h.block a

theorem Heap.without_nil (h : Heap α) : h.without [] = h.block := by
  funext a
  simp [Heap.without]

/-- `h'` is `h` with new blocks at the addresses `as`. -/
structure Extends (h h' : Heap α) (as : List Nat) : Prop where
  nodup : as.Nodup
  new : ∀ a ∈ as, h.next ≤ a
  given : ∀ a ∈ as, a < h'.next
  next : h.next ≤ h'.next
  same : ∀ a, a ∉ as → h'.block a = h.block a

variable {h h' h'' : Heap α} {as bs : List Nat}

theorem Extends.refl (h : Heap α) : Extends h h [] :=
  ⟨List.nodup_nil, by simp, by simp, le_rfl, fun _ _ => rfl⟩

theorem Extends.trans (hs : Extends h h' as) (hs' : Extends h' h'' bs) :
    Extends h h'' (as ++ bs) := by
  refine ⟨?_, fun a ha => ?_, fun a ha => ?_, hs.next.trans hs'.next, fun a ha => ?_⟩
  · rw [List.nodup_append']
    refine ⟨hs.nodup, hs'.nodup, fun a ha hb => ?_⟩
    have := hs.given a ha
    have := hs'.new a hb
    omega
  · rcases List.mem_append.mp ha with ha | ha
    · exact hs.new a ha
    · exact hs.next.trans (hs'.new a ha)
  · rcases List.mem_append.mp ha with ha | ha
    · exact lt_of_lt_of_le (hs.given a ha) hs'.next
    · exact hs'.given a ha
  · rw [List.mem_append, not_or] at ha
    rw [hs'.same a ha.2, hs.same a ha.1]

/-- A block that was there before is still there. -/
theorem Extends.block (hs : Extends h h' as) {a : Nat} (ha : a < h.next) :
    h'.block a = h.block a :=
  hs.same a fun hmem => absurd (hs.new a hmem) (by omega)

theorem Extends.live (hs : Extends h h' as) {a : Nat} {x : α} (ha : h.block a = some x) :
    h'.block a = some x := by
  rw [hs.block (h.lt_next ha), ha]

/-- The new addresses were free before. -/
theorem Extends.free (hs : Extends h h' as) {a : Nat} (ha : a ∈ as) : h.block a = none :=
  h.fresh a (hs.new a ha)

/-- Releasing the new blocks gives the old heap back. -/
theorem Extends.without (hs : Extends h h' as) : h'.without as = h.block := by
  funext a
  by_cases ha : a ∈ as
  · rw [Heap.without, if_pos ha, hs.free ha]
  · rw [Heap.without, if_neg ha, hs.same a ha]

theorem Extends.allocate (h : Heap α) (x : α) : Extends h (h.allocate x) [h.next] := by
  refine ⟨List.nodup_singleton _, by simp, by simp [Heap.allocate], by simp [Heap.allocate],
    fun a ha => ?_⟩
  rw [List.mem_singleton] at ha
  exact Function.update_of_ne ha _ _

/-- The contents of a new block may change. -/
theorem Extends.replace (hs : Extends h h' as) {a : Nat} (ha : a ∈ as) (x : α) :
    Extends h (h'.replace a x (hs.given a ha)) as := by
  refine ⟨hs.nodup, hs.new, hs.given, hs.next, fun b hb => ?_⟩
  have hne : b ≠ a := fun heq => hb (heq ▸ ha)
  rw [← hs.same b hb]
  exact Function.update_of_ne hne _ _

end Heap

/-! ## Programs -/

/-- A heap, and what else a program works on. -/
structure Machine (ρ α : Type) where
  io : ρ
  heap : Heap α

/-- A program that has no result when it goes wrong. -/
abbrev Program (ρ α β : Type) := StateT (Machine ρ α) Option β

section Program

variable {ρ α β γ : Type}

/-- A new block with the contents `x`. -/
def newBlock (x : α) : Program ρ α Nat := fun s =>
  some (s.heap.next, { s with heap := s.heap.allocate x })

/-- The block at `a`. -/
def loadBlock (a : Nat) : Program ρ α α := fun s => (s.heap.block a).map fun x => (x, s)

/-- Other contents for the block at `a`. -/
def storeBlock (a : Nat) (x : α) : Program ρ α Unit := fun s =>
  match h : s.heap.block a with
  | none => none
  | some _ => some ((), { s with heap := s.heap.replace a x (s.heap.lt_next h) })

/-- The block at `a` is released. -/
def freeBlock (a : Nat) : Program ρ α Unit := fun s =>
  if (s.heap.block a).isSome then some ((), { s with heap := s.heap.release a }) else none

/-- A result that may not be there. -/
def given (x : Option β) : Program ρ α β := fun s => x.map fun b => (b, s)

theorem program_bind (m : Program ρ α β) (f : β → Program ρ α γ) (s : Machine ρ α) :
    (m >>= f) s = (m s).bind fun p => f p.1 p.2 := rfl

theorem program_map (m : Program ρ α β) (f : β → γ) (s : Machine ρ α) :
    (f <$> m) s = (m s).map fun p => (f p.1, p.2) := by
  show (m s).bind _ = _
  cases m s <;> rfl

/-- A program that has a result went through both halves. -/
theorem bind_eq_some {m : Program ρ α β} {f : β → Program ρ α γ} {s : Machine ρ α}
    {r : γ × Machine ρ α} (h : (m >>= f) s = some r) :
    ∃ b t, m s = some (b, t) ∧ f b t = some r := by
  rw [program_bind] at h
  obtain ⟨⟨b, t⟩, hm, hf⟩ := Option.bind_eq_some_iff.mp h
  exact ⟨b, t, hm, hf⟩

theorem bind_of_some {m : Program ρ α β} {f : β → Program ρ α γ} {s t : Machine ρ α} {b : β}
    (h : m s = some (b, t)) : (m >>= f) s = f b t := by
  rw [program_bind, h]
  rfl

theorem loadBlock_eq_some {a : Nat} {s t : Machine ρ α} {x : α} (h : loadBlock a s = some (x, t)) :
    s.heap.block a = some x ∧ t = s := by
  rw [loadBlock] at h
  obtain ⟨y, hy, heq⟩ := Option.map_eq_some_iff.mp h
  cases heq
  exact ⟨hy, rfl⟩

theorem loadBlock_of_block {a : Nat} {s : Machine ρ α} {x : α} (h : s.heap.block a = some x) :
    loadBlock a s = some (x, s) := by
  rw [loadBlock, h]
  rfl

theorem storeBlock_of_block {a : Nat} {s : Machine ρ α} {x y : α} (h : s.heap.block a = some x) :
    storeBlock a y s = some ((), { s with heap := s.heap.replace a y (s.heap.lt_next h) }) := by
  rw [storeBlock]
  split
  · rename_i hnone
    rw [hnone] at h
    exact absurd h (by simp)
  · rfl

theorem given_eq_some {x : Option β} {s t : Machine ρ α} {b : β} (h : given x s = some (b, t)) :
    x = some b ∧ t = s := by
  rw [given] at h
  obtain ⟨y, hy, heq⟩ := Option.map_eq_some_iff.mp h
  cases heq
  exact ⟨hy, rfl⟩

theorem freeBlock_of_block {a : Nat} {s : Machine ρ α} {x : α} (h : s.heap.block a = some x) :
    freeBlock a s = some ((), { s with heap := s.heap.release a }) := by
  rw [freeBlock, if_pos (by rw [h]; rfl)]

/-! ## Loops -/

variable {f : β → Nat → Program ρ α β} {P : Nat → β → Machine ρ α → Prop}

theorem foldlM_range_succ (n : Nat) (b : β) :
    (List.range (n + 1)).foldlM f b = (List.range n).foldlM f b >>= fun b => f b n := by
  rw [List.range_succ, List.foldlM_append]
  congr 1
  funext b
  simp

/-- What every round keeps holds after a loop that has a result. -/
theorem foldlM_range_some {n : Nat} {b b' : β} {s s' : Machine ρ α}
    (hstep : ∀ k < n, ∀ b s b' s', P k b s → f b k s = some (b', s') → P (k + 1) b' s')
    (h0 : P 0 b s) (h : (List.range n).foldlM f b s = some (b', s')) : P n b' s' := by
  induction n generalizing b' s' with
  | zero =>
      cases h
      exact h0
  | succ n ih =>
      rw [foldlM_range_succ] at h
      obtain ⟨c, t, hfirst, hlast⟩ := bind_eq_some h
      exact hstep n (by omega) c t b' s' (ih (fun k hk => hstep k (by omega)) hfirst) hlast

/-- A loop has a result if every round has one. -/
theorem foldlM_range_exists {n : Nat} {b : β} {s : Machine ρ α}
    (hstep : ∀ k < n, ∀ b s, P k b s → ∃ b' s', f b k s = some (b', s') ∧ P (k + 1) b' s')
    (h0 : P 0 b s) : ∃ b' s', (List.range n).foldlM f b s = some (b', s') ∧ P n b' s' := by
  induction n with
  | zero => exact ⟨b, s, rfl, h0⟩
  | succ n ih =>
      obtain ⟨c, t, hfirst, hP⟩ := ih fun k hk => hstep k (by omega)
      obtain ⟨b', s', hlast, hP'⟩ := hstep n (by omega) c t hP
      refine ⟨b', s', ?_, hP'⟩
      rw [foldlM_range_succ, bind_of_some hfirst]
      exact hlast

/-! ## Programs that release -/

/-- The program has a result, and it releases the blocks `as` and does nothing else. -/
def Releases (m : Program ρ α Unit) (as : List Nat) (s : Machine ρ α) : Prop :=
  ∃ h, m s = some ((), ⟨s.io, h⟩) ∧ h.block = s.heap.without as

theorem Heap.without_append {h h' : Heap α} {as : List Nat} (hs : h'.block = h.without as)
    (bs : List Nat) : h'.without bs = h.without (as ++ bs) := by
  funext a
  rw [Heap.without, Heap.without, hs, Heap.without]
  simp only [List.mem_append]
  by_cases hb : a ∈ bs
  · rw [if_pos hb, if_pos (Or.inr hb)]
  · simp only [hb, or_false, if_false]

theorem Releases.nothing (s : Machine ρ α) : Releases (pure ()) [] s :=
  ⟨s.heap, rfl, s.heap.without_nil.symm⟩

theorem releases_freeBlock {a : Nat} {s : Machine ρ α} {x : α} (h : s.heap.block a = some x) :
    Releases (freeBlock a) [a] s := by
  refine ⟨s.heap.release a, freeBlock_of_block h, ?_⟩
  funext b
  simp only [Heap.release, Heap.without, List.mem_singleton]
  by_cases hb : b = a
  · rw [hb, Function.update_self, if_pos rfl]
  · rw [Function.update_of_ne hb, if_neg hb]

/-- The order of the blocks does not matter. -/
theorem Releases.of_perm {m : Program ρ α Unit} {as bs : List Nat} {s : Machine ρ α}
    (hm : Releases m as s) (hperm : as.Perm bs) : Releases m bs s := by
  obtain ⟨h, hrun, hblock⟩ := hm
  refine ⟨h, hrun, hblock.trans ?_⟩
  funext a
  rw [Heap.without, Heap.without]
  simp only [hperm.mem_iff]

/-- One after the other. -/
theorem Releases.seq {m k : Program ρ α Unit} {as bs : List Nat} {s : Machine ρ α}
    (hm : Releases m as s)
    (hk : ∀ h : Heap α, h.block = s.heap.without as → Releases k bs ⟨s.io, h⟩) :
    Releases (m >>= fun _ => k) (as ++ bs) s := by
  obtain ⟨h, hrun, hblock⟩ := hm
  obtain ⟨h', hrun', hblock'⟩ := hk h hblock
  refine ⟨h', ?_, ?_⟩
  · rw [bind_of_some hrun, hrun']
  · rw [hblock', Heap.without_append hblock]

/-- A loop whose rounds release the blocks of one entry each. -/
theorem Releases.range {body : Nat → Program ρ α Unit} {ass : List (List Nat)} {s : Machine ρ α}
    (hbody : ∀ k as, ass[k]? = some as → ∀ h : Heap α,
      h.block = s.heap.without (ass.take k).flatten → Releases (body k) as ⟨s.io, h⟩) :
    Releases ((List.range ass.length).foldlM (fun _ k => body k) ()) ass.flatten s := by
  obtain ⟨⟨⟩, s', hrun, hio, hblock⟩ := foldlM_range_exists
    (f := fun _ k => body k) (n := ass.length) (b := ()) (s := s)
    (P := fun k _ t => t.io = s.io ∧ t.heap.block = s.heap.without (ass.take k).flatten)
    (fun k hk _ t ht => by
      obtain ⟨h, hround, hreleased⟩ := hbody k _ (List.getElem?_eq_getElem hk) t.heap ht.2
      rw [← ht.1] at hround
      refine ⟨(), _, hround, ht.1, ?_⟩
      rw [hreleased, Heap.without_append ht.2, List.take_succ_eq_append_getElem hk,
        List.flatten_append, List.flatten_singleton])
    ⟨rfl, s.heap.without_nil.symm⟩
  rw [List.take_length] at hblock
  exact ⟨s'.heap, by rw [hrun, ← hio], hblock⟩

end Program

end LabComm.Library
