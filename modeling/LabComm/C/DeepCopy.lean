import LabComm.C.HeapArrays

set_option autoImplicit false

/-! # Copies of samples and their deallocation

What `C_emitCopy`, `C_emitCopyDeallocation` and `C_emitDecoderDeallocation` generate, on a heap: a
string and a variable array take one block each, and the two deallocations are one walk over the
type that leaves out what is not dynamic.

A copy has blocks of its own (`cEmitCopy_correct`) and is made whenever no variable array has more
than `2 ^ 31` elements (`cEmitCopy_exists`): the index of an element is an `int`. The deallocation
releases each block of a value once and no other (`deallocate_frees`).
-/

namespace LabComm.C

open Library

variable {ρ : Type}

/-! ## The generated code -/

/-- `labcomm2014_memory_alloc(mem, 1, strlen(s)+1)` and `memcpy` -/
def copyString (p : Nat) : MemoryM ρ Nat := do
  let s ← loadString p
  newBlock (.string (s ++ [0]))

mutual

/-- `DataType.C_emitCopy`: what the destination holds after the copy of the source. -/
def cEmitCopy : DataType → Slot → MemoryM ρ Slot
  | .void, _ => pure .unset
  | .prim .string, .chars p => Slot.chars <$> copyString p
  | .prim .string, _ => given none
  | .prim _, x => pure x
  | .user _ type, x => cEmitCopy type x
  | .struct fields, .struct xs => Slot.struct <$> cEmitCopyFields fields xs
  | .array elem dim, .fixedArray a => Slot.fixedArray <$> fillFixed dim fun i => do
      let x ← given (slotAt a i)
      cEmitCopy elem x
  | .array elem dim, .variableArray n a => Slot.variableArray n <$> fillVariable dim n fun i => do
      let x ← loadSlot a i
      cEmitCopy elem x
  | _, _ => given none

/-- `Field.C_emitCopy`, for the fields in order. -/
def cEmitCopyFields : Fields → List Slot → MemoryM ρ (List Slot)
  | .nil, _ => pure []
  | .cons _ _ type rest, x :: xs => do
      let y ← cEmitCopy type x
      let ys ← cEmitCopyFields rest xs
      pure (y :: ys)
  | .cons .., [] => given none

end

mutual

/-- The two deallocations; they differ in what is done about `void`. -/
def deallocate (onVoid : MemoryM ρ Unit) : DataType → Slot → MemoryM ρ Unit
  | .void, _ => onVoid
  | .prim .string, .chars p => freeBlock p
  | .prim .string, _ => given none
  | .prim _, _ => pure ()
  | .user _ type, x => if cIsDynamic type then deallocate onVoid type x else pure ()
  | .struct fields, .struct xs =>
      if cIsDynamicFields fields then deallocateFields onVoid fields xs else pure ()
  | .array elem dim, .fixedArray a =>
      if cIsDynamic elem then
        arrayLoop dim (literalLimits dim) (fun i _ => do
          let x ← given (slotAt a i)
          deallocate onVoid elem x) ()
      else pure ()
  | .array elem dim, .variableArray n a => do
      if cIsDynamic elem then
        arrayLoop dim (loopLimits dim n) (fun i _ => do
          let x ← loadSlot a i
          deallocate onVoid elem x) ()
      freeBlock a
  | _, _ => given none

/-- The same of the fields, in order. -/
def deallocateFields (onVoid : MemoryM ρ Unit) : Fields → List Slot → MemoryM ρ Unit
  | .nil, _ => pure ()
  | .cons _ _ type rest, x :: xs => do
      deallocate onVoid type x
      deallocateFields onVoid rest xs
  | .cons .., [] => given none

end

/-- `DataType.C_emitCopyDeallocation` -/
def cEmitCopyDeallocation : DataType → Slot → MemoryM ρ Unit := deallocate (pure ())

/-- `DataType.C_emitDecoderDeallocation`: the generator throws if it comes to a `void`, for which
nothing is declared. -/
def cEmitDecoderDeallocation : DataType → Slot → MemoryM ρ Unit := deallocate (given none)

/-! ## Copies -/

variable {s s' : Machine ρ Contents}

/-- A stored string is found up to its end. -/
theorem loadString_of_block {p : Nat} {chars : List UInt8} (h0 : (0 : UInt8) ∉ chars)
    (hp : s.heap.block p = some (.string (chars ++ [0]))) :
    loadString p s = some (chars, s) := by
  have hall : (chars ++ [0]).takeWhile (· ≠ 0) = chars := by
    rw [List.takeWhile_append_of_pos fun b hb => by simpa using fun hb0 : b = 0 => h0 (hb0 ▸ hb)]
    simp
  rw [loadString, bind_of_some (loadBlock_of_block hp)]
  show given (if 0 ∈ chars ++ [0] then some ((chars ++ [0]).takeWhile (· ≠ 0)) else none) s = _
  rw [if_pos (by simp), hall]
  rfl

theorem copyString_of_block {p : Nat} {chars : List UInt8} (h0 : (0 : UInt8) ∉ chars)
    (hp : s.heap.block p = some (.string (chars ++ [0]))) :
    copyString p s =
      some (s.heap.next, ⟨s.io, s.heap.allocate (.string (chars ++ [0]))⟩) := by
  rw [copyString, bind_of_some (loadString_of_block h0 hp)]
  rfl

/-- A copy that has a result is one of the value, and the value has only arrays that fit. -/
def CopyCorrect (ρ : Type) (t : DataType) : Prop :=
  ∀ (x : Slot) (v : Value) (as : List Nat) (s s' : Machine ρ Contents) (y : Slot),
    Holds s.heap t x v as → Storable t v → cEmitCopy t x s = some (y, s') →
      ArraysFit t v ∧ ∃ bs, Extends s.heap s'.heap bs ∧ Holds s'.heap t y v bs

/-- A value whose arrays fit is copied. -/
def CopyExists (ρ : Type) (t : DataType) : Prop :=
  ∀ (x : Slot) (v : Value) (as : List Nat) (s : Machine ρ Contents),
    Holds s.heap t x v as → Storable t v → ArraysFit t v → ∃ y s', cEmitCopy t x s = some (y, s')

/-- What is known of the elements that are copied. -/
def Copied (elem : DataType) (a : List Value) (k : Nat) (_ : ρ) (vs : List Value) : Prop :=
  vs = a.take k ∧ ∀ v ∈ vs, ArraysFit elem v

theorem take_concat {α : Type} {a : List α} {k : Nat} {v : α} (h : a[k]? = some v) :
    a.take (k + 1) = a.take k ++ [v] := by
  rw [List.take_add_one, h]
  rfl

section Elements

variable {h : Heap Contents} {elem : DataType} {slots : List Slot} {a : List Value}
  {ass : List (List Nat)} {k : Nat}

/-- `get` finds the slot `x`, as long as the blocks of `h` are there. -/
def Gets (h : Heap Contents) (get : MemoryM ρ Slot) (x : Slot) : Prop :=
  ∀ t as, Extends h t.heap as → get t = some (x, t)

/-- The element of a fixed array. -/
theorem gets_slotAt {x : Slot} (hx : slots[k]? = some x) :
    Gets (ρ := ρ) h (given (slotAt slots (k : Int))) x := by
  intro t as _
  rw [slotAt_natCast, hx]
  rfl

/-- The element of a variable array. -/
theorem gets_loadSlot {p : Nat} {x : Slot} (hp : h.block p = some (.elements slots))
    (hx : slots[k]? = some x) : Gets (ρ := ρ) h (loadSlot p (k : Int)) x := by
  intro t as hext
  exact loadSlot_of_block (hext.live hp) (by rw [slotAt_natCast, hx])

/-- The copy of an element is the next element of the copy. -/
theorem copy_builds (hslots : Together (fun x v as => Holds h elem x v as) slots a ass)
    (ha : ∀ v ∈ a, Storable elem v) (hcopy : CopyCorrect ρ elem) (hk : k < a.length)
    {get : MemoryM ρ Slot} (hget : ∀ x, slots[k]? = some x → Gets h get x) :
    Builds h elem (Copied elem a) k (get >>= fun x => cEmitCopy elem x) := by
  intro t as vs x t' hext hlen htrack hrun
  obtain ⟨y, v, bs, hy, hv, -, hholds⟩ := hslots.at hk
  rw [bind_of_some (hget y hy t as hext)] at hrun
  obtain ⟨hfit, cs, hnew, hx⟩ := hcopy y v bs t t' x (hholds.extend hext)
    (ha v (List.mem_of_getElem? hv)) hrun
  refine ⟨v, cs, hnew, hx, ?_, fun w hw => ?_⟩
  · rw [take_concat hv, htrack.1]
  · rcases List.mem_append.mp hw with hw | hw
    · exact htrack.2 w hw
    · rw [List.mem_singleton] at hw
      exact hw ▸ hfit

/-- An element whose arrays fit is copied. -/
theorem copyElement_exists (hslots : Together (fun x v as => Holds h elem x v as) slots a ass)
    (ha : ∀ v ∈ a, Storable elem v) (hfit : ∀ v ∈ a, ArraysFit elem v)
    (hexists : CopyExists ρ elem) (hk : k < a.length) {get : MemoryM ρ Slot}
    (hget : ∀ x, slots[k]? = some x → Gets h get x) {t : Machine ρ Contents} {as : List Nat}
    (hext : Extends h t.heap as) :
    ∃ x t', (get >>= fun x => cEmitCopy elem x) t = some (x, t') := by
  obtain ⟨y, v, bs, hy, hv, -, hholds⟩ := hslots.at hk
  have hmem := List.mem_of_getElem? hv
  rw [bind_of_some (hget y hy t as hext)]
  exact hexists y v bs t (hholds.extend hext) (ha v hmem) (hfit v hmem)

end Elements

mutual

theorem cEmitCopy_correct : ∀ t : DataType, CopyCorrect ρ t
  | .void => by
      rintro x v as s s' y ⟨-, rfl, -⟩ - hrun
      cases hrun
      exact ⟨trivial, [], Extends.refl _, rfl, rfl, rfl⟩
  | .prim p => by
      intro x v as s s' y hx hv hrun
      cases p with
      | string =>
          obtain ⟨p, chars, rfl, rfl, hp, rfl⟩ := hx
          obtain ⟨_, ⟨rfl⟩, h0⟩ := hv
          obtain ⟨q, hq, rfl⟩ := map_eq_some hrun
          rw [copyString_of_block h0 hp] at hq
          cases hq
          exact ⟨trivial, [s.heap.next], Extends.allocate _ _, _, _, rfl, rfl,
            Function.update_self .., rfl⟩
      | sample | boolean | byte | short | int | long | float | double =>
          obtain ⟨_, rfl, rfl, rfl⟩ := hx
          cases hrun
          exact ⟨trivial, [], Extends.refl _, _, rfl, rfl, rfl⟩
  | .user _ type => cEmitCopy_correct type
  | .struct fields => by
      rintro x v as s s' y ⟨xs, vs, rfl, rfl, hxs⟩ ⟨_, ⟨rfl⟩, hvs⟩ hrun
      obtain ⟨ys, hys, rfl⟩ := map_eq_some hrun
      obtain ⟨hfit, bs, hext, hholds⟩ := cEmitCopyFields_correct fields xs vs as s s' ys hxs hvs hys
      exact ⟨hfit, bs, hext, ys, vs, rfl, rfl, hholds⟩
  | .array elem dim => by
      rintro x v as s s' y ⟨n, a, slots, ass, rfl, hn, hlen, hslots, hshape⟩
        ⟨_, _, ⟨rfl, rfl⟩, -, -, ha⟩ hrun
      have hcopy : CopyCorrect ρ elem := cEmitCopy_correct elem
      -- the elements are in the value itself, or in a block of their own
      rcases hshape with ⟨hfixed, rfl, rfl⟩ | ⟨hvar, p, rfl, hp, rfl⟩
      · obtain ⟨b, hb, rfl⟩ := map_eq_some hrun
        have hlimits := literalLimits_eq hfixed hn
        rw [hlimits] at hlen
        obtain ⟨vs, bss, hext, hholds, hcount, hvs, hfit⟩ := fillFixed_some hfixed ⟨rfl, by simp⟩
          (fun k hk => copy_builds hslots ha hcopy (by omega) fun _ hx => gets_slotAt hx) hb
        rw [← hlen, List.take_length] at hvs
        subst hvs
        exact ⟨⟨fun hvar => absurd hvar (by simp [hfixed]), hfit⟩, bss.flatten, hext,
          n, vs, b, bss, rfl, hn, by rw [hlimits]; exact hlen, hholds, .inl ⟨hfixed, rfl, rfl⟩⟩
      · obtain ⟨q, hq, rfl⟩ := map_eq_some hrun
        obtain ⟨b, vs, bss, hblock, hext, hholds, hcount, hle, hvs, hfit⟩ :=
          fillVariable_some hvar hn ⟨rfl, by simp⟩
            (fun k hk _ => copy_builds hslots ha hcopy (by omega) fun _ hx => gets_loadSlot hp hx) hq
        rw [← hlen, List.take_length] at hvs
        subst hvs
        exact ⟨⟨fun _ => by omega, hfit⟩, q :: bss.flatten, hext,
          n, vs, b, bss, rfl, hn, hlen, hholds, .inr ⟨hvar, q, rfl, hblock, rfl⟩⟩

theorem cEmitCopyFields_correct : ∀ (fields : Fields) (xs : List Slot) (vs : List Value)
    (as : List Nat) (s s' : Machine ρ Contents) (ys : List Slot),
    HoldsFields s.heap fields xs vs as → StorableFields fields vs →
      cEmitCopyFields fields xs s = some (ys, s') →
      ArraysFitFields fields vs ∧
        ∃ bs, Extends s.heap s'.heap bs ∧ HoldsFields s'.heap fields ys vs bs
  | .nil, _, _, _, s, _, _, ⟨_, hvs, _⟩, _, hrun => by
      subst hvs
      cases hrun
      exact ⟨trivial, [], Extends.refl _, rfl, rfl, rfl⟩
  | .cons _ _ type rest, _, _, _, s, s', ys, hx, hv, hrun => by
      obtain ⟨x, xs, v, vs, as, bs, rfl, rfl, rfl, hfirst, hrest⟩ := hx
      obtain ⟨_, _, ⟨rfl, rfl⟩, hv, hvs⟩ := hv
      obtain ⟨y, t, hy, hmore⟩ := bind_eq_some hrun
      obtain ⟨zs, t', hzs, hend⟩ := bind_eq_some hmore
      cases hend
      obtain ⟨hfit, cs, hext, hholds⟩ := cEmitCopy_correct type x v as s t y hfirst hv hy
      obtain ⟨hfits, ds, hext', hholds'⟩ :=
        cEmitCopyFields_correct rest xs vs bs t _ zs (hrest.extend hext) hvs hzs
      exact ⟨⟨hfit, hfits⟩, cs ++ ds, hext.trans hext', y, zs, v, vs, cs, ds, rfl, rfl, rfl,
        hholds.extend hext', hholds'⟩

end

mutual

/-- A value whose arrays fit is copied. -/
theorem cEmitCopy_exists : ∀ t : DataType, CopyExists ρ t
  | .void => fun x v as s _ _ _ => ⟨.unset, s, rfl⟩
  | .prim p => by
      intro x v as s hx hv _
      cases p with
      | string =>
          obtain ⟨p, chars, rfl, rfl, hp, rfl⟩ := hx
          obtain ⟨_, ⟨rfl⟩, h0⟩ := hv
          exact ⟨_, _, map_of_some Slot.chars (copyString_of_block h0 hp)⟩
      | sample | boolean | byte | short | int | long | float | double => exact ⟨x, s, rfl⟩
  | .user _ type => cEmitCopy_exists type
  | .struct fields => by
      rintro x v as s ⟨xs, vs, rfl, rfl, hxs⟩ ⟨_, ⟨rfl⟩, hvs⟩ hfit
      obtain ⟨ys, s', hys⟩ := cEmitCopyFields_exists fields xs vs as s hxs hvs hfit
      exact ⟨_, _, map_of_some Slot.struct hys⟩
  | .array elem dim => by
      rintro x v as s ⟨n, a, slots, ass, rfl, hn, hlen, hslots, hshape⟩
        ⟨_, _, ⟨rfl, rfl⟩, -, -, ha⟩ ⟨hcount, hfit⟩
      have hcopy : CopyCorrect ρ elem := cEmitCopy_correct elem
      have hexists : CopyExists ρ elem := cEmitCopy_exists elem
      have hstart : Copied elem a 0 s.io [] := ⟨rfl, by simp⟩
      -- the two loops differ in where they take the element from
      rcases hshape with ⟨hfixed, rfl, rfl⟩ | ⟨hvar, p, rfl, hp, rfl⟩
      · rw [literalLimits_eq hfixed hn] at hlen
        have hrun : ∃ b s', fillFixed dim (fun i => do
            let x ← given (slotAt slots i)
            cEmitCopy elem x) s = some (b, s') := fillFixed_exists hfixed hstart
          (fun k hk => copy_builds hslots ha hcopy (hlen ▸ hk) fun _ hx => gets_slotAt hx)
          fun k hk t bs vs hext _ _ =>
            copyElement_exists hslots ha hfit hexists (hlen ▸ hk) (fun _ hx => gets_slotAt hx) hext
        obtain ⟨b, s', hb⟩ := hrun
        exact ⟨_, _, map_of_some Slot.fixedArray hb⟩
      · have hrun : ∃ q s', fillVariable dim n (fun i => do
            let x ← loadSlot p i
            cEmitCopy elem x) s = some (q, s') :=
          fillVariable_exists hvar hn (hlen ▸ hcount hvar) hstart
          (fun k hk => copy_builds hslots ha hcopy (hlen ▸ hk) fun _ hx => gets_loadSlot hp hx)
          fun k hk t bs vs hext _ _ =>
            copyElement_exists hslots ha hfit hexists (hlen ▸ hk)
              (fun _ hx => gets_loadSlot hp hx) hext
        obtain ⟨q, s', hq⟩ := hrun
        exact ⟨_, _, map_of_some (Slot.variableArray n) hq⟩

theorem cEmitCopyFields_exists : ∀ (fields : Fields) (xs : List Slot) (vs : List Value)
    (as : List Nat) (s : Machine ρ Contents),
    HoldsFields s.heap fields xs vs as → StorableFields fields vs → ArraysFitFields fields vs →
      ∃ ys s', cEmitCopyFields fields xs s = some (ys, s')
  | .nil, _, _, _, s, _, _, _ => ⟨[], s, rfl⟩
  | .cons _ _ type rest, _, _, _, s, hx, hv, hfit => by
      obtain ⟨x, xs, v, vs, as, bs, rfl, rfl, rfl, hfirst, hrest⟩ := hx
      obtain ⟨_, _, ⟨rfl, rfl⟩, hv, hvs⟩ := hv
      obtain ⟨y, t, hy⟩ := cEmitCopy_exists type x v as s hfirst hv hfit.1
      obtain ⟨-, cs, hext, -⟩ := cEmitCopy_correct type x v as s t y hfirst hv hy
      obtain ⟨ys, t', hys⟩ :=
        cEmitCopyFields_exists rest xs vs bs t (hrest.extend hext) hvs hfit.2
      refine ⟨y :: ys, t', ?_⟩
      rw [cEmitCopyFields, bind_of_some hy, bind_of_some hys]
      rfl

end

/-! ## Deallocation -/

/-- The type has no `void` that the deallocation would come to, or a `void` is passed over. -/
def PassesVoid (onVoid : MemoryM ρ Unit) (t : DataType) : Prop :=
  onVoid = pure () ∨ t.isNull = false ∧ t.Accepted

/-- The blocks of an element are none of those of the elements before it. -/
theorem nodup_flatten_at {ass : List (List Nat)} {as : List Nat} {k : Nat}
    (hnodup : ass.flatten.Nodup) (hk : ass[k]? = some as) :
    as.Nodup ∧ ∀ b ∈ as, b ∉ (ass.take k).flatten := by
  obtain ⟨hlt, hget⟩ := List.getElem?_eq_some_iff.mp hk
  have hsplit : ass = ass.take k ++ as :: ass.drop (k + 1) := by
    rw [← hget, ← List.drop_eq_getElem_cons hlt, List.take_append_drop]
  rw [hsplit, List.flatten_append, List.flatten_cons, List.nodup_append'] at hnodup
  obtain ⟨-, hrest, hdisjoint⟩ := hnodup
  refine ⟨(List.nodup_append'.mp hrest).1, fun b hb hmem => ?_⟩
  exact hdisjoint hmem (List.mem_append_left _ hb)

/-- A value is still stored after blocks of others are released. -/
theorem Holds.without {h h' : Heap Contents} {t : DataType} {x : Slot} {v : Value}
    {as bs : List Nat} (hx : Holds h t x v as) (hs : h'.block = h.without bs)
    (hdisjoint : ∀ b ∈ as, b ∉ bs) : Holds h' t x v as :=
  holds_congr t x v as (fun b hb => by rw [hs, Heap.without, if_neg (hdisjoint b hb)]) hx

theorem HoldsFields.without {h h' : Heap Contents} {fields : Fields} {xs : List Slot}
    {vs : List Value} {as bs : List Nat} (hx : HoldsFields h fields xs vs as)
    (hs : h'.block = h.without bs) (hdisjoint : ∀ b ∈ as, b ∉ bs) :
    HoldsFields h' fields xs vs as :=
  holdsFields_congr fields xs vs as
    (fun b hb => by rw [hs, Heap.without, if_neg (hdisjoint b hb)]) hx

/-- The deallocation releases the blocks of a value. -/
def Deallocates (onVoid : MemoryM ρ Unit) (t : DataType) : Prop :=
  ∀ (x : Slot) (v : Value) (as : List Nat) (s : Machine ρ Contents),
    Holds s.heap t x v as → as.Nodup → ArraysFit t v → PassesVoid onVoid t →
      Releases (deallocate onVoid t x) as s

/-- The loop over the elements releases the blocks of each; `get` finds the elements. -/
theorem deallocateElements_releases {onVoid : MemoryM ρ Unit} {elem : DataType}
    (hdealloc : Deallocates onVoid elem) {dim : List Exp} {n : List Int}
    (hn : List.Forall₂ HoldsSize dim n) {slots : List Slot} {a : List Value}
    {ass : List (List Nat)} (hslots : Together (fun x v as => Holds s.heap elem x v as) slots a ass)
    (hlen : a.length = (n.map Int.toNat).prod)
    (hcount : isVariable dim = true → a.length ≤ 2 ^ 31) (hfit : ∀ v ∈ a, ArraysFit elem v)
    (hvoid : PassesVoid onVoid elem) (hnodup : ass.flatten.Nodup) {get : Int → MemoryM ρ Slot}
    (hget : ∀ (k : Nat) (x : Slot), slots[k]? = some x → ∀ h' : Heap Contents,
      h'.block = s.heap.without (ass.take k).flatten → get k ⟨s.io, h'⟩ = some (x, ⟨s.io, h'⟩)) :
    Releases (arrayLoop dim n (fun i _ => do
      let x ← get i
      deallocate onVoid elem x) ()) ass.flatten s := by
  rw [arrayLoop_eq hn, ← hlen, ← hslots.length_eq.2]
  refine Releases.range fun k as hk h' hh' => ?_
  have hlt : k < a.length := by
    rw [← hslots.length_eq.2]
    exact (List.getElem?_eq_some_iff.mp hk).1
  obtain ⟨x, v, bs, hx, hv, hbs, hholds⟩ := hslots.at hlt
  rw [hk, Option.some.injEq] at hbs
  subst hbs
  obtain ⟨hnodup', hdisjoint⟩ := nodup_flatten_at hnodup hk
  rw [position_eq fun hvar => by have := hcount hvar; omega]
  have hreleases := hdealloc x v as ⟨s.io, h'⟩ (hholds.without hh' hdisjoint) hnodup'
    (hfit v (List.mem_of_getElem? hv)) hvoid
  obtain ⟨h'', hrun, hblock⟩ := hreleases
  exact ⟨h'', by rw [bind_of_some (hget k x hx h' hh'), hrun], hblock⟩

mutual

/-- **Each block of a value is released once, and no other.** -/
theorem deallocate_frees (onVoid : MemoryM ρ Unit) : ∀ t : DataType, Deallocates onVoid t
  | .void => by
      rintro x v as s ⟨-, -, rfl⟩ - - hvoid
      rcases hvoid with rfl | ⟨hnull, -⟩
      · exact Releases.nothing s
      · exact absurd hnull (by simp [DataType.isNull])
  | .prim p => by
      intro x v as s hx _ _ _
      cases p with
      | string =>
          obtain ⟨p, chars, rfl, -, hp, rfl⟩ := hx
          exact releases_freeBlock hp
      | sample | boolean | byte | short | int | long | float | double =>
          obtain ⟨_, -, -, rfl⟩ := hx
          exact Releases.nothing s
  | .user _ type => by
      intro x v as s hx hnodup hfit hvoid
      -- the generated code calls nothing for a type without dynamic parts
      rw [deallocate]
      split
      · exact deallocate_frees onVoid type x v as s hx hnodup hfit hvoid
      · rename_i hdyn
        rw [holds_static type x v as (by simpa using hdyn) hx]
        exact Releases.nothing s
  | .struct fields => by
      rintro x v as s ⟨xs, vs, rfl, rfl, hxs⟩ hnodup hfit hvoid
      rw [deallocate]
      split
      · exact deallocateFields_frees onVoid fields xs vs as s hxs hnodup hfit
          (hvoid.imp_right fun h => h.2.2.2)
      · rename_i hdyn
        rw [holdsFields_static fields xs vs as (by simpa using hdyn) hxs]
        exact Releases.nothing s
  | .array elem dim => by
      rintro x v as s ⟨n, a, slots, ass, rfl, hn, hlen, hslots, hshape⟩ hnodup ⟨hcount, hfit⟩ hvoid
      have hdealloc : Deallocates onVoid elem := deallocate_frees onVoid elem
      have hvoid' : PassesVoid onVoid elem := hvoid.imp_right fun h => ⟨h.2.2.2.1, h.2.2.2.2⟩
      rcases hshape with ⟨hfixed, rfl, rfl⟩ | ⟨hvar, p, rfl, hp, rfl⟩
      · rw [deallocate, ← literalLimits_eq hfixed hn]
        split
        · refine deallocateElements_releases hdealloc hn hslots hlen hcount hfit hvoid' hnodup
            fun k x hx h' _ => ?_
          rw [slotAt_natCast, hx]
          rfl
        · rename_i hdyn
          rw [together_static (by simpa using hdyn) hslots]
          exact Releases.nothing s
      · rw [List.nodup_cons] at hnodup
        rw [deallocate, loopLimits_of_holds hn]
        split
        · -- the block of the array is released after those of its elements
          refine Releases.of_perm (Releases.seq (deallocateElements_releases hdealloc hn hslots hlen
            hcount hfit hvoid' hnodup.2 fun k x hx h' hh' => ?_) fun h' hh' => ?_)
            (List.perm_append_singleton p ass.flatten)
          · refine loadSlot_of_block (a := slots) ?_ (by rw [slotAt_natCast, hx])
            show h'.block p = _
            rw [hh', Heap.without, if_neg, hp]
            exact fun hmem => hnodup.1 ((List.take_sublist k ass).flatten.subset hmem)
          · refine releases_freeBlock (x := .elements slots) ?_
            show h'.block p = _
            rw [hh', Heap.without, if_neg hnodup.1, hp]
        · rename_i hdyn
          rw [together_static (by simpa using hdyn) hslots]
          exact releases_freeBlock hp

theorem deallocateFields_frees (onVoid : MemoryM ρ Unit) :
    ∀ (fields : Fields) (xs : List Slot) (vs : List Value) (as : List Nat)
      (s : Machine ρ Contents), HoldsFields s.heap fields xs vs as → as.Nodup →
      ArraysFitFields fields vs → onVoid = pure () ∨ fields.Accepted →
        Releases (deallocateFields onVoid fields xs) as s
  | .nil, _, _, _, s, hx, _, _, _ => by
      obtain ⟨-, -, rfl⟩ := hx
      exact Releases.nothing s
  | .cons _ _ type rest, _, _, _, s, hx, hnodup, hfit, hvoid => by
      obtain ⟨x, xs, v, vs, as, bs, rfl, rfl, rfl, hfirst, hrest⟩ := hx
      rw [List.nodup_append'] at hnodup
      refine Releases.seq (deallocate_frees onVoid type x v as s hfirst hnodup.1 hfit.1
        (hvoid.imp_right fun h => ⟨h.2.1, h.2.2.1⟩)) fun h' hh' => ?_
      exact deallocateFields_frees onVoid rest xs vs bs ⟨s.io, h'⟩
        (hrest.without hh' fun b hb hmem => hnodup.2.2 hmem hb) hnodup.2.1 hfit.2
        (hvoid.imp_right fun h => h.2.2.2)

end

end LabComm.C
