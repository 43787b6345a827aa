import LabComm.C.DeepCopy

set_option autoImplicit false

/-! # The decoder and its memory

`C_emitDecoder` with its allocations, and the release of what it allocated when the handler has
returned. Whatever comes in, the end of the decoder releases the blocks of what was decoded and no
other (`decoderEnd_releases`); what an encoder wrote of a value is decoded to that value
(`cEmitDecoderTo_wire`).

With the copies of the value this works as long as no variable array has more than `2 ^ 31`
elements and every string fits in memory with its length in an `int` (`deepCopies_iff`).
-/

namespace LabComm.C

open Library

variable {φ : Host}

/-! ## The generated code -/

/-- A read of `r`. -/
def ofReader {α : Type} (m : StateM (Reader φ) α) : MemoryM (Reader φ) α := fun s =>
  some ((m s.io).1, { s with io := (m s.io).2 })

/-- `labcomm2014_read_string`, if `length + 1` bytes can be allocated. -/
def readStringTo : MemoryM (Reader φ) Nat := do
  let length := wrap32 (← ofReader readPacked32)
  let n ← given (if 0 ≤ length ∧ length + 1 < 2 ^ 31 then some length.toNat else none)
  let s ← ofReader (readChars n [])
  newBlock (.string (s ++ [0]))

mutual

/-- `DataType.C_emitDecoder` -/
def cEmitDecoderTo (toRef : Int → Option Nat) : DataType → MemoryM (Reader φ) Slot
  | .void => pure .unset
  | .prim .string => Slot.chars <$> readStringTo
  | .prim .sample => (fun i : Nat => Slot.ref (toRef (wrap32 i))) <$> ofReader (readScalar 4)
  | .prim p => Slot.bits <$> ofReader (readScalar p.size)
  | .user _ type => cEmitDecoderTo toRef type
  | .struct fields => Slot.struct <$> cEmitDecoderToFields toRef fields
  | .array elem dim => do
      let n ← ofReader (cEmitDecoderDecodeLimit dim)
      if isVariable dim then
        Slot.variableArray n <$> fillVariable dim n fun _ => cEmitDecoderTo toRef elem
      else
        Slot.fixedArray <$> fillFixed dim fun _ => cEmitDecoderTo toRef elem

/-- `Field.C_emitDecoder`, for the fields in order. -/
def cEmitDecoderToFields (toRef : Int → Option Nat) : Fields → MemoryM (Reader φ) (List Slot)
  | .nil => pure []
  | .cons _ _ type rest => do
      let x ← cEmitDecoderTo toRef type
      let xs ← cEmitDecoderToFields toRef rest
      pure (x :: xs)

end

/-- What the function `decode_S` does after `handle`. -/
def decoderEnd (type : DataType) (x : Slot) : MemoryM (Reader φ) Unit :=
  if cIsDynamic type then cEmitDecoderDeallocation type x else pure ()

/-! ## Copies and decoded values -/

mutual

/-- Every string has, with its terminating zero, a length that is an `int`. -/
def StringsAllocate : DataType → Value → Prop
  | .prim .string, .string s => s.length + 1 < 2 ^ 31
  | .user _ type, v => StringsAllocate type v
  | .struct fields, .struct vs => StringsAllocateFields fields vs
  | .array elem _, .array _ a => ∀ x ∈ a, StringsAllocate elem x
  | _, _ => True

/-- The same of the values of the fields. -/
def StringsAllocateFields : Fields → List Value → Prop
  | .cons _ _ type rest, v :: vs => StringsAllocate type v ∧ StringsAllocateFields rest vs
  | _, _ => True

end

/-- `labcomm2014_copy_S` stores the value of the source a second time, in blocks of its own, and
`labcomm2014_copy_free_S` leaves the heap there was before. -/
def CopiedAndFreed (type : DataType) (v : Value) (src : Slot) (h : Heap Contents) : Prop :=
  ∃ dst h' bs, cEmitCopy type src ⟨(), h⟩ = some (dst, ⟨(), h'⟩) ∧ Holds h' type dst v bs ∧
    (∀ b ∈ bs, h.block b = none) ∧ (∀ a c, h.block a = some c → h'.block a = some c) ∧
    ∃ h'', cEmitCopyDeallocation type dst ⟨(), h'⟩ = some ((), ⟨(), h''⟩) ∧ h''.block = h.block

/-- What an encoder wrote of the value is decoded to the value, in new blocks, and the end of the
decoder leaves the heap there was before. -/
def DecodedAndFreed (type : DataType) (v : Value) : Prop :=
  ∀ (φ : Host) (refs : RefTables) (toRef : Int → Option Nat) (s : Machine (Reader φ) Contents)
    (rest : List UInt8), s.io.error = 0 → s.io.unread = wire refs type v ++ rest →
    ∃ x s' bs, cEmitDecoderTo toRef type s = some (x, s') ∧
      Holds s'.heap type x (mapRefs (refs.seen toRef) type v) bs ∧
      (∀ b ∈ bs, s.heap.block b = none) ∧
      (∀ a c, s.heap.block a = some c → s'.heap.block a = some c) ∧
      ∃ s'', decoderEnd type x s' = some ((), s'') ∧ s''.heap.block = s.heap.block

/-! ## Reads -/

theorem ofReader_eq_some {α : Type} {m : StateM (Reader φ) α} {s s' : Machine (Reader φ) Contents}
    {a : α} (h : ofReader m s = some (a, s')) :
    a = (m s.io).1 ∧ s' = ⟨(m s.io).2, s.heap⟩ := by
  cases h
  exact ⟨rfl, rfl⟩

theorem ofReader_of_reads {α : Type} {m : StateM (Reader φ) α} {bs rest : List UInt8} {a : α}
    (hm : Parses m bs a) {s : Machine (Reader φ) Contents} (hok : s.io.error = 0)
    (hin : s.io.unread = bs ++ rest) :
    ∃ r : Reader φ, ofReader m s = some (a, ⟨r, s.heap⟩) ∧ r.error = 0 ∧ r.unread = rest := by
  obtain ⟨ha, herror, hrest⟩ := hm.reads s.io rest (not_not.mpr hok) hin
  exact ⟨(m s.io).2, by rw [← ha]; rfl, not_not.mp herror, hrest⟩

/-- The limits that are read are `int`s, whatever comes in. -/
theorem decodeLimit_holds (dim : List Exp) (r : Reader φ) :
    List.Forall₂ HoldsSize dim (cEmitDecoderDecodeLimit dim r).1 := by
  induction dim generalizing r with
  | nil => exact .nil
  | cons e dim ih =>
      cases e with
      | integerLiteral value => exact .cons rfl (ih r)
      | variableSize => exact .cons ⟨wrap32_ge _, wrap32_lt _⟩ (ih _)

theorem readChars_length_le (n : Nat) (acc : List UInt8) (r : Reader φ) :
    (readChars n acc r).1.length ≤ acc.length + n := by
  induction n generalizing acc r with
  | zero => exact Nat.le_refl _
  | succ n ih =>
      rw [readChars, stateM_bind]
      cases (nextByte (· < 0) r).1 with
      | none => exact Nat.le_add_right _ _
      | some b =>
          refine (ih (acc ++ [b]) _).trans ?_
          rw [List.length_append, List.length_singleton]
          omega

/-- The block of a string that was read. -/
theorem readStringTo_eq_some {s s' : Machine (Reader φ) Contents} {p : Nat}
    (h : readStringTo s = some (p, s')) :
    ∃ chars, chars.length + 1 < 2 ^ 31 ∧ Extends s.heap s'.heap [p] ∧
      s'.heap.block p = some (.string (chars ++ [0])) := by
  obtain ⟨i, t, hi, hrest⟩ := bind_eq_some h
  obtain ⟨-, rfl⟩ := ofReader_eq_some hi
  obtain ⟨n, t, hn, hrest⟩ := bind_eq_some hrest
  obtain ⟨hlength, rfl⟩ := given_eq_some hn
  obtain ⟨chars, t, hchars, hnew⟩ := bind_eq_some hrest
  obtain ⟨hread, rfl⟩ := ofReader_eq_some hchars
  cases hnew
  refine ⟨chars, ?_, Extends.allocate _ _, Function.update_self ..⟩
  have hle := readChars_length_le n [] (readPacked32 s.io).2
  rw [← hread] at hle
  split at hlength
  · rename_i hsmall
    rw [Option.some.injEq] at hlength
    have hnil : ([] : List UInt8).length = 0 := rfl
    omega
  · exact absurd hlength (by simp)

/-! ## What is decoded -/

/-- Whatever comes in, what is decoded is stored in new blocks. -/
def DecodesStored (toRef : Int → Option Nat) (φ : Host) (t : DataType) : Prop :=
  ∀ (s s' : Machine (Reader φ) Contents) (x : Slot), cEmitDecoderTo toRef t s = some (x, s') →
    ∃ v bs, Extends s.heap s'.heap bs ∧ Holds s'.heap t x v bs ∧ ArraysFit t v ∧
      StringsAllocate t v

/-- What is known of the elements that were decoded. -/
def Sized (elem : DataType) (_ : Nat) (_ : Reader φ) (vs : List Value) : Prop :=
  ∀ v ∈ vs, ArraysFit elem v ∧ StringsAllocate elem v

/-- A decoded element is the next element of the array. -/
theorem decode_builds {toRef : Int → Option Nat} {elem : DataType}
    (helem : DecodesStored toRef φ elem) (h : Heap Contents) (k : Nat) :
    Builds h elem (Sized (φ := φ) elem) k (cEmitDecoderTo toRef elem) := by
  intro t as vs x t' _ _ htrack hrun
  obtain ⟨v, bs, hext, hx, hsized⟩ := helem t t' x hrun
  refine ⟨v, bs, hext, hx, fun w hw => ?_⟩
  rcases List.mem_append.mp hw with hw | hw
  · exact htrack w hw
  · rw [List.mem_singleton] at hw
    exact hw ▸ hsized

mutual

theorem cEmitDecoderTo_stored (toRef : Int → Option Nat) :
    ∀ t : DataType, DecodesStored toRef φ t
  | .void => by
      intro s s' x hrun
      cases hrun
      exact ⟨.unset, [], Extends.refl _, ⟨rfl, rfl, rfl⟩, trivial, trivial⟩
  | .prim p => by
      intro s s' x hrun
      cases p with
      | string =>
          obtain ⟨p, hp, rfl⟩ := map_eq_some hrun
          obtain ⟨chars, hlength, hext, hblock⟩ := readStringTo_eq_some hp
          exact ⟨.string chars, [p], hext, ⟨p, chars, rfl, rfl, hblock, rfl⟩, trivial, hlength⟩
      | sample =>
          obtain ⟨i, hi, rfl⟩ := map_eq_some hrun
          obtain ⟨-, rfl⟩ := ofReader_eq_some hi
          exact ⟨_, [], Extends.refl _, ⟨_, rfl, rfl, rfl⟩, trivial, trivial⟩
      | boolean | byte | short | int | long | float | double =>
          obtain ⟨i, hi, rfl⟩ := map_eq_some hrun
          obtain ⟨-, rfl⟩ := ofReader_eq_some hi
          exact ⟨_, [], Extends.refl _, ⟨_, rfl, rfl, rfl⟩, trivial, trivial⟩
  | .user _ type => cEmitDecoderTo_stored toRef type
  | .struct fields => by
      intro s s' x hrun
      obtain ⟨xs, hxs, rfl⟩ := map_eq_some hrun
      obtain ⟨vs, bs, hext, hholds, hfit, hstrings⟩ :=
        cEmitDecoderToFields_stored toRef fields s s' xs hxs
      exact ⟨.struct vs, bs, hext, ⟨xs, vs, rfl, rfl, hholds⟩, hfit, hstrings⟩
  | .array elem dim => by
      intro s s' x hrun
      have helem : DecodesStored toRef φ elem := cEmitDecoderTo_stored toRef elem
      obtain ⟨n, t, hlimits, hrest⟩ := bind_eq_some hrun
      -- the limits are numbers: they need no memory
      obtain ⟨rfl, rfl⟩ := ofReader_eq_some hlimits
      have hn := decodeLimit_holds dim s.io
      have hstart : Sized elem 0 (cEmitDecoderDecodeLimit dim s.io).2 [] := by simp [Sized]
      generalize (cEmitDecoderDecodeLimit dim s.io).1 = n at hn hrest
      split at hrest
      · rename_i hvar
        obtain ⟨p, hp, rfl⟩ := map_eq_some hrest
        obtain ⟨slots, vs, bss, hblock, hext, hslots, hlen, hle, hsized⟩ :=
          fillVariable_some hvar hn hstart (fun k _ _ => decode_builds helem s.heap k) hp
        exact ⟨.array n vs, p :: bss.flatten, hext,
          ⟨n, vs, slots, bss, rfl, hn, hlen, hslots, .inr ⟨hvar, p, rfl, hblock, rfl⟩⟩,
          ⟨fun _ => hlen ▸ hle, fun v hv => (hsized v hv).1⟩, fun v hv => (hsized v hv).2⟩
      · rename_i hvar
        have hfixed : isVariable dim = false := by simpa using hvar
        obtain ⟨slots, hslots, rfl⟩ := map_eq_some hrest
        obtain ⟨vs, bss, hext, hholds, hlen, hsized⟩ :=
          fillFixed_some hfixed hstart (fun k _ => decode_builds helem s.heap k) hslots
        rw [← literalLimits_eq hfixed hn] at hlen
        exact ⟨.array n vs, bss.flatten, hext,
          ⟨n, vs, slots, bss, rfl, hn, hlen, hholds, .inl ⟨hfixed, rfl, rfl⟩⟩,
          ⟨fun hvar' => absurd hvar' hvar, fun v hv => (hsized v hv).1⟩,
          fun v hv => (hsized v hv).2⟩

theorem cEmitDecoderToFields_stored (toRef : Int → Option Nat) :
    ∀ (fields : Fields) (s s' : Machine (Reader φ) Contents) (xs : List Slot),
      cEmitDecoderToFields toRef fields s = some (xs, s') →
      ∃ vs bs, Extends s.heap s'.heap bs ∧ HoldsFields s'.heap fields xs vs bs ∧
        ArraysFitFields fields vs ∧ StringsAllocateFields fields vs
  | .nil, _, _, _, hrun => by
      cases hrun
      exact ⟨[], [], Extends.refl _, ⟨rfl, rfl, rfl⟩, trivial, trivial⟩
  | .cons _ _ type rest, s, s', _, hrun => by
      obtain ⟨x, t, hx, hmore⟩ := bind_eq_some hrun
      obtain ⟨xs, t', hxs, hend⟩ := bind_eq_some hmore
      cases hend
      obtain ⟨v, bs, hext, hfirst, hfit, hstring⟩ := cEmitDecoderTo_stored toRef type s t x hx
      obtain ⟨vs, cs, hext', hrest, hfits, hstrings⟩ :=
        cEmitDecoderToFields_stored toRef rest t _ xs hxs
      exact ⟨v :: vs, bs ++ cs, hext.trans hext',
        ⟨x, xs, v, vs, bs, cs, rfl, rfl, rfl, hfirst.extend hext', hrest⟩, ⟨hfit, hfits⟩,
        ⟨hstring, hstrings⟩⟩

end

/-- A `void` has nothing to deallocate. -/
theorem isNull_of_dynamic : ∀ t : DataType, cIsDynamic t = true → t.isNull = false
  | .void, h => absurd h (by simp [cIsDynamic])
  | .user _ type, h => by
      rw [cIsDynamic] at h
      exact isNull_of_dynamic type h
  | .prim _, _ => rfl
  | .struct _, _ => rfl
  | .array _ _, _ => rfl

/-- **Whatever was decoded, the end of the decoder leaves the heap there was before.** -/
theorem decoderEnd_releases {t : DataType} (ht : t.Accepted) {toRef : Int → Option Nat}
    {s s' : Machine (Reader φ) Contents} {x : Slot}
    (hrun : cEmitDecoderTo toRef t s = some (x, s')) :
    ∃ s'', decoderEnd t x s' = some ((), s'') ∧ s''.heap.block = s.heap.block := by
  obtain ⟨v, bs, hext, hx, hfit, -⟩ := cEmitDecoderTo_stored toRef t s s' x hrun
  rw [decoderEnd]
  split
  · rename_i hdyn
    obtain ⟨h, hfree, hblock⟩ := deallocate_frees (given none) t x v bs s' hx hext.nodup hfit
      (.inr ⟨isNull_of_dynamic t hdyn, ht⟩)
    exact ⟨⟨s'.io, h⟩, hfree, by rw [hblock, hext.without]⟩
  · rename_i hdyn
    obtain rfl := holds_static t x v bs (by simpa using hdyn) hx
    exact ⟨s', rfl, by rw [← hext.without, Heap.without_nil]⟩

/-! ## Values that were sent -/

/-- A string that was sent. -/
theorem readStringTo_of_unread {chars rest : List UInt8} (hlength : chars.length + 1 < 2 ^ 31)
    {s : Machine (Reader φ) Contents} (hok : s.io.error = 0)
    (hin : s.io.unread = packed32 chars.length ++ chars ++ rest) :
    ∃ r : Reader φ, readStringTo s =
        some (s.heap.next, ⟨r, s.heap.allocate (.string (chars ++ [0]))⟩) ∧
      r.error = 0 ∧ r.unread = rest := by
  rw [List.append_assoc] at hin
  obtain ⟨r, hread, hok', hin'⟩ :=
    ofReader_of_reads (readPacked32_parses (by omega)) hok hin
  have hchars : Parses (readChars (φ := φ) chars.length []) chars chars := by
    simpa using readChars_parses (φ := φ) chars []
  obtain ⟨r', hread', hok'', hin''⟩ :=
    ofReader_of_reads (s := ⟨r, s.heap⟩) hchars hok' hin'
  refine ⟨r', ?_, hok'', hin''⟩
  have hlen : given (if 0 ≤ wrap32 chars.length ∧ wrap32 chars.length + 1 < 2 ^ 31 then
      some (wrap32 chars.length).toNat else none) (⟨r, s.heap⟩ : Machine (Reader φ) Contents) =
      some (chars.length, ⟨r, s.heap⟩) := by
    rw [wrap32_natCast (by omega), if_pos ⟨by omega, by omega⟩]
    rfl
  rw [readStringTo, bind_of_some hread, bind_of_some hlen, bind_of_some hread']
  rfl

/-- What an encoder wrote of a value is decoded to the value, its references looked up. -/
def DecodesWire (refs : RefTables) (toRef : Int → Option Nat) (φ : Host) (t : DataType) : Prop :=
  ∀ (v : Value) (s : Machine (Reader φ) Contents) (rest : List UInt8), Storable t v →
    ArraysFit t v → StringsAllocate t v → s.io.error = 0 →
    s.io.unread = wire refs t v ++ rest →
    ∃ x s' bs, cEmitDecoderTo toRef t s = some (x, s') ∧ Extends s.heap s'.heap bs ∧
      Holds s'.heap t x (mapRefs (refs.seen toRef) t v) bs ∧ s'.io.error = 0 ∧ s'.io.unread = rest

/-- What is known after `k` elements of `a`. -/
def Received (refs : RefTables) (toRef : Int → Option Nat) (elem : DataType) (a : List Value)
    (rest : List UInt8) (k : Nat) (r : Reader φ) (vs : List Value) : Prop :=
  r.error = 0 ∧ r.unread = (a.drop k).flatMap (wire refs elem) ++ rest ∧
    vs = (a.take k).map (mapRefs (refs.seen toRef) elem)

section Received

variable {refs : RefTables} {toRef : Int → Option Nat} {elem : DataType} {a : List Value}
  {rest : List UInt8} {k : Nat} {vs : List Value} {t : Machine (Reader φ) Contents}

/-- The next element. -/
theorem received_next (helem : DecodesWire refs toRef φ elem) (ha : ∀ v ∈ a, Storable elem v)
    (hfit : ∀ v ∈ a, ArraysFit elem v) (hstrings : ∀ v ∈ a, StringsAllocate elem v)
    (hk : k < a.length) (htrack : Received refs toRef elem a rest k t.io vs) :
    ∃ v x t' bs, cEmitDecoderTo toRef elem t = some (x, t') ∧ Extends t.heap t'.heap bs ∧
      Holds t'.heap elem x v bs ∧ Received refs toRef elem a rest (k + 1) t'.io (vs ++ [v]) := by
  obtain ⟨hok, hin, hvs⟩ := htrack
  have hmem : a[k] ∈ a := List.getElem_mem hk
  rw [List.drop_eq_getElem_cons hk, List.flatMap_cons, List.append_assoc] at hin
  obtain ⟨x, t', bs, hrun, hext, hx, hok', hin'⟩ :=
    helem a[k] t _ (ha _ hmem) (hfit _ hmem) (hstrings _ hmem) hok hin
  refine ⟨_, x, t', bs, hrun, hext, hx, hok', hin', ?_⟩
  rw [hvs, List.take_succ_eq_append_getElem hk, List.map_append, List.map_singleton]

theorem received_builds (helem : DecodesWire refs toRef φ elem) (ha : ∀ v ∈ a, Storable elem v)
    (hfit : ∀ v ∈ a, ArraysFit elem v) (hstrings : ∀ v ∈ a, StringsAllocate elem v)
    (hk : k < a.length) (h : Heap Contents) :
    Builds h elem (Received (φ := φ) refs toRef elem a rest) k (cEmitDecoderTo toRef elem) := by
  intro t as vs x t' _ _ htrack hrun
  obtain ⟨v, y, u, bs, hrun', hext, hy, htrack'⟩ :=
    received_next helem ha hfit hstrings hk htrack
  rw [hrun, Option.some.injEq, Prod.mk.injEq] at hrun'
  obtain ⟨rfl, rfl⟩ := hrun'
  exact ⟨v, bs, hext, hy, htrack'⟩

/-- After the last element the rest of the input is left. -/
theorem received_all {r : Reader φ} (h : Received refs toRef elem a rest a.length r vs) :
    r.error = 0 ∧ r.unread = rest ∧ vs = a.map (mapRefs (refs.seen toRef) elem) := by
  obtain ⟨hok, hin, hvs⟩ := h
  rw [List.drop_length] at hin
  rw [List.take_length] at hvs
  exact ⟨hok, hin, hvs⟩

end Received

theorem cEmitDecoderTo_wire_prim (refs : RefTables) (toRef : Int → Option Nat)
    (p : Prim) : DecodesWire refs toRef φ (.prim p) := by
  intro v s rest hv _ hstring hok hin
  cases p with
  | string =>
      obtain ⟨chars, rfl, -⟩ := hv
      obtain ⟨io, hread, hok', hin'⟩ := readStringTo_of_unread hstring hok hin
      exact ⟨_, _, [s.heap.next], map_of_some _ hread, Extends.allocate _ _,
        ⟨_, chars, rfl, rfl, Function.update_self .., rfl⟩, hok', hin'⟩
  | sample =>
      obtain ⟨r, rfl⟩ := hv
      have hlt : toUnsigned (refs.toIndex r) < 256 ^ 4 :=
        lt_of_lt_of_le (toUnsigned_lt _) (by norm_num)
      obtain ⟨io, hread, hok', hin'⟩ := ofReader_of_reads (readScalar_parses hlt) hok hin
      exact ⟨_, _, [], map_of_some _ hread, Extends.refl _, ⟨_, rfl, rfl, rfl⟩, hok', hin'⟩
  | boolean | byte | short | int | long | float | double =>
      obtain ⟨n, rfl, hlt⟩ := hv
      obtain ⟨io, hread, hok', hin'⟩ := ofReader_of_reads (readScalar_parses hlt) hok hin
      exact ⟨_, _, [], map_of_some _ hread, Extends.refl _, ⟨_, rfl, rfl, rfl⟩, hok', hin'⟩

/-- The elements are decoded one after the other, into a block of their own where a dimension is
variable. -/
theorem cEmitDecoderTo_wire_array {refs : RefTables} {toRef : Int → Option Nat} {elem : DataType}
    (helem : DecodesWire refs toRef φ elem) (dim : List Exp) :
    DecodesWire refs toRef φ (.array elem dim) := by
  rintro v s rest ⟨n, a, rfl, hdim, hlen, ha⟩ ⟨hcount, hfit⟩ hstrings hok hin
  have hn : List.Forall₂ HoldsSize dim n := hdim.imp fun _ _ => holdsSize_of_admits
  have hprod : a.length = (n.map Int.toNat).prod := by
    have := prod_toNat (admits_nonneg hdim)
    omega
  rw [wire, List.append_assoc] at hin
  obtain ⟨io, hlimits, hok', hin'⟩ := ofReader_of_reads (decodeLimit_of_holds hn) hok hin
  rw [cEmitDecoderTo, bind_of_some hlimits]
  have hstart : Received refs toRef elem a rest 0 io [] := ⟨hok', hin', rfl⟩
  -- what the two ways to fill an array need: there is a next element, and it is built
  have hnext : ∀ k < a.length, ∀ (t : Machine (Reader φ) Contents) (as : List Nat)
      (vs : List Value), Extends s.heap t.heap as → vs.length = k →
      Received refs toRef elem a rest k t.io vs →
      ∃ x t', cEmitDecoderTo toRef elem t = some (x, t') := by
    intro k hk t as vs _ _ htrack
    obtain ⟨-, x, t', -, hrun, -⟩ := received_next helem ha hfit hstrings hk htrack
    exact ⟨x, t', hrun⟩
  have hbuilds : ∀ k < a.length, Builds s.heap elem (Received (φ := φ) refs toRef elem a rest) k
      (cEmitDecoderTo toRef elem) :=
    fun k hk => received_builds helem ha hfit hstrings hk s.heap
  have hdone := @received_all φ refs toRef elem a rest
  rw [hprod] at hnext hbuilds hdone
  split
  · rename_i hvar
    have hexists : ∃ p s', fillVariable dim n (fun _ => cEmitDecoderTo toRef elem)
        ⟨io, s.heap⟩ = some (p, s') :=
      fillVariable_exists hvar hn (hprod ▸ hcount hvar) hstart hbuilds hnext
    obtain ⟨p, s', hp⟩ := hexists
    obtain ⟨slots, vs, bss, hblock, hext, hslots, hlen', -, htrack⟩ :=
      fillVariable_some hvar hn hstart (fun k hk _ => hbuilds k hk) hp
    obtain ⟨hok'', hin'', rfl⟩ := hdone htrack
    exact ⟨_, s', p :: bss.flatten, map_of_some _ hp, hext,
      ⟨n, _, slots, bss, rfl, hn, hlen', hslots, .inr ⟨hvar, p, rfl, hblock, rfl⟩⟩, hok'', hin''⟩
  · rename_i hvar
    have hfixed : isVariable dim = false := by simpa using hvar
    rw [literalLimits_eq hfixed hn] at hnext hbuilds hdone
    have hexists : ∃ slots s', fillFixed dim (fun _ => cEmitDecoderTo toRef elem)
        ⟨io, s.heap⟩ = some (slots, s') :=
      fillFixed_exists hfixed hstart hbuilds hnext
    obtain ⟨slots, s', hslots⟩ := hexists
    obtain ⟨vs, bss, hext, hholds, hlen', htrack⟩ :=
      fillFixed_some hfixed hstart hbuilds hslots
    obtain ⟨hok'', hin'', rfl⟩ := hdone htrack
    rw [← literalLimits_eq hfixed hn] at hlen'
    exact ⟨_, s', bss.flatten, map_of_some _ hslots, hext,
      ⟨n, _, slots, bss, rfl, hn, hlen', hholds, .inl ⟨hfixed, rfl, rfl⟩⟩, hok'', hin''⟩

mutual

/-- **The decoder stores what an encoder wrote.** -/
theorem cEmitDecoderTo_wire (refs : RefTables) (toRef : Int → Option Nat) :
    ∀ t : DataType, DecodesWire refs toRef φ t
  | .void => by
      intro v s rest hv _ _ hok hin
      obtain rfl : v = .unset := hv
      exact ⟨.unset, s, [], rfl, Extends.refl _, ⟨rfl, rfl, rfl⟩, hok, hin⟩
  | .prim p => cEmitDecoderTo_wire_prim refs toRef p
  | .user _ type => by
      intro v s rest hv hfit hstrings hok hin
      rw [mapRefs]
      exact cEmitDecoderTo_wire refs toRef type v s rest hv hfit hstrings hok hin
  | .struct fields => by
      rintro v s rest ⟨vs, rfl, hvs⟩ hfit hstrings hok hin
      obtain ⟨xs, s', bs, hrun, hext, hholds, hok', hin'⟩ :=
        cEmitDecoderToFields_wire refs toRef fields vs s rest hvs hfit hstrings hok hin
      exact ⟨.struct xs, s', bs, map_of_some _ hrun, hext, ⟨xs, _, rfl, rfl, hholds⟩, hok', hin'⟩
  | .array elem dim => cEmitDecoderTo_wire_array (cEmitDecoderTo_wire refs toRef elem) dim

theorem cEmitDecoderToFields_wire (refs : RefTables) (toRef : Int → Option Nat) :
    ∀ (fields : Fields) (vs : List Value) (s : Machine (Reader φ) Contents) (rest : List UInt8),
      StorableFields fields vs → ArraysFitFields fields vs → StringsAllocateFields fields vs →
      s.io.error = 0 → s.io.unread = wireFields refs fields vs ++ rest →
      ∃ xs s' bs, cEmitDecoderToFields toRef fields s = some (xs, s') ∧
        Extends s.heap s'.heap bs ∧
        HoldsFields s'.heap fields xs (mapRefsFields (refs.seen toRef) fields vs) bs ∧
        s'.io.error = 0 ∧ s'.io.unread = rest
  | .nil, vs, s, _, hvs, _, _, hok, hin => by
      obtain rfl : vs = [] := hvs
      exact ⟨[], s, [], rfl, Extends.refl _, ⟨rfl, rfl, rfl⟩, hok, hin⟩
  | .cons _ _ type fields, _, s, rest, hvs, hfit, hstrings, hok, hin => by
      obtain ⟨v, vs, rfl, hv, hvs⟩ := hvs
      rw [wireFields, List.append_assoc] at hin
      obtain ⟨x, t, bs, hx, hext, hfirst, hok', hin'⟩ :=
        cEmitDecoderTo_wire refs toRef type v s _ hv hfit.1 hstrings.1 hok hin
      obtain ⟨xs, s', cs, hxs, hext', hrest, hok'', hin''⟩ :=
        cEmitDecoderToFields_wire refs toRef fields vs t rest hvs hfit.2 hstrings.2 hok' hin'
      refine ⟨x :: xs, s', bs ++ cs, ?_, hext.trans hext',
        ⟨x, xs, _, _, bs, cs, rfl, rfl, rfl, hfirst.extend hext', hrest⟩, hok'', hin''⟩
      rw [cEmitDecoderToFields, bind_of_some hx, bind_of_some hxs]
      rfl

end

/-! ## When copies and decoded values are made and released -/

mutual

/-- References have no part in the sizes of a value. -/
theorem fits_of_mapRefs (f : Option Nat → Option Nat) :
    ∀ (t : DataType) (v : Value), Storable t v → ArraysFit t (mapRefs f t v) →
      StringsAllocate t (mapRefs f t v) → ArraysFit t v ∧ StringsAllocate t v
  | .void, _, _, _, _ => ⟨trivial, trivial⟩
  | .prim p, v, hv, _, hstrings => by
      cases p with
      | string =>
          obtain ⟨chars, rfl, -⟩ := hv
          exact ⟨trivial, hstrings⟩
      | sample | boolean | byte | short | int | long | float | double =>
          exact ⟨trivial, by cases v <;> trivial⟩
  | .user _ type, v, hv, hfit, hstrings => by
      rw [mapRefs] at hfit hstrings
      exact fits_of_mapRefs f type v hv hfit hstrings
  | .struct fields, _, hv, hfit, hstrings => by
      obtain ⟨vs, rfl, hvs⟩ := hv
      exact fitsFields_of_mapRefs f fields vs hvs hfit hstrings
  | .array elem dim, _, hv, hfit, hstrings => by
      obtain ⟨n, a, rfl, -, -, ha⟩ := hv
      rw [mapRefs, ArraysFit, List.length_map] at hfit
      rw [mapRefs, StringsAllocate] at hstrings
      have helem : ∀ v ∈ a, ArraysFit elem v ∧ StringsAllocate elem v := fun v hv =>
        fits_of_mapRefs f elem v (ha v hv) (hfit.2 _ (List.mem_map_of_mem hv))
          (hstrings _ (List.mem_map_of_mem hv))
      exact ⟨⟨hfit.1, fun v hv => (helem v hv).1⟩, fun v hv => (helem v hv).2⟩

theorem fitsFields_of_mapRefs (f : Option Nat → Option Nat) :
    ∀ (fields : Fields) (vs : List Value), StorableFields fields vs →
      ArraysFitFields fields (mapRefsFields f fields vs) →
      StringsAllocateFields fields (mapRefsFields f fields vs) →
      ArraysFitFields fields vs ∧ StringsAllocateFields fields vs
  | .nil, _, _, _, _ => ⟨trivial, trivial⟩
  | .cons _ _ type rest, _, hvs, hfit, hstrings => by
      obtain ⟨v, ws, rfl, hv, hws⟩ := hvs
      have hfirst := fits_of_mapRefs f type v hv hfit.1 hstrings.1
      have hrest := fitsFields_of_mapRefs f rest ws hws hfit.2 hstrings.2
      exact ⟨⟨hfirst.1, hrest.1⟩, hfirst.2, hrest.2⟩

end

variable {t : DataType} {v : Value} {src : Slot} {h : Heap Contents} {as : List Nat}

/-- When a value is copied and the copy released. -/
theorem copiedAndFreed_iff (hsrc : Holds h t src v as) (hv : Storable t v) :
    CopiedAndFreed t v src h ↔ ArraysFit t v := by
  constructor
  · rintro ⟨dst, h', bs, hrun, -⟩
    exact (cEmitCopy_correct t src v as ⟨(), h⟩ ⟨(), h'⟩ dst hsrc hv hrun).1
  · intro hfit
    obtain ⟨dst, s', hrun⟩ := cEmitCopy_exists t src v as ⟨(), h⟩ hsrc hv hfit
    obtain ⟨-, bs, hext, hdst⟩ := cEmitCopy_correct t src v as _ s' dst hsrc hv hrun
    obtain ⟨h'', hfree, hblock⟩ :=
      deallocate_frees (pure ()) t dst v bs s' hdst hext.nodup hfit (.inl rfl)
    exact ⟨dst, s'.heap, bs, hrun, hdst, fun b hb => hext.free hb, fun a c ha => hext.live ha, h'',
      hfree, by rw [hblock, hext.without]⟩

/-- When a value that was sent is decoded and released. -/
theorem decodedAndFreed_iff (ht : t.Accepted) (hv : Storable t v) :
    DecodedAndFreed t v ↔ ArraysFit t v ∧ StringsAllocate t v := by
  constructor
  · intro hall
    -- the bytes of the value in one buffer
    let r : Reader (.of (-1) (by decide)) :=
      ⟨wire noRefs t v, 0, 0, [], fun c hc => absurd hc (by simp), .inl rfl⟩
    have hin : r.unread = wire noRefs t v ++ [] := rfl
    obtain ⟨x, s', bs, hrun, hx, -⟩ :=
      hall _ noRefs (fun _ => none) ⟨r, Heap.empty Contents⟩ [] rfl hin
    obtain ⟨w, cs, -, hw, hfit, hstrings⟩ := cEmitDecoderTo_stored _ t _ s' x hrun
    rw [← holds_unique t x _ w bs cs hx hw] at hfit hstrings
    exact fits_of_mapRefs _ t v hv hfit hstrings
  · rintro ⟨hfit, hstrings⟩ φ refs toRef s rest hok hin
    obtain ⟨x, s', bs, hrun, hext, hx, -, -⟩ :=
      cEmitDecoderTo_wire refs toRef t v s rest hv hfit hstrings hok hin
    exact ⟨x, s', bs, hrun, hx, fun b hb => hext.free hb, fun a c ha => hext.live ha,
      decoderEnd_releases ht hrun⟩

/-- **A value is copied, decoded and released as it should be exactly if every index is an `int`**,
and every length of a string. -/
theorem deepCopies_iff (ht : t.Accepted) (hsrc : Holds h t src v as) (hv : Storable t v) :
    CopiedAndFreed t v src h ∧ DecodedAndFreed t v ↔ ArraysFit t v ∧ StringsAllocate t v := by
  rw [copiedAndFreed_iff hsrc hv, decodedAndFreed_iff ht hv]
  exact ⟨fun hboth => hboth.2, fun hfit => ⟨hfit.1, hfit⟩⟩

/-- The type `string[_]`. -/
def strings : DataType := .array (.prim .string) [.variableSize]

/-- Two strings. -/
def twoStrings : Value := .array [2] [.string [97], .string [98, 99]]

/-- The two strings in three blocks. -/
def twoStringsHeap : Heap Contents :=
  (((Heap.empty Contents).allocate (.string [97, 0])).allocate (.string [98, 99, 0])).allocate
    (.elements [.chars 0, .chars 1])

theorem twoStrings_copied :
    CopiedAndFreed strings twoStrings (.variableArray [2] 2) twoStringsHeap ∧
      DecodedAndFreed strings twoStrings := by
  have hsrc : Holds twoStringsHeap strings (.variableArray [2] 2) twoStrings [2, 0, 1] := by
    refine ⟨[2], _, [.chars 0, .chars 1], [[0], [1]], rfl, ?_, rfl, ⟨?_, ?_, trivial⟩,
      .inr ⟨rfl, 2, rfl, rfl, rfl⟩⟩
    · exact .cons ⟨by decide, by decide⟩ .nil
    · exact ⟨0, [97], rfl, rfl, rfl, rfl⟩
    · exact ⟨1, [98, 99], rfl, rfl, rfl, rfl⟩
  refine (deepCopies_iff ?_ hsrc ?_).mpr ⟨?_, ?_⟩
  · simp [strings, DataType.Accepted, DataType.isNull]
  · refine ⟨[2], _, rfl, .cons ⟨by decide, by decide⟩ .nil, rfl, ?_⟩
    intro x hx
    simp only [List.mem_cons, List.not_mem_nil, or_false] at hx
    rcases hx with rfl | rfl
    · exact ⟨[97], rfl, by decide⟩
    · exact ⟨[98, 99], rfl, by decide⟩
  · refine ⟨fun _ => by decide, fun x hx => ?_⟩
    simp only [List.mem_cons, List.not_mem_nil, or_false] at hx
    rcases hx with rfl | rfl <;> trivial
  · intro x hx
    simp only [List.mem_cons, List.not_mem_nil, or_false] at hx
    rcases hx with rfl | rfl
    · show 1 + 1 < 2 ^ 31
      decide
    · show 2 + 1 < 2 ^ 31
      decide

/-! ### An array with too many elements -/

/-- As many zeros, in rows of 65536. -/
def zeros (count : Nat) : Value := .array [65536, 65536] (List.replicate count (.bits 0))

/-- The zeros in one block. -/
def zerosHeap (count : Nat) : Heap Contents :=
  (Heap.empty Contents).allocate (.elements (List.replicate count (.bits 0)))

theorem holds_zeros {count : Nat} (hcount : count = 65536 * 65536) :
    Holds (zerosHeap count) (.array byteMatrix.elem byteMatrix.dim)
      (.variableArray [65536, 65536] 0) (zeros count) [0] := by
  have hflatten : (List.replicate count ([] : List Nat)).flatten = [] := by simp
  refine ⟨[65536, 65536], _, _, List.replicate count [], rfl,
    .cons ⟨by decide, by decide⟩ (.cons ⟨by decide, by decide⟩ .nil), ?_,
    together_replicate ⟨0, rfl, rfl, rfl⟩ count,
    .inr ⟨rfl, 0, rfl, rfl, by rw [hflatten]⟩⟩
  rw [List.length_replicate, hcount]
  rfl

theorem storable_zeros {count : Nat} (hcount : count = 65536 * 65536) :
    Storable (.array byteMatrix.elem byteMatrix.dim) (zeros count) := by
  refine ⟨[65536, 65536], _, rfl,
    .cons ⟨by decide, by decide⟩ (.cons ⟨by decide, by decide⟩ .nil), ?_, fun x hx => ?_⟩
  · rw [List.length_replicate, hcount]
    rfl
  · rw [List.eq_of_mem_replicate hx]
    exact ⟨0, rfl, by decide⟩

/-- The index of the element at `2 ^ 31` is negative. -/
theorem not_copiedAndFreed_matrix :
    Storable (.array byteMatrix.elem byteMatrix.dim) (zeros (65536 * 65536)) ∧
      Holds (zerosHeap (65536 * 65536)) (.array byteMatrix.elem byteMatrix.dim)
        (.variableArray [65536, 65536] 0) (zeros (65536 * 65536)) [0] ∧
      ¬ CopiedAndFreed (.array byteMatrix.elem byteMatrix.dim) (zeros (65536 * 65536))
        (.variableArray [65536, 65536] 0) (zerosHeap (65536 * 65536)) := by
  refine ⟨storable_zeros rfl, holds_zeros rfl, fun hcopied => ?_⟩
  have hfit := (copiedAndFreed_iff (holds_zeros rfl) (storable_zeros rfl)).mp hcopied
  have hle := hfit.1 rfl
  rw [List.length_replicate] at hle
  exact absurd hle (by norm_num)

end LabComm.C
