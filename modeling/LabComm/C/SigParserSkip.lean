import LabComm.C.SigParserFraming

set_option autoImplicit false

/-! # Skipping a sample by its signature

`skip_packed_sample_data` walks over a recorded signature and over the data of a sample in lockstep.
It does not read the signature as `accept_signature` has stored it: that starts with its length,
which is taken for a type; a field has intentions, which are taken for a string; and the elements of
an array have to be of primitive types.

What the walk makes of a signature (`layoutFrom`) does not depend on the data, so that the walk is
one over the signature and then one over the data (`skipFrom_run`). What was skipped is counted for a
message only, and left out.
-/

namespace LabComm.C.SigParser

open Library

/-! ## The code -/

/-- `n` bytes from the index on, which are only printed -/
def getBytes (n : Nat) : Accept Unit := do
  let b ← get
  if 0 ≤ b.idx ∧ b.idx + n ≤ b.c.bytes.length then
    set { b with idx := b.idx + n }
  else
    outOfBounds .input

/-- `get` -/
def getByte : Accept Unit := getBytes 1

/-- `get32` -/
def get32 : Accept Unit := getBytes 4

/-- The loop that prints the characters of a string -/
def getChars : Nat → Accept Unit
  | 0 => pure ()
  | len + 1 => do
      getByte
      getChars len

/-- `labcomm2014_sizeof_primitive` -/
def sizeofPrimitive (type : Nat) : Except Fault Nat :=
  if type = Prim.boolean.token ∨ type = Prim.byte.token then pure 1
  else if type = Prim.short.token then pure 2
  else if type = Prim.int.token ∨ type = Prim.float.token ∨ type = Prim.sample.token then pure 4
  else if type = Prim.long.token ∨ type = Prim.double.token then pure 8
  else throw (.exit .notPrimitive)

/-- `unpack_varint(sig, *pos, &nbytes)` and `*pos += nbytes` -/
def unpackAt (sig : List UInt8) (pos : Int) : Except Fault (Nat × Int) := do
  let (res, nbytes) ← unpackVarint .entry sig pos
  pure (res, wrap32 (pos + nbytes))

/-- The loop over the indices in `skip_array`: how many are variable, the product of the others,
and the position after them. -/
def skipIndices (sig : List UInt8) : Nat → Int → Nat → Nat → Except Fault (Nat × Nat × Int)
  | 0, pos, nVar, tot => pure (nVar, tot, pos)
  | nIdx + 1, pos, nVar, tot => do
      let (idx, pos) ← unpackAt sig pos
      if idx = 0 then skipIndices sig nIdx pos (nVar + 1) tot
      else skipIndices sig nIdx pos nVar (tot * idx % 2 ^ 32)

/-- The loop over the variable indices, which are in the data. -/
def skipSizes : Nat → Nat → Accept Nat
  | 0, tot => pure tot
  | nVar + 1, tot => do
      let var ← getVarint
      skipSizes nVar (tot * var % 2 ^ 32)

/-- `skip_array`, the position after it -/
def skipArray (sig : List UInt8) (pos : Int) : Accept Int := do
  let (nIdx, pos) ← liftM (unpackAt sig pos)
  let (nVar, tot, pos) ← liftM (skipIndices sig nIdx pos 0 1)
  let tot ← skipSizes nVar tot
  let (type, pos) ← liftM (unpackAt sig pos)
  let elemSize ← liftM (sizeofPrimitive type)
  advancen ((elemSize * tot % 2 ^ 32 : Nat) : Int)
  pure pos

/-- The loop over the fields in `skip_struct` -/
def skipFields (skipType : Nat → Int → Accept Int) (sig : List UInt8) : Nat → Int → Accept Int
  | 0, pos => pure pos
  | nFields + 1, pos => do
      let (namelen, nbytes) ← liftM (unpackVarint .entry sig pos)
      let (type, pos) ← liftM (unpackAt sig (wrap32 (pos + (nbytes + namelen))))
      let pos ← skipType type pos
      skipFields skipType sig nFields pos

/-- `skip_struct` -/
def skipStruct (skipType : Nat → Int → Accept Int) (sig : List UInt8) (pos : Int) :
    Accept Int := do
  let (nFields, pos) ← liftM (unpackAt sig pos)
  skipFields skipType sig nFields pos

/-- `skip_type` as it is compiled by default, within `fuel` nested calls -/
def skipType (sig : List UInt8) : Nat → Nat → Int → Accept Int
  | 0, _, _ => throw .outOfFuel
  | fuel + 1, type, pos => do
      if type = Prim.boolean.token ∨ type = Prim.byte.token then
        getByte
        pure pos
      else if type = Prim.short.token then
        advancen 2
        pure pos
      else if type = Prim.int.token then
        get32
        pure pos
      else if type = Prim.float.token then
        advancen 4
        pure pos
      else if type = Prim.long.token ∨ type = Prim.double.token then
        advancen 8
        pure pos
      else if type = Prim.string.token then
        let len ← getVarint
        getChars (wrap32 len).toNat
        pure pos
      else if type = LABCOMM_ARRAY then
        skipArray sig pos
      else if type = LABCOMM_STRUCT then
        skipStruct (skipType sig fuel) sig pos
      else
        error .skipType

/-- The loop of `skip_packed_sample_data`, in no more than `fuel` rounds -/
def skipFrom (sig : List UInt8) (size : Nat) : Nat → Int → Accept Unit
  | 0, _ => throw .outOfFuel
  | fuel + 1, pos =>
      if pos < size then do
        let (type, pos) ← liftM (unpackAt sig pos)
        let pos ← skipType sig fuel type pos
        skipFrom sig size fuel pos
      else
        pure ()

/-- `skip_packed_sample_data` -/
def skipPackedSampleData (fuel : Nat) (sig : Entry) : Accept Unit :=
  skipFrom sig.signatures sig.size fuel 0

/-! ## The layout of the data -/

/-- A part of the data of a sample. -/
inductive Chunk where
  /-- Bytes that are read -/
  | bytes (n : Nat)
  /-- Bytes that are not looked at -/
  | gap (n : Nat)
  | string
  /-- So many sizes, and elements of which all sizes but these are known -/
  | array (nVar tot elemSize : Nat)

/-- The parts that `skip_type` finds for an array. -/
def arrayLayout (sig : List UInt8) (pos : Int) : Except Fault (List Chunk × Int) := do
  let (nIdx, pos) ← unpackAt sig pos
  let (nVar, tot, pos) ← skipIndices sig nIdx pos 0 1
  let (type, pos) ← unpackAt sig pos
  let elemSize ← sizeofPrimitive type
  pure ([.array nVar tot elemSize], pos)

/-- The parts for the fields of a struct, each a string and a type. -/
def fieldsLayout (layout : Nat → Int → Except Fault (List Chunk × Int)) (sig : List UInt8) :
    Nat → Int → Except Fault (List Chunk × Int)
  | 0, pos => pure ([], pos)
  | nFields + 1, pos => do
      let (namelen, nbytes) ← unpackVarint .entry sig pos
      let (type, pos) ← unpackAt sig (wrap32 (pos + (nbytes + namelen)))
      let (chunks, pos) ← layout type pos
      let (chunks', pos) ← fieldsLayout layout sig nFields pos
      pure (chunks ++ chunks', pos)

/-- The parts that `skip_type` finds for a type, and the position after it. -/
def layout (sig : List UInt8) : Nat → Nat → Int → Except Fault (List Chunk × Int)
  | 0, _, _ => throw .outOfFuel
  | fuel + 1, type, pos =>
      if type = Prim.boolean.token ∨ type = Prim.byte.token then pure ([.bytes 1], pos)
      else if type = Prim.short.token then pure ([.gap 2], pos)
      else if type = Prim.int.token then pure ([.bytes 4], pos)
      else if type = Prim.float.token then pure ([.gap 4], pos)
      else if type = Prim.long.token ∨ type = Prim.double.token then pure ([.gap 8], pos)
      else if type = Prim.string.token then pure ([.string], pos)
      else if type = LABCOMM_ARRAY then arrayLayout sig pos
      else if type = LABCOMM_STRUCT then do
        let (nFields, pos) ← unpackAt sig pos
        fieldsLayout (layout sig fuel) sig nFields pos
      else throw (.exit .skipType)

/-- The parts for the types that `size` bytes describe from a position on. -/
def layoutFrom (sig : List UInt8) (size : Nat) : Nat → Int → Except Fault (List Chunk)
  | 0, _ => throw .outOfFuel
  | fuel + 1, pos =>
      if pos < size then do
        let (type, pos) ← unpackAt sig pos
        let (chunks, pos) ← layout sig fuel type pos
        let chunks' ← layoutFrom sig size fuel pos
        pure (chunks ++ chunks')
      else
        pure []

/-! ## Where the data ends -/

/-- A number in the buffer, and where it ends. -/
def numberAt (c : List UInt8) (i : Int) : Except Fault (Nat × Int) := do
  let (n, size) ← unpackVarint .input c i
  pure (n, wrap32 (i + size))

/-- The end of bytes that are in the buffer. -/
def bytesEnd (c : List UInt8) (n : Nat) (i : Int) : Except Fault Int :=
  if n = 0 ∨ 0 ≤ i ∧ i + n ≤ c.length then pure (i + n) else throw (.outOfBounds .input)

/-- The product of the sizes in front of an array, times `tot`, and where they end. -/
def sizesEnd (c : List UInt8) : Nat → Nat → Int → Except Fault (Nat × Int)
  | 0, tot, i => pure (tot, i)
  | nVar + 1, tot, i => do
      let (n, i) ← numberAt c i
      sizesEnd c nVar (tot * n % 2 ^ 32) i

/-- Where a part that starts at `i` ends. -/
def Chunk.ends (c : List UInt8) (i : Int) : Chunk → Except Fault Int
  | bytes n => bytesEnd c n i
  | gap n => pure (wrap32 (i + n))
  | string => do
      let (len, i) ← numberAt c i
      bytesEnd c (wrap32 len).toNat i
  | array nVar tot elemSize => do
      let (tot, i) ← sizesEnd c nVar tot i
      pure (wrap32 (i + ((elemSize * tot % 2 ^ 32 : Nat) : Int)))

/-- Where parts that start at `i` end. -/
def dataEnd (c : List UInt8) (chunks : List Chunk) (i : Int) : Except Fault Int :=
  chunks.foldlM (Chunk.ends c) i

/-! ## Calls that only move the index -/

/-- The state with another index. -/
def State.moved (s : State) (i : Int) : State := { s with idx := i }

/-- The call does nothing but move the index as `f` says. -/
def Moves {α : Type} (m : Accept α) (f : List UInt8 → Int → Except Fault (α × Int)) : Prop :=
  ∀ s, m.run s = f s.c.bytes s.idx >>= fun x => .ok (x.1, s.moved x.2)

theorem Moves.bind {α β : Type} {m : Accept α} {f : List UInt8 → Int → Except Fault (α × Int)}
    {k : α → Accept β} {g : α → List UInt8 → Int → Except Fault (β × Int)} (hm : Moves m f)
    (hk : ∀ a, Moves (k a) (g a)) : Moves (m >>= k) fun c i => f c i >>= fun x => g x.1 c x.2 := by
  intro s
  show _ = (f s.c.bytes s.idx >>= fun x => g x.1 s.c.bytes x.2) >>= _
  rw [StateT.run_bind, hm s]
  cases f s.c.bytes s.idx with
  | error e => rfl
  | ok x => exact hk x.1 (s.moved x.2)

/-- The same for a call without a result. -/
def MovesTo (m : Accept Unit) (f : List UInt8 → Int → Except Fault Int) : Prop :=
  ∀ s, m.run s = f s.c.bytes s.idx >>= fun j => .ok ((), s.moved j)

theorem MovesTo.after {α : Type} {m : Accept α} {f : List UInt8 → Int → Except Fault (α × Int)}
    {k : α → Accept Unit} {g : α → List UInt8 → Int → Except Fault Int} (hm : Moves m f)
    (hk : ∀ a, MovesTo (k a) (g a)) :
    MovesTo (m >>= k) fun c i => f c i >>= fun x => g x.1 c x.2 := by
  intro s
  show _ = (f s.c.bytes s.idx >>= fun x => g x.1 s.c.bytes x.2) >>= _
  rw [StateT.run_bind, hm s]
  cases f s.c.bytes s.idx with
  | error e => rfl
  | ok x => exact hk x.1 (s.moved x.2)

theorem MovesTo.seq {m k : Accept Unit} {f g : List UInt8 → Int → Except Fault Int}
    (hm : MovesTo m f) (hk : MovesTo k g) :
    MovesTo (m >>= fun _ => k) fun c i => f c i >>= g c := by
  intro s
  show _ = (f s.c.bytes s.idx >>= g s.c.bytes) >>= _
  rw [StateT.run_bind, hm s]
  cases f s.c.bytes s.idx with
  | error e => rfl
  | ok j => exact hk (s.moved j)

theorem getVarint_moves : Moves getVarint numberAt := by
  intro s
  have hpeek : peekVarint.run s =
      unpackVarint .input s.c.bytes s.idx >>= fun x => .ok (x, s) := rfl
  rw [getVarint, StateT.run_bind, hpeek, numberAt]
  cases unpackVarint .input s.c.bytes s.idx with
  | error e => rfl
  | ok x => rfl

theorem advancen_moves (n : Nat) : MovesTo (advancen n) fun _ i => .ok (wrap32 (i + n)) :=
  fun _ => rfl

theorem bytesEnd_of_le {c : List UInt8} {n : Nat} {i : Int} (h0 : 0 ≤ i) (h1 : i + n ≤ c.length) :
    bytesEnd c n i = .ok (i + n) := if_pos (.inr ⟨h0, h1⟩)

theorem bytesEnd_zero (c : List UInt8) (i : Int) : bytesEnd c 0 i = .ok i := by
  rw [bytesEnd, if_pos (.inl rfl), Nat.cast_zero, add_zero]
  rfl

theorem bytesEnd_of_not {c : List UInt8} {n : Nat} {i : Int} (h : ¬ (0 ≤ i ∧ i + n ≤ c.length))
    (hn : n ≠ 0) : bytesEnd c n i = .error (.outOfBounds .input) := by
  refine if_neg ?_
  rintro (hzero | hle)
  · exact hn hzero
  · exact h hle

theorem getBytes_moves {n : Nat} (hn : n ≠ 0) : MovesTo (getBytes n) fun c i => bytesEnd c n i := by
  intro s
  have hrun : (getBytes n).run s = if 0 ≤ s.idx ∧ s.idx + n ≤ s.c.bytes.length
      then .ok ((), s.moved (s.idx + n)) else .error (.outOfBounds .input) := by
    rw [getBytes, StateT.run_bind]
    show (if _ then _ else _ : Accept Unit).run s = _
    split
    · rfl
    · rfl
  show _ = bytesEnd s.c.bytes n s.idx >>= _
  rw [hrun]
  split
  case isTrue h =>
    rw [bytesEnd_of_le h.1 h.2]
    rfl
  case isFalse h =>
    rw [bytesEnd_of_not h hn]
    rfl

theorem bytesEnd_succ (c : List UInt8) (n : Nat) (i : Int) :
    bytesEnd c (n + 1) i = bytesEnd c 1 i >>= bytesEnd c n := by
  by_cases hone : 0 ≤ i ∧ i + (1 : Nat) ≤ c.length
  · rw [bytesEnd_of_le hone.1 hone.2]
    show _ = bytesEnd c n (i + (1 : Nat))
    by_cases hall : i + (n + 1 : Nat) ≤ c.length
    · rw [bytesEnd_of_le hone.1 hall, bytesEnd_of_le (by omega) (by omega)]
      congr 1
      omega
    · rw [bytesEnd_of_not (by omega) (by omega), bytesEnd_of_not (by omega) (by omega)]
  · rw [bytesEnd_of_not hone one_ne_zero, bytesEnd_of_not (by omega) (by omega)]
    rfl

theorem getChars_moves (len : Nat) : MovesTo (getChars len) fun c i => bytesEnd c len i := by
  induction len with
  | zero =>
      intro s
      show _ = bytesEnd s.c.bytes 0 s.idx >>= _
      rw [bytesEnd_zero]
      rfl
  | succ len ih =>
      intro s
      show _ = bytesEnd s.c.bytes (len + 1) s.idx >>= _
      rw [getChars, bytesEnd_succ]
      exact (getBytes_moves one_ne_zero).seq ih s

theorem skipSizes_moves (nVar tot : Nat) :
    Moves (skipSizes nVar tot) fun c i => sizesEnd c nVar tot i := by
  induction nVar generalizing tot with
  | zero => exact fun s => rfl
  | succ nVar ih =>
      intro s
      rw [skipSizes, getVarint_moves.bind (fun var => ih (tot * var % 2 ^ 32)) s]
      rfl

/-! ## Skipping -/

/-- The call returns just if the layout is there and the data of this layout ends somewhere, which
is where the index is then. -/
def Skips (m : Accept Int) (lay : Except Fault (List Chunk × Int)) : Prop :=
  ∀ s pos s', m.run s = .ok (pos, s') ↔ ∃ chunks j, lay = .ok (chunks, pos) ∧
    dataEnd s.c.bytes chunks s.idx = .ok j ∧ s' = s.moved j

section Skips

variable {m : Accept Int} {lay : Except Fault (List Chunk × Int)}

theorem dataEnd_append {c : List UInt8} {chunks chunks' : List Chunk} {i j : Int} :
    dataEnd c (chunks ++ chunks') i = .ok j ↔
      ∃ k, dataEnd c chunks i = .ok k ∧ dataEnd c chunks' k = .ok j := by
  rw [dataEnd, List.foldlM_append, except_bind_ok]
  rfl

theorem dataEnd_singleton (c : List UInt8) (chunk : Chunk) (i : Int) :
    dataEnd c [chunk] i = chunk.ends c i := by
  rw [dataEnd, List.foldlM_cons]
  cases chunk.ends c i with
  | error e => rfl
  | ok j => rfl

/-- Nothing is skipped. -/
theorem Skips.pure (pos : Int) : Skips (pure pos) (pure ([], pos)) := by
  intro s pos' s'
  constructor
  · intro h
    cases h
    exact ⟨[], s.idx, rfl, rfl, rfl⟩
  · rintro ⟨chunks, j, hlay, hend, rfl⟩
    cases hlay
    cases hend
    rfl

/-- One part is skipped. -/
theorem Skips.chunk {m : Accept Unit} {chunk : Chunk}
    (h : MovesTo m fun c i => chunk.ends c i) (pos : Int) :
    Skips (m >>= fun _ => Pure.pure pos) (Pure.pure ([chunk], pos)) := by
  intro s pos' s'
  rw [StateT.run_bind, h s, except_bind_ok]
  constructor
  · rintro ⟨x, hx, hpos⟩
    obtain ⟨j, hj, hx⟩ := except_bind_ok.mp hx
    cases hx
    cases hpos
    exact ⟨[chunk], j, rfl, by rw [dataEnd_singleton]; exact hj, rfl⟩
  · rintro ⟨chunks, j, hlay, hend, rfl⟩
    cases hlay
    rw [dataEnd_singleton] at hend
    exact ⟨((), s.moved j), except_bind_ok.mpr ⟨j, hend, rfl⟩, rfl⟩

theorem Skips.fail (e e' : Fault) : Skips (throw e) (throw e') := by
  intro s pos s'
  constructor
  · intro h
    cases h
  · rintro ⟨_, _, hlay, _⟩
    cases hlay

/-- What fails in the end. -/
theorem Skips.late {α : Type} {m : Accept α} {k : α → Accept Int} {e : Fault}
    (hk : ∀ a s, (k a).run s = .error e) : Skips (m >>= k) (throw e) := by
  intro s pos s'
  constructor
  · intro h
    rw [StateT.run_bind, except_bind_ok] at h
    obtain ⟨x, _, hx⟩ := h
    rw [hk] at hx
    cases hx
  · rintro ⟨_, _, hlay, _⟩
    cases hlay

/-- What is read from the signature first. -/
theorem Skips.after {α : Type} (r : Except Fault α) {k : α → Accept Int}
    {lay : α → Except Fault (List Chunk × Int)} (h : ∀ a, Skips (k a) (lay a)) :
    Skips (liftM r >>= k) (r >>= lay) := by
  cases r with
  | error e => exact Skips.fail e e
  | ok a => exact h a

theorem Skips.ite {P : Prop} [Decidable P] {m' : Accept Int}
    {lay' : Except Fault (List Chunk × Int)} (h : Skips m lay) (h' : Skips m' lay') :
    Skips (if P then m else m') (if P then lay else lay') := by
  by_cases hP : P
  · rw [if_pos hP, if_pos hP]
    exact h
  · rw [if_neg hP, if_neg hP]
    exact h'

/-- One type after the other. -/
theorem Skips.append {k : Int → Accept Int} {lay' : Int → Except Fault (List Chunk × Int)}
    (h : Skips m lay) (h' : ∀ pos, Skips (k pos) (lay' pos)) : Skips (m >>= k)
      (lay >>= fun x => lay' x.2 >>= fun y => Pure.pure (x.1 ++ y.1, y.2)) := by
  intro s pos s'
  rw [StateT.run_bind, except_bind_ok]
  constructor
  · rintro ⟨⟨pos₁, s₁⟩, hm, hk⟩
    obtain ⟨chunks, j, hlay, hend, rfl⟩ := (h s pos₁ s₁).mp hm
    obtain ⟨chunks', j', hlay', hend', rfl⟩ := (h' pos₁ _ pos s').mp hk
    refine ⟨chunks ++ chunks', j', ?_, dataEnd_append.mpr ⟨j, hend, hend'⟩, rfl⟩
    rw [hlay]
    show lay' pos₁ >>= _ = _
    rw [hlay']
    rfl
  · rintro ⟨chunks, j, hlay, hend, rfl⟩
    obtain ⟨⟨chunks₁, pos₁⟩, hlay₁, hlay⟩ := except_bind_ok.mp hlay
    obtain ⟨⟨chunks₂, pos₂⟩, hlay₂, hlay⟩ := except_bind_ok.mp hlay
    cases hlay
    obtain ⟨k, hend₁, hend₂⟩ := dataEnd_append.mp hend
    exact ⟨(pos₁, s.moved k), (h s pos₁ _).mpr ⟨chunks₁, k, hlay₁, hend₁, rfl⟩,
      (h' pos₁ (s.moved k) _ _).mpr ⟨chunks₂, j, hlay₂, hend₂, rfl⟩⟩

end Skips

/-- The sizes, and then all elements at once. -/
theorem elements_moves (nVar tot elemSize : Nat) :
    MovesTo (skipSizes nVar tot >>= fun tot => advancen ((elemSize * tot % 2 ^ 32 : Nat) : Int))
      fun c i => (Chunk.array nVar tot elemSize).ends c i :=
  MovesTo.after (skipSizes_moves nVar tot) fun _ => advancen_moves _

theorem skipArray_skips (sig : List UInt8) (pos : Int) :
    Skips (skipArray sig pos) (arrayLayout sig pos) := by
  refine Skips.after _ fun x => Skips.after _ fun ⟨nVar, tot, pos⟩ => ?_
  -- the element type is read after the sizes
  show Skips (skipSizes nVar tot >>= fun tot => liftM (unpackAt sig pos) >>= fun z =>
    liftM (sizeofPrimitive z.1) >>= fun elemSize =>
      advancen ((elemSize * tot % 2 ^ 32 : Nat) : Int) >>= fun _ => pure z.2)
    (unpackAt sig pos >>= fun z => sizeofPrimitive z.1 >>= fun elemSize =>
      pure ([.array nVar tot elemSize], z.2))
  cases unpackAt sig pos with
  | error e => exact Skips.late fun _ _ => rfl
  | ok z =>
      show Skips (skipSizes nVar tot >>= fun tot => liftM (sizeofPrimitive z.1) >>= fun elemSize =>
        advancen ((elemSize * tot % 2 ^ 32 : Nat) : Int) >>= fun _ => pure z.2)
        (sizeofPrimitive z.1 >>= fun elemSize => pure ([.array nVar tot elemSize], z.2))
      cases sizeofPrimitive z.1 with
      | error e => exact Skips.late fun _ _ => rfl
      | ok elemSize =>
          have h := Skips.chunk (elements_moves nVar tot elemSize) z.2
          rw [bind_assoc] at h
          exact h

theorem skipFields_skips {sig : List UInt8} {skipType : Nat → Int → Accept Int}
    {layout : Nat → Int → Except Fault (List Chunk × Int)}
    (h : ∀ type pos, Skips (skipType type pos) (layout type pos)) (nFields : Nat) (pos : Int) :
    Skips (skipFields skipType sig nFields pos) (fieldsLayout layout sig nFields pos) := by
  induction nFields generalizing pos with
  | zero => exact Skips.pure pos
  | succ nFields ih =>
      exact Skips.after _ fun x => Skips.after _ fun y => (h y.1 y.2).append ih

theorem gap_skips (n : Nat) (pos : Int) :
    Skips (advancen n >>= fun _ => Pure.pure pos) (Pure.pure ([.gap n], pos)) :=
  Skips.chunk (advancen_moves n) pos

theorem bytes_skips {n : Nat} (hn : n ≠ 0) (pos : Int) :
    Skips (getBytes n >>= fun _ => Pure.pure pos) (Pure.pure ([.bytes n], pos)) :=
  Skips.chunk (getBytes_moves hn) pos

theorem string_skips (pos : Int) :
    Skips (getVarint >>= fun len => getChars (wrap32 len).toNat >>= fun _ => Pure.pure pos)
      (Pure.pure ([.string], pos)) := by
  rw [← bind_assoc]
  exact Skips.chunk (MovesTo.after getVarint_moves fun len => getChars_moves _) pos

/-- **What is skipped for a type** is data of the layout that is read for it. -/
theorem skipType_skips (sig : List UInt8) (fuel type : Nat) (pos : Int) :
    Skips (skipType sig fuel type pos) (layout sig fuel type pos) := by
  induction fuel generalizing type pos with
  | zero => exact Skips.fail _ _
  | succ fuel ih =>
      rw [skipType, layout]
      refine Skips.ite (bytes_skips one_ne_zero pos) ?_
      refine Skips.ite (gap_skips 2 pos) ?_
      refine Skips.ite (bytes_skips four_ne_zero pos) ?_
      refine Skips.ite (gap_skips 4 pos) ?_
      refine Skips.ite (gap_skips 8 pos) ?_
      refine Skips.ite (string_skips pos) ?_
      refine Skips.ite (skipArray_skips sig pos) (Skips.ite ?_ (Skips.fail _ _))
      exact Skips.after _ fun x => skipFields_skips ih x.1 x.2

theorem skipFrom_run (sig : List UInt8) (size fuel : Nat) (pos : Int) (s s' : State) :
    (skipFrom sig size fuel pos).run s = .ok ((), s') ↔ ∃ chunks j,
      layoutFrom sig size fuel pos = .ok chunks ∧ dataEnd s.c.bytes chunks s.idx = .ok j ∧
        s' = s.moved j := by
  -- the loop as a call that returns the last position
  have hskips : ∀ fuel pos, Skips (skipFrom sig size fuel pos >>= fun _ => pure 0)
      (layoutFrom sig size fuel pos >>= fun chunks => pure (chunks, 0)) := by
    intro fuel
    induction fuel with
    | zero => exact fun pos => Skips.fail _ _
    | succ fuel ih =>
        intro pos
        rw [skipFrom, layoutFrom]
        by_cases hpos : pos < size
        · rw [if_pos hpos, if_pos hpos]
          simp only [bind_assoc, pure_bind]
          refine Skips.after _ fun x => ?_
          have h := (skipType_skips sig fuel x.1 x.2).append ih
          simp only [bind_assoc, pure_bind] at h
          exact h
        · rw [if_neg hpos, if_neg hpos]
          exact Skips.pure 0
  have h := hskips fuel pos s 0 s'
  rw [StateT.run_bind, except_bind_ok] at h
  constructor
  · intro hrun
    obtain ⟨chunks, j, hlay, hend, hs'⟩ := h.mp ⟨((), s'), hrun, rfl⟩
    obtain ⟨chunks', hlay', hpure⟩ := except_bind_ok.mp hlay
    cases hpure
    exact ⟨chunks, j, hlay', hend, hs'⟩
  · rintro ⟨chunks, j, hlay, hend, hs'⟩
    obtain ⟨⟨_, s''⟩, hrun, hpure⟩ := h.mpr ⟨chunks, j, by rw [hlay]; rfl, hend, hs'⟩
    cases hpure
    exact hrun

/-! ## Recorded signatures -/

/-- What is stored of a signature: its length too, and behind it what was in the block. -/
def stored (e : Entry) (signature : List UInt8) : List UInt8 :=
  counted signature ++ e.signatures.drop (counted signature).length

theorem definition_records {p : State} {uid : Nat} {found : Option (List UInt8) × Nat}
    {bs rest r : List UInt8} {d : Described} {o : Outcome}
    (hsig : Consumes (signature (p.c.bytes.length + 1)) (counted bs) d)
    (hrun : (definition p LABCOMM_SAMPLE_DEF uid found).run (counted bs ++ rest) = .ok (o, r)) :
    ∃ name, o.record = some ⟨uid, name, counted bs⟩ := by
  have htake : (counted bs ++ rest).take ((counted bs ++ rest).length - rest.length) =
      counted bs := by
    rw [List.length_append, Nat.add_sub_cancel, List.take_left]
  obtain ⟨start, l, hget, hrun⟩ := run_bind_eq_ok.mp hrun
  cases hget
  rw [if_pos rfl] at hrun
  by_cases hname : found.2 < p.config.maxNameLen
  · rw [if_pos hname] at hrun
    by_cases hentry : uid - LABCOMM_USER < p.config.maxSignatures
    · rw [if_pos hentry] at hrun
      by_cases hin : HasName found.1 found.2
      · rw [if_pos hin, run_bind_of_ok (hsig rest)] at hrun
        obtain ⟨rest', l, hget, hrun⟩ := run_bind_eq_ok.mp hrun
        cases hget
        by_cases hlen : (counted bs ++ rest).length - rest.length ≤ p.config.maxSigLen
        · rw [if_pos hlen, htake] at hrun
          cases hrun
          exact ⟨_, rfl⟩
        · rw [if_neg hlen] at hrun
          cases hrun
      · rw [if_neg hin] at hrun
        cases hrun
    · rw [if_neg hentry] at hrun
      cases hrun
  · rw [if_neg hname] at hrun
    cases hrun

section Recorded

variable {config : Config} {c : Buffer} {s s' : State} (hs : Between config c s)
  (hmore : more s = true) {index : Nat} {is : List Intention} {t : DataType} {rest : List UInt8}
  (hrest : s.rest = (Packet.sampleDef index is t.signature).bytes ++ rest)

include hs hmore hrest

/-- **What is recorded of a sample type** is its signature with the length in front. -/
theorem recorded (hindex : UserId index) (ht : t.HasIndices)
    (hrun : acceptPacket.run s = .ok ((), s')) :
    (s'.tables (index - LABCOMM_USER)).signatures =
        stored (s.tables (index - LABCOMM_USER)) t.signature ∧
      (s'.tables (index - LABCOMM_USER)).size = (counted t.signature).length := by
  have hlength := (rest_suffix s).length_le
  have hlt := s.c.length_lt
  have hbody := length_le_counted (definitionBytes index is t.signature)
  have hsize := length_le_counted t.signature
  rw [hrest, List.length_append, Packet.bytes, List.length_append] at hlength
  have hlength' : (packed32 LABCOMM_SAMPLE_DEF).length +
    (counted (definitionBytes index is t.signature)).length + rest.length ≤
      s.c.bytes.length := hlength
  have hparts : (definitionBytes index is t.signature).length = (packed32 index).length +
      (intentionsBytes is).length + (counted t.signature).length := by
    rw [definitionBytes, List.length_append, List.length_append]
  have hsig := @signature_consumes noIds (fun _ _ h => by cases h) _ ht _ t.described_none.symm _ hlt (by omega)
  rw [acceptPacket_rest hs.ready hs.allocated hmore, hrest] at hrun
  obtain ⟨⟨o, r⟩, hpacket, hfinish⟩ := except_bind_ok.mp hrun
  -- the tag and the length
  have hbytes : (Packet.sampleDef index is t.signature).bytes ++ rest =
      packed32 LABCOMM_SAMPLE_DEF ++ (packed32 (definitionBytes index is t.signature).length ++
        (packed32 index ++ (intentionsBytes is ++ (counted t.signature ++ rest)))) := by
    simp only [Packet.bytes, Packet.tag, Packet.body, counted, definitionBytes, List.append_assoc]
  rw [hbytes, packet, run_bind_of_ok (number_consumes (by decide) _), if_neg (by decide),
    if_pos (by decide), run_bind_of_ok (number_consumes (by omega) _), declaration] at hpacket
  -- the id and the name
  obtain ⟨uid, l, huid, hpacket⟩ := run_bind_eq_ok.mp hpacket
  rw [userId_run hindex] at huid
  split at huid
  case isFalse => cases huid
  cases huid
  obtain ⟨_, l, hroom, hpacket⟩ := run_bind_eq_ok.mp hpacket
  rw [room_of_le (le_of_room hroom).1 (le_of_room hroom).2] at hroom
  cases hroom
  rw [run_bind_of_ok (name_run (by omega) _)] at hpacket
  obtain ⟨_, l, hroom, hpacket⟩ := run_bind_eq_ok.mp hpacket
  rw [room_of_le (le_of_room hroom).1 (le_of_room hroom).2] at hroom
  cases hroom
  obtain ⟨name, hrecord⟩ := definition_records hsig hpacket
  cases hfinish
  have htables : (s.finish o r).tables (index - LABCOMM_USER) =
      ((s.tables (index - LABCOMM_USER)).named name).signed (counted t.signature) := by
    show (s.record o.record).tables _ = _
    rw [hrecord]
    exact Function.update_self _ _ _
  rw [htables]
  exact ⟨rfl, rfl⟩

end Recorded

/-- A type that `skip_type` knows. -/
def IsType (type : Nat) : Prop :=
  (∃ p : Prim, p ≠ .sample ∧ type = p.token) ∨ type = LABCOMM_ARRAY ∨ type = LABCOMM_STRUCT

theorem isType_of_layout {sig : List UInt8} {fuel type : Nat} {pos : Int}
    {found : List Chunk × Int} (h : layout sig fuel type pos = .ok found) : IsType type := by
  cases fuel with
  | zero => cases h
  | succ fuel =>
      by_contra htype
      have hprim : ∀ p : Prim, p ≠ .sample → type ≠ p.token := fun p hp h => htype (.inl ⟨p, hp, h⟩)
      have hother : type ≠ LABCOMM_ARRAY ∧ type ≠ LABCOMM_STRUCT :=
        ⟨fun h => htype (.inr (.inl h)), fun h => htype (.inr (.inr h))⟩
      have hneither : ∀ p q : Prim, p ≠ .sample → q ≠ .sample →
          ¬ (type = p.token ∨ type = q.token) := fun p q hp hq h =>
        h.elim (hprim p hp) (hprim q hq)
      rw [layout, if_neg (hneither _ _ (by decide) (by decide)), if_neg (hprim _ (by decide)),
        if_neg (hprim _ (by decide)), if_neg (hprim _ (by decide)),
        if_neg (hneither _ _ (by decide) (by decide)), if_neg (hprim _ (by decide)),
        if_neg hother.1, if_neg hother.2] at h
      cases h

/-- **The length of a signature is taken for a type.** Most signatures have no layout. -/
theorem isType_length {e : Entry} {signature : List UInt8} (hlen : signature.length < 2 ^ 32)
    {fuel : Nat} {chunks : List Chunk}
    (h : layoutFrom (stored e signature) (counted signature).length fuel 0 = .ok chunks) :
    IsType signature.length := by
  have hpos := packed32_length_pos signature.length
  have hcounted := counted_length signature
  cases fuel with
  | zero => cases h
  | succ fuel =>
      rw [layoutFrom, if_pos (by omega)] at h
      obtain ⟨x, hx, h⟩ := except_bind_ok.mp h
      obtain ⟨y, hy, hpure⟩ := except_bind_ok.mp hx
      obtain ⟨found, hfound, _⟩ := except_bind_ok.mp h
      cases hpure
      have hread : readVarintFrom (Fault.outOfBounds .entry) 0 (stored e signature) =
          .ok (signature.length, signature ++ e.signatures.drop (counted signature).length) := by
        rw [stored, counted, List.append_assoc]
        exact readVarint_consumes (k := 4) _ (by omega) _
      have hunpack : unpackVarint .entry (stored e signature) 0 =
          unpackVarintFrom .entry (0 % 2 ^ 32) 0 (stored e signature) := rfl
      rw [hunpack, unpackVarintFrom_eq, hread] at hy
      cases hy
      have htype := isType_of_layout hfound
      rwa [Nat.mod_eq_of_lt hlen] at htype

end LabComm.C.SigParser
