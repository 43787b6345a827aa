import LabComm.C.SigParser
import LabComm.Library.Parsing

set_option autoImplicit false

/-! # What the signature parser reads

The grammar behind `acceptType`, stated on the bytes that are left: numbers, strings, intentions
and the descriptions of types, without a stack, an index or tables. The functions of the parser
follow it: they read the same bytes, and what they have found is on top of the value stack.
-/

namespace LabComm.C.SigParser

open Library

/-! ## The grammar -/

/-- A number, of which 32 bits are kept. -/
def number : Parser Fault Nat := (fun n => n % 2 ^ 32) <$> readVarint (.outOfBounds .input)

/-- The characters of a string, as far as there are any. The block for the longest one has size
zero. -/
def characters (len : Nat) : Parser Fault Unit := fun l =>
  if len + 1 = 2 ^ 32 then .error (.outOfBounds .block) else .ok ((), l.drop len)

/-- The length of a string, and its characters. -/
def string : Parser Fault Nat := do
  let len ← number
  characters len
  pure len

/-- Intentions: what is left where the last value with an empty key starts, and how long it is. -/
def intentions : Nat → Option (List UInt8) → Nat → Parser Fault (Option (List UInt8) × Nat)
  | 0, start, nlen => pure (start, nlen)
  | num + 1, start, nlen => do
      let klen ← string
      let start' ← get
      let vlen ← string
      if klen = 0 then intentions num (some start') vlen else intentions num start nlen

/-- What is known of a type that was read: its tag, its size, and whether some size varies. -/
structure Described where
  tag : Nat
  size : Nat
  varsize : Bool

/-- The size of what is neither an array nor a struct. -/
def sizeOfTag (tag : Nat) : Nat :=
  if tag = Prim.boolean.token ∨ tag = Prim.byte.token then 1
  else if tag = Prim.short.token then 2
  else if tag = Prim.int.token ∨ tag = Prim.float.token ∨ tag = Prim.sample.token then 4
  else if tag = Prim.long.token ∨ tag = Prim.double.token then 8
  else 0

/-- The indices of an array: how many are variable, the product of the others, and whether any size
varies. -/
def indices : Nat → Nat → Nat → Bool → Parser Fault (Nat × Nat × Bool)
  | 0, numVar, size, varsize => pure (numVar, size, varsize)
  | nidx + 1, numVar, size, varsize => do
      let idx ← number
      if idx = 0 then indices nidx (numVar + 1) size true
      else indices nidx numVar (size * idx % 2 ^ 32) varsize

/-- The rest of an array. -/
def array (type : Bool → Parser Fault Described) (varsize : Bool) : Parser Fault Described := do
  let nidx ← number
  let dim ← indices nidx 0 1 varsize
  let elem ← type dim.2.2
  pure ⟨LABCOMM_ARRAY, if dim.1 = 0 then dim.2.1 * elem.size % 2 ^ 32 else 0, elem.varsize⟩

/-- The fields of a struct: the sum of their sizes, and whether any size varies. -/
def fields (type : Bool → Parser Fault Described) :
    Nat → Nat → Bool → Parser Fault (Nat × Bool)
  | 0, fieldsizes, varsize => pure (fieldsizes, varsize)
  | nf + 1, fieldsizes, varsize => do
      let num ← number
      let _ ← intentions num none 0
      let field ← type varsize
      fields type nf ((fieldsizes + field.size) % 2 ^ 32) field.varsize

/-- The rest of a struct. -/
def struct (type : Bool → Parser Fault Described) (varsize : Bool) : Parser Fault Described := do
  let nf ← number
  let sizes ← fields type nf 0 varsize
  pure ⟨LABCOMM_STRUCT, sizes.1, sizes.2⟩

/-- The description of a type, nested `fuel` times at most. -/
def description : Nat → Bool → Parser Fault Described
  | 0, _ => throw .outOfFuel
  | fuel + 1, varsize => do
      let tag ← number
      if tag = LABCOMM_ARRAY then array (description fuel) varsize
      else if tag = LABCOMM_STRUCT then struct (description fuel) varsize
      else pure ⟨tag, sizeOfTag tag, varsize || decide (tag = Prim.string.token)⟩

/-! ## What is left -/

theorem number_shrinks : Shrinks number :=
  Shrinks.map _ (readVarintFrom_shrinks _ 0)

theorem number_length_lt {n : Nat} {l r : List UInt8} (h : number.run l = .ok (n, r)) :
    r.length < l.length := by
  obtain ⟨m, hm, _⟩ := run_map_eq_ok.mp h
  exact readVarintFrom_length_lt _ hm

theorem number_lt {n : Nat} {l r : List UInt8} (h : number.run l = .ok (n, r)) : n < 2 ^ 32 := by
  obtain ⟨m, _, rfl⟩ := run_map_eq_ok.mp h
  exact Nat.mod_lt _ (by decide)

theorem characters_shrinks (len : Nat) : Shrinks (characters len) := by
  intro l a r h
  have h' : (if len + 1 = 2 ^ 32 then Except.error (Fault.outOfBounds .block)
      else Except.ok ((), l.drop len)) = .ok (a, r) := h
  split at h'
  · cases h'
  · simp only [Except.ok.injEq, Prod.mk.injEq] at h'
    rw [← h'.2]
    exact List.drop_suffix len l

theorem string_shrinks : Shrinks string :=
  number_shrinks.bind fun len => (characters_shrinks len).bind fun _ => Shrinks.pure len

theorem get_shrinks : Shrinks (get : Parser Fault (List UInt8)) := by
  intro l a r h
  have h' : (Except.ok (l, l) : Except Fault _) = .ok (a, r) := h
  simp only [Except.ok.injEq, Prod.mk.injEq] at h'
  rw [h'.2]

theorem intentions_shrinks (num : Nat) (start : Option (List UInt8)) (nlen : Nat) :
    Shrinks (intentions num start nlen) := by
  induction num generalizing start nlen with
  | zero => exact Shrinks.pure _
  | succ num ih =>
      refine string_shrinks.bind fun klen => get_shrinks.bind fun start' =>
        string_shrinks.bind fun vlen => ?_
      exact (ih _ _).ite (ih _ _)

theorem indices_shrinks (nidx numVar size : Nat) (varsize : Bool) :
    Shrinks (indices nidx numVar size varsize) := by
  induction nidx generalizing numVar size varsize with
  | zero => exact Shrinks.pure _
  | succ nidx ih => exact number_shrinks.bind fun idx => (ih _ _ _).ite (ih _ _ _)

section

variable {type : Bool → Parser Fault Described} (htype : ∀ varsize, Shrinks (type varsize))

include htype

theorem fields_shrinks (nf fieldsizes : Nat) (varsize : Bool) :
    Shrinks (fields type nf fieldsizes varsize) := by
  induction nf generalizing fieldsizes varsize with
  | zero => exact Shrinks.pure _
  | succ nf ih =>
      exact number_shrinks.bind fun num => (intentions_shrinks num none 0).bind fun _ =>
        (htype varsize).bind fun field => ih _ _

theorem array_shrinks (varsize : Bool) : Shrinks (array type varsize) :=
  number_shrinks.bind fun nidx => (indices_shrinks nidx 0 1 varsize).bind fun dim =>
    (htype dim.2.2).bind fun _ => Shrinks.pure _

theorem struct_shrinks (varsize : Bool) : Shrinks (struct type varsize) :=
  number_shrinks.bind fun nf => (fields_shrinks htype nf 0 varsize).bind fun _ => Shrinks.pure _

end

theorem description_shrinks (fuel : Nat) (varsize : Bool) : Shrinks (description fuel varsize) := by
  induction fuel generalizing varsize with
  | zero =>
      intro l a r h
      cases h
  | succ fuel ih =>
      refine number_shrinks.bind fun tag => ?_
      exact (array_shrinks ih varsize).ite ((struct_shrinks ih varsize).ite (Shrinks.pure _))

/-! ## States while reading -/

/-- The state in which `l` is left of the buffer and `stack` was pushed. -/
def State.leaving (p : State) (l : List UInt8) (stack : List Nat) (varsize : Bool) : State where
  config := p.config
  c := p.c
  idx := (p.c.bytes.length : Int) - l.length
  valTop := p.valTop - stack.length
  valStack := stack ++ p.valStack
  currentDeclIsVarsize := varsize
  tables := p.tables

@[simp] theorem State.leaving_config (p : State) (l : List UInt8) (stack : List Nat)
    (varsize : Bool) : (p.leaving l stack varsize).config = p.config := rfl

@[simp] theorem State.leaving_c (p : State) (l : List UInt8) (stack : List Nat)
    (varsize : Bool) : (p.leaving l stack varsize).c = p.c := rfl

@[simp] theorem State.leaving_tables (p : State) (l : List UInt8) (stack : List Nat)
    (varsize : Bool) : (p.leaving l stack varsize).tables = p.tables := rfl

/-- The top of the stack is not above its entries. -/
def Ready (p : State) : Prop := p.valTop < p.config.stacksize

/-- From the state `p` on, `m` reads what `q` reads and returns, pushes and sets what `q` says. -/
def Follows {α β : Type} (p : State) (m : Accept α) (q : Parser Fault β) (stack : List Nat)
    (varsize : Bool) (a : β → α) (stack' : β → List Nat) (varsize' : β → Bool) : Prop :=
  ∀ l, l <:+ p.c.bytes → m.run (p.leaving l stack varsize) =
    q.run l >>= fun x => .ok (a x.1, p.leaving x.2 (stack' x.1) (varsize' x.1))

section Run

variable {α β : Type} {s s' : State}

/-- After a step that returns, the rest of the steps go on. -/
theorem run_bind_of {m : Accept α} {k : α → Accept β} {a : α} (h : m.run s = .ok (a, s')) :
    (m >>= k).run s = (k a).run s' := by
  rw [StateT.run_bind, h]
  rfl

theorem run_bind_congr {m m' : Accept α} (h : m.run s = m'.run s') (k : α → Accept β) :
    (m >>= k).run s = (m' >>= k).run s' := by
  rw [StateT.run_bind, h]
  rfl

end Run

section Follows

variable {α α' β β' : Type} {p : State} {m : Accept α} {k : α → Accept α'} {q : Parser Fault β}
  {q' : β → Parser Fault β'} {stack : List Nat} {varsize : Bool} {a : β → α}
  {stack' : β → List Nat} {varsize' : β → Bool} {a' : β' → α'} {stack'' : β' → List Nat}
  {varsize'' : β' → Bool}

/-- `q` returns `b` somewhere in the buffer. -/
def State.Finds (p : State) (q : Parser Fault β) (b : β) : Prop :=
  ∃ l r, l <:+ p.c.bytes ∧ q.run l = .ok (b, r)

/-- One read after the other. -/
theorem Follows.bind (hm : Follows p m q stack varsize a stack' varsize') (hq : Shrinks q)
    (hk : ∀ b, p.Finds q b →
      Follows p (k (a b)) (q' b) (stack' b) (varsize' b) a' stack'' varsize'') :
    Follows p (m >>= k) (q >>= q') stack varsize a' stack'' varsize'' := by
  intro l hl
  rw [StateT.run_bind, hm l hl, Library.run_bind]
  cases hrun : q.run l with
  | error e => rfl
  | ok x => exact hk x.1 ⟨l, x.2, hl, hrun⟩ x.2 ((hq l x.1 x.2 hrun).trans hl)

/-- A step that reads nothing. -/
theorem Follows.step {r : Parser Fault β'} {x : α} {stack₁ : List Nat} {varsize₁ : Bool}
    (hm : ∀ l, m.run (p.leaving l stack varsize) = .ok (x, p.leaving l stack₁ varsize₁))
    (hk : Follows p (k x) r stack₁ varsize₁ a' stack'' varsize'') :
    Follows p (m >>= k) r stack varsize a' stack'' varsize'' := by
  intro l hl
  rw [StateT.run_bind, hm l]
  exact hk l hl

/-- The last step, which reads nothing. -/
theorem Follows.last {b : β}
    (hm : ∀ l, m.run (p.leaving l stack varsize) = .ok (a b, p.leaving l (stack' b) (varsize' b))) :
    Follows p m (pure b) stack varsize a stack' varsize' := fun l _ => hm l

/-- A test that both make. -/
theorem Follows.ite {P : Prop} [Decidable P] {m₂ : Accept α} {q₂ : Parser Fault β}
    (h : P → Follows p m q stack varsize a stack' varsize')
    (h₂ : ¬ P → Follows p m₂ q₂ stack varsize a stack' varsize') :
    Follows p (if P then m else m₂) (if P then q else q₂) stack varsize a stack' varsize' := by
  by_cases hP : P
  · rw [if_pos hP, if_pos hP]
    exact h hP
  · rw [if_neg hP, if_neg hP]
    exact h₂ hP

end Follows

/-! ## Reading numbers and characters -/

theorem advancen_eq (n : Int) (s : State) :
    (advancen n).run s = .ok ((), { s with idx := wrap32 (s.idx + n) }) := rfl

theorem unpackVarintFrom_eq (o : Object) (acc i : Nat) (l : List UInt8) :
    unpackVarintFrom o (acc % 2 ^ 32) i l = readVarintFrom (.outOfBounds o) acc l >>= fun x =>
      .ok (x.1 % 2 ^ 32, i + (l.length - x.2.length)) := by
  induction l generalizing acc i with
  | nil => rfl
  | cons c rest ih =>
      have hacc : (acc % 2 ^ 32 * 128 + c.toNat % 128) % 2 ^ 32 =
          (acc * 128 + c.toNat % 128) % 2 ^ 32 := by omega
      rw [unpackVarintFrom, readVarintFrom, hacc]
      split
      · show Except.ok _ = Except.ok _
        rw [List.length_cons, Nat.add_sub_cancel_left]
      · rw [ih]
        cases hrun : readVarintFrom (Fault.outOfBounds o) (acc * 128 + c.toNat % 128) rest with
        | error e => rfl
        | ok x =>
            have hle := readVarintFrom_length_lt _ hrun
            show Except.ok _ = Except.ok _
            rw [List.length_cons]
            congr 2
            omega

/-- What is left of the buffer in a state. -/
theorem drop_of_suffix {l c : List UInt8} (hl : l <:+ c) :
    c.drop (c.length - l.length) = l := by
  obtain ⟨t, rfl⟩ := hl
  rw [List.length_append, Nat.add_sub_cancel, List.drop_left]

section Reading

variable {p : State} {l : List UInt8} (hl : l <:+ p.c.bytes) (stack : List Nat) (varsize : Bool)

include hl

theorem toUnsigned_idx : toUnsigned (p.leaving l stack varsize).idx =
    p.c.bytes.length - l.length := by
  have hle := hl.length_le
  have hlt := p.c.length_lt
  have hidx : (p.leaving l stack varsize).idx = ((p.c.bytes.length - l.length : Nat) : Int) := by
    show (p.c.bytes.length : Int) - l.length = _
    omega
  rw [hidx, toUnsigned_natCast (by omega)]

theorem peekVarint_run : peekVarint.run (p.leaving l stack varsize) =
    number.run l >>= fun x =>
      .ok ((x.1, l.length - x.2.length), p.leaving l stack varsize) := by
  have hpeek : peekVarint.run (p.leaving l stack varsize) =
      unpackVarint .input p.c.bytes (p.leaving l stack varsize).idx >>= fun x =>
        .ok (x, p.leaving l stack varsize) := by
    show (StateT.run (liftM (unpackVarint _ _ _) : Accept _) _) = _
    rfl
  have hfrom := unpackVarintFrom_eq .input 0 0 l
  rw [hpeek, unpackVarint, toUnsigned_idx hl, drop_of_suffix hl]
  rw [Nat.zero_mod] at hfrom
  rw [hfrom]
  have hnumber : number.run l = readVarintFrom (.outOfBounds .input) 0 l >>= fun x =>
      .ok (x.1 % 2 ^ 32, x.2) := rfl
  rw [hnumber]
  cases readVarintFrom (Fault.outOfBounds .input) 0 l with
  | error e => rfl
  | ok x =>
      show Except.ok _ = Except.ok _
      rw [Nat.zero_add]

/-- A number that is looked at. -/
theorem peekVarint_bind {α : Type} {n : Nat} {r : List UInt8} (hn : number.run l = .ok (n, r))
    (k : Nat × Nat → Accept α) : (peekVarint >>= k).run (p.leaving l stack varsize) =
      (k (n, l.length - r.length)).run (p.leaving l stack varsize) := by
  refine run_bind_of ?_
  rw [peekVarint_run hl, hn]
  rfl

theorem peekVarint_error {α : Type} {e : Fault} (hn : number.run l = .error e)
    (k : Nat × Nat → Accept α) : (peekVarint >>= k).run (p.leaving l stack varsize) = .error e := by
  rw [StateT.run_bind, peekVarint_run hl, hn]
  rfl

/-- The index moves over what was read. -/
theorem advancen_run {r : List UInt8} (hr : r <:+ l) :
    (advancen (l.length - r.length : Nat)).run (p.leaving l stack varsize) =
      .ok ((), p.leaving r stack varsize) := by
  have hle := hl.length_le
  have hle' := hr.length_le
  have hlt := p.c.length_lt
  have hidx : wrap32 ((p.leaving l stack varsize).idx + (l.length - r.length : Nat)) =
      (p.c.bytes.length : Int) - r.length := by
    show wrap32 ((p.c.bytes.length : Int) - l.length + (l.length - r.length : Nat)) = _
    have hsum : (p.c.bytes.length : Int) - l.length + (l.length - r.length : Nat) =
        (p.c.bytes.length : Int) - r.length := by omega
    rw [hsum, wrap32_of_lt (by omega) (by omega)]
  show Except.ok ((), { p.leaving l stack varsize with
    idx := wrap32 ((p.leaving l stack varsize).idx + (l.length - r.length : Nat)) }) = _
  rw [hidx]
  rfl

end Reading

theorem getVarint_follows (p : State) (stack : List Nat) (varsize : Bool) :
    Follows p getVarint number stack varsize id (fun _ => stack) (fun _ => varsize) := by
  intro l hl
  rw [getVarint, StateT.run_bind, peekVarint_run hl]
  cases hrun : number.run l with
  | error e => rfl
  | ok x =>
      show (advancen ((l.length - x.2.length : Nat) : Int) >>= fun _ => pure x.1).run _ = _
      rw [StateT.run_bind, advancen_run hl _ _ (number_shrinks l x.1 x.2 hrun)]
      rfl

/-- A string is cut off at the end of the buffer. -/
theorem getStr_follows (p : State) (stack : List Nat) (varsize : Bool) {len : Nat}
    (hlen : len < 2 ^ 32) : Follows p (getStr ((len + 1) % 2 ^ 32) len) (characters len) stack
      varsize id (fun _ => stack) (fun _ => varsize) := by
  intro l hl
  have hle := hl.length_le
  have hlt := p.c.length_lt
  have hrem : wrap32 ((p.c.bytes.length : Int) - (p.leaving l stack varsize).idx) = l.length := by
    show wrap32 ((p.c.bytes.length : Int) - ((p.c.bytes.length : Int) - l.length)) = _
    rw [sub_sub_cancel, wrap32_natCast (by omega)]
  -- what is copied is what the string and the buffer both have
  have hsize : (if 0 ≤ (l.length : Int) ∧ (l.length : Int) < len then (l.length : Int).toNat
      else len) = l.length - (l.drop len).length := by
    rw [List.length_drop]
    split
    · rw [Int.toNat_natCast]
      omega
    · omega
  have hrun : (getStr ((len + 1) % 2 ^ 32) len).run (p.leaving l stack varsize) =
      StateT.run (if 0 < l.length - (l.drop len).length ∧
          ((p.leaving l stack varsize).idx < 0 ∨ (p.c.bytes.length : Int) <
            (p.leaving l stack varsize).idx + (l.length - (l.drop len).length : Nat)) then
          outOfBounds .input
        else if (len + 1) % 2 ^ 32 ≤ l.length - (l.drop len).length then outOfBounds .block
        else advancen (l.length - (l.drop len).length : Nat)) (p.leaving l stack varsize) := by
    rw [← hsize, ← hrem]
    rfl
  have hchars : (characters len).run l =
      if len + 1 = 2 ^ 32 then .error (.outOfBounds .block) else .ok ((), l.drop len) := rfl
  have hin : ¬ (0 < l.length - (l.drop len).length ∧
      ((p.leaving l stack varsize).idx < 0 ∨ (p.c.bytes.length : Int) <
        (p.leaving l stack varsize).idx + (l.length - (l.drop len).length : Nat))) := by
    have hidx : (p.leaving l stack varsize).idx = (p.c.bytes.length : Int) - l.length := rfl
    rw [hidx]
    omega
  rw [hrun, hchars, if_neg hin]
  by_cases hmax : len + 1 = 2 ^ 32
  · rw [if_pos hmax, if_pos (by rw [hmax, Nat.mod_self]; omega)]
    rfl
  · have hroom : ¬ (len + 1) % 2 ^ 32 ≤ l.length - (l.drop len).length := by
      rw [Nat.mod_eq_of_lt (by omega), List.length_drop]
      omega
    rw [if_neg hmax, if_neg hroom, advancen_run hl _ _ (List.drop_suffix len l)]
    rfl

/-! ## The stack -/

section Stack

variable {p : State}

/-- An entry of a stack without cells. -/
theorem pushVal_below {stack : List Nat} (hroom : p.valTop < stack.length) (e : Nat)
    (l : List UInt8) (varsize : Bool) : (pushVal e).run (p.leaving l stack varsize) =
      .error (.outOfBounds .stack) := by
  have hout : p.valTop - stack.length < 0 ∨
      2 * (p.config.stacksize : Int) ≤ p.valTop - stack.length := by
    left
    omega
  have hrun : (pushVal e).run (p.leaving l stack varsize) =
      StateT.run (if p.valTop - stack.length < 0 ∨
          2 * (p.config.stacksize : Int) ≤ p.valTop - stack.length then outOfBounds .stack
        else do
          set { p.leaving l stack varsize with
            valStack := e :: (stack ++ p.valStack), valTop := p.valTop - stack.length - 1 }
          if p.valTop - stack.length - 1 < 0 then error .overrun)
        (p.leaving l stack varsize) := rfl
  rw [hrun, if_pos hout]
  rfl

variable (hp : Ready p)

include hp

theorem pushVal_run {stack : List Nat} (hroom : (stack.length : Int) < p.valTop) (e : Nat)
    (l : List UInt8) (varsize : Bool) : (pushVal e).run (p.leaving l stack varsize) =
      .ok ((), p.leaving l (e :: stack) varsize) := by
  have hlt : p.valTop < p.config.stacksize := hp
  have hin : ¬ (p.valTop - stack.length < 0 ∨
      2 * (p.config.stacksize : Int) ≤ p.valTop - stack.length) := by omega
  have hleft : ¬ p.valTop - stack.length - 1 < 0 := by omega
  have hrun : (pushVal e).run (p.leaving l stack varsize) =
      StateT.run (if p.valTop - stack.length < 0 ∨
          2 * (p.config.stacksize : Int) ≤ p.valTop - stack.length then outOfBounds .stack
        else do
          set { p.leaving l stack varsize with
            valStack := e :: (stack ++ p.valStack), valTop := p.valTop - stack.length - 1 }
          if p.valTop - stack.length - 1 < 0 then error .overrun)
        (p.leaving l stack varsize) := rfl
  rw [hrun, if_neg hin, if_neg hleft]
  show Except.ok _ = Except.ok _
  have htop : p.valTop - stack.length - 1 = p.valTop - ((e :: stack).length : Int) := by
    rw [List.length_cons]
    omega
  rw [htop]
  rfl

/-- The entry that takes the last cell. -/
theorem pushVal_overrun {stack : List Nat} (hroom : (stack.length : Int) = p.valTop) (e : Nat)
    (l : List UInt8) (varsize : Bool) : (pushVal e).run (p.leaving l stack varsize) =
      .error (.exit .overrun) := by
  have hlt : p.valTop < p.config.stacksize := hp
  have hin : ¬ (p.valTop - stack.length < 0 ∨
      2 * (p.config.stacksize : Int) ≤ p.valTop - stack.length) := by omega
  have hleft : p.valTop - stack.length - 1 < 0 := by omega
  have hrun : (pushVal e).run (p.leaving l stack varsize) =
      StateT.run (if p.valTop - stack.length < 0 ∨
          2 * (p.config.stacksize : Int) ≤ p.valTop - stack.length then outOfBounds .stack
        else do
          set { p.leaving l stack varsize with
            valStack := e :: (stack ++ p.valStack), valTop := p.valTop - stack.length - 1 }
          if p.valTop - stack.length - 1 < 0 then error .overrun)
        (p.leaving l stack varsize) := rfl
  rw [hrun, if_neg hin, if_pos hleft]
  rfl

theorem popVal_run {stack : List Nat} {x : Nat} (hroom : (stack.length : Int) < p.valTop)
    (l : List UInt8) (varsize : Bool) : popVal.run (p.leaving l (x :: stack) varsize) =
      .ok (x, p.leaving l stack varsize) := by
  have hlt : p.valTop < p.config.stacksize := hp
  have htop : p.valTop - ((x :: stack).length : Int) + 1 = p.valTop - stack.length := by
    rw [List.length_cons]
    omega
  have hin : ¬ (p.valTop - ((x :: stack).length : Int) + 1 < 0 ∨
      (p.config.stacksize : Int) < p.valTop - ((x :: stack).length : Int) + 1) := by
    rw [htop]
    omega
  have hrun : popVal.run (p.leaving l (x :: stack) varsize) =
      StateT.run (if p.valTop - ((x :: stack).length : Int) + 1 < 0 ∨
          (p.config.stacksize : Int) < p.valTop - ((x :: stack).length : Int) + 1 then
          error .underrun
        else do
          set { p.leaving l (x :: stack) varsize with
            valStack := stack ++ p.valStack
            valTop := p.valTop - ((x :: stack).length : Int) + 1 }
          pure x)
        (p.leaving l (x :: stack) varsize) := rfl
  rw [hrun, if_neg hin, htop]
  rfl

end Stack

theorem setVarsize_run (p : State) (l : List UInt8) (stack : List Nat) (varsize : Bool) :
    setVarsize.run (p.leaving l stack varsize) = .ok ((), p.leaving l stack true) := rfl

/-! ## Strings and intentions -/

theorem acceptString_follows {p : State} (hp : Ready p) {stack : List Nat}
    (hroom : (stack.length : Int) < p.valTop) (varsize : Bool) :
    Follows p acceptString string stack varsize (fun _ => ()) (fun len => len :: stack)
      (fun _ => varsize) := by
  refine (getVarint_follows p stack varsize).bind number_shrinks fun len hlen => ?_
  obtain ⟨l, r, _, hrun⟩ := hlen
  refine (getStr_follows p stack varsize (number_lt hrun)).bind (characters_shrinks len)
    fun _ _ => ?_
  exact Follows.last fun l => pushVal_run hp hroom len l varsize

/-- Where `l` starts in the buffer; nothing starts at 0. -/
def State.start (p : State) : Option (List UInt8) → Nat
  | none => 0
  | some l => p.c.bytes.length - l.length

theorem get_follows (p : State) (stack : List Nat) (varsize : Bool) :
    Follows p get get stack varsize (fun l => p.leaving l stack varsize) (fun _ => stack)
      (fun _ => varsize) := fun _ _ => rfl

theorem intentionsFrom_follows {p : State} (hp : Ready p) {stack : List Nat}
    (hroom : (stack.length : Int) < p.valTop) (varsize : Bool) (num : Nat)
    (start : Option (List UInt8)) (nlen : Nat) :
    Follows p (intentionsFrom num (p.start start) nlen) (intentions num start nlen) stack varsize
      (fun x => (p.start x.1, x.2)) (fun _ => stack) (fun _ => varsize) := by
  induction num generalizing start nlen with
  | zero => exact Follows.last fun l => rfl
  | succ num ih =>
      refine (acceptString_follows hp hroom varsize).bind string_shrinks fun klen _ => ?_
      refine Follows.step (popVal_run hp hroom · varsize) ?_
      refine (get_follows p stack varsize).bind get_shrinks fun l hl => ?_
      refine (acceptString_follows hp hroom varsize).bind string_shrinks fun vlen _ => ?_
      refine Follows.step (popVal_run hp hroom · varsize) ?_
      obtain ⟨l', r, hl', hrun⟩ := hl
      have hget : (Except.ok (l', l') : Except Fault _) = .ok (l, r) := hrun
      simp only [Except.ok.injEq, Prod.mk.injEq] at hget
      rw [hget.1] at hl'
      have hstart : toUnsigned (p.leaving l stack varsize).idx = p.start (some l) :=
        toUnsigned_idx hl' stack varsize
      rw [hstart]
      exact Follows.ite (fun _ => ih _ _) fun _ => ih _ _

theorem acceptIntentions_follows {p : State} (hp : Ready p) {stack : List Nat}
    (hroom : (stack.length : Int) + 1 < p.valTop) (varsize : Bool) :
    Follows p acceptIntentions (do let num ← number; intentions num none 0) stack varsize
      (fun _ => ()) (fun x => p.start x.1 :: x.2 :: stack) (fun _ => varsize) := by
  refine (getVarint_follows p stack varsize).bind number_shrinks fun num _ => ?_
  rw [← bind_pure (intentions num none 0)]
  refine (intentionsFrom_follows hp (by omega) varsize num none 0).bind
    (intentions_shrinks num none 0) fun x _ => ?_
  refine Follows.step (pushVal_run hp (by omega) x.2 · varsize) ?_
  exact Follows.last fun l =>
    pushVal_run hp (by rw [List.length_cons]; omega) (p.start x.1) l varsize

/-! ## Types -/

theorem indicesFrom_follows (p : State) (stack : List Nat) (nidx numVar size : Nat)
    (varsize : Bool) : Follows p (indicesFrom nidx numVar size)
      (indices nidx numVar size varsize) stack varsize (fun x => (x.1, x.2.1)) (fun _ => stack)
      (fun x => x.2.2) := by
  induction nidx generalizing numVar size varsize with
  | zero => exact Follows.last fun l => rfl
  | succ nidx ih =>
      refine (getVarint_follows p stack varsize).bind number_shrinks fun idx _ => ?_
      refine Follows.ite (fun _ => ?_) fun _ => ih _ _ _
      exact Follows.step (setVarsize_run p · stack varsize) (ih _ _ _)

/-- What `accept_array_decl` does after the tag. -/
def arrayRest (acc : Accept Unit) : Accept Unit := do
  let nidx ← getVarint
  let (numVar, size) ← indicesFrom nidx 0 1
  acc
  let et ← popVal
  let es ← popVal
  pushVal (if numVar = 0 then size * es % 2 ^ 32 else 0)
  pushVal et

/-- What `accept_struct_decl` does after the tag. -/
def structRest (acc : Accept Unit) : Accept Unit := do
  let nf ← getVarint
  let fieldsizes ← fieldsFrom acc nf 0
  pushVal fieldsizes

section Rest

variable {p : State} {l r : List UInt8} (hl : l <:+ p.c.bytes) (acc : Accept Unit)
  (stack : List Nat) (varsize : Bool)

include hl

theorem acceptArrayDecl_run (hn : number.run l = .ok (LABCOMM_ARRAY, r)) :
    (acceptArrayDecl acc).run (p.leaving l stack varsize) =
      (arrayRest acc).run (p.leaving r stack varsize) := by
  have hadvance := advancen_run hl stack varsize (number_shrinks l _ r hn)
  rw [acceptArrayDecl, peekVarint_bind hl stack varsize hn]
  show StateT.run (if LABCOMM_ARRAY = LABCOMM_ARRAY then _ else _ : Accept Unit) _ = _
  rw [if_pos rfl, run_bind_of hadvance]
  rfl

theorem acceptStructDecl_run (hn : number.run l = .ok (LABCOMM_STRUCT, r)) :
    (acceptStructDecl acc).run (p.leaving l stack varsize) =
      (structRest acc).run (p.leaving r stack varsize) := by
  have hadvance := advancen_run hl stack varsize (number_shrinks l _ r hn)
  rw [acceptStructDecl, peekVarint_bind hl stack varsize hn]
  show StateT.run (if LABCOMM_STRUCT = LABCOMM_STRUCT then _ else _ : Accept Unit) _ = _
  rw [if_pos rfl, run_bind_of hadvance]
  rfl

end Rest

section Types

variable {p : State} (hp : Ready p) {acc : Accept Unit} {type : Bool → Parser Fault Described}
  {stack : List Nat} (hroom : (stack.length : Int) + 1 < p.valTop)
  (hacc : ∀ varsize, Follows p acc (type varsize) stack varsize (fun _ => ())
    (fun d => d.tag :: d.size :: stack) (fun d => d.varsize))
  (htype : ∀ varsize, Shrinks (type varsize))

include hp hroom hacc htype

/-- The element type is dropped. -/
theorem arrayRest_follows (varsize : Bool) :
    Follows p (arrayRest acc >>= fun _ => popVal >>= fun _ => pushVal LABCOMM_ARRAY)
      (array type varsize) stack varsize (fun _ => ()) (fun d => d.tag :: d.size :: stack)
      (fun d => d.varsize) := by
  simp only [arrayRest, bind_assoc]
  refine (getVarint_follows p stack varsize).bind number_shrinks fun nidx _ => ?_
  refine (indicesFrom_follows p stack nidx 0 1 varsize).bind (indices_shrinks nidx 0 1 varsize)
    fun dim _ => ?_
  refine (hacc dim.2.2).bind (htype dim.2.2) fun elem _ => ?_
  have hroom' : ((elem.size :: stack).length : Int) < p.valTop := by
    rw [List.length_cons]
    omega
  refine Follows.step (popVal_run hp hroom' · elem.varsize) ?_
  refine Follows.step (popVal_run hp (by omega) · elem.varsize) ?_
  refine Follows.step (pushVal_run hp (by omega) _ · elem.varsize) ?_
  have hroom'' : (((if dim.1 = 0 then dim.2.1 * elem.size % 2 ^ 32 else 0) :: stack).length : Int) <
      p.valTop := by
    rw [List.length_cons]
    omega
  refine Follows.step (pushVal_run hp hroom'' elem.tag · elem.varsize) ?_
  refine Follows.step (popVal_run hp hroom'' · elem.varsize) ?_
  exact Follows.last fun l => pushVal_run hp hroom'' LABCOMM_ARRAY l elem.varsize

theorem acceptField_follows (varsize : Bool) :
    Follows p (acceptField acc) (do
        let num ← number
        let _ ← intentions num none 0
        type varsize)
      stack varsize (fun _ => ()) (fun d => d.size :: stack) (fun d => d.varsize) := by
  have hshrinks : Shrinks (do let num ← number; intentions num none 0) :=
    number_shrinks.bind fun num => intentions_shrinks num none 0
  have hassoc : (do
        let num ← number
        let _ ← intentions num none 0
        type varsize) = (do
        let _ ← (do let num ← number; intentions num none 0)
        type varsize) := (bind_assoc _ _ _).symm
  rw [hassoc]
  refine (acceptIntentions_follows hp hroom varsize).bind hshrinks fun x _ => ?_
  have hroom' : ((x.2 :: stack).length : Int) < p.valTop := by
    rw [List.length_cons]
    omega
  refine Follows.step (popVal_run hp hroom' · varsize) ?_
  refine Follows.step (popVal_run hp (by omega) · varsize) ?_
  rw [← bind_pure (type varsize)]
  refine (hacc varsize).bind (htype varsize) fun d _ => ?_
  have hroom'' : ((d.size :: stack).length : Int) < p.valTop := by
    rw [List.length_cons]
    omega
  refine Follows.step (popVal_run hp hroom'' · d.varsize) ?_
  exact Follows.last fun l => rfl

theorem fieldsFrom_follows (nf fieldsizes : Nat) (varsize : Bool) :
    Follows p (fieldsFrom acc nf fieldsizes) (fields type nf fieldsizes varsize) stack varsize
      (fun x => x.1) (fun _ => stack) (fun x => x.2) := by
  induction nf generalizing fieldsizes varsize with
  | zero => exact Follows.last fun l => rfl
  | succ nf ih =>
      have hshrinks : Shrinks (do
          let num ← number
          let _ ← intentions num none 0
          type varsize) :=
        number_shrinks.bind fun num => (intentions_shrinks num none 0).bind fun _ => htype varsize
      have hassoc : fields type (nf + 1) fieldsizes varsize = (do
          let field ← (do
            let num ← number
            let _ ← intentions num none 0
            type varsize)
          fields type nf ((fieldsizes + field.size) % 2 ^ 32) field.varsize) := by
        simp only [fields, bind_assoc]
      rw [hassoc]
      refine (acceptField_follows hp hroom hacc htype varsize).bind hshrinks fun d _ => ?_
      refine Follows.step (popVal_run hp (by omega) · d.varsize) ?_
      exact ih _ _

theorem structRest_follows (varsize : Bool) :
    Follows p (structRest acc >>= fun _ => pushVal LABCOMM_STRUCT) (struct type varsize) stack
      varsize (fun _ => ()) (fun d => d.tag :: d.size :: stack) (fun d => d.varsize) := by
  simp only [structRest, bind_assoc]
  refine (getVarint_follows p stack varsize).bind number_shrinks fun nf _ => ?_
  refine (fieldsFrom_follows hp hroom hacc htype nf 0 varsize).bind
    (fields_shrinks htype nf 0 varsize) fun sizes _ => ?_
  refine Follows.step (pushVal_run hp (by omega) sizes.1 · sizes.2) ?_
  refine Follows.last fun l => pushVal_run hp ?_ LABCOMM_STRUCT l sizes.2
  rw [List.length_cons]
  omega

end Types

/-- What `accept_type` does for a type that is neither an array nor a struct. -/
def acceptLeaf (tag nbytes : Nat) : Accept Unit :=
  advancen nbytes >>= fun _ =>
  (if tag = Prim.string.token then setVarsize else pure ()) >>= fun _ =>
  pushVal (sizeOfTag tag) >>= fun _ =>
  pushVal tag

theorem acceptLeaf_run {p : State} (hp : Ready p) {stack : List Nat}
    (hroom : (stack.length : Int) + 1 < p.valTop) {l r : List UInt8} (hl : l <:+ p.c.bytes)
    (hr : r <:+ l) (tag : Nat) (varsize : Bool) :
    (acceptLeaf tag (l.length - r.length)).run (p.leaving l stack varsize) = .ok ((),
      p.leaving r (tag :: sizeOfTag tag :: stack)
        (varsize || decide (tag = Prim.string.token))) := by
  have hflag : (if tag = Prim.string.token then setVarsize else pure ()).run
      (p.leaving r stack varsize) =
        .ok ((), p.leaving r stack (varsize || decide (tag = Prim.string.token))) := by
    split
    · rename_i h
      rw [decide_eq_true h, Bool.or_true]
      exact setVarsize_run p r stack varsize
    · rename_i h
      rw [decide_eq_false h, Bool.or_false]
      rfl
  have hsize := @pushVal_run _ hp stack (by omega) (sizeOfTag tag) r
    (varsize || decide (tag = Prim.string.token))
  have htag := @pushVal_run _ hp (sizeOfTag tag :: stack)
    (by rw [List.length_cons]; omega) tag r (varsize || decide (tag = Prim.string.token))
  rw [acceptLeaf, run_bind_of (advancen_run hl stack varsize hr), run_bind_of hflag,
    run_bind_of hsize]
  exact htag

/-- The cases of `accept_type`, in the order of the grammar. -/
theorem acceptType_succ (fuel : Nat) : acceptType (fuel + 1) = peekVarint >>= fun x =>
    if x.1 = LABCOMM_ARRAY then
      acceptArrayDecl (acceptType fuel) >>= fun _ => popVal >>= fun _ => pushVal x.1
    else if x.1 = LABCOMM_STRUCT then acceptStructDecl (acceptType fuel) >>= fun _ => pushVal x.1
    else acceptLeaf x.1 x.2 := by
  rw [acceptType]
  congr 1
  funext x
  obtain ⟨tag, nbytes⟩ := x
  simp only [acceptLeaf, sizeOfTag, Prim.token, LABCOMM_ARRAY, LABCOMM_STRUCT]
  by_cases h₁ : tag = 32 ∨ tag = 33
  · have hother : tag ≠ 16 ∧ tag ≠ 17 ∧ tag ≠ 39 := by omega
    simp [h₁, hother]
  by_cases h₂ : tag = 34
  · simp [h₂]
  by_cases h₃ : tag = 35 ∨ tag = 37 ∨ tag = 40
  · have hother : tag ≠ 16 ∧ tag ≠ 17 ∧ tag ≠ 39 := by omega
    simp [h₁, h₂, h₃, hother]
  by_cases h₄ : tag = 36 ∨ tag = 38
  · have hother : tag ≠ 16 ∧ tag ≠ 17 ∧ tag ≠ 39 := by omega
    simp [h₁, h₂, h₃, h₄, hother]
  by_cases h₅ : tag = 39
  · simp [h₅]
  simp only [h₁, h₂, h₃, h₄, h₅, if_false, pure_bind]
  rfl

/-- **The parser follows the grammar of types**, and leaves the size and the tag on the stack. -/
theorem acceptType_follows {p : State} (hp : Ready p) {stack : List Nat}
    (hroom : (stack.length : Int) + 1 < p.valTop) (fuel : Nat) (varsize : Bool) :
    Follows p (acceptType fuel) (description fuel varsize) stack varsize (fun _ => ())
      (fun d => d.tag :: d.size :: stack) (fun d => d.varsize) := by
  induction fuel generalizing varsize with
  | zero => exact fun l _ => rfl
  | succ fuel ih =>
      intro l hl
      rw [acceptType_succ, StateT.run_bind, peekVarint_run hl, description, Library.run_bind]
      cases hrun : number.run l with
      | error e => rfl
      | ok x =>
          obtain ⟨tag, r⟩ := x
          have hrl := number_shrinks l tag r hrun
          show StateT.run (if tag = LABCOMM_ARRAY then _ else _ : Accept Unit) _ =
            StateT.run (if tag = LABCOMM_ARRAY then _ else _ : Parser Fault Described) r >>= _
          by_cases harray : tag = LABCOMM_ARRAY
          · subst harray
            rw [if_pos rfl, if_pos rfl, run_bind_congr (acceptArrayDecl_run hl _ _ _ hrun)]
            exact arrayRest_follows hp hroom ih (description_shrinks fuel) varsize r (hrl.trans hl)
          rw [if_neg harray, if_neg harray]
          by_cases hstruct : tag = LABCOMM_STRUCT
          · subst hstruct
            rw [if_pos rfl, if_pos rfl, run_bind_congr (acceptStructDecl_run hl _ _ _ hrun)]
            exact structRest_follows hp hroom ih (description_shrinks fuel) varsize r (hrl.trans hl)
          rw [if_neg hstruct, if_neg hstruct]
          exact acceptLeaf_run hp hroom hl hrl tag varsize

end LabComm.C.SigParser
