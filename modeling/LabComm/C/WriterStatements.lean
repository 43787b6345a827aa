import LabComm.C.EncoderSteps

set_option autoImplicit false

/-! # The encoder over any writer

What a failed flush leaves in the buffer is up to the writer: one that writes to a file drops the
bytes, the one that grows its buffer only raises `count`. `Writer` fixes one behaviour. Here the
writer is any state with the actions of `struct labcomm2014_writer_action` (`WriterInterface`),
and a function of the encoder is the list of the write statements it executes (`Write`), each
with what becomes of its result.

That the functions of `Encoder` execute these statements when the writer is a `Writer` is proved
for each of them (`operation_forgets`).
-/

namespace LabComm.C

open Library

variable {σ : Type} {ω : WriterAction}

/-! ## Writers -/

/-- A writer, as the write functions and the encoder use it. -/
structure WriterInterface (σ : Type) where
  /-- `w->pos >= w->count` -/
  full : σ → Bool
  /-- `w->data[w->pos] = b; w->pos++` -/
  store : UInt8 → StateM σ Unit
  flush : StateM σ Int
  start : StateM σ Int
  /-- The action `end`; no caller looks at its result. -/
  finish : StateM σ Unit
  /-- `w->error` -/
  error : σ → Int

/-- `if (w->pos >= w->count) { err = labcomm2014_writer_flush(w, …); }` -/
def WriterInterface.makeRoom (W : WriterInterface σ) : StateM σ Int := fun w =>
  if W.full w then W.flush w else (0, w)

/-- The loop of the write functions: it stops at the first flush that fails. -/
def WriterInterface.putBytes (W : WriterInterface σ) : List UInt8 → StateM σ Int
  | [] => pure 0
  | b :: bs => do
      let err ← W.makeRoom
      if err ≠ 0 then
        return err
      W.store b
      W.putBytes bs

/-! ## Statements -/

/-- A statement that writes. -/
inductive Write where
  /-- `result = labcomm2014_write_…; if (result != 0) { return result; }` -/
  | checked (bs : List UInt8)
  /-- `labcomm2014_write_…;` -/
  | ignored (bs : List UInt8)
  /-- A byte of a signature, stored whatever the flush before it returned. -/
  | raw (b : UInt8)

/-- The result of the statement is looked at. -/
def Write.isChecked : Write → Bool
  | checked _ => true
  | _ => false

/-- What the statement does, and the result of the function it calls. -/
def WriterInterface.attempt (W : WriterInterface σ) : Write → StateM σ Int
  | .checked bs => W.putBytes bs
  | .ignored bs => W.putBytes bs
  | .raw b => do
      let err ← W.makeRoom
      W.store b
      return err

/-- The statements in order, up to the first one that returns. -/
def WriterInterface.perform (W : WriterInterface σ) : List Write → StateM σ Int
  | [] => pure 0
  | w :: ws => do
      let err ← W.attempt w
      if w.isChecked ∧ err ≠ 0 then
        return err
      W.perform ws

/-! ## The statements of a sample -/

/-- The loop variables of nested loops with the limits `ns`, in the order they are visited. -/
def loopPositions : List Nat → List (List Nat)
  | [] => [[]]
  | n :: ns => (List.range n).flatMap fun i => (loopPositions ns).map fun is => i :: is

/-- `C_emitEncoderEncodeLimit` -/
def limitWrites : List Exp → List Int → List Write
  | .integerLiteral _ :: dim, _ :: n => limitWrites dim n
  | .variableSize :: dim, i :: n => .ignored (packed32 (toUnsigned i)) :: limitWrites dim n
  | _, _ => []

mutual

/-- The statements of `DataType.C_emitEncoder`. -/
def emitWrites (refs : RefTables) : DataType → Value → List Write
  | .prim .string, .string s => [.checked (stringBytes s)]
  | .prim .sample, .ref s => [.checked (bigEndian 4 (toUnsigned (refs.toIndex s)))]
  | .prim p, .bits n => [.checked (bigEndian p.size n)]
  | .user _ type, v => emitWrites refs type v
  | .struct fields, .struct vs => emitFieldWrites refs fields vs
  | .array elem dim, .array n a =>
      let limits := loopLimits dim n
      limitWrites dim n ++ (loopPositions (limits.map Int.toNat)).flatMap fun is =>
        emitWrites refs elem (getElement a (elementIndex dim limits is))
  | _, _ => []

/-- The statements of the fields, in order. -/
def emitFieldWrites (refs : RefTables) : Fields → List Value → List Write
  | .cons _ _ type rest, v :: vs => emitWrites refs type v ++ emitFieldWrites refs rest vs
  | _, _ => []

end

/-- The statements of `do_encode` and of the generated function it calls. The result of the write
of the index is overwritten by that of the length. -/
def sampleWrites (refs : RefTables) (index length : Int) (type : DataType) (v : Value) :
    List Write :=
  .ignored (packed32 (toUnsigned index)) :: .checked (packed32 (toUnsigned length)) ::
    emitWrites refs type v

/-! ## The statements of the other packets -/

/-- `write_sig_tree_byte`, for the entries of a hierarchical signature. -/
def treeWrites : SignatureData → Except Exit (List Write)
  | .sigdefEnd => pure []
  | .sigdefBytes b bs rest => do
      let ws ← treeWrites rest
      pure ((b :: bs).map Write.raw ++ ws)
  | .sigdefSignature s rest => do
      let idx ← getLocalIndex (some s)
      let ws ← treeWrites rest
      pure (.ignored (packed32 (toUnsigned idx)) :: ws)

/-- The statements of a definition; `body` are those of the signature. -/
def definitionWrites (tag : Nat) (index : Int) (s : Signature) (size : Int)
    (body : List Write) : List Write :=
  let length := wrap32 (sizePacked32 (toUnsigned index) + todoSizeofIntentions s +
    sizePacked32 (toUnsigned size) + size)
  [.ignored (packed32 tag), .ignored (packed32 (toUnsigned length)),
    .ignored (packed32 (toUnsigned index)), .ignored (packed32 1), .ignored (packed32 0),
    .ignored (stringBytes s.name), .ignored (packed32 (toUnsigned size))] ++ body

/-- The statements that write a definition with a flat signature. -/
def flatWrites (tag : Nat) (s : Signature) (index : Int) : Except Exit (List Write) :=
  pure (definitionWrites tag index s s.size (s.bytes.map Write.raw))

/-- The statements that write a `TYPE_DEF`. -/
def typeWrites (s : Signature) (index : Int) : Except Exit (List Write) := do
  let size ← calcSigEncodedSize s
  let body ← treeWrites s.treedata
  pure (definitionWrites LABCOMM_TYPE_DEF index s size body)

/-- The statements of a binding. -/
def bindingWrites (sindex tindex : Int) : List Write :=
  let length := wrap32 (sizePacked32 (toUnsigned sindex) + sizePacked32 (toUnsigned tindex))
  [.ignored (packed32 LABCOMM_TYPE_BINDING), .ignored (packed32 (toUnsigned length)),
    .ignored (packed32 (toUnsigned sindex)), .ignored (packed32 (toUnsigned tindex))]

/-- The statements of `internal_encoder_new`. -/
def versionWrites : List Write :=
  [.ignored (packed32 LABCOMM_VERSION),
    .ignored (packed32 (toUnsigned (sizeString CURRENT_VERSION))),
    .ignored (stringBytes CURRENT_VERSION)]

/-! ## The encoder -/

/-- `struct encoder`, over any writer. -/
structure EncoderOn (σ : Type) where
  writer : σ
  registered : SigArray Bool
  sampleRef : SigArray Bool
  typedefs : SigArray Bool

/-- A function of the encoder; it may end the process. -/
abbrev EncoderOnM (σ : Type) := ExceptT Exit (StateM (EncoderOn σ))

/-- A table of the encoder. -/
def EncoderOn.table (e : EncoderOn σ) : Table → SigArray Bool
  | .registered => e.registered
  | .sampleRef => e.sampleRef
  | .typedefs => e.typedefs

/-- `*done = 1` -/
def EncoderOn.setDone (e : EncoderOn σ) (table : Table) (index : Int) : EncoderOn σ :=
  match table with
  | .registered => { e with registered := e.registered.set index true }
  | .sampleRef => { e with sampleRef := e.sampleRef.set index true }
  | .typedefs => { e with typedefs := e.typedefs.set index true }

/-- `*done` -/
def EncoderOn.done (e : EncoderOn σ) (table : Table) (index : Int) : Bool :=
  (e.table table).get index

/-- `encoder->sample_ref_to_index` -/
def EncoderOn.refs (e : EncoderOn σ) : RefTables where
  toIndex := doSampleRefToIndex e.sampleRef
  toRef _ := none
  toIndex_none := rfl
  toRef_zero := noRefs.toRef_zero

/-- A call on `e->writer`. -/
def calling {α : Type} (m : StateM σ α) : EncoderOnM σ α :=
  ExceptT.lift fun e => ((m e.writer).1, { e with writer := (m e.writer).2 })

/-- What is done after the start of a packet without a value; `w->error` is the result. -/
def sendOn (W : WriterInterface σ) (writes : Except Exit (List Write)) : EncoderOnM σ Int := do
  let err ← calling W.start
  if err = -EALREADY then
    return 0
  if err ≠ 0 then
    return err
  let ws ← writes
  let _ ← calling (W.perform ws)
  calling W.finish
  return W.error (← get).writer

/-- `do_sample_register`, `do_ref_register` and `internal_reg_type`. -/
def registerOn (W : WriterInterface σ) (table : Table) (s : Signature)
    (writes : Int → Except Exit (List Write)) : EncoderOnM σ Int := do
  let index ← getLocalIndex (some s)
  if index ≤ 0 then
    return -EINVAL
  if (← get).done table index then
    return -EINVAL
  modify fun e => e.setDone table index
  sendOn W (writes index)

/-- `do_type_bind` -/
def doTypeBindOn (W : WriterInterface σ) (s : Signature) (hasDeps : Bool) :
    EncoderOnM σ Int := do
  let sindex ← getLocalIndex (some s)
  let tindex ← boundTypeIndex s hasDeps
  if sindex ≤ 0 ∨ (hasDeps ∧ tindex ≤ 0) then
    return -EINVAL
  sendOn W (pure (bindingWrites sindex tindex))

/-- `do_encode` -/
def doEncodeOn (W : WriterInterface σ) (s : Signature) (type : DataType) (v : Value) :
    EncoderOnM σ Int := do
  let index ← getLocalIndex (some s)
  let length := (cSizeof type v).getD 0
  let e ← get
  if !e.registered.get index then
    return -EINVAL
  let result ← calling W.start
  if result = -EALREADY then
    return 0
  if result ≠ 0 then
    calling W.finish
    return result
  let result ← calling (W.perform (sampleWrites e.refs index length type v))
  calling W.finish
  return result

/-- A call of the encoder. -/
inductive Operation where
  | sampleRegister (s : Signature)
  | refRegister (s : Signature)
  | typeRegister (s : Signature)
  | typeBind (s : Signature) (hasDeps : Bool)
  | encode (s : Signature) (type : DataType) (v : Value)

/-- What the call does, on any writer. -/
def Operation.runOn (W : WriterInterface σ) : Operation → EncoderOnM σ Int
  | sampleRegister s => registerOn W .registered s (flatWrites LABCOMM_SAMPLE_DEF s)
  | refRegister s => registerOn W .sampleRef s (flatWrites LABCOMM_SAMPLE_REF s)
  | typeRegister s => registerOn W .typedefs s (typeWrites s)
  | typeBind s hasDeps => doTypeBindOn W s hasDeps
  | encode s type v => doEncodeOn W s type v

/-! ## Statements one after the other -/

section Statements

variable (W : WriterInterface σ)

theorem perform_nil (x : σ) : W.perform [] x = (0, x) := rfl

theorem perform_cons (w : Write) (ws : List Write) (x : σ) :
    W.perform (w :: ws) x =
      if w.isChecked = true ∧ (W.attempt w x).1 ≠ 0 then W.attempt w x
      else W.perform ws (W.attempt w x).2 := by
  show (if w.isChecked = true ∧ (W.attempt w x).1 ≠ 0 then _ else _ : StateM σ Int)
    (W.attempt w x).2 = _
  split <;> rfl

theorem perform_ignored (bs : List UInt8) (ws : List Write) (x : σ) :
    W.perform (.ignored bs :: ws) x = W.perform ws (W.putBytes bs x).2 := by
  rw [perform_cons, if_neg (by simp [Write.isChecked])]
  rfl

theorem perform_checked (bs : List UInt8) (ws : List Write) (x : σ) :
    W.perform (.checked bs :: ws) x =
      if (W.putBytes bs x).1 ≠ 0 then W.putBytes bs x else W.perform ws (W.putBytes bs x).2 := by
  rw [perform_cons]
  simp only [Write.isChecked, true_and]
  rfl

theorem perform_append (ws vs : List Write) (x : σ) :
    W.perform (ws ++ vs) x =
      if (W.perform ws x).1 ≠ 0 then W.perform ws x else W.perform vs (W.perform ws x).2 := by
  induction ws generalizing x with
  | nil =>
      rw [List.nil_append, perform_nil, if_neg (by simp)]
  | cons w ws ih =>
      rw [List.cons_append, perform_cons, perform_cons, ih]
      by_cases h : w.isChecked = true ∧ (W.attempt w x).1 ≠ 0
      · rw [if_pos h, if_pos h, if_pos h.2]
      · rw [if_neg h, if_neg h]

/-- Statements whose results are not looked at are all executed. -/
theorem perform_unchecked {ws : List Write} (h : ∀ w ∈ ws, w.isChecked = false) (x : σ) :
    (W.perform ws x).1 = 0 := by
  induction ws generalizing x with
  | nil => rfl
  | cons w ws ih =>
      have hw := h w List.mem_cons_self
      rw [perform_cons, if_neg (by simp [hw])]
      exact ih (fun v hv => h v (List.mem_cons_of_mem w hv)) _

theorem putBytes_cons (b : UInt8) (bs : List UInt8) (x : σ) :
    W.putBytes (b :: bs) x =
      if (W.makeRoom x).1 ≠ 0 then W.makeRoom x
      else W.putBytes bs (W.store b (W.makeRoom x).2).2 := by
  show (if (W.makeRoom x).1 ≠ 0 then _ else _ : StateM σ Int) (W.makeRoom x).2 = _
  split <;> rfl

theorem putBytes_append (bs cs : List UInt8) (x : σ) :
    W.putBytes (bs ++ cs) x =
      if (W.putBytes bs x).1 ≠ 0 then W.putBytes bs x else W.putBytes cs (W.putBytes bs x).2 := by
  induction bs generalizing x with
  | nil =>
      have hnil : W.putBytes [] x = (0, x) := rfl
      rw [List.nil_append, hnil, if_neg (by simp)]
  | cons b bs ih =>
      rw [List.cons_append, putBytes_cons, putBytes_cons, ih]
      by_cases h : (W.makeRoom x).1 ≠ 0
      · rw [if_pos h, if_pos h, if_pos h]
      · rw [if_neg h, if_neg h]

end Statements

/-! ## The calls of the encoder -/

section Calls

variable (W : WriterInterface σ)

/-- The encoder after a call of the writer's start. -/
def EncoderOn.started (e : EncoderOn σ) : EncoderOn σ := { e with writer := (W.start e.writer).2 }

/-- The writer after the statements and the end of a packet. -/
def WriterInterface.sent (ws : List Write) (x : σ) : σ := (W.finish (W.perform ws x).2).2

@[simp] theorem EncoderOn.setDone_writer (e : EncoderOn σ) (table : Table) (index : Int) :
    (e.setDone table index).writer = e.writer := by
  cases table <;> rfl

theorem sendOn_run (writes : Except Exit (List Write)) (e : EncoderOn σ) :
    (sendOn W writes).run e =
      if (W.start e.writer).1 = -EALREADY then (.ok 0, e.started W)
      else if (W.start e.writer).1 ≠ 0 then (.ok (W.start e.writer).1, e.started W)
      else match writes with
        | .error exit => (.error exit, e.started W)
        | .ok ws => (.ok (W.error (W.sent ws (e.started W).writer)),
            { e with writer := W.sent ws (e.started W).writer }) := by
  show ((if (W.start e.writer).1 = -EALREADY then _ else _ : EncoderOnM σ Int).run
    (e.started W)) = _
  by_cases h1 : (W.start e.writer).1 = -EALREADY
  · rw [if_pos h1, if_pos h1]
    rfl
  rw [if_neg h1, if_neg h1]
  show ((if (W.start e.writer).1 ≠ 0 then _ else _ : EncoderOnM σ Int).run (e.started W)) = _
  by_cases h2 : (W.start e.writer).1 ≠ 0
  · rw [if_pos h2, if_pos h2]
    rfl
  rw [if_neg h2, if_neg h2]
  cases writes with
  | error exit => rfl
  | ok ws => rfl

theorem registerOn_run (table : Table) (s : Signature)
    (writes : Int → Except Exit (List Write)) (e : EncoderOn σ) :
    (registerOn W table s writes).run e =
      if s.index = 0 then (.error .signatureNotSet, e)
      else if s.index ≤ 0 ∨ e.done table s.index = true then (.ok (-EINVAL), e)
      else (sendOn W (writes s.index)).run (e.setDone table s.index) := by
  by_cases h0 : s.index = 0
  · rw [if_pos h0, registerOn, getLocalIndex, if_pos h0]
    rfl
  rw [if_neg h0, registerOn, getLocalIndex_some h0]
  show ((if s.index ≤ 0 then _ else _ : EncoderOnM σ Int).run e) = _
  by_cases h1 : s.index ≤ 0
  · rw [if_pos h1, if_pos (Or.inl h1)]
    rfl
  rw [if_neg h1]
  show ((if e.done table s.index = true then _ else _ : EncoderOnM σ Int).run e) = _
  by_cases h2 : e.done table s.index = true
  · rw [if_pos h2, if_pos (Or.inr h2)]
    rfl
  · rw [if_neg h2, if_neg (not_or.mpr ⟨h1, h2⟩)]
    rfl

theorem doTypeBindOn_run (s : Signature) (hasDeps : Bool) (e : EncoderOn σ) :
    (doTypeBindOn W s hasDeps).run e =
      if s.index = 0 then (.error .signatureNotSet, e)
      else if s.index ≤ 0 then (.ok (-EINVAL), e)
      else (sendOn W (pure (bindingWrites s.index (if hasDeps then s.index else 0)))).run e := by
  by_cases h0 : s.index = 0
  · rw [if_pos h0, doTypeBindOn, getLocalIndex, if_pos h0]
    rfl
  rw [if_neg h0, doTypeBindOn, getLocalIndex_some h0, boundTypeIndex_eq hasDeps h0]
  generalize htindex : (if hasDeps = true then s.index else 0) = tindex
  have hcond : (s.index ≤ 0 ∨ (hasDeps = true ∧ tindex ≤ 0)) ↔ s.index ≤ 0 := by
    rw [← htindex]
    cases hasDeps <;> simp
  show ((if s.index ≤ 0 ∨ (hasDeps = true ∧ tindex ≤ 0) then _ else _ :
    EncoderOnM σ Int).run e) = _
  by_cases h1 : s.index ≤ 0
  · rw [if_pos (hcond.mpr h1), if_pos h1]
    rfl
  · rw [if_neg (fun hc => h1 (hcond.mp hc)), if_neg h1]

theorem doEncodeOn_run (s : Signature) (type : DataType) (v : Value) (e : EncoderOn σ) :
    (doEncodeOn W s type v).run e =
      if s.index = 0 then (.error .signatureNotSet, e)
      else if e.registered.get s.index = false then (.ok (-EINVAL), e)
      else if (W.start e.writer).1 = -EALREADY then (.ok 0, e.started W)
      else if (W.start e.writer).1 ≠ 0 then
        (.ok (W.start e.writer).1, { e with writer := (W.finish (e.started W).writer).2 })
      else
        let ws := sampleWrites e.refs s.index ((cSizeof type v).getD 0) type v
        (.ok (W.perform ws (e.started W).writer).1,
          { e with writer := W.sent ws (e.started W).writer }) := by
  by_cases h0 : s.index = 0
  · rw [if_pos h0, doEncodeOn, getLocalIndex, if_pos h0]
    rfl
  rw [if_neg h0, doEncodeOn, getLocalIndex_some h0]
  show ((if (!e.registered.get s.index) = true then _ else _ : EncoderOnM σ Int).run e) = _
  cases hreg : e.registered.get s.index with
  | false => rfl
  | true =>
      rw [if_neg (by decide), if_neg (by decide)]
      show ((if (W.start e.writer).1 = -EALREADY then _ else _ : EncoderOnM σ Int).run
        (e.started W)) = _
      by_cases h2 : (W.start e.writer).1 = -EALREADY
      · rw [if_pos h2, if_pos h2]
        rfl
      rw [if_neg h2, if_neg h2]
      show ((if (W.start e.writer).1 ≠ 0 then _ else _ : EncoderOnM σ Int).run
        (e.started W)) = _
      by_cases h3 : (W.start e.writer).1 ≠ 0
      · rw [if_pos h3, if_pos h3]
        rfl
      · rw [if_neg h3, if_neg h3]
        rfl

end Calls

theorem flatMap_loopPositions {α : Type} (n : Nat) (ns : List Nat) (g : List Nat → List α) :
    (loopPositions (n :: ns)).flatMap g =
      (List.range n).flatMap fun i => (loopPositions ns).flatMap fun is => g (i :: is) := by
  rw [loopPositions, List.flatMap_assoc]
  congr 1
  funext i
  rw [List.flatMap_map]

/-! ## The statements of a `Writer` -/

/-- The writer of `Writer`. -/
def writerInterface : WriterInterface (Writer ω) where
  full w := decide (w.pos ≥ w.count)
  store := storeByte
  flush := writerFlush
  start := writerStart
  finish := do let _ ← writerEnd
  error := Writer.error

theorem makeRoom_writer : writerInterface.makeRoom = makeRoom (ω := ω) := by
  funext w
  show (if decide (w.pos ≥ w.count) = true then writerFlush w else (0, w)) =
    (if w.pos ≥ w.count then writerFlush else pure 0 : StateM (Writer ω) Int) w
  by_cases h : w.pos ≥ w.count
  · rw [if_pos h, if_pos (decide_eq_true h)]
  · rw [if_neg h, if_neg (by simpa using h)]
    rfl

theorem putBytes_writer (bs : List UInt8) :
    writerInterface.putBytes bs = writeBytes (ω := ω) bs := by
  induction bs with
  | nil => rfl
  | cons b bs ih =>
      rw [WriterInterface.putBytes, makeRoom_writer, ih]
      rfl

theorem putBytes_packed32 (data : Nat) :
    writerInterface.putBytes (packed32 data) = writePacked32 (ω := ω) data :=
  putBytes_writer _

/-- Two writes, the second only when the first one succeeds. -/
theorem andThen_run (m k : StateM (Writer ω) Int) (w : Writer ω) :
    (m >>= fun err => if err ≠ 0 then pure err else k) w =
      if (m w).1 ≠ 0 then m w else k (m w).2 := by
  show (if (m w).1 ≠ 0 then pure (m w).1 else k : StateM (Writer ω) Int) (m w).2 = _
  split <;> rfl

theorem putBytes_string (s : List UInt8) :
    writerInterface.putBytes (stringBytes s) = writeString (ω := ω) s := by
  funext w
  rw [stringBytes, putBytes_append, putBytes_packed32, putBytes_writer]
  exact (andThen_run _ _ w).symm

/-- The program executes the statements: it goes on exactly if they all go through, and stops
with the result of the last one otherwise. -/
def Performs (m : ExceptT Int (StateM (Writer ω)) Unit) (ws : List Write) : Prop :=
  ∀ w, m.run w =
    (if (writerInterface.perform ws w).1 = 0 then .ok () else
      .error (writerInterface.perform ws w).1, (writerInterface.perform ws w).2)

theorem Performs.pure : Performs (ω := ω) (Pure.pure ()) [] := fun _ => rfl

theorem Performs.bind {m : ExceptT Int (StateM (Writer ω)) Unit}
    {f : Unit → ExceptT Int (StateM (Writer ω)) Unit} {ws vs : List Write}
    (hm : Performs m ws) (hf : Performs (f ()) vs) : Performs (m >>= f) (ws ++ vs) := by
  intro w
  have h := hm w
  rw [perform_append]
  by_cases hok : (writerInterface.perform ws w).1 = 0
  · rw [if_pos hok] at h
    rw [run_bind_ok h, if_neg (not_not.mpr hok)]
    exact hf _
  · rw [if_neg hok] at h
    rw [run_bind_error h, if_pos hok, if_neg hok]

theorem Performs.orReturn {m : StateM (Writer ω) Int} {bs : List UInt8}
    (h : writerInterface.putBytes bs = m) : Performs (orReturn m) [.checked bs] := by
  intro w
  subst h
  have hstep := perform_checked writerInterface bs [] w
  have hrun : (C.orReturn (writerInterface.putBytes bs)).run w =
      ((if (writerInterface.putBytes bs w).1 ≠ 0 then throw (writerInterface.putBytes bs w).1
        else Pure.pure () : ExceptT Int (StateM (Writer ω)) Unit).run
          (writerInterface.putBytes bs w).2) := rfl
  rw [hrun, hstep]
  by_cases h : (writerInterface.putBytes bs w).1 = 0
  · rw [if_neg (not_not.mpr h), if_neg (not_not.mpr h)]
    rfl
  · rw [if_pos h, if_pos h, if_neg h]
    rfl

theorem Performs.foldlM (l : List Nat) {f : Unit → Nat → ExceptT Int (StateM (Writer ω)) Unit}
    {h : Nat → List Write} (hf : ∀ i, Performs (f () i) (h i)) :
    Performs (l.foldlM f ()) (l.flatMap h) := by
  induction l with
  | nil => exact Performs.pure
  | cons i l ih =>
      rw [List.foldlM_cons, List.flatMap_cons]
      exact (hf i).bind ih

theorem Performs.nest (ns : List Nat)
    {f : List Nat → Unit → ExceptT Int (StateM (Writer ω)) Unit} {g : List Nat → List Write}
    (hf : ∀ is, Performs (f is ()) (g is)) :
    Performs (Library.nest ns f ()) ((loopPositions ns).flatMap g) := by
  induction ns generalizing f g with
  | nil => simpa [loopPositions, Library.nest] using hf []
  | cons n ns ih =>
      rw [flatMap_loopPositions]
      exact Performs.foldlM _ fun i => ih fun is => hf (i :: is)

theorem encodeLimit_performs (dim : List Exp) (n : List Int) :
    Performs (ExceptT.lift (cEmitEncoderEncodeLimit (ω := ω) dim n)) (limitWrites dim n) := by
  induction dim generalizing n with
  | nil => exact Performs.pure
  | cons e dim ih =>
      cases n with
      | nil => cases e <;> exact Performs.pure
      | cons i n =>
          cases e with
          | integerLiteral value => exact ih n
          | variableSize =>
              intro w
              have hrest := ih n (writePacked32 (toUnsigned i) w).2
              rw [limitWrites, perform_ignored, putBytes_packed32]
              exact hrest

theorem cEmitEncoder_prim_performs (refs : RefTables) (p : Prim) (v : Value) :
    Performs (cEmitEncoder (ω := ω) refs (.prim p) v) (emitWrites refs (.prim p) v) := by
  cases v with
  | bits n => cases p <;> exact Performs.orReturn (putBytes_writer _)
  | string s =>
      cases p with
      | string => exact Performs.orReturn (putBytes_string s)
      | sample | boolean | byte | short | int | long | float | double => exact Performs.pure
  | ref s =>
      cases p with
      | sample => exact Performs.orReturn (putBytes_writer _)
      | string | boolean | byte | short | int | long | float | double => exact Performs.pure
  | unset | struct _ | array _ _ => cases p <;> exact Performs.pure

mutual

/-- The generated encoder executes its statements, whatever it is given. -/
theorem cEmitEncoder_performs (refs : RefTables) :
    ∀ (t : DataType) (v : Value),
      Performs (cEmitEncoder (ω := ω) refs t v) (emitWrites refs t v)
  | .void, v => by
      cases v <;> exact Performs.pure
  | .prim p, v => cEmitEncoder_prim_performs refs p v
  | .user _ type, v => by
      rw [cEmitEncoder, emitWrites]
      exact cEmitEncoder_performs refs type v
  | .struct fields, v => by
      cases v with
      | struct vs => exact cEmitEncoderFields_performs refs fields vs
      | unset | bits _ | string _ | ref _ | array _ _ => exact Performs.pure
  | .array elem dim, v => by
      cases v with
      | array n a =>
          rw [cEmitEncoder, emitWrites]
          exact (encodeLimit_performs dim n).bind
            (Performs.nest _ fun is => cEmitEncoder_performs refs elem _)
      | unset | bits _ | string _ | ref _ | struct _ => exact Performs.pure

theorem cEmitEncoderFields_performs (refs : RefTables) :
    ∀ (fields : Fields) (vs : List Value),
      Performs (cEmitEncoderFields (ω := ω) refs fields vs) (emitFieldWrites refs fields vs)
  | .nil, vs => by
      cases vs <;> exact Performs.pure
  | .cons _ _ _ _, [] => Performs.pure
  | .cons _ _ type rest, v :: vs =>
      (cEmitEncoder_performs refs type v).bind (cEmitEncoderFields_performs refs rest vs)

end

/-- What `encode_S` returns: the result of the statement that failed, or 0. -/
theorem cEncode_run (refs : RefTables) (t : DataType) (v : Value) (w : Writer ω) :
    cEncode refs t v w =
      ((match ((cEmitEncoder refs t v).run w).1 with
        | .ok _ => pure 0
        | .error result => pure result : StateM (Writer ω) Int)
        ((cEmitEncoder refs t v).run w).2) := rfl

/-- The function `encode_S` returns what its statements return. -/
theorem cEncode_performs (refs : RefTables) (t : DataType) (v : Value) (w : Writer ω) :
    cEncode refs t v w = writerInterface.perform (emitWrites refs t v) w := by
  have h := cEmitEncoder_performs refs t v w
  rw [cEncode_run, h]
  by_cases hok : (writerInterface.perform (emitWrites refs t v) w).1 = 0
  · rw [if_pos hok]
    exact Prod.ext hok.symm rfl
  · rw [if_neg hok]
    rfl

/-! ## The encoder of `Encoder` -/

/-- The encoder without its log. -/
def Encoder.bare (e : Encoder ω) : EncoderOn (Writer ω) :=
  ⟨e.writer, e.registered, e.sampleRef, e.typedefs⟩

/-- The call, on a `Writer`. -/
def Operation.run : Operation → EncoderM ω Int
  | sampleRegister s => doSampleRegister s
  | refRegister s => doRefRegister s
  | typeRegister s => doTypeRegister s
  | typeBind s hasDeps => doTypeBind s hasDeps
  | encode s type v => doEncode s type v

/-- The program executes the statements, whose results are not looked at. -/
structure Executes (m : EncoderM ω Unit) (ws : List Write) : Prop where
  unchecked : ∀ w ∈ ws, w.isChecked = false
  run : ∀ e, m.run e =
    (.ok (), { e with writer := (writerInterface.perform ws e.writer).2 })

theorem Executes.pure : Executes (ω := ω) (Pure.pure ()) [] := ⟨by simp, fun _ => rfl⟩

theorem Executes.bind {m : EncoderM ω Unit} {f : Unit → EncoderM ω Unit} {ws vs : List Write}
    (hm : Executes m ws) (hf : Executes (f ()) vs) : Executes (m >>= f) (ws ++ vs) := by
  refine ⟨fun w hw => ?_, fun e => ?_⟩
  · rcases List.mem_append.mp hw with hw | hw
    · exact hm.unchecked w hw
    · exact hf.unchecked w hw
  · rw [run_bind_ok (hm.run e), hf.run, perform_append,
      if_neg (not_not.mpr (perform_unchecked _ hm.unchecked _))]

/-- A write the encoder does not look at the result of. -/
theorem Executes.write {m : StateM (Writer ω) Int} {k : EncoderM ω Unit} {bs : List UInt8}
    {ws : List Write} (hm : writerInterface.putBytes bs = m) (hk : Executes k ws) :
    Executes (onWriter m >>= fun _ => k) (.ignored bs :: ws) := by
  subst hm
  refine ⟨?_, fun e => ?_⟩
  · simpa [Write.isChecked] using hk.unchecked
  · rw [perform_ignored]
    exact hk.run { e with writer := (writerInterface.putBytes bs e.writer).2 }

theorem writeRawByte_executes (b : UInt8) :
    Executes (onWriter (writeRawByte b) : EncoderM ω Unit) [.raw b] := by
  refine ⟨by simp [Write.isChecked], fun e => ?_⟩
  rw [perform_cons, if_neg (by simp [Write.isChecked]), WriterInterface.attempt, makeRoom_writer]
  rfl

theorem forM_writeRawByte_executes (bs : List UInt8) :
    Executes (bs.forM fun b => onWriter (writeRawByte b) : EncoderM ω Unit)
      (bs.map Write.raw) := by
  induction bs with
  | nil => exact Executes.pure
  | cons b bs ih => exact (writeRawByte_executes b).bind ih

/-- A result that is already there. -/
theorem Executes.ofExcept {α : Type} {x : Except Exit α} {a : α} {f : α → EncoderM ω Unit}
    {ws : List Write} (hx : x = .ok a) (hf : Executes (f a) ws) :
    Executes ((liftM x : EncoderM ω α) >>= f) ws := by
  subst hx
  exact ⟨hf.unchecked, hf.run⟩

theorem onWriter_three_executes {k l m : StateM (Writer ω) Int} {as bs cs : List UInt8}
    (hk : writerInterface.putBytes as = k) (hl : writerInterface.putBytes bs = l)
    (hm : writerInterface.putBytes cs = m) :
    Executes (onWriter (do
      let _ ← k
      let _ ← l
      let _ ← m) : EncoderM ω Unit) [.ignored as, .ignored bs, .ignored cs] := by
  subst hk hl hm
  refine ⟨by simp [Write.isChecked], fun e => ?_⟩
  rw [perform_ignored, perform_ignored, perform_ignored, perform_nil]
  rfl

theorem todoEncodeIntentions_executes (s : Signature) :
    Executes (onWriter (todoEncodeIntentions s) : EncoderM ω Unit)
      [.ignored (packed32 1), .ignored (packed32 0), .ignored (stringBytes s.name)] :=
  onWriter_three_executes (putBytes_packed32 1) (putBytes_packed32 0) (putBytes_string s.name)

theorem writeDefinition_executes (tag : Nat) (index : Int) (s : Signature) (size : Int)
    {body : EncoderM ω Unit} {ws : List Write} (h : Executes body ws) :
    Executes (writeDefinition tag index s size body) (definitionWrites tag index s size ws) := by
  have hsize := Executes.write (putBytes_packed32 (toUnsigned size)) h
  have hint := (todoEncodeIntentions_executes s).bind (f := fun _ => _) hsize
  exact Executes.write (putBytes_packed32 _) (Executes.write (putBytes_packed32 _)
    (Executes.write (putBytes_packed32 _) hint))

theorem treeWrites_executes (d : SignatureData) (h : d.RefsSet) :
    ∃ ws, treeWrites d = .ok ws ∧
      Executes (mapSignatureData writeSigTreeByte false d : EncoderM ω Unit) ws := by
  match d with
  | .sigdefEnd => exact ⟨[], rfl, Executes.pure⟩
  | .sigdefBytes b bs rest =>
      obtain ⟨ws, hws, hrest⟩ := treeWrites_executes rest h
      refine ⟨(b :: bs).map Write.raw ++ ws, ?_, (forM_writeRawByte_executes (b :: bs)).bind hrest⟩
      rw [treeWrites, hws]
      rfl
  | .sigdefSignature s rest =>
      obtain ⟨ws, hws, hrest⟩ := treeWrites_executes rest h.2
      refine ⟨.ignored (packed32 (toUnsigned s.index)) :: ws, ?_, ?_⟩
      · rw [treeWrites, getLocalIndex_some h.1, hws]
        rfl
      · have href : Executes (writeSigTreeByte 0 (some s) : EncoderM ω Unit)
            [.ignored (packed32 (toUnsigned s.index))] := by
          rw [writeSigTreeByte, getLocalIndex_some h.1]
          exact Executes.write (putBytes_packed32 _) Executes.pure
        exact href.bind hrest

/-- The end of a packet: the statements, the action `end`, and `w->error`. -/
theorem finish_executes {define : EncoderM ω Unit} {ws : List Write} (h : Executes define ws)
    (packet : Packet) (e : Encoder ω) :
    (finish define packet).run e =
      (.ok (writerInterface.error (writerInterface.sent ws e.writer)),
        { e with writer := writerInterface.sent ws e.writer, sent := e.sent ++ [⟨packet, []⟩] }) := by
  rw [finish, run_bind_ok (h.run e)]
  rfl

theorem Encoder.bare_setDone (e : Encoder ω) (table : Table) (index : Int) :
    (e.setDone table index).bare = e.bare.setDone table index := by
  cases table <;> rfl

theorem Encoder.bare_done (e : Encoder ω) (table : Table) (index : Int) :
    e.bare.done table index = e.done table index := by
  cases table <;> rfl

/-- A registration, when its definition executes the statements `writes`. -/
theorem register_forgets {table : Table} {s : Signature} {define : Int → EncoderM ω Unit}
    {writes : Int → Except Exit (List Write)}
    (h : ∀ index, (∃ ws, writes index = .ok ws ∧ Executes (define index) ws) ∨
      ∃ exit, writes index = .error exit ∧ ∀ e, (define index).run e = (.error exit, e))
    (packet : Int → Packet) (e : Encoder ω) :
    (registerOn writerInterface table s writes).run e.bare =
      (((register table s define packet).run e).1,
        ((register table s define packet).run e).2.bare) := by
  have hwriter : (e.setDone table s.index).writer = e.writer := e.setDone_writer table s.index
  have hbare : (e.bare.setDone table s.index).writer = e.writer := EncoderOn.setDone_writer ..
  rw [registerOn_run, register_run, e.bare_done]
  by_cases h0 : s.index = 0
  · rw [if_pos h0, if_pos h0]
  rw [if_neg h0, if_neg h0]
  by_cases h1 : s.index ≤ 0 ∨ e.done table s.index = true
  · rw [if_pos h1, if_pos h1]
  rw [if_neg h1, if_neg h1, sendOn_run, hbare]
  have hstart : (writerInterface.start e.writer).1 = ω.start e.writer.starts := rfl
  have hstarted : (e.bare.setDone table s.index).started writerInterface =
      (e.setDone table s.index).started.bare := by
    rw [← e.bare_setDone]
    rfl
  rw [hstart, hstarted]
  by_cases h2 : ω.start e.writer.starts = -EALREADY
  · rw [if_pos h2, if_pos h2]
  rw [if_neg h2, if_neg h2]
  by_cases h3 : ω.start e.writer.starts ≠ 0
  · rw [if_pos h3, if_pos h3]
  rw [if_neg h3, if_neg h3]
  rcases h s.index with ⟨ws, hws, hex⟩ | ⟨exit, hws, hex⟩
  · rw [hws, finish_executes hex, ← e.bare_setDone]
    rfl
  · rw [hws, finish, run_bind_error (hex _)]

theorem doTypeBind_forgets (s : Signature) (hasDeps : Bool) (e : Encoder ω) :
    (doTypeBindOn writerInterface s hasDeps).run e.bare =
      (((doTypeBind s hasDeps).run e).1, ((doTypeBind s hasDeps).run e).2.bare) := by
  rw [doTypeBindOn_run]
  by_cases h0 : s.index = 0
  · rw [if_pos h0, doTypeBind_unset hasDeps e h0]
  rw [if_neg h0, doTypeBind_run hasDeps e h0]
  by_cases h1 : s.index ≤ 0
  · rw [if_pos h1, if_pos h1]
  rw [if_neg h1, if_neg h1, sendOn_run]
  have hstart : (writerInterface.start e.bare.writer).1 = ω.start e.writer.starts := rfl
  rw [hstart]
  by_cases h2 : ω.start e.writer.starts = -EALREADY
  · rw [if_pos h2, if_pos h2]
    rfl
  rw [if_neg h2, if_neg h2]
  by_cases h3 : ω.start e.writer.starts ≠ 0
  · rw [if_pos h3, if_pos h3]
    rfl
  rw [if_neg h3, if_neg h3]
  have hex : Executes (writeBinding s.index (if hasDeps then s.index else 0) : EncoderM ω Unit)
      (bindingWrites s.index (if hasDeps then s.index else 0)) :=
    Executes.write (putBytes_packed32 _) (Executes.write (putBytes_packed32 _)
      (Executes.write (putBytes_packed32 _) (Executes.write (putBytes_packed32 _) Executes.pure)))
  rw [finish_executes hex]
  rfl

/-- The bytes of a sample are written by its statements. -/
theorem writeSample_performs (refs : RefTables) (index length : Int) (type : DataType) (v : Value)
    (e : Encoder ω) :
    (writeSample refs index length type v).run e =
      (.ok (writerInterface.perform (sampleWrites refs index length type v) e.writer).1,
        { e with writer :=
          (writerInterface.perform (sampleWrites refs index length type v) e.writer).2 }) := by
  rw [sampleWrites, perform_ignored, perform_checked, putBytes_packed32, putBytes_packed32]
  generalize hw : (writePacked32 (toUnsigned index) e.writer).2 = w
  generalize hm : writePacked32 (ω := ω) (toUnsigned length) = m
  have hrun : (writeSample refs index length type v).run e =
      ((if (m w).1 ≠ 0 then pure (m w).1 else onWriter (cEncode refs type v) :
        EncoderM ω Int).run { e with writer := (m w).2 }) := by
    subst hw hm
    rfl
  rw [hrun]
  by_cases h : (m w).1 ≠ 0
  · rw [if_pos h, if_pos h]
    rfl
  · rw [if_neg h, if_neg h, ← cEncode_performs]
    rfl

theorem doEncode_forgets (s : Signature) (type : DataType) (v : Value) (e : Encoder ω) :
    (doEncodeOn writerInterface s type v).run e.bare =
      (((doEncode s type v).run e).1, ((doEncode s type v).run e).2.bare) := by
  rw [doEncodeOn_run]
  by_cases h0 : s.index = 0
  · rw [if_pos h0, doEncode_unset type v e h0]
  rw [if_neg h0]
  have hbare : e.bare.registered.get s.index = e.done .registered s.index := rfl
  rw [hbare]
  cases hreg : e.done .registered s.index with
  | false => rw [if_pos rfl, doEncode_refused type v h0 hreg]
  | true =>
      rw [if_neg (by decide), doEncode_run type v h0 hreg]
      have hstart : (writerInterface.start e.bare.writer).1 = ω.start e.writer.starts := rfl
      rw [hstart]
      by_cases h2 : ω.start e.writer.starts = -EALREADY
      · rw [if_pos h2, if_pos h2]
        rfl
      rw [if_neg h2, if_neg h2]
      by_cases h3 : ω.start e.writer.starts ≠ 0
      · rw [if_pos h3, if_pos h3]
        rfl
      rw [if_neg h3, if_neg h3, run_bind_ok (writeSample_performs ..)]
      rfl

/-- **The encoder of `Encoder` is the encoder over a `Writer`**, with a log. -/
theorem operation_forgets (op : Operation) (e : Encoder ω) :
    (op.runOn writerInterface).run e.bare = ((op.run.run e).1, (op.run.run e).2.bare) := by
  have hflat : ∀ (tag : Nat) (s : Signature) (index : Int),
      ∃ ws, flatWrites tag s index = .ok ws ∧
        Executes (writeDefinition tag index s s.size (writeFlatSignature s) : EncoderM ω Unit) ws :=
    fun tag s index => ⟨_, rfl, writeDefinition_executes _ _ _ _ (forM_writeRawByte_executes _)⟩
  cases op with
  | sampleRegister s => exact register_forgets (fun index => .inl (hflat _ s index)) _ e
  | refRegister s => exact register_forgets (fun index => .inl (hflat _ s index)) _ e
  | typeRegister s =>
      refine register_forgets (fun index => ?_) _ e
      by_cases hrefs : s.treedata.RefsSet
      · obtain ⟨ws, hws, hex⟩ := treeWrites_executes (ω := ω) s.treedata hrefs
        refine .inl ⟨definitionWrites LABCOMM_TYPE_DEF index s
          (wrap32 s.treedata.itemBytes.length) ws, ?_, ?_⟩
        · rw [typeWrites, calcSigEncodedSize_eq s hrefs, hws]
          rfl
        · refine Executes.ofExcept (calcSigEncodedSize_eq s hrefs) ?_
          refine writeDefinition_executes _ _ _ _ ?_
          obtain ⟨name, signature, index, treedata⟩ := s
          exact hex
      · refine .inr ⟨.signatureNotSet, ?_, fun e => ?_⟩
        · rw [typeWrites, calcSigEncodedSize_error s hrefs]
          rfl
        · rw [calcSigEncodedSize_error s hrefs]
          rfl
  | typeBind s hasDeps => exact doTypeBind_forgets s hasDeps e
  | encode s type v => exact doEncode_forgets s type v e

end LabComm.C
