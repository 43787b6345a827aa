import LabComm.C.Decoder
import LabComm.Library.Runs

set_option autoImplicit false

/-! # What one call of the decoder does

The parts of a packet are read as they were sent, the loops over the tables find the entry that
matches, and everything that is not a definition leaves the tables alone.
-/

namespace LabComm.C

open Library

variable {φ : Host}

/-! ## Frames -/

/-- The tables are the same maps and the version has been seen or not. -/
structure SameTables (d d' : Decoder φ) : Prop where
  versionOk : d'.versionOk = d.versionOk
  locals : ∀ i, d'.locals.get i = d.locals.get i
  remoteToLocal : ∀ i, d'.remoteToLocal.get i = d.remoteToLocal.get i
  localRef : ∀ i, d'.localRef.get i = d.localRef.get i
  remoteToLocalRef : ∀ i, d'.remoteToLocalRef.get i = d.remoteToLocalRef.get i

theorem SameTables.refl (d : Decoder φ) : SameTables d d :=
  ⟨rfl, fun _ => rfl, fun _ => rfl, fun _ => rfl, fun _ => rfl⟩

theorem SameTables.trans (d e f : Decoder φ) (h : SameTables d e) (k : SameTables e f) :
    SameTables d f :=
  ⟨k.versionOk.trans h.versionOk, fun i => (k.locals i).trans (h.locals i),
    fun i => (k.remoteToLocal i).trans (h.remoteToLocal i),
    fun i => (k.localRef i).trans (h.localRef i),
    fun i => (k.remoteToLocalRef i).trans (h.remoteToLocalRef i)⟩

/-- Whether it returns or not, the program leaves the tables alone. -/
abbrev KeepsTables {α : Type} (m : DecoderM φ α) : Prop := Relates SameTables m

theorem KeepsTables.pure {α : Type} (a : α) : KeepsTables (pure a : DecoderM φ α) :=
  Relates.pure SameTables.refl a

theorem KeepsTables.throw {α : Type} (x : DecoderExit) : KeepsTables (throw x : DecoderM φ α) :=
  Relates.throw SameTables.refl x

theorem KeepsTables.bind {α β : Type} {m : DecoderM φ α} {f : α → DecoderM φ β}
    (hm : KeepsTables m) (hf : ∀ a, KeepsTables (f a)) : KeepsTables (m >>= f) :=
  Relates.bind SameTables.trans hm hf

theorem onReader_keepsTables {α : Type} (m : StateM (Reader φ) α) : KeepsTables (onReader m) :=
  fun _ => ⟨rfl, fun _ => rfl, fun _ => rfl, fun _ => rfl, fun _ => rfl⟩

/-! ## Accesses -/

section Accesses

variable {α : Type} [Inhabited α] {table : DecoderTable} {t : SigArray α} {index : Int}

theorem needEntry_run (h : φ.HasEntry table t index) (d : Decoder φ) :
    (needEntry table t index).run d = (.ok (), d) := by
  rw [needEntry, if_pos h]
  rfl

theorem needEntry_lost (h : ¬ φ.HasEntry table t index) (d : Decoder φ) :
    (needEntry table t index).run d = (.error .lostTable, d) := by
  rw [needEntry, if_neg h]
  rfl

theorem needEntry_keeps {R : Decoder φ → Decoder φ → Prop} (hrefl : ∀ d, R d d)
    (table : DecoderTable) (t : SigArray α) (index : Int) :
    Relates R (needEntry table t index : DecoderM φ Unit) := by
  unfold needEntry
  split
  · exact Relates.pure hrefl ()
  · exact Relates.throw hrefl _

end Accesses

/-- There is an entry, or room for one, wherever `lookup_h` looks. -/
def Decoder.CanLookUp (d : Decoder φ) (remoteIndex : Int) : Prop :=
  φ.HasEntry .remoteToLocal d.remoteToLocal remoteIndex ∧
    (d.remoteToLocal.get remoteIndex ≠ 0 →
      φ.HasEntry .locals d.locals (d.remoteToLocal.get remoteIndex))

instance (d : Decoder φ) (remoteIndex : Int) : Decidable (d.CanLookUp remoteIndex) :=
  inferInstanceAs (Decidable (_ ∧ (_ → _)))

/-- What `lookup_h` finds for an index of the sender. -/
def Decoder.found (d : Decoder φ) (remoteIndex : Int) : Option (DecodeFunction × Handler) :=
  let localIndex := d.remoteToLocal.get remoteIndex
  if localIndex ≠ 0 then
    (d.locals.get localIndex).decode.map fun decode => (decode, (d.locals.get localIndex).handler)
  else
    none

/-- The end of `lookup_h`, with the first of the two tables grown. -/
theorem lookupH_grown {remoteIndex : Int} {d : Decoder φ}
    (h : φ.HasEntry .remoteToLocal d.remoteToLocal remoteIndex) :
    (lookupH remoteIndex).run d =
      (if d.remoteToLocal.get remoteIndex ≠ 0 then do
        needEntry .locals (← get).locals (d.remoteToLocal.get remoteIndex)
        modify fun d' => { d' with locals := d'.locals.ref (d.remoteToLocal.get remoteIndex) }
        let entry := (← get).locals.get (d.remoteToLocal.get remoteIndex)
        return (d.remoteToLocal.get remoteIndex,
          entry.decode.map fun decode => (decode, entry.handler))
      else
        return (d.remoteToLocal.get remoteIndex, none) : DecoderM φ _).run
          { d with remoteToLocal := d.remoteToLocal.ref remoteIndex } := by
  have hget : (get : DecoderM φ (Decoder φ)).run d = (.ok d, d) := rfl
  rw [lookupH, run_bind_ok hget, run_bind_ok (needEntry_run h d)]
  show ((if (d.remoteToLocal.ref remoteIndex).get remoteIndex ≠ 0 then _ else _ :
    DecoderM φ _).run _) = _
  rw [SigArray.get_ref]

/-- The tables after `lookup_h`, which makes room where it looks. -/
def Decoder.lookedUp (d : Decoder φ) (remoteIndex : Int) : Decoder φ :=
  let localIndex := d.remoteToLocal.get remoteIndex
  { d with
    remoteToLocal := d.remoteToLocal.ref remoteIndex
    locals := if localIndex ≠ 0 then d.locals.ref localIndex else d.locals }

theorem Decoder.lookedUp_sameTables (d : Decoder φ) (remoteIndex : Int) :
    SameTables d (d.lookedUp remoteIndex) := by
  refine ⟨rfl, fun i => ?_, fun i => SigArray.get_ref _ _ i, fun _ => rfl, fun _ => rfl⟩
  simp only [Decoder.lookedUp]
  split
  · exact SigArray.get_ref _ _ i
  · rfl

theorem lookupH_grows {remoteIndex : Int} {d : Decoder φ} (h : d.CanLookUp remoteIndex) :
    (lookupH remoteIndex).run d =
      (.ok (d.remoteToLocal.get remoteIndex, d.found remoteIndex), d.lookedUp remoteIndex) := by
  rw [lookupH_grown h.1]
  by_cases hzero : d.remoteToLocal.get remoteIndex = 0
  · rw [if_neg (not_not.mpr hzero), Decoder.found, Decoder.lookedUp]
    simp only [hzero, ne_eq, not_true_eq_false, if_false]
    rfl
  · have hget : (get : DecoderM φ (Decoder φ)).run
        { d with remoteToLocal := d.remoteToLocal.ref remoteIndex } =
          (.ok { d with remoteToLocal := d.remoteToLocal.ref remoteIndex }, _) := rfl
    rw [if_pos hzero, run_bind_ok hget, run_bind_ok (needEntry_run (h.2 hzero) _), Decoder.found,
      Decoder.lookedUp]
    simp only [ne_eq, hzero, not_false_eq_true, if_true]
    show (Except.ok (_, ((d.locals.ref (d.remoteToLocal.get remoteIndex)).get _).decode.map _),
      _) = _
    simp only [SigArray.get_ref]

/-- `lookup_h` may make room in the tables, and changes nothing in them. -/
theorem lookupH_run {remoteIndex : Int} {d : Decoder φ} (h : d.CanLookUp remoteIndex) :
    ∃ d', (lookupH remoteIndex).run d =
        (.ok (d.remoteToLocal.get remoteIndex, d.found remoteIndex), d') ∧
      SameTables d d' ∧ d'.reader = d.reader ∧ d'.calls = d.calls :=
  ⟨_, lookupH_grows h, d.lookedUp_sameTables remoteIndex, rfl, rfl⟩

/-- Without an entry the process is lost. -/
theorem lookupH_lost {remoteIndex : Int} {d : Decoder φ} (h : ¬ d.CanLookUp remoteIndex) :
    ∃ d', (lookupH remoteIndex).run d = (.error .lostTable, d') ∧ SameTables d d' ∧
      d'.reader = d.reader ∧ d'.calls = d.calls := by
  by_cases hremote : φ.HasEntry .remoteToLocal d.remoteToLocal remoteIndex
  · have hzero : d.remoteToLocal.get remoteIndex ≠ 0 := fun hzero => h ⟨hremote, absurd hzero⟩
    have hlocals : ¬ φ.HasEntry .locals d.locals (d.remoteToLocal.get remoteIndex) :=
      fun hlocals => h ⟨hremote, fun _ => hlocals⟩
    have hget : (get : DecoderM φ (Decoder φ)).run
        { d with remoteToLocal := d.remoteToLocal.ref remoteIndex } =
          (.ok { d with remoteToLocal := d.remoteToLocal.ref remoteIndex }, _) := rfl
    refine ⟨{ d with remoteToLocal := d.remoteToLocal.ref remoteIndex }, ?_,
      ⟨rfl, fun _ => rfl, fun i => SigArray.get_ref _ _ i, fun _ => rfl, fun _ => rfl⟩, rfl, rfl⟩
    rw [lookupH_grown hremote, if_pos hzero, run_bind_ok hget,
      run_bind_error (needEntry_lost hlocals _)]
  · have hget : (get : DecoderM φ (Decoder φ)).run d = (.ok d, d) := rfl
    refine ⟨d, ?_, SameTables.refl d, rfl, rfl⟩
    rw [lookupH, run_bind_ok hget, run_bind_error (needEntry_lost hremote d)]

theorem lookupH_keepsTables (remoteIndex : Int) :
    KeepsTables (lookupH remoteIndex : DecoderM φ _) := by
  intro d
  by_cases h : d.CanLookUp remoteIndex
  · obtain ⟨d', hrun, hsame, _⟩ := lookupH_run h
    rw [hrun]
    exact hsame
  · obtain ⟨d', hrun, hsame, _⟩ := lookupH_lost h
    rw [hrun]
    exact hsame

/-! ## Decode functions -/

/-- The decoder with another reader. -/
def Decoder.withReader (d : Decoder φ) (r : Reader φ) : Decoder φ := { d with reader := r }

theorem SameTables.withReader {d d' : Decoder φ} (h : SameTables d d') (r : Reader φ) :
    SameTables d (d'.withReader r) :=
  ⟨h.versionOk, h.locals, h.remoteToLocal, h.localRef, h.remoteToLocalRef⟩

theorem onReader_run {α : Type} (m : StateM (Reader φ) α) (d : Decoder φ) :
    (onReader m).run d = (.ok (m d.reader).1, d.withReader (m d.reader).2) := rfl

/-- The decoder after a call of a handler. -/
def Decoder.called (d : Decoder φ) (handler : Handler) (value : HandlerValue) : Decoder φ :=
  { d with calls := d.calls ++ [⟨handler, value⟩] }

theorem SameTables.called {d d' : Decoder φ} (h : SameTables d d') (handler : Handler)
    (value : HandlerValue) : SameTables d (d'.called handler value) :=
  ⟨h.versionOk, h.locals, h.remoteToLocal, h.localRef, h.remoteToLocalRef⟩

/-- A handler is called when the reader has no error, and not otherwise. -/
theorem callHandler_run (handler : Handler) (value : HandlerValue) (d : Decoder φ) :
    (callHandler handler value).run d =
      (.ok (), if d.reader.error = 0 then d.called handler value else d) := by
  show (Except.ok (), if d.reader.error ≥ 0 then _ else d) = _
  rcases d.reader.error_eq with h | h
  · rw [h, if_pos (by decide), if_pos rfl]
    rfl
  · have := φ.neg
    rw [h, if_neg (by omega), if_neg (by omega)]

/-- The program returns, leaves the tables alone and calls this handler or none. -/
def CallsOnly (handler : Handler) (m : DecoderM φ Unit) (d : Decoder φ) : Prop :=
  ∃ d' new, m.run d = (.ok (), d') ∧ SameTables d d' ∧ d'.calls = d.calls ++ new ∧
    ∀ call ∈ new, call.handler = handler

theorem callHandler_callsOnly (handler : Handler) (value : HandlerValue) (d : Decoder φ) :
    CallsOnly handler (callHandler handler value) d := by
  unfold CallsOnly
  rw [callHandler_run]
  split
  · exact ⟨_, [⟨handler, value⟩], rfl, (SameTables.refl d).called _ _, rfl, by simp⟩
  · exact ⟨_, [], rfl, SameTables.refl d, (List.append_nil _).symm, by simp⟩

theorem pure_callsOnly (handler : Handler) (d : Decoder φ) :
    CallsOnly handler (pure () : DecoderM φ Unit) d :=
  ⟨d, [], rfl, SameTables.refl d, (List.append_nil _).symm, by simp⟩

/-- What comes after something is read. -/
theorem onReader_callsOnly {α : Type} {handler : Handler} (m : StateM (Reader φ) α)
    {f : α → DecoderM φ Unit} (d : Decoder φ)
    (h : ∀ a r, CallsOnly handler (f a) (d.withReader r)) :
    CallsOnly handler (onReader m >>= f) d := by
  obtain ⟨d', new, hrun, hsame, hcalls, hall⟩ := h (m d.reader).1 (m d.reader).2
  refine ⟨d', new, ?_, ((SameTables.refl d).withReader _).trans _ _ _ hsame, hcalls, hall⟩
  rw [run_bind_ok (onReader_run m d), hrun]

/-- A decode function calls its own handler, or none. -/
theorem decodeRun_callsOnly (handler : Handler) (decode : DecodeFunction) (d : Decoder φ) :
    CallsOnly handler (decode.run handler) d := by
  cases decode with
  | sample type =>
      have hget : (get : DecoderM φ (Decoder φ)).run d = (.ok d, d) := rfl
      unfold CallsOnly
      rw [DecodeFunction.run, run_bind_ok hget]
      exact onReader_callsOnly _ d fun v r => callHandler_callsOnly handler _ _
  | rawTypeDef =>
      refine onReader_callsOnly _ d fun read r => ?_
      cases read with
      | error e => exact pure_callsOnly handler _
      | ok read => exact callHandler_callsOnly handler _ _
  | typeBinding =>
      refine onReader_callsOnly _ d fun ids r => ?_
      cases ids with
      | none => exact pure_callsOnly handler _
      | some ids => exact callHandler_callsOnly handler _ _

theorem decodeAndHandle_keepsTables (remoteIndex : Int) :
    KeepsTables (decodeAndHandle remoteIndex : DecoderM φ Int) := by
  refine (lookupH_keepsTables remoteIndex).bind fun found => ?_
  obtain ⟨localIndex, found⟩ := found
  cases found with
  | none => exact .pure _
  | some found =>
      have hdecode : KeepsTables (found.1.run found.2 : DecoderM φ Unit) := by
        intro d
        obtain ⟨d', new, hrun, hsame, _⟩ := decodeRun_callsOnly found.2 found.1 d
        rw [hrun]
        exact hsame
      exact hdecode.bind fun _ =>
        (Relates.get SameTables.refl).bind SameTables.trans fun d => KeepsTables.pure _

theorem decodeTypePacket_keepsTables (remoteIndex length : Int) :
    KeepsTables (decodeTypePacket remoteIndex length : DecoderM φ Int) := by
  refine (decodeAndHandle_keepsTables remoteIndex).bind fun result => ?_
  split
  · exact onReader_keepsTables _
  · exact .pure _

theorem decodePragma_keepsTables (length : Int) :
    KeepsTables (decodePragma length : DecoderM φ Int) := by
  refine (onReader_keepsTables _).bind fun result => ?_
  cases result with
  | none => exact .throw _
  | some result => exact .pure _

/-! ## Definitions -/

/-- The registered signature is the one that was received: the same bytes and the same name. -/
def SameSignature (s : Signature) (name bytes : List UInt8) : Prop :=
  s.bytes = bytes ∧ cString s.name = cString name

instance (s : Signature) (name bytes : List UInt8) : Decidable (SameSignature s name bytes) :=
  inferInstanceAs (Decidable (_ ∧ _))

theorem compareSignature_named (s : Signature) (name bytes : List UInt8) :
    compareSignature s (some name) bytes = .ok (decide (SameSignature s name bytes)) := by
  unfold compareSignature SameSignature
  by_cases hsize : s.size = bytes.length
  · rw [if_neg (not_not.mpr hsize)]
    refine congrArg Except.ok ?_
    rw [Bool.eq_iff_iff]
    simp only [Bool.and_eq_true, decide_eq_true_eq, and_comm]
    exact decide_eq_true_iff.symm
  · have hne : s.bytes ≠ bytes := by
      rintro rfl
      exact hsize rfl
    rw [if_pos hsize]
    simp [hne]

theorem compareSignature_nameless (s : Signature) (bytes : List UInt8) :
    compareSignature s none bytes =
      if s.bytes.length = bytes.length then .error .nullName else .ok false := by
  unfold compareSignature
  have hsize : s.size = bytes.length ↔ s.bytes.length = bytes.length := by
    unfold Signature.size
    omega
  by_cases h : s.bytes.length = bytes.length
  · rw [if_neg (not_not.mpr (hsize.mpr h)), if_pos h]
  · rw [if_pos (fun hs => h (hsize.mp hs)), if_neg h]

/-- The registered signature of local index `i` is the one that was received. -/
def Decoder.matchesDef (d : Decoder φ) (name bytes : List UInt8) (i : Int) : Bool :=
  (d.locals.get i).signature.any fun s => SameSignature s name bytes

/-- The same of the registered references, which have flat signatures. -/
def Decoder.matchesRef (d : Decoder φ) (name bytes : List UInt8) (i : Int) : Bool :=
  (d.localRef.get i).any fun s => s.signature.isSome && SameSignature s name bytes

theorem mem_indices_of_signature {d : Decoder φ} {s : Signature} {i : Int}
    (h : (d.locals.get i).signature = some s) : i ∈ d.locals.indices := by
  apply SigArray.mem_indices_of_ne
  intro hzero
  rw [hzero] at h
  exact absurd h (by simp [default])

/-- What a matching definition changes. -/
def Decoder.bindDef (d : Decoder φ) (remoteIndex i : Int) : Decoder φ :=
  { d with
    locals := d.locals.set i { d.locals.get i with remoteIndex := remoteIndex }
    remoteToLocal := d.remoteToLocal.set remoteIndex i }

/-- What a matching reference changes. -/
def Decoder.bindRef (d : Decoder φ) (remoteIndex i : Int) : Decoder φ :=
  { d with remoteToLocalRef := d.remoteToLocalRef.set remoteIndex i }

/-- How a definition that matches ends. -/
def Decoder.matchDef (d : Decoder φ) (remoteIndex i : Int) :
    Except DecoderExit Int × Decoder φ :=
  if φ.HasEntry .remoteToLocal d.remoteToLocal remoteIndex then
    (.ok remoteIndex, d.bindDef remoteIndex i)
  else (.error .lostTable, d)

/-- How a reference that matches ends. -/
def Decoder.matchRef (d : Decoder φ) (remoteIndex i : Int) :
    Except DecoderExit Int × Decoder φ :=
  if φ.HasEntry .remoteToLocalRef d.remoteToLocalRef remoteIndex then
    (.ok remoteIndex, d.bindRef remoteIndex i)
  else (.error .lostTable, d)

theorem matchDef_room {d : Decoder φ} {remoteIndex : Int}
    (h : φ.HasEntry .remoteToLocal d.remoteToLocal remoteIndex) (i : Int) :
    d.matchDef remoteIndex i = (.ok remoteIndex, d.bindDef remoteIndex i) := if_pos h

theorem matchRef_room {d : Decoder φ} {remoteIndex : Int}
    (h : φ.HasEntry .remoteToLocalRef d.remoteToLocalRef remoteIndex) (i : Int) :
    d.matchRef remoteIndex i = (.ok remoteIndex, d.bindRef remoteIndex i) := if_pos h

/-- A round of the loop over the sample types, once the entry is read. -/
theorem handleSampleDefFrom_run (remoteIndex : Int) (name : Option (List UInt8))
    (bytes : List UInt8) (result i : Int) (indices : List Int) (d : Decoder φ) :
    (handleSampleDefFrom remoteIndex name bytes result (i :: indices)).run d =
      (match (d.locals.get i).signature with
      | none => handleSampleDefFrom remoteIndex name bytes (-ENOENT) indices
      | some s => do
          if ← compareSignature s name bytes then
            needEntry .remoteToLocal (← get).remoteToLocal remoteIndex
            modify fun d' => { d' with
              locals := d'.locals.set i { d.locals.get i with remoteIndex := remoteIndex }
              remoteToLocal := d'.remoteToLocal.set remoteIndex i }
            return remoteIndex
          else
            handleSampleDefFrom remoteIndex name bytes (-ENOENT) indices : DecoderM φ Int).run d :=
  rfl

/-- A round of the loop over the references, once the entry is read. -/
theorem handleSampleRefFrom_run (remoteIndex : Int) (name : Option (List UInt8))
    (bytes : List UInt8) (result i : Int) (indices : List Int) (d : Decoder φ) :
    (handleSampleRefFrom remoteIndex name bytes result (i :: indices)).run d =
      (match d.localRef.get i with
      | none => handleSampleRefFrom remoteIndex name bytes (-ENOENT) indices
      | some s => do
          if s.signature.isNone then
            handleSampleRefFrom remoteIndex name bytes (-ENOENT) indices
          else if ← compareSignature s name bytes then
            needEntry .remoteToLocalRef (← get).remoteToLocalRef remoteIndex
            modify fun d' => { d' with
              remoteToLocalRef := d'.remoteToLocalRef.set remoteIndex i }
            return remoteIndex
          else
            handleSampleRefFrom remoteIndex name bytes (-ENOENT) indices : DecoderM φ Int).run d :=
  rfl

/-- One round of the loop over the sample types. -/
theorem handleSampleDefFrom_cons (remoteIndex : Int) (name bytes : List UInt8) (result i : Int)
    (indices : List Int) (d : Decoder φ) :
    (handleSampleDefFrom remoteIndex (some name) bytes result (i :: indices)).run d =
      if d.matchesDef name bytes i then d.matchDef remoteIndex i
      else (handleSampleDefFrom remoteIndex (some name) bytes (-ENOENT) indices).run d := by
  rw [Decoder.matchesDef]
  rw [handleSampleDefFrom_run]
  cases hs : (d.locals.get i).signature with
  | none => rfl
  | some s =>
      simp only [compareSignature_named, Option.any_some]
      by_cases hsame : SameSignature s name bytes
      · have hget : (get : DecoderM φ (Decoder φ)).run d = (.ok d, d) := rfl
        simp only [hsame, decide_true, if_true, Decoder.matchDef]
        by_cases hroom : φ.HasEntry .remoteToLocal d.remoteToLocal remoteIndex
        · have hneed := needEntry_run hroom d
          rw [if_pos hroom]
          exact (run_bind_ok hget).trans (run_bind_ok hneed)
        · rw [if_neg hroom]
          refine (run_bind_ok hget).trans ?_
          exact run_bind_error (m := needEntry .remoteToLocal _ _) (needEntry_lost hroom d)
      · simp only [hsame, decide_false]
        rfl

/-- **The loop binds the first sample type that matches.** -/
theorem handleSampleDefFrom_named (remoteIndex : Int) (name bytes : List UInt8) (result : Int)
    (indices : List Int) (d : Decoder φ) :
    (handleSampleDefFrom remoteIndex (some name) bytes result indices).run d =
      match indices.find? (d.matchesDef name bytes) with
      | some i => d.matchDef remoteIndex i
      | none => (.ok (if indices = [] then result else -ENOENT), d) := by
  induction indices generalizing result with
  | nil => rfl
  | cons i indices ih =>
      rw [handleSampleDefFrom_cons, List.find?_cons]
      cases hi : d.matchesDef name bytes i with
      | true => rfl
      | false =>
          rw [if_neg (by decide), ih]
          cases indices.find? (d.matchesDef name bytes) with
          | some j => rfl
          | none => simp

/-- Without a name the loop finds nothing, and crashes on a signature of the same size. -/
theorem handleSampleDefFrom_nameless (remoteIndex : Int) (bytes : List UInt8) (result : Int)
    (indices : List Int) (d : Decoder φ) :
    (handleSampleDefFrom remoteIndex none bytes result indices).run d =
      if indices.any fun i => (d.locals.get i).signature.any fun s =>
          s.bytes.length = bytes.length then (.error .nullName, d)
      else (.ok (if indices = [] then result else -ENOENT), d) := by
  induction indices generalizing result with
  | nil => rfl
  | cons i indices ih =>
      rw [List.any_cons]
      rw [handleSampleDefFrom_run]
      have htail := ih (-ENOENT)
      cases hs : (d.locals.get i).signature with
      | none =>
          simp only [Option.any_none, Bool.false_or, List.cons_ne_nil, if_false]
          rw [htail]
          simp
      | some s =>
          simp only [compareSignature_nameless, Option.any_some, List.cons_ne_nil, if_false]
          by_cases hsize : s.bytes.length = bytes.length
          · simp only [hsize, if_true, decide_true, Bool.true_or]
            rfl
          · simp only [hsize, if_false, decide_false, Bool.false_or]
            refine Eq.trans ?_ (htail.trans (by simp))
            rfl

/-- One round of the loop over the references. -/
theorem handleSampleRefFrom_cons (remoteIndex : Int) (name bytes : List UInt8) (result i : Int)
    (indices : List Int) (d : Decoder φ) :
    (handleSampleRefFrom remoteIndex (some name) bytes result (i :: indices)).run d =
      if d.matchesRef name bytes i then d.matchRef remoteIndex i
      else (handleSampleRefFrom remoteIndex (some name) bytes (-ENOENT) indices).run d := by
  rw [Decoder.matchesRef]
  rw [handleSampleRefFrom_run]
  cases hs : d.localRef.get i with
  | none => rfl
  | some s =>
      simp only [compareSignature_named, Option.any_some]
      by_cases hflat : s.signature.isNone = true
      · have hno : ¬ (s.signature.isSome && decide (SameSignature s name bytes)) = true := by
          simp [Option.isNone_iff_eq_none.mp hflat]
        rw [if_pos hflat]
        exact (if_neg hno).symm
      · have hsome : s.signature.isSome = true := by simpa [Option.isSome_iff_ne_none] using hflat
        rw [if_neg hflat]
        by_cases hsame : SameSignature s name bytes
        · have hget : (get : DecoderM φ (Decoder φ)).run d = (.ok d, d) := rfl
          refine Eq.trans ?_ (if_pos (by simp [hsome, hsame])).symm
          simp only [hsame, decide_true, Decoder.matchRef]
          by_cases hroom : φ.HasEntry .remoteToLocalRef d.remoteToLocalRef remoteIndex
          · have hneed := needEntry_run hroom d
            rw [if_pos hroom]
            exact (run_bind_ok hget).trans (run_bind_ok hneed)
          · rw [if_neg hroom]
            refine (run_bind_ok hget).trans ?_
            exact run_bind_error (m := needEntry .remoteToLocalRef _ _) (needEntry_lost hroom d)
        · refine Eq.trans ?_ (if_neg (by simp [hsame])).symm
          simp only [hsame, decide_false]
          rfl

/-- **The loop binds the first reference that matches.** -/
theorem handleSampleRefFrom_named (remoteIndex : Int) (name bytes : List UInt8) (result : Int)
    (indices : List Int) (d : Decoder φ) :
    (handleSampleRefFrom remoteIndex (some name) bytes result indices).run d =
      match indices.find? (d.matchesRef name bytes) with
      | some i => d.matchRef remoteIndex i
      | none => (.ok (if indices = [] then result else -ENOENT), d) := by
  induction indices generalizing result with
  | nil => rfl
  | cons i indices ih =>
      rw [handleSampleRefFrom_cons, List.find?_cons]
      cases hi : d.matchesRef name bytes i with
      | true => rfl
      | false =>
          rw [if_neg (by decide), ih]
          cases indices.find? (d.matchesRef name bytes) with
          | some j => rfl
          | none => simp

/-- Without a name the loop finds nothing, and crashes on a reference of the same size. -/
theorem handleSampleRefFrom_nameless_run (remoteIndex : Int) (bytes : List UInt8) (result : Int)
    (indices : List Int) (d : Decoder φ) :
    (handleSampleRefFrom remoteIndex none bytes result indices).run d =
      if indices.any fun i => (d.localRef.get i).any fun s =>
          s.signature.isSome && decide (s.bytes.length = bytes.length) then (.error .nullName, d)
      else (.ok (if indices = [] then result else -ENOENT), d) := by
  induction indices generalizing result with
  | nil => rfl
  | cons i indices ih =>
      rw [List.any_cons, if_neg (List.cons_ne_nil i indices)]
      have htail := ih (-ENOENT)
      rw [ite_self] at htail
      rw [handleSampleRefFrom_run]
      cases hs : d.localRef.get i with
      | none =>
          rw [Option.any_none, Bool.false_or]
          exact htail
      | some s =>
          rw [Option.any_some]
          dsimp only
          by_cases hflat : s.signature.isNone = true
          · rw [if_pos hflat, Option.isNone_iff_eq_none.mp hflat, Option.isSome_none,
              Bool.false_and, Bool.false_or]
            exact htail
          · have hsome : s.signature.isSome = true := by
              simpa [Option.isSome_iff_ne_none] using hflat
            rw [if_neg hflat, compareSignature_nameless, hsome, Bool.true_and]
            by_cases hsize : s.bytes.length = bytes.length
            · rw [if_pos hsize, decide_eq_true hsize, Bool.true_or, if_pos rfl]
              rfl
            · rw [if_neg hsize, decide_eq_false hsize, Bool.false_or]
              exact htail

/-- Without a name the loop finds nothing, unless a reference of the same size makes it crash. -/
theorem handleSampleRefFrom_nameless (remoteIndex : Int) (bytes : List UInt8) (result : Int)
    (indices : List Int) (d : Decoder φ)
    (h : ∀ i s, d.localRef.get i = some s → s.signature.isSome = true →
      s.bytes.length ≠ bytes.length) :
    (handleSampleRefFrom remoteIndex none bytes result indices).run d =
      (.ok (if indices = [] then result else -ENOENT), d) := by
  rw [handleSampleRefFrom_nameless_run, if_neg]
  simp only [List.any_eq_true, Option.any_eq_true, Bool.and_eq_true, decide_eq_true_eq,
    not_exists, not_and]
  exact fun i _ s hs hflat => h i s hs hflat

/-! ## Reading packets -/

/-- The tag and the length are kept in an `int`. -/
theorem readHeader_parses_ints {tag len : Nat} (htag : tag < 2 ^ 32) (hlen : len < 2 ^ 32) :
    Parses (readHeader (φ := φ)) (packed32 tag ++ packed32 len)
      (.ok (wrap32 tag, wrap32 len)) := by
  refine (readPacked32_parses htag).bind (checked_parses ?_) fun _ => checked_sticky _ _
  rw [← List.append_nil (packed32 len)]
  refine (readPacked32_parses hlen).bind (checked_parses ?_) fun _ => checked_sticky _ _
  exact Parses.pure _

theorem readHeader_parses_wrap {tag len : Nat} (htag : tag < 2 ^ 32) (hlen : len < 2 ^ 31) :
    Parses (readHeader (φ := φ)) (packed32 tag ++ packed32 len)
      (.ok (wrap32 tag, (len : Int))) := by
  have hread := readHeader_parses_ints (φ := φ) htag (show len < 2 ^ 32 by omega)
  rwa [wrap32_natCast hlen] at hread

theorem readHeader_parses {tag len : Nat} (htag : tag < 2 ^ 31) (hlen : len < 2 ^ 31) :
    Parses (readHeader (φ := φ)) (packed32 tag ++ packed32 len) (.ok ((tag : Int), (len : Int))) := by
  have hread := readHeader_parses_wrap (φ := φ) (show tag < 2 ^ 32 by omega) hlen
  rwa [wrap32_natCast htag] at hread

theorem readHeader_reports : Reports (readHeader (φ := φ)) fun a => a = .error φ.code :=
  reports_bind fun _ => checked_reports (reports_bind fun _ =>
    checked_reports (reportsFrom_pure _ _) rfl).reportsFrom rfl

theorem readVersion_parses {s : List UInt8} (h : s.length + 1 < 2 ^ 31) :
    Parses (readVersion (φ := φ)) (counted s) (.ok (some s)) := by
  rw [counted, ← List.append_nil (packed32 s.length ++ s)]
  exact (readString_parses h).bind (checked_parses (Parses.pure _)) fun _ => checked_sticky _ _

theorem readVersion_reports : Reports (readVersion (φ := φ)) fun a => a = .error φ.code :=
  reports_bind fun _ => checked_reports (reportsFrom_pure _ _) rfl

theorem readTypeBinding_parses_wrap {sindex tindex : Nat} (hs : sindex < 2 ^ 32)
    (ht : tindex < 2 ^ 32) :
    Parses (readTypeBinding (φ := φ)) (packed32 sindex ++ packed32 tindex)
      (some (wrap32 sindex, wrap32 tindex)) := by
  refine (readPacked32_parses hs).bind (checked_parses ?_) fun _ => checked_sticky _ _
  rw [← List.append_nil (packed32 tindex)]
  refine (readPacked32_parses ht).bind (checked_parses ?_) fun _ => checked_sticky _ _
  exact Parses.pure _

theorem readTypeBinding_reports : Reports (readTypeBinding (φ := φ)) fun a => a = none :=
  reports_bind fun _ => checked_reports (reports_bind fun _ =>
    checked_reports (reportsFrom_pure _ _) rfl).reportsFrom rfl

theorem readPragma_parses {type data : List UInt8} (h0 : (0 : UInt8) ∉ type)
    (hlen : (counted type ++ data).length < 2 ^ 31) :
    Parses (readPragma (φ := φ) (counted type ++ data).length) (counted type ++ data)
      (some LABCOMM_PRAGMA) := by
  have hsum : (counted type ++ data).length = (counted type).length + data.length :=
    List.length_append
  have htype : type.length + 1 < 2 ^ 31 := by
    have := length_lt_counted type
    omega
  have hsize : sizeString type = (counted type).length := by
    rw [sizeString, strlen_of_not_mem h0, wrap32_natCast (by omega), toUnsigned_natCast (by omega),
      sizePacked32_eq, counted_length, ← Nat.cast_add]
    exact wrap32_natCast (by rw [← counted_length]; omega)
  refine (readString_parses htype).bind (checked_parses ?_) fun _ => checked_sticky _ _
  refine (readerSkip_parses _ data ?_).map some
  rw [hsize, hsum, Nat.cast_add, add_sub_cancel_left]
  exact wrap32_natCast (by omega)

theorem readPragma_reports (len : Int) :
    Reports (readPragma (φ := φ) len) fun a => a = some φ.code := by
  refine reports_bind fun type => checked_reports ?_ rfl
  cases type with
  | none => exact reportsFrom_pure _ _
  | some type => exact reportsFrom_map (skipBytes_reports _ _) fun _ => congrArg some

/-- Reading what was sent. -/
theorem onReader_reads {α : Type} {m : StateM (Reader φ) α} {bs : List UInt8} {a : α}
    (h : Parses m bs a) {d : Decoder φ} {rest : List UInt8} (h0 : d.reader.error = 0)
    (hu : d.reader.unread = bs ++ rest) :
    ∃ r, (onReader m).run d = (.ok a, d.withReader r) ∧ r.error = 0 ∧ r.unread = rest := by
  obtain ⟨h1, h2, h3⟩ := h.reads d.reader rest (not_not.mpr h0) hu
  refine ⟨(m d.reader).2, ?_, not_not.mp h2, h3⟩
  rw [← h1]
  rfl

/-- Reading where the input stops. -/
theorem onReader_starves {α : Type} {m : StateM (Reader φ) α} {bs : List UInt8}
    (h : Starves m bs) {d : Decoder φ} {tail : List UInt8} (h0 : d.reader.error = 0)
    (ht : tail ≠ []) (hu : bs = d.reader.unread ++ tail) :
    ∃ r b, (onReader m).run d = (.ok b, d.withReader r) ∧ r.error = φ.code ∧
      ∀ P : α → Prop, ReportsFrom m P → P b := by
  have hfail : (m d.reader).2.error ≠ 0 := h d.reader tail (not_not.mpr h0) ht hu
  exact ⟨(m d.reader).2, (m d.reader).1, rfl, (m d.reader).2.error_eq.resolve_left hfail,
    fun P hP => hP d.reader h0 hfail⟩

theorem doDecodeOne_header_wrap (uninit : Int) {d : Decoder φ} {tag len : Nat} {q : List UInt8}
    (htag : tag < 2 ^ 32) (hlen : len < 2 ^ 31) (h0 : d.reader.error = 0)
    (hu : d.reader.unread = packed32 tag ++ packed32 len ++ q) :
    ∃ r : Reader φ, (doDecodeOne uninit).run d =
        (decodeBody uninit (wrap32 tag) len).run (d.withReader r) ∧ r.error = 0 ∧
      r.unread = q := by
  obtain ⟨r, hrun, hr, hq⟩ := onReader_reads (readHeader_parses_wrap htag hlen) h0 hu
  refine ⟨r, ?_, hr, hq⟩
  rw [doDecodeOne, run_bind_ok hrun]

/-- A packet whose header is there is decoded from its body on. -/
theorem doDecodeOne_header (uninit : Int) {d : Decoder φ} {tag len : Nat} {q : List UInt8}
    (htag : tag < 2 ^ 31) (hlen : len < 2 ^ 31) (h0 : d.reader.error = 0)
    (hu : d.reader.unread = packed32 tag ++ packed32 len ++ q) :
    ∃ r : Reader φ, (doDecodeOne uninit).run d =
        (decodeBody uninit tag len).run (d.withReader r) ∧ r.error = 0 ∧ r.unread = q := by
  have hrun := doDecodeOne_header_wrap uninit (show tag < 2 ^ 32 by omega) hlen h0 hu
  rwa [wrap32_natCast htag] at hrun

/-! ## Handlers -/

theorem SameTables.found {d d' : Decoder φ} (h : SameTables d d') (remoteIndex : Int) :
    d'.found remoteIndex = d.found remoteIndex := by
  simp only [Decoder.found, h.remoteToLocal, h.locals]

theorem SameTables.toRef {d d' : Decoder φ} (h : SameTables d d') : d'.toRef = d.toRef := by
  funext index
  simp only [Decoder.toRef, Decoder.indexToSampleRef, h.remoteToLocalRef, h.localRef]

/-- An index that leads to no decode function is answered by `-ENOENT`. -/
theorem decodeAndHandle_notFound {d : Decoder φ} {remoteIndex : Int}
    (hroom : d.CanLookUp remoteIndex) (h : d.found remoteIndex = none) :
    ∃ d', (decodeAndHandle remoteIndex).run d = (.ok (-ENOENT), d') ∧ SameTables d d' ∧
      d'.reader = d.reader ∧ d'.calls = d.calls := by
  obtain ⟨d', hrun, hsame, hreader, hcalls⟩ := lookupH_run hroom
  rw [h] at hrun
  refine ⟨d', ?_, hsame, hreader, hcalls⟩
  rw [decodeAndHandle, run_bind_ok hrun]
  rfl

/-- The end of `decode_and_handle`, for a decode function that was found. -/
theorem decodeAndHandle_run {d : Decoder φ} {remoteIndex : Int} {decode : DecodeFunction}
    {handler : Handler} (hroom : d.CanLookUp remoteIndex)
    (h : d.found remoteIndex = some (decode, handler)) :
    ∃ e : Decoder φ, SameTables d e ∧ e.reader = d.reader ∧ e.calls = d.calls ∧
      ∀ e', (decode.run handler).run e = (.ok (), e') →
        (decodeAndHandle remoteIndex).run d =
          (.ok (if e'.reader.error < 0 then e'.reader.error
            else d.remoteToLocal.get remoteIndex), e') := by
  obtain ⟨e, hrun, hsame, hreader, hcalls⟩ := lookupH_run hroom
  rw [h] at hrun
  refine ⟨e, hsame, hreader, hcalls, fun e' hdecode => ?_⟩
  rw [decodeAndHandle, run_bind_ok hrun]
  show (decode.run handler >>= fun _ => _ : DecoderM φ Int).run e = _
  rw [run_bind_ok hdecode]
  rfl

/-- Without room in the tables `decode_and_handle` does not return. -/
theorem decodeAndHandle_lost {d : Decoder φ} {remoteIndex : Int}
    (hroom : ¬ d.CanLookUp remoteIndex) :
    ∃ d', (decodeAndHandle remoteIndex).run d = (.error .lostTable, d') ∧ SameTables d d' ∧
      d'.reader = d.reader ∧ d'.calls = d.calls := by
  obtain ⟨d', hrun, hsame, hreader, hcalls⟩ := lookupH_lost hroom
  exact ⟨d', run_bind_error hrun, hsame, hreader, hcalls⟩

/-- A decode function for samples reads one and passes it on. -/
theorem sampleRun_reads {R : Option Nat → Prop} {d : Decoder φ} {type : DataType}
    (handler : Handler) (refs : RefTables) {v : Value} (hv : WellTyped R type v)
    (hs : StringsFit type v) {rest : List UInt8} (h0 : d.reader.error = 0)
    (hu : d.reader.unread = wire refs type v ++ rest) :
    ∃ d', ((DecodeFunction.sample type).run handler).run d = (.ok (), d') ∧ SameTables d d' ∧
      d'.reader.error = 0 ∧ d'.reader.unread = rest ∧
      d'.calls = d.calls ++ [⟨handler, .sample (mapRefs (refs.seen d.toRef) type v)⟩] := by
  obtain ⟨r, hread, hr0, hru⟩ :=
    onReader_reads (cEmitDecoder_receives refs d.toRef type v hv hs) h0 hu
  have hcall := callHandler_run handler (.sample (mapRefs (refs.seen d.toRef) type v))
    (d.withReader r)
  rw [if_pos (show (d.withReader r).reader.error = 0 from hr0)] at hcall
  have hget : (get : DecoderM φ (Decoder φ)).run d = (.ok d, d) := rfl
  refine ⟨_, ?_, ((SameTables.refl d).withReader r).called _ _, hr0, hru, rfl⟩
  rw [DecodeFunction.run, run_bind_ok hget, run_bind_ok hread, hcall]

/-- **A sample of a registered type is handed to its handler**, with the value that was sent. -/
theorem decodeAndHandle_sample {R : Option Nat → Prop} {d : Decoder φ} {remoteIndex : Int}
    {type : DataType} {handler : Handler} (hroom : d.CanLookUp remoteIndex)
    (h : d.found remoteIndex = some (.sample type, handler)) (refs : RefTables) {v : Value}
    (hv : WellTyped R type v) (hs : StringsFit type v) {rest : List UInt8}
    (h0 : d.reader.error = 0) (hu : d.reader.unread = wire refs type v ++ rest) :
    ∃ d', (decodeAndHandle remoteIndex).run d =
        (.ok (d.remoteToLocal.get remoteIndex), d') ∧ SameTables d d' ∧
      d'.reader.error = 0 ∧ d'.reader.unread = rest ∧
      d'.calls = d.calls ++ [⟨handler, .sample (mapRefs (refs.seen d.toRef) type v)⟩] := by
  obtain ⟨e, hsame, hreader, hcalls, hrest⟩ := decodeAndHandle_run hroom h
  rw [← hreader] at h0 hu
  obtain ⟨e', hrun, hsame', hr0, hru, hcalls'⟩ := sampleRun_reads handler refs hv hs h0 hu
  refine ⟨e', ?_, hsame.trans _ _ _ hsame', hr0, hru, ?_⟩
  · rw [hrest e' hrun, hr0, if_neg (lt_irrefl 0)]
  · rw [hcalls', hcalls, hsame.toRef]

end LabComm.C
