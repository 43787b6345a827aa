import LabComm.C.DecoderRoom

set_option autoImplicit false

/-! # Who decodes the packets of the system

A packet whose tag is below the user indices is decoded by the library itself or, for a type
definition and a type binding, by the decoder and the handler that the tables give for the tag.
The tables are the same ones that definitions of the sender write to, under any index the sender
likes: a definition with the index of one of the two tags takes it over, if it matches a
registered sample type (`keepsSystem_iff`). Packets may be any bytes here.
-/

namespace LabComm.C

open Library

variable {φ : Host}

/-! ## Frames -/

/-- The tables that samples are looked up in are the same maps. -/
structure SameSamples (d d' : Decoder φ) : Prop where
  locals : ∀ i, d'.locals.get i = d.locals.get i
  remoteToLocal : ∀ i, d'.remoteToLocal.get i = d.remoteToLocal.get i

theorem SameSamples.refl (d : Decoder φ) : SameSamples d d := ⟨fun _ => rfl, fun _ => rfl⟩

theorem SameSamples.trans (d e f : Decoder φ) (h : SameSamples d e) (k : SameSamples e f) :
    SameSamples d f :=
  ⟨fun i => (k.locals i).trans (h.locals i),
    fun i => (k.remoteToLocal i).trans (h.remoteToLocal i)⟩

theorem SameTables.sameSamples {d d' : Decoder φ} (h : SameTables d d') : SameSamples d d' :=
  ⟨h.locals, h.remoteToLocal⟩

theorem SameSamples.found {d d' : Decoder φ} (h : SameSamples d d') (remoteIndex : Int) :
    d'.found remoteIndex = d.found remoteIndex := by
  simp only [Decoder.found, h.remoteToLocal, h.locals]

/-- Whether it returns or not, the program leaves the tables of samples alone. -/
abbrev KeepsSamples {α : Type} (m : DecoderM φ α) : Prop := Relates SameSamples m

theorem KeepsSamples.bind {α β : Type} {m : DecoderM φ α} {f : α → DecoderM φ β}
    (hm : KeepsSamples m) (hf : ∀ a, KeepsSamples (f a)) : KeepsSamples (m >>= f) :=
  Relates.bind SameSamples.trans hm hf

theorem KeepsTables.keepsSamples {α : Type} {m : DecoderM φ α} (h : KeepsTables m) :
    KeepsSamples m := Relates.mono (fun _ _ => SameTables.sameSamples) h

theorem get_keepsSamples : KeepsSamples (get : DecoderM φ (Decoder φ)) :=
  Relates.get SameSamples.refl

theorem liftM_keepsSamples {α : Type} (x : Except DecoderExit α) :
    KeepsSamples (liftM x : DecoderM φ α) := by
  cases x <;> exact SameSamples.refl

theorem freeSignatureName_keepsSamples (name : Option (List UInt8)) (result : Int) :
    KeepsSamples (freeSignatureName name result : DecoderM φ Int) := by
  unfold freeSignatureName
  split <;> exact SameSamples.refl

/-- The loop over the references touches no sample type. -/
theorem handleSampleRefFrom_keepsSamples (remoteIndex : Int) (name : Option (List UInt8))
    (bytes : List UInt8) (result : Int) (indices : List Int) :
    KeepsSamples (handleSampleRefFrom remoteIndex name bytes result indices :
      DecoderM φ Int) := by
  induction indices generalizing result with
  | nil => exact SameSamples.refl
  | cons i indices ih =>
      refine get_keepsSamples.bind fun d => ?_
      split
      · exact ih _
      · split
        · exact ih _
        · refine (liftM_keepsSamples _).bind fun same => ?_
          split
          · refine get_keepsSamples.bind fun d' =>
              KeepsSamples.bind (needEntry_keeps SameSamples.refl _ _ _) fun _ => ?_
            exact fun _ => ⟨fun _ => rfl, fun _ => rfl⟩
          · exact ih _

theorem decodeSampleRef_keepsSamples (uninit : Int) :
    KeepsSamples (decodeSampleDefOrRef uninit LABCOMM_SAMPLE_REF : DecoderM φ Int) := by
  refine (onReader_keepsTables _).keepsSamples.bind fun read => ?_
  cases read with
  | error e => exact freeSignatureName_keepsSamples _ _
  | ok read =>
      dsimp only
      rw [if_neg (by decide), if_pos rfl]
      exact (get_keepsSamples.bind fun d =>
        handleSampleRefFrom_keepsSamples _ _ _ _ _).bind
          fun _ => freeSignatureName_keepsSamples _ _

theorem decodeVersion_keepsSamples : KeepsSamples (decodeVersion : DecoderM φ Int) := by
  refine (onReader_keepsTables _).keepsSamples.bind fun version => ?_
  cases version with
  | error e => exact SameSamples.refl
  | ok version =>
      cases version with
      | none => exact SameSamples.refl
      | some version =>
          dsimp only
          split
          · exact fun _ => ⟨fun _ => rfl, fun _ => rfl⟩
          · exact SameSamples.refl

/-- Only a definition touches the tables of samples. -/
theorem decodeBody_keepsSamples {remoteIndex : Int} (h : remoteIndex ≠ LABCOMM_SAMPLE_DEF)
    (uninit length : Int) :
    KeepsSamples (decodeBody uninit remoteIndex length : DecoderM φ Int) := by
  unfold decodeBody
  split
  · exact decodeVersion_keepsSamples
  · refine get_keepsSamples.bind fun d => ?_
    repeat' split
    · exact SameSamples.refl
    · exact decodeSampleRef_keepsSamples uninit
    · exact (decodeTypePacket_keepsTables _ _).keepsSamples
    · exact (decodeTypePacket_keepsTables _ _).keepsSamples
    · exact (decodePragma_keepsTables _).keepsSamples
    · exact (onReader_keepsTables _).keepsSamples
    · exact (decodeAndHandle_keepsTables _).keepsSamples

/-! ## Any bytes -/

/-- What any bytes that are taken as a definition do to the tables: nothing, or they bind the
index that was read to a sample type that matches. -/
theorem decodeSampleDef_run (uninit : Int) {d : Decoder φ}
    (hroom : ∀ read, (readDefinition d.reader).1 = .ok read →
      (d.defMatch read.name read.signature).isSome →
        φ.HasEntry .remoteToLocal d.remoteToLocal read.remoteIndex) :
    (∃ k name signature i, (readDefinition d.reader).1 = .ok ⟨k, some name, signature⟩ ∧
      d.locals.indices.find? (d.matchesDef name signature) = some i ∧
      SameSamples (d.bindDef k i) ((decodeSampleDefOrRef uninit LABCOMM_SAMPLE_DEF).run d).2) ∨
    ((∀ k name signature, (readDefinition d.reader).1 = .ok ⟨k, some name, signature⟩ →
        d.locals.indices.find? (d.matchesDef name signature) = none) ∧
      SameSamples d ((decodeSampleDefOrRef uninit LABCOMM_SAMPLE_DEF).run d).2) := by
  have hread : (onReader readDefinition).run d =
      (.ok (readDefinition d.reader).1, d.withReader (readDefinition d.reader).2) := rfl
  rw [decodeSampleDefOrRef, run_bind_ok hread]
  generalize (readDefinition d.reader).2 = r
  have hreader : SameSamples d (d.withReader r) := ⟨fun _ => rfl, fun _ => rfl⟩
  cases hresult : (readDefinition d.reader).1 with
  | error e =>
      refine Or.inr ⟨by simp, ?_⟩
      exact hreader.trans _ _ _ (freeSignatureName_keepsSamples e.2 e.1 (d.withReader r))
  | ok read =>
      obtain ⟨k, name, signature⟩ := read
      dsimp only
      rw [if_pos rfl]
      cases name with
      | none =>
          -- a definition without a name matches nothing
          refine Or.inr ⟨by simp, ?_⟩
          have hloop := (handleSampleDef_run uninit ⟨k, none, signature⟩ (d.withReader r)).trans
            (handleSampleDefFrom_nameless k signature uninit _ _)
          split at hloop
          · rw [run_bind_error hloop]
            exact ⟨fun _ => rfl, fun _ => rfl⟩
          · rw [run_bind_ok hloop]
            exact hreader.trans _ _ _ (freeSignatureName_keepsSamples none _ _)
      | some name =>
          have hloop := (handleSampleDef_run uninit ⟨k, some name, signature⟩
            (d.withReader r)).trans (handleSampleDefFrom_named k name signature uninit _ _)
          rw [show (d.withReader r).matchesDef name signature = d.matchesDef name signature from
            rfl, show (d.withReader r).locals = d.locals from rfl] at hloop
          -- the loop binds the index to the first sample type that matches
          cases hfind : d.locals.indices.find? (d.matchesDef name signature) with
          | some i =>
              have hentry := hroom _ hresult (by simp [Decoder.defMatch, hfind])
              rw [hfind] at hloop
              replace hloop := hloop.trans (matchDef_room (d := d.withReader r) hentry i)
              rw [run_bind_ok hloop]
              refine Or.inl ⟨k, name, signature, i, rfl, hfind, ?_⟩
              have hbind : SameSamples (d.bindDef k i) ((d.withReader r).bindDef k i) :=
                ⟨fun _ => rfl, fun _ => rfl⟩
              exact hbind.trans _ _ _ (freeSignatureName_keepsSamples (some name) _ _)
          | none =>
              rw [hfind] at hloop
              rw [run_bind_ok hloop]
              refine Or.inr ⟨?_, hreader.trans _ _ _
                (freeSignatureName_keepsSamples (some name) _ _)⟩
              intro k' name' signature' heq
              cases heq
              exact hfind

/-- A type packet is given to the handler that the tables have for its tag. -/
theorem decodeTypePacket_calls {d : Decoder φ} {tag : Int} {decode : DecodeFunction}
    {handler : Handler} (hroom : d.CanLookUp tag) (h : d.found tag = some (decode, handler))
    (length : Int) :
    ∃ new, ((decodeTypePacket tag length).run d).2.calls = d.calls ++ new ∧
      ∀ call ∈ new, call.handler = handler := by
  obtain ⟨e, _, _, hcalls, hrest⟩ := decodeAndHandle_run hroom h
  obtain ⟨e', new, hrun, _, hnew, hall⟩ := decodeRun_callsOnly handler decode e
  have hskip : ∀ result : Int, ((if result = -ENOENT then onReader (readerSkip length tag)
      else pure result : DecoderM φ Int).run e').2.calls = e'.calls := by
    intro result
    split <;> rfl
  refine ⟨new, ?_, hall⟩
  rw [← hcalls, ← hnew, decodeTypePacket, run_bind_ok (hrest e' hrun)]
  exact hskip _

/-- Without one it is skipped. -/
theorem decodeTypePacket_skips {d : Decoder φ} {tag : Int} (hroom : d.CanLookUp tag)
    (h : d.found tag = none) (length : Int) :
    ((decodeTypePacket tag length).run d).1 = .ok (readerSkip length tag d.reader).1 ∧
      ((decodeTypePacket tag length).run d).2.reader = (readerSkip length tag d.reader).2 ∧
      ((decodeTypePacket tag length).run d).2.calls = d.calls := by
  obtain ⟨d', hrun, _, hreader, hcalls⟩ := decodeAndHandle_notFound hroom h
  rw [decodeTypePacket, run_bind_ok hrun, if_pos rfl, ← hreader, ← hcalls]
  exact ⟨rfl, rfl, rfl⟩

/-! ## The packets of the system -/

/-- The decoder of a tag that has one in the tables. -/
def systemDecoder (tag : Int) : Option DecodeFunction :=
  if tag = LABCOMM_TYPE_DEF then some .rawTypeDef
  else if tag = LABCOMM_TYPE_BINDING then some .typeBinding
  else none

/-- The decoder and the handler that are used for a packet of the system; for most of them no
table is looked at. -/
def Decoder.system (d : Decoder φ) (tag : Int) : Option (DecodeFunction × Handler) :=
  if (systemDecoder tag).isSome then d.found tag else none

/-- The handler an event registers for a tag. -/
def DecoderEvent.tagHandler (tag : Int) : DecoderEvent φ → Option Handler
  | registerTypeDef handler => if tag = LABCOMM_TYPE_DEF then some handler else none
  | registerTypeBinding handler => if tag = LABCOMM_TYPE_BINDING then some handler else none
  | _ => none

/-- The latest handler registered for a tag. -/
def tagHandler (tag : Int) (events : List (DecoderEvent φ)) : Option Handler :=
  events.foldl (fun old e => (e.tagHandler tag).or old) none

theorem tagHandler_concat (tag : Int) (events : List (DecoderEvent φ)) (e : DecoderEvent φ) :
    tagHandler tag (events ++ [e]) = (e.tagHandler tag).or (tagHandler tag events) := by
  rw [tagHandler, List.foldl_concat]
  rfl

/-- The packets of the system stay with their handlers. -/
structure DecoderStep.KeepsSystem (st : DecoderStep φ) : Prop where
  /-- Definitions and references change nothing for the tags of the system. -/
  definitions : ∀ p r uninit tag length, st.call = .receive p r uninit →
    (readHeader r).1 = .ok (tag, length) →
    tag = LABCOMM_SAMPLE_DEF ∨ tag = LABCOMM_SAMPLE_REF →
    ∀ t < (LABCOMM_USER : Int), st.after.system t = st.before.system t
  /-- A type packet is given to the handler registered for it, or to none. -/
  given : ∀ p r uninit tag length, st.call = .receive p r uninit →
    (readHeader r).1 = .ok (tag, length) → (systemDecoder tag).isSome = true →
    ∃ new, st.after.calls = st.before.calls ++ new ∧
      ∀ call ∈ new, tagHandler tag st.past = some call.handler
  /-- Without one it is skipped. -/
  skipped : ∀ p r uninit tag length, st.call = .receive p r uninit →
    (readHeader r).1 = .ok (tag, length) → (systemDecoder tag).isSome = true →
    st.before.versionOk = true → tagHandler tag st.past = none →
    st.result = .ok (readerSkip length tag (readHeader r).2).1 ∧
      st.after.reader = (readerSkip length tag (readHeader r).2).2

/-- A definition is received whose index is a tag of the system that has a decoder in the
tables, and it matches a registered sample type. -/
def DecoderStep.Hijacks (st : DecoderStep φ) : Prop :=
  ∃ p r uninit length k name signature i, st.call = .receive p r uninit ∧
    st.before.versionOk = true ∧ (readHeader r).1 = .ok ((LABCOMM_SAMPLE_DEF : Int), length) ∧
    (readDefinition (readHeader r).2).1 = .ok ⟨k, some name, signature⟩ ∧
    (systemDecoder k).isSome = true ∧ st.before.matchesDef name signature i = true

/-! ## The tables -/

/-- The tags of the system have entries of their own, with the handlers registered for them, and
the entries with signatures are those of sample types. -/
structure SystemInv (past : List (DecoderEvent φ)) (d : Decoder φ) : Prop where
  system : ∀ tag decode, systemDecoder tag = some decode →
    d.found tag = (tagHandler tag past).map fun handler => (decode, handler)
  remote : ∀ tag, (systemDecoder tag).isSome = true →
    d.remoteToLocal.get tag = 0 ∨ d.remoteToLocal.get tag = tag
  samples : ∀ i s, (d.locals.get i).signature = some s →
    LABCOMM_USER ≤ i ∧ ∃ type, (d.locals.get i).decode = some (.sample type)

section Inv

variable {past : List (DecoderEvent φ)} {d : Decoder φ}

theorem systemDecoder_lt {tag : Int} (h : (systemDecoder tag).isSome = true) :
    tag < LABCOMM_USER ∧ tag ≠ 0 := by
  unfold systemDecoder at h
  split at h
  · rename_i heq
    rw [heq]
    decide
  · split at h
    · rename_i heq
      rw [heq]
      decide
    · exact absurd h (by simp)

/-- The decoder of a system tag is not that of a sample type. -/
theorem systemDecoder_ne_sample {tag : Int} {type : DataType} :
    systemDecoder tag ≠ some (.sample type) := by
  unfold systemDecoder
  split
  · simp
  · split <;> simp

theorem SystemInv.sameSamples (h : SystemInv past d) {d' : Decoder φ} (hsame : SameSamples d d') :
    SystemInv past d' := by
  constructor
  · intro tag decode htag
    rw [hsame.found]
    exact h.system tag decode htag
  · intro tag htag
    rw [hsame.remoteToLocal]
    exact h.remote tag htag
  · intro i s hs
    rw [hsame.locals] at hs ⊢
    exact h.samples i s hs

/-- An event that registers no handler for a tag leaves the history alone. -/
theorem SystemInv.past_concat {e : DecoderEvent φ} (h : SystemInv past d)
    (he : ∀ tag, e.tagHandler tag = none) : SystemInv (past ++ [e]) d := by
  refine ⟨?_, h.remote, h.samples⟩
  intro tag decode htag
  rw [tagHandler_concat, he, Option.none_or]
  exact h.system tag decode htag

/-- A sample type is registered with an index above the tags. -/
theorem SystemInv.register (h : SystemInv past d) {s : Signature} (hs : s.HasIndex)
    (type : DataType) (handler : Handler) : SystemInv past (d.register s type handler) := by
  have hget : ∀ i, (d.register s type handler).locals.get i =
      if i = s.index then ⟨0, some s, some (.sample type), handler⟩ else d.locals.get i :=
    fun i => SigArray.get_set _ _ _ _
  constructor
  · intro tag decode htag
    have hlt := (systemDecoder_lt (by rw [htag]; rfl)).1
    have hindex := hs.1
    rw [← h.system tag decode htag, Decoder.found, Decoder.found,
      show (d.register s type handler).remoteToLocal = d.remoteToLocal from rfl]
    rcases h.remote tag (by rw [htag]; rfl) with h0 | h0
    · rw [h0, if_neg (not_not.mpr rfl), if_neg (not_not.mpr rfl)]
    · rw [h0, hget tag, if_neg (show ¬ tag = s.index by omega)]
  · exact h.remote
  · intro i s' hs'
    rw [hget] at hs' ⊢
    split at hs'
    · rename_i hi
      rw [if_pos hi, hi]
      exact ⟨hs.1, type, rfl⟩
    · rename_i hi
      rw [if_neg hi]
      exact h.samples i s' hs'

/-- A handler is registered for a tag. -/
theorem SystemInv.registerTag (h : SystemInv past d) {tag : Int} {decode : DecodeFunction}
    (htag : systemDecoder tag = some decode) (handler : Handler) {e : DecoderEvent φ}
    (he : ∀ t, e.tagHandler t = if t = tag then some handler else none) :
    SystemInv (past ++ [e]) (d.registerTag tag decode handler) := by
  have hget : ∀ i, (d.registerTag tag decode handler).locals.get i =
      if i = tag then ⟨tag, none, some decode, handler⟩ else d.locals.get i :=
    fun i => SigArray.get_set _ _ _ _
  have hremote : ∀ i, (d.registerTag tag decode handler).remoteToLocal.get i =
      if i = tag then tag else d.remoteToLocal.get i := fun i => SigArray.get_set _ _ _ _
  have hne := (systemDecoder_lt (by rw [htag]; rfl)).2
  constructor
  · intro t decode' ht
    rw [tagHandler_concat, he, Decoder.found]
    simp only [hremote]
    by_cases heq : t = tag
    · subst heq
      rw [htag, Option.some.injEq] at ht
      subst ht
      simp only [if_true]
      rw [if_pos hne, hget, if_pos rfl]
      rfl
    · -- another tag keeps its decoder, whether or not it had one
      simp only [if_neg heq, Option.none_or]
      rw [← h.system t decode' ht, Decoder.found]
      rcases h.remote t (by rw [ht]; rfl) with h0 | h0
      · rw [h0, if_neg (not_not.mpr rfl), if_neg (not_not.mpr rfl)]
      · rw [h0, hget, if_neg heq]
  · intro t ht
    rw [hremote]
    split
    · rename_i heq
      exact Or.inr heq.symm
    · exact h.remote t ht
  · intro i s hs
    rw [hget] at hs ⊢
    split at hs
    · exact absurd hs (by simp)
    · rename_i hi
      rw [if_neg hi]
      exact h.samples i s hs

/-- Where a definition that matches leads its index. -/
theorem bindDef_found (d : Decoder φ) (k i t : Int) :
    (d.bindDef k i).found t =
      if t = k then
        if i ≠ 0 then (d.locals.get i).decode.map fun decode => (decode, (d.locals.get i).handler)
        else none
      else d.found t := by
  have hentry : ∀ j, ((d.bindDef k i).locals.get j).decode = (d.locals.get j).decode ∧
      ((d.bindDef k i).locals.get j).handler = (d.locals.get j).handler := by
    intro j
    simp only [Decoder.bindDef, SigArray.get_set]
    split
    · rename_i hj
      rw [hj]
      exact ⟨rfl, rfl⟩
    · exact ⟨rfl, rfl⟩
  have hremote : (d.bindDef k i).remoteToLocal.get t =
      if t = k then i else d.remoteToLocal.get t := SigArray.get_set _ _ _ _
  rw [Decoder.found, Decoder.found, hremote]
  simp only [(hentry _).1, (hentry _).2]
  split <;> rfl

/-- A definition under an index of its own leaves the tags alone. -/
theorem SystemInv.bindDef (h : SystemInv past d) {k : Int}
    (hk : systemDecoder k = none) (i : Int) : SystemInv past (d.bindDef k i) := by
  have hne : ∀ tag, (systemDecoder tag).isSome = true → tag ≠ k := by
    rintro tag htag rfl
    rw [hk] at htag
    exact absurd htag (by simp)
  constructor
  · intro tag decode htag
    rw [bindDef_found, if_neg (hne tag (by rw [htag]; rfl))]
    exact h.system tag decode htag
  · intro tag htag
    show (d.remoteToLocal.set k i).get tag = 0 ∨ (d.remoteToLocal.set k i).get tag = tag
    rw [SigArray.get_set_ne _ (hne tag htag)]
    exact h.remote tag htag
  · intro j s hs
    simp only [Decoder.bindDef, SigArray.get_set] at hs ⊢
    split
    · rename_i hj
      rw [if_pos hj] at hs
      rw [hj]
      exact h.samples i s hs
    · rename_i hj
      rw [if_neg hj] at hs
      exact h.samples j s hs

end Inv

/-! ## Steps -/

/-- Received bytes change the tables of samples only as a definition that matches. -/
theorem receive_samples {p : Packet} {r : Reader φ} {uninit : Int} {d : Decoder φ}
    (hroom : d.Room (.receive p r uninit)) :
    (∃ length k name signature i, d.versionOk = true ∧
      (readHeader r).1 = .ok ((LABCOMM_SAMPLE_DEF : Int), length) ∧
      (readDefinition (readHeader r).2).1 = .ok ⟨k, some name, signature⟩ ∧
      d.matchesDef name signature i = true ∧
      SameSamples (d.bindDef k i) ((DecoderEvent.receive p r uninit).function.run d).2) ∨
    ((∀ length k name signature i, d.versionOk = true →
        (readHeader r).1 = .ok ((LABCOMM_SAMPLE_DEF : Int), length) →
        (readDefinition (readHeader r).2).1 = .ok ⟨k, some name, signature⟩ →
        d.matchesDef name signature i = false) ∧
      SameSamples d ((DecoderEvent.receive p r uninit).function.run d).2) := by
  have hrun : (DecoderEvent.receive p r uninit).function.run d =
      (doDecodeOne uninit).run (d.withReader r) := rfl
  rw [hrun, doDecodeOne_run, show (d.withReader r).reader = r from rfl]
  cases hheader : (readHeader r).1 with
  | error error => exact Or.inr ⟨by simp, fun _ => rfl, fun _ => rfl⟩
  | ok header =>
      obtain ⟨tag, length⟩ := header
      dsimp only
      generalize hr : (readHeader r).2 = r'
      have hreader : SameSamples d ((d.withReader r).withReader r') :=
        ⟨fun _ => rfl, fun _ => rfl⟩
      -- only a definition gets to the loop over the sample types
      by_cases htag : tag = LABCOMM_SAMPLE_DEF
      · subst htag
        cases hv : d.versionOk with
        | false =>
            rw [decodeBody_refused (d := (d.withReader r).withReader r') hv (by decide)]
            exact Or.inr ⟨by simp, hreader⟩
        | true =>
            rw [decodeBody_accepted (d := (d.withReader r).withReader r') hv (by decide),
              if_pos rfl]
            have hentry := (hroom hv _ _ hheader).sampleDef rfl
            rw [hr] at hentry
            rcases decodeSampleDef_run uninit (d := (d.withReader r).withReader r') hentry with
              ⟨k, name, signature, i, hread, hfind, hsame⟩ | ⟨hnone, hsame⟩
            · have hbind : SameSamples (d.bindDef k i)
                  (((d.withReader r).withReader r').bindDef k i) := ⟨fun _ => rfl, fun _ => rfl⟩
              exact Or.inl ⟨length, k, name, signature, i, rfl, rfl, hread,
                List.find?_some (p := d.matchesDef name signature) hfind,
                hbind.trans _ _ _ hsame⟩
            · refine Or.inr ⟨?_, hreader.trans _ _ _ hsame⟩
              intro _ k name signature i _ _ hread
              have hfind := hnone k name signature hread
              by_contra hmatch
              rw [Bool.not_eq_false] at hmatch
              have hfound := hmatch
              rw [Decoder.matchesDef, Option.any_eq_true] at hfound
              obtain ⟨s, hs, _⟩ := hfound
              exact List.find?_eq_none.mp hfind i (mem_indices_of_signature hs) hmatch
      · refine Or.inr ⟨?_, hreader.trans _ _ _ (decodeBody_keepsSamples htag _ _ _)⟩
        intro length' k name signature i _ hheader'
        rw [Except.ok.injEq, Prod.mk.injEq] at hheader'
        exact absurd hheader'.1 htag

/-- **A type packet is given to the handler registered for it**, or skipped. -/
theorem SystemInv.typePacket {past : List (DecoderEvent φ)} {d : Decoder φ}
    (h : SystemInv past d) {p : Packet} {r : Reader φ} {uninit : Int}
    (hroom : d.Room (.receive p r uninit)) {tag length : Int}
    (hheader : (readHeader r).1 = .ok (tag, length)) (htag : (systemDecoder tag).isSome = true) :
    (∃ new, ((DecoderEvent.receive p r uninit).function.run d).2.calls = d.calls ++ new ∧
      ∀ call ∈ new, tagHandler tag past = some call.handler) ∧
    (d.versionOk = true → tagHandler tag past = none →
      ((DecoderEvent.receive p r uninit).function.run d).1 =
          .ok (readerSkip length tag (readHeader r).2).1 ∧
        ((DecoderEvent.receive p r uninit).function.run d).2.reader =
          (readerSkip length tag (readHeader r).2).2) := by
  have hrun : (DecoderEvent.receive p r uninit).function.run d =
      (doDecodeOne uninit).run (d.withReader r) := rfl
  have hlook : LooksUp tag → d.versionOk = true → d.CanLookUp tag :=
    fun hlook hv => (hroom hv _ _ hheader).lookUp hlook
  rw [hrun, doDecodeOne_run, show (d.withReader r).reader = r from rfl, hheader]
  dsimp only
  generalize (readHeader r).2 = r'
  obtain ⟨decode, hdecode⟩ := Option.isSome_iff_exists.mp htag
  have htags : tag = LABCOMM_TYPE_DEF ∨ tag = LABCOMM_TYPE_BINDING := by
    unfold systemDecoder at hdecode
    split at hdecode
    · exact Or.inl ‹_›
    · split at hdecode
      · exact Or.inr ‹_›
      · exact absurd hdecode (by simp)
  have hversion : tag ≠ LABCOMM_VERSION := by
    rcases htags with rfl | rfl <;> decide
  cases hv : d.versionOk with
  | false =>
      rw [decodeBody_refused (d := (d.withReader r).withReader r') hv hversion]
      exact ⟨⟨[], (List.append_nil _).symm, by simp⟩, by simp⟩
  | true =>
      -- both tags come to the same branch
      have hbody : (decodeBody uninit tag length).run ((d.withReader r).withReader r') =
          (decodeTypePacket tag length).run ((d.withReader r).withReader r') := by
        rw [decodeBody_accepted (d := (d.withReader r).withReader r') hv hversion]
        rcases htags with rfl | rfl
        · rw [if_neg (by decide), if_neg (by decide), if_pos rfl]
        · rw [if_neg (by decide), if_neg (by decide), if_neg (by decide), if_pos rfl]
      have hsystem := h.system tag decode hdecode
      have hlookup : d.CanLookUp tag := hlook (htags.imp_right Or.inl) hv
      rw [hbody]
      cases hhandler : tagHandler tag past with
      | none =>
          rw [hhandler, Option.map_none] at hsystem
          obtain ⟨h1, h2, h3⟩ :=
            decodeTypePacket_skips (d := (d.withReader r).withReader r') hlookup hsystem length
          exact ⟨⟨[], by rw [h3]; exact (List.append_nil _).symm, by simp⟩,
            fun _ _ => ⟨h1, h2⟩⟩
      | some handler =>
          rw [hhandler, Option.map_some] at hsystem
          obtain ⟨new, hnew, hall⟩ :=
            decodeTypePacket_calls (d := (d.withReader r).withReader r') hlookup hsystem length
          exact ⟨⟨new, hnew, fun call hcall => by rw [hall call hcall]⟩, by simp⟩

/-- **A step that does not take a tag over leaves the system as it is.** -/
theorem SystemInv.step {st : DecoderStep φ} (hran : st.Ran DecoderEvent.function)
    (hreg : ∀ s, st.call.Registers s → s.HasIndex) (hroom : st.before.Room st.call)
    (hnot : ¬ st.Hijacks) (h : SystemInv st.past st.before) :
    SystemInv (st.past ++ [st.call]) st.after ∧ st.KeepsSystem := by
  obtain ⟨past, d, call, result, after⟩ := st
  dsimp only [Step.Ran] at *
  have htype : ∀ p r uninit tag length, call = .receive p r uninit →
      (readHeader r).1 = .ok (tag, length) → (systemDecoder tag).isSome = true →
      (∃ new, after.calls = d.calls ++ new ∧
        ∀ call ∈ new, tagHandler tag past = some call.handler) ∧
      (d.versionOk = true → tagHandler tag past = none →
        result = .ok (readerSkip length tag (readHeader r).2).1 ∧
          after.reader = (readerSkip length tag (readHeader r).2).2) := by
    rintro p r uninit tag length rfl hheader htag
    have key := h.typePacket hroom hheader htag
    rwa [hran] at key
  -- the calls of the handlers are those of the lookup, whatever the packet
  suffices hinv : SystemInv (past ++ [call]) after ∧ ∀ p r uninit tag length,
      call = .receive p r uninit → (readHeader r).1 = .ok (tag, length) →
      tag = LABCOMM_SAMPLE_DEF ∨ tag = LABCOMM_SAMPLE_REF →
      ∀ t < (LABCOMM_USER : Int), after.system t = d.system t from
    ⟨hinv.1, hinv.2, fun p r u t l hc hh ht => (htype p r u t l hc hh ht).1,
      fun p r u t l hc hh ht => (htype p r u t l hc hh ht).2⟩
  cases call with
  | registerSample s type handler =>
      cases hran.symm.trans (doRegisterSample_run (hreg s rfl) type handler hroom)
      exact ⟨(h.register (hreg s rfl) type handler).past_concat fun _ => rfl,
        fun _ _ _ _ _ hcall => by cases hcall⟩
  | registerTypeDef handler =>
      cases hran.symm.trans (registerTag_run _ handler hroom)
      exact ⟨h.registerTag rfl handler fun _ => rfl, fun _ _ _ _ _ hcall => by cases hcall⟩
  | registerTypeBinding handler =>
      cases hran.symm.trans (registerTag_run _ handler hroom)
      exact ⟨h.registerTag rfl handler fun _ => rfl, fun _ _ _ _ _ hcall => by cases hcall⟩
  | registerRef s =>
      cases hran.symm.trans (doRefRegisterDecoder_run (hreg s rfl) hroom)
      refine ⟨SystemInv.past_concat ?_ fun _ => rfl, fun _ _ _ _ _ hcall => by cases hcall⟩
      unfold Decoder.registerRef
      split
      · exact h
      · exact h.sameSamples ⟨fun _ => rfl, fun _ => rfl⟩
  | receive p r uninit =>
      have hcases := receive_samples hroom
      rw [hran] at hcases
      rcases hcases with ⟨length, k, name, signature, i, hv, hheader, hread, hmatch, hsame⟩ |
        ⟨_, hsame⟩
      · have hk : systemDecoder k = none := by
          by_contra hk
          exact hnot ⟨p, r, uninit, length, k, name, signature, i, rfl, hv, hheader, hread,
            Option.isSome_iff_ne_none.mpr hk, hmatch⟩
        refine ⟨((h.bindDef hk i).sameSamples hsame).past_concat fun _ => rfl, ?_⟩
        intro _ _ _ _ _ _ _ _ t _
        unfold Decoder.system
        split
        · rename_i ht
          have hne : t ≠ k := by
            rintro rfl
            rw [hk] at ht
            exact absurd ht (by simp)
          rw [hsame.found, bindDef_found, if_neg hne]
        · rfl
      · refine ⟨(h.sameSamples hsame).past_concat fun _ => rfl, ?_⟩
        intro _ _ _ _ _ _ _ _ t _
        unfold Decoder.system
        rw [hsame.found]

/-- **A step that takes a tag over gives its packets to a sample type.** -/
theorem SystemInv.not_keepsSystem {st : DecoderStep φ} (hran : st.Ran DecoderEvent.function)
    (hroom : st.before.Room st.call) (h : SystemInv st.past st.before) (hhijacks : st.Hijacks) : ¬ st.KeepsSystem := by
  obtain ⟨past, d, call, result, after⟩ := st
  obtain ⟨p, r, uninit, length, k, name, signature, i, rfl, hv, hheader, hread, hk, hmatch⟩ :=
    hhijacks
  dsimp only [Step.Ran] at *
  intro hkeeps
  have hcases := receive_samples hroom
  rw [hran] at hcases
  rcases hcases with ⟨_, k', name', signature', i', _, _, hread', hmatch', hsame⟩ | ⟨hnone, _⟩
  · cases hread.symm.trans hread'
    rw [Decoder.matchesDef, Option.any_eq_true] at hmatch'
    obtain ⟨s, hs, _⟩ := hmatch'
    obtain ⟨huser, type, htype⟩ := h.samples i' s hs
    have hlt : k < LABCOMM_USER := (systemDecoder_lt hk).1
    have hsystem := hkeeps.definitions p r uninit _ length rfl hheader (Or.inl rfl) k hlt
    obtain ⟨decode, hdecode⟩ := Option.isSome_iff_exists.mp hk
    have hne : i' ≠ 0 := by
      unfold LABCOMM_USER at huser
      omega
    -- the tag had its own decoder or none, and now has that of the sample type
    rw [Decoder.system, Decoder.system, if_pos hk, if_pos hk, hsame.found, bindDef_found,
      if_pos rfl, if_pos hne, htype, h.system k decode hdecode] at hsystem
    cases hhandler : tagHandler k past with
    | none =>
        rw [hhandler] at hsystem
        cases hsystem
    | some handler =>
        rw [hhandler] at hsystem
        simp only [Option.map_some, Option.some.injEq, Prod.mk.injEq] at hsystem
        rw [← hsystem.1] at hdecode
        exact systemDecoder_ne_sample hdecode
  · exact absurd hmatch (by rw [hnone length k name signature i hv hheader hread]; simp)

/-! ## Runs -/

theorem decoderNew_systemInv (r : Reader φ) : SystemInv [] (decoderNew r) := by
  constructor
  · intro tag decode _
    show (if (SigArray.init : SigArray Int).get tag ≠ 0 then _ else none) = _
    rw [SigArray.get_init]
    rfl
  · intro tag _
    left
    show (SigArray.init : SigArray Int).get tag = 0
    rw [SigArray.get_init]
    rfl
  · intro i s hs
    have hs' : ((SigArray.init : SigArray SampleEntry).get i).signature = some s := hs
    rw [SigArray.get_init] at hs'
    exact absurd hs' (by simp [default])

/-- **In a run of a new decoder on any bytes the packets of the system stay with their handlers
if and only if no definition with the tag of one of them matches a registered sample type.** -/
theorem keepsSystem_iff (r : Reader φ) (events : List (DecoderEvent φ))
    (hindex : ∀ s, Registered events s → s.HasIndex)
    (hroom : ∀ st ∈ decoderSteps r events, st.before.Room st.call) :
    (∀ st ∈ decoderSteps r events, st.KeepsSystem) ↔
      ∀ st ∈ decoderSteps r events, ¬ st.Hijacks := by
  have hreg : ∀ st ∈ decoderSteps r events, ∀ s, st.call.Registers s → s.HasIndex :=
    fun st hst s hs => hindex s ⟨st.call, call_mem_of_mem_trace hst, hs⟩
  constructor
  · intro hkeeps
    have hinv := trace_inv (I := SystemInv)
      (M := fun st => (∀ s, st.call.Registers s → s.HasIndex) ∧ st.before.Room st.call ∧
        DecoderStep.KeepsSystem st)
      (fun st _ hran _ hmeets h => (h.step hran hmeets.1 hmeets.2.1 fun hhijacks =>
        h.not_keepsSystem hran hmeets.2.1 hhijacks hmeets.2.2).1)
      (decoderNew_systemInv r) (fun st hst => ⟨hreg st hst, hroom st hst, hkeeps st hst⟩)
    intro st hst hhijacks
    exact (hinv st hst).not_keepsSystem (ran_of_mem_trace hst) (hroom st hst) hhijacks
      (hkeeps st hst)
  · intro hnot
    have hinv := trace_inv (I := SystemInv)
      (M := fun st => (∀ s, st.call.Registers s → s.HasIndex) ∧ st.before.Room st.call ∧
        ¬ DecoderStep.Hijacks st)
      (fun st _ hran _ hmeets h => (h.step hran hmeets.1 hmeets.2.1 hmeets.2.2).1)
      (decoderNew_systemInv r) (fun st hst => ⟨hreg st hst, hroom st hst, hnot st hst⟩)
    intro st hst
    exact ((hinv st hst).step (ran_of_mem_trace hst) (hreg st hst) (hroom st hst)
      (hnot st hst)).2

/-! ## A definition with the tag of type definitions -/

/-- What is read of a definition that arrives, whatever its index. -/
theorem arrives_definition {k : Nat} {intentions : List Intention} {signature : List UInt8}
    {r : Reader φ} (hk : k < 2 ^ 31) (hfew : intentions.length < 128)
    (hlen : (Packet.sampleDef k intentions signature).body.length < 2 ^ 31)
    (h : Arrives (.sampleDef k intentions signature) r) :
    (∃ length, (readHeader r).1 = .ok ((LABCOMM_SAMPLE_DEF : Int), length)) ∧
      (readDefinition (readHeader r).2).1 = .ok ⟨k, nameFrom none intentions, signature⟩ := by
  obtain ⟨h0, rest, hu⟩ := h
  rw [Packet.bytes, counted, ← List.append_assoc, List.append_assoc] at hu
  obtain ⟨hread, h0', hu'⟩ :=
    (readHeader_parses (by simp only [Packet.tag]; decide) hlen).reads r _ (not_not.mpr h0) hu
  have hfits := definitionFits hk hfew hlen
  obtain ⟨hread', _, _⟩ := (readDefinition_parses hfits).reads (readHeader r).2 rest h0' hu'
  exact ⟨⟨_, hread⟩, hread'⟩

/-- The definition of `intSignature` with index `k`. -/
def definitionAs (k : Nat) : Packet := .sampleDef k [nameIntention [97]] [0x23]

theorem definitionAs_read {k : Nat} (hk : k = LABCOMM_TYPE_DEF ∨ k = LABCOMM_USER) :
    (∃ length, (readHeader (readerOf (φ := φ) (definitionAs k))).1 =
        .ok ((LABCOMM_SAMPLE_DEF : Int), length)) ∧
      (readDefinition (readHeader (readerOf (φ := φ) (definitionAs k))).2).1 =
        .ok ⟨k, some [97], [0x23]⟩ := by
  have hfits : k < 2 ^ 31 ∧ (definitionAs k).body.length < 2 ^ 31 := by
    rcases hk with rfl | rfl
    · exact ⟨by decide, by decide⟩
    · exact ⟨by decide, by decide⟩
  exact arrives_definition hfits.1 (by simp) hfits.2 (readerOf_arrives _)

/-- A handler for type definitions and a sample type are registered, and a definition of the type
with index `k` arrives. -/
def definitionEvents (k : Nat) : List (DecoderEvent φ) :=
  [.registerTypeDef ⟨2, 0⟩, .registerSample intSignature (.prim .int) ⟨1, 0⟩,
    arrival currentVersion, arrival (definitionAs k)]

theorem intSignature_hasIndex : intSignature.HasIndex := ⟨by decide, by decide⟩

theorem definitionEvents_room {k : Nat} (hk : k = LABCOMM_TYPE_DEF ∨ k = LABCOMM_USER) :
    ∀ st ∈ decoderSteps (readerOf (φ := endOfFile) currentVersion) (definitionEvents k),
      st.before.Room st.call := by
  have hfits : k < 128 ∧ (definitionAs k).body.length < 2 ^ 31 := by
    rcases hk with rfl | rfl
    · exact ⟨by decide, by decide⟩
    · exact ⟨by decide, by decide⟩
  refine decoderSteps_room endOfFile_ample _ fun e he => ?_
  simp only [definitionEvents, List.mem_cons, List.not_mem_nil, or_false] at he
  rcases he with rfl | rfl | rfl | rfl
  · trivial
  · exact ⟨intSignature_hasIndex, by decide⟩
  · exact arrival_below (by decide) trivial
  · exact arrival_below hfits.2 ⟨hfits.1, by decide⟩

theorem definitionEvents_hasIndex (k : Nat) (s : Signature)
    (h : Registered (definitionEvents (φ := φ) k) s) : s.HasIndex := by
  obtain ⟨e, he, hs⟩ := h
  simp only [definitionEvents, arrival, List.mem_cons, List.not_mem_nil, or_false] at he
  rcases he with rfl | rfl | rfl | rfl
  · exact hs.elim
  · cases hs
    exact intSignature_hasIndex
  · exact hs.elim
  · exact hs.elim

/-- With a user index it takes nothing over. -/
theorem keepsSystem_user :
    (decoderSteps (readerOf (φ := endOfFile) currentVersion)
      (definitionEvents LABCOMM_USER)).Forall DecoderStep.KeepsSystem := by
  refine List.forall_iff_forall_mem.mpr
    ((keepsSystem_iff _ _ (definitionEvents_hasIndex _)
      (definitionEvents_room (Or.inr rfl))).mpr ?_)
  rintro st hst ⟨p, r, uninit, length, k, name, signature, i, hcall, _, hheader, hread, hk, _⟩
  have hmem := call_mem_of_mem_trace hst
  rw [hcall] at hmem
  simp only [definitionEvents, arrival, List.mem_cons, List.not_mem_nil, or_false, false_or,
    DecoderEvent.receive.injEq, reduceCtorEq] at hmem
  rcases hmem with ⟨rfl, rfl, rfl⟩ | ⟨rfl, rfl, rfl⟩
  · obtain ⟨h0, rest, hu⟩ := readerOf_arrives (φ := endOfFile) currentVersion
    rw [Packet.bytes, counted, ← List.append_assoc, List.append_assoc] at hu
    obtain ⟨hversion, _, _⟩ := (readHeader_parses currentVersion_wellFormed.tag_lt
      currentVersion_wellFormed.length).reads _ _ (not_not.mpr h0) hu
    rw [hversion, Except.ok.injEq, Prod.mk.injEq] at hheader
    exact absurd hheader.1 (by decide)
  · rw [(definitionAs_read (Or.inr rfl)).2, Except.ok.injEq] at hread
    cases hread
    exact absurd hk (by decide)

/-- With the tag of type definitions it takes the tag over. -/
theorem not_keepsSystem_typeDef :
    ¬ ∀ st ∈ decoderSteps (readerOf (φ := endOfFile) currentVersion)
      (definitionEvents LABCOMM_TYPE_DEF), st.KeepsSystem := by
  intro hkeeps
  have hroom := definitionEvents_room (Or.inl rfl)
  have hnot := (keepsSystem_iff _ _ (definitionEvents_hasIndex _) hroom).mp hkeeps
  let d := (decoderNew (readerOf (φ := endOfFile) currentVersion)).registerTag
    LABCOMM_TYPE_DEF .rawTypeDef ⟨2, 0⟩
  let d' := d.register intSignature (.prim .int) ⟨1, 0⟩
  obtain ⟨result, e, hversion, hsame, _⟩ := receive_version currentVersion_wellFormed
    (readerOf_arrives (φ := endOfFile) currentVersion) 0 d'
  obtain ⟨⟨length, hheader⟩, hread⟩ :=
    definitionAs_read (φ := endOfFile) (k := LABCOMM_TYPE_DEF) (Or.inl rfl)
  have htypeDef : (DecoderEvent.registerTypeDef ⟨2, 0⟩).function.run
      (decoderNew (readerOf (φ := endOfFile) currentVersion)) = (.ok _, d) :=
    registerTag_run _ _ (hroom _ List.mem_cons_self)
  have hentry : endOfFile.HasEntry .locals d.locals intSignature.index :=
    hroom _ (mem_traceFrom_cons htypeDef List.mem_cons_self)
  have hsample : (DecoderEvent.registerSample intSignature (.prim .int) ⟨1, 0⟩).function.run d =
      (.ok _, d') := doRegisterSample_run intSignature_hasIndex _ _ hentry
  refine hnot ⟨[_, _, _], e, _, _, _⟩ (mem_traceFrom_cons htypeDef
    (mem_traceFrom_cons hsample (mem_traceFrom_cons hversion List.mem_cons_self))) ?_
  refine ⟨_, _, _, length, LABCOMM_TYPE_DEF, [97], [0x23], 0x40, rfl, ?_, hheader, hread, by decide,
    ?_⟩
  · rw [hsame.versionOk]
    rfl
  · rw [Decoder.matchesDef, hsame.locals]
    rfl

end LabComm.C
