import LabComm.C.DecoderRuns

set_option autoImplicit false

/-! # Room for indices below a bound

The tables of a decoder are as long as the indices they are used with are large. When all of
them, its own and those of the sender, are below a bound, and there is memory for tables of that
length, every access fits (`decoderSteps_room`).
-/

namespace LabComm.C

open Library

variable {φ : Host} {n : Nat}

/-! ## Tables -/

section Tables

variable {α : Type} [Inhabited α] {t : SigArray α} {index : Int}

/-- The indices of the entries are below `n`, and not negative. -/
def SigArray.Within (n : Nat) (t : SigArray α) : Prop := 0 ≤ t.first ∧ t.last ≤ n

omit [Inhabited α] in
theorem SigArray.init_within : (SigArray.init : SigArray α).Within n :=
  ⟨le_refl _, Int.natCast_nonneg n⟩

omit [Inhabited α] in
theorem SigArray.Within.indices (h : t.Within n) {i : Int} (hi : i ∈ t.indices) :
    0 ≤ i ∧ i < n := by
  obtain ⟨k, hk, rfl⟩ := List.mem_map.mp hi
  have hk := List.mem_range.mp hk
  have hsize := t.size
  obtain ⟨h0, h1⟩ := h
  omega

theorem SigArray.Within.ref (h : t.Within n) (h0 : 0 ≤ index) (h1 : index < n) :
    (t.ref index).Within n := by
  obtain ⟨hfirst, hlast⟩ := h
  rw [SigArray.ref]
  split
  · exact ⟨h0, h1⟩
  · split
    · constructor <;> dsimp only <;> split <;> omega
    · exact ⟨hfirst, hlast⟩

theorem SigArray.Within.set (h : t.Within n) (h0 : 0 ≤ index) (h1 : index < n) (x : α) :
    (t.set index x).Within n := h.ref h0 h1

end Tables

/-- Tables of `n` entries can be had, and those of the tags are among them. -/
structure Host.Ample (φ : Host) (n : Nat) : Prop where
  tags : LABCOMM_TYPE_BINDING < n
  bytes : ∀ table, n * φ.sizeof table < 2 ^ 31
  memory : ∀ table bytes, bytes ≤ n * φ.sizeof table → φ.memory table bytes = true

theorem Host.Ample.lt (hφ : φ.Ample n) : n < 2 ^ 31 := by
  have := hφ.bytes .remoteToLocal
  simp only [Host.sizeof] at this
  omega

theorem Host.Ample.hasEntry (hφ : φ.Ample n) {α : Type} [Inhabited α] {t : SigArray α}
    (h : t.Within n) {index : Int} (h0 : 0 ≤ index) (h1 : index < n) (table : DecoderTable) :
    φ.HasEntry table t index := by
  obtain ⟨hfirst, hlast⟩ := h.ref h0 h1
  have hlt := hφ.lt
  have hbytes : (t.ref index).bytes (φ.sizeof table) ≤ (n * φ.sizeof table : Nat) := by
    rw [SigArray.bytes, Nat.cast_mul]
    exact mul_le_mul_of_nonneg_right (by omega) (Int.natCast_nonneg _)
  refine ⟨by omega, lt_of_le_of_lt hbytes (by exact_mod_cast hφ.bytes table), fun _ => ?_⟩
  exact hφ.memory table _ (by omega)

/-! ## Decoders -/

/-- The tables are within the bound, and lead to indices within it. -/
structure Decoder.Within (n : Nat) (d : Decoder φ) : Prop where
  locals : d.locals.Within n
  remoteToLocal : d.remoteToLocal.Within n
  localRef : d.localRef.Within n
  remoteToLocalRef : d.remoteToLocalRef.Within n
  leads : ∀ i, 0 ≤ d.remoteToLocal.get i ∧ d.remoteToLocal.get i < n

section Within

variable {d : Decoder φ}

theorem decoderNew_within (hn : 0 < n) (r : Reader φ) : (decoderNew r).Within n := by
  refine ⟨SigArray.init_within, SigArray.init_within, SigArray.init_within,
    SigArray.init_within, fun i => ?_⟩
  rw [show (decoderNew r).remoteToLocal.get i = 0 from SigArray.get_init i]
  omega

theorem Decoder.Within.canLookUp (hφ : φ.Ample n) (h : d.Within n) {remoteIndex : Int}
    (h0 : 0 ≤ remoteIndex) (h1 : remoteIndex < n) : d.CanLookUp remoteIndex :=
  ⟨hφ.hasEntry h.remoteToLocal h0 h1 _, fun _ =>
    hφ.hasEntry h.locals (h.leads remoteIndex).1 (h.leads remoteIndex).2 _⟩

theorem Decoder.Within.setRemote (h : d.Within n) {k i : Int} (k0 : 0 ≤ k) (k1 : k < n)
    (i0 : 0 ≤ i) (i1 : i < n) (x : SampleEntry) :
    ({ d with
      locals := d.locals.set i x
      remoteToLocal := d.remoteToLocal.set k i } : Decoder φ).Within n := by
  refine ⟨h.locals.set i0 i1 x, h.remoteToLocal.set k0 k1 i, h.localRef, h.remoteToLocalRef,
    fun j => ?_⟩
  show 0 ≤ (d.remoteToLocal.set k i).get j ∧ (d.remoteToLocal.set k i).get j < n
  rw [SigArray.get_set]
  split
  · exact ⟨i0, i1⟩
  · exact h.leads j

theorem Decoder.Within.lookedUp (h : d.Within n) {remoteIndex : Int} (h0 : 0 ≤ remoteIndex)
    (h1 : remoteIndex < n) : (d.lookedUp remoteIndex).Within n := by
  have hleads := h.leads remoteIndex
  refine ⟨?_, h.remoteToLocal.ref h0 h1, h.localRef, h.remoteToLocalRef, fun i => ?_⟩
  · show (if d.remoteToLocal.get remoteIndex ≠ 0 then _ else d.locals : SigArray _).Within n
    split
    · exact h.locals.ref hleads.1 hleads.2
    · exact h.locals
  · rw [(d.lookedUp_sameTables remoteIndex).remoteToLocal]
    exact h.leads i

end Within

theorem Decoder.Within.withReader {d : Decoder φ} (h : d.Within n) (r : Reader φ) :
    (d.withReader r).Within n :=
  ⟨h.locals, h.remoteToLocal, h.localRef, h.remoteToLocalRef, h.leads⟩

/-! ## Programs -/

/-- Whether it returns or not, the program keeps the tables within the bound. -/
abbrev KeepsWithin {α : Type} (n : Nat) (m : DecoderM φ α) : Prop :=
  Relates (fun d d' : Decoder φ => d.Within n → d'.Within n) m

section Programs

variable {α β : Type}

theorem KeepsWithin.pure (a : α) : KeepsWithin n (pure a : DecoderM φ α) := fun _ h => h

theorem KeepsWithin.throw (x : DecoderExit) : KeepsWithin n (throw x : DecoderM φ α) :=
  fun _ h => h

theorem KeepsWithin.get : KeepsWithin n (get : DecoderM φ (Decoder φ)) := fun _ h => h

theorem KeepsWithin.bind {m : DecoderM φ α} {f : α → DecoderM φ β} (hm : KeepsWithin n m)
    (hf : ∀ a, KeepsWithin n (f a)) : KeepsWithin n (m >>= f) :=
  Relates.bind (fun _ _ _ h k hd => k (h hd)) hm hf

theorem onReader_keepsWithin (m : StateM (Reader φ) α) : KeepsWithin n (onReader m) :=
  fun _ h => ⟨h.locals, h.remoteToLocal, h.localRef, h.remoteToLocalRef, h.leads⟩

theorem liftM_keepsWithin (x : Except DecoderExit α) :
    KeepsWithin n (liftM x : DecoderM φ α) := by
  cases x <;> exact fun _ h => h

theorem freeSignatureName_keepsWithin (name : Option (List UInt8)) (result : Int) :
    KeepsWithin n (freeSignatureName name result : DecoderM φ Int) := by
  unfold freeSignatureName
  split
  · exact .throw _
  · exact .pure _

theorem callHandler_keepsWithin (handler : Handler) (value : HandlerValue) :
    KeepsWithin n (callHandler handler value : DecoderM φ Unit) := by
  intro d h
  rw [callHandler_run]
  split
  · exact ⟨h.locals, h.remoteToLocal, h.localRef, h.remoteToLocalRef, h.leads⟩
  · exact h

theorem decodeRun_keepsWithin (handler : Handler) (decode : DecodeFunction) :
    KeepsWithin n (decode.run handler : DecoderM φ Unit) := by
  cases decode with
  | sample type =>
      exact KeepsWithin.get.bind fun d => (onReader_keepsWithin _).bind fun v =>
        callHandler_keepsWithin handler _
  | rawTypeDef =>
      refine (onReader_keepsWithin _).bind fun read => ?_
      cases read with
      | error e => exact .pure ()
      | ok read => exact callHandler_keepsWithin handler _
  | typeBinding =>
      refine (onReader_keepsWithin _).bind fun ids => ?_
      cases ids with
      | none => exact .pure ()
      | some ids => exact callHandler_keepsWithin handler _

/-- `decode_and_handle` makes room for the index at most. -/
theorem decodeAndHandle_keepsWithin (hφ : φ.Ample n) {remoteIndex : Int} (h0 : 0 ≤ remoteIndex)
    (h1 : remoteIndex < n) : KeepsWithin n (decodeAndHandle remoteIndex : DecoderM φ Int) := by
  intro d h
  rw [decodeAndHandle, run_bind_ok (lookupH_grows (h.canLookUp hφ h0 h1))]
  have hlooked := h.lookedUp h0 h1
  cases d.found remoteIndex with
  | none => exact hlooked
  | some found =>
      exact (decodeRun_keepsWithin found.2 found.1).bind
        (fun _ => KeepsWithin.get.bind fun _ => .pure _) _ hlooked

theorem decodeTypePacket_keepsWithin (hφ : φ.Ample n) {remoteIndex : Int} (h0 : 0 ≤ remoteIndex)
    (h1 : remoteIndex < n) (length : Int) :
    KeepsWithin n (decodeTypePacket remoteIndex length : DecoderM φ Int) := by
  refine (decodeAndHandle_keepsWithin hφ h0 h1).bind fun result => ?_
  split
  · exact onReader_keepsWithin _
  · exact .pure _

theorem decodePragma_keepsWithin (length : Int) :
    KeepsWithin n (decodePragma length : DecoderM φ Int) := by
  refine (onReader_keepsWithin _).bind fun result => ?_
  cases result with
  | none => exact .throw _
  | some result => exact .pure _

theorem decodeVersion_keepsWithin : KeepsWithin n (decodeVersion : DecoderM φ Int) := by
  refine (onReader_keepsWithin _).bind fun version => ?_
  cases version with
  | error error => exact .pure _
  | ok version =>
      cases version with
      | none => exact .throw _
      | some version =>
          dsimp only
          split
          · exact fun _ h => ⟨h.locals, h.remoteToLocal, h.localRef, h.remoteToLocalRef, h.leads⟩
          · exact .pure _

/-- The loop stores at the index that was read and at those it runs over. -/
theorem handleSampleDefFrom_keepsWithin {remoteIndex : Int} (h0 : 0 ≤ remoteIndex)
    (h1 : remoteIndex < n) (name : Option (List UInt8)) (bytes : List UInt8) (result : Int)
    {indices : List Int} (hindices : ∀ i ∈ indices, 0 ≤ i ∧ i < n) :
    KeepsWithin n (handleSampleDefFrom remoteIndex name bytes result indices :
      DecoderM φ Int) := by
  induction indices generalizing result with
  | nil => exact .pure _
  | cons i indices ih =>
      have ih := fun result => ih result fun j hj => hindices j (List.mem_cons_of_mem _ hj)
      obtain ⟨i0, i1⟩ := hindices i List.mem_cons_self
      refine KeepsWithin.get.bind fun d => ?_
      dsimp only
      split
      · exact ih _
      · refine (liftM_keepsWithin _).bind fun same => ?_
        split
        · refine KeepsWithin.get.bind fun d' => (needEntry_keeps (fun _ h => h) _ _ _).bind
            (fun _ _ _ h k hd => k (h hd)) fun _ => ?_
          exact KeepsWithin.bind (m := modify _) (fun d h => h.setRemote h0 h1 i0 i1 _)
            fun _ => .pure _
        · exact ih _

theorem handleSampleRefFrom_keepsWithin {remoteIndex : Int} (h0 : 0 ≤ remoteIndex)
    (h1 : remoteIndex < n) (name : Option (List UInt8)) (bytes : List UInt8) (result : Int)
    (indices : List Int) :
    KeepsWithin n (handleSampleRefFrom remoteIndex name bytes result indices :
      DecoderM φ Int) := by
  induction indices generalizing result with
  | nil => exact .pure _
  | cons i indices ih =>
      refine KeepsWithin.get.bind fun d => ?_
      split
      · exact ih _
      · split
        · exact ih _
        · refine (liftM_keepsWithin _).bind fun same => ?_
          split
          · refine KeepsWithin.get.bind fun d' => (needEntry_keeps (fun _ h => h) _ _ _).bind
              (fun _ _ _ h k hd => k (h hd)) fun _ => ?_
            exact KeepsWithin.bind (m := modify _) (fun d h => ⟨h.locals, h.remoteToLocal,
              h.localRef, h.remoteToLocalRef.set h0 h1 i, h.leads⟩) fun _ => .pure _
          · exact ih _

theorem handleSampleDef_keepsWithin (uninit : Int) {read : ReadDefinition}
    (h0 : 0 ≤ read.remoteIndex) (h1 : read.remoteIndex < n) :
    KeepsWithin n (handleSampleDef uninit read : DecoderM φ Int) := by
  intro d h
  rw [handleSampleDef_run]
  exact handleSampleDefFrom_keepsWithin h0 h1 _ _ _ (fun i hi => h.locals.indices hi) d h

theorem handleSampleRef_keepsWithin (uninit : Int) {read : ReadDefinition}
    (h0 : 0 ≤ read.remoteIndex) (h1 : read.remoteIndex < n) :
    KeepsWithin n (handleSampleRef uninit read : DecoderM φ Int) := by
  intro d h
  rw [handleSampleRef_run]
  exact handleSampleRefFrom_keepsWithin h0 h1 _ _ _ _ d h

/-- The body of a packet that is not a definition. -/
theorem decodeBody_keepsWithin (hφ : φ.Ample n) {remoteIndex : Int}
    (hdef : remoteIndex ≠ LABCOMM_SAMPLE_DEF) (href : remoteIndex ≠ LABCOMM_SAMPLE_REF)
    (hlook : LooksUp remoteIndex → 0 ≤ remoteIndex ∧ remoteIndex < n) (uninit length : Int) :
    KeepsWithin n (decodeBody uninit remoteIndex length : DecoderM φ Int) := by
  unfold decodeBody
  split
  · exact decodeVersion_keepsWithin
  · refine KeepsWithin.get.bind fun d => ?_
    split
    · exact .pure _
    · split
      · rename_i htag
        obtain ⟨h0, h1⟩ := hlook (.inl htag)
        exact decodeTypePacket_keepsWithin hφ h0 h1 _
      · split
        · rename_i htag
          obtain ⟨h0, h1⟩ := hlook (.inr (.inl htag))
          exact decodeTypePacket_keepsWithin hφ h0 h1 _
        · split
          · exact decodePragma_keepsWithin _
          · split
            · exact onReader_keepsWithin _
            · rename_i htag
              obtain ⟨h0, h1⟩ := hlook (.inr (.inr (not_lt.mp htag)))
              exact decodeAndHandle_keepsWithin hφ h0 h1

end Programs

/-! ## Events -/

/-- The index of a packet, and of what it defines, is below `n`. -/
def IdsBelow (n : Nat) : Packet → Prop
  | .sampleDef k intentions _ => k < n ∧ intentions.length < 128
  | .sampleRef k intentions _ => k < n ∧ intentions.length < 128
  | .sample k _ => LABCOMM_USER ≤ k ∧ k < n
  | _ => True

/-- The packet arrives, its length fits and its indices are below `n`. -/
structure ArrivesBelow (n : Nat) (p : Packet) (r : Reader φ) : Prop where
  length : p.body.length < 2 ^ 31
  arrives : Arrives p r
  ids : IdsBelow n p

/-- The indices of an event are below `n`. -/
def DecoderEvent.Below (n : Nat) : DecoderEvent φ → Prop
  | .registerSample s _ _ => s.HasIndex ∧ s.index < n
  | .registerRef s => s.HasIndex ∧ s.index < n
  | .receive p r _ => ArrivesBelow n p r
  | _ => True

section Ids

variable {p : Packet} (h : IdsBelow n p)

include h

/-- Only a sample type is defined under the tag of definitions. -/
theorem IdsBelow.eq_sampleDef (htag : (p.tag : Int) = LABCOMM_SAMPLE_DEF) :
    ∃ k intentions signature, p = .sampleDef k intentions signature := by
  cases p with
  | sampleDef k intentions signature => exact ⟨k, intentions, signature, rfl⟩
  | sample k body =>
      have hk := h.1
      rw [Packet.tag] at htag
      unfold LABCOMM_USER at hk
      unfold LABCOMM_SAMPLE_DEF at htag
      omega
  | version | sampleRef | typeDef | typeBinding | pragma => cases htag

theorem IdsBelow.eq_sampleRef (htag : (p.tag : Int) = LABCOMM_SAMPLE_REF) :
    ∃ k intentions signature, p = .sampleRef k intentions signature := by
  cases p with
  | sampleRef k intentions signature => exact ⟨k, intentions, signature, rfl⟩
  | sample k body =>
      have hk := h.1
      rw [Packet.tag] at htag
      unfold LABCOMM_USER at hk
      unfold LABCOMM_SAMPLE_REF at htag
      omega
  | version | sampleDef | typeDef | typeBinding | pragma => cases htag

/-- The tag of a packet that is looked up is below the bound. -/
theorem IdsBelow.tag_lt (hn : LABCOMM_TYPE_BINDING < n) (hlook : LooksUp p.tag) : p.tag < n := by
  cases p with
  | sample k body => exact h.2
  | pragma type data =>
      rw [Packet.tag] at hlook
      exact absurd hlook (by unfold LooksUp; decide)
  | version | sampleDef | sampleRef | typeDef | typeBinding =>
      rw [Packet.tag]
      exact lt_of_le_of_lt (by decide) hn

theorem IdsBelow.tag_fits (hn : n < 2 ^ 31) : p.tag < 2 ^ 31 := by
  cases p with
  | sample k body => exact lt_trans h.2 hn
  | version | sampleDef | sampleRef | typeDef | typeBinding | pragma =>
      rw [Packet.tag]
      decide

end Ids

section Events

variable {d : Decoder φ} (hφ : φ.Ample n) (h : d.Within n)

include hφ h

/-- The tags are below the bound. -/
theorem Decoder.Within.roomForTag {tag : Int} (h0 : 0 ≤ tag) (h1 : tag ≤ LABCOMM_TYPE_BINDING) :
    d.RoomForTag tag := by
  have := hφ.tags
  exact ⟨hφ.hasEntry h.locals h0 (by omega) _, hφ.hasEntry h.remoteToLocal h0 (by omega) _⟩

theorem Decoder.Within.registerTag {tag : Int} (h0 : 0 ≤ tag) (h1 : tag ≤ LABCOMM_TYPE_BINDING)
    (decode : DecodeFunction) (handler : Handler) :
    (d.registerTag tag decode handler).Within n := by
  have := hφ.tags
  exact h.setRemote h0 (by omega) h0 (by omega) _

theorem Decoder.Within.packetRoom {p : Packet} {r : Reader φ} (hp : ArrivesBelow n p r) :
    d.RoomFor p.tag (readHeader r).2 := by
  have htag := hp.ids.tag_fits hφ.lt
  constructor
  · intro hdef read hread _
    obtain ⟨k, intentions, signature, rfl⟩ := hp.ids.eq_sampleDef hdef
    rw [hp.arrives.definition rfl htag (lt_trans hp.ids.1 hφ.lt) hp.ids.2 hp.length] at hread
    cases hread
    exact hφ.hasEntry h.remoteToLocal (Int.natCast_nonneg k) (by exact_mod_cast hp.ids.1) _
  · intro href read hread _
    obtain ⟨k, intentions, signature, rfl⟩ := hp.ids.eq_sampleRef href
    rw [hp.arrives.definition rfl htag (lt_trans hp.ids.1 hφ.lt) hp.ids.2 hp.length] at hread
    cases hread
    exact hφ.hasEntry h.remoteToLocalRef (Int.natCast_nonneg k) (by exact_mod_cast hp.ids.1) _
  · intro hlook
    have hlt := hp.ids.tag_lt hφ.tags hlook
    exact h.canLookUp hφ (Int.natCast_nonneg _) (by exact_mod_cast hlt)

/-- **There is room for an event whose indices are below the bound.** -/
theorem Decoder.Within.room {e : DecoderEvent φ} (he : e.Below n) : d.Room e := by
  cases e with
  | registerSample s type handler => exact hφ.hasEntry h.locals he.1.pos.le he.2 _
  | registerTypeDef handler => exact h.roomForTag hφ (by decide) (by decide)
  | registerTypeBinding handler => exact h.roomForTag hφ (by decide) (by decide)
  | registerRef s =>
      exact ⟨hφ.hasEntry h.localRef he.1.pos.le he.2 _,
        fun _ => hφ.hasEntry h.remoteToLocalRef he.1.pos.le he.2 _⟩
  | receive p r uninit =>
      intro _ tag length hread
      rw [(he.arrives.header (he.ids.tag_fits hφ.lt) he.length).1] at hread
      cases hread
      exact h.packetRoom hφ he

/-- A definition or a reference is bound within the bound. -/
theorem Decoder.Within.definition {k : Nat} (hk : k < n) (name : Option (List UInt8))
    (signature : List UInt8) (uninit : Int) :
    ((handleSampleDef uninit ⟨wrap32 k, name, signature⟩ >>= fun result =>
      freeSignatureName name result : DecoderM φ Int).run d).2.Within n ∧
    ((handleSampleRef uninit ⟨wrap32 k, name, signature⟩ >>= fun result =>
      freeSignatureName name (if result = -ENOENT then LABCOMM_SAMPLE_REF else result) :
        DecoderM φ Int).run d).2.Within n := by
  rw [wrap32_natCast (lt_trans hk hφ.lt)]
  have h0 := Int.natCast_nonneg k
  have h1 : (k : Int) < n := by exact_mod_cast hk
  exact ⟨(handleSampleDef_keepsWithin uninit h0 h1).bind
      (fun _ => freeSignatureName_keepsWithin _ _) _ h,
    (handleSampleRef_keepsWithin uninit h0 h1).bind
      (fun _ => freeSignatureName_keepsWithin _ _) _ h⟩

theorem Decoder.Within.body {p : Packet} {r : Reader φ} (hp : ArrivesBelow n p r) (uninit : Int) :
    (((DecoderEvent.receive p r uninit).function : DecoderM φ Int).run d).2.Within n := by
  have htag := hp.ids.tag_fits hφ.lt
  obtain ⟨r', _, hrun, _⟩ := receive_header_of htag hp.length hp.arrives uninit d
  by_cases hdef : (p.tag : Int) = LABCOMM_SAMPLE_DEF ∨ (p.tag : Int) = LABCOMM_SAMPLE_REF
  · cases hv : d.versionOk with
    | false =>
        have hversion : (p.tag : Int) ≠ LABCOMM_VERSION := by
          rcases hdef with hdef | hdef <;> rw [hdef] <;> decide
        rw [hrun, decodeBody_refused (d := d.withReader r') hv hversion]
        exact h.withReader r'
    | true =>
        have hlt : ∀ {k : Nat}, k < n → k < 2 ^ 32 := fun hk =>
          lt_trans (lt_trans hk hφ.lt) (by decide)
        rcases hdef with hdef | href
        · obtain ⟨k, intentions, signature, rfl⟩ := hp.ids.eq_sampleDef hdef
          obtain ⟨r'', hrun'⟩ :=
            receive_sampleDef_wrap (hlt hp.ids.1) hp.length hp.arrives hp.ids.2 hv uninit
          rw [hrun']
          exact ((h.withReader r'').definition hφ hp.ids.1 _ signature uninit).1
        · obtain ⟨k, intentions, signature, rfl⟩ := hp.ids.eq_sampleRef href
          obtain ⟨r'', hrun'⟩ :=
            receive_sampleRef_wrap (hlt hp.ids.1) hp.length hp.arrives hp.ids.2 hv uninit
          rw [hrun']
          exact ((h.withReader r'').definition hφ hp.ids.1 _ signature uninit).2
  · rw [not_or] at hdef
    rw [hrun]
    refine decodeBody_keepsWithin hφ hdef.1 hdef.2 (fun hlook => ?_) uninit _ _ (h.withReader r')
    have hlt := hp.ids.tag_lt hφ.tags hlook
    exact ⟨Int.natCast_nonneg _, by exact_mod_cast hlt⟩

end Events

/-- An event whose indices are below the bound keeps the tables within it. -/
theorem function_keepsWithin (hφ : φ.Ample n) {e : DecoderEvent φ} (he : e.Below n) :
    KeepsWithin n e.function := by
  intro d h
  have hroom := h.room hφ he
  have htags := hφ.tags
  cases e with
  | registerSample s type handler =>
      rw [DecoderEvent.function, doRegisterSample_run he.1 type handler hroom]
      exact ⟨h.locals.set he.1.pos.le he.2 _, h.remoteToLocal, h.localRef, h.remoteToLocalRef,
        h.leads⟩
  | registerTypeDef handler =>
      rw [DecoderEvent.function, registerTypeDef, registerTag_run _ handler hroom]
      exact h.registerTag hφ (by decide) (by decide) _ handler
  | registerTypeBinding handler =>
      rw [DecoderEvent.function, registerTypeBinding, registerTag_run _ handler hroom]
      exact h.registerTag hφ (by decide) (by decide) _ handler
  | registerRef s =>
      rw [DecoderEvent.function, doRefRegisterDecoder_run he.1 hroom]
      unfold Decoder.registerRef
      split
      · exact h
      · exact ⟨h.locals, h.remoteToLocal, h.localRef.set he.1.pos.le he.2 _,
          h.remoteToLocalRef.set he.1.pos.le he.2 _, h.leads⟩
  | receive p r uninit => exact h.body hφ he uninit

/-- **In a run whose indices are below the bound every access to a table fits.** -/
theorem decoderSteps_room (hφ : φ.Ample n) (r : Reader φ) {events : List (DecoderEvent φ)}
    (hbelow : ∀ e ∈ events, e.Below n) :
    ∀ st ∈ decoderSteps r events, st.before.Room st.call := by
  have hcalls : ∀ st ∈ decoderSteps r events, st.call.Below n :=
    fun st hst => hbelow _ (call_mem_of_mem_trace hst)
  have hstep : ∀ st : DecoderStep φ, st.Ran DecoderEvent.function → st.call.Below n →
      st.before.Within n → st.after.Within n := by
    intro st hran he h
    have hkeeps := function_keepsWithin hφ he st.before h
    rwa [hran] at hkeeps
  have hinv := trace_inv (I := fun _ d => Decoder.Within n d)
    (M := fun st : DecoderStep φ => st.call.Below n) (fun st _ hran _ => hstep st hran)
    (decoderNew_within (Nat.zero_lt_of_lt hφ.tags) r) hcalls
  exact fun st hst => (hinv st hst).room hφ (hcalls st hst)

/-! ## A host of 64 bits -/

theorem Host.of_ample {code : Int} {neg : code < 0} (htags : LABCOMM_TYPE_BINDING < n)
    (hn : n * 40 < 2 ^ 31) : (Host.of code neg).Ample n := by
  refine ⟨htags, fun table => ?_, fun _ _ _ => rfl⟩
  refine lt_of_le_of_lt (Nat.mul_le_mul_left n ?_) hn
  cases table <;> simp [Host.sizeof, Host.pointer, Host.of, SizeT.bits]

theorem endOfFile_ample : endOfFile.Ample 128 := Host.of_ample (by decide) (by decide)

theorem arrival_below {p : Packet} (hlen : p.body.length < 2 ^ 31) (h : IdsBelow n p) :
    (arrival (φ := φ) p).Below n := ⟨hlen, readerOf_arrives p, h⟩

end LabComm.C
