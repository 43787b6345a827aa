import LabComm.C.DecoderRoom

set_option autoImplicit false

/-! # Dispatch of samples

What decides which handler gets a sample: the sample types registered so far, and for each index
of the sender the type that its latest definition matched when it arrived (`Dispatch`). The tables
of the decoder say the same (`DispatchInv`) as long as every definition can be handled; a
definition that matches nothing ends the process or leaves an old binding in place.
-/

namespace LabComm.C

open Library

variable {φ : Host}

/-! ## The latest definition -/

/-- A sample type with what was registered for it. -/
structure Registration where
  signature : Signature
  type : DataType
  handler : Handler

/-- The registrations, the latest first, and the signature that the latest definition of an
index matched. -/
structure Dispatch where
  version : Bool
  registered : List Registration
  latest : Nat → Option Signature

/-- The latest registration of the signature with a local index. -/
def Dispatch.registration (x : Dispatch) (index : Int) : Option Registration :=
  x.registered.find? fun reg => reg.signature.index = index

/-- The registered signature that a definition matches. -/
def Dispatch.matching (x : Dispatch) (name bytes : List UInt8) : Option Signature :=
  (x.registered.find? fun reg => SameSignature reg.signature name bytes).map (·.signature)

/-- What is registered for the samples of an index. -/
def Dispatch.current (x : Dispatch) (k : Nat) : Option Registration :=
  (x.latest k).bind fun s => x.registration s.index

/-- What an event changes. -/
def Dispatch.step (x : Dispatch) : DecoderEvent φ → Dispatch
  | .registerSample s type handler => { x with registered := ⟨s, type, handler⟩ :: x.registered }
  | .receive (.version s) _ _ =>
      { x with version := x.version || decide (cString s = CURRENT_VERSION) }
  | .receive (.sampleDef k intentions signature) _ _ =>
      let matched := (nameFrom none intentions).bind fun name => x.matching name signature
      { x with latest := Function.update x.latest k matched }
  | _ => x

/-- The dispatch after a list of events. -/
def dispatchOf (events : List (DecoderEvent φ)) : Dispatch :=
  events.foldl Dispatch.step ⟨false, [], fun _ => none⟩

theorem dispatchOf_concat (events : List (DecoderEvent φ)) (e : DecoderEvent φ) :
    dispatchOf (events ++ [e]) = (dispatchOf events).step e := by
  rw [dispatchOf, List.foldl_concat]
  rfl

/-! ## What a run should do -/

/-- A packet that is received is well formed and has arrived, and a sample is one of the type its
index stands for. -/
def Dispatch.Arrived (x : Dispatch) : DecoderEvent φ → Prop
  | .receive p r _ => p.WellFormed ∧ Arrives p r ∧ ∀ k body, p = .sample k body →
      ∀ reg, x.current k = some reg → ∃ refs w, IsSample reg.type body refs w
  | _ => True

/-- A definition the decoder can handle: it is read in full, and it matches a registered type
or, where it has no name, there is no binding it should have undone and no signature of its size
to compare it with. -/
def Dispatch.Handles (x : Dispatch) (k : Nat) (intentions : List Intention)
    (signature : List UInt8) : Prop :=
  intentions.length < 128 ∧
    match nameFrom none intentions with
    | some name => (x.matching name signature).isSome = true
    | none => x.latest k = none ∧
        ∀ reg ∈ x.registered, reg.signature.bytes.length ≠ signature.length

/-- Packets come after the version, and definitions and references can be handled. -/
def Dispatch.Handled (x : Dispatch) (d : Decoder φ) : DecoderEvent φ → Prop
  | .receive (.version _) _ _ => True
  | .receive (.sampleDef k intentions signature) _ _ =>
      x.version = true ∧ x.Handles k intentions signature
  | .receive (.sampleRef _ intentions signature) _ _ =>
      x.version = true ∧ d.Compares intentions signature
  | .receive _ _ _ => x.version = true
  | _ => True

/-! ## The tables -/

/-- The tables say what the registrations and the latest definitions are. -/
structure DispatchInv (K : Signature → Prop) (x : Dispatch) (d : Decoder φ) : Prop where
  version : d.versionOk = x.version
  known : ∀ reg ∈ x.registered, K reg.signature
  entries : ∀ i reg, x.registration i = some reg →
    (d.locals.get i).signature = some reg.signature ∧
      (d.locals.get i).decode = some (.sample reg.type) ∧ (d.locals.get i).handler = reg.handler
  absent : ∀ i, x.registration i = none → (d.locals.get i).signature = none
  remote : ∀ k : Nat, UserIndex k →
    d.remoteToLocal.get k = ((x.latest k).map Signature.index).getD 0
  latest : ∀ k s, x.latest k = some s → ∃ reg ∈ x.registered, reg.signature = s

section Inv

variable {K : Signature → Prop} {x : Dispatch} {d : Decoder φ}

theorem Dispatch.registration_index {i : Int} {reg : Registration}
    (h : x.registration i = some reg) : reg ∈ x.registered ∧ reg.signature.index = i :=
  ⟨List.mem_of_find?_eq_some h, of_decide_eq_true (List.find?_some
    (p := fun reg : Registration => decide (reg.signature.index = i)) h)⟩

/-- A registered signature is the one that is found under its index. -/
theorem DispatchInv.registration_of_mem (hK : Distinct K) (h : DispatchInv K x d)
    {reg : Registration} (hreg : reg ∈ x.registered) :
    ∃ reg', x.registration reg.signature.index = some reg' ∧ reg'.signature = reg.signature := by
  cases hfind : x.registration reg.signature.index with
  | none => exact absurd (List.find?_eq_none.mp hfind reg hreg) (by simp)
  | some reg' =>
      obtain ⟨hmem, hindex⟩ := Dispatch.registration_index hfind
      exact ⟨reg', rfl, hK.index _ _ (h.known _ hmem) (h.known _ hreg) hindex⟩

/-- An entry matches when it is that of a registered signature which matches. -/
theorem DispatchInv.matchesDef (h : DispatchInv K x d) (name bytes : List UInt8) (i : Int) :
    d.matchesDef name bytes i = true ↔
      ∃ reg, x.registration i = some reg ∧ SameSignature reg.signature name bytes := by
  unfold Decoder.matchesDef
  cases hreg : x.registration i with
  | none => simp [h.absent i hreg]
  | some reg => simp [(h.entries i reg hreg).1]

/-- **The loop finds the registered signature that matches.** -/
theorem DispatchInv.find?_matchesDef (hK : Distinct K) (h : DispatchInv K x d)
    (name bytes : List UInt8) :
    d.locals.indices.find? (d.matchesDef name bytes) =
      (x.matching name bytes).map Signature.index := by
  unfold Dispatch.matching
  cases hreg : x.registered.find? fun reg => SameSignature reg.signature name bytes with
  | none =>
      rw [Option.map_none, Option.map_none, List.find?_eq_none]
      intro i _ hi
      obtain ⟨reg, hfind, hsame⟩ := (h.matchesDef name bytes i).mp hi
      exact List.find?_eq_none.mp hreg reg (Dispatch.registration_index hfind).1
        (decide_eq_true hsame)
  | some reg =>
      have hmem := List.mem_of_find?_eq_some hreg
      have hsame : SameSignature reg.signature name bytes := of_decide_eq_true
        (List.find?_some (p := fun reg : Registration =>
          decide (SameSignature reg.signature name bytes)) hreg)
      obtain ⟨reg', hfind', hsig⟩ := h.registration_of_mem hK hmem
      rw [Option.map_some, Option.map_some]
      apply SigArray.find?_indices (mem_indices_of_signature (h.entries _ _ hfind').1)
      · exact (h.matchesDef name bytes _).mpr ⟨reg', hfind', hsig ▸ hsame⟩
      · intro i hi
        obtain ⟨reg'', hfind'', hsame''⟩ := (h.matchesDef name bytes i).mp hi
        obtain ⟨hmem'', hindex⟩ := Dispatch.registration_index hfind''
        have heq : reg''.signature = reg.signature :=
          hK.content _ _ (h.known _ hmem'') (h.known _ hmem)
            ⟨hsame''.1.trans hsame.1.symm, hsame''.2.trans hsame.2.symm⟩
        rw [← heq, hindex]

/-- What `lookup_h` finds is what is registered for the index. -/
theorem DispatchInv.found (hK : Distinct K) (h : DispatchInv K x d) {k : Nat}
    (hk : UserIndex k) :
    d.found k = (x.current k).map fun reg => (.sample reg.type, reg.handler) := by
  unfold Decoder.found Dispatch.current
  rw [h.remote k hk]
  cases hs : x.latest k with
  | none => rfl
  | some s =>
      obtain ⟨reg, hmem, rfl⟩ := h.latest k s hs
      obtain ⟨reg', hfind, hsig⟩ := h.registration_of_mem hK hmem
      obtain ⟨_, hdecode, hhandler⟩ := h.entries _ _ hfind
      have hne : reg.signature.index ≠ 0 := by
        have := (hK.hasIndex _ (h.known _ hmem)).1
        unfold LABCOMM_USER at this
        omega
      simp only [Option.map_some, Option.getD_some, Option.bind_some]
      rw [if_pos hne, hdecode, hhandler, hfind]
      rfl

theorem DispatchInv.congr (h : DispatchInv K x d) {d' : Decoder φ}
    (hv : d'.versionOk = d.versionOk) (hl : ∀ i, d'.locals.get i = d.locals.get i)
    (hr : ∀ i, d'.remoteToLocal.get i = d.remoteToLocal.get i) : DispatchInv K x d' := by
  constructor
  · exact hv.trans h.version
  · exact h.known
  · intro i
    rw [hl i]
    exact h.entries i
  · intro i
    rw [hl i]
    exact h.absent i
  · intro k
    rw [hr k]
    exact h.remote k
  · exact h.latest

theorem DispatchInv.sameTables (h : DispatchInv K x d) {d' : Decoder φ}
    (hsame : SameTables d d') : DispatchInv K x d' :=
  h.congr hsame.versionOk hsame.locals hsame.remoteToLocal

/-! ## Events -/

/-- A registration is the latest one of its signature. -/
theorem DispatchInv.registerSample (h : DispatchInv K x d) {s : Signature} (hs : K s)
    (type : DataType) (handler : Handler) :
    DispatchInv K { x with registered := ⟨s, type, handler⟩ :: x.registered }
      (d.register s type handler) := by
  have hget : ∀ i, (d.register s type handler).locals.get i =
      if i = s.index then ⟨0, some s, some (.sample type), handler⟩ else d.locals.get i :=
    fun i => SigArray.get_set _ _ _ _
  -- the new registration is in front of the older ones of its index
  have hfind : ∀ i, Dispatch.registration
      { x with registered := ⟨s, type, handler⟩ :: x.registered } i =
        if i = s.index then some ⟨s, type, handler⟩ else x.registration i := by
    intro i
    unfold Dispatch.registration
    rw [List.find?_cons]
    by_cases hi : i = s.index
    · rw [if_pos hi, decide_eq_true hi.symm]
    · rw [if_neg hi, decide_eq_false (fun heq => hi heq.symm)]
  constructor
  · exact h.version
  · intro reg hreg
    rcases List.mem_cons.mp hreg with rfl | hreg
    · exact hs
    · exact h.known reg hreg
  · intro i reg hreg
    rw [hfind] at hreg
    rw [hget]
    split at hreg
    · rename_i hi
      cases hreg
      rw [if_pos hi]
      exact ⟨rfl, rfl, rfl⟩
    · rename_i hi
      rw [if_neg hi]
      exact h.entries i reg hreg
  · intro i hreg
    rw [hfind] at hreg
    rw [hget]
    split at hreg
    · exact absurd hreg (by simp)
    · rename_i hi
      rw [if_neg hi]
      exact h.absent i hreg
  · exact h.remote
  · intro k s' hs'
    obtain ⟨reg, hmem, hreg⟩ := h.latest k s' hs'
    exact ⟨reg, List.mem_cons_of_mem _ hmem, hreg⟩

/-- The handlers of type packets have entries of their own. -/
theorem DispatchInv.registerTag (hK : Distinct K) (h : DispatchInv K x d) {tag : Int}
    (htag : tag < LABCOMM_USER) (decode : DecodeFunction) (handler : Handler) :
    DispatchInv K x (d.registerTag tag decode handler) := by
  have hget : ∀ i, (d.registerTag tag decode handler).locals.get i =
      if i = tag then ⟨tag, none, some decode, handler⟩ else d.locals.get i :=
    fun i => SigArray.get_set _ _ _ _
  constructor
  · exact h.version
  · exact h.known
  · intro i reg hreg
    obtain ⟨hmem, hindex⟩ := Dispatch.registration_index hreg
    -- a tag is below every user index
    have := (hK.hasIndex _ (h.known _ hmem)).1
    rw [hget, if_neg (by omega)]
    exact h.entries i reg hreg
  · intro i hreg
    rw [hget]
    split
    · rfl
    · exact h.absent i hreg
  · intro k hk
    have : (LABCOMM_USER : Int) ≤ k := by exact_mod_cast hk.1
    show (d.remoteToLocal.set tag tag).get k = _
    rw [SigArray.get_set_ne _ (by omega)]
    exact h.remote k hk
  · exact h.latest

/-- A definition that matches is the latest of its index. -/
theorem DispatchInv.bindDef (h : DispatchInv K x d) (k : Nat) {name bytes : List UInt8}
    {s : Signature} (hs : x.matching name bytes = some s) :
    DispatchInv K { x with latest := Function.update x.latest k (some s) }
      (d.bindDef k s.index) := by
  obtain ⟨reg, hmem, rfl⟩ : ∃ reg ∈ x.registered, reg.signature = s := by
    obtain ⟨reg, hfind, hreg⟩ := Option.map_eq_some_iff.mp hs
    exact ⟨reg, List.mem_of_find?_eq_some hfind, hreg⟩
  -- only the remote index of the entry changes
  have hentry : ∀ i, ((d.bindDef k reg.signature.index).locals.get i).signature =
        (d.locals.get i).signature ∧
      ((d.bindDef k reg.signature.index).locals.get i).decode = (d.locals.get i).decode ∧
      ((d.bindDef k reg.signature.index).locals.get i).handler = (d.locals.get i).handler := by
    intro i
    simp only [Decoder.bindDef, SigArray.get_set]
    split
    · rename_i hi
      rw [hi]
      exact ⟨rfl, rfl, rfl⟩
    · exact ⟨rfl, rfl, rfl⟩
  constructor
  · exact h.version
  · exact h.known
  · intro i reg' hreg
    rw [(hentry i).1, (hentry i).2.1, (hentry i).2.2]
    exact h.entries i reg' hreg
  · intro i hreg
    rw [(hentry i).1]
    exact h.absent i hreg
  · intro k' hk'
    show (d.remoteToLocal.set k reg.signature.index).get k' = _
    dsimp only
    rw [SigArray.get_set, Function.update_apply]
    by_cases heq : k' = k
    · rw [if_pos (by rw [heq]), if_pos heq]
      rfl
    · rw [if_neg (by exact_mod_cast heq), if_neg heq]
      exact h.remote k' hk'
  · intro k' s hs'
    simp only [Function.update_apply] at hs'
    split at hs'
    · cases hs'
      exact ⟨reg, hmem, rfl⟩
    · exact h.latest k' s hs'

end Inv

/-- The signatures in the table are registered ones, so they have sizes of those. -/
theorem DispatchInv.size_ne {K : Signature → Prop} {x : Dispatch} {d : Decoder φ}
    (h : DispatchInv K x d) {n : Nat}
    (hsize : ∀ reg ∈ x.registered, reg.signature.bytes.length ≠ n) :
    ∀ i s, (d.locals.get i).signature = some s → s.bytes.length ≠ n := by
  intro i s hs
  cases hreg : x.registration i with
  | none => exact absurd hs (by rw [h.absent i hreg]; simp)
  | some reg =>
      rw [(h.entries i reg hreg).1] at hs
      cases hs
      exact hsize reg (Dispatch.registration_index hreg).1

/-! ## Runs -/

/-- A definition that can be handled does to the tables what it does to the dispatch. -/
theorem DispatchInv.sampleDef {K : Signature → Prop} (hK : Distinct K) {x : Dispatch}
    {d : Decoder φ} (h : DispatchInv K x d) {k : Nat} {intentions : List Intention}
    {signature : List UInt8} {r : Reader φ}
    (hwf : (Packet.sampleDef k intentions signature).WellFormed)
    (harrives : Arrives (.sampleDef k intentions signature) r) (hv : x.version = true)
    (hhandles : x.Handles k intentions signature) (uninit : Int)
    (hroom : d.Room (.receive (.sampleDef k intentions signature) r uninit)) :
    ∃ result d',
      (DecoderEvent.receive (.sampleDef k intentions signature) r uninit).function.run d =
        (.ok result, d') ∧
      DispatchInv K (x.step (.receive (.sampleDef k intentions signature) r uninit)) d' := by
  obtain ⟨hfew, hmatch⟩ := hhandles
  have hv' : d.versionOk = true := h.version.trans hv
  rw [Dispatch.step]
  cases hname : nameFrom none intentions with
  | some name =>
      rw [hname] at hmatch
      obtain ⟨s, hs⟩ := Option.isSome_iff_exists.mp hmatch
      have hfind := h.find?_matchesDef hK name signature
      rw [hs, Option.map_some] at hfind
      have hentry := hroom.sampleDef hwf harrives hv' rfl hfew
        (by rw [hname, Decoder.defMatch, Option.bind_some, hfind]; rfl)
      obtain ⟨r', hrun⟩ :=
        receive_sampleDef_bound hwf harrives hfew hv' hname hfind hentry uninit
      refine ⟨_, _, hrun, ?_⟩
      rw [Option.bind_some, hs]
      have h' : DispatchInv K x (d.withReader r') := h.sameTables ((SameTables.refl d).withReader r')
      exact h'.bindDef k hs
  | none =>
      rw [hname] at hmatch
      obtain ⟨result, r', hrun⟩ :=
        receive_sampleDef_nameless hwf harrives hfew hv' hname (h.size_ne hmatch.2) uninit
      refine ⟨result, _, hrun, ?_⟩
      rw [Option.bind_none, ← hmatch.1, Function.update_eq_self]
      exact h.sameTables ((SameTables.refl d).withReader r')

/-- **Every event that can be handled returns and keeps the tables and the dispatch together.** -/
theorem DispatchInv.step {K : Signature → Prop} (hK : Distinct K) {st : DecoderStep φ}
    (hran : st.Ran DecoderEvent.function) (hreg : ∀ s, st.call.Registers s → K s)
    (harr : (dispatchOf st.past).Arrived st.call)
    (hhandled : (dispatchOf st.past).Handled st.before st.call)
    (hroom : st.before.Room st.call) (h : DispatchInv K (dispatchOf st.past) st.before) :
    (∃ result, st.result = .ok result) ∧
      DispatchInv K (dispatchOf (st.past ++ [st.call])) st.after := by
  obtain ⟨past, d, call, result, after⟩ := st
  rw [dispatchOf_concat]
  dsimp only [Step.Ran] at *
  generalize dispatchOf past = x at *
  -- the function is deterministic, so that it is enough to know one run
  suffices hstep : ∃ result d', call.function.run d = (.ok result, d') ∧
      DispatchInv K (x.step call) d' by
    obtain ⟨_, _, hrun, hinv⟩ := hstep
    cases hran.symm.trans hrun
    exact ⟨⟨_, rfl⟩, hinv⟩
  cases call with
  | registerSample s type handler =>
      exact ⟨_, _, doRegisterSample_run (hK.hasIndex s (hreg s rfl)) type handler hroom,
        h.registerSample (hreg s rfl) type handler⟩
  | registerTypeDef handler =>
      exact ⟨_, _, registerTag_run _ handler hroom, h.registerTag hK (by decide) _ handler⟩
  | registerTypeBinding handler =>
      exact ⟨_, _, registerTag_run _ handler hroom, h.registerTag hK (by decide) _ handler⟩
  | registerRef s =>
      refine ⟨_, _, doRefRegisterDecoder_run (hK.hasIndex s (hreg s rfl)) hroom, ?_⟩
      unfold Decoder.registerRef
      split
      · exact h
      · exact h.congr rfl (fun _ => rfl) fun _ => rfl
  | receive p r uninit =>
      obtain ⟨hwf, harrives, _⟩ := harr
      cases p with
      | version s =>
          obtain ⟨result, d', hrun, hsame, _⟩ := receive_version hwf harrives uninit d
          refine ⟨result, d', hrun, DispatchInv.sameTables ?_ hsame⟩
          -- a version that is accepted is all that can be new
          refine ⟨?_, h.known, h.entries, h.absent, h.remote, h.latest⟩
          show (d.versionOk || _) = (x.version || _)
          rw [h.version]
      | sampleDef k intentions signature =>
          exact h.sampleDef hK hwf harrives hhandled.1 hhandled.2 uninit hroom
      | sampleRef k intentions signature =>
          have hv := h.version.trans hhandled.1
          obtain ⟨result, r', hrun⟩ := receive_sampleRef_compared hwf harrives hhandled.2 hv
            (hroom.sampleRef hwf harrives hv rfl hhandled.2.1) uninit
          refine ⟨result, _, hrun, ?_⟩
          -- references have tables of their own
          cases d.refMatch (nameFrom none intentions) signature with
          | some i => exact h.congr rfl (fun _ => rfl) fun _ => rfl
          | none => exact h.congr rfl (fun _ => rfl) fun _ => rfl
      | typeDef index intentions signature =>
          have hv := h.version.trans hhandled
          obtain ⟨result, d', hrun, hsame⟩ := receive_keepsTables hwf harrives hv
            (by simp only [Packet.tag]; decide) (hroom.packet hwf harrives hv).lookUp uninit
          exact ⟨result, d', hrun, h.sameTables hsame⟩
      | typeBinding sindex tindex =>
          have hv := h.version.trans hhandled
          obtain ⟨result, d', hrun, hsame⟩ := receive_keepsTables hwf harrives hv
            (by simp only [Packet.tag]; decide) (hroom.packet hwf harrives hv).lookUp uninit
          exact ⟨result, d', hrun, h.sameTables hsame⟩
      | pragma type data =>
          have hv := h.version.trans hhandled
          obtain ⟨result, d', hrun, hsame⟩ := receive_keepsTables hwf harrives hv
            (by simp only [Packet.tag]; decide) (hroom.packet hwf harrives hv).lookUp uninit
          exact ⟨result, d', hrun, h.sameTables hsame⟩
      | sample k body =>
          -- a user id is none of the tags that the decoder looks at itself
          have htag : k ≠ LABCOMM_VERSION ∧ k ≠ LABCOMM_SAMPLE_DEF ∧ k ≠ LABCOMM_SAMPLE_REF := by
            have := hwf.ids.1
            unfold LABCOMM_USER at this
            unfold LABCOMM_VERSION LABCOMM_SAMPLE_DEF LABCOMM_SAMPLE_REF
            omega
          have hv := h.version.trans hhandled
          obtain ⟨result, d', hrun, hsame⟩ := receive_keepsTables hwf harrives hv htag
            (hroom.packet hwf harrives hv).lookUp uninit
          exact ⟨result, d', hrun, h.sameTables hsame⟩

theorem decoderNew_dispatchInv (K : Signature → Prop) (r : Reader φ) :
    DispatchInv K (dispatchOf (φ := φ) []) (decoderNew r) := by
  constructor
  · rfl
  · simp [dispatchOf]
  · intro i reg hreg
    exact absurd hreg (by simp [dispatchOf, Dispatch.registration])
  · intro i _
    show ((SigArray.init : SigArray SampleEntry).get i).signature = none
    rw [SigArray.get_init]
    rfl
  · intro k _
    show (SigArray.init : SigArray Int).get k = _
    rw [SigArray.get_init]
    rfl
  · intro k s hs
    exact absurd hs (by simp [dispatchOf])

section Unhandled

variable {r : Reader φ} {events : List (DecoderEvent φ)} {k : Nat}
  {intentions : List Intention} {signature : List UInt8}

end Unhandled

/-! ## An `int` -/

/-- The definition of `intSignature` as type 0x41. -/
def intDefinition : Packet := .sampleDef 0x41 [nameIntention [97]] [0x23]

end LabComm.C
