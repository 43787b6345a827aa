import LabComm.C.Definitions

set_option autoImplicit false

/-! # Type ids of 32 bits

An id is sent as a number of 32 bits and kept in an `int`. From `2 ^ 31` on it is negative, and
so is what `do_decode_one` returns for its definition (`userId_dispatched_iff`); a sample with
such an id has the tag of a packet of the system and is skipped (`receive_sample_negative`).
-/

namespace LabComm.C

open Library

variable {φ : Host} {d : Decoder φ} {s : Signature} {type : DataType} {handler : Handler}
  {k : Nat} {intentions : List Intention}

/-- A sample type that is registered, and is the one that its own name and bytes lead to. -/
structure Decoder.Offers (d : Decoder φ) (s : Signature) (type : DataType) (handler : Handler) :
    Prop where
  versionOk : d.versionOk = true
  index : s.HasIndex
  decode : (d.locals.get s.index).decode = some (.sample type)
  handler : (d.locals.get s.index).handler = handler
  first : d.defMatch (some s.name) s.bytes = some (s.index : Int)
  entry : φ.HasEntry .locals d.locals s.index

/-- The intentions give the name of the sample type. -/
def Names (intentions : List Intention) (s : Signature) : Prop :=
  ∃ name, nameFrom none intentions = some name ∧ cString name = cString s.name

/-- The definition of the id is decoded, with a positive result, and the id can be looked up. From
then on, as long as the tables stay the same maps and it can be looked up, samples with the id are
handed to the handler of the sample type, with a positive result. -/
def Decoder.Dispatched (d : Decoder φ) (s : Signature) (type : DataType) (handler : Handler)
    (k : Nat) (intentions : List Intention) : Prop :=
  ∀ r uninit, Arrives (.sampleDef k intentions s.bytes) r →
    ∃ a d1, (DecoderEvent.receive (.sampleDef k intentions s.bytes) r uninit).function.run d =
        (.ok a, d1) ∧ 0 < a ∧ d1.CanLookUp k ∧
      ∀ d2, SameTables d1 d2 → d2.CanLookUp k → ∀ body v, body.length < 2 ^ 31 → d2.Receives type body v →
        ∀ r uninit, Arrives (.sample k body) r →
          ∃ b d3, (DecoderEvent.receive (.sample k body) r uninit).function.run d2 =
              (.ok b, d3) ∧ 0 < b ∧ d3.calls = d2.calls ++ [⟨handler, .sample v⟩]

/-! ## Names -/

theorem matchesDef_congr {name name' : List UInt8} (h : cString name = cString name')
    (bytes : List UInt8) : d.matchesDef name bytes = d.matchesDef name' bytes := by
  funext i
  unfold Decoder.matchesDef
  congr 1
  funext t
  rw [decide_eq_decide, SameSignature, SameSignature, h]

theorem Decoder.Offers.find? (h : d.Offers s type handler) {name : List UInt8}
    (hname : cString name = cString s.name) :
    d.locals.indices.find? (d.matchesDef name s.bytes) = some (s.index : Int) := by
  rw [matchesDef_congr hname]
  exact h.first

/-- After a run that was handled, every sample type is offered with its latest registration. -/
theorem DispatchInv.offers {K : Signature → Prop} {x : Dispatch} (hK : Distinct K)
    (h : DispatchInv K x d) (hv : x.version = true) {reg : Registration} {i : Int}
    (hreg : x.registration i = some reg) (hentry : φ.HasEntry .locals d.locals i) :
    d.Offers reg.signature reg.type reg.handler := by
  obtain ⟨hmem, hindex⟩ := Dispatch.registration_index hreg
  obtain ⟨hsignature, hdecode, hhandler⟩ := h.entries i reg hreg
  refine ⟨h.version.trans hv, hK.hasIndex _ (h.known _ hmem), hindex ▸ hdecode,
    hindex ▸ hhandler, ?_, hindex ▸ hentry⟩
  show d.locals.indices.find? (d.matchesDef reg.signature.name reg.signature.bytes) = _
  apply SigArray.find?_indices
  · rw [hindex]
    exact mem_indices_of_signature hsignature
  · exact (h.matchesDef _ _ _).mpr ⟨reg, hindex ▸ hreg, rfl, rfl⟩
  · -- another entry that matches has the same name and bytes
    intro j hj
    obtain ⟨reg', hreg', hsame⟩ := (h.matchesDef _ _ j).mp hj
    obtain ⟨hmem', hindex'⟩ := Dispatch.registration_index hreg'
    rw [← hindex', hK.content _ _ (h.known _ hmem') (h.known _ hmem) ⟨hsame.1, hsame.2⟩]

/-! ## Ids that an `int` can hold -/

/-- The id leads to the sample type after its definition. -/
theorem Decoder.Offers.bindDef_found (h : d.Offers s type handler) {d2 : Decoder φ} {r : Reader φ}
    (hsame : SameTables ((d.withReader r).bindDef k s.index) d2) :
    d2.found k = some (.sample type, handler) ∧ d2.remoteToLocal.get k = s.index := by
  have hpos : (s.index : Int) ≠ 0 := by
    have h0 : 0 < LABCOMM_USER := by decide
    have := h.index.1
    omega
  have hlocal : ((d.withReader r).bindDef k s.index).remoteToLocal.get k = s.index :=
    SigArray.get_set_self _ _ _
  refine ⟨?_, (hsame.remoteToLocal k).trans hlocal⟩
  rw [hsame.found, Decoder.found, hlocal, if_pos hpos]
  show (((d.locals.set s.index _).get s.index).decode.map fun decode => (decode,
    ((d.locals.set s.index _).get s.index).handler)) = _
  rw [SigArray.get_set_self]
  show ((d.locals.get s.index).decode.map fun decode => (decode,
    (d.locals.get s.index).handler)) = _
  rw [h.decode, h.handler]
  rfl

/-- The definition makes the entries it stores to, so that the id can be looked up. -/
theorem Decoder.Offers.canLookUp (h : d.Offers s type handler)
    (hroom : φ.HasEntry .remoteToLocal d.remoteToLocal k) :
    (d.bindDef k s.index).CanLookUp k := by
  refine ⟨SigArray.Fits.set hroom _, fun _ => ?_⟩
  rw [show (d.bindDef k s.index).remoteToLocal.get k = s.index from SigArray.get_set_self _ _ _]
  exact SigArray.Fits.set h.entry _

theorem Decoder.Offers.dispatched (h : d.Offers s type handler)
    (hk : LABCOMM_USER ≤ k ∧ k < 2 ^ 31) (hroom : φ.HasEntry .remoteToLocal d.remoteToLocal k)
    (hnames : Names intentions s) (hfew : intentions.length < 128)
    (hlen : (definitionBytes k intentions s.bytes).length < 2 ^ 31) :
    d.Dispatched s type handler k intentions := by
  obtain ⟨name, hname, hcs⟩ := hnames
  have hwf : (Packet.sampleDef k intentions s.bytes).WellFormed := ⟨hk, hlen⟩
  have hindex : (0 : Int) < s.index := by
    have h0 : 0 < LABCOMM_USER := by decide
    have := h.index.1
    omega
  intro r uninit hr
  obtain ⟨r', hrun⟩ :=
    receive_sampleDef_bound hwf hr hfew h.versionOk hname (h.find? hcs) hroom uninit
  have hkpos : (0 : Int) < k := by
    have h0 : 0 < LABCOMM_USER := by decide
    omega
  refine ⟨k, _, hrun, hkpos, h.canLookUp hroom, ?_⟩
  intro d2 hsame hlook body v hbody hv r2 uninit2 hr2
  obtain ⟨hfound, hlocal⟩ := h.bindDef_found hsame
  have hv2 : d2.versionOk = true := hsame.versionOk.trans h.versionOk
  obtain ⟨d3, hrun3, _, hcalls⟩ :=
    receive_sample_bound ⟨hk, hbody⟩ hr2 hv2 hlook hfound hv uninit2
  exact ⟨_, d3, hrun3, by rw [hlocal]; exact hindex, hcalls⟩

/-! ## Ids that it cannot hold -/

theorem wrap32_neg (hk : 2 ^ 31 ≤ k ∧ k < 2 ^ 32) : wrap32 k < 0 := by
  rw [wrap32_natCast_of_ge hk.1 hk.2]
  omega

/-- No result of the definition is positive. -/
theorem Decoder.Offers.not_dispatched (h : d.Offers s type handler)
    (hk : 2 ^ 31 ≤ k ∧ k < 2 ^ 32) (hnames : Names intentions s)
    (hfew : intentions.length < 128)
    (hlen : (definitionBytes k intentions s.bytes).length < 2 ^ 31) :
    ¬ d.Dispatched s type handler k intentions := by
  obtain ⟨name, hname, hcs⟩ := hnames
  intro hdispatched
  have hr := readerOf_arrives (φ := φ) (.sampleDef k intentions s.bytes)
  obtain ⟨a, d1, hrun, hpos, _⟩ := hdispatched _ 0 hr
  obtain ⟨r', hdef⟩ := receive_sampleDef_wrap hk.2 hlen hr hfew h.versionOk 0
  obtain ⟨d', hout⟩ := handleSampleDef_outcome 0 (wrap32 k) (nameFrom none intentions) s.bytes
    (d.withReader r')
  rw [hdef, hout, hname] at hrun
  have hmatch : (d.withReader r').defMatch (some name) s.bytes = some (s.index : Int) :=
    h.find? hcs
  have hoc := congrArg Prod.fst hrun
  simp only [Decoder.sampleDefOutcome, hmatch] at hoc
  have := wrap32_neg hk
  split at hoc
  · rw [namedOutcome_eq_ok] at hoc
    omega
  · cases hoc

/-- A sample with such an id is skipped, and its result is the negative id. -/
theorem receive_sample_negative {body : List UInt8} {r : Reader φ}
    (hk : 2 ^ 31 ≤ k ∧ k < 2 ^ 32) (hbody : body.length < 2 ^ 31)
    (hr : Arrives (.sample k body) r) (hv : d.versionOk = true) (uninit : Int) :
    ∃ r', (DecoderEvent.receive (.sample k body) r uninit).function.run d =
        (.ok (wrap32 k), d.withReader r') := by
  obtain ⟨h0, rest, hu⟩ := hr
  have hread : (d.withReader r).reader.unread =
      packed32 k ++ packed32 body.length ++ (body ++ rest) := by
    show r.unread = _
    rw [hu, Packet.bytes, counted]
    simp only [List.append_assoc, Packet.tag, Packet.body]
  obtain ⟨r', hrun, hr0, hru⟩ := doDecodeOne_header_wrap uninit hk.2 hbody h0 hread
  obtain ⟨r'', hskip, _, _⟩ := onReader_reads (d := d.withReader r')
    (readerSkip_parses (wrap32 k) body rfl) hr0 hru
  refine ⟨r'', ?_⟩
  -- the id is below every tag that is looked for
  have hneg := wrap32_neg hk
  have htags : (LABCOMM_VERSION : Int) = 1 ∧ (LABCOMM_SAMPLE_DEF : Int) = 2 ∧
    (LABCOMM_SAMPLE_REF : Int) = 3 ∧ (LABCOMM_TYPE_DEF : Int) = 4 ∧
    (LABCOMM_TYPE_BINDING : Int) = 5 ∧ (LABCOMM_PRAGMA : Int) = 63 ∧
    (LABCOMM_USER : Int) = 64 := by decide
  obtain ⟨t1, t2, t3, t4, t5, t6, t7⟩ := htags
  rw [decodeBody_accepted (d := (d.withReader r).withReader r') hv (by omega), if_neg (by omega),
    if_neg (by omega), if_neg (by omega), if_neg (by omega), if_neg (by omega),
    if_pos (by omega)] at hrun
  exact hrun.trans hskip

/-- **A user id that there is room for is dispatched if and only if an `int` can hold it.** -/
theorem userId_dispatched_iff (h : d.Offers s type handler)
    (hk : LABCOMM_USER ≤ k ∧ k < 2 ^ 32)
    (hroom : φ.HasEntry .remoteToLocal d.remoteToLocal (wrap32 k))
    (hnames : Names intentions s) (hfew : intentions.length < 128)
    (hlen : (definitionBytes k intentions s.bytes).length < 2 ^ 31) :
    d.Dispatched s type handler k intentions ↔ k < 2 ^ 31 := by
  constructor
  · intro hdispatched
    by_contra hhigh
    exact h.not_dispatched ⟨by omega, hk.2⟩ hnames hfew hlen hdispatched
  · intro hlow
    rw [wrap32_natCast hlow] at hroom
    exact h.dispatched ⟨hk.1, hlow⟩ hroom hnames hfew hlen

/-- The `int` that is registered. -/
theorem intDecoder_offers : (intDecoder endOfFile).Offers intSignature (.prim .int) ⟨1, 0⟩ :=
  ⟨rfl, ⟨by decide, by decide⟩, by rfl, by rfl, by decide, by decide⟩

theorem intSignature_names : Names [nameIntention [97]] intSignature := ⟨[97], rfl, rfl⟩

/-- The id 0x41 is dispatched, and the last id is not. -/
theorem userId_dispatched_int :
    (intDecoder endOfFile).Dispatched intSignature (.prim .int) ⟨1, 0⟩ 0x41
        [nameIntention [97]] ∧
      ¬ (intDecoder endOfFile).Dispatched intSignature (.prim .int) ⟨1, 0⟩ 0xffffffff
        [nameIntention [97]] := by
  constructor
  · exact (userId_dispatched_iff intDecoder_offers (by decide) (by decide) intSignature_names (by decide)
      (by decide)).mpr (by decide)
  · intro h
    have := (userId_dispatched_iff intDecoder_offers (by decide) (by decide) intSignature_names (by decide)
      (by decide)).mp h
    exact absurd this (by decide)

/-- Every id of the documented range that there is room for is dispatched. -/
def UserIdsDispatched : Prop :=
  ∀ (φ : Host) (d : Decoder φ) s type handler, d.Offers s type handler →
    ∀ k intentions, LABCOMM_USER ≤ k ∧ k < 2 ^ 32 →
      φ.HasEntry .remoteToLocal d.remoteToLocal (wrap32 k) → Names intentions s →
      d.Dispatched s type handler k intentions

/-- The id 0x80000000 is not. -/
theorem not_userIdsDispatched : ¬ UserIdsDispatched := by
  intro h
  have hdispatched := h _ _ _ _ _ intDecoder_offers 0x80000000 _ (by decide) (by decide)
    intSignature_names
  exact intDecoder_offers.not_dispatched (by decide) intSignature_names (by decide) (by decide)
    hdispatched

end LabComm.C
