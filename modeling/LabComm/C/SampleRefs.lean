import LabComm.C.DecoderRoom
import LabComm.C.EncoderSteps

set_option autoImplicit false

/-! # References to sample types

A decoder binds an index of the sender to a registered signature when the packet that announces
the reference arrives, and gives it back for every later reference with that index. The two tables
it keeps are indexed in different ways, one by local indices and one by those of the sender;
registering a reference clears the entry of the second that has the local index, so a binding of
the same number is lost. In runs where that does not happen, references resolve (`refsResolve`).
-/

namespace LabComm.C

open Library

variable {φ : Host}

/-! ## Frames -/

/-- The tables of the references are the same maps, and the version has been seen or not. -/
structure SameRefs (d d' : Decoder φ) : Prop where
  versionOk : d'.versionOk = d.versionOk
  localRef : ∀ i, d'.localRef.get i = d.localRef.get i
  remoteToLocalRef : ∀ i, d'.remoteToLocalRef.get i = d.remoteToLocalRef.get i

theorem SameRefs.refl (d : Decoder φ) : SameRefs d d := ⟨rfl, fun _ => rfl, fun _ => rfl⟩

theorem SameRefs.trans (d e f : Decoder φ) (h : SameRefs d e) (k : SameRefs e f) :
    SameRefs d f :=
  ⟨k.versionOk.trans h.versionOk, fun i => (k.localRef i).trans (h.localRef i),
    fun i => (k.remoteToLocalRef i).trans (h.remoteToLocalRef i)⟩

theorem SameTables.sameRefs {d d' : Decoder φ} (h : SameTables d d') : SameRefs d d' :=
  ⟨h.versionOk, h.localRef, h.remoteToLocalRef⟩

/-- Whether it returns or not, the program leaves the references alone. -/
abbrev KeepsRefs {α : Type} (m : DecoderM φ α) : Prop := Relates SameRefs m

theorem KeepsRefs.pure {α : Type} (a : α) : KeepsRefs (pure a : DecoderM φ α) :=
  Relates.pure SameRefs.refl a

theorem KeepsRefs.throw {α : Type} (x : DecoderExit) : KeepsRefs (throw x : DecoderM φ α) :=
  Relates.throw SameRefs.refl x

theorem KeepsRefs.get : KeepsRefs (get : DecoderM φ (Decoder φ)) := Relates.get SameRefs.refl

theorem KeepsRefs.bind {α β : Type} {m : DecoderM φ α} {f : α → DecoderM φ β}
    (hm : KeepsRefs m) (hf : ∀ a, KeepsRefs (f a)) : KeepsRefs (m >>= f) :=
  Relates.bind SameRefs.trans hm hf

theorem KeepsTables.keepsRefs {α : Type} {m : DecoderM φ α} (h : KeepsTables m) :
    KeepsRefs m := Relates.mono (fun _ _ => SameTables.sameRefs) h

theorem liftM_keepsRefs {α : Type} (x : Except DecoderExit α) :
    KeepsRefs (liftM x : DecoderM φ α) := by
  cases x with
  | error x => exact .throw x
  | ok a => exact .pure a

theorem freeSignatureName_keepsRefs (name : Option (List UInt8)) (result : Int) :
    KeepsRefs (freeSignatureName name result : DecoderM φ Int) := by
  unfold freeSignatureName
  split
  · exact .throw _
  · exact .pure _

/-- The loop over the sample types touches no reference. -/
theorem handleSampleDefFrom_keepsRefs (remoteIndex : Int) (name : Option (List UInt8))
    (bytes : List UInt8) (result : Int) (indices : List Int) :
    KeepsRefs (handleSampleDefFrom remoteIndex name bytes result indices : DecoderM φ Int) := by
  induction indices generalizing result with
  | nil => exact .pure result
  | cons i indices ih =>
      refine KeepsRefs.get.bind fun d => ?_
      dsimp only
      split
      · exact ih _
      · refine (liftM_keepsRefs _).bind fun same => ?_
        split
        · refine KeepsRefs.get.bind fun d' =>
            KeepsRefs.bind (needEntry_keeps SameRefs.refl _ _ _) fun _ => ?_
          exact KeepsRefs.bind (m := modify _) (fun _ => ⟨rfl, fun _ => rfl, fun _ => rfl⟩)
            fun _ => .pure _
        · exact ih _

theorem decodeSampleDef_keepsRefs (uninit : Int) :
    KeepsRefs (decodeSampleDefOrRef uninit LABCOMM_SAMPLE_DEF : DecoderM φ Int) := by
  refine (onReader_keepsTables _).keepsRefs.bind fun read => ?_
  cases read with
  | error e => exact freeSignatureName_keepsRefs _ _
  | ok read =>
      dsimp only
      rw [if_pos rfl]
      exact (KeepsRefs.get.bind fun d => handleSampleDefFrom_keepsRefs _ _ _ _ _).bind
        fun _ => freeSignatureName_keepsRefs _ _

/-- Only the packet that announces a reference touches the references. -/
theorem decodeBody_keepsRefs {remoteIndex : Int} (hversion : remoteIndex ≠ LABCOMM_VERSION)
    (href : remoteIndex ≠ LABCOMM_SAMPLE_REF) (uninit length : Int) :
    KeepsRefs (decodeBody uninit remoteIndex length : DecoderM φ Int) := by
  unfold decodeBody
  rw [if_neg hversion]
  refine KeepsRefs.get.bind fun d => ?_
  rw [if_neg href]
  repeat' split
  · exact .pure _
  · exact decodeSampleDef_keepsRefs uninit
  · exact (decodeTypePacket_keepsTables _ _).keepsRefs
  · exact (decodeTypePacket_keepsTables _ _).keepsRefs
  · exact (decodePragma_keepsTables _).keepsRefs
  · exact (onReader_keepsTables _).keepsRefs
  · exact (decodeAndHandle_keepsTables _).keepsRefs

/-- A packet that is not a version and announces no reference leaves the references alone. -/
theorem receive_sameRefs {p : Packet} {r : Reader φ} {uninit : Int} {d d' : Decoder φ}
    {result : Except DecoderExit Int} (hwf : p.WellFormed) (harrives : Arrives p r)
    (hversion : p.tag ≠ LABCOMM_VERSION) (href : p.tag ≠ LABCOMM_SAMPLE_REF)
    (hrun : (DecoderEvent.receive p r uninit).function.run d = (result, d')) : SameRefs d d' := by
  obtain ⟨r', rest, hbody, _, _⟩ := receive_header hwf harrives uninit d
  have htag : (p.tag : Int) ≠ LABCOMM_VERSION ∧ (p.tag : Int) ≠ LABCOMM_SAMPLE_REF :=
    ⟨by exact_mod_cast hversion, by exact_mod_cast href⟩
  have hkeeps := decodeBody_keepsRefs htag.1 htag.2 uninit p.body.length (d.withReader r')
  rw [← hbody, hrun] at hkeeps
  exact ⟨hkeeps.versionOk, hkeeps.localRef, hkeeps.remoteToLocalRef⟩

/-! ## The latest announcement -/

/-- What is known of an index of the sender. -/
inductive RefState where
  | never
  | bound (s : Signature)
  /-- It was bound, and its latest announcement matched nothing. -/
  | unmatched

/-- An index is announced, and the announcement matches a signature or not. -/
def RefState.announced : RefState → Option Signature → RefState
  | _, some s => bound s
  | never, none => never
  | _, none => unmatched

/-- The references registered so far, and the state of every index. -/
structure RefDispatch where
  version : Bool
  registered : List Signature
  state : Int → RefState

/-- The registered reference that an announcement matches. -/
def RefDispatch.matching (x : RefDispatch) (name : Option (List UInt8)) (bytes : List UInt8) :
    Option Signature :=
  name.bind fun name => x.registered.find? fun s => s.signature.isSome && SameSignature s name bytes

/-- What an event changes. -/
def RefDispatch.step (x : RefDispatch) : DecoderEvent φ → RefDispatch
  | .registerRef s => { x with registered := s :: x.registered }
  | .receive (.version s) _ _ =>
      { x with version := x.version || decide (cString s = CURRENT_VERSION) }
  | .receive (.sampleRef k intentions signature) _ _ =>
      let matched := x.matching (nameFrom none intentions) signature
      { x with state := Function.update x.state k ((x.state k).announced matched) }
  | _ => x

/-- The references after a list of events. -/
def refsOf (events : List (DecoderEvent φ)) : RefDispatch :=
  events.foldl RefDispatch.step ⟨false, [], fun _ => .never⟩

theorem refsOf_concat (events : List (DecoderEvent φ)) (e : DecoderEvent φ) :
    refsOf (events ++ [e]) = (refsOf events).step e := by
  rw [refsOf, List.foldl_concat]
  rfl

/-- The event announces the index. -/
def DecoderEvent.Announces (k : Int) : DecoderEvent φ → Prop
  | receive (.sampleRef k' _ _) _ _ => (k' : Int) = k
  | _ => False

/-- The event binds the index to a signature that was registered before. -/
def DecoderEvent.Binds (past : List (DecoderEvent φ)) (k : Int) (s : Signature) :
    DecoderEvent φ → Prop
  | receive (.sampleRef k' intentions signature) _ _ =>
      (k' : Int) = k ∧ DecoderEvent.registerRef s ∈ past ∧ s.signature.isSome = true ∧
        ∃ name, nameFrom none intentions = some name ∧ SameSignature s name signature
  | _ => False

/-! ## What a run should do -/

/-- Registrations and announcements of references return. An index resolves to the signature that
its latest announcement bound it to, and to nothing when no announcement ever bound it. A
reference that the encoder of the peer sends as the index it has announced resolves to the
signature the announcement was matched with. -/
structure DecoderStep.RefsResolve (st : DecoderStep φ) : Prop where
  returns : (∃ s, st.call = .registerRef s) ∨ (∃ k, st.call.Announces k) →
    ∃ result, st.result = .ok result
  bound : ∀ k s pre e post, st.past ++ [st.call] = pre ++ e :: post → e.Binds pre k s →
    (∀ e' ∈ post, ¬ e'.Announces k) → st.after.indexToSampleRef k = some s
  never : ∀ k, (∀ s pre e post, st.past ++ [st.call] = pre ++ e :: post → ¬ e.Binds pre k s) →
    st.after.indexToSampleRef k = none
  decodes : ∀ (ω : WriterAction) (encoder : Encoder ω) (s' : Signature), s'.HasIndex →
    encoder.done .sampleRef s'.index = true → ∀ s pre r uninit post,
      st.past ++ [st.call] = pre ++ .receive (definition .sampleRef s') r uninit :: post →
      (DecoderEvent.receive (definition .sampleRef s') r uninit).Binds pre s'.index s →
      (∀ e' ∈ post, ¬ e'.Announces s'.index) →
      encoder.refs.seen st.after.toRef (some s'.index.toNat) = some s.index.toNat

/-- A packet that is received is well formed and has arrived. -/
def DecoderEvent.Arrived : DecoderEvent φ → Prop
  | .receive p r _ => p.WellFormed ∧ Arrives p r
  | _ => True

/-- A registration is not a new one whose local index is, as a number, an index that is bound, and
announcements come after the version and can be compared with what is registered. -/
def RefDispatch.Keeps (x : RefDispatch) : DecoderEvent φ → Prop
  | .registerRef s => s ∈ x.registered ∨ ∀ s', x.state s.index ≠ .bound s'
  | .receive (.sampleRef _ intentions signature) _ _ =>
      x.version = true ∧ intentions.length < 128 ∧ (nameFrom none intentions = none →
        ∀ s ∈ x.registered, s.signature.isSome = true → s.bytes.length ≠ signature.length)
  | _ => True

/-! ## The tables -/

/-- The tables say what is registered and what the indices are bound to. -/
structure RefInv (K : Signature → Prop) (x : RefDispatch) (d : Decoder φ) : Prop where
  version : d.versionOk = x.version
  known : ∀ s ∈ x.registered, K s
  entries : ∀ i s, d.localRef.get i = some s ↔ s ∈ x.registered ∧ s.index = i
  bound : ∀ k s, x.state k = .bound s →
    s ∈ x.registered ∧ d.remoteToLocalRef.get k = s.index
  never : ∀ k, x.state k = .never → d.remoteToLocalRef.get k = 0

section Inv

variable {K : Signature → Prop} {x : RefDispatch} {d : Decoder φ}

theorem RefInv.sameRefs (h : RefInv K x d) {d' : Decoder φ} (hsame : SameRefs d d') :
    RefInv K x d' := by
  constructor
  · exact hsame.versionOk.trans h.version
  · exact h.known
  · intro i s
    rw [hsame.localRef i]
    exact h.entries i s
  · intro k s hk
    rw [hsame.remoteToLocalRef k]
    exact h.bound k s hk
  · intro k hk
    rw [hsame.remoteToLocalRef k]
    exact h.never k hk

/-- An index that is bound resolves. -/
theorem RefInv.resolves (hK : Distinct K) (h : RefInv K x d) {k : Int} {s : Signature}
    (hk : x.state k = .bound s) : d.indexToSampleRef k = some s := by
  obtain ⟨hmem, hindex⟩ := h.bound k s hk
  have huser := (hK.hasIndex s (h.known s hmem)).1
  unfold LABCOMM_USER at huser
  rw [Decoder.indexToSampleRef, hindex, if_pos (by omega)]
  exact (h.entries _ s).mpr ⟨hmem, rfl⟩

/-- An index that was never bound does not. -/
theorem RefInv.unresolved (h : RefInv K x d) {k : Int} (hk : x.state k = .never) :
    d.indexToSampleRef k = none := by
  rw [Decoder.indexToSampleRef, h.never k hk]
  exact if_neg (not_not.mpr rfl)

/-- **The loop finds the registered reference that matches.** -/
theorem RefInv.refMatch (hK : Distinct K) (h : RefInv K x d) (name : Option (List UInt8))
    (bytes : List UInt8) :
    d.refMatch name bytes = (x.matching name bytes).map Signature.index := by
  cases name with
  | none => rfl
  | some name =>
      show d.localRef.indices.find? (d.matchesRef name bytes) =
        (x.registered.find? _).map Signature.index
      -- a match in the table is a match among the references that were registered
      have hmatches : ∀ i, d.matchesRef name bytes i = true ↔ ∃ s ∈ x.registered, s.index = i ∧
          (s.signature.isSome && SameSignature s name bytes) = true := by
        intro i
        rw [Decoder.matchesRef, Option.any_eq_true]
        constructor
        · rintro ⟨s, hs, hsame⟩
          obtain ⟨hmem, hindex⟩ := (h.entries i s).mp hs
          exact ⟨s, hmem, hindex, hsame⟩
        · rintro ⟨s, hmem, hindex, hsame⟩
          exact ⟨s, (h.entries i s).mpr ⟨hmem, hindex⟩, hsame⟩
      cases hfind : x.registered.find? fun s => s.signature.isSome &&
          decide (SameSignature s name bytes) with
      | none =>
          rw [Option.map_none, List.find?_eq_none]
          intro i _ hi
          obtain ⟨s, hmem, _, hsame⟩ := (hmatches i).mp hi
          exact List.find?_eq_none.mp hfind s hmem hsame
      | some s =>
          have hmem := List.mem_of_find?_eq_some hfind
          have hsame := List.find?_some hfind
          rw [Option.map_some]
          apply SigArray.find?_indices
          · apply SigArray.mem_indices_of_ne
            rw [(h.entries s.index s).mpr ⟨hmem, rfl⟩]
            simp [default]
          · exact (hmatches _).mpr ⟨s, hmem, rfl, hsame⟩
          · -- two references that match have the same name and signature, hence the same index
            intro i hi
            obtain ⟨s', hmem', rfl, hsame'⟩ := (hmatches i).mp hi
            rw [Bool.and_eq_true, decide_eq_true_eq] at hsame hsame'
            rw [hK.content s' s (h.known _ hmem') (h.known _ hmem)
              ⟨hsame'.2.1.trans hsame.2.1.symm, hsame'.2.2.trans hsame.2.2.symm⟩]

/-- **A registration that clears no binding keeps the references.** -/
theorem RefInv.registerRef (hK : Distinct K) (h : RefInv K x d) {s : Signature} (hs : K s)
    (hkeeps : s ∈ x.registered ∨ ∀ s', x.state s.index ≠ .bound s') :
    RefInv K { x with registered := s :: x.registered } (d.registerRef s) := by
  have hknown : ∀ s' ∈ s :: x.registered, K s' := by
    intro s' hs'
    rcases List.mem_cons.mp hs' with rfl | hs'
    · exact hs
    · exact h.known s' hs'
  unfold Decoder.registerRef
  by_cases hold : (d.localRef.get s.index).isSome = true
  · -- the entry is that of the same signature
    obtain ⟨s', hs'⟩ := Option.isSome_iff_exists.mp hold
    obtain ⟨hmem', hindex'⟩ := (h.entries _ s').mp hs'
    have hmem : s ∈ x.registered := by
      rwa [← hK.index s' s (h.known _ hmem') hs hindex']
    rw [if_pos hold]
    refine ⟨h.version, hknown, ?_, ?_, h.never⟩
    · intro i t
      rw [h.entries, List.mem_cons]
      constructor
      · exact fun ht => ⟨Or.inr ht.1, ht.2⟩
      · rintro ⟨rfl | ht, hi⟩
        · exact ⟨hmem, hi⟩
        · exact ⟨ht, hi⟩
    · intro k t ht
      exact ⟨List.mem_cons_of_mem _ (h.bound k t ht).1, (h.bound k t ht).2⟩
  · rw [if_neg hold]
    have hnone : d.localRef.get s.index = none := by simpa using hold
    have hfresh : s ∉ x.registered := by
      intro hmem
      rw [(h.entries s.index s).mpr ⟨hmem, rfl⟩] at hnone
      exact absurd hnone (by simp)
    -- a first registration is of an index that no binding has
    have hclear := hkeeps.resolve_left hfresh
    refine ⟨h.version, hknown, ?_, ?_, ?_⟩
    · intro i t
      simp only [SigArray.get_set, List.mem_cons]
      by_cases hi : i = s.index
      · rw [if_pos hi]
        constructor
        · intro ht
          cases ht
          exact ⟨Or.inl rfl, hi.symm⟩
        · rintro ⟨rfl | ht, hti⟩
          · rfl
          · exact absurd ((h.entries _ t).mpr ⟨ht, hti.trans hi⟩) (by rw [hnone]; simp)
      · rw [if_neg hi, h.entries]
        constructor
        · exact fun ht => ⟨Or.inr ht.1, ht.2⟩
        · rintro ⟨rfl | ht, hti⟩
          · exact absurd hti.symm hi
          · exact ⟨ht, hti⟩
    · intro k t ht
      have hk : k ≠ s.index := by
        rintro rfl
        exact hclear t ht
      simp only [SigArray.get_set_ne _ hk]
      exact ⟨List.mem_cons_of_mem _ (h.bound k t ht).1, (h.bound k t ht).2⟩
    · intro k hk
      simp only [SigArray.get_set]
      split
      · rfl
      · exact h.never k hk

/-- An announcement binds its index when it matches. -/
theorem RefInv.announced (hK : Distinct K) (h : RefInv K x d) (k : Int)
    (name : Option (List UInt8)) (bytes : List UInt8) :
    RefInv K { x with state :=
        Function.update x.state k ((x.state k).announced (x.matching name bytes)) }
      (match d.refMatch name bytes with
        | some i => d.bindRef k i
        | none => d) := by
  rw [h.refMatch hK]
  -- without a match the tables stay, and no index becomes bound
  cases hmatch : x.matching name bytes with
  | none =>
      refine ⟨h.version, h.known, h.entries, ?_, ?_⟩
      · intro k' s hs
        simp only [Function.update_apply] at hs
        split at hs
        · cases hstate : x.state k <;> rw [hstate] at hs <;> cases hs
        · exact h.bound k' s hs
      · intro k' hk'
        simp only [Function.update_apply] at hk'
        split at hk'
        · rename_i heq
          cases hstate : x.state k with
          | never => exact heq ▸ h.never k hstate
          | bound s => rw [hstate] at hk'; cases hk'
          | unmatched => rw [hstate] at hk'; cases hk'
        · exact h.never k' hk'
  | some s =>
      have hmem : s ∈ x.registered := by
        obtain ⟨name, _, hfind⟩ := Option.bind_eq_some_iff.mp hmatch
        exact List.mem_of_find?_eq_some hfind
      refine ⟨h.version, h.known, h.entries, ?_, ?_⟩
      · intro k' t ht
        simp only [Function.update_apply] at ht
        show t ∈ x.registered ∧ (d.remoteToLocalRef.set k s.index).get k' = t.index
        rw [SigArray.get_set]
        split at ht
        · rename_i heq
          have hst : s = t := by
            cases hstate : x.state k <;> rw [hstate] at ht <;> cases ht <;> rfl
          rw [if_pos heq, ← hst]
          exact ⟨hmem, rfl⟩
        · rename_i heq
          rw [if_neg heq]
          exact h.bound k' t ht
      · intro k' hk'
        simp only [Function.update_apply] at hk'
        show (d.remoteToLocalRef.set k s.index).get k' = 0
        split at hk'
        · cases hstate : x.state k <;> rw [hstate] at hk' <;> cases hk'
        · rename_i heq
          rw [SigArray.get_set_ne _ heq]
          exact h.never k' hk'

end Inv

/-! ## The history -/

section History

variable {K : Signature → Prop} {events : List (DecoderEvent φ)}

theorem mem_registered {s : Signature} :
    s ∈ (refsOf events).registered ↔ .registerRef s ∈ events := by
  induction events using List.reverseRecOn with
  | nil => simp [refsOf]
  | append_singleton events e ih =>
      rw [refsOf_concat, List.mem_append, List.mem_singleton, ← ih]
      cases e with
      | registerRef s' => simp [RefDispatch.step, or_comm]
      | registerSample | registerTypeDef | registerTypeBinding => simp [RefDispatch.step]
      | receive p r uninit => cases p <;> simp [RefDispatch.step]

/-- What is announced matches the signature it is bound to, which is the only one. -/
theorem matching_of_same (hK : Distinct K) (hevents : ∀ s, .registerRef s ∈ events → K s)
    {s : Signature} (hs : .registerRef s ∈ events) (hflat : s.signature.isSome = true)
    {name bytes : List UInt8} (hsame : SameSignature s name bytes) :
    (refsOf events).matching (some name) bytes = some s := by
  have hmem := mem_registered.mpr hs
  rw [RefDispatch.matching, Option.bind_some]
  cases hfind : (refsOf events).registered.find? fun s =>
      s.signature.isSome && decide (SameSignature s name bytes) with
  | none =>
      have hno := List.find?_eq_none.mp hfind s hmem
      exact absurd (by rw [hflat, decide_eq_true hsame]; rfl) hno
  | some t =>
      have ht := List.find?_some hfind
      rw [Bool.and_eq_true, decide_eq_true_eq] at ht
      have htmem := mem_registered.mp (List.mem_of_find?_eq_some hfind)
      rw [hK.content t s (hevents t htmem) (hevents s hs)
        ⟨ht.2.1.trans hsame.1.symm, ht.2.2.trans hsame.2.symm⟩]

/-- An event that does not announce the index leaves its state alone. -/
theorem state_step {k : Int} {e : DecoderEvent φ} (h : ¬ e.Announces k) (x : RefDispatch) :
    (x.step e).state k = x.state k := by
  cases e with
  | registerRef | registerSample | registerTypeDef | registerTypeBinding => rfl
  | receive p r uninit =>
      cases p with
      | sampleRef k' intentions signature =>
          exact Function.update_of_ne (fun heq => h heq.symm) _ _
      | version | sampleDef | typeDef | typeBinding | pragma | sample => rfl

/-- What the latest announcement bound is bound. -/
theorem state_of_binds (hK : Distinct K) (hevents : ∀ s, .registerRef s ∈ events → K s)
    {k : Int} {s : Signature} {pre post : List (DecoderEvent φ)} {e : DecoderEvent φ}
    (hsplit : events = pre ++ e :: post) (hbinds : e.Binds pre k s)
    (hlast : ∀ e' ∈ post, ¬ e'.Announces k) : (refsOf events).state k = .bound s := by
  subst hsplit
  induction post using List.reverseRecOn with
  | nil =>
      rw [refsOf_concat]
      cases e with
      | registerRef | registerSample | registerTypeDef | registerTypeBinding => exact hbinds.elim
      | receive p r uninit =>
          cases p with
          | version | sampleDef | typeDef | typeBinding | pragma | sample => exact hbinds.elim
          | sampleRef k' intentions signature =>
              obtain ⟨rfl, hreg, hflat, name, hname, hsame⟩ := hbinds
              have hmatch := matching_of_same hK
                (fun t ht => hevents t (List.mem_append_left _ ht)) hreg hflat hsame
              rw [RefDispatch.step, hname, hmatch]
              simp [RefState.announced]
  | append_singleton post e' ih =>
      have heq : pre ++ e :: (post ++ [e']) = (pre ++ e :: post) ++ [e'] := by simp
      rw [heq] at hevents ⊢
      rw [refsOf_concat, state_step (hlast e' (by simp))]
      exact ih (fun e'' he => hlast e'' (List.mem_append_left _ he))
        fun t ht => hevents t (List.mem_append_left _ ht)

/-- What no announcement ever bound is not bound. -/
theorem state_never {k : Int}
    (hnone : ∀ s pre e post, events = pre ++ e :: post → ¬ e.Binds pre k s) :
    (refsOf events).state k = .never := by
  induction events using List.reverseRecOn with
  | nil => rfl
  | append_singleton events e ih =>
      have hold := ih fun s pre e' post h =>
        hnone s pre e' (post ++ [e]) (by rw [h]; simp)
      rw [refsOf_concat]
      by_cases hk : e.Announces k
      · cases e with
        | registerRef | registerSample | registerTypeDef | registerTypeBinding => exact hk.elim
        | receive p r uninit =>
            cases p with
            | version | sampleDef | typeDef | typeBinding | pragma | sample => exact hk.elim
            | sampleRef k' intentions signature =>
                have hkk : (k' : Int) = k := hk
                subst hkk
                rw [RefDispatch.step]
                cases hmatch : (refsOf events).matching (nameFrom none intentions) signature with
                | none => simp [hold, RefState.announced]
                | some s =>
                    -- the announcement would have bound the index
                    obtain ⟨name, hname, hfind⟩ := Option.bind_eq_some_iff.mp hmatch
                    have hsame := List.find?_some hfind
                    rw [Bool.and_eq_true, decide_eq_true_eq] at hsame
                    exact absurd ⟨rfl, mem_registered.mp (List.mem_of_find?_eq_some hfind),
                      hsame.1, name, hname, hsame.2⟩ (hnone s events _ [] rfl)
      · rw [state_step hk, hold]

end History

/-! ## Runs -/

theorem decoderNew_refInv (K : Signature → Prop) (r : Reader φ) :
    RefInv K (refsOf (φ := φ) []) (decoderNew r) := by
  constructor
  · rfl
  · simp [refsOf]
  · intro i s
    show (SigArray.init : SigArray (Option Signature)).get i = some s ↔ _
    rw [SigArray.get_init]
    simp [refsOf, default]
  · intro k s hs
    exact absurd hs (by simp [refsOf])
  · intro k _
    show (SigArray.init : SigArray Int).get k = 0
    rw [SigArray.get_init]
    rfl

/-- **Every event keeps the references**, and registrations and announcements return. -/
theorem RefInv.step {K : Signature → Prop} (hK : Distinct K) {st : DecoderStep φ}
    (hran : st.Ran DecoderEvent.function) (hreg : ∀ s, st.call.Registers s → K s)
    (harr : st.call.Arrived) (hkeeps : (refsOf st.past).Keeps st.call)
    (hroom : st.before.Room st.call) (h : RefInv K (refsOf st.past) st.before) :
    RefInv K (refsOf (st.past ++ [st.call])) st.after ∧
      ((∃ s, st.call = .registerRef s) ∨ (∃ k, st.call.Announces k) →
        ∃ result, st.result = .ok result) := by
  obtain ⟨past, d, call, result, after⟩ := st
  rw [refsOf_concat]
  dsimp only [Step.Ran] at *
  generalize refsOf past = x at *
  cases call with
  | registerSample s type handler =>
      cases hran.symm.trans (doRegisterSample_run (hK.hasIndex s (hreg s rfl)) type handler hroom)
      exact ⟨h.sameRefs ⟨rfl, fun _ => rfl, fun _ => rfl⟩, fun _ => ⟨_, rfl⟩⟩
  | registerTypeDef handler =>
      cases hran.symm.trans (registerTag_run _ handler hroom)
      exact ⟨h.sameRefs ⟨rfl, fun _ => rfl, fun _ => rfl⟩, fun _ => ⟨_, rfl⟩⟩
  | registerTypeBinding handler =>
      cases hran.symm.trans (registerTag_run _ handler hroom)
      exact ⟨h.sameRefs ⟨rfl, fun _ => rfl, fun _ => rfl⟩, fun _ => ⟨_, rfl⟩⟩
  | registerRef s =>
      cases hran.symm.trans (doRefRegisterDecoder_run (hK.hasIndex s (hreg s rfl)) hroom)
      exact ⟨h.registerRef hK (hreg s rfl) hkeeps, fun _ => ⟨_, rfl⟩⟩
  | receive p r uninit =>
      obtain ⟨hwf, harrives⟩ := harr
      cases p with
      | sampleRef k intentions signature =>
          have hcompares : d.Compares intentions signature :=
            ⟨hkeeps.2.1, fun hname i s hs => hkeeps.2.2 hname s ((h.entries i s).mp hs).1⟩
          have hv := h.version.trans hkeeps.1
          obtain ⟨result', r', hrun⟩ := receive_sampleRef_compared hwf harrives hcompares hv
            (hroom.sampleRef hwf harrives hv rfl hkeeps.2.1) uninit
          cases hran.symm.trans hrun
          have h' : RefInv K x (d.withReader r') := h.sameRefs ⟨rfl, fun _ => rfl, fun _ => rfl⟩
          exact ⟨h'.announced hK k (nameFrom none intentions) signature, fun _ => ⟨_, rfl⟩⟩
      | version s =>
          obtain ⟨result', d', hrun, hsame, _⟩ := receive_version hwf harrives uninit d
          cases hran.symm.trans hrun
          refine ⟨RefInv.sameRefs ?_ hsame.sameRefs, fun _ => ⟨_, rfl⟩⟩
          refine ⟨?_, h.known, h.entries, h.bound, h.never⟩
          show (d.versionOk || _) = (x.version || _)
          rw [h.version]
      | sample k body =>
          have huser : LABCOMM_USER ≤ k := hwf.ids.1
          have htags : k ≠ LABCOMM_VERSION ∧ k ≠ LABCOMM_SAMPLE_REF := by
            unfold LABCOMM_USER at huser
            unfold LABCOMM_VERSION LABCOMM_SAMPLE_REF
            omega
          refine ⟨h.sameRefs (receive_sameRefs hwf harrives htags.1 htags.2 hran), ?_⟩
          rintro (⟨s, hs⟩ | ⟨k, hk⟩)
          · cases hs
          · exact hk.elim
      | sampleDef | typeDef | typeBinding | pragma =>
          refine ⟨h.sameRefs (receive_sameRefs hwf harrives (by simp only [Packet.tag]; decide)
            (by simp only [Packet.tag]; decide) hran), ?_⟩
          rintro (⟨s, hs⟩ | ⟨k, hk⟩)
          · cases hs
          · exact hk.elim

/-- What the tables say is what the step should leave. -/
theorem RefInv.stepResolves {K : Signature → Prop} (hK : Distinct K) {st : DecoderStep φ}
    (hran : st.Ran DecoderEvent.function)
    (hreg : ∀ s, Registered (st.past ++ [st.call]) s → K s) (harr : st.call.Arrived)
    (hkeeps : (refsOf st.past).Keeps st.call) (hroom : st.before.Room st.call)
    (h : RefInv K (refsOf st.past) st.before) : st.RefsResolve := by
  have hcall : ∀ s, st.call.Registers s → K s := fun s hs =>
    hreg s ⟨st.call, List.mem_append_right _ List.mem_cons_self, hs⟩
  have hall : ∀ s, .registerRef s ∈ st.past ++ [st.call] → K s := fun s hs =>
    hreg s ⟨_, hs, rfl⟩
  obtain ⟨hafter, hreturns⟩ := h.step hK hran hcall harr hkeeps hroom
  refine ⟨hreturns, ?_, ?_, ?_⟩
  · intro k s pre e post hsplit hbinds hlast
    exact hafter.resolves hK (state_of_binds hK hall hsplit hbinds hlast)
  · intro k hnone
    exact hafter.unresolved (state_never hnone)
  · intro ω encoder s' hs' hdone s pre r uninit post hsplit hbinds hlast
    have hresolves := hafter.resolves hK (state_of_binds hK hall hsplit hbinds hlast)
    obtain ⟨h0, h1⟩ := hs'
    unfold LABCOMM_USER at h0
    have hindex : ((s'.index.toNat : Nat) : Int) = s'.index := by omega
    have hsent : encoder.refs.toIndex (some s'.index.toNat) = s'.index := by
      show (if encoder.sampleRef.get ((s'.index.toNat : Nat) : Int) then
        ((s'.index.toNat : Nat) : Int) else 0) = s'.index
      rw [hindex]
      exact if_pos hdone
    rw [RefTables.seen, hsent, wrap32_toUnsigned (by omega) (by omega), Decoder.toRef, hresolves]
    rfl

section Run

variable {r : Reader φ} {events : List (DecoderEvent φ)}

theorem registered_of_prefix {past post : List (DecoderEvent φ)} {e : DecoderEvent φ}
    (h : events = past ++ e :: post) {s : Signature} (hs : Registered (past ++ [e]) s) :
    Registered events s := by
  obtain ⟨e', he', hs'⟩ := hs
  refine ⟨e', ?_, hs'⟩
  rw [h]
  rcases List.mem_append.mp he' with he' | he'
  · exact List.mem_append_left _ he'
  · rw [List.mem_singleton.mp he']
    exact List.mem_append_right _ List.mem_cons_self

/-- **In a run of a new decoder where no registration clears a binding, references resolve.** -/
theorem refsResolve (hdistinct : Distinct (Registered events))
    (harrived : ∀ st ∈ decoderSteps r events, st.call.Arrived)
    (hkeeps : ∀ st ∈ decoderSteps r events, (refsOf st.past).Keeps st.call)
    (hroom : ∀ st ∈ decoderSteps r events, st.before.Room st.call) :
    ∀ st ∈ decoderSteps r events, st.RefsResolve := by
  have hinv := trace_inv
    (I := fun past d => RefInv (Registered events) (refsOf past) d)
    (M := fun st => (∀ s, st.call.Registers s → Registered events s) ∧
      st.call.Arrived ∧ (refsOf st.past).Keeps st.call ∧ st.before.Room st.call)
    (fun _ _ hran _ hmeets h =>
      (h.step hdistinct hran hmeets.1 hmeets.2.1 hmeets.2.2.1 hmeets.2.2.2).1)
    (decoderNew_refInv _ r)
    (fun st hst => ⟨fun _ hs => ⟨st.call, call_mem_of_mem_trace hst, hs⟩, harrived st hst,
      hkeeps st hst, hroom st hst⟩)
  intro st hst
  obtain ⟨post, hpost⟩ := split_of_mem_trace hst
  exact (hinv st hst).stepResolves hdistinct (ran_of_mem_trace hst)
    (fun _ hs => registered_of_prefix hpost hs) (harrived st hst) (hkeeps st hst)
    (hroom st hst)

/-- **A new registration clears a binding of the same number.** The events are registrations of
references, announcements and versions, so that all of them return. -/
theorem not_refsResolve_of_clears {s s' : Signature}
    (hdistinct : Distinct (Registered (events ++ [.registerRef s])))
    (hreturns : ∀ e ∈ events, (∃ t, e = .registerRef t) ∨ (∃ k, e.Announces k) ∨
      ∃ v r uninit, e = .receive (.version v) r uninit)
    (harrived : ∀ st ∈ decoderSteps r events, st.call.Arrived)
    (hkeeps : ∀ st ∈ decoderSteps r events, (refsOf st.past).Keeps st.call)
    (hroom : ∀ st ∈ decoderSteps r events, st.before.Room st.call)
    (hnew : DecoderEvent.registerRef s ∉ events) {pre post : List (DecoderEvent φ)}
    {e : DecoderEvent φ} (hsplit : events = pre ++ e :: post) (hbinds : e.Binds pre s.index s')
    (hlast : ∀ e' ∈ post, ¬ e'.Announces s.index) :
    ¬ ∀ st ∈ decoderSteps r (events ++ [.registerRef s]), st.RefsResolve := by
  intro hall
  have hold : ∀ {t}, Registered events t → Registered (events ++ [.registerRef s]) t := by
    rintro t ⟨e, he, ht⟩
    exact ⟨e, List.mem_append_left _ he, ht⟩
  have hs : Registered (events ++ [.registerRef s]) s :=
    ⟨.registerRef s, List.mem_append_right _ List.mem_cons_self, rfl⟩
  obtain ⟨d, hinv, hmore⟩ := traceFrom_append
    (I := fun past d => RefInv (Registered (events ++ [.registerRef s])) (refsOf past) d)
    (M := fun st => st.call ∈ events ∧ st.call.Arrived ∧ (refsOf st.past).Keeps st.call ∧
      st.before.Room st.call)
    (fun st hran hmeets h => by
      have hreg : ∀ t, st.call.Registers t → Registered (events ++ [.registerRef s]) t :=
        fun _ ht => hold ⟨st.call, hmeets.1, ht⟩
      obtain ⟨hafter, hok⟩ :=
        h.step hdistinct hran hreg hmeets.2.1 hmeets.2.2.1 hmeets.2.2.2
      refine ⟨?_, hafter⟩
      rcases hreturns st.call hmeets.1 with hcall | hcall | ⟨v, r, uninit, hcall⟩
      · exact hok (Or.inl hcall)
      · exact hok (Or.inr hcall)
      · have harr := hmeets.2.1
        rw [hcall] at harr
        unfold Step.Ran at hran
        rw [hcall] at hran
        obtain ⟨result, d', hrun, _⟩ := receive_version harr.1 harr.2 uninit st.before
        exact ⟨result, congrArg Prod.fst (hran.symm.trans hrun)⟩)
    (decoderNew_refInv _ r)
    (fun st hst => ⟨call_mem_of_mem_trace hst, harrived st hst, hkeeps st hst, hroom st hst⟩)
    [.registerRef s]
  have hentry : d.RoomForRef s.index := by
    by_contra hlost
    obtain ⟨result, hresult⟩ := (hall _ (hmore _ List.mem_cons_self)).returns (.inl ⟨s, rfl⟩)
    have herror : ((DecoderEvent.registerRef s).function.run d).1 = .error .lostTable :=
      doRefRegisterDecoder_lost (hdistinct.hasIndex s hs) hlost
    cases herror.symm.trans hresult
  have hrun : (DecoderEvent.registerRef s).function.run d = (.ok s.index, d.registerRef s) :=
    doRefRegisterDecoder_run (hdistinct.hasIndex s hs) hentry
  have hresolves := (hall _ (hmore _ List.mem_cons_self)).bound s.index s' pre e
    (post ++ [.registerRef s]) (by rw [hsplit]; simp) hbinds (by
      intro e' he'
      rcases List.mem_append.mp he' with he' | he'
      · exact hlast e' he'
      · rw [List.mem_singleton.mp he']
        exact id)
  -- the entry of the bound index is the one that is cleared
  have hnone : d.localRef.get s.index = none := by
    cases hget : d.localRef.get s.index with
    | none => rfl
    | some t =>
        obtain ⟨hmem, hindex⟩ := (hinv.entries _ t).mp hget
        have ht := mem_registered.mp hmem
        rw [hdistinct.index t s (hinv.known t hmem) hs hindex] at ht
        exact absurd ht hnew
  rw [hrun, Decoder.registerRef, if_neg (by rw [hnone]; simp), Decoder.indexToSampleRef] at hresolves
  simp only [SigArray.get_set_self] at hresolves
  exact absurd hresolves (by simp)

end Run

/-! ## Two references -/

/-- The announcement of the reference to `intSignature` as index `k`. -/
def intAnnouncement (k : Nat) : Packet := .sampleRef k [nameIntention [97]] [0x23]

/-- A reference is registered and announced as index `k`. -/
def refEvents (k : Nat) : List (DecoderEvent φ) :=
  [.registerRef intSignature, arrival currentVersion, arrival (intAnnouncement k)]

theorem refEvents_distinct (k : Nat) :
    Distinct (Registered (refEvents (φ := φ) k ++ [.registerRef byteSignature])) := by
  have honly : ∀ s, Registered (refEvents (φ := φ) k ++ [.registerRef byteSignature]) s →
      s = intSignature ∨ s = byteSignature := by
    rintro s ⟨e, he, hs⟩
    simp only [refEvents, arrival, List.mem_append, List.mem_cons, List.not_mem_nil,
      or_false] at he
    rcases he with (rfl | rfl | rfl) | rfl
    · exact Or.inl hs.symm
    · exact hs.elim
    · exact hs.elim
    · exact Or.inr hs.symm
  constructor
  · intro s hs
    rcases honly s hs with rfl | rfl
    · exact ⟨by decide, by decide⟩
    · exact ⟨by decide, by decide⟩
  · intro s s' hs hs' heq
    rcases honly s hs with rfl | rfl <;> rcases honly s' hs' with rfl | rfl
    · rfl
    · exact absurd heq (by decide)
    · exact absurd heq (by decide)
    · rfl
  · intro s s' hs hs' hsame
    rcases honly s hs with rfl | rfl <;> rcases honly s' hs' with rfl | rfl
    · rfl
    · exact absurd hsame (by decide)
    · exact absurd hsame (by decide)
    · rfl

theorem intAnnouncement_wellFormed {k : Nat} (hk : k = 0x41 ∨ k = 0x50) :
    (intAnnouncement k).WellFormed := by
  rcases hk with rfl | rfl
  · exact ⟨⟨by decide, by decide⟩, by decide⟩
  · exact ⟨⟨by decide, by decide⟩, by decide⟩

theorem refEvents_kept {k : Nat} (hk : k = 0x41 ∨ k = 0x50) :
    Justified (fun past e => e.Arrived ∧ (refsOf past).Keeps e) (refEvents (φ := φ) k) := by
  refine Justified.concat (l := [_, _]) (Justified.concat (l := [_]) (Justified.nil.concat
    ⟨trivial, ?_⟩) ⟨?_, trivial⟩) ⟨?_, ?_⟩
  · refine Or.inr fun s' h => ?_
    cases h
  · exact ⟨currentVersion_wellFormed, readerOf_arrives _⟩
  · exact ⟨intAnnouncement_wellFormed hk, readerOf_arrives _⟩
  · refine ⟨rfl, by decide, fun h => ?_⟩
    cases h

theorem refEvents_below {k : Nat} (hk : k = 0x41 ∨ k = 0x50) :
    ∀ e ∈ refEvents (φ := φ) k ++ [.registerRef byteSignature], e.Below 128 := by
  intro e he
  simp only [refEvents, List.mem_append, List.mem_cons, List.not_mem_nil, or_false] at he
  rcases he with (rfl | rfl | rfl) | rfl
  · exact ⟨⟨by decide, by decide⟩, by decide⟩
  · exact arrival_below (by decide) trivial
  · have hlt : k < 128 := by omega
    exact arrival_below (intAnnouncement_wellFormed hk).length ⟨hlt, by decide⟩
  · exact ⟨⟨by decide, by decide⟩, by decide⟩

/-- Index 0x50 is bound, and the reference with local index 0x41 is registered. -/
theorem refsResolve_int :
    (decoderSteps (readerOf (φ := endOfFile) currentVersion)
      (refEvents 0x50 ++ [.registerRef byteSignature])).Forall DecoderStep.RefsResolve := by
  let register : DecoderEvent endOfFile := .registerRef byteSignature
  have hclear : (refsOf (refEvents (φ := endOfFile) 0x50)).Keeps register := by
    refine Or.inr fun s' h => ?_
    cases h
  have hall := (refEvents_kept (Or.inr rfl)).concat (a := register) ⟨trivial, hclear⟩
  exact List.forall_iff_forall_mem.mpr
    (refsResolve (refEvents_distinct 0x50) (fun st hst => (hall.of_mem_trace hst).1)
      (fun st hst => (hall.of_mem_trace hst).2)
      (decoderSteps_room endOfFile_ample _ (refEvents_below (Or.inr rfl))))

/-- Every reference of the run resolves to what its index was bound to. -/
def RunResolvesRefs (events : List (DecoderEvent endOfFile)) : Prop :=
  Distinct (Registered events) → Justified (fun _ e => e.Arrived) events →
    ∀ st ∈ decoderSteps (readerOf currentVersion) events, st.RefsResolve

/-- Index 0x41 is bound, and then the reference with local index 0x41 is registered. -/
theorem not_refsResolve_int :
    ¬ RunResolvesRefs (refEvents 0x41 ++ [.registerRef byteSignature]) := by
  intro hresolves
  have hkept := refEvents_kept (φ := endOfFile) (Or.inl rfl)
  have hbinds : (arrival (φ := endOfFile) (intAnnouncement 0x41)).Binds
      [.registerRef intSignature, arrival currentVersion] byteSignature.index intSignature :=
    ⟨rfl, List.mem_cons_self, rfl, [97], rfl, by decide⟩
  refine not_refsResolve_of_clears (refEvents_distinct 0x41) ?_
    (fun st hst => (hkept.of_mem_trace hst).1) (fun st hst => (hkept.of_mem_trace hst).2)
    (decoderSteps_room endOfFile_ample _ fun e he =>
      refEvents_below (Or.inl rfl) e (List.mem_append_left _ he)) ?_
    (show refEvents 0x41 = [.registerRef intSignature, arrival currentVersion] ++
      arrival (intAnnouncement 0x41) :: [] from rfl)
    hbinds (by simp)
    (hresolves (refEvents_distinct 0x41) ((hkept.mono fun _ _ h => h.1).concat trivial))
  · intro e he
    simp only [refEvents, List.mem_cons, List.not_mem_nil, or_false] at he
    rcases he with rfl | rfl | rfl
    · exact Or.inl ⟨_, rfl⟩
    · exact Or.inr (Or.inr ⟨_, _, _, rfl⟩)
    · exact Or.inr (Or.inl ⟨_, rfl⟩)
  · simp [refEvents, arrival, intSignature, byteSignature]

end LabComm.C
