import LabComm.C.Dispatch

set_option autoImplicit false

/-! # What comes of a definition

The result of `do_decode_one` for a definition depends on a variable that nothing was assigned
to when no sample type, or no reference, is registered, a definition without a name is compared
with the names of the registered ones, and a sample type that is not found ends the process. An
index there is no room for in the tables is stored somewhere else. Everywhere else the result is
the index, or what says that nothing was found (`definition_defined_iff`).
-/

namespace LabComm.C

open Library

variable {φ : Host} {d : Decoder φ} {k : Nat} {intentions : List Intention}
  {name : Option (List UInt8)} {signature : List UInt8}

/-! ## Results -/

/-- Whatever the packet comes from and the uninitialised variable holds, the packet is decoded
with the result. -/
def Decoder.Returns (d : Decoder φ) (p : Packet) (result : Int) : Prop :=
  ∀ r uninit, Arrives p r →
    ∃ d', (DecoderEvent.receive p r uninit).function.run d = (.ok result, d')

/-- What a sample definition is said to result in. -/
def Decoder.sampleDefResult (d : Decoder φ) (k : Nat) (name : Option (List UInt8))
    (signature : List UInt8) : Int :=
  match d.defMatch name signature with
  | some _ => wrap32 k
  | none => -ENOENT

/-- What a sample reference is said to result in. -/
def Decoder.sampleRefResult (d : Decoder φ) (k : Nat) (name : Option (List UInt8))
    (signature : List UInt8) : Int :=
  match d.refMatch name signature with
  | some _ => wrap32 k
  | none => LABCOMM_SAMPLE_REF

/-- A sample type matches, the index is not taken for an error and there is room for it; or there
is no name to compare, and sample types are registered, none of them of the size. -/
def Decoder.DefinesSample (d : Decoder φ) (k : Nat) (name : Option (List UInt8))
    (signature : List UInt8) : Prop :=
  match name with
  | some _ => (d.defMatch name signature).isSome ∧ wrap32 k ≠ -ENOENT ∧
      φ.HasEntry .remoteToLocal d.remoteToLocal (wrap32 k)
  | none => d.locals.indices ≠ [] ∧
      ∀ i s, (d.locals.get i).signature = some s → s.bytes.length ≠ signature.length

/-- References are registered, and where one matches the index is not taken for an error and there
is room for it; or there is no name to compare, and none has the size. -/
def Decoder.DefinesRef (d : Decoder φ) (k : Nat) (name : Option (List UInt8))
    (signature : List UInt8) : Prop :=
  d.localRef.indices ≠ [] ∧
    match name with
    | some _ => (d.refMatch name signature).isSome → wrap32 k ≠ -ENOENT ∧
        φ.HasEntry .remoteToLocalRef d.remoteToLocalRef (wrap32 k)
    | none => ∀ i s, d.localRef.get i = some s → s.signature.isSome = true →
        s.bytes.length ≠ signature.length

/-! ## Outcomes -/

/-- How a definition ends whose loop ended with `result`. -/
def namedOutcome (result : Int) : Except DecoderExit Int :=
  if result = -ENOENT then .error .noRegSignature else .ok result

/-- How a sample definition ends. -/
def Decoder.sampleDefOutcome (d : Decoder φ) (uninit k : Int) (name : Option (List UInt8))
    (signature : List UInt8) : Except DecoderExit Int :=
  match name with
  | some _ =>
      match d.defMatch name signature with
      | some _ =>
          if φ.HasEntry .remoteToLocal d.remoteToLocal k then namedOutcome k
          else .error .lostTable
      | none => namedOutcome (if d.locals.indices = [] then uninit else -ENOENT)
  | none =>
      if d.locals.indices.any fun i => (d.locals.get i).signature.any fun s =>
          s.bytes.length = signature.length then .error .nullName
      else .ok (if d.locals.indices = [] then uninit else -ENOENT)

/-- The result of a sample reference whose loop ended with `result`. -/
def refResult (result : Int) : Int := if result = -ENOENT then LABCOMM_SAMPLE_REF else result

/-- How a sample reference ends. -/
def Decoder.sampleRefOutcome (d : Decoder φ) (uninit k : Int) (name : Option (List UInt8))
    (signature : List UInt8) : Except DecoderExit Int :=
  match name with
  | some _ =>
      match d.refMatch name signature with
      | some _ =>
          if φ.HasEntry .remoteToLocalRef d.remoteToLocalRef k then .ok (refResult k)
          else .error .lostTable
      | none => .ok (refResult (if d.localRef.indices = [] then uninit else -ENOENT))
  | none =>
      if d.localRef.indices.any fun i => (d.localRef.get i).any fun s =>
          s.signature.isSome && decide (s.bytes.length = signature.length) then .error .nullName
      else .ok (refResult (if d.localRef.indices = [] then uninit else -ENOENT))

theorem freeSignatureName_named (name : List UInt8) (result : Int) (d : Decoder φ) :
    (freeSignatureName (some name) result).run d = (namedOutcome result, d) := by
  unfold namedOutcome
  by_cases h : result = -ENOENT
  · rw [freeSignatureName, if_pos ⟨rfl, h⟩, if_pos h]
    rfl
  · rw [freeSignatureName_ok h, if_neg h]

theorem handleSampleDef_outcome (uninit k : Int) (name : Option (List UInt8))
    (signature : List UInt8) (d : Decoder φ) :
    ∃ d', (handleSampleDef uninit ⟨k, name, signature⟩ >>= fun result =>
      freeSignatureName name result).run d = (d.sampleDefOutcome uninit k name signature, d') := by
  unfold Decoder.sampleDefOutcome
  cases name with
  | some n =>
      have hloop := (handleSampleDef_run uninit ⟨k, some n, signature⟩ d).trans
        (handleSampleDefFrom_named k n signature uninit _ _)
      unfold Decoder.defMatch
      simp only [Option.bind_some]
      cases hfind : d.locals.indices.find? (d.matchesDef n signature) with
      | some i =>
          rw [hfind] at hloop
          by_cases hroom : φ.HasEntry .remoteToLocal d.remoteToLocal k
          · rw [run_bind_ok (hloop.trans (matchDef_room hroom i)), freeSignatureName_named]
            exact ⟨_, by simp only [if_pos hroom]; rfl⟩
          · rw [run_bind_error (hloop.trans (if_neg hroom))]
            exact ⟨_, by simp only [if_neg hroom]; rfl⟩
      | none =>
          rw [hfind] at hloop
          rw [run_bind_ok hloop, freeSignatureName_named]
          exact ⟨_, rfl⟩
  | none =>
      have hloop := (handleSampleDef_run uninit ⟨k, none, signature⟩ d).trans
        (handleSampleDefFrom_nameless k signature uninit _ _)
      dsimp only
      split at hloop
      · rename_i hcrash
        rw [run_bind_error hloop, if_pos hcrash]
        exact ⟨_, rfl⟩
      · rename_i hcrash
        rw [run_bind_ok hloop, freeSignatureName_nameless, if_neg hcrash]
        exact ⟨_, rfl⟩

theorem refResult_ne (result : Int) : refResult result ≠ -ENOENT := by
  unfold refResult
  split
  · decide
  · assumption

theorem handleSampleRef_outcome (uninit k : Int) (name : Option (List UInt8))
    (signature : List UInt8) (d : Decoder φ) :
    ∃ d', (handleSampleRef uninit ⟨k, name, signature⟩ >>= fun result =>
      freeSignatureName name (refResult result)).run d =
        (d.sampleRefOutcome uninit k name signature, d') := by
  unfold Decoder.sampleRefOutcome
  cases name with
  | some n =>
      have hloop := (handleSampleRef_run uninit ⟨k, some n, signature⟩ d).trans
        (handleSampleRefFrom_named k n signature uninit _ _)
      unfold Decoder.refMatch
      simp only [Option.bind_some]
      -- the loop stops at the first reference that matches
      cases hfind : d.localRef.indices.find? (d.matchesRef n signature) with
      | some i =>
          rw [hfind] at hloop
          by_cases hroom : φ.HasEntry .remoteToLocalRef d.remoteToLocalRef k
          · rw [run_bind_ok (hloop.trans (matchRef_room hroom i)),
              freeSignatureName_ok (refResult_ne _)]
            exact ⟨_, by simp only [if_pos hroom]; rfl⟩
          · rw [run_bind_error (hloop.trans (if_neg hroom))]
            exact ⟨_, by simp only [if_neg hroom]; rfl⟩
      | none =>
          rw [hfind] at hloop
          rw [run_bind_ok hloop, freeSignatureName_ok (refResult_ne _)]
          exact ⟨_, rfl⟩
  | none =>
      have hloop := (handleSampleRef_run uninit ⟨k, none, signature⟩ d).trans
        (handleSampleRefFrom_nameless_run k signature uninit _ _)
      dsimp only
      split at hloop
      · -- the first reference of that size is compared with the null name
        rename_i hcrash
        rw [run_bind_error hloop, if_pos hcrash]
        exact ⟨_, rfl⟩
      · rename_i hcrash
        rw [run_bind_ok hloop, freeSignatureName_nameless, if_neg hcrash]
        exact ⟨_, rfl⟩

/-! ## When the outcome is the result -/

theorem namedOutcome_eq_ok {result expected : Int} :
    namedOutcome result = .ok expected ↔ result ≠ -ENOENT ∧ result = expected := by
  unfold namedOutcome
  split
  · simp [*]
  · simp [*]

/-- The outcome of a sample definition is the result, whatever the variable holds. -/
theorem sampleDefOutcome_iff (d : Decoder φ) (k : Nat) (name : Option (List UInt8))
    (signature : List UInt8) :
    (∀ uninit, d.sampleDefOutcome uninit (wrap32 k) name signature =
        .ok (d.sampleDefResult k name signature)) ↔ d.DefinesSample k name signature := by
  unfold Decoder.sampleDefOutcome Decoder.sampleDefResult Decoder.DefinesSample
  cases name with
  | some n =>
      dsimp only
      cases hmatch : d.defMatch (some n) signature with
      | some i =>
          -- a match is stored, if there is room
          by_cases hroom : φ.HasEntry .remoteToLocal d.remoteToLocal (wrap32 k)
          · simp [hroom, namedOutcome_eq_ok]
          · simp [hroom]
      | none =>
          simp only [namedOutcome_eq_ok, Option.isSome_none, Bool.false_eq_true, false_and, iff_false, not_forall]
          -- over an empty table the variable may hold 0; otherwise the process ends
          refine ⟨0, ?_⟩
          split
          · exact fun h => absurd h.2 (by decide)
          · exact fun h => h.1 rfl
  | none =>
      have hnone : d.defMatch none signature = none := rfl
      simp only [hnone]
      split
      · rename_i hcrash
        simp only [List.any_eq_true, Option.any_eq_true, decide_eq_true_eq] at hcrash
        obtain ⟨i, _, s, hs, hsize⟩ := hcrash
        -- a signature of that size is compared with the null name
        simp only [reduceCtorEq, forall_const, false_iff, not_and, not_forall]
        exact fun _ => ⟨i, s, hs, not_not.mpr hsize⟩
      · rename_i hcrash
        have hsizes : ∀ i s, (d.locals.get i).signature = some s →
            s.bytes.length ≠ signature.length := by
          intro i s hs hsize
          apply hcrash
          simp only [List.any_eq_true, Option.any_eq_true, decide_eq_true_eq]
          exact ⟨i, mem_indices_of_signature hs, s, hs, hsize⟩
        constructor
        · intro h
          -- over an empty table the variable is returned, and it may hold 0
          refine ⟨fun hnil => ?_, hsizes⟩
          have h0 := h 0
          rw [if_pos hnil, Except.ok.injEq] at h0
          exact absurd h0 (by decide)
        · rintro ⟨hne, _⟩ uninit
          rw [if_neg hne]

theorem refResult_eq (result expected : Int) (h : expected ≠ LABCOMM_SAMPLE_REF) :
    refResult result = expected ↔ result ≠ -ENOENT ∧ result = expected := by
  unfold refResult
  split
  · rename_i hnot
    simp only [hnot, ne_eq, not_true_eq_false, false_and, iff_false]
    exact fun h' => h h'.symm
  · simp [*]

theorem mem_indices_of_ref {s : Signature} {i : Int} (h : d.localRef.get i = some s) :
    i ∈ d.localRef.indices := by
  apply SigArray.mem_indices_of_ne
  rw [h]
  exact Option.some_ne_none s

/-- The outcome of a sample reference is the result, whatever the variable holds. -/
theorem sampleRefOutcome_iff (d : Decoder φ) {k : Nat} (hk : wrap32 k ≠ LABCOMM_SAMPLE_REF)
    (name : Option (List UInt8)) (signature : List UInt8) :
    (∀ uninit, d.sampleRefOutcome uninit (wrap32 k) name signature =
        .ok (d.sampleRefResult k name signature)) ↔ d.DefinesRef k name signature := by
  unfold Decoder.sampleRefOutcome Decoder.sampleRefResult Decoder.DefinesRef
  cases name with
  | some n =>
      dsimp only
      cases hmatch : d.refMatch (some n) signature with
      | some i =>
          -- a match is one in the table
          have hne : d.localRef.indices ≠ [] := by
            have hfind : d.localRef.indices.find? (d.matchesRef n signature) = some i := hmatch
            exact List.ne_nil_of_mem (List.mem_of_find?_eq_some hfind)
          by_cases hroom : φ.HasEntry .remoteToLocalRef d.remoteToLocalRef (wrap32 k)
          · simp [hroom, refResult_eq _ _ hk, hne]
          · simp [hroom]
      | none =>
          simp only [Except.ok.injEq, Option.isSome_none, Bool.false_eq_true, false_implies, and_true]
          constructor
          · intro h hnil
            have h0 := h 0
            rw [if_pos hnil] at h0
            exact absurd h0 (by decide)
          · intro hne uninit
            rw [if_neg hne]
            rfl
  | none =>
      have hnone : d.refMatch none signature = none := rfl
      simp only [hnone]
      split
      · rename_i hcrash
        simp only [List.any_eq_true, Option.any_eq_true, Bool.and_eq_true,
          decide_eq_true_eq] at hcrash
        obtain ⟨i, _, s, hs, hflat, hsize⟩ := hcrash
        simp only [reduceCtorEq, forall_const, false_iff, not_and, not_forall]
        exact fun _ => ⟨i, s, hs, hflat, not_not.mpr hsize⟩
      · rename_i hcrash
        have hsizes : ∀ i s, d.localRef.get i = some s → s.signature.isSome = true →
            s.bytes.length ≠ signature.length := by
          intro i s hs hflat hsize
          apply hcrash
          simp only [List.any_eq_true, Option.any_eq_true, Bool.and_eq_true, decide_eq_true_eq]
          exact ⟨i, mem_indices_of_ref hs, s, hs, hflat, hsize⟩
        constructor
        · intro h
          -- as above, over an empty table
          refine ⟨fun hnil => ?_, hsizes⟩
          have h0 := h 0
          rw [if_pos hnil, Except.ok.injEq] at h0
          exact absurd h0 (by decide)
        · rintro ⟨hne, _⟩ uninit
          rw [if_neg hne]
          rfl

/-! ## Packets -/

/-- What is returned is known from the outcomes. -/
theorem returns_iff {p : Packet} {outcome : Int → Except DecoderExit Int}
    (h : ∀ r uninit, Arrives p r →
      ∃ d', (DecoderEvent.receive p r uninit).function.run d = (outcome uninit, d'))
    (result : Int) : d.Returns p result ↔ ∀ uninit, outcome uninit = .ok result := by
  constructor
  · intro hreturns uninit
    obtain ⟨d', hok⟩ := hreturns _ uninit (readerOf_arrives p)
    obtain ⟨d'', hrun⟩ := h _ uninit (readerOf_arrives p)
    rw [hok] at hrun
    exact (congrArg Prod.fst hrun).symm
  · intro hall r uninit hr
    obtain ⟨d', hrun⟩ := h r uninit hr
    rw [hall uninit] at hrun
    exact ⟨d', hrun⟩

section Reading

variable (hv : d.versionOk = true) (hk : LABCOMM_USER ≤ k ∧ k < 2 ^ 32)
  (hfew : intentions.length < 128)
  (hlen : (definitionBytes k intentions signature).length < 2 ^ 31)

include hv hk hfew hlen

theorem sampleDef_returns_iff :
    d.Returns (.sampleDef k intentions signature)
        (d.sampleDefResult k (nameFrom none intentions) signature) ↔
      d.DefinesSample k (nameFrom none intentions) signature := by
  rw [← sampleDefOutcome_iff]
  apply returns_iff
  intro r uninit hr
  obtain ⟨r', hrun⟩ := receive_sampleDef_wrap hk.2 hlen hr hfew hv uninit
  obtain ⟨d', hout⟩ := handleSampleDef_outcome uninit (wrap32 k) (nameFrom none intentions)
    signature (d.withReader r')
  exact ⟨d', hrun.trans hout⟩

theorem sampleRef_returns_iff :
    d.Returns (.sampleRef k intentions signature)
        (d.sampleRefResult k (nameFrom none intentions) signature) ↔
      d.DefinesRef k (nameFrom none intentions) signature := by
  have hne : wrap32 k ≠ LABCOMM_SAMPLE_REF := by
    have huser : (LABCOMM_USER : Int) ≤ k := by exact_mod_cast hk.1
    have htags : (LABCOMM_USER : Int) = 64 ∧ (LABCOMM_SAMPLE_REF : Int) = 3 := by decide
    by_cases hlow : k < 2 ^ 31
    · rw [wrap32_natCast hlow]
      omega
    · rw [wrap32_natCast_of_ge (by omega) hk.2]
      omega
  rw [← sampleRefOutcome_iff d hne]
  apply returns_iff
  intro r uninit hr
  obtain ⟨r', hrun⟩ := receive_sampleRef_wrap hk.2 hlen hr hfew hv uninit
  obtain ⟨d', hout⟩ := handleSampleRef_outcome uninit (wrap32 k) (nameFrom none intentions)
    signature (d.withReader r')
  exact ⟨d', hrun.trans hout⟩

/-- **The result of a definition is defined** if and only if something is registered, a
definition without a name need not be compared, and a sample type that is named is found and there
is room for its index. -/
theorem definition_defined_iff :
    (d.Returns (.sampleDef k intentions signature)
        (d.sampleDefResult k (nameFrom none intentions) signature) ↔
      d.DefinesSample k (nameFrom none intentions) signature) ∧
    (d.Returns (.sampleRef k intentions signature)
        (d.sampleRefResult k (nameFrom none intentions) signature) ↔
      d.DefinesRef k (nameFrom none intentions) signature) :=
  ⟨sampleDef_returns_iff hv hk hfew hlen, sampleRef_returns_iff hv hk hfew hlen⟩

end Reading

/-- A decoder that has received the version and nothing else. -/
def freshDecoder (φ : Host) : Decoder φ :=
  { decoderNew (readerOf currentVersion) with versionOk := true }

/-- The same with an `int` that is registered. -/
def intDecoder (φ : Host) : Decoder φ :=
  (freshDecoder φ).register intSignature (.prim .int) ⟨1, 0⟩

/-- The definition of the `int` is matched, and there is no reference to match. -/
theorem definition_defined_int :
    (intDecoder endOfFile).Returns (.sampleDef 0x41 [nameIntention [97]] [0x23]) 0x41 ∧
      ¬ (intDecoder endOfFile).Returns (.sampleRef 0x41 [nameIntention [97]] [0x23]) 3 := by
  have h := definition_defined_iff (d := intDecoder endOfFile) (k := 0x41)
    (show (intDecoder endOfFile).versionOk = true from rfl) (by decide)
    (show [nameIntention [97]].length < 128 by decide)
    (show (definitionBytes 0x41 [nameIntention [97]] [0x23]).length < 2 ^ 31 by decide)
  refine ⟨h.1.mpr ⟨by decide, by decide, by decide⟩, fun href => ?_⟩
  exact (h.2.mp href).1 rfl

/-- Every definition is decoded with its result. -/
def DefinitionsDefined : Prop :=
  ∀ (φ : Host) (d : Decoder φ), d.versionOk = true →
    ∀ k intentions signature, LABCOMM_USER ≤ k ∧ k < 2 ^ 32 →
      d.Returns (.sampleDef k intentions signature)
          (d.sampleDefResult k (nameFrom none intentions) signature) ∧
        d.Returns (.sampleRef k intentions signature)
          (d.sampleRefResult k (nameFrom none intentions) signature)

/-- No sample type is registered. -/
theorem not_definitionsDefined : ¬ DefinitionsDefined := by
  intro h
  have hdef := (h endOfFile (freshDecoder endOfFile) rfl 0x41 [nameIntention [97]] [0x23]
    (by decide)).1
  rw [sampleDef_returns_iff rfl (by decide) (by decide) (by decide)] at hdef
  exact absurd hdef.1 (by decide)

end LabComm.C
