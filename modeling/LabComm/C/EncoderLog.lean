import LabComm.C.EncoderSteps
import LabComm.Library.Runs

set_option autoImplicit false

/-! # The log of the encoder

The outcomes of a call as cases, and what the packets sent so far define.
-/

namespace LabComm.C

open Library

variable {ω : WriterAction}

/-! ## Outcomes -/

/-- A registration of the signature in the table is not refused. -/
def Fresh (e : Encoder ω) (table : Table) (s : Signature) : Prop :=
  0 < s.index ∧ e.done table s.index = false

/-- **Everything a registration can do**: refuse, mark without a definition, and define. -/
theorem doRegister_cases (hω : ω.Flushes) (table : Table) (s : Signature) (e : Encoder ω) :
    (¬ Fresh e table s ∧ ∃ r, (doRegister table s).run e = (r, e) ∧ ∀ a, r = .ok a → a = -EINVAL) ∨
    (Fresh e table s ∧ ω.start e.writer.starts ≠ 0 ∧
      (doRegister table s).run e =
        (.ok (if ω.start e.writer.starts = -EALREADY then 0 else ω.start e.writer.starts),
          (e.setDone table s.index).started)) ∨
    (Fresh e table s ∧ ω.start e.writer.starts = 0 ∧ ¬ Definable table s ∧
      (doRegister table s).run e =
        (.error .signatureNotSet, (e.setDone table s.index).started)) ∨
    (Fresh e table s ∧ ω.start e.writer.starts = 0 ∧ Definable table s ∧
      ∃ w : Writer ω, (doRegister table s).run e =
          (.ok 0, { e.setDone table s.index with
            writer := w
            sent := e.sent ++ [⟨definition table s, []⟩] }) ∧
        w.error = 0 ∧ w.starts = e.writer.starts + 1 ∧
        w.written = e.writer.written ++ sentDefinition table s) := by
  by_cases h0 : s.index = 0
  · refine .inl ⟨fun h => absurd h.1 (by omega), _, doRegister_unset table e h0, ?_⟩
    rintro a ⟨⟩
  -- a fresh registration goes on to the writer, any other returns -EINVAL
  by_cases hfresh : Fresh e table s
  · obtain ⟨hpos, hdone⟩ := hfresh
    by_cases hstart : ω.start e.writer.starts = 0
    · by_cases hdef : Definable table s
      · exact .inr (.inr (.inr ⟨⟨hpos, hdone⟩, hstart, hdef,
          doRegister_sends hω hpos hdone hstart hdef⟩))
      · obtain ⟨rfl, hset⟩ := Classical.not_imp.mp hdef
        exact .inr (.inr (.inl ⟨⟨hpos, hdone⟩, hstart, hdef,
          doTypeRegister_unsetRef hpos hdone hstart hset⟩))
    · exact .inr (.inl ⟨⟨hpos, hdone⟩, hstart, doRegister_notStarted hpos hdone hstart⟩)
  · have hrefused : s.index ≤ 0 ∨ e.done table s.index = true := by
      by_contra h
      push Not at h
      exact hfresh ⟨h.1, by simpa using h.2⟩
    refine .inl ⟨hfresh, _, doRegister_refused h0 hrefused, ?_⟩
    rintro a ⟨⟩
    rfl

/-- **Everything an encode can do.** -/
theorem doEncode_cases (hω : ω.Flushes) (s : Signature) (type : DataType) (v : Value)
    (e : Encoder ω) :
    (∃ r, (doEncode s type v).run e = (r, e)) ∨
    (e.done .registered s.index = true ∧ ω.start e.writer.starts ≠ 0 ∧
      ∃ w : Writer ω, (doEncode s type v).run e =
        (.ok (if ω.start e.writer.starts = -EALREADY then 0 else ω.start e.writer.starts),
          { e with writer := w })) ∨
    (e.done .registered s.index = true ∧ ω.start e.writer.starts = 0 ∧
      ∃ w : Writer ω, (doEncode s type v).run e =
          (.ok 0, { e with writer := w, sent := e.sent ++ [sentSample e.refs s type v] }) ∧
        w.error = 0) := by
  by_cases h0 : s.index = 0
  · exact .inl ⟨_, doEncode_unset type v e h0⟩
  cases hdone : e.done .registered s.index with
  | false => exact .inl ⟨_, doEncode_refused type v h0 hdone⟩
  | true =>
      by_cases hstart : ω.start e.writer.starts = 0
      · obtain ⟨bs, hbs⟩ := cEmitEncoder_ends (ω := ω) e.refs type v
        obtain ⟨w, hrun, herr, _⟩ := doEncode_sends type v hω h0 hdone hstart hbs
        exact .inr (.inr ⟨rfl, hstart, w, hrun, herr⟩)
      · obtain ⟨w, hrun, _⟩ := doEncode_notStarted type v hω h0 hdone hstart
        exact .inr (.inl ⟨rfl, hstart, w, hrun⟩)

/-! ## What the log defines -/

/-- The entry of a table a packet is the definition of. -/
def definedEntry : Packet → Option (Table × Nat)
  | .sampleDef index _ _ => some (.registered, index)
  | .sampleRef index _ _ => some (.sampleRef, index)
  | .typeDef index _ _ => some (.typedefs, index)
  | _ => none

/-- The log has the definition of the entry. -/
def Defined (sent : List Sent) (table : Table) (index : Nat) : Prop :=
  ∃ s ∈ sent, definedEntry s.packet = some (table, index)

theorem definedEntry_definition (table : Table) (s : Signature) :
    definedEntry (definition table s) = some (table, toUnsigned s.index) := by
  cases table <;> rfl

theorem Defined.append {sent : List Sent} {table : Table} {index : Nat}
    (h : Defined sent table index) (more : List Sent) : Defined (sent ++ more) table index := by
  obtain ⟨s, hs, hd⟩ := h
  exact ⟨s, List.mem_append_left _ hs, hd⟩

theorem defined_concat {sent : List Sent} {s : Sent} {table : Table} {index : Nat} :
    Defined (sent ++ [s]) table index ↔
      Defined sent table index ∨ definedEntry s.packet = some (table, index) := by
  constructor
  · rintro ⟨x, hx, hd⟩
    rcases List.mem_append.mp hx with hx | hx
    · exact .inl ⟨x, hx, hd⟩
    · rw [List.mem_singleton] at hx
      subst hx
      exact .inr hd
  · rintro (h | h)
    · exact h.append [s]
    · exact ⟨s, by simp, h⟩

theorem not_defined_nil (table : Table) (index : Nat) : ¬ Defined [] table index := by
  rintro ⟨s, hs, _⟩
  exact absurd hs (by simp)

/-- What a sample needs before it: the definition of its type, and of every type a reference in
it stands for. -/
def SampleNeeds (pre : List Sent) (s : Sent) : Prop :=
  (∀ index body, s.packet = .sample index body → Defined pre .registered index) ∧
    ∀ r ∈ s.refs, Defined pre .sampleRef (toUnsigned r)

/-- No sample precedes its definition. -/
def InOrder (sent : List Sent) : Prop := Justified SampleNeeds sent

/-- The entry is marked only if its definition was sent. -/
def Backed (e : Encoder ω) (table : Table) : Prop :=
  ∀ index, e.done table index = true → Defined e.sent table (toUnsigned index)

/-- The mark of a definition that was sent is backed. -/
theorem backed_sends {e : Encoder ω} {table table' : Table} {s : Signature} {w : Writer ω}
    (h : Backed e table') :
    Backed { e.setDone table s.index with
      writer := w
      sent := e.sent ++ [⟨definition table s, []⟩] } table' := by
  intro index hdone
  change (e.setDone table s.index).done table' index = true at hdone
  rw [Encoder.done_setDone, Bool.or_eq_true, decide_eq_true_eq] at hdone
  rcases hdone with ⟨rfl, rfl⟩ | hdone
  · exact defined_concat.mpr (.inr (definedEntry_definition table' s))
  · exact (h index hdone).append _

theorem sampleNeeds_definition (pre : List Sent) (table : Table) (s : Signature) :
    SampleNeeds pre ⟨definition table s, []⟩ := by
  constructor
  · intro index body h
    cases table <;> cases h
  · simp

/-! ## References -/

mutual

/-- The reference indices of a sample come from the table of references. -/
theorem mem_refIndices {refs : RefTables} {r : Int} : ∀ (t : DataType) (v : Value),
    r ∈ refIndices refs t v → r ≠ 0 ∧ ∃ s, refs.toIndex s = r
  | .void, v, h => by simp [refIndices] at h
  | .user _ type, v, h => mem_refIndices type v (by rwa [refIndices] at h)
  | .prim p, v, h => by
      cases p <;> cases v <;> simp only [refIndices, List.not_mem_nil] at h
      rename_i s
      by_cases hs : refs.toIndex s = 0
      · rw [if_pos hs] at h
        exact absurd h (by simp)
      · rw [if_neg hs, List.mem_singleton] at h
        subst h
        exact ⟨hs, s, rfl⟩
  | .struct fields, v, h => by
      cases v <;> simp only [refIndices, List.not_mem_nil] at h
      exact mem_refIndicesFields fields _ h
  | .array elem _, v, h => by
      cases v <;> simp only [refIndices, List.not_mem_nil] at h
      obtain ⟨a, _, ha⟩ := List.mem_flatMap.mp h
      exact mem_refIndices elem a ha

/-- The same of the fields. -/
theorem mem_refIndicesFields {refs : RefTables} {r : Int} :
    ∀ (fields : Fields) (vs : List Value), r ∈ refIndicesFields refs fields vs →
      r ≠ 0 ∧ ∃ s, refs.toIndex s = r
  | .nil, vs, h => by simp [refIndicesFields] at h
  | .cons _ _ type rest, [], h => by simp [refIndicesFields] at h
  | .cons _ _ type rest, v :: vs, h => by
      rcases List.mem_append.mp (by rwa [refIndicesFields] at h) with h | h
      · exact mem_refIndices type v h
      · exact mem_refIndicesFields rest vs h

end

/-- A reference that is not sent as null is marked. -/
theorem done_of_mem_refIndices {e : Encoder ω} {type : DataType} {v : Value} {r : Int}
    (h : r ∈ refIndices e.refs type v) : e.done .sampleRef r = true := by
  obtain ⟨hr, s, hs⟩ := mem_refIndices type v h
  change doSampleRefToIndex e.sampleRef s = r at hs
  cases s with
  | none => exact absurd hs.symm hr
  | some s =>
      rw [doSampleRefToIndex] at hs
      by_cases hget : e.sampleRef.get s = true
      · rw [if_pos hget] at hs
        subst hs
        exact hget
      · rw [if_neg hget] at hs
        exact absurd hs.symm hr

/-- A sample the encoder lets through has all it needs before it. -/
theorem sampleNeeds_sentSample {e : Encoder ω} (hreg : Backed e .registered)
    (href : Backed e .sampleRef) {s : Signature} (hdone : e.done .registered s.index = true)
    (type : DataType) (v : Value) : SampleNeeds e.sent (sentSample e.refs s type v) := by
  constructor
  · intro index body h
    cases h
    exact hreg s.index hdone
  · intro r hr
    exact href r (done_of_mem_refIndices hr)

/-! ## New encoders -/

/-- The encoder `labcomm2014_encoder_new` returns. -/
def newEncoder (w : Writer ω) : Encoder ω := (encoderNew.run w).1

theorem newEncoder_done (w : Writer ω) (table : Table) (index : Int) :
    (newEncoder w).done table index = false := by
  cases table <;> exact SigArray.get_init index

theorem newEncoder_sent (w : Writer ω) :
    (newEncoder w).sent = [⟨.version CURRENT_VERSION, []⟩] := rfl

/-- What a new encoder writes after its start. -/
theorem writeVersion_emits : Emits (do
    let _ ← writePacked32 LABCOMM_VERSION
    let _ ← writePacked32 (toUnsigned (sizeString CURRENT_VERSION))
    let _ ← writeString CURRENT_VERSION
    writerEnd : StateM (Writer ω) Int) 0 (Packet.version CURRENT_VERSION).bytes := by
  have key := (writePacked32_emits (ω := ω) LABCOMM_VERSION).bind (f := fun _ => do
      let _ ← writePacked32 (toUnsigned (sizeString CURRENT_VERSION))
      let _ ← writeString CURRENT_VERSION
      writerEnd)
    ((writePacked32_emits (toUnsigned (sizeString CURRENT_VERSION))).bind (f := fun _ => do
        let _ ← writeString CURRENT_VERSION
        writerEnd)
      ((writeString_emits CURRENT_VERSION).bind (f := fun _ => writerEnd) writerFlush_emits))
  have hbytes : packed32 LABCOMM_VERSION ++ (packed32 (toUnsigned (sizeString CURRENT_VERSION)) ++
      (stringBytes CURRENT_VERSION ++ [])) = (Packet.version CURRENT_VERSION).bytes := by
    decide
  rwa [hbytes] at key

/-- **A new encoder has sent the version.** -/
theorem newEncoder_writer (hω : ω.Flushes) (w : Writer ω) :
    (newEncoder w).writer.starts = w.starts + 1 ∧
      (newEncoder w).writer.written =
        w.written ++ (Packet.version CURRENT_VERSION).bytes := by
  obtain ⟨_, _, hkept, hwritten⟩ := writeVersion_emits (ω := ω) (writerStart w).2 hω
  exact ⟨congrArg Prod.snd hkept, hwritten⟩

end LabComm.C
