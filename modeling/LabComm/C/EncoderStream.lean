import LabComm.C.EncodedSize
import LabComm.C.EncoderLog

set_option autoImplicit false

/-! # The stream of an encoder

What a receiver may expect of the packets in front of a packet, and the invariant from which it
follows: the tables of the encoder and the definitions in the log say the same.
-/

namespace LabComm.C

open Library

variable {ω : WriterAction}

/-! ## Well-formed streams -/

/-- One of the packets defines the entry. -/
def Defines (packets : List Packet) (table : Table) (index : Nat) : Prop :=
  ∃ p ∈ packets, definedEntry p = some (table, index)

/-- A stream in which everything is defined before it is used, and nothing twice. -/
structure StreamWellFormed (packets : List Packet) : Prop where
  version_first : ∃ rest, packets = .version CURRENT_VERSION :: rest ∧
    ∀ s, Packet.version s ∉ rest
  definition_once : ∀ table index,
    (packets.filter fun p => definedEntry p = some (table, index)).length ≤ 1
  sample_defined : ∀ pre index body post, packets = pre ++ .sample index body :: post →
    Defines pre .registered index
  typeId_defined : ∀ pre index intentions items post,
    packets = pre ++ .typeDef index intentions items :: post →
      ∀ j, SigItem.typeId j ∈ items → Defines pre .typedefs j
  binding_defined : ∀ pre sindex tindex post,
    packets = pre ++ .typeBinding sindex tindex :: post →
      Defines pre .registered sindex ∧ (tindex = 0 ∨ Defines pre .typedefs tindex)

/-- What a packet needs of those before it. -/
structure StreamNeeds (pre : List Sent) (s : Sent) : Prop where
  version : (∃ v, s.packet = .version v) ↔ pre = []
  once : ∀ table index, definedEntry s.packet = some (table, index) → ¬ Defined pre table index
  sample : SampleNeeds pre s
  typeId : ∀ index intentions items j, s.packet = .typeDef index intentions items →
    SigItem.typeId j ∈ items → Defined pre .typedefs j
  binding : ∀ sindex tindex, s.packet = .typeBinding sindex tindex →
    Defined pre .registered sindex ∧ (tindex = 0 ∨ Defined pre .typedefs tindex)

theorem Defined.defines {sent : List Sent} {table : Table} {index : Nat}
    (h : Defined sent table index) : Defines (sent.map Sent.packet) table index := by
  obtain ⟨s, hs, hd⟩ := h
  exact ⟨s.packet, List.mem_map_of_mem hs, hd⟩

/-- An entry that nothing before defines is defined once. -/
theorem definition_once_of_needs {sent : List Sent} (h : Justified StreamNeeds sent)
    (table : Table) (index : Nat) :
    ((sent.map Sent.packet).filter fun p =>
      definedEntry p = some (table, index)).length ≤ 1 := by
  induction sent using List.reverseRecOn with
  | nil => simp
  | append_singleton sent s ih =>
      have hrest := ih h.of_append
      rw [List.map_append, List.filter_append, List.length_append]
      by_cases hs : definedEntry s.packet = some (table, index)
      · have hnone : (sent.map Sent.packet).filter
            (fun p => definedEntry p = some (table, index)) = [] := by
          rw [List.filter_eq_nil_iff]
          intro p hp hd
          obtain ⟨x, hx, rfl⟩ := List.mem_map.mp hp
          exact (h sent s [] rfl).once table index hs ⟨x, hx, by simpa using hd⟩
        rw [hnone]
        simp [hs]
      · simpa [hs] using hrest

theorem streamWellFormed_of_needs {sent : List Sent} (h : Justified StreamNeeds sent)
    (hfirst : ∃ rest, sent = ⟨.version CURRENT_VERSION, []⟩ :: rest) :
    StreamWellFormed (sent.map Sent.packet) := by
  -- a packet of the stream is that of an entry of the log
  have split : ∀ {pre p post}, sent.map Sent.packet = pre ++ p :: post →
      ∃ spre s, pre = spre.map Sent.packet ∧ p = s.packet ∧ StreamNeeds spre s := by
    intro pre p post heq
    obtain ⟨spre, rest, rfl, rfl, hrest⟩ := List.map_eq_append_iff.mp heq
    obtain ⟨s, spost, rfl, rfl, rfl⟩ := List.map_eq_cons_iff.mp hrest
    exact ⟨spre, s, rfl, rfl, h spre s spost rfl⟩
  constructor
  · obtain ⟨rest, rfl⟩ := hfirst
    refine ⟨rest.map Sent.packet, rfl, ?_⟩
    intro v hv
    obtain ⟨s, hs, hp⟩ := List.mem_map.mp hv
    obtain ⟨pre, post, rfl⟩ := List.append_of_mem hs
    have hneeds := h (⟨.version CURRENT_VERSION, []⟩ :: pre) s post rfl
    exact absurd (hneeds.version.mp ⟨v, hp⟩) (by simp)
  · exact definition_once_of_needs h
  · intro pre index body post heq
    obtain ⟨spre, s, rfl, hp, hneeds⟩ := split heq
    exact (hneeds.sample.1 index body hp.symm).defines
  · intro pre index intentions items post heq j hj
    obtain ⟨spre, s, rfl, hp, hneeds⟩ := split heq
    exact (hneeds.typeId index intentions items j hp.symm hj).defines
  · intro pre sindex tindex post heq
    obtain ⟨spre, s, rfl, hp, hneeds⟩ := split heq
    obtain ⟨h1, h2⟩ := hneeds.binding sindex tindex hp.symm
    exact ⟨h1.defines, h2.imp_right Defined.defines⟩

/-! ## The invariant -/

/-- The tables and the log say the same, and the log is what was written after `old` if `Fits`
(every packet that is sent can be represented). -/
structure StreamInv (Fits : Prop) (old : List UInt8) (e : Encoder ω) : Prop where
  needs : Justified StreamNeeds e.sent
  first : ∃ rest, e.sent = ⟨.version CURRENT_VERSION, []⟩ :: rest
  backed : ∀ table, Backed e table
  marked : ∀ table (index : Nat), index < 2 ^ 31 → Defined e.sent table index →
    e.done table index = true
  delivered : Fits → e.writer.written = old ++ e.sent.flatMap fun s => s.packet.bytes

theorem StreamInv.sent_ne_nil {Fits : Prop} {old : List UInt8} {e : Encoder ω}
    (h : StreamInv Fits old e) : e.sent ≠ [] := by
  obtain ⟨rest, hrest⟩ := h.first
  rw [hrest]
  simp

/-- Nothing is unmarked. -/
def Marks (e e' : Encoder ω) : Prop :=
  ∀ table index, e.done table index = true → e'.done table index = true

theorem Marks.refl (e : Encoder ω) : Marks e e := fun _ _ h => h

theorem Marks.trans (e e' e'' : Encoder ω) (h : Marks e e') (h' : Marks e' e'') : Marks e e'' :=
  fun table index hd => h' table index (h table index hd)

theorem stable_done (table : Table) (index : Int) :
    Stable Marks fun e : Encoder ω => e.done table index = true :=
  fun _ _ hR hd => hR table index hd

theorem marks_setDone (e : Encoder ω) (table : Table) (index : Int) :
    Marks e (e.setDone table index) := by
  intro table' i h
  rw [Encoder.done_setDone, h, Bool.or_true]

section Steps

variable {Fits : Prop} {old : List UInt8} (hω : ω.Flushes) (hstart : ∀ n, ω.start n = 0)

include hω hstart

/-- **A registration keeps the stream well-formed.** A typedef is registered after the types it
refers to. -/
theorem doRegister_preserves (table : Table) {s : Signature} (h0 : s.index < 2 ^ 31)
    (hdef : Definable table s) (hfits : Fits → PacketFits table s) :
    Preserves (StreamInv Fits old) Marks
      (fun e => table = .typedefs → ∀ j, SigItem.typeId j ∈ s.treedata.items →
        ∃ i, e.done .typedefs i = true ∧ toUnsigned i = j)
      (doRegister (ω := ω) table s)
      fun r e => 0 < s.index → (r = -EINVAL ∨ r = 0) ∧ e.done table s.index = true := by
  intro e hI hP
  -- of what a registration can do, only a refusal and a definition are left
  rcases doRegister_cases hω table s e with
    ⟨hnot, r, hr, hval⟩ | ⟨_, hfail, _⟩ | ⟨_, _, hnot, _⟩ | ⟨⟨hpos, hdone⟩, _, _, w, hr, _, _, hw⟩
  · rw [hr]
    refine ⟨hI, Marks.refl e, ?_⟩
    intro a ha hpos
    refine ⟨.inl (hval a ha), ?_⟩
    by_contra hdone
    exact hnot ⟨hpos, by simpa using hdone⟩
  · exact absurd (hstart _) hfail
  · exact absurd hdef hnot
  · rw [hr]
    have hindex : (toUnsigned s.index : Int) = s.index :=
      toUnsigned_of_nonneg hpos.le (by omega)
    have hmarks := marks_setDone e table s.index
    have hself : (e.setDone table s.index).done table s.index = true := by
      rw [Encoder.done_setDone]
      simp
    refine ⟨?_, hmarks, fun a ha _ => ⟨.inr (by cases ha; rfl), hself⟩⟩
    -- the table has no mark, so the stream has no definition of this index yet
    have hneeds : StreamNeeds e.sent ⟨definition table s, []⟩ := by
      constructor
      · refine ⟨?_, fun h => absurd h (hI.sent_ne_nil)⟩
        rintro ⟨v, hv⟩
        cases table <;> cases hv
      · intro table' index hd hdefined
        rw [definedEntry_definition, Option.some.injEq, Prod.mk.injEq] at hd
        obtain ⟨rfl, rfl⟩ := hd
        have hmarked := hI.marked table (toUnsigned s.index) (by omega) hdefined
        rw [hindex, hdone] at hmarked
        exact absurd hmarked (by decide)
      · exact sampleNeeds_definition e.sent table s
      · -- the types that are referred to were defined before
        intro index intentions items j hp hj
        cases table <;> cases hp
        obtain ⟨i, hi, rfl⟩ := hP rfl j hj
        exact hI.backed .typedefs i hi
      · intro sindex tindex hp
        cases table <;> cases hp
    constructor
    · exact hI.needs.concat hneeds
    · obtain ⟨rest, hrest⟩ := hI.first
      exact ⟨rest ++ [⟨definition table s, []⟩], by rw [hrest]; rfl⟩
    · exact fun table' => backed_sends (hI.backed table')
    · intro table' index hlt hdefined
      -- what is new among the definitions is this one, and it is marked
      show (e.setDone table s.index).done table' index = true
      rcases defined_concat.mp hdefined with hd | hd
      · exact hmarks table' index (hI.marked table' index hlt hd)
      · rw [definedEntry_definition, Option.some.injEq, Prod.mk.injEq] at hd
        obtain ⟨rfl, rfl⟩ := hd
        rw [hindex]
        exact hself
    · intro hf
      rw [hw, hI.delivered hf, sentDefinition_eq (hfits hf), List.flatMap_append,
        List.append_assoc]
      simp

/-- **A binding keeps the stream well-formed** when the sample is defined, and its type is if
it refers to others. -/
theorem doTypeBind_preserves {s : Signature} {hasDeps : Bool} (hpos : 0 < s.index) :
    Preserves (StreamInv Fits old) Marks
      (fun e => e.done .registered s.index = true ∧
        (hasDeps = true → e.done .typedefs s.index = true))
      (doTypeBind (ω := ω) s hasDeps) fun _ _ => True := by
  rintro e hI ⟨hreg, htype⟩
  obtain ⟨w, hr, _, _, hw⟩ := doTypeBind_sends hasDeps hω hpos (hstart _)
  rw [hr]
  refine ⟨?_, Marks.refl e, fun _ _ => trivial⟩
  have hneeds : StreamNeeds e.sent ⟨binding s hasDeps, []⟩ := by
    constructor
    · refine ⟨?_, fun h => absurd h (hI.sent_ne_nil)⟩
      rintro ⟨v, ⟨⟩⟩
    · rintro table index ⟨⟩
    · refine ⟨?_, by simp⟩
      rintro index body ⟨⟩
    · rintro index intentions items j ⟨⟩
    · intro sindex tindex hp
      cases hp
      refine ⟨hI.backed .registered s.index hreg, ?_⟩
      cases hasDeps with
      | false => exact .inl rfl
      | true => exact .inr (hI.backed .typedefs s.index (htype rfl))
  constructor
  · exact hI.needs.concat hneeds
  · obtain ⟨rest, hrest⟩ := hI.first
    exact ⟨rest ++ [⟨binding s hasDeps, []⟩], by rw [hrest]; rfl⟩
  · exact fun table index hd => (hI.backed table index hd).append _
  · intro table index hlt hdefined
    rcases defined_concat.mp hdefined with hd | hd
    · exact hI.marked table index hlt hd
    · cases hd
  · intro hf
    rw [hw, hI.delivered hf, List.flatMap_append, List.append_assoc]
    simp

/-- The sample can be represented: its value is one of its type, and shorter than `2 ^ 31` bytes
when it is encoded. -/
def SampleFits (type : DataType) (v : Value) : Prop :=
  type.LiteralsFit ∧ WellTyped (fun _ => True) type v ∧
    ∀ refs, (wire refs type v).length < 2 ^ 31

/-- **A sample keeps the stream well-formed.** -/
theorem doEncode_preserves {s : Signature} {type : DataType} {v : Value}
    (hfits : Fits → SampleFits type v) :
    Preserves (StreamInv Fits old) Marks (fun _ => True) (doEncode (ω := ω) s type v)
      fun _ _ => True := by
  intro e hI _
  by_cases h0 : s.index = 0
  · rw [doEncode_unset type v e h0]
    exact ⟨hI, Marks.refl e, fun _ _ => trivial⟩
  cases hdone : e.done .registered s.index with
  | false =>
      rw [doEncode_refused type v h0 hdone]
      exact ⟨hI, Marks.refl e, fun _ _ => trivial⟩
  | true =>
      -- what is written for the value matters only where the lengths fit
      have hbody : ∃ bs, Completes (cEmitEncoder (ω := ω) e.refs type v) () bs ∧
          (Fits → bs = wire e.refs type v) := by
        by_cases hf : Fits
        · obtain ⟨_, hv, hlen⟩ := hfits hf
          exact ⟨_, cEmitEncoder_completes e.refs type v hv
            (stringsFit_of_length e.refs type v hv (hlen _)).below, fun _ => rfl⟩
        · obtain ⟨bs, hbs⟩ := cEmitEncoder_ends (ω := ω) e.refs type v
          exact ⟨bs, hbs, fun h => absurd h hf⟩
      obtain ⟨bs, hbs, hwire⟩ := hbody
      obtain ⟨w, hr, _, _, hw⟩ := doEncode_sends type v hω h0 hdone (hstart _) hbs
      rw [hr]
      refine ⟨?_, Marks.refl e, fun _ _ => trivial⟩
      have hneeds : StreamNeeds e.sent (sentSample e.refs s type v) := by
        constructor
        · refine ⟨?_, fun h => absurd h (hI.sent_ne_nil)⟩
          rintro ⟨v, ⟨⟩⟩
        · rintro table index ⟨⟩
        · exact sampleNeeds_sentSample (hI.backed _) (hI.backed _) hdone type v
        · rintro index intentions items j ⟨⟩
        · rintro sindex tindex ⟨⟩
      constructor
      · exact hI.needs.concat hneeds
      · obtain ⟨rest, hrest⟩ := hI.first
        exact ⟨rest ++ [sentSample e.refs s type v], by rw [hrest]; rfl⟩
      · exact fun table index hd => (hI.backed table index hd).append _
      · intro table index hlt hdefined
        rcases defined_concat.mp hdefined with hd | hd
        · exact hI.marked table index hlt hd
        · cases hd
      · -- the computed size is the number of bytes
        intro hf
        obtain ⟨hlit, hv, hlen⟩ := hfits hf
        have hlt := hlen e.refs
        rw [hw, hI.delivered hf, hwire hf, cSizeof_eq hlit hv hlt, Option.getD_some,
          toUnsigned_natCast (by omega), List.flatMap_append, List.append_assoc]
        simp [sentSample, Packet.bytes, Packet.tag, Packet.body, counted]

omit hstart in
/-- The stream of a new encoder is well-formed. -/
theorem newEncoder_streamInv (w : Writer ω) : StreamInv Fits w.written (newEncoder w) := by
  constructor
  · refine Justified.nil.concat ⟨?_, ?_, ?_, ?_, ?_⟩
    · exact ⟨fun _ => rfl, fun _ => ⟨_, rfl⟩⟩
    · rintro table index ⟨⟩
    · refine ⟨?_, by simp⟩
      rintro index body ⟨⟩
    · rintro index intentions items j ⟨⟩
    · rintro sindex tindex ⟨⟩
  · exact ⟨[], rfl⟩
  · intro table index hd
    rw [newEncoder_done] at hd
    exact absurd hd (by decide)
  · intro table index _ hd
    rw [newEncoder_sent] at hd
    rcases defined_concat.mp (show Defined ([] ++ [_]) table index from hd) with hd | hd
    · exact absurd hd (not_defined_nil table index)
    · cases hd
  · intro _
    rw [(newEncoder_writer hω w).2, newEncoder_sent]
    simp

end Steps

end LabComm.C
