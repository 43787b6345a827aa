import LabComm.C.EncoderLog
import LabComm.C.RoundTrip

set_option autoImplicit false

/-! # The lengths in the headers

Every packet of the encoder but a sample is about a signature or the version. Its length is
computed before it is written, by functions of their own (`labcomm2014_size_string`,
`calc_sig_encoded_size`), in an `int` that is sent as an unsigned number. So it is exact for
every packet that a length of 32 bits can be given to, unless the name alone is too long for an
`int` (`headers_exact`, `not_headersExact_longName`).
-/

namespace LabComm.C

open Library

variable {ω : WriterAction}

/-- What the encoder writes of its own accord are packets with exact lengths: a body is preceded
by its length (`Packet.bytes`), and a signature in it by its own (`definitionBytes`). -/
structure HeadersExact (ω : WriterAction) (s : Signature) : Prop where
  /-- VERSION -/
  version : ∀ w : Writer ω, (newEncoder w).writer.written =
    w.written ++ (Packet.version CURRENT_VERSION).bytes
  /-- SAMPLE_DEF, SAMPLE_REF and TYPE_DEF; in a TYPE_DEF a reference to a signature without an
  index ends the process before anything is written. -/
  definition : ∀ (table : Table) (e : Encoder ω), e.done table s.index = false →
    (definition table s).body.length < 2 ^ 32 →
      (Definable table s ∧ ∃ e', (doRegister table s).run e = (.ok 0, e') ∧
        e'.writer.written = e.writer.written ++ (definition table s).bytes) ∨
      (¬ Definable table s ∧ ∃ e', (doRegister table s).run e = (.error .signatureNotSet, e') ∧
        e'.writer.written = e.writer.written)
  /-- The signature of a TYPE_DEF is what `do_write_signature` writes. -/
  signature : s.treedata.RefsSet →
    Completes (mapSignature writeSigTreeByte false s : EncoderM ω Unit) () s.treedata.itemBytes
  /-- TYPE_BINDING -/
  binding : ∀ (hasDeps : Bool) (e : Encoder ω), ∃ e',
    (doTypeBind s hasDeps).run e = (.ok 0, e') ∧
      e'.writer.written = e.writer.written ++ (binding s hasDeps).bytes

theorem doRegister_headers {s : Signature} (hω : ω.Flushes) (hstart : ∀ n, ω.start n = 0)
    (hindex : 0 < s.index) (h0 : (0 : UInt8) ∉ s.name) (hname : s.name.length < 2 ^ 31)
    {table : Table} {e : Encoder ω} (hdone : e.done table s.index = false)
    (hlen : (definition table s).body.length < 2 ^ 32) :
    (Definable table s ∧ ∃ e', (doRegister table s).run e = (.ok 0, e') ∧
      e'.writer.written = e.writer.written ++ (definition table s).bytes) ∨
    (¬ Definable table s ∧ ∃ e', (doRegister table s).run e = (.error .signatureNotSet, e') ∧
      e'.writer.written = e.writer.written) := by
  by_cases hdef : Definable table s
  · obtain ⟨w, hrun, _, _, hwritten⟩ := doRegister_sends hω hindex hdone (hstart _) hdef
    rw [sentDefinition_bytes h0 hname hlen] at hwritten
    exact .inl ⟨hdef, _, hrun, hwritten⟩
  · obtain ⟨rfl, hrefs⟩ := Classical.not_imp.mp hdef
    refine .inr ⟨hdef, _, doTypeRegister_unsetRef hindex hdone (hstart _) hrefs, ?_⟩
    show (e.setDone .typedefs s.index).writer.written = e.writer.written
    rw [Encoder.setDone_writer]

/-- **The lengths in the headers are exact** when the name is no longer than an `int` can say. -/
theorem headers_exact (hω : ω.Flushes) (hstart : ∀ n, ω.start n = 0) {s : Signature}
    (hindex : 0 < s.index) (h0 : (0 : UInt8) ∉ s.name) (hname : s.name.length < 2 ^ 31) :
    HeadersExact ω s where
  version w := (newEncoder_writer hω w).2
  definition _ _ hdone hlen := doRegister_headers hω hstart hindex h0 hname hdone hlen
  signature hrefs := mapSignature_writeSigTreeByte s hrefs
  binding hasDeps e := by
    obtain ⟨w, hrun, _, _, hwritten⟩ := doTypeBind_sends hasDeps hω hindex (hstart _) (e := e)
    exact ⟨_, hrun, hwritten⟩

theorem headers_exact_int : HeadersExact bytewise intSignature :=
  headers_exact (fun _ => rfl) (fun _ => rfl) (by decide) (by decide) (by decide)

/-! ## Names longer than an `int` can say -/

/-- `2 ^ 31` times the letter `a`. -/
def longName : List UInt8 := List.replicate (2 ^ 31) 97

/-- A sample type of that name. -/
def longNamed : Signature := .mk longName (some [0x23]) 0x40 .sigdefEnd

theorem stringBytes_longName : stringBytes longName = packed32 (2 ^ 31) := by
  have h0 : (0 : UInt8) ∉ longName := fun h => absurd (List.eq_of_mem_replicate h) (by decide)
  have hlength : longName.length = 2 ^ 31 := List.length_replicate
  have hwrap : wrap32 (strlen longName) = -2 ^ 31 := by
    rw [strlen_of_not_mem h0, hlength]
    decide
  rw [stringBytes, hwrap, show ((-2 ^ 31 : Int)).toNat = 0 by decide, List.take_zero,
    List.append_nil]
  decide

theorem sizeString_longName : sizeString longName = -2 ^ 31 + 5 := by
  have h0 : (0 : UInt8) ∉ longName := fun h => absurd (List.eq_of_mem_replicate h) (by decide)
  have hlength : longName.length = 2 ^ 31 := List.length_replicate
  have hwrap : wrap32 (strlen longName) = -2 ^ 31 := by
    rw [strlen_of_not_mem h0, hlength]
    decide
  rw [sizeString, hwrap]
  decide

/-- What follows the length of the SAMPLE_DEF of `longNamed`. -/
def longPayload : List UInt8 :=
  packed32 64 ++ (packed32 1 ++ (packed32 0 ++ packed32 (2 ^ 31)) ++ (packed32 1 ++ [0x23]))

theorem sentDefinition_longNamed : sentDefinition .registered longNamed =
    packed32 LABCOMM_SAMPLE_DEF ++ (packed32 (2 ^ 31 + 10) ++ longPayload) := by
  have hlength : toUnsigned (wrap32 (sizePacked32 (toUnsigned longNamed.index) +
      todoSizeofIntentions longNamed + sizePacked32 (toUnsigned longNamed.size) +
        longNamed.size)) = 2 ^ 31 + 10 := by
    rw [todoSizeofIntentions, show longNamed.name = longName from rfl, sizeString_longName]
    decide
  rw [sentDefinition, writtenDefinition]
  simp only [show definedSize .registered longNamed = longNamed.size from rfl, hlength]
  rw [show longNamed.name = longName from rfl, stringBytes_longName]
  rfl

/-- The length of the name is negative, none of its letters is written, and the length of the
packet is not that of what follows it. -/
theorem not_headersExact_longName : (0 : UInt8) ∉ longNamed.name ∧ longNamed.index = 0x40 ∧
    ∃ bs, ((doRegister .registered longNamed).run (newEncoder (.empty bytewise))).2.writer.written =
        (newEncoder (.empty bytewise)).writer.written ++ bs ∧
      ¬ ∃ payload : List UInt8, bs = packed32 LABCOMM_SAMPLE_DEF ++ counted payload := by
  have h0 : (0 : UInt8) ∉ longNamed.name :=
    fun h => absurd (List.eq_of_mem_replicate h) (by decide)
  have hdone : (newEncoder (.empty bytewise)).done .registered longNamed.index = false :=
    newEncoder_done _ _ _
  have hdef : Definable .registered longNamed := fun h => by cases h
  obtain ⟨w, hrun, _, _, hwritten⟩ :=
    doRegister_sends (fun _ => rfl) (by decide) hdone rfl hdef
  refine ⟨h0, rfl, _, by rw [hrun]; exact hwritten, ?_⟩
  rintro ⟨payload, hpayload⟩
  rw [sentDefinition_longNamed, List.append_cancel_left_eq, counted] at hpayload
  have hlen := congrArg List.length hpayload
  simp only [List.length_append] at hlen
  have hshort : (packed32 (2 ^ 31 + 10)).length + longPayload.length = 15 := by decide
  have hsplit := varint_append_inj (k := 4) (m := 2 ^ 31 + 10) (n := payload.length)
    (by norm_num) (by omega) hpayload
  omega

end LabComm.C
