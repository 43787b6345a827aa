import LabComm.C.EncoderSteps
import LabComm.C.RoundTrip

set_option autoImplicit false

/-! # Encoded sizes

The size function of a sample type, the length in the header of a sample packet and
`labcomm2014_internal_sizeof`, against the bytes that are written. All three are `int`s: the
size is exact as long as the body is shorter than `2 ^ 31` bytes, and the size of the whole
packet as long as the whole packet is.
-/

namespace LabComm.C

open Library

variable {ω : WriterAction}

/-- What `do_encode` writes of a sample with this body. -/
def samplePacket (s : Signature) (body : List UInt8) : List UInt8 :=
  packed32 (toUnsigned s.index) ++ counted body

/-- The sizes that are computed for a sample are those of what is written: `body` is what the
generated encoder writes, the size function returns its length, `do_encode` sends it after that
length, and `whole` says that `labcomm2014_internal_sizeof` is the size of the packet. -/
def SizesExact (e : Encoder ω) (s : Signature) (t : DataType) (v : Value)
    (whole : List UInt8 → Prop) : Prop :=
  ∃ body, (∀ w : Writer ω, (cEncode e.refs t v w).1 = 0 ∧
      (cEncode e.refs t v w).2.written = w.written ++ body) ∧
    cSizeof t v = some (body.length : Int) ∧
    (∃ e', (doEncode s t v).run e = (.ok 0, e') ∧
      e'.writer.written = e.writer.written ++ samplePacket s body) ∧
    whole body

/-- `labcomm2014_internal_sizeof` is the size of the packet. -/
def WholeExact (s : Signature) (t : DataType) (v : Value) (body : List UInt8) : Prop :=
  internalSizeof s t v = (samplePacket s body).length

mutual

/-- A string is no longer than the encoding it is in. -/
theorem stringsFit_of_length {R : Option Nat → Prop} (refs : RefTables) : ∀ (t : DataType)
    (v : Value), WellTyped R t v → (wire refs t v).length < 2 ^ 31 → StringsFit t v
  | .void, _, _, _ => by rw [StringsFit, StringsBelow.eq_def]; trivial
  | .prim p, v, hv, hlen => by
      cases p with
      | string =>
          obtain ⟨s, rfl, _⟩ := hv
          have hpos := packed32_length_pos s.length
          rw [wire, List.length_append] at hlen
          show s.length < 2 ^ 31 - 1
          omega
      | sample =>
          obtain ⟨s, rfl, _⟩ := hv
          trivial
      | boolean | byte | short | int | long | float | double =>
          obtain ⟨n, rfl, _⟩ := hv
          trivial
  | .user _ type, v, hv, hlen => by
      rw [StringsFit, StringsBelow]
      exact stringsFit_of_length refs type v hv hlen
  | .struct fields, v, hv, hlen => by
      obtain ⟨vs, rfl, hvs⟩ := hv
      exact stringsFitFields_of_length refs fields vs hvs hlen
  | .array elem dim, v, hv, hlen => by
      obtain ⟨n, a, rfl, _, _, _, hall⟩ := hv
      rw [wire, List.length_append] at hlen
      intro x hx
      have := length_le_flatMap hx (wire refs elem)
      exact stringsFit_of_length refs elem x (hall x hx) (by omega)

theorem stringsFitFields_of_length {R : Option Nat → Prop} (refs : RefTables) :
    ∀ (fields : Fields) (vs : List Value), FieldsTyped R fields vs →
      (wireFields refs fields vs).length < 2 ^ 31 → StringsFitFields fields vs
  | .nil, _, _, _ => by rw [StringsFitFields, StringsBelowFields.eq_def]; trivial
  | .cons _ _ type rest, vs, hvs, hlen => by
      obtain ⟨v, ws, rfl, hv, hws⟩ := hvs
      rw [wireFields, List.length_append] at hlen
      exact ⟨stringsFit_of_length refs type v hv (by omega),
        stringsFitFields_of_length refs rest ws hws (by omega)⟩

end

/-- **Encoded sizes are the bytes written.** -/
theorem sizes_exact {R : Option Nat → Prop} {e : Encoder ω} {s : Signature} {t : DataType}
    {v : Value} (hω : ω.Flushes) (hstart : ω.start e.writer.starts = 0) (h0 : s.index ≠ 0)
    (hreg : e.done .registered s.index = true) (hlit : t.LiteralsFit) (hv : WellTyped R t v)
    (hlen : (wire e.refs t v).length < 2 ^ 31) :
    SizesExact e s t v fun body =>
      (samplePacket s body).length < 2 ^ 31 → WholeExact s t v body := by
  have hfit := (stringsFit_of_length e.refs t v hv hlen).below
  have hsize := cSizeof_eq hlit hv hlen
  refine ⟨wire e.refs t v, fun w => ?_, hsize, ?_, fun hwhole => ?_⟩
  · obtain ⟨h1, _, _, h4⟩ := (show Emits (cEncode e.refs t v) 0 (wire e.refs t v) from
      cEncode_emits hv hfit) w hω
    exact ⟨h1, h4⟩
  · obtain ⟨w, hrun, _, _, hwritten⟩ := doEncode_sends t v hω h0 hreg hstart
      (cEmitEncoder_completes e.refs t v hv hfit)
    refine ⟨_, hrun, ?_⟩
    rw [hsize, Option.getD_some, toUnsigned_natCast (by omega)] at hwritten
    exact hwritten
  · have hcount : (samplePacket s (wire e.refs t v)).length =
        (packed32 (toUnsigned s.index)).length +
          (packed32 (wire e.refs t v).length).length + (wire e.refs t v).length := by
      rw [samplePacket, List.length_append, counted_length, Nat.add_assoc]
    rw [WholeExact, internalSizeof, hsize, Option.getD_some, toUnsigned_natCast (by omega),
      sizePacked32_eq, sizePacked32_eq, hcount]
    rw [hcount] at hwhole
    exact_mod_cast wrap32_natCast hwhole

/-- A signature with the first user index. -/
def firstSignature (name bytes : List UInt8) : Signature := .mk name (some bytes) 64 .sigdefEnd

/-- An encoder that has the first user index registered. -/
def registeredEncoder : Encoder bytewise :=
  ⟨.empty bytewise, SigArray.init.set 64 true, .init, .init, []⟩

/-- `struct { int i; string s; }` with `i = 1` and `s = "a"`. -/
theorem sizes_exact_struct :
    SizesExact registeredEncoder (firstSignature [97] [0x11])
      (.struct (.cons [] [105] (.prim .int) (.cons [] [115] (.prim .string) .nil)))
      (.struct [.bits 1, .string [97]]) fun body =>
        (samplePacket (firstSignature [97] [0x11]) body).length < 2 ^ 31 →
          WholeExact (firstSignature [97] [0x11])
            (.struct (.cons [] [105] (.prim .int) (.cons [] [115] (.prim .string) .nil)))
            (.struct [.bits 1, .string [97]]) body :=
  sizes_exact (R := fun _ => True) (fun _ => rfl) rfl (by decide)
    (SigArray.get_set_self _ _ _)
    ⟨trivial, trivial, trivial⟩
    ⟨_, rfl, _, _, rfl, ⟨1, rfl, by decide⟩, _, _, rfl, ⟨[97], rfl, by decide⟩, rfl⟩
    (by decide)

/-! ## Bodies just shorter than `2 ^ 31` -/

/-- A string whose encoding has `2 ^ 31 - 1` bytes. -/
def nearlyFull : List UInt8 := List.replicate (2 ^ 31 - 6) 97

theorem nearlyFull_length : nearlyFull.length = 2 ^ 31 - 6 := List.length_replicate

theorem wire_nearlyFull_length (refs : RefTables) :
    (wire refs (.prim .string) (.string nearlyFull)).length = 2 ^ 31 - 1 := by
  have hpacked : (packed32 (2 ^ 31 - 6)).length = 5 := by decide
  rw [wire, List.length_append, nearlyFull_length, hpacked]
  norm_num

/-- A bound on the body alone is not enough for the size of the whole packet. -/
theorem not_sizes_exact_nearlyFull :
    ¬ ∀ (ω : WriterAction) (e : Encoder ω) (s : Signature) (t : DataType) (v : Value),
      ω.Flushes → ω.start e.writer.starts = 0 → s.index ≠ 0 →
      e.done .registered s.index = true → t.LiteralsFit → WellTyped (fun _ => True) t v →
      (wire e.refs t v).length < 2 ^ 31 → SizesExact e s t v (WholeExact s t v) := by
  intro hall
  have hmem : (0 : UInt8) ∉ nearlyFull := fun h =>
    absurd (List.eq_of_mem_replicate h) (by decide)
  have hlen := wire_nearlyFull_length registeredEncoder.refs
  have hv : WellTyped (fun _ => True) (.prim .string) (.string nearlyFull) :=
    ⟨nearlyFull, rfl, hmem⟩
  have hlt : (wire registeredEncoder.refs (.prim .string) (.string nearlyFull)).length <
      2 ^ 31 := by
    rw [hlen]
    norm_num
  obtain ⟨body, _, hsize, _, hwhole⟩ := hall bytewise registeredEncoder
    (firstSignature [97] [0x27]) (.prim .string) (.string nearlyFull) (fun _ => rfl) rfl
    (by decide) (SigArray.get_set_self _ _ _) trivial hv hlt
  have hbody : body.length = 2 ^ 31 - 1 := by
    have := hsize.symm.trans (cSizeof_eq trivial hv hlt)
    rw [Option.some.injEq] at this
    omega
  -- an `int` cannot be as large as the packet
  have hbound : internalSizeof (firstSignature [97] [0x27]) (.prim .string)
      (.string nearlyFull) < 2 ^ 31 := wrap32_lt _
  rw [hwhole, samplePacket, List.length_append, counted_length, hbody] at hbound
  have hpos := packed32_length_pos (2 ^ 31 - 1)
  omega

end LabComm.C
