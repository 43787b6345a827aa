import LabComm.C.Codec

set_option autoImplicit false

/-! # The C codec gives every value back

A decoder generated for a type, run on what the encoder generated for the same type wrote,
returns an equal value and takes exactly the bytes of that value. The lengths of strings are
`int`s on both sides, and the decoder asks for memory for the NUL as well, so the strings have to
be shorter than `2 ^ 31 - 1`: of one of `2 ^ 31` or more the encoder writes the length reduced to
an `int`, and that many characters.
-/

namespace LabComm.C

open Library

/-- The encoder succeeds, and on any input that starts with the bytes it wrote the decoder
returns the value and leaves what follows. How the bytes are cut into buffers is up to the
writer `w` and the reader `r`. -/
def RoundTrips (refs : RefTables) (t : DataType) (v : Value) : Prop :=
  ∀ (ω : WriterAction) (w : Writer ω), ω.Flushes → ∃ bs,
    (cEncode refs t v w).1 = 0 ∧ (cEncode refs t v w).2.written = w.written ++ bs ∧
      ∀ (φ : Host) (r : Reader φ) (rest : List UInt8), r.error = 0 → r.unread = bs ++ rest →
        (cEmitDecoder refs.toRef t r).1 = v ∧ (cEmitDecoder refs.toRef t r).2.error = 0 ∧
          (cEmitDecoder refs.toRef t r).2.unread = rest

/-- **Round trip of the generated C code.** -/
theorem cDecode_cEncode (refs : RefTables) (t : DataType) (v : Value)
    (hv : WellTyped refs.Maps t v) (hs : StringsFit t v) : RoundTrips refs t v := by
  intro ω w hw
  obtain ⟨hres, _, _, hwritten⟩ := cEncode_emits hv hs.below w hw
  refine ⟨wire refs t v, hres, hwritten, fun φ r rest hr hu => ?_⟩
  obtain ⟨hval, hok, hrest⟩ :=
    (cEmitDecoder_parses refs t v hv hs).reads r rest (not_not.mpr hr) hu
  exact ⟨hval, not_not.mp hok, hrest⟩

/-- `byte a[_, 2]` with `n_0 = 1`. -/
theorem cDecode_cEncode_pair :
    RoundTrips noRefs (.array (.prim .byte) [.variableSize, .integerLiteral 2])
      (.array [1, 2] [.bits 7, .bits 255]) :=
  cDecode_cEncode _ _ _
    ⟨[1, 2], [.bits 7, .bits 255], rfl,
      .cons (show 0 ≤ (1 : Int) ∧ (1 : Int) < 2 ^ 31 by decide) (.cons rfl .nil), rfl,
      fun _ => by decide, by
        intro x hx
        simp only [List.mem_cons, List.not_mem_nil, or_false] at hx
        rcases hx with rfl | rfl
        · exact ⟨7, rfl, by decide⟩
        · exact ⟨255, rfl, by decide⟩⟩
    (by
      intro x hx
      simp only [List.mem_cons, List.not_mem_nil, or_false] at hx
      rcases hx with rfl | rfl <;> trivial)

/-! ## Strings longer than an `int` can count -/

/-- `2 ^ 32` times the letter `a`. -/
def longString : List UInt8 := List.replicate (2 ^ 32) 97

theorem longString_length : longString.length = 2 ^ 32 := List.length_replicate

theorem zero_not_mem_longString : (0 : UInt8) ∉ longString :=
  fun h => absurd (List.eq_of_mem_replicate h) (by decide)

/-- The long string is written as an empty one. -/
theorem cEncode_longString {ω : WriterAction} (refs : RefTables) :
    Emits (cEncode (ω := ω) refs (.prim .string) (.string longString)) 0 (packed32 0 ++ []) := by
  have hlen : wrap32 (strlen longString) = 0 := by
    rw [strlen_of_not_mem zero_not_mem_longString, longString_length]
    decide
  have hwrite := writeString_emits (ω := ω) longString
  rw [stringBytes, hlen] at hwrite
  exact cEncode_of_completes (orReturn_completes hwrite)

/-- A reader of which everything is in its buffer. -/
def Reader.ofBytes (φ : Host) (bs : List UInt8) : Reader φ :=
  ⟨bs, 0, 0, [], by simp, Or.inl rfl⟩

theorem Reader.ofBytes_unread (φ : Host) (bs : List UInt8) :
    (Reader.ofBytes φ bs).unread = bs := by
  simp [Reader.ofBytes, Reader.unread]

/-- A writer that has to be flushed before each byte, and always can be. -/
def bytewise : WriterAction := ⟨fun _ => 0, fun _ => 0, fun _ => 0⟩

/-- A writer nothing was written to. -/
def Writer.empty (ω : WriterAction) : Writer ω := ⟨[], [], 0, 0, 0, 0⟩

/-- Without the bound on the lengths of strings the round trip fails. -/
theorem not_roundTrips_longString :
    ¬ ∀ (refs : RefTables) (t : DataType) (v : Value), WellTyped refs.Maps t v →
      RoundTrips refs t v := by
  intro hall
  obtain ⟨bs, _, hwritten, hread⟩ := hall noRefs (.prim .string) (.string longString)
    ⟨longString, rfl, zero_not_mem_longString⟩ bytewise (.empty bytewise) (fun _ => rfl)
  have hbs : bs = packed32 0 ++ [] := by
    have := (cEncode_longString noRefs (Writer.empty bytewise) (fun _ => rfl)).2.2.2
    exact List.append_cancel_left (hwritten.symm.trans this)
  let φ : Host := .of (-1) (by decide)
  have hdecode := (hread φ (.ofBytes φ bs) [] rfl (by rw [Reader.ofBytes_unread]; simp)).1
  have hempty := ((cEmitDecoder_parses (φ := φ) noRefs (.prim .string) (.string [])
    ⟨[], rfl, by simp⟩ (show 0 < 2 ^ 31 - 1 by decide)).reads (.ofBytes φ bs) [] (not_not.mpr rfl)
    (by
      rw [List.append_nil]
      show (Reader.ofBytes φ bs).unread = _
      rw [Reader.ofBytes_unread, hbs]
      rfl)).1
  rw [hdecode, Value.string.injEq] at hempty
  have := congrArg List.length hempty
  rw [longString_length] at this
  exact absurd this (by decide)

end LabComm.C
