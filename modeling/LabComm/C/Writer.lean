import LabComm.Format.Wire
import LabComm.Library.Stream
import Mathlib.Data.List.TakeWhile

set_option autoImplicit false

/-! # The C writer

`struct labcomm2014_writer` and the functions of `labcomm2014_private.h` that put a value into
its buffer. The buffer is handed to the writer's `flush` action whenever it is full, which may
be before any byte of any value.

What the environment does is a schedule: the room of the buffer after each flush and the
results of the calls of `flush` and `start`. Every behaviour of a writer that delivers its
bytes in order is one of these.
-/

namespace LabComm.C

open Library

/-! ## Error codes -/

def ENOENT : Int := 2
def ENOMEM : Int := 12
def EINVAL : Int := 22
def ECONNRESET : Int := 104
def EALREADY : Int := 114

/-! ## The writer -/

/-- `struct labcomm2014_writer_action`, as what its calls do in order. -/
structure WriterAction where
  /-- One less than the room of the buffer after `n` flushes. -/
  room : Nat → Nat
  /-- The result of flush number `n`. -/
  flush : Nat → Int
  /-- The result of start number `n`. -/
  start : Nat → Int

/-- `struct labcomm2014_writer`: `data` holds the `pos` bytes of the buffer, `sent` what was
flushed before. -/
structure Writer (ω : WriterAction) where
  sent : List (List UInt8)
  data : List UInt8
  count : Nat
  error : Int
  flushes : Nat
  starts : Nat

variable {ω : WriterAction}

/-- `w->pos` -/
def Writer.pos (w : Writer ω) : Nat := w.data.length

/-- `labcomm2014_writer_flush` -/
def writerFlush : StateM (Writer ω) Int := fun w =>
  let result := ω.flush w.flushes
  if result = 0 then
    (0, { w with
      sent := w.sent ++ [w.data]
      data := []
      count := ω.room w.flushes + 1
      flushes := w.flushes + 1 })
  else
    (result, { w with error := result, flushes := w.flushes + 1 })

/-- `labcomm2014_writer_start`: the writers of the library return their error field. -/
def writerStart : StateM (Writer ω) Int := fun w =>
  let result := ω.start w.starts
  (result, { w with
    error := if result = -EALREADY then w.error else result
    starts := w.starts + 1 })

/-- `labcomm2014_writer_end`: the writers of the library flush what is left. -/
def writerEnd : StateM (Writer ω) Int := writerFlush

/-! ## Writing values -/

/-- `w->data[w->pos++] = b` -/
def storeByte (b : UInt8) : StateM (Writer ω) Unit := fun w =>
  ((), { w with data := w.data ++ [b] })

/-- `if (w->pos >= w->count) { err = labcomm2014_writer_flush(w, …); }` -/
def makeRoom : StateM (Writer ω) Int := do
  let w ← get
  if w.pos ≥ w.count then
    writerFlush
  else
    pure 0

/-- The loop every write function ends with: one byte at a time, flushing when the buffer is
full and stopping at the first error. -/
def writeBytes : List UInt8 → StateM (Writer ω) Int
  | [] => pure 0
  | b :: bs => do
      let err ← makeRoom
      if err ≠ 0 then
        return err
      storeByte b
      writeBytes bs

/-- One byte of a signature; the result of the flush is not looked at. -/
def writeRawByte (b : UInt8) : StateM (Writer ω) Unit := do
  let _ ← makeRoom
  storeByte b

/-- `LABCOMM_ENCODE`: the bytes of the object, from the one of highest weight down. -/
def writeScalar (size data : Nat) : StateM (Writer ω) Int := writeBytes (bigEndian size data)

/-- `labcomm2014_write_packed32`: the groups of `data` are stored lowest first and written from
the last one down, all but the first with the continuation bit. -/
def writePacked32 (data : Nat) : StateM (Writer ω) Int := writeBytes (flagged 0 (groups 5 data))

/-- `strlen`: a stored string ends at its first zero. -/
def strlen (s : List UInt8) : Nat := (s.takeWhile (· ≠ 0)).length

/-- `labcomm2014_write_string`; `length` is an `int`. -/
def writeString (s : List UInt8) : StateM (Writer ω) Int := do
  let length := wrap32 (strlen s)
  let err ← writePacked32 (toUnsigned length)
  if err ≠ 0 then
    return err
  writeBytes (s.take length.toNat)

/-- `labcomm2014_size_packed32` -/
def sizePacked32 (data : Nat) : Nat := (groups 5 data).length

/-- `labcomm2014_size_string` -/
def sizeString (s : List UInt8) : Int :=
  let length := wrap32 (strlen s)
  wrap32 (sizePacked32 (toUnsigned length) + length)

/-! ## What is written -/

/-- Everything that was stored, in order. -/
def Writer.written (w : Writer ω) : List UInt8 := w.sent.flatten ++ w.data

/-- Every flush succeeds. -/
def WriterAction.Flushes (ω : WriterAction) : Prop := ∀ n, ω.flush n = 0

instance : Sink (Writer ω) (Int × Nat) where
  written := Writer.written
  kept w := (w.error, w.starts)
  Ready _ := ω.Flushes

theorem writerFlush_emits : Emits (writerFlush (ω := ω)) 0 [] := by
  intro w hw
  have h : ω.flush w.flushes = 0 := hw _
  simp only [writerFlush, h, if_true]
  refine ⟨trivial, hw, rfl, ?_⟩
  simp [Sink.written, Writer.written]

theorem storeByte_emits (b : UInt8) : Emits (storeByte (ω := ω) b) () [b] := by
  intro w hw
  refine ⟨rfl, hw, rfl, ?_⟩
  simp [Sink.written, Writer.written, storeByte]

theorem makeRoom_emits : Emits (makeRoom (ω := ω)) 0 [] := by
  intro w hw
  by_cases hpos : w.pos ≥ w.count
  · have run : makeRoom w = writerFlush w := by
      show (if w.pos ≥ w.count then _ else _ : StateM (Writer ω) Int) w = _
      rw [if_pos hpos]
    rw [run]
    exact writerFlush_emits w hw
  · have run : makeRoom w = (0, w) := by
      show (if w.pos ≥ w.count then _ else _ : StateM (Writer ω) Int) w = _
      rw [if_neg hpos]
      rfl
    rw [run]
    exact Emits.pure 0 w hw

/-- Two writes, the second only when the first one succeeds. -/
theorem emits_andThen {m k : StateM (Writer ω) Int} {bs cs : List UInt8} (hm : Emits m 0 bs)
    (hk : Emits k 0 cs) :
    Emits (m >>= fun err => if err ≠ 0 then pure err else k) 0 (bs ++ cs) := by
  refine hm.bind ?_
  rw [if_neg (not_not.mpr rfl)]
  exact hk

theorem writeBytes_emits (bs : List UInt8) : Emits (writeBytes (ω := ω) bs) 0 bs := by
  induction bs with
  | nil => exact Emits.pure 0
  | cons b bs ih =>
      exact emits_andThen makeRoom_emits
        ((storeByte_emits b).bind (f := fun _ => writeBytes bs) ih)

/-- The loop over a signature stores a byte whatever the flush before it returned. -/
theorem writeRawByte_emits (b : UInt8) : Emits (writeRawByte (ω := ω) b) () [b] :=
  makeRoom_emits.bind (f := fun _ => storeByte b) (storeByte_emits b)

theorem writeScalar_emits (size data : Nat) :
    Emits (writeScalar (ω := ω) size data) 0 (bigEndian size data) := writeBytes_emits _

theorem writePacked32_emits (data : Nat) :
    Emits (writePacked32 (ω := ω) data) 0 (packed32 data) := writeBytes_emits _

theorem strlen_of_not_mem {s : List UInt8} (h : (0 : UInt8) ∉ s) : strlen s = s.length := by
  have all : s.takeWhile (· ≠ 0) = s := by
    rw [List.takeWhile_eq_self_iff]
    intro b hb
    simpa using fun h0 : b = 0 => h (h0 ▸ hb)
  rw [strlen, all]

/-- What is written of a string: as many of its characters as an `int` holds of its length. -/
def stringBytes (s : List UInt8) : List UInt8 :=
  packed32 (toUnsigned (wrap32 (strlen s))) ++ s.take (wrap32 (strlen s)).toNat

theorem writeString_emits (s : List UInt8) :
    Emits (writeString (ω := ω) s) 0 (stringBytes s) :=
  emits_andThen (writePacked32_emits _) (writeBytes_emits _)

theorem stringBytes_eq {s : List UInt8} (h0 : (0 : UInt8) ∉ s) (h1 : s.length < 2 ^ 31) :
    stringBytes s = packed32 s.length ++ s := by
  rw [stringBytes, strlen_of_not_mem h0, wrap32_natCast h1, Int.toNat_natCast,
    toUnsigned_natCast (by omega), List.take_length]

theorem sizePacked32_eq (data : Nat) : sizePacked32 data = (packed32 data).length := by
  simp [sizePacked32, packed32, varint]

end LabComm.C
