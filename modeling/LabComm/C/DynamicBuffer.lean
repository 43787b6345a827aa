import LabComm.C.WriterStatements

set_option autoImplicit false

/-! # The dynamic buffer writer

`labcomm2014_dynamic_buffer_writer.c`: the buffer has 1000 bytes at the start of a packet, and
grows by 1000 when it is full. `count` is raised before the memory is asked for, and stays raised
when the memory has none; the registrations go on storing then.

The bytes that are stored lie inside of the buffer in a run exactly if the first allocation and
every growth of the run succeed (`staysInBounds_iff`). A `realloc` that fails at the start of a
packet does no harm.
-/

namespace LabComm.C

open Library

/-! ## The writer -/

/-- Whether the memory gives the writer what it asks for: in `dyn_alloc`, and in each call of
`dyn_start` and `dyn_flush`. -/
structure MemoryAnswers where
  alloc : Bool
  start : Nat → Bool
  flush : Nat → Bool

/-- The fields that say where a byte is stored. -/
structure Extent where
  pos : Int
  count : Int
  /-- The number of bytes at `data`, 0 when it is null. -/
  allocated : Int
  deriving DecidableEq

/-- The next byte that is stored without a flush lies inside of the buffer. -/
def Extent.InBounds (b : Extent) : Prop := 0 ≤ b.pos ∧ b.pos ≤ b.count ∧ b.count ≤ b.allocated

/-- `struct labcomm2014_writer`, with the extents after each action and each store. -/
structure DynWriter where
  dataSize : Int
  extent : Extent
  error : Int
  starts : Nat
  flushes : Nat
  extents : List Extent

/-- The writer with a new extent. -/
def DynWriter.extend (w : DynWriter) (b : Extent) : DynWriter :=
  { w with extent := b, extents := w.extents ++ [b] }

/-- `labcomm2014_memory_realloc` for `size` bytes; no memory has a negative `size`, which is a
`size_t` there. -/
def request (answer : Bool) (size : Int) : Option Int :=
  if answer = true ∧ 0 ≤ size then some size else none

/-- `dyn_alloc` -/
def dynAlloc (m : MemoryAnswers) : StateM DynWriter Int := fun w =>
  let size := 1000
  let data := request m.alloc size
  let error := if data.isSome then w.error else -ENOMEM
  (error, { w with dataSize := size, error := error }.extend ⟨0, size, data.getD 0⟩)

/-- `dyn_start` -/
def dynStart (m : MemoryAnswers) : StateM DynWriter Int := fun w =>
  let size := 1000
  let tmp := request (m.start w.starts) size
  let error := if tmp.isSome then 0 else -ENOMEM
  (error, { w with dataSize := size, error := error, starts := w.starts + 1 }.extend
    ⟨0, size, tmp.getD w.extent.allocated⟩)

/-- `dyn_flush` -/
def dynFlush (m : MemoryAnswers) : StateM DynWriter Int := fun w =>
  let size := wrap32 (w.dataSize + 1000)
  let tmp := request (m.flush w.flushes) size
  -- the old pointer in data is still valid
  let error := if tmp.isSome then 0 else -ENOMEM
  (error, { w with dataSize := size, error := error, flushes := w.flushes + 1 }.extend
    ⟨w.extent.pos, size, tmp.getD w.extent.allocated⟩)

/-- `w->data[w->pos] = b; w->pos++` -/
def dynStore (_ : UInt8) : StateM DynWriter Unit := fun w =>
  ((), w.extend { w.extent with pos := wrap32 (w.extent.pos + 1) })

/-- `labcomm2014_dynamic_buffer_writer_action`; `dyn_end` does nothing. -/
def dynInterface (m : MemoryAnswers) : WriterInterface DynWriter where
  full w := decide (w.extent.pos ≥ w.extent.count)
  store := dynStore
  flush := dynFlush m
  start := dynStart m
  finish := pure ()
  error := DynWriter.error

/-! ## The encoder -/

/-- The writer as `internal_encoder_new` initializes it. -/
def newDynWriter : DynWriter := ⟨0, ⟨0, 0, 0⟩, 0, 0, 0, []⟩

/-- `internal_encoder_new`: no result is looked at. -/
def dynEncoderNew (m : MemoryAnswers) : EncoderOn DynWriter :=
  let w := (dynStart m (dynAlloc m newDynWriter).2).2
  ⟨(dynInterface m).sent versionWrites w, .init, .init, .init⟩

/-- The calls in order, until one ends the process. -/
def runOperations (m : MemoryAnswers) :
    List Operation → EncoderOn DynWriter → EncoderOn DynWriter
  | [], e => e
  | op :: ops, e =>
      match (op.runOn (dynInterface m)).run e with
      | (.ok _, e) => runOperations m ops e
      | (.error _, e) => e

/-- Every extent of the run is in bounds. -/
def StaysInBounds (m : MemoryAnswers) (ops : List Operation) : Prop :=
  ∀ b ∈ (runOperations m ops (dynEncoderNew m)).writer.extents, b.InBounds

/-! ## What a call needs -/

variable {σ : Type}

/-- The statements of a result that is no exit. -/
def okWrites : Except Exit (List Write) → List Write
  | .ok ws => ws
  | .error _ => []

/-- The statements of the packet of a call, none if the call is refused or ends the process. -/
def Operation.packet (e : EncoderOn σ) : Operation → List Write
  | sampleRegister s =>
      if s.index ≤ 0 ∨ e.done .registered s.index = true then []
      else okWrites (flatWrites LABCOMM_SAMPLE_DEF s s.index)
  | refRegister s =>
      if s.index ≤ 0 ∨ e.done .sampleRef s.index = true then []
      else okWrites (flatWrites LABCOMM_SAMPLE_REF s s.index)
  | typeRegister s =>
      if s.index ≤ 0 ∨ e.done .typedefs s.index = true then []
      else okWrites (typeWrites s s.index)
  | typeBind s hasDeps =>
      if s.index ≤ 0 then [] else bindingWrites s.index (if hasDeps then s.index else 0)
  | encode s type v =>
      if s.index = 0 ∨ e.registered.get s.index = false then []
      else sampleWrites e.refs s.index ((cSizeof type v).getD 0) type v

/-- The number of bytes of a statement. -/
def Write.length : Write → Nat
  | checked bs => bs.length
  | ignored bs => bs.length
  | raw _ => 1

/-- The number of bytes of a packet. -/
def packetLength (ws : List Write) : Nat := (ws.map Write.length).sum

/-- The memory gives the packet its room: every growth from 1000 bytes on succeeds, and the size
stays an `int`. A packet whose start fails needs none. -/
def HasRoom (m : MemoryAnswers) (w : DynWriter) (length : Nat) : Prop :=
  m.start w.starts = true →
    length ≤ 2147483000 ∧ ∀ k < (length - 1) / 1000, m.flush (w.flushes + k) = true

/-- Every call of the run has its room, in the state before the call. -/
def EveryCallHasRoom (m : MemoryAnswers) : List Operation → EncoderOn DynWriter → Prop
  | [], _ => True
  | op :: ops, e => HasRoom m e.writer (packetLength (op.packet e)) ∧
      match (op.runOn (dynInterface m)).run e with
      | (.ok _, e) => EveryCallHasRoom m ops e
      | (.error _, _) => True

/-! ## The extents of a run -/

section Proofs

variable (m : MemoryAnswers)

/-- Everything seen so far is in bounds. -/
def DynWriter.Safe (w : DynWriter) : Prop := ∀ b ∈ w.extents, b.InBounds

/-- The writer after a start that succeeded. -/
structure DynWriter.Open (w : DynWriter) : Prop where
  safe : w.Safe
  size : w.dataSize = w.extent.count
  full : w.extent.allocated = w.extent.count
  bounds : w.extent.InBounds
  lower : 1000 ≤ w.extent.count
  upper : w.extent.count < 2 ^ 31

/-- The bytes that can be stored before the next flush. -/
def DynWriter.room (w : DynWriter) : Nat := (w.extent.count - w.extent.pos).toNat

/-- `n` bytes can be stored, with `room` bytes left of `count`, and after `flushes` flushes. -/
def Grants : Nat → Int → Nat → Nat → Prop
  | _, _, _, 0 => True
  | room + 1, count, flushes, n + 1 => Grants room count flushes n
  | 0, count, flushes, n + 1 =>
      (m.flush flushes = true ∧ count + 1000 < 2 ^ 31) ∧ Grants 999 (count + 1000) (flushes + 1) n

/-- The writer can store `n` bytes. -/
def DynWriter.Grants (w : DynWriter) (n : Nat) : Prop :=
  C.Grants m w.room w.extent.count w.flushes n

@[simp] theorem extend_extents (w : DynWriter) (b : Extent) :
    (w.extend b).extents = w.extents ++ [b] := rfl

theorem extend_safe {w : DynWriter} {b : Extent} (hw : w.Safe) (hb : b.InBounds) :
    (w.extend b).Safe := by
  intro c hc
  rcases List.mem_append.mp hc with hc | hc
  · exact hw c hc
  · rw [List.mem_singleton.mp hc]
    exact hb

theorem extend_outside {w : DynWriter} {b : Extent} (hb : ¬ b.InBounds) : ¬ (w.extend b).Safe :=
  fun h => hb (h b (List.mem_append_right _ List.mem_cons_self))

/-- How often the buffer has to grow for `n` bytes. -/
theorem grants_iff (room : Nat) (count : Int) (flushes n : Nat) :
    Grants m room count flushes n ↔ ∀ k < (n - room + 999) / 1000,
      m.flush (flushes + k) = true ∧ count + 1000 * (k + 1) < 2 ^ 31 := by
  induction n generalizing room count flushes with
  | zero => simp [Grants]
  | succ n ih =>
      cases room with
      | succ room =>
          have hsub : n + 1 - (room + 1) = n - room := by omega
          rw [Grants, ih, hsub]
      | zero =>
          have hcount : (n + 1 - 0 + 999) / 1000 = (n - 999 + 999) / 1000 + 1 := by omega
          rw [Grants, ih, hcount]
          constructor
          · rintro ⟨⟨hflush, hlt⟩, hrest⟩ k hk
            cases k with
            | zero => exact ⟨hflush, by simpa using hlt⟩
            | succ k =>
                obtain ⟨hf, hc⟩ := hrest k (by omega)
                refine ⟨by rw [← hf]; congr 1; omega, ?_⟩
                push_cast at hc ⊢
                omega
          · intro h
            have hfirst := h 0 (by omega)
            refine ⟨⟨hfirst.1, by simpa using hfirst.2⟩, fun k hk => ?_⟩
            obtain ⟨hf, hc⟩ := h (k + 1) (by omega)
            refine ⟨by rw [← hf]; congr 1; omega, ?_⟩
            push_cast at hc ⊢
            omega

/-- The same for a packet, which starts with a buffer of 1000 bytes. -/
theorem grants_packet (flushes n : Nat) :
    Grants m 1000 1000 flushes n ↔
      n ≤ 2147483000 ∧ ∀ k < (n - 1) / 1000, m.flush (flushes + k) = true := by
  have hcount : (n - 1000 + 999) / 1000 = (n - 1) / 1000 := by omega
  rw [grants_iff, hcount]
  constructor
  · intro h
    refine ⟨?_, fun k hk => (h k hk).1⟩
    by_contra hlarge
    have hlast := (h ((n - 1) / 1000 - 1) (by omega)).2
    omega
  · rintro ⟨hle, hflush⟩ k hk
    exact ⟨hflush k hk, by omega⟩

/-! ## One byte -/

variable {m}

theorem makeRoom_room {w : DynWriter} (h : w.room ≠ 0) :
    (dynInterface m).makeRoom w = (0, w) := by
  have hlt : ¬ w.extent.pos ≥ w.extent.count := by
    rw [DynWriter.room] at h
    omega
  exact if_neg (by simpa [dynInterface] using hlt)

theorem makeRoom_full {w : DynWriter} (h : w.room = 0) :
    (dynInterface m).makeRoom w = dynFlush m w := by
  have hge : w.extent.pos ≥ w.extent.count := by
    rw [DynWriter.room] at h
    omega
  exact if_pos (by simpa [dynInterface] using hge)

/-- A flush that succeeds gives 1000 bytes more. -/
theorem dynFlush_granted {w : DynWriter} (hw : w.Open) (h : w.room = 0)
    (hf : m.flush w.flushes = true) (hc : w.extent.count + 1000 < 2 ^ 31) :
    (dynFlush m w).1 = 0 ∧ (dynFlush m w).2.Open ∧ (dynFlush m w).2.room = 1000 ∧
      (dynFlush m w).2.extent.count = w.extent.count + 1000 ∧
      (dynFlush m w).2.flushes = w.flushes + 1 := by
  obtain ⟨h0, h1, h2⟩ := hw.bounds
  have hsize : wrap32 (w.dataSize + 1000) = w.extent.count + 1000 := by
    rw [hw.size, wrap32_of_lt (by omega) hc]
  have hreq : request (m.flush w.flushes) (w.extent.count + 1000) =
      some (w.extent.count + 1000) := if_pos ⟨hf, by omega⟩
  have hrun : dynFlush m w = (0, { w with
      dataSize := w.extent.count + 1000, error := 0, flushes := w.flushes + 1 }.extend
        ⟨w.extent.pos, w.extent.count + 1000, w.extent.count + 1000⟩) := by
    simp only [dynFlush, hsize, hreq]
    rfl
  rw [DynWriter.room] at h
  have hbounds : (Extent.mk w.extent.pos (w.extent.count + 1000)
      (w.extent.count + 1000)).InBounds := ⟨h0, by simp only; omega, le_rfl⟩
  rw [hrun]
  refine ⟨rfl, ⟨extend_safe hw.safe hbounds, rfl, rfl, hbounds, ?_, hc⟩, ?_, rfl, rfl⟩
  · have hlower := hw.lower
    show 1000 ≤ w.extent.count + 1000
    omega
  show (w.extent.count + 1000 - w.extent.pos).toNat = 1000
  omega

/-- A flush that fails leaves `count` larger than the buffer. -/
theorem dynFlush_refused {w : DynWriter} (hw : w.Open)
    (hf : ¬ (m.flush w.flushes = true ∧ w.extent.count + 1000 < 2 ^ 31)) :
    ¬ (dynFlush m w).2.Safe := by
  obtain ⟨h0, h1, h2⟩ := hw.bounds
  have hupper := hw.upper
  refine extend_outside ?_
  rintro ⟨-, hcount, hallocated⟩
  rw [hw.size] at hcount hallocated
  simp only at hcount hallocated
  by_cases hlt : w.extent.count + 1000 < 2 ^ 31
  · -- the memory refuses
    rw [wrap32_of_lt (by omega) hlt] at hallocated
    have hnone : request (m.flush w.flushes) (w.extent.count + 1000) = none :=
      if_neg fun hreq => hf ⟨hreq.1, hlt⟩
    rw [hnone, Option.getD_none, hw.full] at hallocated
    omega
  · -- the size is no int
    obtain ⟨k, hk⟩ := Int.eq_ofNat_of_zero_le (a := w.extent.count + 1000) (by omega)
    rw [hk, wrap32_natCast_of_ge (by omega) (by omega)] at hcount
    omega

/-- A byte that is stored in the room there is. -/
theorem dynStore_open {w : DynWriter} (hw : w.Open) (h : w.room ≠ 0) (b : UInt8) :
    (dynStore b w).2.Open ∧ (dynStore b w).2.room = w.room - 1 ∧
      (dynStore b w).2.extent.count = w.extent.count ∧
      (dynStore b w).2.flushes = w.flushes := by
  obtain ⟨h0, h1, h2⟩ := hw.bounds
  have hupper := hw.upper
  rw [DynWriter.room] at h
  have hpos : wrap32 (w.extent.pos + 1) = w.extent.pos + 1 :=
    wrap32_of_lt (by omega) (by omega)
  have hrun : (dynStore b w).2 = w.extend { w.extent with pos := w.extent.pos + 1 } := by
    rw [dynStore, hpos]
  have hbounds : (Extent.mk (w.extent.pos + 1) w.extent.count w.extent.allocated).InBounds :=
    ⟨by simp only; omega, by simp only; omega, h2⟩
  rw [hrun]
  refine ⟨⟨extend_safe hw.safe hbounds, hw.size, hw.full, hbounds, hw.lower, hupper⟩, ?_,
    rfl, rfl⟩
  show (w.extent.count - (w.extent.pos + 1)).toNat = (w.extent.count - w.extent.pos).toNat - 1
  omega

/-! ## Many bytes -/

/-- `w'` is what `w` becomes when `n` bytes are stored and the memory grants them. -/
structure Advanced (m : MemoryAnswers) (w w' : DynWriter) (n : Nat) : Prop where
  opened : w'.Open
  grants : ∀ k, w.Grants m (n + k) ↔ w'.Grants m k

theorem Advanced.refl {w : DynWriter} (hw : w.Open) : Advanced m w w 0 :=
  ⟨hw, fun k => by rw [Nat.zero_add]⟩

theorem Advanced.trans {w w' w'' : DynWriter} {n k : Nat} (h : Advanced m w w' n)
    (h' : Advanced m w' w'' k) : Advanced m w w'' (n + k) :=
  ⟨h'.opened, fun i => by rw [Nat.add_assoc, h.grants, h'.grants]⟩

/-- The memory grants a packet if it grants a part and then the rest. -/
theorem grants_add {room : Nat} {count : Int} {flushes n k : Nat}
    (h : Grants m room count flushes (n + k)) : Grants m room count flushes n := by
  induction n generalizing room count flushes with
  | zero => exact trivial
  | succ n ih =>
      rw [Nat.succ_add] at h
      cases room with
      | succ room => exact ih h
      | zero => exact ⟨h.1, ih h.2⟩

/-- The program only adds to what is seen of the writer. -/
def Keeps {α : Type} (f : StateM DynWriter α) : Prop := ∀ w, w.extents <+: (f w).2.extents

theorem Keeps.not_safe {α : Type} {f : StateM DynWriter α} (h : Keeps f) {w : DynWriter}
    (hw : ¬ w.Safe) : ¬ (f w).2.Safe :=
  fun hs => hw fun b hb => hs b ((h w).subset hb)

theorem dynStart_keeps : Keeps (dynStart m) := fun w => List.prefix_append w.extents _

theorem makeRoom_keeps : Keeps (dynInterface m).makeRoom := by
  intro w
  by_cases h : w.room = 0
  · rw [makeRoom_full h]
    exact List.prefix_append w.extents _
  · rw [makeRoom_room h]

theorem dynStore_keeps (b : UInt8) : Keeps (dynStore b) := fun w => List.prefix_append w.extents _

theorem putBytes_keeps (bs : List UInt8) : Keeps ((dynInterface m).putBytes bs) := by
  induction bs with
  | nil => exact fun w => List.prefix_rfl
  | cons b bs ih =>
      intro w
      rw [putBytes_cons]
      have hroom := makeRoom_keeps (m := m) w
      split
      · exact hroom
      · exact hroom.trans ((dynStore_keeps b _).trans (ih _))

theorem attempt_keeps (ws : Write) : Keeps ((dynInterface m).attempt ws) := by
  cases ws with
  | checked bs => exact putBytes_keeps bs
  | ignored bs => exact putBytes_keeps bs
  | raw b => exact fun w => (makeRoom_keeps w).trans (dynStore_keeps b _)

theorem perform_keeps (ws : List Write) : Keeps ((dynInterface m).perform ws) := by
  induction ws with
  | nil => exact fun w => List.prefix_rfl
  | cons w ws ih =>
      intro x
      rw [perform_cons]
      have hfirst := attempt_keeps (m := m) w x
      split
      · exact hfirst
      · exact hfirst.trans (ih _)

/-- What a byte does, whatever is done about the result of the flush. -/
theorem byte_stored {w : DynWriter} (hw : w.Open) (b : UInt8) :
    (w.Grants m 1 → ((dynInterface m).makeRoom w).1 = 0 ∧
      Advanced m w (dynStore b ((dynInterface m).makeRoom w).2).2 1) ∧
    (¬ w.Grants m 1 → ¬ ((dynInterface m).makeRoom w).2.Safe) := by
  by_cases h : w.room = 0
  · have hiff : ∀ k, w.Grants m (1 + k) ↔
        (m.flush w.flushes = true ∧ w.extent.count + 1000 < 2 ^ 31) ∧
          Grants m 999 (w.extent.count + 1000) (w.flushes + 1) k := by
      intro k
      rw [DynWriter.Grants, h, Nat.add_comm]
      rfl
    have hone := hiff 0
    rw [makeRoom_full h]
    refine ⟨fun hgrants => ?_, fun hrefused => dynFlush_refused hw fun hf =>
      hrefused (hone.mpr ⟨hf, trivial⟩)⟩
    obtain ⟨⟨hf, hc⟩, -⟩ := hone.mp hgrants
    obtain ⟨hresult, hopen, hroom, hcount, hflushes⟩ := dynFlush_granted hw h hf hc
    obtain ⟨hopen', hroom', hcount', hflushes'⟩ := dynStore_open hopen (by omega) b
    refine ⟨hresult, hopen', fun k => ?_⟩
    rw [hiff, DynWriter.Grants, hroom', hcount', hflushes', hroom, hcount, hflushes]
    exact ⟨fun hboth => hboth.2, fun hrest => ⟨⟨hf, hc⟩, hrest⟩⟩
  · obtain ⟨room, hroom⟩ := Nat.exists_eq_succ_of_ne_zero h
    have hiff : ∀ k, w.Grants m (1 + k) ↔ Grants m room w.extent.count w.flushes k := by
      intro k
      rw [DynWriter.Grants, hroom, Nat.add_comm]
      rfl
    rw [makeRoom_room h]
    refine ⟨fun _ => ⟨rfl, ?_⟩, fun hrefused => absurd ((hiff 0).mpr trivial) hrefused⟩
    obtain ⟨hopen', hroom', hcount', hflushes'⟩ := dynStore_open hw h b
    refine ⟨hopen', fun k => ?_⟩
    rw [hiff, DynWriter.Grants, hroom', hcount', hflushes', hroom]
    rfl

/-- The program stores `n` bytes and returns 0 if the memory grants them, and is seen to leave the
bounds otherwise. -/
def Stores (m : MemoryAnswers) (f : StateM DynWriter Int) (n : Nat) : Prop :=
  ∀ w : DynWriter, w.Open →
    (w.Grants m n → (f w).1 = 0 ∧ Advanced m w (f w).2 n) ∧ (¬ w.Grants m n → ¬ (f w).2.Safe)

/-- Two programs after each other, if the second is not run only when the first one fails. -/
theorem Stores.andThen {f g k : StateM DynWriter Int} {n i : Nat} (hf : Stores m f n)
    (hg : Stores m g i) (hkeeps : Keeps g)
    (hk : ∀ w, k w = f w ∧ (f w).1 ≠ 0 ∨ k w = g (f w).2) : Stores m k (n + i) := by
  intro w hw
  obtain ⟨hgranted, hrefused⟩ := hf w hw
  by_cases hn : w.Grants m n
  · obtain ⟨hzero, hadv⟩ := hgranted hn
    have hrun : k w = g (f w).2 := (hk w).resolve_left fun hfirst => hfirst.2 hzero
    obtain ⟨hgranted', hrefused'⟩ := hg (f w).2 hadv.opened
    rw [hrun, hadv.grants]
    exact ⟨fun hi => ⟨(hgranted' hi).1, hadv.trans (hgranted' hi).2⟩, hrefused'⟩
  · refine ⟨fun hboth => absurd (grants_add hboth) hn, fun _ => ?_⟩
    rcases hk w with ⟨hrun, -⟩ | hrun
    · rw [hrun]
      exact hrefused hn
    · rw [hrun]
      exact hkeeps.not_safe (hrefused hn)

theorem raw_stores (b : UInt8) : Stores m ((dynInterface m).attempt (.raw b)) 1 := by
  intro w hw
  obtain ⟨hgranted, hrefused⟩ := byte_stored (m := m) hw b
  exact ⟨hgranted, fun h => (dynStore_keeps b).not_safe (hrefused h)⟩

theorem putBytes_stores (bs : List UInt8) :
    Stores m ((dynInterface m).putBytes bs) bs.length := by
  induction bs with
  | nil => exact fun w hw => ⟨fun _ => ⟨rfl, Advanced.refl hw⟩, fun h => absurd trivial h⟩
  | cons b bs ih =>
      rw [List.length_cons, Nat.add_comm]
      intro w hw
      obtain ⟨hgranted, hrefused⟩ := byte_stored (m := m) hw b
      rw [putBytes_cons]
      by_cases hone : w.Grants m 1
      · obtain ⟨hzero, hadv⟩ := hgranted hone
        obtain ⟨hgranted', hrefused'⟩ := ih _ hadv.opened
        rw [if_neg (not_not.mpr hzero), hadv.grants]
        exact ⟨fun hrest => ⟨(hgranted' hrest).1, hadv.trans (hgranted' hrest).2⟩, hrefused'⟩
      · refine ⟨fun hboth => absurd (grants_add hboth) hone, fun _ => ?_⟩
        split
        · exact hrefused hone
        · exact (putBytes_keeps bs).not_safe ((dynStore_keeps b).not_safe (hrefused hone))

theorem attempt_stores (w : Write) : Stores m ((dynInterface m).attempt w) w.length := by
  cases w with
  | checked bs => exact putBytes_stores bs
  | ignored bs => exact putBytes_stores bs
  | raw b => exact raw_stores b

/-- **The statements of a packet**, whether or not their results are looked at. -/
theorem perform_stores (ws : List Write) :
    Stores m ((dynInterface m).perform ws) (packetLength ws) := by
  induction ws with
  | nil => exact fun w hw => ⟨fun _ => ⟨rfl, Advanced.refl hw⟩, fun h => absurd trivial h⟩
  | cons w ws ih =>
      rw [packetLength, List.map_cons, List.sum_cons]
      refine (attempt_stores w).andThen ih (perform_keeps ws) fun x => ?_
      rw [perform_cons]
      by_cases h : w.isChecked = true ∧ ((dynInterface m).attempt w x).1 ≠ 0
      · rw [if_pos h]
        exact .inl ⟨rfl, h.2⟩
      · rw [if_neg h]
        exact .inr rfl

/-! ## Packets -/

/-- The writer between two packets: there is a buffer of at least 1000 bytes. -/
structure DynWriter.Idle (w : DynWriter) : Prop where
  safe : w.Safe
  large : 1000 ≤ w.extent.allocated

theorem DynWriter.Open.idle {w : DynWriter} (h : w.Open) : w.Idle :=
  ⟨h.safe, by have := h.lower; rw [h.full]; exact this⟩

/-- A start that succeeds leaves a buffer of 1000 bytes, whatever was there before. -/
theorem dynStart_granted {w : DynWriter} (hw : w.Safe) (h : m.start w.starts = true) :
    (dynStart m w).1 = 0 ∧ (dynStart m w).2.Open ∧ (dynStart m w).2.room = 1000 ∧
      (dynStart m w).2.extent.count = 1000 ∧ (dynStart m w).2.flushes = w.flushes := by
  have hreq : request (m.start w.starts) 1000 = some 1000 := if_pos ⟨h, by decide⟩
  have hrun : dynStart m w = (0, { w with
      dataSize := 1000, error := 0, starts := w.starts + 1 }.extend ⟨0, 1000, 1000⟩) := by
    simp only [dynStart, hreq]
    rfl
  have hbounds : (Extent.mk 0 1000 1000).InBounds := by
    simp [Extent.InBounds]
  rw [hrun]
  exact ⟨rfl, ⟨extend_safe hw hbounds, rfl, rfl, hbounds, le_rfl, by simp [DynWriter.extend]⟩,
    rfl, rfl, rfl⟩

/-- A start that fails leaves the old buffer, which is no smaller. -/
theorem dynStart_refused {w : DynWriter} (hw : w.Idle) (h : m.start w.starts = false) :
    (dynStart m w).1 = -ENOMEM ∧ (dynStart m w).2.Idle := by
  have hreq : request (m.start w.starts) 1000 = none := if_neg (by simp [h])
  have hrun : dynStart m w = (-ENOMEM, { w with
      dataSize := 1000, error := -ENOMEM, starts := w.starts + 1 }.extend
        ⟨0, 1000, w.extent.allocated⟩) := by
    simp only [dynStart, hreq]
    rfl
  have hlarge := hw.large
  have hbounds : (Extent.mk 0 1000 w.extent.allocated).InBounds :=
    ⟨le_rfl, by simp, hlarge⟩
  rw [hrun]
  exact ⟨rfl, extend_safe hw.safe hbounds, hlarge⟩

/-- A packet that is started stays in bounds exactly if it has its room. -/
theorem packet_idle {w : DynWriter} (hw : w.Idle) (h : m.start w.starts = true)
    (ws : List Write) :
    (HasRoom m w (packetLength ws) →
      ((dynInterface m).perform ws (dynStart m w).2).2.Idle) ∧
    (¬ HasRoom m w (packetLength ws) →
      ¬ ((dynInterface m).perform ws (dynStart m w).2).2.Safe) := by
  obtain ⟨-, hopen, hroom, hcount, hflushes⟩ := dynStart_granted hw.safe h
  obtain ⟨hgranted, hrefused⟩ := perform_stores ws _ hopen
  have hiff : HasRoom m w (packetLength ws) ↔ (dynStart m w).2.Grants m (packetLength ws) := by
    rw [DynWriter.Grants, hroom, hcount, hflushes, grants_packet]
    exact ⟨fun hall => hall h, fun hall _ => hall⟩
  rw [hiff]
  exact ⟨fun hall => (hgranted hall).2.opened.idle, hrefused⟩

/-! ## Calls -/

theorem sendOn_writer (writes : Except Exit (List Write)) (e : EncoderOn DynWriter) :
    ((dynStart m e.writer).1 ≠ 0 ∧
      ((sendOn (dynInterface m) writes).run e).2.writer = (dynStart m e.writer).2) ∨
    ((dynStart m e.writer).1 = 0 ∧ ((sendOn (dynInterface m) writes).run e).2.writer =
      ((dynInterface m).perform (okWrites writes) (dynStart m e.writer).2).2) := by
  have hstart : (dynInterface m).start = dynStart m := rfl
  rw [sendOn_run, hstart]
  by_cases h : (dynStart m e.writer).1 = 0
  · rw [h, if_neg (by decide), if_neg (by decide)]
    refine .inr ⟨rfl, ?_⟩
    cases writes with
    | error exit => rfl
    | ok ws => rfl
  · refine .inl ⟨h, ?_⟩
    by_cases h1 : (dynStart m e.writer).1 = -EALREADY
    · rw [if_pos h1]
      rfl
    · rw [if_neg h1, if_pos h]
      rfl

theorem registerOn_writer (table : Table) (s : Signature)
    (writes : Int → Except Exit (List Write)) (e : EncoderOn DynWriter) :
    ((s.index ≤ 0 ∨ e.done table s.index = true) ∧
      ((registerOn (dynInterface m) table s writes).run e).2.writer = e.writer) ∨
    (¬ (s.index ≤ 0 ∨ e.done table s.index = true) ∧
      ((registerOn (dynInterface m) table s writes).run e).2.writer =
        ((sendOn (dynInterface m) (writes s.index)).run (e.setDone table s.index)).2.writer) := by
  rw [registerOn_run]
  by_cases h0 : s.index = 0
  · rw [if_pos h0]
    exact .inl ⟨.inl h0.le, rfl⟩
  rw [if_neg h0]
  by_cases h1 : s.index ≤ 0 ∨ e.done table s.index = true
  · rw [if_pos h1]
    exact .inl ⟨h1, rfl⟩
  · rw [if_neg h1]
    exact .inr ⟨h1, rfl⟩

/-- **What a call does to the writer**: nothing, a start that fails, or a packet. -/
theorem operation_writer (op : Operation) (e : EncoderOn DynWriter) :
    (op.packet e = [] ∧ ((op.runOn (dynInterface m)).run e).2.writer = e.writer) ∨
    ((dynStart m e.writer).1 ≠ 0 ∧
      ((op.runOn (dynInterface m)).run e).2.writer = (dynStart m e.writer).2) ∨
    ((dynStart m e.writer).1 = 0 ∧ ((op.runOn (dynInterface m)).run e).2.writer =
      ((dynInterface m).perform (op.packet e) (dynStart m e.writer).2).2) := by
  -- the three registrations differ in what they write only
  have hregister : ∀ (table : Table) (s : Signature) (writes : Int → Except Exit (List Write)),
      ((if s.index ≤ 0 ∨ e.done table s.index = true then [] else okWrites (writes s.index)) = [] ∧
        ((registerOn (dynInterface m) table s writes).run e).2.writer = e.writer) ∨
      ((dynStart m e.writer).1 ≠ 0 ∧
        ((registerOn (dynInterface m) table s writes).run e).2.writer =
          (dynStart m e.writer).2) ∨
      ((dynStart m e.writer).1 = 0 ∧
        ((registerOn (dynInterface m) table s writes).run e).2.writer =
          ((dynInterface m).perform (if s.index ≤ 0 ∨ e.done table s.index = true then []
            else okWrites (writes s.index)) (dynStart m e.writer).2).2) := by
    intro table s writes
    rcases registerOn_writer (m := m) table s writes e with ⟨hno, hrun⟩ | ⟨hgo, hrun⟩
    · exact .inl ⟨if_pos hno, hrun⟩
    · rw [hrun, if_neg hgo]
      have hsend := sendOn_writer (m := m) (writes s.index) (e.setDone table s.index)
      rw [EncoderOn.setDone_writer] at hsend
      exact .inr hsend
  cases op with
  | sampleRegister s => exact hregister .registered s _
  | refRegister s => exact hregister .sampleRef s _
  | typeRegister s => exact hregister .typedefs s _
  | typeBind s hasDeps =>
      simp only [Operation.runOn, Operation.packet]
      rw [doTypeBindOn_run]
      by_cases h0 : s.index = 0
      · rw [if_pos h0, if_pos h0.le]
        exact .inl ⟨rfl, rfl⟩
      rw [if_neg h0]
      by_cases h1 : s.index ≤ 0
      · rw [if_pos h1, if_pos h1]
        exact .inl ⟨rfl, rfl⟩
      · rw [if_neg h1, if_neg h1]
        exact .inr (sendOn_writer _ e)
  | encode s type v =>
      simp only [Operation.runOn, Operation.packet]
      have hstart : (dynInterface m).start = dynStart m := rfl
      rw [doEncodeOn_run, hstart]
      by_cases h0 : s.index = 0
      · rw [if_pos h0, if_pos (Or.inl h0)]
        exact .inl ⟨rfl, rfl⟩
      rw [if_neg h0]
      -- a sample type that is not registered ends the call before the start
      by_cases h1 : e.registered.get s.index = false
      · rw [if_pos h1, if_pos (Or.inr h1)]
        exact .inl ⟨rfl, rfl⟩
      rw [if_neg h1, if_neg (not_or.mpr ⟨h0, h1⟩)]
      by_cases h2 : (dynStart m e.writer).1 = 0
      · rw [h2, if_neg (by decide), if_neg (by decide)]
        exact .inr (.inr ⟨rfl, rfl⟩)
      · refine .inr (.inl ⟨h2, ?_⟩)
        by_cases h3 : (dynStart m e.writer).1 = -EALREADY
        · rw [if_pos h3]
          rfl
        · rw [if_neg h3, if_pos h2]
          rfl

theorem operation_keeps (op : Operation) (e : EncoderOn DynWriter) :
    e.writer.extents <+: ((op.runOn (dynInterface m)).run e).2.writer.extents := by
  rcases operation_writer (m := m) op e with ⟨-, hrun⟩ | ⟨-, hrun⟩ | ⟨-, hrun⟩
  · rw [hrun]
  · rw [hrun]
    exact dynStart_keeps e.writer
  · rw [hrun]
    exact (dynStart_keeps e.writer).trans (perform_keeps _ _)

/-- One call stays in bounds exactly if it has its room. -/
theorem operation_idle (op : Operation) {e : EncoderOn DynWriter} (he : e.writer.Idle) :
    (HasRoom m e.writer (packetLength (op.packet e)) →
      ((op.runOn (dynInterface m)).run e).2.writer.Idle) ∧
    (¬ HasRoom m e.writer (packetLength (op.packet e)) →
      ¬ ((op.runOn (dynInterface m)).run e).2.writer.Safe) := by
  have hempty : HasRoom m e.writer (packetLength []) := fun _ =>
    ⟨by simp [packetLength], fun k hk => absurd hk (by simp [packetLength])⟩
  rcases operation_writer (m := m) op e with ⟨hnone, hrun⟩ | ⟨hfail, hrun⟩ | ⟨hok, hrun⟩
  · rw [hrun, hnone]
    exact ⟨fun _ => he, fun h => absurd hempty h⟩
  · -- the start failed, so that the memory refused it
    have hstart : m.start e.writer.starts = false := by
      by_contra h
      exact hfail (dynStart_granted he.safe (by simpa using h)).1
    rw [hrun]
    exact ⟨fun _ => (dynStart_refused he hstart).2,
      fun h => absurd (fun hs => absurd hs (by simp [hstart])) h⟩
  · have hstart : m.start e.writer.starts = true := by
      by_contra h
      have hresult := (dynStart_refused he (by simpa using h)).1
      rw [hok] at hresult
      exact absurd hresult (by decide)
    rw [hrun]
    exact packet_idle he hstart _

/-- An extent that was seen stays in the list. -/
theorem runOperations_keeps (ops : List Operation) (e : EncoderOn DynWriter) :
    e.writer.extents <+: (runOperations m ops e).writer.extents := by
  induction ops generalizing e with
  | nil => exact List.prefix_rfl
  | cons op ops ih =>
      have hop := operation_keeps (m := m) op e
      rw [runOperations]
      split
      · rename_i e' hrun
        rw [hrun] at hop
        exact hop.trans (ih e')
      · rename_i e' hrun
        rwa [hrun] at hop

/-- **A run stays in bounds exactly if every call has its room.** -/
theorem runOperations_safe (ops : List Operation) {e : EncoderOn DynWriter}
    (he : e.writer.Idle) :
    (runOperations m ops e).writer.Safe ↔ EveryCallHasRoom m ops e := by
  induction ops generalizing e with
  | nil => exact ⟨fun _ => trivial, fun _ => he.safe⟩
  | cons op ops ih =>
      obtain ⟨hidle, houtside⟩ := operation_idle (m := m) op he
      rw [runOperations, EveryCallHasRoom]
      by_cases hroom : HasRoom m e.writer (packetLength (op.packet e))
      · have hidle := hidle hroom
        split
        · rename_i e' hrun
          rw [hrun] at hidle
          have hrest : (runOperations m ops e').writer.Safe ↔ EveryCallHasRoom m ops e' := ih hidle
          exact ⟨fun h => ⟨hroom, hrest.mp h⟩, fun h => hrest.mpr h.2⟩
        · rename_i e' hrun
          rw [hrun] at hidle
          exact ⟨fun _ => ⟨hroom, trivial⟩, fun _ => hidle.safe⟩
      · have houtside := houtside hroom
        refine ⟨fun hsafe => absurd hsafe ?_, fun h => absurd h.1 hroom⟩
        split
        · rename_i e' hrun
          rw [hrun] at houtside
          exact fun hs => houtside fun b hb => hs b ((runOperations_keeps ops e').subset hb)
        · rename_i e' hrun
          rwa [hrun] at houtside

/-! ## The new encoder -/

theorem sent_dyn (ws : List Write) (w : DynWriter) :
    (dynInterface m).sent ws w = ((dynInterface m).perform ws w).2 := rfl

/-- A buffer of 1000 bytes is ready for a packet even if the start fails. -/
theorem dynStart_open {w : DynWriter} (hw : w.Safe) (h : w.extent.allocated = 1000) :
    (dynStart m w).2.Open ∧ (dynStart m w).2.room = 1000 ∧
      (dynStart m w).2.extent.count = 1000 := by
  cases hs : m.start w.starts with
  | true =>
      obtain ⟨-, hopen, hroom, hcount, -⟩ := dynStart_granted hw hs
      exact ⟨hopen, hroom, hcount⟩
  | false =>
      have hreq : request (m.start w.starts) 1000 = none := if_neg (by simp [hs])
      have hrun : (dynStart m w).2 = { w with
          dataSize := 1000, error := -ENOMEM, starts := w.starts + 1 }.extend
            ⟨0, 1000, 1000⟩ := by
        simp only [dynStart, hreq, Option.getD_none, h]
        rfl
      have hbounds : (Extent.mk 0 1000 1000).InBounds := by
        simp [Extent.InBounds]
      rw [hrun]
      exact ⟨⟨extend_safe hw hbounds, rfl, rfl, hbounds, le_rfl, by simp [DynWriter.extend]⟩,
        rfl, rfl⟩

/-- The version is sent in the first 1000 bytes. -/
theorem dynEncoderNew_idle (h : m.alloc = true) : (dynEncoderNew m).writer.Idle := by
  have hreq : request m.alloc 1000 = some 1000 := if_pos ⟨h, by decide⟩
  have hbounds : (Extent.mk 0 1000 1000).InBounds := by
    simp [Extent.InBounds]
  have halloc : (dynAlloc m newDynWriter).2 =
      { newDynWriter with dataSize := 1000 }.extend ⟨0, 1000, 1000⟩ := by
    simp only [dynAlloc, hreq]
    rfl
  have hsafe : (dynAlloc m newDynWriter).2.Safe := by
    rw [halloc]
    exact extend_safe (fun b hb => absurd hb (by simp [newDynWriter])) hbounds
  have hsize : (dynAlloc m newDynWriter).2.extent.allocated = 1000 := by
    rw [halloc]
    rfl
  obtain ⟨hopen, hroom, hcount⟩ := dynStart_open (m := m) hsafe hsize
  have hgrants : (dynStart m (dynAlloc m newDynWriter).2).2.Grants m
      (packetLength versionWrites) := by
    have hlength : packetLength versionWrites = 14 := by decide
    rw [DynWriter.Grants, hroom, hcount, grants_packet, hlength]
    exact ⟨by decide, fun k hk => absurd hk (by omega)⟩
  rw [dynEncoderNew]
  simp only [sent_dyn]
  exact ((perform_stores versionWrites _ hopen).1 hgrants).2.opened.idle

/-- Without the first allocation there is no buffer. -/
theorem dynEncoderNew_outside (h : m.alloc = false) : ¬ (dynEncoderNew m).writer.Safe := by
  have hreq : request m.alloc 1000 = none := if_neg (by simp [h])
  have houtside : ¬ (dynAlloc m newDynWriter).2.Safe := by
    simp only [dynAlloc, hreq]
    refine extend_outside ?_
    rintro ⟨-, -, hcount⟩
    simp at hcount
  rw [dynEncoderNew]
  simp only [sent_dyn]
  exact (perform_keeps versionWrites).not_safe (dynStart_keeps.not_safe houtside)

end Proofs

/-- **The dynamic buffer writer stays in bounds exactly if** the first allocation succeeds and
every packet has its room. -/
theorem staysInBounds_iff (m : MemoryAnswers) (ops : List Operation) :
    StaysInBounds m ops ↔ m.alloc = true ∧ EveryCallHasRoom m ops (dynEncoderNew m) := by
  cases h : m.alloc with
  | true =>
      exact (runOperations_safe ops (dynEncoderNew_idle h)).trans
        ⟨fun hall => ⟨rfl, hall⟩, fun hall => hall.2⟩
  | false =>
      refine ⟨fun hsafe => absurd (fun b hb => ?_) (dynEncoderNew_outside h),
        fun hall => absurd hall.1 (by decide)⟩
      exact hsafe b ((runOperations_keeps ops _).subset hb)

/-- A memory that grants nothing more than 1000 bytes. -/
def smallMemory : MemoryAnswers := ⟨true, fun _ => true, fun _ => false⟩

/-- A sample type whose signature has 1000 bytes. -/
def longSignature : Signature := .mk [97] (some (List.replicate 1000 0x20)) 0x40 .sigdefEnd

/-- The definition of the type has 1010 bytes. The memory does not grow for the last ten, which
are stored behind the end of the buffer. -/
theorem not_staysInBounds_register :
    ¬ StaysInBounds smallMemory [.sampleRegister longSignature] := by
  intro h
  have hroom := (runOperations_safe _ (dynEncoderNew_idle rfl)).mp h
  have hlength : packetLength (Operation.packet (dynEncoderNew smallMemory)
      (.sampleRegister longSignature)) = 1010 := by decide +kernel
  have hflush := (hroom.1 rfl).2 0 (by rw [hlength]; decide)
  exact absurd hflush (by simp [smallMemory])

end LabComm.C
