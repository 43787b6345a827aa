import LabComm.C.WriterStatements

set_option autoImplicit false

/-! # The file descriptor writer

`labcomm2014_fd_writer.c`: the buffer is handed to `write(2)`, from an offset that moves on by what
each call took. The variable that holds the result of the last call is 0 before there is one, so
that a flush of an empty buffer looks like a call that took nothing, and is an error.

A sequence of packets gets through whole if and only if no packet with bytes comes after an empty
one (`deliversExactly_iff`).
-/

namespace LabComm.C

open Library

def BUFFER_SIZE : Nat := 2048

/-! ## The writer -/

/-- How a descriptor answers the calls of `write`: how many bytes call number `n` takes if it is
given that many, or the result it fails with, and the `errno` after it. -/
structure Descriptor where
  write : Nat → Int
  errno : Nat → Int
  errno_pos : ∀ n, 0 < errno n

/-- Each call takes some bytes. -/
def Descriptor.Accepts (d : Descriptor) : Prop := ∀ n, 0 < d.write n

/-- What there is to see after an action: the results of the calls of `write` so far, and
`w->error`. -/
structure FdStep where
  results : List Int
  error : Int

/-- The error is set if a call failed. -/
def FdStep.Reports (s : FdStep) : Prop := (∃ r ∈ s.results, r ≤ 0) → s.error ≠ 0

/-- `struct labcomm2014_fd_writer`; `data` holds the `pos` bytes of the buffer, and `accepted` what
the descriptor took. -/
structure FdWriter (d : Descriptor) where
  data : List UInt8
  count : Nat
  error : Int
  accepted : List UInt8
  results : List Int
  steps : List FdStep

variable {d : Descriptor}

/-- The end of an action. -/
def FdWriter.recorded (w : FdWriter d) : FdWriter d :=
  { w with steps := w.steps ++ [⟨w.results, w.error⟩] }

/-- `write(fd_context->fd, …)` -/
def fdWrite (bs : List UInt8) : StateM (FdWriter d) Int := fun w =>
  let err := min (d.write w.results.length) bs.length
  (err, { w with
    accepted := w.accepted ++ bs.take err.toNat
    results := w.results ++ [err] })

/-- `while (start < w->pos)` -/
def writeLoop (data : List UInt8) (start : Nat) (err : Int) (w : FdWriter d) : Int × FdWriter d :=
  if start < data.length then
    match fdWrite (data.drop start) w with
    | (err, w) => if err ≤ 0 then (err, w) else writeLoop data (start + err.toNat) err w
  else (err, w)
termination_by data.length - start

/-- `fd_flush` -/
def fdFlush : StateM (FdWriter d) Int := fun w =>
  let r := writeLoop w.data 0 0 w
  let error :=
    if r.1 < 0 then -d.errno r.2.results.length
    else if r.1 = 0 then -EINVAL
    else r.2.error
  (error, { r.2 with data := [], error := error }.recorded)

/-- `fd_start` -/
def fdStart : StateM (FdWriter d) Int := fun w =>
  (w.error, { w with data := [] }.recorded)

/-- `w->data[w->pos] = b; w->pos++` -/
def fdStore (b : UInt8) : StateM (FdWriter d) Unit := fun w =>
  ((), { w with data := w.data ++ [b] }.recorded)

/-- `fd_alloc`; `block` is whether the memory has the buffer. -/
def fdAlloc (block : Bool) (w : FdWriter d) : FdWriter d :=
  if block then { w with data := [], count := BUFFER_SIZE }
  else { w with data := [], count := 0, error := -ENOMEM }

/-- The fields as `internal_encoder_new` sets them. -/
def newFdWriter : FdWriter d := ⟨[], 0, 0, [], [], []⟩

/-- The functions of `labcomm2014_writer_action`. -/
def fdInterface : WriterInterface (FdWriter d) where
  full w := decide (w.data.length ≥ w.count)
  store := fdStore
  flush := fdFlush
  start := fdStart
  finish := do let _ ← fdFlush
  error := FdWriter.error

/-! ## Packets -/

/-- The bytes a statement stores if no flush fails. -/
def Write.bytes : Write → List UInt8
  | checked bs => bs
  | ignored bs => bs
  | raw b => [b]

/-- What is done between a start and an end. After a start that fails `do_encode` calls the end,
the registrations do not. -/
structure PacketWrites where
  writes : List Write
  ends : Bool

/-- The bytes of the packet. -/
def PacketWrites.bytes (p : PacketWrites) : List UInt8 := p.writes.flatMap Write.bytes

/-- A packet, as the functions of the encoder send it. -/
def WriterInterface.send {σ : Type} (W : WriterInterface σ) (p : PacketWrites) : StateM σ Unit := do
  let err ← W.start
  if err = -EALREADY then
    return
  if err ≠ 0 then
    if p.ends then
      W.finish
    return
  let _ ← W.perform p.writes
  W.finish

/-- The packets in order. -/
def WriterInterface.sendAll {σ : Type} (W : WriterInterface σ) :
    List PacketWrites → StateM σ Unit
  | [] => pure ()
  | p :: ps => do
      W.send p
      W.sendAll ps

/-- The writer after it was allocated and has sent the packets. -/
def afterPackets (d : Descriptor) (ps : List PacketWrites) : FdWriter d :=
  (fdInterface.sendAll ps (fdAlloc true newFdWriter)).2

/-- A descriptor that goes on taking bytes has got exactly the bytes of the packets, and with any
descriptor the error is set from the first call on that fails. -/
def DeliversExactly (ps : List PacketWrites) : Prop :=
  (∀ d : Descriptor, d.Accepts → (afterPackets d ps).accepted = ps.flatMap PacketWrites.bytes) ∧
    ∀ d : Descriptor, ∀ s ∈ (afterPackets d ps).steps, s.Reports

/-! ## A flush -/

theorem writeLoop_accepts (hd : d.Accepts) (data : List UInt8) (start : Nat) (err : Int)
    (w : FdWriter d) (hstart : start ≤ data.length) (herr : start = data.length → 0 < err) :
    0 < (writeLoop data start err w).1 ∧ ∃ results, (writeLoop data start err w).2 =
      { w with accepted := w.accepted ++ data.drop start, results := results } := by
  induction start, err, w using writeLoop.induct data with
  | case1 start err w hlt err' w' hwrite hle =>
      cases hwrite
      have hpos := hd w.results.length
      rw [List.length_drop] at hle
      omega
  | case2 start err w hlt err' w' hwrite hle ih =>
      rw [writeLoop, if_pos hlt, hwrite]
      simp only [if_neg hle]
      cases hwrite
      rw [List.length_drop] at hle ih ⊢
      obtain ⟨hres, results, hrun⟩ := ih (by omega) (by omega)
      refine ⟨hres, results, hrun.trans ?_⟩
      rw [List.append_assoc, ← List.drop_drop, List.take_append_drop]
  | case3 start err w hge =>
      rw [writeLoop, if_neg hge]
      have hend : start = data.length := by omega
      refine ⟨herr hend, w.results, ?_⟩
      rw [hend, List.drop_length, List.append_nil]

/-- A flush of bytes leaves the error as it is. -/
theorem fdFlush_accepts (hd : d.Accepts) {w : FdWriter d} (hdata : w.data ≠ []) :
    (fdFlush w).1 = w.error ∧ ∃ results steps, (fdFlush w).2 =
      { w with data := [], accepted := w.accepted ++ w.data, results := results, steps := steps } := by
  have hlen : 0 ≠ w.data.length := fun h => hdata (List.length_eq_zero_iff.mp h.symm)
  obtain ⟨hpos, results, hrun⟩ :=
    writeLoop_accepts hd w.data 0 0 w (Nat.zero_le _) fun h => absurd h hlen
  rw [List.drop_zero] at hrun
  unfold fdFlush
  simp only [if_neg (show ¬ (writeLoop w.data 0 0 w).1 < 0 by omega),
    if_neg (show ¬ (writeLoop w.data 0 0 w).1 = 0 by omega), hrun]
  exact ⟨trivial, results, _, rfl⟩

/-- A flush of no bytes sets the error. -/
theorem fdFlush_nil {w : FdWriter d} (hdata : w.data = []) :
    (fdFlush w).2.error ≠ 0 ∧ (fdFlush w).2.accepted = w.accepted := by
  have hrun : writeLoop w.data 0 0 w = (0, w) := by
    rw [writeLoop, if_neg (by simp [hdata])]
  unfold fdFlush
  simp only [hrun]
  exact ⟨show -EINVAL ≠ 0 by decide, rfl⟩

/-! ## Packets that get through -/

instance : Sink (FdWriter d) Nat where
  written w := w.accepted ++ w.data
  kept := FdWriter.count
  Ready w := d.Accepts ∧ w.error = 0 ∧ 0 < w.count

theorem fdStore_emits (b : UInt8) : Emits (fdStore (d := d) b) () [b] := by
  intro w hw
  exact ⟨rfl, hw, rfl, (List.append_assoc ..).symm⟩

/-- A full buffer has bytes. -/
theorem fdMakeRoom_emits : Emits (fdInterface (d := d)).makeRoom 0 [] := by
  rintro w ⟨hd, herror, hcount⟩
  by_cases hfull : fdInterface.full w = true
  · have hdata : w.data ≠ [] := by
      rintro hnil
      have hge : w.data.length ≥ w.count := of_decide_eq_true hfull
      rw [hnil, List.length_nil] at hge
      omega
    obtain ⟨hres, results, steps, hrun⟩ := fdFlush_accepts hd hdata
    have hroom : fdInterface.makeRoom w = fdFlush w := if_pos hfull
    rw [hroom, hres, hrun]
    exact ⟨herror, ⟨hd, herror, hcount⟩, rfl, rfl⟩
  · have hroom : fdInterface.makeRoom w = (0, w) := if_neg hfull
    rw [hroom]
    exact Emits.pure 0 w ⟨hd, herror, hcount⟩

section Statements

variable {σ κ : Type} [Sink σ κ] {W : WriterInterface σ} (hroom : Emits W.makeRoom 0 [])
  (hstore : ∀ b, Emits (W.store b) () [b])

include hroom hstore

theorem putBytes_emits (bs : List UInt8) : Emits (W.putBytes bs) 0 bs := by
  induction bs with
  | nil => exact Emits.pure 0
  | cons b bs ih =>
      rw [← List.nil_append (b :: bs)]
      refine hroom.bind ?_
      rw [if_neg (not_not.mpr rfl)]
      exact (hstore b).bind ih

theorem attempt_emits (w : Write) : Emits (W.attempt w) 0 w.bytes := by
  cases w with
  | checked bs => exact putBytes_emits hroom hstore bs
  | ignored bs => exact putBytes_emits hroom hstore bs
  | raw b => exact hroom.bind ((hstore b).bind (Emits.pure 0))

theorem perform_emits (ws : List Write) : Emits (W.perform ws) 0 (ws.flatMap Write.bytes) := by
  induction ws with
  | nil => exact Emits.pure 0
  | cons w ws ih =>
      rw [List.flatMap_cons]
      refine (attempt_emits hroom hstore w).bind ?_
      rw [if_neg fun h => h.2 rfl]
      exact ih

end Statements

/-- Between two packets, without an error. -/
structure FdWriter.Idle (w : FdWriter d) : Prop where
  error : w.error = 0
  data : w.data = []
  count : 0 < w.count

section Packets

variable (hd : d.Accepts) {w : FdWriter d} {p : PacketWrites}

theorem putBytes_nonempty (hd : d.Accepts) (herror : w.error = 0) (hcount : 0 < w.count)
    {bs : List UInt8} (h : w.data ≠ [] ∨ bs ≠ []) : (fdInterface.putBytes bs w).2.data ≠ [] := by
  induction bs generalizing w with
  | nil => exact h.resolve_right fun hne => hne rfl
  | cons b bs ih =>
      obtain ⟨hres, ⟨_, herror', hcount'⟩, _⟩ := fdMakeRoom_emits w ⟨hd, herror, hcount⟩
      rw [putBytes_cons, if_neg (not_not.mpr hres)]
      refine ih (w := (fdStore b (fdInterface.makeRoom w).2).2) herror' hcount' (.inl ?_)
      exact List.append_ne_nil_of_right_ne_nil _ (List.cons_ne_nil b [])

/-- What was stored last is still in the buffer. -/
theorem perform_nonempty (hd : d.Accepts) (herror : w.error = 0) (hcount : 0 < w.count)
    {ws : List Write} (h : w.data ≠ [] ∨ ws.flatMap Write.bytes ≠ []) :
    (fdInterface.perform ws w).2.data ≠ [] := by
  induction ws generalizing w with
  | nil => exact h.resolve_right fun hne => hne rfl
  | cons v ws ih =>
      obtain ⟨hres, ⟨_, herror', hcount'⟩, _⟩ :=
        attempt_emits fdMakeRoom_emits fdStore_emits v w ⟨hd, herror, hcount⟩
      rw [perform_cons, if_neg fun hreturns => hreturns.2 hres]
      refine ih herror' hcount' ?_
      by_cases hnow : w.data ≠ [] ∨ v.bytes ≠ []
      · left
        cases v with
        | checked bs => exact putBytes_nonempty hd herror hcount hnow
        | ignored bs => exact putBytes_nonempty hd herror hcount hnow
        | raw b => exact List.append_ne_nil_of_right_ne_nil _ (List.cons_ne_nil b [])
      · rw [not_or, not_not, not_not] at hnow
        rw [List.flatMap_cons, hnow.2, List.nil_append] at h
        exact .inr (h.resolve_left fun hne => hne hnow.1)

/-- Statements without bytes do nothing. -/
theorem perform_of_bytes_nil {σ : Type} {W : WriterInterface σ} {ws : List Write}
    (h : ws.flatMap Write.bytes = []) (x : σ) : W.perform ws x = (0, x) := by
  induction ws with
  | nil => rfl
  | cons v ws ih =>
      rw [List.flatMap_cons, List.append_eq_nil_iff] at h
      have hrun : W.attempt v x = (0, x) := by
        cases v with
        | checked bs =>
            cases h.1
            rfl
        | ignored bs =>
            cases h.1
            rfl
        | raw b => cases h.1
      rw [perform_cons, if_neg (by simp [hrun]), hrun]
      exact ih h.2

theorem send_run {σ : Type} (W : WriterInterface σ) (p : PacketWrites) (x : σ) :
    (W.send p x).2 =
      if (W.start x).1 = -EALREADY then (W.start x).2
      else if (W.start x).1 ≠ 0 then
        if p.ends then (W.finish (W.start x).2).2 else (W.start x).2
      else W.sent p.writes (W.start x).2 := by
  show ((if (W.start x).1 = -EALREADY then _ else _ : StateM σ Unit) (W.start x).2).2 = _
  by_cases halready : (W.start x).1 = -EALREADY
  · rw [if_pos halready, if_pos halready]
    rfl
  · rw [if_neg halready, if_neg halready]
    show ((if (W.start x).1 ≠ 0 then _ else _ : StateM σ Unit) (W.start x).2).2 = _
    by_cases herror : (W.start x).1 ≠ 0
    · rw [if_pos herror, if_pos herror]
      cases p.ends <;> rfl
    · rw [if_neg herror, if_neg herror]
      rfl

/-- The start of a packet when there was no error. -/
theorem FdWriter.Idle.send (hw : w.Idle) :
    (fdInterface.send p w).2 = fdInterface.sent p.writes w.recorded := by
  have hstart : fdInterface.start w = (0, w.recorded) := by
    obtain ⟨data, count, error, accepted, results, steps⟩ := w
    cases hw.error
    cases hw.data
    rfl
  have halready : ¬ (0 : Int) = -EALREADY := by decide
  rw [send_run, hstart, if_neg halready, if_neg (not_not.mpr rfl)]

/-- A packet with bytes gets through. -/
theorem FdWriter.Idle.send_bytes (hw : w.Idle) (hd : d.Accepts) (hp : p.bytes ≠ []) :
    (fdInterface.send p w).2.Idle ∧
      (fdInterface.send p w).2.accepted = w.accepted ++ p.bytes := by
  obtain ⟨_, ⟨_, herror, hcount⟩, _, hwritten⟩ :=
    perform_emits fdMakeRoom_emits fdStore_emits p.writes w.recorded ⟨hd, hw.error, hw.count⟩
  have hdata := perform_nonempty (w := w.recorded) hd hw.error hw.count (.inr hp)
  obtain ⟨_, results, steps, hflush⟩ := fdFlush_accepts hd hdata
  have hsent : fdInterface.sent p.writes w.recorded =
    (fdFlush (fdInterface.perform p.writes w.recorded).2).2 := rfl
  rw [hw.send, hsent, hflush]
  refine ⟨⟨herror, rfl, hcount⟩, hwritten.trans ?_⟩
  show w.accepted ++ w.data ++ p.bytes = _
  rw [hw.data, List.append_nil]

/-- A packet without bytes sets the error. -/
theorem FdWriter.Idle.send_nil (hw : w.Idle) (hp : p.bytes = []) :
    (fdInterface.send p w).2.error ≠ 0 ∧ (fdInterface.send p w).2.accepted = w.accepted := by
  have hsent : fdInterface.sent p.writes w.recorded =
    (fdFlush (fdInterface.perform p.writes w.recorded).2).2 := rfl
  rw [hw.send, hsent, perform_of_bytes_nil hp]
  exact fdFlush_nil (w := w.recorded) hw.data

/-- After an error nothing gets through. -/
theorem send_of_error (herror : w.error ≠ 0) :
    (fdInterface.send p w).2.error ≠ 0 ∧ (fdInterface.send p w).2.accepted = w.accepted := by
  have hstart : (fdInterface.start w).1 = w.error := rfl
  have hfinish := fdFlush_nil (w := (fdInterface.start w).2) rfl
  rw [send_run, hstart]
  by_cases halready : w.error = -EALREADY
  · rw [if_pos halready]
    exact ⟨herror, rfl⟩
  · rw [if_neg halready, if_pos herror]
    cases p.ends with
    | false => exact ⟨herror, rfl⟩
    | true => exact hfinish

theorem sendAll_of_error {ps : List PacketWrites} (herror : w.error ≠ 0) :
    (fdInterface.sendAll ps w).2.accepted = w.accepted := by
  induction ps generalizing w with
  | nil => rfl
  | cons p ps ih =>
      obtain ⟨herror', haccepted⟩ := send_of_error (p := p) herror
      exact (ih herror').trans haccepted

/-- What gets through are the packets before the first empty one. -/
theorem sendAll_accepted {ps : List PacketWrites} (hd : d.Accepts) (hw : w.Idle) :
    (fdInterface.sendAll ps w).2.accepted =
      w.accepted ++ (ps.takeWhile (·.bytes ≠ [])).flatMap PacketWrites.bytes := by
  induction ps generalizing w with
  | nil => exact (List.append_nil _).symm
  | cons p ps ih =>
      by_cases hp : p.bytes = []
      · obtain ⟨herror, haccepted⟩ := hw.send_nil hp
        rw [List.takeWhile_cons_of_neg (by simp [hp]), List.flatMap_nil, List.append_nil]
        exact (sendAll_of_error herror).trans haccepted
      · obtain ⟨hidle, haccepted⟩ := hw.send_bytes hd hp
        rw [List.takeWhile_cons_of_pos (by simp [hp]), List.flatMap_cons, ← List.append_assoc,
          ← haccepted]
        exact ih hidle

end Packets

/-! ## Errors -/

section Keeps

variable {σ : Type} {W : WriterInterface σ} {I : σ → Prop}

/-- The functions of the writer keep an invariant. -/
structure WriterInterface.Keeps (W : WriterInterface σ) (I : σ → Prop) : Prop where
  start : ∀ x, I x → I (W.start x).2
  store : ∀ b x, I x → I (W.store b x).2
  flush : ∀ x, I x → I (W.flush x).2
  finish : ∀ x, I x → I (W.finish x).2

variable (h : W.Keeps I)

include h

theorem WriterInterface.Keeps.makeRoom (x : σ) (hx : I x) : I (W.makeRoom x).2 := by
  rw [WriterInterface.makeRoom]
  split
  · exact h.flush x hx
  · exact hx

theorem WriterInterface.Keeps.putBytes (bs : List UInt8) (x : σ) (hx : I x) :
    I (W.putBytes bs x).2 := by
  induction bs generalizing x with
  | nil => exact hx
  | cons b bs ih =>
      have hroom := h.makeRoom x hx
      rw [putBytes_cons]
      split
      · exact hroom
      · exact ih _ (h.store b _ hroom)

theorem WriterInterface.Keeps.perform (ws : List Write) (x : σ) (hx : I x) :
    I (W.perform ws x).2 := by
  induction ws generalizing x with
  | nil => exact hx
  | cons v ws ih =>
      have hattempt : I (W.attempt v x).2 := by
        cases v with
        | checked bs => exact h.putBytes bs x hx
        | ignored bs => exact h.putBytes bs x hx
        | raw b => exact h.store b _ (h.makeRoom x hx)
      rw [perform_cons]
      split
      · exact hattempt
      · exact ih _ hattempt

theorem WriterInterface.Keeps.send (p : PacketWrites) (x : σ) (hx : I x) :
    I (W.send p x).2 := by
  have hstart := h.start x hx
  rw [send_run]
  split
  · exact hstart
  · split
    · split
      · exact h.finish _ hstart
      · exact hstart
    · exact h.finish _ (h.perform p.writes _ hstart)

theorem WriterInterface.Keeps.sendAll (ps : List PacketWrites) (x : σ) (hx : I x) :
    I (W.sendAll ps x).2 := by
  induction ps generalizing x with
  | nil => exact hx
  | cons p ps ih => exact ih _ (h.send p x hx)

end Keeps

/-- The error is set from the first call of `write` on that failed. -/
def FdWriter.Honest (w : FdWriter d) : Prop :=
  FdStep.Reports ⟨w.results, w.error⟩ ∧ ∀ s ∈ w.steps, s.Reports

theorem FdWriter.Honest.recorded {w : FdWriter d} (h : w.Honest) : w.recorded.Honest := by
  refine ⟨h.1, fun s hs => ?_⟩
  rcases List.mem_append.mp hs with hs | hs
  · exact h.2 s hs
  · rw [List.mem_singleton.mp hs]
    exact h.1

/-- A call that fails is the last one of the loop. -/
theorem writeLoop_results (data : List UInt8) (start : Nat) (err : Int) (w : FdWriter d) :
    (writeLoop data start err w).2.error = w.error ∧
      (writeLoop data start err w).2.steps = w.steps ∧
      ∃ new, (writeLoop data start err w).2.results = w.results ++ new ∧
        ((∃ r ∈ new, r ≤ 0) → (writeLoop data start err w).1 ≤ 0) := by
  induction start, err, w using writeLoop.induct data with
  | case1 start err w hlt err' w' hwrite hle =>
      rw [writeLoop, if_pos hlt, hwrite]
      simp only [if_pos hle]
      cases hwrite
      exact ⟨rfl, rfl, [_], rfl, fun _ => hle⟩
  | case2 start err w hlt err' w' hwrite hle ih =>
      rw [writeLoop, if_pos hlt, hwrite]
      simp only [if_neg hle]
      obtain ⟨herror, hsteps, new, hresults, hnew⟩ := ih
      cases hwrite
      refine ⟨herror, hsteps, _ :: new, hresults.trans (List.append_assoc ..), ?_⟩
      rintro ⟨r, hr, hle'⟩
      rcases List.mem_cons.mp hr with rfl | hr
      · exact absurd hle' hle
      · exact hnew ⟨r, hr, hle'⟩
  | case3 start err w hge =>
      rw [writeLoop, if_neg hge]
      exact ⟨rfl, rfl, [], (List.append_nil _).symm, by simp⟩

theorem fdFlush_honest {w : FdWriter d} (h : w.Honest) : (fdFlush w).2.Honest := by
  obtain ⟨herror, hsteps, new, hresults, hnew⟩ := writeLoop_results w.data 0 0 w
  have herrno := d.errno_pos (writeLoop w.data 0 0 w).2.results.length
  refine FdWriter.Honest.recorded ⟨?_, fun s hs => h.2 s (hsteps ▸ hs)⟩
  rintro ⟨r, hr, hle⟩
  show (if (writeLoop w.data 0 0 w).1 < 0 then _ else _ : Int) ≠ 0
  split
  · omega
  · rename_i hnonneg
    split
    · decide
    · rename_i hne
      -- no call of this flush failed, so it was one of an earlier flush
      rw [herror]
      have hr' : r ∈ w.results ++ new := hresults ▸ hr
      rcases List.mem_append.mp hr' with hold | hthis
      · exact h.1 ⟨r, hold, hle⟩
      · have hlast := hnew ⟨r, hthis, hle⟩
        omega

theorem fdInterface_keeps : (fdInterface (d := d)).Keeps FdWriter.Honest where
  start _ hw := FdWriter.Honest.recorded ⟨hw.1, hw.2⟩
  store _ _ hw := FdWriter.Honest.recorded ⟨hw.1, hw.2⟩
  flush _ hw := fdFlush_honest hw
  finish _ hw := fdFlush_honest hw

/-! ## All packets -/

theorem newFdWriter_idle : (fdAlloc true (newFdWriter (d := d))).Idle :=
  ⟨rfl, rfl, show 0 < BUFFER_SIZE by decide⟩

theorem newFdWriter_honest : (fdAlloc true (newFdWriter (d := d))).Honest := by
  refine ⟨?_, fun s hs => absurd hs (List.not_mem_nil)⟩
  rintro ⟨r, hr, _⟩
  cases hr

/-- A descriptor that takes one byte in each call. -/
def oneByOne : Descriptor := ⟨fun _ => 1, fun _ => 1, fun _ => one_pos⟩

theorem oneByOne_accepts : oneByOne.Accepts := fun _ => one_pos

/-- No packets are lost if all after an empty one are empty. -/
theorem flatMap_takeWhile_iff {α β : Type} [DecidableEq β] (f : α → List β) (l : List α) :
    (l.takeWhile (f · ≠ [])).flatMap f = l.flatMap f ↔
      l.Pairwise fun p q => f p = [] → f q = [] := by
  induction l with
  | nil => simp
  | cons x l ih =>
      rw [List.pairwise_cons]
      by_cases hx : f x = []
      · rw [List.takeWhile_cons_of_neg (by simp [hx]), List.flatMap_nil, List.flatMap_cons, hx,
          List.nil_append, eq_comm, List.flatMap_eq_nil_iff]
        constructor
        · intro hall
          refine ⟨fun y hy _ => hall y hy, ?_⟩
          exact List.pairwise_of_forall_mem_list fun y _ z hz _ => hall z hz
        · exact fun h y hy => h.1 y hy rfl
      · rw [List.takeWhile_cons_of_pos (by simp [hx]), List.flatMap_cons, List.flatMap_cons,
          List.append_cancel_left_eq, ih]
        exact ⟨fun h => ⟨fun y _ hnil => absurd hnil hx, h⟩, And.right⟩

/-- **The fd writer loses no byte and no error if and only if no packet with bytes comes after an
empty one.** -/
theorem deliversExactly_iff (ps : List PacketWrites) :
    DeliversExactly ps ↔ ps.Pairwise fun p q => p.bytes = [] → q.bytes = [] := by
  rw [← flatMap_takeWhile_iff]
  constructor
  · rintro ⟨hdelivered, _⟩
    have hrun := @sendAll_accepted oneByOne _ ps oneByOne_accepts newFdWriter_idle
    exact hrun.symm.trans (hdelivered oneByOne oneByOne_accepts)
  · intro h
    refine ⟨fun d hd => (sendAll_accepted hd newFdWriter_idle).trans h, fun d => ?_⟩
    exact (fdInterface_keeps.sendAll ps _ newFdWriter_honest).2

/-- A packet after an empty one is lost. -/
theorem not_deliversExactly_empty :
    ¬ DeliversExactly [⟨[], true⟩, ⟨[.checked [7]], true⟩] := by
  intro h
  have hrun := @sendAll_accepted oneByOne _ [⟨[], true⟩, ⟨[.checked [7]], true⟩] oneByOne_accepts
    newFdWriter_idle
  have hbytes : ([] : List UInt8) = [7] := hrun.symm.trans (h.1 oneByOne oneByOne_accepts)
  cases hbytes

end LabComm.C
