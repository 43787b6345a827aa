import LabComm.C.SignatureArrayRef
import LabComm.Format.Wire
import LabComm.Library.Stream

set_option autoImplicit false

/-! # The C reader

`struct labcomm2014_reader` and the functions of `labcomm2014_private.h` that take a value out
of its buffer. The buffer is refilled whenever it is empty, which may be before any byte of any
value. When there are no more bytes, every further fill fails with the same negative error.
-/

namespace LabComm.C

open Library

/-! ## The host -/

/-- The tables of a decoder. -/
inductive DecoderTable where
  | locals
  | remoteToLocal
  | localRef
  | remoteToLocalRef

/-- What the library runs on. A table asks for more bytes each time it grows, so its requests
differ, and the answers are a function of the table and the number of bytes. -/
structure Host where
  /-- The error of a fill that has nothing to deliver. -/
  code : Int
  neg : code < 0
  /-- The width of pointers and of `size_t`. -/
  width : SizeT
  /-- Whether there is memory for a table of so many bytes. -/
  memory : DecoderTable → Nat → Bool

/-- A host of 64 bits with memory for every table. -/
def Host.of (code : Int) (neg : code < 0) : Host := ⟨code, neg, .bits64, fun _ _ => true⟩

/-- `sizeof` a pointer. -/
def Host.pointer (φ : Host) : Nat := φ.width.bits / 8

/-- `sizeof` the entries of a table: a `struct sample_entry` is an `int`, aligned as a pointer, and
four pointers. -/
def Host.sizeof (φ : Host) : DecoderTable → Nat
  | .locals => 5 * φ.pointer
  | .localRef => φ.pointer
  | .remoteToLocal => 4
  | .remoteToLocalRef => 4

/-! ## The reader -/

/-- `struct labcomm2014_reader`: `data` holds the `count` bytes of the buffer, `supply` what
the next calls of `fill` deliver. -/
structure Reader (φ : Host) where
  data : List UInt8
  pos : Nat
  error : Int
  supply : List (List UInt8)
  supply_ne : ∀ c ∈ supply, c ≠ []
  error_eq : error = 0 ∨ error = φ.code

variable {φ : Host}

theorem noSupply : ∀ c ∈ ([] : List (List UInt8)), c ≠ [] := by
  intro c hc
  cases hc

theorem noError (φ : Host) : (0 : Int) = 0 ∨ 0 = φ.code := .inl rfl

/-- `r->count` -/
def Reader.count (r : Reader φ) : Nat := r.data.length

/-- `labcomm2014_reader_fill` -/
def readerFill : StateM (Reader φ) Unit := fun r =>
  if r.pos < r.count then
    ((), r)
  else
    match h : r.supply with
    | [] => ((), { r with data := [], pos := 0, error := φ.code, error_eq := Or.inr rfl })
    | c :: cs => ((), { r with
        data := c
        pos := 0
        supply := cs
        supply_ne := fun d hd => r.supply_ne d (by rw [h]; exact List.mem_cons_of_mem c hd) })

/-- `r->data[r->pos]; r->pos++` -/
def fetchByte : StateM (Reader φ) UInt8 := fun r =>
  (r.data.getD r.pos 0, { r with pos := r.pos + 1 })

/-- What every read function does for each byte: fill an empty buffer, give up if the error
field is then `bad`, take a byte otherwise. -/
def nextByte (bad : Int → Bool) : StateM (Reader φ) (Option UInt8) := do
  let r ← get
  if r.pos ≥ r.count then
    readerFill
    if bad (← get).error then
      return none
  return some (← fetchByte)

/-! ## Reading values -/

/-- The loop of `LABCOMM_DECODE`, with `i` bytes to come; the bytes are stored from the one of
highest weight down. -/
def readScalarFrom : Nat → Nat → StateM (Reader φ) Nat
  | 0, result => pure result
  | i + 1, result => do
      match ← nextByte (· < 0) with
      | none => pure 0
      | some b => readScalarFrom i (result * 256 + b.toNat)

/-- `LABCOMM_DECODE` -/
def readScalar (size : Nat) : StateM (Reader φ) Nat := readScalarFrom size 0

/-- The bytes still to come. -/
def Reader.unread (r : Reader φ) : List UInt8 := r.data.drop r.pos ++ r.supply.flatten

/-- The loop of `labcomm2014_read_packed32`, for at most `fuel` rounds. -/
def readPacked32From : Nat → Nat → StateM (Reader φ) Nat
  | 0, result => pure result
  | fuel + 1, result => do
      match ← nextByte (· ≠ 0) with
      | none => pure result
      | some tmp =>
          -- (result << 7) | (tmp & 0x7f), in an unsigned int
          let result := (result * 128 + tmp.toNat % 128) % 2 ^ 32
          if tmp < 128 then pure result else readPacked32From fuel result

/-- `labcomm2014_read_packed32`: every round but the last takes a byte, so that the loop ends
within one more round than there are bytes. -/
def readPacked32 : StateM (Reader φ) Nat := fun r =>
  readPacked32From (r.unread.length + 1) 0 r

/-- The loop of `labcomm2014_read_string`, with `n` characters to come. -/
def readChars : Nat → List UInt8 → StateM (Reader φ) (List UInt8)
  | 0, result => pure result
  | n + 1, result => do
      match ← nextByte (· < 0) with
      | none => pure result
      | some b => readChars n (result ++ [b])

/-- `labcomm2014_read_string`; `length` is an `int`. There is no memory for a negative number of
bytes, and then nothing is read and null returned. -/
def readString : StateM (Reader φ) (Option (List UInt8)) := do
  let length := wrap32 (← readPacked32)
  if wrap32 (length + 1) < 0 then
    pure none
  else
    some <$> readChars length.toNat []

/-! ## What is read -/

instance : Source (Reader φ) where
  unread := Reader.unread
  Failed r := r.error ≠ 0

/-- A buffer is filled without losing a byte. -/
theorem readerFill_unread (r : Reader φ) : (readerFill r).2.unread = r.unread := by
  rw [readerFill]
  split
  · rfl
  · rename_i hpos
    have hdrop : r.data.drop r.pos = [] :=
      List.drop_eq_nil_of_le (Nat.le_of_not_lt hpos)
    split
    · rename_i h
      simp [Reader.unread, h, hdrop]
    · rename_i c cs h
      simp [Reader.unread, h, hdrop]

theorem readerFill_error (r : Reader φ) (hpos : ¬ r.pos < r.count) :
    (readerFill r).2.error = if r.unread = [] then φ.code else r.error := by
  have hdrop : r.data.drop r.pos = [] := List.drop_eq_nil_of_le (Nat.le_of_not_lt hpos)
  rw [readerFill, if_neg hpos]
  split
  · rename_i h
    simp [Reader.unread, h, hdrop]
  · rename_i c cs h
    have hc : c ≠ [] := r.supply_ne c (by rw [h]; exact List.mem_cons_self)
    simp [Reader.unread, h, hdrop, hc]

/-- After a successful fill there is a byte in the buffer. -/
theorem readerFill_pos (r : Reader φ) (hpos : ¬ r.pos < r.count) (hr : r.unread ≠ []) :
    (readerFill r).2.pos < (readerFill r).2.count := by
  have hdrop : r.data.drop r.pos = [] := List.drop_eq_nil_of_le (Nat.le_of_not_lt hpos)
  rw [readerFill, if_neg hpos]
  split
  · rename_i h
    simp [Reader.unread, h, hdrop] at hr
  · rename_i c cs h
    have hc : c ≠ [] := r.supply_ne c (by rw [h]; exact List.mem_cons_self)
    exact List.length_pos_iff.mpr hc

theorem fetchByte_unread (r : Reader φ) (hpos : r.pos < r.count) :
    (fetchByte r).1 :: (fetchByte r).2.unread = r.unread := by
  have hlt : r.pos < r.data.length := hpos
  simp only [fetchByte, Reader.unread]
  rw [List.drop_eq_getElem_cons hlt, List.cons_append]
  simp [hlt]

/-- The tests the read functions make of the error field. -/
structure Detects (φ : Host) (bad : Int → Bool) : Prop where
  zero : bad 0 = false
  code : bad φ.code = true

theorem detects_neg : Detects φ (· < 0) := ⟨by simp, by simpa using φ.neg⟩

theorem detects_ne : Detects φ (· ≠ 0) := ⟨by simp, by simpa using φ.neg.ne⟩

variable {bad : Int → Bool}

theorem nextByte_of_lt (r : Reader φ) (hpos : r.pos < r.count) :
    nextByte bad r = (some (fetchByte r).1, (fetchByte r).2) := by
  show (if r.pos ≥ r.count then _ else _ : StateM (Reader φ) (Option UInt8)) r = _
  rw [if_neg (Nat.not_le_of_lt hpos)]
  rfl

theorem nextByte_of_ge (r : Reader φ) (hpos : ¬ r.pos < r.count) :
    nextByte bad r =
      if bad (readerFill r).2.error = true then (none, (readerFill r).2)
      else (some (fetchByte (readerFill r).2).1, (fetchByte (readerFill r).2).2) := by
  show (if r.pos ≥ r.count then _ else _ : StateM (Reader φ) (Option UInt8)) r = _
  rw [if_pos (Nat.le_of_not_lt hpos)]
  show (if bad (readerFill r).2.error = true then _ else _ : StateM (Reader φ) (Option UInt8))
    (readerFill r).2 = _
  split <;> rfl

/-- A byte that is there is taken. -/
theorem nextByte_cons (hbad : Detects φ bad) {r : Reader φ} {b : UInt8} {rest : List UInt8}
    (hok : r.error = 0) (h : r.unread = b :: rest) :
    (nextByte bad r).1 = some b ∧ (nextByte bad r).2.error = 0 ∧
      (nextByte bad r).2.unread = rest := by
  by_cases hpos : r.pos < r.count
  · have key := fetchByte_unread r hpos
    rw [h, List.cons.injEq] at key
    rw [nextByte_of_lt r hpos]
    exact ⟨by rw [key.1], hok, key.2⟩
  · have hne : r.unread ≠ [] := by rw [h]; simp
    have herr : (readerFill r).2.error = 0 := by
      rw [readerFill_error r hpos, if_neg hne, hok]
    have key := fetchByte_unread _ (readerFill_pos r hpos hne)
    rw [readerFill_unread, h, List.cons.injEq] at key
    rw [nextByte_of_ge r hpos, herr, hbad.zero]
    exact ⟨by simp [key.1], herr, key.2⟩

/-- Without a byte the read fails. -/
theorem nextByte_nil (hbad : Detects φ bad) {r : Reader φ} (h : r.unread = []) :
    (nextByte bad r).1 = none ∧ (nextByte bad r).2.error = φ.code ∧
      (nextByte bad r).2.unread = [] := by
  have hpos : ¬ r.pos < r.count := by
    intro hpos
    have key := fetchByte_unread r hpos
    rw [h] at key
    exact absurd key (by simp)
  have herr : (readerFill r).2.error = φ.code := by
    rw [readerFill_error r hpos, if_pos h]
  rw [nextByte_of_ge r hpos, herr, hbad.code, if_pos rfl]
  exact ⟨rfl, herr, by rw [readerFill_unread, h]⟩

/-- Whatever the reader is like, the next byte is taken or all of them are left. -/
theorem nextByte_takes (hbad : Detects φ bad) (r : Reader φ) :
    ((nextByte bad r).1 = none ∧ (nextByte bad r).2.unread = r.unread) ∨
      ∃ b, (nextByte bad r).1 = some b ∧ r.unread = b :: (nextByte bad r).2.unread := by
  by_cases hpos : r.pos < r.count
  · rw [nextByte_of_lt r hpos]
    exact Or.inr ⟨_, rfl, (fetchByte_unread r hpos).symm⟩
  · by_cases hnil : r.unread = []
    · obtain ⟨hnone, _, hrest⟩ := nextByte_nil hbad hnil
      exact Or.inl ⟨hnone, hrest.trans hnil.symm⟩
    · rw [nextByte_of_ge r hpos]
      split
      · exact Or.inl ⟨rfl, readerFill_unread r⟩
      · refine Or.inr ⟨_, rfl, ?_⟩
        rw [fetchByte_unread _ (readerFill_pos r hpos hnil), readerFill_unread]

theorem nextByte_sticky : Sticky (nextByte (φ := φ) bad) := by
  intro r (hr : r.error ≠ 0)
  show (nextByte bad r).2.error ≠ 0
  by_cases hpos : r.pos < r.count
  · rw [nextByte_of_lt r hpos]
    exact hr
  · have herr : (readerFill r).2.error ≠ 0 := by
      rw [readerFill_error r hpos]
      split
      · exact φ.neg.ne
      · exact hr
    rw [nextByte_of_ge r hpos]
    split
    · exact herr
    · exact herr

theorem nextByte_parses (hbad : Detects φ bad) (b : UInt8) :
    Parses (nextByte (φ := φ) bad) [b] (some b) := by
  refine ⟨fun r rest hr h => ?_, fun r tail hr ht h => ?_⟩
  · obtain ⟨h1, h2, h3⟩ := nextByte_cons hbad (not_not.mp hr) h
    exact ⟨h1, not_not.mpr h2, h3⟩
  · have hnil : r.unread = [] := by
      rcases List.singleton_eq_append_iff.mp h with ⟨h1, _⟩ | ⟨_, h2⟩
      · exact h1
      · exact absurd h2 ht
    show (nextByte bad r).2.error ≠ 0
    rw [(nextByte_nil hbad hnil).2.1]
    exact φ.neg.ne

theorem readScalarFrom_sticky (i acc : Nat) : Sticky (readScalarFrom (φ := φ) i acc) := by
  induction i generalizing acc with
  | zero => exact Sticky.pure acc
  | succ i ih =>
      refine nextByte_sticky.bind fun o => ?_
      cases o with
      | none => exact Sticky.pure 0
      | some b => exact ih _

theorem readScalar_sticky (size : Nat) : Sticky (readScalar (φ := φ) size) :=
  readScalarFrom_sticky size 0

theorem readScalarFrom_parses (bs : List UInt8) (acc : Nat) :
    Parses (readScalarFrom (φ := φ) bs.length acc) bs
      (acc * 256 ^ bs.length + ofBigEndian bs) := by
  induction bs generalizing acc with
  | nil => simpa [ofBigEndian, readScalarFrom] using Parses.pure (σ := Reader φ) acc
  | cons b bs ih =>
      have hrest := ih (acc * 256 + b.toNat)
      have hval : (acc * 256 + b.toNat) * 256 ^ bs.length + ofBigEndian bs =
          acc * 256 ^ (b :: bs).length + ofBigEndian (b :: bs) := by
        rw [ofBigEndian, List.length_cons, pow_succ]
        ring
      rw [hval] at hrest
      refine (nextByte_parses detects_neg b).bind hrest fun o => ?_
      cases o with
      | none => exact Sticky.pure 0
      | some b => exact readScalarFrom_sticky _ _

/-- `LABCOMM_DECODE` inverts `LABCOMM_ENCODE`. -/
theorem readScalar_parses {size n : Nat} (h : n < 256 ^ size) :
    Parses (readScalar (φ := φ) size) (bigEndian size n) n := by
  have key := readScalarFrom_parses (φ := φ) (bigEndian size n) 0
  rwa [bigEndian_length, ofBigEndian_bigEndian h, Nat.zero_mul, Nat.zero_add] at key

theorem readChars_sticky (n : Nat) (acc : List UInt8) :
    Sticky (readChars (φ := φ) n acc) := by
  induction n generalizing acc with
  | zero => exact Sticky.pure acc
  | succ n ih =>
      refine nextByte_sticky.bind fun o => ?_
      cases o with
      | none => exact Sticky.pure acc
      | some b => exact ih _

theorem readChars_parses (s acc : List UInt8) :
    Parses (readChars (φ := φ) s.length acc) s (acc ++ s) := by
  induction s generalizing acc with
  | nil => simpa [readChars] using Parses.pure (σ := Reader φ) acc
  | cons b s ih =>
      have hrest := ih (acc ++ [b])
      rw [List.append_assoc, List.singleton_append] at hrest
      refine (nextByte_parses detects_neg b).bind hrest fun o => ?_
      cases o with
      | none => exact Sticky.pure acc
      | some b => exact readChars_sticky _ _

/-! ## Numbers of variable length -/

theorem readPacked32From_sticky (fuel acc : Nat) :
    Sticky (readPacked32From (φ := φ) fuel acc) := by
  induction fuel generalizing acc with
  | zero => exact Sticky.pure acc
  | succ fuel ih =>
      refine nextByte_sticky.bind fun o => ?_
      cases o with
      | none => exact Sticky.pure acc
      | some b =>
          dsimp only
          split
          · exact Sticky.pure _
          · exact ih _

theorem readPacked32_sticky : Sticky (readPacked32 (φ := φ)) :=
  fun r hr => readPacked32From_sticky _ 0 r hr

theorem readString_sticky : Sticky (readString (φ := φ)) := by
  refine readPacked32_sticky.bind fun _ => ?_
  dsimp only
  split
  · exact Sticky.pure none
  · exact (readChars_sticky _ _).map _

/-- One round of the loop. -/
theorem readPacked32From_succ (fuel acc : Nat) (r : Reader φ) :
    readPacked32From (fuel + 1) acc r =
      match nextByte (· ≠ 0) r with
      | (none, r) => (acc, r)
      | (some tmp, r) =>
          if tmp < 128 then ((acc * 128 + tmp.toNat % 128) % 2 ^ 32, r)
          else readPacked32From fuel ((acc * 128 + tmp.toNat % 128) % 2 ^ 32) r := by
  show (match (nextByte (· ≠ 0) r).1 with
    | none => pure acc
    | some tmp => _ : StateM (Reader φ) Nat) (nextByte (· ≠ 0) r).2 = _
  rcases nextByte (· ≠ 0) r with ⟨o, r'⟩
  cases o with
  | none => rfl
  | some b =>
      dsimp only
      split <;> rfl

/-- With more rounds than bytes the bound on the rounds does not matter, unless an error is
pending. -/
theorem readPacked32From_fuel {f g acc : Nat} {r : Reader φ} (hr : r.error = 0)
    (hf : r.unread.length < f) (hg : r.unread.length < g) :
    readPacked32From f acc r = readPacked32From g acc r := by
  induction f generalizing g acc r with
  | zero => omega
  | succ f ih =>
      cases g with
      | zero => omega
      | succ g =>
          rw [readPacked32From_succ, readPacked32From_succ]
          cases hu : r.unread with
          | nil =>
              have h1 := (nextByte_nil (detects_ne (φ := φ)) hu).1
              rcases hn : nextByte (fun x => decide (x ≠ 0)) r with ⟨o, r'⟩
              rw [hn] at h1
              simp only at h1
              subst h1
              rfl
          | cons b rest =>
              obtain ⟨h1, h2, h3⟩ := nextByte_cons (detects_ne (φ := φ)) hr hu
              rcases hn : nextByte (fun x => decide (x ≠ 0)) r with ⟨o, r'⟩
              rw [hn] at h1 h2 h3
              simp only at h1 h2 h3
              subst h1
              rw [hu, List.length_cons] at hf hg
              dsimp only
              split
              · rfl
              · exact ih h2 (by rw [h3]; omega) (by rw [h3]; omega)

theorem readPacked32From_parses {init : List UInt8} {last : UInt8}
    (hinit : ∀ b ∈ init, 128 ≤ b.toNat) (hlast : last.toNat < 128) {fuel : Nat}
    (hfuel : init.length < fuel) {acc : Nat} (hacc : acc < 2 ^ 32) :
    Parses (readPacked32From (φ := φ) fuel acc) (init ++ [last])
      (varintValue acc (init ++ [last]) % 2 ^ 32) := by
  -- the induction is on the bytes before the last; each shifts the value by seven bits
  induction init generalizing fuel acc with
  | nil =>
      cases fuel with
      | zero => simp at hfuel
      | succ fuel =>
          have hlt : last < 128 := by
            rw [UInt8.lt_iff_toNat_lt]
            exact hlast
          show Parses _ ([last] ++ []) _
          refine (nextByte_parses detects_ne last).bind ?_ fun o => ?_
          · dsimp only
            rw [if_pos hlt]
            exact Parses.pure _
          · cases o with
            | none => exact Sticky.pure acc
            | some b =>
                dsimp only
                split
                · exact Sticky.pure _
                · exact readPacked32From_sticky _ _
  | cons b init ih =>
      cases fuel with
      | zero => simp at hfuel
      | succ fuel =>
          have hb : ¬ b < 128 := by
            rw [UInt8.lt_iff_toNat_lt]
            have := hinit b List.mem_cons_self
            show ¬ b.toNat < 128
            omega
          have hrest := ih (fun x hx => hinit x (List.mem_cons_of_mem _ hx))
            (show init.length < fuel by simpa using hfuel)
            (Nat.mod_lt (acc * 128 + b.toNat % 128) (show 0 < 2 ^ 32 by norm_num))
          rw [varintValue_mod] at hrest
          refine (nextByte_parses detects_ne b).bind ?_ fun o => ?_
          · dsimp only
            rw [if_neg hb]
            exact hrest
          · cases o with
            | none => exact Sticky.pure acc
            | some b =>
                dsimp only
                split
                · exact Sticky.pure _
                · exact readPacked32From_sticky _ _

/-- A number is read up to the first byte below 128, in whatever way it is spelled. -/
theorem readPacked32_spelled {init : List UInt8} {last : UInt8}
    (hinit : ∀ b ∈ init, 128 ≤ b.toNat) (hlast : last.toNat < 128) :
    Parses (readPacked32 (φ := φ)) (init ++ [last])
      (varintValue 0 (init ++ [last]) % 2 ^ 32) := by
  have key : ∀ fuel, init.length < fuel → Parses (readPacked32From (φ := φ) fuel 0)
      (init ++ [last]) (varintValue 0 (init ++ [last]) % 2 ^ 32) :=
    fun fuel hfuel => readPacked32From_parses hinit hlast hfuel (by norm_num)
  have hlen : (init ++ [last]).length = init.length + 1 := by simp
  refine ⟨fun r rest hr hu => ?_, fun r tail hr ht hu => ?_⟩
  · refine (key _ ?_).reads r rest hr hu
    have : r.unread.length = (init ++ [last]).length + rest.length := by
      rw [show r.unread = _ from hu, List.length_append]
    omega
  · have hlt : r.unread.length < init.length + 1 := by
      have h1 : (init ++ [last]).length = r.unread.length + tail.length := by
        rw [hu, List.length_append]
        rfl
      have h2 := List.length_pos_iff.mpr ht
      omega
    have := (key (init.length + 1) (by omega)).starves r tail hr ht hu
    rwa [readPacked32From_fuel (not_not.mp hr) hlt (Nat.lt_succ_self r.unread.length)] at this

/-- `labcomm2014_read_packed32` inverts `labcomm2014_write_packed32`. -/
theorem readPacked32_parses {n : Nat} (h : n < 2 ^ 32) :
    Parses (readPacked32 (φ := φ)) (packed32 n) n := by
  obtain ⟨init, last, hshape, hinit, hlast⟩ := varint_shape 4 n
  have hval : varintValue 0 (init ++ [last]) % 2 ^ 32 = n := by
    rw [← hshape, varintValue_varint (lt_trans h (by norm_num)), Nat.mod_eq_of_lt h]
  have key := readPacked32_spelled (φ := φ) hinit hlast
  rw [hval] at key
  rwa [packed32, hshape]

/-- The characters are read when there is memory for them and the NUL. -/
theorem readString_rest {s : List UInt8} (h : s.length + 1 < 2 ^ 31) :
    Parses (if wrap32 (wrap32 s.length + 1) < 0 then pure none
      else some <$> readChars (wrap32 s.length).toNat [] : StateM (Reader φ) (Option (List UInt8)))
      s (some s) := by
  have hlength : wrap32 (s.length : Int) = s.length := wrap32_natCast (by omega)
  have hsize : wrap32 ((s.length : Int) + 1) = s.length + 1 := wrap32_of_lt (by omega) (by omega)
  rw [hlength, hsize, if_neg (by omega), Int.toNat_natCast]
  exact (readChars_parses (φ := φ) s []).map some

theorem readString_spelled {size s : List UInt8}
    (hread : Parses (readPacked32 (φ := φ)) size s.length) (h : s.length + 1 < 2 ^ 31) :
    Parses (readString (φ := φ)) (size ++ s) (some s) := by
  refine hread.bind (readString_rest h) fun _ => ?_
  dsimp only
  split
  · exact Sticky.pure none
  · exact (readChars_sticky _ _).map _

theorem readString_parses {s : List UInt8} (h : s.length + 1 < 2 ^ 31) :
    Parses (readString (φ := φ)) (packed32 s.length ++ s) (some s) :=
  readString_spelled (readPacked32_parses (by omega)) h

/-- Without memory for the string nothing is read but its length. -/
theorem readString_none {r : Reader φ} (h : wrap32 (wrap32 (readPacked32 r).1 + 1) < 0) :
    readString r = (none, (readPacked32 r).2) := by
  rw [readString, stateM_bind]
  exact congrFun (if_pos h) _

theorem readString_some {r : Reader φ} (h : 0 ≤ wrap32 (wrap32 (readPacked32 r).1 + 1)) :
    readString r = (some <$> readChars (wrap32 (readPacked32 r).1).toNat [])
      (readPacked32 r).2 := by
  rw [readString, stateM_bind]
  exact congrFun (if_neg (by omega)) _

theorem readString_isSome {r : Reader φ} (h : 0 ≤ wrap32 (wrap32 (readPacked32 r).1 + 1)) :
    (readString r).1.isSome = true := by
  rw [readString_some h, stateM_map, Option.isSome_some]

end LabComm.C
