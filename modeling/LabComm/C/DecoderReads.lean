import LabComm.C.Codec
import LabComm.Format.Packet

set_option autoImplicit false

/-! # What the decoder reads of a packet

The functions of `labcomm2014_decoder.c` that take the parts of a packet out of the reader:
skipping, the intentions of a definition and its signature. After each step they look at the
error field of the reader (`checked`), so that what they return tells whether it is set.
-/

namespace LabComm.C

open Library

variable {φ : Host} {α β : Type}

/-! ## Reading -/

/-- `if (r->error < 0) { … goto …; }`, and `m` otherwise. -/
def checked (onError : Int → α) (m : StateM (Reader φ) α) : StateM (Reader φ) α := do
  let r ← get
  if r.error < 0 then
    pure (onError r.error)
  else
    m

/-- `labcomm2014_read_byte` -/
def readByte : StateM (Reader φ) Nat := readScalar 1

/-- The loop of `reader_skip`. -/
def skipBytes (tag : Int) : Nat → StateM (Reader φ) Int
  | 0 => pure tag
  | n + 1 => do
      let _ ← readByte
      checked id (skipBytes tag n)

/-- `reader_skip` -/
def readerSkip (len tag : Int) : StateM (Reader φ) Int := skipBytes tag len.toNat

/-- The loop of `TODO_read_intentions`; a key of length 0 is that of the name. -/
def readIntentionsFrom : Nat → Option (List UInt8) → StateM (Reader φ) (Option (List UInt8))
  | 0, name => pure name
  | n + 1, name => do
      let klen := wrap32 (← readPacked32)
      if klen = 0 then
        let name ← readString
        readIntentionsFrom n name
      else
        let _ ← readerSkip klen 1
        let vlen := wrap32 (← readPacked32)
        let _ ← readerSkip vlen 1
        readIntentionsFrom n name

/-- `TODO_read_intentions`: the number of intentions is read as a single byte. -/
def readIntentions : StateM (Reader φ) (Option (List UInt8)) := do
  let numInts ← readByte
  readIntentionsFrom numInts none

/-- The loop that reads the bytes of a signature. -/
def readSignature : Nat → List UInt8 → StateM (Reader φ) (Except Int (List UInt8))
  | 0, signature => pure (.ok signature)
  | n + 1, signature => do
      let b ← readByte
      checked .error (readSignature n (signature ++ [UInt8.ofNat b]))

/-- What is read of a definition; there may be no name. -/
structure ReadDefinition where
  remoteIndex : Int
  name : Option (List UInt8)
  signature : List UInt8

/-- What is read so far, with its name. -/
def readDefinitionEnd (remoteIndex : Int) (name : Option (List UInt8)) :
    Except Int (List UInt8) → Except (Int × Option (List UInt8)) ReadDefinition
  | .error e => .error (e, name)
  | .ok signature => .ok ⟨remoteIndex, name, signature⟩

/-- What `decode_sample_def_or_ref` and `decode_raw_type_def` read: an error comes with the
name that was read before it. -/
def readDefinition :
    StateM (Reader φ) (Except (Int × Option (List UInt8)) ReadDefinition) := do
  let remoteIndex := wrap32 (← readPacked32)
  checked (fun e => .error (e, none)) do
    let name ← readIntentions
    checked (fun e => .error (e, name)) do
      let size := wrap32 (← readPacked32)
      checked (fun e => .error (e, name)) do
        readDefinitionEnd remoteIndex name <$> readSignature size.toNat []

/-! ## Rules -/

theorem checked_ok {onError : Int → α} {m : StateM (Reader φ) α} {r : Reader φ}
    (h : r.error = 0) : checked onError m r = m r := by
  show (if r.error < 0 then _ else _ : StateM (Reader φ) α) r = _
  rw [h, if_neg (by decide)]

theorem checked_failed {onError : Int → α} {m : StateM (Reader φ) α} {r : Reader φ}
    (h : r.error ≠ 0) : checked onError m r = (onError φ.code, r) := by
  have hcode : r.error = φ.code := r.error_eq.resolve_left h
  show (if r.error < 0 then _ else _ : StateM (Reader φ) α) r = _
  rw [hcode, if_pos φ.neg]
  rfl

theorem checked_sticky (onError : Int → α) (m : StateM (Reader φ) α) :
    Sticky (checked onError m) := by
  intro r (hr : r.error ≠ 0)
  rw [checked_failed hr]
  exact hr

theorem checked_parses {onError : Int → α} {m : StateM (Reader φ) α} {bs : List UInt8} {a : α}
    (h : Parses m bs a) : Parses (checked onError m) bs a := by
  constructor
  · intro r rest hr hu
    rw [checked_ok (not_not.mp hr)]
    exact h.reads r rest hr hu
  · intro r tail hr ht hu
    rw [checked_ok (not_not.mp hr)]
    exact h.starves r tail hr ht hu

/-- Whatever the reader was like before, the result says if its error field is set after. -/
def Reports (m : StateM (Reader φ) α) (P : α → Prop) : Prop :=
  ∀ r, (m r).2.error ≠ 0 → P (m r).1

/-- The same of a reader without an error. -/
def ReportsFrom (m : StateM (Reader φ) α) (P : α → Prop) : Prop :=
  ∀ r, r.error = 0 → (m r).2.error ≠ 0 → P (m r).1

theorem Reports.reportsFrom {m : StateM (Reader φ) α} {P : α → Prop} (h : Reports m P) :
    ReportsFrom m P := fun r _ hr => h r hr

theorem reportsFrom_pure (a : α) (P : α → Prop) : ReportsFrom (pure a : StateM (Reader φ) α) P :=
  fun _ h0 h => absurd h0 h

theorem checked_reports {onError : Int → α} {m : StateM (Reader φ) α} {P : α → Prop}
    (hm : ReportsFrom m P) (herr : P (onError φ.code)) : Reports (checked onError m) P := by
  intro r hr
  by_cases h : r.error = 0
  · rw [checked_ok h] at hr ⊢
    exact hm r h hr
  · rw [checked_failed h]
    exact herr

theorem reports_bind {m : StateM (Reader φ) α} {f : α → StateM (Reader φ) β} {P : β → Prop}
    (hf : ∀ a, Reports (f a) P) : Reports (m >>= f) P :=
  fun r hr => hf (m r).1 (m r).2 hr

theorem reportsFrom_map {m : StateM (Reader φ) α} {P : α → Prop} {Q : β → Prop} {f : α → β}
    (hm : ReportsFrom m P) (hf : ∀ a, P a → Q (f a)) : ReportsFrom (f <$> m) Q :=
  fun r h0 hr => hf (m r).1 (hm r h0 hr)

/-! ## Sticky errors -/

theorem readByte_sticky : Sticky (readByte (φ := φ)) := readScalar_sticky 1

theorem skipBytes_sticky (tag : Int) (n : Nat) : Sticky (skipBytes (φ := φ) tag n) := by
  cases n with
  | zero => exact Sticky.pure tag
  | succ n => exact readByte_sticky.bind fun _ => checked_sticky _ _

theorem skipBytes_reports (tag : Int) (n : Nat) :
    ReportsFrom (skipBytes (φ := φ) tag n) fun a => a = φ.code := by
  induction n with
  | zero => exact reportsFrom_pure _ _
  | succ n ih => exact (reports_bind fun _ => checked_reports ih rfl).reportsFrom

theorem readIntentionsFrom_sticky (n : Nat) (name : Option (List UInt8)) :
    Sticky (readIntentionsFrom (φ := φ) n name) := by
  induction n generalizing name with
  | zero => exact Sticky.pure name
  | succ n ih =>
      refine readPacked32_sticky.bind fun klen => ?_
      dsimp only
      split
      · exact readString_sticky.bind fun _ => ih _
      · exact (skipBytes_sticky _ _).bind fun _ => readPacked32_sticky.bind fun _ =>
          (skipBytes_sticky _ _).bind fun _ => ih _

/-- A key of length 0 is that of the name. -/
theorem readIntentionsFrom_name {n : Nat} {name : Option (List UInt8)} {r : Reader φ}
    (h : wrap32 (readPacked32 r).1 = 0) :
    readIntentionsFrom (n + 1) name r =
      readIntentionsFrom n (readString (readPacked32 r).2).1 (readString (readPacked32 r).2).2 := by
  rw [readIntentionsFrom, stateM_bind]
  dsimp only
  rw [if_pos h, stateM_bind]

/-! ## What is read -/

theorem readByte_parses (b : UInt8) : Parses (readByte (φ := φ)) [b] b.toNat := by
  have hlt : b.toNat < 256 ^ 1 := by
    have := b.toNat_lt
    norm_num
    omega
  have h := readScalar_parses (φ := φ) hlt
  have hb : bigEndian 1 b.toNat = [b] := by simp [bigEndian, byteAt]
  rwa [hb] at h

theorem skipBytes_parses (tag : Int) (bs : List UInt8) :
    Parses (skipBytes (φ := φ) tag bs.length) bs tag := by
  induction bs with
  | nil => exact Parses.pure tag
  | cons b bs ih =>
      exact (readByte_parses b).bind (checked_parses ih) fun _ => checked_sticky _ _

theorem readerSkip_parses (tag : Int) (bs : List UInt8) {len : Int} (h : len = bs.length) :
    Parses (readerSkip (φ := φ) len tag) bs tag := by
  subst h
  exact skipBytes_parses tag bs

/-- The name among intentions: the value of the last one with an empty key. -/
def nameFrom (name : Option (List UInt8)) (intentions : List Intention) :
    Option (List UInt8) :=
  intentions.foldl (fun name i => if i.key = [] then some i.value else name) name

/-- Lengths are kept in an `int`, and for a name there is memory with the NUL. -/
def Intention.Fits (i : Intention) : Prop :=
  i.key.length < 2 ^ 31 ∧ i.value.length < 2 ^ 31 ∧ (i.key = [] → i.value.length + 1 < 2 ^ 31)

theorem readIntentionsFrom_parses {intentions : List Intention}
    (h : ∀ i ∈ intentions, Intention.Fits i) (name : Option (List UInt8)) :
    Parses (readIntentionsFrom (φ := φ) intentions.length name)
      (intentions.flatMap Intention.bytes) (nameFrom name intentions) := by
  induction intentions generalizing name with
  | nil => exact Parses.pure name
  | cons i intentions ih =>
      obtain ⟨hk, hv, hname⟩ := h i List.mem_cons_self
      have hrest := ih fun j hj => h j (List.mem_cons_of_mem _ hj)
      have hw : wrap32 (i.key.length : Int) = i.key.length := wrap32_natCast hk
      rw [List.flatMap_cons, Intention.bytes, counted, List.append_assoc, List.append_assoc]
      refine (readPacked32_parses (by omega)).bind ?_ fun klen => ?_
      · dsimp only
        rw [hw]
        -- an empty key is that of the name, which is kept; other strings are skipped
        by_cases hkey : i.key = []
        · rw [if_pos (by simp [hkey]), hkey, List.nil_append]
          refine (readString_parses (hname hkey)).bind ?_ fun _ => readIntentionsFrom_sticky _ _
          have := hrest (some i.value)
          rw [nameFrom, List.foldl_cons, if_pos hkey]
          exact this
        · rw [if_neg (by simpa using hkey)]
          refine (readerSkip_parses 1 i.key rfl).bind ?_ fun _ =>
            readPacked32_sticky.bind fun _ => (skipBytes_sticky _ _).bind fun _ =>
              readIntentionsFrom_sticky _ _
          rw [counted, List.append_assoc]
          refine (readPacked32_parses (by omega)).bind ?_ fun _ =>
            (skipBytes_sticky _ _).bind fun _ => readIntentionsFrom_sticky _ _
          refine (readerSkip_parses 1 i.value (wrap32_natCast hv)).bind ?_ fun _ =>
            readIntentionsFrom_sticky _ _
          have := hrest name
          rw [nameFrom, List.foldl_cons, if_neg hkey]
          exact this
      · dsimp only
        split
        · exact readString_sticky.bind fun _ => readIntentionsFrom_sticky _ _
        · exact (skipBytes_sticky _ _).bind fun _ => readPacked32_sticky.bind fun _ =>
            (skipBytes_sticky _ _).bind fun _ => readIntentionsFrom_sticky _ _

/-- A number below 128 is the byte that is read. -/
theorem packed32_of_lt {n : Nat} (h : n < 128) : packed32 n = [UInt8.ofNat n] := by
  interval_cases n <;> decide

/-- Intentions are read in full when there are fewer than 128 of them. -/
theorem readIntentions_parses {intentions : List Intention} (hfew : intentions.length < 128)
    (h : ∀ i ∈ intentions, Intention.Fits i) :
    Parses (readIntentions (φ := φ)) (intentionsBytes intentions) (nameFrom none intentions) := by
  have hbyte : (UInt8.ofNat intentions.length).toNat = intentions.length := by
    rw [UInt8.toNat_ofNat', Nat.mod_eq_of_lt (by omega)]
  rw [intentionsBytes, packed32_of_lt hfew]
  refine (readByte_parses _).bind ?_ fun _ => readIntentionsFrom_sticky _ _
  rw [hbyte]
  exact readIntentionsFrom_parses h none

theorem readSignature_parses (bs acc : List UInt8) :
    Parses (readSignature (φ := φ) bs.length acc) bs (.ok (acc ++ bs)) := by
  induction bs generalizing acc with
  | nil =>
      rw [List.append_nil]
      exact Parses.pure _
  | cons b bs ih =>
      refine (readByte_parses b).bind (checked_parses ?_) fun _ => checked_sticky _ _
      have key := ih (acc ++ [b])
      rw [List.append_assoc, List.singleton_append] at key
      rwa [UInt8.ofNat_toNat]

theorem readSignature_reports (n : Nat) (acc : List UInt8) :
    ReportsFrom (readSignature (φ := φ) n acc) fun a => a = .error φ.code := by
  induction n generalizing acc with
  | zero => exact reportsFrom_pure _ _
  | succ n ih => exact (reports_bind fun b => checked_reports (ih _) rfl).reportsFrom

/-- The definition can be read as it was sent. -/
structure DefinitionFits (index : Nat) (intentions : List Intention) (signature : List UInt8) :
    Prop where
  index : index < 2 ^ 31
  few : intentions.length < 128
  intentions : ∀ i ∈ intentions, Intention.Fits i
  signature : signature.length < 2 ^ 31

/-- The index is kept in an `int`. -/
theorem readDefinition_parses_wrap {index : Nat} {intentions : List Intention}
    {signature : List UInt8} (hindex : index < 2 ^ 32) (hfew : intentions.length < 128)
    (hfits : ∀ i ∈ intentions, Intention.Fits i) (hsize : signature.length < 2 ^ 31) :
    Parses (readDefinition (φ := φ)) (definitionBytes index intentions signature)
      (.ok ⟨wrap32 index, nameFrom none intentions, signature⟩) := by
  rw [definitionBytes, List.append_assoc]
  refine (readPacked32_parses hindex).bind (checked_parses ?_) fun _ => checked_sticky _ _
  refine (readIntentions_parses hfew hfits).bind (checked_parses ?_) fun _ => checked_sticky _ _
  rw [counted]
  refine (readPacked32_parses (by omega)).bind (checked_parses ?_) fun _ => checked_sticky _ _
  rw [wrap32_natCast hsize, Int.toNat_natCast]
  exact (readSignature_parses signature []).map _

theorem readDefinition_parses {index : Nat} {intentions : List Intention}
    {signature : List UInt8} (h : DefinitionFits index intentions signature) :
    Parses (readDefinition (φ := φ)) (definitionBytes index intentions signature)
      (.ok ⟨index, nameFrom none intentions, signature⟩) := by
  have hindex := h.index
  have hread := readDefinition_parses_wrap (φ := φ) (show index < 2 ^ 32 by omega) h.few
    h.intentions h.signature
  rwa [wrap32_natCast hindex] at hread

end LabComm.C
