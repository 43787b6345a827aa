import LabComm.C.EncodedSize
import LabComm.C.SkipFraming

set_option autoImplicit false

/-! # Packets that are cut off

A packet of which only some bytes arrive, before the reader fails, is to have no effect. That is so
where it is read as it was written (`truncated_declines_iff`), except that a definition whose name
has been read ends the process if the failure of the reader is `-ENOENT`: that is taken for a
definition that nobody has registered.
-/

namespace LabComm.C

open Library

variable {φ : Host}

/-! ## Where the input ends -/

section Exhausts

variable {α β : Type}

/-- When the reader has failed there are no bytes left. -/
def Exhausts (m : StateM (Reader φ) α) : Prop :=
  ∀ r, (r.error ≠ 0 → r.unread = []) → (m r).2.error ≠ 0 → (m r).2.unread = []

theorem Exhausts.pure (a : α) : Exhausts (φ := φ) (pure a) := fun _ h => h

theorem Exhausts.bind {m : StateM (Reader φ) α} {f : α → StateM (Reader φ) β} (hm : Exhausts m)
    (hf : ∀ a, Exhausts (f a)) : Exhausts (m >>= f) :=
  fun r h => hf (m r).1 (m r).2 (hm r h)

theorem Exhausts.map {m : StateM (Reader φ) α} (hm : Exhausts m) (f : α → β) :
    Exhausts (f <$> m) := fun r h => hm r h

theorem checked_exhausts (onError : Int → α) {m : StateM (Reader φ) α} (hm : Exhausts m) :
    Exhausts (checked onError m) := by
  intro r h
  by_cases h0 : r.error = 0
  · rw [checked_ok h0]
    exact hm r h
  · rw [checked_failed h0]
    exact h

theorem nextByte_exhausts {bad : Int → Bool} (hbad : Detects φ bad) :
    Exhausts (nextByte (φ := φ) bad) := by
  intro r h hr
  cases hu : r.unread with
  | nil => exact (nextByte_nil hbad hu).2.2
  | cons b rest =>
      have h0 : r.error = 0 := by
        by_contra hne
        rw [h hne] at hu
        cases hu
      exact absurd (nextByte_cons hbad h0 hu).2.1 hr

theorem readScalarFrom_exhausts (i acc : Nat) : Exhausts (readScalarFrom (φ := φ) i acc) := by
  induction i generalizing acc with
  | zero => exact .pure acc
  | succ i ih =>
      refine (nextByte_exhausts detects_neg).bind fun o => ?_
      cases o with
      | none => exact .pure 0
      | some b => exact ih _

theorem readChars_exhausts (n : Nat) (acc : List UInt8) :
    Exhausts (readChars (φ := φ) n acc) := by
  induction n generalizing acc with
  | zero => exact .pure acc
  | succ n ih =>
      refine (nextByte_exhausts detects_neg).bind fun o => ?_
      cases o with
      | none => exact .pure acc
      | some b => exact ih _

theorem readPacked32From_exhausts (fuel acc : Nat) :
    Exhausts (readPacked32From (φ := φ) fuel acc) := by
  induction fuel generalizing acc with
  | zero => exact .pure acc
  | succ fuel ih =>
      refine (nextByte_exhausts detects_ne).bind fun o => ?_
      cases o with
      | none => exact .pure acc
      | some b =>
          dsimp only
          split
          · exact .pure _
          · exact ih _

theorem readPacked32_exhausts : Exhausts (readPacked32 (φ := φ)) :=
  fun r h => readPacked32From_exhausts _ 0 r h

theorem skipBytes_exhausts (tag : Int) (n : Nat) : Exhausts (skipBytes (φ := φ) tag n) := by
  induction n with
  | zero => exact .pure tag
  | succ n ih => exact (readScalarFrom_exhausts 1 0).bind fun _ => checked_exhausts _ ih

end Exhausts

/-- A number of which no byte is there is read as zero. -/
theorem readPacked32_nil {r : Reader φ} (h : r.unread = []) :
    (readPacked32 r).1 = 0 ∧ (readPacked32 r).2.error ≠ 0 ∧ (readPacked32 r).2.unread = [] := by
  obtain ⟨hnone, herror, hunread⟩ := nextByte_nil (detects_ne (φ := φ)) h
  have hrun : readPacked32 r = (0, (nextByte (· ≠ 0) r).2) := by
    unfold readPacked32
    rw [readPacked32From_succ]
    rcases hn : nextByte (fun x => decide (x ≠ 0)) r with ⟨o, r'⟩
    rw [hn] at hnone
    simp only at hnone
    rw [hnone]
  rw [hrun]
  refine ⟨rfl, ?_, hunread⟩
  rw [herror]
  exact φ.neg.ne

/-- Neither is a byte that is not there. -/
theorem readByte_nil {r : Reader φ} (h : r.unread = []) :
    (readByte r).1 = 0 ∧ (readByte r).2.error ≠ 0 := by
  obtain ⟨hnone, herror, _⟩ := nextByte_nil (detects_neg (φ := φ)) h
  have hrun : readByte r = (0, (nextByte (· < 0) r).2) := by
    show readScalarFrom 1 0 r = _
    rw [readScalarFrom, stateM_bind, hnone]
    rfl
  rw [hrun]
  refine ⟨rfl, ?_⟩
  rw [herror]
  exact φ.neg.ne

/-- A number whose end is not there is read as what is there. -/
theorem readPacked32From_starved {bs : List UInt8} (hbs : ∀ b ∈ bs, 128 ≤ b.toNat) {fuel : Nat}
    (hfuel : bs.length < fuel) {acc : Nat} (hacc : acc < 2 ^ 32) {r : Reader φ}
    (h0 : r.error = 0) (hu : r.unread = bs) :
    (readPacked32From fuel acc r).1 = varintValue acc bs % 2 ^ 32 := by
  induction bs generalizing fuel acc r with
  | nil =>
      obtain ⟨fuel, rfl⟩ : ∃ k, fuel = k + 1 := ⟨fuel - 1, by simp at hfuel; omega⟩
      have hnone := (nextByte_nil (detects_ne (φ := φ)) hu).1
      rw [readPacked32From_succ]
      rcases hn : nextByte (fun x => decide (x ≠ 0)) r with ⟨o, r'⟩
      rw [hn] at hnone
      simp only at hnone
      rw [hnone, varintValue_nil, Nat.mod_eq_of_lt hacc]
  | cons b bs ih =>
      rw [List.length_cons] at hfuel
      obtain ⟨fuel, rfl⟩ : ∃ k, fuel = k + 1 := ⟨fuel - 1, by omega⟩
      obtain ⟨hsome, herror, hunread⟩ := nextByte_cons (detects_ne (φ := φ)) h0 hu
      have hb : ¬ b < 128 := by
        rw [UInt8.lt_iff_toNat_lt]
        have := hbs b List.mem_cons_self
        show ¬ b.toNat < 128
        omega
      rw [readPacked32From_succ]
      rcases hn : nextByte (fun x => decide (x ≠ 0)) r with ⟨o, r'⟩
      rw [hn] at hsome herror hunread
      simp only at hsome herror hunread
      rw [hsome]
      dsimp only
      rw [if_neg hb, ih (fun x hx => hbs x (List.mem_cons_of_mem b hx)) (by omega)
        (Nat.mod_lt _ (by norm_num)) herror hunread, varintValue_mod, varintValue_cons]

/-- The first bytes of a number are not read as zero, and at most 28 bits are read of them. -/
theorem readPacked32_cut {n : Nat} (hn : n < 2 ^ 32) {r : Reader φ} {tail : List UInt8}
    (h0 : r.error = 0) (hne : r.unread ≠ []) (ht : tail ≠ [])
    (hu : packed32 n = r.unread ++ tail) :
    0 < (readPacked32 r).1 ∧ (readPacked32 r).1 < 2 ^ 28 := by
  obtain ⟨init, last, hshape, hinit, _⟩ := varint_shape 4 n
  have hsplit : init ++ [last] = r.unread ++ tail := by rw [← hshape, ← hu, packed32]
  -- what is there are bytes that do not end the number, and at most four of them
  obtain ⟨mid, hmid⟩ : ∃ mid, init = r.unread ++ mid := by
    rcases List.append_eq_append_iff.mp hsplit with ⟨mid, h1, h2⟩ | ⟨mid, h1, h2⟩
    · cases mid with
      | nil => exact ⟨[], by rw [h1]; simp⟩
      | cons x mid =>
          rw [List.cons_append, List.cons.injEq] at h2
          have hnil : tail = [] := (List.append_eq_nil_iff.mp h2.2.symm).2
          exact absurd hnil ht
    · exact ⟨mid, h1⟩
  have hhigh : ∀ b ∈ r.unread, 128 ≤ b.toNat := by
    intro b hb
    apply hinit
    rw [hmid]
    exact List.mem_append_left mid hb
  have hvalue : (readPacked32 r).1 = varintValue 0 r.unread % 2 ^ 32 :=
    readPacked32From_starved hhigh (by omega) (by norm_num) h0 rfl
  have hlen : r.unread.length ≤ 4 := by
    have hle := varint_length_le 5 n
    have htail := List.length_pos_of_ne_nil ht
    rw [show varint 5 n = packed32 n from rfl, hu, List.length_append] at hle
    omega
  have hsmall : varintValue 0 r.unread < 2 ^ 28 := by
    calc varintValue 0 r.unread < (0 + 1) * 128 ^ r.unread.length := varintValue_lt 0 r.unread
      _ ≤ 1 * 128 ^ 4 := Nat.mul_le_mul_left _ (Nat.pow_le_pow_right (by norm_num) hlen)
      _ = 2 ^ 28 := by norm_num
  have hpos := varint_prefix_ne_zero (k := 4) (hn.trans (by norm_num)) hu hne ht
  rw [hvalue, Nat.mod_eq_of_lt (by omega)]
  exact ⟨Nat.pos_of_ne_zero hpos, hsmall⟩

/-- So such a number does not look like the length of the key of the name. -/
theorem readPacked32_starved {n : Nat} (hn : n < 2 ^ 32) {r : Reader φ} {tail : List UInt8}
    (h0 : r.error = 0) (hne : r.unread ≠ []) (ht : tail ≠ [])
    (hu : packed32 n = r.unread ++ tail) :
    wrap32 (readPacked32 r).1 ≠ 0 ∧ (readPacked32 r).2.error ≠ 0 := by
  obtain ⟨hpos, hlt⟩ := readPacked32_cut hn h0 hne ht hu
  refine ⟨?_, (readPacked32_parses hn).starves r tail (not_not.mpr h0) ht hu⟩
  rw [wrap32_natCast (by omega)]
  exact_mod_cast hpos.ne'

/-- There is memory for the string that is read when its length is cut off. -/
theorem readString_fits {n : Nat} (hn : n < 2 ^ 32) {r : Reader φ} {tail : List UInt8}
    (h0 : r.error = 0) (ht : tail ≠ []) (hu : packed32 n = r.unread ++ tail) :
    (readString r).1.isSome = true := by
  apply readString_isSome
  have hlt : (readPacked32 r).1 < 2 ^ 28 := by
    by_cases hnil : r.unread = []
    · rw [(readPacked32_nil hnil).1]
      norm_num
    · exact (readPacked32_cut hn h0 hnil ht hu).2
  generalize (readPacked32 r).1 = length at hlt ⊢
  rw [wrap32_natCast (by omega), wrap32_of_lt (by omega) (by omega)]
  omega

theorem readString_exhausts : Exhausts (readString (φ := φ)) := by
  refine readPacked32_exhausts.bind fun length => ?_
  dsimp only
  split
  · exact .pure none
  · exact (readChars_exhausts _ _).map some

/-- **A name that is cut off** is a name nevertheless, and there is nothing after it. -/
theorem readString_starved {s : List UInt8} (h : s.length + 1 < 2 ^ 31) {r : Reader φ}
    {tail : List UInt8} (h0 : r.error = 0) (ht : tail ≠ []) (hu : counted s = r.unread ++ tail) :
    (readString r).1.isSome = true ∧ (readString r).2.unread = [] := by
  have hfails : (readString r).2.error ≠ 0 :=
    (readString_parses h).starves r tail (not_not.mpr h0) ht hu
  refine ⟨?_, readString_exhausts r (fun he => absurd h0 he) hfails⟩
  rw [counted] at hu
  rcases append_stops hu with ⟨mid, h1, -⟩ | ⟨mid, hmid, h1⟩
  · obtain ⟨hlength, -⟩ :=
      (readPacked32_parses (show s.length < 2 ^ 32 by omega)).reads r mid (not_not.mpr h0) h1
    apply readString_isSome
    rw [hlength, wrap32_natCast (by omega), wrap32_of_lt (by omega) (by omega)]
    omega
  · exact readString_fits (by omega) h0 hmid h1

/-! ## The name that is read -/

/-- What is done with an intention that has a key, after the length of the key. -/
def skipIntention (klen : Int) : StateM (Reader φ) Int := do
  let _ ← readerSkip klen 1
  let vlen := wrap32 (← readPacked32)
  readerSkip vlen 1

/-- One that has a key leaves the name as it is. -/
theorem readIntentionsFrom_key {n : Nat} {name : Option (List UInt8)} {r : Reader φ}
    (h : wrap32 (readPacked32 r).1 ≠ 0) :
    readIntentionsFrom (n + 1) name r = readIntentionsFrom n name
      (skipIntention (wrap32 (readPacked32 r).1) (readPacked32 r).2).2 := by
  rw [readIntentionsFrom, stateM_bind]
  dsimp only
  rw [if_neg h, skipIntention, stateM_bind, stateM_bind, stateM_bind, stateM_bind, stateM_bind]

/-- Where there is no byte left, each further intention is read as an empty name. -/
theorem readIntentionsFrom_nil (n : Nat) (name : Option (List UInt8)) {r : Reader φ}
    (h : r.unread = []) :
    (readIntentionsFrom n name r).1.isSome = true ↔ name.isSome = true ∨ n ≠ 0 := by
  induction n generalizing name r with
  | zero =>
      show name.isSome = true ↔ _
      simp
  | succ n ih =>
      obtain ⟨hzero, hfails, hrest⟩ := readPacked32_nil h
      obtain ⟨hlength, -⟩ := readPacked32_nil hrest
      have hsome : (readString (readPacked32 r).2).1.isSome = true := by
        apply readString_isSome
        rw [hlength]
        decide
      have hend := readString_exhausts _ (fun _ => hrest) (readString_sticky _ hfails)
      rw [readIntentionsFrom_name (by rw [hzero]; rfl), ih _ hend]
      simp [hsome]

theorem skipIntention_parses (key : List UInt8) {value : List UInt8}
    (hv : value.length < 2 ^ 31) :
    Parses (skipIntention (φ := φ) key.length) (key ++ counted value) 1 := by
  have hstick : ∀ vlen : Int, Sticky (readerSkip (φ := φ) vlen 1) :=
    fun _ => skipBytes_sticky _ _
  refine (readerSkip_parses 1 key rfl).bind ?_ fun _ => readPacked32_sticky.bind fun _ => hstick _
  rw [counted]
  refine (readPacked32_parses (by omega)).bind ?_ fun _ => hstick _
  exact readerSkip_parses 1 value (wrap32_natCast hv)

theorem skipIntention_exhausts (klen : Int) : Exhausts (skipIntention (φ := φ) klen) :=
  (skipBytes_exhausts _ _).bind fun _ => readPacked32_exhausts.bind fun _ =>
    skipBytes_exhausts _ _

theorem skipIntention_sticky (klen : Int) : Sticky (skipIntention (φ := φ) klen) :=
  (skipBytes_sticky _ _).bind fun _ => readPacked32_sticky.bind fun _ => skipBytes_sticky _ _

/-- A name has been read of intentions of which only the first `c` bytes are there: one of them is
the name, or the last of them has not begun. -/
def NameRead (intentions : List Intention) (c : Nat) : Prop :=
  (∃ i ∈ intentions, i.key = []) ∨
    (intentions ≠ [] ∧ c ≤ (intentions.dropLast.flatMap Intention.bytes).length)

/-- The input ends in an intention with a key. -/
theorem nameRead_inside {i : Intention} (hkey : i.key ≠ []) (intentions : List Intention) {c : Nat}
    (hpos : 0 < c) (hc : c < i.bytes.length) :
    NameRead (i :: intentions) c ↔ intentions.length ≠ 0 := by
  unfold NameRead
  cases intentions with
  | nil => simp [hkey]; omega
  | cons j intentions =>
      simp only [List.length_cons, ne_eq, Nat.add_eq_zero_iff, one_ne_zero, and_false,
        not_false_iff, iff_true]
      right
      refine ⟨by simp, ?_⟩
      rw [List.dropLast_cons_of_ne_nil (by simp), List.flatMap_cons, List.length_append]
      omega

/-- The input ends after an intention with a key. -/
theorem nameRead_after {i : Intention} (hkey : i.key ≠ []) {intentions : List Intention}
    (hne : intentions ≠ []) (c : Nat) :
    NameRead (i :: intentions) (i.bytes.length + c) ↔ NameRead intentions c := by
  unfold NameRead
  rw [List.dropLast_cons_of_ne_nil hne, List.flatMap_cons, List.length_append]
  simp [hkey, hne]

/-- Of intentions that are cut off a name is read if it is there, or if a number is read as
zero. -/
def NameOfStarved (φ : Host) (intentions : List Intention) : Prop :=
  ∀ (name : Option (List UInt8)) (r : Reader φ) (tail : List UInt8), r.error = 0 → tail ≠ [] →
    intentions.flatMap Intention.bytes = r.unread ++ tail →
      ((readIntentionsFrom intentions.length name r).1.isSome = true ↔
        name.isSome = true ∨ NameRead intentions r.unread.length)

/-- The first of them is the name: it is read, cut off or not. -/
theorem nameOfStarved_name {i : Intention} (hi : Intention.Fits i) (hkey : i.key = [])
    {intentions : List Intention} (hrest : NameOfStarved φ intentions)
    {name : Option (List UInt8)} {r : Reader φ} {tail : List UInt8} (h0 : r.error = 0)
    (hne : r.unread ≠ []) (ht : tail ≠ [])
    (hu : (i :: intentions).flatMap Intention.bytes = r.unread ++ tail) :
    (readIntentionsFrom (intentions.length + 1) name r).1.isSome = true := by
  have hvalue := hi.2.2 hkey
  have hbytes : i.bytes = packed32 0 ++ counted i.value := by
    rw [Intention.bytes, hkey]
    rfl
  rw [List.flatMap_cons, hbytes, List.append_assoc] at hu
  rcases append_stops hu with ⟨mid, h1, h2⟩ | ⟨mid, hmid, h1⟩
  · obtain ⟨hzero, hr1, hu1⟩ :=
      (readPacked32_parses (n := 0) (by norm_num)).reads r mid (not_not.mpr h0) h1
    rw [readIntentionsFrom_name (by rw [hzero]; rfl)]
    rcases append_stops h2 with ⟨rest, h3, h4⟩ | ⟨rest, hcut, h3⟩
    · obtain ⟨hname, hr2, hu2⟩ := (readString_parses hvalue).reads _ rest hr1 (hu1.trans h3)
      have hlater := hrest (some i.value) _ tail (not_not.mp hr2) ht
        (h4.trans (congrArg (· ++ tail) hu2.symm))
      rw [hname, hlater]
      exact .inl rfl
    · obtain ⟨hname, hend⟩ := readString_starved hvalue (not_not.mp hr1) hcut
        (h3.trans (congrArg (· ++ rest) hu1.symm))
      exact (readIntentionsFrom_nil _ _ hend).mpr (.inl hname)
  · -- the length of the key is a single byte
    have hlength := congrArg List.length h1
    have hthere := List.length_pos_of_ne_nil hne
    have hgone := List.length_pos_of_ne_nil hmid
    rw [List.length_append, show (packed32 0).length = 1 from rfl] at hlength
    omega

/-- The input ends in the length of a key that is not empty. -/
theorem readIntentionsFrom_keyCut {i : Intention} (hi : Intention.Fits i) (n : Nat)
    (name : Option (List UInt8)) {r : Reader φ} {mid : List UInt8} (h0 : r.error = 0)
    (hne : r.unread ≠ []) (hmid : mid ≠ []) (hu : packed32 i.key.length = r.unread ++ mid) :
    (readIntentionsFrom (n + 1) name r).1.isSome = true ↔ name.isSome = true ∨ n ≠ 0 := by
  have hlength : i.key.length < 2 ^ 32 := lt_trans hi.1 (by norm_num)
  obtain ⟨hkey, hr1⟩ := readPacked32_starved hlength h0 hne hmid hu
  have hu1 := readPacked32_exhausts r (fun he => absurd h0 he) hr1
  have hr2 := skipIntention_sticky (wrap32 (readPacked32 r).1) _ hr1
  rw [readIntentionsFrom_key hkey]
  exact readIntentionsFrom_nil _ _ (skipIntention_exhausts _ _ (fun _ => hu1) hr2)

/-- The length of such a key is there. -/
theorem readIntentionsFrom_keyed {i : Intention} (hi : Intention.Fits i) (hkey : i.key ≠ [])
    (n : Nat) (name : Option (List UInt8)) {r : Reader φ} {rest : List UInt8} (h0 : r.error = 0)
    (hu : r.unread = packed32 i.key.length ++ rest) :
    ∃ r' : Reader φ, r'.error = 0 ∧ r'.unread = rest ∧
      readIntentionsFrom (n + 1) name r =
        readIntentionsFrom n name (skipIntention i.key.length r').2 := by
  have hlength : i.key.length < 2 ^ 32 := lt_trans hi.1 (by norm_num)
  obtain ⟨hlen, hr1, hu1⟩ := (readPacked32_parses hlength).reads r rest (not_not.mpr h0) hu
  have hne : wrap32 (readPacked32 r).1 ≠ 0 := by
    rw [hlen, wrap32_natCast hi.1]
    simpa using hkey
  have hrun : readIntentionsFrom (n + 1) name r = _ := readIntentionsFrom_key hne
  rw [hlen, wrap32_natCast hi.1] at hrun
  exact ⟨_, not_not.mp hr1, hu1, hrun⟩

/-- The first of them has a key. -/
theorem nameOfStarved_key {i : Intention} (hi : Intention.Fits i) (hkey : i.key ≠ [])
    {intentions : List Intention} (hrest : NameOfStarved φ intentions)
    {name : Option (List UInt8)} {r : Reader φ} {tail : List UInt8} (h0 : r.error = 0)
    (hne : r.unread ≠ []) (ht : tail ≠ [])
    (hu : (i :: intentions).flatMap Intention.bytes = r.unread ++ tail) :
    (readIntentionsFrom (intentions.length + 1) name r).1.isSome = true ↔
      name.isSome = true ∨ NameRead (i :: intentions) r.unread.length := by
  have hpos : 0 < r.unread.length := List.length_pos_of_ne_nil hne
  have hbytes : i.bytes = packed32 i.key.length ++ (i.key ++ counted i.value) := by
    rw [Intention.bytes, counted, List.append_assoc]
  have hskip := skipIntention_parses (φ := φ) i.key hi.2.1
  rw [List.flatMap_cons, hbytes, List.append_assoc] at hu
  rcases append_stops hu with ⟨mid, h1, h2⟩ | ⟨mid, hmid, h1⟩
  · obtain ⟨r', hr1, hu1, hrun⟩ := readIntentionsFrom_keyed hi hkey intentions.length name h0 h1
    rcases append_stops h2 with ⟨rest, h3, h4⟩ | ⟨rest, hcut, h3⟩
    · -- the intention is there, so that another one follows
      obtain ⟨_, hr2, hu2⟩ := hskip.reads _ rest (not_not.mpr hr1) (hu1.trans h3)
      have hmore : intentions ≠ [] := by
        rintro rfl
        rw [List.flatMap_nil, List.nil_eq, List.append_eq_nil_iff] at h4
        exact ht h4.2
      have hlength : r.unread.length = i.bytes.length + rest.length := by
        rw [h1, h3, hbytes]
        simp only [List.length_append]
        omega
      have hlater := hrest name _ tail (not_not.mp hr2) ht
        (h4.trans (congrArg (· ++ tail) hu2.symm))
      rw [hrun, hlater, hlength, nameRead_after hkey hmore, show Reader.unread _ = rest from hu2]
    · -- it ends after the length of the key
      have hstarves := hskip.starves _ rest (not_not.mpr hr1) hcut
        (h3.trans (congrArg (· ++ rest) hu1.symm))
      have hend := skipIntention_exhausts _ r' (fun he => absurd hr1 he) hstarves
      rw [hrun, readIntentionsFrom_nil _ _ hend, nameRead_inside hkey intentions hpos]
      have hpart := congrArg List.length h3
      have hlast := List.length_pos_of_ne_nil hcut
      rw [h1, hbytes]
      simp only [List.length_append] at hpart ⊢
      omega
  · -- it ends before the length of the key
    rw [readIntentionsFrom_keyCut hi _ _ h0 hne hmid h1, nameRead_inside hkey intentions hpos]
    have hpart := congrArg List.length h1
    have hlast := List.length_pos_of_ne_nil hmid
    rw [hbytes, List.length_append]
    rw [List.length_append] at hpart
    omega

/-- **When intentions are cut off**, there is a name all the same if a number was read as zero. -/
theorem readIntentionsFrom_starved {intentions : List Intention}
    (h : ∀ i ∈ intentions, Intention.Fits i) : NameOfStarved φ intentions := by
  induction intentions with
  | nil =>
      intro name r tail _ ht hu
      rw [List.flatMap_nil, List.nil_eq, List.append_eq_nil_iff] at hu
      exact absurd hu.2 ht
  | cons i intentions ih =>
      intro name r tail h0 ht hu
      have hi := h i List.mem_cons_self
      have hrest := ih fun j hj => h j (List.mem_cons_of_mem i hj)
      rw [List.length_cons]
      by_cases hnil : r.unread = []
      · rw [readIntentionsFrom_nil _ _ hnil, hnil]
        unfold NameRead
        simp
      · by_cases hkey : i.key = []
        · exact iff_of_true (nameOfStarved_name hi hkey hrest h0 hnil ht hu)
            (.inr (.inl ⟨i, List.mem_cons_self, hkey⟩))
        · exact nameOfStarved_key hi hkey hrest h0 hnil ht hu

/-! ## Definitions -/

theorem nameFrom_isSome (intentions : List Intention) (name : Option (List UInt8)) :
    (nameFrom name intentions).isSome = true ↔
      name.isSome = true ∨ ∃ i ∈ intentions, i.key = [] := by
  induction intentions generalizing name with
  | nil => simp [nameFrom]
  | cons i intentions ih =>
      have hstep : nameFrom name (i :: intentions) =
          nameFrom (if i.key = [] then some i.value else name) intentions := rfl
      rw [hstep, ih]
      by_cases hkey : i.key = []
      · simp [hkey]
      · simp [hkey]

/-- Where all intentions are there, a name has been read if one of them is. -/
theorem nameRead_whole {intentions : List Intention} {c : Nat}
    (hc : (intentions.flatMap Intention.bytes).length ≤ c) :
    NameRead intentions c ↔ ∃ i ∈ intentions, i.key = [] := by
  unfold NameRead
  constructor
  · rintro (hname | ⟨hne, hle⟩)
    · exact hname
    · -- the last one is there as well
      exfalso
      have hsplit := List.dropLast_append_getLast hne
      rw [← hsplit, List.flatMap_append, List.length_append] at hc
      have hlast : 0 < ([intentions.getLast hne].flatMap Intention.bytes).length := by
        have hpos := packed32_length_pos (intentions.getLast hne).key.length
        simp only [List.flatMap_singleton, Intention.bytes, counted, List.length_append]
        omega
      omega
  · exact .inl

theorem readSignaturePart_reports (remoteIndex : Int) (name : Option (List UInt8)) :
    Reports (φ := φ) (do
      let size := wrap32 (← readPacked32)
      checked (fun e => .error (e, name)) do
        readDefinitionEnd remoteIndex name <$> readSignature size.toNat [])
      fun a => a = .error (φ.code, name) := by
  refine reports_bind fun size => checked_reports ?_ rfl
  refine reportsFrom_map (readSignature_reports _ _) ?_
  rintro a rfl
  rfl

/-- A name has been read of a definition of which the first `c` bytes are there. -/
def NameReadOf (index : Nat) (intentions : List Intention) (c : Nat) : Prop :=
  ∃ k, c = (packed32 index).length + 1 + k ∧ NameRead intentions k

/-- Of a definition that ends in its index or behind it no name is read. -/
theorem readDefinition_early {index : Nat} (hindex : index < 2 ^ 32) {rest : List UInt8}
    {r : Reader φ} {tail : List UInt8} (h0 : r.error = 0)
    (hu : packed32 index ++ rest = r.unread ++ tail)
    (hearly : r.unread.length ≤ (packed32 index).length) :
    (readDefinition r).1 = .error (φ.code, none) ∧ (readDefinition r).2.error ≠ 0 := by
  rcases append_stops hu with ⟨mid, h1, -⟩ | ⟨mid, hmid, h1⟩
  · have hmid : mid = [] := by
      have hlength := congrArg List.length h1
      rw [List.length_append] at hlength
      exact List.length_eq_zero_iff.mp (by omega)
    obtain ⟨-, hr1, hu1⟩ := (readPacked32_parses hindex).reads r mid (not_not.mpr h0) h1
    rw [readDefinition, stateM_bind, checked_ok (not_not.mp hr1), stateM_bind]
    generalize (readPacked32 r).2 = r1 at hr1 hu1
    -- without their number there are no intentions
    obtain ⟨hzero, hr2⟩ := readByte_nil (show r1.unread = [] from hu1.trans hmid)
    have hrun : readIntentions r1 = (none, (readByte r1).2) := by
      rw [readIntentions, stateM_bind, hzero]
      rfl
    rw [hrun, checked_failed hr2]
    exact ⟨rfl, hr2⟩
  · have hr1 : (readPacked32 r).2.error ≠ 0 :=
      (readPacked32_parses hindex).starves r mid (not_not.mpr h0) hmid h1
    rw [readDefinition, stateM_bind, checked_failed hr1]
    exact ⟨rfl, hr1⟩

/-- What is read of a definition behind the number of its intentions. -/
theorem readDefinition_intentions {index : Nat} (hindex : index < 2 ^ 32) {b : UInt8}
    {rest : List UInt8} {r : Reader φ} (h0 : r.error = 0)
    (hu : r.unread = packed32 index ++ b :: rest) :
    ∃ r' : Reader φ, r'.error = 0 ∧ r'.unread = rest ∧
      readDefinition r = checked (fun e => .error (e, (readIntentionsFrom b.toNat none r').1))
        (do
          let size := wrap32 (← readPacked32)
          checked (fun e => .error (e, (readIntentionsFrom b.toNat none r').1)) do
            readDefinitionEnd (wrap32 index) (readIntentionsFrom b.toNat none r').1 <$>
              readSignature size.toNat [])
        (readIntentionsFrom b.toNat none r').2 := by
  obtain ⟨hlength, hr1, hu1⟩ := (readPacked32_parses hindex).reads r _ (not_not.mpr h0) hu
  obtain ⟨hbyte, hr2, hu2⟩ := (readByte_parses b).reads _ rest hr1 hu1
  refine ⟨(readByte (readPacked32 r).2).2, not_not.mp hr2, hu2, ?_⟩
  rw [readDefinition, stateM_bind, checked_ok (not_not.mp hr1), stateM_bind, hlength,
    readIntentions, stateM_bind, hbyte]

/-- **When a definition is cut off**, the error comes with a name if one has been read. The number
of the intentions does not matter where it is not there. -/
theorem readDefinition_starved {index : Nat} {intentions : List Intention}
    {signature : List UInt8} (hindex : index < 2 ^ 32)
    (hfits : ∀ i ∈ intentions, Intention.Fits i) (hsize : signature.length < 2 ^ 31)
    {r : Reader φ} {tail : List UInt8} (h0 : r.error = 0) (ht : tail ≠ [])
    (hu : definitionBytes index intentions signature = r.unread ++ tail)
    (hfew : intentions.length < 128 ∨ r.unread.length ≤ (packed32 index).length) :
    ∃ name, (readDefinition r).1 = .error (φ.code, name) ∧ (readDefinition r).2.error ≠ 0 ∧
      (name.isSome = true ↔ NameReadOf index intentions r.unread.length) := by
  by_cases hearly : r.unread.length ≤ (packed32 index).length
  · rw [definitionBytes, List.append_assoc] at hu
    obtain ⟨hrun, hfails⟩ := readDefinition_early hindex h0 hu hearly
    refine ⟨none, hrun, hfails, ?_⟩
    simp only [Option.isSome_none, Bool.false_eq_true, false_iff]
    rintro ⟨k, hk, _⟩
    omega
  replace hfew := hfew.resolve_right hearly
  have hfails : (readDefinition r).2.error ≠ 0 :=
    (readDefinition_parses_wrap hindex hfew hfits hsize).starves r tail (not_not.mpr h0) ht hu
  rw [definitionBytes, intentionsBytes, packed32_of_lt hfew, List.append_assoc] at hu
  -- the index and the number of the intentions are there
  obtain ⟨mid, h1, h2⟩ : ∃ mid, r.unread = packed32 index ++ mid ∧ _ = mid ++ tail := by
    rcases append_stops hu with hthere | ⟨mid, -, hmid⟩
    · exact hthere
    · rw [hmid, List.length_append] at hearly
      exact absurd (Nat.le_add_right _ _) hearly
  obtain ⟨b, mid, rfl⟩ : ∃ b rest, mid = b :: rest :=
    List.exists_cons_of_ne_nil fun hnil => hearly (by rw [h1, hnil, List.append_nil])
  rw [List.append_assoc, List.singleton_append, List.cons_append, List.cons.injEq] at h2
  obtain ⟨hb, h2⟩ := h2
  have hcount : b.toNat = intentions.length := by
    rw [← hb, UInt8.toNat_ofNat', Nat.mod_eq_of_lt (by omega)]
  obtain ⟨r', hr', hu', hrun⟩ := readDefinition_intentions hindex h0 h1
  rw [hcount] at hrun
  have hof : NameReadOf index intentions r.unread.length ↔ NameRead intentions mid.length := by
    unfold NameReadOf
    rw [h1, List.length_append, List.length_cons]
    constructor
    · rintro ⟨k, hk, hname⟩
      obtain rfl : k = mid.length := by omega
      exact hname
    · exact fun hname => ⟨mid.length, by omega, hname⟩
  suffices hname : ∃ name, (readDefinition r).1 = .error (φ.code, name) ∧
      (name.isSome = true ↔ NameRead intentions mid.length) by
    obtain ⟨name, hread, hiff⟩ := hname
    exact ⟨name, hread, hfails, hiff.trans hof.symm⟩
  rcases append_stops h2 with ⟨rest, h3, -⟩ | ⟨rest, hcut, h3⟩
  · -- all intentions are there
    obtain ⟨hname, hr3, -⟩ := (readIntentionsFrom_parses hfits none).reads r' rest
      (not_not.mpr hr') (hu'.trans h3)
    rw [hrun, checked_ok (not_not.mp hr3), hname] at hfails ⊢
    refine ⟨nameFrom none intentions, readSignaturePart_reports _ _ _ hfails, ?_⟩
    rw [nameFrom_isSome, nameRead_whole (by rw [h3, List.length_append]; omega)]
    simp
  · have hmid := h3.trans (congrArg (· ++ rest) hu'.symm)
    have hr3 := (readIntentionsFrom_parses hfits none).starves r' rest (not_not.mpr hr') hcut hmid
    rw [hrun, checked_failed hr3]
    refine ⟨_, rfl, ?_⟩
    rw [readIntentionsFrom_starved hfits none r' rest hr' hcut hmid, hu']
    simp

/-! ## What comes of a packet -/

/-- Nothing: a negative result, no call of a handler, and the same tables. -/
def Declines (m : DecoderM φ Int) (d : Decoder φ) : Prop :=
  ∃ result d', m.run d = (.ok result, d') ∧ result < 0 ∧ d'.calls = d.calls ∧ SameTables d d'

theorem declines_congr {m n : DecoderM φ Int} {d : Decoder φ} (r : Reader φ)
    (h : m.run d = n.run (d.withReader r)) : Declines m d ↔ Declines n (d.withReader r) := by
  unfold Declines
  rw [h]
  constructor
  · rintro ⟨result, d', hrun, hneg, hcalls, hsame⟩
    exact ⟨result, d', hrun, hneg, hcalls,
      ⟨hsame.versionOk, hsame.locals, hsame.remoteToLocal, hsame.localRef,
        hsame.remoteToLocalRef⟩⟩
  · rintro ⟨result, d', hrun, hneg, hcalls, hsame⟩
    exact ⟨result, d', hrun, hneg, hcalls,
      ⟨hsame.versionOk, hsame.locals, hsame.remoteToLocal, hsame.localRef,
        hsame.remoteToLocalRef⟩⟩

section Body

variable {d : Decoder φ} {tail : List UInt8} (h0 : d.reader.error = 0) (ht : tail ≠ [])

include h0 ht

/-- What is read of the packet reports that it is cut off. -/
theorem declines_onReader {m : StateM (Reader φ) Int} {bs : List UInt8} (hm : Starves m bs)
    (hr : ReportsFrom m fun a => a = φ.code) (hu : bs = d.reader.unread ++ tail) :
    Declines (onReader m) d := by
  obtain ⟨r, result, hrun, _, hreports⟩ := onReader_starves hm h0 ht hu
  refine ⟨result, _, hrun, ?_, rfl, (SameTables.refl d).withReader r⟩
  rw [hreports _ hr]
  exact φ.neg

omit h0 ht in
/-- A loop that skips at least as many bytes. -/
theorem skipBytes_starves (tag : Int) {bs : List UInt8} {n : Nat} (h : bs.length ≤ n) :
    Starves (skipBytes (φ := φ) tag n) bs := by
  intro r tail h0 ht hu
  have hpad := skipBytes_parses (φ := φ) tag (bs ++ List.replicate (n - bs.length) 0)
  rw [show (bs ++ List.replicate (n - bs.length) (0 : UInt8)).length = n by
    rw [List.length_append, List.length_replicate]
    omega] at hpad
  refine hpad.starves r (tail ++ List.replicate (n - bs.length) 0) h0 ?_ ?_
  · simp [ht]
  · rw [hu, List.append_assoc]

omit h0 ht in
theorem readerSkip_starves (tag : Int) {bs : List UInt8} {len : Int} (h : bs.length ≤ len.toNat) :
    Starves (readerSkip (φ := φ) len tag) bs := skipBytes_starves tag h

omit h0 ht in
theorem checked_starves {α : Type} (onError : Int → α) {m : StateM (Reader φ) α}
    {bs : List UInt8} (h : Starves m bs) : Starves (checked onError m) bs := by
  intro r tail hr ht hu
  rw [checked_ok (not_not.mp hr)]
  exact h r tail hr ht hu

theorem readerSkip_declines (tag : Int) {body : List UInt8} (hlen : body.length < 2 ^ 31)
    (hu : body = d.reader.unread ++ tail) :
    Declines (onReader (readerSkip (wrap32 body.length) tag)) d := by
  apply declines_onReader h0 ht (readerSkip_starves tag _) (skipBytes_reports _ _) hu
  rw [wrap32_natCast hlen, Int.toNat_natCast]

omit h0 ht in
/-- More is skipped of a pragma than there is, if not just as much. -/
theorem readPragma_starves {type data : List UInt8}
    (hlen : (counted type ++ data).length < 2 ^ 31) :
    Starves (readPragma (φ := φ) (wrap32 (counted type ++ data).length))
      (counted type ++ data) := by
  have hsum : (counted type ++ data).length = (counted type).length + data.length :=
    List.length_append
  have htype := length_lt_counted type
  have hspells : Spells (packed32 type.length) type.length :=
    varint_spells (lt_trans (show type.length < 2 ^ 31 by omega) (by norm_num))
  have hsize := sizeString_spelled hspells (show (counted type).length < 2 ^ 31 by omega)
  have hskip : data.length ≤
      (wrap32 (wrap32 (counted type ++ data).length - sizeString type)).toNat := by
    have hcounted : ((packed32 type.length ++ type).length : Int) = (counted type).length := rfl
    have hle : excess (packed32 type.length) type ≤ (counted type).length := by
      rw [counted, List.length_append]
      exact Nat.sub_le _ _
    rw [wrap32_natCast hlen, wrap32_of_lt (by omega) (by omega)]
    omega
  have hstarves := checked_starves some
    ((readerSkip_starves (φ := φ) LABCOMM_PRAGMA hskip).map some)
  exact Starves.bind (readString_parses (by omega)) hstarves fun _ => checked_sticky _ _

/-- A pragma. -/
theorem decodePragma_declines {type data : List UInt8}
    (hlen : (counted type ++ data).length < 2 ^ 31)
    (hu : counted type ++ data = d.reader.unread ++ tail) :
    Declines (decodePragma (wrap32 (counted type ++ data).length)) d := by
  obtain ⟨r, result, hrun, _, hreports⟩ := onReader_starves (readPragma_starves hlen) h0 ht hu
  have hresult := hreports _ (readPragma_reports _).reportsFrom
  subst hresult
  refine ⟨φ.code, d.withReader r, ?_, φ.neg, rfl, (SameTables.refl d).withReader r⟩
  rw [decodePragma, run_bind_ok hrun]
  rfl

/-- A version. -/
theorem decodeVersion_declines {s : List UInt8} (hlen : s.length + 1 < 2 ^ 31)
    (hu : counted s = d.reader.unread ++ tail) : Declines decodeVersion d := by
  obtain ⟨r, result, hrun, _, hreports⟩ :=
    onReader_starves (readVersion_parses hlen).starves h0 ht hu
  have hresult := hreports _ readVersion_reports.reportsFrom
  subst hresult
  refine ⟨φ.code, d.withReader r, ?_, φ.neg, rfl, (SameTables.refl d).withReader r⟩
  rw [decodeVersion, run_bind_ok hrun]
  rfl

/-- A definition: the process ends when the failure of the reader is `-ENOENT` and a name has
been read. -/
theorem decodeSampleDefOrRef_declines_iff {index : Nat} {intentions : List Intention}
    {signature : List UInt8} (hindex : index < 2 ^ 32)
    (hfew : intentions.length < 128 ∨ d.reader.unread.length ≤ (packed32 index).length)
    (hfits : ∀ i ∈ intentions, Intention.Fits i) (hsize : signature.length < 2 ^ 31)
    (hu : definitionBytes index intentions signature = d.reader.unread ++ tail)
    (uninit : Int) (kind : Nat) :
    Declines (decodeSampleDefOrRef uninit kind) d ↔
      ¬ (φ.code = -ENOENT ∧ NameReadOf index intentions d.reader.unread.length) := by
  obtain ⟨name, hread, _, hname⟩ := readDefinition_starved hindex hfits hsize h0 ht hu hfew
  have hrun : (decodeSampleDefOrRef uninit kind).run d =
      (freeSignatureName name φ.code).run (d.withReader (readDefinition d.reader).2) := by
    have hon : (onReader readDefinition).run d =
        (.ok (.error (φ.code, name)), d.withReader (readDefinition d.reader).2) := by
      rw [onReader_run, hread]
    rw [decodeSampleDefOrRef, run_bind_ok hon]
  rw [← hname, and_comm]
  unfold Declines
  rw [hrun, freeSignatureName]
  constructor
  · rintro ⟨result, d', hresult, _⟩ hexit
    rw [if_pos hexit] at hresult
    cases hresult
  · intro hreturns
    rw [if_neg hreturns]
    exact ⟨φ.code, _, rfl, φ.neg, rfl, (SameTables.refl d).withReader _⟩

/-- A decode function whose input is cut off after `c` bytes calls no handler. -/
def DecodeFunction.StarvesOn (φ : Host) (decode : DecodeFunction) (body : List UInt8) (c : Nat) :
    Prop :=
  ∀ (handler : Handler) (e : Decoder φ) (tail : List UInt8), e.reader.error = 0 → tail ≠ [] →
    body = e.reader.unread ++ tail → e.reader.unread.length = c →
      ∃ r, (decode.run handler).run e = (.ok (), e.withReader r) ∧ r.error = φ.code

omit h0 ht in
theorem sample_starvesOn {R : Option Nat → Prop} {type : DataType} (refs : RefTables) {v : Value}
    (hv : WellTyped R type v) (hlen : (wire refs type v).length < 2 ^ 31) (c : Nat) :
    (DecodeFunction.sample type).StarvesOn φ (wire refs type v) c := by
  intro handler e tail h0 ht hu _
  have hs := stringsFit_of_length refs type v hv hlen
  obtain ⟨r, u, hread, hr, _⟩ :=
    onReader_starves (cEmitDecoder_receives refs e.toRef type v hv hs).starves h0 ht hu
  have hget : (get : DecoderM φ (Decoder φ)).run e = (.ok e, e) := rfl
  have hcall := callHandler_run handler (.sample u) (e.withReader r)
  rw [if_neg (by rw [show (e.withReader r).reader.error = φ.code from hr]; exact φ.neg.ne)] at hcall
  refine ⟨r, ?_, hr⟩
  rw [DecodeFunction.run, run_bind_ok hget, run_bind_ok hread, hcall]

omit h0 ht in
theorem rawTypeDef_starvesOn {index : Nat} {intentions : List Intention} {signature : List UInt8}
    (hindex : index < 2 ^ 32) (hfits : ∀ i ∈ intentions, Intention.Fits i)
    (hsize : signature.length < 2 ^ 31) {c : Nat}
    (hfew : intentions.length < 128 ∨ c ≤ (packed32 index).length) :
    DecodeFunction.rawTypeDef.StarvesOn φ (definitionBytes index intentions signature) c := by
  intro handler e tail h0 ht hu hc
  obtain ⟨name, hread, hr, _⟩ := readDefinition_starved hindex hfits hsize h0 ht hu (hc ▸ hfew)
  refine ⟨(readDefinition e.reader).2, ?_, (Reader.error_eq _).resolve_left hr⟩
  rw [DecodeFunction.run, run_bind_ok (onReader_run _ e), hread]
  rfl

omit h0 ht in
theorem typeBinding_starvesOn {sindex tindex : Nat} (hs : sindex < 2 ^ 32) (ht : tindex < 2 ^ 32)
    (c : Nat) :
    DecodeFunction.typeBinding.StarvesOn φ (packed32 sindex ++ packed32 tindex) c := by
  intro handler e tail h0 htail hu _
  obtain ⟨r, read, hread, hr, hreports⟩ := onReader_starves
    (readTypeBinding_parses_wrap hs ht).starves h0 htail hu
  have hnone := hreports _ readTypeBinding_reports.reportsFrom
  subst hnone
  refine ⟨r, ?_, hr⟩
  rw [DecodeFunction.run, run_bind_ok hread]
  rfl

theorem decodeAndHandle_starved {remoteIndex : Int} {decode : DecodeFunction} {handler : Handler}
    (hroom : d.CanLookUp remoteIndex) (h : d.found remoteIndex = some (decode, handler))
    {body : List UInt8} (hdecode : decode.StarvesOn φ body d.reader.unread.length)
    (hu : body = d.reader.unread ++ tail) :
    ∃ d', (decodeAndHandle remoteIndex).run d = (.ok φ.code, d') ∧ SameTables d d' ∧
      d'.calls = d.calls ∧ d'.reader.error = φ.code := by
  obtain ⟨e, hsame, hreader, hcalls, hrest⟩ := decodeAndHandle_run hroom h
  rw [← hreader] at h0 hu hdecode
  obtain ⟨r, hrun, hr⟩ := hdecode handler e tail h0 ht hu rfl
  refine ⟨e.withReader r, ?_, hsame.withReader r, hcalls, hr⟩
  rw [hrest _ hrun]
  show (Except.ok (if r.error < 0 then r.error else _), _) = _
  rw [hr, if_pos φ.neg]

/-- A packet for a decode function. -/
theorem decodeAndHandle_declines {remoteIndex : Int} (hroom : d.CanLookUp remoteIndex)
    {body : List UInt8} (hdecode : ∀ decode handler, d.found remoteIndex = some (decode, handler) →
      decode.StarvesOn φ body d.reader.unread.length) (hu : body = d.reader.unread ++ tail) :
    Declines (decodeAndHandle remoteIndex) d := by
  cases hfound : d.found remoteIndex with
  | none =>
      obtain ⟨d', hrun, hsame, _, hcalls⟩ := decodeAndHandle_notFound hroom hfound
      exact ⟨-ENOENT, d', hrun, by decide, hcalls, hsame⟩
  | some found =>
      obtain ⟨d', hrun, hsame, hcalls, _⟩ :=
        decodeAndHandle_starved h0 ht hroom hfound (hdecode found.1 found.2 hfound) hu
      exact ⟨φ.code, d', hrun, φ.neg, hcalls, hsame⟩

/-- A type packet: it is decoded or skipped, and skipped as well if the failure of the reader is
`-ENOENT`. -/
theorem decodeTypePacket_declines {tag : Int} (hroom : d.CanLookUp tag) {body : List UInt8}
    (hne : body ≠ []) (hlen : body.length < 2 ^ 31)
    (hdecode : ∀ decode handler, d.found tag = some (decode, handler) →
      decode.StarvesOn φ body d.reader.unread.length)
    (hu : body = d.reader.unread ++ tail) :
    Declines (decodeTypePacket tag (wrap32 body.length)) d := by
  cases hfound : d.found tag with
  | none =>
      -- nobody is registered, and the bytes are skipped
      obtain ⟨d', hrun, hsame, hreader, hcalls⟩ := decodeAndHandle_notFound hroom hfound
      have hskip : (decodeTypePacket tag (wrap32 body.length)).run d =
          (onReader (readerSkip (wrap32 body.length) tag)).run d' := by
        rw [decodeTypePacket, run_bind_ok hrun, if_pos rfl]
      rw [← hreader] at h0 hu
      obtain ⟨result, d'', hresult, hneg, hcalls', hsame'⟩ := readerSkip_declines h0 ht tag hlen hu
      exact ⟨result, d'', hskip.trans hresult, hneg, hcalls'.trans hcalls,
        hsame.trans _ _ _ hsame'⟩
  | some found =>
      obtain ⟨d', hrun, hsame, hcalls, hr⟩ :=
        decodeAndHandle_starved h0 ht hroom hfound (hdecode found.1 found.2 hfound) hu
      by_cases hcode : φ.code = -ENOENT
      · -- the reader fails again at the first byte
        have hskip : readerSkip (wrap32 body.length) tag d'.reader =
            (φ.code, (readByte d'.reader).2) := by
          have hpos := List.length_pos_of_ne_nil hne
          have hsticky := readByte_sticky d'.reader
            (show d'.reader.error ≠ 0 by rw [hr]; exact φ.neg.ne)
          rw [readerSkip, wrap32_natCast hlen, Int.toNat_natCast]
          obtain ⟨n, hn⟩ : ∃ n, body.length = n + 1 := ⟨body.length - 1, by omega⟩
          rw [hn, skipBytes, stateM_bind, checked_failed hsticky]
          rfl
        refine ⟨φ.code, d'.withReader (readByte d'.reader).2, ?_, φ.neg, hcalls,
          hsame.withReader _⟩
        rw [decodeTypePacket, run_bind_ok hrun, if_pos hcode, onReader_run, hskip]
      · refine ⟨φ.code, d', ?_, φ.neg, hcalls, hsame⟩
        rw [decodeTypePacket, run_bind_ok hrun, if_neg hcode]
        rfl

end Body

/-! ## Packets -/

/-- A sample of a type that is known is a value of that type. -/
def Decoder.Expects (d : Decoder φ) : Packet → Prop
  | .sample index body => ∀ decode handler, d.found (wrap32 index) = some (decode, handler) →
      ∃ (R : Option Nat → Prop) (refs : RefTables) (type : DataType) (v : Value),
        decode = .sample type ∧ WellTyped R type v ∧ body = wire refs type v
  | _ => True

/-- The decoder gets to the body of the packet. -/
def Decoder.ReachesBody (d : Decoder φ) (p : Packet) : Prop :=
  d.reader.error = 0 ∧ p.header.length ≤ d.reader.unread.length ∧
    (p.tag = LABCOMM_VERSION ∨ d.versionOk = true)

/-- The number of intentions, and the decode function of a type packet, are what they are meant to
be, as far as `c` bytes of the body get: the byte that is read for the number holds it, and the
type packet is not taken for a sample. -/
def Decoder.ReadsKind (d : Decoder φ) (c : Nat) : Packet → Prop
  | .sampleDef index intentions _ => intentions.length < 128 ∨ c ≤ (packed32 index).length
  | .sampleRef index intentions _ => intentions.length < 128 ∨ c ≤ (packed32 index).length
  | .typeDef index intentions _ => ∀ decode handler,
      d.found LABCOMM_TYPE_DEF = some (decode, handler) →
        decode = .rawTypeDef ∧ (intentions.length < 128 ∨ c ≤ (packed32 index).length)
  | .typeBinding _ _ => ∀ decode handler,
      d.found LABCOMM_TYPE_BINDING = some (decode, handler) → decode = .typeBinding
  | _ => True

/-- The decoder reads the `c` bytes of the body as they were written. -/
structure Decoder.ReadsBody (d : Decoder φ) (p : Packet) (c : Nat) : Prop where
  /-- An `int` can hold the length. -/
  length : p.body.length < 2 ^ 31
  /-- The tables have room where the tag is looked up. -/
  room : LooksUp (wrap32 p.tag) → d.CanLookUp (wrap32 p.tag)
  kind : d.ReadsKind c p

/-- The failure of the reader, after `c` bytes of the body, is taken for a definition that nobody
has registered. -/
def Mistaken (φ : Host) (p : Packet) (c : Nat) : Prop :=
  φ.code = -ENOENT ∧
    match p with
    | .sampleDef index intentions _ => NameReadOf index intentions c
    | .sampleRef index intentions _ => NameReadOf index intentions c
    | _ => False

theorem packed32_ne_nil (n : Nat) : packed32 n ≠ [] :=
  List.ne_nil_of_length_pos (packed32_length_pos n)

section Packet

variable {d : Decoder φ} {p : Packet} {tail : List UInt8}

/-- The header is cut off, or an error is pending. -/
theorem declines_of_header (uninit : Int)
    (h : ((readHeader (φ := φ)) d.reader).2.error ≠ 0) : Declines (doDecodeOne uninit) d := by
  have hrun : (onReader readHeader).run d =
      (.ok (.error φ.code), d.withReader (readHeader d.reader).2) := by
    rw [onReader_run, readHeader_reports d.reader h]
  refine ⟨φ.code, d.withReader (readHeader d.reader).2, ?_, φ.neg, rfl,
    (SameTables.refl d).withReader _⟩
  rw [doDecodeOne, run_bind_ok hrun]
  rfl

theorem version_of_tag (hp : p.InRange) (h : p.tag = LABCOMM_VERSION) : ∃ s, p = .version s := by
  cases p with
  | version s => exact ⟨s, rfl⟩
  | sample index body =>
      have huser := hp.2.1
      rw [show index = LABCOMM_VERSION from h] at huser
      exact absurd huser (by decide)
  | sampleDef | sampleRef | typeDef | typeBinding | pragma =>
      exact absurd h (by simp only [Packet.tag]; decide)

section Kinds

variable (h0 : d.reader.error = 0) (ht : tail ≠ []) (hv : d.versionOk = true)

include h0 ht hv

/-- A definition, of a sample or of a reference. -/
theorem definitionBody_declines_iff (uninit length : Int) {tag : Nat}
    (htag : tag = LABCOMM_SAMPLE_DEF ∨ tag = LABCOMM_SAMPLE_REF) {index : Nat}
    {intentions : List Intention} {signature : List UInt8} (hindex : index < 2 ^ 32)
    (hfew : intentions.length < 128 ∨ d.reader.unread.length ≤ (packed32 index).length)
    (hlen : (definitionBytes index intentions signature).length < 2 ^ 31)
    (hu : definitionBytes index intentions signature = d.reader.unread ++ tail) :
    Declines (decodeBody uninit (wrap32 tag) length) d ↔
      ¬ (φ.code = -ENOENT ∧ NameReadOf index intentions d.reader.unread.length) := by
  have hwrap : wrap32 tag = tag := by
    rcases htag with rfl | rfl
    · decide
    · decide
  have hversion : (tag : Int) ≠ (LABCOMM_VERSION : Int) := by
    rcases htag with rfl | rfl
    · decide
    · decide
  have hrun : (decodeBody uninit tag length).run d =
      (decodeSampleDefOrRef uninit tag).run d := by
    rw [decodeBody_accepted hv hversion]
    rcases htag with rfl | rfl
    · rw [if_pos rfl]
    · rw [if_neg (by decide), if_pos rfl]
  rw [hwrap]
  refine (declines_congr d.reader hrun).trans ?_
  exact decodeSampleDefOrRef_declines_iff h0 ht hindex hfew (definition_intentionsFit hlen)
    (lt_of_le_of_lt (length_le_definitionBytes _ _ _) hlen) hu uninit tag

/-- A type packet. -/
theorem typePacketBody_declines (uninit : Int) {tag : Nat}
    (htag : tag = LABCOMM_TYPE_DEF ∨ tag = LABCOMM_TYPE_BINDING) (hroom : d.CanLookUp (wrap32 tag))
    {body : List UInt8} (hne : body ≠ []) (hlen : body.length < 2 ^ 31)
    (hdecode : ∀ decode handler, d.found tag = some (decode, handler) →
      decode.StarvesOn φ body d.reader.unread.length)
    (hu : body = d.reader.unread ++ tail) :
    Declines (decodeBody uninit (wrap32 tag) (wrap32 body.length)) d := by
  have hwrap : wrap32 tag = tag := by
    rcases htag with rfl | rfl
    · decide
    · decide
  rw [hwrap] at hroom ⊢
  have hversion : (tag : Int) ≠ (LABCOMM_VERSION : Int) := by
    rcases htag with rfl | rfl
    · decide
    · decide
  have hrun : (decodeBody uninit tag (wrap32 body.length)).run d =
      (decodeTypePacket tag (wrap32 body.length)).run d := by
    rw [decodeBody_accepted hv hversion]
    rcases htag with rfl | rfl
    · rw [if_neg (by decide), if_neg (by decide), if_pos rfl]
    · rw [if_neg (by decide), if_neg (by decide), if_neg (by decide), if_pos rfl]
  exact (declines_congr d.reader hrun).mpr
    (decodeTypePacket_declines h0 ht hroom hne hlen hdecode hu)

/-- A pragma. -/
theorem pragmaBody_declines (uninit : Int) {type data : List UInt8}
    (hlen : (counted type ++ data).length < 2 ^ 31)
    (hu : counted type ++ data = d.reader.unread ++ tail) :
    Declines (decodeBody uninit (wrap32 LABCOMM_PRAGMA)
      (wrap32 (counted type ++ data).length)) d := by
  rw [show wrap32 LABCOMM_PRAGMA = (LABCOMM_PRAGMA : Int) by decide]
  have hrun := decodeBody_accepted hv
    (show (LABCOMM_PRAGMA : Int) ≠ (LABCOMM_VERSION : Int) by decide) uninit
    (wrap32 (counted type ++ data).length)
  rw [if_neg (by decide), if_neg (by decide), if_neg (by decide), if_neg (by decide),
    if_pos rfl] at hrun
  exact (declines_congr d.reader hrun).mpr (decodePragma_declines h0 ht hlen hu)

/-- A sample: an index that an `int` cannot hold is skipped. -/
theorem sampleBody_declines (uninit : Int) {index : Nat} (huser : LABCOMM_USER ≤ index)
    (hindex : index < 2 ^ 32)
    (hroom : LooksUp (wrap32 index) → d.CanLookUp (wrap32 index)) {body : List UInt8}
    (hlen : body.length < 2 ^ 31)
    (hdecode : ∀ decode handler, d.found (wrap32 index) = some (decode, handler) →
      decode.StarvesOn φ body d.reader.unread.length)
    (hu : body = d.reader.unread ++ tail) :
    Declines (decodeBody uninit (wrap32 index) (wrap32 body.length)) d := by
  have hfar : wrap32 index < 0 ∨ (LABCOMM_USER : Int) ≤ wrap32 index := by
    by_cases hint : index < 2 ^ 31
    · rw [wrap32_natCast hint]
      exact .inr (by exact_mod_cast huser)
    · rw [wrap32_natCast_of_ge (by omega) hindex]
      exact .inl (by omega)
  have hlookup : ¬ wrap32 index < (LABCOMM_USER : Int) → LooksUp (wrap32 index) :=
    fun h => .inr (.inr (not_lt.mp h))
  unfold LABCOMM_USER at hfar
  have hrun := decodeBody_accepted hv
    (show wrap32 index ≠ (LABCOMM_VERSION : Int) by unfold LABCOMM_VERSION; omega) uninit
    (wrap32 body.length)
  rw [if_neg (by unfold LABCOMM_SAMPLE_DEF; omega), if_neg (by unfold LABCOMM_SAMPLE_REF; omega),
    if_neg (by unfold LABCOMM_TYPE_DEF; omega), if_neg (by unfold LABCOMM_TYPE_BINDING; omega),
    if_neg (by unfold LABCOMM_PRAGMA; omega)] at hrun
  apply (declines_congr d.reader hrun).mpr
  split
  · exact readerSkip_declines h0 ht _ hlen hu
  · rename_i hge
    exact decodeAndHandle_declines h0 ht (hroom (hlookup hge)) hdecode hu

end Kinds

/-- The bodies of the packets that are not looked at before the version. -/
theorem decodeBody_declines_iff (uninit : Int) (hp : p.InRange) (hexpects : d.Expects p)
    (h0 : d.reader.error = 0) (ht : tail ≠ []) (hv : d.versionOk = true)
    (htag : p.tag ≠ LABCOMM_VERSION) (hu : p.body = d.reader.unread ++ tail)
    (hreads : d.ReadsBody p d.reader.unread.length) :
    Declines (decodeBody uninit (wrap32 p.tag) (wrap32 p.body.length)) d ↔
      ¬ Mistaken φ p d.reader.unread.length := by
  obtain ⟨hlen, hroom, hkind⟩ := hreads
  -- only definitions and references can be mistaken
  have hids := hp.2
  cases p with
  | version s => exact absurd rfl htag
  | sampleDef index intentions signature =>
      exact definitionBody_declines_iff h0 ht hv uninit _ (.inl rfl) hids hkind hlen hu
  | sampleRef index intentions signature =>
      exact definitionBody_declines_iff h0 ht hv uninit _ (.inr rfl) hids hkind hlen hu
  | typeDef index intentions signature =>
      refine iff_of_true ?_ fun h => h.2
      have hlooks : LooksUp (wrap32 (Packet.typeDef index intentions signature).tag) := by
        rw [Packet.tag]
        exact .inl (by decide)
      refine typePacketBody_declines h0 ht hv uninit (.inl rfl) (hroom hlooks)
        (List.append_ne_nil_of_right_ne_nil _
          (List.append_ne_nil_of_left_ne_nil (packed32_ne_nil _) _)) hlen
        (fun decode handler hfound => ?_) hu
      obtain ⟨rfl, hfew⟩ := hkind decode handler hfound
      exact rawTypeDef_starvesOn hids (definition_intentionsFit hlen)
        (lt_of_le_of_lt (length_le_definitionBytes _ _ _) hlen) hfew
  | typeBinding sindex tindex =>
      refine iff_of_true ?_ fun h => h.2
      have hlooks : LooksUp (wrap32 (Packet.typeBinding sindex tindex).tag) := by
        rw [Packet.tag]
        exact .inr (.inl (by decide))
      refine typePacketBody_declines h0 ht hv uninit (.inr rfl) (hroom hlooks)
        (List.append_ne_nil_of_left_ne_nil (packed32_ne_nil _) _) hlen
        (fun decode handler hfound => ?_) hu
      rw [hkind decode handler hfound]
      exact typeBinding_starvesOn hids.1 hids.2 _
  | pragma type data =>
      exact iff_of_true (pragmaBody_declines h0 ht hv uninit hlen hu) fun h => h.2
  | sample index body =>
      refine iff_of_true ?_ fun h => h.2
      refine sampleBody_declines h0 ht hv uninit hids.1 hids.2 hroom hlen
        (fun decode handler hfound => ?_) hu
      obtain ⟨R, refs, type, v, rfl, hv, rfl⟩ := hexpects decode handler hfound
      exact sample_starvesOn refs hv hlen _

/-- The number of bytes of the body that are there. -/
def Decoder.bodyThere (d : Decoder φ) (p : Packet) : Nat :=
  d.reader.unread.length - p.header.length

/-- A packet that is cut off is declined, if it is read as it was written, unless its failure is
taken for a definition that nobody has registered. -/
theorem declines_of_reads (uninit : Int) (hp : p.InRange) (hexpects : d.Expects p)
    (ht : tail ≠ []) (hu : p.bytes = d.reader.unread ++ tail)
    (hreads : d.ReachesBody p → d.ReadsBody p (d.bodyThere p)) :
    Declines (doDecodeOne uninit) d ↔ ¬ (d.ReachesBody p ∧ Mistaken φ p (d.bodyThere p)) := by
  rw [p.bytes_eq] at hu
  rw [not_and]
  by_cases h0 : d.reader.error = 0
  · have hheader := readHeader_parses_ints (φ := φ) hp.tag_lt hp.1
    rcases append_stops hu with ⟨mid, h1, h2⟩ | ⟨mid, hmid, h1⟩
    · -- the header is there
      obtain ⟨r, hread, hr0, hru⟩ := onReader_reads hheader h0 h1
      have hrun : (doDecodeOne uninit).run d =
          (decodeBody uninit (wrap32 p.tag) (wrap32 p.body.length)).run (d.withReader r) := by
        rw [doDecodeOne, run_bind_ok hread]
      have hbody : p.body = (d.withReader r).reader.unread ++ tail := by
        rw [h2, ← hru]
        rfl
      have hcut : d.bodyThere p = (d.withReader r).reader.unread.length := by
        show _ = r.unread.length
        rw [Decoder.bodyThere, h1, hru, List.length_append]
        omega
      have hreach : d.ReachesBody p ↔ p.tag = LABCOMM_VERSION ∨ d.versionOk = true := by
        unfold Decoder.ReachesBody
        rw [h1, List.length_append]
        simp [h0]
      rw [hreach] at hreads ⊢
      refine (declines_congr r hrun).trans ?_
      rw [hcut] at hreads ⊢
      by_cases hversion : p.tag = LABCOMM_VERSION
      · obtain ⟨s, rfl⟩ := version_of_tag hp hversion
        have hlen : s.length + 1 < 2 ^ 31 :=
          lt_of_le_of_lt (length_lt_counted s) (hreads (.inl rfl)).length
        refine iff_of_true ?_ fun _ h => h.2
        have hdecode : decodeBody (φ := φ) uninit (wrap32 LABCOMM_VERSION)
            (wrap32 (counted s).length) = decodeVersion := by
          rw [show wrap32 LABCOMM_VERSION = (LABCOMM_VERSION : Int) by decide]
          exact decodeBody_version uninit _
        have hdeclines := decodeVersion_declines hr0 ht hlen hbody
        rw [← hdecode] at hdeclines
        exact hdeclines
      · by_cases hv : d.versionOk = true
        · have hreads' := hreads (.inr hv)
          have hbodies := decodeBody_declines_iff uninit hp
            (show (d.withReader r).Expects p from hexpects) hr0 ht
            (show (d.withReader r).versionOk = true from hv) hversion hbody
            ⟨hreads'.length, hreads'.room, hreads'.kind⟩
          rw [hbodies]
          exact ⟨fun h _ => h, fun h => h (.inr hv)⟩
        · -- before the version nothing is looked at
          have hfalse : (d.withReader r).versionOk = false := by
            show d.versionOk = false
            simpa using hv
          have htag : wrap32 p.tag ≠ LABCOMM_VERSION := by
            have hlt := hp.tag_lt
            by_cases hint : p.tag < 2 ^ 31
            · rw [wrap32_natCast hint]
              exact_mod_cast hversion
            · rw [wrap32_natCast_of_ge (by omega) hlt]
              unfold LABCOMM_VERSION
              omega
          refine iff_of_true ?_ fun h => absurd h (by simp [hversion, hv])
          exact ⟨-ECONNRESET, d.withReader r, decodeBody_refused hfalse htag uninit _, by decide,
            rfl, SameTables.refl _⟩
    · -- it ends in the header
      have hfails := hheader.starves d.reader mid (not_not.mpr h0) hmid h1
      refine iff_of_true (declines_of_header uninit hfails) ?_
      intro hreach
      have hpart := congrArg List.length h1
      have hpos := List.length_pos_of_ne_nil hmid
      rw [List.length_append] at hpart
      have hle := hreach.2.1
      omega
  · -- the reader has failed before
    have hsticky : (readHeader d.reader).2.error ≠ 0 :=
      (readPacked32_sticky.bind fun _ => checked_sticky _ _) d.reader h0
    exact iff_of_true (declines_of_header uninit hsticky) fun hreach => absurd hreach.1 h0

/-- **A packet that is cut off is declined** if it is read as it was written and its failure is not
taken for a definition that nobody has registered; where it is so taken, it is not declined. -/
theorem truncated_declines_iff (uninit : Int) (hp : p.InRange) (hexpects : d.Expects p)
    (ht : tail ≠ []) (hu : p.bytes = d.reader.unread ++ tail) :
    ((d.ReachesBody p → d.ReadsBody p (d.bodyThere p) ∧ ¬ Mistaken φ p (d.bodyThere p)) →
      Declines (doDecodeOne uninit) d) ∧
    ((d.ReachesBody p → d.ReadsBody p (d.bodyThere p)) → Declines (doDecodeOne uninit) d →
      d.ReachesBody p → ¬ Mistaken φ p (d.bodyThere p)) := by
  constructor
  · intro h
    refine (declines_of_reads uninit hp hexpects ht hu fun hreach => (h hreach).1).mpr ?_
    exact fun hmistaken => (h hmistaken.1).2 hmistaken.2
  · intro hreads hdeclines hreach hmistaken
    exact (declines_of_reads uninit hp hexpects ht hu hreads).mp hdeclines ⟨hreach, hmistaken⟩

end Packet

/-- A pragma that ends in its type. -/
theorem truncated_declines_pragma : Declines (doDecodeOne 0) (decoderOf [0x3f, 3, 1]) := by
  have hbytes : (Packet.pragma [97] [7]).bytes =
      (decoderOf [0x3f, 3, 1]).reader.unread ++ [97, 7] := by
    decide +kernel
  refine (truncated_declines_iff (p := .pragma [97] [7]) 0 ⟨by decide, trivial⟩ trivial (by decide)
    hbytes).1 fun _ => ⟨⟨by decide, fun h => absurd h ?_, trivial⟩, fun h => h.2⟩
  unfold LooksUp
  decide

/-- A packet that is cut off is declined. -/
def TruncatedDeclined : Prop :=
  ∀ (φ : Host) (d : Decoder φ) (p : Packet) (tail : List UInt8) (uninit : Int), p.InRange →
    d.Expects p → tail ≠ [] → p.bytes = d.reader.unread ++ tail → Declines (doDecodeOne uninit) d

/-- The failure of a reader that has nothing to read from. -/
def noEntry : Host := .of (-ENOENT) (by decide)

/-- A definition that ends after the number of its intentions ends the process. -/
theorem not_truncatedDeclined : ¬ TruncatedDeclined := by
  intro h
  let d : Decoder noEntry :=
    { decoderNew (Reader.ofBytes noEntry [2, 7, 0x40, 1]) with versionOk := true }
  obtain ⟨result, d', hrun, _⟩ := h noEntry d (.sampleDef 0x40 [nameIntention [97]] [0x23])
    [0, 1, 97, 1, 0x23] 0 ⟨by decide, by decide⟩ trivial (by simp) (by decide +kernel)
  have hexit : ((doDecodeOne 0).run d).1.toBool = false := by
    decide +kernel
  rw [hrun] at hexit
  cases hexit

end LabComm.C
