import LabComm.C.Decoder
import LabComm.C.RoundTrip
import LabComm.Java.DecoderChannel
import LabComm.Python.Codec

set_option autoImplicit false

/-! # Intentions sent by Python

`TODO_read_intentions` takes the number of intentions from a single byte, where
`encode_intentions` writes a number of variable length and `decodeIntentions` reads one. All
lists of a given length are read as they were sent if and only if there are fewer than 128
intentions, and the strings have to be such that an `int` can count them, the name with the NUL
that is put after it (`intentions_exact`).
-/

namespace LabComm.C

open Library Python

variable {φ : Host}

/-! ## What is sent and read -/

/-- The bytes of each string of the intentions. -/
def EncodesAs {S : Type} [PyText S] (intentions : Intentions S) (l : List Intention) : Prop :=
  List.Forall₂ (fun p i => PyText.encode p.1 = some i.key ∧ PyText.encode p.2 = some i.value)
    intentions l

/-- The value of the empty key. -/
def intentionName (l : List Intention) : Option (List UInt8) :=
  (l.find? fun i => i.key = []).map Intention.value

/-- The intentions of a definition: no key is there twice, and the name has no NUL. -/
structure NamedIntentions (l : List Intention) : Prop where
  keys : (l.map Intention.key).Nodup
  name : ∀ i ∈ l, i.key = [] → (0 : UInt8) ∉ i.value

/-- The bytes are read as the intentions, by C and by Java. -/
structure IntentionsRead (bytes : List UInt8) (l : List Intention) : Prop where
  c : ∀ (φ : Host) (r : Reader φ) (rest : List UInt8), r.error = 0 →
    r.unread = bytes ++ rest → (readIntentions r).1.map cString = intentionName l ∧
      (readIntentions r).2.error = 0 ∧ (readIntentions r).2.unread = rest
  java : ∀ (S : Type) (newString : List UInt8 → S) (empty : S),
    Consumes (Java.decodeIntentions newString empty) bytes
      ((intentionName l).elim empty newString)

/-- Whatever class of strings they are sent from, the intentions are read. -/
def IntentionsAgree (l : List Intention) : Prop :=
  ∀ (S : Type) [PyText S] (intentions : Intentions S), EncodesAs intentions l →
    IntentionsRead (encodeIntentions intentions) l

/-! ## The name -/

/-- No key is there twice, so that the last empty key is the first one. -/
theorem nameFrom_eq_intentionName {l : List Intention} (h : (l.map Intention.key).Nodup) :
    nameFrom none l = intentionName l := by
  have key : ∀ name : Option (List UInt8), nameFrom name l = (intentionName l).or name := by
    induction l with
    | nil => intro name; rfl
    | cons i l ih =>
        intro name
        rw [List.map_cons, List.nodup_cons] at h
        have hrest := ih h.2
        rw [nameFrom, List.foldl_cons]
        by_cases hi : i.key = []
        · -- the other keys are not empty
          have hnone : intentionName l = none := by
            rw [intentionName, Option.map_eq_none_iff, List.find?_eq_none]
            intro j hj hempty
            apply h.1
            rw [hi, ← of_decide_eq_true hempty]
            exact List.mem_map_of_mem hj
          have hthis : intentionName (i :: l) = some i.value := by
            simp [intentionName, hi]
          rw [if_pos hi, hthis]
          have := hrest (some i.value)
          rw [hnone] at this
          exact this
        · have hthis : intentionName (i :: l) = intentionName l := by
            simp [intentionName, hi]
          rw [if_neg hi, hthis]
          exact hrest name
  rw [key none, Option.or_none]

theorem nameOf_eq_nameFrom {S : Type} (newString : List UInt8 → S) (empty : S)
    (name : Option (List UInt8)) (l : List Intention) :
    Java.nameOf newString (name.elim empty newString) l =
      (nameFrom name l).elim empty newString := by
  induction l generalizing name with
  | nil => rfl
  | cons i l ih =>
      rw [Java.nameOf, List.foldl_cons, nameFrom, List.foldl_cons]
      by_cases hi : i.key = []
      · rw [if_pos (by rw [hi]; rfl), if_pos hi]
        exact ih (some i.value)
      · rw [if_neg (by rwa [List.length_eq_zero_iff]), if_neg hi]
        exact ih name

theorem cString_of_not_mem {s : List UInt8} (h : (0 : UInt8) ∉ s) : cString s = s := by
  rw [cString, List.takeWhile_eq_self_iff]
  intro b hb
  have : b ≠ 0 := fun h0 => h (h0 ▸ hb)
  simpa using this

/-- The name is a C string. -/
theorem intentionName_cString {l : List Intention} (h : NamedIntentions l) :
    (intentionName l).map cString = intentionName l := by
  unfold intentionName
  cases hi : l.find? fun i => i.key = [] with
  | none => rfl
  | some i =>
      have hkey : i.key = [] := by simpa using List.find?_some hi
      rw [Option.map_some, Option.map_some,
        cString_of_not_mem (h.name i (List.mem_of_find?_eq_some hi) hkey)]

/-! ## What is written -/

/-- A key and a value as they are written; only 32 bits of a length are. -/
def writtenIntention (i : Intention) : List UInt8 :=
  encodePacked32 i.key.length ++ i.key ++ (encodePacked32 i.value.length ++ i.value)

theorem encodeIntentions_eq {S : Type} [PyText S] {intentions : Intentions S}
    {l : List Intention} (h : EncodesAs intentions l) :
    encodeIntentions intentions = encodePacked32 l.length ++ l.flatMap writtenIntention := by
  have hlen : intentions.length = l.length := List.Forall₂.length_eq h
  rw [encodeIntentions, hlen]
  congr 1
  clear hlen
  induction h with
  | nil => rfl
  | @cons p i intentions l hp _ ih =>
      obtain ⟨k, v⟩ := p
      have hk : encodeString k = some (encodePacked32 i.key.length ++ i.key) := by
        rw [encodeString, hp.1]
        rfl
      have hv : encodeString v = some (encodePacked32 i.value.length ++ i.value) := by
        rw [encodeString, hp.2]
        rfl
      rw [encodeIntentionsFrom, hk, hv, ih]
      rfl

theorem writtenIntention_of_lt {i : Intention} (hk : i.key.length < 2 ^ 31)
    (hv : i.value.length < 2 ^ 31) : writtenIntention i = i.bytes := by
  have hmod : ∀ n < 2 ^ 31, n % 2 ^ 32 = n := fun n hn => Nat.mod_eq_of_lt (by omega)
  rw [writtenIntention, encodePacked32, encodePacked32, hmod _ hk, hmod _ hv]
  rfl

theorem flatMap_writtenIntention {l : List Intention}
    (h : ∀ i ∈ l, i.key.length < 2 ^ 31 ∧ i.value.length < 2 ^ 31) :
    l.flatMap writtenIntention = l.flatMap Intention.bytes :=
  List.flatMap_congr fun i hi => writtenIntention_of_lt (h i hi).1 (h i hi).2

/-! ## Short lists -/

theorem intentionsAgree_of_lt {l : List Intention} (hl : NamedIntentions l)
    (hfew : l.length < 128) (hfits : ∀ i ∈ l, Intention.Fits i) : IntentionsAgree l := by
  intro S _ intentions h
  have hlengths := fun i hi => And.intro (hfits i hi).1 (hfits i hi).2.1
  have hwritten : encodeIntentions intentions = intentionsBytes l := by
    rw [encodeIntentions_eq h, flatMap_writtenIntention hlengths, encodePacked32,
      Nat.mod_eq_of_lt (by omega)]
    rfl
  rw [hwritten]
  constructor
  · intro φ r rest hr hu
    obtain ⟨hname, herror, hrest⟩ :=
      (readIntentions_parses hfew hfits).reads r rest (not_not.mpr hr) hu
    refine ⟨?_, not_not.mp herror, hrest⟩
    rw [hname, nameFrom_eq_intentionName hl.keys, intentionName_cString hl]
  · intro S newString empty
    have hread := Java.decodeIntentions_consumes newString (by omega) hlengths empty
    have hname := nameOf_eq_nameFrom newString empty none l
    rw [nameFrom_eq_intentionName hl.keys] at hname
    rw [← hname]
    exact hread

/-! ## Long lists -/

/-- A key for each number. -/
def numberedKey (i : Nat) : List UInt8 := 1 :: (Nat.digits 2 i).map UInt8.ofNat

/-- A key of `k` zeros and `n` others. -/
def longIntentions (k n : Nat) : List Intention :=
  ⟨List.replicate k 0, []⟩ :: (List.range n).map fun i => ⟨numberedKey i, []⟩

theorem toNat_digits (n : Nat) :
    ((Nat.digits 2 n).map UInt8.ofNat).map UInt8.toNat = Nat.digits 2 n := by
  rw [List.map_map]
  conv_rhs => rw [← List.map_id (Nat.digits 2 n)]
  apply List.map_congr_left
  intro d hd
  have hlt := Nat.digits_lt_base (by norm_num) hd
  show (UInt8.ofNat d).toNat = d
  rw [UInt8.toNat_ofNat']
  omega

theorem numberedKey_injective : Function.Injective numberedKey := by
  intro i j h
  have hmap := congrArg (List.map UInt8.toNat) (List.cons.inj h).2
  rw [toNat_digits, toNat_digits] at hmap
  exact Nat.digits_inj_iff.mp hmap

theorem numberedKey_length {i : Nat} (h : i < 2 ^ 32) : (numberedKey i).length < 128 := by
  have hdigits := (Nat.digits_length_le_iff (by norm_num) i).mpr h
  simp only [numberedKey, List.length_cons, List.length_map]
  omega

theorem numberedKey_ascii (i : Nat) : ∀ b ∈ numberedKey i, b < 128 := by
  intro b hb
  rcases List.mem_cons.mp hb with rfl | hb
  · decide
  · obtain ⟨d, hd, rfl⟩ := List.mem_map.mp hb
    have hlt := Nat.digits_lt_base (by norm_num) hd
    rw [UInt8.lt_iff_toNat_lt, UInt8.toNat_ofNat']
    show d % 2 ^ 8 < 128
    omega

theorem longIntentions_length (k n : Nat) : (longIntentions k n).length = n + 1 := by
  simp [longIntentions]

theorem longIntentions_cases {k n : Nat} {i : Intention} (hi : i ∈ longIntentions k n) :
    i = ⟨List.replicate k 0, []⟩ ∨ ∃ j < n, i = ⟨numberedKey j, []⟩ := by
  rcases List.mem_cons.mp hi with rfl | hi
  · exact Or.inl rfl
  · obtain ⟨j, hj, rfl⟩ := List.mem_map.mp hi
    exact Or.inr ⟨j, List.mem_range.mp hj, rfl⟩

theorem longIntentions_key_ne_nil {k n : Nat} (hk : 0 < k) {i : Intention}
    (hi : i ∈ longIntentions k n) : i.key ≠ [] := by
  rcases longIntentions_cases hi with rfl | ⟨j, _, rfl⟩
  · rw [← List.length_pos_iff, List.length_replicate]
    exact hk
  · simp [numberedKey]

theorem longIntentions_named {k : Nat} (hk : 0 < k) (n : Nat) : NamedIntentions (longIntentions k n) := by
  constructor
  · rw [longIntentions, List.map_cons, List.map_map, List.nodup_cons]
    constructor
    · -- the other keys begin with a 1
      intro h
      obtain ⟨j, _, hj⟩ := List.mem_map.mp h
      have hone : (1 : UInt8) ∈ List.replicate k (0 : UInt8) := by
        have hkey : numberedKey j = List.replicate k 0 := hj
        rw [← hkey]
        exact List.mem_cons_self
      exact absurd (List.eq_of_mem_replicate hone) (by decide)
    · exact List.nodup_range.map numberedKey_injective
  · exact fun i hi hkey => absurd hkey (longIntentions_key_ne_nil hk hi)

theorem longIntentions_fits {k n : Nat} (hk : k < 2 ^ 31) (h : n < 2 ^ 32) :
    ∀ i ∈ longIntentions k n, Intention.Fits i := by
  intro i hi
  rcases longIntentions_cases hi with rfl | ⟨j, hj, rfl⟩
  · rw [Intention.Fits, List.length_replicate]
    exact ⟨hk, by norm_num, fun _ => by norm_num⟩
  · exact ⟨lt_trans (numberedKey_length (by omega)) (by norm_num), by norm_num,
      fun _ => by norm_num⟩

theorem longIntentions_intentionName {k : Nat} (hk : 0 < k) (n : Nat) :
    intentionName (longIntentions k n) = none := by
  rw [intentionName, Option.map_eq_none_iff, List.find?_eq_none]
  exact fun i hi hkey => longIntentions_key_ne_nil hk hi (of_decide_eq_true hkey)

/-- The keys and values as `str` objects. -/
def asStr (l : List Intention) : Intentions (List UInt8) := l.map fun i => (i.key, i.value)

theorem asStr_encodesAs {l : List Intention}
    (h : ∀ i ∈ l, (∀ b ∈ i.key, b < 128) ∧ ∀ b ∈ i.value, b < 128) : EncodesAs (asStr l) l := by
  have hencode : ∀ s : List UInt8, (∀ b ∈ s, b < 128) → PyText.encode s = some s := by
    intro s hs
    show (if s.all (· < 128) = true then some s else none) = some s
    rw [if_pos (by simpa using hs)]
  rw [EncodesAs, asStr, List.forall₂_map_left_iff, List.forall₂_same]
  exact fun i hi => ⟨hencode _ (h i hi).1, hencode _ (h i hi).2⟩

theorem longIntentions_encodesAs (k n : Nat) :
    EncodesAs (asStr (longIntentions k n)) (longIntentions k n) := by
  apply asStr_encodesAs
  intro i hi
  rcases longIntentions_cases hi with rfl | ⟨j, _, rfl⟩
  · refine ⟨fun b hb => ?_, by simp⟩
    rw [List.eq_of_mem_replicate hb]
    decide
  · exact ⟨numberedKey_ascii j, by simp⟩

/-! ## What C reads of a long list -/

/-- A key and a value that are skipped; as much is skipped as an `int` says. -/
theorem readIntentionsFrom_skip {n k v : Nat} {name : Option (List UInt8)} {r : Reader φ}
    {klen key vlen value rest : List UInt8} (hr : r.error = 0)
    (hu : r.unread = klen ++ key ++ vlen ++ value ++ rest)
    (hklen : Parses (readPacked32 (φ := φ)) klen k) (hne : wrap32 k ≠ 0)
    (hkey : (wrap32 k).toNat = key.length) (hvlen : Parses (readPacked32 (φ := φ)) vlen v)
    (hvalue : (wrap32 v).toNat = value.length) :
    ∃ r' : Reader φ, r'.error = 0 ∧ r'.unread = rest ∧
      readIntentionsFrom (n + 1) name r = readIntentionsFrom n name r' := by
  simp only [List.append_assoc] at hu
  obtain ⟨hm, hr1, hu1⟩ := hklen.reads r _ (not_not.mpr hr) hu
  obtain ⟨_, hr2, hu2⟩ := (skipBytes_parses (φ := φ) 1 key).reads _ _ hr1 hu1
  obtain ⟨hv, hr3, hu3⟩ := hvlen.reads _ _ hr2 hu2
  obtain ⟨_, hr4, hu4⟩ := (skipBytes_parses (φ := φ) 1 value).reads _ _ hr3 hu3
  refine ⟨_, not_not.mp hr4, hu4, ?_⟩
  rw [readIntentionsFrom, stateM_bind]
  dsimp only
  have hkeyskip : readerSkip (φ := φ) (wrap32 k) 1 = skipBytes 1 key.length := by
    rw [readerSkip, hkey]
  have hvalueskip : readerSkip (φ := φ) (wrap32 v) 1 = skipBytes 1 value.length := by
    rw [readerSkip, hvalue]
  rw [hm, if_neg hne, stateM_bind, stateM_bind, hkeyskip, hv, stateM_bind, hvalueskip]

/-- The bytes to come are below 128, so that each is a number of its own. -/
def LowBytes (r : Reader φ) : Prop := ∀ b ∈ r.unread, b < 128

section LowBytes

variable {r : Reader φ}

theorem nextByte_low {bad : Int → Bool} (hbad : Detects φ bad) (h : LowBytes r) :
    LowBytes (nextByte bad r).2 ∧ ∀ b, (nextByte bad r).1 = some b → b < 128 := by
  rcases nextByte_takes hbad r with ⟨hnone, hrest⟩ | ⟨b, hsome, hrest⟩
  · refine ⟨fun b hb => h b (hrest ▸ hb), fun b hb => ?_⟩
    rw [hnone] at hb
    cases hb
  · refine ⟨fun b' hb => h b' (hrest ▸ List.mem_cons_of_mem b hb), fun b' hb => ?_⟩
    rw [hsome, Option.some.injEq] at hb
    exact hb ▸ h b (hrest ▸ List.mem_cons_self)

theorem readPacked32_low (h : LowBytes r) :
    (readPacked32 r).1 < 128 ∧ LowBytes (readPacked32 r).2 := by
  obtain ⟨hrest, hlow⟩ := nextByte_low detects_ne h
  rw [readPacked32, readPacked32From_succ]
  generalize nextByte (· ≠ 0) r = next at hrest hlow
  obtain ⟨b, r'⟩ := next
  cases b with
  | none => exact ⟨by norm_num, hrest⟩
  | some b =>
      have hb : b.toNat < 128 := hlow b rfl
      dsimp only
      rw [if_pos (hlow b rfl)]
      exact ⟨by omega, hrest⟩

theorem readChars_low (n : Nat) (s : List UInt8) (h : LowBytes r) :
    LowBytes (readChars n s r).2 := by
  induction n generalizing s r with
  | zero => exact h
  | succ n ih =>
      have hrest := (nextByte_low detects_neg h).1
      rw [readChars, stateM_bind]
      cases (nextByte (· < 0) r).1 with
      | none => exact hrest
      | some b => exact ih _ hrest

theorem readString_low (h : LowBytes r) :
    (readString r).1.isSome ∧ LowBytes (readString r).2 := by
  obtain ⟨hlt, hrest⟩ := readPacked32_low h
  have hlength : wrap32 ((readPacked32 r).1 : Int) = (readPacked32 r).1 :=
    wrap32_natCast (by omega)
  have hsize : 0 ≤ wrap32 (wrap32 ((readPacked32 r).1 : Int) + 1) := by
    rw [hlength, wrap32_of_lt (by omega) (by omega)]
    omega
  obtain ⟨chars, hrun, hchars⟩ : ∃ chars : List UInt8 × Reader φ,
      readString r = (some chars.1, chars.2) ∧ LowBytes chars.2 :=
    ⟨_, (readString_some hsize).trans (stateM_map _ _ _), readChars_low _ _ hrest⟩
  rw [hrun]
  exact ⟨rfl, hchars⟩

theorem skipBytes_low (tag : Int) (n : Nat) (h : LowBytes r) : LowBytes (skipBytes tag n r).2 := by
  induction n generalizing r with
  | zero => exact h
  | succ n ih =>
      have hbyte : LowBytes (readByte r).2 := by
        have hrest := (nextByte_low detects_neg h).1
        rw [readByte, readScalar, readScalarFrom, stateM_bind]
        cases (nextByte (· < 0) r).1 with
        | none => exact hrest
        | some b => exact hrest
      rw [skipBytes, stateM_bind]
      by_cases h0 : (readByte r).2.error = 0
      · rw [checked_ok h0]
        exact ih hbyte
      · rw [checked_failed h0]
        exact hbyte

/-- A name is never lost again. -/
theorem readIntentionsFrom_low (n : Nat) {name : Option (List UInt8)} (hname : name.isSome)
    (h : LowBytes r) : (readIntentionsFrom n name r).1.isSome := by
  induction n generalizing name r with
  | zero => exact hname
  | succ n ih =>
      have hklen := (readPacked32_low h).2
      rw [readIntentionsFrom, stateM_bind]
      dsimp only
      split
      · obtain ⟨hsome, hrest⟩ := readString_low hklen
        rw [stateM_bind]
        exact ih hsome hrest
      · have hkey := skipBytes_low 1 (wrap32 (readPacked32 r).1).toNat hklen
        rw [stateM_bind, stateM_bind, stateM_bind]
        exact ih hname (skipBytes_low 1 _ (readPacked32_low hkey).2)

/-- A name that is read is there at the end. -/
theorem readIntentionsFrom_named {n : Nat} {name : Option (List UInt8)}
    (hklen : wrap32 (readPacked32 r).1 = 0) (hname : (readString (readPacked32 r).2).1.isSome)
    (hrest : LowBytes (readString (readPacked32 r).2).2) :
    (readIntentionsFrom (n + 1) name r).1.isSome := by
  rw [readIntentionsFrom_name hklen]
  exact readIntentionsFrom_low n hname hrest

end LowBytes

/-- A number of zeros, most of them with the bit that says that more is to come. -/
theorem readPacked32_zeros (j : Nat) :
    Parses (readPacked32 (φ := φ)) (List.replicate j 128 ++ [0]) 0 := by
  have hvalue : ∀ acc, acc = 0 → varintValue acc (List.replicate j 128 ++ [0]) = 0 := by
    induction j with
    | zero => rintro acc rfl; rfl
    | succ j ih =>
        intro acc hacc
        rw [List.replicate_succ, List.cons_append, varintValue_cons]
        apply ih
        rw [hacc]
        rfl
  have hinit : ∀ b ∈ List.replicate j (128 : UInt8), 128 ≤ b.toNat := by
    intro b hb
    rw [List.eq_of_mem_replicate hb]
    decide
  have h := readPacked32_spelled (φ := φ) hinit (show (0 : UInt8).toNat < 128 by decide)
  rwa [hvalue 0 rfl] at h

/-- What is left of the long key and its length: some more zeros. -/
theorem drop_longKey {k m : Nat} (hm : 0 < m) (hk : m + 2 ≤ k) :
    ∃ j i, ([132, 128, 128, 128, 0] ++ List.replicate k 0 : List UInt8).drop m =
      List.replicate j 128 ++ [0] ++ ([0] ++ List.replicate i 0) := by
  have hzeros : ∀ i, 2 ≤ i → ∃ i', List.replicate i (0 : UInt8) =
      List.replicate 0 128 ++ [0] ++ ([0] ++ List.replicate i' 0) := by
    intro i hi
    obtain ⟨i', rfl⟩ := Nat.exists_eq_add_of_le' hi
    exact ⟨i', rfl⟩
  by_cases hfew : m < 5
  · obtain ⟨k', rfl⟩ := Nat.exists_eq_add_of_le' (show 1 ≤ k by omega)
    refine ⟨4 - m, k', ?_⟩
    interval_cases m <;> rfl
  · obtain ⟨i, hi⟩ := hzeros (k - (m - 5)) (by omega)
    refine ⟨0, i, ?_⟩
    rw [List.drop_append, ← hi]
    simp only [List.length_cons, List.length_nil, List.drop_replicate]
    rw [List.drop_eq_nil_of_le (by simp; omega), List.nil_append]

/-- The number of intentions takes more than one byte: what is left of it is read as the length
of a key. If it is 0, the long key is read as a name; otherwise so is one of its zeros. -/
theorem readIntentionsFrom_long {n k : Nat} {init : List UInt8} {last : UInt8} {r : Reader φ}
    {tail : List UInt8} (hr : r.error = 0) (hk : k = 2 ^ 30) (htail : ∀ b ∈ tail, b < 128)
    (hinit : ∀ b ∈ init, 128 ≤ b.toNat) (hlast : last.toNat < 128) (hlen : init.length ≤ 3)
    (hu : r.unread = init ++ [last] ++ ([132, 128, 128, 128, 0] ++ List.replicate k 0) ++ tail) :
    (readIntentionsFrom (n + 2) none r).1.isSome := by
  have hklen := readPacked32_spelled (φ := φ) hinit hlast
  -- three bytes of seven bits each and the last one
  have hlt : varintValue 0 (init ++ [last]) < 2 ^ 28 := by
    have hval := varintValue_lt 0 (init ++ [last])
    have hpow : 128 ^ (init ++ [last]).length ≤ 128 ^ 4 :=
      Nat.pow_le_pow_right (by norm_num) (by simp; omega)
    norm_num at hval hpow ⊢
    omega
  rw [Nat.mod_eq_of_lt (lt_trans hlt (by norm_num))] at hklen
  generalize hm : varintValue 0 (init ++ [last]) = m at hklen hlt
  by_cases h0 : m = 0
  · -- the long key is the name
    have hsize : packed32 (2 ^ 30) = [132, 128, 128, 128, 0] := by decide
    have hlong := readString_parses (φ := φ) (s := List.replicate k 0)
      (by rw [List.length_replicate]; omega)
    rw [List.length_replicate, hk, hsize, ← hk] at hlong
    rw [List.append_assoc] at hu
    obtain ⟨hm', hr1, hu1⟩ := hklen.reads r _ (not_not.mpr hr) hu
    obtain ⟨hname, _, hu2⟩ := hlong.reads _ _ hr1 hu1
    refine readIntentionsFrom_named (by rw [hm', h0]; rfl) (by rw [hname]; rfl) fun b hb => ?_
    exact htail b (hu2 ▸ hb)
  · -- what is left after `m` bytes starts with the end of a number or with zeros
    obtain ⟨j, i, hdrop⟩ := drop_longKey (k := k) (Nat.pos_of_ne_zero h0) (by omega)
    have hsplit :=
      List.take_append_drop m ([132, 128, 128, 128, 0] ++ List.replicate k 0 : List UInt8)
    rw [hdrop] at hsplit
    have htake : (([132, 128, 128, 128, 0] ++ List.replicate k 0 : List UInt8).take m).length
        = m := by
      rw [List.length_take, List.length_append, List.length_replicate]
      omega
    generalize ([132, 128, 128, 128, 0] ++ List.replicate k 0 : List UInt8).take m = key
      at hsplit htake
    rw [← hsplit] at hu
    rw [← htake] at hklen h0 hlt
    have hkeylen : wrap32 (key.length : Int) = key.length := wrap32_natCast (by omega)
    have hskip : r.unread = init ++ [last] ++ key ++ (List.replicate j 128 ++ [0]) ++ [] ++
        ([0] ++ List.replicate i 0 ++ tail) := by
      rw [hu]
      simp only [List.append_assoc, List.nil_append]
    obtain ⟨r', hr', hu', hrun⟩ := readIntentionsFrom_skip (n := n + 1) hr hskip hklen
      (by rw [hkeylen]; omega) (by rw [hkeylen, Int.toNat_natCast]) (readPacked32_zeros j) rfl
    -- all bytes to come are small, so that each is a number of its own
    have hlow : LowBytes r' := by
      intro b hb
      rw [hu'] at hb
      rcases List.mem_append.mp hb with hb | hb
      · rcases List.mem_append.mp hb with hb | hb
        · rw [List.mem_singleton.mp hb]
          decide
        · rw [List.eq_of_mem_replicate hb]
          decide
      · exact htail b hb
    have hzero := readPacked32_zeros (φ := φ) 0
    rw [List.append_assoc] at hu'
    obtain ⟨hname, hrest⟩ := readString_low (readPacked32_low hlow).2
    -- the zero is the length of an empty key: what follows is a name
    rw [hrun]
    refine readIntentionsFrom_named ?_ hname hrest
    rw [(hzero.reads r' _ (not_not.mpr hr') hu').1]
    rfl

/-! ## Exactness -/

/-- What comes after the first byte of a number of at least 128. -/
theorem packed32_split {c : Nat} (hc : 128 ≤ c) (hlt : c < 2 ^ 32) :
    ∃ (b : UInt8) (init : List UInt8) (last : UInt8), packed32 c = b :: (init ++ [last]) ∧
      128 ≤ b.toNat ∧ (∀ x ∈ init, 128 ≤ x.toNat) ∧ last.toNat < 128 ∧ init.length ≤ 3 := by
  obtain ⟨init, last, hshape, hinit, hlast⟩ := varint_shape 4 c
  have hlen := varint_length_le 5 c
  rw [hshape] at hlen
  cases init with
  | nil =>
      -- a single byte is below 128
      have hval : varintValue 0 (varint 5 c) = c :=
        varintValue_varint (lt_trans hlt (by norm_num))
      rw [hshape] at hval
      simp only [List.nil_append, varintValue_cons, varintValue_nil] at hval
      omega
  | cons b init =>
      refine ⟨b, init, last, ?_, hinit b List.mem_cons_self,
        fun x hx => hinit x (List.mem_cons_of_mem _ hx), hlast, ?_⟩
      · rw [packed32, hshape]
        rfl
      · simp only [List.cons_append, List.length_cons, List.length_append,
          List.length_nil] at hlen
        omega

theorem counted_nil_low : ∀ b ∈ counted [], b < 128 := by
  intro b hb
  rw [show counted [] = [0] from by decide, List.mem_singleton] at hb
  rw [hb]
  decide

/-- The numbered keys are short, and so are their bytes. -/
theorem numberedKeys_low {n : Nat} (h : n < 2 ^ 32) :
    ∀ b ∈ ((List.range n).map fun i => (⟨numberedKey i, []⟩ : Intention)).flatMap
      Intention.bytes, b < 128 := by
  intro b hb
  obtain ⟨i, hi, hb⟩ := List.mem_flatMap.mp hb
  obtain ⟨j, hj, rfl⟩ := List.mem_map.mp hi
  have hlen := numberedKey_length (lt_trans (List.mem_range.mp hj) h)
  rcases List.mem_append.mp hb with hb | hb
  · rw [counted, packed32_of_lt hlen] at hb
    rcases List.mem_append.mp hb with hb | hb
    · rw [List.mem_singleton.mp hb, UInt8.lt_iff_toNat_lt, UInt8.toNat_ofNat']
      exact lt_of_le_of_lt (Nat.mod_le _ _) hlen
    · exact numberedKey_ascii j b hb
  · exact counted_nil_low b hb

/-- C gives a long list a name. -/
theorem readIntentions_long {n : Nat} (hn : 128 ≤ n + 1) (hlt : n + 1 < 2 ^ 32) {r : Reader φ}
    (hr : r.error = 0) (hu : r.unread = encodeIntentions (asStr (longIntentions (2 ^ 30) n))) :
    (readIntentions r).1.isSome := by
  have hfits := longIntentions_fits (k := 2 ^ 30) (n := n) (by norm_num) (by omega)
  have hlengths := fun i hi => And.intro (hfits i hi).1 (hfits i hi).2.1
  obtain ⟨b, init, last, hcount, hb, hinit, hlast, hlen⟩ := packed32_split hn hlt
  have hkey : Intention.bytes ⟨List.replicate (2 ^ 30) 0, []⟩ =
      [132, 128, 128, 128, 0] ++ List.replicate (2 ^ 30) 0 ++ counted [] := by
    have hsize : packed32 (2 ^ 30) = [132, 128, 128, 128, 0] := by decide
    rw [Intention.bytes, counted, List.length_replicate, hsize]
  rw [encodeIntentions_eq (longIntentions_encodesAs _ n), flatMap_writtenIntention hlengths,
    longIntentions_length, encodePacked32, Nat.mod_eq_of_lt hlt, hcount, longIntentions,
    List.flatMap_cons, hkey] at hu
  have htail := numberedKeys_low (n := n) (by omega)
  generalize ((List.range n).map fun i => (⟨numberedKey i, []⟩ : Intention)).flatMap
    Intention.bytes = others at hu htail
  obtain ⟨hbyte, hr', hu'⟩ := (readByte_parses (φ := φ) b).reads r
    (init ++ [last] ++ ([132, 128, 128, 128, 0] ++ List.replicate (2 ^ 30) 0) ++
      (counted [] ++ others)) (not_not.mpr hr)
    (by rw [show Source.unread r = r.unread from rfl, hu]; simp only [List.append_assoc,
      List.cons_append, List.nil_append])
  obtain ⟨m, hm⟩ := Nat.exists_eq_add_of_le' (show 2 ≤ b.toNat by omega)
  rw [readIntentions, stateM_bind, hbyte, hm]
  refine readIntentionsFrom_long (not_not.mp hr') rfl (fun x hx => ?_) hinit hlast hlen hu'
  rcases List.mem_append.mp hx with hx | hx
  · exact counted_nil_low x hx
  · exact htail x hx

/-- From 128 intentions on there are some that C does not read. -/
theorem not_intentionsAgree_long {n : Nat} (hn : 128 ≤ n + 1) (hlt : n + 1 < 2 ^ 32) :
    ¬ IntentionsAgree (longIntentions (2 ^ 30) n) := by
  intro h
  let φ : Host := .of (-1) (by decide)
  have hread := (h _ _ (longIntentions_encodesAs (2 ^ 30) n)).c φ (Reader.ofBytes φ _) [] rfl
    (by rw [Reader.ofBytes_unread, List.append_nil])
  have hsome := readIntentions_long hn hlt (r := Reader.ofBytes φ _) rfl
    (Reader.ofBytes_unread _ _)
  rw [longIntentions_intentionName (by norm_num), Option.map_eq_none_iff] at hread
  rw [hread.1] at hsome
  exact absurd hsome (by simp)

/-! ## Long strings -/

/-- An `int` counts less than there is, from `2 ^ 31` on. -/
theorem toNat_wrap32_lt {k : Nat} (hk : 2 ^ 31 ≤ k) :
    (wrap32 ((k % 2 ^ 32 : Nat) : Int)).toNat < k := by
  have hmod := Nat.mod_lt k (show 0 < 2 ^ 32 by norm_num)
  by_cases hlow : k % 2 ^ 32 < 2 ^ 31
  · rw [wrap32_natCast hlow]
    omega
  · rw [wrap32_natCast_of_ge (by omega) hmod]
    omega

/-- C does not read a key that an `int` cannot count. -/
theorem not_intentionsAgree_key {k : Nat} (hk : 2 ^ 31 ≤ k) :
    ¬ IntentionsAgree [⟨List.replicate k 0, []⟩] := by
  intro h
  let φ : Host := .of (-1) (by decide)
  have hencodes : EncodesAs (asStr [⟨List.replicate k 0, []⟩]) [⟨List.replicate k 0, []⟩] := by
    apply asStr_encodesAs
    intro i hi
    rw [List.mem_singleton.mp hi]
    refine ⟨fun b hb => ?_, by simp⟩
    rw [List.eq_of_mem_replicate hb]
    decide
  have hwritten := encodeIntentions_eq hencodes
  have hread := (h _ _ hencodes).c φ (Reader.ofBytes φ _) [] rfl
    (by rw [Reader.ofBytes_unread, List.append_nil])
  generalize hr : Reader.ofBytes φ (encodeIntentions (asStr [⟨List.replicate k 0, []⟩])) = r
    at hread
  have hone : encodePacked32 1 = [1] := by decide
  have hzero : encodePacked32 0 = [0] := by decide
  have hu : r.unread = [1] ++ (packed32 (k % 2 ^ 32) ++ (List.replicate k 0 ++ [0])) := by
    rw [← hr, Reader.ofBytes_unread, hwritten, List.flatMap_singleton, writtenIntention,
      List.length_replicate, List.append_assoc, List.length_singleton, hone, List.length_nil,
      hzero]
    rfl
  have hr0 : r.error = 0 := by rw [← hr]; rfl
  -- there is no name to be found
  have hname : intentionName [⟨List.replicate k 0, []⟩] = none := by
    rw [intentionName, Option.map_eq_none_iff, List.find?_eq_none]
    intro i hi hempty
    rw [List.mem_singleton.mp hi, decide_eq_true_eq, List.replicate_eq_nil_iff] at hempty
    omega
  obtain ⟨hbyte, hr1, hu1⟩ := (readByte_parses (φ := φ) 1).reads r _ (not_not.mpr hr0) hu
  have hrun : readIntentions r = readIntentionsFrom (0 + 1) none (readByte r).2 := by
    rw [readIntentions, stateM_bind, hbyte]
    rfl
  rw [hrun, hname] at hread
  have hmod := Nat.mod_lt k (show 0 < 2 ^ 32 by norm_num)
  have hklen := readPacked32_parses (φ := φ) hmod
  -- as an `int` the length is zero, or negative or smaller than the key
  by_cases hname0 : wrap32 ((k % 2 ^ 32 : Nat) : Int) = 0
  · -- the key is read as a name
    have hklen0 : wrap32 (readPacked32 (readByte r).2).1 = 0 := by
      rw [(hklen.reads _ _ hr1 hu1).1]
      exact hname0
    have hlow : LowBytes (readPacked32 (readByte r).2).2 := by
      intro b hb
      rw [show (readPacked32 (readByte r).2).2.unread = _ from (hklen.reads _ _ hr1 hu1).2.2] at hb
      rcases List.mem_append.mp hb with hb | hb
      · rw [List.eq_of_mem_replicate hb]
        decide
      · rw [List.mem_singleton.mp hb]
        decide
    obtain ⟨hnamed, hrest⟩ := readString_low hlow
    have hsome : (readIntentionsFrom (0 + 1) none (readByte r).2).1.isSome :=
      readIntentionsFrom_named hklen0 hnamed hrest
    rw [Option.map_eq_none_iff] at hread
    rw [hread.1] at hsome
    exact absurd hsome (by simp)
  · -- a part of the key is left
    obtain ⟨i, hi⟩ := Nat.exists_eq_add_of_lt (toNat_wrap32_lt hk)
    have hkey : List.replicate k (0 : UInt8) =
        List.replicate (wrap32 ((k % 2 ^ 32 : Nat) : Int)).toNat 0 ++ [0] ++
          List.replicate i 0 := by
      conv_lhs => rw [hi]
      rw [List.append_assoc, Nat.add_assoc, List.replicate_add, Nat.add_comm i,
        List.replicate_add]
      rfl
    have hskip : (readByte r).2.unread = packed32 (k % 2 ^ 32) ++
        List.replicate (wrap32 ((k % 2 ^ 32 : Nat) : Int)).toNat 0 ++
          (List.replicate 0 128 ++ [0]) ++ [] ++ (List.replicate i 0 ++ [0]) := by
      rw [hkey] at hu1
      rw [show (readByte r).2.unread = _ from hu1]
      simp only [List.append_assoc, List.nil_append, List.replicate_zero]
    obtain ⟨r', _, hu', hrest⟩ := readIntentionsFrom_skip (n := 0) (not_not.mp hr1) hskip hklen
      hname0 List.length_replicate.symm (readPacked32_zeros 0) rfl
    rw [hrest] at hread
    -- the zeros that are left are not read
    have hend : r'.unread = [] := hread.2.2
    rw [hu'] at hend
    exact absurd hend (by simp)

/-- There is no memory for a name of `2 ^ 31 - 1` bytes and the NUL after it. -/
theorem not_intentionsAgree_name {k : Nat} (hk : k + 1 = 2 ^ 31) :
    ¬ IntentionsAgree [⟨[], List.replicate k 1⟩] := by
  intro h
  let φ : Host := .of (-1) (by decide)
  have hencodes : EncodesAs (asStr [⟨[], List.replicate k 1⟩]) [⟨[], List.replicate k 1⟩] := by
    apply asStr_encodesAs
    intro i hi
    rw [List.mem_singleton.mp hi]
    refine ⟨by simp, fun b hb => ?_⟩
    rw [List.eq_of_mem_replicate hb]
    decide
  have hwritten := encodeIntentions_eq hencodes
  have hread := (h _ _ hencodes).c φ (Reader.ofBytes φ _) [] rfl
    (by rw [Reader.ofBytes_unread, List.append_nil])
  generalize hr : Reader.ofBytes φ (encodeIntentions (asStr [⟨[], List.replicate k 1⟩])) = r
    at hread
  have hone : encodePacked32 1 = [1] := by decide
  have hzero : encodePacked32 0 = [0] := by decide
  have hu : r.unread = [1] ++ ([0] ++ (packed32 k ++ List.replicate k 1)) := by
    rw [← hr, Reader.ofBytes_unread, hwritten, List.flatMap_singleton, writtenIntention,
      List.length_replicate, List.length_singleton, hone, List.length_nil, hzero, encodePacked32,
      Nat.mod_eq_of_lt (by omega)]
    rfl
  have hr0 : r.error = 0 := by rw [← hr]; rfl
  obtain ⟨hbyte, hr1, hu1⟩ := (readByte_parses (φ := φ) 1).reads r _ (not_not.mpr hr0) hu
  obtain ⟨hklen, hr2, hu2⟩ := (readPacked32_zeros (φ := φ) 0).reads _ _ hr1 hu1
  have hlength := ((readPacked32_parses (φ := φ) (show k < 2 ^ 32 by omega)).reads _ _ hr2 hu2).1
  -- the size with the NUL is negative
  have hnone : wrap32 (wrap32 (readPacked32 (readPacked32 (readByte r).2).2).1 + 1) < 0 := by
    rw [hlength, wrap32_natCast (by omega), ← Nat.cast_succ, Nat.succ_eq_add_one, hk]
    decide
  have hrun : readIntentions r = readIntentionsFrom (0 + 1) none (readByte r).2 := by
    rw [readIntentions, stateM_bind, hbyte]
    rfl
  have hname : intentionName [⟨[], List.replicate k 1⟩] = some (List.replicate k 1) := rfl
  rw [hrun, readIntentionsFrom_name (by rw [hklen]; rfl), readString_none hnone, hname] at hread
  have hlost : Option.map cString none = some (List.replicate k 1) := hread.1
  cases hlost

/-! ## Exactness -/

/-- **Exactness.** Fewer than 128 intentions with strings that an `int` can count are read as
they were sent. Of every other number of intentions, of every other length of a name and of every
other length of the strings of an intention that is not the name, some are not. -/
theorem intentions_exact (l : List Intention) {n : Nat} (hlt : n < 2 ^ 32) (k : Nat) :
    (NamedIntentions l → l.length < 128 → (∀ i ∈ l, Intention.Fits i) → IntentionsAgree l) ∧
    ((∀ l, NamedIntentions l → (∀ i ∈ l, Intention.Fits i) → l.length = n →
      IntentionsAgree l) ↔ n < 128) ∧
    ((∀ name : List UInt8, (0 : UInt8) ∉ name → name.length ≤ k →
      IntentionsAgree [⟨[], name⟩]) ↔ k + 1 < 2 ^ 31) ∧
    ((∀ i, i.key ≠ [] → i.key.length ≤ k → i.value.length ≤ k →
      IntentionsAgree [i]) ↔ k < 2 ^ 31) := by
  refine ⟨fun hl hfew hfits => intentionsAgree_of_lt hl hfew hfits, ?_, ?_, ?_⟩
  · -- each "only if" is one list that is misread, each "if" is the first part
    constructor
    · intro h
      by_contra hn
      obtain ⟨n, rfl⟩ := Nat.exists_eq_add_of_le' (show 1 ≤ n by omega)
      apply not_intentionsAgree_long (n := n) (by omega) hlt
      exact h _ (longIntentions_named (by norm_num) n)
        (longIntentions_fits (by norm_num) (by omega)) (longIntentions_length _ n)
    · intro hn l hl hfits hlen
      exact intentionsAgree_of_lt hl (by omega) hfits
  · constructor
    · intro h
      by_contra hk
      refine not_intentionsAgree_name (k := 2 ^ 31 - 1) rfl (h _ (fun hmem => ?_) ?_)
      · exact absurd (List.eq_of_mem_replicate hmem) (by decide)
      · rw [List.length_replicate]
        omega
    · intro hk name hname hlen
      refine intentionsAgree_of_lt ⟨by simp, fun i hi _ => ?_⟩ (by simp) fun i hi => ?_
      · rwa [List.mem_singleton.mp hi]
      · rw [List.mem_singleton.mp hi]
        exact ⟨by norm_num, lt_of_le_of_lt hlen (by omega),
          fun _ => lt_of_le_of_lt (Nat.succ_le_succ hlen) hk⟩
  · constructor
    · intro h
      by_contra hk
      refine not_intentionsAgree_key (k := k) (by omega) (h _ ?_ ?_ (Nat.zero_le k))
      · rw [ne_eq, List.replicate_eq_nil_iff]
        omega
      · rw [List.length_replicate]
    · intro hk i hne hkey hvalue
      refine intentionsAgree_of_lt ⟨by simp, fun j hj hempty => ?_⟩ (by simp) fun j hj => ?_
      · rw [List.mem_singleton.mp hj] at hempty
        exact absurd hempty hne
      · rw [List.mem_singleton.mp hj]
        exact ⟨by omega, by omega, fun hempty => absurd hempty hne⟩

/-- A name and another intention. -/
theorem intentions_exact_named : IntentionsAgree [⟨[], [97, 98]⟩, ⟨[107], [0, 1]⟩] := by
  refine (intentions_exact _ (show 2 < 2 ^ 32 by decide) 2).1 ⟨by decide, ?_⟩ (by decide) ?_
  · intro i hi hkey
    simp only [List.mem_cons, List.not_mem_nil, or_false] at hi
    rcases hi with rfl | rfl
    · decide
    · exact absurd hkey (by decide)
  · intro i hi
    simp only [List.mem_cons, List.not_mem_nil, or_false] at hi
    rcases hi with rfl | rfl <;> exact ⟨by decide, by decide, by decide⟩

/-- Every list of intentions is read as it was sent. -/
def IntentionsExact : Prop := ∀ l, NamedIntentions l → IntentionsAgree l

/-- 128 intentions without a name are given one. -/
theorem not_intentionsExact : ¬ IntentionsExact :=
  fun h => not_intentionsAgree_long (n := 127) (by norm_num) (by norm_num)
    (h _ (longIntentions_named (by norm_num) 127))

end LabComm.C
