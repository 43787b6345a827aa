import LabComm.Compiler.Expansion
import LabComm.C.Intentions
import LabComm.Java.Packed32
import LabComm.Python.Intentions

set_option autoImplicit false

/-! # The arrays of intention bytes

`Intention.toByteArray` and `TypeInstance.getIntentionBytes` of `Signature.jrag`, with the arrays
that they fill and the `int`s that their sizes are. The size of an array has the size of the *size*
of a length in it, instead of that of the length: it has room for one byte of each.

The bytes are those of the intentions if and only if no key and no value has more than 127, and
all of them can be counted by an `int` (`bytesExact_iff`).
-/

namespace LabComm.Compiler.Arrays

open Library Java Python

/-! ## Arrays -/

/-- What is thrown. -/
inductive ArrayException where
  | packed (e : PackedException)
  | negativeArraySize
  deriving DecidableEq

/-- A step of `Utilities`, or a loop that stores bytes. -/
def packed {α : Type} (m : Except PackedException α) : Except ArrayException α :=
  m.mapError .packed

/-- `new byte[size]` -/
def newBytes (size : Int) : Except ArrayException (List UInt8) :=
  if size < 0 then throw .negativeArraySize else pure (List.replicate size.toNat 0)

/-- The length of an array, or of a list, as an argument of type `long`. -/
def lengthLong (n : Nat) : BitVec 64 := toLong (.ofNat 32 n)

/-- `Intention.toByteArray` -/
def toByteArray (i : Intention) : Except ArrayException (List UInt8) := do
  let klen := Utilities.sizePacked32 (lengthLong i.key.length)
  let vlen := Utilities.sizePacked32 (lengthLong i.value.length)
  let tlen := wrap32 (i.key.length + i.value.length + Utilities.sizePacked32 (lengthLong klen) +
    Utilities.sizePacked32 (lengthLong vlen))
  let result ← newBytes tlen
  let p ← packed (Utilities.encodePacked32 (lengthLong i.key.length) result 0 klen)
  let p ← packed (Utilities.storeAll p.1 p.2 i.key)
  let p ← packed (Utilities.encodePacked32 (lengthLong i.value.length) p.1 p.2 vlen)
  let p ← packed (Utilities.storeAll p.1 p.2 i.value)
  pure p.1

/-- The variables of the first loop of `getIntentionBytes`. -/
structure Gathered where
  tmp : List (List UInt8)
  tmpLen : Int
  numIntentions : BitVec 32

/-- The first loop of `getIntentionBytes`. -/
def gather : List Intention → Gathered → Except ArrayException Gathered
  | [], g => pure g
  | i :: is, g => do
      let bs ← toByteArray i
      gather is ⟨g.tmp ++ [bs], wrap32 (g.tmpLen + bs.length), g.numIntentions + 1⟩

/-- `getIntentionBytes`, of what an iterator returns -/
def getIntentionBytes (intentions : List Intention) : Except ArrayException (List UInt8) := do
  let g ← gather intentions ⟨[], 0, 0⟩
  let size := Utilities.sizePacked32 (toLong g.numIntentions)
  let result ← newBytes (wrap32 (g.tmpLen + size))
  let p ← packed (Utilities.encodePacked32 (toLong g.numIntentions) result 0 size)
  let p ← packed (Utilities.storeAll p.1 p.2 g.tmp.flatten)
  pure p.1

/-! ## Storing -/

section Store

variable {α β : Type} {buf : List UInt8} {pos : Nat}

theorem packed_bind (m : Except PackedException α) (f : α → Except PackedException β) :
    packed (m >>= f) = packed m >>= fun a => packed (f a) := by
  cases m <;> rfl

/-- Bytes are stored behind those that were stored before. -/
theorem storeAll_append (a b : List UInt8) : Utilities.storeAll buf pos (a ++ b) =
    Utilities.storeAll buf pos a >>= fun p => Utilities.storeAll p.1 p.2 b := by
  induction a generalizing buf pos with
  | nil => rfl
  | cons x a ih =>
      rw [List.cons_append, Utilities.storeAll, Utilities.storeAll]
      split
      · exact ih
      · rfl

theorem storeAll_fits (bs : List UInt8) (h : pos + bs.length ≤ buf.length) :
    Utilities.storeAll buf pos bs =
      .ok (buf.take pos ++ bs ++ buf.drop (pos + bs.length), pos + bs.length) := by
  have hold : ((buf.drop pos).take bs.length).length = bs.length := by
    rw [List.length_take, List.length_drop]
    omega
  have hpos : (buf.take pos).length = pos := by
    rw [List.length_take]
    omega
  have hstore := storeAll_eq (buf.take pos) _ (buf.drop (pos + bs.length)) bs hold.symm
  have hbuf : buf.take pos ++ (buf.drop pos).take bs.length ++ buf.drop (pos + bs.length) = buf := by
    rw [List.append_assoc, ← List.drop_drop, List.take_append_drop, List.take_append_drop]
  rwa [hbuf, hpos] at hstore

theorem storeAll_full (bs : List UInt8) (hpos : pos ≤ buf.length)
    (h : buf.length < pos + bs.length) :
    Utilities.storeAll buf pos bs = .error .arrayIndexOutOfBounds := by
  induction bs generalizing buf pos with
  | nil =>
      rw [List.length_nil] at h
      omega
  | cons b bs ih =>
      rw [List.length_cons] at h
      rw [Utilities.storeAll]
      split
      · exact ih (by rw [List.length_set]; omega) (by rw [List.length_set]; omega)
      · rfl

/-- The helper stores the bytes of the number. -/
theorem encodePacked32_eq {x : BitVec 32} (hx : x.toNat < 2 ^ 31) :
    Utilities.encodePacked32 (toLong x) buf pos (Utilities.sizePacked32 (toLong x)) =
      Utilities.storeAll buf pos (packed32 x.toNat) := by
  have hmsb : x.msb = false := by
    rw [BitVec.msb_eq_decide, decide_eq_false_iff_not]
    omega
  obtain ⟨tmp, hfill, hemit, hlength⟩ := unflagged_toLong hmsb
  rw [Utilities.encodePacked32, hfill, sizePacked32_toLong hmsb, ← hemit]
  show (if tmp.length ≠ (emitGroups tmp).length then _ else Utilities.storeAll _ _ _) = _
  rw [if_neg]
  rw [hemit, hlength]
  exact fun h => h rfl

end Store

/-- An array of `size` bytes, with some stored at its start. -/
theorem newBytes_storeAll (size : Int) (bs : List UInt8) :
    (do
      let result ← newBytes size
      let p ← packed (Utilities.storeAll result 0 bs)
      pure p.1) =
      if size < 0 then .error .negativeArraySize
      else if bs.length ≤ size.toNat then
        .ok (bs ++ List.replicate (size.toNat - bs.length) 0)
      else .error (.packed .arrayIndexOutOfBounds) := by
  unfold newBytes
  split
  · rfl
  · show (do
      let p ← packed (Utilities.storeAll (List.replicate size.toNat 0) 0 bs)
      pure p.1) = _
    split
    · rename_i hfits
      rw [storeAll_fits bs (by rw [List.length_replicate]; omega)]
      show Except.ok _ = Except.ok _
      rw [List.take_zero, List.nil_append, Nat.zero_add, List.drop_replicate]
    · rename_i hfull
      rw [storeAll_full bs (Nat.zero_le _) (by rw [List.length_replicate]; omega)]
      rfl

/-- Storing does not make an array longer. -/
theorem storeAll_ok {buf bs : List UInt8} {pos : Nat} {p : List UInt8 × Nat}
    (h : Utilities.storeAll buf pos bs = .ok p) : p.1.length = buf.length ∧
      bs.length ≤ buf.length := by
  suffices p.1.length = buf.length ∧ (bs = [] ∨ pos + bs.length ≤ buf.length) by
    obtain ⟨hlength, rfl | hfits⟩ := this
    · exact ⟨hlength, Nat.zero_le _⟩
    · exact ⟨hlength, by omega⟩
  induction bs generalizing buf pos with
  | nil =>
      cases h
      exact ⟨rfl, .inl rfl⟩
  | cons b bs ih =>
      rw [Utilities.storeAll] at h
      split at h
      · rename_i hpos
        obtain ⟨hlength, hfits⟩ := ih h
        rw [List.length_set] at hlength hfits
        refine ⟨hlength, .inr ?_⟩
        rw [List.length_cons]
        rcases hfits with rfl | hfits
        · exact hpos
        · omega
      · cases h

/-! ## One intention -/

theorem lengthLong_toNat {n : Nat} (h : n < 2 ^ 31) : (BitVec.ofNat 32 n).toNat = n := by
  rw [BitVec.toNat_ofNat]
  omega

theorem sizePacked32_lengthLong {n : Nat} (h : n < 2 ^ 31) :
    Utilities.sizePacked32 (lengthLong n) = (packed32 n).length := by
  have hnat := lengthLong_toNat h
  rw [lengthLong, sizePacked32_toLong, hnat]
  rw [BitVec.msb_eq_decide, decide_eq_false_iff_not]
  omega

theorem encodePacked32_lengthLong {n : Nat} (h : n < 2 ^ 31) (buf : List UInt8) (pos : Nat) :
    Utilities.encodePacked32 (lengthLong n) buf pos (Utilities.sizePacked32 (lengthLong n)) =
      Utilities.storeAll buf pos (packed32 n) := by
  have hnat := lengthLong_toNat h
  rw [lengthLong, encodePacked32_eq (by omega), hnat]

/-- The size of a size is one byte. -/
theorem size_of_size {n : Nat} (h : n < 2 ^ 31) :
    Utilities.sizePacked32 (lengthLong (Utilities.sizePacked32 (lengthLong n))) = 1 := by
  have hle := packed32_length_le n
  rw [sizePacked32_lengthLong h, sizePacked32_lengthLong (by omega),
    packed32_of_lt_128 (by omega)]
  rfl

/-- A key and a value whose lengths are `int`s. -/
abbrev LengthsFit (i : Intention) : Prop := i.key.length < 2 ^ 31 ∧ i.value.length < 2 ^ 31

/-- A key and a value whose lengths are one byte. -/
def Short (i : Intention) : Prop := i.key.length < 128 ∧ i.value.length < 128

section One

variable {i : Intention} (hfits : LengthsFit i)

include hfits

/-- The four steps store the bytes of the intention. -/
theorem toByteArray_store : toByteArray i = (do
    let result ← newBytes (wrap32 (i.key.length + i.value.length + 2))
    let p ← packed (Utilities.storeAll result 0 i.bytes)
    pure p.1) := by
  obtain ⟨hkey, hvalue⟩ := hfits
  have hlen : ((i.key.length : Int) + i.value.length + (1 : Nat) + (1 : Nat)) =
      i.key.length + i.value.length + 2 := by
    push_cast
    ring
  unfold toByteArray
  simp only [size_of_size hkey, size_of_size hvalue, encodePacked32_lengthLong hkey,
    encodePacked32_lengthLong hvalue, hlen]
  rw [Intention.bytes, counted, counted]
  simp only [List.append_assoc, storeAll_append, packed_bind, bind_assoc]

theorem toByteArray_ok (bs : List UInt8) : toByteArray i = .ok bs ↔ Short i ∧ bs = i.bytes := by
  have hkey := hfits.1
  have hvalue := hfits.2
  have hlength : i.bytes.length = (packed32 i.key.length).length + i.key.length +
      ((packed32 i.value.length).length + i.value.length) := by
    rw [Intention.bytes, List.length_append, counted_length, counted_length]
  have hkpos := packed32_length_pos i.key.length
  have hvpos := packed32_length_pos i.value.length
  have hsum : ((i.key.length : Int) + i.value.length + 2) =
      ((i.key.length + i.value.length + 2 : Nat) : Int) := by
    push_cast
    ring
  rw [toByteArray_store hfits, newBytes_storeAll, hsum]
  -- the array has room for two lengths of one byte each
  by_cases hwraps : i.key.length + i.value.length + 2 < 2 ^ 31
  · rw [wrap32_natCast hwraps, if_neg (by omega), Int.toNat_natCast]
    split
    · rename_i hroom
      have hshort : Short i :=
        ⟨packed32_length_of_le (by omega), packed32_length_of_le (by omega)⟩
      have hfull : i.key.length + i.value.length + 2 - i.bytes.length = 0 := by omega
      rw [hfull, List.replicate_zero, List.append_nil, Except.ok.injEq, and_iff_right hshort,
        eq_comm]
    · rename_i hroom
      refine iff_of_false (by simp) fun h => hroom ?_
      rw [hlength, packed32_of_lt_128 h.1.1, packed32_of_lt_128 h.1.2]
      simp only [List.length_singleton]
      omega
  · -- the array is shorter than the sum of the lengths, which is no `int`
    have hlt := wrap32_lt (i.key.length + i.value.length + 2 : Nat)
    have hlong : ¬ Short i := fun h => by
      have hk := h.1
      have hv := h.2
      omega
    split
    · exact iff_of_false (by simp) fun h => hlong h.1
    · rw [if_neg (by omega)]
      exact iff_of_false (by simp) fun h => hlong h.1

end One

/-- With arrays or without, the same is returned. -/
theorem toByteArray_ok_iff_some {i : Intention} (hfits : LengthsFit i) (bs : List UInt8) :
    toByteArray i = .ok bs ↔ Compiler.toByteArray i = some bs := by
  rw [toByteArray_ok hfits]
  constructor
  · rintro ⟨⟨hk, hv⟩, rfl⟩
    have hk1 := packed32_of_lt_128 hk
    have hv1 := packed32_of_lt_128 hv
    have hone : packed32 1 = [1] := rfl
    simp only [Compiler.toByteArray, Intention.bytes, counted, hk1, hv1, List.length_singleton, hone]
    rw [if_pos (by simp only [List.length_append, List.length_singleton]; omega)]
    simp
  · intro h
    obtain ⟨hk, hv, rfl⟩ := toByteArray_eq h
    exact ⟨⟨hk, hv⟩, rfl⟩

/-! ## All intentions -/

/-- The first loop goes through if the intentions are short. -/
theorem gather_ok {is : List Intention} (hfits : ∀ i ∈ is, LengthsFit i)
    {tmp : List (List UInt8)} {m : Int} {n : BitVec 32} {g : Gathered} :
    gather is ⟨tmp, wrap32 m, n⟩ = .ok g ↔ (∀ i ∈ is, Short i) ∧
      g = ⟨tmp ++ is.map Intention.bytes, wrap32 (m + (is.flatMap Intention.bytes).length),
        n + .ofNat 32 is.length⟩ := by
  induction is generalizing tmp m n with
  | nil =>
      show Except.ok _ = Except.ok g ↔ _
      rw [Except.ok.injEq, eq_comm]
      simp
  | cons i is ih =>
      have hfirst := toByteArray_ok (hfits i List.mem_cons_self)
      have hrest := fun j hj => hfits j (List.mem_cons_of_mem i hj)
      rw [gather]
      by_cases hshort : Short i
      · rw [(hfirst i.bytes).mpr ⟨hshort, rfl⟩]
        show gather is ⟨tmp ++ [i.bytes], wrap32 (wrap32 m + i.bytes.length), n + 1⟩ = _ ↔ _
        have hlength : m + i.bytes.length + (is.flatMap Intention.bytes).length =
            m + ((i :: is).flatMap Intention.bytes).length := by
          rw [List.flatMap_cons, List.length_append]
          push_cast
          ring
        have hcount : n + 1 + BitVec.ofNat 32 is.length = n + .ofNat 32 (i :: is).length := by
          rw [List.length_cons, Nat.add_comm, BitVec.ofNat_add, ← BitVec.add_assoc]
          rfl
        rw [wrap32_wrap32_add, ih hrest, hlength, hcount, List.append_assoc]
        simp [hshort]
      · cases hthrown : toByteArray i with
        | error e =>
            refine iff_of_false ?_ fun ⟨hall, _⟩ => hshort (hall i List.mem_cons_self)
            intro hok
            cases hok
        | ok bs => exact absurd ((hfirst bs).mp hthrown).1 hshort

theorem length_intentionsBytes (is : List Intention) : (intentionsBytes is).length =
    (packed32 is.length).length + (is.flatMap Intention.bytes).length := by
  rw [intentionsBytes, List.length_append]

theorem two_mul_length_le (is : List Intention) :
    2 * is.length ≤ (is.flatMap Intention.bytes).length := by
  induction is with
  | nil => simp
  | cons i is ih =>
      have hkey := packed32_length_pos i.key.length
      have hvalue := packed32_length_pos i.value.length
      rw [List.flatMap_cons, List.length_append, Intention.bytes, List.length_append,
        counted_length, counted_length, List.length_cons]
      omega

theorem packed_ok {α : Type} {m : Except PackedException α} {a : α} :
    packed m = .ok a ↔ m = .ok a := by
  cases m <;> simp [packed, Except.mapError]

theorem newBytes_length {x : Int} {result : List UInt8} (h : newBytes (wrap32 x) = .ok result) :
    result.length < 2 ^ 31 := by
  have hlt := wrap32_lt x
  unfold newBytes at h
  split at h
  · cases h
  · cases h
    rw [List.length_replicate]
    omega

theorem encodePacked32_length {value : BitVec 64} {buf : List UInt8} {start len : Nat}
    {p : List UInt8 × Nat} (h : Utilities.encodePacked32 value buf start len = .ok p) :
    p.1.length = buf.length := by
  unfold Utilities.encodePacked32 at h
  cases hfill : fillGroups 0x00 5 true (masked value) with
  | error e =>
      rw [hfill] at h
      cases h
  | ok tmp =>
      rw [hfill] at h
      change (if tmp.length ≠ len then throw .wrongLength
        else Utilities.storeAll buf start (emitGroups tmp)) = .ok p at h
      split at h
      · cases h
      · exact (storeAll_ok h).1

/-- No array has room for more bytes than an `int` can count. -/
theorem getIntentionBytes_long {is : List Intention} (hfits : ∀ i ∈ is, LengthsFit i)
    (hlong : 2 ^ 31 ≤ (is.flatMap Intention.bytes).length) (bs : List UInt8) :
    getIntentionBytes is ≠ .ok bs := by
  intro h
  unfold getIntentionBytes at h
  obtain ⟨g, hg, h⟩ := except_bind_ok.mp h
  obtain ⟨_, rfl⟩ := (@gather_ok is hfits [] 0 0 g).mp hg
  obtain ⟨result, hresult, h⟩ := except_bind_ok.mp h
  obtain ⟨p, hp, h⟩ := except_bind_ok.mp h
  obtain ⟨p', hp', _⟩ := except_bind_ok.mp h
  rw [packed_ok] at hp hp'
  have hroom := newBytes_length hresult
  have hfirst := encodePacked32_length hp
  have hsecond := (storeAll_ok hp').2
  rw [List.nil_append, ← List.flatMap_def] at hsecond
  omega

/-- The bytes of all intentions, if an array can be made for them. -/
theorem getIntentionBytes_ok {is : List Intention} (hfits : ∀ i ∈ is, LengthsFit i)
    (bs : List UInt8) : getIntentionBytes is = .ok bs ↔
      (∀ i ∈ is, Short i) ∧ (intentionsBytes is).length < 2 ^ 31 ∧ bs = intentionsBytes is := by
  have hlength := length_intentionsBytes is
  by_cases hlong : 2 ^ 31 ≤ (is.flatMap Intention.bytes).length
  · exact iff_of_false (getIntentionBytes_long hfits hlong bs) fun h => by
      have hlt := h.2.1
      omega
  · have htwo := two_mul_length_le is
    have hsize := packed32_length_le is.length
    have hcount : is.length < 2 ^ 31 := by omega
    by_cases hshort : ∀ i ∈ is, Short i
    · -- every intention has its array, and their sizes are added up
      have hgather : gather is ⟨[], 0, 0⟩ = .ok ⟨is.map Intention.bytes,
          wrap32 (is.flatMap Intention.bytes).length, .ofNat 32 is.length⟩ := by
        refine (@gather_ok is hfits [] 0 0 _).mpr ⟨hshort, ?_⟩
        rw [List.nil_append, zero_add]
        exact congrArg (Gathered.mk _ _) (BitVec.zero_add _).symm
      have hstore : getIntentionBytes is = (do
          let result ← newBytes (wrap32 ((is.flatMap Intention.bytes).length +
            (packed32 is.length).length))
          let p ← packed (Utilities.storeAll result 0 (intentionsBytes is))
          pure p.1) := by
        have hencode := fun result => encodePacked32_lengthLong hcount result 0
        have hsizes := sizePacked32_lengthLong hcount
        have hnext (g : Gathered) (f : Gathered → Except ArrayException (List UInt8)) :
            Except.ok g >>= f = f g := rfl
        unfold lengthLong at hencode hsizes
        unfold getIntentionBytes
        rw [hgather, intentionsBytes, List.flatMap_def]
        simp only [hnext, hencode, storeAll_append, packed_bind, bind_assoc, wrap32_wrap32_add]
        rw [hsizes]
      -- the size that is asked for is that of the bytes
      have hsum : ((is.flatMap Intention.bytes).length + (packed32 is.length).length : Int) =
          ((intentionsBytes is).length : Nat) := by
        rw [hlength, add_comm]
        push_cast
        ring
      rw [hstore, newBytes_storeAll, hsum]
      by_cases hwraps : (intentionsBytes is).length < 2 ^ 31
      · rw [wrap32_natCast hwraps, if_neg (by omega), Int.toNat_natCast, if_pos (le_refl _),
          Nat.sub_self, List.replicate_zero, List.append_nil, Except.ok.injEq]
        exact ⟨fun h => ⟨hshort, hwraps, h.symm⟩, fun h => h.2.2.symm⟩
      · have hneg := wrap32_natCast_of_ge (n := (intentionsBytes is).length) (by omega) (by omega)
        rw [if_pos (by omega)]
        exact iff_of_false (by simp) fun h => hwraps h.2.1
    · -- an intention that does not fit throws
      refine iff_of_false (fun h => ?_) fun h => hshort h.1
      obtain ⟨g, hg, _⟩ := except_bind_ok.mp h
      exact hshort ((@gather_ok is hfits [] 0 0 g).mp hg).1

/-! ## What Python writes and reads -/

/-- The arrays hold the bytes of the intentions, which are what `encode_intentions` writes for
strings with these bytes and `decode_intentions` reads. -/
structure BytesExact (is : List Intention) : Prop where
  each : ∀ i ∈ is, toByteArray i = .ok i.bytes
  all : getIntentionBytes is = .ok (intentionsBytes is)
  written : ∀ (S : Type) [PyText S] (l : Intentions S), C.EncodesAs l is →
    encodeIntentions l = intentionsBytes is
  read : ∀ l : Intentions String, C.EncodesAs l is →
    Consumes decodeIntentions (intentionsBytes is) (sortedTuple l)

theorem written_of_fits {is : List Intention} (hfits : ∀ i ∈ is, LengthsFit i)
    (hcount : is.length < 2 ^ 31) {S : Type} [PyText S] {l : Intentions S}
    (h : C.EncodesAs l is) : encodeIntentions l = intentionsBytes is := by
  rw [C.encodeIntentions_eq h, C.flatMap_writtenIntention hfits, Python.encodePacked32,
    Nat.mod_eq_of_lt (by omega)]
  rfl

theorem pairsFit {is : List Intention} (hfits : ∀ i ∈ is, LengthsFit i) {l : Intentions String}
    (h : C.EncodesAs l is) : ∀ p ∈ l, PairFits p := by
  induction h with
  | nil => simp
  | @cons p i l is hp _ ih =>
      obtain ⟨hk, hv⟩ := hfits i List.mem_cons_self
      have hkey : utf8 p.1 = i.key := Option.some.inj hp.1
      have hvalue : utf8 p.2 = i.value := Option.some.inj hp.2
      intro q hq
      rcases List.mem_cons.mp hq with rfl | hq
      · rw [PairFits, StringFits, StringFits, hkey, hvalue]
        exact ⟨by omega, by omega⟩
      · exact ih (fun j hj => hfits j (List.mem_cons_of_mem i hj)) q hq

theorem read_of_fits {is : List Intention} (hfits : ∀ i ∈ is, LengthsFit i)
    (hcount : is.length < 2 ^ 31) {l : Intentions String} (h : C.EncodesAs l is) :
    Consumes decodeIntentions (intentionsBytes is) (sortedTuple l) := by
  have hlength : l.length = is.length := List.Forall₂.length_eq h
  have hpairs := pairsFit hfits h
  rw [← written_of_fits hfits hcount h]
  unfold encodeIntentions
  rw [encodeIntentionsFrom_string]
  have hall := (ReadsBack.times fun p (_ : p ∈ l) => decodePair_readsBack p).consumes hpairs
  have hsorted := hall.map sortedTuple
  rw [map_eq_pure_bind] at hsorted
  exact ((decodePacked32_readsBack l.length).consumes (by omega)).bind hsorted

/-- **The bytes are exact** if and only if keys and values are short, and the bytes of all can be
counted by an `int`. -/
theorem bytesExact_iff {is : List Intention} (hfits : ∀ i ∈ is, LengthsFit i) :
    BytesExact is ↔ (∀ i ∈ is, Short i) ∧ (intentionsBytes is).length < 2 ^ 31 := by
  constructor
  · intro h
    obtain ⟨hshort, hlt, _⟩ := (getIntentionBytes_ok hfits _).mp h.all
    exact ⟨hshort, hlt⟩
  · rintro ⟨hshort, hlt⟩
    have htwo := two_mul_length_le is
    have hlength := length_intentionsBytes is
    have hcount : is.length < 2 ^ 31 := by omega
    exact ⟨fun i hi => (toByteArray_ok (hfits i hi) _).mpr ⟨hshort i hi, rfl⟩,
      (getIntentionBytes_ok hfits _).mpr ⟨hshort, hlt, rfl⟩,
      fun _ _ _ h => written_of_fits hfits hcount h, fun _ h => read_of_fits hfits hcount h⟩

/-- A key of 128 bytes. -/
def longKey : Intention := ⟨List.replicate 128 97, []⟩

/-- The second byte of the length takes the place of the last one of the key. -/
theorem not_bytesExact_longKey : ¬ BytesExact [longKey] := by
  intro h
  have hthrown := h.each longKey (List.mem_singleton_self _)
  revert hthrown
  decide +kernel

/-- A name. -/
def nameOfOneByte : Intention := ⟨[], [97]⟩

theorem bytesExact_iff_name : BytesExact [nameOfOneByte] ↔
    (∀ i ∈ [nameOfOneByte], Short i) ∧ (intentionsBytes [nameOfOneByte]).length < 2 ^ 31 :=
  bytesExact_iff (by decide)

end LabComm.Compiler.Arrays
