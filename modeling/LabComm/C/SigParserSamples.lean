import LabComm.C.SigParserSkip

set_option autoImplicit false

/-! # Samples that are skipped by their signatures

`skip_packed_sample_data` takes the length of a signature for a first type. If this length is by
chance the tag of a primitive type, and the signature has nothing in it that is read otherwise than
it was written (`AsWritten`), a sample is skipped if its bytes are data of this primitive type and
then of the type itself (`Coincides`). If the length is no tag, or both types are of fixed size, no
sample of the type is skipped.

What is proved of a type and of its data is that the parts which are read from its signature
(`ReadAs`) end where the data does (`IsLayout`); both are put together by one induction on the type
(`layout_signature`).
-/

namespace LabComm.C.SigParser

open Library

/-! ## Types that are read as they were written -/

/-- A primitive type of fixed size, possibly by way of a typedef. -/
def IsFixed : DataType → Prop
  | .prim p => p ≠ .string
  | .user _ type => IsFixed type
  | .void => False
  | .struct _ => False
  | .array _ _ => False

mutual

/-- The fields have no intentions, and the elements of arrays are of primitive types of fixed size;
references to samples are elements only. -/
def AsWritten : DataType → Prop
  | .void => True
  | .prim p => p ≠ .sample
  | .user _ type => AsWritten type
  | .struct fields => FieldsAsWritten fields
  | .array elem _ => IsFixed elem

/-- The same of every field. -/
def FieldsAsWritten : Fields → Prop
  | .nil => True
  | .cons intentions _ type rest =>
      intentions = [] ∧ AsWritten type ∧ FieldsAsWritten rest

end

/-- The number of bytes of the signature is the tag of a primitive type, which the signature is
written after, and the body is data of this type and then of the type itself. -/
def Coincides (t : DataType) (body : List UInt8) : Prop :=
  AsWritten t ∧ ∃ p : Prim, p ≠ .sample ∧ t.signature.length = p.token ∧
    ∃ a b, body = a ++ b ∧ (DataType.prim p).Data (2 ^ 31) a ∧ t.Data (2 ^ 31) b

/-! ## Numbers -/

theorem unpackVarint_drop {o : Object} {l rest : List UInt8} {k n : Nat} (hn : n < 2 ^ 32)
    (hk : k < 2 ^ 31) (h : l.drop k = packed32 n ++ rest) :
    unpackVarint o l k = .ok (n, (packed32 n).length) := by
  have hread : readVarintFrom (Fault.outOfBounds o) 0 (packed32 n ++ rest) = .ok (n, rest) :=
    readVarint_consumes (k := 4) _ (by omega) rest
  have hfrom := unpackVarintFrom_eq o 0 0 (packed32 n ++ rest)
  rw [hread] at hfrom
  rw [unpackVarint, toUnsigned_natCast (by omega), h]
  refine hfrom.trans ?_
  show Except.ok (n % 2 ^ 32, 0 + ((packed32 n ++ rest).length - rest.length)) = _
  rw [Nat.mod_eq_of_lt hn, List.length_append, Nat.add_sub_cancel, Nat.zero_add]

/-- What is behind the part that was read. -/
theorem drop_after {l bs rest : List UInt8} {k : Nat} (h : l.drop k = bs ++ rest) :
    l.drop (k + bs.length) = rest := by
  rw [← List.drop_drop, h, List.drop_left]

section Signatures

variable {sig rest : List UInt8} {k n : Nat}

theorem unpackAt_drop (hn : n < 2 ^ 32) (hk : k + (packed32 n).length < 2 ^ 31)
    (h : sig.drop k = packed32 n ++ rest) :
    unpackAt sig k = .ok (n, ((k + (packed32 n).length : Nat) : Int)) := by
  have hwrap : wrap32 ((k : Int) + (packed32 n).length) = ((k + (packed32 n).length : Nat) : Int) := by
    rw [← Nat.cast_add, wrap32_natCast hk]
  rw [unpackAt, unpackVarint_drop hn (by omega) h]
  show Except.ok (n, wrap32 _) = _
  rw [hwrap]

theorem skipIndices_drop {dim : List Exp} (hdim : ∀ e ∈ dim, e.IsIndex) (numVar size : Nat)
    (varsize : Bool) (hk : k + (dim.flatMap Exp.signature).length < 2 ^ 31)
    (h : sig.drop k = dim.flatMap Exp.signature ++ rest) :
    skipIndices sig dim.length k numVar size =
      .ok ((foundIndices dim numVar size varsize).1, (foundIndices dim numVar size varsize).2.1,
        ((k + (dim.flatMap Exp.signature).length : Nat) : Int)) := by
  induction dim generalizing k numVar size varsize with
  | nil => rfl
  | cons e dim ih =>
      have hrest := fun e he => hdim e (List.mem_cons_of_mem _ he)
      rw [List.flatMap_cons, List.append_assoc] at h
      rw [List.flatMap_cons, List.length_append] at hk ⊢
      rw [List.length_cons, skipIndices, ← Nat.add_assoc]
      cases e with
      | variableSize =>
          have hk' : k + ((packed32 0).length + (dim.flatMap Exp.signature).length) < 2 ^ 31 := hk
          rw [unpackAt_drop (by decide) (by omega) h]
          exact ih hrest _ _ _ (by omega) (drop_after h)
      | integerLiteral value =>
          obtain ⟨hpos, hvalue⟩ := hdim _ List.mem_cons_self
          have hk' : k + ((packed32 value).length + (dim.flatMap Exp.signature).length) < 2 ^ 31 :=
            hk
          rw [unpackAt_drop hvalue (by omega) h, foundIndices, if_neg (by omega)]
          show (if value = 0 then _ else _) = _
          rw [if_neg (by omega)]
          exact ih hrest _ _ _ (by omega) (drop_after h)

end Signatures

/-! ## Data -/

/-- Data of which every part is there ends where it should. If `Fixed` holds there is no other
end. -/
structure IsLayout (D : List UInt8 → Prop) (Fixed : Prop) (chunks : List Chunk) : Prop where
  ends : ∀ {c bs rest : List UInt8} {i : Nat}, c.length < 2 ^ 31 → i ≤ c.length →
    c.drop i = bs ++ rest → D bs → dataEnd c chunks i = .ok ((i + bs.length : Nat) : Int)
  size : Fixed → ∀ {c bs : List UInt8} {i e : Int}, D bs → dataEnd c chunks i = .ok e →
    e ≡ i + bs.length [ZMOD 2 ^ 32]

theorem length_of_drop {c bs rest : List UInt8} {i : Nat} (hi : i ≤ c.length)
    (h : c.drop i = bs ++ rest) : i + bs.length ≤ c.length := by
  have hlength := congrArg List.length h
  rw [List.length_drop, List.length_append] at hlength
  omega

theorem IsLayout.nil {Fixed : Prop} : IsLayout (fun bs => bs = []) Fixed [] := by
  constructor
  · rintro c bs rest i _ _ _ rfl
    rfl
  · rintro _ c bs i e rfl h
    cases h
    rw [List.length_nil, Nat.cast_zero, add_zero]

theorem IsLayout.append {D D' : List UInt8 → Prop} {Fixed Fixed' : Prop} {chunks chunks' : List Chunk}
    (h : IsLayout D Fixed chunks) (h' : IsLayout D' Fixed' chunks') :
    IsLayout (fun bs => ∃ cs ds, D cs ∧ D' ds ∧ bs = cs ++ ds) (Fixed ∧ Fixed')
      (chunks ++ chunks') := by
  constructor
  · rintro c bs rest i hc hi hdrop ⟨cs, ds, hcs, hds, rfl⟩
    rw [List.append_assoc] at hdrop
    have hsecond := h'.ends hc (length_of_drop hi hdrop) (drop_after hdrop) hds
    rw [Nat.add_assoc, ← List.length_append] at hsecond
    exact dataEnd_append.mpr ⟨_, h.ends hc hi hdrop hcs, hsecond⟩
  · rintro ⟨hfixed, hfixed'⟩ c bs i e ⟨cs, ds, hcs, hds, rfl⟩ hend
    obtain ⟨j, hj, he⟩ := dataEnd_append.mp hend
    have hfirst := h.size hfixed hcs hj
    have hsecond := h'.size hfixed' hds he
    rw [List.length_append, Nat.cast_add, ← add_assoc]
    exact hsecond.trans (hfirst.add_right _)

theorem bytes_ends {c bs rest : List UInt8} {i : Nat} (hi : i ≤ c.length)
    (h : c.drop i = bs ++ rest) : bytesEnd c bs.length i = .ok ((i + bs.length : Nat) : Int) := by
  have hle := length_of_drop hi h
  rw [bytesEnd_of_le (by omega) (by omega), Nat.cast_add]

/-- A part of a size that is known. -/
theorem isLayout_bytes {n : Nat} : IsLayout (fun bs => bs.length = n) True [.bytes n] := by
  constructor
  · rintro c bs rest i _ hi hdrop rfl
    rw [dataEnd_singleton]
    exact bytes_ends hi hdrop
  · rintro _ c bs i e rfl hend
    rw [dataEnd_singleton] at hend
    have hend' : bytesEnd c bs.length i = .ok e := hend
    rw [bytesEnd] at hend'
    split at hend'
    · cases hend'
      rfl
    · cases hend'

theorem wrap32_modEq (i : Int) : wrap32 i ≡ i [ZMOD 2 ^ 32] := by
  rw [Int.ModEq, wrap32, Int.bmod_def]
  split <;> omega

theorem isLayout_gap {n : Nat} : IsLayout (fun bs => bs.length = n) True [.gap n] := by
  constructor
  · rintro c bs rest i hc hi hdrop rfl
    have hle := length_of_drop hi hdrop
    rw [dataEnd_singleton]
    show Except.ok (wrap32 (i + bs.length)) = _
    rw [← Nat.cast_add, wrap32_natCast (by omega)]
  · rintro _ c bs i e rfl hend
    rw [dataEnd_singleton] at hend
    cases hend
    exact wrap32_modEq _

theorem numberAt_drop {c rest : List UInt8} {i n : Nat} (hc : c.length < 2 ^ 31)
    (hi : i ≤ c.length) (hn : n < 2 ^ 32) (h : c.drop i = packed32 n ++ rest) :
    numberAt c i = .ok (n, ((i + (packed32 n).length : Nat) : Int)) := by
  have hle := length_of_drop hi h
  have hwrap : wrap32 ((i : Int) + (packed32 n).length) = ((i + (packed32 n).length : Nat) : Int) := by
    rw [← Nat.cast_add, wrap32_natCast (by omega)]
  rw [numberAt, unpackVarint_drop hn (by omega) h]
  show Except.ok (n, wrap32 _) = _
  rw [hwrap]

theorem string_ends (c : List UInt8) (i : Int) :
    Chunk.string.ends c i = numberAt c i >>= fun x => bytesEnd c (wrap32 x.1).toNat x.2 := rfl

theorem isLayout_string : IsLayout (fun bs => ∃ chars, chars.length < 2 ^ 31 ∧ bs = counted chars)
    False [.string] := by
  refine ⟨?_, fun h => h.elim⟩
  rintro c bs rest i hc hi hdrop ⟨chars, hlen, rfl⟩
  rw [counted, List.append_assoc] at hdrop
  have hchars := bytes_ends (length_of_drop hi hdrop) (drop_after hdrop)
  rw [dataEnd_singleton, string_ends, except_bind_ok]
  refine ⟨_, numberAt_drop hc hi (by omega) hdrop, ?_⟩
  dsimp only
  rw [wrap32_natCast hlen, Int.toNat_natCast, hchars, counted, List.length_append, Nat.add_assoc]

theorem isLayout_prim {p : Prim} (hp : p ≠ .sample) : ∃ chunk,
    (∀ sig fuel pos, layout sig (fuel + 1) p.token pos = .ok ([chunk], pos)) ∧
      IsLayout ((DataType.prim p).Data (2 ^ 31)) (p ≠ .string) [chunk] := by
  have hfixed : ∀ {n : Nat} {chunk : Chunk} {P : Prop},
      IsLayout (fun bs => bs.length = n) True [chunk] → IsLayout (fun bs => bs.length = n) P [chunk] :=
    fun h => ⟨h.ends, fun _ => h.size trivial⟩
  cases p with
  | sample => exact absurd rfl hp
  | string => exact ⟨.string, fun _ _ _ => rfl, isLayout_string.ends, fun h => absurd rfl h⟩
  | boolean => exact ⟨.bytes 1, fun _ _ _ => rfl, hfixed isLayout_bytes⟩
  | byte => exact ⟨.bytes 1, fun _ _ _ => rfl, hfixed isLayout_bytes⟩
  | short => exact ⟨.gap 2, fun _ _ _ => rfl, hfixed isLayout_gap⟩
  | int => exact ⟨.bytes 4, fun _ _ _ => rfl, hfixed isLayout_bytes⟩
  | float => exact ⟨.gap 4, fun _ _ _ => rfl, hfixed isLayout_gap⟩
  | long => exact ⟨.gap 8, fun _ _ _ => rfl, hfixed isLayout_gap⟩
  | double => exact ⟨.gap 8, fun _ _ _ => rfl, hfixed isLayout_gap⟩

/-! ## Arrays -/

theorem foundIndices_numVar {dim : List Exp} (hdim : ∀ e ∈ dim, e.IsIndex) (numVar size : Nat)
    (varsize : Bool) :
    (foundIndices dim numVar size varsize).1 = numVar + dim.countP Exp.isVariable := by
  induction dim generalizing numVar size varsize with
  | nil => rfl
  | cons e dim ih =>
      have hrest := fun e he => hdim e (List.mem_cons_of_mem _ he)
      cases e with
      | variableSize =>
          rw [foundIndices, ih hrest, List.countP_cons_of_pos rfl]
          omega
      | integerLiteral value =>
          obtain ⟨hpos, _⟩ := hdim _ List.mem_cons_self
          rw [foundIndices, if_neg (by omega), ih hrest, List.countP_cons_of_neg Bool.false_ne_true]

/-- The product of the sizes in front of the elements. -/
def sizesProduct : List Exp → List Nat → Nat
  | .variableSize :: dim, n :: ns => n * sizesProduct dim ns
  | .integerLiteral _ :: dim, _ :: ns => sizesProduct dim ns
  | _, _ => 1

section Sizes

variable {N : Nat} {dim : List Exp} {ns : List Nat} (h : List.Forall₂ (Exp.HasSize N) dim ns)

include h

/-- The indices of fixed size and the sizes in front of the elements make up all sizes. -/
theorem foundIndices_product (hdim : ∀ e ∈ dim, e.IsIndex) (numVar size : Nat) (varsize : Bool) :
    (foundIndices dim numVar size varsize).2.1 * sizesProduct dim ns ≡ size * ns.prod
      [MOD 2 ^ 32] := by
  induction h generalizing numVar size varsize with
  | nil => rfl
  | @cons e n dim ns he _ ih =>
      have hrest := fun e he => hdim e (List.mem_cons_of_mem _ he)
      cases e with
      | variableSize =>
          rw [foundIndices, sizesProduct, List.prod_cons, Nat.mul_left_comm, Nat.mul_left_comm size]
          exact (ih hrest (numVar + 1) size true).mul_left n
      | integerLiteral value =>
          obtain ⟨hpos, _⟩ := hdim _ List.mem_cons_self
          have hn : n = value := he
          rw [foundIndices, if_neg (by omega), sizesProduct, List.prod_cons, hn, ← Nat.mul_assoc]
          exact (ih hrest numVar _ varsize).trans ((Nat.mod_modEq _ _).mul_right _)

theorem sizesEnd_drop (hN : N ≤ 2 ^ 32) {c rest : List UInt8} {i : Nat} (hc : c.length < 2 ^ 31)
    (hi : i ≤ c.length) (hdrop : c.drop i = sizesBytes dim ns ++ rest) (tot : Nat) :
    ∃ tot', sizesEnd c (dim.countP Exp.isVariable) tot i =
        .ok (tot', ((i + (sizesBytes dim ns).length : Nat) : Int)) ∧
      tot' ≡ tot * sizesProduct dim ns [MOD 2 ^ 32] := by
  induction h generalizing i tot with
  | nil =>
      exact ⟨tot, rfl, by rw [show sizesProduct [] [] = 1 from rfl, Nat.mul_one]⟩
  | @cons e n dim ns he _ ih =>
      cases e with
      | integerLiteral value =>
          rw [List.countP_cons_of_neg Bool.false_ne_true]
          exact ih hi hdrop tot
      | variableSize =>
          have hn : n < N := he
          have hdrop' : c.drop i = packed32 n ++ (sizesBytes dim ns ++ rest) := by
            rw [hdrop, sizesBytes, List.append_assoc]
            rfl
          obtain ⟨tot', hend, htot⟩ := ih (length_of_drop hi hdrop') (drop_after hdrop')
            (tot * n % 2 ^ 32)
          refine ⟨tot', ?_, htot.trans ?_⟩
          · rw [List.countP_cons_of_pos rfl, sizesEnd, except_bind_ok]
            refine ⟨_, numberAt_drop hc hi (by omega) hdrop', ?_⟩
            show sizesEnd c _ (tot * n % 2 ^ 32) _ = _
            rw [hend, sizesBytes, List.length_append, Nat.add_assoc]
            rfl
          · rw [sizesProduct, ← Nat.mul_assoc]
            exact (Nat.mod_modEq _ _).mul_right _

omit h in
theorem sizes_of_fixed (hdim : dim.countP Exp.isVariable = 0) :
    sizesProduct dim ns = 1 ∧ sizesBytes dim ns = [] := by
  induction dim generalizing ns with
  | nil => exact ⟨rfl, rfl⟩
  | cons e dim ih =>
      cases e with
      | variableSize =>
          rw [List.countP_cons_of_pos rfl] at hdim
          omega
      | integerLiteral value =>
          rw [List.countP_cons_of_neg Bool.false_ne_true] at hdim
          cases ns with
          | nil => exact ⟨rfl, rfl⟩
          | cons n ns => exact ih hdim

end Sizes

theorem rows_length {D : List UInt8 → Prop} {size : Nat} (hD : ∀ bs, D bs → bs.length = size)
    {ns : List Nat} {bs : List UInt8} (h : Rows D ns bs) : bs.length = ns.prod * size := by
  induction ns generalizing bs with
  | nil => rw [hD bs h, List.prod_nil, Nat.one_mul]
  | cons n ns ih =>
      obtain ⟨rows, hrows, hall, rfl⟩ := h
      have hmap : rows.map List.length = List.replicate n (ns.prod * size) :=
        List.eq_replicate_iff.mpr ⟨by rw [List.length_map, hrows], fun k hk => by
          obtain ⟨r, hr, rfl⟩ := List.mem_map.mp hk
          exact ih (hall r hr)⟩
      rw [List.length_flatten, hmap, List.sum_replicate, smul_eq_mul, List.prod_cons, Nat.mul_assoc]

theorem array_ends (c : List UInt8) (i : Int) (nVar tot elemSize : Nat) :
    (Chunk.array nVar tot elemSize).ends c i = sizesEnd c nVar tot i >>= fun x =>
      .ok (wrap32 (x.2 + ((elemSize * x.1 % 2 ^ 32 : Nat) : Int))) := rfl

/-- An element of a primitive type. -/
theorem exists_prim {t : DataType} (h : IsFixed t) : ∃ p : Prim, sizeofPrimitive p.token = .ok p.size ∧
    t.signature = packed32 p.token ∧ hasVariable t = false ∧
      ∀ N bs, t.Data N bs → bs.length = p.size := by
  match t with
  | .void | .struct _ | .array _ _ => exact h.elim
  | .user _ type => exact exists_prim (t := type) h
  | .prim p =>
      have hp : p ≠ .string := h
      refine ⟨p, by cases p <;> first | rfl | exact absurd rfl hp, rfl, decide_eq_false hp, ?_⟩
      intro N bs hbs
      cases p <;> first | exact hbs | exact absurd rfl hp

theorem isLayout_array {elem : DataType} {dim : List Exp} (hdim : ∀ e ∈ dim, e.IsIndex) {size : Nat}
    (hsize : ∀ bs, elem.Data (2 ^ 31) bs → bs.length = size) :
    IsLayout ((DataType.array elem dim).Data (2 ^ 31)) (dim.countP Exp.isVariable = 0)
      [.array (foundIndices dim 0 1 false).1 (foundIndices dim 0 1 false).2.1 size] := by
  have hvar : (foundIndices dim 0 1 false).1 = dim.countP Exp.isVariable := by
    rw [foundIndices_numVar hdim, Nat.zero_add]
  rw [hvar]
  constructor
  · rintro c bs rest i hc hi hdrop ⟨ns, cs, hns, hcs, rfl⟩
    have hle := length_of_drop hi hdrop
    rw [List.append_assoc] at hdrop
    obtain ⟨tot, hend, htot⟩ := sizesEnd_drop hns (by decide) hc hi hdrop
      (foundIndices dim 0 1 false).2.1
    have hlength := rows_length hsize hcs
    -- the product is right modulo `2 ^ 32`, and the size is below it
    have hmod : size * tot % 2 ^ 32 = cs.length := by
      have hall := htot.trans (foundIndices_product hns hdim 0 1 false)
      have hmul := hall.mul_left size
      rw [Nat.one_mul, Nat.mul_comm size ns.prod, ← hlength] at hmul
      rw [List.length_append] at hle
      rw [hmul, Nat.mod_eq_of_lt (by omega)]
    rw [dataEnd_singleton, array_ends, hend]
    show Except.ok (wrap32 (((i + (sizesBytes dim ns).length : Nat) : Int) + _)) = _
    rw [hmod, ← Nat.cast_add, Nat.add_assoc, ← List.length_append, wrap32_natCast (by omega)]
  · rintro hfixed c bs i e ⟨ns, cs, hns, hcs, rfl⟩ hend
    obtain ⟨hone, hnil⟩ := @sizes_of_fixed dim ns hfixed
    have hlength := rows_length hsize hcs
    have hprod := foundIndices_product hns hdim 0 1 false
    rw [hone, Nat.mul_one, Nat.one_mul] at hprod
    rw [dataEnd_singleton, array_ends, hfixed] at hend
    cases hend
    rw [hnil, List.nil_append, hlength]
    refine (wrap32_modEq _).trans (Int.ModEq.add_left _ ?_)
    have hmul := (Nat.mod_modEq (size * (foundIndices dim 0 1 false).2.1) (2 ^ 32)).trans
      (hprod.mul_left size)
    rw [Nat.mul_comm size ns.prod] at hmul
    exact (Int.natCast_modEq_iff (n := 2 ^ 32)).mpr hmul

/-! ## Signatures and their parts -/

/-- The first type at a position, and its parts. -/
def typeLayout (sig : List UInt8) (fuel : Nat) (pos : Int) : Except Fault (List Chunk × Int) :=
  unpackAt sig pos >>= fun x => layout sig fuel x.1 x.2

/-- Where the bytes are written, these parts are read. -/
def ReadAs (bytes : List UInt8) (chunks : List Chunk)
    (read : List UInt8 → Nat → Int → Except Fault (List Chunk × Int)) : Prop :=
  ∀ (sig rest : List UInt8) (k fuel : Nat), k + bytes.length < 2 ^ 31 →
    sig.drop k = bytes ++ rest → bytes.length ≤ fuel →
      read sig fuel k = .ok (chunks, ((k + bytes.length : Nat) : Int))

theorem IsLayout.weaken {D : List UInt8 → Prop} {P Q : Prop} {chunks : List Chunk}
    (h : IsLayout D P chunks) (hP : Q → P) : IsLayout D Q chunks :=
  ⟨h.ends, fun hQ => h.size (hP hQ)⟩

theorem readAs_token {n : Nat} (hn : n < 2 ^ 32) {bs : List UInt8} {chunks : List Chunk}
    (h : ReadAs bs chunks fun sig fuel pos => layout sig (fuel + 1) n pos) :
    ReadAs (packed32 n ++ bs) chunks typeLayout := by
  intro sig rest k fuel hk hdrop hfuel
  have hpos := packed32_length_pos n
  rw [List.length_append] at hk hfuel ⊢
  rw [List.append_assoc] at hdrop
  obtain ⟨fuel, rfl⟩ : ∃ m, fuel = m + 1 := ⟨fuel - 1, by omega⟩
  rw [typeLayout, unpackAt_drop hn (by omega) hdrop, ← Nat.add_assoc]
  exact h _ _ _ _ (by omega) (drop_after hdrop) (by omega)

theorem arrayLayout_drop {elem : DataType} {dim : List Exp} (helem : IsFixed elem)
    (hdim : ∀ e ∈ dim, e.IsIndex) :
    ∃ size, (∀ bs, elem.Data (2 ^ 31) bs → bs.length = size) ∧ (dim.length < 2 ^ 32 →
      ReadAs (packed32 dim.length ++ (dim.flatMap Exp.signature ++ elem.signature))
        [.array (foundIndices dim 0 1 false).1 (foundIndices dim 0 1 false).2.1 size]
        fun sig fuel pos => layout sig (fuel + 1) LABCOMM_ARRAY pos) := by
  obtain ⟨p, hsize, hsignature, _, hdata⟩ := exists_prim helem
  refine ⟨p.size, hdata (2 ^ 31), ?_⟩
  intro hlen sig rest k fuel hk hdrop _
  rw [hsignature] at hk hdrop ⊢
  rw [List.append_assoc, List.append_assoc] at hdrop
  rw [List.length_append, List.length_append] at hk ⊢
  have hindices := drop_after hdrop
  have htype := drop_after hindices
  have htoken := token_lt_user p
  show arrayLayout sig k = _
  rw [arrayLayout, unpackAt_drop hlen (by omega) hdrop]
  show (skipIndices sig dim.length _ 0 1 >>= _) = _
  rw [skipIndices_drop hdim 0 1 false (by omega) hindices]
  show (unpackAt sig _ >>= _) = _
  rw [unpackAt_drop (by omega) (by omega) htype]
  show (sizeofPrimitive p.token >>= _) = _
  rw [hsize, ← Nat.add_assoc, ← Nat.add_assoc]
  rfl

theorem countP_of_fixed {dim : List Exp} (h : dim.any varies = false) :
    dim.countP Exp.isVariable = 0 := by
  refine List.countP_eq_zero.mpr fun e he hvar => ?_
  cases e with
  | integerLiteral value => exact Bool.false_ne_true hvar
  | variableSize => exact Bool.false_ne_true ((List.any_eq_false.mp h _ he) rfl).elim

theorem readAs_struct {n : Nat} (hn : n < 2 ^ 32) {bs : List UInt8} {chunks : List Chunk}
    (h : ReadAs bs chunks fun sig fuel pos => fieldsLayout (layout sig fuel) sig n pos) :
    ReadAs (packed32 LABCOMM_STRUCT ++ (packed32 n ++ bs)) chunks typeLayout := by
  refine readAs_token (by decide) ?_
  intro sig rest k fuel hk hdrop hfuel
  rw [List.append_assoc] at hdrop
  rw [List.length_append] at hk hfuel ⊢
  show (unpackAt sig k >>= fun x => fieldsLayout (layout sig fuel) sig x.1 x.2) = _
  rw [unpackAt_drop hn (by omega) hdrop, ← Nat.add_assoc]
  exact h _ _ _ _ (by omega) (drop_after hdrop) (by omega)

theorem fieldsLayout_succ (layout : Nat → Int → Except Fault (List Chunk × Int)) (sig : List UInt8)
    (n : Nat) (pos : Int) : fieldsLayout layout sig (n + 1) pos =
      unpackVarint .entry sig pos >>= fun x => unpackAt sig (wrap32 (pos + (x.2 + x.1))) >>= fun y =>
        layout y.1 y.2 >>= fun z => fieldsLayout layout sig n z.2 >>= fun w =>
          .ok (z.1 ++ w.1, w.2) := rfl

/-- A field without intentions. -/
theorem readAs_cons {bs cs : List UInt8} {chunks chunks' : List Chunk} {n : Nat}
    (h : ReadAs bs chunks typeLayout)
    (h' : ReadAs cs chunks' fun sig fuel pos => fieldsLayout (layout sig fuel) sig n pos) :
    ReadAs (packed32 0 ++ (bs ++ cs)) (chunks ++ chunks') fun sig fuel pos =>
      fieldsLayout (layout sig fuel) sig (n + 1) pos := by
  intro sig rest k fuel hk hdrop hfuel
  rw [List.append_assoc, List.append_assoc] at hdrop
  rw [List.length_append, List.length_append] at hk hfuel ⊢
  have htype := drop_after hdrop
  have hwrap : wrap32 ((k : Int) + (((packed32 0).length : Nat) + (0 : Nat))) =
      ((k + (packed32 0).length : Nat) : Int) := by
    rw [Nat.cast_zero, add_zero, ← Nat.cast_add, wrap32_natCast (by omega)]
  have hfirst := h _ _ _ fuel (by omega) htype (by omega)
  have hrest := h' _ _ _ fuel (by omega) (drop_after htype) (by omega)
  obtain ⟨x, hx, hlayout⟩ := except_bind_ok.mp hfirst
  refine (fieldsLayout_succ _ _ _ _).trans (except_bind_ok.mpr ?_)
  refine ⟨_, unpackVarint_drop (by decide) (by omega) hdrop, except_bind_ok.mpr ⟨x, ?_, ?_⟩⟩
  · rw [hwrap, hx]
  · refine except_bind_ok.mpr ⟨_, hlayout, except_bind_ok.mpr ⟨_, hrest, ?_⟩⟩
    rw [← Nat.add_assoc, ← Nat.add_assoc]

mutual

/-- The parts that are read are those of the data. -/
theorem layout_signature (t : DataType) (hw : AsWritten t) (ht : t.HasIndices) :
    ∃ chunks, IsLayout (t.Data (2 ^ 31)) (hasVariable t = false) chunks ∧
      (t.signature.length < 2 ^ 31 → ReadAs t.signature chunks typeLayout) := by
  match t with
  | .void =>
      have hread : ReadAs (packed32 LABCOMM_STRUCT ++ (packed32 0 ++ [])) [] typeLayout :=
        readAs_struct (by decide) fun _ _ _ _ _ _ _ => rfl
      exact ⟨[], IsLayout.nil.weaken fun _ => True.intro, fun _ => hread⟩
  | .prim p =>
      obtain ⟨chunk, hlayout, hdata⟩ := isLayout_prim hw
      have htoken := token_lt_user p
      refine ⟨[chunk], hdata.weaken of_decide_eq_false, fun _ => ?_⟩
      have hread : ReadAs (packed32 p.token ++ []) [chunk] typeLayout :=
        readAs_token (by omega) fun _ _ _ _ _ _ _ => hlayout _ _ _
      rwa [List.append_nil] at hread
  | .user _ type => exact layout_signature type hw ht
  | .struct fields =>
      obtain ⟨chunks, hdata, hread⟩ := layout_fields fields hw ht
      refine ⟨chunks, hdata, fun hlen => ?_⟩
      have hle : fields.length ≤ fields.signature.length := by
        rw [← Fields.described_none]
        exact fields_length_le fields
      rw [DataType.signature, List.length_append, List.length_append] at hlen
      exact readAs_struct (by omega) (hread (by omega))
  | .array elem dim =>
      have hle := indices_length_le dim
      obtain ⟨_, _, _, hvariable, _⟩ := exists_prim hw
      obtain ⟨size, hsize, hread⟩ := @arrayLayout_drop elem dim hw ht.1
      refine ⟨_, (isLayout_array ht.1 hsize).weaken fun h => ?_, fun hlen => ?_⟩
      · exact countP_of_fixed (Bool.or_eq_false_iff.mp h).1
      · rw [DataType.signature, List.length_append, List.length_append, List.length_append] at hlen
        exact readAs_token (by decide) (hread (by omega))

/-- The same of fields. -/
theorem layout_fields (fields : Fields) (hw : FieldsAsWritten fields) (ht : fields.HasIndices) :
    ∃ chunks, IsLayout (fields.Data (2 ^ 31)) (fieldsHaveVariable fields = false) chunks ∧
      (fields.signature.length < 2 ^ 31 → ReadAs fields.signature chunks fun sig fuel pos =>
        fieldsLayout (layout sig fuel) sig fields.length pos) := by
  match fields with
  | .nil => exact ⟨[], IsLayout.nil.weaken fun _ => True.intro, fun _ _ _ _ _ _ _ _ => rfl⟩
  | .cons intentions _ type rest =>
      obtain ⟨rfl, hwtype, hwrest⟩ := hw
      obtain ⟨chunks, hdata, hread⟩ := layout_signature type hwtype ht.1
      obtain ⟨chunks', hdata', hread'⟩ := layout_fields rest hwrest ht.2
      refine ⟨chunks ++ chunks', (hdata.append hdata').weaken Bool.or_eq_false_iff.mp,
        fun hlen => ?_⟩
      rw [Fields.signature, List.length_append, List.length_append] at hlen
      exact readAs_cons (hread (by omega)) (hread' (by omega))

end

/-! ## More fuel -/

theorem fieldsLayout_mono {read read' : Nat → Int → Except Fault (List Chunk × Int)}
    (h : ∀ type pos x, read type pos = .ok x → read' type pos = .ok x) {sig : List UInt8} {n : Nat}
    {pos : Int} {x : List Chunk × Int} (hx : fieldsLayout read sig n pos = .ok x) :
    fieldsLayout read' sig n pos = .ok x := by
  induction n generalizing pos x with
  | zero => exact hx
  | succ n ih =>
      rw [fieldsLayout_succ] at hx ⊢
      obtain ⟨y, hy, hx⟩ := except_bind_ok.mp hx
      obtain ⟨z, hz, hx⟩ := except_bind_ok.mp hx
      obtain ⟨v, hv, hx⟩ := except_bind_ok.mp hx
      obtain ⟨w, hw, hx⟩ := except_bind_ok.mp hx
      exact except_bind_ok.mpr ⟨y, hy, except_bind_ok.mpr ⟨z, hz,
        except_bind_ok.mpr ⟨v, h _ _ _ hv, except_bind_ok.mpr ⟨w, ih hw, hx⟩⟩⟩⟩

theorem ite_mono {α : Type} {P : Prop} [Decidable P] {m m' k k' : Except Fault α} {x : α}
    (h : m = .ok x → m' = .ok x) (h' : k = .ok x → k' = .ok x) :
    (if P then m else k) = .ok x → (if P then m' else k') = .ok x := by
  by_cases hP : P
  · rwa [if_pos hP, if_pos hP]
  · rwa [if_neg hP, if_neg hP]

theorem layout_mono {sig : List UInt8} {fuel type : Nat} {pos : Int} {x : List Chunk × Int}
    (hx : layout sig fuel type pos = .ok x) : layout sig (fuel + 1) type pos = .ok x := by
  induction fuel generalizing type pos x with
  | zero => cases hx
  | succ fuel ih =>
      rw [layout] at hx ⊢
      refine ite_mono id (ite_mono id (ite_mono id (ite_mono id (ite_mono id (ite_mono id
        (ite_mono id (ite_mono (fun hx => ?_) id))))))) hx
      obtain ⟨y, hy, hx⟩ := except_bind_ok.mp hx
      exact except_bind_ok.mpr ⟨y, hy, fieldsLayout_mono (fun _ _ _ => ih) hx⟩

theorem layoutFrom_mono {sig : List UInt8} {size fuel : Nat} (more : Nat) {pos : Int}
    {chunks : List Chunk} (h : layoutFrom sig size fuel pos = .ok chunks) :
    layoutFrom sig size (fuel + more) pos = .ok chunks := by
  have hone : ∀ fuel pos chunks, layoutFrom sig size fuel pos = .ok chunks →
      layoutFrom sig size (fuel + 1) pos = .ok chunks := by
    intro fuel
    induction fuel with
    | zero =>
        intro _ _ h
        cases h
    | succ fuel ih =>
        intro pos chunks h
        rw [layoutFrom] at h ⊢
        split at h
        case isTrue hpos =>
          rw [if_pos hpos]
          obtain ⟨x, hx, h⟩ := except_bind_ok.mp h
          obtain ⟨y, hy, h⟩ := except_bind_ok.mp h
          obtain ⟨z, hz, h⟩ := except_bind_ok.mp h
          exact except_bind_ok.mpr ⟨x, hx, except_bind_ok.mpr ⟨y, layout_mono hy,
            except_bind_ok.mpr ⟨z, ih _ _ hz, h⟩⟩⟩
        case isFalse hpos =>
          rw [if_neg hpos]
          exact h
  induction more with
  | zero => exact h
  | succ more ih => exact hone _ _ _ ih

theorem layoutFrom_unique {sig : List UInt8} {size fuel fuel' : Nat} {pos : Int}
    {chunks chunks' : List Chunk} (h : layoutFrom sig size fuel pos = .ok chunks)
    (h' : layoutFrom sig size fuel' pos = .ok chunks') : chunks = chunks' := by
  have hmore := layoutFrom_mono fuel' h
  rw [Nat.add_comm, layoutFrom_mono fuel h'] at hmore
  exact (Except.ok.inj hmore).symm

/-! ## Samples -/

/-- The call skips just these bytes. -/
def SkipsBody (e : Entry) (d : State) (body : List UInt8) : Prop :=
  ∃ fuel, (skipPackedSampleData fuel e).run d = .ok ((), d.moved (d.idx + body.length))

theorem layoutFrom_cons {sig : List UInt8} {size fuel : Nat} {pos : Int} {x : Nat × Int}
    {y : List Chunk × Int} {chunks : List Chunk} (hpos : pos < size) (hx : unpackAt sig pos = .ok x)
    (hy : layout sig fuel x.1 x.2 = .ok y) (hrest : layoutFrom sig size fuel y.2 = .ok chunks) :
    layoutFrom sig size (fuel + 1) pos = .ok (y.1 ++ chunks) := by
  rw [layoutFrom, if_pos hpos]
  exact except_bind_ok.mpr ⟨x, hx, except_bind_ok.mpr ⟨y, hy, except_bind_ok.mpr ⟨_, hrest, rfl⟩⟩⟩

/-- The first type of a recorded signature is its length, the other one is the type itself. -/
theorem layoutFrom_stored (e : Entry) {t : DataType} (hw : AsWritten t) (ht : t.HasIndices)
    {p : Prim} (hp : p ≠ .sample) (hlen : t.signature.length = p.token) :
    ∃ fuel chunk chunks, layoutFrom (stored e t.signature) (counted t.signature).length fuel 0 =
        .ok (chunk :: chunks) ∧
      IsLayout ((DataType.prim p).Data (2 ^ 31)) (p ≠ .string) [chunk] ∧
      IsLayout (t.Data (2 ^ 31)) (hasVariable t = false) chunks := by
  obtain ⟨chunk, hchunk, hprim⟩ := isLayout_prim hp
  have htoken := token_lt_user p
  obtain ⟨chunks, hdata, hread⟩ := layout_signature t hw ht
  have hsize := counted_length t.signature
  have hpos := packed32_length_pos t.signature.length
  have hshort := packed32_length_le t.signature.length
  rw [hlen] at hsize hpos hshort
  have hstored : (stored e t.signature).drop 0 = packed32 p.token ++
      (t.signature ++ e.signatures.drop (counted t.signature).length) := by
    rw [List.drop_zero, stored, ← hlen, counted, List.append_assoc]
  have hfirst := unpackAt_drop (by omega) (by omega) hstored
  have hsecond := hread (by omega) _ _ _ (t.signature.length + 1) (by omega) (drop_after hstored)
    (Nat.le_succ _)
  obtain ⟨x, hx, hlayout⟩ := except_bind_ok.mp hsecond
  refine ⟨t.signature.length + 3, chunk, chunks, ?_, hprim, hdata⟩
  have hlast : layoutFrom (stored e t.signature) (counted t.signature).length
      (t.signature.length + 1) ((0 + (packed32 p.token).length + t.signature.length : Nat) : Int) =
        .ok [] := by
    have hend : ¬ ((0 + (packed32 p.token).length + t.signature.length : Nat) : Int) <
        (counted t.signature).length := by omega
    rw [layoutFrom, if_neg hend]
    rfl
  have hlt : ((0 + (packed32 p.token).length : Nat) : Int) < (counted t.signature).length := by
    have htoken_pos : 0 < p.token := by cases p <;> decide
    omega
  have hrest := layoutFrom_cons hlt hx hlayout hlast
  rw [List.append_nil] at hrest
  have hlt₀ : ((0 : Nat) : Int) < (counted t.signature).length := by omega
  exact layoutFrom_cons hlt₀ hfirst (hchunk _ _ _) hrest

section Skipping

variable {config : Config} {c : Buffer} {s s' : State} (hs : Reached config c s)
  (hmore : more s = true) {index : Nat} {is : List Intention} {t : DataType} {rest : List UInt8}
  (hrest : s.rest = (Packet.sampleDef index is t.signature).bytes ++ rest)
  (hindex : UserId index) (ht : t.HasIndices) (hrun : acceptPacket.run s = .ok ((), s'))
  {d : State} (hd : d.tables (index - LABCOMM_USER) = s'.tables (index - LABCOMM_USER))

include hrest

theorem signature_length_lt : t.signature.length < 2 ^ 31 := by
  have hlength := (rest_suffix s).length_le
  have hlt := s.c.length_lt
  have hbody := length_le_counted (definitionBytes index is t.signature)
  have hsize := length_le_definitionBytes index is t.signature
  rw [hrest, List.length_append, Packet.bytes, List.length_append] at hlength
  have hlength' : (packed32 LABCOMM_SAMPLE_DEF).length +
    (counted (definitionBytes index is t.signature)).length + rest.length ≤
      s.c.bytes.length := hlength
  omega

include hs hmore hindex ht hrun hd

theorem skipsBody_iff (body : List UInt8) :
    SkipsBody (d.tables (index - LABCOMM_USER)) d body ↔
      ∃ fuel chunks, layoutFrom (stored (s.tables (index - LABCOMM_USER)) t.signature)
          (counted t.signature).length fuel 0 = .ok chunks ∧
        dataEnd d.c.bytes chunks d.idx = .ok (d.idx + body.length) := by
  have hrecorded := recorded hs.between hmore hrest hindex ht hrun
  refine exists_congr fun fuel => ?_
  rw [hd, skipPackedSampleData, hrecorded.1, hrecorded.2, skipFrom_run]
  constructor
  · rintro ⟨chunks, j, hlay, hend, hmoved⟩
    have hj : d.idx + body.length = j := congrArg State.idx hmoved
    exact ⟨chunks, hlay, hj ▸ hend⟩
  · rintro ⟨chunks, hlay, hend⟩
    exact ⟨chunks, _, hlay, hend, rfl⟩

/-- **Skipping.** A sample is skipped if its bytes can also be read as data of the type that the
length of the signature stands for, and then of its own type; only if this length stands for a type
at all; and not if both types are of fixed size. -/
theorem skip_packed_sample_data_coincides (before body after : List UInt8)
    (hbytes : d.c.bytes = before ++ (body ++ after)) (hidx : d.idx = before.length)
    (hbody : t.Data (2 ^ 31) body) :
    (Coincides t body → SkipsBody (d.tables (index - LABCOMM_USER)) d body) ∧
      (SkipsBody (d.tables (index - LABCOMM_USER)) d body → IsType t.signature.length) ∧
      ∀ p : Prim, p ≠ .sample → p ≠ .string → t.signature.length = p.token → AsWritten t →
        hasVariable t = false → ¬ SkipsBody (d.tables (index - LABCOMM_USER)) d body := by
  have hiff := skipsBody_iff hs hmore hrest hindex ht hrun hd
  refine ⟨fun hcoincides => ?_, fun hskips => ?_, fun p hp hfixed hlen hw hvariable hskips => ?_⟩
  · obtain ⟨hw, p, hp, hlen, a, b, rfl, ha, hb⟩ := hcoincides
    obtain ⟨fuel, chunk, chunks, hlayout, hprim, hdata⟩ := layoutFrom_stored
      (s.tables (index - LABCOMM_USER)) hw ht hp hlen
    have hdrop : d.c.bytes.drop before.length = (a ++ b) ++ after := by
      rw [hbytes, List.drop_left]
    have hi : before.length ≤ d.c.bytes.length := by
      rw [hbytes, List.length_append]
      omega
    have hend := (hprim.append hdata).ends d.c.length_lt hi hdrop ⟨a, b, ha, hb, rfl⟩
    refine (hiff _).mpr ⟨fuel, chunk :: chunks, hlayout, ?_⟩
    rw [hidx, ← Nat.cast_add]
    exact hend
  · obtain ⟨fuel, chunks, hlayout, _⟩ := (hiff body).mp hskips
    have hlen := signature_length_lt hrest
    exact isType_length (by omega) hlayout
  · obtain ⟨fuel, chunks, hlayout, hend⟩ := (hiff body).mp hskips
    obtain ⟨fuel', chunk, chunks', hlayout', hprim, hdata⟩ := layoutFrom_stored
      (s.tables (index - LABCOMM_USER)) hw ht hp hlen
    rw [layoutFrom_unique hlayout hlayout', ← List.singleton_append, dataEnd_append] at hend
    obtain ⟨k, hk, hend⟩ := hend
    have hzeros : (DataType.prim p).Data (2 ^ 31) (List.replicate p.size 0) := by
      cases p <;> first | exact List.length_replicate | exact absurd rfl hfixed
    have hfirst := hprim.size hfixed hzeros hk
    have hsecond := hdata.size hvariable hbody hend
    rw [List.length_replicate] at hfirst
    have hsize : 0 < p.size ∧ p.size < 9 := by
      cases p <;> first | exact ⟨by decide, by decide⟩ | exact absurd rfl hfixed
    -- the sample would have to be longer by the data of the first type
    have hall : d.idx + body.length ≡ d.idx + p.size + body.length [ZMOD 2 ^ 32] :=
      hsecond.trans (hfirst.add_right _)
    have hdvd := hall.dvd
    omega

end Skipping

/-- An array whose signature has 32 bytes, as many as the tag of a boolean says. -/
def oddArray : DataType :=
  .array (.prim .byte) (List.replicate 28 (.integerLiteral 1) ++ [.variableSize])

/-- The array and two bytes of it. -/
def oddPackets : Buffer where
  bytes := (Packet.sampleDef 0x40 [nameIntention [97]] oddArray.signature).bytes ++
    (Packet.sample 0x40 [2, 1, 7]).bytes
  length_lt := by decide

/-- The parser before the packets. -/
def oddStart : State := init ⟨3, 1, 2, 33⟩ oddPackets

/-- The parser after the declaration. -/
def oddDeclared : State :=
  oddStart.finish ⟨true, some ⟨0x40, [97], counted oddArray.signature⟩, 0⟩
    (Packet.sample 0x40 [2, 1, 7]).bytes

theorem oddDeclared_run : acceptPacket.run oddStart = .ok ((), oddDeclared) := by
  rw [oddStart, acceptPacket_rest (Reached.init.between).ready (Reached.init.between).allocated
    (by decide)]
  rfl

/-- The parser at the two bytes. -/
def oddData : State := oddDeclared.moved 42

theorem oddStart_rest : oddStart.rest =
    (Packet.sampleDef 0x40 [nameIntention [97]] oddArray.signature).bytes ++
      (Packet.sample 0x40 [2, 1, 7]).bytes := rfl

theorem oddArray_hasIndices : oddArray.HasIndices := by
  refine ⟨fun e he => ?_, trivial⟩
  rcases List.mem_append.mp he with he | he
  · rw [(List.mem_replicate.mp he).2]
    exact ⟨by decide, by decide⟩
  · rw [List.mem_singleton.mp he]
    trivial

/-- Dimensions of 1 make no difference to the data. -/
theorem ones_data (k : Nat) {N : Nat} (bs : List UInt8) (h : bs.length < N) :
    (DataType.array (.prim .byte) (List.replicate k (.integerLiteral 1) ++ [.variableSize])).Data N
      (counted bs) := by
  refine ⟨List.replicate k 1 ++ [bs.length], bs, ?_, ?_, ?_⟩
  · induction k with
    | zero => exact .cons h .nil
    | succ k ih => exact .cons rfl ih
  · induction k with
    | zero =>
        refine ⟨bs.map fun b => [b], List.length_map _, fun r hr => ?_, ?_⟩
        · obtain ⟨b, _, rfl⟩ := List.mem_map.mp hr
          rfl
        · rw [← List.flatMap_def, List.flatMap_singleton']
    | succ k ih => exact ⟨[bs], rfl, fun r hr => List.mem_singleton.mp hr ▸ ih,
        List.flatten_singleton.symm⟩
  · induction k with
    | zero => exact congrArg (· ++ bs) (List.append_nil _).symm
    | succ k ih => exact ih

theorem oddArray_coincides : Coincides oddArray [2, 1, 7] :=
  ⟨Prim.noConfusion, .boolean, by decide, rfl, [2], [1, 7], rfl, rfl,
    ones_data 28 [7] (by decide)⟩

/-- A sample that is skipped all the same: one byte is read for the length of the signature, and
the next one, which is one less than the size before it, is taken for the size. -/
theorem skip_packed_sample_data_odd :
    SkipsBody (oddData.tables (0x40 - LABCOMM_USER)) oddData [2, 1, 7] :=
  (skip_packed_sample_data_coincides (d := oddData) Reached.init (by decide) oddStart_rest
    ⟨by decide, by decide⟩ oddArray_hasIndices oddDeclared_run rfl (oddPackets.bytes.take 42)
    [2, 1, 7] [] rfl rfl (ones_data 28 [1, 7] (by decide))).1 oddArray_coincides

/-- The parser after the declaration of the samples that are an `int`. -/
def intDeclared : State :=
  (init ⟨3, 1, 2, 2⟩ intPackets).finish ⟨false, some ⟨0x40, [97], counted [0x23]⟩, 0⟩
    (Packet.sample 0x40 [0, 0, 0, 7]).bytes

/-- The length of the signature of `int` is no type, so that the process ends. -/
theorem skip_packed_sample_data_exits :
    acceptPacket.run (init ⟨3, 1, 2, 2⟩ intPackets) = .ok ((), intDeclared) ∧
      (skipPackedSampleData 2 (intDeclared.tables 0)).run (intDeclared.moved 11) =
        .error (.exit .skipType) := by
  refine ⟨?_, rfl⟩
  rw [acceptPacket_rest (Reached.init.between).ready (Reached.init.between).allocated (by decide)]
  rfl

end LabComm.C.SigParser
