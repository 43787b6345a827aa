import LabComm.Python.Value

set_option autoImplicit false

/-! # Re-encoding what Python decoded

Which values that `decode` returns can be encoded again: those without null references whose
arrays have the shape that `array.shape` accepts (`Encodable`), and of these the ones whose
lengths fit 32 bits (`Sized`) come back equal.
-/

namespace LabComm.Python

open Library

/-! ## Primitives -/

theorem unpack_lt {w n : Nat} {s q : List UInt8} (h : (unpack w).run s = .ok (n, q)) :
    n < 256 ^ w := by
  obtain ⟨bs, hbs, rfl⟩ := run_map_eq_ok.mp h
  have hlen := (readBytes_length hbs).1
  have hlt := ofBigEndian_lt bs
  rwa [hlen] at hlt

theorem unpackInt_fits {w : Nat} {i : Int} {s q : List UInt8}
    (h : (unpackInt w).run s = .ok (i, q)) : SignedFits w i := by
  obtain ⟨n, _, rfl⟩ := run_map_eq_ok.mp h
  exact signed_fits w n

theorem unpack_consumes {w n : Nat} (h : n < 256 ^ w) :
    Consumes (unpack w) (bigEndian w n) n := by
  have hread := (readBytes_consumes PyError.EOFError (bigEndian w n)).map ofBigEndian
  rwa [bigEndian_length, ofBigEndian_bigEndian h] at hread

theorem unpackInt_consumes {w : Nat} {i : Int} (h : SignedFits w i) :
    Consumes (unpackInt w) (bigEndian w (unsigned w i)) i := by
  have hread := (unpack_consumes (unsigned_lt w i)).map (signed w)
  rwa [signed_unsigned h] at hread

theorem packInt_codesBack {w : Nat} {i : Int} (h : SignedFits w i) :
    CodesBack (packInt w i) (unpackInt w) i True True := by
  unfold packInt
  rw [if_pos h]
  exact (unpackInt_consumes h).readsBack.codesBack

theorem pack_codesBack {w n : Nat} (h : n < 256 ^ w) :
    CodesBack (pack w n) (unpack w) n True True := by
  unfold pack
  rw [if_pos ⟨by omega, by exact_mod_cast h⟩]
  exact (unpack_consumes h).readsBack.codesBack

/-- A string has at most `2 ^ 32 - 1` bytes. -/
def PrimSized : Value → Prop
  | .string s => StringFits s
  | _ => True

theorem decodeRef_eq {c : Refs} {s q : List UInt8} {v : Value}
    (h : (decodeRef c).run s = .ok (v, q)) :
    v = .null ∨ ∃ i t, v = .ref t ∧ SignedFits 4 i ∧ c.lookup i = some t := by
  obtain ⟨i, r, hi, hrun⟩ := run_bind_eq_ok.mp h
  split at hrun
  · rename_i t ht
    have hrun' : (Except.ok (Value.ref t, r) : Except PyError _) = .ok (v, q) := hrun
    simp only [Except.ok.injEq, Prod.mk.injEq] at hrun'
    exact Or.inr ⟨i, t, hrun'.1.symm, unpackInt_fits hi, ht⟩
  · have hrun' : (Except.ok (Value.null, r) : Except PyError _) = .ok (v, q) := hrun
    simp only [Except.ok.injEq, Prod.mk.injEq] at hrun'
    exact Or.inl hrun'.1.symm

/-- A primitive value is written and read back, unless it is a null reference. -/
theorem encodePrimitive_codesBack {c : Refs} (hc : c.Consistent) {p : Prim} {v : Value}
    (hv : Returns (decodePrimitive c p) v) :
    CodesBack (encodePrimitive c p v) (decodePrimitive c p) v (p = .sample → v ≠ .null)
      (PrimSized v) := by
  obtain ⟨s, q, h⟩ := hv
  cases p with
  | boolean =>
      obtain ⟨i, _, rfl⟩ := run_map_eq_ok.mp h
      -- a boolean is written as one byte
      have hfits : SignedFits 1 (if i ≠ 0 then 1 else 0) := by
        unfold SignedFits
        split <;> norm_num
      have hread := (unpackInt_consumes hfits).map fun v => Value.boolean (v ≠ 0)
      have hb : (Value.boolean (decide ((if i ≠ 0 then (1 : Int) else 0) ≠ 0))) =
          .boolean (i ≠ 0) := by
        by_cases hi : i = 0 <;> simp [hi]
      rw [hb] at hread
      have hw : encodePrimitive c .boolean (.boolean (i ≠ 0)) =
          .ok (bigEndian 1 (unsigned 1 (if i ≠ 0 then 1 else 0))) := by
        unfold encodePrimitive packInt Value.truthy
        by_cases hi : i = 0 <;> simp [hi, SignedFits] <;> rfl
      rw [hw]
      exact hread.readsBack.codesBack.congr (by simp) (by simp [PrimSized])
  | byte =>
      obtain ⟨n, hn, rfl⟩ := run_map_eq_ok.mp h
      -- the bytes are unsigned, the integers are not
      have hinj : ∀ m : Nat, Value.int m = Value.int n → m = n := fun m hm => by
        rw [Value.int.injEq] at hm
        omega
      have hw : encodePrimitive c .byte (.int n) = pack 1 n := by
        rw [encodePrimitive, Value.integer, pure_bind]
      rw [hw]
      exact ((pack_codesBack (unpack_lt hn)).map hinj).congr (by simp) (by simp [PrimSized])
  | short =>
      obtain ⟨i, hi, rfl⟩ := run_map_eq_ok.mp h
      exact ((packInt_codesBack (unpackInt_fits hi)).map (f := Value.int) (by simp)).congr
        (by simp) (by simp [PrimSized])
  | int =>
      obtain ⟨i, hi, rfl⟩ := run_map_eq_ok.mp h
      exact ((packInt_codesBack (unpackInt_fits hi)).map (f := Value.int) (by simp)).congr
        (by simp) (by simp [PrimSized])
  | long =>
      obtain ⟨i, hi, rfl⟩ := run_map_eq_ok.mp h
      exact ((packInt_codesBack (unpackInt_fits hi)).map (f := Value.int) (by simp)).congr
        (by simp) (by simp [PrimSized])
  | float =>
      obtain ⟨n, hn, rfl⟩ := run_map_eq_ok.mp h
      exact ((unpack_consumes (unpack_lt hn)).map Value.float).readsBack.codesBack.congr
        (by simp) (by simp [PrimSized])
  | double =>
      obtain ⟨n, hn, rfl⟩ := run_map_eq_ok.mp h
      exact ((unpack_consumes (unpack_lt hn)).map Value.double).readsBack.codesBack.congr
        (by simp) (by simp [PrimSized])
  | string =>
      obtain ⟨t, _, rfl⟩ := run_map_eq_ok.mp h
      exact ((decodeString_readsBack t).map (f := Value.string) (by simp)).codesBack.congr
        (by simp) Iff.rfl
  | sample =>
      -- a null reference cannot be written; any other is written by its index
      rcases decodeRef_eq h with rfl | ⟨i, t, rfl, hi, ht⟩
      · refine ⟨fun hne => absurd rfl (hne rfl), fun _ bs hbs => ?_⟩
        cases hbs
      · have hw : encodePrimitive c .sample (.ref t) = packInt 4 i := by
          rw [encodePrimitive, hc i t ht, Option.getD_some]
        have hread : Consumes (decodeRef c) (bigEndian 4 (unsigned 4 i) ++ []) (.ref t) := by
          refine (unpackInt_consumes hi).bind ?_
          rw [ht]
          exact Consumes.pure _
        rw [List.append_nil] at hread
        rw [hw, packInt, if_pos hi]
        exact hread.readsBack.codesBack.congr (by simp) (by simp [PrimSized])

/-! ## Arrays -/

/-- Lists of the lengths `ds`, one inside the other, around values with `R`. -/
def Nested (R : Value → Prop) : List Nat → Value → Prop
  | [], v => R v
  | n :: ds, v => ∃ items, v = .list items ∧ items.length = n ∧ ∀ e ∈ items, Nested R ds e

/-- The values that are `n` lists deep. -/
def elements : Nat → Value → List Value
  | 0, v => [v]
  | n + 1, .list items => items.flatMap (elements n)
  | _ + 1, _ => []

theorem decodeValue_nested {p : Parser PyError Value} {ds : List Nat} {s q : List UInt8}
    {v : Value} (h : (decodeValue p ds).run s = .ok (v, q)) : Nested (Returns p) ds v := by
  induction ds generalizing s q v with
  | nil => exact ⟨s, q, h⟩
  | cons n ds ih =>
      obtain ⟨items, hitems, rfl⟩ := run_map_eq_ok.mp h
      exact ⟨items, rfl, times_length hitems, times_forall (fun s e q he => ih he) hitems⟩

theorem Nested.elements {R : Value → Prop} {ds : List Nat} {v : Value} (h : Nested R ds v) :
    ∀ e ∈ elements ds.length v, R e := by
  induction ds generalizing v with
  | nil =>
      intro e he
      rw [List.mem_singleton.mp he]
      exact h
  | cons n ds ih =>
      obtain ⟨items, rfl, _, hitems⟩ := h
      intro e he
      obtain ⟨x, hx, he⟩ := List.mem_flatMap.mp he
      exact ih (hitems x hx) e he

/-- The lists at depth `k` have the length `ds[k]`. -/
theorem Nested.lengths {R : Value → Prop} {ds : List Nat} {v : Value} (h : Nested R ds v)
    {k n : Nat} (hk : ds[k]? = some n) : ∀ m ∈ lengths k v.nest, m = n := by
  induction ds generalizing v k with
  | nil => cases hk
  | cons d ds ih =>
      obtain ⟨items, rfl, hlen, hitems⟩ := h
      rw [Value.nest, nests_eq_map]
      intro m hm
      cases k with
      | zero =>
          rw [List.getElem?_cons_zero, Option.some.injEq] at hk
          rw [lengths_zero_node, List.mem_singleton, List.length_map] at hm
          omega
      | succ k =>
          rw [lengths_succ_node, List.mem_flatMap] at hm
          obtain ⟨t, ht, hm⟩ := hm
          obtain ⟨e, he, rfl⟩ := List.mem_map.mp ht
          exact ih (hitems e he) hk m hm

/-- If there is a list at every depth, the value shows its dimensions. -/
theorem Nested.unique {R R' : Value → Prop} {ds ds' : List Nat} {v : Value} (h : Nested R ds v)
    (h' : Nested R' ds' v) (hlen : ds.length = ds'.length) (hdeep : Deep ds.length v.nest) :
    ds = ds' := by
  apply List.ext_getElem hlen
  intro k hk hk'
  obtain ⟨m, hm⟩ := List.exists_mem_of_ne_nil _ (hdeep k hk)
  have hd := h.lengths (List.getElem?_eq_getElem hk) m hm
  have hd' := h'.lengths (List.getElem?_eq_getElem hk') m hm
  omega

/-! ### Dimensions -/

/-- A fixed index is the dimension. -/
abbrev IndexAdmits (i n : Nat) : Prop := i ≠ 0 → n = i

theorem decodeIndices_admits {indices ds : List Nat} {s q : List UInt8}
    (h : (decodeIndices indices).run s = .ok (ds, q)) : List.Forall₂ IndexAdmits indices ds := by
  induction indices generalizing s q ds with
  | nil =>
      have h' : (Except.ok ([], s) : Except PyError _) = .ok (ds, q) := h
      simp only [Except.ok.injEq, Prod.mk.injEq] at h'
      rw [← h'.1]
      exact List.Forall₂.nil
  | cons i indices ih =>
      unfold decodeIndices at h
      obtain ⟨n, r, hn, hrest⟩ := run_bind_eq_ok.mp h
      obtain ⟨ns, r', hns, hpure⟩ := run_bind_eq_ok.mp hrest
      have hpure' : (Except.ok (n :: ns, r') : Except PyError _) = .ok (ds, q) := hpure
      simp only [Except.ok.injEq, Prod.mk.injEq] at hpure'
      rw [← hpure'.1]
      refine List.Forall₂.cons (fun hi => ?_) (ih hns)
      rw [decodeIndex, if_neg hi] at hn
      have hn' : (Except.ok (i, s) : Except PyError _) = .ok (n, r) := hn
      simp only [Except.ok.injEq, Prod.mk.injEq] at hn'
      exact hn'.1.symm

/-- The variable dimensions have at most 32 bits. -/
def DimsFit (indices ds : List Nat) : Prop :=
  ∀ k n : Nat, indices[k]? = some 0 → ds[k]? = some n → n < 2 ^ 32

theorem dimsFit_cons {i n : Nat} {indices ds : List Nat} :
    DimsFit (i :: indices) (n :: ds) ↔ (i = 0 → n < 2 ^ 32) ∧ DimsFit indices ds := by
  constructor
  · intro h
    refine ⟨fun hi => h 0 n (by simp [hi]) (by simp), fun k m hk hm => h (k + 1) m ?_ ?_⟩
    · simpa using hk
    · simpa using hm
  · rintro ⟨h0, h⟩ k m hk hm
    cases k with
    | zero =>
        simp only [List.getElem?_cons_zero, Option.some.injEq] at hk hm
        have := h0 hk
        omega
    | succ k => exact h k m (by simpa using hk) (by simpa using hm)

theorem encodeDims_codesBack {indices ds : List Nat} (h : List.Forall₂ IndexAdmits indices ds)
    (rest : List Nat) :
    CodesBack (encodeDims indices (ds ++ rest)) (decodeIndices indices) ds True
      (DimsFit indices ds) := by
  induction h with
  | nil =>
      have hnil : DimsFit [] [] := fun k n hk => by simp at hk
      exact (ReadsBack.pure []).codesBack.congr Iff.rfl (by simp [hnil])
  | @cons i n indices ds hi _ ih =>
      have hrest : CodesBack (encodeDims indices (ds ++ rest))
          (do let ns ← decodeIndices indices; pure (n :: ns)) (n :: ds) True
          (DimsFit indices ds) := by
        have hmap := ih.map (f := fun ns => n :: ns) (by simp)
        rwa [map_eq_pure_bind] at hmap
      rw [List.cons_append, encodeDims, decodeIndices, decodeIndex]
      by_cases h0 : i = 0
      · rw [if_pos h0, if_pos h0]
        refine ((decodePacked32_readsBack n).codesBack.bind hrest ?_).congr (by simp) ?_
        · intro _ n' s r q _ hrun
          obtain ⟨ns, r', _, hpure⟩ := run_bind_eq_ok.mp hrun
          have hpure' : (Except.ok (n' :: ns, r') : Except PyError _) = .ok (n :: ds, q) := hpure
          simp only [Except.ok.injEq, Prod.mk.injEq, List.cons.injEq] at hpure'
          exact hpure'.1.1
        · rw [dimsFit_cons]
          simp [h0]
      · rw [if_neg h0, if_neg h0, if_neg (fun hne => hne (hi h0).symm), ← hi h0, pure_bind]
        refine hrest.congr Iff.rfl ?_
        rw [dimsFit_cons, hi h0]
        simp [h0]

theorem mapM_agreed {l : MinMax} (h : ∀ p ∈ l, p.1 = p.2) :
    l.mapM agreed = .ok (l.map Prod.fst) := by
  induction l with
  | nil => rfl
  | cons p l ih =>
      rw [List.mapM_cons, ih fun q hq => h q (List.mem_cons_of_mem _ hq), agreed,
        if_neg (by simp [h p List.mem_cons_self])]
      rfl

theorem eq_of_mapM_agreed {l : MinMax} {r : List Nat} (h : l.mapM agreed = .ok r) :
    ∀ p ∈ l, p.1 = p.2 := by
  induction l generalizing r with
  | nil => simp
  | cons p l ih =>
      rw [List.mapM_cons] at h
      cases hp : agreed p with
      | error e =>
          rw [hp] at h
          cases h
      | ok n =>
          cases hl : l.mapM agreed with
          | error e =>
              rw [hp, hl] at h
              cases h
          | ok ns =>
              intro q hq
              rcases List.mem_cons.mp hq with rfl | hq
              · by_contra hne
                rw [agreed, if_pos hne] at hp
                cases hp
              · exact ih hl q hq

theorem encodeIndices_codesBack {R : Value → Prop} {indices ds : List Nat} {v : Value}
    (hv : Nested R ds v) (hds : List.Forall₂ IndexAdmits indices ds) :
    CodesBack (encodeIndices indices v) (decodeIndices indices) ds
      (Rect v.nest ∧ Deep indices.length v.nest)
      (∀ k, indices[k]? = some 0 → ∀ n ∈ lengths k v.nest, n < 2 ^ 32) := by
  have hlen := hds.length_eq
  constructor
  · rintro ⟨hrect, hdeep⟩
    have hshape : shape v = .ok ((minMaxShape v.nest 0 []).map Prod.fst) :=
      mapM_agreed ((minMaxShape_rect _).mpr hrect)
    have hreach := (minMaxShape_deep _ _).mpr hdeep
    -- the first dimensions found are those that were decoded
    have hfound : ((minMaxShape v.nest 0 []).map Prod.fst).take ds.length = ds := by
      apply List.ext_getElem (by simp; omega)
      intro k hk hk'
      have hmem := minMaxShape_mem v.nest (k := k) (List.getElem?_eq_getElem (by omega))
      simp only [List.getElem_take, List.getElem_map]
      exact hv.lengths (List.getElem?_eq_getElem hk') _ hmem
    have hsplit := List.take_append_drop ds.length ((minMaxShape v.nest 0 []).map Prod.fst)
    rw [hfound] at hsplit
    obtain ⟨bs, hbs, hread⟩ := (encodeDims_codesBack hds
      (((minMaxShape v.nest 0 []).map Prod.fst).drop ds.length)).writes trivial
    refine ⟨bs, ?_, hread.congr ?_⟩
    · unfold encodeIndices
      rw [hshape, ← hbs, hsplit]
      show (if _ then _ else _) = _
      rw [if_neg (by rw [List.length_map]; omega)]
    · constructor
      · intro hfit k hk n hn
        have hkd : k < ds.length := by
          have := (List.getElem?_eq_some_iff.mp hk).1
          omega
        rw [hv.lengths (List.getElem?_eq_getElem hkd) n hn]
        exact hfit k _ hk (List.getElem?_eq_getElem hkd)
      · intro hfit k n hk hn
        obtain ⟨m, hm⟩ := List.exists_mem_of_ne_nil _
          (hdeep k (List.getElem?_eq_some_iff.mp hk).1)
        rw [← hv.lengths hn m hm]
        exact hfit k hk m hm
  · intro hn bs hbs
    unfold encodeIndices at hbs
    cases hshape : shape v with
    | error e =>
        rw [hshape] at hbs
        cases hbs
    | ok r =>
        rw [hshape] at hbs
        have hrect := eq_of_mapM_agreed hshape
        have hr : r = (minMaxShape v.nest 0 []).map Prod.fst := by
          have h := mapM_agreed hrect
          rw [shape, h] at hshape
          exact (Except.ok.inj hshape).symm
        have hbs' : (if r.length < indices.length then throw PyError.exception
            else encodeDims indices r) = Except.ok bs := hbs
        split at hbs'
        · cases hbs'
        · rename_i hreach
          rw [hr, List.length_map, not_lt] at hreach
          exact hn ⟨(minMaxShape_rect _).mp hrect, (minMaxShape_deep _ _).mp hreach⟩

/-! ### Elements -/

theorem encodeValue_codesBack {enc : Value → Written} {p : Parser PyError Value}
    {E S : Value → Prop} (h : ∀ e, Returns p e → CodesBack (enc e) p e (E e) (S e))
    {ds : List Nat} {v : Value} (hv : Nested (Returns p) ds v) :
    CodesBack (encodeValue enc ds.length v) (decodeValue p ds) v
      (∀ e ∈ elements ds.length v, E e) (∀ e ∈ elements ds.length v, S e) := by
  induction ds generalizing v with
  | nil => exact (h v hv).congr (by simp [elements]) (by simp [elements])
  | cons n ds ih =>
      obtain ⟨items, rfl, rfl, hitems⟩ := hv
      have hloop := CodesBack.writeEach fun e he => ih (hitems e he)
      refine (hloop.map (f := Value.list) (by simp)).congr ?_ ?_
      · simp only [List.length_cons, elements, List.mem_flatMap]
        exact ⟨fun h e ⟨x, hx, he⟩ => h x hx e he, fun h x hx e he => h e ⟨x, hx, he⟩⟩
      · simp only [List.length_cons, elements, List.mem_flatMap]
        exact ⟨fun h e ⟨x, hx, he⟩ => h x hx e he, fun h x hx e he => h e ⟨x, hx, he⟩⟩

/-! ## Structs -/

/-- The intentions of the fields. -/
def Fields.intentions : Fields String → List (Intentions String)
  | nil => []
  | cons intentions _ rest => intentions :: rest.intentions

/-- The value of a field. -/
def Value.field (intentions : Intentions String) : Value → Value
  | object items => (getItem intentions items).getD null
  | _ => null

/-- The names are those of the fields, and they are distinct. -/
def Fields.NamesDistinct (field : Fields String) : Prop :=
  none ∉ field.intentions.map fieldName ∧ (field.intentions.map fieldName).Nodup

theorem Fields.NamesDistinct.nodup {field : Fields String} (h : field.NamesDistinct) :
    field.intentions.Nodup := List.Nodup.of_map _ h.2

theorem Fields.NamesDistinct.tail {intentions : Intentions String} {decl : Decl String}
    {rest : Fields String} (h : (Fields.cons intentions decl rest).NamesDistinct) :
    rest.NamesDistinct := by
  unfold NamesDistinct at *
  simp only [Fields.intentions, List.map_cons, List.mem_cons, not_or, List.nodup_cons] at h
  exact ⟨h.1.2, h.2.2⟩

/-- Decoding a struct sets the keys of its fields, in order. -/
theorem decodeFields_keys {c : Refs} {field : Fields String} (hf : field.intentions.Nodup)
    {obj items : List (Intentions String × Value)} {s q : List UInt8}
    (h : (decodeFields c field obj).run s = .ok (items, q)) :
    (∀ k, k ∉ field.intentions → getItem k items = getItem k obj) ∧
      ((obj.map Prod.fst).Disjoint field.intentions →
        items.map Prod.fst = obj.map Prod.fst ++ field.intentions) := by
  match field with
  | .nil =>
      have h' : (Except.ok (obj, s) : Except PyError _) = .ok (items, q) := h
      simp only [Except.ok.injEq, Prod.mk.injEq] at h'
      rw [← h'.1]
      simp [Fields.intentions]
  | .cons intentions decl rest =>
      unfold decodeFields at h
      obtain ⟨v, r, _, hrest⟩ := run_bind_eq_ok.mp h
      rw [Fields.intentions, List.nodup_cons] at hf
      obtain ⟨hget, hkeys⟩ := decodeFields_keys hf.2 hrest
      constructor
      · intro k hk
        rw [Fields.intentions, List.mem_cons, not_or] at hk
        rw [hget k hk.2, getItem_setItem, if_neg hk.1]
      · intro hdisj
        rw [Fields.intentions, List.disjoint_cons_right] at hdisj
        rw [setItem_of_not_mem v hdisj.1] at hkeys
        rw [hkeys, Fields.intentions]
        · simp
        · rw [List.map_append, List.map_singleton, List.disjoint_append_left,
            List.singleton_disjoint]
          exact ⟨hdisj.2, hf.1⟩

/-- The items by their names, which have the same values. -/
theorem namedItems_spec {items : List (Intentions String × Value)}
    (hnamed : none ∉ items.map fun p => fieldName p.1)
    (hdistinct : (items.map fun p => fieldName p.1).Nodup) :
    ∃ l, namedItems items = .ok l ∧ l.map (fun p => some p.1) = items.map (fun p => fieldName p.1) ∧
      ∀ k v name, getItem k items = some v → fieldName k = some name → getItem name l = some v := by
  induction items with
  | nil => exact ⟨[], rfl, rfl, fun k v name h => by cases h⟩
  | cons p items ih =>
      rw [List.map_cons, List.mem_cons, not_or] at hnamed
      rw [List.map_cons, List.nodup_cons] at hdistinct
      obtain ⟨l, hl, hkeys, hget⟩ := ih hnamed.2 hdistinct.2
      obtain ⟨n, hn⟩ := Option.ne_none_iff_exists'.mp fun h => hnamed.1 h.symm
      refine ⟨(n, p.2) :: l, ?_, ?_, ?_⟩
      · rw [namedItems, hn, hl]
        rfl
      · rw [List.map_cons, List.map_cons, hkeys, hn]
      · intro k v name hk hname
        rw [getItem_cons] at hk ⊢
        split at hk
        · rename_i heq
          rw [← heq, hn, Option.some.injEq] at hname
          rw [if_pos hname]
          exact hk
        · have hmem := mem_of_getItem hk
          rw [if_neg]
          · exact hget k v name hk hname
          · intro heq
            apply hdistinct.1
            rw [hn]
            rw [show some n = fieldName k by rw [hname, ← heq]]
            exact List.mem_map.mpr ⟨(k, v), hmem, rfl⟩

/-- The dictionary `tmp_obj` finds the value of each field under its name. -/
theorem tmpObj_spec {items : List (Intentions String × Value)} {field : Fields String}
    (hkeys : items.map Prod.fst = field.intentions) (hf : field.NamesDistinct) :
    ∃ tmp_obj, tmpObj (.object items) = .ok tmp_obj ∧ ∀ k ∈ field.intentions, ∀ name,
      fieldName k = some name → getItem name tmp_obj = some ((Value.object items).field k) := by
  have hnames : (items.map fun p => fieldName p.1) = field.intentions.map fieldName := by
    rw [← hkeys, List.map_map]
    rfl
  obtain ⟨l, hl, hkeysl, hget⟩ := namedItems_spec (hnames ▸ hf.1) (hnames ▸ hf.2)
  have hnodup : (l.map Prod.fst).Nodup := by
    have h := hf.2
    rw [← hnames, ← hkeysl] at h
    exact List.Nodup.of_map some (by rwa [List.map_map])
  refine ⟨l, ?_, ?_⟩
  · rw [tmpObj, hl]
    exact congrArg Except.ok (dict_of_nodup hnodup)
  · intro k hk name hname
    rw [← hkeys] at hk
    obtain ⟨v, hv⟩ := exists_getItem hk
    rw [hget k v name hv hname, Value.field, hv, Option.getD_some]

/-! ## The conditions -/

mutual

/-- The fields of every struct have names, and distinct ones. -/
def Named : Decl String → Prop
  | .primitive _ => True
  | .array _ decl => Named decl
  | .struct field => field.NamesDistinct ∧ FieldsNamed field

/-- The same of the declarations of the fields. -/
def FieldsNamed : Fields String → Prop
  | .nil => True
  | .cons _ decl rest => Named decl ∧ FieldsNamed rest

end

mutual

/-- The value has no null reference, and for each array in it: what is found at the same depth
has the same length, and only the last dimension is 0. -/
def Encodable : Decl String → Value → Prop
  | .primitive p => fun v => p = .sample → v ≠ .null
  | .array indices decl => fun v => (Rect v.nest ∧ Deep indices.length v.nest) ∧
      ∀ e ∈ elements indices.length v, Encodable decl e
  | .struct field => FieldsEncodable field

/-- The same of the fields of an object. -/
def FieldsEncodable : Fields String → Value → Prop
  | .nil => fun _ => True
  | .cons intentions decl rest => fun obj =>
      Encodable decl (obj.field intentions) ∧ FieldsEncodable rest obj

end

mutual

/-- Variable dimensions and the lengths of strings have at most 32 bits. -/
def Sized : Decl String → Value → Prop
  | .primitive _ => PrimSized
  | .array indices decl => fun v =>
      (∀ k, indices[k]? = some 0 → ∀ n ∈ lengths k v.nest, n < 2 ^ 32) ∧
        ∀ e ∈ elements indices.length v, Sized decl e
  | .struct field => FieldsSized field

/-- The same of the fields of an object. -/
def FieldsSized : Fields String → Value → Prop
  | .nil => fun _ => True
  | .cons intentions decl rest => fun obj =>
      Sized decl (obj.field intentions) ∧ FieldsSized rest obj

end

/-! ## The round trip -/

theorem encodeFields_getattr {c : Refs} {field : Fields String} (obj : Value)
    (h : field ≠ .nil) (bs : List UInt8) : encodeFields c field (getattr obj) ≠ .ok bs := by
  cases field with
  | nil => exact absurd rfl h
  | cons intentions decl rest =>
      unfold encodeFields
      cases fieldName intentions with
      | none => exact fun h => by cases h
      | some name =>
          have hraise : ∃ e, getattr obj name = .error e := by
            unfold getattr
            split
            · split <;> exact ⟨_, rfl⟩
            · exact ⟨_, rfl⟩
          obtain ⟨e, he⟩ := hraise
          show (getattr obj name >>= _) ≠ _
          rw [he]
          exact fun h => by cases h

variable {c : Refs}

mutual

theorem encode_codesBack (hc : c.Consistent) (d : Decl String) (hn : Named d) {v : Value}
    (hv : Returns (decode c d) v) :
    CodesBack (encode c d v) (decode c d) v (Encodable d v) (Sized d v) := by
  match d with
  | .primitive p =>
      unfold decode at hv ⊢
      exact encodePrimitive_codesBack hc hv
  | .array indices decl =>
      obtain ⟨s, q, h⟩ := hv
      unfold decode at h
      obtain ⟨ds, r, hds, hval⟩ := run_bind_eq_ok.mp h
      have hadmits := decodeIndices_admits hds
      have hnested := decodeValue_nested hval
      have hvalue := encodeValue_codesBack
        (fun e he => encode_codesBack hc decl hn he) hnested
      rw [← hadmits.length_eq] at hvalue
      unfold decode
      refine (encodeIndices_codesBack hnested hadmits).bind hvalue ?_
      intro hE ds' s' r' q' hds' hval'
      have hlen := (decodeIndices_admits hds').length_eq
      refine (decodeValue_nested hval').unique hnested ?_ ?_
      · rw [← hlen, hadmits.length_eq]
      · rw [← hlen]
        exact hE.2
  | .struct field =>
      obtain ⟨s, q, h⟩ := hv
      unfold decode at h
      obtain ⟨items, hitems, rfl⟩ := run_map_eq_ok.mp h
      -- the keys of the object are the names of the fields
      have hkeys := (decodeFields_keys hn.1.nodup hitems).2 (by simp)
      obtain ⟨tmp_obj, htmp, hlookup⟩ := tmpObj_spec (by simpa using hkeys) hn.1
      have hfields := encodeFields_codesBack hc field hn.2 hn.1 hitems
        (fun name => orKeyError (getItem name tmp_obj)) fun k hk name hname => by
          rw [hlookup k hk name hname]
          rfl
      -- the fields are looked up in the temporary object first
      have hbody : (do
          let tmp_obj ← tmpObj (.object items)
          encodeFields c field fun name => orKeyError (getItem name tmp_obj)) =
          encodeFields c field fun name => orKeyError (getItem name tmp_obj) := by
        rw [htmp]
        rfl
      unfold decode
      constructor
      · intro hE
        obtain ⟨bs, hbs, hread⟩ := hfields.writes hE
        refine ⟨bs, ?_, hread.map (by simp)⟩
        unfold encode
        rw [hbody, hbs]
      · intro hE bs hbs
        unfold encode at hbs
        rw [hbody] at hbs
        split at hbs
        · -- the fallback looks for attributes of the object, and there are fields
          refine encodeFields_getattr _ ?_ bs hbs
          rintro rfl
          exact hE trivial
        · exact hfields.fails hE bs hbs

theorem encodeFields_codesBack (hc : c.Consistent) (field : Fields String)
    (hn : FieldsNamed field) (hd : field.NamesDistinct)
    {obj items : List (Intentions String × Value)} {s q : List UInt8}
    (h : (decodeFields c field obj).run s = .ok (items, q))
    (lookup : String → Except PyError Value)
    (hlookup : ∀ k ∈ field.intentions, ∀ name, fieldName k = some name →
      lookup name = .ok ((Value.object items).field k)) :
    CodesBack (encodeFields c field lookup) (decodeFields c field obj) items
      (FieldsEncodable field (.object items)) (FieldsSized field (.object items)) := by
  match field with
  | .nil =>
      have h' : (Except.ok (obj, s) : Except PyError _) = .ok (items, q) := h
      simp only [Except.ok.injEq, Prod.mk.injEq] at h'
      rw [← h'.1]
      exact (ReadsBack.pure obj).codesBack
  | .cons intentions decl rest =>
      unfold decodeFields at h
      obtain ⟨v, r, hv, hrest⟩ := run_bind_eq_ok.mp h
      have hnodup := hd.nodup
      rw [Fields.intentions, List.nodup_cons] at hnodup
      -- the fields that follow do not set this key again
      have hget : ∀ {a s q}, (decodeFields c rest (setItem intentions a obj)).run s =
          .ok (items, q) → getItem intentions items = some a := by
        intro a s q hrun
        rw [(decodeFields_keys hnodup.2 hrun).1 _ hnodup.1, getItem_setItem, if_pos rfl]
      have hvalue : (Value.object items).field intentions = v := by
        rw [Value.field, hget hrest, Option.getD_some]
      obtain ⟨name, hname⟩ := Option.ne_none_iff_exists'.mp fun hnone : fieldName intentions = none =>
        hd.1 (by simp [Fields.intentions, hnone])
      have hwrite : encodeFields c (.cons intentions decl rest) lookup = (do
          let bs ← encode c decl v
          let more ← encodeFields c rest lookup
          pure (bs ++ more)) := by
        conv_lhs => unfold encodeFields
        rw [hname]
        show (lookup name >>= _) = _
        rw [hlookup intentions (by simp [Fields.intentions]) name hname, hvalue]
        rfl
      have hfirst := encode_codesBack hc decl hn.1 ⟨s, r, hv⟩
      have hmore := encodeFields_codesBack hc rest hn.2 hd.tail hrest lookup
        fun k hk => hlookup k (by simp [Fields.intentions, hk])
      rw [hwrite]
      unfold decodeFields FieldsEncodable FieldsSized
      rw [hvalue]
      refine hfirst.bind hmore ?_
      intro _ a s r q _ hrun
      have ha := hget hrun
      rw [hget hrest, Option.some.injEq] at ha
      exact ha.symm

end

/-- Encoding `v` succeeds, and decoding reads just what was written and returns `v`. -/
def RoundTrips (c : Refs) (d : Decl String) (v : Value) : Prop :=
  ∃ bs, encode c d v = .ok bs ∧ Consumes (decode c d) bs v

/-- **A decoded value can be encoded and decoded again** if and only if its arrays have the shape
that `array.shape` accepts, it has no null references, and its lengths have at most 32 bits. -/
theorem roundTrips_iff (samples : List (SampleDef String)) (d : Decl String) (hn : Named d)
    (v : Value) (hv : Returns (decode (refs samples) d) v) :
    RoundTrips (refs samples) d v ↔ Encodable d v ∧ Sized d v :=
  (encode_codesBack (refs_consistent samples) d hn hv).iff

/-- A struct with an array in it. -/
theorem roundTrips_struct : RoundTrips (refs [])
    (.struct (.cons [("", "a")] (.array [0] (.primitive .byte)) .nil))
    (.object [([("", "a")], .list [.int 1, .int 2])]) := by
  have hrect : Rect (.node [.leaf, .leaf]) := (minMaxShape_rect _).mp (by decide)
  have hdeep : Deep 1 (.node [.leaf, .leaf]) := (minMaxShape_deep _ _).mp (by decide)
  have hdims : ∀ k, [0][k]? = some 0 → ∀ n ∈ lengths k (.node [.leaf, .leaf]), n < 2 ^ 32 := by
    intro k hk n hn
    cases k with
    | zero =>
        rw [lengths_zero_node, List.mem_singleton] at hn
        simp only [hn, List.length_cons, List.length_nil]
        norm_num
    | succ k => simp at hk
  refine (roundTrips_iff [] (.struct (.cons [("", "a")] (.array [0] (.primitive .byte)) .nil))
    ⟨⟨by decide, by decide⟩, trivial, trivial⟩ _ ⟨[2, 1, 2], [], rfl⟩).mpr
    ⟨⟨⟨⟨hrect, hdeep⟩, ?_⟩, trivial⟩, ⟨⟨hdims, ?_⟩, trivial⟩⟩
  · intro e _ hprim
    cases hprim
  · intro e he
    rcases List.mem_cons.mp he with rfl | he
    · trivial
    · rw [List.mem_singleton.mp he]
      trivial

/-- An array of arrays of different lengths is decoded, and cannot be encoded. -/
theorem not_roundTrips_ragged :
    Named (.array [0] (.array [0] (.primitive .byte))) ∧
      Returns (decode (refs []) (.array [0] (.array [0] (.primitive .byte))))
        (.list [.list [.int 7], .list []]) ∧
      ¬ RoundTrips (refs []) (.array [0] (.array [0] (.primitive .byte)))
        (.list [.list [.int 7], .list []]) := by
  refine ⟨trivial, ⟨[2, 1, 7, 0], [], rfl⟩, ?_⟩
  rintro ⟨bs, hbs, _⟩
  cases hbs

/-- An array without rows, and a null reference. -/
example : encode (refs []) (.array [0, 3] (.primitive .byte)) (.list []) = .error .exception ∧
    encode (refs []) (.primitive .sample) .null = .error .AttributeError := ⟨rfl, rfl⟩

end LabComm.Python
