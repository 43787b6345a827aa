import LabComm.C.RoundTrip
import LabComm.Compiler.PythonSignature
import LabComm.Library.Rows
import LabComm.Python.RoundTrip

set_option autoImplicit false

/-! # Python values and the wire format

The Python value that corresponds to a C value is decoded from the bytes that the C encoder writes
(`decode_consumes`), and encoded as these bytes if the shape of its arrays can be found
(`encode_eq`). The declaration is the one that the compiler prints (`Describes`).
-/

namespace LabComm.Python

open Library

/-! ## Declarations -/

mutual

/-- A declaration for the values of a type, whatever the intentions of its fields are. A fixed
index of 0 would stand for a variable one. -/
def Describes {S : Type} : DataType → Decl S → Prop
  | .void, d => d = .struct .nil
  | .prim p, d => d = .primitive p
  | .user _ type, d => Describes type d
  | .struct fields, d => ∃ field, d = .struct field ∧ FieldsDescribe fields field
  | .array elem dim, d => ∃ decl, d = .array (dim.map Compiler.pythonGetValue) decl ∧
      Exp.integerLiteral 0 ∉ dim ∧ Describes elem decl

/-- The same of the fields. -/
def FieldsDescribe {S : Type} : LabComm.Fields → Fields S → Prop
  | .nil, field => field = .nil
  | .cons _ _ type rest, field => ∃ intentions decl more,
      field = .cons intentions decl more ∧ Describes type decl ∧ FieldsDescribe rest more

end

mutual

/-- No fixed index in the type is 0. -/
def FixedIndices : DataType → Prop
  | .void => True
  | .prim _ => True
  | .user _ type => FixedIndices type
  | .struct fields => FieldsFixedIndices fields
  | .array elem dim => Exp.integerLiteral 0 ∉ dim ∧ FixedIndices elem

/-- The same of the fields. -/
def FieldsFixedIndices : LabComm.Fields → Prop
  | .nil => True
  | .cons _ _ type rest => FixedIndices type ∧ FieldsFixedIndices rest

end

mutual

/-- The declaration that the compiler prints is one for the type. -/
theorem pythonGenSignature_describes (t : DataType) {d : Decl (List UInt8)}
    (h : Compiler.pythonGenSignature t = some d) (ht : FixedIndices t) : Describes t d := by
  cases t with
  | void => exact (Option.some.inj h).symm
  | prim p => exact (Option.some.inj h).symm
  | user name type => exact pythonGenSignature_describes type h ht
  | struct fields =>
      unfold Compiler.pythonGenSignature at h
      obtain ⟨field, hfield, rfl⟩ := Option.map_eq_some_iff.mp h
      exact ⟨field, rfl, pythonGenFields_describe fields hfield ht⟩
  | array elem dim =>
      unfold Compiler.pythonGenSignature at h
      obtain ⟨decl, hdecl, rfl⟩ := Option.map_eq_some_iff.mp h
      exact ⟨decl, rfl, ht.1, pythonGenSignature_describes elem hdecl ht.2⟩

theorem pythonGenFields_describe (fields : LabComm.Fields) {field : Fields (List UInt8)}
    (h : Compiler.pythonGenFields fields = some field) (ht : FieldsFixedIndices fields) :
    FieldsDescribe fields field := by
  cases fields with
  | nil => exact (Option.some.inj h).symm
  | cons name intentions type rest =>
      unfold Compiler.pythonGenFields at h
      simp only [Option.bind_eq_bind, Option.bind_eq_some_iff] at h
      obtain ⟨is, _, decl, hdecl, more, hmore, hpure⟩ := h
      exact ⟨is, decl, more, (Option.some.inj hpure).symm,
        pythonGenSignature_describes type hdecl ht.1, pythonGenFields_describe rest hmore ht.2⟩

end

/-! ## Corresponding values -/

variable (c : Refs) (refs : RefTables)

/-- The same primitive value in C and in Python. A reference has the same index, and is null on both
sides if there is none. -/
def PrimCorresponds : Prim → LabComm.Value → Value → Prop
  | .boolean, .bits n, .boolean b => n = if b then 1 else 0
  | .byte, .bits n, .int i => i = n ∧ n < 256
  | .short, .bits n, .int i => n = unsigned 2 i ∧ SignedFits 2 i
  | .int, .bits n, .int i => n = unsigned 4 i ∧ SignedFits 4 i
  | .long, .bits n, .int i => n = unsigned 8 i ∧ SignedFits 8 i
  | .float, .bits n, .float bits => n = bits ∧ bits < 256 ^ 4
  | .double, .bits n, .double bits => n = bits ∧ bits < 256 ^ 8
  | .string, .string s, .string t => s = utf8 t ∧ s.length < 2 ^ 31
  | .sample, .ref s, .ref sample => ∃ index, getItem (some sample.key) c.ref_to_index = some index ∧
      c.lookup index = some sample ∧ SignedFits 4 index ∧
      toUnsigned (refs.toIndex s) = unsigned 4 index
  | .sample, .ref s, .null => s = none ∧ c.lookup 0 = none
  | _, _, _ => False

/-- The list of lists with the dimensions `ns` that has the elements `a`. -/
abbrev rows (ns : List Nat) (a : List Value) : Value := rowsOf .list .null ns a

mutual

/-- The same value in C and in Python. -/
def Corresponds : DataType → Decl String → LabComm.Value → Value → Prop
  | .void, _, v, w => v = .unset ∧ w = .object []
  | .prim p, _, v, w => PrimCorresponds c refs p v w
  | .user _ type, d, v, w => Corresponds type d v w
  | .struct fields, .struct field, .struct vs, .object items =>
      FieldsCorrespond fields field vs items
  | .array elem _, .array _ decl, .array n a, w => ∃ b, w = rows (n.map Int.toNat) b ∧
      List.Forall₂ (Corresponds elem decl) a b
  | _, _, _, _ => False

/-- The same of the fields, which are items of a dictionary. -/
def FieldsCorrespond : LabComm.Fields → Fields String → List LabComm.Value →
    List (Intentions String × Value) → Prop
  | .nil, .nil, [], [] => True
  | .cons _ _ type rest, .cons intentions decl more, v :: vs, p :: items =>
      p.1 = intentions ∧ Corresponds type decl v p.2 ∧ FieldsCorrespond rest more vs items
  | _, _, _, _ => False

end

variable {c refs}

/-! ## Primitive values -/

theorem decodeString_wire {t : String} (h : (utf8 t).length < 2 ^ 31) :
    Consumes decodeString (packed32 (utf8 t).length ++ utf8 t) t := by
  have hread := (decodeString_readsBack t).consumes (show StringFits t by unfold StringFits; omega)
  rwa [stringBytes, encodePacked32, Nat.mod_eq_of_lt (by omega)] at hread

theorem decodePrimitive_wire {p : Prim} {v : LabComm.Value} {w : Value}
    (hc : PrimCorresponds c refs p v w) :
    Consumes (decodePrimitive c p) (wire refs (.prim p) v) w := by
  cases p <;> cases v <;> cases w <;> try exact hc.elim
  case boolean n b =>
      obtain rfl : n = if b then 1 else 0 := hc
      have hread := (unpackInt_consumes (w := 1) (i := if b then 1 else 0) (by
        cases b <;> decide)).map fun i => Value.boolean (i ≠ 0)
      cases b <;> exact hread
  case byte n i =>
      obtain ⟨rfl, hn⟩ := hc
      exact (unpack_consumes (w := 1) hn).map fun v : Nat => Value.int v
  case short n i | int n i | long n i =>
      obtain ⟨rfl, hi⟩ := hc
      exact (unpackInt_consumes hi).map Value.int
  case float n bits | double n bits =>
      obtain ⟨rfl, hbits⟩ := hc
      exact (unpack_consumes hbits).map _
  case string s t =>
      obtain ⟨rfl, hlen⟩ := hc
      exact (decodeString_wire hlen).map Value.string
  -- the index leads back to the sample
  case sample.ref.ref s sample =>
      obtain ⟨index, _, hlookup, hfits, hindex⟩ := hc
      have hread : Consumes (decodeRef c) (bigEndian 4 (unsigned 4 index) ++ []) (.ref sample) := by
        refine (unpackInt_consumes hfits).bind ?_
        rw [hlookup]
        exact Consumes.pure _
      rw [List.append_nil] at hread
      unfold wire
      rw [hindex]
      exact hread
  -- no sample has the index zero
  case sample.ref.null s =>
      obtain ⟨rfl, hnone⟩ := hc
      have hread : Consumes (decodeRef c) (bigEndian 4 (unsigned 4 0) ++ []) .null := by
        refine (unpackInt_consumes (by decide)).bind ?_
        rw [hnone]
        exact Consumes.pure _
      rw [List.append_nil] at hread
      unfold wire
      rw [refs.toIndex_none]
      exact hread

theorem encodePrimitive_wire {p : Prim} {v : LabComm.Value} {w : Value}
    (hc : PrimCorresponds c refs p v w) (hw : p = .sample → w ≠ .null) :
    encodePrimitive c p w = .ok (wire refs (.prim p) v) := by
  cases p <;> cases v <;> cases w <;> try exact hc.elim
  case boolean n b =>
      obtain rfl : n = if b then 1 else 0 := hc
      show packInt 1 (if b then 1 else 0) = _
      unfold packInt
      cases b <;> rw [if_pos (by decide)] <;> rfl
  case byte n i =>
      obtain ⟨rfl, hn⟩ := hc
      rw [encodePrimitive, Value.integer, pure_bind, pack,
        if_pos ⟨by omega, by exact_mod_cast hn⟩, Int.toNat_natCast]
      rfl
  case short n i | int n i | long n i =>
      obtain ⟨rfl, hi⟩ := hc
      rw [encodePrimitive, Value.integer, pure_bind, packInt, if_pos hi]
      rfl
  case float n bits | double n bits =>
      obtain ⟨rfl, _⟩ := hc
      rfl
  case string s t =>
      obtain ⟨rfl, hlen⟩ := hc
      show Except.ok (stringBytes t) = _
      rw [stringBytes, encodePacked32, Nat.mod_eq_of_lt (by omega)]
      rfl
  case sample.ref.ref s sample =>
      obtain ⟨index, hkey, _, hfits, hindex⟩ := hc
      show packInt 4 ((getItem (some sample.key) c.ref_to_index).getD 0) = _
      unfold packInt wire
      rw [hkey, Option.getD_some, if_pos hfits, hindex]
      rfl
  case sample.ref.null s => exact absurd rfl (hw rfl)

/-! ## Arrays -/

theorem pythonGetValue_ne {dim : List Exp} {e : Exp} (h : Exp.integerLiteral 0 ∉ e :: dim) :
    e = .variableSize ∨ ∃ value, e = .integerLiteral value ∧ value ≠ 0 := by
  cases e with
  | variableSize => exact .inl rfl
  | integerLiteral value =>
      refine .inr ⟨value, rfl, ?_⟩
      rintro rfl
      exact h List.mem_cons_self

/-- The lengths are read as they are written. -/
theorem decodeIndices_wire {dim : List Exp} {n : List Int} (hn : List.Forall₂ Exp.Admits dim n)
    (hzero : Exp.integerLiteral 0 ∉ dim) :
    Consumes (decodeIndices (dim.map Compiler.pythonGetValue)) (wireDims dim n)
      (n.map Int.toNat) := by
  induction hn with
  | nil => exact Consumes.pure []
  | @cons e i dim n hi _ ih =>
      have hrest := (ih fun h => hzero (List.mem_cons_of_mem _ h)).bind
        (f := fun ns => pure (i.toNat :: ns)) (Consumes.pure _)
      rw [List.append_nil] at hrest
      rw [List.map_cons, List.map_cons, decodeIndices, decodeIndex]
      rcases pythonGetValue_ne hzero with rfl | ⟨value, rfl, hvalue⟩
      · -- 0 stands for a variable length
        have hlt := hi.2
        have hunsigned : toUnsigned i = i.toNat := by
          have hcast := toUnsigned_of_nonneg hi.1 (by omega)
          omega
        have hread := decodePacked32_consumes i.toNat
        rw [encodePacked32, Nat.mod_eq_of_lt (by omega)] at hread
        rw [Compiler.pythonGetValue, if_pos rfl, wireDims, hunsigned]
        exact hread.bind hrest
      · cases hi
        rw [Compiler.pythonGetValue, if_neg hvalue, pure_bind]
        exact hrest

/-- The lengths that are found are written, except the fixed ones. -/
theorem encodeDims_wire {dim : List Exp} {n : List Int} (hn : List.Forall₂ Exp.Admits dim n)
    (hzero : Exp.integerLiteral 0 ∉ dim) (rest : List Nat) :
    encodeDims (dim.map Compiler.pythonGetValue) (n.map Int.toNat ++ rest) =
      .ok (wireDims dim n) := by
  induction hn with
  | nil => cases rest <;> rfl
  | @cons e i dim n hi _ ih =>
      have hrest := ih fun h => hzero (List.mem_cons_of_mem _ h)
      rw [List.map_cons, List.map_cons, List.cons_append, encodeDims]
      rcases pythonGetValue_ne hzero with rfl | ⟨value, rfl, hvalue⟩
      · have hlt := hi.2
        have hunsigned : toUnsigned i = i.toNat := by
          have hcast := toUnsigned_of_nonneg hi.1 (by omega)
          omega
        rw [Compiler.pythonGetValue, if_pos rfl, hrest, wireDims, hunsigned, encodePacked32,
          Nat.mod_eq_of_lt (by omega)]
        rfl
      · cases hi
        rw [Compiler.pythonGetValue, if_neg hvalue, Int.toNat_natCast, if_neg (by simp), hrest]
        rfl

/-- `encode_indices` finds the dimensions of the array. -/
theorem encodeIndices_wire {R : Value → Prop} {dim : List Exp} {n : List Int} {w : Value}
    (hw : Nested R (n.map Int.toNat) w) (hn : List.Forall₂ Exp.Admits dim n)
    (hzero : Exp.integerLiteral 0 ∉ dim) (hrect : Rect w.nest) (hdeep : Deep dim.length w.nest) :
    encodeIndices (dim.map Compiler.pythonGetValue) w = .ok (wireDims dim n) := by
  have hlen := hn.length_eq
  have hreach := (minMaxShape_deep _ _).mpr hdeep
  have hfound : ((minMaxShape w.nest 0 []).map Prod.fst).take n.length = n.map Int.toNat := by
    apply List.ext_getElem
    · simp only [List.length_take, List.length_map]
      omega
    · intro k hk hk'
      have hmem := minMaxShape_mem w.nest (k := k) (List.getElem?_eq_getElem (by
        rw [List.length_map] at hk'
        omega))
      simp only [List.getElem_take, List.getElem_map]
      have hlengths := hw.lengths (List.getElem?_eq_getElem hk') _ hmem
      rwa [List.getElem_map] at hlengths
  have hsplit := List.take_append_drop n.length ((minMaxShape w.nest 0 []).map Prod.fst)
  rw [hfound] at hsplit
  have hshape : shape w = .ok ((minMaxShape w.nest 0 []).map Prod.fst) :=
    mapM_agreed ((minMaxShape_rect _).mpr hrect)
  unfold encodeIndices
  rw [hshape]
  show (if _ then _ else _) = _
  rw [List.length_map, List.length_map, if_neg (by omega), ← hsplit]
  exact encodeDims_wire hn hzero _

theorem decodeValue_eq (p : Parser PyError Value) (ns : List Nat) :
    decodeValue p ns = timesRows .list p ns := by
  induction ns with
  | nil => rfl
  | cons n ns ih =>
      rw [decodeValue, ih]
      rfl

/-- The items of a list. -/
def Value.items : Value → List Value
  | list items => items
  | _ => []

theorem elements_eq (n : Nat) (v : Value) : elements n v = leaves Value.items n v := by
  induction n generalizing v with
  | zero => rfl
  | succ n ih =>
      have hfun : elements n = leaves Value.items n := funext ih
      cases v <;> first | rfl | exact congrArg (List.flatMap · _) hfun

theorem rows_nested {R : Value → Prop} {ns : List Nat} {a : List Value} (hlen : a.length = ns.prod)
    (h : ∀ x ∈ a, R x) : Nested R ns (rows ns a) :=
  rowsOf_induction (P := Nested R) (fun _ hx => hx)
    (fun _ _ items hitems hall => ⟨items, rfl, hitems, hall⟩) hlen h

theorem elements_rows {ns : List Nat} {a : List Value} (hlen : a.length = ns.prod) :
    elements ns.length (rows ns a) = a := by
  rw [elements_eq]
  exact leaves_rowsOf (fun _ => rfl) hlen

/-- The loops of `encode_value` write the elements in order. -/
theorem encodeValue_eq {R : Value → Prop} (encode : Value → Written) {ds : List Nat} {v : Value}
    (h : Nested R ds v) :
    encodeValue encode ds.length v = writeEach encode (elements ds.length v) := by
  induction ds generalizing v with
  | nil => exact (writeEach_singleton encode v).symm
  | cons n ds ih =>
      obtain ⟨items, rfl, _, hitems⟩ := h
      rw [List.length_cons, encodeValue, elements, writeEach_flatMap]
      exact writeEach_congr fun x hx => ih (hitems x hx)

/-! ## Values of all types -/

variable {R : Option Nat → Prop}

/-- The items of a dictionary have the intentions of the fields. -/
theorem FieldsCorrespond.keys {fields : LabComm.Fields} {field : Fields String}
    {vs : List LabComm.Value} {items : List (Intentions String × Value)}
    (h : FieldsCorrespond c refs fields field vs items) :
    items.map Prod.fst = field.intentions := by
  cases fields <;> cases field <;> cases vs <;> cases items <;> try exact h.elim
  case nil.nil.nil.nil => rfl
  case cons.cons.cons.cons =>
      rw [List.map_cons, Fields.intentions, h.1, FieldsCorrespond.keys h.2.2]

mutual

/-- The declaration decodes the wire format. -/
theorem decode_consumes (t : DataType) {d : Decl String} {v : LabComm.Value} {w : Value}
    (hd : Describes t d) (hn : Named d) (hv : WellTyped R t v) (hc : Corresponds c refs t d v w) :
    Consumes (decode c d) (wire refs t v) w := by
  cases t with
  | void =>
      obtain ⟨rfl, rfl⟩ := hc
      cases hd
      exact (Consumes.pure []).map Value.object
  | prim p =>
      cases hd
      unfold decode
      unfold Corresponds at hc
      exact decodePrimitive_wire hc
  | user name type => exact decode_consumes type hd hn hv hc
  | struct fields =>
      obtain ⟨field, rfl, hfield⟩ := hd
      obtain ⟨vs, rfl, hvs⟩ := hv
      cases w <;> try exact hc.elim
      rename_i items
      unfold decode
      have hread : Consumes (decodeFields c field []) (wireFields refs fields vs) ([] ++ items) :=
        decodeFields_consumes fields hfield hn.2 hn.1.nodup (by simp) hvs hc
      exact hread.map Value.object
  | array elem dim =>
      obtain ⟨decl, rfl, hzero, hdecl⟩ := hd
      obtain ⟨n, a, rfl, hdim, hlen, _, hall⟩ := hv
      obtain ⟨b, rfl, hab⟩ := hc
      have hcount : a.length = (n.map Int.toNat).prod := by
        have hprod := C.prod_toNat (C.admits_nonneg hdim)
        omega
      unfold decode
      refine (decodeIndices_wire hdim hzero).bind ?_
      rw [decodeValue_eq]
      exact Consumes.rows_forall₂ hcount
        (forall₂_mem hab fun x hx _ _ hxy => decode_consumes elem hdecl hn (hall x hx) hxy)

theorem decodeFields_consumes (fields : LabComm.Fields) {field : Fields String}
    {obj : List (Intentions String × Value)} {vs : List LabComm.Value}
    {items : List (Intentions String × Value)} (hd : FieldsDescribe fields field)
    (hn : FieldsNamed field) (hnodup : field.intentions.Nodup)
    (hdisj : (obj.map Prod.fst).Disjoint field.intentions) (hvs : FieldsTyped R fields vs)
    (hc : FieldsCorrespond c refs fields field vs items) :
    Consumes (decodeFields c field obj) (wireFields refs fields vs) (obj ++ items) := by
  cases fields with
  | nil =>
      cases hd
      cases hvs
      cases items with
      | nil =>
          rw [List.append_nil]
          exact Consumes.pure obj
      | cons p items => exact hc.elim
  | cons name intentions type rest =>
      obtain ⟨is, decl, more, rfl, hdecl, hmore⟩ := hd
      obtain ⟨v, ws, rfl, hv, hws⟩ := hvs
      cases items with
      | nil => exact hc.elim
      | cons p items =>
          obtain ⟨hkey, hvalue, hitems⟩ := hc
          rw [Fields.intentions, List.nodup_cons] at hnodup
          rw [Fields.intentions, List.disjoint_cons_right] at hdisj
          unfold decodeFields
          refine (decode_consumes type hdecl hn.1 hv hvalue).bind ?_
          -- the key is new, and so are those of the fields that follow
          have hset : setItem is p.2 obj = obj ++ [p] := by
            rw [setItem_of_not_mem p.2 hdisj.1, ← hkey]
          have hdisj' : ((obj ++ [p]).map Prod.fst).Disjoint more.intentions := by
            rw [List.map_append, List.map_singleton, List.disjoint_append_left,
              List.singleton_disjoint, hkey]
            exact ⟨hdisj.2, hnodup.1⟩
          have htail := decodeFields_consumes rest hmore hn.2 hnodup.2 hdisj' hws hitems
          rw [hset]
          rwa [List.append_assoc, List.singleton_append] at htail

end

/-- The values of the fields are found under their names. -/
theorem lookup_items {field : Fields String} {items : List (Intentions String × Value)}
    (hkeys : items.map Prod.fst = field.intentions) (hf : field.NamesDistinct)
    {tmp_obj : List (String × Value)}
    (hget : ∀ k ∈ field.intentions, ∀ name, fieldName k = some name →
      getItem name tmp_obj = some ((Value.object items).field k)) :
    ∀ p ∈ items, ∀ name, fieldName p.1 = some name → getItem name tmp_obj = some p.2 := by
  intro p hp name hname
  have hmem : p.1 ∈ field.intentions := by
    rw [← hkeys]
    exact List.mem_map_of_mem hp
  have hnodup : (items.map Prod.fst).Nodup := by
    rw [hkeys]
    exact hf.nodup
  have hvalue : getItem p.1 items = some p.2 := getItem_of_mem hnodup hp
  rw [hget p.1 hmem name hname, Value.field, hvalue, Option.getD_some]

mutual

/-- The declaration encodes the wire format. -/
theorem encode_eq (t : DataType) {d : Decl String} {v : LabComm.Value} {w : Value}
    (hd : Describes t d) (hn : Named d) (hv : WellTyped R t v) (hc : Corresponds c refs t d v w)
    (hw : Encodable d w) : encode c d w = .ok (wire refs t v) := by
  cases t with
  | void =>
      obtain ⟨rfl, rfl⟩ := hc
      cases hd
      rfl
  | prim p =>
      cases hd
      unfold encode
      unfold Corresponds at hc
      exact encodePrimitive_wire hc hw
  | user name type => exact encode_eq type hd hn hv hc hw
  | struct fields =>
      obtain ⟨field, rfl, hfield⟩ := hd
      obtain ⟨vs, rfl, hvs⟩ := hv
      cases w <;> try exact hc.elim
      rename_i items
      -- the names of the object are those of the fields
      have hkeys : items.map Prod.fst = field.intentions := FieldsCorrespond.keys hc
      obtain ⟨tmp_obj, htmp, hget⟩ := tmpObj_spec hkeys hn.1
      have hlookup : ∀ p ∈ items, ∀ name, fieldName p.1 = some name →
          orKeyError (getItem name tmp_obj) = .ok p.2 := by
        intro p hp name hname
        rw [lookup_items hkeys hn.1 hget p hp name hname]
        rfl
      have hnodup : (items.map Prod.fst).Nodup := by
        rw [hkeys]
        exact hn.1.nodup
      have hfields : encodeFields c field (fun name => orKeyError (getItem name tmp_obj)) =
          .ok (wireFields refs fields vs) :=
        encodeFields_eq fields hfield hn.2 hn.1 hvs hc hw (fun p hp => getItem_of_mem hnodup hp)
          hlookup
      unfold encode
      rw [htmp]
      show (match (encodeFields c field fun name => orKeyError (getItem name tmp_obj)) with
        | .error .AttributeError => _
        | written => written) = _
      rw [hfields]
      rfl
  | array elem dim =>
      obtain ⟨decl, rfl, hzero, hdecl⟩ := hd
      obtain ⟨n, a, rfl, hdim, hlen, _, hall⟩ := hv
      obtain ⟨b, rfl, hab⟩ := hc
      obtain ⟨⟨hrect, hdeep⟩, helements⟩ := hw
      -- as many elements as the dimensions say
      have hprod := C.prod_toNat (C.admits_nonneg hdim)
      have hcount : b.length = (n.map Int.toNat).prod := by
        have hlength := hab.length_eq
        omega
      have hnested : Nested (fun _ => True) (n.map Int.toNat) (rows (n.map Int.toNat) b) :=
        rows_nested hcount fun _ _ => trivial
      -- the nested lists have the elements of the array as their leaves
      have hleaves : elements dim.length (rows (n.map Int.toNat) b) = b := by
        have h := elements_rows hcount
        rwa [List.length_map, ← hdim.length_eq] at h
      rw [List.length_map] at hdeep helements
      rw [hleaves] at helements
      have heach : writeEach (encode c decl) b = .ok (a.flatMap (wire refs elem)) :=
        writeEach_ok (forall₂_mem hab fun x hx y hy hxy =>
          encode_eq elem hdecl hn (hall x hx) hxy (helements y hy))
      have hvalue := encodeValue_eq (encode c decl) hnested
      rw [List.length_map, ← hdim.length_eq, hleaves, heach] at hvalue
      unfold encode
      rw [encodeIndices_wire hnested hdim hzero hrect hdeep, List.length_map, hvalue]
      rfl

theorem encodeFields_eq (fields : LabComm.Fields) {field : Fields String}
    {vs : List LabComm.Value} {items all : List (Intentions String × Value)}
    {lookup : String → Except PyError Value} (hd : FieldsDescribe fields field)
    (hn : FieldsNamed field) (hf : field.NamesDistinct) (hvs : FieldsTyped R fields vs)
    (hc : FieldsCorrespond c refs fields field vs items)
    (hw : FieldsEncodable field (.object all))
    (hall : ∀ p ∈ items, getItem p.1 all = some p.2)
    (hlookup : ∀ p ∈ items, ∀ name, fieldName p.1 = some name → lookup name = .ok p.2) :
    encodeFields c field lookup = .ok (wireFields refs fields vs) := by
  cases fields with
  | nil =>
      cases hd
      cases hvs
      rfl
  | cons name intentions type rest =>
      obtain ⟨is, decl, more, rfl, hdecl, hmore⟩ := hd
      obtain ⟨v, ws, rfl, hv, hws⟩ := hvs
      cases items with
      | nil => exact hc.elim
      | cons p items =>
          obtain ⟨hkey, hvalue, hitems⟩ := hc
          obtain ⟨name, hname⟩ := Option.ne_none_iff_exists'.mp
            fun hnone : fieldName is = none => hf.1 (by simp [Fields.intentions, hnone])
          -- the field of the object is found under its intentions
          have hfield : (Value.object all).field is = p.2 := by
            rw [Value.field, ← hkey, hall p List.mem_cons_self, Option.getD_some]
          have hfirst : encode c decl p.2 = .ok (wire refs type v) := by
            have hw' := hw.1
            rw [hfield] at hw'
            exact encode_eq type hdecl hn.1 hv hvalue hw'
          have hrest := encodeFields_eq rest hmore hn.2 hf.tail hws hitems hw.2
            (fun q hq => hall q (List.mem_cons_of_mem _ hq))
            fun q hq => hlookup q (List.mem_cons_of_mem _ hq)
          have hfound := hlookup p List.mem_cons_self name (by rw [hkey, hname])
          unfold encodeFields
          rw [hname]
          show (lookup name >>= _) = _
          rw [hfound]
          show (encode c decl p.2 >>= _) = _
          rw [hfirst]
          show (encodeFields c more lookup >>= _) = _
          rw [hrest]
          rfl

end

end LabComm.Python
