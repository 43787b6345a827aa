import LabComm.C.SigParserRuns
import LabComm.Compiler.Compatibility
import LabComm.Format.Grammar

set_option autoImplicit false

/-! # What the signature parser finds in a signature

The signature of a type is read to its end, and what is found is computed from the type alone
(`DataType.found`). A flat signature of the compiler is one without references, where the size that
is found is the size of every sample of the type, unless some size varies.
-/

namespace LabComm.C.SigParser

open Library

/-! ## What is found -/

/-- The dimensions of an array; a literal 0 is read as a variable one. -/
def foundIndices : List Exp → Nat → Nat → Bool → Nat × Nat × Bool
  | [], numVar, size, varsize => (numVar, size, varsize)
  | .variableSize :: dim, numVar, size, _ => foundIndices dim (numVar + 1) size true
  | .integerLiteral value :: dim, numVar, size, varsize =>
      if value = 0 then foundIndices dim (numVar + 1) size true
      else foundIndices dim numVar (size * value % 2 ^ 32) varsize

mutual

/-- What is found in the signature of a type, where `varsize` was found before. -/
def found (ids : Name → Option Nat) : DataType → Bool → Described
  | .void, varsize => ⟨LABCOMM_STRUCT, 0, varsize⟩
  | .prim p, varsize =>
      ⟨p.token, sizeOfTag p.token, varsize || decide (p.token = Prim.string.token)⟩
  | .user name type, varsize =>
      match ids name with
      | some id => ⟨id, 0, varsize⟩
      | none => found ids type varsize
  | .struct fields, varsize =>
      ⟨LABCOMM_STRUCT, (foundFields ids fields 0 varsize).1, (foundFields ids fields 0 varsize).2⟩
  | .array elem dim, varsize =>
      let dims := foundIndices dim 0 1 varsize
      let elem := found ids elem dims.2.2
      ⟨LABCOMM_ARRAY, if dims.1 = 0 then dims.2.1 * elem.size % 2 ^ 32 else 0, elem.varsize⟩

/-- What is found in the fields of a struct. -/
def foundFields (ids : Name → Option Nat) : Fields → Nat → Bool → Nat × Bool
  | .nil, fieldsizes, varsize => (fieldsizes, varsize)
  | .cons _ _ type rest, fieldsizes, varsize =>
      let field := found ids type varsize
      foundFields ids rest ((fieldsizes + field.size) % 2 ^ 32) field.varsize

end

/-! ## Reading what was written -/

theorem number_consumes {n : Nat} (h : n < 2 ^ 32) : Consumes number (packed32 n) n := by
  have hread := readVarint_consumes (k := 4) (n := n) (Fault.outOfBounds .input) (by omega)
  have hmap := hread.map (fun n => n % 2 ^ 32)
  rw [Nat.mod_eq_of_lt h] at hmap
  exact hmap

theorem string_consumes {bs : List UInt8} (h : bs.length + 1 < 2 ^ 32) :
    Consumes string (counted bs) bs.length := by
  refine (number_consumes (by omega)).bind ?_
  intro rest
  have hchars : (characters bs.length).run (bs ++ rest) = .ok ((), rest) := by
    show (if bs.length + 1 = 2 ^ 32 then _ else _ : Except Fault (Unit × List UInt8)) = _
    rw [if_neg (by omega), List.drop_left]
  rw [run_bind_of_ok hchars]
  rfl

/-- Nothing is read after `bs`. -/
theorem consumes_last {α β : Type} {p : Parser Fault α} {f : α → Parser Fault β} {bs : List UInt8}
    {a : α} {b : β} (hp : Consumes p bs a) (hf : Consumes (f a) [] b) :
    Consumes (p >>= f) bs b := by
  have hbind := hp.bind hf
  rwa [List.append_nil] at hbind

/-- The last value with an empty key among the intentions, which `rest` follows. -/
def lastName : List Intention → List UInt8 → Option (List UInt8) × Nat → Option (List UInt8) × Nat
  | [], _, name => name
  | i :: is, rest, name => lastName is rest
      (if i.key = [] then
        (some (counted i.value ++ (is.flatMap Intention.bytes ++ rest)), i.value.length)
      else name)

theorem intentions_run {is : List Intention} (h : (is.flatMap Intention.bytes).length < 2 ^ 31)
    (start : Option (List UInt8)) (nlen : Nat) (rest : List UInt8) :
    (intentions is.length start nlen).run (is.flatMap Intention.bytes ++ rest) =
      .ok (lastName is rest (start, nlen), rest) := by
  induction is generalizing start nlen with
  | nil => rfl
  | cons i is ih =>
      rw [List.flatMap_cons, List.length_append, Intention.bytes, List.length_append] at h
      have hkey := length_le_counted i.key
      have hvalue := length_le_counted i.value
      have hkey' := @string_consumes i.key (by omega)
      have hvalue' := @string_consumes i.value (by omega)
      rw [List.flatMap_cons, List.length_cons, intentions, Intention.bytes, List.append_assoc,
        List.append_assoc, run_bind_of_ok (hkey' _), run_bind_of_ok (p := get) rfl,
        run_bind_of_ok (hvalue' _)]
      rw [lastName]
      by_cases hname : i.key = []
      · rw [if_pos (by rw [hname]; rfl), if_pos hname]
        exact ih (by omega) _ _
      · rw [if_neg (fun h => hname (List.length_eq_zero_iff.mp h)), if_neg hname]
        exact ih (by omega) _ _

theorem name_run {is : List Intention} (h : (intentionsBytes is).length < 2 ^ 31)
    (rest : List UInt8) :
    name.run (intentionsBytes is ++ rest) = .ok (lastName is rest (none, 0), rest) := by
  rw [intentionsBytes, List.length_append] at h
  have hlength : is.length ≤ (is.flatMap Intention.bytes).length := by
    clear h
    induction is with
    | nil => exact Nat.zero_le _
    | cons i is ih =>
        have hpos := packed32_length_pos i.key.length
        rw [List.flatMap_cons, List.length_append, List.length_cons, Intention.bytes,
          List.length_append, counted_length]
        omega
  rw [intentionsBytes, List.append_assoc, name,
    run_bind_of_ok (number_consumes (by omega) _)]
  exact intentions_run (by omega) none 0 rest

/-! ## Reading types -/

/-- A literal that fits into the number it is written as. -/
def IsNumber : Exp → Prop
  | .integerLiteral value => value < 2 ^ 32
  | .variableSize => True

mutual

/-- The literals are numbers, and the references are ids of user types. -/
def HasNumbers (ids : Name → Option Nat) : DataType → Prop
  | .void => True
  | .prim _ => True
  | .user name type => match ids name with
      | some id => UserId id
      | none => HasNumbers ids type
  | .struct fields => FieldsHaveNumbers ids fields
  | .array elem dim => (∀ e ∈ dim, IsNumber e) ∧ HasNumbers ids elem

/-- The same of every field. -/
def FieldsHaveNumbers (ids : Name → Option Nat) : Fields → Prop
  | .nil => True
  | .cons _ _ type rest => HasNumbers ids type ∧ FieldsHaveNumbers ids rest

end

theorem indices_consumes {dim : List Exp} (h : ∀ e ∈ dim, IsNumber e) (numVar size : Nat)
    (varsize : Bool) : Consumes (indices dim.length numVar size varsize)
      (dim.flatMap Exp.signature) (foundIndices dim numVar size varsize) := by
  induction dim generalizing numVar size varsize with
  | nil => exact Consumes.pure _
  | cons e dim ih =>
      have hrest := fun e he => h e (List.mem_cons_of_mem _ he)
      rw [List.flatMap_cons, List.length_cons, indices]
      cases e with
      | variableSize =>
          refine (number_consumes (by decide)).bind ?_
          rw [if_pos rfl, foundIndices]
          exact ih hrest _ _ _
      | integerLiteral value =>
          have hvalue : value < 2 ^ 32 := h _ List.mem_cons_self
          refine (number_consumes hvalue).bind ?_
          rw [foundIndices]
          by_cases hzero : value = 0
          · rw [if_pos hzero, if_pos hzero]
            exact ih hrest _ _ _
          · rw [if_neg hzero, if_neg hzero]
            exact ih hrest _ _ _

theorem indices_length_le (dim : List Exp) :
    dim.length ≤ (dim.flatMap Exp.signature).length := by
  induction dim with
  | nil => exact Nat.zero_le _
  | cons e dim ih =>
      have hpos : 0 < e.signature.length := by
        cases e <;> exact packed32_length_pos _
      rw [List.flatMap_cons, List.length_append, List.length_cons]
      omega

theorem intentionsBytes_length_pos (is : List Intention) : 0 < (intentionsBytes is).length := by
  have := packed32_length_pos is.length
  rw [intentionsBytes, List.length_append]
  omega

variable {ids : Name → Option Nat} {order : List Intention → List Intention}

theorem fields_length_le (fields : Fields) :
    fields.length ≤ (fields.described ids order).length := by
  cases fields with
  | nil => exact Nat.zero_le _
  | cons intentions name type rest =>
      have hrest := fields_length_le rest
      have hpos := intentionsBytes_length_pos (order intentions)
      rw [Fields.described, List.length_append, List.length_append, Fields.length]
      omega

theorem token_lt_user (p : Prim) : p.token < 0x40 := by
  cases p <;> decide

/-- The description of what is neither an array nor a struct. -/
theorem leaf_consumes {tag : Nat} (h : tag < 2 ^ 32) (harray : tag ≠ LABCOMM_ARRAY)
    (hstruct : tag ≠ LABCOMM_STRUCT) (fuel : Nat) (varsize : Bool) :
    Consumes (description (fuel + 1) varsize) (packed32 tag)
      ⟨tag, sizeOfTag tag, varsize || decide (tag = Prim.string.token)⟩ := by
  refine consumes_last (number_consumes h) ?_
  rw [if_neg harray, if_neg hstruct]
  exact Consumes.pure _

theorem array_consumes {fuel : Nat} {varsize : Bool} {bs : List UInt8} {d : Described}
    (h : Consumes (array (description fuel) varsize) bs d) :
    Consumes (description (fuel + 1) varsize) (packed32 LABCOMM_ARRAY ++ bs) d := by
  refine (number_consumes (by decide)).bind ?_
  rw [if_pos rfl]
  exact h

theorem struct_consumes {fuel : Nat} {varsize : Bool} {bs : List UInt8} {d : Described}
    (h : Consumes (struct (description fuel) varsize) bs d) :
    Consumes (description (fuel + 1) varsize) (packed32 LABCOMM_STRUCT ++ bs) d := by
  refine (number_consumes (by decide)).bind ?_
  rw [if_neg (by decide), if_pos rfl]
  exact h

mutual

/-- **The signature of a type is read to its end**, and what is found depends on the type only. -/
theorem description_consumes (t : DataType) (hnum : HasNumbers ids t)
    (hlen : (t.described ids order).length < 2 ^ 31) (fuel : Nat)
    (hfuel : (t.described ids order).length ≤ fuel) (varsize : Bool) :
    Consumes (description (fuel + 1) varsize) (t.described ids order) (found ids t varsize) := by
  match t with
  | .prim p =>
      have hlt := p.token_lt
      exact leaf_consumes (by omega) p.token_ne_array p.token_ne_struct fuel varsize
  | .void =>
      exact struct_consumes (consumes_last (number_consumes (n := 0) (by decide))
        (Consumes.pure _))
  | .user name type =>
      rw [HasNumbers] at hnum
      rw [DataType.described] at hlen hfuel ⊢
      rw [found]
      cases hid : ids name with
      | none =>
          rw [hid] at hnum hlen hfuel
          exact description_consumes type hnum hlen fuel hfuel varsize
      | some id =>
          -- a numbered type is one number, and no size is known for it
          rw [hid] at hnum
          have hid' : UserId id := hnum
          have huser : 0x40 ≤ id := hid'.1
          have hleaf := leaf_consumes hid'.2 (by rw [LABCOMM_ARRAY]; omega)
            (by rw [LABCOMM_STRUCT]; omega) fuel varsize
          have htoken : ∀ p : Prim, ¬ id = p.token := by
            intro p hp
            have hlt := token_lt_user p
            omega
          have hsize : sizeOfTag id = 0 := by
            rw [sizeOfTag]
            simp only [htoken, or_self, if_false]
          rw [hsize, decide_eq_false (htoken .string), Bool.or_false] at hleaf
          exact hleaf
  | .struct fields =>
      rw [DataType.described, List.length_append, List.length_append] at hlen hfuel
      have htag := packed32_length_pos LABCOMM_STRUCT
      have hcount := packed32_length_pos fields.length
      have hle := @fields_length_le ids order fields
      obtain ⟨fuel, rfl⟩ : ∃ k, fuel = k + 1 := ⟨fuel - 1, by omega⟩
      refine struct_consumes ((number_consumes (by omega)).bind ?_)
      have hfields := fields_consumes fields hnum (by omega) fuel (by omega) 0 varsize
      exact consumes_last hfields (Consumes.pure _)
  | .array elem dim =>
      rw [DataType.described, List.length_append, List.length_append, List.length_append]
        at hlen hfuel
      have htag := packed32_length_pos LABCOMM_ARRAY
      have hcount := packed32_length_pos dim.length
      have hle := indices_length_le dim
      obtain ⟨fuel, rfl⟩ : ∃ k, fuel = k + 1 := ⟨fuel - 1, by omega⟩
      refine array_consumes ((number_consumes (by omega)).bind ?_)
      refine (indices_consumes hnum.1 0 1 varsize).bind ?_
      have helem := description_consumes elem hnum.2 (by omega) fuel (by omega)
        (foundIndices dim 0 1 varsize).2.2
      exact consumes_last helem (Consumes.pure _)

/-- The same of the fields of a struct. -/
theorem fields_consumes (fields : Fields) (hnum : FieldsHaveNumbers ids fields)
    (hlen : (fields.described ids order).length < 2 ^ 31) (fuel : Nat)
    (hfuel : (fields.described ids order).length ≤ fuel) (fieldsizes : Nat) (varsize : Bool) :
    Consumes (SigParser.fields (description (fuel + 1)) fields.length fieldsizes varsize)
      (fields.described ids order) (foundFields ids fields fieldsizes varsize) := by
  match fields with
  | .nil => exact Consumes.pure _
  | .cons intentions _ type rest =>
      rw [Fields.described, List.length_append, List.length_append] at hlen hfuel
      have hfield := description_consumes type hnum.1 (by omega) fuel (by omega) varsize
      have hname : Skips name (intentionsBytes (order intentions)) := fun r =>
        ⟨lastName (order intentions) r (none, 0), name_run (by omega) r⟩
      have hrest := fields_consumes rest hnum.2 (by omega) fuel (by omega)
        ((fieldsizes + (found ids type varsize).size) % 2 ^ 32) (found ids type varsize).varsize
      have hassoc : SigParser.fields (description (fuel + 1)) (rest.length + 1) fieldsizes varsize =
          name >>= fun _ => description (fuel + 1) varsize >>= fun field =>
            SigParser.fields (description (fuel + 1)) rest.length
              ((fieldsizes + field.size) % 2 ^ 32) field.varsize := by
        simp only [SigParser.fields, name, bind_assoc]
      rw [Fields.length, hassoc]
      exact hname.bind fun _ => hfield.bind hrest

end

/-! ## Flat signatures of the compiler -/

/-- No type is a reference. -/
abbrev noIds : Name → Option Nat := fun _ => none

mutual

/-- The flat signature that the compiler writes is the description without references. -/
theorem flatBytes_described {t : DataType} {bs : List UInt8}
    (h : Compiler.flatBytes 2014 t = some bs) :
    bs = t.described noIds Compiler.sortedIntentions ∧ HasNumbers noIds t := by
  match t with
  | .void =>
      cases h
      exact ⟨rfl, trivial⟩
  | .prim p =>
      cases h
      exact ⟨List.append_nil _, trivial⟩
  | .user _ type => exact flatBytes_described (t := type) h
  | .struct fields =>
      obtain ⟨cs, hcs, rfl⟩ := Compiler.flatBytes_struct_some h
      obtain ⟨rfl, hnum⟩ := flatFieldBytes_described hcs
      exact ⟨rfl, hnum⟩
  | .array elem dim =>
      obtain ⟨cs, hcs, hsmall, rfl⟩ := Compiler.flatBytes_array_some h
      obtain ⟨rfl, hnum⟩ := flatBytes_described hcs
      refine ⟨?_, fun e he => ?_, hnum⟩
      · rw [DataType.described, List.flatMap_map]
        congr 4
        funext e
        cases e <;> rfl
      · have hlt := hsmall e he
        cases e with
        | variableSize => trivial
        | integerLiteral value =>
            show value < 2 ^ 32
            rw [Compiler.signatureSize] at hlt
            omega

/-- The same of the fields. -/
theorem flatFieldBytes_described {fields : Fields} {bs : List UInt8}
    (h : Compiler.flatFieldBytes fields = some bs) :
    bs = fields.described noIds Compiler.sortedIntentions ∧ FieldsHaveNumbers noIds fields := by
  match fields with
  | .nil =>
      cases h
      exact ⟨rfl, trivial⟩
  | .cons intentions name type rest =>
      obtain ⟨a, b, c, ha, hb, hc, rfl⟩ := Compiler.flatFieldBytes_cons_some h
      obtain ⟨rfl, _⟩ := Compiler.getIntentionBytes_eq ha
      obtain ⟨rfl, hnum⟩ := flatBytes_described hb
      obtain ⟨rfl, hnum'⟩ := flatFieldBytes_described hc
      exact ⟨rfl, hnum, hnum'⟩

end

/-- The dimension is a variable index in a signature. -/
def varies (e : Exp) : Bool := decide (Compiler.signatureSize e = 0)

mutual

/-- There is a string or a variable index at some depth. -/
def hasVariable : DataType → Bool
  | .void => false
  | .prim p => decide (p = .string)
  | .user _ type => hasVariable type
  | .struct fields => fieldsHaveVariable fields
  | .array elem dim => dim.any varies || hasVariable elem

/-- The same of some field. -/
def fieldsHaveVariable : Fields → Bool
  | .nil => false
  | .cons _ _ type rest => hasVariable type || fieldsHaveVariable rest

end

theorem foundIndices_varsize (dim : List Exp) (numVar size : Nat) (varsize : Bool) :
    (foundIndices dim numVar size varsize).2.2 = (varsize || dim.any varies) := by
  induction dim generalizing numVar size varsize with
  | nil => simp [foundIndices]
  | cons e dim ih =>
      cases e with
      | variableSize => simp [foundIndices, ih, varies, Compiler.signatureSize]
      | integerLiteral value =>
          rw [foundIndices]
          split
          · rename_i hzero
            simp [ih, varies, Compiler.signatureSize, hzero]
          · rename_i hzero
            simp [ih, varies, Compiler.signatureSize, hzero]

mutual

/-- The flag is set if and only if there is something of variable size. -/
theorem found_varsize (t : DataType) (varsize : Bool) :
    (found noIds t varsize).varsize = (varsize || hasVariable t) := by
  match t with
  | .void => exact (Bool.or_false varsize).symm
  | .prim p =>
      have htoken : (p.token = Prim.string.token) = (p = .string) :=
        propext ⟨Prim.token_inj, fun h => by rw [h]⟩
      show (varsize || decide (p.token = Prim.string.token)) = (varsize || decide (p = .string))
      simp only [htoken]
  | .user _ type => exact found_varsize type varsize
  | .struct fields => exact foundFields_varsize fields 0 varsize
  | .array elem dim =>
      have helem := found_varsize elem (foundIndices dim 0 1 varsize).2.2
      rw [foundIndices_varsize, Bool.or_assoc] at helem
      rw [hasVariable, ← helem, ← foundIndices_varsize dim 0 1]
      rfl

/-- The same of the fields. -/
theorem foundFields_varsize (fields : Fields) (fieldsizes : Nat) (varsize : Bool) :
    (foundFields noIds fields fieldsizes varsize).2 = (varsize || fieldsHaveVariable fields) := by
  match fields with
  | .nil => exact (Bool.or_false varsize).symm
  | .cons _ _ type rest =>
      rw [foundFields, foundFields_varsize rest, found_varsize type, fieldsHaveVariable,
        Bool.or_assoc]

end

/-! ## Sizes of samples -/

theorem sizeOfTag_token (p : Prim) : sizeOfTag p.token = p.size := by
  cases p <;> rfl

/-- An array without variable dimensions: the product of its dimensions, and nothing in front of
its elements. -/
theorem foundIndices_fixed {dim : List Exp} (h : dim.any varies = false) {n : List Int}
    (hn : List.Forall₂ Exp.Admits dim n) (numVar : Nat) {size : Nat} (hsize : size < 2 ^ 32)
    (varsize : Bool) : (foundIndices dim numVar size varsize).1 = numVar ∧
      (((foundIndices dim numVar size varsize).2.1 : Nat) : Int) = size * n.prod % 2 ^ 32 ∧
      wireDims dim n = [] := by
  induction hn generalizing size varsize with
  | nil =>
      refine ⟨rfl, ?_, rfl⟩
      show (size : Int) = size * ([] : List Int).prod % 2 ^ 32
      rw [List.prod_nil]
      omega
  | @cons e i dim n hadmits _ ih =>
      rw [List.any_cons, Bool.or_eq_false_iff] at h
      cases e with
      | variableSize => exact absurd h.1 (by decide)
      | integerLiteral value =>
          have hne : value ≠ 0 := of_decide_eq_false h.1
          have hi : i = value := hadmits
          obtain ⟨hvar, hprod, hdims⟩ := ih h.2 (Nat.mod_lt (size * value) (by decide)) varsize
          rw [foundIndices, if_neg hne]
          refine ⟨hvar, ?_, hdims⟩
          rw [hprod, hi, List.prod_cons, ← mul_assoc]
          push_cast
          rw [Int.mul_emod, Int.emod_emod, ← Int.mul_emod]

theorem flatMap_length_modEq {α : Type} {f : α → List UInt8} {a : List α} {size : Nat}
    (h : ∀ x ∈ a, (f x).length ≡ size [MOD 2 ^ 32]) :
    (a.flatMap f).length ≡ a.length * size [MOD 2 ^ 32] := by
  induction a with
  | nil =>
      rw [List.flatMap_nil, List.length_nil, List.length_nil, zero_mul]
  | cons x a ih =>
      have hrest := ih fun y hy => h y (List.mem_cons_of_mem _ hy)
      rw [List.flatMap_cons, List.length_append, List.length_cons, Nat.succ_mul, add_comm]
      exact hrest.add (h x List.mem_cons_self)

mutual

/-- **The size that is found** is that of every sample, if no size varies. -/
theorem found_size {R : Option Nat → Prop} (refs : RefTables) {t : DataType}
    (hfixed : hasVariable t = false) {v : Value} (hv : WellTyped R t v) (varsize : Bool) :
    (wire refs t v).length ≡ (found noIds t varsize).size [MOD 2 ^ 32] := by
  match t with
  | .void =>
      have hv' : v = Value.unset := hv
      rw [hv']
      rfl
  | .prim p =>
      have hp : p ≠ .string := of_decide_eq_false hfixed
      have hlength : (wire refs (.prim p) v).length = p.size := by
        cases p with
        | string => exact absurd rfl hp
        | sample =>
            obtain ⟨s, rfl, _⟩ := hv
            exact bigEndian_length _ _
        | boolean | byte | short | int | long | float | double =>
            obtain ⟨n, rfl, _⟩ := hv
            exact bigEndian_length _ _
      rw [hlength, found, sizeOfTag_token]
  | .user _ type => exact found_size refs (t := type) hfixed hv varsize
  | .struct fields =>
      obtain ⟨vs, rfl, hvs⟩ := hv
      have hsum := foundFields_size refs hfixed hvs 0 varsize
      rw [zero_add] at hsum
      exact hsum
  | .array elem dim =>
      obtain ⟨n, a, rfl, hn, hlength, _, ha⟩ := hv
      rw [hasVariable, Bool.or_eq_false_iff] at hfixed
      obtain ⟨hvar, hprod, hdims⟩ :=
        @foundIndices_fixed _ hfixed.1 _ hn 0 1 (by decide) varsize
      have helems := flatMap_length_modEq fun x hx =>
        found_size refs hfixed.2 (ha x hx) (foundIndices dim 0 1 varsize).2.2
      have hcount : a.length ≡ (foundIndices dim 0 1 varsize).2.1 [MOD 2 ^ 32] := by
        rw [Nat.cast_one, one_mul, ← hlength] at hprod
        rw [Nat.ModEq]
        omega
      rw [wire, hdims, List.nil_append, found]
      simp only [hvar, if_true]
      exact helems.trans ((hcount.mul_right _).trans (Nat.mod_modEq _ _).symm)

/-- The same of the fields, with the sizes of those before. -/
theorem foundFields_size {R : Option Nat → Prop} (refs : RefTables) {fields : Fields}
    (hfixed : fieldsHaveVariable fields = false) {vs : List Value} (hvs : FieldsTyped R fields vs)
    (fieldsizes : Nat) (varsize : Bool) :
    fieldsizes + (wireFields refs fields vs).length ≡
      (foundFields noIds fields fieldsizes varsize).1 [MOD 2 ^ 32] := by
  match fields with
  | .nil =>
      have hvs' : vs = [] := hvs
      rw [hvs']
      rfl
  | .cons _ _ type rest =>
      obtain ⟨v, ws, rfl, hv, hws⟩ := hvs
      rw [fieldsHaveVariable, Bool.or_eq_false_iff] at hfixed
      have hfield := found_size refs hfixed.1 hv varsize
      have hrest := foundFields_size refs hfixed.2 hws
        ((fieldsizes + (found noIds type varsize).size) % 2 ^ 32) (found noIds type varsize).varsize
      rw [wireFields, List.length_append, ← add_assoc, foundFields]
      refine Nat.ModEq.trans (Nat.ModEq.add_right _ ?_) hrest
      exact (hfield.add_left fieldsizes).trans (Nat.mod_modEq _ _).symm

end

/-- From the state `s` on, `accept_type` reads the signature `bs` of the type and no more, pushes a
size and a tag, and sets the flag if there is something of variable size. If there is not, the size
is that of every sample. -/
structure ReadsFlat (s : State) (t : DataType) (bs : List UInt8) (s' : State) (size tag : Nat) :
    Prop where
  run : (acceptType (s.c.bytes.length + 1)).run s = .ok ((), s')
  idx : s'.idx = s.idx + bs.length
  valStack : s'.valStack = tag :: size :: s.valStack
  varsize : s'.currentDeclIsVarsize = true ↔ hasVariable t = true
  size_eq : s'.currentDeclIsVarsize = false → ∀ (R : Option Nat → Prop) (refs : RefTables)
    (v : Value), WellTyped R t v → (wire refs t v).length ≡ size [MOD 2 ^ 32]

/-- **Static sizes.** What `accept_type` makes of a flat signature that the compiler has written. -/
theorem accept_type_flat {config : Config} {c : Buffer} {s : State} (hroom : HasRoom config c s)
    (hflag : s.currentDeclIsVarsize = false) {t : DataType} {bs rest : List UInt8}
    (hflat : Compiler.flatBytes 2014 t = some bs) (hrest : s.rest = bs ++ rest) :
    ∃ s' size tag, ReadsFlat s t bs s' size tag := by
  obtain ⟨hbs, hnum⟩ := flatBytes_described hflat
  have hsuffix := rest_suffix s
  have hle := hsuffix.length_le
  have hlt := s.c.length_lt
  have hlength : s.rest.length = bs.length + rest.length := by
    rw [hrest, List.length_append]
  have hread := description_consumes t hnum (by rw [← hbs]; omega) s.c.bytes.length
    (by rw [← hbs]; omega) false rest
  have htop := hroom.room
  have hrun := @acceptType_follows _ hroom.ready [] (by rw [List.length_nil]; omega)
    (s.c.bytes.length + 1) s.currentDeclIsVarsize s.rest hsuffix
  rw [leaving_rest hroom.idx.1 hroom.idx.2, hflag, hrest, hbs, hread] at hrun
  have hvar := found_varsize t false
  rw [Bool.false_or] at hvar
  refine ⟨_, _, _, hrun, ?_, rfl, ?_, ?_⟩
  · have hidx : (s.c.bytes.length : Int) - s.rest.length = s.idx := by
      have hin := hroom.idx
      rw [State.rest, List.length_drop]
      omega
    show (s.c.bytes.length : Int) - rest.length = s.idx + bs.length
    omega
  · show (found noIds t false).varsize = true ↔ _
    rw [hvar]
  · intro hfixed R refs v hv
    have hfixed' : (found noIds t false).varsize = false := hfixed
    rw [hvar] at hfixed'
    exact found_size refs hfixed' hv false

/-- A buffer with the flat signature of an `int`. -/
def intSignatureBuffer : Buffer where
  bytes := [0x23]
  length_lt := by decide

theorem accept_type_flat_int : ∃ s' size tag,
    ReadsFlat (init ⟨3, 1, 2, 2⟩ intSignatureBuffer) (.prim .int) [0x23] s' size tag := by
  have hroom : HasRoom ⟨3, 1, 2, 2⟩ intSignatureBuffer (init ⟨3, 1, 2, 2⟩ intSignatureBuffer) :=
    ⟨rfl, rfl, by decide, by decide, (Reached.init.between).ready⟩
  exact @accept_type_flat _ _ _ hroom rfl _ _ [] rfl rfl

end LabComm.C.SigParser
