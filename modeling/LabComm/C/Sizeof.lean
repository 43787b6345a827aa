import LabComm.C.Codec

set_option autoImplicit false

/-! # The generated size functions

`sizeof_S` computes the number of body bytes of a sample before it is encoded. It is a second
walk over the type: parts of fixed size are added up by the generator (`cFixedSizeof`), and
only strings and variable arrays leave code to run (`cEmitSizeof`). All sums and products are
`int`s, in the generator and in the generated code.

`none` is a generator that throws. It does so on a type whose size it takes for fixed and that
has a string or a variable dimension, or for dynamic and that has neither.
-/

namespace LabComm.C

open Library

/-! ## The two walks -/

mutual

/-- `C_isDynamic` -/
def cIsDynamic : DataType → Bool
  | .void => false
  | .prim p => p == .string
  | .user _ type => cIsDynamic type
  | .struct fields => cIsDynamicFields fields
  | .array elem dim => isVariable dim || cIsDynamic elem

/-- Some field is dynamic. -/
def cIsDynamicFields : Fields → Bool
  | .nil => false
  | .cons _ _ type rest => cIsDynamic type || cIsDynamicFields rest

end

/-- `Integer.parseInt` of a literal. -/
def parseInt (value : Nat) : Option Int := if value < 2 ^ 31 then some value else none

/-- The product of the dimensions, with `elements` so far. -/
def cFixedElements : List Exp → Int → Option Int
  | [], elements => some elements
  | .integerLiteral value :: dim, elements => do
      let n ← parseInt value
      cFixedElements dim (wrap32 (elements * n))
  | .variableSize :: _, _ => none

mutual

/-- `C_fixedSizeof` -/
def cFixedSizeof : DataType → Option Int
  | .void => some 0
  | .prim .string => none
  | .prim p => some p.size
  | .user _ type => cFixedSizeof type
  | .struct fields => cFixedSizeofFields fields 0
  | .array elem dim => do
      let elements ← cFixedElements dim 1
      let n ← cFixedSizeof elem
      pure (wrap32 (n * elements))

/-- The sum of the sizes of the fields, with `result` so far. -/
def cFixedSizeofFields : Fields → Int → Option Int
  | .nil, result => some result
  | .cons _ _ type rest, result => do
      let n ← cFixedSizeof type
      cFixedSizeofFields rest (wrap32 (result + n))

end

/-- `VariableSize.C_emitSizeof`, for the dimensions in order. -/
def cEmitSizeofDims : List Exp → List Int → Int → Int
  | .integerLiteral _ :: dim, _ :: n, result => cEmitSizeofDims dim n result
  | .variableSize :: dim, i :: n, result =>
      cEmitSizeofDims dim n (wrap32 (result + sizePacked32 (toUnsigned i)))
  | _, _, result => result

mutual

/-- `DataType.C_emitSizeof`: the value of `result` after the generated code has run. -/
def cEmitSizeof : DataType → Value → Int → Option Int
  | .prim .string, .string s, result =>
      let l := wrap32 (strlen s)
      some (wrap32 (result + wrap32 (sizePacked32 (toUnsigned l) + l)))
  | .user _ type, v, result => cEmitSizeof type v result
  | .struct fields, .struct vs, result => do
      let (result, fixed) ← cEmitSizeofFields fields vs result 0
      pure (if fixed > 0 then wrap32 (result + fixed) else result)
  | .array elem dim, .array n a, result => do
      let result := cEmitSizeofDims dim n result
      let limits := loopLimits dim n
      if cIsDynamic elem then
        nest (limits.map Int.toNat)
          (fun is result => cEmitSizeof elem (getElement a (elementIndex dim limits is)) result)
          result
      else
        let size ← cFixedSizeof elem
        pure (wrap32 (result + limits.foldl (fun size limit => wrap32 (size * limit)) size))
  | _, _, _ => none

/-- The fields in order: dynamic ones add to `result` when the code runs, the others to
`fixed` when it is generated. -/
def cEmitSizeofFields : Fields → List Value → Int → Int → Option (Int × Int)
  | .nil, _, result, fixed => some (result, fixed)
  | .cons _ _ type rest, v :: vs, result, fixed =>
      if cIsDynamic type then do
        let result ← cEmitSizeof type v result
        cEmitSizeofFields rest vs result fixed
      else do
        let n ← cFixedSizeof type
        cEmitSizeofFields rest vs result (wrap32 (fixed + n))
  | .cons .., [], _, _ => none

end

/-- The function `sizeof_S` of a sample type. -/
def cSizeof (type : DataType) (v : Value) : Option Int :=
  if cIsDynamic type then cEmitSizeof type v 0
  else do
    let n ← cFixedSizeof type
    pure (wrap32 (0 + n))

/-! ## Types of fixed size -/

/-- The literals of a dimension list, where a variable dimension counts for nothing. -/
def literals (dim : List Exp) : List Nat := dim.map fun
  | .integerLiteral value => value
  | .variableSize => 0

mutual

/-- The number of bytes of every value of a type that is not dynamic. -/
def fixedLength : DataType → Nat
  | .void => 0
  | .prim p => p.size
  | .user _ type => fixedLength type
  | .struct fields => fixedLengthFields fields
  | .array elem dim => fixedLength elem * (literals dim).prod

/-- The same of the fields together. -/
def fixedLengthFields : Fields → Nat
  | .nil => 0
  | .cons _ _ type rest => fixedLength type + fixedLengthFields rest

end

theorem cFixedElements_eq {dim : List Exp} (hvar : isVariable dim = false)
    (hlit : ∀ e ∈ dim, e.LiteralFits) (m : Nat) :
    cFixedElements dim (wrap32 m) = some (wrap32 (m * (literals dim).prod : Nat)) := by
  induction dim generalizing m with
  | nil => simp [cFixedElements, literals]
  | cons e dim ih =>
      cases e with
      | variableSize => simp [isVariable, Exp.isVariable] at hvar
      | integerLiteral value =>
          have hv : value < 2 ^ 31 := hlit _ List.mem_cons_self
          have hrest : isVariable dim = false := by
            simpa [isVariable, Exp.isVariable] using hvar
          have hmul : wrap32 (wrap32 m * value) = wrap32 ((m * value : Nat) : Int) := by
            rw [wrap32_wrap32_mul]
            push_cast
            rfl
          have := ih hrest (fun e he => hlit e (List.mem_cons_of_mem _ he)) (m * value)
          simp only [cFixedElements, parseInt, if_pos hv, Option.bind_eq_bind, Option.bind_some,
            hmul, this]
          simp [literals, Nat.mul_assoc]

mutual

theorem cFixedSizeof_eq : ∀ t : DataType, cIsDynamic t = false → t.LiteralsFit →
    cFixedSizeof t = some (wrap32 (fixedLength t))
  | .void, _, _ => rfl
  | .prim p, hdyn, _ => by
      cases p with
      | string => simp [cIsDynamic] at hdyn
      | boolean | byte | short | int | long | float | double | sample => rfl
  | .user _ type, hdyn, hlit => cFixedSizeof_eq type hdyn hlit
  | .struct fields, hdyn, hlit => by
      have := cFixedSizeofFields_eq fields hdyn hlit 0
      rw [Nat.zero_add] at this
      exact this
  | .array elem dim, hdyn, hlit => by
      obtain ⟨hvar, helem⟩ := Bool.or_eq_false_iff.mp hdyn
      obtain ⟨hdims, hlit⟩ := hlit
      have hel := cFixedElements_eq hvar hdims 1
      rw [Nat.one_mul] at hel
      have hone : wrap32 (1 : Nat) = 1 := by decide
      rw [hone] at hel
      have hsize := cFixedSizeof_eq elem helem hlit
      have hmul : wrap32 (wrap32 (fixedLength elem) * wrap32 ((literals dim).prod : Nat)) =
          wrap32 ((fixedLength elem * (literals dim).prod : Nat) : Int) := by
        rw [wrap32_wrap32_mul, wrap32_mul_wrap32]
        push_cast
        rfl
      simp only [cFixedSizeof, hel, hsize, Option.bind_eq_bind, Option.bind_some, Option.pure_def,
        hmul]
      rfl

theorem cFixedSizeofFields_eq : ∀ fields : Fields, cIsDynamicFields fields = false →
    fields.LiteralsFit → ∀ m : Nat,
    cFixedSizeofFields fields (wrap32 m) = some (wrap32 (m + fixedLengthFields fields : Nat))
  | .nil, _, _, m => rfl
  | .cons _ _ type rest, hdyn, hlit, m => by
      obtain ⟨htype, hrest⟩ := Bool.or_eq_false_iff.mp hdyn
      have h1 := cFixedSizeof_eq type htype hlit.1
      have h2 := cFixedSizeofFields_eq rest hrest hlit.2 (m + fixedLength type)
      have hadd : wrap32 (wrap32 m + wrap32 (fixedLength type)) =
          wrap32 ((m + fixedLength type : Nat) : Int) := by
        rw [wrap32_wrap32_add, wrap32_add_wrap32]
        push_cast
        rfl
      simp only [cFixedSizeofFields, h1, Option.bind_eq_bind, Option.bind_some, hadd, h2]
      rw [fixedLengthFields, Nat.add_assoc]

end

theorem prod_of_literals {dim : List Exp} {n : List Int} (hvar : isVariable dim = false)
    (h : List.Forall₂ Exp.Admits dim n) :
    n.prod = ((literals dim).prod : Nat) ∧ wireDims dim n = [] := by
  induction h with
  | nil => exact ⟨rfl, rfl⟩
  | @cons e i dim n hei _ ih =>
      cases e with
      | variableSize => simp [isVariable, Exp.isVariable] at hvar
      | integerLiteral value =>
          obtain rfl : i = value := hei
          obtain ⟨hprod, hdims⟩ := ih (by simpa [isVariable, Exp.isVariable] using hvar)
          refine ⟨?_, hdims⟩
          rw [List.prod_cons, hprod]
          simp [literals]

theorem flatMap_length_of_const {α : Type} {a : List α} {f : α → List UInt8} {m : Nat}
    (h : ∀ x ∈ a, (f x).length = m) : (a.flatMap f).length = m * a.length := by
  induction a with
  | nil => simp
  | cons x a ih =>
      rw [List.flatMap_cons, List.length_append, h x List.mem_cons_self,
        ih fun y hy => h y (List.mem_cons_of_mem _ hy), List.length_cons]
      ring

variable {R : Option Nat → Prop}

mutual

/-- Values of a type that is not dynamic have one length. -/
theorem wire_length_fixed (refs : RefTables) : ∀ (t : DataType) (v : Value),
    cIsDynamic t = false → WellTyped R t v → (wire refs t v).length = fixedLength t
  | .void, _, _, _ => rfl
  | .prim p, v, hdyn, hv => by
      cases p with
      | string => simp [cIsDynamic] at hdyn
      | sample =>
          obtain ⟨s, rfl, _⟩ := hv
          exact bigEndian_length _ _
      | boolean | byte | short | int | long | float | double =>
          obtain ⟨n, rfl, _⟩ := hv
          exact bigEndian_length _ _
  | .user _ type, v, hdyn, hv => wire_length_fixed refs type v hdyn hv
  | .struct fields, v, hdyn, hv => by
      obtain ⟨vs, rfl, hvs⟩ := hv
      exact wireFields_length_fixed refs fields vs hdyn hvs
  | .array elem dim, v, hdyn, hv => by
      obtain ⟨hvar, helem⟩ := Bool.or_eq_false_iff.mp hdyn
      obtain ⟨n, a, rfl, hdim, hlen, _, hall⟩ := hv
      obtain ⟨hprod, hdims⟩ := prod_of_literals hvar hdim
      rw [wire, hdims, List.nil_append, flatMap_length_of_const fun x hx =>
        wire_length_fixed refs elem x helem (hall x hx), fixedLength]
      congr 1
      omega

theorem wireFields_length_fixed (refs : RefTables) : ∀ (fields : Fields) (vs : List Value),
    cIsDynamicFields fields = false → FieldsTyped R fields vs →
    (wireFields refs fields vs).length = fixedLengthFields fields
  | .nil, _, _, _ => rfl
  | .cons _ _ type rest, vs, hdyn, hvs => by
      obtain ⟨htype, hrest⟩ := Bool.or_eq_false_iff.mp hdyn
      obtain ⟨v, ws, rfl, hv, hws⟩ := hvs
      rw [wireFields, List.length_append, wire_length_fixed refs type v htype hv,
        wireFields_length_fixed refs rest ws hrest hws, fixedLengthFields]

end

/-! ## Dynamic types -/

/-- Adding to a sum that is kept in an `int`. -/
theorem wrap32_add_natCast (r : Int) (m k : Nat) :
    wrap32 (wrap32 (r + m) + k) = wrap32 (r + (m + k : Nat)) := by
  rw [wrap32_wrap32_add]
  push_cast
  rw [add_assoc]

theorem cEmitSizeofDims_eq (dim : List Exp) (n : List Int) (r : Int) :
    cEmitSizeofDims dim n (wrap32 r) = wrap32 (r + (wireDims dim n).length) := by
  induction dim generalizing n r with
  | nil => simp [cEmitSizeofDims, wireDims]
  | cons e dim ih =>
      cases n with
      | nil => cases e <;> simp [cEmitSizeofDims, wireDims]
      | cons i n =>
          cases e with
          | integerLiteral value => exact ih n r
          | variableSize =>
              rw [cEmitSizeofDims, sizePacked32_eq, wrap32_wrap32_add, ih, wireDims,
                List.length_append]
              push_cast
              rw [add_assoc]

theorem foldl_mul_wrap32 (limits : List Int) (m : Int) :
    limits.foldl (fun size limit => wrap32 (size * limit)) (wrap32 m) =
      wrap32 (m * limits.prod) := by
  induction limits generalizing m with
  | nil => simp
  | cons limit limits ih =>
      rw [List.foldl_cons, wrap32_wrap32_mul, ih, List.prod_cons, mul_assoc]

/-- Rounds that each add the length of their bytes add the length of all of them. -/
theorem foldlM_add_length {l : List Nat} {step : Int → Nat → Option Int}
    {bytes : Nat → List UInt8}
    (h : ∀ k ∈ l, ∀ r, step (wrap32 r) k = some (wrap32 (r + (bytes k).length))) (r : Int) :
    l.foldlM step (wrap32 r) = some (wrap32 (r + (l.flatMap bytes).length)) := by
  induction l generalizing r with
  | nil => simp
  | cons k l ih =>
      rw [List.foldlM_cons, h k List.mem_cons_self, Option.bind_eq_bind, Option.bind_some,
        ih (fun j hj => h j (List.mem_cons_of_mem _ hj)), List.flatMap_cons, List.length_append]
      push_cast
      rw [add_assoc]

theorem length_le_flatMap {α : Type} {a : List α} {x : α} (h : x ∈ a) (f : α → List UInt8) :
    (f x).length ≤ (a.flatMap f).length := by
  induction a with
  | nil => cases h
  | cons y a ih =>
      rw [List.flatMap_cons, List.length_append]
      rcases List.mem_cons.mp h with rfl | h
      · omega
      · have := ih h
        omega

/-- The loops over an array of dynamic elements. -/
theorem sizeofLoops_eq {dim : List Exp} {n : List Int} {a : List Value}
    (hdim : List.Forall₂ Exp.Admits dim n) (hlen : (a.length : Int) = n.prod)
    (hprod : isVariable dim = true → n.prod < 2 ^ 31)
    {sizeof : Value → Int → Option Int} {bytes : Value → List UInt8}
    (h : ∀ x ∈ a, ∀ r, sizeof x (wrap32 r) = some (wrap32 (r + (bytes x).length))) (r : Int) :
    nest ((loopLimits dim n).map Int.toNat)
      (fun is result => sizeof (getElement a (elementIndex dim (loopLimits dim n) is)) result)
      (wrap32 r) = some (wrap32 (r + (a.flatMap bytes).length)) := by
  have hn := admits_nonneg hdim
  have hcount : (n.map Int.toNat).prod = a.length := by
    have := prod_toNat hn
    omega
  rw [loopLimits_eq hdim]
  rw [nest_congr (g := fun is => sizeof (a.getD (horner (n.map Int.toNat) 0 is) .unset))
    (fun is his => by
      funext result
      rw [elementIndex_eq hn hprod his, getElement_natCast])]
  rw [nest_horner (n.map Int.toNat) (fun k => sizeof (a.getD k .unset)), hcount,
    ← flatMap_getD_range a .unset bytes]
  refine foldlM_add_length (fun k hk r => h _ ?_ r) r
  have hk := List.mem_range.mp hk
  simp [hk]

mutual

/-- **The generated code adds the length of the encoding**, as far as an `int` can count. -/
theorem cEmitSizeof_eq (refs : RefTables) : ∀ (t : DataType) (v : Value),
    cIsDynamic t = true → t.LiteralsFit → WellTyped R t v → (wire refs t v).length < 2 ^ 31 →
    ∀ r, cEmitSizeof t v (wrap32 r) = some (wrap32 (r + (wire refs t v).length))
  | .void, _, hdyn, _, _, _ => by simp [cIsDynamic] at hdyn
  | .prim p, v, hdyn, _, hv, hlen => by
      intro r
      obtain rfl : p = .string := by simpa [cIsDynamic] using hdyn
      obtain ⟨s, rfl, h0⟩ := hv
      rw [wire, List.length_append] at hlen ⊢
      -- the length of a string, and the size of that length
      have hl : wrap32 (strlen s) = s.length := by
        rw [strlen_of_not_mem h0, wrap32_natCast (by omega)]
      rw [cEmitSizeof, hl, toUnsigned_natCast (by omega), sizePacked32_eq, wrap32_add_wrap32,
        wrap32_wrap32_add]
      push_cast
      rfl
  | .user _ type, v, hdyn, hlit, hv, hlen => cEmitSizeof_eq refs type v hdyn hlit hv hlen
  | .struct fields, v, hdyn, hlit, hv, hlen => by
      intro r
      obtain ⟨vs, rfl, hvs⟩ := hv
      rw [wire] at hlen ⊢
      -- the dynamic fields are added one by one, the fixed ones as one number
      obtain ⟨D, F, hsum, hrun⟩ := cEmitSizeofFields_eq refs fields vs hlit hvs hlen
      have hrun0 := hrun r 0
      have hzero : wrap32 0 = 0 := by decide
      have hF : wrap32 (0 + (F : Nat)) = F := by
        rw [zero_add]
        exact wrap32_natCast (by omega)
      rw [hzero, hF] at hrun0
      rw [cEmitSizeof, hrun0, Option.bind_eq_bind, Option.bind_some, ← hsum]
      show some (if (F : Int) > 0 then wrap32 (wrap32 (r + D) + F) else wrap32 (r + D)) = _
      split
      · rw [wrap32_add_natCast]
      · have : F = 0 := by omega
        rw [this]
        rfl
  | .array elem dim, v, hdyn, hlit, hv, hlen => by
      intro r
      obtain ⟨n, a, rfl, hdim, hcount, hprod, hall⟩ := hv
      rw [wire, List.length_append] at hlen ⊢
      rw [cEmitSizeof, cEmitSizeofDims_eq]
      -- a loop over dynamic elements, or one product for fixed ones
      by_cases helem : cIsDynamic elem = true
      · simp only [helem, if_true]
        have hel : ∀ x ∈ a, ∀ r, cEmitSizeof elem x (wrap32 r) =
            some (wrap32 (r + (wire refs elem x).length)) := fun x hx r => by
          have := length_le_flatMap hx (wire refs elem)
          exact cEmitSizeof_eq refs elem x helem hlit.2 (hall x hx) (by omega) r
        rw [sizeofLoops_eq hdim hcount hprod hel]
        push_cast
        rw [add_assoc]
      · rw [Bool.not_eq_true] at helem
        have hbytes := flatMap_length_of_const fun x hx =>
          wire_length_fixed refs elem x helem (hall x hx)
        simp only [helem, Bool.false_eq_true, if_false, cFixedSizeof_eq elem helem hlit.2,
          Option.bind_eq_bind, Option.bind_some, Option.pure_def, loopLimits_eq hdim,
          foldl_mul_wrap32, wrap32_wrap32_add, wrap32_add_wrap32]
        rw [hbytes, ← hcount]
        push_cast
        rw [add_assoc]

theorem cEmitSizeofFields_eq (refs : RefTables) : ∀ (fields : Fields) (vs : List Value),
    fields.LiteralsFit → FieldsTyped R fields vs → (wireFields refs fields vs).length < 2 ^ 31 →
    ∃ D F : Nat, D + F = (wireFields refs fields vs).length ∧ ∀ r f : Int,
      cEmitSizeofFields fields vs (wrap32 r) (wrap32 f) =
        some (wrap32 (r + D), wrap32 (f + F))
  | .nil, vs, _, hvs, _ => by
      obtain rfl : vs = [] := hvs
      exact ⟨0, 0, rfl, fun r f => by simp [cEmitSizeofFields]⟩
  | .cons _ _ type rest, vs, hlit, hvs, hlen => by
      obtain ⟨v, ws, rfl, hv, hws⟩ := hvs
      rw [wireFields, List.length_append] at hlen ⊢
      obtain ⟨D, F, hsum, hrun⟩ :=
        cEmitSizeofFields_eq refs rest ws hlit.2 hws (by omega)
      by_cases htype : cIsDynamic type = true
      · refine ⟨(wire refs type v).length + D, F, by omega, fun r f => ?_⟩
        have hfield := cEmitSizeof_eq refs type v htype hlit.1 hv (by omega) r
        simp only [cEmitSizeofFields, htype, if_true, hfield, Option.bind_eq_bind,
          Option.bind_some, hrun]
        push_cast
        rw [add_assoc]
      · rw [Bool.not_eq_true] at htype
        refine ⟨D, (wire refs type v).length + F, by omega, fun r f => ?_⟩
        have hfield := cFixedSizeof_eq type htype hlit.1
        rw [← wire_length_fixed refs type v htype hv] at hfield
        have hadd : wrap32 (wrap32 f + wrap32 (wire refs type v).length) =
            wrap32 (f + (wire refs type v).length) := by
          rw [wrap32_wrap32_add, wrap32_add_wrap32]
        rw [cEmitSizeofFields, htype, hfield]
        show cEmitSizeofFields rest ws (wrap32 r) (wrap32 (wrap32 f + wrap32 _)) = _
        rw [hadd, hrun]
        push_cast
        rw [add_assoc]

end

/-- **`sizeof_S` returns the length of the encoding.** -/
theorem cSizeof_eq {refs : RefTables} {t : DataType} {v : Value} (hlit : t.LiteralsFit)
    (hv : WellTyped R t v) (hlen : (wire refs t v).length < 2 ^ 31) :
    cSizeof t v = some ((wire refs t v).length : Int) := by
  rw [cSizeof]
  split
  · rename_i hdyn
    have key := cEmitSizeof_eq refs t v hdyn hlit hv hlen 0
    rwa [zero_add, wrap32_natCast hlen] at key
  · rename_i hdyn
    rw [Bool.not_eq_true] at hdyn
    rw [cFixedSizeof_eq t hdyn hlit, ← wire_length_fixed refs t v hdyn hv, Option.bind_eq_bind,
      Option.bind_some, wrap32_natCast hlen, zero_add, wrap32_natCast hlen]
    rfl

end LabComm.C
