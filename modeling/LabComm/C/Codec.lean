import LabComm.C.Writer
import LabComm.C.Reader
import LabComm.Library.RowMajor

set_option autoImplicit false

/-! # The generated C codec

The code that `C_emitEncoder` and `C_emitDecoder` generate for a data type, as one recursive
function each. The encoder stops at the first write that fails; the decoder never stops, and
its caller looks at the reader's error field afterwards.

Both are compared with the wire format: the encoder emits `wire t v` (`cEmitEncoder_completes`)
and the decoder parses it (`cEmitDecoder_parses`), whatever the buffers do.
-/

namespace LabComm.C

open Library

/-! ## Loops over an array -/

/-- `C_getLimit`: the loop limit of a dimension, given the stored size `n_i`. -/
def cGetLimit : Exp → Int → Int
  | .integerLiteral value, _ => value
  | .variableSize, n => n

/-- The limits of the loops over an array, outermost first. -/
def loopLimits (dim : List Exp) (n : List Int) : List Int := List.zipWith cGetLimit dim n

/-- The expression `((i_0) * n_1 + i_1) * …` that `C_emitCalcIndex` builds, from the value of
its first part; every operation is on `int`. -/
def calcIndexFrom : Int → List Int → List Nat → Int
  | expr, limit :: limits, i :: is => calcIndexFrom (wrap32 (wrap32 (expr * limit) + i)) limits is
  | expr, _, _ => expr

/-- `C_emitCalcIndex` of a variable array. -/
def cCalcIndex : List Int → List Nat → Int
  | _ :: limits, i :: is => calcIndexFrom i limits is
  | _, _ => 0

/-- The element the loop body works on: `a[i]` with a calculated index in a variable array,
`a[i_0][i_1]…` in a fixed one, whose elements C stores in row-major order. -/
def elementIndex (dim : List Exp) (limits : List Int) (is : List Nat) : Int :=
  if isVariable dim then cCalcIndex limits is else horner (limits.map Int.toNat) 0 is

/-- `a[i]` -/
def getElement (a : List Value) (i : Int) : Value :=
  if 0 ≤ i then a.getD i.toNat .unset else .unset

/-- `a[i] = x` -/
def setElement (a : List Value) (i : Int) (x : Value) : List Value :=
  if 0 ≤ i then a.set i.toNat x else a

/-! ## The encoder -/

variable {ω : WriterAction}

/-- `result = m; if (result != 0) { return result; }` -/
def orReturn (m : StateM (Writer ω) Int) : ExceptT Int (StateM (Writer ω)) Unit := do
  let result ← ExceptT.lift m
  if result ≠ 0 then
    throw result

/-- `C_emitEncoderEncodeLimit`: the results of the writes are not looked at. -/
def cEmitEncoderEncodeLimit : List Exp → List Int → StateM (Writer ω) Unit
  | .integerLiteral _ :: dim, _ :: n => cEmitEncoderEncodeLimit dim n
  | .variableSize :: dim, i :: n => do
      let _ ← writePacked32 (toUnsigned i)
      cEmitEncoderEncodeLimit dim n
  | _, _ => pure ()

mutual

/-- `DataType.C_emitEncoder` -/
def cEmitEncoder (refs : RefTables) : DataType → Value → ExceptT Int (StateM (Writer ω)) Unit
  | .prim .string, .string s => orReturn (writeString s)
  | .prim .sample, .ref s => orReturn (writeScalar 4 (toUnsigned (refs.toIndex s)))
  | .prim p, .bits n => orReturn (writeScalar p.size n)
  | .user _ type, v => cEmitEncoder refs type v
  | .struct fields, .struct vs => cEmitEncoderFields refs fields vs
  | .array elem dim, .array n a => do
      ExceptT.lift (cEmitEncoderEncodeLimit dim n)
      let limits := loopLimits dim n
      nest (limits.map Int.toNat)
        (fun is _ => cEmitEncoder refs elem (getElement a (elementIndex dim limits is))) ()
  | _, _ => pure ()

/-- `Field.C_emitEncoder`, for the fields in order. -/
def cEmitEncoderFields (refs : RefTables) :
    Fields → List Value → ExceptT Int (StateM (Writer ω)) Unit
  | .cons _ _ type rest, v :: vs => do
      cEmitEncoder refs type v
      cEmitEncoderFields refs rest vs
  | _, _ => pure ()

end

/-- The function `encode_S` of a sample type: `result` is 0 when every write succeeded. -/
def cEncode (refs : RefTables) (type : DataType) (v : Value) : StateM (Writer ω) Int := do
  match ← (cEmitEncoder refs type v).run with
  | .ok _ => pure 0
  | .error result => pure result

/-! ## The decoder -/

variable {φ : Host}

/-- `C_emitDecoderDecodeLimit`: `n_i` is an `int`. A literal dimension is not stored. -/
def cEmitDecoderDecodeLimit : List Exp → StateM (Reader φ) (List Int)
  | [] => pure []
  | .integerLiteral value :: dim => do
      let n ← cEmitDecoderDecodeLimit dim
      pure ((value : Int) :: n)
  | .variableSize :: dim => do
      let i ← readPacked32
      let n ← cEmitDecoderDecodeLimit dim
      pure (wrap32 i :: n)

mutual

/-- A string that was read; null is stored like a value that was not set. -/
def stringValue : Option (List UInt8) → Value
  | none => .unset
  | some s => .string s

/-- `DataType.C_emitDecoder`; `toRef` is `r->decoder->index_to_sample_ref`. -/
def cEmitDecoder (toRef : Int → Option Nat) : DataType → StateM (Reader φ) Value
  | .void => pure .unset
  | .prim .string => stringValue <$> readString
  | .prim .sample => (fun i : Nat => Value.ref (toRef (wrap32 i))) <$> readScalar 4
  | .prim p => Value.bits <$> readScalar p.size
  | .user _ type => cEmitDecoder toRef type
  | .struct fields => Value.struct <$> cEmitDecoderFields toRef fields
  | .array elem dim => do
      let n ← cEmitDecoderDecodeLimit dim
      let limits := loopLimits dim n
      -- C_emitDecoderArrayAllocate
      let a := List.replicate (limits.map Int.toNat).prod Value.unset
      let a ← nest (limits.map Int.toNat)
        (fun is a =>
          (fun x => setElement a (elementIndex dim limits is) x) <$> cEmitDecoder toRef elem) a
      pure (Value.array n a)

/-- `Field.C_emitDecoder`, for the fields in order. -/
def cEmitDecoderFields (toRef : Int → Option Nat) : Fields → StateM (Reader φ) (List Value)
  | .nil => pure []
  | .cons _ _ type rest => do
      let v ← cEmitDecoder toRef type
      let vs ← cEmitDecoderFields toRef rest
      pure (v :: vs)

end

/-! ## Array positions -/

/-- What a dimension can be after the limits are read: a literal is itself, and `n_i` is any
`int`. -/
def HoldsSize : Exp → Int → Prop
  | .integerLiteral value, n => n = value
  | .variableSize, n => -2 ^ 31 ≤ n ∧ n < 2 ^ 31

theorem holdsSize_of_admits {e : Exp} {i : Int} (h : e.Admits i) : HoldsSize e i := by
  cases e with
  | integerLiteral value => exact h
  | variableSize => exact ⟨by have := h.1; omega, h.2⟩

theorem loopLimits_of_holds {dim : List Exp} {n : List Int} (h : List.Forall₂ HoldsSize dim n) :
    loopLimits dim n = n := by
  induction h with
  | nil => rfl
  | @cons e i dim n hei _ ih =>
      rw [loopLimits, List.zipWith_cons_cons]
      congr 1
      cases e with
      | integerLiteral value => exact hei.symm
      | variableSize => rfl

theorem loopLimits_eq {dim : List Exp} {n : List Int} (h : List.Forall₂ Exp.Admits dim n) :
    loopLimits dim n = n :=
  loopLimits_of_holds (h.imp fun _ _ => holdsSize_of_admits)

theorem admits_nonneg {dim : List Exp} {n : List Int} (h : List.Forall₂ Exp.Admits dim n) :
    ∀ i ∈ n, 0 ≤ i := by
  induction h with
  | nil => simp
  | @cons e i dim n hei _ ih =>
      intro j hj
      rcases List.mem_cons.mp hj with rfl | hj
      · cases e with
        | integerLiteral value =>
            have : j = value := hei
            omega
        | variableSize => exact hei.1
      · exact ih j hj

theorem map_cast_toNat {n : List Int} (h : ∀ i ∈ n, 0 ≤ i) :
    (n.map Int.toNat).map (Nat.cast : Nat → Int) = n := by
  induction n with
  | nil => rfl
  | cons i n ih =>
      have hi := h i List.mem_cons_self
      rw [List.map_cons, List.map_cons, ih fun j hj => h j (List.mem_cons_of_mem _ hj)]
      congr 1
      omega

theorem prod_toNat {n : List Int} (h : ∀ i ∈ n, 0 ≤ i) :
    (((n.map Int.toNat).prod : Nat) : Int) = n.prod := by
  conv_rhs => rw [← map_cast_toNat h]
  exact Nat.cast_list_prod _

/-- The index expression does not overflow when its value is an `int`. -/
theorem calcIndexFrom_eq {ns is : List Nat} (h : InLimits is ns) (acc : Nat)
    (hlt : horner ns acc is < 2 ^ 31) :
    calcIndexFrom acc (ns.map Nat.cast) is = horner ns acc is := by
  induction h generalizing acc with
  | nil => simp [calcIndexFrom]
  | @cons i n is ns _ hrest ih =>
      rw [horner_cons] at hlt ⊢
      have hle : acc * n + i ≤ horner ns (acc * n + i) is := InLimits.le_horner hrest _
      have hw : wrap32 (wrap32 (acc * n) + i) = ((acc * n + i : Nat) : Int) := by
        rw [wrap32_wrap32_add, ← wrap32_natCast (lt_of_le_of_lt hle hlt)]
        push_cast
        rfl
      rw [List.map_cons, calcIndexFrom, hw]
      exact ih _ hlt

/-- The loop body works on the element at the row-major position of the loop variables. -/
theorem elementIndex_eq {dim : List Exp} {n : List Int} (hn : ∀ i ∈ n, 0 ≤ i)
    (hprod : isVariable dim = true → n.prod < 2 ^ 31) {is : List Nat}
    (his : InLimits is (n.map Int.toNat)) :
    elementIndex dim n is = horner (n.map Int.toNat) 0 is := by
  rw [elementIndex]
  split
  · rename_i hvar
    have hlt := horner_lt his
    have hp := hprod hvar
    rw [← prod_toNat hn] at hp
    generalize hns : n.map Int.toNat = ns at his hlt hp ⊢
    have hcast : n = ns.map Nat.cast := by rw [← hns, map_cast_toNat hn]
    rw [hcast]
    cases his with
    | nil => rfl
    | @cons i k is ks hik hrest =>
        have := calcIndexFrom_eq hrest i (by
          rw [horner_cons] at hlt
          simp only [Nat.zero_mul, Nat.zero_add] at hlt
          omega)
        rw [List.map_cons, cCalcIndex, this, horner_cons]
        simp
  · rfl

theorem getElement_natCast (a : List Value) (k : Nat) :
    getElement a (k : Int) = a.getD k .unset := by
  simp [getElement]

theorem setElement_natCast (a : List Value) (k : Nat) (x : Value) :
    setElement a (k : Int) x = a.set k x := by
  simp [setElement]

/-! ## The codec against the wire format -/

mutual

/-- Every string of a value is shorter than `n`. -/
def StringsBelow (n : Nat) : DataType → Value → Prop
  | .prim .string, .string s => s.length < n
  | .user _ type, v => StringsBelow n type v
  | .struct fields, .struct vs => StringsBelowFields n fields vs
  | .array elem _, .array _ a => ∀ x ∈ a, StringsBelow n elem x
  | _, _ => True

/-- The same of the values of the fields. -/
def StringsBelowFields (n : Nat) : Fields → List Value → Prop
  | .cons _ _ type rest, v :: vs => StringsBelow n type v ∧ StringsBelowFields n rest vs
  | _, _ => True

end

/-- An `int` can hold the length of every string, and the number of bytes with the NUL. -/
abbrev StringsFit : DataType → Value → Prop := StringsBelow (2 ^ 31 - 1)

abbrev StringsFitFields : Fields → List Value → Prop := StringsBelowFields (2 ^ 31 - 1)

mutual

theorem StringsBelow.mono {m n : Nat} (hle : m ≤ n) :
    ∀ (t : DataType) (v : Value), StringsBelow m t v → StringsBelow n t v
  | .void, v, _ => by rw [StringsBelow.eq_def]; trivial
  | .prim p, v, h => by
      cases p with
      | string =>
          cases v with
          | string s => exact lt_of_lt_of_le h hle
          | unset | bits _ | ref _ | struct _ | array _ _ => trivial
      | sample | boolean | byte | short | int | long | float | double =>
          rw [StringsBelow.eq_def]
          trivial
  | .user _ type, v, h => by
      rw [StringsBelow] at h ⊢
      exact StringsBelow.mono hle type v h
  | .struct fields, v, h => by
      cases v with
      | struct vs => exact StringsBelowFields.mono hle fields vs h
      | unset | bits _ | string _ | ref _ | array _ _ => trivial
  | .array elem dim, v, h => by
      cases v with
      | array n a => exact fun x hx => StringsBelow.mono hle elem x (h x hx)
      | unset | bits _ | string _ | ref _ | struct _ => trivial

theorem StringsBelowFields.mono {m n : Nat} (hle : m ≤ n) :
    ∀ (fields : Fields) (vs : List Value),
      StringsBelowFields m fields vs → StringsBelowFields n fields vs
  | .nil, vs, _ => by rw [StringsBelowFields.eq_def]; trivial
  | .cons _ _ type rest, [], _ => trivial
  | .cons _ _ type rest, v :: vs, h =>
      ⟨StringsBelow.mono hle type v h.1, StringsBelowFields.mono hle rest vs h.2⟩

end

theorem StringsFit.below {t : DataType} {v : Value} (h : StringsFit t v) :
    StringsBelow (2 ^ 31) t v := StringsBelow.mono (by norm_num) t v h

theorem orReturn_completes {m : StateM (Writer ω) Int} {bs : List UInt8} (h : Emits m 0 bs) :
    Completes (orReturn m) () bs := by
  have key := (Completes.lift (ε := Int) h).bind
    (f := fun result : Int => (if result ≠ 0 then throw result else pure () :
      ExceptT Int (StateM (Writer ω)) Unit)) (Completes.pure ())
  rwa [List.append_nil] at key

theorem encodeLimit_emits (dim : List Exp) (n : List Int) :
    Emits (cEmitEncoderEncodeLimit (ω := ω) dim n) () (wireDims dim n) := by
  induction dim generalizing n with
  | nil => exact Emits.pure ()
  | cons e dim ih =>
      cases n with
      | nil => cases e <;> exact Emits.pure ()
      | cons i n =>
          cases e with
          | integerLiteral value => exact ih n
          | variableSize => exact (writePacked32_emits _).bind (ih n)

/-- The loops of the encoder write the elements in order. -/
theorem encodeLoops_completes {dim : List Exp} {n : List Int} {a : List Value}
    (hdim : List.Forall₂ Exp.Admits dim n) (hlen : (a.length : Int) = n.prod)
    (hprod : isVariable dim = true → n.prod < 2 ^ 31)
    {encode : Value → ExceptT Int (StateM (Writer ω)) Unit} {bytes : Value → List UInt8}
    (h : ∀ x ∈ a, Completes (encode x) () (bytes x)) :
    Completes (nest ((loopLimits dim n).map Int.toNat)
      (fun is _ => encode (getElement a (elementIndex dim (loopLimits dim n) is))) ()) ()
      (a.flatMap bytes) := by
  have hn := admits_nonneg hdim
  have hcount : (n.map Int.toNat).prod = a.length := by
    have := prod_toNat hn
    omega
  rw [loopLimits_eq hdim]
  rw [nest_congr (g := fun is _ => encode (a.getD (horner (n.map Int.toNat) 0 is) .unset))
    (fun is his => by rw [elementIndex_eq hn hprod his, getElement_natCast])]
  rw [nest_horner (n.map Int.toNat) (fun k _ => encode (a.getD k .unset)) (), hcount,
    ← flatMap_getD_range a .unset bytes]
  refine Completes.foldlM (g := fun b _ => b) (h := fun k => bytes (a.getD k .unset)) _
    (fun k hk _ => h _ ?_) ()
  have hk := List.mem_range.mp hk
  simp [hk]

variable {R : Option Nat → Prop}

mutual

/-- **The generated encoder writes the wire format.** -/
theorem cEmitEncoder_completes (refs : RefTables) :
    ∀ (t : DataType) (v : Value), WellTyped R t v → StringsBelow (2 ^ 31) t v →
      Completes (cEmitEncoder (ω := ω) refs t v) () (wire refs t v)
  | .void, v, hv, _ => by
      obtain rfl : v = .unset := hv
      exact Completes.pure ()
  | .prim p, v, hv, hs => by
      cases p with
      | string =>
          obtain ⟨s, rfl, h0⟩ := hv
          have key := orReturn_completes (writeString_emits (ω := ω) s)
          rwa [stringBytes_eq h0 (show s.length < 2 ^ 31 from hs)] at key
      | sample =>
          obtain ⟨s, rfl, _⟩ := hv
          exact orReturn_completes (writeScalar_emits _ _)
      | boolean | byte | short | int | long | float | double =>
          obtain ⟨n, rfl, _⟩ := hv
          exact orReturn_completes (writeScalar_emits _ _)
  | .user _ type, v, hv, hs => cEmitEncoder_completes refs type v hv hs
  | .struct fields, v, hv, hs => by
      obtain ⟨vs, rfl, hvs⟩ := hv
      exact cEmitEncoderFields_completes refs fields vs hvs hs
  | .array elem dim, v, hv, hs => by
      obtain ⟨n, a, rfl, hdim, hlen, hprod, hall⟩ := hv
      exact (Completes.lift (encodeLimit_emits dim n)).bind
        (encodeLoops_completes hdim hlen hprod fun x hx =>
          cEmitEncoder_completes refs elem x (hall x hx) (hs x hx))

theorem cEmitEncoderFields_completes (refs : RefTables) :
    ∀ (fields : Fields) (vs : List Value), FieldsTyped R fields vs →
      StringsBelowFields (2 ^ 31) fields vs →
      Completes (cEmitEncoderFields (ω := ω) refs fields vs) () (wireFields refs fields vs)
  | .nil, vs, hvs, _ => by
      obtain rfl : vs = [] := hvs
      exact Completes.pure ()
  | .cons _ _ type rest, vs, hvs, hs => by
      obtain ⟨v, ws, rfl, hv, hws⟩ := hvs
      exact (cEmitEncoder_completes refs type v hv hs.1).bind
        (cEmitEncoderFields_completes refs rest ws hws hs.2)

end

theorem nest_completes {ns : List Nat}
    {f : List Nat → Unit → ExceptT Int (StateM (Writer ω)) Unit}
    (h : ∀ is, ∃ bs, Completes (f is ()) () bs) : ∃ bs, Completes (nest ns f ()) () bs := by
  induction ns generalizing f with
  | nil => exact h []
  | cons n ns ih =>
      choose bytes hbytes using fun i : Nat => ih fun is => h (i :: is)
      exact ⟨_, Completes.foldlM (g := fun b _ => b) (List.range n) (fun i _ _ => hbytes i) ()⟩

theorem cEmitEncoder_prim_ends (refs : RefTables) (p : Prim) (v : Value) :
    ∃ bs, Completes (cEmitEncoder (ω := ω) refs (.prim p) v) () bs := by
  generalize ht : DataType.prim p = t
  rw [cEmitEncoder.eq_def]
  split
  · exact ⟨_, orReturn_completes (writeString_emits _)⟩
  · exact ⟨_, orReturn_completes (writeScalar_emits _ _)⟩
  · exact ⟨_, orReturn_completes (writeScalar_emits _ _)⟩
  · cases ht
  · cases ht
  · cases ht
  · exact ⟨_, Completes.pure ()⟩

mutual

/-- Whatever it is given, the generated encoder runs to its end. -/
theorem cEmitEncoder_ends (refs : RefTables) :
    ∀ (t : DataType) (v : Value), ∃ bs, Completes (cEmitEncoder (ω := ω) refs t v) () bs
  | .prim p, v => cEmitEncoder_prim_ends refs p v
  | .user _ type, v => by
      rw [cEmitEncoder]
      exact cEmitEncoder_ends refs type v
  | .struct fields, v => by
      cases v with
      | struct vs => exact cEmitEncoderFields_ends refs fields vs
      | unset | bits _ | string _ | ref _ | array _ _ => exact ⟨_, Completes.pure ()⟩
  | .array elem dim, v => by
      cases v with
      | array n a =>
          have body : ∀ is : List Nat, ∃ bs, Completes (cEmitEncoder (ω := ω) refs elem
              (getElement a (elementIndex dim (loopLimits dim n) is))) () bs :=
            fun is => cEmitEncoder_ends refs elem _
          obtain ⟨bs, hbs⟩ := nest_completes (f := fun is _ => _) body
          exact ⟨_, (Completes.lift (encodeLimit_emits dim n)).bind hbs⟩
      | unset | bits _ | string _ | ref _ | struct _ => exact ⟨_, Completes.pure ()⟩
  | .void, v => by
      cases v <;> exact ⟨_, Completes.pure ()⟩

theorem cEmitEncoderFields_ends (refs : RefTables) :
    ∀ (fields : Fields) (vs : List Value),
      ∃ bs, Completes (cEmitEncoderFields (ω := ω) refs fields vs) () bs
  | .nil, vs => by
      cases vs <;> exact ⟨_, Completes.pure ()⟩
  | .cons _ _ type rest, [] => ⟨_, Completes.pure ()⟩
  | .cons _ _ type rest, v :: vs => by
      obtain ⟨bs, hbs⟩ := cEmitEncoder_ends refs type v
      obtain ⟨cs, hcs⟩ := cEmitEncoderFields_ends refs rest vs
      exact ⟨_, hbs.bind hcs⟩

end

theorem cEncode_of_completes {refs : RefTables} {t : DataType} {v : Value} {bs : List UInt8}
    (h : Completes (cEmitEncoder (ω := ω) refs t v) () bs) : Emits (cEncode (ω := ω) refs t v) 0 bs := by
  have key := Emits.bind (f := fun e : Except Int Unit => (match e with
    | .ok _ => pure 0
    | .error result => pure result : StateM (Writer ω) Int)) h (Emits.pure 0)
  rwa [List.append_nil] at key

/-- `encode_S` returns 0 and writes the wire format. -/
theorem cEncode_emits {refs : RefTables} {t : DataType} {v : Value} (hv : WellTyped R t v)
    (hs : StringsBelow (2 ^ 31) t v) : Emits (cEncode (ω := ω) refs t v) 0 (wire refs t v) :=
  cEncode_of_completes (cEmitEncoder_completes refs t v hv hs)

theorem decodeLimit_sticky (dim : List Exp) :
    Sticky (cEmitDecoderDecodeLimit (φ := φ) dim) := by
  induction dim with
  | nil => exact Sticky.pure []
  | cons e dim ih =>
      cases e with
      | integerLiteral value => exact ih.bind fun _ => Sticky.pure _
      | variableSize => exact readPacked32_sticky.bind fun _ => ih.bind fun _ => Sticky.pure _

/-- The limits are read as the `int`s that were written, whatever their signs. -/
theorem decodeLimit_of_holds {dim : List Exp} {n : List Int}
    (h : List.Forall₂ HoldsSize dim n) :
    Parses (cEmitDecoderDecodeLimit (φ := φ) dim) (wireDims dim n) n := by
  induction h with
  | nil => exact Parses.pure []
  | @cons e i dim n hei _ ih =>
      cases e with
      | integerLiteral value =>
          obtain rfl : i = value := hei
          have := ih.bind (f := fun n => pure ((value : Int) :: n)) (Parses.pure _)
            fun _ => Sticky.pure _
          rwa [List.append_nil] at this
      | variableSize =>
          have hrest := ih.bind (f := fun n => pure (i :: n)) (Parses.pure _)
            fun _ => Sticky.pure _
          rw [List.append_nil] at hrest
          refine (readPacked32_parses (toUnsigned_lt i)).bind ?_
            fun _ => (decodeLimit_sticky dim).bind fun _ => Sticky.pure _
          rw [wrap32_toUnsigned hei.1 hei.2]
          exact hrest

theorem decodeLimit_parses {dim : List Exp} {n : List Int}
    (h : List.Forall₂ Exp.Admits dim n) :
    Parses (cEmitDecoderDecodeLimit (φ := φ) dim) (wireDims dim n) n :=
  decodeLimit_of_holds (h.imp fun _ _ => holdsSize_of_admits)

theorem nest_sticky {β : Type} (ns : List Nat) {body : List Nat → β → StateM (Reader φ) β}
    (h : ∀ is b, Sticky (body is b)) (b : β) : Sticky (nest ns body b) := by
  induction ns generalizing body b with
  | nil => exact h [] b
  | cons n ns ih => exact Sticky.foldlM _ (fun b i => ih (fun is b => h (i :: is) b) b) b

mutual

/-- A pending error survives the generated decoder. -/
theorem cEmitDecoder_sticky (toRef : Int → Option Nat) :
    ∀ t : DataType, Sticky (cEmitDecoder (φ := φ) toRef t)
  | .void => Sticky.pure _
  | .prim p => by
      cases p with
      | string => exact readString_sticky.map _
      | sample => exact (readScalar_sticky 4).map _
      | boolean | byte | short | int | long | float | double =>
          exact (readScalar_sticky _).map _
  | .user _ type => cEmitDecoder_sticky toRef type
  | .struct fields => (cEmitDecoderFields_sticky toRef fields).map _
  | .array elem dim =>
      (decodeLimit_sticky dim).bind fun _ =>
        (nest_sticky _ (fun _ _ => (cEmitDecoder_sticky toRef elem).map _) _).bind
          fun _ => Sticky.pure _

theorem cEmitDecoderFields_sticky (toRef : Int → Option Nat) :
    ∀ fields : Fields, Sticky (cEmitDecoderFields (φ := φ) toRef fields)
  | .nil => Sticky.pure _
  | .cons _ _ type rest =>
      (cEmitDecoder_sticky toRef type).bind fun _ =>
        (cEmitDecoderFields_sticky toRef rest).bind fun _ => Sticky.pure _

end

/-- The loops of the decoder read the elements in order. -/
theorem decodeLoops_parses {dim : List Exp} {n : List Int} {a : List Value}
    (hdim : List.Forall₂ Exp.Admits dim n) (hlen : (a.length : Int) = n.prod)
    (hprod : isVariable dim = true → n.prod < 2 ^ 31)
    {decode : StateM (Reader φ) Value} {bytes : Value → List UInt8} {recv : Value → Value}
    (h : ∀ x ∈ a, Parses decode (bytes x) (recv x)) (hs : Sticky decode) :
    Parses (nest ((loopLimits dim n).map Int.toNat)
      (fun is a => (fun x => setElement a (elementIndex dim (loopLimits dim n) is) x) <$> decode)
      (List.replicate ((loopLimits dim n).map Int.toNat).prod .unset))
      (a.flatMap bytes) (a.map recv) := by
  have hn := admits_nonneg hdim
  have hcount : (n.map Int.toNat).prod = a.length := by
    have := prod_toNat hn
    omega
  rw [loopLimits_eq hdim]
  -- the loops store at the place of the indices in row order, so they are one loop over it
  rw [nest_congr (g := fun is b =>
      (fun x => b.set (horner (n.map Int.toNat) 0 is) x) <$> decode)
    (fun is his => by
      funext b
      simp only [elementIndex_eq hn hprod his, setElement_natCast])]
  rw [nest_horner (n.map Int.toNat) (fun k (b : List Value) => (fun x => b.set k x) <$> decode),
    hcount, ← flatMap_getD_range a .unset bytes]
  -- each round reads one element; the invariant is the list after `k` stores
  have key := Parses.foldlM (List.range a.length)
    (f := fun (b : List Value) k => (fun x => b.set k x) <$> decode)
    (g := fun b k => b.set k ((a.map recv).getD k .unset))
    (h := fun k => bytes (a.getD k .unset))
    (fun k hk b => by
      have hk := List.mem_range.mp hk
      have hx := (h (a.getD k .unset) (by simp [hk])).map fun x => b.set k x
      have hval : (a.map recv).getD k .unset = recv (a.getD k .unset) := by
        simp [hk]
      rw [hval]
      exact hx)
    (fun b k => hs.map _) (List.replicate a.length .unset)
  have hset := foldl_set_eq (a.map recv) (List.replicate a.length .unset) .unset (by simp)
  rw [List.length_map] at hset
  rwa [hset] at key

mutual

/-- **The generated decoder reads the wire format**, where the references are what the receiver
has for their indices. -/
theorem cEmitDecoder_receives {R : Option Nat → Prop} (refs : RefTables)
    (toRef : Int → Option Nat) :
    ∀ (t : DataType) (v : Value), WellTyped R t v → StringsFit t v →
      Parses (cEmitDecoder (φ := φ) toRef t) (wire refs t v) (mapRefs (refs.seen toRef) t v)
  | .void, v, hv, _ => by
      obtain rfl : v = .unset := hv
      exact Parses.pure _
  | .prim p, v, hv, hs => by
      cases p with
      | string =>
          obtain ⟨s, rfl, _⟩ := hv
          have hlength : s.length < 2 ^ 31 - 1 := hs
          exact (readString_parses (by omega)).map stringValue
      | sample =>
          obtain ⟨s, rfl, _⟩ := hv
          have hlt : toUnsigned (refs.toIndex s) < 256 ^ 4 :=
            lt_of_lt_of_le (toUnsigned_lt _) (by norm_num)
          exact (readScalar_parses (φ := φ) hlt).map
            fun i : Nat => Value.ref (toRef (wrap32 i))
      | boolean | byte | short | int | long | float | double =>
          obtain ⟨n, rfl, hlt⟩ := hv
          exact (readScalar_parses hlt).map _
  | .user _ type, v, hv, hs => by
      rw [mapRefs]
      exact cEmitDecoder_receives refs toRef type v hv hs
  | .struct fields, v, hv, hs => by
      obtain ⟨vs, rfl, hvs⟩ := hv
      exact (cEmitDecoderFields_receives refs toRef fields vs hvs hs).map _
  | .array elem dim, v, hv, hs => by
      obtain ⟨n, a, rfl, hdim, hlen, hprod, hall⟩ := hv
      -- the elements come after the limits, and a failed read stops all of them
      have loops := (decodeLoops_parses hdim hlen hprod
        (fun x hx => cEmitDecoder_receives refs toRef elem x (hall x hx) (hs x hx))
        (cEmitDecoder_sticky toRef elem)).bind (f := fun a => pure (Value.array n a))
        (Parses.pure _) fun _ => Sticky.pure _
      rw [List.append_nil] at loops
      exact (decodeLimit_parses hdim).bind loops fun _ =>
        (nest_sticky _ (fun _ _ => (cEmitDecoder_sticky toRef elem).map _) _).bind
          fun _ => Sticky.pure _

theorem cEmitDecoderFields_receives {R : Option Nat → Prop} (refs : RefTables)
    (toRef : Int → Option Nat) :
    ∀ (fields : Fields) (vs : List Value), FieldsTyped R fields vs →
      StringsFitFields fields vs →
      Parses (cEmitDecoderFields (φ := φ) toRef fields) (wireFields refs fields vs)
        (mapRefsFields (refs.seen toRef) fields vs)
  | .nil, vs, hvs, _ => by
      obtain rfl : vs = [] := hvs
      exact Parses.pure _
  | .cons _ _ type rest, vs, hvs, hs => by
      obtain ⟨v, ws, rfl, hv, hws⟩ := hvs
      have htail := (cEmitDecoderFields_receives refs toRef rest ws hws hs.2).bind
        (f := fun ws => pure (mapRefs (refs.seen toRef) type v :: ws)) (Parses.pure _)
        fun _ => Sticky.pure _
      rw [List.append_nil] at htail
      exact (cEmitDecoder_receives refs toRef type v hv hs.1).bind htail fun _ =>
        (cEmitDecoderFields_sticky toRef rest).bind fun _ => Sticky.pure _

end

mutual

/-- References that are given back leave the value as it is. -/
theorem mapRefs_eq {R : Option Nat → Prop} {f : Option Nat → Option Nat}
    (hf : ∀ s, R s → f s = s) :
    ∀ (t : DataType) (v : Value), WellTyped R t v → mapRefs f t v = v
  | .void, v, hv => by
      obtain rfl : v = .unset := hv
      rfl
  | .prim p, v, hv => by
      cases p with
      | string =>
          obtain ⟨s, rfl, _⟩ := hv
          rfl
      | sample =>
          obtain ⟨s, rfl, hs⟩ := hv
          exact congrArg Value.ref (hf s hs)
      | boolean | byte | short | int | long | float | double =>
          obtain ⟨n, rfl, _⟩ := hv
          rfl
  | .user _ type, v, hv => by
      rw [mapRefs]
      exact mapRefs_eq hf type v hv
  | .struct fields, v, hv => by
      obtain ⟨vs, rfl, hvs⟩ := hv
      exact congrArg Value.struct (mapRefsFields_eq hf fields vs hvs)
  | .array elem dim, v, hv => by
      obtain ⟨n, a, rfl, _, _, _, hall⟩ := hv
      have ha : a.map (mapRefs f elem) = a :=
        (List.map_congr_left fun x hx => mapRefs_eq hf elem x (hall x hx)).trans
          (List.map_id a)
      rw [mapRefs, ha]

theorem mapRefsFields_eq {R : Option Nat → Prop} {f : Option Nat → Option Nat}
    (hf : ∀ s, R s → f s = s) :
    ∀ (fields : Fields) (vs : List Value), FieldsTyped R fields vs →
      mapRefsFields f fields vs = vs
  | .nil, vs, hvs => by
      obtain rfl : vs = [] := hvs
      rfl
  | .cons _ _ type rest, vs, hvs => by
      obtain ⟨v, ws, rfl, hv, hws⟩ := hvs
      rw [mapRefsFields, mapRefs_eq hf type v hv, mapRefsFields_eq hf rest ws hws]

end

/-- With tables that map the references the decoder gives the value back. -/
theorem cEmitDecoder_parses (refs : RefTables) (t : DataType) (v : Value)
    (hv : WellTyped refs.Maps t v) (hs : StringsFit t v) :
    Parses (cEmitDecoder (φ := φ) refs.toRef t) (wire refs t v) v := by
  have key := cEmitDecoder_receives (φ := φ) refs refs.toRef t v hv hs
  rwa [mapRefs_eq (fun s hs => by
    rw [RefTables.seen, hs.wrap32_toIndex, hs.toRef_toIndex]) t v hv] at key

end LabComm.C
