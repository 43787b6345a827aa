import LabComm.C.RoundTrip
import LabComm.Compiler.ClassTypes
import LabComm.Library.TwosComplement

set_option autoImplicit false

/-! # Generated C# encoders

The code that `CS_emitEncoder` generates for a data type, over the functions of
`EncoderChannel`. If the class that it is in compiles, it writes the bytes that the generated C code
writes, on the value that corresponds to a C value (`encodersAgree_iff`).
-/

namespace LabComm.CSharp

open Library

/-! ## Values -/

/-- A C# value. A float is kept as its bits; an array knows its lengths, and its elements are in
row-major order. -/
inductive Value where
  /-- There is no value of type `void`. -/
  | unit
  | bool (b : Bool)
  | byte (n : Nat)
  | short (i : Int)
  | int (i : Int)
  | long (i : Int)
  | float (bits : Nat)
  | double (bits : Nat)
  | string (s : String)
  | object (fields : List Value)
  | array (lengths : List Nat) (a : List Value)

/-- The exceptions that matter here. -/
inductive Exception where
  | IndexOutOfRangeException
  /-- The code does not fit the value; the C# compiler rejects it. -/
  | typeError
  deriving DecidableEq, Repr

/-- What an encoding writes to `bytes`. -/
abbrev Written := Except Exception (List UInt8)

/-! ## The channel -/

/-- The loop of `WritePacked32` that fills `buf`, lowest group first: it stops at 0, but not
before the first group. `buf` has room for `room` more bytes. -/
def packedGroups : Nat → Nat → Bool → List UInt8
  | 0, _, _ => []
  | room + 1, v, first =>
      if first || v ≠ 0 then
        UInt8.ofNat (v % 128 + if first then 0 else 128) :: packedGroups room (v / 128) false
      else []

/-- `WritePacked32`: `buf` has eight bytes, and is written from the end. -/
def writePacked32 (value : Int) : List UInt8 :=
  (packedGroups 8 (value % 2 ^ 32).toNat true).reverse

/-- `WriteInt`: the loop fills `buf` from the end and shifts the number to the right. -/
def writeInt (value : Int) : Nat → List UInt8
  | 0 => []
  | length + 1 => writeInt (value / 256) length ++ [UInt8.ofNat (value % 256).toNat]

/-- `Encoding.UTF8.GetBytes` -/
def getBytes (s : String) : List UInt8 := s.toByteArray.data.toList

/-- `encodeString` -/
def encodeString (value : String) : List UInt8 :=
  let buf := getBytes value
  writePacked32 buf.length ++ buf

/-- The functions `encodeBoolean`, `encodeByte`, … on a value of their type. -/
def encodePrim : Prim → Value → Written
  | .boolean, .bool value => pure (writeInt (if value then 1 else 0) 1)
  | .byte, .byte value => pure (writeInt value 1)
  | .short, .short value => pure (writeInt value 2)
  | .int, .int value => pure (writeInt value 4)
  | .long, .long value => pure (writeInt value 8)
  -- the bits are read as an `int` and as a `long`
  | .float, .float bits => pure (writeInt (signed 4 bits) 4)
  | .double, .double bits => pure (writeInt (signed 8 bits) 8)
  | .string, .string value => pure (encodeString value)
  | _, _ => throw .typeError

/-! ## The generated code -/

/-- `name.GetLength(i)` -/
def getLength (lengths : List Nat) (i : Nat) : Except Exception Nat :=
  match lengths[i]? with
  | some n => pure n
  | none => throw .IndexOutOfRangeException

/-- `name[i_0, i_1, …]` -/
def getElement (lengths : List Nat) (a : List Value) (is : List Nat) : Except Exception Value :=
  if List.Forall₂ (· < ·) is lengths then
    match a[horner lengths 0 is]? with
    | some v => pure v
    | none => throw .IndexOutOfRangeException
  else throw .IndexOutOfRangeException

/-- `Exp.CS_emitEncoder` for the expressions from the one at `i` on: what is written, and the
limits of the loops. -/
def emitLimits (lengths : List Nat) : Nat → List Exp → Except Exception (List UInt8 × List Nat)
  | _, [] => pure ([], [])
  | i, .integerLiteral value :: dim => do
      let (bs, limits) ← emitLimits lengths (i + 1) dim
      pure (bs, value :: limits)
  | i, .variableSize :: dim => do
      let n ← getLength lengths i
      let (bs, limits) ← emitLimits lengths (i + 1) dim
      pure (writePacked32 n ++ bs, n :: limits)

mutual

/-- What the code of `DataType.CS_emitEncoder` does in a class that compiles (`encoder`); a typedef
has a function with the code of its type, or its code is put in its place. -/
def emitEncoder : DataType → Value → Written
  | .void, _ => pure []
  | .prim p, v => encodePrim p v
  | .user _ type, v => emitEncoder type v
  | .struct fields, .object vs => emitEncoderFields fields vs
  | .array elem dim, .array lengths a => do
      let (bs, limits) ← emitLimits lengths 0 dim
      nest limits (fun is out => do
        let v ← getElement lengths a is
        let more ← emitEncoder elem v
        pure (out ++ more)) bs
  | _, _ => throw .typeError

/-- The fields of a struct, in order. -/
def emitEncoderFields : Fields → List Value → Written
  | .nil, _ => pure []
  | .cons _ _ type rest, v :: vs => do
      let bs ← emitEncoder type v
      let more ← emitEncoderFields rest vs
      pure (bs ++ more)
  | _, _ => throw .typeError

end

/-- The method `encode` of the class that is generated for a sample of this name and type, if there
is such a class. -/
def encoder (name : Name) (t : DataType) : Option (Value → Written) :=
  if Classes.compiles .csharp name t then some (emitEncoder t) else none

/-! ## Corresponding values -/

mutual

/-- The C# value that a C value of the type stands for. A C `boolean` is 0 or 1, a signed number
has the same bytes, and a string is the UTF-8 of a C# string, which is in an array of bytes. -/
def Corresponds : DataType → LabComm.Value → Value → Prop
  | .void, .unset, .unit => True
  | .prim .boolean, .bits n, .bool b => n = if b then 1 else 0
  | .prim .byte, .bits n, .byte m => n = m ∧ m < 256
  | .prim .short, .bits n, .short i => n = unsigned 2 i ∧ SignedFits 2 i
  | .prim .int, .bits n, .int i => n = unsigned 4 i ∧ SignedFits 4 i
  | .prim .long, .bits n, .long i => n = unsigned 8 i ∧ SignedFits 8 i
  | .prim .float, .bits n, .float bits => n = bits ∧ bits < 256 ^ 4
  | .prim .double, .bits n, .double bits => n = bits ∧ bits < 256 ^ 8
  | .prim .string, .string s, .string t => s = getBytes t ∧ s.length < 2 ^ 31
  | .user _ type, v, w => Corresponds type v w
  | .struct fields, .struct vs, .object ws => FieldsCorrespond fields vs ws
  | .array elem _, .array n a, .array lengths b =>
      n = lengths.map Int.ofNat ∧ List.Forall₂ (Corresponds elem) a b
  | _, _, _ => False

/-- The same of the fields, in order. -/
def FieldsCorrespond : Fields → List LabComm.Value → List Value → Prop
  | .nil, [], [] => True
  | .cons _ _ type rest, v :: vs, w :: ws => Corresponds type v w ∧ FieldsCorrespond rest vs ws
  | _, _, _ => False

end

/-! ## The functions of the channel -/

theorem writeInt_eq (w : Nat) (i : Int) : writeInt i w = bigEndian w (unsigned w i) := by
  induction w generalizing i with
  | zero => rfl
  | succ w ih =>
      have hlow : UInt8.ofNat (i % 256).toNat = UInt8.ofNat (unsigned (w + 1) i) := by
        apply UInt8.toNat_inj.mp
        rw [UInt8.toNat_ofNat', UInt8.toNat_ofNat', ← unsigned_succ_mod w i]
        omega
      rw [writeInt, ih, bigEndian_concat, unsigned_succ_div, hlow]

/-- Without the lowest group, the groups that `varint` has. -/
theorem packedGroups_reverse {k v room : Nat} (hv : v < 128 ^ k) (hk : k ≤ room) :
    (packedGroups room v false).reverse = if v = 0 then [] else flagged 128 (groups k v) := by
  induction k generalizing v room with
  | zero =>
      have h0 : v = 0 := by simpa using hv
      subst h0
      cases room <;> rfl
  | succ k ih =>
      obtain ⟨room, rfl⟩ := Nat.exists_eq_succ_of_ne_zero (show room ≠ 0 by omega)
      have hq : v / 128 < 128 ^ k := by
        rw [Nat.div_lt_iff_lt_mul (by decide)]
        rwa [pow_succ] at hv
      by_cases h0 : v = 0
      · simp [packedGroups, h0]
      · simp only [packedGroups, h0, Bool.false_eq_true, ne_eq, not_false_eq_true, decide_true,
          Bool.or_true, if_true, if_false, List.reverse_cons]
        rw [ih hq (by omega), groups, flagged]
        split <;> simp [flagged]

/-- Five bytes are room enough. -/
theorem packedGroups_first_reverse (room : Nat) {v : Nat} (hv : v < 2 ^ 32) (hroom : 5 ≤ room) :
    (packedGroups room v true).reverse = packed32 v := by
  obtain ⟨room, rfl⟩ := Nat.exists_eq_succ_of_ne_zero (show room ≠ 0 by omega)
  have hrest := @packedGroups_reverse 4 (v / 128) room (by omega) (by omega)
  unfold packed32 varint
  rw [packedGroups]
  simp only [Bool.true_or, if_true, List.reverse_cons, Nat.add_zero]
  rw [hrest]
  conv_rhs => rw [groups, flagged, Nat.add_zero]
  split <;> rfl

theorem writePacked32_eq (value : Int) : writePacked32 value = packed32 (toUnsigned value) :=
  packedGroups_first_reverse 8 (toUnsigned_lt value) (by norm_num)

/-! ## The loops over an array -/

theorem emitLimits_eq {dim : List Exp} {ls : List Nat} (before : List Nat)
    (h : List.Forall₂ Exp.Admits dim (ls.map Int.ofNat)) :
    emitLimits (before ++ ls) before.length dim =
      .ok (wireDims dim (ls.map Int.ofNat), ls) := by
  induction dim generalizing before ls with
  | nil =>
      cases ls with
      | nil => rfl
      | cons n ls => cases h
  | cons e dim ih =>
      cases ls with
      | nil => cases h
      | cons n ls =>
          rw [List.map_cons, List.forall₂_cons] at h
          have hrest := ih (before ++ [n]) h.2
          rw [List.append_assoc, List.length_append, List.singleton_append, List.length_singleton] at hrest
          have hget : getLength (before ++ n :: ls) before.length = .ok n := by
            simp [getLength, pure, Except.pure]
          cases e with
          | integerLiteral value =>
              have hvalue : (n : Int) = value := h.1
              obtain rfl : n = value := by omega
              rw [emitLimits, hrest]
              rfl
          | variableSize =>
              rw [emitLimits, hget, hrest]
              show Except.ok (writePacked32 n ++ _, n :: ls) = _
              rw [writePacked32_eq]
              rfl

theorem foldlM_range_append (g : Nat → List UInt8) (n : Nat) (out : List UInt8) :
    (List.range n).foldlM (fun out k => (pure (out ++ g k) : Written)) out =
      .ok (out ++ (List.range n).flatMap g) := by
  induction n with
  | zero => simp [pure, Except.pure]
  | succ n ih =>
      rw [List.range_succ, List.foldlM_append, ih]
      simp [bind, Except.bind, pure, Except.pure]

/-- The loops write the elements in row-major order. -/
theorem loops_eq {encode : Value → Written} {g : Nat → List UInt8} {lengths : List Nat}
    {a : List Value} (hlen : a.length = lengths.prod)
    (h : ∀ k (hk : k < a.length), encode a[k] = .ok (g k)) (bs : List UInt8) :
    nest lengths (fun is out => do
        let v ← getElement lengths a is
        let more ← encode v
        pure (out ++ more)) bs =
      .ok (bs ++ (List.range a.length).flatMap g) := by
  have hbody : ∀ is, InLimits is lengths → ∀ out : List UInt8,
      (do let v ← getElement lengths a is; let more ← encode v; pure (out ++ more)) =
        (pure (out ++ g (horner lengths 0 is)) : Written) := by
    intro is his out
    have hlt : horner lengths 0 is < a.length := by
      rw [hlen]
      exact horner_lt his
    have hget : getElement lengths a is = .ok a[horner lengths 0 is] := by
      unfold getElement
      rw [if_pos (show List.Forall₂ (· < ·) is lengths from his), List.getElem?_eq_getElem hlt]
      rfl
    rw [hget]
    show (do let more ← encode a[horner lengths 0 is]; pure (out ++ more) : Written) = _
    rw [h _ hlt]
    rfl
  rw [nest_congr (fun is his => funext fun out => hbody is his out)]
  rw [← foldlM_range_append, hlen]
  exact nest_horner lengths (fun k out => (pure (out ++ g k) : Written)) bs

/-! ## The generated code -/

theorem encodePrim_eq {p : Prim} {v : LabComm.Value} {w : Value} (refs : RefTables)
    (hc : Corresponds (.prim p) v w) : encodePrim p w = .ok (wire refs (.prim p) v) := by
  have byte (m : Nat) (h : m < 256) : bigEndian 1 (unsigned 1 m) = bigEndian 1 m := by
    congr 1
    unfold unsigned
    omega
  cases p <;> cases v <;> cases w <;> try exact hc.elim
  case boolean n b =>
      obtain rfl : n = if b then 1 else 0 := hc
      cases b <;> rfl
  case byte n m =>
      obtain ⟨rfl, hm⟩ := hc
      simp only [encodePrim, writeInt_eq, byte n hm, wire]
      rfl
  case short n i | int n i | long n i =>
      obtain ⟨rfl, hi⟩ := hc
      simp only [encodePrim, writeInt_eq, wire]
      rfl
  case float n bits | double n bits =>
      obtain ⟨rfl, hbits⟩ := hc
      simp only [encodePrim, writeInt_eq, unsigned_signed hbits, wire]
      rfl
  case string s t =>
      obtain ⟨rfl, hlen⟩ := hc
      simp only [encodePrim, encodeString, writePacked32_eq, wire]
      rw [toUnsigned_natCast (by omega)]
      rfl

variable {R : Option Nat → Prop}

mutual

/-- The generated C# code writes the wire format. -/
theorem emitEncoder_eq (refs : RefTables) :
    ∀ (t : DataType) (v : LabComm.Value) (w : Value), WellTyped R t v → Corresponds t v w →
      emitEncoder t w = .ok (wire refs t v)
  | .void, v, w, hv, hc => by
      obtain rfl : v = .unset := hv
      rfl
  | .prim p, v, w, _, hc => encodePrim_eq refs hc
  | .user _ type, v, w, hv, hc => emitEncoder_eq refs type v w hv hc
  | .struct fields, v, w, hv, hc => by
      obtain ⟨vs, rfl, hvs⟩ := hv
      cases w <;> try exact hc.elim
      case object ws => exact emitEncoderFields_eq refs fields vs ws hvs hc
  | .array elem dim, v, w, hv, hc => by
      obtain ⟨n, a, rfl, hdim, hlen, _, hall⟩ := hv
      cases w <;> try exact hc.elim
      case array lengths b =>
          obtain ⟨rfl, hab⟩ := hc
          have hlimits := emitLimits_eq [] hdim
          -- the array has as many elements as its lengths say
          have hcount : b.length = lengths.prod := by
            have hcast : (lengths.map Int.ofNat).prod = ((lengths.prod : Nat) : Int) :=
              (Nat.cast_list_prod lengths).symm
            rw [hcast] at hlen
            have := hab.length_eq
            omega
          have helem : ∀ k (hk : k < b.length),
              emitEncoder elem b[k] = .ok (wire refs elem (a.getD k .unset)) := by
            intro k hk
            have hka : k < a.length := by
              rw [hab.length_eq]
              exact hk
            rw [show a.getD k .unset = a[k] by simp [hka]]
            exact emitEncoder_eq refs elem _ _ (hall _ (List.getElem_mem hka))
              (List.forall₂_iff_get.mp hab |>.2 k hka hk)
          -- the nested loops go through the elements in their order
          have hloops := loops_eq hcount helem (wireDims dim (lengths.map Int.ofNat))
          rw [emitEncoder, wire, ← flatMap_getD_range a .unset, hab.length_eq, ← hloops]
          rw [List.nil_append, List.length_nil] at hlimits
          rw [hlimits]
          rfl

theorem emitEncoderFields_eq (refs : RefTables) :
    ∀ (fields : Fields) (vs : List LabComm.Value) (ws : List Value), FieldsTyped R fields vs →
      FieldsCorrespond fields vs ws →
      emitEncoderFields fields ws = .ok (wireFields refs fields vs)
  | .nil, vs, ws, hvs, hc => by
      obtain rfl : vs = [] := hvs
      rfl
  | .cons _ _ type rest, vs, ws, hvs, hc => by
      obtain ⟨v, vs, rfl, hv, hvs⟩ := hvs
      cases ws with
      | nil => exact hc.elim
      | cons w ws =>
          rw [emitEncoderFields, emitEncoder_eq refs type v w hv hc.1,
            emitEncoderFields_eq refs rest vs ws hvs hc.2]
          rfl

end

mutual

theorem stringsBelow_of_corresponds :
    ∀ (t : DataType) (v : LabComm.Value) (w : Value), Corresponds t v w → C.StringsBelow (2 ^ 31) t v
  | .void, v, w, hc => by
      cases v <;> trivial
  | .prim p, v, w, hc => by
      cases p <;> cases v <;> try trivial
      case string s =>
        cases w <;> try exact hc.elim
        exact hc.2
  | .user _ type, v, w, hc => stringsBelow_of_corresponds type v w hc
  | .struct fields, v, w, hc => by
      cases v <;> try trivial
      cases w <;> try exact hc.elim
      exact stringsBelowFields_of_corresponds fields _ _ hc
  | .array elem dim, v, w, hc => by
      cases v <;> try trivial
      cases w <;> try exact hc.elim
      case array n a lengths b =>
        intro x hx
        obtain ⟨k, hk, rfl⟩ := List.mem_iff_getElem.mp hx
        have hab := List.forall₂_iff_get.mp hc.2
        exact stringsBelow_of_corresponds elem _ _ (hab.2 k hk (by omega))

theorem stringsBelowFields_of_corresponds :
    ∀ (fields : Fields) (vs : List LabComm.Value) (ws : List Value),
      FieldsCorrespond fields vs ws → C.StringsBelowFields (2 ^ 31) fields vs
  | .nil, vs, ws, _ => by
      cases vs <;> trivial
  | .cons _ _ type rest, vs, ws, hc => by
      cases vs with
      | nil => trivial
      | cons v vs =>
          cases ws with
          | nil => exact hc.elim
          | cons w ws =>
              exact ⟨stringsBelow_of_corresponds type v w hc.1,
                stringsBelowFields_of_corresponds rest vs ws hc.2⟩

end

theorem encoder_of_hasCode (name : Name) {t : DataType} (h : Classes.HasCode .csharp t) :
    encoder name t = some (emitEncoder t) :=
  if_pos ((Classes.compiles_iff .csharp name t).mpr h)

/-- There is a C# encoder, and it writes the same bytes as the C encoder for the values that
correspond to each other. -/
def EncodersAgree (R : Option Nat → Prop) (refs : RefTables) (name : Name) (t : DataType) : Prop :=
  ∃ encode, encoder name t = some encode ∧
    ∀ (v : LabComm.Value) (w : Value), WellTyped R t v → Corresponds t v w →
      ∃ bs, encode w = .ok bs ∧ ∀ ω : C.WriterAction, Emits (C.cEncode (ω := ω) refs t v) 0 bs

/-- **The C and the C# encoder generated for a type write the same bytes** if and only if there is
code for the type in C#. -/
theorem encodersAgree_iff (R : Option Nat → Prop) (refs : RefTables) (name : Name) (t : DataType) :
    EncodersAgree R refs name t ↔ Classes.HasCode .csharp t := by
  constructor
  · rintro ⟨encode, hencode, _⟩
    refine (Classes.compiles_iff .csharp name t).mp (Bool.eq_true_of_not_eq_false fun hnot => ?_)
    rw [encoder, hnot] at hencode
    cases hencode
  · intro ht
    refine ⟨emitEncoder t, encoder_of_hasCode name ht, fun v w hv hc => ?_⟩
    exact ⟨wire refs t v, emitEncoder_eq refs t v w hv hc,
      fun _ => C.cEncode_emits hv (stringsBelow_of_corresponds t v w hc)⟩

/-- `sample boolean a[2];`: there is no type `boolean[]` in C#. -/
theorem not_encodersAgree :
    ¬ EncodersAgree (fun _ => False) noRefs [97] (.array (.prim .boolean) [.integerLiteral 2]) := by
  rintro ⟨encode, hencode, _⟩
  cases hencode

end LabComm.CSharp
