import LabComm.Format.DataType
import LabComm.Library.Positional
import LabComm.Library.Int32

set_option autoImplicit false

/-! # Values and the wire format

A value of a data type as the generated C code stores it, and the bytes that stand for it on
the wire. The wire format is stated here once, from the type alone; what the generated
encoders and decoders do is compared with it in the modules on the code.
-/

namespace LabComm

open Library

/-! ## Values -/

/-- A stored value. -/
inductive Value where
  /-- Memory nothing was stored in, and the value of `void`. -/
  | unset
  /-- A value of fixed size, as the number its bytes represent. -/
  | bits (n : Nat)
  /-- The characters of a string, without the terminating zero. -/
  | string (s : List UInt8)
  /-- A reference to a sample type, possibly null. -/
  | ref (s : Option Nat)
  | struct (fields : List Value)
  /-- The dimensions and the elements, in row-major order. -/
  | array (n : List Int) (a : List Value)

/-- The two functions that translate references: `sample_ref_to_index` of the sending encoder
and `index_to_sample_ref` of the receiving decoder. Index 0 stands for null. -/
structure RefTables where
  toIndex : Option Nat → Int
  toRef : Int → Option Nat
  toIndex_none : toIndex none = 0
  toRef_zero : toRef 0 = none

/-- Tables that know no sample type. -/
def noRefs : RefTables := ⟨fun _ => 0, fun _ => none, rfl, rfl⟩

/-- The reference is null, or the receiver's tables give it back. -/
def RefTables.Maps (refs : RefTables) : Option Nat → Prop
  | none => True
  | some s => refs.toRef (refs.toIndex (some s)) = some s ∧
      -2 ^ 31 ≤ refs.toIndex (some s) ∧ refs.toIndex (some s) < 2 ^ 31

theorem RefTables.Maps.toRef_toIndex {refs : RefTables} {s : Option Nat} (h : refs.Maps s) :
    refs.toRef (refs.toIndex s) = s := by
  cases s with
  | none => rw [refs.toIndex_none, refs.toRef_zero]
  | some s => exact h.1

theorem RefTables.Maps.wrap32_toIndex {refs : RefTables} {s : Option Nat} (h : refs.Maps s) :
    wrap32 (toUnsigned (refs.toIndex s)) = refs.toIndex s := by
  cases s with
  | none =>
      rw [refs.toIndex_none]
      rfl
  | some s => exact wrap32_toUnsigned h.2.1 h.2.2

/-- The size of one dimension of an array: a literal is its own size, a variable dimension may
have any size an `int` can hold. -/
def Exp.Admits : Exp → Int → Prop
  | integerLiteral value, n => n = value
  | variableSize, n => 0 ≤ n ∧ n < 2 ^ 31

mutual

/-- The value is one of the type, with references among those `R` says. The elements of a
variable array are counted by an `int`. -/
def WellTyped (R : Option Nat → Prop) : DataType → Value → Prop
  | .void, v => v = Value.unset
  | .prim .string, v => ∃ s, v = Value.string s ∧ (0 : UInt8) ∉ s
  | .prim .sample, v => ∃ s, v = Value.ref s ∧ R s
  | .prim p, v => ∃ n, v = Value.bits n ∧ n < 256 ^ p.size
  | .user _ type, v => WellTyped R type v
  | .struct fields, v => ∃ vs, v = Value.struct vs ∧ FieldsTyped R fields vs
  | .array elem dim, v => ∃ n a, v = Value.array n a ∧ List.Forall₂ Exp.Admits dim n ∧
      (a.length : Int) = n.prod ∧ (isVariable dim = true → n.prod < 2 ^ 31) ∧
      ∀ x ∈ a, WellTyped R elem x

/-- The values are those of the fields, in order. -/
def FieldsTyped (R : Option Nat → Prop) : Fields → List Value → Prop
  | .nil, vs => vs = []
  | .cons _ _ type rest, vs => ∃ v ws, vs = v :: ws ∧ WellTyped R type v ∧
      FieldsTyped R rest ws

end

/-- What becomes of a reference: the index it is sent as, looked up by the receiver. -/
def RefTables.seen (refs : RefTables) (toRef : Int → Option Nat) (s : Option Nat) :
    Option Nat :=
  toRef (wrap32 (toUnsigned (refs.toIndex s)))

mutual

/-- The value with its references translated by `f`. -/
def mapRefs (f : Option Nat → Option Nat) : DataType → Value → Value
  | .prim .sample, .ref s => .ref (f s)
  | .user _ type, v => mapRefs f type v
  | .struct fields, .struct vs => .struct (mapRefsFields f fields vs)
  | .array elem _, .array n a => .array n (a.map (mapRefs f elem))
  | _, v => v

/-- The same of the values of the fields. -/
def mapRefsFields (f : Option Nat → Option Nat) : Fields → List Value → List Value
  | .cons _ _ type rest, v :: vs => mapRefs f type v :: mapRefsFields f rest vs
  | _, vs => vs

end

/-! ## The wire format -/

/-- An unsigned 32-bit number in at most five bytes. -/
def packed32 (n : Nat) : List UInt8 := varint 5 n

/-- The variable dimensions of an array, in order. -/
def wireDims : List Exp → List Int → List UInt8
  | .integerLiteral _ :: dim, _ :: n => wireDims dim n
  | .variableSize :: dim, i :: n => packed32 (toUnsigned i) ++ wireDims dim n
  | _, _ => []

mutual

/-- The bytes of a value. -/
def wire (refs : RefTables) : DataType → Value → List UInt8
  | .prim .string, .string s => packed32 s.length ++ s
  | .prim .sample, .ref s => bigEndian 4 (toUnsigned (refs.toIndex s))
  | .prim p, .bits n => bigEndian p.size n
  | .user _ type, v => wire refs type v
  | .struct fields, .struct vs => wireFields refs fields vs
  | .array elem dim, .array n a => wireDims dim n ++ a.flatMap (wire refs elem)
  | _, _ => []

/-- The bytes of the fields, in order. -/
def wireFields (refs : RefTables) : Fields → List Value → List UInt8
  | .cons _ _ type rest, v :: vs => wire refs type v ++ wireFields refs rest vs
  | _, _ => []

end

theorem packed32_length_pos (n : Nat) : 0 < (packed32 n).length := varint_length_pos 4 n

theorem packed32_length_le (n : Nat) : (packed32 n).length ≤ 5 := varint_length_le 5 n

end LabComm
