import Mathlib.Tactic

set_option autoImplicit false

/-! # LabComm data types

The abstract syntax of a data type after name resolution: a `UserType` carries the type of the
declaration it refers to. Arrays are in the form the compiler's rewrite leaves them in, one
node for each bracketed list of expressions.
-/

namespace LabComm

/-- The bytes of an identifier. -/
abbrev Name := List UInt8

/-! ## Tokens -/

/-- The primitive types of the language. -/
inductive Prim where
  | boolean | byte | short | int | long | float | double | string | sample
  deriving DecidableEq, Repr

/-- The token of a primitive type in a signature. -/
def Prim.token : Prim → Nat
  | boolean => 0x20
  | byte => 0x21
  | short => 0x22
  | int => 0x23
  | long => 0x24
  | float => 0x25
  | double => 0x26
  | string => 0x27
  | sample => 0x28

/-- The token of an array type. -/
def LABCOMM_ARRAY : Nat := 0x10

/-- The token of a struct type. -/
def LABCOMM_STRUCT : Nat := 0x11

theorem Prim.token_inj {p q : Prim} (h : p.token = q.token) : p = q := by
  cases p <;> cases q <;> first | rfl | exact absurd h (by decide)

theorem Prim.token_lt (p : Prim) : p.token < 128 := by
  cases p <;> decide

theorem Prim.token_ne_array (p : Prim) : p.token ≠ LABCOMM_ARRAY := by
  cases p <;> decide

theorem Prim.token_ne_struct (p : Prim) : p.token ≠ LABCOMM_STRUCT := by
  cases p <;> decide

/-- Bytes of a value of fixed size; a string has none, and a sample reference is sent as an
`int`. -/
def Prim.size : Prim → Nat
  | boolean => 1
  | byte => 1
  | short => 2
  | int => 4
  | long => 8
  | float => 4
  | double => 8
  | string => 0
  | sample => 4

/-! ## Types -/

/-- One dimension of an array. -/
inductive Exp where
  | integerLiteral (value : Nat)
  | variableSize
  deriving DecidableEq, Repr

/-- `getExp(i) instanceof VariableSize` -/
def Exp.isVariable : Exp → Bool
  | integerLiteral _ => false
  | variableSize => true

/-- `Dim.isVariable`: an array with a variable dimension is a `VariableArrayType`. -/
def isVariable (dim : List Exp) : Bool := dim.any Exp.isVariable

/-- A key and a value attached to a field. -/
structure Intention where
  key : List UInt8
  value : List UInt8
  deriving DecidableEq, Repr

mutual

/-- A data type. -/
inductive DataType where
  | void
  | prim (p : Prim)
  | user (name : Name) (type : DataType)
  | struct (fields : Fields)
  | array (elem : DataType) (dim : List Exp)

/-- The fields of a struct, in order, with their intentions. -/
inductive Fields where
  | nil
  | cons (intentions : List Intention) (name : Name) (type : DataType) (rest : Fields)

end

/-- `getNumField()` -/
def Fields.length : Fields → Nat
  | nil => 0
  | cons _ _ _ rest => rest.length + 1

/-- `DataType.isNull`: the type is `void`, possibly by way of a typedef. -/
def DataType.isNull : DataType → Bool
  | void => true
  | user _ type => type.isNull
  | _ => false

/-! ## What the parser and the checks promise

A struct has a field, an array a dimension, and neither contains a `void`. The lists are those
of the compiler, and so shorter than `2 ^ 31`. -/

mutual

/-- The type is one the parser builds and the checks let through. -/
def DataType.Accepted : DataType → Prop
  | .void => True
  | .prim _ => True
  | .user _ type => type.Accepted
  | .struct fields => fields.length ≠ 0 ∧ fields.length < 2 ^ 31 ∧ fields.Accepted
  | .array elem dim =>
      dim ≠ [] ∧ dim.length < 2 ^ 31 ∧ elem.isNull = false ∧ elem.Accepted

/-- The same of every field. -/
def Fields.Accepted : Fields → Prop
  | .nil => True
  | .cons intentions _ type rest =>
      intentions.length < 2 ^ 31 ∧ type.isNull = false ∧ type.Accepted ∧ rest.Accepted

end

/-- The literal can be read by `Integer.parseInt`; the compiler throws on any other. -/
def Exp.LiteralFits : Exp → Prop
  | integerLiteral value => value < 2 ^ 31
  | variableSize => True

mutual

/-- Every dimension literal of the type can be read. -/
def DataType.LiteralsFit : DataType → Prop
  | .void => True
  | .prim _ => True
  | .user _ type => type.LiteralsFit
  | .struct fields => fields.LiteralsFit
  | .array elem dim => (∀ e ∈ dim, e.LiteralFits) ∧ elem.LiteralsFit

/-- The same of every field. -/
def Fields.LiteralsFit : Fields → Prop
  | .nil => True
  | .cons _ _ type rest => type.LiteralsFit ∧ rest.LiteralsFit

end

end LabComm
