import LabComm.Compiler.Specification
import LabComm.C.Signature

set_option autoImplicit false

/-! # Flat and hierarchical signatures

The two signatures the compiler generates for a declaration, as lists of lines: in the flat one
(`flatSignature`) a user type is replaced by its definition, in the hierarchical one
(`genSigLine`) it is a reference. Each line has data bytes, where numbers are written in the
format of the protocol version.

`none` is a compiler that throws: on a dimension literal that is no `int`, on an intention
whose key or value has 128 bytes or more, and on an unknown version.
-/

namespace LabComm.Compiler

open Library

/-! ## Lines -/

/-- A line of a signature; the last kind refers to a typedef, given with the lines of its own
hierarchical signature. -/
inductive SignatureLine where
  /-- `add(null, comment)` -/
  | comment
  | int (data : Nat)
  | intentions (is : List Intention)
  | typeRef (name : Name) (lines : List SignatureLine)

/-- `Integer.parseInt` of a literal. -/
def parseInt (value : Nat) : Option Nat := if value < 2 ^ 31 then some value else none

/-- The line of a dimension: a variable one is written like the literal 0. -/
def signatureLine : Exp → Option SignatureLine
  | .integerLiteral value => (parseInt value).map .int
  | .variableSize => some (.int 0)

mutual

/-- `DataType.flatSignature` -/
def flatSignature : DataType → Option (List SignatureLine)
  | .void => some [.int LABCOMM_STRUCT, .int 0]
  | .prim p => some [.int p.token]
  | .user _ type => flatSignature type
  | .struct fields => do
      let lines ← flatSignatureFields fields
      pure (.int LABCOMM_STRUCT :: .int fields.length :: (lines ++ [.comment]))
  | .array elem dim => do
      let exps ← dim.mapM signatureLine
      let lines ← flatSignature elem
      pure (.int LABCOMM_ARRAY :: .int dim.length :: (exps ++ (lines ++ [.comment])))

/-- `Field.flatSignature`, for the fields in order. -/
def flatSignatureFields : Fields → Option (List SignatureLine)
  | .nil => some []
  | .cons intentions _ type rest => do
      let lines ← flatSignature type
      let more ← flatSignatureFields rest
      pure (.intentions intentions :: (lines ++ more))

end

mutual

/-- `DataType.genSigLineForDecl` -/
def genSigLine : DataType → Option (List SignatureLine)
  | .void => some [.int LABCOMM_STRUCT, .int 0]
  | .prim p => some [.int p.token]
  | .user name type => do
      let lines ← genSigLine type
      pure [.typeRef name lines]
  | .struct fields => do
      let lines ← genSigLineFields fields
      pure (.int LABCOMM_STRUCT :: .int fields.length :: (lines ++ [.comment]))
  | .array elem dim => do
      let exps ← dim.mapM signatureLine
      let lines ← genSigLine elem
      pure (.int LABCOMM_ARRAY :: .int dim.length :: (exps ++ (lines ++ [.comment])))

/-- `TypeInstance.genSigLineForDecl` of the fields in order. -/
def genSigLineFields : Fields → Option (List SignatureLine)
  | .nil => some []
  | .cons intentions _ type rest => do
      let lines ← genSigLine type
      let more ← genSigLineFields rest
      pure (.intentions intentions :: (lines ++ more))

end

/-! ## Data -/

/-- The order of the keys, `String.compareTo`. -/
def keyLe (i j : Intention) : Bool := decide (i.key ≤ j.key)

/-- `Collections.sort` by key, which is stable. -/
def sortedIntentions (intentions : List Intention) : List Intention :=
  intentions.mergeSort keyLe

/-- `Intention.toByteArray`: the array it fills has room for one byte of each length. -/
def toByteArray (i : Intention) : Option (List UInt8) :=
  let klen := (packed32 i.key.length).length
  let vlen := (packed32 i.value.length).length
  let tlen := i.key.length + i.value.length + (packed32 klen).length + (packed32 vlen).length
  let filled := packed32 i.key.length ++ i.key ++ (packed32 i.value.length ++ i.value)
  if filled.length ≤ tlen then
    some (filled ++ List.replicate (tlen - filled.length) 0)
  else
    none

/-- `getIntentionBytes` -/
def getIntentionBytes (intentions : List Intention) : Option (List UInt8) := do
  let bytes ← (sortedIntentions intentions).mapM toByteArray
  pure (packed32 intentions.length ++ bytes.flatten)

/-- `getIntBytes` -/
def getIntBytes (value version : Nat) : Option (List UInt8) :=
  match version with
  | 2006 => some (bigEndian 4 value)
  | 2014 => some (packed32 value)
  | _ => none

/-- `getData(version)`, where null is no bytes. -/
def SignatureLine.getData (version : Nat) : SignatureLine → Option (List UInt8)
  | .comment => some []
  | .int data => getIntBytes data version
  | .intentions is => getIntentionBytes is
  | .typeRef _ _ => some []

/-- The data of all lines together. -/
def dataBytes (version : Nat) (lines : List SignatureLine) : Option (List UInt8) := do
  let data ← lines.mapM (SignatureLine.getData version)
  pure data.flatten

/-- The bytes of the flat signature of a declaration of type `t`. -/
def flatBytes (version : Nat) (t : DataType) : Option (List UInt8) := do
  let lines ← flatSignature t
  dataBytes version lines

mutual

/-- The data of a line, where a reference stands for the expansion of what it refers to. -/
def expandLine (version : Nat) : SignatureLine → Option (List UInt8)
  | .typeRef _ lines => expandLines version lines
  | .comment => some []
  | .int data => getIntBytes data version
  | .intentions is => getIntentionBytes is

/-- The same of all lines together. -/
def expandLines (version : Nat) : List SignatureLine → Option (List UInt8)
  | [] => some []
  | line :: lines => do
      let a ← expandLine version line
      let b ← expandLines version lines
      pure (a ++ b)

end

/-! ## The C tables -/

/-- `LABCOMM_SIGDEF_BYTES`, left out for a line without data. -/
def emitBytes : List UInt8 → C.SignatureData → C.SignatureData
  | [], rest => rest
  | b :: bs, rest => .sigdefBytes b bs rest

mutual

/-- `SignatureLine.C_emitSignature`: a reference becomes a pointer, and data an entry unless
there is none. `index` are the local indices of the signatures. -/
def emitLine (version : Nat) (index : Name → Int) :
    SignatureLine → Option (C.SignatureData → C.SignatureData)
  | .typeRef name lines => do
      let treedata ← emitLines version index lines
      pure fun rest => .sigdefSignature (.mk name none (index name) treedata) rest
  | .comment => some id
  | .int data => (getIntBytes data version).map emitBytes
  | .intentions is => (getIntentionBytes is).map emitBytes

/-- `SignatureList.C_emitSignature` -/
def emitLines (version : Nat) (index : Name → Int) :
    List SignatureLine → Option C.SignatureData
  | [] => some .sigdefEnd
  | line :: lines => do
      let entry ← emitLine version index line
      let rest ← emitLines version index lines
      pure (entry rest)

end

/-- The `treedata` the generated code has for a declaration of type `t`. -/
def treedata (version : Nat) (index : Name → Int) (t : DataType) : Option C.SignatureData := do
  let lines ← genSigLine t
  emitLines version index lines

/-- What `map_signature` is given to collect the bytes it is called with. -/
def collect (b : UInt8) (_ : Option C.Signature) : StateM (List UInt8) Unit :=
  modify fun bytes => bytes ++ [b]

/-- The bytes `map_signature` visits when it follows references. -/
def mapSignatureFlattened (s : C.Signature) : List UInt8 :=
  ((C.mapSignature collect true s).run []).2

end LabComm.Compiler
