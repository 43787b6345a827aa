import LabComm.Format.Packet

set_option autoImplicit false

/-! # The grammar of streams

Which packets can follow each other: a definition carries the signature of a type, and a sample the
data of a value of the type that was last defined for its index. All of this is stated on bytes,
from the types alone, and for numbers below a bound; the format itself has numbers of 32 bits.
-/

namespace LabComm

open Library

/-! ## Signatures -/

/-- A dimension in a signature. -/
def Exp.signature : Exp → List UInt8
  | integerLiteral value => packed32 value
  | variableSize => packed32 0

mutual

/-- The flat signature of a type. -/
def DataType.signature : DataType → List UInt8
  | .void => packed32 LABCOMM_STRUCT ++ packed32 0
  | .prim p => packed32 p.token
  | .user _ type => type.signature
  | .struct fields => packed32 LABCOMM_STRUCT ++ (packed32 fields.length ++ fields.signature)
  | .array elem dim =>
      packed32 LABCOMM_ARRAY ++ (packed32 dim.length ++ (dim.flatMap Exp.signature ++ elem.signature))

/-- The fields in a signature. -/
def Fields.signature : Fields → List UInt8
  | .nil => []
  | .cons intentions _ type rest =>
      intentionsBytes intentions ++ (type.signature ++ rest.signature)

end

mutual

/-- The signature of a type in which the types that `ids` knows are references, and intentions are
in the order of `order`. -/
def DataType.described (ids : Name → Option Nat) (order : List Intention → List Intention) :
    DataType → List UInt8
  | .void => packed32 LABCOMM_STRUCT ++ packed32 0
  | .prim p => packed32 p.token
  | .user name type => ((ids name).map packed32).getD (type.described ids order)
  | .struct fields =>
      packed32 LABCOMM_STRUCT ++ (packed32 fields.length ++ fields.described ids order)
  | .array elem dim => packed32 LABCOMM_ARRAY ++
      (packed32 dim.length ++ (dim.flatMap Exp.signature ++ elem.described ids order))

/-- The fields in such a signature. -/
def Fields.described (ids : Name → Option Nat) (order : List Intention → List Intention) :
    Fields → List UInt8
  | .nil => []
  | .cons intentions _ type rest => intentionsBytes (order intentions) ++
      (type.described ids order ++ rest.described ids order)

end

mutual

/-- A flat signature has no references. -/
theorem DataType.described_none (t : DataType) : t.described (fun _ => none) id = t.signature := by
  match t with
  | .void | .prim _ => rfl
  | .user _ type => exact type.described_none
  | .struct fields => rw [DataType.described, fields.described_none, DataType.signature]
  | .array elem dim => rw [DataType.described, elem.described_none, DataType.signature]

/-- The same of the fields. -/
theorem Fields.described_none (fields : Fields) :
    fields.described (fun _ => none) id = fields.signature := by
  match fields with
  | .nil => rfl
  | .cons _ _ type rest =>
      rw [Fields.described, type.described_none, rest.described_none, Fields.signature]
      rfl

end

/-- A dimension of fixed size is a number that is not 0. -/
def Exp.IsIndex : Exp → Prop
  | integerLiteral value => 0 < value ∧ value < 2 ^ 32
  | variableSize => True

mutual

/-- The dimensions in the type are indices. -/
def DataType.HasIndices : DataType → Prop
  | .void => True
  | .prim _ => True
  | .user _ type => type.HasIndices
  | .struct fields => fields.HasIndices
  | .array elem dim => (∀ e ∈ dim, e.IsIndex) ∧ elem.HasIndices

/-- The same of every field. -/
def Fields.HasIndices : Fields → Prop
  | .nil => True
  | .cons _ _ type rest => type.HasIndices ∧ rest.HasIndices

end

/-! ## Data -/

/-- The size of a dimension that `N` bounds. -/
def Exp.HasSize (N : Nat) : Exp → Nat → Prop
  | integerLiteral value, n => n = value
  | variableSize, n => n < N

/-- What is sent of the size of a dimension. -/
def Exp.sizeBytes : Exp → Nat → List UInt8
  | integerLiteral _, _ => []
  | variableSize, n => packed32 n

/-- The sizes of the variable dimensions. -/
def sizesBytes : List Exp → List Nat → List UInt8
  | e :: dim, n :: ns => e.sizeBytes n ++ sizesBytes dim ns
  | _, _ => []

/-- The rows of an array of these sizes, down to elements with `D`. -/
def Rows (D : List UInt8 → Prop) : List Nat → List UInt8 → Prop
  | [], bs => D bs
  | n :: ns, bs => ∃ rows : List (List UInt8), rows.length = n ∧ (∀ r ∈ rows, Rows D ns r) ∧
      bs = rows.flatten

mutual

/-- The bytes are the data of a value of the type, with strings and dimensions that `N` bounds. -/
def DataType.Data (N : Nat) : DataType → List UInt8 → Prop
  | .void, bs => bs = []
  | .prim .string, bs => ∃ chars, chars.length < N ∧ bs = counted chars
  | .prim p, bs => bs.length = p.size
  | .user _ type, bs => type.Data N bs
  | .struct fields, bs => fields.Data N bs
  | .array elem dim, bs => ∃ ns cs, List.Forall₂ (Exp.HasSize N) dim ns ∧ Rows (elem.Data N) ns cs ∧
      bs = sizesBytes dim ns ++ cs

/-- The bytes are the data of the fields, one after the other. -/
def Fields.Data (N : Nat) : Fields → List UInt8 → Prop
  | .nil, bs => bs = []
  | .cons _ _ type rest, bs => ∃ cs ds, type.Data N cs ∧ rest.Data N ds ∧ bs = cs ++ ds

end

/-! ## Packets -/

/-- An index of a user type. -/
def UserId (index : Nat) : Prop := LABCOMM_USER ≤ index ∧ index < 2 ^ 32

/-- The signatures that were last defined for indices. -/
abbrev Defined := Nat → Option (List UInt8)

/-- Nothing is defined. -/
def Defined.none : Defined := fun _ => Option.none

/-- What is defined after a packet. -/
def Packet.defines (p : Packet) (defined : Defined) : Defined :=
  match p with
  | sampleDef index _ signature => Function.update defined index (some signature)
  | _ => defined

/-- A packet without anything that a decoder of samples needs. -/
def Packet.isMetadata : Packet → Bool
  | typeDef .. => true
  | typeBinding .. => true
  | pragma .. => true
  | _ => false

/-- The signature is that of a type. -/
def IsSignature (signature : List UInt8) : Prop :=
  ∃ type : DataType, type.HasIndices ∧ type.signature = signature

/-- The bytes are the data of a value of a type with the signature. -/
def IsData (N : Nat) (signature bs : List UInt8) : Prop :=
  ∃ type : DataType, type.HasIndices ∧ type.signature = signature ∧ type.Data N bs

/-- The grammar allows the packet where these signatures are defined. -/
def Packet.Allowed (N : Nat) (defined : Defined) (p : Packet) : Prop :=
  p.body.length < N ∧
    match p with
    | version _ => True
    | sampleDef index _ signature => UserId index ∧ IsSignature signature
    | sampleRef index _ signature => UserId index ∧ IsSignature signature
    | typeDef index _ _ => UserId index
    | typeBinding sindex tindex => UserId sindex ∧ (tindex = 0 ∨ UserId tindex)
    | pragma _ _ => True
    | sample index body => UserId index ∧
        ∀ signature, defined index = some signature → IsData N signature body

/-- The grammar allows the packets, one after the other; `N` bounds their lengths and dimensions. -/
def Allowed (N : Nat) : Defined → List (Bool × Packet) → Prop
  | _, [] => True
  | defined, p :: stream => p.2.Allowed N defined ∧ Allowed N (p.2.defines defined) stream

/-- Only metadata is marked. -/
def MarksMetadata (stream : List (Bool × Packet)) : Prop :=
  ∀ p ∈ stream, p.1 = true → p.2.isMetadata = true

theorem Packet.defines_metadata {p : Packet} (h : p.isMetadata = true) (defined : Defined) :
    p.defines defined = defined := by
  cases p with
  | sampleDef | version | sampleRef | sample => cases h
  | typeDef | typeBinding | pragma => rfl

/-- The tag of an allowed packet has 32 bits. -/
theorem Packet.Allowed.tag_lt {N : Nat} {defined : Defined} {p : Packet} (h : p.Allowed N defined) :
    p.tag < 2 ^ 32 := by
  have hids := h.2
  cases p with
  | sample index body => exact hids.1.2
  | version | sampleDef | sampleRef | typeDef | typeBinding | pragma =>
      simp only [Packet.tag]
      decide

theorem Packet.bytes_ne_nil (p : Packet) : p.bytes ≠ [] := by
  have hpos := packed32_length_pos p.tag
  intro h
  have hlength := congrArg List.length h
  rw [Packet.bytes, List.length_append, List.length_nil] at hlength
  omega

theorem Packet.bytes_append (p : Packet) :
    p.bytes = packed32 p.tag ++ (packed32 p.body.length ++ p.body) := by
  rw [Packet.bytes, counted]

end LabComm
