import LabComm.Format.Wire

set_option autoImplicit false

/-! # Packets

What is sent between an encoder and a decoder: a tag, the length of what follows, and a body
whose shape depends on the tag. A packet is well formed when its numbers and lengths are the
ones its fields can hold.
-/

namespace LabComm

open Library

/-! ## Tags -/

def LABCOMM_VERSION : Nat := 1
def LABCOMM_SAMPLE_DEF : Nat := 2
def LABCOMM_SAMPLE_REF : Nat := 3
def LABCOMM_TYPE_DEF : Nat := 4
def LABCOMM_TYPE_BINDING : Nat := 5
def LABCOMM_PRAGMA : Nat := 0x3f

/-- The first index of a user type. -/
def LABCOMM_USER : Nat := 0x40

/-- The type id of a sample whose type refers to no other. -/
def LABCOMM_BIND_SELF : Int := 0

/-- `LabComm2014` -/
def CURRENT_VERSION : List UInt8 := [76, 97, 98, 67, 111, 109, 109, 50, 48, 49, 52]

/-! ## Bodies -/

/-- A byte of a hierarchical signature, or the id of a type it refers to. -/
inductive SigItem where
  | byte (b : UInt8)
  | typeId (index : Nat)
  deriving DecidableEq

/-- A packet; indices and ids are those of the sender. -/
inductive Packet where
  | version (s : List UInt8)
  | sampleDef (index : Nat) (intentions : List Intention) (signature : List UInt8)
  | sampleRef (index : Nat) (intentions : List Intention) (signature : List UInt8)
  | typeDef (index : Nat) (intentions : List Intention) (signature : List SigItem)
  | typeBinding (sindex tindex : Nat)
  | pragma (type data : List UInt8)
  | sample (index : Nat) (body : List UInt8)
  deriving DecidableEq

/-- A length and that many bytes. -/
def counted (bs : List UInt8) : List UInt8 := packed32 bs.length ++ bs

/-- A key and a value. -/
def Intention.bytes (i : Intention) : List UInt8 := counted i.key ++ counted i.value

/-- The number of intentions and the intentions. -/
def intentionsBytes (intentions : List Intention) : List UInt8 :=
  packed32 intentions.length ++ intentions.flatMap Intention.bytes

/-- A reference is sent as the id of the type. -/
def SigItem.bytes : SigItem → List UInt8
  | byte b => [b]
  | typeId index => packed32 index

/-- The body of a definition. -/
def definitionBytes (index : Nat) (intentions : List Intention) (signature : List UInt8) :
    List UInt8 :=
  packed32 index ++ intentionsBytes intentions ++ counted signature

/-- The tag of a packet; a sample has the index of its type. -/
def Packet.tag : Packet → Nat
  | version _ => LABCOMM_VERSION
  | sampleDef .. => LABCOMM_SAMPLE_DEF
  | sampleRef .. => LABCOMM_SAMPLE_REF
  | typeDef .. => LABCOMM_TYPE_DEF
  | typeBinding .. => LABCOMM_TYPE_BINDING
  | pragma .. => LABCOMM_PRAGMA
  | sample index _ => index

/-- What follows the tag and the length. -/
def Packet.body : Packet → List UInt8
  | version s => counted s
  | sampleDef index intentions signature => definitionBytes index intentions signature
  | sampleRef index intentions signature => definitionBytes index intentions signature
  | typeDef index intentions signature =>
      definitionBytes index intentions (signature.flatMap SigItem.bytes)
  | typeBinding sindex tindex => packed32 sindex ++ packed32 tindex
  | pragma type data => counted type ++ data
  | sample _ body => body

/-- The bytes of a packet. -/
def Packet.bytes (p : Packet) : List UInt8 := packed32 p.tag ++ counted p.body

/-- What comes before the body. -/
def Packet.header (p : Packet) : List UInt8 := packed32 p.tag ++ packed32 p.body.length

theorem Packet.bytes_eq (p : Packet) : p.bytes = p.header ++ p.body := by
  rw [Packet.bytes, counted, Packet.header, List.append_assoc]

/-- The intention that carries the name of a definition. -/
def nameIntention (name : List UInt8) : Intention := ⟨[], name⟩

theorem counted_length (bs : List UInt8) :
    (counted bs).length = (packed32 bs.length).length + bs.length := by
  simp [counted]

theorem length_lt_counted (bs : List UInt8) : bs.length < (counted bs).length := by
  have := packed32_length_pos bs.length
  rw [counted_length]
  omega

theorem length_le_counted (bs : List UInt8) : bs.length ≤ (counted bs).length :=
  (length_lt_counted bs).le

theorem length_le_definitionBytes (index : Nat) (intentions : List Intention)
    (signature : List UInt8) :
    signature.length ≤ (definitionBytes index intentions signature).length := by
  have := length_le_counted signature
  simp only [definitionBytes, List.length_append]
  omega

/-! ## Well-formed packets -/

/-- An index of a user type that an `int` can hold. -/
def UserIndex (index : Nat) : Prop := LABCOMM_USER ≤ index ∧ index < 2 ^ 31

/-- The ids of a packet. -/
def Packet.IdsFit : Packet → Prop
  | version _ => True
  | sampleDef index _ _ => UserIndex index
  | sampleRef index _ _ => UserIndex index
  | typeDef index _ _ => UserIndex index
  | typeBinding sindex tindex => UserIndex sindex ∧ (tindex = 0 ∨ UserIndex tindex)
  | pragma type _ => (0 : UInt8) ∉ type
  | sample index _ => UserIndex index

/-- The ids are user indices and the length can be kept in an `int`. -/
structure Packet.WellFormed (p : Packet) : Prop where
  ids : p.IdsFit
  length : p.body.length < 2 ^ 31

/-- The numbers of a packet have 32 bits, and a sample has the tag of a user type. -/
def Packet.InRange (p : Packet) : Prop :=
  p.body.length < 2 ^ 32 ∧
    match p with
    | version _ => True
    | sampleDef index _ _ => index < 2 ^ 32
    | sampleRef index _ _ => index < 2 ^ 32
    | typeDef index _ _ => index < 2 ^ 32
    | typeBinding sindex tindex => sindex < 2 ^ 32 ∧ tindex < 2 ^ 32
    | pragma _ _ => True
    | sample index _ => LABCOMM_USER ≤ index ∧ index < 2 ^ 32

theorem Packet.InRange.tag_lt {p : Packet} (h : p.InRange) : p.tag < 2 ^ 32 := by
  have hids := h.2
  cases p with
  | sample index body => exact hids.2
  | version | sampleDef | sampleRef | typeDef | typeBinding | pragma =>
      simp only [Packet.tag]
      decide

theorem Packet.WellFormed.tag_lt {p : Packet} (h : p.WellFormed) : p.tag < 2 ^ 31 := by
  have hids := h.ids
  cases p with
  | sample index body => exact hids.2
  | version | sampleDef | sampleRef | typeDef | typeBinding | pragma =>
      simp only [Packet.tag]
      decide

end LabComm
