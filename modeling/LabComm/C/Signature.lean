import LabComm.Format.Packet

set_option autoImplicit false

/-! # C signatures

`struct labcomm2014_signature` as the generated code fills it in: a name, the flat signature of
a sample type, the local index given out by `labcomm2014_set_local_index`, and the
hierarchical signature as a list of byte strings and pointers to other signatures. The
pointers form a tree when they are followed, which `mapSignature` walks.
-/

namespace LabComm.C

mutual

/-- `struct labcomm2014_signature`; a typedef has no flat signature, and `index` is 0 until it
is set. -/
inductive Signature where
  | mk (name : List UInt8) (signature : Option (List UInt8)) (index : Int)
      (treedata : SignatureData)

/-- `struct labcomm2014_signature_data[]`: an entry is a non-empty byte string or a pointer. -/
inductive SignatureData where
  | sigdefEnd
  | sigdefBytes (b : UInt8) (bs : List UInt8) (rest : SignatureData)
  | sigdefSignature (s : Signature) (rest : SignatureData)

end

/-- `s->name` -/
def Signature.name : Signature → List UInt8
  | .mk name _ _ _ => name

/-- `s->signature`, null for a typedef. -/
def Signature.signature : Signature → Option (List UInt8)
  | .mk _ signature _ _ => signature

/-- `s->index` -/
def Signature.index : Signature → Int
  | .mk _ _ index _ => index

/-- `s->treedata` -/
def Signature.treedata : Signature → SignatureData
  | .mk _ _ _ treedata => treedata

/-- The bytes `s->signature` points to. -/
def Signature.bytes (s : Signature) : List UInt8 := s.signature.getD []

/-- `s->size` -/
def Signature.size (s : Signature) : Int := s.bytes.length

/-- A sample type that is an `int`. -/
def intSignature : Signature := .mk [97] (some [0x23]) 0x40 (.sigdefBytes 0x23 [] .sigdefEnd)

/-- A sample type that is a `byte`. -/
def byteSignature : Signature := .mk [98] (some [0x21]) 0x41 (.sigdefBytes 0x21 [] .sigdefEnd)

section MapSignature

variable {m : Type → Type} [Monad m]

mutual

/-- `map_signature`: `f` is called on each byte, with no signature, and on each reference,
with byte 0, unless references are followed because of `flatten`. -/
def mapSignature (f : UInt8 → Option Signature → m Unit) (flatten : Bool) : Signature → m Unit
  | .mk _ _ _ treedata => mapSignatureData f flatten treedata

/-- The loop over the entries. -/
def mapSignatureData (f : UInt8 → Option Signature → m Unit) (flatten : Bool) :
    SignatureData → m Unit
  | .sigdefEnd => pure ()
  | .sigdefBytes b bs rest => do
      (b :: bs).forM fun b => f b none
      mapSignatureData f flatten rest
  | .sigdefSignature s rest => do
      if flatten then
        mapSignature f flatten s
      else
        f 0 (some s)
      mapSignatureData f flatten rest

end

end MapSignature

end LabComm.C
