import Mathlib.Data.String.Basic
import Mathlib.Data.List.Lex
import LabComm.Format.Wire
import LabComm.Library.Parsing
import LabComm.Library.Dictionary

set_option autoImplicit false

/-! # Python declarations

The declarations of the Python library: primitives, arrays and structs, and sample definitions
over them, with the equality and the lookups that the codec tables use. Strings are those of
Python 2: a `unicode` object is a `String`, a `str` a list of bytes.
-/

namespace LabComm.Python

open Library

/-! ## Strings -/

/-- A class of strings. -/
class PyText (S : Type) where
  /-- `''` -/
  empty : S
  /-- `v.encode("utf8")`, which may raise `UnicodeDecodeError`. -/
  encode : S → Option (List UInt8)

/-- The order of bytes, and with it that of `str` objects. -/
instance linearOrderUInt8 : LinearOrder UInt8 where
  le_refl _ := UInt8.le_refl _
  le_trans _ _ _ := UInt8.le_trans
  le_antisymm _ _ := UInt8.le_antisymm
  le_total := UInt8.le_total
  lt_iff_le_not_ge a b := by
    rw [UInt8.lt_iff_toNat_lt, UInt8.le_iff_toNat_le, UInt8.le_iff_toNat_le]
    omega
  toDecidableLE := inferInstance

/-- The bytes of a `unicode` object in UTF-8. -/
def utf8 (s : String) : List UInt8 := s.toByteArray.data.toList

instance : PyText String := ⟨"", fun s => some (utf8 s)⟩

/-- A `str` is decoded as ASCII before it is encoded. -/
instance : PyText (List UInt8) := ⟨[], fun s => if s.all (· < 128) then some s else none⟩

/-- `bs.decode("utf8")`, which may raise `UnicodeDecodeError`. -/
def decodeUtf8 (bs : List UInt8) : Option String :=
  if h : ByteArray.IsValidUTF8 ⟨bs.toArray⟩ then some ⟨⟨bs.toArray⟩, h⟩ else none

theorem decodeUtf8_eq_some {bs : List UInt8} {s : String} :
    decodeUtf8 bs = some s ↔ utf8 s = bs := by
  unfold decodeUtf8 utf8
  constructor
  · intro h
    split at h
    · rw [← Option.some.inj h]
    · exact absurd h (by simp)
  · rintro rfl
    have h : (⟨s.toByteArray.data.toList.toArray⟩ : ByteArray) = s.toByteArray := by simp
    rw [dif_pos (by rw [h]; exact s.isValidUTF8)]

/-! ## Declarations -/

variable {S : Type}

/-- The tuple of keys and values that is attached to a field or a sample. -/
abbrev Intentions (S : Type) := List (S × S)

mutual

/-- A declaration inside a sample. -/
inductive Decl (S : Type) where
  | primitive (p : Prim)
  | array (indices : List Nat) (decl : Decl S)
  | struct (field : Fields S)

/-- The fields of a struct. -/
inductive Fields (S : Type) where
  | nil
  | cons (intentions : Intentions S) (decl : Decl S) (rest : Fields S)

end

deriving instance DecidableEq for Decl, Fields

/-- `len(self.field)` -/
def Fields.length : Fields S → Nat
  | nil => 0
  | cons _ _ rest => rest.length + 1

/-- The fields as a list. -/
def Fields.toList : Fields S → List (Intentions S × Decl S)
  | nil => []
  | cons intentions decl rest => (intentions, decl) :: rest.toList

/-- `struct(field)` -/
def Fields.ofList : List (Intentions S × Decl S) → Fields S
  | [] => nil
  | p :: l => cons p.1 p.2 (ofList l)

theorem Fields.ofList_toList (field : Fields S) : ofList field.toList = field := by
  match field with
  | .nil => rfl
  | .cons intentions decl rest => rw [toList, ofList, ofList_toList rest]

theorem Fields.toList_ofList (l : List (Intentions S × Decl S)) : (ofList l).toList = l := by
  induction l with
  | nil => rfl
  | cons p l ih => rw [ofList, toList, ih]

theorem Fields.toList_length (field : Fields S) : field.toList.length = field.length := by
  match field with
  | .nil => rfl
  | .cons intentions decl rest => rw [toList, length, List.length_cons, toList_length rest]

/-! ### Sorted tuples -/

section Sorted

variable [LinearOrder S]

/-- The order of pairs. -/
def pairLe (p q : S × S) : Prop := p.1 < q.1 ∨ p.1 = q.1 ∧ p.2 ≤ q.2

instance : DecidableRel (pairLe (S := S)) := fun _ _ => inferInstanceAs (Decidable (_ ∨ _))

/-- `tuple(sorted(d.iteritems()))` of the dictionary that the pairs make. -/
def sortedTuple (l : Intentions S) : Intentions S := (dict l).insertionSort pairLe

/-- The keys increase. -/
def Increasing (l : Intentions S) : Prop := l.Pairwise fun p q => p.1 < q.1

instance (l : Intentions S) : Decidable (Increasing l) :=
  inferInstanceAs (Decidable (l.Pairwise _))

theorem Increasing.nodup {l : Intentions S} (h : Increasing l) : (l.map Prod.fst).Nodup :=
  List.pairwise_map.mpr (List.Pairwise.imp ne_of_lt h)

theorem pairLe_total (p q : S × S) : pairLe p q ∨ pairLe q p := by
  unfold pairLe
  rcases lt_trichotomy p.1 q.1 with h | h | h
  · exact Or.inl (Or.inl h)
  · rcases le_total p.2 q.2 with h' | h'
    · exact Or.inl (Or.inr ⟨h, h'⟩)
    · exact Or.inr (Or.inr ⟨h.symm, h'⟩)
  · exact Or.inr (Or.inl h)

theorem pairLe_trans {p q r : S × S} (h : pairLe p q) (h' : pairLe q r) : pairLe p r := by
  unfold pairLe at *
  rcases h with h | ⟨h, hv⟩
  · rcases h' with h' | ⟨h', _⟩
    · exact Or.inl (h.trans h')
    · exact Or.inl (h' ▸ h)
  · rcases h' with h' | ⟨h', hv'⟩
    · exact Or.inl (h ▸ h')
    · exact Or.inr ⟨h.trans h', hv.trans hv'⟩

/-- A sorted tuple has increasing keys, whatever the pairs were. -/
theorem sortedTuple_increasing (l : Intentions S) : Increasing (sortedTuple l) := by
  have : Std.Total (pairLe (S := S)) := ⟨pairLe_total⟩
  have : IsTrans (S × S) pairLe := ⟨fun _ _ _ => pairLe_trans⟩
  have hsorted : (sortedTuple l).Pairwise pairLe := List.pairwise_insertionSort _ _
  have hnodup : ((sortedTuple l).map Prod.fst).Nodup :=
    ((List.perm_insertionSort pairLe (dict l)).map Prod.fst).nodup_iff.mpr (dict_nodup l)
  refine (hsorted.and (List.pairwise_map.mp hnodup)).imp ?_
  rintro p q ⟨h | ⟨h, _⟩, hne⟩
  · exact h
  · exact absurd h hne

/-- A tuple with increasing keys is sorted. -/
theorem sortedTuple_of_increasing {l : Intentions S} (h : Increasing l) : sortedTuple l = l := by
  unfold sortedTuple
  rw [dict_of_nodup h.nodup]
  exact List.Pairwise.insertionSort_eq (List.Pairwise.imp Or.inl h)

end Sorted

/-! ### Sample definitions -/

/-- `sample_def`: the sorted intentions, which are those of a dictionary, and a declaration. -/
structure SampleDef (S : Type) [LinearOrder S] where
  intentions : Intentions S
  increasing : Increasing intentions
  decl : Decl S

section SampleDef

variable [LinearOrder S]

/-- `sample_def.__init__` -/
def sampleDef (intentions : Intentions S) (decl : Decl S) : SampleDef S :=
  ⟨sortedTuple intentions, sortedTuple_increasing intentions, decl⟩

/-- `self.name` -/
def SampleDef.name [PyText S] (s : SampleDef S) : Option S := getItem PyText.empty s.intentions

/-- `sample_def.__eq__`: only the name and the declaration count. -/
def SampleDef.eq [PyText S] (s t : SampleDef S) : Bool := s.name = t.name ∧ s.decl = t.decl

end SampleDef

end LabComm.Python
