import LabComm.Python.Codec
import LabComm.Library.TwosComplement
import LabComm.Library.Nesting

set_option autoImplicit false

/-! # Python values

The values that `decode` returns for a declaration, and the methods `encode` and `decode` of the
declarations. An array is not told apart from the values in it: `array.encode` walks over
everything that has a length, and so do `Value.nest` and `shape`.
-/

namespace LabComm.Python

open Library

/-- A value. A float is kept as its bits, and a struct as a dictionary whose keys are the
intentions of the fields. -/
inductive Value where
  | boolean (b : Bool)
  | int (i : Int)
  | float (bits : Nat)
  | double (bits : Nat)
  | string (s : String)
  | null
  | ref (sample : SampleDef String)
  | list (items : List Value)
  | object (items : List (Intentions String × Value))

/-! ## Reference tables -/

/-- What `__eq__` and `__hash__` of a `sample_def` look at. -/
def SampleDef.key (s : SampleDef String) : Option String × Decl String := (s.name, s.decl)

theorem SampleDef.eq_iff {s t : SampleDef String} : s.eq t = true ↔ s.key = t.key := by
  simp [SampleDef.eq, SampleDef.key]

/-- The tables of a codec for sample references. A reference whose intentions have no name is
`None`. -/
structure Refs where
  index_to_ref : List (Int × Option (SampleDef String))
  ref_to_index : List (Option (Option String × Decl String) × Int)
  ref_index : Int

/-- The tables of a new codec. -/
def Refs.new : Refs := ⟨[], [], i_USER⟩

/-- `Codec.add_ref`, where index 0 asks for the next one. -/
def Refs.add_ref (c : Refs) (sample : Option (SampleDef String)) (index : Int) : Refs :=
  let key := sample.map SampleDef.key
  if index = 0 then
    match getItem key c.ref_to_index with
    | some _ => c
    | none =>
        { index_to_ref := setItem c.ref_index sample c.index_to_ref
          ref_to_index := setItem key c.ref_index c.ref_to_index
          ref_index := c.ref_index + 1 }
  else
    { c with
      index_to_ref := setItem index sample c.index_to_ref
      ref_to_index := setItem key index c.ref_to_index }

/-- `index_to_ref.get(index, None)` -/
def Refs.lookup (c : Refs) (index : Int) : Option (SampleDef String) :=
  (getItem index c.index_to_ref).join

/-- A reference that is found under an index has that index. -/
def Refs.Consistent (c : Refs) : Prop :=
  ∀ i s, c.lookup i = some s → getItem (some s.key) c.ref_to_index = some i

theorem Refs.add_ref_consistent {c : Refs} (h : c.Consistent) (sample : SampleDef String) :
    (c.add_ref (some sample) 0).Consistent := by
  unfold Refs.add_ref
  simp only [if_true, Option.map_some]
  split
  · exact h
  · rename_i hnew
    intro i s hi
    unfold Refs.lookup at hi
    rw [getItem_setItem] at hi ⊢
    split at hi
    · rename_i heq
      rw [Option.join_some, Option.some.injEq] at hi
      rw [hi, if_pos rfl, heq]
    · -- an older reference is not the new one, which had no index
      have hs := h i s hi
      rw [if_neg, hs]
      intro hkey
      rw [hkey, hnew] at hs
      cases hs

/-- The tables after some calls of `add_ref`. -/
def refs (samples : List (SampleDef String)) : Refs :=
  samples.foldl (fun c s => c.add_ref (some s) 0) Refs.new

theorem refs_consistent (samples : List (SampleDef String)) : (refs samples).Consistent := by
  have hfold : ∀ c : Refs, c.Consistent →
      (samples.foldl (fun c s => c.add_ref (some s) 0) c).Consistent := by
    induction samples with
    | nil => exact fun c h => h
    | cons s samples ih => exact fun c h => ih _ (Refs.add_ref_consistent h s)
  apply hfold
  intro i s hi
  cases hi

/-! ## Decoding -/

/-- The number that `w` bytes write. -/
def unpack (w : Nat) : Parser PyError Nat := ofBigEndian <$> readBytes .EOFError w

/-- A signed number of `w` bytes. -/
def unpackInt (w : Nat) : Parser PyError Int := signed w <$> unpack w

/-- `Decoder.decode_ref` -/
def decodeRef (c : Refs) : Parser PyError Value := do
  let index ← unpackInt 4
  match c.lookup index with
  | some s => pure (.ref s)
  | none => pure .null

/-- The methods `decode` of the primitives. -/
def decodePrimitive (c : Refs) : Prim → Parser PyError Value
  | .boolean => (fun v => .boolean (v ≠ 0)) <$> unpackInt 1
  | .byte => (fun v : Nat => .int v) <$> unpack 1
  | .short => .int <$> unpackInt 2
  | .int => .int <$> unpackInt 4
  | .long => .int <$> unpackInt 8
  | .float => .float <$> unpack 4
  | .double => .double <$> unpack 8
  | .string => .string <$> decodeString
  | .sample => decodeRef c

/-- An index of 0 stands for a length that is sent. -/
def decodeIndex (i : Nat) : Parser PyError Nat := if i = 0 then decodePacked32 else pure i

/-- The loop of `array.decode` over the indices. -/
def decodeIndices : List Nat → Parser PyError (List Nat)
  | [] => pure []
  | i :: rest => do
      let n ← decodeIndex i
      let indices ← decodeIndices rest
      pure (n :: indices)

/-- `array.decode_value` -/
def decodeValue (decode : Parser PyError Value) : List Nat → Parser PyError Value
  | [] => decode
  | n :: indices => .list <$> times n (decodeValue decode indices)

mutual

/-- The method `decode` of a declaration. -/
def decode (c : Refs) : Decl String → Parser PyError Value
  | .primitive p => decodePrimitive c p
  | .array indices decl => do
      let indices ← decodeIndices indices
      decodeValue (decode c decl) indices
  | .struct field => .object <$> decodeFields c field []

/-- The loop of `struct.decode`. -/
def decodeFields (c : Refs) : Fields String → List (Intentions String × Value) →
    Parser PyError (List (Intentions String × Value))
  | .nil, obj => pure obj
  | .cons intentions decl rest, obj => do
      let v ← decode c decl
      decodeFields c rest (setItem intentions v obj)

end

/-! ## Encoding -/

/-- What a method of the encoder writes. What was written before an exception is left out: encoding
goes on after one only where a struct without fields is given no object, and nothing was written
there. -/
abbrev Written := Except PyError (List UInt8)

/-- The truth value of a value. -/
def Value.truthy : Value → Bool
  | boolean b => b
  | int i => i ≠ 0
  | float bits => bits % 2 ^ 31 ≠ 0
  | double bits => bits % 2 ^ 63 ≠ 0
  | string s => s ≠ ""
  | null => false
  | ref _ => true
  | list items => !items.isEmpty
  | object items => !items.isEmpty

/-- The value as `pack` takes it for an integer. -/
def Value.integer : Value → Except PyError Int
  | boolean b => pure (if b then 1 else 0)
  | int i => pure i
  | _ => throw .structError

/-- `pack` of a signed number of `w` bytes. -/
def packInt (w : Nat) (i : Int) : Written :=
  if SignedFits w i then pure (bigEndian w (unsigned w i)) else throw .structError

/-- `pack` of an unsigned number of `w` bytes. -/
def pack (w : Nat) (i : Int) : Written :=
  if 0 ≤ i ∧ i < (256 ^ w : Nat) then pure (bigEndian w i.toNat) else throw .structError

/-- The methods `encode` of the primitives. -/
def encodePrimitive (c : Refs) : Prim → Value → Written
  | .boolean, v => packInt 1 (if v.truthy then 1 else 0)
  | .byte, v => v.integer >>= pack 1
  | .short, v => v.integer >>= packInt 2
  | .int, v => v.integer >>= packInt 4
  | .long, v => v.integer >>= packInt 8
  | .float, .float bits => pure (bigEndian 4 bits)
  | .float, _ => throw .structError
  | .double, .double bits => pure (bigEndian 8 bits)
  | .double, _ => throw .structError
  | .string, .string s => pure (stringBytes s)
  | .string, _ => throw .AttributeError
  | .sample, .ref s => packInt 4 ((getItem (some s.key) c.ref_to_index).getD 0)
  -- `value.signature`: an `anonymous_object` looks for the key
  | .sample, .object _ => throw .KeyError
  | .sample, _ => throw .AttributeError

/-! ### Arrays -/

/-- A tuple of intentions: each of its items is a pair of strings, which are not walked over. -/
def intentionsNest (intentions : Intentions String) : Nest :=
  .node (intentions.map fun _ => .node [.leaf, .leaf])

mutual

/-- What `len` and iteration find in a value. -/
def Value.nest : Value → Nest
  | .list items => .node (nests items)
  -- iterating over a dictionary gives its keys
  | .object items => .node (items.map fun p => intentionsNest p.1)
  | _ => .leaf

/-- The same for the items of a list. -/
def nests : List Value → List Nest
  | [] => []
  | e :: items => e.nest :: nests items

end

theorem nests_eq_map (items : List Value) : nests items = items.map Value.nest := by
  induction items with
  | nil => rfl
  | cons e items ih => rw [nests, ih, List.map_cons]

/-- The length at a depth, if there is one. -/
def agreed (p : Nat × Nat) : Except PyError Nat :=
  if p.1 ≠ p.2 then throw .exception else pure p.1

/-- `array.shape` -/
def shape (l : Value) : Except PyError (List Nat) := (minMaxShape l.nest 0 []).mapM agreed

/-- The loop of `encode_indices`. -/
def encodeDims : List Nat → List Nat → Written
  | i :: indices, n :: shape =>
      if i = 0 then do
        let bs ← encodeDims indices shape
        pure (encodePacked32 n ++ bs)
      else if i ≠ n then throw .exception
      else encodeDims indices shape
  | _, _ => pure []

/-- `array.encode_indices` -/
def encodeIndices (indices : List Nat) (value : Value) : Written := do
  let shape ← shape value
  if shape.length < indices.length then throw .exception else encodeDims indices shape

/-- `array.encode_value` -/
def encodeValue (encode : Value → Written) : Nat → Value → Written
  | 0, value => encode value
  | depth + 1, .list items => writeEach (encodeValue encode depth) items
  -- no other value has the depth that `encode_indices` found
  | _ + 1, _ => throw .TypeError

/-! ### Structs -/

/-- `dict(intentions)['']` -/
def fieldName (intentions : Intentions String) : Option String := getItem "" (dict intentions)

/-- `zip(map(lambda x: dict(x)[''], obj.keys()), obj.values())` -/
def namedItems : List (Intentions String × Value) → Except PyError (List (String × Value))
  | [] => pure []
  | p :: items => do
      let name ← orKeyError (fieldName p.1)
      let more ← namedItems items
      pure ((name, p.2) :: more)

/-- `tmp_obj` -/
def tmpObj : Value → Except PyError (List (String × Value))
  | .object items => dict <$> namedItems items
  | _ => throw .AttributeError

/-- `getattr(obj, name)` of an object whose keys are tuples, or of a value that is no object.
The attributes that Python's own classes have are left out. -/
def getattr (obj : Value) (name : String) : Except PyError Value :=
  match obj with
  | .object _ => if name.startsWith "_" then throw .AttributeError else throw .KeyError
  | _ => throw .AttributeError

mutual

/-- The method `encode` of a declaration. -/
def encode (c : Refs) : Decl String → Value → Written
  | .primitive p => encodePrimitive c p
  | .array indices decl => fun value => do
      let dims ← encodeIndices indices value
      let bs ← encodeValue (encode c decl) indices.length value
      pure (dims ++ bs)
  | .struct field => fun obj =>
      match (do
        let tmp_obj ← tmpObj obj
        encodeFields c field fun name => orKeyError (getItem name tmp_obj)) with
      -- `except AttributeError`
      | .error .AttributeError => encodeFields c field (getattr obj)
      | written => written

/-- The loop of `struct.encode` over the fields, whose values are looked up by their names. -/
def encodeFields (c : Refs) : Fields String → (String → Except PyError Value) → Written
  | .nil => fun _ => pure []
  | .cons intentions decl rest => fun lookup => do
      let name ← orKeyError (fieldName intentions)
      let value ← lookup name
      let bs ← encode c decl value
      let more ← encodeFields c rest lookup
      pure (bs ++ more)

end

end LabComm.Python
