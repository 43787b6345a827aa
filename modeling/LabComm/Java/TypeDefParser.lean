import LabComm.Java.DecoderChannel
import LabComm.Java.EncoderChannel
import LabComm.Compiler.Expansion
import LabComm.Library.Dictionary

set_option autoImplicit false

/-! # The parser of the type definitions

`TypeDefParser.java`, which makes a tree of the hierarchical signature in a `TYPE_DEF`. After the
type of the elements of an array, it reads as many numbers as the array has dimensions once more,
in place of the dimensions it has, and a type that has no name is no type of elements for it.

So it has nothing to read after an array at the end, and loses its place in the middle. What is
parsed is what was emitted for the declarations without an array (`parseTypeDef_emitted`).

The dependencies that it gathers beside the tree are left out.
-/

namespace LabComm.Java

open Library Compiler

/-! ## Trees -/

mutual

/-- A `DataType` of the parser; `null` is what it has for the tag 0. -/
inductive SigType (S : Type) where
  | null
  | array (type : SigType S) (idx : List Int)
  | struct (fields : SigFields S)
  | primitive (tag : Int)
  | user (name : S)

/-- A list of `SigField`. -/
inductive SigFields (S : Type) where
  | nil
  | cons (name : S) (type : SigType S) (rest : SigFields S)

end

/-- What is thrown: while something is read, by `tagName` for a tag that is none of a primitive
type, by the use of a type that is not known, and when calls are nested too deeply. -/
inductive TypeDefException where
  | read (e : DecodeException)
  | notPrimitive (tag : Int)
  | nullPointer
  | stackOverflow
  deriving DecidableEq

/-- A method of `ParserState`. Its `decodePacked32` and `decodeIntentions` are those of the
channel. -/
def reading {α : Type} (p : JavaParser α) : Parser TypeDefException α :=
  fun s => (p.run s).mapError .read

/-- `TypeDef`, with names of type `S`. -/
structure TypeDef (S : Type) where
  index : Int
  name : S
  signature : List UInt8

/-- `ParsedTypeDef` -/
structure ParsedTypeDef (S : Type) where
  idx : Int
  name : S
  type : SigType S

/-- The two maps from indices, of what was handled and of what was parsed. -/
structure TypeDefParser (S : Type) where
  typeDefs : List (Int × TypeDef S)
  pts : List (Int × ParsedTypeDef S)

/-- `DataType.tagName` -/
def tagName (tag : Int) : Option String :=
  if tag = Prim.boolean.token then some "boolean"
  else if tag = Prim.byte.token then some "byte"
  else if tag = Prim.short.token then some "short"
  else if tag = Prim.int.token then some "int"
  else if tag = Prim.long.token then some "long"
  else if tag = Prim.float.token then some "float"
  else if tag = Prim.double.token then some "double"
  else if tag = Prim.string.token then some "string"
  else if tag = Prim.sample.token then some "sample"
  else none

/-! ## Parsing -/

section Parse

variable {S : Type} (newString : List UInt8 → S) (empty : S) (typeDefs : List (Int × TypeDef S))

/-- `lookupType` -/
def lookupTag (tag : Int) : Except TypeDefException (SigType S) :=
  if LABCOMM_USER ≤ tag then
    match getItem tag typeDefs with
    | none => .error .nullPointer
    | some td => .ok (.user td.name)
  else
    match tagName tag with
    | none => .error (.notPrimitive tag)
    | some _ => .ok (.primitive tag)

/-- `parseArray` -/
def parseArray : Parser TypeDefException (SigType S) := do
  let numIdx ← reading decodePacked32
  if numIdx < 0 then
    throw (.read .negativeArraySize)
  else do
    let _ ← times numIdx.toNat (reading decodePacked32)
    let type ← reading decodePacked32
    let elementType ← StateT.lift (lookupTag typeDefs type)
    -- the second loop writes into the array that the result refers to
    let idx ← times numIdx.toNat (reading decodePacked32)
    pure (.array elementType idx)

/-- The loop of `parseStruct` over `parseSigField`, where `parse` is `parseType`. -/
def parseFields (parse : Parser TypeDefException (SigType S)) :
    Nat → Parser TypeDefException (SigFields S)
  | 0 => pure .nil
  | n + 1 => do
      let name ← reading (decodeIntentions newString empty)
      let type ← parse
      let rest ← parseFields parse n
      pure (.cons name type rest)

/-- `parseStruct` -/
def parseStruct (parse : Parser TypeDefException (SigType S)) :
    Parser TypeDefException (SigType S) := do
  let numSigFields ← reading decodePacked32
  let fields ← parseFields newString empty parse numSigFields.toNat
  pure (.struct fields)

/-- `parseType`, for calls nested as deeply as `depth`. -/
def parseType : Nat → Parser TypeDefException (SigType S)
  | 0 => throw .stackOverflow
  | depth + 1 => do
      let tag ← reading decodePacked32
      if tag = 0 then pure .null
      else if tag = LABCOMM_ARRAY then parseArray typeDefs
      else if tag = LABCOMM_STRUCT then parseStruct newString empty (parseType depth)
      else StateT.lift (lookupTag typeDefs tag)

/-- `parseTypeDef` -/
def parseTypeDef (depth : Nat) (td : TypeDef S) :
    Parser TypeDefException (ParsedTypeDef S) := do
  let type ← parseType newString empty typeDefs depth
  pure ⟨td.index, td.name, type⟩

end Parse

/-- `handle_TypeDef`: the definition is known even if it is not parsed. -/
def TypeDefParser.handleTypeDef {S : Type} (newString : List UInt8 → S) (empty : S) (depth : Nat)
    (p : TypeDefParser S) (d : TypeDef S) : Except TypeDefException Unit × TypeDefParser S :=
  let typeDefs := setItem d.index d p.typeDefs
  match (parseTypeDef newString empty typeDefs depth d).run d.signature with
  | .error e => (.error e, { p with typeDefs := typeDefs })
  | .ok (td, _) => (.ok (), { typeDefs := typeDefs, pts := setItem d.index td p.pts })

/-! ## What is emitted -/

/-- The bytes of a line, where a class has an id. -/
def EmitLine.bytes (getTypeId : Name → Nat) : EmitLine → List UInt8
  | encodeBytes bytes => bytes
  | encodeTypeId sampleClass => packed32 (getTypeId sampleClass)

/-- The bytes of some lines of a signature. -/
def emitted (getTypeId : Name → Nat) (lines : List SignatureLine) : Option (List UInt8) :=
  (lines.mapM emitLine).map fun lines => lines.flatMap (EmitLine.bytes getTypeId)

/-- What `emitSignature` writes. -/
def signatureBytes (getTypeId : Name → Nat) (t : DataType) : Option (List UInt8) :=
  (emitSignature t).map fun lines => lines.flatMap (EmitLine.bytes getTypeId)

/-- What it writes for the fields. -/
def signatureFieldBytes (getTypeId : Name → Nat) (fields : Fields) : Option (List UInt8) :=
  (genSigLineFields fields).bind (emitted getTypeId)

/-- The number that is written for a dimension. -/
def dimIdx : Exp → Int
  | .integerLiteral value => value
  | .variableSize => 0

mutual

/-- The tree of a type. -/
def sigType {S : Type} (newString : List UInt8 → S) : DataType → SigType S
  | .void => .struct .nil
  | .prim p => .primitive p.token
  | .user name _ => .user (newString name)
  | .struct fields => .struct (sigFields newString fields)
  | .array elem dim => .array (sigType newString elem) (dim.map dimIdx)

/-- The same of the fields. -/
def sigFields {S : Type} (newString : List UInt8 → S) : Fields → SigFields S
  | .nil => .nil
  | .cons _ name type rest => .cons (newString name) (sigType newString type) (sigFields newString rest)

end

section Emitted

variable (getTypeId : Name → Nat)

theorem signatureBytes_eq (t : DataType) :
    signatureBytes getTypeId t = (genSigLine t).bind (emitted getTypeId) := by
  unfold signatureBytes emitSignature
  cases genSigLine t <;> rfl

theorem emitted_cons (line : SignatureLine) (lines : List SignatureLine) :
    emitted getTypeId (line :: lines) =
      joined ((emitLine line).map (EmitLine.bytes getTypeId)) (emitted getTypeId lines) := by
  unfold emitted joined
  rw [List.mapM_cons]
  cases emitLine line with
  | none => rfl
  | some l =>
      cases lines.mapM emitLine with
      | none => rfl
      | some ls => rfl

theorem emitted_append (l m : List SignatureLine) :
    emitted getTypeId (l ++ m) = joined (emitted getTypeId l) (emitted getTypeId m) := by
  induction l with
  | nil =>
      show emitted getTypeId m = joined (some []) (emitted getTypeId m)
      cases emitted getTypeId m <;> rfl
  | cons line lines ih => rw [List.cons_append, emitted_cons, emitted_cons, ih, joined_assoc]

theorem emitted_ints (a b : Nat) :
    emitted getTypeId [.int a, .int b] = some (packed32 a ++ packed32 b) := by
  show some ([EmitLine.encodeBytes (packed32 a), .encodeBytes (packed32 b)].flatMap _) = _
  simp [EmitLine.bytes]

theorem signatureBytes_struct (fields : Fields) :
    signatureBytes getTypeId (.struct fields) =
      joined (some (packed32 LABCOMM_STRUCT ++ packed32 fields.length))
        (signatureFieldBytes getTypeId fields) := by
  have hlines := bind_between (emitted_append getTypeId) (genSigLineFields fields)
    [.int LABCOMM_STRUCT, .int fields.length] [.comment]
  rw [emitted_ints, show emitted getTypeId [.comment] = some [] from rfl, joined_nil] at hlines
  rw [signatureBytes_eq]
  exact hlines

theorem signatureFieldBytes_cons (intentions : List Intention) (name : Name) (type : DataType)
    (rest : Fields) :
    signatureFieldBytes getTypeId (.cons intentions name type rest) =
      joined (getIntentionBytes intentions)
        (joined (signatureBytes getTypeId type) (signatureFieldBytes getTypeId rest)) := by
  have hlines := bind_after (emitted_append getTypeId) (genSigLine type)
    (genSigLineFields rest) [.intentions intentions]
  have hline : emitted getTypeId [.intentions intentions] = getIntentionBytes intentions := by
    rw [emitted_cons, emitLine]
    cases getIntentionBytes intentions with
    | none => rfl
    | some bs => exact congrArg some (List.append_nil bs)
  rw [hline] at hlines
  rw [signatureBytes_eq]
  exact hlines

theorem signatureBytes_prim (p : Prim) :
    signatureBytes getTypeId (.prim p) = some (packed32 p.token) := by
  have hone : emitted getTypeId [.int p.token] = some (packed32 p.token ++ []) := rfl
  rw [signatureBytes_eq, genSigLine, Option.bind_some, hone, List.append_nil]

theorem signatureBytes_user {name : Name} {type : DataType} {bytes : List UInt8}
    (h : signatureBytes getTypeId (.user name type) = some bytes) :
    bytes = packed32 (getTypeId name) := by
  rw [signatureBytes_eq, genSigLine] at h
  simp only [Option.bind_eq_bind, Option.bind_eq_some_iff, Option.pure_def,
    Option.some.injEq] at h
  obtain ⟨_, ⟨lines, _, rfl⟩, hemit⟩ := h
  have hone : emitted getTypeId [.typeRef name lines] = some (packed32 (getTypeId name) ++ []) :=
    rfl
  rw [hone, Option.some.injEq, List.append_nil] at hemit
  exact hemit.symm

/-- The bytes of dimensions. -/
theorem emitted_dim {dim : List Exp} {exps : List SignatureLine}
    (h : dim.mapM signatureLine = some exps) :
    emitted getTypeId exps = some (dim.flatMap fun e => packed32 (dimIdx e).toNat) := by
  induction dim generalizing exps with
  | nil =>
      cases h
      rfl
  | cons e dim ih =>
      rw [List.mapM_cons] at h
      simp only [Option.bind_eq_bind, Option.bind_eq_some_iff, Option.pure_def,
        Option.some.injEq] at h
      obtain ⟨line, hline, lines, hlines, rfl⟩ := h
      have hbytes : (emitLine line).map (EmitLine.bytes getTypeId) =
          some (packed32 (dimIdx e).toNat) := by
        cases e with
        | variableSize =>
            cases hline
            rfl
        | integerLiteral value =>
            simp only [signatureLine, Option.map_eq_some_iff] at hline
            obtain ⟨n, hn, rfl⟩ := hline
            unfold parseInt at hn
            split at hn
            · rw [← Option.some.inj hn]
              rfl
            · cases hn
      rw [emitted_cons, hbytes, ih hlines]
      rfl

theorem signatureBytes_array {elem : DataType} {dim : List Exp} {bytes : List UInt8}
    (h : signatureBytes getTypeId (.array elem dim) = some bytes) :
    ∃ elems, signatureBytes getTypeId elem = some elems ∧
      bytes = packed32 LABCOMM_ARRAY ++ packed32 dim.length ++
        (dim.flatMap fun e => packed32 (dimIdx e).toNat) ++ elems := by
  rw [signatureBytes_eq, genSigLine] at h
  cases hdim : dim.mapM signatureLine with
  | none =>
      rw [hdim] at h
      exact absurd h (by simp)
  | some exps =>
      have hlines := bind_between (emitted_append getTypeId) (genSigLine elem)
        ([.int LABCOMM_ARRAY, .int dim.length] ++ exps) [.comment]
      rw [show emitted getTypeId [.comment] = some [] from rfl, joined_nil, emitted_append,
        emitted_ints, emitted_dim getTypeId hdim, ← signatureBytes_eq] at hlines
      rw [hdim] at h
      simp only [Option.bind_eq_bind, Option.bind_some, Option.pure_def] at h
      simp only [List.cons_append, List.nil_append] at hlines
      rw [hlines] at h
      obtain ⟨x, elems, hx, helems, rfl⟩ := joined_eq_some h
      have hx' := Option.some.inj hx
      exact ⟨elems, helems, by rw [← hx']⟩

end Emitted

/-! ## Which types come back -/

mutual

/-- The type is written without an array; a reference to one is not one. -/
def ArrayFree : DataType → Prop
  | .void => True
  | .prim _ => True
  | .user _ _ => True
  | .struct fields => FieldsArrayFree fields
  | .array _ _ => False

/-- The same of every field. -/
def FieldsArrayFree : Fields → Prop
  | .nil => True
  | .cons _ _ type rest => ArrayFree type ∧ FieldsArrayFree rest

end

mutual

/-- Every field that is written in the type has intentions and a name with `P`. -/
def FieldsAll (P : List Intention → Name → Prop) : DataType → Prop
  | .void => True
  | .prim _ => True
  | .user _ _ => True
  | .struct fields => AllFields P fields
  | .array elem _ => FieldsAll P elem

/-- The same of the fields. -/
def AllFields (P : List Intention → Name → Prop) : Fields → Prop
  | .nil => True
  | .cons intentions name type rest => P intentions name ∧ FieldsAll P type ∧ AllFields P rest

end

/-- One of the intentions has no key, and its value is the name. -/
def Named (intentions : List Intention) (name : Name) : Prop :=
  intentions.filter (fun i => i.key.length = 0) = [⟨[], name⟩]

/-- The parser knows the names under their ids. -/
def KnownTypes {S : Type} (newString : List UInt8 → S) (getTypeId : Name → Nat)
    (typeDefs : List (Int × TypeDef S)) (names : List Name) : Prop :=
  ∀ name ∈ names, UserIndex (getTypeId name) ∧
    ∃ td, getItem (getTypeId name : Int) typeDefs = some td ∧ td.name = newString name

/-! ## Types without arrays come back -/

theorem reading_consumes {α : Type} {p : JavaParser α} {bs : List UInt8} {a : α}
    (h : Consumes p bs a) : Consumes (reading p) bs a := by
  intro rest
  show (p.run (bs ++ rest)).mapError _ = _
  rw [h rest]
  rfl

theorem number_consumes {n : Nat} (h : n < 2 ^ 31) :
    Consumes (reading decodePacked32) (packed32 n) (n : Int) := by
  have hread := decodePacked32_consumes (n := n) (by omega)
  rw [wrap32_natCast h] at hread
  exact reading_consumes hread

theorem lift_consumes {α : Type} {e : Except TypeDefException α} {a : α} (h : e = .ok a) :
    Consumes (StateT.lift e : Parser TypeDefException α) [] a := by
  intro rest
  rw [h]
  rfl

section Consumes

variable {S : Type} (newString : List UInt8 → S) (empty : S) (typeDefs : List (Int × TypeDef S))

theorem lookupTag_token (p : Prim) :
    lookupTag typeDefs (p.token : Int) = .ok (.primitive p.token) := by
  cases p <;> rfl

theorem lookupTag_user {index : Nat} {td : TypeDef S} (hindex : UserIndex index)
    (h : getItem (index : Int) typeDefs = some td) :
    lookupTag typeDefs (index : Int) = .ok (.user td.name) := by
  have hle : (LABCOMM_USER : Int) ≤ index := by exact_mod_cast hindex.1
  unfold lookupTag
  rw [if_pos hle, h]

/-- The name of a field is the value of the intention without a key, wherever it stands. -/
theorem nameOf_sorted {intentions : List Intention} {name : Name} (h : Named intentions name) :
    nameOf newString empty (sortedIntentions intentions) = newString name := by
  have hfilter : ∀ (l : List Intention) (s : S), nameOf newString s l =
      nameOf newString s (l.filter fun i => i.key.length = 0) := by
    intro l
    induction l with
    | nil => exact fun s => rfl
    | cons i l ih =>
        intro s
        rw [nameOf, List.foldl_cons]
        by_cases hi : i.key.length = 0
        · rw [if_pos hi, List.filter_cons_of_pos (by simpa using hi), nameOf, List.foldl_cons,
            if_pos hi]
          exact ih _
        · rw [if_neg hi, List.filter_cons_of_neg (by simpa using hi)]
          exact ih _
  have hperm : ((sortedIntentions intentions).filter fun i => i.key.length = 0).Perm
      [⟨[], name⟩] := by
    rw [← h]
    exact (List.mergeSort_perm _ _).filter _
  rw [hfilter, List.perm_singleton.mp hperm]
  rfl

variable {newString empty typeDefs}
variable {getTypeId : Name → Nat}

mutual

theorem parseType_consumes : ∀ t : DataType, ArrayFree t → t.Accepted → FieldsAll Named t →
    KnownTypes newString getTypeId typeDefs (userTypes t) →
    ∀ bytes, signatureBytes getTypeId t = some bytes →
    ∃ enough, ∀ depth, enough ≤ depth →
      Consumes (parseType newString empty typeDefs depth) bytes (sigType newString t)
  | .void, _, _, _, _, bytes, hbytes => by
      refine ⟨1, fun depth hdepth => ?_⟩
      obtain ⟨depth, rfl⟩ : ∃ d, depth = d + 1 := ⟨depth - 1, by omega⟩
      rw [signatureBytes_eq, genSigLine, Option.bind_some, emitted_ints,
        Option.some.injEq] at hbytes
      rw [← hbytes]
      unfold parseType
      refine (number_consumes (n := LABCOMM_STRUCT) (by decide)).bind ?_
      rw [if_neg (by decide), if_neg (by decide), if_pos rfl]
      unfold parseStruct
      rw [← List.append_nil (packed32 0)]
      exact (number_consumes (n := 0) (by decide)).bind (Consumes.pure _)
  | .prim p, _, _, _, _, bytes, hbytes => by
      refine ⟨1, fun depth hdepth => ?_⟩
      obtain ⟨depth, rfl⟩ : ∃ d, depth = d + 1 := ⟨depth - 1, by omega⟩
      rw [signatureBytes_prim, Option.some.injEq] at hbytes
      -- the token of a primitive is none of the three that the parser branches on
      have htag : (p.token : Int) ≠ 0 ∧ (p.token : Int) ≠ LABCOMM_ARRAY ∧
          (p.token : Int) ≠ LABCOMM_STRUCT := by
        cases p <;> decide
      rw [← hbytes, ← List.append_nil (packed32 p.token)]
      unfold parseType
      refine (number_consumes (lt_trans p.token_lt (by norm_num))).bind ?_
      rw [if_neg htag.1, if_neg htag.2.1, if_neg htag.2.2]
      exact lift_consumes (lookupTag_token typeDefs p)
  | .user name type, _, _, _, hknown, bytes, hbytes => by
      refine ⟨1, fun depth hdepth => ?_⟩
      obtain ⟨depth, rfl⟩ : ∃ d, depth = d + 1 := ⟨depth - 1, by omega⟩
      obtain ⟨hindex, td, hget, hname⟩ := hknown name (by simp [userTypes])
      have hle := hindex.1
      unfold LABCOMM_USER at hle
      rw [signatureBytes_user getTypeId hbytes, ← List.append_nil (packed32 (getTypeId name))]
      unfold parseType
      refine (number_consumes hindex.2).bind ?_
      -- nor is the index of a type, which is a user index
      rw [if_neg (by omega), if_neg (by unfold LABCOMM_ARRAY; omega),
        if_neg (by unfold LABCOMM_STRUCT; omega)]
      rw [sigType, ← hname]
      exact lift_consumes (lookupTag_user typeDefs hindex hget)
  | .struct fields, hfree, hacc, hnamed, hknown, bytes, hbytes => by
      rw [signatureBytes_struct] at hbytes
      obtain ⟨x, body, hx, hbody, rfl⟩ := joined_eq_some hbytes
      obtain ⟨enough, hfields⟩ := parseFields_consumes fields hfree hacc.2.2 hnamed hknown body hbody
      refine ⟨enough + 1, fun depth hdepth => ?_⟩
      obtain ⟨depth, rfl⟩ : ∃ d, depth = d + 1 := ⟨depth - 1, by omega⟩
      rw [← Option.some.inj hx, List.append_assoc]
      unfold parseType
      refine (number_consumes (n := LABCOMM_STRUCT) (by decide)).bind ?_
      rw [if_neg (by decide), if_neg (by decide), if_pos rfl]
      unfold parseStruct
      refine (number_consumes hacc.2.1).bind ?_
      rw [Int.toNat_natCast, ← List.append_nil body]
      exact (hfields depth (by omega)).bind (Consumes.pure _)
  | .array elem dim, hfree, _, _, _, _, _ => absurd hfree id

theorem parseFields_consumes : ∀ fields : Fields, FieldsArrayFree fields → fields.Accepted →
    AllFields Named fields → KnownTypes newString getTypeId typeDefs (userTypesFields fields) →
    ∀ bytes, signatureFieldBytes getTypeId fields = some bytes →
    ∃ enough, ∀ depth, enough ≤ depth →
      Consumes (parseFields newString empty (parseType newString empty typeDefs depth)
        fields.length) bytes (sigFields newString fields)
  | .nil, _, _, _, _, bytes, hbytes => by
      refine ⟨0, fun depth _ => ?_⟩
      have hnil : signatureFieldBytes getTypeId .nil = some [] := rfl
      rw [hnil, Option.some.injEq] at hbytes
      rw [← hbytes]
      exact Consumes.pure _
  | .cons intentions name type rest, hfree, hacc, hnamed, hknown, bytes, hbytes => by
      rw [signatureFieldBytes_cons] at hbytes
      obtain ⟨x, y, hx, hy, rfl⟩ := joined_eq_some hbytes
      obtain ⟨a, b, ha, hb, rfl⟩ := joined_eq_some hy
      obtain ⟨enough, htype⟩ := parseType_consumes type hfree.1 hacc.2.2.1 hnamed.2.1
        (fun n hn => hknown n (List.mem_append_left _ hn)) a ha
      obtain ⟨enough', hrest⟩ := parseFields_consumes rest hfree.2 hacc.2.2.2 hnamed.2.2
        (fun n hn => hknown n (List.mem_append_right _ hn)) b hb
      obtain ⟨hx, hshort⟩ := getIntentionBytes_eq hx
      have hname : Consumes (decodeIntentions newString empty) x (newString name) := by
        rw [hx, ← nameOf_sorted newString empty hnamed.1]
        refine decodeIntentions_consumes newString ?_ ?_ empty
        · rw [sortedIntentions, List.length_mergeSort]
          exact hacc.1
        · intro i hi
          have := hshort i hi
          omega
      refine ⟨max enough enough', fun depth hdepth => ?_⟩
      rw [Fields.length, parseFields]
      refine (reading_consumes hname).bind ((htype depth (by omega)).bind ?_)
      rw [← List.append_nil b]
      exact (hrest depth (by omega)).bind (Consumes.pure _)

end

end Consumes

/-! ## What arrays cost -/

theorem run_pure_eq_ok {ε α : Type} {a b : α} {s q : List UInt8}
    (h : (pure a : Parser ε α).run s = .ok (b, q)) : a = b ∧ s = q := by
  have h' : (Except.ok (a, s) : Except ε _) = .ok (b, q) := h
  simpa using h'

theorem reading_run {α : Type} {p : JavaParser α} {a : α} {s q : List UInt8}
    (h : (reading p).run s = .ok (a, q)) : p.run s = .ok (a, q) := by
  have h' : (p.run s).mapError TypeDefException.read = .ok (a, q) := h
  cases hp : p.run s with
  | error e =>
      rw [hp] at h'
      simp [Except.mapError] at h'
  | ok x =>
      rw [hp] at h'
      simpa [Except.mapError] using h'

theorem reading_uses {α : Type} {p : JavaParser α} {a : α} {n : Nat} (h : Uses p a n) :
    Uses (reading p) a n :=
  fun s q hrun => h s q (reading_run hrun)

theorem number_uses (v : Int) : Uses (reading decodePacked32) v (packed32 v.toNat).length :=
  reading_uses (decodePacked32_uses v)

section Uses

variable {S : Type} {newString : List UInt8 → S} {empty : S} {typeDefs : List (Int × TypeDef S)}

theorem lift_run {α : Type} {e : Except TypeDefException α} {a : α} {s q : List UInt8}
    (h : (StateT.lift e : Parser TypeDefException α).run s = .ok (a, q)) : e = .ok a ∧ s = q := by
  cases e with
  | error x => exact absurd h (by simp [StateT.lift, StateT.run, bind, Except.bind])
  | ok b =>
      have h' : (Except.ok (b, s) : Except TypeDefException _) = .ok (a, q) := h
      simpa using h'

/-- What an array is read from: a number for each dimension is read twice. -/
theorem parseArray_run {t : SigType S} {s q : List UInt8}
    (h : (parseArray typeDefs).run s = .ok (t, q)) :
    ∃ tag elem idx, t = .array elem idx ∧ lookupTag typeDefs tag = .ok elem ∧
      (packed32 idx.length).length + idx.length + (packed32 tag.toNat).length +
        (idx.map fun i => (packed32 i.toNat).length).sum + q.length ≤ s.length := by
  obtain ⟨numIdx, r₁, hnum, h⟩ := run_bind_eq_ok.mp h
  have hnum := number_uses numIdx s r₁ hnum
  split at h
  · exact absurd h (by simp [throw, throwThe, MonadExceptOf.throw, bind, Except.bind])
  · obtain ⟨first, r₂, hfirst, h⟩ := run_bind_eq_ok.mp h
    have hlen := times_length hfirst
    have hfirst := Uses.times number_uses numIdx.toNat first r₁ r₂ hfirst
    obtain ⟨tag, r₃, htag, h⟩ := run_bind_eq_ok.mp h
    have htag := number_uses tag r₂ r₃ htag
    obtain ⟨elem, r₄, hlift, h⟩ := run_bind_eq_ok.mp h
    obtain ⟨helem, rfl⟩ := lift_run hlift
    obtain ⟨idx, r₅, hidx, h⟩ := run_bind_eq_ok.mp h
    have hlen' := times_length hidx
    have hidx := Uses.times number_uses numIdx.toNat idx r₃ r₅ hidx
    obtain ⟨rfl, rfl⟩ := run_pure_eq_ok h
    have hmany : first.length ≤ (first.map fun i => (packed32 i.toNat).length).sum := by
      calc first.length = (first.map fun _ => 1).sum := by simp
        _ ≤ (first.map fun i => (packed32 i.toNat).length).sum :=
            List.sum_le_sum fun i _ => varint_length_pos 4 i.toNat
    refine ⟨tag, elem, idx, rfl, helem, ?_⟩
    rw [hlen']
    omega

theorem parseStruct_run {parse : Parser TypeDefException (SigType S)} {t : SigType S}
    {s q : List UInt8} (h : (parseStruct newString empty parse).run s = .ok (t, q)) :
    ∃ n r fields, t = .struct fields ∧
      (parseFields newString empty parse n).run r = .ok (fields, q) ∧
      (packed32 n).length + r.length ≤ s.length := by
  obtain ⟨num, r, hnum, h⟩ := run_bind_eq_ok.mp h
  have hnum := number_uses num s r hnum
  obtain ⟨fields, r', hfields, h⟩ := run_bind_eq_ok.mp h
  obtain ⟨rfl, rfl⟩ := run_pure_eq_ok h
  exact ⟨num.toNat, r, fields, rfl, hfields, hnum⟩

/-- What a type is read from. -/
theorem parseType_run {depth : Nat} {t : SigType S} {s q : List UInt8}
    (h : (parseType newString empty typeDefs depth).run s = .ok (t, q)) :
    ∃ tag r, (packed32 tag.toNat).length + r.length ≤ s.length ∧
      (t = .null ∨ (parseArray typeDefs).run r = .ok (t, q) ∨
        (∃ d, (parseStruct newString empty (parseType newString empty typeDefs d)).run r =
          .ok (t, q)) ∨
        (lookupTag typeDefs tag = .ok t ∧ r = q)) := by
  cases depth with
  | zero =>
      exact absurd h (by simp [parseType, throw, throwThe, MonadExceptOf.throw, bind, Except.bind])
  | succ d =>
      unfold parseType at h
      obtain ⟨tag, r, htag, h⟩ := run_bind_eq_ok.mp h
      refine ⟨tag, r, number_uses tag s r htag, ?_⟩
      split at h
      · exact .inl (run_pure_eq_ok h).1.symm
      · split at h
        · exact .inr (.inl h)
        · split at h
          · exact .inr (.inr (.inl ⟨d, h⟩))
          · exact .inr (.inr (.inr (lift_run h)))

theorem lookupTag_ok {tag : Int} {t : SigType S} (h : lookupTag typeDefs tag = .ok t) :
    t = .primitive tag ∨ ∃ td, getItem tag typeDefs = some td ∧ t = .user td.name := by
  unfold lookupTag at h
  split at h
  · split at h
    · cases h
    · rename_i td htd
      exact .inr ⟨td, htd, (Except.ok.inj h).symm⟩
  · split at h
    · cases h
    · exact .inl (Except.ok.inj h).symm

/-- What a struct is read from. -/
theorem parseType_run_struct {depth : Nat} {fields : SigFields S} {s q : List UInt8}
    (h : (parseType newString empty typeDefs depth).run s = .ok (.struct fields, q)) :
    ∃ d n r, (parseFields newString empty (parseType newString empty typeDefs d) n).run r =
        .ok (fields, q) ∧ 1 + (packed32 n).length + r.length ≤ s.length := by
  obtain ⟨tag, r, hlen, ht | hrun | ⟨d, hrun⟩ | ⟨hlook, rfl⟩⟩ := parseType_run h
  · cases ht
  · obtain ⟨_, _, _, ht, _⟩ := parseArray_run hrun
    cases ht
  · obtain ⟨n, r', fields', ht, hfields, hlen'⟩ := parseStruct_run hrun
    obtain rfl := SigType.struct.inj ht
    have htag : 0 < (packed32 tag.toNat).length := varint_length_pos 4 _
    exact ⟨d, n, r', hfields, by omega⟩
  · rcases lookupTag_ok hlook with ht | ⟨td, _, ht⟩
    · cases ht
    · cases ht

/-- What an array is read from. -/
theorem parseType_run_array {depth : Nat} {elem : SigType S} {idx : List Int} {s q : List UInt8}
    (h : (parseType newString empty typeDefs depth).run s = .ok (.array elem idx, q)) :
    ∃ tag, lookupTag typeDefs tag = .ok elem ∧
      1 + (packed32 idx.length).length + idx.length + (packed32 tag.toNat).length +
        (idx.map fun i => (packed32 i.toNat).length).sum + q.length ≤ s.length := by
  obtain ⟨tag, r, hlen, ht | hrun | ⟨d, hrun⟩ | ⟨hlook, rfl⟩⟩ := parseType_run h
  · cases ht
  · obtain ⟨tag', elem', idx', ht, helem, hidx⟩ := parseArray_run hrun
    obtain ⟨rfl, rfl⟩ := SigType.array.inj ht
    have htag : 0 < (packed32 tag.toNat).length := varint_length_pos 4 _
    exact ⟨tag', helem, by omega⟩
  · obtain ⟨_, _, _, ht, _⟩ := parseStruct_run hrun
    cases ht
  · rcases lookupTag_ok hlook with ht | ⟨td, _, ht⟩
    · cases ht
    · cases ht

/-- What a type without structure is read from. -/
theorem parseType_run_named {depth : Nat} {t : SigType S} {s q : List UInt8}
    (h : (parseType newString empty typeDefs depth).run s = .ok (t, q)) (hnull : t ≠ .null)
    (harray : ∀ elem idx, t ≠ .array elem idx) (hstruct : ∀ fields, t ≠ .struct fields) :
    ∃ tag, lookupTag typeDefs tag = .ok t ∧ (packed32 tag.toNat).length + q.length ≤ s.length := by
  obtain ⟨tag, r, hlen, ht | hrun | ⟨d, hrun⟩ | ⟨hlook, rfl⟩⟩ := parseType_run h
  · exact absurd ht hnull
  · obtain ⟨_, _, _, ht, _⟩ := parseArray_run hrun
    exact absurd ht (harray _ _)
  · obtain ⟨_, _, _, ht, _⟩ := parseStruct_run hrun
    exact absurd ht (hstruct _)
  · exact ⟨tag, hlook, hlen⟩

/-- A field that has no intention but its name, which is not read from anything else. -/
def PlainField (newString : List UInt8 → S) (empty : S) (intentions : List Intention)
    (name : Name) : Prop :=
  intentions = [⟨[], name⟩] ∧ empty ≠ newString name ∧
    ∀ bs, newString bs = newString name → bs = name

/-- No other type definition has one of the names. -/
def OwnNames (newString : List UInt8 → S) (getTypeId : Name → Nat)
    (typeDefs : List (Int × TypeDef S)) (names : List Name) : Prop :=
  ∀ name ∈ names, ∀ tag td, getItem tag typeDefs = some td → td.name = newString name →
    tag = getTypeId name

mutual

/-- The number of dimensions that are written in the type. -/
def dimensions : DataType → Nat
  | .void => 0
  | .prim _ => 0
  | .user _ _ => 0
  | .struct fields => fieldDimensions fields
  | .array _ dim => dim.length

/-- The same of the fields. -/
def fieldDimensions : Fields → Nat
  | .nil => 0
  | .cons _ _ type rest => dimensions type + fieldDimensions rest

end

variable {getTypeId : Name → Nat}

/-- A type without structure is not read from fewer bytes than it is written with. -/
theorem lookupTag_length {t : DataType} {tag : Int} {bytes : List UInt8}
    (hnames : OwnNames newString getTypeId typeDefs (userTypes t))
    (hbytes : signatureBytes getTypeId t = some bytes)
    (h : lookupTag typeDefs tag = .ok (sigType newString t)) :
    bytes.length ≤ (packed32 tag.toNat).length := by
  cases t with
  | void => rcases lookupTag_ok h with ht | ⟨td, _, ht⟩ <;> simp [sigType] at ht
  | struct fields => rcases lookupTag_ok h with ht | ⟨td, _, ht⟩ <;> simp [sigType] at ht
  | array elem dim => rcases lookupTag_ok h with ht | ⟨td, _, ht⟩ <;> simp [sigType] at ht
  | prim p =>
      rw [signatureBytes_prim, Option.some.injEq, packed32_of_lt_128 p.token_lt] at hbytes
      rw [← hbytes]
      exact varint_length_pos 4 tag.toNat
  | user name type =>
      rcases lookupTag_ok h with ht | ⟨td, htd, ht⟩
      · simp [sigType] at ht
      · rw [sigType, SigType.user.injEq] at ht
        have htag := hnames name (by simp [userTypes]) tag td htd ht.symm
        rw [htag, Int.toNat_natCast, signatureBytes_user getTypeId hbytes]

/-- The parser makes as many fields as it is told to. -/
theorem parseFields_length {parse : Parser TypeDefException (SigType S)} :
    ∀ (fields : Fields) {n : Nat} {s q : List UInt8},
      (parseFields newString empty parse n).run s = .ok (sigFields newString fields, q) →
      n = fields.length
  | .nil, 0, _, _, _ => rfl
  | .nil, n + 1, s, q, h => by
      obtain ⟨name, r₁, _, h⟩ := run_bind_eq_ok.mp h
      obtain ⟨type, r₂, _, h⟩ := run_bind_eq_ok.mp h
      obtain ⟨rest, r₃, _, h⟩ := run_bind_eq_ok.mp h
      exact absurd (run_pure_eq_ok h).1 (by simp [sigFields])
  | .cons is name type rest, 0, s, q, h => by
      exact absurd (run_pure_eq_ok h).1 (by simp [sigFields])
  | .cons is name type rest, n + 1, s, q, h => by
      obtain ⟨name', r₁, _, h⟩ := run_bind_eq_ok.mp h
      obtain ⟨type', r₂, _, h⟩ := run_bind_eq_ok.mp h
      obtain ⟨rest', r₃, hrest, h⟩ := run_bind_eq_ok.mp h
      obtain ⟨heq, _⟩ := run_pure_eq_ok h
      rw [sigFields, SigFields.cons.injEq] at heq
      rw [heq.2.2] at hrest
      rw [parseFields_length rest hrest, Fields.length]

/-- The numbers that are read for dimensions are not read from fewer bytes than these are written
with. -/
theorem dims_length (dim : List Exp) :
    ((dim.map dimIdx).map fun i => (packed32 i.toNat).length).sum =
      (dim.flatMap fun e => packed32 (dimIdx e).toNat).length := by
  rw [List.length_flatMap, List.map_map]
  rfl

mutual

/-- **To make the tree of a type, the parser uses up the bytes of the type and a number more for
each dimension.** -/
theorem parseType_uses : ∀ t : DataType, FieldsAll (PlainField newString empty) t →
    OwnNames newString getTypeId typeDefs (userTypes t) →
    ∀ bytes, signatureBytes getTypeId t = some bytes → ∀ depth,
    Uses (parseType newString empty typeDefs depth) (sigType newString t)
      (bytes.length + dimensions t)
  | .void, _, hnames, bytes, hbytes, depth => by
      intro s q h
      rw [signatureBytes_eq, genSigLine, Option.bind_some, emitted_ints,
        Option.some.injEq] at hbytes
      obtain ⟨d, n, r, hfields, hlen⟩ := parseType_run_struct h
      have hfields' : (parseFields newString empty (parseType newString empty typeDefs d) n).run
          r = .ok (sigFields newString .nil, q) := hfields
      rw [parseFields_length .nil hfields'] at hfields
      have hq := (run_pure_eq_ok hfields).2
      -- a number is read even where there are no fields
      have hn : 0 < (packed32 n).length := varint_length_pos 4 _
      have hbytes' : bytes.length = 2 := by
        rw [← hbytes]
        rfl
      rw [hbytes', dimensions, ← hq]
      omega
  | .prim p, _, hnames, bytes, hbytes, depth => by
      intro s q h
      obtain ⟨tag, hlook, hlen⟩ := parseType_run_named h (by simp [sigType]) (by simp [sigType])
        (by simp [sigType])
      have hle := lookupTag_length hnames hbytes hlook
      rw [dimensions]
      omega
  | .user name type, _, hnames, bytes, hbytes, depth => by
      intro s q h
      obtain ⟨tag, hlook, hlen⟩ := parseType_run_named h (by simp [sigType]) (by simp [sigType])
        (by simp [sigType])
      have hle := lookupTag_length hnames hbytes hlook
      rw [dimensions]
      omega
  | .struct fields, hplain, hnames, bytes, hbytes, depth => by
      intro s q h
      rw [signatureBytes_struct] at hbytes
      obtain ⟨x, body, hx, hbody, rfl⟩ := joined_eq_some hbytes
      obtain ⟨d, n, r, hfields, hlen⟩ := parseType_run_struct h
      have huses := parseFields_uses fields hplain hnames body hbody d n r q hfields
      rw [parseFields_length fields hfields] at hlen
      have hstruct : (packed32 LABCOMM_STRUCT).length = 1 := rfl
      rw [← Option.some.inj hx, List.length_append, List.length_append, hstruct, dimensions]
      omega
  | .array elem dim, hplain, hnames, bytes, hbytes, depth => by
      intro s q h
      obtain ⟨elems, helems, rfl⟩ := signatureBytes_array getTypeId hbytes
      -- the indices are read once more, behind those of the signature
      obtain ⟨tag, helem, hidx⟩ := parseType_run_array h
      have hle := lookupTag_length (t := elem) hnames helems helem
      rw [List.length_map, dims_length] at hidx
      have harray : (packed32 LABCOMM_ARRAY).length = 1 := rfl
      rw [List.length_append, List.length_append, List.length_append, harray, dimensions]
      omega

theorem parseFields_uses : ∀ fields : Fields, AllFields (PlainField newString empty) fields →
    OwnNames newString getTypeId typeDefs (userTypesFields fields) →
    ∀ bytes, signatureFieldBytes getTypeId fields = some bytes → ∀ depth n,
    Uses (parseFields newString empty (parseType newString empty typeDefs depth) n)
      (sigFields newString fields) (bytes.length + fieldDimensions fields)
  | .nil, _, _, bytes, hbytes, depth, n => by
      intro s q h
      rw [parseFields_length .nil h] at h
      have hq := (run_pure_eq_ok h).2
      have hnil : signatureFieldBytes getTypeId .nil = some [] := rfl
      rw [hnil, Option.some.injEq] at hbytes
      rw [← hbytes, hq]
      simp [fieldDimensions]
  | .cons is name type rest, hplain, hnames, bytes, hbytes, depth, n => by
      intro s q h
      rw [parseFields_length (.cons is name type rest) h, Fields.length] at h
      rw [signatureFieldBytes_cons] at hbytes
      obtain ⟨x, y, hx, hy, rfl⟩ := joined_eq_some hbytes
      obtain ⟨a, b, ha, hb, rfl⟩ := joined_eq_some hy
      obtain ⟨⟨hint, hempty, hname⟩, hptype, hprest⟩ := hplain
      obtain ⟨name', r₁, hrun₁, h⟩ := run_bind_eq_ok.mp h
      obtain ⟨type', r₂, hrun₂, h⟩ := run_bind_eq_ok.mp h
      obtain ⟨rest', r₃, hrun₃, h⟩ := run_bind_eq_ok.mp h
      obtain ⟨heq, rfl⟩ := run_pure_eq_ok h
      rw [sigFields, SigFields.cons.injEq] at heq
      rw [heq.1] at hrun₁
      rw [heq.2.1] at hrun₂
      rw [heq.2.2] at hrun₃
      -- intentions, type, and the fields that follow
      have huses₁ := reading_uses (decodeIntentions_uses hname hempty) s r₁ hrun₁
      have huses₂ := parseType_uses type hptype (fun m hm => hnames m (List.mem_append_left _ hm))
        a ha depth r₁ r₂ hrun₂
      have huses₃ := parseFields_uses rest hprest
        (fun m hm => hnames m (List.mem_append_right _ hm)) b hb depth rest.length r₂ r₃ hrun₃
      have hbytes := (getIntentionBytes_eq hx).1
      have hsorted : sortedIntentions is = [⟨[], name⟩] := by
        rw [hint, sortedIntentions, List.mergeSort_singleton]
      rw [hsorted] at hbytes
      rw [hbytes, List.length_append, List.length_append, fieldDimensions]
      omega

end

end Uses

/-! ## Declarations -/

mutual

/-- An intention that is written has a key, which is an identifier. -/
def Keyed : ParsedType → Prop
  | .void => True
  | .prim _ => True
  | .user _ => True
  | .struct fields => FieldsKeyed fields
  | .array elem _ => Keyed elem

/-- The same of the fields. -/
def FieldsKeyed : ParsedFields → Prop
  | .nil => True
  | .cons intentions _ type rest =>
      (∀ i ∈ intentions, i.key ≠ []) ∧ Keyed type ∧ FieldsKeyed rest

end

/-- The name is added to intentions that all have a key. -/
theorem named_intentionSet (h : IterationOrder Intention) {intentions : List Intention}
    (name : Name) (hkeys : ∀ i ∈ intentions, i.key ≠ []) :
    Named (intentionSet h intentions name) name := by
  have hnone : intentions.filter (fun i => i.key.length = 0) = [] := by
    rw [List.filter_eq_nil_iff]
    intro i hi
    simpa using hkeys i hi
  have hperm : ((intentionSet h intentions name).filter fun i => i.key.length = 0).Perm
      [⟨[], name⟩] := by
    have hfilter := (h.perm (intentions ++ [⟨[], name⟩])).filter fun i => i.key.length = 0
    rw [List.filter_append, hnone, List.nil_append] at hfilter
    exact hfilter
  exact List.perm_singleton.mp hperm

theorem fieldsAll_rewriteArray {P : List Intention → Name → Prop} {elem : DataType}
    (h : FieldsAll P elem) (dims : List (List Exp)) : FieldsAll P (rewriteArray elem dims) := by
  induction dims with
  | nil => exact h
  | cons dim dims ih => exact ih

section Resolve

variable {h : IterationOrder Intention} {env : List (Name × DataType)}

mutual

theorem named_resolveType : ∀ {t : ParsedType} {t' : DataType}, resolveType h env t = some t' →
    Keyed t → FieldsAll Named t'
  | .void, t', ht, _ => by
      cases ht
      trivial
  | .prim p, t', ht, _ => by
      cases ht
      trivial
  | .user name, t', ht, _ => by
      rw [resolveType, Option.map_eq_some_iff] at ht
      obtain ⟨type, _, rfl⟩ := ht
      trivial
  | .struct fields, t', ht, hkeys => by
      rw [resolveType, Option.map_eq_some_iff] at ht
      obtain ⟨fields', hf, rfl⟩ := ht
      exact named_resolveFields hf hkeys
  | .array elem dims, t', ht, hkeys => by
      rw [resolveType, Option.map_eq_some_iff] at ht
      obtain ⟨elem', he, rfl⟩ := ht
      exact fieldsAll_rewriteArray (named_resolveType he hkeys) dims

theorem named_resolveFields : ∀ {fields : ParsedFields} {fields' : Fields},
    resolveFields h env fields = some fields' → FieldsKeyed fields → AllFields Named fields'
  | .nil, fields', hf, _ => by
      cases hf
      trivial
  | .cons intentions name type rest, fields', hf, hkeys => by
      rw [resolveFields, Option.bind_eq_bind, Option.bind_eq_some_iff] at hf
      obtain ⟨type', ht, hf⟩ := hf
      rw [Option.bind_eq_bind, Option.bind_eq_some_iff] at hf
      obtain ⟨rest', hr, hf⟩ := hf
      cases hf
      exact ⟨named_intentionSet h name hkeys.1, named_resolveType ht hkeys.2.1,
        named_resolveFields hr hkeys.2.2⟩

end

end Resolve

theorem named_resolveDecls {h : IterationOrder Intention} {env : List (Name × DataType)}
    {decls : List ParsedDecl} {ds : List Decl} (hds : resolveDecls h env decls = some ds)
    (hkeys : ∀ d ∈ decls, Keyed d.type) : ∀ d ∈ ds, FieldsAll Named d.type := by
  induction decls generalizing env ds with
  | nil =>
      cases hds
      simp
  | cons d decls ih =>
      rw [resolveDecls, Option.bind_eq_bind, Option.bind_eq_some_iff] at hds
      obtain ⟨type, ht, hds⟩ := hds
      rw [Option.bind_eq_bind, Option.bind_eq_some_iff] at hds
      obtain ⟨rest, hrest, hds⟩ := hds
      cases hds
      exact List.forall_mem_cons.mpr ⟨named_resolveType ht (hkeys d List.mem_cons_self),
        ih hrest fun x hx => hkeys x (List.mem_cons_of_mem d hx)⟩

mutual

theorem dimensions_pos : ∀ t : DataType, t.Accepted → ¬ ArrayFree t → 0 < dimensions t
  | .void, _, hfree => absurd trivial hfree
  | .prim _, _, hfree => absurd trivial hfree
  | .user _ _, _, hfree => absurd trivial hfree
  | .struct fields, hacc, hfree => fieldDimensions_pos fields hacc.2.2 hfree
  | .array _ _, hacc, _ => List.length_pos_of_ne_nil hacc.1

theorem fieldDimensions_pos : ∀ fields : Fields, fields.Accepted → ¬ FieldsArrayFree fields →
    0 < fieldDimensions fields
  | .nil, _, hfree => absurd trivial hfree
  | .cons _ _ type rest, hacc, hfree => by
      rw [fieldDimensions]
      by_cases htype : ArrayFree type
      · have := fieldDimensions_pos rest hacc.2.2.2 fun hrest => hfree ⟨htype, hrest⟩
        omega
      · have := dimensions_pos type hacc.2.2.1 htype
        omega

end

/-! ## What was handled before -/

section Handled

variable {S : Type} (newString : List UInt8 → S) (empty : S)

/-- `handle_TypeDef` of one definition after the other, whether they are parsed or not. -/
def handleTypeDefs (depth : Nat) (tds : List (TypeDef S)) : TypeDefParser S :=
  tds.foldl (fun p d => (p.handleTypeDef newString empty depth d).2) ⟨[], []⟩

theorem handleTypeDef_typeDefs (depth : Nat) (p : TypeDefParser S) (d : TypeDef S) :
    (p.handleTypeDef newString empty depth d).2.typeDefs = setItem d.index d p.typeDefs := by
  unfold TypeDefParser.handleTypeDef
  simp only
  split <;> rfl

theorem handleTypeDefs_typeDefs (depth : Nat) (tds : List (TypeDef S)) :
    (handleTypeDefs newString empty depth tds).typeDefs =
      dict (tds.map fun d => (d.index, d)) := by
  have hfold : ∀ (tds : List (TypeDef S)) (p : TypeDefParser S),
      (tds.foldl (fun p d => (p.handleTypeDef newString empty depth d).2) p).typeDefs =
        (tds.map fun d => (d.index, d)).foldl (fun m q => setItem q.1 q.2 m) p.typeDefs := by
    intro tds
    induction tds with
    | nil => exact fun p => rfl
    | cons d tds ih =>
        intro p
        rw [List.foldl_cons, ih, handleTypeDef_typeDefs, List.map_cons, List.foldl_cons]
  exact hfold tds ⟨[], []⟩

/-- The definitions are those that an encoder sends for types with the names. -/
structure SentTypeDefs (getTypeId : Name → Nat) (names : List Name) (tds : List (TypeDef S)) :
    Prop where
  ids : ∀ name ∈ names, UserIndex (getTypeId name)
  own : ∀ name ∈ names, ∀ name' ∈ names, getTypeId name = getTypeId name' → name = name'
  sent : ∀ td ∈ tds, ∃ name ∈ names, td.index = getTypeId name ∧ td.name = newString name

variable {newString}
variable {getTypeId : Name → Nat} {names deps : List Name} {tds : List (TypeDef S)}

theorem getItem_typeDefs (hsent : SentTypeDefs newString getTypeId names tds) {tag : Int}
    {td : TypeDef S} (h : getItem tag (dict (tds.map fun d => (d.index, d))) = some td) :
    ∃ name ∈ names, tag = getTypeId name ∧ td.name = newString name := by
  have hmem := mem_of_getItem_dict h
  simp only [List.mem_map, Prod.mk.injEq] at hmem
  obtain ⟨td', htd', rfl, rfl⟩ := hmem
  exact hsent.sent td' htd'

theorem SentTypeDefs.known (hsent : SentTypeDefs newString getTypeId names tds)
    (hnames : ∀ name ∈ deps, name ∈ names)
    (hdeps : ∀ name ∈ deps, ∃ td ∈ tds, td.index = getTypeId name) :
    KnownTypes newString getTypeId (dict (tds.map fun d => (d.index, d))) deps := by
  intro name hname
  refine ⟨hsent.ids name (hnames name hname), ?_⟩
  obtain ⟨td, htd, hindex⟩ := hdeps name hname
  have hkey : (getTypeId name : Int) ∈ (tds.map fun d => (d.index, d)).map Prod.fst := by
    rw [List.map_map, List.mem_map]
    exact ⟨td, htd, hindex⟩
  obtain ⟨td', hget⟩ := exists_getItem_dict hkey
  obtain ⟨name', hname', htag, htd'⟩ := getItem_typeDefs hsent hget
  have hsame := hsent.own name (hnames name hname) name' hname' (by exact_mod_cast htag)
  exact ⟨td', hget, hsame ▸ htd'⟩

theorem SentTypeDefs.ownNames (hsent : SentTypeDefs newString getTypeId names tds)
    (hread : ∀ name ∈ deps, ∀ bs, newString bs = newString name → bs = name) :
    OwnNames newString getTypeId (dict (tds.map fun d => (d.index, d))) deps := by
  intro name hname tag td hget heq
  obtain ⟨name', _, htag, htd⟩ := getItem_typeDefs hsent hget
  rw [htag, hread name hname name' (htd.symm.trans heq)]

variable (newString)

/-- The bytes that were emitted for the declaration are parsed as its tree, to the last one. -/
def ParsesBack (p : TypeDefParser S) (index : Int) (d : Decl) (bytes : List UInt8) : Prop :=
  ∃ depth, (parseTypeDef newString empty p.typeDefs depth ⟨index, newString d.name, bytes⟩).run
    bytes = .ok (⟨index, newString d.name, sigType newString d.type⟩, [])

/-- No field has an intention but its name, and the names are not read from anything else. -/
def PlainDecl (d : Decl) : Prop :=
  FieldsAll (PlainField newString empty) d.type ∧
    ∀ name ∈ userTypes d.type, ∀ bs, newString bs = newString name → bs = name

variable {newString empty}

theorem parsesBack_of_arrayFree {p : TypeDefParser S} {d : Decl} {bytes : List UInt8}
    (hfree : ArrayFree d.type) (hacc : d.type.Accepted) (hnamed : FieldsAll Named d.type)
    (hknown : KnownTypes newString getTypeId p.typeDefs (userTypes d.type))
    (hbytes : signatureBytes getTypeId d.type = some bytes) (index : Int) :
    ParsesBack newString empty p index d bytes := by
  obtain ⟨enough, hparse⟩ : ∃ enough, ∀ depth, enough ≤ depth →
      Consumes (parseType newString empty p.typeDefs depth) bytes (sigType newString d.type) :=
    parseType_consumes d.type hfree hacc hnamed hknown bytes hbytes
  refine ⟨enough, ?_⟩
  have hrun := ((hparse enough le_rfl).bind (f := fun type =>
    (pure ⟨index, newString d.name, type⟩ : Parser TypeDefException (ParsedTypeDef S)))
    (Consumes.pure _)) []
  simpa [parseTypeDef] using hrun

theorem arrayFree_of_parsesBack {p : TypeDefParser S} {d : Decl} {bytes : List UInt8}
    {index : Int} (hacc : d.type.Accepted) (hplain : FieldsAll (PlainField newString empty) d.type)
    (hown : OwnNames newString getTypeId p.typeDefs (userTypes d.type))
    (hbytes : signatureBytes getTypeId d.type = some bytes)
    (h : ParsesBack newString empty p index d bytes) : ArrayFree d.type := by
  obtain ⟨depth, hrun⟩ := h
  obtain ⟨type, r, htype, hpure⟩ := run_bind_eq_ok.mp hrun
  obtain ⟨htd, rfl⟩ := run_pure_eq_ok hpure
  rw [ParsedTypeDef.mk.injEq] at htd
  rw [htd.2.2] at htype
  have huses := parseType_uses d.type hplain hown bytes hbytes depth bytes [] htype
  by_contra hfree
  have hpos := dimensions_pos d.type hacc hfree
  rw [List.length_nil] at huses
  omega

end Handled

/-- **What is emitted for a declaration without an array is parsed back. What is emitted for one
with an array is not**, at least if no field has an intention but its name. -/
theorem parseTypeDef_emitted {S : Type} (newString : List UInt8 → S) (empty : S)
    (spec : Specification) (hkeys : ∀ d ∈ spec.decls, Keyed d.type) (h : IterationOrder Intention)
    (getTypeId : Name → Nat) (tds : List (TypeDef S))
    (hsent : SentTypeDefs newString getTypeId ((spec.resolve h).map Decl.name) tds) (depth : Nat)
    (d : Decl) (hd : d ∈ spec.resolve h)
    (hdeps : ∀ name ∈ userTypes d.type, ∃ td ∈ tds, td.index = getTypeId name)
    (bytes : List UInt8) (hbytes : signatureBytes getTypeId d.type = some bytes) (index : Int) :
    (ArrayFree d.type →
      ParsesBack newString empty (handleTypeDefs newString empty depth tds) index d bytes) ∧
    (PlainDecl newString empty d →
      ParsesBack newString empty (handleTypeDefs newString empty depth tds) index d bytes →
        ArrayFree d.type) := by
  have hacc := spec.accepted h hd
  have hnamed := named_resolveDecls (spec.resolve_eq h) hkeys d hd
  have hnames : ∀ name ∈ userTypes d.type, name ∈ (spec.resolve h).map Decl.name := by
    intro name hname
    obtain ⟨pre, post, hsplit⟩ := List.append_of_mem hd
    obtain ⟨d', hd', _, rfl⟩ := typesDeclared_resolve h spec pre d post hsplit name hname
    rw [hsplit, List.map_append]
    exact List.mem_append_left _ (List.mem_map_of_mem hd')
  constructor
  · intro hfree
    apply parsesBack_of_arrayFree hfree hacc hnamed _ hbytes
    rw [handleTypeDefs_typeDefs]
    exact hsent.known hnames hdeps
  · rintro ⟨hplain, hread⟩ hback
    refine arrayFree_of_parsesBack hacc hplain ?_ hbytes hback
    rw [handleTypeDefs_typeDefs]
    exact hsent.ownNames hread

/-- `typedef int t; sample struct { t x; } s;` -/
def structSpec : Specification where
  decls := [⟨.typeDecl, [], [116], .prim .int⟩,
    ⟨.sampleDecl, [], [115], .struct (.cons [] [120] (.user [116]) .nil)⟩]
  parsed := by simp [ParsedType.Parsed, ParsedFields.Parsed, ParsedFields.length]
  checked := by decide

/-- What `s` is there. -/
def structDecl : Decl :=
  ⟨.sampleDecl, [⟨[], [115]⟩], [115],
    .struct (.cons [⟨[], [120]⟩] [120] (.user [116] (.prim .int)) .nil)⟩

theorem structSpec_resolve :
    structSpec.resolve ⟨id, List.Perm.refl⟩ =
      [⟨.typeDecl, [⟨[], [116]⟩], [116], .prim .int⟩, structDecl] := by
  have h := structSpec.resolve_eq ⟨id, List.Perm.refl⟩
  exact (Option.some.inj (h.symm.trans rfl))

theorem signatureBytes_structDecl :
    signatureBytes (fun name => if name = [116] then 64 else 65) structDecl.type =
      some [17, 1, 1, 0, 1, 120, 64] := by
  simp only [structDecl, signatureBytes_struct, signatureFieldBytes_cons, getIntentionBytes,
    sortedIntentions, List.mergeSort_singleton]
  rfl

theorem parseTypeDef_emitted_struct :
    ParsesBack id [] (handleTypeDefs id [] 1 [⟨64, [116], [35]⟩]) 65 structDecl
      [17, 1, 1, 0, 1, 120, 64] := by
  have hmem : structDecl ∈ structSpec.resolve ⟨id, List.Perm.refl⟩ := by
    rw [structSpec_resolve]
    simp
  refine (parseTypeDef_emitted id [] structSpec ?_ ⟨id, List.Perm.refl⟩
    (fun name => if name = [116] then 64 else 65) [⟨64, [116], [35]⟩] ?_ 1 structDecl hmem ?_
    [17, 1, 1, 0, 1, 120, 64] signatureBytes_structDecl 65).1 ?_
  · simp [structSpec, Keyed, FieldsKeyed]
  · rw [structSpec_resolve]
    constructor
    · simp [structDecl, UserIndex, LABCOMM_USER]
    · simp [structDecl]
    · simp [structDecl]
  · simp [structDecl, userTypes, userTypesFields]
  · simp [structDecl, ArrayFree, FieldsArrayFree]

/-- `typedef int a[2];` -/
def arraySpec : Specification where
  decls := [⟨.typeDecl, [], [97], .array (.prim .int) [[.integerLiteral 2]]⟩]
  parsed := by simp [ParsedType.Parsed]
  checked := by decide

/-- After the type of the elements there is no number. -/
theorem not_parsesBack_array :
    arraySpec.resolve ⟨id, List.Perm.refl⟩ =
        [⟨.typeDecl, [⟨[], [97]⟩], [97], .array (.prim .int) [.integerLiteral 2]⟩] ∧
      signatureBytes (fun _ => 64) (.array (.prim .int) [.integerLiteral 2]) =
        some [16, 1, 2, 35] ∧
      ¬ ParsesBack id [] ⟨[], []⟩ 64
        ⟨.typeDecl, [⟨[], [97]⟩], [97], .array (.prim .int) [.integerLiteral 2]⟩
        [16, 1, 2, 35] := by
  refine ⟨?_, rfl, ?_⟩
  · have h := arraySpec.resolve_eq ⟨id, List.Perm.refl⟩
    exact (Option.some.inj (h.symm.trans rfl))
  · intro h
    have hacc : (DataType.array (.prim .int) [.integerLiteral 2]).Accepted := by
      simp [DataType.Accepted, DataType.isNull]
    have hown : OwnNames id (fun _ => 64) ([] : List (Int × TypeDef (List UInt8)))
        (userTypes (.array (.prim .int) [.integerLiteral 2])) := by
      simp [OwnNames, userTypes]
    have hplain : FieldsAll (PlainField (S := List UInt8) id [])
        (.array (.prim .int) [.integerLiteral 2]) := trivial
    exact arrayFree_of_parsesBack hacc hplain hown rfl h

end LabComm.Java
