import LabComm.Python.Intentions
import LabComm.Python.Value

set_option autoImplicit false

/-! # Python declarations on the wire

`encode_decl` and `decode_decl`, with the codec tables that both go through. A nested declaration
is looked up in the encoder's table first; an encoder has only sample definitions there, so that
every nested declaration is written in full (`OnlySamples.encodeTypeNumber`). What was written is
read back if and only if the intentions of all fields are sorted and all lengths fit 32 bits
(`decodeDecl_readsBack`).
-/

namespace LabComm.Python

open Library

/-! ## Codec tables -/

section Tables

variable (S : Type) [LinearOrder S]

/-- What the tables of a codec hold: sample definitions, declarations, and the templates
`SAMPLE_DEF`, `SAMPLE_REF` and `ARRAY`, which have no declaration inside. -/
inductive TypeDecl where
  | sample (s : SampleDef S)
  | decl (d : Decl S)
  | SAMPLE_DEF | SAMPLE_REF | ARRAY

/-- What `__eq__` and `__hash__` look at. -/
inductive DeclKey where
  | sample (name : Option S) (decl : Decl S)
  | decl (d : Decl S)
  | SAMPLE_DEF | SAMPLE_REF | ARRAY
  deriving DecidableEq

/-- The tables of a codec for declarations. -/
structure Codec where
  index_to_decl : List (Nat × TypeDecl S)
  decl_to_index : List (DeclKey S × Nat)
  decl_index : Nat

end Tables

variable {S : Type} [LinearOrder S] [PyText S]

/-- `STRUCT` -/
def TypeDecl.STRUCT : TypeDecl S := .decl (.struct .nil)

/-- The key of a declaration in a table. -/
def TypeDecl.key : TypeDecl S → DeclKey S
  | sample s => .sample s.name s.decl
  | decl d => .decl d
  | SAMPLE_DEF => .SAMPLE_DEF
  | SAMPLE_REF => .SAMPLE_REF
  | ARRAY => .ARRAY

/-- The tables before `predefined_types`. -/
def Codec.empty : Codec S := ⟨[], [], i_USER⟩

/-- `Codec.add_decl`, where index 0 asks for the next one; it says whether there is a new entry. -/
def Codec.add_decl (c : Codec S) (decl : TypeDecl S) (index : Nat) : Codec S × Bool :=
  if index = 0 then
    match getItem decl.key c.decl_to_index with
    | some _ => (c, false)
    | none =>
        ({ index_to_decl := setItem c.decl_index decl c.index_to_decl
           decl_to_index := setItem decl.key c.decl_index c.decl_to_index
           decl_index := c.decl_index + 1 }, true)
  else
    ({ c with
       index_to_decl := setItem index decl c.index_to_decl
       decl_to_index := setItem decl.key index c.decl_to_index }, true)

/-- `i_SAMPLE_DEF` and `i_SAMPLE_REF` -/
def i_SAMPLE_DEF : Nat := 0x02
def i_SAMPLE_REF : Nat := 0x03

/-- The calls of `add_decl` that `predefined_types` makes. -/
def predefinedTypes : List (TypeDecl S × Nat) :=
  [(.SAMPLE_DEF, i_SAMPLE_DEF), (.SAMPLE_REF, i_SAMPLE_REF), (.ARRAY, LABCOMM_ARRAY),
    (.STRUCT, LABCOMM_STRUCT), (.decl (.primitive .boolean), Prim.boolean.token),
    (.decl (.primitive .byte), Prim.byte.token), (.decl (.primitive .short), Prim.short.token),
    (.decl (.primitive .int), Prim.int.token), (.decl (.primitive .long), Prim.long.token),
    (.decl (.primitive .float), Prim.float.token),
    (.decl (.primitive .double), Prim.double.token),
    (.decl (.primitive .string), Prim.string.token),
    (.decl (.primitive .sample), Prim.sample.token)]

/-! ## Encoding -/

/-- `encode_type_number`, where `full` is what the declaration writes itself. -/
def encodeTypeNumber (c : Codec S) (decl : TypeDecl S) (full : List UInt8) : List UInt8 :=
  match getItem decl.key c.decl_to_index with
  | some index => encodePacked32 index
  | none => full

mutual

/-- The method `encode_decl` of a declaration. -/
def encodeDecl (c : Codec S) : Decl S → List UInt8
  | .primitive p => encodePacked32 p.token
  | .array indices decl =>
      encodePacked32 LABCOMM_ARRAY ++ encodePacked32 indices.length ++
        indices.flatMap encodePacked32 ++ encodeTypeNumber c (.decl decl) (encodeDecl c decl)
  | .struct field =>
      encodePacked32 LABCOMM_STRUCT ++ encodePacked32 field.length ++ encodeFieldDecls c field

/-- The loop of `struct.encode_decl`. -/
def encodeFieldDecls (c : Codec S) : Fields S → List UInt8
  | .nil => []
  | .cons intentions decl rest =>
      encodeIntentions intentions ++ encodeTypeNumber c (.decl decl) (encodeDecl c decl) ++
        encodeFieldDecls c rest

end

/-- The data of a `length_encoder`. -/
def lengthEncoder (data : List UInt8) : List UInt8 := encodePacked32 data.length ++ data

/-- `sample_def.encode_decl` -/
def SampleDef.encodeDecl (c : Codec S) (s : SampleDef S) : Written := do
  let index ← orKeyError (getItem (TypeDecl.sample s).key c.decl_to_index)
  pure (encodePacked32 i_SAMPLE_DEF ++ lengthEncoder (encodePacked32 index ++
    encodeIntentions s.intentions ++ lengthEncoder (Python.encodeDecl c s.decl)))

/-- The table has sample definitions only. -/
def OnlySamples (c : Codec S) : Prop :=
  ∀ d, getItem (.decl d) c.decl_to_index = none

/-- A nested declaration is written in full. -/
theorem OnlySamples.encodeTypeNumber {c : Codec S} (h : OnlySamples c) (d : Decl S)
    (full : List UInt8) : encodeTypeNumber c (.decl d) full = full := by
  have hd : getItem (TypeDecl.decl d).key c.decl_to_index = none := h d
  rw [Python.encodeTypeNumber, hd]

theorem OnlySamples.add_decl {c : Codec S} (h : OnlySamples c) (s : SampleDef S) (index : Nat) :
    OnlySamples (c.add_decl (.sample s) index).1 := by
  intro d
  have hne : DeclKey.decl d ≠ (TypeDecl.sample s).key := fun he => by cases he
  unfold Codec.add_decl
  split
  · split
    · exact h d
    · show getItem _ (setItem _ _ _) = none
      rw [getItem_setItem, if_neg hne, h d]
  · show getItem _ (setItem _ _ _) = none
    rw [getItem_setItem, if_neg hne, h d]

/-! ## Decoding -/

/-- A field, as `struct.decode_decl` reads it. -/
def decodeField (decodeDecl : Parser PyError (Decl String)) :
    Parser PyError (Intentions String × Decl String) := do
  let ints ← decodeIntentions
  let decl ← decodeDecl
  pure (ints, decl)

/-- The method `decode_decl` of an entry of the table. A definition inside a declaration, which
nothing writes, is left out. -/
def decodeTemplate (decodeDecl : Parser PyError (Decl String)) :
    TypeDecl String → Parser PyError (Decl String)
  | .decl (.primitive p) => pure (.primitive p)
  | .decl (.struct _) => do
      let n_field ← decodePacked32
      let field ← times n_field (decodeField decodeDecl)
      pure (.struct (.ofList field))
  | .ARRAY | .decl (.array _ _) => do
      let n_indices ← decodePacked32
      let indices ← times n_indices decodePacked32
      let elem_decl ← decodeDecl
      pure (.array indices elem_decl)
  | _ => throw .exception

/-- `Decoder.decode_decl`, for declarations that are nested up to `fuel` deep. -/
def decodeDeclFuel (c : Codec String) : Nat → Parser PyError (Decl String)
  | 0 => throw .EOFError
  | fuel + 1 => do
      let index ← decodePacked32
      match getItem index c.index_to_decl with
      | none => throw .KeyError
      | some result =>
          if index < i_USER then decodeTemplate (decodeDeclFuel c fuel) result
          else throw .exception

/-- `Decoder.decode_decl`: each level takes at least one byte. -/
def decodeDecl (c : Codec String) : Parser PyError (Decl String) :=
  fun s => (decodeDeclFuel c s.length).run s

/-- `sample_def.decode_decl`, with the index of the new declaration. -/
def decodeSampleDef (c : Codec String) : Parser PyError (Nat × SampleDef String) := do
  let index ← decodePacked32
  let ints ← decodeIntentions
  let _length ← decodePacked32
  let decl ← decodeDecl c
  pure (index, sampleDef ints decl)

/-! ## What is read back -/

mutual

/-- All lengths have at most 32 bits, and the intentions of each field are sorted. -/
def Readable : Decl String → Prop
  | .primitive _ => True
  | .array indices decl =>
      (indices.length < 2 ^ 32 ∧ ∀ i ∈ indices, i < 2 ^ 32) ∧ Readable decl
  | .struct field => field.length < 2 ^ 32 ∧ FieldsReadable field

/-- The same of the fields of a struct. -/
def FieldsReadable : Fields String → Prop
  | .nil => True
  | .cons intentions decl rest =>
      ((IntentionsFit intentions ∧ Increasing intentions) ∧ Readable decl) ∧ FieldsReadable rest

end

mutual

/-- How deep a declaration is nested. -/
def Decl.depth : Decl S → Nat
  | .primitive _ => 1
  | .array _ decl => decl.depth + 1
  | .struct field => field.depth + 1

/-- How deep the declarations of the fields are nested. -/
def Fields.depth : Fields S → Nat
  | .nil => 0
  | .cons _ decl rest => max decl.depth rest.depth

end

section Depth

variable {c : Codec S}

mutual

theorem encodeDecl_length (hc : OnlySamples c) (d : Decl S) :
    d.depth ≤ (encodeDecl c d).length := by
  match d with
  | .primitive p => exact encodePacked32_length_pos _
  | .array indices decl =>
      have ih := encodeDecl_length hc decl
      have hpos := encodePacked32_length_pos LABCOMM_ARRAY
      rw [encodeDecl, hc.encodeTypeNumber, Decl.depth]
      simp only [List.length_append]
      omega
  | .struct field =>
      have ih := encodeFieldDecls_length hc field
      have hpos := encodePacked32_length_pos LABCOMM_STRUCT
      rw [encodeDecl, Decl.depth]
      simp only [List.length_append]
      omega

theorem encodeFieldDecls_length (hc : OnlySamples c) (field : Fields S) :
    field.depth ≤ (encodeFieldDecls c field).length := by
  match field with
  | .nil => exact le_rfl
  | .cons intentions decl rest =>
      have ih := encodeDecl_length hc decl
      have ihr := encodeFieldDecls_length hc rest
      rw [encodeFieldDecls, hc.encodeTypeNumber, Fields.depth]
      simp only [List.length_append]
      omega

end

end Depth

/-- The predefined types are in the table, and no others below `i_USER`. -/
def Predefined (c : Codec String) : Prop :=
  ∀ index < i_USER, getItem index c.index_to_decl =
    (getItem index (predefinedTypes (S := String).map Prod.swap))

theorem Predefined.add_decl {c : Codec String} (h : Predefined c) (s : SampleDef String)
    {index : Nat} (hindex : i_USER ≤ index) : Predefined (c.add_decl (.sample s) index).1 := by
  intro i hi
  have hne : index ≠ 0 := fun h0 => by rw [h0] at hindex; exact absurd hindex (by decide)
  unfold Codec.add_decl
  rw [if_neg hne]
  show getItem i (setItem index _ _) = _
  rw [getItem_setItem, if_neg (by omega), h i hi]

theorem decodePacked32_token {n : Nat} (h : n < i_USER) :
    Consumes decodePacked32 (encodePacked32 n) n :=
  (decodePacked32_readsBack n).consumes (h.trans (by decide))

theorem Predefined.primitive {c : Codec String} (h : Predefined c) (p : Prim) :
    p.token < i_USER ∧ getItem p.token c.index_to_decl = some (.decl (.primitive p)) := by
  have hlt : p.token < i_USER := by cases p <;> decide
  refine ⟨hlt, ?_⟩
  rw [h _ hlt]
  cases p <;> rfl

theorem Predefined.array {c : Codec String} (h : Predefined c) :
    getItem LABCOMM_ARRAY c.index_to_decl = some .ARRAY := h LABCOMM_ARRAY (by decide)

theorem Predefined.struct {c : Codec String} (h : Predefined c) :
    getItem LABCOMM_STRUCT c.index_to_decl = some .STRUCT := h LABCOMM_STRUCT (by decide)

/-- The loop over the fields writes them one after the other. -/
theorem OnlySamples.encodeFieldDecls {c : Codec S} (h : OnlySamples c) (field : Fields S) :
    Python.encodeFieldDecls c field =
      field.toList.flatMap fun x => encodeIntentions x.1 ++ encodeDecl c x.2 := by
  match field with
  | .nil => rfl
  | .cons intentions decl rest =>
      rw [Python.encodeFieldDecls, h.encodeTypeNumber, h.encodeFieldDecls rest, Fields.toList,
        List.flatMap_cons]

theorem fieldsReadable_iff (field : Fields String) :
    FieldsReadable field ↔
      ∀ x ∈ field.toList, (IntentionsFit x.1 ∧ Increasing x.1) ∧ Readable x.2 := by
  match field with
  | .nil => simp [FieldsReadable, Fields.toList]
  | .cons intentions decl rest =>
      rw [FieldsReadable, fieldsReadable_iff rest, Fields.toList, List.forall_mem_cons]

section ReadsBack

variable {enc dec : Codec String}

mutual

theorem decodeDeclFuel_readsBack (henc : OnlySamples enc) (hdec : Predefined dec)
    (d : Decl String) {fuel : Nat} (hfuel : d.depth ≤ fuel) :
    ReadsBack (decodeDeclFuel dec fuel) (encodeDecl enc d) d (Readable d) := by
  match d, fuel with
  | .primitive p, fuel + 1 =>
      obtain ⟨hlt, hget⟩ := hdec.primitive p
      have htag := decodePacked32_token hlt
      unfold encodeDecl decodeDeclFuel Readable
      rw [← List.append_nil (encodePacked32 p.token)]
      refine ReadsBack.after htag ?_
      rw [hget]
      show ReadsBack (if _ then _ else _) _ _ _
      rw [if_pos hlt]
      exact ReadsBack.pure _
  | .array indices decl, fuel + 1 =>
      rw [Decl.depth] at hfuel
      have hdecl := decodeDeclFuel_readsBack henc hdec decl (show decl.depth ≤ fuel by omega)
      -- behind the indices there is the element
      have hrest : ReadsBack (do
          let elem_decl ← decodeDeclFuel dec fuel
          pure (Decl.array indices elem_decl)) (encodeDecl enc decl) (.array indices decl)
          (Readable decl) := by
        have hmap := hdecl.map (f := Decl.array indices) (by simp)
        rwa [map_eq_pure_bind] at hmap
      have hindices := ReadsBack.times fun i (_ : i ∈ indices) => decodePacked32_readsBack i
      unfold encodeDecl decodeDeclFuel Readable
      rw [henc.encodeTypeNumber, List.append_assoc, List.append_assoc]
      refine ReadsBack.after (decodePacked32_token (by decide)) ?_
      rw [hdec.array]
      show ReadsBack (if _ then _ else _) _ _ _
      rw [if_pos (by decide), and_assoc]
      refine (decodePacked32_readsBack indices.length).bind (hindices.bind hrest ?_) ?_
      · -- other indices would give another declaration
        intro is s r q _ hrun
        obtain ⟨d, r', _, hpure⟩ := run_bind_eq_ok.mp hrun
        have hpure' : (Except.ok (Decl.array is d, r') : Except PyError _) =
            .ok (.array indices decl, q) := hpure
        simp only [Except.ok.injEq, Prod.mk.injEq, Decl.array.injEq] at hpure'
        exact hpure'.1.1
      · intro n s r q _ hrun
        obtain ⟨is, r', his, hrun⟩ := run_bind_eq_ok.mp hrun
        obtain ⟨d, r'', _, hpure⟩ := run_bind_eq_ok.mp hrun
        have hpure' : (Except.ok (Decl.array is d, r'') : Except PyError _) =
            .ok (.array indices decl, q) := hpure
        simp only [Except.ok.injEq, Prod.mk.injEq, Decl.array.injEq] at hpure'
        rw [← times_length his, hpure'.1.1]
  | .struct field, fuel + 1 =>
      rw [Decl.depth] at hfuel
      have hfields := ReadsBack.times (decodeField_readsBack henc hdec field (show field.depth ≤ fuel by omega))
      -- the list of fields is read as often as the number says
      have hrest : ReadsBack (do
          let fields ← times field.length (decodeField (decodeDeclFuel dec fuel))
          pure (Decl.struct (.ofList fields))) (encodeFieldDecls enc field) (.struct field)
          (FieldsReadable field) := by
        rw [henc.encodeFieldDecls, ← field.toList_length]
        have hmap := hfields.map (f := fun l => Decl.struct (.ofList l)) fun l h => by
          rw [Decl.struct.injEq] at h
          rw [← Fields.toList_ofList l, h, Fields.toList_ofList]
        rw [map_eq_pure_bind, Fields.ofList_toList] at hmap
        exact hmap.congr (fieldsReadable_iff field).symm
      unfold encodeDecl decodeDeclFuel Readable
      rw [List.append_assoc]
      refine ReadsBack.after (decodePacked32_token (by decide)) ?_
      rw [hdec.struct]
      show ReadsBack (if _ then _ else _) _ _ _
      rw [if_pos (by decide)]
      refine (decodePacked32_readsBack field.length).bind hrest ?_
      intro n s r q _ hrun
      obtain ⟨l, r', hl, hpure⟩ := run_bind_eq_ok.mp hrun
      have hpure' : (Except.ok (Decl.struct (.ofList l), r') : Except PyError _) =
          .ok (.struct field, q) := hpure
      simp only [Except.ok.injEq, Prod.mk.injEq, Decl.struct.injEq] at hpure'
      rw [← times_length hl, ← hpure'.1, ← Fields.toList_length, Fields.toList_ofList]

theorem decodeField_readsBack (henc : OnlySamples enc) (hdec : Predefined dec)
    (field : Fields String) {fuel : Nat} (hfuel : field.depth ≤ fuel) :
    ∀ x ∈ field.toList, ReadsBack (decodeField (decodeDeclFuel dec fuel))
      (encodeIntentions x.1 ++ encodeDecl enc x.2) x
      ((IntentionsFit x.1 ∧ Increasing x.1) ∧ Readable x.2) := by
  match field with
  | .nil => simp [Fields.toList]
  | .cons intentions decl rest =>
      rw [Fields.depth] at hfuel
      have hrest := decodeField_readsBack henc hdec rest (show rest.depth ≤ fuel by omega)
      have hdecl := decodeDeclFuel_readsBack henc hdec decl (show decl.depth ≤ fuel by omega)
      intro x hx
      rcases List.mem_cons.mp hx with rfl | hx
      · have hmap := hdecl.map (f := fun d => (intentions, d)) fun d h => congrArg Prod.snd h
        rw [map_eq_pure_bind] at hmap
        refine (decodeIntentions_readsBack intentions).bind hmap ?_
        intro ints s r q _ hrun
        obtain ⟨d, r', _, hpure⟩ := run_bind_eq_ok.mp hrun
        have hpure' : (Except.ok ((ints, d), r') : Except PyError _) =
            .ok ((intentions, decl), q) := hpure
        simp only [Except.ok.injEq, Prod.mk.injEq] at hpure'
        exact hpure'.1.1
      · exact hrest x hx

end

/-- **A declaration is read back** if and only if it is readable. -/
theorem decodeDecl_readsBack (henc : OnlySamples enc) (hdec : Predefined dec) (d : Decl String) :
    ReadsBack (decodeDecl dec) (encodeDecl enc d) d (Readable d) := by
  have hdepth := encodeDecl_length henc d
  have hfuel : ∀ rest, d.depth ≤ (encodeDecl enc d ++ rest).length := fun rest => by
    rw [List.length_append]
    omega
  constructor
  · exact fun h rest => (decodeDeclFuel_readsBack henc hdec d (hfuel rest)).consumes h rest
  · exact fun h rest q => (decodeDeclFuel_readsBack henc hdec d (hfuel rest)).misses h rest q

/-- The intentions of a sample definition come out sorted. -/
theorem sampleDef_eq_iff {ints : Intentions String} {decl : Decl String} {s : SampleDef String}
    (h : Increasing ints) : sampleDef ints decl = s ↔ ints = s.intentions ∧ decl = s.decl := by
  obtain ⟨intentions, hinc, d⟩ := s
  rw [sampleDef, SampleDef.mk.injEq, sortedTuple_of_increasing h]

theorem decodeIntentions_increasing {s q : List UInt8} {ints : Intentions String}
    (h : decodeIntentions.run s = .ok (ints, q)) : Increasing ints := by
  obtain ⟨n, r, _, hrun⟩ := run_bind_eq_ok.mp h
  obtain ⟨l, r', _, hpure⟩ := run_bind_eq_ok.mp hrun
  have hpure' : (Except.ok (sortedTuple l, r') : Except PyError _) = .ok (ints, q) := hpure
  simp only [Except.ok.injEq, Prod.mk.injEq] at hpure'
  rw [← hpure'.1]
  exact sortedTuple_increasing l

/-- A sample definition is read back with its index if and only if its intentions, its
declaration and its index fit. -/
theorem decodeSampleDef_readsBack (henc : OnlySamples enc) (hdec : Predefined dec)
    (s : SampleDef String) (index : Nat) :
    ReadsBack (decodeSampleDef dec)
      (encodePacked32 index ++ encodeIntentions s.intentions ++
        lengthEncoder (encodeDecl enc s.decl)) (index, s)
      (index < 2 ^ 32 ∧ IntentionsFit s.intentions ∧ Readable s.decl) := by
  -- the intentions are sorted, so that the definition that is made is `s` itself
  have hs : sampleDef s.intentions s.decl = s := (sampleDef_eq_iff s.increasing).mpr ⟨rfl, rfl⟩
  have hpure : ∀ {i : Nat} {ints : Intentions String} {d : Decl String} {r r' : List UInt8}
      {b : Nat × SampleDef String}, (pure (i, sampleDef ints d) : Parser PyError _).run r =
        .ok (b, r') → (i, sampleDef ints d) = b := by
    intro i ints d r r' b h
    have h' : (Except.ok ((i, sampleDef ints d), r) : Except PyError _) = .ok (b, r') := h
    simp only [Except.ok.injEq, Prod.mk.injEq] at h'
    exact h'.1
  -- index and intentions are read when the declaration is
  have hdecl : ReadsBack (do
      let decl ← decodeDecl dec
      pure (index, sampleDef s.intentions decl)) (encodeDecl enc s.decl) (index, s)
      (Readable s.decl) := by
    have hmap := (decodeDecl_readsBack henc hdec s.decl).map
      (f := fun d => (index, sampleDef s.intentions d)) fun d h => by
        rw [hs, Prod.mk.injEq, sampleDef_eq_iff s.increasing] at h
        exact h.2.2
    rwa [map_eq_pure_bind, hs] at hmap
  unfold decodeSampleDef lengthEncoder
  rw [List.append_assoc]
  refine (decodePacked32_readsBack index).bind ((((decodeIntentions_readsBack s.intentions).bind
    (ReadsBack.after (decodePacked32_consumes _) hdecl) ?_).congr ?_)) ?_
  · intro ints t r q hints hrun
    obtain ⟨_, r1, _, hrun⟩ := run_bind_eq_ok.mp hrun
    obtain ⟨d, r2, _, hrun⟩ := run_bind_eq_ok.mp hrun
    have heq := hpure hrun
    rw [Prod.mk.injEq, sampleDef_eq_iff (decodeIntentions_increasing hints)] at heq
    exact heq.2.1
  · simp [s.increasing]
  · intro i t r q _ hrun
    obtain ⟨ints, r0, _, hrun⟩ := run_bind_eq_ok.mp hrun
    obtain ⟨_, r1, _, hrun⟩ := run_bind_eq_ok.mp hrun
    obtain ⟨d, r2, _, hrun⟩ := run_bind_eq_ok.mp hrun
    have heq := hpure hrun
    rw [Prod.mk.injEq] at heq
    exact heq.1

end ReadsBack

end LabComm.Python
