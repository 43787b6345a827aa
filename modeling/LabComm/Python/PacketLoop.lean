import LabComm.Format.Grammar
import LabComm.Library.Framing
import LabComm.Python.Decoder
import LabComm.Python.RoundTrip

set_option autoImplicit false

/-! # The packet loop of the Python decoder

`Decoder.decode` reads packets in a loop, and is itself called in a loop, so that one pass follows
the other until there is an exception. A pass skips metadata by the length of the packet.

What a pass does with a packet the grammar allows does not depend on what follows: the packet is
taken, or an exception is raised within it (`passes_of_allowed`).
-/

namespace LabComm.Python

open Library

/-! ## Passes -/

/-- What follows the header of a packet, in the loop of `decode` and after it. -/
def Decoder.passBody (d : Decoder) (index length : Nat) :
    Parser PyError (Decoder × Option (Value × SampleDef String)) :=
  if index = i_VERSION then do
    let other_version ← decodeString
    if DEFAULT_VERSION ≠ other_version then throw .NameError else pure (d, none)
  else Prod.swap <$> d.decodeBody index length

/-- One packet. -/
def Decoder.pass (d : Decoder) : Parser PyError (Decoder × Option (Value × SampleDef String)) := do
  let index ← decodePacked32
  let length ← decodePacked32
  d.passBody index length

/-! ## Texts -/

/-- `s.decode("utf8")` -/
def text (bs : List UInt8) : Except PyError String :=
  match decodeUtf8 bs with
  | some s => pure s
  | none => throw .UnicodeDecodeError

/-- Key and value of an intention. -/
def pairText (i : Intention) : Except PyError (String × String) := do
  let key ← text i.key
  let val ← text i.value
  pure (key, val)

/-- What `decode_intentions` makes of intentions. -/
def intentionsText (intentions : List Intention) : Except PyError (Intentions String) := do
  let res ← intentions.mapM pairText
  pure (sortedTuple res)

theorem decodePacked32_packed32 {n : Nat} (h : n < 2 ^ 32) : Consumes decodePacked32 (packed32 n) n := by
  have hconsumes := (decodePacked32_readsBack n).consumes h
  rwa [encodePacked32, Nat.mod_eq_of_lt h] at hconsumes

theorem decodeString_yields {bs : List UInt8} (h : bs.length < 2 ^ 32) :
    Yields decodeString (counted bs) (text bs) := by
  intro rest
  rw [counted, List.append_assoc, decodeString, (decodePacked32_packed32 h).run_bind,
    (readBytes_consumes PyError.EOFError bs).run_bind, text]
  cases decodeUtf8 bs <;> rfl

/-- The count and the lengths of intentions within fewer bytes than `N`. -/
theorem intentions_lt {N : Nat} {intentions : List Intention}
    (h : (intentionsBytes intentions).length < N) :
    intentions.length < N ∧ ∀ i ∈ intentions, i.key.length < N ∧ i.value.length < N := by
  have hwithin : intentions.length ≤ (intentions.flatMap Intention.bytes).length ∧
      ∀ i ∈ intentions, i.key.length ≤ (intentions.flatMap Intention.bytes).length ∧
        i.value.length ≤ (intentions.flatMap Intention.bytes).length := by
    clear h
    induction intentions with
    | nil => simp
    | cons i intentions ih =>
        obtain ⟨hcount, hall⟩ := ih
        have hpos := packed32_length_pos i.key.length
        have hkey := counted_length i.key
        have hvalue := length_le_counted i.value
        rw [List.flatMap_cons, List.length_append, Intention.bytes, List.length_append,
          List.length_cons]
        refine ⟨by omega, List.forall_mem_cons.mpr ⟨by omega, fun j hj => ?_⟩⟩
        have := hall j hj
        omega
  rw [intentionsBytes, List.length_append] at h
  refine ⟨by omega, fun i hi => ?_⟩
  have := hwithin.2 i hi
  omega

theorem decodeIntentions_yields {intentions : List Intention}
    (h : (intentionsBytes intentions).length < 2 ^ 32) :
    Yields decodeIntentions (intentionsBytes intentions) (intentionsText intentions) := by
  obtain ⟨hcount, hall⟩ := intentions_lt h
  have hpairs : Yields (times intentions.length decodePair) (intentions.flatMap Intention.bytes)
      (intentions.mapM pairText) := by
    refine Yields.times fun i hi => ?_
    obtain ⟨hkey, hvalue⟩ := hall i hi
    refine (decodeString_yields hkey).bind fun key => ?_
    exact (decodeString_yields hvalue).bind_pure (key, ·)
  have hsorted := hpairs.bind_pure sortedTuple
  exact Yields.after (decodePacked32_packed32 hcount) hsorted

/-! ## Declarations -/

/-- A dimension, where 0 stands for a variable one. -/
def indexOf : Exp → Nat
  | .integerLiteral value => value
  | .variableSize => 0

mutual

/-- What `decode_decl` makes of the signature of a type. -/
def declOf : DataType → Except PyError (Decl String)
  | .void => pure (.struct .nil)
  | .prim p => pure (.primitive p)
  | .user _ type => declOf type
  | .struct fields => do
      let field ← fieldsOf fields
      pure (.struct (.ofList field))
  | .array elem dim => do
      let elem_decl ← declOf elem
      pure (.array (dim.map indexOf) elem_decl)

/-- The same of the fields. -/
def fieldsOf : LabComm.Fields → Except PyError (List (Intentions String × Decl String))
  | .nil => pure []
  | .cons intentions _ type rest => do
      let x ← (do
        let ints ← intentionsText intentions
        let decl ← declOf type
        pure (ints, decl))
      let xs ← fieldsOf rest
      pure (x :: xs)

end

theorem signature_length_pos (type : DataType) : 0 < type.signature.length := by
  cases type with
  | void => decide
  | prim p =>
      have hpos := packed32_length_pos p.token
      rwa [DataType.signature]
  | user name type => exact signature_length_pos type
  | struct fields =>
      have hpos := packed32_length_pos LABCOMM_STRUCT
      rw [DataType.signature, List.length_append]
      omega
  | array elem dim =>
      have hpos := packed32_length_pos LABCOMM_ARRAY
      rw [DataType.signature, List.length_append]
      omega

theorem fields_length_le (fields : LabComm.Fields) : fields.length ≤ fields.signature.length := by
  cases fields with
  | nil => exact Nat.zero_le _
  | cons intentions name type rest =>
      have ih := fields_length_le rest
      have hpos := signature_length_pos type
      rw [LabComm.Fields.length, LabComm.Fields.signature, List.length_append, List.length_append]
      omega

theorem dim_length_le (dim : List Exp) : dim.length ≤ (dim.flatMap Exp.signature).length := by
  induction dim with
  | nil => exact le_refl _
  | cons e dim ih =>
      have hpos : 0 < e.signature.length := by
        cases e with
        | integerLiteral value => exact packed32_length_pos value
        | variableSize => exact packed32_length_pos 0
      rw [List.flatMap_cons, List.length_append, List.length_cons]
      omega

theorem indices_consumes {dim : List Exp} (h : ∀ e ∈ dim, e.IsIndex) :
    Consumes (times dim.length decodePacked32) (dim.flatMap Exp.signature) (dim.map indexOf) := by
  induction dim with
  | nil => exact Consumes.pure _
  | cons e dim ih =>
      obtain ⟨he, hdim⟩ := List.forall_mem_cons.mp h
      have hindex : Consumes decodePacked32 e.signature (indexOf e) := by
        cases e with
        | integerLiteral value => exact decodePacked32_packed32 he.2
        | variableSize => exact decodePacked32_packed32 (by norm_num)
      have hrest := (ih hdim).map (indexOf e :: ·)
      rw [map_eq_pure_bind] at hrest
      rw [List.flatMap_cons, List.length_cons, times]
      exact hindex.bind hrest

section Declarations

variable {c : Codec String}

/-- An entry of the table, after its token. -/
theorem decodeDeclFuel_token {token : Nat} {result : TypeDecl String} (hlt : token < i_USER)
    (hget : getItem token c.index_to_decl = some result) {fuel : Nat} {bs : List UInt8}
    {x : Except PyError (Decl String)}
    (h : Yields (decodeTemplate (decodeDeclFuel c fuel) result) bs x) :
    Yields (decodeDeclFuel c (fuel + 1)) (packed32 token ++ bs) x := by
  unfold decodeDeclFuel
  refine Yields.after (decodePacked32_packed32 (hlt.trans (by decide))) ?_
  rw [hget]
  dsimp only
  rw [if_pos hlt]
  exact h

mutual

/-- **Signatures are declarations**, or no texts. -/
theorem decodeDeclFuel_yields (hc : Predefined c) (type : DataType) (hi : type.HasIndices)
    (hlt : type.signature.length < 2 ^ 32) {fuel : Nat} (hfuel : type.signature.length ≤ fuel) :
    Yields (decodeDeclFuel c fuel) type.signature (declOf type) := by
  have hpos := signature_length_pos type
  obtain ⟨fuel, rfl⟩ := Nat.exists_eq_succ_of_ne_zero (by omega : fuel ≠ 0)
  match type with
  | .void =>
      rw [DataType.signature, declOf]
      refine decodeDeclFuel_token (by decide) hc.struct ?_
      -- the void type is a struct of no fields
      have hzero := decodePacked32_packed32 (n := 0) (by norm_num)
      rw [← List.append_nil (packed32 0)]
      exact Yields.after hzero fun rest => rfl
  | .prim p =>
      obtain ⟨htoken, hget⟩ := hc.primitive p
      rw [DataType.signature, declOf, ← List.append_nil (packed32 p.token)]
      exact decodeDeclFuel_token htoken hget fun rest => rfl
  | .user _ type =>
      rw [DataType.HasIndices] at hi
      rw [DataType.signature] at hlt hfuel ⊢
      exact decodeDeclFuel_yields hc type hi hlt hfuel
  | .struct fields =>
      rw [DataType.HasIndices] at hi
      rw [DataType.signature, List.length_append, List.length_append] at hlt hfuel
      have htag := packed32_length_pos LABCOMM_STRUCT
      have hcount := fields_length_le fields
      have hfields := @decodeFields_yields hc fields hi (by omega) fuel (by omega)
      rw [DataType.signature, declOf]
      refine decodeDeclFuel_token (by decide) hc.struct ?_
      exact Yields.after (decodePacked32_packed32 (by omega))
        (hfields.bind_pure fun l => Decl.struct (.ofList l))
  | .array elem dim =>
      rw [DataType.HasIndices] at hi
      rw [DataType.signature, List.length_append, List.length_append, List.length_append] at hlt hfuel
      have htag := packed32_length_pos LABCOMM_ARRAY
      have hcount := dim_length_le dim
      have helem := @decodeDeclFuel_yields hc elem hi.2 (by omega) fuel (by omega)
      rw [DataType.signature, declOf]
      refine decodeDeclFuel_token (by decide) hc.array ?_
      exact Yields.after (decodePacked32_packed32 (by omega))
        (Yields.after (indices_consumes hi.1) (helem.bind_pure (Decl.array (dim.map indexOf))))

/-- The fields of a struct, one after the other. -/
theorem decodeFields_yields (hc : Predefined c) (fields : LabComm.Fields) (hi : fields.HasIndices)
    (hlt : fields.signature.length < 2 ^ 32) {fuel : Nat} (hfuel : fields.signature.length ≤ fuel) :
    Yields (times fields.length (decodeField (decodeDeclFuel c fuel))) fields.signature
      (fieldsOf fields) := by
  match fields with
  | .nil => exact fun rest => rfl
  | .cons intentions name type rest =>
      rw [LabComm.Fields.HasIndices] at hi
      rw [LabComm.Fields.signature, List.length_append, List.length_append] at hlt hfuel
      have hpos := signature_length_pos type
      have hints := @decodeIntentions_yields intentions (by omega)
      have htype := @decodeDeclFuel_yields hc type hi.1 (by omega) fuel (by omega)
      have hrest := @decodeFields_yields hc rest hi.2 (by omega) fuel (by omega)
      have hfield : Yields (decodeField (decodeDeclFuel c fuel))
          (intentionsBytes intentions ++ type.signature) (do
            let ints ← intentionsText intentions
            let decl ← declOf type
            pure (ints, decl)) := by
        refine hints.bind fun ints => ?_
        exact htype.bind_pure (ints, ·)
      rw [LabComm.Fields.signature, LabComm.Fields.length, fieldsOf, times, ← List.append_assoc]
      refine hfield.bind fun x => ?_
      exact hrest.bind_pure (x :: ·)

end

theorem decodeDecl_yields (hc : Predefined c) (type : DataType) (hi : type.HasIndices)
    (hlt : type.signature.length < 2 ^ 32) :
    Yields (decodeDecl c) type.signature (declOf type) := by
  intro rest
  refine decodeDeclFuel_yields hc type hi hlt ?_ rest
  rw [List.length_append]
  omega

/-- Types with the same signature have the same declaration. -/
theorem declOf_eq (hc : Predefined c) {type type' : DataType} (hi : type.HasIndices) (hi' : type'.HasIndices)
    (hlt : type.signature.length < 2 ^ 32) (h : type.signature = type'.signature) :
    declOf type = declOf type' := by
  have hrun := decodeDecl_yields hc type hi hlt []
  rw [h] at hrun hlt
  rw [decodeDecl_yields hc type' hi' hlt []] at hrun
  cases hx : declOf type with
  | error e =>
      cases hy : declOf type' with
      | error e' => simpa [hx, hy, Except.map, eq_comm] using hrun
      | ok d => simp [hx, hy, Except.map] at hrun
  | ok d =>
      cases hy : declOf type' with
      | error e => simp [hx, hy, Except.map] at hrun
      | ok d' => simpa [hx, hy, Except.map, eq_comm] using hrun

end Declarations

/-! ## Data -/

theorem unpack_settles {w : Nat} {bs : List UInt8} (h : bs.length = w) : Settles (unpack w) bs := by
  subst h
  exact ⟨.ok _, yields_ok.mpr ((readBytes_consumes PyError.EOFError bs).map ofBigEndian)⟩

theorem unpackInt_settles {w : Nat} {bs : List UInt8} (h : bs.length = w) :
    Settles (unpackInt w) bs := (unpack_settles h).map (signed w)

theorem decodeRef_settles (refs : Refs) {bs : List UInt8} (h : bs.length = 4) :
    Settles (decodeRef refs) bs := by
  rw [← List.append_nil bs]
  refine (unpackInt_settles h).bind fun index => ?_
  cases hget : refs.lookup index with
  | some s => exact ⟨.ok (.ref s), fun rest => rfl⟩
  | none => exact ⟨.ok .null, fun rest => rfl⟩

theorem decodePrimitive_settles (refs : Refs) {p : Prim} {bs : List UInt8}
    (h : (DataType.prim p).Data (2 ^ 32) bs) : Settles (decodePrimitive refs p) bs := by
  cases p with
  | string =>
      obtain ⟨chars, hlt, rfl⟩ := h
      exact ⟨_, (decodeString_yields hlt).map Value.string⟩
  | boolean => exact (unpackInt_settles h).map _
  | byte => exact (unpack_settles h).map _
  | short => exact (unpackInt_settles h).map _
  | int => exact (unpackInt_settles h).map _
  | long => exact (unpackInt_settles h).map _
  | float => exact (unpack_settles h).map _
  | double => exact (unpack_settles h).map _
  | sample => exact decodeRef_settles refs h

theorem decodeIndices_consumes {dim : List Exp} {ns : List Nat} (hi : ∀ e ∈ dim, e.IsIndex)
    (h : List.Forall₂ (Exp.HasSize (2 ^ 32)) dim ns) :
    Consumes (decodeIndices (dim.map indexOf)) (sizesBytes dim ns) ns := by
  induction h with
  | nil => exact Consumes.pure _
  | @cons e n dim ns hsize _ ih =>
      obtain ⟨he, hdim⟩ := List.forall_mem_cons.mp hi
      have hindex : Consumes (decodeIndex (indexOf e)) (e.sizeBytes n) n := by
        cases e with
        | integerLiteral value =>
            obtain rfl : n = value := hsize
            rw [indexOf, decodeIndex, if_neg (by have := he.1; omega)]
            exact Consumes.pure _
        | variableSize => exact decodePacked32_packed32 hsize
      have hrest := (ih hdim).map (n :: ·)
      rw [map_eq_pure_bind] at hrest
      rw [sizesBytes, List.map_cons, decodeIndices]
      exact hindex.bind hrest

/-- Rows of elements that settle. -/
theorem decodeValue_settles {p : Parser PyError Value} {D : List UInt8 → Prop}
    (hp : ∀ bs, D bs → Settles p bs) {ns : List Nat} {bs : List UInt8} (h : Rows D ns bs) :
    Settles (decodeValue p ns) bs := by
  induction ns generalizing bs with
  | nil => exact hp bs h
  | cons n ns ih =>
      obtain ⟨rows, rfl, hrows, rfl⟩ := h
      exact (Settles.times fun r hr => ih (hrows r hr)).map Value.list

mutual

/-- **Data of a type** is decoded by its declaration, or has a text that is none. -/
theorem decode_settles (refs : Refs) (type : DataType) (hi : type.HasIndices) {decl : Decl String}
    (hdecl : declOf type = .ok decl) {bs : List UInt8} (h : type.Data (2 ^ 32) bs) :
    Settles (decode refs decl) bs := by
  match type with
  | .void =>
      rw [declOf] at hdecl
      cases hdecl
      obtain rfl : bs = [] := h
      exact ⟨.ok (.object []), fun rest => rfl⟩
  | .prim p =>
      rw [declOf] at hdecl
      cases hdecl
      exact decodePrimitive_settles refs h
  | .user _ type =>
      rw [DataType.HasIndices] at hi
      rw [declOf] at hdecl
      rw [DataType.Data] at h
      exact decode_settles refs type hi hdecl h
  | .struct fields =>
      rw [DataType.HasIndices] at hi
      rw [declOf, except_bind_ok] at hdecl
      rw [DataType.Data] at h
      obtain ⟨field, hfield, hpure⟩ := hdecl
      cases hpure
      exact (decodeFieldData_settles refs fields hi hfield h []).map Value.object
  | .array elem dim =>
      rw [DataType.HasIndices] at hi
      rw [declOf, except_bind_ok] at hdecl
      rw [DataType.Data] at h
      obtain ⟨elem_decl, helem, hpure⟩ := hdecl
      cases hpure
      obtain ⟨ns, cs, hsizes, hrows, rfl⟩ := h
      obtain ⟨x, hx⟩ := decodeValue_settles
        (fun bs hbs => decode_settles refs elem hi.2 helem hbs) hrows
      exact ⟨x, Yields.after (decodeIndices_consumes hi.1 hsizes) hx⟩

/-- The data of the fields, one after the other. -/
theorem decodeFieldData_settles (refs : Refs) (fields : LabComm.Fields) (hi : fields.HasIndices)
    {field : List (Intentions String × Decl String)} (hfield : fieldsOf fields = .ok field)
    {bs : List UInt8} (h : fields.Data (2 ^ 32) bs) (obj : List (Intentions String × Value)) :
    Settles (decodeFields refs (.ofList field) obj) bs := by
  match fields with
  | .nil =>
      rw [fieldsOf] at hfield
      cases hfield
      obtain rfl : bs = [] := h
      exact ⟨.ok obj, fun rest => rfl⟩
  | .cons intentions name type rest =>
      rw [LabComm.Fields.HasIndices] at hi
      rw [fieldsOf, except_bind_ok] at hfield
      rw [LabComm.Fields.Data] at h
      obtain ⟨x, hx, hfield⟩ := hfield
      obtain ⟨xs, hxs, hpure⟩ := except_bind_ok.mp hfield
      cases hpure
      obtain ⟨ints, _, hx⟩ := except_bind_ok.mp hx
      obtain ⟨decl, hdecl, hpair⟩ := except_bind_ok.mp hx
      cases hpair
      obtain ⟨cs, ds, hcs, hds, rfl⟩ := h
      exact (decode_settles refs type hi.1 hdecl hcs).bind fun v =>
        decodeFieldData_settles refs rest hi.2 hxs hds (setItem ints v obj)

end

/-! ## Packets -/

theorem definitionBytes_append (index : Nat) (intentions : List Intention) (signature : List UInt8) :
    definitionBytes index intentions signature =
      packed32 index ++ (intentionsBytes intentions ++ (packed32 signature.length ++ signature)) := by
  rw [definitionBytes, counted, List.append_assoc]

/-- What `sample_def.decode_decl` makes of a definition. -/
theorem decodeSampleDef_yields {c : Codec String} (hc : Predefined c) {index : Nat}
    {intentions : List Intention} {type : DataType} (hindex : index < 2 ^ 32) (hi : type.HasIndices)
    (hlt : (definitionBytes index intentions type.signature).length < 2 ^ 32) :
    Yields (decodeSampleDef c) (definitionBytes index intentions type.signature) (do
      let ints ← intentionsText intentions
      let decl ← declOf type
      pure (index, sampleDef ints decl)) := by
  rw [definitionBytes_append, List.length_append, List.length_append, List.length_append] at hlt
  rw [definitionBytes_append]
  refine Yields.after (decodePacked32_packed32 hindex)
    ((decodeIntentions_yields (by omega)).bind fun ints => ?_)
  have hdecl := (decodeDecl_yields hc type hi (by omega)).bind_pure fun decl => (index, sampleDef ints decl)
  exact Yields.after (decodePacked32_packed32 (by omega)) hdecl

/-- The table has a declaration for every signature that is defined, and no other ones. -/
structure Holds (defined : Defined) (d : Decoder) : Prop where
  predefined : Predefined d.codec
  missing : ∀ index, i_USER ≤ index → defined index = none → getItem index d.codec.index_to_decl = none
  declared : ∀ index, i_USER ≤ index → ∀ signature, defined index = some signature →
    ∃ s type, getItem index d.codec.index_to_decl = some (.sample s) ∧ type.HasIndices ∧
      type.signature = signature ∧ signature.length < 2 ^ 32 ∧ declOf type = .ok s.decl

theorem holds_new : Holds Defined.none Decoder.new := by
  refine ⟨predefined_new, fun index hge _ => ?_, fun _ _ _ h => by cases h⟩
  exact follows_new.table index hge

theorem Holds.define {defined : Defined} {d : Decoder} (h : Holds defined d) {index : Nat}
    (hindex : i_USER ≤ index) {intentions : List Intention} {type : DataType} (hi : type.HasIndices)
    (hlt : type.signature.length < 2 ^ 32) {s : SampleDef String} (hdecl : declOf type = .ok s.decl) :
    Holds ((Packet.sampleDef index intentions type.signature).defines defined)
      { d with codec := (d.codec.add_decl (.sample s) index).1 } := by
  have hne : index ≠ 0 := fun h0 => by rw [h0] at hindex; exact absurd hindex (by decide)
  refine ⟨h.predefined.add_decl s hindex, fun i hge hnone => ?_, fun i hge signature hsome => ?_⟩
  · rw [Codec.add_decl_of_ne _ _ hne, Codec.getItem_set]
    rw [Packet.defines, Function.update_apply] at hnone
    split at hnone
    · cases hnone
    · rename_i hi
      rw [if_neg hi]
      exact h.missing i hge hnone
  · rw [Codec.add_decl_of_ne _ _ hne, Codec.getItem_set]
    rw [Packet.defines, Function.update_apply] at hsome
    split at hsome
    · rename_i hi'
      cases hsome
      rw [if_pos hi']
      exact ⟨s, type, rfl, hi, rfl, hlt, hdecl⟩
    · rename_i hi'
      rw [if_neg hi']
      exact h.declared i hge signature hsome

/-- A pass is what it does with the body. -/
theorem pass_yields {d : Decoder} {p : Packet} (htag : p.tag < 2 ^ 32) (hlt : p.body.length < 2 ^ 32)
    {x : Except PyError (Decoder × Option (Value × SampleDef String))}
    (h : Yields (d.passBody p.tag p.body.length) p.body x) : Yields d.pass p.bytes x := by
  rw [p.bytes_append]
  exact Yields.after (decodePacked32_packed32 htag) (Yields.after (decodePacked32_packed32 hlt) h)

theorem skip_consumes (bs : List UInt8) : Consumes (skip bs.length) bs () := by
  have hbytes := ReadsBack.times (p := readByte PyError.EOFError) (g := fun b => [b])
    (P := fun _ => True) (l := bs) fun b _ => (readByte_consumes PyError.EOFError b).readsBack
  have hconsumes := (hbytes.consumes fun _ _ => trivial).map fun _ => ()
  rw [List.flatMap_singleton'] at hconsumes
  exact hconsumes

/-- **Metadata** is skipped. -/
theorem pass_metadata (d : Decoder) {p : Packet} (hp : p.isMetadata = true)
    (hlt : p.body.length < 2 ^ 32) : Consumes d.pass p.bytes (d, none) := by
  have hskip : ∀ index, index = i_TYPE_DEF ∨ index = i_TYPE_BINDING ∨ index = i_PRAGMA →
      Consumes (d.passBody index p.body.length) p.body (d, none) := by
    intro index hindex
    have hversion : index ≠ i_VERSION := by rcases hindex with rfl | rfl | rfl <;> decide
    have hdef : index ≠ i_SAMPLE_DEF := by rcases hindex with rfl | rfl | rfl <;> decide
    have href : index ≠ i_SAMPLE_REF := by rcases hindex with rfl | rfl | rfl <;> decide
    have hbody := (skip_consumes p.body).bind (f := fun _ => pure (none, d))
      (Consumes.pure ((none : Option (Value × SampleDef String)), d))
    rw [List.append_nil] at hbody
    unfold Decoder.passBody Decoder.decodeBody
    rw [if_neg hversion, if_neg hdef, if_neg href, if_pos hindex]
    exact hbody.map Prod.swap
  have htag : p.tag < 2 ^ 32 ∧ (p.tag = i_TYPE_DEF ∨ p.tag = i_TYPE_BINDING ∨ p.tag = i_PRAGMA) := by
    cases p with
    | version | sampleDef | sampleRef | sample => cases hp
    | typeDef => exact ⟨by simp only [Packet.tag]; decide, .inl rfl⟩
    | typeBinding => exact ⟨by simp only [Packet.tag]; decide, .inr (.inl rfl)⟩
    | pragma => exact ⟨by simp only [Packet.tag]; decide, .inr (.inr rfl)⟩
  exact yields_ok.mp (pass_yields htag.1 hlt (yields_ok.mpr (hskip p.tag htag.2)))

theorem Decoder.passBody_sampleDef_swap (d : Decoder) (length : Nat) :
    d.passBody i_SAMPLE_DEF length = Prod.swap <$> (do
      let (i, s) ← decodeSampleDef d.codec
      pure (none, { d with codec := (d.codec.add_decl (.sample s) i).1 })) := rfl

theorem Decoder.passBody_sampleDef (d : Decoder) (length : Nat) :
    d.passBody i_SAMPLE_DEF length = (do
      let x ← decodeSampleDef d.codec
      pure ({ d with codec := (d.codec.add_decl (.sample x.2) x.1).1 }, none)) := by
  rw [d.passBody_sampleDef_swap, map_bind]
  rfl

theorem Decoder.passBody_sampleRef_swap (d : Decoder) (length : Nat) :
    d.passBody i_SAMPLE_REF length = Prod.swap <$> (do
      let (i, s) ← decodeSampleDef d.codec
      let sample := if s.name = none then none else some s
      pure (none, { d with refs := d.refs.add_ref sample i })) := rfl

theorem Decoder.passBody_sampleRef (d : Decoder) (length : Nat) :
    d.passBody i_SAMPLE_REF length = (do
      let x ← decodeSampleDef d.codec
      pure ({ d with refs := d.refs.add_ref (if x.2.name = none then none else some x.2) x.1 },
        none)) := by
  rw [d.passBody_sampleRef_swap, map_bind]
  rfl

/-- A sample, whether there is a declaration or none. -/
theorem Decoder.passBody_user (d : Decoder) {index : Nat} (hindex : i_USER ≤ index) (length : Nat) :
    d.passBody index length = Prod.swap <$>
      match getItem index d.codec.index_to_decl with
      | none => throw .KeyError
      | some (.sample s) => do
          let value ← Python.decode d.refs s.decl
          pure (some (value, s), d)
      | some _ => throw .AttributeError := by
  have hne : ∀ i, i < i_USER → index ≠ i := fun i hi h => by omega
  have hmeta : ¬ (index = i_TYPE_DEF ∨ index = i_TYPE_BINDING ∨ index = i_PRAGMA) := by
    rintro (h | h | h)
    · exact hne i_TYPE_DEF (by decide) h
    · exact hne i_TYPE_BINDING (by decide) h
    · exact hne i_PRAGMA (by decide) h
  have huser : ¬ index < i_USER := by omega
  unfold Decoder.passBody Decoder.decodeBody
  rw [if_neg (hne i_VERSION (by decide)), if_neg (hne i_SAMPLE_DEF (by decide)),
    if_neg (hne i_SAMPLE_REF (by decide)), if_neg hmeta]
  exact congrArg (Prod.swap <$> ·) (if_neg huser)

theorem Decoder.passBody_missing (d : Decoder) {index : Nat} (hindex : i_USER ≤ index)
    (hget : getItem index d.codec.index_to_decl = none) (length : Nat) :
    d.passBody index length = throw .KeyError := by
  rw [d.passBody_user hindex, hget]
  rfl

theorem Decoder.passBody_sample (d : Decoder) {index : Nat} (hindex : i_USER ≤ index)
    {s : SampleDef String} (hget : getItem index d.codec.index_to_decl = some (.sample s))
    (length : Nat) : d.passBody index length = (do
      let value ← Python.decode d.refs s.decl
      pure (d, some (value, s))) := by
  rw [d.passBody_user hindex, hget]
  show Prod.swap <$> (do
    let value ← Python.decode d.refs s.decl
    pure (some (value, s), d)) = _
  rw [map_bind]
  rfl

/-- A result that leaves the table with every signature that is defined. -/
def Keeps (p : Packet) (defined : Defined)
    (x : Except PyError (Decoder × Option (Value × SampleDef String))) : Prop :=
  ∀ d out, x = .ok (d, out) → Holds (p.defines defined) d

/-- **Any packet** is taken, or an exception is raised within it. -/
theorem pass_packet {defined : Defined} {d : Decoder} (h : Holds defined d) {p : Packet}
    (hp : p.Allowed (2 ^ 32) defined) : ∃ x, Yields d.pass p.bytes x ∧ Keeps p defined x := by
  -- metadata is skipped and changes nothing
  by_cases hmeta : p.isMetadata = true
  · refine ⟨.ok (d, none), pass_metadata d hmeta hp.1, fun d' out heq => ?_⟩
    cases heq
    rw [Packet.defines_metadata hmeta]
    exact h
  have hpass : ∀ {x}, Yields (d.passBody p.tag p.body.length) p.body x → Yields d.pass p.bytes x :=
    fun hx => pass_yields hp.tag_lt hp.1 hx
  obtain ⟨hlt, hids⟩ := hp
  cases p with
  | typeDef | typeBinding | pragma => exact absurd rfl hmeta
  | version s =>
      have hle := length_le_counted s
      have hstring := @decodeString_yields s (by
        rw [Packet.body] at hlt
        omega)
      have hcheck : ∀ v, Yields (if DEFAULT_VERSION ≠ v then throw PyError.NameError else pure (d, none)) []
          (if DEFAULT_VERSION ≠ v then .error PyError.NameError else .ok
            (d, (none : Option (Value × SampleDef String)))) := by
        intro v
        -- any other version raises
        split <;> exact fun rest => rfl
      have hbody := hstring.bind hcheck
      rw [List.append_nil] at hbody
      refine ⟨_, hpass hbody, fun d' out heq => ?_⟩
      obtain ⟨v, _, hv⟩ := except_bind_ok.mp heq
      split at hv
      · cases hv
      · cases hv
        exact h
  | sampleDef index intentions signature =>
      obtain ⟨⟨hge, hindex⟩, type, hi, rfl⟩ := hids
      rw [Packet.body] at hlt
      have hle := length_le_definitionBytes index intentions type.signature
      have hbody := (decodeSampleDef_yields h.predefined hindex hi hlt).bind_pure fun x =>
        ({ d with codec := (d.codec.add_decl (.sample x.2) x.1).1 },
          (none : Option (Value × SampleDef String)))
      rw [← d.passBody_sampleDef (definitionBytes index intentions type.signature).length] at hbody
      refine ⟨_, hpass hbody, fun d' out heq => ?_⟩
      obtain ⟨x, hx, hd'⟩ := except_bind_ok.mp heq
      cases hd'
      obtain ⟨ints, _, hx⟩ := except_bind_ok.mp hx
      obtain ⟨decl, hdecl, hpure⟩ := except_bind_ok.mp hx
      cases hpure
      exact h.define hge hi (by omega) hdecl
  | sampleRef index intentions signature =>
      obtain ⟨⟨hge, hindex⟩, type, hi, rfl⟩ := hids
      rw [Packet.body] at hlt
      have hbody := (decodeSampleDef_yields h.predefined hindex hi hlt).bind_pure fun x =>
        ({ d with refs := d.refs.add_ref (if x.2.name = none then none else some x.2) x.1 },
          (none : Option (Value × SampleDef String)))
      rw [← d.passBody_sampleRef (definitionBytes index intentions type.signature).length] at hbody
      refine ⟨_, hpass hbody, fun d' out heq => ?_⟩
      obtain ⟨x, _, hd'⟩ := except_bind_ok.mp heq
      cases hd'
      exact ⟨h.predefined, h.missing, h.declared⟩
  | sample index body =>
      obtain ⟨⟨hge, hindex⟩, hdata⟩ := hids
      -- a sample is decoded with the declaration its index has been given
      cases hdefined : defined index with
      | none =>
          refine ⟨.error .KeyError, hpass ?_, fun d' out heq => by cases heq⟩
          rw [Packet.tag, d.passBody_missing hge (h.missing index hge hdefined)]
          exact fun rest => rfl
      | some signature =>
          obtain ⟨s, type, hget, hi, rfl, hshort, hdecl⟩ := h.declared index hge _ hdefined
          obtain ⟨type', hi', hsame, hbody⟩ := hdata _ hdefined
          rw [← declOf_eq h.predefined hi' hi (by rw [hsame]; exact hshort) hsame] at hdecl
          obtain ⟨x, hx⟩ := decode_settles d.refs type' hi' hdecl hbody
          have hvalue := hx.bind_pure fun value => (d, some (value, s))
          rw [← d.passBody_sample hge hget body.length] at hvalue
          refine ⟨_, hpass hvalue, fun d' out heq => ?_⟩
          obtain ⟨v, _, hv⟩ := except_bind_ok.mp heq
          cases hv
          exact h

/-- **Leaving metadata out** of an allowed stream makes no difference. -/
theorem passes_of_allowed {defined : Defined} {d : Decoder} (h : Holds defined d)
    {stream : List (Bool × Packet)} (hs : Allowed (2 ^ 32) defined stream)
    (hmarks : MarksMetadata stream) : Passes Decoder.pass Packet.bytes d stream := by
  induction stream generalizing defined d with
  | nil => trivial
  | cons p stream ih =>
      obtain ⟨hp, hs⟩ := hs
      obtain ⟨hmark, hmarks'⟩ := List.forall_mem_cons.mp hmarks
      obtain ⟨marked, p⟩ := p
      cases marked with
      | true =>
          rw [Packet.defines_metadata (hmark rfl)] at hs
          exact .inl ⟨pass_metadata d (hmark rfl) hp.1, ih h hs hmarks'⟩
      | false =>
          obtain ⟨x, hx, hkeeps⟩ := pass_packet h hp
          cases x with
          | error e => exact .inr ⟨e, hx⟩
          | ok y => exact .inl ⟨y.1, y.2, hx, ih (hkeeps y.1 y.2 rfl) hs hmarks'⟩

/-! ## Transparency -/

/-- **Metadata is transparent**: a new decoder does the same with any stream the grammar allows and
with that stream without some of its metadata, whatever follows. -/
theorem metadata_transparent {stream : List (Bool × Packet)}
    (hs : Allowed (2 ^ 32) Defined.none stream) (hmarks : MarksMetadata stream) :
    Transparent Decoder.pass Packet.bytes Decoder.new stream :=
  transparent_of_passes (passes_of_allowed holds_new hs hmarks)

/-- A sample between a type definition and a pragma, which can be left out. -/
def intStream : List (Bool × Packet) :=
  [(false, .version [76, 97, 98, 67, 111, 109, 109, 50, 48, 49, 52]),
    (false, .sampleDef 0x40 [] [0x23]), (true, .typeDef 0x41 [] [.byte 0x23]),
    (true, .typeBinding 0x40 0), (false, .sample 0x40 [0, 0, 0, 7]), (true, .pragma [112] [1, 2, 3])]

theorem intStream_allowed : Allowed (2 ^ 32) Defined.none intStream := by
  have hid : UserId 0x40 ∧ UserId 0x41 := by
    unfold UserId
    decide
  have hint : (DataType.prim .int).HasIndices ∧ (DataType.prim .int).signature = [0x23] :=
    ⟨trivial, by decide⟩
  refine ⟨⟨by decide, trivial⟩, ⟨by decide, hid.1, .prim .int, hint.1, hint.2⟩,
    ⟨by decide, hid.2⟩, ⟨by decide, hid.1, .inl rfl⟩, ⟨by decide, hid.1, ?_⟩, ⟨by decide, trivial⟩,
    trivial⟩
  intro signature hsignature
  cases hsignature
  exact ⟨.prim .int, hint.1, hint.2, rfl⟩

theorem metadata_transparent_int :
    Transparent Decoder.pass Packet.bytes Decoder.new intStream := by
  refine metadata_transparent intStream_allowed ?_
  unfold MarksMetadata
  decide

end LabComm.Python
