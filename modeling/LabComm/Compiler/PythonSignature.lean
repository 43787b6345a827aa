import LabComm.Compiler.Expansion
import LabComm.Python.Decoder
import LabComm.Python.Literal

set_option autoImplicit false

/-! # The signature in the generated Python code

The compiler prints each declaration as a Python expression, with the intentions between single
quotes as they stand in the specification. The declaration that the expression denotes has the
bytes of the flat signature if and only if every intention denotes itself as a string literal
(`pythonSignature_iff`).
-/

namespace LabComm.Compiler

open Library

/-! ## What is printed -/

/-- `Python_getValue` -/
def pythonGetValue : Exp → Nat
  | .integerLiteral value => value
  | .variableSize => 0

/-- `Python_genIntentions`: the tuple that is printed denotes this, and nothing if a literal in
it is none. -/
def pythonGenIntentions (is : List Intention) : Option (Python.Intentions (List UInt8)) :=
  (sortedIntentions is).mapM fun i => do
    let key ← Python.shortString i.key
    let value ← Python.shortString i.value
    pure (key, value)

mutual

/-- `Python_genSignature`: the declaration that the printed expression denotes. -/
def pythonGenSignature : DataType → Option (Python.Decl (List UInt8))
  | .void => some (.struct .nil)
  | .prim p => some (.primitive p)
  | .user _ type => pythonGenSignature type
  | .struct fields => (pythonGenFields fields).map .struct
  | .array elem dim => (pythonGenSignature elem).map (.array (dim.map pythonGetValue))

/-- `Field.Python_genSignature`, for the fields in order. -/
def pythonGenFields : Fields → Option (Python.Fields (List UInt8))
  | .nil => some .nil
  | .cons intentions _ type rest => do
      let is ← pythonGenIntentions intentions
      let decl ← pythonGenSignature type
      let field ← pythonGenFields rest
      pure (.cons is decl field)

end

/-- The signature that an encoder sends for the declaration. -/
def pythonSignature (c : Python.Codec (List UInt8)) (t : DataType) : Option (List UInt8) :=
  (pythonGenSignature t).map (Python.encodeDecl c)

/-! ## Texts -/

mutual

/-- All keys and values of intentions in the type satisfy `P`. -/
def Texts (P : List UInt8 → Prop) : DataType → Prop
  | .void => True
  | .prim _ => True
  | .user _ type => Texts P type
  | .struct fields => FieldTexts P fields
  | .array elem _ => Texts P elem

/-- The same of the fields. -/
def FieldTexts (P : List UInt8 → Prop) : Fields → Prop
  | .nil => True
  | .cons intentions _ type rest =>
      (∀ i ∈ intentions, P i.key ∧ P i.value) ∧ Texts P type ∧ FieldTexts P rest

end

/-- The text is ASCII. -/
def Ascii (s : List UInt8) : Prop := ∀ b ∈ s, b < 128

/-- No character of the text is a quote. -/
def Unquoted (s : List UInt8) : Prop := (39 : UInt8) ∉ s

/-! ## Comparing bytes -/

/-- Bytes that are as they should be if the texts are plain and ASCII, and too few if they are not
plain. -/
def Compares (flat python : Option (List UInt8)) (P A : Prop) : Prop :=
  ∀ bs, flat = some bs → (P → A → python = some bs) ∧
    ∀ ps, python = some ps → ps.length ≤ bs.length ∧ (ps.length = bs.length → P)

theorem Compares.congr {flat python : Option (List UInt8)} {P A P' A' : Prop}
    (h : Compares flat python P A) (hP : P ↔ P') (hA : A ↔ A') : Compares flat python P' A' := by
  rw [← propext hP, ← propext hA]
  exact h

theorem Compares.of_eq {flat python : Option (List UInt8)} (h : ∀ bs, flat = some bs → python = some bs)
    (A : Prop) : Compares flat python True A := by
  intro bs hbs
  refine ⟨fun _ _ => h bs hbs, fun ps hps => ?_⟩
  rw [h bs hbs, Option.some.injEq] at hps
  exact ⟨by rw [hps], fun _ => trivial⟩

theorem Compares.joined {flat python flat' python' : Option (List UInt8)} {P A P' A' : Prop}
    (h : Compares flat python P A) (h' : Compares flat' python' P' A') :
    Compares (joined flat flat') (Compiler.joined python python') (P ∧ P') (A ∧ A') := by
  intro bs hbs
  obtain ⟨x, y, hx, hy, rfl⟩ := joined_eq_some hbs
  obtain ⟨heq, hlen⟩ := h x hx
  obtain ⟨heq', hlen'⟩ := h' y hy
  constructor
  · rintro ⟨hP, hP'⟩ ⟨hA, hA'⟩
    rw [heq hP hA, heq' hP' hA']
    rfl
  · intro ps hps
    obtain ⟨p, q, hp, hq, rfl⟩ := joined_eq_some hps
    obtain ⟨hle, hplain⟩ := hlen p hp
    obtain ⟨hle', hplain'⟩ := hlen' q hq
    simp only [List.length_append]
    exact ⟨by omega, fun heq => ⟨hplain (by omega), hplain' (by omega)⟩⟩

/-! ## Intentions -/

/-- What is sent for a text that was printed between quotes. -/
theorem encodeString_compares {text : List UInt8} (hlen : text.length < 128) :
    Compares (some (packed32 text.length ++ text))
      ((Python.shortString text).bind Python.encodeString) (Python.Plain text) (Ascii text) := by
  intro bs hbs
  cases hbs
  constructor
  · intro hplain hascii
    rw [Python.shortString_plain hplain, Option.bind_some]
    have hall : text.all (· < 128) = true := by
      rw [List.all_eq_true]
      intro b hb
      simpa using hascii b hb
    show ((if text.all (· < 128) then some text else none : Option (List UInt8)) >>= _) = _
    rw [if_pos hall]
    show some (packed32 (text.length % 2 ^ 32) ++ text) = _
    rw [Nat.mod_eq_of_lt (by omega)]
  · intro ps hps
    rw [Option.bind_eq_some_iff] at hps
    obtain ⟨s, hs, hps⟩ := hps
    obtain ⟨hle, hplain⟩ := Python.shortString_length hs
    unfold Python.encodeString at hps
    simp only [Option.bind_eq_bind, Option.bind_eq_some_iff] at hps
    obtain ⟨s', hs', hps⟩ := hps
    have hss : s' = s := by
      change (if s.all (· < 128) then some s else none : Option (List UInt8)) = some s' at hs'
      split at hs'
      · exact (Option.some.inj hs').symm
      · cases hs'
    cases hps
    subst hss
    unfold Python.encodePacked32
    rw [Nat.mod_eq_of_lt (by omega), packed32_of_lt_128 (by omega), packed32_of_lt_128 hlen]
    simp only [List.length_append, List.length_singleton]
    exact ⟨by omega, fun heq => hplain (by omega)⟩

/-- The literals of an intention. -/
def literalPair (i : Intention) : Option (List UInt8 × List UInt8) := do
  let key ← Python.shortString i.key
  let value ← Python.shortString i.value
  pure (key, value)

theorem literalPair_eq_some {i : Intention} {p : List UInt8 × List UInt8}
    (h : literalPair i = some p) :
    Python.shortString i.key = some p.1 ∧ Python.shortString i.value = some p.2 := by
  unfold literalPair at h
  simp only [Option.bind_eq_bind, Option.bind_eq_some_iff] at h
  obtain ⟨key, hkey, value, hvalue, hpure⟩ := h
  cases hpure
  exact ⟨hkey, hvalue⟩

/-- Key and value denote themselves. -/
def PlainIntention (i : Intention) : Prop := Python.Plain i.key ∧ Python.Plain i.value

/-- Key and value are ASCII. -/
def AsciiIntention (i : Intention) : Prop := Ascii i.key ∧ Ascii i.value

theorem encodeIntentionsFrom_compares (l : List Intention) :
    Compares ((l.mapM toByteArray).map List.flatten)
      ((l.mapM literalPair).map Python.encodeIntentionsFrom)
      (∀ i ∈ l, PlainIntention i) (∀ i ∈ l, AsciiIntention i) := by
  induction l with
  | nil => exact (Compares.of_eq (fun bs h => h) True).congr (by simp) (by simp)
  | cons i l ih =>
      intro bs hbs
      rw [List.mapM_cons] at hbs
      simp only [Option.bind_eq_bind, Option.map_eq_some_iff, Option.bind_eq_some_iff] at hbs
      obtain ⟨_, ⟨x, hx, y, hy, hpure⟩, rfl⟩ := hbs
      cases hpure
      obtain ⟨hklen, hvlen, rfl⟩ := toByteArray_eq hx
      obtain ⟨hkeq, hkle⟩ := encodeString_compares hklen _ rfl
      obtain ⟨hveq, hvle⟩ := encodeString_compares hvlen _ rfl
      obtain ⟨hleq, hlle⟩ := ih y.flatten (by rw [hy]; rfl)
      have hkpos := packed32_length_pos i.key.length
      have hvpos := packed32_length_pos i.value.length
      rw [List.flatten_cons, List.mapM_cons]
      constructor
      · intro hP hA
        obtain ⟨⟨hPk, hPv⟩, hP⟩ := List.forall_mem_cons.mp hP
        obtain ⟨⟨hAk, hAv⟩, hA⟩ := List.forall_mem_cons.mp hA
        have hk := hkeq hPk hAk
        have hv := hveq hPv hAv
        rw [Python.shortString_plain hPk, Option.bind_some] at hk
        rw [Python.shortString_plain hPv, Option.bind_some] at hv
        have hrest := hleq hP hA
        rw [Option.map_eq_some_iff] at hrest
        obtain ⟨ps, hps, hrest⟩ := hrest
        have hpair : literalPair i = some (i.key, i.value) := by
          rw [literalPair, Python.shortString_plain hPk, Python.shortString_plain hPv]
          rfl
        rw [hpair, hps]
        show some (Python.encodeIntentionsFrom ((i.key, i.value) :: ps)) = _
        rw [Python.encodeIntentionsFrom, hk, hv, hrest]
      · intro ps hps
        simp only [Option.bind_eq_bind, Option.map_eq_some_iff, Option.bind_eq_some_iff] at hps
        obtain ⟨_, ⟨p, hp, q, hq, hpure⟩, rfl⟩ := hps
        cases hpure
        obtain ⟨hk, hv⟩ := literalPair_eq_some hp
        rw [hk, Option.bind_some] at hkle
        rw [hv, Option.bind_some] at hvle
        rw [hq, Option.map_some] at hlle
        obtain ⟨hqle, hqplain⟩ := hlle _ rfl
        -- at a string that is not ASCII the loop stops, and everything after it is missing
        rw [Python.encodeIntentionsFrom]
        simp only [List.length_append] at hkle hvle hqle hqplain ⊢
        cases hkey : Python.encodeString p.1 with
        | none => exact ⟨by simp, fun heq => by simp at heq; omega⟩
        | some key =>
            obtain ⟨hk1, hk2⟩ := hkle key hkey
            cases hvalue : Python.encodeString p.2 with
            | none =>
                simp only
                exact ⟨by omega, fun heq => by omega⟩
            | some value =>
                obtain ⟨hv1, hv2⟩ := hvle value hvalue
                simp only [List.length_append]
                refine ⟨by omega, fun heq => List.forall_mem_cons.mpr ⟨⟨?_, ?_⟩, ?_⟩⟩
                · exact hk2 (by omega)
                · exact hv2 (by omega)
                · exact hqplain (by omega)

theorem mapM_length {α β : Type} {f : α → Option β} {l : List α} {r : List β}
    (h : l.mapM f = some r) : r.length = l.length := by
  induction l generalizing r with
  | nil =>
      cases h
      rfl
  | cons x l ih =>
      simp only [List.mapM_cons, Option.bind_eq_bind, Option.bind_eq_some_iff] at h
      obtain ⟨y, _, ys, hys, hpure⟩ := h
      cases hpure
      rw [List.length_cons, ih hys, List.length_cons]

theorem encodeIntentions_compares {is : List Intention} (hlen : is.length < 2 ^ 31) :
    Compares (getIntentionBytes is) ((pythonGenIntentions is).map Python.encodeIntentions)
      (∀ i ∈ is, PlainIntention i) (∀ i ∈ is, AsciiIntention i) := by
  have hlist := (encodeIntentionsFrom_compares (sortedIntentions is)).congr
    (forall_mem_sortedIntentions is _) (forall_mem_sortedIntentions is _)
  have hcount : Compares (some (packed32 is.length)) (some (packed32 is.length)) True True :=
    Compares.of_eq (fun bs h => h) True
  have hflat : getIntentionBytes is = joined (some (packed32 is.length))
      (((sortedIntentions is).mapM toByteArray).map List.flatten) := by
    unfold getIntentionBytes joined
    cases (sortedIntentions is).mapM toByteArray <;> rfl
  have hpython : (pythonGenIntentions is).map Python.encodeIntentions =
      joined (some (packed32 is.length))
        (((sortedIntentions is).mapM literalPair).map Python.encodeIntentionsFrom) := by
    show ((sortedIntentions is).mapM literalPair).map Python.encodeIntentions = _
    cases hr : (sortedIntentions is).mapM literalPair with
    | none => rfl
    | some r =>
        have hrlen : r.length = is.length := by
          rw [mapM_length hr, sortedIntentions, List.length_mergeSort]
        show some (packed32 (r.length % 2 ^ 32) ++ _) = some (packed32 is.length ++ _)
        rw [hrlen, Nat.mod_eq_of_lt (by omega)]
  rw [hflat, hpython]
  exact (hcount.joined hlist).congr (by simp) (by simp)

/-! ## Types -/

/-- What an encoder sends for the fields. -/
def pythonFieldBytes (c : Python.Codec (List UInt8)) (fields : Fields) : Option (List UInt8) :=
  (pythonGenFields fields).map (Python.encodeFieldDecls c)

/-- The dimensions in the flat signature. -/
theorem dimBytes_eq {dim : List Exp} {bs : List UInt8}
    (h : (dim.mapM signatureLine).bind (dataBytes 2014) = some bs) :
    (dim.map pythonGetValue).flatMap Python.encodePacked32 = bs := by
  induction dim generalizing bs with
  | nil =>
      cases h
      rfl
  | cons e dim ih =>
      simp only [List.mapM_cons, Option.bind_eq_bind, Option.bind_eq_some_iff] at h
      obtain ⟨_, ⟨line, hline, lines, hlines, hpure⟩, hbs⟩ := h
      cases hpure
      rw [dataBytes_cons] at hbs
      obtain ⟨x, y, hx, hy, rfl⟩ := joined_eq_some hbs
      rw [List.map_cons, List.flatMap_cons, ih (by rw [hlines]; exact hy)]
      congr 1
      cases e with
      | variableSize =>
          cases hline
          cases hx
          rfl
      | integerLiteral value =>
          rw [signatureLine, Option.map_eq_some_iff] at hline
          obtain ⟨n, hn, rfl⟩ := hline
          unfold parseInt at hn
          split at hn
          · cases hn
            cases hx
            show packed32 (value % 2 ^ 32) = _
            rw [Nat.mod_eq_of_lt (by omega)]
          · cases hn

variable {c : Python.Codec (List UInt8)}

theorem pythonGenFields_length {fields : Fields} {field : Python.Fields (List UInt8)}
    (h : pythonGenFields fields = some field) : field.length = fields.length := by
  match fields with
  | .nil =>
      cases h
      rfl
  | .cons intentions name type rest =>
      unfold pythonGenFields at h
      simp only [Option.bind_eq_bind, Option.bind_eq_some_iff] at h
      obtain ⟨is, _, decl, _, field', hrest, hpure⟩ := h
      cases hpure
      rw [Python.Fields.length, pythonGenFields_length hrest, Fields.length]

theorem encodePacked32_of_lt {n : Nat} (h : n < 2 ^ 31) :
    Python.encodePacked32 n = packed32 n := by
  unfold Python.encodePacked32
  rw [Nat.mod_eq_of_lt (by omega)]

theorem pythonSignature_struct {fields : Fields} (hlen : fields.length < 2 ^ 31) :
    pythonSignature c (.struct fields) =
      joined (some (packed32 LABCOMM_STRUCT ++ packed32 fields.length))
        (pythonFieldBytes c fields) := by
  unfold pythonSignature pythonFieldBytes
  rw [pythonGenSignature]
  cases hfield : pythonGenFields fields with
  | none => rfl
  | some field =>
      have hcount := pythonGenFields_length hfield
      show some (Python.encodePacked32 _ ++ Python.encodePacked32 _ ++ _) = some (_ ++ _)
      rw [hcount, encodePacked32_of_lt hlen]
      rfl

theorem pythonFieldBytes_cons (hc : Python.OnlySamples c) (intentions : List Intention)
    (name : Name) (type : DataType) (rest : Fields) :
    pythonFieldBytes c (.cons intentions name type rest) =
      joined ((pythonGenIntentions intentions).map Python.encodeIntentions)
        (joined (pythonSignature c type) (pythonFieldBytes c rest)) := by
  unfold pythonSignature pythonFieldBytes
  rw [pythonGenFields]
  cases pythonGenIntentions intentions with
  | none => rfl
  | some is =>
      cases pythonGenSignature type with
      | none => rfl
      | some decl =>
          cases pythonGenFields rest with
          | none => rfl
          | some field =>
              show some (Python.encodeIntentions is ++ Python.encodeTypeNumber _ _ _ ++ _) =
                some (_ ++ (_ ++ _))
              rw [hc.encodeTypeNumber, List.append_assoc]

theorem pythonSignature_array (hc : Python.OnlySamples c) (elem : DataType) {dim : List Exp}
    (hlen : dim.length < 2 ^ 31) :
    pythonSignature c (.array elem dim) =
      joined (joined (some (packed32 LABCOMM_ARRAY ++ packed32 dim.length))
        (some ((dim.map pythonGetValue).flatMap Python.encodePacked32)))
        (pythonSignature c elem) := by
  unfold pythonSignature
  rw [pythonGenSignature]
  cases pythonGenSignature elem with
  | none => rfl
  | some decl =>
      show some (Python.encodePacked32 _ ++ Python.encodePacked32 _ ++ _ ++
        Python.encodeTypeNumber _ _ _) = some (_ ++ _ ++ _)
      rw [hc.encodeTypeNumber, List.length_map, encodePacked32_of_lt hlen]
      rfl

mutual

/-- The two signatures of a type compare as its intentions do. -/
theorem pythonSignature_compares (hc : Python.OnlySamples c) (t : DataType) (ht : t.Accepted) :
    Compares (flatBytes 2014 t) (pythonSignature c t) (Texts (fun s => Python.Plain s) t)
      (Texts Ascii t) := by
  match t with
  | .void => exact Compares.of_eq (fun bs h => h) True
  | .prim p => exact Compares.of_eq (fun bs h => by cases p <;> exact h) True
  | .user _ type => exact pythonSignature_compares hc type ht
  | .struct fields =>
      have hfields := pythonFieldBytes_compares hc fields ht.2.2
      have hheader : Compares (some (packed32 LABCOMM_STRUCT ++ packed32 fields.length))
          (some (packed32 LABCOMM_STRUCT ++ packed32 fields.length)) True True :=
        Compares.of_eq (fun bs h => h) True
      rw [flatBytes_struct, pythonSignature_struct ht.2.1]
      exact (hheader.joined hfields).congr (by simp [Texts]) (by simp [Texts])
  | .array elem dim =>
      have helem := pythonSignature_compares hc elem ht.2.2.2
      have hheader : Compares (some (packed32 LABCOMM_ARRAY ++ packed32 dim.length))
          (some (packed32 LABCOMM_ARRAY ++ packed32 dim.length)) True True :=
        Compares.of_eq (fun bs h => h) True
      have hdim : Compares ((dim.mapM signatureLine).bind (dataBytes 2014))
          (some ((dim.map pythonGetValue).flatMap Python.encodePacked32)) True True :=
        Compares.of_eq (fun bs h => congrArg some (dimBytes_eq h)) True
      rw [flatBytes_array, pythonSignature_array hc elem ht.2.1]
      exact ((hheader.joined hdim).joined helem).congr (by simp [Texts]) (by simp [Texts])

theorem pythonFieldBytes_compares (hc : Python.OnlySamples c) (fields : Fields)
    (hf : fields.Accepted) :
    Compares (flatFieldBytes fields) (pythonFieldBytes c fields)
      (FieldTexts (fun s => Python.Plain s) fields) (FieldTexts Ascii fields) := by
  match fields with
  | .nil => exact Compares.of_eq (fun bs h => h) True
  | .cons intentions name type rest =>
      have hintentions := encodeIntentions_compares hf.1
      have htype := pythonSignature_compares hc type hf.2.2.1
      have hrest := pythonFieldBytes_compares hc rest hf.2.2.2
      rw [flatFieldBytes_cons, pythonFieldBytes_cons hc]
      exact hintentions.joined (htype.joined hrest)

end

/-- **The signature in the Python code is the flat signature** of the declaration if and only if
every key and value of an intention denotes itself as a string literal. What Python makes of a text
after a quote in it is left open. -/
theorem pythonSignature_iff (h : IterationOrder Intention) (spec : Specification) {d : Decl}
    (hd : d ∈ spec.resolve h) (hascii : Texts Ascii d.type) {bs : List UInt8}
    (hbs : flatBytes 2014 d.type = some bs)
    {samples : List (Python.SampleDef (List UInt8))} {e : Python.Encoder (List UInt8)}
    (he : Python.encoder samples = .ok e) :
    (Texts (fun s => Python.Plain s) d.type → pythonSignature e.codec d.type = some bs) ∧
      (Texts Unquoted d.type → pythonSignature e.codec d.type = some bs →
        Texts (fun s => Python.Plain s) d.type) := by
  have hc := Python.encoder_onlySamples he
  obtain ⟨heq, hlen⟩ := pythonSignature_compares hc d.type (spec.accepted h hd) bs hbs
  exact ⟨fun hplain => heq hplain hascii, fun _ hps => (hlen bs hps).2 rfl⟩

/-- `sample struct { (k: "text") byte x; } s;` -/
def intentionSpec (text : List UInt8) : Specification where
  decls := [⟨.sampleDecl, [], [115],
    .struct (.cons [⟨[107], [34] ++ text ++ [34]⟩] [120] (.prim .byte) .nil)⟩]
  parsed := by simp [ParsedType.Parsed, ParsedFields.Parsed, ParsedFields.length]
  checked := rfl

/-- The type of the sample. -/
def intentionType (text : List UInt8) : DataType :=
  .struct (.cons [⟨[], [120]⟩, ⟨[107], [34] ++ text ++ [34]⟩] [120] (.prim .byte) .nil)

/-- The order in which the name comes first. -/
def nameFirst : IterationOrder Intention := ⟨List.reverse, List.reverse_perm⟩

theorem intentionSpec_resolve (text : List UInt8) :
    ⟨.sampleDecl, [⟨[], [115]⟩], [115], intentionType text⟩ ∈
      (intentionSpec text).resolve nameFirst := by
  have h : (intentionSpec text).resolve nameFirst =
      [⟨.sampleDecl, [⟨[], [115]⟩], [115], intentionType text⟩] :=
    Option.some.inj (((intentionSpec text).resolve_eq _).symm.trans rfl)
  rw [h]
  exact List.mem_singleton_self _

theorem sortedIntentions_name (text : List UInt8) :
    sortedIntentions [⟨[], [120]⟩, ⟨[107], [34] ++ text ++ [34]⟩] =
      [⟨[], [120]⟩, ⟨[107], [34] ++ text ++ [34]⟩] := by
  apply List.mergeSort_of_pairwise
  simp [keyLe]

/-- A value without a backslash, and one with an escape sequence. -/
theorem flatBytes_intentionType : flatBytes 2014 (intentionType [97]) =
      some [0x11, 1, 2, 0, 1, 120, 1, 107, 3, 34, 97, 34, 0x21] ∧
    flatBytes 2014 (intentionType [92, 110]) =
      some [0x11, 1, 2, 0, 1, 120, 1, 107, 4, 34, 92, 110, 34, 0x21] := by
  constructor
  · rw [intentionType, flatBytes_struct, flatFieldBytes_cons, getIntentionBytes,
      sortedIntentions_name]
    decide
  · rw [intentionType, flatBytes_struct, flatFieldBytes_cons, getIntentionBytes,
      sortedIntentions_name]
    decide

theorem encoder_new : Python.encoder (S := List UInt8) [] =
    .ok ⟨Python.Codec.empty, Python.versionPacket⟩ := rfl

/-- A value that is a plain word between quotes. -/
theorem pythonSignature_plain :
    pythonSignature Python.Codec.empty (intentionType [97]) =
      some [0x11, 1, 2, 0, 1, 120, 1, 107, 3, 34, 97, 34, 0x21] := by
  have hascii : Texts Ascii (intentionType [97]) := by
    simp [intentionType, Texts, FieldTexts, Ascii]
  apply (pythonSignature_iff nameFirst (intentionSpec [97]) (intentionSpec_resolve [97]) hascii
    flatBytes_intentionType.1 encoder_new).1
  refine ⟨?_, trivial, trivial⟩
  decide

/-- The escape sequence is sent as one byte. -/
theorem not_pythonSignature_escape :
    (⟨.sampleDecl, [⟨[], [115]⟩], [115], intentionType [92, 110]⟩ : Decl) ∈
        (intentionSpec [92, 110]).resolve nameFirst ∧
      flatBytes 2014 (intentionType [92, 110]) =
        some [0x11, 1, 2, 0, 1, 120, 1, 107, 4, 34, 92, 110, 34, 0x21] ∧
      pythonSignature Python.Codec.empty (intentionType [92, 110]) =
        some [0x11, 1, 2, 0, 1, 120, 1, 107, 3, 34, 10, 34, 0x21] := by
  refine ⟨intentionSpec_resolve _, flatBytes_intentionType.2, ?_⟩
  rw [intentionType, pythonSignature, pythonGenSignature, pythonGenFields, pythonGenIntentions,
    sortedIntentions_name]
  decide

end LabComm.Compiler
