import Mathlib.Data.Sum.Order
import LabComm.Python.Decoder

set_option autoImplicit false

/-! # Declarations arrive

The strings of a declaration are `unicode` or `str` objects, while a decoder makes `unicode`
objects only. An encoder writes the same bytes for two declarations that have equal strings
(`encoder_mapText`), so that what is known of `unicode` objects holds for all strings. A `str`
object that is not ASCII is the exception: it is equal to no `unicode` object, and
`encode_intentions` stops when it comes to one.
-/

namespace LabComm.Python

open Library

/-! ## All strings -/

/-- A string. An ASCII `str` object is equal to the `unicode` object of the same characters and
has its hash, and counts as that one; the other `str` objects are equal to no `unicode` object. -/
inductive PyString where
  | unicode (s : String)
  | str (bs : List UInt8) (h : ¬ bs.all (· < 128))

/-- The bytes of a `str` object, or the `unicode` object. -/
def PyString.object : PyString → String ⊕ₗ List UInt8
  | unicode s => Sum.inlₗ s
  | str bs _ => Sum.inrₗ bs

theorem PyString.object_injective : Function.Injective PyString.object := by
  rintro (s | ⟨bs, h⟩) (t | ⟨cs, h'⟩) heq
  · exact congrArg unicode (Sum.inl_injective heq)
  · cases heq
  · cases heq
  · obtain rfl : bs = cs := Sum.inr_injective heq
    rfl

/-- The order of two strings of one class. Python has none for a `unicode` object and a `str`
object that is not ASCII: `sorted` raises. -/
instance linearOrderPyString : LinearOrder PyString :=
  LinearOrder.lift' PyString.object PyString.object_injective

/-- `v.encode("utf8")` of a string of either class. -/
def PyString.encode : PyString → Option (List UInt8)
  | unicode s => PyText.encode s
  | str bs _ => PyText.encode bs

instance : PyText PyString := ⟨.unicode PyText.empty, PyString.encode⟩

theorem PyString.unicode_injective : Function.Injective PyString.unicode :=
  fun _ _ h => PyString.unicode.inj h

theorem PyString.unicode_le_unicode {s t : String} : unicode s ≤ unicode t ↔ s ≤ t :=
  Sum.Lex.inl_le_inl_iff

/-- The `unicode` objects among the strings, in their order. -/
def unicodeStrings : String ↪o PyString where
  toFun := .unicode
  inj' := PyString.unicode_injective
  map_rel_iff' := PyString.unicode_le_unicode

/-! ## Declarations with other strings -/

section MapText

variable {S T : Type}

/-- The intentions with other strings. -/
def mapIntentions (f : S → T) (l : Intentions S) : Intentions T := l.map (Prod.map f f)

mutual

/-- A declaration with other strings. -/
def Decl.mapText (f : S → T) : Decl S → Decl T
  | .primitive p => .primitive p
  | .array indices decl => .array indices (decl.mapText f)
  | .struct field => .struct (field.mapText f)

/-- The fields with other strings. -/
def Fields.mapText (f : S → T) : Fields S → Fields T
  | .nil => .nil
  | .cons intentions decl rest =>
      .cons (mapIntentions f intentions) (decl.mapText f) (rest.mapText f)

end

theorem mapIntentions_injective {f : S → T} (hf : Function.Injective f) :
    Function.Injective (mapIntentions f) :=
  List.map_injective_iff.mpr (hf.prodMap hf)

theorem Fields.mapText_length (f : S → T) (field : Fields S) :
    (field.mapText f).length = field.length := by
  cases field with
  | nil => rfl
  | cons intentions decl rest => rw [mapText, length, length, mapText_length f rest]

mutual

theorem Decl.mapText_injective {f : S → T} (hf : Function.Injective f) :
    Function.Injective (Decl.mapText f) := by
  intro d d' h
  match d, d' with
  | .primitive _, .primitive _ =>
      rw [Decl.mapText, Decl.mapText, Decl.primitive.injEq] at h
      rw [h]
  | .array _ decl, .array _ _ =>
      rw [Decl.mapText, Decl.mapText, Decl.array.injEq] at h
      rw [h.1, Decl.mapText_injective hf h.2]
  | .struct field, .struct _ =>
      rw [Decl.mapText, Decl.mapText, Decl.struct.injEq] at h
      rw [Fields.mapText_injective hf h]

theorem Fields.mapText_injective {f : S → T} (hf : Function.Injective f) :
    Function.Injective (Fields.mapText f) := by
  intro field field' h
  match field, field' with
  | .nil, .nil => rfl
  | .cons _ decl rest, .cons _ _ _ =>
      rw [Fields.mapText, Fields.mapText, Fields.cons.injEq] at h
      rw [mapIntentions_injective hf h.1, Decl.mapText_injective hf h.2.1,
        Fields.mapText_injective hf h.2.2]

end

variable [LinearOrder S] [LinearOrder T]

theorem increasing_mapIntentions (f : S ↪o T) {l : Intentions S} (h : Increasing l) :
    Increasing (mapIntentions f l) :=
  List.pairwise_map.mpr (List.Pairwise.imp (fun hlt => f.lt_iff_lt.mpr hlt) h)

/-- A sample definition with other strings, in the same order. -/
def SampleDef.mapText (f : S ↪o T) (s : SampleDef S) : SampleDef T :=
  ⟨mapIntentions f s.intentions, increasing_mapIntentions f s.increasing, s.decl.mapText f⟩

/-- The same for the other entries of a table. -/
def TypeDecl.mapText (f : S ↪o T) : TypeDecl S → TypeDecl T
  | sample s => .sample (s.mapText f)
  | decl d => .decl (d.mapText f)
  | SAMPLE_DEF => .SAMPLE_DEF
  | SAMPLE_REF => .SAMPLE_REF
  | ARRAY => .ARRAY

/-- The key of a declaration with other strings. -/
def DeclKey.mapText (f : S ↪o T) : DeclKey S → DeclKey T
  | sample name d => .sample (name.map f) (d.mapText f)
  | decl d => .decl (d.mapText f)
  | SAMPLE_DEF => .SAMPLE_DEF
  | SAMPLE_REF => .SAMPLE_REF
  | ARRAY => .ARRAY

theorem DeclKey.mapText_injective (f : S ↪o T) : Function.Injective (DeclKey.mapText f) := by
  intro k k' h
  have hdecl := Decl.mapText_injective f.injective
  cases k <;> cases k' <;> simp only [mapText, reduceCtorEq, sample.injEq, decl.injEq] at h ⊢
  · exact ⟨Option.map_injective f.injective h.1, hdecl h.2⟩
  · exact hdecl h

/-- The tables with other strings. -/
def Codec.mapText (f : S ↪o T) (c : Codec S) : Codec T :=
  { index_to_decl := c.index_to_decl.map (Prod.map id (TypeDecl.mapText f))
    decl_to_index := c.decl_to_index.map (Prod.map (DeclKey.mapText f) id)
    decl_index := c.decl_index }

/-- An encoder with other strings in its tables, that has written the same. -/
def Encoder.mapText (f : S ↪o T) (e : Encoder S) : Encoder T := ⟨e.codec.mapText f, e.out⟩

/-- The strings are the same to Python: they are written alike, and `''` is `''`. -/
structure SameText [PyText S] [PyText T] (f : S ↪o T) : Prop where
  empty : f PyText.empty = PyText.empty
  encode : ∀ v, PyText.encode (f v) = PyText.encode v

variable [PyText S] [PyText T] {f : S ↪o T}

theorem SameText.key (hf : SameText f) (d : TypeDecl S) :
    (d.mapText f).key = d.key.mapText f := by
  cases d with
  | sample s =>
      have hname : (s.mapText f).name = s.name.map f := by
        unfold SampleDef.name
        rw [← hf.empty]
        exact getItem_map f.injective f _ _
      rw [TypeDecl.mapText, TypeDecl.key, TypeDecl.key, DeclKey.mapText, hname]
      rfl
  | _ => rfl

theorem SameText.getItem_key (hf : SameText f) (c : Codec S) (d : TypeDecl S) :
    getItem (d.mapText f).key (c.mapText f).decl_to_index = getItem d.key c.decl_to_index := by
  rw [hf.key]
  exact (getItem_map (DeclKey.mapText_injective f) id _ _).trans (by rw [Option.map_id, id])

theorem SameText.add_decl (hf : SameText f) (c : Codec S) (d : TypeDecl S) (index : Nat) :
    (c.mapText f).add_decl (d.mapText f) index =
      ((c.add_decl d index).1.mapText f, (c.add_decl d index).2) := by
  have hset : ∀ i, (c.mapText f).set (d.mapText f) i = (c.set d i).mapText f := by
    intro i
    unfold Codec.set Codec.mapText
    rw [hf.key]
    congr 1
    · exact setItem_map Function.injective_id _ _ _ _
    · exact setItem_map (DeclKey.mapText_injective f) id _ _ _
  by_cases hindex : index = 0
  · subst hindex
    cases hget : getItem d.key c.decl_to_index with
    | some i => simp only [Codec.add_decl, if_true, hf.getItem_key, hget]
    | none =>
        rw [Codec.add_decl_new c d hget,
          Codec.add_decl_new _ _ ((hf.getItem_key c d).trans hget)]
        show ({ (c.mapText f).set (d.mapText f) c.decl_index with
          decl_index := c.decl_index + 1 }, true) = _
        rw [hset]
        rfl
  · rw [Codec.add_decl_of_ne _ _ hindex, Codec.add_decl_of_ne _ _ hindex, hset]

/-! ### What is written -/

theorem SameText.encodeIntentions (hf : SameText f) (l : Intentions S) :
    Python.encodeIntentions (mapIntentions f l) = Python.encodeIntentions l := by
  have hstring : ∀ v, encodeString (f v) = encodeString v := fun v => by
    unfold encodeString
    rw [hf.encode]
  have hfrom : encodeIntentionsFrom (mapIntentions f l) = encodeIntentionsFrom l := by
    induction l with
    | nil => rfl
    | cons p l ih =>
        show encodeIntentionsFrom ((f p.1, f p.2) :: mapIntentions f l) = _
        rw [encodeIntentionsFrom, encodeIntentionsFrom, hstring, hstring, ih]
  unfold Python.encodeIntentions
  rw [hfrom, mapIntentions, List.length_map]

section Written

variable {c : Codec T} {c' : Codec S}

mutual

theorem SameText.encodeDecl (hf : SameText f) (hc : OnlySamples c) (hc' : OnlySamples c')
    (d : Decl S) : Python.encodeDecl c (d.mapText f) = Python.encodeDecl c' d := by
  match d with
  | .primitive p => rw [Decl.mapText, Python.encodeDecl, Python.encodeDecl]
  | .array indices decl =>
      rw [Decl.mapText, Python.encodeDecl, Python.encodeDecl, hc.encodeTypeNumber,
        hc'.encodeTypeNumber, SameText.encodeDecl hf hc hc' decl]
  | .struct field =>
      rw [Decl.mapText, Python.encodeDecl, Python.encodeDecl, Fields.mapText_length,
        SameText.encodeFieldDecls hf hc hc' field]

theorem SameText.encodeFieldDecls (hf : SameText f) (hc : OnlySamples c) (hc' : OnlySamples c')
    (field : Fields S) :
    Python.encodeFieldDecls c (field.mapText f) = Python.encodeFieldDecls c' field := by
  match field with
  | .nil => rw [Fields.mapText, Python.encodeFieldDecls, Python.encodeFieldDecls]
  | .cons intentions decl rest =>
      rw [Fields.mapText, Python.encodeFieldDecls, Python.encodeFieldDecls, hc.encodeTypeNumber,
        hc'.encodeTypeNumber, hf.encodeIntentions, SameText.encodeDecl hf hc hc' decl,
        SameText.encodeFieldDecls hf hc hc' rest]

end

/-- A sample definition with other strings is written as it was, if it has the same index. -/
theorem SameText.encode_sampleDef (hf : SameText f) (hc : OnlySamples c) (hc' : OnlySamples c')
    {s : SampleDef S} (h : getItem (TypeDecl.sample (s.mapText f)).key c.decl_to_index =
      getItem (TypeDecl.sample s).key c'.decl_to_index) :
    (s.mapText f).encodeDecl c = s.encodeDecl c' := by
  unfold SampleDef.encodeDecl
  rw [h]
  show (_ >>= fun index => pure (_ ++ lengthEncoder (_ ++ Python.encodeIntentions (mapIntentions f _)
    ++ lengthEncoder (Python.encodeDecl c (Decl.mapText f _))))) = _
  rw [hf.encodeIntentions, hf.encodeDecl hc hc']

end Written

theorem SameText.encoder_add_decl (hf : SameText f) {e : Encoder S} (he : OnlySamples e.codec)
    (he' : OnlySamples (e.codec.mapText f)) (s : SampleDef S) :
    (e.mapText f).add_decl (.sample (s.mapText f)) 0 =
      (e.add_decl (.sample s) 0).map (Encoder.mapText f) := by
  have hadd : (e.mapText f).codec.add_decl (.sample (s.mapText f)) 0 = _ :=
    hf.add_decl e.codec (.sample s) 0
  have hsamples := he.add_decl s 0
  have hsamples' : OnlySamples ((e.mapText f).codec.add_decl (.sample (s.mapText f)) 0).1 :=
    he'.add_decl (s.mapText f) 0
  cases hnew : e.codec.add_decl (.sample s) 0 with
  | mk codec new =>
      rw [hadd, hnew] at hsamples'
      rw [hnew] at hadd hsamples
      cases new with
      | false =>
          rw [Encoder.add_decl_old hadd, Encoder.add_decl_old hnew]
          rfl
      | true =>
          have hbytes := hf.encode_sampleDef hsamples' hsamples (hf.getItem_key codec (.sample s))
          rw [Encoder.add_decl_new hadd, Encoder.add_decl_new hnew]
          show (SampleDef.encodeDecl (codec.mapText f) (s.mapText f) >>= _) =
            Except.map _ (SampleDef.encodeDecl codec s >>= _)
          rw [hbytes]
          cases s.encodeDecl codec <;> rfl

/-- An encoder writes the same for declarations with equal strings. -/
theorem SameText.encoder (hf : SameText f) (samples : List (SampleDef S)) :
    Python.encoder (samples.map (SampleDef.mapText f)) =
      (Python.encoder samples).map (Encoder.mapText f) := by
  have hfold : ∀ (samples : List (SampleDef S)) (e : Encoder S), OnlySamples e.codec →
      OnlySamples (e.codec.mapText f) →
      (samples.map (SampleDef.mapText f)).foldlM
          (fun (e : Encoder T) s => e.add_decl (.sample s) 0) (e.mapText f) =
        (samples.foldlM (fun (e : Encoder S) s => e.add_decl (.sample s) 0) e).map
          (Encoder.mapText f) := by
    intro samples
    induction samples with
    | nil => exact fun e _ _ => rfl
    | cons s samples ih =>
        intro e he he'
        have hadd := hf.encoder_add_decl he he' s
        rw [List.map_cons, List.foldlM_cons, List.foldlM_cons, hadd]
        cases hnew : e.add_decl (.sample s) 0 with
        | error err => rfl
        | ok e1 =>
            rw [hnew] at hadd
            exact ih e1 (add_decl_onlySamples he hnew) (add_decl_onlySamples he' hadd)
  exact hfold samples ⟨Codec.empty, versionPacket⟩ (fun d => rfl) (fun d => rfl)

end MapText

/-! ## The round trip -/

theorem sameText_unicodeStrings : SameText unicodeStrings := ⟨rfl, fun _ => rfl⟩

/-- What `encode_decl` writes for a sample definition is read by `decode_decl`, after the type
number and the length, as an equal definition with the same index. -/
def DeclRoundTrips (enc : Codec PyString) (dec : Codec String) (s : SampleDef PyString)
    (index : Nat) : Prop :=
  ∃ bs t, s.encodeDecl enc = .ok bs ∧ t.mapText unicodeStrings = s ∧
    Consumes (do
      let _ ← decodePacked32
      let _ ← decodePacked32
      decodeSampleDef dec) bs (index, t)

/-- All strings can be encoded, all lengths have at most 32 bits, and the intentions of all fields
are sorted. -/
def Sendable (s : SampleDef PyString) : Prop :=
  ∃ t : SampleDef String, t.mapText unicodeStrings = s ∧ IntentionsFit t.intentions ∧ Readable t.decl

theorem declRoundTrips_iff {enc : Codec PyString} {dec : Codec String} (henc : OnlySamples enc)
    (hdec : Predefined dec) {s : SampleDef PyString} {index : Nat}
    (hindex : getItem (TypeDecl.sample s).key enc.decl_to_index = some index) :
    DeclRoundTrips enc dec s index ↔ index < 2 ^ 32 ∧ Sendable s := by
  -- a definition that the decoder may make is written as an encoder for `unicode` objects would
  have hcodes : ∀ t : SampleDef String, t.mapText unicodeStrings = s → CodesBack (s.encodeDecl enc) (do
      let _ ← decodePacked32
      let _ ← decodePacked32
      decodeSampleDef dec) (index, t) True (Transmissible index t) := by
    rintro t rfl
    rw [SampleDef.encodeDecl, hindex]
    show CodesBack (pure (_ ++ lengthEncoder (_ ++ Python.encodeIntentions (mapIntentions _ _) ++
      lengthEncoder (Python.encodeDecl enc (Decl.mapText _ _))))) _ _ _ _
    have hempty : OnlySamples (Codec.empty : Codec String) := fun d => rfl
    rw [sameText_unicodeStrings.encodeIntentions, sameText_unicodeStrings.encodeDecl henc hempty]
    exact (ReadsBack.after (decodePacked32_consumes i_SAMPLE_DEF) (ReadsBack.after
      (decodePacked32_consumes _)
      (decodeSampleDef_readsBack (fun d => rfl) hdec t index))).codesBack
  constructor
  · rintro ⟨bs, t, hbs, ht, hconsumes⟩
    obtain ⟨hlt, hfits⟩ := ((hcodes t ht).iff.mp ⟨bs, hbs, hconsumes⟩).2
    exact ⟨hlt, t, ht, hfits⟩
  · rintro ⟨hlt, t, ht, hfits⟩
    obtain ⟨bs, hbs, hconsumes⟩ := (hcodes t ht).iff.mpr ⟨trivial, hlt, hfits⟩
    exact ⟨bs, t, hbs, ht, hconsumes⟩

/-- The samples that a decoder makes of those that can be sent. -/
theorem exists_unicode {samples : List (SampleDef PyString)} (hs : ∀ s ∈ samples, Sendable s) :
    ∃ sent : List (SampleDef String), sent.map (SampleDef.mapText unicodeStrings) = samples ∧
      ∀ t ∈ sent, IntentionsFit t.intentions ∧ Readable t.decl := by
  induction samples with
  | nil => exact ⟨[], rfl, by simp⟩
  | cons s samples ih =>
      rw [List.forall_mem_cons] at hs
      obtain ⟨t, rfl, ht⟩ := hs.1
      obtain ⟨sent, rfl, hsent⟩ := ih hs.2
      exact ⟨t :: sent, rfl, List.forall_mem_cons.mpr ⟨ht, hsent⟩⟩

/-- **Declarations arrive as they were sent** if and only if all strings can be encoded, all
lengths and indices fit 32 bits and the intentions of all fields are sorted; then a decoder that is
fed the stream of an encoder has the same table for all user indices. -/
theorem declarations_roundTrip (samples : List (SampleDef PyString)) :
    (∀ e, encoder samples = .ok e → ∀ s index,
      getItem (TypeDecl.sample s).key e.codec.decl_to_index = some index →
      ∀ d : Decoder, Predefined d.codec →
        (DeclRoundTrips e.codec d.codec s index ↔ index < 2 ^ 32 ∧ Sendable s)) ∧
    ((∀ s ∈ samples, Sendable s) → i_USER + samples.length ≤ 2 ^ 32 →
      ∃ e d, encoder samples = .ok e ∧
        feed e.out.length Decoder.new e.out = (d, .EOFError) ∧
        ∀ index, i_USER ≤ index →
          (getItem index d.codec.index_to_decl).map (TypeDecl.mapText unicodeStrings) =
            getItem index e.codec.index_to_decl) := by
  refine ⟨fun e he s index hindex d hd => ?_, fun hs hlen => ?_⟩
  · exact declRoundTrips_iff (encoder_onlySamples he) hd hindex
  · obtain ⟨sent, rfl, hsent⟩ := exists_unicode hs
    rw [List.length_map] at hlen
    obtain ⟨e, bs, he, hout, hfeed⟩ := feed_table_from follows_new hsent hlen
    have hencoder : encoder (sent.map (SampleDef.mapText unicodeStrings)) =
        .ok (e.mapText unicodeStrings) := by
      rw [sameText_unicodeStrings.encoder]
      exact congrArg (Except.map _) he
    have hfuel : bs.length < e.out.length := by
      rw [hout, List.length_append, versionPacket_length]
      omega
    obtain ⟨d, hd, hfollows⟩ := hfeed versionPacket (Or.inr rfl) _ hfuel
    rw [← hout] at hd
    refine ⟨e.mapText unicodeStrings, d, hencoder, hd, fun index hindex => ?_⟩
    rw [hfollows.table index hindex]
    exact (getItem_map Function.injective_id _ _ _).symm

/-- A sample whose field has its intentions in the order in which they were given. -/
def unsorted : SampleDef PyString :=
  sampleDef [(.unicode "", .unicode "s")]
    (.struct (.cons [(.unicode "b", .unicode "1"), (.unicode "", .unicode "x")]
      (.primitive .byte) .nil))

theorem latin1_not_ascii : ¬ ([0xf6] : List UInt8).all (· < 128) := by decide

/-- A sample whose name is a `str` object of one byte that is not ASCII. -/
def latin1 : SampleDef PyString :=
  sampleDef [(.unicode "", .str [0xf6] latin1_not_ascii)] (.primitive .byte)

/-- An encoder sends the definition, and it does not come back as it was. -/
def Lost (s : SampleDef PyString) : Prop :=
  ∃ e, encoder [s] = .ok e ∧
    getItem (TypeDecl.sample s).key e.codec.decl_to_index = some i_USER ∧
    ¬ DeclRoundTrips e.codec Decoder.new.codec s i_USER

theorem lost_of_not_sendable {s : SampleDef PyString} {e : Encoder PyString}
    (he : encoder [s] = .ok e)
    (hindex : getItem (TypeDecl.sample s).key e.codec.decl_to_index = some i_USER)
    (hs : ¬ Sendable s) : Lost s :=
  ⟨e, he, hindex, fun h =>
    hs ((declRoundTrips_iff (encoder_onlySamples he) predefined_new hindex).mp h).2⟩

/-- The first comes back with the intentions sorted, the second not at all. -/
theorem not_declRoundTrips : Lost unsorted ∧ Lost latin1 := by
  refine ⟨lost_of_not_sendable rfl rfl ?_, lost_of_not_sendable rfl rfl ?_⟩
  · rintro ⟨t, ht, _, hreadable⟩
    have hdecl : t.decl = .struct (.cons [("b", "1"), ("", "x")] (.primitive .byte) .nil) :=
      Decl.mapText_injective unicodeStrings.injective (congrArg SampleDef.decl ht)
    rw [hdecl] at hreadable
    exact absurd hreadable.2.1.1.2 (by decide)
  · rintro ⟨t, ht, _⟩
    have hints : mapIntentions unicodeStrings t.intentions = latin1.intentions :=
      congrArg SampleDef.intentions ht
    cases hcase : t.intentions with
    | nil =>
        rw [hcase] at hints
        cases hints
    | cons p l =>
        rw [hcase] at hints
        cases (congrArg (List.map Prod.snd) hints)

end LabComm.Python
