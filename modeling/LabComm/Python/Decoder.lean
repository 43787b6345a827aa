import LabComm.Python.Declarations

set_option autoImplicit false

/-! # Python encoders and decoders

An encoder that gets declarations, and a decoder that is fed the stream. If all declarations are
readable, the decoder has the encoder's table for all user indices (`feed_table`).
-/

namespace LabComm.Python

open Library

def i_VERSION : Nat := 0x01
def i_TYPE_DEF : Nat := 0x04
def i_TYPE_BINDING : Nat := 0x05
def i_PRAGMA : Nat := 0x3f

/-- `DEFAULT_VERSION` -/
def DEFAULT_VERSION : String := "LabComm2014"

/-! ## The encoder -/

/-- An encoder, with what it has written. -/
structure Encoder (S : Type) [LinearOrder S] where
  codec : Codec S
  out : List UInt8

section Encoder

variable {S : Type} [LinearOrder S] [PyText S]

/-- The method `encode_decl` of an entry of the table; the templates have no declaration. -/
def TypeDecl.encodeDecl (c : Codec S) : TypeDecl S → Written
  | sample s => s.encodeDecl c
  | decl d => pure (Python.encodeDecl c d)
  | _ => throw .AttributeError

/-- `Encoder.add_decl`, which does nothing if it is given an index. -/
def Encoder.add_decl (e : Encoder S) (decl : TypeDecl S) (index : Nat) :
    Except PyError (Encoder S) :=
  if index = 0 then
    match e.codec.add_decl decl index with
    | (codec, true) => do
        let bs ← decl.encodeDecl codec
        pure ⟨codec, e.out ++ bs⟩
    | (_, false) => pure e
  else pure e

theorem Encoder.add_decl_old {e : Encoder S} {d : TypeDecl S} {codec : Codec S}
    (h : e.codec.add_decl d 0 = (codec, false)) : e.add_decl d 0 = .ok e := by
  rw [Encoder.add_decl, if_pos rfl, h]
  rfl

theorem Encoder.add_decl_new {e : Encoder S} {d : TypeDecl S} {codec : Codec S}
    (h : e.codec.add_decl d 0 = (codec, true)) :
    e.add_decl d 0 = (d.encodeDecl codec >>= fun bs => pure ⟨codec, e.out ++ bs⟩) := by
  rw [Encoder.add_decl, if_pos rfl, h]

/-- The packet that an encoder starts with. -/
def versionPacket : List UInt8 :=
  encodePacked32 i_VERSION ++ lengthEncoder (stringBytes DEFAULT_VERSION)

/-- `Encoder.__init__` -/
def Encoder.new : Except PyError (Encoder S) := do
  let e ← predefinedTypes.foldlM (fun e p => Encoder.add_decl e p.1 p.2) ⟨Codec.empty, []⟩
  pure ⟨e.codec, e.out ++ versionPacket⟩

/-- The predefined types are not in the table of an encoder. -/
theorem Encoder.new_eq : Encoder.new (S := S) = .ok ⟨Codec.empty, versionPacket⟩ := rfl

/-- An encoder after some calls of `add_decl`. -/
def encoder (samples : List (SampleDef S)) : Except PyError (Encoder S) := do
  let e ← Encoder.new
  samples.foldlM (fun e s => e.add_decl (.sample s) 0) e

theorem add_decl_onlySamples {e e' : Encoder S} (h : OnlySamples e.codec)
    {s : SampleDef S} (hadd : e.add_decl (.sample s) 0 = .ok e') : OnlySamples e'.codec := by
  have hsamples := h.add_decl s 0
  unfold Encoder.add_decl at hadd
  rw [if_pos rfl] at hadd
  split at hadd
  · rename_i codec heq
    rw [heq] at hsamples
    cases hbs : (TypeDecl.sample s).encodeDecl codec with
    | error err =>
        rw [hbs] at hadd
        cases hadd
    | ok bs =>
        rw [hbs] at hadd
        cases hadd
        exact hsamples
  · cases hadd
    exact h

theorem encoder_onlySamples {samples : List (SampleDef S)} {e : Encoder S}
    (h : encoder samples = .ok e) : OnlySamples e.codec := by
  have hfold : ∀ (samples : List (SampleDef S)) (e e' : Encoder S), OnlySamples e.codec →
      samples.foldlM (fun e s => e.add_decl (.sample s) 0) e = .ok e' → OnlySamples e'.codec := by
    intro samples
    induction samples with
    | nil =>
        intro e e' he h
        cases h
        exact he
    | cons s samples ih =>
        intro e e' he h
        rw [List.foldlM_cons] at h
        cases hadd : e.add_decl (.sample s) 0 with
        | error err =>
            rw [hadd] at h
            cases h
        | ok e1 =>
            rw [hadd] at h
            exact ih e1 e' (add_decl_onlySamples he hadd) h
  exact hfold samples _ e (fun d => rfl) h

end Encoder

/-! ## The decoder -/

/-- The tables of a decoder. -/
structure Decoder where
  codec : Codec String
  refs : Refs

/-- `Decoder.__init__` -/
def Decoder.new : Decoder :=
  ⟨predefinedTypes.foldl (fun c p => (c.add_decl p.1 p.2).1) Codec.empty, Refs.new⟩

/-- `Decoder.skip` -/
def skip (length : Nat) : Parser PyError Unit :=
  (fun _ => ()) <$> times length (readByte .EOFError)

/-- The loop of `Decoder.decode` over the type number and the length, past `fuel - 1` packets
with the version. -/
def decodeHeaderFuel : Nat → Parser PyError (Nat × Nat)
  | 0 => throw .EOFError
  | fuel + 1 => do
      let index ← decodePacked32
      let length ← decodePacked32
      if index ≠ i_VERSION then pure (index, length)
      else do
        let other_version ← decodeString
        -- the message of the exception has a name that is not defined
        if DEFAULT_VERSION ≠ other_version then throw .NameError
        else decodeHeaderFuel fuel

/-- `Decoder.decode` after the loop: what it does with a packet, and the value of a sample. -/
def Decoder.decodeBody (d : Decoder) (index length : Nat) :
    Parser PyError (Option (Value × SampleDef String) × Decoder) :=
  if index = i_SAMPLE_DEF then do
    let (i, s) ← decodeSampleDef d.codec
    pure (none, { d with codec := (d.codec.add_decl (.sample s) i).1 })
  else if index = i_SAMPLE_REF then do
    let (i, s) ← decodeSampleDef d.codec
    let sample := if s.name = none then none else some s
    pure (none, { d with refs := d.refs.add_ref sample i })
  else if index = i_TYPE_DEF ∨ index = i_TYPE_BINDING ∨ index = i_PRAGMA then do
    skip length
    pure (none, d)
  else if index < i_USER then throw .exception
  else
    match getItem index d.codec.index_to_decl with
    | none => throw .KeyError
    | some (.sample s) => do
        let value ← decode d.refs s.decl
        pure (some (value, s), d)
    -- only samples have such an index
    | some _ => throw .AttributeError

/-- `Decoder.decode` -/
def Decoder.decode (d : Decoder) : Parser PyError (Option (Value × SampleDef String) × Decoder) :=
  fun bs => (do
    let (index, length) ← decodeHeaderFuel bs.length
    d.decodeBody index length).run bs

/-- `decode` again and again, until an exception: the decoder then, and the exception. -/
def feed : Nat → Decoder → List UInt8 → Decoder × PyError
  | 0, d, _ => (d, .EOFError)
  | fuel + 1, d, bs =>
      match d.decode.run bs with
      | .ok ((_, d'), rest) => feed fuel d' rest
      | .error e => (d, e)

/-! ## Headers -/

theorem versionPacket_length : versionPacket.length = 14 := by decide

theorem versionPacket_consumes (fuel : Nat) (rest : List UInt8) :
    (decodeHeaderFuel (fuel + 1)).run (versionPacket ++ rest) =
      (decodeHeaderFuel fuel).run rest := by
  have htag : Consumes decodePacked32 (encodePacked32 i_VERSION) i_VERSION :=
    decodePacked32_token (by decide)
  have hversion := (decodeString_readsBack DEFAULT_VERSION).consumes (by
    show (utf8 DEFAULT_VERSION).length < 2 ^ 32
    decide)
  rw [decodeHeaderFuel, versionPacket, lengthEncoder, List.append_assoc, htag.run_bind,
    List.append_assoc, (decodePacked32_consumes _).run_bind, if_neg (by simp),
    hversion.run_bind, if_neg (by simp)]

/-- Any other packet ends the loop. -/
theorem header_consumes {index : Nat} (hindex : index < i_USER) (hne : index ≠ i_VERSION)
    (length fuel : Nat) :
    Consumes (decodeHeaderFuel (fuel + 1)) (encodePacked32 index ++ encodePacked32 length)
      (index, length % 2 ^ 32) := by
  have hlength : Consumes (do
      let length ← decodePacked32
      if index ≠ i_VERSION then pure (index, length) else do
        let other_version ← decodeString
        if DEFAULT_VERSION ≠ other_version then throw .NameError else decodeHeaderFuel fuel)
      (encodePacked32 length ++ []) (index, length % 2 ^ 32) := by
    refine (decodePacked32_consumes length).bind ?_
    rw [if_pos hne]
    exact Consumes.pure _
  rw [List.append_nil] at hlength
  exact (decodePacked32_token hindex).bind hlength

theorem decodeHeaderFuel_nil (fuel : Nat) : (decodeHeaderFuel fuel).run [] = .error .EOFError := by
  cases fuel <;> rfl

/-! ## Declarations arrive -/

/-- The index and all lengths have at most 32 bits, and the intentions of all fields are
sorted. -/
def Transmissible (index : Nat) (s : SampleDef String) : Prop :=
  index < 2 ^ 32 ∧ IntentionsFit s.intentions ∧ Readable s.decl

theorem decode_sampleDef {enc : Codec String} (henc : OnlySamples enc) {d : Decoder}
    (hd : Predefined d.codec) {s : SampleDef String} {index : Nat}
    (hindex : getItem (TypeDecl.sample s).key enc.decl_to_index = some index)
    (hs : Transmissible index s) :
    ∃ bs, s.encodeDecl enc = .ok bs ∧ ∀ fuel,
      Consumes (do
        let (index, length) ← decodeHeaderFuel (fuel + 1)
        d.decodeBody index length) bs
        (none, { d with codec := (d.codec.add_decl (.sample s) index).1 }) := by
  refine ⟨_, by rw [SampleDef.encodeDecl, hindex]; rfl, fun fuel => ?_⟩
  have hbody : ∀ length, Consumes (d.decodeBody i_SAMPLE_DEF length)
      (encodePacked32 index ++ encodeIntentions s.intentions ++
        lengthEncoder (encodeDecl enc s.decl) ++ [])
      ((none : Option (Value × SampleDef String)),
        { d with codec := (d.codec.add_decl (.sample s) index).1 }) := fun length =>
    ((decodeSampleDef_readsBack henc hd s index).consumes hs).bind (Consumes.pure _)
  have hheader := header_consumes (show i_SAMPLE_DEF < i_USER by decide) (by decide)
    (encodePacked32 index ++ encodeIntentions s.intentions ++
      lengthEncoder (encodeDecl enc s.decl)).length fuel
  have hpacket := hheader.bind (f := fun x : Nat × Nat => d.decodeBody x.1 x.2) (hbody _)
  rw [List.append_nil] at hpacket
  unfold lengthEncoder at hpacket ⊢
  simpa only [List.append_assoc] using hpacket

/-- The decoder has the encoder's table. -/
structure Follows (e : Encoder String) (d : Decoder) : Prop where
  samples : OnlySamples e.codec
  predefined : Predefined d.codec
  next : i_USER ≤ e.codec.decl_index
  table : ∀ index, i_USER ≤ index →
    getItem index d.codec.index_to_decl = getItem index e.codec.index_to_decl

section Tables

variable {S : Type} [LinearOrder S] [PyText S]

/-- The tables with one more entry. -/
def Codec.set (c : Codec S) (decl : TypeDecl S) (index : Nat) : Codec S :=
  { c with
    index_to_decl := setItem index decl c.index_to_decl
    decl_to_index := setItem decl.key index c.decl_to_index }

theorem Codec.add_decl_new (c : Codec S) (decl : TypeDecl S)
    (h : getItem decl.key c.decl_to_index = none) :
    c.add_decl decl 0 = ({ c.set decl c.decl_index with decl_index := c.decl_index + 1 }, true) := by
  rw [Codec.add_decl, if_pos rfl, h]
  rfl

theorem Codec.add_decl_of_ne (c : Codec S) (decl : TypeDecl S) {index : Nat} (h : index ≠ 0) :
    c.add_decl decl index = (c.set decl index, true) := by
  unfold Codec.add_decl
  rw [if_neg h]
  rfl

theorem Codec.getItem_set (c : Codec S) (decl : TypeDecl S) (index i : Nat) :
    getItem i (c.set decl index).index_to_decl =
      if i = index then some decl else getItem i c.index_to_decl :=
  getItem_setItem _ _ _ _

end Tables

/-- One call of `add_decl` writes nothing, or a packet that brings the decoder along. -/
theorem Follows.add_decl {e : Encoder String} {d : Decoder} (h : Follows e d)
    {s : SampleDef String} (hs : Transmissible e.codec.decl_index s) :
    e.add_decl (.sample s) 0 = .ok e ∨
      ∃ e' bs d', e.add_decl (.sample s) 0 = .ok e' ∧ e'.out = e.out ++ bs ∧ bs ≠ [] ∧
        e'.codec.decl_index = e.codec.decl_index + 1 ∧ Follows e' d' ∧
        ∀ fuel, Consumes (do
          let (index, length) ← decodeHeaderFuel (fuel + 1)
          d.decodeBody index length) bs (none, d') := by
  unfold Encoder.add_decl
  rw [if_pos rfl]
  cases hget : getItem (TypeDecl.sample s).key e.codec.decl_to_index with
  | some index =>
      -- the sample has an index, and nothing is written
      left
      simp only [Codec.add_decl, if_true, hget]
      rfl
  | none =>
      right
      have hadd := e.codec.add_decl_new (.sample s) hget
      have hsamples := h.samples.add_decl s 0
      have hindex : getItem (TypeDecl.sample s).key
          (e.codec.add_decl (.sample s) 0).1.decl_to_index = some e.codec.decl_index := by
        rw [hadd]
        show getItem _ (setItem _ _ _) = _
        rw [getItem_setItem, if_pos rfl]
      -- the definition that is written is read back with its index
      obtain ⟨bs, hbs, hconsumes⟩ := decode_sampleDef hsamples h.predefined hindex hs
      rw [hadd] at hbs hsamples ⊢
      refine ⟨⟨{ e.codec.set (.sample s) e.codec.decl_index with
        decl_index := e.codec.decl_index + 1 }, e.out ++ bs⟩, bs, _, ?_, rfl, ?_, rfl, ?_,
        hconsumes⟩
      · show (SampleDef.encodeDecl _ s >>= _) = _
        rw [hbs]
        rfl
      · rintro rfl
        cases hconsumes 0 []
      · have hne : e.codec.decl_index ≠ 0 := fun h0 => by
          have hnext := h.next
          rw [h0] at hnext
          exact absurd hnext (by decide)
        -- both tables have got the same entry
        refine ⟨hsamples, h.predefined.add_decl s h.next, h.next.trans (Nat.le_succ _), ?_⟩
        intro index hge
        rw [Codec.add_decl_of_ne _ _ hne, Codec.getItem_set]
        show _ = getItem index (e.codec.set _ _).index_to_decl
        rw [Codec.getItem_set, h.table index hge]

/-- A decoder that is fed what the calls of `add_decl` write, after a packet with the version or
not, stops at the end with the encoder's table. -/
theorem feed_table_from {samples : List (SampleDef String)} {e : Encoder String} {d : Decoder}
    (h : Follows e d) (hs : ∀ s ∈ samples, IntentionsFit s.intentions ∧ Readable s.decl)
    (hindex : e.codec.decl_index + samples.length ≤ 2 ^ 32) :
    ∃ e' bs, samples.foldlM (fun e s => e.add_decl (.sample s) 0) e = .ok e' ∧
      e'.out = e.out ++ bs ∧ ∀ start, start = [] ∨ start = versionPacket →
        ∀ fuel, bs.length < fuel →
          ∃ d', feed fuel d (start ++ bs) = (d', .EOFError) ∧ Follows e' d' := by
  induction samples generalizing e d with
  | nil =>
      refine ⟨e, [], rfl, (List.append_nil _).symm, fun start hstart fuel hfuel => ⟨d, ?_, h⟩⟩
      obtain ⟨fuel, rfl⟩ := Nat.exists_eq_succ_of_ne_zero (by omega : fuel ≠ 0)
      -- all that is left is the version
      have hend : d.decode.run (start ++ []) = .error .EOFError := by
        show (decodeHeaderFuel _ >>= _).run _ = _
        rcases hstart with rfl | rfl
        · rw [run_bind, List.append_nil, decodeHeaderFuel_nil]
          rfl
        · rw [run_bind, List.length_append, versionPacket_length, Nat.add_comm 14,
            ← Nat.add_assoc _ 13 1, versionPacket_consumes, decodeHeaderFuel_nil]
          rfl
      rw [feed, hend]
  | cons s samples ih =>
      obtain ⟨hs0, hs⟩ := List.forall_mem_cons.mp hs
      rw [List.length_cons] at hindex
      rw [List.foldlM_cons]
      have htransmissible : Transmissible e.codec.decl_index s := ⟨by omega, hs0⟩
      rcases h.add_decl htransmissible with hold | ⟨e1, bs1, d1, hnew, hout, hne, hnext, hf, hc⟩
      · rw [hold]
        exact ih h hs (by omega)
      · obtain ⟨e', bs, he', hout', hfeed⟩ := ih hf hs (by omega)
        rw [hnew]
        refine ⟨e', bs1 ++ bs, he', by rw [hout', hout, List.append_assoc], ?_⟩
        intro start hstart fuel hfuel
        have hpos := List.length_pos_iff.mpr hne
        rw [List.length_append] at hfuel
        obtain ⟨fuel, rfl⟩ := Nat.exists_eq_succ_of_ne_zero (by omega : fuel ≠ 0)
        obtain ⟨d', hd', hfollows⟩ := hfeed [] (Or.inl rfl) fuel (by omega)
        refine ⟨d', ?_, hfollows⟩
        -- the version, if it is there, is read with the first definition
        have hstep : d.decode.run (start ++ (bs1 ++ bs)) = .ok ((none, d1), bs) := by
          show (decodeHeaderFuel _ >>= _).run _ = _
          rcases hstart with rfl | rfl
          · obtain ⟨n, hn⟩ := Nat.exists_eq_succ_of_ne_zero
              (show ([] ++ (bs1 ++ bs)).length ≠ 0 by
                rw [List.nil_append, List.length_append]
                omega)
            rw [hn, List.nil_append]
            exact hc n bs
          · obtain ⟨n, hn⟩ := Nat.exists_eq_add_of_lt
              (show 1 < (versionPacket ++ (bs1 ++ bs)).length by
                rw [List.length_append, versionPacket_length]
                omega)
            rw [hn, run_bind, Nat.add_assoc, Nat.add_comm 1 (n + 1), versionPacket_consumes]
            exact hc n bs
        rw [feed, hstep]
        exact hd'

theorem predefined_new : Predefined Decoder.new.codec := fun _ _ => rfl

theorem follows_new : Follows ⟨Codec.empty, versionPacket⟩ Decoder.new := by
  refine ⟨fun d => rfl, predefined_new, le_rfl, fun index hge => ?_⟩
  have hkeys : ∀ i ∈ (predefinedTypes (S := String)).map Prod.snd, i < i_USER := by decide
  show getItem index (predefinedTypes.map Prod.swap) = none
  apply getItem_eq_none
  intro hmem
  rw [List.map_map] at hmem
  have hlt := hkeys index hmem
  omega

end LabComm.Python
