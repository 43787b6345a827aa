import LabComm.Java.TypeDefDecode

set_option autoImplicit false

/-! # Metadata packets of the Java decoder

`DecoderChannel.processTypeDef` and `processTypeBinding` pass a packet to the handler that is
registered for it, through `processSample`. If that throws, they skip the packet: because there is
no handler, or because the handler has thrown an `IOException`. `processSample` catches other
exceptions itself.

A packet is read to its end, and no further, exactly if none of this goes against the other
(`metadataTaken_iff`).
-/

namespace LabComm.Java

open Library DecoderChannel

/-! ## Handlers -/

/-- What a call of `decodeAndHandle` throws: before the value is decoded, as for a handler of
another class, and in `handle_TypeDef` or `handle_TypeBinding`. -/
structure HandlerOutcome where
  before : Option HandlerException
  after : Option HandlerException

/-- An entry of `def_registry` for one of the two built-in samples: whether there is a dispatcher,
and the handler. -/
structure BuiltinEntry where
  dispatcher : Bool
  handler : Option HandlerOutcome

/-- The packet is passed to a handler. -/
def Handles (e : Option BuiltinEntry) (h : HandlerOutcome) : Prop := e = some ⟨true, some h⟩

/-! ## Packets -/

/-- `throw`, if there is something to throw. -/
def throwSome : Option HandlerException → ChannelM Unit
  | none => pure ()
  | some e => throw (.handler e)

section Process

variable {α S : Type}

/-- `Dispatcher.decodeAndHandle` of `TypeDef` and of `TypeBinding` -/
def decodeAndHandle (decode : ChannelM α) (h : HandlerOutcome) : ChannelM Unit := do
  throwSome h.before
  let _ ← decode
  throwSome h.after

namespace DecoderChannel

/-- `processSample`, with what `def_registry` has for the tag -/
def processSample (decode : ChannelM α) (e : Option BuiltinEntry) : ChannelM Unit :=
  match e with
  | none => throw .unhandled
  | some e =>
      if !e.dispatcher then throw .unhandled
      else match e.handler with
        | none => throw .unhandled
        | some h => tryCatch (decodeAndHandle decode h) fun ex =>
            if ex.isIOException then throw ex else pure ()

/-- `processTypeDef` -/
def processTypeDef (newString : List UInt8 → S) (empty : S) (_len : Int)
    (e : Option BuiltinEntry) : ChannelM Unit :=
  tryCatch (processSample (TypeDef.decode newString) e) fun _ => do
    let _ ← skipTypeDef newString empty
    pure ()

end DecoderChannel

/-- `TypeBinding.decode` -/
def TypeBinding.decode : ChannelM (Int × Int) := do
  let sampleIndex ← readPacked32
  let typeIndex ← readPacked32
  pure (sampleIndex, typeIndex)

/-- `processTypeBinding` -/
def DecoderChannel.processTypeBinding (len : Int) (e : Option BuiltinEntry) : ChannelM Unit :=
  tryCatch (processSample TypeBinding.decode e) fun _ => do
    let _ ← readTimes len.toNat
    pure ()

end Process

/-- The body of a `TYPE_BINDING`. -/
structure TypeBindingBody where
  sindex : Nat
  tindex : Nat
  sindex_lt : sindex < 2 ^ 32
  tindex_lt : tindex < 2 ^ 32

/-- The bytes of the body. -/
def TypeBindingBody.bytes (b : TypeBindingBody) : List UInt8 := packed32 b.sindex ++ packed32 b.tindex

/-! ## Where the methods stop -/

/-- The bytes of intentions. -/
def PairsLayout : List Intention → List UInt8 → Prop
  | [], c => c = []
  | i :: is, c => ∃ k v d, Counted i.key k ∧ Counted i.value v ∧ PairsLayout is d ∧
      c = k ++ (v ++ d)

/-- What the catch block of `processTypeDef` takes: an index, a number of intentions and these, and
a length with the bytes it counts. -/
def SkippedLayout (c : List UInt8) : Prop :=
  ∃ a b d m is sig, (∃ n, Number n a) ∧ (∃ n, Number n b ∧ is.length = n.toNat) ∧
    PairsLayout is d ∧ (∃ n, Number n m ∧ sig.length = n.toNat) ∧ c = a ++ (b ++ (d ++ (m ++ sig)))

/-- What `TypeDef.decode` takes before it throws: the length of the name is negative, or that of the
signature. -/
def NegativeLayout (c : List UInt8) : Prop :=
  (∃ a b k l, (∃ n, Number n a) ∧ (∃ n, Number n b) ∧ (∃ n, Number n k) ∧
      (∃ n, Number n l ∧ n < 0) ∧ c = a ++ (b ++ (k ++ l))) ∨
    ∃ a b k l m chars, (∃ n, Number n a) ∧ (∃ n, Number n b) ∧ (∃ n, Number n k) ∧
      Counted chars l ∧ (∃ n, Number n m ∧ n < 0) ∧ c = a ++ (b ++ (k ++ (l ++ m)))

/-- What `TypeDef.decode` takes for a definition of any kind. -/
def DecodedLayout (c : List UInt8) : Prop :=
  ∃ index chars sig, TypeDefLayout index chars sig c

/-! ## When a packet is taken -/

/-- A handler does not keep a packet from being taken: nothing was read when an `IOException` was
thrown; or all of the packet was, when the handler returned or threw something else (`decoded`), or
when the decoder threw (`negative`); or what was left when the handler threw an `IOException` is
just what the catch block skips (`skipped`). -/
def PacketTaken (decoded negative skipped : List UInt8 → Prop) (h : HandlerOutcome)
    (c : List UInt8) : Prop :=
  match h.before with
  | some .io => True
  | some .other => False
  | none => negative c ∨
      if h.after = some .io then ∃ c₁ c₂, decoded c₁ ∧ skipped c₂ ∧ c = c₁ ++ c₂ else decoded c

/-- The same of a `TYPE_DEF`. -/
def TypeDefTaken (h : HandlerOutcome) (c : List UInt8) : Prop :=
  PacketTaken DecodedLayout NegativeLayout SkippedLayout h c

/-- A handler does not keep a `TYPE_BINDING` from being taken: it threw an `IOException` before
anything was read, or none after that. -/
def BindingTaken (h : HandlerOutcome) : Prop :=
  h.before = some .io ∨ h.before = none ∧ h.after ≠ some .io

/-! ## The catch block -/

section Skip

variable {S : Type} {newString : List UInt8 → S}

theorem readIntentionsFrom_takes (n : Nat) (name result : S) :
    Takes (readIntentionsFrom newString n name) (.ok result) fun c =>
      ∃ is, is.length = n ∧ nameOf newString name is = result ∧ PairsLayout is c := by
  induction n generalizing name with
  | zero =>
      refine (takes_pure name result).congr fun c => ?_
      constructor
      · rintro ⟨rfl, rfl⟩
        exact ⟨[], rfl, rfl, rfl⟩
      · rintro ⟨is, hlength, hname, hlayout⟩
        obtain rfl := List.length_eq_zero_iff.mp hlength
        exact ⟨hname, hlayout⟩
  | succ n ih =>
      refine (Takes.bind readCounted_takes fun key => Takes.bind readCounted_takes fun val =>
        ih (if key.length = 0 then newString val else name)).congr fun c => ?_
      constructor
      · rintro ⟨key, k, _, hk, ⟨val, v, d, hv, ⟨is, rfl, hname, hd⟩, rfl⟩, rfl⟩
        exact ⟨⟨key, val⟩ :: is, rfl, hname, k, v, d, hk, hv, hd, rfl⟩
      · rintro ⟨_ | ⟨⟨key, val⟩, is⟩, hlength, hname, hlayout⟩
        · cases hlength
        · obtain ⟨k, v, d, hk, hv, hd, rfl⟩ := hlayout
          exact ⟨key, k, _, hk, ⟨val, v, d, hv, ⟨is, Nat.succ_injective hlength, hname, hd⟩, rfl⟩,
            rfl⟩

theorem skipTypeDef_takes (empty : S) (r : Int × S) :
    Takes (skipTypeDef newString empty) (.ok r) fun c =>
      ∃ a b d m is sig, Number r.1 a ∧ (∃ n, Number n b ∧ is.length = n.toNat) ∧
        nameOf newString empty is = r.2 ∧ PairsLayout is d ∧
        (∃ n, Number n m ∧ sig.length = n.toNat) ∧ c = a ++ (b ++ (d ++ (m ++ sig))) := by
  have hintentions (name : S) := Takes.bind readPacked32_takes fun n =>
    @readIntentionsFrom_takes S newString n.toNat empty name
  refine (Takes.bind readPacked32_takes fun idx => Takes.bind hintentions fun name =>
    Takes.bind readPacked32_takes fun len => Takes.bind (readTimes_takes len.toNat) fun _ =>
    takes_pure (idx, name) r).congr fun c => ?_
  constructor
  · rintro ⟨idx, a, _, ha, ⟨name, _, _, ⟨n, b, d, hb, ⟨is, hn, hname, hd⟩, rfl⟩, ⟨len, m, _, hm,
      ⟨sig, _, _, ⟨hlen, rfl⟩, ⟨rfl, rfl⟩, rfl⟩, rfl⟩, rfl⟩, rfl⟩
    refine ⟨a, b, d, m, is, _, ha, ⟨n, hb, hn⟩, hname, hd, ⟨len, hm, hlen⟩, ?_⟩
    rw [List.append_nil, List.append_assoc]
  · rintro ⟨a, b, d, m, is, sig, ha, ⟨n, hb, hn⟩, hname, hd, ⟨len, hm, hlen⟩, rfl⟩
    refine ⟨r.1, a, _, ha, ⟨r.2, b ++ d, _, ⟨n, b, d, hb, ⟨is, hn, hname, hd⟩, rfl⟩, ⟨len, m, _, hm,
      ⟨sig, sig, [], ⟨hlen, rfl⟩, ⟨rfl, rfl⟩, rfl⟩, rfl⟩, rfl⟩, ?_⟩
    rw [List.append_nil, List.append_assoc]

/-- The catch block, without its variables. -/
theorem skip_takes (empty : S) :
    Takes (do let _ ← skipTypeDef newString empty; pure ()) (.ok ()) SkippedLayout := by
  refine (Takes.bind (skipTypeDef_takes empty) fun _ => takes_pure () ()).congr fun c => ?_
  constructor
  · rintro ⟨r, _, _, ⟨a, b, d, m, is, sig, ha, hb, _, hd, hm, rfl⟩, ⟨_, rfl⟩, rfl⟩
    refine ⟨a, b, d, m, is, sig, ⟨_, ha⟩, hb, hd, hm, List.append_nil _⟩
  · rintro ⟨a, b, d, m, is, sig, ⟨n, ha⟩, hb, hd, hm, rfl⟩
    exact ⟨(n, nameOf newString empty is), _, [], ⟨a, b, d, m, is, sig, ha, hb, rfl, hd, hm, rfl⟩,
      ⟨rfl, rfl⟩, (List.append_nil _).symm⟩

end Skip

/-! ## Exceptions -/

/-- An exception is that of a negative size, or an `IOException` at the end of the input. -/
def StopsAtEnd {α : Type} (p : ChannelM α) : Prop :=
  ∀ s e q, p.on s = (.error e, q) →
    e = .decode .negativeArraySize ∨ e.isIOException = true ∧ q = []

section Exceptions

variable {α β : Type}

theorem StopsAtEnd.bind {p : ChannelM α} {f : α → ChannelM β} (hp : StopsAtEnd p)
    (hf : ∀ a, StopsAtEnd (f a)) : StopsAtEnd (p >>= f) := by
  intro s e q h
  rcases on_bind_error.mp h with h | ⟨a, r, _, h⟩
  · exact hp s e q h
  · exact hf a r e q h

theorem StopsAtEnd.pure (a : α) : StopsAtEnd (pure a) := by
  intro s e q h
  cases h

theorem StopsAtEnd.ofParser (p : JavaParser α) :
    StopsAtEnd (Reading.ofParser ChannelException.decode p) := by
  intro s e q h
  obtain ⟨rfl, e', _, rfl⟩ := on_ofParser_error.mp h
  cases e' with
  | eof => exact .inr ⟨rfl, rfl⟩
  | negativeArraySize => exact .inl rfl

theorem stopsAtEnd_readCounted : StopsAtEnd readCounted := by
  refine (StopsAtEnd.ofParser _).bind fun len => ?_
  unfold readArray
  split
  · intro s e q h
    cases h
    exact .inl rfl
  · exact StopsAtEnd.ofParser _

/-- `decodePacked32` throws nothing but an `EOFException`. -/
theorem readPacked32_not_negative :
    Takes readPacked32 (.error (.decode .negativeArraySize)) fun _ => False := by
  intro s q
  refine iff_of_false (fun h => ?_) fun ⟨c, hc, _⟩ => hc
  obtain ⟨_, e, hrun, he⟩ := on_ofParser_error.mp h
  cases he
  rcases varint_split s with ⟨init, last, rest, rfl, hinit, hlast⟩ | hall
  · have hok : decodePacked32.run (init ++ [last] ++ rest) = _ :=
      decodePacked32From_append hinit hlast 0 rest
    rw [hok] at hrun
    cases hrun
  · have heof : decodePacked32.run s = _ := decodePacked32From_high hall 0
    rw [heof] at hrun
    cases hrun

theorem readArray_negative (len : Int) :
    Takes (readArray len) (.error (.decode .negativeArraySize)) fun c => len < 0 ∧ c = [] := by
  unfold readArray
  split
  · rename_i hneg
    intro s q
    rw [on_throw]
    constructor
    · intro h
      cases h
      exact ⟨[], ⟨hneg, rfl⟩, rfl⟩
    · rintro ⟨_, ⟨_, rfl⟩, rfl⟩
      rfl
  · rename_i hneg
    intro s q
    refine iff_of_false (fun h => ?_) fun ⟨c, ⟨hc, _⟩, _⟩ => hneg hc
    obtain ⟨_, e, hrun, he⟩ := on_ofParser_error.mp h
    cases he
    change (if len.toNat ≤ s.length then Except.ok (s.take len.toNat, s.drop len.toNat)
      else .error DecodeException.eof) = _ at hrun
    split at hrun <;> cases hrun

theorem readCounted_negative : Takes readCounted (.error (.decode .negativeArraySize)) fun c =>
    ∃ n, Number n c ∧ n < 0 := by
  refine (Takes.bind_error readPacked32_takes readPacked32_not_negative
    readArray_negative).congr fun c => ?_
  constructor
  · rintro (h | ⟨n, l, _, hl, ⟨hneg, rfl⟩, rfl⟩)
    · exact h.elim
    · rw [List.append_nil]
      exact ⟨n, hl, hneg⟩
  · rintro ⟨n, hl, hneg⟩
    exact .inr ⟨n, c, [], hl, ⟨hneg, rfl⟩, (List.append_nil c).symm⟩

theorem pure_not_negative (a : α) :
    Takes (pure a : ChannelM α) (.error (.decode .negativeArraySize)) fun _ => False := by
  intro s q
  refine iff_of_false (fun h => ?_) fun ⟨c, hc, _⟩ => hc
  cases h

end Exceptions

section Decode

variable {S : Type} {newString : List UInt8 → S}

theorem decode_negative : Takes (TypeDef.decode newString)
    (.error (.decode .negativeArraySize)) NegativeLayout := by
  rw [decode_eq]
  refine (Takes.bind_error readPacked32_takes readPacked32_not_negative fun index =>
    Takes.bind_error readPacked32_takes readPacked32_not_negative fun _ =>
    Takes.bind_error readPacked32_takes readPacked32_not_negative fun _ =>
    Takes.bind_error readCounted_takes readCounted_negative fun chars =>
    Takes.bind_error readCounted_takes readCounted_negative fun sig =>
    pure_not_negative _).congr fun c => ?_
  constructor
  · rintro (h | ⟨n, a, _, ha, h | ⟨n', b, _, hb, h | ⟨n'', k, _, hk, h, rfl⟩, rfl⟩, rfl⟩)
    · exact h.elim
    · exact h.elim
    · exact h.elim
    · rcases h with hl | ⟨chars, l, _, hl, hm | ⟨_, _, _, _, h, _⟩, rfl⟩
      · exact .inl ⟨a, b, k, _, ⟨n, ha⟩, ⟨n', hb⟩, ⟨n'', hk⟩, hl, rfl⟩
      · exact .inr ⟨a, b, k, l, _, chars, ⟨n, ha⟩, ⟨n', hb⟩, ⟨n'', hk⟩, hl, hm, rfl⟩
      · exact h.elim
  · rintro (⟨a, b, k, l, ⟨n, ha⟩, ⟨n', hb⟩, ⟨n'', hk⟩, hl, rfl⟩ |
      ⟨a, b, k, l, m, chars, ⟨n, ha⟩, ⟨n', hb⟩, ⟨n'', hk⟩, hl, hm, rfl⟩)
    · exact .inr ⟨n, a, _, ha, .inr ⟨n', b, _, hb, .inr ⟨n'', k, _, hk, .inl hl, rfl⟩, rfl⟩, rfl⟩
    · exact .inr ⟨n, a, _, ha, .inr ⟨n', b, _, hb, .inr ⟨n'', k, _, hk,
        .inr ⟨chars, l, m, hl, .inl hm, rfl⟩, rfl⟩, rfl⟩, rfl⟩

theorem decode_stopsAtEnd : StopsAtEnd (TypeDef.decode newString) := by
  rw [decode_eq]
  exact (StopsAtEnd.ofParser _).bind fun _ => (StopsAtEnd.ofParser _).bind fun _ =>
    (StopsAtEnd.ofParser _).bind fun _ => stopsAtEnd_readCounted.bind fun _ =>
    stopsAtEnd_readCounted.bind fun _ => StopsAtEnd.pure _

end Decode

/-! ## Packets and handlers -/

section Packets

variable {α : Type} {decode : ChannelM α} {fallback : ChannelM Unit} {e : Option BuiltinEntry}
  {h : HandlerOutcome}

/-- Without a handler, nothing is read and an `IOException` is thrown. -/
theorem processSample_unhandled (hnone : ∀ h, ¬ Handles e h) (s : List UInt8) :
    (processSample decode e).on s = (.error .unhandled, s) := by
  unfold processSample
  cases e with
  | none => rfl
  | some e =>
      obtain ⟨dispatcher, handler⟩ := e
      cases dispatcher with
      | false => rfl
      | true =>
          cases handler with
          | none => rfl
          | some h => exact absurd rfl (hnone h)

theorem processSample_handles (hhandles : Handles e h) (s : List UInt8) :
    (processSample decode e).on s =
      match (decodeAndHandle decode h).on s with
      | (.ok a, q) => (.ok a, q)
      | (.error ex, q) => if ex.isIOException then (.error ex, q) else (.ok (), q) := by
  obtain rfl := hhandles
  show (tryCatch (decodeAndHandle decode h) fun ex =>
    if ex.isIOException then throw ex else pure () : ChannelM Unit).on s = _
  rw [on_tryCatch]
  rcases (decodeAndHandle decode h).on s with ⟨ex | _, q⟩
  · show (if ex.isIOException then throw ex else pure () : ChannelM Unit).on q = _
    split <;> simp [*]
  · rfl

/-- What a handler does to the input, after the value was decoded. -/
theorem decodeAndHandle_on (hbefore : h.before = none) (s : List UInt8) :
    (decodeAndHandle decode h).on s =
      match decode.on s with
      | (.ok _, q) => (throwSome h.after).on q
      | (.error ex, q) => (.error ex, q) := by
  rw [decodeAndHandle, hbefore]
  show (decode >>= fun _ => throwSome h.after).on s = _
  rw [on_bind]
  rcases decode.on s with ⟨_ | _, _⟩ <;> rfl

/-- The catch block follows an `IOException` that was rethrown. -/
def caught (fallback : ChannelM Unit) :
    Except ChannelException Unit × List UInt8 → Except ChannelException Unit × List UInt8
  | (.ok _, r) => (.ok (), r)
  | (.error ex, r) => if ex.isIOException then fallback.on r else (.ok (), r)

theorem process_on (hhandles : Handles e h) (s : List UInt8) :
    (tryCatch (processSample decode e) fun _ => fallback : ChannelM Unit).on s =
      caught fallback ((decodeAndHandle decode h).on s) := by
  rw [on_tryCatch, processSample_handles hhandles]
  rcases (decodeAndHandle decode h).on s with ⟨ex | _, r⟩
  · cases hio : ex.isIOException <;> simp [caught, hio]
  · rfl

theorem caught_throwSome {a : Option HandlerException} (h : a ≠ some .io) (r : List UInt8) :
    caught fallback ((throwSome a).on r) = (.ok (), r) := by
  rcases a with _ | _ | _
  · rfl
  · exact absurd rfl h
  · rfl

variable {decoded negative skipped : List UInt8 → Prop}
  (hdecoded : ∀ s q, (∃ a, decode.on s = (.ok a, q)) ↔ ∃ c, decoded c ∧ s = c ++ q)
  (hnegative : Takes decode (.error (.decode .negativeArraySize)) negative)
  (hstops : StopsAtEnd decode) (hskipped : Takes fallback (.ok ()) skipped)

include hdecoded hnegative hstops hskipped

/-- A handler that gets a value, if one can be decoded. -/
theorem taken_decode_iff (hhandles : Handles e h) (hbefore : h.before = none) (hnil : ¬ skipped [])
    (c q : List UInt8) :
    (tryCatch (processSample decode e) fun _ => fallback : ChannelM Unit).on (c ++ q) = (.ok (), q) ↔
      negative c ∨ if h.after = some .io then ∃ c₁ c₂, decoded c₁ ∧ skipped c₂ ∧ c = c₁ ++ c₂
        else decoded c := by
  rw [process_on hhandles, decodeAndHandle_on hbefore]
  rcases hrun : decode.on (c ++ q) with ⟨ex | a, r⟩
  · -- nothing was decoded, so that only an exception of the decoder can be to blame
    have hundecoded : ∀ c₁ c₂, decoded c₁ → c ≠ c₁ ++ c₂ := by
      rintro c₁ c₂ hc₁ rfl
      obtain ⟨a, ha⟩ := (hdecoded (c₁ ++ (c₂ ++ q)) _).mpr ⟨c₁, hc₁, rfl⟩
      rw [List.append_assoc, ha] at hrun
      cases hrun
    have honly : (negative c ∨ if h.after = some .io then
        ∃ c₁ c₂, decoded c₁ ∧ skipped c₂ ∧ c = c₁ ++ c₂ else decoded c) ↔ negative c := by
      refine or_iff_left ?_
      split
      · rintro ⟨c₁, c₂, hc₁, _, heq⟩
        exact hundecoded c₁ c₂ hc₁ heq
      · exact fun hc => hundecoded c [] hc (List.append_nil c).symm
    rw [honly, ← hnegative.on_append_iff c q, hrun]
    rcases hstops _ _ _ hrun with rfl | ⟨hio, rfl⟩
    · simp [caught, ChannelException.isIOException]
    · -- the catch block finds nothing to skip
      have hfails : fallback.on [] ≠ (.ok (), q) := by
        intro hok
        obtain ⟨c₂, hc₂, heq⟩ := (hskipped [] q).mp hok
        rw [List.nil_eq, List.append_eq_nil_iff] at heq
        rw [heq.1] at hc₂
        exact hnil hc₂
      refine iff_of_false ?_ ?_
      · show caught fallback (.error ex, []) ≠ _
        rwa [caught, if_pos hio]
      · intro hneg
        cases hneg
        cases hio
  · -- a value was decoded, so that the handler decides
    have hnever : ¬ negative c := by
      rw [← hnegative.on_append_iff c q, hrun]
      intro hneg
      cases hneg
    rw [or_iff_right hnever]
    by_cases hafter : h.after = some .io
    · rw [if_pos hafter, hafter]
      show fallback.on r = _ ↔ _
      rw [hskipped]
      -- an `IOException` of the handler: the rest is skipped as a packet would be
      constructor
      · rintro ⟨c₂, hc₂, rfl⟩
        obtain ⟨c₁, hc₁, heq⟩ := (hdecoded _ _).mp ⟨a, hrun⟩
        rw [← List.append_assoc] at heq
        exact ⟨c₁, c₂, hc₁, hc₂, List.append_cancel_right heq⟩
      · rintro ⟨c₁, c₂, hc₁, hc₂, rfl⟩
        obtain ⟨a', ha'⟩ := (hdecoded (c₁ ++ (c₂ ++ q)) _).mpr ⟨c₁, hc₁, rfl⟩
        rw [List.append_assoc, ha'] at hrun
        cases hrun
        exact ⟨c₂, hc₂, rfl⟩
    · rw [if_neg hafter]
      show caught fallback ((throwSome h.after).on r) = _ ↔ _
      rw [caught_throwSome hafter, Prod.mk.injEq, and_iff_right rfl]
      constructor
      · rintro rfl
        obtain ⟨c₁, hc₁, heq⟩ := (hdecoded _ _).mp ⟨a, hrun⟩
        rwa [List.append_cancel_right heq]
      · intro hc
        obtain ⟨a', ha'⟩ := (hdecoded (c ++ q) q).mpr ⟨c, hc, rfl⟩
        rw [ha'] at hrun
        cases hrun
        rfl

/-- **A packet is taken** if the catch block can take it, and no handler keeps it from being. -/
theorem taken_iff {c : List UInt8} (hc : skipped c) (hnil : ¬ skipped []) (q : List UInt8) :
    (tryCatch (processSample decode e) fun _ => fallback : ChannelM Unit).on (c ++ q) = (.ok (), q) ↔
      ∀ h, Handles e h → PacketTaken decoded negative skipped h c := by
  by_cases hsome : ∃ h, Handles e h
  · obtain ⟨h, hhandles⟩ := hsome
    have hone : (∀ h, Handles e h → PacketTaken decoded negative skipped h c) ↔
        PacketTaken decoded negative skipped h c := by
      constructor
      · exact fun hall => hall h hhandles
      · intro htaken h' hhandles'
        rw [hhandles] at hhandles'
        cases hhandles'
        exact htaken
    rw [hone, PacketTaken]
    rcases hbefore : h.before with _ | _ | _
    · exact taken_decode_iff hdecoded hnegative hstops hskipped hhandles hbefore hnil c q
    · -- nothing was read
      rw [process_on hhandles, decodeAndHandle, hbefore]
      exact iff_of_true (hskipped.on_append hc q) trivial
    · rw [process_on hhandles, decodeAndHandle, hbefore]
      refine iff_of_false (fun hread => hnil ?_) id
      have hempty : c ++ q = q := congrArg Prod.snd hread
      rw [List.append_left_eq_self] at hempty
      rwa [hempty] at hc
  · rw [not_exists] at hsome
    rw [on_tryCatch, processSample_unhandled hsome]
    exact iff_of_true (hskipped.on_append hc q) fun h hhandles => absurd hhandles (hsome h)

end Packets

/-! ## Type definitions -/

section TypeDefs

variable {S : Type} {newString : List UInt8 → S}

theorem decode_decoded (s q : List UInt8) : (∃ td, (TypeDef.decode newString).on s = (.ok td, q)) ↔
    ∃ c, DecodedLayout c ∧ s = c ++ q := by
  constructor
  · rintro ⟨td, htd⟩
    obtain ⟨c, ⟨chars, _, hlayout⟩, rfl⟩ := (decode_takes td s q).mp htd
    exact ⟨c, ⟨td.index, chars, td.signature, hlayout⟩, rfl⟩
  · rintro ⟨c, ⟨index, chars, sig, hlayout⟩, rfl⟩
    exact ⟨⟨index, newString chars, sig⟩, (decode_takes _).on_append ⟨chars, rfl, hlayout⟩ q⟩

theorem skippedLayout_bytes (p : TypeDefBody) : SkippedLayout p.bytes := by
  refine ((@skip_takes Unit (fun _ => ()) ()).on_append_iff p.bytes []).mp ?_
  rw [on_bind, p.skip_on]
  rfl

theorem not_skippedLayout_nil : ¬ SkippedLayout [] := by
  rintro ⟨a, _, _, _, _, _, ⟨n, ha⟩, _, _, _, heq⟩
  have hends := number_ne_nil ha
  exact hends (List.append_eq_nil_iff.mp heq.symm).1

/-- One intention with an empty key is what `TypeDef.decode` expects, so that only an `IOException`
of the handler can go wrong. -/
theorem typeDefTaken_of_readsAsName {p : TypeDefBody} (h : ReadsAsName p.intentions)
    {o : HandlerOutcome} (hbefore : o.before = none) (hafter : o.after ≠ some .io) :
    TypeDefTaken o p.bytes := by
  rw [TypeDefTaken, PacketTaken, hbefore]
  refine .inr ?_
  rw [if_neg hafter]
  exact ⟨_, _, _, layout_of_readsAsName h⟩

theorem processTypeDef_on_iff (e : Option BuiltinEntry) (empty : S) (len : Int) (p : TypeDefBody)
    (q : List UInt8) : (processTypeDef newString empty len e).on (p.bytes ++ q) = (.ok (), q) ↔
      ∀ h, Handles e h → TypeDefTaken h p.bytes :=
  taken_iff decode_decoded decode_negative decode_stopsAtEnd (skip_takes empty)
    (skippedLayout_bytes p) not_skippedLayout_nil q

end TypeDefs

/-! ## Type bindings -/

section TypeBindings

/-- Two numbers. -/
def BindingLayout (c : List UInt8) : Prop :=
  ∃ m n a b, Number m a ∧ Number n b ∧ c = a ++ b

theorem typeBinding_takes (r : Int × Int) : Takes TypeBinding.decode (.ok r) fun c =>
    ∃ a b, Number r.1 a ∧ Number r.2 b ∧ c = a ++ b := by
  refine (Takes.bind readPacked32_takes fun m => Takes.bind readPacked32_takes fun n =>
    takes_pure (m, n) r).congr fun c => ?_
  constructor
  · rintro ⟨m, a, _, ha, ⟨n, b, _, hb, ⟨rfl, rfl⟩, rfl⟩, rfl⟩
    rw [List.append_nil]
    exact ⟨a, b, ha, hb, rfl⟩
  · rintro ⟨a, b, ha, hb, rfl⟩
    refine ⟨r.1, a, b, ha, ⟨r.2, b, [], hb, ⟨rfl, rfl⟩, ?_⟩, rfl⟩
    rw [List.append_nil]

theorem typeBinding_decoded (s q : List UInt8) : (∃ r, TypeBinding.decode.on s = (.ok r, q)) ↔
    ∃ c, BindingLayout c ∧ s = c ++ q := by
  constructor
  · rintro ⟨r, hr⟩
    obtain ⟨c, ⟨a, b, ha, hb, rfl⟩, rfl⟩ := (typeBinding_takes r s q).mp hr
    exact ⟨_, ⟨r.1, r.2, a, b, ha, hb, rfl⟩, rfl⟩
  · rintro ⟨c, ⟨m, n, a, b, ha, hb, rfl⟩, rfl⟩
    exact ⟨(m, n), (typeBinding_takes (m, n)).on_append ⟨a, b, ha, hb, rfl⟩ q⟩

theorem typeBinding_negative : Takes TypeBinding.decode (.error (.decode .negativeArraySize))
    fun _ => False := by
  refine (Takes.bind_error readPacked32_takes readPacked32_not_negative fun m =>
    Takes.bind_error readPacked32_takes readPacked32_not_negative fun n =>
    pure_not_negative (m, n)).congr fun c => ?_
  constructor
  · rintro (h | ⟨_, _, _, _, h | ⟨_, _, _, _, h, _⟩, _⟩)
    · exact h
    · exact h
    · exact h
  · exact False.elim

theorem typeBinding_stopsAtEnd : StopsAtEnd TypeBinding.decode :=
  (StopsAtEnd.ofParser _).bind fun _ => (StopsAtEnd.ofParser _).bind fun _ => StopsAtEnd.pure _

theorem skipBytes_takes (len : Nat) : Takes (do let _ ← readTimes len; pure () : ChannelM Unit)
    (.ok ()) (fun c => c.length = len) := by
  refine (Takes.bind (readTimes_takes len) fun _ => takes_pure () ()).congr fun c => ?_
  constructor
  · rintro ⟨bs, _, _, ⟨hlength, rfl⟩, ⟨_, rfl⟩, rfl⟩
    rw [List.append_nil]
    exact hlength
  · exact fun hlength => ⟨c, c, [], ⟨hlength, rfl⟩, ⟨rfl, rfl⟩, (List.append_nil c).symm⟩

theorem bindingLayout_bytes (b : TypeBindingBody) : BindingLayout b.bytes :=
  ⟨_, _, _, _, number_packed32 b.sindex_lt, number_packed32 b.tindex_lt, rfl⟩

theorem bindingTaken_iff (b : TypeBindingBody) (h : HandlerOutcome) :
    PacketTaken BindingLayout (fun _ => False) (fun c => c.length = b.bytes.length) h b.bytes ↔
      BindingTaken h := by
  rw [PacketTaken, BindingTaken]
  rcases hbefore : h.before with _ | _ | _
  · by_cases hafter : h.after = some .io
    · -- nothing is left of the packet, and the catch block skips as much again
      rw [if_pos hafter, hafter]
      refine iff_of_false ?_ (by simp)
      rintro (h | ⟨c₁, c₂, ⟨_, _, a, _, ha, _, rfl⟩, hlength, heq⟩)
      · exact h
      · have hall := congrArg List.length heq
        have hpos := List.length_pos_of_ne_nil (number_ne_nil ha)
        simp only [List.length_append] at hall
        omega
    · rw [if_neg hafter]
      exact iff_of_true (.inr (bindingLayout_bytes b)) (.inr ⟨rfl, hafter⟩)
  · simp
  · simp

theorem processTypeBinding_on_iff (e : Option BuiltinEntry) (b : TypeBindingBody) (q : List UInt8) :
    (processTypeBinding b.bytes.length e).on (b.bytes ++ q) = (.ok (), q) ↔
      ∀ h, Handles e h → BindingTaken h := by
  have hnil : ¬ ([] : List UInt8).length = b.bytes.length := by
    have hpos := packed32_length_pos b.sindex
    rw [TypeBindingBody.bytes, List.length_append, List.length_nil]
    omega
  have htaken := taken_iff typeBinding_decoded typeBinding_negative typeBinding_stopsAtEnd
    (skipBytes_takes b.bytes.length) (e := e) (c := b.bytes) rfl hnil q
  refine htaken.trans (forall_congr' fun h => imp_congr_right fun _ => ?_)
  exact bindingTaken_iff b h

end TypeBindings

/-- **Metadata packets are taken** to their ends exactly if there is no handler that keeps them from
being. -/
theorem metadataTaken_iff {S : Type} (newString : List UInt8 → S) (empty : S)
    (e : Option BuiltinEntry) (q : List UInt8) :
    (∀ p : TypeDefBody,
      (processTypeDef newString empty p.bytes.length e).on (p.bytes ++ q) = (.ok (), q) ↔
        ∀ h, Handles e h → TypeDefTaken h p.bytes) ∧
      ∀ b : TypeBindingBody,
        (processTypeBinding b.bytes.length e).on (b.bytes ++ q) = (.ok (), q) ↔
          ∀ h, Handles e h → BindingTaken h :=
  ⟨fun p => processTypeDef_on_iff e empty _ p q, fun b => processTypeBinding_on_iff e b q⟩

/-- A handler that throws an `IOException` after the definition was read. -/
def failingEntry : BuiltinEntry := ⟨true, some ⟨none, some .io⟩⟩

/-- The catch block reads a second packet where there was one. -/
theorem not_taken_failing :
    (processTypeDef replaceBytes "" namedBody.bytes.length (some failingEntry)).on
      (namedBody.bytes ++ namedBody.bytes) ≠ (.ok (), namedBody.bytes) := by
  intro h
  have hleft := congrArg Prod.snd h
  revert hleft
  decide +kernel

end LabComm.Java
