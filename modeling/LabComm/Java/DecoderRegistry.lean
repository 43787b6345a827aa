import LabComm.Compiler.Specification
import LabComm.Library.Dictionary
import LabComm.Format.Packet

set_option autoImplicit false

/-! # The registry of the Java decoder

`DecoderRegistry.java`. An `Entry` is an object that both maps refer to: it is found by the class
of its dispatcher when that was added first, and by the index of its definition as soon as that
has been received. The entry of a definition that was received first is never put into the map by
classes.

Whatever comes first, an index leads to the dispatcher with the name and the signature of its
definition, and to the handler that was given last for it (`get_order_independent`).
-/

namespace LabComm.Java

open Library Compiler

/-! ## Entries -/

/-- A `Class`: that of one of the two built-in samples, or of a generated one. -/
inductive SampleClass where
  | typeDef
  | typeBinding
  | user (id : Nat)
  deriving DecidableEq

/-- What a registry asks a `SampleDispatcher` for; a signature may be `null`. -/
structure Dispatcher where
  sampleClass : SampleClass
  name : String
  signature : Option (List UInt8)
  deriving DecidableEq

/-- What is thrown. -/
inductive RegistryException where
  | io
  | nullPointer
  deriving DecidableEq

/-- `DecoderRegistry.Entry`, with handlers of type `H`. -/
structure Entry (H : Type) where
  dispatcher : Option Dispatcher
  handler : Option H
  index : Int
  name : String
  signature : Option (List UInt8)

variable {H : Type}

/-- `new Entry(dispatcher, handler)` -/
def Entry.ofDispatcher (dispatcher : Dispatcher) (handler : Option H) : Entry H :=
  ⟨some dispatcher, handler, 0, dispatcher.name, dispatcher.signature⟩

/-- `new Entry(index, name, signature)` -/
def Entry.ofDefinition (index : Int) (name : String) (signature : Option (List UInt8)) : Entry H :=
  ⟨none, none, index, name, signature⟩

/-- `setIndex` -/
def Entry.setIndex (e : Entry H) (index : Int) : Except RegistryException (Entry H) :=
  if e.index ≠ 0 ∧ e.index ≠ index then .error .io else .ok { e with index := index }

/-- `matchName` -/
def Entry.matchName (e : Entry H) (name : String) : Bool := e.name = name

/-- `matchSignature` -/
def Entry.matchSignature (e : Entry H) (signature : Option (List UInt8)) :
    Except RegistryException Bool :=
  match e.signature, signature with
  | some s, some t => .ok (s = t)
  | _, _ => .error .nullPointer

/-- `match` -/
def Entry.matches (e : Entry H) (name : String) (signature : Option (List UInt8)) :
    Except RegistryException Bool :=
  if e.matchName name then e.matchSignature signature else .ok false

/-- `check` -/
def Entry.check (e : Entry H) (name : String) (signature : Option (List UInt8)) :
    Except RegistryException Unit :=
  if !e.matchName name then
    .error .io
  else do
    let same ← e.matchSignature signature
    if same then pure () else throw .io

/-! ## The registry -/

/-- The entries that were made, in order, and the maps to them. -/
structure DecoderRegistry (H : Type) where
  entries : List (Entry H)
  byClass : List (SampleClass × Nat)
  byIndex : List (Int × Nat)

/-- `new DecoderRegistry()` -/
def DecoderRegistry.new : DecoderRegistry H := ⟨[], [], []⟩

/-- `for (Entry e2 : es) { if (e2.match(name, signature)) … break; }` -/
def DecoderRegistry.find (r : DecoderRegistry H) (name : String)
    (signature : Option (List UInt8)) : List Nat → Except RegistryException (Option Nat)
  | [] => .ok none
  | e :: es =>
      match r.entries[e]? with
      | none => .error .nullPointer
      | some entry => do
          let found ← entry.matches name signature
          if found then pure (some e) else r.find name signature es

/-- A new entry, which gets the next number. -/
def DecoderRegistry.alloc (r : DecoderRegistry H) (entry : Entry H) : DecoderRegistry H :=
  { r with entries := r.entries ++ [entry] }

/-- A change of an entry. -/
def DecoderRegistry.modify (r : DecoderRegistry H) (e : Nat) (f : Entry H → Entry H) :
    DecoderRegistry H :=
  { r with entries := r.entries.modify e f }

/-- The branches of `add` for the two built-in samples. -/
def DecoderRegistry.addBuiltin (r : DecoderRegistry H) (dispatcher : Dispatcher)
    (handler : Option H) (tag : Int) : Except RegistryException (DecoderRegistry H) := do
  let entry ← (Entry.ofDispatcher dispatcher handler).setIndex tag
  let e := r.entries.length
  pure { r.alloc entry with
    byClass := setItem dispatcher.sampleClass e r.byClass
    byIndex := setItem tag e r.byIndex }

/-- The branch of `add` for other samples; `h` is the order of `byIndex.values()`. -/
def DecoderRegistry.addUser (h : IterationOrder Nat) (r : DecoderRegistry H)
    (dispatcher : Dispatcher) (handler : Option H) :
    Except RegistryException (DecoderRegistry H) :=
  match getItem dispatcher.sampleClass r.byClass with
  | some e =>
      match r.entries[e]? with
      | none => .error .nullPointer
      | some entry => do
          entry.check dispatcher.name dispatcher.signature
          pure (r.modify e fun entry => { entry with handler := handler })
  | none => do
      match ← r.find dispatcher.name dispatcher.signature (h.order (r.byIndex.map Prod.snd)) with
      | some e =>
          pure (r.modify e fun entry =>
            { entry with dispatcher := some dispatcher, handler := handler })
      | none =>
          let e := r.entries.length
          pure { r.alloc (Entry.ofDispatcher dispatcher handler) with
            byClass := setItem dispatcher.sampleClass e r.byClass }

/-- `add(dispatcher, handler)` -/
def DecoderRegistry.add (h : IterationOrder Nat) (r : DecoderRegistry H)
    (dispatcher : Dispatcher) (handler : Option H) :
    Except RegistryException (DecoderRegistry H) :=
  match dispatcher.sampleClass with
  | .typeDef => r.addBuiltin dispatcher handler LABCOMM_TYPE_DEF
  | .typeBinding => r.addBuiltin dispatcher handler LABCOMM_TYPE_BINDING
  | .user _ => r.addUser h dispatcher handler

/-- `add(index, name, signature)`; `h` is the order of `byClass.values()`. -/
def DecoderRegistry.addDefinition (h : IterationOrder Nat) (r : DecoderRegistry H) (index : Int)
    (name : String) (signature : Option (List UInt8)) :
    Except RegistryException (DecoderRegistry H) :=
  match getItem index r.byIndex with
  | some e =>
      match r.entries[e]? with
      | none => .error .nullPointer
      | some entry => do
          entry.check name signature
          pure r
  | none => do
      match ← r.find name signature (h.order (r.byClass.map Prod.snd)) with
      | some e =>
          match r.entries[e]? with
          | none => .error .nullPointer
          | some entry => do
              let entry ← entry.setIndex index
              pure { r.modify e fun _ => entry with byIndex := setItem index e r.byIndex }
      | none =>
          let e := r.entries.length
          pure { r.alloc (Entry.ofDefinition index name signature) with
            byIndex := setItem index e r.byIndex }

/-- `get` -/
def DecoderRegistry.get (r : DecoderRegistry H) (index : Int) : Option (Entry H) :=
  (getItem index r.byIndex).bind fun e => r.entries[e]?

/-! ## Runs -/

/-- A call of one of the two `add`. -/
inductive RegistryCall (H : Type) where
  | dispatcher (dispatcher : Dispatcher) (handler : Option H)
  | definition (index : Int) (name : String) (signature : List UInt8)

def RegistryCall.run (h : IterationOrder Nat) (r : DecoderRegistry H) :
    RegistryCall H → Except RegistryException (DecoderRegistry H)
  | dispatcher d handler => r.add h d handler
  | definition index name signature => r.addDefinition h index name (some signature)

/-- The calls, one after the other; `h n` is the order in which the map is gone through that the
`n`-th of them searches. -/
def runCalls (h : Nat → IterationOrder Nat) (r : DecoderRegistry H) :
    List (RegistryCall H) → Except RegistryException (DecoderRegistry H)
  | [] => .ok r
  | call :: calls => do
      let r ← call.run (h 0) r
      runCalls (fun n => h (n + 1)) r calls

/-! ## What the calls say -/

/-- What entries are told apart by. -/
abbrev Content := String × Option (List UInt8)

def Dispatcher.content (d : Dispatcher) : Content := (d.name, d.signature)

def Entry.content (e : Entry H) : Content := (e.name, e.signature)

/-- The index of a built-in sample. -/
def builtinIndex : SampleClass → Option Int
  | .typeDef => some LABCOMM_TYPE_DEF
  | .typeBinding => some LABCOMM_TYPE_BINDING
  | .user _ => none

/-- The index that a call gives to some content. -/
def RegistryCall.defines : RegistryCall H → Option (Int × Content)
  | dispatcher d _ => (builtinIndex d.sampleClass).map fun tag => (tag, d.content)
  | definition index name signature => some (index, (name, some signature))

def RegistryCall.content : RegistryCall H → Content
  | dispatcher d _ => d.content
  | definition _ name signature => (name, some signature)

/-- A call with the dispatcher is made. -/
def Adds (calls : List (RegistryCall H)) (d : Dispatcher) : Prop :=
  ∃ handler, .dispatcher d handler ∈ calls

/-- The content is given the index. -/
def Defines (calls : List (RegistryCall H)) (index : Int) (c : Content) : Prop :=
  ∃ call ∈ calls, call.defines = some (index, c)

/-- The handler that a dispatcher was given last, if it was added at all. -/
def lastHandler (calls : List (RegistryCall H)) (d : Dispatcher) : Option (Option H) :=
  calls.foldl (fun old call => match call with
    | .dispatcher d' handler => if d' = d then some handler else old
    | .definition .. => old) none

/-- The dispatchers have classes, and names and signatures, of their own, those of the built-in
samples have names that nothing else has, and each index has one definition and each definition
one index. -/
structure Consistent (calls : List (RegistryCall H)) : Prop where
  classes : ∀ d d', Adds calls d → Adds calls d' → d.sampleClass = d'.sampleClass → d = d'
  contents : ∀ d d', Adds calls d → Adds calls d' → d.content = d'.content → d = d'
  signature : ∀ d, Adds calls d → builtinIndex d.sampleClass = none → d.signature.isSome = true
  builtin : ∀ d, Adds calls d → (builtinIndex d.sampleClass).isSome = true →
    (∀ d', Adds calls d' → d'.name = d.name → d' = d) ∧
      ∀ index signature, ¬ Defines calls index (d.name, some signature)
  definition : ∀ index c c', Defines calls index c → Defines calls index c' → c = c'
  index : ∀ index index' c, Defines calls index c → Defines calls index' c → index = index'

theorem lastHandler_append (calls : List (RegistryCall H)) (call : RegistryCall H)
    (d : Dispatcher) :
    lastHandler (calls ++ [call]) d = match call with
      | .dispatcher d' handler => if d' = d then some handler else lastHandler calls d
      | .definition .. => lastHandler calls d := by
  simp [lastHandler, List.foldl_append]

theorem adds_append {calls : List (RegistryCall H)} {call : RegistryCall H} {d : Dispatcher} :
    Adds (calls ++ [call]) d ↔ Adds calls d ∨ ∃ handler, call = .dispatcher d handler := by
  unfold Adds
  simp only [List.mem_append, List.mem_singleton, exists_or]
  exact or_congr Iff.rfl (exists_congr fun handler => eq_comm)

theorem defines_append {calls : List (RegistryCall H)} {call : RegistryCall H} {index : Int}
    {c : Content} :
    Defines (calls ++ [call]) index c ↔ Defines calls index c ∨ call.defines = some (index, c) := by
  unfold Defines
  simp [or_and_right, exists_or]

/-- A dispatcher that was added has a handler, even if it is `null`. -/
theorem adds_iff_lastHandler (calls : List (RegistryCall H)) (d : Dispatcher) :
    Adds calls d ↔ lastHandler calls d ≠ none := by
  induction calls using List.reverseRecOn with
  | nil => simp [Adds, lastHandler]
  | append_singleton calls call ih =>
      rw [adds_append, lastHandler_append, ih]
      cases call with
      | definition index name signature => simp
      | dispatcher d' handler =>
          by_cases hd : d' = d
          · simp [hd]
          · simp [hd]

/-- The calls before one of consistent ones are consistent. -/
theorem Consistent.of_append {calls rest : List (RegistryCall H)}
    (hc : Consistent (calls ++ rest)) : Consistent calls := by
  have hadds : ∀ d, Adds calls d → Adds (calls ++ rest) d :=
    fun d ⟨handler, hmem⟩ => ⟨handler, List.mem_append_left rest hmem⟩
  have hdefines : ∀ index c, Defines calls index c → Defines (calls ++ rest) index c :=
    fun index c ⟨call, hmem, hdef⟩ => ⟨call, List.mem_append_left rest hmem, hdef⟩
  exact
    { classes := fun d d' h h' => hc.classes d d' (hadds d h) (hadds d' h')
      contents := fun d d' h h' => hc.contents d d' (hadds d h) (hadds d' h')
      signature := fun d h => hc.signature d (hadds d h)
      builtin := fun d h hb =>
        ⟨fun d' h' => (hc.builtin d (hadds d h) hb).1 d' (hadds d' h'),
          fun index signature h' =>
            (hc.builtin d (hadds d h) hb).2 index signature (hdefines _ _ h')⟩
      definition := fun index c c' h h' =>
        hc.definition index c c' (hdefines _ _ h) (hdefines _ _ h')
      index := fun index index' c h h' =>
        hc.index index index' c (hdefines _ _ h) (hdefines _ _ h') }

/-- The entry has the dispatcher with its name and signature, if that was added, and the handler
that it was given last. -/
structure Current (calls : List (RegistryCall H)) (e : Entry H) : Prop where
  added : ∀ d, Adds calls d → d.content = e.content →
    e.dispatcher = some d ∧ lastHandler calls d = some e.handler
  missing : (∀ d, Adds calls d → d.content ≠ e.content) → e.dispatcher = none ∧ e.handler = none

/-- A call about something else leaves an entry current. -/
theorem Current.append {calls : List (RegistryCall H)} {call : RegistryCall H} {e : Entry H}
    (h : Current calls e) (hcall : ∀ d handler, call = .dispatcher d handler →
      d.content ≠ e.content) : Current (calls ++ [call]) e := by
  constructor
  · intro d hd hcontent
    have hnew : ∀ handler, call ≠ .dispatcher d handler :=
      fun handler heq => hcall d handler heq hcontent
    have hold : Adds calls d :=
      (adds_append.mp hd).resolve_right fun ⟨handler, heq⟩ => hnew handler heq
    obtain ⟨hdispatcher, hhandler⟩ := h.added d hold hcontent
    refine ⟨hdispatcher, ?_⟩
    rw [lastHandler_append]
    cases call with
    | definition index name signature => exact hhandler
    | dispatcher d' handler =>
        have hne : d' ≠ d := fun heq => hnew handler (by rw [heq])
        simpa [hne] using hhandler
  · intro hnone
    exact h.missing fun d hd => hnone d (adds_append.mpr (.inl hd))

/-- An entry is current when it has just got its dispatcher and its handler. -/
theorem Current.of_dispatcher {calls : List (RegistryCall H)} {d : Dispatcher}
    {handler : Option H} {e : Entry H} (hc : Consistent (calls ++ [.dispatcher d handler]))
    (hcontent : e.content = d.content) (hdispatcher : e.dispatcher = some d)
    (hhandler : e.handler = handler) : Current (calls ++ [.dispatcher d handler]) e := by
  have hadds : Adds (calls ++ [.dispatcher d handler]) d := adds_append.mpr (.inr ⟨handler, rfl⟩)
  constructor
  · intro d' hd' hcontent'
    have hsame : d' = d := hc.contents d' d hd' hadds (hcontent'.trans hcontent)
    rw [hsame, lastHandler_append]
    exact ⟨hdispatcher, by simp [hhandler]⟩
  · intro hnone
    exact absurd hcontent.symm (hnone d hadds)

/-! ## The invariant -/

/-- One of the maps has the entry. -/
def DecoderRegistry.Points (r : DecoderRegistry H) (e : Nat) : Prop :=
  (∃ sampleClass, getItem sampleClass r.byClass = some e) ∨
    ∃ index, getItem index r.byIndex = some e

/-- The registry after the calls. -/
structure RegistryInv (calls : List (RegistryCall H)) (r : DecoderRegistry H) : Prop where
  classKeys : (r.byClass.map Prod.fst).Nodup
  indexKeys : (r.byIndex.map Prod.fst).Nodup
  live : ∀ e, r.Points e → ∃ entry, r.entries[e]? = some entry ∧ Current calls entry
  /-- Both maps have the same entry for the same name and signature. -/
  shared : ∀ e e' entry entry', r.Points e → r.Points e' → r.entries[e]? = some entry →
    r.entries[e']? = some entry' → entry.content = entry'.content → e = e'
  byClass : ∀ sampleClass e entry, getItem sampleClass r.byClass = some e →
    r.entries[e]? = some entry →
    (∃ d, Adds calls d ∧ d.sampleClass = sampleClass ∧ d.content = entry.content) ∧
      (entry.index = 0 ∨ Defines calls entry.index entry.content)
  byIndex : ∀ index e entry, getItem index r.byIndex = some e → r.entries[e]? = some entry →
    Defines calls index entry.content
  defined : ∀ index c, Defines calls index c → ∃ e, getItem index r.byIndex = some e
  /-- A dispatcher that is not in the map of the classes is in an entry that was there before. -/
  added : ∀ d, Adds calls d → (∃ e, getItem d.sampleClass r.byClass = some e) ∨
    ∃ index, Defines calls index d.content

theorem registryInv_new : RegistryInv [] (DecoderRegistry.new : DecoderRegistry H) where
  classKeys := List.nodup_nil
  indexKeys := List.nodup_nil
  live := by
    rintro e (⟨sampleClass, h⟩ | ⟨index, h⟩)
    · simp [DecoderRegistry.new] at h
    · simp [DecoderRegistry.new] at h
  shared := by
    rintro e e' entry entry' - - h
    simp [DecoderRegistry.new] at h
  byClass := by simp [DecoderRegistry.new]
  byIndex := by simp [DecoderRegistry.new]
  defined := by simp [Defines]
  added := by simp [Adds]

/-- What a call does: it leaves one entry, `e` with the value `entry`, for its name and
signature, and all others as they were. -/
structure Effect (calls : List (RegistryCall H)) (call : RegistryCall H)
    (r r' : DecoderRegistry H) (e : Nat) (entry : Entry H) : Prop where
  classKeys : (r'.byClass.map Prod.fst).Nodup
  indexKeys : (r'.byIndex.map Prod.fst).Nodup
  value : r'.entries[e]? = some entry
  content : entry.content = call.content
  current : Current (calls ++ [call]) entry
  others : ∀ e', e' ≠ e → r.Points e' → r'.entries[e']? = r.entries[e']?
  alone : ∀ e' entry', e' ≠ e → r'.Points e' → r.entries[e']? = some entry' →
    entry'.content ≠ call.content
  byClass : ∀ sampleClass, getItem sampleClass r'.byClass = getItem sampleClass r.byClass ∨
    getItem sampleClass r'.byClass = some e
  byIndex : ∀ index, getItem index r'.byIndex = getItem index r.byIndex ∨
    getItem index r'.byIndex = some e
  isClass : ∀ sampleClass, getItem sampleClass r'.byClass = some e →
    (∃ d, Adds (calls ++ [call]) d ∧ d.sampleClass = sampleClass ∧ d.content = call.content) ∧
      (entry.index = 0 ∨ Defines (calls ++ [call]) entry.index call.content)
  isIndex : ∀ index, getItem index r'.byIndex = some e →
    Defines (calls ++ [call]) index call.content
  defined : ∀ index c, call.defines = some (index, c) → getItem index r'.byIndex = some e
  added : ∀ d handler, call = .dispatcher d handler →
    getItem d.sampleClass r'.byClass = some e ∨ ∃ index, Defines (calls ++ [call]) index d.content

/-- An entry of the new maps that is not the one of the call was in the old ones. -/
theorem Effect.points {calls : List (RegistryCall H)} {call : RegistryCall H}
    {r r' : DecoderRegistry H} {e e' : Nat} {entry : Entry H} (h : Effect calls call r r' e entry)
    (hne : e' ≠ e) (hpoints : r'.Points e') : r.Points e' := by
  rcases hpoints with ⟨sampleClass, hclass⟩ | ⟨index, hindex⟩
  · rcases h.byClass sampleClass with hold | hnew
    · exact .inl ⟨sampleClass, hold ▸ hclass⟩
    · rw [hnew, Option.some.injEq] at hclass
      exact absurd hclass.symm hne
  · rcases h.byIndex index with hold | hnew
    · exact .inr ⟨index, hold ▸ hindex⟩
    · rw [hnew, Option.some.injEq] at hindex
      exact absurd hindex.symm hne

/-- Its value has not changed. -/
theorem Effect.value_eq {calls : List (RegistryCall H)} {call : RegistryCall H}
    {r r' : DecoderRegistry H} {e e' : Nat} {entry entry' : Entry H}
    (h : Effect calls call r r' e entry) (hne : e' ≠ e) (hpoints : r'.Points e')
    (hvalue : r'.entries[e']? = some entry') : r.entries[e']? = some entry' := by
  rw [← h.others e' hne (h.points hne hpoints)]
  exact hvalue

theorem RegistryInv.step {calls : List (RegistryCall H)} {call : RegistryCall H}
    {r r' : DecoderRegistry H} {e : Nat} {entry : Entry H} (hinv : RegistryInv calls r)
    (h : Effect calls call r r' e entry) : RegistryInv (calls ++ [call]) r' where
  classKeys := h.classKeys
  indexKeys := h.indexKeys
  live := by
    intro e' hpoints
    -- the entry of the call, or one that it does not touch
    by_cases he : e' = e
    · rw [he]
      exact ⟨entry, h.value, h.current⟩
    · obtain ⟨entry', hvalue, hcurrent⟩ := hinv.live e' (h.points he hpoints)
      refine ⟨entry', (h.others e' he (h.points he hpoints)).trans hvalue, hcurrent.append ?_⟩
      intro d handler hcall hcontent
      have halone := h.alone e' entry' he hpoints hvalue
      rw [hcall] at halone
      exact halone hcontent.symm
  shared := by
    intro e₁ e₂ entry₁ entry₂ h₁ h₂ hv₁ hv₂ hcontent
    by_cases he₁ : e₁ = e
    · by_cases he₂ : e₂ = e
      · rw [he₁, he₂]
      · rw [he₁, h.value, Option.some.injEq] at hv₁
        have halone := h.alone e₂ entry₂ he₂ h₂ (h.value_eq he₂ h₂ hv₂)
        exact absurd (by rw [← hcontent, ← hv₁, h.content]) halone
    · by_cases he₂ : e₂ = e
      · rw [he₂, h.value, Option.some.injEq] at hv₂
        have halone := h.alone e₁ entry₁ he₁ h₁ (h.value_eq he₁ h₁ hv₁)
        exact absurd (by rw [hcontent, ← hv₂, h.content]) halone
      · exact hinv.shared e₁ e₂ entry₁ entry₂ (h.points he₁ h₁) (h.points he₂ h₂)
          (h.value_eq he₁ h₁ hv₁) (h.value_eq he₂ h₂ hv₂) hcontent
  byClass := by
    intro sampleClass e' entry' hclass hvalue
    by_cases he : e' = e
    · rw [he] at hclass hvalue
      rw [h.value, Option.some.injEq] at hvalue
      rw [← hvalue, h.content]
      exact h.isClass sampleClass hclass
    · have hold : getItem sampleClass r.byClass = some e' := by
        -- the maps change only at the key of the call
        rcases h.byClass sampleClass with hold | hnew
        · rw [← hold, hclass]
        · rw [hnew, Option.some.injEq] at hclass
          exact absurd hclass.symm he
      have hvalue := h.value_eq he (.inl ⟨sampleClass, hclass⟩) hvalue
      obtain ⟨⟨d, hd, hsample, hcontent⟩, hindex⟩ := hinv.byClass sampleClass e' entry' hold hvalue
      exact ⟨⟨d, adds_append.mpr (.inl hd), hsample, hcontent⟩,
        hindex.imp_right fun hdef => defines_append.mpr (.inl hdef)⟩
  byIndex := by
    intro index e' entry' hindex hvalue
    by_cases he : e' = e
    · rw [he] at hindex hvalue
      rw [h.value, Option.some.injEq] at hvalue
      rw [← hvalue, h.content]
      exact h.isIndex index hindex
    · have hold : getItem index r.byIndex = some e' := by
        rcases h.byIndex index with hold | hnew
        · rw [← hold, hindex]
        · rw [hnew, Option.some.injEq] at hindex
          exact absurd hindex.symm he
      have hvalue := h.value_eq he (.inr ⟨index, hindex⟩) hvalue
      exact defines_append.mpr (.inl (hinv.byIndex index e' entry' hold hvalue))
  defined := by
    intro index c hdef
    rcases defines_append.mp hdef with hold | hnew
    · obtain ⟨e', he'⟩ := hinv.defined index c hold
      rcases h.byIndex index with hsame | hset
      · exact ⟨e', hsame.trans he'⟩
      · exact ⟨e, hset⟩
    · exact ⟨e, h.defined index c hnew⟩
  added := by
    intro d hd
    rcases adds_append.mp hd with hold | ⟨handler, hnew⟩
    · rcases hinv.added d hold with ⟨e', he'⟩ | ⟨index, hdef⟩
      · rcases h.byClass d.sampleClass with hsame | hset
        · exact .inl ⟨e', hsame.trans he'⟩
        · exact .inl ⟨e, hset⟩
      · exact .inr ⟨index, defines_append.mpr (.inl hdef)⟩
    · exact (h.added d handler hnew).imp_left fun he => ⟨e, he⟩

/-! ## The search for an entry -/

theorem Entry.matches_eq (e : Entry H) (name : String) (signature : List UInt8)
    (hnull : e.signature = none → e.name ≠ name) :
    e.matches name (some signature) = .ok (decide (e.content = (name, some signature))) := by
  unfold Entry.matches Entry.matchName Entry.matchSignature Entry.content
  cases hsig : e.signature with
  | none =>
      have hname : e.name ≠ name := hnull hsig
      simp [hname]
  | some s =>
      by_cases hname : e.name = name
      · simp [hname]
      · simp [hname]

theorem Entry.check_eq (e : Entry H) (name : String) (signature : List UInt8)
    (hcontent : e.content = (name, some signature)) : e.check name (some signature) = .ok () := by
  have hname : e.name = name := congrArg Prod.fst hcontent
  have hsig : e.signature = some signature := congrArg Prod.snd hcontent
  unfold Entry.check Entry.matchName Entry.matchSignature
  simp only [hname, hsig, decide_true, Bool.not_true]
  rfl

/-- The search ends without an exception, at an entry with the name and the signature if there
is one. -/
theorem DecoderRegistry.find_spec (r : DecoderRegistry H) (name : String) (signature : List UInt8)
    {l : List Nat} (hl : ∀ e ∈ l, ∃ entry, r.entries[e]? = some entry ∧
      (entry.signature = none → entry.name ≠ name)) :
    (∃ e ∈ l, r.find name (some signature) l = .ok (some e) ∧
      ∃ entry, r.entries[e]? = some entry ∧ entry.content = (name, some signature)) ∨
    (r.find name (some signature) l = .ok none ∧
      ∀ e ∈ l, ∀ entry, r.entries[e]? = some entry → entry.content ≠ (name, some signature)) := by
  induction l with
  | nil => exact .inr ⟨rfl, by simp⟩
  | cons e l ih =>
      obtain ⟨entry, hentry, hnull⟩ := hl e List.mem_cons_self
      have hmatch := entry.matches_eq name signature hnull
      by_cases hcontent : entry.content = (name, some signature)
      · refine .inl ⟨e, List.mem_cons_self, ?_, entry, hentry, hcontent⟩
        unfold DecoderRegistry.find
        rw [hentry]
        simp only [hmatch, hcontent, decide_true]
        rfl
      · have hfind : r.find name (some signature) (e :: l) = r.find name (some signature) l := by
          conv_lhs => unfold DecoderRegistry.find
          rw [hentry]
          simp only [hmatch, hcontent, decide_false]
          rfl
        rw [hfind]
        rcases ih fun e' he' => hl e' (List.mem_cons_of_mem e he') with
          ⟨e', he', hfound, hvalue⟩ | ⟨hnone, hall⟩
        · exact .inl ⟨e', List.mem_cons_of_mem e he', hfound, hvalue⟩
        · refine .inr ⟨hnone, ?_⟩
          intro e' he' entry' hentry'
          rcases List.mem_cons.mp he' with rfl | hmem
          · rw [hentry, Option.some.injEq] at hentry'
            rwa [← hentry']
          · exact hall e' hmem entry' hentry'

/-- Whatever the order, all the values of a map are looked at. -/
theorem mem_order {K : Type} [DecidableEq K] (h : IterationOrder Nat) {m : List (K × Nat)}
    (hm : (m.map Prod.fst).Nodup) {e : Nat} :
    e ∈ h.order (m.map Prod.snd) ↔ ∃ k, getItem k m = some e := by
  rw [(h.perm _).mem_iff, List.mem_map]
  constructor
  · rintro ⟨⟨k, e'⟩, hmem, rfl⟩
    exact ⟨k, getItem_of_mem hm hmem⟩
  · rintro ⟨k, hk⟩
    exact ⟨(k, e), mem_of_getItem hk, rfl⟩

/-! ## One call -/

theorem getItem_setItem_or {K : Type} [DecidableEq K] (k k' : K) (e : Nat) (m : List (K × Nat)) :
    getItem k' (setItem k e m) = getItem k' m ∨ getItem k' (setItem k e m) = some e := by
  rw [getItem_setItem]
  split
  · exact .inr rfl
  · exact .inl rfl

theorem getItem_setItem_some {K : Type} [DecidableEq K] {k k' : K} {e e' : Nat}
    {m : List (K × Nat)} (h : getItem k' (setItem k e m) = some e') :
    (k' = k ∧ e' = e) ∨ (k' ≠ k ∧ getItem k' m = some e') := by
  rw [getItem_setItem] at h
  split at h
  · rename_i heq
    exact .inl ⟨heq, (Option.some.inj h).symm⟩
  · rename_i hne
    exact .inr ⟨hne, h⟩

theorem RegistryInv.lt_length {calls : List (RegistryCall H)} {r : DecoderRegistry H}
    (hinv : RegistryInv calls r) {e : Nat} (h : r.Points e) : e < r.entries.length := by
  obtain ⟨entry, hvalue, -⟩ := hinv.live e h
  exact (List.getElem?_eq_some_iff.mp hvalue).1

/-- Only the built-in samples have no signature, and their names are not looked for. -/
theorem RegistryInv.name_ne {calls : List (RegistryCall H)} {call : RegistryCall H}
    {r : DecoderRegistry H} (hinv : RegistryInv calls r) (hc : Consistent (calls ++ [call]))
    {name : String} {signature : List UInt8} (hcall : call.content = (name, some signature))
    {e : Nat} {entry : Entry H} (hpoints : r.Points e) (hvalue : r.entries[e]? = some entry)
    (hnull : entry.signature = none) : entry.name ≠ name := by
  -- an entry without a signature was made for a built-in sample
  have hbuiltin : ∃ d, Adds calls d ∧ d.content = entry.content ∧
      (builtinIndex d.sampleClass).isSome = true := by
    rcases hpoints with ⟨sampleClass, hclass⟩ | ⟨index, hindex⟩
    · obtain ⟨⟨d, hd, -, hcontent⟩, -⟩ := hinv.byClass sampleClass e entry hclass hvalue
      refine ⟨d, hd, hcontent, ?_⟩
      by_contra hnot
      have hsome := hc.of_append.signature d hd (by simpa using hnot)
      rw [show d.signature = entry.signature from congrArg Prod.snd hcontent, hnull] at hsome
      simp at hsome
    · obtain ⟨call', hmem, hdef⟩ := hinv.byIndex index e entry hindex hvalue
      cases call' with
      | definition index' name' signature' =>
          have hsig : some signature' = entry.signature := by
            simp only [RegistryCall.defines, Option.some.injEq, Prod.mk.injEq] at hdef
            exact congrArg Prod.snd hdef.2
          rw [hnull] at hsig
          simp at hsig
      | dispatcher d handler =>
          simp only [RegistryCall.defines, Option.map_eq_some_iff, Prod.mk.injEq] at hdef
          obtain ⟨tag, htag, -, hcontent⟩ := hdef
          exact ⟨d, ⟨handler, hmem⟩, hcontent, by rw [htag]; rfl⟩
  obtain ⟨d, hd, hcontent, htag⟩ := hbuiltin
  have hname : d.name = entry.name := congrArg Prod.fst hcontent
  have hsig : d.signature = none := (congrArg Prod.snd hcontent).trans hnull
  -- nothing else may have its name
  obtain ⟨halone, hno⟩ := hc.builtin d (adds_append.mpr (.inl hd)) htag
  intro heq
  cases call with
  | definition index name' signature' =>
      refine hno index signature' (defines_append.mpr (.inr ?_))
      have hname' : name' = name := congrArg Prod.fst hcall
      rw [hname, heq, ← hname']
      rfl
  | dispatcher d' handler =>
      have hname' : d'.name = name := congrArg Prod.fst hcall
      have hsame := halone d' (adds_append.mpr (.inr ⟨handler, rfl⟩))
        (by rw [hname', ← heq, hname])
      have hsig' : d'.signature = some signature := congrArg Prod.snd hcall
      rw [hsame, hsig] at hsig'
      simp at hsig'

/-- The entry of a map is the one of the dispatcher. -/
theorem RegistryInv.class_content {calls : List (RegistryCall H)} {call : RegistryCall H}
    {r : DecoderRegistry H} (hinv : RegistryInv calls r) (hc : Consistent (calls ++ [call]))
    {d : Dispatcher} (hd : Adds (calls ++ [call]) d) {e : Nat} {entry : Entry H}
    (hclass : getItem d.sampleClass r.byClass = some e) (hvalue : r.entries[e]? = some entry) :
    entry.content = d.content := by
  obtain ⟨⟨d', hd', hsample, hcontent⟩, -⟩ := hinv.byClass d.sampleClass e entry hclass hvalue
  rw [← hcontent, hc.classes d' d (adds_append.mpr (.inl hd')) hd hsample]

/-- An entry that the map of the classes has for the content of a dispatcher is under its class. -/
theorem RegistryInv.class_eq {calls : List (RegistryCall H)} {call : RegistryCall H}
    {r : DecoderRegistry H} (hinv : RegistryInv calls r) (hc : Consistent (calls ++ [call]))
    {d : Dispatcher} (hd : Adds (calls ++ [call]) d) {sampleClass : SampleClass} {e : Nat}
    {entry : Entry H} (hclass : getItem sampleClass r.byClass = some e)
    (hvalue : r.entries[e]? = some entry) (hcontent : entry.content = d.content) :
    sampleClass = d.sampleClass := by
  obtain ⟨⟨d', hd', hsample, hcontent'⟩, -⟩ := hinv.byClass sampleClass e entry hclass hvalue
  rw [← hsample, hc.contents d' d (adds_append.mpr (.inl hd')) hd (hcontent'.trans hcontent)]

/-- An entry that is there already gets the dispatcher and the handler. -/
theorem RegistryInv.effect_handler {calls : List (RegistryCall H)} {r : DecoderRegistry H}
    {d : Dispatcher} {handler : Option H} (hinv : RegistryInv calls r)
    (hc : Consistent (calls ++ [.dispatcher d handler]))
    (huser : builtinIndex d.sampleClass = none) {e : Nat} {entry : Entry H}
    {f : Entry H → Entry H} (hpoints : r.Points e) (hvalue : r.entries[e]? = some entry)
    (hcontent : entry.content = d.content)
    (hf : f entry = { entry with dispatcher := some d, handler := handler }) :
    Effect calls (.dispatcher d handler) r (r.modify e f) e (f entry) := by
  have hadds : Adds (calls ++ [.dispatcher d handler]) d := adds_append.mpr (.inr ⟨handler, rfl⟩)
  have hfcontent : (f entry).content = d.content := by
    rw [hf]
    exact hcontent
  exact
    { classKeys := hinv.classKeys
      indexKeys := hinv.indexKeys
      value := by simp [DecoderRegistry.modify, hvalue]
      content := hfcontent
      current := Current.of_dispatcher hc hfcontent (by rw [hf]) (by rw [hf])
      others := by
        intro e' hne _
        simp [DecoderRegistry.modify, Ne.symm hne]
      alone := by
        -- two entries of one content would be one
        intro e' entry' hne hpoints' hvalue' hsame
        exact hne (hinv.shared e' e entry' entry hpoints' hpoints hvalue' hvalue
          (hsame.trans hcontent.symm))
      byClass := fun _ => .inl rfl
      byIndex := fun _ => .inl rfl
      isClass := by
        intro sampleClass hclass
        -- only the class of the dispatcher leads to the entry
        refine ⟨⟨d, hadds, (hinv.class_eq hc hadds hclass hvalue hcontent).symm, rfl⟩, ?_⟩
        have hindex := (hinv.byClass sampleClass e entry hclass hvalue).2
        rw [hcontent] at hindex
        rw [hf]
        exact hindex.imp_right fun hdef => defines_append.mpr (.inl hdef)
      isIndex := by
        intro index hindex
        have hdef := hinv.byIndex index e entry hindex hvalue
        rw [hcontent] at hdef
        exact defines_append.mpr (.inl hdef)
      defined := by
        intro index c hdef
        simp [RegistryCall.defines, huser] at hdef
      added := by
        intro d' handler' hcall
        injection hcall with hd' _
        rw [← hd']
        rcases hpoints with ⟨sampleClass, hclass⟩ | ⟨index, hindex⟩
        · rw [hinv.class_eq hc hadds hclass hvalue hcontent] at hclass
          exact .inl hclass
        · have hdef := hinv.byIndex index e entry hindex hvalue
          rw [hcontent] at hdef
          exact .inr ⟨index, defines_append.mpr (.inl hdef)⟩ }

/-- A new entry leaves the others as they were. -/
theorem RegistryInv.getElem?_alloc {calls : List (RegistryCall H)} {r : DecoderRegistry H}
    (hinv : RegistryInv calls r) (entry : Entry H) {e : Nat} (hpoints : r.Points e) :
    (r.entries ++ [entry])[e]? = r.entries[e]? :=
  List.getElem?_append_left (hinv.lt_length hpoints)

/-- A dispatcher that no entry is for gets a new one, which the map of the classes has. -/
theorem RegistryInv.effect_dispatcher {calls : List (RegistryCall H)} {r : DecoderRegistry H}
    {d : Dispatcher} {handler : Option H} (hinv : RegistryInv calls r)
    (hc : Consistent (calls ++ [.dispatcher d handler]))
    (huser : builtinIndex d.sampleClass = none)
    (hno : ∀ index e entry, getItem index r.byIndex = some e → r.entries[e]? = some entry →
      entry.content ≠ d.content) :
    Effect calls (.dispatcher d handler) r
      { r.alloc (Entry.ofDispatcher d handler) with
        byClass := setItem d.sampleClass r.entries.length r.byClass }
      r.entries.length (Entry.ofDispatcher d handler) := by
  have hadds : Adds (calls ++ [.dispatcher d handler]) d := adds_append.mpr (.inr ⟨handler, rfl⟩)
  exact
    { classKeys := setItem_nodup _ _ hinv.classKeys
      indexKeys := hinv.indexKeys
      value := by simp [DecoderRegistry.alloc]
      content := rfl
      current := Current.of_dispatcher hc rfl rfl rfl
      others := fun e' _ hpoints => hinv.getElem?_alloc _ hpoints
      alone := by
        rintro e' entry' hne (⟨sampleClass, hclass'⟩ | ⟨index, hindex⟩) hvalue
        · -- an old entry is under another class, so that its content differs
          rcases getItem_setItem_some hclass' with ⟨-, he⟩ | ⟨hne', hold⟩
          · exact absurd he hne
          · intro hcontent
            exact hne' (hinv.class_eq hc hadds hold hvalue hcontent)
        · exact hno index e' entry' hindex hvalue
      byClass := fun _ => getItem_setItem_or _ _ _ _
      byIndex := fun _ => .inl rfl
      isClass := by
        intro sampleClass hclass'
        rcases getItem_setItem_some hclass' with ⟨heq, -⟩ | ⟨-, hold⟩
        · exact ⟨⟨d, hadds, heq.symm, rfl⟩, .inl rfl⟩
        · exact absurd (hinv.lt_length (.inl ⟨sampleClass, hold⟩)) (lt_irrefl _)
      isIndex := by
        intro index hindex
        exact absurd (hinv.lt_length (.inr ⟨index, hindex⟩)) (lt_irrefl _)
      defined := by
        intro index c hdef
        simp [RegistryCall.defines, huser] at hdef
      added := by
        intro d' handler' hcall
        injection hcall with hd' _
        rw [← hd']
        exact .inl (by simp [getItem_setItem]) }

/-- The dispatcher of a built-in sample gets a new entry each time. -/
theorem RegistryInv.effect_builtin {calls : List (RegistryCall H)} {r : DecoderRegistry H}
    {d : Dispatcher} {handler : Option H} {tag : Int} (hinv : RegistryInv calls r)
    (hc : Consistent (calls ++ [.dispatcher d handler]))
    (htag : builtinIndex d.sampleClass = some tag) :
    Effect calls (.dispatcher d handler) r
      { r.alloc { Entry.ofDispatcher d handler with index := tag } with
        byClass := setItem d.sampleClass r.entries.length r.byClass
        byIndex := setItem tag r.entries.length r.byIndex }
      r.entries.length { Entry.ofDispatcher d handler with index := tag } := by
  have hadds : Adds (calls ++ [.dispatcher d handler]) d := adds_append.mpr (.inr ⟨handler, rfl⟩)
  have hdefines : RegistryCall.defines (.dispatcher d handler) = some (tag, d.content) := by
    simp [RegistryCall.defines, htag]
  have hdef : Defines (calls ++ [.dispatcher d handler]) tag d.content :=
    defines_append.mpr (.inr hdefines)
  exact
    { classKeys := setItem_nodup _ _ hinv.classKeys
      indexKeys := setItem_nodup _ _ hinv.indexKeys
      value := by simp [DecoderRegistry.alloc]
      content := rfl
      current := Current.of_dispatcher hc rfl rfl rfl
      others := fun e' _ hpoints => hinv.getElem?_alloc _ hpoints
      alone := by
        rintro e' entry' hne (⟨sampleClass, hclass⟩ | ⟨index, hindex⟩) hvalue hcontent
        · -- an old entry is under another class or another index
          rcases getItem_setItem_some hclass with ⟨-, he⟩ | ⟨hne', hold⟩
          · exact hne he
          · exact hne' (hinv.class_eq hc hadds hold hvalue hcontent)
        · rcases getItem_setItem_some hindex with ⟨-, he⟩ | ⟨hne', hold⟩
          · exact hne he
          · have hdef' := hinv.byIndex index e' entry' hold hvalue
            rw [hcontent] at hdef'
            exact hne' (hc.index index tag d.content (defines_append.mpr (.inl hdef')) hdef)
      byClass := fun _ => getItem_setItem_or _ _ _ _
      byIndex := fun _ => getItem_setItem_or _ _ _ _
      isClass := by
        intro sampleClass hclass
        rcases getItem_setItem_some hclass with ⟨heq, -⟩ | ⟨-, hold⟩
        · exact ⟨⟨d, hadds, heq.symm, rfl⟩, .inr hdef⟩
        · exact absurd (hinv.lt_length (.inl ⟨sampleClass, hold⟩)) (lt_irrefl _)
      isIndex := by
        intro index hindex
        rcases getItem_setItem_some hindex with ⟨heq, -⟩ | ⟨-, hold⟩
        · rw [heq]
          exact hdef
        · exact absurd (hinv.lt_length (.inr ⟨index, hold⟩)) (lt_irrefl _)
      defined := by
        intro index c hdef'
        rw [hdefines, Option.some.injEq, Prod.mk.injEq] at hdef'
        simp [getItem_setItem, hdef'.1]
      added := by
        intro d' handler' hcall
        injection hcall with hd' _
        rw [← hd']
        exact .inl (by simp [getItem_setItem]) }

section Definition

variable {calls : List (RegistryCall H)} {r : DecoderRegistry H} {index : Int} {name : String}
  {signature : List UInt8}

theorem defines_definition :
    Defines (calls ++ [.definition index name signature]) index (name, some signature) :=
  defines_append.mpr (.inr rfl)

/-- A definition changes no dispatcher and no handler. -/
theorem Current.append_definition {e : Entry H} (h : Current calls e) :
    Current (calls ++ [.definition index name signature]) e := by
  apply h.append
  intro d handler hcall
  simp at hcall

/-- An index that is known has the entry of its definition. -/
theorem RegistryInv.effect_known (hinv : RegistryInv calls r)
    (hc : Consistent (calls ++ [.definition index name signature])) {e : Nat} {entry : Entry H}
    (hindex : getItem index r.byIndex = some e) (hvalue : r.entries[e]? = some entry) :
    Effect calls (.definition index name signature) r r e entry := by
  -- an index is defined with one content only
  have hcontent : entry.content = (name, some signature) :=
    hc.definition index _ _ (defines_append.mpr (.inl (hinv.byIndex index e entry hindex hvalue)))
      defines_definition
  obtain ⟨entry', hvalue', hcurrent⟩ := hinv.live e (.inr ⟨index, hindex⟩)
  rw [hvalue, Option.some.injEq] at hvalue'
  exact
    { classKeys := hinv.classKeys
      indexKeys := hinv.indexKeys
      value := hvalue
      content := hcontent
      current := by
        rw [hvalue']
        exact hcurrent.append_definition
      others := fun _ _ _ => rfl
      alone := by
        intro e' entry'' hne hpoints hvalue'' hsame
        exact hne (hinv.shared e' e entry'' entry hpoints (.inr ⟨index, hindex⟩) hvalue'' hvalue
          (hsame.trans hcontent.symm))
      byClass := fun _ => .inl rfl
      byIndex := fun _ => .inl rfl
      isClass := by
        intro sampleClass hclass
        obtain ⟨⟨d, hd, hsample, hd'⟩, hentry⟩ := hinv.byClass sampleClass e entry hclass hvalue
        rw [hcontent] at hd' hentry
        exact ⟨⟨d, adds_append.mpr (.inl hd), hsample, hd'⟩,
          hentry.imp_right fun hdef => defines_append.mpr (.inl hdef)⟩
      isIndex := by
        intro index' hindex'
        have hdef := hinv.byIndex index' e entry hindex' hvalue
        rw [hcontent] at hdef
        exact defines_append.mpr (.inl hdef)
      defined := by
        intro index' c hdef
        simp only [RegistryCall.defines, Option.some.injEq, Prod.mk.injEq] at hdef
        rw [← hdef.1]
        exact hindex
      added := by
        intro d handler hcall
        simp at hcall }

/-- The entry of a dispatcher gets its index, and then both maps have it. -/
theorem RegistryInv.effect_index (hinv : RegistryInv calls r) {sampleClass : SampleClass} {e : Nat}
    {entry : Entry H} (hclass : getItem sampleClass r.byClass = some e)
    (hvalue : r.entries[e]? = some entry) (hcontent : entry.content = (name, some signature)) :
    Effect calls (.definition index name signature) r
      { r.modify e (fun _ => { entry with index := index }) with
        byIndex := setItem index e r.byIndex }
      e { entry with index := index } := by
  obtain ⟨entry', hvalue', hcurrent⟩ := hinv.live e (.inl ⟨sampleClass, hclass⟩)
  rw [hvalue, Option.some.injEq] at hvalue'
  rw [← hvalue'] at hcurrent
  exact
    { classKeys := hinv.classKeys
      indexKeys := setItem_nodup _ _ hinv.indexKeys
      value := by simp [DecoderRegistry.modify, hvalue]
      content := hcontent
      current := by
        have hcurrent' : Current calls { entry with index := index } :=
          ⟨hcurrent.added, hcurrent.missing⟩
        exact hcurrent'.append_definition
      others := by
        intro e' hne _
        simp [DecoderRegistry.modify, Ne.symm hne]
      alone := by
        intro e' entry'' hne hpoints hvalue'' hsame
        have hold : r.Points e' := by
          rcases hpoints with hclass' | ⟨index', hindex⟩
          · exact .inl hclass'
          · rcases getItem_setItem_some hindex with ⟨-, he⟩ | ⟨-, hold⟩
            · exact absurd he hne
            · exact .inr ⟨index', hold⟩
        exact hne (hinv.shared e' e entry'' entry hold (.inl ⟨sampleClass, hclass⟩) hvalue'' hvalue
          (hsame.trans hcontent.symm))
      byClass := fun _ => .inl rfl
      byIndex := fun _ => getItem_setItem_or _ _ _ _
      isClass := by
        intro sampleClass' hclass'
        obtain ⟨⟨d, hd, hsample, hd'⟩, -⟩ := hinv.byClass sampleClass' e entry hclass' hvalue
        rw [hcontent] at hd'
        exact ⟨⟨d, adds_append.mpr (.inl hd), hsample, hd'⟩, .inr defines_definition⟩
      isIndex := by
        intro index' hindex
        rcases getItem_setItem_some hindex with ⟨heq, -⟩ | ⟨-, hold⟩
        · rw [heq]
          exact defines_definition
        · have hdef := hinv.byIndex index' e entry hold hvalue
          rw [hcontent] at hdef
          exact defines_append.mpr (.inl hdef)
      defined := by
        intro index' c hdef
        simp only [RegistryCall.defines, Option.some.injEq, Prod.mk.injEq] at hdef
        simp [getItem_setItem, hdef.1]
      added := by
        intro d handler hcall
        simp at hcall }

/-- A definition that no entry is for gets a new one, which only the map of the indices has. -/
theorem RegistryInv.effect_definition (hinv : RegistryInv calls r)
    (hc : Consistent (calls ++ [.definition index name signature]))
    (hnew : getItem index r.byIndex = none)
    (hno : ∀ sampleClass e entry, getItem sampleClass r.byClass = some e →
      r.entries[e]? = some entry → entry.content ≠ (name, some signature)) :
    Effect calls (.definition index name signature) r
      { r.alloc (Entry.ofDefinition index name (some signature)) with
        byIndex := setItem index r.entries.length r.byIndex }
      r.entries.length (Entry.ofDefinition index name (some signature)) := by
  -- no index has been defined with this content
  have honly : ∀ index', ¬ Defines calls index' (name, some signature) := by
    intro index' hdef
    have hsame := hc.index index' index _ (defines_append.mpr (.inl hdef)) defines_definition
    obtain ⟨e, he⟩ := hinv.defined index' _ hdef
    rw [hsame, hnew] at he
    simp at he
  -- no dispatcher was added for it
  have hunknown : ∀ d, Adds calls d → d.content ≠ (name, some signature) := by
    intro d hd hcontent
    rcases hinv.added d hd with ⟨e, hclass⟩ | ⟨index', hdef⟩
    · obtain ⟨entry, hvalue, -⟩ := hinv.live e (.inl ⟨d.sampleClass, hclass⟩)
      refine hno d.sampleClass e entry hclass hvalue ?_
      rw [hinv.class_content hc (adds_append.mpr (.inl hd)) hclass hvalue, hcontent]
    · rw [hcontent] at hdef
      exact honly index' hdef
  exact
    { classKeys := hinv.classKeys
      indexKeys := setItem_nodup _ _ hinv.indexKeys
      value := by simp [DecoderRegistry.alloc]
      content := rfl
      current := by
        apply Current.append_definition
        exact ⟨fun d hd hcontent => absurd hcontent (hunknown d hd), fun _ => ⟨rfl, rfl⟩⟩
      others := fun e' _ hpoints => hinv.getElem?_alloc _ hpoints
      alone := by
        rintro e' entry' hne (⟨sampleClass, hclass⟩ | ⟨index', hindex⟩) hvalue
        · exact hno sampleClass e' entry' hclass hvalue
        · rcases getItem_setItem_some hindex with ⟨-, he⟩ | ⟨-, hold⟩
          · exact absurd he hne
          · intro hcontent
            have hdef := hinv.byIndex index' e' entry' hold hvalue
            rw [hcontent] at hdef
            exact honly index' hdef
      byClass := fun _ => .inl rfl
      byIndex := fun _ => getItem_setItem_or _ _ _ _
      isClass := by
        intro sampleClass hclass
        exact absurd (hinv.lt_length (.inl ⟨sampleClass, hclass⟩)) (lt_irrefl _)
      isIndex := by
        intro index' hindex
        rcases getItem_setItem_some hindex with ⟨heq, -⟩ | ⟨-, hold⟩
        · rw [heq]
          exact defines_definition
        · exact absurd (hinv.lt_length (.inr ⟨index', hold⟩)) (lt_irrefl _)
      defined := by
        intro index' c hdef
        simp only [RegistryCall.defines, Option.some.injEq, Prod.mk.injEq] at hdef
        simp [getItem_setItem, hdef.1]
      added := by
        intro d handler hcall
        simp at hcall }

end Definition

theorem DecoderRegistry.add_of_builtin (h : IterationOrder Nat) (r : DecoderRegistry H)
    {d : Dispatcher} (handler : Option H) {tag : Int}
    (htag : builtinIndex d.sampleClass = some tag) :
    r.add h d handler = .ok { r.alloc { Entry.ofDispatcher d handler with index := tag } with
      byClass := setItem d.sampleClass r.entries.length r.byClass
      byIndex := setItem tag r.entries.length r.byIndex } := by
  obtain ⟨sampleClass, name, signature⟩ := d
  cases sampleClass with
  | user id => simp [builtinIndex] at htag
  | typeDef =>
      simp only [builtinIndex, Option.some.injEq] at htag
      rw [← htag]
      simp [DecoderRegistry.add, DecoderRegistry.addBuiltin, Entry.setIndex, Entry.ofDispatcher,
        Bind.bind, Except.bind, pure, Except.pure]
  | typeBinding =>
      simp only [builtinIndex, Option.some.injEq] at htag
      rw [← htag]
      simp [DecoderRegistry.add, DecoderRegistry.addBuiltin, Entry.setIndex, Entry.ofDispatcher,
        Bind.bind, Except.bind, pure, Except.pure]

theorem DecoderRegistry.add_of_user (h : IterationOrder Nat) (r : DecoderRegistry H)
    {d : Dispatcher} (handler : Option H) (huser : builtinIndex d.sampleClass = none) :
    r.add h d handler = r.addUser h d handler := by
  obtain ⟨sampleClass, name, signature⟩ := d
  cases sampleClass with
  | user id => rfl
  | typeDef => simp [builtinIndex] at huser
  | typeBinding => simp [builtinIndex] at huser

/-- The search of a call goes through the entries of a map. -/
theorem RegistryInv.find_spec {calls : List (RegistryCall H)} {call : RegistryCall H}
    {r : DecoderRegistry H} (hinv : RegistryInv calls r) (hc : Consistent (calls ++ [call]))
    {name : String} {signature : List UInt8} (hcall : call.content = (name, some signature))
    {K : Type} [DecidableEq K] (h : IterationOrder Nat) {m : List (K × Nat)}
    (hm : (m.map Prod.fst).Nodup) (hpoints : ∀ k e, getItem k m = some e → r.Points e) :
    (∃ k e entry, r.find name (some signature) (h.order (m.map Prod.snd)) = .ok (some e) ∧
      getItem k m = some e ∧ r.entries[e]? = some entry ∧
      entry.content = (name, some signature)) ∨
    (r.find name (some signature) (h.order (m.map Prod.snd)) = .ok none ∧
      ∀ k e entry, getItem k m = some e → r.entries[e]? = some entry →
        entry.content ≠ (name, some signature)) := by
  have hl : ∀ e ∈ h.order (m.map Prod.snd), ∃ entry, r.entries[e]? = some entry ∧
      (entry.signature = none → entry.name ≠ name) := by
    intro e he
    obtain ⟨k, hk⟩ := (mem_order h hm).mp he
    obtain ⟨entry, hvalue, -⟩ := hinv.live e (hpoints k e hk)
    exact ⟨entry, hvalue, fun hnull => hinv.name_ne hc hcall (hpoints k e hk) hvalue hnull⟩
  rcases r.find_spec name signature hl with ⟨e, he, hfind, entry, hvalue, hcontent⟩ | ⟨hfind, hno⟩
  · obtain ⟨k, hk⟩ := (mem_order h hm).mp he
    exact .inl ⟨k, e, entry, hfind, hk, hvalue, hcontent⟩
  · exact .inr ⟨hfind, fun k e entry hk => hno e ((mem_order h hm).mpr ⟨k, hk⟩) entry⟩

theorem RegistryInv.addUser_spec (h : IterationOrder Nat) {calls : List (RegistryCall H)}
    {d : Dispatcher} {handler : Option H} {r : DecoderRegistry H} (hinv : RegistryInv calls r)
    (hc : Consistent (calls ++ [.dispatcher d handler]))
    (huser : builtinIndex d.sampleClass = none) :
    ∃ r' e entry, r.addUser h d handler = .ok r' ∧
      Effect calls (.dispatcher d handler) r r' e entry := by
  have hadds : Adds (calls ++ [.dispatcher d handler]) d := adds_append.mpr (.inr ⟨handler, rfl⟩)
  obtain ⟨signature, hsig⟩ := Option.isSome_iff_exists.mp (hc.signature d hadds huser)
  have hd : d.content = (d.name, some signature) := by
    rw [← hsig]
    rfl
  unfold DecoderRegistry.addUser
  -- the class is known, or an entry has the name, or neither
  cases hclass : getItem d.sampleClass r.byClass with
  | some e =>
      obtain ⟨entry, hvalue, hcurrent⟩ := hinv.live e (.inl ⟨_, hclass⟩)
      have hcontent := hinv.class_content hc hadds hclass hvalue
      obtain ⟨⟨d', hd', hsample, hcontent'⟩, -⟩ := hinv.byClass _ e entry hclass hvalue
      have hsame : d' = d := hc.classes d' d (adds_append.mpr (.inl hd')) hadds hsample
      have hdispatcher : entry.dispatcher = some d := by
        rw [← hsame]
        exact (hcurrent.added d' hd' hcontent').1
      refine ⟨_, e, _, ?_, hinv.effect_handler hc huser (.inl ⟨_, hclass⟩) hvalue hcontent
        (f := fun entry => { entry with handler := handler }) (by rw [hdispatcher])⟩
      have hcheck := entry.check_eq d.name signature (hcontent.trans hd)
      simp only [hvalue, hsig, hcheck]
      rfl
  | none =>
      rcases hinv.find_spec hc hd h hinv.indexKeys fun k e hk => .inr ⟨k, hk⟩ with
        ⟨index, e, entry, hfind, hindex, hvalue, hcontent⟩ | ⟨hfind, hno⟩
      · refine ⟨_, e, _, ?_, hinv.effect_handler hc huser (.inr ⟨index, hindex⟩) hvalue
          (hcontent.trans hd.symm)
          (f := fun entry => { entry with dispatcher := some d, handler := handler }) rfl⟩
        simp only [hsig, hfind]
        rfl
      · refine ⟨_, _, _, ?_, hinv.effect_dispatcher hc huser (hd ▸ hno)⟩
        simp only [hsig, hfind]
        rfl

theorem RegistryInv.addDefinition_spec (h : IterationOrder Nat) {calls : List (RegistryCall H)}
    {index : Int} {name : String} {signature : List UInt8} {r : DecoderRegistry H}
    (hinv : RegistryInv calls r) (hc : Consistent (calls ++ [.definition index name signature])) :
    ∃ r' e entry, r.addDefinition h index name (some signature) = .ok r' ∧
      Effect calls (.definition index name signature) r r' e entry := by
  unfold DecoderRegistry.addDefinition
  cases hindex : getItem index r.byIndex with
  | some e =>
      obtain ⟨entry, hvalue, -⟩ := hinv.live e (.inr ⟨_, hindex⟩)
      have heffect := hinv.effect_known hc hindex hvalue
      refine ⟨r, e, entry, ?_, heffect⟩
      have hcheck := entry.check_eq name signature heffect.content
      simp only [hvalue, hcheck]
      rfl
  | none =>
      rcases hinv.find_spec hc rfl h hinv.classKeys fun k e hk => .inl ⟨k, hk⟩ with
        ⟨sampleClass, e, entry, hfind, hclass, hvalue, hcontent⟩ | ⟨hfind, hno⟩
      · refine ⟨_, e, _, ?_, hinv.effect_index hclass hvalue hcontent⟩
        -- an entry with another index would be of another definition
        have hentry : ¬ (entry.index ≠ 0 ∧ entry.index ≠ index) := by
          rintro ⟨hne, hother⟩
          rcases (hinv.byClass sampleClass e entry hclass hvalue).2 with hzero | hdef
          · exact hne hzero
          · rw [hcontent] at hdef
            exact hother (hc.index _ _ _ (defines_append.mpr (.inl hdef)) defines_definition)
        simp only [hfind, hvalue, Entry.setIndex, if_neg hentry, Bind.bind, Except.bind, pure,
          Except.pure]
      · refine ⟨_, _, _, ?_, hinv.effect_definition hc hindex hno⟩
        simp only [hfind]
        rfl

/-- A call throws nothing, and does what it is for. -/
theorem RegistryInv.run_call (h : IterationOrder Nat) {calls : List (RegistryCall H)}
    {call : RegistryCall H} {r : DecoderRegistry H} (hinv : RegistryInv calls r)
    (hc : Consistent (calls ++ [call])) :
    ∃ r', call.run h r = .ok r' ∧ RegistryInv (calls ++ [call]) r' := by
  have heffect : ∃ r' e entry, call.run h r = .ok r' ∧ Effect calls call r r' e entry := by
    cases call with
    | dispatcher d handler =>
        cases htag : builtinIndex d.sampleClass with
        | some tag =>
            exact ⟨_, _, _, r.add_of_builtin h handler htag, hinv.effect_builtin hc htag⟩
        | none =>
            rw [RegistryCall.run, r.add_of_user h handler htag]
            exact hinv.addUser_spec h hc htag
    | definition index name signature => exact hinv.addDefinition_spec h hc
  obtain ⟨r', e, entry, hrun, heff⟩ := heffect
  exact ⟨r', hrun, hinv.step heff⟩

/-- No call of a run throws. -/
theorem RegistryInv.run_calls (calls : List (RegistryCall H)) :
    ∀ (h : Nat → IterationOrder Nat) (past : List (RegistryCall H)) (r : DecoderRegistry H),
      RegistryInv past r → Consistent (past ++ calls) →
      ∃ r', runCalls h r calls = .ok r' ∧ RegistryInv (past ++ calls) r' := by
  induction calls with
  | nil =>
      intro h past r hinv _
      exact ⟨r, rfl, by simpa using hinv⟩
  | cons call calls ih =>
      intro h past r hinv hc
      rw [List.append_cons] at hc
      obtain ⟨r₁, hrun, hinv₁⟩ := hinv.run_call (h 0) hc.of_append
      obtain ⟨r₂, hruns, hinv₂⟩ := ih (fun n => h (n + 1)) (past ++ [call]) r₁ hinv₁ hc
      refine ⟨r₂, ?_, by rwa [List.append_cons]⟩
      unfold runCalls
      rw [hrun]
      exact hruns

/-- What `get` returns for an index after the calls. -/
theorem RegistryInv.get_spec {calls : List (RegistryCall H)} {r : DecoderRegistry H}
    (hinv : RegistryInv calls r) (hc : Consistent calls) {index : Int} {c : Content}
    (hdef : Defines calls index c) :
    ∃ e, r.get index = some e ∧ e.content = c ∧ Current calls e := by
  obtain ⟨e, hindex⟩ := hinv.defined index c hdef
  obtain ⟨entry, hvalue, hcurrent⟩ := hinv.live e (.inr ⟨index, hindex⟩)
  have hcontent := hc.definition index _ c (hinv.byIndex index e entry hindex hvalue) hdef
  refine ⟨entry, ?_, hcontent, hcurrent⟩
  unfold DecoderRegistry.get
  rw [hindex, Option.bind_some, hvalue]

/-- Nothing else has an index. -/
theorem RegistryInv.get_none {calls : List (RegistryCall H)} {r : DecoderRegistry H}
    (hinv : RegistryInv calls r) {index : Int} (hdef : ∀ c, ¬ Defines calls index c) :
    r.get index = none := by
  unfold DecoderRegistry.get
  cases hindex : getItem index r.byIndex with
  | none => rfl
  | some e =>
      obtain ⟨entry, hvalue, -⟩ := hinv.live e (.inr ⟨index, hindex⟩)
      exact absurd (hinv.byIndex index e entry hindex hvalue) (hdef _)

/-! ## Two runs -/

/-- The same definitions, dispatchers and last handlers, in any order and any number of times. -/
structure SameCalls (calls calls' : List (RegistryCall H)) : Prop where
  definitions : ∀ index name signature, .definition index name signature ∈ calls ↔
    .definition index name signature ∈ calls'
  handlers : ∀ d, lastHandler calls d = lastHandler calls' d

theorem SameCalls.adds {calls calls' : List (RegistryCall H)} (h : SameCalls calls calls')
    (d : Dispatcher) : Adds calls d ↔ Adds calls' d := by
  rw [adds_iff_lastHandler, adds_iff_lastHandler, h.handlers]

theorem SameCalls.symm {calls calls' : List (RegistryCall H)} (h : SameCalls calls calls') :
    SameCalls calls' calls :=
  ⟨fun index name signature => (h.definitions index name signature).symm,
    fun d => (h.handlers d).symm⟩

theorem SameCalls.defines {calls calls' : List (RegistryCall H)} (h : SameCalls calls calls')
    {index : Int} {c : Content} (hdef : Defines calls index c) : Defines calls' index c := by
  obtain ⟨call, hmem, hcall⟩ := hdef
  cases call with
  | definition index' name signature => exact ⟨_, (h.definitions _ _ _).mp hmem, hcall⟩
  | dispatcher d handler =>
      obtain ⟨handler', hmem'⟩ := (h.adds d).mp ⟨handler, hmem⟩
      exact ⟨_, hmem', hcall⟩

theorem Consistent.same {calls calls' : List (RegistryCall H)} (hc : Consistent calls)
    (h : SameCalls calls calls') : Consistent calls' where
  classes := fun d d' hd hd' => hc.classes d d' ((h.adds d).mpr hd) ((h.adds d').mpr hd')
  contents := fun d d' hd hd' => hc.contents d d' ((h.adds d).mpr hd) ((h.adds d').mpr hd')
  signature := fun d hd => hc.signature d ((h.adds d).mpr hd)
  builtin := fun d hd hb =>
    ⟨fun d' hd' => (hc.builtin d ((h.adds d).mpr hd) hb).1 d' ((h.adds d').mpr hd'),
      fun index signature hdef =>
        (hc.builtin d ((h.adds d).mpr hd) hb).2 index signature (h.symm.defines hdef)⟩
  definition := fun index c c' hdef hdef' =>
    hc.definition index c c' (h.symm.defines hdef) (h.symm.defines hdef')
  index := fun index index' c hdef hdef' =>
    hc.index index index' c (h.symm.defines hdef) (h.symm.defines hdef')

theorem Current.same {calls calls' : List (RegistryCall H)} (h : SameCalls calls calls')
    {e : Entry H} (hcurrent : Current calls' e) : Current calls e where
  added := by
    intro d hd hcontent
    rw [h.handlers]
    exact hcurrent.added d ((h.adds d).mp hd) hcontent
  missing := fun hnone => hcurrent.missing fun d hd => hnone d ((h.adds d).mpr hd)

/-- Entries that are current, and of one definition, have one dispatcher and one handler. -/
theorem Current.unique {calls : List (RegistryCall H)} {e e' : Entry H} (h : Current calls e)
    (h' : Current calls e') (hcontent : e.content = e'.content) :
    e.dispatcher = e'.dispatcher ∧ e.handler = e'.handler := by
  by_cases hadds : ∃ d, Adds calls d ∧ d.content = e.content
  · obtain ⟨d, hd, hd'⟩ := hadds
    obtain ⟨hdispatcher, hhandler⟩ := h.added d hd hd'
    obtain ⟨hdispatcher', hhandler'⟩ := h'.added d hd (hd'.trans hcontent)
    refine ⟨hdispatcher.trans hdispatcher'.symm, ?_⟩
    rw [hhandler, Option.some.injEq] at hhandler'
    exact hhandler'
  · have hnone : ∀ d, Adds calls d → d.content ≠ e.content :=
      fun d hd hd' => hadds ⟨d, hd, hd'⟩
    obtain ⟨hdispatcher, hhandler⟩ := h.missing hnone
    obtain ⟨hdispatcher', hhandler'⟩ := h'.missing (hcontent ▸ hnone)
    exact ⟨hdispatcher.trans hdispatcher'.symm, hhandler.trans hhandler'.symm⟩

/-- Whatever the order of the calls and of the maps, no call throws, and an index leads to the
dispatcher for its definition, if there is one, and to the handler given last for it. -/
theorem get_order_independent (h h' : Nat → IterationOrder Nat)
    (calls calls' : List (RegistryCall H)) (hc : Consistent calls)
    (hsame : SameCalls calls calls') :
    ∃ r r', runCalls h DecoderRegistry.new calls = .ok r ∧
      runCalls h' DecoderRegistry.new calls' = .ok r' ∧
      (∀ index c, Defines calls index c → ∃ e e', r.get index = some e ∧
        r'.get index = some e' ∧ e.dispatcher = e'.dispatcher ∧ e.handler = e'.handler ∧
        (∀ d, Adds calls d → d.content = c →
          e.dispatcher = some d ∧ lastHandler calls d = some e.handler) ∧
        ((∀ d, Adds calls d → d.content ≠ c) → e.dispatcher = none ∧ e.handler = none)) ∧
      ∀ index, (∀ c, ¬ Defines calls index c) → r.get index = none ∧ r'.get index = none := by
  have hc' := hc.same hsame
  obtain ⟨r, hrun, hinv⟩ := RegistryInv.run_calls calls h [] _ registryInv_new hc
  obtain ⟨r', hrun', hinv'⟩ := RegistryInv.run_calls calls' h' [] _ registryInv_new hc'
  rw [List.nil_append] at hinv hinv'
  refine ⟨r, r', hrun, hrun', ?_, ?_⟩
  · intro index c hdef
    obtain ⟨e, hget, hcontent, hcurrent⟩ := hinv.get_spec hc hdef
    obtain ⟨e', hget', hcontent', hcurrent'⟩ := hinv'.get_spec hc' (hsame.defines hdef)
    obtain ⟨hdispatcher, hhandler⟩ :=
      hcurrent.unique (hcurrent'.same hsame) (hcontent.trans hcontent'.symm)
    rw [← hcontent]
    exact ⟨e, e', hget, hget', hdispatcher, hhandler, hcurrent.added, hcurrent.missing⟩
  · intro index hdef
    exact ⟨hinv.get_none hdef,
      hinv'.get_none fun c hdef' => hdef c (hsame.symm.defines hdef')⟩

/-- A definition before and after its dispatcher, which gets two handlers. -/
theorem get_order_independent_two :
    ∃ r r', runCalls (fun _ => ⟨id, List.Perm.refl⟩) DecoderRegistry.new
        [.definition 64 "theInt" [35], .dispatcher ⟨.user 1, "theInt", some [35]⟩ (some 7),
          .dispatcher ⟨.user 1, "theInt", some [35]⟩ (some 8)] = .ok r ∧
      runCalls (fun _ => ⟨List.reverse, List.reverse_perm⟩) DecoderRegistry.new
        [.dispatcher ⟨.user 1, "theInt", some [35]⟩ (some 8), .definition 64 "theInt" [35],
          .definition 64 "theInt" [35]] = .ok r' ∧
      ∃ e e' : Entry Nat, r.get 64 = some e ∧ r'.get 64 = some e' ∧
        e.dispatcher = e'.dispatcher ∧ e.handler = e'.handler ∧
        e.dispatcher = some ⟨.user 1, "theInt", some [35]⟩ ∧ e.handler = some 8 := by
  have hadds : ∀ d, Adds ([.definition 64 "theInt" [35],
      .dispatcher ⟨.user 1, "theInt", some [35]⟩ (some 7),
      .dispatcher ⟨.user 1, "theInt", some [35]⟩ (some 8)] : List (RegistryCall Nat)) d ↔
      d = ⟨.user 1, "theInt", some [35]⟩ := by
    intro d
    simp [Adds, exists_or]
  have hdefines : ∀ index c, Defines ([.definition 64 "theInt" [35],
      .dispatcher ⟨.user 1, "theInt", some [35]⟩ (some 7),
      .dispatcher ⟨.user 1, "theInt", some [35]⟩ (some 8)] : List (RegistryCall Nat)) index c ↔
      64 = index ∧ ("theInt", some [35]) = c := by
    intro index c
    simp [Defines, RegistryCall.defines, builtinIndex]
  obtain ⟨r, r', hrun, hrun', hget, -⟩ := get_order_independent
    (fun _ => ⟨id, List.Perm.refl⟩) (fun _ => ⟨List.reverse, List.reverse_perm⟩)
    [.definition 64 "theInt" [35], .dispatcher ⟨.user 1, "theInt", some [35]⟩ (some 7),
      .dispatcher ⟨.user 1, "theInt", some [35]⟩ (some 8)]
    [.dispatcher ⟨.user 1, "theInt", some [35]⟩ (some 8), .definition 64 "theInt" [35],
      .definition 64 "theInt" [35]]
    { classes := fun d d' hd hd' _ => ((hadds d).mp hd).trans ((hadds d').mp hd').symm
      contents := fun d d' hd hd' _ => ((hadds d).mp hd).trans ((hadds d').mp hd').symm
      signature := by
        intro d hd _
        rw [(hadds d).mp hd]
        rfl
      builtin := by
        intro d hd hb
        rw [(hadds d).mp hd] at hb
        simp [builtinIndex] at hb
      definition := fun index c c' h h' =>
        ((hdefines index c).mp h).2.symm.trans ((hdefines index c').mp h').2
      index := fun index index' c h h' =>
        ((hdefines index c).mp h).1.symm.trans ((hdefines index' c).mp h').1 }
    ⟨by simp, by
      intro d
      by_cases hd : d = ⟨.user 1, "theInt", some [35]⟩
      · simp [lastHandler, hd]
      · simp [lastHandler, Ne.symm hd]⟩
  obtain ⟨e, e', hval, hval', hdispatcher, hhandler, hadded, -⟩ :=
    hget 64 ("theInt", some [35]) ((hdefines _ _).mpr ⟨rfl, rfl⟩)
  obtain ⟨hd, hlast⟩ := hadded _ ((hadds _).mpr rfl) rfl
  refine ⟨r, r', hrun, hrun', e, e', hval, hval', hdispatcher, hhandler, hd, ?_⟩
  simpa [lastHandler, eq_comm] using hlast

end LabComm.Java
