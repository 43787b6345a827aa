import LabComm.C.Delivery
import LabComm.Java.DecoderSession

set_option autoImplicit false

/-! # From a C encoder to a Java decoder

Any sequence of calls of a C encoder, and a Java program that runs a `DecoderChannel` on what the
encoder wrote. What both registries of the channel have been given is determined by the
registrations of the program and by what the encoder has been told (`InStep`), whatever the orders
of the maps are. From that, by induction on the calls, the Java handlers are called with the samples
that were encoded, in their order, each of them once (`receiveAll_delivers`).
-/

namespace LabComm.Java.DecoderSession

open Library Compiler
open Python (utf8 decodeUtf8_eq_some)

/-! ## Calls of methods -/

section On

variable {α β : Type} {m : SessionM α} {f : α → SessionM β} {ch ch' : Channel} {a : α}
  {e : SessionException}

/-- A call of a method on a channel. -/
def on (m : SessionM α) (ch : Channel) : Except SessionException α × Channel := (m.run).run ch

theorem on_bind_ok (h : on m ch = (.ok a, ch')) : on (m >>= f) ch = on (f a) ch' := by
  show (ExceptT.bindCont f (on m ch).1 : StateM _ _) (on m ch).2 = _
  rw [h]
  rfl

theorem on_bind_error (h : on m ch = (.error e, ch')) : on (m >>= f) ch = (.error e, ch') := by
  show (ExceptT.bindCont f (on m ch).1 : StateM _ _) (on m ch).2 = _
  rw [h]
  rfl

theorem on_catch_ok {g : SessionException → SessionM α} (h : on m ch = (.ok a, ch')) :
    on (tryCatch m g) ch = (.ok a, ch') := by
  have hm : StateT.run m ch = (.ok a, ch') := h
  show StateT.run (ExceptT.run (ExceptT.tryCatch m g)) ch = _
  rw [ExceptT.tryCatch, ExceptT.run_mk, StateT.run_bind, hm]
  rfl

theorem on_catch_error {g : SessionException → SessionM α} (h : on m ch = (.error e, ch')) :
    on (tryCatch m g) ch = on (g e) ch' := by
  have hm : StateT.run m ch = (.error e, ch') := h
  show StateT.run (ExceptT.run (ExceptT.tryCatch m g)) ch = _
  rw [ExceptT.tryCatch, ExceptT.run_mk, StateT.run_bind, hm]
  rfl

theorem on_reading {p : ChannelM α} {q : List UInt8} (h : p.on ch.input = (.ok a, q)) :
    on (reading p) ch = (.ok a, { ch with input := q }) := by
  show ((p.on ch.input).1.mapError SessionException.channel,
    ({ ch with input := (p.on ch.input).2 } : Channel)) = _
  rw [h]
  rfl

theorem on_reading_error {p : ChannelM α} {q : List UInt8} {x : ChannelException}
    (h : p.on ch.input = (.error x, q)) :
    on (reading p) ch = (.error (.channel x), { ch with input := q }) := by
  show ((p.on ch.input).1.mapError SessionException.channel,
    ({ ch with input := (p.on ch.input).2 } : Channel)) = _
  rw [h]
  rfl

variable {f : DecoderRegistry Nat → Except RegistryException (DecoderRegistry Nat)}
  {r : DecoderRegistry Nat}

theorem on_addToDefs (h : f ch.defRegistry = .ok r) :
    on (addToDefs f) ch = (.ok (), { ch with defRegistry := r }) := by
  show added ch (fun r => { ch with defRegistry := r }) (f ch.defRegistry) = _
  rw [h]
  rfl

theorem on_addToRefs (h : f ch.refRegistry = .ok r) :
    on (addToRefs f) ch = (.ok (), { ch with refRegistry := r }) := by
  show added ch (fun r => { ch with refRegistry := r }) (f ch.refRegistry) = _
  rw [h]
  rfl

end On

/-! ## What both sides have been told -/

variable (w : Program)

/-- The name and the signature of a definition, as they are received. -/
def contentOf (s : C.Signature) : Content := (newString w.malformed s.name, some s.bytes)

/-- The call of `add` that a definition leads to. -/
def definitionOf (s : C.Signature) : RegistryCall Nat :=
  .definition s.index (newString w.malformed s.name) s.bytes

/-- Some registrations, and then definitions, of which the list has the latest first. -/
def announced (regs : List (Dispatcher × Option Nat)) (sent : List C.Signature) :
    List (RegistryCall Nat) :=
  regs.map (fun x => .dispatcher x.1 x.2) ++ sent.reverse.map (definitionOf w)

/-- What a program has registered, in order. -/
structure Subscriptions where
  samples : List (Dispatcher × Nat)
  refs : List Dispatcher

/-- What `def_registry` has been given. -/
def Subscriptions.defCalls (y : Subscriptions) (t : C.Told) : List (RegistryCall Nat) :=
  announced w (y.samples.map fun x => (x.1, some x.2)) (t .registered)

/-- What `ref_registry` has been given. -/
def Subscriptions.refCalls (y : Subscriptions) (t : C.Told) : List (RegistryCall Nat) :=
  announced w (y.refs.map fun d => (d, none)) (t .sampleRef)

/-- The registries of a channel that has read everything the encoder was told to send. -/
structure InStep (y : Subscriptions) (t : C.Told) (ch : Channel) : Prop where
  defs : RegistryInv (y.defCalls w t) ch.defRegistry
  refs : RegistryInv (y.refCalls w t) ch.refRegistry

/-- Generated classes, each with one dispatcher, and with a name and a signature of its own. -/
structure Distinguished (ds : List Dispatcher) : Prop where
  user : ∀ d ∈ ds, builtinIndex d.sampleClass = none
  signature : ∀ d ∈ ds, d.signature.isSome = true
  classes : ∀ d ∈ ds, ∀ d' ∈ ds, d.sampleClass = d'.sampleClass → d = d'
  contents : ∀ d ∈ ds, ∀ d' ∈ ds, d.content = d'.content → d = d'

/-- Signatures whose indices and whose contents are their own. -/
structure Identified (L : C.Signature → Prop) : Prop where
  hasIndex : ∀ s, L s → s.HasIndex
  index : ∀ s s', L s → L s' → s.index = s'.index → s = s'
  content : ∀ s s', L s → L s' → contentOf w s = contentOf w s' → s = s'

section Announced

variable {w} {regs : List (Dispatcher × Option Nat)} {sent : List C.Signature}

theorem announced_cons (s : C.Signature) :
    announced w regs (s :: sent) = announced w regs sent ++ [definitionOf w s] := by
  rw [announced, announced, List.reverse_cons, List.map_append, List.append_assoc]
  rfl

theorem announced_register (x : Dispatcher × Option Nat) :
    announced w (regs ++ [x]) [] = announced w regs [] ++ [.dispatcher x.1 x.2] := by
  simp [announced]

theorem adds_announced {d : Dispatcher} :
    Adds (announced w regs sent) d ↔ d ∈ regs.map Prod.fst := by
  unfold Adds announced
  simp only [List.mem_append, List.mem_map, List.mem_reverse, definitionOf, reduceCtorEq, and_false,
    exists_false, or_false, RegistryCall.dispatcher.injEq]
  constructor
  · rintro ⟨handler, x, hx, rfl, rfl⟩
    exact ⟨x, hx, rfl⟩
  · rintro ⟨x, hx, rfl⟩
    exact ⟨x.2, x, hx, rfl, rfl⟩

theorem defines_announced (h : ∀ d ∈ regs.map Prod.fst, builtinIndex d.sampleClass = none)
    {index : Int} {c : Content} :
    Defines (announced w regs sent) index c ↔ ∃ s ∈ sent, s.index = index ∧ contentOf w s = c := by
  unfold Defines announced
  constructor
  · rintro ⟨call, hcall, hdef⟩
    rcases List.mem_append.mp hcall with hreg | hsent
    · obtain ⟨x, hx, rfl⟩ := List.mem_map.mp hreg
      rw [RegistryCall.defines, h x.1 (List.mem_map_of_mem hx)] at hdef
      cases hdef
    · obtain ⟨s, hs, rfl⟩ := List.mem_map.mp hsent
      cases hdef
      exact ⟨s, List.mem_reverse.mp hs, rfl, rfl⟩
  · rintro ⟨s, hs, rfl, rfl⟩
    have hmem := List.mem_map_of_mem (f := definitionOf w) (List.mem_reverse.mpr hs)
    exact ⟨definitionOf w s, List.mem_append_right _ hmem, rfl⟩

/-- Such calls are consistent. -/
theorem announced_consistent {L : C.Signature → Prop} (hL : Identified w L)
    (hregs : Distinguished (regs.map Prod.fst)) (hsent : ∀ s ∈ sent, L s) :
    Consistent (announced w regs sent) where
  classes d d' hd hd' := hregs.classes d (adds_announced.mp hd) d' (adds_announced.mp hd')
  contents d d' hd hd' := hregs.contents d (adds_announced.mp hd) d' (adds_announced.mp hd')
  signature d hd _ := hregs.signature d (adds_announced.mp hd)
  builtin d hd hbuiltin := by
    rw [hregs.user d (adds_announced.mp hd)] at hbuiltin
    cases hbuiltin
  definition index c c' h h' := by
    obtain ⟨s, hs, hindex, rfl⟩ := (defines_announced hregs.user).mp h
    obtain ⟨s', hs', hindex', rfl⟩ := (defines_announced hregs.user).mp h'
    rw [hL.index s s' (hsent s hs) (hsent s' hs') (hindex.trans hindex'.symm)]
  index index index' c h h' := by
    obtain ⟨s, hs, rfl, hcontent⟩ := (defines_announced hregs.user).mp h
    obtain ⟨s', hs', rfl, hcontent'⟩ := (defines_announced hregs.user).mp h'
    rw [hL.content s s' (hsent s hs) (hsent s' hs') (hcontent.trans hcontent'.symm)]

/-- Definitions do not change handlers. -/
theorem lastHandler_announced (d : Dispatcher) :
    lastHandler (announced w regs sent) d = lastHandler (announced w regs []) d := by
  induction sent with
  | nil => rfl
  | cons s sent ih =>
      rw [announced_cons, lastHandler_append]
      exact ih

/-- A dispatcher has a handler that it was registered with. -/
theorem lastHandler_mem {samples : List (Dispatcher × Nat)} {d : Dispatcher}
    (h : d ∈ samples.map Prod.fst) :
    ∃ handler, (d, handler) ∈ samples ∧
      lastHandler (announced w (samples.map fun x => (x.1, some x.2)) []) d =
        some (some handler) := by
  induction samples using List.reverseRecOn with
  | nil => cases h
  | append_singleton samples x ih =>
      rw [List.map_append, List.map_singleton, announced_register, lastHandler_append]
      dsimp only
      -- the last registration counts
      by_cases hx : x.1 = d
      · rw [if_pos hx]
        exact ⟨x.2, List.mem_append_right _ (List.mem_singleton.mpr (by rw [← hx])), rfl⟩
      · rw [if_neg hx]
        have hmem : d ∈ samples.map Prod.fst := by
          rw [List.map_append, List.mem_append] at h
          refine h.resolve_right fun hsingle => hx ?_
          exact (List.mem_singleton.mp hsingle).symm
        obtain ⟨handler, hhandler, hlast⟩ := ih hmem
        exact ⟨handler, List.mem_append_left _ hhandler, hlast⟩

end Announced

/-! ## What is delivered -/

/-- The dispatcher for a sample type of the sender. -/
def Subscriptions.dispatcher (y : Subscriptions) (s : C.Signature) : Option Dispatcher :=
  (y.samples.map Prod.fst).find? fun d => d.content = contentOf w s

/-- The handler that a dispatcher was registered with last. -/
def Subscriptions.handler (y : Subscriptions) (d : Dispatcher) : Option Nat :=
  (lastHandler (announced w (y.samples.map fun x => (x.1, some x.2)) []) d).join

/-- The class for a reference of the sender. -/
def Subscriptions.classOf (y : Subscriptions) (s : C.Signature) : Option Nat :=
  (y.refs.find? fun d => d.content = contentOf w s).map fun d => classNumber d.sampleClass

/-- The classes for the indices of the sender: there is none unless both sides have registered the
reference. -/
def Subscriptions.channels (y : Subscriptions) (t : C.Told) : Generated.Channels :=
  ⟨fun _ => none, fun index =>
    ((t .sampleRef).find? fun s => s.index = index.toInt).bind (y.classOf w), w.malformed⟩

/-- The calls of handlers that a call of the encoder leads to. -/
def Subscriptions.callsOf (y : Subscriptions) (t : C.Told) : C.Operation → List HandlerCall
  | .encode s type v =>
      if t.has .registered s.index then
        ((y.dispatcher w s).bind (y.handler w)).toList.map fun handler =>
          ⟨handler, .user (Generated.received (y.channels w t) t.refs type v)⟩
      else []
  | _ => []

/-- The calls of handlers that all calls of the encoder lead to, in order. -/
def Subscriptions.calls (y : Subscriptions) : C.Told → List C.Operation → List HandlerCall
  | _, [] => []
  | t, op :: ops => y.callsOf w t op ++ y.calls (t.after op) ops

section Lookup

variable {w} {y : Subscriptions} {t : C.Told} {L : C.Signature → Prop} {ch : Channel}

theorem find?_content {ds : List Dispatcher} {c : Content} {d : Dispatcher}
    (h : (ds.find? fun d => d.content = c) = some d) : d ∈ ds ∧ d.content = c :=
  ⟨List.mem_of_find?_eq_some h, of_decide_eq_true
    (List.find?_some (p := fun d : Dispatcher => decide (d.content = c)) h)⟩

theorem samples_fst (samples : List (Dispatcher × Nat)) :
    (samples.map fun x => (x.1, some x.2)).map Prod.fst = samples.map Prod.fst := by
  rw [List.map_map]
  rfl

theorem refs_fst (refs : List Dispatcher) :
    (refs.map fun d => (d, (none : Option Nat))).map Prod.fst = refs := by
  rw [List.map_map]
  exact List.map_id refs

/-- What is known of the two sides and of what has been told. -/
structure Context (w : Program) (L : C.Signature → Prop) (y : Subscriptions) (t : C.Told) :
    Prop where
  sender : Identified w L
  samples : Distinguished (y.samples.map Prod.fst)
  refs : Distinguished y.refs
  told : ∀ table, ∀ s ∈ t table, L s

variable (hc : Context w L y t)

include hc

theorem Context.defCalls : Consistent (y.defCalls w t) := by
  refine announced_consistent hc.sender ?_ (hc.told .registered)
  rw [samples_fst]
  exact hc.samples

theorem Context.refCalls : Consistent (y.refCalls w t) := by
  refine announced_consistent hc.sender ?_ (hc.told .sampleRef)
  rw [refs_fst]
  exact hc.refs

theorem Context.defines_def {index : Int} {c : Content} :
    Defines (y.defCalls w t) index c ↔ ∃ s ∈ t .registered, s.index = index ∧ contentOf w s = c :=
  defines_announced (by rw [samples_fst]; exact hc.samples.user)

theorem Context.defines_ref {index : Int} {c : Content} :
    Defines (y.refCalls w t) index c ↔ ∃ s ∈ t .sampleRef, s.index = index ∧ contentOf w s = c :=
  defines_announced (by rw [refs_fst]; exact hc.refs.user)

/-- A sample type that was defined leads to its dispatcher and its handler. -/
theorem InStep.handling_eq (h : InStep w y t ch) {s : C.Signature} (hs : s ∈ t .registered)
    {d : Dispatcher} (hd : y.dispatcher w s = some d) :
    (ch.defRegistry.get s.index).bind handling =
      (y.handler w d).map fun handler => (d, handler) := by
  obtain ⟨e, hget, hcontent, hcurrent⟩ := h.defs.get_spec hc.defCalls
    (hc.defines_def.mpr ⟨s, hs, rfl, rfl⟩)
  obtain ⟨hmem, hsame⟩ := find?_content hd
  have hadds : Adds (y.defCalls w t) d := adds_announced.mpr (by rw [samples_fst]; exact hmem)
  obtain ⟨hdispatcher, hlast⟩ := hcurrent.added d hadds (hsame.trans hcontent.symm)
  rw [Subscriptions.defCalls, lastHandler_announced] at hlast
  have hhandler : y.handler w d = e.handler := by
    rw [Subscriptions.handler, hlast]
    rfl
  rw [hget, Option.bind_some, handling, hdispatcher, Option.bind_some, hhandler]

/-- No definition has the tag of another packet. -/
theorem InStep.get_system (h : InStep w y t ch) {tag : Int} (htag : tag < LABCOMM_USER) :
    ch.defRegistry.get tag = none := by
  refine h.defs.get_none fun c hdef => ?_
  obtain ⟨s, hs, rfl, _⟩ := hc.defines_def.mp hdef
  have hindex := (hc.sender.hasIndex s (hc.told .registered s hs)).1
  omega

/-- **The classes of references** are those that both sides have registered. -/
theorem InStep.channels_eq (h : InStep w y t ch) :
    w.channels ch.refRegistry = y.channels w t := by
  unfold Program.channels Subscriptions.channels
  congr 1
  funext index
  cases hfind : (t .sampleRef).find? fun s => s.index = index.toInt with
  | none =>
      -- the sender has not announced the index
      rw [h.refs.get_none fun c hdef => ?_]
      · rfl
      · obtain ⟨s, hs, hindex, _⟩ := hc.defines_ref.mp hdef
        rw [List.find?_eq_none] at hfind
        exact hfind s hs (decide_eq_true hindex)
  | some s =>
      have hs := List.mem_of_find?_eq_some hfind
      have hindex : s.index = index.toInt := of_decide_eq_true
        (List.find?_some (p := fun s : C.Signature => decide (s.index = index.toInt)) hfind)
      obtain ⟨e, hget, hcontent, hcurrent⟩ := h.refs.get_spec hc.refCalls
        (hc.defines_ref.mpr ⟨s, hs, hindex, rfl⟩)
      rw [hget, Option.bind_some, Option.bind_some, Subscriptions.classOf]
      cases hclass : y.refs.find? fun d => d.content = contentOf w s with
      | none =>
          -- announced, but no class of the receiver: the entry has no dispatcher
          rw [List.find?_eq_none] at hclass
          have hmissing : ∀ d, Adds (y.refCalls w t) d → d.content ≠ e.content := by
            intro d hd hsame
            have hmem := adds_announced.mp hd
            rw [refs_fst] at hmem
            exact hclass d hmem (decide_eq_true (hsame.trans hcontent))
          rw [(hcurrent.missing hmissing).1]
      | some d =>
          obtain ⟨hmem, hsame⟩ := find?_content hclass
          have hadds : Adds (y.refCalls w t) d := adds_announced.mpr (by rw [refs_fst]; exact hmem)
          rw [(hcurrent.added d hadds (hsame.trans hcontent.symm)).1]

end Lookup

/-! ## One packet -/

section Packets

variable {w} {y : Subscriptions} {t : C.Told} {L : C.Signature → Prop} {ch : Channel}

open DecoderChannel

/-- A number is read. -/
theorem readPacked32_on {k : Nat} (hk : k < 2 ^ 31) (rest : List UInt8) :
    readPacked32.on (packed32 k ++ rest) = (.ok (k : Int), rest) := by
  rw [refines_packed32.on_append (decodePacked32_consumes (by omega)) rest, wrap32_natCast hk]

/-- The header of a packet is read. -/
theorem round_eq {p : Packet} {rest : List UInt8} (hwf : p.WellFormed)
    (hread : ch.input = p.bytes ++ rest) :
    on (round w) ch =
      on (processPacket w p.tag p.body.length) { ch with input := p.body ++ rest } := by
  have htag : on (reading readPacked32) ch =
      (.ok (p.tag : Int), { ch with input := packed32 p.body.length ++ (p.body ++ rest) }) := by
    refine on_reading ?_
    rw [hread, p.bytes_eq, Packet.header, List.append_assoc, List.append_assoc]
    exact readPacked32_on hwf.tag_lt _
  have hlength : on (reading readPacked32)
      { ch with input := packed32 p.body.length ++ (p.body ++ rest) } =
        (.ok (p.body.length : Int), { ch with input := p.body ++ rest }) :=
    on_reading (readPacked32_on hwf.length _)
  rw [round, on_bind_ok htag, on_bind_ok hlength]

theorem readDefinition_on {k : Nat} {name signature rest : List UInt8} (hk : k < 2 ^ 31)
    (hlen : (definitionBytes k [nameIntention name] signature).length < 2 ^ 31) :
    (readDefinition w).on (definitionBytes k [nameIntention name] signature ++ rest) =
      (.ok ((k : Int), newString w.malformed name, signature), rest) := by
  obtain ⟨hcount, hsig, hall⟩ :=
    (TypeDefBody.mk k [nameIntention name] signature (by omega) hlen).lengths_lt
  have hname := fun r => (refines_intentions "").on_append
    (decodeIntentions_consumes (newString w.malformed) hcount hall "") r
  have hsiglen := fun r => readPacked32_on hsig r
  have hneg : ¬ (signature.length : Int) < 0 := by omega
  have hbytes : ∀ r, (readArray (signature.length : Int)).on (signature ++ r) =
      (.ok signature, r) := by
    intro r
    rw [readArray, if_neg hneg, Int.toNat_natCast]
    exact (readTimes_takes signature.length signature).on_append ⟨rfl, rfl⟩ r
  rw [definitionBytes, counted]
  simp only [List.append_assoc]
  unfold readDefinition
  rw [on_bind, readPacked32_on hk]
  simp only [on_bind, hname, hsiglen, hbytes, on_pure]
  rfl

theorem on_get {α : Type} {f : Channel → SessionM α} : on (get >>= f) ch = on (f ch) ch := rfl

/-- Nothing is read when there is no handler. -/
theorem processSample_unhandled {tag : Int} (hget : (ch.defRegistry.get tag).bind handling = none) :
    on (processSample w tag) ch = (.error (.channel .unhandled), ch) := by
  rw [processSample, on_get, hget]
  rfl

/-- A sample is decoded, and its handler is called. -/
theorem processSample_handled {tag : Int} {d : Dispatcher} {handler id : Nat}
    (hget : (ch.defRegistry.get tag).bind handling = some (d, handler))
    (hid : d.sampleClass = .user id) (haccepts : w.accepts handler d.sampleClass = true)
    (hthrows : ∀ sample, w.throws handler sample ≠ some .io) {v : Generated.Value}
    {rest : List UInt8}
    (hread : (Generated.readValue (w.channels ch.refRegistry) (w.type id)).on ch.input =
      (.ok v, rest)) :
    on (processSample w tag) ch =
      (.ok (), { ch with input := rest, calls := ch.calls ++ [⟨handler, .user v⟩] }) := by
  have hdecode : on (decodeSample w d.sampleClass) ch =
      (.ok (.user v), { ch with input := rest }) := by
    rw [hid, decodeSample, on_get, on_bind_ok (on_reading hread)]
    rfl
  rw [processSample, on_get, hget]
  dsimp only
  cases hthrow : w.throws handler (.user v) with
  | none =>
      refine on_catch_ok ?_
      rw [decodeAndHandle, if_pos haccepts, on_bind_ok hdecode]
      unfold callHandler
      rw [hthrow]
      rfl
  | some e =>
      -- another exception than an `IOException` is caught, and printed
      cases e with
      | io => exact absurd hthrow (hthrows _)
      | other =>
          have hhandle : on (decodeAndHandle w d.sampleClass handler) ch =
              (.error (.channel (.handler .other)),
                { ch with input := rest, calls := ch.calls ++ [⟨handler, .user v⟩] }) := by
            rw [decodeAndHandle, if_pos haccepts, on_bind_ok hdecode]
            unfold callHandler
            rw [hthrow]
            rfl
          rw [on_catch_error hhandle]
          rfl

/-- One round of the loop reads up to `rest` and makes the calls. -/
def Takes (w : Program) (ch : Channel) (rest : List UInt8) (calls : List HandlerCall)
    (After : Channel → Prop) : Prop :=
  ∃ done ch', on (round w) ch = (.ok done, ch') ∧ ch'.input = rest ∧
    ch'.calls = ch.calls ++ calls ∧ After ch'

/-- The call of `add` in a registry that is in order. -/
theorem addDefinition_ok {calls : List (RegistryCall Nat)} {r : DecoderRegistry Nat}
    (hinv : RegistryInv calls r) {s : C.Signature}
    (hc : Consistent (calls ++ [definitionOf w s])) (order : IterationOrder Nat) :
    ∃ r', r.addDefinition order s.index (newString w.malformed s.name) (some s.bytes) = .ok r' ∧
      RegistryInv (calls ++ [definitionOf w s]) r' := hinv.run_call order hc

/-- What is read of a definition that an encoder sent. -/
theorem readDefinition_sent {table : C.Table} {s : C.Signature} {rest : List UInt8}
    (hs : s.HasIndex) (hfits : C.PacketFits table s) (htable : table ≠ .typedefs)
    (hinput : ch.input = (C.definition table s).body ++ rest) :
    on (reading (readDefinition w)) ch =
      (.ok (s.index, newString w.malformed s.name, s.bytes), { ch with input := rest }) := by
  have hbody : (C.definition table s).body =
      definitionBytes (toUnsigned s.index) [nameIntention s.name] s.bytes := by
    cases table with
    | registered => rfl
    | sampleRef => rfl
    | typedefs => exact absurd rfl htable
  have hlength := hfits.length
  rw [hbody] at hlength
  refine on_reading ?_
  rw [hinput, hbody, readDefinition_on hs.userIndex.2 hlength, hs.toUnsigned_eq]

section Definitions

variable {s : C.Signature} {rest : List UInt8} (h : InStep w y t ch) (hs : s.HasIndex)

include h hs

/-- **A definition is given to the registry.** -/
theorem InStep.takes_sampleDef (hc : Context w L y (t.add .registered s))
    (hnew : t.has .registered s.index = false) (hfits : C.PacketFits .registered s)
    (hread : ch.input = (C.definition .registered s).bytes ++ rest) :
    Takes w ch rest [] (InStep w y (t.add .registered s)) := by
  have hround := round_eq (w := w) (C.definition_wellFormed hs hfits) hread
  have htag : (C.definition .registered s).tag = LABCOMM_SAMPLE_DEF := rfl
  have hcalls : y.defCalls w (t.add .registered s) = y.defCalls w t ++ [definitionOf w s] := by
    rw [Subscriptions.defCalls, C.Told.add_of_not_has hnew, announced_cons]
    rfl
  have hrefs : y.refCalls w (t.add .registered s) = y.refCalls w t := by
    rw [Subscriptions.refCalls, C.Told.add_of_ne (by decide)]
    rfl
  have hconsistent := hc.defCalls
  rw [hcalls] at hconsistent
  obtain ⟨r, hadd, hinv⟩ := addDefinition_ok h.defs hconsistent (w.order ch.defRegistry)
  refine ⟨false, { ch with input := rest, defRegistry := r }, ?_, rfl,
    (List.append_nil _).symm, ⟨?_, ?_⟩⟩
  · have hprocess : on (processSampleDef w)
        { ch with input := (C.definition .registered s).body ++ rest } =
          (.ok (), { ch with input := rest, defRegistry := r }) := by
      rw [processSampleDef, on_bind_ok (readDefinition_sent hs hfits (by decide) rfl)]
      exact on_addToDefs hadd
    rw [hround, htag, processPacket, if_neg (by decide), if_pos rfl, on_bind_ok hprocess]
    rfl
  · rw [hcalls]
    exact hinv
  · rw [hrefs]
    exact h.refs

/-- **An announcement is given to the other registry.** -/
theorem InStep.takes_sampleRef (hc : Context w L y (t.add .sampleRef s))
    (hnew : t.has .sampleRef s.index = false) (hfits : C.PacketFits .sampleRef s)
    (hread : ch.input = (C.definition .sampleRef s).bytes ++ rest) :
    Takes w ch rest [] (InStep w y (t.add .sampleRef s)) := by
  have hround := round_eq (w := w) (C.definition_wellFormed hs hfits) hread
  have htag : (C.definition .sampleRef s).tag = LABCOMM_SAMPLE_REF := rfl
  have hcalls : y.refCalls w (t.add .sampleRef s) = y.refCalls w t ++ [definitionOf w s] := by
    rw [Subscriptions.refCalls, C.Told.add_of_not_has hnew, announced_cons]
    rfl
  have hdefs : y.defCalls w (t.add .sampleRef s) = y.defCalls w t := by
    rw [Subscriptions.defCalls, C.Told.add_of_ne (by decide)]
    rfl
  have hconsistent := hc.refCalls
  rw [hcalls] at hconsistent
  obtain ⟨r, hadd, hinv⟩ := addDefinition_ok h.refs hconsistent (w.order ch.refRegistry)
  refine ⟨false, { ch with input := rest, refRegistry := r }, ?_, rfl,
    (List.append_nil _).symm, ⟨?_, ?_⟩⟩
  · have hprocess : on (processSampleRef w)
        { ch with input := (C.definition .sampleRef s).body ++ rest } =
          (.ok (), { ch with input := rest, refRegistry := r }) := by
      rw [processSampleRef, on_bind_ok (readDefinition_sent hs hfits (by decide) rfl)]
      exact on_addToRefs hadd
    rw [hround, htag, processPacket, if_neg (by decide), if_neg (by decide), if_pos rfl,
      on_bind_ok hprocess]
    rfl
  · rw [hdefs]
    exact h.defs
  · rw [hcalls]
    exact hinv

end Definitions

/-- The registries are those of before, and what has been told is no sample type and no
reference. -/
theorem InStep.congr (h : InStep w y t ch) {ch' : Channel} {t' : C.Told}
    (hdefs : ch'.defRegistry = ch.defRegistry) (hrefs : ch'.refRegistry = ch.refRegistry)
    (hsamples : t' .registered = t .registered) (hreferences : t' .sampleRef = t .sampleRef) :
    InStep w y t' ch' := by
  constructor
  · rw [hdefs, Subscriptions.defCalls, hsamples]
    exact h.defs
  · rw [hrefs, Subscriptions.refCalls, hreferences]
    exact h.refs

section Types

variable {s : C.Signature} {rest : List UInt8} (hc : Context w L y t) (h : InStep w y t ch)
  (hs : s.HasIndex)

include hc h hs

omit hs in
/-- There is no handler for a packet on a type. -/
theorem InStep.unhandled {tag : Int} (htag : tag < LABCOMM_USER) (input : List UInt8) :
    on (processSample w tag) { ch with input := input } =
      (.error (.channel .unhandled), { ch with input := input }) :=
  processSample_unhandled (by
    show (ch.defRegistry.get tag).bind handling = none
    rw [h.get_system hc htag]
    rfl)

/-- **A `TYPE_DEF` is skipped** by the catch block. -/
theorem InStep.takes_typeDef (hfits : C.PacketFits .typedefs s)
    (hread : ch.input = (C.definition .typedefs s).bytes ++ rest) :
    Takes w ch rest [] (InStep w y (t.add .typedefs s)) := by
  have hround := round_eq (w := w) (C.definition_wellFormed hs hfits) hread
  have htag : (C.definition .typedefs s).tag = LABCOMM_TYPE_DEF := rfl
  -- nothing has been read when `processSample` throws
  have hskip : on (reading (skipTypeDef (newString w.malformed) ""))
      { ch with input := (C.definition .typedefs s).body ++ rest } =
        (.ok (wrap32 (toUnsigned s.index), newString w.malformed s.name),
          { ch with input := rest }) := by
    have hk := hs.userIndex.2
    exact on_reading ((TypeDefBody.mk (toUnsigned s.index) [nameIntention s.name] _ (by omega)
      hfits.length).skip_on "" rest)
  have hprocess : on (processTypeDef w)
      { ch with input := (C.definition .typedefs s).body ++ rest } =
        (.ok (), { ch with input := rest }) := by
    rw [processTypeDef, on_catch_error (h.unhandled hc (by decide) _), on_bind_ok hskip]
    rfl
  refine ⟨false, { ch with input := rest }, ?_, rfl, (List.append_nil _).symm,
    h.congr rfl rfl (C.Told.add_of_ne (by decide) t s) (C.Told.add_of_ne (by decide) t s)⟩
  rw [hround, htag, processPacket, if_neg (by decide), if_neg (by decide), if_neg (by decide),
    if_pos rfl, on_bind_ok hprocess]
  rfl

/-- **A `TYPE_BINDING` is skipped**, by its length. -/
theorem InStep.takes_typeBinding (hasDeps : Bool)
    (hread : ch.input = (C.binding s hasDeps).bytes ++ rest) :
    Takes w ch rest [] (InStep w y t) := by
  have hround := round_eq (w := w) (C.binding_wellFormed hs hasDeps) hread
  have htag : (C.binding s hasDeps).tag = LABCOMM_TYPE_BINDING := rfl
  have hskip : on (reading (readTimes ((C.binding s hasDeps).body.length : Int).toNat))
      { ch with input := (C.binding s hasDeps).body ++ rest } =
        (.ok (C.binding s hasDeps).body, { ch with input := rest }) := by
    rw [Int.toNat_natCast]
    exact on_reading ((readTimes_takes _ (C.binding s hasDeps).body).on_append ⟨rfl, rfl⟩ rest)
  have hprocess : on (processTypeBinding w ((C.binding s hasDeps).body.length : Int))
      { ch with input := (C.binding s hasDeps).body ++ rest } =
        (.ok (), { ch with input := rest }) := by
    rw [processTypeBinding, on_catch_error (h.unhandled hc (by decide) _), on_bind_ok hskip]
    rfl
  refine ⟨false, { ch with input := rest }, ?_, rfl, (List.append_nil _).symm,
    h.congr rfl rfl rfl rfl⟩
  rw [hround, htag, processPacket, if_neg (by decide), if_neg (by decide), if_neg (by decide),
    if_neg (by decide), if_pos rfl, on_bind_ok hprocess]
  rfl

end Types

/-! ### Samples -/

/-- What the program needs for a call of the encoder. -/
structure Prepared (w : Program) (L : C.Signature → Prop) (y : Subscriptions) (op : C.Operation) :
    Prop where
  known : L op.signature
  fits : op.Fits
  sample : ∀ s type v, op = .encode s type v →
    ∃ d id, y.dispatcher w s = some d ∧ d.sampleClass = .user id ∧ w.type id = type

/-- Handlers that are of the interface of their class, and that do not end the loop. -/
def Subscriptions.Handles (w : Program) (y : Subscriptions) : Prop :=
  ∀ x ∈ y.samples, w.accepts x.2 x.1.sampleClass = true ∧ ∀ sample, w.throws x.2 sample ≠ some .io

section Samples

variable {s : C.Signature} {type : DataType} {v : Value} {rest : List UInt8}
  (hc : Context w L y t) (hy : y.Handles w)

include hc hy

/-- **A sample is handed to the handler of its dispatcher.** -/
theorem InStep.takes_sample (h : InStep w y t ch) (hop : Prepared w L y (.encode s type v))
    (hhas : t.has .registered s.index = true)
    (hread : ch.input = (Packet.sample (toUnsigned s.index) (wire t.refs type v)).bytes ++ rest) :
    Takes w ch rest (y.callsOf w t (.encode s type v)) (InStep w y t) := by
  have hs : s.HasIndex := hc.sender.hasIndex s hop.known
  have hk := hs.userIndex
  have heq := hs.toUnsigned_eq
  obtain ⟨_, hv, hlen⟩ := hop.fits
  have hlt := hlen t.refs
  have hround := round_eq (w := w) (p := .sample (toUnsigned s.index) (wire t.refs type v))
    ⟨hk, hlt⟩ hread
  -- the type is known to the channel, with its dispatcher and its handler
  obtain ⟨s', hs', hindex⟩ := List.any_eq_true.mp hhas
  obtain rfl : s' = s := hc.sender.index s' s (hc.told .registered s' hs') hop.known
    (of_decide_eq_true hindex)
  obtain ⟨d, id, hd, hid, rfl⟩ := hop.sample s' type v rfl
  obtain ⟨handler, hmem, hlast⟩ := lastHandler_mem (w := w) (List.mem_of_find?_eq_some hd)
  have hhandler : y.handler w d = some handler := by
    rw [Subscriptions.handler, hlast]
    rfl
  have hget := h.handling_eq hc hs' hd
  rw [hhandler, Option.map_some] at hget
  obtain ⟨haccepts, hthrows⟩ := hy (d, handler) hmem
  -- what is read
  have hvalue : (Generated.readValue (w.channels ch.refRegistry) (w.type id)).on
      (wire t.refs (w.type id) v ++ rest) =
        (.ok (Generated.received (y.channels w t) t.refs (w.type id) v), rest) := by
    rw [h.channels_eq hc]
    exact (Generated.refines_readValue _).on_append (Generated.emitDecoder_consumes _ hv
      (C.stringsFit_of_length t.refs _ v hv hlt).below) rest
  have hsample : on (processSample w s'.index)
      { ch with input := wire t.refs (w.type id) v ++ rest } =
        (.ok (), { ch with input := rest, calls := ch.calls ++
          [⟨handler, .user (Generated.received (y.channels w t) t.refs (w.type id) v)⟩] }) := by
    refine processSample_handled ?_ hid haccepts hthrows hvalue
    exact hget
  -- no packet but a sample has a tag of a user type
  have hbig : ∀ tag : Nat, tag < LABCOMM_USER → ((toUnsigned s'.index : Nat) : Int) ≠ tag := by
    intro tag htag
    have := hk.1
    omega
  have hcalls : y.callsOf w t (.encode s' (w.type id) v) =
      [⟨handler, .user (Generated.received (y.channels w t) t.refs (w.type id) v)⟩] := by
    rw [Subscriptions.callsOf, if_pos hhas, hd, Option.bind_some, hhandler]
    rfl
  rw [hcalls]
  refine ⟨true, { ch with input := rest, calls := ch.calls ++
    [⟨handler, .user (Generated.received (y.channels w t) t.refs (w.type id) v)⟩] }, ?_, rfl, rfl,
    h.congr rfl rfl rfl rfl⟩
  rw [hround]
  show on (processPacket w (toUnsigned s'.index : Nat) _) _ = _
  rw [processPacket, if_neg (hbig _ (by decide)), if_neg (hbig _ (by decide)),
    if_neg (hbig _ (by decide)), if_neg (hbig _ (by decide)), if_neg (hbig _ (by decide)),
    if_neg (hbig _ (by decide)), heq]
  exact on_bind_ok hsample

end Samples

/-! ## The loop -/

theorem run_succ {n : Nat} {done : Bool} {ch' : Channel} (h : on (round w) ch = (.ok done, ch')) :
    on (run w (n + 1)) ch = on (run w n) ch' := by
  rw [run, on_bind_ok h]

theorem Context.after (hc : Context w L y t) {op : C.Operation} (hop : Prepared w L y op) :
    Context w L y (t.after op) := by
  refine ⟨hc.sender, hc.samples, hc.refs, fun table s' hs' => ?_⟩
  rcases C.Told.mem_after hs' with hold | rfl
  · exact hc.told table s' hold
  · exact hop.known

/-- **The packets of a call take a round each.** -/
theorem InStep.call (h : InStep w y t ch) (hc : Context w L y t) (hy : y.Handles w)
    {op : C.Operation} (hop : Prepared w L y op) {rest : List UInt8}
    (hread : ch.input = (t.packets op).flatMap Packet.bytes ++ rest) (n : Nat) :
    ∃ ch', on (run w (n + (t.packets op).length)) ch = on (run w n) ch' ∧ ch'.input = rest ∧
      ch'.calls = ch.calls ++ y.callsOf w t op ∧ InStep w y (t.after op) ch' := by
  -- one packet, or none
  have hone : ∀ {p : Packet}, t.packets op = [p] →
      (ch.input = p.bytes ++ rest →
        Takes w ch rest (y.callsOf w t op) (InStep w y (t.after op))) →
      ∃ ch', on (run w (n + (t.packets op).length)) ch = on (run w n) ch' ∧ ch'.input = rest ∧
        ch'.calls = ch.calls ++ y.callsOf w t op ∧ InStep w y (t.after op) ch' := by
    intro p hp htakes
    rw [hp, List.flatMap_singleton] at hread
    obtain ⟨done, ch', hrun, hrest, hcalls, hafter⟩ := htakes hread
    rw [hp]
    exact ⟨ch', run_succ hrun, hrest, hcalls, hafter⟩
  have hnone : t.packets op = [] → y.callsOf w t op = [] → t.after op = t →
      ∃ ch', on (run w (n + (t.packets op).length)) ch = on (run w n) ch' ∧ ch'.input = rest ∧
        ch'.calls = ch.calls ++ y.callsOf w t op ∧ InStep w y (t.after op) ch' := by
    intro hp hcalls hafter
    rw [hp, List.flatMap_nil, List.nil_append] at hread
    rw [hp, hcalls, hafter, List.append_nil]
    exact ⟨ch, rfl, hread, rfl, h⟩
  have hs : op.signature.HasIndex := hc.sender.hasIndex _ hop.known
  have hafter := hc.after hop
  cases op with
  | sampleRegister s =>
      by_cases hhas : t.has .registered s.index = true
      · exact hnone (if_pos hhas) rfl (if_pos hhas)
      · have hnew : t.has .registered s.index = false := by simpa using hhas
        exact hone (if_neg hhas) (h.takes_sampleDef hs hafter hnew hop.fits)
  | refRegister s =>
      by_cases hhas : t.has .sampleRef s.index = true
      · exact hnone (if_pos hhas) rfl (if_pos hhas)
      · have hnew : t.has .sampleRef s.index = false := by simpa using hhas
        exact hone (if_neg hhas) (h.takes_sampleRef hs hafter hnew hop.fits)
  | typeRegister s =>
      by_cases hhas : t.has .typedefs s.index = true
      · exact hnone (if_pos hhas) rfl (if_pos hhas)
      · exact hone (if_neg hhas) (h.takes_typeDef hc hs hop.fits.2)
  | typeBind s hasDeps => exact hone rfl (h.takes_typeBinding hc hs hasDeps)
  | encode s type v =>
      by_cases hhas : t.has .registered s.index = true
      · exact hone (if_pos hhas) (h.takes_sample hc hy hop hhas)
      · exact hnone (if_neg hhas) (if_neg hhas) rfl

/-- **The loop takes the packets of all calls**, and calls the handlers as it should. -/
theorem InStep.operations {ops : List C.Operation} (h : InStep w y t ch) (hc : Context w L y t)
    (hy : y.Handles w) (hops : ∀ op ∈ ops, Prepared w L y op)
    (hread : ch.input = (t.stream ops).flatMap Packet.bytes) (n : Nat) :
    ∃ ch', on (run w (n + (t.stream ops).length)) ch = on (run w n) ch' ∧ ch'.input = [] ∧
      ch'.calls = ch.calls ++ y.calls w t ops := by
  induction ops generalizing t ch with
  | nil => exact ⟨ch, rfl, hread, (List.append_nil _).symm⟩
  | cons op ops ih =>
      obtain ⟨hop, hrest⟩ := List.forall_mem_cons.mp hops
      rw [C.Told.stream, List.flatMap_append] at hread
      obtain ⟨ch', hrun, hread', hcalls, hstep⟩ :=
        h.call hc hy hop hread (n + ((t.after op).stream ops).length)
      obtain ⟨ch'', hrun', hdone, hcalls'⟩ := ih hstep (hc.after hop) hrest hread'
      refine ⟨ch'', ?_, hdone, ?_⟩
      · rw [C.Told.stream, List.length_append, Nat.add_comm (t.packets op).length, ← Nat.add_assoc,
          hrun, hrun']
      · rw [hcalls', hcalls, List.append_assoc]
        rfl

/-- At the end of its input the loop stops. -/
theorem run_end (hread : ch.input = []) (n : Nat) :
    on (run w (n + 1)) ch = (.error (.channel (.decode .eof)), ch) := by
  have hinput : ({ ch with input := [] } : Channel) = ch := by rw [← hread]
  have htag : on (reading readPacked32) ch = (.error (.channel (.decode .eof)), ch) := by
    have hempty : readPacked32.on ch.input = (.error (.decode .eof), []) := by
      rw [hread]
      rfl
    rw [on_reading_error hempty, hinput]
  have hround : on (round w) ch = (.error (.channel (.decode .eof)), ch) := on_bind_error htag
  rw [run]
  exact on_bind_error hround

/-! ## The start -/

/-- The text of the version is the one that is written. -/
theorem utf8_currentVersion : utf8 currentVersion = CURRENT_VERSION := by decide +kernel

/-- **The version comes first**, and is the current one. -/
theorem InStep.takes_version (h : InStep w y t ch) {rest : List UInt8}
    (hread : ch.input = C.currentVersion.bytes ++ rest) :
    Takes w ch rest [] (InStep w y t) := by
  have hround := round_eq (w := w) C.currentVersion_wellFormed hread
  have htag : C.currentVersion.tag = LABCOMM_VERSION := rfl
  have hlength : (utf8 currentVersion).length < 2 ^ 31 := by
    rw [utf8_currentVersion]
    decide
  have hbody : C.currentVersion.body =
      packed32 (utf8 currentVersion).length ++ utf8 currentVersion := by
    rw [utf8_currentVersion]
    rfl
  have hstring : (readString (newString w.malformed)).on (C.currentVersion.body ++ rest) =
      (.ok currentVersion, rest) := by
    rw [hbody]
    exact (Generated.refines_string (c := w.channels .new)).on_append
      (Generated.lift_consumes (decodeString_consumes w.malformed hlength)) rest
  have hversion : on (processVersion w) { ch with input := C.currentVersion.body ++ rest } =
      (.ok (), { ch with input := rest }) := by
    rw [processVersion, on_bind_ok (on_reading hstring), if_pos rfl]
    rfl
  refine ⟨false, { ch with input := rest }, ?_, rfl, (List.append_nil _).symm,
    h.congr rfl rfl rfl rfl⟩
  rw [hround, htag, processPacket, if_pos rfl, on_bind_ok hversion]
  rfl

end Packets

/-! ## Registrations -/

section Registrations

variable {w} {L : C.Signature → Prop} (hL : Identified w L)
  {regs : List (Dispatcher × Option Nat)}

theorem Distinguished.subset {ds ds' : List Dispatcher} (h : Distinguished ds')
    (hsub : ∀ d ∈ ds, d ∈ ds') : Distinguished ds where
  user d hd := h.user d (hsub d hd)
  signature d hd := h.signature d (hsub d hd)
  classes d hd d' hd' := h.classes d (hsub d hd) d' (hsub d' hd')
  contents d hd d' hd' := h.contents d (hsub d hd) d' (hsub d' hd')

include hL

/-- One registration more. -/
theorem add_ok {r : DecoderRegistry Nat} (hinv : RegistryInv (announced w regs []) r)
    (x : Dispatcher × Option Nat) (hd : Distinguished ((regs ++ [x]).map Prod.fst))
    (order : IterationOrder Nat) :
    ∃ r', r.add order x.1 x.2 = .ok r' ∧ RegistryInv (announced w (regs ++ [x]) []) r' := by
  have hconsistent : Consistent (announced w (regs ++ [x]) []) :=
    announced_consistent hL hd fun s hs => absurd hs List.not_mem_nil
  rw [announced_register] at hconsistent ⊢
  exact hinv.run_call order hconsistent

/-- The sample types are registered. -/
theorem registerAll_ok {samples : List (Dispatcher × Nat)} {ch : Channel}
    (hinv : RegistryInv (announced w regs []) ch.defRegistry)
    (hd : Distinguished ((regs ++ samples.map fun x => (x.1, some x.2)).map Prod.fst)) :
    ∃ r, on (registerAll w samples) ch = (.ok (), { ch with defRegistry := r }) ∧
      RegistryInv (announced w (regs ++ samples.map fun x => (x.1, some x.2)) []) r := by
  induction samples generalizing regs ch with
  | nil =>
      refine ⟨ch.defRegistry, rfl, ?_⟩
      rw [List.map_nil, List.append_nil]
      exact hinv
  | cons x samples ih =>
      rw [List.map_cons, List.append_cons] at hd ⊢
      obtain ⟨r, hadd, hnext⟩ := add_ok hL hinv (x.1, some x.2)
        (hd.subset fun d hmem => by
          rw [List.map_append]
          exact List.mem_append_left _ hmem) (w.order ch.defRegistry)
      have hregister : on (register w x.1 x.2) ch = (.ok (), { ch with defRegistry := r }) :=
        on_addToDefs hadd
      have hinv' : RegistryInv (announced w (regs ++ [(x.1, some x.2)]) [])
          ({ ch with defRegistry := r } : Channel).defRegistry := hnext
      obtain ⟨r', hrest, hdone⟩ := ih hinv' hd
      exact ⟨r', by rw [registerAll, on_bind_ok hregister, hrest], hdone⟩

/-- The references are registered. -/
theorem registerRefs_ok {refs : List Dispatcher} {ch : Channel}
    (hinv : RegistryInv (announced w regs []) ch.refRegistry)
    (hd : Distinguished ((regs ++ refs.map fun d => (d, none)).map Prod.fst)) :
    ∃ r, on (registerRefs w refs) ch = (.ok (), { ch with refRegistry := r }) ∧
      RegistryInv (announced w (regs ++ refs.map fun d => (d, none)) []) r := by
  induction refs generalizing regs ch with
  | nil =>
      refine ⟨ch.refRegistry, rfl, ?_⟩
      rw [List.map_nil, List.append_nil]
      exact hinv
  | cons d refs ih =>
      rw [List.map_cons, List.append_cons] at hd ⊢
      obtain ⟨r, hadd, hnext⟩ := add_ok hL hinv (d, none)
        (hd.subset fun d hmem => by
          rw [List.map_append]
          exact List.mem_append_left _ hmem) (w.order ch.refRegistry)
      have hregister : on (registerSampleRef w d) ch = (.ok (), { ch with refRegistry := r }) :=
        on_addToRefs hadd
      have hinv' : RegistryInv (announced w (regs ++ [(d, none)]) [])
          ({ ch with refRegistry := r } : Channel).refRegistry := hnext
      obtain ⟨r', hrest, hdone⟩ := ih hinv' hd
      exact ⟨r', by rw [registerRefs, on_bind_ok hregister, hrest], hdone⟩

/-- The sample types are registered in a new channel. -/
theorem registerAll_new (input : List UInt8) {samples : List (Dispatcher × Nat)}
    (hd : Distinguished (samples.map Prod.fst)) :
    ∃ r, on (registerAll w samples) (.new input) =
        (.ok (), { Channel.new input with defRegistry := r }) ∧
      RegistryInv (announced w (samples.map fun x => (x.1, some x.2)) []) r := by
  have hinv : RegistryInv (announced w [] []) (Channel.new input).defRegistry := registryInv_new
  refine registerAll_ok hL hinv ?_
  rw [List.nil_append, samples_fst]
  exact hd

/-- The references are registered in a channel that has none. -/
theorem registerRefs_new (ch : Channel) (hnew : ch.refRegistry = .new) {refs : List Dispatcher}
    (hd : Distinguished refs) :
    ∃ r, on (registerRefs w refs) ch = (.ok (), { ch with refRegistry := r }) ∧
      RegistryInv (announced w (refs.map fun d => (d, none)) []) r := by
  have hinv : RegistryInv (announced w [] []) ch.refRegistry := by
    rw [hnew]
    exact registryInv_new
  refine registerRefs_ok hL hinv ?_
  rw [List.nil_append, refs_fst]
  exact hd

end Registrations

/-! ## Delivery -/

/-- The programs on the two sides are made from the same declarations: the sample types of the
sender have names that stay different as text, a sample that is encoded has a dispatcher whose class
has its type, and the handlers are for their classes and throw no `IOException`. -/
structure Agree (w : Program) (y : Subscriptions) (ops : List C.Operation) : Prop where
  sender : C.Distinct fun s => ∃ op ∈ ops, op.signature = s
  names : ∀ op ∈ ops, ∀ op' ∈ ops,
    newString w.malformed op.signature.name = newString w.malformed op'.signature.name →
      op.signature.name = op'.signature.name
  fits : ∀ op ∈ ops, op.Fits
  samples : Distinguished (y.samples.map Prod.fst)
  refs : Distinguished y.refs
  types : ∀ s type v, C.Operation.encode s type v ∈ ops →
    ∃ d ∈ y.samples.map Prod.fst, ∃ id, d.content = contentOf w s ∧ d.sampleClass = .user id ∧
      w.type id = type
  handles : y.Handles w

section Agree

variable {w} {y : Subscriptions} {ops : List C.Operation} (h : Agree w y ops)

include h

theorem Agree.identified : Identified w fun s => ∃ op ∈ ops, op.signature = s := by
  refine ⟨h.sender.hasIndex, h.sender.index, fun s s' hs hs' hcontent => ?_⟩
  obtain ⟨hname, hbytes⟩ := Prod.mk.injEq .. ▸ hcontent
  refine h.sender.content s s' hs hs' ⟨Option.some.inj hbytes, ?_⟩
  obtain ⟨op, hop, rfl⟩ := hs
  obtain ⟨op', hop', rfl⟩ := hs'
  rw [h.names op hop op' hop' hname]

theorem Agree.context : Context w (fun s => ∃ op ∈ ops, op.signature = s) y C.Told.nothing :=
  ⟨h.identified, h.samples, h.refs, fun _ _ hs => absurd hs List.not_mem_nil⟩

theorem Agree.prepared :
    ∀ op ∈ ops, Prepared w (fun s => ∃ op ∈ ops, op.signature = s) y op := by
  intro op hop
  refine ⟨⟨op, hop, rfl⟩, h.fits op hop, ?_⟩
  rintro s type v rfl
  obtain ⟨d, hd, id, hcontent, hid, htype⟩ := h.types s type v hop
  cases hfind : y.dispatcher w s with
  | none => exact absurd (decide_eq_true hcontent) (List.find?_eq_none.mp hfind d hd)
  | some d' =>
      obtain ⟨hmem, hsame⟩ := find?_content hfind
      obtain rfl := h.samples.contents d' hmem d hd (hsame.trans hcontent.symm)
      exact ⟨d', id, rfl, hid, htype⟩

end Agree

/-- **A Java program that reads what a C encoder has sent** takes all of it, calls its handlers with
the samples that were encoded after their registration, in that order and each once, and stops at
the end of its input. -/
theorem receiveAll_delivers {ω : C.WriterAction} (hω : ω.Flushes) (hstart : ∀ n, ω.start n = 0)
    {y : Subscriptions} {ops : List C.Operation} (h : Agree w y ops) (writer : C.Writer ω)
    {input : List UInt8}
    (hsent : ((C.callOperations ops).run (C.newEncoder writer)).2.writer.written =
      writer.written ++ input) {n : Nat} (hn : ops.length + 1 < n) :
    ((C.callOperations ops).run (C.newEncoder writer)).1 = .ok () ∧
      ∃ ch, on (receiveAll w y.samples y.refs n) (.new input) =
          (.error (.channel (.decode .eof)), ch) ∧
        ch.input = [] ∧ ch.calls = y.calls w C.Told.nothing ops := by
  -- what is written
  have hops : ∀ op ∈ ops, op.signature.HasIndex ∧ op.Fits := fun op hop =>
    ⟨h.sender.hasIndex _ ⟨op, hop, rfl⟩, h.fits op hop⟩
  have hnew : C.Reflects C.Told.nothing (C.newEncoder writer) := C.newEncoder_done writer
  obtain ⟨e', hrun, hwritten⟩ := C.operations_send hω hstart hnew hops
  rw [hrun] at hsent
  rw [hsent, (C.newEncoder_writer hω writer).2, List.append_assoc,
    List.append_cancel_left_eq] at hwritten
  have hlength := C.Told.stream_length_le C.Told.nothing ops
  refine ⟨by rw [hrun], ?_⟩
  -- the registrations, before anything is read
  obtain ⟨r, hsamples, hdefs⟩ := registerAll_new h.identified input h.samples
  obtain ⟨r', hrefs, hreferences⟩ :=
    registerRefs_new h.identified { Channel.new input with defRegistry := r } rfl h.refs
  have hstep : InStep w y C.Told.nothing
      { Channel.new input with defRegistry := r, refRegistry := r' } := ⟨hdefs, hreferences⟩
  -- the loop: the version, the packets of the calls, the end
  obtain ⟨k, rfl⟩ : ∃ k, n = k + 1 + (C.Told.nothing.stream ops).length + 1 :=
    ⟨n - 2 - (C.Told.nothing.stream ops).length, by omega⟩
  obtain ⟨done, ch, hversion, hinput, hcalls, hnext⟩ := hstep.takes_version hwritten
  obtain ⟨ch', hloop, hread, hcalls'⟩ :=
    hnext.operations h.context h.handles h.prepared hinput (k + 1)
  refine ⟨ch', ?_, hread, ?_⟩
  · rw [receiveAll, on_bind_ok hsamples, on_bind_ok hrefs, run_succ hversion, hloop, run_end hread]
  · rw [hcalls', hcalls]
    rfl

/-- The order in which the keys of a map were put into it. -/
def insertionOrder : IterationOrder Nat := ⟨id, List.Perm.refl⟩

/-- A program with one class, of which it takes samples and references. -/
def refProgram : Program :=
  ⟨fun _ => .prim .sample, fun _ _ => true, fun _ _ => none, fun _ => insertionOrder, replaceBytes⟩

/-- The dispatcher of the class. -/
def refDispatcher : Dispatcher := ⟨.user 0, "a", some [0x28]⟩

/-- What the program registers. -/
def refSubscriptions : Subscriptions := ⟨[(refDispatcher, 1)], [refDispatcher]⟩

theorem contentOf_refSignature :
    contentOf refProgram (C.refSignature 0x40) = refDispatcher.content := by
  have hname : newString replaceBytes [97] = "a" := by
    rw [newString, decodeUtf8_eq_some.mpr (show utf8 "a" = [97] by decide +kernel)]
    rfl
  show (newString replaceBytes [97], some [0x28]) = _
  rw [hname]
  rfl

theorem distinguished_singleton {d : Dispatcher} (huser : builtinIndex d.sampleClass = none)
    (hsignature : d.signature.isSome = true) : Distinguished [d] := by
  refine ⟨?_, ?_, ?_, ?_⟩
  · intro d' hd'
    rwa [List.mem_singleton.mp hd']
  · intro d' hd'
    rwa [List.mem_singleton.mp hd']
  · intro d' hd' d'' hd'' _
    rw [List.mem_singleton.mp hd', List.mem_singleton.mp hd'']
  · intro d' hd' d'' hd'' _
    rw [List.mem_singleton.mp hd', List.mem_singleton.mp hd'']

theorem refSubscriptions_agree : Agree refProgram refSubscriptions C.refCalls where
  sender := C.refCalls_agree.sender
  names op hop op' hop' _ := by
    rw [C.signature_of_mem_refCalls ⟨op, hop, rfl⟩, C.signature_of_mem_refCalls ⟨op', hop', rfl⟩]
  fits := C.refCalls_agree.fits
  samples := distinguished_singleton rfl rfl
  refs := distinguished_singleton rfl rfl
  types s type v hencode := by
    obtain rfl : s = C.refSignature 0x40 := C.signature_of_mem_refCalls ⟨_, hencode, rfl⟩
    simp only [C.refCalls, List.mem_cons, List.not_mem_nil, or_false, reduceCtorEq, false_or,
      C.Operation.encode.injEq] at hencode
    exact ⟨refDispatcher, List.mem_singleton_self _, 0, contentOf_refSignature.symm, rfl,
      hencode.2.1.symm⟩
  handles := by
    intro x _
    exact ⟨rfl, fun _ => Option.some_ne_none _ |>.symm⟩

/-- What the encoder has been told before the sample. -/
def refTold : C.Told :=
  (C.Told.nothing.after (.sampleRegister (C.refSignature 0x40))).after
    (.refRegister (C.refSignature 0x40))

/-- The handler gets the class of the receiver. -/
theorem refSubscriptions_calls : refSubscriptions.calls refProgram C.Told.nothing C.refCalls =
    [⟨1, .user (.sampleClass 2)⟩] := by
  have hdispatcher : refSubscriptions.dispatcher refProgram (C.refSignature 0x40) =
      some refDispatcher := by
    rw [Subscriptions.dispatcher, contentOf_refSignature]
    rfl
  have hclass : refSubscriptions.classOf refProgram (C.refSignature 0x40) = some 2 := by
    rw [Subscriptions.classOf, contentOf_refSignature]
    rfl
  have hfound : (refSubscriptions.channels refProgram refTold).getSampleClass 0x40 = some 2 :=
    hclass
  have hreceived : Generated.received (refSubscriptions.channels refProgram refTold) refTold.refs
      (.prim .sample) (.ref (some 0x40)) = .sampleClass 2 := by
    show (((refSubscriptions.channels refProgram refTold).getSampleClass 0x40).map
      Generated.Value.sampleClass).getD .null = _
    rw [hfound]
    rfl
  have hencode : refSubscriptions.callsOf refProgram refTold
      (.encode (C.refSignature 0x40) (.prim .sample) (.ref (some 0x40))) =
        [⟨1, .user (.sampleClass 2)⟩] := by
    have hhas : refTold.has .registered (C.refSignature 0x40).index = true := rfl
    rw [Subscriptions.callsOf, if_pos hhas, hdispatcher, hreceived]
    rfl
  exact hencode

theorem receiveAll_delivers_ref : ∃ ch,
    on (receiveAll refProgram refSubscriptions.samples refSubscriptions.refs 5)
        (.new ((C.callOperations C.refCalls).run
          (C.newEncoder (.empty C.bytewise))).2.writer.written) =
      (.error (.channel (.decode .eof)), ch) ∧
    ch.input = [] ∧ ch.calls = [⟨1, .user (.sampleClass 2)⟩] := by
  rw [← refSubscriptions_calls]
  exact (receiveAll_delivers refProgram (fun _ => rfl) (fun _ => rfl) refSubscriptions_agree
    (.empty C.bytewise) (List.nil_append _).symm (by decide)).2

end LabComm.Java.DecoderSession
