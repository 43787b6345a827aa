import LabComm.C.Delivery
import LabComm.C.Intentions
import LabComm.Compiler.GeneratedRuns

set_option autoImplicit false

/-! # From the declarations to the handlers

Two processes with the code that is generated from one specification, each with its own local
indices. A call of a generated function makes the encoder send the packets of some calls of its
own (`Sends`): the registration, the reference or the sample it is for, and those of types around
it, which a decoder of samples passes over. So what the handlers on the other side are called with
is said by the names in the calls alone (`runCalls_delivers`).
-/

namespace LabComm.C

open Library

variable {ω : WriterAction}

/-! ## Several calls of the encoder -/

/-- What an encoder has been told after some calls. -/
def Told.afterAll (t : Told) (ops : List Operation) : Told := ops.foldl Told.after t

/-- A call for a type, which a decoder of samples passes over. -/
def Operation.isTypeCall : Operation → Bool
  | typeRegister _ => true
  | typeBind .. => true
  | _ => false

theorem Told.afterAll_append (t : Told) (ops ops' : List Operation) :
    t.afterAll (ops ++ ops') = (t.afterAll ops).afterAll ops' := List.foldl_append

theorem Told.stream_append (t : Told) (ops ops' : List Operation) :
    t.stream (ops ++ ops') = t.stream ops ++ (t.afterAll ops).stream ops' := by
  induction ops generalizing t with
  | nil => rfl
  | cons op ops ih =>
      rw [List.cons_append, Told.stream, Told.stream, ih, List.append_assoc]
      rfl

theorem Receiver.calls_append (y : Receiver) (t : Told) (ops ops' : List Operation) :
    y.calls t (ops ++ ops') = y.calls t ops ++ y.calls (t.afterAll ops) ops' := by
  induction ops generalizing t with
  | nil => rfl
  | cons op ops ih =>
      rw [List.cons_append, Receiver.calls, Receiver.calls, ih, List.append_assoc]
      rfl

/-- Types are of no matter for samples and references. -/
theorem Told.afterAll_typeCalls {t : Told} {ops : List Operation}
    (h : ∀ op ∈ ops, op.isTypeCall = true) {table : Table} (htable : table ≠ .typedefs) :
    (t.afterAll ops) table = t table := by
  induction ops generalizing t with
  | nil => rfl
  | cons op ops ih =>
      obtain ⟨hop, hrest⟩ := List.forall_mem_cons.mp h
      have hone : (t.after op) table = t table := by
        cases op with
        | typeRegister s => exact Told.add_of_ne htable t s
        | typeBind s hasDeps => rfl
        | sampleRegister s => cases hop
        | refRegister s => cases hop
        | encode s type v => cases hop
      exact (ih hrest).trans hone

/-- Types lead to no calls of handlers. -/
theorem Receiver.calls_typeCalls {y : Receiver} {t : Told} {ops : List Operation}
    (h : ∀ op ∈ ops, op.isTypeCall = true) : y.calls t ops = [] := by
  induction ops generalizing t with
  | nil => rfl
  | cons op ops ih =>
      obtain ⟨hop, hrest⟩ := List.forall_mem_cons.mp h
      rw [Receiver.calls, ih hrest, List.append_nil]
      cases op with
      | typeRegister s => rfl
      | typeBind s hasDeps => rfl
      | sampleRegister s => cases hop
      | refRegister s => cases hop
      | encode s type v => cases hop

/-- No packet is empty. -/
theorem length_le_bytes (ps : List Packet) : ps.length ≤ (ps.flatMap Packet.bytes).length := by
  induction ps with
  | nil => exact le_refl 0
  | cons p ps ih =>
      have hpos := packed32_length_pos p.tag
      rw [List.flatMap_cons, List.length_append, List.length_cons, p.bytes_eq, Packet.header,
        List.length_append, List.length_append]
      omega

/-- The program makes the encoder send the packets of these calls. -/
structure Sends {α : Type} (m : EncoderM ω α) (t : Told) (ops : List Operation) (e : Encoder ω)
    (a : α) (e' : Encoder ω) : Prop where
  run : m.run e = (.ok a, e')
  reflects : Reflects (t.afterAll ops) e'
  written : e'.writer.written = e.writer.written ++ (t.stream ops).flatMap Packet.bytes

section Sends

variable {α β : Type} {t : Told} {e e' e'' : Encoder ω} {a : α} {b : β}

theorem Sends.pure (h : Reflects t e) (a : α) : Sends (pure a : EncoderM ω α) t [] e a e :=
  ⟨rfl, h, (List.append_nil _).symm⟩

/-- One program after the other. -/
theorem Sends.bind {m : EncoderM ω α} {f : α → EncoderM ω β} {ops ops' : List Operation}
    (hm : Sends m t ops e a e') (hf : Sends (f a) (t.afterAll ops) ops' e' b e'') :
    Sends (m >>= f) t (ops ++ ops') e b e'' := by
  refine ⟨?_, ?_, ?_⟩
  · rw [run_bind_ok hm.run, hf.run]
  · rw [Told.afterAll_append]
    exact hf.reflects
  · rw [hf.written, hm.written, Told.stream_append, List.flatMap_append, List.append_assoc]

/-- A call sends its own packets. -/
theorem Sends.operation (hω : ω.Flushes) (hstart : ∀ n, ω.start n = 0) (op : Operation)
    (h : Reflects t e) (hs : op.signature.HasIndex) (hfits : op.Fits) :
    ∃ r e', Sends op.run t [op] e r e' := by
  obtain ⟨r, e', hrun, hreflects, hwritten⟩ := operation_sends hω hstart h hs hfits
  refine ⟨r, e', hrun, hreflects, ?_⟩
  rw [hwritten, Told.stream, Told.stream, List.append_nil]

/-- With any encoder, the program sends what calls with `P` send. -/
def Relays (P : Operation → Prop) (m : EncoderM ω α) : Prop :=
  ∀ t e, Reflects t e → ∃ ops a e', Sends m t ops e a e' ∧ ∀ op ∈ ops, P op

theorem Relays.pure (P : Operation → Prop) (a : α) : Relays P (pure a : EncoderM ω α) :=
  fun _ e h => ⟨[], a, e, Sends.pure h a, fun _ hop => absurd hop List.not_mem_nil⟩

theorem Relays.bind {P : Operation → Prop} {m : EncoderM ω α} {f : α → EncoderM ω β}
    (hm : Relays P m) (hf : ∀ a, Relays P (f a)) : Relays P (m >>= f) := by
  intro t e h
  obtain ⟨ops, a, e', hsends, hops⟩ := hm t e h
  obtain ⟨ops', b, e'', hsends', hops'⟩ := hf a _ _ hsends.reflects
  exact ⟨ops ++ ops', b, e'', hsends.bind hsends', List.forall_mem_append.mpr ⟨hops, hops'⟩⟩

theorem Relays.operation (hω : ω.Flushes) (hstart : ∀ n, ω.start n = 0) {P : Operation → Prop}
    (op : Operation) (hs : op.signature.HasIndex) (hfits : op.Fits) (hP : P op) :
    Relays P (op.run : EncoderM ω Int) := by
  intro t e h
  obtain ⟨r, e', hsends⟩ := Sends.operation hω hstart op h hs hfits
  exact ⟨[op], r, e', hsends, fun op' hop => List.mem_singleton.mp hop ▸ hP⟩

end Sends

end LabComm.C

namespace LabComm.Compiler

open Library C

variable {ω : WriterAction} {φ : Host}

/-! ## The receiver -/

/-- `labcomm2014_decoder_register_…` with a handler -/
def registrationNamed (generated : List (Generated ω)) (x : Name × Handler) :
    Option Registration :=
  (sampleNamed generated x.1).map fun g => ⟨g.signature, g.decl.type, x.2⟩

/-- The signature of a sample, of which a reference is registered. -/
def referenceNamed (generated : List (Generated ω)) (name : Name) : Option Signature :=
  (sampleNamed generated name).map Generated.signature

theorem declNamed_eq_some {generated : List (Generated ω)} {name : Name} {g : Generated ω}
    (h : declNamed generated name = some g) : g ∈ generated ∧ g.decl.name = name :=
  ⟨List.mem_of_find?_eq_some h, of_decide_eq_true
    (List.find?_some (p := fun g : Generated ω => decide (g.decl.name = name)) h)⟩

theorem sampleNamed_eq_some {generated : List (Generated ω)} {name : Name} {g : Generated ω}
    (h : sampleNamed generated name = some g) :
    g ∈ generated ∧ g.decl.isSampleDecl = true ∧ g.decl.name = name := by
  have hfound := List.find?_some h
  simp only [Bool.and_eq_true, decide_eq_true_eq] at hfound
  exact ⟨List.mem_of_find?_eq_some h, hfound⟩

/-- What a program has registered by name, before it reads: handlers and references. -/
structure Subscriptions where
  handlers : List (Name × Handler)
  refs : List Name

/-- The handler of a sample, the one registered last. -/
def Subscriptions.handler (r : Subscriptions) (name : Name) : Option Handler :=
  (r.handlers.reverse.find? fun x => x.1 = name).map Prod.snd

/-- The names that are registered on the sending side. -/
structure Names where
  samples : List Name
  refs : List Name

/-- A registration, which does nothing the second time. -/
def Names.after (x : Names) : Call → Names
  | .register name => { x with samples := x.samples.insert name }
  | .sampleRefRegister name => { x with refs := x.refs.insert name }
  | .typeRegister _ => x
  | .encode .. => x

/-- What becomes of a reference: it is null unless both sides have registered it. -/
def Subscriptions.translate (r : Subscriptions) (index index' : Name → Int) (x : Names)
    (i : Option Nat) : Option Nat :=
  i.bind fun i => (x.refs.find? fun name => index name = (i : Int)).bind fun name =>
    if name ∈ r.refs then some (index' name).toNat else none

/-- The call of a handler that a call of a generated function leads to, if it is registered on both
sides. -/
def Subscriptions.deliveriesOf (r : Subscriptions) (index index' : Name → Int)
    (type : Name → DataType) (x : Names) : Call → List HandlerCall
  | .encode name v =>
      if name ∈ x.samples then
        (r.handler name).toList.map fun h =>
          ⟨h, .sample (mapRefs (r.translate index index' x) (type name) v)⟩
      else []
  | _ => []

/-- The calls of handlers that all calls lead to, in order. -/
def Subscriptions.deliveries (r : Subscriptions) (index index' : Name → Int)
    (type : Name → DataType) : Names → List Call → List HandlerCall
  | _, [] => []
  | x, call :: calls => r.deliveriesOf index index' type x call ++
      r.deliveries index index' type (x.after call) calls

/-- The name in a call. -/
def Call.name : Call → Name
  | register name => name
  | typeRegister name => name
  | sampleRefRegister name => name
  | encode name _ => name

/-- The type that is declared under a name. -/
def typeOf (all : List Decl) (name : Name) : DataType :=
  ((all.find? fun d => d.name = name).map Decl.type).getD .void

/-! ## Declarations and their signatures -/

section Declared

/-- What is known of the declarations and the local indices of a process. -/
structure Declared (index : Name → Int) (all : List Decl) : Prop where
  user_le : ∀ name, 0 < index name → LABCOMM_USER ≤ index name
  lt : ∀ name, index name < 2 ^ 31
  injective : ∀ name name', 0 < index name → index name = index name' → name = name'
  sample_pos : ∀ d ∈ all, d.isSampleDecl = true → 0 < index d.name
  types_pos : ∀ d ∈ all, ∀ name ∈ userTypes d.type, 0 < index name
  nodup : (all.map Decl.name).Nodup
  text : ∀ d ∈ all, (0 : UInt8) ∉ d.name

/-- The signature that is declared under a name. -/
def signatureOf (version : Nat) (index : Name → Int) (all : List Decl) (name : Name) : Signature :=
  ((all.find? fun d => d.name = name).bind (signature version index)).getD
    (.mk name none (index name) .sigdefEnd)

/-- The signature is one of the declarations, with an index. -/
def OfDecl (version : Nat) (index : Name → Int) (all : List Decl) (s : Signature) : Prop :=
  0 < s.index ∧ ∃ d ∈ all, signature version index d = some s

variable {version : Nat} {index : Name → Int} {all : List Decl}

theorem signature_name {d : Decl} {s : Signature} (h : signature version index d = some s) :
    s.name = d.name := by
  rw [signature, Option.bind_eq_bind, Option.bind_eq_some_iff] at h
  obtain ⟨entries, _, h⟩ := h
  split at h
  · rw [Option.bind_eq_bind, Option.bind_eq_some_iff] at h
    obtain ⟨bytes, _, h⟩ := h
    cases h
    rfl
  · cases h
    rfl

/-- A sample has its flat signature, whatever its index. -/
theorem signature_bytes {d : Decl} {s : Signature} (h : signature version index d = some s)
    (hsample : d.isSampleDecl = true) :
    ∃ bytes, flatBytes version d.type = some bytes ∧ s.signature = some bytes := by
  rw [signature, Option.bind_eq_bind, Option.bind_eq_some_iff] at h
  obtain ⟨entries, _, h⟩ := h
  rw [if_pos hsample, Option.bind_eq_bind, Option.bind_eq_some_iff] at h
  obtain ⟨bytes, hbytes, h⟩ := h
  cases h
  exact ⟨bytes, hbytes, rfl⟩

theorem Declared.decl_unique (h : Declared index all) {d d' : Decl} (hd : d ∈ all)
    (hd' : d' ∈ all) (hname : d.name = d'.name) : d = d' :=
  List.inj_on_of_nodup_map h.nodup hd hd' hname

theorem Declared.find?_eq (h : Declared index all) {d : Decl} (hd : d ∈ all) :
    (all.find? fun x => x.name = d.name) = some d := by
  cases hfind : all.find? fun x => x.name = d.name with
  | none => exact absurd (decide_eq_true rfl) (List.find?_eq_none.mp hfind d hd)
  | some x =>
      have hname : x.name = d.name := of_decide_eq_true
        (List.find?_some (p := fun x : Decl => decide (x.name = d.name)) hfind)
      rw [h.decl_unique (List.mem_of_find?_eq_some hfind) hd hname]

theorem Declared.typeOf_eq (h : Declared index all) {d : Decl} (hd : d ∈ all) :
    typeOf all d.name = d.type := by
  rw [typeOf, h.find?_eq hd]
  rfl

theorem Declared.signatureOf_eq (h : Declared index all) {d : Decl} (hd : d ∈ all)
    {s : Signature} (hs : signature version index d = some s) :
    signatureOf version index all d.name = s := by
  rw [signatureOf, h.find?_eq hd, Option.bind_some, hs]
  rfl

theorem signatureOf_index (name : Name) :
    (signatureOf version index all name).index = index name := by
  unfold signatureOf
  cases hfind : all.find? fun d => d.name = name with
  | none => rfl
  | some d =>
      have hname : d.name = name := of_decide_eq_true
        (List.find?_some (p := fun d : Decl => decide (d.name = name)) hfind)
      rw [Option.bind_some]
      cases hs : signature version index d with
      | none => rfl
      | some s =>
          rw [Option.getD_some, (signature_facts hs).1, hname]

theorem Declared.hasIndex (h : Declared index all) {s : Signature}
    (hs : OfDecl version index all s) : s.HasIndex := by
  obtain ⟨hpos, d, _, hsig⟩ := hs
  have hindex := (signature_facts hsig).1
  rw [hindex] at hpos
  unfold Signature.HasIndex
  rw [hindex]
  exact ⟨h.user_le _ hpos, h.lt _⟩

/-- The signatures are distinct, by their indices and by what is sent of them. -/
theorem Declared.distinct (h : Declared index all) : Distinct (OfDecl version index all) := by
  have hsame : ∀ s s', OfDecl version index all s → OfDecl version index all s' →
      s.name = s'.name → s = s' := by
    rintro s s' ⟨_, d, hd, hs⟩ ⟨_, d', hd', hs'⟩ hname
    rw [signature_name hs, signature_name hs'] at hname
    rw [h.decl_unique hd hd' hname, hs'] at hs
    exact (Option.some.inj hs).symm
  refine ⟨fun s hs => h.hasIndex hs, fun s s' hs hs' hindex => ?_, fun s s' hs hs' hboth => ?_⟩
  · refine hsame s s' hs hs' ?_
    obtain ⟨hpos, d, _, hsig⟩ := hs
    obtain ⟨_, d', _, hsig'⟩ := hs'
    rw [(signature_facts hsig).1] at hpos hindex
    rw [(signature_facts hsig').1] at hindex
    rw [signature_name hsig, signature_name hsig']
    exact h.injective _ _ hpos hindex
  · refine hsame s s' hs hs' ?_
    obtain ⟨_, d, hd, hsig⟩ := hs
    obtain ⟨_, d', hd', hsig'⟩ := hs'
    have hname := hboth.2
    rw [signature_name hsig, signature_name hsig', cString_of_not_mem (h.text d hd),
      cString_of_not_mem (h.text d' hd')] at hname
    rw [signature_name hsig, signature_name hsig', hname]

end Declared

/-! ## What is emitted -/

section Emitted

variable {version : Nat} {index : Name → Int} {all : List Decl}

/-- What is emitted for a declaration has its signature. -/
structure Emitted (version : Nat) (index : Name → Int) (all : List Decl) (g : Generated ω) :
    Prop where
  mem : g.decl ∈ all
  signature : signature version index g.decl = some g.signature

theorem Emitted.ofDecl {g : Generated ω} (hg : Emitted version index all g)
    (hpos : 0 < index g.decl.name) : OfDecl version index all g.signature :=
  ⟨by rw [(signature_facts hg.signature).1]; exact hpos, g.decl, hg.mem, hg.signature⟩

theorem Emitted.signatureOf_eq {g : Generated ω} (hg : Emitted version index all g)
    (hall : Declared index all) : signatureOf version index all g.decl.name = g.signature :=
  hall.signatureOf_eq hg.mem hg.signature

theorem emitDecls_signature {h : IterationOrder Name} {ds : List Decl}
    {generated final : List (Generated ω)}
    (hemit : emitDecls h version index generated ds = some final) :
    ∀ d ∈ ds, ∃ s, signature version index d = some s := by
  induction ds generalizing generated with
  | nil => exact fun d hd => absurd hd List.not_mem_nil
  | cons d ds ih =>
      rw [emitDecls, Option.bind_eq_bind, Option.bind_eq_some_iff] at hemit
      obtain ⟨s, hs, hemit⟩ := hemit
      exact List.forall_mem_cons.mpr ⟨⟨s, hs⟩, ih hemit⟩

theorem emitDecls_emitted {h : IterationOrder Name} {ds : List Decl} (hds : ∀ d ∈ ds, d ∈ all)
    {generated final : List (Generated ω)} (hgen : ∀ g ∈ generated, Emitted version index all g)
    (hemit : emitDecls h version index generated ds = some final) :
    ∀ g ∈ final, Emitted version index all g := by
  induction ds generalizing generated with
  | nil =>
      cases hemit
      exact hgen
  | cons d ds ih =>
      obtain ⟨hd, hrest⟩ := List.forall_mem_cons.mp hds
      rw [emitDecls, Option.bind_eq_bind, Option.bind_eq_some_iff] at hemit
      obtain ⟨s, hs, hemit⟩ := hemit
      refine ih hrest (List.forall_mem_append.mpr ⟨hgen, ?_⟩) hemit
      exact List.forall_mem_singleton.mpr ⟨hd, hs⟩

end Emitted

/-- The calls of the encoder that a generated function is for. -/
def Call.operations (sig : Name → Signature) (type : Name → DataType) : Call → List Operation
  | .register name => [.sampleRegister (sig name)]
  | .typeRegister _ => []
  | .sampleRefRegister name => [.refRegister (sig name)]
  | .encode name v => [.encode (sig name) (type name) v]

/-- There is a declaration for the name, which has a signature. -/
def IsDeclared (version : Nat) (index : Name → Int) (all : List Decl) (name : Name) : Prop :=
  ∃ d ∈ all, d.name = name ∧ ∃ s, signature version index d = some s

section Relaying

variable {version : Nat} {index : Name → Int} {all : List Decl}

/-- A call for a declared type. -/
structure IsTypeCallOf (version : Nat) (index : Name → Int) (all : List Decl) (op : Operation) :
    Prop where
  isTypeCall : op.isTypeCall = true
  ofDecl : OfDecl version index all op.signature
  fits : op.Fits

/-- The code of a declaration, the types of which it registers by calls for types. -/
structure Relaying (version : Nat) (index : Name → Int) (all : List Decl) (g : Generated ω) :
    Prop extends Emitted version index all g where
  deps : Relays (IsTypeCallOf version index all) g.userTypeDeps

theorem Relays.forM {α : Type} {P : Operation → Prop} {l : List α} {f : α → EncoderM ω Unit}
    (hf : ∀ x ∈ l, Relays P (f x)) : Relays P (l.forM f) := by
  induction l with
  | nil => exact Relays.pure P ()
  | cons x l ih =>
      obtain ⟨hx, hl⟩ := List.forall_mem_cons.mp hf
      exact Relays.bind hx fun _ => ih hl

variable (hω : ω.Flushes) (hstart : ∀ n, ω.start n = 0) (hall : Declared index all)
  (hfits : ∀ d ∈ all, ∀ s : Signature, Compiler.signature version index d = some s →
    ∀ table, PacketFits table s)

include hω hstart hall hfits

theorem Relaying.typeRegister {g : Generated ω} (hg : Relaying version index all g)
    (hpos : 0 < index g.decl.name) :
    Relays (IsTypeCallOf version index all) g.typeRegister := by
  refine hg.deps.bind fun _ => ?_
  have hof := hg.ofDecl hpos
  have hset : g.signature.treedata.RefsSet := (signature_facts hg.signature).2.refsSet
    fun name hname => (hall.types_pos g.decl hg.mem name hname).ne'
  have hop : (Operation.typeRegister g.signature).Fits :=
    ⟨hset, hfits g.decl hg.mem g.signature hg.signature .typedefs⟩
  split
  · exact Relays.operation hω hstart _ (hall.hasIndex hof) hop ⟨rfl, hof, hop⟩
  · exact Relays.pure _ 0

/-- The dependencies of a declaration are types with indices. -/
theorem emitUserTypeDeps_relays {generated : List (Generated ω)}
    (hgen : ∀ g ∈ generated, Relaying version index all g) {deps : List Name}
    (hdeps : ∀ name ∈ deps, 0 < index name) :
    Relays (IsTypeCallOf version index all) (emitUserTypeDeps generated deps) := by
  refine Relays.forM fun name hname => ?_
  split
  · exact Relays.pure _ ()
  · rename_i g hg
    have hrelaying := hgen g (List.mem_of_find?_eq_some hg)
    have hfound := List.find?_some hg
    simp only [Bool.and_eq_true, Bool.not_eq_true', decide_eq_true_eq] at hfound
    have hpos : 0 < index g.decl.name := by
      rw [hfound.2]
      exact hdeps name hname
    refine hrelaying.deps.bind fun _ => ?_
    exact (hrelaying.typeRegister hω hstart hall hfits hpos).bind fun _ => Relays.pure _ ()

theorem emitDecls_relaying {h : IterationOrder Name} {ds : List Decl} (hds : ∀ d ∈ ds, d ∈ all)
    {generated final : List (Generated ω)} (hgen : ∀ g ∈ generated, Relaying version index all g)
    (hemit : emitDecls h version index generated ds = some final) :
    ∀ g ∈ final, Relaying version index all g := by
  induction ds generalizing generated with
  | nil =>
      cases hemit
      exact hgen
  | cons d ds ih =>
      obtain ⟨hd, hrest⟩ := List.forall_mem_cons.mp hds
      rw [emitDecls, Option.bind_eq_bind, Option.bind_eq_some_iff] at hemit
      obtain ⟨s, hs, hemit⟩ := hemit
      refine ih hrest (List.forall_mem_append.mpr ⟨hgen, ?_⟩) hemit
      intro g hg
      rw [List.mem_singleton] at hg
      subst hg
      refine ⟨⟨hd, hs⟩, emitUserTypeDeps_relays hω hstart hall hfits hgen fun name hname => ?_⟩
      exact hall.types_pos d hd name (mem_typeDependencies.mp hname)

/-- **A generated function sends** the call it is for, with calls for types around it. -/
theorem function_sends {generated : List (Generated ω)}
    (hgen : ∀ g ∈ generated, Relaying version index all g) {call : Call}
    (hpos : 0 < index call.name)
    (hvalue : ∀ name v, call = .encode name v → ∀ d ∈ all, d.name = name → SampleFits d.type v)
    {f : EncoderM ω Int} (hf : call.function generated = some f) {t : Told} {e : Encoder ω}
    (he : Reflects t e) :
    IsDeclared version index all call.name ∧ ∃ ops r e',
      Sends f t (call.operations (signatureOf version index all) (typeOf all) ++ ops) e r e' ∧
      (∀ op ∈ call.operations (signatureOf version index all) (typeOf all),
        OfDecl version index all op.signature ∧ op.Fits) ∧
      ∀ op ∈ ops, IsTypeCallOf version index all op := by
  cases call with
  | register name =>
      rw [Call.function, Option.map_eq_some_iff] at hf
      obtain ⟨g, hg, rfl⟩ := hf
      obtain ⟨hmem, _, rfl⟩ := sampleNamed_eq_some hg
      have hrelaying := hgen g hmem
      have hof := hrelaying.ofDecl hpos
      have hs := hall.hasIndex hof
      have hop : (Operation.sampleRegister g.signature).Fits :=
        hfits g.decl hrelaying.mem g.signature hrelaying.signature .registered
      rw [Call.operations, hrelaying.signatureOf_eq hall]
      refine ⟨⟨g.decl, hrelaying.mem, rfl, _, hrelaying.signature⟩, ?_⟩
      obtain ⟨r, e', hsends⟩ := Sends.operation hω hstart (.sampleRegister g.signature) he hs hop
      -- the type is registered and bound unless the sample was refused
      have hrest : Relays (IsTypeCallOf version index all) (do
          if r ≥ 0 then
            let _ ← g.typeRegister
            let _ ← doTypeBind g.signature g.hasDeps
          return r : EncoderM ω Int) := by
        split
        · refine (hrelaying.typeRegister hω hstart hall hfits hpos).bind fun _ => ?_
          refine Relays.bind ?_ fun _ => Relays.pure _ r
          exact Relays.operation hω hstart (.typeBind g.signature g.hasDeps) hs trivial
            ⟨rfl, hof, trivial⟩
        · exact Relays.pure _ r
      obtain ⟨ops, a, e'', hsends', hops⟩ := hrest _ _ hsends.reflects
      refine ⟨ops, a, e'', hsends.bind hsends', ?_, hops⟩
      exact List.forall_mem_singleton.mpr ⟨hof, hop⟩
  | typeRegister name =>
      rw [Call.function, Option.map_eq_some_iff] at hf
      obtain ⟨g, hg, rfl⟩ := hf
      obtain ⟨hmem, rfl⟩ := declNamed_eq_some hg
      have hrelaying := hgen g hmem
      obtain ⟨ops, r, e', hsends, hops⟩ :=
        hrelaying.typeRegister hω hstart hall hfits hpos t e he
      exact ⟨⟨g.decl, hrelaying.mem, rfl, _, hrelaying.signature⟩, ops, r, e', hsends,
        fun op hop => absurd hop List.not_mem_nil, hops⟩
  | sampleRefRegister name =>
      rw [Call.function, Option.map_eq_some_iff] at hf
      obtain ⟨g, hg, rfl⟩ := hf
      obtain ⟨hmem, rfl⟩ := declNamed_eq_some hg
      have hrelaying := hgen g hmem
      have hof := hrelaying.ofDecl hpos
      have hop : (Operation.refRegister g.signature).Fits :=
        hfits g.decl hrelaying.mem g.signature hrelaying.signature .sampleRef
      rw [Call.operations, hrelaying.signatureOf_eq hall]
      obtain ⟨r, e', hsends⟩ := Sends.operation hω hstart _ he (hall.hasIndex hof) hop
      exact ⟨⟨g.decl, hrelaying.mem, rfl, _, hrelaying.signature⟩, [], r, e', hsends,
        List.forall_mem_singleton.mpr ⟨hof, hop⟩, fun op hop => absurd hop List.not_mem_nil⟩
  | encode name v =>
      rw [Call.function, Option.map_eq_some_iff] at hf
      obtain ⟨g, hg, rfl⟩ := hf
      obtain ⟨hmem, _, rfl⟩ := sampleNamed_eq_some hg
      have hrelaying := hgen g hmem
      have hof := hrelaying.ofDecl hpos
      have hop : (Operation.encode g.signature g.decl.type v).Fits :=
        hvalue _ v rfl g.decl hrelaying.mem rfl
      rw [Call.operations, hrelaying.signatureOf_eq hall, hall.typeOf_eq hrelaying.mem]
      obtain ⟨r, e', hsends⟩ := Sends.operation hω hstart _ he (hall.hasIndex hof) hop
      exact ⟨⟨g.decl, hrelaying.mem, rfl, _, hrelaying.signature⟩, [], r, e', hsends,
        List.forall_mem_singleton.mpr ⟨hof, hop⟩, fun op hop => absurd hop List.not_mem_nil⟩

end Relaying

/-! ## What the receiver finds -/

/-- Each of the list has a result. -/
theorem exists_of_mapM_eq_some {α β : Type} {f : α → Option β} {l : List α} {bs : List β}
    (h : l.mapM f = some bs) {a : α} (ha : a ∈ l) : ∃ b ∈ bs, f a = some b := by
  induction l generalizing bs with
  | nil => exact absurd ha List.not_mem_nil
  | cons x l ih =>
      rw [List.mapM_cons, Option.bind_eq_bind, Option.bind_eq_some_iff] at h
      obtain ⟨b, hb, h⟩ := h
      rw [Option.bind_eq_bind, Option.bind_eq_some_iff] at h
      obtain ⟨bs', hbs, h⟩ := h
      cases h
      rcases List.mem_cons.mp ha with rfl | ha
      · exact ⟨b, List.mem_cons_self, hb⟩
      · obtain ⟨b', hmem, hb'⟩ := ih hbs ha
        exact ⟨b', List.mem_cons_of_mem b hmem, hb'⟩

/-- What is found last among results is the result of what is found last. -/
theorem find?_reverse_mapM {α β : Type} {f : α → Option β} {l : List α} {bs : List β}
    (h : l.mapM f = some bs) {p : β → Bool} {q : α → Bool}
    (hpq : ∀ a ∈ l, ∀ b, f a = some b → p b = q a) :
    bs.reverse.find? p = (l.reverse.find? q).bind f := by
  induction l generalizing bs with
  | nil =>
      cases h
      rfl
  | cons a l ih =>
      obtain ⟨ha, hl⟩ := List.forall_mem_cons.mp hpq
      rw [List.mapM_cons, Option.bind_eq_bind, Option.bind_eq_some_iff] at h
      obtain ⟨b, hb, h⟩ := h
      rw [Option.bind_eq_bind, Option.bind_eq_some_iff] at h
      obtain ⟨bs', hbs, h⟩ := h
      cases h
      rw [List.reverse_cons, List.reverse_cons, List.find?_append, List.find?_append, ih hbs hl]
      cases hfind : l.reverse.find? q with
      | none =>
          rw [Option.bind_none, Option.none_or, Option.none_or, List.find?_singleton,
            List.find?_singleton, ha b hb]
          cases q a with
          | false => rfl
          | true => exact hb.symm
      | some x =>
          obtain ⟨b', _, hb'⟩ := exists_of_mapM_eq_some hbs
            (List.mem_reverse.mp (List.mem_of_find?_eq_some hfind))
          rw [Option.bind_some, hb', Option.some_or, Option.some_or, Option.bind_some, hb']

section Subscribed

variable {version : Nat} {index index' : Name → Int} {all : List Decl}

/-- What the receiver finds for the signatures of the sender. -/
structure Subscribed (version : Nat) (index index' : Name → Int) (all : List Decl)
    (r : Subscriptions) (y : Receiver) : Prop where
  registration : ∀ d ∈ all, ∀ s, signature version index d = some s → y.registration s =
    (r.handler d.name).map fun h => ⟨signatureOf version index' all d.name, d.type, h⟩
  ref : ∀ d ∈ all, ∀ s, signature version index d = some s → y.ref s =
    if d.name ∈ r.refs then some (signatureOf version index' all d.name) else none
  refs : r.refs ≠ [] → y.refs ≠ []

variable {generated : List (Generated ω)}
  (hgen : ∀ g ∈ generated, Emitted version index' all g) (hall : Declared index' all)

include hgen hall

/-- A sample of the receiver matches the one of its name. -/
theorem sameSignature_iff {g : Generated ω} (hg : g ∈ generated)
    (hsample : g.decl.isSampleDecl = true) {d : Decl} (hd : d ∈ all) {s : Signature}
    (hs : signature version index d = some s) :
    SameSignature g.signature s.name s.bytes ↔ g.decl.name = d.name := by
  have hemitted := hgen g hg
  have hgname := signature_name hemitted.signature
  constructor
  · rintro ⟨_, hname⟩
    rwa [hgname, signature_name hs, cString_of_not_mem (hall.text g.decl hemitted.mem),
      cString_of_not_mem (hall.text d hd)] at hname
  · intro hname
    have hdecl := hall.decl_unique hemitted.mem hd hname
    obtain ⟨bytes, hbytes, hsig⟩ := signature_bytes hemitted.signature hsample
    obtain ⟨bytes', hbytes', hsig'⟩ := signature_bytes hs (hdecl ▸ hsample)
    rw [hdecl, hbytes'] at hbytes
    refine ⟨?_, by rw [hgname, signature_name hs, hname]⟩
    rw [Signature.bytes, Signature.bytes, hsig, hsig', Option.some.inj hbytes]

/-- The handlers and references are registered under the names of samples. -/
theorem subscribed {r : Subscriptions} {regs : List Registration} {refs : List Signature}
    (hregs : r.handlers.mapM (registrationNamed generated) = some regs)
    (hrefs : r.refs.mapM (referenceNamed generated) = some refs) :
    Subscribed version index index' all r ⟨regs.reverse, refs.reverse⟩ := by
  refine ⟨fun d hd s hs => ?_, fun d hd s hs => ?_, fun hne => ?_⟩
  · -- the last handler that is registered for a name is the first in the table
    have hfind := find?_reverse_mapM hregs
      (p := fun reg => decide (SameSignature reg.signature s.name s.bytes))
      (q := fun x => decide (x.1 = d.name)) fun x _ reg hreg => by
        rw [registrationNamed, Option.map_eq_some_iff] at hreg
        obtain ⟨g, hg, rfl⟩ := hreg
        obtain ⟨hmem, hsample, hname⟩ := sampleNamed_eq_some hg
        rw [← hname]
        exact decide_eq_decide.mpr (sameSignature_iff hgen hall hmem hsample hd hs)
    rw [Receiver.registration, hfind, Subscriptions.handler]
    cases hx : r.handlers.reverse.find? fun x => decide (x.1 = d.name) with
    | none => rfl
    | some x =>
        have hname : x.1 = d.name := of_decide_eq_true
          (List.find?_some (p := fun x : Name × Handler => decide (x.1 = d.name)) hx)
        obtain ⟨reg, _, hreg⟩ := exists_of_mapM_eq_some hregs
          (List.mem_reverse.mp (List.mem_of_find?_eq_some hx))
        rw [Option.bind_some, hreg]
        rw [registrationNamed, Option.map_eq_some_iff] at hreg
        obtain ⟨g, hg, rfl⟩ := hreg
        obtain ⟨hmem, _, hgname⟩ := sampleNamed_eq_some hg
        have hdecl := hall.decl_unique (hgen g hmem).mem hd (hgname.trans hname)
        rw [← hdecl, (hgen g hmem).signatureOf_eq hall]
        rfl
  · have hfind := find?_reverse_mapM hrefs
      (p := fun s' => s'.signature.isSome && decide (SameSignature s' s.name s.bytes))
      (q := fun name => decide (name = d.name)) fun name _ s' hs' => by
        rw [referenceNamed, Option.map_eq_some_iff] at hs'
        obtain ⟨g, hg, rfl⟩ := hs'
        obtain ⟨hmem, hsample, hname⟩ := sampleNamed_eq_some hg
        obtain ⟨bytes, _, hsig⟩ := signature_bytes (hgen g hmem).signature hsample
        rw [hsig, Option.isSome_some, Bool.true_and, ← hname]
        exact decide_eq_decide.mpr (sameSignature_iff hgen hall hmem hsample hd hs)
    rw [Receiver.ref, hfind]
    -- a reference is there if its sample was named
    by_cases hmem : d.name ∈ r.refs
    · have hsome : (r.refs.reverse.find? fun name => decide (name = d.name)).isSome = true :=
        List.find?_isSome.mpr ⟨d.name, List.mem_reverse.mpr hmem, decide_eq_true rfl⟩
      obtain ⟨name, hname⟩ := Option.isSome_iff_exists.mp hsome
      have heq : name = d.name := of_decide_eq_true
        (List.find?_some (p := fun name : Name => decide (name = d.name)) hname)
      obtain ⟨s', _, hs'⟩ := exists_of_mapM_eq_some hrefs hmem
      rw [if_pos hmem, hname, Option.bind_some, heq, hs']
      rw [referenceNamed, Option.map_eq_some_iff] at hs'
      obtain ⟨g, hg, rfl⟩ := hs'
      obtain ⟨hg', _, hgname⟩ := sampleNamed_eq_some hg
      rw [← hgname, (hgen g hg').signatureOf_eq hall]
    · have hnone : (r.refs.reverse.find? fun name => decide (name = d.name)) = none := by
        rw [List.find?_eq_none]
        intro name hname heq
        rw [decide_eq_true_eq] at heq
        exact hmem (heq ▸ List.mem_reverse.mp hname)
      rw [if_neg hmem, hnone, Option.bind_none]
  · obtain ⟨name, hname⟩ := List.exists_mem_of_ne_nil r.refs hne
    obtain ⟨s', hs', _⟩ := exists_of_mapM_eq_some hrefs hname
    exact fun hnil => List.ne_nil_of_mem hs' (List.reverse_eq_nil_iff.mp hnil)

end Subscribed

/-! ## Runs -/

section Run

variable {version : Nat} {index index' : Name → Int} {all : List Decl} {r : Subscriptions}
  {y : Receiver} {x : Names} {t : Told}

/-- The encoder has been told the names. -/
structure Tracks (version : Nat) (index : Name → Int) (all : List Decl) (x : Names) (t : Told) :
    Prop where
  registered : t .registered = x.samples.map (signatureOf version index all)
  refs : t .sampleRef = x.refs.map (signatureOf version index all)
  declared : ∀ name ∈ x.refs, IsDeclared version index all name

/-- A signature is registered if its name is. -/
theorem Declared.has_iff (hall : Declared index all) {table : Table} {names : List Name}
    (h : t table = names.map (signatureOf version index all)) {name : Name}
    (hpos : 0 < index name) :
    t.has table (signatureOf version index all name).index = true ↔ name ∈ names := by
  rw [Told.has, h, List.any_map, List.any_eq_true]
  simp only [Function.comp, signatureOf_index, decide_eq_true_eq]
  constructor
  · rintro ⟨name', hmem, hindex⟩
    rwa [hall.injective name name' hpos hindex.symm]
  · exact fun hmem => ⟨name, hmem, rfl⟩

theorem Declared.add_insert (hall : Declared index all) {table : Table} {names : List Name}
    (h : t table = names.map (signatureOf version index all)) {name : Name}
    (hpos : 0 < index name) :
    (t.add table (signatureOf version index all name)) table =
      (names.insert name).map (signatureOf version index all) := by
  have hiff := hall.has_iff h hpos
  by_cases hmem : name ∈ names
  · rw [Told.add, if_pos (hiff.mpr hmem), List.insert_of_mem hmem, h]
  · have hnot : t.has table (signatureOf version index all name).index = false := by
      simpa using fun hhas => hmem (hiff.mp hhas)
    rw [Told.add_of_not_has hnot, List.insert_of_not_mem hmem, h, List.map_cons]

/-- The names follow the calls. -/
theorem Tracks.after (h : Tracks version index all x t) (hall : Declared index all) {call : Call}
    (hpos : 0 < index call.name) (hdecl : IsDeclared version index all call.name) :
    Tracks version index all (x.after call)
      (t.afterAll (call.operations (signatureOf version index all) (typeOf all))) := by
  cases call with
  | register name =>
      refine ⟨hall.add_insert h.registered hpos, ?_, h.declared⟩
      exact (Told.add_of_ne (by decide) t _).trans h.refs
  | typeRegister name => exact h
  | sampleRefRegister name =>
      refine ⟨(Told.add_of_ne (by decide) t _).trans h.registered,
        hall.add_insert h.refs hpos, fun name' hmem => ?_⟩
      rcases List.mem_insert_iff.mp hmem with rfl | hmem
      · exact hdecl
      · exact h.declared name' hmem
  | encode name v => exact h

theorem Tracks.typeCalls (h : Tracks version index all x t) {ops : List Operation}
    (hops : ∀ op ∈ ops, op.isTypeCall = true) : Tracks version index all x (t.afterAll ops) :=
  ⟨(Told.afterAll_typeCalls hops (by decide)).trans h.registered,
    (Told.afterAll_typeCalls hops (by decide)).trans h.refs, h.declared⟩

/-- Calls for types need nothing of the receiver. -/
theorem IsTypeCallOf.known {op : Operation} (h : IsTypeCallOf version index all op) :
    op.Known (OfDecl version index all) y := by
  have htype := h.isTypeCall
  refine ⟨h.ofDecl, h.fits, ?_, ?_, ?_⟩
  · rintro s rfl
    cases htype
  · rintro s rfl
    cases htype
  · rintro s type v rfl
    cases htype

variable (hsub : Subscribed version index index' all r y) (hall : Declared index all)

include hsub hall

/-- References are translated by their names. -/
theorem Subscribed.translate_eq (h : Tracks version index all x t) :
    y.translate t = r.translate index index' x := by
  funext i
  cases i with
  | none => rfl
  | some i =>
      rw [Receiver.translate, Subscriptions.translate, Option.bind_some, Option.bind_some, h.refs,
        List.find?_map]
      simp only [Function.comp_def, signatureOf_index]
      cases hfind : x.refs.find? fun name => decide (index name = (i : Int)) with
      | none => rfl
      | some name =>
          obtain ⟨d, hd, rfl, s, hs⟩ := h.declared name (List.mem_of_find?_eq_some hfind)
          rw [Option.map_some, Option.bind_some, Option.bind_some, hall.signatureOf_eq hd hs,
            hsub.ref d hd s hs]
          split
          · rw [Option.map_some, signatureOf_index]
          · rfl

/-- A call leads to the calls of handlers that its name says. -/
theorem Subscribed.calls_eq (h : Tracks version index all x t) {call : Call}
    (hpos : 0 < index call.name) (hdecl : IsDeclared version index all call.name) :
    y.calls t (call.operations (signatureOf version index all) (typeOf all)) =
      r.deliveriesOf index index' (typeOf all) x call := by
  cases call with
  | register name => rfl
  | typeRegister name => rfl
  | sampleRefRegister name => rfl
  | encode name v =>
      obtain ⟨d, hd, hname, s, hs⟩ := hdecl
      obtain rfl : d.name = name := hname
      have hiff := hall.has_iff h.registered hpos
      rw [Call.name] at hiff
      rw [Call.operations, Receiver.calls, Receiver.calls, List.append_nil, Receiver.callsOf,
        Subscriptions.deliveriesOf, hsub.translate_eq hall h]
      by_cases hmem : d.name ∈ x.samples
      · rw [if_pos hmem, if_pos (hiff.mpr hmem), hall.signatureOf_eq hd hs,
          hsub.registration d hd s hs]
        cases r.handler d.name with
        | none => rfl
        | some h => rfl
      · rw [if_neg hmem, if_neg fun hhas => hmem (hiff.mp hhas)]

/-- Both sides know of the call. -/
theorem Subscribed.known {call : Call} (hdecl : IsDeclared version index all call.name)
    (hregister : ∀ name, call = .register name → (r.handler name).isSome = true)
    (hrefs : ∀ name, call = .sampleRefRegister name → r.refs ≠ []) {op : Operation}
    (hop : op ∈ call.operations (signatureOf version index all) (typeOf all))
    (hof : OfDecl version index all op.signature) (hfits : op.Fits) :
    op.Known (OfDecl version index all) y := by
  obtain ⟨d, hd, hname, s, hs⟩ := hdecl
  cases call with
  | register name =>
      obtain rfl := List.mem_singleton.mp hop
      obtain rfl : d.name = name := hname
      refine ⟨hof, hfits, fun s' heq => ?_, fun _ heq => (by cases heq),
        fun _ _ _ heq => (by cases heq)⟩
      obtain ⟨h, hh⟩ := Option.isSome_iff_exists.mp (hregister _ rfl)
      cases heq
      refine ⟨⟨signatureOf version index' all d.name, d.type, h⟩, ?_⟩
      rw [hall.signatureOf_eq hd hs, hsub.registration d hd s hs, hh, Option.map_some]
  | typeRegister name => exact absurd hop List.not_mem_nil
  | sampleRefRegister name =>
      obtain rfl := List.mem_singleton.mp hop
      exact ⟨hof, hfits, fun _ heq => (by cases heq), fun _ _ => hsub.refs (hrefs name rfl),
        fun _ _ _ heq => (by cases heq)⟩
  | encode name v =>
      obtain rfl := List.mem_singleton.mp hop
      obtain rfl : d.name = name := hname
      refine ⟨hof, hfits, fun _ heq => (by cases heq), fun _ heq => (by cases heq),
        fun s' type v' heq reg hreg => ?_⟩
      cases heq
      rw [hall.signatureOf_eq hd hs, hsub.registration d hd s hs, Option.map_eq_some_iff] at hreg
      obtain ⟨h, _, rfl⟩ := hreg
      exact (hall.typeOf_eq hd).symm

end Run

theorem runCalls_cons (f : EncoderM ω Int) (functions : List (EncoderM ω Int)) :
    runCalls (f :: functions) = ((f >>= fun _ => pure ()) >>= fun _ => runCalls functions) := rfl

section Calls

variable {version : Nat} {index index' : Name → Int} {all : List Decl} {r : Subscriptions}
  {y : Receiver} {x : Names} {t : Told} {e : Encoder ω}

/-- What is known of calls of generated functions: their names have local indices, and the receiver
has handlers for the samples that are registered, and some reference if one is registered. -/
structure Callable (index : Name → Int) (r : Subscriptions) (calls : List Call) : Prop where
  index_pos : ∀ call ∈ calls, 0 < index call.name
  handlers : ∀ name, Call.register name ∈ calls → (r.handler name).isSome = true
  refs : ∀ name, Call.sampleRefRegister name ∈ calls → r.refs ≠ []

theorem Callable.tail {call : Call} {calls : List Call} (h : Callable index r (call :: calls)) :
    Callable index r calls :=
  ⟨fun c hc => h.index_pos c (List.mem_cons_of_mem call hc),
    fun name hname => h.handlers name (List.mem_cons_of_mem call hname),
    fun name hname => h.refs name (List.mem_cons_of_mem call hname)⟩

/-- **The calls of generated functions send** what leads to the calls of handlers their names
say. -/
theorem runCalls_sends (hω : ω.Flushes) (hstart : ∀ n, ω.start n = 0) (hall : Declared index all)
    (hfits : ∀ d ∈ all, ∀ s : Signature, signature version index d = some s →
      ∀ table, PacketFits table s) {generated : List (Generated ω)}
    (hgen : ∀ g ∈ generated, Relaying version index all g)
    (hsub : Subscribed version index index' all r y) {calls : List Call}
    {functions : List (EncoderM ω Int)}
    (hcalls : calls.mapM (Call.function generated) = some functions)
    (hvalues : ∀ name v, Call.encode name v ∈ calls → ∀ d ∈ all, d.name = name →
      SampleFits d.type v) (h : Callable index r calls) (hx : Tracks version index all x t)
    (he : Reflects t e) :
    ∃ ops e', Sends (runCalls functions) t ops e () e' ∧
      (∀ op ∈ ops, op.Known (OfDecl version index all) y) ∧
      y.calls t ops = r.deliveries index index' (typeOf all) x calls := by
  induction calls generalizing functions x t e with
  | nil =>
      cases hcalls
      exact ⟨[], e, Sends.pure he (), fun op hop => absurd hop List.not_mem_nil, rfl⟩
  | cons call calls ih =>
      rw [List.mapM_cons, Option.bind_eq_bind, Option.bind_eq_some_iff] at hcalls
      obtain ⟨f, hf, hcalls⟩ := hcalls
      rw [Option.bind_eq_bind, Option.bind_eq_some_iff] at hcalls
      obtain ⟨functions', hfunctions, hcalls⟩ := hcalls
      cases hcalls
      have hpos := h.index_pos call List.mem_cons_self
      obtain ⟨hdecl, types, result, e', hsends, hhead, htypes⟩ := function_sends hω hstart hall
        hfits hgen hpos (fun name v heq => hvalues name v (heq ▸ List.mem_cons_self)) hf he
      -- the call itself, and the ones for types around it
      have hknown : ∀ op ∈ call.operations (signatureOf version index all) (typeOf all) ++ types,
          op.Known (OfDecl version index all) y := by
        refine List.forall_mem_append.mpr ⟨fun op hop => ?_, fun op hop => (htypes op hop).known⟩
        obtain ⟨hof, hop'⟩ := hhead op hop
        exact hsub.known hall hdecl (fun name heq => h.handlers name (heq ▸ List.mem_cons_self))
          (fun name heq => h.refs name (heq ▸ List.mem_cons_self)) hop hof hop'
      have hpass : ∀ op ∈ types, op.isTypeCall = true := fun op hop => (htypes op hop).isTypeCall
      have htracks := (hx.after hall hpos hdecl).typeCalls hpass
      rw [← Told.afterAll_append] at htracks
      -- and the calls after it
      obtain ⟨ops, e'', hsends', hknown', hdeliveries⟩ :=
        ih hfunctions (fun name v hv => hvalues name v (List.mem_cons_of_mem call hv)) h.tail
          htracks hsends.reflects
      have hone : Sends (f >>= fun _ => pure ()) t (_ ++ []) e () e' :=
        hsends.bind (Sends.pure hsends.reflects ())
      rw [List.append_nil] at hone
      refine ⟨_ ++ ops, e'', runCalls_cons f functions' ▸ hone.bind hsends',
        List.forall_mem_append.mpr ⟨hknown, hknown'⟩, ?_⟩
      rw [Receiver.calls_append, Receiver.calls_append, Receiver.calls_typeCalls hpass,
        List.append_nil, hsub.calls_eq hall hx hpos hdecl, hdeliveries]
      rfl

end Calls

/-! ## Specifications -/

/-- The indices of different declarations are different. -/
theorem setLocalIndices_injective {referenced : Name → Bool} {k : Nat} {decls : List Decl}
    {name name' : Name} {i : Nat} (h : (name, i) ∈ setLocalIndices referenced k decls)
    (h' : (name', i) ∈ setLocalIndices referenced k decls) : name = name' := by
  induction decls generalizing k with
  | nil => exact absurd h List.not_mem_nil
  | cons d decls ih =>
      rw [setLocalIndices] at h h'
      split at h
      · rename_i hset
        rw [if_pos hset] at h'
        -- the first one has the index `k`, and no other one
        rcases List.mem_cons.mp h with heq | h
        · rcases List.mem_cons.mp h' with heq' | h'
          · rw [Prod.mk.injEq] at heq heq'
            exact heq.1.trans heq'.1.symm
          · have hle := (mem_setLocalIndices h').1
            rw [Prod.mk.injEq] at heq
            omega
        · rcases List.mem_cons.mp h' with heq' | h'
          · have hle := (mem_setLocalIndices h).1
            rw [Prod.mk.injEq] at heq'
            omega
          · exact ih h h'
      · rename_i hset
        rw [if_neg hset] at h'
        exact ih h h'

section Specification

variable {env : Environment} {spec : Specification}

theorem index_mem {name : Name} (h : 0 < index env spec name) :
    ∃ i : Nat, index env spec name = i ∧ (name, i) ∈ env.indices spec := by
  unfold index localIndex at h ⊢
  cases hl : lookupType (env.indices spec) name with
  | none =>
      rw [hl] at h
      exact absurd h (by decide)
  | some i => exact ⟨i, rfl, lookupType_mem hl⟩

theorem index_injective {name name' : Name} (hpos : 0 < index env spec name)
    (h : index env spec name = index env spec name') : name = name' := by
  obtain ⟨i, hi, hmem⟩ := index_mem hpos
  obtain ⟨j, hj, hmem'⟩ := index_mem (h ▸ hpos)
  obtain rfl : i = j := by omega
  exact setLocalIndices_injective hmem hmem'

/-- The declarations of a specification and their indices. -/
theorem declared (hfit : IndicesFit env spec) (htext : ∀ d ∈ decls env spec, (0 : UInt8) ∉ d.name) :
    Declared (index env spec) (decls env spec) where
  user_le name hpos := by
    obtain ⟨i, hi, hmem⟩ := index_mem hpos
    have hle := (mem_setLocalIndices hmem).1
    have huser := env.user_le
    rw [hi]
    omega
  lt := index_lt hfit
  injective name name' := index_injective
  sample_pos d hd hsample := index_pos hd (by rw [hsample, Bool.true_or])
  types_pos d hd name hname := index_pos_of_mem_userTypes hd hname
  nodup := spec.names_nodup env.intentionOrder
  text := htext

end Specification

/-- The signatures have the indices of their declarations. -/
theorem OfDecl.index_lt {env : Environment} {spec : Specification} {version m : Nat}
    {all : List Decl} (hm : IndicesBelow env spec m) (hpos : 0 < m) {s : Signature}
    (h : OfDecl version (index env spec) all s) : s.index < m := by
  obtain ⟨_, d, _, hs⟩ := h
  rw [(signature_facts hs).1]
  exact index_below hm hpos d.name

/-- **From a specification to the handlers.** Both sides are compiled from one specification, each
with its own local indices, for which the tables of the receiver have room. Whatever functions the
sender calls, in any order, the handlers of the receiver are called with the samples that were
encoded after their registration, in that order and each once, and with its own references; the
receiver stops at the end of its input. -/
theorem runCalls_delivers (hω : ω.Flushes) (hstart : ∀ n, ω.start n = 0) {env env' : Environment}
    {version : Nat} {spec : Specification} (horder : env'.intentionOrder = env.intentionOrder)
    {m : Nat} (hφ : φ.Ample m) (hm : IndicesBelow env spec m) (hm' : IndicesBelow env' spec m)
    {generated generated' : List (Generated ω)} (hgen : emitC ω env version spec = some generated)
    (hgen' : emitC ω env' version spec = some generated') {calls : List Call}
    {functions : List (EncoderM ω Int)}
    (hcalls : calls.mapM (Call.function generated) = some functions)
    (hfits : RunFits env version spec calls) {r : Subscriptions}
    (hcallable : Callable (index env spec) r calls) {regs : List Registration}
    {refs : List Signature} (hregs : r.handlers.mapM (registrationNamed generated') = some regs)
    (hrefs : r.refs.mapM (referenceNamed generated') = some refs) (w : Writer ω) (input : Reader φ)
    (hinput : input.error = 0)
    (hsent : ((runCalls functions).run (newEncoder w)).2.writer.written =
      w.written ++ input.unread) (uninit : Nat → Int) {n : Nat} (hn : input.unread.length < n) :
    ((runCalls functions).run (newEncoder w)).1 = .ok () ∧
      ∃ d, (receiveAll regs refs uninit n).run (decoderNew input) = (.ok (some φ.code), d) ∧
        d.calls = r.deliveries (index env spec) (index env' spec) (typeOf (decls env spec))
          ⟨[], []⟩ calls := by
  have hdecls : decls env' spec = decls env spec := by rw [decls, decls, horder]
  have htext : ∀ d ∈ decls env spec, (0 : UInt8) ∉ d.name := by
    intro d hd
    obtain ⟨s, hs⟩ := emitDecls_signature hgen d hd
    have hname := (hfits.1 d hd s hs .registered).name
    rwa [signature_name hs] at hname
  have hall := declared (le_trans hm hφ.lt.le) htext
  have hall' := declared (le_trans hm' hφ.lt.le) (hdecls.symm ▸ htext)
  rw [hdecls] at hall'
  -- what is emitted on both sides
  have hrelaying : ∀ g ∈ generated, Relaying version (index env spec) (decls env spec) g :=
    emitDecls_relaying hω hstart hall hfits.1 (fun d hd => hd)
      (fun g hg => absurd hg List.not_mem_nil) hgen
  have hemitted : ∀ g ∈ generated', Emitted version (index env' spec) (decls env spec) g := by
    rw [← hdecls]
    exact emitDecls_emitted (fun d hd => hd) (fun g hg => absurd hg List.not_mem_nil) hgen'
  have hsub : Subscribed version (index env spec) (index env' spec) (decls env spec) r
      ⟨regs.reverse, refs.reverse⟩ := subscribed hemitted hall' hregs hrefs
  -- the sender
  have htracks : Tracks version (index env spec) (decls env spec) ⟨[], []⟩ Told.nothing :=
    ⟨rfl, rfl, fun name hname => absurd hname List.not_mem_nil⟩
  obtain ⟨ops, e', hsends, hknown, hdeliveries⟩ := runCalls_sends hω hstart hall hfits.1 hrelaying
    hsub hcalls hfits.2 hcallable htracks (newEncoder_done w)
  have hwritten := hsends.written
  rw [hsends.run] at hsent
  rw [hsent, (newEncoder_writer hω w).2, List.append_assoc, List.append_cancel_left_eq] at hwritten
  refine ⟨by rw [hsends.run], ?_⟩
  -- the receiver
  have hregistered : ∀ reg ∈ regs,
      OfDecl version (index env' spec) (decls env spec) reg.signature := by
    intro reg hreg
    obtain ⟨x, _, hx⟩ := mem_of_mapM_eq_some hregs hreg
    rw [registrationNamed, Option.map_eq_some_iff] at hx
    obtain ⟨g, hg, rfl⟩ := hx
    obtain ⟨hmem, hsample, _⟩ := sampleNamed_eq_some hg
    exact (hemitted g hmem).ofDecl (hall'.sample_pos g.decl (hemitted g hmem).mem hsample)
  have hreferences : ∀ s ∈ refs, OfDecl version (index env' spec) (decls env spec) s := by
    intro s hs
    obtain ⟨name, _, hname⟩ := mem_of_mapM_eq_some hrefs hs
    rw [referenceNamed, Option.map_eq_some_iff] at hname
    obtain ⟨g, hg, rfl⟩ := hname
    obtain ⟨hmem, hsample, _⟩ := sampleNamed_eq_some hg
    exact (hemitted g hmem).ofDecl (hall'.sample_pos g.decl (hemitted g hmem).mem hsample)
  have hbound : (Told.nothing.stream ops).length + 1 < n := by
    have hversion : 1 ≤ (Packet.version CURRENT_VERSION).bytes.length := by decide
    have hpackets := length_le_bytes (Told.nothing.stream ops)
    rw [hwritten, List.length_append] at hn
    omega
  have hpos : 0 < m := Nat.zero_lt_of_lt hφ.tags
  obtain ⟨d, hrun, hd⟩ := receiveAll_reads hall'.distinct hall.distinct hφ
    (fun s hs => hs.index_lt hm' hpos) (fun s hs => hs.index_lt hm hpos) hregistered hreferences
    hknown hinput hwritten uninit hbound
  exact ⟨d, hrun, hd.trans hdeliveries⟩

/-- `typedef sample t; sample t a;` -/
def sampleSpec : Specification where
  decls := [⟨.typeDecl, [], [116], .prim .sample⟩, ⟨.sampleDecl, [], [97], .user [116]⟩]
  parsed := by simp [ParsedType.Parsed]
  checked := by decide

theorem sampleSpec_resolve : sampleSpec.resolve ⟨id, fun _ => .refl _⟩ =
    [⟨.typeDecl, [⟨[], [116]⟩], [116], .prim .sample⟩,
      ⟨.sampleDecl, [⟨[], [97]⟩], [97], .user [116] (.prim .sample)⟩] :=
  Option.some.inj ((sampleSpec.resolve_eq _).symm.trans rfl)

theorem user_le_later : LABCOMM_USER ≤ 0x50 := by decide

/-- A process in which something else was initialised before. -/
def laterEnvironment : Environment :=
  ⟨firstEnvironment.intentionOrder, firstEnvironment.declOrder, 0x50, user_le_later⟩

/-- A sample with a reference to itself. -/
def sampleCalls : List Call :=
  [.register [97], .sampleRefRegister [97], .encode [97] (.ref (some 0x41))]

/-- A handler and a reference for it. -/
def sampleSubscriptions : Subscriptions := ⟨[([97], ⟨1, 0⟩)], [[97]]⟩

theorem sampleSpec_indicesBelow : IndicesBelow firstEnvironment sampleSpec 128 ∧
    IndicesBelow laterEnvironment sampleSpec 128 := by
  constructor
  · rw [IndicesBelow, decls, show firstEnvironment.intentionOrder = ⟨id, fun _ => .refl _⟩ from rfl,
      sampleSpec_resolve]
    decide
  · rw [IndicesBelow, decls, show laterEnvironment.intentionOrder = ⟨id, fun _ => .refl _⟩ from rfl,
      sampleSpec_resolve]
    decide

theorem sampleSpec_runFits : RunFits firstEnvironment 2014 sampleSpec sampleCalls := by
  constructor
  · intro d hd s hs table
    have hmem : d ∈ sampleSpec.resolve ⟨id, fun _ => .refl _⟩ := hd
    rw [sampleSpec_resolve, List.mem_cons, List.mem_singleton] at hmem
    rcases hmem with rfl | rfl
    · obtain rfl : Signature.mk [116] none 0x40 (.sigdefBytes 0x28 [] .sigdefEnd) = s :=
        Option.some.inj (Eq.trans rfl hs)
      exact ⟨by decide, by cases table <;> decide⟩
    · obtain rfl : Signature.mk [97] (some [0x28]) 0x41 (.sigdefSignature
          (.mk [116] none 0x40 (.sigdefBytes 0x28 [] .sigdefEnd)) .sigdefEnd) = s :=
        Option.some.inj (Eq.trans rfl hs)
      exact ⟨by decide, by cases table <;> decide⟩
  · intro name v hmem d hd hname
    simp only [sampleCalls, List.mem_cons, List.not_mem_nil, or_false, reduceCtorEq, false_or,
      Call.encode.injEq] at hmem
    obtain ⟨rfl, rfl⟩ := hmem
    have hd' : d ∈ sampleSpec.resolve ⟨id, fun _ => .refl _⟩ := hd
    rw [sampleSpec_resolve, List.mem_cons, List.mem_singleton] at hd'
    rcases hd' with rfl | rfl
    · cases hname
    · refine ⟨trivial, ⟨some 0x41, rfl, trivial⟩, fun refs => ?_⟩
      show (bigEndian 4 _).length < 2 ^ 31
      rw [bigEndian_length]
      decide

/-- The handler gets the reference of its own process. -/
theorem runCalls_delivers_ref : ∃ generated generated' functions regs refs,
    emitC bytewise firstEnvironment 2014 sampleSpec = some generated ∧
    emitC bytewise laterEnvironment 2014 sampleSpec = some generated' ∧
    sampleCalls.mapM (Call.function generated) = some functions ∧
    sampleSubscriptions.handlers.mapM (registrationNamed generated') = some regs ∧
    sampleSubscriptions.refs.mapM (referenceNamed generated') = some refs ∧
    ∃ n, ∃ d : Decoder endOfFile,
      (receiveAll regs refs (fun _ => 0) n).run (decoderNew (Reader.ofBytes endOfFile
        ((runCalls functions).run (newEncoder (.empty bytewise))).2.writer.written)) =
          (.ok (some (-5)), d) ∧ d.calls = [⟨⟨1, 0⟩, .sample (.ref (some 0x51))⟩] := by
  have hgen : (emitC bytewise firstEnvironment 2014 sampleSpec).isSome := by decide
  have hgen' : (emitC bytewise laterEnvironment 2014 sampleSpec).isSome := by decide
  have hfunctions : (sampleCalls.mapM (Call.function
      ((emitC bytewise firstEnvironment 2014 sampleSpec).get hgen))).isSome := by decide +revert
  have hregs : (sampleSubscriptions.handlers.mapM (registrationNamed
      ((emitC bytewise laterEnvironment 2014 sampleSpec).get hgen'))).isSome := by decide +revert
  have hrefs : (sampleSubscriptions.refs.mapM (referenceNamed
      ((emitC bytewise laterEnvironment 2014 sampleSpec).get hgen'))).isSome := by decide +revert
  have hcallable : Callable (index firstEnvironment sampleSpec) sampleSubscriptions
      sampleCalls := by
    refine ⟨by decide, fun name hname => ?_, fun _ _ => List.cons_ne_nil _ _⟩
    simp only [sampleCalls, List.mem_cons, List.not_mem_nil, or_false, reduceCtorEq,
      Call.register.injEq] at hname
    rw [hname]
    decide
  have hcalls : sampleSubscriptions.deliveries (index firstEnvironment sampleSpec)
      (index laterEnvironment sampleSpec) (typeOf (decls firstEnvironment sampleSpec)) ⟨[], []⟩
        sampleCalls = [⟨⟨1, 0⟩, .sample (.ref (some 0x51))⟩] := rfl
  have horder : laterEnvironment.intentionOrder = firstEnvironment.intentionOrder := rfl
  have hdelivered := (runCalls_delivers (fun _ => rfl) (fun _ => rfl) horder endOfFile_ample
    sampleSpec_indicesBelow.1 sampleSpec_indicesBelow.2 (Option.some_get hgen).symm
    (Option.some_get hgen').symm (Option.some_get hfunctions).symm sampleSpec_runFits hcallable
    (Option.some_get hregs).symm (Option.some_get hrefs).symm (.empty bytewise) (Reader.ofBytes endOfFile _) rfl
    (by rw [Reader.ofBytes_unread]; exact (List.nil_append _).symm) (fun _ => 0)
    (Nat.lt_succ_self _)).2
  rw [hcalls] at hdelivered
  exact ⟨_, _, _, _, _, (Option.some_get hgen).symm, (Option.some_get hgen').symm,
    (Option.some_get hfunctions).symm, (Option.some_get hregs).symm, (Option.some_get hrefs).symm,
    _, hdelivered⟩

end LabComm.Compiler
