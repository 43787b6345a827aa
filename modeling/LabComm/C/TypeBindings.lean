import LabComm.C.RenamingEncoder
import LabComm.C.RenamingRuns
import LabComm.C.EncoderStream

set_option autoImplicit false

/-! # Type bindings through renaming

A binding that a stack of renaming encoders sends is of the signature that is renamed by every
layer, and so is the definition that the same stack sends for the type (`Resolves`). What the
layers know of a signature does not change any more once it is registered (`Forward`).
-/

namespace LabComm.C

open Library

variable {ω : WriterAction}

/-! ## The registry keeps its renames -/

theorem ok_of_bind {α β : Type} {m : RegistryM α} {f : α → RegistryM β}
    {r r'' : RenamingRegistry} {b : β} (h : (m >>= f) r = .ok (b, r'')) :
    ∃ a r', m r = .ok (a, r') ∧ f a r' = .ok (b, r'') := by
  change (m r >>= fun p => f p.1 p.2) = _ at h
  cases hm : m r with
  | error x =>
      rw [hm] at h
      cases h
  | ok p =>
      rw [hm] at h
      exact ⟨p.1, p.2, rfl, h⟩

/-- The function does not touch the renames. -/
def SameRenames {α : Type} (m : RegistryM α) : Prop :=
  ∀ r a r', m r = .ok (a, r') → r'.renames = r.renames ∧ r.unused ≤ r'.unused

theorem SameRenames.pure {α : Type} (a : α) : SameRenames (pure a : RegistryM α) := by
  intro r a r' h
  cases h
  exact ⟨rfl, le_rfl⟩

theorem SameRenames.throw {α : Type} (x : RegistryExit) :
    SameRenames (throw x : RegistryM α) := by
  intro r a r' h
  cases h

theorem SameRenames.bind {α β : Type} {m : RegistryM α} {f : α → RegistryM β}
    (hm : SameRenames m) (hf : ∀ a, SameRenames (f a)) : SameRenames (m >>= f) := by
  intro r b r'' h
  obtain ⟨a, r', h, h'⟩ := ok_of_bind h
  obtain ⟨hsame, hle⟩ := hm r a r' h
  obtain ⟨hsame', hle'⟩ := hf a r' b r'' h'
  exact ⟨hsame'.trans hsame, hle.trans hle'⟩

theorem SameRenames.get : SameRenames (get : RegistryM RenamingRegistry) := by
  intro r a r' h
  cases h
  exact ⟨rfl, le_rfl⟩

theorem SameRenames.modify {f : RenamingRegistry → RenamingRegistry}
    (hf : ∀ r, (f r).renames = r.renames ∧ r.unused ≤ (f r).unused) :
    SameRenames (modify f : RegistryM PUnit) := by
  intro r a r' h
  cases h
  exact hf r

theorem loadRegistry_same (a : Addr) : SameRenames (loadRegistry a) := by
  refine SameRenames.get.bind fun r => ?_
  split
  · exact .pure _
  · exact .throw _

theorem loadRename_same (a : Addr) : SameRenames (loadRename a) := by
  refine SameRenames.get.bind fun r => ?_
  split
  · exact .pure _
  · exact .throw _

theorem memoryAlloc_same : SameRenames memoryAlloc := by
  intro r a r' h
  cases h
  exact ⟨rfl, Nat.le_succ _⟩

theorem setLocalIndex_same (s : Signature) : SameRenames (setLocalIndex s) := by
  intro r a r' h
  obtain ⟨_, rfl⟩ := setLocalIndex_cases h
  exact ⟨rfl, le_rfl⟩

theorem registryIndex_same (s : Signature) : SameRenames (registryIndex s) := by
  unfold registryIndex
  split
  · exact .throw _
  · exact .pure _

theorem registryNew_same (s : Signature) (base : Option Addr) : SameRenames (registryNew s base) := by
  refine (registryIndex_same s).bind fun index => ?_
  split
  · exact .throw _
  · refine SameRenames.bind (SameRenames.modify ?_) fun _ => SameRenames.get.bind fun r => ?_
    · exact fun r => ⟨rfl, le_rfl⟩
    split
    · exact .pure _
    · refine memoryAlloc_same.bind fun a => SameRenames.bind (SameRenames.modify ?_) fun _ => .pure _
      exact fun r => ⟨rfl, le_rfl⟩

theorem findRename_same (newName : Name) (l : List Addr) : SameRenames (findRename newName l) := by
  induction l with
  | nil => exact .pure _
  | cons a l ih =>
      refine (loadRename_same a).bind fun e => ?_
      split
      · exact .pure _
      · exact ih

theorem loadRename_ok {a : Addr} {R : Rename} {r r' : RenamingRegistry}
    (h : loadRename a r = .ok (R, r')) : r.renames a = some R ∧ r' = r := by
  cases hR : r.renames a with
  | none =>
      simp [loadRename, hR, bind, StateT.bind, Except.bind, get, getThe, MonadStateOf.get,
        StateT.get, pure, Except.pure, throw, throwThe, MonadExceptOf.throw, StateT.lift] at h
  | some R' =>
      rw [loadRename_eq hR] at h
      cases h
      exact ⟨rfl, rfl⟩

/-- Nothing is at an address that is not allocated yet. -/
def RenamingRegistry.Unused (r : RenamingRegistry) : Prop := ∀ a, r.unused ≤ a → r.renames a = none

theorem KeepsSignatures.refl (r : RenamingRegistry) : KeepsSignatures r r :=
  fun _ R hR => ⟨R.useCount, hR⟩

theorem KeepsSignatures.trans {r r' r'' : RenamingRegistry} (h : KeepsSignatures r r')
    (h' : KeepsSignatures r' r'') : KeepsSignatures r r'' := by
  intro a R hR
  obtain ⟨m, hm⟩ := h a R hR
  obtain ⟨n, hn⟩ := h' a _ hm
  exact ⟨n, hn⟩

/-- A new rename is stored where there was none. -/
theorem addRename_keeps {base : Addr} {newName : Name} {r r' : RenamingRegistry} {a : Addr}
    (hunused : r.Unused) (h : addRename base newName r = .ok (a, r')) :
    r'.Unused ∧ KeepsSignatures r r' := by
  obtain ⟨entry, r1, halloc, h⟩ := ok_of_bind h
  cases halloc
  obtain ⟨e, r2, hload, h⟩ := ok_of_bind h
  obtain ⟨s, r3, hset, h⟩ := ok_of_bind h
  obtain ⟨b, r4, hnew, h⟩ := ok_of_bind h
  obtain ⟨e', r5, hload', h⟩ := ok_of_bind h
  cases h
  obtain ⟨h2, hle2⟩ := loadRegistry_same base _ _ _ hload
  obtain ⟨h3, hle3⟩ := setLocalIndex_same _ _ _ _ hset
  obtain ⟨h4, hle4⟩ := registryNew_same _ _ _ _ _ hnew
  obtain ⟨h5, hle5⟩ := loadRegistry_same base _ _ _ hload'
  have hsame : r5.renames = r.renames := h5.trans (h4.trans (h3.trans h2))
  have hle : r.unused + 1 ≤ r5.unused := hle2.trans (hle3.trans (hle4.trans hle5))
  constructor
  · intro a ha
    have hlt : r.unused < a := lt_of_lt_of_le (Nat.lt_succ_self _) (hle.trans ha)
    rw [storeRegistry_renames, storeRename_renames, Function.update_of_ne hlt.ne', hsame]
    exact hunused a hlt.le
  · intro a R hR
    have hne : a ≠ r.unused := by
      rintro rfl
      rw [hunused _ le_rfl] at hR
      cases hR
    refine ⟨R.useCount, ?_⟩
    rw [storeRegistry_renames, storeRename_renames, Function.update_of_ne hne, hsame, hR]

theorem SameRenames.keeps {α : Type} {m : RegistryM α} (hm : SameRenames m)
    {r r' : RenamingRegistry} {a : α} (hunused : r.Unused) (h : m r = .ok (a, r')) :
    r'.Unused ∧ KeepsSignatures r r' := by
  obtain ⟨hsame, hle⟩ := hm r a r' h
  refine ⟨fun b hb => ?_, fun b R hR => ⟨R.useCount, ?_⟩⟩
  · rw [hsame]
    exact hunused b (hle.trans hb)
  · rw [hsame, hR]

/-- **The renames that are there keep their signatures**, and there is one more use of the one
that is returned. -/
theorem renameNew_keeps {s : Signature} {rename : Name → Name} {r r' : RenamingRegistry}
    {a : Addr} (hunused : r.Unused) (h : renameNew s rename r = .ok (a, r')) :
    r'.Unused ∧ KeepsSignatures r r' ∧ ∃ R, r'.renames a = some R := by
  obtain ⟨base, r1, hnew, h⟩ := ok_of_bind h
  obtain ⟨e, r2, hload, h⟩ := ok_of_bind h
  obtain ⟨e', r3, hload', h⟩ := ok_of_bind h
  obtain ⟨l, r4, hfind, h⟩ := ok_of_bind h
  obtain ⟨hu1, hk1⟩ := (registryNew_same _ _).keeps hunused hnew
  obtain ⟨hu2, hk2⟩ := (loadRegistry_same _).keeps hu1 hload
  obtain ⟨hu3, hk3⟩ := (loadRegistry_same _).keeps hu2 hload'
  obtain ⟨hu4, hk4⟩ := (findRename_same _ _).keeps hu3 hfind
  have hbefore := hk1.trans (hk2.trans (hk3.trans hk4))
  obtain ⟨result, r5, hresult, h⟩ := ok_of_bind h
  have hfound : r5.Unused ∧ KeepsSignatures r4 r5 := by
    cases l with
    | some l =>
        cases hresult
        exact ⟨hu4, .refl _⟩
    | none => exact addRename_keeps hu4 hresult
  obtain ⟨hu5, hk5⟩ := hfound
  obtain ⟨R, r6, hR, hstore⟩ := ok_of_bind h
  obtain ⟨hR', rfl⟩ := loadRename_ok hR
  cases hstore
  refine ⟨?_, hbefore.trans (hk5.trans (.storeRename _ hR' _)), _, Function.update_self _ _ _⟩
  intro b hb
  have hne : b ≠ a := by
    rintro rfl
    rw [hu5 _ hb] at hR'
    cases hR'
  rw [storeRename_renames, Function.update_of_ne hne]
  exact hu5 b hb

/-! ## The base encoder -/

/-- A binding is to no type, or to one that was defined before. -/
def BindingNeeds (pre : List Sent) (s : Sent) : Prop :=
  ∀ sindex tindex, s.packet = .typeBinding sindex tindex →
    tindex = 0 ∨ Defined pre .typedefs tindex

/-- Every binding in the log can be resolved. -/
def BindingsResolve (e : Encoder ω) : Prop := Justified BindingNeeds e.sent

theorem bindingNeeds_of_ne {pre : List Sent} {s : Sent}
    (h : ∀ sindex tindex, s.packet ≠ .typeBinding sindex tindex) : BindingNeeds pre s :=
  fun sindex tindex hs => absurd hs (h sindex tindex)

section Base

variable (hω : ω.Flushes) (hstart : ∀ n, ω.start n = 0)

include hω hstart

theorem doRegister_bindings (table : Table) (s : Signature) :
    Preserves BindingsResolve Marks (fun e => Backed e .typedefs) (doRegister (ω := ω) table s)
      fun _ e => Backed e .typedefs ∧
        (table = .typedefs → 0 < s.index → e.done .typedefs s.index = true) := by
  intro e hI hP
  rcases doRegister_cases hω table s e with
    ⟨hnot, r, hr, _⟩ | ⟨_, hfail, _⟩ | ⟨_, _, _, hr⟩ | ⟨_, _, _, w, hr, _⟩
  · rw [hr]
    refine ⟨hI, Marks.refl e, fun a _ => ⟨hP, ?_⟩⟩
    rintro rfl hpos
    cases hdone : e.done .typedefs s.index with
    | true => rfl
    | false => exact absurd ⟨hpos, hdone⟩ hnot
  · exact absurd (hstart _) hfail
  · rw [hr]
    refine ⟨?_, ?_, by simp⟩
    · cases table <;> exact hI
    · cases table <;> exact marks_setDone e _ _
  · rw [hr]
    refine ⟨?_, ?_, fun a _ => ⟨backed_sends hP, ?_⟩⟩
    · exact hI.concat (bindingNeeds_of_ne fun _ _ => by cases table <;> simp [definition])
    · intro table' i hd
      exact marks_setDone e table s.index table' i hd
    · rintro rfl _
      show (e.setDone .typedefs s.index).done .typedefs s.index = true
      rw [Encoder.done_setDone]
      simp

theorem doTypeBind_bindings (s : Signature) (hasDeps : Bool) :
    Preserves BindingsResolve Marks
      (fun e => Backed e .typedefs ∧
        (hasDeps = true → 0 < s.index → e.done .typedefs s.index = true))
      (doTypeBind (ω := ω) s hasDeps) fun _ e => Backed e .typedefs := by
  rintro e hI ⟨hP, htype⟩
  by_cases h0 : s.index = 0
  · rw [doTypeBind_unset hasDeps e h0]
    exact ⟨hI, Marks.refl e, by simp⟩
  by_cases hpos : 0 < s.index
  · obtain ⟨w, hr, _⟩ := doTypeBind_sends hasDeps hω hpos (hstart e.writer.starts)
    rw [hr]
    refine ⟨hI.concat ?_, Marks.refl e, fun a _ i hd => (hP i hd).append _⟩
    intro sindex tindex hpacket
    cases hpacket
    cases hasDeps with
    | false => exact .inl rfl
    | true => exact .inr (hP _ (htype rfl hpos))
  · rw [doTypeBind_run hasDeps e h0, if_pos (by omega)]
    exact ⟨hI, Marks.refl e, fun a _ => hP⟩

theorem doEncode_bindings (s : Signature) (type : DataType) (v : Value) :
    Preserves BindingsResolve Marks (fun e => Backed e .typedefs) (doEncode (ω := ω) s type v)
      fun _ e => Backed e .typedefs := by
  intro e hI hP
  rcases doEncode_cases hω s type v e with ⟨r, hr⟩ | ⟨_, hfail, _⟩ | ⟨_, _, w, hr, _⟩
  · rw [hr]
    exact ⟨hI, Marks.refl e, fun a _ => hP⟩
  · exact absurd (hstart _) hfail
  · rw [hr]
    refine ⟨hI.concat (bindingNeeds_of_ne fun _ _ => by simp [sentSample]), Marks.refl e, ?_⟩
    exact fun a _ i hd => (hP i hd).append _

end Base

/-! ## The layers -/

/-- Nothing is unmarked, and nothing that is known of the renamed signatures changes. -/
structure Forward (s s' : EncoderStack ω) : Prop where
  marks : Marks s.base s'.base
  renamed : ∀ layer i a, (s.renamed layer).get i = some a → (s'.renamed layer).get i = some a
  signatures : ∀ k, KeepsSignatures (s.registries k) (s'.registries k)

theorem Forward.refl (s : EncoderStack ω) : Forward s s :=
  ⟨Marks.refl _, fun _ _ _ h => h, fun _ => .refl _⟩

theorem Forward.trans (s t u : EncoderStack ω) (h : Forward s t) (h' : Forward t u) :
    Forward s u :=
  ⟨Marks.trans _ _ _ h.marks h'.marks,
    fun layer i a ha => h'.renamed layer i a (h.renamed layer i a ha),
    fun k => (h.signatures k).trans (h'.signatures k)⟩

/-- Every binding in the log can be resolved, and the registries are in order. -/
structure BindInv (s : EncoderStack ω) : Prop where
  bindings : BindingsResolve s.base
  unused : ∀ k, (s.registries k).Unused

/-- The types that are marked are defined. -/
def TypesBacked (s : EncoderStack ω) : Prop := Backed s.base .typedefs

/-- The signature that the layers make of `x` is `y`. -/
def Resolves : List Layer → EncoderStack ω → Signature → Signature → Prop
  | [], _, x, y => y = x
  | l :: below, s, x, y => ∃ a R, (s.renamed below.length).get x.index = some a ∧
      (s.registries l.registry).renames a = some R ∧ Resolves below s R.signature y

theorem stable_resolves (layers : List Layer) (x y : Signature) :
    Stable Forward fun s : EncoderStack ω => Resolves layers s x y := by
  induction layers generalizing x with
  | nil => exact fun s t _ h => h
  | cons l below ih =>
      rintro s t hR ⟨a, R, ha, hRename, hrest⟩
      obtain ⟨n, hn⟩ := hR.signatures l.registry a R hRename
      exact ⟨a, _, hR.renamed _ _ _ ha, hn, ih R.signature hR hrest⟩

/-- The function keeps what is in order in order. -/
def KeepsBindings {α : Type} (m : StackM ω α) : Prop :=
  Preserves BindInv Forward TypesBacked m fun _ => TypesBacked

theorem KeepsBindings.pure {α : Type} (a : α) : KeepsBindings (pure a : StackM ω α) :=
  Preserves.pure Forward.refl fun _ h => h

theorem KeepsBindings.bind {α β : Type} {m : StackM ω α} {f : α → StackM ω β}
    (hm : KeepsBindings m) (hf : ∀ a, KeepsBindings (f a)) : KeepsBindings (m >>= f) :=
  Preserves.bind Forward.trans hm hf

theorem KeepsBindings.forM {α : Type} {l : List α} {f : α → StackM ω Unit}
    (hf : ∀ x ∈ l, KeepsBindings (f x)) : KeepsBindings (l.forM f) := by
  induction l with
  | nil => exact KeepsBindings.pure _
  | cons x l ih =>
      have hl := ih fun y hy => hf y (List.mem_cons_of_mem _ hy)
      exact (hf x List.mem_cons_self).bind fun _ => hl

theorem onBase_preserves {α : Type} {m : EncoderM ω α} {P : Encoder ω → Prop}
    {Q : α → Encoder ω → Prop} (h : Preserves BindingsResolve Marks P m Q) :
    Preserves BindInv Forward (fun s => P s.base) (onBase m) fun a s => Q a s.base := by
  intro s hI hP
  obtain ⟨hI', hR, hQ⟩ := h s.base hI.bindings hP
  cases hrun : m.run s.base with
  | mk r e =>
      rw [hrun] at hI' hR hQ
      have hforward : Forward s { s with base := e } :=
        ⟨hR, fun _ _ _ h => h, fun _ => .refl _⟩
      cases r with
      | ok a =>
          rw [onBase_ok hrun]
          refine ⟨⟨hI', hI.unused⟩, hforward, ?_⟩
          rintro b ⟨⟩
          exact hQ a rfl
      | error x =>
          rw [onBase_error hrun]
          refine ⟨⟨hI', hI.unused⟩, hforward, ?_⟩
          rintro b ⟨⟩

theorem onRegistry_preserves {k : Nat} {s : Signature} {rename : Name → Name}
    {P : EncoderStack ω → Prop}
    (hP : ∀ s t : EncoderStack ω, t.base = s.base → t.renamed = s.renamed → P s → P t) :
    Preserves BindInv Forward P (onRegistry (ω := ω) k (renameNew s rename))
      fun a t => P t ∧ ∃ R, (t.registries k).renames a = some R := by
  intro t hI ht
  have hunused : (t.registry k).Unused := hI.unused k
  cases hrun : renameNew s rename (t.registry k) with
  | error x =>
      rw [onRegistry_error hrun]
      exact ⟨hI, .refl t, by rintro a ⟨⟩⟩
  | ok p =>
      obtain ⟨a, r⟩ := p
      obtain ⟨hu, hkeeps, R, hR⟩ := renameNew_keeps hunused hrun
      rw [onRegistry_ok hrun]
      refine ⟨⟨hI.bindings, ?_⟩, ⟨Marks.refl _, fun _ _ _ h => h, ?_⟩, ?_⟩
      · intro j
        by_cases hj : j = k
        · subst hj
          simpa using hu
        · simpa [Function.update_of_ne hj] using hI.unused j
      · intro j
        by_cases hj : j = k
        · subst hj
          simpa using (show KeepsSignatures (t.registries j) r from hkeeps)
        · simp [Function.update_of_ne hj, KeepsSignatures.refl]
      · rintro b ⟨⟩
        exact ⟨hP t _ rfl rfl ht, R, by simp [hR]⟩

theorem getRenamed_unset (layer : Nat) {x : Signature} (s : EncoderStack ω) (h : x.index = 0) :
    (getRenamed layer x).run s = (.error (.encoder .signatureNotSet), s) := by
  rw [getRenamed, getLocalIndex, if_pos h]
  rfl

theorem getRenamed_run (layer : Nat) {x : Signature} (s : EncoderStack ω) (h : x.index ≠ 0) :
    (getRenamed layer x).run s = (.ok ((s.renamed layer).get x.index), s) := by
  rw [getRenamed, getLocalIndex, if_neg h]
  rfl

theorem getRenamed_preserves (layer : Nat) (x : Signature) {P : EncoderStack ω → Prop} :
    Preserves BindInv Forward P (getRenamed layer x)
      fun o s => P s ∧ o = (s.renamed layer).get x.index := by
  intro s hI hP
  by_cases h : x.index = 0
  · rw [getRenamed_unset layer s h]
    exact ⟨hI, .refl s, by rintro a ⟨⟩⟩
  · rw [getRenamed_run layer s h]
    refine ⟨hI, .refl s, ?_⟩
    rintro a ⟨⟩
    exact ⟨hP, rfl⟩

theorem signatureOf_run (l : Layer) (a : Addr) (s : EncoderStack ω) :
    (signatureOf l a).run s = match renameSignature (s.registries l.registry) a with
      | some y => (.ok y, s)
      | none => (.error (.registry .freed), s) := by
  change (match renameSignature (s.registries l.registry) a with
    | some y => (pure y : StackM ω Signature)
    | none => throw (StackExit.registry .freed)).run s = _
  split <;> rfl

theorem signatureOf_preserves (l : Layer) (a : Addr) {P : EncoderStack ω → Prop} :
    Preserves BindInv Forward P (signatureOf l a)
      fun y s => P s ∧ ∃ R, (s.registries l.registry).renames a = some R ∧ R.signature = y := by
  intro s hI hP
  rw [signatureOf_run, renameSignature]
  cases hR : (s.registries l.registry).renames a with
  | none => exact ⟨hI, .refl s, by rintro y ⟨⟩⟩
  | some R =>
      refine ⟨hI, .refl s, ?_⟩
      rintro y ⟨⟩
      exact ⟨hP, R, hR, rfl⟩

/-- The signature is renamed by the layer afterwards. -/
theorem setRenamed_preserves (layer : Nat) (l : Layer) (x : Signature) :
    Preserves BindInv Forward TypesBacked (setRenamed (ω := ω) layer l x)
      fun a s => TypesBacked s ∧ (s.renamed layer).get x.index = some a := by
  refine (getRenamed_preserves layer x).bind Forward.trans fun o => ?_
  cases o with
  | some a =>
      -- it was renamed before
      refine Preserves.pure Forward.refl ?_
      rintro s ⟨hs, ha⟩
      exact ⟨hs, ha.symm⟩
  | none =>
      -- the registry makes the signature; the layer has none for the index until it is stored
      have hkept : ∀ s t : EncoderStack ω, t.base = s.base → t.renamed = s.renamed →
          (TypesBacked s ∧ none = (s.renamed layer).get x.index) →
            TypesBacked t ∧ none = (t.renamed layer).get x.index := by
        rintro s t hbase hrenamed ⟨hs, hnone⟩
        unfold TypesBacked
        rw [hbase, hrenamed]
        exact ⟨hs, hnone⟩
      have hnew : Preserves BindInv Forward _ (onRegistry l.registry (renameNew x l.rename)) _ :=
        onRegistry_preserves hkept
      refine hnew.bind Forward.trans fun a => ?_
      intro s hI hs
      obtain ⟨⟨hbacked, hnone⟩, _⟩ := hs
      have hget : ∀ k i, ((s.setRenamed layer x.index a).renamed k).get i =
          if k = layer ∧ i = x.index then some a else (s.renamed k).get i := by
        intro k i
        by_cases hk : k = layer
        · subst hk
          simp [EncoderStack.setRenamed, SigArray.get_set]
        · simp [EncoderStack.setRenamed, hk]
      refine ⟨⟨hI.bindings, hI.unused⟩, ⟨Marks.refl _, ?_, fun k => .refl _⟩, ?_⟩
      · intro k i b hb
        show ((s.setRenamed layer x.index a).renamed k).get i = some b
        rw [hget, if_neg]
        · exact hb
        · rintro ⟨rfl, rfl⟩
          rw [← hnone] at hb
          cases hb
      · rintro b ⟨⟩
        refine ⟨hbacked, ?_⟩
        show ((s.setRenamed layer x.index a).renamed layer).get x.index = some a
        rw [hget, if_pos ⟨rfl, rfl⟩]

/-! ## Stacks -/

/-- What the functions of a stack do to the bindings. -/
structure Binds (layers : List Layer) (e : EncoderInterface ω) : Prop where
  typeRegister : ∀ x, KeepsBindings (e.typeRegister x)
  defines : ∀ x y, Preserves BindInv Forward (fun s => TypesBacked s ∧ Resolves layers s x y)
    (e.typeRegister x) fun _ s => TypesBacked s ∧
      (0 < y.index → s.base.done .typedefs y.index = true)
  typeBind : ∀ x y hasDeps, Preserves BindInv Forward
    (fun s => TypesBacked s ∧ Resolves layers s x y ∧
      (hasDeps = true ∨ layers ≠ [] → 0 < y.index → s.base.done .typedefs y.index = true))
    (e.typeBind x hasDeps) fun _ => TypesBacked
  sampleRegister : ∀ x, Preserves BindInv Forward TypesBacked (e.sampleRegister x)
    fun _ s => TypesBacked s ∧ ∃ y, Resolves layers s x y

section Stacks

variable (hω : ω.Flushes) (hstart : ∀ n, ω.start n = 0)

include hω hstart

theorem baseEncoder_binds : Binds [] (baseEncoder (ω := ω)) where
  typeRegister x := (onBase_preserves (doRegister_bindings hω hstart .typedefs x)).weaken
    (fun _ h => h) fun _ _ h => h.1
  defines x y := by
    refine (onBase_preserves (doRegister_bindings hω hstart .typedefs x)).frame
      (stable_resolves [] x y) |>.weaken (fun _ h => h) ?_
    rintro _ s ⟨⟨hbacked, hdone⟩, rfl⟩
    exact ⟨hbacked, hdone rfl⟩
  typeBind x y hasDeps := by
    refine (onBase_preserves (doTypeBind_bindings hω hstart x hasDeps)).weaken ?_ fun _ _ h => h
    rintro s ⟨hbacked, rfl, hdone⟩
    exact ⟨hbacked, fun h => hdone (.inl h)⟩
  sampleRegister x := by
    refine (onBase_preserves (doRegister_bindings hω hstart .registered x)).weaken
      (fun _ h => h) ?_
    rintro _ s ⟨hbacked, _⟩
    exact ⟨hbacked, x, rfl⟩

omit hω hstart in
theorem renamingEncoder_binds {below : List Layer} {next : EncoderInterface ω}
    (hnext : Binds below next) (l : Layer) :
    Binds (l :: below) (renamingEncoder below.length l next) where
  typeRegister x := by
    refine (getRenamed_preserves below.length x).bind Forward.trans fun o => ?_
    cases o with
    | none => exact (hnext.typeRegister x).weaken (fun _ h => h.1) fun _ _ h => h
    | some a =>
        refine ((hnext.typeRegister x).weaken (fun _ h => h.1) fun _ _ h => h).bind Forward.trans
          fun _ => ?_
        refine (signatureOf_preserves l a).bind Forward.trans fun z => ?_
        exact (hnext.typeRegister z).weaken (fun _ h => h.1) fun _ _ h => h
  defines x y := by
    refine (getRenamed_preserves below.length x).bind Forward.trans fun o => ?_
    cases o with
    | none =>
        -- the signature is renamed
        rintro s _ ⟨⟨_, a, R, ha, _⟩, hnone⟩
        rw [ha] at hnone
        cases hnone
    | some a =>
        have hboth := (hnext.typeRegister x).frame (stable_resolves (l :: below) x y)
        refine Preserves.bind (Q := fun _ s => (TypesBacked s ∧ Resolves (l :: below) s x y) ∧
          (s.renamed below.length).get x.index = some a) Forward.trans ?_ fun _ => ?_
        · have hstable : Stable Forward fun s : EncoderStack ω =>
              (s.renamed below.length).get x.index = some a := fun s t hR h => hR.renamed _ _ _ h
          exact (hboth.frame hstable).weaken (fun s h => ⟨h.1, h.2.symm⟩) fun _ _ h => h
        · refine (signatureOf_preserves l a).bind Forward.trans fun z => ?_
          refine (hnext.defines z y).weaken ?_ fun _ _ h => h
          rintro s ⟨⟨⟨hbacked, b, R, hb, hR, hrest⟩, ha⟩, S, hS, rfl⟩
          obtain rfl : a = b := Option.some.inj (ha.symm.trans hb)
          obtain rfl : S = R := Option.some.inj (hS.symm.trans hR)
          exact ⟨hbacked, hrest⟩
  typeBind x y hasDeps := by
    refine (getRenamed_preserves below.length x).bind Forward.trans fun o => ?_
    cases o with
    | none =>
        rintro s _ ⟨⟨_, ⟨a, R, ha, _⟩, _⟩, hnone⟩
        rw [ha] at hnone
        cases hnone
    | some a =>
        refine (signatureOf_preserves l a).bind Forward.trans fun z => ?_
        refine (hnext.typeBind z y true).weaken ?_ fun _ _ h => h
        rintro s ⟨⟨⟨hbacked, ⟨b, R, hb, hR, hrest⟩, hdone⟩, ha⟩, S, hS, rfl⟩
        obtain rfl : a = b := Option.some.inj (ha.trans hb)
        obtain rfl : S = R := Option.some.inj (hS.symm.trans hR)
        exact ⟨hbacked, hrest, fun _ => hdone (.inr (by simp))⟩
  sampleRegister x := by
    refine (setRenamed_preserves below.length l x).bind Forward.trans fun a => ?_
    refine (signatureOf_preserves l a).bind Forward.trans fun z => ?_
    have hstable : Stable Forward fun s : EncoderStack ω =>
        (s.renamed below.length).get x.index = some a ∧
          ∃ R, (s.registries l.registry).renames a = some R ∧ R.signature = z := by
      rintro s t hR ⟨ha, R, hRename, rfl⟩
      obtain ⟨n, hn⟩ := hR.signatures l.registry a R hRename
      exact ⟨hR.renamed _ _ _ ha, _, hn, rfl⟩
    refine ((hnext.sampleRegister z).frame hstable).weaken (fun s h => ⟨h.1.1, h.1.2, h.2⟩) ?_
    rintro _ s ⟨⟨hbacked, y, hy⟩, ha, R, hR, rfl⟩
    exact ⟨hbacked, y, a, R, ha, hR, hy⟩

theorem stackEncoder_binds (layers : List Layer) : Binds layers (stackEncoder (ω := ω) layers) := by
  induction layers with
  | nil => exact baseEncoder_binds hω hstart
  | cons l below ih => exact renamingEncoder_binds ih l

end Stacks

end LabComm.C
