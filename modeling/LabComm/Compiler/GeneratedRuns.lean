import LabComm.Compiler.Generated
import LabComm.C.EncoderStream

set_option autoImplicit false

/-! # Runs of the generated functions

Every sequence of calls of the generated functions on a new encoder sends a stream in which
everything is defined before it is used (`runCalls_stream`), as long as the writer starts and
flushes.
-/

namespace LabComm.Compiler

open Library C

/-! ## Names refer to declarations before -/

theorem userTypes_rewriteArray (elem : DataType) (dims : List (List Exp)) :
    userTypes (rewriteArray elem dims) = userTypes elem := by
  induction dims with
  | nil => rfl
  | cons dim dims ih => exact ih

mutual

theorem userTypes_resolveType {h : IterationOrder Intention} {env : List (Name × DataType)} :
    ∀ {t : ParsedType} {t' : DataType}, resolveType h env t = some t' →
      ∀ name ∈ userTypes t', ∃ type, (name, type) ∈ env
  | .void, t', ht, name, hname => by
      cases ht
      exact absurd hname (by simp [userTypes])
  | .prim p, t', ht, name, hname => by
      cases ht
      exact absurd hname (by simp [userTypes])
  | .user n, t', ht, name, hname => by
      rw [resolveType, Option.map_eq_some_iff] at ht
      obtain ⟨type, hlookup, rfl⟩ := ht
      rw [userTypes, List.mem_singleton] at hname
      subst hname
      exact ⟨type, lookupType_mem hlookup⟩
  | .struct fields, t', ht, name, hname => by
      rw [resolveType, Option.map_eq_some_iff] at ht
      obtain ⟨fields', hf, rfl⟩ := ht
      exact userTypes_resolveFields hf name hname
  | .array elem dims, t', ht, name, hname => by
      rw [resolveType, Option.map_eq_some_iff] at ht
      obtain ⟨elem', he, rfl⟩ := ht
      rw [userTypes_rewriteArray] at hname
      exact userTypes_resolveType he name hname

theorem userTypes_resolveFields {h : IterationOrder Intention} {env : List (Name × DataType)} :
    ∀ {fields : ParsedFields} {fields' : Fields}, resolveFields h env fields = some fields' →
      ∀ name ∈ userTypesFields fields', ∃ type, (name, type) ∈ env
  | .nil, fields', hf, name, hname => by
      cases hf
      exact absurd hname (by simp [userTypesFields])
  | .cons intentions n type rest, fields', hf, name, hname => by
      rw [resolveFields, Option.bind_eq_bind, Option.bind_eq_some_iff] at hf
      obtain ⟨type', ht, hf⟩ := hf
      rw [Option.bind_eq_bind, Option.bind_eq_some_iff] at hf
      obtain ⟨rest', hr, hf⟩ := hf
      cases hf
      rcases List.mem_append.mp hname with hname | hname
      · exact userTypes_resolveType ht name hname
      · exact userTypes_resolveFields hr name hname

end

/-- The user types of a declaration are typedefs before it. -/
def TypesDeclared (pre : List Decl) (d : Decl) : Prop :=
  ∀ name ∈ userTypes d.type, ∃ d' ∈ pre, d'.isSampleDecl = false ∧ d'.name = name

theorem typesDeclared_resolveDecls {h : IterationOrder Intention}
    {env : List (Name × DataType)} {decls : List ParsedDecl} {ds : List Decl}
    (hds : resolveDecls h env decls = some ds) (pre : List Decl)
    (henv : ∀ name type, (name, type) ∈ env →
      ∃ d ∈ pre, d.isSampleDecl = false ∧ d.name = name)
    (hpre : Justified TypesDeclared pre) : Justified TypesDeclared (pre ++ ds) := by
  induction decls generalizing env ds pre with
  | nil =>
      cases hds
      rwa [List.append_nil]
  | cons d decls ih =>
      rw [resolveDecls, Option.bind_eq_bind, Option.bind_eq_some_iff] at hds
      obtain ⟨type, ht, hds⟩ := hds
      rw [Option.bind_eq_bind, Option.bind_eq_some_iff] at hds
      obtain ⟨rest, hrest, hds⟩ := hds
      cases hds
      let d' : Decl := ⟨d.kind, intentionSet h d.intentions d.name, d.name, type⟩
      -- the names in the type are those that the environment has, and they were declared
      have hneeds : TypesDeclared pre d' := by
        intro name hname
        obtain ⟨t, hmem⟩ := userTypes_resolveType ht name hname
        exact henv name t hmem
      have key := ih hrest (pre ++ [d']) (by
        intro name t hmem
        split at hmem
        · -- a typedef adds its own name to the environment, a sample does not
          rename_i hkind
          rcases List.mem_append.mp hmem with hmem | hmem
          · obtain ⟨x, hx, hs, hn⟩ := henv name t hmem
            exact ⟨x, List.mem_append_left _ hx, hs, hn⟩
          · rw [List.mem_singleton, Prod.mk.injEq] at hmem
            refine ⟨d', by simp, ?_, hmem.1.symm⟩
            show (d.kind == DeclKind.sampleDecl) = false
            rw [hkind]
            rfl
        · obtain ⟨x, hx, hs, hn⟩ := henv name t hmem
          exact ⟨x, List.mem_append_left _ hx, hs, hn⟩) (hpre.concat hneeds)
      rwa [List.append_assoc, List.singleton_append] at key

theorem typesDeclared_resolve (h : IterationOrder Intention) (spec : Specification) :
    Justified TypesDeclared (spec.resolve h) :=
  typesDeclared_resolveDecls (spec.resolve_eq h) [] (by simp) Justified.nil

/-! ## Local indices -/

theorem mem_setLocalIndices {referenced : Name → Bool} {k : Nat} {decls : List Decl}
    {name : Name} {i : Nat} (h : (name, i) ∈ setLocalIndices referenced k decls) :
    k ≤ i ∧ i < k + decls.length := by
  induction decls generalizing k with
  | nil => exact absurd h (by simp [setLocalIndices])
  | cons d decls ih =>
      rw [setLocalIndices] at h
      split at h
      · rcases List.mem_cons.mp h with heq | h
        · cases heq
          simp
        · obtain ⟨h1, h2⟩ := ih h
          rw [List.length_cons]
          omega
      · obtain ⟨h1, h2⟩ := ih h
        rw [List.length_cons]
        omega

theorem mem_setLocalIndices_of_mem {referenced : Name → Bool} {k : Nat} {decls : List Decl}
    {d : Decl} (hd : d ∈ decls) (hset : (d.isSampleDecl || referenced d.name) = true) :
    ∃ i, (d.name, i) ∈ setLocalIndices referenced k decls := by
  induction decls generalizing k with
  | nil => exact absurd hd (by simp)
  | cons x decls ih =>
      rw [setLocalIndices]
      rcases List.mem_cons.mp hd with rfl | hd
      · rw [if_pos hset]
        exact ⟨k, List.mem_cons_self⟩
      · split
        · obtain ⟨i, hi⟩ := ih hd
          exact ⟨i, List.mem_cons_of_mem _ hi⟩
        · exact ih hd

theorem lookupType_isSome {α : Type} {env : List (Name × α)} {name : Name} {a : α}
    (h : (name, a) ∈ env) : ∃ b, lookupType env name = some b := by
  rw [← Option.isSome_iff_exists, lookupType, Option.isSome_map, List.find?_isSome]
  exact ⟨_, h, by simp⟩

section Indices

variable (env : Environment) (spec : Specification)

/-- The declarations of the specification. -/
def decls : List Decl := spec.resolve env.intentionOrder

/-- The local index of a declaration of the specification. -/
def index (name : Name) : Int := localIndex (env.indices spec) name

/-- `local_index`, an `int`, does not overflow. -/
def IndicesFit : Prop := env.localIndex + (decls env spec).length ≤ 2 ^ 31

/-- The local indices are below `m`. -/
def IndicesBelow (m : Nat) : Prop := env.localIndex + (decls env spec).length ≤ m

variable {env spec}

theorem index_nonneg (name : Name) : 0 ≤ index env spec name := by
  unfold index localIndex
  omega

theorem index_below {m : Nat} (hm : IndicesBelow env spec m) (hpos : 0 < m) (name : Name) :
    index env spec name < m := by
  unfold index localIndex
  cases hl : lookupType (env.indices spec) name with
  | none => exact_mod_cast hpos
  | some i =>
      obtain ⟨_, hi⟩ := mem_setLocalIndices (lookupType_mem hl)
      have hlt : i < m := lt_of_lt_of_le hi hm
      rw [Option.getD_some]
      exact_mod_cast hlt

theorem index_lt (hfit : IndicesFit env spec) (name : Name) : index env spec name < 2 ^ 31 :=
  index_below (m := 2 ^ 31) hfit (by norm_num) name

theorem index_pos {d : Decl} (hd : d ∈ decls env spec)
    (hset : (d.isSampleDecl ||
      isReferenced env.declOrder (decls env spec) d.name) = true) :
    0 < index env spec d.name := by
  obtain ⟨i, hi⟩ := mem_setLocalIndices_of_mem (k := env.localIndex) hd hset
  obtain ⟨j, hj⟩ := lookupType_isSome hi
  obtain ⟨hle, _⟩ := mem_setLocalIndices (lookupType_mem hj)
  have huser := env.user_le
  have hj' : lookupType (env.indices spec) d.name = some j := hj
  rw [index, localIndex, hj', Option.getD_some]
  simp only [LABCOMM_USER] at huser
  omega

theorem mem_typeDependencies {h : IterationOrder Name} {d : Decl} {name : Name} :
    name ∈ typeDependencies h d ↔ name ∈ userTypes d.type := by
  rw [typeDependencies, (h.perm _).mem_iff, List.mem_dedup]

/-- A type that is referred to has an index. -/
theorem index_pos_of_mem_userTypes {d : Decl} (hd : d ∈ decls env spec) {name : Name}
    (hname : name ∈ userTypes d.type) : 0 < index env spec name := by
  obtain ⟨pre, post, hsplit⟩ := List.append_of_mem hd
  obtain ⟨d', hd', _, rfl⟩ :=
    typesDeclared_resolve env.intentionOrder spec pre d post hsplit name hname
  have hmem : d' ∈ decls env spec := by
    rw [hsplit]
    exact List.mem_append_left _ hd'
  refine index_pos hmem ?_
  rw [Bool.or_eq_true, isReferenced, List.any_eq_true]
  exact .inr ⟨d, hd, by simpa using mem_typeDependencies.mpr hname⟩

end Indices

/-! ## Type ids -/

mutual

/-- The references of a hierarchical signature are to the user types of the type. -/
theorem typeRef_mem_genSigLine : ∀ {t : DataType} {lines : List SignatureLine},
    genSigLine t = some lines → ∀ {name : Name} {ls : List SignatureLine},
      SignatureLine.typeRef name ls ∈ lines → name ∈ userTypes t
  | .void, lines, h, name, ls, hmem => by
      cases h
      simp at hmem
  | .prim p, lines, h, name, ls, hmem => by
      cases h
      simp at hmem
  | .user n type, lines, h, name, ls, hmem => by
      rw [genSigLine, Option.bind_eq_bind, Option.bind_eq_some_iff] at h
      obtain ⟨inner, _, h⟩ := h
      cases h
      rw [List.mem_singleton] at hmem
      cases hmem
      exact List.mem_cons_self
  | .struct fields, lines, h, name, ls, hmem => by
      rw [genSigLine, Option.bind_eq_bind, Option.bind_eq_some_iff] at h
      obtain ⟨inner, hinner, h⟩ := h
      cases h
      simp only [List.mem_cons, List.mem_append, List.not_mem_nil, or_false, reduceCtorEq,
        false_or] at hmem
      exact typeRef_mem_genSigLineFields hinner hmem
  | .array elem dim, lines, h, name, ls, hmem => by
      rw [genSigLine, Option.bind_eq_bind, Option.bind_eq_some_iff] at h
      obtain ⟨exps, hdim, h⟩ := h
      rw [Option.bind_eq_some_iff] at h
      obtain ⟨inner, hinner, h⟩ := h
      cases h
      simp only [List.mem_cons, List.mem_append, List.not_mem_nil, or_false, reduceCtorEq,
        false_or] at hmem
      rcases hmem with hmem | hmem
      · obtain ⟨e, _, he⟩ := mem_of_mapM_eq_some hdim hmem
        exact absurd rfl (signatureLine_ne he name ls)
      · exact typeRef_mem_genSigLine hinner hmem

theorem typeRef_mem_genSigLineFields : ∀ {fields : Fields} {lines : List SignatureLine},
    genSigLineFields fields = some lines → ∀ {name : Name} {ls : List SignatureLine},
      SignatureLine.typeRef name ls ∈ lines → name ∈ userTypesFields fields
  | .nil, lines, h, name, ls, hmem => by
      cases h
      simp at hmem
  | .cons intentions n type rest, lines, h, name, ls, hmem => by
      rw [genSigLineFields, Option.bind_eq_bind, Option.bind_eq_some_iff] at h
      obtain ⟨first, hfirst, h⟩ := h
      rw [Option.bind_eq_some_iff] at h
      obtain ⟨more, hmore, h⟩ := h
      cases h
      simp only [List.mem_cons, List.mem_append, reduceCtorEq, false_or] at hmem
      rw [userTypesFields, List.mem_append]
      rcases hmem with hmem | hmem
      · exact .inl (typeRef_mem_genSigLine hfirst hmem)
      · exact .inr (typeRef_mem_genSigLineFields hmore hmem)

end

/-- What an entry of a table may refer to: the index of a name among `names`. -/
def RefersTo (index : Name → Int) (names : Name → Prop) : SignatureData → Prop
  | .sigdefEnd => True
  | .sigdefBytes _ _ rest => RefersTo index names rest
  | .sigdefSignature s rest =>
      (∃ name, names name ∧ s.index = index name) ∧ RefersTo index names rest

theorem refersTo_emitBytes {index : Name → Int} {names : Name → Prop} {rest : SignatureData}
    (h : RefersTo index names rest) (bs : List UInt8) :
    RefersTo index names (emitBytes bs rest) := by
  cases bs <;> exact h

theorem refersTo_emitLines {version : Nat} {index : Name → Int} {names : Name → Prop}
    {lines : List SignatureLine} {entries : SignatureData}
    (h : emitLines version index lines = some entries)
    (hnames : ∀ name ls, SignatureLine.typeRef name ls ∈ lines → names name) :
    RefersTo index names entries := by
  induction lines generalizing entries with
  | nil =>
      cases h
      trivial
  | cons line lines ih =>
      rw [emitLines, Option.bind_eq_bind, Option.bind_eq_some_iff] at h
      obtain ⟨entry, hentry, h⟩ := h
      rw [Option.bind_eq_bind, Option.bind_eq_some_iff] at h
      obtain ⟨rest, hrest, h⟩ := h
      cases h
      have hr := ih hrest fun name ls hmem => hnames name ls (List.mem_cons_of_mem _ hmem)
      cases line with
      | comment =>
          cases hentry
          exact hr
      | int data =>
          rw [emitLine, Option.map_eq_some_iff] at hentry
          obtain ⟨bs, _, rfl⟩ := hentry
          exact refersTo_emitBytes hr bs
      | intentions is =>
          rw [emitLine, Option.map_eq_some_iff] at hentry
          obtain ⟨bs, _, rfl⟩ := hentry
          exact refersTo_emitBytes hr bs
      | typeRef name ls =>
          rw [emitLine, Option.bind_eq_bind, Option.bind_eq_some_iff] at hentry
          obtain ⟨inner, _, hentry⟩ := hentry
          cases hentry
          exact ⟨⟨name, hnames name ls List.mem_cons_self, rfl⟩, hr⟩

theorem RefersTo.refsSet {index : Name → Int} {names : Name → Prop}
    (hindex : ∀ name, names name → index name ≠ 0) :
    ∀ {entries : SignatureData}, RefersTo index names entries → entries.RefsSet
  | .sigdefEnd, _ => trivial
  | .sigdefBytes _ _ rest, h => by
      have ih : rest.RefsSet := RefersTo.refsSet hindex h
      exact ih
  | .sigdefSignature s rest, h => by
      obtain ⟨⟨name, hname, hs⟩, hrest⟩ := h
      refine ⟨?_, RefersTo.refsSet hindex hrest⟩
      rw [hs]
      exact hindex name hname

theorem RefersTo.items {index : Name → Int} {names : Name → Prop} {j : Nat} :
    ∀ {entries : SignatureData}, RefersTo index names entries →
      SigItem.typeId j ∈ entries.items → ∃ name, names name ∧ j = toUnsigned (index name)
  | .sigdefEnd, _, hj => absurd hj (by simp [SignatureData.items])
  | .sigdefBytes b bs rest, h, hj => by
      rw [SignatureData.items, List.mem_append] at hj
      rcases hj with hj | hj
      · simp at hj
      · have hrest : RefersTo index names rest := h
        exact RefersTo.items hrest hj
  | .sigdefSignature s rest, h, hj => by
      obtain ⟨⟨name, hname, hs⟩, hrest⟩ := h
      rw [SignatureData.items] at hj
      rcases List.mem_cons.mp hj with hj | hj
      · cases hj
        exact ⟨name, hname, by rw [hs]⟩
      · exact RefersTo.items hrest hj

/-- The signature of a declaration refers to the user types of its type. -/
theorem signature_facts {version : Nat} {index : Name → Int} {d : Decl} {s : Signature}
    (h : signature version index d = some s) :
    s.index = index d.name ∧ RefersTo index (· ∈ userTypes d.type) s.treedata := by
  rw [signature, Option.bind_eq_bind, Option.bind_eq_some_iff] at h
  obtain ⟨entries, hentries, h⟩ := h
  have hrefers : RefersTo index (· ∈ userTypes d.type) entries := by
    rw [treedata, Option.bind_eq_bind, Option.bind_eq_some_iff] at hentries
    obtain ⟨lines, hlines, hemit⟩ := hentries
    exact refersTo_emitLines hemit fun name ls hmem => typeRef_mem_genSigLine hlines hmem
  split at h
  · rw [Option.bind_eq_bind, Option.bind_eq_some_iff] at h
    obtain ⟨bytes, _, h⟩ := h
    cases h
    exact ⟨rfl, hrefers⟩
  · cases h
    exact ⟨rfl, hrefers⟩

/-! ## Generated functions -/

variable {ω : WriterAction}

/-- What is known of the code of a declaration: its signature, that the types it refers to have
indices, and that its dependency code registers them. -/
structure Correct (Fits : Prop) (old : List UInt8) (index : Name → Int) (g : Generated ω) :
    Prop where
  index_eq : g.signature.index = index g.decl.name
  index_lt : g.signature.index < 2 ^ 31
  sample_pos : g.decl.isSampleDecl = true → 0 < g.signature.index
  refers : RefersTo index (· ∈ userTypes g.decl.type) g.signature.treedata
  pos : ∀ name ∈ userTypes g.decl.type, 0 < index name
  fits : Fits → ∀ table, PacketFits table g.signature
  deps : Preserves (StreamInv Fits old) Marks (fun _ => True) g.userTypeDeps
    fun _ e => ∀ name ∈ userTypes g.decl.type, e.done .typedefs (index name) = true

section Runs

variable {Fits : Prop} {old : List UInt8} {index : Name → Int} (hω : ω.Flushes)
  (hstart : ∀ n, ω.start n = 0)

include hω hstart

theorem typeRegister_preserves {g : Generated ω} (hg : Correct Fits old index g) :
    Preserves (StreamInv Fits old) Marks (fun _ => True) g.typeRegister
      fun _ e => (g.decl.isSampleDecl = false ∨ g.hasDeps = true) → 0 < g.signature.index →
        e.done .typedefs g.signature.index = true := by
  refine hg.deps.bind Marks.trans fun _ => ?_
  have hdef : Definable .typedefs g.signature := fun _ =>
    hg.refers.refsSet fun name hname => (hg.pos name hname).ne'
  split
  · refine (doRegister_preserves hω hstart .typedefs hg.index_lt hdef (hg.fits · .typedefs)).weaken ?_ ?_
    · intro e hdone _ j hj
      obtain ⟨name, hname, rfl⟩ := hg.refers.items hj
      exact ⟨_, hdone name hname, rfl⟩
    · exact fun _ e hpost _ hpos => (hpost hpos).2
  · rename_i hnone
    refine Preserves.pure Marks.refl ?_
    intro e _ hor
    simp only [Bool.or_eq_true, Bool.not_eq_true'] at hnone
    exact absurd hor hnone

theorem emitUserTypeDeps_preserves {generated : List (Generated ω)}
    (hall : ∀ g ∈ generated, Correct Fits old index g) {deps : List Name}
    (hdeps : ∀ name ∈ deps, 0 < index name ∧
      ∃ g ∈ generated, g.decl.isSampleDecl = false ∧ g.decl.name = name) :
    Preserves (StreamInv Fits old) Marks (fun _ => True) (emitUserTypeDeps generated deps)
      fun _ e => ∀ name ∈ deps, e.done .typedefs (index name) = true := by
  refine Preserves.forM Marks.refl Marks.trans (fun _ _ _ _ => trivial)
    (fun name => stable_done .typedefs (index name)) fun name hname => ?_
  obtain ⟨hpos, g, hg, hkind, hgname⟩ := hdeps name hname
  have hsome : (typeNamed generated name).isSome = true := by
    rw [typeNamed, List.find?_isSome]
    exact ⟨g, hg, by simp [hkind, hgname]⟩
  obtain ⟨t, ht⟩ := Option.isSome_iff_exists.mp hsome
  have htmem : t ∈ generated := List.mem_of_find?_eq_some ht
  have hfound := List.find?_some ht
  simp only [Bool.and_eq_true, Bool.not_eq_true', decide_eq_true_eq] at hfound
  obtain ⟨htkind, htname⟩ := hfound
  have hcorrect := hall t htmem
  have htindex : t.signature.index = index name := by
    rw [hcorrect.index_eq, htname]
  rw [ht]
  refine (hcorrect.deps.weaken (fun _ _ => trivial) (fun _ _ _ => trivial)).bind Marks.trans
    (Q := fun _ _ => True) fun _ => ?_
  refine (typeRegister_preserves hω hstart hcorrect).bind Marks.trans fun _ => ?_
  refine Preserves.pure Marks.refl ?_
  intro e hdone
  rw [← htindex]
  exact hdone (.inl htkind) (by rw [htindex]; exact hpos)

/-- **The register function of a sample**: the sample is defined, and then its type and the
types that refers to, before it is bound to its type. -/
theorem register_preserves {g : Generated ω} (hg : Correct Fits old index g)
    (hsample : g.decl.isSampleDecl = true) :
    Preserves (StreamInv Fits old) Marks (fun _ => True) g.register fun _ _ => True := by
  have hpos := hg.sample_pos hsample
  have hreg : Preserves (StreamInv Fits old) Marks _ _ _ :=
    doRegister_preserves hω hstart .registered hg.index_lt (fun h => by cases h)
      (hg.fits · .registered)
  refine (hreg.weaken (S := fun _ => True) (fun e _ h => by cases h)
    fun _ e hpost => (hpost hpos).2).bind Marks.trans fun result => ?_
  have hend : Preserves (StreamInv Fits old) Marks (fun _ : Encoder ω => True)
      (pure result : EncoderM ω Int) fun _ _ => True :=
    Preserves.pure Marks.refl fun _ _ => trivial
  split
  · have htype := (typeRegister_preserves hω hstart hg).frame
      (stable_done .registered g.signature.index)
    refine (htype.weaken (fun e hdone => ⟨trivial, hdone⟩) fun _ _ h => h).bind Marks.trans
      fun _ => ?_
    refine ((doTypeBind_preserves hω hstart hpos).weaken ?_ fun _ _ h => h).bind Marks.trans
      fun _ => hend
    rintro e ⟨htyped, hdone⟩
    exact ⟨hdone, fun hdeps => htyped (.inr hdeps) hpos⟩
  · exact hend.weaken (fun _ _ => trivial) fun _ _ h => h

theorem emitDecls_correct {h : IterationOrder Name} {version : Nat} {all : List Decl}
    (hlt : ∀ name, index name < 2 ^ 31)
    (hsample : ∀ d ∈ all, d.isSampleDecl = true → 0 < index d.name)
    (hpos : ∀ d ∈ all, ∀ name ∈ userTypes d.type, 0 < index name)
    (hfits : Fits → ∀ d ∈ all, ∀ s, signature version index d = some s →
      ∀ table, PacketFits table s)
    (pre : List Decl) {ds : List Decl} (hall : all = pre ++ ds)
    (hdecl : Justified TypesDeclared all)
    {generated final : List (Generated ω)} (hgen : generated.map Generated.decl = pre)
    (hcorrect : ∀ g ∈ generated, Correct Fits old index g)
    (hemit : emitDecls h version index generated ds = some final) :
    ∀ g ∈ final, g.decl ∈ all ∧ Correct Fits old index g := by
  induction ds generalizing pre generated with
  | nil =>
      cases hemit
      intro g hg
      refine ⟨?_, hcorrect g hg⟩
      rw [hall, List.append_nil, ← hgen]
      exact List.mem_map_of_mem hg
  | cons d ds ih =>
      rw [emitDecls, Option.bind_eq_bind, Option.bind_eq_some_iff] at hemit
      obtain ⟨s, hs, hemit⟩ := hemit
      have hd : d ∈ all := by rw [hall]; simp
      obtain ⟨hindex, hrefers⟩ := signature_facts hs
      -- every dependency was declared, and emitted, before
      have hdeps : ∀ name ∈ typeDependencies h d, 0 < index name ∧
          ∃ g ∈ generated, g.decl.isSampleDecl = false ∧ g.decl.name = name := by
        intro name hname
        rw [mem_typeDependencies] at hname
        obtain ⟨d', hd', hkind, hn⟩ := hdecl pre d ds hall name hname
        rw [← hgen] at hd'
        obtain ⟨g, hg, rfl⟩ := List.mem_map.mp hd'
        exact ⟨hpos d hd name hname, g, hg, hkind, hn⟩
      -- what is emitted now is correct
      have hnew : Correct Fits old index (⟨d, s, hasDependencies h d,
          emitUserTypeDeps generated (typeDependencies h d)⟩ : Generated ω) := by
        constructor
        · exact hindex
        · rw [hindex]
          exact hlt d.name
        · intro hsam
          rw [hindex]
          exact hsample d hd hsam
        · exact hrefers
        · exact hpos d hd
        · exact fun hf => hfits hf d hd s hs
        · refine (emitUserTypeDeps_preserves hω hstart hcorrect hdeps).weaken
            (fun _ h => h) ?_
          intro _ e hdone name hname
          exact hdone name (mem_typeDependencies.mpr hname)
      refine ih (pre ++ [d]) (by simp [hall]) (by simp [hgen]) ?_ hemit
      intro g hg
      rcases List.mem_append.mp hg with hg | hg
      · exact hcorrect g hg
      · rw [List.mem_singleton] at hg
        subst hg
        exact hnew

end Runs

/-! ## Specifications -/

/-- Every packet of the run can be represented: the lengths of the definitions can be kept in an
`int`, and so can those of the samples, whose values are of their types. -/
def RunFits (env : Environment) (version : Nat) (spec : Specification) (calls : List Call) :
    Prop :=
  (∀ d ∈ decls env spec, ∀ s, signature version (index env spec) d = some s →
    ∀ table, PacketFits table s) ∧
  ∀ name v, Call.encode name v ∈ calls → ∀ d ∈ decls env spec, d.name = name →
    SampleFits d.type v

theorem emitC_correct (hω : ω.Flushes) (hstart : ∀ n, ω.start n = 0) {env : Environment}
    {version : Nat} {spec : Specification} (hfit : IndicesFit env spec) {Fits : Prop}
    (hfits : Fits → ∀ d ∈ decls env spec, ∀ s, signature version (index env spec) d = some s →
      ∀ table, PacketFits table s) (old : List UInt8) {generated : List (Generated ω)}
    (hgen : emitC ω env version spec = some generated) :
    ∀ g ∈ generated, g.decl ∈ decls env spec ∧ Correct Fits old (index env spec) g :=
  emitDecls_correct hω hstart (index_lt hfit)
    (fun d hd hsample => index_pos hd (by rw [hsample, Bool.true_or]))
    (fun d hd name hname => index_pos_of_mem_userTypes hd hname) hfits [] rfl
    (typesDeclared_resolve env.intentionOrder spec) rfl (by simp) hgen

/-- Each call of a generated function keeps the stream well-formed. -/
theorem function_preserves (hω : ω.Flushes) (hstart : ∀ n, ω.start n = 0) {env : Environment}
    {spec : Specification} {Fits : Prop} {old : List UInt8} {generated : List (Generated ω)}
    (hall : ∀ g ∈ generated, g.decl ∈ decls env spec ∧ Correct Fits old (index env spec) g)
    {call : Call}
    (hfits : Fits → ∀ name v, call = .encode name v → ∀ d ∈ decls env spec, d.name = name →
      SampleFits d.type v) {f : EncoderM ω Int} (hf : call.function generated = some f) :
    Preserves (StreamInv Fits old) Marks (fun _ => True) f fun _ _ => True := by
  cases call with
  | register name =>
      rw [Call.function, Option.map_eq_some_iff] at hf
      obtain ⟨g, hg, rfl⟩ := hf
      have hfound := List.find?_some hg
      simp only [Bool.and_eq_true] at hfound
      exact register_preserves hω hstart (hall g (List.mem_of_find?_eq_some hg)).2 hfound.1
  | typeRegister name =>
      rw [Call.function, Option.map_eq_some_iff] at hf
      obtain ⟨g, hg, rfl⟩ := hf
      exact (typeRegister_preserves hω hstart (hall g (List.mem_of_find?_eq_some hg)).2).weaken
        (fun _ h => h) fun _ _ _ => trivial
  | sampleRefRegister name =>
      rw [Call.function, Option.map_eq_some_iff] at hf
      obtain ⟨g, hg, rfl⟩ := hf
      have hcorrect := (hall g (List.mem_of_find?_eq_some hg)).2
      exact (doRegister_preserves hω hstart .sampleRef hcorrect.index_lt
        (fun h => by cases h) (hcorrect.fits · .sampleRef)).weaken (fun _ _ h => by cases h)
        fun _ _ _ => trivial
  | encode name v =>
      rw [Call.function, Option.map_eq_some_iff] at hf
      obtain ⟨g, hg, rfl⟩ := hf
      have hfound := List.find?_some hg
      simp only [Bool.and_eq_true, decide_eq_true_eq] at hfound
      exact doEncode_preserves hω hstart fun h =>
        hfits h name v rfl g.decl (hall g (List.mem_of_find?_eq_some hg)).1 hfound.2

/-- **The stream of any run of the generated functions on a new encoder is well-formed**, and
is what is written when every packet can be represented. -/
theorem runCalls_stream (hω : ω.Flushes) (hstart : ∀ n, ω.start n = 0) {env : Environment}
    {version : Nat} {spec : Specification} (hfit : IndicesFit env spec)
    {generated : List (Generated ω)} (hgen : emitC ω env version spec = some generated)
    {calls : List Call} {functions : List (EncoderM ω Int)}
    (hcalls : calls.mapM (Call.function generated) = some functions) (w : Writer ω) :
    let packets := ((runCalls functions).run (newEncoder w)).2.sent.map Sent.packet
    StreamWellFormed packets ∧
      (RunFits env version spec calls →
        ((runCalls functions).run (newEncoder w)).2.writer.written =
          w.written ++ packets.flatMap Packet.bytes) := by
  have hall := emitC_correct hω hstart hfit
    (fun h : RunFits env version spec calls => h.1) w.written hgen
  have hfunctions : ∀ f ∈ functions, Preserves (StreamInv (RunFits env version spec calls)
      w.written) Marks (fun _ => True) f fun _ _ => True := by
    intro f hf
    obtain ⟨call, hcall, hfunction⟩ := mem_of_mapM_eq_some hcalls hf
    exact function_preserves hω hstart hall
      (fun h name v heq d hd hname => h.2 name v (heq ▸ hcall) d hd hname) hfunction
  have hrun : Preserves (StreamInv (RunFits env version spec calls) w.written) Marks
      (fun _ => True) (runCalls functions) fun _ e => ∀ f ∈ functions, True :=
    Preserves.forM Marks.refl Marks.trans (fun _ _ _ _ => trivial) (fun _ _ _ _ _ => trivial)
      fun f hf => (hfunctions f hf).bind Marks.trans fun _ =>
        Preserves.pure Marks.refl fun _ _ => trivial
  obtain ⟨hinv, _, _⟩ := hrun (newEncoder w) (newEncoder_streamInv hω w) trivial
  refine ⟨streamWellFormed_of_needs hinv.needs hinv.first, fun h => ?_⟩
  rw [hinv.delivered h, List.flatMap_map]

/-- `typedefSpec`, initialised first in a process. -/
def firstEnvironment : Environment :=
  ⟨⟨id, fun _ => .refl _⟩, ⟨id, fun _ => .refl _⟩, LABCOMM_USER, le_refl _⟩

/-- Every function, an earlier dependency and a registration made twice. -/
def typedefCalls : List Call :=
  [.register [97], .sampleRefRegister [97], .typeRegister [116], .register [97],
    .encode [97] (.array [0, 3] [])]

theorem runCalls_stream_typedef :
    ∃ generated functions, emitC bytewise firstEnvironment 2014 typedefSpec = some generated ∧
      typedefCalls.mapM (Call.function generated) = some functions ∧
      StreamWellFormed (((runCalls functions).run (newEncoder (.empty bytewise))).2.sent.map
        Sent.packet) := by
  have hfit : IndicesFit firstEnvironment typedefSpec := by
    rw [IndicesFit, decls, show firstEnvironment.intentionOrder = ⟨id, fun _ => .refl _⟩ from rfl,
      typedefSpec_resolve]
    decide
  have hgen : (emitC bytewise firstEnvironment 2014 typedefSpec).isSome := by decide
  have hfunctions : (typedefCalls.mapM (Call.function
      ((emitC bytewise firstEnvironment 2014 typedefSpec).get hgen))).isSome := by decide +revert
  refine ⟨_, _, (Option.some_get hgen).symm, (Option.some_get hfunctions).symm, ?_⟩
  exact (runCalls_stream (fun _ => rfl) (fun _ => rfl) hfit (Option.some_get hgen).symm
    (Option.some_get hfunctions).symm (.empty bytewise)).1

end LabComm.Compiler
