import LabComm.Compiler.ErrorCheck
import LabComm.Compiler.Signature
import LabComm.C.Sizeof

set_option autoImplicit false

/-! # Recursions that follow user types

Many methods of the compiler recur over the type of a declaration, and call themselves on the type
of the typedef where they come to a user type: `flatSignature`, `C_isDynamic`, `C_fixedSizeof`, the
generators of encoders and decoders, and `C_emitUserTypeDeps` for declarations. What they call
themselves on is found by `lookupType`.

Here each of them runs with a number of calls that may be open at a time. As `lookupType` looks
only before the declaration, no run has more of them open than there are declarations before it,
and if the checks report nothing, none comes to a name that is not declared
(`recursions_terminate`).
-/

namespace LabComm.Compiler.Recursion

open Library Checks

/-! ## Methods -/

/-- What a method throws: it comes to a name that is not declared, or it cannot do with what it
gets. -/
inductive MethodException where
  | nullPointer
  | thrown

/-- What a call ends with. -/
abbrev Outcome (α : Type) := Except MethodException α

/-- What ends with a value, if it does not throw. -/
def ended {α : Type} : Option α → Outcome α
  | some a => .ok a
  | none => .error .thrown

/-- A method of the classes of types, with what its body makes of the outcomes of its calls: `β`
is returned for a type, and `γ` for the fields of a struct from one on. Here all calls are made,
also one whose outcome the body has no use for. -/
structure Method (β γ : Type) where
  void : Outcome β
  prim : Prim → Outcome β
  user : Name → Outcome β → Outcome β
  struct : Nat → Outcome γ → Outcome β
  noFields : Outcome γ
  field : List Intention → Name → Outcome β → Outcome γ → Outcome γ
  array : Outcome β → List Exp → Outcome β

section Visit

variable {β γ : Type} (m : Method β γ) (h : IterationOrder Intention)

mutual

/-- The method for a type, with `call` for the types that names refer to; `none` is a call that
has not ended. -/
def visitType (call : Name → Option (Outcome β)) : ParsedType → Option (Outcome β)
  | .void => some m.void
  | .prim p => some (m.prim p)
  | .user name => (call name).map (m.user name)
  | .struct fields => (visitFields call fields).map (m.struct fields.length)
  | .array elem dims => (visitType call elem).map fun r => dims.foldr (fun dim r => m.array r dim) r

/-- The same for the fields. -/
def visitFields (call : Name → Option (Outcome β)) : ParsedFields → Option (Outcome γ)
  | .nil => some m.noFields
  | .cons intentions name type rest => do
      let a ← visitType call type
      let b ← visitFields call rest
      pure (m.field (intentionSet h intentions name) name a b)

end

/-- The call for the type of a typedef, if there is one of the name. -/
def callNamed {α : Type} (next : List ParsedDecl → ParsedDecl → Option (Outcome α))
    (before : List ParsedDecl) (name : Name) : Option (Outcome α) :=
  match lookupTypeDecl before name with
  | none => some (.error .nullPointer)
  | some found => next found.1 found.2

/-- The method for a type of a declaration behind `before`, where at most so many calls for other
declarations are open. -/
def visit : Nat → List ParsedDecl → ParsedType → Option (Outcome β)
  | 0, before, t => visitType m h (callNamed (fun _ _ => none) before) t
  | n + 1, before, t => visitType m h (callNamed (fun pre d => visit n pre d.type) before) t

mutual

/-- The method for a type with its names resolved. -/
def Method.fold : DataType → Outcome β
  | .void => m.void
  | .prim p => m.prim p
  | .user name type => m.user name (Method.fold type)
  | .struct fields => m.struct fields.length (Method.foldFields fields)
  | .array elem dim => m.array (Method.fold elem) dim

/-- The same for the fields. -/
def Method.foldFields : Fields → Outcome γ
  | .nil => m.noFields
  | .cons intentions name type rest =>
      m.field intentions name (Method.fold type) (Method.foldFields rest)

end

end Visit

/-! ## The methods -/

/-- `flatSignature` -/
def flatSignatureMethod : Method (List SignatureLine) (List SignatureLine) where
  void := pure [.int LABCOMM_STRUCT, .int 0]
  prim p := pure [.int p.token]
  user _ r := r
  struct n r := do
    let lines ← r
    pure (.int LABCOMM_STRUCT :: .int n :: (lines ++ [.comment]))
  noFields := pure []
  field intentions _ a b := do
    let lines ← a
    let more ← b
    pure (.intentions intentions :: (lines ++ more))
  array r dim := do
    let exps ← ended (dim.mapM signatureLine)
    let lines ← r
    pure (.int LABCOMM_ARRAY :: .int dim.length :: (exps ++ (lines ++ [.comment])))

/-- `C_isDynamic` -/
def isDynamicMethod : Method Bool Bool where
  void := pure false
  prim p := pure (p == .string)
  user _ r := r
  struct _ r := r
  noFields := pure false
  field _ _ a b := do
    if ← a then pure true else b
  array r dim := if isVariable dim then pure true else r

/-- `C_fixedSizeof`; of fields it is told the sum so far. -/
def fixedSizeofMethod : Method Int (Int → Outcome Int) where
  void := pure 0
  prim p := match p with
    | .string => throw .thrown
    | p => pure p.size
  user _ r := r
  struct _ r := do (← r) 0
  noFields := pure pure
  field _ _ a b := pure fun result => do
    let n ← a
    (← b) (wrap32 (result + n))
  array r dim := do
    let elements ← ended (C.cFixedElements dim 1)
    let n ← r
    pure (wrap32 (n * elements))

section Generators

variable {ω : C.WriterAction} {φ : C.Host}

/-- `C_emitEncoder`, of which the outcome is what the generated code does for a value. -/
def emitEncoderMethod (refs : RefTables) :
    Method (Value → ExceptT Int (StateM (C.Writer ω)) Unit)
      (List Value → ExceptT Int (StateM (C.Writer ω)) Unit) where
  void := pure fun _ => pure ()
  prim p := pure (C.cEmitEncoder refs (.prim p))
  user _ r := r
  struct _ r := do
    let code ← r
    pure fun
      | .struct vs => code vs
      | _ => pure ()
  noFields := pure fun _ => pure ()
  field _ _ a b := do
    let first ← a
    let rest ← b
    pure fun
      | v :: vs => do
          first v
          rest vs
      | [] => pure ()
  array r dim := do
    let code ← r
    pure fun
      | .array n a => do
          ExceptT.lift (C.cEmitEncoderEncodeLimit dim n)
          let limits := C.loopLimits dim n
          nest (limits.map Int.toNat)
            (fun is _ => code (C.getElement a (C.elementIndex dim limits is))) ()
      | _ => pure ()

/-- `C_emitDecoder`, of which the outcome is what the generated code does. -/
def emitDecoderMethod (toRef : Int → Option Nat) :
    Method (StateM (C.Reader φ) Value) (StateM (C.Reader φ) (List Value)) where
  void := pure (pure .unset)
  prim p := pure (C.cEmitDecoder toRef (.prim p))
  user _ r := r
  struct _ r := do
    let code ← r
    pure (Value.struct <$> code)
  noFields := pure (pure [])
  field _ _ a b := do
    let first ← a
    let rest ← b
    pure do
      let v ← first
      let vs ← rest
      pure (v :: vs)
  array r dim := do
    let code ← r
    pure do
      let n ← C.cEmitDecoderDecodeLimit dim
      let limits := C.loopLimits dim n
      let a := List.replicate (limits.map Int.toNat).prod Value.unset
      let a ← nest (limits.map Int.toNat)
        (fun is a => (fun x => C.setElement a (C.elementIndex dim limits is) x) <$> code) a
      pure (Value.array n a)

end Generators

/-! ## The declarations a declaration depends on -/

/-- The loop of `C_emitUserTypeDeps` over the dependencies, with the names of the functions that
the code it prints calls. -/
def emitDeps (call : Name → Option (Outcome (List Name))) :
    List Name → Option (Outcome (List Name))
  | [] => some (pure [])
  | name :: names => do
      let inner ← call name
      let more ← emitDeps call names
      pure do
        let a ← inner
        let b ← more
        pure (a ++ name :: b)

/-- `C_emitUserTypeDeps` of a declaration behind `before`, where at most so many calls for other
declarations are open. -/
def emitUserTypeDeps (h : IterationOrder Name) : Nat → List ParsedDecl → ParsedDecl →
    Option (Outcome (List Name))
  | 0, before, d => emitDeps (callNamed (fun _ _ => none) before) (h.order (userNames d.type).dedup)
  | n + 1, before, d =>
      emitDeps (callNamed (emitUserTypeDeps h n) before) (h.order (userNames d.type).dedup)

/-! ## The methods of resolved types -/

mutual

theorem flatSignatureMethod_fold : ∀ t : DataType,
    flatSignatureMethod.fold t = ended (flatSignature t)
  | .void => rfl
  | .prim _ => rfl
  | .user _ type => flatSignatureMethod_fold type
  | .struct fields => by
      rw [Method.fold, flatSignatureMethod_foldFields, flatSignature]
      cases flatSignatureFields fields <;> rfl
  | .array elem dim => by
      rw [Method.fold, flatSignatureMethod_fold, flatSignature]
      cases hdim : dim.mapM signatureLine with
      | none => simp only [flatSignatureMethod, hdim]; rfl
      | some exps =>
          simp only [flatSignatureMethod, hdim]
          cases flatSignature elem <;> rfl

theorem flatSignatureMethod_foldFields : ∀ fields : Fields,
    flatSignatureMethod.foldFields fields = ended (flatSignatureFields fields)
  | .nil => rfl
  | .cons intentions name type rest => by
      rw [Method.foldFields, flatSignatureMethod_fold, flatSignatureMethod_foldFields,
        flatSignatureFields]
      cases flatSignature type <;> cases flatSignatureFields rest <;> rfl

end

mutual

theorem isDynamicMethod_fold : ∀ t : DataType, isDynamicMethod.fold t = .ok (C.cIsDynamic t)
  | .void => rfl
  | .prim _ => rfl
  | .user _ type => isDynamicMethod_fold type
  | .struct fields => isDynamicMethod_foldFields fields
  | .array elem dim => by
      rw [Method.fold, isDynamicMethod_fold, C.cIsDynamic]
      cases hdim : isVariable dim <;> simp [isDynamicMethod, hdim, pure, Except.pure]

theorem isDynamicMethod_foldFields : ∀ fields : Fields,
    isDynamicMethod.foldFields fields = .ok (C.cIsDynamicFields fields)
  | .nil => rfl
  | .cons intentions name type rest => by
      rw [Method.foldFields, isDynamicMethod_fold, isDynamicMethod_foldFields, C.cIsDynamicFields]
      cases C.cIsDynamic type <;> rfl

end

mutual

theorem fixedSizeofMethod_fold : ∀ t : DataType,
    fixedSizeofMethod.fold t = ended (C.cFixedSizeof t)
  | .void => rfl
  | .prim p => by cases p <;> rfl
  | .user _ type => fixedSizeofMethod_fold type
  | .struct fields => by
      rw [Method.fold, C.cFixedSizeof]
      exact fixedSizeofMethod_foldFields fields 0
  | .array elem dim => by
      rw [Method.fold, fixedSizeofMethod_fold, C.cFixedSizeof]
      cases hdim : C.cFixedElements dim 1 with
      | none => simp only [fixedSizeofMethod, hdim]; rfl
      | some elements =>
          simp only [fixedSizeofMethod, hdim]
          cases C.cFixedSizeof elem <;> rfl

theorem fixedSizeofMethod_foldFields : ∀ (fields : Fields) (result : Int),
    (do (← fixedSizeofMethod.foldFields fields) result) =
      ended (C.cFixedSizeofFields fields result)
  | .nil, _ => rfl
  | .cons intentions name type rest, result => by
      rw [Method.foldFields, fixedSizeofMethod_fold, C.cFixedSizeofFields]
      cases C.cFixedSizeof type with
      | none => rfl
      | some n => exact fixedSizeofMethod_foldFields rest (wrap32 (result + n))

end

section Generators

variable {ω : C.WriterAction} {φ : C.Host} (refs : RefTables) (toRef : Int → Option Nat)

mutual

theorem emitEncoderMethod_fold : ∀ t : DataType,
    (emitEncoderMethod (ω := ω) refs).fold t = .ok (C.cEmitEncoder refs t)
  | .void => by
      refine congrArg Except.ok (funext fun v => ?_)
      cases v <;> rfl
  | .prim _ => rfl
  | .user _ type => by
      rw [Method.fold, emitEncoderMethod_fold]
      refine congrArg Except.ok (funext fun v => ?_)
      cases v <;> rfl
  | .struct fields => by
      rw [Method.fold, emitEncoderMethod_foldFields]
      refine congrArg Except.ok (funext fun v => ?_)
      cases v <;> rfl
  | .array elem dim => by
      rw [Method.fold, emitEncoderMethod_fold]
      refine congrArg Except.ok (funext fun v => ?_)
      cases v <;> rfl

theorem emitEncoderMethod_foldFields : ∀ fields : Fields,
    (emitEncoderMethod (ω := ω) refs).foldFields fields = .ok (C.cEmitEncoderFields refs fields)
  | .nil => by
      refine congrArg Except.ok (funext fun vs => ?_)
      cases vs <;> rfl
  | .cons intentions name type rest => by
      rw [Method.foldFields, emitEncoderMethod_fold, emitEncoderMethod_foldFields]
      refine congrArg Except.ok (funext fun vs => ?_)
      cases vs <;> rfl

end

mutual

theorem emitDecoderMethod_fold : ∀ t : DataType,
    (emitDecoderMethod (φ := φ) toRef).fold t = .ok (C.cEmitDecoder toRef t)
  | .void => rfl
  | .prim _ => rfl
  | .user _ type => emitDecoderMethod_fold type
  | .struct fields => by
      rw [Method.fold, emitDecoderMethod_foldFields]
      rfl
  | .array elem dim => by
      rw [Method.fold, emitDecoderMethod_fold]
      rfl

theorem emitDecoderMethod_foldFields : ∀ fields : Fields,
    (emitDecoderMethod (φ := φ) toRef).foldFields fields = .ok (C.cEmitDecoderFields toRef fields)
  | .nil => rfl
  | .cons intentions name type rest => by
      rw [Method.foldFields, emitDecoderMethod_fold, emitDecoderMethod_foldFields]
      rfl

end

end Generators

/-! ## No more open calls than declarations -/

section Terminates

variable (h : IterationOrder Intention)

/-- Every method returns for the type `t`, with what it makes of `t'`. -/
def Visits (before : List ParsedDecl) (t : ParsedType) (t' : DataType) : Prop :=
  ∀ (β γ : Type) (m : Method β γ) (n : Nat), before.length ≤ n →
    visit m h n before t = some (m.fold t')

/-- The typedefs before are those of `env`, and every method returns for them. -/
structure Agrees (before : List ParsedDecl) (env : List (Name × DataType)) : Prop where
  declared : ∀ name, (lookupTypeDecl before name).isSome = (lookupType env name).isSome
  visits : ∀ name found t, lookupTypeDecl before name = some found →
    lookupType env name = some t → Visits h found.1 found.2.type t

theorem fold_rewriteArray {β γ : Type} (m : Method β γ) (elem : DataType)
    (dims : List (List Exp)) :
    m.fold (rewriteArray elem dims) = dims.foldr (fun dim r => m.array r dim) (m.fold elem) := by
  induction dims with
  | nil => rfl
  | cons dim dims ih => rw [rewriteArray, Method.fold, ih, List.foldr_cons]

theorem resolveFields_length {env : List (Name × DataType)} :
    ∀ {fields : ParsedFields} {fields' : Fields}, resolveFields h env fields = some fields' →
      fields'.length = fields.length
  | .nil, _, hf => by
      cases hf
      rfl
  | .cons intentions name type rest, _, hf => by
      simp only [resolveFields, Option.bind_eq_bind, Option.bind_eq_some_iff] at hf
      obtain ⟨type', _, rest', hrest, hpure⟩ := hf
      cases hpure
      exact congrArg (· + 1) (resolveFields_length hrest)

section OneType

variable {h} {β γ : Type} {m : Method β γ} {env : List (Name × DataType)}
  {call : Name → Option (Outcome β)}

mutual

/-- The method for a type, if the calls for the types its names refer to return. -/
theorem visitType_resolved
    (hcall : ∀ name t, lookupType env name = some t → call name = some (m.fold t)) :
    ∀ {t : ParsedType} {t' : DataType}, resolveType h env t = some t' →
      visitType m h call t = some (m.fold t')
  | .void, _, ht => by
      cases ht
      rfl
  | .prim _, _, ht => by
      cases ht
      rfl
  | .user name, _, ht => by
      rw [resolveType, Option.map_eq_some_iff] at ht
      obtain ⟨t, hlookup, rfl⟩ := ht
      rw [visitType, hcall name t hlookup]
      rfl
  | .struct fields, _, ht => by
      rw [resolveType, Option.map_eq_some_iff] at ht
      obtain ⟨fields', hfields, rfl⟩ := ht
      rw [visitType, visitFields_resolved hcall hfields, ← resolveFields_length h hfields]
      rfl
  | .array elem dims, _, ht => by
      rw [resolveType, Option.map_eq_some_iff] at ht
      obtain ⟨elem', helem, rfl⟩ := ht
      rw [visitType, visitType_resolved hcall helem, fold_rewriteArray]
      rfl

theorem visitFields_resolved
    (hcall : ∀ name t, lookupType env name = some t → call name = some (m.fold t)) :
    ∀ {fields : ParsedFields} {fields' : Fields}, resolveFields h env fields = some fields' →
      visitFields m h call fields = some (m.foldFields fields')
  | .nil, _, hf => by
      cases hf
      rfl
  | .cons intentions name type rest, _, hf => by
      simp only [resolveFields, Option.bind_eq_bind, Option.bind_eq_some_iff] at hf
      obtain ⟨type', htype, rest', hrest, hpure⟩ := hf
      cases hpure
      rw [visitFields, visitType_resolved hcall htype, visitFields_resolved hcall hrest]
      rfl

end

end OneType

variable {h}

/-- Where the typedefs before agree, every method returns for a type. -/
theorem Agrees.visits_type {before : List ParsedDecl} {env : List (Name × DataType)}
    (hagrees : Agrees h before env) {t : ParsedType} {t' : DataType}
    (ht : resolveType h env t = some t') : Visits h before t t' := by
  intro β γ m n hn
  have hfound (name : Name) (u : DataType) (hu : lookupType env name = some u) :
      ∃ found, lookupTypeDecl before name = some found ∧ Visits h found.1 found.2.type u := by
    have hdeclared : (lookupTypeDecl before name).isSome := by
      rw [hagrees.declared, hu]
      rfl
    obtain ⟨found, hfound⟩ := Option.isSome_iff_exists.mp hdeclared
    exact ⟨found, hfound, hagrees.visits name found u hfound hu⟩
  cases n with
  | zero =>
      -- without a declaration before there is no call to make
      refine visitType_resolved (fun name u hu => ?_) ht
      obtain ⟨found, hname, _⟩ := hfound name u hu
      have hlt := lookupTypeDecl_lt hname
      omega
  | succ n =>
      refine visitType_resolved (fun name u hu => ?_) ht
      obtain ⟨found, hname, hvisits⟩ := hfound name u hu
      have hlt := lookupTypeDecl_lt hname
      -- the callee is a declaration further up, and has fewer before it
      rw [callNamed, hname]
      exact hvisits β γ m n (by omega)

/-- The next declaration keeps the typedefs in agreement. -/
theorem Agrees.step {before : List ParsedDecl} {env : List (Name × DataType)}
    (hagrees : Agrees h before env) {d : ParsedDecl} {t : DataType}
    (ht : resolveType h env d.type = some t) :
    Agrees h (before ++ [d]) (if d.kind = .typeDecl then env ++ [(d.name, t)] else env) := by
  have hlookup (name : Name) :
      lookupType (if d.kind = .typeDecl then env ++ [(d.name, t)] else env) name =
        (lookupType env name).or (if d.kind = .typeDecl ∧ d.name = name then some t else none) := by
    by_cases hkind : d.kind = .typeDecl
    · rw [if_pos hkind, lookupType_append]
      by_cases hname : d.name = name <;> simp [lookupType, hkind, hname]
    · simp [hkind]
  have hdecl (name : Name) : lookupTypeDecl (before ++ [d]) name =
      (lookupTypeDecl before name).or
        (if d.kind = .typeDecl ∧ d.name = name then some (before, d) else none) := by
    rw [lookupTypeDecl_append, lookupTypeDecl]
    split <;> simp [lookupTypeDecl]
  constructor
  · intro name
    rw [hlookup, hdecl, Option.isSome_or, Option.isSome_or, hagrees.declared]
    split <;> rfl
  · intro name found u hfound hu
    have hsame := hagrees.declared name
    rw [hdecl] at hfound
    rw [hlookup] at hu
    cases hbefore : lookupTypeDecl before name with
    | some found' =>
        rw [hbefore, Option.isSome_some] at hsame
        -- found before: nothing has changed
        obtain ⟨u', hu'⟩ := Option.isSome_iff_exists.mp hsame.symm
        rw [hbefore] at hfound
        rw [hu'] at hu
        cases hfound
        cases hu
        exact hagrees.visits name found u hbefore hu'
    | none =>
        rw [hbefore, Option.isSome_none] at hsame
        -- not found before: it is the new declaration, or there is none
        have hnone : lookupType env name = none := by
          rwa [← Option.not_isSome_iff_eq_none, Bool.not_eq_true, eq_comm]
        rw [hbefore, Option.none_or] at hfound
        rw [hnone, Option.none_or] at hu
        split at hfound
        · rename_i hd
          rw [if_pos hd] at hu
          cases hfound
          cases hu
          exact hagrees.visits_type ht
        · cases hfound

theorem agrees_nil : Agrees h [] [] := ⟨fun _ => rfl, fun _ _ _ hfound => nomatch hfound⟩

/-- Every method returns for every declaration that resolves. -/
theorem Agrees.visits_decls {before : List ParsedDecl} {env : List (Name × DataType)}
    (hagrees : Agrees h before env) {decls : List ParsedDecl} {ds : List Decl}
    (hds : resolveDecls h env decls = some ds) {mid : List ParsedDecl} {d : ParsedDecl}
    {after : List ParsedDecl} (hdecls : decls = mid ++ d :: after) :
    ∃ d', ds[mid.length]? = some d' ∧ Visits h (before ++ mid) d.type d'.type := by
  induction mid generalizing before env decls ds with
  | nil =>
      subst hdecls
      simp only [List.nil_append, resolveDecls, Option.bind_eq_bind, Option.bind_eq_some_iff] at hds
      obtain ⟨t, ht, rest, _, hpure⟩ := hds
      cases hpure
      refine ⟨_, rfl, ?_⟩
      rw [List.append_nil]
      exact hagrees.visits_type ht
  | cons x mid ih =>
      subst hdecls
      simp only [List.cons_append, resolveDecls, Option.bind_eq_bind, Option.bind_eq_some_iff]
        at hds
      obtain ⟨t, ht, rest, hrest, hpure⟩ := hds
      cases hpure
      obtain ⟨d', hd', hvisits⟩ := ih (hagrees.step ht) hrest rfl
      refine ⟨d', hd', ?_⟩
      rwa [List.append_assoc, List.singleton_append] at hvisits

end Terminates

/-! ## Dependencies -/

theorem emitDeps_returns {call : Name → Option (Outcome (List Name))} {names : List Name}
    (h : ∀ name ∈ names, ∃ lines, call name = some (.ok lines)) :
    ∃ lines, emitDeps call names = some (.ok lines) := by
  induction names with
  | nil => exact ⟨[], rfl⟩
  | cons name names ih =>
      obtain ⟨lines, hlines⟩ := h name List.mem_cons_self
      obtain ⟨more, hmore⟩ := ih fun n hn => h n (List.mem_cons_of_mem _ hn)
      exact ⟨lines ++ name :: more, by rw [emitDeps, hlines, hmore]; rfl⟩

/-- `C_emitUserTypeDeps` returns where all names are declared. -/
theorem emitUserTypeDeps_returns (h : IterationOrder Name) {decls : List ParsedDecl}
    (hnames : AtEach NamesDeclared [] decls) {n : Nat} {before : List ParsedDecl} {d : ParsedDecl}
    {after : List ParsedDecl} (hdecls : decls = before ++ d :: after) (hn : before.length ≤ n) :
    ∃ lines, emitUserTypeDeps h n before d = some (.ok lines) := by
  induction n generalizing before d after with
  | zero =>
      -- a declaration with nothing before it depends on nothing
      obtain rfl := List.length_eq_zero_iff.mp (Nat.le_zero.mp hn)
      refine emitDeps_returns fun name hname => ?_
      have hmem := List.mem_dedup.mp ((h.perm _).mem_iff.mp hname)
      exact absurd (hnames [] d after hdecls name hmem) (by simp [lookupTypeDecl])
  | succ n ih =>
      refine emitDeps_returns fun name hname => ?_
      have hmem := List.mem_dedup.mp ((h.perm _).mem_iff.mp hname)
      obtain ⟨found, hfound⟩ :=
        Option.isSome_iff_exists.mp (hnames before d after hdecls name hmem)
      rw [List.nil_append] at hfound
      have hlt := lookupTypeDecl_lt hfound
      obtain ⟨⟨post, hbefore⟩, _⟩ := lookupTypeDecl_some hfound
      rw [callNamed, hfound]
      -- the dependency is a declaration of the same specification, further up
      refine @ih found.1 found.2 (post ++ d :: after) ?_ (by omega)
      rw [hdecls, hbefore, List.append_assoc, List.cons_append]

/-! ## Checked specifications -/

/-- A specification of which the traversal reports nothing passes the checks. -/
def checkedSpecification (S : ParsedSpecification) (hok : Checks.errorCheck S.decls = .ok []) :
    Specification :=
  ⟨S.decls, S.parsed, (errorCheck_nil_iff S.parsed).mp hok⟩

/-- The names in the type of the declaration refer to typedefs strictly before it. -/
def ResolvesEarlier (before : List ParsedDecl) (d : ParsedDecl) : Prop :=
  ∀ name ∈ userNames d.type, ∃ (pre : List ParsedDecl) (t : ParsedDecl) (post : List ParsedDecl),
    lookupTypeDecl before name = some (pre, t) ∧ before = pre ++ t :: post ∧
      t.kind = .typeDecl ∧ t.name = name

/-- The recursions return for a declaration with so many open calls, where `t` is its type with the
names resolved: those of the compiler that are modelled, and every other method. -/
structure RecursionsReturn (h : IterationOrder Intention) (order : IterationOrder Name) (n : Nat)
    (before : List ParsedDecl) (d : ParsedDecl) (t : DataType) : Prop where
  flatSignature : visit flatSignatureMethod h n before d.type = some (ended (flatSignature t))
  isDynamic : visit isDynamicMethod h n before d.type = some (.ok (C.cIsDynamic t))
  fixedSizeof : visit fixedSizeofMethod h n before d.type = some (ended (C.cFixedSizeof t))
  emitEncoder : ∀ (ω : C.WriterAction) (refs : RefTables),
    visit (emitEncoderMethod refs) h n before d.type = some (.ok (C.cEmitEncoder (ω := ω) refs t))
  emitDecoder : ∀ (φ : C.Host) (toRef : Int → Option Nat),
    visit (emitDecoderMethod toRef) h n before d.type =
      some (.ok (C.cEmitDecoder (φ := φ) toRef t))
  emitUserTypeDeps : ∃ lines, emitUserTypeDeps order n before d = some (.ok lines)
  method : ∀ (β γ : Type) (m : Method β γ), visit m h n before d.type = some (m.fold t)

/-- The types of a declaration behind `before` are well founded, where `ds` are the declarations
with their names resolved. -/
structure WellFoundedTypes (h : IterationOrder Intention) (order : IterationOrder Name)
    (ds : List Decl) (before : List ParsedDecl) (d : ParsedDecl) : Prop where
  resolves : ResolvesEarlier before d
  returns : ∃ d', ds[before.length]? = some d' ∧
    ∀ n, before.length ≤ n → RecursionsReturn h order n before d d'.type

/-- **Types resolve to earlier typedefs** in a specification of which the checks report nothing,
and the recursions that follow user types return for each declaration, with no more open calls than
there are declarations before it. -/
theorem recursions_terminate (S : ParsedSpecification) (hok : Checks.errorCheck S.decls = .ok [])
    (h : IterationOrder Intention) (order : IterationOrder Name) :
    AtEach (WellFoundedTypes h order ((checkedSpecification S hok).resolve h)) [] S.decls := by
  intro before d after hdecls
  have hchecked := (errorCheck_nil_iff S.parsed).mp hok
  have hnames := (declared_of_errorCheck typedefsGrounded_nil hchecked).1
  rw [List.nil_append]
  constructor
  · intro name hname
    obtain ⟨found, hfound⟩ := Option.isSome_iff_exists.mp (hnames before d after hdecls name hname)
    obtain ⟨⟨post, hbefore⟩, hkind, hnamed⟩ := lookupTypeDecl_some hfound
    exact ⟨found.1, found.2, post, hfound, hbefore, hkind, hnamed⟩
  · have hresolve := (checkedSpecification S hok).resolve_eq h
    obtain ⟨d', hd', hvisits⟩ := agrees_nil.visits_decls hresolve hdecls
    refine ⟨d', hd', fun n hn => ?_⟩
    have hreturns (β γ : Type) (m : Method β γ) := hvisits β γ m n hn
    constructor
    · rw [← flatSignatureMethod_fold]
      exact hreturns _ _ _
    · rw [← isDynamicMethod_fold]
      exact hreturns _ _ _
    · rw [← fixedSizeofMethod_fold]
      exact hreturns _ _ _
    · intro ω refs
      rw [← emitEncoderMethod_fold]
      exact hreturns _ _ _
    · intro φ toRef
      rw [← emitDecoderMethod_fold]
      exact hreturns _ _ _
    · exact emitUserTypeDeps_returns order hnames hdecls hn
    · exact hreturns

/-- `typedef int t; typedef t u; sample struct { u x; t y[2]; } s;` -/
def chainedTypedefs : ParsedSpecification where
  decls := [⟨.typeDecl, [], [116], .prim .int⟩, ⟨.typeDecl, [], [117], .user [116]⟩,
    ⟨.sampleDecl, [], [115], .struct (.cons [] [120] (.user [117])
      (.cons [] [121] (.array (.user [116]) [[.integerLiteral 2]]) .nil))⟩]
  parsed := by simp [ParsedType.Parsed, ParsedFields.Parsed, ParsedFields.length]

theorem chainedTypedefs_ok : Checks.errorCheck chainedTypedefs.decls = .ok [] :=
  (errorCheck_nil_iff chainedTypedefs.parsed).mpr (by decide)

theorem recursions_terminate_chainedTypedefs :
    AtEach (WellFoundedTypes ⟨id, List.Perm.refl⟩ ⟨id, List.Perm.refl⟩
      ((checkedSpecification chainedTypedefs chainedTypedefs_ok).resolve ⟨id, List.Perm.refl⟩))
      [] chainedTypedefs.decls :=
  recursions_terminate chainedTypedefs chainedTypedefs_ok _ _

end LabComm.Compiler.Recursion
