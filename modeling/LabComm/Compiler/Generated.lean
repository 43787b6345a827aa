import LabComm.Compiler.Expansion
import LabComm.C.EncoderLog

set_option autoImplicit false

/-! # The generated register functions

What the C backend generates for each declaration of a specification: its signature, and the
functions `labcomm2014_encoder_type_register_…` and `labcomm2014_encoder_register_…`, as
programs of the encoder. A function calls those of the declarations before, which is the order
the C file has them in.
-/

namespace LabComm.Compiler

open Library C

/-! ## Dependencies -/

mutual

/-- The names of the user types in a type; those inside the types they refer to are not
among them. -/
def userTypes : DataType → List Name
  | .void => []
  | .prim _ => []
  | .user name _ => [name]
  | .struct fields => userTypesFields fields
  | .array elem _ => userTypes elem

/-- The same of the fields. -/
def userTypesFields : Fields → List Name
  | .nil => []
  | .cons _ _ type rest => userTypes type ++ userTypesFields rest

end

/-- `type_dependencies()`, in the order the set is iterated over. -/
def typeDependencies (h : IterationOrder Name) (d : Decl) : List Name :=
  h.order (userTypes d.type).dedup

/-- `hasDependencies()` -/
def hasDependencies (h : IterationOrder Name) (d : Decl) : Bool :=
  !(typeDependencies h d).isEmpty

/-- `isReferenced()` -/
def isReferenced (h : IterationOrder Name) (decls : List Decl) (name : Name) : Bool :=
  decls.any fun d => (typeDependencies h d).contains name

/-! ## Signatures -/

/-- `C_emitConstructor`: the calls of `labcomm2014_set_local_index`, each with the index it
gives out; `local_index` is the counter. -/
def setLocalIndices (referenced : Name → Bool) (localIndex : Nat) :
    List Decl → List (Name × Nat)
  | [] => []
  | d :: decls =>
      if d.isSampleDecl || referenced d.name then
        (d.name, localIndex) :: setLocalIndices referenced (localIndex + 1) decls
      else
        setLocalIndices referenced localIndex decls

/-- The local index of a declaration, 0 if it is given none. -/
def localIndex (indices : List (Name × Nat)) (name : Name) : Int :=
  ((lookupType indices name).getD 0 : Nat)

/-- The signature of a declaration; a typedef has no flat one. -/
def signature (version : Nat) (index : Name → Int) (d : Decl) : Option Signature := do
  let entries ← treedata version index d.type
  if d.isSampleDecl then
    let bytes ← flatBytes version d.type
    pure (.mk d.name (some bytes) (index d.name) entries)
  else
    pure (.mk d.name none (index d.name) entries)

/-! ## Functions -/

variable {ω : WriterAction}

/-- What is generated for a declaration; `userTypeDeps` is the code of `C_emitUserTypeDeps`. -/
structure Generated (ω : WriterAction) where
  decl : Decl
  signature : Signature
  hasDeps : Bool
  userTypeDeps : EncoderM ω Unit

/-- `labcomm2014_encoder_type_register_…` -/
def Generated.typeRegister (g : Generated ω) : EncoderM ω Int := do
  g.userTypeDeps
  if !g.decl.isSampleDecl || g.hasDeps then
    doTypeRegister g.signature
  else
    return 0

/-- `labcomm2014_encoder_register_…` of a sample. -/
def Generated.register (g : Generated ω) : EncoderM ω Int := do
  let result ← doSampleRegister g.signature
  if result ≥ 0 then
    let _ ← g.typeRegister
    let _ ← doTypeBind g.signature g.hasDeps
  return result

/-- The function of the typedef a name refers to. -/
def typeNamed (generated : List (Generated ω)) (name : Name) : Option (Generated ω) :=
  generated.find? fun g => !g.decl.isSampleDecl && g.decl.name = name

/-- `C_emitUserTypeDeps`: for each dependency its own dependencies, and then a call of its
function. -/
def emitUserTypeDeps (generated : List (Generated ω)) (deps : List Name) : EncoderM ω Unit :=
  deps.forM fun name =>
    match typeNamed generated name with
    | none => pure ()
    | some t => do
        t.userTypeDeps
        let _ ← t.typeRegister

/-- The code of the declarations in order, after that of `generated`. -/
def emitDecls (h : IterationOrder Name) (version : Nat) (index : Name → Int)
    (generated : List (Generated ω)) : List Decl → Option (List (Generated ω))
  | [] => some generated
  | d :: decls => do
      let s ← signature version index d
      emitDecls h version index
        (generated ++ [⟨d, s, hasDependencies h d,
          emitUserTypeDeps generated (typeDependencies h d)⟩]) decls

/-- What happens in a Java program or a C process without being said by the specification: the
orders of the sets of intentions and of declarations, and the value of `local_index`, which
starts at `LABCOMM_USER`, when the signatures are initialised. -/
structure Environment where
  intentionOrder : IterationOrder Intention
  declOrder : IterationOrder Name
  localIndex : Nat
  user_le : LABCOMM_USER ≤ localIndex

/-- The indices that are given out when the signatures are initialised. -/
def Environment.indices (env : Environment) (spec : Specification) : List (Name × Nat) :=
  setLocalIndices (isReferenced env.declOrder (spec.resolve env.intentionOrder)) env.localIndex
    (spec.resolve env.intentionOrder)

/-- `C_emitC` -/
def emitC (ω : WriterAction) (env : Environment) (version : Nat) (spec : Specification) :
    Option (List (Generated ω)) :=
  emitDecls env.declOrder version (Compiler.localIndex (env.indices spec)) []
    (spec.resolve env.intentionOrder)

/-! ## Calls -/

/-- A call of a function of the generated interface, by the name of the declaration. -/
inductive Call where
  | register (name : Name)
  | typeRegister (name : Name)
  | sampleRefRegister (name : Name)
  | encode (name : Name) (v : Value)

/-- What is generated for the declaration of the name. -/
def declNamed (generated : List (Generated ω)) (name : Name) : Option (Generated ω) :=
  generated.find? fun g => g.decl.name = name

/-- What is generated for the sample of the name. -/
def sampleNamed (generated : List (Generated ω)) (name : Name) : Option (Generated ω) :=
  generated.find? fun g => g.decl.isSampleDecl && g.decl.name = name

/-- The function a call names; there may be none. -/
def Call.function (generated : List (Generated ω)) : Call → Option (EncoderM ω Int)
  | .register name => (sampleNamed generated name).map Generated.register
  | .typeRegister name => (declNamed generated name).map Generated.typeRegister
  | .sampleRefRegister name =>
      (declNamed generated name).map fun g => doRefRegister g.signature
  | .encode name v =>
      (sampleNamed generated name).map fun g => doEncode g.signature g.decl.type v

/-- The functions one after the other; the process may end in one of them. -/
def runCalls (functions : List (EncoderM ω Int)) : EncoderM ω Unit :=
  functions.forM fun f => do
    let _ ← f

end LabComm.Compiler
