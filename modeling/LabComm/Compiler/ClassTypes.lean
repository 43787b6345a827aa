import LabComm.Format.DataType

set_option autoImplicit false

/-! # Types in generated classes

For C# and for Java the compiler generates one class for each sample, and for each typedef that needs
one. The types of fields, of parameters and behind `new` are put together from a prefix and a suffix
(`emitTypePrefix`, `emitTypeSuffix`) or printed whole (`emitType`). Nothing in the compiler sees to it
that they fit together: a class is of use only if the C# or Java compiler accepts it (`compiles`).
Which types this is so for is read off from the type itself (`compiles_iff`).

Names are taken to be all right: no field has a reserved word of the language for a name, nor the
name of something else in its class.
-/

namespace LabComm.Classes

/-! ## Names of types -/

inductive Language where
  | csharp
  | java
  deriving DecidableEq

/-- The class of a struct (`CS_structName`, `Java_structName`): that of the declaration, or a class
`struct_…` for the fields that lead to the struct, each inside of the one before. The number of fields is
the depth. -/
structure ClassName where
  decl : Name
  path : List Name
  deriving DecidableEq

/-- The class for a field. -/
def ClassName.field (c : ClassName) (name : Name) : ClassName := ⟨c.decl, c.path ++ [name]⟩

inductive TypeName where
  | void
  /-- The boolean type of C# -/
  | bool
  /-- The name of the primitive type, but for `String` and the type of sample references -/
  | prim (p : Prim)
  | struct (c : ClassName)
  deriving DecidableEq

/-- A type as it is printed: a name and brackets, each with so many commas in it. -/
structure TypeText where
  name : TypeName
  brackets : List Nat
  deriving DecidableEq

namespace Language

/-- The type of the values of a primitive type -/
def primType : Language → Prim → TypeName
  | csharp, .boolean => .bool
  | _, p => .prim p

/-- The name is one of a type of values. -/
def isType : Language → TypeName → Bool
  | _, .void => false
  | csharp, .bool => true
  | java, .bool => false
  | csharp, .prim .boolean => false
  | _, .prim _ => true
  | _, .struct _ => true

/-- The brackets of an array of `n` dimensions, of which there is at least one. -/
def brackets : Language → Nat → List Nat
  | csharp, n => [n - 1]
  | java, n => 0 :: List.replicate (n - 1) 0

end Language

/-- The type with brackets in front of the others. -/
def TypeText.array (t : TypeText) (brackets : List Nat) : TypeText := ⟨t.name, brackets ++ t.brackets⟩

/-- The type of an element, if there are these brackets. -/
def TypeText.element (t : TypeText) (brackets : List Nat) : Option TypeText :=
  if brackets <+: t.brackets then some ⟨t.name, t.brackets.drop brackets.length⟩ else none

/-- `CS_needInstance`, `Java_needInstance` -/
def needInstance : DataType → Bool
  | .void => false
  | .prim _ => false
  | .user _ type => needInstance type
  | .struct _ => true
  | .array elem _ => needInstance elem

/-- `emitTypePrefix`, in the class of a declaration and a field. There is none for `void`. -/
def emitTypePrefix (c : ClassName) : DataType → Option TypeName
  | .void => none
  | .prim p => some (.prim p)
  | .user name type =>
      if needInstance type then some (.struct ⟨name, []⟩) else emitTypePrefix ⟨name, []⟩ type
  | .struct _ => some (.struct c)
  | .array elem _ => emitTypePrefix c elem

variable (L : Language)

/-- `emitTypeSuffix` -/
def emitTypeSuffix : DataType → List Nat
  | .void => []
  | .prim _ => []
  | .user _ type => if needInstance type then [] else emitTypeSuffix type
  | .struct _ => []
  | .array elem dim => L.brackets dim.length ++ emitTypeSuffix elem

/-- Prefix and suffix: the type of the elements behind `new`. -/
def elementText (c : ClassName) (elem : DataType) : Option TypeText :=
  (emitTypePrefix c elem).map fun name => ⟨name, emitTypeSuffix L elem⟩

/-- `emitType`. In C# an array has the prefix and the suffix of its elements, in Java their type. -/
def emitType (c : ClassName) : DataType → Option TypeText
  | .void => some ⟨.void, []⟩
  | .prim p => some ⟨L.primType p, []⟩
  | .user name type => emitType ⟨name, []⟩ type
  | .struct _ => some ⟨.struct c, []⟩
  | .array elem dim =>
      (if L = .csharp then elementText L c elem else emitType c elem).map fun T : TypeText =>
        T.array (L.brackets dim.length)

/-! ## What the compilers check -/

/-- `int i_max = value;` -/
def literalFits : Exp → Bool
  | .integerLiteral value => decide (value < 2 ^ 31)
  | .variableSize => true

mutual

/-- The code of `emitEncoder` for an expression of type `T`. -/
def encoderChecks (T : TypeText) (c : ClassName) : DataType → Bool
  | .void => true
  | .prim p => T = ⟨L.primType p, []⟩
  -- the parameter of the function of another class
  | .user name type =>
      if needInstance type then emitType L ⟨name, []⟩ type = some T
      else encoderChecks T ⟨name, []⟩ type
  | .struct fields => T = ⟨.struct c, []⟩ && encoderChecksFields c fields
  | .array elem dim => dim.all literalFits &&
      (T.element (L.brackets dim.length)).any fun U => encoderChecks U c elem

/-- The same of the fields, which have the types that they were declared with. -/
def encoderChecksFields (c : ClassName) : Fields → Bool
  | .nil => true
  | .cons _ name type rest =>
      ((emitType L (c.field name) type).any fun T => encoderChecks T (c.field name) type) &&
        encoderChecksFields c rest

end

/-- The name of the class is known in the class of the declaration. That of a struct in a struct is
not: it is inside the class of the other one. -/
def inScope : TypeName → Bool
  | .struct c => c.path.length ≤ 1
  | _ => true

mutual

/-- The code of `emitDecoder` for a variable of type `T`. -/
def decoderChecks (T : TypeText) (c : ClassName) : DataType → Bool
  | .void => true
  | .prim p => T = ⟨L.primType p, []⟩
  | .user name type =>
      if needInstance type then emitType L ⟨name, []⟩ type = some T
      else decoderChecks T ⟨name, []⟩ type
  | .struct fields =>
      T = ⟨.struct c, []⟩ && inScope (.struct c) && decoderChecksFields c fields
  | .array elem dim => dim.all literalFits &&
      ((elementText L c elem).any fun U => T = U.array (L.brackets dim.length) &&
        L.isType U.name && inScope U.name && decoderChecks U c elem)

/-- The same of the fields. -/
def decoderChecksFields (c : ClassName) : Fields → Bool
  | .nil => true
  | .cons _ name type rest =>
      ((emitType L (c.field name) type).any fun T => decoderChecks T (c.field name) type) &&
        decoderChecksFields c rest

end

mutual

/-- The types of the fields that `emitInstance` declares. -/
def instanceChecks (c : ClassName) : DataType → Bool
  | .void => true
  | .prim _ => true
  | .user _ _ => true
  | .struct fields => instanceChecksFields c fields
  | .array elem _ => instanceChecks c elem

/-- The same for each field. -/
def instanceChecksFields (c : ClassName) : Fields → Bool
  | .nil => true
  | .cons _ name type rest =>
      ((emitType L (c.field name) type).any fun T => L.isType T.name) &&
        instanceChecks (c.field name) type && instanceChecksFields c rest

end

/-- `isVoid` -/
def isVoid : DataType → Bool
  | .void => true
  | .user _ type => isVoid type
  | .prim _ => false
  | .struct _ => false
  | .array _ _ => false

/-- The class of a declaration is accepted. -/
def classChecks (name : Name) (type : DataType) : Bool :=
  isVoid type || (emitType L ⟨name, []⟩ type).any fun T =>
    L.isType T.name && instanceChecks L ⟨name, []⟩ type && encoderChecks L T ⟨name, []⟩ type &&
      decoderChecks L T ⟨name, []⟩ type

mutual

/-- The typedefs that have a class. -/
def classes : DataType → List (Name × DataType)
  | .void => []
  | .prim _ => []
  | .user name type => if needInstance type then (name, type) :: classes type else []
  | .struct fields => classesFields fields
  | .array elem _ => classes elem

/-- The same of the fields. -/
def classesFields : Fields → List (Name × DataType)
  | .nil => []
  | .cons _ _ type rest => classes type ++ classesFields rest

end

/-- **The generated code compiles**: the class of the declaration and those that it uses are
accepted. -/
def compiles (name : Name) (type : DataType) : Bool :=
  ((name, type) :: classes type).all fun d => classChecks L d.1 d.2

/-! ## Types for which there is code -/

/-- The class of the values: of the typedef that the struct is in. -/
def structClass (name : Name) : DataType → Option Name
  | .struct _ => some name
  | .user name type => structClass name type
  | .void => none
  | .prim _ => none
  | .array _ _ => none

/-- Prefix and suffix are the type: there is no `boolean` in C#, and a typedef with a class is that of
a struct, not of another typedef or an array. -/
def IsElement : DataType → Prop
  | .void => False
  | .prim p => L.primType p = .prim p
  | .user name type =>
      if needInstance type then structClass name type = some name else IsElement type
  | .struct _ => True
  | .array elem _ => IsElement elem

mutual

/-- There is no `void`, structs are in no more than one other struct, and elements of arrays are such
that prefix and suffix are their type. -/
def Regular (depth : Nat) : DataType → Prop
  | .void => False
  | .prim _ => True
  | .user _ type => Regular 0 type
  | .struct fields => depth ≤ 1 ∧ FieldsRegular (depth + 1) fields
  | .array elem dim => (∀ e ∈ dim, literalFits e) ∧ IsElement L elem ∧ Regular depth elem

/-- The same of each field. -/
def FieldsRegular (depth : Nat) : Fields → Prop
  | .nil => True
  | .cons _ _ type rest => Regular depth type ∧ FieldsRegular depth rest

end

/-- There is no value, or the type is regular. -/
def HasCode (t : DataType) : Prop := isVoid t = true ∨ Regular L 0 t

/-! ## Prefix and suffix -/

section Lemmas

variable {L : Language} {c : ClassName}

theorem element_array (T : TypeText) (bs : List Nat) : (T.array bs).element bs = some T := by
  rw [TypeText.element, TypeText.array, if_pos (List.prefix_append _ _), List.drop_left]

theorem primType_isType (p : Prim) : L.isType (L.primType p) = true := by
  cases L <;> cases p <;> rfl

theorem elementText_array (elem : DataType) (dim : List Exp) :
    elementText L c (.array elem dim) =
      (elementText L c elem).map fun T => T.array (L.brackets dim.length) := by
  rw [elementText, elementText, emitTypePrefix, Option.map_map]
  rfl

theorem emitType_array (elem : DataType) (dim : List Exp) :
    emitType L c (.array elem dim) =
      (if L = .csharp then elementText L c elem else emitType L c elem).map fun T : TypeText =>
        T.array (L.brackets dim.length) := by
  rw [emitType]

theorem brackets_ne_nil (n : Nat) : L.brackets n ≠ [] := by
  cases L <;> exact List.cons_ne_nil _ _

/-- The class of a struct is its type if there are no brackets. -/
theorem emitType_struct_iff (type : DataType) {name d : Name} :
    emitType L ⟨name, []⟩ type = some ⟨.struct ⟨d, []⟩, []⟩ ↔ structClass name type = some d := by
  match type with
  | .void => simp [emitType, structClass]
  | .prim p => cases L <;> cases p <;> simp [emitType, structClass, Language.primType]
  | .user n type =>
      rw [emitType, structClass]
      exact emitType_struct_iff type
  | .struct _ => simp [emitType, structClass]
  | .array elem dim =>
      constructor
      · intro h
        rw [emitType_array, Option.map_eq_some_iff] at h
        obtain ⟨T, _, hT⟩ := h
        have hbrackets := congrArg TypeText.brackets hT
        exact absurd (List.append_eq_nil_iff.mp hbrackets).1 (brackets_ne_nil _)
      · intro h
        cases h

/-- Prefix and suffix are the type. -/
theorem elementText_of_isElement (c : ClassName) (t : DataType) (h : IsElement L t) :
    ∃ T, elementText L c t = some T ∧ emitType L c t = some T := by
  match t with
  | .void => exact h.elim
  | .prim p =>
      have hp : L.primType p = .prim p := h
      exact ⟨⟨.prim p, []⟩, rfl, by rw [emitType, hp]⟩
  | .struct _ => exact ⟨⟨.struct c, []⟩, rfl, by rw [emitType]⟩
  | .user name type =>
      rw [IsElement] at h
      rw [elementText, emitTypePrefix, emitTypeSuffix, emitType]
      by_cases hinst : needInstance type = true
      · rw [if_pos hinst] at h ⊢
        rw [if_pos hinst]
        exact ⟨_, rfl, (emitType_struct_iff type).mpr h⟩
      · rw [if_neg hinst] at h ⊢
        rw [if_neg hinst]
        exact elementText_of_isElement ⟨name, []⟩ type h
  | .array elem dim =>
      obtain ⟨T, htext, htype⟩ := elementText_of_isElement c elem h
      refine ⟨T.array (L.brackets dim.length), ?_, ?_⟩
      · rw [elementText_array, htext]
        rfl
      · rw [emitType_array, htext, htype, ite_self]
        rfl

/-- An element that is accepted as one of the type of prefix and suffix is of this type. -/
theorem isElement_of_checks (c : ClassName) (t : DataType) {T : TypeText}
    (htext : elementText L c t = some T)
    (hchecks : encoderChecks L T c t = true) : IsElement L t ∧ emitType L c t = some T := by
  match t with
  | .void => cases htext
  | .prim p =>
      cases htext
      have hp : (⟨.prim p, []⟩ : TypeText) = ⟨L.primType p, []⟩ := of_decide_eq_true hchecks
      refine ⟨(congrArg TypeText.name hp).symm, ?_⟩
      rw [emitType, ← hp]
      rfl
  | .struct _ =>
      cases htext
      refine ⟨trivial, ?_⟩
      rw [emitType]
      rfl
  | .user name type =>
      rw [elementText, emitTypePrefix, emitTypeSuffix] at htext
      rw [encoderChecks] at hchecks
      rw [IsElement, emitType]
      -- the class of a typedef'd struct, or the type the typedef stands for
      by_cases hinst : needInstance type = true
      · rw [if_pos hinst, if_pos hinst] at htext
        rw [if_pos hinst] at hchecks ⊢
        cases htext
        have htype := of_decide_eq_true hchecks
        exact ⟨(emitType_struct_iff type).mp htype, htype⟩
      · rw [if_neg hinst, if_neg hinst] at htext
        rw [if_neg hinst] at hchecks ⊢
        exact isElement_of_checks ⟨name, []⟩ type htext hchecks
  | .array elem dim =>
      rw [elementText_array, Option.map_eq_some_iff] at htext
      obtain ⟨U, hU, rfl⟩ := htext
      rw [encoderChecks, element_array, Option.any_some, Bool.and_eq_true] at hchecks
      obtain ⟨helem, htype⟩ := isElement_of_checks c elem hU hchecks.2
      refine ⟨helem, ?_⟩
      rw [emitType_array, hU, htype, ite_self]
      rfl

/-! ## Accepted types -/

/-- The code for the type is accepted where its values are of type `T`, and so are the classes of its
typedefs. -/
structure Accepted (L : Language) (c : ClassName) (t : DataType) (T : TypeText) : Prop where
  type : emitType L c t = some T
  isType : L.isType T.name = true
  instances : instanceChecks L c t = true
  encoder : encoderChecks L T c t = true
  decoder : decoderChecks L T c t = true
  classes : ∀ d ∈ classes t, classChecks L d.1 d.2 = true

/-- The same of all fields. -/
structure FieldsAccepted (L : Language) (c : ClassName) (fields : Fields) : Prop where
  instances : instanceChecksFields L c fields = true
  encoder : encoderChecksFields L c fields = true
  decoder : decoderChecksFields L c fields = true
  classes : ∀ d ∈ classesFields fields, classChecks L d.1 d.2 = true

theorem Accepted.classChecks {name : Name} {t : DataType} {T : TypeText}
    (h : Accepted L ⟨name, []⟩ t T) : classChecks L name t = true := by
  rw [Classes.classChecks, h.type, Option.any_some, h.isType, h.instances, h.encoder, h.decoder]
  exact Bool.or_true _

/-- A class that is accepted, with those of its typedefs. -/
theorem accepted_of_classChecks {name : Name} {t : DataType} {T : TypeText}
    (hvoid : isVoid t = false) (h : classChecks L name t = true)
    (hclasses : ∀ d ∈ classes t, Classes.classChecks L d.1 d.2 = true)
    (hT : emitType L ⟨name, []⟩ t = some T) : Accepted L ⟨name, []⟩ t T := by
  rw [classChecks, hvoid, Bool.false_or, hT, Option.any_some, Bool.and_eq_true, Bool.and_eq_true,
    Bool.and_eq_true] at h
  exact ⟨hT, h.1.1.1, h.1.1.2, h.1.2, h.2, hclasses⟩

theorem isVoid_of_needInstance (t : DataType) (h : needInstance t = true) : isVoid t = false := by
  match t with
  | .void => cases h
  | .prim _ | .struct _ | .array _ _ => rfl
  | .user _ type => exact isVoid_of_needInstance type h

/-- Without structs there are no classes. -/
theorem classes_of_not_needInstance (t : DataType) (h : needInstance t = false) :
    classes t = [] := by
  match t with
  | .void | .prim _ => rw [classes]
  | .user _ type =>
      have htype : needInstance type = false := h
      rw [classes, htype]
      rfl
  | .struct _ => cases h
  | .array elem _ =>
      rw [classes]
      exact classes_of_not_needInstance elem h

theorem instanceChecks_of_not_needInstance (c : ClassName) (t : DataType)
    (h : needInstance t = false) : instanceChecks L c t = true := by
  match t with
  | .void | .prim _ | .user _ _ => rw [instanceChecks]
  | .struct _ => cases h
  | .array elem _ =>
      rw [instanceChecks]
      exact instanceChecks_of_not_needInstance c elem h

theorem length_path_field (c : ClassName) (name : Name) :
    (c.field name).path.length = c.path.length + 1 :=
  List.length_append

mutual

/-- Regular types are accepted. -/
theorem accepted_of_regular (c : ClassName) (t : DataType) (h : Regular L c.path.length t) :
    ∃ T, Accepted L c t T ∧ inScope T.name = true := by
  match t with
  | .void => exact h.elim
  | .prim p =>
      refine ⟨⟨L.primType p, []⟩, ⟨?_, primType_isType p, ?_, ?_, ?_, ?_⟩, ?_⟩
      · rw [emitType]
      · rw [instanceChecks]
      · rw [encoderChecks, decide_eq_true rfl]
      · rw [decoderChecks, decide_eq_true rfl]
      · intro d hd
        cases hd
      · cases L <;> cases p <;> rfl
  | .user name type =>
      obtain ⟨T, hT, hscope⟩ := accepted_of_regular ⟨name, []⟩ type h
      refine ⟨T, ⟨?_, hT.isType, ?_, ?_, ?_, ?_⟩, hscope⟩
      · rw [emitType, hT.type]
      · rw [instanceChecks]
      · rw [encoderChecks, hT.type, hT.encoder, decide_eq_true rfl, ite_self]
      · rw [decoderChecks, hT.type, hT.decoder, decide_eq_true rfl, ite_self]
      · intro d hd
        rw [classes] at hd
        split at hd
        · rcases List.mem_cons.mp hd with rfl | hd
          · exact hT.classChecks
          · exact hT.classes d hd
        · cases hd
  | .struct fields =>
      have hfields := accepted_of_regularFields c fields h.2
      have hdepth : inScope (.struct c) = true := decide_eq_true h.1
      refine ⟨⟨.struct c, []⟩, ⟨?_, ?_, ?_, ?_, ?_, ?_⟩, hdepth⟩
      · rw [emitType]
      · cases L <;> rfl
      · rw [instanceChecks, hfields.instances]
      · rw [encoderChecks, hfields.encoder, decide_eq_true rfl, Bool.and_true]
      · rw [decoderChecks, hfields.decoder, hdepth, decide_eq_true rfl, Bool.and_true, Bool.and_true]
      · intro d hd
        rw [classes] at hd
        exact hfields.classes d hd
  | .array elem dim =>
      obtain ⟨hfit, helem, hregular⟩ := h
      obtain ⟨U, hU, hscope⟩ := accepted_of_regular c elem hregular
      -- prefix and suffix give the type of the element, as it is one of this language
      obtain ⟨U', htext, htype⟩ := elementText_of_isElement c elem helem
      rw [hU.type] at htype
      cases htype
      have hdim : dim.all literalFits = true := List.all_eq_true.mpr hfit
      refine ⟨U.array (L.brackets dim.length), ⟨?_, hU.isType, ?_, ?_, ?_, ?_⟩, hscope⟩
      · rw [emitType_array, htext, hU.type, ite_self]
        rfl
      · rw [instanceChecks, hU.instances]
      · rw [encoderChecks, element_array, Option.any_some, hU.encoder, hdim, Bool.and_true]
      · rw [decoderChecks, htext, Option.any_some, hU.decoder, hdim, hU.isType, hscope,
          decide_eq_true rfl]
        rfl
      · intro d hd
        rw [classes] at hd
        exact hU.classes d hd

theorem accepted_of_regularFields (c : ClassName) (fields : Fields)
    (h : FieldsRegular L (c.path.length + 1) fields) : FieldsAccepted L c fields := by
  match fields with
  | .nil =>
      refine ⟨?_, ?_, ?_, ?_⟩
      · rw [instanceChecksFields]
      · rw [encoderChecksFields]
      · rw [decoderChecksFields]
      · intro d hd
        rw [classesFields] at hd
        cases hd
  | .cons _ name type rest =>
      obtain ⟨T, hT, _⟩ := accepted_of_regular (c.field name) type (by
        rw [length_path_field]
        exact h.1)
      have hrest := accepted_of_regularFields c rest h.2
      refine ⟨?_, ?_, ?_, ?_⟩
      · rw [instanceChecksFields, hT.type, Option.any_some, hT.isType, hT.instances,
          hrest.instances]
        rfl
      · rw [encoderChecksFields, hT.type, Option.any_some, hT.encoder, hrest.encoder]
        rfl
      · rw [decoderChecksFields, hT.type, Option.any_some, hT.decoder, hrest.decoder]
        rfl
      · intro d hd
        rw [classesFields] at hd
        rcases List.mem_append.mp hd with hd | hd
        · exact hT.classes d hd
        · exact hrest.classes d hd

end

mutual

/-- What is accepted is regular. -/
theorem regular_of_accepted (c : ClassName) (t : DataType) {T : TypeText} (h : Accepted L c t T) :
    Regular L c.path.length t := by
  match t with
  | .void =>
      have htype := h.type
      rw [emitType] at htype
      cases htype
      exact absurd h.isType (by cases L <;> exact Bool.false_ne_true)
  | .prim p => trivial
  | .user name type =>
      obtain ⟨htype, hname, _, hencoder, hdecoder, hclasses⟩ := h
      rw [emitType] at htype
      rw [encoderChecks] at hencoder
      rw [decoderChecks] at hdecoder
      rw [classes] at hclasses
      -- with a class of its own the checks are those of the class
      by_cases hinst : needInstance type = true
      · rw [if_pos hinst] at hclasses
        refine regular_of_accepted ⟨name, []⟩ type (accepted_of_classChecks
          (isVoid_of_needInstance type hinst) (hclasses _ List.mem_cons_self)
          (fun d hd => hclasses d (List.mem_cons_of_mem _ hd)) htype)
      · have hinst' := Bool.eq_false_of_not_eq_true hinst
        rw [if_neg hinst] at hencoder hdecoder
        refine regular_of_accepted ⟨name, []⟩ type ⟨htype, hname,
          instanceChecks_of_not_needInstance _ _ hinst', hencoder, hdecoder, ?_⟩
        rw [classes_of_not_needInstance _ hinst']
        intro d hd
        cases hd
  | .struct fields =>
      obtain ⟨_, _, hinstances, hencoder, hdecoder, hclasses⟩ := h
      rw [instanceChecks] at hinstances
      rw [encoderChecks, Bool.and_eq_true] at hencoder
      rw [decoderChecks, Bool.and_eq_true, Bool.and_eq_true] at hdecoder
      rw [classes] at hclasses
      exact ⟨of_decide_eq_true hdecoder.1.2, regular_of_acceptedFields c fields
        ⟨hinstances, hencoder.2, hdecoder.2, hclasses⟩⟩
  | .array elem dim =>
      obtain ⟨_, _, hinstances, hencoder, hdecoder, hclasses⟩ := h
      rw [instanceChecks] at hinstances
      rw [encoderChecks, Bool.and_eq_true] at hencoder
      rw [decoderChecks, Bool.and_eq_true, Option.any_eq_true] at hdecoder
      rw [classes] at hclasses
      obtain ⟨hdim, U, hU, hchecks⟩ := hdecoder
      rw [Bool.and_eq_true, Bool.and_eq_true, Bool.and_eq_true] at hchecks
      obtain ⟨⟨⟨hT, hname⟩, _⟩, hdecoder⟩ := hchecks
      -- what the decoder creates has the type that the encoder loops over
      rw [of_decide_eq_true hT, element_array, Option.any_some] at hencoder
      obtain ⟨helem, htype⟩ := isElement_of_checks c elem hU hencoder.2
      exact ⟨List.all_eq_true.mp hdim, helem, regular_of_accepted c elem
        ⟨htype, hname, hinstances, hencoder.2, hdecoder, hclasses⟩⟩

theorem regular_of_acceptedFields (c : ClassName) (fields : Fields)
    (h : FieldsAccepted L c fields) : FieldsRegular L (c.path.length + 1) fields := by
  match fields with
  | .nil => trivial
  | .cons _ name type rest =>
      obtain ⟨hinstances, hencoder, hdecoder, hclasses⟩ := h
      rw [instanceChecksFields, Bool.and_eq_true, Bool.and_eq_true, Option.any_eq_true]
        at hinstances
      rw [encoderChecksFields, Bool.and_eq_true] at hencoder
      rw [decoderChecksFields, Bool.and_eq_true] at hdecoder
      rw [classesFields] at hclasses
      obtain ⟨⟨⟨T, htype, hname⟩, hinstance⟩, hinstances⟩ := hinstances
      rw [htype, Option.any_some] at hencoder hdecoder
      have hregular := regular_of_accepted (c.field name) type ⟨htype, hname, hinstance,
        hencoder.1, hdecoder.1, fun d hd => hclasses d (List.mem_append_left _ hd)⟩
      rw [length_path_field] at hregular
      exact ⟨hregular, regular_of_acceptedFields c rest ⟨hinstances, hencoder.2, hdecoder.2,
        fun d hd => hclasses d (List.mem_append_right _ hd)⟩⟩

end

end Lemmas

theorem classes_of_isVoid (t : DataType) (h : isVoid t = true) : classes t = [] := by
  refine classes_of_not_needInstance t (Bool.eq_false_of_not_eq_true fun hinst => ?_)
  rw [isVoid_of_needInstance t hinst] at h
  cases h

/-- **The generated code compiles** just if there is no value, or the type is regular. -/
theorem compiles_iff (name : Name) (t : DataType) : compiles L name t = true ↔ HasCode L t := by
  rw [HasCode, compiles, List.all_eq_true, List.forall_mem_cons]
  constructor
  · rintro ⟨hclass, hclasses⟩
    by_cases hvoid : isVoid t = true
    · exact .inl hvoid
    · have hvoid' := Bool.eq_false_of_not_eq_true hvoid
      have hany := hclass
      rw [classChecks, hvoid', Bool.false_or, Option.any_eq_true] at hany
      obtain ⟨T, hT, _⟩ := hany
      exact .inr (regular_of_accepted ⟨name, []⟩ t
        (accepted_of_classChecks hvoid' hclass hclasses hT))
  · rintro (hvoid | hregular)
    · rw [classes_of_isVoid t hvoid, classChecks, hvoid]
      exact ⟨rfl, fun d hd => by cases hd⟩
    · obtain ⟨T, hT, _⟩ := accepted_of_regular ⟨name, []⟩ t hregular
      exact ⟨hT.classChecks, hT.classes⟩

/-- `sample boolean a[2];` -/
example : compiles .csharp [97] (.array (.prim .boolean) [.integerLiteral 2]) = false ∧
    compiles .java [97] (.array (.prim .boolean) [.integerLiteral 2]) = true := by decide

/-- `typedef struct { int x; } p; typedef p q; sample q a[2];` -/
example : compiles .java [97] (.array (.user [113] (.user [112] (.struct (.cons [] [120] (.prim .int)
    .nil)))) [.integerLiteral 2]) = false := by decide

/-- `sample struct { struct { struct { int x; } c; } b; } a;` -/
example : compiles .java [97] (.struct (.cons [] [98] (.struct (.cons [] [99] (.struct (.cons [] [120]
    (.prim .int) .nil)) .nil)) .nil)) = false := by decide

end LabComm.Classes
