import LabComm.Compiler.Parser

set_option autoImplicit false

/-! # The pretty printer

The parser collects the brackets behind a name into one list. The rewrite turns that into nested
array types, the first pair of brackets outermost. The printer writes the type of the elements in
front of the name, and the brackets behind it from the outside in.

What is printed is scanned as the symbols of the specification without its annotations
(`scans_pp`), so it is parsed and rewritten to the specification that was printed
(`parse_pp`).
-/

namespace LabComm.Compiler.Source

open Library

/-! ## The rewrite -/

/-- A `DataType` with the array types rewritten. -/
inductive DataType where
  | voidType
  | primType (name : List Char) (token : Nat)
  | userType (name : List Char)
  | structType (fields : List (TypeInstance DataType))
  | variableArrayType (dataType : DataType) (dim : Dim)
  | fixedArrayType (dataType : DataType) (dim : Dim)

/-- `Dim.isVariable` -/
def isVariable (dim : Dim) : Bool := dim.any fun e => e == .variableSize

/-- The rewrite of a `ParseArrayType`. It leaves a `ParseArrayType` of all pairs of brackets but the
first, which is rewritten in turn. -/
def rewriteArray (t : DataType) : List Dim → DataType
  | [] => t
  | dim :: dims =>
      if isVariable dim then .variableArrayType (rewriteArray t dims) dim
      else .fixedArrayType (rewriteArray t dims) dim

mutual

/-- A type, rewritten. -/
def ParsedType.rewrite : ParsedType → DataType
  | .voidType => .voidType
  | .primType name token => .primType name token
  | .userType name => .userType name
  | .structType fields => .structType (rewriteFields fields)
  | .parseArrayType t dims => rewriteArray t.rewrite dims

/-- The fields, rewritten. -/
def rewriteFields : List (TypeInstance ParsedType) → List (TypeInstance DataType)
  | [] => []
  | ⟨t, a⟩ :: fields => ⟨t.rewrite, a⟩ :: rewriteFields fields

end

/-- A declaration with its type changed. -/
def Decl.map {T U : Type} (f : TypeInstance T → TypeInstance U) : Decl T → Decl U
  | typeDecl t => typeDecl (f t)
  | sampleDecl t => sampleDecl (f t)

/-- A specification, rewritten. -/
def rewrite (spec : Specification ParsedType) : Specification DataType :=
  spec.map (Decl.map fun t => ⟨t.dataType.rewrite, t.annotations⟩)

/-! ## The printer -/

/-- `Exp.pp` -/
def Exp.pp : Exp → List Char
  | integerLiteral value => value
  | variableSize => "_".toList

/-- The loop over the expressions of a dimension. -/
def ppExps : List Exp → List Char
  | [] => []
  | e :: es => e.pp ++ es.flatMap fun e => ", ".toList ++ e.pp

/-- `ppSuffix` -/
def DataType.ppSuffix : DataType → List Char
  | .variableArrayType t dim => "[".toList ++ ppExps dim ++ "]".toList ++ t.ppSuffix
  | .fixedArrayType t dim => "[".toList ++ ppExps dim ++ "]".toList ++ t.ppSuffix
  | _ => []

/-- An `ArrayType`. -/
def DataType.isArray : DataType → Bool
  | .variableArrayType _ _ => true
  | .fixedArrayType _ _ => true
  | _ => false

/-- `ppIdentifier`, where `pre` is what `ppPrefix` prints. -/
def DataType.ppIdentifier (t : DataType) (pre id : List Char) : List Char :=
  if t.isArray then pre ++ " ".toList ++ id ++ t.ppSuffix else pre ++ " ".toList ++ id

section Printer

variable (nl : LineTerminator)

mutual

/-- `ppPrefix`, where `indent` is the length of `pp_indent`. -/
def DataType.ppPrefix (indent : Nat) : DataType → List Char
  | .voidType => "void".toList
  | .primType name _ => name
  | .userType name => name
  | .structType fields =>
      "struct \x7b".toList ++ nl.chars ++ ppFields (indent + 2) fields ++
        List.replicate indent ' ' ++ "\x7d".toList
  | .variableArrayType t _ => t.ppPrefix indent
  | .fixedArrayType t _ => t.ppPrefix indent

/-- `Field.pp` of every field. -/
def ppFields (indent : Nat) : List (TypeInstance DataType) → List Char
  | [] => []
  | ⟨t, a⟩ :: fields =>
      List.replicate indent ' ' ++
        t.ppIdentifier (t.ppPrefix indent) (TypeInstance.getName ⟨t, a⟩) ++
        ";".toList ++ nl.chars ++ ppFields indent fields

end

/-- `Decl.pp` -/
def Decl.pp : Decl DataType → List Char
  | typeDecl t =>
      "typedef ".toList ++ t.dataType.ppIdentifier (t.dataType.ppPrefix nl 0) t.getName ++
        ";".toList ++ nl.chars
  | sampleDecl t =>
      "sample ".toList ++ t.dataType.ppIdentifier (t.dataType.ppPrefix nl 0) t.getName ++
        ";".toList ++ nl.chars

/-- `Specification.pp` -/
def pp (spec : Specification DataType) : List Char := spec.flatMap (Decl.pp nl)

end Printer

/-! ## Without annotations -/

/-- A type instance with no annotation but its name. -/
def bareInstance {T U : Type} (f : T → U) (t : TypeInstance T) : TypeInstance U :=
  ⟨f t.dataType, Annotations.addName [] t.getName⟩

mutual

/-- A type without the annotations of its fields. -/
def ParsedType.bare : ParsedType → ParsedType
  | .voidType => .voidType
  | .primType name token => .primType name token
  | .userType name => .userType name
  | .structType fields => .structType (bareFields fields)
  | .parseArrayType t dims => .parseArrayType t.bare dims

/-- The fields without their annotations. -/
def bareFields : List (TypeInstance ParsedType) → List (TypeInstance ParsedType)
  | [] => []
  | ⟨t, a⟩ :: fields =>
      ⟨t.bare, Annotations.addName [] (TypeInstance.getName ⟨t, a⟩)⟩ :: bareFields fields

end

mutual

/-- A rewritten type without the annotations of its fields. -/
def DataType.bare : DataType → DataType
  | .voidType => .voidType
  | .primType name token => .primType name token
  | .userType name => .userType name
  | .structType fields => .structType (bareDataFields fields)
  | .variableArrayType t dim => .variableArrayType t.bare dim
  | .fixedArrayType t dim => .fixedArrayType t.bare dim

/-- The fields without their annotations. -/
def bareDataFields : List (TypeInstance DataType) → List (TypeInstance DataType)
  | [] => []
  | ⟨t, a⟩ :: fields =>
      ⟨t.bare, Annotations.addName [] (TypeInstance.getName ⟨t, a⟩)⟩ :: bareDataFields fields

end

/-- A specification with its annotations aside. -/
def withoutAnnotations (spec : Specification DataType) : Specification DataType :=
  spec.map (Decl.map (bareInstance DataType.bare))

/-- The same of what is parsed. -/
def withoutParsedAnnotations (spec : Specification ParsedType) : Specification ParsedType :=
  spec.map (Decl.map (bareInstance ParsedType.bare))

theorem rewriteArray_bare (t : DataType) (dims : List Dim) :
    (rewriteArray t dims).bare = rewriteArray t.bare dims := by
  induction dims with
  | nil => rfl
  | cons dim dims ih =>
      rw [rewriteArray, rewriteArray]
      split <;> rw [DataType.bare, ih]

mutual

theorem rewrite_bare : ∀ t : ParsedType, t.bare.rewrite = t.rewrite.bare
  | .voidType => rfl
  | .primType _ _ => rfl
  | .userType _ => rfl
  | .structType fields => by
      rw [ParsedType.bare, ParsedType.rewrite, rewriteFields_bare fields]
      rfl
  | .parseArrayType t dims => by
      rw [ParsedType.bare, ParsedType.rewrite, rewrite_bare t, ParsedType.rewrite,
        rewriteArray_bare]

theorem rewriteFields_bare : ∀ fields : List (TypeInstance ParsedType),
    rewriteFields (bareFields fields) = bareDataFields (rewriteFields fields)
  | [] => rfl
  | ⟨t, a⟩ :: fields => by
      rw [bareFields, rewriteFields, rewrite_bare t, rewriteFields_bare fields, rewriteFields,
        bareDataFields]
      rfl

end

/-- The annotations can be left out before the rewrite. -/
theorem rewrite_withoutAnnotations (spec : Specification ParsedType) :
    rewrite (withoutParsedAnnotations spec) = withoutAnnotations (rewrite spec) := by
  rw [rewrite, withoutParsedAnnotations, withoutAnnotations, rewrite, List.map_map, List.map_map]
  refine List.map_congr_left fun d _ => ?_
  cases d <;>
    simp only [Function.comp_apply, Decl.map, bareInstance, rewrite_bare, TypeInstance.getName]

/-! ## Prefix and suffix -/

theorem ppPrefix_rewriteArray (nl : LineTerminator) (indent : Nat) (t : DataType)
    (dims : List Dim) : (rewriteArray t dims).ppPrefix nl indent = t.ppPrefix nl indent := by
  induction dims with
  | nil => rfl
  | cons dim dims ih =>
      rw [rewriteArray]
      split
      · exact ih
      · exact ih

/-- What is printed of the brackets. -/
def ppDims (dims : List Dim) : List Char :=
  dims.flatMap fun dim => "[".toList ++ ppExps dim ++ "]".toList

/-- **The brackets are printed in the order they were parsed in.** -/
theorem ppSuffix_rewriteArray (t : DataType) (dims : List Dim) :
    (rewriteArray t dims).ppSuffix = ppDims dims ++ t.ppSuffix := by
  induction dims with
  | nil => rfl
  | cons dim dims ih =>
      rw [rewriteArray]
      split <;>
        simp only [DataType.ppSuffix, ih, ppDims, List.flatMap_cons, List.append_assoc]

theorem ppIdentifier_array (t : DataType) {dims : List Dim} (h : dims ≠ []) (pre id : List Char) :
    (rewriteArray t dims).ppIdentifier pre id =
      pre ++ " ".toList ++ id ++ (ppDims dims ++ t.ppSuffix) := by
  have harray : (rewriteArray t dims).isArray = true := by
    cases dims with
    | nil => exact absurd rfl h
    | cons dim dims =>
        rw [rewriteArray]
        split <;> rfl
  rw [DataType.ppIdentifier, if_pos harray, ppSuffix_rewriteArray]

/-- The type that the grammar has in front of a name. -/
def ParsedType.element : ParsedType → ParsedType
  | .parseArrayType t _ => t
  | t => t

/-! ## What is printed is scanned -/

variable {cls : CharClasses}

/-- A symbol that the scanner has made. -/
abbrev Scanned (cls : CharClasses) (x : Symbol) : Prop := x.Scanned (rules cls)

/-- What is printed of a word, a blank, a mark or the end of a line, in front of more. -/
theorem afterWord_of_text {x : List Char} {c : Char} {t : List Char} (hx : x = c :: t)
    (h : c.toNat < 128) (hc : (c.isAlpha || c == '_' || c.isDigit) = false) (v : List Char) :
    AfterWord cls (x ++ v) := by
  subst hx
  exact AfterWord.of_cons h hc (t ++ v)

theorem scans_blank (P : List Char → Prop) : Scans (rules cls) P " ".toList [] :=
  scans_blanks 1 P

theorem scans_keyword (cls : CharClasses) {k : String × Terminal} (hk : k ∈ keywords) :
    Scans (rules cls) (AfterWord cls) k.1.toList [⟨k.2, k.1.toList⟩] :=
  scans_word (s := ⟨k.2, k.1.toList⟩) (scanned_keyword hk) (.inr (.inr ⟨k, hk, rfl⟩))

/-- An expression. -/
theorem scans_exp {e : Exp} {u : List Symbol} (h : IsExp e u) (hs : ∀ x ∈ u, Scanned cls x) :
    ∃ u', IsExp e u' ∧ Scans (rules cls) (AfterWord cls) e.pp u' := by
  cases h with
  | @integerLiteral v =>
      exact ⟨_, .integerLiteral,
        scans_word (hs ⟨.integerLiteral, v⟩ List.mem_cons_self) (.inr (.inl rfl))⟩
  | underscore => exact ⟨_, .underscore, scans_underscore⟩

theorem afterWord_moreExps (es : List Exp) {v : List Char} (hv : AfterWord cls v) :
    AfterWord cls ((es.flatMap fun e => ", ".toList ++ e.pp) ++ v) := by
  cases es with
  | nil => exact hv
  | cons e es =>
      rw [List.flatMap_cons, List.append_assoc, List.append_assoc]
      exact afterWord_of_text (x := ", ".toList) rfl (by decide) (by decide) _

/-- The expressions behind commas. -/
theorem scans_moreExps {es : List Exp} {u : List Symbol}
    (h : Each (Separated (IsTerminal .comma) IsExp) es u) (hs : ∀ x ∈ u, Scanned cls x) :
    ∃ u', Each (Separated (IsTerminal .comma) IsExp) es u' ∧
      Scans (rules cls) (AfterWord cls) (es.flatMap fun e => ", ".toList ++ e.pp) u' := by
  induction es generalizing u with
  | nil => exact ⟨[], each_nil.mpr rfl, Scans.nil _⟩
  | cons e es ih =>
      obtain ⟨_, w, ⟨_, v, ⟨c, rfl⟩, hv, rfl⟩, hw, rfl⟩ := each_cons.mp h
      obtain ⟨v', hv', hsv⟩ := scans_exp hv fun x hx => hs x (by simp [hx])
      obtain ⟨w', hw', hsw⟩ := ih hw fun x hx => hs x (by simp [hx])
      have hcomma : Scans (rules cls) (fun _ => True) ", ".toList [⟨.comma, [',']⟩] :=
        (scans_mark cls (k := (",", .comma)) (by decide) (by decide) fun _ => True).append
          (scans_blank _) fun _ _ => trivial
      refine ⟨([⟨.comma, [',']⟩] ++ v') ++ w',
        each_cons.mpr ⟨_, w', ⟨_, v', ⟨_, rfl⟩, hv', rfl⟩, hw', rfl⟩, ?_⟩
      rw [List.flatMap_cons]
      exact (hcomma.append hsv fun _ _ => trivial).append hsw fun _ => afterWord_moreExps es

/-- A pair of brackets. -/
theorem scans_dim {d : Dim} {u : List Symbol} (h : IsDim d u) (hs : ∀ x ∈ u, Scanned cls x) :
    ∃ u', IsDim d u' ∧
      Scans (rules cls) (fun _ => True) ("[".toList ++ ppExps d ++ "]".toList) u' := by
  cases h with
  | @mk u l r hu =>
      obtain ⟨e, es, v, w, rfl, hv, hw, rfl⟩ := listOf_iff.mp hu
      obtain ⟨v', hv', hsv⟩ := scans_exp hv fun x hx => hs x (by simp [hx])
      obtain ⟨w', hw', hsw⟩ := scans_moreExps hw fun x hx => hs x (by simp [hx])
      have hopen := scans_mark cls (k := ("[", .lbrack)) (by decide) (by decide)
        fun _ => True
      have hclose := scans_mark cls (k := ("]", .rbrack)) (by decide) (by decide)
        fun _ => True
      have hexps : Scans (rules cls) (AfterWord cls) (ppExps (e :: es)) (v' ++ w') :=
        hsv.append hsw fun _ => afterWord_moreExps es
      refine ⟨⟨.lbrack, ['[']⟩ :: ((v' ++ w') ++ [⟨.rbrack, [']']⟩]),
        .mk (listOf_iff.mpr ⟨e, es, v', w', rfl, hv', hw', rfl⟩), ?_⟩
      exact (hopen.append hexps fun _ _ => trivial).append hclose fun v _ =>
        afterWord_of_text (x := "]".toList) rfl (by decide) (by decide) v

/-- The brackets behind a name. -/
theorem scans_dims {ds : List Dim} {u : List Symbol} (h : Each IsDim ds u)
    (hs : ∀ x ∈ u, Scanned cls x) :
    ∃ u', Each IsDim ds u' ∧ Scans (rules cls) (fun _ => True) (ppDims ds) u' := by
  induction ds generalizing u with
  | nil => exact ⟨[], each_nil.mpr rfl, Scans.nil _⟩
  | cons d ds ih =>
      obtain ⟨v, w, hv, hw, rfl⟩ := each_cons.mp h
      obtain ⟨v', hv', hsv⟩ := scans_dim hv fun x hx => hs x (by simp [hx])
      obtain ⟨w', hw', hsw⟩ := ih hw fun x hx => hs x (by simp [hx])
      refine ⟨v' ++ w', each_cons.mpr ⟨v', w', hv', hw', rfl⟩, ?_⟩
      rw [ppDims, List.flatMap_cons]
      exact hsv.append hsw fun _ _ => trivial

theorem afterWord_dims {ds : List Dim} (h : ds ≠ []) (v : List Char) :
    AfterWord cls (ppDims ds ++ v) := by
  cases ds with
  | nil => exact absurd rfl h
  | cons d ds =>
      rw [ppDims, List.flatMap_cons, List.append_assoc, List.append_assoc, List.append_assoc]
      exact afterWord_of_text (x := "[".toList) rfl (by decide) (by decide) _

/-! ## Names -/

/-- What is looked up first is the name, since every key that is written has a letter. -/
theorem getName_addName {T : Type} {t : T} {a : Annotations} {n : List Char}
    (h : ∀ i ∈ a, i.getKey ≠ []) : TypeInstance.getName ⟨t, a.addName n⟩ = n := by
  have hfind : (a.addName n).find? (fun i => i.getKey = []) = some (.intention [] n) := by
    have hnone : a.find? (fun i => i.getKey = []) = none :=
      List.find?_eq_none.mpr fun i hi => by simpa using h i hi
    rw [Annotations.addName, List.find?_append, hnone]
    rfl
  rw [TypeInstance.getName, Annotations.lookup, hfind]
  rfl

theorem annotations_key {a : Annotations} {u : List Symbol} (h : IsAnnotations a u)
    (hs : ∀ x ∈ u, Scanned cls x) : ∀ i ∈ a, i.getKey ≠ [] := by
  intro i hi
  obtain ⟨v, hv, hvu⟩ := (isAnnotations_iff.mp h).exists_of_mem hi
  exact isAnnotation_key hv fun x hx => (hs x (hvu.subset hx)).ne_nil

/-! ## Types -/

theorem primToken_word {t : Terminal} {token : Nat} (h : primToken t = some token) : t.IsWord := by
  refine .inr (.inr ?_)
  cases t <;> first | decide | cases h

/-- What the grammar has in front of a name is no array. -/
theorem isType_element {t : ParsedType} {u : List Symbol} (h : IsType t u) :
    t.element = t ∧ t.bare.element = t.bare ∧ t.rewrite.isArray = false ∧
      t.rewrite.ppSuffix = [] := by
  cases h <;> exact ⟨rfl, rfl, rfl, rfl⟩

/-- **A name with what is in front of it and behind it**, if what is in front of it is scanned. -/
theorem scans_ppIdentifier {nl : LineTerminator} {indent : Nat} {t : ParsedType}
    {a : Annotations} {u : List Symbol}
    (hpre : ∀ v, IsType t.element v → (∀ x ∈ v, Scanned cls x) → ∃ v', IsType t.bare.element v' ∧
      Scans (rules cls) (AfterWord cls) (t.rewrite.ppPrefix nl indent) v')
    (h : IsTypeInstance IsType ⟨t, a⟩ u) (hs : ∀ x ∈ u, Scanned cls x) :
    ∃ u', IsTypeInstance IsType
        ⟨t.bare, Annotations.addName [] (TypeInstance.getName ⟨t, a⟩)⟩ u' ∧
      Scans (rules cls) (AfterWord cls) (t.rewrite.ppIdentifier (t.rewrite.ppPrefix nl indent)
        (TypeInstance.getName (T := DataType) ⟨t.rewrite, a⟩)) u' := by
  have hblank : ∀ (x : List Char), AfterWord cls (" ".toList ++ x) :=
    afterWord_of_text (x := " ".toList) rfl (by decide) (by decide)
  cases h with
  | @plain a t n u v hu hv =>
      -- prefix, blank, name
      obtain ⟨helem, hbare, harray, _⟩ := isType_element hv
      obtain ⟨v', hv', hsv⟩ := hpre v (helem.symm ▸ hv) fun x hx => hs x (by simp [hx])
      have hkeys := annotations_key hu fun x hx => hs x (by simp [hx])
      have hname := scans_word (hs ⟨.identifier, n⟩ (by simp)) (.inl rfl)
      rw [getName_addName hkeys, getName_addName hkeys, DataType.ppIdentifier, harray,
        if_neg Bool.false_ne_true]
      refine ⟨v' ++ [⟨.identifier, n⟩], .plain .empty (hbare ▸ hv'), ?_⟩
      have hfront := hsv.append (scans_blank fun _ => True) fun x _ => hblank x
      rw [List.append_nil] at hfront
      exact hfront.append hname fun _ _ => trivial
  | @array a e n ds u v w hu hv hw =>
      -- the same, and the dimensions behind the name
      obtain ⟨_, _, _, hsuffix⟩ := isType_element hv
      obtain ⟨hne, hw⟩ := listOf_nil_iff.mp hw
      obtain ⟨v', hv', hsv⟩ := hpre v hv fun x hx => hs x (by simp [hx])
      obtain ⟨w', hw', hsw⟩ := scans_dims hw fun x hx => hs x (by simp [hx])
      have hkeys := annotations_key hu fun x hx => hs x (by simp [hx])
      have hname := scans_word (hs ⟨.identifier, n⟩ (by simp)) (.inl rfl)
      rw [getName_addName hkeys, getName_addName hkeys, ParsedType.rewrite,
        ppIdentifier_array _ hne, hsuffix, List.append_nil]
      refine ⟨v' ++ [⟨.identifier, n⟩] ++ w', ?_, ?_⟩
      · have hi : IsTypeInstance IsType ⟨.parseArrayType e.bare ds, Annotations.addName [] n⟩
            ([] ++ v' ++ ⟨.identifier, n⟩ :: w') :=
          .array .empty hv' (listOf_nil_iff.mpr ⟨hne, hw'⟩)
        rw [List.append_assoc]
        exact hi
      · have hfront := hsv.append (scans_blank fun _ => True) fun x _ => hblank x
        rw [List.append_nil] at hfront
        have hnamed := hfront.append hname fun _ _ => trivial
        exact (hnamed.append hsw fun x _ => afterWord_dims hne x).mono fun _ _ => trivial

section Types

variable (nl : LineTerminator)

/-- A struct around its fields. -/
theorem scans_struct (indent : Nat) {fields : List (TypeInstance DataType)} {u : List Symbol}
    (h : Scans (rules cls) (fun _ => True) (ppFields nl (indent + 2) fields) u) :
    Scans (rules cls) (AfterWord cls) ((DataType.structType fields).ppPrefix nl indent)
      (⟨.struct, "struct".toList⟩ :: ⟨.lbrace, "\x7b".toList⟩ ::
        (u ++ [⟨.rbrace, "\x7d".toList⟩])) := by
  have hmark := scans_mark cls (k := ("\x7b", .lbrace)) (by decide) (by decide)
    fun _ => True
  have hclose := scans_mark cls (k := ("\x7d", .rbrace)) (by decide) (by decide)
    (AfterWord cls)
  have htext : "struct \x7b".toList = "struct".toList ++ (" ".toList ++ "\x7b".toList) := by decide
  have hblank : ∀ v, AfterWord cls ((" ".toList ++ "\x7b".toList) ++ v) := by
    intro v
    rw [List.append_assoc]
    exact afterWord_of_text (x := " ".toList) rfl (by decide) (by decide) _
  have hopen := (scans_keyword cls (k := ("struct", .struct)) (by decide)).append
    ((scans_blank fun _ => True).append hmark fun _ _ => trivial) fun v _ => hblank v
  rw [← htext] at hopen
  have hall := (((hopen.append (scans_lineTerminator nl fun _ => True) fun _ _ => trivial).append h
    fun _ _ => trivial).append (scans_blanks indent fun _ => True) fun _ _ => trivial).append hclose
      fun _ _ => trivial
  rw [List.append_nil, List.append_nil] at hall
  exact hall

/-- What ends with a semicolon and a line, behind its indentation. -/
theorem scans_statement (indent : Nat) {w : List Char} {u : List Symbol}
    (h : Scans (rules cls) (AfterWord cls) w u) :
    Scans (rules cls) (fun _ => True) (List.replicate indent ' ' ++ w ++ ";".toList ++ nl.chars)
      (u ++ [⟨.semicolon, ";".toList⟩]) := by
  have hsemi := scans_mark cls (k := (";", .semicolon)) (by decide) (by decide)
    fun _ => True
  have hall := (((scans_blanks indent fun _ => True).append h fun _ _ => trivial).append hsemi
    fun v _ => afterWord_of_text (x := ";".toList) rfl (by decide) (by decide) v).append
      (scans_lineTerminator nl fun _ => True) fun _ _ => trivial
  rw [List.append_nil] at hall
  exact hall

mutual

/-- **What is printed in front of a name** is scanned as the same type. -/
theorem scans_ppPrefix : ∀ (t : ParsedType) (indent : Nat) (u : List Symbol), IsType t.element u →
    (∀ x ∈ u, Scanned cls x) → ∃ u', IsType t.bare.element u' ∧
      Scans (rules cls) (AfterWord cls) (t.rewrite.ppPrefix nl indent) u'
  | .voidType, _, _, _, _ => ⟨_, .void, scans_keyword cls (k := ("void", .void)) (by decide)⟩
  | .primType name token, _, _, h, hs => by
      cases h with
      | @prim t _ _ ht =>
          exact ⟨_, .prim ht, scans_word (hs ⟨t, name⟩ List.mem_cons_self) (primToken_word ht)⟩
  | .userType name, _, _, h, hs => by
      cases h with
      | user => exact ⟨_, .user, scans_word (hs ⟨.identifier, name⟩ List.mem_cons_self) (.inl rfl)⟩
  | .structType fields, indent, _, h, hs => by
      cases h with
      | @struct _ u k l r hu =>
          obtain ⟨hne, hu⟩ := listOf_nil_iff.mp hu
          obtain ⟨u', hu', hsu⟩ := scans_ppFields fields (indent + 2) u hu
            fun x hx => hs x (by simp [hx])
          have hne' : bareFields fields ≠ [] := by
            cases fields with
            | nil => exact absurd rfl hne
            | cons f fields => exact List.cons_ne_nil _ _
          have htype : IsType (.structType (bareFields fields)) (⟨.struct, "struct".toList⟩ ::
              ⟨.lbrace, "\x7b".toList⟩ :: (u' ++ [⟨.rbrace, "\x7d".toList⟩])) :=
            .struct (listOf_nil_iff.mpr ⟨hne', hu'⟩)
          exact ⟨_, htype, scans_struct nl indent hsu⟩
  | .parseArrayType e ds, indent, u, h, hs => by
      have helem : e.element = e ∧ e.bare.element = e.bare ∧ _ := isType_element (t := e) h
      obtain ⟨u', hu', hsu⟩ := scans_ppPrefix e indent u (helem.1.symm ▸ h) hs
      rw [helem.2.1] at hu'
      refine ⟨u', hu', ?_⟩
      rw [ParsedType.rewrite, ppPrefix_rewriteArray]
      exact hsu

/-- The fields of a struct. -/
theorem scans_ppFields : ∀ (fields : List (TypeInstance ParsedType)) (indent : Nat)
    (u : List Symbol), Each (IsVarDecl IsType) fields u → (∀ x ∈ u, Scanned cls x) →
    ∃ u', Each (IsVarDecl IsType) (bareFields fields) u' ∧
      Scans (rules cls) (fun _ => True) (ppFields nl indent (rewriteFields fields)) u'
  | [], _, _, _, _ => ⟨[], each_nil.mpr rfl, Scans.nil _⟩
  | ⟨t, a⟩ :: fields, indent, _, h, hs => by
      obtain ⟨v, w, hv, hw, rfl⟩ := each_cons.mp h
      obtain ⟨w', hw', hsw⟩ := scans_ppFields fields indent w hw fun x hx => hs x (by simp [hx])
      cases hv with
      | @mk _ _ v c hi =>
          obtain ⟨v', hv', hsv⟩ := scans_ppIdentifier (fun v => scans_ppPrefix t indent v) hi
            fun x hx => hs x (by simp [hx])
          refine ⟨(v' ++ [⟨.semicolon, ";".toList⟩]) ++ w',
            each_cons.mpr ⟨_, w', .mk hv', hw', rfl⟩, ?_⟩
          exact ((scans_statement nl indent hsv).append hsw fun _ _ => trivial)

end

/-- A declaration behind its keyword. -/
theorem scans_declaration {k : String × Terminal} (hk : k ∈ keywords) {text : String}
    (htext : text.toList = k.1.toList ++ " ".toList) {w : List Char} {u : List Symbol}
    (h : Scans (rules cls) (AfterWord cls) w u) :
    Scans (rules cls) (fun _ => True) (text.toList ++ w ++ ";".toList ++ nl.chars)
      (⟨k.2, k.1.toList⟩ :: (u ++ [⟨.semicolon, ";".toList⟩])) := by
  have hkey := (scans_keyword cls hk).append (scans_blank fun _ => True)
    fun v _ => afterWord_of_text (x := " ".toList) rfl (by decide) (by decide) v
  rw [← htext] at hkey
  have hstatement := scans_statement nl 0 h
  have hall := hkey.append hstatement fun _ _ => trivial
  have hassoc : text.toList ++ (List.replicate 0 ' ' ++ w ++ ";".toList ++ nl.chars) =
      text.toList ++ w ++ ";".toList ++ nl.chars := by simp
  rw [hassoc] at hall
  exact hall

theorem scans_decl {d : Decl ParsedType} {u : List Symbol} (h : IsDecl IsType d u)
    (hs : ∀ x ∈ u, Scanned cls x) :
    ∃ u', IsDecl IsType (d.map (bareInstance ParsedType.bare)) u' ∧
      Scans (rules cls) (fun _ => True)
        (Decl.pp nl (d.map fun t => ⟨t.dataType.rewrite, t.annotations⟩)) u' := by
  cases h with
  | @typeDecl t u k c hi =>
      obtain ⟨t, a⟩ := t
      obtain ⟨u', hu', hsu⟩ := scans_ppIdentifier (fun v => scans_ppPrefix nl t 0 v) hi
        fun x hx => hs x (by simp [hx])
      exact ⟨_, .typeDecl hu',
        scans_declaration nl (k := ("typedef", .typedef)) (by decide) (by decide) hsu⟩
  | @sampleDecl t u k c hi =>
      obtain ⟨t, a⟩ := t
      obtain ⟨u', hu', hsu⟩ := scans_ppIdentifier (fun v => scans_ppPrefix nl t 0 v) hi
        fun x hx => hs x (by simp [hx])
      exact ⟨_, .sampleDecl hu',
        scans_declaration nl (k := ("sample", .sample)) (by decide) (by decide) hsu⟩

/-- **What is printed of a specification** is scanned as the specification without its
annotations. -/
theorem scans_pp {spec : Specification ParsedType} {u : List Symbol}
    (h : Each (IsDecl IsType) spec u) (hs : ∀ x ∈ u, Scanned cls x) :
    ∃ u', Each (IsDecl IsType) (withoutParsedAnnotations spec) u' ∧
      Scans (rules cls) (fun _ => True) (pp nl (rewrite spec)) u' := by
  induction spec generalizing u with
  | nil => exact ⟨[], each_nil.mpr rfl, Scans.nil _⟩
  | cons d spec ih =>
      obtain ⟨v, w, hv, hw, rfl⟩ := each_cons.mp h
      obtain ⟨v', hv', hsv⟩ := scans_decl nl hv fun x hx => hs x (by simp [hx])
      obtain ⟨w', hw', hsw⟩ := ih hw fun x hx => hs x (by simp [hx])
      refine ⟨v' ++ w', each_cons.mpr ⟨v', w', hv', hw', rfl⟩, ?_⟩
      rw [rewrite, List.map_cons, pp, List.flatMap_cons]
      exact hsv.append hsw fun _ _ => trivial

end Types

/-! ## Parsing what was printed -/

theorem parse_eq_some {text : List Char} {spec : Specification ParsedType} :
    parse cls text = some spec ↔ ∃ s, scan (rules cls) text = some s ∧ IsGoal spec s := by
  rw [parse, Option.bind_eq_bind, Option.bind_eq_some_iff]
  simp only [parse_iff]

/-- **The grammar is unambiguous**: the tree of an accepted text is the only one that the
productions derive its symbols from, and every text of which they derive the symbols is accepted. -/
theorem parse_eq_some_unique {text : List Char} {spec : Specification ParsedType} :
    parse cls text = some spec ↔
      ∃ s, scan (rules cls) text = some s ∧ ∀ spec', IsGoal spec' s ↔ spec' = spec := by
  rw [parse_eq_some]
  constructor
  · rintro ⟨s, hscan, hgoal⟩
    refine ⟨s, hscan, fun spec' => ⟨fun hgoal' => ?_, fun h => h ▸ hgoal⟩⟩
    -- both are what the parser finds
    rw [← parse_iff] at hgoal hgoal'
    exact Option.some.inj (hgoal'.symm.trans hgoal)
  · rintro ⟨s, hscan, honly⟩
    exact ⟨s, hscan, (honly spec).mpr rfl⟩

/-- What is printed of a parsed specification is parsed as that specification without its
annotations. -/
theorem parse_pp (nl : LineTerminator) {text : List Char} {spec : Specification ParsedType}
    (h : parse cls text = some spec) :
    parse cls (pp nl (rewrite spec)) = some (withoutParsedAnnotations spec) := by
  obtain ⟨s, hscan, hgoal⟩ := parse_eq_some.mp h
  obtain ⟨u, hu, hsu⟩ := scans_pp nl (isGoal_iff.mp hgoal) (scanned_of_scan hscan)
  exact parse_eq_some.mpr ⟨u, hsu.scan trivial, isGoal_iff.mpr hu⟩

/-- **Pretty-printing is faithful.** The text that is printed of a specification which was parsed
and rewritten is parsed and rewritten to that specification, annotations aside. -/
theorem pp_faithful (cls : CharClasses) (nl : LineTerminator) (text : List Char)
    (spec : Specification ParsedType) (h : parse cls text = some spec) :
    (parse cls (pp nl (rewrite spec))).map rewrite = some (withoutAnnotations (rewrite spec)) := by
  rw [parse_pp nl h, Option.map_some, rewrite_withoutAnnotations]

/-- A struct with an intention and two pairs of brackets. -/
def structText : List Char := "sample(k:v)struct\x7bint a[_][2,_];\x7ds;".toList

/-- What it is parsed as. -/
def structSpec : Specification ParsedType :=
  [.sampleDecl ⟨.structType [⟨.parseArrayType (.primType "int".toList 0x23)
      [[.variableSize], [.integerLiteral ['2'], .variableSize]], [.intention [] ['a']]⟩],
    [.intention ['k'] ['v'], .intention [] ['s']]⟩]

theorem scan_structText : scan (rules ascii) structText = some
    [⟨.sample, "sample".toList⟩, ⟨.lparen, ['(']⟩, ⟨.identifier, ['k']⟩, ⟨.colon, [':']⟩,
     ⟨.identifier, ['v']⟩, ⟨.rparen, [')']⟩, ⟨.struct, "struct".toList⟩, ⟨.lbrace, ['{']⟩,
     ⟨.int, "int".toList⟩, ⟨.identifier, ['a']⟩, ⟨.lbrack, ['[']⟩, ⟨.underscore, ['_']⟩,
     ⟨.rbrack, [']']⟩, ⟨.lbrack, ['[']⟩, ⟨.integerLiteral, ['2']⟩, ⟨.comma, [',']⟩,
     ⟨.underscore, ['_']⟩, ⟨.rbrack, [']']⟩, ⟨.semicolon, [';']⟩, ⟨.rbrace, ['}']⟩,
     ⟨.identifier, ['s']⟩, ⟨.semicolon, [';']⟩] := by
  decide +kernel

theorem parse_structText : parse ascii structText = some structSpec := by
  rw [parse, scan_structText]
  rfl

theorem pp_faithful_struct : parse ascii structText = some structSpec ∧
    (parse ascii (pp .lf (rewrite structSpec))).map rewrite =
      some (withoutAnnotations (rewrite structSpec)) :=
  ⟨parse_structText, pp_faithful ascii .lf structText structSpec parse_structText⟩

example : pp .lf (rewrite structSpec) =
    "sample struct \x7b\n  int a[_][2, _];\n\x7d s;\n".toList := by decide

end LabComm.Compiler.Source
