import LabComm.Library.Phrases
import LabComm.Compiler.Scanner

set_option autoImplicit false

/-! # The parser of specifications

The abstract grammar of a specification, the productions of the concrete one, and the parser they
stand for. The parser looks at the next symbol only, and it accepts just the symbols that the
productions derive (`parse_iff`).

A name is kept among the annotations, as an intention with the empty key. Texts are lists of
characters; `getBytes` and `new String` are each other's inverse on what has been scanned.
-/

namespace LabComm.Compiler.Source

open Library

/-! ## The abstract grammar -/

/-- `Exp` -/
inductive Exp where
  | integerLiteral (value : List Char)
  | variableSize
  deriving DecidableEq

/-- `Dim` -/
abbrev Dim := List Exp

/-- `Annotation` -/
inductive Annotation where
  | intention (key value : List Char)
  | docString (value : List Char)
  deriving DecidableEq

/-- `getKey` -/
def Annotation.getKey : Annotation → List Char
  | intention key _ => key
  | docString _ => "DOCSTRING".toList

/-- `getValue` -/
def Annotation.getValue : Annotation → List Char
  | intention _ value => value
  | docString value => value

/-- `Annotations` -/
abbrev Annotations := List Annotation

/-- `Annotations.lookup` -/
def Annotations.lookup (a : Annotations) (key : List Char) : Option (List Char) :=
  (a.find? fun i => i.getKey = key).map Annotation.getValue

/-- `Annotations.addName` -/
def Annotations.addName (a : Annotations) (n : List Char) : Annotations := a ++ [.intention [] n]

/-- `TypeInstance`, of which a `Field` is one. -/
structure TypeInstance (T : Type) where
  dataType : T
  annotations : Annotations

/-- `getName`. Every type instance is made with a name. -/
def TypeInstance.getName {T : Type} (t : TypeInstance T) : List Char :=
  (t.annotations.lookup []).getD []

/-- `Decl` -/
inductive Decl (T : Type) where
  | typeDecl (t : TypeInstance T)
  | sampleDecl (t : TypeInstance T)

/-- `Specification` -/
abbrev Specification (T : Type) := List (Decl T)

/-- A `DataType` as it is parsed. -/
inductive ParsedType where
  | voidType
  | primType (name : List Char) (token : Nat)
  | userType (name : List Char)
  | structType (fields : List (TypeInstance ParsedType))
  | parseArrayType (dataType : ParsedType) (dims : List Dim)

/-! ## The productions -/

/-- The symbol of a terminal. -/
def IsTerminal (t : Terminal) (u : List Symbol) : Prop := ∃ v, u = [⟨t, v⟩]

/-- `annotation`, `intention` and `docstring` -/
inductive IsAnnotation : Annotation → List Symbol → Prop
  | intention {t : Terminal} {l k c v r : List Char} :
      (t = .identifier ∨ t = .quotedString) →
      IsAnnotation (.intention k v)
        [⟨.lparen, l⟩, ⟨.identifier, k⟩, ⟨.colon, c⟩, ⟨t, v⟩, ⟨.rparen, r⟩]
  | docString {s : List Char} : IsAnnotation (.docString s.tail.dropLast) [⟨.quotedString, s⟩]

/-- `annotations` and `annotation_list` -/
inductive IsAnnotations : Annotations → List Symbol → Prop
  | empty : IsAnnotations [] []
  | list {a : Annotations} {u : List Symbol} :
      ListOf (· = []) IsAnnotation a u → IsAnnotations a u

/-- `exp` -/
inductive IsExp : Exp → List Symbol → Prop
  | integerLiteral {v : List Char} : IsExp (.integerLiteral v) [⟨.integerLiteral, v⟩]
  | underscore {v : List Char} : IsExp .variableSize [⟨.underscore, v⟩]

/-- `dim` and `exp_list` -/
inductive IsDim : Dim → List Symbol → Prop
  | mk {e : Dim} {u : List Symbol} {l r : List Char} :
      ListOf (IsTerminal .comma) IsExp e u → IsDim e (⟨.lbrack, l⟩ :: (u ++ [⟨.rbrack, r⟩]))

/-- `type_instance`, where `T` is `type` -/
inductive IsTypeInstance (T : ParsedType → List Symbol → Prop) :
    TypeInstance ParsedType → List Symbol → Prop
  | plain {a : Annotations} {t : ParsedType} {n : List Char} {u v : List Symbol} :
      IsAnnotations a u → T t v → IsTypeInstance T ⟨t, a.addName n⟩ (u ++ v ++ [⟨.identifier, n⟩])
  | array {a : Annotations} {t : ParsedType} {n : List Char} {d : List Dim} {u v w : List Symbol} :
      IsAnnotations a u → T t v → ListOf (· = []) IsDim d w →
      IsTypeInstance T ⟨.parseArrayType t d, a.addName n⟩ (u ++ v ++ ⟨.identifier, n⟩ :: w)

/-- `var_decl` -/
inductive IsVarDecl (T : ParsedType → List Symbol → Prop) :
    TypeInstance ParsedType → List Symbol → Prop
  | mk {t : ParsedType} {a : Annotations} {u : List Symbol} {s : List Char} :
      IsTypeInstance T ⟨t, a⟩ u → IsVarDecl T ⟨t, a⟩ (u ++ [⟨.semicolon, s⟩])

/-- The tokens of `prim_type`. -/
def primToken : Terminal → Option Nat
  | .boolean => some 0x20
  | .byte => some 0x21
  | .short => some 0x22
  | .int => some 0x23
  | .long => some 0x24
  | .float => some 0x25
  | .double => some 0x26
  | .string => some 0x27
  | .sample => some 0x28
  | _ => none

/-- `type`, `prim_type`, `user_type`, `struct_type` and `void_type` -/
inductive IsType : ParsedType → List Symbol → Prop
  | prim {t : Terminal} {v : List Char} {token : Nat} :
      primToken t = some token → IsType (.primType v token) [⟨t, v⟩]
  | user {v : List Char} : IsType (.userType v) [⟨.identifier, v⟩]
  | struct {fields : List (TypeInstance ParsedType)} {u : List Symbol} {s l r : List Char} :
      ListOf (· = []) (IsVarDecl IsType) fields u →
      IsType (.structType fields) (⟨.struct, s⟩ :: ⟨.lbrace, l⟩ :: (u ++ [⟨.rbrace, r⟩]))
  | void {v : List Char} : IsType .voidType [⟨.void, v⟩]

/-- `decl`, `type_decl` and `sample_decl` -/
inductive IsDecl (T : ParsedType → List Symbol → Prop) : Decl ParsedType → List Symbol → Prop
  | typeDecl {t : TypeInstance ParsedType} {u : List Symbol} {k s : List Char} :
      IsTypeInstance T t u → IsDecl T (.typeDecl t) (⟨.typedef, k⟩ :: (u ++ [⟨.semicolon, s⟩]))
  | sampleDecl {t : TypeInstance ParsedType} {u : List Symbol} {k s : List Char} :
      IsTypeInstance T t u → IsDecl T (.sampleDecl t) (⟨.sample, k⟩ :: (u ++ [⟨.semicolon, s⟩]))

/-- `goal` and `decl_list` -/
inductive IsGoal : Specification ParsedType → List Symbol → Prop
  | empty : IsGoal [] []
  | list {l : Specification ParsedType} {u : List Symbol} :
      ListOf (· = []) (IsDecl IsType) l u → IsGoal l u

/-! ## The parser -/

/-- A terminal, and its text. -/
def terminal (t : Terminal) : Phrase Symbol (List Char) := fun s =>
  match s with
  | [] => none
  | x :: rest => if x.id = t then some (x.value, rest) else none

/-- No production. -/
def reject {α : Type} : Phrase Symbol α := fun _ => none

/-- The next terminal. -/
def next : Phrase Symbol (Option Terminal) := do
  let x ← peek
  pure (x.map Lexeme.id)

/-- `stringliteral` -/
def stringliteral : Phrase Symbol (List Char) := do
  match ← next with
  | some .identifier => terminal .identifier
  | _ => terminal .quotedString

/-- `annotation` -/
def annotation : Phrase Symbol Annotation := do
  match ← next with
  | some .lparen => do
      let _ ← terminal .lparen
      let k ← terminal .identifier
      let _ ← terminal .colon
      let v ← stringliteral
      let _ ← terminal .rparen
      pure (.intention k v)
  | _ => do
      let s ← terminal .quotedString
      pure (.docString s.tail.dropLast)

/-- What an annotation starts with. -/
def annotationStart (x : Symbol) : Bool := x.id == .lparen || x.id == .quotedString

/-- `annotations` -/
def annotations : Phrase Symbol Annotations := whileNext annotationStart annotation

/-- `exp` -/
def exp : Phrase Symbol Exp := do
  match ← next with
  | some .integerLiteral => do
      let v ← terminal .integerLiteral
      pure (.integerLiteral v)
  | _ => do
      let _ ← terminal .underscore
      pure .variableSize

/-- What goes on after a comma. -/
def moreExp : Phrase Symbol Exp := do
  let _ ← terminal .comma
  exp

/-- `dim` -/
def dim : Phrase Symbol Dim := do
  let _ ← terminal .lbrack
  let e ← exp
  let es ← whileNext (fun x => x.id == .comma) moreExp
  let _ ← terminal .rbrack
  pure (e :: es)

/-- `type_instance` -/
def typeInstance (type : Phrase Symbol ParsedType) : Phrase Symbol (TypeInstance ParsedType) := do
  let a ← annotations
  let t ← type
  let n ← terminal .identifier
  let d ← whileNext (fun x => x.id == .lbrack) dim
  pure ⟨if d = [] then t else .parseArrayType t d, a.addName n⟩

/-- `var_decl` -/
def varDecl (type : Phrase Symbol ParsedType) : Phrase Symbol (TypeInstance ParsedType) := do
  let t ← typeInstance type
  let _ ← terminal .semicolon
  pure t

/-- `var_decl_list` -/
def varDeclList (type : Phrase Symbol ParsedType) :
    Phrase Symbol (List (TypeInstance ParsedType)) := do
  let d ← varDecl type
  let ds ← whileNext (fun x => x.id != .rbrace) (varDecl type)
  pure (d :: ds)

/-- `type`, with structs in at most `n` levels. -/
def type : Nat → Phrase Symbol ParsedType
  | 0 => reject
  | n + 1 => do
      match ← next with
      | some .identifier => do
          let v ← terminal .identifier
          pure (.userType v)
      | some .struct => do
          let _ ← terminal .struct
          let _ ← terminal .lbrace
          let fields ← varDeclList (type n)
          let _ ← terminal .rbrace
          pure (.structType fields)
      | some .void => do
          let _ ← terminal .void
          pure .voidType
      | some t =>
          match primToken t with
          | some token => do
              let v ← terminal t
              pure (.primType v token)
          | none => reject
      | none => reject

/-- `decl` -/
def decl (type : Phrase Symbol ParsedType) : Phrase Symbol (Decl ParsedType) := do
  match ← next with
  | some .typedef => do
      let _ ← terminal .typedef
      let t ← typeInstance type
      let _ ← terminal .semicolon
      pure (.typeDecl t)
  | _ => do
      let _ ← terminal .sample
      let t ← typeInstance type
      let _ ← terminal .semicolon
      pure (.sampleDecl t)

/-- `goal`. There are fewer levels than symbols. -/
def parseSymbols (s : List Symbol) : Option (Specification ParsedType) :=
  match (whileNext (fun _ => true) (decl (type s.length))).run s with
  | some (spec, []) => some spec
  | _ => none

/-- The parser on a text. -/
def parse (cls : CharClasses) (text : List Char) : Option (Specification ParsedType) := do
  let s ← scan (rules cls) text
  parseSymbols s

/-! ## The parser recognizes the productions -/

theorem phrase_terminal {t : Terminal} {s rest : List Symbol} {v : List Char} :
    (terminal t).run s = some (v, rest) ↔ s = ⟨t, v⟩ :: rest := by
  cases s with
  | nil => exact iff_of_false (fun h => nomatch h) (fun h => nomatch h)
  | cons x s =>
      show (if x.id = t then some (x.value, s) else none) = some (v, rest) ↔ _
      obtain ⟨id, value⟩ := x
      split
      · rename_i h
        rw [Option.some.injEq, Prod.mk.injEq, List.cons.injEq, Lexeme.mk.injEq]
        exact ⟨fun hv => ⟨⟨h, hv.1⟩, hv.2⟩, fun hv => ⟨hv.1.2, hv.2⟩⟩
      · rename_i h
        refine iff_of_false (fun hv => nomatch hv) fun hv => ?_
        exact h (Lexeme.mk.inj (List.cons.inj hv).1).1

theorem phrase_next {α : Type} {f : Option Terminal → Phrase Symbol α} {s : List Symbol} :
    (next >>= f).run s = (f (s.head?.map Lexeme.id)).run s := rfl

theorem phrase_reject {α : Type} {s rest : List Symbol} {a : α} :
    (reject : Phrase Symbol α).run s = some (a, rest) ↔ False :=
  iff_of_false (fun h => nomatch h) id

theorem phrase_stringliteral {s rest : List Symbol} {v : List Char} :
    stringliteral.run s = some (v, rest) ↔
      ∃ t, (t = .identifier ∨ t = .quotedString) ∧ s = ⟨t, v⟩ :: rest := by
  rw [stringliteral, phrase_next]
  constructor
  · split
    · exact fun h => ⟨_, .inl rfl, phrase_terminal.mp h⟩
    · exact fun h => ⟨_, .inr rfl, phrase_terminal.mp h⟩
  · rintro ⟨t, rfl | rfl, rfl⟩
    · exact phrase_terminal.mpr rfl
    · exact phrase_terminal.mpr rfl

theorem recognizes_annotation : Recognizes annotation IsAnnotation fun _ => True := by
  intro s a rest
  rw [ annotation, phrase_next]
  constructor
  · split
    · simp only [phrase_bind, phrase_terminal, phrase_stringliteral, phrase_pure]
      rintro ⟨l, _, rfl, k, _, rfl, c, _, rfl, v, _, ⟨t, ht, rfl⟩, r, _, rfl, rfl, rfl⟩
      exact ⟨_, rfl, .intention ht, trivial⟩
    · simp only [phrase_bind, phrase_terminal, phrase_pure]
      rintro ⟨v, _, rfl, rfl, rfl⟩
      exact ⟨_, rfl, .docString, trivial⟩
  · rintro ⟨u, rfl, hu, _⟩
    cases hu with
    | intention ht =>
        simp only [List.cons_append, List.head?_cons, Option.map_some, phrase_bind, phrase_terminal,
          phrase_stringliteral, phrase_pure]
        exact ⟨_, _, rfl, _, _, rfl, _, _, rfl, _, _, ⟨_, ht, rfl⟩, _, _, rfl, rfl, rfl⟩
    | docString =>
        simp only [List.cons_append, List.head?_cons, Option.map_some, phrase_bind, phrase_terminal,
          phrase_pure]
        exact ⟨_, _, rfl, rfl, rfl⟩

theorem isAnnotation_starts {a : Annotation} {u : List Symbol} (h : IsAnnotation a u) :
    Starts annotationStart u := by
  cases h with
  | intention _ => exact starts_cons.mpr rfl
  | docString => exact starts_cons.mpr rfl

theorem isAnnotations_iff {a : Annotations} {u : List Symbol} :
    IsAnnotations a u ↔ Each IsAnnotation a u := by
  constructor
  · intro h
    cases h with
    | empty => exact each_nil.mpr rfl
    | list h => exact (listOf_nil_iff.mp h).2
  · intro h
    cases a with
    | nil =>
        rw [each_nil.mp h]
        exact .empty
    | cons i a => exact .list (listOf_nil_iff.mpr ⟨List.cons_ne_nil i a, h⟩)

theorem recognizes_annotations :
    Recognizes annotations IsAnnotations fun rest => ¬ Starts annotationStart rest := by
  have h := recognizes_whileNext recognizes_annotation (fun _ _ => isAnnotation_starts)
    (fun _ _ => trivial) fun _ _ => trivial
  intro s a rest
  simp only [isAnnotations_iff]
  exact h s a rest

theorem recognizes_exp : Recognizes exp IsExp fun _ => True := by
  intro s e rest
  rw [exp, phrase_next]
  constructor
  · split
    all_goals
      simp only [phrase_bind, phrase_terminal, phrase_pure]
      rintro ⟨v, _, rfl, rfl, rfl⟩
    · exact ⟨_, rfl, .integerLiteral, trivial⟩
    · exact ⟨_, rfl, .underscore, trivial⟩
  · rintro ⟨u, rfl, hu, _⟩
    cases hu with
    | integerLiteral =>
        simp only [List.cons_append, List.head?_cons, Option.map_some, phrase_bind, phrase_terminal,
          phrase_pure]
        exact ⟨_, _, rfl, rfl, rfl⟩
    | underscore =>
        simp only [List.cons_append, List.head?_cons, Option.map_some, phrase_bind, phrase_terminal,
          phrase_pure]
        exact ⟨_, _, rfl, trivial, rfl⟩

theorem recognizes_moreExp :
    Recognizes moreExp (Separated (IsTerminal .comma) IsExp) fun _ => True := by
  intro s e rest
  rw [moreExp]
  simp only [phrase_bind, phrase_terminal, recognizes_exp _ _ _]
  constructor
  · rintro ⟨c, _, rfl, u, rfl, hu, _⟩
    exact ⟨_, rfl, ⟨_, u, ⟨c, rfl⟩, hu, rfl⟩, trivial⟩
  · rintro ⟨_, rfl, ⟨_, u, ⟨c, rfl⟩, hu, rfl⟩, _⟩
    exact ⟨c, _, rfl, u, rfl, hu, trivial⟩

theorem recognizes_moreExps : Recognizes (whileNext (fun x => x.id == .comma) moreExp)
    (Each (Separated (IsTerminal .comma) IsExp))
    fun rest => ¬ Starts (fun x : Symbol => x.id == .comma) rest := by
  refine recognizes_whileNext recognizes_moreExp ?_ (fun _ _ => trivial) fun _ _ => trivial
  rintro e _ ⟨_, v, ⟨c, rfl⟩, _, rfl⟩
  exact starts_cons.mpr rfl

theorem recognizes_dim : Recognizes dim IsDim fun _ => True := by
  intro s d rest
  rw [dim]
  simp only [phrase_bind, phrase_terminal, phrase_pure, recognizes_exp _ _ _,
    recognizes_moreExps _ _ _]
  constructor
  · rintro ⟨l, _, rfl, e, _, ⟨u, rfl, hu, _⟩, es, _, ⟨v, rfl, hv, _⟩, r, _, rfl, rfl, rfl⟩
    refine ⟨⟨.lbrack, l⟩ :: ((u ++ v) ++ [⟨.rbrack, r⟩]), by simp, .mk ?_, trivial⟩
    exact listOf_iff.mpr ⟨e, es, u, v, rfl, hu, hv, rfl⟩
  · rintro ⟨_, rfl, hd, _⟩
    cases hd with
    | @mk u l r hu =>
        obtain ⟨e, es, v, w, rfl, hv, hw, rfl⟩ := listOf_iff.mp hu
        refine ⟨l, v ++ (w ++ ⟨.rbrack, r⟩ :: rest), by simp, e, _, ⟨v, rfl, hv, trivial⟩, es, _,
          ⟨w, rfl, hw, not_starts_cons rfl⟩, r, rest, rfl, rfl, rfl⟩

theorem isDim_starts {d : Dim} {u : List Symbol} (h : IsDim d u) :
    Starts (fun x : Symbol => x.id == .lbrack) u := by
  cases h with
  | mk _ => exact starts_cons.mpr rfl

theorem recognizes_dims : Recognizes (whileNext (fun x => x.id == .lbrack) dim) (Each IsDim)
    fun rest => ¬ Starts (fun x : Symbol => x.id == .lbrack) rest :=
  recognizes_whileNext recognizes_dim (fun _ _ => isDim_starts) (fun _ _ => trivial)
    fun _ _ => trivial

/-- What a type starts with. -/
def typeStart (x : Symbol) : Bool := !annotationStart x && x.id != .rbrace

section TypeInstances

variable {p : Phrase Symbol ParsedType} {T : ParsedType → List Symbol → Prop}
  (hp : Recognizes p T fun _ => True) (hT : ∀ t u, T t u → Starts typeStart u)

include hT

/-- What starts with a type does not go on with an annotation. -/
theorem not_annotation_of_type {t : ParsedType} {u : List Symbol} (h : T t u) (v : List Symbol) :
    ¬ Starts annotationStart (u ++ v) := by
  obtain ⟨x, w, rfl, hx⟩ := hT t u h
  rw [List.cons_append, starts_cons]
  rw [typeStart, Bool.and_eq_true, Bool.not_eq_true'] at hx
  rw [hx.1]
  decide

include hp

theorem recognizes_typeInstance : Recognizes (typeInstance p) (IsTypeInstance T)
    fun rest => ¬ Starts (fun x : Symbol => x.id == .lbrack) rest := by
  intro s i rest
  rw [typeInstance]
  simp only [phrase_bind, phrase_terminal, phrase_pure, recognizes_annotations _ _ _, hp _ _ _,
    recognizes_dims _ _ _]
  constructor
  · rintro ⟨a, _, ⟨u, rfl, hu, _⟩, t, _, ⟨v, rfl, hv, _⟩, n, _, rfl, d, _, ⟨w, rfl, hw, hrest⟩, rfl,
      rfl⟩
    cases d with
    | nil =>
        rw [each_nil.mp hw]
        have hi : IsTypeInstance T ⟨t, a.addName n⟩ (u ++ v ++ [⟨.identifier, n⟩]) := .plain hu hv
        exact ⟨_, by simp, hi, hrest⟩
    | cons e d =>
        have hd : ListOf (· = []) IsDim (e :: d) w :=
          listOf_nil_iff.mpr ⟨List.cons_ne_nil e d, hw⟩
        exact ⟨u ++ v ++ ⟨.identifier, n⟩ :: w, by simp, .array hu hv hd, hrest⟩
  · rintro ⟨_, rfl, hi, hrest⟩
    cases hi with
    | @plain a t n u v hu hv =>
        refine ⟨a, v ++ ⟨.identifier, n⟩ :: rest, ⟨u, by simp, hu, not_annotation_of_type hT hv _⟩,
          t, _, ⟨v, rfl, hv, trivial⟩, n, _, rfl, [], rest, ⟨[], rfl, each_nil.mpr rfl, hrest⟩, ?_,
          rfl⟩
        rw [if_pos rfl]
    | @array a t n d u v w hu hv hw =>
        obtain ⟨hne, hw'⟩ := listOf_nil_iff.mp hw
        refine ⟨a, v ++ ⟨.identifier, n⟩ :: (w ++ rest),
          ⟨u, by simp, hu, not_annotation_of_type hT hv _⟩, t, _, ⟨v, rfl, hv, trivial⟩, n, _, rfl,
          d, rest, ⟨w, rfl, hw', hrest⟩, ?_, rfl⟩
        rw [if_neg hne]

theorem recognizes_varDecl : Recognizes (varDecl p) (IsVarDecl T) fun _ => True := by
  intro s i rest
  rw [varDecl]
  simp only [phrase_bind, phrase_terminal, phrase_pure, recognizes_typeInstance hp hT _ _ _]
  constructor
  · rintro ⟨⟨t, a⟩, _, ⟨u, rfl, hu, _⟩, c, _, rfl, rfl, rfl⟩
    exact ⟨u ++ [⟨.semicolon, c⟩], by simp, .mk hu, trivial⟩
  · rintro ⟨_, rfl, hi, _⟩
    cases hi with
    | @mk t a u c hu =>
        exact ⟨⟨t, a⟩, ⟨.semicolon, c⟩ :: rest, ⟨u, by simp, hu, not_starts_cons rfl⟩, c, rest, rfl,
          rfl, rfl⟩

omit hp

theorem isTypeInstance_starts {i : TypeInstance ParsedType} {u : List Symbol}
    (h : IsTypeInstance T i u) : Starts (fun x : Symbol => x.id != .rbrace) u := by
  have hfront : ∀ {a : Annotations} {t : ParsedType} {u v : List Symbol}, IsAnnotations a u →
      T t v → Starts (fun x : Symbol => x.id != .rbrace) (u ++ v) := by
    intro a t u v hu hv
    rw [isAnnotations_iff] at hu
    cases a with
    | nil =>
        rw [each_nil.mp hu]
        obtain ⟨x, w, rfl, hx⟩ := hT t v hv
        rw [typeStart, Bool.and_eq_true] at hx
        exact starts_cons.mpr hx.2
    | cons i a =>
        obtain ⟨u1, u2, hi, _, rfl⟩ := each_cons.mp hu
        obtain ⟨x, w, rfl, hx⟩ := isAnnotation_starts hi
        rw [annotationStart, Bool.or_eq_true, beq_iff_eq, beq_iff_eq] at hx
        refine starts_cons.mpr ?_
        rcases hx with hx | hx <;> rw [hx] <;> rfl
  cases h with
  | plain hu hv => exact (hfront hu hv).append _
  | array hu hv _ => exact (hfront hu hv).append _

theorem isVarDecl_starts {i : TypeInstance ParsedType} {u : List Symbol} (h : IsVarDecl T i u) :
    Starts (fun x : Symbol => x.id != .rbrace) u := by
  cases h with
  | mk hi => exact (isTypeInstance_starts hT hi).append _

include hp

theorem recognizes_varDeclList : Recognizes (varDeclList p) (ListOf (· = []) (IsVarDecl T))
    fun rest => ¬ Starts (fun x : Symbol => x.id != .rbrace) rest := by
  have hmore := recognizes_whileNext (recognizes_varDecl hp hT)
    (fun _ _ => isVarDecl_starts hT) (fun _ _ => trivial) fun _ _ => trivial
  intro s l rest
  rw [varDeclList]
  simp only [phrase_bind, phrase_pure, recognizes_varDecl hp hT _ _ _, hmore _ _ _, listOf_nil_iff]
  constructor
  · rintro ⟨d, _, ⟨u, rfl, hu, _⟩, ds, _, ⟨v, rfl, hv, hrest⟩, rfl, rfl⟩
    exact ⟨u ++ v, by simp, ⟨List.cons_ne_nil d ds, each_cons.mpr ⟨u, v, hu, hv, rfl⟩⟩, hrest⟩
  · rintro ⟨_, rfl, ⟨hne, hl⟩, hrest⟩
    cases l with
    | nil => exact absurd rfl hne
    | cons d ds =>
        obtain ⟨u, v, hu, hv, rfl⟩ := each_cons.mp hl
        exact ⟨d, v ++ rest, ⟨u, by simp, hu, trivial⟩, ds, rest, ⟨v, rfl, hv, hrest⟩, rfl, rfl⟩

theorem recognizes_decl : Recognizes (decl p) (IsDecl T) fun _ => True := by
  intro s i rest
  rw [decl, phrase_next]
  constructor
  · split
    all_goals
      simp only [phrase_bind, phrase_terminal, phrase_pure, recognizes_typeInstance hp hT _ _ _]
      rintro ⟨k, _, rfl, t, _, ⟨u, rfl, hu, _⟩, c, _, rfl, rfl, rfl⟩
    · exact ⟨⟨.typedef, k⟩ :: (u ++ [⟨.semicolon, c⟩]), by simp, .typeDecl hu, trivial⟩
    · exact ⟨⟨.sample, k⟩ :: (u ++ [⟨.semicolon, c⟩]), by simp, .sampleDecl hu, trivial⟩
  · rintro ⟨_, rfl, hi, _⟩
    cases hi with
    | @typeDecl t u k c hu =>
        simp only [List.cons_append, List.head?_cons, Option.map_some, phrase_bind, phrase_terminal,
          phrase_pure, recognizes_typeInstance hp hT _ _ _]
        exact ⟨k, _, rfl, t, _, ⟨u, by simp, hu, not_starts_cons rfl⟩, c, rest, rfl, rfl, rfl⟩
    | @sampleDecl t u k c hu =>
        simp only [List.cons_append, List.head?_cons, Option.map_some, phrase_bind, phrase_terminal,
          phrase_pure, recognizes_typeInstance hp hT _ _ _]
        exact ⟨k, _, rfl, t, _, ⟨u, by simp, hu, not_starts_cons rfl⟩, c, rest, rfl, rfl, rfl⟩

end TypeInstances

/-! ## Levels -/

mutual

/-- The levels of structs, and one. -/
def ParsedType.depth : ParsedType → Nat
  | .voidType => 1
  | .primType _ _ => 1
  | .userType _ => 1
  | .structType fields => fieldsDepth fields + 1
  | .parseArrayType t _ => t.depth

/-- The most levels of a field. -/
def fieldsDepth : List (TypeInstance ParsedType) → Nat
  | [] => 0
  | ⟨t, _⟩ :: fields => max t.depth (fieldsDepth fields)

end

theorem fieldsDepth_le {fields : List (TypeInstance ParsedType)} {n : Nat} :
    fieldsDepth fields ≤ n ↔ ∀ f ∈ fields, f.dataType.depth ≤ n := by
  induction fields with
  | nil => simp [fieldsDepth]
  | cons f fields ih => rw [fieldsDepth, max_le_iff, ih, List.forall_mem_cons]

/-- A type with at most `n` levels. -/
def IsTypeAt (n : Nat) (t : ParsedType) (u : List Symbol) : Prop := IsType t u ∧ t.depth ≤ n

theorem isTypeInstance_at {n : Nat} {i : TypeInstance ParsedType} {u : List Symbol} :
    IsTypeInstance (IsTypeAt n) i u ↔ IsTypeInstance IsType i u ∧ i.dataType.depth ≤ n := by
  constructor
  · intro h
    cases h with
    | plain hu hv => exact ⟨.plain hu hv.1, hv.2⟩
    | array hu hv hw => exact ⟨.array hu hv.1 hw, hv.2⟩
  · rintro ⟨h, hdepth⟩
    cases h with
    | plain hu hv => exact .plain hu ⟨hv, hdepth⟩
    | array hu hv hw => exact .array hu ⟨hv, hdepth⟩ hw

theorem isVarDecl_at {n : Nat} {i : TypeInstance ParsedType} {u : List Symbol} :
    IsVarDecl (IsTypeAt n) i u ↔ IsVarDecl IsType i u ∧ i.dataType.depth ≤ n := by
  constructor
  · intro h
    cases h with
    | mk h => exact ⟨.mk (isTypeInstance_at.mp h).1, (isTypeInstance_at.mp h).2⟩
  · rintro ⟨h, hdepth⟩
    cases h with
    | mk h => exact .mk (isTypeInstance_at.mpr ⟨h, hdepth⟩)

theorem isVarDecls_at {n : Nat} {fields : List (TypeInstance ParsedType)} {u : List Symbol} :
    ListOf (· = []) (IsVarDecl (IsTypeAt n)) fields u ↔
      ListOf (· = []) (IsVarDecl IsType) fields u ∧ fieldsDepth fields ≤ n := by
  have hat : IsVarDecl (IsTypeAt n) = fun i u => IsVarDecl IsType i u ∧ i.dataType.depth ≤ n := by
    funext i u
    exact propext isVarDecl_at
  have heach : Each (fun i v => IsVarDecl IsType i v ∧ i.dataType.depth ≤ n) fields u ↔
      Each (IsVarDecl IsType) fields u ∧ ∀ i ∈ fields, i.dataType.depth ≤ n := each_and
  rw [listOf_nil_iff, listOf_nil_iff, hat, heach, and_assoc, fieldsDepth_le]

theorem isType_starts {t : ParsedType} {u : List Symbol} (h : IsType t u) : Starts typeStart u := by
  cases h with
  | @prim t _ _ ht =>
      refine starts_cons.mpr ?_
      cases t <;> first | rfl | cases ht
  | user => exact starts_cons.mpr rfl
  | struct _ => exact starts_cons.mpr rfl
  | void => exact starts_cons.mpr rfl

/-- **The types of at most `n` levels.** -/
theorem recognizes_type (n : Nat) : Recognizes (type n) (IsTypeAt n) fun _ => True := by
  induction n with
  | zero =>
      intro s t rest
      rw [type, phrase_reject, false_iff]
      rintro ⟨u, rfl, ⟨h, hdepth⟩, _⟩
      cases h <;> cases hdepth
  | succ n ih =>
      have hlist := recognizes_varDeclList ih fun _ _ h => isType_starts h.1
      intro s t rest
      rw [type, phrase_next]
      constructor
      · -- the first symbol decides, as in the source
        split
        · simp only [phrase_bind, phrase_terminal, phrase_pure]
          rintro ⟨v, _, rfl, rfl, rfl⟩
          exact ⟨_, rfl, ⟨.user, Nat.le_add_left 1 n⟩, trivial⟩
        · simp only [phrase_bind, phrase_terminal, phrase_pure, hlist _ _ _, isVarDecls_at]
          rintro ⟨k, _, rfl, l, _, rfl, fields, _, ⟨u, rfl, ⟨hu, hdepth⟩, _⟩, r, _, rfl, rfl, rfl⟩
          refine ⟨⟨.struct, k⟩ :: ⟨.lbrace, l⟩ :: (u ++ [⟨.rbrace, r⟩]), by simp,
            ⟨.struct hu, ?_⟩, trivial⟩
          exact Nat.succ_le_succ hdepth
        · simp only [phrase_bind, phrase_terminal, phrase_pure]
          rintro ⟨v, _, rfl, rfl, rfl⟩
          exact ⟨_, rfl, ⟨.void, Nat.le_add_left 1 n⟩, trivial⟩
        · split
          · rename_i token htoken
            simp only [phrase_bind, phrase_terminal, phrase_pure]
            rintro ⟨v, _, rfl, rfl, rfl⟩
            exact ⟨_, rfl, ⟨.prim htoken, Nat.le_add_left 1 n⟩, trivial⟩
          · rw [phrase_reject]
            exact False.elim
        · rw [phrase_reject]
          exact False.elim
      · rintro ⟨u, rfl, ⟨h, hdepth⟩, _⟩
        -- each rule of the grammar is the branch of its first symbol
        cases h with
        | user =>
            simp only [List.cons_append, List.head?_cons, Option.map_some, phrase_bind,
              phrase_terminal, phrase_pure]
            exact ⟨_, _, rfl, rfl, rfl⟩
        | @struct fields u k l r hu =>
            simp only [List.cons_append, List.head?_cons, Option.map_some, phrase_bind,
              phrase_terminal, phrase_pure, hlist _ _ _, isVarDecls_at]
            have hdepth' : fieldsDepth fields ≤ n := Nat.le_of_succ_le_succ hdepth
            exact ⟨k, _, rfl, l, _, rfl, fields, ⟨.rbrace, r⟩ :: rest,
              ⟨u, by simp, ⟨hu, hdepth'⟩, not_starts_cons rfl⟩, r, rest, rfl, rfl, rfl⟩
        | void =>
            simp only [List.cons_append, List.head?_cons, Option.map_some, phrase_bind,
              phrase_terminal, phrase_pure]
            exact ⟨_, _, rfl, trivial, rfl⟩
        | @prim t v token htoken =>
            have hrun : ∀ o, o = some token → (match o with
                | some token => do
                    let v ← terminal t
                    pure (ParsedType.primType v token)
                | none => reject).run (⟨t, v⟩ :: rest) = some (.primType v token, rest) := by
              rintro o rfl
              simp only [phrase_bind, phrase_terminal, phrase_pure]
              exact ⟨v, rest, rfl, rfl, rfl⟩
            cases t <;> first | exact hrun _ htoken | cases htoken

mutual

/-- There are at least as many symbols as levels. -/
theorem depth_le_length : ∀ (t : ParsedType) {u : List Symbol}, IsType t u → t.depth ≤ u.length
  | .voidType, _, h => by
      cases h
      exact Nat.le_refl 1
  | .primType _ _, _, h => by
      cases h
      exact Nat.le_refl 1
  | .userType _, _, h => by
      cases h
      exact Nat.le_refl 1
  | .structType fields, _, h => by
      cases h with
      | @struct _ u k l r hu =>
          have hle := fieldsDepth_le_length fields (listOf_nil_iff.mp hu).2
          rw [ParsedType.depth, List.length_cons, List.length_cons, List.length_append]
          omega
  | .parseArrayType _ _, _, h => by cases h

theorem fieldsDepth_le_length : ∀ (fields : List (TypeInstance ParsedType)) {u : List Symbol},
    Each (IsVarDecl IsType) fields u → fieldsDepth fields ≤ u.length
  | [], _, _ => Nat.zero_le _
  | ⟨t, a⟩ :: fields, _, h => by
      obtain ⟨v, w, hv, hw, rfl⟩ := each_cons.mp h
      have hfields := fieldsDepth_le_length fields hw
      have hhead : t.depth ≤ v.length := by
        cases hv with
        | mk hi =>
            cases hi with
            | plain _ ht =>
                have := depth_le_length t ht
                simp only [List.length_append]
                omega
            | @array _ t _ _ _ _ _ _ ht _ =>
                have := depth_le_length t ht
                simp only [ParsedType.depth, List.length_append]
                omega
      rw [fieldsDepth, List.length_append]
      omega

end

/-! ## The goal -/

/-- The type instance of a declaration. -/
def Decl.typeInstance {T : Type} : Decl T → TypeInstance T
  | typeDecl t => t
  | sampleDecl t => t

theorem isDecl_at {n : Nat} {d : Decl ParsedType} {u : List Symbol} :
    IsDecl (IsTypeAt n) d u ↔ IsDecl IsType d u ∧ d.typeInstance.dataType.depth ≤ n := by
  constructor
  · intro h
    cases h with
    | typeDecl h => exact ⟨.typeDecl (isTypeInstance_at.mp h).1, (isTypeInstance_at.mp h).2⟩
    | sampleDecl h => exact ⟨.sampleDecl (isTypeInstance_at.mp h).1, (isTypeInstance_at.mp h).2⟩
  · rintro ⟨h, hdepth⟩
    cases h with
    | typeDecl h => exact .typeDecl (isTypeInstance_at.mpr ⟨h, hdepth⟩)
    | sampleDecl h => exact .sampleDecl (isTypeInstance_at.mpr ⟨h, hdepth⟩)

theorem isDecl_starts {n : Nat} {d : Decl ParsedType} {u : List Symbol}
    (h : IsDecl (IsTypeAt n) d u) : Starts (fun _ => true) u := by
  cases h with
  | typeDecl _ => exact starts_cons.mpr rfl
  | sampleDecl _ => exact starts_cons.mpr rfl

theorem isDecl_depth {d : Decl ParsedType} {u : List Symbol} (h : IsDecl IsType d u) :
    d.typeInstance.dataType.depth ≤ u.length := by
  -- behind its keyword, a declaration is like a field
  have hfield : ∀ {i : TypeInstance ParsedType} {v : List Symbol} (k : Symbol),
      IsVarDecl IsType i v → i.dataType.depth ≤ (k :: v).length := by
    rintro ⟨t, a⟩ v k hi
    have hle := fieldsDepth_le_length [⟨t, a⟩]
      (each_cons.mpr ⟨v, [], hi, each_nil.mpr rfl, (List.append_nil v).symm⟩)
    exact Nat.le_succ_of_le (Nat.le_trans (Nat.le_max_left _ _) hle)
  cases h with
  | @typeDecl t _ _ _ hi =>
      obtain ⟨t, a⟩ := t
      exact hfield _ (.mk hi)
  | @sampleDecl t _ _ _ hi =>
      obtain ⟨t, a⟩ := t
      exact hfield _ (.mk hi)

theorem isGoal_iff {spec : Specification ParsedType} {s : List Symbol} :
    IsGoal spec s ↔ Each (IsDecl IsType) spec s := by
  constructor
  · intro h
    cases h with
    | empty => exact each_nil.mpr rfl
    | list h => exact (listOf_nil_iff.mp h).2
  · intro h
    cases spec with
    | nil =>
        rw [each_nil.mp h]
        exact .empty
    | cons d spec => exact .list (listOf_nil_iff.mpr ⟨List.cons_ne_nil d spec, h⟩)

/-- **The parser accepts what the productions derive.** -/
theorem parse_iff {s : List Symbol} {spec : Specification ParsedType} :
    parseSymbols s = some spec ↔ IsGoal spec s := by
  have hdecl := recognizes_decl (recognizes_type s.length) fun _ _ h => isType_starts h.1
  have hgoal := recognizes_whileNext hdecl (c := fun _ => true) (fun _ _ => isDecl_starts)
    (fun _ _ => trivial) fun _ _ => trivial
  have hat : IsDecl (IsTypeAt s.length) =
      fun d u => IsDecl IsType d u ∧ d.typeInstance.dataType.depth ≤ s.length := by
    funext d u
    exact propext isDecl_at
  have heach : Each (IsDecl (IsTypeAt s.length)) spec s ↔ Each (IsDecl IsType) spec s := by
    rw [hat]
    refine each_and.trans (and_iff_left_of_imp fun h d hd => ?_)
    obtain ⟨v, hv, hvs⟩ := h.exists_of_mem hd
    exact Nat.le_trans (isDecl_depth hv) hvs.length_le
  rw [isGoal_iff, ← heach]
  have hrun : parseSymbols s = some spec ↔
      (whileNext (fun _ => true) (decl (type s.length))).run s = some (spec, []) := by
    rw [parseSymbols]
    split
    · rename_i l hl
      rw [hl, Option.some.injEq, Option.some.injEq, Prod.mk.injEq]
      exact ⟨fun h => ⟨h, rfl⟩, fun h => h.1⟩
    · rename_i hne
      refine iff_of_false (fun h => nomatch h) fun h => hne spec h
  rw [hrun, hgoal s spec []]
  constructor
  · rintro ⟨u, hu, hspec, _⟩
    have hsu : s = u := hu.trans (List.append_nil u)
    rwa [← hsu] at hspec
  · exact fun h => ⟨s, (List.append_nil s).symm, h, not_starts_nil⟩

/-! ## Names -/

theorem isAnnotation_key {a : Annotation} {u : List Symbol} (h : IsAnnotation a u)
    (hne : ∀ x ∈ u, x.value ≠ []) : a.getKey ≠ [] := by
  cases h with
  | @intention t l k c v r _ => exact hne ⟨.identifier, k⟩ (by simp)
  | docString => exact List.cons_ne_nil _ _

end LabComm.Compiler.Source
