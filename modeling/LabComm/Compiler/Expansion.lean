import LabComm.Compiler.Signature

set_option autoImplicit false

/-! # The two signatures agree

Expanding the references of the hierarchical signature gives the bytes of the flat one, for the
lines the compiler has and for the tables `map_signature` walks (`flat_of_hierarchical`). The
equations hold of a compiler that throws too: it throws for both or for neither.
-/

namespace LabComm.Compiler

open Library

/-! ## Bytes one after the other -/

/-- First the bytes of `a` and then those of `b`. -/
def joined (a b : Option (List UInt8)) : Option (List UInt8) := do
  let a ← a
  let b ← b
  pure (a ++ b)

theorem joined_none_right (a : Option (List UInt8)) : joined a none = none := by
  cases a <;> rfl

theorem joined_nil (a : Option (List UInt8)) : joined a (some []) = a := by
  cases a with
  | none => rfl
  | some a => exact congrArg some (List.append_nil a)

theorem joined_assoc (a b c : Option (List UInt8)) :
    joined (joined a b) c = joined a (joined b c) := by
  cases a with
  | none => rfl
  | some a =>
      cases b with
      | none => rfl
      | some b =>
          cases c with
          | none => rfl
          | some c => exact congrArg some (List.append_assoc a b c)

theorem joined_eq_some {a b : Option (List UInt8)} {bs : List UInt8} (h : joined a b = some bs) :
    ∃ x y, a = some x ∧ b = some y ∧ bs = x ++ y := by
  unfold joined at h
  simp only [Option.bind_eq_bind, Option.bind_eq_some_iff] at h
  obtain ⟨x, hx, y, hy, hpure⟩ := h
  exact ⟨x, y, hx, hy, (Option.some.inj hpure).symm⟩

section Generated

variable {f : List SignatureLine → Option (List UInt8)}
  (happend : ∀ l m, f (l ++ m) = joined (f l) (f m))

include happend

/-- Lines generated between others are bytes between theirs. -/
theorem bind_between (lines : Option (List SignatureLine)) (before after : List SignatureLine) :
    (lines.bind fun l => some (before ++ (l ++ after))).bind f =
      joined (f before) (joined (lines.bind f) (f after)) := by
  cases lines with
  | none => exact (joined_none_right (f before)).symm
  | some l =>
      calc f (before ++ (l ++ after)) = joined (f before) (f (l ++ after)) := happend _ _
        _ = joined (f before) (joined (f l) (f after)) := by rw [happend]

/-- Lines generated after others are bytes after theirs. -/
theorem bind_after (lines more : Option (List SignatureLine)) (before : List SignatureLine) :
    (lines.bind fun l => more.bind fun m => some (before ++ (l ++ m))).bind f =
      joined (f before) (joined (lines.bind f) (more.bind f)) := by
  cases more with
  | some m => exact bind_between happend lines before m
  | none =>
      rw [Option.bind_none, joined_none_right, joined_none_right]
      cases lines <;> rfl

end Generated

/-! ## Intentions -/

theorem packed32_of_lt_128 {n : Nat} (h : n < 128) : packed32 n = [UInt8.ofNat n] := by
  have hdiv : n / 128 = 0 := by omega
  simp [packed32, varint, groups, flagged, hdiv, Nat.mod_eq_of_lt h]

theorem packed32_length_of_le {n : Nat} (h : (packed32 n).length ≤ 1) : n < 128 := by
  by_contra hn
  have hdiv : n / 128 ≠ 0 := by omega
  have hlen : (packed32 n).length = (groups 5 n).length := flagged_length 0 _
  rw [groups, List.length_cons, if_neg hdiv, groups, List.length_cons] at hlen
  omega

/-- The array has room for keys and values of at most 127 bytes, and holds just their bytes. -/
theorem toByteArray_eq {i : Intention} {bs : List UInt8} (h : toByteArray i = some bs) :
    i.key.length < 128 ∧ i.value.length < 128 ∧
      bs = packed32 i.key.length ++ i.key ++ (packed32 i.value.length ++ i.value) := by
  unfold toByteArray at h
  simp only at h
  split at h
  · rename_i hle
    have hk := packed32_length_le i.key.length
    have hv := packed32_length_le i.value.length
    have hkpos := packed32_length_pos i.key.length
    have hvpos := packed32_length_pos i.value.length
    have hk1 : (packed32 (packed32 i.key.length).length).length = 1 := by
      rw [packed32_of_lt_128 (by omega)]
      rfl
    have hv1 : (packed32 (packed32 i.value.length).length).length = 1 := by
      rw [packed32_of_lt_128 (by omega)]
      rfl
    rw [hk1, hv1] at h hle
    simp only [List.length_append] at h hle
    refine ⟨packed32_length_of_le (by omega), packed32_length_of_le (by omega), ?_⟩
    rw [← Option.some.inj h]
    have hzero : i.key.length + i.value.length + 1 + 1 - ((packed32 i.key.length).length +
        i.key.length + ((packed32 i.value.length).length + i.value.length)) = 0 := by omega
    rw [hzero, List.replicate_zero, List.append_nil]
  · cases h

/-- The order of the compiler is a permutation of the intentions. -/
theorem forall_mem_sortedIntentions (is : List Intention) (P : Intention → Prop) :
    (∀ i ∈ sortedIntentions is, P i) ↔ ∀ i ∈ is, P i := by
  unfold sortedIntentions
  simp only [List.mem_mergeSort]

/-- The intentions of a field are those sorted, and each is short. -/
theorem getIntentionBytes_eq {is : List Intention} {bytes : List UInt8}
    (h : getIntentionBytes is = some bytes) :
    bytes = intentionsBytes (sortedIntentions is) ∧
      ∀ i ∈ sortedIntentions is, i.key.length < 128 ∧ i.value.length < 128 := by
  have hall : ∀ (l : List Intention) (bss : List (List UInt8)), l.mapM toByteArray = some bss →
      bss.flatten = l.flatMap Intention.bytes ∧
        ∀ i ∈ l, i.key.length < 128 ∧ i.value.length < 128 := by
    intro l
    induction l with
    | nil =>
        intro bss hbss
        cases hbss
        exact ⟨rfl, by simp⟩
    | cons i l ih =>
        intro bss hbss
        rw [List.mapM_cons] at hbss
        simp only [Option.bind_eq_bind, Option.bind_eq_some_iff, Option.pure_def,
          Option.some.injEq] at hbss
        obtain ⟨bs, hbs, rest, hrest, rfl⟩ := hbss
        obtain ⟨hkey, hvalue, rfl⟩ := toByteArray_eq hbs
        obtain ⟨hbytes, hshort⟩ := ih rest hrest
        refine ⟨by rw [List.flatten_cons, hbytes]; rfl, ?_⟩
        exact List.forall_mem_cons.mpr ⟨⟨hkey, hvalue⟩, hshort⟩
  simp only [getIntentionBytes, Option.bind_eq_bind, Option.bind_eq_some_iff, Option.pure_def,
    Option.some.injEq] at h
  obtain ⟨bss, hbss, rfl⟩ := h
  obtain ⟨hbytes, hshort⟩ := hall _ bss hbss
  refine ⟨?_, hshort⟩
  rw [hbytes, intentionsBytes, sortedIntentions, List.length_mergeSort]

/-! ## Lists of lines -/

theorem dataBytes_nil (version : Nat) : dataBytes version [] = some [] := rfl

theorem dataBytes_cons (version : Nat) (line : SignatureLine) (lines : List SignatureLine) :
    dataBytes version (line :: lines) =
      joined (line.getData version) (dataBytes version lines) := by
  unfold dataBytes
  rw [List.mapM_cons]
  cases line.getData version with
  | none => rfl
  | some a =>
      cases lines.mapM (SignatureLine.getData version) with
      | none => rfl
      | some bs => rfl

theorem dataBytes_append (version : Nat) (l m : List SignatureLine) :
    dataBytes version (l ++ m) = joined (dataBytes version l) (dataBytes version m) := by
  induction l with
  | nil => cases h : dataBytes version m <;> simp [dataBytes_nil, joined, h]
  | cons line l ih => rw [List.cons_append, dataBytes_cons, dataBytes_cons, ih, joined_assoc]

/-! ## Flat signatures -/

/-- The bytes of the lines of the fields. -/
def flatFieldBytes (fields : Fields) : Option (List UInt8) :=
  (flatSignatureFields fields).bind (dataBytes 2014)

theorem dataBytes_ints (a b : Nat) :
    dataBytes 2014 [.int a, .int b] = some (packed32 a ++ packed32 b) := by
  show some [packed32 a, packed32 b].flatten = _
  simp

theorem flatBytes_struct (fields : Fields) :
    flatBytes 2014 (.struct fields) =
      joined (some (packed32 LABCOMM_STRUCT ++ packed32 fields.length)) (flatFieldBytes fields) := by
  have hflat := bind_between (dataBytes_append 2014) (flatSignatureFields fields)
    [.int LABCOMM_STRUCT, .int fields.length] [.comment]
  rw [dataBytes_ints, show dataBytes 2014 [.comment] = some [] from rfl, joined_nil] at hflat
  exact hflat

theorem flatFieldBytes_cons (intentions : List Intention) (name : Name) (type : DataType)
    (rest : Fields) :
    flatFieldBytes (.cons intentions name type rest) =
      joined (getIntentionBytes intentions) (joined (flatBytes 2014 type) (flatFieldBytes rest)) := by
  have hflat := bind_after (dataBytes_append 2014) (flatSignature type)
    (flatSignatureFields rest) [.intentions intentions]
  rw [dataBytes_cons, dataBytes_nil, joined_nil] at hflat
  exact hflat

theorem flatBytes_array (elem : DataType) (dim : List Exp) :
    flatBytes 2014 (.array elem dim) =
      joined (joined (some (packed32 LABCOMM_ARRAY ++ packed32 dim.length))
        ((dim.mapM signatureLine).bind (dataBytes 2014))) (flatBytes 2014 elem) := by
  conv_lhs => unfold flatBytes flatSignature
  cases hdim : dim.mapM signatureLine with
  | none => rfl
  | some exps =>
      have hflat := bind_between (dataBytes_append 2014) (flatSignature elem)
        ([.int LABCOMM_ARRAY, .int dim.length] ++ exps) [.comment]
      rw [dataBytes_append, dataBytes_ints, show dataBytes 2014 [.comment] = some [] from rfl,
        joined_nil] at hflat
      exact hflat

/-! ## Expanded lines -/

theorem expandLines_cons (version : Nat) (line : SignatureLine) (lines : List SignatureLine) :
    expandLines version (line :: lines) =
      joined (expandLine version line) (expandLines version lines) := rfl

theorem expandLines_append (version : Nat) (l m : List SignatureLine) :
    expandLines version (l ++ m) = joined (expandLines version l) (expandLines version m) := by
  induction l with
  | nil => cases h : expandLines version m <;> simp [expandLines, joined, h]
  | cons line l ih => rw [List.cons_append, expandLines_cons, expandLines_cons, ih, joined_assoc]

/-- A line with data of its own has the same data expanded. -/
theorem expandLine_eq {version : Nat} {line : SignatureLine}
    (h : ∀ name lines, line ≠ .typeRef name lines) :
    expandLine version line = line.getData version := by
  cases line with
  | typeRef name lines => exact absurd rfl (h name lines)
  | comment => rfl
  | int data => rfl
  | intentions is => rfl

theorem expandLines_eq {version : Nat} {lines : List SignatureLine}
    (h : ∀ line ∈ lines, ∀ name ls, line ≠ .typeRef name ls) :
    expandLines version lines = dataBytes version lines := by
  induction lines with
  | nil => rfl
  | cons line lines ih =>
      rw [expandLines_cons, dataBytes_cons, expandLine_eq (h line List.mem_cons_self),
        ih fun l hl => h l (List.mem_cons_of_mem _ hl)]

theorem signatureLine_ne {e : Exp} {line : SignatureLine} (h : signatureLine e = some line)
    (name : Name) (lines : List SignatureLine) : line ≠ .typeRef name lines := by
  cases e with
  | variableSize => cases h; rintro ⟨⟩
  | integerLiteral value =>
      rw [signatureLine, Option.map_eq_some_iff] at h
      obtain ⟨_, _, rfl⟩ := h
      rintro ⟨⟩

theorem mem_of_mapM_eq_some {α β : Type} {f : α → Option β} {l : List α} {bs : List β}
    (h : l.mapM f = some bs) {b : β} (hb : b ∈ bs) : ∃ a ∈ l, f a = some b := by
  induction l generalizing bs with
  | nil =>
      cases h
      exact absurd hb (by simp)
  | cons x l ih =>
      simp only [List.mapM_cons, Option.bind_eq_bind, Option.bind_eq_some_iff] at h
      obtain ⟨y, hy, ys, hys, heq⟩ := h
      cases heq
      rcases List.mem_cons.mp hb with rfl | hb
      · exact ⟨x, List.mem_cons_self, hy⟩
      · obtain ⟨a, ha, hfa⟩ := ih hys hb
        exact ⟨a, List.mem_cons_of_mem _ ha, hfa⟩

/-- The lines of the dimensions are data. -/
theorem expandLines_dim {version : Nat} {dim : List Exp} {exps : List SignatureLine}
    (h : dim.mapM signatureLine = some exps) :
    expandLines version exps = dataBytes version exps := by
  refine expandLines_eq fun line hl => ?_
  obtain ⟨e, _, he⟩ := mem_of_mapM_eq_some h hl
  exact signatureLine_ne he

/-! ## The lines -/

mutual

/-- Expanding the references gives the data of the flat signature. -/
theorem genSigLine_expand (version : Nat) : ∀ t : DataType,
    (genSigLine t).bind (expandLines version) = flatBytes version t
  | .void => expandLines_eq (by simp)
  | .prim p => expandLines_eq (by simp)
  | .user name type => by
      have ih := genSigLine_expand version type
      rw [flatBytes, flatSignature, ← flatBytes, ← ih, genSigLine]
      cases genSigLine type with
      | none => rfl
      | some lines => exact joined_nil (expandLines version lines)
  | .struct fields => by
      have ih := genSigLineFields_expand version fields
      have hlines := bind_between (expandLines_append version) (genSigLineFields fields)
        [.int LABCOMM_STRUCT, .int fields.length] [.comment]
      have hflat := bind_between (dataBytes_append version) (flatSignatureFields fields)
        [.int LABCOMM_STRUCT, .int fields.length] [.comment]
      rw [expandLines_eq (by simp), expandLines_eq (by simp), ih, ← hflat] at hlines
      exact hlines
  | .array elem dim => by
      have ih := genSigLine_expand version elem
      unfold flatBytes genSigLine flatSignature
      cases hdim : dim.mapM signatureLine with
      | none => rfl
      | some exps =>
          have hlines := bind_between (expandLines_append version) (genSigLine elem)
            ([.int LABCOMM_ARRAY, .int dim.length] ++ exps) [.comment]
          have hflat := bind_between (dataBytes_append version) (flatSignature elem)
            ([.int LABCOMM_ARRAY, .int dim.length] ++ exps) [.comment]
          rw [expandLines_append, expandLines_dim hdim, expandLines_eq (by simp),
            expandLines_eq (by simp), ih, ← dataBytes_append] at hlines
          exact hlines.trans hflat.symm

/-- The same of the fields. -/
theorem genSigLineFields_expand (version : Nat) : ∀ fields : Fields,
    (genSigLineFields fields).bind (expandLines version) =
      (flatSignatureFields fields).bind (dataBytes version)
  | .nil => rfl
  | .cons intentions name type rest => by
      have ih := genSigLine_expand version type
      have ihr := genSigLineFields_expand version rest
      have hlines := bind_after (expandLines_append version) (genSigLine type)
        (genSigLineFields rest) [.intentions intentions]
      have hflat := bind_after (dataBytes_append version) (flatSignature type)
        (flatSignatureFields rest) [.intentions intentions]
      rw [expandLines_eq (by simp), ih, ihr] at hlines
      exact hlines.trans hflat.symm

end

/-! ## The tables -/

mutual

/-- The bytes of a signature when the pointers are followed. -/
def flattened : C.Signature → List UInt8
  | .mk _ _ _ treedata => flattenedData treedata

/-- The bytes of the entries. -/
def flattenedData : C.SignatureData → List UInt8
  | .sigdefEnd => []
  | .sigdefBytes b bs rest => b :: bs ++ flattenedData rest
  | .sigdefSignature s rest => flattened s ++ flattenedData rest

end

theorem forM_collect (bs bytes : List UInt8) :
    (bs.forM fun b => collect b none).run bytes = ((), bytes ++ bs) := by
  induction bs generalizing bytes with
  | nil => exact congrArg (Prod.mk ()) (List.append_nil bytes).symm
  | cons b bs ih =>
      calc ((b :: bs).forM fun b => collect b none).run bytes
          = (bs.forM fun b => collect b none).run (bytes ++ [b]) := rfl
        _ = ((), bytes ++ b :: bs) := by rw [ih, List.append_assoc, List.singleton_append]

mutual

/-- `map_signature` with `flatten` set visits the bytes in order. -/
theorem mapSignature_collect : ∀ (s : C.Signature) (bytes : List UInt8),
    (C.mapSignature collect true s).run bytes = ((), bytes ++ flattened s)
  | .mk _ _ _ treedata, bytes => mapSignatureData_collect treedata bytes

/-- The same of the loop over the entries. -/
theorem mapSignatureData_collect : ∀ (entries : C.SignatureData) (bytes : List UInt8),
    (C.mapSignatureData collect true entries).run bytes = ((), bytes ++ flattenedData entries)
  | .sigdefEnd, bytes => congrArg (Prod.mk ()) (List.append_nil bytes).symm
  | .sigdefBytes b bs rest, bytes => by
      have h := forM_collect (b :: bs) bytes
      rw [C.mapSignatureData, StateT.run_bind, h, flattenedData, ← List.append_assoc]
      exact mapSignatureData_collect rest (bytes ++ b :: bs)
  | .sigdefSignature s rest, bytes => by
      have h := mapSignature_collect s bytes
      rw [C.mapSignatureData, if_pos rfl, StateT.run_bind, h, flattenedData,
        ← List.append_assoc]
      exact mapSignatureData_collect rest (bytes ++ flattened s)

end

theorem mapSignatureFlattened_eq (s : C.Signature) : mapSignatureFlattened s = flattened s := by
  rw [mapSignatureFlattened, mapSignature_collect, List.nil_append]

theorem flattenedData_emitBytes (bs : List UInt8) (rest : C.SignatureData) :
    flattenedData (emitBytes bs rest) = bs ++ flattenedData rest := by
  cases bs <;> rfl

mutual

/-- An entry has the bytes of the line it is emitted for, expanded. -/
theorem emitLine_flattened (version : Nat) (index : Name → Int) :
    ∀ (line : SignatureLine) (rest : C.SignatureData),
      ((emitLine version index line).map fun entry => flattenedData (entry rest)) =
        (expandLine version line).map fun bs => bs ++ flattenedData rest
  | .typeRef name lines, rest => by
      have ih := emitLines_flattened version index lines
      rw [emitLine, expandLine, ← ih]
      cases emitLines version index lines <;> rfl
  | .comment, rest => rfl
  | .int data, rest => by
      rw [emitLine, expandLine, Option.map_map]
      exact congrArg (Option.map · (getIntBytes data version))
        (funext fun bs => flattenedData_emitBytes bs rest)
  | .intentions is, rest => by
      rw [emitLine, expandLine, Option.map_map]
      exact congrArg (Option.map · (getIntentionBytes is))
        (funext fun bs => flattenedData_emitBytes bs rest)

/-- The entries have the bytes of the lines, expanded. -/
theorem emitLines_flattened (version : Nat) (index : Name → Int) :
    ∀ lines : List SignatureLine,
      (emitLines version index lines).map flattenedData = expandLines version lines
  | [] => rfl
  | line :: lines => by
      have ih := emitLine_flattened version index line
      have ihr := emitLines_flattened version index lines
      rw [expandLines_cons, ← ihr, emitLines]
      cases emitLines version index lines with
      | none =>
          rw [Option.map_none, joined_none_right]
          cases emitLine version index line <;> rfl
      | some rest =>
          have h := ih rest
          cases hl : expandLine version line <;> cases he : emitLine version index line <;>
            rw [hl, he] at h <;> simp_all [joined]

end

theorem treedata_flattened (version : Nat) (index : Name → Int) (t : DataType) :
    (treedata version index t).map flattenedData = flatBytes version t := by
  rw [← genSigLine_expand, treedata]
  cases genSigLine t with
  | none => rfl
  | some lines => exact emitLines_flattened version index lines

/-- **The hierarchical signature of a declaration, its references expanded, is the flat
signature**; and the generated table, walked by `map_signature` with `flatten` set, has the
bytes of the flat signature. -/
theorem flat_of_hierarchical (spec : Specification) (h : IterationOrder Intention) (version : Nat)
    (index : Name → Int) :
    ∀ d ∈ spec.resolve h,
      (genSigLine d.type).bind (expandLines version) = flatBytes version d.type ∧
      ∀ (name : Name) (signature : Option (List UInt8)) (i : Int),
        ((treedata version index d.type).map fun entries =>
          mapSignatureFlattened (.mk name signature i entries)) = flatBytes version d.type := by
  intro d _
  constructor
  · exact genSigLine_expand version d.type
  · intro name signature i
    simp only [mapSignatureFlattened_eq]
    exact treedata_flattened version index d.type

/-- `typedef int t; sample t a[_, 3];` -/
def typedefSpec : Specification where
  decls := [⟨.typeDecl, [], [116], .prim .int⟩,
    ⟨.sampleDecl, [], [97], .array (.user [116]) [[.variableSize, .integerLiteral 3]]⟩]
  parsed := by simp [ParsedType.Parsed]
  checked := by decide

/-- The declarations of `typedefSpec`. -/
theorem typedefSpec_resolve :
    typedefSpec.resolve ⟨id, fun _ => .refl _⟩ =
      [⟨.typeDecl, [⟨[], [116]⟩], [116], .prim .int⟩,
        ⟨.sampleDecl, [⟨[], [97]⟩], [97],
          .array (.user [116] (.prim .int)) [.variableSize, .integerLiteral 3]⟩] :=
  Option.some.inj ((typedefSpec.resolve_eq _).symm.trans rfl)

theorem flat_of_hierarchical_typedef :
    ((treedata 2014 (fun _ => 0x40) (.array (.user [116] (.prim .int))
      [.variableSize, .integerLiteral 3])).map fun entries =>
        mapSignatureFlattened (.mk [97] none 0x41 entries)) =
      some [0x10, 2, 0, 3, 0x23] := by
  have hmem : (⟨.sampleDecl, [⟨[], [97]⟩], [97], .array (.user [116] (.prim .int))
      [.variableSize, .integerLiteral 3]⟩ : Decl) ∈ typedefSpec.resolve ⟨id, fun _ => .refl _⟩ := by
    rw [typedefSpec_resolve]
    exact List.mem_cons_of_mem _ List.mem_cons_self
  have h := (flat_of_hierarchical typedefSpec ⟨id, fun _ => .refl _⟩ 2014 (fun _ => 0x40) _
    hmem).2 [97] none 0x41
  exact h.trans (by decide)

end LabComm.Compiler
