import LabComm.C.RoundTrip
import LabComm.Compiler.Expansion

set_option autoImplicit false

/-! # What a matching signature guarantees

A decoder binds a sample to a handler when the bytes of the flat signatures are equal. These bytes
parse back to the type (`flatBytes_inj`), but for one thing: a variable dimension is written like
the literal 0. Two types with equal signatures have the same wire format if they have the same
dimensions wherever an array can have elements (`compatible_of_agree`), and only then
(`agree_of_compatible`).
-/

namespace LabComm.Compiler

open Library C

/-! ## Two types -/

/-- What is declared by the name of a user type. -/
def head : DataType → DataType
  | .user _ type => head type
  | t => t

/-- The number a dimension is in a signature. -/
def signatureSize : Exp → Nat
  | .integerLiteral value => value
  | .variableSize => 0

mutual

/-- The types are alike, but for names, intentions and what a dimension 0 stands for. -/
def Resembles : DataType → DataType → Prop
  | .void, u => head u = .void
  | .prim p, u => head u = .prim p
  | .user _ type, u => Resembles type u
  | .struct fields, u => ∃ fields', head u = .struct fields' ∧ ResemblesFields fields fields'
  | .array elem dim, u => ∃ elem' dim', head u = .array elem' dim' ∧
      dim.map signatureSize = dim'.map signatureSize ∧ Resembles elem elem'

/-- The same of the fields, in order. -/
def ResemblesFields : Fields → Fields → Prop
  | .nil, fields' => fields' = .nil
  | .cons _ _ type rest, fields' => ∃ is name type' rest', fields' = .cons is name type' rest' ∧
      Resembles type type' ∧ ResemblesFields rest rest'

end

/-- The size of a dimension when a variable one is 1. -/
def unitSize : Exp → Int
  | .integerLiteral value => value
  | .variableSize => 1

/-- The number of elements of a variable array is an `int` if its variable dimensions are 1. -/
def Counts (dim : List Exp) : Prop := isVariable dim = true → (dim.map unitSize).prod < 2 ^ 31

/-- Some value of the array has elements. -/
def HasElements (dim : List Exp) : Prop := (dim.map unitSize).prod ≠ 0 ∧ Counts dim

mutual

/-- The types have the same dimensions in every array that can be part of a value, and are alike
otherwise. -/
def Agree : DataType → DataType → Prop
  | .void, u => head u = .void
  | .prim p, u => head u = .prim p
  | .user _ type, u => Agree type u
  | .struct fields, u => ∃ fields', head u = .struct fields' ∧ AgreeFields fields fields'
  | .array elem dim, u => ∃ elem', head u = .array elem' dim ∧ (HasElements dim → Agree elem elem')

/-- The same of the fields, in order. -/
def AgreeFields : Fields → Fields → Prop
  | .nil, fields' => fields' = .nil
  | .cons _ _ type rest, fields' => ∃ is name type' rest', fields' = .cons is name type' rest' ∧
      Agree type type' ∧ AgreeFields rest rest'

end

mutual

/-- Every array of the type has a value with all variable dimensions 1. -/
def Regular : DataType → Prop
  | .user _ type => Regular type
  | .struct fields => RegularFields fields
  | .array elem dim => Counts dim ∧ Regular elem
  | _ => True

/-- The same of every field. -/
def RegularFields : Fields → Prop
  | .nil => True
  | .cons _ _ type rest => Regular type ∧ RegularFields rest

end

/-- A decoder for the type `u` gives back what an encoder for the type `t` sends, however the
bytes are cut into buffers: the value with its references looked up, and no byte more is taken. -/
def Compatible (t u : DataType) : Prop :=
  ∀ (R : Option Nat → Prop) (refs : RefTables) (toRef : Int → Option Nat) (v : Value),
    WellTyped R t v → StringsFit t v → ∀ (ω : WriterAction) (w : Writer ω), ω.Flushes → ∃ bs,
      (cEncode refs t v w).1 = 0 ∧ (cEncode refs t v w).2.written = w.written ++ bs ∧
      ∀ (φ : Host) (r : Reader φ) (rest : List UInt8), r.error = 0 → r.unread = bs ++ rest →
        (cEmitDecoder toRef u r).1 = mapRefs (refs.seen toRef) t v ∧
          (cEmitDecoder toRef u r).2.error = 0 ∧ (cEmitDecoder toRef u r).2.unread = rest

/-! ## Names of types -/

theorem head_ne_user : ∀ (t : DataType) (name : Name) (type : DataType), head t ≠ .user name type
  | .user _ t, name, type => by
      rw [head]
      exact head_ne_user t name type
  | .void, _, _ => by simp [head]
  | .prim _, _, _ => by simp [head]
  | .struct _, _, _ => by simp [head]
  | .array _ _, _, _ => by simp [head]

/-- What is defined for a user type by what it stands for is the same of the head. -/
theorem eq_of_head {α : Type} {f : DataType → α} (huser : ∀ name t, f (.user name t) = f t) :
    ∀ t : DataType, f (head t) = f t
  | .user name t => by rw [head, huser name t, eq_of_head huser t]
  | .void => rfl
  | .prim _ => rfl
  | .struct _ => rfl
  | .array _ _ => rfl

/-! ## Signatures -/

theorem flatBytes_void : flatBytes 2014 .void =
    some (packed32 LABCOMM_STRUCT ++ packed32 0) := by
  show dataBytes 2014 [.int LABCOMM_STRUCT, .int 0] = _
  rw [dataBytes_cons, dataBytes_cons, dataBytes_nil, joined_nil]
  rfl

theorem flatBytes_prim (p : Prim) : flatBytes 2014 (.prim p) = some (packed32 p.token) := by
  show dataBytes 2014 [.int p.token] = _
  rw [dataBytes_cons, dataBytes_nil, joined_nil]
  rfl

theorem flatBytes_struct_some {fields : Fields} {bs : List UInt8}
    (h : flatBytes 2014 (.struct fields) = some bs) :
    ∃ cs, flatFieldBytes fields = some cs ∧
      bs = packed32 LABCOMM_STRUCT ++ (packed32 fields.length ++ cs) := by
  rw [flatBytes_struct] at h
  obtain ⟨a, cs, ha, hcs, rfl⟩ := joined_eq_some h
  cases ha
  exact ⟨cs, hcs, List.append_assoc ..⟩

theorem signatureLine_eq (e : Exp) : signatureLine e =
    if signatureSize e < 2 ^ 31 then some (.int (signatureSize e)) else none := by
  cases e with
  | variableSize => rfl
  | integerLiteral value =>
      rw [signatureLine, parseInt, signatureSize]
      split <;> rfl

/-- The lines of dimensions are numbers. -/
theorem mapM_signatureLine (dim : List Exp) :
    dim.mapM signatureLine = if ∀ n ∈ dim.map signatureSize, n < 2 ^ 31 then
      some ((dim.map signatureSize).map .int) else none := by
  induction dim with
  | nil => rfl
  | cons e dim ih =>
      rw [List.mapM_cons, ih, signatureLine_eq, List.map_cons]
      simp only [List.forall_mem_cons]
      by_cases he : signatureSize e < 2 ^ 31
      · by_cases hdim : ∀ n ∈ dim.map signatureSize, n < 2 ^ 31
        · rw [if_pos he, if_pos hdim, if_pos ⟨he, hdim⟩]
          rfl
        · have hboth : ¬ (signatureSize e < 2 ^ 31 ∧ ∀ n ∈ dim.map signatureSize, n < 2 ^ 31) :=
            fun h => hdim h.2
          rw [if_pos he, if_neg hdim, if_neg hboth]
          rfl
      · have hboth : ¬ (signatureSize e < 2 ^ 31 ∧ ∀ n ∈ dim.map signatureSize, n < 2 ^ 31) :=
          fun h => he h.1
        rw [if_neg he, if_neg hboth]
        rfl

theorem dataBytes_map_int (ns : List Nat) :
    dataBytes 2014 (ns.map .int) = some (ns.flatMap packed32) := by
  induction ns with
  | nil => rfl
  | cons n ns ih =>
      calc dataBytes 2014 ((n :: ns).map .int)
          = joined (some (packed32 n)) (dataBytes 2014 (ns.map .int)) := dataBytes_cons _ _ _
        _ = some (packed32 n ++ ns.flatMap packed32) := by rw [ih]; rfl
        _ = some ((n :: ns).flatMap packed32) := by rw [List.flatMap_cons]

/-- The numbers of the dimensions. -/
theorem dimLines_eq_some {dim : List Exp} {exps : List SignatureLine}
    (h : dim.mapM signatureLine = some exps) :
    (∀ e ∈ dim, signatureSize e < 2 ^ 31) ∧
      dataBytes 2014 exps = some ((dim.map signatureSize).flatMap packed32) := by
  rw [mapM_signatureLine] at h
  split at h
  · rename_i hsmall
    cases h
    exact ⟨fun e he => hsmall _ (List.mem_map_of_mem he), dataBytes_map_int _⟩
  · cases h

theorem flatBytes_array_some {elem : DataType} {dim : List Exp} {bs : List UInt8}
    (h : flatBytes 2014 (.array elem dim) = some bs) :
    ∃ cs, flatBytes 2014 elem = some cs ∧ (∀ e ∈ dim, signatureSize e < 2 ^ 31) ∧
      bs = packed32 LABCOMM_ARRAY ++ (packed32 dim.length ++
        ((dim.map signatureSize).flatMap packed32 ++ cs)) := by
  rw [flatBytes_array] at h
  obtain ⟨a, cs, ha, hcs, rfl⟩ := joined_eq_some h
  obtain ⟨b, d, hb, hd, rfl⟩ := joined_eq_some ha
  obtain ⟨exps, hexps, hdata⟩ := Option.bind_eq_some_iff.mp hd
  obtain ⟨hsmall, hdims⟩ := dimLines_eq_some hexps
  cases hb
  cases hdims.symm.trans hdata
  exact ⟨cs, hcs, hsmall, by simp only [List.append_assoc]⟩

theorem flatFieldBytes_cons_some {is : List Intention} {name : Name} {type : DataType}
    {rest : Fields} {bs : List UInt8} (h : flatFieldBytes (.cons is name type rest) = some bs) :
    ∃ a b c, getIntentionBytes is = some a ∧ flatBytes 2014 type = some b ∧
      flatFieldBytes rest = some c ∧ bs = a ++ (b ++ c) := by
  rw [flatFieldBytes_cons] at h
  obtain ⟨a, d, ha, hd, rfl⟩ := joined_eq_some h
  obtain ⟨b, c, hb, hc, rfl⟩ := joined_eq_some hd
  exact ⟨a, b, c, ha, hb, hc, rfl⟩

/-! ## Intentions -/

/-- Two packed numbers of an `int`, at the start of the same string. -/
theorem packed32_append_inj {m n : Nat} {r s : List UInt8} (hm : m < 2 ^ 31) (hn : n < 2 ^ 31)
    (h : packed32 m ++ r = packed32 n ++ s) : m = n ∧ r = s :=
  varint_append_inj (lt_trans hm (by norm_num)) (lt_trans hn (by norm_num)) h

/-- Two strings with their lengths in front. -/
theorem counted_append_inj {a b r s : List UInt8} (ha : a.length < 128) (hb : b.length < 128)
    (h : packed32 a.length ++ (a ++ r) = packed32 b.length ++ (b ++ s)) : a = b ∧ r = s := by
  obtain ⟨hlen, hrest⟩ := packed32_append_inj (by omega) (by omega) h
  exact List.append_inj hrest hlen

theorem toByteArray_append_inj {i j : Intention} {a b r s : List UInt8}
    (hi : toByteArray i = some a) (hj : toByteArray j = some b) (h : a ++ r = b ++ s) :
    i = j ∧ r = s := by
  obtain ⟨hik, hiv, rfl⟩ := toByteArray_eq hi
  obtain ⟨hjk, hjv, rfl⟩ := toByteArray_eq hj
  simp only [List.append_assoc] at h
  obtain ⟨hkey, hrest⟩ := counted_append_inj hik hjk h
  obtain ⟨hvalue, hend⟩ := counted_append_inj hiv hjv hrest
  cases i
  cases j
  exact ⟨congrArg₂ _ hkey hvalue, hend⟩

/-- As many intentions at the start of the same string. -/
theorem toByteArrays_append_inj {is js : List Intention} (hlen : is.length = js.length)
    {as bs : List (List UInt8)} {r s : List UInt8} (hi : is.mapM toByteArray = some as)
    (hj : js.mapM toByteArray = some bs) (h : as.flatten ++ r = bs.flatten ++ s) :
    is = js ∧ r = s := by
  induction is generalizing js as bs with
  | nil =>
      obtain rfl : js = [] := List.length_eq_zero_iff.mp hlen.symm
      cases hi
      cases hj
      exact ⟨rfl, h⟩
  | cons i is ih =>
      cases js with
      | nil => exact absurd hlen (by simp)
      | cons j js =>
          simp only [List.mapM_cons, Option.bind_eq_bind, Option.bind_eq_some_iff] at hi hj
          obtain ⟨a, ha, as', has, heq⟩ := hi
          cases heq
          obtain ⟨b, hb, bs', hbs, heq⟩ := hj
          cases heq
          rw [List.flatten_cons, List.flatten_cons, List.append_assoc, List.append_assoc] at h
          obtain ⟨rfl, hrest⟩ := toByteArray_append_inj ha hb h
          obtain ⟨rfl, hrest⟩ := ih (by simpa using hlen) has hbs hrest
          exact ⟨rfl, hrest⟩

/-- Two lists of as many intentions at the start of the same string. -/
theorem sortedIntentions_append_inj {is js : List Intention} (hlen : is.length = js.length)
    {a b r s : List UInt8} (ha : getIntentionBytes is = some a)
    (hb : getIntentionBytes js = some b) (h : a ++ r = b ++ s) :
    sortedIntentions is = sortedIntentions js ∧ r = s := by
  simp only [getIntentionBytes, Option.bind_eq_bind, Option.bind_eq_some_iff] at ha hb
  obtain ⟨as, has, heq⟩ := ha
  cases heq
  obtain ⟨bs, hbs, heq⟩ := hb
  cases heq
  rw [List.append_assoc, List.append_assoc, hlen] at h
  have hsorted : (sortedIntentions is).length = (sortedIntentions js).length := by
    rw [sortedIntentions, sortedIntentions, List.length_mergeSort, List.length_mergeSort, hlen]
  exact toByteArrays_append_inj hsorted has hbs (List.append_cancel_left h)

theorem intentionBytes_append_inj {is js : List Intention} (hi : is.length < 2 ^ 31)
    (hj : js.length < 2 ^ 31) {a b r s : List UInt8} (ha : getIntentionBytes is = some a)
    (hb : getIntentionBytes js = some b) (h : a ++ r = b ++ s) : r = s := by
  have hcount : is.length = js.length := by
    simp only [getIntentionBytes, Option.bind_eq_bind, Option.bind_eq_some_iff] at ha hb
    obtain ⟨as, _, heq⟩ := ha
    cases heq
    obtain ⟨bs, _, heq⟩ := hb
    cases heq
    rw [List.append_assoc, List.append_assoc] at h
    exact (packed32_append_inj hi hj h).1
  exact (sortedIntentions_append_inj hcount ha hb h).2

/-! ## Signatures parse back -/

theorem dims_append_inj {ms ns : List Nat} (hlen : ms.length = ns.length)
    (hm : ∀ m ∈ ms, m < 2 ^ 31) (hn : ∀ n ∈ ns, n < 2 ^ 31) {r s : List UInt8}
    (h : ms.flatMap packed32 ++ r = ns.flatMap packed32 ++ s) : ms = ns ∧ r = s := by
  induction ms generalizing ns with
  | nil =>
      obtain rfl : ns = [] := List.length_eq_zero_iff.mp hlen.symm
      exact ⟨rfl, h⟩
  | cons m ms ih =>
      cases ns with
      | nil => exact absurd hlen (by simp)
      | cons n ns =>
          rw [List.flatMap_cons, List.flatMap_cons, List.append_assoc, List.append_assoc] at h
          obtain ⟨rfl, hrest⟩ := packed32_append_inj (hm m List.mem_cons_self)
            (hn n List.mem_cons_self) h
          obtain ⟨rfl, hend⟩ := ih (by simpa using hlen) (fun k hk => hm k (List.mem_cons_of_mem m hk))
            (fun k hk => hn k (List.mem_cons_of_mem m hk)) hrest
          exact ⟨rfl, hend⟩

theorem accepted_head {u : DataType} (hu : u.Accepted) : (head u).Accepted :=
  (eq_of_head (f := DataType.Accepted) (fun _ _ => rfl) u).mpr hu

theorem flatBytes_head (u : DataType) : flatBytes 2014 (head u) = flatBytes 2014 u :=
  eq_of_head (f := flatBytes 2014) (fun _ _ => rfl) u

/-- The first number of a signature. -/
def tag : DataType → Nat
  | .void => LABCOMM_STRUCT
  | .prim p => p.token
  | .user _ type => tag type
  | .struct _ => LABCOMM_STRUCT
  | .array _ _ => LABCOMM_ARRAY

theorem tag_lt (t : DataType) : tag t < 2 ^ 31 := by
  cases t with
  | void => decide
  | prim p => exact lt_trans p.token_lt (by norm_num)
  | user name type => exact tag_lt type
  | struct fields => exact show LABCOMM_STRUCT < 2 ^ 31 by decide
  | array elem dim => exact show LABCOMM_ARRAY < 2 ^ 31 by decide

theorem flatBytes_tag : ∀ (t : DataType) (bs : List UInt8), flatBytes 2014 t = some bs →
    ∃ rest, bs = packed32 (tag t) ++ rest
  | .void, bs, h => by
      rw [flatBytes_void] at h
      exact ⟨_, (Option.some.inj h).symm⟩
  | .prim p, bs, h => by
      rw [flatBytes_prim] at h
      exact ⟨[], by rw [List.append_nil]; exact (Option.some.inj h).symm⟩
  | .user _ type, bs, h => flatBytes_tag type bs h
  | .struct fields, bs, h => by
      obtain ⟨cs, -, rfl⟩ := flatBytes_struct_some h
      exact ⟨_, rfl⟩
  | .array elem dim, bs, h => by
      obtain ⟨cs, -, -, rfl⟩ := flatBytes_array_some h
      exact ⟨_, rfl⟩

/-- Signatures at the start of the same string have the same first number. -/
theorem tag_eq {t u : DataType} {bs cs r s : List UInt8} (hbs : flatBytes 2014 t = some bs)
    (hcs : flatBytes 2014 u = some cs) (h : bs ++ r = cs ++ s) : tag t = tag u := by
  obtain ⟨b, rfl⟩ := flatBytes_tag t bs hbs
  obtain ⟨c, rfl⟩ := flatBytes_tag u cs hcs
  rw [List.append_assoc, List.append_assoc] at h
  exact (packed32_append_inj (tag_lt t) (tag_lt u) h).1

/-- The types that begin like a `struct` are `void` and the structs. -/
theorem head_of_tag_struct {u : DataType} (h : LABCOMM_STRUCT = tag (head u)) :
    head u = .void ∨ ∃ fields, head u = .struct fields := by
  cases hhead : head u with
  | void => exact .inl rfl
  | struct fields => exact .inr ⟨fields, rfl⟩
  | user name type => exact absurd hhead (head_ne_user u name type)
  | prim p =>
      rw [hhead] at h
      exact absurd h.symm p.token_ne_struct
  | array elem dim =>
      rw [hhead] at h
      exact absurd (show LABCOMM_STRUCT = LABCOMM_ARRAY from h) (by decide)

theorem head_of_tag_array {u : DataType} (h : LABCOMM_ARRAY = tag (head u)) :
    ∃ elem dim, head u = .array elem dim := by
  cases hhead : head u with
  | array elem dim => exact ⟨elem, dim, rfl⟩
  | user name type => exact absurd hhead (head_ne_user u name type)
  | prim p =>
      rw [hhead] at h
      exact absurd h.symm p.token_ne_array
  | void | struct fields =>
      rw [hhead] at h
      exact absurd (show LABCOMM_ARRAY = LABCOMM_STRUCT from h) (by decide)

theorem head_of_tag_prim {p : Prim} {u : DataType} (h : p.token = tag (head u)) :
    head u = .prim p := by
  cases hhead : head u with
  | prim q =>
      rw [hhead] at h
      rw [Prim.token_inj h]
  | user name type => exact absurd hhead (head_ne_user u name type)
  | array elem dim =>
      rw [hhead] at h
      exact absurd h p.token_ne_array
  | void | struct fields =>
      rw [hhead] at h
      exact absurd h p.token_ne_struct

mutual

/-- **The bytes of a signature tell where they end and which type they are of**, but for names,
intentions and what a dimension 0 stands for. -/
theorem flatBytes_inj : ∀ (t u : DataType) (bs cs r s : List UInt8), t.Accepted → u.Accepted →
    flatBytes 2014 t = some bs → flatBytes 2014 u = some cs → bs ++ r = cs ++ s →
      Resembles t u ∧ r = s
  | .user _ type, u, bs, cs, r, s, ht, hu, hbs, hcs, h => by
      rw [Resembles]
      exact flatBytes_inj type u bs cs r s ht hu hbs hcs h
  | .void, u, bs, cs, r, s, _, hu, hbs, hcs, h => by
      rw [← flatBytes_head] at hcs
      have hu := accepted_head hu
      rw [Resembles]
      rcases head_of_tag_struct (tag_eq hbs hcs h) with hhead | ⟨fields, hhead⟩
      · rw [hhead] at hcs
        rw [flatBytes_void] at hbs hcs
        cases hbs
        cases hcs
        exact ⟨hhead, List.append_cancel_left h⟩
      · -- a struct has a field
        rw [hhead] at hcs hu
        obtain ⟨ds, -, rfl⟩ := flatBytes_struct_some hcs
        rw [flatBytes_void] at hbs
        cases hbs
        simp only [List.append_assoc] at h
        have hnumber := List.append_cancel_left h
        exact absurd (packed32_append_inj (by decide) hu.2.1 hnumber).1.symm hu.1
  | .prim p, u, bs, cs, r, s, _, _, hbs, hcs, h => by
      rw [← flatBytes_head] at hcs
      have hhead := head_of_tag_prim (tag_eq hbs hcs h)
      rw [hhead] at hcs
      rw [flatBytes_prim] at hbs hcs
      cases hbs
      cases hcs
      exact ⟨hhead, List.append_cancel_left h⟩
  | .struct fields, u, bs, cs, r, s, ht, hu, hbs, hcs, h => by
      rw [← flatBytes_head] at hcs
      have hu := accepted_head hu
      rw [Resembles]
      rcases head_of_tag_struct (tag_eq hbs hcs h) with hhead | ⟨fields', hhead⟩
      · rw [hhead, flatBytes_void] at hcs
        cases hcs
        obtain ⟨ds, -, rfl⟩ := flatBytes_struct_some hbs
        simp only [List.append_assoc] at h
        have hnumber := List.append_cancel_left h
        exact absurd (packed32_append_inj ht.2.1 (by decide) hnumber).1 ht.1
      · rw [hhead] at hcs hu
        obtain ⟨b, hb, rfl⟩ := flatBytes_struct_some hbs
        obtain ⟨c, hc, rfl⟩ := flatBytes_struct_some hcs
        simp only [List.append_assoc] at h
        obtain ⟨hlen, hrest⟩ :=
          packed32_append_inj ht.2.1 hu.2.1 (List.append_cancel_left h)
        obtain ⟨hfields, hend⟩ :=
          flatFieldBytes_inj fields fields' b c r s hlen ht.2.2 hu.2.2 hb hc hrest
        exact ⟨⟨fields', hhead, hfields⟩, hend⟩
  | .array elem dim, u, bs, cs, r, s, ht, hu, hbs, hcs, h => by
      rw [← flatBytes_head] at hcs
      have hu := accepted_head hu
      obtain ⟨elem', dim', hhead⟩ := head_of_tag_array (tag_eq hbs hcs h)
      rw [hhead] at hcs hu
      obtain ⟨b, hb, hsmall, rfl⟩ := flatBytes_array_some hbs
      obtain ⟨c, hc, hsmall', rfl⟩ := flatBytes_array_some hcs
      simp only [List.append_assoc] at h
      obtain ⟨hlen, hrest⟩ := packed32_append_inj ht.2.1 hu.2.1 (List.append_cancel_left h)
      obtain ⟨hdims, helems⟩ := dims_append_inj (by simpa using hlen)
        (List.forall_mem_map.mpr hsmall) (List.forall_mem_map.mpr hsmall') hrest
      obtain ⟨helem, hend⟩ := flatBytes_inj elem elem' b c r s ht.2.2.2 hu.2.2.2 hb hc helems
      exact ⟨⟨elem', dim', hhead, hdims, helem⟩, hend⟩

theorem flatFieldBytes_inj : ∀ (fields fields' : Fields) (bs cs r s : List UInt8),
    fields.length = fields'.length → fields.Accepted → fields'.Accepted →
    flatFieldBytes fields = some bs → flatFieldBytes fields' = some cs →
    bs ++ r = cs ++ s → ResemblesFields fields fields' ∧ r = s
  | .nil, .nil, bs, cs, r, s, _, _, _, hbs, hcs, h => by
      cases hbs
      cases hcs
      exact ⟨rfl, h⟩
  | .nil, .cons .., _, _, _, _, hlen, _, _, _, _, _ => absurd hlen (by simp [Fields.length])
  | .cons .., .nil, _, _, _, _, hlen, _, _, _, _, _ => absurd hlen (by simp [Fields.length])
  | .cons is _ type rest, .cons js name type' rest', bs, cs, r, s, hlen, hf, hf', hbs, hcs, h => by
      obtain ⟨hi, -, ht, hrest⟩ := hf
      obtain ⟨hj, -, ht', hrest'⟩ := hf'
      obtain ⟨a, b, c, ha, hb, hc, rfl⟩ := flatFieldBytes_cons_some hbs
      obtain ⟨a', b', c', ha', hb', hc', rfl⟩ := flatFieldBytes_cons_some hcs
      simp only [List.append_assoc] at h
      have htype := intentionBytes_append_inj hi hj ha ha' h
      obtain ⟨hfirst, hmore⟩ := flatBytes_inj type type' b b' _ _ ht ht' hb hb' htype
      obtain ⟨hothers, hend⟩ := flatFieldBytes_inj rest rest' c c' r s
        (by simpa [Fields.length] using hlen) hrest hrest' hc hc' hmore
      exact ⟨⟨js, name, type', rest', rfl, hfirst, hothers⟩, hend⟩

end

/-! ## Types that agree -/

section Transfer

variable {R : Option Nat → Prop} {refs : RefTables} {f : Option Nat → Option Nat}

/-- An array with elements is one that can have them. -/
theorem unit_prod_le {dim : List Exp} {n : List Int} (h : List.Forall₂ Exp.Admits dim n)
    (hpos : 0 < n.prod) :
    0 < (dim.map unitSize).prod ∧ (dim.map unitSize).prod ≤ n.prod := by
  induction h with
  | nil => exact ⟨by simp, by simp⟩
  | @cons e i dim n hei hrest ih =>
      rw [List.prod_cons] at hpos
      have hn : 0 ≤ n.prod := List.prod_nonneg (admits_nonneg hrest)
      have hi : 0 ≤ i := by
        cases e with
        | integerLiteral value =>
            obtain rfl : i = value := hei
            omega
        | variableSize => exact hei.1
      have hi' : 0 < i := lt_of_le_of_ne hi fun h0 => by simp [← h0] at hpos
      have hn' : 0 < n.prod := lt_of_le_of_ne hn fun h0 => by simp [← h0] at hpos
      obtain ⟨hunit, hle⟩ := ih hn'
      have hfirst : 0 < unitSize e ∧ unitSize e ≤ i := by
        cases e with
        | integerLiteral value =>
            obtain rfl : i = value := hei
            exact ⟨hi', le_rfl⟩
        | variableSize => exact ⟨Int.one_pos, hi'⟩
      rw [List.map_cons, List.prod_cons, List.prod_cons]
      exact ⟨mul_pos hfirst.1 hunit, mul_le_mul hfirst.2 hle hunit.le hi⟩

theorem hasElements_of_typed {dim : List Exp} {n : List Int} {a : List Value} {x : Value}
    (h : List.Forall₂ Exp.Admits dim n) (hlen : (a.length : Int) = n.prod)
    (hcount : isVariable dim = true → n.prod < 2 ^ 31) (hx : x ∈ a) : HasElements dim := by
  have hlength := List.length_pos_of_mem hx
  obtain ⟨hpos, hle⟩ := unit_prod_le h (by omega)
  exact ⟨hpos.ne', fun hvar => lt_of_le_of_lt hle (hcount hvar)⟩

/-- What is sent of a value of a type is what is sent of it as one of a type that agrees. -/
def Transfers (R : Option Nat → Prop) (refs : RefTables) (f : Option Nat → Option Nat)
    (t u : DataType) : Prop :=
  ∀ v : Value, WellTyped R t v → WellTyped R u v ∧ wire refs u v = wire refs t v ∧
    mapRefs f u v = mapRefs f t v ∧ (StringsFit t v → StringsFit u v)

/-- The names of types do not matter. -/
theorem transfers_of_head {t u : DataType} (h : Transfers R refs f t (head u)) :
    Transfers R refs f t u := by
  intro v hv
  obtain ⟨htyped, hwire, hmap, hstrings⟩ := h v hv
  rw [eq_of_head (f := fun u => WellTyped R u v) (fun _ _ => rfl) u] at htyped
  rw [eq_of_head (f := fun u => wire refs u v) (fun _ _ => by rw [wire]) u] at hwire
  rw [eq_of_head (f := fun u => mapRefs f u v) (fun _ _ => by rw [mapRefs]) u] at hmap
  rw [eq_of_head (f := fun u => StringsFit u v) (fun _ _ => by rw [StringsFit, StringsBelow]) u] at hstrings
  exact ⟨htyped, hwire, hmap, hstrings⟩

mutual

theorem transfers_of_agree : ∀ (t u : DataType), Agree t u → Transfers R refs f t u
  | .void, u, h => by
      refine transfers_of_head ?_
      rw [show head u = .void from h]
      exact fun v hv => ⟨hv, rfl, rfl, id⟩
  | .prim p, u, h => by
      refine transfers_of_head ?_
      rw [show head u = .prim p from h]
      exact fun v hv => ⟨hv, rfl, rfl, id⟩
  | .user _ type, u, h => by
      intro v hv
      rw [Agree] at h
      rw [wire, mapRefs, StringsFit, StringsBelow]
      exact transfers_of_agree type u h v hv
  | .struct fields, u, h => by
      obtain ⟨fields', hhead, hfields⟩ := h
      refine transfers_of_head ?_
      rw [hhead]
      rintro v ⟨vs, rfl, hvs⟩
      obtain ⟨htyped, hwire, hmap, hstrings⟩ := transfersFields_of_agree fields fields' hfields vs hvs
      exact ⟨⟨vs, rfl, htyped⟩, hwire, congrArg Value.struct hmap, hstrings⟩
  | .array elem dim, u, h => by
      obtain ⟨elem', hhead, helem⟩ := h
      refine transfers_of_head ?_
      rw [hhead]
      rintro v ⟨n, a, rfl, hdim, hlen, hcount, ha⟩
      have hall : ∀ x ∈ a, WellTyped R elem' x ∧ wire refs elem' x = wire refs elem x ∧
          mapRefs f elem' x = mapRefs f elem x ∧ (StringsFit elem x → StringsFit elem' x) :=
        fun x hx => transfers_of_agree elem elem'
          (helem (hasElements_of_typed hdim hlen hcount hx)) x (ha x hx)
      refine ⟨⟨n, a, rfl, hdim, hlen, hcount, fun x hx => (hall x hx).1⟩, ?_, ?_,
        fun hs x hx => (hall x hx).2.2.2 (hs x hx)⟩
      · rw [wire, wire, List.flatMap_congr fun x hx => (hall x hx).2.1]
      · rw [mapRefs, mapRefs, List.map_congr_left fun x hx => (hall x hx).2.2.1]

theorem transfersFields_of_agree : ∀ (fields fields' : Fields), AgreeFields fields fields' →
    ∀ vs : List Value, FieldsTyped R fields vs → FieldsTyped R fields' vs ∧
      wireFields refs fields' vs = wireFields refs fields vs ∧
      mapRefsFields f fields' vs = mapRefsFields f fields vs ∧
      (StringsFitFields fields vs → StringsFitFields fields' vs)
  | .nil, fields', h, vs, hvs => by
      obtain rfl : fields' = .nil := h
      exact ⟨hvs, rfl, rfl, id⟩
  | .cons _ _ type rest, fields', h, _, hvs => by
      obtain ⟨is, name, type', rest', rfl, htype, hrest⟩ := h
      obtain ⟨v, vs, rfl, hv, hvs⟩ := hvs
      obtain ⟨htyped, hwire, hmap, hstrings⟩ := transfers_of_agree type type' htype v hv
      obtain ⟨htyped', hwire', hmap', hstrings'⟩ := transfersFields_of_agree rest rest' hrest vs hvs
      exact ⟨⟨v, vs, rfl, htyped, htyped'⟩, by rw [wireFields, wireFields, hwire, hwire'],
        by rw [mapRefsFields, mapRefsFields, hmap, hmap'],
        fun hs => ⟨hstrings hs.1, hstrings' hs.2⟩⟩

end

end Transfer

/-- **Types that agree have the same wire format.** -/
theorem compatible_of_agree {t u : DataType} (h : Agree t u) : Compatible t u := by
  intro R refs toRef v hv hs ω w hw
  obtain ⟨hres, _, _, hwritten⟩ := cEncode_emits hv hs.below w hw
  refine ⟨wire refs t v, hres, hwritten, fun φ r rest hr hin => ?_⟩
  obtain ⟨htyped, hwire, hmap, hstrings⟩ :=
    transfers_of_agree t u h v hv
  rw [← hwire] at hin
  obtain ⟨hval, hok, hrest⟩ := (cEmitDecoder_receives refs toRef u v htyped (hstrings hs)).reads r
    rest (not_not.mpr hr) hin
  exact ⟨hval.trans hmap, not_not.mp hok, hrest⟩

/-! ## Values of which every byte is 1 -/

mutual

/-- The value with all variable dimensions 1 and only bytes 1 on the wire. -/
def ones : DataType → Value
  | .void => .unset
  | .prim .string => .string [1]
  | .prim .sample => .ref (some 0)
  | .prim p => .bits (ofBigEndian (List.replicate p.size 1))
  | .user _ type => ones type
  | .struct fields => .struct (onesFields fields)
  | .array elem dim =>
      .array (dim.map unitSize) (List.replicate (dim.map unitSize).prod.toNat (ones elem))

/-- The same of the fields, in order. -/
def onesFields : Fields → List Value
  | .nil => []
  | .cons _ _ type rest => ones type :: onesFields rest

end

/-- Tables in which the one sample type has the index with four bytes 1. -/
def onesRefs : RefTables where
  toIndex
    | none => 0
    | some _ => 0x01010101
  toRef i := if i = 0x01010101 then some 0 else none
  toIndex_none := rfl
  toRef_zero := by decide

theorem unitSize_nonneg (e : Exp) : 0 ≤ unitSize e := by
  cases e with
  | integerLiteral value => exact Int.natCast_nonneg value
  | variableSize => exact Int.one_nonneg

theorem unit_prod_nonneg (dim : List Exp) : 0 ≤ (dim.map unitSize).prod :=
  List.prod_nonneg (List.forall_mem_map.mpr fun e _ => unitSize_nonneg e)

theorem unit_admits (dim : List Exp) : List.Forall₂ Exp.Admits dim (dim.map unitSize) := by
  induction dim with
  | nil => exact .nil
  | cons e dim ih =>
      refine .cons ?_ ih
      cases e with
      | integerLiteral value => rfl
      | variableSize => exact ⟨by decide, by decide⟩

theorem unit_wireDims (dim : List Exp) : ∀ b ∈ wireDims dim (dim.map unitSize), b = 1 := by
  induction dim with
  | nil => simp [wireDims]
  | cons e dim ih =>
      cases e with
      | integerLiteral value => exact ih
      | variableSize =>
          intro b hb
          have hone : packed32 (toUnsigned (unitSize .variableSize)) = [1] := by decide
          rw [List.map_cons, wireDims, hone, List.singleton_append, List.mem_cons] at hb
          exact hb.elim id (ih b)

mutual

/-- The value is one of the type. -/
theorem ones_typed : ∀ t : DataType, Regular t →
    WellTyped (· = some 0) t (ones t) ∧ StringsFit t (ones t) ∧
      ∀ b ∈ wire onesRefs t (ones t), b = 1
  | .void, _ => ⟨rfl, trivial, by simp [wire]⟩
  | .prim p, _ => by
      have hall : ∀ n : Nat, ∀ b ∈ List.replicate n (1 : UInt8), b = 1 :=
        fun _ b hb => List.eq_of_mem_replicate hb
      cases p with
      | string => exact ⟨⟨[1], rfl, by simp⟩, show 1 < 2 ^ 31 - 1 by decide, hall 2⟩
      | sample => exact ⟨⟨some 0, rfl, rfl⟩, trivial, hall 4⟩
      | boolean => exact ⟨⟨_, rfl, by decide⟩, trivial, hall 1⟩
      | byte => exact ⟨⟨_, rfl, by decide⟩, trivial, hall 1⟩
      | short => exact ⟨⟨_, rfl, by decide⟩, trivial, hall 2⟩
      | int | float => exact ⟨⟨_, rfl, by decide⟩, trivial, hall 4⟩
      | long | double => exact ⟨⟨_, rfl, by decide⟩, trivial, hall 8⟩
  | .user _ type, h => by
      rw [ones, wire, StringsFit, StringsBelow]
      exact ones_typed type h
  | .struct fields, h => by
      obtain ⟨htyped, hstrings, hwire⟩ := onesFields_typed fields h
      exact ⟨⟨_, rfl, htyped⟩, hstrings, hwire⟩
  | .array elem dim, h => by
      obtain ⟨htyped, hstrings, hwire⟩ := ones_typed elem h.2
      refine ⟨⟨_, _, rfl, unit_admits dim, ?_, h.1, fun x hx => ?_⟩, fun x hx => ?_, fun b hb => ?_⟩
      · rw [List.length_replicate, Int.toNat_of_nonneg (unit_prod_nonneg dim)]
      · rw [List.eq_of_mem_replicate hx]
        exact htyped
      · rw [List.eq_of_mem_replicate hx]
        exact hstrings
      · rw [ones, wire, List.mem_append, List.mem_flatMap] at hb
        rcases hb with hb | ⟨x, hx, hb⟩
        · exact unit_wireDims dim b hb
        · rw [List.eq_of_mem_replicate hx] at hb
          exact hwire b hb

theorem onesFields_typed : ∀ fields : Fields, RegularFields fields →
    FieldsTyped (· = some 0) fields (onesFields fields) ∧
      StringsFitFields fields (onesFields fields) ∧
      ∀ b ∈ wireFields onesRefs fields (onesFields fields), b = 1
  | .nil, _ => ⟨rfl, trivial, by simp [wireFields]⟩
  | .cons _ _ type rest, h => by
      obtain ⟨htyped, hstrings, hwire⟩ := ones_typed type h.1
      obtain ⟨htyped', hstrings', hwire'⟩ := onesFields_typed rest h.2
      refine ⟨⟨_, _, rfl, htyped, htyped'⟩, ⟨hstrings, hstrings'⟩, fun b hb => ?_⟩
      rw [onesFields, wireFields, List.mem_append] at hb
      exact hb.elim (hwire b) (hwire' b)

end

/-- A dimension is known by its two sizes. -/
theorem dim_eq {dim dim' : List Exp} (h : dim.map signatureSize = dim'.map signatureSize)
    (h' : dim.map unitSize = dim'.map unitSize) : dim = dim' := by
  refine (List.map_injective_iff (f := fun e => (signatureSize e, unitSize e))).mpr ?_ ?_
  · intro e e' heq
    rw [Prod.mk.injEq] at heq
    cases e with
    | integerLiteral value =>
        cases e' with
        | integerLiteral value' => exact congrArg Exp.integerLiteral heq.1
        | variableSize =>
            have h0 : value = 0 := heq.1
            have h1 : (value : Int) = 1 := heq.2
            omega
    | variableSize =>
        cases e' with
        | integerLiteral value =>
            have h0 : 0 = value := heq.1
            have h1 : (1 : Int) = value := heq.2
            omega
        | variableSize => rfl
  · have hzip := congrArg₂ List.zip h h'
    rwa [List.zip_map', List.zip_map'] at hzip

mutual

/-- Types that are alike agree if these values are the same. -/
theorem agree_of_ones : ∀ t u : DataType, Resembles t u → ones t = ones u → Agree t u
  | .void, _, h, _ => h
  | .prim _, _, h, _ => h
  | .user _ type, u, h, heq => by
      rw [Resembles] at h
      rw [ones] at heq
      exact agree_of_ones type u h heq
  | .struct fields, u, h, heq => by
      obtain ⟨fields', hhead, hfields⟩ := h
      rw [← eq_of_head (f := ones) (fun _ _ => by rw [ones]) u, hhead, ones, ones,
        Value.struct.injEq] at heq
      exact ⟨fields', hhead, agreeFields_of_ones fields fields' hfields heq⟩
  | .array elem dim, u, h, heq => by
      obtain ⟨elem', dim', hhead, hdims, helem⟩ := h
      rw [← eq_of_head (f := ones) (fun _ _ => by rw [ones]) u, hhead, ones, ones,
        Value.array.injEq] at heq
      obtain rfl : dim = dim' := dim_eq hdims heq.1
      refine ⟨elem', hhead, fun hhas => agree_of_ones elem elem' helem ?_⟩
      have hne : (dim.map unitSize).prod.toNat ≠ 0 := by
        have := hhas.1
        have := unit_prod_nonneg dim
        omega
      exact (List.replicate_right_inj hne).mp heq.2

theorem agreeFields_of_ones : ∀ fields fields' : Fields, ResemblesFields fields fields' →
    onesFields fields = onesFields fields' → AgreeFields fields fields'
  | .nil, _, h, _ => h
  | .cons _ _ type rest, _, h, heq => by
      obtain ⟨is, name, type', rest', rfl, htype, hrest⟩ := h
      rw [onesFields, onesFields, List.cons.injEq] at heq
      exact ⟨is, name, type', rest', rfl, agree_of_ones type type' htype heq.1,
        agreeFields_of_ones rest rest' hrest heq.2⟩

end

/-- **Types with the same wire format agree**, when signatures can tell. -/
theorem agree_of_compatible {t u : DataType} (hres : Resembles t u) (ht : Regular t)
    (hu : Regular u) (h : Compatible t u) : Agree t u := by
  obtain ⟨htyped, hstrings, hones⟩ := ones_typed t ht
  obtain ⟨htyped', hstrings', hones'⟩ := ones_typed u hu
  refine agree_of_ones t u hres ?_
  -- the same bytes are the value of one type and begin with the value of the other
  obtain ⟨bs, -, hwritten, hread⟩ := h (· = some 0) onesRefs onesRefs.toRef (ones t) htyped hstrings
    bytewise (.empty bytewise) (fun _ => rfl)
  have hemit : Emits (cEncode onesRefs t (ones t)) 0 (wire onesRefs t (ones t)) :=
    cEncode_emits (ω := bytewise) htyped hstrings.below
  obtain rfl : bs = wire onesRefs t (ones t) := by
    obtain ⟨-, -, -, hemits⟩ := hemit (Writer.empty bytewise) (fun _ => rfl)
    exact List.append_cancel_left (hwritten.symm.trans hemits)
  let φ : Host := .of (-1) (by decide)
  let more := List.replicate (wire onesRefs u (ones u)).length (1 : UInt8)
  let rest := List.replicate (wire onesRefs t (ones t)).length (1 : UInt8)
  have hin : wire onesRefs t (ones t) ++ more = wire onesRefs u (ones u) ++ rest := by
    rw [List.eq_replicate_of_mem hones, List.eq_replicate_of_mem hones']
    simp only [more, rest, List.replicate_append_replicate]
    rw [Nat.add_comm]
  have hdecode := (hread φ (.ofBytes φ _) more rfl (Reader.ofBytes_unread φ _)).1
  have hseen : ∀ s : Option Nat, s = some 0 → onesRefs.seen onesRefs.toRef s = s := by
    rintro s rfl
    decide
  have hdecode' := ((cEmitDecoder_receives (φ := φ) onesRefs onesRefs.toRef u (ones u) htyped'
    hstrings').reads (.ofBytes φ (wire onesRefs t (ones t) ++ more)) rest (not_not.mpr rfl)
    ((Reader.ofBytes_unread φ _).trans hin)).1
  rw [mapRefs_eq hseen t _ htyped] at hdecode
  rw [mapRefs_eq hseen u _ htyped'] at hdecode'
  exact hdecode.symm.trans hdecode'

/-! ## Declarations with equal signatures -/

/-- **Two declarations with equal flat signatures have the same wire format if their types agree**,
and only then unless one of them has an array that is too large for an element in each of its
variable dimensions. -/
theorem compatible_of_flatBytes {spec spec' : Specification} {h h' : IterationOrder Intention}
    {d d' : Decl} (hd : d ∈ spec.resolve h) (hd' : d' ∈ spec'.resolve h') {bs : List UInt8}
    (hbs : flatBytes 2014 d.type = some bs) (hbs' : flatBytes 2014 d'.type = some bs) :
    (Agree d.type d'.type → Compatible d.type d'.type) ∧
      (Regular d.type → Regular d'.type → Compatible d.type d'.type → Agree d.type d'.type) := by
  have hres := (flatBytes_inj d.type d'.type bs bs [] [] (spec.accepted h hd)
    (spec'.accepted h' hd') hbs hbs' rfl).1
  exact ⟨compatible_of_agree, fun ht hu => agree_of_compatible hres ht hu⟩

/-- `sample int a[_, 3];` -/
def rowsSpec : Specification where
  decls := [⟨.sampleDecl, [], [97], .array (.prim .int) [[.variableSize, .integerLiteral 3]]⟩]
  parsed := by simp [ParsedType.Parsed]
  checked := by decide

theorem rowsSpec_resolve :
    rowsSpec.resolve ⟨id, fun _ => .refl _⟩ =
      [⟨.sampleDecl, [⟨[], [97]⟩], [97],
        .array (.prim .int) [.variableSize, .integerLiteral 3]⟩] :=
  Option.some.inj ((rowsSpec.resolve_eq _).symm.trans rfl)

/-- With and without a typedef for the elements. -/
theorem compatible_of_flatBytes_typedef :
    Compatible (.array (.user [116] (.prim .int)) [.variableSize, .integerLiteral 3])
      (.array (.prim .int) [.variableSize, .integerLiteral 3]) := by
  have hd : (⟨.sampleDecl, [⟨[], [97]⟩], [97], .array (.user [116] (.prim .int))
      [.variableSize, .integerLiteral 3]⟩ : Decl) ∈ typedefSpec.resolve ⟨id, fun _ => .refl _⟩ := by
    rw [typedefSpec_resolve]
    exact List.mem_cons_of_mem _ List.mem_cons_self
  have hd' : (⟨.sampleDecl, [⟨[], [97]⟩], [97],
      .array (.prim .int) [.variableSize, .integerLiteral 3]⟩ : Decl) ∈
        rowsSpec.resolve ⟨id, fun _ => .refl _⟩ := by
    rw [rowsSpec_resolve]
    exact List.mem_cons_self
  have hbytes : flatBytes 2014 (.array (.user [116] (.prim .int))
      [.variableSize, .integerLiteral 3]) = some [0x10, 2, 0, 3, 0x23] := by decide
  exact (compatible_of_flatBytes hd hd' hbytes (by decide)).1 ⟨.prim .int, rfl, fun _ => rfl⟩

/-! ### A dimension 0 -/

/-- `sample byte a[0];`, and with another dimension. -/
def byteArraySpec (dim : Exp) : Specification where
  decls := [⟨.sampleDecl, [], [97], .array (.prim .byte) [[dim]]⟩]
  parsed := by simp [ParsedType.Parsed]
  checked := by rfl

theorem byteArraySpec_resolve (dim : Exp) :
    (byteArraySpec dim).resolve ⟨id, fun _ => .refl _⟩ =
      [⟨.sampleDecl, [⟨[], [97]⟩], [97], .array (.prim .byte) [dim]⟩] :=
  Option.some.inj (((byteArraySpec dim).resolve_eq _).symm.trans rfl)

/-- The decoder for `byte a[_]` takes a number that the encoder for `byte a[0]` does not send. -/
theorem not_compatible_zero :
    ∃ d ∈ (byteArraySpec (.integerLiteral 0)).resolve ⟨id, fun _ => .refl _⟩,
      ∃ d' ∈ (byteArraySpec .variableSize).resolve ⟨id, fun _ => .refl _⟩,
        flatBytes 2014 d.type = some [0x10, 1, 0, 0x21] ∧
          flatBytes 2014 d'.type = some [0x10, 1, 0, 0x21] ∧ ¬ Compatible d.type d'.type := by
  rw [byteArraySpec_resolve, byteArraySpec_resolve]
  refine ⟨_, List.mem_cons_self, _, List.mem_cons_self, by decide, by decide, fun h => ?_⟩
  have hres : Resembles (.array (.prim .byte) [.integerLiteral 0])
      (.array (.prim .byte) [.variableSize]) := ⟨_, _, rfl, rfl, rfl⟩
  obtain ⟨elem, heq, -⟩ := agree_of_compatible hres
    ⟨by simp [Counts, isVariable, Exp.isVariable], trivial⟩
    ⟨by simp [Counts, unitSize], trivial⟩ h
  simp [head] at heq

end LabComm.Compiler
