import LabComm.Python.Codec

set_option autoImplicit false

/-! # Intentions read back

`decode_intentions` sorts what it reads, so that what `encode_intentions` writes comes back if
and only if it was sorted already and its lengths have at most 32 bits.
-/

namespace LabComm.Python

open Library

/-! ## Strings that begin with another string -/

theorem isValidUTF8_of_append {l : List Char} {b : ByteArray}
    (h : ByteArray.IsValidUTF8 (l.utf8Encode ++ b)) : ByteArray.IsValidUTF8 b := by
  induction l with
  | nil => simpa using h
  | cons c l ih =>
      rw [List.utf8Encode_cons, ByteArray.append_assoc] at h
      exact ih (ByteArray.isValidUTF8_utf8Encode_singleton_append_iff.mp h)

theorem exists_append_of_utf8 {s t : String} {bs : List UInt8} (h : utf8 t = utf8 s ++ bs) :
    ∃ u, t = s ++ u := by
  have hb : t.toByteArray = s.toList.utf8Encode ++ (⟨bs.toArray⟩ : ByteArray) := by
    rw [String.utf8Encode_toList]
    apply ByteArray.ext
    apply Array.toList_inj.mp
    simpa [utf8] using h
  have hvalid := isValidUTF8_of_append (hb ▸ t.isValidUTF8)
  refine ⟨⟨⟨bs.toArray⟩, hvalid⟩, ?_⟩
  apply String.toByteArray_inj.mp
  rw [hb, String.utf8Encode_toList]
  rfl

theorem not_append_lt {α : Type} [LinearOrder α] (l m : List α) : ¬ l ++ m < l := by
  induction l with
  | nil => simp
  | cons x l ih =>
      rw [List.cons_append, List.cons_lt_cons_iff]
      rintro (h | ⟨_, h⟩)
      · exact lt_irrefl x h
      · exact ih h

/-- A string comes after those that it begins with. -/
theorem not_lt_of_utf8_prefix {s t : String} {bs : List UInt8} (h : utf8 t = utf8 s ++ bs) :
    ¬ t < s := by
  obtain ⟨u, rfl⟩ := exists_append_of_utf8 h
  rw [String.lt_iff_toList_lt, String.toList_append]
  exact not_append_lt _ _

/-! ## Pairs -/

/-- A key and a value, as `decode_intentions` reads them. -/
def decodePair : Parser PyError (String × String) := do
  let key ← decodeString
  let val ← decodeString
  pure (key, val)

/-- Both strings of a pair are short enough. -/
def PairFits (p : String × String) : Prop := StringFits p.1 ∧ StringFits p.2

theorem decodePair_readsBack (p : String × String) :
    ReadsBack decodePair (pairBytes p) p (PairFits p) := by
  have hval := (decodeString_readsBack p.2).map (f := fun val => (p.1, val))
    fun val h => congrArg Prod.snd h
  rw [map_eq_pure_bind] at hval
  refine (decodeString_readsBack p.1).bind hval ?_
  intro key s r q _ h
  obtain ⟨val, r', _, hpure⟩ := run_bind_eq_ok.mp h
  have hpure' : (Except.ok ((key, val), r') : Except PyError _) = .ok (p, q) := hpure
  simp only [Except.ok.injEq, Prod.mk.injEq] at hpure'
  rw [← hpure'.1]

/-- A string that is read where another one was written begins it. -/
theorem decodeString_prefix {s t : String} {rest q : List UInt8}
    (h : decodeString.run (stringBytes s ++ rest) = .ok (t, q)) :
    ∃ bs, utf8 s = utf8 t ++ bs := by
  unfold decodeString stringBytes at h
  obtain ⟨n, r, hn, hrun⟩ := run_bind_eq_ok.mp h
  rw [List.append_assoc, decodePacked32_consumes, Except.ok.injEq, Prod.mk.injEq] at hn
  obtain ⟨rfl, rfl⟩ := hn
  obtain ⟨bs, r, hbs, hdecode⟩ := run_bind_eq_ok.mp hrun
  obtain ⟨hlen, happ⟩ := readBytes_length hbs
  split at hdecode
  · rename_i t' ht'
    have hpure : (Except.ok (t', r) : Except PyError _) = .ok (t, q) := hdecode
    simp only [Except.ok.injEq, Prod.mk.injEq] at hpure
    rw [hpure.1, decodeUtf8_eq_some] at ht'
    have hle : bs.length ≤ (utf8 s).length := by
      rw [hlen]
      exact Nat.mod_le _ _
    have hbs : bs <+: utf8 s ++ rest := happ ▸ List.prefix_append bs r
    obtain ⟨cs, hcs⟩ := List.prefix_of_prefix_length_le hbs (List.prefix_append _ _) hle
    exact ⟨cs, by rw [ht', hcs]⟩
  · exact absurd hdecode (by simp [throw, throwThe, MonadExceptOf.throw, StateT.run,
      StateT.lift])

/-! ## Lists of pairs -/

/-- Short pairs with increasing keys are the only ones that come back in any order: a key that
was cut off would come before all the others. -/
theorem decodePairs_fit {l l' : Intentions String} (hl : Increasing l) (hperm : l'.Perm l)
    {rest q : List UInt8}
    (h : (times l.length decodePair).run (l.flatMap pairBytes ++ rest) = .ok (l', q)) :
    ∀ p ∈ l, PairFits p := by
  induction l generalizing l' with
  | nil => simp
  | cons p l ih =>
      rw [List.length_cons, times] at h
      obtain ⟨x, r, hx, hrest⟩ := run_bind_eq_ok.mp h
      obtain ⟨xs, r', hxs, hpure⟩ := run_bind_eq_ok.mp hrest
      have hpure' : (Except.ok (x :: xs, r') : Except PyError _) = .ok (l', q) := hpure
      simp only [Except.ok.injEq, Prod.mk.injEq] at hpure'
      rw [← hpure'.1] at hperm
      rw [Increasing, List.pairwise_cons] at hl
      rw [List.flatMap_cons, List.append_assoc] at hx
      -- the first pair that was read is one of the list, and its key begins the first key
      have hkey : ¬ p.1 < x.1 := by
        obtain ⟨key, r1, hkey, hval⟩ := run_bind_eq_ok.mp hx
        obtain ⟨val, r2, _, hpair⟩ := run_bind_eq_ok.mp hval
        have hpair' : (Except.ok ((key, val), r2) : Except PyError _) = .ok (x, r) := hpair
        simp only [Except.ok.injEq, Prod.mk.injEq] at hpair'
        rw [pairBytes, List.append_assoc] at hkey
        obtain ⟨bs, hbs⟩ := decodeString_prefix hkey
        rw [← hpair'.1]
        exact not_lt_of_utf8_prefix hbs
      have hxp : x = p := by
        rcases List.mem_cons.mp (hperm.subset List.mem_cons_self) with hx | hx
        · exact hx
        · exact absurd (hl.1 x hx) hkey
      subst hxp
      have hfits : PairFits x := by
        by_contra hno
        exact (decodePair_readsBack x).misses hno _ _ hx
      rw [(decodePair_readsBack x).consumes hfits, Except.ok.injEq, Prod.mk.injEq] at hx
      rw [← hx.2, hpure'.2] at hxs
      intro y hy
      rcases List.mem_cons.mp hy with rfl | hy
      · exact hfits
      · exact ih hl.2 hperm.cons_inv hxs y hy

/-- The number of intentions and the lengths of their strings have at most 32 bits. -/
def IntentionsFit (l : Intentions String) : Prop :=
  l.length < 2 ^ 32 ∧ ∀ p ∈ l, PairFits p

theorem sortedTuple_perm (l : Intentions String) : (sortedTuple l).Perm (dict l) :=
  List.perm_insertionSort pairLe (dict l)

theorem decodeIntentions_readsBack (l : Intentions String) :
    ReadsBack decodeIntentions (encodeIntentions l) l (IntentionsFit l ∧ Increasing l) := by
  unfold encodeIntentions
  rw [encodeIntentionsFrom_string]
  constructor
  · rintro ⟨⟨hlen, hfits⟩, hl⟩
    have hpairs := (ReadsBack.times fun p (_ : p ∈ l) => decodePair_readsBack p).consumes hfits
    have hsorted := hpairs.map sortedTuple
    rw [sortedTuple_of_increasing hl, map_eq_pure_bind] at hsorted
    exact ((decodePacked32_readsBack l.length).consumes hlen).bind hsorted
  · intro hno rest q h
    obtain ⟨n, r, hn, hrun⟩ := run_bind_eq_ok.mp h
    obtain ⟨l', r', hl', hpure⟩ := run_bind_eq_ok.mp hrun
    have hpure' : (Except.ok (sortedTuple l', r') : Except PyError _) = .ok (l, q) := hpure
    simp only [Except.ok.injEq, Prod.mk.injEq] at hpure'
    rw [List.append_assoc, decodePacked32_consumes, Except.ok.injEq, Prod.mk.injEq] at hn
    obtain ⟨rfl, rfl⟩ := hn
    have hinc : Increasing l := hpure'.1 ▸ sortedTuple_increasing l'
    have hperm : l.Perm (dict l') := hpure'.1 ▸ sortedTuple_perm l'
    -- no pair was lost, so that all of them were counted
    have hlen := times_length hl'
    have hle := dict_length_le l'
    have hmod := Nat.mod_le l.length (2 ^ 32)
    have heq := hperm.length_eq
    have hlt := Nat.mod_lt l.length (show 0 < 2 ^ 32 by norm_num)
    have hcount : l.length % 2 ^ 32 = l.length := by omega
    rw [dict_of_nodup (nodup_of_dict_length (by omega))] at hperm
    rw [hcount] at hl'
    exact hno ⟨⟨by omega, decodePairs_fit hinc hperm.symm hl'⟩, hinc⟩

end LabComm.Python
