import LabComm.C.Signature
import Mathlib.Data.Vector.Basic

set_option autoImplicit false

/-! # Dumping and comparing signatures

`labcomm2014_signature_dump` writes the flattening of a signature into a buffer. The position is
shared by all nested calls, the pointer into the buffer is passed by value, and what the nested
calls return is dropped. What the result says about the capacity and about malformed entries is
compared with the flattening, which is what `map_signature` goes through.
-/

namespace LabComm.C.SignatureDump

/-! ## Signatures -/

/-- `struct labcomm2014_signature_data[]`, with entries that have neither data nor a signature. -/
inductive Treedata where
  | sigdefEnd
  | sigdefBytes (b : UInt8) (bs : List UInt8) (rest : Treedata)
  | sigdefSignature (treedata : Treedata) (rest : Treedata)
  | neither (rest : Treedata)

/-- `map_signature` with `flatten`; a malformed entry ends the loop over its own array only. -/
def mapSignature {m : Type → Type} [Monad m] (f : UInt8 → m Unit) : Treedata → m Unit
  | .sigdefEnd => pure ()
  | .sigdefBytes b bs rest => do
      (b :: bs).forM f
      mapSignature f rest
  | .sigdefSignature treedata rest => do
      mapSignature f treedata
      mapSignature f rest
  | .neither _ => pure ()

/-- The flattening. -/
def Treedata.flat : Treedata → List UInt8
  | sigdefEnd => []
  | sigdefBytes b bs rest => b :: bs ++ rest.flat
  | sigdefSignature treedata rest => treedata.flat ++ rest.flat
  | neither _ => []

/-- The array itself has a malformed entry. -/
def Treedata.bails : Treedata → Bool
  | sigdefEnd => false
  | sigdefBytes _ _ rest => rest.bails
  | sigdefSignature _ rest => rest.bails
  | neither _ => true

/-- There is a malformed entry at any depth. -/
def Treedata.malformed : Treedata → Bool
  | sigdefEnd => false
  | sigdefBytes _ _ rest => rest.malformed
  | sigdefSignature treedata rest => treedata.malformed || rest.malformed
  | neither _ => true

theorem Treedata.malformed_of_bails {t : Treedata} (h : t.bails = true) : t.malformed = true := by
  induction t with
  | sigdefEnd => cases h
  | sigdefBytes b bs rest ih => exact ih h
  | sigdefSignature treedata rest _ ih => rw [malformed, ih h, Bool.or_true]
  | neither rest _ => rfl

/-- `map_signature` goes through the flattening. -/
theorem mapSignature_eq {m : Type → Type} [Monad m] [LawfulMonad m] (f : UInt8 → m Unit)
    (t : Treedata) : mapSignature f t = t.flat.forM f := by
  induction t with
  | sigdefEnd => rfl
  | sigdefBytes b bs rest ih =>
      rw [mapSignature, Treedata.flat, ih]
      exact List.forM_append.symm
  | sigdefSignature treedata rest iht ih =>
      rw [mapSignature, Treedata.flat, iht, ih]
      exact List.forM_append.symm
  | neither rest _ => rfl

mutual

/-- The entries of a generated signature, none of which is malformed. -/
def signatureTreedata : Signature → Treedata
  | .mk _ _ _ treedata => dataTreedata treedata

/-- The same of an array. -/
def dataTreedata : SignatureData → Treedata
  | .sigdefEnd => .sigdefEnd
  | .sigdefBytes b bs rest => .sigdefBytes b bs (dataTreedata rest)
  | .sigdefSignature s rest => .sigdefSignature (signatureTreedata s) (dataTreedata rest)

end

mutual

theorem signature_wellFormed (s : Signature) : (signatureTreedata s).malformed = false := by
  match s with
  | .mk _ _ _ treedata => exact data_wellFormed treedata

theorem data_wellFormed (d : SignatureData) : (dataTreedata d).malformed = false := by
  match d with
  | .sigdefEnd => rfl
  | .sigdefBytes _ _ rest => exact data_wellFormed rest
  | .sigdefSignature s rest =>
      rw [dataTreedata, Treedata.malformed, signature_wellFormed s, data_wellFormed rest]
      rfl

end

section Generated

variable {m : Type → Type} [Monad m] (f : UInt8 → Option Signature → m Unit)

mutual

/-- On generated signatures the two models of `map_signature` agree. -/
theorem mapSignature_generated (s : Signature) : C.mapSignature f true s =
    mapSignature (fun b => f b none) (signatureTreedata s) := by
  match s with
  | .mk _ _ _ treedata => exact mapSignatureData_generated treedata

theorem mapSignatureData_generated (d : SignatureData) : C.mapSignatureData f true d =
    mapSignature (fun b => f b none) (dataTreedata d) := by
  match d with
  | .sigdefEnd => rfl
  | .sigdefBytes b bs rest =>
      rw [C.mapSignatureData, dataTreedata, mapSignature, mapSignatureData_generated rest]
  | .sigdefSignature s rest =>
      rw [C.mapSignatureData, dataTreedata, mapSignature, mapSignature_generated s,
        mapSignatureData_generated rest]
      rfl

end

end Generated

/-! ## The code -/

/-- The buffer and `*len` -/
structure Dump where
  buf : List UInt8
  len : Int

/-- A call that writes into the buffer; `none` if it writes outside. -/
abbrev Dumper (α : Type) := StateT Dump Option α

/-- `*buf++ = b; ++*len;` -/
def write (buf : Int) (b : UInt8) : Dumper Unit := do
  let d ← get
  if 0 ≤ buf ∧ buf < d.buf.length then
    set (Dump.mk (d.buf.set buf.toNat b) (d.len + 1))
  else
    failure

/-- The loop over the bytes of an entry; the pointer after them. -/
def copyBytes (buflen : Int) : List UInt8 → Int → Dumper Int
  | [], buf => pure buf
  | b :: bs, buf => do
      if (← get).len < buflen then
        write buf b
        copyBytes buflen bs (buf + 1)
      else
        pure buf

/-- `sig_dump_checked` -/
def sigDumpChecked (buflen : Int) : Treedata → Int → Dumper Bool
  | .sigdefEnd, _ => do
      let d ← get
      pure (decide (buflen ≤ d.len))
  | .sigdefBytes b bs rest, buf => do
      let d ← get
      if d.len < buflen then
        let buf ← copyBytes buflen (b :: bs) buf
        sigDumpChecked buflen rest buf
      else
        pure (decide (buflen ≤ d.len))
  | .sigdefSignature treedata rest, buf => do
      let d ← get
      if d.len < buflen then
        let tmplen := d.len
        let _ ← sigDumpChecked buflen treedata buf
        let innerLen := (← get).len - tmplen
        sigDumpChecked buflen rest (buf + innerLen)
      else
        pure (decide (buflen ≤ d.len))
  | .neither _, _ => do
      let d ← get
      if d.len < buflen then
        pure true
      else
        pure (decide (buflen ≤ d.len))

/-- `labcomm2014_signature_dump`, with `*len` at the call. -/
def signatureDump (signature : Treedata) (buf : List UInt8) (len : Int) : Option (Bool × Dump) :=
  (sigDumpChecked len signature 0).run ⟨buf, 0⟩

/-- `labcomm2014_signature_cmp`, with what is in its buffers at first. -/
def signatureCmp (s1 s2 : Treedata) (buf1 buf2 : List UInt8) : Option Bool := do
  let (res1, d1) ← signatureDump s1 buf1 512
  let (res2, d2) ← signatureDump s2 buf2 512
  if res1 || res2 then
    pure false
  else
    pure (decide (d1.len = d2.len) &&
      decide (d1.buf.take d1.len.toNat = d2.buf.take d1.len.toNat))

/-! ## What is written -/

/-- What is left of a buffer, which had `pre` in front of the pointer and `post` behind it, after as
many of the bytes as there is room for. -/
def filled (pre post bs : List UInt8) : Dump :=
  ⟨pre ++ bs.take post.length ++ post.drop bs.length, (pre ++ bs.take post.length).length⟩

theorem filled_nil (pre post : List UInt8) : filled pre post [] = ⟨pre ++ post, pre.length⟩ := by
  rw [filled, List.take_nil, List.append_nil, List.length_nil, List.drop_zero]

theorem filled_full (pre bs : List UInt8) : filled pre [] bs = ⟨pre, pre.length⟩ := by
  rw [filled, List.length_nil, List.take_zero, List.drop_nil, List.append_nil, List.append_nil]

theorem filled_append (pre post bs cs : List UInt8) : filled pre post (bs ++ cs) =
    filled (pre ++ bs.take post.length) (post.drop bs.length) cs := by
  simp only [filled, List.take_append, List.length_drop, List.drop_drop, List.length_append,
    List.append_assoc]

theorem filled_cons (pre post bs : List UInt8) (x b : UInt8) :
    filled pre (x :: post) (b :: bs) = filled (pre ++ [b]) post bs := by
  have h := filled_append pre (x :: post) [b] bs
  rwa [List.length_cons, List.take_succ_cons, List.take_nil] at h

/-- Nothing is written where there is no room. -/
theorem sigDumpChecked_full {buflen : Int} {d : Dump} (h : buflen ≤ d.len) (t : Treedata)
    (buf : Int) : (sigDumpChecked buflen t buf).run d = some (true, d) := by
  have hroom : ¬ d.len < buflen := not_lt.mpr h
  have hdone : (pure (decide (buflen ≤ d.len)) : Dumper Bool).run d = some (true, d) := by
    rw [decide_eq_true h]
    rfl
  cases t with
  | sigdefEnd => exact hdone
  | sigdefBytes b bs rest =>
      show (if d.len < buflen then _ else _ : Dumper Bool).run d = _
      rw [if_neg hroom, hdone]
  | sigdefSignature treedata rest =>
      show (if d.len < buflen then _ else _ : Dumper Bool).run d = _
      rw [if_neg hroom, hdone]
  | neither rest =>
      show (if d.len < buflen then _ else _ : Dumper Bool).run d = _
      rw [if_neg hroom, hdone]

section Writing

variable {pre post : List UInt8} {buflen : Int} (hlen : buflen = (pre ++ post).length)

include hlen

theorem lt_buflen : (pre.length : Int) < buflen ↔ post ≠ [] := by
  rw [hlen, List.length_append, ← List.length_pos_iff]
  omega

omit hlen in
theorem write_run (b x : UInt8) :
    (write pre.length b).run ⟨pre ++ x :: post, pre.length⟩ =
      some ((), ⟨(pre ++ [b]) ++ post, ((pre ++ [b]).length : Int)⟩) := by
  have hset : (pre ++ x :: post).set pre.length b = pre ++ [b] ++ post := by
    rw [List.set_append_right _ _ le_rfl, Nat.sub_self, List.set_cons_zero, List.append_assoc]
    rfl
  have hin : (0 : Int) ≤ pre.length ∧ (pre.length : Int) < (pre ++ x :: post).length := by
    rw [List.length_append, List.length_cons]
    omega
  show (if (0 : Int) ≤ pre.length ∧ (pre.length : Int) < (pre ++ x :: post).length then _
    else failure : Dumper Unit).run _ = _
  rw [if_pos hin, List.length_append]
  show some ((), Dump.mk ((pre ++ x :: post).set pre.length b) (pre.length + 1)) = _
  rw [hset]
  rfl

theorem copyBytes_run (bs : List UInt8) :
    (copyBytes buflen bs pre.length).run ⟨pre ++ post, pre.length⟩ =
      some (((pre ++ bs.take post.length).length : Int), filled pre post bs) := by
  induction bs generalizing pre post with
  | nil =>
      rw [filled_nil, List.take_nil, List.append_nil]
      rfl
  | cons b bs ih =>
      show (if (pre.length : Int) < buflen then _ else pure _ : Dumper Int).run _ = _
      cases post with
      | nil =>
          rw [if_neg fun h => (lt_buflen hlen).mp h rfl, filled_full, List.append_nil,
            List.length_nil, List.take_zero, List.append_nil]
          rfl
      | cons x post =>
          have hlen' : buflen = (pre ++ [b] ++ post).length := by
            rw [hlen, List.append_assoc]
            simp only [List.length_append, List.length_cons, List.length_nil]
            omega
          rw [if_pos ((lt_buflen hlen).mpr (List.cons_ne_nil x post)), StateT.run_bind, write_run]
          have hnext : ((pre.length : Int) + 1) = (pre ++ [b]).length := by
            rw [List.length_append, List.length_singleton, Nat.cast_add, Nat.cast_one]
          show (copyBytes buflen bs (pre.length + 1)).run _ = _
          rw [hnext, ih hlen', filled_cons, List.append_assoc]
          rfl

/-- The bytes that are written move the border between `pre` and `post`. -/
theorem moved (bs : List UInt8) :
    buflen = (pre ++ bs.take post.length ++ post.drop bs.length).length := by
  rw [hlen]
  simp only [List.length_append, List.length_take, List.length_drop]
  omega

omit hlen in
theorem room_left (bs cs : List UInt8) : decide ((post.drop bs.length).length ≤ cs.length) =
    decide (post.length ≤ (bs ++ cs).length) := by
  rw [List.length_drop, List.length_append]
  exact decide_eq_decide.mpr (by omega)

theorem full_run (hpost : post = []) (t : Treedata) :
    (sigDumpChecked buflen t pre.length).run ⟨pre ++ post, pre.length⟩ =
      some (decide (post.length ≤ t.flat.length) || t.bails, filled pre post t.flat) := by
  have hfull : buflen ≤ (Dump.mk (pre ++ post) pre.length).len := by
    rw [hlen, hpost, List.append_nil]
  rw [sigDumpChecked_full hfull, hpost, filled_full, List.append_nil, List.length_nil,
    decide_eq_true (Nat.zero_le _), Bool.true_or]

/-- **What is written** is as much of the flattening as there is room for; the result is about the
room that is left, and about the array itself. -/
theorem sigDumpChecked_run (t : Treedata) :
    (sigDumpChecked buflen t pre.length).run ⟨pre ++ post, pre.length⟩ =
      some (decide (post.length ≤ t.flat.length) || t.bails, filled pre post t.flat) := by
  induction t generalizing pre post with
  | sigdefEnd =>
      have hend : decide (buflen ≤ (pre.length : Int)) = decide (post.length ≤ 0) := by
        rw [hlen, List.length_append]
        exact decide_eq_decide.mpr (by omega)
      show some (decide (buflen ≤ (pre.length : Int)), Dump.mk (pre ++ post) pre.length) = _
      rw [hend, Treedata.flat, filled_nil, Treedata.bails, Bool.or_false]
      rfl
  | sigdefBytes b bs rest ih =>
      by_cases hpost : post = []
      · exact full_run hlen hpost _
      show (if (pre.length : Int) < buflen then copyBytes buflen (b :: bs) pre.length >>= fun buf =>
        sigDumpChecked buflen rest buf else _ : Dumper Bool).run _ = _
      rw [if_pos ((lt_buflen hlen).mpr hpost), StateT.run_bind, copyBytes_run hlen]
      show (sigDumpChecked buflen rest ((pre ++ (b :: bs).take post.length).length : Int)).run
        (filled pre post (b :: bs)) = _
      rw [filled, ih (moved hlen (b :: bs)), Treedata.flat, filled_append, room_left]
      rfl
  | sigdefSignature treedata rest iht ih =>
      by_cases hpost : post = []
      · exact full_run hlen hpost _
      -- the inner call starts at the pointer, and its length is added afterwards
      have hinner : ((pre.length : Int) + (((pre ++ treedata.flat.take post.length).length : Int) -
          pre.length)) = (pre ++ treedata.flat.take post.length).length := by
        omega
      show (if (pre.length : Int) < buflen then sigDumpChecked buflen treedata pre.length >>=
        fun _ => get >>= fun d => sigDumpChecked buflen rest (pre.length + (d.len - pre.length))
        else _ : Dumper Bool).run _ = _
      rw [if_pos ((lt_buflen hlen).mpr hpost), StateT.run_bind, iht hlen]
      show (sigDumpChecked buflen rest (pre.length +
        (((pre ++ treedata.flat.take post.length).length : Int) - pre.length))).run
          (filled pre post treedata.flat) = _
      rw [hinner, filled, ih (moved hlen treedata.flat), Treedata.flat, filled_append, room_left]
      rfl
  | neither rest _ =>
      by_cases hpost : post = []
      · exact full_run hlen hpost _
      show (if (pre.length : Int) < buflen then pure true else _ : Dumper Bool).run _ = _
      rw [if_pos ((lt_buflen hlen).mpr hpost), Treedata.flat, filled_nil, Treedata.bails,
        Bool.or_true]
      rfl

end Writing

/-! ## Dump and compare -/

/-- The result and what is in the buffer after a dump. -/
theorem signatureDump_run (t : Treedata) {n : Nat} (buf : List.Vector UInt8 n) {len : Int}
    (hn : n = len.toNat) : signatureDump t buf.1 len =
      some (decide (len ≤ t.flat.length) || t.bails, filled [] buf.1 t.flat) := by
  have hlength : buf.1.length = n := buf.2
  by_cases hneg : len < 0
  · have hempty : buf.1 = [] := List.length_eq_zero_iff.mp (by omega)
    have hroom : len ≤ (⟨buf.1, 0⟩ : Dump).len := by
      show len ≤ 0
      omega
    have hfull := sigDumpChecked_full hroom t 0
    rw [signatureDump, hfull, hempty, filled_full, decide_eq_true (by omega), Bool.true_or]
    rfl
  · have hlen : len = (([] : List UInt8) ++ buf.1).length := by
      rw [List.nil_append, hlength]
      omega
    have hrun := sigDumpChecked_run hlen t
    have hdecide : decide (buf.1.length ≤ t.flat.length) = decide (len ≤ t.flat.length) :=
      decide_eq_decide.mpr (by omega)
    rw [hdecide] at hrun
    exact hrun

/-- The dump is right: the buffer starts with as much of the flattening as fits, `*len` is how much,
and the result is about what did not fit and about malformed entries. -/
def DumpIsRight (t : Treedata) (len : Int) (buf : List.Vector UInt8 len.toNat) : Prop :=
  ∃ r d, signatureDump t buf.1 len = some (r, d) ∧
    d.buf = t.flat.take len.toNat ++ buf.1.drop t.flat.length ∧
      d.len = (t.flat.take len.toNat).length ∧
        (r = true ↔ len < t.flat.length ∨ t.malformed = true)

/-- The comparison is right. -/
def CmpIsRight (s1 s2 : Treedata) (buf1 buf2 : List.Vector UInt8 512) : Prop :=
  ∃ r, signatureCmp s1 s2 buf1.1 buf2.1 = some r ∧ (r = true ↔ s1.flat = s2.flat)

/-- A signature that is dumped into a larger buffer: its flattening is shorter than the capacity,
and its own array has no malformed entry. -/
def Treedata.Fits (t : Treedata) (len : Int) : Prop := t.flat.length < len ∧ t.bails = false

theorem dump_result (t : Treedata) (len : Int) :
    (decide (len ≤ t.flat.length) || t.bails) = false ↔ t.Fits len := by
  rw [Bool.or_eq_false_iff, decide_eq_false_iff_not, not_le, Treedata.Fits]

theorem dumpIsRight_iff (t : Treedata) (len : Int) (buf : List.Vector UInt8 len.toNat) :
    DumpIsRight t len buf ↔ ((t.flat.length : Int) = len → t.malformed = true) ∧
      (t.flat.length < len → t.malformed = true → t.bails = true) := by
  have hlength : buf.1.length = len.toNat := buf.2
  have hwritten : DumpIsRight t len buf ↔
      ((decide (len ≤ t.flat.length) || t.bails) = true ↔
        len < t.flat.length ∨ t.malformed = true) := by
    rw [DumpIsRight, signatureDump_run t buf rfl, filled, hlength]
    constructor
    · rintro ⟨r, d, hrun, _, _, hr⟩
      cases hrun
      exact hr
    · exact fun hr => ⟨_, _, rfl, rfl, rfl, hr⟩
  have hbails := t.malformed_of_bails
  rw [hwritten, Bool.or_eq_true, decide_eq_true_iff]
  constructor
  · intro h
    refine ⟨fun heq => (h.mp (.inl heq.ge)).resolve_left (by omega), fun hlt hmal => ?_⟩
    exact (h.mpr (.inr hmal)).resolve_left (by omega)
  · rintro ⟨hexact, hinner⟩
    constructor
    · rintro (hle | hb)
      · by_cases heq : (t.flat.length : Int) = len
        · exact .inr (hexact heq)
        · exact .inl (by omega)
      · exact .inr (hbails hb)
    · rintro (hlt | hmal)
      · exact .inl hlt.le
      · by_cases hle : len ≤ t.flat.length
        · exact .inl hle
        · exact .inr (hinner (by omega) hmal)

theorem filled_fits {t : Treedata} {buf : List.Vector UInt8 512} (h : t.Fits 512) :
    filled [] buf.1 t.flat = ⟨t.flat ++ buf.1.drop t.flat.length, t.flat.length⟩ := by
  have hlength : buf.1.length = 512 := buf.2
  have hlt := h.1
  have htake : t.flat.take buf.1.length = t.flat := List.take_of_length_le (by omega)
  rw [filled, htake, List.nil_append]

/-- The comparison of two dumps that fit. -/
theorem cmp_of_fits {s1 s2 : Treedata} {buf1 buf2 : List.Vector UInt8 512} (h1 : s1.Fits 512)
    (h2 : s2.Fits 512) :
    signatureCmp s1 s2 buf1.1 buf2.1 = some (decide (s1.flat = s2.flat)) := by
  have hsame : ∀ l1 l2 : List UInt8,
      (decide ((s1.flat.length : Int) = s2.flat.length) &&
        decide ((s1.flat ++ l1).take (s1.flat.length : Int).toNat =
          (s2.flat ++ l2).take (s1.flat.length : Int).toNat)) = decide (s1.flat = s2.flat) := by
    intro l1 l2
    rw [Int.toNat_natCast, List.take_left, ← Bool.decide_and]
    refine decide_eq_decide.mpr ⟨?_, fun heq => ?_⟩
    · rintro ⟨hlength, htake⟩
      rwa [Nat.cast_inj.mp hlength, List.take_left] at htake
    · rw [heq, List.take_left]
      exact ⟨rfl, rfl⟩
  rw [signatureCmp, signatureDump_run s1 buf1 rfl, signatureDump_run s2 buf2 rfl,
    (dump_result s1 512).mpr h1, (dump_result s2 512).mpr h2, filled_fits h1, filled_fits h2]
  exact congrArg some (hsame _ _)

/-- Where one of them does not fit, the signatures are not equal. -/
theorem cmp_of_not_fits {s1 s2 : Treedata} {buf1 buf2 : List.Vector UInt8 512}
    (h : ¬ (s1.Fits 512 ∧ s2.Fits 512)) : signatureCmp s1 s2 buf1.1 buf2.1 = some false := by
  have hresult : ((decide ((512 : Int) ≤ s1.flat.length) || s1.bails) ||
      (decide ((512 : Int) ≤ s2.flat.length) || s2.bails)) = true := by
    rw [← Bool.not_eq_false, Bool.or_eq_false_iff, dump_result, dump_result]
    exact h
  rw [signatureCmp, signatureDump_run s1 buf1 rfl, signatureDump_run s2 buf2 rfl]
  show (if _ then pure false else _ : Option Bool) = _
  rw [if_pos hresult]
  rfl

theorem cmpIsRight_iff (s1 s2 : Treedata) (buf1 buf2 : List.Vector UInt8 512) :
    CmpIsRight s1 s2 buf1 buf2 ↔ (s1.flat = s2.flat → s1.Fits 512 ∧ s2.Fits 512) := by
  by_cases hfits : s1.Fits 512 ∧ s2.Fits 512
  · refine iff_of_true ⟨_, cmp_of_fits hfits.1 hfits.2, ?_⟩ fun _ => hfits
    exact decide_eq_true_iff
  · rw [CmpIsRight, cmp_of_not_fits hfits]
    constructor
    · rintro ⟨r, hr, heq⟩ hflat
      cases hr
      exact absurd (heq.mpr hflat) Bool.false_ne_true
    · exact fun h => ⟨false, rfl, fun hr => absurd hr Bool.false_ne_true,
        fun hflat => absurd (h hflat) hfits⟩

/-- **Dump and compare.** A dump is right if and only if an exact fit is malformed and a malformed
entry of a signature that fits is in its own array, and a comparison is right if and only if equal
signatures are shorter than the buffers, without a malformed entry of their own. -/
theorem signature_dump_cmp_iff (t : Treedata) (len : Int) (buf : List.Vector UInt8 len.toNat)
    (s1 s2 : Treedata) (buf1 buf2 : List.Vector UInt8 512) :
    (DumpIsRight t len buf ↔ ((t.flat.length : Int) = len → t.malformed = true) ∧
        (t.flat.length < len → t.malformed = true → t.bails = true)) ∧
      (CmpIsRight s1 s2 buf1 buf2 ↔ (s1.flat = s2.flat → s1.Fits 512 ∧ s2.Fits 512)) :=
  ⟨dumpIsRight_iff t len buf, cmpIsRight_iff s1 s2 buf1 buf2⟩

/-- A generated signature is dumped right if and only if it is no exact fit. -/
theorem dumpIsRight_generated (s : Signature) (len : Int) (buf : List.Vector UInt8 len.toNat) :
    DumpIsRight (signatureTreedata s) len buf ↔
      ((signatureTreedata s).flat.length : Int) ≠ len := by
  rw [dumpIsRight_iff, signature_wellFormed]
  constructor
  · exact fun h heq => Bool.false_ne_true (h.1 heq)
  · exact fun h => ⟨fun heq => absurd heq h, fun _ hfalse => absurd hfalse Bool.false_ne_true⟩

/-- An `int`. -/
def intTree : Treedata := .sigdefBytes 0x23 [] .sigdefEnd

/-- A signature with 512 bytes. -/
def longTree : Treedata := .sigdefBytes 0x11 (List.replicate 511 0) .sigdefEnd

/-- An exact fit is reported as an overrun, a malformed entry of an inner signature is not, and
a long signature is not equal to itself. -/
theorem signature_dump_cmp_wrong :
    signatureDump intTree [0] 1 = some (true, ⟨[0x23], 1⟩) ∧ intTree.flat.length = 1 ∧
      signatureDump (.sigdefSignature (.neither .sigdefEnd) .sigdefEnd) [0] 1 =
        some (false, ⟨[0], 0⟩) ∧
      signatureCmp longTree longTree (List.replicate 512 0) (List.replicate 512 0) =
        some false := by
  refine ⟨rfl, rfl, rfl, ?_⟩
  have hzeros : (List.replicate 512 (0 : UInt8)).length = 512 := List.length_replicate
  have hlength : longTree.flat.length = 512 := by
    show (0x11 :: List.replicate 511 0 ++ [] : List UInt8).length = 512
    rw [List.append_nil, List.length_cons, List.length_replicate]
  refine @cmp_of_not_fits longTree longTree ⟨_, hzeros⟩ ⟨_, hzeros⟩ ?_
  rintro ⟨⟨hlt, _⟩, _⟩
  omega

end LabComm.C.SignatureDump
