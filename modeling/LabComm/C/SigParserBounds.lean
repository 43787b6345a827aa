import LabComm.C.SigParserRuns

set_option autoImplicit false

/-! # Accesses of the signature parser

A call of `acceptPacket` stays within the buffer, the tables and their entries, the value stack and
the block of a string if and only if the packet it starts on is complete as far as it is read: its
numbers end in the buffer, and the id of a sample type has an entry in the tables. The parser checks
neither.
-/

namespace LabComm.C.SigParser

open Library

/-! ## Complete packets -/

/-- `l` starts with what `q` reads, which says `a` and leaves `r`. -/
def Starts {α : Type} (q : Parser Fault α) (l : List UInt8) (a : α) (r : List UInt8) : Prop :=
  q.run l = .ok (a, r)

/-- `l` starts with a number. -/
def StartsNumber (l : List UInt8) : Prop := ∃ n r, Starts number l n r

/-- A signature is complete: its length and the description of a type, which is not nested deeper
than a buffer of the size allows. -/
def CompleteSignature (size : Nat) (l : List UInt8) : Prop :=
  ∃ n r, Starts number l n r ∧ ∃ d r', Starts (description (size + 1) false) r d r'

/-- A declaration is complete after its name, if it is read on after it: the name of a sample type
has to be short enough, and the id must then have an entry. -/
def CompleteDefinition (p : State) (tag uid nlen : Nat) (l : List UInt8) : Prop :=
  (tag = LABCOMM_SAMPLE_DEF → nlen < p.config.maxNameLen) →
    (tag = LABCOMM_SAMPLE_DEF → uid < p.config.maxSignatures + LABCOMM_USER) ∧
      CompleteSignature p.c.bytes.length l

/-- A declaration is complete after its length, as far as ids and the room on the stack let it be
read. -/
def CompleteDeclaration (p : State) (tag : Nat) (l : List UInt8) : Prop :=
  ∃ uid r, Starts number l uid r ∧ (IsUser uid → 0 ≤ p.valTop ∧ (1 ≤ p.valTop →
    ∃ found r', Starts name r found r' ∧
      (2 ≤ p.valTop → CompleteDefinition p tag uid found.2 r')))

/-- The packet at the start of `l` is complete; `p` is the state before it. -/
def Complete (p : State) (l : List UInt8) : Prop :=
  ∃ tag r, Starts number l tag r ∧
    (tag = LABCOMM_VERSION → ∃ n r₁, Starts number r n r₁ ∧ ∃ len r₂, Starts string r₁ len r₂ ∧
      0 ≤ p.valTop) ∧
    (IsDeclaration tag → ∃ n r₁, Starts number r n r₁ ∧ CompleteDeclaration p tag r₁) ∧
    (tag = LABCOMM_TYPE_BINDING → ∃ n r₁, Starts number r n r₁ ∧ ∃ sid r₂, Starts number r₁ sid r₂ ∧
      StartsNumber r₂) ∧
    (IsUser tag → 0 ≤ p.valTop ∧ (1 ≤ p.valTop → StartsNumber r))

/-! ## Results within bounds -/

/-- The call returns or ends the process with an error. -/
def InBounds {α : Type} : Except Fault α → Prop
  | .ok _ => True
  | .error (.exit _) => True
  | .error _ => False

/-- A fault that is not an error of the parser. -/
def Unchecked (e : Fault) : Prop := ∀ x, e ≠ .exit x

theorem Short.unchecked (e : Fault) (h : Short e) : Unchecked e := by
  intro x hx
  rcases h with rfl | rfl
  · cases hx
  · cases hx

section InBounds

variable {α β : Type} {n : Nat} {q : Parser Fault α} {l : List UInt8}

/-- A read that checks nothing has to succeed. -/
theorem inBounds_bind (hq : Throws n Unchecked q) (hl : l.length < n) (f : α → Parser Fault β) :
    InBounds ((q >>= f).run l) ↔ ∃ a r, Starts q l a r ∧ InBounds ((f a).run r) := by
  cases hrun : q.run l with
  | error e =>
      have he := hq l e hl hrun
      rw [run_bind_of_error hrun]
      constructor
      · intro h
        cases e with
        | exit x => exact absurd rfl (he x)
        | outOfBounds | outOfFuel => exact h.elim
      · rintro ⟨a, r, hstarts, _⟩
        rw [Starts, hrun] at hstarts
        cases hstarts
  | ok x =>
      rw [run_bind_of_ok (a := x.1) (r := x.2) hrun]
      constructor
      · exact fun h => ⟨x.1, x.2, hrun, h⟩
      · rintro ⟨a, r, hstarts, h⟩
        rw [Starts, hrun, Except.ok.injEq, Prod.ext_iff] at hstarts
        rw [hstarts.1, hstarts.2]
        exact h

theorem inBounds_room (top : Int) (k : Nat) (f : Unit → Parser Fault β) :
    InBounds ((room top k >>= f).run l) ↔ 0 ≤ top ∧ ((k : Int) ≤ top → InBounds ((f ()).run l)) := by
  by_cases hneg : top < 0
  · have hrun : (room top k).run l = .error (.outOfBounds .stack) := by
      rw [room, if_pos hneg]
      rfl
    rw [run_bind_of_error hrun]
    exact ⟨fun h => h.elim, fun h => by omega⟩
  by_cases hroom : top < k
  · have hrun : (room top k).run l = .error (.exit .overrun) := by
      rw [room, if_neg hneg, if_pos hroom]
      rfl
    rw [run_bind_of_error hrun]
    exact ⟨fun _ => ⟨by omega, fun h => by omega⟩, fun _ => trivial⟩
  · rw [room_of_le (by omega) (by omega), pure_bind]
    exact ⟨fun h => ⟨by omega, fun _ => h⟩, fun h => h.2 (by omega)⟩

theorem inBounds_get (f : List UInt8 → Parser Fault β) :
    InBounds ((get >>= f).run l) ↔ InBounds ((f l).run l) := by
  rw [run_bind_of_ok (p := get) (a := l) (r := l) rfl]

theorem inBounds_pure (a : α) : InBounds ((pure a : Parser Fault α).run l) := trivial

theorem inBounds_exit (x : Error) : InBounds ((throw (.exit x) : Parser Fault α).run l) := trivial

theorem inBounds_ite {P : Prop} [Decidable P] {q₁ q₂ : Parser Fault α} :
    InBounds ((if P then q₁ else q₂).run l) ↔
      (P → InBounds (q₁.run l)) ∧ (¬ P → InBounds (q₂.run l)) := by
  by_cases hP : P
  · rw [if_pos hP]
    exact ⟨fun h => ⟨fun _ => h, fun hn => absurd hP hn⟩, fun h => h.1 hP⟩
  · rw [if_neg hP]
    exact ⟨fun h => ⟨fun hp => absurd hp hP, fun _ => h⟩, fun h => h.2 hP⟩

theorem inBounds_userId (f : Nat → Parser Fault β) : InBounds ((userId >>= f).run l) ↔
    ∃ uid r, Starts number l uid r ∧ (IsUser uid → InBounds ((f uid).run r)) := by
  rw [userId, bind_assoc, inBounds_bind (number_throws Short.unchecked) (Nat.lt_succ_self _)]
  refine exists_congr fun uid => exists_congr fun r => and_congr_right fun _ => ?_
  by_cases huser : IsUser uid
  · rw [if_pos huser, pure_bind]
    exact ⟨fun h _ => h, fun h => h huser⟩
  · rw [if_neg huser]
    exact ⟨fun _ hu => absurd hu huser, fun _ => trivial⟩

end InBounds

/-! ## Names -/

/-- A number takes at least the bytes of its shortest form. -/
theorem varintSizeof_le_length {n : Nat} {l r : List UInt8} (h : number.run l = .ok (n, r)) :
    varintSizeof n + r.length ≤ l.length := by
  obtain ⟨m, hm, hn⟩ := run_map_eq_ok.mp h
  have hlength := readVarintFrom_length_lt _ hm
  have hlt := readVarintFrom_lt _ hm
  have hmod : n ≤ m := by
    rw [← hn]
    exact Nat.mod_le _ _
  obtain ⟨k, hk⟩ : ∃ k, l.length - r.length = k := ⟨_, rfl⟩
  rw [hk, zero_add, one_mul] at hlt
  have hsize : varintSizeof n ≤ k := by
    unfold varintSizeof
    match k, hk, hlt with
    | 0, hk, _ => omega
    | 1, _, hlt => split_ifs <;> omega
    | 2, _, hlt => split_ifs <;> omega
    | 3, _, hlt => split_ifs <;> omega
    | 4, _, hlt => split_ifs <;> omega
    | k + 5, _, _ => split_ifs <;> omega
  omega

/-- A string with something after it was not cut off. -/
theorem string_length {len : Nat} {l r : List UInt8} (h : string.run l = .ok (len, r))
    (hr : r ≠ []) : varintSizeof len + len ≤ l.length := by
  obtain ⟨n, l₁, hnum, h⟩ := run_bind_eq_ok.mp h
  obtain ⟨_, l₂, hchars, hpure⟩ := run_bind_eq_ok.mp h
  have hsize := varintSizeof_le_length hnum
  have hchars' : (if n + 1 = 2 ^ 32 then Except.error (Fault.outOfBounds .block)
      else Except.ok ((), l₁.drop n)) = .ok ((), l₂) := hchars
  have hpure' : (Except.ok (n, l₂) : Except Fault _) = .ok (len, r) := hpure
  simp only [Except.ok.injEq, Prod.mk.injEq] at hpure'
  split at hchars'
  · cases hchars'
  · simp only [Except.ok.injEq, Prod.mk.injEq, true_and] at hchars'
    have hpos := List.length_pos_of_ne_nil hr
    rw [← hpure'.2, ← hchars', List.length_drop] at hpos
    rw [← hpure'.1]
    omega

theorem intentions_hasName {num : Nat} {start : Option (List UInt8)} {nlen : Nat}
    {l r : List UInt8} {found : Option (List UInt8) × Nat}
    (h : (intentions num start nlen).run l = .ok (found, r)) (hr : r ≠ [])
    (hstart : l ≠ [] → HasName start nlen) : HasName found.1 found.2 := by
  induction num generalizing start nlen l with
  | zero =>
      have h' : (Except.ok ((start, nlen), l) : Except Fault _) = .ok (found, r) := h
      simp only [Except.ok.injEq, Prod.mk.injEq] at h'
      rw [← h'.1]
      exact hstart (by rw [h'.2]; exact hr)
  | succ num ih =>
      rw [intentions] at h
      obtain ⟨klen, l₁, hkey, h⟩ := run_bind_eq_ok.mp h
      obtain ⟨start', l₂, hget, h⟩ := run_bind_eq_ok.mp h
      obtain ⟨vlen, l₃, hvalue, h⟩ := run_bind_eq_ok.mp h
      have hget' : (Except.ok (l₁, l₁) : Except Fault _) = .ok (start', l₂) := hget
      simp only [Except.ok.injEq, Prod.mk.injEq] at hget'
      rw [← hget'.2] at hvalue
      split at h
      · refine ih h fun hne => Or.inr ⟨start', rfl, ?_⟩
        rw [← hget'.1]
        exact string_length hvalue hne
      · refine ih h fun hne => hstart ?_
        -- what follows is the end of what was there
        rintro rfl
        have hnil := List.suffix_nil.mp (string_shrinks [] klen l₁ hkey)
        rw [hnil] at hvalue
        exact hne (List.suffix_nil.mp (string_shrinks [] vlen l₃ hvalue))

/-- A name is in the buffer if there is anything after the intentions. -/
theorem hasName_of_ne_nil {l r : List UInt8} {found : Option (List UInt8) × Nat}
    (h : name.run l = .ok (found, r)) (hr : r ≠ []) : HasName found.1 found.2 := by
  obtain ⟨num, l₁, _, h⟩ := run_bind_eq_ok.mp h
  exact intentions_hasName h hr fun _ => Or.inl rfl

/-! ## Packets -/

theorem inBounds_signature {p : State} {l : List UInt8} (hl : l <:+ p.c.bytes) {β : Type}
    (f : Described → Parser Fault β) :
    InBounds ((signature (p.c.bytes.length + 1) >>= f).run l) ↔
      ∃ d r, Starts (signature (p.c.bytes.length + 1)) l d r ∧ InBounds ((f d).run r) := by
  have hlt : l.length < p.c.bytes.length + 1 := Nat.lt_succ_of_le hl.length_le
  exact inBounds_bind (signature_throws Short.unchecked (Or.inr le_rfl)) hlt f

theorem completeSignature_iff {size : Nat} {l : List UInt8} : CompleteSignature size l ↔
    ∃ d r, Starts (signature (size + 1)) l d r := by
  constructor
  · rintro ⟨n, r, hn, d, r', hd⟩
    exact ⟨d, r', run_bind_eq_ok.mpr ⟨n, r, hn, hd⟩⟩
  · rintro ⟨d, r', h⟩
    obtain ⟨n, r, hn, hd⟩ := run_bind_eq_ok.mp h
    exact ⟨n, r, hn, d, r', hd⟩

theorem IsUser.le {uid : Nat} (h : IsUser uid) : LABCOMM_USER ≤ uid := by
  have hle := wrap32_le (i := uid) (by omega)
  have h' : (LABCOMM_USER : Int) ≤ wrap32 uid := h
  omega

/-- A signature starts with a number. -/
theorem ne_nil_of_signature {fuel : Nat} {l r : List UInt8} {d : Described}
    (h : Starts (signature fuel) l d r) : l ≠ [] := by
  obtain ⟨n, r', hn, _⟩ := run_bind_eq_ok.mp h
  have hlt := number_length_lt hn
  rintro rfl
  rw [List.length_nil] at hlt
  omega

theorem inBounds_definition {p : State} {tag uid : Nat} (huid : IsUser uid)
    {l₀ l : List UInt8} {found : Option (List UInt8) × Nat} (hname : name.run l₀ = .ok (found, l))
    (hl : l <:+ p.c.bytes) : InBounds ((definition p tag uid found).run l) ↔
      CompleteDefinition p tag uid found.2 l := by
  rw [definition, inBounds_get, CompleteDefinition, completeSignature_iff]
  by_cases htag : tag = LABCOMM_SAMPLE_DEF
  swap
  · rw [if_neg htag, inBounds_signature hl]
    constructor
    · rintro ⟨d, r, hd, _⟩ _
      exact ⟨fun h => absurd h htag, d, r, hd⟩
    · intro h
      obtain ⟨_, d, r, hd⟩ := h fun h => absurd h htag
      exact ⟨d, r, hd, inBounds_pure _⟩
  rw [if_pos htag]
  by_cases hlen : found.2 < p.config.maxNameLen
  swap
  · rw [if_neg hlen]
    exact ⟨fun _ h => absurd (h htag) hlen, fun _ => inBounds_exit _⟩
  rw [if_pos hlen]
  have hle := huid.le
  by_cases hentry : uid - LABCOMM_USER < p.config.maxSignatures
  swap
  · rw [if_neg hentry]
    refine ⟨fun h => h.elim, fun h => ?_⟩
    have := (h fun _ => hlen).1 htag
    omega
  rw [if_pos hentry]
  by_cases hin : HasName found.1 found.2
  swap
  -- there is nothing after a name that is cut off, and so no signature
  · rw [if_neg hin]
    refine ⟨fun h => h.elim, fun h => ?_⟩
    obtain ⟨_, d, r, hd⟩ := h fun _ => hlen
    exact hin (hasName_of_ne_nil hname (ne_nil_of_signature hd))
  rw [if_pos hin, inBounds_signature hl]
  constructor
  · rintro ⟨d, r, hd, _⟩ _
    exact ⟨fun _ => by omega, d, r, hd⟩
  · intro h
    obtain ⟨_, d, r, hd⟩ := h fun _ => hlen
    refine ⟨d, r, hd, ?_⟩
    rw [inBounds_get, inBounds_ite]
    exact ⟨fun _ => inBounds_pure _, fun _ => inBounds_exit _⟩

theorem inBounds_declaration {p : State} (tag : Nat) {l : List UInt8} (hl : l <:+ p.c.bytes) :
    InBounds ((declaration p tag).run l) ↔ CompleteDeclaration p tag l := by
  rw [declaration, inBounds_userId]
  refine exists_congr fun uid => exists_congr fun r => and_congr_right fun hr =>
    forall_congr' fun huser => ?_
  have hrl := (number_shrinks l uid r hr).trans hl
  rw [inBounds_room]
  refine and_congr_right fun _ => ?_
  rw [Nat.cast_one, inBounds_bind (name_throws Short.unchecked) (Nat.lt_succ_self _)]
  refine forall_congr' fun _ => exists_congr fun found => exists_congr fun r' =>
    and_congr_right fun hr' => ?_
  have hdef := @inBounds_definition _ tag _ huser _ _ _ hr' ((name_shrinks r found r' hr').trans hrl)
  rw [inBounds_room]
  constructor
  · exact fun h htop => hdef.mp (h.2 htop)
  · exact fun h => ⟨by omega, fun htop => hdef.mpr (h htop)⟩

theorem inBounds_number {α : Type} {l : List UInt8} (f : Nat → Parser Fault α) :
    InBounds ((number >>= f).run l) ↔ ∃ n r, Starts number l n r ∧ InBounds ((f n).run r) :=
  inBounds_bind (number_throws Short.unchecked) (Nat.lt_succ_self _) f

/-- A number after which everything is in bounds. -/
theorem inBounds_last {α : Type} {l : List UInt8} {f : Nat → Parser Fault α}
    (hf : ∀ n r, InBounds ((f n).run r)) : InBounds ((number >>= f).run l) ↔ StartsNumber l := by
  rw [inBounds_number]
  exact exists_congr fun n => exists_congr fun r => and_iff_left (hf n r)

section Packets

variable {p : State} {r : List UInt8}

theorem inBounds_version : InBounds ((number >>= fun _ => string >>= fun _ =>
    room p.valTop 1 >>= fun _ =>
      (pure ⟨p.currentDeclIsVarsize, none, 0⟩ : Parser Fault Outcome)).run r) ↔
    ∃ n r₁, Starts number r n r₁ ∧ ∃ len r₂, Starts string r₁ len r₂ ∧ 0 ≤ p.valTop := by
  rw [inBounds_number]
  refine exists_congr fun n => exists_congr fun r₁ => and_congr_right fun _ => ?_
  rw [inBounds_bind (string_throws Short.unchecked) (Nat.lt_succ_self _)]
  refine exists_congr fun len => exists_congr fun r₂ => and_congr_right fun _ => ?_
  rw [inBounds_room]
  exact and_iff_left fun _ => inBounds_pure _

theorem inBounds_declared (tag : Nat) (hr : r <:+ p.c.bytes) :
    InBounds ((number >>= fun _ => declaration p tag).run r) ↔
      ∃ n r₁, Starts number r n r₁ ∧ CompleteDeclaration p tag r₁ := by
  rw [inBounds_number]
  refine exists_congr fun n => exists_congr fun r₁ => and_congr_right fun hn => ?_
  exact inBounds_declaration tag ((number_shrinks r n r₁ hn).trans hr)

theorem inBounds_binding : InBounds ((number >>= fun _ => number >>= fun _ => number >>= fun _ =>
    (pure ⟨p.currentDeclIsVarsize, none, 0⟩ : Parser Fault Outcome)).run r) ↔
    ∃ n r₁, Starts number r n r₁ ∧ ∃ sid r₂, Starts number r₁ sid r₂ ∧ StartsNumber r₂ := by
  rw [inBounds_number]
  refine exists_congr fun n => exists_congr fun r₁ => and_congr_right fun _ => ?_
  rw [inBounds_number]
  refine exists_congr fun sid => exists_congr fun r₂ => and_congr_right fun _ => ?_
  exact inBounds_last fun _ _ => inBounds_pure _

/-- What is not known is skipped, or ends the process. -/
theorem inBounds_other {tag : Nat} (huser : ¬ IsUser tag) :
    InBounds ((if LABCOMM_USER ≤ tag then
        if IsUser tag then room p.valTop 1 >>= fun _ => number >>= fun len =>
          pure ⟨p.currentDeclIsVarsize, none, wrap32 len⟩
        else throw (.exit .uid)
      else pure ⟨p.currentDeclIsVarsize, none, wrap32 tag⟩ : Parser Fault Outcome).run r) := by
  rw [inBounds_ite]
  refine ⟨fun _ => ?_, fun _ => inBounds_pure _⟩
  rw [if_neg huser]
  exact inBounds_exit _

theorem inBounds_packet {l : List UInt8} (hl : l <:+ p.c.bytes) :
    InBounds ((packet p).run l) ↔ Complete p l := by
  rw [packet, inBounds_number]
  refine exists_congr fun tag => exists_congr fun r => and_congr_right fun hr => ?_
  have hrl := (number_shrinks l tag r hr).trans hl
  have hsmall : IsUser tag → LABCOMM_USER ≤ tag := IsUser.le
  -- a packet of one kind is none of another
  by_cases hversion : tag = LABCOMM_VERSION
  · have hother : ¬ IsDeclaration tag ∧ tag ≠ LABCOMM_TYPE_BINDING ∧ ¬ LABCOMM_USER ≤ tag := by
      rw [hversion]
      decide
    rw [if_pos hversion, inBounds_version]
    exact ⟨fun h => ⟨fun _ => h, fun h => absurd h hother.1, fun h => absurd h hother.2.1,
      fun h => absurd (hsmall h) hother.2.2⟩, fun h => h.1 hversion⟩
  rw [if_neg hversion]
  by_cases hdecl : IsDeclaration tag
  · have hother : tag ≠ LABCOMM_TYPE_BINDING ∧ ¬ LABCOMM_USER ≤ tag := by
      rcases hdecl with rfl | rfl | rfl
      · decide
      · decide
      · decide
    rw [if_pos hdecl, inBounds_declared tag hrl]
    exact ⟨fun h => ⟨fun h => absurd h hversion, fun _ => h, fun h => absurd h hother.1,
      fun h => absurd (hsmall h) hother.2⟩, fun h => h.2.1 hdecl⟩
  rw [if_neg hdecl]
  by_cases hbinding : tag = LABCOMM_TYPE_BINDING
  · have hother : ¬ LABCOMM_USER ≤ tag := by
      rw [hbinding]
      decide
    rw [if_pos hbinding, inBounds_binding]
    exact ⟨fun h => ⟨fun h => absurd h hversion, fun h => absurd h hdecl, fun _ => h,
      fun h => absurd (hsmall h) hother⟩, fun h => h.2.2.1 hbinding⟩
  rw [if_neg hbinding]
  by_cases huser : IsUser tag
  · rw [if_pos (hsmall huser), if_pos huser, inBounds_room,
      inBounds_last fun _ _ => inBounds_pure _, Nat.cast_one]
    exact ⟨fun h => ⟨fun h => absurd h hversion, fun h => absurd h hdecl,
      fun h => absurd h hbinding, fun _ => h⟩, fun h => h.2.2.2 huser⟩
  · exact ⟨fun _ => ⟨fun h => absurd h hversion, fun h => absurd h hdecl,
      fun h => absurd h hbinding, fun h => absurd h huser⟩, fun _ => inBounds_other huser⟩

end Packets

/-- **Bounds.** Whatever was read before, a call accesses memory within its bounds if and only if
the packet that starts at the index is complete. -/
theorem accept_packet_inBounds_iff {config : Config} {c : Buffer} {s : State}
    (hs : Reached config c s) (hmore : more s = true) :
    InBounds (acceptPacket.run s) ↔ Complete s s.rest := by
  have hbetween := hs.between
  rw [acceptPacket_rest hbetween.ready hbetween.allocated hmore, ← inBounds_packet (rest_suffix s)]
  cases (packet s).run s.rest with
  | error e => cases e <;> rfl
  | ok x => rfl

theorem accept_packet_inBounds_iff_int :
    InBounds (acceptPacket.run (init ⟨3, 1, 2, 2⟩ intDefinition)) ↔
      Complete (init ⟨3, 1, 2, 2⟩ intDefinition) (init ⟨3, 1, 2, 2⟩ intDefinition).rest :=
  accept_packet_inBounds_iff Reached.init (by decide)

/-- The same sample type with the id after the first one. -/
def secondDefinition : Buffer where
  bytes := (Packet.sampleDef 0x41 [nameIntention [97]] [0x23]).bytes
  length_lt := by decide

/-- Tables for one sample type have no entry for the second id. -/
theorem accept_packet_outOfBounds :
    acceptPacket.run (init ⟨3, 1, 2, 2⟩ secondDefinition) = .error (.outOfBounds .table) := by
  rw [acceptPacket_rest (Reached.init.between).ready (Reached.init.between).allocated (by decide)]
  rfl

end LabComm.C.SigParser
