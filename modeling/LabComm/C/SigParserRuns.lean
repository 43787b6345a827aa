import LabComm.C.SigParserPackets

set_option autoImplicit false

/-! # Runs of the signature parser

What holds of every call of `acceptPacket` in a run of the parser over a buffer, whatever the
buffer has: the value stack is left as it was found and needs two cells at any depth of nesting,
and memory is accessed within its bounds if and only if the packet is complete.
-/

namespace LabComm.C.SigParser

open Library

/-! ## Runs -/

/-- The states in which `acceptPacket` is called, and the one after the last call. -/
inductive Reached (config : Config) (c : Buffer) : State → Prop
  | init : Reached config c (init config c)
  | step {s s' : State} : Reached config c s → more s = true → acceptPacket.run s = .ok ((), s') →
      Reached config c s'

/-- What all calls leave as it was. -/
structure Between (config : Config) (c : Buffer) (s : State) : Prop where
  config_eq : s.config = config
  c_eq : s.c = c
  valTop : s.valTop = (init config c).valTop
  valStack : s.valStack = (init config c).valStack
  allocated : Allocated s

theorem wrap32_le {i : Int} (h : 0 ≤ i) : wrap32 i ≤ i := by
  rw [wrap32, Int.bmod_def]
  split
  · omega
  · omega

theorem Between.ready {config : Config} {c : Buffer} {s : State} (h : Between config c s) :
    Ready s := by
  have htop : s.valTop = wrap32 (config.stacksize - 1) := h.valTop
  rw [Ready, htop, h.config_eq]
  by_cases hzero : config.stacksize = 0
  · rw [hzero]
    decide
  · have := wrap32_le (i := (config.stacksize : Int) - 1) (by omega)
    omega

/-- What is left of the buffer. -/
def State.rest (s : State) : List UInt8 := s.c.bytes.drop s.idx.toNat

theorem rest_suffix (s : State) : s.rest <:+ s.c.bytes := List.drop_suffix _ _

theorem leaving_rest {s : State} (h₀ : 0 ≤ s.idx) (h₁ : s.idx ≤ s.c.bytes.length) :
    s.leaving s.rest [] s.currentDeclIsVarsize = s := by
  have hlength : (s.rest.length : Int) = s.c.bytes.length - s.idx := by
    rw [State.rest, List.length_drop]
    omega
  have hidx : (s.c.bytes.length : Int) - s.rest.length = s.idx := by omega
  have htop : s.valTop - (([] : List Nat).length : Int) = s.valTop := by simp
  rw [State.leaving, hidx, htop]
  rfl

theorem idx_of_more {s : State} (h : more s = true) : 0 ≤ s.idx ∧ s.idx < s.c.bytes.length :=
  of_decide_eq_true h

/-- A call as the grammar of packets has it. -/
theorem acceptPacket_rest {s : State} (hready : Ready s) (ha : Allocated s) (h : more s = true) :
    acceptPacket.run s = (packet s).run s.rest >>= fun x => .ok ((), s.finish x.1 x.2) := by
  have hrun := acceptPacket_run hready ha (rest_suffix s)
  have hidx := idx_of_more h
  rwa [leaving_rest hidx.1 (by omega)] at hrun

theorem allocated_update {p : State} (ha : Allocated p) (i : Nat) {e : Entry}
    (hname : e.signaturesName.length = p.config.maxNameLen)
    (hsig : e.signatures.length = p.config.maxSigLen) : Allocated (p.setEntry i e) := by
  have hentry : ∀ j, (p.setEntry i e).tables j = if j = i then e else p.tables j := by
    intro j
    exact Function.update_apply _ _ _ _
  constructor
  · intro j
    rw [hentry]
    split
    · exact hname
    · exact ha.name j
  · intro j
    rw [hentry]
    split
    · exact hsig
    · exact ha.signature j

/-- What is recorded fits into the blocks of an entry. -/
def Record.Fits (config : Config) (r : Record) : Prop :=
  r.name.length < config.maxNameLen ∧ r.signature.length ≤ config.maxSigLen

theorem definition_fits (p : State) (type uid : Nat) (found : Option (List UInt8) × Nat) :
    Delivers (fun o => ∀ r ∈ o.record, r.Fits p.config) (definition p type uid found) := by
  have hnone : ∀ (q : Parser Fault Described),
      Delivers (fun o : Outcome => ∀ r ∈ o.record, r.Fits p.config)
        (q >>= fun type => pure ⟨type.varsize, none, 0⟩) :=
    fun q => Delivers.bind q fun d => Delivers.pure fun r hr => by cases hr
  refine Delivers.bind _ fun start => ?_
  refine Delivers.ite (fun _ => ?_) fun _ => hnone _
  refine Delivers.ite (fun hlen => ?_) fun _ => Delivers.throw _
  refine Delivers.ite (fun _ => ?_) fun _ => Delivers.throw _
  refine Delivers.ite (fun hname => ?_) fun _ => Delivers.throw _
  refine Delivers.bind _ fun d => Delivers.bind _ fun rest => ?_
  refine Delivers.ite (fun hmax => ?_) fun _ => Delivers.throw _
  refine Delivers.pure fun r hr => ?_
  rw [Option.mem_some_iff] at hr
  subst hr
  refine ⟨?_, ?_⟩
  · show (nameBytes _ _ _).length < _
    rw [nameBytes_length hname]
    exact hlen
  · show (start.take _).length ≤ _
    rw [List.length_take]
    omega

theorem packet_fits (p : State) :
    Delivers (fun o => ∀ r ∈ o.record, r.Fits p.config) (packet p) := by
  have hnone : ∀ varsize distance, Delivers (fun o : Outcome => ∀ r ∈ o.record, r.Fits p.config)
      (pure ⟨varsize, none, distance⟩ : Parser Fault Outcome) :=
    fun _ _ => Delivers.pure fun r hr => by cases hr
  refine Delivers.bind _ fun tag => ?_
  refine Delivers.ite (fun _ => ?_) fun _ => ?_
  · exact Delivers.bind _ fun _ => Delivers.bind _ fun _ => Delivers.bind _ fun _ => hnone _ _
  refine Delivers.ite (fun _ => ?_) fun _ => ?_
  · refine Delivers.bind _ fun _ => Delivers.bind _ fun uid => Delivers.bind _ fun _ =>
      Delivers.bind _ fun found => Delivers.bind _ fun _ => ?_
    exact definition_fits p tag uid found
  refine Delivers.ite (fun _ => ?_) fun _ => ?_
  · exact Delivers.bind _ fun _ => Delivers.bind _ fun _ => Delivers.bind _ fun _ => hnone _ _
  refine Delivers.ite (fun _ => ?_) fun _ => hnone _ _
  refine Delivers.ite (fun _ => ?_) fun _ => Delivers.throw _
  exact Delivers.bind _ fun _ => Delivers.bind _ fun _ => hnone _ _

theorem allocated_record {p : State} (ha : Allocated p) {l : List UInt8} {o : Outcome}
    {r : List UInt8} (h : (packet p).run l = .ok (o, r)) : Allocated (p.record o.record) := by
  have hfits := packet_fits p l o r h
  cases hrecord : o.record with
  | none => exact ha
  | some rec =>
      have hrec := hfits rec (by rw [hrecord]; rfl)
      have hname := ha.name (rec.uid - LABCOMM_USER)
      have hsig := ha.signature (rec.uid - LABCOMM_USER)
      have hlt := hrec.1
      have hle := hrec.2
      refine allocated_update ha _ ?_ ?_
      · show ((rec.name ++ _).set _ _).length = _
        rw [List.length_set, List.length_append, List.length_drop]
        omega
      · show (rec.signature ++ List.drop _ (p.tables _).signatures).length = _
        rw [List.length_append, List.length_drop]
        omega

/-- **One call** leaves the configuration, the buffer and the stack as they were. -/
theorem Between.step {config : Config} {c : Buffer} {s s' : State} (h : Between config c s)
    (hmore : more s = true) (hrun : acceptPacket.run s = .ok ((), s')) : Between config c s' := by
  rw [acceptPacket_rest h.ready h.allocated hmore] at hrun
  cases hpacket : (packet s).run s.rest with
  | error e =>
      rw [hpacket] at hrun
      cases hrun
  | ok x =>
      rw [hpacket] at hrun
      have hs' : s.finish x.1 x.2 = s' := by
        have hrun' : (Except.ok ((), s.finish x.1 x.2) : Except Fault _) = .ok ((), s') := hrun
        simp only [Except.ok.injEq, Prod.mk.injEq, true_and] at hrun'
        exact hrun'
      have ha := allocated_record h.allocated hpacket
      subst hs'
      have hrecord : (s.record x.1.record).config = s.config ∧ (s.record x.1.record).c = s.c ∧
          (s.record x.1.record).valTop = s.valTop ∧
            (s.record x.1.record).valStack = s.valStack := by
        cases x.1.record with
        | none => exact ⟨rfl, rfl, rfl, rfl⟩
        | some r => exact ⟨rfl, rfl, rfl, rfl⟩
      obtain ⟨hconfig, hc, htop, hstack⟩ := hrecord
      refine ⟨hconfig.trans h.config_eq, hc.trans h.c_eq, ?_, hstack.trans h.valStack,
        ⟨ha.name, ha.signature⟩⟩
      have hnil : (s.finish x.1 x.2).valTop = (s.record x.1.record).valTop := by
        show (s.record x.1.record).valTop - (([] : List Nat).length : Int) = _
        rw [List.length_nil, Nat.cast_zero, sub_zero]
      rw [hnil, htop, h.valTop]

theorem Reached.between {config : Config} {c : Buffer} {s : State} (h : Reached config c s) :
    Between config c s := by
  induction h with
  | init =>
      refine ⟨rfl, rfl, rfl, rfl, fun i => ?_, fun i => ?_⟩
      · exact List.length_replicate
      · exact List.length_replicate
  | step _ hmore hrun ih => exact ih.step hmore hrun

/-! ## Faults of the grammar -/

/-- The buffer ends before a number does, or there is no block for a string. -/
def Short (e : Fault) : Prop := e = .outOfBounds .input ∨ e = .outOfBounds .block

section Faults

variable {E : Fault → Prop} (hE : ∀ e, Short e → E e) {n : Nat}

include hE

theorem number_throws : Throws n E number := by
  refine Throws.map fun s e hlt h => hE e ?_
  exact Or.inl (readVarintFrom_throws _ n 0 s e hlt h)

/-- A number leaves less than it was given. -/
theorem Throws.number_bind {β : Type} {f : Nat → Parser Fault β} (hf : ∀ a, Throws (n - 1) E (f a)) :
    Throws n E (number >>= f) := by
  intro s e hlt h
  cases hrun : number.run s with
  | error e' =>
      rw [run_bind_of_error hrun] at h
      cases h
      exact number_throws hE s _ hlt hrun
  | ok x =>
      have hlength := number_length_lt (l := s) (n := x.1) (r := x.2) hrun
      rw [run_bind_of_ok (a := x.1) (r := x.2) hrun] at h
      exact hf x.1 x.2 e (by omega) h

theorem string_throws : Throws n E string := by
  refine (number_throws hE).bind number_shrinks fun len => ?_
  refine Throws.bind ?_ (characters_shrinks len) fun _ => Throws.pure len
  intro s e _ h
  have h' : (if len + 1 = 2 ^ 32 then Except.error (Fault.outOfBounds .block)
      else Except.ok ((), s.drop len)) = .error e := h
  split at h'
  · cases h'
    exact hE _ (Or.inr rfl)
  · cases h'

omit hE in
theorem get_throws : Throws n E (get : Parser Fault (List UInt8)) := by
  intro s e _ h
  cases h

theorem intentions_throws (num : Nat) (start : Option (List UInt8)) (nlen : Nat) :
    Throws n E (intentions num start nlen) := by
  induction num generalizing start nlen with
  | zero => exact Throws.pure _
  | succ num ih =>
      refine (string_throws hE).bind string_shrinks fun klen =>
        get_throws.bind get_shrinks fun start' =>
          (string_throws hE).bind string_shrinks fun vlen => ?_
      exact Throws.ite (fun _ => ih _ _) fun _ => ih _ _

theorem name_throws : Throws n E name :=
  (number_throws hE).bind number_shrinks fun num => intentions_throws hE num none 0

theorem indices_throws (nidx numVar size : Nat) (varsize : Bool) :
    Throws n E (indices nidx numVar size varsize) := by
  induction nidx generalizing numVar size varsize with
  | zero => exact Throws.pure _
  | succ nidx ih =>
      refine (number_throws hE).bind number_shrinks fun idx => ?_
      exact Throws.ite (fun _ => ih _ _ _) fun _ => ih _ _ _

theorem fields_throws {type : Bool → Parser Fault Described}
    (hshrinks : ∀ varsize, Shrinks (type varsize)) (htype : ∀ varsize, Throws n E (type varsize))
    (nf fieldsizes : Nat) (varsize : Bool) : Throws n E (fields type nf fieldsizes varsize) := by
  induction nf generalizing fieldsizes varsize with
  | zero => exact Throws.pure _
  | succ nf ih =>
      exact (number_throws hE).bind number_shrinks fun num =>
        (intentions_throws hE num none 0).bind (intentions_shrinks num none 0) fun _ =>
          (htype varsize).bind (hshrinks varsize) fun field => ih _ _

/-- Types nested as deep as there are bytes do not end in the buffer. -/
theorem description_throws {fuel : Nat} (hfuel : E .outOfFuel ∨ n ≤ fuel) (varsize : Bool) :
    Throws n E (description fuel varsize) := by
  induction fuel generalizing n varsize with
  | zero =>
      rcases hfuel with hfuel | hfuel
      · exact Throws.throw hfuel
      · intro s e hlt
        omega
  | succ fuel ih =>
      have htype : ∀ varsize, Throws (n - 1) E (description fuel varsize) :=
        fun varsize => ih (hfuel.imp id fun h => by omega) varsize
      have hshrinks := description_shrinks fuel
      refine Throws.number_bind hE fun tag => ?_
      refine Throws.ite (fun _ => ?_) fun _ => Throws.ite (fun _ => ?_) fun _ => Throws.pure _
      · exact (number_throws hE).bind number_shrinks fun nidx =>
          (indices_throws hE nidx 0 1 varsize).bind (indices_shrinks nidx 0 1 varsize) fun dim =>
            (htype dim.2.2).bind (hshrinks dim.2.2) fun _ => Throws.pure _
      · exact (number_throws hE).bind number_shrinks fun nf =>
          (fields_throws hE hshrinks htype nf 0 varsize).bind
            (fields_shrinks hshrinks nf 0 varsize) fun _ => Throws.pure _

theorem signature_throws {fuel : Nat} (hfuel : E .outOfFuel ∨ n ≤ fuel) :
    Throws n E (signature fuel) :=
  (number_throws hE).bind number_shrinks fun _ => description_throws hE hfuel false

end Faults

/-! ## The value stack -/

/-- A fault that is not one of the value stack. -/
def StackSound (e : Fault) : Prop :=
  e ≠ .exit .overrun ∧ e ≠ .exit .underrun ∧ e ≠ .outOfBounds .stack

theorem Short.stackSound (e : Fault) (h : Short e) : StackSound e := by
  rcases h with rfl | rfl
  · exact ⟨by decide, by decide, by decide⟩
  · exact ⟨by decide, by decide, by decide⟩

theorem definition_stackSound (p : State) (type uid n : Nat)
    (found : Option (List UInt8) × Nat) : Throws n StackSound (definition p type uid found) := by
  have hsig : Throws n StackSound (signature (p.c.bytes.length + 1)) :=
    signature_throws Short.stackSound (Or.inl ⟨by decide, by decide, by decide⟩)
  have hshrinks := signature_shrinks (p.c.bytes.length + 1)
  have hexit : ∀ {e : Fault}, StackSound e → Throws n StackSound (throw e : Parser Fault Outcome) :=
    fun h => Throws.throw h
  refine get_throws.bind get_shrinks fun start => ?_
  refine Throws.ite (fun _ => ?_) fun _ => hsig.bind hshrinks fun _ => Throws.pure _
  refine Throws.ite (fun _ => ?_) fun _ => hexit ⟨by decide, by decide, by decide⟩
  refine Throws.ite (fun _ => ?_) fun _ => hexit ⟨by decide, by decide, by decide⟩
  refine Throws.ite (fun _ => ?_) fun _ => hexit ⟨by decide, by decide, by decide⟩
  refine hsig.bind hshrinks fun _ => get_throws.bind get_shrinks fun rest => ?_
  exact Throws.ite (fun _ => Throws.pure _) fun _ => hexit ⟨by decide, by decide, by decide⟩

/-- Two cells are enough for a packet. -/
theorem packet_stackSound {p : State} (hroom : 2 ≤ p.valTop) (n : Nat) :
    Throws n StackSound (packet p) := by
  have hnumber : Throws n StackSound number := number_throws Short.stackSound
  have hone : Throws n StackSound (room p.valTop 1) := by
    rw [room_of_le (by omega) (by omega)]
    exact Throws.pure ()
  have htwo : Throws n StackSound (room p.valTop 2) := by
    rw [room_of_le (by omega) (by omega)]
    exact Throws.pure ()
  have huserId : Throws n StackSound userId := hnumber.bind number_shrinks fun uid =>
    Throws.ite (fun _ => Throws.pure uid) fun _ => Throws.throw ⟨by decide, by decide, by decide⟩
  refine hnumber.bind number_shrinks fun tag => ?_
  refine Throws.ite (fun _ => ?_) fun _ => Throws.ite (fun _ => ?_) fun _ =>
    Throws.ite (fun _ => ?_) fun _ => Throws.ite (fun _ => ?_) fun _ => Throws.pure _
  · exact hnumber.bind number_shrinks fun _ =>
      (string_throws Short.stackSound).bind string_shrinks fun _ =>
        hone.bind (room_shrinks _ _) fun _ => Throws.pure _
  · exact hnumber.bind number_shrinks fun _ => huserId.bind userId_shrinks fun uid =>
      hone.bind (room_shrinks _ _) fun _ =>
        (name_throws Short.stackSound).bind name_shrinks fun found =>
          htwo.bind (room_shrinks _ _) fun _ => definition_stackSound p tag uid n found
  · exact hnumber.bind number_shrinks fun _ => hnumber.bind number_shrinks fun _ =>
      hnumber.bind number_shrinks fun _ => Throws.pure _
  · refine Throws.ite (fun _ => ?_) fun _ => Throws.throw ⟨by decide, by decide, by decide⟩
    exact hone.bind (room_shrinks _ _) fun _ => hnumber.bind number_shrinks fun _ => Throws.pure _

/-- A call neither overruns nor underruns the value stack, and returns with `added` entries more. -/
structure KeepsStack (s : State) (result : Except Fault (Unit × State)) (added : Nat) : Prop where
  sound : ∀ e, result = .error e → StackSound e
  returns : ∀ s', result = .ok ((), s') → s'.valTop = s.valTop - added ∧
    ∃ entries : List Nat, entries.length = added ∧ s'.valStack = entries ++ s.valStack

/-- A state in the buffer with cells for two entries. -/
structure HasRoom (config : Config) (c : Buffer) (s : State) : Prop where
  config_eq : s.config = config
  c_eq : s.c = c
  idx : 0 ≤ s.idx ∧ s.idx ≤ s.c.bytes.length
  room : 2 ≤ s.valTop
  ready : Ready s

theorem acceptType_keepsStack {config : Config} {c : Buffer} {s : State} (h : HasRoom config c s)
    (fuel : Nat) : KeepsStack s ((acceptType fuel).run s) 2 := by
  have hroom := h.room
  have hrun := @acceptType_follows _ h.ready [] (by rw [List.length_nil]; omega) fuel
    s.currentDeclIsVarsize s.rest (rest_suffix s)
  rw [leaving_rest h.idx.1 h.idx.2] at hrun
  rw [hrun]
  cases hdesc : (description fuel s.currentDeclIsVarsize).run s.rest with
  | error e =>
      constructor
      · intro e' he'
        cases he'
        exact description_throws Short.stackSound (Or.inl ⟨by decide, by decide, by decide⟩) _
          s.rest _ (Nat.lt_succ_self _) hdesc
      · intro s' hs'
        cases hs'
  | ok x =>
      constructor
      · intro e he
        cases he
      · intro s' hs'
        have hs : (Except.ok ((), s.leaving x.2 [x.1.tag, x.1.size] x.1.varsize) :
          Except Fault _) = .ok ((), s') := hs'
        simp only [Except.ok.injEq, Prod.mk.injEq, true_and] at hs
        subst hs
        exact ⟨rfl, [x.1.tag, x.1.size], rfl, rfl⟩

theorem acceptPacket_keepsStack {config : Config} {c : Buffer} {s : State}
    (h : Between config c s) (hroom : 2 ≤ s.valTop) (hmore : more s = true) :
    KeepsStack s (acceptPacket.run s) 0 := by
  constructor
  · intro e he
    rw [acceptPacket_rest h.ready h.allocated hmore] at he
    cases hpacket : (packet s).run s.rest with
    | error e' =>
        rw [hpacket] at he
        cases he
        exact packet_stackSound hroom _ s.rest _ (Nat.lt_succ_self _) hpacket
    | ok x =>
        rw [hpacket] at he
        cases he
  · intro s' hs'
    have h' := h.step hmore hs'
    refine ⟨?_, [], rfl, ?_⟩
    · rw [h'.valTop, h.valTop, Nat.cast_zero, sub_zero]
    · rw [h'.valStack, h.valStack, List.nil_append]

/-- A sample type `a` that is an `int`, in a stream of its own. -/
def intDefinition : Buffer where
  bytes := (Packet.sampleDef 0x40 [nameIntention [97]] [0x23]).bytes
  length_lt := by decide

end LabComm.C.SigParser
