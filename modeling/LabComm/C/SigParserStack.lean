import LabComm.C.SigParserFraming

set_option autoImplicit false

/-! # The value stack over packets

No call pushes or pops outside the value stack, whatever it reads. A call that is made for a packet
within the limits of the parser returns, and leaves the stack as it was; one that is made for the
description of a type returns and leaves two entries more. Two cells are enough for this at any
depth.
-/

namespace LabComm.C.SigParser

open Library

/-! ## Packets within the limits -/

/-- The id is one that an `int` can hold, the name has room for one byte more, and the signature
fits together with its length. -/
def Frame.WithinLimits (config : Config) : Frame → Prop
  | packet (.sampleDef index intentions signature) => index < 2 ^ 31 ∧
      nameLength intentions < config.maxNameLen ∧ (counted signature).length ≤ config.maxSigLen
  | packet (.sampleRef index _ _) => index < 2 ^ 31
  | packet (.typeDef index _ _) => index < 2 ^ 31
  | packet (.sample index _) => index < 2 ^ 31
  | packet (.version _) => True
  | packet (.typeBinding _ _) => True
  | packet (.pragma _ _) => True
  | reserved _ _ => True

/-- The tag is one that is skipped. -/
def IsSkipped (tag : Nat) : Prop :=
  tag < LABCOMM_USER ∧ tag ≠ LABCOMM_VERSION ∧ ¬ IsDeclaration tag ∧ tag ≠ LABCOMM_TYPE_BINDING

instance (tag : Nat) : Decidable (IsSkipped tag) :=
  inferInstanceAs (Decidable (_ ∧ _ ∧ ¬ IsDeclaration tag ∧ _))

/-- A packet within the limits is stepped over, but for those with a tag that is skipped. -/
theorem kept_or_isSkipped {config : Config} {f : Frame} (hf : f.WellFormed config)
    (hlimits : f.WithinLimits config) (hcells : (2 : Int) ≤ wrap32 (config.stacksize - 1)) :
    f.Kept config ∨ IsSkipped f.tag := by
  have hentries : ∀ n : Nat, n ≤ 2 → n = 0 ∨ (n : Int) ≤ wrap32 (config.stacksize - 1) := by
    intro n hn
    omega
  cases f with
  | reserved tag body => exact .inr hf
  | packet p =>
      cases p with
      | pragma type data =>
          exact .inr (show IsSkipped LABCOMM_PRAGMA by decide)
      | sampleDef index is signature => exact .inl ⟨hlimits, hentries 2 le_rfl⟩
      | sampleRef index is signature => exact .inl ⟨hlimits, hentries 2 le_rfl⟩
      | typeDef index is signature => exact .inl ⟨hlimits, hentries 2 le_rfl⟩
      | sample index body => exact .inl ⟨hlimits, hentries 1 one_le_two⟩
      | version v => exact .inl ⟨trivial, hentries 1 one_le_two⟩
      | typeBinding sindex tindex => exact .inl ⟨trivial, .inl rfl⟩

/-! ## Calls that return -/

/-- The call returns, and leaves `added` entries more on the stack. -/
def Leaves (s : State) (result : Except Fault (Unit × State)) (added : Nat) : Prop :=
  ∃ s', result = .ok ((), s') ∧ s'.valTop = s.valTop - added ∧
    ∃ entries : List Nat, entries.length = added ∧ s'.valStack = entries ++ s.valStack

theorem KeepsStack.leaves {s s' : State} {result : Except Fault (Unit × State)} {added : Nat}
    (h : KeepsStack s result added) (hresult : result = .ok ((), s')) : Leaves s result added :=
  ⟨s', hresult, h.returns s' hresult⟩

section Returns

variable {config : Config} {c : Buffer} {s : State}

theorem acceptPacket_returns (hs : Between config c s) (hmore : more s = true) {f : Frame}
    {rest : List UInt8} (hrest : s.rest = f.bytes ++ rest) (hf : f.WellFormed config)
    (hlimits : f.WithinLimits config) (hcells : (2 : Int) ≤ wrap32 (config.stacksize - 1)) :
    ∃ s', acceptPacket.run s = .ok ((), s') := by
  rcases kept_or_isSkipped hf hlimits hcells with hkept | hskipped
  · obtain ⟨s', hs', _⟩ := (advances_iff hs hmore hrest hf).mpr hkept
    exact ⟨s', hs'⟩
  · rw [acceptPacket_rest hs.ready hs.allocated hmore, hrest, Frame.bytes, List.append_assoc,
      skipped_run hskipped.1 hskipped.2]
    exact ⟨_, rfl⟩

/-- The description of a type, in which some user types are references, is read. -/
theorem acceptType_returns {t : State} (ht : HasRoom config c t) {type : DataType}
    {ids : Name → Option Nat} (hids : ∀ name index, ids name = some index → UserId index)
    (htype : type.HasIndices) {rest : List UInt8} (hrest : t.rest = type.described ids id ++ rest) :
    ∃ t', (acceptType (t.c.bytes.length + 1)).run t = .ok ((), t') := by
  have hle := (rest_suffix t).length_le
  have hlt := t.c.length_lt
  have hroom := ht.room
  have hlength := congrArg List.length hrest
  rw [List.length_append] at hlength
  have hread := @description_consumes ids id type (hasNumbers hids htype) (by omega) t.c.bytes.length
    (by omega) t.currentDeclIsVarsize rest
  have hrun := @acceptType_follows _ ht.ready [] (by rw [List.length_nil]; omega)
    (t.c.bytes.length + 1) t.currentDeclIsVarsize t.rest (rest_suffix t)
  rw [leaving_rest ht.idx.1 ht.idx.2, hrest, hread] at hrun
  exact ⟨_, hrun⟩

end Returns

/-- **The value stack.** No call leaves the value stack, and the calls for packets within the limits
and for types return. Three cells, of which one is never used, are enough for all of this. -/
theorem accept_packet_val_top {config : Config} {c : Buffer} {s : State}
    (hsmall : 3 ≤ config.stacksize) (hint : config.stacksize ≤ 2 ^ 31) (hs : Reached config c s)
    (hmore : more s = true) :
    KeepsStack s (acceptPacket.run s) 0 ∧
    (∀ (f : Frame) (rest : List UInt8), s.rest = f.bytes ++ rest → f.WellFormed config →
      f.WithinLimits config →
      Leaves s (acceptPacket.run s) 0) ∧
    ∀ t, HasRoom config c t → (∀ fuel, KeepsStack t ((acceptType fuel).run t) 2) ∧
      ∀ (type : DataType) (ids : Name → Option Nat) (rest : List UInt8), type.HasIndices →
        (∀ name index, ids name = some index → UserId index) →
        t.rest = type.described ids id ++ rest →
        Leaves t ((acceptType (t.c.bytes.length + 1)).run t) 2 := by
  have hbetween := hs.between
  have hcells : wrap32 ((config.stacksize : Int) - 1) = config.stacksize - 1 :=
    wrap32_of_lt (by omega) (by omega)
  have htop : s.valTop = config.stacksize - 1 := by
    rw [hbetween.valTop]
    exact hcells
  have hkeeps := acceptPacket_keepsStack hbetween (by omega) hmore
  refine ⟨hkeeps, fun f rest hrest hf hlimits => ?_, fun t ht => ⟨fun fuel => ?_, ?_⟩⟩
  · obtain ⟨s', hs'⟩ := acceptPacket_returns hbetween hmore hrest hf hlimits (by omega)
    exact hkeeps.leaves hs'
  · exact acceptType_keepsStack ht fuel
  · intro type ids rest htype hids hrest
    obtain ⟨t', ht'⟩ := acceptType_returns ht hids htype hrest
    exact (acceptType_keepsStack ht _).leaves ht'

theorem accept_packet_val_top_int :
    Leaves (init ⟨3, 1, 2, 2⟩ intDefinition) (acceptPacket.run (init ⟨3, 1, 2, 2⟩ intDefinition))
      0 :=
  (accept_packet_val_top (by decide) (by decide) Reached.init (by decide)).2.1
    (.packet (.sampleDef 0x40 [nameIntention [97]] [0x23])) [] rfl
    ⟨⟨⟨by decide, by decide⟩, by decide⟩, ⟨.prim .int, trivial, rfl⟩, by decide, by decide⟩
    ⟨by decide, by decide, by decide⟩

/-- A reference to a sample type, with the first id that is no `int`. -/
def highReference : Buffer where
  bytes := (Packet.sampleRef (2 ^ 31) [nameIntention [97]] [0x23]).bytes
  length_lt := by decide

/-- Well-formed packets for which the call does not return: the name does not fit, the signature
does not, and the id does not. -/
theorem accept_packet_beyond_limits :
    acceptPacket.run (init ⟨3, 1, 1, 2⟩ intDefinition) = .error (.exit .nameLength) ∧
      acceptPacket.run (init ⟨3, 1, 2, 1⟩ intDefinition) = .error (.exit .sigLength) ∧
      acceptPacket.run (init ⟨3, 1, 2, 2⟩ highReference) = .error (.exit .uid) := by
  rw [acceptPacket_rest (Reached.init.between).ready (Reached.init.between).allocated (by decide),
    acceptPacket_rest (Reached.init.between).ready (Reached.init.between).allocated (by decide),
    acceptPacket_rest (Reached.init.between).ready (Reached.init.between).allocated (by decide)]
  exact ⟨rfl, rfl, rfl⟩

end LabComm.C.SigParser
