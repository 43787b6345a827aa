import LabComm.C.SigParserSizes
import LabComm.C.SigParserBounds

set_option autoImplicit false

/-! # Packets the signature parser steps over

Over a buffer with a sequence of packets, each call of `acceptPacket` takes off exactly one of them
if and only if its ids, its name and its signature are within what the parser can hold, and, for a
reserved tag, the packet has by chance as many bytes as the tag says: this is what is skipped.
-/

namespace LabComm.C.SigParser

open Library

/-! ## Packets -/

/-- A packet of any kind; the reserved tags that mean nothing have any body. -/
inductive Frame where
  | packet (p : Packet)
  | reserved (tag : Nat) (body : List UInt8)

/-- The tag. -/
def Frame.tag : Frame → Nat
  | packet p => p.tag
  | reserved tag _ => tag

/-- What follows the tag and the length. -/
def Frame.body : Frame → List UInt8
  | packet p => p.body
  | reserved _ body => body

/-- Tag, length and payload. -/
def Frame.bytes (f : Frame) : List UInt8 := packed32 f.tag ++ counted f.body

/-- The length of the name that the parser finds in intentions. -/
def nameLength (is : List Intention) : Nat := (lastName is [] (none, 0)).2

/-- The id has an entry in the tables. -/
def HasEntry (config : Config) (index : Nat) : Prop :=
  UserId index ∧ index < config.maxSignatures + LABCOMM_USER

/-- The signature of a type definition: some user types in it are references. -/
def IsTypeSignature (signature : List SigItem) : Prop :=
  ∃ (type : DataType) (ids : Name → Option Nat), type.HasIndices ∧
    (∀ name index, ids name = some index → UserId index) ∧
      signature.flatMap SigItem.bytes = type.described ids id

/-- The packet is well formed, with ids in the tables, and its name and signature are not longer
than what the parser was set up with. -/
def Frame.WellFormed (config : Config) : Frame → Prop
  | packet (.version _) => True
  | packet (.sampleDef index intentions signature) => HasEntry config index ∧
      IsSignature signature ∧ nameLength intentions ≤ config.maxNameLen ∧
        signature.length ≤ config.maxSigLen
  | packet (.sampleRef index _ signature) => HasEntry config index ∧ IsSignature signature
  | packet (.typeDef index _ signature) => HasEntry config index ∧ IsTypeSignature signature
  | packet (.typeBinding sindex tindex) => UserId sindex ∧ (tindex = 0 ∨ UserId tindex)
  | packet (.pragma _ _) => True
  | packet (.sample index _) => HasEntry config index
  | reserved tag _ => tag < LABCOMM_USER ∧ tag ≠ LABCOMM_VERSION ∧ ¬ IsDeclaration tag ∧
      tag ≠ LABCOMM_TYPE_BINDING

/-- The entries that are pushed for the packet at the same time. -/
def Frame.entries : Frame → Nat
  | packet (.version _) => 1
  | packet (.sampleDef ..) => 2
  | packet (.sampleRef ..) => 2
  | packet (.typeDef ..) => 2
  | packet (.typeBinding ..) => 0
  | packet (.pragma _ _) => 0
  | packet (.sample ..) => 1
  | reserved _ _ => 0

/-- The stack has cells for the entries of the packet. -/
def Frame.HasCells (f : Frame) (config : Config) : Prop :=
  f.entries = 0 ∨ (f.entries : Int) ≤ wrap32 (config.stacksize - 1)

/-- What the parser asks of a packet: ids that an `int` can hold, a name with room for one byte
more, a signature that fits together with its length, and of a packet that it does not know as many
bytes as the tag says. -/
def Frame.Holds (config : Config) : Frame → Prop
  | packet (.version _) => True
  | packet (.sampleDef index intentions signature) => index < 2 ^ 31 ∧
      nameLength intentions < config.maxNameLen ∧ (counted signature).length ≤ config.maxSigLen
  | packet (.sampleRef index _ _) => index < 2 ^ 31
  | packet (.typeDef index _ _) => index < 2 ^ 31
  | packet (.typeBinding _ _) => True
  | packet (.pragma type data) => (counted (Packet.pragma type data).body).length = LABCOMM_PRAGMA
  | packet (.sample index _) => index < 2 ^ 31
  | reserved tag body => (counted body).length = tag

/-- The condition under which a packet is stepped over. -/
def Frame.Kept (config : Config) (f : Frame) : Prop := f.Holds config ∧ f.HasCells config

/-! ## Signatures -/

theorem lastName_snd (is : List Intention) (rest rest' : List UInt8)
    {found found' : Option (List UInt8) × Nat} (h : found.2 = found'.2) :
    (lastName is rest found).2 = (lastName is rest' found').2 := by
  induction is generalizing found found' with
  | nil => exact h
  | cons i is ih =>
      rw [lastName, lastName]
      refine ih ?_
      split
      · rfl
      · exact h

mutual

theorem hasNumbers {ids : Name → Option Nat}
    (hids : ∀ name index, ids name = some index → UserId index) {t : DataType}
    (h : t.HasIndices) : HasNumbers ids t := by
  match t with
  | .void | .prim _ => trivial
  | .user name type =>
      rw [HasNumbers]
      cases hid : ids name with
      | none => exact hasNumbers hids (t := type) h
      | some index => exact hids name index hid
  | .struct fields => exact @fieldsHaveNumbers _ hids fields h
  | .array elem dim =>
      refine ⟨fun e he => ?_, hasNumbers hids h.2⟩
      have hindex := h.1 e he
      cases e with
      | variableSize => trivial
      | integerLiteral value => exact hindex.2

theorem fieldsHaveNumbers {ids : Name → Option Nat}
    (hids : ∀ name index, ids name = some index → UserId index) {fields : Fields}
    (h : fields.HasIndices) : FieldsHaveNumbers ids fields := by
  match fields with
  | .nil => trivial
  | .cons _ _ type rest => exact ⟨hasNumbers hids h.1, fieldsHaveNumbers hids h.2⟩

end

/-- The signature after a declaration. -/
theorem signature_consumes {ids : Name → Option Nat}
    (hids : ∀ name index, ids name = some index → UserId index) {t : DataType} (ht : t.HasIndices)
    {bs : List UInt8} (hbs : bs = t.described ids id) {size : Nat} (hsize : size < 2 ^ 31)
    (hlen : bs.length ≤ size) :
    Consumes (signature (size + 1)) (counted bs) (found ids t false) := by
  subst hbs
  exact (number_consumes (by omega)).bind
    (description_consumes t (hasNumbers hids ht) (by omega) size hlen false)

theorem isUser_iff {index : Nat} (h : UserId index) : IsUser index ↔ index < 2 ^ 31 := by
  have hle : 0x40 ≤ index := h.1
  have hlt := h.2
  constructor
  · intro huser
    by_contra hge
    have hneg := wrap32_natCast_of_ge (n := index) (by omega) hlt
    have huser' : (0x40 : Int) ≤ wrap32 index := huser
    omega
  · intro hsmall
    show (0x40 : Int) ≤ wrap32 index
    rw [wrap32_natCast hsmall]
    omega

/-! ## Steps -/

/-- `q` takes just `bs` and asks for no skip if `P`, and fails if not. -/
structure Takes (q : Parser Fault Outcome) (bs rest : List UInt8) (P : Prop) : Prop where
  accepts : P → ∃ o, o.distance = 0 ∧ q.run (bs ++ rest) = .ok (o, rest)
  refuses : ¬ P → ∃ e, q.run (bs ++ rest) = .error e

theorem Takes.congr {q : Parser Fault Outcome} {bs rest : List UInt8} {P Q : Prop}
    (h : Takes q bs rest P) (hPQ : P ↔ Q) : Takes q bs rest Q :=
  ⟨fun hQ => h.accepts (hPQ.mpr hQ), fun hQ => h.refuses fun hP => hQ (hPQ.mp hP)⟩

section Takes

variable {α : Type} {q : Parser Fault α} {f : α → Parser Fault Outcome} {bs cs rest : List UInt8}
  {a : α} {P Q : Prop}

/-- A first half that takes its bytes. -/
theorem Takes.after (hq : q.run (bs ++ (cs ++ rest)) = .ok (a, cs ++ rest))
    (hf : Takes (f a) cs rest P) : Takes (q >>= f) (bs ++ cs) rest P := by
  constructor
  · intro hP
    obtain ⟨o, hzero, ho⟩ := hf.accepts hP
    exact ⟨o, hzero, by rw [List.append_assoc, run_bind_of_ok hq, ho]⟩
  · intro hP
    obtain ⟨e, he⟩ := hf.refuses hP
    exact ⟨e, by rw [List.append_assoc, run_bind_of_ok hq, he]⟩

/-- A check. -/
theorem Takes.ite [Decidable Q] {q : Parser Fault Outcome} {e : Fault}
    (hq : Q → Takes q bs rest P) : Takes (if Q then q else throw e) bs rest (Q ∧ P) := by
  by_cases hQ : Q
  · rw [if_pos hQ]
    exact (hq hQ).congr ⟨fun h => ⟨hQ, h⟩, fun h => h.2⟩
  · rw [if_neg hQ]
    exact ⟨fun h => absurd h.1 hQ, fun _ => ⟨e, rfl⟩⟩

/-- A check of the stack. -/
theorem Takes.room {top : Int} {n : Nat} {f : Unit → Parser Fault Outcome}
    (hf : 0 ≤ top ∧ (n : Int) ≤ top → Takes (f ()) bs rest P) :
    Takes (room top n >>= f) bs rest ((0 ≤ top ∧ (n : Int) ≤ top) ∧ P) := by
  by_cases htop : 0 ≤ top ∧ (n : Int) ≤ top
  · rw [room_of_le htop.1 htop.2, pure_bind]
    exact (hf htop).congr ⟨fun h => ⟨htop, h⟩, fun h => h.2⟩
  · refine ⟨fun h => absurd h.1 htop, fun _ => ?_⟩
    cases hrun : (SigParser.room top n).run (bs ++ rest) with
    | error e => exact ⟨e, run_bind_of_error hrun _⟩
    | ok x => exact absurd (le_of_room hrun) htop

theorem Takes.pure (varsize : Bool) (record : Option Record) :
    Takes (pure ⟨varsize, record, 0⟩) [] rest True :=
  ⟨fun _ => ⟨_, rfl, rfl⟩, fun h => absurd trivial h⟩

/-- Something that is read to the end. -/
theorem Takes.last (hq : Consumes q bs a) (hf : Takes (f a) [] rest P) :
    Takes (q >>= f) bs rest P := by
  have h := @Takes.after _ _ _ bs [] _ _ _ (hq rest) hf
  rwa [List.append_nil] at h

end Takes

/-! ## Declarations -/

theorem userId_run {index : Nat} (h : UserId index) (rest : List UInt8) :
    userId.run (packed32 index ++ rest) =
      if IsUser index then .ok (index, rest) else .error (.exit .uid) := by
  rw [userId, run_bind_of_ok (number_consumes h.2 rest)]
  by_cases huser : IsUser index
  · rw [if_pos huser, if_pos huser]
    rfl
  · rw [if_neg huser, if_neg huser]
    rfl

theorem userId_takes {index : Nat} (h : UserId index) {f : Nat → Parser Fault Outcome}
    {bs rest : List UInt8} {P : Prop} (hf : Takes (f index) bs rest P) :
    Takes (userId >>= f) (packed32 index ++ bs) rest (index < 2 ^ 31 ∧ P) := by
  have hrun := userId_run h (bs ++ rest)
  by_cases hsmall : index < 2 ^ 31
  · rw [if_pos ((isUser_iff h).mpr hsmall)] at hrun
    exact (Takes.after hrun hf).congr ⟨fun hP => ⟨hsmall, hP⟩, fun hP => hP.2⟩
  · rw [if_neg fun huser => hsmall ((isUser_iff h).mp huser)] at hrun
    refine ⟨fun hP => absurd hP.1 hsmall, fun _ => ⟨.exit .uid, ?_⟩⟩
    rw [List.append_assoc]
    exact run_bind_of_error hrun f

section Declarations

variable {p : State} {bs rest : List UInt8} {d : Described}
  (hsig : Consumes (signature (p.c.bytes.length + 1)) (counted bs) d)

include hsig

theorem definition_takes_ignored {tag : Nat} (htag : tag ≠ LABCOMM_SAMPLE_DEF) (uid : Nat)
    (found : Option (List UInt8) × Nat) :
    Takes (definition p tag uid found) (counted bs) rest True := by
  have hget : ∀ l, (get : Parser Fault (List UInt8)).run ([] ++ l) = .ok (l, l) := fun _ => rfl
  rw [definition]
  refine @Takes.after _ _ _ [] _ _ _ _ (hget (counted bs ++ rest)) ?_
  rw [if_neg htag]
  exact Takes.last hsig (Takes.pure _ _)

theorem definition_takes {uid : Nat} (huid : uid - LABCOMM_USER < p.config.maxSignatures)
    {found : Option (List UInt8) × Nat} (hname : HasName found.1 found.2) :
    Takes (definition p LABCOMM_SAMPLE_DEF uid found) (counted bs) rest
      (found.2 < p.config.maxNameLen ∧ (counted bs).length ≤ p.config.maxSigLen) := by
  have hget : ∀ l, (get : Parser Fault (List UInt8)).run ([] ++ l) = .ok (l, l) := fun _ => rfl
  have hlength : (counted bs ++ rest).length - rest.length = (counted bs).length := by
    rw [List.length_append]
    omega
  rw [definition]
  refine @Takes.after _ _ _ [] _ _ _ _ (hget (counted bs ++ rest)) ?_
  rw [if_pos rfl]
  refine Takes.ite fun _ => ?_
  rw [if_pos huid, if_pos hname]
  refine Takes.last hsig (@Takes.after _ _ _ [] [] _ _ _ (hget rest) ?_)
  rw [hlength]
  exact (Takes.ite fun _ => Takes.pure _ _).congr (and_iff_left trivial)

end Declarations

theorem declaration_takes {p : State} {index tag : Nat} {is : List Intention}
    {bs rest : List UInt8} {P : Prop} (hindex : UserId index)
    (his : (intentionsBytes is).length < 2 ^ 31)
    (hdef : Takes (definition p tag index (lastName is (counted bs ++ rest) (none, 0)))
      (counted bs) rest P) :
    Takes (declaration p tag) (definitionBytes index is bs) rest
      (index < 2 ^ 31 ∧ 2 ≤ p.valTop ∧ P) := by
  rw [declaration, definitionBytes, List.append_assoc]
  have hname := Takes.after (q := name)
    (f := fun found => room p.valTop 2 >>= fun _ => definition p tag index found)
    (name_run his (counted bs ++ rest)) (Takes.room fun _ => hdef)
  refine (userId_takes hindex (Takes.room fun _ => hname)).congr (and_congr_right fun _ => ?_)
  constructor
  · rintro ⟨_, htwo, hP⟩
    exact ⟨htwo.2, hP⟩
  · rintro ⟨htwo, hP⟩
    exact ⟨⟨by omega, by rw [Nat.cast_one]; omega⟩, ⟨by omega, htwo⟩, hP⟩

/-- A declaration of anything but a sample type. -/
theorem ignored_takes {p : State} {index tag : Nat} (htag : tag ≠ LABCOMM_SAMPLE_DEF)
    {is : List Intention} {bs rest : List UInt8} {d : Described} (hindex : UserId index)
    (his : (intentionsBytes is).length < 2 ^ 31)
    (hsig : Consumes (signature (p.c.bytes.length + 1)) (counted bs) d) :
    Takes (declaration p tag) (definitionBytes index is bs) rest
      (index < 2 ^ 31 ∧ 2 ≤ p.valTop) :=
  (declaration_takes hindex his (definition_takes_ignored hsig htag index _)).congr
    (and_congr_right fun _ => and_iff_left trivial)

theorem sample_takes {p : State} {index : Nat} {is : List Intention} {bs rest : List UInt8}
    {d : Described} (hindex : HasEntry p.config index) (his : (intentionsBytes is).length < 2 ^ 31)
    (hsig : Consumes (signature (p.c.bytes.length + 1)) (counted bs) d) :
    Takes (declaration p LABCOMM_SAMPLE_DEF) (definitionBytes index is bs) rest
      (index < 2 ^ 31 ∧ 2 ≤ p.valTop ∧ nameLength is < p.config.maxNameLen ∧
        (counted bs).length ≤ p.config.maxSigLen) := by
  have hentry : index - LABCOMM_USER < p.config.maxSignatures := by
    have := hindex.1.1
    have := hindex.2
    omega
  have hne : counted bs ++ rest ≠ [] := by
    have hpos := packed32_length_pos bs.length
    intro h
    have hlength := congrArg List.length h
    rw [List.length_append, counted_length, List.length_nil] at hlength
    omega
  have hname := hasName_of_ne_nil (name_run his (counted bs ++ rest)) hne
  have hlength : (lastName is (counted bs ++ rest) (none, 0)).2 = nameLength is :=
    lastName_snd is _ _ rfl
  have hdef := @definition_takes _ _ rest _ hsig _ hentry _ hname
  rw [hlength] at hdef
  exact declaration_takes hindex.1 his hdef

/-! ## Packets after their tag -/

section Tags

variable {p : State} {bs rest : List UInt8} {P : Prop}

/-- A packet that is read to its end. -/
theorem packet_takes {tag : Nat} (htag : tag < 2 ^ 32) {f : Nat → Parser Fault Outcome}
    (hf : packet p = number >>= f) (h : Takes (f tag) (counted bs) rest P) :
    Takes (packet p) (packed32 tag ++ counted bs) rest P := by
  rw [hf]
  exact Takes.after (number_consumes htag _) h

/-- The length is read and ignored. -/
theorem counted_takes (hlen : bs.length < 2 ^ 32) {q : Parser Fault Outcome}
    (h : Takes q bs rest P) : Takes (number >>= fun _ => q) (counted bs) rest P :=
  Takes.after (number_consumes hlen _) h

theorem version_takes {v : List UInt8} (hlen : (counted v).length < 2 ^ 31) :
    Takes (packet p) (packed32 LABCOMM_VERSION ++ counted (counted v)) rest (1 ≤ p.valTop) := by
  have hle := length_le_counted v
  refine packet_takes (by decide) rfl ?_
  rw [if_pos rfl]
  refine counted_takes (by omega) (Takes.last (string_consumes (by omega)) ?_)
  refine (Takes.room fun _ => Takes.pure _ _).congr ?_
  rw [Nat.cast_one]
  constructor
  · rintro ⟨⟨_, hone⟩, _⟩
    exact hone
  · exact fun hone => ⟨⟨by omega, hone⟩, trivial⟩

/-- The branch of the declarations. -/
theorem declared_takes {tag : Nat} (htag : IsDeclaration tag) (hlen : bs.length < 2 ^ 32)
    (h : Takes (declaration p tag) bs rest P) :
    Takes (packet p) (packed32 tag ++ counted bs) rest P := by
  have hversion : tag ≠ LABCOMM_VERSION ∧ tag < 2 ^ 32 := by
    rcases htag with rfl | rfl | rfl <;> decide
  refine packet_takes hversion.2 rfl ?_
  rw [if_neg hversion.1, if_pos htag]
  exact counted_takes hlen h

theorem binding_takes {sindex tindex : Nat} (hs : sindex < 2 ^ 32) (ht : tindex < 2 ^ 32)
    (hlen : (packed32 sindex ++ packed32 tindex).length < 2 ^ 32) :
    Takes (packet p)
      (packed32 LABCOMM_TYPE_BINDING ++ counted (packed32 sindex ++ packed32 tindex)) rest
      True := by
  refine packet_takes (by decide) rfl ?_
  rw [if_neg (by decide), if_neg (by decide), if_pos rfl]
  refine counted_takes hlen (Takes.after (number_consumes hs _) ?_)
  exact Takes.last (number_consumes ht) (Takes.pure _ _)

/-- Tags that neither start a declaration nor are read otherwise. -/
theorem packet_other {tag : Nat} (htag : tag < 2 ^ 32)
    (hother : tag ≠ LABCOMM_VERSION ∧ ¬ IsDeclaration tag ∧ tag ≠ LABCOMM_TYPE_BINDING)
    (l : List UInt8) : (packet p).run (packed32 tag ++ l) =
      (if LABCOMM_USER ≤ tag then
        if IsUser tag then room p.valTop 1 >>= fun _ => number >>= fun len =>
          pure ⟨p.currentDeclIsVarsize, none, wrap32 len⟩
        else throw (.exit .uid)
      else pure ⟨p.currentDeclIsVarsize, none, wrap32 tag⟩ : Parser Fault Outcome).run l := by
  rw [packet, run_bind_of_ok (number_consumes htag l), if_neg hother.1, if_neg hother.2.1,
    if_neg hother.2.2]

theorem data_other {tag : Nat} (htag : UserId tag) :
    tag ≠ LABCOMM_VERSION ∧ ¬ IsDeclaration tag ∧ tag ≠ LABCOMM_TYPE_BINDING := by
  have hle : LABCOMM_USER ≤ tag := htag.1
  refine ⟨fun h => ?_, fun h => ?_, fun h => ?_⟩
  · rw [h] at hle
    exact absurd hle (by decide)
  · rcases h with rfl | rfl | rfl <;> exact absurd hle (by decide)
  · rw [h] at hle
    exact absurd hle (by decide)

theorem data_run {tag : Nat} (htag : UserId tag) (hsmall : tag < 2 ^ 31) (htop : 1 ≤ p.valTop)
    (hlen : bs.length < 2 ^ 32) : (packet p).run (packed32 tag ++ (counted bs ++ rest)) =
      .ok (⟨p.currentDeclIsVarsize, none, wrap32 bs.length⟩, bs ++ rest) := by
  rw [packet_other htag.2 (data_other htag), if_pos htag.1, if_pos ((isUser_iff htag).mpr hsmall),
    room_of_le (by omega) (by rw [Nat.cast_one]; exact htop), pure_bind, counted, List.append_assoc,
    run_bind_of_ok (number_consumes hlen _)]
  rfl

theorem data_refused {tag : Nat} (htag : UserId tag) (h : ¬ (tag < 2 ^ 31 ∧ 1 ≤ p.valTop)) :
    ∃ e, (packet p).run (packed32 tag ++ bs) = .error e := by
  rw [packet_other htag.2 (data_other htag), if_pos htag.1]
  by_cases hsmall : tag < 2 ^ 31
  · rw [if_pos ((isUser_iff htag).mpr hsmall)]
    cases hroom : (SigParser.room p.valTop 1).run bs with
    | error e => exact ⟨e, run_bind_of_error hroom _⟩
    | ok x =>
        have htop := (le_of_room hroom).2
        rw [Nat.cast_one] at htop
        exact absurd ⟨hsmall, htop⟩ h
  · rw [if_neg fun huser => hsmall ((isUser_iff htag).mp huser)]
    exact ⟨_, rfl⟩

theorem skipped_run {tag : Nat} (htag : tag < LABCOMM_USER)
    (hother : tag ≠ LABCOMM_VERSION ∧ ¬ IsDeclaration tag ∧ tag ≠ LABCOMM_TYPE_BINDING)
    (l : List UInt8) : (packet p).run (packed32 tag ++ l) =
      .ok (⟨p.currentDeclIsVarsize, none, wrap32 tag⟩, l) := by
  have htag' : tag < 0x40 := htag
  rw [packet_other (by omega) hother, if_neg (Nat.not_le.mpr htag)]
  rfl

end Tags

/-! ## One packet -/

/-- The call takes off just the packet. -/
def Advances (s : State) (f : Frame) : Prop :=
  ∃ s', acceptPacket.run s = .ok ((), s') ∧ s'.idx = s.idx + f.bytes.length

section Step

variable {config : Config} {c : Buffer} {s : State} (hs : Between config c s)
  (hmore : more s = true) {f : Frame} {rest : List UInt8} (hrest : s.rest = f.bytes ++ rest)

include hs hmore hrest

omit hs in
/-- Where the index should be. -/
theorem idx_add_length : s.idx + f.bytes.length = (s.c.bytes.length : Int) - rest.length := by
  have hidx := idx_of_more hmore
  have hlength : s.rest.length = f.bytes.length + rest.length := by
    rw [hrest, List.length_append]
  rw [State.rest, List.length_drop] at hlength
  omega

theorem advances_of_run {varsize : Bool} {record : Option Record} {distance : Int} {r : List UInt8}
    (hrun : (packet s).run (f.bytes ++ rest) = .ok (⟨varsize, record, distance⟩, r)) :
    Advances s f ↔ wrap32 ((s.c.bytes.length : Int) - r.length + distance) =
      (s.c.bytes.length : Int) - rest.length := by
  rw [Advances, acceptPacket_rest hs.ready hs.allocated hmore, hrest, hrun,
    idx_add_length hmore hrest]
  constructor
  · rintro ⟨s', hs', hidx⟩
    have hs'' : (Except.ok ((), s.finish ⟨varsize, record, distance⟩ r) : Except Fault _) =
        .ok ((), s') := hs'
    simp only [Except.ok.injEq, Prod.mk.injEq, true_and] at hs''
    rw [← hs''] at hidx
    exact hidx
  · exact fun hidx => ⟨_, rfl, hidx⟩

/-- A call that fails takes off nothing. -/
theorem not_advances {e : Fault} (he : (packet s).run (f.bytes ++ rest) = .error e) :
    ¬ Advances s f := by
  rintro ⟨s', hs', _⟩
  rw [acceptPacket_rest hs.ready hs.allocated hmore, hrest, he] at hs'
  cases hs'

theorem advances_of_takes {P : Prop} (h : Takes (packet s) f.bytes rest P) :
    Advances s f ↔ P := by
  have hsuffix : rest <:+ s.c.bytes := by
    refine List.IsSuffix.trans ?_ (rest_suffix s)
    rw [hrest]
    exact List.suffix_append _ _
  have hle := hsuffix.length_le
  have hlt := s.c.length_lt
  by_cases hP : P
  · obtain ⟨⟨varsize, record, distance⟩, hzero, hrun⟩ := h.accepts hP
    have hzero' : distance = 0 := hzero
    rw [advances_of_run hs hmore hrest hrun, hzero', add_zero,
      wrap32_of_lt (by omega) (by omega)]
    exact iff_of_true rfl hP
  · obtain ⟨e, he⟩ := h.refuses hP
    exact iff_of_false (not_advances hs hmore hrest he) hP

omit hs hmore in
theorem bytes_length_lt : f.bytes.length + rest.length < 2 ^ 31 := by
  have hlength : s.rest.length = f.bytes.length + rest.length := by
    rw [hrest, List.length_append]
  have hle := (rest_suffix s).length_le
  have hlt := s.c.length_lt
  omega

/-- Sample data is skipped as its length says. -/
theorem advances_data {index : Nat} {body : List UInt8} (hf : f = .packet (.sample index body))
    (hindex : UserId index) : Advances s f ↔ index < 2 ^ 31 ∧ 1 ≤ s.valTop := by
  have hlt := bytes_length_lt hrest
  have hbytes : f.bytes = packed32 index ++ counted body := by rw [hf]; rfl
  have hbody := length_le_counted body
  have hlength : f.bytes.length = (packed32 index).length + (counted body).length := by
    rw [hbytes, List.length_append]
  by_cases hP : index < 2 ^ 31 ∧ 1 ≤ s.valTop
  · have hrun := @data_run _ body rest _ hindex hP.1 hP.2 (by omega)
    rw [← List.append_assoc, ← hbytes] at hrun
    have hmin := idx_add_length hmore hrest
    have hidx := idx_of_more hmore
    have hle := s.c.length_lt
    rw [advances_of_run hs hmore hrest hrun]
    refine iff_of_true ?_ hP
    rw [wrap32_natCast (by omega), List.length_append, wrap32_of_lt (by omega) (by omega)]
    omega
  · obtain ⟨e, he⟩ := @data_refused _ (counted body ++ rest) _ hindex hP
    rw [← List.append_assoc, ← hbytes] at he
    exact iff_of_false (not_advances hs hmore hrest he) hP

/-- The tag is read as a length where it is not known. -/
theorem advances_skipped (htag : f.tag < LABCOMM_USER) (hother : f.tag ≠ LABCOMM_VERSION ∧
    ¬ IsDeclaration f.tag ∧ f.tag ≠ LABCOMM_TYPE_BINDING) :
    Advances s f ↔ (counted f.body).length = f.tag := by
  have hlt := bytes_length_lt hrest
  have htag' : f.tag < 0x40 := htag
  have hlength : f.bytes.length = (packed32 f.tag).length + (counted f.body).length := by
    rw [Frame.bytes, List.length_append]
  have hrun := skipped_run (p := s) htag hother (counted f.body ++ rest)
  rw [← List.append_assoc] at hrun
  have hmin := idx_add_length hmore hrest
  have hidx := idx_of_more hmore
  have hle := s.c.length_lt
  rw [advances_of_run hs hmore hrest hrun, wrap32_natCast (by omega), List.length_append, wrap32,
    Int.bmod_def]
  split
  · omega
  · omega

/-- What is declared is read again, and its length ignored. -/
theorem advances_declared {index tag : Nat} {is : List Intention} {bs : List UInt8} {P : Prop}
    (hbytes : f.bytes = packed32 tag ++ counted (definitionBytes index is bs))
    (htag : IsDeclaration tag)
    (htakes : (intentionsBytes is).length < 2 ^ 31 → bs.length < 2 ^ 31 →
      bs.length ≤ s.c.bytes.length →
        Takes (declaration s tag) (definitionBytes index is bs) rest P) :
    Advances s f ↔ P := by
  have hlt := bytes_length_lt hrest
  have hle := length_le_counted (definitionBytes index is bs)
  have hbs := length_le_counted bs
  have hdef : (definitionBytes index is bs).length =
      (packed32 index).length + (intentionsBytes is).length + (counted bs).length := by
    rw [definitionBytes, List.length_append, List.length_append]
  have hbytes' := congrArg List.length hbytes
  have hrest' := (rest_suffix s).length_le
  rw [hrest, List.length_append] at hrest'
  rw [List.length_append] at hbytes'
  refine advances_of_takes hs hmore hrest ?_
  rw [hbytes]
  exact declared_takes htag (by omega) (htakes (by omega) (by omega) (by omega))

omit hs hmore hrest in
theorem noIds_userId (name : Name) (index : Nat) (h : noIds name = some index) :
    UserId index := by
  cases h

omit hmore hrest in
theorem hasCells_iff : f.HasCells config ↔ f.entries = 0 ∨ (f.entries : Int) ≤ s.valTop := by
  rw [Frame.HasCells, hs.valTop]
  rfl

/-- **One packet.** -/
theorem advances_iff (hf : f.WellFormed config) : Advances s f ↔ f.Kept config := by
  have hlt := bytes_length_lt hrest
  have hlength : f.bytes.length = (packed32 f.tag).length + (counted f.body).length := by
    rw [Frame.bytes, List.length_append]
  have hbody := length_le_counted f.body
  have hconfig := hs.config_eq
  rw [Frame.Kept, hasCells_iff hs]
  have href : LABCOMM_SAMPLE_REF ≠ LABCOMM_SAMPLE_DEF ∧ LABCOMM_TYPE_DEF ≠ LABCOMM_SAMPLE_DEF := by
    decide
  cases f with
  | reserved tag body =>
      exact (advances_skipped hs hmore hrest hf.1 hf.2).trans (and_iff_left (.inl rfl)).symm
  | packet p =>
      cases p with
      | version v =>
          refine (advances_of_takes hs hmore hrest (version_takes (v := v) ?_)).trans ?_
          · exact lt_of_le_of_lt hbody (by omega)
          · show 1 ≤ s.valTop ↔ True ∧ (1 = 0 ∨ ((1 : Nat) : Int) ≤ s.valTop)
            rw [true_and, Nat.cast_one]
            omega
      | sampleDef index is signature =>
          obtain ⟨hindex, ⟨type, htype, rfl⟩, _, _⟩ := hf
          have hentry : HasEntry s.config index := by
            rw [hconfig]
            exact hindex
          refine (advances_declared hs hmore hrest rfl (.inl rfl) fun his hbs hsize =>
            sample_takes hentry his (signature_consumes noIds_userId htype
              type.described_none.symm s.c.length_lt hsize)).trans ?_
          rw [hconfig, Frame.Holds]
          show _ ↔ _ ∧ (2 = 0 ∨ ((2 : Nat) : Int) ≤ s.valTop)
          rw [Nat.cast_ofNat]
          omega
      | sampleRef index is signature =>
          obtain ⟨hindex, type, htype, rfl⟩ := hf
          refine (advances_declared hs hmore hrest rfl (.inr (.inl rfl)) fun his hbs hsize =>
            ignored_takes href.1 hindex.1 his (signature_consumes noIds_userId htype
              type.described_none.symm s.c.length_lt hsize)).trans (and_congr_right fun _ => ?_)
          show _ ↔ 2 = 0 ∨ ((2 : Nat) : Int) ≤ s.valTop
          rw [Nat.cast_ofNat]
          omega
      | typeDef index is signature =>
          obtain ⟨hindex, type, ids, htype, hids, hbytes⟩ := hf
          refine (advances_declared hs hmore hrest rfl (.inr (.inr rfl)) fun his hbs hsize =>
            ignored_takes href.2 hindex.1 his
              (signature_consumes hids htype hbytes s.c.length_lt hsize)).trans
                (and_congr_right fun _ => ?_)
          show _ ↔ 2 = 0 ∨ ((2 : Nat) : Int) ≤ s.valTop
          rw [Nat.cast_ofNat]
          omega
      | typeBinding sindex tindex =>
          obtain ⟨hsindex, htindex⟩ := hf
          have ht : tindex < 2 ^ 32 := htindex.elim (fun h => by omega) fun h => h.2
          refine (advances_of_takes hs hmore hrest (binding_takes hsindex.2 ht ?_)).trans ?_
          · exact lt_of_le_of_lt hbody (by omega)
          · exact iff_of_true trivial ⟨trivial, .inl rfl⟩
      | pragma type data =>
          have hother : LABCOMM_PRAGMA ≠ LABCOMM_VERSION ∧ ¬ IsDeclaration LABCOMM_PRAGMA ∧
            LABCOMM_PRAGMA ≠ LABCOMM_TYPE_BINDING := by decide
          have huser : LABCOMM_PRAGMA < LABCOMM_USER := by decide
          exact (advances_skipped hs hmore hrest huser hother).trans (and_iff_left (.inl rfl)).symm
      | sample index body =>
          refine (advances_data hs hmore hrest rfl hf.1).trans (and_congr_right fun _ => ?_)
          show _ ↔ 1 = 0 ∨ ((1 : Nat) : Int) ≤ s.valTop
          omega

end Step

/-! ## All packets -/

/-- One call after the other, each of which takes off one of the packets. -/
inductive Walks : State → List Frame → State → Prop
  | done (s : State) : Walks s [] s
  | packet {s s' s'' : State} {f : Frame} {frames : List Frame} : more s = true →
      acceptPacket.run s = .ok ((), s') → s'.idx = s.idx + f.bytes.length → Walks s' frames s'' →
      Walks s (f :: frames) s''

theorem bytes_length_pos (f : Frame) : 0 < f.bytes.length := by
  have := packed32_length_pos f.tag
  rw [Frame.bytes, List.length_append]
  omega

theorem more_of_rest {s : State} (hidx : 0 ≤ s.idx) {f : Frame} {rest : List UInt8}
    (hrest : s.rest = f.bytes ++ rest) : more s = true := by
  have hlength := congrArg List.length hrest
  have hpos := bytes_length_pos f
  rw [State.rest, List.length_drop, List.length_append] at hlength
  exact decide_eq_true ⟨hidx, by omega⟩

theorem rest_after {s s' : State} (hc : s'.c = s.c) (hidx : 0 ≤ s.idx) {f : Frame}
    (hidx' : s'.idx = s.idx + f.bytes.length) {rest : List UInt8}
    (hrest : s.rest = f.bytes ++ rest) : s'.rest = rest := by
  have hnat : s'.idx.toNat = s.idx.toNat + f.bytes.length := by omega
  rw [State.rest, hc, hnat, ← List.drop_drop]
  show s.rest.drop f.bytes.length = rest
  rw [hrest, List.drop_left]

theorem walks_iff {config : Config} {c : Buffer} {frames : List Frame} {s : State}
    (hs : Between config c s) (hidx : 0 ≤ s.idx) (hrest : s.rest = frames.flatMap Frame.bytes)
    (hframes : ∀ f ∈ frames, f.WellFormed config) :
    (∃ s', Walks s frames s') ↔ ∀ f ∈ frames, f.Kept config := by
  induction frames generalizing s with
  | nil => exact iff_of_true ⟨s, .done s⟩ fun _ h => by cases h
  | cons f frames ih =>
      rw [List.flatMap_cons] at hrest
      have hmore := more_of_rest hidx hrest
      have hiff := advances_iff hs hmore hrest (hframes f List.mem_cons_self)
      have hframes' := fun g hg => hframes g (List.mem_cons_of_mem _ hg)
      -- what the calls after the first one do
      have hnext : ∀ {s' : State}, acceptPacket.run s = .ok ((), s') →
          s'.idx = s.idx + f.bytes.length →
          ((∃ s'', Walks s' frames s'') ↔ ∀ g ∈ frames, g.Kept config) := by
        intro s' hrun hidx'
        have hs' := hs.step hmore hrun
        have hc : s'.c = s.c := by rw [hs'.c_eq, hs.c_eq]
        exact ih hs' (by omega) (rest_after hc hidx hidx' hrest) hframes'
      rw [List.forall_mem_cons, ← hiff]
      constructor
      · rintro ⟨s'', hwalk⟩
        cases hwalk with
        | packet _ hrun hidx' hwalk =>
            exact ⟨⟨_, hrun, hidx'⟩, (hnext hrun hidx').mp ⟨s'', hwalk⟩⟩
      · rintro ⟨⟨s', hrun, hidx'⟩, hkept⟩
        obtain ⟨s'', hwalk⟩ := (hnext hrun hidx').mpr hkept
        exact ⟨s'', .packet hmore hrun hidx' hwalk⟩

/-- **Framing.** Over well-formed packets, the calls take off one packet each if and only if what
each packet asks of the parser holds. -/
theorem accept_packet_walks_iff {config : Config} {c : Buffer} {frames : List Frame}
    (hc : c.bytes = frames.flatMap Frame.bytes) (hframes : ∀ f ∈ frames, f.WellFormed config) :
    (∃ s, Walks (init config c) frames s) ↔ ∀ f ∈ frames, f.Kept config :=
  walks_iff Reached.init.between le_rfl hc hframes

/-- A sample type and a sample. -/
def intFrames : List Frame :=
  [.packet (.sampleDef 0x40 [nameIntention [97]] [0x23]), .packet (.sample 0x40 [0, 0, 0, 7])]

/-- The packets in a buffer. -/
def intPackets : Buffer where
  bytes := intFrames.flatMap Frame.bytes
  length_lt := by decide

theorem intFrames_wellFormed : ∀ f ∈ intFrames, f.WellFormed ⟨3, 1, 2, 2⟩ := by
  have hentry : HasEntry ⟨3, 1, 2, 2⟩ 0x40 := ⟨⟨by decide, by decide⟩, by decide⟩
  intro f hf
  rcases List.mem_cons.mp hf with rfl | hf
  · exact ⟨hentry, ⟨.prim .int, trivial, by decide⟩, by decide, by decide⟩
  · rw [List.mem_singleton.mp hf]
    exact hentry

theorem intFrames_kept : ∀ f ∈ intFrames, f.Kept ⟨3, 1, 2, 2⟩ := by
  intro f hf
  rcases List.mem_cons.mp hf with rfl | hf
  · exact ⟨⟨by decide, by decide, by decide⟩, .inr (by decide)⟩
  · rw [List.mem_singleton.mp hf]
    exact ⟨show 0x40 < 2 ^ 31 by decide, .inr (by decide)⟩

theorem accept_packet_walks_iff_int : ∃ s, Walks (init ⟨3, 1, 2, 2⟩ intPackets) intFrames s :=
  (accept_packet_walks_iff rfl intFrames_wellFormed).mpr intFrames_kept

/-- A pragma. -/
def pragmaFrame : Frame := .packet (.pragma [98] [99])

/-- The pragma in a buffer. -/
def pragmaPacket : Buffer where
  bytes := pragmaFrame.bytes
  length_lt := by decide

/-- A well-formed pragma of 5 bytes, of which the call takes off one and skips 63. -/
theorem accept_packet_skips_tag : pragmaFrame.WellFormed ⟨3, 1, 2, 2⟩ ∧
    pragmaFrame.bytes.length = 5 ∧
      (acceptPacket.run (init ⟨3, 1, 2, 2⟩ pragmaPacket)).map (fun x => x.2.idx) = .ok 64 := by
  refine ⟨trivial, by decide, ?_⟩
  rw [acceptPacket_rest (Reached.init.between).ready (Reached.init.between).allocated (by decide)]
  rfl

end LabComm.C.SigParser
