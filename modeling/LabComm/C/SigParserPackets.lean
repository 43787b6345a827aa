import LabComm.C.SigParserScan

set_option autoImplicit false

/-! # What the signature parser does with a packet

The grammar of packets as the parser reads them, and what it does at the end of one: the entry of
the tables it fills, and how far the index moves on. `acceptPacket` follows this grammar from every
state that a run of the parser reaches.
-/

namespace LabComm.C.SigParser

open Library

/-! ## The grammar -/

/-- There are cells for `n` entries on a stack with its top at `top`. -/
def room (top : Int) (n : Nat) : Parser Fault Unit :=
  if top < 0 then throw (.outOfBounds .stack)
  else if top < n then throw (.exit .overrun)
  else pure ()

/-- An id of a user type, as an `int`. -/
def IsUser (uid : Nat) : Prop := (LABCOMM_USER : Int) ≤ wrap32 uid

instance (uid : Nat) : Decidable (IsUser uid) :=
  inferInstanceAs (Decidable ((LABCOMM_USER : Int) ≤ wrap32 uid))

/-- The id of a user type. -/
def userId : Parser Fault Nat := do
  let uid ← number
  if IsUser uid then pure uid else throw (.exit .uid)

/-- Intentions after their number. -/
def name : Parser Fault (Option (List UInt8) × Nat) := do
  let num ← number
  intentions num none 0

/-- What is recorded for a sample type. -/
structure Record where
  uid : Nat
  name : List UInt8
  signature : List UInt8

/-- What follows from a packet. -/
structure Outcome where
  varsize : Bool
  record : Option Record
  /-- How far the index moves after what was read. -/
  distance : Int

/-- The signature of a declaration, after its length. -/
def signature (fuel : Nat) : Parser Fault Described := do
  let _ ← number
  description fuel false

/-- The bytes of a name in the buffer: `nlen` of them after the shortest form of their number. -/
def nameBytes (c : List UInt8) (start : Option (List UInt8)) (nlen : Nat) : List UInt8 :=
  ((start.getD c).drop (varintSizeof nlen)).take nlen

/-- The name is in the buffer. -/
def HasName (start : Option (List UInt8)) (nlen : Nat) : Prop :=
  nlen = 0 ∨ ∃ l, start = some l ∧ varintSizeof nlen + nlen ≤ l.length

instance (start : Option (List UInt8)) (nlen : Nat) : Decidable (HasName start nlen) :=
  match start with
  | none => decidable_of_iff (nlen = 0) (by simp [HasName])
  | some l => decidable_of_iff (nlen = 0 ∨ varintSizeof nlen + nlen ≤ l.length) (by simp [HasName])

/-- A declaration after its name. -/
def definition (p : State) (type uid : Nat) (found : Option (List UInt8) × Nat) :
    Parser Fault Outcome := do
  let start ← get
  if type = LABCOMM_SAMPLE_DEF then
    if found.2 < p.config.maxNameLen then
      if uid - LABCOMM_USER < p.config.maxSignatures then
        if HasName found.1 found.2 then
          let type ← signature (p.c.bytes.length + 1)
          let rest ← get
          if start.length - rest.length ≤ p.config.maxSigLen then
            pure ⟨type.varsize, some ⟨uid, nameBytes p.c.bytes found.1 found.2,
              start.take (start.length - rest.length)⟩, 0⟩
          else
            throw (.exit .sigLength)
        else
          throw (.outOfBounds .input)
      else
        throw (.outOfBounds .table)
    else
      throw (.exit .nameLength)
  else
    let type ← signature (p.c.bytes.length + 1)
    pure ⟨type.varsize, none, 0⟩

/-- A declaration, after its length; `p` is the state before the packet. -/
def declaration (p : State) (type : Nat) : Parser Fault Outcome := do
  let uid ← userId
  room p.valTop 1
  let found ← name
  room p.valTop 2
  definition p type uid found

/-- Whether a packet with the tag is a declaration. -/
def IsDeclaration (tag : Nat) : Prop :=
  tag = LABCOMM_SAMPLE_DEF ∨ tag = LABCOMM_SAMPLE_REF ∨ tag = LABCOMM_TYPE_DEF

instance (tag : Nat) : Decidable (IsDeclaration tag) :=
  inferInstanceAs (Decidable (tag = LABCOMM_SAMPLE_DEF ∨ _))

/-- A packet; `p` is the state before it. An unknown tag is the length of what is skipped. -/
def packet (p : State) : Parser Fault Outcome := do
  let tag ← number
  if tag = LABCOMM_VERSION then
    let _ ← number
    let _ ← string
    room p.valTop 1
    pure ⟨p.currentDeclIsVarsize, none, 0⟩
  else if IsDeclaration tag then
    let _ ← number
    declaration p tag
  else if tag = LABCOMM_TYPE_BINDING then
    let _ ← number
    let _ ← number
    let _ ← number
    pure ⟨p.currentDeclIsVarsize, none, 0⟩
  else if LABCOMM_USER ≤ tag then
    if IsUser tag then
      room p.valTop 1
      let len ← number
      pure ⟨p.currentDeclIsVarsize, none, wrap32 len⟩
    else
      throw (.exit .uid)
  else
    pure ⟨p.currentDeclIsVarsize, none, wrap32 tag⟩

/-! ## What is left of a packet -/

/-- The entry after a name was recorded. -/
def Entry.named (e : Entry) (name : List UInt8) : Entry :=
  { e with
    signaturesName := (name ++ e.signaturesName.drop name.length).set name.length 0
    signaturesNameLength := name.length }

/-- The entry after a signature was recorded. -/
def Entry.signed (e : Entry) (signature : List UInt8) : Entry :=
  { e with
    signatures := signature ++ e.signatures.drop signature.length
    signaturesLength := signature.length
    size := signature.length }

/-- The state after something was recorded. -/
def State.record (p : State) : Option Record → State
  | none => p
  | some r => p.setEntry (r.uid - LABCOMM_USER)
      (((p.tables (r.uid - LABCOMM_USER)).named r.name).signed r.signature)

/-- The state after a packet, where `rest` is what was not read. -/
def State.finish (p : State) (o : Outcome) (rest : List UInt8) : State :=
  { (p.record o.record).leaving rest [] o.varsize with
    idx := wrap32 ((p.c.bytes.length : Int) - rest.length + o.distance) }

/-- The blocks of the entries have the sizes they were allocated with. -/
structure Allocated (p : State) : Prop where
  name : ∀ i, (p.tables i).signaturesName.length = p.config.maxNameLen
  signature : ∀ i, (p.tables i).signatures.length = p.config.maxSigLen

/-- From the state `p` on, `m` reads what `q` reads and ends as `fin` says. -/
def Ends {α β : Type} (p : State) (m : Accept α) (q : Parser Fault β) (stack : List Nat)
    (varsize : Bool) (fin : β → List UInt8 → α × State) : Prop :=
  ∀ l, l <:+ p.c.bytes → m.run (p.leaving l stack varsize) =
    q.run l >>= fun x => .ok (fin x.1 x.2)

section Ends

variable {α α' β β' : Type} {p : State} {m : Accept α} {k : α → Accept α'} {q : Parser Fault β}
  {q' : β → Parser Fault β'} {stack : List Nat} {varsize : Bool} {a : β → α}
  {stack' : β → List Nat} {varsize' : β → Bool} {fin : β' → List UInt8 → α' × State}

theorem Ends.bind (hm : Follows p m q stack varsize a stack' varsize') (hq : Shrinks q)
    (hk : ∀ b, p.Finds q b → Ends p (k (a b)) (q' b) (stack' b) (varsize' b) fin) :
    Ends p (m >>= k) (q >>= q') stack varsize fin := by
  intro l hl
  rw [StateT.run_bind, hm l hl, Library.run_bind]
  cases hrun : q.run l with
  | error e => rfl
  | ok x => exact hk x.1 ⟨l, x.2, hl, hrun⟩ x.2 ((hq l x.1 x.2 hrun).trans hl)

theorem Ends.step {r : Parser Fault β'} {x : α} {stack₁ : List Nat} {varsize₁ : Bool}
    (hm : ∀ l, m.run (p.leaving l stack varsize) = .ok (x, p.leaving l stack₁ varsize₁))
    (hk : Ends p (k x) r stack₁ varsize₁ fin) : Ends p (m >>= k) r stack varsize fin := by
  intro l hl
  rw [run_bind_of (hm l)]
  exact hk l hl

theorem Ends.last {m : Accept α'} {b : β'}
    (hm : ∀ l, l <:+ p.c.bytes → m.run (p.leaving l stack varsize) = .ok (fin b l)) :
    Ends p m (pure b) stack varsize fin := fun l hl => hm l hl

theorem Ends.fail {m : Accept α'} {e : Fault}
    (hm : ∀ l, l <:+ p.c.bytes → m.run (p.leaving l stack varsize) = .error e) :
    Ends p m (throw e) stack varsize fin := fun l hl => hm l hl

theorem Ends.ite {P : Prop} [Decidable P] {m m₂ : Accept α'} {r r₂ : Parser Fault β'}
    (h : P → Ends p m r stack varsize fin) (h₂ : ¬ P → Ends p m₂ r₂ stack varsize fin) :
    Ends p (if P then m else m₂) (if P then r else r₂) stack varsize fin := by
  by_cases hP : P
  · rw [if_pos hP, if_pos hP]
    exact h hP
  · rw [if_neg hP, if_neg hP]
    exact h₂ hP

end Ends

/-! ## Ids and names -/

theorem room_shrinks (top : Int) (n : Nat) : Shrinks (room top n) := by
  intro l a r h
  unfold room at h
  split at h
  · cases h
  split at h
  · cases h
  · exact Shrinks.pure () l a r h

/-- There was room if the check returned. -/
theorem le_of_room {top : Int} {n : Nat} {l : List UInt8} {x : Unit × List UInt8}
    (h : (room top n).run l = .ok x) : 0 ≤ top ∧ (n : Int) ≤ top := by
  unfold room at h
  split at h
  · cases h
  split at h
  · cases h
  · omega

theorem room_of_le {top : Int} {n : Nat} (h₀ : 0 ≤ top) (h : (n : Int) ≤ top) :
    room top n = pure () := by
  rw [room, if_neg (by omega), if_neg (by omega)]

theorem userId_shrinks : Shrinks userId := by
  refine number_shrinks.bind fun uid => ?_
  intro l a r h
  split at h
  · exact Shrinks.pure uid l a r h
  · cases h

theorem name_shrinks : Shrinks name := number_shrinks.bind fun num => intentions_shrinks num none 0

section Ids

variable {p : State} (hp : Ready p)

include hp

/-- The first entry, for which there may be no room. -/
theorem pushVal_room (e : Nat) (l : List UInt8) (varsize : Bool) :
    (pushVal e).run (p.leaving l [] varsize) = (room p.valTop 1).run l >>= fun x =>
      .ok ((), p.leaving x.2 [e] varsize) := by
  rw [room]
  by_cases hneg : p.valTop < 0
  · rw [if_pos hneg]
    exact pushVal_below (by rw [List.length_nil]; omega) e l varsize
  rw [if_neg hneg]
  by_cases hroom : p.valTop < (1 : Nat)
  · rw [if_pos hroom]
    exact pushVal_overrun hp (by rw [List.length_nil]; omega) e l varsize
  · rw [if_neg hroom]
    exact pushVal_run hp (by rw [List.length_nil]; omega) e l varsize

theorem acceptUserId_follows (varsize : Bool) :
    Follows p acceptUserId (userId >>= fun uid => room p.valTop 1 >>= fun _ => pure uid) []
      varsize (fun _ => ()) (fun uid => [uid]) (fun _ => varsize) := by
  have haccept : acceptUserId = peekVarint >>= fun x =>
      if IsUser x.1 then advancen x.2 >>= fun _ => pushVal x.1 else error .uid := rfl
  intro l hl
  rw [haccept, userId, bind_assoc]
  cases hrun : number.run l with
  | error e =>
      rw [peekVarint_error hl [] varsize hrun, run_bind_of_error hrun]
      rfl
  | ok x =>
      obtain ⟨uid, r⟩ := x
      have hr := number_shrinks l uid r hrun
      rw [peekVarint_bind hl [] varsize hrun, run_bind_of_ok hrun]
      by_cases huser : IsUser uid
      · rw [if_pos huser, if_pos huser, run_bind_of (advancen_run hl [] varsize hr),
          pushVal_room hp, pure_bind, Library.run_bind]
        cases (room p.valTop 1).run r with
        | error e => rfl
        | ok x => rfl
      · rw [if_neg huser, if_neg huser]
        rfl

theorem acceptIntentions_room (htop : 0 < p.valTop) (varsize : Bool) :
    Follows p acceptIntentions (name >>= fun found => room p.valTop 2 >>= fun _ => pure found) []
      varsize (fun _ => ()) (fun found => [p.start found.1, found.2]) (fun _ => varsize) := by
  by_cases hroom : 1 < p.valTop
  · rw [room_of_le (by omega) (by omega)]
    have h := @acceptIntentions_follows _ hp [] (by rw [List.length_nil]; omega) varsize
    simp only [pure_bind, bind_pure]
    exact h
  -- one cell is left, and the position of the name takes it
  · have hone : p.valTop = 1 := by omega
    rw [name, bind_assoc]
    refine (getVarint_follows p [] varsize).bind number_shrinks fun num _ => ?_
    refine (intentionsFrom_follows hp (by rw [List.length_nil]; omega) varsize num none 0).bind
      (intentions_shrinks num none 0) fun x _ => ?_
    refine Follows.step
      (pushVal_run hp (by rw [List.length_nil]; omega) x.2 · varsize) ?_
    intro l hl
    rw [pushVal_overrun hp (by rw [hone]; rfl), room, if_neg (by omega), if_pos (by omega)]
    rfl

end Ids

/-- What is known of the name that was found: it starts in the buffer, or there is none. -/
def NameIn (c : List UInt8) (found : Option (List UInt8) × Nat) : Prop :=
  (found.1 = none → found.2 = 0) ∧ ∀ l, found.1 = some l → l <:+ c

theorem intentions_nameIn {c : List UInt8} {num : Nat} {start : Option (List UInt8)} {nlen : Nat}
    (hstart : NameIn c (start, nlen)) {l r : List UInt8} (hl : l <:+ c)
    {found : Option (List UInt8) × Nat}
    (h : (intentions num start nlen).run l = .ok (found, r)) : NameIn c found := by
  induction num generalizing start nlen l with
  | zero =>
      have h' : (Except.ok ((start, nlen), l) : Except Fault _) = .ok (found, r) := h
      simp only [Except.ok.injEq, Prod.mk.injEq] at h'
      rw [← h'.1]
      exact hstart
  | succ num ih =>
      rw [intentions] at h
      obtain ⟨klen, l₁, hkey, h⟩ := run_bind_eq_ok.mp h
      obtain ⟨start', l₂, hget, h⟩ := run_bind_eq_ok.mp h
      obtain ⟨vlen, l₃, hvalue, h⟩ := run_bind_eq_ok.mp h
      have hl₁ := (string_shrinks l klen l₁ hkey).trans hl
      have hget' : (Except.ok (l₁, l₁) : Except Fault _) = .ok (start', l₂) := hget
      simp only [Except.ok.injEq, Prod.mk.injEq] at hget'
      rw [← hget'.2] at hvalue
      have hl₃ := (string_shrinks l₁ vlen l₃ hvalue).trans hl₁
      split at h
      · refine ih ⟨fun hnone => (by cases hnone), ?_⟩ hl₃ h
        intro l' hl'
        cases hl'
        rw [← hget'.1]
        exact hl₁
      · exact ih hstart hl₃ h

theorem name_nameIn {c l r : List UInt8} (hl : l <:+ c) {found : Option (List UInt8) × Nat}
    (h : name.run l = .ok (found, r)) : NameIn c found := by
  obtain ⟨num, l₁, hnum, h⟩ := run_bind_eq_ok.mp h
  have hnone : NameIn c (none, 0) := ⟨fun _ => rfl, fun l' hl' => by cases hl'⟩
  exact intentions_nameIn hnone ((number_shrinks l num l₁ hnum).trans hl) h

/-! ## The tables -/

theorem varintSizeof_le (n : Nat) : varintSizeof n ≤ 5 := by
  unfold varintSizeof
  split_ifs <;> omega

section Tables

variable {p : State} (ha : Allocated p) {uid : Nat} (l : List UInt8) (varsize : Bool)

theorem tableEntry_run (huid : uid - LABCOMM_USER < p.config.maxSignatures) :
    (tableEntry uid).run (p.leaving l [] varsize) =
      .ok (uid - LABCOMM_USER, p.leaving l [] varsize) := by
  show StateT.run (if uid - LABCOMM_USER < p.config.maxSignatures then _ else _ : Accept Nat) _ = _
  rw [if_pos huid]
  rfl

theorem tableEntry_outside (huid : ¬ uid - LABCOMM_USER < p.config.maxSignatures) :
    (tableEntry uid).run (p.leaving l [] varsize) = .error (.outOfBounds .table) := by
  show StateT.run (if uid - LABCOMM_USER < p.config.maxSignatures then _ else _ : Accept Nat) _ = _
  rw [if_neg huid]
  rfl

theorem source_run {start n : Nat} (h : n = 0 ∨ start + n ≤ p.c.bytes.length) :
    (source start n).run (p.leaving l [] varsize) =
      .ok ((p.c.bytes.drop start).take n, p.leaving l [] varsize) := by
  show StateT.run (if n = 0 ∨ start + n ≤ p.c.bytes.length then _ else _ : Accept _) _ = _
  rw [if_pos h]
  rfl

theorem source_outside {start n : Nat} (h : ¬ (n = 0 ∨ start + n ≤ p.c.bytes.length)) :
    (source start n).run (p.leaving l [] varsize) = .error (.outOfBounds .input) := by
  show StateT.run (if n = 0 ∨ start + n ≤ p.c.bytes.length then _ else _ : Accept _) _ = _
  rw [if_neg h]
  rfl

theorem get_run (s : State) : (get : Accept State).run s = .ok (s, s) := rfl

theorem memcpy_run {block bytes : List UInt8} (h : bytes.length ≤ block.length) (s : State) :
    (memcpy block bytes).run s = .ok (bytes ++ block.drop bytes.length, s) := by
  rw [memcpy, if_pos h]
  rfl

theorem terminate_run {block : List UInt8} {i : Nat} (h : i < block.length) (s : State) :
    (terminate block i).run s = .ok (block.set i 0, s) := by
  rw [terminate, if_pos h]
  rfl

/-- Where the code looks for a name. -/
theorem nameStart_eq (found : Option (List UInt8) × Nat) :
    (p.start found.1 + varintSizeof found.2) % 2 ^ 32 = p.start found.1 + varintSizeof found.2 := by
  have hlt := p.c.length_lt
  have hle := varintSizeof_le found.2
  apply Nat.mod_eq_of_lt
  cases found.1 with
  | none =>
      rw [State.start]
      omega
  | some l' =>
      rw [State.start]
      omega

theorem hasName_iff {found : Option (List UInt8) × Nat} (hfound : NameIn p.c.bytes found) :
    HasName found.1 found.2 ↔ found.2 = 0 ∨
      p.start found.1 + varintSizeof found.2 + found.2 ≤ p.c.bytes.length := by
  obtain ⟨start, nlen⟩ := found
  cases start with
  | none =>
      have hzero : nlen = 0 := hfound.1 rfl
      simp [HasName, hzero]
  | some l' =>
      have hle := (hfound.2 l' rfl).length_le
      simp only [HasName, Option.some.injEq, exists_eq_left', State.start]
      constructor
      · rintro (h | h)
        · exact Or.inl h
        · exact Or.inr (by omega)
      · rintro (h | h)
        · exact Or.inl h
        · exact Or.inr (by omega)

theorem nameBytes_eq {found : Option (List UInt8) × Nat} (hfound : NameIn p.c.bytes found) :
    (p.c.bytes.drop (p.start found.1 + varintSizeof found.2)).take found.2 =
      nameBytes p.c.bytes found.1 found.2 := by
  obtain ⟨start, nlen⟩ := found
  cases start with
  | none => rw [nameBytes, State.start, Nat.zero_add, Option.getD_none]
  | some l' =>
      rw [nameBytes, State.start, ← List.drop_drop, drop_of_suffix (hfound.2 l' rfl),
        Option.getD_some]

theorem nameBytes_length {c : List UInt8} {start : Option (List UInt8)} {nlen : Nat}
    (h : HasName start nlen) : (nameBytes c start nlen).length = nlen := by
  rw [nameBytes, List.length_take, List.length_drop]
  rcases h with rfl | ⟨l', rfl, hle⟩
  · omega
  · rw [Option.getD_some]
    omega

include ha

theorem recordName_run {found : Option (List UInt8) × Nat} (hfound : NameIn p.c.bytes found)
    (hlen : found.2 < p.config.maxNameLen) :
    (recordName uid found.2 ((p.start found.1 + varintSizeof found.2) % 2 ^ 32)).run
        (p.leaving l [] varsize) =
      if uid - LABCOMM_USER < p.config.maxSignatures then
        if HasName found.1 found.2 then
          .ok ((), (p.setEntry (uid - LABCOMM_USER)
            ((p.tables (uid - LABCOMM_USER)).named
              (nameBytes p.c.bytes found.1 found.2))).leaving l [] varsize)
        else .error (.outOfBounds .input)
      else .error (.outOfBounds .table) := by
  rw [recordName, nameStart_eq]
  by_cases huid : uid - LABCOMM_USER < p.config.maxSignatures
  swap
  · rw [if_neg huid, StateT.run_bind, tableEntry_outside l varsize huid]
    rfl
  rw [if_pos huid, run_bind_of (tableEntry_run l varsize huid)]
  by_cases hname : HasName found.1 found.2
  swap
  · rw [if_neg hname, StateT.run_bind,
      source_outside l varsize (fun h => hname ((hasName_iff hfound).mpr h))]
    rfl
  rw [if_pos hname, run_bind_of (source_run l varsize ((hasName_iff hfound).mp hname)),
    nameBytes_eq hfound]
  have hbytes := nameBytes_length (c := p.c.bytes) hname
  have hblock := ha.name (uid - LABCOMM_USER)
  -- both writes stay within the block of the entry
  have hcopy := @memcpy_run (p.tables (uid - LABCOMM_USER)).signaturesName
    (nameBytes p.c.bytes found.1 found.2) (by omega) (p.leaving l [] varsize)
  have hzero := @terminate_run (nameBytes p.c.bytes found.1 found.2 ++
      (p.tables (uid - LABCOMM_USER)).signaturesName.drop
        (nameBytes p.c.bytes found.1 found.2).length) found.2
    (by rw [List.length_append, List.length_drop]; omega) (p.leaving l [] varsize)
  rw [run_bind_of (get_run _), State.leaving_tables, run_bind_of hcopy, run_bind_of hzero,
    Entry.named, hbytes]
  rfl

theorem recordSignature_run (huid : uid - LABCOMM_USER < p.config.maxSignatures)
    {start : List UInt8} (hstart : start <:+ p.c.bytes) {rest : List UInt8}
    (hrest : rest <:+ start) (hlen : start.length - rest.length ≤ p.config.maxSigLen) :
    (recordSignature uid (p.c.bytes.length - start.length) (start.length - rest.length)).run
        (p.leaving rest [] varsize) =
      .ok ((), (p.setEntry (uid - LABCOMM_USER) ((p.tables (uid - LABCOMM_USER)).signed
        (start.take (start.length - rest.length)))).leaving rest [] varsize) := by
  have hle := hstart.length_le
  have hle' := hrest.length_le
  have hbytes : (start.take (start.length - rest.length)).length = start.length - rest.length := by
    rw [List.length_take]
    omega
  have hblock := ha.signature (uid - LABCOMM_USER)
  rw [recordSignature, run_bind_of (tableEntry_run rest varsize huid),
    run_bind_of (source_run rest varsize (by right; omega)), drop_of_suffix hstart]
  have hcopy := @memcpy_run (p.tables (uid - LABCOMM_USER)).signatures
    (start.take (start.length - rest.length)) (by omega) (p.leaving rest [] varsize)
  rw [run_bind_of (get_run _), State.leaving_tables, run_bind_of hcopy, Entry.signed, hbytes]
  rfl

end Tables

/-! ## Declarations -/

/-- The part of `accept_signature` that every declaration takes. -/
def readSignature : Accept Unit :=
  getVarint >>= fun _ =>
  get >>= fun d =>
  acceptType (d.c.bytes.length + 1) >>= fun _ =>
  popVal >>= fun _ =>
  popVal >>= fun _ =>
  pure ()

theorem signature_shrinks (fuel : Nat) : Shrinks (signature fuel) :=
  number_shrinks.bind fun _ => description_shrinks fuel false

theorem readSignature_follows {p : State} (hp : Ready p) (hroom : 1 < p.valTop) :
    Follows p readSignature (signature (p.c.bytes.length + 1)) [] false (fun _ => ())
      (fun _ => []) (fun d => d.varsize) := by
  have htype : Follows p (get >>= fun d => acceptType (d.c.bytes.length + 1))
      (description (p.c.bytes.length + 1) false) [] false (fun _ => ())
      (fun d => [d.tag, d.size]) (fun d => d.varsize) := by
    intro l hl
    rw [run_bind_of (get_run _)]
    exact acceptType_follows hp (by rw [List.length_nil]; omega) _ false l hl
  have hassoc : readSignature = getVarint >>= fun _ =>
      (get >>= fun d => acceptType (d.c.bytes.length + 1)) >>= fun _ =>
      popVal >>= fun _ => popVal >>= fun _ => pure () := by
    simp only [readSignature, bind_assoc]
  rw [hassoc, signature]
  refine (getVarint_follows p [] false).bind number_shrinks fun _ _ => ?_
  rw [← bind_pure (description (p.c.bytes.length + 1) false)]
  refine htype.bind (description_shrinks _ false) fun d _ => ?_
  refine Follows.step (popVal_run hp (by simp; omega) · d.varsize) ?_
  refine Follows.step (popVal_run hp (by simp; omega) · d.varsize) ?_
  exact Follows.last fun l => rfl

theorem acceptSignature_eq (type start uid : Nat) :
    acceptSignature type start uid = readSignature >>= fun _ =>
      if type = LABCOMM_SAMPLE_DEF then
        get >>= fun d =>
          if toUnsigned (d.idx - start) ≤ d.config.maxSigLen then
            recordSignature uid start (toUnsigned (d.idx - start))
          else error .sigLength
      else pure () := by
  simp only [acceptSignature, readSignature, bind_assoc, pure_bind]

/-- The signature of a sample type is recorded with its length. -/
theorem acceptSignature_run {p : State} (hp : Ready p) (hroom : 1 < p.valTop) (ha : Allocated p)
    {uid : Nat} (huid : uid - LABCOMM_USER < p.config.maxSignatures) {l : List UInt8}
    (hl : l <:+ p.c.bytes) :
    (acceptSignature LABCOMM_SAMPLE_DEF (p.c.bytes.length - l.length) uid).run
        (p.leaving l [] false) =
      (signature (p.c.bytes.length + 1)).run l >>= fun x =>
        if l.length - x.2.length ≤ p.config.maxSigLen then
          .ok ((), (p.setEntry (uid - LABCOMM_USER) ((p.tables (uid - LABCOMM_USER)).signed
            (l.take (l.length - x.2.length)))).leaving x.2 [] x.1.varsize)
        else .error (.exit .sigLength) := by
  have hread := readSignature_follows hp hroom l hl
  rw [acceptSignature_eq]
  cases hrun : (signature (p.c.bytes.length + 1)).run l with
  | error e =>
      rw [StateT.run_bind, hread, hrun]
      rfl
  | ok x =>
      obtain ⟨d, r⟩ := x
      rw [hrun] at hread
      have hr := signature_shrinks _ l d r hrun
      have hle := hl.length_le
      have hle' := hr.length_le
      have hlt := p.c.length_lt
      have hlen : toUnsigned ((p.leaving r [] d.varsize).idx - (p.c.bytes.length - l.length : Nat)) =
          l.length - r.length := by
        show toUnsigned ((p.c.bytes.length : Int) - r.length - (p.c.bytes.length - l.length : Nat)) = _
        have hsub : (p.c.bytes.length : Int) - r.length - (p.c.bytes.length - l.length : Nat) =
            (l.length - r.length : Nat) := by omega
        rw [hsub, toUnsigned_natCast (by omega)]
      rw [run_bind_of hread, if_pos rfl, run_bind_of (get_run _), hlen, State.leaving_config]
      by_cases hmax : l.length - r.length ≤ p.config.maxSigLen
      · rw [if_pos hmax, recordSignature_run ha d.varsize huid hl hr hmax]
        exact (if_pos hmax).symm
      · rw [if_neg hmax]
        exact (if_neg hmax).symm

theorem finish_eq {p : State} {rest : List UInt8} (hrest : rest <:+ p.c.bytes) (varsize : Bool)
    (record : Option Record) :
    p.finish ⟨varsize, record, 0⟩ rest = (p.record record).leaving rest [] varsize := by
  have hle := hrest.length_le
  have hlt := p.c.length_lt
  have hidx : wrap32 ((p.c.bytes.length : Int) - rest.length + 0) =
      (p.c.bytes.length : Int) - rest.length := by
    rw [add_zero, wrap32_of_lt (by omega) (by omega)]
  simp only [State.finish, hidx]
  cases record with
  | none => rfl
  | some r => rfl

/-- What `accept_decl` does after the intentions. -/
def acceptDefinition (type uid : Nat) : Accept Unit :=
  get >>= fun d =>
  popVal >>= fun nstart =>
  popVal >>= fun nlen =>
  if type = LABCOMM_SAMPLE_DEF then
    get >>= fun d' =>
      if nlen < d'.config.maxNameLen then
        recordName uid nlen ((nstart + varintSizeof nlen) % 2 ^ 32) >>= fun _ =>
          acceptSignature type (toUnsigned d.idx) uid
      else error .nameLength
  else acceptSignature type (toUnsigned d.idx) uid

theorem acceptDecl_eq (type : Nat) : acceptDecl type = acceptUserId >>= fun _ =>
    popVal >>= fun uid => acceptIntentions >>= fun _ => acceptDefinition type uid := rfl

section Declarations

variable {p : State} (hp : Ready p) (ha : Allocated p)

include hp ha

/-- What is recorded for a sample type, in the order in which it is. -/
theorem recordSample_run (hroom : 1 < p.valTop) {uid : Nat} {found : Option (List UInt8) × Nat}
    (hfound : NameIn p.c.bytes found) (hlen : found.2 < p.config.maxNameLen)
    (huid : uid - LABCOMM_USER < p.config.maxSignatures) (hname : HasName found.1 found.2)
    {l : List UInt8} (hl : l <:+ p.c.bytes) :
    (recordName uid found.2 ((p.start found.1 + varintSizeof found.2) % 2 ^ 32) >>= fun _ =>
        acceptSignature LABCOMM_SAMPLE_DEF (p.c.bytes.length - l.length) uid).run
        (p.leaving l [] false) =
      (signature (p.c.bytes.length + 1)).run l >>= fun x =>
        if l.length - x.2.length ≤ p.config.maxSigLen then
          .ok ((), (p.record (some ⟨uid, nameBytes p.c.bytes found.1 found.2,
            l.take (l.length - x.2.length)⟩)).leaving x.2 [] x.1.varsize)
        else .error (.exit .sigLength) := by
  have hrecord := @recordName_run _ ha uid l false _ hfound hlen
  rw [if_pos huid, if_pos hname] at hrecord
  rw [run_bind_of hrecord]
  generalize hq : p.setEntry (uid - LABCOMM_USER) ((p.tables (uid - LABCOMM_USER)).named
    (nameBytes p.c.bytes found.1 found.2)) = q
  have hq' : Ready q ∧ q.config = p.config ∧ q.c = p.c ∧ q.valTop = p.valTop := by
    subst hq
    exact ⟨hp, rfl, rfl, rfl⟩
  have hblock : (((p.tables (uid - LABCOMM_USER)).named
      (nameBytes p.c.bytes found.1 found.2)).signaturesName).length = p.config.maxNameLen := by
    have hbytes := nameBytes_length (c := p.c.bytes) hname
    have hname' := ha.name (uid - LABCOMM_USER)
    rw [Entry.named, List.length_set, List.length_append, List.length_drop]
    omega
  have haq : Allocated q := by
    subst hq
    constructor
    · intro i
      show ((Function.update _ _ _ : Nat → Entry) i).signaturesName.length = p.config.maxNameLen
      by_cases hi : i = uid - LABCOMM_USER
      · rw [hi, Function.update_self]
        exact hblock
      · rw [Function.update_of_ne hi]
        exact ha.name i
    · intro i
      show ((Function.update _ _ _ : Nat → Entry) i).signatures.length = p.config.maxSigLen
      by_cases hi : i = uid - LABCOMM_USER
      · rw [hi, Function.update_self]
        exact ha.signature _
      · rw [Function.update_of_ne hi]
        exact ha.signature i
  have hsig := @acceptSignature_run _ hq'.1 (by rw [hq'.2.2.2]; exact hroom) haq uid
    (by rw [hq'.2.1]; exact huid) l (by rw [hq'.2.2.1]; exact hl)
  rw [hq'.2.2.1, hq'.2.1] at hsig
  rw [hsig]
  -- the entry is written twice
  have htwice : ∀ bytes, q.setEntry (uid - LABCOMM_USER)
      ((q.tables (uid - LABCOMM_USER)).signed bytes) =
        p.record (some ⟨uid, nameBytes p.c.bytes found.1 found.2, bytes⟩) := by
    intro bytes
    subst hq
    show State.mk _ _ _ _ _ _ (Function.update (Function.update _ _ _) _ (Entry.signed
      ((Function.update _ _ _ : Nat → Entry) _) bytes)) = _
    rw [Function.update_idem, Function.update_self]
    rfl
  simp only [htwice]

theorem acceptDefinition_run (hroom : 1 < p.valTop) (type uid : Nat)
    {found : Option (List UInt8) × Nat} (hfound : NameIn p.c.bytes found) {l : List UInt8}
    (hl : l <:+ p.c.bytes) :
    (acceptDefinition type uid).run (p.leaving l [p.start found.1, found.2] false) =
      (definition p type uid found).run l >>= fun x => .ok ((), p.finish x.1 x.2) := by
  have hstart := toUnsigned_idx hl [p.start found.1, found.2] false
  have hpop := @popVal_run _ hp [found.2] (p.start found.1) (by simp; omega) l false
  have hpop' := @popVal_run _ hp [] found.2 (by simp; omega) l false
  rw [acceptDefinition, run_bind_of (get_run _), run_bind_of hpop, run_bind_of hpop', hstart,
    definition, run_bind_of_ok (a := l) (r := l) rfl]
  by_cases htype : type = LABCOMM_SAMPLE_DEF
  swap
  -- the signature is read and ignored
  · rw [if_neg htype, if_neg htype, acceptSignature_eq, StateT.run_bind,
      readSignature_follows hp hroom l hl, Library.run_bind]
    cases hrun : (signature (p.c.bytes.length + 1)).run l with
    | error e => rfl
    | ok x =>
        obtain ⟨d, r⟩ := x
        have hr := (signature_shrinks _ l d r hrun).trans hl
        show StateT.run (if type = LABCOMM_SAMPLE_DEF then _ else _ : Accept Unit) _ =
          Except.ok ((), p.finish ⟨d.varsize, none, 0⟩ r)
        rw [if_neg htype, finish_eq hr]
        rfl
  subst htype
  rw [if_pos rfl, if_pos rfl, run_bind_of (get_run _), State.leaving_config]
  by_cases hlen : found.2 < p.config.maxNameLen
  swap
  · rw [if_neg hlen, if_neg hlen]
    rfl
  rw [if_pos hlen, if_pos hlen]
  have hrecord := @recordName_run _ ha uid l false _ hfound hlen
  by_cases huid : uid - LABCOMM_USER < p.config.maxSignatures
  swap
  · rw [if_neg huid] at hrecord ⊢
    rw [StateT.run_bind, hrecord]
    rfl
  rw [if_pos huid] at hrecord ⊢
  by_cases hname : HasName found.1 found.2
  swap
  · rw [if_neg hname] at hrecord ⊢
    rw [StateT.run_bind, hrecord]
    rfl
  rw [if_pos hname, recordSample_run hp ha hroom hfound hlen huid hname hl, Library.run_bind]
  cases hrun : (signature (p.c.bytes.length + 1)).run l with
  | error e => rfl
  | ok x =>
      obtain ⟨d, r⟩ := x
      have hr := (signature_shrinks _ l d r hrun).trans hl
      show (if l.length - r.length ≤ p.config.maxSigLen then _ else _ : Except Fault (Unit × State)) =
        StateT.run (if l.length - r.length ≤ p.config.maxSigLen then _ else _ :
          Parser Fault Outcome) r >>= _
      by_cases hmax : l.length - r.length ≤ p.config.maxSigLen
      · rw [if_pos hmax, if_pos hmax, ← finish_eq hr]
        rfl
      · rw [if_neg hmax, if_neg hmax]
        rfl

theorem acceptDecl_ends (type : Nat) : Ends p (acceptDecl type) (declaration p type) [] false
    (fun o rest => ((), p.finish o rest)) := by
  have hassoc : declaration p type =
      (userId >>= fun uid => room p.valTop 1 >>= fun _ => pure uid) >>= fun uid =>
      (name >>= fun found => room p.valTop 2 >>= fun _ => pure found) >>= fun found =>
      definition p type uid found := by
    simp only [declaration, bind_assoc, pure_bind]
  have hshrinks : Shrinks (userId >>= fun uid => room p.valTop 1 >>= fun _ => pure uid) :=
    userId_shrinks.bind fun uid => (room_shrinks _ _).bind fun _ => Shrinks.pure uid
  have hshrinks' : Shrinks (name >>= fun found => room p.valTop 2 >>= fun _ => pure found) :=
    name_shrinks.bind fun found => (room_shrinks _ _).bind fun _ => Shrinks.pure found
  rw [acceptDecl_eq, hassoc]
  refine Ends.bind (acceptUserId_follows hp false) hshrinks fun uid huid => ?_
  obtain ⟨l₀, r₀, _, hrun₀⟩ := huid
  obtain ⟨_, l₁, _, hrun₁⟩ := run_bind_eq_ok.mp hrun₀
  obtain ⟨_, l₂, hrun₂, _⟩ := run_bind_eq_ok.mp hrun₁
  have htop := (le_of_room hrun₂).2
  refine Ends.step (popVal_run hp (by simp; omega) · false) ?_
  refine Ends.bind (acceptIntentions_room hp (by omega) false) hshrinks' fun found hfound => ?_
  obtain ⟨l₃, r₃, hl₃, hrun₃⟩ := hfound
  obtain ⟨found', l₄, hname, hrun₄⟩ := run_bind_eq_ok.mp hrun₃
  obtain ⟨_, l₅, hrun₅, hpure⟩ := run_bind_eq_ok.mp hrun₄
  have htop' := (le_of_room hrun₅).2
  have hfound' : found' = found := by
    have hpure' : (Except.ok (found', l₅) : Except Fault _) = .ok (found, r₃) := hpure
    simp only [Except.ok.injEq, Prod.mk.injEq] at hpure'
    exact hpure'.1
  rw [hfound'] at hname
  intro l hl
  exact acceptDefinition_run hp ha (by omega) type uid (name_nameIn hl₃ hname) hl

end Declarations

/-! ## Packets -/

theorem acceptPacket_eq : acceptPacket = peekVarint >>= fun x =>
    if x.1 = LABCOMM_VERSION then
      advancen x.2 >>= fun _ => getVarint >>= fun _ => acceptString >>= fun _ => popVal >>= fun _ =>
        pure ()
    else if IsDeclaration x.1 then
      modify (fun d => { d with currentDeclIsVarsize := false }) >>= fun _ =>
        advancen x.2 >>= fun _ => getVarint >>= fun _ => acceptDecl x.1
    else if x.1 = LABCOMM_TYPE_BINDING then
      advancen x.2 >>= fun _ => getVarint >>= fun _ => getVarint >>= fun _ => getVarint >>= fun _ =>
        pure ()
    else if LABCOMM_USER ≤ x.1 then acceptSampleData
    else getVarint >>= fun len => advancen (wrap32 len) := rfl

theorem acceptSampleData_eq : acceptSampleData = acceptUserId >>= fun _ => popVal >>= fun _ =>
    getVarint >>= fun len => advancen (wrap32 len) := rfl

section Packets

variable {p : State}

theorem binding_ends (varsize : Bool) :
    Ends p (getVarint >>= fun _ => getVarint >>= fun _ => getVarint >>= fun _ => pure ())
      (number >>= fun _ => number >>= fun _ => number >>= fun _ => pure ⟨varsize, none, 0⟩) []
      varsize (fun o rest => ((), p.finish o rest)) := by
  refine Ends.bind (getVarint_follows p [] varsize) number_shrinks fun _ _ => ?_
  refine Ends.bind (getVarint_follows p [] varsize) number_shrinks fun _ _ => ?_
  refine Ends.bind (getVarint_follows p [] varsize) number_shrinks fun _ _ => ?_
  refine Ends.last fun l hl => ?_
  rw [finish_eq hl]
  rfl

/-- The end of a packet that is skipped by the length. -/
theorem skip_ends (varsize : Bool) :
    Ends p (getVarint >>= fun len => advancen (wrap32 len))
      (number >>= fun len => pure ⟨varsize, none, wrap32 len⟩) [] varsize
      (fun o rest => ((), p.finish o rest)) := by
  refine Ends.bind (getVarint_follows p [] varsize) number_shrinks fun len _ => ?_
  intro l hl
  show (advancen (wrap32 len)).run (p.leaving l [] varsize) =
    .ok ((), p.finish ⟨varsize, none, wrap32 len⟩ l)
  generalize wrap32 (len : Int) = n
  rw [advancen_eq]
  rfl

variable (hp : Ready p)

include hp

/-- A string whose length is the first entry. -/
theorem acceptString_room (varsize : Bool) :
    Follows p acceptString (string >>= fun len => room p.valTop 1 >>= fun _ => pure len) []
      varsize (fun _ => ()) (fun len => [len]) (fun _ => varsize) := by
  rw [string, bind_assoc]
  refine (getVarint_follows p [] varsize).bind number_shrinks fun len hlen => ?_
  obtain ⟨l₀, r₀, _, hrun⟩ := hlen
  rw [bind_assoc]
  refine (getStr_follows p [] varsize (number_lt hrun)).bind (characters_shrinks len) fun _ _ => ?_
  intro l hl
  rw [pushVal_room hp, pure_bind, Library.run_bind]
  cases (room p.valTop 1).run l with
  | error e => rfl
  | ok x => rfl

theorem version_ends (varsize : Bool) :
    Ends p (getVarint >>= fun _ => acceptString >>= fun _ => popVal >>= fun _ => pure ())
      (number >>= fun _ => string >>= fun _ => room p.valTop 1 >>= fun _ =>
        pure ⟨varsize, none, 0⟩) [] varsize (fun o rest => ((), p.finish o rest)) := by
  have hassoc : (string >>= fun _ => room p.valTop 1 >>= fun _ =>
      (pure ⟨varsize, none, 0⟩ : Parser Fault Outcome)) =
        (string >>= fun len => room p.valTop 1 >>= fun _ => pure len) >>= fun _ =>
          pure ⟨varsize, none, 0⟩ := by
    simp only [bind_assoc, pure_bind]
  have hshrinks : Shrinks (string >>= fun len => room p.valTop 1 >>= fun _ => pure len) :=
    string_shrinks.bind fun len => (room_shrinks _ _).bind fun _ => Shrinks.pure len
  rw [hassoc]
  refine Ends.bind (getVarint_follows p [] varsize) number_shrinks fun _ _ => ?_
  refine Ends.bind (acceptString_room hp varsize) hshrinks fun len hlen => ?_
  obtain ⟨l₀, r₀, _, hrun⟩ := hlen
  obtain ⟨_, l₁, _, hrun₁⟩ := run_bind_eq_ok.mp hrun
  obtain ⟨_, l₂, hrun₂, _⟩ := run_bind_eq_ok.mp hrun₁
  have htop := (le_of_room hrun₂).2
  refine Ends.step (popVal_run hp (by simp; omega) · varsize) ?_
  refine Ends.last fun l hl => ?_
  rw [finish_eq hl]
  rfl

/-- The tag of a sample is read again as its id. -/
theorem acceptSampleData_run (varsize : Bool) {l r : List UInt8} (hl : l <:+ p.c.bytes)
    {tag : Nat} (hn : number.run l = .ok (tag, r)) :
    acceptSampleData.run (p.leaving l [] varsize) =
      (if IsUser tag then room p.valTop 1 >>= fun _ => number >>= fun len =>
        pure ⟨varsize, none, wrap32 len⟩ else throw (.exit .uid) : Parser Fault Outcome).run r >>=
        fun x => .ok ((), p.finish x.1 x.2) := by
  have hr := number_shrinks l tag r hn
  have hid := acceptUserId_follows hp varsize l hl
  rw [userId, bind_assoc, run_bind_of_ok hn] at hid
  rw [acceptSampleData_eq]
  by_cases huser : IsUser tag
  swap
  · rw [if_neg huser] at hid ⊢
    rw [StateT.run_bind, hid]
    rfl
  rw [if_pos huser, pure_bind, Library.run_bind] at hid
  rw [if_pos huser]
  cases hroom : (room p.valTop 1).run r with
  | error e =>
      rw [StateT.run_bind, hid, hroom, run_bind_of_error hroom]
      rfl
  | ok x =>
      have hid' : acceptUserId.run (p.leaving l [] varsize) =
          .ok ((), p.leaving x.2 [tag] varsize) := by
        rw [hid, hroom]
        rfl
      have htop := (le_of_room hroom).2
      have hx := ((room_shrinks _ _ r x.1 x.2 hroom).trans hr).trans hl
      have hpop := @popVal_run _ hp [] tag (by simp; omega) x.2 varsize
      rw [run_bind_of hid', run_bind_of hpop, run_bind_of_ok hroom]
      exact skip_ends varsize x.2 hx

/-- **The parser follows the grammar of packets**, from every state between two packets. -/
theorem acceptPacket_run (ha : Allocated p) {l : List UInt8} (hl : l <:+ p.c.bytes) :
    acceptPacket.run (p.leaving l [] p.currentDeclIsVarsize) =
      (packet p).run l >>= fun x => .ok ((), p.finish x.1 x.2) := by
  rw [acceptPacket_eq, packet]
  cases hrun : number.run l with
  | error e =>
      rw [peekVarint_error hl [] _ hrun, run_bind_of_error hrun]
      rfl
  | ok x =>
      obtain ⟨tag, r⟩ := x
      have hr := number_shrinks l tag r hrun
      have hadvance := advancen_run hl [] p.currentDeclIsVarsize hr
      rw [peekVarint_bind hl [] _ hrun, run_bind_of_ok hrun]
      by_cases hversion : tag = LABCOMM_VERSION
      · rw [if_pos hversion, if_pos hversion, run_bind_of hadvance]
        exact version_ends hp _ r (hr.trans hl)
      rw [if_neg hversion, if_neg hversion]
      by_cases hdecl : IsDeclaration tag
      · have hflag : (modify fun d : State => { d with currentDeclIsVarsize := false } :
            Accept Unit).run (p.leaving l [] p.currentDeclIsVarsize) =
              .ok ((), p.leaving l [] false) := rfl
        have hends : Ends p (getVarint >>= fun _ => acceptDecl tag)
            (number >>= fun _ => declaration p tag) [] false
            (fun o rest => ((), p.finish o rest)) :=
          Ends.bind (getVarint_follows p [] false) number_shrinks fun _ _ =>
            acceptDecl_ends hp ha tag
        rw [if_pos hdecl, if_pos hdecl, run_bind_of hflag, run_bind_of (advancen_run hl [] false hr)]
        exact hends r (hr.trans hl)
      rw [if_neg hdecl, if_neg hdecl]
      by_cases hbinding : tag = LABCOMM_TYPE_BINDING
      · rw [if_pos hbinding, if_pos hbinding, run_bind_of hadvance]
        exact binding_ends _ r (hr.trans hl)
      rw [if_neg hbinding, if_neg hbinding]
      by_cases huser : LABCOMM_USER ≤ tag
      · rw [if_pos huser, if_pos huser]
        exact acceptSampleData_run hp _ hl hrun
      rw [if_neg huser, if_neg huser]
      -- the tag itself is taken for the length
      have hskip := skip_ends p.currentDeclIsVarsize l hl
      rw [run_bind_of_ok hrun] at hskip
      exact hskip

end Packets

end LabComm.C.SigParser
