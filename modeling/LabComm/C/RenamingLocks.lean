import LabComm.C.RenamingFailures
import LabComm.Library.Mutexes

set_option autoImplicit false

/-! # Locks of renamed registrations

Registrations through `labcomm2014_renaming_decoder.c` and `labcomm2014_renaming_encoder.c`, on a
scheduler with the mutexes of `labcomm2014_pthread_scheduler.c`. `set_renamed` looks for a rename,
acquires one and stores it, each under a lock of its own. A rename that cannot be stored, or that
another thread has stored in the meantime, is given back before the lock is: in the decoder the lock
is that of the data, and giving back a rename asks for it again.

A run asks for no mutex that is held if and only if no decoder comes to that point
(`asksForOthers_iff`).
-/

namespace LabComm.C

open Library

/-! ## Tables -/

/-- The array `renamed` of a decoder or an encoder, and whether its data is not null. -/
structure RenamedTable where
  array : SigArray (Option Addr)
  data : Bool

/-- `LABCOMM_SIGNATURE_ARRAY_INIT` -/
def RenamedTable.init : RenamedTable := ⟨.init, false⟩

/-- `LABCOMM_SIGNATURE_ARRAY_GET`; there is no result if entries of a null array are read. -/
def RenamedTable.get (t : RenamedTable) (index : Int) : Option (Option Addr) :=
  if t.array.first ≤ index ∧ index < t.array.last ∧ ¬ t.data then none
  else some (t.array.get index)

/-- `LABCOMM_SIGNATURE_ARRAY_REF`: whether the pointer is not null, and the table; no result
if the entries of a null array are copied. -/
def RenamedTable.ref (t : RenamedTable) (answer : Bool) (index : Int) :
    Option (Bool × RenamedTable) :=
  if t.array.first = 0 ∧ t.array.last = 0 then
    some (answer, ⟨t.array.ref index, answer⟩)
  else if index < t.array.first ∨ t.array.last ≤ index then
    if answer ∧ ¬ t.data then none else some (answer, ⟨t.array.ref index, answer⟩)
  else some (t.data, t)

/-! ## Registrations -/

/-- The mutexes of the scheduler. -/
inductive Mutex where
  | data_mutex
  | writer_mutex
  deriving DecidableEq

instance mutexFintype : Fintype Mutex :=
  ⟨{.data_mutex, .writer_mutex}, fun m => by cases m <;> decide⟩

/-- What is registered with. -/
inductive Side where
  | decoder
  | encoder
  deriving DecidableEq

/-- A renaming decoder or encoder: where its table is, and its `rename_func`. -/
structure RenameLayer where
  id : Nat
  rename : Name → Option Name

/-- A call of `sample_register` or `ref_register`; the layers are followed along `next`, down to a
decoder or encoder that does not rename. -/
structure RegisterCall where
  side : Side
  layers : List RenameLayer
  signature : Signature

/-- What the threads share. -/
structure RenamingShared where
  tables : Nat → RenamedTable
  registry : RegistryMemory

/-- What is left to the environment in a step: the call that a thread makes, the answers of the
memory, and the registrations of a deferred action, if there is one to run. -/
structure RegistrationEvent where
  call : Option RegisterCall
  answers : RenameAnswers
  growth : Bool
  action : Option (List RegisterCall)

/-- The steps of a registration between two uses of a mutex. -/
inductive RegisterAct where
  /-- The call itself. -/
  | register (c : RegisterCall)
  /-- The array is read in `get_renamed`. -/
  | getRenamed (c : RegisterCall) (l : RenameLayer) (next : List RenameLayer)
  /-- `labcomm2014_renaming_rename_new` -/
  | renameNew (c : RegisterCall) (l : RenameLayer) (next : List RenameLayer)
  /-- `if (renamed == NULL) …; if (*renamed != NULL) …; *renamed = entry;` -/
  | store (c : RegisterCall) (l : RenameLayer) (next : List RenameLayer) (entry : Addr)
  /-- `labcomm2014_renaming_rename_free` -/
  | renameFree (entry : Addr)
  /-- The call of the next layer, with the signature of the rename. -/
  | passOn (c : RegisterCall) (next : List RenameLayer) (renamed : Addr)
  /-- The signature of a rename that is null is asked for. -/
  | nullRename
  | runDeferred

/-- The code of a thread. -/
abbrev RegisterCode := List (Instr Mutex RegisterAct)

/-- `labcomm2014_scheduler_writer_lock` -/
def writerLock : RegisterCode :=
  [.lock .data_mutex, .act .runDeferred, .unlock .data_mutex, .lock .writer_mutex]

/-- `labcomm2014_scheduler_writer_unlock` -/
def writerUnlock : RegisterCode :=
  [.unlock .writer_mutex, .lock .data_mutex, .act .runDeferred, .unlock .data_mutex]

/-- The lock of the table. -/
def Side.lock : Side → RegisterCode
  | decoder => [.lock .data_mutex]
  | encoder => writerLock

/-- The lock of the table is given back. -/
def Side.unlock : Side → RegisterCode
  | decoder => [.unlock .data_mutex]
  | encoder => writerUnlock

/-- The mutex that is held while the table is used. -/
def Side.mutex : Side → Mutex
  | decoder => .data_mutex
  | encoder => .writer_mutex

/-- `labcomm2014_renaming_rename_free` and its lock. -/
def freeCode (entry : Addr) : RegisterCode :=
  [.lock .data_mutex, .act (.renameFree entry), .unlock .data_mutex]

/-- What is done with the place in the table: the entry is stored, or given back before the lock is,
with the label `free_unlock`. -/
def storeCode (c : RegisterCall) (next : List RenameLayer) (entry : Addr) :
    Bool → Option Addr → RegisterCode
  | false, _ => freeCode entry ++ c.side.unlock ++ [.act .nullRename]
  | true, some renamed => freeCode entry ++ c.side.unlock ++ [.act (.passOn c next renamed)]
  | true, none => c.side.unlock ++ [.act (.passOn c next entry)]

/-- What a step does and is replaced by; a thread does not go on that ends the process or goes
through a pointer to nothing. -/
def performRegister (e : RegistrationEvent) :
    RegisterAct → RenamingShared → Option (RegisterCode × RenamingShared)
  | .register c, s =>
      if c.signature.index = 0 then none
      else match c.layers with
        | [] => some (c.side.lock ++ c.side.unlock, s)
        | l :: next => some (c.side.lock ++ [.act (.getRenamed c l next)], s)
  | .getRenamed c l next, s => do
      match ← (s.tables l.id).get c.signature.index with
      | some renamed => some (c.side.unlock ++ [.act (.passOn c next renamed)], s)
      | none => some (c.side.unlock ++ [.lock .data_mutex, .act (.renameNew c l next)], s)
  | .renameNew c l next, s =>
      match renameNewIn e.answers c.signature l.rename s.registry with
      | .error _ => none
      | .ok (none, f) => some ([.unlock .data_mutex, .act .nullRename], { s with registry := f })
      | .ok (some entry, f) => some ([.unlock .data_mutex] ++ c.side.lock ++
          [.act (.store c l next entry)], { s with registry := f })
  | .store c l next entry, s => do
      let (there, t) ← (s.tables l.id).ref e.growth c.signature.index
      let renamed := t.array.get c.signature.index
      let t := if there ∧ renamed = none then
        { t with array := t.array.set c.signature.index (some entry) } else t
      some (storeCode c next entry there renamed,
        { s with tables := Function.update s.tables l.id t })
  | .renameFree entry, s =>
      match renameFreeIn entry s.registry with
      | .error _ => none
      | .ok (_, f) => some ([], { s with registry := f })
  | .passOn c next renamed, s =>
      (renameSignature s.registry.registry renamed).map fun signature =>
        ([.act (.register ⟨c.side, next, signature⟩)], s)
  | .nullRename, _ => none
  | .runDeferred, s =>
      match e.action with
      | none => some ([], s)
      | some calls => some ([.unlock .data_mutex] ++
          calls.flatMap (fun c => [.act (.register c)]) ++
          [.lock .data_mutex, .act .runDeferred], s)

/-- Threads that register, one call after the other. -/
def registering : ThreadProgram Mutex RegisterAct RenamingShared RegistrationEvent where
  perform := performRegister
  start e := e.call.toList.flatMap fun c => [.act (.register c)]

/-! ## The defect -/

/-- A decoder has acquired a rename, and has no place to store it: the array cannot grow, or another
thread has stored a rename in the meantime. -/
def LosesPlace (e : RegistrationEvent) : RegisterAct → RenamingShared → Prop
  | .store c l _ _, s => c.side = .decoder ∧
      ∃ there t, (s.tables l.id).ref e.growth c.signature.index = some (there, t) ∧
        (there = false ∨ t.array.get c.signature.index ≠ none)
  | _, _ => False

/-- The next step of the thread is one of these. -/
def ThreadLosesPlace {T : Type} (y : Threads T Mutex RegisterAct RenamingShared) (t : T)
    (e : RegistrationEvent) : Prop :=
  ∃ a is, y.code t = .act a :: is ∧ LosesPlace e a y.shared

/-! ## Contracts -/

/-- The mutexes a step needs, and those held when the code that it stands for is done. -/
def registerContract : Contract Mutex RegisterAct where
  needs
    | .register _, held => held = ∅
    | .getRenamed c _ _, held => held = {c.side.mutex}
    | .renameNew _ _ _, held => held = {.data_mutex}
    | .store c _ _ _, held => held = {c.side.mutex}
    | .renameFree _, held => .data_mutex ∈ held
    | .passOn _ _ _, held => held = ∅
    | .nullRename, held => held = ∅
    | .runDeferred, held => held = {.data_mutex}
  leaves
    | .renameFree _, held => held
    | .runDeferred, held => held
    | _, _ => ∅

/-! ## Code between two uses of a mutex -/

section Brackets

variable {held : Finset Mutex}

theorem erase_insert_mutex (m : Mutex) : (insert m ∅ : Finset Mutex).erase m = ∅ :=
  Finset.erase_insert (Finset.notMem_empty m)

/-- Deferred actions are run with `data_mutex` held. -/
theorem brackets_runDeferred : registerContract.Brackets ∅
    [.lock .data_mutex, .act .runDeferred, .unlock .data_mutex] ∅ :=
  ⟨Finset.notMem_empty _, rfl, Finset.mem_insert_self _ _, erase_insert_mutex _⟩

theorem brackets_lockOne (m : Mutex) : registerContract.Brackets ∅ [.lock m] {m} :=
  ⟨Finset.notMem_empty m, rfl⟩

theorem brackets_unlockOne (m : Mutex) : registerContract.Brackets {m} [.unlock m] ∅ :=
  ⟨Finset.mem_singleton_self m, erase_insert_mutex m⟩

theorem brackets_lock (side : Side) : registerContract.Brackets ∅ side.lock {side.mutex} := by
  cases side with
  | decoder => exact brackets_lockOne .data_mutex
  | encoder => exact brackets_runDeferred.append (brackets_lockOne .writer_mutex)

theorem brackets_unlock (side : Side) : registerContract.Brackets {side.mutex} side.unlock ∅ := by
  cases side with
  | decoder => exact brackets_unlockOne .data_mutex
  | encoder => exact (brackets_unlockOne .writer_mutex).append brackets_runDeferred

/-- Calls are made with no mutex held. -/
theorem brackets_register (c : RegisterCall) :
    registerContract.Brackets ∅ [.act (.register c)] ∅ :=
  ⟨rfl, rfl⟩

/-- A rename can be given back where `data_mutex` is not held, and nowhere else. -/
theorem brackets_free (entry : Addr) (h : .data_mutex ∉ held) :
    registerContract.Brackets held (freeCode entry) held :=
  ⟨h, Finset.mem_insert_self _ _, Finset.mem_insert_self _ _, Finset.erase_insert h⟩

/-- What follows the use of the table is done with no mutex held. -/
theorem brackets_unlock_act (side : Side) {a : RegisterAct} (hneeds : registerContract.needs a ∅)
    (hleaves : registerContract.leaves a ∅ = ∅) :
    registerContract.Brackets {side.mutex} (side.unlock ++ [.act a]) ∅ :=
  (brackets_unlock side).append ⟨hneeds, hleaves⟩

theorem brackets_lock_act (side : Side) {a : RegisterAct}
    (hneeds : registerContract.needs a {side.mutex})
    (hleaves : registerContract.leaves a {side.mutex} = ∅) :
    registerContract.Brackets ∅ (side.lock ++ [.act a]) ∅ :=
  (brackets_lock side).append ⟨hneeds, hleaves⟩

/-- What is done with the place, in the encoder or where the rename is stored. -/
theorem brackets_store {c : RegisterCall} {next : List RenameLayer} {entry : Addr} {there : Bool}
    {renamed : Option Addr}
    (h : ¬ (c.side = .decoder ∧ (there = false ∨ renamed ≠ none))) :
    registerContract.Brackets {c.side.mutex} (storeCode c next entry there renamed) ∅ := by
  have hfree : there = false ∨ renamed ≠ none →
      Mutex.data_mutex ∉ ({c.side.mutex} : Finset Mutex) := by
    intro hplace
    cases hside : c.side with
    | decoder => exact absurd ⟨hside, hplace⟩ h
    | encoder => decide
  unfold storeCode
  split
  · rw [List.append_assoc]
    exact (brackets_free entry (hfree (.inl rfl))).append (brackets_unlock_act c.side rfl rfl)
  · rw [List.append_assoc]
    exact (brackets_free entry (hfree (.inr (Option.some_ne_none _)))).append (brackets_unlock_act c.side rfl rfl)
  · exact brackets_unlock_act c.side rfl rfl

end Brackets

/-! ## Steps -/

section Steps

variable {e : RegistrationEvent} {a : RegisterAct} {s : RenamingShared}

/-- A step keeps to its contract where no decoder loses the place of its rename. -/
theorem keeps_register (h : ¬ LosesPlace e a s) : Keeps registerContract registering e a s := by
  intro new s' held hperform hneeds
  change performRegister e a s = some (new, s') at hperform
  -- each action starts with the mutexes its predecessor left it
  cases a with
  | register c =>
      obtain rfl : held = ∅ := hneeds
      simp only [performRegister] at hperform
      split at hperform
      · cases hperform
      · cases hlayers : c.layers with
        | nil =>
            rw [hlayers] at hperform
            cases hperform
            exact (brackets_lock c.side).append (brackets_unlock c.side)
        | cons l next =>
            rw [hlayers] at hperform
            cases hperform
            exact brackets_lock_act c.side rfl rfl
  | getRenamed c l next =>
      obtain rfl : held = {c.side.mutex} := hneeds
      simp only [performRegister, Option.bind_eq_bind, Option.bind_eq_some_iff] at hperform
      obtain ⟨found, -, hfound⟩ := hperform
      cases found with
      | some renamed =>
          cases hfound
          exact brackets_unlock_act c.side rfl rfl
      | none =>
          cases hfound
          have hnew : registerContract.Brackets ∅
              [.lock .data_mutex, .act (.renameNew c l next)] ∅ :=
            (brackets_lockOne .data_mutex).append ⟨rfl, rfl⟩
          exact (brackets_unlock c.side).append hnew
  | renameNew c l next =>
      obtain rfl : held = {.data_mutex} := hneeds
      simp only [performRegister] at hperform
      split at hperform
      · cases hperform
      · cases hperform
        exact (brackets_unlockOne .data_mutex).append ⟨rfl, rfl⟩
      · cases hperform
        rw [List.append_assoc]
        exact (brackets_unlockOne .data_mutex).append (brackets_lock_act c.side rfl rfl)
  | store c l next entry =>
      obtain rfl : held = {c.side.mutex} := hneeds
      simp only [performRegister, Option.bind_eq_bind, Option.bind_eq_some_iff] at hperform
      obtain ⟨⟨there, t⟩, href, hstore⟩ := hperform
      cases hstore
      -- only a decoder that finds no place asks for a mutex that it holds
      exact brackets_store fun hlose => h ⟨hlose.1, there, t, href, hlose.2⟩
  | renameFree entry =>
      simp only [performRegister] at hperform
      split at hperform
      · cases hperform
      · cases hperform
        rfl
  | passOn c next renamed =>
      obtain rfl : held = ∅ := hneeds
      obtain ⟨signature, -, hnew⟩ := Option.map_eq_some_iff.mp hperform
      cases hnew
      exact ⟨rfl, rfl⟩
  | nullRename => cases hperform
  | runDeferred =>
      obtain rfl : held = {.data_mutex} := hneeds
      simp only [performRegister] at hperform
      split at hperform
      · cases hperform
        rfl
      · rename_i calls _
        cases hperform
        -- the deferred calls take and give back mutexes of their own
        have hcalls := Contract.Brackets.flatMap brackets_register calls
        have hlock : registerContract.Brackets ∅ [.lock .data_mutex, .act .runDeferred]
            {.data_mutex} := (brackets_lockOne .data_mutex).append ⟨rfl, rfl⟩
        exact ((brackets_unlockOne .data_mutex).append hcalls).append hlock

/-- A decoder that loses the place asks for `data_mutex` first. -/
theorem storeCode_lost {c : RegisterCall} {next : List RenameLayer} {entry : Addr} {there : Bool}
    {renamed : Option Addr} (h : there = false ∨ renamed ≠ none) :
    ∃ is, storeCode c next entry there renamed = .lock .data_mutex :: is := by
  cases there with
  | false => exact ⟨_, rfl⟩
  | true =>
      cases renamed with
      | none => exact absurd rfl (h.resolve_left Bool.noConfusion)
      | some renamed => exact ⟨_, rfl⟩

variable {T : Type} [DecidableEq T] {y : Threads T Mutex RegisterAct RenamingShared} {t : T}

/-- A decoder that loses the place asks for the mutex it holds. -/
theorem asks_of_losesPlace (hy : Coherent registerContract y) (h : ThreadLosesPlace y t e) :
    ∃ y', y.step registering t e = some y' ∧ ¬ AsksForOthers y' := by
  obtain ⟨a, is, hcode, hloses⟩ := h
  cases a with
  | store c l next entry =>
      obtain ⟨hside, there, table, href, hplace⟩ := hloses
      -- the lock of the table is held, since the use of the table is bracketed
      have hheld : y.held t = {c.side.mutex} := by
        have hbrackets := hy t
        rw [hcode] at hbrackets
        exact hbrackets.1
      have howner : y.owner .data_mutex = some t := by
        refine mem_held.mp ?_
        rw [hheld, hside]
        exact Finset.mem_singleton_self _
      have hperform : ∃ p, performRegister e (.store c l next entry) y.shared = some p ∧
          p.1 = storeCode c next entry there (table.array.get c.signature.index) := by
        simp only [performRegister, href, Option.bind_eq_bind, Option.bind_some]
        exact ⟨_, rfl, rfl⟩
      obtain ⟨p, hp, hnew⟩ := hperform
      obtain ⟨rest, hrest⟩ := @storeCode_lost c next entry there _ hplace
      have hstep : y.step registering t e =
          some { y.goOn t (p.1 ++ is) with shared := p.2 } := by
        rw [step_act hcode]
        change (performRegister e (.store c l next entry) y.shared).map _ = _
        rw [hp]
        rfl
      refine ⟨_, hstep, fun hasks => hasks t .data_mutex (rest ++ is) ?_ howner⟩
      simp only [Threads.goOn, Function.update_self]
      rw [hnew, hrest]
      rfl
  | register c => exact hloses.elim
  | getRenamed c l next => exact hloses.elim
  | renameNew c l next => exact hloses.elim
  | renameFree entry => exact hloses.elim
  | passOn c next renamed => exact hloses.elim
  | nullRename => exact hloses.elim
  | runDeferred => exact hloses.elim

theorem brackets_start (e : RegistrationEvent) :
    registerContract.Brackets ∅ (registering.start e) ∅ :=
  Contract.Brackets.flatMap brackets_register e.call.toList

end Steps

/-! ## Runs -/

/-- **No thread asks for a mutex that it holds**, in a run of any threads, if and only if no decoder
comes to a point where it has acquired a rename and has no place to store it. -/
theorem asksForOthers_iff {T : Type} [DecidableEq T] (s : RenamingShared)
    (es : List (T × RegistrationEvent)) :
    Always registering AsksForOthers es (Threads.idle s) ↔
      Avoids registering ThreadLosesPlace es (Threads.idle s) :=
  (coherent_idle s).always_iff brackets_start
    (fun _ _ _ hQ a is hcode => keeps_register fun hloses => hQ ⟨a, is, hcode, hloses⟩)
    (fun _ _ _ hy hQ => asks_of_losesPlace hy hQ) es

/-- A call for the same sample with the same decoder, whatever thread makes it. -/
def sameRegistration : RegistrationEvent :=
  ⟨some ⟨.decoder, [⟨0, some⟩], intSignature⟩, allAnswered, true, none⟩

/-- Two threads acquire a rename before one of them stores it. -/
def raceRun : List (Bool × RegistrationEvent) :=
  List.replicate 8 (false, sameRegistration) ++ List.replicate 8 (true, sameRegistration) ++
    List.replicate 3 (false, sameRegistration) ++ List.replicate 2 (true, sameRegistration)

/-- Nothing is registered. -/
def noRegistrations : RenamingShared := ⟨fun _ => .init, MemoryRun.start.memory⟩

/-- The thread asks for a mutex, and holds it. -/
def asksForOwn (y : Threads Bool Mutex RegisterAct RenamingShared) (t : Bool) : Bool :=
  match y.code t with
  | .lock m :: _ => y.owner m = some t
  | _ => false

theorem not_asksForOthers_of_own {y : Threads Bool Mutex RegisterAct RenamingShared} {t : Bool}
    (h : asksForOwn y t = true) : ¬ AsksForOthers y := by
  intro hasks
  unfold asksForOwn at h
  split at h
  · rename_i m is hcode
    exact hasks t m is hcode (of_decide_eq_true h)
  · cases h

/-- The thread that comes second gives back its rename with `data_mutex` held. -/
theorem not_asksForOthers_race :
    ¬ Always registering AsksForOthers raceRun (Threads.idle noRegistrations) := by
  intro h
  have hrun : ((Threads.idle noRegistrations).run registering raceRun).map (asksForOwn · true) =
      some true := by
    decide +kernel
  obtain ⟨y, hy, hown⟩ := Option.map_eq_some_iff.mp hrun
  exact not_asksForOthers_of_own hown (h.run hy)

end LabComm.C
