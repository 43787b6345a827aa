import LabComm.Library.Parsing

set_option autoImplicit false

/-! # Decoders that take one packet after the other

A round of a decoder takes a packet off a list of bytes, changes the decoder and may deliver
something, or raises an exception. The decoder is run until there is an exception. What follows a
packet does not matter to a round that takes just the packet (`Consumes`), or to one that is over
before (`Raises`).

Packets that are taken without any effect can be left out of the input: the same is delivered, and
the run ends in the same way. If one of them is refused, that is so where the next packet that is not
left out is refused in the same way (`transparent_of_passes`).
-/

namespace LabComm.Library

variable {σ β ε P : Type}

/-- A parser raises an exception at these bytes, whatever follows. -/
def Raises {α : Type} (p : Parser ε α) (bs : List UInt8) (e : ε) : Prop :=
  ∀ rest, p.run (bs ++ rest) = .error e

/-- Whatever follows these bytes, a parser comes out as `x`, and takes all of them if that is a
result. -/
def Yields {α : Type} (p : Parser ε α) (bs : List UInt8) (x : Except ε α) : Prop :=
  ∀ rest, p.run (bs ++ rest) = x.map fun a => (a, rest)

theorem yields_ok {α : Type} {p : Parser ε α} {bs : List UInt8} {a : α} :
    Yields p bs (.ok a) ↔ Consumes p bs a := Iff.rfl

/-- A first half with the second half that its result asks for. -/
theorem Yields.bind {α γ : Type} {p : Parser ε α} {f : α → Parser ε γ} {bs cs : List UInt8}
    {x : Except ε α} {y : α → Except ε γ} (hp : Yields p bs x) (hf : ∀ a, Yields (f a) cs (y a)) :
    Yields (p >>= f) (bs ++ cs) (x >>= y) := by
  intro rest
  rw [List.append_assoc, run_bind, hp]
  cases x with
  | error e => rfl
  | ok a => exact hf a rest

/-- A first half that takes its bytes. -/
theorem Yields.after {α γ : Type} {p : Parser ε α} {f : α → Parser ε γ} {bs cs : List UInt8} {a : α}
    {y : Except ε γ} (hp : Consumes p bs a) (hf : Yields (f a) cs y) :
    Yields (p >>= f) (bs ++ cs) y := by
  intro rest
  rw [List.append_assoc, hp.run_bind]
  exact hf rest

theorem Yields.map {α γ : Type} {p : Parser ε α} {bs : List UInt8} {x : Except ε α} (hp : Yields p bs x)
    (f : α → γ) : Yields (f <$> p) bs (f <$> x) := by
  intro rest
  rw [map_eq_pure_bind, run_bind, hp]
  cases x <;> rfl

theorem Yields.bind_pure {α γ : Type} {p : Parser ε α} {bs : List UInt8} {x : Except ε α}
    (hp : Yields p bs x) (f : α → γ) :
    Yields (do let a ← p; pure (f a)) bs (do let a ← x; pure (f a)) := by
  have hmap := hp.map f
  rwa [map_eq_pure_bind, map_eq_pure_bind] at hmap

/-- A loop whose rounds come out one after the other. -/
theorem Yields.times {α γ : Type} {p : Parser ε α} {g : γ → List UInt8} {y : γ → Except ε α}
    {l : List γ} (h : ∀ c ∈ l, Yields p (g c) (y c)) :
    Yields (times l.length p) (l.flatMap g) (l.mapM y) := by
  induction l with
  | nil => exact fun rest => rfl
  | cons c l ih =>
      rw [List.flatMap_cons, List.length_cons, Library.times, List.mapM_cons]
      refine (h c List.mem_cons_self).bind fun a => ?_
      exact (ih fun d hd => h d (List.mem_cons_of_mem _ hd)).bind_pure (a :: ·)

/-- Whatever follows these bytes, the parser takes all of them or raises an exception, and always in
the same way. -/
def Settles {α : Type} (p : Parser ε α) (bs : List UInt8) : Prop := ∃ x, Yields p bs x

theorem Settles.bind {α γ : Type} {p : Parser ε α} {f : α → Parser ε γ} {bs cs : List UInt8}
    (hp : Settles p bs) (hf : ∀ a, Settles (f a) cs) : Settles (p >>= f) (bs ++ cs) := by
  obtain ⟨x, hx⟩ := hp
  choose y hy using hf
  exact ⟨x >>= y, hx.bind hy⟩

theorem Settles.map {α γ : Type} {p : Parser ε α} {bs : List UInt8} (hp : Settles p bs) (f : α → γ) :
    Settles (f <$> p) bs := by
  obtain ⟨x, hx⟩ := hp
  exact ⟨f <$> x, hx.map f⟩

/-- A loop over rows that settle. -/
theorem Settles.times {α : Type} {p : Parser ε α} {rows : List (List UInt8)}
    (h : ∀ r ∈ rows, Settles p r) : Settles (times rows.length p) rows.flatten := by
  induction rows with
  | nil => exact ⟨.ok [], fun rest => rfl⟩
  | cons r rows ih =>
      rw [List.flatten_cons, List.length_cons, Library.times]
      refine (h r List.mem_cons_self).bind fun a => ?_
      have hrest := (ih fun r hr => h r (List.mem_cons_of_mem _ hr)).map (a :: ·)
      rwa [map_eq_pure_bind] at hrest

/-! ## Runs -/

/-- One round: the decoder and what is delivered. -/
abbrev Round (σ β ε : Type) := σ → Parser ε (σ × Option β)

/-- What a run delivered, the exception that ended it, and the bytes from the packet on that was
not taken. -/
structure Ended (β ε : Type) where
  delivered : List β
  exception : ε
  unread : List UInt8

/-- With something delivered before. -/
def Ended.after (out : Option β) (r : Ended β ε) : Ended β ε :=
  { r with delivered := out.toList ++ r.delivered }

/-- Rounds until there is an exception. -/
inductive Runs (round : Round σ β ε) : σ → List UInt8 → Ended β ε → Prop
  | raises {s : σ} {bs : List UInt8} {e : ε} : (round s).run bs = .error e →
      Runs round s bs ⟨[], e, bs⟩
  | takes {s s' : σ} {bs rest : List UInt8} {out : Option β} {r : Ended β ε} :
      (round s).run bs = .ok ((s', out), rest) → Runs round s' rest r →
      Runs round s bs (r.after out)

section Run

variable {round : Round σ β ε} {s s' : σ} {bs rest : List UInt8} {out : Option β} {e : ε}
  {r r' : Ended β ε}

theorem Runs.of_error (h : Runs round s bs r) (hround : (round s).run bs = .error e) :
    r = ⟨[], e, bs⟩ := by
  cases h with
  | raises herror =>
      rw [hround, Except.error.injEq] at herror
      rw [herror]
  | takes hok =>
      rw [hround] at hok
      cases hok

theorem Runs.of_ok (h : Runs round s bs r) (hround : (round s).run bs = .ok ((s', out), rest)) :
    ∃ r', r = r'.after out ∧ Runs round s' rest r' := by
  cases h with
  | raises herror =>
      rw [hround] at herror
      cases herror
  | takes hok hrest =>
      rw [hround] at hok
      cases hok
      exact ⟨_, rfl, hrest⟩

end Run

/-! ## Leaving packets out -/

/-- The bytes of all packets; those that are marked can be left out. -/
def allBytes (bytes : P → List UInt8) (stream : List (Bool × P)) : List UInt8 :=
  stream.flatMap fun p => bytes p.2

/-- The bytes of the packets that are not marked. -/
def keptBytes (bytes : P → List UInt8) (stream : List (Bool × P)) : List UInt8 :=
  stream.flatMap fun p => if p.1 then [] else bytes p.2

theorem allBytes_cons (bytes : P → List UInt8) (p : Bool × P) (stream : List (Bool × P)) :
    allBytes bytes (p :: stream) = bytes p.2 ++ allBytes bytes stream := List.flatMap_cons

theorem keptBytes_cons_true (bytes : P → List UInt8) (p : P) (stream : List (Bool × P)) :
    keptBytes bytes ((true, p) :: stream) = keptBytes bytes stream := List.flatMap_cons

theorem keptBytes_cons_false (bytes : P → List UInt8) (p : P) (stream : List (Bool × P)) :
    keptBytes bytes ((false, p) :: stream) = bytes p ++ keptBytes bytes stream := List.flatMap_cons

/-- The two runs deliver the same, end with the same exception, and leave the same bytes, but for
marked packets if they do not get to the end of the stream. -/
structure Matches (bytes : P → List UInt8) (stream : List (Bool × P)) (rest : List UInt8)
    (r r' : Ended β ε) : Prop where
  delivered : r.delivered = r'.delivered
  exception : r.exception = r'.exception
  unread : r.unread = r'.unread ∨ ∃ later, later <:+ stream ∧
    r.unread = allBytes bytes later ++ rest ∧ r'.unread = keptBytes bytes later ++ rest

/-- Whatever follows the stream, the decoder does the same with it and without the marked packets:
both runs end, or neither does. -/
def Transparent (round : Round σ β ε) (bytes : P → List UInt8) (s : σ)
    (stream : List (Bool × P)) : Prop :=
  ∀ rest : List UInt8,
    (∀ r, Runs round s (allBytes bytes stream ++ rest) r →
      ∃ r', Runs round s (keptBytes bytes stream ++ rest) r' ∧ Matches bytes stream rest r r') ∧
    ∀ r', Runs round s (keptBytes bytes stream ++ rest) r' →
      ∃ r, Runs round s (allBytes bytes stream ++ rest) r ∧ Matches bytes stream rest r r'

/-- The first packet that is not marked. -/
def nextKept (stream : List (Bool × P)) : Option P :=
  (stream.find? fun p => !p.1).map Prod.snd

/-- Each packet is taken as a whole, up to one that is refused, and a marked one has no effect; or it
is refused, and so is the next packet that is not marked. -/
def Passes (round : Round σ β ε) (bytes : P → List UInt8) : σ → List (Bool × P) → Prop
  | _, [] => True
  | s, (true, p) :: stream =>
      (Consumes (round s) (bytes p) (s, none) ∧ Passes round bytes s stream) ∨
        ∃ e, Raises (round s) (bytes p) e ∧
          ∃ q, nextKept stream = some q ∧ Raises (round s) (bytes q) e
  | s, (false, p) :: stream =>
      (∃ s' out, Consumes (round s) (bytes p) (s', out) ∧ Passes round bytes s' stream) ∨
        ∃ e, Raises (round s) (bytes p) e

section Leaving

variable {round : Round σ β ε} {bytes : P → List UInt8} {stream : List (Bool × P)}
  {rest : List UInt8}

theorem Matches.after {r r' : Ended β ε} (h : Matches bytes stream rest r r') (out : Option β)
    (p : Bool × P) : Matches bytes (p :: stream) rest (r.after out) (r'.after out) := by
  refine ⟨congrArg (out.toList ++ ·) h.delivered, h.exception, h.unread.imp_right ?_⟩
  rintro ⟨later, hsuffix, hall, hkept⟩
  exact ⟨later, hsuffix.trans (List.suffix_cons p stream), hall, hkept⟩

/-- What is kept starts with the first packet that is not marked. -/
theorem keptBytes_nextKept {q : P} (h : nextKept stream = some q) :
    ∃ more, keptBytes bytes stream = bytes q ++ more := by
  induction stream with
  | nil => cases h
  | cons p stream ih =>
      obtain ⟨marked, p⟩ := p
      cases marked with
      | true =>
          rw [keptBytes_cons_true]
          exact ih h
      | false =>
          obtain rfl : p = q := Option.some.inj h
          exact ⟨_, keptBytes_cons_false bytes p stream⟩

/-- **Packets without effect can be left out.** -/
theorem transparent_of_passes {s : σ} (h : Passes round bytes s stream) :
    Transparent round bytes s stream := by
  intro rest
  induction stream generalizing s with
  | nil => exact ⟨fun r hr => ⟨r, hr, rfl, rfl, .inl rfl⟩, fun r hr => ⟨r, hr, rfl, rfl, .inl rfl⟩⟩
  | cons p stream ih =>
      obtain ⟨marked, p⟩ := p
      rw [allBytes_cons, List.append_assoc]
      cases marked with
      | true =>
          rw [keptBytes_cons_true]
          rcases h with ⟨hconsumes, hpasses⟩ | ⟨e, hraises, q, hnext, hraises'⟩
          · obtain ⟨hleft, hright⟩ := ih hpasses
            constructor
            · intro r hr
              obtain ⟨r₁, rfl, hrest⟩ := hr.of_ok (hconsumes _)
              obtain ⟨r', hr', hmatches⟩ := hleft r₁ hrest
              exact ⟨r', hr', hmatches.after none (true, p)⟩
            · intro r' hr'
              obtain ⟨r, hr, hmatches⟩ := hright r' hr'
              exact ⟨r.after none, .takes (hconsumes _) hr, hmatches.after none (true, p)⟩
          · -- nothing is left of the stream but what is refused as the packet was
            obtain ⟨more, hkept⟩ := @keptBytes_nextKept _ bytes _ _ hnext
            have hrefused : (round s).run (keptBytes bytes stream ++ rest) = .error e := by
              rw [hkept, List.append_assoc]
              exact hraises' _
            have hends : Matches bytes ((true, p) :: stream) rest
                (⟨[], e, bytes p ++ (allBytes bytes stream ++ rest)⟩ : Ended β ε)
                ⟨[], e, keptBytes bytes stream ++ rest⟩ := by
              refine ⟨rfl, rfl, .inr ⟨(true, p) :: stream, List.suffix_rfl, ?_, ?_⟩⟩
              · rw [allBytes_cons, List.append_assoc]
              · rw [keptBytes_cons_true]
            constructor
            · intro r hr
              rw [hr.of_error (hraises _)]
              exact ⟨_, .raises hrefused, hends⟩
            · intro r' hr'
              rw [hr'.of_error hrefused]
              exact ⟨_, .raises (hraises _), hends⟩
      | false =>
          rw [keptBytes_cons_false, List.append_assoc]
          rcases h with ⟨s', out, hconsumes, hpasses⟩ | ⟨e, hraises⟩
          · obtain ⟨hleft, hright⟩ := ih hpasses
            constructor
            · intro r hr
              obtain ⟨r₁, rfl, hrest⟩ := hr.of_ok (hconsumes _)
              obtain ⟨r', hr', hmatches⟩ := hleft r₁ hrest
              exact ⟨r'.after out, .takes (hconsumes _) hr', hmatches.after out (false, p)⟩
            · intro r' hr'
              obtain ⟨r₁, rfl, hrest⟩ := hr'.of_ok (hconsumes _)
              obtain ⟨r, hr, hmatches⟩ := hright r₁ hrest
              exact ⟨r.after out, .takes (hconsumes _) hr, hmatches.after out (false, p)⟩
          · -- both runs end here, with the rest of their streams unread
            have hends : Matches bytes ((false, p) :: stream) rest
                (⟨[], e, bytes p ++ (allBytes bytes stream ++ rest)⟩ : Ended β ε)
                ⟨[], e, bytes p ++ (keptBytes bytes stream ++ rest)⟩ := by
              refine ⟨rfl, rfl, .inr ⟨(false, p) :: stream, List.suffix_rfl, ?_, ?_⟩⟩
              · rw [allBytes_cons, List.append_assoc]
              · rw [keptBytes_cons_false, List.append_assoc]
            constructor
            · intro r hr
              rw [hr.of_error (hraises _)]
              exact ⟨_, .raises (hraises _), hends⟩
            · intro r' hr'
              rw [hr'.of_error (hraises _)]
              exact ⟨_, .raises (hraises _), hends⟩

end Leaving

end LabComm.Library
