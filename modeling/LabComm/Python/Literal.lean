import Mathlib.Tactic

set_option autoImplicit false

/-! # String literals of Python 2

What a text between single quotes denotes, byte by byte. A literal is never longer than its text,
and it has the length of its text only if it is the text (`shortString_length`).
-/

namespace LabComm.Python

/-- The characters after a backslash that stand for one other character. -/
def simpleEscapes : List (UInt8 × UInt8) :=
  [(92, 92), (39, 39), (34, 34), (97, 7), (98, 8), (102, 12), (110, 10), (114, 13), (116, 9),
    (118, 11)]

def octalDigit (b : UInt8) : Option Nat :=
  if 48 ≤ b ∧ b ≤ 55 then some (b.toNat - 48) else none

def hexDigit (b : UInt8) : Option Nat :=
  if 48 ≤ b ∧ b ≤ 57 then some (b.toNat - 48)
  else if 65 ≤ b ∧ b ≤ 70 then some (b.toNat - 55)
  else if 97 ≤ b ∧ b ≤ 102 then some (b.toNat - 87)
  else none

/-- Up to `n` more octal digits. -/
def octalDigits : Nat → Nat → List UInt8 → Nat × List UInt8
  | n + 1, v, b :: text =>
      match octalDigit b with
      | some d => octalDigits n (v * 8 + d) text
      | none => (v, b :: text)
  | _, v, text => (v, text)

/-- Two hexadecimal digits. -/
def hexDigits : List UInt8 → Option (Nat × List UInt8)
  | h :: l :: text => do
      let h ← hexDigit h
      let l ← hexDigit l
      pure (h * 16 + l, text)
  | _ => none

/-- What a backslash and the text after it stand for, and the rest of the text. -/
def escapeSequence : List UInt8 → Option (List UInt8 × List UInt8)
  | [] => none
  | c :: text =>
      -- a line break, which may be written in three ways
      if c = 10 then some ([], text)
      else if c = 13 then some ([], if text.head? = some 10 then text.tail else text)
      else if c = 0 then none
      else if c = 120 then (hexDigits text).map fun x => ([UInt8.ofNat x.1], x.2)
      else
        match (simpleEscapes.find? fun p => p.1 = c), octalDigit c with
        | some p, _ => some ([p.2], text)
        | none, some d => some ([UInt8.ofNat (octalDigits 2 d text).1], (octalDigits 2 d text).2)
        | none, none => some ([92, c], text)

/-- The text of a literal ends here, or it is no literal. A quote ends the literal; what follows
is left open. -/
def endsLiteral (b : UInt8) : Bool := b = 39 || b = 10 || b = 13 || b = 0

/-- What `fuel` characters and escape sequences denote. -/
def shortStringFuel : Nat → List UInt8 → Option (List UInt8)
  | _, [] => some []
  | 0, _ => none
  | fuel + 1, b :: text =>
      if endsLiteral b then none
      else if b = 92 then do
        let (bs, rest) ← escapeSequence text
        let more ← shortStringFuel fuel rest
        pure (bs ++ more)
      else do
        let more ← shortStringFuel fuel text
        pure (b :: more)

/-- What the text denotes between single quotes. -/
def shortString (text : List UInt8) : Option (List UInt8) := shortStringFuel text.length text

/-- After a backslash the character is changed. -/
def isEscape (c : UInt8) : Bool :=
  c = 10 || c = 13 || c = 0 || c = 120 || (simpleEscapes.find? fun p => p.1 = c).isSome ||
    (octalDigit c).isSome

/-- The text denotes itself: no quote, no line break, no zero, and no escape sequence. -/
def Plain : List UInt8 → Bool
  | [] => true
  | [b] => !endsLiteral b && b ≠ 92
  | b :: c :: text =>
      !endsLiteral b && if b = 92 then !isEscape c && Plain text else Plain (c :: text)

/-! ## Lengths -/

theorem octalDigits_length (n v : Nat) (text : List UInt8) :
    (octalDigits n v text).2.length ≤ text.length := by
  induction n generalizing v text with
  | zero => simp [octalDigits]
  | succ n ih =>
      cases text with
      | nil => simp [octalDigits]
      | cons b text =>
          unfold octalDigits
          split
          · rename_i d _
            have := ih (v * 8 + d) text
            simp only [List.length_cons]
            omega
          · simp

theorem hexDigits_length {text rest : List UInt8} {v : Nat} (h : hexDigits text = some (v, rest)) :
    rest.length + 2 = text.length := by
  match text with
  | [] => cases h
  | [_] => cases h
  | a :: b :: text =>
      simp only [hexDigits, Option.bind_eq_bind, Option.bind_eq_some_iff] at h
      obtain ⟨_, _, _, _, hpure⟩ := h
      cases hpure
      rfl

/-- A backslash and the next character stand for themselves, or a sequence becomes shorter. -/
theorem escapeSequence_cases {text bs rest : List UInt8}
    (h : escapeSequence text = some (bs, rest)) :
    (∃ c, text = c :: rest ∧ bs = [92, c] ∧ isEscape c = false) ∨
      (bs.length + rest.length ≤ text.length ∧ rest.length < text.length) := by
  cases text with
  | nil => cases h
  | cons c text =>
      rw [escapeSequence] at h
      simp only [List.length_cons]
      -- the branches of the source, in their order
      by_cases h10 : c = 10
      · rw [if_pos h10] at h
        cases h
        exact Or.inr ⟨by simp, by omega⟩
      rw [if_neg h10] at h
      by_cases h13 : c = 13
      · rw [if_pos h13] at h
        cases h
        right
        split
        · rw [List.length_tail]
          exact ⟨by rw [List.length_nil]; omega, by omega⟩
        · exact ⟨by simp, by omega⟩
      rw [if_neg h13] at h
      by_cases h0 : c = 0
      · rw [if_pos h0] at h
        cases h
      rw [if_neg h0] at h
      by_cases hx : c = 120
      · rw [if_pos hx, Option.map_eq_some_iff] at h
        obtain ⟨⟨v, rest'⟩, hv, heq⟩ := h
        have hlen := hexDigits_length hv
        cases heq
        right
        show [_].length + rest'.length ≤ _ ∧ rest'.length < _
        exact ⟨by rw [List.length_singleton]; omega, by omega⟩
      rw [if_neg hx] at h
      cases hfind : simpleEscapes.find? fun p => p.1 = c with
      | some p =>
          rw [hfind] at h
          cases h
          exact Or.inr ⟨by rw [List.length_singleton]; omega, by omega⟩
      | none =>
          cases hoct : octalDigit c with
          | some d =>
              rw [hfind, hoct] at h
              cases h
              have hlen := octalDigits_length 2 d text
              exact Or.inr ⟨by rw [List.length_singleton]; omega, by omega⟩
          | none =>
              rw [hfind, hoct] at h
              cases h
              exact Or.inl ⟨c, rfl, rfl, by simp [isEscape, h10, h13, h0, hx, hfind, hoct]⟩

theorem shortStringFuel_length {fuel : Nat} {text s : List UInt8}
    (h : shortStringFuel fuel text = some s) :
    s.length ≤ text.length ∧ (s.length = text.length → Plain text = true) := by
  induction fuel generalizing text s with
  | zero =>
      cases text with
      | nil =>
          cases h
          exact ⟨le_rfl, fun _ => rfl⟩
      | cons b text => cases h
  | succ fuel ih =>
      cases text with
      | nil =>
          cases h
          exact ⟨le_rfl, fun _ => rfl⟩
      | cons b text =>
          unfold shortStringFuel at h
          split at h
          · cases h
          · rename_i hend
            split at h
            · rename_i hb
              simp only [Option.bind_eq_bind, Option.bind_eq_some_iff] at h
              obtain ⟨⟨bs, rest⟩, hesc, more, hmore, hpure⟩ := h
              have hmore : shortStringFuel fuel rest = some more := hmore
              obtain ⟨hle, hplain⟩ := ih hmore
              cases hpure
              -- only an escape that stands for itself keeps the length
              rcases escapeSequence_cases hesc with ⟨c, rfl, rfl, hc⟩ | ⟨hlen, _⟩
              · simp only [List.length_append, List.length_cons, List.length_nil]
                refine ⟨by omega, fun heq => ?_⟩
                have := hplain (by omega)
                rw [hb] at hend
                simp [Plain, hend, hb, hc, this]
              · simp only [List.length_append, List.length_cons]
                exact ⟨by omega, fun heq => by omega⟩
            · rename_i hb
              simp only [Option.bind_eq_bind, Option.bind_eq_some_iff] at h
              obtain ⟨more, hmore, hpure⟩ := h
              obtain ⟨hle, hplain⟩ := ih hmore
              cases hpure
              simp only [List.length_cons]
              refine ⟨by omega, fun heq => ?_⟩
              have := hplain (by omega)
              cases text with
              | nil => simp [Plain, hend, hb]
              | cons c text => simp [Plain, hend, hb, this]

/-- **A literal is no longer than its text**, and shorter unless the text is plain. -/
theorem shortString_length {text s : List UInt8} (h : shortString text = some s) :
    s.length ≤ text.length ∧ (s.length = text.length → Plain text = true) :=
  shortStringFuel_length h

/-- A plain text denotes itself. -/
theorem shortString_plain {text : List UInt8} (h : Plain text = true) :
    shortString text = some text := by
  have hfuel : ∀ (fuel : Nat) (text : List UInt8), text.length ≤ fuel → Plain text = true →
      shortStringFuel fuel text = some text := by
    intro fuel
    induction fuel with
    | zero =>
        intro text hlen _
        cases text with
        | nil => rfl
        | cons b text => simp at hlen
    | succ fuel ih =>
        intro text hlen hplain
        match text with
        | [] => rfl
        | [b] =>
            simp only [Plain, Bool.and_eq_true, Bool.not_eq_true', decide_eq_true_eq] at hplain
            simp [shortStringFuel, hplain.1, hplain.2]
        | b :: c :: text =>
            rw [List.length_cons, List.length_cons] at hlen
            simp only [Plain, Bool.and_eq_true, Bool.not_eq_true'] at hplain
            obtain ⟨hend, hplain⟩ := hplain
            -- a backslash, or a character that is not one
            by_cases hb : b = 92
            · rw [if_pos hb, Bool.and_eq_true, Bool.not_eq_true'] at hplain
              obtain ⟨hc, hplain⟩ := hplain
              have hesc : escapeSequence (c :: text) = some ([92, c], text) := by
                simp only [isEscape, Bool.or_eq_false_iff, decide_eq_false_iff_not,
                  Option.isSome_eq_false_iff, Option.isNone_iff_eq_none] at hc
                obtain ⟨⟨⟨⟨⟨h10, h13⟩, h0⟩, hx⟩, hfind⟩, hoct⟩ := hc
                simp only [escapeSequence, h10, h13, h0, hx, if_false, hfind, hoct]
              rw [shortStringFuel, if_neg (by simp [hend]), if_pos hb, hesc]
              show (shortStringFuel fuel text >>= _) = _
              rw [ih text (by omega) hplain, hb]
              rfl
            · rw [if_neg hb] at hplain
              rw [shortStringFuel, if_neg (by simp [hend]), if_neg hb,
                ih (c :: text) (by rw [List.length_cons]; omega) hplain]
              rfl
  exact hfuel text.length text le_rfl h

end LabComm.Python
