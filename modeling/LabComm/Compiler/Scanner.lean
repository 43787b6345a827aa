import LabComm.Library.Lexing

set_option autoImplicit false

/-! # The scanner of specifications

The rules of the scanner, in the order of its source. Letters and digits are those of Java, of which
only what they are below 128 matters here.

A word is scanned as one token in front of everything that does not go on with a letter, a digit or
an underscore (`scans_word`), and a punctuation mark in front of everything (`scans_mark`).
-/

namespace LabComm.Compiler.Source

open Library

/-! ## The rules -/

/-- `[:letter:]` and `[:digit:]`, Java's `isLetter` and `isDigit`. -/
structure CharClasses where
  letter : Char → Bool
  digit : Char → Bool
  letter_ascii : ∀ c, c.toNat < 128 → letter c = c.isAlpha
  digit_ascii : ∀ c, c.toNat < 128 → digit c = c.isDigit

/-- The terminals. -/
inductive Terminal where
  | sample | typedef | struct | void
  | boolean | byte | short | int | long | float | double | string
  | integerLiteral | underscore
  | lbrace | rbrace | lbrack | rbrack | lparen | rparen | semicolon | colon | comma
  | identifier | quotedString
  deriving DecidableEq, Repr

/-- A terminal with its text. -/
abbrev Symbol := Lexeme Terminal Char

/-- A text as it is written in a rule. -/
def quoted (s : String) : Regex Char := Regex.literal s.toList

/-- One of some characters. -/
def oneOf (p : Char → Prop) [DecidablePred p] : Regex Char := .cls fun c => decide (p c)

/-- `LineTerminator` -/
def lineTerminator : Regex Char := .alt (quoted "\n") (.alt (quoted "\r") (quoted "\r\n"))

/-- `InputCharacter` -/
def inputCharacter : Regex Char := oneOf fun c => c ≠ '\r' ∧ c ≠ '\n'

/-- `WhiteSpace` -/
def whiteSpace : Regex Char :=
  .alt (oneOf fun c => c = ' ') (.alt (quoted "\t") (.alt (quoted "\x0c") lineTerminator))

/-- `TraditionalComment` -/
def traditionalComment : Regex Char :=
  .alt (.seq (quoted "/*") (.seq (oneOf fun c => c ≠ '*') (.upto (quoted "*/"))))
    (.alt (.seq (quoted "/*") (.seq (.plus (quoted "*")) (quoted "/")))
      (.seq (quoted "/*") (.seq (.plus (quoted "*"))
        (.seq (oneOf fun c => c ≠ '/' ∧ c ≠ '*') (.upto (quoted "*/"))))))

/-- `EndOfLineComment` -/
def endOfLineComment : Regex Char :=
  .seq (quoted "//") (.seq (.star inputCharacter) (.opt lineTerminator))

/-- `Comment` -/
def comment : Regex Char := .alt traditionalComment endOfLineComment

/-- What an identifier starts with. -/
def CharClasses.start (cls : CharClasses) (c : Char) : Bool := cls.letter c || c == '_'

/-- What an identifier goes on with. -/
def CharClasses.part (cls : CharClasses) (c : Char) : Bool :=
  cls.letter c || c == '_' || cls.digit c

/-- `Identifier` -/
def identifier (cls : CharClasses) : Regex Char := .seq (.cls cls.start) (.star (.cls cls.part))

/-- `NonZeroDigit` -/
def nonZeroDigit : Regex Char := oneOf fun c => '1' ≤ c ∧ c ≤ '9'

/-- `Digit` -/
def digit : Regex Char := .alt (quoted "0") nonZeroDigit

/-- `DecimalNumeral` -/
def decimalNumeral : Regex Char := .alt (quoted "0") (.seq nonZeroDigit (.opt (.plus digit)))

/-- `QuotedString` -/
def quotedString : Regex Char := .seq (quoted "\x22") (.upto (quoted "\x22"))

/-- The rules for keywords. -/
def keywords : List (String × Terminal) :=
  [("sample", .sample), ("typedef", .typedef), ("struct", .struct), ("void", .void),
   ("boolean", .boolean), ("byte", .byte), ("short", .short), ("int", .int), ("long", .long),
   ("float", .float), ("double", .double), ("string", .string)]

/-- The rules for marks. -/
def marks : List (String × Terminal) :=
  [("_", .underscore), ("\x7b", .lbrace), ("\x7d", .rbrace), ("[", .lbrack), ("]", .rbrack),
   ("(", .lparen), (")", .rparen), (";", .semicolon), (":", .colon), (",", .comma)]

/-- A rule for a fixed text. -/
def fixed (rule : String × Terminal) : Regex Char × Action Terminal :=
  (quoted rule.1, .token rule.2)

/-- The rules of `LabCommScanner`. -/
def rules (cls : CharClasses) : List (Regex Char × Action Terminal) :=
  [(whiteSpace, .skip), (comment, .skip)] ++ keywords.map fixed ++
    [(decimalNumeral, .token .integerLiteral)] ++ marks.map fixed ++
    [(identifier cls, .token .identifier), (quotedString, .token .quotedString),
     -- everything else is an illegal character
     (.any, .error)]

/-! ## What the rules match -/

variable {cls : CharClasses}

theorem mem_quoted {s : String} {w : List Char} : w ∈ (quoted s).lang ↔ w = s.toList :=
  Regex.mem_literal

theorem mem_oneOf {p : Char → Prop} [DecidablePred p] {w : List Char} :
    w ∈ (oneOf p).lang ↔ ∃ c, p c ∧ w = [c] := by
  rw [oneOf, Regex.mem_cls]
  simp

/-- What starts with a fixed text has its first character. -/
theorem head_of_mem_seq_quoted {s : String} {r : Regex Char} {a b : Char} {w t : List Char}
    (h : a :: w ∈ (Regex.seq (quoted s) r).lang) (hs : s.toList = b :: t) : a = b := by
  obtain ⟨u, hu, v, _, huv⟩ := Regex.mem_seq.mp h
  rw [mem_quoted.mp hu, hs] at huv
  exact (List.cons.inj huv).1.symm

theorem mem_comment {a : Char} {w : List Char} (h : a :: w ∈ comment.lang) : a = '/' := by
  rcases h with (h | h | h) | h
  all_goals exact head_of_mem_seq_quoted h rfl

theorem mem_quotedString {a : Char} {w : List Char} (h : a :: w ∈ quotedString.lang) :
    a = '\x22' :=
  head_of_mem_seq_quoted h rfl

theorem mem_whiteSpace {a : Char} {w : List Char} (h : a :: w ∈ whiteSpace.lang) :
    w = [] ∨ a = '\r' ∧ w = ['\n'] := by
  rcases h with h | h | h | h | h | h
  · obtain ⟨c, _, hc⟩ := mem_oneOf.mp h
    exact .inl (List.cons.inj hc).2
  · exact .inl (List.cons.inj (mem_quoted.mp h)).2
  · exact .inl (List.cons.inj (mem_quoted.mp h)).2
  · exact .inl (List.cons.inj (mem_quoted.mp h)).2
  · exact .inl (List.cons.inj (mem_quoted.mp h)).2
  · exact .inr (List.cons.inj (mem_quoted.mp h))

theorem mem_identifier {a : Char} {w : List Char} :
    a :: w ∈ (identifier cls).lang ↔ cls.start a = true ∧ ∀ c ∈ w, cls.part c = true := by
  constructor
  · intro h
    obtain ⟨u, ⟨b, hb, rfl⟩, v, hv, huv⟩ := Regex.mem_seq.mp h
    obtain ⟨rfl, rfl⟩ := List.cons.inj huv
    exact ⟨hb, Regex.mem_star_cls.mp hv⟩
  · rintro ⟨ha, hw⟩
    exact ⟨[a], ⟨a, ha, rfl⟩, w, Regex.mem_star_cls.mpr hw, rfl⟩

theorem part_of_start {c : Char} (h : cls.start c = true) : cls.part c = true := by
  rw [CharClasses.part, ← CharClasses.start, h, Bool.true_or]

theorem identifier_part {w : List Char} (h : w ∈ (identifier cls).lang) :
    ∀ c ∈ w, cls.part c = true := by
  cases w with
  | nil => exact fun c hc => nomatch hc
  | cons a w =>
      obtain ⟨ha, hw⟩ := mem_identifier.mp h
      exact List.forall_mem_cons.mpr ⟨part_of_start ha, hw⟩

/-- Below 128, the characters of a word are those of ASCII. -/
theorem part_ascii {c : Char} (h : c.toNat < 128) :
    cls.part c = (c.isAlpha || c == '_' || c.isDigit) := by
  rw [CharClasses.part, cls.letter_ascii c h, cls.digit_ascii c h]

theorem digit_part {c : Char} (h0 : '0' ≤ c) (h9 : c ≤ '9') : cls.part c = true := by
  have hdigit : c.isDigit = true := by
    rw [Char.isDigit, Bool.and_eq_true, decide_eq_true_eq, decide_eq_true_eq]
    exact ⟨h0, h9⟩
  have hlt : c.toNat < 128 := Nat.lt_of_le_of_lt h9 (by decide)
  rw [part_ascii hlt, hdigit, Bool.or_true]

theorem mem_digit {w : List Char} (h : w ∈ digit.lang) : ∀ c ∈ w, cls.part c = true := by
  rcases h with h | h
  · rw [mem_quoted.mp h]
    intro c hc
    rw [List.mem_singleton.mp hc]
    exact digit_part (by decide) (by decide)
  · obtain ⟨d, ⟨h1, h9⟩, rfl⟩ := mem_oneOf.mp h
    intro c hc
    rw [List.mem_singleton.mp hc]
    exact digit_part (Nat.le_trans (by decide : '0' ≤ '1') h1) h9

theorem mem_star_digit {w : List Char} (h : w ∈ (Regex.star digit).lang) :
    ∀ c ∈ w, cls.part c = true := by
  obtain ⟨S, rfl, hS⟩ := Language.mem_kstar.mp h
  intro c hc
  obtain ⟨y, hy, hcy⟩ := List.mem_flatten.mp hc
  exact mem_digit (hS y hy) c hcy

theorem decimalNumeral_part {w : List Char} (h : w ∈ decimalNumeral.lang) :
    ∀ c ∈ w, cls.part c = true := by
  rcases h with h | ⟨u, hu, v, hv, rfl⟩
  · exact mem_digit (.inl h)
  · have hu' : ∀ c ∈ u, cls.part c = true := mem_digit (.inr hu)
    rcases hv with ⟨x, hx, y, hy, rfl⟩ | hv
    · exact List.forall_mem_append.mpr
        ⟨hu', List.forall_mem_append.mpr ⟨mem_digit hx, mem_star_digit hy⟩⟩
    · rw [Regex.mem_empty.mp hv]
      exact List.forall_mem_append.mpr ⟨hu', fun c hc => nomatch hc⟩

/-- All characters of a text are below 128. -/
def isAscii (w : List Char) : Bool := w.all fun c => decide (c.toNat < 128)

theorem lt_of_isAscii {w : List Char} (h : isAscii w = true) : ∀ c ∈ w, c.toNat < 128 :=
  fun c hc => of_decide_eq_true (List.all_eq_true.mp h c hc)

theorem keywords_ascii : ∀ k ∈ keywords, isAscii k.1.toList = true := by decide

theorem keywords_alpha : ∀ k ∈ keywords, k.1.toList.all Char.isAlpha = true := by decide

theorem keyword_part {k : String × Terminal} (hk : k ∈ keywords) :
    ∀ c ∈ k.1.toList, cls.part c = true := by
  intro c hc
  have halpha : c.isAlpha = true := List.all_eq_true.mp (keywords_alpha k hk) c hc
  rw [part_ascii (lt_of_isAscii (keywords_ascii k hk) c hc), halpha, Bool.true_or, Bool.true_or]

theorem marks_length : ∀ k ∈ marks, k.1.toList.length = 1 := by decide

/-- The rules, one kind after the other. -/
theorem rules_cases {r : Regex Char} {a : Action Terminal} (h : (r, a) ∈ rules cls) :
    (r = whiteSpace ∧ a = .skip) ∨ (r = comment ∧ a = .skip) ∨
      (∃ k ∈ keywords, r = quoted k.1 ∧ a = .token k.2) ∨
      (r = decimalNumeral ∧ a = .token .integerLiteral) ∨
      (∃ k ∈ marks, r = quoted k.1 ∧ a = .token k.2) ∨
      (r = identifier cls ∧ a = .token .identifier) ∨
      (r = quotedString ∧ a = .token .quotedString) ∨ (r = .any ∧ a = .error) := by
  simp only [rules, fixed, List.mem_append, List.mem_cons, List.mem_map, Prod.mk.injEq,
    List.not_mem_nil, or_false] at h
  rcases h with ((((h | h) | ⟨k, hk, hr, ha⟩) | h) | ⟨k, hk, hr, ha⟩) | h | h | h
  · exact .inl h
  · exact .inr (.inl h)
  · exact .inr (.inr (.inl ⟨k, hk, hr.symm, ha.symm⟩))
  · exact .inr (.inr (.inr (.inl h)))
  · exact .inr (.inr (.inr (.inr (.inl ⟨k, hk, hr.symm, ha.symm⟩))))
  · exact .inr (.inr (.inr (.inr (.inr (.inl h)))))
  · exact .inr (.inr (.inr (.inr (.inr (.inr (.inl h))))))
  · exact .inr (.inr (.inr (.inr (.inr (.inr (.inr h))))))

/-- **What a rule matches is a single character, the end of a line, a comment, a string or a
word.** -/
theorem rule_lang {r : Regex Char} {act : Action Terminal} (h : (r, act) ∈ rules cls) {a : Char}
    {w : List Char} (hw : a :: w ∈ r.lang) :
    w = [] ∨ (a = '\r' ∧ w = ['\n']) ∨ a = '/' ∨ a = '\x22' ∨ ∀ c ∈ a :: w, cls.part c = true := by
  rcases rules_cases h with ⟨rfl, _⟩ | ⟨rfl, _⟩ | ⟨k, hk, rfl, _⟩ | ⟨rfl, _⟩ | ⟨k, hk, rfl, _⟩ |
    ⟨rfl, _⟩ | ⟨rfl, _⟩ | ⟨rfl, _⟩
  · rcases mem_whiteSpace hw with h | h
    · exact .inl h
    · exact .inr (.inl h)
  · exact .inr (.inr (.inl (mem_comment hw)))
  · rw [mem_quoted.mp hw]
    exact .inr (.inr (.inr (.inr (keyword_part hk))))
  · exact .inr (.inr (.inr (.inr (decimalNumeral_part hw))))
  · have hlen := marks_length k hk
    rw [← mem_quoted.mp hw, List.length_cons] at hlen
    exact .inl (List.length_eq_zero_iff.mp (by omega))
  · exact .inr (.inr (.inr (.inr (identifier_part hw))))
  · exact .inr (.inr (.inr (.inl (mem_quotedString hw))))
  · obtain ⟨b, _, hb⟩ := hw
    exact .inl (List.cons.inj hb).2

/-- The tokens that are words. -/
def Terminal.IsWord (t : Terminal) : Prop :=
  t = .identifier ∨ t = .integerLiteral ∨ ∃ k ∈ keywords, t = k.2

theorem marks_not_word : ∀ k ∈ marks, k.2 ≠ .identifier ∧ k.2 ≠ .integerLiteral ∧
    ∀ l ∈ keywords, k.2 ≠ l.2 := by decide

theorem quotedString_not_word : ∀ l ∈ keywords, Terminal.quotedString ≠ l.2 := by decide

/-- A token that is a word has the characters of a word. -/
theorem part_of_scanned {s : Symbol} (h : s.Scanned (rules cls)) (hword : s.id.IsWord) :
    ∀ c ∈ s.value, cls.part c = true := by
  obtain ⟨r, hr, hmem⟩ := bestRule_lang h.best
  rcases rules_cases hr with ⟨_, ha⟩ | ⟨_, ha⟩ | ⟨k, hk, rfl, _⟩ | ⟨rfl, _⟩ | ⟨k, hk, _, ha⟩ |
    ⟨rfl, _⟩ | ⟨_, ha⟩ | ⟨_, ha⟩
  · cases ha
  · cases ha
  · rw [mem_quoted.mp hmem]
    exact keyword_part hk
  · exact decimalNumeral_part hmem
  · obtain ⟨h1, h2, h3⟩ := marks_not_word k hk
    rw [Action.token.injEq] at ha
    rcases hword with hid | hid | ⟨l, hl, hid⟩
    · exact absurd (ha.symm.trans hid) h1
    · exact absurd (ha.symm.trans hid) h2
    · exact absurd (ha.symm.trans hid) (h3 l hl)
  · exact identifier_part hmem
  · rw [Action.token.injEq] at ha
    rcases hword with hid | hid | ⟨l, hl, hid⟩
    · rw [ha] at hid
      cases hid
    · rw [ha] at hid
      cases hid
    · exact absurd (ha.symm.trans hid) (quotedString_not_word l hl)
  · cases ha

/-! ## Where a token ends -/

/-- What may follow a word. -/
def AfterWord (cls : CharClasses) (v : List Char) : Prop := ∀ c t, v = c :: t → cls.part c = false

/-- A character that no word has. -/
theorem part_eq_false {c : Char} (h : c.toNat < 128)
    (hc : (c.isAlpha || c == '_' || c.isDigit) = false) : cls.part c = false := by
  rw [part_ascii h, hc]

theorem AfterWord.of_cons {c : Char} (h : c.toNat < 128)
    (hc : (c.isAlpha || c == '_' || c.isDigit) = false) (v : List Char) :
    AfterWord cls (c :: v) := by
  intro d t hd
  rw [← (List.cons.inj hd).1]
  exact part_eq_false h hc

/-- A word in front of something else. -/
theorem bestRule_word {u v : List Char} (hu : ∀ c ∈ u, cls.part c = true) (hv : AfterWord cls v)
    (hne : u ≠ []) : bestRule (rules cls) (u ++ v) = bestRule (rules cls) u := by
  refine bestRule_append fun r hr p hp hmem => ?_
  cases u with
  | nil => exact absurd rfl hne
  | cons b u =>
      -- the first character is one of a word
      have hb : ∀ c, c.toNat < 128 → (c.isAlpha || c == '_' || c.isDigit) = false → b ≠ c := by
        rintro c h hc rfl
        have hpart := hu b List.mem_cons_self
        rw [part_eq_false h hc] at hpart
        cases hpart
      cases p with
      | nil => exact Nat.zero_le _
      | cons a p =>
          obtain ⟨rfl, _⟩ := List.cons_prefix_cons.mp hp
          rcases rule_lang hr hmem with rfl | ⟨rfl, _⟩ | rfl | rfl | hall
          · simp
          · exact absurd rfl (hb '\r' (by decide) (by decide))
          · exact absurd rfl (hb '/' (by decide) (by decide))
          · exact absurd rfl (hb '\x22' (by decide) (by decide))
          · -- a longer match has the character behind the word
            by_contra hlong
            cases v with
            | nil =>
                have hle := hp.length_le
                rw [List.append_nil] at hle
                exact hlong hle
            | cons c v =>
                have hpre : (a :: u) ++ [c] <+: (a :: u) ++ c :: v :=
                  (List.prefix_append_right_inj _).mpr (List.prefix_append [c] v)
                have hin : (a :: u) ++ [c] <+: a :: p := by
                  refine List.prefix_of_prefix_length_le hpre hp ?_
                  rw [List.length_append, List.length_singleton]
                  omega
                have hc : cls.part c = true := hall c (hin.subset (by simp))
                rw [hv c v rfl] at hc
                cases hc

/-- A character that starts nothing longer than itself. -/
def isSingle (c : Char) : Bool :=
  !(c.isAlpha || c == '_' || c.isDigit) && c != '/' && c != '\x22' && c != '\r'

/-- Such a character in front of anything. -/
theorem bestRule_single {c : Char} (h : c.toNat < 128) (hc : isSingle c = true) (v : List Char) :
    bestRule (rules cls) ([c] ++ v) = bestRule (rules cls) [c] := by
  simp only [isSingle, Bool.and_eq_true, Bool.not_eq_true', bne_iff_ne, ne_eq] at hc
  obtain ⟨⟨⟨hpart, hslash⟩, hquote⟩, hcr⟩ := hc
  refine bestRule_append fun r hr p hp hmem => ?_
  cases p with
  | nil => exact Nat.zero_le _
  | cons a p =>
      obtain ⟨rfl, _⟩ := List.cons_prefix_cons.mp hp
      rcases rule_lang hr hmem with rfl | ⟨rfl, _⟩ | rfl | rfl | hall
      · exact Nat.le_refl 1
      · exact absurd rfl hcr
      · exact absurd rfl hslash
      · exact absurd rfl hquote
      · have htrue := hall a List.mem_cons_self
        rw [part_eq_false h hpart] at htrue
        cases htrue

/-- The letters and digits of ASCII. -/
def ascii : CharClasses where
  letter := Char.isAlpha
  digit := Char.isDigit
  letter_ascii _ _ := rfl
  digit_ascii _ _ := rfl

/-- What a text of ASCII is scanned as does not depend on the other letters. -/
theorem bestRule_ascii {w : List Char} (hw : isAscii w = true) :
    bestRule (rules cls) w = bestRule (rules ascii) w := by
  have hid : (identifier cls).longest w = (identifier ascii).longest w := by
    refine Regex.longest_congr fun u hu => ?_
    have hu' : ∀ c ∈ u, c.toNat < 128 := fun c hc => lt_of_isAscii hw c (hu.subset hc)
    cases u with
    | nil =>
        constructor <;> intro h
        all_goals
          obtain ⟨x, ⟨b, _, rfl⟩, y, _, hxy⟩ := Regex.mem_seq.mp h
          cases hxy
    | cons a u =>
        have hpart : ∀ c ∈ a :: u, cls.part c = ascii.part c := by
          intro c hc
          rw [part_ascii (hu' c hc), part_ascii (hu' c hc)]
        have hstart : cls.start a = ascii.start a := by
          rw [CharClasses.start, CharClasses.start, cls.letter_ascii a (hu' a List.mem_cons_self)]
          rfl
        rw [mem_identifier, mem_identifier, hstart]
        refine and_congr_right fun _ => forall₂_congr fun c hc => ?_
        rw [hpart c (List.mem_cons_of_mem _ hc)]
  have hfront : ∀ (pre : List (Regex Char × Action Terminal)), bestRule (pre ++
      [(identifier cls, .token .identifier), (quotedString, .token .quotedString),
        (.any, .error)]) w = bestRule (pre ++
      [(identifier ascii, .token .identifier), (quotedString, .token .quotedString),
        (.any, .error)]) w := by
    intro pre
    induction pre with
    | nil =>
        rw [List.nil_append, List.nil_append, bestRule, hid]
        rfl
    | cons rule pre ih => rw [List.cons_append, List.cons_append, bestRule, bestRule, ih]
  exact hfront _

/-! ## Texts that are scanned -/

/-- The ends of a line. -/
inductive LineTerminator where
  | lf | cr | crlf

/-- The characters of the end of a line. -/
def LineTerminator.chars : LineTerminator → List Char
  | lf => ['\n']
  | cr => ['\r']
  | crlf => ['\r', '\n']

theorem scans_token {s : Symbol} (h : s.Scanned (rules cls)) {P : List Char → Prop}
    (hbest : ∀ v, P v → bestRule (rules cls) (s.value ++ v) = bestRule (rules cls) s.value) :
    Scans (rules cls) P s.value [s] := by
  intro v hv
  rw [scan_token (t := s.id) h.ne_nil (by rw [hbest v hv, h.best])]
  rfl

/-- **A word** in front of what is no part of a word. -/
theorem scans_word {s : Symbol} (h : s.Scanned (rules cls)) (hword : s.id.IsWord) :
    Scans (rules cls) (AfterWord cls) s.value [s] :=
  scans_token h fun _ hv => bestRule_word (part_of_scanned h hword) hv h.ne_nil

/-- A fixed text that is a token. -/
theorem scanned_of_ascii {s : Symbol} (hascii : isAscii s.value = true) (hne : s.value ≠ [])
    (h : bestRule (rules ascii) s.value = some (.token s.id, s.value.length)) :
    s.Scanned (rules cls) :=
  ⟨hne, by rw [bestRule_ascii hascii, h]⟩

theorem keywords_best : ∀ k ∈ keywords,
    bestRule (rules ascii) k.1.toList = some (.token k.2, k.1.toList.length) := by
  decide +kernel

theorem marks_best : ∀ k ∈ marks,
    bestRule (rules ascii) k.1.toList = some (.token k.2, k.1.toList.length) := by
  decide +kernel

theorem keywords_ne_nil : ∀ k ∈ keywords, k.1.toList ≠ [] := by decide

/-- Every keyword is scanned as itself. -/
theorem scanned_keyword {k : String × Terminal} (hk : k ∈ keywords) :
    Lexeme.Scanned (rules cls) ⟨k.2, k.1.toList⟩ :=
  scanned_of_ascii (keywords_ascii k hk) (keywords_ne_nil k hk) (keywords_best k hk)

theorem marks_single : ∀ k ∈ marks, k.2 ≠ .underscore → k.1.toList.all isSingle = true := by decide

theorem marks_ascii : ∀ k ∈ marks, isAscii k.1.toList = true := by decide

/-- Every mark is scanned as itself. -/
theorem scanned_mark {k : String × Terminal} (hk : k ∈ marks) :
    Lexeme.Scanned (rules cls) ⟨k.2, k.1.toList⟩ := by
  refine scanned_of_ascii (marks_ascii k hk) (fun hnil => ?_) (marks_best k hk)
  have hlen := marks_length k hk
  rw [show k.1.toList = [] from hnil] at hlen
  cases hlen

/-- **A mark** in front of anything. -/
theorem scans_mark (cls : CharClasses) {k : String × Terminal} (hk : k ∈ marks)
    (hne : k.2 ≠ .underscore) (P : List Char → Prop) : Scans (rules cls) P k.1.toList [⟨k.2, k.1.toList⟩] := by
  refine scans_token (s := ⟨k.2, k.1.toList⟩) (scanned_mark hk) fun v _ => ?_
  obtain ⟨c, hc⟩ := List.length_eq_one_iff.mp (marks_length k hk)
  have hmem : c ∈ k.1.toList := by rw [hc]; exact List.mem_singleton_self c
  have hsingle : isSingle c = true := List.all_eq_true.mp (marks_single k hk hne) c hmem
  show bestRule (rules cls) (k.1.toList ++ v) = bestRule (rules cls) k.1.toList
  rw [hc]
  exact bestRule_single (lt_of_isAscii (marks_ascii k hk) c hmem) hsingle v

/-- The underscore is scanned like a word. -/
theorem scans_underscore :
    Scans (rules cls) (AfterWord cls) ['_'] [⟨.underscore, ['_']⟩] := by
  have hk : ("_", Terminal.underscore) ∈ marks := by decide
  refine scans_token (s := ⟨.underscore, ['_']⟩) (scanned_mark hk) fun v hv => ?_
  refine bestRule_word (fun c hc => ?_) hv (List.cons_ne_nil _ _)
  rw [List.mem_singleton.mp hc, part_ascii (by decide)]
  rfl

/-- White space of one character in front of anything. -/
theorem scan_blank {c : Char} (h : isAscii [c] = true) (hc : isSingle c = true)
    (hbest : bestRule (rules ascii) [c] = some (.skip, 1)) (v : List Char) :
    scan (rules cls) (c :: v) = scan (rules cls) v := by
  refine scan_skip (u := [c]) (List.cons_ne_nil _ _) ?_
  rw [bestRule_single (lt_of_isAscii h c List.mem_cons_self) hc, bestRule_ascii h, hbest]
  rfl

theorem scan_space (v : List Char) : scan (rules cls) (' ' :: v) = scan (rules cls) v :=
  scan_blank (by decide) (by decide) (by decide +kernel) v

theorem scan_lf (v : List Char) : scan (rules cls) ('\n' :: v) = scan (rules cls) v :=
  scan_blank (by decide) (by decide) (by decide +kernel) v

/-- What starts with a carriage return and is matched. -/
theorem rule_lang_cr {r : Regex Char} {act : Action Terminal} (h : (r, act) ∈ rules cls)
    {w : List Char} (hw : '\r' :: w ∈ r.lang) : w = [] ∨ w = ['\n'] := by
  rcases rule_lang h hw with h | ⟨_, h⟩ | h | h | hall
  · exact .inl h
  · exact .inr h
  · exact absurd h (by decide)
  · exact absurd h (by decide)
  · have hpart := hall '\r' List.mem_cons_self
    rw [part_eq_false (by decide) (by decide)] at hpart
    cases hpart

theorem scan_crlf (v : List Char) : scan (rules cls) ('\r' :: '\n' :: v) = scan (rules cls) v := by
  refine scan_skip (u := ['\r', '\n']) (List.cons_ne_nil _ _) ?_
  have happ : bestRule (rules cls) (['\r', '\n'] ++ v) = bestRule (rules cls) ['\r', '\n'] := by
    refine bestRule_append fun r hr p hp hmem => ?_
    cases p with
    | nil => exact Nat.zero_le _
    | cons a p =>
        obtain ⟨rfl, _⟩ := List.cons_prefix_cons.mp hp
        rcases rule_lang_cr hr hmem with rfl | rfl
        · exact Nat.le_succ 1
        · exact Nat.le_refl 2
  rw [happ, bestRule_ascii (by decide)]
  decide +kernel

theorem scan_cr (v : List Char) : scan (rules cls) ('\r' :: v) = scan (rules cls) v := by
  by_cases hlf : ∃ x, v = '\n' :: x
  · obtain ⟨x, rfl⟩ := hlf
    rw [scan_crlf, scan_lf]
  · refine scan_skip (u := ['\r']) (List.cons_ne_nil _ _) ?_
    have happ : bestRule (rules cls) (['\r'] ++ v) = bestRule (rules cls) ['\r'] := by
      refine bestRule_append fun r hr p hp hmem => ?_
      cases p with
      | nil => exact Nat.zero_le _
      | cons a p =>
          obtain ⟨rfl, hp'⟩ := List.cons_prefix_cons.mp hp
          rcases rule_lang_cr hr hmem with rfl | rfl
          · exact Nat.le_refl 1
          · obtain ⟨x, hx⟩ := hp'
            exact absurd ⟨x, hx.symm⟩ hlf
    rw [happ, bestRule_ascii (by decide)]
    decide +kernel

/-- Blanks in front of anything. -/
theorem scans_blanks (n : Nat) (P : List Char → Prop) :
    Scans (rules cls) P (List.replicate n ' ') [] := by
  intro v _
  induction n with
  | zero =>
      cases h : scan (rules cls) v <;> simp [h]
  | succ n ih => rw [List.replicate_succ, List.cons_append, scan_space, ih]

/-- The end of a line in front of anything. -/
theorem scans_lineTerminator (nl : LineTerminator) (P : List Char → Prop) :
    Scans (rules cls) P nl.chars [] := by
  intro v _
  have hid : (scan (rules cls) v).map ([] ++ ·) = scan (rules cls) v := by
    cases h : scan (rules cls) v <;> rfl
  rw [hid]
  cases nl with
  | lf => exact scan_lf v
  | cr => exact scan_cr v
  | crlf => exact scan_crlf v

end LabComm.Compiler.Source
