import CallLang.Proofs.Coordinates
import CallLang.Proofs.Words

/-!
# Texts without tokens

There are three reasons why a text has no tokens: a quote that no other one closes, a numeral that
is too large for an integer, and a numeral that has too many digits for the interpreter. Whether a
quote opens a string depends on all that stands before it, so the place of a fault is described by
the text before: it can be read, and it ends neither inside of a comment nor in the middle of a
word. From there on the lexer reads as from the start (`Layout.complete_append`), and it fails if
and only if it comes to such a place (`scan_eq_error_iff`).

The first two reasons are flaws of the text, and the lexer reports them as such. The third one is
none: it is a defect of the interpreter, which fails even if the integer is small
(`flaws_explain_scan_iff`).
-/

namespace CallLang

/-! ### Where a text ends -/

namespace Position

theorem line_le_after (p : Position) (cs : List Char) : p.line ≤ (p.after cs).line := by
  rw [line_after]
  exact Nat.le_add_right _ _

theorem line_after_of_not_mem (p : Position) {cs : List Char} (h : '\n' ∉ cs) :
    (p.after cs).line = p.line := by
  rw [line_after, List.count_eq_zero.mpr h, Nat.add_zero]

end Position

/-- Whether a text ends inside of a comment. A comment goes on to the end of its line, so this is
the case if one begins on the last line of the text. -/
def EndsInComment (text : String) : Prop :=
  ∃ tokens, Token.scan text = .ok tokens ∧ ∃ t ∈ tokens, (∃ comment, t.lexeme = .comment comment) ∧
    t.span.first.line = (Position.after .start text.toList).line

/-- Whether a text ends inside of a word, provided that it ends neither inside of a string nor of a
comment. -/
def EndsInWord (text : String) : Prop :=
  ∃ c ∈ text.toList.getLast?, isWordChar c = true

/-- Every comment among the tokens of `cs` has ended. -/
def CommentsEnd (p : Position) (cs : List Char) (tokens : List Token) : Prop :=
  ∀ t ∈ tokens, ∀ comment, t.lexeme = .comment comment → t.span.first.line ≠ (p.after cs).line

theorem not_endsInComment_iff {text : String} {tokens : List Token}
    (h : Token.scan text = .ok tokens) :
    ¬EndsInComment text ↔ CommentsEnd .start text.toList tokens := by
  constructor
  · intro outside t ht comment hc line
    exact outside ⟨tokens, h, t, ht, ⟨comment, hc⟩, line⟩
  · rintro ended ⟨others, h', t, ht, ⟨comment, hc⟩, line⟩
    obtain rfl := Except.ok.inj (h.symm.trans h')
    exact ended t ht comment hc line

/-- No word goes on from the end of `cs` to the beginning of `ds`. -/
def Apart (cs ds : List Char) : Prop :=
  ∀ c ∈ cs.getLast?, ∀ d ∈ ds.head?, isWordChar c = true → isWordChar d = false

namespace Apart

variable {cs ds xs : List Char}

theorem nil (ds : List Char) : Apart [] ds := by
  intro c hc
  cases hc

theorem of_append (h : Apart (xs ++ cs) ds) : Apart cs ds := by
  intro c hc
  refine h c ?_
  rw [List.getLast?_append, Option.mem_def.mp hc]
  rfl

theorem append (h : Apart cs ds) (alone : cs = [] → Apart xs ds) : Apart (xs ++ cs) ds := by
  by_cases empty : cs = []
  · subst empty
    rw [List.append_nil]
    exact alone rfl
  · rw [Apart, List.getLast?_append_of_ne_nil _ empty]
    exact h

end Apart

/-! ### Reading on -/

namespace Lexeme.WrittenAs

variable {lexeme : Lexeme} {chars rest ds : List Char}

/-- No word goes on behind a lexeme. -/
theorem apart (h : lexeme.WrittenAs rest chars) : Apart chars rest := by
  have of_last (xs : List Char) {last : Char} (other : isWordChar last = false) :
      Apart (xs ++ [last]) rest := by
    intro c hc d _ word
    rw [List.getLast?_concat, Option.mem_some_iff] at hc
    rw [← hc, other] at word
    cases word
  cases h with
  | @mark c lexeme mark => exact of_last [] (isWordChar_of_mark? mark)
  | word _ _ _ ends => exact fun c _ d hd _ => ends d hd
  | @string cs none => exact of_last ('"' :: cs) (by decide)
  | @comment cs none => exact of_last ('#' :: cs) (by decide)
  | lastComment _ ends =>
    intro c _ d hd
    rw [ends] at hd
    cases hd

/-- A lexeme is written in the same way if the text goes on with `ds`, unless they belong to the
same word or the same comment. -/
theorem followed (h : lexeme.WrittenAs rest chars) (apart : Apart (chars ++ rest) ds)
    (ended : ∀ comment, lexeme = .comment comment → '\n' ∈ chars ++ rest) :
    lexeme.WrittenAs (rest ++ ds) chars := by
  cases h with
  | mark mark => exact .mark mark
  | word nonempty all read ends =>
    refine .word nonempty all read ?_
    intro d hd
    cases rest with
    | nil =>
      rw [List.append_nil] at apart
      have last := List.getLast?_eq_some_getLast nonempty
      exact apart _ last d hd (all _ (List.getLast_mem nonempty))
    | cons r rest => exact ends d hd
  | string none => exact .string none
  | comment none => exact .comment none
  | @lastComment cs none ends =>
    have newline := ended _ rfl
    rw [ends, List.append_nil, List.mem_cons] at newline
    rcases newline with hash | inside
    · cases hash
    · exact absurd inside none

/-- A comment that something follows has ended with its line. -/
theorem line_lt {comment : String} (h : (Lexeme.comment comment).WrittenAs rest chars)
    (more : rest ≠ []) (p : Position) : p.line < (p.after chars).line := by
  cases h with
  | mark mark => rcases mark?_cases mark with ⟨-, h⟩ | ⟨-, h⟩ | ⟨-, h⟩ <;> cases h
  | word _ _ read _ => rcases Lexeme.ofWord_cases read with h | ⟨value, h, -⟩ <;> cases h
  | @comment cs none =>
    rw [← List.cons_append, Position.after_append]
    exact Nat.lt_succ_of_le (p.line_le_after ('#' :: cs))
  | lastComment _ ends => exact absurd ends more

end Lexeme.WrittenAs

/-- After a text that ends neither inside of a comment nor in the middle of a word, the lexer reads
what follows as if it stood at the start. -/
theorem Layout.complete_append {source : Option Source} {p : Position} {cs ds : List Char}
    {tokens : List Token} (h : Layout source p cs tokens) (ended : CommentsEnd p cs tokens)
    (apart : Apart cs ds) (source' : Option Source) (found : List Token) :
    ∃ found', Lexer.complete source' ⟨.between, found⟩ p (cs ++ ds) =
      Lexer.complete source' ⟨.between, found'⟩ (p.after cs) ds := by
  induction h generalizing found with
  | nil p => exact ⟨found, rfl⟩
  | @separator p c cs tokens hc _ ih =>
    have apart : Apart ([c] ++ cs) ds := apart
    obtain ⟨found', same⟩ := ih ended apart.of_append found
    refine ⟨found', ?_⟩
    rw [List.cons_append, Lexer.complete_separator source' found p hc, same]
    rfl
  | @token p lexeme chars rest tokens written _ ih =>
    have newline : ∀ comment, lexeme = .comment comment → '\n' ∈ chars ++ rest := by
      intro comment hc
      by_contra none
      exact ended _ List.mem_cons_self comment hc (p.line_after_of_not_mem none).symm
    have later : CommentsEnd (p.after chars) rest tokens := by
      intro t ht
      rw [← Position.after_append]
      exact ended t (List.mem_cons_of_mem _ ht)
    obtain ⟨found', same⟩ := ih later apart.of_append (⟨lexeme, .over source' p chars⟩ :: found)
    refine ⟨found', ?_⟩
    rw [List.append_assoc,
      Lexer.complete_writtenAs source' found p (written.followed apart newline), same,
      Position.after_append]

/-! ### The place of a fault -/

/-- Characters that the lexer does not get over, the first of which stands at `p`, and the fault
that it reports. -/
inductive Obstacle (source : Option Source) (p : Position) : List Char → Fault → Prop where
  | unclosed {rest : List Char} : '"' ∉ rest →
      Obstacle source p ('"' :: rest) ⟨.unclosedString, [.over source p ['"']]⟩
  | overflow {word rest : List Char} {n : Int} : Decimal.Numeral word n →
      Decimal.IsShort (String.ofList word) → ¬Fits n → (∀ c ∈ rest.head?, isWordChar c = false) →
      Obstacle source p (word ++ rest)
        ⟨.numeralOverflow (String.ofList word), [.over source p word]⟩
  | tooLong {word rest : List Char} {n : Int} : Decimal.Numeral word n →
      ¬Decimal.IsShort (String.ofList word) → (∀ c ∈ rest.head?, isWordChar c = false) →
      Obstacle source p (word ++ rest)
        ⟨.tooManyDigits (Decimal.digitCount (String.ofList word)), []⟩

namespace Obstacle

variable {source : Option Source} {p : Position} {cs : List Char} {fault : Fault}

theorem complete_eq (h : Obstacle source p cs fault) (found : List Token) :
    Lexer.complete source ⟨.between, found⟩ p cs = .error fault := by
  cases h with
  | unclosed none => exact Lexer.complete_unclosed source found p none
  | @overflow word rest n numeral short large ends =>
    have read : Lexeme.ofWord (String.ofList word) =
        .error (.numeralOverflow (String.ofList word)) :=
      Lexeme.ofWord_eq_error_iff.mpr
        ⟨n, by rwa [String.toList_ofList], .inl ⟨short, large, rfl⟩⟩
    rw [Lexer.complete_word source found p numeral.ne_nil numeral.isWordChar ends, read]
    rfl
  | @tooLong word rest n numeral long ends =>
    have read : Lexeme.ofWord (String.ofList word) =
        .error (.tooManyDigits (Decimal.digitCount (String.ofList word))) :=
      Lexeme.ofWord_eq_error_iff.mpr ⟨n, by rwa [String.toList_ofList], .inr ⟨long, rfl⟩⟩
    rw [Lexer.complete_word source found p numeral.ne_nil numeral.isWordChar ends, read]
    rfl

theorem ne_nil (h : Obstacle source p cs fault) : cs ≠ [] := by
  cases h with
  | unclosed => exact List.cons_ne_nil _ _
  | overflow numeral | tooLong numeral => exact List.append_ne_nil_of_left_ne_nil numeral.ne_nil _

/-- A word that has no lexeme. -/
theorem of_word {word rest : List Char} {cause : Cause}
    (read : Lexeme.ofWord (String.ofList word) = .error cause)
    (ends : ∀ c ∈ rest.head?, isWordChar c = false) :
    Obstacle source p (word ++ rest) (.ofText cause (.over source p word)) := by
  obtain ⟨n, numeral, flaw⟩ := Lexeme.ofWord_eq_error_iff.mp read
  rw [String.toList_ofList] at numeral
  rcases flaw with ⟨short, large, rfl⟩ | ⟨long, rfl⟩
  · exact .overflow numeral short large ends
  · exact .tooLong numeral long ends

end Obstacle

/-- The lexer reads `front`, the first character of which stands at `p`, and does not get over
`back`. -/
structure Stuck (source : Option Source) (p : Position) (front back : List Char) (fault : Fault) :
    Prop where
  readable : ∃ tokens, Layout none p front tokens ∧ CommentsEnd p front tokens
  apart : Apart front back
  obstacle : Obstacle source (p.after front) back fault

namespace Stuck

variable {source : Option Source} {p : Position} {front back : List Char} {fault : Fault}

theorem at_once (h : Obstacle source p back fault) : Stuck source p [] back fault := by
  refine ⟨⟨[], .nil p, ?_⟩, .nil back, h⟩
  intro t ht
  cases ht

theorem separator {c : Char} (hc : isSeparator c = true)
    (h : Stuck source (p.next c) front back fault) : Stuck source p (c :: front) back fault := by
  obtain ⟨⟨tokens, laid, ended⟩, apart, obstacle⟩ := h
  have first : Apart [c] back := by
    intro d hd e _ word
    obtain rfl : c = d := Option.some.inj hd
    rw [isWordChar_of_isSeparator hc] at word
    cases word
  have whole : Apart ([c] ++ front) back := apart.append fun _ => first
  exact ⟨⟨tokens, .separator hc laid, ended⟩, whole, obstacle⟩

theorem token {lexeme : Lexeme} {chars : List Char}
    (written : lexeme.WrittenAs (front ++ back) chars)
    (h : Stuck source (p.after chars) front back fault) :
    Stuck source p (chars ++ front) back fault := by
  obtain ⟨⟨tokens, laid, ended⟩, apart, obstacle⟩ := h
  refine ⟨⟨_, .token written.take laid, ?_⟩, ?_, by rwa [Position.after_append]⟩
  · intro t ht comment hc
    rw [Position.after_append]
    rcases List.mem_cons.mp ht with rfl | ht
    · -- something follows the comment, so it has ended with its line
      obtain rfl : lexeme = .comment comment := hc
      have more : front ++ back ≠ [] := List.append_ne_nil_of_right_ne_nil _ obstacle.ne_nil
      have later := written.line_lt more p
      exact Nat.ne_of_lt (Nat.lt_of_lt_of_le later ((p.after chars).line_le_after front))
    · exact ended t ht comment hc
  · refine apart.append ?_
    rintro rfl
    exact written.apart

theorem complete_eq (h : Stuck source p front back fault) (found : List Token) :
    Lexer.complete source ⟨.between, found⟩ p (front ++ back) = .error fault := by
  obtain ⟨⟨tokens, laid, ended⟩, apart, obstacle⟩ := h
  obtain ⟨found', same⟩ := laid.complete_append ended apart source found
  rw [same, obstacle.complete_eq]

end Stuck

/-- The lexer fails if and only if it gets stuck. -/
theorem Lexer.complete_eq_error_iff {source : Option Source} {p : Position} {cs : List Char}
    {found : List Token} {fault : Fault} :
    Lexer.complete source ⟨.between, found⟩ p cs = .error fault ↔
      ∃ front back, cs = front ++ back ∧ Stuck source p front back fault := by
  constructor
  · intro h
    induction course cs generalizing p found with
    | nothing => cases h
    | @separator c cs hc _ ih =>
      rw [Lexer.complete_separator source found p hc] at h
      obtain ⟨front, back, rfl, stuck⟩ := ih h
      exact ⟨c :: front, back, rfl, stuck.separator hc⟩
    | @token lexeme chars rest written _ ih =>
      rw [Lexer.complete_writtenAs source found p written] at h
      obtain ⟨front, back, rfl, stuck⟩ := ih h
      exact ⟨chars ++ front, back, by rw [List.append_assoc], stuck.token written⟩
    | @unclosed cs none =>
      have obstacle : Obstacle source p ('"' :: cs) _ := .unclosed none
      obtain rfl := Except.error.inj (h.symm.trans (obstacle.complete_eq found))
      exact ⟨[], _, rfl, .at_once obstacle⟩
    | @overflow word rest cause nonempty all ends read =>
      have obstacle : Obstacle source p (word ++ rest) _ := .of_word read ends
      obtain rfl := Except.error.inj (h.symm.trans (obstacle.complete_eq found))
      exact ⟨[], _, rfl, .at_once obstacle⟩
  · rintro ⟨front, back, rfl, stuck⟩
    exact stuck.complete_eq found

/-! ### When the lexer fails -/

theorem apart_iff_not_endsInWord {front : String} {word : List Char} (nonempty : word ≠ [])
    (chars : ∀ c ∈ word, isWordChar c = true) (rest : List Char) :
    Apart front.toList (word ++ rest) ↔ ¬EndsInWord front := by
  obtain ⟨c, word, rfl⟩ := List.exists_cons_of_ne_nil nonempty
  have hc : isWordChar c = true := chars c List.mem_cons_self
  simp [Apart, EndsInWord, hc]

/-- The word that `back` begins with, behind the text `front`: not the rest of a word of `front`,
and as long as it can be. -/
def NextWord (front back word : String) : Prop :=
  ¬EndsInWord front ∧ ∃ rest, back = word ++ rest ∧ ∀ c ∈ rest.toList.head?, isWordChar c = false

/-- The texts at which the lexer gets stuck. -/
theorem stuck_iff {source : Option Source} {front back : String} {fault : Fault} :
    Stuck source .start front.toList back.toList fault ↔
      (∃ tokens, Token.scan front = .ok tokens) ∧ ¬EndsInComment front ∧
        ((∃ rest, back = "\"" ++ rest ∧ '"' ∉ rest.toList ∧
            fault = ⟨.unclosedString, [.over source (.after .start front.toList) ['"']]⟩) ∨
          ∃ word n, NextWord front back word ∧ Decimal.Numeral word.toList n ∧
            (Decimal.IsShort word ∧ ¬Fits n ∧ fault = ⟨.numeralOverflow word,
                [.over source (.after .start front.toList) word.toList]⟩ ∨
              ¬Decimal.IsShort word ∧ fault = ⟨.tooManyDigits (Decimal.digitCount word), []⟩)) := by
  constructor
  · rintro ⟨⟨tokens, laid, ended⟩, apart, obstacle⟩
    have read : Token.scan front = .ok tokens := scan_eq_ok_iff.mpr laid
    refine ⟨⟨tokens, read⟩, (not_endsInComment_iff read).mpr ended, ?_⟩
    generalize written : back.toList = cs at apart obstacle
    obtain rfl : back = String.ofList cs := by rw [← written, String.ofList_toList]
    have next {word rest : List Char} {n : Int} (numeral : Decimal.Numeral word n)
        (apart : Apart front.toList (word ++ rest))
        (ends : ∀ c ∈ rest.head?, isWordChar c = false) :
        NextWord front (String.ofList (word ++ rest)) (String.ofList word) :=
      ⟨(apart_iff_not_endsInWord numeral.ne_nil numeral.isWordChar rest).mp apart,
        String.ofList rest, by simp, by simpa using ends⟩
    cases obstacle with
    | @unclosed rest none =>
      refine .inl ⟨String.ofList rest, String.toList_injective ?_, by simpa using none, rfl⟩
      simp
    | @overflow word rest n numeral short large ends =>
      refine .inr ⟨String.ofList word, n, next numeral apart ends, ?_, .inl ⟨short, large, ?_⟩⟩
      · rwa [String.toList_ofList]
      · rw [String.toList_ofList]
    | @tooLong word rest n numeral long ends =>
      refine .inr ⟨String.ofList word, n, next numeral apart ends, ?_, .inr ⟨long, rfl⟩⟩
      rwa [String.toList_ofList]
  · rintro ⟨⟨tokens, read⟩, outside, flaw⟩
    have ended := (not_endsInComment_iff read).mp outside
    have readable : ∃ tokens, Layout none .start front.toList tokens ∧
        CommentsEnd .start front.toList tokens := ⟨tokens, scan_eq_ok_iff.mp read, ended⟩
    rcases flaw with ⟨rest, rfl, none, rfl⟩ | ⟨word, n, ⟨whole, rest, rfl, ends⟩, numeral, flaw⟩
    · have opened : ("\"" ++ rest).toList = '"' :: rest.toList := by simp
      rw [opened]
      refine ⟨readable, ?_, .unclosed none⟩
      intro c _ d hd _
      obtain rfl : '"' = d := Option.some.inj hd
      rfl
    · rw [String.toList_append]
      refine ⟨readable, ?_, ?_⟩
      · exact (apart_iff_not_endsInWord numeral.ne_nil numeral.isWordChar _).mpr whole
      · have written : String.ofList word.toList = word := String.ofList_toList
        rcases flaw with ⟨short, large, rfl⟩ | ⟨long, rfl⟩
        · have obstacle :
              Obstacle source (.after .start front.toList) (word.toList ++ rest.toList) _ :=
            .overflow numeral (written.symm ▸ short) large ends
          rwa [written] at obstacle
        · have obstacle :
              Obstacle source (.after .start front.toList) (word.toList ++ rest.toList) _ :=
            .tooLong numeral (written.symm ▸ long) ends
          rwa [written] at obstacle

/-- The lexer fails if and only if it gets stuck. -/
theorem scan_eq_error_iff {text : String} {source : Option Source} {fault : Fault} :
    Token.scan text source = .error fault ↔
      ∃ front back, text = front ++ back ∧
        Stuck source .start front.toList back.toList fault := by
  have scan : Token.scan text source = Lexer.complete source {} .start text.toList := rfl
  constructor
  · intro h
    obtain ⟨front, back, whole, stuck⟩ := Lexer.complete_eq_error_iff.mp (scan.symm.trans h)
    refine ⟨String.ofList front, String.ofList back, ?_, by simpa using stuck⟩
    rw [← String.ofList_append, ← whole, String.ofList_toList]
  · rintro ⟨front, back, rfl, stuck⟩
    rw [scan, String.toList_append]
    exact stuck.complete_eq []

/-- A text has a flaw: after a text that can be read and does not end inside of a comment, there is
a quote that no other one closes, or, not in the middle of a word, a numeral of an integer that is
out of range. The fault of the flaw has one place, the quote or the numeral. -/
def Flawed (source : Option Source) (text : String) (fault : Fault) : Prop :=
  ∃ front back, text = front ++ back ∧ (∃ tokens, Token.scan front = .ok tokens) ∧
    ¬EndsInComment front ∧
    ((∃ rest, back = "\"" ++ rest ∧ '"' ∉ rest.toList ∧
        fault = ⟨.unclosedString, [.over source (.after .start front.toList) ['"']]⟩) ∨
      ∃ word n, NextWord front back word ∧ Decimal.Numeral word.toList n ∧ ¬Fits n ∧
        fault = ⟨.numeralOverflow word, [.over source (.after .start front.toList) word.toList]⟩)

/-- In a place where the lexer comes to, a text has a numeral with too many digits, which may be
leading zeros. -/
def HasLongNumeral (text : String) (digits : Nat) : Prop :=
  ∃ front back, text = front ++ back ∧ (∃ tokens, Token.scan front = .ok tokens) ∧
    ¬EndsInComment front ∧ ∃ word n, NextWord front back word ∧ Decimal.Numeral word.toList n ∧
      ¬Decimal.IsShort word ∧ digits = Decimal.digitCount word

variable {text : String} {source : Option Source} {fault : Fault}

/-- The fault of a flaw is one of syntax. -/
theorem Flawed.kind (h : Flawed source text fault) : fault.cause.kind = "Syntax" := by
  obtain ⟨front, back, -, -, -, ⟨rest, -, -, rfl⟩ | ⟨word, n, -, -, -, rfl⟩⟩ := h <;> rfl

theorem scan_of_hasLongNumeral {digits : Nat} (h : HasLongNumeral text digits) :
    Token.scan text source = .error ⟨.tooManyDigits digits, []⟩ := by
  obtain ⟨front, back, whole, read, outside, word, n, next, numeral, long, rfl⟩ := h
  exact scan_eq_error_iff.mpr ⟨front, back, whole,
    stuck_iff.mpr ⟨read, outside, .inr ⟨word, n, next, numeral, .inr ⟨long, rfl⟩⟩⟩⟩

/-- A defect of the interpreter comes from a numeral with too many digits. -/
theorem hasLongNumeral_of_isDefect (h : Token.scan text source = .error fault)
    (defect : fault.isDefect) :
    ∃ digits, HasLongNumeral text digits ∧ fault = ⟨.tooManyDigits digits, []⟩ := by
  obtain ⟨front, back, whole, stuck⟩ := scan_eq_error_iff.mp h
  obtain ⟨read, outside, flaw⟩ := stuck_iff.mp stuck
  rcases flaw with ⟨rest, -, -, rfl⟩ | ⟨word, n, next, numeral, ⟨-, -, rfl⟩ | ⟨long, rfl⟩⟩
  · cases defect
  · cases defect
  · exact ⟨_, ⟨front, back, whole, read, outside, word, n, next, numeral, long, rfl⟩, rfl⟩

/-- Further lines do not repair a numeral with too many digits. -/
theorem HasLongNumeral.append_line {digits : Nat} (h : HasLongNumeral text digits)
    (more : String) : HasLongNumeral (text ++ "\n" ++ more) digits := by
  obtain ⟨front, back, rfl, read, outside, word, n, ⟨whole, rest, rfl, ends⟩, long⟩ := h
  have next : NextWord front (word ++ rest ++ "\n" ++ more) word := by
    refine ⟨whole, rest ++ "\n" ++ more, by simp [String.append_assoc], fun c hc => ?_⟩
    cases first : rest.toList with
    | nil =>
      obtain rfl : '\n' = c := by simpa [first] using hc
      decide
    | cons d ds =>
      obtain rfl : d = c := by simpa [first] using hc
      exact ends d (by simp [first])
  exact ⟨front, word ++ rest ++ "\n" ++ more, by simp [String.append_assoc], read, outside, word, n,
    next, long⟩

/-- The lexer fails if and only if the text is flawed, and with the fault of the flaw, provided that
no numeral has too many digits. That is a fault of syntax with one place. At a numeral with too many
digits the interpreter itself fails, whether the integer is in range or not, and says neither what
is wrong with the text nor where. -/
theorem flaws_explain_scan_iff (text : String) (source : Option Source) :
    ((∀ fault, Token.scan text source = .error fault ↔ Flawed source text fault) ↔
      ¬∃ digits, HasLongNumeral text digits) ∧
    (∀ fault, Flawed source text fault → fault.cause.kind = "Syntax") ∧
    ∀ digits, HasLongNumeral text digits →
      Token.scan text source = .error ⟨.tooManyDigits digits, []⟩ := by
  refine ⟨⟨?_, ?_⟩, fun _ => Flawed.kind, fun _ => scan_of_hasLongNumeral⟩
  · rintro explained ⟨digits, long⟩
    have kind : "Internal" = "Syntax" := ((explained _).mp (scan_of_hasLongNumeral long)).kind
    exact absurd kind (by decide)
  · intro none fault
    rw [scan_eq_error_iff]
    refine exists_congr fun front => exists_congr fun back => and_congr_right fun whole => ?_
    rw [stuck_iff]
    refine and_congr_right fun read => and_congr_right fun outside => or_congr_right ?_
    refine exists_congr fun word => exists_congr fun n => and_congr_right fun next =>
      and_congr_right fun numeral => ?_
    have short : Decimal.IsShort word := by
      by_contra long
      exact none ⟨_, front, back, whole, read, outside, word, n, next, numeral, long, rfl⟩
    simp [short]

/-! ### Leading zeros -/

theorem Decimal.numeral_zeros {k : Nat} (h : k ≠ 0) : Numeral (List.replicate k '0') 0 := by
  have value (k : Nat) : valueOfDigits (List.replicate k '0') = 0 := by
    induction k with
    | zero => rfl
    | succ k ih => exact ih
  have digits : Digits (List.replicate k '0') := by
    refine ⟨by simpa using h, fun c hc => ?_⟩
    obtain rfl := List.eq_of_mem_replicate hc
    decide
  have numeral := Numeral.unsigned digits
  rwa [← valueOfDigits_eq, value] at numeral

/-- However many zeros there are, they are a numeral of zero and of nothing else. -/
theorem Decimal.Numeral.eq_zero {cs : List Char} {n : Int} (h : Numeral cs n)
    (zeros : ∀ c ∈ cs, c = '0') : n = 0 := by
  have written : cs = List.replicate cs.length '0' := List.eq_replicate_of_mem zeros
  have numeral := numeral_zeros (List.length_pos_iff.mpr h.ne_nil).ne'
  rw [← written] at numeral
  exact Option.some.inj ((read?_eq_some_iff.mpr h).symm.trans (read?_eq_some_iff.mpr numeral))

/-- A text that consists of zeros. -/
def zeros (count : Nat) : String := String.ofList (List.replicate count '0')

theorem eq_zero_of_mem_zeros {count : Nat} {c : Char} (h : c ∈ (zeros count).toList) : c = '0' := by
  rw [zeros, String.toList_ofList] at h
  exact List.eq_of_mem_replicate h

theorem digitCount_zeros (count : Nat) : Decimal.digitCount (zeros count) = count := by
  simp [Decimal.digitCount, zeros, List.countP_replicate, Decimal.isDigit]

/-- Zeros have no flaw, since the integer that they stand for is in range. -/
theorem not_flawed_zeros (count : Nat) : ¬Flawed source (zeros count) fault := by
  rintro ⟨front, back, whole, -, -, flaw⟩
  have inside {c : Char} (hc : c ∈ back.toList) : c = '0' := by
    have among : c ∈ (zeros count).toList := by
      rw [whole, String.toList_append]
      exact List.mem_append_right _ hc
    exact eq_zero_of_mem_zeros among
  rcases flaw with ⟨rest, rfl, -, -⟩ | ⟨word, n, ⟨-, rest, rfl, -⟩, numeral, large, -⟩
  · exact absurd (inside (c := '"') (by simp)) (by decide)
  · obtain rfl := numeral.eq_zero fun c hc => inside (by simp [hc])
    exact absurd (by decide : Fits 0) large

/-- More zeros than a numeral may have digits are a numeral with too many digits. -/
theorem hasLongNumeral_zeros {count : Nat} (h : Decimal.maxDigits < count) :
    HasLongNumeral (zeros count) count := by
  have read : Token.scan "" = .ok [] := rfl
  have outside : ¬EndsInComment "" := by
    rintro ⟨tokens, scanned, t, ht, -⟩
    obtain rfl := Except.ok.inj (read.symm.trans scanned)
    cases ht
  have next : NextWord "" (zeros count) (zeros count) := by
    refine ⟨?_, "", by simp, by simp⟩
    rintro ⟨c, hc, -⟩
    cases hc
  refine ⟨"", zeros count, by simp, ⟨[], read⟩, outside, zeros count, 0, next, ?_, ?_, ?_⟩
  · rw [zeros, String.toList_ofList]
    exact Decimal.numeral_zeros (Nat.ne_of_gt (Nat.zero_lt_of_lt h))
  · rw [Decimal.IsShort, digitCount_zeros]
    exact Nat.not_le.mpr h
  · rw [digitCount_zeros]

/-- The lexer fails at a numeral of zero, although the text has no flaw, and says nothing about the
place. -/
theorem scan_of_zeros :
    Token.scan (zeros 4301) = .error ⟨.tooManyDigits 4301, []⟩ ∧
      ∀ fault, ¬Flawed none (zeros 4301) fault :=
  ⟨scan_of_hasLongNumeral (hasLongNumeral_zeros (by decide)), fun _ => not_flawed_zeros 4301⟩

end CallLang
