import CallLang.Proofs.Answers
import CallLang.Proofs.Words

/-!
# Conversions between integers and texts

A text is read as an integer in two places: where a word of a program becomes a token, and where a
running program converts a string. A word may also be a keyword or a name, while every text that is
no numeral is a fault of the conversion. Both read the same texts as integers nevertheless, and both
refuse the same ones because they are out of range (`conversion_law`): what happens depends only on
whether a text is a numeral, of which integer, and whether it is short enough for the interpreter.
-/

namespace CallLang

open CallLang.Builtin

variable {word : String} {n : Int}

namespace Decimal

theorem ofText?_eq_none (h : ∀ n, ¬Numeral word.toList n) : ofText? word = none :=
  Option.eq_none_iff_forall_ne_some.mpr fun n read => h n (read?_eq_some_iff.mp read)

/-- The text of an integer is a numeral of it. -/
theorem numeral_text (n : Int) : Numeral (text n).toList n := by
  rw [← read?_eq_some_iff, text, String.toList_ofList, read?_write]

/-- A text that is no numeral: neither one in range, nor one out of it, nor one that is too long. -/
theorem forall_not_numeral_iff :
    (∀ n, ¬Numeral word.toList n) ↔
      (∀ n, ¬(Numeral word.toList n ∧ IsShort word ∧ Fits n)) ∧
        (¬∃ n, Numeral word.toList n ∧ IsShort word ∧ ¬Fits n) ∧
        ¬∃ n, Numeral word.toList n ∧ ¬IsShort word := by
  constructor
  · intro none
    exact ⟨fun n numeral => none n numeral.1, fun ⟨n, numeral, _⟩ => none n numeral,
      fun ⟨n, numeral, _⟩ => none n numeral⟩
  · rintro ⟨small, large, long⟩ n numeral
    by_cases short : IsShort word
    · by_cases fits : Fits n
      · exact small n ⟨numeral, short, fits⟩
      · exact large ⟨n, numeral, short, fits⟩
    · exact long ⟨n, numeral, short⟩

end Decimal

/-! ### Words of a program -/

namespace Lexeme

theorem ofWord_of_not_numeral (h : ∀ n, ¬Decimal.Numeral word.toList n) :
    ofWord word = .ok ((keyword? word).elim (.name word) .atom) := by
  rw [ofWord, Decimal.ofText?_eq_none h]
  cases keyword? word <;> rfl

theorem ofWord_eq_int_iff :
    ofWord word = .ok (.atom (.int n)) ↔
      Decimal.Numeral word.toList n ∧ Decimal.IsShort word ∧ Fits n := by
  constructor
  · intro h
    by_cases numeral : ∃ m, Decimal.Numeral word.toList m
    · obtain ⟨m, numeral⟩ := numeral
      rw [ofWord_of_numeral numeral] at h
      split_ifs at h with short fits
      cases h
      exact ⟨numeral, short, fits⟩
    · rw [ofWord_of_not_numeral (not_exists.mp numeral)] at h
      cases keyword : keyword? word with
      | none =>
        rw [keyword] at h
        cases h
      | some value =>
        rw [keyword] at h
        cases h
        exact absurd keyword keyword?_ne_int
  · rintro ⟨numeral, short, fits⟩
    rw [ofWord_of_numeral numeral, if_pos short, if_pos fits]

/-- Keywords and names are the words that are no numerals. -/
theorem keyword_or_name_iff :
    (word ∈ ["true", "false", "null"] ∨ ofWord word = .ok (.name word)) ↔
      ∀ n, ¬Decimal.Numeral word.toList n := by
  constructor
  · rintro (keyword | name) n numeral
    · exact keyword?_eq_none_iff.mp numeral.keyword?_eq_none keyword
    · rw [ofWord_of_numeral numeral] at name
      split_ifs at name
      cases name
  · intro h
    refine or_iff_not_imp_left.mpr fun other => ?_
    rw [ofWord_of_not_numeral h, keyword?_eq_none_iff.mpr other]
    rfl

end Lexeme

namespace Token

variable {span : Span}

theorem ofWord_eq_ok_iff {lexeme : Lexeme} :
    ofWord word span = .ok ⟨lexeme, span⟩ ↔ Lexeme.ofWord word = .ok lexeme := by
  rw [ofWord]
  cases Lexeme.ofWord word <;> simp

theorem ofWord_eq_error_iff (cause : Cause) :
    ofWord word span = .error (.ofText cause span) ↔ Lexeme.ofWord word = .error cause := by
  rw [ofWord]
  cases Lexeme.ofWord word with
  | ok lexeme => simp
  | error found =>
    simp only [Except.error.injEq]
    exact ⟨congrArg Fault.cause, fun same => by rw [same]⟩

/-- A numeral of an integer that is out of range has no token. -/
theorem ofWord_eq_overflow_iff :
    ofWord word span = .error ⟨.numeralOverflow word, [span]⟩ ↔
      ∃ n, Decimal.Numeral word.toList n ∧ Decimal.IsShort word ∧ ¬Fits n := by
  refine (ofWord_eq_error_iff (.numeralOverflow word)).trans ?_
  simp [Lexeme.ofWord_eq_error_iff, Cause.tooManyDigits]

/-- The interpreter fails at numerals with too many digits. -/
theorem ofWord_eq_defect_iff :
    ofWord word span = .error ⟨.tooManyDigits (Decimal.digitCount word), []⟩ ↔
      ∃ n, Decimal.Numeral word.toList n ∧ ¬Decimal.IsShort word := by
  refine (ofWord_eq_error_iff (.tooManyDigits (Decimal.digitCount word))).trans ?_
  simp [Lexeme.ofWord_eq_error_iff, Cause.tooManyDigits]

end Token

/-! ### Strings of a running program -/

namespace Builtin.Convert

theorem toInt_of_numeral (h : Decimal.Numeral word.toList n) :
    toInt (.string word) =
      if Decimal.IsShort word then
        if Fits n then .ok (.int n) else .error (.numeralTooLarge word)
      else .error (.tooManyDigits (Decimal.digitCount word)) := by
  simp only [toInt, Decimal.ofText?, Decimal.read?_eq_some_iff.mpr h, ← Nat.not_le, ite_not]
  rfl

theorem toInt_of_not_numeral (h : ∀ n, ¬Decimal.Numeral word.toList n) :
    toInt (.string word) = .error (.noNumeral word) := by
  rw [toInt, Decimal.ofText?_eq_none h]

theorem toInt_eq_int_iff :
    toInt (.string word) = .ok (.int n) ↔
      Decimal.Numeral word.toList n ∧ Decimal.IsShort word ∧ Fits n := by
  constructor
  · intro h
    by_cases numeral : ∃ m, Decimal.Numeral word.toList m
    · obtain ⟨m, numeral⟩ := numeral
      rw [toInt_of_numeral numeral] at h
      split_ifs at h with short fits
      cases h
      exact ⟨numeral, short, fits⟩
    · rw [toInt_of_not_numeral (not_exists.mp numeral)] at h
      cases h
  · rintro ⟨numeral, short, fits⟩
    rw [toInt_of_numeral numeral, if_pos short, if_pos fits]

/-- There are two ways for a string to be no integer, and one for the interpreter to fail. -/
theorem toInt_eq_error_iff {cause : Cause} :
    toInt (.string word) = .error cause ↔
      (∃ n, Decimal.Numeral word.toList n ∧ Decimal.IsShort word ∧ ¬Fits n) ∧
          cause = .numeralTooLarge word ∨
        (∀ n, ¬Decimal.Numeral word.toList n) ∧ cause = .noNumeral word ∨
        (∃ n, Decimal.Numeral word.toList n ∧ ¬Decimal.IsShort word) ∧
          cause = .tooManyDigits (Decimal.digitCount word) := by
  constructor
  · intro h
    by_cases numeral : ∃ m, Decimal.Numeral word.toList m
    · obtain ⟨m, numeral⟩ := numeral
      rw [toInt_of_numeral numeral] at h
      split_ifs at h with short fits
      · exact .inl ⟨⟨m, numeral, short, fits⟩, (Except.error.inj h).symm⟩
      · exact .inr (.inr ⟨⟨m, numeral, short⟩, (Except.error.inj h).symm⟩)
    · rw [toInt_of_not_numeral (not_exists.mp numeral)] at h
      exact .inr (.inl ⟨not_exists.mp numeral, (Except.error.inj h).symm⟩)
  · rintro (⟨⟨n, numeral, short, large⟩, rfl⟩ | ⟨other, rfl⟩ | ⟨⟨n, numeral, long⟩, rfl⟩)
    · rw [toInt_of_numeral numeral, if_pos short, if_neg large]
    · exact toInt_of_not_numeral other
    · rw [toInt_of_numeral numeral, if_neg long]

end Builtin.Convert

section

variable (stamp : Stamp)

theorem returns_toInt_iff :
    (Callable.builtin stamp (.unary .toInt)).Answers [.string word] (.ok (.int n)) ↔
      Decimal.Numeral word.toList n ∧ Decimal.IsShort word ∧ Fits n := by
  rw [answers_toInt_iff, eq_comm, Convert.toInt_eq_int_iff]

theorem fails_toInt_iff {kind : String} :
    (Callable.builtin stamp (.unary .toInt)).Fails [.string word] kind ↔
      (∃ n, Decimal.Numeral word.toList n ∧ Decimal.IsShort word ∧ ¬Fits n) ∧ kind = "Overflow" ∨
        (∀ n, ¬Decimal.Numeral word.toList n) ∧ kind = "Type" ∨
        (∃ n, Decimal.Numeral word.toList n ∧ ¬Decimal.IsShort word) ∧ kind = "Internal" := by
  simp only [Callable.Fails, answers_toInt_iff, eq_comm (a := Except.error _),
    Convert.toInt_eq_error_iff]
  constructor
  · rintro ⟨cause, rfl, ⟨large, rfl⟩ | ⟨other, rfl⟩ | ⟨long, rfl⟩⟩
    · exact .inl ⟨large, rfl⟩
    · exact .inr (.inl ⟨other, rfl⟩)
    · exact .inr (.inr ⟨long, rfl⟩)
  · rintro (⟨large, rfl⟩ | ⟨other, rfl⟩ | ⟨long, rfl⟩)
    · exact ⟨_, rfl, .inl ⟨large, rfl⟩⟩
    · exact ⟨_, rfl, .inr (.inl ⟨other, rfl⟩)⟩
    · exact ⟨_, rfl, .inr (.inr ⟨long, rfl⟩)⟩

end

/-- The text of an integer is read as this integer, in a program and by a conversion. A string is
converted to an integer if and only if the same word of a program is that integer, it is too large
if and only if the word is, and the interpreter fails at the string if and only if it fails at the
word, for which either has to have too many digits. All other strings, which are the keywords and
names, have the wrong type. -/
theorem conversion_law (stamp other : Stamp) (span : Span) :
    let toInt := Callable.builtin stamp (.unary .toInt)
    let toText := Callable.builtin other (.unary .toString)
    (∀ n, Fits n →
      let text := (Atom.int n).display
      toText.Answers [.int n] (.ok (.string text)) ∧
      toInt.Answers [.string text] (.ok (.int n)) ∧
      Token.ofWord text span = .ok ⟨.atom (.int n), span⟩) ∧
    ∀ word,
      let reads (n : Int) := Token.ofWord word span = .ok ⟨.atom (.int n), span⟩
      let overflows := Token.ofWord word span = .error ⟨.numeralOverflow word, [span]⟩
      let breaks :=
        Token.ofWord word span = .error ⟨.tooManyDigits (Decimal.digitCount word), []⟩
      (∀ n, toInt.Answers [.string word] (.ok (.int n)) ↔ reads n) ∧
      (toInt.Fails [.string word] "Overflow" ↔ overflows) ∧
      (toInt.Fails [.string word] "Internal" ↔ breaks) ∧
      (breaks → Decimal.maxDigits < Decimal.digitCount word) ∧
      (toInt.Fails [.string word] "Type" ↔ (∀ n, ¬reads n) ∧ ¬overflows ∧ ¬breaks) ∧
      (toInt.Fails [.string word] "Type" ↔
        word ∈ ["true", "false", "null"] ∨ Token.ofWord word span = .ok ⟨.name word, span⟩) := by
  intro toInt toText
  have reads_iff (word : String) (n : Int) : Token.ofWord word span = .ok ⟨.atom (.int n), span⟩ ↔
      Decimal.Numeral word.toList n ∧ Decimal.IsShort word ∧ Fits n :=
    Token.ofWord_eq_ok_iff.trans Lexeme.ofWord_eq_int_iff
  constructor
  · intro n fits text
    have written := Decimal.numeral_text n
    have short : Decimal.IsShort text := Decimal.digitCount_write_le fits
    exact ⟨(answers_toText_iff other).mpr rfl,
      (returns_toInt_iff stamp).mpr ⟨written, short, fits⟩,
      (reads_iff text n).mpr ⟨written, short, fits⟩⟩
  · intro word reads overflows breaks
    have overflows_iff :
        overflows ↔ ∃ n, Decimal.Numeral word.toList n ∧ Decimal.IsShort word ∧ ¬Fits n :=
      Token.ofWord_eq_overflow_iff
    have breaks_iff : breaks ↔ ∃ n, Decimal.Numeral word.toList n ∧ ¬Decimal.IsShort word :=
      Token.ofWord_eq_defect_iff
    refine ⟨fun n => (returns_toInt_iff stamp).trans (reads_iff word n).symm, ?_, ?_, ?_, ?_, ?_⟩
    · rw [fails_toInt_iff, overflows_iff]
      simp
    · rw [fails_toInt_iff, breaks_iff]
      simp
    · intro fails
      obtain ⟨n, -, long⟩ := breaks_iff.mp fails
      exact Nat.lt_of_not_le long
    · rw [fails_toInt_iff, overflows_iff, breaks_iff, Decimal.forall_not_numeral_iff]
      simp [reads, reads_iff]
    · rw [fails_toInt_iff, Token.ofWord_eq_ok_iff, Lexeme.keyword_or_name_iff]
      simp

/-- The greatest integer can be written with a sign and zeros before it, and the next one cannot be
written at all. -/
theorem conversion_law_of_greatest :
    (Callable.builtin [] (.unary .toInt)).Answers [.string (Atom.int maxInt).display]
      (.ok (.int maxInt)) ∧
    (Callable.builtin [] (.unary .toInt)).Answers [.string "+009223372036854775807"]
      (.ok (.int maxInt)) ∧
    (Callable.builtin [] (.unary .toInt)).Fails [.string "9223372036854775808"] "Overflow" ∧
    (Callable.builtin [] (.unary .toInt)).Fails [.string ""] "Type" := by
  have law := conversion_law [] [] ⟨⟨1, 1⟩, ⟨1, 1⟩, none⟩
  exact ⟨(law.1 maxInt (by decide)).2.1, ((law.2 _).1 _).mpr (by cbv),
    (law.2 _).2.1.mpr (by cbv), (law.2 _).2.2.2.2.2.mpr (.inr (by cbv))⟩

end CallLang
