import CallLang.Proofs.Printing

/-!
# Words

A word is a keyword, a numeral or a name. `Decimal.Numeral` says which words are numerals and what
integers they stand for, and reading numerals agrees with it (`Decimal.read?_eq_some_iff`). From
this follows which words have no lexeme (`Lexeme.ofWord_eq_error_iff`) and which ones are names
(`Lexeme.IsName.ofWord_eq`).
-/

namespace CallLang

theorem isWordChar_of_isSeparator {c : Char} (h : isSeparator c = true) :
    isWordChar c = false := by
  simp [isWordChar, h]

theorem isWordChar_of_mark? {c : Char} {lexeme : Lexeme} (h : mark? c = some lexeme) :
    isWordChar c = false := by
  simp [isWordChar, h]

/-! ### Numerals -/

namespace Decimal

/-- At least one decimal digit, and nothing else. -/
def Digits (cs : List Char) : Prop := cs ≠ [] ∧ ∀ c ∈ cs, '0' ≤ c ∧ c ≤ '9'

/-- The number that is written with the given digits, the last of which counts the ones. -/
def magnitude (cs : List Char) : Nat := Nat.ofDigits 10 (cs.map digitValue).reverse

/-- The numerals and the integers that they stand for: digits, possibly with a sign before them. -/
inductive Numeral : List Char → Int → Prop where
  | unsigned {cs : List Char} : Digits cs → Numeral cs (magnitude cs)
  | positive {cs : List Char} : Digits cs → Numeral ('+' :: cs) (magnitude cs)
  | negative {cs : List Char} : Digits cs → Numeral ('-' :: cs) (-magnitude cs)

theorem areDigits_iff {cs : List Char} : areDigits cs = true ↔ Digits cs := by
  simp [areDigits, Digits, isDigit]

theorem valueOfDigits_eq (cs : List Char) : valueOfDigits cs = magnitude cs := by
  induction cs using List.reverseRecOn with
  | nil => rfl
  | append_singleton cs c ih =>
    have last : valueOfDigits (cs ++ [c]) = 10 * valueOfDigits cs + digitValue c := by
      rw [valueOfDigits, List.foldl_append]
      rfl
    rw [last, ih, magnitude, magnitude, List.map_append, List.map_singleton, List.reverse_concat,
      Nat.ofDigits_cons]
    omega

theorem Digits.isDigit_head {c : Char} {cs : List Char} (h : Digits (c :: cs)) :
    isDigit c = true := by
  simpa [isDigit] using h.2 c List.mem_cons_self

/-- Reading a text as a numeral succeeds for numerals only, and gives what they stand for. -/
theorem read?_eq_some_iff {cs : List Char} {n : Int} : read? cs = some n ↔ Numeral cs n := by
  constructor
  · intro h
    unfold read? at h
    simp only [valueOfDigits_eq] at h
    split at h <;> split_ifs at h with digits <;> obtain rfl := Option.some.inj h
    · exact .negative (areDigits_iff.mp digits)
    · exact .positive (areDigits_iff.mp digits)
    · exact .unsigned (areDigits_iff.mp digits)
  · rintro (digits | digits | digits)
    · obtain ⟨c, cs, rfl⟩ := List.exists_cons_of_ne_nil digits.1
      rw [read?_of_isDigit digits.isDigit_head (areDigits_iff.mpr digits), valueOfDigits_eq]
    · rw [read?, if_pos (areDigits_iff.mpr digits), valueOfDigits_eq]
    · rw [read?, if_pos (areDigits_iff.mpr digits), valueOfDigits_eq]

namespace Numeral

variable {cs : List Char} {n : Int}

theorem ne_nil (h : Numeral cs n) : cs ≠ [] := by
  cases h with
  | unsigned digits => exact digits.1
  | positive | negative => exact List.cons_ne_nil _ _

theorem mem (h : Numeral cs n) {c : Char} (hc : c ∈ cs) :
    c = '+' ∨ c = '-' ∨ isDigit c = true := by
  have inside {ds : List Char} (digits : Digits ds) (hd : c ∈ ds) : isDigit c = true := by
    simpa [isDigit] using digits.2 c hd
  cases h with
  | unsigned digits => exact .inr (.inr (inside digits hc))
  | positive digits =>
    rcases List.mem_cons.mp hc with rfl | hc
    · exact .inl rfl
    · exact .inr (.inr (inside digits hc))
  | negative digits =>
    rcases List.mem_cons.mp hc with rfl | hc
    · exact .inr (.inl rfl)
    · exact .inr (.inr (inside digits hc))

/-- A numeral is a word. -/
theorem isWordChar (h : Numeral cs n) : ∀ c ∈ cs, isWordChar c = true := by
  intro c hc
  rcases h.mem hc with rfl | rfl | digit
  · decide
  · decide
  · exact isWordChar_of_isDigit digit

end Numeral

end Decimal

/-! ### Keywords and names -/

theorem keyword?_eq_none_iff {word : String} :
    keyword? word = none ↔ word ∉ ["true", "false", "null"] := by
  rw [keyword?]
  split_ifs with yes no null <;> simp_all

theorem keyword?_ne_int {word : String} {n : Int} : keyword? word ≠ some (.int n) := by
  rw [keyword?]
  split_ifs <;> simp

/-- No keyword is a numeral. -/
theorem Decimal.Numeral.keyword?_eq_none {word : String} {n : Int}
    (h : Numeral word.toList n) : keyword? word = none := by
  have other (c : Char) (hc : c ∈ word.toList) : (c == '+' || c == '-' || isDigit c) = true := by
    rcases h.mem hc with rfl | rfl | digit <;> simp_all
  rw [keyword?_eq_none_iff]
  intro keyword
  simp only [List.mem_cons, List.not_mem_nil, or_false] at keyword
  rcases keyword with rfl | rfl | rfl
  · exact absurd (other 't' (by decide)) (by decide)
  · exact absurd (other 'f' (by decide)) (by decide)
  · exact absurd (other 'n' (by decide)) (by decide)

namespace Decimal

/-- The interpreter reads a numeral only if it does not have too many digits. -/
def IsShort (word : String) : Prop := digitCount word ≤ maxDigits

instance (word : String) : Decidable (IsShort word) :=
  inferInstanceAs (Decidable (digitCount word ≤ maxDigits))

end Decimal

namespace Lexeme

theorem ofWord_of_numeral {word : String} {n : Int} (h : Decimal.Numeral word.toList n) :
    ofWord word =
      if Decimal.IsShort word then
        if Fits n then .ok (.atom (.int n)) else .error (.numeralOverflow word)
      else .error (.tooManyDigits (Decimal.digitCount word)) := by
  simp only [ofWord, h.keyword?_eq_none, Decimal.ofText?, Decimal.read?_eq_some_iff.mpr h,
    ← Nat.not_le, ite_not]
  rfl

/-- The only words that have no lexeme are numerals of integers that are out of range, and numerals
with too many digits. -/
theorem ofWord_eq_error_iff {word : String} {cause : Cause} :
    ofWord word = .error cause ↔
      ∃ n, Decimal.Numeral word.toList n ∧
        (Decimal.IsShort word ∧ ¬Fits n ∧ cause = .numeralOverflow word ∨
          ¬Decimal.IsShort word ∧ cause = .tooManyDigits (Decimal.digitCount word)) := by
  constructor
  · intro h
    by_cases numeral : ∃ n, Decimal.Numeral word.toList n
    · obtain ⟨n, numeral⟩ := numeral
      refine ⟨n, numeral, ?_⟩
      rw [ofWord_of_numeral numeral] at h
      split_ifs at h with short fits
      · exact .inl ⟨short, fits, (Except.error.inj h).symm⟩
      · exact .inr ⟨short, (Except.error.inj h).symm⟩
    · have unread : Decimal.ofText? word = none :=
        Option.eq_none_iff_forall_ne_some.mpr fun n read =>
          numeral ⟨n, Decimal.read?_eq_some_iff.mp read⟩
      rw [ofWord, unread] at h
      cases keyword : keyword? word <;> simp [keyword] at h
  · rintro ⟨n, numeral, ⟨short, large, rfl⟩ | ⟨long, rfl⟩⟩
    · rw [ofWord_of_numeral numeral, if_pos short, if_neg large]
    · rw [ofWord_of_numeral numeral, if_neg long]

/-- The words that are names: all that are neither keywords nor numerals. -/
structure IsName (word : String) : Prop where
  nonempty : word ≠ ""
  chars : ∀ c ∈ word.toList, isWordChar c = true
  noKeyword : word ∉ ["true", "false", "null"]
  noNumeral : ∀ n, ¬Decimal.Numeral word.toList n

theorem isName_iff {word : String} :
    IsName word ↔ word ≠ "" ∧ word.toList.all isWordChar = true ∧
      word ∉ ["true", "false", "null"] ∧ Decimal.read? word.toList = none := by
  have numerals : (∀ n, ¬Decimal.Numeral word.toList n) ↔ Decimal.read? word.toList = none := by
    simp only [Option.eq_none_iff_forall_ne_some, ne_eq, Decimal.read?_eq_some_iff]
  rw [← numerals, List.all_eq_true]
  exact ⟨fun h => ⟨h.nonempty, h.chars, h.noKeyword, h.noNumeral⟩,
    fun ⟨nonempty, chars, noKeyword, noNumeral⟩ => ⟨nonempty, chars, noKeyword, noNumeral⟩⟩

instance (word : String) : Decidable (IsName word) := decidable_of_iff' _ isName_iff

theorem IsName.ofWord_eq {word : String} (h : IsName word) : ofWord word = .ok (.name word) := by
  obtain ⟨-, -, keyword, unread⟩ := isName_iff.mp h
  simp only [ofWord, keyword?_eq_none_iff.mpr keyword, Decimal.ofText?, unread]

end Lexeme

end CallLang
