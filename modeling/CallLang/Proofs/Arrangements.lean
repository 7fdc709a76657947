import CallLang.Proofs.Layout
import CallLang.Proofs.Words

/-!
# Lexemes and the white space between them

Lexemes are written one after the other, with white space before, between and after them as one
likes. Only two words must be kept apart, since they would be read as one; everything else may
touch. The lexer finds the lexemes again, whatever they are (`scan_arranged`).
-/

namespace CallLang

/-! ### How lexemes are written -/

instance : DecidablePred Atom.Plain
  | .int n => inferInstanceAs (Decidable (Fits n))
  | .string s => inferInstanceAs (Decidable ('"' ∉ s.toList))
  | .bool _ | .null => inferInstanceAs (Decidable True)
  | .list _ | .object .. | .function _ => inferInstanceAs (Decidable False)

namespace Lexeme

/-- The text of a lexeme. A comment is written with the newline that ends it. -/
def text : Lexeme → String
  | opening => "("
  | closing => ")"
  | comma => ","
  | comment text => "#" ++ text ++ "\n"
  | atom value => value.literal
  | name word => word

/-- The lexemes that can be written: a comment is on one line, a value has a text, and a name is
neither a keyword nor a numeral. -/
def Writable : Lexeme → Prop
  | comment text => '\n' ∉ text.toList
  | atom value => value.Plain
  | name word => IsName word
  | opening | closing | comma => True

/-- Whether a lexeme is written as a word. -/
def isWord : Lexeme → Bool
  | atom (.string _) => false
  | atom _ | name _ => true
  | opening | closing | comma | comment _ => false

instance : DecidablePred Writable
  | comment text => inferInstanceAs (Decidable ('\n' ∉ text.toList))
  | atom value => inferInstanceAs (Decidable value.Plain)
  | name word => inferInstanceAs (Decidable (IsName word))
  | opening | closing | comma => inferInstanceAs (Decidable True)

variable {lexeme : Lexeme}

/-- A lexeme that is written as a word is what this word is read as. -/
theorem Writable.word (h : lexeme.Writable) (word : lexeme.isWord = true) :
    lexeme.text.toList ≠ [] ∧ (∀ c ∈ lexeme.text.toList, isWordChar c = true) ∧
      ofWord lexeme.text = .ok lexeme := by
  match lexeme with
  | name word =>
    have named : IsName word := h
    exact ⟨by simpa [text] using named.nonempty, named.chars, named.ofWord_eq⟩
  | atom (.int n) =>
    have written : (atom (.int n)).text = String.ofList (Decimal.write n) := rfl
    rw [written, String.toList_ofList]
    refine ⟨Decimal.write_ne_nil n, fun c hc => ?_, ofWord_write h⟩
    rcases Decimal.mem_write hc with rfl | digit
    · decide
    · exact Decimal.isWordChar_of_isDigit digit
  | atom (.bool true) => exact ⟨by decide, List.all_eq_true.mp (by decide), rfl⟩
  | atom (.bool false) => exact ⟨by decide, List.all_eq_true.mp (by decide), rfl⟩
  | atom .null => exact ⟨by decide, List.all_eq_true.mp (by decide), rfl⟩

/-- A lexeme that is no word begins with a character that no word contains. -/
theorem exists_cons_of_not_isWord (word : lexeme.isWord = false) :
    ∃ c cs, lexeme.text.toList = c :: cs ∧ isWordChar c = false := by
  match lexeme with
  | opening => exact ⟨'(', [], rfl, by decide⟩
  | closing => exact ⟨')', [], rfl, by decide⟩
  | comma => exact ⟨',', [], rfl, by decide⟩
  | comment text => exact ⟨'#', text.toList ++ ['\n'], by simp [Lexeme.text], by decide⟩
  | atom (.string s) =>
    exact ⟨'"', s.toList ++ ['"'], by simp [text, Atom.literal], by decide⟩

/-- The text of a lexeme is a way of writing it, if no word goes on behind it. -/
theorem Writable.writtenAs (h : lexeme.Writable) {rest : List Char}
    (ends : lexeme.isWord = true → ∀ c ∈ rest.head?, isWordChar c = false) :
    lexeme.WrittenAs rest lexeme.text.toList := by
  cases word : lexeme.isWord with
  | true =>
    obtain ⟨nonempty, chars, read⟩ := h.word word
    exact .word nonempty chars (by rwa [String.ofList_toList]) (ends word)
  | false =>
    cases lexeme with
    | opening => exact WrittenAs.mark (c := '(') rfl
    | closing => exact WrittenAs.mark (c := ')') rfl
    | comma => exact WrittenAs.mark (c := ',') rfl
    | comment text =>
      have written : WrittenAs rest _ ('#' :: (text.toList ++ ['\n'])) := .comment h
      rw [String.ofList_toList] at written
      simpa [Lexeme.text] using written
    | atom value =>
      cases value with
      | string s =>
        have written : WrittenAs rest _ ('"' :: (s.toList ++ ['"'])) := .string h
        rw [String.ofList_toList] at written
        simpa [text, Atom.literal] using written
      | _ => cases word
    | name word' => cases word

end Lexeme

/-! ### White space -/

/-- Whether a text consists of white space only. -/
def IsSpace (text : String) : Prop := ∀ c ∈ text.toList, isSeparator c = true

instance (text : String) : Decidable (IsSpace text) :=
  decidable_of_iff _ (List.all_eq_true (p := isSeparator))

/-- White space before tokens does nothing but move them. -/
theorem Layout.space {source : Option Source} {p : Position} {cs rest : List Char}
    {tokens : List Token} (space : ∀ c ∈ cs, isSeparator c = true)
    (h : Layout source (p.after cs) rest tokens) : Layout source p (cs ++ rest) tokens := by
  induction cs generalizing p with
  | nil => exact h
  | cons c cs ih =>
    obtain ⟨first, others⟩ := List.forall_mem_cons.mp space
    exact .separator first (ih others h)

/-! ### Arrangements -/

/-- The text of lexemes, each with what stands before it, and of what stands at the end. -/
def arranged : List (String × Lexeme) → String → String
  | [], last => last
  | (space, lexeme) :: pieces, last => space ++ lexeme.text ++ arranged pieces last

/-- Lexemes that can be written, with white space around them that keeps words apart. -/
structure IsSpaced (pieces : List (String × Lexeme)) (last : String) : Prop where
  writable : ∀ piece ∈ pieces, piece.2.Writable
  spaces : ∀ piece ∈ pieces, IsSpace piece.1
  last : IsSpace last
  words : pieces.IsChain fun before piece =>
    before.2.isWord = true → piece.2.isWord = true → piece.1 ≠ ""

namespace IsSpaced

variable {piece : String × Lexeme} {pieces : List (String × Lexeme)} {last : String}

theorem tail (h : IsSpaced (piece :: pieces) last) : IsSpaced pieces last :=
  ⟨fun other ho => h.writable other (List.mem_cons_of_mem _ ho),
    fun other ho => h.spaces other (List.mem_cons_of_mem _ ho), h.last, h.words.tail⟩

/-- No word goes on behind a word. -/
theorem isWordChar_head (h : IsSpaced (piece :: pieces) last) (word : piece.2.isWord = true) :
    ∀ c ∈ (arranged pieces last).toList.head?, isWordChar c = false := by
  intro c hc
  cases pieces with
  | nil => exact isWordChar_of_isSeparator (h.last c (List.mem_of_mem_head? hc))
  | cons next pieces =>
    obtain ⟨space, lexeme⟩ := next
    have separate := (List.isChain_cons_cons.mp h.words).1 word
    simp only [arranged, String.toList_append, List.append_assoc] at hc
    -- the next character is white space, or the next lexeme is no word
    by_cases touching : space = ""
    · have other : lexeme.isWord = false := by
        by_contra both
        exact separate (Bool.not_eq_false _ ▸ both) touching
      obtain ⟨d, ds, written, hd⟩ := Lexeme.exists_cons_of_not_isWord other
      rw [touching, written] at hc
      obtain rfl : d = c := by simpa using hc
      exact hd
    · have nonempty : space.toList ≠ [] := by simpa using touching
      rw [List.head?_append_of_ne_nil _ nonempty] at hc
      have inside := List.mem_of_mem_head? hc
      exact isWordChar_of_isSeparator (h.spaces (space, lexeme) (by simp) c inside)

/-- A text of lexemes is laid out in these lexemes. -/
theorem exists_layout (h : IsSpaced pieces last) (source : Option Source) (p : Position) :
    ∃ tokens, Layout source p (arranged pieces last).toList tokens ∧
      tokens.map Token.lexeme = pieces.map Prod.snd := by
  induction pieces generalizing p with
  | nil =>
    have laid : Layout source p (last.toList ++ []) [] := .space h.last (.nil _)
    rw [List.append_nil] at laid
    exact ⟨[], laid, rfl⟩
  | cons piece pieces ih =>
    obtain ⟨space, lexeme⟩ := piece
    have writable : lexeme.Writable := h.writable (space, lexeme) List.mem_cons_self
    have blank : IsSpace space := h.spaces (space, lexeme) List.mem_cons_self
    obtain ⟨tokens, laid, same⟩ := ih h.tail ((p.after space.toList).after lexeme.text.toList)
    have written := Layout.token (writable.writtenAs h.isWordChar_head) laid
    have text : (arranged ((space, lexeme) :: pieces) last).toList =
        space.toList ++ (lexeme.text.toList ++ (arranged pieces last).toList) := by
      simp [arranged]
    have whole := Layout.space blank written
    rw [← text] at whole
    exact ⟨_, whole, congrArg (lexeme :: ·) same⟩

end IsSpaced

/-- The lexer undoes writing: whatever lexemes are written, with whatever white space before,
between and after them that keeps words apart, it finds these lexemes in this order. -/
theorem scan_arranged {pieces : List (String × Lexeme)} {last : String} (h : IsSpaced pieces last)
    (source : Option Source) :
    ∃ tokens, Token.scan (arranged pieces last) source = .ok tokens ∧
      tokens.map Token.lexeme = pieces.map Prod.snd := by
  obtain ⟨tokens, laid, same⟩ := h.exists_layout source .start
  exact ⟨tokens, scan_eq_ok_iff.mpr laid, same⟩

/-- Lexemes of all kinds that touch each other wherever they may. -/
def touching : List (String × Lexeme) :=
  [("\t", .comment "\"("), ("", .name "f"), ("", .opening), ("", .atom (.string "a\n),#")),
    ("", .name "x"), ("", .atom (.string "")), ("", .atom .null),
    ("\r\n", .atom (.int (-9223372036854775808))), ("", .comma), ("", .name "+-7"),
    (" ", .name "nulls"), ("", .closing)]

/-- The lexemes that touch each other are found again. -/
theorem scan_arranged_touching : IsSpaced touching " " ∧
    arranged touching " " =
      "\t#\"(\nf(\"a\n),#\"x\"\"null\r\n-9223372036854775808,+-7 nulls) " ∧
    ∃ tokens, Token.scan (arranged touching " ") = .ok tokens ∧
      tokens.map Token.lexeme = touching.map Prod.snd := by
  have spaced : IsSpaced touching " " := by
    refine ⟨?_, ?_, ?_, ?_⟩ <;> decide
  exact ⟨spaced, by decide, scan_arranged spaced none⟩

end CallLang
