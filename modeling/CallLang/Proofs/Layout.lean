import CallLang.Proofs.Regions
import Mathlib

/-!
# How tokens stand in a text

A text consists of tokens and of the white space around them. `Layout` says how: it lists the tokens
of a text in order, each with the characters that it is written with, and leaves only white space
between them. The lexer finds exactly the tokens that a text is laid out in (`scan_eq_ok_iff`).

A layout can be taken apart at any token (`Layout.split`), so everything about the places of tokens
can be read off it: the lexer loses nothing of a text and makes nothing up (`scan_lossless`).
-/

namespace CallLang

/-! ### Passages of a text -/

namespace Position

protected theorem le_trans {p q r : Position} (hpq : p ≤ q) (hqr : q ≤ r) : p ≤ r := by
  rcases hpq with hpq | rfl
  · exact Position.le_of_lt (Position.lt_of_lt_of_le hpq hqr)
  · exact hqr

protected theorem ne_of_lt {p q : Position} (h : p < q) : p ≠ q := by
  rintro rfl
  exact Position.lt_irrefl p h

/-- The position after the characters `cs`, the first of which stands at `p`. -/
def after (p : Position) (cs : List Char) : Position := cs.foldl next p

@[simp]
theorem after_nil (p : Position) : p.after [] = p := rfl

@[simp]
theorem after_cons (p : Position) (c : Char) (cs : List Char) :
    p.after (c :: cs) = (p.next c).after cs := rfl

@[simp]
theorem after_append (p : Position) (cs ds : List Char) :
    p.after (cs ++ ds) = (p.after cs).after ds :=
  List.foldl_append

theorem le_after (p : Position) (cs : List Char) : p ≤ p.after cs := by
  induction cs generalizing p with
  | nil => exact Position.le_refl p
  | cons c cs ih => exact Position.le_trans (Position.le_of_lt (p.lt_next c)) (ih (p.next c))

theorem lt_after_cons (p : Position) (c : Char) (cs : List Char) : p < p.after (c :: cs) :=
  Position.lt_of_lt_of_le (p.lt_next c) (le_after (p.next c) cs)

/-- The last of some characters stands before the place that follows them. -/
theorem after_dropLast_lt (p : Position) {cs : List Char} (h : cs ≠ []) :
    p.after cs.dropLast < p.after cs := by
  have whole : cs.dropLast ++ [cs.getLast h] = cs := List.dropLast_append_getLast h
  conv_rhs => rw [← whole, after_append]
  exact lt_after_cons _ _ []

end Position

theorem locatedFrom_append (p : Position) (cs ds : List Char) :
    locatedFrom p (cs ++ ds) = locatedFrom p cs ++ locatedFrom (p.after cs) ds := by
  induction cs generalizing p with
  | nil => rfl
  | cons c cs ih => simp [locatedFrom, ih]

/-- The span of the characters `cs`, the first of which stands at `p`. -/
def Span.over (source : Option Source) (p : Position) (cs : List Char) : Span :=
  ⟨p, p.after cs.dropLast, source⟩

theorem Span.over_enclosed (source : Option Source) (p : Position) (c d : Char) (cs : List Char) :
    Span.over source p (c :: (cs ++ [d])) = ⟨p, p.after (c :: cs), source⟩ := by
  rw [Span.over, ← List.cons_append, List.dropLast_concat]

/-- Whether a position lies in a span. -/
def Span.Contains (span : Span) (p : Position) : Prop := span.first ≤ p ∧ p ≤ span.last

theorem contains_over (source : Option Source) {p q : Position} {cs : List Char}
    (h : q ∈ (locatedFrom p cs).map Prod.fst) : (Span.over source p cs).Contains q := by
  refine ⟨le_of_mem_locatedFrom h, ?_⟩
  induction cs generalizing p with
  | nil => cases h
  | cons c cs ih =>
    rcases List.mem_cons.mp h with rfl | h
    · exact q.le_after _
    · cases cs with
      | nil => cases h
      | cons d cs => exact ih h

/-- What ends a text ends at the last position of the text. -/
theorem getLast?_positions {text : String} {xs ys : List Char} (chars : text.toList = xs ++ ys)
    (h : ys ≠ []) :
    (positions text).getLast? = some ((Position.start.after xs).after ys.dropLast) := by
  have whole : ys.dropLast ++ [ys.getLast h] = ys := List.dropLast_append_getLast h
  rw [positions, located, chars, ← whole, locatedFrom_append, locatedFrom_append]
  simp [locatedFrom]

theorem upTo_locatedFrom (p : Position) {ys : List Char} (h : ys ≠ []) (zs : List Char) :
    upTo (p.after ys.dropLast) (locatedFrom p (ys ++ zs)) = some ys := by
  induction ys generalizing p with
  | nil => exact absurd rfl h
  | cons y ys ih =>
    cases ys with
    | nil => simp [locatedFrom, upTo]
    | cons y' ys =>
      have other : p ≠ (p.next y).after (y' :: ys).dropLast :=
        Position.ne_of_lt (Position.lt_after_cons p y _)
      have rest := ih (p.next y) (by simp)
      simp only [List.cons_append, List.dropLast_cons_cons, Position.after_cons] at other rest ⊢
      rw [locatedFrom, upTo, if_neg other, rest]
      rfl

theorem between_locatedFrom (p : Position) (xs : List Char) {ys : List Char} (h : ys ≠ [])
    (zs : List Char) :
    between (p.after xs) ((p.after xs).after ys.dropLast) (locatedFrom p (xs ++ (ys ++ zs))) =
      some ys := by
  induction xs generalizing p with
  | nil =>
    obtain ⟨y, ys', rfl⟩ := List.exists_cons_of_ne_nil h
    have whole := upTo_locatedFrom p h zs
    simp only [List.nil_append, List.cons_append, locatedFrom, Position.after_nil] at whole ⊢
    rw [between, if_pos rfl, whole]
  | cons x xs ih =>
    have first : p < p.after (x :: xs) := Position.lt_after_cons p x xs
    have last : p < (p.after (x :: xs)).after ys.dropLast :=
      Position.lt_of_lt_of_le first (Position.le_after _ _)
    rw [List.cons_append, locatedFrom, between, if_neg (Position.ne_of_lt first),
      if_neg (Position.ne_of_lt last)]
    exact ih (p.next x)

/-- A span that reaches over a passage of a text encloses that passage. -/
theorem extract_passage {text : String} {span : Span} {xs ys zs : List Char}
    (chars : text.toList = xs ++ (ys ++ zs)) (h : ys ≠ [])
    (first : span.first = Position.after .start xs)
    (last : span.last = (Position.after .start xs).after ys.dropLast) :
    extract text span = some (String.ofList ys) := by
  rw [extract, located, chars, first, last, between_locatedFrom .start xs h zs]
  rfl

/-! ### Layouts -/

/-- How a lexeme is written before the characters `rest`. A word ends where no more characters of
words follow, and a comment with its line or with the text. -/
inductive Lexeme.WrittenAs (rest : List Char) : Lexeme → List Char → Prop where
  | mark {c : Char} {lexeme : Lexeme} : mark? c = some lexeme → WrittenAs rest lexeme [c]
  | word {cs : List Char} {lexeme : Lexeme} : cs ≠ [] → (∀ c ∈ cs, isWordChar c = true) →
      Lexeme.ofWord (String.ofList cs) = .ok lexeme → (∀ c ∈ rest.head?, isWordChar c = false) →
      WrittenAs rest lexeme cs
  | string {cs : List Char} : '"' ∉ cs →
      WrittenAs rest (.atom (.string (String.ofList cs))) ('"' :: (cs ++ ['"']))
  | comment {cs : List Char} : '\n' ∉ cs →
      WrittenAs rest (.comment (String.ofList cs)) ('#' :: (cs ++ ['\n']))
  | lastComment {cs : List Char} : '\n' ∉ cs → rest = [] →
      WrittenAs rest (.comment (String.ofList cs)) ('#' :: cs)

/-- The characters of a text, the first of which stands at the given position, are the given tokens
with white space around them. -/
inductive Layout (source : Option Source) : Position → List Char → List Token → Prop where
  | nil (p : Position) : Layout source p [] []
  | separator {p : Position} {c : Char} {cs : List Char} {tokens : List Token} :
      isSeparator c = true → Layout source (p.next c) cs tokens → Layout source p (c :: cs) tokens
  | token {p : Position} {lexeme : Lexeme} {chars rest : List Char} {tokens : List Token} :
      lexeme.WrittenAs rest chars → Layout source (p.after chars) rest tokens →
      Layout source p (chars ++ rest) (⟨lexeme, .over source p chars⟩ :: tokens)

theorem Lexeme.WrittenAs.ne_nil {lexeme : Lexeme} {chars rest : List Char}
    (h : lexeme.WrittenAs rest chars) : chars ≠ [] := by
  cases h with
  | word nonempty => exact nonempty
  | _ => simp

/-- What a lexeme is written as does not depend on characters further behind. -/
theorem Lexeme.WrittenAs.take {lexeme : Lexeme} {chars rest others : List Char}
    (h : lexeme.WrittenAs (rest ++ others) chars) : lexeme.WrittenAs rest chars := by
  cases h with
  | mark hc => exact .mark hc
  | word nonempty all read ends =>
    refine .word nonempty all read ?_
    intro c hc
    cases rest with
    | nil => cases hc
    | cons r rest => exact ends c hc
  | string none => exact .string none
  | comment none => exact .comment none
  | lastComment none ends => exact .lastComment none (List.append_eq_nil_iff.mp ends).1

/-! ### The pass over a text -/

namespace Lexer

/-- What the lexer gives for the rest `cs` of a text, the first character of which stands at `p`. -/
def complete (source : Option Source) (lexer : Lexer) (p : Position) (cs : List Char) :
    Except Fault (List Token) :=
  match feedAll source lexer (locatedFrom p cs) with
  | .ok last => last.finish source
  | .error fault => .error fault

variable (source : Option Source) (tokens : List Token) (p : Position)

theorem complete_append (lexer : Lexer) {cs : List Char} {next : Lexer}
    (h : feedAll source lexer (locatedFrom p cs) = .ok next) (ds : List Char) :
    lexer.complete source p (cs ++ ds) = next.complete source (p.after cs) ds := by
  rw [complete, locatedFrom_append, feedAll_append, h]
  rfl

theorem complete_cons (lexer : Lexer) {c : Char} {next : Lexer}
    (h : lexer.feed source (p, c) = .ok next) (cs : List Char) :
    lexer.complete source p (c :: cs) = next.complete source (p.next c) cs := by
  simp only [complete, locatedFrom, feedAll, h]

/-- Taking one more character at the end. -/
theorem feedAll_concat {lexer next : Lexer} {cs : List Char}
    (h : feedAll source lexer (locatedFrom p cs) = .ok next) (c : Char) :
    feedAll source lexer (locatedFrom p (cs ++ [c])) = next.feed source (p.after cs, c) := by
  rw [locatedFrom_append, feedAll_append, h]
  simp only [locatedFrom, feedAll]
  cases next.feed source (p.after cs, c) <;> rfl

theorem start_of_isWordChar {c : Char} (h : isWordChar c = true) (lexer : Lexer) :
    lexer.start source p c = ⟨.word p p [c], lexer.tokens⟩ := by
  simp only [isWordChar, Bool.and_eq_true, Bool.not_eq_true', Option.isNone_iff_eq_none,
    bne_iff_ne] at h
  obtain ⟨⟨⟨separator, mark⟩, quote⟩, hash⟩ := h
  simp [start, separator, mark, quote, hash]

/-- The lexer collects the characters of a word. -/
theorem feedAll_word {cs : List Char} (nonempty : cs ≠ []) (h : ∀ c ∈ cs, isWordChar c = true) :
    feedAll source ⟨.between, tokens⟩ (locatedFrom p cs) =
      .ok ⟨.word p (p.after cs.dropLast) cs.reverse, tokens⟩ := by
  induction cs using List.reverseRecOn with
  | nil => exact absurd rfl nonempty
  | append_singleton cs c ih =>
    simp only [List.mem_append, List.mem_singleton] at h
    have hc : isWordChar c = true := h c (.inr rfl)
    by_cases first : cs = []
    · subst first
      simp [locatedFrom, feedAll, feed, start_of_isWordChar source p hc]
    · have read := ih first fun d hd => h d (.inl hd)
      rw [feedAll_concat source p read]
      simp [feed, hc]

/-- The lexer collects the characters of a string. -/
theorem feedAll_string {cs : List Char} (h : '"' ∉ cs) :
    feedAll source ⟨.between, tokens⟩ (locatedFrom p ('"' :: cs)) =
      .ok ⟨.string p cs.reverse, tokens⟩ := by
  induction cs using List.reverseRecOn with
  | nil => rfl
  | append_singleton cs c ih =>
    simp only [List.mem_append, List.mem_singleton, not_or] at h
    have hc : c ≠ '"' := fun e => h.2 e.symm
    rw [← List.cons_append, feedAll_concat source p (ih h.1)]
    simp [feed, hc]

/-- The lexer collects the characters of a comment. -/
theorem feedAll_comment {cs : List Char} (h : '\n' ∉ cs) :
    feedAll source ⟨.between, tokens⟩ (locatedFrom p ('#' :: cs)) =
      .ok ⟨.comment p (p.after ('#' :: cs).dropLast) cs.reverse, tokens⟩ := by
  induction cs using List.reverseRecOn with
  | nil => rfl
  | append_singleton cs c ih =>
    simp only [List.mem_append, List.mem_singleton, not_or] at h
    have hc : c ≠ '\n' := fun e => h.2 e.symm
    rw [← List.cons_append, feedAll_concat source p (ih h.1), List.dropLast_concat]
    simp [feed, hc]

theorem complete_separator {c : Char} (h : isSeparator c = true) (cs : List Char) :
    complete source ⟨.between, tokens⟩ p (c :: cs) =
      complete source ⟨.between, tokens⟩ (p.next c) cs := by
  have mark : mark? c = none := by
    simp only [isSeparator, Bool.or_eq_true, beq_iff_eq] at h
    rcases h with ((rfl | rfl) | rfl) | rfl <;> rfl
  refine complete_cons source p _ ?_ cs
  simp [feed, start, mark, h]

/-- A word ends before a character that cannot be in it. -/
theorem complete_word {cs rest : List Char} (nonempty : cs ≠ [])
    (h : ∀ c ∈ cs, isWordChar c = true) (ends : ∀ c ∈ rest.head?, isWordChar c = false) :
    complete source ⟨.between, tokens⟩ p (cs ++ rest) =
      match Lexeme.ofWord (String.ofList cs) with
      | .ok lexeme =>
        complete source ⟨.between, ⟨lexeme, .over source p cs⟩ :: tokens⟩ (p.after cs) rest
      | .error cause => .error (.ofText cause (.over source p cs)) := by
  rw [complete_append source p _ (feedAll_word source tokens p nonempty h)]
  have text : textOf cs.reverse = String.ofList cs := by rw [textOf, List.reverse_reverse]
  cases rest with
  | nil =>
    simp only [complete, locatedFrom, feedAll, finish, Token.ofWord, text]
    cases Lexeme.ofWord (String.ofList cs) <;> rfl
  | cons c rest =>
    have hc : isWordChar c = false := ends c rfl
    simp only [complete, locatedFrom, feedAll, feed, hc, Token.ofWord, text]
    cases Lexeme.ofWord (String.ofList cs) <;> rfl

/-- The lexer reads a lexeme from the characters that it is written with. -/
theorem complete_writtenAs {lexeme : Lexeme} {chars rest : List Char}
    (h : lexeme.WrittenAs rest chars) :
    complete source ⟨.between, tokens⟩ p (chars ++ rest) =
      complete source ⟨.between, ⟨lexeme, .over source p chars⟩ :: tokens⟩ (p.after chars)
        rest := by
  cases h with
  | mark hc =>
    refine complete_cons source p _ ?_ rest
    simp [feed, start, hc, emit, Span.over]
  | word nonempty all read ends =>
    rw [complete_word source tokens p nonempty all ends, read]
  | @string cs none =>
    have read := feedAll_concat source p (feedAll_string source tokens p none) '"'
    rw [List.cons_append] at read
    rw [complete_append source p _ read]
    simp [emit, textOf, Span.over_enclosed]
  | @comment cs none =>
    have read := feedAll_concat source p (feedAll_comment source tokens p none) '\n'
    rw [List.cons_append] at read
    rw [complete_append source p _ read]
    simp [emit, textOf, Span.over_enclosed]
  | @lastComment cs none ends =>
    subst ends
    rw [complete_append source p _ (feedAll_comment source tokens p none)]
    simp [complete, locatedFrom, feedAll, finish, textOf, Span.over]

/-- A quote that is never closed is the fault of the text. -/
theorem complete_unclosed {cs : List Char} (h : '"' ∉ cs) :
    complete source ⟨.between, tokens⟩ p ('"' :: cs) =
      .error ⟨.unclosedString, [⟨p, p, source⟩]⟩ := by
  simp only [complete, feedAll_string source tokens p h, finish]

end Lexer

/-! ### The course of reading -/

/-- The course that reading a text takes: token after token, to the end of the text or to a
fault. -/
inductive Course : List Char → Prop where
  | nothing : Course []
  | separator {c : Char} {cs : List Char} : isSeparator c = true → Course cs → Course (c :: cs)
  | token {lexeme : Lexeme} {chars rest : List Char} : lexeme.WrittenAs rest chars → Course rest →
      Course (chars ++ rest)
  | unclosed {cs : List Char} : '"' ∉ cs → Course ('"' :: cs)
  | overflow {cs rest : List Char} {cause : Cause} : cs ≠ [] → (∀ c ∈ cs, isWordChar c = true) →
      (∀ c ∈ rest.head?, isWordChar c = false) →
      Lexeme.ofWord (String.ofList cs) = .error cause → Course (cs ++ rest)

/-- The characters up to the first one that is `d`. -/
theorem eq_append_or_not_mem (d : Char) (cs : List Char) :
    (∃ xs ys, cs = xs ++ d :: ys ∧ d ∉ xs) ∨ d ∉ cs := by
  by_cases h : d ∈ cs
  · exact .inl (List.eq_append_cons_of_mem h)
  · exact .inr h

/-- The word that a text begins with, as long as it can be. -/
theorem exists_word {c : Char} (h : isWordChar c = true) (cs : List Char) :
    ∃ word rest, c :: cs = word ++ rest ∧ word ≠ [] ∧ (∀ d ∈ word, isWordChar d = true) ∧
      ∀ d ∈ rest.head?, isWordChar d = false := by
  refine ⟨(c :: cs).takeWhile isWordChar, (c :: cs).dropWhile isWordChar,
    List.takeWhile_append_dropWhile.symm, by simp [h], List.all_eq_true.mp List.all_takeWhile, ?_⟩
  intro d hd
  have stops := List.head?_dropWhile_not isWordChar (c :: cs)
  rw [Option.mem_def.mp hd] at stops
  exact stops

/-- Reading never takes another course. -/
theorem course (cs : List Char) : Course cs := by
  -- whatever a text begins with, what follows is shorter
  induction length : cs.length using Nat.strongRecOn generalizing cs with
  | ind n ih =>
    subst length
    have token {lexeme : Lexeme} {chars rest : List Char} (whole : cs = chars ++ rest)
        (written : lexeme.WrittenAs rest chars) : Course cs := by
      have some := List.length_pos_iff.mpr written.ne_nil
      have shorter : rest.length < cs.length := by
        rw [whole, List.length_append]
        omega
      exact whole ▸ .token written (ih _ shorter rest rfl)
    cases cs with
    | nil => exact .nothing
    | cons c cs =>
      by_cases word : isWordChar c = true
      · obtain ⟨word, rest, whole, nonempty, all, ends⟩ := exists_word word cs
        cases read : Lexeme.ofWord (String.ofList word) with
        | ok lexeme => exact token whole (.word nonempty all read ends)
        | error cause => exact whole ▸ .overflow nonempty all ends read
      by_cases separator : isSeparator c = true
      · exact .separator separator (ih _ (by simp) cs rfl)
      cases mark : mark? c with
      | some lexeme => exact token (List.singleton_append.symm) (.mark mark)
      | none =>
        have opens : c = '"' ∨ c = '#' := by
          by_contra other
          simp only [not_or] at other
          simp [isWordChar, separator, mark, other] at word
        rcases opens with rfl | rfl
        · rcases eq_append_or_not_mem '"' cs with ⟨xs, ys, rfl, none⟩ | none
          · have whole : '"' :: (xs ++ '"' :: ys) = '"' :: (xs ++ ['"']) ++ ys := by simp
            exact token whole (.string none)
          · exact .unclosed none
        · rcases eq_append_or_not_mem '\n' cs with ⟨xs, ys, rfl, none⟩ | none
          · have whole : '#' :: (xs ++ '\n' :: ys) = '#' :: (xs ++ ['\n']) ++ ys := by simp
            exact token whole (.comment none)
          · exact token (by simp) (.lastComment none rfl)

namespace Layout

variable {source : Option Source} {p : Position} {cs : List Char} {tokens : List Token}

/-- The lexer reads the tokens that a text is laid out in. -/
theorem complete_eq (h : Layout source p cs tokens) (found : List Token) :
    Lexer.complete source ⟨.between, found⟩ p cs = .ok (found.reverse ++ tokens) := by
  induction h generalizing found with
  | nil p => simp [Lexer.complete, locatedFrom, Lexer.feedAll, Lexer.finish]
  | separator hc _ ih => rw [Lexer.complete_separator source found _ hc, ih]
  | token written _ ih => simp [Lexer.complete_writtenAs source found _ written, ih]

/-- A text that the lexer accepts is laid out in the tokens that it reads. -/
theorem of_complete {found all : List Token}
    (h : Lexer.complete source ⟨.between, found⟩ p cs = .ok all) :
    ∃ tokens, all = found.reverse ++ tokens ∧ Layout source p cs tokens := by
  induction course cs generalizing p found with
  | nothing => exact ⟨[], by simpa using (Except.ok.inj h).symm, .nil p⟩
  | separator hc _ ih =>
    rw [Lexer.complete_separator source found p hc] at h
    obtain ⟨tokens, rfl, laid⟩ := ih h
    exact ⟨tokens, rfl, .separator hc laid⟩
  | token written _ ih =>
    rw [Lexer.complete_writtenAs source found p written] at h
    obtain ⟨tokens, rfl, laid⟩ := ih h
    exact ⟨_, by simp, .token written laid⟩
  | unclosed none => simp [Lexer.complete_unclosed source found p none] at h
  | overflow nonempty all ends read =>
    simp [Lexer.complete_word source found p nonempty all ends, read] at h

end Layout

/-- The lexer finds exactly the tokens that a text is laid out in. -/
theorem scan_eq_ok_iff {text : String} {source : Option Source} {tokens : List Token} :
    Token.scan text source = .ok tokens ↔ Layout source .start text.toList tokens := by
  constructor
  · intro h
    have completes : Lexer.complete source {} .start text.toList = .ok tokens := h
    obtain ⟨found, rfl, laid⟩ := Layout.of_complete completes
    exact laid
  · intro h
    exact h.complete_eq []

theorem Lexeme.kind_of_ofWord {word : String} {cause : Cause}
    (h : Lexeme.ofWord word = .error cause) (sound : ¬cause.isDefect) : cause.kind = "Syntax" := by
  simp only [Lexeme.ofWord] at h
  split at h
  · cases h
  · split at h
    · split_ifs at h
      · obtain rfl := Except.error.inj h
        exact absurd rfl sound
      · obtain rfl := Except.error.inj h
        rfl
    · cases h

theorem Lexer.kind_of_complete {source : Option Source} {p : Position} {cs : List Char}
    {found : List Token} {fault : Fault}
    (h : Lexer.complete source ⟨.between, found⟩ p cs = .error fault) (sound : ¬fault.isDefect) :
    fault.cause.kind = "Syntax" := by
  induction course cs generalizing p found with
  | nothing => cases h
  | separator hc _ ih => exact ih (by rwa [Lexer.complete_separator source found p hc] at h)
  | token written _ ih => exact ih (by rwa [Lexer.complete_writtenAs source found p written] at h)
  | unclosed none =>
    rw [Lexer.complete_unclosed source found p none] at h
    obtain rfl := Except.error.inj h
    rfl
  | overflow nonempty all ends read =>
    rw [Lexer.complete_word source found p nonempty all ends, read] at h
    obtain rfl := Except.error.inj h
    exact Lexeme.kind_of_ofWord read sound

/-- A text without tokens has a fault of syntax, unless the interpreter fails. -/
theorem kind_of_scan {text : String} {source : Option Source} {fault : Fault}
    (h : Token.scan text source = .error fault) (sound : ¬fault.isDefect) :
    fault.cause.kind = "Syntax" := by
  have fails : Lexer.complete source {} .start text.toList = .error fault := h
  exact Lexer.kind_of_complete fails sound

namespace Layout

variable {source : Option Source} {p : Position} {cs : List Char} {tokens : List Token}

/-- A layout can be taken apart at each of its tokens. -/
theorem split {before later : List Token} {token : Token}
    (h : Layout source p cs (before ++ token :: later)) :
    ∃ xs chars rest, cs = xs ++ (chars ++ rest) ∧ token.lexeme.WrittenAs rest chars ∧
      token.span = .over source (p.after xs) chars ∧
      Layout source ((p.after xs).after chars) rest later := by
  generalize all : before ++ token :: later = tokens at h
  induction h generalizing before with
  | nil p => simp at all
  | @separator p c cs tokens hc _ ih =>
    obtain ⟨xs, chars, rest, rfl, written, place, laid⟩ := ih all
    exact ⟨c :: xs, chars, rest, rfl, written, place, laid⟩
  | @token p lexeme chars rest tokens written laid ih =>
    cases before with
    | nil =>
      obtain ⟨rfl, rfl⟩ := List.cons.inj all
      exact ⟨[], chars, rest, rfl, written, rfl, laid⟩
    | cons first before =>
      obtain ⟨-, others⟩ := List.cons.inj all
      obtain ⟨xs, chars', rest', rfl, written', place, laid'⟩ := ih others
      refine ⟨chars ++ xs, chars', rest', by simp, written', ?_, ?_⟩
      · rw [place, Position.after_append]
      · rw [Position.after_append]
        exact laid'

/-- A layout can be cut off behind each of its tokens. -/
theorem front {before later : List Token} {token : Token}
    (h : Layout source p cs (before ++ token :: later)) :
    ∃ ys zs, cs = ys ++ zs ∧ ys ≠ [] ∧ token.span.last = p.after ys.dropLast ∧
      Layout source p ys (before ++ [token]) := by
  generalize all : before ++ token :: later = tokens at h
  induction h generalizing before with
  | nil p => simp at all
  | @separator p c cs tokens hc _ ih =>
    obtain ⟨ys, zs, rfl, nonempty, last, laid⟩ := ih all
    refine ⟨c :: ys, zs, rfl, by simp, ?_, .separator hc laid⟩
    rw [last, List.dropLast_cons_of_ne_nil nonempty]
    rfl
  | @token p lexeme chars rest tokens written _ ih =>
    cases before with
    | nil =>
      obtain ⟨rfl, rfl⟩ := List.cons.inj all
      refine ⟨chars, rest, rfl, written.ne_nil, rfl, ?_⟩
      have written : lexeme.WrittenAs ([] ++ rest) chars := written
      simpa using Layout.token written.take (.nil _)
    | cons first before =>
      obtain ⟨rfl, others⟩ := List.cons.inj all
      obtain ⟨ys, zs, rfl, nonempty, last, laid⟩ := ih others
      refine ⟨chars ++ ys, zs, by simp, by simp [nonempty], ?_, .token written.take laid⟩
      rw [last, List.dropLast_append_of_ne_nil nonempty, Position.after_append]

/-- The same characters somewhere else are the same tokens there. -/
theorem moved (h : Layout source p cs tokens) (source' : Option Source) (p' : Position) :
    ∃ tokens', Layout source' p' cs tokens' ∧
      tokens.map Token.lexeme = tokens'.map Token.lexeme := by
  induction h generalizing p' with
  | nil p => exact ⟨[], .nil p', rfl⟩
  | @separator p c cs tokens hc _ ih =>
    obtain ⟨tokens', laid, same⟩ := ih (p'.next c)
    exact ⟨tokens', .separator hc laid, same⟩
  | @token p lexeme chars rest tokens written _ ih =>
    obtain ⟨tokens', laid, same⟩ := ih (p'.after chars)
    exact ⟨_, .token written laid, by simp [same]⟩

theorem le_first (h : Layout source p cs tokens) : ∀ t ∈ tokens, p ≤ t.span.first := by
  intro t ht
  obtain ⟨before, later, rfl⟩ := List.append_of_mem ht
  obtain ⟨xs, chars, rest, -, -, place, -⟩ := h.split
  rw [place]
  exact p.le_after xs

/-- No token starts before the ones before it end. -/
theorem disjoint (h : Layout source p cs tokens) :
    tokens.Pairwise fun earlier later => earlier.span.last < later.span.first := by
  induction h with
  | nil p => exact .nil
  | separator _ _ ih => exact ih
  | @token p lexeme chars rest tokens written laid ih =>
    refine .cons (fun t ht => ?_) ih
    exact Position.lt_of_lt_of_le (p.after_dropLast_lt written.ne_nil) (laid.le_first t ht)

/-- Every character belongs to a token or is white space. -/
theorem covers (h : Layout source p cs tokens) {q : Position} {c : Char}
    (hq : (q, c) ∈ locatedFrom p cs) :
    isSeparator c = true ∨ ∃ t ∈ tokens, t.span.Contains q := by
  induction h with
  | nil p => cases hq
  | separator hc _ ih =>
    rcases List.mem_cons.mp hq with same | hq
    · obtain ⟨rfl, rfl⟩ := Prod.mk.inj same
      exact .inl hc
    · exact ih hq
  | @token p lexeme chars rest tokens written _ ih =>
    rw [locatedFrom_append] at hq
    rcases List.mem_append.mp hq with hq | hq
    · exact .inr ⟨_, List.mem_cons_self, contains_over source (List.mem_map_of_mem hq)⟩
    · rcases ih hq with blank | ⟨t, ht, inside⟩
      · exact .inl blank
      · exact .inr ⟨t, List.mem_cons_of_mem _ ht, inside⟩

end Layout

/-! ### What the lexer finds -/

/-- The text that the span of a token encloses is what the token was read from. A comment takes the
newline that ends it, if the text does not end before. -/
def Token.IsWrittenIn (text : String) (token : Token) : Prop :=
  match token.lexeme with
  | .opening => extract text token.span = some "("
  | .closing => extract text token.span = some ")"
  | .comma => extract text token.span = some ","
  | .name name => extract text token.span = some name
  | .atom (.string value) => extract text token.span = some ("\"" ++ value ++ "\"")
  | .atom value => ∃ word, extract text token.span = some word ∧
      (∀ c ∈ word.toList, isWordChar c = true) ∧ Lexeme.ofWord word = .ok (.atom value)
  | .comment comment => '\n' ∉ comment.toList ∧
      (extract text token.span = some ("#" ++ comment ++ "\n") ∨
        extract text token.span = some ("#" ++ comment) ∧
          (positions text).getLast? = some token.span.last)

/-- A word is a name, or it stands for a value that is no string. -/
theorem Lexeme.ofWord_cases {word : String} {lexeme : Lexeme}
    (h : Lexeme.ofWord word = .ok lexeme) :
    lexeme = .name word ∨ ∃ value, lexeme = .atom value ∧ ∀ s, value ≠ .string s := by
  rw [Lexeme.ofWord] at h
  cases hk : keyword? word with
  | some value =>
    simp only [hk, Except.ok.injEq] at h
    refine .inr ⟨value, h.symm, ?_⟩
    rintro s rfl
    simp only [keyword?] at hk
    split_ifs at hk <;> cases hk
  | none =>
    simp only [hk] at h
    cases hd : Decimal.ofText? word with
    | some n =>
      simp only [hd] at h
      split_ifs at h
      exact .inr ⟨.int n, (Except.ok.inj h).symm, by simp⟩
    | none =>
      simp only [hd, Except.ok.injEq] at h
      exact .inl h.symm

theorem mark?_cases {c : Char} {lexeme : Lexeme} (h : mark? c = some lexeme) :
    c = '(' ∧ lexeme = .opening ∨ c = ')' ∧ lexeme = .closing ∨ c = ',' ∧ lexeme = .comma := by
  simp only [mark?] at h
  split_ifs at h with opening closing comma
  · exact .inl ⟨opening, (Option.some.inj h).symm⟩
  · exact .inr (.inl ⟨closing, (Option.some.inj h).symm⟩)
  · exact .inr (.inr ⟨comma, (Option.some.inj h).symm⟩)

theorem Layout.isWrittenIn {text : String} {source : Option Source} {tokens : List Token}
    (h : Layout source .start text.toList tokens) : ∀ t ∈ tokens, t.IsWrittenIn text := by
  intro t ht
  obtain ⟨before, later, rfl⟩ := List.append_of_mem ht
  obtain ⟨xs, chars, rest, whole, written, place, -⟩ := h.split
  obtain ⟨lexeme, span⟩ := t
  obtain rfl : span = .over source (Position.after .start xs) chars := place
  have enclosed : extract text (.over source (Position.after .start xs) chars) =
      some (String.ofList chars) :=
    extract_passage whole written.ne_nil rfl rfl
  simp only [Token.IsWrittenIn, enclosed]
  cases written with
  | mark hc =>
    rcases mark?_cases hc with ⟨rfl, rfl⟩ | ⟨rfl, rfl⟩ | ⟨rfl, rfl⟩ <;> rfl
  | word nonempty all read ends =>
    rcases Lexeme.ofWord_cases read with rfl | ⟨value, rfl, other⟩
    · rfl
    · have word : ∀ c ∈ (String.ofList chars).toList, isWordChar c = true := by simpa using all
      cases value with
      | string s => exact absurd rfl (other s)
      | _ => exact ⟨_, rfl, word, read⟩
  | string none => simp [String.append_assoc]
  | comment none => simp [String.append_assoc, none]
  | lastComment none ends =>
    rw [ends, List.append_nil] at whole
    simp [none, getLast?_positions whole, Span.over]

/-- The lexer is lossless: tokens stand one after the other, nothing but white space is outside of
them, and the text of each of them is what it was read from. -/
theorem scan_lossless {text : String} {source : Option Source} {tokens : List Token}
    (h : Token.scan text source = .ok tokens) :
    (∀ t ∈ tokens, t.span.first ≤ t.span.last) ∧
      (tokens.Pairwise fun earlier later => earlier.span.last < later.span.first) ∧
      (∀ p c, (p, c) ∈ located text → (∀ t ∈ tokens, ¬ t.span.Contains p) →
        c = ' ' ∨ c = '\t' ∨ c = '\r' ∨ c = '\n') ∧
      ∀ t ∈ tokens, t.IsWrittenIn text := by
  have laid := scan_eq_ok_iff.mp h
  refine ⟨?_, laid.disjoint, ?_, laid.isWrittenIn⟩
  · intro t ht
    obtain ⟨before, later, rfl⟩ := List.append_of_mem ht
    obtain ⟨xs, chars, rest, -, -, place, -⟩ := laid.split
    rw [place]
    exact Position.le_after _ _
  · intro p c hp outside
    rcases laid.covers hp with blank | ⟨t, ht, inside⟩
    · simpa [isSeparator, or_assoc] using blank
    · exact absurd inside (outside t ht)

/-- A text in which tokens touch each other, with a string over two lines and a comment at the
end. -/
def crowded : String := "f\"a\n(\"# x,\n+07\t)# end"

/-- The tokens of the crowded text stand at these places and were read from there. -/
theorem scan_lossless_crowded : ∃ tokens, Token.scan crowded = .ok tokens ∧
    tokens.map Token.span =
      [⟨⟨1, 1⟩, ⟨1, 1⟩, none⟩, ⟨⟨1, 2⟩, ⟨2, 2⟩, none⟩, ⟨⟨2, 3⟩, ⟨2, 7⟩, none⟩,
        ⟨⟨3, 1⟩, ⟨3, 3⟩, none⟩, ⟨⟨3, 5⟩, ⟨3, 5⟩, none⟩, ⟨⟨3, 6⟩, ⟨3, 10⟩, none⟩] ∧
    (tokens.Pairwise fun earlier later => earlier.span.last < later.span.first) ∧
    ∀ t ∈ tokens, t.IsWrittenIn crowded := by
  have read : (Token.scan crowded).map (List.map Token.span) = .ok
      [⟨⟨1, 1⟩, ⟨1, 1⟩, none⟩, ⟨⟨1, 2⟩, ⟨2, 2⟩, none⟩, ⟨⟨2, 3⟩, ⟨2, 7⟩, none⟩,
        ⟨⟨3, 1⟩, ⟨3, 3⟩, none⟩, ⟨⟨3, 5⟩, ⟨3, 5⟩, none⟩, ⟨⟨3, 6⟩, ⟨3, 10⟩, none⟩] := by
    cbv
  cases scanned : Token.scan crowded with
  | error fault => simp [scanned, Except.map] at read
  | ok tokens =>
    rw [scanned] at read
    obtain ⟨-, disjoint, -, written⟩ := scan_lossless scanned
    exact ⟨tokens, rfl, Except.ok.inj read, disjoint, written⟩

end CallLang
