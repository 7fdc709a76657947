import CallLang.Diagnostic
import CallLang.Proofs.Coordinates

/-!
# Diagnostics point at tokens

An excerpt shows the line on which a token starts, with the token marked in it and below it
(`excerpt_marks_token`). Three notions of lines have to agree here: positions count newlines, a
source is split at them, and the carriage returns before them do not belong to the line.

The line around a place consists of what stands before the place since the last newline and of what
stands after it up to the next one (`Source.line_start_after`). A token starts with a character that
is not white space, so it is never lost with the carriage returns; but it may go on after the line,
like a string over several lines, or end with the newline, like a comment, or with carriage returns.
What is shown of it is `onLine`.
-/

namespace CallLang

/-! ### Lines -/

theorem splitLines_eq_splitOn (cs : List Char) : splitLines cs = cs.splitOn '\n' := by
  induction cs with
  | nil => rfl
  | cons c cs ih =>
    rw [splitLines, ih, List.splitOn_cons_eq_if_modifyHead]
    by_cases hc : c = '\n'
    · simp [hc]
    · simp only [hc, if_false, beq_iff_eq]
      cases split : cs.splitOn '\n' with
      | nil => exact absurd split (List.splitOn_ne_nil _ _)
      | cons line lines => rfl

theorem splitLines_pair {xs ys : List Char} (hx : '\n' ∉ xs) (hy : '\n' ∉ ys) :
    splitLines (xs ++ '\n' :: ys) = [xs, ys] := by
  rw [splitLines_eq_splitOn, List.splitOn_append_cons_self_of_not_mem hx,
    List.splitOn_eq_singleton hy]

/-- The characters before the first newline. -/
def firstLine (cs : List Char) : List Char := cs.takeWhile (· ≠ '\n')

/-- The characters after the last newline. -/
def lastLine (cs : List Char) : List Char := cs.rtakeWhile (· ≠ '\n')

theorem head?_splitLines (cs : List Char) : (splitLines cs).head? = some (firstLine cs) := by
  induction cs with
  | nil => rfl
  | cons c cs ih =>
    rw [splitLines, firstLine]
    by_cases hc : c = '\n'
    · simp [hc]
    · obtain ⟨lines, split⟩ := List.head?_eq_some_iff.mp ih
      simp [hc, split, firstLine]

theorem length_splitLines (cs : List Char) : (splitLines cs).length = cs.count '\n' + 1 := by
  induction cs with
  | nil => rfl
  | cons c cs ih =>
    rw [splitLines]
    by_cases hc : c = '\n'
    · simp [hc, ih]
    · obtain ⟨lines, split⟩ := List.head?_eq_some_iff.mp (head?_splitLines cs)
      rw [split] at ih
      simpa [hc, split] using ih

/-- The line around the place after `xs`. -/
theorem getElem?_splitLines (xs ys : List Char) :
    (splitLines (xs ++ ys))[xs.count '\n']? = some (lastLine xs ++ firstLine ys) := by
  induction xs using List.reverseRecOn generalizing ys with
  | nil =>
    have first := head?_splitLines ys
    rwa [List.head?_eq_getElem?] at first
  | append_singleton xs c ih =>
    rw [List.append_assoc, List.singleton_append]
    by_cases hc : c = '\n'
    · subst hc
      have first := head?_splitLines ys
      have before := length_splitLines xs
      rw [splitLines_eq_splitOn] at before
      rw [splitLines_eq_splitOn, List.splitOn_append_cons_self, ← splitLines_eq_splitOn ys,
        List.getElem?_append_right (by simp [before])]
      rw [List.head?_eq_getElem?] at first
      simpa [before, lastLine] using first
    · have onward := ih (c :: ys)
      rw [List.count_append, lastLine, List.rtakeWhile_concat_pos _ _ _ (by simpa using hc)]
      simpa [hc, firstLine, lastLine] using onward

theorem length_lastLine (cs : List Char) : (lastLine cs).length + lineStart cs = cs.length := by
  rw [lastLine, lineStart, Nat.add_comm, ← List.length_append, List.rdropWhile_append_rtakeWhile]

theorem column_start_after (cs : List Char) :
    (Position.start.after cs).column = (lastLine cs).length + 1 := by
  have parts := length_lastLine cs
  simp only [Position.start_after]
  omega

/-! ### Carriage returns -/

theorem dropTrailingReturns_append (xs ys : List Char) :
    dropTrailingReturns (xs ++ ys) =
      if dropTrailingReturns ys = [] then dropTrailingReturns xs
      else xs ++ dropTrailingReturns ys := by
  simp only [dropTrailingReturns, List.reverse_append, List.dropWhile_append, List.isEmpty_iff,
    List.reverse_eq_nil_iff]
  split <;> simp

theorem dropTrailingReturns_cons {c : Char} (h : c ≠ '\r') (cs : List Char) :
    dropTrailingReturns (c :: cs) = c :: dropTrailingReturns cs := by
  rw [← List.singleton_append, dropTrailingReturns_append]
  split
  · rename_i empty
    rw [empty]
    simp [dropTrailingReturns, h]
  · rfl

theorem dropTrailingReturns_concat {c : Char} (h : c ≠ '\r') (cs : List Char) :
    dropTrailingReturns (cs ++ [c]) = cs ++ [c] := by
  simp [dropTrailingReturns, h]

theorem dropTrailingReturns_isPrefix_self (cs : List Char) : dropTrailingReturns cs <+: cs :=
  List.rdropWhile_prefix _ cs

/-- What stands on the line of the first of some characters: those before the first newline, without
the carriage returns at their end. -/
def onLine (cs : List Char) : List Char := dropTrailingReturns (firstLine cs)

theorem newline_not_mem_line (xs ys : List Char) :
    '\n' ∉ dropTrailingReturns (lastLine xs ++ firstLine ys) := by
  intro inside
  rcases List.mem_append.mp ((dropTrailingReturns_isPrefix_self _).subset inside) with before | after
  · simpa using List.mem_rtakeWhile_imp before
  · simpa using List.mem_takeWhile_imp after

/-- The line around the place after `xs`. -/
theorem Source.line_start_after {source : Source} {xs ys : List Char}
    (chars : source.text.toList = xs ++ ys) :
    source.line (Position.start.after xs).line =
      String.ofList (dropTrailingReturns (lastLine xs ++ firstLine ys)) := by
  have line : (Position.start.after xs).line = xs.count '\n' + 1 := by
    rw [Position.line_after, Nat.add_comm]
    rfl
  rw [line, Source.line, chars, getElem?_splitLines]
  rfl

theorem firstLine_append_of_not_mem {xs : List Char} (h : '\n' ∉ xs) (ys : List Char) :
    firstLine (xs ++ ys) = xs ++ firstLine ys := by
  refine List.takeWhile_append_of_pos fun c hc => ?_
  simpa using fun newline : c = '\n' => h (newline ▸ hc)

theorem firstLine_append_of_mem {xs : List Char} (h : '\n' ∈ xs) (ys : List Char) :
    firstLine (xs ++ ys) = firstLine xs := by
  obtain ⟨line, more, rfl, none⟩ := List.eq_append_cons_of_mem h
  rw [List.append_assoc, firstLine_append_of_not_mem none, firstLine_append_of_not_mem none]
  rfl

theorem onLine_of_not_mem {cs : List Char} (h : '\n' ∉ cs) : onLine cs = dropTrailingReturns cs := by
  have whole := firstLine_append_of_not_mem h []
  rw [List.append_nil] at whole
  rw [onLine, whole]
  simp [firstLine]

theorem length_onLine_le (cs : List Char) : (onLine cs).length ≤ cs.length :=
  ((dropTrailingReturns_isPrefix_self _).trans (List.takeWhile_prefix _)).length_le

/-! ### The line of a token -/

namespace Lexeme.WrittenAs

variable {lexeme : Lexeme} {chars rest : List Char}

/-- Something of a token is on the line where it starts. -/
theorem onLine_ne_nil (h : lexeme.WrittenAs rest chars) : onLine chars ≠ [] := by
  have of_first {c : Char} (cs : List Char) (newline : c ≠ '\n') (return' : c ≠ '\r') :
      onLine (c :: cs) ≠ [] := by
    have first : firstLine (c :: cs) = c :: firstLine cs := by simp [firstLine, newline]
    rw [onLine, first, dropTrailingReturns_cons return']
    exact List.cons_ne_nil _ _
  cases h with
  | mark mark =>
    rcases mark?_cases mark with ⟨rfl, -⟩ | ⟨rfl, -⟩ | ⟨rfl, -⟩ <;>
      exact of_first [] (by decide) (by decide)
  | word nonempty all _ _ =>
    obtain ⟨c, cs, rfl⟩ := List.exists_cons_of_ne_nil nonempty
    have word : isWordChar c = true := all c List.mem_cons_self
    refine of_first cs ?_ ?_ <;> rintro rfl <;> exact absurd word (by decide)
  | string _ | comment _ | lastComment _ _ => exact of_first _ (by decide) (by decide)

/-- A token that something follows does not end with a carriage return. -/
theorem onLine_eq_self (h : lexeme.WrittenAs rest chars) (line : '\n' ∉ chars) (more : rest ≠ []) :
    onLine chars = chars := by
  rw [onLine_of_not_mem line]
  cases h with
  | mark mark =>
    rcases mark?_cases mark with ⟨rfl, -⟩ | ⟨rfl, -⟩ | ⟨rfl, -⟩ <;> rfl
  | word nonempty all _ _ =>
    have word : isWordChar (chars.getLast nonempty) = true := all _ (List.getLast_mem nonempty)
    rw [← List.dropLast_append_getLast nonempty]
    refine dropTrailingReturns_concat ?_ _
    intro last
    rw [last] at word
    cases word
  | @string cs _ => exact dropTrailingReturns_concat (by decide) ('"' :: cs)
  | comment _ => simp at line
  | lastComment _ ends => exact absurd ends more

/-- The line on which a token starts consists of what stands before the token, of the token as far
as it is on this line, and of what stands after it, if it ends there. -/
theorem exists_line (h : lexeme.WrittenAs rest chars) (before : List Char) :
    ∃ after, dropTrailingReturns (before ++ firstLine (chars ++ rest)) =
        before ++ (onLine chars ++ after) ∧
      (after = [] ∨ '\n' ∉ chars ∧ onLine chars = chars) := by
  have some := h.onLine_ne_nil
  by_cases newline : '\n' ∈ chars
  · refine ⟨[], ?_, .inl rfl⟩
    rw [firstLine_append_of_mem newline, dropTrailingReturns_append, List.append_nil]
    exact if_neg some
  · rw [firstLine_append_of_not_mem newline, dropTrailingReturns_append,
      dropTrailingReturns_append chars, ← onLine_of_not_mem newline]
    by_cases blank : dropTrailingReturns (firstLine rest) = []
    · refine ⟨[], ?_, .inl rfl⟩
      rw [if_pos blank, if_neg some, List.append_nil]
    · have more : rest ≠ [] := by
        rintro rfl
        exact blank rfl
      have whole := h.onLine_eq_self newline more
      refine ⟨dropTrailingReturns (firstLine rest), ?_, .inr ⟨newline, whole⟩⟩
      rw [if_neg blank, if_neg (by simp [blank]), whole]

end Lexeme.WrittenAs

namespace Diagnostic

/-! ### Colours -/

/-- Codes for a terminal, one after the other: each of them is an escape character, a bracket,
numbers with semicolons between them, and the letter `m`. -/
inductive Codes : List Char → Prop where
  | nil : Codes []
  | code (numbers : List Char) {rest : List Char} : (∀ c ∈ numbers, c.isDigit ∨ c = ';') →
      Codes rest → Codes ('\x1b' :: '[' :: (numbers ++ 'm' :: rest))

/-- A colouring puts codes before and after a text and keeps the text as it is. -/
def Wraps (colour : String → String) : Prop :=
  ∀ text, ∃ opening closing : List Char, Codes opening ∧ Codes closing ∧
    (colour text).toList = opening ++ (text.toList ++ closing)

theorem Codes.newline_not_mem {cs : List Char} (h : Codes cs) : '\n' ∉ cs := by
  induction h with
  | nil => exact List.not_mem_nil
  | code numbers digits _ ih =>
    have none : '\n' ∉ numbers := fun inside => absurd (digits _ inside) (by decide)
    simp [none, ih]

theorem Wraps.newline_not_mem {colour : String → String} (h : Wraps colour) {text : String}
    (line : '\n' ∉ text.toList) : '\n' ∉ (colour text).toList := by
  obtain ⟨opening, closing, before, after, whole⟩ := h text
  rw [whole]
  simp [before.newline_not_mem, after.newline_not_mem, line]

theorem Palette.wraps_terminal (severity : Severity) : Wraps (terminal.paint severity) := by
  intro text
  have digits : ∀ c ∈ (toString severity.colour).toList, c.isDigit ∨ c = ';' := by
    intro c hc
    have digit : c ∈ Nat.toDigits 10 severity.colour := by simpa using hc
    exact .inl (Nat.isDigit_of_mem_toDigits (by decide) (by decide) digit)
  refine ⟨_, _, .code ['1'] (by simp) (.code _ digits .nil), .code ['0'] (by simp) .nil, ?_⟩
  simp [terminal, escape]

/-! ### Excerpts -/

/-- A line is divided at the ends of what is marked in it. -/
theorem divide_eq {before marked after : List Char} {span : Span}
    (column : span.first.column = before.length + 1) (nonempty : marked ≠ [])
    (stop : min (if span.last.line = span.first.line then span.last.column
        else (before ++ (marked ++ after)).length) (before ++ (marked ++ after)).length =
      before.length + marked.length) :
    divide (before ++ (marked ++ after)) span = ⟨before, marked, after, marked.length⟩ := by
  have some := List.length_pos_iff.mpr nonempty
  have count : max (before.length + marked.length) (before.length + 1) - before.length =
      marked.length := by omega
  simp only [divide, column, stop, count]
  rw [← List.drop_drop, List.take_left, List.drop_left, List.take_left, List.drop_left]

/-- A token is marked as far as it is on the line where it starts. -/
theorem divide_over (source : Option Source) (xs : List Char) {lexeme : Lexeme}
    {chars rest : List Char} (h : lexeme.WrittenAs rest chars) :
    ∃ after, dropTrailingReturns (lastLine xs ++ firstLine (chars ++ rest)) =
        lastLine xs ++ (onLine chars ++ after) ∧
      divide (lastLine xs ++ (onLine chars ++ after)) (.over source (.after .start xs) chars) =
        ⟨lastLine xs, onLine chars, after, (onLine chars).length⟩ := by
  obtain ⟨after, line, ends⟩ := h.exists_line (lastLine xs)
  have column := column_start_after xs
  have within := length_onLine_le chars
  have some := List.length_pos_iff.mpr h.ne_nil
  refine ⟨after, line, divide_eq column h.onLine_ne_nil ?_⟩
  have sameLine : ((Position.start.after xs).after chars.dropLast).line =
      (Position.start.after xs).line ↔ '\n' ∉ chars.dropLast := by
    rw [Position.line_after, Nat.add_eq_left, List.count_eq_zero]
  simp only [Span.over, sameLine, List.length_append]
  rcases ends with rfl | ⟨none, whole⟩
  · split
    · rename_i none
      rw [Position.column_after_of_not_mem _ none, column, List.length_dropLast, List.length_nil]
      omega
    · simp
  · have none : '\n' ∉ chars.dropLast := fun h => none (List.mem_of_mem_dropLast h)
    rw [if_pos none, Position.column_after_of_not_mem _ none, column, List.length_dropLast, whole]
    omega

/-- An excerpt points at its token. It has two lines, both indented by four spaces. The first one is
the line of the source on which the token starts. Coloured in it is the token, as far as it is on
this line: it always is in part, but carriage returns at the end of the line are not shown. In the
second line as many marks stand below what is coloured. -/
theorem excerpt_marks_token {source : Source} {tokens : List Token}
    (scanned : Token.scan source.text (some source) = .ok tokens) {token : Token}
    (ht : token ∈ tokens) {colour : String → String} (wraps : Wraps colour) :
    ∃ before marked after text : String,
      splitLines (excerptWith colour source token.span).toList =
        [("    " ++ before ++ colour marked ++ after).toList,
          ("    " ++ String.ofList (List.replicate (token.span.first.column - 1) ' ') ++
            colour (String.ofList ('^' :: List.replicate (marked.length - 1) '~'))).toList] ∧
      before ++ marked ++ after = source.line token.span.first.line ∧
      before.length = token.span.first.column - 1 ∧
      marked ≠ "" ∧
      extract source.text token.span = some text ∧
      marked = String.ofList ((text.toList.takeWhile (· ≠ '\n')).rdropWhile (· == '\r')) := by
  have laid := scan_eq_ok_iff.mp scanned
  obtain ⟨earlier, later, rfl⟩ := List.append_of_mem ht
  obtain ⟨xs, chars, rest, whole, written, place, -⟩ := laid.split
  obtain ⟨after, divided, parts⟩ := divide_over (some source) xs written
  have line : source.line token.span.first.line =
      String.ofList (lastLine xs ++ (onLine chars ++ after)) := by
    rw [place, ← divided]
    exact Source.line_start_after whole
  have column : token.span.first.column = (lastLine xs).length + 1 := by
    rw [place]
    exact column_start_after xs
  have newline : '\n' ∉ lastLine xs ++ (onLine chars ++ after) := by
    rw [← divided]
    exact newline_not_mem_line xs _
  simp only [List.mem_append, not_or] at newline
  refine ⟨String.ofList (lastLine xs), String.ofList (onLine chars), String.ofList after,
    String.ofList chars, ?_, ?_, ?_, ?_, ?_, ?_⟩
  · have painted : '\n' ∉ (colour (String.ofList (onLine chars))).toList :=
      wraps.newline_not_mem (by simpa using newline.2.1)
    have marks : '\n' ∉
        (colour (String.ofList ('^' :: List.replicate ((onLine chars).length - 1) '~'))).toList :=
      wraps.newline_not_mem (by simp)
    rw [String.length_ofList, ← splitLines_pair (by simp [newline, painted]) (by simpa using marks)]
    simp [excerptWith, line, place ▸ parts]
  · rw [line, ← String.ofList_append, ← String.ofList_append, List.append_assoc]
  · rw [column, String.length_ofList, Nat.add_sub_cancel]
  · simpa using written.onLine_ne_nil
  · exact extract_passage whole written.ne_nil (by rw [place]; rfl) (by rw [place]; rfl)
  · rw [String.toList_ofList]
    rfl

/-- A source with a string that goes on after its line, which ends with a carriage return. -/
def brokenString : Source := ⟨"broken", "f(\"a\r\nb\")"⟩

/-- Of the string only what is on its first line is coloured, without the carriage return. -/
theorem excerpt_marks_token_broken : ∃ tokens token before after,
    Token.scan brokenString.text (some brokenString) = .ok tokens ∧ token ∈ tokens ∧
    Wraps (Palette.terminal.paint .error) ∧ token.span = ⟨⟨1, 3⟩, ⟨2, 2⟩, some brokenString⟩ ∧
    splitLines (excerpt .terminal .error brokenString token.span).toList =
      [("    " ++ before ++ Palette.terminal.paint .error "\"a" ++ after).toList,
        ("      " ++ Palette.terminal.paint .error "^~").toList] ∧
    before ++ "\"a" ++ after = "f(\"a" ∧ before.length = 2 := by
  let place (first last : Position) : Span := ⟨first, last, some brokenString⟩
  let token : Token := ⟨.atom (.string "a\r\nb"), place ⟨1, 3⟩ ⟨2, 2⟩⟩
  have scanned : Token.scan brokenString.text (some brokenString) = .ok
      [⟨.name "f", place ⟨1, 1⟩ ⟨1, 1⟩⟩, ⟨.opening, place ⟨1, 2⟩ ⟨1, 2⟩⟩, token,
        ⟨.closing, place ⟨2, 3⟩ ⟨2, 3⟩⟩] := by
    cbv
  have member : token ∈ [⟨.name "f", place ⟨1, 1⟩ ⟨1, 1⟩⟩, ⟨.opening, place ⟨1, 2⟩ ⟨1, 2⟩⟩, token,
      ⟨.closing, place ⟨2, 3⟩ ⟨2, 3⟩⟩] := by
    simp
  have enclosed : extract brokenString.text token.span = some "\"a\r\nb\"" := by
    cbv
  obtain ⟨before, marked, after, text, lines, line, width, -, found, rfl⟩ :=
    excerpt_marks_token scanned member (Palette.wraps_terminal .error)
  obtain rfl := Option.some.inj (enclosed.symm.trans found)
  exact ⟨_, token, before, after, scanned, member, Palette.wraps_terminal .error, rfl, lines, line,
    width⟩

end Diagnostic

end CallLang
