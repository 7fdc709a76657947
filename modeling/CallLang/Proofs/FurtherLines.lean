import CallLang.Proofs.Unreadable

/-!
# Texts that go on on the next line

A newline ends everything that the end of a text would end. So if a text can be read, the lexer reads
what stands on the lines after it as if it stood alone, only further down (`scan_append_line`).

Two things happen at the newline. A comment on the last line of the text now ends with the newline
(`Token.endedAt`), and the lexer goes on between tokens at the start of a line. From there it does
the same as at the start of a text, on other lines (`Lexer.complete_down`).
-/

namespace CallLang

/-! ### Places further down -/

/-- The position `n` lines further down. -/
def Position.down (n : Nat) (p : Position) : Position := ⟨p.line + n, p.column⟩

/-- The region `n` lines further down. -/
def Span.down (n : Nat) (span : Span) : Span :=
  ⟨span.first.down n, span.last.down n, span.source⟩

/-- The same token `n` lines further down. -/
def Token.down (n : Nat) (token : Token) : Token := ⟨token.lexeme, token.span.down n⟩

/-- The same fault `n` lines further down. -/
def Fault.down (n : Nat) (fault : Fault) : Fault :=
  ⟨fault.cause, fault.backtrace.map (Span.down n)⟩

namespace Position

theorem next_down (n : Nat) (p : Position) (c : Char) : (p.down n).next c = (p.next c).down n := by
  by_cases hc : c = '\n'
  · subst hc
    simp [down, Nat.add_right_comm]
  · simp [down, next_of_ne _ hc]

theorem after_down (n : Nat) (p : Position) (cs : List Char) :
    (p.down n).after cs = (p.after cs).down n := by
  induction cs generalizing p with
  | nil => rfl
  | cons c cs ih => rw [after_cons, next_down, ih, after_cons]

end Position

theorem Span.over_down (n : Nat) (source : Option Source) (p : Position) (cs : List Char) :
    Span.over source (p.down n) cs = (Span.over source p cs).down n := by
  rw [Span.over, Position.after_down]
  rfl

theorem Fault.ofText_down (n : Nat) (cause : Cause) (span : Span) :
    Fault.ofText cause (span.down n) = (Fault.ofText cause span).down n := by
  rw [ofText, ofText, down]
  split <;> rfl

/-- The lexer finds the same on other lines, after whatever it has found before. -/
theorem Lexer.complete_down (n : Nat) (source : Option Source) (before found : List Token)
    (p : Position) (cs : List Char) :
    complete source ⟨.between, found.map (Token.down n) ++ before⟩ (p.down n) cs =
      ((complete source ⟨.between, found⟩ p cs).map
        fun tokens => before.reverse ++ tokens.map (Token.down n)).mapError (Fault.down n) := by
  induction course cs generalizing p found with
  | nothing => simp [complete, locatedFrom, feedAll, finish, Except.map, Except.mapError]
  | separator hc _ ih =>
    rw [complete_separator source _ _ hc, complete_separator source _ _ hc, Position.next_down]
    exact ih found _
  | @token lexeme chars rest written _ ih =>
    rw [complete_writtenAs source _ _ written, complete_writtenAs source _ _ written,
      Position.after_down, Span.over_down]
    exact ih (⟨lexeme, .over source p chars⟩ :: found) _
  | unclosed none =>
    rw [complete_unclosed source _ _ none, complete_unclosed source _ _ none]
    rfl
  | overflow nonempty all ends read =>
    rw [complete_word source _ _ nonempty all ends, complete_word source _ _ nonempty all ends, read,
      Span.over_down]
    exact congrArg Except.error (Fault.ofText_down ..)

/-! ### The newline -/

/-- A token of a text that ends before the position `p`, once a newline stands there. A comment goes
on to the end of its line, so the comment on the last line takes the newline; everything else ends
where it did. -/
def Token.endedAt (p : Position) (token : Token) : Token :=
  match token.lexeme with
  | .comment _ =>
    if token.span.first.line = p.line then ⟨token.lexeme, { token.span with last := p }⟩ else token
  | _ => token

theorem Token.endedAt_eq_self {p : Position} {token : Token}
    (h : ∀ comment, token.lexeme = .comment comment → token.span.first.line ≠ p.line) :
    token.endedAt p = token := by
  obtain ⟨lexeme, span⟩ := token
  cases lexeme with
  | comment text => exact if_neg (h text rfl)
  | _ => rfl

/-- A comment has ended with its line, or it is the last thing of the text. -/
theorem Lexeme.WrittenAs.newline_or_last {lexeme : Lexeme} {chars rest : List Char}
    (h : lexeme.WrittenAs rest chars) :
    (∀ comment, lexeme = .comment comment → '\n' ∈ chars ++ rest) ∨
      rest = [] ∧ ∃ cs, '\n' ∉ cs ∧ chars = '#' :: cs ∧ lexeme = .comment (String.ofList cs) := by
  cases h with
  | mark mark =>
    left
    rcases mark?_cases mark with ⟨-, rfl⟩ | ⟨-, rfl⟩ | ⟨-, rfl⟩ <;> intro comment hc <;> cases hc
  | word _ _ read _ =>
    left
    rcases Lexeme.ofWord_cases read with rfl | ⟨value, rfl, -⟩ <;> intro comment hc <;> cases hc
  | string _ =>
    left
    intro comment hc
    cases hc
  | comment _ => exact .inl fun _ _ => by simp
  | @lastComment cs none ends => exact .inr ⟨ends, cs, none, rfl, rfl⟩

/-- After a text that can be read and a newline, the lexer goes on between tokens. -/
theorem Layout.complete_append_line {source : Option Source} {p : Position} {cs : List Char}
    {tokens : List Token} (h : Layout source p cs tokens) (found : List Token) (ds : List Char) :
    Lexer.complete source ⟨.between, found⟩ p (cs ++ '\n' :: ds) =
      Lexer.complete source ⟨.between, (tokens.map (Token.endedAt (p.after cs))).reverse ++ found⟩
        ((p.after cs).next '\n') ds := by
  induction h generalizing found with
  | nil p => exact Lexer.complete_separator source found p rfl ds
  | @separator p c cs tokens hc _ ih =>
    rw [List.cons_append, Lexer.complete_separator source found p hc, ih]
    rfl
  | @token p lexeme chars rest tokens written laid ih =>
    rcases written.newline_or_last with newline | ⟨rfl, cs, none, rfl, rfl⟩
    · have apart : Apart (chars ++ rest) ('\n' :: ds) := by
        intro c _ d hd _
        obtain rfl := Option.some.inj hd
        decide
      have same : Token.endedAt (p.after (chars ++ rest)) ⟨lexeme, .over source p chars⟩ =
          ⟨lexeme, .over source p chars⟩ := by
        refine Token.endedAt_eq_self fun comment hc => ?_
        have some := List.count_pos_iff.mpr (newline comment hc)
        rw [Position.line_after]
        exact Nat.ne_of_lt (Nat.lt_add_of_pos_right some)
      rw [List.append_assoc,
        Lexer.complete_writtenAs source found p (written.followed apart newline), ih, List.map_cons,
        same, Position.after_append, List.reverse_cons, List.append_assoc, List.singleton_append]
    · -- the comment was ended by the text and is now ended by the newline
      obtain rfl : [] = tokens := Except.ok.inj (laid.complete_eq [])
      have written : (Lexeme.comment (String.ofList cs)).WrittenAs ds ('#' :: (cs ++ ['\n'])) :=
        .comment none
      have whole : '#' :: cs ++ [] ++ '\n' :: ds = '#' :: (cs ++ ['\n']) ++ ds := by simp
      have line : p.line = (p.after ('#' :: cs)).line :=
        (p.line_after_of_not_mem (by simpa using none)).symm
      rw [whole, Lexer.complete_writtenAs source found p written, Span.over_enclosed]
      simp [Token.endedAt, Span.over, line]

theorem Position.next_start_after (cs : List Char) :
    (start.after cs).next '\n' = start.down (1 + cs.count '\n') := by
  rw [next_newline, line_after]
  simp [down, start, Nat.add_comm]

/-- The lexer reads both texts, the second one further down. -/
theorem scan_append_newline {text : String} {source : Option Source} {tokens : List Token}
    (h : Token.scan text source = .ok tokens) (rest : String) :
    Token.scan (text ++ "\n" ++ rest) source =
      ((Token.scan rest source).map fun others =>
        tokens.map (Token.endedAt (.after .start text.toList)) ++
          others.map (Token.down (1 + text.toList.count '\n'))).mapError
        (Fault.down (1 + text.toList.count '\n')) := by
  have chars : (text ++ "\n" ++ rest).toList = text.toList ++ '\n' :: rest.toList := by simp
  have read := (scan_eq_ok_iff.mp h).complete_append_line [] rest.toList
  have lower := Lexer.complete_down (1 + text.toList.count '\n') source
    (tokens.map (Token.endedAt (.after .start text.toList))).reverse [] .start rest.toList
  rw [Position.next_start_after, List.append_nil] at read
  rw [List.map_nil, List.nil_append, List.reverse_reverse] at lower
  rw [Token.scan, located, chars]
  exact read.trans lower

/-- Reading is compositional at newlines. What stands on the lines after a text that can be read is
read as if it stood alone: the tokens of both follow each other, those of the second one on lower
lines, in the same columns, and those of the first one where they were, but for a comment on its
last line, which ends with the newline between the texts. If the second text cannot be read, neither
can both together, for the same cause, in the corresponding place. -/
theorem scan_append_line {text : String} {source : Option Source} {tokens : List Token}
    (h : Token.scan text source = .ok tokens) (rest : String) :
    ((∃ all, Token.scan (text ++ "\n" ++ rest) source = .ok all) ↔
      ∃ others, Token.scan rest source = .ok others) ∧
    (∀ others, Token.scan rest source = .ok others →
      Token.scan (text ++ "\n" ++ rest) source =
        .ok (tokens.map (Token.endedAt (.after .start text.toList)) ++
          others.map (Token.down (1 + text.toList.count '\n')))) ∧
    ∀ fault, Token.scan rest source = .error fault →
      Token.scan (text ++ "\n" ++ rest) source =
        .error (fault.down (1 + text.toList.count '\n')) := by
  rw [scan_append_newline h rest]
  cases Token.scan rest source <;> simp [Except.map, Except.mapError]

/-- A call is open and a comment ends the text; on the next lines the call is closed, or a string is
not. -/
theorem scan_append_line_commented :
    (∃ tokens, Token.scan "#\nf( # c" = .ok tokens ∧ tokens.map Token.span =
      [⟨⟨1, 1⟩, ⟨1, 2⟩, none⟩, ⟨⟨2, 1⟩, ⟨2, 1⟩, none⟩, ⟨⟨2, 2⟩, ⟨2, 2⟩, none⟩,
        ⟨⟨2, 4⟩, ⟨2, 6⟩, none⟩]) ∧
    (∃ tokens, Token.scan ("#\nf( # c" ++ "\n" ++ "\n x)") = .ok tokens ∧ tokens.map Token.span =
      [⟨⟨1, 1⟩, ⟨1, 2⟩, none⟩, ⟨⟨2, 1⟩, ⟨2, 1⟩, none⟩, ⟨⟨2, 2⟩, ⟨2, 2⟩, none⟩,
        ⟨⟨2, 4⟩, ⟨2, 7⟩, none⟩, ⟨⟨4, 2⟩, ⟨4, 2⟩, none⟩, ⟨⟨4, 3⟩, ⟨4, 3⟩, none⟩]) ∧
    Token.scan ("#\nf( # c" ++ "\n" ++ "\n \"x)") =
      .error ⟨.unclosedString, [⟨⟨4, 2⟩, ⟨4, 2⟩, none⟩]⟩ := by
  have text : Token.scan "#\nf( # c" = .ok
      [⟨.comment "", ⟨⟨1, 1⟩, ⟨1, 2⟩, none⟩⟩, ⟨.name "f", ⟨⟨2, 1⟩, ⟨2, 1⟩, none⟩⟩,
        ⟨.opening, ⟨⟨2, 2⟩, ⟨2, 2⟩, none⟩⟩, ⟨.comment " c", ⟨⟨2, 4⟩, ⟨2, 6⟩, none⟩⟩] := by
    cbv
  have closed : Token.scan "\n x)" = .ok
      [⟨.name "x", ⟨⟨2, 2⟩, ⟨2, 2⟩, none⟩⟩, ⟨.closing, ⟨⟨2, 3⟩, ⟨2, 3⟩, none⟩⟩] := by
    cbv
  have unclosed : Token.scan "\n \"x)" = .error ⟨.unclosedString, [⟨⟨2, 2⟩, ⟨2, 2⟩, none⟩]⟩ := by
    cbv
  refine ⟨⟨_, text, rfl⟩, ⟨_, (scan_append_line text "\n x)").2.1 _ closed, ?_⟩, ?_⟩
  · decide
  · exact (scan_append_line text "\n \"x)").2.2 _ unclosed

end CallLang
