import CallLang.Token

/-!
# Reading tokens

The lexer passes over the located characters of a text once. Between two characters it is in one of
four modes: between tokens, inside a word, inside a string or inside a comment. `Lexer.feed` takes
one character, `Lexer.finish` ends the text, and `Token.scan` is the whole pass. Because the pass is
a fold, what it does on a text that continues another one is what it does from the mode that the
first text leaves it in.
-/

namespace CallLang

/-- The white space of the language. -/
def isSeparator (c : Char) : Bool :=
  c == ' ' || c == '\t' || c == '\r' || c == '\n'

/-- The marks that are tokens by themselves. -/
def mark? (c : Char) : Option Lexeme :=
  if c = '(' then some .opening
  else if c = ')' then some .closing
  else if c = ',' then some .comma
  else none

/-- The characters that words are made of: all that have no meaning of their own. -/
def isWordChar (c : Char) : Bool :=
  !isSeparator c && (mark? c).isNone && c != '"' && c != '#'

/-- The words that stand for values. -/
def keyword? (word : String) : Option Atom :=
  if word = "true" then some (.bool true)
  else if word = "false" then some (.bool false)
  else if word = "null" then some .null
  else none

/-- The lexeme of a word: a keyword, a numeral that is in range, or a name. -/
def Lexeme.ofWord (word : String) : Except Cause Lexeme :=
  match keyword? word with
  | some value => .ok (.atom value)
  | none =>
    match Decimal.ofText? word with
    | some n =>
      if Decimal.maxDigits < Decimal.digitCount word then
        .error (.tooManyDigits (Decimal.digitCount word))
      else if Fits n then .ok (.atom (.int n))
      else .error (.numeralOverflow word)
    | none => .ok (.name word)

/-- The token of a word that stands at `span`. -/
def Token.ofWord (word : String) (span : Span) : Except Fault Token :=
  match Lexeme.ofWord word with
  | .ok lexeme => .ok ⟨lexeme, span⟩
  | .error cause => .error (.ofText cause span)

namespace Lexer

/-- What the lexer is inside of. Characters that were read are kept last first. -/
inductive Mode where
  | between
  | word (first last : Position) (chars : List Char)
  | string (opened : Position) (chars : List Char)
  | comment (opened last : Position) (chars : List Char)

end Lexer

/-- A pass over a text: the current mode and the finished tokens, last first. -/
structure Lexer where
  mode : Lexer.Mode := .between
  tokens : List Token := []

namespace Lexer

/-- The text of characters that are kept last first. -/
def textOf (chars : List Char) : String := String.ofList chars.reverse

/-- Finishes a token. -/
def emit (lexer : Lexer) (token : Token) : Lexer :=
  ⟨.between, token :: lexer.tokens⟩

/-- Takes a character that is not inside of anything. -/
def start (source : Option Source) (lexer : Lexer) (p : Position) (c : Char) : Lexer :=
  match mark? c with
  | some lexeme => lexer.emit ⟨lexeme, ⟨p, p, source⟩⟩
  | none =>
    if isSeparator c then ⟨.between, lexer.tokens⟩
    else if c = '"' then ⟨.string p [], lexer.tokens⟩
    else if c = '#' then ⟨.comment p p [], lexer.tokens⟩
    else ⟨.word p p [c], lexer.tokens⟩

/-- Takes one character. -/
def feed (source : Option Source) (lexer : Lexer) : Position × Char → Except Fault Lexer
  | (p, c) =>
    match lexer.mode with
    | .between => .ok (lexer.start source p c)
    | .word first last chars =>
      if isWordChar c then .ok ⟨.word first p (c :: chars), lexer.tokens⟩
      else
        match Token.ofWord (textOf chars) ⟨first, last, source⟩ with
        | .ok token => .ok ((lexer.emit token).start source p c)
        | .error fault => .error fault
    | .string opened chars =>
      if c = '"' then .ok (lexer.emit ⟨.atom (.string (textOf chars)), ⟨opened, p, source⟩⟩)
      else .ok ⟨.string opened (c :: chars), lexer.tokens⟩
    | .comment opened _ chars =>
      if c = '\n' then .ok (lexer.emit ⟨.comment (textOf chars), ⟨opened, p, source⟩⟩)
      else .ok ⟨.comment opened p (c :: chars), lexer.tokens⟩

/-- Ends the text. A string must not be open; words and comments end here. -/
def finish (source : Option Source) (lexer : Lexer) : Except Fault (List Token) :=
  match lexer.mode with
  | .between => .ok lexer.tokens.reverse
  | .word first last chars =>
    match Token.ofWord (textOf chars) ⟨first, last, source⟩ with
    | .ok token => .ok (token :: lexer.tokens).reverse
    | .error fault => .error fault
  | .string opened _ => .error ⟨.unclosedString, [⟨opened, opened, source⟩]⟩
  | .comment opened last chars =>
    .ok (⟨.comment (textOf chars), ⟨opened, last, source⟩⟩ :: lexer.tokens).reverse

/-- Takes several characters. -/
def feedAll (source : Option Source) : Lexer → List (Position × Char) → Except Fault Lexer
  | lexer, [] => .ok lexer
  | lexer, pc :: rest =>
    match lexer.feed source pc with
    | .ok next => feedAll source next rest
    | .error fault => .error fault

/-- A text that continues another one is read from where that one ends. -/
theorem feedAll_append (source : Option Source) (lexer : Lexer) (xs ys : List (Position × Char)) :
    feedAll source lexer (xs ++ ys) =
      match feedAll source lexer xs with
      | .ok next => feedAll source next ys
      | .error fault => .error fault := by
  induction xs generalizing lexer with
  | nil => rfl
  | cons x xs ih =>
    simp only [List.cons_append, feedAll]
    split
    · exact ih _
    · rfl

end Lexer

/-- The tokens of a text. The source, if there is one, is what the spans of the tokens refer to. -/
def Token.scan (text : String) (source : Option Source := none) : Except Fault (List Token) :=
  match Lexer.feedAll source {} (located text) with
  | .ok lexer => lexer.finish source
  | .error fault => .error fault

/-- Whether a text needs more lines: it has more opening than closing parentheses, or it ends inside
a string. There is no answer if reading it makes the interpreter fail. -/
def isIncomplete (text : String) : Except Fault Bool :=
  match Token.scan text with
  | .ok tokens =>
    .ok (tokens.countP (fun t => t.lexeme matches .closing) <
      tokens.countP (fun t => t.lexeme matches .opening))
  | .error fault =>
    if fault.isDefect then .error fault else .ok (fault.cause == .unclosedString)

end CallLang
