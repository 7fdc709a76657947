import CallLang.Atom.Equality

/-!
# Tokens

The words and marks that program text consists of. White space only separates them.
-/

namespace CallLang

/-- What a token is. -/
inductive Lexeme where
  | opening
  | closing
  | comma
  /-- The text of a comment, without its mark and its newline. -/
  | comment (text : String)
  /-- A value that is written down. -/
  | atom (value : Atom)
  | name (text : String)

/-- A lexeme and the characters that it was read from. -/
structure Token where
  lexeme : Lexeme
  span : Span

/-- Whether two lexemes are the same. -/
def Lexeme.same : Lexeme → Lexeme → Bool
  | opening, opening => true
  | closing, closing => true
  | comma, comma => true
  | comment s, comment t => s == t
  | atom a, atom b => a.same b
  | name s, name t => s == t
  | _, _ => false

/-- Whether two tokens are the same and stand at the same place. -/
def Token.same (a b : Token) : Bool :=
  a.lexeme.same b.lexeme && a.span == b.span

end CallLang
