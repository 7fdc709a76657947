import CallLang.Token

/-!
# Balanced parentheses

Parentheses are balanced if at no point more of them are closed than opened, and in the end as many
are closed as opened.
-/

namespace CallLang

/-- Counts of parentheses. -/
structure Balance where
  opened : Nat := 0
  closed : Nat := 0
  deriving DecidableEq, Repr

namespace Balance

/-- The counts after one more token. -/
def count (balance : Balance) (lexeme : Lexeme) : Balance :=
  match lexeme with
  | .opening => ⟨balance.opened + 1, balance.closed⟩
  | .closing => ⟨balance.opened, balance.closed + 1⟩
  | _ => balance

/-- Counts the parentheses of `tokens`, after `last`, and refuses a point with more closed than
opened ones and an end with different counts. -/
def checkFrom (balance : Balance) (last : Option Token) : List Token → Except Fault Unit
  | [] =>
    if balance.opened = balance.closed then .ok ()
    else .error (.at? (.unbalanced balance.opened balance.closed) (last.map Token.span))
  | token :: tokens =>
    let next := balance.count token.lexeme
    if next.opened < next.closed then
      .error ⟨.closedTooOften next.closed next.opened, [token.span]⟩
    else checkFrom next (some token) tokens

/-- Accepts balanced tokens. -/
def check (tokens : List Token) : Except Fault Unit :=
  checkFrom {} none tokens

end Balance

end CallLang
