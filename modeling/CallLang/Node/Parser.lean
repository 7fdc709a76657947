import CallLang.Token.Balance
import CallLang.Token.Lexer

/-!
# Reading expressions

A program is a sequence of arguments: values, names, and calls that have arguments of their own
between parentheses. Commas may separate arguments and may be left out or repeated; comments
directly before a call document it.

The builder passes over the tokens once. It keeps the calls that are open, the arguments of the
current level, the comments since the last token that is none, and a name that may turn out to be
called.
-/

namespace CallLang

namespace Builder

/-- A call whose parentheses are open, with the arguments before it on its own level, last first. -/
structure Frame where
  name : String
  span : Span
  doc : String
  before : List Node

/-- A name whose next token is not known yet. -/
structure Pending where
  name : String
  span : Span
  doc : String

end Builder

/-- A pass over tokens. Arguments and comments are kept last first. -/
structure Builder where
  stack : List Builder.Frame := []
  args : List Node := []
  comments : List String := []
  pending : Option Builder.Pending := none

namespace Builder

/-- A comment as a line of documentation: one leading space is not part of it. -/
def docLine (comment : String) : String :=
  match comment.toList with
  | ' ' :: cs => String.ofList cs
  | _ => comment

/-- The documentation that consecutive comments make, one line each. -/
def docOf (comments : List String) : String :=
  "\n".intercalate (comments.reverse.map docLine)

/-- The arguments of the current level, a pending name being a variable. -/
def settled (b : Builder) : List Node :=
  match b.pending with
  | some p => .var p.name (some p.span) :: b.args
  | none => b.args

/-- Takes one token. -/
def feed (b : Builder) (token : Token) : Except Fault Builder :=
  match token.lexeme with
  | .comment text =>
    .ok { b with args := b.settled, comments := text :: b.comments, pending := none }
  | .comma => .ok { b with args := b.settled, comments := [], pending := none }
  | .atom value =>
    .ok { b with
      args := .literal value (some token.span) :: b.settled, comments := [], pending := none }
  | .name name =>
    .ok { b with
      args := b.settled, comments := [], pending := some ⟨name, token.span, docOf b.comments⟩ }
  | .opening =>
    match b.pending with
    | some p => .ok ⟨⟨p.name, p.span, p.doc, b.args⟩ :: b.stack, [], [], none⟩
    | none => .error ⟨.strayOpening, [token.span]⟩
  | .closing =>
    match b.stack with
    | frame :: stack =>
      let call := Node.call frame.name b.settled.reverse frame.doc
        (some (frame.span.merge token.span))
      .ok ⟨stack, call :: frame.before, [], none⟩
    | [] => .error ⟨.strayClosing, [token.span]⟩

/-- Takes several tokens. -/
def feedAll : Builder → List Token → Except Fault Builder
  | b, [] => .ok b
  | b, token :: tokens =>
    match b.feed token with
    | .ok next => feedAll next tokens
    | .error fault => .error fault

/-- Ends the tokens. No call may be open. -/
def finish (b : Builder) : Except Fault (List Node) :=
  match b.stack with
  | [] => .ok b.settled.reverse
  | frame :: _ => .error ⟨.strayOpening, [frame.span]⟩

/-- Tokens that continue others are read from where those end. -/
theorem feedAll_append (b : Builder) (xs ys : List Token) :
    feedAll b (xs ++ ys) =
      match feedAll b xs with
      | .ok next => feedAll next ys
      | .error fault => .error fault := by
  induction xs generalizing b with
  | nil => rfl
  | cons x xs ih =>
    simp only [List.cons_append, feedAll]
    split
    · exact ih _
    · rfl

end Builder

namespace Node

/-- The region that tokens take up. No tokens are at the start of a text of unknown origin. -/
def spanOf (tokens : List Token) : Span :=
  match tokens.head?, tokens.getLast? with
  | some first, some last => first.span.merge last.span
  | _, _ => ⟨.start, .start, none⟩

/-- The arguments that tokens stand for. -/
def argsOfTokens (tokens : List Token) : Except Fault (List Node) := do
  Balance.check tokens
  (← Builder.feedAll {} tokens).finish

/-- The program that tokens stand for: a call of `name` whose arguments are all expressions. -/
def ofTokens (tokens : List Token) (name : String := "_") : Except Fault Node := do
  let args ← argsOfTokens tokens
  .ok (.call name args "" (some (spanOf tokens)))

/-- The program that a text stands for. -/
def parse (text : String) (source : Option Source := none) (name : String := "_") :
    Except Fault Node := do
  ofTokens (← Token.scan text source) name

/-- The arguments of a call; other expressions have none. -/
def args : Node → List Node
  | call _ args _ _ => args
  | _ => []

end Node

end CallLang
