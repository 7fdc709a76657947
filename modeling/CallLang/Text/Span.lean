import CallLang.Text.Position

/-!
# Sources and spans

A source is a named unit of program text. A span is the region between two positions, both ends
included, of a source or of a text that has none. Spans point diagnostics at the right text;
evaluation never looks at them.
-/

namespace CallLang

/-- A unit of program text: a file, an embedded module, an evaluated string or an entered line. -/
structure Source where
  name : String
  text : String
  deriving DecidableEq, Repr, Inhabited

/-- The pieces of `cs` between newlines; there is always one more piece than newlines. -/
def splitLines : List Char → List (List Char)
  | [] => [[]]
  | c :: cs =>
    if c = '\n' then [] :: splitLines cs
    else
      match splitLines cs with
      | [] => [[c]]
      | line :: lines => (c :: line) :: lines

/-- `cs` without the carriage returns at its end. -/
def dropTrailingReturns (cs : List Char) : List Char :=
  (cs.reverse.dropWhile (· == '\r')).reverse

/-- The line with the given number, counted from one, without its newline and without carriage
returns before it. A line that does not exist is empty. -/
def Source.line (source : Source) (number : Nat) : String :=
  match number with
  | 0 => ""
  | index + 1 =>
    String.ofList (dropTrailingReturns ((splitLines source.text.toList)[index]?.getD []))

/-- A region of a text, both ends included. -/
structure Span where
  first : Position
  last : Position
  source : Option Source := none
  deriving DecidableEq, Repr, Inhabited

namespace Span

/-- The region from the start of one span to the end of another, in the source of the first. -/
def merge (a b : Span) : Span :=
  ⟨a.first, b.last, a.source⟩

/-- The name of the source; text without a source is of unknown origin. -/
def sourceName (span : Span) : String :=
  match span.source with
  | some source => source.name
  | none => "<unknown>"

/-- The place where a span starts, with the name of its source. -/
def render (span : Span) : String :=
  span.sourceName ++ ":" ++ span.first.render

/-- A span with both of its ends. -/
def renderFull (span : Span) : String :=
  span.render ++ "-" ++ span.last.render

@[simp]
theorem merge_first (a b : Span) : (a.merge b).first = a.first := rfl

@[simp]
theorem merge_last (a b : Span) : (a.merge b).last = b.last := rfl

@[simp]
theorem merge_source (a b : Span) : (a.merge b).source = a.source := rfl

end Span

/-- The characters from the first one at `last` back to the start of `cs`, that one included. -/
def upTo (last : Position) : List (Position × Char) → Option (List Char)
  | [] => none
  | (p, c) :: cs => if p = last then some [c] else (upTo last cs).map (c :: ·)

/-- The characters of `cs` from position `first` to position `last`, both included. -/
def between (first last : Position) : List (Position × Char) → Option (List Char)
  | [] => none
  | (p, c) :: cs =>
    if p = first then upTo last ((p, c) :: cs)
    else if p = last then none
    else between first last cs

/-- The text that a span encloses. A span whose ends are not both positions of the text, in this
order, encloses nothing. -/
def extract (text : String) (span : Span) : Option String :=
  (between span.first span.last (located text)).map String.ofList

end CallLang
