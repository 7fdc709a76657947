import CallLang.Fault
import CallLang.Text.Blank

/-!
# Diagnostics

How faults and warnings are shown to people: the line of source that they are about with the place
marked in it, the calls that a fault went through, and the message. How a text is coloured is up to
where it is shown.
-/

namespace CallLang

namespace Diagnostic

/-- How serious a diagnostic is. -/
inductive Severity where
  | error
  | warning
  deriving DecidableEq, Repr

/-- The ways in which texts stand out. -/
structure Palette where
  /-- A text in the colour of a severity. -/
  paint : Severity → String → String
  /-- A text that stands out without a colour. -/
  bold : String → String

/-- The escape character that starts a terminal code. -/
def escape : String := "\x1b"

/-- The colour of a severity on a terminal: red or magenta. -/
def Severity.colour : Severity → Nat
  | error => 31
  | warning => 35

/-- The palette of a terminal. All that stands out is bold. -/
def Palette.terminal : Palette where
  paint severity text :=
    escape ++ "[1m" ++ escape ++ "[" ++ toString severity.colour ++ "m" ++ text ++ escape ++ "[0m"
  bold text := escape ++ "[1m" ++ text ++ escape ++ "[0m"

/-- How a line is divided by the mark in it, and the number of marks below it. -/
structure Division where
  before : List Char
  marked : List Char
  after : List Char
  marks : Nat

/-- Divides a line at a span that starts in it. A span over several lines is marked to the end of
its first one, and there is always a mark. Column zero, which no character has, stands for the last
column. -/
def divide (line : List Char) (span : Span) : Division :=
  let stop := min (if span.last.line = span.first.line then span.last.column else line.length)
    line.length
  match span.first.column with
  | 0 => ⟨line.dropLast, (line.take stop).drop (line.length - 1), line.drop stop, stop + 1⟩
  | start + 1 =>
    let count := max stop (start + 1) - start
    ⟨line.take start, (line.drop start).take count, line.drop (start + count), count⟩

/-- The first line of a span, indented and with the span marked in it and below it. What is marked,
and the marks, are coloured. -/
def excerptWith (colour : String → String) (source : Source) (span : Span) : String :=
  let parts := divide (source.line span.first.line).toList span
  let text (cs : List Char) := String.ofList cs
  "    " ++ text parts.before ++ colour (text parts.marked) ++ text parts.after ++ "\n" ++
    "    " ++ text (List.replicate (span.first.column - 1) ' ') ++
    colour (text ('^' :: List.replicate (parts.marks - 1) '~'))

/-- The excerpt in the colour of a severity. -/
def excerpt (palette : Palette) (severity : Severity) : Source → Span → String :=
  excerptWith (palette.paint severity)

/-- The places of a backtrace that have a source, outermost call first. -/
def places (backtrace : List Span) : List (Source × Span) :=
  backtrace.reverse.filterMap fun span => span.source.map fun source => (source, span)

/-- Where a place is. -/
def heading (source : Source) (span : Span) : String :=
  "  File '" ++ source.name ++ "', line " ++ toString span.first.line ++ ", column " ++
    toString span.first.column ++ ":\n"

/-- The places of a backtrace, the last of them with its excerpt. -/
def listing (palette : Palette) : List (Source × Span) → String
  | [] => ""
  | [(source, span)] => heading source span ++ excerpt palette .error source span ++ "\n"
  | (source, span) :: rest =>
    heading source span ++ "    " ++ strip (source.line span.first.line) ++ "\n" ++
      listing palette rest

/-- The calls that a fault went through. -/
def traceback (palette : Palette) (fault : Fault) : String :=
  let found := places fault.backtrace
  (if found.length > 1 then "Traceback:\n" else "") ++ listing palette found

/-- A fault with its traceback. A fault of the interpreter itself is marked as internal. -/
def report (palette : Palette) (fault : Fault) (isInternal : Bool := false) : String :=
  traceback palette fault ++ (if isInternal then palette.paint .error "[internal] " else "") ++
    palette.paint .error "error: " ++ fault.text ++ "\n"

/-- A warning, with the place that it is about if that has a source. -/
def warn (palette : Palette) (message : String) (span : Option Span) : String :=
  match span with
  | some ⟨first, last, some source⟩ =>
    let span : Span := ⟨first, last, some source⟩
    palette.bold (span.render ++ ": ") ++ palette.paint .warning "warning: " ++ message ++ "\n" ++
      excerpt palette .warning source span ++ "\n"
  | _ => palette.bold "" ++ palette.paint .warning "warning: " ++ message ++ "\n"

end Diagnostic

/-- The ways in which a guarded piece of work ends. -/
inductive Ending where
  /-- It is done. -/
  | done
  /-- The user interrupted it. -/
  | interrupted
  /-- Calls nest too deeply. -/
  | exhausted
  /-- It asks to end the process with a status. -/
  | quit (status : Nat)
  /-- It fails, maybe because the interpreter itself is at fault. -/
  | failed (fault : Fault)

/-- What happens after a guarded piece of work. -/
inductive Verdict where
  /-- Go on. -/
  | resume
  /-- End the process with a status. -/
  | quit (status : Nat)
  /-- Pass the defect on. -/
  | propagate
  deriving DecidableEq, Repr

namespace Ending

/-- The ending of a piece of work in which the interpreter itself is at fault. -/
def defect (name message : String) : Ending := failed ⟨.defect name message, []⟩

/-- The fault that is reported for an ending. -/
def fault? : Ending → Option Fault
  | done => none
  | quit _ => none
  | interrupted => some ⟨.interrupted, []⟩
  | exhausted => some ⟨.tooDeep, []⟩
  | failed fault => some fault

/-- Whether the interpreter itself is at fault. -/
def isInternal : Ending → Bool
  | failed fault => fault.isDefect
  | _ => false

/-- What is reported about an ending, and what happens next. Faults end the process if they are
fatal. -/
def settle (palette : Diagnostic.Palette) (ending : Ending) (fatal : Bool) : String × Verdict :=
  match ending.fault? with
  | some fault =>
    (Diagnostic.report palette fault ending.isInternal,
      if fatal then .quit 1 else if ending.isInternal then .propagate else .resume)
  | none =>
    match ending with
    | quit status => ("", .quit status)
    | _ => ("", .resume)

end Ending

end CallLang
