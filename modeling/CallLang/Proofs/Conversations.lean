import CallLang.Proofs.Acceptance
import CallLang.Proofs.Layout
import CallLang.Proofs.Sessions
import CallLang.Proofs.Unreadable
import CallLang.Shell

/-!
# Conversations

The shell waits for more lines as long as the text is incomplete. It waits neither too long nor too
shortly (`isIncomplete_exact`): an incomplete text is no program, and a text that is no program and
not incomplete cannot become one by further lines.

A conversation is a state machine over the lines that are entered. Every line makes the shell do one
thing (`Shell.Turn`): nothing, say something, keep a line, or run the kept lines together with this
one. Therefore no line of program text is lost or run twice. A line at which the interpreter fails
is kept, too, but the prompt does not tell (`Shell.lines_kept_iff`).
-/

namespace CallLang

/-! ### Texts that need more lines -/

/-- There is no answer exactly if a numeral has too many digits. -/
theorem isIncomplete_eq_error_iff {text : String} {fault : Fault} :
    isIncomplete text = .error fault ↔
      ∃ digits, HasLongNumeral text digits ∧ fault = ⟨.tooManyDigits digits, []⟩ := by
  constructor
  · intro h
    rw [isIncomplete] at h
    split at h
    · cases h
    · rename_i fault' scanned
      split_ifs at h with defect
      obtain rfl := Except.error.inj h
      exact hasLongNumeral_of_isDefect scanned defect
  · rintro ⟨digits, long, rfl⟩
    simp [isIncomplete, scan_of_hasLongNumeral long, Fault.isDefect, Cause.tooManyDigits,
      Cause.isDefect]

/-- A text that stands for no program has a fault of syntax, unless the interpreter fails. -/
theorem kind_of_parse {text name : String} {source : Option Source} {fault : Fault} {answer : Bool}
    (h : Node.parse text source name = .error fault) (readable : isIncomplete text = .ok answer) :
    fault.cause.kind = "Syntax" := by
  simp only [Node.parse, Node.ofTokens, bind, Except.bind] at h
  cases scanned : Token.scan text source with
  | error fault' =>
    simp only [scanned, Except.error.injEq] at h
    subst h
    refine kind_of_scan scanned fun defect => ?_
    obtain ⟨digits, long, -⟩ := hasLongNumeral_of_isDefect scanned defect
    rw [isIncomplete_eq_error_iff.mpr ⟨digits, long, rfl⟩] at readable
    cases readable
  | ok tokens =>
    simp only [scanned] at h
    cases built : Node.argsOfTokens tokens with
    | error fault' =>
      simp only [built, Except.error.injEq] at h
      exact h ▸ Node.kind_of_argsOfTokens built
    | ok args => simp [built] at h

/-- Lexemes need more lines if more parentheses are opened than closed. -/
theorem isIncomplete_of_lexemes? {text : String} {lexemes : List Lexeme}
    (h : lexemes? text.toList = some lexemes) :
    isIncomplete text = .ok (decide (lexemes.countP (· matches .closing) <
      lexemes.countP (· matches .opening))) := by
  obtain ⟨tokens, scanned, rfl⟩ := scan_of_lexemes? h none
  simp only [isIncomplete, scanned, List.countP_map]
  rfl

/-- If the builder takes all tokens, more lines are needed exactly if a call is open. -/
theorem isIncomplete_of_feedAll {text : String} {tokens : List Token} {b : Builder}
    (found : lexemes? text.toList = some (tokens.map Token.lexeme))
    (fed : Builder.feedAll {} tokens = .ok b) :
    isIncomplete text = .ok (decide (b.stack ≠ [])) := by
  have counts := Builder.length_stack_feedAll fed
  have closings : (tokens.map Token.lexeme).countP (· matches .closing) = Token.closings tokens :=
    List.countP_map
  have openings : (tokens.map Token.lexeme).countP (· matches .opening) = Token.openings tokens :=
    List.countP_map
  rw [isIncomplete_of_lexemes? found, closings, openings]
  congr 1
  simp only [List.length_nil] at counts
  rw [decide_eq_decide, ← List.length_pos_iff]
  omega

/-- A text that ends inside a string needs more lines. -/
theorem isIncomplete_of_string {text : String} {chars : List Char} {found : List Lexeme}
    (h : Reading.feedAll {} text.toList = some ⟨.string chars, found⟩) :
    isIncomplete text = .ok true := by
  have read := Lexer.reading_feedAll none {} .start text.toList
  rw [show Lexer.reading {} = {} from rfl, h] at read
  cases fed : Lexer.feedAll none {} (locatedFrom .start text.toList) with
  | error fault => simp [fed, Except.toOption] at read
  | ok lexer =>
    obtain ⟨mode, tokens⟩ := lexer
    cases mode with
    | string opened chars' =>
      simp [isIncomplete, Token.scan, located, fed, Lexer.finish, Fault.isDefect, Cause.isDefect]
    | between | word | comment =>
      simp [fed, Except.toOption, Lexer.reading, Lexer.Mode.inside] at read

/-- Further lines do not repair a text that has no lexemes, unless it ends inside a string. -/
theorem lexemes?_append_line_of_none {text : String} (h : lexemes? text.toList = none)
    (complete : isIncomplete text = .ok false) (rest : List Char) :
    lexemes? (text.toList ++ '\n' :: rest) = none := by
  rw [lexemes?, Reading.feedAll_append]
  cases read : Reading.feedAll {} text.toList with
  | none => rfl
  | some r =>
    obtain ⟨inside, found⟩ := r
    cases inside with
    | string chars => simp [isIncomplete_of_string read] at complete
    | word chars =>
      -- a newline ends the word, which is no lexeme
      have bad : Reading.finish? ⟨.word chars, found⟩ = none := by
        simpa [lexemes?, read] using h
      have ends : isWordChar '\n' = false := by decide
      simp [Reading.feed, bad, ends]
    | nothing | comment => simp [lexemes?, read, Reading.finish?] at h

/-- A text that stands for a program does not need more lines. -/
theorem isIncomplete_of_parse {text name : String} {source : Option Source} {program : Node}
    (h : Node.parse text source name = .ok program) : isIncomplete text = .ok false := by
  obtain ⟨tokens, args, scanned, built, rfl⟩ := Node.parse_eq_ok_iff.mp h
  obtain ⟨b, fed, closed, rfl⟩ := Node.argsOfTokens_eq_ok_iff.mp built
  have open? := isIncomplete_of_feedAll (lexemes?_of_scan scanned) fed
  simpa [closed] using open?

/-- A text that more lines make a program is a program itself, unless it needs more lines. -/
theorem exists_parse_of_append_line {text more name : String} {source : Option Source}
    {program : Node} (h : Node.parse (text ++ "\n" ++ more) source name = .ok program)
    (complete : isIncomplete text = .ok false) (source' : Option Source) (name' : String) :
    ∃ program', Node.parse text source' name' = .ok program' := by
  obtain ⟨all, args, scanned, built, rfl⟩ := Node.parse_eq_ok_iff.mp h
  obtain ⟨b, fed, closed, rfl⟩ := Node.argsOfTokens_eq_ok_iff.mp built
  have found := lexemes?_of_scan scanned
  have chars : (text ++ "\n" ++ more).toList = text.toList ++ '\n' :: more.toList := by simp
  rw [chars] at found
  cases first : lexemes? text.toList with
  | none =>
    rw [lexemes?_append_line_of_none first complete] at found
    cases found
  | some lexemes =>
    rw [lexemes?_append_line first] at found
    obtain ⟨others, -, joined⟩ := Option.map_eq_some_iff.mp found
    obtain ⟨before, after, rfl, rfl, rfl⟩ := List.map_eq_append_iff.mp joined.symm
    -- the builder has taken all tokens of the first text before it comes to the others
    rw [Builder.feedAll_append] at fed
    cases fedBefore : Builder.feedAll {} before with
    | error fault => simp [fedBefore] at fed
    | ok b' =>
      have closed' : b'.stack = [] := by
        simpa [complete] using (isIncomplete_of_feedAll first fedBefore).symm
      obtain ⟨tokens, scanned', same⟩ := scan_of_lexemes? first source'
      obtain ⟨b'', fed', closed'', -⟩ := Builder.exists_feedAll fedBefore closed' same.symm
      exact ⟨_, Node.parse_eq_ok_iff.mpr ⟨tokens, _, scanned',
        Node.argsOfTokens_eq_ok_iff.mpr ⟨b'', fed', closed'', rfl⟩, rfl⟩⟩

/-- The shell waits exactly when more lines can matter. A text that needs more lines has a fault of
syntax, so nothing is held back that could run. A text that does not need more lines and has a fault
still has one, whatever lines follow, so nothing is refused that later lines could repair. -/
theorem isIncomplete_exact (text : String) (source : Option Source) :
    (isIncomplete text = .ok true →
      ∃ fault, Node.parse text source = .error fault ∧ fault.cause.kind = "Syntax") ∧
    (isIncomplete text = .ok false → (∃ fault, Node.parse text source = .error fault) →
      ∀ (more : String) (source' : Option Source),
        ∃ fault, Node.parse (text ++ "\n" ++ more) source' = .error fault) := by
  constructor
  · intro incomplete
    cases parsed : Node.parse text source with
    | error fault => exact ⟨fault, rfl, kind_of_parse parsed incomplete⟩
    | ok program => simp [isIncomplete_of_parse parsed] at incomplete
  · rintro complete ⟨fault, failed⟩ more source'
    cases parsed : Node.parse (text ++ "\n" ++ more) source' with
    | error fault' => exact ⟨fault', rfl⟩
    | ok program =>
      obtain ⟨program', ok⟩ := exists_parse_of_append_line parsed complete source "_"
      rw [failed] at ok
      cases ok

/-- Text with an open call needs more lines, and text with a parenthesis that closes nothing is
beyond repair although it has as many parentheses of one kind as of the other. -/
theorem isIncomplete_exact_parentheses :
    (isIncomplete "f(1" = .ok true ∧
      ∃ fault, Node.parse "f(1" = .error fault ∧ fault.cause.kind = "Syntax") ∧
    isIncomplete ")f(" = .ok false ∧ ∀ (more : String) (source : Option Source),
      ∃ fault, Node.parse (")f(" ++ "\n" ++ more) source = .error fault := by
  have opened : isIncomplete "f(1" = .ok true := by decide +kernel
  have closed : isIncomplete ")f(" = .ok false := by decide +kernel
  have failed : ∃ fault, Node.parse ")f(" none = .error fault := ⟨_, rfl⟩
  exact ⟨⟨opened, (isIncomplete_exact "f(1" none).1 opened⟩, closed,
    (isIncomplete_exact ")f(" none).2 closed failed⟩

/-- If the interpreter fails at a text, it does so whatever lines follow. -/
theorem isIncomplete_append_line_of_error {text : String} {fault : Fault}
    (h : isIncomplete text = .error fault) (more : String) :
    isIncomplete (text ++ "\n" ++ more) = .error fault := by
  obtain ⟨digits, long, rfl⟩ := isIncomplete_eq_error_iff.mp h
  exact isIncomplete_eq_error_iff.mpr ⟨digits, long.append_line more, rfl⟩

/-! ### Turns of a conversation -/

namespace Shell

/-- The program text of a line, if it has any. An empty line is program text only inside a text that
is not complete. -/
def code? (shell : Shell) (line : String) : Option String :=
  match Command.ofLine line with
  | .nothing => if shell.pending.isEmpty then none else some ""
  | .help => none
  | .leave => none
  | .code line => some line

/-- What the shell does with a line. -/
inductive Turn where
  | idle
  | say (text : String)
  /-- Keeps a line of program text until there are more. -/
  | keep (line : String)
  /-- Keeps a line at which the interpreter fails. -/
  | fail (line : String)
  /-- Runs lines under a name. -/
  | run (block : List String) (name : String)
  deriving DecidableEq, Repr

namespace Turn

/-- The lines that are run, and the name under which they are run. -/
def ran? : Turn → Option (List String × String)
  | run block name => some (block, name)
  | _ => none

/-- The prompt after a turn. Only program text that can be read changes it. -/
def prompt (before : String) : Turn → String
  | keep _ => ". "
  | run _ _ => "> "
  | _ => before

/-- The lines that several turns run, with the names under which they are run. -/
def ran (turns : List Turn) : List (List String × String) := turns.filterMap ran?

theorem ran_append (turns : List Turn) (turn : Turn) :
    ran (turns ++ [turn]) = ran turns ++ turn.ran?.toList := by
  rw [ran, List.filterMap_append]
  cases turn <;> rfl

/-- What a turn does with the shell. -/
def perform (palette : Diagnostic.Palette) (limits : Limits) (shell : Shell) : Turn → Shell
  | idle => shell
  | say text => { shell with machine := shell.machine.say text }
  | keep line => { shell with pending := shell.pending ++ [line], prompt := ". " }
  | fail line => { shell with pending := shell.pending ++ [line] }
  | run block name =>
    let (outcome, m) := shell.machine.run limits (textOf block) name
    { machine := showOutcome palette m outcome, pending := [], runs := shell.runs + 1,
      prompt := "> " }

section

variable (palette : Diagnostic.Palette) (limits : Limits) (shell : Shell) (turn : Turn)

theorem prompt_perform :
    (turn.perform palette limits shell).prompt = Turn.prompt shell.prompt turn := by
  cases turn <;> rfl

theorem runs_perform :
    (turn.perform palette limits shell).runs = shell.runs + turn.ran?.toList.length := by
  cases turn <;> rfl

end

end Turn

/-- The turn that a line of program text asks for. -/
def turnOfCode (shell : Shell) (code : String) : Turn :=
  let block := shell.pending ++ [code]
  match isIncomplete (textOf block) with
  | .ok true => .keep code
  | .ok false => .run block (sourceName (shell.runs + 1))
  | .error _ => .fail code

/-- The turn that a line asks for. -/
def turn (shell : Shell) (line : String) : Turn :=
  match shell.code? line with
  | some code => shell.turnOfCode code
  | none =>
    match Command.ofLine line with
    | .help => .say (helpText ++ "\n")
    | .leave => .say "\n"
    | _ => .idle

section

variable (palette : Diagnostic.Palette) (limits : Limits)

theorem takeCode_eq_perform (shell : Shell) (code : String) :
    (shell.takeCode palette limits code).2 =
      (shell.turnOfCode code).perform palette limits shell := by
  simp only [takeCode, turnOfCode]
  rcases isIncomplete (textOf (shell.pending ++ [code])) with defect | _ | _ <;> rfl

/-- To take a line is to do its turn. -/
theorem takeLine_eq_perform (shell : Shell) (line : String) :
    (shell.takeLine palette limits line).2 = (shell.turn line).perform palette limits shell := by
  simp only [takeLine, turn, code?]
  cases Command.ofLine line with
  | nothing =>
    by_cases empty : shell.pending.isEmpty
    · simp [empty, Turn.perform]
    · simp only [empty]
      exact takeCode_eq_perform palette limits shell ""
  | help => rfl
  | leave => rfl
  | code code => exact takeCode_eq_perform palette limits shell code

end

/-- What the shell can do with a line: nothing to its program text if the line has none, and
otherwise to keep it or to run all that is there. -/
inductive Takes (shell : Shell) : Option String → Turn → Prop where
  | idle : Takes shell none .idle
  | say (text : String) : Takes shell none (.say text)
  | keep (code : String) : isIncomplete (textOf (shell.pending ++ [code])) = .ok true →
      Takes shell (some code) (.keep code)
  | fail (code : String) (defect : Fault) :
      isIncomplete (textOf (shell.pending ++ [code])) = .error defect →
      Takes shell (some code) (.fail code)
  | run (code : String) : isIncomplete (textOf (shell.pending ++ [code])) = .ok false →
      Takes shell (some code) (.run (shell.pending ++ [code]) (sourceName (shell.runs + 1)))

theorem takes_turn (shell : Shell) (line : String) :
    shell.Takes (shell.code? line) (shell.turn line) := by
  rw [turn]
  cases shell.code? line with
  | some code =>
    simp only [turnOfCode]
    rcases answer : isIncomplete (textOf (shell.pending ++ [code])) with defect | _ | _
    · exact .fail code defect answer
    · exact .run code answer
    · exact .keep code answer
  | none =>
    cases Command.ofLine line with
    | help => exact .say _
    | leave => exact .say _
    | nothing => exact .idle
    | code code => exact .idle

/-! ### Conversations -/

section

variable (palette : Diagnostic.Palette) (limits : Limits)

/-- The shell after several lines, also if one of them has ended the conversation. -/
def takeLines : Shell → List String → Shell
  | shell, [] => shell
  | shell, line :: lines => takeLines (shell.takeLine palette limits line).2 lines

/-- The turns that lines ask for one after the other. -/
def turns : Shell → List String → List Turn
  | _, [] => []
  | shell, line :: lines => shell.turn line :: turns (shell.takeLine palette limits line).2 lines

/-- The program text of lines, line by line. -/
def codeLines : Shell → List String → List String
  | _, [] => []
  | shell, line :: lines =>
    (shell.code? line).toList ++ codeLines (shell.takeLine palette limits line).2 lines

end

/-- From the first line on the lines need more lines. -/
def Waiting (lines : List String) : Prop :=
  ∀ first, first <+: lines → first ≠ [] → isIncomplete (textOf first) = .ok true

/-- The lines need no more lines, but from the first one on they do until the last one. -/
def IsBlock (lines : List String) : Prop :=
  lines ≠ [] ∧ isIncomplete (textOf lines) = .ok false ∧
    ∀ first, first <+: lines → first ≠ [] → first ≠ lines → isIncomplete (textOf first) = .ok true

/-- The interpreter fails at the lines. -/
def Broken (lines : List String) : Prop := ∃ defect, isIncomplete (textOf lines) = .error defect

theorem Waiting.nil : Waiting [] := by
  intro first isFirst nonempty
  exact absurd (List.prefix_nil.mp isFirst) nonempty

theorem Waiting.append {lines : List String} {line : String} (h : Waiting lines)
    (incomplete : isIncomplete (textOf (lines ++ [line])) = .ok true) :
    Waiting (lines ++ [line]) := by
  intro first isFirst nonempty
  rcases List.prefix_concat_iff.mp isFirst with rfl | shorter
  · exact incomplete
  · exact h first shorter nonempty

theorem Waiting.isBlock {lines : List String} {line : String} (h : Waiting lines)
    (complete : isIncomplete (textOf (lines ++ [line])) = .ok false) :
    IsBlock (lines ++ [line]) := by
  refine ⟨by simp, complete, ?_⟩
  intro first isFirst nonempty proper
  rcases List.prefix_concat_iff.mp isFirst with same | shorter
  · exact absurd same proper
  · exact h first shorter nonempty

theorem Broken.ne_nil {lines : List String} (h : Broken lines) : lines ≠ [] := by
  rintro rfl
  obtain ⟨defect, failed⟩ := h
  cases failed

/-- The interpreter does not recover from a line at which it fails. -/
theorem Broken.append {lines : List String} (h : Broken lines) (line : String) :
    Broken (lines ++ [line]) := by
  have text : textOf (lines ++ [line]) = textOf lines ++ "\n" ++ line := by
    rw [textOf, String.intercalate_append_of_ne_nil h.ne_nil (by simp),
      String.intercalate_singleton]
    rfl
  obtain ⟨defect, failed⟩ := h
  exact ⟨defect, text ▸ isIncomplete_append_line_of_error failed line⟩

/-- The prompt tells whether lines are kept, and more lines are needed if there are any. -/
structure InStep (shell : Shell) : Prop where
  prompt : shell.prompt = ". " ↔ shell.pending ≠ []
  waiting : Waiting shell.pending

/-- Program text that can be read does not follow on lines at which the interpreter fails. -/
theorem inStep_of_read {shell : Shell} (h : shell.InStep ∨ Broken shell.pending) {line : String}
    {answer : Bool} (read : isIncomplete (textOf (shell.pending ++ [line])) = .ok answer) :
    shell.InStep := by
  refine h.resolve_right fun broken => ?_
  obtain ⟨defect, failed⟩ := broken.append line
  rw [read] at failed
  cases failed

namespace Takes

variable {shell : Shell} {line : Option String} {turn : Turn}

/-- A line of program text is run or kept, after the lines that were kept before. -/
theorem lines (h : shell.Takes line turn) (palette : Diagnostic.Palette) (limits : Limits) :
    (turn.ran?.toList.map Prod.fst).flatten ++ (turn.perform palette limits shell).pending =
      shell.pending ++ line.toList := by
  cases h <;> simp [Turn.ran?, Turn.perform]

theorem names (h : shell.Takes line turn) :
    turn.ran?.toList.map Prod.snd =
      (List.range turn.ran?.toList.length).map fun k => sourceName (shell.runs + k + 1) := by
  cases h <;> rfl

theorem isBlock (h : shell.Takes line turn) (before : shell.InStep ∨ Broken shell.pending) :
    ∀ block ∈ turn.ran?.toList.map Prod.fst, IsBlock block := by
  cases h with
  | run code complete =>
    intro block ran
    obtain rfl := List.mem_singleton.mp ran
    exact (inStep_of_read before complete).waiting.isBlock complete
  | idle | say | keep | fail =>
    intro block ran
    cases ran

/-- A turn leaves the shell in step, unless the interpreter fails at the lines that are kept. -/
theorem inStep (h : shell.Takes line turn) (palette : Diagnostic.Palette) (limits : Limits)
    (before : shell.InStep ∨ Broken shell.pending) :
    (turn.perform palette limits shell).InStep ∨
      Broken (turn.perform palette limits shell).pending := by
  cases h with
  | idle => exact before
  | say text => exact before.imp_left fun h => ⟨h.prompt, h.waiting⟩
  | keep code incomplete =>
    exact .inl ⟨by simp [Turn.perform],
      (inStep_of_read before incomplete).waiting.append incomplete⟩
  | fail code defect failed => exact .inr ⟨defect, failed⟩
  | run code complete => exact .inl ⟨by simp [Turn.perform], .nil⟩

end Takes

/-- What holds during a conversation that has begun with `fresh`, after the lines `code` of program
text and some turns: how the turns, the program text and the state of the shell fit together. -/
structure Kept (palette : Diagnostic.Palette) (limits : Limits) (fresh shell : Shell)
    (code : List String) (turns : List Turn) : Prop where
  performed : shell = turns.foldl (Turn.perform palette limits) fresh
  lines : ((Turn.ran turns).map Prod.fst).flatten ++ shell.pending = code
  blocks : ∀ block ∈ (Turn.ran turns).map Prod.fst, IsBlock block
  names : (Turn.ran turns).map Prod.snd = (List.range shell.runs).map fun k => sourceName (k + 1)
  runs : shell.runs = (Turn.ran turns).length
  prompt : shell.prompt = turns.foldl Turn.prompt "> "
  inStep : shell.InStep ∨ Broken shell.pending

theorem Kept.fresh (palette : Diagnostic.Palette) (limits : Limits) (m : Machine) :
    Kept palette limits { machine := m } { machine := m } [] [] where
  performed := rfl
  lines := rfl
  blocks := by simp [Turn.ran]
  names := rfl
  runs := rfl
  prompt := rfl
  inStep := .inl ⟨by simp, .nil⟩

section

variable {palette : Diagnostic.Palette} {limits : Limits} {fresh shell : Shell}
  {code : List String} {turns : List Turn}

/-- One turn keeps all lines. -/
theorem Kept.perform (h : Kept palette limits fresh shell code turns) {line : Option String}
    {turn : Turn} (takes : shell.Takes line turn) :
    Kept palette limits fresh (turn.perform palette limits shell) (code ++ line.toList)
      (turns ++ [turn]) where
  performed := by simp [← h.performed]
  lines := by
    rw [Turn.ran_append, List.map_append, List.flatten_append, List.append_assoc,
      takes.lines palette limits, ← List.append_assoc, h.lines]
  blocks := by
    rw [Turn.ran_append, List.map_append, List.forall_mem_append]
    exact ⟨h.blocks, takes.isBlock h.inStep⟩
  names := by
    rw [Turn.ran_append, List.map_append, h.names, takes.names, Turn.runs_perform, List.range_add,
      List.map_append, List.map_map]
    rfl
  runs := by rw [Turn.ran_append, List.length_append, Turn.runs_perform, h.runs]
  prompt := by
    rw [List.foldl_append, ← h.prompt, Turn.prompt_perform, List.foldl_cons, List.foldl_nil]
  inStep := takes.inStep palette limits h.inStep

/-- A whole conversation keeps all lines. -/
theorem Kept.takeLines (h : Kept palette limits fresh shell code turns) (lines : List String) :
    Kept palette limits fresh (shell.takeLines palette limits lines)
      (code ++ shell.codeLines palette limits lines)
      (turns ++ shell.turns palette limits lines) := by
  induction lines generalizing shell code turns with
  | nil => simpa [Shell.takeLines, codeLines, Shell.turns] using h
  | cons line lines ih =>
    have step := h.perform (shell.takes_turn line)
    rw [← takeLine_eq_perform] at step
    simpa [Shell.takeLines, codeLines, Shell.turns] using ih step

end

/-- No line is lost and no line is run twice. In a new conversation, whatever lines are entered, the
shell does one turn for each of them, and the lines that are run, followed by those that are kept,
are the lines of program text in their order. What is run has become complete with its last line,
and its name is its number. The prompt, which only program text changes, tells whether lines are
kept, and such lines are incomplete, if and only if the interpreter does not fail at them. All this
is so also if lines follow one that ends the conversation. -/
theorem lines_kept_iff (palette : Diagnostic.Palette) (limits : Limits) (m : Machine)
    (lines : List String) :
    let fresh : Shell := { machine := m }
    let shell := fresh.takeLines palette limits lines
    let turns := fresh.turns palette limits lines
    let blocks := (Turn.ran turns).map Prod.fst
    let names := (Turn.ran turns).map Prod.snd
    shell = turns.foldl (Turn.perform palette limits) fresh ∧
    blocks.flatten ++ shell.pending = fresh.codeLines palette limits lines ∧
    (∀ block ∈ blocks, IsBlock block) ∧
    names = (List.range shell.runs).map (fun k => sourceName (k + 1)) ∧
    shell.runs = (Turn.ran turns).length ∧
    shell.prompt = turns.foldl Turn.prompt "> " ∧
    (((shell.prompt = ". " ↔ shell.pending ≠ []) ∧
        (shell.pending ≠ [] → isIncomplete (textOf shell.pending) = .ok true)) ↔
      ∃ answer, isIncomplete (textOf shell.pending) = .ok answer) := by
  intro fresh shell turns blocks names
  have kept : Kept palette limits fresh shell (fresh.codeLines palette limits lines) turns :=
    (Kept.fresh palette limits m).takeLines lines
  refine ⟨kept.performed, kept.lines, kept.blocks, kept.names, kept.runs, kept.prompt, ?_, ?_⟩
  · rintro ⟨-, waits⟩
    by_cases none : shell.pending = []
    · exact ⟨false, none ▸ rfl⟩
    · exact ⟨true, waits none⟩
  · rintro ⟨answer, read⟩
    have inStep := kept.inStep.resolve_right fun ⟨_, failed⟩ => by
      rw [read] at failed
      cases failed
    exact ⟨inStep.prompt, inStep.waiting _ List.prefix_rfl⟩

example : turns .terminal ⟨0, 0⟩ { machine := { usePrelude := false } }
    ["", "f(1,", "?", "", "EOF", "2)", "g("] =
    [.idle, .keep "f(1,", .say (helpText ++ "\n"), .keep "", .say "\n",
      .run ["f(1,", "", "2)"] "<in:1>", .keep "g("] := by
  decide +kernel

/-! ### A line at which the interpreter fails -/

theorem ofLine_zeros {count : Nat} (h : count ≠ 0) :
    Command.ofLine (zeros count) = .code (zeros count) := by
  obtain ⟨k, rfl⟩ := Nat.exists_eq_succ_of_ne_zero h
  have reversed : (List.replicate (k + 1) '0').reverse = List.replicate (k + 1) '0' :=
    List.reverse_replicate ..
  have kept : (List.replicate (k + 1) '0').dropWhile isBlank = List.replicate (k + 1) '0' :=
    List.dropWhile_cons_of_neg (by decide)
  have trimmed : trimBlanks (zeros (k + 1)).toList = List.replicate (k + 1) '0' := by
    rw [zeros, String.toList_ofList, trimBlanks, kept, reversed, kept, reversed]
  have word : ModuleText.isNameChar '0' = true := by decide
  have other (name : String) (c : Char) (hc : name.toList.head? = some c) (apart : c ≠ '0') :
      String.ofList ((List.replicate (k + 1) '0').takeWhile ModuleText.isNameChar) ≠ name := by
    rintro rfl
    simp [List.replicate_succ, word] at hc
    exact apart hc.symm
  rw [Command.ofLine, trimmed]
  show (if _ then _ else _) = _
  rw [if_neg (other "help" 'h' rfl (by decide)), if_neg (other "EOF" 'E' rfl (by decide))]
  rfl

/-- A shell at the start of a conversation keeps a numeral with too many digits, but its prompt
stays as it was. -/
theorem takeLines_zeros (palette : Diagnostic.Palette) (limits : Limits) (m : Machine) {count : Nat}
    (h : Decimal.maxDigits < count) :
    takeLines palette limits { machine := m } [zeros count] =
      { machine := m, pending := [zeros count] } := by
  have failed : isIncomplete (zeros count) = .error ⟨.tooManyDigits count, []⟩ :=
    isIncomplete_eq_error_iff.mpr ⟨count, hasLongNumeral_zeros h, rfl⟩
  have line : Command.ofLine (zeros count) = .code (zeros count) :=
    ofLine_zeros (Nat.ne_of_gt (Nat.zero_lt_of_lt h))
  have text : textOf [zeros count] = zeros count := String.intercalate_singleton
  simp only [takeLines, takeLine, line, takeCode, List.nil_append, text, failed]

/-- A numeral with too many digits is kept although the text is complete, and the prompt does not
tell. -/
theorem prompt_of_zeros :
    let shell := takeLines .terminal ⟨0, 0⟩ { machine := .bare } [zeros 4301]
    shell.pending = [zeros 4301] ∧ shell.prompt = "> " ∧
      isIncomplete (textOf shell.pending) = .error ⟨.tooManyDigits 4301, []⟩ := by
  have long : Decimal.maxDigits < 4301 := by decide
  have text : textOf [zeros 4301] = zeros 4301 := String.intercalate_singleton
  simp only [takeLines_zeros _ _ _ long, text, true_and]
  exact isIncomplete_eq_error_iff.mpr ⟨4301, hasLongNumeral_zeros long, rfl⟩

end Shell

end CallLang
