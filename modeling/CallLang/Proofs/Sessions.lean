import CallLang.Proofs.Lexemes
import CallLang.Proofs.Prelude
import CallLang.Proofs.Reachable
import CallLang.Proofs.Spans
import Mathlib

/-!
# Sessions

A host that runs one text after the other in one machine could as well run both texts at once, with
a comma on a line between them (`run_append`). On the side of the text this is because a comma
separates the lexemes of the two texts, and the comments of the first text document nothing in the
second one (`parse_append`). On the side of the machine it is because a program is the sequence of
its expressions, because the prelude is loaded once, and because an ending program does nothing.

All this takes for granted that `_` is the sequence when the expressions are evaluated. Loading the
prelude comes before that, and a machine with the wrong globals may lose `_` there
(`run_append_loses_sequence`).
-/

namespace CallLang

open CallLang.Action CallLang.Builtin

/-! ### Texts on lines of their own -/

/-- Tokens with the same lexemes are accepted alike. -/
theorem Builder.exists_feedAll {b : Builder} {ts ts' : List Token} (h : feedAll {} ts = .ok b)
    (closed : b.stack = []) (same : ts.map Token.lexeme = ts'.map Token.lexeme) :
    ∃ b', feedAll {} ts' = .ok b' ∧ b'.stack = [] ∧ unplaced b.settled = unplaced b'.settled := by
  have fed := unplaced_feedAll (rfl : unplaced ({} : Builder) = unplaced {}) same
  rw [h] at fed
  cases h' : feedAll {} ts' with
  | error fault =>
    rw [h'] at fed
    cases fed
  | ok b' =>
    rw [h'] at fed
    have alike : unplaced b = unplaced b' := Except.ok.inj fed
    have stack : unplaced b.stack = unplaced b'.stack := (Builder.mk.inj alike).1
    rw [closed] at stack
    exact ⟨b', rfl, eq_nil_of_unplaced stack, unplaced_settled alike⟩

namespace Node

/-- The program of expressions. -/
def program (args : List Node) : Node := call "_" args "" none

/-- Under another name a text stands for the same program, up to places. -/
theorem parse_source {text : String} {source : Option Source} {parsed : Node}
    (h : parse text source = .ok parsed) (source' : Option Source) :
    ∃ parsed', parse text source' = .ok parsed' ∧
      unplaced parsed' = unplaced (program parsed.args) := by
  obtain ⟨tokens, args, scanned, built, rfl⟩ := parse_eq_ok_iff.mp h
  obtain ⟨b, fed, closed, rfl⟩ := argsOfTokens_eq_ok_iff.mp built
  obtain ⟨tokens', scanned', same⟩ := scan_of_lexemes? (lexemes?_of_scan scanned) source'
  obtain ⟨b', fed', closed', settled⟩ := Builder.exists_feedAll fed closed same.symm
  refine ⟨_, parse_eq_ok_iff.mpr ⟨tokens', _, scanned',
    argsOfTokens_eq_ok_iff.mpr ⟨b', fed', closed', rfl⟩, rfl⟩, ?_⟩
  simp only [program, args, unplaced_call, unplaced_reverse, settled]

/-- With a comma on a line between two texts, their expressions follow each other. The comma ends
the comments before it. -/
theorem parse_append {text text' : String} {source source' : Option Source}
    {parsed parsed' : Node} (h : parse text source = .ok parsed)
    (h' : parse text' source' = .ok parsed') (both : Option Source) :
    ∃ joined, parse (text ++ "\n,\n" ++ text') both = .ok joined ∧
      unplaced joined = unplaced (program (parsed.args ++ parsed'.args)) := by
  obtain ⟨tokens, args, scanned, built, rfl⟩ := parse_eq_ok_iff.mp h
  obtain ⟨b, fed, closed, rfl⟩ := argsOfTokens_eq_ok_iff.mp built
  obtain ⟨tokens', args', scanned', built', rfl⟩ := parse_eq_ok_iff.mp h'
  obtain ⟨b', fed', closed', rfl⟩ := argsOfTokens_eq_ok_iff.mp built'
  have chars : (text ++ "\n,\n" ++ text').toList =
      text.toList ++ '\n' :: ([','] ++ '\n' :: text'.toList) := by
    simp
  have comma : lexemes? [','] = some [.comma] := rfl
  have lexemes : lexemes? (text ++ "\n,\n" ++ text').toList =
      some (tokens.map Token.lexeme ++ .comma :: tokens'.map Token.lexeme) := by
    rw [chars, lexemes?_append_line (lexemes?_of_scan scanned), lexemes?_append_line comma,
      lexemes?_of_scan scanned']
    rfl
  obtain ⟨all, scannedAll, same⟩ := scan_of_lexemes? lexemes both
  obtain ⟨first, rest, rfl, sameFirst, sameRest⟩ := List.map_eq_append_iff.mp same
  obtain ⟨⟨lexeme, span⟩, last, rfl, rfl, sameLast⟩ := List.map_eq_cons_iff.mp sameRest
  obtain ⟨c, fedFirst, closedFirst, settled⟩ := Builder.exists_feedAll fed closed sameFirst.symm
  obtain ⟨c', fedLast, closedLast, settled'⟩ := Builder.exists_feedAll fed' closed' sameLast.symm
  -- after the comma only the arguments of the first text are left of it
  have fedAll : Builder.feedAll {} (first ++ ⟨.comma, span⟩ :: last) =
      .ok (c'.under c.settled) := by
    rw [Builder.feedAll_append, fedFirst]
    have onward := Builder.feedAll_under c.settled {} last
    rw [fedLast] at onward
    simp only [Builder.feedAll, Builder.feed, closedFirst]
    exact onward
  obtain ⟨stack, args, comments, pending⟩ := c'
  obtain rfl : stack = [] := closedLast
  refine ⟨_, parse_eq_ok_iff.mpr ⟨_, _, scannedAll,
    argsOfTokens_eq_ok_iff.mpr ⟨_, fedAll, rfl, rfl⟩, rfl⟩, ?_⟩
  simp only [program, Node.args, unplaced_call, Builder.under, Builder.settled_append,
    List.reverse_append, unplaced_append, unplaced_reverse, settled, settled']

end Node

/-! ### Machines that need no prelude -/

/-- Whether the prelude is loaded, or not wanted. -/
def Machine.isEquipped (m : Machine) : Bool := m.preludeLoaded || !m.usePrelude

theorem Step.isEquipped_apply {m : Machine} (s : Step) (h : m.isEquipped) :
    (s.apply m).isEquipped := by
  cases s with
  | beginPrelude => rfl
  | _ => exact h

theorem Action.isEquipped_run {α : Type} (act : Action α) {m : Machine} (h : m.isEquipped) :
    (act.run m).2.isEquipped := by
  induction act generalizing m with
  | done r => exact h
  | look k ih => exact ih m h
  | step s next ih => exact ih (s.isEquipped_apply h)

theorem run_loadPrelude_of_isEquipped {e : Engine} {m : Machine} (h : m.isEquipped) :
    (loadPrelude e).run m = (.ok (), m) := by
  rw [Machine.isEquipped] at h
  rw [loadPrelude, machine_bind, run_look, if_pos h]
  rfl

/-- However it ends, nobody tries to load the prelude a second time. -/
theorem isEquipped_loadPrelude (e : Engine) (m : Machine) :
    ((loadPrelude e).run m).2.isEquipped := by
  by_cases h : m.isEquipped
  · rw [run_loadPrelude_of_isEquipped h]
    exact h
  · rw [Machine.isEquipped] at h
    rw [loadPrelude, machine_bind, run_look, if_neg h, take_bind, run_step]
    exact isEquipped_run _ rfl

/-! ### Programs -/

/-- Runs a program in the current machine, with the prelude loaded. -/
def runProgram (e : Engine) (program : Node) : Action Outcome := do
  let outcome ← contain do
    loadPrelude e
    e.eval program
  return (← machine).exit.getD outcome

theorem runText_of_parse {e : Engine} {source : Source} {program : Node}
    (h : Node.parse source.text (some source) = .ok program) :
    runText e source = runProgram e program := by
  rw [runText, execute, h]
  rfl

theorem runProgram_alike {e : Engine} (he : e.Blind) {program program' : Node}
    (h : unplaced program = unplaced program') :
    Alike (runProgram e program) (runProgram e program') := by
  refine (Alike.contain (he.loadPrelude.bind fun _ _ _ => he.eval h)).bind fun o o' ho => ?_
  refine .machine fun m m' hm => .pure ?_
  have exit : unplaced m.exit = unplaced m'.exit := congrArg Machine.exit hm
  obtain ⟨hn, hn'⟩ | ⟨s, s', hs, hs', hss⟩ := none_or_some_of_unplaced exit
  · rw [hn, hn']
    exact ho
  · rw [hs, hs']
    exact hss

/-- The end of a run: a stored outcome comes before the one of the program, unless the interpreter
fails. -/
def concluded (r : Except Stop Atom × Machine) : Except Stop Outcome × Machine :=
  ((contained r.1).map r.2.exit.getD, r.2)

theorem concluded_of_ending {m : Machine} (hm : m.exit.isSome) {r r' : Except Stop Atom}
    {outcome outcome' : Outcome} (h : contained r = .ok outcome)
    (h' : contained r' = .ok outcome') :
    concluded (r, m) = concluded (r', m) := by
  obtain ⟨stored, hs⟩ := Option.isSome_iff_exists.mp hm
  simp [concluded, hs, h, h', Except.map]

theorem run_runProgram (e : Engine) (program : Node) (m : Machine) :
    (runProgram e program).run m =
      concluded ((loadPrelude e >>= fun _ => e.eval program).run m) := by
  rw [runProgram, run_bind, run_contain, concluded]
  rcases contained ((loadPrelude e >>= fun _ => e.eval program).run m).1 with reason | outcome <;>
    rfl

variable {limits : Limits} {steps depth : Nat} {m m' : Machine}

/-- With the prelude loaded a run is the evaluation of the program. -/
theorem run_runProgram_of_isEquipped {e : Engine} (loaded : m.isEquipped) (program : Node) :
    (runProgram e program).run m = concluded ((e.eval program).run m) := by
  rw [run_runProgram, run_bind, run_loadPrelude_of_isEquipped loaded]

theorem run_sequence_append (e : Engine) (value : Atom) (nodes others : List Node) (m : Machine) :
    (Control.sequence e value (nodes ++ others)).run m =
      (Control.sequence e value nodes >>= fun value => Control.sequence e value others).run m := by
  induction nodes generalizing value m with
  | nil => rfl
  | cons node nodes ih =>
    rw [List.cons_append, Control.sequence, Control.sequence, run_bind, run_bind, run_bind]
    rcases (e.eval node).run m with ⟨reason | next, m'⟩
    · rfl
    · simp only [ih, run_bind]

theorem run_sequence_of_ending (steps depth : Nat) (hm : m.exit.isSome) (value : Atom)
    (nodes : List Node) :
    ∃ last, (Control.sequence (engine steps depth) value nodes).run m = (.ok last, m) := by
  induction nodes generalizing value with
  | nil => exact ⟨value, rfl⟩
  | cons node nodes ih =>
    rw [Control.sequence, run_bind, run_eval_of_ending steps depth hm]
    exact ih .null

/-- What the first of several expressions starts with does not matter. -/
theorem sequence_of_ne_nil (e : Engine) (value other : Atom) {nodes : List Node}
    (h : nodes ≠ []) : Control.sequence e value nodes = Control.sequence e other nodes := by
  obtain ⟨node, nodes, rfl⟩ := List.exists_cons_of_ne_nil h
  rfl

/-- A program is the sequence of its expressions, as long as `_` is the builtin. -/
theorem run_eval_program_eq (exit : m.exit = none)
    (shows : m.storage.Shows "_" (.variadic .sequence)) (nodes : List Node) :
    ((engine steps (depth + 1)).eval (.program nodes)).run m =
      (Control.sequence (engine steps depth) .null nodes).run m := by
  obtain ⟨stamp, hs⟩ := shows
  have called : (applyWith (engine steps depth) steps (.builtin stamp (.variadic .sequence)) nodes
      "_" "").run m = (Control.sequence (engine steps depth) .null nodes).run m := rfl
  rw [Node.program, run_eval_call steps depth exit hs, run_traced, called]
  rcases (Control.sequence (engine steps depth) .null nodes).run m with ⟨(f | _) | a, m'⟩ <;> rfl

/-- Without depth not even the sequence can be called. -/
theorem run_eval_program_zero (exit : m.exit = none)
    (shows : m.storage.Shows "_" (.variadic .sequence)) (nodes : List Node) :
    ((engine steps 0).eval (.program nodes)).run m = (.error .exhausted, m) := by
  obtain ⟨stamp, found⟩ := shows
  simp [engine, evalWith, exiting_bind, exit, Node.program, run_traced, lookupFunction_bind, found,
    stop]

/-- Expressions after others do what they do in one sequence with them, if the others have a value
or end the session. -/
theorem concluded_sequence_append {m₁ m₂ : Machine} {nodes others : List Node}
    {r : Except Stop Atom} (nonempty : others ≠ []) (loaded : m₂.isEquipped)
    (first : (Control.sequence (engine steps depth) .null nodes).run m₁ = (r, m₂))
    (sound : ∃ own, contained r = .ok own)
    (ended : m₂.exit.isSome ∨
      (∃ value, r = .ok value) ∧ m₂.storage.Shows "_" (.variadic .sequence)) :
    (runProgram (engine steps (depth + 1)) (.program others)).run m₂ =
      concluded ((Control.sequence (engine steps depth) .null (nodes ++ others)).run m₁) := by
  rw [run_runProgram_of_isEquipped loaded, run_sequence_append, run_bind, first]
  by_cases ending : m₂.exit.isSome
  · rw [run_eval_of_ending _ _ ending]
    cases r with
    | error reason =>
      obtain ⟨own, sound⟩ := sound
      exact concluded_of_ending ending rfl sound
    | ok value =>
      obtain ⟨last, ran⟩ := run_sequence_of_ending steps depth ending value others
      simp only [ran]
      exact concluded_of_ending ending rfl rfl
  · obtain ⟨⟨value, rfl⟩, shows⟩ := ended.resolve_left ending
    rw [run_eval_program_eq (Option.not_isSome_iff_eq_none.mp ending) shows,
      sequence_of_ne_nil _ .null value nonempty]

theorem of_concluded {r : Except Stop Atom} {m₂ : Machine} {outcome : Outcome}
    (h : concluded (r, m₂) = (.ok outcome, m')) (ended : m'.exit.isSome ∨ ∃ v, outcome = .ok v) :
    m' = m₂ ∧ (∃ own, contained r = .ok own) ∧ (m₂.exit.isSome ∨ ∃ v, r = .ok v) := by
  obtain ⟨stored, rfl⟩ : (contained r).map m₂.exit.getD = .ok outcome ∧ m₂ = m' := Prod.mk.inj h
  cases own : contained r with
  | error reason =>
    rw [own] at stored
    cases stored
  | ok o =>
    refine ⟨rfl, ⟨o, rfl⟩, ?_⟩
    cases exit : m₂.exit with
    | some stored => exact .inl rfl
    | none =>
      obtain ⟨v, rfl⟩ := ended.resolve_left (by simp [exit])
      rw [own, exit] at stored
      obtain rfl : o = .ok v := Except.ok.inj stored
      refine .inr ⟨v, ?_⟩
      rcases r with (f | _) | a
      · rw [contained] at own
        split at own <;> cases own
      · cases own
      · exact congrArg Except.ok (Except.ok.inj (Except.ok.inj own))

/-- A program after another one does what the two together do, if `_` is the sequence in both, and
if the first one has a value or ends the session. -/
theorem run_runProgram_append {nodes others : List Node} {outcome : Outcome}
    (nonempty : others ≠ [])
    (before : ((loadPrelude (engine steps depth)).run m).2.storage.Shows "_" (.variadic .sequence))
    (ran : (runProgram (engine steps depth) (.program nodes)).run m = (.ok outcome, m'))
    (ended : m'.exit.isSome ∨ ∃ value, outcome = .ok value)
    (after : m'.exit.isSome ∨ m'.storage.Shows "_" (.variadic .sequence)) :
    (runProgram (engine steps depth) (.program others)).run m' =
      (runProgram (engine steps depth) (.program (nodes ++ others))).run m := by
  have equipped := isEquipped_loadPrelude (engine steps depth) m
  rw [run_runProgram, run_bind] at ran
  rw [run_runProgram _ (.program (nodes ++ others)), run_bind]
  rcases hl : (loadPrelude (engine steps depth)).run m with ⟨reason | _, m₁⟩
  · -- the prelude has failed, so an outcome is stored
    rw [hl] at ran equipped
    obtain ⟨rfl, ⟨own, sound⟩, ending | ⟨v, hv⟩⟩ := of_concluded ran ended
    · rw [run_runProgram_of_isEquipped equipped, run_eval_of_ending _ _ ending]
      exact concluded_of_ending ending rfl sound
    · cases hv
  · rw [hl] at ran equipped before
    dsimp only at ran equipped before ⊢
    by_cases ending : m₁.exit.isSome
    · simp only [run_eval_of_ending _ _ ending] at ran ⊢
      obtain ⟨rfl, -⟩ := of_concluded ran ended
      rw [run_runProgram_of_isEquipped equipped, run_eval_of_ending _ _ ending]
    · have exit : m₁.exit = none := Option.not_isSome_iff_eq_none.mp ending
      cases depth with
      | zero =>
        rw [run_eval_program_zero exit before] at ran
        obtain ⟨-, -, impossible | ⟨v, hv⟩⟩ := of_concluded ran ended
        · exact absurd impossible ending
        · cases hv
      | succ depth =>
        simp only [run_eval_program_eq exit before] at ran ⊢
        rcases first : (Control.sequence (engine steps depth) .null nodes).run m₁ with ⟨r, m₂⟩
        rw [first] at ran
        obtain ⟨rfl, sound, value⟩ := of_concluded ran ended
        have loaded : m'.isEquipped := by
          have kept := isEquipped_run (Control.sequence (engine steps depth) .null nodes) equipped
          rwa [first] at kept
        refine concluded_sequence_append nonempty loaded first sound ?_
        rcases after with ending | shows
        · exact .inl ending
        · exact value.imp id fun h => ⟨h, shows⟩

/-- If the interpreter fails in a program, it does so as well if further expressions follow. -/
theorem run_runProgram_append_of_error {nodes : List Node} (others : List Node) {reason : Stop}
    (before : ((loadPrelude (engine steps depth)).run m).2.storage.Shows "_" (.variadic .sequence))
    (ran : (runProgram (engine steps depth) (.program nodes)).run m = (.error reason, m')) :
    (runProgram (engine steps depth) (.program (nodes ++ others))).run m = (.error reason, m') := by
  rw [run_runProgram, run_bind] at ran ⊢
  rcases hl : (loadPrelude (engine steps depth)).run m with ⟨failed | _, m₁⟩
  · rw [hl] at ran
    exact ran
  · rw [hl] at ran before
    dsimp only at ran before ⊢
    by_cases ending : m₁.exit.isSome
    · rwa [run_eval_of_ending _ _ ending] at ran ⊢
    · have exit : m₁.exit = none := Option.not_isSome_iff_eq_none.mp ending
      cases depth with
      | zero => rwa [run_eval_program_zero exit before] at ran ⊢
      | succ depth =>
        rw [run_eval_program_eq exit before] at ran ⊢
        rw [run_sequence_append, run_bind]
        rcases first : (Control.sequence (engine steps depth) .null nodes).run m₁ with ⟨r, m₂⟩
        rw [first] at ran
        cases r with
        | error failed => exact ran
        | ok value => cases congrArg Prod.fst ran

/-! ### Runs -/

theorem shows_of_unplaced {name : String} {b : Builtin} (hm : unplaced m = unplaced m')
    (shows : m.storage.Shows name b) : m'.storage.Shows name b := by
  obtain ⟨stamp, hs⟩ := shows
  refine ⟨stamp, ?_⟩
  rw [Storage.getFunction] at hs ⊢
  obtain ⟨h, h'⟩ | ⟨a, a', h, h', same⟩ := none_or_some_of_unplaced (get?_eq hm name)
  · rw [h] at hs
    cases hs
  · rw [h] at hs
    rw [h']
    cases Atom.alike same with
    | function hf =>
      obtain rfl := Except.ok.inj hs
      cases Callable.alike hf with
      | builtin => rfl
    | _ => cases hs

theorem unplaced_ofResult (r : Except Stop Outcome) :
    unplaced (Outcome.ofResult r) = Outcome.ofResult (unplaced r) := by
  rcases r with (f | _) | outcome <;> rfl

theorem runText_alike (limits : Limits) {source : Source} {parsed program : Node}
    (h : Node.parse source.text (some source) = .ok parsed)
    (same : unplaced parsed = unplaced program) (hm : unplaced m = unplaced m') :
    unplaced ((runText limits.engine source).run m) =
      unplaced ((runProgram limits.engine program).run m') := by
  rw [runText_of_parse h]
  exact runProgram_alike (engine_blind limits.steps limits.depth) same m m' hm

/-- A run of a text is the run of its program, up to places. -/
theorem Machine.run_of_parse (limits : Limits) {text name : String} {parsed program : Node}
    (h : Node.parse text (some (m.sourceOf name text)) = .ok parsed)
    (same : unplaced parsed = unplaced program) (hm : unplaced m = unplaced m') :
    unplaced (m.run limits text name) =
      (Outcome.ofResult (unplaced ((runProgram limits.engine program).run m').1),
        unplaced ((runProgram limits.engine program).run m').2) := by
  have alike := runText_alike limits h same hm
  rw [Machine.run_eq]
  generalize (runText limits.engine (m.sourceOf name text)).run m = r at alike ⊢
  generalize (runProgram limits.engine program).run m' = r' at alike ⊢
  obtain ⟨results, machines⟩ : unplaced r.1 = unplaced r'.1 ∧ unplaced r.2 = unplaced r'.2 :=
    Prod.mk.inj alike
  exact Prod.ext ((unplaced_ofResult r.1).trans (congrArg Outcome.ofResult results)) machines

/-- A run starts with loading the prelude. -/
theorem Machine.run_of_loadPrelude (limits : Limits) (text name : String)
    (h : (loadPrelude limits.engine).run m = (.ok (), m')) (names : m'.sourceName = m.sourceName) :
    m.run limits text name = m'.run limits text name := by
  have equipped := isEquipped_loadPrelude limits.engine m
  rw [h] at equipped
  have source : m'.sourceOf name text = m.sourceOf name text := by
    rw [Machine.sourceOf, Machine.sourceOf, names]
  have same : (runText limits.engine (m.sourceOf name text)).run m =
      (runText limits.engine (m'.sourceOf name text)).run m' := by
    rw [source, runText, execute, run_bind, run_bind, run_contain, run_contain, run_bind, run_bind,
      h, run_loadPrelude_of_isEquipped equipped]
  rw [Machine.run_eq, Machine.run_eq, same]

section

variable (limits : Limits) (m : Machine) (text text' name name' both : String)
  {parsed parsed' : Node} (ht : Node.parse text = .ok parsed) (ht' : Node.parse text' = .ok parsed')

include ht ht'

/-- If the interpreter fails in a text, it does so as well if another text follows. -/
theorem Machine.run_append_of_fails
    (before : ((loadPrelude limits.engine).run m).2.storage.Shows "_" (.variadic .sequence))
    (fails : m.Fails limits text name) :
    unplaced (m.run limits text name) =
      unplaced (m.run limits (text ++ "\n,\n" ++ text') both) := by
  obtain ⟨_, parsedFirst, same⟩ := Node.parse_source ht (some (m.sourceOf name text))
  obtain ⟨_, parsedBoth, joined⟩ := Node.parse_append ht ht'
    (some (m.sourceOf both (text ++ "\n,\n" ++ text')))
  have first := Machine.run_of_parse limits parsedFirst same (rfl : unplaced m = unplaced m)
  have all := Machine.run_of_parse limits parsedBoth joined (rfl : unplaced m = unplaced m)
  have alike := runText_alike limits parsedFirst same (rfl : unplaced m = unplaced m)
  rcases ran : (runProgram limits.engine (.program parsed.args)).run m with ⟨reason | outcome, m₂⟩
  · have longer : (runProgram limits.engine (.program (parsed.args ++ parsed'.args))).run m =
        (.error reason, m₂) := run_runProgram_append_of_error parsed'.args before ran
    rw [ran] at first
    rw [longer] at all
    exact first.trans all.symm
  · obtain ⟨fault, -, failed⟩ := fails
    rw [ran] at alike
    have results : unplaced ((runText limits.engine (m.sourceOf name text)).run m).1 =
        unplaced (Except.ok outcome : Except Stop Outcome) := congrArg Prod.fst alike
    rw [failed] at results
    cases results

/-- The second text goes on where the first one has ended. -/
theorem Machine.run_append_of_not_fails (nonempty : parsed'.args ≠ [])
    (before : ((loadPrelude limits.engine).run m).2.storage.Shows "_" (.variadic .sequence))
    (ended : (m.run limits text name).2.exit.isSome ∨
      ∃ value, (m.run limits text name).1 = .ok value)
    (after : (m.run limits text name).2.exit.isSome ∨
      (m.run limits text name).2.storage.Shows "_" (.variadic .sequence))
    (sound : ¬m.Fails limits text name) :
    unplaced ((m.run limits text name).2.run limits text' name') =
      unplaced (m.run limits (text ++ "\n,\n" ++ text') both) := by
  obtain ⟨_, parsedFirst, same⟩ := Node.parse_source ht (some (m.sourceOf name text))
  have first := runText_alike limits parsedFirst same (rfl : unplaced m = unplaced m)
  rw [Machine.runText_eq _ _ _ _ sound] at first
  rcases ran : (runProgram limits.engine (.program parsed.args)).run m with ⟨reason | outcome, m₂⟩
  · rw [ran] at first
    cases congrArg Prod.fst first
  rw [ran] at first
  generalize m.run limits text name = r at first ended after ⊢
  obtain ⟨sameOutcome, sameMachine⟩ : unplaced (Except.ok r.1 : Except Stop Outcome) =
      unplaced (.ok outcome) ∧ unplaced r.2 = unplaced m₂ := Prod.mk.inj first
  have exit : r.2.exit.isSome = m₂.exit.isSome :=
    eq_of_unplaced isSome_unplaced (congrArg Machine.exit sameMachine)
  have ended' : m₂.exit.isSome ∨ ∃ value, outcome = .ok value := by
    refine ended.imp (exit ▸ ·) ?_
    rintro ⟨value, hv⟩
    rw [hv] at sameOutcome
    cases outcome with
    | error fault => cases sameOutcome
    | ok value' => exact ⟨value', rfl⟩
  have after' : m₂.exit.isSome ∨ m₂.storage.Shows "_" (.variadic .sequence) :=
    after.imp (exit ▸ ·) (shows_of_unplaced sameMachine)
  obtain ⟨_, parsedSecond, same'⟩ := Node.parse_source ht' (some (r.2.sourceOf name' text'))
  have second := Machine.run_of_parse limits parsedSecond same' sameMachine
  obtain ⟨_, parsedBoth, joined⟩ := Node.parse_append ht ht'
    (some (m.sourceOf both (text ++ "\n,\n" ++ text')))
  have all := Machine.run_of_parse limits parsedBoth joined (rfl : unplaced m = unplaced m)
  have composed : (runProgram limits.engine (.program parsed'.args)).run m₂ =
      (runProgram limits.engine (.program (parsed.args ++ parsed'.args))).run m :=
    run_runProgram_append nonempty before ran ended' after'
  rw [composed] at second
  exact second.trans all.symm

end

/-- A session composes. Two texts that can be read, the second one with an expression in it, do the
same one after the other as on lines of one text with a comma between them: they have the same final
outcome and leave the same machine, up to places and to the names of sources, and so have written
the same. This is so if `_` is the sequence when the first text is evaluated, that is once the
prelude is loaded, and afterwards, and if the first text has a value or ends the session. If the
interpreter fails in the first text, it fails in the one text in the same way. -/
theorem run_append (limits : Limits) (m : Machine) (text text' name name' both : String)
    {parsed parsed' : Node} (ht : Node.parse text = .ok parsed)
    (ht' : Node.parse text' = .ok parsed') (nonempty : parsed'.args ≠ [])
    (before : ((loadPrelude limits.engine).run m).2.storage.Shows "_" (.variadic .sequence))
    (ended : (m.run limits text name).2.exit.isSome ∨
      ∃ value, (m.run limits text name).1 = .ok value)
    (after : (m.run limits text name).2.exit.isSome ∨
      (m.run limits text name).2.storage.Shows "_" (.variadic .sequence)) :
    (¬m.Fails limits text name →
      unplaced ((m.run limits text name).2.run limits text' name') =
        unplaced (m.run limits (text ++ "\n,\n" ++ text') both)) ∧
    (m.Fails limits text name →
      unplaced (m.run limits text name) =
        unplaced (m.run limits (text ++ "\n,\n" ++ text') both)) :=
  ⟨Machine.run_append_of_not_fails limits m text text' name name' both ht ht' nonempty before ended
      after,
    Machine.run_append_of_fails limits m text text' name both ht ht' before⟩

/-- A text that ends in comments. -/
def remarked : String := "=(x, 1) # one\n# two"

/-- A text that starts with the documentation of a function. -/
def documented : String := "# three\ndef(f, x), print(doc(f)), f()"

/-- Comments at the end of the first text document nothing in the second one. -/
theorem run_append_with_comments :
    let twice := (Machine.bare.run ⟨10, 10⟩ remarked "a").2.run ⟨10, 10⟩ documented "b"
    twice.1 = .ok (.int 1) ∧ twice.2.world.stdout.written = "three\n" ∧
      unplaced twice =
        unplaced (Machine.bare.run ⟨10, 10⟩ (remarked ++ "\n,\n" ++ documented) "c") := by
  have value : (Machine.bare.run ⟨10, 10⟩ remarked "a").1 = .ok .null := by cbv
  have shows : (Machine.bare.run ⟨10, 10⟩ remarked "a").2.storage.getFunction "_" =
      .ok (.builtin [] (.variadic .sequence)) := by cbv
  have before : ((loadPrelude (Limits.engine ⟨10, 10⟩)).run .bare).2.storage.Shows "_"
      (.variadic .sequence) := by
    rw [run_loadPrelude_of_isEquipped rfl]
    exact ⟨[], rfl⟩
  have sizes : (Node.parse remarked).toOption.map (fun p => p.args.length) = some 1 ∧
      (Node.parse documented).toOption.map (fun p => p.args.length) = some 3 := by
    decide +kernel
  cases hr : Node.parse remarked with
  | error fault => simp [hr, Except.toOption] at sizes
  | ok parsed =>
    cases hd : Node.parse documented with
    | error fault => simp [hd, Except.toOption] at sizes
    | ok parsed' =>
      have nonempty : parsed'.args ≠ [] := by
        intro none
        simp [hd, none, Except.toOption] at sizes
      refine ⟨by cbv, by decide +kernel, ?_⟩
      have sound := Machine.not_fails_of_ok ⟨10, 10⟩ .bare remarked "a" value
      exact (run_append ⟨10, 10⟩ .bare remarked documented "a" "b" "c" hr hd nonempty before
        (.inr ⟨_, value⟩) (.inr ⟨_, shows⟩)).1 sound

/-! ### A machine without a sequence -/

/-- Lazy arguments are not looked at when they are passed. -/
theorem Closure.run_passAll_lazy (e : Engine) (depth : Nat) (arguments : List Node)
    (m : Machine) :
    (passAll e depth true arguments).run m = (.ok (arguments.map fun argument =>
      .function (.thunk [m.world.nextStamp] argument depth)), m) := by
  induction arguments with
  | nil => rfl
  | cons argument arguments ih =>
    rw [passAll, run_bind]
    show (passAll e depth true arguments >>= _).run m = _
    rw [run_bind, ih]
    rfl

/-- A function that binds `_` to `exit`, whatever it is called with. -/
def rebind : Callable :=
  .closure [0] "" [⟨"xs", true, true⟩] (.call "=" [.var "_" none, .var "exit" none] "" none)

/-- A machine with two globals: `_`, and `def`, which binds `_` anew. Importing a module leaves such
a machine if no program was run before. -/
def Machine.rebinding (sequence : Builtin) : Machine :=
  { Machine.start { nextStamp := 1 } with
    storage :=
      { outermost := builtinBindings
        globals := [("_", .function (.builtin [] sequence)), ("def", .function rebind)]
        globalNames := ["_", "def"] } }

theorem run_eval_rebinding (steps depth : Nat) (sequence : Builtin) (args : List Node)
    (doc : String) (span : Option Span) :
    ((engine steps (depth + 3)).eval (.call "def" args doc span)).run
        (Machine.rebinding sequence).forPrelude =
      (.ok .null, (Machine.rebinding (.unary .exit)).forPrelude) := by
  have enough : ¬ args.length < Param.required [⟨"xs", true, true⟩] := Nat.not_lt_zero _
  have arity : Callable.checkArity rebind.arity args.length "def" = .ok () := rfl
  have called : (applyWith (engine steps (depth + 2)) steps rebind args "def" doc).run
      (Machine.rebinding sequence).forPrelude =
        (.ok .null, (Machine.rebinding (.unary .exit)).forPrelude) := by
    unfold applyWith
    rw [ofExcept_bind, arity]
    show (Closure.call _ [⟨"xs", true, true⟩] _ args).run _ = _
    rw [Closure.call, if_neg enough, machine_bind, run_look, run_bind]
    simp only [Closure.bind, if_true, run_bind, Closure.run_passAll_lazy]
    rfl
  rw [run_eval_call (f := rebind) steps (depth + 2) rfl rfl, run_traced, called]

/-- It does not matter how often `_` is bound to `exit`. -/
theorem run_sequence_rebinding (steps depth : Nat) (sequence : Builtin) {nodes : List Node}
    (nonempty : nodes ≠ [])
    (h : ∀ node ∈ nodes, ∃ args doc span, node = .call "def" args doc span) :
    (Control.sequence (engine steps (depth + 3)) .null nodes).run
        (Machine.rebinding sequence).forPrelude =
      (.ok .null, (Machine.rebinding (.unary .exit)).forPrelude) := by
  induction nodes generalizing sequence with
  | nil => exact absurd rfl nonempty
  | cons node nodes ih =>
    obtain ⟨⟨args, doc, span, rfl⟩, rest⟩ := List.forall_mem_cons.mp h
    rw [Control.sequence, run_bind, run_eval_rebinding]
    by_cases last : nodes = []
    · subst last
      rfl
    · exact ih _ last rest

/-- Loading the prelude binds `_` to `exit`. -/
theorem run_loadPrelude_rebinding (steps depth : Nat) :
    (loadPrelude (engine steps (depth + 4))).run (Machine.rebinding (.variadic .sequence)) =
      (.ok (), (Machine.rebinding (.variadic .sequence)).withPrelude
        (Machine.rebinding (.unary .exit)).forPrelude) := by
  obtain ⟨nodes, doc, span, ds, parsed, definitions, names⟩ :=
    Embedded.exists_of_definedNames? Embedded.definedNames?_prelude
  have nonempty : nodes ≠ [] := by
    rintro rfl
    obtain rfl := List.map_eq_nil_iff.mp definitions.symm
    cases names
  have calls : ∀ node ∈ nodes, ∃ args doc span, node = .call "def" args doc span := by
    intro node hn
    have mem : Definition.ofNode? node ∈ ds.map some :=
      definitions ▸ List.mem_map_of_mem hn
    obtain ⟨d, -, hd⟩ := List.mem_map.mp mem
    obtain ⟨target, second, rest, span, shape, -⟩ := Definition.exists_of_ofNode? hd.symm
    exact ⟨_, _, _, shape⟩
  have sequence := run_sequence_rebinding steps depth (.variadic .sequence) nonempty calls
  have program := run_eval_program steps (depth + 3) rfl ⟨[], rfl⟩ nodes doc span sequence
  have exit : (Machine.rebinding (.unary .exit)).forPrelude.exit = none := rfl
  have ran : (execute (engine steps (depth + 4)) (pure ())
      ⟨Embedded.preludeIdentity, Embedded.prelude⟩).run
        (Machine.rebinding (.variadic .sequence)).forPrelude =
        (.ok (.ok .null), (Machine.rebinding (.unary .exit)).forPrelude) :=
    run_execute_of_eval rfl parsed program exit
  exact run_loadPrelude_of_execute rfl rfl List.not_mem_nil ran exit

/-- It is not enough that `_` is the sequence before the first run. If loading the prelude binds it
to `exit`, then the first of two texts ends the session with its value, and the two together call
`exit` with two arguments, which is a fault. -/
theorem run_append_loses_sequence :
    let m := Machine.rebinding (.variadic .sequence)
    let limits : Limits := ⟨5, 0⟩
    m.storage.Shows "_" (.variadic .sequence) ∧ (m.run limits "1" "").2.exit.isSome ∧
      ((m.run limits "1" "").2.run limits "2" "").1 = .ok (.int 1) ∧
      (m.run limits ("1" ++ "\n,\n" ++ "2") "").1 =
        .error ⟨.arity 1 2 "_", [⟨⟨1, 1⟩, ⟨3, 1⟩, some ⟨"<in>", "1\n,\n2"⟩⟩]⟩ := by
  intro m limits
  have loaded := run_loadPrelude_rebinding 0 1
  have run (text : String) := Machine.run_of_loadPrelude ⟨5, 0⟩ text "" loaded rfl
  refine ⟨⟨[], rfl⟩, ?_, ?_, ?_⟩
  · rw [run]
    decide +kernel
  · rw [run]
    cbv
  · rw [run]
    cbv

end CallLang
