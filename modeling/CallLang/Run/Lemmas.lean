import CallLang.Action.Lemmas
import CallLang.Run

/-!
# How runs end

A run has an outcome: what `exit` has stored, or else the outcome of the text itself. Only if the
interpreter itself fails there is none.
-/

namespace CallLang

open CallLang.Action

/-- Running a text gives the stored outcome of the machine that it leaves, if there is one, unless
the interpreter fails. -/
theorem Action.run_execute (e : Engine) (prepare : Action Unit) (source : Source) (m : Machine) :
    (∃ outcome m', (execute e prepare source).run m = (.ok (m'.exit.getD outcome), m')) ∨
      ∃ fault m', fault.isDefect ∧
        (execute e prepare source).run m = (.error (.fault fault), m') := by
  unfold execute
  rw [run_bind, run_contain]
  rcases Action.run _ m with ⟨(fault | _) | value, m'⟩
  · by_cases defect : fault.isDefect
    · exact .inr ⟨fault, m', defect, by rw [contained, if_pos defect]⟩
    · exact .inl ⟨.error fault, m', by rw [contained, if_neg defect]; rfl⟩
  · exact .inl ⟨_, m', rfl⟩
  · exact .inl ⟨_, m', rfl⟩

/-- The value of a call is what the function of that name gives. -/
theorem run_eval_call (steps depth : Nat) {m : Machine} {name : String} {f : Callable}
    (exit : m.exit = none) (hf : m.storage.getFunction name = .ok f) (args : List Node)
    (doc : String) (span : Option Span) :
    ((engine steps (depth + 1)).eval (.call name args doc span)).run m =
      ((applyWith (engine steps depth) steps f args name doc).traced span).run m := by
  show (evalWith (applyWith (engine steps depth) steps) (.call name args doc span)).run m = _
  rw [evalWith, exiting_bind, run_look, exit]
  show (traced span _).run m = _
  rw [run_traced, run_traced, lookupFunction_bind, run_look, hf]

/-- Nothing is evaluated in an ending program. -/
theorem run_eval_of_ending (steps depth : Nat) {m : Machine} (hm : m.exit.isSome) (node : Node) :
    ((engine steps depth).eval node).run m = (.ok .null, m) := by
  cases depth <;> simp [engine, evalWith, exiting_bind, hm, pure_eq]

/-- What a host is told of the end of a run. -/
def Outcome.ofResult : Except Stop Outcome → Outcome
  | .ok outcome => outcome
  | .error (.fault fault) => .error fault
  | .error .exhausted => .error ⟨.tooDeep, []⟩

namespace Machine

variable (limits : Limits) (m : Machine) (text name : String)

theorem run_eq :
    m.run limits text name =
      (Outcome.ofResult ((runText limits.engine (m.sourceOf name text)).run m).1,
        ((runText limits.engine (m.sourceOf name text)).run m).2) := by
  rw [run, perform]
  rcases (runText limits.engine (m.sourceOf name text)).run m with ⟨(fault | _) | outcome, m'⟩ <;>
    rfl

/-- The interpreter fails in the run of a text, which then has no outcome. -/
def Fails : Prop :=
  ∃ fault : Fault, fault.isDefect ∧
    ((runText limits.engine (m.sourceOf name text)).run m).1 = .error (.fault fault)

/-- A host is told of the defect. -/
theorem exists_run_of_fails (h : m.Fails limits text name) :
    ∃ fault : Fault, fault.isDefect ∧ (m.run limits text name).1 = .error fault := by
  obtain ⟨fault, defect, failed⟩ := h
  exact ⟨fault, defect, by rw [run_eq, failed]; rfl⟩

theorem run_snd :
    (m.run limits text name).2 = ((runText limits.engine (m.sourceOf name text)).run m).2 := by
  rw [run_eq]

/-- The run of a text has an outcome, unless the interpreter fails. -/
theorem runText_eq (ends : ¬m.Fails limits text name) :
    (runText limits.engine (m.sourceOf name text)).run m =
      (.ok (m.run limits text name).1, (m.run limits text name).2) := by
  rcases run_execute limits.engine (loadPrelude limits.engine) (m.sourceOf name text) m with
    ⟨outcome, m', hr⟩ | ⟨fault, m', defect, hr⟩
  · simp only [run_eq, runText, hr, Outcome.ofResult]
  · exact absurd ⟨fault, defect, congrArg Prod.fst hr⟩ ends

/-- A stored outcome is the outcome of the run, unless the interpreter fails. -/
theorem run_fst {outcome : Outcome} (h : (m.run limits text name).2.exit = some outcome)
    (ends : ¬m.Fails limits text name) : (m.run limits text name).1 = outcome := by
  have ran := runText_eq limits m text name ends
  rcases run_execute limits.engine (loadPrelude limits.engine) (m.sourceOf name text) m with
    ⟨other, m', hr⟩ | ⟨fault, m', -, hr⟩
  · rw [runText, hr] at ran
    obtain ⟨first, rfl⟩ := Prod.mk.inj ran
    rw [h] at first
    exact (Except.ok.inj first).symm
  · rw [runText, hr] at ran
    cases ran

theorem not_fails_of_ok {value : Atom} (h : (m.run limits text name).1 = .ok value) :
    ¬m.Fails limits text name := by
  intro fails
  obtain ⟨fault, -, failed⟩ := exists_run_of_fails limits m text name fails
  rw [h] at failed
  cases failed

end Machine

end CallLang
