import CallLang.Proofs.Hereditary
import CallLang.Run.Lemmas

/-!
# The history of a run

From the moment at which `exit` stores an outcome the program is ending: nothing is evaluated any
more, but the calls in progress still have to return. `Machine.history` has all the steps of a run,
and `Machine.late_of_mem_history` says which of them an ending program can take.

What an ending program leaves alone is a question about single steps: `Action.kept_iff`.
-/

namespace CallLang

open CallLang.Action

namespace Step

/-- The outcome that a step stores to end the program. -/
def stores : Step → Option Outcome
  | exit outcome => some outcome
  | adopt _ outcome => some outcome
  | _ => none

theorem exit_apply (s : Step) (m : Machine) : (s.apply m).exit = s.stores.or m.exit := by
  cases s <;> rfl

/-- An ending program keeps ending. -/
theorem isSome_exit_apply {m : Machine} (s : Step) (hm : m.exit.isSome) :
    (s.apply m).exit.isSome := by
  rw [exit_apply]
  cases s.stores <;> simp [hm]

theorem exit_of_isLive {s : Step} {m : Machine} (hs : s.isLive) (hm : m.exit = none) :
    (s.apply m).exit = none := by
  rw [exit_apply, hm]
  cases s <;> first | rfl | cases hs

/-- The steps that an ending program can take. -/
def isLate : Step → Bool
  | exit _ | enter _ | leave | hide _ | restore _ | takeStamp | markBaseline => true
  | adopt .evaluated _ | merge .evaluated [] _ | nested .evaluated _ _ => true
  | _ => false

/-- A nested program that goes on in an ending program is an evaluated text. -/
theorem nested_of_isLate {origin : Origin} {inner : Machine} {s : Step}
    (hs : (nested origin inner s).isLate) : origin = .evaluated := by
  cases origin with
  | imported => cases hs
  | evaluated => rfl

/-- An evaluated text leaves its globals behind and nothing else. -/
theorem merge_of_isLate {origin : Origin} {bindings globals : Bindings}
    (hs : (merge origin bindings globals).isLate) : origin = .evaluated ∧ bindings = [] := by
  cases origin with
  | imported => cases hs
  | evaluated =>
    cases bindings with
    | nil => exact ⟨rfl, rfl⟩
    | cons b bindings => cases hs

/-- The steps by which a run loads the prelude. -/
def isLoading : Step → Bool
  | beginPrelude | markBaseline => true
  | adopt .imported _ | merge .imported _ _ | nested .imported _ _ => true
  | _ => false

end Step

namespace Moment

/-- The machine after the step. -/
def after (x : Moment) : Machine := x.step.apply x.machine

/-- Whether the program was ending already. -/
def ending (x : Moment) : Bool := x.machine.exit.isSome

end Moment

namespace Machine

variable (limits : Limits) (m : Machine) (text name : String)

/-- The steps of a run. -/
def history : List Moment :=
  (runText limits.engine (m.sourceOf name text)).trace m

/-- The first outcome that a run stores to end the program. -/
def firstExit : Option Outcome :=
  (m.history limits text name).findSome? fun x => x.step.stores

/-- A machine that knows the builtins and will not know more. -/
def bare : Machine := start {} none "<in>" false

end Machine

/-! ### Actions in an ending program -/

namespace Action

variable {α β : Type}

theorem isSome_exit_run {m : Machine} (act : Action α) (hm : m.exit.isSome) :
    (act.run m).2.exit.isSome := by
  induction act generalizing m with
  | done r => exact hm
  | look k ih => exact ih m hm
  | step s x ih => exact ih (s.isSome_exit_apply hm)

theorem isSome_exit_of_mem {m : Machine} {act : Action α} {x : Moment} (hx : x ∈ act.trace m)
    (he : x.ending) : (act.run m).2.exit.isSome := by
  induction act generalizing m with
  | done r => simp at hx
  | look k ih => exact ih m hx
  | step s next ih =>
    rcases List.mem_cons.mp hx with rfl | hx
    · exact isSome_exit_run next (s.isSome_exit_apply he)
    · exact ih hx

/-- What has not changed since the program is ending has not changed since the action began, if the
program was ending then. -/
theorem kept_of_ending (f : Machine → β) {act : Action α} {m : Machine} (hm : m.exit.isSome)
    (h : ∀ x ∈ act.trace m, x.ending → f (act.run m).2 = f x.machine) :
    f (act.run m).2 = f m := by
  induction act with
  | done r => rfl
  | look k ih => exact ih m h
  | step s next ih => exact h ⟨m, s⟩ List.mem_cons_self hm

/-- A view of the machine is the same from the moment at which the program is ending if and only if
no step of the ending program changes it. -/
theorem kept_iff (f : Machine → β) (act : Action α) (m : Machine) :
    (∀ x ∈ act.trace m, x.ending → f (act.run m).2 = f x.machine) ↔
      ∀ x ∈ act.trace m, x.ending → f x.after = f x.machine := by
  induction act generalizing m with
  | done r => simp
  | look k ih => exact ih m m
  | step s next ih =>
    simp only [trace_step, run_step, List.forall_mem_cons, ← ih (s.apply m)]
    refine and_congr_left fun rest => forall_congr' fun hm => ?_
    rw [kept_of_ending f (s.isSome_exit_apply hm) rest]
    rfl

/-- If a program that is ending with an outcome, or ends with it first, stores no other one later,
then it is ending with that outcome at every later moment. -/
theorem exit_of_stores {act : Action α} {m : Machine} {o : Outcome}
    (first : m.exit.or ((act.trace m).findSome? fun x => x.step.stores) = some o)
    (same : ∀ x ∈ act.trace m, x.ending → ∀ o', x.step.stores = some o' → o' = o) :
    (act.run m).2.exit = some o ∧ ∀ x ∈ act.trace m, x.ending → x.machine.exit = some o := by
  induction act generalizing m with
  | done r => simpa using first
  | look k ih => exact ih m first same
  | step s next ih =>
    simp only [trace_step, List.forall_mem_cons] at same ⊢
    obtain ⟨now, later⟩ := same
    -- the outcome is pending after the step, or still to come
    have tail : (s.apply m).exit.or ((next.trace (s.apply m)).findSome? fun x => x.step.stores) =
        some o := by
      rw [Step.exit_apply]
      cases hm : m.exit with
      | none => cases hs : s.stores <;> simpa [hm, hs, List.findSome?_cons] using first
      | some o' =>
        obtain rfl : o' = o := by simpa [hm] using first
        cases hs : s.stores with
        | none => simp
        | some o'' => simp [now (by simp [Moment.ending, hm]) o'' hs]
    obtain ⟨final, rest⟩ := ih tail later
    refine ⟨final, fun he => ?_, rest⟩
    obtain ⟨o', ho'⟩ := Option.isSome_iff_exists.mp he
    rw [ho', Option.some_or] at first
    exact ho'.trans first

/-- A nested program takes its steps before the current machine can be ending because of it, and one
step ends its run. -/
theorem mem_trace_settled {origin : Origin} {other : Machine → Machine} {act : Action Outcome}
    {m : Machine} {x : Moment} (bindings : Machine → Bindings)
    (hw : ∀ m, (other m).world = m.world)
    (hx : x ∈ (inMachine origin other act >>= fun r =>
      settle origin r.1 r.2 (bindings r.2)).trace m) :
    x.machine.exit = m.exit ∧
      ((∃ inner s, x.step = .nested origin inner s) ∨ (∃ o, x.step = .adopt origin o) ∨
        ∃ inner, x.step = .merge origin (bindings inner) inner.storage.globals) := by
  rw [trace_bind, run_inMachine _ _ _ (hw m), trace_inMachine _ _ _ (hw m)] at hx
  rcases List.mem_append.mp hx with hx | hx
  · obtain ⟨y, -, rfl⟩ := List.mem_map.mp hx
    exact ⟨rfl, .inl ⟨_, _, rfl⟩⟩
  · cases hr : (act.run (other m)).1 with
    | error reason => simp [hr, Except.map] at hx
    | ok outcome =>
      simp only [hr, Except.map, settle] at hx
      split at hx
      · obtain rfl := List.mem_singleton.mp hx
        exact ⟨rfl, .inr (.inl ⟨_, rfl⟩)⟩
      · rw [ofOutcome_bind] at hx
        cases outcome with
        | error fault => simp [stop] at hx
        | ok value =>
          obtain rfl := List.mem_singleton.mp hx
          exact ⟨rfl, .inr (.inr ⟨_, rfl⟩)⟩

/-- A module is imported by loading steps, none of which finds the program ending if the first one
does not. -/
theorem mem_trace_importWith {run : Source → Action Outcome} {name : String} {embeddedOnly : Bool}
    {m : Machine} {x : Moment} (hx : x ∈ (importWith run name embeddedOnly).trace m) :
    x.machine.exit = m.exit ∧ x.step.isLoading := by
  change x ∈ (ofExcept _ >>= _).trace m at hx
  rw [ofExcept_bind] at hx
  split at hx
  · split at hx
    · simp [fail, stop] at hx
    · obtain ⟨exit, ⟨_, _, hs⟩ | ⟨_, hs⟩ | ⟨_, hs⟩⟩ :=
        mem_trace_settled (fun inner => inner.exported)
          (fun _ => Machine.world_nested ..) hx <;>
      exact ⟨exit, by rw [hs]; rfl⟩
  · simp [fail, stop] at hx

/-- A text is evaluated by the steps of its machine and one step that brings back its globals or the
outcome that it has stored. -/
theorem mem_trace_evalText {e : Engine} {text : String} {m : Machine} {x : Moment}
    (hx : x ∈ (evalText e text).trace m) :
    (∃ inner s, x.step = .nested .evaluated inner s) ∨ (∃ o, x.step = .adopt .evaluated o) ∨
      ∃ globals, x.step = .merge .evaluated [] globals := by
  obtain ⟨-, hs | hs | ⟨inner, hs⟩⟩ :=
    mem_trace_settled (fun _ => []) (fun _ => Machine.world_nested ..) hx
  · exact .inl hs
  · exact .inr (.inl hs)
  · exact .inr (.inr ⟨_, hs⟩)

end Action

/-! ### Late steps -/

/-- An action that takes late steps only when the program is ending. -/
def LateOnly {α : Type} (act : Action α) : Prop :=
  ∀ m, ∀ x ∈ act.trace m, x.ending → x.step.isLate

/-- The same of an action that begins before the program is ending. -/
def LateOnlyLive {α : Type} (act : Action α) : Prop :=
  ∀ m : Machine, m.exit = none → ∀ x ∈ act.trace m, x.ending → x.step.isLate

namespace LateOnly

variable {α β : Type} {x : Action α}

theorem done (r : Except Stop α) : LateOnly (Action.done r) := by
  intro m y hy
  simp at hy

theorem resume {f : Except Stop α → Action β} (hx : LateOnly x) (hf : ∀ r, LateOnly (f r)) :
    LateOnly (x.resume f) := by
  intro m y hy
  rw [trace_resume] at hy
  rcases List.mem_append.mp hy with hy | hy
  · exact hx m y hy
  · exact hf _ _ y hy

theorem step {s : Step} (hs : s.isLate) (hx : LateOnly x) : LateOnly (Action.step s x) := by
  intro m y hy
  rcases List.mem_cons.mp hy with rfl | hy
  · exact fun _ => hs
  · exact hx _ y hy

theorem andFinally {s : Step} (hs : s.isLate) (hx : LateOnly x) : LateOnly (x.andFinally s) :=
  resume hx fun r => step hs (done r)

/-- An evaluated text goes on in a program that is ending. -/
theorem evalText (e : Engine) (text : String) : LateOnly (Action.evalText e text) := by
  intro m y hy he
  rcases mem_trace_evalText hy with ⟨inner, s, hs⟩ | ⟨o, hs⟩ | ⟨globals, hs⟩ <;>
    simp [hs, Step.isLate]

end LateOnly

namespace LateOnlyLive

variable {α β : Type} {x : Action α}

theorem resume {f : Except Stop α → Action β} (hx : LateOnlyLive x) (hf : ∀ r, LateOnly (f r)) :
    LateOnlyLive (x.resume f) := by
  intro m hm y hy
  rw [trace_resume] at hy
  rcases List.mem_append.mp hy with hy | hy
  · exact hx m hm y hy
  · exact hf _ _ y hy

theorem stepLive {s : Step} (hs : s.isLive) (hx : LateOnlyLive x) :
    LateOnlyLive (Action.step s x) := by
  intro m hm y hy
  rcases List.mem_cons.mp hy with rfl | hy
  · simp [Moment.ending, hm]
  · exact hx _ (Step.exit_of_isLive hs hm) y hy

/-- What a module does, it does before the importing program can be ending. -/
theorem importWith (run : Source → Action Outcome) (name : String) (embeddedOnly : Bool) :
    LateOnlyLive (Action.importWith run name embeddedOnly) := by
  intro m hm y hy he
  obtain ⟨exit, -⟩ := mem_trace_importWith hy
  simp [Moment.ending, exit, hm] at he

end LateOnlyLive

theorem LateOnly.unlessExiting {α : Type} {f : Bool → Action α} (hp : LateOnly (f true))
    (hq : LateOnlyLive (f false)) : LateOnly (exiting >>= f) := by
  intro m
  rw [exiting_bind, trace_look]
  cases hm : m.exit with
  | none => exact hq m hm
  | some o => exact hp m

/-- An ending program takes late steps only. -/
theorem LateOnly.hereditary : Hereditary LateOnly LateOnlyLive where
  live hx m _ := hx m
  done := LateOnly.done
  look hk _ m := hk m m
  lookLive hk _ m := hk m m
  resume := LateOnly.resume
  resumeLive := LateOnlyLive.resume
  unlessExiting := LateOnly.unlessExiting
  stepLive := LateOnlyLive.stepLive
  stamp hx := hx.step rfl
  baseline hx := hx.step rfl
  exit _ hx := hx.step rfl
  inScope _ hx := (hx.andFinally rfl).step rfl
  truncated _ hx m := (hx.andFinally rfl).step rfl m
  importWith name embeddedOnly _ := LateOnlyLive.importWith _ name embeddedOnly
  evalText text _ := LateOnly.evalText _ text

/-! ### Runs -/

/-- Nothing is evaluated in an ending program. -/
theorem trace_eval {m : Machine} (hm : m.exit.isSome) (limits : Limits) (node : Node) :
    (limits.engine.eval node).trace m = [] := by
  obtain ⟨depth, steps⟩ := limits
  cases depth <;> simp [Limits.engine, engine, evalWith, exiting_bind, hm, pure_eq]

/-- All steps of a run are those of the preparation and of the evaluation. -/
theorem Action.trace_execute (e : Engine) (prepare : Action Unit) (source : Source) (m : Machine) :
    (execute e prepare source).trace m =
      (prepare >>= fun _ =>
        ofOutcome (Node.parse source.text (some source)) >>= e.eval).trace m := by
  rw [execute]
  rw [trace_bind, trace_contain]
  split <;> simp [pure_eq, machine_bind]

theorem Action.mem_trace_loadPrelude {e : Engine} {m : Machine} {x : Moment}
    (hx : x ∈ (loadPrelude e).trace m) : x.step.isLoading := by
  rw [loadPrelude] at hx
  rw [machine_bind, trace_look] at hx
  split at hx
  · simp [pure_eq] at hx
  · rw [take_bind, trace_step, List.mem_cons, trace_bind, List.mem_append] at hx
    rcases hx with rfl | hx | hx
    · rfl
    · exact (mem_trace_importWith hx).2
    · split at hx
      · obtain rfl := List.mem_singleton.mp hx
        rfl
      · simp at hx

namespace Machine

variable {limits : Limits} {m : Machine} {text name : String} {x : Moment}

/-- A run that begins before the program is ending takes late steps only once it is. -/
theorem late_of_mem_history (hm : m.exit = none) (hx : x ∈ m.history limits text name)
    (he : x.ending) : x.step.isLate :=
  LateOnly.hereditary.runText limits (m.sourceOf name text) m hm x hx he

/-- A run of a program that is ending already does nothing but load the prelude. -/
theorem loading_of_mem_history (hm : m.exit.isSome) (hx : x ∈ m.history limits text name) :
    x.step.isLoading := by
  rw [history, runText, trace_execute, trace_bind, List.mem_append] at hx
  rcases hx with hx | hx
  · exact mem_trace_loadPrelude hx
  · have loaded := isSome_exit_run (loadPrelude limits.engine) hm
    split at hx
    · rename_i hr
      rw [hr] at loaded
      rw [ofOutcome_bind] at hx
      split at hx
      · simp [trace_eval loaded] at hx
      · simp [stop] at hx
    · simp at hx

theorem late_or_loading (hx : x ∈ m.history limits text name) (he : x.ending) :
    x.step.isLate ∨ x.step.isLoading := by
  cases hm : m.exit with
  | none => exact .inl (late_of_mem_history hm hx he)
  | some o => exact .inr (loading_of_mem_history (by simp [hm]) hx)

end Machine

end CallLang
