import CallLang.Proofs.History

/-!
# How ending programs end

The first call of `exit` should decide how a program ends, and the program should be silent from
then on. Both hold unless something goes on in the ending program that does not look whether it is
ending: a call of `exit` itself, or the evaluation of a text, which runs in a machine that is not
ending.
-/

namespace CallLang

open CallLang.Action

/-- What can be read and what was written. -/
def World.streams (w : World) : Input × Output × Output := (w.stdin, w.stdout, w.stderr)

namespace Step

variable {s : Step}

/-- Only `exit` and evaluated texts store an outcome in an ending program. -/
theorem stores_of_isLate (hs : s.isLate) {o : Outcome} :
    s.stores = some o ↔ s = .exit o ∨ s = .adopt .evaluated o := by
  cases s with
  | exit outcome => simp [stores]
  | adopt origin outcome =>
    cases origin with
    | imported => cases hs
    | evaluated => simp [stores]
  | _ => simp [stores]

/-- The current machine itself neither reads nor writes in a late step. -/
theorem streams_apply (hs : s.isLate ∨ s.isLoading) (m : Machine)
    (nested : ∀ origin inner t, s = .nested origin inner t →
      (s.apply m).world.streams = m.world.streams) :
    (s.apply m).world.streams = m.world.streams := by
  cases s with
  | nested origin inner t => exact nested origin inner t rfl
  | write text | writeError text | readLine => simp [isLate, isLoading] at hs
  | _ => rfl

end Step

namespace Machine

variable (limits : Limits) (m : Machine) (text name : String)

/-- The first outcome that a run stores is the outcome of the run, unless the interpreter fails, and
is never replaced, if and only if `exit` and evaluated texts store no other one in the ending
program. -/
theorem firstExit_wins_iff (hm : m.exit = none) {o : Outcome}
    (ho : m.firstExit limits text name = some o) :
    ((¬m.Fails limits text name → (m.run limits text name).1 = o) ∧
      ∀ x ∈ m.history limits text name, x.ending → x.after.exit = some o) ↔
    ∀ x ∈ m.history limits text name, x.ending →
      ∀ o', x.step = .exit o' ∨ x.step = .adopt .evaluated o' → o' = o := by
  constructor
  · rintro ⟨-, kept⟩ x hx he o' hs
    have stored := (Step.stores_of_isLate (late_of_mem_history hm hx he)).mpr hs
    have after := kept x hx he
    rw [Moment.after, Step.exit_apply, stored, Option.some_or] at after
    exact Option.some.inj after
  · intro same
    have only : ∀ x ∈ m.history limits text name, x.ending →
        ∀ o', x.step.stores = some o' → o' = o := by
      intro x hx he o' hs
      exact same x hx he o' ((Step.stores_of_isLate (late_of_mem_history hm hx he)).mp hs)
    have first : m.exit.or (m.firstExit limits text name) = some o := by rw [hm, ho, Option.none_or]
    obtain ⟨final, pending⟩ := exit_of_stores first only
    rw [← run_snd] at final
    refine ⟨run_fst limits m text name final, fun x hx he => ?_⟩
    rw [Moment.after, Step.exit_apply, pending x hx he]
    cases hs : x.step.stores with
    | none => rfl
    | some o' => rw [only x hx he o' hs, Option.some_or]

/-- The call of a function goes on when its argument has ended the program, but its scope is all
that comes and goes. -/
theorem firstExit_wins_in_call :
    bare.exit = none ∧
    bare.firstExit .generous "def(f, a, a), f(exit(7))" "" = some (.ok (.int 7)) ∧
    (bare.run .generous "def(f, a, a), f(exit(7))" "").1 = .ok (.int 7) := by
  have first : bare.firstExit .generous "def(f, a, a), f(exit(7))" "" = some (.ok (.int 7)) := rfl
  have nothing : ∀ x ∈ bare.history .generous "def(f, a, a), f(exit(7))" "", x.ending →
      x.step.stores.isNone := by decide +kernel
  have sound : ¬bare.Fails .generous "def(f, a, a), f(exit(7))" "" := nofun
  refine ⟨rfl, first, ((firstExit_wins_iff _ _ _ _ rfl first).mpr ?_).1 sound⟩
  intro x hx he o' hs
  have unstored := nothing x hx he
  rcases hs with hs | hs <;> simp [hs, Step.stores] at unstored

/-- A call of `exit` replaces the outcome that its own argument has stored. -/
theorem exit_in_exit_replaces :
    bare.exit = none ∧
    bare.firstExit .generous "exit(exit(1))" "" = some (.ok (.int 1)) ∧
    (bare.run .generous "exit(exit(1))" "").1 = .ok .null :=
  ⟨rfl, rfl, rfl⟩

/-- From the moment at which the program is ending a run neither reads nor writes, if and only if no
nested program does so in the ending program. Unless the run begins in an ending program and loads
the prelude there, such a nested program is an evaluated text and never a module. -/
theorem silent_iff :
    ((∀ x ∈ m.history limits text name, x.ending →
        (m.run limits text name).2.world.streams = x.machine.world.streams) ↔
      ∀ x ∈ m.history limits text name, x.ending → ∀ origin inner s,
        x.step = .nested origin inner s → x.after.world.streams = x.machine.world.streams) ∧
    (m.exit = none → ∀ x ∈ m.history limits text name, x.ending → ∀ origin inner s,
      x.step = .nested origin inner s → origin = .evaluated) := by
  constructor
  · rw [run_snd]
    refine (kept_iff (fun m => m.world.streams) _ m).trans ⟨?_, ?_⟩
    · intro kept x hx he _ _ _ _
      exact kept x hx he
    · intro nested x hx he
      exact Step.streams_apply (late_or_loading hx he) x.machine (nested x hx he)
  · intro hm x hx he origin inner s hs
    have late := late_of_mem_history hm hx he
    rw [hs] at late
    exact Step.nested_of_isLate late

/-- A text whose computation has ended the program is evaluated all the same, and it writes. -/
theorem eval_of_exit_writes :
    ∃ x ∈ bare.history .generous "eval(append(\"print(1) \", printable(exit(5))))" "",
      x.ending ∧ x.machine.world.stdout.written = "" ∧
      (bare.run .generous "eval(append(\"print(1) \", printable(exit(5))))"
        "").2.world.stdout.written = "1\n" := by
  decide +kernel

end Machine

end CallLang
