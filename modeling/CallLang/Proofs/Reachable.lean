import CallLang.Proofs.History

/-!
# Machines that come up

A program is run by a host, which keeps a machine from one run to the next. `Machine.Reachable` says
which machines a host can have in its hands, and `Reachable.preserved` which properties they all
have. While a run lasts, machines are nested in each other; `Moment.machines` lists them.
-/

namespace CallLang

open CallLang.Action

/-- The machines that are nested in the current one when it takes a step, outermost first. -/
def Step.machines : Step → List Machine
  | nested _ inner s => inner :: s.machines
  | _ => []

/-- All machines that run at a moment, outermost first. -/
def Moment.machines (x : Moment) : List Machine := x.machine :: x.step.machines

/-- The machines that a sequence of runs leaves to the host. -/
inductive Machine.Reachable : Machine → Prop where
  /-- A fresh machine has given out no type id. -/
  | start (world : World) (fresh : world.nextTypeId = Atom.firstTypeId)
      (directory : Option Path) (sourceName : String) (usePrelude : Bool) :
      Reachable (Machine.start world directory sourceName usePrelude)
  | run {m : Machine} (h : Reachable m) (limits : Limits) (text name : String) :
      Reachable (m.run limits text name).2
  | enterFile {m : Machine} (h : Reachable m) (path : Path) : Reachable (m.enterFile path)
  | importModule {m : Machine} (h : Reachable m) (limits : Limits) (name : String)
      (embeddedOnly : Bool) : Reachable (m.importModule limits name embeddedOnly).2
  /-- Between two runs files may change, and so may what there is to read and what was written. -/
  | meanwhile {m : Machine} (h : Reachable m) (files : Files) (stdin : Input)
      (stdout stderr : Output) :
      Reachable { m with world := { m.world with
        files := files, stdin := stdin, stdout := stdout, stderr := stderr } }

theorem Action.perform_snd {α : Type} (act : Action α) (m : Machine) :
    (act.perform m).2 = (act.run m).2 := by
  rw [perform]
  rcases act.run m with ⟨(_ | _) | _, _⟩ <;> rfl

/-- A file is run like its text, in a machine that has entered the file. -/
theorem Machine.Reachable.runFile {m : Machine} (h : m.Reachable) (limits : Limits)
    (path : String) : (m.runFile limits path).2.Reachable := by
  rw [Machine.runFile]
  split
  · exact (h.enterFile _).run ..
  · exact h

/-- What holds of fresh machines and outlasts runs, imports and everything else that a host does
holds of every machine that a host can have. -/
theorem Machine.Reachable.preserved {P : Machine → Prop}
    (start : ∀ world directory sourceName usePrelude, world.nextTypeId = Atom.firstTypeId →
      P (Machine.start world directory sourceName usePrelude))
    (run : ∀ limits source m, P m → P ((runText (Limits.engine limits) source).run m).2)
    (importModule : ∀ limits name embeddedOnly m, P m →
      P ((Action.importModule (Limits.engine limits) name embeddedOnly).run m).2)
    (enterFile : ∀ m path, P m → P (m.enterFile path))
    (meanwhile : ∀ m files stdin stdout stderr, P m →
      P { m with world := { m.world with
        files := files, stdin := stdin, stdout := stdout, stderr := stderr } })
    {m : Machine} (h : m.Reachable) : P m := by
  induction h with
  | start world fresh directory sourceName usePrelude => exact start _ _ _ _ fresh
  | run _ limits text name ih =>
    rw [Machine.run_snd]
    exact run _ _ _ ih
  | enterFile _ path ih => exact enterFile _ _ ih
  | importModule _ limits name embeddedOnly ih =>
    rw [Machine.importModule, perform_snd]
    exact importModule _ _ _ _ ih
  | meanwhile _ files stdin stdout stderr ih => exact meanwhile _ _ _ _ _ ih

end CallLang
