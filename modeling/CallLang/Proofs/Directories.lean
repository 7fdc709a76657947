import CallLang.Proofs.ImportChains
import Mathlib

/-!
# What a run reads

A program sees files only by importing modules, and a module is a file of the directory of the
machine that imports it, or an embedded one. A module looks up its own imports in the directory that
it was found in, and an evaluated text has no directory. So two file systems that have the same
modules in one directory cannot be told apart by a run there.

`Confined` says this of an action: with other files that have the same modules it gives the same
result, and leaves the same machine with the other files.
-/

namespace CallLang

open CallLang.Action

namespace Files

/-- File systems with the same modules in a directory. Without a directory there is nothing to
compare. -/
def Agree (files others : Files) : Option Path → Prop
  | none => True
  | some directory => ∀ name, ModuleText.isName name →
      files.content? (ModuleText.fileOf directory name) =
        others.content? (ModuleText.fileOf directory name)

end Files

namespace ModuleText

variable {files others : Files} {directory : Option Path} {name : String}

/-- What a name stands for depends on the modules of the directory only. -/
theorem resolve_congr (h : files.Agree others directory) :
    resolve files directory name = resolve others directory name := by
  by_cases hn : isName name
  · have found : (directory.bind fun d => inDirectory? files d name) =
        directory.bind fun d => inDirectory? others d name := by
      cases directory with
      | none => rfl
      | some path => simp [inDirectory?, h name hn]
    simp [resolve, hn, found]
  · simp [resolve, hn]

/-- A module looks up its imports where it was found itself, or nowhere. -/
theorem agree_of_resolve {found : ModuleText} (h : files.Agree others directory)
    (hf : resolve files directory name = .ok found) : files.Agree others found.directory := by
  rcases resolve_cases hf with ⟨hd, -⟩ | ⟨hd, -⟩
  · rwa [hd]
  · rw [hd]
    trivial

end ModuleText

/-! ### Machines with other files -/

namespace Machine

variable (m : Machine) (files : Files)

@[simp]
theorem withFiles_withFiles (others : Files) :
    (m.withFiles files).withFiles others = m.withFiles others := rfl

@[simp]
theorem withFiles_nested (directory : Option Path) (sourceName : String) (embedded : Bool)
    (importStack : List String) :
    (m.withFiles files).nested directory sourceName embedded importStack =
      (m.nested directory sourceName embedded importStack).withFiles files := rfl

end Machine

/-- A step that a machine takes by itself does not look at the files. -/
theorem Step.apply_withFiles {s : Step} (h : s.isNested = false) (m : Machine) (files : Files) :
    s.apply (m.withFiles files) = (s.apply m).withFiles files ∧
      (s.apply m).world.files = m.world.files := by
  cases s with
  | nested => simp [isNested] at h
  | _ => exact ⟨rfl, rfl⟩

theorem Action.directory_run {α : Type} (act : Action α) (m : Machine) :
    (act.run m).2.directory = m.directory := by
  induction act generalizing m with
  | done r => rfl
  | look k ih => exact ih m m
  | step s next ih => exact (ih (s.apply m)).trans (s.directory_apply m)

/-! ### Confined actions -/

/-- With other files an action gives the same result and leaves the same machine with the other
files, and it writes no file. -/
def Action.SameWith {α : Type} (act : Action α) (m : Machine) (files : Files) : Prop :=
  act.run (m.withFiles files) = ((act.run m).1, (act.run m).2.withFiles files) ∧
    (act.run m).2.world.files = m.world.files

/-- An action that sees of the files only the modules of the directory. -/
def Confined {α : Type} (act : Action α) : Prop :=
  ∀ m files, m.world.files.Agree files m.directory → act.SameWith m files

namespace Confined

variable {α β : Type} {x : Action α} {m : Machine} {files : Files}

theorem done (r : Except Stop α) : Confined (Action.done r) := by
  intro m files _
  exact ⟨rfl, rfl⟩

theorem look {k : Machine → Action α} (hk : ∀ m, Confined (k m)) (hs : SeesNoFiles k) :
    Confined (Action.look k) := by
  intro m files agree
  rw [SameWith, run_look, run_look, hs]
  exact hk m m files agree

theorem resume {f : Except Stop α → Action β} (hx : Confined x) (hf : ∀ r, Confined (f r)) :
    Confined (x.resume f) := by
  intro m files agree
  obtain ⟨run, kept⟩ := hx m files agree
  rw [← kept, ← directory_run x] at agree
  obtain ⟨run', kept'⟩ := hf (x.run m).1 (x.run m).2 files agree
  rw [SameWith, run_resume, run_resume, run]
  exact ⟨run', kept'.trans kept⟩

theorem step {s : Step} (hs : s.isNested = false) (hx : Confined x) :
    Confined (Action.step s x) := by
  intro m files agree
  obtain ⟨apply, kept⟩ := s.apply_withFiles hs m files
  rw [← kept, ← s.directory_apply m] at agree
  obtain ⟨run, kept'⟩ := hx (s.apply m) files agree
  rw [SameWith, run_step, run_step, apply]
  exact ⟨run, kept'.trans kept⟩

theorem andFinally {s : Step} (hs : s.isNested = false) (hx : Confined x) :
    Confined (x.andFinally s) :=
  hx.resume fun r => step hs (done r)

/-! ### Nested machines -/

/-- The end of a nested machine looks at no file, whatever the files are. -/
theorem settle (m : Machine) (files : Files) (origin : Origin) (outcome : Outcome)
    (inner : Machine) (bindings : Bindings) :
    (Action.settle origin outcome inner bindings).SameWith m files := by
  rw [Action.settle]
  split
  · exact ⟨rfl, rfl⟩
  · rw [ofOutcome_bind]
    split <;> exact ⟨rfl, rfl⟩

/-- A nested machine has the files of the machine that starts it. If it looks up modules in a
directory where the file systems agree, what it leaves behind is the same, too. -/
theorem settled {act : Action Outcome} (hx : Confined act) {origin : Origin}
    {directory : Option Path} {sourceName : String} {embedded : Bool}
    {stack : Machine → List String} (bindings : Machine → Bindings)
    (hs : ∀ m files, stack (m.withFiles files) = stack m)
    (hb : ∀ m files, bindings (m.withFiles files) = bindings m)
    (agree : m.world.files.Agree files directory) :
    (inMachine origin (fun m => m.nested directory sourceName embedded (stack m)) act >>= fun r =>
      Action.settle origin r.1 r.2 (bindings r.2)).SameWith m files := by
  obtain ⟨run, kept⟩ := hx (m.nested directory sourceName embedded (stack m)) files agree
  rw [SameWith, run_bind, run_bind, run_inMachine _ _ _ rfl, run_inMachine _ _ _ rfl, hs,
    Machine.withFiles_nested, run]
  rcases hr : act.run (m.nested directory sourceName embedded (stack m)) with
    ⟨reason | outcome, inner⟩
  · rw [hr] at kept
    exact ⟨rfl, kept⟩
  · rw [hr] at kept
    obtain ⟨run', kept'⟩ := settle { m with world := inner.world } files origin outcome
      inner (bindings inner)
    refine ⟨?_, kept'.trans kept⟩
    refine Eq.trans ?_ run'
    rw [← hb inner files]
    rfl

theorem importWith {run : Source → Action Outcome} (name : String) (embeddedOnly : Bool)
    (hr : ∀ source, Confined (run source)) :
    Confined (Action.importWith run name embeddedOnly) := by
  intro m files agree
  have found : m.world.files.Agree files (if embeddedOnly then none else m.directory) := by
    cases embeddedOnly with
    | true => trivial
    | false => exact agree
  have same : ModuleText.resolve (m.withFiles files).world.files
      (if embeddedOnly then none else (m.withFiles files).directory) name =
        ModuleText.resolve m.world.files (if embeddedOnly then none else m.directory) name :=
    (ModuleText.resolve_congr found).symm
  rw [Action.importWith, SameWith, machine_bind, run_look, run_look]
  simp only [ofExcept_bind]
  rw [same]
  cases hf : ModuleText.resolve m.world.files (if embeddedOnly then none else m.directory) name with
  | error cause => exact done _ m files agree
  | ok module =>
    by_cases cyclic : module.identity ∈ m.importStack
    · have cyclic' : module.identity ∈ (m.withFiles files).importStack := cyclic
      simp only [cyclic, cyclic', if_true]
      exact done _ m files agree
    · have cyclic' : module.identity ∉ (m.withFiles files).importStack := cyclic
      simp only [cyclic, cyclic', if_false]
      exact settled (hr _) (fun inner => inner.exported)
        (fun _ _ => rfl) (fun _ _ => rfl) (ModuleText.agree_of_resolve found hf)

/-- An evaluated text has no directory, so it sees no files at all. -/
theorem evalText {e : Engine} (text : String) (hr : ∀ source, Confined (runText e source)) :
    (Action.evalText e text).SameWith m files :=
  settled (hr _) (fun _ => []) (fun _ _ => rfl) (fun _ _ => rfl) trivial

/-! ### Evaluation -/

theorem hereditary : Hereditary Confined Confined where
  live hx := hx
  done := done
  look := look
  lookLive := look
  resume := resume
  resumeLive := resume
  unlessExiting hyes hno := by
    rw [exiting_bind]
    refine look (fun m => ?_) fun _ _ => rfl
    cases m.exit.isSome
    · exact hno
    · exact hyes
  stepLive {α} {s} {x} hs hx := by
    cases s with
    | nested => simp [Step.isLive] at hs
    | _ => exact step rfl hx
  stamp := step rfl
  baseline := step rfl
  exit _ := step rfl
  inScope _ hx := step rfl (andFinally rfl hx)
  truncated _ hx := look (fun _ => step rfl (andFinally rfl hx)) fun _ _ => rfl
  importWith := importWith
  evalText text hr _ _ _ := evalText text hr

end Confined

/-- A run reads only the modules of the directory of its machine. With other files that have the
same modules there it has the same outcome, the same output and the same final machine, however
deeply modules import each other. A machine without a directory reads nothing, and neither does the
evaluation of a text in any machine. -/
theorem run_reads_own_directory (limits : Limits) (m : Machine) (files : Files) :
    (∀ text name,
      (∀ directory, m.directory = some directory → ∀ w, ModuleText.isName w →
        m.world.files.content? (ModuleText.fileOf directory w) =
          files.content? (ModuleText.fileOf directory w)) →
      (m.withFiles files).run limits text name =
        ((m.run limits text name).1, (m.run limits text name).2.withFiles files)) ∧
    ∀ text, (Action.evalText limits.engine text).run (m.withFiles files) =
      (((Action.evalText limits.engine text).run m).1,
        ((Action.evalText limits.engine text).run m).2.withFiles files) := by
  have confined := Confined.hereditary.runText limits
  constructor
  · intro text name same
    have agree : m.world.files.Agree files m.directory := by
      cases hd : m.directory with
      | none => trivial
      | some directory => exact same directory hd
    obtain ⟨run, -⟩ := confined (m.sourceOf name text) m files agree
    have source : (m.withFiles files).sourceOf name text = m.sourceOf name text := rfl
    simp only [Machine.run_eq, source, run]
  · intro text
    exact (Confined.evalText text confined).1

/-- A machine in a directory whose modules import each other, beside a file that is not in it. -/
def Machine.inShelf (outside : String) : Machine :=
  let contents := [(["y.re"], .ok outside), (["shelf", "x.re"], .ok "import(y), =(x, +(y, 1))"),
    (["shelf", "y.re"], .ok "=(y, 6)")]
  start { files := { contents := contents } } (some ["shelf"]) "<in>" false

/-- A module beside the directory is not seen, although an imported module has the same name. -/
theorem run_reads_own_shelf :
    ((Machine.inShelf "=(y, 0)").run ⟨20, 20⟩ "import(x), x" "").1 = .ok (.int 7) ∧
    ((Machine.inShelf "=(y, 0)").withFiles (Machine.inShelf "exit(1)").world.files).run ⟨20, 20⟩
        "import(x), x" "" =
      (.ok (.int 7), ((Machine.inShelf "=(y, 0)").run ⟨20, 20⟩ "import(x), x" "").2.withFiles
        (Machine.inShelf "exit(1)").world.files) := by
  have seven : ((Machine.inShelf "=(y, 0)").run ⟨20, 20⟩ "import(x), x" "").1 = .ok (.int 7) := by
    cbv
  refine ⟨seven, ?_⟩
  rw [← seven]
  refine (run_reads_own_directory ⟨20, 20⟩ _ _).1 _ _ fun directory hd w hw => ?_
  obtain rfl : ["shelf"] = directory := Option.some.inj hd
  simp [Files.content?, ModuleText.fileOf, Machine.inShelf, Machine.start]

end CallLang
