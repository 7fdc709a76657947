import CallLang.Closure
import CallLang.Module

/-!
# What actions do to a machine

An action is a sequence of steps that depends on the machine. These equations say what result and
what steps the ways of putting actions together have, so that statements about builtins follow
without a look at how actions are represented.
-/

namespace CallLang.Action

variable {α β : Type}

/-! ### Going on with a result -/

@[simp]
theorem run_done (r : Except Stop α) (m : Machine) : (done r).run m = (r, m) := rfl

@[simp]
theorem trace_done (r : Except Stop α) (m : Machine) : (done r).trace m = [] := rfl

@[simp]
theorem run_look (k : Machine → Action α) (m : Machine) : (look k).run m = (k m).run m := rfl

@[simp]
theorem trace_look (k : Machine → Action α) (m : Machine) : (look k).trace m = (k m).trace m := rfl

@[simp]
theorem run_step (s : Step) (x : Action α) (m : Machine) : (step s x).run m = x.run (s.apply m) :=
  rfl

@[simp]
theorem trace_step (s : Step) (x : Action α) (m : Machine) :
    (step s x).trace m = ⟨m, s⟩ :: x.trace (s.apply m) := rfl

@[simp]
theorem done_resume (r : Except Stop α) (f : Except Stop α → Action β) :
    (done r).resume f = f r := rfl

@[simp]
theorem look_resume (k : Machine → Action α) (f : Except Stop α → Action β) :
    (look k).resume f = look fun m => (k m).resume f := rfl

@[simp]
theorem step_resume (s : Step) (x : Action α) (f : Except Stop α → Action β) :
    (step s x).resume f = step s (x.resume f) := rfl

/-- What follows an action is done in the machine that the action leaves. -/
theorem run_resume (x : Action α) (f : Except Stop α → Action β) (m : Machine) :
    (x.resume f).run m = (f (x.run m).1).run (x.run m).2 := by
  induction x generalizing m with
  | done r => rfl
  | look k ih => exact ih m m
  | step s x ih => exact ih (s.apply m)

/-- The steps of an action come before the steps of what follows it. -/
theorem trace_resume (x : Action α) (f : Except Stop α → Action β) (m : Machine) :
    (x.resume f).trace m = x.trace m ++ (f (x.run m).1).trace (x.run m).2 := by
  induction x generalizing m with
  | done r => rfl
  | look k ih => exact ih m m
  | step s x ih => simp [ih (s.apply m)]

/-! ### Sequences of actions -/

/-- The second of two actions is done with the result of the first one, if there is one. -/
theorem bind_eq (x : Action α) (f : α → Action β) :
    x >>= f = x.resume fun
      | .ok a => f a
      | .error reason => stop reason := rfl

theorem pure_eq (a : α) : (pure a : Action α) = done (.ok a) := rfl

/-- The second of two actions is done in the machine that the first one leaves, if that succeeds. -/
theorem run_bind (x : Action α) (f : α → Action β) (m : Machine) :
    (x >>= f).run m =
      match x.run m with
      | (.ok a, m') => (f a).run m'
      | (.error reason, m') => (.error reason, m') := by
  rw [bind_eq, run_resume]
  rcases x.run m with ⟨_ | _, m'⟩ <;> rfl

theorem run_bind_of_ok {x : Action α} {f : α → Action β} {a : α} {m m₁ : Machine}
    (h : x.run m = (.ok a, m₁)) : (x >>= f).run m = (f a).run m₁ := by
  rw [run_bind, h]

/-- What goes on after an action has a result only if the action has one. -/
theorem run_bind_eq_ok_iff {x : Action α} {f : α → Action β} {b : β} {m m' : Machine} :
    (x >>= f).run m = (.ok b, m') ↔
      ∃ a m₁, x.run m = (.ok a, m₁) ∧ (f a).run m₁ = (.ok b, m') := by
  rw [run_bind]
  rcases x.run m with ⟨reason | a, m₁⟩ <;> simp [and_assoc]

theorem trace_bind (x : Action α) (f : α → Action β) (m : Machine) :
    (x >>= f).trace m =
      x.trace m ++
        match x.run m with
        | (.ok a, m') => (f a).trace m'
        | (.error _, _) => [] := by
  rw [bind_eq, trace_resume]
  rcases x.run m with ⟨_ | _, m'⟩ <;> rfl

theorem machine_bind (f : Machine → Action α) : machine >>= f = look f := rfl

theorem exiting_bind (f : Bool → Action α) :
    exiting >>= f = look fun m => f m.exit.isSome := rfl

theorem take_bind (s : Step) (f : Unit → Action α) : take s >>= f = step s (f ()) := rfl

theorem ofExcept_bind (x : Except Cause α) (f : α → Action β) :
    ofExcept x >>= f =
      match x with
      | .ok a => f a
      | .error cause => fail cause := by
  cases x <;> rfl

theorem ofOutcome_bind (x : Except Fault α) (f : α → Action β) :
    ofOutcome x >>= f =
      match x with
      | .ok a => f a
      | .error fault => stop (.fault fault) := by
  cases x <;> rfl

theorem nameOf_bind (node : Node) (place : NamePlace) (f : String → Action α) :
    nameOf node place >>= f =
      match node.name? with
      | some name => f name
      | none => failAt (.nameNeeded place) node.span := by
  rw [nameOf]
  cases node.name? <;> rfl

theorem lookupFunction_bind (name : String) (f : Callable → Action α) :
    lookupFunction name >>= f =
      look fun m =>
        match m.storage.getFunction name with
        | .ok callable => f callable
        | .error cause => fail cause := by
  rw [lookupFunction]
  rw [machine_bind, bind_eq, look_resume]
  congr 1
  funext m
  rcases m.storage.getFunction name with _ | _ <;> rfl

/-! ### Endings -/

theorem run_caught (f : Fault) (m : Machine) :
    (caught f : Action (Except Fault α)).run m =
      (if f.isDefect then .error (.fault f) else .ok (.error f), m) := by
  rw [caught]
  split <;> rfl

@[simp]
theorem trace_caught (f : Fault) (m : Machine) :
    (caught f : Action (Except Fault α)).trace m = [] := by
  rw [caught]
  split <;> rfl

/-- What an action that ends in some way gives when it is contained. Only a defect passes. -/
def contained : Except Stop α → Except Stop (Except Fault α)
  | .ok a => .ok (.ok a)
  | .error (.fault f) => if f.isDefect then .error (.fault f) else .ok (.error f)
  | .error .exhausted => .ok (.error ⟨.tooDeep, []⟩)

theorem run_contain (act : Action α) (m : Machine) :
    (contain act).run m = (contained (act.run m).1, (act.run m).2) := by
  rw [contain, run_resume]
  rcases act.run m with ⟨(f | _) | a, m'⟩
  · exact run_caught f m'
  · rfl
  · rfl

/-- An action takes the same steps when it is contained. -/
@[simp]
theorem trace_contain (act : Action α) (m : Machine) : (contain act).trace m = act.trace m := by
  rw [contain, trace_resume]
  rcases act.run m with ⟨(f | _) | a, m'⟩ <;> simp [pure_eq]

/-- A recorded call shows in faults only. -/
theorem run_traced (span : Option Span) (act : Action α) (m : Machine) :
    (traced span act).run m =
      (match (act.run m).1 with
        | .ok a => .ok a
        | .error (.fault f) => .error (.fault (f.addFrame span))
        | .error .exhausted => .error .exhausted,
        (act.run m).2) := by
  rw [traced, run_resume]
  rcases act.run m with ⟨(f | _) | a, m'⟩ <;> rfl

@[simp]
theorem run_andFinally (act : Action α) (s : Step) (m : Machine) :
    (act.andFinally s).run m = ((act.run m).1, s.apply (act.run m).2) := by
  rw [andFinally, run_resume]
  rfl

@[simp]
theorem trace_andFinally (act : Action α) (s : Step) (m : Machine) :
    (act.andFinally s).trace m = act.trace m ++ [⟨(act.run m).2, s⟩] := by
  rw [andFinally, trace_resume]
  rfl

/-! ### Nested machines -/

/-- An action in a nested machine changes nothing but the world of the current one, and the two
worlds stay the same. -/
theorem run_within (origin : Origin) (act : Action α) (inner m : Machine)
    (h : inner.world = m.world) :
    (act.within origin inner).run m =
      ((act.run inner).1.map fun a => (a, (act.run inner).2),
        { m with world := (act.run inner).2.world }) := by
  induction act generalizing inner m with
  | done r => cases r <;> simp [within, h, pure_eq, stop, Except.map]
  | look k ih => exact ih inner inner m h
  | step s x ih =>
    exact ih (s.apply inner) ((Step.nested origin inner s).apply m) rfl

/-- The steps of a nested machine are the steps that it would take as the current one. -/
theorem trace_within (origin : Origin) (act : Action α) (inner m : Machine)
    (h : inner.world = m.world) :
    (act.within origin inner).trace m =
      (act.trace inner).map fun x =>
        ⟨{ m with world := x.machine.world }, .nested origin x.machine x.step⟩ := by
  induction act generalizing inner m with
  | done r => cases r <;> rfl
  | look k ih => exact ih inner inner m h
  | step s x ih =>
    have tail := ih (s.apply inner) ((Step.nested origin inner s).apply m) rfl
    simp only [within, trace_step, List.map_cons, tail, h]
    rfl

theorem run_inMachine (origin : Origin) {other : Machine → Machine} (act : Action α) (m : Machine)
    (h : (other m).world = m.world) :
    (inMachine origin other act).run m =
      ((act.run (other m)).1.map fun a => (a, (act.run (other m)).2),
        { m with world := (act.run (other m)).2.world }) :=
  run_within origin act (other m) m h

theorem trace_inMachine (origin : Origin) {other : Machine → Machine} (act : Action α)
    (m : Machine) (h : (other m).world = m.world) :
    (inMachine origin other act).trace m =
      (act.trace (other m)).map fun x =>
        ⟨{ m with world := x.machine.world }, .nested origin x.machine x.step⟩ :=
  trace_within origin act (other m) m h

/-- What a nested program leaves to the machine that started it. -/
theorem run_settle (origin : Origin) (outcome : Outcome) (inner : Machine) (bindings : Bindings)
    (m : Machine) :
    (settle origin outcome inner bindings).run m =
      match inner.exit, outcome with
      | some stored, _ => (.ok .null, { m with exit := some stored })
      | none, .ok value =>
        (.ok value,
          { m with
            storage := m.storage.extend bindings inner.storage.globals
            world := m.world.countMerge })
      | none, .error fault => (.error (.fault fault), m) := by
  rw [settle]
  cases inner.exit with
  | some stored => rfl
  | none => cases outcome <;> rfl

/-- The import of a module that is found and not being imported. -/
theorem run_importWith {run : Source → Action Outcome} {m inner : Machine} {name : String}
    (embeddedOnly : Bool) {found : ModuleText} {outcome : Outcome}
    (hf : ModuleText.resolve m.world.files (if embeddedOnly then none else m.directory) name =
      .ok found)
    (acyclic : found.identity ∉ m.importStack)
    (hr : (run ⟨found.identity, found.text⟩).run
      (m.nested found.directory found.identity found.embedded
        (m.importStack ++ [found.identity])) = (.ok outcome, inner)) :
    (importWith run name embeddedOnly).run m =
      (settle .imported outcome inner inner.exported).run
        { m with world := inner.world } := by
  rw [importWith, machine_bind, run_look, hf, ofExcept_bind]
  dsimp only
  rw [if_neg acyclic, run_bind, run_inMachine _ _ _ (Machine.world_nested ..), hr]
  rfl

/-- The import of a module in which the interpreter fails. -/
theorem run_importWith_of_error {run : Source → Action Outcome} {m inner : Machine}
    {name : String} (embeddedOnly : Bool) {found : ModuleText} {reason : Stop}
    (hf : ModuleText.resolve m.world.files (if embeddedOnly then none else m.directory) name =
      .ok found)
    (acyclic : found.identity ∉ m.importStack)
    (hr : (run ⟨found.identity, found.text⟩).run
      (m.nested found.directory found.identity found.embedded
        (m.importStack ++ [found.identity])) = (.error reason, inner)) :
    (importWith run name embeddedOnly).run m =
      (.error reason, { m with world := inner.world }) := by
  rw [importWith, machine_bind, run_look, hf, ofExcept_bind]
  dsimp only
  rw [if_neg acyclic, run_bind, run_inMachine _ _ _ (Machine.world_nested ..), hr]
  rfl

/-- The evaluation of a text. -/
theorem run_evalText {e : Engine} {text : String} {m inner : Machine} {outcome : Outcome}
    (hr : (runText e ⟨"<eval>", text⟩).run (m.nested none "<eval>" false m.importStack) =
      (.ok outcome, inner)) :
    (evalText e text).run m =
      (settle .evaluated outcome inner []).run { m with world := inner.world } := by
  rw [evalText, run_bind, run_inMachine _ _ _ (Machine.world_nested ..), hr]
  rfl

end CallLang.Action

namespace CallLang.Closure

open CallLang.Action

/-- A definition takes a stamp and nothing else. -/
theorem define_bind {α : Type} (doc : String) (params : List Node) (body : Node)
    (f : Callable → Action α) :
    define doc params body >>= f =
      match checkedParams params with
      | .ok params =>
        look fun m =>
          step .takeStamp
            (f (.closure [m.world.nextStamp] doc params (body.copied m.world.nextStamp)))
      | .error fault => stop (.fault fault) := by
  rw [define]
  rw [ofOutcome_bind]
  cases checkedParams params <;> rfl

end CallLang.Closure
