import CallLang.Action.Lemmas
import CallLang.Run

/-!
# What holds of all evaluation

Evaluation is put together from few kinds of actions. A property that all ways of putting actions
together keep is hereditary, and a hereditary property holds of the evaluation of every expression
and of the run of every text (`Hereditary.eval`, `Hereditary.runText`).

The property comes as two predicates: `P` is about an action in any machine, and `Q` about an action
in a machine whose program is not ending. Where a builtin looks whether the program is ending before
it goes on, `Q` is enough for the rest.
-/

namespace CallLang

open CallLang.Action CallLang.Builtin

/-- The steps that a program takes only while it is not ending. -/
def Step.isLive : Step → Bool
  | .insert .. | .declareGlobal _ | .takeTypeId | .takeStamp | .readClock | .write _
  | .writeError _ | .readLine | .beginPrelude => true
  | _ => false

/-- The machine with other files. -/
def Machine.withFiles (m : Machine) (files : Files) : Machine :=
  { m with world := { m.world with files := files } }

/-- What is done after a look at a machine does not depend on its files. Of all looks at a machine,
only those of an import do. -/
def SeesNoFiles {α : Type} (k : Machine → Action α) : Prop :=
  ∀ m files, k (m.withFiles files) = k m

/-- Predicates on actions that hold of evaluation because all its parts keep them. -/
structure Hereditary (P Q : ∀ {α : Type}, Action α → Prop) : Prop where
  live {α : Type} {x : Action α} : P x → Q x
  done {α : Type} (r : Except Stop α) : P (Action.done r)
  look {α : Type} {k : Machine → Action α} : (∀ m, P (k m)) → SeesNoFiles k → P (Action.look k)
  lookLive {α : Type} {k : Machine → Action α} :
    (∀ m, Q (k m)) → SeesNoFiles k → Q (Action.look k)
  resume {α β : Type} {x : Action α} {f : Except Stop α → Action β} :
    P x → (∀ r, P (f r)) → P (x.resume f)
  resumeLive {α β : Type} {x : Action α} {f : Except Stop α → Action β} :
    Q x → (∀ r, P (f r)) → Q (x.resume f)
  unlessExiting {α : Type} {f : Bool → Action α} : P (f true) → Q (f false) → P (exiting >>= f)
  stepLive {α : Type} {s : Step} {x : Action α} : s.isLive → Q x → Q (Action.step s x)
  stamp {α : Type} {x : Action α} : P x → P (Action.step .takeStamp x)
  baseline {α : Type} {x : Action α} : P x → P (Action.step .markBaseline x)
  exit {α : Type} {x : Action α} (outcome : Outcome) : P x → P (Action.step (.exit outcome) x)
  inScope {α : Type} {x : Action α} (params : Bindings) : P x → P (x.inScope params)
  truncated {α : Type} {x : Action α} (depth : Nat) : P x → P (x.truncated depth)
  importWith {run : Source → Action Outcome} (name : String) (embeddedOnly : Bool) :
    (∀ source, Q (run source)) → Q (importWith run name embeddedOnly)
  evalText {e : Engine} (text : String) :
    (∀ source, Q (runText e source)) → P (evalText e text)

/-- An engine that keeps to hereditary predicates. A call that is not made by a bare name may happen
in an ending program, but only with a first argument that is no name. -/
structure Engine.Obeys (P Q : ∀ {α : Type}, Action α → Prop) (e : Engine) : Prop where
  eval (node : Node) : P (e.eval node)
  call (f : Callable) (args : List Node) (name doc : String) : Q (e.call f args name doc)
  callMethod (f : Callable) {self : Node} (args : List Node) (name doc : String) :
    self.name? = none → P (e.call f (self :: args) name doc)

namespace Hereditary

variable {P Q : ∀ {α : Type}, Action α → Prop} (h : Hereditary P Q)

include h

/-! ### Actions -/

section

variable {α β : Type} {x : Action α}

theorem bind {f : α → Action β} (hx : P x) (hf : ∀ a, P (f a)) : P (x >>= f) := by
  refine h.resume hx fun r => ?_
  cases r with
  | ok a => exact hf a
  | error reason => exact h.done _

theorem bindLive {f : α → Action β} (hx : Q x) (hf : ∀ a, P (f a)) : Q (x >>= f) := by
  refine h.resumeLive hx fun r => ?_
  cases r with
  | ok a => exact hf a
  | error reason => exact h.done _

theorem caught (f : Fault) : P (Action.caught f : Action (Except Fault α)) := by
  rw [Action.caught]
  split <;> exact h.done _

theorem attempt (hx : P x) : P x.attempt := by
  refine h.resume hx fun r => ?_
  rcases r with (f | _) | _
  · exact h.caught f
  · exact h.done _
  · exact h.done _

theorem containLive (hx : Q x) : Q x.contain := by
  refine h.resumeLive hx fun r => ?_
  rcases r with (f | _) | _
  · exact h.caught f
  · exact h.done _
  · exact h.done _

theorem tracedLive (span : Option Span) (hx : Q x) : Q (x.traced span) := by
  refine h.resumeLive hx fun r => ?_
  rcases r with (_ | _) | _ <;> exact h.done _

theorem ofExcept (r : Except Cause α) : P (Action.ofExcept r) := by
  cases r <;> exact h.done _

theorem ofOutcome (r : Except Fault α) : P (Action.ofOutcome r) := by
  cases r <;> exact h.done _

theorem nameOf (node : Node) (place : NamePlace) : P (Action.nameOf node place) := by
  rw [Action.nameOf]
  split <;> exact h.done _

theorem machine {f : Machine → Action α} (hf : ∀ m, P (f m)) (hs : SeesNoFiles f) :
    P (Action.machine >>= f) :=
  h.look hf hs

theorem machineLive {f : Machine → Action α} (hf : ∀ m, Q (f m)) (hs : SeesNoFiles f) :
    Q (Action.machine >>= f) :=
  h.lookLive hf hs

theorem takeLive {s : Step} {f : Unit → Action α} (hs : s.isLive) (hf : Q (f ())) :
    Q (take s >>= f) :=
  h.stepLive hs hf

end

theorem write (text : String) : P (Action.write text) := by
  refine h.unlessExiting (h.done _) (h.machineLive (fun m => ?_) fun _ _ => rfl)
  split
  · exact h.live (h.done _)
  · exact h.stepLive rfl (h.live (h.done _))

theorem writeError (text : String) : P (Action.writeError text) := by
  refine h.unlessExiting (h.done _) (h.machineLive (fun m => ?_) fun _ _ => rfl)
  split
  · exact h.live (h.done _)
  · exact h.stepLive rfl (h.live (h.done _))

theorem readLine : Q Action.readLine := by
  refine h.machineLive (fun m => ?_) fun _ _ => rfl
  dsimp only
  split
  · exact h.live (h.done _)
  · refine h.takeLive rfl (h.live ?_)
    split
    · exact h.done _
    · split <;> exact h.done _

theorem readClock : Q Action.readClock :=
  h.machineLive (fun _ => h.takeLive rfl (h.live (h.done _))) fun _ _ => rfl

/-! ### Arguments -/

section

variable {e : Engine} (he : e.Obeys P Q)

include he

theorem evalInt (node : Node) : P (Action.evalInt e node) := by
  refine h.bind (he.eval node) fun a => ?_
  cases a <;> exact h.done _

theorem evalBool (node : Node) : P (Action.evalBool e node) := by
  refine h.bind (he.eval node) fun a => ?_
  cases a <;> exact h.done _

theorem evalString (node : Node) : P (Action.evalString e node) := by
  refine h.bind (he.eval node) fun a => ?_
  cases a <;> exact h.done _

theorem evalObject (node : Node) : P (Action.evalObject e node) := by
  refine h.bind (he.eval node) fun a => ?_
  cases a <;> exact h.done _

theorem evalCallable (node : Node) (builtin : String) :
    P (CallLang.evalCallable e node builtin) := by
  refine h.bind (he.eval node) fun a => ?_
  cases a <;> exact h.done _

theorem evalAll (nodes : List Node) : P (Action.evalAll e nodes) := by
  induction nodes with
  | nil => exact h.done _
  | cons node nodes ih =>
    exact h.bind (he.eval node) fun _ => h.bind ih fun _ => h.done _

/-! ### Functions that programs define -/

theorem pass (depth : Nat) (isLazy : Bool) (argument : Node) :
    P (Closure.pass e depth isLazy argument) := by
  rw [Closure.pass]
  split
  · exact h.machine (fun _ => h.done _) fun _ _ => rfl
  · exact he.eval argument

theorem passAll (depth : Nat) (isLazy : Bool) (arguments : List Node) :
    P (Closure.passAll e depth isLazy arguments) := by
  induction arguments with
  | nil => exact h.done _
  | cons argument arguments ih =>
    exact h.bind (h.pass he depth isLazy argument) fun _ => h.bind ih fun _ => h.done _

theorem bindParams (depth : Nat) (params : List Param) (arguments : List Node) :
    P (Closure.bind e depth params arguments) := by
  induction params generalizing arguments with
  | nil => exact h.done _
  | cons param params ih =>
    unfold Closure.bind
    split
    · exact h.bind (h.passAll he depth _ arguments) fun _ => h.bind (ih []) fun _ => h.done _
    · cases arguments with
      | nil => exact h.done _
      | cons argument arguments =>
        exact h.bind (h.pass he depth _ argument) fun _ => h.bind (ih arguments) fun _ => h.done _

theorem callClosure (params : List Param) (body : Node) (arguments : List Node) :
    P (Closure.call e params body arguments) := by
  rw [Closure.call]
  split
  · exact h.done _
  · refine h.machine (fun m => ?_) fun _ _ => rfl
    refine h.bind (h.bindParams he _ params arguments) fun bindings => ?_
    exact h.inScope bindings (he.eval body)

/-! ### Control flow -/

theorem sequence (value : Atom) (nodes : List Node) : P (Control.sequence e value nodes) := by
  induction nodes generalizing value with
  | nil => exact h.done _
  | cons node nodes ih => exact h.bind (he.eval node) ih

theorem assign (target value : Node) : Q (Control.assign e target value) := by
  rw [Control.assign]
  split
  · exact h.live (h.done _)
  · refine h.bindLive (h.live (he.eval value)) fun a => h.unlessExiting (h.done _) ?_
    exact h.takeLive rfl (h.live (h.done _))

theorem when (condition body : Node) : P (Control.when e condition body) := by
  refine h.bind (h.evalBool he condition) fun b => ?_
  cases b
  · exact h.done _
  · exact he.eval body

theorem choose (condition yes no : Node) : P (Control.choose e condition yes no) := by
  refine h.bind (h.evalBool he condition) fun b => ?_
  cases b
  · exact he.eval no
  · exact he.eval yes

theorem loop (condition body : Node) (steps : Nat) : P (Control.loop e condition body steps) := by
  induction steps with
  | zero => exact h.done _
  | succ steps ih =>
    refine h.unlessExiting (h.done _) (h.live (h.bind (h.evalBool he condition) fun b => ?_))
    cases b
    · exact h.done _
    · exact h.bind (he.eval body) fun _ => ih

theorem raise (kind message : Node) : P (Control.raise e kind message) :=
  h.bind (h.evalString he kind) fun _ => h.bind (h.evalString he message) fun _ => h.done _

theorem recover (node : Node) : P (Control.recover e node) := by
  refine h.bind (h.attempt (he.eval node)) fun r => ?_
  cases r <;> exact h.done _

theorem exitWith (node : Node) : P (Control.exit e node) :=
  h.bind (h.attempt (he.eval node)) fun outcome => h.exit outcome (h.done _)

theorem assert (node : Node) : P (Control.assert e node) := by
  refine h.bind (h.evalBool he node) fun b => ?_
  cases b <;> exact h.done _

theorem assertEq (left right : Node) : P (Control.assertEq e left right) := by
  refine h.bind (he.eval left) fun x => h.bind (he.eval right) fun y => ?_
  split <;> exact h.done _

omit he in
theorem global (node : Node) : Q (Control.global node) := by
  rw [Control.global, nameOf_bind]
  split
  · exact h.takeLive rfl (h.live (h.done _))
  · exact h.live (h.done _)

omit he in
theorem define (doc : String) (nodes : List Node) : Q (Control.define doc nodes) := by
  unfold Control.define
  split
  · rw [nameOf_bind]
    split
    · rw [Closure.define_bind]
      split
      · refine h.lookLive (fun m => h.stepLive rfl ?_) fun _ _ => rfl
        exact h.takeLive rfl (h.live (h.done _))
      · exact h.live (h.done _)
    · exact h.live (h.done _)
  · exact h.live (h.done _)

omit he in
theorem lambda (nodes : List Node) : P (Control.lambda nodes) := by
  unfold Control.lambda
  split
  · exact h.done _
  · rw [Closure.define_bind]
    split
    · exact h.look (fun m => h.stamp (h.done _)) fun _ _ => rfl
    · exact h.done _

/-! ### Objects -/

theorem field (fields : Object.Fields) (node : Node) : P (Object.field e fields node) := by
  unfold Object.field
  split
  · rw [Object.Fields.addRequired]
    split <;> exact h.done _
  · refine h.bind (he.eval _) fun value => ?_
    rw [Object.Fields.addDefault]
    split <;> exact h.done _
  · exact h.done _
  · exact h.done _
  · exact h.done _

theorem fieldsOf (fields : Object.Fields) (nodes : List Node) :
    P (Object.fieldsOf e fields nodes) := by
  induction nodes generalizing fields with
  | nil => exact h.done _
  | cons node nodes ih => exact h.bind (h.field he fields node) ih

theorem newType (doc : String) (nodes : List Node) : Q (Object.newType e doc nodes) := by
  unfold Object.newType
  split
  · exact h.live (h.done _)
  · rw [nameOf_bind]
    split
    · refine h.bindLive (h.live (h.fieldsOf he _ _)) fun fields => ?_
      refine h.unlessExiting (h.done _) ?_
      refine h.lookLive (fun m => h.stepLive rfl ?_) fun _ _ => rfl
      exact h.takeLive rfl (h.live (h.done _))
    · exact h.live (h.done _)

theorem construct (required : List String) (defaults : Bindings) (typeId : Nat)
    (arguments : List Node) : P (Object.construct e required defaults typeId arguments) :=
  h.bind (h.evalAll he arguments) fun _ => h.done _

theorem getField (object field : Node) : P (Object.getField e object field) := by
  refine h.bind (h.evalObject he object) fun _ => h.bind (h.nameOf field _) fun name => ?_
  split <;> exact h.done _

theorem setField (object field value : Node) : P (Object.setField e object field value) := by
  refine h.bind (h.evalObject he object) fun _ => h.bind (h.nameOf field _) fun name => ?_
  split
  · exact h.bind (he.eval value) fun _ => h.done _
  · exact h.done _

theorem callMethod (nodes : List Node) : P (Object.callMethod e nodes) := by
  unfold Object.callMethod
  split
  · refine h.bind (h.evalObject he _) fun _ => h.bind (h.nameOf _ _) fun name => ?_
    split
    · exact he.callMethod _ _ _ _ rfl
    · exact h.done _
    · exact h.done _
  · exact h.done _

/-! ### Lists and strings -/

theorem evalSequence (node : Node) : P (Sequences.evalSequence e node) := by
  refine h.bind (he.eval node) fun value => ?_
  split <;> exact h.done _

theorem evalIndex (node : Node) : P (Sequences.evalIndex e node) := by
  refine h.bind (h.evalInt he node) fun index => ?_
  split <;> exact h.done _

omit he in
theorem checkBounds (seq : Sequence) (index : Nat) : P (Sequences.checkBounds seq index) := by
  rw [Sequences.checkBounds]
  split <;> exact h.done _

theorem length (sequence : Node) : P (Sequences.length e sequence) :=
  h.bind (h.evalSequence he sequence) fun _ => h.done _

theorem index (sequence position : Node) : P (Sequences.index e sequence position) := by
  refine h.bind (h.evalSequence he sequence) fun _ => h.bind (h.evalIndex he position) fun _ => ?_
  split <;> exact h.done _

theorem append (sequence element : Node) : P (Sequences.append e sequence element) := by
  refine h.bind (h.evalSequence he sequence) fun seq => ?_
  cases seq with
  | text cs => exact h.bind (h.evalString he element) fun _ => h.done _
  | items xs => exact h.bind (he.eval element) fun _ => h.done _

theorem replaceAt (sequence position element : Node) :
    P (Sequences.replaceAt e sequence position element) := by
  refine h.bind (h.evalSequence he sequence) fun seq => ?_
  refine h.bind (h.evalIndex he position) fun _ => h.bind (h.checkBounds _ _) fun _ => ?_
  cases seq with
  | text cs =>
    refine h.bind (h.evalString he element) fun s => ?_
    split <;> exact h.done _
  | items xs => exact h.bind (he.eval element) fun _ => h.done _

theorem removeAt (sequence position : Node) : P (Sequences.removeAt e sequence position) :=
  h.bind (h.evalSequence he sequence) fun _ =>
    h.bind (h.evalIndex he position) fun _ => h.bind (h.checkBounds _ _) fun _ => h.done _

theorem iterate (name : String) (body : Node) (elements : List Atom) :
    P (Sequences.iterate e name body elements) := by
  induction elements with
  | nil => exact h.done _
  | cons element elements ih =>
    refine h.unlessExiting (h.done _) (h.takeLive rfl (h.live ?_))
    exact h.bind (he.eval body) fun _ => ih

theorem forEach (sequence loopName body : Node) :
    P (Sequences.forEach e sequence loopName body) :=
  h.bind (h.evalSequence he sequence) fun _ =>
    h.bind (h.nameOf loopName _) fun _ => h.bind (h.iterate he _ body _) fun _ => h.done _

theorem concatAll (nodes : List Node) : P (Sequences.concatAll e nodes) := by
  induction nodes with
  | nil => exact h.done _
  | cons node nodes ih => exact h.bind (h.evalString he node) fun _ => h.bind ih fun _ => h.done _

/-! ### Streams -/

theorem print (nodes : List Node) : P (Stream.print e nodes) :=
  h.bind (h.evalAll he nodes) fun _ => h.bind (h.write _) fun _ => h.done _

theorem writeValue (node : Node) : P (Stream.writeValue e node) :=
  h.bind (he.eval node) fun _ => h.bind (h.write _) fun _ => h.done _

theorem printFault (node : Node) : P (Stream.printFault e node) := by
  refine h.bind (h.attempt (he.eval node)) fun r => ?_
  cases r with
  | error fault => exact h.bind (h.writeError _) fun _ => h.done _
  | ok value => exact h.unlessExiting (h.done _) (h.live (h.done _))

/-! ### Modules -/

theorem execute {prepare : Action Unit} (hp : Q prepare) (source : Source) :
    Q (Action.execute e prepare source) := by
  refine h.bindLive (h.containLive (h.bindLive hp fun _ => ?_)) fun _ => ?_
  · exact h.bind (h.ofOutcome _) fun program => he.eval program
  · exact h.machine (fun _ => h.done _) fun _ _ => rfl

theorem loadPrelude : Q (Action.loadPrelude e) := by
  refine h.machineLive (fun m => ?_) fun _ _ => rfl
  split
  · exact h.live (h.done _)
  · refine h.takeLive rfl (h.bindLive ?_ fun _ => h.baseline (h.done _))
    exact h.importWith _ _ (h.execute he (h.live (h.done _)))

/-- A hereditary property holds of the run of a text by an engine that obeys it. -/
theorem runTextOf (source : Source) : Q (Action.runText e source) :=
  h.execute he (h.loadPrelude he) source

theorem importNamed (node : Node) : Q (Control.importNamed e node) := by
  rw [Control.importNamed, nameOf_bind]
  split
  · exact h.importWith _ _ (h.runTextOf he)
  · exact h.live (h.done _)

theorem evalNamed (node : Node) : P (Control.eval e node) :=
  h.bind (h.evalString he node) fun text => h.evalText text (h.runTextOf he)

/-! ### Builtins -/

omit he in
theorem nullary (op : Nullary) : Q op.call := by
  cases op
  · exact h.bindLive h.readLine fun _ => h.done _
  · exact h.bindLive h.readClock fun _ => h.done _
  · exact h.bindLive h.readClock fun _ => h.done _

/-- Only `global` and `import` do something without a look at whether the program is ending, and
they insist on a name. -/
theorem unary (op : Unary) (a : Node) : Q (op.call e a) ∧ (a.name? = none → P (op.call e a)) := by
  have both (hp : P (op.call e a)) : Q (op.call e a) ∧ (a.name? = none → P (op.call e a)) :=
    ⟨h.live hp, fun _ => hp⟩
  cases op with
  | not => exact both (h.bind (h.evalBool he a) fun _ => h.done _)
  | toInt => exact both (h.bind (he.eval a) fun _ => h.ofExcept _)
  | toString => exact both (h.bind (he.eval a) fun _ => h.ofExcept _)
  | toBool => exact both (h.bind (he.eval a) fun _ => h.ofExcept _)
  | printable => exact both (h.bind (he.eval a) fun _ => h.done _)
  | length => exact both (h.length he a)
  | docOf => exact both (h.bind (h.evalCallable he a _) fun _ => h.done _)
  | argcOf =>
    refine both (h.bind (h.evalCallable he a _) fun f => ?_)
    split <;> exact h.done _
  | typeIdOf => exact both (h.bind (he.eval a) fun _ => h.done _)
  | assert => exact both (h.assert he a)
  | recover => exact both (h.recover he a)
  | exit => exact both (h.exitWith he a)
  | eval => exact both (h.evalNamed he a)
  | global =>
    refine ⟨h.global a, fun ha => ?_⟩
    simp only [Unary.call, Control.global, nameOf_bind, ha]
    exact h.done _
  | importModule =>
    refine ⟨h.importNamed he a, fun ha => ?_⟩
    simp only [Unary.call, Control.importNamed, nameOf_bind, ha]
    exact h.done _
  | write => exact both (h.writeValue he a)
  | printFault => exact both (h.printFault he a)

theorem binary (steps : Nat) (op : Binary) (a b : Node) :
    Q (op.call e steps a b) ∧ (a.name? = none → P (op.call e steps a b)) := by
  have both (hp : P (op.call e steps a b)) :
      Q (op.call e steps a b) ∧ (a.name? = none → P (op.call e steps a b)) :=
    ⟨h.live hp, fun _ => hp⟩
  cases op with
  | arith op =>
    exact both (h.bind (h.evalInt he a) fun _ => h.bind (h.evalInt he b) fun _ =>
      h.bind (h.ofExcept _) fun _ => h.done _)
  | compare op =>
    exact both (h.bind (h.evalInt he a) fun _ => h.bind (h.evalInt he b) fun _ => h.done _)
  | or =>
    refine both (h.bind (h.evalBool he a) fun x => ?_)
    cases x
    · exact h.bind (h.evalBool he b) fun _ => h.done _
    · exact h.done _
  | and =>
    refine both (h.bind (h.evalBool he a) fun x => ?_)
    cases x
    · exact h.done _
    · exact h.bind (h.evalBool he b) fun _ => h.done _
  | equals => exact both (h.bind (he.eval a) fun _ => h.bind (he.eval b) fun _ => h.done _)
  | assertEq => exact both (h.assertEq he a b)
  | assign =>
    refine ⟨h.assign he a b, fun ha => ?_⟩
    simp only [Binary.call, Control.assign, ha]
    exact h.done _
  | when => exact both (h.when he a b)
  | loop => exact both (h.bind (h.loop he a b steps) fun _ => h.done _)
  | raise => exact both (h.raise he a b)
  | index => exact both (h.index he a b)
  | append => exact both (h.append he a b)
  | removeAt => exact both (h.removeAt he a b)
  | getField => exact both (h.getField he a b)

theorem ternary (op : Ternary) (a b c : Node) : P (op.call e a b c) := by
  cases op with
  | choose => exact h.choose he a b c
  | replaceAt => exact h.replaceAt he a b c
  | forEach => exact h.forEach he a b c
  | setField => exact h.setField he a b c

theorem variadic (doc : String) (op : Variadic) (args : List Node) : Q (op.call e doc args) := by
  cases op with
  | sequence => exact h.live (h.sequence he .null args)
  | define => exact h.define doc args
  | lambda => exact h.live (h.lambda args)
  | list => exact h.live (h.bind (h.evalAll he args) fun _ => h.done _)
  | concat => exact h.live (h.bind (h.concatAll he args) fun _ => h.done _)
  | print => exact h.live (h.print he args)
  | newType => exact h.newType he doc args
  | callMethod => exact h.live (h.callMethod he args)

/-- Definitions of functions and types insist on a name before they do anything. -/
theorem variadicMethod (doc : String) (op : Variadic) {self : Node} (args : List Node)
    (hs : self.name? = none) : P (op.call e doc (self :: args)) := by
  cases op with
  | sequence => exact h.sequence he .null _
  | define =>
    cases args with
    | nil => exact h.done _
    | cons second rest =>
      simp only [Variadic.call, Control.define, nameOf_bind, hs]
      exact h.done _
  | lambda => exact h.lambda (self :: args)
  | list => exact h.bind (h.evalAll he _) fun _ => h.done _
  | concat => exact h.bind (h.concatAll he _) fun _ => h.done _
  | print => exact h.print he _
  | newType =>
    simp only [Variadic.call, Object.newType, nameOf_bind, hs]
    exact h.done _
  | callMethod => exact h.callMethod he _

theorem builtin (steps : Nat) (doc : String) (b : Builtin) (args : List Node) :
    Q (Builtin.call e steps doc b args) := by
  unfold Builtin.call
  split
  · exact h.nullary _
  · exact (h.unary he _ _).1
  · exact (h.binary he steps _ _ _).1
  · exact h.live (h.ternary he _ _ _ _)
  · exact h.variadic he doc _ _
  · exact h.live (h.done _)

theorem builtinMethod (steps : Nat) (doc : String) (b : Builtin) {self : Node} (args : List Node)
    (hs : self.name? = none) : P (Builtin.call e steps doc b (self :: args)) := by
  generalize hargs : self :: args = nodes
  unfold Builtin.call
  split
  · cases hargs
  · obtain ⟨rfl, -⟩ := List.cons.inj hargs
    exact (h.unary he _ _).2 hs
  · obtain ⟨rfl, -⟩ := List.cons.inj hargs
    exact (h.binary he steps _ _ _).2 hs
  · exact h.ternary he _ _ _ _
  · subst hargs
    exact h.variadicMethod he doc _ args hs
  · exact h.done _

theorem apply (steps : Nat) (f : Callable) (args : List Node) (name doc : String) :
    Q (applyWith e steps f args name doc) := by
  unfold applyWith
  rw [ofExcept_bind]
  split
  · cases f with
    | builtin stamp b => exact h.builtin he steps doc b args
    | closure stamp doc params body => exact h.live (h.callClosure he params body args)
    | thunk stamp argument depth => exact h.live (h.truncated depth (he.eval argument))
    | constructor stamp doc required defaults typeId =>
      exact h.live (h.construct he required defaults typeId args)
  · exact h.live (h.done _)

theorem applyMethod (steps : Nat) (f : Callable) {self : Node} (args : List Node)
    (name doc : String) (hs : self.name? = none) :
    P (applyWith e steps f (self :: args) name doc) := by
  unfold applyWith
  refine h.bind (h.ofExcept _) fun _ => ?_
  cases f with
  | builtin stamp b => exact h.builtinMethod he steps doc b args hs
  | closure stamp doc params body => exact h.callClosure he params body _
  | thunk stamp argument depth => exact h.truncated depth (he.eval argument)
  | constructor stamp doc required defaults typeId =>
    exact h.construct he required defaults typeId _

end

/-! ### Evaluation -/

theorem evalWith {call : Callable → List Node → String → String → Action Atom}
    (hc : ∀ f args name doc, Q (call f args name doc)) (node : Node) :
    P (CallLang.evalWith call node) := by
  refine h.unlessExiting (h.done _) ?_
  cases node with
  | literal value span => exact h.live (h.done _)
  | var name span =>
    refine h.live (h.machine (fun m => ?_) fun _ _ => rfl)
    split <;> exact h.done _
  | call name args doc span =>
    refine h.tracedLive span ?_
    rw [lookupFunction_bind]
    refine h.lookLive (fun m => ?_) fun _ _ => rfl
    split
    · exact hc _ args name doc
    · exact h.live (h.done _)

/-- The engines of all depths obey a hereditary property. -/
theorem obeys (steps depth : Nat) : (engine steps depth).Obeys P Q := by
  induction depth with
  | zero =>
    refine ⟨h.evalWith fun _ _ _ _ => h.live (h.done _), fun _ _ _ _ => h.live (h.done _), ?_⟩
    intro f self args name doc hs
    exact h.done _
  | succ depth ih =>
    refine ⟨h.evalWith (h.apply ih steps), h.apply ih steps, ?_⟩
    intro f self args name doc hs
    exact h.applyMethod ih steps f args name doc hs

/-- A hereditary property holds of the evaluation of every expression. -/
theorem eval (limits : Limits) (node : Node) : P (limits.engine.eval node) :=
  (h.obeys limits.steps limits.depth).eval node

/-- A hereditary property holds of the run of every text. -/
theorem runText (limits : Limits) (source : Source) : Q (Action.runText limits.engine source) :=
  h.runTextOf (h.obeys limits.steps limits.depth) source

end Hereditary

end CallLang
