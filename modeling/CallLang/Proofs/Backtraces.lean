import CallLang.Proofs.Regions
import CallLang.Proofs.Sessions

/-!
# Backtraces

A fault records the places of the calls that it leaves on its way out. Whatever a program does, with
functions of other modules, of the prelude and of evaluated texts, or with arguments that are
evaluated late, the places in its machine exist: every expression that it holds was parsed from the
text that its span refers to, and evaluation makes no new places (`Engine.KeepsPlaces`).

So a fault that a run ends with has a sound backtrace (`Machine.Raises.leadsTo`): it ends with the
program, no place comes twice in a row, and all places in it exist.
-/

namespace CallLang

open CallLang.Action CallLang.Builtin

/-! ### Actions -/

/-- An action that leads from a well placed machine to a well placed result in a well placed
machine. -/
def Action.KeepsPlaces {α : Type} [Places α] (x : Action α) : Prop :=
  ∀ m, WellPlaced m → WellPlaced (x.run m)

namespace Action.KeepsPlaces

section

variable {α β : Type} [Places α] [Places β] {x : Action α}

protected theorem pure {a : α} (h : WellPlaced a) : (pure a : Action α).KeepsPlaces :=
  fun _ hm => ⟨h, hm⟩

protected theorem stop {reason : Stop} (h : WellPlaced reason) :
    (stop reason : Action α).KeepsPlaces :=
  fun _ hm => ⟨h, hm⟩

protected theorem exhausted : (Action.stop .exhausted : Action α).KeepsPlaces := .stop trivial

protected theorem fail (cause : Cause) : (fail cause : Action α).KeepsPlaces :=
  .stop (Fault.wellPlaced_nowhere cause)

protected theorem failAt (cause : Cause) {span : Option Span} (h : WellPlaced span) :
    (failAt cause span : Action α).KeepsPlaces :=
  .stop (Fault.wellPlaced_at? cause h)

protected theorem look {k : Machine → Action α} (h : ∀ m, WellPlaced m → (k m).KeepsPlaces) :
    (look k).KeepsPlaces :=
  fun m hm => h m hm m hm

protected theorem machine {f : Machine → Action α} (h : ∀ m, WellPlaced m → (f m).KeepsPlaces) :
    (machine >>= f).KeepsPlaces :=
  .look h

protected theorem step {s : Step} (hs : WellPlaced s) (hx : x.KeepsPlaces) :
    (step s x).KeepsPlaces :=
  fun _ hm => hx _ (Step.wellPlaced_apply hs hm)

protected theorem take {s : Step} {f : Unit → Action α} (hs : WellPlaced s)
    (hf : (f ()).KeepsPlaces) : (take s >>= f).KeepsPlaces :=
  .step hs hf

theorem resume {f : Except Stop α → Action β} (hx : x.KeepsPlaces)
    (hf : ∀ r, WellPlaced r → (f r).KeepsPlaces) : (x.resume f).KeepsPlaces := by
  intro m hm
  obtain ⟨result, after⟩ := hx m hm
  rw [run_resume]
  exact hf _ result _ after

theorem bind {f : α → Action β} (hx : x.KeepsPlaces)
    (hf : ∀ a, WellPlaced a → (f a).KeepsPlaces) : (x >>= f).KeepsPlaces := by
  refine hx.resume fun r hr => ?_
  cases r with
  | ok a => exact hf a hr
  | error reason => exact .stop hr

theorem caught {f : Fault} (h : WellPlaced f) :
    (Action.caught f : Action (Except Fault α)).KeepsPlaces := by
  rw [Action.caught]
  split
  · exact .stop h
  · exact .pure h

theorem attempt (hx : x.KeepsPlaces) : x.attempt.KeepsPlaces := by
  refine hx.resume fun r hr => ?_
  match r with
  | .ok a => exact .pure hr
  | .error (.fault f) => exact caught hr
  | .error .exhausted => exact .exhausted

theorem contain (hx : x.KeepsPlaces) : x.contain.KeepsPlaces := by
  refine hx.resume fun r hr => ?_
  match r with
  | .ok a => exact .pure hr
  | .error (.fault f) => exact caught hr
  | .error .exhausted => exact .pure (Fault.wellPlaced_nowhere _)

theorem traced {span : Option Span} (hs : WellPlaced span) (hx : x.KeepsPlaces) :
    (x.traced span).KeepsPlaces := by
  refine hx.resume fun r hr => ?_
  match r with
  | .ok a => exact .pure hr
  | .error (.fault f) => exact .stop (Fault.wellPlaced_addFrame hr hs)
  | .error .exhausted => exact .exhausted

theorem andFinally {s : Step} (hs : WellPlaced s) (hx : x.KeepsPlaces) :
    (x.andFinally s).KeepsPlaces :=
  hx.resume fun _ hr => .step hs fun _ hm => ⟨hr, hm⟩

theorem inScope {params : Bindings} (hp : WellPlaced params) (hx : x.KeepsPlaces) :
    (x.inScope params).KeepsPlaces :=
  .step hp (hx.andFinally trivial)

theorem truncated (depth : Nat) (hx : x.KeepsPlaces) : (x.truncated depth).KeepsPlaces := by
  refine .look fun m hm => .step trivial (hx.andFinally ?_)
  exact fun b hb => hm.1 b (Storage.mem_all_of_hidden hb)

protected theorem ofExcept {r : Except Cause α} (h : ∀ a, r = .ok a → WellPlaced a) :
    (ofExcept r).KeepsPlaces := by
  cases r with
  | ok a => exact .pure (h a rfl)
  | error cause => exact .fail cause

protected theorem ofOutcome {r : Except Fault α} (h : WellPlaced r) :
    (ofOutcome r).KeepsPlaces := by
  cases r with
  | ok a => exact .pure h
  | error fault => exact .stop h

protected theorem nameOf {node : Node} (h : WellPlaced node) (place : NamePlace) :
    (nameOf node place).KeepsPlaces := by
  rw [Action.nameOf]
  split
  · exact .pure trivial
  · exact .failAt _ (Node.wellPlaced_span h)

protected theorem unlessExiting {f : Bool → Action α} (ending : (f true).KeepsPlaces)
    (going : (f false).KeepsPlaces) : (exiting >>= f).KeepsPlaces := by
  rw [exiting_bind]
  refine .look fun m _ => ?_
  cases m.exit with
  | none => exact going
  | some o => exact ending

/-- An action in a nested machine. -/
theorem inMachine {origin : Origin} {directory : Option Path} {sourceName : String}
    {embedded : Bool} {stack : Machine → List String} (hx : x.KeepsPlaces) :
    (inMachine origin
      (fun m => m.nested directory sourceName embedded (stack m)) x).KeepsPlaces := by
  intro m hm
  have inside := hx _ (Machine.wellPlaced_nested hm directory sourceName embedded (stack m))
  obtain ⟨result, after⟩ := inside
  rw [run_inMachine _ _ _ rfl]
  refine ⟨?_, hm⟩
  revert result
  cases (x.run (m.nested directory sourceName embedded (stack m))).1 with
  | ok a => exact fun result => ⟨result, after⟩
  | error reason => exact id

end

protected theorem lookup (name : String) {span : Option Span} (h : WellPlaced span) :
    (lookup name span).KeepsPlaces := by
  refine .machine fun m hm => ?_
  split
  · rename_i value hv
    exact .pure (hm.1 _ (Storage.mem_all_of_get? hv)).2
  · exact .failAt _ h

protected theorem lookupFunction (name : String) : (lookupFunction name).KeepsPlaces := by
  refine .machine fun m hm => .ofExcept fun f hf => ?_
  rw [Storage.getFunction] at hf
  split at hf
  · rename_i g hg
    obtain rfl := Except.ok.inj hf
    exact (hm.1 _ (Storage.mem_all_of_get? hg)).2
  · cases hf
  · cases hf

protected theorem write (text : String) : (write text).KeepsPlaces := by
  refine .unlessExiting (.pure trivial) (.machine fun m _ => ?_)
  split
  · exact .fail _
  · exact .step trivial (.pure trivial)

protected theorem writeError (text : String) : (writeError text).KeepsPlaces := by
  refine .unlessExiting (.pure trivial) (.machine fun m _ => ?_)
  split
  · exact .fail _
  · exact .step trivial (.pure trivial)

protected theorem readLine : readLine.KeepsPlaces := by
  refine .machine fun m _ => ?_
  dsimp only
  split
  · exact .fail _
  · refine .take trivial ?_
    split
    · exact .fail _
    · split
      · exact .pure trivial
      · exact .fail _

protected theorem readClock : readClock.KeepsPlaces :=
  .machine fun _ _ => .take trivial (.pure trivial)

protected theorem freshTypeId : freshTypeId.KeepsPlaces :=
  .machine fun _ _ => .take trivial (.pure trivial)

protected theorem nextStamp : nextStamp.KeepsPlaces :=
  .machine fun _ _ => .pure trivial

protected theorem freshStamp : freshStamp.KeepsPlaces :=
  KeepsPlaces.nextStamp.bind fun _ _ => .take trivial (.pure trivial)

/-- What a nested program leaves behind. -/
protected theorem settle {origin : Origin} {outcome : Outcome} {inner : Machine}
    {bindings : Bindings} (ho : WellPlaced outcome) (hi : WellPlaced inner)
    (hb : WellPlaced bindings) : (settle origin outcome inner bindings).KeepsPlaces := by
  rw [Action.settle]
  split
  · rename_i stored hs
    exact .take (hi.2.2 stored hs) (.pure trivial)
  · refine (KeepsPlaces.ofOutcome ho).bind fun value hv => .take ⟨hb, ?_⟩ (.pure hv)
    exact wellPlaced_of_subset hi.1 fun b hb => Storage.mem_all.mpr (.inr (.inr hb))

end Action.KeepsPlaces

/-! ### Functions that programs define -/

namespace Closure

theorem wellPlaced_paramOf {node : Node} (h : WellPlaced node) : WellPlaced (paramOf node) := by
  have here := Node.wellPlaced_span h
  rw [paramOf]
  split
  · split
    · trivial
    · exact Fault.wellPlaced_at? _ here
  · exact Fault.wellPlaced_at? _ here

theorem wellPlaced_paramsOf {nodes : List Node} (h : WellPlaced nodes) :
    WellPlaced (paramsOf nodes) := by
  induction nodes with
  | nil => exact wellPlaced_nil
  | cons node nodes ih =>
    obtain ⟨first, rest⟩ := wellPlaced_cons.mp h
    have param := wellPlaced_paramOf first
    have params := ih rest
    rw [paramsOf]
    revert param params
    cases paramOf node with
    | error fault => exact fun param _ => param
    | ok param =>
      intro _
      cases paramsOf nodes with
      | error fault => exact id
      | ok params => exact fun params => wellPlaced_cons.mpr ⟨trivial, params⟩

theorem wellPlaced_checkedParams {nodes : List Node} (h : WellPlaced nodes) :
    WellPlaced (checkedParams nodes) := by
  have params := wellPlaced_paramsOf h
  rw [checkedParams]
  revert params
  cases paramsOf nodes with
  | error fault => exact id
  | ok params =>
    intro placed
    simp only [Bind.bind, Except.bind]
    split
    · exact placed
    · exact Fault.wellPlaced_nowhere _

/-- A function has a copy of the body that it was defined with. -/
theorem define_keepsPlaces (doc : String) {params : List Node} {body : Node}
    (hp : WellPlaced params) (hb : WellPlaced body) : (define doc params body).KeepsPlaces := by
  refine (KeepsPlaces.ofOutcome (wellPlaced_checkedParams hp)).bind fun _ _ => ?_
  exact KeepsPlaces.freshStamp.bind fun _ _ => .pure (Node.wellPlaced_copied body hb)

end Closure

/-! ### Builtins -/

instance : Places Object.Fields := ⟨fun fields => WellPlaced fields.defaults⟩

instance : Places Sequence where
  WellPlaced
    | .text _ => True
    | .items xs => WellPlaced xs

theorem Sequence.wellPlaced_elements {seq : Sequence} (h : WellPlaced seq) :
    WellPlaced seq.elements := by
  cases seq with
  | text cs =>
    intro a ha
    obtain ⟨c, -, rfl⟩ := List.mem_map.mp ha
    simp
  | items xs => exact h

/-- An engine that makes no new places: what it evaluates and calls is well placed, and so is what
comes of it. -/
structure Engine.KeepsPlaces (e : Engine) : Prop where
  eval {node : Node} : WellPlaced node → (e.eval node).KeepsPlaces
  call {f : Callable} {args : List Node} (name doc : String) :
    WellPlaced f → WellPlaced args → (e.call f args name doc).KeepsPlaces

namespace Engine.KeepsPlaces

variable {e : Engine} (he : e.KeepsPlaces)

include he

section

variable {node : Node} (hn : WellPlaced node)

include hn

theorem evalInt : (Action.evalInt e node).KeepsPlaces := by
  refine (he.eval hn).bind fun a _ => ?_
  cases a with
  | int n => exact .pure trivial
  | _ => exact .fail _

theorem evalBool : (Action.evalBool e node).KeepsPlaces := by
  refine (he.eval hn).bind fun a _ => ?_
  cases a with
  | bool b => exact .pure trivial
  | _ => exact .fail _

theorem evalString : (Action.evalString e node).KeepsPlaces := by
  refine (he.eval hn).bind fun a _ => ?_
  cases a with
  | string s => exact .pure trivial
  | _ => exact .fail _

theorem evalObject : (Action.evalObject e node).KeepsPlaces := by
  refine (he.eval hn).bind fun a ha => ?_
  cases a with
  | object typeId fields => exact .pure ⟨trivial, wellPlaced_object.mp ha⟩
  | _ => exact .fail _

theorem evalCallable (builtin : String) :
    (CallLang.evalCallable e node builtin).KeepsPlaces := by
  refine (he.eval hn).bind fun a ha => ?_
  cases a with
  | function f => exact .pure ha
  | _ => exact .fail _

end

theorem evalAll {nodes : List Node} (hn : WellPlaced nodes) :
    (Action.evalAll e nodes).KeepsPlaces := by
  induction nodes with
  | nil => exact .pure wellPlaced_nil
  | cons node nodes ih =>
    obtain ⟨first, rest⟩ := wellPlaced_cons.mp hn
    refine (he.eval first).bind fun value hv => (ih rest).bind fun values hvs => ?_
    exact .pure (by simp [hv, hvs])

/-! ### Functions that programs define -/

theorem pass (depth : Nat) (isLazy : Bool) {argument : Node} (hn : WellPlaced argument) :
    (Closure.pass e depth isLazy argument).KeepsPlaces := by
  rw [Closure.pass]
  split
  · exact KeepsPlaces.nextStamp.bind fun _ _ => .pure (by simpa using hn)
  · exact he.eval hn

theorem passAll (depth : Nat) (isLazy : Bool) {arguments : List Node}
    (hn : WellPlaced arguments) : (Closure.passAll e depth isLazy arguments).KeepsPlaces := by
  induction arguments with
  | nil => exact .pure wellPlaced_nil
  | cons argument arguments ih =>
    obtain ⟨first, rest⟩ := wellPlaced_cons.mp hn
    refine (he.pass depth isLazy first).bind fun value hv => (ih rest).bind fun values hvs => ?_
    exact .pure (by simp [hv, hvs])

theorem bindParams (depth : Nat) (params : List Param) {arguments : List Node}
    (hn : WellPlaced arguments) : (Closure.bind e depth params arguments).KeepsPlaces := by
  induction params generalizing arguments with
  | nil => exact .pure wellPlaced_nil
  | cons param params ih =>
    unfold Closure.bind
    split
    · refine (he.passAll depth _ hn).bind fun values hv => ?_
      exact (ih wellPlaced_nil).bind fun rest hr => .pure (by simp [hv, hr])
    · cases arguments with
      | nil => exact .pure wellPlaced_nil
      | cons argument arguments =>
        obtain ⟨first, others⟩ := wellPlaced_cons.mp hn
        refine (he.pass depth _ first).bind fun value hv => (ih others).bind fun rest hr => ?_
        exact .pure (by simp [hv, hr])

theorem callClosure (params : List Param) {body : Node} {arguments : List Node}
    (hb : WellPlaced body) (hn : WellPlaced arguments) :
    (Closure.call e params body arguments).KeepsPlaces := by
  rw [Closure.call]
  split
  · exact .fail _
  · refine .machine fun m _ => (he.bindParams _ params hn).bind fun bindings hbs => ?_
    exact (he.eval hb).inScope hbs

/-! ### Control flow -/

theorem sequence {value : Atom} {nodes : List Node} (hv : WellPlaced value)
    (hn : WellPlaced nodes) : (Control.sequence e value nodes).KeepsPlaces := by
  induction nodes generalizing value with
  | nil => exact .pure hv
  | cons node nodes ih =>
    obtain ⟨first, rest⟩ := wellPlaced_cons.mp hn
    exact (he.eval first).bind fun a ha => ih ha rest

theorem assign {target value : Node} (ht : WellPlaced target) (hn : WellPlaced value) :
    (Control.assign e target value).KeepsPlaces := by
  rw [Control.assign]
  split
  · exact .failAt _ (Node.wellPlaced_span ht)
  · refine (he.eval hn).bind fun a ha => ?_
    exact .unlessExiting (.pure trivial) (.take ha (.pure trivial))

theorem when {condition body : Node} (hc : WellPlaced condition) (hb : WellPlaced body) :
    (Control.when e condition body).KeepsPlaces := by
  refine (he.evalBool hc).bind fun b _ => ?_
  cases b with
  | true => exact he.eval hb
  | false => exact .pure trivial

theorem choose {condition yes no : Node} (hc : WellPlaced condition) (hy : WellPlaced yes)
    (hn : WellPlaced no) : (Control.choose e condition yes no).KeepsPlaces := by
  refine (he.evalBool hc).bind fun b _ => ?_
  cases b with
  | true => exact he.eval hy
  | false => exact he.eval hn

theorem loop {condition body : Node} (hc : WellPlaced condition) (hb : WellPlaced body)
    (steps : Nat) : (Control.loop e condition body steps).KeepsPlaces := by
  induction steps with
  | zero => exact .exhausted
  | succ steps ih =>
    refine .unlessExiting (.pure trivial) ((he.evalBool hc).bind fun b _ => ?_)
    cases b with
    | true => exact (he.eval hb).bind fun _ _ => ih
    | false => exact .pure trivial

theorem raise {kind message : Node} (hk : WellPlaced kind) (hm : WellPlaced message) :
    (Control.raise e kind message).KeepsPlaces :=
  (he.evalString hk).bind fun _ _ => (he.evalString hm).bind fun _ _ => .fail _

theorem recover {node : Node} (hn : WellPlaced node) : (Control.recover e node).KeepsPlaces := by
  refine (he.eval hn).attempt.bind fun r hr => ?_
  cases r with
  | ok value => exact .pure hr
  | error fault => exact .pure trivial

/-- A fault that ends the program is stored with its backtrace. -/
theorem exitWith {node : Node} (hn : WellPlaced node) : (Control.exit e node).KeepsPlaces :=
  (he.eval hn).attempt.bind fun _ hr => .take hr (.pure trivial)

theorem assert {node : Node} (hn : WellPlaced node) : (Control.assert e node).KeepsPlaces := by
  refine (he.evalBool hn).bind fun b _ => ?_
  cases b with
  | true => exact .pure trivial
  | false => exact .fail _

theorem assertEq {left right : Node} (hl : WellPlaced left) (hr : WellPlaced right) :
    (Control.assertEq e left right).KeepsPlaces := by
  refine (he.eval hl).bind fun x _ => (he.eval hr).bind fun y _ => ?_
  split
  · exact .pure trivial
  · exact .fail _

omit he in
theorem global {node : Node} (hn : WellPlaced node) : (Control.global node).KeepsPlaces :=
  (KeepsPlaces.nameOf hn _).bind fun _ _ => .take trivial (.pure trivial)

omit he in
/-- The last of several expressions is the body, the others are the parameters. -/
theorem defineLast (doc : String) {nodes : List Node} (hn : WellPlaced nodes) (h : nodes ≠ []) :
    (Closure.define doc nodes.dropLast (nodes.getLast h)).KeepsPlaces :=
  Closure.define_keepsPlaces doc (wellPlaced_of_subset hn (List.dropLast_subset nodes))
    (hn _ (List.getLast_mem h))

omit he in
theorem define (doc : String) {nodes : List Node} (hn : WellPlaced nodes) :
    (Control.define doc nodes).KeepsPlaces := by
  unfold Control.define
  split
  · obtain ⟨target, others⟩ := wellPlaced_cons.mp hn
    refine (KeepsPlaces.nameOf target _).bind fun name _ => ?_
    exact (defineLast doc others _).bind fun f hf => .take hf (.pure trivial)
  · exact .fail _

omit he in
theorem lambda {nodes : List Node} (hn : WellPlaced nodes) :
    (Control.lambda nodes).KeepsPlaces := by
  unfold Control.lambda
  split
  · exact .fail _
  · exact (defineLast "" hn _).bind fun f hf => .pure hf

/-! ### Objects -/

theorem field {fields : Object.Fields} {node : Node} (hf : WellPlaced fields)
    (hn : WellPlaced node) : (Object.field e fields node).KeepsPlaces := by
  have here := Node.wellPlaced_span hn
  unfold Object.field
  split
  · rw [Object.Fields.addRequired]
    split
    · exact .failAt _ here
    · exact .pure hf
  · have value := (wellPlaced_call.mp hn).1
    refine (he.eval (wellPlaced_cons.mp (wellPlaced_cons.mp value).2).1).bind fun a ha => ?_
    rw [Object.Fields.addDefault]
    split
    · exact .failAt _ here
    · exact .pure (wellPlaced_append.mpr ⟨hf, by simp [ha]⟩)
  · exact .failAt _ here
  · exact .failAt _ here
  · exact .failAt _ here

theorem fieldsOf {fields : Object.Fields} {nodes : List Node} (hf : WellPlaced fields)
    (hn : WellPlaced nodes) : (Object.fieldsOf e fields nodes).KeepsPlaces := by
  induction nodes generalizing fields with
  | nil => exact .pure hf
  | cons node nodes ih =>
    obtain ⟨first, rest⟩ := wellPlaced_cons.mp hn
    exact (he.field hf first).bind fun fs hfs => ih hfs rest

theorem newType (doc : String) {nodes : List Node} (hn : WellPlaced nodes) :
    (Object.newType e doc nodes).KeepsPlaces := by
  unfold Object.newType
  split
  · exact .fail _
  · obtain ⟨target, rest⟩ := wellPlaced_cons.mp hn
    have none : WellPlaced ({} : Object.Fields) := wellPlaced_nil
    refine (KeepsPlaces.nameOf target _).bind fun name _ => ?_
    refine (he.fieldsOf none rest).bind fun fields hf => ?_
    refine .unlessExiting (.pure trivial) (KeepsPlaces.freshTypeId.bind fun typeId _ => ?_)
    have defaults : WellPlaced fields.defaults := hf
    refine .take ?_ (.pure trivial)
    show WellPlaced (Atom.function _)
    simp [defaults]

theorem construct (required : List String) {defaults : Bindings} (typeId : Nat)
    {arguments : List Node} (hd : WellPlaced defaults) (hn : WellPlaced arguments) :
    (Object.construct e required defaults typeId arguments).KeepsPlaces := by
  refine (he.evalAll hn).bind fun values hv => .pure (wellPlaced_object.mpr ?_)
  refine wellPlaced_append.mpr ⟨fun b hb => ?_, hd⟩
  exact ⟨trivial, hv _ (List.of_mem_zip hb).2⟩

theorem getField {object field : Node} (ho : WellPlaced object) (hf : WellPlaced field) :
    (Object.getField e object field).KeepsPlaces := by
  refine (he.evalObject ho).bind fun o hfields => (KeepsPlaces.nameOf hf _).bind fun name _ => ?_
  split
  · rename_i value hv
    exact .pure (wellPlaced_get? hfields.2 hv)
  · exact .fail _

theorem setField {object field value : Node} (ho : WellPlaced object) (hf : WellPlaced field)
    (hv : WellPlaced value) : (Object.setField e object field value).KeepsPlaces := by
  refine (he.evalObject ho).bind fun o hfields => (KeepsPlaces.nameOf hf _).bind fun name _ => ?_
  split
  · refine (he.eval hv).bind fun a ha => .pure (wellPlaced_object.mpr fun b hb => ?_)
    rcases Bindings.mem_set hb with hb | rfl
    · exact hfields.2 b hb
    · exact ⟨trivial, ha⟩
  · exact .fail _

theorem callMethod {nodes : List Node} (hn : WellPlaced nodes) :
    (Object.callMethod e nodes).KeepsPlaces := by
  unfold Object.callMethod
  split
  · obtain ⟨object, others⟩ := wellPlaced_cons.mp hn
    obtain ⟨method, arguments⟩ := wellPlaced_cons.mp others
    refine (he.evalObject object).bind fun o hfields => ?_
    refine (KeepsPlaces.nameOf method _).bind fun name _ => ?_
    split
    · rename_i f hf
      -- the object is passed as a literal that stands where its expression does
      refine he.call _ _ (wellPlaced_get? hfields.2 hf) ?_
      simp [hfields.2, Node.wellPlaced_span object, arguments]
    · exact .fail _
    · exact .fail _
  · exact .fail _

/-! ### Lists and strings -/

theorem evalSequence {node : Node} (hn : WellPlaced node) :
    (Sequences.evalSequence e node).KeepsPlaces := by
  refine (he.eval hn).bind fun a ha => ?_
  cases a with
  | string s => exact .pure trivial
  | list xs => exact .pure (wellPlaced_list.mp ha)
  | _ => exact .fail _

theorem evalIndex {node : Node} (hn : WellPlaced node) :
    (Sequences.evalIndex e node).KeepsPlaces := by
  refine (he.evalInt hn).bind fun index _ => ?_
  split
  · exact .fail _
  · exact .pure trivial

omit he in
theorem checkBounds (seq : Sequence) (index : Nat) :
    (Sequences.checkBounds seq index).KeepsPlaces := by
  rw [Sequences.checkBounds]
  split
  · exact .pure trivial
  · exact .fail _

theorem length {node : Node} (hn : WellPlaced node) : (Sequences.length e node).KeepsPlaces :=
  (he.evalSequence hn).bind fun _ _ => .pure trivial

theorem index {sequence position : Node} (hs : WellPlaced sequence) (hp : WellPlaced position) :
    (Sequences.index e sequence position).KeepsPlaces := by
  refine (he.evalSequence hs).bind fun seq hseq => (he.evalIndex hp).bind fun index _ => ?_
  split
  · rename_i element hel
    exact .pure (Sequence.wellPlaced_elements hseq _ (List.mem_of_getElem? hel))
  · exact .fail _

theorem append {sequence element : Node} (hs : WellPlaced sequence) (hn : WellPlaced element) :
    (Sequences.append e sequence element).KeepsPlaces := by
  refine (he.evalSequence hs).bind fun seq hseq => ?_
  cases seq with
  | text cs => exact (he.evalString hn).bind fun _ _ => .pure trivial
  | items xs =>
    have there : WellPlaced xs := hseq
    exact (he.eval hn).bind fun a ha => .pure (by simp [there, ha])

theorem replaceAt {sequence position element : Node} (hs : WellPlaced sequence)
    (hp : WellPlaced position) (hn : WellPlaced element) :
    (Sequences.replaceAt e sequence position element).KeepsPlaces := by
  refine (he.evalSequence hs).bind fun seq hseq => (he.evalIndex hp).bind fun index _ => ?_
  refine (checkBounds seq index).bind fun _ _ => ?_
  cases seq with
  | text cs =>
    refine (he.evalString hn).bind fun s _ => ?_
    split
    · exact .pure trivial
    · exact .fail _
  | items xs =>
    refine (he.eval hn).bind fun a ha => .pure (wellPlaced_list.mpr fun x hx => ?_)
    rcases List.mem_or_eq_of_mem_set hx with hx | rfl
    · exact hseq x hx
    · exact ha

theorem removeAt {sequence position : Node} (hs : WellPlaced sequence)
    (hp : WellPlaced position) : (Sequences.removeAt e sequence position).KeepsPlaces := by
  refine (he.evalSequence hs).bind fun seq hseq => (he.evalIndex hp).bind fun index _ => ?_
  refine (checkBounds seq index).bind fun _ _ => .pure ?_
  cases seq with
  | text cs => exact trivial
  | items xs =>
    exact wellPlaced_list.mpr (wellPlaced_of_subset hseq (List.eraseIdx_sublist xs index).subset)

theorem iterate (name : String) {body : Node} {elements : List Atom} (hb : WellPlaced body)
    (hs : WellPlaced elements) : (Sequences.iterate e name body elements).KeepsPlaces := by
  induction elements with
  | nil => exact .pure trivial
  | cons element elements ih =>
    obtain ⟨first, rest⟩ := wellPlaced_cons.mp hs
    refine .unlessExiting (.pure trivial) (.take first ?_)
    exact (he.eval hb).bind fun _ _ => ih rest

theorem forEach {sequence loopName body : Node} (hs : WellPlaced sequence)
    (hl : WellPlaced loopName) (hb : WellPlaced body) :
    (Sequences.forEach e sequence loopName body).KeepsPlaces := by
  refine (he.evalSequence hs).bind fun seq hseq => (KeepsPlaces.nameOf hl _).bind fun name _ => ?_
  refine (he.iterate name hb (Sequence.wellPlaced_elements hseq)).bind fun _ _ => ?_
  exact .pure trivial

theorem concatAll {nodes : List Node} (hn : WellPlaced nodes) :
    (Sequences.concatAll e nodes).KeepsPlaces := by
  induction nodes with
  | nil => exact .pure trivial
  | cons node nodes ih =>
    obtain ⟨first, rest⟩ := wellPlaced_cons.mp hn
    exact (he.evalString first).bind fun _ _ => (ih rest).bind fun _ _ => .pure trivial

/-! ### Streams -/

theorem print {nodes : List Node} (hn : WellPlaced nodes) : (Stream.print e nodes).KeepsPlaces :=
  (he.evalAll hn).bind fun _ _ => (KeepsPlaces.write _).bind fun _ _ => .pure trivial

theorem writeValue {node : Node} (hn : WellPlaced node) :
    (Stream.writeValue e node).KeepsPlaces :=
  (he.eval hn).bind fun _ _ => (KeepsPlaces.write _).bind fun _ _ => .pure trivial

theorem printFault {node : Node} (hn : WellPlaced node) :
    (Stream.printFault e node).KeepsPlaces := by
  refine (he.eval hn).attempt.bind fun r _ => ?_
  cases r with
  | error fault => exact (KeepsPlaces.writeError _).bind fun _ _ => .pure trivial
  | ok value => exact .unlessExiting (.pure trivial) (.fail _)

/-! ### Modules -/

/-- A program text brings in expressions that are written in it. -/
theorem execute {prepare : Action Unit} (hp : prepare.KeepsPlaces) (source : Source) :
    (Action.execute e prepare source).KeepsPlaces := by
  have evaluated : (prepare >>= fun _ =>
      ofOutcome (Node.parse source.text (some source)) >>= e.eval).KeepsPlaces :=
    hp.bind fun _ _ => (KeepsPlaces.ofOutcome (wellPlaced_parse source "_")).bind fun _ => he.eval
  refine evaluated.contain.bind fun r hr => .machine fun m hm => .pure ?_
  cases stored : m.exit with
  | none => exact hr
  | some o => exact hm.2.2 o stored

omit he in
theorem importWith {run : Source → Action Outcome} (hr : ∀ source, (run source).KeepsPlaces)
    (name : String) (embeddedOnly : Bool) :
    (Action.importWith run name embeddedOnly).KeepsPlaces := by
  refine .machine fun m _ => ?_
  rw [ofExcept_bind]
  split
  · split
    · exact .fail _
    · refine (hr _).inMachine.bind fun r h => ?_
      obtain ⟨outcome, inner⟩ := h
      refine .settle outcome inner ?_
      exact wellPlaced_of_subset inner.1 fun b => Storage.mem_all_of_exported
  · exact .fail _

theorem loadPrelude : (Action.loadPrelude e).KeepsPlaces := by
  refine .machine fun m _ => ?_
  split
  · exact .pure trivial
  · refine .take trivial ?_
    refine (importWith (he.execute (.pure trivial)) _ _).bind fun _ _ => ?_
    exact .step trivial (.pure trivial)

theorem runText (source : Source) : (Action.runText e source).KeepsPlaces :=
  he.execute he.loadPrelude source

theorem importModule (name : String) (embeddedOnly : Bool) :
    (Action.importModule e name embeddedOnly).KeepsPlaces :=
  importWith he.runText name embeddedOnly

theorem importNamed {node : Node} (hn : WellPlaced node) :
    (Control.importNamed e node).KeepsPlaces :=
  (KeepsPlaces.nameOf hn _).bind fun name _ => he.importModule name false

theorem evalText (text : String) : (Action.evalText e text).KeepsPlaces := by
  refine (he.runText _).inMachine.bind fun r h => ?_
  exact .settle h.1 h.2 wellPlaced_nil

theorem evalNamed {node : Node} (hn : WellPlaced node) : (Control.eval e node).KeepsPlaces :=
  (he.evalString hn).bind fun text _ => he.evalText text

/-! ### Calls and evaluation -/

omit he in
theorem nullary (op : Nullary) : op.call.KeepsPlaces := by
  cases op with
  | input => exact KeepsPlaces.readLine.bind fun _ _ => .pure trivial
  | now | nowNanosPart => exact KeepsPlaces.readClock.bind fun _ _ => .pure trivial

omit he in
/-- Conversions give integers, truth values and strings, which are written nowhere. -/
theorem toInt {a b : Atom} (h : Convert.toInt a = .ok b) : WellPlaced b := by
  unfold Convert.toInt at h
  split at h
  · obtain rfl := Except.ok.inj h
    exact trivial
  · obtain rfl := Except.ok.inj h
    exact trivial
  · split at h
    · split at h
      · cases h
      · split at h
        · obtain rfl := Except.ok.inj h
          exact trivial
        · cases h
    · cases h
  · cases h

omit he in
theorem toText {a b : Atom} (h : Convert.toText a = .ok b) : WellPlaced b := by
  unfold Convert.toText Atom.expect at h
  split at h
  · obtain rfl := Except.ok.inj h
    exact trivial
  · cases h

omit he in
theorem toBool {a b : Atom} (h : Convert.toBool a = .ok b) : WellPlaced b := by
  unfold Convert.toBool at h
  split at h
  · obtain rfl := Except.ok.inj h
    exact trivial
  · obtain rfl := Except.ok.inj h
    exact trivial
  · split at h
    · obtain rfl := Except.ok.inj h
      exact trivial
    · split at h
      · obtain rfl := Except.ok.inj h
        exact trivial
      · cases h
  · cases h

theorem unary (op : Unary) {a : Node} (ha : WellPlaced a) : (op.call e a).KeepsPlaces := by
  cases op with
  | not => exact (he.evalBool ha).bind fun _ _ => .pure trivial
  | toInt => exact (he.eval ha).bind fun _ _ => .ofExcept fun _ => toInt
  | toString => exact (he.eval ha).bind fun _ _ => .ofExcept fun _ => toText
  | toBool => exact (he.eval ha).bind fun _ _ => .ofExcept fun _ => toBool
  | printable => exact (he.eval ha).bind fun _ _ => .pure trivial
  | length => exact he.length ha
  | docOf => exact (he.evalCallable ha _).bind fun _ _ => .pure trivial
  | argcOf =>
    refine (he.evalCallable ha _).bind fun f _ => ?_
    split
    · exact .pure trivial
    · exact .pure trivial
  | typeIdOf => exact (he.eval ha).bind fun _ _ => .pure trivial
  | assert => exact he.assert ha
  | recover => exact he.recover ha
  | exit => exact he.exitWith ha
  | eval => exact he.evalNamed ha
  | global => exact global ha
  | importModule => exact he.importNamed ha
  | write => exact he.writeValue ha
  | printFault => exact he.printFault ha

theorem binary (steps : Nat) (op : Binary) {a b : Node} (ha : WellPlaced a) (hb : WellPlaced b) :
    (op.call e steps a b).KeepsPlaces := by
  cases op with
  | arith op =>
    refine (he.evalInt ha).bind fun x _ => (he.evalInt hb).bind fun y _ => ?_
    exact (KeepsPlaces.ofExcept fun _ _ => trivial).bind fun _ _ => .pure trivial
  | compare op =>
    exact (he.evalInt ha).bind fun _ _ => (he.evalInt hb).bind fun _ _ => .pure trivial
  | or =>
    refine (he.evalBool ha).bind fun x _ => ?_
    cases x with
    | true => exact .pure trivial
    | false => exact (he.evalBool hb).bind fun _ _ => .pure trivial
  | and =>
    refine (he.evalBool ha).bind fun x _ => ?_
    cases x with
    | true => exact (he.evalBool hb).bind fun _ _ => .pure trivial
    | false => exact .pure trivial
  | equals => exact (he.eval ha).bind fun _ _ => (he.eval hb).bind fun _ _ => .pure trivial
  | assertEq => exact he.assertEq ha hb
  | assign => exact he.assign ha hb
  | when => exact he.when ha hb
  | loop => exact (he.loop ha hb steps).bind fun _ _ => .pure trivial
  | raise => exact he.raise ha hb
  | index => exact he.index ha hb
  | append => exact he.append ha hb
  | removeAt => exact he.removeAt ha hb
  | getField => exact he.getField ha hb

theorem ternary (op : Ternary) {a b c : Node} (ha : WellPlaced a) (hb : WellPlaced b)
    (hc : WellPlaced c) : (op.call e a b c).KeepsPlaces := by
  cases op with
  | choose => exact he.choose ha hb hc
  | replaceAt => exact he.replaceAt ha hb hc
  | forEach => exact he.forEach ha hb hc
  | setField => exact he.setField ha hb hc

theorem variadic (doc : String) (op : Variadic) {args : List Node} (hn : WellPlaced args) :
    (op.call e doc args).KeepsPlaces := by
  cases op with
  | sequence => exact he.sequence wellPlaced_null hn
  | define => exact define doc hn
  | lambda => exact lambda hn
  | list => exact (he.evalAll hn).bind fun _ hv => .pure (wellPlaced_list.mpr hv)
  | concat => exact (he.concatAll hn).bind fun _ _ => .pure trivial
  | print => exact he.print hn
  | newType => exact he.newType doc hn
  | callMethod => exact he.callMethod hn

theorem builtin (steps : Nat) (doc : String) (b : Builtin) {args : List Node}
    (hn : WellPlaced args) : (Builtin.call e steps doc b args).KeepsPlaces := by
  unfold Builtin.call
  split
  · exact nullary _
  · exact he.unary _ (hn _ (by simp))
  · exact he.binary steps _ (hn _ (by simp)) (hn _ (by simp))
  · exact he.ternary _ (hn _ (by simp)) (hn _ (by simp)) (hn _ (by simp))
  · exact he.variadic doc _ hn
  · exact .fail _

/-- A call makes no new places if the function and the arguments are well placed. -/
theorem apply (steps : Nat) {f : Callable} {args : List Node} (name doc : String)
    (hf : WellPlaced f) (hn : WellPlaced args) :
    (applyWith e steps f args name doc).KeepsPlaces := by
  refine (KeepsPlaces.ofExcept fun _ _ => trivial).bind fun _ _ => ?_
  cases f with
  | builtin stamp b => exact he.builtin steps doc b hn
  | closure stamp doc params body => exact he.callClosure params hf hn
  | thunk stamp argument depth => exact (he.eval hf).truncated depth
  | constructor stamp doc required defaults typeId =>
    exact he.construct required typeId (wellPlaced_constructor.mp hf) hn

end Engine.KeepsPlaces

/-- Evaluation makes no new places if calls make none. -/
theorem evalWith_keepsPlaces {call : Callable → List Node → String → String → Action Atom}
    (hc : ∀ {f args} (name doc : String), WellPlaced f → WellPlaced args →
      (call f args name doc).KeepsPlaces)
    {node : Node} (hn : WellPlaced node) : (evalWith call node).KeepsPlaces := by
  refine .unlessExiting (.pure trivial) ?_
  cases node with
  | literal value span => exact .pure hn.1
  | var name span => exact .lookup name hn
  | call name args doc span =>
    obtain ⟨args, span⟩ := wellPlaced_call.mp hn
    refine KeepsPlaces.traced span ((KeepsPlaces.lookupFunction name).bind fun f hf => ?_)
    exact hc name doc hf args

theorem engine_keepsPlaces (steps depth : Nat) : (engine steps depth).KeepsPlaces := by
  induction depth with
  | zero => exact ⟨evalWith_keepsPlaces fun _ _ _ _ => .exhausted, fun _ _ _ _ => .exhausted⟩
  | succ depth ih => exact ⟨evalWith_keepsPlaces (ih.apply steps), ih.apply steps⟩

/-! ### Runs -/

theorem Limits.keepsPlaces (limits : Limits) : limits.engine.KeepsPlaces :=
  engine_keepsPlaces limits.steps limits.depth

/-- Every expression in a machine that a host can have was parsed from the text that its span refers
to. -/
theorem Machine.Reachable.wellPlaced {m : Machine} (h : m.Reachable) : WellPlaced m := by
  refine preserved (P := fun m => WellPlaced m) ?start ?run ?importModule ?enterFile ?meanwhile h
  case start =>
    intro world directory sourceName usePrelude _
    exact Machine.wellPlaced_start world directory sourceName usePrelude
  case run =>
    intro limits source m hm
    exact (limits.keepsPlaces.runText source m hm).2
  case importModule =>
    intro limits name embeddedOnly m hm
    exact (limits.keepsPlaces.importModule name embeddedOnly m hm).2
  case enterFile => exact fun _ _ hm => hm
  case meanwhile => exact fun _ _ _ _ _ hm => hm

/-- A run that ends with a fault which was raised while its program was evaluated. -/
structure Machine.Raises (limits : Limits) (m : Machine) (text name : String) (program : Node)
    (fault : Fault) : Prop where
  /-- The text is a program. -/
  parsed : Node.parse text (some (m.sourceOf name text)) = .ok program
  /-- The prelude is loaded, or not wanted, when the program is evaluated. -/
  loaded : ((loadPrelude limits.engine).run m).1 = .ok ()
  /-- The evaluation does not reach its bound. -/
  lasting : ((limits.engine.eval program).run ((loadPrelude limits.engine).run m).2).1 ≠
    .error .exhausted
  /-- No outcome is stored that ends the program. -/
  going : (m.run limits text name).2.exit = none
  returned : (m.run limits text name).1 = .error fault
  /-- The interpreter itself is not at fault. -/
  sound : ¬fault.isDefect

/-- A backtrace that leads to a program: it ends with it, names no place twice in a row, and names
places that exist only. -/
structure Fault.LeadsTo (program : Node) (fault : Fault) : Prop where
  nonempty : fault.backtrace ≠ []
  distinct : fault.backtrace.IsChain (· ≠ ·)
  last : fault.backtrace.getLast? = program.span
  exist : ∀ span ∈ fault.backtrace, ∀ source, span.source = some source →
    (extract source.text span).isSome

/-- A fault that leaves a call has the place of the call as its last one, unless the interpreter
itself is at fault. -/
theorem getLast?_of_eval {steps depth : Nat} {m : Machine} {name : String} {args : List Node}
    {doc : String} {span : Span} {fault : Fault} (sound : ¬fault.isDefect)
    (h : (((engine steps depth).eval (.call name args doc (some span))).run m).1 =
      .error (.fault fault)) : fault.backtrace.getLast? = some span := by
  obtain ⟨call, hc⟩ : ∃ call, (engine steps depth).eval = evalWith call := by
    cases depth <;> exact ⟨_, rfl⟩
  rw [hc, evalWith, exiting_bind, run_look] at h
  cases hm : m.exit with
  | some o =>
    rw [hm] at h
    cases h
  | none =>
    rw [hm] at h
    simp only [Option.isSome_none, Bool.false_eq_true, if_false, run_traced] at h
    split at h
    · cases h
    · obtain ⟨rfl⟩ := Stop.fault.inj (Except.error.inj h)
      rw [Fault.isDefect_addFrame] at sound
      exact Fault.getLast?_addFrame sound span
    · cases h

namespace Machine.Raises

variable {limits : Limits} {m : Machine} {text name : String} {program : Node} {fault : Fault}

theorem not_fails (h : m.Raises limits text name program fault) : ¬m.Fails limits text name := by
  intro fails
  obtain ⟨other, defect, failed⟩ := Machine.exists_run_of_fails _ _ _ _ fails
  obtain rfl : other = fault := Except.error.inj (failed.symm.trans h.returned)
  exact h.sound defect

/-- The fault is what the evaluation of the program ends with. -/
theorem evaluated (h : m.Raises limits text name program fault) :
    ((limits.engine.eval program).run ((loadPrelude limits.engine).run m).2).1 =
      .error (.fault fault) := by
  have ran := Machine.runText_eq limits m text name h.not_fails
  rw [runText_of_parse h.parsed, run_runProgram, run_bind] at ran
  have loaded := h.loaded
  have lasting := h.lasting
  revert ran loaded lasting
  rcases (loadPrelude limits.engine).run m with ⟨_ | _, m'⟩
  · intro _ loaded
    cases loaded
  · -- no outcome is stored, so the run returns how the evaluation ends
    intro ran _ lasting
    obtain ⟨outcome, machine⟩ := Prod.mk.inj ran
    have going : ((limits.engine.eval program).run m').2.exit = none := machine ▸ h.going
    rw [going, h.returned] at outcome
    revert outcome lasting
    rcases ((limits.engine.eval program).run m').1 with (f | _) | a
    · intro _ outcome
      by_cases defect : f.isDefect
      · rw [contained, if_pos defect] at outcome
        cases outcome
      · rw [contained, if_neg defect] at outcome
        obtain rfl : f = fault := Except.error.inj (Except.ok.inj outcome)
        rfl
    · exact fun lasting => absurd rfl lasting
    · rintro - outcome
      cases outcome

theorem leadsTo (h : m.Raises limits text name program fault) (hm : WellPlaced m) :
    fault.LeadsTo program := by
  obtain ⟨tokens, args, -, -, rfl⟩ := Node.parse_eq_ok_iff.mp h.parsed
  -- the program is well placed, and so is the machine that it is evaluated in
  have placed : WellPlaced (Node.parse text (some (m.sourceOf name text))) :=
    wellPlaced_parse (m.sourceOf name text) "_"
  rw [h.parsed] at placed
  have prepared := (limits.keepsPlaces.loadPrelude m hm).2
  have raised := (limits.keepsPlaces.eval placed _ prepared).1
  rw [h.evaluated] at raised
  obtain ⟨exist, distinct⟩ : WellPlaced fault := raised
  have last := getLast?_of_eval h.sound h.evaluated
  refine ⟨?_, distinct, last, exist⟩
  rintro none
  rw [none] at last
  cases last

end Machine.Raises

theorem wellPlaced_ofResult {r : Except Stop Outcome} (h : WellPlaced r) :
    WellPlaced (Outcome.ofResult r) := by
  match r with
  | .ok outcome => exact h
  | .error (.fault fault) => exact h
  | .error .exhausted => exact Fault.wellPlaced_nowhere _

/-- In every machine that a host can have all places exist, and they do in the machine and the
outcome that a run leaves. A fault that is raised while the program of a run is evaluated, wherever
it comes from, leads to the program: its backtrace is not empty and ends with the program, no place
comes twice in a row, and every place that has a source lies in the text of it. -/
theorem backtrace_leads_to_program (limits : Limits) (m : Machine) (text name : String) :
    (m.Reachable → WellPlaced m) ∧
    (WellPlaced m → WellPlaced (m.run limits text name) ∧
      ∀ program fault, m.Raises limits text name program fault → fault.LeadsTo program) := by
  refine ⟨Machine.Reachable.wellPlaced, fun hm => ⟨?_, fun program fault h => h.leadsTo hm⟩⟩
  obtain ⟨outcome, machine⟩ := limits.keepsPlaces.runText (m.sourceOf name text) m hm
  rw [Machine.run_eq]
  exact ⟨wellPlaced_ofResult outcome, machine⟩

/-- A program that passes an argument without a value to a function of an evaluated text. -/
def lateProgram : String := "eval(\"global(g), def(g, $x, +(x(), 1))\"),\ng(h)"

/-- The argument fails where the other text uses it. -/
theorem backtrace_of_lateProgram :
    ∃ program fault, Machine.bare.Raises ⟨10, 10⟩ lateProgram "" program fault ∧
      fault.backtrace.map Span.renderFull = ["<in>:2:3-2:3", "<eval>:1:25-1:27",
        "<eval>:1:23-1:31", "<in>:2:1-2:4", "<in>:1:1-2:4"] ∧
      fault.LeadsTo program := by
  have loaded : (loadPrelude (Limits.engine ⟨10, 10⟩)).run .bare = (.ok (), .bare) :=
    run_loadPrelude_of_isEquipped rfl
  have lasting : ((Node.parse lateProgram (some ⟨"<in>", lateProgram⟩)).toOption.map fun program =>
      (((Limits.engine ⟨10, 10⟩).eval program).run .bare).1 matches .error .exhausted) =
      some false := by decide +kernel
  have going : (Machine.bare.run ⟨10, 10⟩ lateProgram "").2.exit.isNone := by decide +kernel
  have traced : ((Machine.bare.run ⟨10, 10⟩ lateProgram "").1.mapError fun fault =>
      (fault.isDefect, fault.backtrace.map Span.renderFull)).map (fun _ => ()) = .error (false,
      ["<in>:2:3-2:3", "<eval>:1:25-1:27", "<eval>:1:23-1:31", "<in>:2:1-2:4", "<in>:1:1-2:4"]) := by
    decide +kernel
  cases hp : Node.parse lateProgram (some ⟨"<in>", lateProgram⟩) with
  | error fault => simp [hp, Except.toOption] at lasting
  | ok program =>
    cases hr : (Machine.bare.run ⟨10, 10⟩ lateProgram "").1 with
    | ok value => simp [hr, Except.mapError, Except.map] at traced
    | error fault =>
      obtain ⟨sound, places⟩ :
          fault.isDefect = false ∧ fault.backtrace.map Span.renderFull = _ := by
        simpa [hr, Except.mapError, Except.map] using traced
      have raises : Machine.bare.Raises ⟨10, 10⟩ lateProgram "" program fault := by
        refine ⟨hp, by rw [loaded], ?_, Option.isNone_iff_eq_none.mp going, hr, by simp [sound]⟩
        rw [loaded]
        intro exhausted
        simp [hp, exhausted, Except.toOption] at lasting
      refine ⟨program, fault, raises, places, ?_⟩
      obtain ⟨reachable, placed⟩ := backtrace_leads_to_program ⟨10, 10⟩ .bare lateProgram ""
      exact (placed (reachable (.start {} rfl _ _ _))).2 program fault raises

end CallLang
