import CallLang.Action.Lemmas
import CallLang.Proofs.Unplaced

/-!
# Alike actions

Two actions are alike if, in machines that are equal up to places, they end with results and
machines that are equal up to places. What actions are put together with keeps alike actions alike;
so the steps of two alike actions can be compared one by one.
-/

namespace CallLang

open CallLang.Action

instance : Placed Stop where
  unplaced
    | .fault f => .fault (unplaced f)
    | .exhausted => .exhausted

@[simp] theorem unplaced_fault (f : Fault) : unplaced (Stop.fault f) = .fault (unplaced f) := rfl

@[simp] theorem unplaced_exhausted : unplaced Stop.exhausted = .exhausted := rfl

/-! ### Things that are equal up to places -/

/-- Two values that are equal up to places. -/
inductive Atom.Alike : Atom → Atom → Prop where
  | int (n : Int) : Alike (.int n) (.int n)
  | bool (b : Bool) : Alike (.bool b) (.bool b)
  | null : Alike .null .null
  | string (s : String) : Alike (.string s) (.string s)
  | list {xs ys : List Atom} (h : unplaced xs = unplaced ys) : Alike (.list xs) (.list ys)
  | object (typeId : Nat) {fields others : Bindings} (h : unplaced fields = unplaced others) :
    Alike (.object typeId fields) (.object typeId others)
  | function {f g : Callable} (h : unplaced f = unplaced g) : Alike (.function f) (.function g)

theorem Atom.alike {a b : Atom} (h : unplaced a = unplaced b) : a.Alike b := by
  cases a <;> cases b <;> simp at h
  case int => exact h ▸ .int _
  case bool => exact h ▸ .bool _
  case null => exact .null
  case string => exact h ▸ .string _
  case list => exact .list h
  case object => exact h.1 ▸ .object _ h.2
  case function => exact .function h

/-- Two functions that are equal up to places. -/
inductive Callable.Alike : Callable → Callable → Prop where
  | builtin (stamp : Stamp) (b : Builtin) : Alike (.builtin stamp b) (.builtin stamp b)
  | closure (stamp : Stamp) (doc : String) (params : List Param) {body body' : Node}
    (h : unplaced body = unplaced body') :
    Alike (.closure stamp doc params body) (.closure stamp doc params body')
  | thunk (stamp : Stamp) {argument argument' : Node} (h : unplaced argument = unplaced argument')
    (depth : Nat) : Alike (.thunk stamp argument depth) (.thunk stamp argument' depth)
  | constructor (stamp : Stamp) (doc : String) (required : List String)
    {defaults defaults' : Bindings} (h : unplaced defaults = unplaced defaults') (typeId : Nat) :
    Alike (.constructor stamp doc required defaults typeId)
      (.constructor stamp doc required defaults' typeId)

theorem Callable.alike {f g : Callable} (h : unplaced f = unplaced g) : f.Alike g := by
  cases f <;> cases g <;> simp at h
  case builtin => exact h.1 ▸ h.2 ▸ .builtin _ _
  case closure => exact h.1 ▸ h.2.1 ▸ h.2.2.1 ▸ .closure _ _ _ h.2.2.2
  case thunk => exact h.1 ▸ h.2.2 ▸ .thunk _ h.2.1 _
  case constructor =>
    exact h.1 ▸ h.2.1 ▸ h.2.2.1 ▸ h.2.2.2.2 ▸ .constructor _ _ _ h.2.2.2.1 _

/-- Two expressions that are equal up to places. -/
inductive Node.Alike : Node → Node → Prop where
  | literal {a b : Atom} (h : unplaced a = unplaced b) (span span' : Option Span) :
    Alike (.literal a span) (.literal b span')
  | var (name : String) (span span' : Option Span) : Alike (.var name span) (.var name span')
  | call (name : String) {args args' : List Node} (h : unplaced args = unplaced args')
    (doc : String) (span span' : Option Span) :
    Alike (.call name args doc span) (.call name args' doc span')

theorem Node.alike {x y : Node} (h : unplaced x = unplaced y) : x.Alike y := by
  cases x <;> cases y <;> simp at h
  case literal => exact .literal h _ _
  case var => exact h ▸ .var _ _ _
  case call => exact h.1 ▸ h.2.2 ▸ .call _ h.2.1 _ _ _

/-- Two sequences that are equal up to places. -/
inductive Sequence.Alike : Sequence → Sequence → Prop where
  | text (chars : List Char) : Alike (.text chars) (.text chars)
  | items {xs ys : List Atom} (h : unplaced xs = unplaced ys) : Alike (.items xs) (.items ys)

theorem Sequence.alike {seq seq' : Sequence} (h : unplaced seq = unplaced seq') :
    seq.Alike seq' := by
  cases seq <;> cases seq' <;> simp [unplaced] at h
  case text => exact h ▸ .text _
  case items => exact .items h

theorem eq_nil_of_unplaced {α : Type} [Placed α] {xs : List α} (h : unplaced [] = unplaced xs) :
    xs = [] :=
  List.map_eq_nil_iff.mp h.symm

theorem unplaced_cons_inj {α : Type} [Placed α] {x y : α} {xs ys : List α}
    (h : unplaced (x :: xs) = unplaced (y :: ys)) :
    unplaced x = unplaced y ∧ unplaced xs = unplaced ys :=
  List.cons.inj h

theorem exists_cons_of_unplaced {α : Type} [Placed α] {x : α} {xs ys : List α}
    (h : unplaced (x :: xs) = unplaced ys) :
    ∃ z zs, ys = z :: zs ∧ unplaced x = unplaced z ∧ unplaced xs = unplaced zs := by
  cases ys with
  | nil => simp at h
  | cons z zs => exact ⟨z, zs, rfl, unplaced_cons_inj h⟩

theorem none_or_some_of_unplaced {α : Type} [Placed α] {x y : Option α}
    (h : unplaced x = unplaced y) :
    (x = none ∧ y = none) ∨ ∃ a b, x = some a ∧ y = some b ∧ unplaced a = unplaced b := by
  cases x <;> cases y <;> simp at h
  · exact .inl ⟨rfl, rfl⟩
  · exact .inr ⟨_, _, rfl, rfl, h⟩

theorem unplaced_dropLast {α : Type} [Placed α] {xs ys : List α} (h : unplaced xs = unplaced ys) :
    unplaced xs.dropLast = unplaced ys.dropLast := by
  show List.map unplaced _ = List.map unplaced _
  rw [List.map_dropLast, List.map_dropLast]
  exact congrArg List.dropLast h

theorem unplaced_getLast {α : Type} [Placed α] {xs ys : List α} (h : unplaced xs = unplaced ys)
    (hx : xs ≠ []) (hy : ys ≠ []) : unplaced (xs.getLast hx) = unplaced (ys.getLast hy) := by
  have last : (unplaced xs).getLast? = (unplaced ys).getLast? := by rw [h]
  simp only [unplaced, List.getLast?_map, List.getLast?_eq_some_getLast hx,
    List.getLast?_eq_some_getLast hy, Option.map_some, Option.some.injEq] at last
  exact last

/-- What does not see places is the same for things that are equal up to places. -/
theorem eq_of_unplaced {α β : Type} [Placed α] {f : α → β} (hf : ∀ a, f (unplaced a) = f a)
    {a b : α} (h : unplaced a = unplaced b) : f a = f b := by
  rw [← hf a, h, hf b]

theorem world_eq {m m' : Machine} (h : unplaced m = unplaced m') : m.world = m'.world :=
  eq_of_unplaced world_unplaced h

theorem storage_eq {m m' : Machine} (h : unplaced m = unplaced m') :
    unplaced m.storage = unplaced m'.storage :=
  congrArg Machine.storage h

theorem get?_eq {m m' : Machine} (h : unplaced m = unplaced m') (name : String) :
    unplaced (m.storage.get? name) = unplaced (m'.storage.get? name) := by
  rw [← Storage.get?_unplaced, ← Storage.get?_unplaced, storage_eq h]

/-! ### Alike actions -/

/-- Two actions that do the same up to places. -/
def Action.Alike {α : Type} [Placed α] (x y : Action α) : Prop :=
  ∀ m m' : Machine, unplaced m = unplaced m' → unplaced (x.run m) = unplaced (y.run m')

namespace Action.Alike

variable {α β : Type} [Placed α] [Placed β] {x y : Action α}

theorem done {r r' : Except Stop α} (h : unplaced r = unplaced r') :
    Alike (Action.done r) (Action.done r') := by
  intro m m' hm
  rw [run_done, run_done, unplaced_mk, unplaced_mk, h, hm]

theorem pure {a b : α} (h : unplaced a = unplaced b) : Alike (pure a) (pure b) :=
  done (by simp [h])

theorem fail {cause cause' : Cause} (h : cause = cause') :
    Alike (Action.fail cause : Action α) (Action.fail cause') := by
  subst h
  exact done rfl

theorem failAt (cause : Cause) (span span' : Option Span) :
    Alike (Action.failAt cause span : Action α) (Action.failAt cause span') :=
  done rfl

theorem look {k k' : Machine → Action α}
    (hk : ∀ m m', unplaced m = unplaced m' → Alike (k m) (k' m')) :
    Alike (Action.look k) (Action.look k') := by
  intro m m' hm
  exact hk m m' hm m m' hm

theorem resume {f g : Except Stop α → Action β} (hx : Alike x y)
    (hf : ∀ r r', unplaced r = unplaced r' → Alike (f r) (g r')) :
    Alike (x.resume f) (y.resume g) := by
  intro m m' hm
  rw [run_resume, run_resume]
  obtain ⟨result, machine⟩ := Prod.mk.inj (hx m m' hm)
  exact hf _ _ result _ _ machine

theorem step {s s' : Step} (hs : unplaced s = unplaced s') (hx : Alike x y) :
    Alike (Action.step s x) (Action.step s' y) := by
  intro m m' hm
  refine hx _ _ ?_
  rw [unplaced_apply, unplaced_apply, hs, hm]

theorem bind {f g : α → Action β} (hx : Alike x y)
    (hf : ∀ a b, unplaced a = unplaced b → Alike (f a) (g b)) : Alike (x >>= f) (y >>= g) := by
  refine hx.resume fun r r' h => ?_
  rcases r with reason | a <;> rcases r' with reason' | b <;> simp at h
  · exact done (by simp [h])
  · exact hf a b h

theorem machine {f g : Machine → Action α}
    (hf : ∀ m m', unplaced m = unplaced m' → Alike (f m) (g m')) :
    Alike (Action.machine >>= f) (Action.machine >>= g) :=
  look hf

theorem take {s s' : Step} {f g : Unit → Action α} (hs : unplaced s = unplaced s')
    (hf : Alike (f ()) (g ())) : Alike (Action.take s >>= f) (Action.take s' >>= g) :=
  step hs hf

theorem exiting {f g : Bool → Action α} (hf : ∀ b, Alike (f b) (g b)) :
    Alike (Action.exiting >>= f) (Action.exiting >>= g) := by
  rw [exiting_bind, exiting_bind]
  refine look fun m m' hm => ?_
  have exit : unplaced m.exit = unplaced m'.exit := congrArg Machine.exit hm
  rw [eq_of_unplaced isSome_unplaced exit]
  exact hf _

/-- What follows two alike actions is alike if it is for alike results, for faults and for
exhaustion. -/
theorem ending {f g : Except Stop α → Action β} (hx : Alike x y)
    (ok : ∀ a b, unplaced a = unplaced b → Alike (f (.ok a)) (g (.ok b)))
    (fault : ∀ a b : Fault, unplaced a = unplaced b →
      Alike (f (.error (.fault a))) (g (.error (.fault b))))
    (exhausted : Alike (f (.error .exhausted)) (g (.error .exhausted))) :
    Alike (x.resume f) (y.resume g) := by
  refine hx.resume fun r r' h => ?_
  rcases r with (a | _) | a <;> rcases r' with (b | _) | b <;> simp at h
  · exact fault a b h
  · exact exhausted
  · exact ok a b h

/-- Whether a fault can be handled does not depend on places. -/
theorem caught {a b : Fault} (h : unplaced a = unplaced b) :
    Alike (Action.caught a : Action (Except Fault α)) (Action.caught b) := by
  have defect : a.isDefect = b.isDefect := eq_of_unplaced (f := Fault.isDefect) (fun _ => rfl) h
  rw [Action.caught, Action.caught, defect]
  split
  · exact done (by simp [h])
  · exact pure (by simp [h])

theorem attempt (hx : Alike x y) : Alike x.attempt y.attempt :=
  hx.ending (fun _ _ h => pure (by simp [h])) (fun _ _ h => caught h) (done rfl)

theorem contain (hx : Alike x y) : Alike x.contain y.contain :=
  hx.ending (fun _ _ h => pure (by simp [h])) (fun _ _ h => caught h) (pure rfl)

/-- A fault is the same up to places wherever it passes. -/
theorem traced (span span' : Option Span) (hx : Alike x y) :
    Alike (x.traced span) (y.traced span') := by
  refine hx.ending (fun _ _ h => pure h) (fun a b h => done ?_) (done rfl)
  have cause : a.cause = b.cause := eq_of_unplaced (f := Fault.cause) (fun _ => rfl) h
  simp [unplaced, cause]

theorem andFinally {s s' : Step} (hs : unplaced s = unplaced s') (hx : Alike x y) :
    Alike (x.andFinally s) (y.andFinally s') :=
  hx.resume fun _ _ h => step hs (done h)

theorem inScope {params params' : Bindings} (hp : unplaced params = unplaced params')
    (hx : Alike x y) : Alike (x.inScope params) (y.inScope params') :=
  step (congrArg Step.enter hp) (hx.andFinally rfl)

theorem truncated (depth : Nat) (hx : Alike x y) : Alike (x.truncated depth) (y.truncated depth) := by
  refine look fun m m' hm => step rfl (hx.andFinally ?_)
  have hidden : unplaced (m.storage.hidden depth) = unplaced (m'.storage.hidden depth) := by
    rw [Storage.unplaced_hidden, storage_eq hm, ← Storage.unplaced_hidden]
  exact congrArg Step.restore hidden

theorem ofOutcome {r r' : Except Fault α} (h : unplaced r = unplaced r') :
    Alike (Action.ofOutcome r) (Action.ofOutcome r') := by
  rcases r with fault | a <;> rcases r' with fault' | b <;> simp at h
  · exact done (by simp [h])
  · exact pure h

theorem ofExcept {r r' : Except Cause α} (h : r = r') :
    Alike (Action.ofExcept r) (Action.ofExcept r') := by
  subst h
  cases r <;> exact done rfl

theorem nameOf {node node' : Node} (h : unplaced node = unplaced node') (place : NamePlace) :
    Alike (Action.nameOf node place) (Action.nameOf node' place) := by
  rw [Action.nameOf, Action.nameOf, eq_of_unplaced name?_unplaced h]
  cases node'.name? with
  | some name => exact pure rfl
  | none => exact failAt _ _ _

theorem insert (name : String) {value value' : Atom} (h : unplaced value = unplaced value') :
    Alike (Action.insert name value) (Action.insert name value') :=
  step (congrArg (Step.insert name) h) (pure rfl)

theorem lookup (name : String) (span span' : Option Span) :
    Alike (Action.lookup name span) (Action.lookup name span') := by
  refine machine fun m m' hm => ?_
  obtain ⟨h, h'⟩ | ⟨a, b, h, h', hab⟩ := none_or_some_of_unplaced (get?_eq hm name)
  · rw [h, h']
    exact failAt _ _ _
  · rw [h, h']
    exact pure hab

theorem lookupFunction (name : String) :
    Alike (Action.lookupFunction name) (Action.lookupFunction name) := by
  refine machine fun m m' hm => ?_
  rw [Storage.getFunction, Storage.getFunction]
  obtain ⟨h, h'⟩ | ⟨a, b, h, h', hab⟩ := none_or_some_of_unplaced (get?_eq hm name)
  · rw [h, h']
    exact fail rfl
  · rw [h, h']
    cases Atom.alike hab with
    | function hf => exact pure hf
    | _ => exact fail rfl

theorem emit (closed : World → Bool) (s : Step) :
    let act : Action Unit := do
      if ← Action.exiting then Pure.pure ()
      else if closed (← Action.machine).world then Action.fail .writeClosed
      else Action.take s
    Alike act act := by
  refine exiting fun ending => ?_
  cases ending with
  | true => exact pure rfl
  | false =>
    refine machine fun m m' hm => ?_
    rw [world_eq hm]
    cases closed m'.world with
    | true => exact fail rfl
    | false => exact step rfl (pure rfl)

theorem write (text : String) : Alike (Action.write text) (Action.write text) :=
  emit (fun world => world.stdout.closed) (.write text)

theorem writeError (text : String) : Alike (Action.writeError text) (Action.writeError text) :=
  emit (fun world => world.stderr.closed) (.writeError text)

theorem readLine : Alike Action.readLine Action.readLine := by
  refine machine fun m m' hm => ?_
  rw [world_eq hm]
  dsimp only
  split
  · exact fail rfl
  · refine take rfl ?_
    split
    · exact fail rfl
    · split
      · exact pure rfl
      · exact fail rfl

theorem readClock : Alike Action.readClock Action.readClock := by
  refine machine fun m m' hm => ?_
  rw [world_eq hm]
  exact take rfl (pure rfl)

theorem freshStamp : Alike Action.freshStamp Action.freshStamp := by
  refine machine fun m m' hm => ?_
  rw [world_eq hm]
  exact take rfl (pure rfl)

theorem freshTypeId : Alike Action.freshTypeId Action.freshTypeId := by
  refine machine fun m m' hm => ?_
  rw [world_eq hm]
  exact take rfl (pure rfl)

/-- A nested machine that is made from alike machines is alike. -/
theorem inMachine (origin : Origin) (directory : Option Path) (name : String) (embedded : Bool)
    (stack : Machine → List String) (hs : ∀ m, stack (unplaced m) = stack m) (hx : Alike x y) :
    Alike (Action.inMachine origin (fun m => m.nested directory name embedded (stack m)) x)
      (Action.inMachine origin (fun m => m.nested directory name embedded (stack m)) y) := by
  intro m m' hm
  have nested : unplaced (m.nested directory name embedded (stack m)) =
      unplaced (m'.nested directory name embedded (stack m')) := by
    rw [unplaced_nested, unplaced_nested, hm, eq_of_unplaced hs hm]
  rw [run_inMachine _ _ _ (Machine.world_nested ..), run_inMachine _ _ _ (Machine.world_nested ..)]
  obtain ⟨result, inner⟩ := Prod.mk.inj (hx _ _ nested)
  generalize x.run _ = r at result inner ⊢
  generalize y.run _ = r' at result inner ⊢
  refine Prod.ext ?_ ?_
  · rcases r with ⟨reason | a, n⟩ <;> rcases r' with ⟨reason' | a', n'⟩ <;>
      simp_all [Except.map]
  · show { unplaced m with world := r.2.world } = { unplaced m' with world := r'.2.world }
    rw [hm, world_eq inner]

theorem settle (origin : Origin) {outcome outcome' : Outcome} {inner inner' : Machine}
    {bindings bindings' : Bindings} (ho : unplaced outcome = unplaced outcome')
    (hi : unplaced inner = unplaced inner') (hb : unplaced bindings = unplaced bindings') :
    Alike (Action.settle origin outcome inner bindings)
      (Action.settle origin outcome' inner' bindings') := by
  have exit : unplaced inner.exit = unplaced inner'.exit := congrArg Machine.exit hi
  have globals : unplaced inner.storage.globals = unplaced inner'.storage.globals :=
    congrArg Storage.globals (storage_eq hi)
  rw [Action.settle, Action.settle]
  obtain ⟨h, h'⟩ | ⟨o, o', h, h', hoo⟩ := none_or_some_of_unplaced exit <;> rw [h, h']
  · refine (ofOutcome ho).bind fun value value' hv => step ?_ (pure hv)
    show Step.merge origin _ _ = Step.merge origin _ _
    rw [hb, globals]
  · exact step (congrArg (Step.adopt origin) hoo) (pure rfl)

theorem importWith {run : Source → Action Outcome} (name : String) (embeddedOnly : Bool)
    (hr : ∀ source, Alike (run source) (run source)) :
    Alike (Action.importWith run name embeddedOnly) (Action.importWith run name embeddedOnly) := by
  refine machine fun m m' hm => ?_
  rw [world_eq hm, eq_of_unplaced directory_unplaced hm, eq_of_unplaced importStack_unplaced hm,
    ofExcept_bind]
  split
  · split
    · exact fail rfl
    · refine (inMachine _ _ _ _ _ (fun _ => rfl) (hr _)).bind fun r r' h => ?_
      obtain ⟨outcome, inner⟩ := Prod.mk.inj h
      refine settle _ outcome inner ?_
      rw [unplaced_exported, unplaced_exported, inner]
  · exact fail rfl

theorem evalText {e : Engine} (text : String)
    (hr : ∀ source, Alike (runText e source) (runText e source)) :
    Alike (Action.evalText e text) (Action.evalText e text) := by
  refine (inMachine _ _ _ _ _ (fun _ => rfl) (hr _)).bind fun r r' h => ?_
  obtain ⟨outcome, inner⟩ := Prod.mk.inj h
  exact settle _ outcome inner rfl

end Action.Alike

end CallLang
