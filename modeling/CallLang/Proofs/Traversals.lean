import CallLang.Proofs.Library
import Mathlib.Data.Set.List

/-!
# Library functions that go through a sequence

`map` and `filter` call a function for each element of a sequence, and `join` puts strings together.
Each of them is a loop over the elements that collects a result in the scope of its call.

The function that `map` and `filter` call is arbitrary: it may write, read the clock or end the
program. What matters is that it leaves the storage as it was, and only in the machines that these
loops reach (`Visits`).
-/

namespace CallLang

open CallLang.Action CallLang.Builtin

theorem Sequence.ofAtom?_toAtom (seq : Sequence) : Sequence.ofAtom? seq.toAtom = some seq := by
  cases seq with
  | text cs => simp [toAtom, ofAtom?]
  | items xs => rfl

/-! ### The calls of a traversal -/

/-- The scope of a call of `map` or `filter` that has come to an element. -/
def visitScope (seq : Sequence) (f : Callable) (result : List Atom) (element : Atom) : Bindings :=
  [("seq", seq.toAtom), ("f", .function f), ("result", .list result), ("element", element)]

/-- In the machine `m` with a scope on top, the call of `f` with the variable `element` returns a
value. It leaves the storage as it was, and else the machine `m'`. -/
def Callable.Returns (f : Callable) (e : Engine) (steps : Nat) (scope : Bindings) (m : Machine)
    (value : Atom) (m' : Machine) : Prop :=
  m'.storage = m.storage ∧
    ∀ span, (applyWith e steps f [.var "element" span] "f" "").run (m.under [scope]) =
      (.ok value, m'.under [scope])

/-- A traversal that has visited `front` and collected `collect front` goes on with further elements.
In each machine that it reaches, `f` returns `g` of the element. If a call of `f` ends the program,
it is the last one. -/
inductive Visits (e : Engine) (steps : Nat) (seq : Sequence) (f : Callable) (g : Atom → Atom)
    (collect : List Atom → List Atom) : List Atom → List Atom → Machine → Machine → Prop where
  | done (front : List Atom) (m : Machine) : Visits e steps seq f g collect front [] m m
  | next {front elements : List Atom} {v : Atom} {m m₁ m' : Machine}
    (returns : f.Returns e steps (visitScope seq f (collect front) v) m (g v) m₁)
    (live : m₁.exit = none)
    (rest : Visits e steps seq f g collect (front ++ [v]) elements m₁ m') :
    Visits e steps seq f g collect front (v :: elements) m m'
  | ending {front : List Atom} {v : Atom} {m m' : Machine} (elements : List Atom)
    (returns : f.Returns e steps (visitScope seq f (collect front) v) m (g v) m')
    (ended : m'.exit.isSome) :
    Visits e steps seq f g collect front (v :: elements) m m'

section

variable {e : Engine} {steps : Nat} {seq : Sequence} {f : Callable} {g : Atom → Atom}
  {collect : List Atom → List Atom} {front elements : List Atom} {m m' : Machine}

theorem Visits.storage_eq (h : Visits e steps seq f g collect front elements m m') :
    m'.storage = m.storage := by
  induction h with
  | done => rfl
  | next returns _ _ ih => exact ih.trans returns.1
  | ending _ returns _ => exact returns.1

end

/-! ### Traversals -/

/-- The body of a function that collects a list, going through a sequence. -/
def traversalBody (round : Node) : Node :=
  .apply "_" [
    .apply "=" [.read "result", .apply "list" []],
    .apply "for_in" [.read "seq", .read "element", round],
    .read "result"]

/-- The names for builtins outside the rounds. -/
def traversalBuiltins : List (String × Builtin) :=
  [("_", .variadic .sequence), ("=", .binary .assign), ("list", .variadic .list),
    ("for_in", .ternary .forEach), ("append", .binary .append)]

/-- The values in the scope of a traversal between two elements: the name of the element has no value
or still the one of the last round. -/
def traversalValues (seq : Sequence) (f : Callable) (result : List Atom) (last : Option Atom) :
    List Atom :=
  [seq.toAtom, .function f, .list result] ++ last.toList

/-- The library function collects a list in rounds. -/
structure LibraryFunction.Traverses (fn : LibraryFunction) (round : Node) : Prop where
  params : fn.params = ["seq", "f"]
  locals : fn.locals = ["result", "element"]
  builtins : traversalBuiltins ⊆ fn.builtins
  body : fn.body = traversalBody round

namespace LibraryFunction.Traverses

variable {fn : LibraryFunction} {round : Node} (traverses : fn.Traverses round)

include traverses

theorem scope_eq (values : List Atom) :
    fn.scope values = ["seq", "f", "result", "element"].zip values := by
  rw [scope, names, traverses.params, traverses.locals]
  rfl

theorem inside_eq (seq : Sequence) (f : Callable) (result : List Atom) (v : Atom) (m : Machine) :
    fn.inside m (traversalValues seq f result (some v)) = m.under [visitScope seq f result v] := by
  rw [inside, traverses.scope_eq]
  rfl

theorem set_element (seq : Sequence) (f : Callable) (result : List Atom) (last : Option Atom)
    (v : Atom) :
    (fn.scope (traversalValues seq f result last)).set "element" v =
      fn.scope (traversalValues seq f result (some v)) := by
  rw [traverses.scope_eq, traverses.scope_eq]
  cases last <;> rfl

theorem set_result (seq : Sequence) (f : Callable) (result result' : List Atom)
    (last : Option Atom) :
    (fn.scope (traversalValues seq f result last)).set "result" (.list result') =
      fn.scope (traversalValues seq f result' last) := by
  rw [traverses.scope_eq, traverses.scope_eq]
  cases last <;> rfl

end LibraryFunction.Traverses

/-- A round continues the result of a traversal with what is collected, if the program goes on. -/
def LibraryFunction.Collects (fn : LibraryFunction) (round : Node) (e inner : Engine) (steps : Nat)
    (seq : Sequence) (f : Callable) (g : Atom → Atom) (collect : List Atom → List Atom) : Prop :=
  ∀ {front : List Atom} {v : Atom} {m m₁ : Machine}, fn.Ready m →
    f.Returns inner steps (visitScope seq f (collect front) v) m (g v) m₁ →
    ∃ value result, round.Evaluates e
        (fn.inside m (traversalValues seq f (collect front) (some v))) (.ok value)
        (fn.inside m₁ (traversalValues seq f result (some v))) ∧
      (m₁.exit = none → result = collect (front ++ [v]))

section

variable {fn : LibraryFunction} {round : Node} {seq : Sequence} {f : Callable} {g : Atom → Atom}
  {inner : Engine} {steps depth : Nat} {collect : List Atom → List Atom}
  {front elements : List Atom} {m m' : Machine} (traverses : fn.Traverses round)
  (ready : fn.Ready m)

include traverses ready

/-- The rounds collect what the visits give. -/
theorem LibraryFunction.Traverses.iterates {e : Engine}
    (collects : fn.Collects round e inner steps seq f g collect)
    (visits : Visits inner steps seq f g collect front elements m m') (last : Option Atom) :
    ∃ result last', round.Iterates e "element" elements
        (fn.inside m (traversalValues seq f (collect front) last)) (.ok ())
        (fn.inside m' (traversalValues seq f result last')) ∧
      (m'.exit = none → result = collect (front ++ elements)) := by
  induction visits generalizing last with
  | done front m => exact ⟨_, _, .nil round e "element" _, fun _ => by rw [List.append_nil]⟩
  | @next front elements v m m₁ m' returns live _ ih =>
    obtain ⟨value, result, body, collected⟩ := collects ready returns
    obtain rfl := collected live
    obtain ⟨result, last', rest, whole⟩ := ih (ready.of_storage_eq returns.1 live) (some v)
    refine ⟨result, last', ?_, by simpa using whole⟩
    have bound := ready.insert_inside (traverses.set_element seq f (collect front) last v)
    exact .cons (ready.live_inside _) bound body rest
  | @ending front v m m₁ elements returns ended =>
    obtain ⟨value, result, body, -⟩ := collects ready returns
    refine ⟨result, some v, ?_, fun live => absurd ended (by simp [live])⟩
    have bound := ready.insert_inside (traverses.set_element seq f (collect front) last v)
    have inside : (fn.inside m₁ (traversalValues seq f result (some v))).exit.isSome := ended
    exact .cons (ready.live_inside _) bound body (.ending inside round e "element" elements)

/-- A traversal gives what it has collected at the end, unless a call has ended the program. -/
theorem LibraryFunction.Traverses.evaluates
    (collects : fn.Collects round (engine steps (depth + 3)) inner steps seq f g collect)
    (empty : collect [] = [])
    (visits : Visits inner steps seq f g collect [] seq.elements m m') :
    ∃ values, fn.body.Evaluates (engine steps (depth + 5)) (fn.inside m [seq.toAtom, .function f])
      (.ok (if m'.exit.isSome then .null else .list (collect seq.elements)))
      (fn.inside m' values) := by
  obtain ⟨result, last, iterates, whole⟩ := traverses.iterates ready collects visits none
  rw [empty] at iterates
  have started : (fn.scope [seq.toAtom, .function f]).set "result" (.list []) =
      fn.scope (traversalValues seq f [] none) := by
    rw [traverses.scope_eq, traverses.scope_eq]
    rfl
  have list : (Node.apply "list" []).Evaluates (engine steps (depth + 3))
      (fn.inside m [seq.toAtom, .function f]) (.ok (.list []))
      (fn.inside m [seq.toAtom, .function f]) :=
    .list_nil (ready.live_inside _) (ready.shows_inside (traverses.builtins (by decide)))
  have sequence : (Node.read "seq").Evaluates (engine steps (depth + 3))
      (fn.inside m (traversalValues seq f [] none)) (.ok seq.toAtom)
      (fn.inside m (traversalValues seq f [] none)) :=
    ready.read (by rw [traverses.scope_eq]; rfl)
  have forIn : (fn.inside m (traversalValues seq f [] none)).storage.Shows "for_in"
      (.ternary .forEach) := ready.shows_inside (traverses.builtins (by decide))
  have loop := Node.Evaluates.forEach (ready.live_inside _) forIn sequence seq.ofAtom?_toAtom
    iterates
  have last : (Node.read "result").Evaluates (engine steps (depth + 4))
      (fn.inside m' (traversalValues seq f result last))
      (.ok (if m'.exit.isSome then .null else .list (collect seq.elements)))
      (fn.inside m' (traversalValues seq f result last)) := by
    cases exit : m'.exit with
    | none =>
      obtain rfl : result = collect seq.elements := whole exit
      have ready' := ready.of_storage_eq visits.storage_eq exit
      refine ready'.read ?_
      rw [traverses.scope_eq]
      rfl
    | some outcome => exact .ending (by rw [LibraryFunction.inside, Machine.under, exit]; rfl) _
  rw [traverses.body]
  exact ⟨_, ready.sequence (.cons (ready.assign ready list started (traverses.builtins (by decide)))
    (.cons loop (.last last))) (traverses.builtins (by decide))⟩

end

namespace Library

def mapRound : Node :=
  .apply "=" [.read "result", .apply "append" [.read "result", .apply "f" [.read "element"]]]

/-- The function `map` of the prelude. -/
def map : LibraryFunction where
  module := Embedded.preludeName
  name := "map"
  params := ["seq", "f"]
  locals := ["result", "element"]
  builtins := traversalBuiltins
  body := traversalBody mapRound

theorem map_traverses : map.Traverses mapRound := ⟨rfl, rfl, List.Subset.refl _, rfl⟩

def filterRound : Node :=
  .apply "if" [
    .apply "f" [.read "element"],
    .apply "=" [.read "result", .apply "append" [.read "result", .read "element"]]]

/-- The function `filter` of the prelude. -/
def filter : LibraryFunction where
  module := Embedded.preludeName
  name := "filter"
  params := ["seq", "f"]
  locals := ["result", "element"]
  builtins := ("if", .binary .when) :: traversalBuiltins
  body := traversalBody filterRound

theorem filter_traverses : filter.Traverses filterRound :=
  ⟨rfl, rfl, List.subset_cons_self _ _, rfl⟩

theorem map_found : map.Found :=
  .of_spelling rfl Embedded.preludeSpelling (by decide +kernel)

theorem filter_found : filter.Found :=
  .of_spelling rfl Embedded.preludeSpelling (by decide +kernel)

section

variable {fn : LibraryFunction} {round : Node} (traverses : fn.Traverses round) {seq : Sequence}
  {f : Callable} {steps depth : Nat}

include traverses

/-- The call of the parameter does what the function does that it is bound to. -/
theorem evaluates_visit {m m₁ : Machine} {result : List Atom} {v a : Atom} (ready : fn.Ready m)
    (returns : f.Returns (engine steps depth) steps (visitScope seq f result v) m a m₁) :
    (Node.apply "f" [.read "element"]).Evaluates (engine steps (depth + 1))
      (fn.inside m (traversalValues seq f result (some v))) (.ok a)
      (fn.inside m₁ (traversalValues seq f result (some v))) := by
  have bound : (fn.scope (traversalValues seq f result (some v))).get? "f" =
      some (.function f) := by
    rw [traverses.scope_eq]
    rfl
  refine .apply (ready.live_inside _) (f := f) ?_ fun nodes hn => ?_
  · rw [Storage.getFunction, ready.get?_inside bound]
  · obtain ⟨node, rfl, hv⟩ := List.map_eq_singleton_iff.mp hn
    obtain ⟨span, rfl⟩ := Node.eq_var_of_unplaced hv
    rw [traverses.inside_eq, traverses.inside_eq]
    exact returns.2 span

end

/-- A round of `map` appends what the function returns. -/
theorem map_collects (steps depth : Nat) (seq : Sequence) (f : Callable) (g : Atom → Atom) :
    map.Collects mapRound (engine steps (depth + 3)) (engine steps depth) steps seq f g
      (List.map g) := by
  intro front v m m₁ ready returns
  have result : (Node.read "result").Evaluates (engine steps (depth + 1))
      (map.inside m (traversalValues seq f (front.map g) (some v))) (.ok (.list (front.map g)))
      (map.inside m (traversalValues seq f (front.map g) (some v))) := ready.read rfl
  have appended : (Node.apply "append" [.read "result", .apply "f" [.read "element"]]).Evaluates
      (engine steps (depth + 2)) (map.inside m (traversalValues seq f (front.map g) (some v)))
      (.ok (.list (front.map g ++ [g v])))
      (map.inside m₁ (traversalValues seq f (front.map g) (some v))) :=
    .append (ready.live_inside _) (ready.shows_inside (by decide)) result
      (evaluates_visit map_traverses ready returns)
  cases exit : m₁.exit with
  | none =>
    have ready₁ := ready.of_storage_eq returns.1 exit
    refine ⟨.null, (front ++ [v]).map g, ?_, fun _ => rfl⟩
    rw [List.map_append]
    exact ready.assign ready₁ appended (map_traverses.set_result ..)
  | some outcome =>
    refine ⟨.null, front.map g, ?_, fun live => by cases live⟩
    have ended : (map.inside m₁ (traversalValues seq f (front.map g) (some v))).exit.isSome :=
      Option.isSome_of_eq_some exit
    exact .assign_of_ending (ready.live_inside _) (ready.shows_inside (by decide)) appended ended

/-- A round of `filter` appends the element if the function returns true. -/
theorem filter_collects (steps depth : Nat) (seq : Sequence) (f : Callable) (p : Atom → Bool) :
    filter.Collects filterRound (engine steps (depth + 3)) (engine steps (depth + 1)) steps seq f
      (fun v => .bool (p v)) (List.filter p) := by
  intro front v m m₁ ready returns
  have visited : (Node.apply "f" [.read "element"]).Evaluates (engine steps (depth + 2))
      (filter.inside m (traversalValues seq f (front.filter p) (some v))) (.ok (.bool (p v)))
      (filter.inside m₁ (traversalValues seq f (front.filter p) (some v))) :=
    evaluates_visit filter_traverses ready returns
  have shows : (filter.inside m (traversalValues seq f (front.filter p) (some v))).storage.Shows
      "if" (.binary .when) := ready.shows_inside (by decide)
  cases holds : p v with
  | false =>
    rw [holds] at visited
    refine ⟨.null, front.filter p, .when_false (ready.live_inside _) shows visited, fun _ => ?_⟩
    simp [holds]
  | true =>
    rw [holds] at visited
    cases exit : m₁.exit with
    | some outcome =>
      have ended : (filter.inside m₁ (traversalValues seq f (front.filter p) (some v))).exit.isSome :=
        Option.isSome_of_eq_some exit
      refine ⟨.null, front.filter p, ?_, fun live => by cases live⟩
      exact .when_true (ready.live_inside _) shows visited (.ending ended _)
    | none =>
      have ready₁ := ready.of_storage_eq returns.1 exit
      have appended : (Node.apply "append" [.read "result", .read "element"]).Evaluates
          (engine steps (depth + 1))
          (filter.inside m₁ (traversalValues seq f (front.filter p) (some v)))
          (.ok (.list (front.filter p ++ [v])))
          (filter.inside m₁ (traversalValues seq f (front.filter p) (some v))) :=
        .append (ready₁.live_inside _) (ready₁.shows_inside (by decide)) (ready₁.read rfl)
          (ready₁.read rfl)
      have whole : (front ++ [v]).filter p = front.filter p ++ [v] := by simp [holds]
      refine ⟨.null, (front ++ [v]).filter p, ?_, fun _ => rfl⟩
      rw [whole]
      exact .when_true (ready.live_inside _) shows visited
        (ready₁.assign ready₁ appended (filter_traverses.set_result ..))

section

variable {steps depth : Nat} {m m' n : Machine} {args : List Node} {seq : Sequence} {f : Callable}

/-- A call of `map` gives what the function returns for the elements, unless the function ends the
program. -/
theorem run_map {g : Atom → Atom}
    (called : map.Called (engine steps (depth + 5)) m args [seq.toAtom, .function f] m')
    (visits : Visits (engine steps depth) steps seq f g (List.map g) [] seq.elements m' n)
    (doc : String) (span : Option Span) :
    ((engine steps (depth + 6)).eval (.call "map" args doc span)).run m =
      (.ok (if n.exit.isSome then .null else .list (seq.elements.map g)), n) := by
  obtain ⟨values, body⟩ := map_traverses.evaluates called.ready
    (map_collects steps depth seq f g) rfl visits
  exact called.ends map_found rfl body doc span

/-- A call of `filter` gives the elements for which the function returns true, unless the function
ends the program. -/
theorem run_filter {p : Atom → Bool}
    (called : filter.Called (engine steps (depth + 5)) m args [seq.toAtom, .function f] m')
    (visits : Visits (engine steps (depth + 1)) steps seq f (fun v => .bool (p v)) (List.filter p)
      [] seq.elements m' n)
    (doc : String) (span : Option Span) :
    ((engine steps (depth + 6)).eval (.call "filter" args doc span)).run m =
      (.ok (if n.exit.isSome then .null else .list (seq.elements.filter p)), n) := by
  obtain ⟨values, body⟩ := filter_traverses.evaluates called.ready
    (filter_collects steps depth seq f p) rfl visits
  exact called.ends filter_found rfl body doc span

end

end Library

/-- `map` and `filter` are map and filter of lists. If a function returns `g v` for each element `v`
of a list or string and leaves the storage as it was, `map` gives the list of the `g v`, and if `g v`
says whether `p v`, `filter` gives the list of the `v` with `p v`; the order is kept, and the storage
is the one after the arguments. If the function ends the program meanwhile, the call gives null, as
all calls do from then on. -/
theorem map_filter_law (steps depth : Nat) {m m' n : Machine} {args : List Node} {seq : Sequence}
    {f : Callable} (doc : String) (span : Option Span) :
    (∀ g : Atom → Atom,
      Library.map.Called (engine steps (depth + 5)) m args [seq.toAtom, .function f] m' →
      Visits (engine steps depth) steps seq f g (List.map g) [] seq.elements m' n →
      n.storage = m'.storage ∧
        ((engine steps (depth + 6)).eval (.call "map" args doc span)).run m =
          (.ok (if n.exit.isSome then .null else .list (seq.elements.map g)), n)) ∧
    (∀ p : Atom → Bool,
      Library.filter.Called (engine steps (depth + 5)) m args [seq.toAtom, .function f] m' →
      Visits (engine steps (depth + 1)) steps seq f (fun v => .bool (p v)) (List.filter p) []
        seq.elements m' n →
      n.storage = m'.storage ∧
        ((engine steps (depth + 6)).eval (.call "filter" args doc span)).run m =
          (.ok (if n.exit.isSome then .null else .list (seq.elements.filter p)), n)) := by
  constructor
  · intro g called visits
    exact ⟨visits.storage_eq, Library.run_map called visits doc span⟩
  · intro p called visits
    exact ⟨visits.storage_eq, Library.run_filter called visits doc span⟩

/-! ### Calls of a builtin -/

section

variable {fn : LibraryFunction} {round : Node} (traverses : fn.Traverses round)
  {steps depth : Nat} {seq : Sequence} {result : List Atom} {m m₁ : Machine} (ready : fn.Ready m)

include traverses ready

/-- A builtin with one argument gets the element. -/
theorem returns_unary {op : Unary} {v value : Atom} (storage : m₁.storage = m.storage)
    (h : ∀ (node : Node) (scopes : List Bindings),
      ((engine steps depth).eval node).run (m.under scopes) = (.ok v, m.under scopes) →
      (op.call (engine steps depth) node).run (m.under scopes) = (.ok value, m₁.under scopes)) :
    Callable.Returns (.builtin [] (.unary op)) (engine steps depth) steps
      (visitScope seq (.builtin [] (.unary op)) result v) m value m₁ := by
  refine ⟨storage, fun span => ?_⟩
  have element : (Node.read "element").Evaluates (engine steps depth)
      (fn.inside m (traversalValues seq (.builtin [] (.unary op)) result (some v))) (.ok v)
      (fn.inside m (traversalValues seq (.builtin [] (.unary op)) result (some v))) :=
    ready.read (by rw [traverses.scope_eq]; rfl)
  rw [traverses.inside_eq] at element
  exact h (.var "element" span) _ (element (.var "element" span) rfl)

end

/-- What `!` gives for a truth value. -/
def negated : Atom → Bool
  | .bool b => !b
  | _ => false

section

variable {fn : LibraryFunction} {round : Node} (traverses : fn.Traverses round)
  (steps depth : Nat) (seq : Sequence) (collect : List Atom → List Atom) {m : Machine}
  (ready : fn.Ready m) (front : List Atom)

include traverses ready

/-- The builtin `!` leaves everything as it is. -/
theorem visits_not (bs : List Bool) :
    Visits (engine steps depth) steps seq (.builtin [] (.unary .not)) (fun v => .bool (negated v))
      collect front (bs.map .bool) m m := by
  induction bs generalizing front with
  | nil => exact .done front m
  | cons b bs ih =>
    refine .next (returns_unary traverses ready rfl fun node scopes element => ?_) ready.live
      (ih (front ++ [.bool b]))
    have truth : (evalBool (engine steps depth) node).run (m.under scopes) =
        (.ok b, m.under scopes) := ends_evalBool element
    exact run_bind_of_ok truth

/-- The builtin `exit` returns null and leaves the storage as it was, but no element comes after the
one that it is called for. -/
theorem visits_exit (v : Atom) (elements : List Atom) :
    Visits (engine steps depth) steps seq (.builtin [] (.unary .exit)) (fun _ => .null) collect
      front (v :: elements) m { m with exit := some (.ok v) } := by
  refine .ending elements (returns_unary traverses ready rfl fun node scopes element => ?_) rfl
  have outcome : ((engine steps depth).eval node).attempt.run (m.under scopes) =
      (.ok (.ok v), m.under scopes) := by
    rw [Action.attempt, run_resume, element]
    rfl
  exact run_bind_of_ok outcome

end

/-- Truth values, negated by `map` and selected by `filter`. -/
theorem map_filter_law_of_not :
    let args : List Node := [.write (.list [.bool true, .bool false]),
      .write (.function (.builtin [] (.unary .not)))]
    ((engine 0 6).eval (.call "map" args "" none)).run Library.map.host =
        (.ok (.list [.bool false, .bool true]), Library.map.host) ∧
      ((engine 0 6).eval (.call "filter" args "" none)).run Library.filter.host =
        (.ok (.list [.bool false]), Library.filter.host) := by
  intro args
  let seq : Sequence := .items [.bool true, .bool false]
  let values : List Atom := [seq.toAtom, .function (.builtin [] (.unary .not))]
  have map := Library.map_found.called 0 5 values
  have filter := Library.filter_found.called 0 5 values
  have mapped := (map_filter_law 0 0 "" none).1 _ map
    (visits_not Library.map_traverses 0 0 seq _ map.ready [] [true, false])
  have filtered := (map_filter_law 0 0 "" none).2 negated filter
    (visits_not Library.filter_traverses 0 1 seq _ filter.ready [] [true, false])
  rw [Library.map.exit_host] at mapped
  rw [Library.filter.exit_host] at filtered
  exact ⟨mapped.2, filtered.2⟩

/-- With `exit` in place of the function, `map` does not give a list, although each call of `exit`
returns null and leaves the storage as it was. -/
theorem map_of_exit_gives_no_list :
    ¬ ∀ (m m' n : Machine) (args : List Node) (seq : Sequence) (f : Callable) (g : Atom → Atom),
      Library.map.Called (engine 0 5) m args [seq.toAtom, .function f] m' →
      Visits (engine 0 0) 0 seq f g (List.map g) [] seq.elements m' n →
      ((engine 0 6).eval (.call "map" args "" none)).run m =
        (.ok (.list (seq.elements.map g)), n) := by
  intro law
  let seq : Sequence := .items [.int 1]
  have called := Library.map_found.called 0 5 [seq.toAtom, .function (.builtin [] (.unary .exit))]
  have visits := visits_exit Library.map_traverses 0 0 seq (List.map fun _ => .null) called.ready []
    (.int 1) []
  have claimed := law _ _ _ _ seq _ _ called visits
  rw [Library.run_map called visits "" none] at claimed
  cases claimed

/-! ### Putting strings together -/

namespace Library

def joinSeparate : Node :=
  .apply "if" [
    .apply "!" [.read "first"],
    .apply "=" [.read "result", .apply "strconcat" [.read "result", .read "sep"]]]

def joinRound : Node :=
  .apply "_" [
    joinSeparate,
    .apply "=" [.read "result", .apply "strconcat" [.read "result", .read "part"]],
    .apply "=" [.read "first", .write (.bool false)]]

/-- The function `join` of the module for strings. -/
def join : LibraryFunction where
  module := "strings"
  name := "join"
  params := ["parts", "sep"]
  locals := ["result", "first", "part"]
  builtins := [("_", .variadic .sequence), ("=", .binary .assign), ("for_in", .ternary .forEach),
    ("if", .binary .when), ("!", .unary .not), ("strconcat", .variadic .concat)]
  body :=
    .apply "_" [
      .apply "=" [.read "result", .write (.string "")],
      .apply "=" [.read "first", .write (.bool true)],
      .apply "for_in" [.read "parts", .read "part", joinRound],
      .read "result"]

theorem join_found : join.Found :=
  .of_spelling rfl Embedded.stringsSpelling (by decide +kernel)

/-- The values in the scope of a call of `join` between two elements. -/
def joinValues (parts : List Atom) (sep result : String) (first : Bool) (last : Option Atom) :
    List Atom :=
  [.list parts, .string sep, .string result, .bool first] ++ last.toList

section

variable {steps depth : Nat} {m : Machine} {parts : List Atom} {sep result : String} {first : Bool}
  {a : Atom} (ready : join.Ready m)

include ready

/-- The separator is put behind the result, except at first. -/
theorem join_separate :
    joinSeparate.Evaluates (engine steps (depth + 3))
      (join.inside m (joinValues parts sep result first (some a))) (.ok .null)
      (join.inside m (joinValues parts sep (if first then result else result ++ sep) first
        (some a))) := by
  have negated : (Node.apply "!" [.read "first"]).Evaluates (engine steps (depth + 2))
      (join.inside m (joinValues parts sep result first (some a))) (.ok (.bool !first))
      (join.inside m (joinValues parts sep result first (some a))) :=
    .not (ready.live_inside _) (ready.shows_inside (by decide)) (ready.read rfl)
  have shows : (join.inside m (joinValues parts sep result first (some a))).storage.Shows "if"
      (.binary .when) := ready.shows_inside (by decide)
  cases first with
  | true => exact .when_false (ready.live_inside _) shows negated
  | false =>
    have separated : (Node.apply "strconcat" [.read "result", .read "sep"]).Evaluates
        (engine steps (depth + 1)) (join.inside m (joinValues parts sep result false (some a)))
        (.ok (.string (result ++ sep)))
        (join.inside m (joinValues parts sep result false (some a))) :=
      .concat (ready.live_inside _) (ready.shows_inside (by decide)) (ready.read rfl)
        (ready.read rfl)
    exact .when_true (ready.live_inside _) shows negated (ready.assign ready separated rfl)

/-- A round puts a string behind the result. -/
theorem join_round (text : String) :
    joinRound.Evaluates (engine steps (depth + 4))
      (join.inside m (joinValues parts sep result first (some (.string text)))) (.ok .null)
      (join.inside m (joinValues parts sep ((if first then result else result ++ sep) ++ text)
        false (some (.string text)))) := by
  generalize separated : (if first then result else result ++ sep) = result'
  have put : (Node.apply "strconcat" [.read "result", .read "part"]).Evaluates
      (engine steps (depth + 2))
      (join.inside m (joinValues parts sep result' first (some (.string text))))
      (.ok (.string (result' ++ text)))
      (join.inside m (joinValues parts sep result' first (some (.string text)))) :=
    .concat (ready.live_inside _) (ready.shows_inside (by decide)) (ready.read rfl) (ready.read rfl)
  have no : (Node.write (.bool false)).Evaluates (engine steps (depth + 2))
      (join.inside m (joinValues parts sep (result' ++ text) first (some (.string text))))
      (.ok (.bool false))
      (join.inside m (joinValues parts sep (result' ++ text) first (some (.string text)))) :=
    .write (ready.live_inside _) rfl
  subst separated
  exact ready.sequence (.cons (join_separate ready) (.cons (ready.assign ready put rfl)
    (.last (ready.assign ready no rfl))))

/-- What is not a string cannot be put behind the result. -/
theorem join_round_of_other (other : ∀ t, a ≠ .string t) :
    joinRound.Evaluates (engine steps (depth + 4))
      (join.inside m (joinValues parts sep result first (some a)))
      (.error (.wrongVariant a.display [.string]))
      (join.inside m (joinValues parts sep (if first then result else result ++ sep) first
        (some a))) := by
  generalize separated : (if first then result else result ++ sep) = result'
  have refused : (Node.apply "strconcat" [.read "result", .read "part"]).Evaluates
      (engine steps (depth + 2)) (join.inside m (joinValues parts sep result' first (some a)))
      (.error (.wrongVariant a.display [.string]))
      (join.inside m (joinValues parts sep result' first (some a))) :=
    .concat_error (ready.live_inside _) (ready.shows_inside (by decide)) (ready.read rfl)
      (ready.read rfl) other
  subst separated
  exact ready.sequence (.cons (join_separate ready)
    (.error (.assign_error (ready.live_inside _) (ready.shows_inside (by decide)) refused)))

/-- The name of the element is bound in front of a round. -/
theorem join_insert (last : Option Atom) (a : Atom) :
    (Step.insert "part" a).apply (join.inside m (joinValues parts sep result first last)) =
      join.inside m (joinValues parts sep result first (some a)) :=
  ready.insert_inside (by cases last <;> rfl)

/-- After `front`, strings are put behind the result with the separator between them. -/
theorem join_iterates (front texts : List String) (last : Option Atom) :
    ∃ last', joinRound.Iterates (engine steps (depth + 4)) "part" (texts.map .string)
      (join.inside m (joinValues parts sep (sep.intercalate front) front.isEmpty last)) (.ok ())
      (join.inside m (joinValues parts sep (sep.intercalate (front ++ texts))
        (front ++ texts).isEmpty last')) := by
  induction texts generalizing front last with
  | nil =>
    rw [List.append_nil]
    exact ⟨last, .nil joinRound _ "part" _⟩
  | cons text texts ih =>
    obtain ⟨last', rest⟩ := ih (front ++ [text]) (some (.string text))
    have joined : (if front.isEmpty then sep.intercalate front else sep.intercalate front ++ sep) ++
        text = sep.intercalate (front ++ [text]) := by
      cases front with
      | nil => simp
      | cons t ts => rw [String.intercalate_append_of_ne_nil (by simp) (by simp)]; simp
    have round : joinRound.Evaluates (engine steps (depth + 4))
        (join.inside m (joinValues parts sep (sep.intercalate front) front.isEmpty
          (some (.string text)))) (.ok .null)
        (join.inside m (joinValues parts sep (sep.intercalate (front ++ [text]))
          false (some (.string text)))) := joined ▸ join_round ready text
    have notEmpty : (front ++ [text]).isEmpty = false := by simp
    rw [notEmpty, List.append_assoc] at rest
    exact ⟨last', .cons (ready.live_inside _) (join_insert ready last _) round rest⟩

/-- An element that is not a string ends the loop. -/
theorem join_iterates_of_other {elements : List Atom} {b : Atom} (hb : b ∈ elements)
    (other : ∀ t, b ≠ .string t) (result : String) (first : Bool) (last : Option Atom) :
    ∃ shown result' first' last', joinRound.Iterates (engine steps (depth + 4)) "part" elements
      (join.inside m (joinValues parts sep result first last))
      (.error (.wrongVariant shown [.string]))
      (join.inside m (joinValues parts sep result' first' last')) := by
  induction elements generalizing result first last with
  | nil => cases hb
  | cons a elements ih =>
    by_cases string : ∃ t, a = .string t
    · obtain ⟨t, rfl⟩ := string
      have behind : b ∈ elements := (List.mem_cons.mp hb).resolve_left (other t)
      obtain ⟨shown, result', first', last', rest⟩ := ih behind _ false (some (.string t))
      exact ⟨shown, result', first', last', .cons (ready.live_inside _) (join_insert ready last _)
        (join_round ready t) rest⟩
    · exact ⟨a.display, _, _, _, .error (ready.live_inside _) (join_insert ready last _)
        (join_round_of_other ready (not_exists.mp string))⟩

/-- The body of `join` does what its loop does, and gives the result at the end. -/
theorem join_body {outcome : Except Cause Unit} {result : String} {first : Bool}
    {last : Option Atom}
    (h : joinRound.Iterates (engine steps (depth + 4)) "part" parts
      (join.inside m (joinValues parts sep "" true none)) outcome
      (join.inside m (joinValues parts sep result first last))) :
    join.body.Evaluates (engine steps (depth + 6)) (join.inside m [.list parts, .string sep])
      (outcome.map fun _ => .string result)
      (join.inside m (joinValues parts sep result first last)) := by
  have empty : (Node.write (.string "")).Evaluates (engine steps (depth + 4))
      (join.inside m [.list parts, .string sep]) (.ok (.string ""))
      (join.inside m [.list parts, .string sep]) := .write (ready.live_inside _) rfl
  have yes : (Node.write (.bool true)).Evaluates (engine steps (depth + 4))
      (join.inside m [.list parts, .string sep, .string ""]) (.ok (.bool true))
      (join.inside m [.list parts, .string sep, .string ""]) := .write (ready.live_inside _) rfl
  have elements : (Node.read "parts").Evaluates (engine steps (depth + 4))
      (join.inside m (joinValues parts sep "" true none)) (.ok (.list parts))
      (join.inside m (joinValues parts sep "" true none)) := ready.read rfl
  have forIn : (join.inside m (joinValues parts sep "" true none)).storage.Shows "for_in"
      (.ternary .forEach) := ready.shows_inside (by decide)
  have loop := Node.Evaluates.forEach (ready.live_inside _) forIn elements rfl h
  have started : (join.scope [.list parts, .string sep, .string ""]).set "first" (.bool true) =
      join.scope (joinValues parts sep "" true none) := rfl
  refine ready.sequence (.cons (ready.assign ready empty rfl)
    (.cons (ready.assign ready yes started) ?_))
  cases outcome with
  | error cause => exact .error loop
  | ok _ => exact .cons loop (.last (ready.read rfl))

theorem join_body_of_texts (depth : Nat) (sep : String) (texts : List String) :
    ∃ values, join.body.Evaluates (engine steps (depth + 6))
      (join.inside m [.list (texts.map .string), .string sep])
      (.ok (.string (sep.intercalate texts))) (join.inside m values) := by
  obtain ⟨last, iterates⟩ : ∃ last, joinRound.Iterates (engine steps (depth + 4)) "part"
      (texts.map .string) (join.inside m (joinValues (texts.map .string) sep "" true none)) (.ok ())
      (join.inside m (joinValues (texts.map .string) sep (sep.intercalate texts) texts.isEmpty
        last)) := by
    simpa using join_iterates ready [] texts none
  exact ⟨_, join_body ready iterates⟩

theorem join_body_of_other (depth : Nat) (sep : String) {b : Atom} (hb : b ∈ parts)
    (other : ∀ t, b ≠ .string t) :
    ∃ shown values, join.body.Evaluates (engine steps (depth + 6))
      (join.inside m [.list parts, .string sep]) (.error (.wrongVariant shown [.string]))
      (join.inside m values) := by
  obtain ⟨shown, result, first, last, iterates⟩ :=
    join_iterates_of_other ready hb other "" true none
  exact ⟨shown, _, join_body ready iterates⟩

end

end Library

/-- Intercalation: `join` gives the strings of a list with the separator between every two
neighbours, and fails with a fault of kind `Type` if not all elements are strings. Nothing else
happens, whatever the bindings are, as long as the builtins are at hand and the names of the
function are not declared global. -/
theorem join_intercalates (steps depth : Nat) {m m' : Machine} {args : List Node}
    {parts : List Atom} {sep : String}
    (called : Library.join.Called (engine steps (depth + 6)) m args [.list parts, .string sep] m')
    (doc : String) (span : Option Span) :
    let r := ((engine steps (depth + 7)).eval (.call "join" args doc span)).run m
    r.2 = m' ∧
      (∀ texts : List String, parts = texts.map .string →
        r.1 = .ok (.string (sep.intercalate texts))) ∧
      ((∃ a ∈ parts, ∀ t, a ≠ .string t) →
        ∃ fault, r.1 = .error (.fault fault) ∧ fault.cause.kind = "Type") := by
  intro r
  by_cases other : ∃ a ∈ parts, ∀ t, a ≠ .string t
  · obtain ⟨b, hb, notString⟩ := other
    obtain ⟨shown, values, body⟩ := Library.join_body_of_other called.ready depth sep hb notString
    obtain ⟨backtrace, ran⟩ := called.ends Library.join_found rfl body doc span
    have hr : r = (.error (.fault ⟨.wrongVariant shown [.string], backtrace⟩), m') := ran
    refine ⟨by rw [hr], fun texts strings => ?_, fun _ => ⟨_, by rw [hr], rfl⟩⟩
    obtain ⟨t, -, rfl⟩ := List.mem_map.mp (strings ▸ hb)
    exact absurd rfl (notString t)
  · have strings : parts ∈ Set.range (List.map Atom.string) := by
      rw [Set.range_list_map]
      simpa [eq_comm] using other
    obtain ⟨texts, rfl⟩ := strings
    obtain ⟨values, body⟩ := Library.join_body_of_texts called.ready depth sep texts
    have hr : r = (.ok (.string (sep.intercalate texts)), m') :=
      called.ends Library.join_found rfl body doc span
    refine ⟨by rw [hr], fun texts' strings => ?_, fun found => absurd found other⟩
    obtain rfl : texts = texts' := List.map_injective_iff.mpr (fun _ _ => Atom.string.inj) strings
    rw [hr]

/-- Empty strings are neighbours, too. -/
theorem join_intercalates_empty :
    let args : List Node := [.write (.list [.string "", .string "a", .string ""]),
      .write (.string "-")]
    (((engine 0 7).eval (.call "join" args "" none)).run Library.join.host).1 =
      .ok (.string "-a-") := by
  have law := join_intercalates 0 0 (Library.join_found.called 0 6
    [.list [.string "", .string "a", .string ""], .string "-"]) "" none
  exact law.2.1 ["", "a", ""] rfl

end CallLang
