import CallLang.Proofs.Alike
import CallLang.Proofs.NestedRuns

/-!
# Following an evaluation

What the evaluation of an expression does follows from what the evaluation of its parts does. There
is one rule for each form of expression and each builtin that the functions of the embedded modules
are written with, so a statement about such a function is proved along its text.

The rules leave places open: they hold wherever an expression is written (`Node.Evaluates`), and they
tell the cause of a fault but not its backtrace (`Action.Ends`).
-/

namespace CallLang

open CallLang.Action CallLang.Builtin

/-! ### How actions end -/

namespace Action

variable {α β : Type} {x : Action α} {m m₁ m' : Machine} {cause : Cause}

/-- An action ends with a value, or with a fault that has the given cause. -/
def Ends (x : Action α) (m : Machine) (result : Except Cause α) (m' : Machine) : Prop :=
  match result with
  | .ok a => x.run m = (.ok a, m')
  | .error cause => ∃ backtrace, x.run m = (.error (.fault ⟨cause, backtrace⟩), m')

theorem ends_congr {y : Action α} {n : Machine} {result : Except Cause α}
    (h : x.run m = y.run n) : x.Ends m result m' ↔ y.Ends n result m' := by
  cases result <;> simp only [Ends, h]

theorem ends_fail (cause : Cause) (m : Machine) : (fail cause : Action α).Ends m (.error cause) m :=
  ⟨[], rfl⟩

theorem ends_ofExcept (result : Except Cause α) (m : Machine) :
    (ofExcept result).Ends m result m := by
  cases result with
  | error cause => exact ends_fail cause m
  | ok a => rfl

theorem Ends.bind {f : α → Action β} {a : α} {result : Except Cause β}
    (hx : x.Ends m (.ok a) m₁) (hf : (f a).Ends m₁ result m') : (x >>= f).Ends m result m' :=
  (ends_congr (run_bind_of_ok hx)).mpr hf

/-- What goes on after an action that fails is not done. -/
theorem Ends.bind_error (f : α → Action β) (hx : x.Ends m (.error cause) m') :
    (x >>= f).Ends m (.error cause) m' := by
  obtain ⟨backtrace, hx⟩ := hx
  exact ⟨backtrace, by rw [run_bind, hx]⟩

/-- A result that is only turned into another one. -/
theorem Ends.map {result : Except Cause α} (hx : x.Ends m result m') (f : α → β) :
    (x >>= fun a => pure (f a)).Ends m (result.map f) m' := by
  cases result with
  | error cause => exact hx.bind_error _
  | ok a => exact Ends.bind hx rfl

theorem Ends.traced {result : Except Cause α} (h : x.Ends m result m') (span : Option Span) :
    (x.traced span).Ends m result m' := by
  cases result with
  | ok a =>
    have ran : x.run m = (.ok a, m') := h
    show (x.traced span).run m = _
    rw [run_traced, ran]
  | error cause =>
    obtain ⟨backtrace, ran⟩ := h
    let fault : Fault := ⟨cause, backtrace⟩
    have whole : (⟨cause, (fault.addFrame span).backtrace⟩ : Fault) = fault.addFrame span :=
      congrArg (Fault.mk · _) (fault.cause_addFrame span).symm
    exact ⟨_, by rw [run_traced, ran, whole]⟩

theorem Ends.andFinally {result : Except Cause α} (h : x.Ends m result m') (s : Step) :
    (x.andFinally s).Ends m result (s.apply m') := by
  cases result with
  | ok a =>
    have ran : x.run m = (.ok a, m') := h
    show (x.andFinally s).run m = _
    rw [run_andFinally, ran]
  | error cause =>
    obtain ⟨backtrace, ran⟩ := h
    exact ⟨backtrace, by rw [run_andFinally, ran]⟩

section

variable {e : Engine} {node : Node}

theorem ends_evalInt {n : Int} (h : (e.eval node).Ends m (.ok (.int n)) m') :
    (evalInt e node).Ends m (.ok n) m' :=
  Ends.bind h rfl

theorem ends_evalBool {b : Bool} (h : (e.eval node).Ends m (.ok (.bool b)) m') :
    (evalBool e node).Ends m (.ok b) m' :=
  Ends.bind h rfl

theorem ends_evalString {s : String} (h : (e.eval node).Ends m (.ok (.string s)) m') :
    (evalString e node).Ends m (.ok s) m' :=
  Ends.bind h rfl

/-- A value of another variant is refused. -/
theorem ends_evalString_of_ne {a : Atom} (h : (e.eval node).Ends m (.ok a) m')
    (other : ∀ s, a ≠ .string s) :
    (evalString e node).Ends m (.error (.wrongVariant a.display [.string])) m' := by
  refine Ends.bind h ?_
  cases a with
  | string s => exact absurd rfl (other s)
  | int | bool | null | list | object | function => exact ends_fail _ m'

theorem ends_evalSequence {a : Atom} {seq : Sequence} (h : (e.eval node).Ends m (.ok a) m')
    (hs : Sequence.ofAtom? a = some seq) :
    (Sequences.evalSequence e node).Ends m (.ok seq) m' := by
  refine Ends.bind h ?_
  rw [hs]
  rfl

end

end Action

/-! ### Expressions without places -/

/-- A value that an expression can be compared with: nothing in it has a place or is copied. -/
def Atom.isSimple : Atom → Bool
  | .int _ | .bool _ | .null | .string _ => true
  | _ => false

theorem Atom.eq_of_unplaced {a b : Atom} (simple : b.isSimple) (h : unplaced a = b) : a = b := by
  subst h
  cases a <;> simp [Atom.isSimple] at simple ⊢

theorem eq_pair_of_unplaced {α : Type} [Placed α] {xs : List α} {x y : α}
    (h : unplaced xs = [x, y]) : ∃ a b, xs = [a, b] ∧ unplaced a = x ∧ unplaced b = y := by
  obtain ⟨a, rest, rfl, ha, hrest⟩ := List.map_eq_cons_iff.mp h
  obtain ⟨b, rfl, hb⟩ := List.map_eq_singleton_iff.mp hrest
  exact ⟨a, b, rfl, ha, hb⟩

namespace Node

/-- A literal that is written nowhere. -/
abbrev write (value : Atom) : Node := .literal value none

/-- A variable that is written nowhere. -/
abbrev read (name : String) : Node := .var name none

/-- A call that is written nowhere. -/
abbrev apply (name : String) (args : List Node) : Node := .call name args "" none

variable {node : Node}

theorem eq_literal_of_unplaced {value : Atom} (h : unplaced node = write value) :
    ∃ a span, node = .literal a span ∧ unplaced a = value := by
  cases node <;> simp at h
  exact ⟨_, _, rfl, h⟩

theorem eq_var_of_unplaced {name : String} (h : unplaced node = read name) :
    ∃ span, node = .var name span := by
  cases node <;> simp at h
  subst h
  exact ⟨_, rfl⟩

theorem eq_call_of_unplaced {name : String} {args : List Node}
    (h : unplaced node = apply name args) :
    ∃ nodes span, node = .call name nodes "" span ∧ unplaced nodes = args := by
  cases node <;> simp at h
  obtain ⟨rfl, rfl, rfl⟩ := h
  exact ⟨_, _, rfl, rfl⟩

/-- Wherever the expression is written, its evaluation ends so. -/
def Evaluates (expression : Node) (e : Engine) (m : Machine) (result : Except Cause Atom)
    (m' : Machine) : Prop :=
  ∀ node, unplaced node = expression → (e.eval node).Ends m result m'

/-- Wherever the expressions are written, their evaluation in turn ends so; without expressions it
has the given value. -/
def EvaluateInTurn (expressions : List Node) (e : Engine) (value : Atom) (m : Machine)
    (result : Except Cause Atom) (m' : Machine) : Prop :=
  ∀ nodes, unplaced nodes = expressions → (Control.sequence e value nodes).Ends m result m'

/-- Wherever condition and body are written, a loop of at most `rounds` rounds ends so. -/
def Loops (condition body : Node) (e : Engine) (rounds : Nat) (m : Machine)
    (result : Except Cause Unit) (m' : Machine) : Prop :=
  ∀ c b, unplaced c = condition → unplaced b = body →
    (Control.loop e c b rounds).Ends m result m'

/-- Wherever the body is written, a loop over the elements ends so. -/
def Iterates (body : Node) (e : Engine) (name : String) (elements : List Atom) (m : Machine)
    (result : Except Cause Unit) (m' : Machine) : Prop :=
  ∀ node, unplaced node = body → (Sequences.iterate e name node elements).Ends m result m'

end Node

/-! ### Rules -/

namespace Node

variable {steps depth : Nat} {name x : String} {m m₁ m₂ m' : Machine}
  {result : Except Cause Atom} {cause : Cause}

section

variable (live : m.exit = none)

include live

theorem Evaluates.write {value : Atom} (simple : value.isSimple) :
    (write value).Evaluates (engine steps depth) m (.ok value) m := by
  intro node h
  obtain ⟨a, span, rfl, ha⟩ := eq_literal_of_unplaced h
  obtain rfl := Atom.eq_of_unplaced simple ha
  exact run_eval_literal steps depth live a span

theorem Evaluates.read {value : Atom} (h : m.storage.get? x = some value) :
    (read x).Evaluates (engine steps depth) m (.ok value) m := by
  intro node hn
  obtain ⟨span, rfl⟩ := eq_var_of_unplaced hn
  have found : (lookup x span).run m = (.ok value, m) := by
    rw [lookup, machine_bind, run_look, h]
    rfl
  cases depth <;>
    simpa [Ends, engine, evalWith, exiting_bind, live] using found

/-- A call does what the function does with the arguments. -/
theorem Evaluates.apply {f : Callable} {args : List Node}
    (hf : m.storage.getFunction name = .ok f)
    (h : ∀ nodes, unplaced nodes = args →
      (applyWith (engine steps depth) steps f nodes name "").Ends m result m') :
    (apply name args).Evaluates (engine steps (depth + 1)) m result m' := by
  intro node hn
  obtain ⟨nodes, span, rfl, hargs⟩ := eq_call_of_unplaced hn
  exact (ends_congr (run_eval_call steps depth live hf nodes "" span)).mpr
    ((h nodes hargs).traced span)

theorem Evaluates.unary {op : Unary} (shows : m.storage.Shows name (.unary op)) {a : Node}
    (h : ∀ node, unplaced node = a → (op.call (engine steps depth) node).Ends m result m') :
    (Node.apply name [a]).Evaluates (engine steps (depth + 1)) m result m' := by
  obtain ⟨stamp, hf⟩ := shows
  refine .apply live hf fun nodes hn => ?_
  obtain ⟨node, rfl, ha⟩ := List.map_eq_singleton_iff.mp hn
  exact h node ha

theorem Evaluates.binary {op : Binary} (shows : m.storage.Shows name (.binary op)) {a b : Node}
    (h : ∀ first second, unplaced first = a → unplaced second = b →
      (op.call (engine steps depth) steps first second).Ends m result m') :
    (Node.apply name [a, b]).Evaluates (engine steps (depth + 1)) m result m' := by
  obtain ⟨stamp, hf⟩ := shows
  refine .apply live hf fun nodes hn => ?_
  obtain ⟨first, second, rfl, ha, hb⟩ := eq_pair_of_unplaced hn
  exact h first second ha hb

theorem Evaluates.ternary {op : Ternary} (shows : m.storage.Shows name (.ternary op))
    {a b c : Node}
    (h : ∀ first second third, unplaced first = a → unplaced second = b → unplaced third = c →
      (op.call (engine steps depth) first second third).Ends m result m') :
    (Node.apply name [a, b, c]).Evaluates (engine steps (depth + 1)) m result m' := by
  obtain ⟨stamp, hf⟩ := shows
  refine .apply live hf fun nodes hn => ?_
  obtain ⟨first, rest, rfl, ha, hrest⟩ := List.map_eq_cons_iff.mp hn
  obtain ⟨second, third, rfl, hb, hc⟩ := eq_pair_of_unplaced hrest
  exact h first second third ha hb hc

theorem Evaluates.variadic {op : Variadic} (shows : m.storage.Shows name (.variadic op))
    {args : List Node}
    (h : ∀ nodes, unplaced nodes = args →
      (op.call (engine steps depth) "" nodes).Ends m result m') :
    (Node.apply name args).Evaluates (engine steps (depth + 1)) m result m' := by
  obtain ⟨stamp, hf⟩ := shows
  exact .apply live hf h

theorem Evaluates.sequence (shows : m.storage.Shows name (.variadic .sequence))
    {args : List Node} (h : EvaluateInTurn args (engine steps depth) .null m result m') :
    (Node.apply name args).Evaluates (engine steps (depth + 1)) m result m' :=
  .variadic live shows h

theorem Evaluates.assign (shows : m.storage.Shows name (.binary .assign)) {value : Node}
    {a : Atom} (h : value.Evaluates (engine steps depth) m (.ok a) m₁) (live₁ : m₁.exit = none)
    (bound : (Step.insert x a).apply m₁ = m') :
    (Node.apply name [.read x, value]).Evaluates (engine steps (depth + 1)) m (.ok .null) m' := by
  refine .binary live shows fun target written ht hw => ?_
  obtain ⟨span, rfl⟩ := eq_var_of_unplaced ht
  refine Ends.bind (h written hw) ?_
  show Action.run _ m₁ = _
  rw [exiting_bind, run_look, live₁, ← bound]
  rfl

/-- If evaluating the value ends the program, nothing is assigned. -/
theorem Evaluates.assign_of_ending (shows : m.storage.Shows name (.binary .assign)) {value : Node}
    {a : Atom} (h : value.Evaluates (engine steps depth) m (.ok a) m') (ended : m'.exit.isSome) :
    (Node.apply name [.read x, value]).Evaluates (engine steps (depth + 1)) m (.ok .null) m' := by
  refine .binary live shows fun target written ht hw => ?_
  obtain ⟨span, rfl⟩ := eq_var_of_unplaced ht
  refine Ends.bind (h written hw) ?_
  show Action.run _ m' = _
  rw [exiting_bind, run_look, ended]
  rfl

/-- If the value fails, nothing is assigned. -/
theorem Evaluates.assign_error (shows : m.storage.Shows name (.binary .assign)) {value : Node}
    (h : value.Evaluates (engine steps depth) m (.error cause) m') :
    (Node.apply name [.read x, value]).Evaluates (engine steps (depth + 1)) m (.error cause)
      m' := by
  refine .binary live shows fun target written ht hw => ?_
  obtain ⟨span, rfl⟩ := eq_var_of_unplaced ht
  exact Ends.bind_error _ (h written hw)

section

variable {condition body : Node} (shows : m.storage.Shows name (.binary .when))

include shows

theorem Evaluates.when_true
    (hc : condition.Evaluates (engine steps depth) m (.ok (.bool true)) m₁)
    (hb : body.Evaluates (engine steps depth) m₁ result m') :
    (Node.apply name [condition, body]).Evaluates (engine steps (depth + 1)) m result m' := by
  refine .binary live shows fun c b hc' hb' => ?_
  exact Ends.bind (ends_evalBool (hc c hc')) (hb b hb')

theorem Evaluates.when_false
    (hc : condition.Evaluates (engine steps depth) m (.ok (.bool false)) m') :
    (Node.apply name [condition, body]).Evaluates (engine steps (depth + 1)) m (.ok .null) m' := by
  refine .binary live shows fun c b hc' _ => ?_
  exact Ends.bind (ends_evalBool (hc c hc')) rfl

end

theorem Evaluates.raise (shows : m.storage.Shows name (.binary .raise)) {kind message : Node}
    {k t : String} (hk : kind.Evaluates (engine steps depth) m (.ok (.string k)) m₁)
    (hm : message.Evaluates (engine steps depth) m₁ (.ok (.string t)) m') :
    (Node.apply name [kind, message]).Evaluates (engine steps (depth + 1)) m
      (.error (.raised k t)) m' := by
  refine .binary live shows fun first second ha hb => ?_
  exact Ends.bind (ends_evalString (hk first ha))
    (Ends.bind (ends_evalString (hm second hb)) (ends_fail _ m'))

theorem Evaluates.not (shows : m.storage.Shows name (.unary .not)) {a : Node} {b : Bool}
    (h : a.Evaluates (engine steps depth) m (.ok (.bool b)) m') :
    (Node.apply name [a]).Evaluates (engine steps (depth + 1)) m (.ok (.bool !b)) m' := by
  refine .unary live shows fun node ha => ?_
  exact Ends.bind (ends_evalBool (h node ha)) rfl

section

variable {a b : Node} {i j : Int}
  (ha : a.Evaluates (engine steps depth) m (.ok (.int i)) m₁)
  (hb : b.Evaluates (engine steps depth) m₁ (.ok (.int j)) m')

include ha hb

theorem Evaluates.arith {op : Arith} (shows : m.storage.Shows name (.binary (.arith op)))
    {outcome : Except Cause Int} (h : op.apply i j = outcome) :
    (Node.apply name [a, b]).Evaluates (engine steps (depth + 1)) m (outcome.map Atom.int) m' := by
  refine .binary live shows fun first second ha' hb' => ?_
  refine Ends.bind (ends_evalInt (ha first ha')) (Ends.bind (ends_evalInt (hb second hb')) ?_)
  exact h ▸ (ends_ofExcept (op.apply i j) m').map Atom.int

theorem Evaluates.compare {op : Comparison} (shows : m.storage.Shows name (.binary (.compare op))) :
    (Node.apply name [a, b]).Evaluates (engine steps (depth + 1)) m (.ok (.bool (op.holds i j)))
      m' := by
  refine .binary live shows fun first second ha' hb' => ?_
  exact Ends.bind (ends_evalInt (ha first ha')) (Ends.bind (ends_evalInt (hb second hb')) rfl)

end

theorem Evaluates.list_nil (shows : m.storage.Shows name (.variadic .list)) :
    (Node.apply name []).Evaluates (engine steps (depth + 1)) m (.ok (.list [])) m := by
  refine .variadic live shows fun nodes hn => ?_
  obtain rfl := List.map_eq_nil_iff.mp hn
  rfl

theorem Evaluates.append (shows : m.storage.Shows name (.binary .append)) {list element : Node}
    {xs : List Atom} {a : Atom}
    (hl : list.Evaluates (engine steps depth) m (.ok (.list xs)) m₁)
    (he : element.Evaluates (engine steps depth) m₁ (.ok a) m') :
    (Node.apply name [list, element]).Evaluates (engine steps (depth + 1)) m
      (.ok (.list (xs ++ [a]))) m' := by
  refine .binary live shows fun first second ha hb => ?_
  exact Ends.bind (ends_evalSequence (hl first ha) rfl) (Ends.bind (he second hb) rfl)

section

variable {a b : Node} {s : String} (shows : m.storage.Shows name (.variadic .concat))
  (ha : a.Evaluates (engine steps depth) m (.ok (.string s)) m₁)

include shows ha

theorem Evaluates.concat {t : String}
    (hb : b.Evaluates (engine steps depth) m₁ (.ok (.string t)) m') :
    (Node.apply name [a, b]).Evaluates (engine steps (depth + 1)) m (.ok (.string (s ++ t)))
      m' := by
  refine .variadic live shows fun nodes hn => ?_
  obtain ⟨first, second, rfl, ha', hb'⟩ := eq_pair_of_unplaced hn
  have both : (Sequences.concatAll (engine steps depth) [first, second]).Ends m (.ok (s ++ t)) m' := by
    refine Ends.bind (ends_evalString (ha first ha')) (Ends.bind (a := t) ?_ rfl)
    refine Ends.bind (ends_evalString (hb second hb')) ?_
    simp [Ends, Sequences.concatAll, pure_eq, bind_eq]
  exact both.map Atom.string

/-- What is not a string is not put behind one. -/
theorem Evaluates.concat_error {value : Atom}
    (hb : b.Evaluates (engine steps depth) m₁ (.ok value) m') (other : ∀ t, value ≠ .string t) :
    (Node.apply name [a, b]).Evaluates (engine steps (depth + 1)) m
      (.error (.wrongVariant value.display [.string])) m' := by
  refine .variadic live shows fun nodes hn => ?_
  obtain ⟨first, second, rfl, ha', hb'⟩ := eq_pair_of_unplaced hn
  refine Ends.bind_error _ (Ends.bind (ends_evalString (ha first ha')) ?_)
  exact Ends.bind_error _ (Ends.bind_error _ (ends_evalString_of_ne (hb second hb') other))

end

end

/-! ### One after the other -/

theorem EvaluateInTurn.nil (e : Engine) (value : Atom) (m : Machine) :
    EvaluateInTurn [] e value m (.ok value) m := by
  intro nodes hn
  obtain rfl := List.map_eq_nil_iff.mp hn
  rfl

section

variable {e : Engine} {expression : Node} {expressions : List Node} {value a : Atom}

theorem EvaluateInTurn.cons (first : expression.Evaluates e m (.ok a) m₁)
    (rest : EvaluateInTurn expressions e a m₁ result m') :
    EvaluateInTurn (expression :: expressions) e value m result m' := by
  intro nodes hn
  obtain ⟨node, nodes, rfl, hx, hxs⟩ := List.map_eq_cons_iff.mp hn
  exact Ends.bind (first node hx) (rest nodes hxs)

/-- What follows an expression that fails is not evaluated. -/
theorem EvaluateInTurn.error (first : expression.Evaluates e m (.error cause) m') :
    EvaluateInTurn (expression :: expressions) e value m (.error cause) m' := by
  intro nodes hn
  obtain ⟨node, nodes, rfl, hx, hxs⟩ := List.map_eq_cons_iff.mp hn
  exact Ends.bind_error _ (first node hx)

/-- The last expression gives the value. -/
theorem EvaluateInTurn.last (h : expression.Evaluates e m result m') :
    EvaluateInTurn [expression] e value m result m' := by
  cases result with
  | error cause => exact .error h
  | ok a => exact .cons h (.nil e a m')

end

/-! ### Loops -/

section

variable {condition body : Node} {e : Engine} {rounds : Nat} {outcome : Except Cause Unit}
  {a : Atom}

section

variable (live : m.exit = none)

include live

/-- While the program goes on, a round of a loop begins with the condition. -/
theorem run_loop_of_live (c b : Node) :
    (Control.loop e c b (rounds + 1)).run m =
      (evalBool e c >>= fun holds =>
        if holds then e.eval b >>= fun _ => Control.loop e c b rounds else pure ()).run m := by
  rw [Control.loop, exiting_bind, run_look, live]
  rfl

/-- A loop is over when the condition is false. -/
theorem Loops.last (hc : condition.Evaluates e m (.ok (.bool false)) m') :
    Loops condition body e (rounds + 1) m (.ok ()) m' := by
  intro c b hc' _
  refine (ends_congr (run_loop_of_live live c b)).mpr ?_
  exact Ends.bind (ends_evalBool (hc c hc')) rfl

section

variable (hc : condition.Evaluates e m (.ok (.bool true)) m₁)

include hc

/-- After a round a loop is done with one round less. -/
theorem Loops.round (hb : body.Evaluates e m₁ (.ok a) m₂)
    (rest : Loops condition body e rounds m₂ outcome m') :
    Loops condition body e (rounds + 1) m outcome m' := by
  intro c b hc' hb'
  refine (ends_congr (run_loop_of_live live c b)).mpr ?_
  exact Ends.bind (ends_evalBool (hc c hc')) (Ends.bind (hb b hb') (rest c b hc' hb'))

/-- A loop whose body fails is over. -/
theorem Loops.error (hb : body.Evaluates e m₁ (.error cause) m') :
    Loops condition body e (rounds + 1) m (.error cause) m' := by
  intro c b hc' hb'
  refine (ends_congr (run_loop_of_live live c b)).mpr ?_
  exact Ends.bind (ends_evalBool (hc c hc')) (Ends.bind_error _ (hb b hb'))

end

theorem Evaluates.loop (shows : m.storage.Shows name (.binary .loop))
    (h : Loops condition body (engine steps depth) steps m outcome m') :
    (Node.apply name [condition, body]).Evaluates (engine steps (depth + 1)) m
      (outcome.map fun _ => .null) m' := by
  refine .binary live shows fun c b hc hb => ?_
  exact Ends.map (h c b hc hb) fun _ => Atom.null

end

section

variable {elements : List Atom}

theorem Iterates.nil (body : Node) (e : Engine) (x : String) (m : Machine) :
    Iterates body e x [] m (.ok ()) m := by
  intro node _
  rfl

section

variable (live : m.exit = none) (bound : (Step.insert x a).apply m = m₁)

include live bound

/-- While the program goes on, an element is bound before the body is evaluated. -/
theorem run_iterate_of_live (node : Node) :
    (Sequences.iterate e x node (a :: elements)).run m =
      (e.eval node >>= fun _ => Sequences.iterate e x node elements).run m₁ := by
  rw [Sequences.iterate, exiting_bind, run_look, live, ← bound]
  rfl

theorem Iterates.cons {value : Atom} (hb : body.Evaluates e m₁ (.ok value) m₂)
    (rest : Iterates body e x elements m₂ outcome m') :
    Iterates body e x (a :: elements) m outcome m' := by
  intro node hn
  refine (ends_congr (run_iterate_of_live live bound node)).mpr ?_
  exact Ends.bind (hb node hn) (rest node hn)

/-- What follows an element at which the body fails is not visited. -/
theorem Iterates.error (hb : body.Evaluates e m₁ (.error cause) m') :
    Iterates body e x (a :: elements) m (.error cause) m' := by
  intro node hn
  refine (ends_congr (run_iterate_of_live live bound node)).mpr ?_
  exact Ends.bind_error _ (hb node hn)

end

theorem Evaluates.forEach (live : m.exit = none)
    (shows : m.storage.Shows name (.ternary .forEach)) {sequence : Node} {seq : Sequence}
    (hs : sequence.Evaluates (engine steps depth) m (.ok a) m₁)
    (ha : Sequence.ofAtom? a = some seq)
    (h : Iterates body (engine steps depth) x seq.elements m₁ outcome m') :
    (Node.apply name [sequence, .read x, body]).Evaluates (engine steps (depth + 1)) m
      (outcome.map fun _ => .null) m' := by
  refine .ternary live shows fun first target last hf ht hl => ?_
  obtain ⟨span, rfl⟩ := eq_var_of_unplaced ht
  exact Ends.bind (ends_evalSequence (hs first hf) ha)
    (Ends.bind (a := x) rfl (Ends.map (h last hl) fun _ => Atom.null))

end

end

/-! ### Programs that are ending -/

section

variable (ended : m.exit.isSome)

include ended

/-- In an ending program everything evaluates to null. -/
theorem Evaluates.ending (expression : Node) :
    expression.Evaluates (engine steps depth) m (.ok .null) m :=
  fun node _ => run_eval_of_ending steps depth ended node

theorem Iterates.ending (body : Node) (e : Engine) (x : String) (elements : List Atom) :
    Iterates body e x elements m (.ok ()) m := by
  intro node _
  cases elements with
  | nil => rfl
  | cons a elements =>
    show Action.run _ m = _
    rw [Sequences.iterate, exiting_bind, run_look, ended]
    rfl

end

end Node

end CallLang
