import CallLang.Action.Lemmas
import CallLang.Eval

/-!
# Answers of functions

A call evaluates the arguments that it is given, and what many functions of the language do then
depends on nothing but the values of these arguments. `Callable.Answers` says what such a function
makes of given values: whatever the arguments are and wherever they are evaluated, a call ends with
the answer as soon as its arguments have these values. There is at most one answer
(`Callable.Answers.unique`).
-/

namespace CallLang

open CallLang.Action CallLang.Builtin

/-- Every call of `f` whose arguments have the given values ends with `answer`, in the machine that
the evaluation of the arguments leaves. -/
def Callable.Answers (f : Callable) (values : List Atom) (answer : Except Cause Atom) : Prop :=
  ∀ (e : Engine) (steps : Nat) (args : List Node) (name doc : String) (m m' : Machine),
    (evalAll e args).run m = (.ok values, m') →
    (applyWith e steps f args name doc).run m = (ofExcept answer).run m'

/-- Every call of `f` whose arguments have the given values fails with a fault of one kind. -/
def Callable.Fails (f : Callable) (values : List Atom) (kind : String) : Prop :=
  ∃ cause : Cause, cause.kind = kind ∧ f.Answers values (.error cause)

/-! ### Arguments -/

section

variable {e : Engine} {args : List Node} {x y : Atom} {values : List Atom} {m m' : Machine}

theorem of_run_evalAll_nil (h : (evalAll e args).run m = (.ok [], m')) : args = [] ∧ m = m' := by
  cases args with
  | nil => exact ⟨rfl, (Prod.mk.inj h).2⟩
  | cons node nodes =>
    rw [evalAll, run_bind_eq_ok_iff] at h
    obtain ⟨x, m₁, -, h⟩ := h
    rw [run_bind_eq_ok_iff] at h
    obtain ⟨xs, m₂, -, h⟩ := h
    cases h

/-- Arguments are evaluated one after the other. -/
theorem of_run_evalAll_cons (h : (evalAll e args).run m = (.ok (x :: values), m')) :
    ∃ node nodes m₁, args = node :: nodes ∧ (e.eval node).run m = (.ok x, m₁) ∧
      (evalAll e nodes).run m₁ = (.ok values, m') := by
  cases args with
  | nil => cases h
  | cons node nodes =>
    rw [evalAll, run_bind_eq_ok_iff] at h
    obtain ⟨x', m₁, first, h⟩ := h
    rw [run_bind_eq_ok_iff] at h
    obtain ⟨xs, m₂, rest, h⟩ := h
    cases h
    exact ⟨node, nodes, m₁, rfl, first, rest⟩

theorem of_run_evalAll_singleton (h : (evalAll e args).run m = (.ok [x], m')) :
    ∃ node, args = [node] ∧ (e.eval node).run m = (.ok x, m') := by
  obtain ⟨node, nodes, m₁, rfl, first, rest⟩ := of_run_evalAll_cons h
  obtain ⟨rfl, rfl⟩ := of_run_evalAll_nil rest
  exact ⟨node, rfl, first⟩

theorem of_run_evalAll_pair (h : (evalAll e args).run m = (.ok [x, y], m')) :
    ∃ first second m₁, args = [first, second] ∧ (e.eval first).run m = (.ok x, m₁) ∧
      (e.eval second).run m₁ = (.ok y, m') := by
  obtain ⟨node, nodes, m₁, rfl, first, rest⟩ := of_run_evalAll_cons h
  obtain ⟨other, rfl, second⟩ := of_run_evalAll_singleton rest
  exact ⟨node, other, m₁, rfl, first, second⟩

end

/-! ### Answers -/

namespace Callable

variable {f : Callable} {values : List Atom} {r r' : Except Cause Atom}

/-- An engine for literals. -/
def literalEngine : Engine where
  eval
    | .literal value _ => pure value
    | _ => pure .null
  call _ _ _ _ := pure .null

theorem run_evalAll_literals (values : List Atom) (m : Machine) :
    (evalAll literalEngine (values.map (Node.literal · none))).run m = (.ok values, m) := by
  induction values with
  | nil => rfl
  | cons value values ih =>
    rw [List.map_cons, evalAll, run_bind_eq_ok_iff]
    exact ⟨value, m, rfl, run_bind_eq_ok_iff.mpr ⟨values, m, ih, rfl⟩⟩

/-- A function has at most one answer to given values. -/
theorem Answers.unique (h : f.Answers values r) (h' : f.Answers values r') : r = r' := by
  have evaluated := run_evalAll_literals values {}
  have same := (h _ 0 _ "" "" _ _ evaluated).symm.trans (h' _ 0 _ "" "" _ _ evaluated)
  cases r <;> cases r' <;> cases same <;> rfl

theorem Answers.iff_eq (h : f.Answers values r) : f.Answers values r' ↔ r' = r :=
  ⟨fun h' => h'.unique h, fun e => e ▸ h⟩

end Callable

/-! ### Functions of the language -/

section

variable (stamp : Stamp) {a : Atom} {m n : Int} {answer : Except Cause Atom}

/-- A function that evaluates its argument and has no other effect. -/
theorem answers_unary_iff {op : Unary} {g : Atom → Except Cause Atom}
    (h : ∀ e node, op.call e node = e.eval node >>= fun a => ofExcept (g a)) :
    (Callable.builtin stamp (.unary op)).Answers [a] answer ↔ answer = g a := by
  refine Callable.Answers.iff_eq fun e steps args name doc m m' ha => ?_
  obtain ⟨node, rfl, evaluated⟩ := of_run_evalAll_singleton ha
  have call : applyWith e steps (.builtin stamp (.unary op)) [node] name doc = op.call e node := rfl
  rw [call, h, run_bind_of_ok evaluated]

theorem answers_toInt_iff :
    (Callable.builtin stamp (.unary .toInt)).Answers [a] answer ↔ answer = Convert.toInt a :=
  answers_unary_iff stamp fun _ _ => rfl

theorem answers_toText_iff :
    (Callable.builtin stamp (.unary .toString)).Answers [a] answer ↔
      answer = Convert.toText a :=
  answers_unary_iff stamp fun _ _ => rfl

theorem run_evalInt {e : Engine} {node : Node} {m m' : Machine}
    (h : (e.eval node).run m = (.ok (.int n), m')) : (evalInt e node).run m = (.ok n, m') :=
  run_bind_of_ok h

theorem answers_arith_iff {op : Arith} :
    (Callable.builtin stamp (.binary (.arith op))).Answers [.int m, .int n] answer ↔
      answer = (op.apply m n).map .int := by
  refine Callable.Answers.iff_eq fun e steps args name doc m m' h => ?_
  obtain ⟨first, second, m₁, rfl, hx, hy⟩ := of_run_evalAll_pair h
  have call : applyWith e steps (.builtin stamp (.binary (.arith op))) [first, second] name doc =
      evalInt e first >>= fun x => evalInt e second >>= fun y =>
        ofExcept (op.apply x y) >>= fun r => pure (.int r) := rfl
  rw [call, run_bind_of_ok (run_evalInt hx), run_bind_of_ok (run_evalInt hy), ofExcept_bind]
  cases op.apply _ _ <;> rfl

theorem returns_arith_iff {op : Arith} {r : Int} :
    (Callable.builtin stamp (.binary (.arith op))).Answers [.int m, .int n] (.ok (.int r)) ↔
      op.apply m n = .ok r := by
  rw [answers_arith_iff]
  cases op.apply m n <;> simp [Except.map, eq_comm]

theorem fails_arith_iff {op : Arith} {kind : String} :
    (Callable.builtin stamp (.binary (.arith op))).Fails [.int m, .int n] kind ↔
      ∃ cause : Cause, cause.kind = kind ∧ op.apply m n = .error cause := by
  refine exists_congr fun cause => and_congr_right fun _ => ?_
  rw [answers_arith_iff]
  cases op.apply m n <;> simp [Except.map, eq_comm]

end

end CallLang
