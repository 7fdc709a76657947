import CallLang.Proofs.Rebinding
import CallLang.Proofs.Unwinding

/-!
# What outlives a call

A call binds its parameters in a scope of its own and closes this scope when it returns. But a
parameter is bound like any other name, so one that is declared global is bound among the globals,
and this binding stays. Calls of functions whose body is a literal show it, since they do nothing
but bind their parameters: the scopes of the caller and the declared names are as before, and each
declared parameter has become a global with the value of its argument (`parameters_outlive_iff`).
-/

namespace CallLang

open CallLang.Action

/-! ### Parameters and arguments -/

namespace Param

/-- Whether a function with these parameters takes `count` arguments. -/
def Fits (params : List Param) (count : Nat) : Prop :=
  match arity params with
  | some expected => expected = count
  | none => required params ≤ count

variable {param : Param} {params : List Param} {count : Nat}

theorem Fits.required_le (h : Fits params count) : required params ≤ count := by
  unfold Fits arity at h
  split at h
  · rename_i expected he
    split at he
    · cases he
    · rename_i fixed
      obtain rfl := Option.some.inj he
      simp [required, fixed, h]
  · exact h

theorem Fits.checkArity (h : Fits params count) (name : String) :
    Callable.checkArity (arity params) count name = .ok () := by
  unfold Fits at h
  unfold Callable.checkArity
  split
  · rfl
  · rename_i expected he
    rw [he] at h
    exact if_pos h

theorem areVariadic_cons (h : param.variadic = false) :
    areVariadic (param :: params) = areVariadic params := by
  cases params with
  | nil => exact h
  | cons next params => rfl

theorem required_cons (h : param.variadic = false) :
    required (param :: params) = required params + 1 := by
  simp only [required, areVariadic_cons h, List.length_cons]
  split
  · rename_i variadic
    have nonempty : params ≠ [] := by
      rintro rfl
      cases variadic
    have := List.length_pos_iff.mpr nonempty
    omega
  · rfl

theorem check_eq_ok_iff : check params = .ok () ↔ wellPlaced params = true := by
  rw [check]
  split <;> simp_all

/-- Behind a variadic parameter there is none. -/
theorem eq_nil_of_wellPlaced (h : wellPlaced (param :: params) = true)
    (variadic : param.variadic = true) : params = [] := by
  cases params with
  | nil => rfl
  | cons next params => simp [wellPlaced, variadic] at h

theorem wellPlaced_tail (h : wellPlaced (param :: params) = true) : wellPlaced params = true := by
  cases params with
  | nil => rfl
  | cons next params =>
    simp only [wellPlaced, List.dropLast_cons_cons, List.all_cons, Bool.and_eq_true] at h
    exact h.2

end Param

namespace Closure

/-- What parameters are bound to, in order, if the arguments have the given values. A variadic
parameter takes all values that are left. -/
def bindings : List Param → List Atom → Bindings
  | [], _ => []
  | param :: params, values =>
    if param.variadic then (param.name, .list values) :: bindings params []
    else
      match values with
      | [] => []
      | value :: values => (param.name, value) :: bindings params values

variable {param : Param} {params : List Param}

theorem bindings_variadic (h : param.variadic = true) (values : List Atom) :
    bindings (param :: params) values = (param.name, .list values) :: bindings params [] := by
  cases values <;> simp [bindings, h]

theorem bindings_fixed (h : param.variadic = false) (value : Atom) (values : List Atom) :
    bindings (param :: params) (value :: values) =
      (param.name, value) :: bindings params values := by
  simp [bindings, h]

/-- With enough arguments every parameter is bound. -/
theorem names_bindings {values : List Atom} (accepted : Param.wellPlaced params = true)
    (enough : Param.required params ≤ values.length) :
    (bindings params values).names = params.map Param.name := by
  induction params generalizing values with
  | nil => rfl
  | cons param params ih =>
    cases variadic : param.variadic with
    | true =>
      obtain rfl := Param.eq_nil_of_wellPlaced accepted variadic
      rw [bindings_variadic variadic]
      rfl
    | false =>
      rw [Param.required_cons variadic] at enough
      cases values with
      | nil => cases enough
      | cons value values =>
        rw [bindings_fixed variadic]
        exact congrArg (param.name :: ·)
          (ih (Param.wellPlaced_tail accepted) (Nat.le_of_succ_le_succ enough))

/-! ### Calls with literals -/

section

variable (steps depth : Nat) {m : Machine} (live : m.exit = none) (level : Nat)
  {arguments : List Node} {values : List Atom}

include live

/-- A literal argument is passed as its value, and nothing happens. -/
theorem run_pass_literal {argument : Node} {value : Atom} (h : argument.value? = some value) :
    (pass (engine steps depth) level false argument).run m = (.ok value, m) := by
  cases argument with
  | literal written span =>
    obtain rfl := Option.some.inj h
    exact run_eval_literal steps depth live written span
  | var | call => cases h

theorem run_passAll_literals (h : arguments.map Node.value? = values.map some) :
    (passAll (engine steps depth) level false arguments).run m = (.ok values, m) := by
  induction arguments generalizing values with
  | nil =>
    obtain rfl := List.map_eq_nil_iff.mp h.symm
    rfl
  | cons argument arguments ih =>
    obtain ⟨value, values, rfl, first, rest⟩ := List.map_eq_cons_iff.mp h.symm
    rw [passAll, run_bind, run_pass_literal steps depth live level first.symm]
    show (passAll _ _ _ arguments >>= _).run m = _
    rw [run_bind, ih rest.symm]
    rfl

/-- Literal arguments are bound to the eager parameters of a function. -/
theorem run_bind_literals (eager : ∀ p ∈ params, p.isLazy = false)
    (h : arguments.map Node.value? = values.map some) :
    (bind (engine steps depth) level params arguments).run m =
      (.ok (bindings params values), m) := by
  induction params generalizing arguments values with
  | nil => rfl
  | cons param params ih =>
    obtain ⟨now, later⟩ := List.forall_mem_cons.mp eager
    cases variadic : param.variadic with
    | true =>
      have none := ih later (show [].map Node.value? = [].map some from rfl)
      simp only [bind, variadic, if_true, now]
      rw [run_bind, run_passAll_literals steps depth live level h]
      dsimp only
      rw [run_bind, none, bindings_variadic variadic]
      rfl
    | false =>
      cases arguments with
      | nil =>
        obtain rfl := List.map_eq_nil_iff.mp h.symm
        simp [bind, bindings, variadic, pure_eq]
      | cons argument arguments =>
        obtain ⟨value, values, rfl, first, rest⟩ := List.map_eq_cons_iff.mp h.symm
        simp only [bind, variadic, Bool.false_eq_true, if_false, now]
        rw [run_bind, run_pass_literal steps depth live level first.symm]
        dsimp only
        rw [run_bind, ih later rest.symm, bindings_fixed variadic]
        rfl

/-- A call whose body is a literal opens a scope, binds the parameters and closes the scope. -/
theorem run_call_literals (eager : ∀ p ∈ params, p.isLazy = false)
    (h : arguments.map Node.value? = values.map some)
    (enough : Param.required params ≤ values.length) (value : Atom) (span : Option Span) :
    (call (engine steps depth) params (.literal value span) arguments).run m =
      (.ok value, { m with
        storage := (m.storage.push.insertAll (bindings params values)).pop }) := by
  have count : arguments.length = values.length := by simpa using congrArg List.length h
  have opened : ((Step.enter (bindings params values)).apply m).exit = none := live
  rw [call, if_neg (by omega), machine_bind, run_look, run_bind,
    run_bind_literals steps depth live _ eager h]
  dsimp only
  rw [inScope, run_step, run_andFinally, run_eval_literal steps depth opened]
  rfl

end

end Closure

namespace Storage

variable (s : Storage) (bindings : Bindings)

/-- What is left of names that were bound in a scope of their own: those that are declared
global. -/
theorem pop_insertAll_push :
    (s.push.insertAll bindings).pop =
      { s with globals := s.globals.setAll (bindings.filter fun b => b.1 ∈ s.globalNames) } := by
  have opened : s.push.inner ≠ [] := by simp [push]
  obtain ⟨inner, outermost, globalNames⟩ := insertAll_inner opened bindings
  exact Storage.ext outermost inner (globals_insertAll_eq s.push bindings) globalNames

theorem pop_insertAll_push_eq_self_iff :
    (s.push.insertAll bindings).pop = s ↔
      ∀ name ∈ s.globalNames, ∀ value, bindings.latest? name = some value →
        s.globals.get? name = some value := by
  have same : (s.push.insertAll bindings).pop = s ↔
      s.globals.setAll (bindings.filter fun b => b.1 ∈ s.globalNames) = s.globals := by
    rw [pop_insertAll_push, Storage.ext_iff]
    simp
  rw [same, Bindings.setAll_eq_self_iff]
  constructor
  · intro known name declared value last
    exact known name value (by rw [Bindings.latest?_restrict, if_pos declared, last])
  · intro known name value last
    rw [Bindings.latest?_restrict] at last
    split at last
    · rename_i declared
      exact known name declared value last
    · cases last

end Storage

/-- A call of a function with eager parameters whose body is a literal, with literal arguments that
fit, gives the literal and leaves the scopes of the caller and the declared names as they were. The
parameters that are declared global have become globals with the values of their arguments. So the
call leaves no trace if and only if each of them was a global with this value before, in particular
if no parameter is declared global. -/
theorem parameters_outlive_iff (steps depth : Nat) {m : Machine} (live : m.exit = none)
    {params : List Param} (accepted : Param.check params = .ok ())
    (eager : ∀ p ∈ params, p.isLazy = false) {arguments : List Node} {values : List Atom}
    (literals : arguments.map Node.value? = values.map some)
    (fits : Param.Fits params values.length) (stamp : Stamp) (doc : String) (value : Atom)
    (span : Option Span) (name comments : String) :
    let bound := Closure.bindings params values
    let r := (applyWith (engine steps depth) steps
      (.closure stamp doc params (.literal value span)) arguments name comments).run m
    bound.names = params.map Param.name ∧
    r.1 = .ok value ∧
    r.2 = { m with storage := { m.storage with
      globals := m.storage.globals.setAll (bound.filter fun b => b.1 ∈ m.storage.globalNames) } } ∧
    (r.2.storage = m.storage ↔
      ∀ param ∈ m.storage.globalNames, ∀ given, bound.latest? param = some given →
        m.storage.globals.get? param = some given) := by
  intro bound r
  have enough := fits.required_le
  have count : arguments.length = values.length := by simpa using congrArg List.length literals
  have checked : Callable.checkArity (Callable.arity (.closure stamp doc params
      (.literal value span))) arguments.length name = .ok () := count ▸ fits.checkArity name
  have called : r = (.ok value, { m with storage := (m.storage.push.insertAll bound).pop }) := by
    show Action.run (applyWith _ _ _ _ _ _) m = _
    rw [applyWith, checked, ofExcept_bind]
    exact Closure.run_call_literals steps depth live eager literals enough value span
  refine ⟨Closure.names_bindings (Param.check_eq_ok_iff.mp accepted) enough,
    congrArg Prod.fst called, ?_, ?_⟩
  · rw [← m.storage.pop_insertAll_push bound]
    exact congrArg Prod.snd called
  · rw [called]
    exact m.storage.pop_insertAll_push_eq_self_iff bound

/-- A function with the parameters `y` and `[z]` is called where `y` is a local and `x` a global. -/
theorem parameters_outlive_iff_of_locals :
    let m : Machine := { storage :=
      { inner := [[("y", .int 0)]], globals := [("x", .int 1)], globalNames := ["x"] } }
    let params : List Param := [⟨"y", false, false⟩, ⟨"z", true, false⟩]
    m.exit = none ∧ Param.check params = .ok () ∧ Param.Fits params 3 ∧
      ((applyWith (engine 0 0) 0 (.closure [] "" params (.literal (.int 2) none))
        [.literal (.int 3) none, .literal (.int 4) none, .literal (.int 5) none] "f" "").run
          m).2.storage = m.storage := by
  intro m params
  have fits : Param.Fits params 3 := by
    show 1 ≤ 3
    decide
  have accepted : Param.check params = .ok () := rfl
  have eager : ∀ p ∈ params, p.isLazy = false := by decide
  have literals : [Node.literal (.int 3) none, .literal (.int 4) none, .literal (.int 5) none].map
      Node.value? = [Atom.int 3, .int 4, .int 5].map some := rfl
  have outlives := parameters_outlive_iff 0 0 (m := m) rfl accepted eager literals fits [] ""
    (.int 2) none "f" ""
  refine ⟨rfl, accepted, fits, outlives.2.2.2.mpr fun param declared given last => ?_⟩
  obtain rfl := List.mem_singleton.mp declared
  cases last

/-- Where `x` is a global with the value 1, a call of a function with the parameter `x` whose body
is the literal 2 gives `x` the value of its argument. -/
theorem parameter_outlives_call :
    let before := (Machine.bare.run .generous "global(x), =(x, 1), def(f, x, 2)" "").2
    let after := (before.run .generous "f(5)" "").2
    before.exit.isNone ∧
      before.storage.globals.map (fun b => (b.1, b.2.display)) = [("x", "1")] ∧
      after.storage.globals.map (fun b => (b.1, b.2.display)) = [("x", "5")] := by
  decide +kernel

end CallLang
