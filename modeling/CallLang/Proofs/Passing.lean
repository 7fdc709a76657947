import CallLang.Proofs.Parameters

/-!
# How a call passes its arguments

A call of a function that a program has defined first counts its arguments, and refuses a wrong
number of them before it does anything. Then it goes through the arguments in order: those of eager
parameters are evaluated, and those of lazy ones are wrapped up. Only when all of them are there,
the scope of the call is opened with the parameters in it, and the body is evaluated
(`arguments_passed`).

How an expression is evaluated is up to the engine, and nothing here depends on it. So the engine
stands for any way to evaluate, also for one that would show if an argument was evaluated twice or
too early.
-/

namespace CallLang

open CallLang.Action

/-! ### Which parameter receives which argument -/

namespace Param

variable {param : Param} {params : List Param} {count : Nat}

theorem fits_iff :
    Fits params count ↔
      if areVariadic params then params.length - 1 ≤ count else params.length = count := by
  unfold Fits arity required
  cases areVariadic params <;> rfl

theorem not_fits_iff :
    ¬ Fits params count ↔
      if areVariadic params then count < params.length - 1 else count ≠ params.length := by
  rw [fits_iff]
  split
  · exact Nat.not_le
  · exact not_congr eq_comm

theorem fits_cons (fixed : param.variadic = false) :
    Fits (param :: params) (count + 1) ↔ Fits params count := by
  have least : required (param :: params) = required params + 1 := required_cons fixed
  unfold required at least
  rw [fits_iff, fits_iff]
  rw [areVariadic_cons fixed] at least ⊢
  split
  · rename_i variadic
    simp only [variadic, if_true] at least
    omega
  · simp

theorem not_fits_cons_zero (fixed : param.variadic = false) : ¬ Fits (param :: params) 0 := by
  intro fits
  have least := fits.required_le
  rw [required_cons fixed] at least
  cases least

end Param

namespace Closure

/-- The arguments of a call, each with the parameter that receives it. A variadic parameter receives
all arguments that are left. -/
def receivers : List Param → List Node → List (Param × Node)
  | [], _ => []
  | param :: params, arguments =>
    if param.variadic then arguments.map (param, ·)
    else
      match arguments with
      | [] => []
      | argument :: arguments => (param, argument) :: receivers params arguments

variable {param : Param} {params : List Param} {arguments : List Node}

theorem receivers_variadic (h : param.variadic = true) (arguments : List Node) :
    receivers (param :: params) arguments = arguments.map (param, ·) := by
  cases arguments <;> simp [receivers, h]

theorem receivers_fixed (h : param.variadic = false) (argument : Node) (arguments : List Node) :
    receivers (param :: params) (argument :: arguments) =
      (param, argument) :: receivers params arguments := by
  simp [receivers, h]

/-- Every argument is received, and by one parameter only. -/
theorem map_snd_receivers (accepted : Param.wellPlaced params = true)
    (fits : Param.Fits params arguments.length) :
    (receivers params arguments).map Prod.snd = arguments := by
  induction params generalizing arguments with
  | nil =>
    obtain rfl := List.length_eq_zero_iff.mp fits.symm
    rfl
  | cons param params ih =>
    cases variadic : param.variadic with
    | true =>
      rw [receivers_variadic variadic, List.map_map]
      exact List.map_id arguments
    | false =>
      cases arguments with
      | nil => exact absurd fits (Param.not_fits_cons_zero variadic)
      | cons argument arguments =>
        rw [receivers_fixed variadic, List.map_cons,
          ih (Param.wellPlaced_tail accepted) ((Param.fits_cons variadic).mp fits)]

/-- The parameters receive the arguments in order, and the last one those that are left. -/
theorem getElem?_receivers (accepted : Param.wellPlaced params = true)
    (fits : Param.Fits params arguments.length) {i : Nat} (hi : i < arguments.length) :
    (receivers params arguments)[i]?.map Prod.fst = params[min i (params.length - 1)]? := by
  induction params generalizing arguments i with
  | nil =>
    obtain rfl := List.length_eq_zero_iff.mp fits.symm
    cases hi
  | cons param params ih =>
    cases variadic : param.variadic with
    | true =>
      obtain rfl := Param.eq_nil_of_wellPlaced accepted variadic
      simp [receivers_variadic variadic, hi]
    | false =>
      cases arguments with
      | nil => cases hi
      | cons argument arguments =>
        have fits' := (Param.fits_cons variadic).mp fits
        rw [receivers_fixed variadic]
        cases i with
        | zero => simp
        | succ i =>
          have hi' : i < arguments.length := Nat.lt_of_succ_lt_succ hi
          have left : params ≠ [] := by
            rintro rfl
            have none : 0 = arguments.length := fits'
            omega
          have next : min (i + 1) params.length = min i (params.length - 1) + 1 := by
            have := List.length_pos_iff.mpr left
            omega
          rw [List.getElem?_cons_succ, ih (Param.wellPlaced_tail accepted) fits' hi',
            List.length_cons, Nat.add_sub_cancel, next, List.getElem?_cons_succ]

/-- A parameter is bound to the value of its argument, a variadic one to the list of all values from
there on. -/
theorem getElem?_bindings {values : List Atom} (accepted : Param.wellPlaced params = true)
    (enough : Param.required params ≤ values.length) {i : Nat} (h : params[i]? = some param) :
    ∃ value, (bindings params values)[i]? = some (param.name, value) ∧
      if param.variadic then value = .list (values.drop i) else values[i]? = some value := by
  induction params generalizing values i with
  | nil => cases h
  | cons first params ih =>
    cases variadic : first.variadic with
    | true =>
      obtain rfl := Param.eq_nil_of_wellPlaced accepted variadic
      rw [bindings_variadic variadic]
      cases i with
      | zero =>
        obtain rfl := Option.some.inj h
        exact ⟨.list values, rfl, by simp [variadic]⟩
      | succ i => cases h
    | false =>
      rw [Param.required_cons variadic] at enough
      cases values with
      | nil => cases enough
      | cons value values =>
        rw [bindings_fixed variadic]
        cases i with
        | zero =>
          obtain rfl := Option.some.inj h
          exact ⟨value, rfl, by simp [variadic]⟩
        | succ i =>
          exact ih (Param.wellPlaced_tail accepted) (Nat.le_of_succ_le_succ enough) h

/-! ### Passing -/

/-- How arguments are passed to the parameters that receive them, by a caller with `level` scopes.
An eager argument is evaluated in the machine that the arguments before it have left; a lazy one is
wrapped up. If an argument fails, so does the passing, and the arguments behind it are left alone.

The passing begins in the first machine and ends in the second one. It has the values that are
passed as its result, and `evaluated` are the arguments that are evaluated, each with the machine
that it is evaluated in. -/
inductive Passing (e : Engine) (level : Nat) :
    List (Param × Node) → Machine → Except Stop (List Atom) → List (Node × Machine) → Machine →
      Prop where
  | nil (m : Machine) : Passing e level [] m (.ok []) [] m
  | wrapped {param : Param} (argument : Node) {others : List (Param × Node)} {m m' : Machine}
      {result : Except Stop (List Atom)} {evaluated : List (Node × Machine)} :
      param.isLazy = true → Passing e level others m result evaluated m' →
      Passing e level ((param, argument) :: others) m
        (result.map (.function (.thunk [m.world.nextStamp] argument level) :: ·)) evaluated m'
  | value {param : Param} {argument : Node} {others : List (Param × Node)} {m between m' : Machine}
      {value : Atom} {result : Except Stop (List Atom)} {evaluated : List (Node × Machine)} :
      param.isLazy = false → (e.eval argument).run m = (.ok value, between) →
      Passing e level others between result evaluated m' →
      Passing e level ((param, argument) :: others) m (result.map (value :: ·))
        ((argument, m) :: evaluated) m'
  | failure {param : Param} {argument : Node} (others : List (Param × Node)) {m m' : Machine}
      {reason : Stop} :
      param.isLazy = false → (e.eval argument).run m = (.error reason, m') →
      Passing e level ((param, argument) :: others) m (.error reason) [(argument, m)] m'

/-- The arguments that eager parameters receive. -/
def eager (pairs : List (Param × Node)) : List Node :=
  (pairs.filter (!·.1.isLazy)).map Prod.snd

/-- The steps of evaluations. -/
def stepsOf (e : Engine) (evaluated : List (Node × Machine)) : List Moment :=
  evaluated.flatMap fun x => (e.eval x.1).trace x.2

namespace Passing

variable {e : Engine} {level : Nat} {pairs : List (Param × Node)} {m m' : Machine}
  {result : Except Stop (List Atom)} {evaluated : List (Node × Machine)}

/-- Every argument has its value. -/
theorem length_eq (h : Passing e level pairs m result evaluated m') {values : List Atom}
    (ok : result = .ok values) : values.length = pairs.length := by
  induction h generalizing values with
  | nil =>
    cases ok
    rfl
  | @wrapped _ _ _ _ _ result _ _ _ ih | @value _ _ _ _ _ _ _ result _ _ _ _ ih =>
    cases result with
    | error reason => cases ok
    | ok values =>
      cases ok
      exact congrArg (· + 1) (ih rfl)
  | failure => cases ok

/-- The eager arguments are evaluated in order, each of them once and no other argument. -/
theorem evaluated_eq (h : Passing e level pairs m result evaluated m') {values : List Atom}
    (ok : result = .ok values) : evaluated.map Prod.fst = eager pairs := by
  induction h generalizing values with
  | nil => rfl
  | @wrapped _ _ _ _ _ result _ isLazy _ ih =>
    cases result with
    | error reason => cases ok
    | ok values => simpa [eager, isLazy] using ih rfl
  | @value _ _ _ _ _ _ _ result _ isEager _ _ ih =>
    cases result with
    | error reason => cases ok
    | ok values => simpa [eager, isEager] using ih rfl
  | failure => cases ok

/-- Up to the first eager argument that fails they are evaluated in order, and none behind it. -/
theorem evaluated_of_error (h : Passing e level pairs m result evaluated m') {reason : Stop}
    (failed : result = .error reason) :
    evaluated.map Prod.fst <+: eager pairs ∧
      ∃ x, evaluated.getLast? = some x ∧ (e.eval x.1).run x.2 = (.error reason, m') := by
  induction h with
  | nil => cases failed
  | @wrapped _ _ _ _ _ result _ isLazy _ ih =>
    cases result with
    | ok values => cases failed
    | error other =>
      cases failed
      simpa [eager, isLazy] using ih rfl
  | @value _ _ _ _ _ _ _ result evaluated isEager _ _ ih =>
    cases result with
    | ok values => cases failed
    | error other =>
      cases failed
      obtain ⟨front, x, last, fails⟩ := ih rfl
      refine ⟨by simpa [eager, isEager] using front, x, ?_, fails⟩
      rw [List.getLast?_cons, last]
      rfl
  | failure others isEager fails =>
    cases failed
    exact ⟨by simp [eager, isEager], _, rfl, fails⟩

/-- If all evaluation succeeds, so does the passing. -/
theorem exists_ok (h : Passing e level pairs m result evaluated m')
    (succeeds : ∀ node m, ∃ value m', (e.eval node).run m = (.ok value, m')) :
    ∃ values, result = .ok values := by
  induction h with
  | nil => exact ⟨_, rfl⟩
  | wrapped _ _ _ ih | value _ _ _ ih =>
    obtain ⟨values, rfl⟩ := ih
    exact ⟨_, rfl⟩
  | @failure _ argument _ m _ _ _ fails =>
    obtain ⟨value, m', runs⟩ := succeeds argument m
    rw [fails] at runs
    cases runs

/-- If all evaluation leaves the scopes that it has found, then all arguments find those of the
caller. -/
theorem depth_eq (h : Passing e level pairs m result evaluated m')
    (keeps : ∀ node m, ((e.eval node).run m).2.storage.depth = m.storage.depth) :
    ∀ x ∈ evaluated, x.2.storage.depth = m.storage.depth := by
  induction h with
  | nil => simp
  | wrapped _ _ _ ih => exact ih
  | @value _ argument _ m between _ _ _ _ _ runs _ ih =>
    have same : between.storage.depth = m.storage.depth := by
      have kept := keeps argument m
      rwa [runs] at kept
    rw [List.forall_mem_cons]
    exact ⟨rfl, fun x hx => (ih x hx).trans same⟩
  | failure => simp

end Passing

/-- An action passes arguments, does nothing else, and has `f` of their values as its result. -/
def Passes {γ : Type} (e : Engine) (level : Nat) (act : Action γ) (pairs : List (Param × Node))
    (f : List Atom → γ) : Prop :=
  ∀ m, ∃ result evaluated m', Passing e level pairs m result evaluated m' ∧
    act.run m = (result.map f, m') ∧ act.trace m = stepsOf e evaluated

namespace Passes

variable {e : Engine} {level : Nat} {γ δ : Type} {pairs : List (Param × Node)}
  {f : List Atom → γ}

theorem nil (f : List Atom → γ) : Passes e level (pure (f [])) [] f :=
  fun m => ⟨_, _, m, .nil m, rfl, rfl⟩

theorem map {act : Action γ} (h : Passes e level act pairs f) (g : γ → δ) :
    Passes e level (do return g (← act)) pairs (g ∘ f) := by
  intro m
  obtain ⟨result, evaluated, m', passing, run, trace⟩ := h m
  refine ⟨result, evaluated, m', passing, ?_, ?_⟩
  · rw [run_bind, run]
    cases result <;> rfl
  · rw [trace_bind, run, trace]
    cases result <;> exact List.append_nil _

/-- The first argument is passed before the others, and if it fails, they are not passed. -/
theorem cons {next : Atom → Action γ} (argument : Node)
    (h : ∀ value, Passes e level (next value) pairs fun values => f (value :: values)) :
    Passes e level (pass e level param.isLazy argument >>= next)
      ((param, argument) :: pairs) f := by
  intro m
  cases isLazy : param.isLazy with
  | true =>
    -- wrapping takes no step, so the others begin in the same machine
    obtain ⟨result, evaluated, m', passing, run, trace⟩ :=
      h (.function (.thunk [m.world.nextStamp] argument level)) m
    refine ⟨_, _, m', passing.wrapped argument isLazy, run.trans ?_, trace⟩
    cases result <;> rfl
  | false =>
    have evaluates : pass e level false argument = e.eval argument := rfl
    rw [evaluates, run_bind, trace_bind]
    rcases first : (e.eval argument).run m with ⟨reason | value, between⟩
    · exact ⟨_, _, between, .failure pairs isLazy first, rfl, rfl⟩
    · obtain ⟨result, evaluated, m', passing, run, trace⟩ := h value between
      refine ⟨_, _, m', .value isLazy first passing, run.trans ?_, congrArg _ trace⟩
      cases result <;> rfl

end Passes

variable (e : Engine) (level : Nat)

theorem passes_passAll (arguments : List Node) :
    Passes e level (passAll e level param.isLazy arguments) (arguments.map (param, ·)) id := by
  induction arguments with
  | nil => exact .nil id
  | cons argument arguments ih => exact .cons argument fun value => ih.map (value :: ·)

/-- All arguments are passed to their receivers, and then it is known what the parameters are bound
to. -/
theorem passes_bind (accepted : Param.wellPlaced params = true)
    (fits : Param.Fits params arguments.length) :
    Passes e level (bind e level params arguments) (receivers params arguments)
      (bindings params) := by
  induction params generalizing arguments with
  | nil => exact .nil (bindings [])
  | cons param params ih =>
    cases variadic : param.variadic with
    | true =>
      -- the parameter is the last one, so its list is all that is left to pass
      obtain rfl := Param.eq_nil_of_wellPlaced accepted variadic
      have together : bindings [param] = fun values => [(param.name, .list values)] :=
        funext fun values => bindings_variadic variadic values
      rw [receivers_variadic variadic, together]
      simp only [bind, variadic, if_true]
      exact (passes_passAll e level arguments).map fun values => [(param.name, Atom.list values)]
    | false =>
      cases arguments with
      | nil => exact absurd fits (Param.not_fits_cons_zero variadic)
      | cons argument arguments =>
        have others := ih (Param.wellPlaced_tail accepted) ((Param.fits_cons variadic).mp fits)
        simp only [receivers_fixed variadic, bind, variadic, Bool.false_eq_true, if_false]
        refine .cons argument fun value => ?_
        simp only [bindings_fixed variadic]
        exact others.map ((param.name, value) :: ·)

end Closure

/-! ### The scopes of the caller -/

namespace Storage

variable {s t : Storage}

theorem declareGlobal_depth (name : String) : (s.declareGlobal name).depth = s.depth := by
  rw [declareGlobal]
  split
  · rfl
  · dsimp only
    split
    · rename_i taken
      simp [depth, takeOut_length taken]
    · split <;> rfl

theorem pop_depth (h : t.depth = s.push.depth) : t.pop.depth = s.depth := by
  simp only [depth, push, List.length_cons] at h
  simp only [depth, pop, List.length_tail]
  omega

theorem restore_depth {n : Nat} (h : t.depth = (s.truncate n).depth) :
    (t.restore (s.hidden n)).depth = s.depth := by
  have above : s.above n ≤ s.inner.length := Nat.sub_le _ _
  simp only [depth, truncate, List.length_drop] at h
  simp only [depth, restore, hidden, List.length_append, List.length_take]
  omega

end Storage

/-- An action that leaves as many scopes as it has found. -/
def KeepsDepth {α : Type} (act : Action α) : Prop :=
  ∀ m : Machine, (act.run m).2.storage.depth = m.storage.depth

namespace KeepsDepth

variable {α β : Type} {x : Action α}

theorem resume {f : Except Stop α → Action β} (hx : KeepsDepth x) (hf : ∀ r, KeepsDepth (f r)) :
    KeepsDepth (x.resume f) := by
  intro m
  rw [run_resume]
  exact (hf _ _).trans (hx m)

theorem of_steps (h : ∀ m, ∀ y ∈ x.trace m, y.after.storage.depth = y.machine.storage.depth) :
    KeepsDepth x := by
  intro m
  replace h := h m
  induction x generalizing m with
  | done r => rfl
  | look k ih => exact ih m m h
  | step s x ih =>
    obtain ⟨first, rest⟩ := List.forall_mem_cons.mp h
    exact (ih _ rest).trans first

theorem stepLive {s : Step} (hs : s.isLive) (hx : KeepsDepth x) : KeepsDepth (Action.step s x) := by
  intro m
  refine (hx (s.apply m)).trans ?_
  cases s with
  | insert name value => exact Storage.insert_depth name value
  | declareGlobal name => exact Storage.declareGlobal_depth name
  | takeTypeId | takeStamp | readClock | write | writeError | readLine | beginPrelude => rfl
  | exit | adopt | merge | enter | leave | hide | restore | markBaseline | nested => cases hs

theorem inScope (params : Bindings) (hx : KeepsDepth x) : KeepsDepth (x.inScope params) := by
  intro m
  have bound : (m.storage.push.insertAll params).depth = m.storage.push.depth :=
    Storage.extend_depth params []
  rw [Action.inScope, run_step, run_andFinally]
  exact Storage.pop_depth ((hx _).trans bound)

theorem truncated (n : Nat) (hx : KeepsDepth x) : KeepsDepth (x.truncated n) := by
  intro m
  rw [Action.truncated, run_look, run_step, run_andFinally]
  exact Storage.restore_depth (hx ((Step.hide n).apply m))

theorem importWith (run : Source → Action Outcome) (name : String) (embeddedOnly : Bool) :
    KeepsDepth (Action.importWith run name embeddedOnly) :=
  of_steps fun _ _ hy => Step.depth_of_isLoading (mem_trace_importWith hy).2 _

theorem evalText (e : Engine) (text : String) : KeepsDepth (Action.evalText e text) := by
  refine of_steps fun m y hy => ?_
  rw [Moment.after]
  rcases mem_trace_evalText hy with ⟨_, _, hs⟩ | ⟨_, hs⟩ | ⟨globals, hs⟩ <;> rw [hs]
  · rfl
  · rfl
  · exact Storage.extend_depth [] globals

/-- All evaluation leaves as many scopes as it has found. -/
theorem hereditary : Hereditary KeepsDepth KeepsDepth where
  live := id
  done _ _ := rfl
  look hk _ m := hk m m
  lookLive hk _ m := hk m m
  resume := resume
  resumeLive := resume
  unlessExiting hp hq m := by
    rw [exiting_bind, run_look]
    cases m.exit.isSome
    · exact hq m
    · exact hp m
  stepLive := stepLive
  stamp hx := stepLive rfl hx
  baseline hx _ := hx _
  exit _ hx _ := hx _
  inScope := inScope
  truncated := truncated
  importWith name embeddedOnly _ := importWith _ name embeddedOnly
  evalText text _ := evalText _ text

end KeepsDepth

/-! ### Calls -/

section

variable (steps : Nat) {params : List Param} (stamp : Stamp) (doc : String) (body : Node)
  {arguments : List Node} (name comments : String)

/-- A wrong number of arguments is refused at once, whatever the arguments are. -/
theorem applyWith_of_not_fits (h : ¬ Param.Fits params arguments.length) :
    ∃ cause : Cause, cause.kind = "Argument" ∧
      ∀ e, applyWith e steps (.closure stamp doc params body) arguments name comments =
        fail cause := by
  rw [Param.not_fits_iff] at h
  cases variadic : Param.areVariadic params with
  | true =>
    have few : arguments.length < Param.required params := by
      simpa only [Param.required, variadic, if_true] using h
    refine ⟨.tooFewForVariadic (Param.required params) arguments.length, rfl, fun e => ?_⟩
    simp only [applyWith, Callable.arity, Param.arity, variadic, if_true, Callable.checkArity,
      ofExcept_bind, Closure.call, if_pos few]
  | false =>
    have wrong : params.length ≠ arguments.length := by
      simpa only [variadic, Bool.false_eq_true, if_false, ne_comm] using h
    refine ⟨.arity params.length arguments.length name, rfl, fun e => ?_⟩
    simp only [applyWith, Callable.arity, Param.arity, variadic, Bool.false_eq_true, if_false,
      Callable.checkArity, if_neg wrong, ofExcept_bind]

theorem applyWith_of_fits (fits : Param.Fits params arguments.length) (e : Engine) :
    applyWith e steps (.closure stamp doc params body) arguments name comments =
      look fun m => Closure.bind e m.storage.depth params arguments >>= fun bound =>
        inScope bound (e.eval body) := by
  have enough : ¬ arguments.length < Param.required params := Nat.not_lt.mpr fits.required_le
  simp only [applyWith, Callable.arity, fits.checkArity name, ofExcept_bind, Closure.call,
    if_neg enough]
  rfl

/-- A call whose number of arguments is right passes them. If one of them fails, the call does
nothing else, and otherwise it goes on with the body in a scope of its own. -/
theorem passing_of_fits (accepted : Param.wellPlaced params = true)
    (fits : Param.Fits params arguments.length) (e : Engine) (m : Machine) :
    let call := applyWith e steps (.closure stamp doc params body) arguments name comments
    ∃ result evaluated m', Closure.Passing e m.storage.depth (Closure.receivers params arguments) m
        result evaluated m' ∧
      match result with
      | .error reason =>
        call.run m = (.error reason, m') ∧ call.trace m = Closure.stepsOf e evaluated
      | .ok values =>
        let bound := Closure.bindings params values
        call.run m = (inScope bound (e.eval body)).run m' ∧
        call.trace m = Closure.stepsOf e evaluated ++ (inScope bound (e.eval body)).trace m' := by
  intro call
  obtain ⟨result, evaluated, m', passing, run, trace⟩ :=
    Closure.passes_bind e m.storage.depth accepted fits m
  have called : call = look fun m => _ :=
    applyWith_of_fits steps stamp doc body name comments fits e
  refine ⟨result, evaluated, m', passing, ?_⟩
  rw [called, run_look, trace_look, run_bind, trace_bind, run, trace]
  cases result with
  | error reason => exact ⟨rfl, List.append_nil _⟩
  | ok values => exact ⟨rfl, rfl⟩

end

/-- How a function that a program has defined takes its arguments. A call is refused for the number
of its arguments before anything is evaluated if and only if this number is wrong. Otherwise every
argument is received by one parameter, in order, and the last parameter receives those that are
left. The eager arguments are evaluated in order in the scopes of the caller, each of them once, and
the lazy ones are not evaluated. If one of them fails, this is all that the call does; otherwise it
opens a scope with all parameters in it, evaluates the body there, and closes the scope. -/
theorem arguments_passed (e : Engine) (steps : Nat) {params : List Param}
    (accepted : Param.check params = .ok ()) (stamp : Stamp) (doc : String) (body : Node)
    (arguments : List Node) (name comments : String) (m : Machine) :
    let call (e : Engine) :=
      applyWith e steps (.closure stamp doc params body) arguments name comments
    let mismatch : Prop :=
      if Param.areVariadic params then arguments.length < params.length - 1
      else arguments.length ≠ params.length
    let pairs := Closure.receivers params arguments
    -- no engine plays a part in the fault, so nothing has been evaluated
    ((∃ fault : Fault, fault.cause.kind = "Argument" ∧
        ∀ e, (call e).run m = (.error (.fault fault), m) ∧ (call e).trace m = []) ↔ mismatch) ∧
    (¬ mismatch →
      pairs.map Prod.snd = arguments ∧
      (∀ i < arguments.length, pairs[i]?.map Prod.fst = params[min i (params.length - 1)]?) ∧
      ∃ result evaluated m', Closure.Passing e m.storage.depth pairs m result evaluated m' ∧
        (∀ limits : Limits, e = limits.engine →
          ∀ x ∈ evaluated, x.2.storage.depth = m.storage.depth) ∧
        match result with
        | .error reason =>
          evaluated.map Prod.fst <+: Closure.eager pairs ∧
          (∃ x, evaluated.getLast? = some x ∧ (e.eval x.1).run x.2 = (.error reason, m')) ∧
          (call e).run m = (.error reason, m') ∧
          (call e).trace m = Closure.stepsOf e evaluated
        | .ok values =>
          let bound := Closure.bindings params values
          let opened := (Step.enter bound).apply m'
          let ended := (e.eval body).run opened
          evaluated.map Prod.fst = Closure.eager pairs ∧
          bound.names = params.map Param.name ∧
          (∀ (i : Nat) (param : Param), params[i]? = some param →
            ∃ value, bound[i]? = some (param.name, value) ∧
              if param.variadic then value = .list (values.drop i)
              else values[i]? = some value) ∧
          (call e).run m = (ended.1, Step.leave.apply ended.2) ∧
          (call e).trace m = Closure.stepsOf e evaluated ++
            ⟨m', .enter bound⟩ :: ((e.eval body).trace opened ++ [⟨ended.2, .leave⟩])) := by
  intro call mismatch pairs
  have wellPlaced := Param.check_eq_ok_iff.mp accepted
  have mismatch_iff : mismatch ↔ ¬ Param.Fits params arguments.length := Param.not_fits_iff.symm
  have passing (fits : Param.Fits params arguments.length) (e : Engine) :=
    passing_of_fits steps stamp doc body name comments wellPlaced fits e m
  refine ⟨⟨?_, ?_⟩, ?_⟩
  · -- an engine that has a value for everything makes a call with the right number succeed
    rintro ⟨fault, -, refused⟩
    rw [mismatch_iff]
    intro fits
    let lenient : Engine := ⟨fun _ => pure .null, fun _ _ _ _ => pure .null⟩
    obtain ⟨result, evaluated, m', passed, outcome⟩ := passing fits lenient
    obtain ⟨values, rfl⟩ := passed.exists_ok fun _ m => ⟨.null, m, rfl⟩
    have succeeds := outcome.1
    rw [(refused lenient).1] at succeeds
    cases succeeds
  · intro wrong
    obtain ⟨cause, kind, refuses⟩ := applyWith_of_not_fits steps stamp doc body name comments
      (mismatch_iff.mp wrong)
    refine ⟨⟨cause, []⟩, kind, fun e => ?_⟩
    exact ⟨congrArg (run · m) (refuses e), congrArg (trace · m) (refuses e)⟩
  · intro right
    have fits := Classical.not_not.mp (mt mismatch_iff.mpr right)
    have received := Closure.map_snd_receivers wellPlaced fits
    obtain ⟨result, evaluated, m', passed, outcome⟩ := passing fits e
    refine ⟨received, fun i hi => Closure.getElem?_receivers wellPlaced fits hi, result, evaluated,
      m', passed, ?_, ?_⟩
    · rintro limits rfl
      exact passed.depth_eq (KeepsDepth.hereditary.eval limits)
    · cases result with
      | error reason =>
        obtain ⟨front, last⟩ := passed.evaluated_of_error rfl
        exact ⟨front, last, outcome⟩
      | ok values =>
        have count : values.length = arguments.length :=
          (passed.length_eq rfl).trans (by simpa using congrArg List.length received)
        have enough : Param.required params ≤ values.length := count ▸ fits.required_le
        refine ⟨passed.evaluated_eq rfl, Closure.names_bindings wellPlaced enough,
          fun i param h => Closure.getElem?_bindings wellPlaced enough h, ?_, ?_⟩
        · rw [outcome.1, inScope, run_step, run_andFinally]
        · rw [outcome.2, inScope, trace_step, trace_andFinally]

/-- A function with the parameters `x`, `$y` and `[z]` is called with four arguments. The second one
has no value, but it is not evaluated. -/
theorem arguments_passed_mixed :
    let x : Param := ⟨"x", false, false⟩
    let y : Param := ⟨"y", false, true⟩
    let z : Param := ⟨"z", true, false⟩
    let one : Node := .literal (.int 1) none
    let two : Node := .literal (.int 2) none
    let three : Node := .literal (.int 3) none
    let unknown : Node := .var "unknown" none
    Param.check [x, y, z] = .ok () ∧
      ∃ values evaluated m', Closure.Passing (engine 0 0) 1
          [(x, one), (y, unknown), (z, two), (z, three)] {} (.ok values) evaluated m' ∧
        evaluated.map Prod.fst = [one, two, three] := by
  intro x y z one two three unknown
  have accepted : Param.check [x, y, z] = .ok () := rfl
  obtain ⟨-, passed⟩ := arguments_passed (engine 0 0) 0 accepted [] "" (.literal .null none)
    [one, unknown, two, three] "f" "" {}
  obtain ⟨-, -, result, evaluated, m', passing, -, outcome⟩ := passed (by decide)
  cases result with
  | error reason => cases outcome.2.2.1
  | ok values => exact ⟨accepted, values, evaluated, m', passing, outcome.1⟩

end CallLang
