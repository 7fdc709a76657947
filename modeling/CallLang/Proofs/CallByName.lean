import CallLang.Run.Lemmas

/-!
# Lazy parameters

A lazy parameter is bound to its unevaluated argument. Forcing it in the body of the function hides
the scope of the call, evaluates the argument in the scopes of the caller and puts the scope back,
so a function that only forces its argument does what the argument does.
-/

namespace CallLang

open CallLang.Action

namespace Storage

variable (s : Storage) (scopes : List Bindings)

@[simp]
theorem above_restore : (s.restore scopes).above s.depth = scopes.length := by
  simp [above, restore, depth]

/-- The scopes of a caller are what is left if the scopes that were opened since are hidden. -/
@[simp]
theorem truncate_restore : (s.restore scopes).truncate s.depth = s := by
  rw [truncate, above_restore]
  simp [restore]

@[simp]
theorem hidden_restore : (s.restore scopes).hidden s.depth = scopes := by
  rw [hidden, above_restore]
  simp [restore]

theorem insertAll_push {name : String} (h : name ∉ s.globalNames) (value : Atom) :
    s.push.insertAll [(name, value)] = s.restore [[(name, value)]] := by
  have undeclared : name ∉ s.push.globalNames := h
  show s.push.insert name value = _
  rw [insert, if_neg undeclared]
  rfl

theorem getFunction_restore {name : String} (h : name ∉ s.globalNames) (f : Callable) :
    (s.restore [[(name, .function f)]]).getFunction name = .ok f := by
  have undeclared : name ∉ (s.restore [[(name, .function f)]]).globalNames := h
  have found : (s.restore [[(name, .function f)]]).get? name = some (.function f) := by
    rw [get?, getGlobal?, if_neg undeclared]
    simp [restore, Storage.scopes, lookup, Bindings.get?]
  rw [getFunction, found]

end Storage

/-- The machine with scopes on top of its own. -/
def Machine.under (m : Machine) (scopes : List Bindings) : Machine :=
  { m with storage := m.storage.restore scopes }

namespace Action

variable {α : Type}

/-- Under further scopes, an action that sees only the scopes below does what it does without
them. -/
theorem run_truncated_under (act : Action α) (m : Machine) (scopes : List Bindings) :
    (act.truncated m.storage.depth).run (m.under scopes) =
      ((act.run m).1, (act.run m).2.under scopes) := by
  have hide : (Step.hide m.storage.depth).apply (m.under scopes) = m := by
    show { m with storage := (m.storage.restore scopes).truncate m.storage.depth } = m
    rw [Storage.truncate_restore]
  have hidden : (m.under scopes).storage.hidden m.storage.depth = scopes :=
    m.storage.hidden_restore scopes
  rw [truncated, run_look, run_step, hide, run_andFinally, hidden]
  rfl

end Action

namespace Closure

/-- The call of a function that takes no arguments. -/
def force (name : String) (span : Option Span) : Node := .call name [] "" span

variable (steps depth : Nat) (argument : Node) (m : Machine) {name : String}

/-- Forcing a lazy argument in the scope of its call evaluates it in the scopes of the caller. -/
theorem run_force (exit : m.exit = none) (hn : name ∉ m.storage.globalNames)
    (span : Option Span) (stamp : Stamp) :
    let scope := [(name, .function (.thunk stamp argument m.storage.depth))]
    let r := (((engine steps depth).eval argument).traced span).run m
    ((engine steps (depth + 1)).eval (force name span)).run (m.under [scope]) =
      (r.1, r.2.under [scope]) := by
  intro scope r
  have live : (m.under [scope]).exit = none := exit
  have thunk : (m.under [scope]).storage.getFunction name =
      .ok (.thunk stamp argument m.storage.depth) :=
    m.storage.getFunction_restore hn _
  have forced : (applyWith (engine steps depth) steps (.thunk stamp argument m.storage.depth) []
      name "").run (m.under [scope]) =
        ((((engine steps depth).eval argument).run m).1,
          (((engine steps depth).eval argument).run m).2.under [scope]) :=
    run_truncated_under _ m [scope]
  rw [force, run_eval_call steps depth live thunk, run_traced, forced]
  simp only [r, run_traced]

/-- A call of a function that only forces its lazy parameter does what the argument does, since the
scope that it opens is hidden while the argument is evaluated. -/
theorem run_call_force (exit : m.exit = none) (hn : name ∉ m.storage.globalNames)
    (span : Option Span) (stamp : Stamp) (called doc : String) :
    (applyWith (engine steps (depth + 1)) steps
        (.closure stamp "" [⟨name, false, true⟩] (force name span)) [argument] called doc).run m =
      (((engine steps depth).eval argument).traced span).run m := by
  let scope : Bindings := [(name, .function (.thunk [m.world.nextStamp] argument m.storage.depth))]
  have enter : (Step.enter scope).apply m = m.under [scope] := by
    show { m with storage := m.storage.push.insertAll scope } = _
    rw [m.storage.insertAll_push hn]
    rfl
  have leave (m' : Machine) : Step.leave.apply (m'.under [scope]) = m' := rfl
  show (inScope scope ((engine steps (depth + 1)).eval (force name span))).run m = _
  rw [inScope, run_step, enter, run_andFinally, run_force steps depth argument m exit hn, leave]

theorem parse_lazy (hn : name ≠ "") : Param.parse ("$" ++ name) = .ok ⟨name, false, true⟩ := by
  have nonempty : name.toList ≠ [] := by simpa using hn
  simp [Param.parse, Param.unbracket?, Param.unmark?, nonempty]

theorem run_define_force (hn : name ≠ "") (p q : Option Span) :
    ((define "" [.var ("$" ++ name) p] (force name q)).run m).1 =
      .ok (.closure [m.world.nextStamp] "" [⟨name, false, true⟩] (force name q)) := by
  have params : checkedParams [.var ("$" ++ name) p] = .ok [⟨name, false, true⟩] := by
    simp only [checkedParams, paramsOf, paramOf, Node.name?, parse_lazy hn]
    rfl
  rw [define, ofOutcome_bind, params]
  rfl

end Closure

/-- Lazy parameters are passed by name: a function that only forces its lazy parameter leaves the
same machine as the argument itself, evaluated by the caller, and ends with the same value or the
same fault; only the place of the call may be added to the backtrace. The call takes one level of
nesting. -/
theorem lazy_call_by_name (steps depth : Nat) {name : String} (hn : name ≠ "") {p q : Option Span}
    {f : Callable} {m₀ m₁ : Machine}
    (hf : (Closure.define "" [.var ("$" ++ name) p] (.call name [] "" q)).run m₀ = (.ok f, m₁))
    (argument : Node) (m : Machine) (exit : m.exit = none) (hg : name ∉ m.storage.globalNames)
    (called doc : String) :
    let r := (applyWith (engine steps (depth + 1)) steps f [argument] called doc).run m
    let r' := ((engine steps depth).eval argument).run m
    r.2 = r'.2 ∧
      r.1 =
        match r'.1 with
        | .ok value => .ok value
        | .error (.fault fault) => .error (.fault (fault.addFrame q))
        | .error .exhausted => .error .exhausted := by
  intro r r'
  have defined := Closure.run_define_force m₀ hn p q
  obtain rfl : _ = f := Except.ok.inj (defined.symm.trans (congrArg Prod.fst hf))
  have call : r = _ :=
    Closure.run_call_force steps depth argument m exit hg q [m₀.world.nextStamp] called doc
  refine ⟨by rw [call, run_traced], ?_⟩
  simp only [call, run_traced, r']
  rcases ((engine steps depth).eval argument).run m with ⟨(fault | _) | value, m'⟩ <;> rfl

/-- The argument is the variable of the caller, although the parameter has the same name. -/
theorem lazy_call_by_name_shadowed :
    ∃ (f : Callable) (m : Machine), m.storage.depth = 2 ∧ m.storage.get? "x" = some (.int 1) ∧
      (Closure.define "" [.var "$x" none] (.call "x" [] "" none)).run {} =
        (.ok f, Step.takeStamp.apply {}) ∧
      ((applyWith (engine 0 2) 0 f [.var "x" none] "f" "").run m).1 = .ok (.int 1) ∧
      ((applyWith (engine 0 2) 0 f [.var "x" none] "f" "").run m).2 = m := by
  let m : Machine := { storage := { inner := [[("x", .int 1)]] } }
  let f : Callable := .closure [0] "" [⟨"x", false, true⟩] (.call "x" [] "" none)
  have defined : (Closure.define "" [.var "$x" none] (.call "x" [] "" none)).run {} =
      (.ok f, Step.takeStamp.apply {}) := rfl
  have call := lazy_call_by_name 0 1 (show "x" ≠ "" by decide) defined (.var "x" none) m rfl
    (by simp [m]) "f" ""
  exact ⟨f, m, rfl, rfl, defined, call.2, call.1⟩

end CallLang
