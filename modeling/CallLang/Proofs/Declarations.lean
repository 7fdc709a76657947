import CallLang.Proofs.History
import CallLang.Proofs.NestedRuns

/-!
# Declarations of nested programs

A nested program starts with all global names of the machine that starts it, but only its globals
with values come back. So a name that it has declared stays declared afterwards if it has a value or
was declared before, and its declaration is lost otherwise.

Steps never undo a declaration, so a name that stays declared is one variable for all functions, now
and later. A name whose declaration is lost is a local name of every function that assigns it.
-/

namespace CallLang

open CallLang.Action

/-! ### Declared names -/

namespace Storage

variable {s : Storage} {name other : String}

theorem mem_globalNames_addGlobal {value : Atom} :
    other ∈ (s.addGlobal name value).globalNames ↔ other ∈ s.globalNames ∨ other = name := by
  simp only [addGlobal]
  split
  · rename_i declared
    refine ⟨.inl, ?_⟩
    rintro (h | rfl)
    · exact h
    · exact declared
  · simp

theorem globalNames_insertAll (bindings : Bindings) :
    (s.insertAll bindings).globalNames = s.globalNames := by
  induction bindings generalizing s with
  | nil => rfl
  | cons b bindings ih => exact ih.trans (globalNames_insert b.1 b.2)

/-- Merging declares the globals that have values, and nothing else. -/
theorem mem_globalNames_extend {bindings globals : Bindings} :
    name ∈ (s.extend bindings globals).globalNames ↔
      name ∈ s.globalNames ∨ name ∈ globals.names := by
  rw [extend, ← globalNames_insertAll (s := s) bindings]
  generalize s.insertAll bindings = t
  induction globals generalizing t with
  | nil => simp [Bindings.names]
  | cons b globals ih =>
    rw [List.foldl_cons, ih, mem_globalNames_addGlobal]
    simp [Bindings.names, or_assoc]

theorem mem_globalNames_declareGlobal :
    other ∈ (s.declareGlobal name).globalNames ↔ other ∈ s.globalNames ∨ other = name := by
  rw [declareGlobal]
  split
  · rename_i declared
    exact ⟨.inl, fun h => h.elim id fun e => e ▸ declared⟩
  · dsimp only
    split
    · simp
    · split <;> simp

end Storage

/-- No step undoes a declaration. -/
theorem Step.globalNames_subset (s : Step) (m : Machine) :
    m.storage.globalNames ⊆ (s.apply m).storage.globalNames := by
  intro name declared
  cases s with
  | insert other value =>
    show name ∈ (m.storage.insert other value).globalNames
    rwa [Storage.globalNames_insert]
  | declareGlobal other => exact Storage.mem_globalNames_declareGlobal.mpr (.inl declared)
  | merge _ bindings globals => exact Storage.mem_globalNames_extend.mpr (.inl declared)
  | enter params =>
    show name ∈ (m.storage.push.insertAll params).globalNames
    rwa [Storage.globalNames_insertAll]
  | _ => exact declared

/-- What is declared when an action begins is declared at every moment of it. -/
theorem Action.declared_of_mem_trace {α : Type} {act : Action α} {m : Machine} {x : Moment}
    {name : String} (declared : name ∈ m.storage.globalNames) (hx : x ∈ act.trace m) :
    name ∈ x.machine.storage.globalNames := by
  induction act generalizing m with
  | done r => simp at hx
  | look k ih => exact ih m declared hx
  | step s next ih =>
    rcases List.mem_cons.mp hx with rfl | hx
    · exact declared
    · exact ih (s.globalNames_subset m declared) hx

/-- An assignment to a declared name assigns the global, wherever it is made. -/
theorem Moment.globals_of_declared {x : Moment} {name : String} {value : Atom}
    (declared : name ∈ x.machine.storage.globalNames) (hs : x.step = .insert name value) :
    x.after.storage.globals.get? name = some value := by
  rw [after, hs]
  show (x.machine.storage.insert name value).globals.get? name = some value
  rw [Storage.insert, if_pos declared]
  exact Bindings.get?_set_self _ _ _

/-! ### Functions that assign -/

/-- A function without parameters that assigns a value to a name. -/
def Callable.assigning (name : String) (value : Atom) : Callable :=
  .closure [] "" [] (.call "=" [.var name none, .literal value none] "" none)

/-- In a call, an assignment to a name that is not declared global is gone when the call returns. -/
theorem Storage.pop_insert_push {s : Storage} {name : String} (value : Atom)
    (undeclared : name ∉ s.globalNames) : (s.push.insert name value).pop = s := by
  have inScope : name ∉ s.push.globalNames := undeclared
  rw [insert, if_neg inScope]
  rfl

/-- A call of a function that assigns a name which is not declared global changes nothing. -/
theorem run_assigning_undeclared (steps depth : Nat) {m : Machine} (exit : m.exit = none)
    (assign : m.storage.Shows "=" (.binary .assign)) {name : String}
    (undeclared : name ∉ m.storage.globalNames) (value : Atom) (label doc : String) :
    (applyWith (engine steps (depth + 1)) steps (.assigning name value) [] label doc).run m =
      (.ok .null, m) := by
  let opened := (Step.enter []).apply m
  let body : Node := .call "=" [.var name none, .literal value none] "" none
  have shows : opened.storage.Shows "=" (.binary .assign) := assign
  have live : opened.exit = none := exit
  have assigned : ((engine steps (depth + 1)).eval body).run opened =
      (.ok .null, (Step.insert name value).apply opened) :=
    run_eval_assign steps depth live name shows value none none none ""
  show (inScope [] ((engine steps (depth + 1)).eval body)).run m = _
  rw [inScope, run_step, run_andFinally, assigned]
  show (Except.ok Atom.null, { m with storage := (m.storage.push.insert name value).pop }) = _
  rw [Storage.pop_insert_push value undeclared]

/-! ### Nested programs -/

/-- What becomes of the declarations of a program that was nested in the machine `m` and has ended
as `inner`, in the machine `after` that goes on. -/
structure Machine.Inherits (m inner after : Machine) : Prop where
  /-- A declared name stays declared if it has a value or was declared before, and only then. -/
  declared_iff (name : String) : name ∈ inner.storage.globalNames →
    (name ∈ after.storage.globalNames ↔
      name ∈ inner.storage.globals.names ∨ name ∈ m.storage.globalNames)
  /-- A name that stays declared is one variable: whatever is evaluated afterwards, every assignment
  to the name, in whatever function it is made, assigns the global. -/
  shared (name : String) : name ∈ after.storage.globalNames → ∀ limits node,
    ∀ x ∈ (Limits.engine limits).eval node |>.trace after, ∀ value,
      x.step = .insert name value → x.after.storage.globals.get? name = some value
  /-- A function that assigns a name which does not stay declared assigns nothing that outlives the
  call. -/
  lost (name : String) : name ∉ after.storage.globalNames → after.exit = none →
    after.storage.Shows "=" (.binary .assign) → ∀ steps depth value label doc,
      (applyWith (engine steps (depth + 1)) steps (.assigning name value) [] label doc).run after =
        (.ok .null, after)

theorem Machine.inherits_extend {m inner after : Machine} {bindings : Bindings}
    (h : after.storage = m.storage.extend bindings inner.storage.globals) :
    m.Inherits inner after where
  declared_iff name _ := by
    rw [h, Storage.mem_globalNames_extend]
    exact or_comm
  shared name declared limits node x hx value hs :=
    Moment.globals_of_declared (declared_of_mem_trace declared hx) hs
  lost name undeclared exit assign steps depth value label doc :=
    run_assigning_undeclared steps depth exit assign undeclared value label doc

/-- After the import of a module, and after the evaluation of a text, that ends with a value and
without exit: a name that the nested program has declared global is declared global if and only if
it has a value there or was declared before. Every function shares the names that are, and no
function the names that are not. -/
theorem declaration_survives_iff (limits : Limits) (m : Machine) :
    (∀ name embeddedOnly found value inner,
      ModuleText.resolve m.world.files (if embeddedOnly then none else m.directory) name =
        .ok found →
      found.identity ∉ m.importStack →
      (runText limits.engine ⟨found.identity, found.text⟩).run
        (m.nested found.directory found.identity found.embedded
          (m.importStack ++ [found.identity])) = (.ok (.ok value), inner) →
      inner.exit = none →
        let after := (importModule limits.engine name embeddedOnly).run m
        after.1 = .ok value ∧ m.Inherits inner after.2) ∧
    ∀ text value inner,
      (runText limits.engine ⟨"<eval>", text⟩).run (m.nested none "<eval>" false m.importStack) =
        (.ok (.ok value), inner) →
      inner.exit = none →
        let after := (evalText limits.engine text).run m
        after.1 = .ok value ∧ m.Inherits inner after.2 := by
  refine ⟨?_, ?_⟩
  · intro name embeddedOnly found value inner hf acyclic ran exit after
    have settled : after = _ := run_importWith embeddedOnly hf acyclic ran
    rw [run_settle, exit] at settled
    rw [settled]
    exact ⟨rfl, Machine.inherits_extend rfl⟩
  · intro text value inner ran exit after
    have settled : after = _ := run_evalText ran
    rw [run_settle, exit] at settled
    rw [settled]
    exact ⟨rfl, Machine.inherits_extend rfl⟩

/-- A module that declares a name and assigns it. -/
theorem declaration_survives_with_value :
    "c" ∉ (Machine.beside "global(c), =(c, 0)").storage.globalNames ∧
      "c" ∈ ((importModule (Limits.mk 2 0).engine "lib").run
        (Machine.beside "global(c), =(c, 0)")).2.storage.globalNames := by
  have value : ((runText (Limits.mk 2 0).engine ⟨"/lib.re", "global(c), =(c, 0)"⟩).run
      ((Machine.beside "global(c), =(c, 0)").nested (some []) "/lib.re" false ["/lib.re"])).1 =
        .ok (.ok .null) := rfl
  have inherits := ((declaration_survives_iff ⟨2, 0⟩ (Machine.beside "global(c), =(c, 0)")).1 "lib"
    false ⟨"/lib.re", some [], "global(c), =(c, 0)", false⟩ .null _ rfl List.not_mem_nil
    (Prod.ext value rfl) (Option.isNone_iff_eq_none.mp (by decide +kernel))).2
  exact ⟨List.not_mem_nil,
    (inherits.declared_iff "c" (by decide +kernel)).mpr (.inl (by decide +kernel))⟩

/-- What made a program fail. -/
def Outcome.cause? : Outcome → Option Cause
  | .error fault => some fault.cause
  | .ok _ => none

/-- A module that declares a name without assigning it, and a function of the module that assigns
it: after the import the name is not declared, and what the function assigns is lost. -/
theorem declaration_lost_without_value :
    let text := "global(c), def(set, v, =(c, v))"
    let m := Machine.beside text
    let module := (runText (Limits.mk 3 0).engine ⟨"/lib.re", text⟩).run
      (m.nested (some []) "/lib.re" false ["/lib.re"])
    let after := (importModule (Limits.mk 3 0).engine "lib").run m
    after.1.isOk ∧ module.2.exit.isNone ∧
      "c" ∈ module.2.storage.globalNames ∧ "c" ∉ after.2.storage.globalNames ∧
      Outcome.cause? (m.run ⟨4, 0⟩ "import(lib), set(5), c" "").1 = some (.noVariable "c") := by
  decide +kernel

end CallLang
