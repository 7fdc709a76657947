import CallLang.Proofs.Answers
import CallLang.Proofs.CallByName
import CallLang.Proofs.Declarations
import CallLang.Proofs.Evaluations
import CallLang.Proofs.Passing
import Mathlib.Data.List.Nodup

/-!
# Functions of the embedded modules

The embedded modules are texts, so what one of their functions does is what its text says. A
`LibraryFunction` is such a function without the places of its text, and it is looked up there by
evaluation (`LibraryFunction.Found`).

The body of a library function calls builtins, and all names that it assigns are its own. So a call
works in one scope, whose names are known from the text and whose values tell how far the call has
come (`LibraryFunction.inside`). Rules for reading and assigning these names come on top of the
rules for evaluations, and a call does in the end what its body does (`LibraryFunction.Called.ends`).
-/

namespace CallLang

open CallLang.Action CallLang.Builtin

/-! ### The definitions of an embedded module -/

namespace Embedded

/-- The definitions among the expressions of a program. -/
def definitionsOf : Except Fault Node → List Definition
  | .ok program => program.args.filterMap Definition.ofNode?
  | .error _ => []

/-- The definitions of an embedded module. -/
def definitions (module : String) : List Definition :=
  match ModuleText.embedded? module with
  | some found => definitionsOf (Node.parse found.text (some ⟨found.identity, found.text⟩))
  | none => []

/-- The characters of the text suffice to know the definitions of a module. -/
theorem definitions_eq {module text : String} (h : text? module = some text)
    (spelling : Spelling text) :
    definitions module =
      definitionsOf (Node.ofChars (some ⟨"<stl:" ++ module ++ ">", text⟩) spelling.chars) := by
  rw [definitions, ModuleText.embedded?, h]
  exact congrArg definitionsOf (spelling.parse_eq _)

end Embedded

/-- Each definition binds its name to its function, with some stamp. -/
theorem Definition.exists_mem_bindings (stamp : Nat) {d : Definition} {ds : List Definition}
    (h : d ∈ ds) : ∃ k, (d.name, d.function k) ∈ bindings stamp ds := by
  induction ds generalizing stamp with
  | nil => cases h
  | cons d' ds ih =>
    rcases List.mem_cons.mp h with rfl | h
    · exact ⟨stamp, List.mem_cons_self⟩
    · obtain ⟨k, hk⟩ := ih (stamp + 1) h
      exact ⟨k, List.mem_cons_of_mem _ hk⟩

/-! ### Expressions that a text can be compared with -/

mutual

/-- Whether an expression is written nowhere and has simple literals only. -/
def Node.isBare : Node → Bool
  | .literal value none => value.isSimple
  | .var _ none => true
  | .call _ args _ none => Node.areBare args
  | _ => false

def Node.areBare : List Node → Bool
  | [] => true
  | node :: nodes => node.isBare && Node.areBare nodes

end

theorem Atom.eq_of_same {a b : Atom} (h : a.same b) (simple : b.isSimple) : a = b := by
  cases b <;> simp [Atom.isSimple] at simple <;> cases a <;> simp_all [Atom.same]

theorem Atom.copied_of_isSimple {a : Atom} (simple : a.isSimple) (n : Nat) : a.copied n = a := by
  cases a <;> simp [Atom.isSimple] at simple <;> simp [Atom.copied]

theorem Atom.unplaced_of_isSimple {a : Atom} (simple : a.isSimple) : unplaced a = a := by
  cases a <;> simp [Atom.isSimple] at simple ⊢

mutual

/-- The copy of an expression that says the same as a bare one is that one, up to places. -/
theorem Node.unplaced_copied_of_same {x y : Node} (h : x.same y) (bare : y.isBare) (n : Nat) :
    unplaced (x.copied n) = y := by
  match x, y with
  | .literal a _, .literal b none =>
    simp only [Node.isBare] at bare
    obtain rfl := Atom.eq_of_same (by simpa [Node.same] using h) bare
    simp [Node.copied, Atom.copied_of_isSimple bare, Atom.unplaced_of_isSimple bare]
  | .var _ _, .var _ none =>
    obtain rfl : _ = _ := by simpa [Node.same] using h
    simp [Node.copied]
  | .call _ xs _ _, .call _ ys _ none =>
    simp only [Node.same, Bool.and_eq_true, beq_iff_eq] at h
    obtain ⟨⟨rfl, args⟩, rfl⟩ := h
    simp [Node.copied, Node.unplaced_copiedAll_of_same args bare n]
  | .literal .., .var .. | .literal .., .call .. | .var .., .literal .. | .var .., .call ..
  | .call .., .literal .. | .call .., .var .. => simp [Node.same] at h
  | _, .literal _ (some _) | _, .var _ (some _) | _, .call _ _ _ (some _) =>
    simp [Node.isBare] at bare

theorem Node.unplaced_copiedAll_of_same {xs ys : List Node} (h : Node.sameAll xs ys)
    (bare : Node.areBare ys) (n : Nat) : unplaced (Node.copiedAll n xs) = ys := by
  match xs, ys with
  | [], [] => rfl
  | x :: xs, y :: ys =>
    simp only [Node.sameAll, Node.areBare, Bool.and_eq_true] at h bare
    simp [Node.copiedAll, Node.unplaced_copied_of_same h.1 bare.1 n,
      Node.unplaced_copiedAll_of_same h.2 bare.2 n]
  | [], _ :: _ | _ :: _, [] => simp [Node.sameAll] at h

end

/-! ### Library functions -/

/-- A parameter that takes one argument and evaluates it. -/
def Param.plain (name : String) : Param := ⟨name, false, false⟩

theorem Param.fits_plain (names : List String) : Fits (names.map plain) names.length := by
  induction names with
  | nil => exact fits_iff.mpr rfl
  | cons name names ih => exact (fits_cons rfl).mpr ih

/-- A function of an embedded module, without places. All its parameters are plain. -/
structure LibraryFunction where
  module : String
  name : String
  params : List String
  /-- The other names that the body assigns, in the order of their first assignments. -/
  locals : List String
  /-- The names that the body uses for builtins. -/
  builtins : List (String × Builtin)
  body : Node
  bare : body.isBare := by rfl
  nodup : (params ++ locals).Nodup := by decide
  listed : ∀ p ∈ builtins, p ∈ Builtin.table := by decide +kernel
  apart : ∀ p ∈ builtins, p.1 ∉ params ++ locals := by decide

namespace LibraryFunction

variable (fn : LibraryFunction)

/-- The names of the scope of a call. -/
def names : List String := fn.params ++ fn.locals

/-- Whether a definition defines the function. -/
def isDefinedBy (d : Definition) : Bool :=
  d.name == fn.name && d.params == fn.params.map .plain && d.body.same fn.body

/-- Among definitions of different names one defines the function, and none defines a name that the
body uses for a builtin. -/
def FoundIn (ds : List Definition) : Prop :=
  (ds.map Definition.name).Nodup ∧ (∃ d ∈ ds, fn.isDefinedBy d) ∧
    ∀ p ∈ fn.builtins, p.1 ∉ ds.map Definition.name

instance (ds : List Definition) : Decidable (fn.FoundIn ds) :=
  inferInstanceAs (Decidable (_ ∧ _ ∧ _))

/-- The text of the module defines the function. -/
def Found : Prop := fn.FoundIn (Embedded.definitions fn.module)

variable {fn}

theorem params_eq_of_isDefinedBy {d : Definition} (h : fn.isDefinedBy d) :
    d.params = fn.params.map .plain := by
  simp only [isDefinedBy, Bool.and_eq_true, beq_iff_eq] at h
  exact h.1.2

theorem unplaced_body_of_isDefinedBy {d : Definition} (h : fn.isDefinedBy d) (n : Nat) :
    unplaced (d.body.copied n) = fn.body := by
  simp only [isDefinedBy, Bool.and_eq_true] at h
  exact Node.unplaced_copied_of_same h.2 fn.bare n

/-- The text of the module is looked through. -/
theorem Found.of_spelling {text : String} (ht : Embedded.text? fn.module = some text)
    (spelling : Spelling text)
    (h : fn.FoundIn (Embedded.definitionsOf
      (Node.ofChars (some ⟨"<stl:" ++ fn.module ++ ">", text⟩) spelling.chars))) :
    fn.Found := by
  rw [Found, Embedded.definitions_eq ht spelling]
  exact h

theorem name_eq_of_isDefinedBy {d : Definition} (h : fn.isDefinedBy d) : d.name = fn.name := by
  simp only [isDefinedBy, Bool.and_eq_true, beq_iff_eq] at h
  exact h.1.1

/-- What the module defines under the name is the function. -/
theorem Found.isDefinedBy (h : fn.Found) {d : Definition}
    (hd : d ∈ Embedded.definitions fn.module) (name : d.name = fn.name) : fn.isDefinedBy d := by
  obtain ⟨nodup, ⟨d', hd', defines⟩, -⟩ := h
  obtain rfl := List.inj_on_of_nodup_map nodup hd hd'
    (name.trans (name_eq_of_isDefinedBy defines).symm)
  exact defines

end LibraryFunction

/-- Definitions of different names bind them to their functions and leave other names alone. -/
theorem get?_defineAll {ds : List Definition} (nodup : (ds.map Definition.name).Nodup)
    (m : Machine) (x : String) :
    (m.defineAll ds).storage.get? x =
      ((Definition.bindings m.world.nextStamp ds).get? x).or (m.storage.get? x) := by
  rw [storage_defineAll, Storage.insertAll]
  exact Bindings.get?_foldl Storage.get?_insert (Definition.names_bindings .. ▸ nodup) ..

theorem exists_get?_defineAll {ds : List Definition} (nodup : (ds.map Definition.name).Nodup)
    (m : Machine) {d : Definition} (hd : d ∈ ds) :
    ∃ stamp, (m.defineAll ds).storage.get? d.name = some (d.function stamp) := by
  obtain ⟨stamp, hs⟩ := Definition.exists_mem_bindings m.world.nextStamp hd
  have bound := Bindings.get?_of_mem (Definition.names_bindings .. ▸ nodup) hs
  exact ⟨stamp, by rw [get?_defineAll nodup, bound]; rfl⟩

/-- A name is bound to the function that a definition of an embedded module makes. -/
def Storage.BoundFrom (s : Storage) (module name : String) : Prop :=
  ∃ d ∈ Embedded.definitions module, d.name = name ∧
    ∃ stamp, s.get? name = some (d.function stamp)

/-! ### The scope of a call -/

namespace Storage

variable {s : Storage} {scope : Bindings} {x : String}

theorem get?_restore_of_none (h : scope.get? x = none) : (s.restore [scope]).get? x = s.get? x := by
  simp only [get?_eq_or, scopes, restore, List.cons_append, List.nil_append, lookup_cons, h]
  rfl

theorem get?_restore_of_some (undeclared : x ∉ s.globalNames) {v : Atom}
    (h : scope.get? x = some v) : (s.restore [scope]).get? x = some v := by
  have local' : (s.restore [scope]).getGlobal? x = none := if_neg undeclared
  rw [get?_eq_or, local', scopes, restore]
  simp [lookup_cons, h]

theorem insert_restore (undeclared : x ∉ s.globalNames) (v : Atom) :
    (s.restore [scope]).insert x v = s.restore [scope.set x v] :=
  if_neg undeclared

theorem insertAll_restore {bs : Bindings} (undeclared : ∀ n ∈ bs.names, n ∉ s.globalNames) :
    (s.restore [scope]).insertAll bs = s.restore [scope.setAll bs] := by
  induction bs generalizing scope with
  | nil => rfl
  | cons b bs ih =>
    obtain ⟨first, rest⟩ := List.forall_mem_cons.mp undeclared
    show ((s.restore [scope]).insert b.1 b.2).insertAll bs = _
    rw [insert_restore first, ih rest]
    rfl

end Storage

namespace LibraryFunction

/-- In the machine the builtins that the function uses are at hand, and no name of its scope is
declared global. -/
structure Ready (fn : LibraryFunction) (m : Machine) : Prop where
  live : m.exit = none
  shows : ∀ p ∈ fn.builtins, m.storage.Shows p.1 p.2
  undeclared : ∀ x ∈ fn.names, x ∉ m.storage.globalNames

/-- The scope of a call in which the first names have values. -/
def scope (fn : LibraryFunction) (values : List Atom) : Bindings := fn.names.zip values

/-- The machine inside a call in whose scope the first names have values. -/
def inside (fn : LibraryFunction) (m : Machine) (values : List Atom) : Machine :=
  m.under [fn.scope values]

variable {fn : LibraryFunction} {m m₁ m' : Machine} {values values' : List Atom} {x : String}
  {a : Atom}

theorem Ready.of_storage_eq (ready : fn.Ready m) (h : m₁.storage = m.storage)
    (live : m₁.exit = none) : fn.Ready m₁ :=
  ⟨live, h ▸ ready.shows, h ▸ ready.undeclared⟩

theorem mem_names_of_scope (h : x ∈ (fn.scope values).names) : x ∈ fn.names := by
  obtain ⟨b, hb, rfl⟩ := List.mem_map.mp h
  exact (List.of_mem_zip hb).1

section

variable (ready : fn.Ready m)

include ready

theorem Ready.shows_inside {name : String} {b : Builtin} (h : (name, b) ∈ fn.builtins) :
    (fn.inside m values).storage.Shows name b := by
  refine Storage.shows_of_get?_eq (ready.shows _ h) (Storage.get?_restore_of_none ?_)
  rw [Bindings.get?_eq_none_iff]
  exact fun hn => fn.apart _ h (mem_names_of_scope hn)

theorem Ready.get?_inside (h : (fn.scope values).get? x = some a) :
    (fn.inside m values).storage.get? x = some a := by
  have bound : x ∈ (fn.scope values).names := Bindings.mem_names_iff.mpr ⟨a, h⟩
  exact Storage.get?_restore_of_some (ready.undeclared x (mem_names_of_scope bound)) h

theorem Ready.insert_inside (h : (fn.scope values).set x a = fn.scope values') :
    (Step.insert x a).apply (fn.inside m values) = fn.inside m values' := by
  have bound : x ∈ (fn.scope values').names := h ▸ Bindings.mem_names_set.mpr (.inl rfl)
  have undeclared := ready.undeclared x (mem_names_of_scope bound)
  show { m with storage := (m.storage.restore [fn.scope values]).insert x a } = _
  rw [Storage.insert_restore undeclared, h]
  rfl

/-- Entering a call binds the parameters in a scope of their own. -/
theorem Ready.enter_apply (count : values.length = fn.params.length) :
    (Step.enter (fn.params.zip values)).apply m = fn.inside m values := by
  have whole : fn.scope values = fn.params.zip values := by
    have parts : (fn.params ++ fn.locals).zip (values ++ []) = _ := List.zip_append count.symm
    simpa [scope, names] using parts
  have bound : (fn.scope values).names = fn.params := by
    rw [whole]
    exact List.map_fst_zip (Nat.le_of_eq count.symm)
  have nodup : (fn.scope values).names.Nodup :=
    bound ▸ fn.nodup.sublist (List.sublist_append_left ..)
  have undeclared : ∀ n ∈ (fn.scope values).names, n ∉ m.storage.globalNames :=
    fun n hn => ready.undeclared n (mem_names_of_scope hn)
  have empty : Bindings.names [] <+: (fn.scope values).names := List.nil_prefix
  show { m with storage := (m.storage.restore [[]]).insertAll (fn.params.zip values) } = _
  rw [← whole, Storage.insertAll_restore undeclared, Bindings.setAll_eq_of_prefix empty nodup]
  rfl

/-! ### Rules -/

theorem Ready.live_inside (values : List Atom) : (fn.inside m values).exit = none := ready.live

section

variable {steps depth : Nat}

theorem Ready.read (h : (fn.scope values).get? x = some a) :
    (Node.read x).Evaluates (engine steps depth) (fn.inside m values) (.ok a)
      (fn.inside m values) :=
  .read (ready.live_inside values) (ready.get?_inside h)

theorem Ready.sequence {result : Except Cause Atom} {args : List Node}
    (h : Node.EvaluateInTurn args (engine steps depth) .null (fn.inside m values) result m')
    (sequence : ("_", .variadic .sequence) ∈ fn.builtins := by decide) :
    (Node.apply "_" args).Evaluates (engine steps (depth + 1)) (fn.inside m values) result m' :=
  .sequence (ready.live_inside values) (ready.shows_inside sequence) h

end

end

/-- A name of the scope is assigned in the machine that the evaluation of the value leaves. -/
theorem Ready.assign {steps depth : Nat} {value : Node} (ready : fn.Ready m)
    (ready₁ : fn.Ready m₁)
    (h : value.Evaluates (engine steps depth) (fn.inside m values) (.ok a) (fn.inside m₁ values))
    (bound : (fn.scope values).set x a = fn.scope values')
    (assign : ("=", .binary .assign) ∈ fn.builtins := by decide) :
    (Node.apply "=" [.read x, value]).Evaluates (engine steps (depth + 1)) (fn.inside m values)
      (.ok .null) (fn.inside m₁ values') :=
  .assign (ready.live_inside values) (ready.shows_inside assign) h (ready₁.live_inside values)
    (ready₁.insert_inside bound)

/-! ### Calls -/

/-- A call of the function in the machine `m`: the name is bound to the function, and the arguments
have the given values and leave the machine `m'`. -/
structure Called (fn : LibraryFunction) (e : Engine) (m : Machine) (args : List Node)
    (values : List Atom) (m' : Machine) : Prop where
  live : m.exit = none
  bound : m.storage.BoundFrom fn.module fn.name
  passed : (evalAll e args).run m = (.ok values, m')
  ready : fn.Ready m'

theorem length_of_run_evalAll {e : Engine} {args : List Node}
    (h : (evalAll e args).run m = (.ok values, m')) : args.length = values.length := by
  induction values generalizing args m with
  | nil => rw [(of_run_evalAll_nil h).1, List.length_nil, List.length_nil]
  | cons value values ih =>
    obtain ⟨node, nodes, m₁, rfl, -, rest⟩ := of_run_evalAll_cons h
    rw [List.length_cons, List.length_cons, ih rest]

/-- Plain parameters are bound to the values of the arguments. -/
theorem run_bind_plain {e : Engine} (level : Nat) {names : List String} {args : List Node}
    (h : (evalAll e args).run m = (.ok values, m')) (count : values.length = names.length) :
    (Closure.bind e level (names.map .plain) args).run m =
      (.ok (names.zip values), m') := by
  induction names generalizing args values m with
  | nil =>
    obtain rfl := List.eq_nil_of_length_eq_zero count
    obtain ⟨rfl, rfl⟩ := of_run_evalAll_nil h
    rfl
  | cons name names ih =>
    cases values with
    | nil => cases count
    | cons value values =>
      obtain ⟨node, nodes, m₁, rfl, first, rest⟩ := of_run_evalAll_cons h
      have bound := ih rest (Nat.succ.inj count)
      show (e.eval node >>= fun value => _).run m = _
      rw [run_bind_of_ok first, run_bind_of_ok bound]
      rfl

/-- A call of a library function does what its body does in a scope of its own, and closes the
scope. -/
theorem Called.ends {steps depth : Nat} {args : List Node} {n : Machine}
    {result : Except Cause Atom} (called : fn.Called (engine steps depth) m args values m')
    (found : fn.Found) (count : values.length = fn.params.length)
    (h : fn.body.Evaluates (engine steps depth) (fn.inside m' values) result (fn.inside n values'))
    (doc : String) (span : Option Span) :
    ((engine steps (depth + 1)).eval (.call fn.name args doc span)).Ends m result n := by
  obtain ⟨d, hd, name, stamp, bound⟩ := called.bound
  have defines := found.isDefinedBy hd name
  let body := d.body.copied stamp
  have function : m.storage.getFunction fn.name = .ok (.closure [stamp] d.doc d.params body) := by
    rw [Storage.getFunction, bound]
    rfl
  have passed := run_bind_plain m.storage.depth called.passed count
  have params := params_eq_of_isDefinedBy defines
  have fits : Param.Fits d.params args.length := by
    rw [params, length_of_run_evalAll called.passed, count]
    exact Param.fits_plain fn.params
  have entered : (applyWith (engine steps depth) steps (.closure [stamp] d.doc d.params body) args
      fn.name doc).run m =
        (((engine steps depth).eval body).andFinally .leave).run (fn.inside m' values) := by
    rw [applyWith_of_fits steps [stamp] d.doc body fn.name doc fits, run_look,
      params, run_bind_of_ok passed, inScope, run_step,
      called.ready.enter_apply count]
  refine (ends_congr (run_eval_call steps depth called.live function args doc span)).mpr ?_
  refine Ends.traced ((ends_congr entered).mpr ?_) span
  exact (h body (unplaced_body_of_isDefinedBy defines stamp)).andFinally .leave

/-! ### Machines in which a library function can be called -/

theorem get?_builtinBindings {name : String} {b : Builtin} (h : (name, b) ∈ Builtin.table) :
    builtinBindings.get? name = some (.function (.builtin [] b)) :=
  Bindings.get?_of_mem nodup_builtinBindings (List.mem_map_of_mem h)

/-- A machine that knows the builtins only is ready for every library function. -/
theorem ready_start (fn : LibraryFunction) (world : World) : fn.Ready (.start world) := by
  refine ⟨rfl, fun p hp => ?_, fun x _ => List.not_mem_nil⟩
  have found : (Machine.start world).storage.get? p.1 = some (.function (.builtin [] p.2)) := by
    rw [Storage.get?_eq_or]
    show Option.or none (Storage.lookup p.1 [builtinBindings]) = _
    rw [Storage.lookup_cons, get?_builtinBindings (fn.listed p hp)]
    rfl
  exact ⟨[], by rw [Storage.getFunction, found]⟩

section

variable (found : fn.Found)

include found

/-- After the definitions of its module a library function is bound to its name. -/
theorem Found.boundFrom_defineAll (m : Machine) :
    (m.defineAll (Embedded.definitions fn.module)).storage.BoundFrom fn.module fn.name := by
  obtain ⟨d, hd, defines⟩ := found.2.1
  obtain ⟨stamp, hs⟩ := exists_get?_defineAll found.1 m hd
  have name := name_eq_of_isDefinedBy defines
  exact ⟨d, hd, name, stamp, name ▸ hs⟩

/-- The definitions of its module keep a machine ready for a library function. -/
theorem Found.ready_defineAll (ready : fn.Ready m) :
    fn.Ready (m.defineAll (Embedded.definitions fn.module)) := by
  refine ⟨(exit_defineAll ..).trans ready.live, fun p hp => ?_, fun x hx => ?_⟩
  · refine Storage.shows_of_get?_eq (ready.shows p hp) ?_
    have unbound : (Definition.bindings m.world.nextStamp
        (Embedded.definitions fn.module)).get? p.1 = none := by
      rw [Bindings.get?_eq_none_iff, Definition.names_bindings]
      exact found.2.2 p hp
    rw [get?_defineAll found.1, unbound]
    rfl
  · rw [storage_defineAll, Storage.globalNames_insertAll]
    exact ready.undeclared x hx

end

/-- A machine that knows the builtins and the definitions of the module of the function only. -/
def host (fn : LibraryFunction) : Machine :=
  (Machine.start {}).defineAll (Embedded.definitions fn.module)

theorem exit_host (fn : LibraryFunction) : fn.host.exit = none := exit_defineAll ..

theorem run_evalAll_write (steps depth : Nat) (live : m.exit = none) (values : List Atom) :
    (evalAll (engine steps depth) (values.map .write)).run m = (.ok values, m) := by
  induction values with
  | nil => rfl
  | cons value values ih =>
    show ((engine steps depth).eval (.write value) >>= _).run m = _
    rw [run_bind_of_ok (run_eval_literal steps depth live value none), run_bind_of_ok ih]
    rfl

theorem Found.called (found : fn.Found) (steps depth : Nat) (values : List Atom) :
    fn.Called (engine steps depth) fn.host (values.map .write) values fn.host where
  live := fn.exit_host
  bound := found.boundFrom_defineAll (.start {})
  passed := run_evalAll_write steps depth fn.exit_host values
  ready := found.ready_defineAll (ready_start fn {})

end LibraryFunction

end CallLang
