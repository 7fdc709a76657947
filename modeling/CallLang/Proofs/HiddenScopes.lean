import CallLang.Proofs.Declarations
import CallLang.Proofs.Rebinding
import CallLang.Proofs.Values
import Mathlib.Data.List.Induction

/-!
# Globals and hidden scopes

A storage in use goes through operations one after the other; between `hide` and `restore` some of
its scopes are hidden. What a global is assigned is kept and read for ever. A name that is declared
global moves from the scopes to the globals, but only visible scopes give up their bindings: a
binding that is hidden then comes back with its scope, and it is read as long as the global has no
value. This is the only way in which a declared name is read from a scope
(`declared_read_as_assigned_iff`).
-/

namespace CallLang

namespace Storage

/-! ### Bound names -/

/-- Whether one of `scopes` binds a name. -/
def Bound (name : String) (scopes : List Bindings) : Prop :=
  ∃ scope ∈ scopes, name ∈ scope.names

variable {s : Storage} {g name : String} {value : Atom}

theorem bound_append {front back : List Bindings} :
    Bound g (front ++ back) ↔ Bound g front ∨ Bound g back := by
  simp only [Bound, List.mem_append, or_and_right, exists_or]

theorem Bound.of_subset {scopes others : List Bindings} (h : Bound g scopes)
    (sub : scopes ⊆ others) : Bound g others := by
  obtain ⟨scope, hs, hg⟩ := h
  exact ⟨scope, sub hs, hg⟩

theorem lookup_eq_none_iff {scopes : List Bindings} : lookup g scopes = none ↔ ¬Bound g scopes := by
  induction scopes with
  | nil => simp [lookup, Bound]
  | cons scope scopes ih =>
    rw [lookup_cons, Option.or_eq_none_iff, Bindings.get?_eq_none_iff, ih]
    simp [Bound]

theorem bound_iff_mem_names {scopes : List Bindings} :
    Bound g scopes ↔ g ∈ Bindings.names scopes.flatten := by
  simp only [Bound, Bindings.names, List.mem_map, List.mem_flatten]
  constructor
  · rintro ⟨scope, hs, b, hb, rfl⟩
    exact ⟨b, ⟨scope, hs, hb⟩, rfl⟩
  · rintro ⟨b, ⟨scope, hs, hb⟩, rfl⟩
    exact ⟨scope, hs, b, hb, rfl⟩

/-- An assignment binds a declared name in no scope. -/
theorem bound_insert (declared : g ∈ s.globalNames) (h : Bound g (s.insert name value).scopes) :
    Bound g s.scopes := by
  rw [insert] at h
  split at h
  · exact h
  · rename_i undeclared
    have other : g ≠ name := fun e => undeclared (e ▸ declared)
    refine not_imp_not.mp (fun unseen => ?_) h
    rw [← lookup_eq_none_iff] at unseen ⊢
    rwa [get?_insertLocal, if_neg other]

/-- A declaration binds nothing in a scope. -/
theorem bound_declareGlobal (h : Bound g (s.declareGlobal name).scopes) : Bound g s.scopes := by
  rw [declareGlobal] at h
  split at h
  · exact h
  · rw [scopes, bound_append] at h ⊢
    dsimp only at h
    split at h
    · rename_i value inner taken
      refine h.imp_left fun inside => ?_
      rw [bound_iff_mem_names] at inside ⊢
      exact List.map_subset _ (mem_of_takeOut taken).2 inside
    · split at h
      · refine h.imp_right fun outside => ?_
        rw [bound_iff_mem_names] at outside ⊢
        simp only [List.flatten_singleton] at outside ⊢
        exact List.map_subset _ List.filter_sublist.subset outside
      · exact h

/-- A declaration makes the value that a name has in the scopes its global value. -/
theorem globals_declareGlobal (undeclared : name ∉ s.globalNames) :
    (s.declareGlobal name).globals =
      s.globals.setAll ((lookup name s.scopes).map (name, ·)).toList := by
  rw [scopes, lookup_append, ← map_takeOut, declareGlobal, if_neg undeclared]
  dsimp only
  cases taken : takeOut name s.inner with
  | some found => rfl
  | none =>
    have outside : lookup name [s.outermost] = s.outermost.get? name := by
      rw [lookup_cons]
      exact Option.or_none
    simp only [Option.map_none, Option.none_or, outside]
    cases s.outermost.get? name <;> rfl

/-! ### Operations -/

/-- An operation on a storage. -/
inductive Op where
  | insert (name : String) (value : Atom)
  | declareGlobal (name : String)
  | addGlobal (name : String) (value : Atom)
  | push
  | pop
  /-- Hides all scopes but the `depth` lowest ones. -/
  | hide (depth : Nat)
  /-- Puts back the scopes that were hidden last. -/
  | restore

/-- A storage in use: what is visible of it, and the scopes that are hidden, those that were hidden
last first. -/
structure InUse where
  storage : Storage
  hidden : List (List Bindings)

namespace InUse

/-- A storage that nothing has been done to. -/
def fresh (builtins : Bindings) : InUse := ⟨{ outermost := builtins }, []⟩

/-- The scopes that come back next. -/
def comingBack (u : InUse) : List Bindings := u.hidden.headD []

/-- All scopes, visible or not. -/
def everywhere (u : InUse) : List Bindings := u.hidden.flatten ++ u.storage.scopes

end InUse

namespace Op

/-- What an operation does. The outermost scope cannot be closed, and nothing comes back if nothing
is hidden. -/
def apply : Op → InUse → InUse
  | insert name value, u => { u with storage := u.storage.insert name value }
  | declareGlobal name, u => { u with storage := u.storage.declareGlobal name }
  | addGlobal name value, u => { u with storage := u.storage.addGlobal name value }
  | push, u => { u with storage := u.storage.push }
  | pop, u => { u with storage := u.storage.pop }
  | hide depth, u => ⟨u.storage.truncate depth, u.storage.hidden depth :: u.hidden⟩
  | restore, u => ⟨u.storage.restore u.comingBack, u.hidden.tail⟩

/-- The global that an operation assigns and its value. The declaration of a name that has a value
in the scopes assigns it. -/
def assignment? : Op → Storage → Option (String × Atom)
  | insert name value, s => if name ∈ s.globalNames then some (name, value) else none
  | declareGlobal name, s =>
    if name ∈ s.globalNames then none else (lookup name s.scopes).map (name, ·)
  | addGlobal name value, _ => some (name, value)
  | _, _ => none

end Op

namespace InUse

/-- The storage after operations. -/
def run (u : InUse) (ops : List Op) : InUse := ops.foldl (fun u op => op.apply u) u

/-- The globals that operations assign, with their values, in the order of the assignments. -/
def assigned : InUse → List Op → Bindings
  | _, [] => []
  | u, op :: ops => (op.assignment? u.storage).toList ++ assigned (op.apply u) ops

/-- A name is obscured if it is not declared global and bound in hidden scopes only. -/
structure Obscured (u : InUse) (g : String) : Prop where
  undeclared : g ∉ u.storage.globalNames
  unseen : ¬Bound g u.storage.scopes
  hidden : Bound g u.hidden.flatten

/-- A name is trapped if it is declared global and has no value, but a scope binds it, be it
hidden. -/
structure Trapped (u : InUse) (g : String) : Prop where
  declared : g ∈ u.storage.globalNames
  valueless : g ∉ u.storage.globals.names
  bound : Bound g u.everywhere

/-- A name is exposed if it is declared global and has no value, but a visible scope binds it. -/
structure Exposed (u : InUse) (g : String) : Prop where
  declared : g ∈ u.storage.globalNames
  valueless : g ∉ u.storage.globals.names
  seen : Bound g u.storage.scopes

theorem Exposed.trapped {u : InUse} (h : u.Exposed g) : u.Trapped g :=
  ⟨h.declared, h.valueless, bound_append.mpr (.inr h.seen)⟩

theorem comingBack_subset (u : InUse) : u.comingBack ⊆ u.hidden.flatten := by
  unfold comingBack
  cases u.hidden with
  | nil => exact List.nil_subset _
  | cons scopes hidden => exact List.subset_append_left _ _

end InUse

/-! ### One operation -/

namespace Op

variable {u : InUse} {op : Op}

theorem wellFormed_apply (h : u.storage.WellFormed) : (op.apply u).storage.WellFormed := by
  cases op with
  | insert name value => exact (evolves_insert h name value).wellFormed
  | declareGlobal name => exact (evolves_declareGlobal h name).wellFormed
  | addGlobal name value => exact (evolves_addGlobal h name value).wellFormed
  | push | pop | hide | restore => exact h

theorem globals_apply (op : Op) (u : InUse) :
    (op.apply u).storage.globals =
      u.storage.globals.setAll (op.assignment? u.storage).toList := by
  cases op with
  | insert name value =>
    have assigned := u.storage.globals_insertAll_eq [(name, value)]
    rw [assignment?]
    refine assigned.trans ?_
    by_cases h : name ∈ u.storage.globalNames <;> simp [h]
  | declareGlobal name =>
    rw [apply, assignment?]
    by_cases h : name ∈ u.storage.globalNames
    · rw [Storage.declareGlobal, if_pos h, if_pos h]
      rfl
    · rw [if_neg h]
      exact globals_declareGlobal h
  | addGlobal | push | pop | hide | restore => rfl

theorem globalNames_apply (h : g ∈ u.storage.globalNames) :
    g ∈ (op.apply u).storage.globalNames := by
  cases op with
  | insert name value =>
    show g ∈ (u.storage.insert name value).globalNames
    rwa [globalNames_insert]
  | declareGlobal name => exact mem_globalNames_declareGlobal.mpr (.inl h)
  | addGlobal name value => exact mem_globalNames_addGlobal.mpr (.inl h)
  | push | pop | hide | restore => exact h

/-- A declared name is seen in a scope only if it was seen there before or the scope has come
back. -/
theorem bound_scopes_apply (declared : g ∈ u.storage.globalNames)
    (h : Bound g (op.apply u).storage.scopes) :
    Bound g u.storage.scopes ∨ op = restore ∧ Bound g u.comingBack := by
  cases op with
  | insert name value => exact .inl (bound_insert declared h)
  | declareGlobal name => exact .inl (bound_declareGlobal h)
  | addGlobal name value => exact .inl h
  | push =>
    obtain ⟨scope, hs, hg⟩ := h
    rcases List.mem_cons.mp hs with rfl | hs
    · cases hg
    · exact .inl ⟨scope, hs, hg⟩
  | pop => exact .inl (h.of_subset ((List.tail_sublist _).append_right _).subset)
  | hide depth => exact .inl (h.of_subset ((List.drop_sublist _ _).append_right _).subset)
  | restore =>
    rw [apply, Storage.restore, scopes, List.append_assoc, bound_append] at h
    exact h.symm.imp_right fun back => ⟨rfl, back⟩

/-- A scope that is hidden was hidden before or visible. -/
theorem bound_hidden_apply (h : Bound g (op.apply u).hidden.flatten) : Bound g u.everywhere := by
  rw [InUse.everywhere, bound_append]
  cases op with
  | hide depth =>
    rw [apply, List.flatten_cons, bound_append] at h
    refine h.symm.imp_right fun hidden => hidden.of_subset ?_
    exact List.subset_append_of_subset_left _ (List.take_subset _ _)
  | restore =>
    refine .inl ?_
    rw [apply] at h
    cases hidden : u.hidden with
    | nil => simpa [hidden] using h
    | cons scopes rest =>
      rw [hidden] at h
      exact bound_append.mpr (.inr h)
  | insert | declareGlobal | addGlobal | push | pop => exact .inl h

/-- An operation that leaves a name without a value found it without one. -/
theorem valueless_of_apply (h : g ∉ (op.apply u).storage.globals.names) :
    g ∉ u.storage.globals.names := by
  intro value
  rw [globals_apply] at h
  exact h ((Bindings.names_prefix_setAll _ _).subset value)

/-- A name gets trapped by its declaration at a moment when it is obscured, and in no other way. -/
theorem trapped_of_apply (h : (op.apply u).Trapped g) :
    u.Trapped g ∨ op = declareGlobal g ∧ u.Obscured g := by
  have valueless := valueless_of_apply h.valueless
  by_cases declared : g ∈ u.storage.globalNames
  · refine .inl ⟨declared, valueless, ?_⟩
    rcases bound_append.mp h.bound with hidden | seen
    · exact bound_hidden_apply hidden
    · rw [InUse.everywhere, bound_append]
      rcases bound_scopes_apply declared seen with seen | ⟨-, back⟩
      · exact .inr seen
      · exact .inl (back.of_subset u.comingBack_subset)
  · -- the operation declares the name; if it also gave it a value, the name would not be trapped
    have now := h.declared
    cases op with
    | insert name value =>
      refine absurd ?_ declared
      rwa [apply, globalNames_insert] at now
    | declareGlobal name =>
      obtain rfl := (mem_globalNames_declareGlobal.mp now).resolve_left declared
      have unseen : ¬Bound g u.storage.scopes := by
        rw [← lookup_eq_none_iff]
        cases found : lookup g u.storage.scopes with
        | none => rfl
        | some value =>
          refine absurd ?_ h.valueless
          rw [apply, globals_declareGlobal declared, found]
          exact Bindings.mem_names_set.mpr (.inl rfl)
      have hidden := (bound_append.mp h.bound).resolve_right fun seen =>
        unseen (bound_declareGlobal seen)
      exact .inr ⟨rfl, declared, unseen, hidden⟩
    | addGlobal name value =>
      obtain rfl := (mem_globalNames_addGlobal.mp now).resolve_left declared
      exact absurd (Bindings.mem_names_set.mpr (.inl rfl)) h.valueless
    | push | pop | hide | restore => exact absurd now declared

/-- A name gets exposed when it is trapped and a scope that binds it comes back. -/
theorem exposed_of_apply (h : (op.apply u).Exposed g) :
    u.Exposed g ∨ op = restore ∧ u.Trapped g ∧ Bound g u.comingBack := by
  rcases trapped_of_apply h.trapped with trapped | ⟨rfl, obscured⟩
  · rcases bound_scopes_apply trapped.declared h.seen with seen | ⟨rfl, back⟩
    · exact .inl ⟨trapped.declared, trapped.valueless, seen⟩
    · exact .inr ⟨rfl, trapped, back⟩
  · exact absurd (bound_declareGlobal h.seen) obscured.unseen

end Op

/-! ### Runs -/

namespace InUse

variable {u : InUse} {ops : List Op}

theorem run_run (u : InUse) (front back : List Op) :
    (u.run front).run back = u.run (front ++ back) :=
  List.foldl_append.symm

theorem run_concat (u : InUse) (ops : List Op) (op : Op) :
    u.run (ops ++ [op]) = op.apply (u.run ops) :=
  (u.run_run ops [op]).symm

theorem wellFormed_run (h : u.storage.WellFormed) (ops : List Op) :
    (u.run ops).storage.WellFormed := by
  induction ops generalizing u with
  | nil => exact h
  | cons op ops ih => exact ih (Op.wellFormed_apply h)

theorem globalNames_run (h : g ∈ u.storage.globalNames) (ops : List Op) :
    g ∈ (u.run ops).storage.globalNames := by
  induction ops generalizing u with
  | nil => exact h
  | cons op ops ih => exact ih (Op.globalNames_apply h)

/-- The globals after operations are those from before with all that was assigned. -/
theorem globals_run (u : InUse) (ops : List Op) :
    (u.run ops).storage.globals = u.storage.globals.setAll (u.assigned ops) := by
  induction ops generalizing u with
  | nil => rfl
  | cons op ops ih =>
    show ((op.apply u).run ops).storage.globals = _
    rw [ih, Op.globals_apply, assigned, Bindings.setAll, Bindings.setAll, Bindings.setAll,
      List.foldl_append]

/-- A trapped name was declared at a moment when it was obscured. -/
theorem exists_declaration_of_trapped (free : g ∉ u.storage.globalNames)
    (h : (u.run ops).Trapped g) :
    ∃ before between, ops = before ++ .declareGlobal g :: between ∧ (u.run before).Obscured g := by
  induction ops using List.reverseRecOn with
  | nil => exact absurd h.declared free
  | append_singleton ops op ih =>
    rw [run_concat] at h
    rcases Op.trapped_of_apply h with trapped | ⟨rfl, obscured⟩
    · obtain ⟨before, between, rfl, obscured⟩ := ih trapped
      exact ⟨before, between ++ [op], by simp, obscured⟩
    · exact ⟨ops, [], rfl, obscured⟩

/-- An exposed name was declared at a moment when it was obscured, and it was trapped until a scope
that binds it came back. -/
theorem exists_restore_of_exposed (free : g ∉ u.storage.globalNames)
    (h : (u.run ops).Exposed g) :
    ∃ before between, before ++ .declareGlobal g :: (between ++ [.restore]) <+: ops ∧
      (u.run before).Obscured g ∧
      (u.run (before ++ .declareGlobal g :: between)).Trapped g ∧
      Bound g (u.run (before ++ .declareGlobal g :: between)).comingBack := by
  induction ops using List.reverseRecOn with
  | nil => exact absurd h.declared free
  | append_singleton ops op ih =>
    rw [run_concat] at h
    -- the operations are taken back until the name is not exposed any more
    rcases Op.exposed_of_apply h with exposed | ⟨rfl, trapped, back⟩
    · obtain ⟨before, between, front, rest⟩ := ih exposed
      exact ⟨before, between, front.trans (List.prefix_append _ _), rest⟩
    · obtain ⟨before, between, rfl, obscured⟩ := exists_declaration_of_trapped free trapped
      exact ⟨before, between, by simp, obscured, trapped, back⟩

section Fresh

variable (builtins : Bindings)

theorem get?_globals_fresh (ops : List Op) (g : String) :
    ((fresh builtins).run ops).storage.globals.get? g =
      ((fresh builtins).assigned ops).latest? g := by
  rw [globals_run, Bindings.get?_setAll_eq]
  exact Option.or_none

theorem mem_names_globals_fresh :
    g ∈ ((fresh builtins).run ops).storage.globals.names ↔
      g ∈ ((fresh builtins).assigned ops).names := by
  rw [← not_iff_not, ← Bindings.get?_eq_none_iff, get?_globals_fresh, Bindings.latest?_eq_none_iff]

/-- A declared name is read as it was assigned last, and from the scopes if it never was. -/
theorem get?_fresh (declared : g ∈ ((fresh builtins).run ops).storage.globalNames) :
    ((fresh builtins).run ops).storage.get? g =
      (((fresh builtins).assigned ops).latest? g).or
        (lookup g ((fresh builtins).run ops).storage.scopes) := by
  rw [get?_eq_or, getGlobal?, if_pos declared, get?_globals_fresh]

/-- A declared name that has a value, or is bound in no visible scope, is read as it was assigned
last. -/
theorem get?_fresh_of_apart (declared : g ∈ ((fresh builtins).run ops).storage.globalNames)
    (apart : g ∈ ((fresh builtins).run ops).storage.globals.names ∨
      ¬Bound g ((fresh builtins).run ops).storage.scopes) :
    ((fresh builtins).run ops).storage.get? g = ((fresh builtins).assigned ops).latest? g := by
  rw [get?_fresh builtins declared]
  rcases apart with value | unseen
  · obtain ⟨last, hl⟩ := Bindings.mem_names_iff.mp value
    rw [get?_globals_fresh] at hl
    rw [hl, Option.some_or]
  · rw [lookup_eq_none_iff.mpr unseen, Option.or_none]

/-- A scope that comes back exposes the names that it binds and that were declared in the meantime
and not assigned. -/
theorem exposed_of_comingBack {before between : List Op}
    (unassigned :
      g ∉ ((fresh builtins).assigned (before ++ .declareGlobal g :: between)).names)
    (back : Bound g ((fresh builtins).run (before ++ .declareGlobal g :: between)).comingBack) :
    ((fresh builtins).run (before ++ .declareGlobal g :: (between ++ [.restore]))).Exposed g := by
  rw [← List.cons_append, ← List.append_assoc, run_concat]
  refine ⟨?_, mt (mem_names_globals_fresh builtins).mp unassigned, ?_⟩
  · rw [← run_run]
    exact globalNames_run (mem_globalNames_declareGlobal.mpr (.inr rfl)) between
  · exact bound_append.mpr (.inl (bound_append.mpr (.inl back)))

end Fresh

end InUse

/-- Whatever is done with a fresh storage: at all times a declared global has a value or is bound in
no visible scope, and it is read as it was assigned last, if and only if no scope comes back that
binds it and was hidden when it was declared, as long as nothing is assigned to it. A global that
was assigned is always read as it was assigned last. -/
theorem declared_read_as_assigned_iff (builtins : Bindings) (ops : List Op) (g : String) :
    let start := InUse.fresh builtins
    ((∀ front, front <+: ops → g ∈ (start.run front).storage.globalNames →
        (g ∈ (start.run front).storage.globals.names ∨
          ¬Bound g (start.run front).storage.scopes) ∧
        (start.run front).storage.get? g = (start.assigned front).latest? g) ↔
      ∀ before between, before ++ .declareGlobal g :: (between ++ [.restore]) <+: ops →
        (start.run before).Obscured g →
        g ∉ (start.assigned (before ++ .declareGlobal g :: between)).names →
        ¬Bound g (start.run (before ++ .declareGlobal g :: between)).comingBack) ∧
    ∀ value, (start.assigned ops).latest? g = some value →
      (start.run ops).storage.get? g = some value := by
  intro start
  refine ⟨⟨?_, ?_⟩, ?_⟩
  · intro good before between front _ unassigned back
    have exposed := InUse.exposed_of_comingBack builtins unassigned back
    rcases (good _ front exposed.declared).1 with value | unseen
    · exact exposed.valueless value
    · exact unseen exposed.seen
  · intro quiet front hf declared
    have apart : g ∈ (start.run front).storage.globals.names ∨
        ¬Bound g (start.run front).storage.scopes := by
      by_cases value : g ∈ (start.run front).storage.globals.names
      · exact .inl value
      · refine .inr fun seen => ?_
        obtain ⟨before, between, earlier, obscured, trapped, back⟩ :=
          InUse.exists_restore_of_exposed (u := start) List.not_mem_nil ⟨declared, value, seen⟩
        exact quiet before between (earlier.trans hf) obscured
          (mt (InUse.mem_names_globals_fresh builtins).mpr trapped.valueless) back
    exact ⟨apart, InUse.get?_fresh_of_apart builtins declared apart⟩
  · intro value last
    have declared : g ∈ (start.run ops).storage.globalNames := by
      refine InUse.wellFormed_run (u := start) (fun _ h => by cases h) ops g ?_
      exact (InUse.mem_names_globals_fresh builtins).mpr (Bindings.mem_names_of_latest? last)
    rw [InUse.get?_fresh builtins declared, last, Option.some_or]

/-- A name is bound in a scope, the scope is hidden, the name is declared global, and the scope
comes back: the global that was never assigned is read from the scope. -/
theorem declared_read_from_scope :
    let ops := [.push, .insert "x" (.int 5), .hide 1, .declareGlobal "x", .restore]
    let u := (InUse.fresh []).run ops
    u.hidden = [] ∧ "x" ∈ u.storage.globalNames ∧ "x" ∉ u.storage.globals.names ∧
      Bound "x" u.storage.scopes ∧ (InUse.fresh []).assigned ops = [] ∧
      u.storage.get? "x" = some (.int 5) := by
  refine ⟨rfl, by decide, by decide, ?_, rfl, rfl⟩
  exact ⟨[("x", .int 5)], List.mem_cons_self, List.mem_cons_self⟩

end Storage

/-- A program comes to this if the argument of a call declares a global: it does not see the scope
of the call, where the name is bound. -/
example :
    let ran := Machine.bare.run .generous "def(f, $a, _(=(x, 5), a(), x)), f(global(x))" ""
    ran.1.toOption.map Atom.display = some "5" ∧ ran.2.storage.globalNames = ["x"] ∧
      ran.2.storage.globals.names = [] := by
  decide +kernel

end CallLang
