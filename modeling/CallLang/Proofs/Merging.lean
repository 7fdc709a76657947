import CallLang.Proofs.Scopes

/-!
# What an import merges

Binding a name changes what that name stands for and nothing else, whether the name is a local or a
global one. What a module leaves behind is bound name by name, so after an import a name stands for
what it stood for in the module if the module has bound it, and for what it stood for before
otherwise.

Names are bound at most once in a scope (`Storage.Distinct`). Every step keeps that, so it holds
after every run.
-/

namespace CallLang

open CallLang.Action

namespace Bindings

variable {bs : Bindings} {name : String} {value : Atom}

theorem mem_names_iff : name ∈ bs.names ↔ ∃ value, bs.get? name = some value := by
  induction bs with
  | nil => simp [names]
  | cons b bs ih =>
    obtain ⟨n, v⟩ := b
    by_cases h : n = name
    · simp [names, get?, h]
    · have apart : ¬name = n := fun e => h e.symm
      simpa [names, get?, h, apart] using ih

theorem get?_eq_none_iff : bs.get? name = none ↔ name ∉ bs.names := by
  rw [mem_names_iff, Option.eq_none_iff_forall_ne_some, not_exists]

/-- Binding a name adds it at the end, unless it is bound already. -/
theorem names_set (bs : Bindings) (name : String) (value : Atom) :
    (bs.set name value).names = if name ∈ bs.names then bs.names else bs.names ++ [name] := by
  induction bs with
  | nil => simp [set, names]
  | cons b bs ih =>
    obtain ⟨n, v⟩ := b
    by_cases h : n = name
    · simp [set, names, h]
    · have apart : ¬name = n := fun e => h e.symm
      have cons : (set ((n, v) :: bs) name value).names = n :: (set bs name value).names := by
        simp [set, names, h]
      have bound : name ∈ names ((n, v) :: bs) ↔ name ∈ names bs := by simp [names, apart]
      rw [cons, ih]
      simp only [bound]
      split <;> rfl

theorem nodup_names_set (h : bs.names.Nodup) (name : String) (value : Atom) :
    (bs.set name value).names.Nodup := by
  rw [names_set]
  split
  · exact h
  · rename_i hn
    refine List.nodup_append.mpr ⟨h, by simp, ?_⟩
    rintro other ho _ hs rfl
    exact hn (List.mem_singleton.mp hs ▸ ho)

theorem nodup_names_filter (h : bs.names.Nodup) (p : String × Atom → Bool) :
    (names (bs.filter p)).Nodup :=
  h.sublist (List.filter_sublist.map _)

theorem nodup_names_erase (h : bs.names.Nodup) (name : String) : (bs.erase name).names.Nodup :=
  nodup_names_filter h _

/-- A filter on bindings looks at the one binding of a name. -/
theorem get?_filter (h : bs.names.Nodup) (p : String × Atom → Bool) (name : String) :
    get? (bs.filter p) name = (bs.get? name).filter fun value => p (name, value) := by
  induction bs with
  | nil => rfl
  | cons b bs ih =>
    obtain ⟨n, v⟩ := b
    obtain ⟨hn, hbs⟩ := List.nodup_cons.mp h
    have rest := ih hbs
    by_cases hname : n = name
    · subst hname
      have others : get? bs n = none := get?_eq_none_iff.mpr hn
      by_cases hp : p (n, v) <;> simp [hp, get?, rest, others, Option.filter]
    · by_cases hp : p (n, v) <;> simp [hp, get?, hname, rest]

/-- If binding a name changes what it stands for and nothing else, then names that are bound one
after the other stand for their new values and all others for what they stood for. -/
theorem get?_foldl {σ : Type} {read : σ → String → Option Atom} {bind : σ → String → Atom → σ}
    (hbind : ∀ s name other value,
      read (bind s name value) other = if other = name then some value else read s other)
    (h : bs.names.Nodup) (s : σ) (name : String) :
    read (bs.foldl (fun s b => bind s b.1 b.2) s) name = (bs.get? name).or (read s name) := by
  induction bs generalizing s with
  | nil => rfl
  | cons b bs ih =>
    obtain ⟨n, v⟩ := b
    obtain ⟨hn, hbs⟩ := List.nodup_cons.mp h
    rw [List.foldl_cons, ih hbs, hbind, get?]
    by_cases hname : n = name
    · subst hname
      have others : get? bs n = none := get?_eq_none_iff.mpr hn
      simp [others]
    · have apart : ¬name = n := fun e => hname e.symm
      simp [hname, apart]

end Bindings

namespace Storage

variable {s : Storage}

/-! ### Reading what was bound -/

theorem get?_eq_or (name : String) :
    s.get? name = (s.getGlobal? name).or (lookup name s.scopes) := by
  rw [get?]
  cases s.getGlobal? name <;> rfl

theorem lookup_cons (name : String) (scope : Bindings) (scopes : List Bindings) :
    lookup name (scope :: scopes) = (scope.get? name).or (lookup name scopes) := by
  rw [lookup]
  cases scope.get? name <;> rfl

theorem get?_insertLocal (name other : String) (value : Atom) :
    lookup other (s.insertLocal name value).scopes =
      if other = name then some value else lookup other s.scopes := by
  unfold insertLocal scopes
  cases s.inner with
  | nil =>
    simp only [List.nil_append, lookup_cons, Bindings.get?_set]
    split <;> rfl
  | cons scope inner =>
    simp only [List.cons_append, lookup_cons, Bindings.get?_set]
    split <;> rfl

theorem get?_insert (s : Storage) (name other : String) (value : Atom) :
    (s.insert name value).get? other = if other = name then some value else s.get? other := by
  simp only [get?_eq_or]
  by_cases h : name ∈ s.globalNames
  · simp only [insert, if_pos h, getGlobal?, Bindings.get?_set]
    by_cases ho : other = name
    · subst ho
      simp [h]
    · simp only [if_neg ho]
      rfl
  · have globals : (s.insertLocal name value).getGlobal? other = s.getGlobal? other := by
      unfold insertLocal
      split <;> rfl
    simp only [insert, if_neg h, globals, get?_insertLocal]
    by_cases ho : other = name
    · subst ho
      simp [getGlobal?, h]
    · simp only [if_neg ho]

theorem get?_addGlobal (s : Storage) (name other : String) (value : Atom) :
    (s.addGlobal name value).get? other = if other = name then some value else s.get? other := by
  simp only [get?_eq_or, getGlobal?, addGlobal, Bindings.get?_set]
  by_cases ho : other = name
  · subst ho
    by_cases h : other ∈ s.globalNames <;> simp [h]
  · have declared : (other ∈ if name ∈ s.globalNames then s.globalNames
        else s.globalNames ++ [name]) ↔ other ∈ s.globalNames := by
      split <;> simp [ho]
    simp only [declared, if_neg ho]
    rfl

theorem get?_extend {bindings globals : Bindings} (hb : bindings.names.Nodup)
    (hg : globals.names.Nodup) (s : Storage) (name : String) :
    (s.extend bindings globals).get? name =
      ((globals.get? name).or (bindings.get? name)).or (s.get? name) := by
  rw [extend, Bindings.get?_foldl get?_addGlobal hg, insertAll, Bindings.get?_foldl get?_insert hb,
    Option.or_assoc]

/-- At the top level a name stands for its global value, if it has one, and else for its value in
the outermost scope. -/
theorem get?_of_flat (wellFormed : s.WellFormed) (flat : s.inner = []) (name : String) :
    s.get? name = (s.globals.get? name).or (s.outermost.get? name) := by
  have global : s.getGlobal? name = s.globals.get? name := by
    rw [getGlobal?]
    split
    · rfl
    · rename_i h
      exact (Bindings.get?_eq_none_iff.mpr fun hn => h (wellFormed name hn)).symm
  rw [get?_eq_or, global, scopes, flat, List.nil_append, lookup_cons, lookup, Option.or_none]

/-! ### Names are bound once -/

/-- In the outermost scope and among the globals a name is bound at most once. -/
structure Distinct (s : Storage) : Prop where
  outermost : s.outermost.names.Nodup
  globals : s.globals.names.Nodup

theorem distinct_insert (h : s.Distinct) (name : String) (value : Atom) :
    (s.insert name value).Distinct := by
  rw [insert]
  split
  · exact ⟨h.outermost, Bindings.nodup_names_set h.globals name value⟩
  · unfold insertLocal
    split
    · exact ⟨h.outermost, h.globals⟩
    · exact ⟨Bindings.nodup_names_set h.outermost name value, h.globals⟩

theorem distinct_insertAll (h : s.Distinct) (bindings : Bindings) :
    (s.insertAll bindings).Distinct := by
  induction bindings generalizing s with
  | nil => exact h
  | cons b bindings ih => exact ih (distinct_insert h b.1 b.2)

theorem distinct_extend (h : s.Distinct) (bindings globals : Bindings) :
    (s.extend bindings globals).Distinct := by
  have inserted := distinct_insertAll h bindings
  rw [extend]
  generalize s.insertAll bindings = t at inserted
  induction globals generalizing t with
  | nil => exact inserted
  | cons b globals ih =>
    exact ih _ ⟨inserted.outermost, Bindings.nodup_names_set inserted.globals b.1 b.2⟩

theorem distinct_declareGlobal (h : s.Distinct) (name : String) :
    (s.declareGlobal name).Distinct := by
  rw [declareGlobal]
  split
  · exact h
  · dsimp only
    split
    · exact ⟨h.outermost, Bindings.nodup_names_set h.globals _ _⟩
    · split
      · exact ⟨Bindings.nodup_names_erase h.outermost name, Bindings.nodup_names_set h.globals _ _⟩
      · exact ⟨h.outermost, h.globals⟩

end Storage

/-- Every step keeps names distinct: scopes that are opened, hidden or closed are inner ones. -/
theorem Step.distinct_apply (s : Step) {m : Machine} (h : m.storage.Distinct) :
    (s.apply m).storage.Distinct := by
  cases s with
  | insert name value => exact Storage.distinct_insert h name value
  | declareGlobal name => exact Storage.distinct_declareGlobal h name
  | merge _ bindings globals => exact Storage.distinct_extend h bindings globals
  | enter params =>
    have opened : m.storage.push.Distinct := ⟨h.outermost, h.globals⟩
    exact Storage.distinct_insertAll opened params
  | _ => exact ⟨h.outermost, h.globals⟩

theorem Action.distinct_run {α : Type} (act : Action α) {m : Machine} (h : m.storage.Distinct) :
    (act.run m).2.storage.Distinct := by
  induction act generalizing m with
  | done r => exact h
  | look k ih => exact ih m h
  | step s act ih => exact ih (s.distinct_apply h)

theorem nodup_builtinBindings : builtinBindings.names.Nodup := by decide +kernel

theorem Machine.distinct_nested {m : Machine} (h : m.storage.Distinct) (directory : Option Path)
    (name : String) (embedded : Bool) (stack : List String) :
    (m.nested directory name embedded stack).storage.Distinct :=
  ⟨nodup_builtinBindings, h.globals⟩

/-! ### Imports -/

/-- Whether a program leaves a name bound at its top level to a value that is not one and the same
as the value in its baseline. -/
def Machine.Exports (m : Machine) (name : String) : Prop :=
  ∃ value, m.storage.outermost.get? name = some value ∧
    ∀ old, m.baseline.get? name = some old →
      old.isOne (m.world.identical m.world.merges name) value = false

namespace Machine

variable {m : Machine} {name : String}

theorem isNew_iff (value : Atom) :
    Storage.isNew (m.world.identical m.world.merges) m.baseline (name, value) ↔
      ∀ old, m.baseline.get? name = some old →
        old.isOne (m.world.identical m.world.merges name) value = false := by
  rw [Storage.isNew]
  cases m.baseline.get? name <;> simp

theorem get?_exported (h : m.storage.Distinct) (name : String) :
    m.exported.get? name =
      (m.storage.outermost.get? name).filter fun value =>
        Storage.isNew (m.world.identical m.world.merges) m.baseline (name, value) :=
  Bindings.get?_filter h.outermost _ name

theorem get?_exported_of_exports (h : m.storage.Distinct) (hn : m.Exports name) :
    m.exported.get? name = m.storage.outermost.get? name := by
  obtain ⟨value, bound, new⟩ := hn
  simp [get?_exported h, bound, (isNew_iff value).mpr new]

theorem exports_iff (h : m.storage.Distinct) (name : String) :
    m.Exports name ↔ name ∈ m.exported.names := by
  rw [Bindings.mem_names_iff]
  constructor
  · rintro ⟨value, bound, new⟩
    exact ⟨value, (get?_exported_of_exports h ⟨value, bound, new⟩).trans bound⟩
  · rintro ⟨value, hv⟩
    rw [get?_exported h] at hv
    obtain ⟨bound, new⟩ := Option.filter_eq_some_iff.mp hv
    exact ⟨value, bound, (isNew_iff value).mp new⟩

end Machine

/-- After a run in a nested machine all calls have returned. -/
theorem inner_runText_nested (limits : Limits) {m : Machine} (h : m.storage.WellFormed)
    (source : Source) (directory : Option Path) (name : String) (embedded : Bool)
    (stack : List String) :
    let inner := ((runText limits.engine source).run (m.nested directory name embedded stack)).2
    inner.storage.WellFormed ∧ inner.storage.inner = [] := by
  intro inner
  have evolves := (Disciplined.hereditary.runText limits source
    (m.nested directory name embedded stack) h).2
  have depth : inner.storage.inner.length + 1 = 1 := evolves.depth
  exact ⟨evolves.wellFormed, List.eq_nil_of_length_eq_zero (Nat.succ.inj depth)⟩

theorem get?_extend_exported {m inner : Machine} (wellFormed : inner.storage.WellFormed)
    (flat : inner.storage.inner = []) (distinct : inner.storage.Distinct) (name : String) :
    let after := m.storage.extend inner.exported inner.storage.globals
    (inner.Exports name ∨ name ∈ inner.storage.globals.names →
      after.get? name = inner.storage.get? name) ∧
    (¬(inner.Exports name ∨ name ∈ inner.storage.globals.names) →
      after.get? name = m.storage.get? name) := by
  intro after
  have nodup : inner.exported.names.Nodup :=
    Bindings.nodup_names_filter distinct.outermost _
  have merged : after.get? name = _ := Storage.get?_extend nodup distinct.globals m.storage name
  rw [merged, Storage.get?_of_flat wellFormed flat]
  refine ⟨fun hn => ?_, fun hn => ?_⟩
  · -- a name that is both comes from the globals, in the module and in the importer
    cases global : inner.storage.globals.get? name with
    | some value => rfl
    | none =>
      have notGlobal := Bindings.get?_eq_none_iff.mp global
      obtain ⟨value, bound, new⟩ := hn.resolve_right notGlobal
      have exported := Machine.get?_exported_of_exports distinct ⟨value, bound, new⟩
      rw [exported, bound]
      rfl
  · obtain ⟨notExported, notGlobal⟩ := not_or.mp hn
    rw [Machine.exports_iff distinct] at notExported
    rw [Bindings.get?_eq_none_iff.mpr notGlobal, Bindings.get?_eq_none_iff.mpr notExported]
    rfl

/-- After the import of a module that ends with a value, every name that the module exports or has
among its globals stands for what it stands for in the module, and every other name for what it
stood for before. After the import of a module that ends in another way or exits, all bindings are
as before. -/
theorem import_merges (limits : Limits) (m : Machine) (wellFormed : m.storage.WellFormed)
    (distinct : m.storage.Distinct) (name : String) (embeddedOnly : Bool) {found : ModuleText}
    (hf : ModuleText.resolve m.world.files (if embeddedOnly then none else m.directory) name =
      .ok found)
    (acyclic : found.identity ∉ m.importStack) :
    let module := (runText limits.engine ⟨found.identity, found.text⟩).run
      (m.nested found.directory found.identity found.embedded (m.importStack ++ [found.identity]))
    let after := (importModule limits.engine name embeddedOnly).run m
    (∀ value, module.1 = .ok (.ok value) → module.2.exit = none →
      after.1 = .ok value ∧
      ∀ n, (module.2.Exports n ∨ n ∈ module.2.storage.globals.names →
          after.2.storage.get? n = module.2.storage.get? n) ∧
        (¬(module.2.Exports n ∨ n ∈ module.2.storage.globals.names) →
          after.2.storage.get? n = m.storage.get? n)) ∧
    ((¬∃ value, module.1 = .ok (.ok value)) ∨ module.2.exit.isSome →
      after.2.storage = m.storage) := by
  intro module after
  obtain ⟨innerWellFormed, flat⟩ := inner_runText_nested limits wellFormed
    ⟨found.identity, found.text⟩ found.directory found.identity found.embedded
    (m.importStack ++ [found.identity])
  have innerDistinct : module.2.storage.Distinct :=
    distinct_run _ (Machine.distinct_nested distinct ..)
  have settled (outcome : Outcome) (ho : module.1 = .ok outcome) : after = _ :=
    run_importWith embeddedOnly hf acyclic (Prod.ext ho rfl)
  simp only [run_settle] at settled
  refine ⟨fun value hv exit => ?_, fun failed => ?_⟩
  · rw [settled _ hv, exit]
    exact ⟨rfl, fun n => get?_extend_exported innerWellFormed flat innerDistinct n⟩
  · cases ho : module.1 with
    | error reason =>
      have stopped : after = _ := run_importWith_of_error embeddedOnly hf acyclic (Prod.ext ho rfl)
      rw [stopped]
    | ok outcome =>
      rw [settled _ ho]
      cases exit : module.2.exit with
      | some stored => rfl
      | none =>
        have valueless := failed.resolve_right (by simp [exit])
        cases outcome with
        | error fault => rfl
        | ok value => exact absurd ⟨value, ho⟩ valueless

/-- A call that has a local `x`, in a directory with one module. -/
def Machine.beside (text : String) : Machine :=
  { world := { files := { contents := [(["lib.re"], .ok text)] } }
    storage := { outermost := builtinBindings, inner := [[("x", .int 0)]] }
    directory := some []
    usePrelude := false }

/-- A module that assigns the name of a local of the importing call. -/
theorem import_merges_in_call :
    (Machine.beside "=(x, 1)").storage.WellFormed ∧ (Machine.beside "=(x, 1)").storage.Distinct ∧
      (((importModule (Limits.mk 2 0).engine "lib").run
        (Machine.beside "=(x, 1)")).2.storage.get? "x").map Atom.display = some "1" := by
  have wellFormed : (Machine.beside "=(x, 1)").storage.WellFormed :=
    fun _ h => absurd h List.not_mem_nil
  have distinct : (Machine.beside "=(x, 1)").storage.Distinct :=
    ⟨nodup_builtinBindings, List.nodup_nil⟩
  have found : ModuleText.resolve (Machine.beside "=(x, 1)").world.files
      (Machine.beside "=(x, 1)").directory "lib" =
        .ok ⟨"/lib.re", some [], "=(x, 1)", false⟩ := rfl
  have merged := import_merges ⟨2, 0⟩ _ wellFormed distinct "lib" false found List.not_mem_nil
  obtain ⟨-, names⟩ := merged.1 .null rfl rfl
  have exports := (Machine.exports_iff
    (distinct_run (runText (Limits.mk 2 0).engine ⟨"/lib.re", "=(x, 1)"⟩)
      (Machine.distinct_nested distinct (some []) "/lib.re" false ["/lib.re"])) "x").mpr
    (by decide +kernel)
  refine ⟨wellFormed, distinct, ?_⟩
  rw [(names "x").1 (.inl exports)]
  decide +kernel

end CallLang
