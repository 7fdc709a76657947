import CallLang.Proofs.Library
import CallLang.Proofs.Sessions

/-!
# Imports of embedded modules

An embedded module is a list of definitions, so its import binds the names of its functions to them
(`import_binds_definitions`), and so does loading the prelude (`loading_binds_definitions`). From
then on a program can call the functions under their names.
-/

namespace CallLang

open CallLang.Action CallLang.Builtin

namespace Embedded

/-- The text of an embedded module consists of definitions, and their names are different from each
other and from the names of all builtins. -/
structure Definitional (module : String) (found : ModuleText) : Prop where
  text : ModuleText.embedded? module = some found
  parsed : ∃ nodes doc span,
    Node.parse found.text (some ⟨found.identity, found.text⟩) = .ok (.call "_" nodes doc span) ∧
      nodes.map Definition.ofNode? = (definitions module).map some
  nodup : ((definitions module).map Definition.name).Nodup
  apart : ∀ n ∈ (definitions module).map Definition.name, n ∉ builtinBindings.names

theorem filterMap_of_map_some {α β : Type} {f : α → Option β} {xs : List α} {ys : List β}
    (h : xs.map f = ys.map some) : xs.filterMap f = ys := by
  have mapped : (xs.map f).filterMap id = ys := by
    rw [h]
    simp [List.filterMap_map]
  simpa [List.filterMap_map] using mapped

/-- It suffices to know the names that the text defines. -/
theorem definitional_of_names {module : String} {found : ModuleText} (names : List String)
    (text : ModuleText.embedded? module = some found)
    (defined : definedNames? (Node.parse found.text (some ⟨found.identity, found.text⟩)) =
      some (names.map some))
    (nodup : names.Nodup) (apart : ∀ n ∈ names, n ∉ builtinBindings.names) :
    Definitional module found := by
  obtain ⟨nodes, doc, span, ds, parsed, hds, rfl⟩ := exists_of_definedNames? defined
  have all : definitions module = ds := by
    rw [definitions, text]
    dsimp only
    rw [parsed]
    exact filterMap_of_map_some hds
  subst all
  exact ⟨text, ⟨nodes, doc, span, parsed, hds⟩, nodup, apart⟩

theorem definitional_prelude :
    Definitional preludeName ⟨preludeIdentity, none, prelude, true⟩ :=
  definitional_of_names _ rfl definedNames?_prelude (by decide) (by decide +kernel)

theorem definitional_math : Definitional "math" ⟨"<stl:math>", none, math, true⟩ := by
  refine definitional_of_names ["abs", "min", "max", "pow"] rfl ?_ (by decide) (by decide +kernel)
  rw [mathSpelling.parse_eq]
  decide +kernel

theorem definitional_strings : Definitional "strings" ⟨"<stl:strings>", none, strings, true⟩ := by
  refine definitional_of_names ["join", "repeat"] rfl ?_ (by decide) (by decide +kernel)
  rw [stringsSpelling.parse_eq]
  decide +kernel

/-- All embedded modules consist of definitions. -/
theorem definitional_of_embedded {module : String} {found : ModuleText}
    (h : ModuleText.embedded? module = some found) : Definitional module found := by
  obtain ⟨text, ht, rfl⟩ := Option.map_eq_some_iff.mp h
  rw [text?] at ht
  split at ht
  · subst module
    obtain rfl := Option.some.inj ht
    exact definitional_prelude
  · split at ht
    · subst module
      obtain rfl := Option.some.inj ht
      exact definitional_math
    · split at ht
      · subst module
        obtain rfl := Option.some.inj ht
        exact definitional_strings
      · cases ht

end Embedded

/-! ### What is bound after an import -/

section

variable {module : String} {found : ModuleText} (definitional : Embedded.Definitional module found)
  {m : Machine} (wellFormed : m.storage.WellFormed) (distinct : m.storage.Distinct)

include definitional wellFormed distinct

/-- What a nested machine leaves behind, after the definitions of a module, are the functions of the
module. -/
theorem boundFrom_extend (directory : Option Path) (name : String) (embedded : Bool)
    (stack : List String) {d : Definition} (hd : d ∈ Embedded.definitions module) :
    let inner := (m.nested directory name embedded stack).defineAll (Embedded.definitions module)
    (m.storage.extend inner.exported inner.storage.globals).BoundFrom module d.name := by
  intro inner
  let nested := m.nested directory name embedded stack
  have storage : inner.storage = nested.storage.insertAll (Definition.bindings nested.world.nextStamp
      (Embedded.definitions module)) := storage_defineAll ..
  have innerDistinct : inner.storage.Distinct :=
    storage ▸ Storage.distinct_insertAll (Machine.distinct_nested distinct ..) _
  have innerWellFormed : inner.storage.WellFormed :=
    storage ▸ (Storage.evolves_insertAll (s := nested.storage) wellFormed _).wellFormed
  have flat : inner.storage.inner = [] := by
    rw [storage, Storage.insertAll_flat rfl]
    rfl
  have baseline : inner.baseline = builtinBindings := baseline_defineAll ..
  obtain ⟨stamp, bound⟩ := exists_get?_defineAll definitional.nodup nested hd
  have seen : inner.Exports d.name ∨ d.name ∈ inner.storage.globals.names := by
    have value : inner.storage.get? d.name = some (d.function stamp) := bound
    rw [Storage.get?_of_flat innerWellFormed flat] at value
    cases global : inner.storage.globals.get? d.name with
    | some a => exact .inr (Bindings.mem_names_iff.mpr ⟨a, global⟩)
    | none =>
      rw [global] at value
      refine .inl ⟨d.function stamp, value, fun old hold => ?_⟩
      -- the name is not the one of a builtin
      rw [baseline] at hold
      have builtin := Bindings.mem_names_iff.mpr ⟨old, hold⟩
      exact absurd builtin (definitional.apart _ (List.mem_map_of_mem hd))
  have kept := (get?_extend_exported (m := m) innerWellFormed flat innerDistinct d.name).1 seen
  exact ⟨d, hd, rfl, stamp, kept.trans bound⟩

end

/-! ### Imports -/

section

variable {module : String} {found : ModuleText} (definitional : Embedded.Definitional module found)
  (steps depth : Nat)

include definitional

/-- A run of the text of an embedded module makes its definitions. -/
theorem run_execute_definitional {n : Machine} (live : n.exit = none)
    (hs : n.storage.Shows "_" (.variadic .sequence)) (hd : n.storage.Shows "def" (.variadic .define))
    {prepare : Action Unit} (hp : prepare.run n = (.ok (), n)) :
    (execute (engine steps (depth + 2)) prepare ⟨found.identity, found.text⟩).run n =
      (.ok (.ok .null), n.defineAll (Embedded.definitions module)) := by
  obtain ⟨nodes, doc, span, parsed, hds⟩ := definitional.parsed
  have notDef : "def" ∉ (Embedded.definitions module).map Definition.name := fun h =>
    definitional.apart _ h (by decide +kernel)
  have sequence := run_sequence_definitions steps depth hds notDef live hd
  have program := run_eval_program steps (depth + 1) live hs nodes doc span sequence
  exact run_execute_of_eval hp parsed program ((exit_defineAll ..).trans live)

end

/-- The import of an embedded module binds its names to its functions, as long as no global value
takes the place of the builtins that the module needs. -/
theorem import_binds_definitions (steps depth : Nat) {m : Machine}
    (wellFormed : m.storage.WellFormed) (distinct : m.storage.Distinct)
    (hs : m.storage.Unhidden "_" (.variadic .sequence))
    (hd : m.storage.Unhidden "def" (.variadic .define)) {module : String} {found : ModuleText}
    (resolved : ModuleText.resolve m.world.files m.directory module = .ok found)
    (embedded : ModuleText.embedded? module = some found)
    (acyclic : found.identity ∉ m.importStack) :
    ∃ m', (importModule (engine steps (depth + 2)) module).run m = (.ok .null, m') ∧
      ∀ d ∈ Embedded.definitions module, m'.storage.BoundFrom module d.name := by
  have definitional := Embedded.definitional_of_embedded embedded
  have embedded : found.embedded = true := by
    obtain ⟨text, -, rfl⟩ := Option.map_eq_some_iff.mp embedded
    rfl
  let nested := m.nested found.directory found.identity found.embedded
    (m.importStack ++ [found.identity])
  let inner := nested.defineAll (Embedded.definitions module)
  have equipped : nested.isEquipped := by
    simp [nested, Machine.isEquipped, Machine.nested, embedded]
  have sequence : nested.storage.Shows "_" (.variadic .sequence) :=
    Machine.shows_nested _ _ _ _ hs rfl
  have define : nested.storage.Shows "def" (.variadic .define) :=
    Machine.shows_nested _ _ _ _ hd rfl
  have ran := run_execute_definitional definitional steps depth (n := nested) rfl sequence define
    (run_loadPrelude_of_isEquipped (e := engine steps (depth + 2)) equipped)
  have imported := run_importWith false resolved acyclic ran
  have exit : inner.exit = none := exit_defineAll ..
  rw [run_settle, exit] at imported
  refine ⟨_, imported, fun d hd => ?_⟩
  exact boundFrom_extend definitional wellFormed distinct found.directory found.identity
    found.embedded _ hd

theorem storage_withPrelude (m inner : Machine) :
    (m.withPrelude inner).storage = m.storage.extend inner.exported inner.storage.globals := rfl

/-- Loading the prelude binds its names to its functions, in the same way. -/
theorem loading_binds_definitions (steps depth : Nat) {m : Machine}
    (wellFormed : m.storage.WellFormed) (distinct : m.storage.Distinct)
    (hs : m.storage.Unhidden "_" (.variadic .sequence))
    (hd : m.storage.Unhidden "def" (.variadic .define)) (wanted : m.usePrelude = true)
    (unloaded : m.preludeLoaded = false) (acyclic : Embedded.preludeIdentity ∉ m.importStack) :
    ∃ m', (loadPrelude (engine steps (depth + 2))).run m = (.ok (), m') ∧
      ∀ d ∈ Embedded.definitions Embedded.preludeName,
        m'.storage.BoundFrom Embedded.preludeName d.name := by
  have sequence : m.forPrelude.storage.Shows "_" (.variadic .sequence) :=
    Machine.shows_nested _ _ _ _ hs rfl
  have define : m.forPrelude.storage.Shows "def" (.variadic .define) :=
    Machine.shows_nested _ _ _ _ hd rfl
  have ran : (execute (engine steps (depth + 2)) (pure ())
      ⟨Embedded.preludeIdentity, Embedded.prelude⟩).run m.forPrelude =
        (.ok (.ok .null), m.forPrelude.defineAll (Embedded.definitions Embedded.preludeName)) :=
    run_execute_definitional Embedded.definitional_prelude steps depth rfl sequence define rfl
  have exit : (m.forPrelude.defineAll (Embedded.definitions Embedded.preludeName)).exit = none :=
    exit_defineAll ..
  have loaded := run_loadPrelude_of_execute wanted unloaded acyclic ran exit
  refine ⟨_, loaded, fun d hd => ?_⟩
  rw [storage_withPrelude, Machine.forPrelude]
  exact boundFrom_extend Embedded.definitional_prelude wellFormed distinct none
    Embedded.preludeIdentity true _ hd

end CallLang
