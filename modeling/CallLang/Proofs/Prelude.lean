import CallLang.Proofs.Merging

/-!
# The prelude

The prelude is a list of definitions (`Embedded.map_name_definitions`). A definition takes a stamp
and binds a name and does nothing else, so loading the prelude amounts to binding its names to new
functions (`run_loadPrelude`).
-/

namespace CallLang

open CallLang.Action CallLang.Builtin

/-! ### Definitions -/

/-- The definition of a function. -/
structure Definition where
  name : String
  doc : String
  params : List Param
  body : Node

namespace Definition

/-- The definition that an expression is. -/
def ofNode? : Node → Option Definition
  | .call name (target :: second :: rest) doc _ =>
    if name = "def" then
      match target.name?, Closure.checkedParams (second :: rest).dropLast with
      | some name, .ok params =>
        some ⟨name, doc, params, (second :: rest).getLast (List.cons_ne_nil _ _)⟩
      | _, _ => none
    else none
  | _ => none

/-- The function that a definition makes with a stamp. -/
def function (d : Definition) (stamp : Nat) : Atom :=
  .function (.closure [stamp] d.doc d.params (d.body.copied stamp))

/-- What a definition does to a machine. -/
def apply (d : Definition) (m : Machine) : Machine :=
  (Step.insert d.name (d.function m.world.nextStamp)).apply (Step.takeStamp.apply m)

/-- The names that definitions bind, with their functions; the first one gets the stamp `stamp`. -/
def bindings (stamp : Nat) : List Definition → Bindings
  | [] => []
  | d :: ds => (d.name, d.function stamp) :: bindings (stamp + 1) ds

theorem names_bindings (stamp : Nat) (ds : List Definition) :
    (bindings stamp ds).names = ds.map name := by
  induction ds generalizing stamp with
  | nil => rfl
  | cons d ds ih => exact congrArg (d.name :: ·) (ih (stamp + 1))

/-- No function of later definitions is one of the functions that there are already. -/
theorem fresh_of_mem_bindings {stamp : Nat} {ds : List Definition} {b : String × Atom}
    (h : b ∈ bindings stamp ds) :
    ∃ k doc params body, b.2 = .function (.closure [k] doc params body) ∧ stamp ≤ k := by
  induction ds generalizing stamp with
  | nil => cases h
  | cons d ds ih =>
    rcases List.mem_cons.mp h with rfl | h
    · exact ⟨stamp, _, _, _, rfl, Nat.le_refl _⟩
    · obtain ⟨k, doc, params, body, hb, hk⟩ := ih h
      exact ⟨k, doc, params, body, hb, Nat.le_of_succ_le hk⟩

theorem exists_of_ofNode? {node : Node} {d : Definition} (h : ofNode? node = some d) :
    ∃ target second rest span, node = .call "def" (target :: second :: rest) d.doc span ∧
      target.name? = some d.name ∧
      Closure.checkedParams (second :: rest).dropLast = .ok d.params ∧
      (second :: rest).getLast (List.cons_ne_nil _ _) = d.body := by
  unfold ofNode? at h
  split at h
  · rename_i name target second rest doc span
    split at h
    · rename_i hname
      split at h
      · rename_i name params ht hp
        obtain rfl := Option.some.inj h
        exact ⟨target, second, rest, span, hname ▸ rfl, ht, hp, rfl⟩
      · cases h
    · cases h
  · cases h

/-- A definition is evaluated by binding its name, as long as `def` is the builtin. -/
theorem run_eval (steps depth : Nat) {d : Definition} {node : Node} (h : ofNode? node = some d)
    {m : Machine} (exit : m.exit = none) {stamp : Stamp}
    (hf : m.storage.getFunction "def" = .ok (.builtin stamp (.variadic .define))) :
    ((engine steps (depth + 1)).eval node).run m = (.ok .null, d.apply m) := by
  obtain ⟨target, second, rest, span, rfl, ht, hp, hb⟩ := exists_of_ofNode? h
  have defined : (Control.define d.doc (target :: second :: rest)).run m =
      (.ok .null, d.apply m) := by
    rw [Control.define, nameOf_bind, ht]
    dsimp only
    rw [Closure.define_bind, hp, hb]
    rfl
  have called : (applyWith (engine steps depth) steps (.builtin stamp (.variadic .define))
      (target :: second :: rest) "def" d.doc).run m = (.ok .null, d.apply m) := defined
  rw [run_eval_call steps depth exit hf, run_traced, called]

end Definition

/-! ### Programs that consist of definitions -/

/-- A name stands for a builtin. -/
def Storage.Shows (s : Storage) (name : String) (b : Builtin) : Prop :=
  ∃ stamp, s.getFunction name = .ok (.builtin stamp b)

theorem Storage.shows_of_get?_eq {s t : Storage} {name : String} {b : Builtin}
    (h : s.Shows name b) (ht : t.get? name = s.get? name) : t.Shows name b := by
  obtain ⟨stamp, hs⟩ := h
  refine ⟨stamp, ?_⟩
  rw [getFunction] at hs ⊢
  rw [ht, hs]

/-- The machine after definitions. -/
def Machine.defineAll (m : Machine) (ds : List Definition) : Machine :=
  ds.foldl (fun m d => d.apply m) m

section

variable (m : Machine) (ds : List Definition)

theorem storage_defineAll :
    (m.defineAll ds).storage =
      m.storage.insertAll (Definition.bindings m.world.nextStamp ds) := by
  induction ds generalizing m with
  | nil => rfl
  | cons d ds ih => exact ih (d.apply m)

theorem exit_defineAll : (m.defineAll ds).exit = m.exit := by
  induction ds generalizing m with
  | nil => rfl
  | cons d ds ih => exact ih (d.apply m)

theorem baseline_defineAll : (m.defineAll ds).baseline = m.baseline := by
  induction ds generalizing m with
  | nil => rfl
  | cons d ds ih => exact ih (d.apply m)

end

/-- Definitions are evaluated one after the other; none of them may take `def` away. -/
theorem run_sequence_definitions (steps depth : Nat) {nodes : List Node} {ds : List Definition}
    (hd : nodes.map Definition.ofNode? = ds.map some) (names : "def" ∉ ds.map Definition.name)
    {m : Machine} (exit : m.exit = none) (hf : m.storage.Shows "def" (.variadic .define)) :
    (Control.sequence (engine steps (depth + 1)) .null nodes).run m =
      (.ok .null, m.defineAll ds) := by
  induction ds generalizing nodes m with
  | nil =>
    obtain rfl := List.map_eq_nil_iff.mp hd
    rfl
  | cons d ds ih =>
    cases nodes with
    | nil => cases hd
    | cons node nodes =>
      obtain ⟨first, rest⟩ := List.cons.inj hd
      rw [List.map_cons, List.mem_cons, not_or] at names
      obtain ⟨hname, hnames⟩ := names
      have kept : (d.apply m).storage.Shows "def" (.variadic .define) := by
        refine Storage.shows_of_get?_eq hf ?_
        show (m.storage.insert d.name _).get? "def" = _
        rw [Storage.get?_insert, if_neg hname]
      obtain ⟨stamp, hs⟩ := hf
      rw [Control.sequence, run_bind, Definition.run_eval steps depth first exit hs]
      exact ih rest hnames exit kept

/-- A program is the sequence of its expressions, as long as `_` is the builtin. -/
theorem run_eval_program (steps depth : Nat) {m : Machine} (exit : m.exit = none)
    (hs : m.storage.Shows "_" (.variadic .sequence)) (nodes : List Node) (doc : String)
    (span : Option Span) {value : Atom} {m' : Machine}
    (h : (Control.sequence (engine steps depth) .null nodes).run m = (.ok value, m')) :
    ((engine steps (depth + 1)).eval (.call "_" nodes doc span)).run m = (.ok value, m') := by
  obtain ⟨stamp, hs⟩ := hs
  have called : (applyWith (engine steps depth) steps (.builtin stamp (.variadic .sequence)) nodes
      "_" doc).run m = (.ok value, m') := h
  rw [run_eval_call steps depth exit hs, run_traced, called]

/-! ### The texts of the embedded modules -/

/-- The characters of lines. -/
inductive Spelled : List String → List (List Char) → Prop where
  | nil : Spelled [] []
  | cons {line : String} {ls : List String} {cs : List Char} {css : List (List Char)} :
    line = String.ofList cs → Spelled ls css → Spelled (line :: ls) (cs :: css)

theorem Spelled.toList_lines {ls : List String} {css : List (List Char)} (h : Spelled ls css) :
    (lines ls).toList = ['\n'].intercalate css := by
  have map : ls.map String.toList = css := by
    induction h with
    | nil => rfl
    | cons hl _ ih => rw [List.map_cons, ih, hl, String.toList_ofList]
  rw [lines, String.toList_intercalate, map]
  rfl

/-- The characters of a text, as a list that can be evaluated. -/
structure Spelling (text : String) where
  chars : List Char
  toList_eq : text.toList = chars

/-- The characters of the lines of a text are put together. -/
def Spelling.ofLines {ls : List String} {css : List (List Char)} (h : Spelled ls css) :
    Spelling (lines ls) :=
  ⟨['\n'].intercalate css, h.toList_lines⟩

/-- The program that characters stand for. -/
def Node.ofChars (source : Option Source) (cs : List Char) : Except Fault Node :=
  match Lexer.feedAll source {} (locatedFrom .start cs) with
  | .ok lexer => lexer.finish source >>= Node.ofTokens
  | .error fault => .error fault

theorem Node.parse_eq_ofChars (text : String) (source : Option Source) :
    Node.parse text source = Node.ofChars source text.toList := by
  unfold Node.parse Token.scan Node.ofChars located
  cases Lexer.feedAll source {} (locatedFrom .start text.toList) <;> rfl

theorem Spelling.parse_eq {text : String} (s : Spelling text) (source : Option Source) :
    Node.parse text source = Node.ofChars source s.chars := by
  rw [Node.parse_eq_ofChars, s.toList_eq]

namespace Embedded

def preludeSpelling : Spelling prelude := by
  apply Spelling.ofLines
  repeat first | exact .nil | apply Spelled.cons rfl

def mathSpelling : Spelling math := by
  apply Spelling.ofLines
  repeat first | exact .nil | apply Spelled.cons rfl

def stringsSpelling : Spelling strings := by
  apply Spelling.ofLines
  repeat first | exact .nil | apply Spelled.cons rfl

/-- The names that the prelude defines. -/
def preludeNames : List String := ["!=", "range", "map", "filter", "sum"]

def preludeIdentity : String := "<stl:prelude>"

/-- The names that the expressions of a program define. -/
def definedNames? : Except Fault Node → Option (List (Option String))
  | .ok (.call name nodes _ _) =>
    if name = "_" then
      some (nodes.map fun node => (Definition.ofNode? node).map Definition.name)
    else none
  | _ => none

theorem definedNames?_prelude :
    definedNames? (Node.parse prelude (some ⟨preludeIdentity, prelude⟩)) =
      some (preludeNames.map some) := by
  rw [preludeSpelling.parse_eq]
  decide +kernel

theorem map_eq_some {α β γ : Type} {f : α → Option β} {g : β → γ} {xs : List α} {ys : List γ}
    (h : xs.map (fun x => (f x).map g) = ys.map some) :
    ∃ zs : List β, xs.map f = zs.map some ∧ zs.map g = ys := by
  induction xs generalizing ys with
  | nil =>
    obtain rfl := List.map_eq_nil_iff.mp h.symm
    exact ⟨[], rfl, rfl⟩
  | cons x xs ih =>
    cases ys with
    | nil => cases h
    | cons y ys =>
      obtain ⟨first, rest⟩ := List.cons.inj h
      obtain ⟨z, hz, rfl⟩ := Option.map_eq_some_iff.mp first
      obtain ⟨zs, hzs, rfl⟩ := ih rest
      exact ⟨z :: zs, by simp [hz, hzs], rfl⟩

theorem exists_of_definedNames? {result : Except Fault Node} {names : List String}
    (h : definedNames? result = some (names.map some)) :
    ∃ (nodes : List Node) (doc : String) (span : Option Span) (ds : List Definition),
      result = .ok (.call "_" nodes doc span) ∧
      nodes.map Definition.ofNode? = ds.map some ∧ ds.map Definition.name = names := by
  unfold definedNames? at h
  split at h
  · rename_i name nodes doc span
    split at h
    · rename_i hname
      subst hname
      obtain ⟨ds, hd, hn⟩ := map_eq_some (Option.some.inj h)
      exact ⟨nodes, doc, span, ds, rfl, hd, hn⟩
    · cases h
  · cases h

end Embedded

/-! ### Loading -/

/-- The machine in which a machine runs the prelude. -/
def Machine.forPrelude (m : Machine) : Machine :=
  m.nested none Embedded.preludeIdentity true (m.importStack ++ [Embedded.preludeIdentity])

/-- The machine after `inner`, the machine that has run the prelude, was imported. -/
def Machine.withPrelude (m inner : Machine) : Machine :=
  let storage := m.storage.extend inner.exported inner.storage.globals
  { m with
    world := inner.world.countMerge
    storage := storage
    preludeLoaded := true
    baseline := storage.outermost }

/-- The outcome of a text without exits is the value of its program. -/
theorem run_execute_of_eval {e : Engine} {prepare : Action Unit} {source : Source}
    {m m' m'' : Machine} {program : Node} {value : Atom} (hm : prepare.run m = (.ok (), m'))
    (hp : Node.parse source.text (some source) = .ok program)
    (he : (e.eval program).run m' = (.ok value, m'')) (exit : m''.exit = none) :
    (execute e prepare source).run m = (.ok (.ok value), m'') := by
  have body : (do
      prepare
      let program ← ofOutcome (Node.parse source.text (some source))
      e.eval program).run m = (.ok value, m'') := by
    rw [run_bind, hm]
    dsimp only
    rw [hp, ofOutcome_bind]
    exact he
  rw [execute, run_bind, run_contain, body]
  show (Except.ok (m''.exit.getD (.ok value)), m'') = _
  rw [exit]
  rfl

theorem resolve_prelude (files : Files) :
    ModuleText.resolve files none Embedded.preludeName =
      .ok ⟨Embedded.preludeIdentity, none, Embedded.prelude, true⟩ := by
  have name : ModuleText.isName Embedded.preludeName := by decide
  have identity : "<stl:" ++ Embedded.preludeName ++ ">" = Embedded.preludeIdentity := by decide
  have found : ModuleText.embedded? Embedded.preludeName =
      some ⟨Embedded.preludeIdentity, none, Embedded.prelude, true⟩ := by
    rw [ModuleText.embedded?, identity, Embedded.text?, if_pos rfl]
    rfl
  rw [ModuleText.resolve, if_pos name, found]
  rfl

/-- Loading the prelude imports the nested machine that has run it. -/
theorem run_loadPrelude_of_execute {e : Engine} {m inner : Machine} {value : Atom}
    (wanted : m.usePrelude = true) (unloaded : m.preludeLoaded = false)
    (acyclic : Embedded.preludeIdentity ∉ m.importStack)
    (ran : (execute e (pure ()) ⟨Embedded.preludeIdentity, Embedded.prelude⟩).run m.forPrelude =
      (.ok (.ok value), inner))
    (exit : inner.exit = none) : (loadPrelude e).run m = (.ok (), m.withPrelude inner) := by
  have imported := run_importWith (m := Step.beginPrelude.apply m) true
    (resolve_prelude m.world.files) acyclic ran
  rw [run_settle, exit] at imported
  rw [loadPrelude, machine_bind, run_look, unloaded, wanted]
  show (take .beginPrelude >>= _).run m = _
  rw [take_bind, run_step, run_bind, imported]
  rfl

/-- Loading the prelude binds its names to new functions in a nested machine and imports that. -/
theorem run_loadPrelude (steps depth : Nat) {m : Machine} (wanted : m.usePrelude = true)
    (unloaded : m.preludeLoaded = false) (acyclic : Embedded.preludeIdentity ∉ m.importStack)
    (hs : m.forPrelude.storage.Shows "_" (.variadic .sequence))
    (hd : m.forPrelude.storage.Shows "def" (.variadic .define)) :
    ∃ ds : List Definition, ds.map Definition.name = Embedded.preludeNames ∧
      (loadPrelude (engine steps (depth + 2))).run m =
        (.ok (), m.withPrelude (m.forPrelude.defineAll ds)) := by
  obtain ⟨nodes, doc, span, ds, hp, hds, names⟩ :=
    Embedded.exists_of_definedNames? Embedded.definedNames?_prelude
  have notDef : "def" ∉ ds.map Definition.name := by rw [names]; decide
  have exit : (m.forPrelude.defineAll ds).exit = none := exit_defineAll m.forPrelude ds
  have sequence := run_sequence_definitions steps depth hds notDef (m := m.forPrelude) rfl hd
  have program := run_eval_program steps (depth + 1) (m := m.forPrelude) rfl hs nodes doc span
    sequence
  have ran : (execute (engine steps (depth + 2)) (pure ())
      ⟨Embedded.preludeIdentity, Embedded.prelude⟩).run m.forPrelude =
        (.ok (.ok .null), m.forPrelude.defineAll ds) :=
    run_execute_of_eval rfl hp program exit
  exact ⟨ds, names, run_loadPrelude_of_execute wanted unloaded acyclic ran exit⟩

end CallLang
