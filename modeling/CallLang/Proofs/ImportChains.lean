import CallLang.Proofs.Reachable
import Mathlib.Data.List.Dedup
import Mathlib.Data.List.Perm.Subperm

/-!
# Chains of imports

A machine that imports a module starts another machine, whose import stack has the identity of the
module on top, and a machine that evaluates a text starts one with the same import stack. A module
is not imported while it is being imported, and there are only the files of one directory and the
embedded modules to import, so a chain of nested imports never repeats a module and is bounded.

`Step.Linked` says how the machines that run at a moment are made from each other, and
`Machine.Arises` closes a machine under steps and under starting further machines, so that machines
which end without having taken a step are among them.
-/

namespace CallLang

open CallLang.Action

/-! ### Modules that there are -/

/-- The identities of the embedded modules. -/
def Embedded.identities : List String := ["<stl:prelude>", "<stl:math>", "<stl:strings>"]

theorem Embedded.mem_identities {name text : String} (h : Embedded.text? name = some text) :
    "<stl:" ++ name ++ ">" ∈ Embedded.identities := by
  rw [Embedded.text?] at h
  split at h
  · subst name
    decide
  · split at h
    · subst name
      decide
    · split at h
      · subst name
        decide
      · cases h

/-- The module files of a directory. -/
def Files.modulesIn (files : Files) : Option Path → List Path
  | none => []
  | some directory =>
    let paths := files.contents.map Prod.fst
    (paths.filter fun path => path.parent = directory ∧
      path.getLast?.any fun file => ".re".toList.isSuffixOf file.toList).dedup

namespace ModuleText

variable {files : Files} {name : String} {found : ModuleText}

theorem mem_modulesIn_of_inDirectory? {directory : Path} {result : Except Cause ModuleText}
    (h : inDirectory? files directory name = some result) :
    fileOf directory name ∈ files.modulesIn (some directory) := by
  obtain ⟨content, hc, -⟩ := Option.map_eq_some_iff.mp h
  obtain ⟨⟨path, text⟩, hf, -⟩ := Option.map_eq_some_iff.mp hc
  have same : path = fileOf directory name := by simpa using List.find?_some hf
  have mem := List.mem_map_of_mem (f := Prod.fst) (List.mem_of_find?_eq_some hf)
  rw [same] at mem
  refine List.mem_dedup.mpr (List.mem_filter.mpr ⟨mem, ?_⟩)
  simp [fileOf, Path.parent]

/-- A module that is read from a directory looks up its imports there, too. -/
theorem of_inDirectory? {directory : Path}
    (h : inDirectory? files directory name = some (.ok found)) :
    found.directory = some directory ∧
      found.identity ∈ (files.modulesIn (some directory)).map Path.render := by
  have listed := mem_modulesIn_of_inDirectory? h
  obtain ⟨reason | content, -, read⟩ := Option.map_eq_some_iff.mp h
  · cases read
  · obtain rfl := Except.ok.inj read
    exact ⟨rfl, List.mem_map_of_mem listed⟩

/-- A module that is found is a file of the directory, and looks up its imports there, too, or it is
embedded, and looks up its imports nowhere. -/
theorem resolve_cases {directory : Option Path} (h : resolve files directory name = .ok found) :
    (found.directory = directory ∧
      found.identity ∈ (files.modulesIn directory).map Path.render) ∨
    (found.directory = none ∧ found.identity ∈ Embedded.identities) := by
  rw [resolve] at h
  split at h
  · split at h
    · rename_i other ho
      subst h
      obtain ⟨path, rfl, hp⟩ := Option.bind_eq_some_iff.mp ho
      exact .inl (of_inDirectory? hp)
    · split at h
      · rename_i other ho
        obtain rfl := Except.ok.inj h
        obtain ⟨text, ht, rfl⟩ := Option.map_eq_some_iff.mp ho
        exact .inr ⟨rfl, Embedded.mem_identities ht⟩
      · cases h
  · cases h

end ModuleText

/-! ### How machines are linked -/

/-- How a nested machine is linked to the machine that has started it. -/
def Origin.Links : Origin → Machine → Machine → Prop
  | imported, m, inner => ∃ (name : String) (embeddedOnly : Bool) (found : ModuleText),
      ModuleText.resolve m.world.files (if embeddedOnly then none else m.directory) name =
        .ok found ∧
      found.identity ∉ m.importStack ∧ inner.directory = found.directory ∧
      inner.sourceName = found.identity ∧ inner.importStack = m.importStack ++ [found.identity]
  | evaluated, m, inner => inner.directory = none ∧ inner.importStack = m.importStack

/-- Whether a step is taken by a nested machine. -/
def Step.isNested : Step → Bool
  | nested .. => true
  | _ => false

/-- Whether the machines that a step of a machine is taken in share the world and are linked one to
the next. -/
def Step.Linked : Step → Machine → Prop
  | nested origin inner s, m => inner.world = m.world ∧ origin.Links m inner ∧ s.Linked inner
  | _, _ => True

/-- The machines that can come up once a machine is there: itself after further steps, and the
machines that it starts for modules and for texts. -/
inductive Machine.Arises (m : Machine) : Machine → Prop where
  | self : Arises m m
  | step {m' : Machine} (h : Arises m m') {s : Step} (linked : s.Linked m') : Arises m (s.apply m')
  | imported {m' : Machine} (h : Arises m m') {name : String} {embeddedOnly : Bool}
      {found : ModuleText}
      (hf : ModuleText.resolve m'.world.files (if embeddedOnly then none else m'.directory) name =
        .ok found)
      (acyclic : found.identity ∉ m'.importStack) :
      Arises m (m'.nested found.directory found.identity found.embedded
        (m'.importStack ++ [found.identity]))
  | evaluated {m' : Machine} (h : Arises m m') :
      Arises m (m'.nested none "<eval>" false m'.importStack)

namespace Step

variable (s : Step) (m : Machine)

@[simp]
theorem importStack_apply : (s.apply m).importStack = m.importStack := by
  cases s <;> rfl

@[simp]
theorem directory_apply : (s.apply m).directory = m.directory := by
  cases s <;> rfl

@[simp]
theorem sourceName_apply : (s.apply m).sourceName = m.sourceName := by
  cases s <;> rfl

variable {s m}

/-- No file is written by a program. -/
theorem files_apply (h : s.Linked m) : (s.apply m).world.files = m.world.files := by
  induction s generalizing m with
  | nested origin inner s ih =>
    obtain ⟨world, -, linked⟩ := h
    exact (ih linked).trans (congrArg World.files world)
  | _ => rfl

end Step

namespace Machine.Arises

variable {m m' m'' : Machine}

theorem trans (h : m.Arises m') (h' : m'.Arises m'') : m.Arises m'' := by
  induction h' with
  | self => exact h
  | step _ linked ih => exact ih.step linked
  | imported _ hf acyclic ih => exact ih.imported hf acyclic
  | evaluated _ ih => exact ih.evaluated

theorem files (h : m.Arises m') : m'.world.files = m.world.files := by
  induction h with
  | self => rfl
  | step _ linked ih => exact (Step.files_apply linked).trans ih
  | imported _ _ _ ih => exact ih
  | evaluated _ ih => exact ih

theorem nodup (h : m.Arises m') (hm : m.importStack.Nodup) : m'.importStack.Nodup := by
  induction h with
  | self => exact hm
  | step _ _ ih => rwa [Step.importStack_apply]
  | imported _ _ acyclic ih => exact List.concat_eq_append ▸ ih.concat acyclic
  | evaluated _ ih => exact ih

/-- A nested machine looks up modules where the outermost one does, or nowhere. -/
theorem directory (h : m.Arises m') : m'.directory = m.directory ∨ m'.directory = none := by
  induction h with
  | self => exact .inl rfl
  | step _ _ ih => rwa [Step.directory_apply]
  | @imported _ _ _ embeddedOnly _ hf _ ih =>
    rcases ModuleText.resolve_cases hf with ⟨hd, -⟩ | ⟨hd, -⟩
    · cases embeddedOnly with
      | true => exact .inr hd
      | false =>
        rcases ih with ih | ih
        · exact .inl (hd.trans ih)
        · exact .inr (hd.trans ih)
    · exact .inr hd
  | evaluated _ _ => exact .inr rfl

/-- What is on top of the import stack of the outermost machine are modules of its directory and
embedded ones. -/
theorem chain (h : m.Arises m') :
    ∃ chain, m'.importStack = m.importStack ++ chain ∧
      chain ⊆ (m.world.files.modulesIn m.directory).map Path.render ++ Embedded.identities := by
  induction h with
  | self => exact ⟨[], by simp, List.nil_subset _⟩
  | step _ _ ih => simpa using ih
  | @imported m' h _ embeddedOnly found hf _ ih =>
    obtain ⟨chain, stack, modules⟩ := ih
    refine ⟨chain ++ [found.identity], ?_, List.append_subset.mpr ⟨modules, ?_⟩⟩
    · show m'.importStack ++ [found.identity] = _
      rw [stack, List.append_assoc]
    · rw [List.cons_subset, List.mem_append]
      refine ⟨?_, List.nil_subset _⟩
      rcases ModuleText.resolve_cases hf with ⟨-, file⟩ | ⟨-, embedded⟩
      · rw [h.files] at file
        cases embeddedOnly with
        | true => cases file
        | false =>
          rcases h.directory with hd | hd
          · exact .inl (hd ▸ file)
          · simp [hd, Files.modulesIn] at file
      · exact .inr embedded
  | evaluated _ ih => exact ih

/-- A chain of nested imports is at most as long as there are modules. -/
theorem chain_length (h : m.Arises m') (hm : m.importStack.Nodup) :
    ∃ chain, m'.importStack = m.importStack ++ chain ∧ chain.Nodup ∧
      chain.length ≤ (m.world.files.modulesIn m.directory).length + 3 := by
  obtain ⟨chain, stack, modules⟩ := h.chain
  have nodup : chain.Nodup := by
    have all := h.nodup hm
    rw [stack] at all
    exact (List.nodup_append.mp all).2.1
  refine ⟨chain, stack, nodup, ?_⟩
  simpa [Embedded.identities] using (List.subperm_of_subset nodup modules).length_le

end Machine.Arises

/-! ### Evaluation -/

/-- An action in which all machines are linked and all nested ones arise. -/
def Chained {α : Type} (act : Action α) : Prop :=
  ∀ m, ∀ x ∈ act.trace m, x.step.Linked x.machine ∧ ∀ inner ∈ x.step.machines, m.Arises inner

namespace Action

variable {α : Type} {m : Machine}

theorem importStack_of_mem_trace {act : Action α} {x : Moment} (hx : x ∈ act.trace m) :
    x.machine.importStack = m.importStack ∧ x.machine.directory = m.directory ∧
      x.machine.sourceName = m.sourceName := by
  induction act generalizing m with
  | done r => simp at hx
  | look k ih => exact ih m hx
  | step s next ih =>
    rcases List.mem_cons.mp hx with rfl | hx
    · exact ⟨rfl, rfl, rfl⟩
    · simpa using ih hx

theorem importStack_run (act : Action α) (m : Machine) :
    (act.run m).2.importStack = m.importStack := by
  induction act generalizing m with
  | done r => rfl
  | look k ih => exact ih m m
  | step s next ih => exact (ih (s.apply m)).trans (s.importStack_apply m)

/-- A machine whose steps are linked arises again and again. -/
theorem arises_run {act : Action α} (h : ∀ x ∈ act.trace m, x.step.Linked x.machine) :
    m.Arises (act.run m).2 ∧ ∀ x ∈ act.trace m, m.Arises x.machine := by
  induction act generalizing m with
  | done r => exact ⟨.self, by simp⟩
  | look k ih => exact ih m h
  | step s next ih =>
    have first : m.Arises (s.apply m) := Machine.Arises.self.step (h ⟨m, s⟩ List.mem_cons_self)
    obtain ⟨last, rest⟩ := ih fun x hx => h x (List.mem_cons_of_mem _ hx)
    refine ⟨first.trans last, fun x hx => ?_⟩
    rcases List.mem_cons.mp hx with rfl | hx
    · exact .self
    · exact first.trans (rest x hx)

end Action

namespace Chained

variable {α β : Type} {x : Action α}

theorem done (r : Except Stop α) : Chained (Action.done r) := by
  intro m y hy
  simp at hy

theorem resume {f : Except Stop α → Action β} (hx : Chained x) (hf : ∀ r, Chained (f r)) :
    Chained (x.resume f) := by
  intro m y hy
  rw [trace_resume] at hy
  rcases List.mem_append.mp hy with hy | hy
  · exact hx m y hy
  · obtain ⟨linked, nested⟩ := hf _ _ y hy
    have before := (arises_run fun z hz => (hx m z hz).1).1
    exact ⟨linked, fun inner hi => before.trans (nested inner hi)⟩

theorem step {s : Step} (hs : s.isNested = false) (hx : Chained x) : Chained (Action.step s x) := by
  intro m y hy
  have linked : s.Linked m ∧ s.machines = [] := by
    cases s <;> first | exact ⟨trivial, rfl⟩ | cases hs
  rcases List.mem_cons.mp hy with rfl | hy
  · exact ⟨linked.1, by simp [linked.2]⟩
  · obtain ⟨later, nested⟩ := hx _ y hy
    exact ⟨later, fun inner hi => (Machine.Arises.self.step linked.1).trans (nested inner hi)⟩

theorem andFinally {s : Step} (hs : s.isNested = false) (hx : Chained x) :
    Chained (x.andFinally s) :=
  hx.resume fun r => step hs (done r)

/-- The steps of a nested machine, if that arises and is linked to the current one as long as it
looks up modules in the same place and has the same import stack. -/
theorem within {origin : Origin} {m start : Machine} (world : start.world = m.world)
    (arises : m.Arises start)
    (links : ∀ inner : Machine, inner.world.files = m.world.files →
      inner.importStack = start.importStack → inner.directory = start.directory →
      inner.sourceName = start.sourceName → origin.Links { m with world := inner.world } inner)
    (hx : Chained x) : ∀ y ∈ (x.within origin start).trace m,
      y.step.Linked y.machine ∧ ∀ inner ∈ y.step.machines, m.Arises inner := by
  intro y hy
  rw [trace_within _ _ _ _ world] at hy
  obtain ⟨z, hz, rfl⟩ := List.mem_map.mp hy
  obtain ⟨linked, nested⟩ := hx start z hz
  have running := (arises_run fun w hw => (hx start w hw).1).2 z hz
  obtain ⟨stack, directory, name⟩ := importStack_of_mem_trace hz
  have files := running.files.trans (congrArg World.files world)
  refine ⟨⟨rfl, links z.machine files stack directory name, linked⟩, fun inner hi => ?_⟩
  rcases List.mem_cons.mp hi with rfl | hi
  · exact arises.trans running
  · exact arises.trans (nested inner hi)

theorem settle (origin : Origin) (outcome : Outcome) (inner : Machine) (bindings : Bindings) :
    Chained (Action.settle origin outcome inner bindings) := by
  rw [Action.settle]
  split
  · exact step rfl (done _)
  · rw [ofOutcome_bind]
    split
    · exact step rfl (done _)
    · exact done _

/-- A nested machine runs and leaves something to the current one. -/
theorem settled {origin : Origin} {other : Machine → Machine} {act : Action Outcome}
    {m : Machine} (bindings : Machine → Bindings)
    (nested : ∀ y ∈ (act.within origin (other m)).trace m,
      y.step.Linked y.machine ∧ ∀ inner ∈ y.step.machines, m.Arises inner) :
    ∀ y ∈ (Action.inMachine origin other act >>= fun r =>
        Action.settle origin r.1 r.2 (bindings r.2)).trace m,
      y.step.Linked y.machine ∧ ∀ inner ∈ y.step.machines, m.Arises inner := by
  intro y hy
  rw [trace_bind, List.mem_append] at hy
  rcases hy with hy | hy
  · exact nested y hy
  · split at hy
    · rename_i hr
      have before := (arises_run fun z hz => (nested z hz).1).1
      rw [show (act.within origin (other m)).run m = _ from hr] at before
      obtain ⟨linked, later⟩ := settle _ _ _ _ _ y hy
      exact ⟨linked, fun inner hi => before.trans (later inner hi)⟩
    · cases hy

theorem importWith {run : Source → Action Outcome} (name : String) (embeddedOnly : Bool)
    (hr : ∀ source, Chained (run source)) : Chained (Action.importWith run name embeddedOnly) := by
  intro m y hy
  change y ∈ (ofExcept _ >>= _).trace m at hy
  rw [ofExcept_bind] at hy
  split at hy
  · rename_i found hf
    split at hy
    · simp [fail, stop] at hy
    · rename_i acyclic
      refine settled (fun inner => inner.exported) ?_ y hy
      refine within rfl (Machine.Arises.self.imported hf acyclic) ?_ (hr _)
      intro inner files stack directory sourceName
      refine ⟨name, embeddedOnly, found, ?_, acyclic, directory, sourceName, stack⟩
      rw [← hf]
      show ModuleText.resolve inner.world.files _ _ = _
      rw [files]
  · simp [fail, stop] at hy

theorem evalText {e : Engine} (text : String) (hr : ∀ source, Chained (runText e source)) :
    Chained (Action.evalText e text) := by
  intro m y hy
  refine settled (fun _ => []) ?_ y hy
  refine within rfl Machine.Arises.self.evaluated ?_ (hr _)
  intro inner _ stack directory _
  exact ⟨directory, stack⟩

/-- In all evaluation machines are linked. -/
theorem hereditary : Hereditary Chained Chained where
  live hx := hx
  done := done
  look hk _ m := hk m m
  lookLive hk _ m := hk m m
  resume := resume
  resumeLive := resume
  unlessExiting hp hq m := by
    rw [exiting_bind, trace_look]
    cases m.exit with
    | none => exact hq m
    | some o => exact hp m
  stepLive := by
    intro α s x hs hx
    exact step (by cases s <;> first | rfl | cases hs) hx
  stamp hx := step rfl hx
  baseline hx := step rfl hx
  exit _ hx := step rfl hx
  inScope _ hx := step rfl (andFinally rfl hx)
  truncated _ hx m := step rfl (andFinally rfl hx) m
  importWith := importWith
  evalText := evalText

end Chained

/-! ### Runs -/

theorem Machine.Reachable.nodup_importStack {m : Machine} (h : m.Reachable) :
    m.importStack.Nodup := by
  refine preserved (P := fun m => m.importStack.Nodup) ?start ?run ?importModule ?enterFile
    ?meanwhile h
  case start => exact fun _ _ _ _ _ => List.nodup_nil
  case run =>
    intro limits source m hm
    rwa [importStack_run]
  case importModule =>
    intro limits name embeddedOnly m hm
    rwa [importStack_run]
  case enterFile =>
    intro m path hm
    rw [Machine.enterFile]
    split
    · exact hm
    · rename_i fresh
      exact List.concat_eq_append ▸ hm.concat fresh
  case meanwhile => exact fun _ _ _ _ _ hm => hm

/-- Evaluation does not change the import stack of the machine that it happens in, and the machines
that are nested in each other during a run are linked: the stack of a module is the one of the
importing machine with the module on top, the stack of an evaluated text is the one of the machine
that evaluates it. No stack has a module twice, so a chain of imports is at most as long as there are
module files in the directory and embedded modules. -/
theorem import_chains_acyclic {m : Machine} (h : m.Reachable) (limits : Limits)
    (text name : String) :
    (∀ node inner, ((limits.engine.eval node).run inner).2.importStack = inner.importStack) ∧
    (m.run limits text name).2.importStack = m.importStack ∧
    (∀ x ∈ m.history limits text name,
      x.machine.importStack = m.importStack ∧ x.step.Linked x.machine ∧
        ∀ inner ∈ x.machines, m.Arises inner) ∧
    ∀ inner, m.Arises inner → inner.importStack.Nodup ∧
      ∃ chain, inner.importStack = m.importStack ++ chain ∧ chain.Nodup ∧
        chain.length ≤ (m.world.files.modulesIn m.directory).length + 3 := by
  have chained := Chained.hereditary.runText limits (m.sourceOf name text) m
  refine ⟨fun node inner => importStack_run _ _, ?_, fun x hx => ?_, fun inner hi => ?_⟩
  · rw [Machine.run_snd, importStack_run]
  · obtain ⟨linked, nested⟩ := chained x hx
    have running := (arises_run fun z hz => (chained z hz).1).2 x hx
    refine ⟨(importStack_of_mem_trace hx).1, linked, fun inner hi => ?_⟩
    rcases List.mem_cons.mp hi with rfl | hi
    · exact running
    · exact nested inner hi
  · exact ⟨hi.nodup h.nodup_importStack, hi.chain_length h.nodup_importStack⟩

/-- A machine in a directory with two modules that import each other. -/
def Machine.amongTwo : Machine :=
  let contents := [(["a.re"], .ok "import(b)"), (["b.re"], .ok "=(y, 1), import(a)")]
  start { files := { contents := contents } } (some []) "<in>" false

/-- Where there are two modules in the directory, imports nest at most five deep, and two deep if
the modules import each other. -/
theorem import_chains_among_two :
    (∃ x ∈ Machine.amongTwo.history ⟨20, 20⟩ "import(a)" "",
      x.machines.map Machine.importStack = [[], ["/a.re"], ["/a.re", "/b.re"]]) ∧
    ∀ inner, Machine.amongTwo.Arises inner → inner.importStack.length ≤ 5 := by
  refine ⟨by decide +kernel, fun inner hi => ?_⟩
  obtain ⟨-, -, -, bounded⟩ :=
    import_chains_acyclic (m := .amongTwo) (.start _ rfl _ _ _) ⟨20, 20⟩ "import(a)" ""
  obtain ⟨-, chain, stack, -, short⟩ := bounded inner hi
  have modules :
      (Machine.amongTwo.world.files.modulesIn Machine.amongTwo.directory).length = 2 := by
    decide
  rw [modules] at short
  rwa [stack, show Machine.amongTwo.importStack = [] from rfl, List.nil_append]

end CallLang
