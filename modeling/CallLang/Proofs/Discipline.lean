import CallLang.Proofs.Reachable
import CallLang.Proofs.Values
import Mathlib.Order.Basic

/-!
# Disciplines

A discipline says which integers may occur and which fields the objects of a type may have. New
types are defined while a program runs, so what it says about types depends on the stage that the
program has reached: later stages allow what earlier ones do.

Evaluation follows every discipline. `Discipline.Keeps` says so of one action: in a machine whose
values are all allowed it leads to a machine whose values are all allowed, at a stage that is not
earlier, by way of such machines, and what it gives meets a postcondition. There is one rule for
each way of putting actions together.
-/

namespace CallLang

open CallLang.Action CallLang.Builtin

/-- What a program can count of a value: the characters of a string, the elements of a list, the
parameters of a function, and the types up to the one of an object. -/
def Atom.extent : Atom → Nat
  | .string s => s.toList.length
  | .list xs => xs.length
  | .function f => f.arity.getD 0
  | .object typeId _ => typeId
  | _ => 0

/-- The steps that a machine takes by itself and that give out no type id. -/
def Step.isPlain : Step → Bool
  | takeTypeId | nested .. => false
  | _ => true

/-- Which integers may occur, which fields the types have that may occur at a stage, and which
worlds there are at a stage. -/
structure Discipline (Stage : Type) [Preorder Stage] where
  int : Int → Prop
  type : Stage → Nat → List String → Prop
  world : Stage → World → Prop
  /-- The values that may be counted. -/
  countable : Atom → Prop
  int_of_fits {n : Int} : Fits n → int n
  int_apply {op : Arith} {a b n : Int} : int a → int b → op.apply a b = .ok n → int n
  int_extent {a : Atom} : countable a → int a.extent
  int_clock {t : Stage} {w : World} (i : Nat) : world t w →
    int (w.clock i / Stream.nanosPerSecond : Nat)
  type_mono {t t' : Stage} {typeId : Nat} {names : List String} : t ≤ t' →
    type t typeId names → type t' typeId names
  world_congr {t : Stage} {w w' : World} : w'.clock = w.clock → w'.nextTypeId = w.nextTypeId →
    world t w → world t w'
  /-- A type that is defined takes the program to another stage. Its fields have different names. -/
  define {t : Stage} {w : World} (names : List String) : names.Nodup → world t w →
    ∃ t', t ≤ t' ∧ type t' w.nextTypeId names ∧
      world t' { w with nextTypeId := w.nextTypeId + 1 }

namespace Discipline

variable {Stage : Type} [Preorder Stage] (d : Discipline Stage)

/-- The values that may occur at a stage, apart from what occurs in them. -/
def Allows (t : Stage) : Atom → Prop
  | .int n => d.int n
  | .object typeId fields => d.type t typeId (Bindings.names fields)
  | .function (.constructor _ _ required defaults typeId) =>
    d.type t typeId (required ++ Bindings.names defaults)
  | _ => True

/-- Values all of which may occur. -/
def Over (t : Stage) (vs : List Atom) : Prop := ∀ v ∈ vs, d.Allows t v

/-- A machine in which only values occur that may. -/
structure Admits (t : Stage) (m : Machine) : Prop where
  world : d.world t m.world
  values : d.Over t m.values

/-- An action that keeps to the discipline, and the postcondition of what it gives. -/
def Keeps {α : Type} (t : Stage) (x : Action α) (Q : Stage → α → Prop) : Prop :=
  ∀ m, d.Admits t m →
    (∀ y ∈ x.trace m, ∃ t', t ≤ t' ∧ ∀ inner ∈ y.machines, d.Admits t' inner) ∧
    ∃ t', t ≤ t' ∧ d.Admits t' (x.run m).2 ∧ ∀ a, (x.run m).1 = .ok a → Q t' a

/-- An action that gives a value that may occur. -/
abbrev Gives (t : Stage) (x : Action Atom) : Prop :=
  d.Keeps t x fun t' a => d.Over t' a.values

/-- An engine whose evaluations and calls keep to the discipline. What it evaluates may be
counted. -/
structure Follows (e : Engine) : Prop where
  eval {t : Stage} {node : Node} : d.Over t node.values →
    d.Keeps t (e.eval node) fun t' a => d.Over t' a.values ∧ d.countable a
  call {t : Stage} {f : Callable} {args : List Node} (name doc : String) :
    d.Over t (Atom.function f).values → d.Over t (Node.valuesAll args) →
    d.Gives t (e.call f args name doc)

variable {d} {t t' : Stage}

/-! ### Values -/

theorem Allows.mono {v : Atom} (h : d.Allows t v) (ht : t ≤ t') : d.Allows t' v := by
  match v with
  | .int _ | .bool _ | .null | .string _ | .list _ => exact h
  | .object _ _ | .function (.constructor ..) => exact d.type_mono ht h
  | .function (.builtin ..) | .function (.closure ..) | .function (.thunk ..) => trivial

theorem names_copiedFields (n : Nat) (fields : Bindings) :
    Bindings.names (Atom.copiedFields n fields) = fields.names := by
  induction fields with
  | nil => rfl
  | cons field fields ih => exact congrArg (field.1 :: ·) ih

/-- What is allowed of a value is allowed of its copies. -/
theorem Allows.copied {v : Atom} (h : d.Allows t v) (n : Nat) : d.Allows t (v.copied n) := by
  match v with
  | .int _ | .bool _ | .null | .string _ | .list _ | .function (.constructor ..) => exact h
  | .object typeId fields =>
    show d.type t typeId (Bindings.names (Atom.copiedFields n fields))
    rw [names_copiedFields]
    exact h
  | .function (.builtin ..) | .function (.closure ..) | .function (.thunk ..) => trivial

theorem allows_of_written {v : Atom} (h : v.Written) : d.Allows t v := by
  match v with
  | .int _ => exact d.int_of_fits h
  | .bool _ | .null | .string _ => trivial

namespace Over

variable {vs ws : List Atom}

theorem mono (h : d.Over t vs) (ht : t ≤ t') : d.Over t' vs :=
  fun v hv => (h v hv).mono ht

theorem append (hv : d.Over t vs) (hw : d.Over t ws) : d.Over t (vs ++ ws) :=
  List.forall_mem_append.mpr ⟨hv, hw⟩

theorem left (h : d.Over t (vs ++ ws)) : d.Over t vs := (List.forall_mem_append.mp h).1

theorem right (h : d.Over t (vs ++ ws)) : d.Over t ws := (List.forall_mem_append.mp h).2

theorem tail {v : Atom} (h : d.Over t (v :: vs)) : d.Over t vs := (List.forall_mem_cons.mp h).2

end Over

theorem over_nil : d.Over t [] := fun _ hv => absurd hv List.not_mem_nil

theorem over_cons {v : Atom} {vs : List Atom} (hv : d.Allows t v) (hs : d.Over t vs) :
    d.Over t (v :: vs) :=
  List.forall_mem_cons.mpr ⟨hv, hs⟩

/-- A value that nothing else occurs in. -/
theorem over_single {v : Atom} (h : d.Allows t v) : d.Over t [v] := over_cons h over_nil

theorem over_list {xs : List Atom} (h : d.Over t (Atom.valuesAll xs)) :
    d.Over t (Atom.list xs).values :=
  over_cons trivial h

theorem over_object {typeId : Nat} {fields : Bindings} (ht : d.type t typeId fields.names)
    (h : d.Over t fields.values) : d.Over t (Atom.object typeId fields).values :=
  over_cons ht (Atom.valuesFields_eq fields ▸ h)

theorem Over.fields {typeId : Nat} {fields : Bindings}
    (h : d.Over t (Atom.object typeId fields).values) : d.Over t fields.values := by
  have inside := h.tail
  rwa [Atom.valuesFields_eq] at inside

theorem over_constructor {required : List String} {defaults : Bindings} {typeId : Nat}
    (ht : d.type t typeId (required ++ defaults.names)) (h : d.Over t defaults.values)
    (stamp : Stamp) (doc : String) :
    d.Over t (Atom.function (.constructor stamp doc required defaults typeId)).values :=
  over_cons ht (Atom.valuesFields_eq defaults ▸ h : d.Over t (Atom.valuesFields defaults))

theorem Over.defaults {stamp : Stamp} {doc : String} {required : List String}
    {defaults : Bindings} {typeId : Nat}
    (h : d.Over t (Atom.function (.constructor stamp doc required defaults typeId)).values) :
    d.Over t defaults.values := by
  have inside : d.Over t (Atom.valuesFields defaults) := h.tail
  rwa [Atom.valuesFields_eq] at inside

theorem Over.elements {xs : List Atom} (h : d.Over t (Atom.list xs).values) :
    d.Over t (Atom.valuesAll xs) :=
  h.tail

/-- Some of several values. -/
theorem Over.among {xs ys : List Atom} (h : d.Over t (Atom.valuesAll xs)) (hs : ys ⊆ xs) :
    d.Over t (Atom.valuesAll ys) := by
  rw [Atom.valuesAll_eq] at h ⊢
  intro v hv
  obtain ⟨y, hy, hv⟩ := List.mem_flatMap.mp hv
  exact h v (List.mem_flatMap.mpr ⟨y, hs hy, hv⟩)

theorem Over.element {xs : List Atom} {x : Atom} (h : d.Over t (Atom.valuesAll xs)) (hx : x ∈ xs) :
    d.Over t x.values := by
  rw [Atom.valuesAll_eq] at h
  exact fun v hv => h v (List.mem_flatMap.mpr ⟨x, hx, hv⟩)

theorem Over.argument {nodes : List Node} {node : Node} (h : d.Over t (Node.valuesAll nodes))
    (hn : node ∈ nodes) : d.Over t node.values := by
  rw [Node.valuesAll_eq] at h
  exact fun v hv => h v (List.mem_flatMap.mpr ⟨node, hn, hv⟩)

theorem Over.bound {bs : Bindings} {b : String × Atom} (h : d.Over t bs.values) (hb : b ∈ bs) :
    d.Over t b.2.values :=
  fun v hv => h v (Bindings.mem_values.mpr ⟨b, hb, hv⟩)

theorem Over.get? {bs : Bindings} {name : String} {a : Atom} (h : d.Over t bs.values)
    (ha : bs.get? name = some a) : d.Over t a.values :=
  h.bound (Bindings.mem_of_get? ha)

/-- A function that a program defines has a copy of its body. -/
theorem over_closure {body : Node} (h : d.Over t body.values) (n : Nat) (stamp : Stamp)
    (doc : String) (params : List Param) :
    d.Over t (Atom.function (.closure stamp doc params (body.copied n))).values := by
  refine over_cons trivial fun v hv => ?_
  obtain ⟨u, hu, rfl | rfl⟩ := Node.mem_values_copied body hv
  · exact h _ hu
  · exact (h u hu).copied n

/-! ### Machines -/

/-- Builtins are functions that nothing occurs in. -/
theorem over_builtins : d.Over t (Bindings.values builtinBindings) := by
  intro v hv
  obtain ⟨b, hb, hv⟩ := Bindings.mem_values.mp hv
  obtain ⟨entry, -, rfl⟩ := List.mem_map.mp hb
  obtain rfl := List.mem_singleton.mp hv
  trivial

namespace Admits

variable {m : Machine}

theorem bindings (h : d.Admits t m) {bs : Bindings} (hs : ∀ b ∈ bs, b ∈ m.storage.all) :
    d.Over t bs.values :=
  fun v hv => h.values v (Machine.mem_values.mpr (.inl (Bindings.mem_values_of_subset hs hv)))

theorem get? (h : d.Admits t m) {name : String} {a : Atom} (ha : m.storage.get? name = some a) :
    d.Over t a.values :=
  (h.bindings fun _ hb => hb).bound (Storage.mem_all_of_get? ha)

theorem exit (h : d.Admits t m) {o : Outcome} (ho : m.exit = some o) : d.Over t o.values :=
  fun v hv => h.values v (Machine.mem_values.mpr (.inr (.inr ⟨o, ho, hv⟩)))

/-- Values are allowed at later stages, too. -/
theorem later (h : d.Admits t m) (ht : t ≤ t') {w : World} (hw : d.world t' w) :
    d.Admits t' { m with world := w } :=
  ⟨hw, h.values.mono ht⟩

theorem nested (h : d.Admits t m) (directory : Option Path) (sourceName : String)
    (embedded : Bool) (importStack : List String) :
    d.Admits t (m.nested directory sourceName embedded importStack) := by
  refine ⟨h.world, fun v hv => ?_⟩
  rcases Machine.mem_values.mp hv with hv | hv | ⟨o, ho, -⟩
  · have globals := h.bindings fun b hb => Storage.mem_all.mpr (.inr (.inr hb))
    refine (over_builtins.append globals) v ?_
    rw [← Bindings.values_append]
    exact hv
  · exact over_builtins v hv
  · cases ho

end Admits

/-- A machine before its first run knows builtins only. -/
theorem admits_start {w : World} (hw : d.world t w) (directory : Option Path)
    (sourceName : String) (usePrelude : Bool) :
    d.Admits t (Machine.start w directory sourceName usePrelude) := by
  refine ⟨hw, fun v hv => ?_⟩
  rcases Machine.mem_values.mp hv with hv | hv | ⟨o, ho, -⟩
  · exact over_builtins v (by simpa [Storage.all, Machine.start] using hv)
  · exact over_builtins v hv
  · cases ho

/-! ### Actions -/

section

variable {α β : Type} {x : Action α} {Q : Stage → α → Prop} {R : Stage → β → Prop}

theorem keeps_pure {a : α} (h : Q t a) : d.Keeps t (pure a) Q := by
  intro m hm
  refine ⟨fun y hy => absurd hy List.not_mem_nil, t, le_rfl, hm, fun b hb => ?_⟩
  obtain rfl := Except.ok.inj hb
  exact h

theorem keeps_stop (reason : Stop) : d.Keeps t (stop reason) Q := by
  intro m hm
  exact ⟨fun y hy => absurd hy List.not_mem_nil, t, le_rfl, hm, fun b hb => by cases hb⟩

theorem keeps_look {k : Machine → Action α} (h : ∀ m, d.Admits t m → d.Keeps t (k m) Q) :
    d.Keeps t (look k) Q :=
  fun m hm => h m hm m hm

theorem keeps_machine {f : Machine → Action α} (h : ∀ m, d.Admits t m → d.Keeps t (f m) Q) :
    d.Keeps t (machine >>= f) Q :=
  keeps_look h

theorem Keeps.resume {f : Except Stop α → Action β} (hx : d.Keeps t x Q)
    (ok : ∀ t' a, t ≤ t' → Q t' a → d.Keeps t' (f (.ok a)) R)
    (error : ∀ t' reason, t ≤ t' → d.Keeps t' (f (.error reason)) R) :
    d.Keeps t (x.resume f) R := by
  intro m hm
  obtain ⟨before, t', ht, hm', given⟩ := hx m hm
  have rest : d.Keeps t' (f (x.run m).1) R := by
    cases hr : (x.run m).1 with
    | ok a => exact ok t' a ht (given a hr)
    | error reason => exact error t' reason ht
  obtain ⟨after, t'', ht', hm'', given⟩ := rest _ hm'
  rw [trace_resume, run_resume]
  refine ⟨fun y hy => ?_, t'', ht.trans ht', hm'', given⟩
  rcases List.mem_append.mp hy with hy | hy
  · exact before y hy
  · obtain ⟨u, hu, machines⟩ := after y hy
    exact ⟨u, ht.trans hu, machines⟩

theorem Keeps.bind {f : α → Action β} (hx : d.Keeps t x Q)
    (hf : ∀ t' a, t ≤ t' → Q t' a → d.Keeps t' (f a) R) : d.Keeps t (x >>= f) R :=
  hx.resume hf fun _ reason _ => keeps_stop reason

/-- What an action gives meets a weaker postcondition, too. -/
theorem Keeps.weaken {Q' : Stage → α → Prop} (hx : d.Keeps t x Q)
    (h : ∀ t' a, t ≤ t' → Q t' a → Q' t' a) : d.Keeps t x Q' := by
  intro m hm
  obtain ⟨before, t', ht, hm', given⟩ := hx m hm
  exact ⟨before, t', ht, hm', fun a ha => h t' a ht (given a ha)⟩

theorem keeps_caught (f : Fault) :
    d.Keeps t (caught f : Action (Except Fault α)) fun t' r => ∀ a, r = .ok a → Q t' a := by
  rw [caught]
  split
  · exact keeps_stop _
  · exact keeps_pure fun b hb => by cases hb

theorem Keeps.attempt (hx : d.Keeps t x Q) :
    d.Keeps t x.attempt fun t' r => ∀ a, r = .ok a → Q t' a := by
  refine hx.resume (fun t' a _ ha => keeps_pure fun b hb => ?_) fun t' reason _ => ?_
  · obtain rfl := Except.ok.inj hb
    exact ha
  · cases reason with
    | fault f => exact keeps_caught f
    | exhausted => exact keeps_stop _

theorem Keeps.contain (hx : d.Keeps t x Q) :
    d.Keeps t x.contain fun t' r => ∀ a, r = .ok a → Q t' a := by
  refine hx.resume (fun t' a _ ha => keeps_pure fun b hb => ?_) fun t' reason _ => ?_
  · obtain rfl := Except.ok.inj hb
    exact ha
  · cases reason with
    | fault f => exact keeps_caught f
    | exhausted => exact keeps_pure fun b hb => by cases hb

theorem Keeps.traced (span : Option Span) (hx : d.Keeps t x Q) : d.Keeps t (x.traced span) Q := by
  refine hx.resume (fun t' a _ ha => keeps_pure ha) fun t' reason _ => ?_
  cases reason with
  | fault f => exact keeps_stop _
  | exhausted => exact keeps_stop _

theorem keeps_ofExcept {r : Except Cause α} (h : ∀ a, r = .ok a → Q t a) :
    d.Keeps t (ofExcept r) Q := by
  cases r with
  | ok a => exact keeps_pure (h a rfl)
  | error cause => exact keeps_stop _

theorem keeps_nameOf (node : Node) (place : NamePlace) :
    d.Keeps t (nameOf node place) fun _ _ => True := by
  rw [nameOf]
  split
  · exact keeps_pure trivial
  · exact keeps_stop _

theorem keeps_unlessExiting {f : Bool → Action α} (ending : d.Keeps t (f true) Q)
    (going : d.Keeps t (f false) Q) : d.Keeps t (exiting >>= f) Q := by
  rw [exiting_bind]
  refine keeps_look fun m _ => ?_
  cases m.exit with
  | none => exact going
  | some o => exact ending

theorem keeps_step {s : Step} (plain : s.isPlain) (hs : d.Over t s.values)
    (hx : d.Keeps t x Q) : d.Keeps t (step s x) Q := by
  intro m hm
  have world : (s.apply m).world.clock = m.world.clock ∧
      (s.apply m).world.nextTypeId = m.world.nextTypeId := by
    cases s with
    | takeTypeId | nested => cases plain
    | _ => exact ⟨rfl, rfl⟩
  have admitted : d.Admits t (s.apply m) := by
    refine ⟨d.world_congr world.1 world.2 hm.world, fun v hv => ?_⟩
    exact (Step.mem_values_apply hv).elim (hm.values v) (hs v)
  obtain ⟨after, rest⟩ := hx _ admitted
  refine ⟨fun y hy => ?_, rest⟩
  rcases List.mem_cons.mp hy with rfl | hy
  · refine ⟨t, le_rfl, fun inner hi => ?_⟩
    have alone : s.machines = [] := by cases s <;> first | rfl | cases plain
    rcases List.mem_cons.mp hi with rfl | hi
    · exact hm
    · exact absurd (alone ▸ hi) List.not_mem_nil
  · exact after y hy

theorem Keeps.andFinally {s : Step} (plain : s.isPlain) (hs : d.Over t s.values)
    (hx : d.Keeps t x Q) : d.Keeps t (x.andFinally s) Q :=
  hx.resume (fun _ _ ht ha => keeps_step plain (hs.mono ht) (keeps_pure ha))
    fun _ reason ht => keeps_step plain (hs.mono ht) (keeps_stop reason)

theorem Keeps.inScope {params : Bindings} (hp : d.Over t params.values) (hx : d.Keeps t x Q) :
    d.Keeps t (x.inScope params) Q :=
  keeps_step rfl hp (hx.andFinally rfl over_nil)

theorem Keeps.truncated (depth : Nat) (hx : d.Keeps t x Q) : d.Keeps t (x.truncated depth) Q := by
  refine keeps_look fun m hm => keeps_step rfl over_nil (hx.andFinally rfl ?_)
  exact hm.bindings fun b => Storage.mem_all_of_hidden

/-- A type gets the next type id, and fields that are chosen for it. -/
theorem keeps_freshTypeId {f : Nat → Action α} {names : List String} (distinct : names.Nodup)
    (h : ∀ t' typeId, t ≤ t' → d.type t' typeId names → d.Keeps t' (f typeId) Q) :
    d.Keeps t (freshTypeId >>= f) Q := by
  intro m hm
  obtain ⟨t', ht, typed, world⟩ := d.define names distinct hm.world
  obtain ⟨after, t'', ht', rest⟩ := h t' _ ht typed _ (hm.later ht world)
  refine ⟨fun y hy => ?_, t'', ht.trans ht', rest⟩
  rcases List.mem_cons.mp hy with rfl | hy
  · refine ⟨t, le_rfl, fun inner hi => ?_⟩
    obtain rfl := List.mem_singleton.mp hi
    exact hm
  · obtain ⟨u, hu, machines⟩ := after y hy
    exact ⟨u, ht.trans hu, machines⟩

/-- An action in a nested machine. -/
theorem Keeps.inMachine {origin : Origin} {directory : Option Path} {sourceName : String}
    {embedded : Bool} {stack : Machine → List String} (hx : d.Keeps t x Q) :
    d.Keeps t (inMachine origin (fun m => m.nested directory sourceName embedded (stack m)) x)
      fun t' r => Q t' r.1 ∧ d.Admits t' r.2 := by
  intro m hm
  obtain ⟨before, t', ht, hm', given⟩ := hx _ (hm.nested directory sourceName embedded (stack m))
  rw [run_inMachine _ _ _ rfl, trace_inMachine _ _ _ rfl]
  refine ⟨fun y hy => ?_, t', ht, hm.later ht hm'.world, fun r hr => ?_⟩
  · obtain ⟨z, hz, rfl⟩ := List.mem_map.mp hy
    obtain ⟨u, hu, machines⟩ := before z hz
    refine ⟨u, hu, fun inner hi => ?_⟩
    rcases List.mem_cons.mp hi with rfl | hi
    · exact hm.later hu (machines z.machine List.mem_cons_self).world
    · exact machines inner hi
  · cases ha : (x.run (m.nested directory sourceName embedded (stack m))).1 with
    | error reason => rw [ha] at hr; cases hr
    | ok a =>
      rw [ha] at hr
      obtain rfl := Except.ok.inj hr
      exact ⟨given a ha, hm'⟩

theorem keeps_take {s : Step} {f : Unit → Action α} (plain : s.isPlain)
    (hs : d.Over t s.values) (hf : d.Keeps t (f ()) Q) : d.Keeps t (take s >>= f) Q :=
  keeps_step plain hs hf

/-- A function that a program defines. -/
theorem keeps_define {doc : String} {params : List Node} {body : Node} {f : Callable → Action α}
    (hb : d.Over t body.values)
    (hf : ∀ g, d.Over t (Atom.function g).values → d.Keeps t (f g) Q) :
    d.Keeps t (Closure.define doc params body >>= f) Q := by
  rw [Closure.define_bind]
  split
  · exact keeps_look fun m _ => keeps_step rfl over_nil (hf _ (over_closure hb _ _ _ _))
  · exact keeps_stop _

end

theorem keeps_write (text : String) : d.Keeps t (write text) fun _ _ => True := by
  refine keeps_unlessExiting (keeps_pure trivial) (keeps_machine fun m _ => ?_)
  split
  · exact keeps_stop _
  · exact keeps_step rfl over_nil (keeps_pure trivial)

theorem keeps_writeError (text : String) : d.Keeps t (writeError text) fun _ _ => True := by
  refine keeps_unlessExiting (keeps_pure trivial) (keeps_machine fun m _ => ?_)
  split
  · exact keeps_stop _
  · exact keeps_step rfl over_nil (keeps_pure trivial)

theorem keeps_readLine : d.Keeps t readLine fun _ _ => True := by
  refine keeps_machine fun m _ => ?_
  dsimp only
  split
  · exact keeps_stop _
  · refine keeps_take rfl over_nil ?_
    split
    · exact keeps_stop _
    · split
      · exact keeps_pure trivial
      · exact keeps_stop _

theorem keeps_readClock :
    d.Keeps t readClock fun _ n => d.int (n / Stream.nanosPerSecond : Nat) :=
  keeps_machine fun _ hm => keeps_take rfl over_nil (keeps_pure (d.int_clock _ hm.world))

theorem keeps_lookup (name : String) (span : Option Span) :
    d.Gives t (lookup name span) := by
  refine keeps_machine fun m hm => ?_
  split
  · rename_i value hv
    exact keeps_pure (hm.get? hv)
  · exact keeps_stop _

theorem keeps_lookupFunction (name : String) :
    d.Keeps t (lookupFunction name) fun t' f => d.Over t' (Atom.function f).values := by
  refine keeps_machine fun m hm => keeps_ofExcept fun f hf => ?_
  rw [Storage.getFunction] at hf
  split at hf
  · rename_i g hg
    obtain rfl := Except.ok.inj hf
    exact hm.get? hg
  · cases hf
  · cases hf

/-- What a nested program leaves behind. -/
theorem keeps_settle {origin : Origin} {outcome : Outcome} {inner : Machine} {bindings : Bindings}
    (ho : d.Over t outcome.values) (hi : d.Admits t inner)
    (hb : ∀ b ∈ bindings, b ∈ inner.storage.all) :
    d.Gives t (settle origin outcome inner bindings) := by
  rw [settle]
  split
  · rename_i stored hs
    exact keeps_take rfl (hi.exit hs) (keeps_pure (over_single trivial))
  · rw [ofOutcome_bind]
    split
    · have globals := hi.bindings fun b hb => Storage.mem_all.mpr (.inr (.inr hb))
      exact keeps_take rfl ((hi.bindings hb).append globals) (keeps_pure ho)
    · exact keeps_stop _

/-- What a host is told of a run has only values of the outcome that its text is run to. -/
theorem over_run {limits : Limits} {m : Machine} {text name : String}
    (given : ∀ o, ((runText limits.engine (m.sourceOf name text)).run m).1 = .ok o →
      d.Over t o.values) :
    d.Over t (m.run limits text name).1.values := by
  rw [Machine.run_eq]
  revert given
  rcases ((runText limits.engine (m.sourceOf name text)).run m).1 with (fault | _) | outcome
  · exact fun _ => over_nil
  · exact fun _ => over_nil
  · exact fun given => given outcome rfl

end Discipline

end CallLang
