import CallLang.Proofs.Following

/-!
# Type ids

Every type that a program defines gets an id of its own from a counter that all machines share, and
the objects of a type have the fields that the type was defined with. So in every machine that a
host can have, and at every moment of a run, type ids lie between the first one and the next one to
be given out, and values of one type have the same fields (`type_ids_sound`).

The stage that a program has reached is the fields of the types that it has defined.
-/

namespace CallLang

open CallLang.Action CallLang.Builtin

/-- The type id and the field names of an object, or of the function that makes the objects of a
type. -/
def Atom.typing? : Atom → Option (Nat × List String)
  | .object typeId fields => some (typeId, Bindings.names fields)
  | .function (.constructor _ _ required defaults typeId) =>
    some (typeId, required ++ Bindings.names defaults)
  | _ => none

/-- Values whose type ids have been given out, when `next` is the next one, and that have the same
fields if they have the same type id. -/
structure TypesSound (next : Nat) (values : List Atom) : Prop where
  given : ∀ v ∈ values, ∀ typeId names, v.typing? = some (typeId, names) →
    Atom.firstTypeId ≤ typeId ∧ typeId < next
  fields : ∀ v ∈ values, ∀ w ∈ values, ∀ typeId names names',
    v.typing? = some (typeId, names) → w.typing? = some (typeId, names') → names = names'

/-- The type id that is given out by a step of a machine. -/
def Step.givenTypeId? : Step → Machine → Option Nat
  | takeTypeId, m => some m.world.nextTypeId
  | nested _ inner s, _ => s.givenTypeId? inner
  | _, _ => none

theorem Step.exists_of_givenTypeId? {s : Step} {m : Machine} {typeId : Nat}
    (h : s.givenTypeId? m = some typeId) :
    ∃ inner ∈ m :: s.machines, inner.world.nextTypeId = typeId := by
  induction s generalizing m with
  | takeTypeId => exact ⟨m, List.mem_cons_self, Option.some.inj h⟩
  | nested origin inner s ih =>
    obtain ⟨machine, hm, next⟩ := ih h
    exact ⟨machine, List.mem_cons_of_mem _ hm, next⟩
  | _ => cases h

/-! ### The stages of a program -/

/-- The fields of the types that were defined. -/
structure Types where
  fields? : Nat → Option (List String)

namespace Types

instance : Preorder Types where
  le t t' := ∀ typeId names, t.fields? typeId = some names → t'.fields? typeId = some names
  le_refl _ _ _ h := h
  le_trans _ _ _ h h' typeId names hn := h' typeId names (h typeId names hn)

/-- Whether all types have ids below the next one to be given out. -/
def Below (t : Types) (next : Nat) : Prop :=
  Atom.firstTypeId ≤ next ∧ ∀ typeId names, t.fields? typeId = some names →
    Atom.firstTypeId ≤ typeId ∧ typeId < next

/-- One more type. -/
def add (t : Types) (typeId : Nat) (names : List String) : Types :=
  ⟨fun other => if other = typeId then some names else t.fields? other⟩

variable {t : Types} {next : Nat}

theorem Below.le_add (h : t.Below next) (names : List String) : t ≤ t.add next names := by
  intro typeId others ho
  have fresh : typeId ≠ next := Nat.ne_of_lt (h.2 typeId others ho).2
  simpa [add, fresh] using ho

theorem Below.add (h : t.Below next) (names : List String) :
    (t.add next names).Below (next + 1) := by
  refine ⟨Nat.le_succ_of_le h.1, fun typeId others ho => ?_⟩
  by_cases new : typeId = next
  · subst new
    exact ⟨h.1, Nat.lt_succ_self _⟩
  · have old : t.fields? typeId = some others := by simpa [Types.add, new] using ho
    exact (h.2 typeId others old).imp_right Nat.lt_succ_of_lt

/-- Objects have the fields that their types were defined with. -/
def discipline : Discipline Types where
  int _ := True
  type t typeId names := t.fields? typeId = some names
  world t w := t.Below w.nextTypeId
  countable _ := True
  int_of_fits _ := trivial
  int_apply _ _ _ := trivial
  int_extent _ := trivial
  int_clock _ _ := trivial
  type_mono ht hn := ht _ _ hn
  world_congr _ next h := next ▸ h
  define {t w} names _ h :=
    ⟨t.add w.nextTypeId names, h.le_add names, by simp [Types.add], h.add names⟩

theorem fields_of_over {values : List Atom} (h : discipline.Over t values) {v : Atom}
    (hv : v ∈ values) {typeId : Nat} {names : List String}
    (ht : v.typing? = some (typeId, names)) : t.fields? typeId = some names := by
  have allowed := h v hv
  match v with
  | .object _ _ | .function (.constructor ..) =>
    obtain ⟨rfl, rfl⟩ := Prod.mk.inj (Option.some.inj ht)
    exact allowed

/-- Values that keep to the discipline are soundly typed. -/
theorem Below.sound (h : t.Below next) {values : List Atom} (hv : discipline.Over t values) :
    TypesSound next values where
  given _ hm typeId names ht := h.2 typeId names (fields_of_over hv hm ht)
  fields _ hm _ hw _ _ _ ht ht' :=
    Option.some.inj ((fields_of_over hv hm ht).symm.trans (fields_of_over hv hw ht'))

end Types

/-! ### Runs -/

theorem Limits.follows_discipline (limits : Limits) : Types.discipline.Follows limits.engine :=
  Discipline.follows_engine (fun _ => trivial) limits.steps limits.depth

theorem Machine.Reachable.admitted {m : Machine} (h : m.Reachable) :
    ∃ t, Types.discipline.Admits t m := by
  refine h.exists_admits (fun _ => trivial) fun world first => ?_
  have none : Types.Below ⟨fun _ => none⟩ world.nextTypeId :=
    ⟨Nat.le_of_eq first.symm, fun _ _ hn => by cases hn⟩
  exact ⟨_, none⟩

/-- In every machine that a host can have, type ids have been given out, and values with the same
type id have the same fields. So they have in all machines that run at a moment, and a type id that
is given out then is one that no value has; and so they have after a run, its outcome included. -/
theorem type_ids_sound {m : Machine} (h : m.Reachable) (limits : Limits) (text name : String) :
    TypesSound m.world.nextTypeId m.values ∧
    (∀ x ∈ m.history limits text name,
      (∀ inner ∈ x.machines,
        TypesSound inner.world.nextTypeId (x.machines.flatMap Machine.values)) ∧
      ∀ typeId, x.step.givenTypeId? x.machine = some typeId →
        ∀ v ∈ x.machines.flatMap Machine.values, ∀ names, v.typing? ≠ some (typeId, names)) ∧
    TypesSound (m.run limits text name).2.world.nextTypeId
      ((m.run limits text name).1.values ++ (m.run limits text name).2.values) := by
  obtain ⟨t, hm⟩ := h.admitted
  have followed := limits.follows_discipline.runText (m.sourceOf name text) m hm
  obtain ⟨during, t', -, hm', given⟩ := followed
  refine ⟨hm.world.sound hm.values, fun x hx => ?_, ?_⟩
  · obtain ⟨u, -, admitted⟩ := during x hx
    have allowed : Types.discipline.Over u (x.machines.flatMap Machine.values) := by
      intro v hv
      obtain ⟨inner, hi, hv⟩ := List.mem_flatMap.mp hv
      exact (admitted inner hi).values v hv
    refine ⟨fun inner hi => (admitted inner hi).world.sound allowed, ?_⟩
    intro typeId hg v hv names ht
    obtain ⟨inner, hi, rfl⟩ := Step.exists_of_givenTypeId? hg
    have sound := (admitted inner hi).world.sound allowed
    exact absurd (sound.given v hv _ _ ht).2 (Nat.lt_irrefl _)
  · rw [← Machine.run_snd] at hm'
    exact hm'.world.sound ((Discipline.over_run given).append hm'.values)

/-- A program that defines a type and changes a field of one of its objects. -/
def pointProgram : String := "type(P, x), =(p, P(1)), =(p, ->(p, x, list(p)))"

/-- Objects of one type inside each other. -/
theorem type_ids_sound_of_points :
    (∃ v ∈ (Machine.bare.run ⟨20, 20⟩ pointProgram).2.values,
      v.variant = .object ∧ v.typing? = some (6, ["x"])) ∧
    TypesSound (Machine.bare.run ⟨20, 20⟩ pointProgram).2.world.nextTypeId
      ((Machine.bare.run ⟨20, 20⟩ pointProgram).1.values ++
        (Machine.bare.run ⟨20, 20⟩ pointProgram).2.values) :=
  ⟨by decide +kernel, (type_ids_sound (.start {} rfl _ _ _) ⟨20, 20⟩ pointProgram "").2.2⟩

end CallLang
