import CallLang.Proofs.Following
import Mathlib

/-!
# Equal values

What programs see as equal is symmetric and transitive, and a value equals itself just if no
function occurs in it. Equal values are of one variant and of one type, and they are displayed alike
(`equality_laws`). Objects are equal regardless of the order of their fields, and their text is the
same because the fields are sorted.

The fields of an object have different names. This holds of every value that a program can have
(`Machine.Reachable.distinct_fields`), and without it equality would not be symmetric.
-/

namespace CallLang

/-! ### Looking names up -/

section

variable {β : Type} {xs ys : List (String × β)} {name : String} {value : β}

theorem mem_of_lookup (h : xs.lookup name = some value) : (name, value) ∈ xs := by
  induction xs with
  | nil => cases h
  | cons x xs ih =>
    rw [List.lookup_cons] at h
    split at h
    · rename_i same
      obtain rfl := Option.some.inj h
      rw [beq_iff_eq] at same
      exact same ▸ List.mem_cons_self
    · exact List.mem_cons_of_mem _ (ih h)

theorem isSome_lookup : (xs.lookup name).isSome = true ↔ name ∈ xs.map Prod.fst := by
  induction xs with
  | nil => simp
  | cons x xs ih =>
    rw [List.lookup_cons, List.map_cons, List.mem_cons, ← ih, ← beq_iff_eq]
    split <;> simp_all

/-- Of entries with different names all are found. -/
theorem lookup_eq_some_iff (distinct : (xs.map Prod.fst).Nodup) :
    xs.lookup name = some value ↔ (name, value) ∈ xs := by
  refine ⟨mem_of_lookup, fun h => ?_⟩
  obtain ⟨other, found⟩ : ∃ other, xs.lookup name = some other :=
    Option.isSome_iff_exists.mp (isSome_lookup.mpr (List.mem_map_of_mem h))
  have same := List.inj_on_of_nodup_map distinct (mem_of_lookup found) h rfl
  rw [found, (Prod.mk.inj same).2]

theorem lookup_map {γ : Type} (f : β → γ) (xs : List (String × β)) (name : String) :
    (xs.map fun x => (x.1, f x.2)).lookup name = (xs.lookup name).map f := by
  induction xs with
  | nil => rfl
  | cons x xs ih =>
    obtain ⟨other, value⟩ := x
    simp only [List.map_cons, List.lookup_cons, ih]
    split <;> rfl

theorem sameNames_iff {γ : Type} {zs : List (String × γ)} :
    sameNames xs zs = true ↔ ∀ name, (xs.lookup name).isSome ↔ (zs.lookup name).isSome := by
  simp only [sameNames, Bool.and_eq_true, List.all_eq_true, isSome_lookup]
  constructor
  · rintro ⟨left, right⟩ name
    constructor <;> intro h <;> obtain ⟨x, hx, rfl⟩ := List.mem_map.mp h
    · exact left x hx
    · exact right x hx
  · intro h
    exact ⟨fun x hx => (h x.1).mp (List.mem_map_of_mem hx),
      fun z hz => (h z.1).mpr (List.mem_map_of_mem hz)⟩

end

/-- Sorted entries do not tell in which order they were given. -/
theorem sortByName_eq {xs ys : List (String × String)} (hx : (xs.map Prod.fst).Nodup)
    (hy : (ys.map Prod.fst).Nodup) (h : ∀ name, xs.lookup name = ys.lookup name) :
    sortByName xs = sortByName ys := by
  have perm : xs.Perm ys := by
    refine (List.perm_ext_iff_of_nodup hx.of_map hy.of_map).mpr fun ⟨name, text⟩ => ?_
    rw [← lookup_eq_some_iff hx, ← lookup_eq_some_iff hy, h]
  have sorted (zs : List (String × String)) :
      (sortByName zs).Pairwise fun a b => a.1 ≤ b.1 := by
    refine (List.pairwise_mergeSort (fun a b c hab hbc => ?_) (fun a b => ?_) zs).imp
      of_decide_eq_true
    · exact decide_eq_true ((of_decide_eq_true hab).trans (of_decide_eq_true hbc))
    · simpa using le_total a.1 b.1
  have same : (sortByName xs).Perm (sortByName ys) :=
    (List.mergeSort_perm _ _).trans (perm.trans (List.mergeSort_perm _ _).symm)
  refine same.eq_of_pairwise (fun a b ha hb hab hba => ?_) (sorted xs) (sorted ys)
  have ha : a ∈ xs := (List.mergeSort_perm _ _).subset ha
  have hb : b ∈ xs := perm.symm.subset ((List.mergeSort_perm _ _).subset hb)
  exact List.inj_on_of_nodup_map hx ha hb (le_antisymm hab hba)

/-! ### Parts that correspond -/

section

variable {α β : Type} {R : α → α → Prop} {o p q : Option α}

theorem rel_self_iff : Option.Rel R o o ↔ ∀ x ∈ o, R x x := by
  cases o with
  | none => exact ⟨nofun, fun _ => .none⟩
  | some x =>
    refine ⟨fun h y hy => ?_, fun h => .some (h x rfl)⟩
    obtain rfl := Option.some.inj hy
    cases h with
    | some h => exact h

theorem rel_symm (h : Option.Rel R o p) (hR : ∀ x ∈ o, ∀ y ∈ p, R x y → R y x) :
    Option.Rel R p o := by
  cases h with
  | some h => exact .some (hR _ rfl _ rfl h)
  | none => exact .none

theorem rel_trans (h : Option.Rel R o p) (h' : Option.Rel R p q)
    (hR : ∀ x ∈ o, ∀ y ∈ p, ∀ z ∈ q, R x y → R y z → R x z) : Option.Rel R o q := by
  cases h with
  | some h =>
    cases h' with
    | some h' => exact .some (hR _ rfl _ rfl _ rfl h h')
  | none => exact h'

theorem map_eq_of_rel {f : α → β} (h : Option.Rel R o p)
    (hR : ∀ x ∈ o, ∀ y ∈ p, R x y → f x = f y) : o.map f = p.map f := by
  cases h with
  | some h => exact congrArg some (hR _ rfl _ rfl h)
  | none => rfl

end

namespace Atom

variable {a b c v : Atom} {xs ys : List Atom} {typeId : Nat} {fields others : Bindings}

/-- Induction on how deeply lists and objects are nested. -/
@[elab_as_elim]
theorem nesting_induction {motive : Atom → Prop} (int : ∀ n, motive (.int n))
    (bool : ∀ b, motive (.bool b)) (null : motive .null) (string : ∀ s, motive (.string s))
    (list : ∀ xs, (∀ x ∈ xs, motive x) → motive (.list xs))
    (object : ∀ typeId fields, (∀ field ∈ fields, motive field.2) →
      motive (.object typeId fields))
    (function : ∀ f, motive (.function f)) (a : Atom) : motive a := by
  cases a with
  | int n => exact int n
  | bool b => exact bool b
  | null => exact null
  | string s => exact string s
  | list xs =>
    exact list xs fun x _ => nesting_induction int bool null string list object function x
  | object typeId fields =>
    exact object typeId fields fun field _ =>
      nesting_induction int bool null string list object function field.2
  | function f => exact function f
termination_by sizeOf a
decreasing_by
  · rename_i hx
    have smaller := List.sizeOf_lt_of_mem hx
    simp only [Atom.list.sizeOf_spec]
    omega
  · rename_i hf
    have smaller := List.sizeOf_lt_of_mem hf
    obtain ⟨name, value⟩ := field
    simp only [Prod.mk.sizeOf_spec, Atom.object.sizeOf_spec] at smaller ⊢
    omega

theorem forall_values_list {P : Atom → Prop} :
    (∀ v ∈ (Atom.list xs).values, P v) ↔ P (.list xs) ∧ ∀ x ∈ xs, ∀ v ∈ x.values, P v := by
  rw [values, List.forall_mem_cons, valuesAll_eq]
  refine and_congr_right' ⟨fun h x hx v hv => h v (List.mem_flatMap.mpr ⟨x, hx, hv⟩), ?_⟩
  intro h v hv
  obtain ⟨x, hx, hv⟩ := List.mem_flatMap.mp hv
  exact h x hx v hv

theorem forall_values_object {P : Atom → Prop} :
    (∀ v ∈ (Atom.object typeId fields).values, P v) ↔
      P (.object typeId fields) ∧ ∀ field ∈ fields, ∀ v ∈ field.2.values, P v := by
  rw [values, List.forall_mem_cons, valuesFields_eq]
  refine and_congr_right' ⟨fun h field hf v hv => h v (Bindings.mem_values.mpr ⟨field, hf, hv⟩), ?_⟩
  intro h v hv
  obtain ⟨field, hf, hv⟩ := Bindings.mem_values.mp hv
  exact h field hf v hv

/-! ### Distinct fields -/

/-- The field names of an object. -/
def fieldNames : Atom → List String
  | object _ fields => Bindings.names fields
  | _ => []

/-- The fields of every object that occurs in a value have different names. -/
def HasDistinctFields (a : Atom) : Prop := ∀ v ∈ a.values, v.fieldNames.Nodup

instance (a : Atom) : Decidable a.HasDistinctFields :=
  inferInstanceAs (Decidable (∀ v ∈ a.values, v.fieldNames.Nodup))

namespace HasDistinctFields

theorem element (h : (Atom.list xs).HasDistinctFields) {x : Atom} (hx : x ∈ xs) :
    x.HasDistinctFields :=
  (forall_values_list.mp h).2 x hx

theorem names (h : (Atom.object typeId fields).HasDistinctFields) : fields.names.Nodup :=
  (forall_values_object.mp h).1

theorem field (h : (Atom.object typeId fields).HasDistinctFields) {field : String × Atom}
    (hf : field ∈ fields) : field.2.HasDistinctFields :=
  (forall_values_object.mp h).2 field hf

end HasDistinctFields

/-! ### Equality -/

/-- What programs see as equal. -/
abbrev Equal (a b : Atom) : Prop := a.equals b = true

@[simp]
theorem equal_int_iff {n : Int} : (Atom.int n).Equal b ↔ b = .int n := by
  cases b <;> simp [Equal, equals]
  exact eq_comm

@[simp]
theorem equal_bool_iff {x : Bool} : (Atom.bool x).Equal b ↔ b = .bool x := by
  cases b <;> simp [Equal, equals]
  exact eq_comm

@[simp]
theorem equal_null_iff : Atom.null.Equal b ↔ b = .null := by
  cases b <;> simp [Equal, equals]

@[simp]
theorem equal_string_iff {s : String} : (Atom.string s).Equal b ↔ b = .string s := by
  cases b <;> simp [Equal, equals]
  exact eq_comm

/-- A function equals nothing. -/
@[simp]
theorem not_equal_function (f : Callable) : ¬(Atom.function f).Equal b := by
  cases b <;> simp [Equal, equals]

theorem equalsAll_iff : equalsAll xs ys = true ↔ ∀ i : Nat, Option.Rel Equal xs[i]? ys[i]? := by
  induction xs generalizing ys with
  | nil =>
    cases ys with
    | nil => exact ⟨fun _ _ => .none, fun _ => rfl⟩
    | cons y ys => exact ⟨nofun, fun h => nomatch h 0⟩
  | cons x xs ih =>
    cases ys with
    | nil => exact ⟨nofun, fun h => nomatch h 0⟩
    | cons y ys =>
      have first : Option.Rel Equal (x :: xs)[0]? (y :: ys)[0]? ↔ Equal x y :=
        ⟨fun | .some h => h, .some⟩
      rw [equalsAll, Bool.and_eq_true, ih]
      refine Iff.trans ?_ Nat.and_forall_add_one
      exact and_congr first.symm Iff.rfl

theorem equalsFields_iff :
    equalsFields fields others = true ↔
      ∀ field ∈ fields, ∃ value, others.lookup field.1 = some value ∧ Equal field.2 value := by
  induction fields with
  | nil => simp [equalsFields]
  | cons field fields ih =>
    obtain ⟨name, value⟩ := field
    rw [equalsFields, Bool.and_eq_true, ih, List.forall_mem_cons]
    cases others.lookup name <;> simp

/-- A list equals a list that has equal elements at the same places. -/
theorem equal_list_iff :
    (Atom.list xs).Equal b ↔ ∃ ys, b = .list ys ∧ ∀ i : Nat, Option.Rel Equal xs[i]? ys[i]? := by
  constructor
  · intro h
    cases b with
    | list ys => exact ⟨ys, rfl, equalsAll_iff.mp h⟩
    | _ => cases h
  · rintro ⟨ys, rfl, h⟩
    exact equalsAll_iff.mpr h

/-- An object equals an object of its type that has equal values under the same names. -/
theorem equal_object_iff (distinct : fields.names.Nodup) :
    (Atom.object typeId fields).Equal b ↔
      ∃ others, b = .object typeId others ∧
        ∀ name, Option.Rel Equal (fields.lookup name) (others.lookup name) := by
  constructor
  · intro h
    cases b with
    | object t others =>
      simp only [Equal, equals, Bool.and_eq_true, beq_iff_eq, sameNames_iff, equalsFields_iff] at h
      obtain ⟨⟨rfl, names⟩, values⟩ := h
      refine ⟨others, rfl, fun name => ?_⟩
      cases found : fields.lookup name with
      | none =>
        have missing : others.lookup name = none := by
          rw [← Option.not_isSome_iff_eq_none, ← names name, found]
          exact Bool.false_ne_true
        rw [missing]
        exact .none
      | some value =>
        obtain ⟨other, there, same⟩ := values _ (mem_of_lookup found)
        rw [there]
        exact .some same
    | _ => cases h
  · rintro ⟨others, rfl, h⟩
    simp only [Equal, equals, Bool.and_eq_true, beq_iff_eq, sameNames_iff, equalsFields_iff]
    refine ⟨⟨trivial, fun name => ?_⟩, fun field hf => ?_⟩
    · have related := h name
      generalize fields.lookup name = value, others.lookup name = other at related
      cases related <;> simp
    · have found := (lookup_eq_some_iff distinct).mpr hf
      have related := h field.1
      rw [found] at related
      generalize others.lookup field.1 = there at related
      cases related with
      | some same => exact ⟨_, rfl, same⟩

/-- A value equals itself just if no function occurs in it. -/
theorem equal_self_iff (ha : a.HasDistinctFields) :
    a.Equal a ↔ ∀ v ∈ a.values, v.variant ≠ .function := by
  induction a using nesting_induction with
  | int | bool | null | string | function => simp [values, variant]
  | list xs ih =>
    have parts : (Atom.list xs).Equal (.list xs) ↔ ∀ x ∈ xs, x.Equal x := by
      refine equalsAll_iff.trans ?_
      simp only [rel_self_iff, Option.mem_def, List.mem_iff_getElem?]
      exact ⟨fun h x ⟨i, hx⟩ => h i x hx, fun h i x hx => h x ⟨i, hx⟩⟩
    rw [parts, forall_values_list, and_iff_right nofun]
    exact forall₂_congr fun x hx => ih x hx (ha.element hx)
  | object typeId fields ih =>
    have parts : (Atom.object typeId fields).Equal (.object typeId fields) ↔
        ∀ field ∈ fields, field.2.Equal field.2 := by
      rw [equal_object_iff ha.names, Prod.forall]
      simp only [Atom.object.injEq, true_and, exists_eq_left', rel_self_iff, Option.mem_def,
        lookup_eq_some_iff ha.names]
    rw [parts, forall_values_object, and_iff_right nofun]
    exact forall₂_congr fun field hf => ih field hf (ha.field hf)

theorem equal_symm (ha : a.HasDistinctFields) (hb : b.HasDistinctFields) (h : a.Equal b) :
    b.Equal a := by
  induction a using nesting_induction generalizing b with
  | int | bool | null | string | function => simp_all
  | list xs ih =>
    obtain ⟨ys, rfl, same⟩ := equal_list_iff.mp h
    refine equal_list_iff.mpr ⟨xs, rfl, fun i => rel_symm (same i) fun x hx y hy => ?_⟩
    have hx := List.mem_of_getElem? hx
    exact ih x hx (ha.element hx) (hb.element (List.mem_of_getElem? hy))
  | object typeId fields ih =>
    obtain ⟨others, rfl, same⟩ := (equal_object_iff ha.names).mp h
    refine (equal_object_iff hb.names).mpr
      ⟨fields, rfl, fun name => rel_symm (same name) fun x hx y hy => ?_⟩
    have hx := mem_of_lookup hx
    exact ih _ hx (ha.field hx) (hb.field (mem_of_lookup hy))

theorem equal_trans (ha : a.HasDistinctFields) (hb : b.HasDistinctFields) (hab : a.Equal b)
    (hbc : b.Equal c) : a.Equal c := by
  induction a using nesting_induction generalizing b c with
  | int | bool | null | string | function => simp_all
  | list xs ih =>
    obtain ⟨ys, rfl, same⟩ := equal_list_iff.mp hab
    obtain ⟨zs, rfl, same'⟩ := equal_list_iff.mp hbc
    refine equal_list_iff.mpr
      ⟨zs, rfl, fun i => rel_trans (same i) (same' i) fun x hx y hy z _ => ?_⟩
    have hx := List.mem_of_getElem? hx
    exact ih x hx (ha.element hx) (hb.element (List.mem_of_getElem? hy))
  | object typeId fields ih =>
    obtain ⟨others, rfl, same⟩ := (equal_object_iff ha.names).mp hab
    obtain ⟨others', rfl, same'⟩ := (equal_object_iff hb.names).mp hbc
    refine (equal_object_iff ha.names).mpr
      ⟨others', rfl, fun name => rel_trans (same name) (same' name) fun x hx y hy z _ => ?_⟩
    have hx := mem_of_lookup hx
    exact ih _ hx (ha.field hx) (hb.field (mem_of_lookup hy))

theorem variant_eq_of_equal (h : a.Equal b) : a.variant = b.variant := by
  cases a <;> cases b <;> simp_all [Equal, equals, variant]

theorem typeId_eq_of_equal (h : a.Equal b) : a.typeId = b.typeId := by
  cases a <;> cases b <;> simp_all [Equal, equals, typeId]

theorem display_eq_of_equal (ha : a.HasDistinctFields) (hb : b.HasDistinctFields)
    (h : a.Equal b) : a.display = b.display := by
  induction a using nesting_induction generalizing b with
  | int | bool | null | string | function => simp_all
  | list xs ih =>
    obtain ⟨ys, rfl, same⟩ := equal_list_iff.mp h
    have texts : displayAll xs = displayAll ys := by
      rw [displayAll_eq_map, displayAll_eq_map]
      refine List.ext_getElem? fun i => ?_
      rw [List.getElem?_map, List.getElem?_map]
      refine map_eq_of_rel (same i) fun x hx y hy => ?_
      have hx := List.mem_of_getElem? hx
      exact ih x hx (ha.element hx) (hb.element (List.mem_of_getElem? hy))
    rw [display, display, texts]
  | object typeId fields ih =>
    obtain ⟨others, rfl, same⟩ := (equal_object_iff ha.names).mp h
    have texts : sortByName (displayFields fields) = sortByName (displayFields others) := by
      rw [displayFields_eq_map, displayFields_eq_map]
      have names (bs : Bindings) :
          (bs.map fun field => (field.1, field.2.display)).map Prod.fst = bs.names :=
        List.map_map
      refine sortByName_eq (names fields ▸ ha.names) (names others ▸ hb.names) fun name => ?_
      rw [lookup_map, lookup_map]
      refine map_eq_of_rel (same name) fun x hx y hy => ?_
      have hx := mem_of_lookup hx
      exact ih _ hx (ha.field hx) (hb.field (mem_of_lookup hy))
    rw [display, display, texts]

end Atom

/-- Equality of the values of programs. It is symmetric and transitive. A value equals itself if and
only if no function occurs in it. And values that are equal are of one variant and one type and have
one text, whatever the order of their fields is. -/
theorem equality_laws {a b c : Atom} (ha : a.HasDistinctFields) (hb : b.HasDistinctFields) :
    a.equals b = b.equals a ∧
    (a.equals b = true → b.equals c = true → a.equals c = true) ∧
    (a.equals a = true ↔ ∀ v ∈ a.values, v.variant ≠ .function) ∧
    (a.equals b = true →
      a.variant.name = b.variant.name ∧ a.typeId = b.typeId ∧ a.display = b.display) := by
  refine ⟨?_, Atom.equal_trans ha hb, Atom.equal_self_iff ha, fun h => ?_⟩
  · exact Bool.eq_iff_iff.mpr ⟨Atom.equal_symm ha hb, Atom.equal_symm hb ha⟩
  · exact ⟨congrArg Variant.name (Atom.variant_eq_of_equal h), Atom.typeId_eq_of_equal h,
      Atom.display_eq_of_equal ha hb h⟩

/-- An object does not change when its fields are set in another order. -/
theorem equality_laws_of_reordered :
    let tags : Atom := .list [.int 1, .bool true]
    let point : Atom := .object 6 [("x", tags), ("y", .null)]
    let turned : Atom := .object 6 [("y", .null), ("x", tags)]
    point.HasDistinctFields ∧ turned.HasDistinctFields ∧
      point.equals turned = true ∧ turned.equals point = true ∧ point.equals point = true ∧
      point.display = turned.display := by
  intro tags point turned
  have hp : point.HasDistinctFields := by decide
  have ht : turned.HasDistinctFields := by decide
  have equal : point.equals turned = true := by decide
  obtain ⟨symm, trans, -, alike⟩ := equality_laws (c := point) hp ht
  have back := symm.symm.trans equal
  exact ⟨hp, ht, equal, back, trans equal back, (alike equal).2.2⟩

/-- With two values under one name, equality would depend on the side. -/
example :
    let once : Atom := .object 6 [("x", .int 1)]
    let twice : Atom := .object 6 [("x", .int 1), ("x", .int 2)]
    once.equals twice = true ∧ twice.equals once = false := by decide

/-! ### Values of programs -/

/-- The fields of a type have different names. -/
def fieldDiscipline : Discipline Unit where
  int _ := True
  type _ _ names := names.Nodup
  world _ _ := True
  countable _ := True
  int_of_fits _ := trivial
  int_apply _ _ _ := trivial
  int_extent _ := trivial
  int_clock _ _ := trivial
  type_mono _ distinct := distinct
  world_congr _ _ _ := trivial
  define _ distinct _ := ⟨(), le_rfl, distinct, trivial⟩

theorem nodup_of_over {values : List Atom} (h : fieldDiscipline.Over () values) :
    ∀ v ∈ values, v.fieldNames.Nodup := by
  intro v hv
  cases v with
  | object typeId fields => exact h _ hv
  | _ => exact List.nodup_nil

/-- In every machine that a host can have, at every moment of a run and in its outcome, the fields
of an object have different names. -/
theorem Machine.Reachable.distinct_fields {m : Machine} (h : m.Reachable) (limits : Limits)
    (text name : String) :
    (∀ x ∈ m.history limits text name, ∀ inner ∈ x.machines,
      ∀ v ∈ inner.values, v.fieldNames.Nodup) ∧
    (∀ v ∈ (m.run limits text name).1.values, v.fieldNames.Nodup) ∧
    ∀ v ∈ (m.run limits text name).2.values, v.fieldNames.Nodup := by
  obtain ⟨_, hm⟩ : ∃ t, fieldDiscipline.Admits t m :=
    h.exists_admits (fun _ => trivial) fun _ _ => ⟨(), trivial⟩
  have follows : fieldDiscipline.Follows limits.engine :=
    Discipline.follows_engine (fun _ => trivial) limits.steps limits.depth
  obtain ⟨during, _, -, after, given⟩ := follows.runText (m.sourceOf name text) m hm
  rw [← Machine.run_snd] at after
  refine ⟨fun x hx inner hi => ?_, nodup_of_over (Discipline.over_run given),
    nodup_of_over after.values⟩
  obtain ⟨_, -, machines⟩ := during x hx
  exact nodup_of_over (machines inner hi).values

end CallLang
