import CallLang.Atom.Equality

/-!
# Bindings

Names with their values, in the order in which the names were bound first. A name is bound at most
once as long as bindings are made by `set`.
-/

namespace CallLang

/-- Names with their values. -/
abbrev Bindings := List (String × Atom)

namespace Bindings

/-- The value of a name. -/
def get? : Bindings → String → Option Atom
  | [], _ => none
  | (n, v) :: bs, name => if n = name then some v else get? bs name

/-- Binds a name. A name that is bound keeps its place. -/
def set : Bindings → String → Atom → Bindings
  | [], name, value => [(name, value)]
  | (n, v) :: bs, name, value =>
    if n = name then (n, value) :: bs else (n, v) :: set bs name value

/-- Forgets a name. -/
def erase (bs : Bindings) (name : String) : Bindings :=
  bs.filter fun b => b.1 ≠ name

/-- The bound names. -/
def names (bs : Bindings) : List String := bs.map Prod.fst

@[simp]
theorem get?_nil (name : String) : get? [] name = none := rfl

@[simp]
theorem get?_set_self (bs : Bindings) (name : String) (value : Atom) :
    (bs.set name value).get? name = some value := by
  induction bs with
  | nil => simp [set, get?]
  | cons b bs ih =>
    obtain ⟨n, v⟩ := b
    by_cases h : n = name
    · simp [set, get?, h]
    · simp [set, get?, h, ih]

/-- Binding one name leaves the others as they are. -/
theorem get?_set_of_ne {name other : String} (bs : Bindings) (value : Atom) (h : other ≠ name) :
    (bs.set name value).get? other = bs.get? other := by
  induction bs with
  | nil => simp [set, get?, h.symm]
  | cons b bs ih =>
    obtain ⟨n, v⟩ := b
    by_cases hn : n = name
    · subst hn
      simp [set, get?, h.symm]
    · simp [set, get?, hn, ih]

theorem get?_set (bs : Bindings) (name other : String) (value : Atom) :
    (bs.set name value).get? other = if other = name then some value else bs.get? other := by
  by_cases h : other = name
  · subst h
    simp
  · simp [h, get?_set_of_ne bs value h]

/-- Binding a name adds no other one. -/
theorem mem_names_set {bs : Bindings} {name other : String} {value : Atom} :
    other ∈ (bs.set name value).names ↔ other = name ∨ other ∈ bs.names := by
  induction bs with
  | nil => simp [set, names]
  | cons b bs ih =>
    obtain ⟨n, v⟩ := b
    simp only [names] at ih
    by_cases h : n = name
    · subst h
      simp [set, names]
    · simp only [set, names, h, if_false, List.map_cons, List.mem_cons, ih]
      exact or_left_comm

end Bindings

end CallLang
