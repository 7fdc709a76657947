import CallLang.Proofs.NestedRuns

/-!
# Names that are bound several times

If names are bound one after the other, possibly several times, then the last time counts
(`get?_setAll_eq`). So all this leaves no trace exactly if every name had the value before that it
gets last (`setAll_eq_self_iff`).
-/

namespace CallLang

namespace Bindings

variable {bs others : Bindings} {name : String} {value : Atom}

/-- The value that a name is bound to last. -/
def latest? (bs : Bindings) (name : String) : Option Atom := get? bs.reverse name

theorem get?_append (xs ys : Bindings) (name : String) :
    get? (xs ++ ys) name = (get? xs name).or (get? ys name) := by
  induction xs with
  | nil => rfl
  | cons b xs ih =>
    simp only [List.cons_append, get?, ih]
    split <;> rfl

theorem latest?_append (xs ys : Bindings) (name : String) :
    latest? (xs ++ ys) name = (latest? ys name).or (latest? xs name) := by
  rw [latest?, List.reverse_append, get?_append, latest?, latest?]

theorem latest?_cons (b : String × Atom) (bs : Bindings) (name : String) :
    latest? (b :: bs) name = (latest? bs name).or (if b.1 = name then some b.2 else none) :=
  latest?_append [b] bs name

theorem latest?_eq_none_iff : bs.latest? name = none ↔ name ∉ bs.names := by
  rw [latest?, get?_eq_none_iff, names, names, List.map_reverse, List.mem_reverse]

theorem mem_names_of_latest? (h : bs.latest? name = some value) : name ∈ bs.names := by
  have bound : name ∈ names bs.reverse := mem_names_iff.mpr ⟨value, h⟩
  simpa [names] using bound

/-- Leaving out bindings by their names leaves the other names as they are. -/
theorem get?_filter_names (bs : Bindings) (p : String → Bool) (name : String) :
    get? (bs.filter fun b => p b.1) name = if p name then bs.get? name else none := by
  induction bs with
  | nil => simp
  | cons b bs ih =>
    obtain ⟨n, v⟩ := b
    by_cases hn : n = name
    · subst hn
      by_cases h : p n
      · simp [get?, h]
      · simpa [h] using ih
    · by_cases h : p n
      · simpa [get?, h, hn] using ih
      · simpa [get?, h, hn] using ih

theorem get?_restrict (bs : Bindings) (names : List String) (name : String) :
    get? (bs.filter fun b => b.1 ∈ names) name = if name ∈ names then bs.get? name else none := by
  simpa using bs.get?_filter_names (· ∈ names) name

theorem latest?_restrict (bs : Bindings) (names : List String) (name : String) :
    latest? (bs.filter fun b => b.1 ∈ names) name =
      if name ∈ names then bs.latest? name else none := by
  rw [latest?, ← List.filter_reverse, get?_restrict, latest?]

/-- The last time that a name is bound counts. -/
theorem get?_setAll_eq (bs others : Bindings) (name : String) :
    (bs.setAll others).get? name = (others.latest? name).or (bs.get? name) := by
  induction others generalizing bs with
  | nil => rfl
  | cons b others ih =>
    show ((bs.set b.1 b.2).setAll others).get? name = _
    rw [ih, latest?_cons, get?_set, Option.or_assoc]
    by_cases h : b.1 = name
    · simp [h]
    · simp [h, Ne.symm h]

theorem set_set (bs : Bindings) (name : String) (old value : Atom) :
    (bs.set name old).set name value = bs.set name value := by
  induction bs with
  | nil => simp [set]
  | cons b bs ih =>
    by_cases h : b.1 = name
    · simp [set, h]
    · simp [set, h, ih]

/-- Names that are bound already can be bound again in any order. -/
theorem set_comm {other : String} (h : other ≠ name) (bound : name ∈ bs.names) (old value : Atom) :
    (bs.set name old).set other value = (bs.set other value).set name old := by
  induction bs with
  | nil => cases bound
  | cons b bs ih =>
    by_cases hn : b.1 = name
    · simp [set, hn, h.symm]
    · by_cases ho : b.1 = other
      · simp [set, ho, h]
      · have later : name ∈ names bs := by
          simpa [names, Ne.symm hn] using bound
        simp [set, hn, ho, ih later]

theorem set_eq_self (h : bs.get? name = some value) : bs.set name value = bs := by
  induction bs with
  | nil => cases h
  | cons b bs ih =>
    obtain ⟨n, v⟩ := b
    by_cases hn : n = name
    · simp only [get?, hn, if_true, Option.some.injEq] at h
      simp [set, hn, h]
    · simp only [get?, hn, if_false] at h
      simp [set, hn, ih h]

/-- A name that is bound again later need not be bound now. -/
theorem setAll_set (bound : name ∈ bs.names) (again : name ∈ others.names) (old : Atom) :
    (bs.set name old).setAll others = bs.setAll others := by
  induction others generalizing bs with
  | nil => cases again
  | cons b others ih =>
    show ((bs.set name old).set b.1 b.2).setAll others = (bs.set b.1 b.2).setAll others
    by_cases h : b.1 = name
    · rw [h, set_set]
    · have later : name ∈ names others := by
        simpa [names, Ne.symm h] using again
      rw [set_comm h bound, ih (mem_names_set.mpr (.inr bound)) later]

/-- Binding names changes nothing if and only if every name has the value already that it is bound
to last. -/
theorem setAll_eq_self_iff :
    bs.setAll others = bs ↔
      ∀ name value, others.latest? name = some value → bs.get? name = some value := by
  constructor
  · intro same name value last
    rw [← same, get?_setAll_eq, last]
    rfl
  · intro known
    induction others with
    | nil => rfl
    | cons b others ih =>
      have rest : bs.setAll others = bs := by
        refine ih fun name value last => known name value ?_
        rw [latest?_cons, last]
        rfl
      show (bs.set b.1 b.2).setAll others = bs
      cases again : latest? others b.1 with
      | some value =>
        have bound : bs.get? b.1 = some value :=
          known b.1 value (by rw [latest?_cons, again]; rfl)
        rw [setAll_set (mem_names_iff.mpr ⟨value, bound⟩) (mem_names_of_latest? again), rest]
      | none =>
        have bound : bs.get? b.1 = some b.2 := known b.1 b.2 (by rw [latest?_cons, again]; simp)
        rw [set_eq_self bound, rest]

end Bindings

namespace Storage

/-- The names that are declared global are bound among the globals. -/
theorem globals_insertAll_eq (s : Storage) (bindings : Bindings) :
    (s.insertAll bindings).globals =
      s.globals.setAll (bindings.filter fun b => b.1 ∈ s.globalNames) := by
  induction bindings generalizing s with
  | nil => rfl
  | cons b bindings ih =>
    show ((s.insert b.1 b.2).insertAll bindings).globals = _
    rw [ih, globalNames_insert]
    by_cases h : b.1 ∈ s.globalNames
    · simp [insert, h, Bindings.setAll]
    · have kept : (s.insertLocal b.1 b.2).globals = s.globals := by
        rw [insertLocal]
        split <;> rfl
      simp [insert, h, kept]

end Storage

end CallLang
