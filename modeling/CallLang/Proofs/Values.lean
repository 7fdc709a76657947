import CallLang.Proofs.NestedRuns

/-!
# Values that occur

A value can be in a list, in a field of an object, among the defaults of a type, and as a literal in
the body of a function or in an unevaluated argument. `Atom.values` lists all values that occur in a
value, and `Machine.values` all those that occur in a machine.

A step brings in no values but its own (`Step.mem_values_apply`), a copy has copies of the values
that the original has (`Atom.mem_values_copied`), and the values of a program are the literals that
its text can write down (`Node.written_of_parse`).
-/

namespace CallLang

open CallLang.Action

/-! ### Values in values -/

mutual

/-- The values that occur in a value, itself included. -/
def Atom.values : Atom → List Atom
  | .list xs => .list xs :: Atom.valuesAll xs
  | .object typeId fields => .object typeId fields :: Atom.valuesFields fields
  | .function f => .function f :: f.values
  | a => [a]

/-- The values that occur in several values. -/
def Atom.valuesAll : List Atom → List Atom
  | [] => []
  | x :: xs => x.values ++ Atom.valuesAll xs

/-- The values that occur in fields. -/
def Atom.valuesFields : List (String × Atom) → List Atom
  | [] => []
  | (_, value) :: fields => value.values ++ Atom.valuesFields fields

/-- The values that occur in a function. -/
def Callable.values : Callable → List Atom
  | .builtin _ _ => []
  | .closure _ _ _ body => body.values
  | .thunk _ argument _ => argument.values
  | .constructor _ _ _ defaults _ => Atom.valuesFields defaults

/-- The values that occur in an expression. -/
def Node.values : Node → List Atom
  | .literal value _ => value.values
  | .var _ _ => []
  | .call _ args _ _ => Node.valuesAll args

/-- The values that occur in several expressions. -/
def Node.valuesAll : List Node → List Atom
  | [] => []
  | x :: xs => x.values ++ Node.valuesAll xs

end

theorem Atom.valuesAll_eq (xs : List Atom) : Atom.valuesAll xs = xs.flatMap Atom.values := by
  induction xs with
  | nil => rfl
  | cons x xs ih => simp [Atom.valuesAll, ih]

/-- The values that occur in bindings. -/
def Bindings.values (bs : Bindings) : List Atom := bs.flatMap fun b => b.2.values

theorem Bindings.mem_values {bs : Bindings} {v : Atom} :
    v ∈ bs.values ↔ ∃ b ∈ bs, v ∈ b.2.values :=
  List.mem_flatMap

theorem Atom.valuesFields_eq (fields : Bindings) :
    Atom.valuesFields fields = fields.values := by
  induction fields with
  | nil => rfl
  | cons field fields ih => exact congrArg (field.2.values ++ ·) ih

theorem Node.valuesAll_eq (nodes : List Node) :
    Node.valuesAll nodes = nodes.flatMap Node.values := by
  induction nodes with
  | nil => rfl
  | cons node nodes ih => simp [Node.valuesAll, ih]

theorem Atom.mem_values_self (a : Atom) : a ∈ a.values := by
  cases a <;> simp [Atom.values]

/-- The values that occur in an outcome. -/
def Outcome.values : Outcome → List Atom
  | .ok a => a.values
  | .error _ => []

/-! ### Copies -/

mutual

/-- What occurs in a copy occurs in the original, or is a copy of what does. -/
theorem Atom.mem_values_copied {n : Nat} {v : Atom} (a : Atom) (h : v ∈ (a.copied n).values) :
    ∃ u ∈ a.values, v = u ∨ v = u.copied n := by
  match a with
  | .int _ | .bool _ | .null | .string _ =>
    simp only [Atom.copied, Atom.values] at h ⊢
    exact ⟨v, h, .inl rfl⟩
  | .list xs =>
    rcases List.mem_cons.mp h with rfl | h
    · exact ⟨_, List.mem_cons_self, .inr rfl⟩
    · obtain ⟨u, hu, same⟩ := Atom.mem_valuesAll_copiedAll xs h
      exact ⟨u, List.mem_cons_of_mem _ hu, same⟩
  | .object typeId fields =>
    rcases List.mem_cons.mp h with rfl | h
    · exact ⟨_, List.mem_cons_self, .inr rfl⟩
    · obtain ⟨u, hu, same⟩ := Atom.mem_valuesFields_copiedFields fields h
      exact ⟨u, List.mem_cons_of_mem _ hu, same⟩
  | .function f =>
    rcases List.mem_cons.mp h with rfl | h
    · exact ⟨_, List.mem_cons_self, .inr rfl⟩
    · obtain ⟨u, hu, same⟩ := Callable.mem_values_copied f h
      exact ⟨u, List.mem_cons_of_mem _ hu, same⟩

theorem Atom.mem_valuesAll_copiedAll {n : Nat} {v : Atom} (xs : List Atom)
    (h : v ∈ Atom.valuesAll (Atom.copiedAll n xs)) :
    ∃ u ∈ Atom.valuesAll xs, v = u ∨ v = u.copied n := by
  match xs with
  | [] => cases h
  | x :: xs =>
    rcases List.mem_append.mp h with h | h
    · obtain ⟨u, hu, same⟩ := Atom.mem_values_copied x h
      exact ⟨u, List.mem_append_left _ hu, same⟩
    · obtain ⟨u, hu, same⟩ := Atom.mem_valuesAll_copiedAll xs h
      exact ⟨u, List.mem_append_right _ hu, same⟩

theorem Atom.mem_valuesFields_copiedFields {n : Nat} {v : Atom} (fields : List (String × Atom))
    (h : v ∈ Atom.valuesFields (Atom.copiedFields n fields)) :
    ∃ u ∈ Atom.valuesFields fields, v = u ∨ v = u.copied n := by
  match fields with
  | [] => cases h
  | (_, value) :: fields =>
    rcases List.mem_append.mp h with h | h
    · obtain ⟨u, hu, same⟩ := Atom.mem_values_copied value h
      exact ⟨u, List.mem_append_left _ hu, same⟩
    · obtain ⟨u, hu, same⟩ := Atom.mem_valuesFields_copiedFields fields h
      exact ⟨u, List.mem_append_right _ hu, same⟩

theorem Callable.mem_values_copied {n : Nat} {v : Atom} (f : Callable)
    (h : v ∈ (f.copied n).values) : ∃ u ∈ f.values, v = u ∨ v = u.copied n := by
  match f with
  | .builtin _ _ => cases h
  | .closure _ _ _ body => exact Node.mem_values_copied body h
  -- unevaluated arguments and defaults are shared
  | .thunk _ _ _ | .constructor _ _ _ _ _ => exact ⟨v, h, .inl rfl⟩

theorem Node.mem_values_copied {n : Nat} {v : Atom} (node : Node)
    (h : v ∈ (node.copied n).values) : ∃ u ∈ node.values, v = u ∨ v = u.copied n := by
  match node with
  | .literal value _ => exact Atom.mem_values_copied value h
  | .var _ _ => cases h
  | .call _ args _ _ => exact Node.mem_valuesAll_copiedAll args h

theorem Node.mem_valuesAll_copiedAll {n : Nat} {v : Atom} (nodes : List Node)
    (h : v ∈ Node.valuesAll (Node.copiedAll n nodes)) :
    ∃ u ∈ Node.valuesAll nodes, v = u ∨ v = u.copied n := by
  match nodes with
  | [] => cases h
  | node :: nodes =>
    rcases List.mem_append.mp h with h | h
    · obtain ⟨u, hu, same⟩ := Node.mem_values_copied node h
      exact ⟨u, List.mem_append_left _ hu, same⟩
    · obtain ⟨u, hu, same⟩ := Node.mem_valuesAll_copiedAll nodes h
      exact ⟨u, List.mem_append_right _ hu, same⟩

end

/-! ### Values in a machine -/

namespace Storage

/-- All bindings: those of the scopes and the globals. -/
def all (s : Storage) : Bindings := s.inner.flatten ++ s.outermost ++ s.globals

variable {s : Storage} {b : String × Atom} {name : String} {value : Atom}

theorem mem_all : b ∈ s.all ↔ b ∈ s.inner.flatten ∨ b ∈ s.outermost ∨ b ∈ s.globals := by
  simp [all]

theorem mem_of_lookup {scopes : List Bindings} (h : lookup name scopes = some value) :
    (name, value) ∈ scopes.flatten := by
  induction scopes with
  | nil => cases h
  | cons scope scopes ih =>
    rw [lookup] at h
    split at h
    · rename_i found hf
      obtain rfl := Option.some.inj h
      exact List.mem_append_left _ (Bindings.mem_of_get? hf)
    · exact List.mem_append_right _ (ih h)

/-- The value of a name is bound to it. -/
theorem mem_all_of_get? (h : s.get? name = some value) : (name, value) ∈ s.all := by
  rw [get?] at h
  rw [mem_all]
  split at h
  · rename_i found hf
    obtain rfl := Option.some.inj h
    rw [getGlobal?] at hf
    split at hf
    · exact .inr (.inr (Bindings.mem_of_get? hf))
    · cases hf
  · have found := mem_of_lookup h
    rw [scopes, List.flatten_append, List.mem_append] at found
    exact found.imp_right fun h => .inl (by simpa using h)

theorem mem_all_insertLocal (h : b ∈ (s.insertLocal name value).all) :
    b ∈ s.all ∨ b = (name, value) := by
  rw [insertLocal] at h
  rw [mem_all] at h ⊢
  split at h
  · rename_i scope scopes hs
    rw [hs]
    simp only [List.flatten_cons, List.mem_append] at h ⊢
    rcases h with (h | h) | h
    · exact (Bindings.mem_set h).imp_left fun h => .inl (.inl h)
    · exact .inl (.inl (.inr h))
    · exact .inl (.inr h)
  · rcases h with h | h | h
    · exact .inl (.inl h)
    · exact (Bindings.mem_set h).imp_left fun h => .inr (.inl h)
    · exact .inl (.inr (.inr h))

theorem mem_all_addGlobal (h : b ∈ (s.addGlobal name value).all) :
    b ∈ s.all ∨ b = (name, value) := by
  rw [mem_all] at h ⊢
  rcases h with h | h | h
  · exact .inl (.inl h)
  · exact .inl (.inr (.inl h))
  · exact (Bindings.mem_set h).imp_left fun h => .inr (.inr h)

theorem mem_all_insert (h : b ∈ (s.insert name value).all) : b ∈ s.all ∨ b = (name, value) := by
  rw [insert] at h
  split at h
  · rw [mem_all] at h ⊢
    rcases h with h | h | h
    · exact .inl (.inl h)
    · exact .inl (.inr (.inl h))
    · exact (Bindings.mem_set h).imp_left fun h => .inr (.inr h)
  · exact mem_all_insertLocal h

/-- Binding names one after the other adds what is bound to them, however they are bound. -/
theorem mem_all_foldl {bind : Storage → String × Atom → Storage}
    (hb : ∀ {s : Storage} {b c : String × Atom}, b ∈ (bind s c).all → b ∈ s.all ∨ b = c)
    {bs : Bindings} (h : b ∈ (bs.foldl bind s).all) : b ∈ s.all ∨ b ∈ bs := by
  induction bs generalizing s with
  | nil => exact .inl h
  | cons c bs ih =>
    rcases ih h with h | h
    · exact (hb h).imp_right fun e : b = c => e ▸ List.mem_cons_self
    · exact .inr (List.mem_cons_of_mem _ h)

theorem mem_all_insertAll {bs : Bindings} (h : b ∈ (s.insertAll bs).all) : b ∈ s.all ∨ b ∈ bs :=
  mem_all_foldl mem_all_insert h

theorem mem_all_extend {bs globals : Bindings} (h : b ∈ (s.extend bs globals).all) :
    b ∈ s.all ∨ b ∈ bs ∨ b ∈ globals := by
  rcases mem_all_foldl mem_all_addGlobal h with h | h
  · exact (mem_all_insertAll h).imp_right .inl
  · exact .inr (.inr h)

theorem mem_of_takeOut {scopes rest : List Bindings}
    (h : takeOut name scopes = some (value, rest)) :
    (name, value) ∈ scopes.flatten ∧ rest.flatten ⊆ scopes.flatten := by
  induction scopes generalizing rest with
  | nil => cases h
  | cons scope scopes ih =>
    rw [takeOut] at h
    split at h
    · rename_i found hf
      obtain ⟨rfl, rfl⟩ := Prod.mk.inj (Option.some.inj h)
      refine ⟨List.mem_append_left _ (Bindings.mem_of_get? hf), fun b hb => ?_⟩
      rcases List.mem_append.mp hb with hb | hb
      · exact List.mem_append_left _ ((List.mem_filter.mp hb).1)
      · exact List.mem_append_right _ hb
    · obtain ⟨⟨found, others⟩, ho, e⟩ := Option.map_eq_some_iff.mp h
      obtain ⟨rfl, rfl⟩ := Prod.mk.inj e
      obtain ⟨bound, kept⟩ := ih ho
      refine ⟨List.mem_append_right _ bound, fun b hb => ?_⟩
      rcases List.mem_append.mp hb with hb | hb
      · exact List.mem_append_left _ hb
      · exact List.mem_append_right _ (kept hb)

/-- A declaration moves a binding and adds none. -/
theorem mem_all_declareGlobal (h : b ∈ (s.declareGlobal name).all) : b ∈ s.all := by
  rw [declareGlobal] at h
  split at h
  · exact h
  · dsimp only at h
    split at h
    · rename_i value inner ht
      obtain ⟨bound, kept⟩ := mem_of_takeOut ht
      rw [mem_all] at h ⊢
      rcases h with h | h | h
      · exact .inl (kept h)
      · exact .inr (.inl h)
      · rcases Bindings.mem_set h with h | rfl
        · exact .inr (.inr h)
        · exact .inl bound
    · split at h
      · rename_i value hv
        rw [mem_all] at h ⊢
        rcases h with h | h | h
        · exact .inl h
        · exact .inr (.inl ((List.mem_filter.mp h).1))
        · rcases Bindings.mem_set h with h | rfl
          · exact .inr (.inr h)
          · exact .inr (.inl (Bindings.mem_of_get? hv))
      · exact h

theorem mem_flatten_of_sublist {xs ys : List Bindings} (h : xs.Sublist ys) :
    xs.flatten ⊆ ys.flatten := by
  intro b hb
  obtain ⟨scope, hs, hb⟩ := List.mem_flatten.mp hb
  exact List.mem_flatten.mpr ⟨scope, h.subset hs, hb⟩

/-- Fewer scopes have fewer bindings. -/
theorem mem_all_of_sublist {inner : List Bindings} (hi : inner.Sublist s.inner)
    (h : b ∈ ({ s with inner := inner } : Storage).all) : b ∈ s.all := by
  rw [mem_all] at h ⊢
  exact h.imp_left fun h => mem_flatten_of_sublist hi h

theorem mem_all_of_hidden {depth : Nat} (h : b ∈ (s.hidden depth).flatten) : b ∈ s.all :=
  mem_all.mpr (.inl (mem_flatten_of_sublist (List.take_sublist _ _) h))

theorem mem_all_restore {scopes : List Bindings} (h : b ∈ (s.restore scopes).all) :
    b ∈ s.all ∨ b ∈ scopes.flatten := by
  rw [mem_all] at h ⊢
  rw [restore, List.flatten_append, List.mem_append] at h
  rcases h with (h | h) | h
  · exact .inr h
  · exact .inl (.inl h)
  · exact .inl (.inr h)

theorem mem_all_of_exported {identical : String → Bool} {baseline : Bindings}
    (h : b ∈ s.exported identical baseline) : b ∈ s.all :=
  mem_all.mpr (.inr (.inl ((List.mem_filter.mp h).1)))

end Storage

/-- All values that occur in a machine: those that are bound, and those of the outcome that `exit`
has stored. -/
def Machine.values (m : Machine) : List Atom :=
  Bindings.values m.storage.all ++ m.baseline.values ++ m.exit.elim [] Outcome.values

theorem Machine.mem_values {m : Machine} {v : Atom} :
    v ∈ m.values ↔
      v ∈ m.storage.all.values ∨ v ∈ m.baseline.values ∨ ∃ o, m.exit = some o ∧ v ∈ o.values := by
  rw [values, List.append_assoc, List.mem_append, List.mem_append]
  cases m.exit <;> simp

/-- The values that a step has. -/
def Step.values : Step → List Atom
  | exit outcome | adopt _ outcome => outcome.values
  | insert _ value => value.values
  | merge _ bindings globals => bindings.values ++ globals.values
  | enter params => params.values
  | restore scopes => Bindings.values scopes.flatten
  | _ => []

namespace Bindings

theorem values_append (bs cs : Bindings) : Bindings.values (bs ++ cs) = bs.values ++ cs.values :=
  List.flatMap_append

variable {bs cs ds : Bindings} {v : Atom}

theorem mem_values_of_subset (h : ∀ b ∈ bs, b ∈ cs) (hv : v ∈ bs.values) : v ∈ cs.values := by
  obtain ⟨b, hb, hv⟩ := mem_values.mp hv
  exact mem_values.mpr ⟨b, h b hb, hv⟩

theorem mem_values_or (h : ∀ b ∈ bs, b ∈ cs ∨ b ∈ ds) (hv : v ∈ bs.values) :
    v ∈ cs.values ∨ v ∈ ds.values := by
  obtain ⟨b, hb, hv⟩ := mem_values.mp hv
  exact (h b hb).imp (fun hb => mem_values.mpr ⟨b, hb, hv⟩) fun hb => mem_values.mpr ⟨b, hb, hv⟩

end Bindings

/-- After a step a machine has the values that it had before, and those of the step. -/
theorem Step.mem_values_apply {s : Step} {m : Machine} {v : Atom} (h : v ∈ (s.apply m).values) :
    v ∈ m.values ∨ v ∈ s.values := by
  -- a step that changes the storage only
  have stored {storage : Storage} (hv : v ∈ ({ m with storage := storage } : Machine).values)
      (hs : v ∈ storage.all.values → v ∈ m.storage.all.values ∨ v ∈ s.values) :
      v ∈ m.values ∨ v ∈ s.values := by
    rw [Machine.mem_values] at hv ⊢
    rcases hv with hv | hv
    · exact (hs hv).imp_left .inl
    · exact .inl (.inr hv)
  -- a step that stores an outcome
  have ended {o : Outcome} (hv : v ∈ ({ m with exit := some o } : Machine).values) :
      v ∈ m.values ∨ v ∈ o.values := by
    rw [Machine.mem_values] at hv ⊢
    rcases hv with hv | hv | ⟨stored, hs, hv⟩
    · exact .inl (.inl hv)
    · exact .inl (.inr (.inl hv))
    · obtain rfl := Option.some.inj hs
      exact .inr hv
  cases s with
  | exit outcome => exact ended h
  | adopt origin outcome => exact ended h
  | insert name value =>
    refine stored h fun hv => ?_
    have bound : v ∈ m.storage.all.values ∨ v ∈ Bindings.values [(name, value)] :=
      Bindings.mem_values_or
        (fun b hb => (Storage.mem_all_insert hb).imp_right List.mem_singleton.mpr) hv
    exact bound.imp_right fun hv => by simpa [Bindings.values, values] using hv
  | declareGlobal name =>
    exact stored h fun hv =>
      .inl (Bindings.mem_values_of_subset (fun b => Storage.mem_all_declareGlobal) hv)
  | merge origin bindings globals =>
    refine stored h fun hv => ?_
    rw [values, ← Bindings.values_append]
    exact Bindings.mem_values_or
      (fun b hb => (Storage.mem_all_extend hb).imp_right List.mem_append.mpr) hv
  | enter params =>
    exact stored h fun hv =>
      Bindings.mem_values_or (fun b hb => Storage.mem_all_insertAll (s := m.storage.push) hb) hv
  | leave =>
    exact stored h fun hv => .inl (Bindings.mem_values_of_subset
      (fun b => Storage.mem_all_of_sublist (List.tail_sublist _)) hv)
  | hide depth =>
    exact stored h fun hv => .inl (Bindings.mem_values_of_subset
      (fun b => Storage.mem_all_of_sublist (List.drop_sublist _ _)) hv)
  | restore scopes =>
    exact stored h fun hv => Bindings.mem_values_or (fun b => Storage.mem_all_restore) hv
  | markBaseline =>
    rw [Machine.mem_values] at h ⊢
    rcases h with h | h | h
    · exact .inl (.inl h)
    · refine .inl (.inl (Bindings.mem_values_of_subset (fun b hb => ?_) h))
      exact Storage.mem_all.mpr (.inr (.inl hb))
    · exact .inl (.inr (.inr h))
  | takeTypeId | takeStamp | readClock | write | writeError | readLine | beginPrelude | nested =>
    exact .inl h

/-! ### Values in a program -/

/-- The values that a program can write down. -/
def Atom.Written : Atom → Prop
  | .int n => Fits n
  | .bool _ | .null | .string _ => True
  | _ => False

/-- No other value occurs in a value that a program can write down. -/
theorem Atom.Written.eq_of_mem_values {a v : Atom} (h : a.Written) (hv : v ∈ a.values) : v = a := by
  cases a with
  | int n | bool b | null | string s => exact List.mem_singleton.mp hv
  | list xs | object typeId fields | function f => cases h

/-- The value of a token that is one. -/
def Token.value? (token : Token) : Option Atom :=
  match token.lexeme with
  | .atom value => some value
  | _ => none

/-- A pass over a text whose tokens so far have values that a program can write down. -/
def Lexer.Written (lexer : Lexer) : Prop :=
  ∀ token ∈ lexer.tokens, ∀ v, token.value? = some v → v.Written

theorem Atom.written_of_keyword? {word : String} {v : Atom} (h : keyword? word = some v) :
    v.Written := by
  rw [keyword?] at h
  split at h
  · obtain rfl := Option.some.inj h
    trivial
  · split at h
    · obtain rfl := Option.some.inj h
      trivial
    · split at h
      · obtain rfl := Option.some.inj h
        trivial
      · cases h

theorem Token.written_of_ofWord {word : String} {span : Span} {token : Token}
    (h : Token.ofWord word span = .ok token) : ∀ v, token.value? = some v → v.Written := by
  intro v hv
  rw [Token.ofWord] at h
  split at h
  · rename_i lexeme hl
    obtain rfl := Except.ok.inj h
    rw [Lexeme.ofWord] at hl
    split at hl
    · rename_i value hk
      obtain rfl := Except.ok.inj hl
      obtain rfl := Option.some.inj hv
      exact Atom.written_of_keyword? hk
    · split at hl
      · split at hl
        · cases hl
        · split at hl
          · rename_i fits
            obtain rfl := Except.ok.inj hl
            obtain rfl := Option.some.inj hv
            exact fits
          · cases hl
      · obtain rfl := Except.ok.inj hl
        cases hv
  · cases h

namespace Lexer

variable {source : Option Source} {lexer next : Lexer}

theorem Written.emit (h : lexer.Written) {token : Token}
    (ht : ∀ v, token.value? = some v → v.Written) : (lexer.emit token).Written := by
  intro other ho
  rcases List.mem_cons.mp ho with rfl | ho
  · exact ht
  · exact h other ho

theorem Written.start (h : lexer.Written) (p : Position) (c : Char) :
    (lexer.start source p c).Written := by
  rw [Lexer.start]
  split
  · rename_i lexeme hm
    refine h.emit fun v hv => ?_
    rw [mark?] at hm
    split at hm
    · obtain rfl := Option.some.inj hm
      cases hv
    · split at hm
      · obtain rfl := Option.some.inj hm
        cases hv
      · split at hm
        · obtain rfl := Option.some.inj hm
          cases hv
        · cases hm
  · split
    · exact h
    · split
      · exact h
      · split <;> exact h

theorem Written.feed (h : lexer.Written) {pc : Position × Char}
    (hf : lexer.feed source pc = .ok next) : next.Written := by
  obtain ⟨p, c⟩ := pc
  rw [Lexer.feed] at hf
  split at hf
  · obtain rfl := Except.ok.inj hf
    exact h.start p c
  · split at hf
    · obtain rfl := Except.ok.inj hf
      exact h
    · split at hf
      · rename_i token ht
        obtain rfl := Except.ok.inj hf
        exact (h.emit (Token.written_of_ofWord ht)).start p c
      · cases hf
  · split at hf
    · obtain rfl := Except.ok.inj hf
      refine h.emit fun v hv => ?_
      obtain rfl := Option.some.inj hv
      trivial
    · obtain rfl := Except.ok.inj hf
      exact h
  · split at hf
    · obtain rfl := Except.ok.inj hf
      exact h.emit fun v hv => by cases hv
    · obtain rfl := Except.ok.inj hf
      exact h

theorem Written.feedAll (h : lexer.Written) {pcs : List (Position × Char)}
    (hf : Lexer.feedAll source lexer pcs = .ok next) : next.Written := by
  induction pcs generalizing lexer with
  | nil =>
    obtain rfl := Except.ok.inj hf
    exact h
  | cons pc pcs ih =>
    rw [Lexer.feedAll] at hf
    split at hf
    · rename_i between hb
      exact ih (h.feed hb) hf
    · cases hf

theorem Written.finish (h : lexer.Written) {tokens : List Token}
    (hf : lexer.finish source = .ok tokens) :
    ∀ token ∈ tokens, ∀ v, token.value? = some v → v.Written := by
  intro token ht
  rw [Lexer.finish] at hf
  split at hf
  · obtain rfl := Except.ok.inj hf
    exact h token (List.mem_reverse.mp ht)
  · split at hf
    · rename_i last hl
      obtain rfl := Except.ok.inj hf
      exact h.emit (Token.written_of_ofWord hl) token (List.mem_reverse.mp ht)
    · cases hf
  · cases hf
  · obtain rfl := Except.ok.inj hf
    exact h.emit (fun v hv => by cases hv) token (List.mem_reverse.mp ht)

end Lexer

theorem Token.written_of_scan {text : String} {source : Option Source} {tokens : List Token}
    (h : Token.scan text source = .ok tokens) :
    ∀ token ∈ tokens, ∀ v, token.value? = some v → v.Written := by
  have empty : Lexer.Written {} := fun _ ht => absurd ht List.not_mem_nil
  rw [Token.scan] at h
  split at h
  · rename_i lexer hl
    exact (empty.feedAll hl).finish h
  · cases h

namespace Builder

/-- The values that occur in the expressions that were built so far. -/
def values (b : Builder) : List Atom :=
  (b.stack.flatMap fun frame => Node.valuesAll frame.before) ++ Node.valuesAll b.args

variable {b next : Builder} {v : Atom}

theorem valuesAll_settled : Node.valuesAll b.settled = Node.valuesAll b.args := by
  rw [settled]
  split <;> rfl

theorem mem_valuesAll_reverse {nodes : List Node} :
    v ∈ Node.valuesAll nodes.reverse ↔ v ∈ Node.valuesAll nodes := by
  simp [Node.valuesAll_eq]

/-- A token adds its value. -/
theorem mem_values_feed {token : Token} (h : b.feed token = .ok next) (hv : v ∈ next.values) :
    v ∈ b.values ∨ ∃ a, token.value? = some a ∧ v ∈ a.values := by
  rw [feed] at h
  split at h
  · obtain rfl := Except.ok.inj h
    exact .inl (by simpa [values, valuesAll_settled] using hv)
  · obtain rfl := Except.ok.inj h
    exact .inl (by simpa [values, valuesAll_settled] using hv)
  · rename_i value ht
    obtain rfl := Except.ok.inj h
    simp only [values, Node.valuesAll, Node.values, valuesAll_settled, List.mem_append] at hv ⊢
    rcases hv with hv | hv | hv
    · exact .inl (.inl hv)
    · exact .inr ⟨value, by simp [Token.value?, ht], hv⟩
    · exact .inl (.inr hv)
  · obtain rfl := Except.ok.inj h
    exact .inl (by simpa [values, valuesAll_settled] using hv)
  · split at h
    · obtain rfl := Except.ok.inj h
      refine .inl ?_
      simp only [values, List.flatMap_cons, Node.valuesAll, List.append_nil, List.mem_append]
        at hv ⊢
      exact hv.symm
    · cases h
  · split at h
    · rename_i frame stack hs
      obtain rfl := Except.ok.inj h
      refine .inl ?_
      simp only [values, hs, List.flatMap_cons, Node.valuesAll, Node.values, List.mem_append,
        mem_valuesAll_reverse, valuesAll_settled] at hv ⊢
      rcases hv with hv | hv | hv
      · exact .inl (.inr hv)
      · exact .inr hv
      · exact .inl (.inl hv)
    · cases h

theorem mem_values_feedAll {tokens : List Token} (h : feedAll b tokens = .ok next)
    (hv : v ∈ next.values) :
    v ∈ b.values ∨ ∃ token ∈ tokens, ∃ a, token.value? = some a ∧ v ∈ a.values := by
  induction tokens generalizing b with
  | nil =>
    obtain rfl := Except.ok.inj h
    exact .inl hv
  | cons token tokens ih =>
    rw [feedAll] at h
    split at h
    · rename_i between hb
      rcases ih h with hv | ⟨other, ho, found⟩
      · rcases mem_values_feed hb hv with hv | found
        · exact .inl hv
        · exact .inr ⟨token, List.mem_cons_self, found⟩
      · exact .inr ⟨other, List.mem_cons_of_mem _ ho, found⟩
    · cases h

theorem mem_values_finish {nodes : List Node} (h : b.finish = .ok nodes)
    (hv : v ∈ Node.valuesAll nodes) : v ∈ b.values := by
  rw [finish] at h
  split at h
  · obtain rfl := Except.ok.inj h
    rw [mem_valuesAll_reverse, valuesAll_settled] at hv
    exact List.mem_append_right _ hv
  · cases h

end Builder

/-- The values of a program are those that a program can write down. -/
theorem Node.written_of_parse {text name : String} {source : Option Source} {program : Node}
    (h : Node.parse text source name = .ok program) : ∀ v ∈ program.values, v.Written := by
  intro v hv
  rw [Node.parse] at h
  cases hs : Token.scan text source with
  | error fault => simp [hs, bind, Except.bind] at h
  | ok tokens =>
    simp only [hs, bind, Except.bind, Node.ofTokens, Node.argsOfTokens] at h
    split at h
    · cases h
    · rename_i args ha
      obtain rfl := Except.ok.inj h
      split at ha
      · cases ha
      · split at ha
        · cases ha
        · rename_i built hb
          rcases Builder.mem_values_feedAll hb (Builder.mem_values_finish ha hv) with hv | found
          · cases hv
          · obtain ⟨token, ht, a, value, hv⟩ := found
            have written := Token.written_of_scan hs token ht a value
            exact (written.eq_of_mem_values hv) ▸ written

end CallLang
