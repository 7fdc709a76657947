import CallLang.Proofs.HiddenScopes
import CallLang.Proofs.Unwinding
import Mathlib.Data.List.Forall2

/-!
# What code in a scope leaves to its caller

Code that runs in a scope of its own binds names there and opens further scopes, which it closes
again. The only thing that it can do to the scopes around it is to declare a name global that they
bind: the innermost binding then becomes the global. So the scopes of the caller lose nothing but
names that were declared in the meantime, and all other names are read as before
(`scope_frames_caller`).
-/

namespace CallLang

namespace Storage

/-! ### Scopes that lose names -/

/-- A scope that has become smaller while `s` became `t`: it has lost nothing but names that were
declared in the meantime and that are globals with a value now. -/
def Thinned (s t : Storage) (before after : Bindings) : Prop :=
  ∃ gone : List String, after = before.filter (fun b => b.1 ∉ gone) ∧
    ∀ name ∈ gone, name ∉ s.globalNames ∧ name ∈ t.globalNames ∧ name ∈ t.globals.names

/-- While `s` became `t`, no global was forgotten, and the scopes `before` became `after`. -/
structure Leaves (s t : Storage) (before after : List Bindings) : Prop where
  globalNames : s.globalNames ⊆ t.globalNames
  globals : s.globals.names ⊆ t.globals.names
  scopes : List.Forall₂ (Thinned s t) before after

variable {s t u : Storage} {name : String}

theorem Thinned.refl (s t : Storage) (scope : Bindings) : Thinned s t scope scope := by
  refine ⟨[], ?_, ?_⟩
  · simp
  · intro name hn
    cases hn

theorem thinned_erase (free : name ∉ s.globalNames) (declared : name ∈ t.globalNames)
    (value : name ∈ t.globals.names) (scope : Bindings) : Thinned s t scope (scope.erase name) := by
  refine ⟨[name], ?_, ?_⟩
  · simp [Bindings.erase]
  · intro other ho
    obtain rfl := List.mem_singleton.mp ho
    exact ⟨free, declared, value⟩

namespace Leaves

variable {scopes scopes' scopes'' : List Bindings}

theorem refl (s : Storage) (scopes : List Bindings) : Leaves s s scopes scopes :=
  ⟨fun _ => id, fun _ => id, List.forall₂_same.mpr fun scope _ => .refl s s scope⟩

theorem thinned_trans (h : Leaves s t scopes scopes') (h' : Leaves t u scopes' scopes'')
    {a b c : Bindings} (hab : Thinned s t a b) (hbc : Thinned t u b c) : Thinned s u a c := by
  obtain ⟨gone, rfl, first⟩ := hab
  obtain ⟨gone', rfl, second⟩ := hbc
  refine ⟨gone' ++ gone, ?_, ?_⟩
  · simp only [List.filter_filter, List.mem_append, not_or, Bool.decide_and]
  · intro name hn
    rcases List.mem_append.mp hn with hn | hn
    · obtain ⟨free, declared, value⟩ := second name hn
      exact ⟨fun known => free (h.globalNames known), declared, value⟩
    · obtain ⟨free, declared, value⟩ := first name hn
      exact ⟨free, h'.globalNames declared, h'.globals value⟩

theorem trans (h : Leaves s t scopes scopes') (h' : Leaves t u scopes' scopes'') :
    Leaves s u scopes scopes'' := by
  refine ⟨List.Subset.trans h.globalNames h'.globalNames, List.Subset.trans h.globals h'.globals,
    ?_⟩
  have thinned {a b c : Bindings} (hab : Thinned s t a b) (hbc : Thinned t u b c) :
      Thinned s u a c := h.thinned_trans h' hab hbc
  have first := h.scopes
  have second := h'.scopes
  clear h h'
  induction first generalizing scopes'' with
  | nil =>
    cases second
    exact .nil
  | cons hab _ ih =>
    cases second with
    | cons hbc rest => exact .cons (thinned hab hbc) (ih rest)

theorem tail (h : Leaves s t scopes scopes') : Leaves s t scopes.tail scopes'.tail := by
  refine ⟨h.globalNames, h.globals, ?_⟩
  have rest := List.forall₂_drop 1 h.scopes
  rwa [List.drop_one, List.drop_one] at rest

/-- A name that is not declared is read from the scopes as before. -/
theorem lookup_eq (h : Leaves s t scopes scopes') (hn : name ∉ t.globalNames) :
    lookup name scopes' = lookup name scopes := by
  have thinned := h.scopes
  clear h
  induction thinned with
  | nil => rfl
  | @cons scope scope' _ _ first _ ih =>
    obtain ⟨gone, rfl, declared⟩ := first
    have kept : name ∉ gone := fun hg => hn (declared name hg).2.1
    have same : Bindings.get? (scope.filter fun b => b.1 ∉ gone) name = scope.get? name := by
      have found := scope.get?_filter_names (· ∉ gone) name
      simpa [kept] using found
    rw [lookup_cons, lookup_cons, same, ih]

theorem get?_eq (h : Leaves s t s.scopes t.scopes) (hn : name ∉ t.globalNames) :
    t.get? name = s.get? name := by
  have free : name ∉ s.globalNames := fun known => hn (h.globalNames known)
  rw [get?_eq_or, get?_eq_or, getGlobal?, getGlobal?, if_neg hn, if_neg free, h.lookup_eq hn]

end Leaves

/-! ### Operations -/

/-- The scope that gives up a binding loses the name, and the others are as before. -/
theorem forall₂_takeOut {R : Bindings → Bindings → Prop} (same : ∀ scope, R scope scope)
    (erased : ∀ scope : Bindings, R scope (scope.erase name)) {scopes scopes' : List Bindings}
    {value : Atom} (h : takeOut name scopes = some (value, scopes')) :
    List.Forall₂ R scopes scopes' := by
  induction scopes generalizing scopes' with
  | nil => cases h
  | cons scope scopes ih =>
    rw [takeOut] at h
    split at h
    · obtain ⟨-, rfl⟩ := Prod.mk.inj (Option.some.inj h)
      exact .cons (erased scope) (List.forall₂_same.mpr fun other _ => same other)
    · obtain ⟨⟨found, others⟩, taken, e⟩ := Option.map_eq_some_iff.mp h
      obtain ⟨rfl, rfl⟩ := Prod.mk.inj e
      exact .cons (same scope) (ih taken)

/-- A declaration takes the name out of one scope at most, and then gives it a value. -/
theorem forall₂_declareGlobal (free : name ∉ s.globalNames) :
    List.Forall₂ (Thinned s (s.declareGlobal name)) s.scopes (s.declareGlobal name).scopes := by
  have declared : name ∈ (s.declareGlobal name).globalNames :=
    mem_globalNames_declareGlobal.mpr (.inr rfl)
  have erased (value : Atom) (moved : (s.declareGlobal name).globals = s.globals.set name value)
      (scope : Bindings) : Thinned s (s.declareGlobal name) scope (scope.erase name) :=
    thinned_erase free declared (moved ▸ Bindings.mem_names_set.mpr (.inl rfl)) scope
  have same (scope : Bindings) : Thinned s (s.declareGlobal name) scope scope := .refl _ _ scope
  revert declared erased same
  generalize result : s.declareGlobal name = t
  intro declared erased same
  rw [declareGlobal, if_neg free] at result
  dsimp only at result
  split at result
  · rename_i value inner taken
    subst result
    exact List.rel_append (forall₂_takeOut same (erased value rfl) taken) (.cons (same _) .nil)
  · have inner : List.Forall₂ (Thinned s t) s.inner s.inner :=
      List.forall₂_same.mpr fun scope _ => same scope
    split at result
    · rename_i value _
      subst result
      exact List.rel_append inner (.cons (erased value rfl _) .nil)
    · subst result
      exact List.rel_append inner (.cons (same _) .nil)

/-! ### The scopes around the innermost one -/

/-- The scopes around the innermost one. -/
def around (s : Storage) : List Bindings := s.scopes.tail

theorem length_around (s : Storage) : s.around.length = s.inner.length := by
  simp [around, scopes]

/-- Closing a scope uncovers the scopes around it. -/
theorem scopes_pop (opened : s.inner ≠ []) : s.pop.scopes = s.around := by
  rw [around, scopes, scopes, List.tail_append_of_ne_nil opened]
  rfl

namespace Leaves

theorem opened (h : Leaves s t s.around t.around) (opened : s.inner ≠ []) : t.inner ≠ [] := by
  have same := h.scopes.length_eq
  rw [length_around, length_around] at same
  rw [← List.length_pos_iff] at opened ⊢
  omega

/-- What happens in a scope, seen after it is closed. -/
theorem pop (h : Leaves s.push t s.push.around t.around) :
    Leaves s t.pop s.scopes t.pop.scopes := by
  have opened : t.inner ≠ [] := h.opened (List.cons_ne_nil _ _)
  obtain ⟨globalNames, globals, scopes⟩ := h
  rw [scopes_pop opened]
  exact ⟨globalNames, globals, scopes⟩

end Leaves

namespace Op

theorem leaves_apply (op : Op) (u : InUse) {scopes scopes' : List Bindings}
    (h : List.Forall₂ (Thinned u.storage (op.apply u).storage) scopes scopes') :
    Leaves u.storage (op.apply u).storage scopes scopes' := by
  refine ⟨fun g hg => globalNames_apply hg, ?_, h⟩
  rw [globals_apply]
  exact (Bindings.names_prefix_setAll _ _).subset

/-- An assignment in an open scope does not touch the scopes around it. -/
theorem leaves_insert {u : InUse} (opened : u.storage.inner ≠ []) (name : String) (value : Atom) :
    Leaves u.storage ((insert name value).apply u).storage u.storage.around
      ((insert name value).apply u).storage.around := by
  obtain ⟨opened', tail, outermost, -⟩ := insert_inner opened name value
  have same : (u.storage.insert name value).around = u.storage.around := by
    rw [← scopes_pop opened, ← scopes_pop opened', scopes, scopes]
    simp only [Storage.pop, tail, outermost]
  refine leaves_apply (insert name value) u ?_
  show List.Forall₂ _ u.storage.around (u.storage.insert name value).around
  rw [same]
  exact List.forall₂_same.mpr fun scope _ => .refl _ _ scope

theorem leaves_declareGlobal (u : InUse) (name : String) :
    Leaves u.storage ((declareGlobal name).apply u).storage u.storage.scopes
      ((declareGlobal name).apply u).storage.scopes := by
  by_cases known : name ∈ u.storage.globalNames
  · have same : u.storage.declareGlobal name = u.storage := if_pos known
    rw [apply, same]
    exact .refl _ _
  · exact leaves_apply (declareGlobal name) u (forall₂_declareGlobal known)

theorem leaves_addGlobal (u : InUse) (name : String) (value : Atom) :
    Leaves u.storage ((addGlobal name value).apply u).storage u.storage.scopes
      ((addGlobal name value).apply u).storage.scopes :=
  leaves_apply (addGlobal name value) u (List.forall₂_same.mpr fun scope _ => .refl _ _ scope)

/-- Operations that close all scopes that they open and no others, and hide none. -/
inductive Bracketed : List Op → Prop where
  | nil : Bracketed []
  | insert (name : String) (value : Atom) {ops : List Op} :
      Bracketed ops → Bracketed (.insert name value :: ops)
  | declareGlobal (name : String) {ops : List Op} :
      Bracketed ops → Bracketed (.declareGlobal name :: ops)
  | addGlobal (name : String) (value : Atom) {ops : List Op} :
      Bracketed ops → Bracketed (.addGlobal name value :: ops)
  | scope {inside ops : List Op} :
      Bracketed inside → Bracketed ops → Bracketed (.push :: (inside ++ .pop :: ops))

end Op

namespace InUse

/-- What is done in an open scope leaves to the scopes around it all but declared names. -/
theorem leaves_run {ops : List Op} (h : Op.Bracketed ops) {u : InUse}
    (opened : u.storage.inner ≠ []) :
    Leaves u.storage (u.run ops).storage u.storage.around (u.run ops).storage.around := by
  induction h generalizing u with
  | nil => exact .refl _ _
  | insert name value _ ih =>
    have first := Op.leaves_insert opened name value
    exact first.trans (ih (first.opened opened))
  | declareGlobal name _ ih =>
    have first := (Op.leaves_declareGlobal u name).tail
    exact first.trans (ih (first.opened opened))
  | addGlobal name value _ ih =>
    have first := (Op.leaves_addGlobal u name value).tail
    exact first.trans (ih (first.opened opened))
  | @scope inside ops _ _ ihInside ihOps =>
    let closed := Op.pop.apply ((Op.push.apply u).run inside)
    have later : u.run (.push :: (inside ++ .pop :: ops)) = closed.run ops :=
      ((Op.push.apply u).run_run inside (.pop :: ops)).symm
    have within := ihInside (u := Op.push.apply u) (List.cons_ne_nil _ _)
    have first : Leaves u.storage closed.storage u.storage.around closed.storage.around :=
      (Leaves.pop within).tail
    rw [later]
    exact first.trans (ihOps (first.opened opened))

end InUse

/-- Whatever is done in a scope that is opened and closed again, with further scopes in it: after it
there are as many scopes as before, each of them is as before but for names that were declared
global in the meantime and have become globals, and all names that are not declared are read as
before. -/
theorem scope_frames_caller (u : InUse) {ops : List Op} (h : Op.Bracketed ops) :
    let s := u.storage
    let t := (u.run (.push :: (ops ++ [.pop]))).storage
    t.depth = s.depth ∧
      List.Forall₂ (fun before after : Bindings => ∃ gone : List String,
        after = before.filter (fun b => b.1 ∉ gone) ∧
        ∀ name ∈ gone, name ∉ s.globalNames ∧ name ∈ t.globalNames ∧ name ∈ t.globals.names)
        s.scopes t.scopes ∧
      ∀ name, name ∉ t.globalNames → t.get? name = s.get? name := by
  intro s t
  have inside := InUse.leaves_run h (u := Op.push.apply u) (List.cons_ne_nil _ _)
  have closed : t = ((Op.push.apply u).run ops).storage.pop :=
    congrArg InUse.storage ((Op.push.apply u).run_concat ops .pop)
  have leaves : Leaves s t s.scopes t.scopes := closed ▸ Leaves.pop inside
  refine ⟨?_, leaves.scopes, fun name hn => leaves.get?_eq hn⟩
  have count := leaves.scopes.length_eq
  simpa [scopes, depth] using count.symm

/-- A block declares `x` and `y` in a scope further in, and binds `x` before and after it. The
binding of `x` in the block becomes the global, and the scope around the block keeps its own. -/
theorem scope_frames_caller_of_nested :
    let u : InUse :=
      ⟨{ outermost := [("y", .int 2), ("z", .int 3)], inner := [[("x", .int 1)]] }, []⟩
    let ops : List Op :=
      [.insert "x" (.int 4),
        .push, .declareGlobal "x", .declareGlobal "y", .insert "z" (.int 5), .pop,
        .insert "x" (.int 6), .addGlobal "w" (.int 7)]
    let t := (u.run (.push :: (ops ++ [.pop]))).storage
    Op.Bracketed ops ∧ t.depth = 2 ∧ t.get? "z" = u.storage.get? "z" ∧
      t.scopes.map Bindings.names = [["x"], ["z"]] ∧ t.globals.names = ["x", "y", "w"] := by
  intro u ops t
  have inside : Op.Bracketed [.declareGlobal "x", .declareGlobal "y", .insert "z" (.int 5)] :=
    .declareGlobal _ (.declareGlobal _ (.insert _ _ .nil))
  have bracketed : Op.Bracketed ops :=
    .insert _ _ (.scope inside (.insert _ _ (.addGlobal _ _ .nil)))
  obtain ⟨depth, -, reads⟩ := scope_frames_caller u bracketed
  have free : "z" ∉ t.globalNames := by decide
  exact ⟨bracketed, depth, reads "z" free, by decide, by decide⟩

end Storage

end CallLang
