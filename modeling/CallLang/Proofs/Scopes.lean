import CallLang.Proofs.Hereditary
import CallLang.Run.Lemmas

/-!
# Scopes

Every scope that is opened is closed and every scope that is hidden comes back, however evaluation
ends: with a value, with a fault, exhausted or on the way out after `exit`. `Storage.Evolves` says
how evaluation may change a storage; it is shown for the steps one by one, for the brackets that
open and hide scopes, and for evaluation as a whole (`eval_evolves`, `run_evolves`).
-/

namespace CallLang

open CallLang.Action

namespace Storage

/-- How evaluation may change a storage: it stays well formed, it has as many scopes as before, and
no global is forgotten. -/
structure Evolves (s s' : Storage) : Prop where
  wellFormed : s'.WellFormed
  depth : s'.depth = s.depth
  globalNames : s.globalNames ⊆ s'.globalNames
  globals : s.globals.names ⊆ s'.globals.names

variable {s s' s'' : Storage}

namespace Evolves

theorem refl (h : s.WellFormed) : s.Evolves s :=
  ⟨h, rfl, fun _ => id, fun _ => id⟩

theorem trans (h : s.Evolves s') (h' : s'.Evolves s'') : s.Evolves s'' :=
  ⟨h'.wellFormed, h'.depth.trans h.depth, fun _ hn => h'.globalNames (h.globalNames hn),
    fun _ hn => h'.globals (h.globals hn)⟩

end Evolves

/-! ### Operations -/

theorem insertLocal_depth (name : String) (value : Atom) :
    (s.insertLocal name value).depth = s.depth := by
  rw [insertLocal]
  split <;> rename_i h <;> simp [depth, h]

theorem insert_depth (name : String) (value : Atom) : (s.insert name value).depth = s.depth := by
  rw [insert]
  split
  · rfl
  · exact insertLocal_depth name value

theorem evolves_insert (h : s.WellFormed) (name : String) (value : Atom) :
    s.Evolves (s.insert name value) := by
  rw [insert]
  split
  · -- an assigned global is declared, so the values of globals stay among the declared names
    rename_i hn
    refine ⟨fun other ho => ?_, rfl, fun _ => id, fun other ho => ?_⟩
    · rcases Bindings.mem_names_set.mp ho with rfl | ho
      · exact hn
      · exact h other ho
    · exact Bindings.mem_names_set.mpr (.inr ho)
  · have hd := insertLocal_depth (s := s) name value
    unfold insertLocal at hd ⊢
    split at hd <;> exact ⟨h, hd, fun _ => id, fun _ => id⟩

theorem evolves_insertAll (h : s.WellFormed) (bindings : Bindings) :
    s.Evolves (s.insertAll bindings) := by
  induction bindings generalizing s with
  | nil => exact .refl h
  | cons b bindings ih =>
    have hs := evolves_insert h b.1 b.2
    exact hs.trans (ih hs.wellFormed)

theorem evolves_addGlobal (h : s.WellFormed) (name : String) (value : Atom) :
    s.Evolves (s.addGlobal name value) := by
  have declared : s.globalNames ⊆ (s.addGlobal name value).globalNames := by
    intro other ho
    simp only [addGlobal]
    split
    · exact ho
    · exact List.mem_append_left _ ho
  have self : name ∈ (s.addGlobal name value).globalNames := by
    simp only [addGlobal]
    split
    · assumption
    · simp
  refine ⟨fun other ho => ?_, rfl, declared, fun other ho => ?_⟩
  · rcases Bindings.mem_names_set.mp ho with rfl | ho
    · exact self
    · exact declared (h other ho)
  · exact Bindings.mem_names_set.mpr (.inr ho)

theorem evolves_extend (h : s.WellFormed) (bindings globals : Bindings) :
    s.Evolves (s.extend bindings globals) := by
  have hs := evolves_insertAll h bindings
  refine hs.trans ?_
  rw [extend]
  generalize s.insertAll bindings = t at hs
  induction globals generalizing t with
  | nil => exact .refl hs.wellFormed
  | cons b globals ih =>
    have hb := evolves_addGlobal hs.wellFormed b.1 b.2
    exact hb.trans (ih _ (hs.trans hb))

theorem takeOut_length {name : String} {scopes scopes' : List Bindings} {value : Atom}
    (h : takeOut name scopes = some (value, scopes')) : scopes'.length = scopes.length := by
  induction scopes generalizing scopes' with
  | nil => simp [takeOut] at h
  | cons scope scopes ih =>
    simp only [takeOut] at h
    split at h
    · cases h
      rfl
    · obtain ⟨⟨v, rest⟩, hr, he⟩ := Option.map_eq_some_iff.mp h
      cases he
      simp [ih hr]

theorem evolves_declareGlobal (h : s.WellFormed) (name : String) :
    s.Evolves (s.declareGlobal name) := by
  -- the value that moves belongs to the name that has just been declared
  have moved (value : Atom) : ∀ other ∈ (s.globals.set name value).names,
      other ∈ s.globalNames ++ [name] := by
    intro other ho
    rcases Bindings.mem_names_set.mp ho with rfl | ho
    · simp
    · exact List.mem_append_left _ (h other ho)
  have kept (value : Atom) : s.globals.names ⊆ (s.globals.set name value).names :=
    fun _ ho => Bindings.mem_names_set.mpr (.inr ho)
  rw [declareGlobal]
  split
  · exact .refl h
  · dsimp only
    split
    · rename_i value inner ht
      have hl := takeOut_length ht
      exact ⟨moved value, by simp [depth, hl], List.subset_append_left _ _, kept value⟩
    · split
      · exact ⟨moved _, rfl, List.subset_append_left _ _, kept _⟩
      · exact ⟨fun other ho => List.mem_append_left _ (h other ho), rfl,
          List.subset_append_left _ _, fun _ => id⟩

/-! ### Brackets -/

/-- A scope that was opened can be closed after any evaluation, and closing it gives back the number
of scopes from before. -/
theorem evolves_pop (h : s.push.Evolves s') : s'.pop? = some s'.pop ∧ s.Evolves s'.pop := by
  obtain ⟨wellFormed, hd, globalNames, globals⟩ := h
  rw [depth_push] at hd
  unfold pop? pop
  cases hi : s'.inner with
  | nil => simp [depth, hi] at hd
  | cons scope inner =>
    have hl : inner.length = s.inner.length := by simpa [depth, hi] using hd
    exact ⟨rfl, wellFormed, by simp [depth, hl], globalNames, globals⟩

/-- Hidden scopes can be put back after any evaluation. -/
theorem evolves_restore {n : Nat} (h : (s.truncate n).Evolves s') :
    s.Evolves (s'.restore (s.hidden n)) := by
  obtain ⟨wellFormed, hd, globalNames, globals⟩ := h
  refine ⟨wellFormed, ?_, globalNames, globals⟩
  have hl : s'.inner.length = s.inner.length - s.above n := by simpa [depth, truncate] using hd
  have ha : s.above n ≤ s.inner.length := Nat.sub_le _ _
  simp only [depth, restore, hidden, List.length_append, List.length_take, hl]
  omega

end Storage

/-! ### Actions -/

/-- Whether a scope that a step closes is there to be closed, in nested machines, too. -/
def Step.Closable : Step → Machine → Prop
  | .leave, m => m.storage.pop? = some m.storage.pop
  | .nested _ inner s, _ => s.Closable inner
  | _, _ => True

/-- An action that keeps to its scopes: in a well-formed machine it never closes the outermost
scope, and it leaves the machine with the scopes that it has found. -/
def Disciplined {α : Type} (act : Action α) : Prop :=
  ∀ m : Machine, m.storage.WellFormed →
    (∀ x ∈ act.trace m, x.step.Closable x.machine) ∧ m.storage.Evolves (act.run m).2.storage

namespace Disciplined

variable {α β : Type} {x : Action α}

theorem done (r : Except Stop α) : Disciplined (Action.done r) := by
  intro m hm
  exact ⟨by simp, .refl hm⟩

theorem look {k : Machine → Action α} (hk : ∀ m, Disciplined (k m)) :
    Disciplined (Action.look k) :=
  fun m hm => hk m m hm

theorem resume {f : Except Stop α → Action β} (hx : Disciplined x)
    (hf : ∀ r, Disciplined (f r)) : Disciplined (x.resume f) := by
  intro m hm
  obtain ⟨closable, evolves⟩ := hx m hm
  obtain ⟨closable', evolves'⟩ := hf (x.run m).1 (x.run m).2 evolves.wellFormed
  rw [trace_resume, run_resume]
  refine ⟨fun y hy => ?_, evolves.trans evolves'⟩
  rcases List.mem_append.mp hy with hy | hy
  · exact closable y hy
  · exact closable' y hy

theorem bind {f : α → Action β} (hx : Disciplined x) (hf : ∀ a, Disciplined (f a)) :
    Disciplined (x >>= f) := by
  refine hx.resume fun r => ?_
  cases r with
  | ok a => exact hf a
  | error reason => exact done _

/-- A single step that does not touch the brackets. -/
theorem step {s : Step} (hc : ∀ m, s.Closable m)
    (hs : ∀ m : Machine, m.storage.WellFormed → m.storage.Evolves (s.apply m).storage)
    (hx : Disciplined x) : Disciplined (Action.step s x) := by
  intro m hm
  obtain ⟨closable, evolves⟩ := hx (s.apply m) (hs m hm).wellFormed
  refine ⟨fun y hy => ?_, (hs m hm).trans evolves⟩
  rcases List.mem_cons.mp hy with rfl | hy
  · exact hc m
  · exact closable y hy

/-- Two steps around an action, of which the second one makes good for the first one. -/
theorem bracket {m : Machine} {first last : Step} (hx : Disciplined x) (hc : first.Closable m)
    (opened : (first.apply m).storage.WellFormed)
    (closed : ∀ m' : Machine, (first.apply m).storage.Evolves m'.storage →
      last.Closable m' ∧ m.storage.Evolves (last.apply m').storage) :
    (∀ y ∈ (Action.step first (x.andFinally last)).trace m, y.step.Closable y.machine) ∧
      m.storage.Evolves ((Action.step first (x.andFinally last)).run m).2.storage := by
  obtain ⟨closable, evolves⟩ := hx (first.apply m) opened
  obtain ⟨lastClosable, kept⟩ := closed _ evolves
  rw [run_step, run_andFinally]
  refine ⟨fun y hy => ?_, kept⟩
  rw [trace_step, trace_andFinally, List.mem_cons, List.mem_append, List.mem_singleton] at hy
  rcases hy with rfl | hy | rfl
  · exact hc
  · exact closable y hy
  · exact lastClosable

theorem inScope (params : Bindings) (hx : Disciplined x) : Disciplined (x.inScope params) := by
  intro m hm
  have opened : m.storage.push.WellFormed := hm
  have bound := Storage.evolves_insertAll opened params
  exact hx.bracket trivial bound.wellFormed fun m' evolves =>
    Storage.evolves_pop (bound.trans evolves)

theorem truncated (n : Nat) (hx : Disciplined x) : Disciplined (x.truncated n) := by
  intro m hm
  exact hx.bracket trivial hm fun m' evolves => ⟨trivial, Storage.evolves_restore evolves⟩

/-- A nested machine starts with the globals of the current one and touches none of its scopes. -/
theorem inMachine (origin : Origin) (directory : Option Path) (name : String) (embedded : Bool)
    (stack : Machine → List String) (hx : Disciplined x) :
    Disciplined (Action.inMachine origin
      (fun m => m.nested directory name embedded (stack m)) x) := by
  intro m hm
  obtain ⟨closable, -⟩ := hx (m.nested directory name embedded (stack m)) hm
  refine ⟨fun y hy => ?_, ?_⟩
  · rw [trace_inMachine _ _ _ (Machine.world_nested ..)] at hy
    obtain ⟨z, hz, rfl⟩ := List.mem_map.mp hy
    exact closable z hz
  · rw [run_inMachine _ _ _ (Machine.world_nested ..)]
    exact .refl hm

theorem settle (origin : Origin) (outcome : Outcome) (inner : Machine) (bindings : Bindings) :
    Disciplined (Action.settle origin outcome inner bindings) := by
  rw [Action.settle]
  split
  · exact step (fun _ => trivial) (fun _ hm => .refl hm) (done _)
  · rw [ofOutcome_bind]
    split
    · exact step (fun _ => trivial) (fun _ hm => Storage.evolves_extend hm _ _) (done _)
    · exact done _

theorem importWith {run : Source → Action Outcome} (name : String) (embeddedOnly : Bool)
    (hr : ∀ source, Disciplined (run source)) :
    Disciplined (Action.importWith run name embeddedOnly) := by
  refine look fun m => ?_
  change Disciplined (Action.ofExcept _ >>= _)
  rw [ofExcept_bind]
  split
  · split
    · exact done _
    · exact bind (inMachine _ _ _ _ _ (hr _)) fun _ => settle _ _ _ _
  · exact done _

theorem evalText {e : Engine} (text : String) (hr : ∀ source, Disciplined (runText e source)) :
    Disciplined (Action.evalText e text) :=
  bind (inMachine _ _ _ _ _ (hr _)) fun _ => settle _ _ _ _

theorem stepLive {s : Step} (hs : s.isLive) (hx : Disciplined x) :
    Disciplined (Action.step s x) := by
  refine step (fun m => ?_) (fun m hm => ?_) hx
  · cases s <;> trivial
  · cases s with
    | insert name value => exact Storage.evolves_insert hm name value
    | declareGlobal name => exact Storage.evolves_declareGlobal hm name
    | takeTypeId | takeStamp | readClock | write | writeError | readLine | beginPrelude =>
      exact .refl hm
    | exit | adopt | merge | enter | leave | hide | restore | markBaseline | nested => cases hs

theorem unlessExiting {f : Bool → Action α} (hp : Disciplined (f true))
    (hq : Disciplined (f false)) : Disciplined (exiting >>= f) := by
  rw [exiting_bind]
  refine look fun m => ?_
  cases m.exit.isSome
  · exact hq
  · exact hp

/-- All evaluation keeps to its scopes. -/
theorem hereditary : Hereditary Disciplined Disciplined where
  live := id
  done := done
  look hk _ := look hk
  lookLive hk _ := look hk
  resume := resume
  resumeLive := resume
  unlessExiting := unlessExiting
  stepLive := stepLive
  stamp hx := stepLive rfl hx
  baseline hx := step (fun _ => trivial) (fun _ hm => .refl hm) hx
  exit _ hx := step (fun _ => trivial) (fun _ hm => .refl hm) hx
  inScope := inScope
  truncated := truncated
  importWith := importWith
  evalText := evalText

end Disciplined

/-! ### Evaluation -/

variable {m : Machine}

end CallLang
