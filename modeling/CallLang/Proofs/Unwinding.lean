import CallLang.Proofs.History
import CallLang.Proofs.Scopes

/-!
# What ending programs leave behind

Once a program is ending, its calls return one after the other, and nothing but their scopes should
go. Scopes that an unevaluated argument does not see are hidden and still count as being there:
`withScopes` pairs each moment of a history with all scopes of that moment.

The scopes that are left in the end have not changed since the program is ending (`Unwinds`). The
bindings of the outermost scope, the globals and the type ids have not changed either, unless a call
binds a parameter that is a global or a nested program is at work.
-/

namespace CallLang

open CallLang.Action

namespace Storage

variable {s : Storage}

/-- Binding names while a call is open touches no scope but the one of the call. -/
theorem insert_inner (hs : s.inner ≠ []) (name : String) (value : Atom) :
    (s.insert name value).inner ≠ [] ∧ (s.insert name value).inner.tail = s.inner.tail ∧
      (s.insert name value).outermost = s.outermost ∧
      (s.insert name value).globalNames = s.globalNames := by
  rw [insert]
  split
  · exact ⟨hs, rfl, rfl, rfl⟩
  · cases hi : s.inner with
    | nil => exact absurd hi hs
    | cons scope scopes => simp [insertLocal, hi]

theorem insertAll_inner (hs : s.inner ≠ []) (bindings : Bindings) :
    (s.insertAll bindings).inner.tail = s.inner.tail ∧
      (s.insertAll bindings).outermost = s.outermost ∧
      (s.insertAll bindings).globalNames = s.globalNames := by
  induction bindings generalizing s with
  | nil => exact ⟨rfl, rfl, rfl⟩
  | cons b bindings ih =>
    obtain ⟨nonempty, tail, outermost, globalNames⟩ := insert_inner hs b.1 b.2
    obtain ⟨tail', outermost', globalNames'⟩ := ih nonempty
    exact ⟨tail'.trans tail, outermost'.trans outermost, globalNames'.trans globalNames⟩

theorem extend_inner (bindings globals : Bindings) :
    (s.extend bindings globals).inner = (s.insertAll bindings).inner := by
  rw [extend]
  generalize s.insertAll bindings = t
  induction globals generalizing t with
  | nil => rfl
  | cons b globals ih => exact ih _

theorem extend_depth (bindings globals : Bindings) :
    (s.extend bindings globals).depth = s.depth := by
  rw [depth, extend_inner]
  induction bindings generalizing s with
  | nil => rfl
  | cons b bindings ih => exact ih.trans (insert_depth b.1 b.2)

end Storage

/-! ### Scopes of a history -/

/-- The scopes that are hidden after a step if `hidden` are hidden before it. What was hidden first
comes first. -/
def Moment.hiddenAfter (x : Moment) (hidden : List Bindings) : List Bindings :=
  match x.step with
  | .hide depth => hidden ++ x.machine.storage.hidden depth
  | .restore scopes => hidden.take (hidden.length - scopes.length)
  | _ => hidden

theorem Moment.hiddenAfter_of_isLoading (x : Moment) (hx : x.step.isLoading) :
    x.hiddenAfter = id := by
  obtain ⟨m, s⟩ := x
  cases s <;> first | rfl | cases hx

/-- The scopes that are hidden after all steps of a history. -/
def hiddenBy (hidden : List Bindings) (xs : List Moment) : List Bindings :=
  xs.foldl (fun hidden x => x.hiddenAfter hidden) hidden

/-- The moments of a history, each with all inner scopes that there are then, hidden or not. -/
def withScopes : List Bindings → List Moment → List (Moment × List Bindings)
  | _, [] => []
  | hidden, x :: xs =>
    (x, hidden ++ x.machine.storage.inner) :: withScopes (x.hiddenAfter hidden) xs

theorem withScopes_append (hidden : List Bindings) (xs ys : List Moment) :
    withScopes hidden (xs ++ ys) = withScopes hidden xs ++ withScopes (hiddenBy hidden xs) ys := by
  induction xs generalizing hidden with
  | nil => rfl
  | cons x xs ih => exact congrArg _ (ih _)

theorem hiddenBy_append (hidden : List Bindings) (xs ys : List Moment) :
    hiddenBy hidden (xs ++ ys) = hiddenBy (hiddenBy hidden xs) ys := by
  simp [hiddenBy]

theorem exists_mem_withScopes {xs : List Moment} {x : Moment} (hx : x ∈ xs)
    (hidden : List Bindings) : ∃ scopes, (x, scopes) ∈ withScopes hidden xs := by
  induction xs generalizing hidden with
  | nil => simp at hx
  | cons y xs ih =>
    rcases List.mem_cons.mp hx with rfl | hx
    · exact ⟨_, List.mem_cons_self⟩
    · obtain ⟨scopes, hs⟩ := ih hx (y.hiddenAfter hidden)
      exact ⟨scopes, List.mem_cons_of_mem _ hs⟩

theorem mem_of_mem_withScopes {hidden : List Bindings} {xs : List Moment}
    {p : Moment × List Bindings} (hp : p ∈ withScopes hidden xs) : p.1 ∈ xs := by
  induction xs generalizing hidden with
  | nil => simp [withScopes] at hp
  | cons x xs ih =>
    rcases List.mem_cons.mp hp with rfl | hp
    · exact List.mem_cons_self
    · exact List.mem_cons_of_mem _ (ih hp)

/-- As long as nothing is hidden or put back, the hidden scopes stay the same. -/
theorem hiddenBy_eq {xs : List Moment} (quiet : ∀ x ∈ xs, x.hiddenAfter = id)
    (hidden : List Bindings) : hiddenBy hidden xs = hidden := by
  induction xs with
  | nil => rfl
  | cons x xs ih =>
    obtain ⟨now, later⟩ := List.forall_mem_cons.mp quiet
    simpa [hiddenBy, now] using ih later

theorem scopes_of_mem_withScopes {xs : List Moment} (quiet : ∀ x ∈ xs, x.hiddenAfter = id)
    {hidden : List Bindings} {p : Moment × List Bindings} (hp : p ∈ withScopes hidden xs) :
    p.2 = hidden ++ p.1.machine.storage.inner := by
  induction xs with
  | nil => simp [withScopes] at hp
  | cons x xs ih =>
    obtain ⟨now, later⟩ := List.forall_mem_cons.mp quiet
    rw [withScopes, now, id] at hp
    rcases List.mem_cons.mp hp with rfl | hp
    · rfl
    · exact ih later hp

/-! ### Actions -/

/-- An action hides nothing for good, and the scopes that it leaves have not changed since the
program is ending. -/
structure Unwinds {α : Type} (act : Action α) (m : Machine) : Prop where
  balanced (hidden : List Bindings) : hiddenBy hidden (act.trace m) = hidden
  kept (hidden : List Bindings) : ∀ p ∈ withScopes hidden (act.trace m), p.1.ending →
    (hidden ++ (act.run m).2.storage.inner).Sublist p.2
  ended : m.exit.isSome → (act.run m).2.storage.inner = m.storage.inner

namespace Unwinds

variable {α β : Type} {x : Action α} {m : Machine}

theorem done (r : Except Stop α) (m : Machine) : Unwinds (Action.done r) m :=
  ⟨fun _ => rfl, by simp [withScopes], fun _ => rfl⟩

theorem look {k : Machine → Action α} (hk : Unwinds (k m) m) : Unwinds (Action.look k) m :=
  ⟨hk.balanced, hk.kept, hk.ended⟩

theorem resume {f : Except Stop α → Action β} (hx : Unwinds x m)
    (hf : ∀ r, Unwinds (f r) (x.run m).2) : Unwinds (x.resume f) m := by
  have next := hf (x.run m).1
  constructor
  · intro hidden
    rw [trace_resume, hiddenBy_append, hx.balanced, next.balanced]
  · intro hidden p hp he
    rw [trace_resume, withScopes_append, hx.balanced] at hp
    rw [run_resume]
    rcases List.mem_append.mp hp with hp | hp
    · -- the program is ending when the first action is done
      rw [next.ended (isSome_exit_of_mem (mem_of_mem_withScopes hp) he)]
      exact hx.kept hidden p hp he
    · exact next.kept hidden p hp he
  · intro hm
    rw [run_resume, next.ended (isSome_exit_run x hm), hx.ended hm]

/-- A step that neither hides nor puts back, and that leaves the scopes of an ending program. -/
theorem step {s : Step} (quiet : (⟨m, s⟩ : Moment).hiddenAfter = id)
    (same : m.exit.isSome → (s.apply m).storage.inner = m.storage.inner)
    (hx : Unwinds x (s.apply m)) : Unwinds (Action.step s x) m := by
  have ended (hm : m.exit.isSome) : (x.run (s.apply m)).2.storage.inner = m.storage.inner :=
    (hx.ended (s.isSome_exit_apply hm)).trans (same hm)
  refine ⟨fun hidden => ?_, fun hidden p hp he => ?_, ended⟩
  · rw [trace_step, hiddenBy, List.foldl_cons, quiet]
    exact hx.balanced hidden
  · rw [trace_step, withScopes, quiet] at hp
    rcases List.mem_cons.mp hp with rfl | hp
    · simp [ended he]
    · exact hx.kept hidden p hp he

/-- An action that neither hides nor puts back, and that leaves the scopes of an ending program. -/
theorem of_quiet (quiet : ∀ y ∈ x.trace m, y.hiddenAfter = id)
    (same : ∀ y ∈ x.trace m, y.ending → y.after.storage.inner = y.machine.storage.inner) :
    Unwinds x m := by
  have kept := (kept_iff (fun m => m.storage.inner) x m).mpr same
  refine ⟨hiddenBy_eq quiet, fun hidden p hp he => ?_, fun hm => ?_⟩
  · rw [scopes_of_mem_withScopes quiet hp]
    simp [kept p.1 (mem_of_mem_withScopes hp) he]
  · exact kept_of_ending (fun m => m.storage.inner) hm kept

/-- Steps before and after an action that belong together: the second one brings back what the first
one hides, and gives the scopes from before if the action gives those that it has found. -/
theorem bracket {first last : Step} (hx : Unwinds x (first.apply m))
    (back : ∀ m' hidden, (⟨m', last⟩ : Moment).hiddenAfter
      ((⟨m, first⟩ : Moment).hiddenAfter hidden) = hidden)
    (fewer : ∀ (m' : Machine) hidden, (hidden ++ (last.apply m').storage.inner).Sublist
      ((⟨m, first⟩ : Moment).hiddenAfter hidden ++ m'.storage.inner))
    (same : ∀ m' : Machine, m'.storage.inner = (first.apply m).storage.inner →
      (last.apply m').storage.inner = m.storage.inner) :
    Unwinds (Action.step first (x.andFinally last)) m := by
  have ended (hm : m.exit.isSome) :
      (last.apply (x.run (first.apply m)).2).storage.inner = m.storage.inner :=
    same _ (hx.ended (first.isSome_exit_apply hm))
  refine ⟨fun hidden => ?_, fun hidden p hp he => ?_, fun hm => ?_⟩
  · rw [trace_step, trace_andFinally, ← List.singleton_append, hiddenBy_append, hiddenBy_append,
      hx.balanced]
    exact back _ hidden
  · rw [trace_step, trace_andFinally, withScopes, withScopes_append, hx.balanced] at hp
    rw [run_step, run_andFinally]
    rcases List.mem_cons.mp hp with rfl | hp
    · simp [ended he]
    · rcases List.mem_append.mp hp with hp | hp
      · exact (fewer _ hidden).trans (hx.kept _ p hp he)
      · obtain rfl := List.mem_singleton.mp hp
        exact fewer _ hidden
  · rw [run_step, run_andFinally]
    exact ended hm

theorem inScope (params : Bindings) (hx : ∀ m, Unwinds x m) (m : Machine) :
    Unwinds (x.inScope params) m := by
  refine (hx _).bracket (fun _ _ => rfl) (fun m' hidden => ?_) fun m' hi => ?_
  · exact (List.Sublist.refl hidden).append (List.tail_sublist _)
  · have opened : m.storage.push.inner ≠ [] := by simp [Storage.push]
    calc m'.storage.inner.tail = (m.storage.push.insertAll params).inner.tail := by rw [hi]; rfl
      _ = m.storage.inner := (Storage.insertAll_inner opened params).1

theorem truncated (depth : Nat) (hx : ∀ m, Unwinds x m) (m : Machine) :
    Unwinds (x.truncated depth) m := by
  refine look ((hx _).bracket (fun m' hidden => ?_) (fun m' hidden => ?_) fun m' hi => ?_)
  · simp [Moment.hiddenAfter]
  · simp [Moment.hiddenAfter, Step.apply, Storage.restore]
  · calc m.storage.hidden depth ++ m'.storage.inner
        = ((m.storage.truncate depth).restore (m.storage.hidden depth)).inner := by rw [hi]; rfl
      _ = m.storage.inner := by rw [Storage.restore_truncate]

theorem stepLive {s : Step} (hs : s.isLive) (hm : m.exit = none)
    (hx : ∀ m : Machine, m.exit = none → Unwinds x m) : Unwinds (Action.step s x) m := by
  refine step ?_ (by simp [hm]) (hx _ (Step.exit_of_isLive hs hm))
  cases s <;> first | rfl | cases hs

theorem importWith (run : Source → Action Outcome) (name : String) (embeddedOnly : Bool)
    (hm : m.exit = none) : Unwinds (Action.importWith run name embeddedOnly) m := by
  refine of_quiet (fun y hy => ?_) fun y hy he => ?_
  · exact y.hiddenAfter_of_isLoading (mem_trace_importWith hy).2
  · simp [Moment.ending, (mem_trace_importWith hy).1, hm] at he

theorem evalText (e : Engine) (text : String) (m : Machine) :
    Unwinds (Action.evalText e text) m := by
  refine of_quiet (fun y hy => ?_) fun y hy _ => ?_
  · funext hidden
    rcases mem_trace_evalText hy with ⟨_, _, hs⟩ | ⟨_, hs⟩ | ⟨_, hs⟩ <;>
      simp [Moment.hiddenAfter, hs]
  · rw [Moment.after]
    rcases mem_trace_evalText hy with ⟨_, _, hs⟩ | ⟨_, hs⟩ | ⟨globals, hs⟩ <;> rw [hs]
    · rfl
    · rfl
    · exact Storage.extend_inner [] globals

theorem unlessExiting {f : Bool → Action α} (hp : ∀ m, Unwinds (f true) m)
    (hq : ∀ m : Machine, m.exit = none → Unwinds (f false) m) (m : Machine) :
    Unwinds (exiting >>= f) m := by
  rw [exiting_bind]
  refine look ?_
  cases hm : m.exit with
  | none => exact hq m hm
  | some o => exact hp m

/-- All evaluation keeps the scopes that it leaves once the program is ending. -/
theorem hereditary :
    Hereditary (fun x => ∀ m, Unwinds x m)
      (fun x => ∀ m : Machine, m.exit = none → Unwinds x m) where
  live hx m _ := hx m
  done := done
  look hk _ m := look (hk m m)
  lookLive hk _ m hm := look (hk m m hm)
  resume hx hf m := (hx m).resume fun r => hf r _
  resumeLive hx hf m hm := (hx m hm).resume fun r => hf r _
  unlessExiting := unlessExiting
  stepLive hs hx _ hm := stepLive hs hm hx
  stamp hx _ := (hx _).step rfl fun _ => rfl
  baseline hx _ := (hx _).step rfl fun _ => rfl
  exit _ hx _ := (hx _).step rfl fun _ => rfl
  inScope := inScope
  truncated := truncated
  importWith name embeddedOnly _ _ hm := importWith _ name embeddedOnly hm
  evalText text _ := evalText _ text

end Unwinds

/-! ### Runs -/

/-- What is left of a machine when all its calls have returned, with the type ids given out. -/
def Machine.lasting (m : Machine) : Bindings × Bindings × List String × Nat :=
  (m.storage.outermost, m.storage.globals, m.storage.globalNames, m.world.nextTypeId)

/-- A step that changes nothing for good where it could: no parameter is a global with another
value, and nested programs leave neither bindings nor types behind. -/
structure Moment.Harmless (x : Moment) : Prop where
  enter (params : Bindings) : x.step = .enter params →
    x.after.storage.globals = x.machine.storage.globals
  merge (origin : Origin) (bindings globals : Bindings) : x.step = .merge origin bindings globals →
    x.after.storage = x.machine.storage
  nested (origin : Origin) (inner : Machine) (s : Step) : x.step = .nested origin inner s →
    x.after.world.nextTypeId = x.machine.world.nextTypeId

namespace Moment.Harmless

variable {x : Moment} (h : x.Harmless)

include h

theorem lasting (hs : x.step.isLate ∨ x.step.isLoading) : x.after.lasting = x.machine.lasting := by
  obtain ⟨m, s⟩ := x
  cases s with
  | enter params =>
    have opened : m.storage.push.inner ≠ [] := by simp [Storage.push]
    obtain ⟨-, outermost, globalNames⟩ := Storage.insertAll_inner opened params
    have globals := h.enter params rfl
    simp only [Machine.lasting, globals, Prod.mk.injEq, true_and]
    exact ⟨outermost, globalNames, rfl⟩
  | merge origin bindings globals =>
    have storage := h.merge origin bindings globals rfl
    simp only [Machine.lasting, storage]
    rfl
  | nested origin inner t =>
    have nextTypeId := h.nested origin inner t rfl
    simp only [Machine.lasting, nextTypeId]
    rfl
  | insert name value | declareGlobal name | takeTypeId => simp [Step.isLate, Step.isLoading] at hs
  | _ => rfl

theorem inner_of_isLoading (hs : x.step.isLoading) :
    x.after.storage.inner = x.machine.storage.inner := by
  obtain ⟨m, s⟩ := x
  cases s with
  | merge origin bindings globals =>
    exact congrArg Storage.inner (h.merge origin bindings globals rfl)
  | beginPrelude | adopt | nested | markBaseline => rfl
  | _ => cases hs

end Moment.Harmless

theorem Step.depth_of_isLoading {s : Step} (hs : s.isLoading) (m : Machine) :
    (s.apply m).storage.depth = m.storage.depth := by
  cases s with
  | merge origin bindings globals => exact Storage.extend_depth bindings globals
  | beginPrelude | adopt | nested | markBaseline => rfl
  | _ => cases hs

namespace Machine

variable (limits : Limits) (m : Machine) (text name : String)

/-- If nothing harmful happens in the ending program, a run leaves the scopes that there were. -/
theorem unwinds_runText (h : ∀ x ∈ m.history limits text name, x.ending → x.Harmless) :
    Unwinds (runText limits.engine (m.sourceOf name text)) m := by
  cases hm : m.exit with
  | none => exact Unwinds.hereditary.runText limits (m.sourceOf name text) m hm
  | some o =>
    -- the run only loads the prelude
    have loading {x : Moment} (hx : x ∈ m.history limits text name) :=
      loading_of_mem_history (by simp [hm]) hx
    refine .of_quiet (fun x hx => x.hiddenAfter_of_isLoading (loading hx)) fun x hx he => ?_
    exact (h x hx he).inner_of_isLoading (loading hx)

/-- If the scopes that are left in the end were there all along, then no nested program has added to
them. -/
theorem inner_merge
    (kept : ∀ p ∈ withScopes [] (m.history limits text name), p.1.ending →
      (m.run limits text name).2.storage.inner.Sublist p.2)
    {x : Moment} (hx : x ∈ m.history limits text name) (he : x.ending) {origin : Origin}
    {bindings globals : Bindings} (hs : x.step = .merge origin bindings globals) :
    x.after.storage.inner = x.machine.storage.inner := by
  cases hm : m.exit with
  | none =>
    have late := late_of_mem_history hm hx he
    rw [hs] at late
    obtain ⟨-, rfl⟩ := Step.merge_of_isLate late
    rw [Moment.after, hs]
    exact Storage.extend_inner [] globals
  | some o =>
    have ending : m.exit.isSome := by simp [hm]
    have loading {y : Moment} (hy : y ∈ m.history limits text name) :=
      loading_of_mem_history ending hy
    rw [run_snd] at kept
    have depth := (kept_iff (fun m => m.storage.depth) _ m).mpr fun y hy _ =>
      Step.depth_of_isLoading (loading hy) y.machine
    refine (kept_iff (fun m => m.storage.inner) _ m).mp (fun y hy he => ?_) x hx he
    obtain ⟨scopes, hp⟩ := exists_mem_withScopes hy []
    have sublist := kept _ hp he
    have quiet (z : Moment) (hz : z ∈ m.history limits text name) : z.hiddenAfter = id :=
      z.hiddenAfter_of_isLoading (loading hz)
    rw [scopes_of_mem_withScopes quiet hp] at sublist
    -- there are as many scopes as before, so those that are left are all of them
    exact sublist.eq_of_length (Nat.succ.inj (depth y hy he))

/-- From the moment at which the program is ending a run changes no scope that it leaves, no global,
no declaration of a global and no type id, if and only if no call binds a parameter that is a global
with another value, and no nested program leaves bindings or types behind. Unless the run begins in
an ending program and loads the prelude there, such a nested program is an evaluated text and never
a module. -/
theorem bindings_kept_iff :
    ((∀ p ∈ withScopes [] (m.history limits text name), p.1.ending →
        (m.run limits text name).2.lasting = p.1.machine.lasting ∧
        (m.run limits text name).2.storage.inner.Sublist p.2) ↔
      ∀ x ∈ m.history limits text name, x.ending → x.Harmless) ∧
    (m.exit = none → ∀ x ∈ m.history limits text name, x.ending →
      (∀ origin bindings globals, x.step = .merge origin bindings globals →
        origin = .evaluated ∧ bindings = []) ∧
      ∀ origin inner s, x.step = .nested origin inner s → origin = .evaluated) := by
  refine ⟨⟨fun kept x hx he => ?_, fun harmless p hp he => ?_⟩, fun hm x hx he => ?_⟩
  · have lasting : x.after.lasting = x.machine.lasting := by
      refine (kept_iff lasting _ m).mp (fun y hy he => ?_) x hx he
      obtain ⟨scopes, hp⟩ := exists_mem_withScopes hy []
      rw [← run_snd]
      exact (kept _ hp he).1
    simp only [Machine.lasting, Prod.mk.injEq] at lasting
    obtain ⟨outermost, globals, globalNames, nextTypeId⟩ := lasting
    refine ⟨fun _ _ => globals, fun _ _ _ hs => ?_, fun _ _ _ _ => nextTypeId⟩
    have inner := m.inner_merge limits text name (fun p hp he => (kept p hp he).2) hx he hs
    exact Storage.ext outermost inner globals globalNames
  · rw [run_snd]
    refine ⟨?_, (m.unwinds_runText limits text name harmless).kept [] p hp he⟩
    refine (kept_iff lasting _ m).mpr (fun y hy he => ?_) p.1 (mem_of_mem_withScopes hp) he
    exact (harmless y hy he).lasting (late_or_loading hy he)
  · have late := late_of_mem_history hm hx he
    refine ⟨fun origin bindings globals hs => ?_, fun origin inner s hs => ?_⟩ <;> rw [hs] at late
    · exact Step.merge_of_isLate late
    · exact Step.nested_of_isLate late

/-- A parameter that is a global is assigned when the argument has ended the program. -/
theorem global_param_of_exit_assigned :
    ∃ x ∈ bare.history .generous "global(x), =(x, 1), def(f, x, x), f(exit(5))" "",
      x.ending ∧
      x.machine.storage.globals.map (fun b => (b.1, b.2.display)) = [("x", "1")] ∧
      (bare.run .generous "global(x), =(x, 1), def(f, x, x), f(exit(5))" "").2.storage.globals.map
        (fun b => (b.1, b.2.display)) = [("x", "null")] := by
  decide +kernel

end Machine

end CallLang
