import CallLang.Eval
import CallLang.Proofs.Alike
import CallLang.Run

/-!
# Spans do not matter

Evaluation never looks at spans. If an engine evaluates expressions that are equal up to places
alike (`Engine.Blind`), then every builtin and every function that a program defines does the same
with such arguments, and so does the engine of the next depth.
-/

namespace CallLang

open CallLang.Action CallLang.Builtin

/-- An engine that cannot tell apart what is equal up to places. -/
structure Engine.Blind (e : Engine) : Prop where
  eval {node node' : Node} : unplaced node = unplaced node' → Alike (e.eval node) (e.eval node')
  call {f f' : Callable} {args args' : List Node} (name doc : String) :
    unplaced f = unplaced f' → unplaced args = unplaced args' →
      Alike (e.call f args name doc) (e.call f' args' name doc)

namespace Engine.Blind

variable {e : Engine} (he : e.Blind) {a a' b b' c c' : Node} {args args' : List Node}

include he

/-! ### Arguments -/

theorem evalInt (ha : unplaced a = unplaced a') :
    Alike (Action.evalInt e a) (Action.evalInt e a') := by
  refine (he.eval ha).bind fun x y h => ?_
  have display := eq_of_unplaced display_unplaced h
  cases Atom.alike h with
  | int n => exact .pure rfl
  | _ => exact .fail (by rw [display])

theorem evalBool (ha : unplaced a = unplaced a') :
    Alike (Action.evalBool e a) (Action.evalBool e a') := by
  refine (he.eval ha).bind fun x y h => ?_
  have display := eq_of_unplaced display_unplaced h
  cases Atom.alike h with
  | bool b => exact .pure rfl
  | _ => exact .fail (by rw [display])

theorem evalString (ha : unplaced a = unplaced a') :
    Alike (Action.evalString e a) (Action.evalString e a') := by
  refine (he.eval ha).bind fun x y h => ?_
  have display := eq_of_unplaced display_unplaced h
  cases Atom.alike h with
  | string s => exact .pure rfl
  | _ => exact .fail (by rw [display])

theorem evalObject (ha : unplaced a = unplaced a') :
    Alike (Action.evalObject e a) (Action.evalObject e a') := by
  refine (he.eval ha).bind fun x y h => ?_
  have display := eq_of_unplaced display_unplaced h
  cases Atom.alike h with
  | object typeId hf => exact .pure (congrArg (Prod.mk typeId) hf)
  | _ => exact .fail (by rw [display])

theorem evalCallable (ha : unplaced a = unplaced a') (builtin : String) :
    Alike (CallLang.evalCallable e a builtin) (CallLang.evalCallable e a' builtin) := by
  refine (he.eval ha).bind fun x y h => ?_
  cases Atom.alike h with
  | function hf => exact .pure hf
  | _ => exact .fail rfl

theorem evalAll (h : unplaced args = unplaced args') :
    Alike (Action.evalAll e args) (Action.evalAll e args') := by
  induction args generalizing args' with
  | nil =>
    obtain rfl := eq_nil_of_unplaced h
    exact .pure rfl
  | cons node nodes ih =>
    obtain ⟨node', nodes', rfl, first, rest⟩ := exists_cons_of_unplaced h
    refine (he.eval first).bind fun x y hx => (ih rest).bind fun xs ys hxs => ?_
    exact .pure (by simp [hx, hxs])

/-! ### Functions that programs define -/

omit he in
theorem paramOf (ha : unplaced a = unplaced a') :
    unplaced (Closure.paramOf a) = unplaced (Closure.paramOf a') := by
  rw [Closure.paramOf, Closure.paramOf, eq_of_unplaced name?_unplaced ha]
  split
  · split <;> rfl
  · rfl

omit he in
theorem paramsOf (h : unplaced args = unplaced args') :
    unplaced (Closure.paramsOf args) = unplaced (Closure.paramsOf args') := by
  induction args generalizing args' with
  | nil =>
    obtain rfl := eq_nil_of_unplaced h
    rfl
  | cons node nodes ih =>
    obtain ⟨node', nodes', rfl, first, rest⟩ := exists_cons_of_unplaced h
    have param := paramOf first
    have params := ih rest
    rw [Closure.paramsOf, Closure.paramsOf]
    cases h₁ : Closure.paramOf node <;> cases h₂ : Closure.paramOf node' <;>
      cases h₃ : Closure.paramsOf nodes <;> cases h₄ : Closure.paramsOf nodes' <;>
      simp_all [bind, Except.bind]

omit he in
theorem checkedParams (h : unplaced args = unplaced args') :
    unplaced (Closure.checkedParams args) = unplaced (Closure.checkedParams args') := by
  have params := paramsOf h
  rw [Closure.checkedParams, Closure.checkedParams]
  cases h₁ : Closure.paramsOf args with
  | error fault => cases h₂ : Closure.paramsOf args' <;> simp_all [bind, Except.bind]
  | ok params => cases h₂ : Closure.paramsOf args' <;> simp_all [bind, Except.bind, unplaced]

omit he in
theorem define (doc : String) (h : unplaced args = unplaced args')
    (hb : unplaced b = unplaced b') :
    Alike (Closure.define doc args b) (Closure.define doc args' b') := by
  refine (Alike.ofOutcome (checkedParams h)).bind fun params params' hp => ?_
  obtain rfl : params = params' := by simpa [unplaced] using hp
  refine Alike.freshStamp.bind fun stamp stamp' hs => .pure ?_
  obtain rfl : stamp = stamp' := hs
  simp [Node.unplaced_copied, hb]

theorem pass (depth : Nat) (isLazy : Bool) (ha : unplaced a = unplaced a') :
    Alike (Closure.pass e depth isLazy a) (Closure.pass e depth isLazy a') := by
  rw [Closure.pass, Closure.pass]
  split
  · refine .machine fun m m' hm => .pure ?_
    rw [world_eq hm]
    simp [ha]
  · exact he.eval ha

theorem passAll (depth : Nat) (isLazy : Bool) (h : unplaced args = unplaced args') :
    Alike (Closure.passAll e depth isLazy args) (Closure.passAll e depth isLazy args') := by
  induction args generalizing args' with
  | nil =>
    obtain rfl := eq_nil_of_unplaced h
    exact .pure rfl
  | cons node nodes ih =>
    obtain ⟨node', nodes', rfl, first, rest⟩ := exists_cons_of_unplaced h
    refine (he.pass depth isLazy first).bind fun x y hx => (ih rest).bind fun xs ys hxs => ?_
    exact .pure (by simp [hx, hxs])

theorem bindParams (depth : Nat) (params : List Param) (h : unplaced args = unplaced args') :
    Alike (Closure.bind e depth params args) (Closure.bind e depth params args') := by
  induction params generalizing args args' with
  | nil => exact .pure rfl
  | cons param params ih =>
    by_cases hv : param.variadic
    · simp only [Closure.bind, hv, if_true]
      refine (he.passAll depth _ h).bind fun xs ys hxs => (ih rfl).bind fun rest rest' hr => ?_
      exact .pure (by simp [hxs, hr])
    · cases args with
      | nil =>
        obtain rfl := eq_nil_of_unplaced h
        simp only [Closure.bind, hv]
        exact .pure rfl
      | cons node nodes =>
        obtain ⟨node', nodes', rfl, first, others⟩ := exists_cons_of_unplaced h
        simp only [Closure.bind, hv]
        refine (he.pass depth _ first).bind fun x y hx => ?_
        refine (ih others).bind fun rest rest' hr => ?_
        exact .pure (by simp [hx, hr])

theorem callClosure (params : List Param) (hb : unplaced b = unplaced b')
    (h : unplaced args = unplaced args') :
    Alike (Closure.call e params b args) (Closure.call e params b' args') := by
  have length : args.length = args'.length := eq_of_unplaced (fun _ => List.length_map _) h
  rw [Closure.call, Closure.call, length]
  split
  · exact .fail rfl
  · refine .machine fun m m' hm => ?_
    rw [eq_of_unplaced Storage.depth_unplaced (storage_eq hm)]
    refine (he.bindParams _ params h).bind fun bindings bindings' hbs => ?_
    exact .inScope hbs (he.eval hb)

/-! ### Control flow -/

theorem sequence {value value' : Atom} (hv : unplaced value = unplaced value')
    (h : unplaced args = unplaced args') :
    Alike (Control.sequence e value args) (Control.sequence e value' args') := by
  induction args generalizing args' value value' with
  | nil =>
    obtain rfl := eq_nil_of_unplaced h
    exact .pure hv
  | cons node nodes ih =>
    obtain ⟨node', nodes', rfl, first, rest⟩ := exists_cons_of_unplaced h
    exact (he.eval first).bind fun x y hx => ih hx rest

theorem assign (ha : unplaced a = unplaced a') (hb : unplaced b = unplaced b') :
    Alike (Control.assign e a b) (Control.assign e a' b') := by
  rw [Control.assign, Control.assign, eq_of_unplaced name?_unplaced ha]
  split
  · exact .failAt _ _ _
  · refine (he.eval hb).bind fun x y h => .exiting fun ending => ?_
    cases ending with
    | true => exact .pure rfl
    | false => exact (Alike.insert _ h).bind fun _ _ _ => .pure rfl

theorem when (ha : unplaced a = unplaced a') (hb : unplaced b = unplaced b') :
    Alike (Control.when e a b) (Control.when e a' b') := by
  refine (he.evalBool ha).bind fun x y h => ?_
  obtain rfl : x = y := h
  cases x with
  | true => exact he.eval hb
  | false => exact .pure rfl

theorem choose (ha : unplaced a = unplaced a') (hb : unplaced b = unplaced b')
    (hc : unplaced c = unplaced c') : Alike (Control.choose e a b c) (Control.choose e a' b' c') := by
  refine (he.evalBool ha).bind fun x y h => ?_
  obtain rfl : x = y := h
  cases x with
  | true => exact he.eval hb
  | false => exact he.eval hc

theorem loop (steps : Nat) (ha : unplaced a = unplaced a') (hb : unplaced b = unplaced b') :
    Alike (Control.loop e a b steps) (Control.loop e a' b' steps) := by
  induction steps with
  | zero => exact .done rfl
  | succ steps ih =>
    refine .exiting fun ending => ?_
    cases ending with
    | true => exact .pure rfl
    | false =>
      refine (he.evalBool ha).bind fun x y h => ?_
      obtain rfl : x = y := h
      cases x with
      | true => exact (he.eval hb).bind fun _ _ _ => ih
      | false => exact .pure rfl

theorem raise (ha : unplaced a = unplaced a') (hb : unplaced b = unplaced b') :
    Alike (Control.raise e a b) (Control.raise e a' b') := by
  refine (he.evalString ha).bind fun x y h => (he.evalString hb).bind fun z w h' => ?_
  obtain rfl : x = y := h
  obtain rfl : z = w := h'
  exact .fail rfl

theorem recover (ha : unplaced a = unplaced a') :
    Alike (Control.recover e a) (Control.recover e a') := by
  refine (he.eval ha).attempt.bind fun r r' h => ?_
  rcases r with fault | x <;> rcases r' with fault' | y <;> simp at h
  · exact .pure (by rw [eq_of_unplaced text_unplaced h])
  · exact .pure h

theorem exit (ha : unplaced a = unplaced a') : Alike (Control.exit e a) (Control.exit e a') :=
  (he.eval ha).attempt.bind fun _ _ h => .take (congrArg Step.exit h) (.pure rfl)

omit he in
theorem global (ha : unplaced a = unplaced a') : Alike (Control.global a) (Control.global a') := by
  refine (Alike.nameOf ha _).bind fun name name' h => ?_
  obtain rfl : name = name' := h
  exact .take rfl (.pure rfl)

theorem assert (ha : unplaced a = unplaced a') :
    Alike (Control.assert e a) (Control.assert e a') := by
  refine (he.evalBool ha).bind fun x y h => ?_
  obtain rfl : x = y := h
  cases x with
  | true => exact .pure rfl
  | false => exact .fail (by rw [eq_of_unplaced render_unplaced ha])

omit he in
theorem equals_eq {x x' y y' : Atom} (hx : unplaced x = unplaced x')
    (hy : unplaced y = unplaced y') : x.equals y = x'.equals y' := by
  rw [← equals_unplaced x, hx, hy, equals_unplaced]

theorem assertEq (ha : unplaced a = unplaced a') (hb : unplaced b = unplaced b') :
    Alike (Control.assertEq e a b) (Control.assertEq e a' b') := by
  refine (he.eval ha).bind fun x x' hx => (he.eval hb).bind fun y y' hy => ?_
  rw [equals_eq hx hy, eq_of_unplaced display_unplaced hx, eq_of_unplaced display_unplaced hy]
  split
  · exact .pure rfl
  · exact .fail rfl

omit he in
theorem defineNamed (doc : String) (h : unplaced args = unplaced args') :
    Alike (Control.define doc args) (Control.define doc args') := by
  have length : args.length = args'.length := eq_of_unplaced (fun _ => List.length_map _) h
  rcases args with _ | ⟨target, _ | ⟨second, rest⟩⟩ <;>
    rcases args' with _ | ⟨target', _ | ⟨second', rest'⟩⟩ <;> simp at length
  · exact .fail rfl
  · exact .fail rfl
  · obtain ⟨ht, hn⟩ := unplaced_cons_inj h
    refine (Alike.nameOf ht _).bind fun name name' hname => ?_
    obtain rfl : name = name' := hname
    refine (define doc (unplaced_dropLast hn) (unplaced_getLast hn _ _)).bind fun f g hf => ?_
    exact (Alike.insert name (by simp [hf])).bind fun _ _ _ => .pure rfl

omit he in
theorem lambda (h : unplaced args = unplaced args') :
    Alike (Control.lambda args) (Control.lambda args') := by
  cases args with
  | nil =>
    obtain rfl := eq_nil_of_unplaced h
    exact .fail rfl
  | cons node nodes =>
    obtain ⟨node', nodes', rfl, -⟩ := exists_cons_of_unplaced h
    refine (define "" (unplaced_dropLast h) (unplaced_getLast h _ _)).bind fun f g hf => ?_
    exact .pure (by simp [hf])

/-! ### Objects -/

omit he in
theorem fieldNames {fields fields' : Object.Fields} (hf : unplaced fields = unplaced fields') :
    fields.names = fields'.names := by
  obtain ⟨required, defaults⟩ := Object.Fields.mk.inj hf
  rw [Object.Fields.names, Object.Fields.names, required, eq_of_unplaced names_unplaced defaults]

omit he in
theorem addRequired {fields fields' : Object.Fields} (hf : unplaced fields = unplaced fields')
    (name : String) (span span' : Option Span) :
    Alike (fields.addRequired name span) (fields'.addRequired name span') := by
  obtain ⟨required, defaults⟩ := Object.Fields.mk.inj hf
  rw [Object.Fields.addRequired, Object.Fields.addRequired, fieldNames hf]
  split
  · exact .failAt _ _ _
  · refine .pure ?_
    show Object.Fields.mk _ _ = Object.Fields.mk _ _
    rw [required, defaults]

omit he in
theorem addDefault {fields fields' : Object.Fields} (hf : unplaced fields = unplaced fields')
    (name : String) {value value' : Atom} (hv : unplaced value = unplaced value')
    (span span' : Option Span) :
    Alike (fields.addDefault name value span) (fields'.addDefault name value' span') := by
  obtain ⟨required, defaults⟩ := Object.Fields.mk.inj hf
  rw [Object.Fields.addDefault, Object.Fields.addDefault, fieldNames hf]
  split
  · exact .failAt _ _ _
  · refine .pure ?_
    show Object.Fields.mk _ (unplaced (_ ++ _)) = Object.Fields.mk _ (unplaced (_ ++ _))
    rw [required, unplaced_append, unplaced_append, defaults]
    simp [hv]

omit he in
theorem field_other {name : String} (h : name ≠ "=") (fields : Object.Fields) (args : List Node)
    (doc : String) (span : Option Span) :
    Object.field e fields (.call name args doc span) =
      Action.failAt .defaultNotAssigned span := by
  unfold Object.field
  split <;> simp_all

omit he in
theorem field_malformed {args : List Node} (h : ¬∃ n s value, args = [.var n s, value])
    (fields : Object.Fields) (doc : String) (span : Option Span) :
    Object.field e fields (.call "=" args doc span) = Action.failAt .defaultMalformed span := by
  unfold Object.field
  split <;> simp_all

theorem field {fields fields' : Object.Fields} (hf : unplaced fields = unplaced fields')
    (ha : unplaced a = unplaced a') :
    Alike (Object.field e fields a) (Object.field e fields' a') := by
  cases Node.alike ha with
  | literal h span span' => exact .failAt _ _ _
  | var name span span' => exact addRequired hf name span span'
  | @call name args args' h doc span span' =>
    by_cases hname : name = "="
    · subst hname
      by_cases hargs : ∃ n s value, args = [.var n s, value]
      · obtain ⟨n, s, value, rfl⟩ := hargs
        obtain ⟨target', rest', rfl, ht, hr⟩ := exists_cons_of_unplaced h
        obtain ⟨value', rest', rfl, hv, hr⟩ := exists_cons_of_unplaced hr
        obtain rfl := eq_nil_of_unplaced hr
        cases Node.alike ht
        exact (he.eval hv).bind fun _ _ hv => addDefault hf n hv _ _
      · have hargs' : ¬∃ n s value, args' = [.var n s, value] := by
          rintro ⟨n, s, value, rfl⟩
          obtain ⟨target, rest, rfl, ht, hr⟩ := exists_cons_of_unplaced h.symm
          obtain ⟨value', rest, rfl, -, hr⟩ := exists_cons_of_unplaced hr
          obtain rfl := eq_nil_of_unplaced hr
          cases Node.alike ht
          exact hargs ⟨_, _, _, rfl⟩
        rw [field_malformed hargs, field_malformed hargs']
        exact .failAt _ _ _
    · rw [field_other hname, field_other hname]
      exact .failAt _ _ _

theorem fieldsOf {fields fields' : Object.Fields} (hf : unplaced fields = unplaced fields')
    (h : unplaced args = unplaced args') :
    Alike (Object.fieldsOf e fields args) (Object.fieldsOf e fields' args') := by
  induction args generalizing args' fields fields' with
  | nil =>
    obtain rfl := eq_nil_of_unplaced h
    exact .pure hf
  | cons node nodes ih =>
    obtain ⟨node', nodes', rfl, first, rest⟩ := exists_cons_of_unplaced h
    exact (he.field hf first).bind fun _ _ hf => ih hf rest

theorem newType (doc : String) (h : unplaced args = unplaced args') :
    Alike (Object.newType e doc args) (Object.newType e doc args') := by
  cases args with
  | nil =>
    obtain rfl := eq_nil_of_unplaced h
    exact .fail rfl
  | cons node nodes =>
    obtain ⟨node', nodes', rfl, first, rest⟩ := exists_cons_of_unplaced h
    refine (Alike.nameOf first _).bind fun name name' hname => ?_
    obtain rfl : name = name' := hname
    refine (he.fieldsOf rfl rest).bind fun fields fields' hf => .exiting fun ending => ?_
    cases ending with
    | true => exact .pure rfl
    | false =>
      refine Alike.freshTypeId.bind fun id id' hid => ?_
      obtain rfl : id = id' := hid
      obtain ⟨required, defaults⟩ := Object.Fields.mk.inj hf
      refine (Alike.insert name ?_).bind fun _ _ _ => .pure rfl
      simp [required, defaults]

theorem construct (required : List String) {defaults defaults' : Bindings}
    (hd : unplaced defaults = unplaced defaults') (typeId : Nat)
    (h : unplaced args = unplaced args') :
    Alike (Object.construct e required defaults typeId args)
      (Object.construct e required defaults' typeId args') := by
  refine (he.evalAll h).bind fun xs ys hxs => .pure ?_
  have zip (zs : List Atom) : unplaced (required.zip zs) = required.zip (unplaced zs) := by
    induction required generalizing zs with
    | nil => rfl
    | cons name required ih => cases zs <;> simp [ih]
  simp [zip, hxs, hd]

omit he in
theorem fieldValue {fields fields' : Bindings} (h : unplaced fields = unplaced fields')
    (name : String) : unplaced (fields.get? name) = unplaced (fields'.get? name) := by
  rw [← get?_unplaced, h, get?_unplaced]

theorem getField (ha : unplaced a = unplaced a') (hb : unplaced b = unplaced b') :
    Alike (Object.getField e a b) (Object.getField e a' b') := by
  refine (he.evalObject ha).bind ?_
  rintro ⟨typeId, fields⟩ ⟨typeId', fields'⟩ h
  refine (Alike.nameOf hb _).bind fun name name' hn => ?_
  obtain rfl : name = name' := hn
  have value := fieldValue (Prod.mk.inj h).2 name
  obtain ⟨h₁, h₂⟩ | ⟨x, y, h₁, h₂, hxy⟩ := none_or_some_of_unplaced value <;> simp only [h₁, h₂]
  · exact .fail rfl
  · exact .pure hxy

theorem setField (ha : unplaced a = unplaced a') (hb : unplaced b = unplaced b')
    (hc : unplaced c = unplaced c') :
    Alike (Object.setField e a b c) (Object.setField e a' b' c') := by
  refine (he.evalObject ha).bind ?_
  rintro ⟨typeId, fields⟩ ⟨typeId', fields'⟩ h
  refine (Alike.nameOf hb _).bind fun name name' hn => ?_
  obtain rfl : name = name' := hn
  obtain ⟨ht, hf⟩ := Prod.mk.inj h
  obtain rfl : typeId = typeId' := ht
  obtain ⟨h₁, h₂⟩ | ⟨x, y, h₁, h₂, -⟩ := none_or_some_of_unplaced (fieldValue hf name) <;>
    simp only [h₁, h₂]
  · exact .fail rfl
  · exact (he.eval hc).bind fun z w hz => .pure (by simp [hf, hz])

theorem callMethod (h : unplaced args = unplaced args') :
    Alike (Object.callMethod e args) (Object.callMethod e args') := by
  have length : args.length = args'.length := eq_of_unplaced (fun _ => List.length_map _) h
  rcases args with _ | ⟨object, _ | ⟨method, rest⟩⟩ <;>
    rcases args' with _ | ⟨object', _ | ⟨method', rest'⟩⟩ <;> simp at length
  · exact .fail rfl
  · exact .fail rfl
  · obtain ⟨ho, h⟩ := unplaced_cons_inj h
    obtain ⟨hm, hr⟩ := unplaced_cons_inj h
    refine (he.evalObject ho).bind ?_
    rintro ⟨typeId, fields⟩ ⟨typeId', fields'⟩ h
    refine (Alike.nameOf hm _).bind fun name name' hn => ?_
    obtain rfl : name = name' := hn
    obtain ⟨ht, hf⟩ := Prod.mk.inj h
    obtain rfl : typeId = typeId' := ht
    obtain ⟨h₁, h₂⟩ | ⟨x, y, h₁, h₂, hxy⟩ := none_or_some_of_unplaced (fieldValue hf name) <;>
      simp only [h₁, h₂]
    · exact .fail rfl
    · have display := eq_of_unplaced display_unplaced hxy
      cases Atom.alike hxy with
      | function hg =>
        -- the object becomes an argument that is written where it was computed
        exact he.call _ _ hg (by simpa [hf] using hr)
      | _ => exact .fail (by rw [display])

/-! ### Lists and strings -/

theorem evalSequence (ha : unplaced a = unplaced a') :
    Alike (Sequences.evalSequence e a) (Sequences.evalSequence e a') := by
  refine (he.eval ha).bind fun x y h => ?_
  have display := eq_of_unplaced display_unplaced h
  cases Atom.alike h with
  | string s => exact .pure rfl
  | list hxs => exact .pure (congrArg Sequence.items hxs)
  | _ => exact .fail (by rw [display])

theorem evalIndex (ha : unplaced a = unplaced a') :
    Alike (Sequences.evalIndex e a) (Sequences.evalIndex e a') := by
  refine (he.evalInt ha).bind fun x y h => ?_
  obtain rfl : x = y := h
  split
  · exact .fail rfl
  · exact .pure rfl

omit he in
theorem checkBounds {seq seq' : Sequence} (h : unplaced seq = unplaced seq') (index : Nat) :
    Alike (Sequences.checkBounds seq index) (Sequences.checkBounds seq' index) := by
  rw [Sequences.checkBounds, Sequences.checkBounds, eq_of_unplaced length_unplaced h]
  split
  · exact .pure rfl
  · exact .fail rfl

omit he in
theorem unplaced_elements_eq {seq seq' : Sequence} (h : unplaced seq = unplaced seq') :
    unplaced seq.elements = unplaced seq'.elements := by
  rw [unplaced_elements, h, unplaced_elements]

theorem length (ha : unplaced a = unplaced a') :
    Alike (Sequences.length e a) (Sequences.length e a') := by
  refine (he.evalSequence ha).bind fun seq seq' h => .pure ?_
  rw [eq_of_unplaced length_unplaced h]

theorem index (ha : unplaced a = unplaced a') (hb : unplaced b = unplaced b') :
    Alike (Sequences.index e a b) (Sequences.index e a' b') := by
  refine (he.evalSequence ha).bind fun seq seq' h => (he.evalIndex hb).bind fun i j hij => ?_
  obtain rfl : i = j := hij
  have element : unplaced seq.elements[i]? = unplaced seq'.elements[i]? := by
    have elements := congrArg (·[i]?) (unplaced_elements_eq h)
    simpa [unplaced] using elements
  obtain ⟨h₁, h₂⟩ | ⟨x, y, h₁, h₂, hxy⟩ := none_or_some_of_unplaced element <;> simp only [h₁, h₂]
  · exact .fail rfl
  · exact .pure hxy

theorem append (ha : unplaced a = unplaced a') (hb : unplaced b = unplaced b') :
    Alike (Sequences.append e a b) (Sequences.append e a' b') := by
  refine (he.evalSequence ha).bind fun seq seq' h => ?_
  cases Sequence.alike h with
  | text chars =>
    refine (he.evalString hb).bind fun s t hst => .pure ?_
    obtain rfl : s = t := hst
    rfl
  | items hxs => exact (he.eval hb).bind fun x y hxy => .pure (by simp [hxs, hxy])

theorem replaceAt (ha : unplaced a = unplaced a') (hb : unplaced b = unplaced b')
    (hc : unplaced c = unplaced c') :
    Alike (Sequences.replaceAt e a b c) (Sequences.replaceAt e a' b' c') := by
  refine (he.evalSequence ha).bind fun seq seq' h => (he.evalIndex hb).bind fun i j hij => ?_
  obtain rfl : i = j := hij
  refine (checkBounds h i).bind fun _ _ _ => ?_
  cases Sequence.alike h with
  | text chars =>
    refine (he.evalString hc).bind fun s t hst => ?_
    obtain rfl : s = t := hst
    split
    · exact .pure rfl
    · exact .fail rfl
  | items hxs =>
    refine (he.eval hc).bind fun x y hxy => .pure ?_
    rw [unplaced_list, unplaced_list]
    show Atom.list (List.map unplaced _) = Atom.list (List.map unplaced _)
    rw [List.map_set, List.map_set, hxy]
    exact congrArg (fun zs => Atom.list (zs.set i (unplaced y))) hxs

theorem removeAt (ha : unplaced a = unplaced a') (hb : unplaced b = unplaced b') :
    Alike (Sequences.removeAt e a b) (Sequences.removeAt e a' b') := by
  refine (he.evalSequence ha).bind fun seq seq' h => (he.evalIndex hb).bind fun i j hij => ?_
  obtain rfl : i = j := hij
  refine (checkBounds h i).bind fun _ _ _ => .pure ?_
  rw [unplaced_removeAt, h, unplaced_removeAt]

theorem iterate (name : String) (hb : unplaced b = unplaced b') {xs ys : List Atom}
    (h : unplaced xs = unplaced ys) :
    Alike (Sequences.iterate e name b xs) (Sequences.iterate e name b' ys) := by
  induction xs generalizing ys with
  | nil =>
    obtain rfl := eq_nil_of_unplaced h
    exact .pure rfl
  | cons x xs ih =>
    obtain ⟨y, ys, rfl, first, rest⟩ := exists_cons_of_unplaced h
    refine .exiting fun ending => ?_
    cases ending with
    | true => exact .pure rfl
    | false =>
      refine (Alike.insert name first).bind fun _ _ _ => ?_
      exact (he.eval hb).bind fun _ _ _ => ih rest

theorem forEach (ha : unplaced a = unplaced a') (hb : unplaced b = unplaced b')
    (hc : unplaced c = unplaced c') :
    Alike (Sequences.forEach e a b c) (Sequences.forEach e a' b' c') := by
  refine (he.evalSequence ha).bind fun seq seq' h => (Alike.nameOf hb _).bind fun n n' hn => ?_
  obtain rfl : n = n' := hn
  exact (he.iterate n hc (unplaced_elements_eq h)).bind fun _ _ _ => .pure rfl

theorem concatAll (h : unplaced args = unplaced args') :
    Alike (Sequences.concatAll e args) (Sequences.concatAll e args') := by
  induction args generalizing args' with
  | nil =>
    obtain rfl := eq_nil_of_unplaced h
    exact .pure rfl
  | cons node nodes ih =>
    obtain ⟨node', nodes', rfl, first, rest⟩ := exists_cons_of_unplaced h
    refine (he.evalString first).bind fun s t hst => (ih rest).bind fun r r' hr => .pure ?_
    obtain rfl : s = t := hst
    obtain rfl : r = r' := hr
    rfl

/-! ### Streams -/

theorem print (h : unplaced args = unplaced args') :
    Alike (Stream.print e args) (Stream.print e args') := by
  refine (he.evalAll h).bind fun xs ys hxs => ?_
  have displays : xs.map Atom.display = ys.map Atom.display := by
    have all (zs : List Atom) : (unplaced zs).map Atom.display = zs.map Atom.display := by
      exact (List.map_map ..).trans (List.map_congr_left fun a _ => display_unplaced a)
    exact eq_of_unplaced all hxs
  rw [displays]
  exact (Alike.write _).bind fun _ _ _ => .pure rfl

theorem writeValue (ha : unplaced a = unplaced a') :
    Alike (Stream.writeValue e a) (Stream.writeValue e a') := by
  refine (he.eval ha).bind fun x y h => ?_
  rw [eq_of_unplaced display_unplaced h]
  exact (Alike.write _).bind fun _ _ _ => .pure rfl

theorem printFault (ha : unplaced a = unplaced a') :
    Alike (Stream.printFault e a) (Stream.printFault e a') := by
  refine (he.eval ha).attempt.bind fun r r' h => ?_
  rcases r with fault | x <;> rcases r' with fault' | y <;> simp at h
  · dsimp only
    rw [eq_of_unplaced text_unplaced h]
    exact (Alike.writeError _).bind fun _ _ _ => .pure rfl
  · refine .exiting fun ending => ?_
    cases ending with
    | true => exact .pure rfl
    | false => exact .fail (by rw [eq_of_unplaced display_unplaced h])

/-! ### Texts and modules -/

theorem execute {prepare : Action Unit} (hp : Alike prepare prepare) (source : Source) :
    Alike (Action.execute e prepare source) (Action.execute e prepare source) := by
  refine (Alike.contain (hp.bind fun _ _ _ => ?_)).bind fun outcome outcome' ho => ?_
  · exact (Alike.ofOutcome rfl).bind fun node node' hn => he.eval hn
  · refine .machine fun m m' hm => .pure ?_
    have exit : unplaced m.exit = unplaced m'.exit := congrArg Machine.exit hm
    obtain ⟨h, h'⟩ | ⟨o, o', h, h', hoo⟩ := none_or_some_of_unplaced exit <;> rw [h, h']
    · exact ho
    · exact hoo

theorem loadPrelude : Alike (Action.loadPrelude e) (Action.loadPrelude e) := by
  refine .machine fun m m' hm => ?_
  rw [eq_of_unplaced preludeLoaded_unplaced hm, eq_of_unplaced usePrelude_unplaced hm]
  split
  · exact .pure rfl
  · refine .take rfl ?_
    refine (Alike.importWith _ _ (he.execute (.pure rfl))).bind fun _ _ _ => ?_
    exact .take rfl (.pure rfl)

theorem runText (source : Source) :
    Alike (Action.runText e source) (Action.runText e source) :=
  he.execute he.loadPrelude source

theorem importNamed (ha : unplaced a = unplaced a') :
    Alike (Control.importNamed e a) (Control.importNamed e a') := by
  refine (Alike.nameOf ha _).bind fun name name' h => ?_
  obtain rfl : name = name' := h
  exact .importWith name false he.runText

theorem evalNamed (ha : unplaced a = unplaced a') :
    Alike (Control.eval e a) (Control.eval e a') := by
  refine (he.evalString ha).bind fun text text' h => ?_
  obtain rfl : text = text' := h
  exact .evalText text he.runText

/-! ### Builtins -/

/-- A conversion that answers the same for alike values. -/
theorem convert {f : Atom → Except Cause Atom}
    (hf : ∀ x y, unplaced x = unplaced y → f x = f y) (ha : unplaced a = unplaced a') :
    Alike (e.eval a >>= fun x => Action.ofExcept (f x))
      (e.eval a' >>= fun x => Action.ofExcept (f x)) :=
  (he.eval ha).bind fun x y h => .ofExcept (hf x y h)

omit he in
theorem toInt {x y : Atom} (h : unplaced x = unplaced y) : Convert.toInt x = Convert.toInt y := by
  have display := eq_of_unplaced display_unplaced h
  cases Atom.alike h with
  | int | bool | string | null => rfl
  | _ => exact congrArg (fun s => Except.error (Cause.wrongVariant s _)) display

omit he in
theorem toBool {x y : Atom} (h : unplaced x = unplaced y) : Convert.toBool x = Convert.toBool y := by
  have display := eq_of_unplaced display_unplaced h
  cases Atom.alike h with
  | int | bool | string | null => rfl
  | _ => exact congrArg (fun s => Except.error (Cause.wrongVariant s _)) display

omit he in
theorem toText {x y : Atom} (h : unplaced x = unplaced y) : Convert.toText x = Convert.toText y := by
  have display := eq_of_unplaced display_unplaced h
  cases Atom.alike h with
  | int | bool | string | null => rfl
  | _ => exact congrArg (fun s => Except.error (Cause.wrongVariant s _)) display

omit he in
theorem nullary (op : Nullary) : Alike op.call op.call := by
  cases op with
  | input => exact Alike.readLine.bind fun s t h => .pure (by rw [show s = t from h])
  | now => exact Alike.readClock.bind fun s t h => .pure (by rw [show s = t from h])
  | nowNanosPart => exact Alike.readClock.bind fun s t h => .pure (by rw [show s = t from h])

theorem unary (op : Unary) (ha : unplaced a = unplaced a') :
    Alike (op.call e a) (op.call e a') := by
  cases op with
  | not => exact (he.evalBool ha).bind fun x y h => .pure (by rw [show x = y from h])
  | toInt => exact he.convert (fun _ _ => toInt) ha
  | toString => exact he.convert (fun _ _ => toText) ha
  | toBool => exact he.convert (fun _ _ => toBool) ha
  | printable =>
    exact (he.eval ha).bind fun x y h => .pure (by rw [eq_of_unplaced display_unplaced h])
  | length => exact he.length ha
  | docOf =>
    exact (he.evalCallable ha _).bind fun f g h => .pure (by rw [eq_of_unplaced doc_unplaced h])
  | argcOf =>
    refine (he.evalCallable ha _).bind fun f g h => ?_
    rw [eq_of_unplaced arity_unplaced h]
    split <;> exact .pure rfl
  | typeIdOf =>
    exact (he.eval ha).bind fun x y h => .pure (by rw [eq_of_unplaced typeId_unplaced h])
  | assert => exact he.assert ha
  | recover => exact he.recover ha
  | exit => exact he.exit ha
  | eval => exact he.evalNamed ha
  | global => exact global ha
  | importModule => exact he.importNamed ha
  | write => exact he.writeValue ha
  | printFault => exact he.printFault ha

theorem binary (steps : Nat) (op : Binary) (ha : unplaced a = unplaced a')
    (hb : unplaced b = unplaced b') : Alike (op.call e steps a b) (op.call e steps a' b') := by
  cases op with
  | arith op =>
    refine (he.evalInt ha).bind fun x x' hx => (he.evalInt hb).bind fun y y' hy => ?_
    obtain rfl : x = x' := hx
    obtain rfl : y = y' := hy
    exact (Alike.ofExcept rfl).bind fun z z' hz => .pure (by rw [show z = z' from hz])
  | compare op =>
    refine (he.evalInt ha).bind fun x x' hx => (he.evalInt hb).bind fun y y' hy => .pure ?_
    rw [show x = x' from hx, show y = y' from hy]
  | or =>
    refine (he.evalBool ha).bind fun x x' hx => ?_
    obtain rfl : x = x' := hx
    cases x with
    | true => exact .pure rfl
    | false => exact (he.evalBool hb).bind fun y y' hy => .pure (by rw [show y = y' from hy])
  | and =>
    refine (he.evalBool ha).bind fun x x' hx => ?_
    obtain rfl : x = x' := hx
    cases x with
    | true => exact (he.evalBool hb).bind fun y y' hy => .pure (by rw [show y = y' from hy])
    | false => exact .pure rfl
  | equals =>
    refine (he.eval ha).bind fun x x' hx => (he.eval hb).bind fun y y' hy => .pure ?_
    rw [equals_eq hx hy]
  | assertEq => exact he.assertEq ha hb
  | assign => exact he.assign ha hb
  | when => exact he.when ha hb
  | loop => exact (he.loop steps ha hb).bind fun _ _ _ => .pure rfl
  | raise => exact he.raise ha hb
  | index => exact he.index ha hb
  | append => exact he.append ha hb
  | removeAt => exact he.removeAt ha hb
  | getField => exact he.getField ha hb

theorem ternary (op : Ternary) (ha : unplaced a = unplaced a') (hb : unplaced b = unplaced b')
    (hc : unplaced c = unplaced c') : Alike (op.call e a b c) (op.call e a' b' c') := by
  cases op with
  | choose => exact he.choose ha hb hc
  | replaceAt => exact he.replaceAt ha hb hc
  | forEach => exact he.forEach ha hb hc
  | setField => exact he.setField ha hb hc

theorem variadic (doc : String) (op : Variadic) (h : unplaced args = unplaced args') :
    Alike (op.call e doc args) (op.call e doc args') := by
  cases op with
  | sequence => exact he.sequence rfl h
  | define => exact defineNamed doc h
  | lambda => exact lambda h
  | list => exact (he.evalAll h).bind fun xs ys hxs => .pure (by simp [hxs])
  | concat => exact (he.concatAll h).bind fun s t hst => .pure (by rw [show s = t from hst])
  | print => exact he.print h
  | newType => exact he.newType doc h
  | callMethod => exact he.callMethod h

omit he in
theorem misfit (steps : Nat) (doc : String) {op : Builtin} {n : Nat} (hn : op.arity = some n)
    (h : args.length ≠ n) :
    Builtin.call e steps doc op args = Action.fail (.arity n args.length "") := by
  unfold Builtin.call
  split <;> simp_all [Builtin.arity]

theorem builtin (steps : Nat) (doc : String) (op : Builtin) (h : unplaced args = unplaced args') :
    Alike (Builtin.call e steps doc op args) (Builtin.call e steps doc op args') := by
  have length : args.length = args'.length := eq_of_unplaced (fun _ => List.length_map _) h
  have wrong {n : Nat} (hn : op.arity = some n) (hl : args.length ≠ n) :
      Alike (Builtin.call e steps doc op args) (Builtin.call e steps doc op args') := by
    rw [misfit steps doc hn hl, misfit steps doc hn (length ▸ hl), length]
    exact .fail rfl
  cases op with
  | nullary op =>
    rcases args with _ | ⟨a, rest⟩
    · obtain rfl := eq_nil_of_unplaced h
      exact nullary op
    · exact wrong rfl (by simp)
  | unary op =>
    rcases args with _ | ⟨a, _ | ⟨b, rest⟩⟩
    · exact wrong rfl (by simp)
    · obtain ⟨a', args', rfl, ha, h⟩ := exists_cons_of_unplaced h
      obtain rfl := eq_nil_of_unplaced h
      exact he.unary op ha
    · exact wrong rfl (by simp)
  | binary op =>
    rcases args with _ | ⟨a, _ | ⟨b, _ | ⟨c, rest⟩⟩⟩
    · exact wrong rfl (by simp)
    · exact wrong rfl (by simp)
    · obtain ⟨a', args', rfl, ha, h⟩ := exists_cons_of_unplaced h
      obtain ⟨b', args', rfl, hb, h⟩ := exists_cons_of_unplaced h
      obtain rfl := eq_nil_of_unplaced h
      exact he.binary steps op ha hb
    · exact wrong rfl (by simp)
  | ternary op =>
    rcases args with _ | ⟨a, _ | ⟨b, _ | ⟨c, _ | ⟨d, rest⟩⟩⟩⟩
    · exact wrong rfl (by simp)
    · exact wrong rfl (by simp)
    · exact wrong rfl (by simp)
    · obtain ⟨a', args', rfl, ha, h⟩ := exists_cons_of_unplaced h
      obtain ⟨b', args', rfl, hb, h⟩ := exists_cons_of_unplaced h
      obtain ⟨c', args', rfl, hc, h⟩ := exists_cons_of_unplaced h
      obtain rfl := eq_nil_of_unplaced h
      exact he.ternary op ha hb hc
    · exact wrong rfl (by simp)
  | variadic op => exact he.variadic doc op h

/-! ### Calls and expressions -/

theorem apply (steps : Nat) {f g : Callable} (name doc : String) (hf : unplaced f = unplaced g)
    (h : unplaced args = unplaced args') :
    Alike (applyWith e steps f args name doc) (applyWith e steps g args' name doc) := by
  have length : args.length = args'.length := eq_of_unplaced (fun _ => List.length_map _) h
  refine (Alike.ofExcept ?_).bind fun _ _ _ => ?_
  · rw [length, eq_of_unplaced arity_unplaced hf]
  · cases Callable.alike hf with
    | builtin stamp b => exact he.builtin steps doc b h
    | closure stamp _ params hb => exact he.callClosure params hb h
    | thunk stamp ha depth => exact (he.eval ha).truncated depth
    | constructor stamp _ required hd typeId => exact he.construct required hd typeId h

end Engine.Blind

theorem evalWith_alike {call : Callable → List Node → String → String → Action Atom}
    (hc : ∀ {f f' args args'} name doc, unplaced f = unplaced f' → unplaced args = unplaced args' →
      Alike (call f args name doc) (call f' args' name doc))
    {node node' : Node} (h : unplaced node = unplaced node') :
    Alike (evalWith call node) (evalWith call node') := by
  refine .exiting fun ending => ?_
  cases ending with
  | true => exact .pure rfl
  | false =>
    cases Node.alike h with
    | literal hv span span' => exact .pure hv
    | var name span span' => exact .lookup name span span'
    | call name ha doc span span' =>
      refine .traced span span' ?_
      exact (Alike.lookupFunction name).bind fun f f' hf => hc name doc hf ha

/-- No engine sees places: a call is made with an engine that is blind already. -/
theorem engine_blind (steps depth : Nat) : (engine steps depth).Blind := by
  induction depth with
  | zero => exact ⟨evalWith_alike fun _ _ _ _ => .done rfl, fun _ _ _ _ => .done rfl⟩
  | succ depth ih => exact ⟨evalWith_alike (ih.apply steps), ih.apply steps⟩

/-- Expressions that differ in their spans only, evaluated in machines that differ only in the spans
that they store and in the names of their sources, end alike: with values that differ in spans only
or with faults of the same cause. They write, read and count the same on the way, they store the same
outcome if they exit, and the bindings that they leave differ in spans only. -/
theorem evaluation_ignores_spans (limits : Limits) {node node' : Node} {m m' : Machine}
    (hn : unplaced node = unplaced node') (hm : unplaced m = unplaced m') :
    let r := (limits.engine.eval node).run m
    let r' := (limits.engine.eval node').run m'
    unplaced r.1 = unplaced r'.1 ∧ r.2.world = r'.2.world ∧
      unplaced r.2.exit = unplaced r'.2.exit ∧ unplaced r.2.storage = unplaced r'.2.storage := by
  intro r r'
  have blind := engine_blind limits.steps limits.depth
  obtain ⟨result, machine⟩ := Prod.mk.inj (blind.eval hn m m' hm)
  exact ⟨result, world_eq machine, congrArg Machine.exit machine, storage_eq machine⟩

/-- A function that is written in two places and called from two places, in programs that are shown
under two names. -/
theorem evaluation_ignores_spans_of_function :
    ∃ (node node' : Node) (m m' : Machine), node ≠ node' ∧ m.storage ≠ m'.storage ∧
      unplaced node = unplaced node' ∧ unplaced m = unplaced m' ∧
      unplaced ((Limits.generous.engine.eval node).run m).1 =
        unplaced ((Limits.generous.engine.eval node').run m').1 := by
  let body (span : Option Span) : Node := .var "x" span
  let machine (span : Option Span) (name : String) : Machine :=
    { storage := { outermost := [("f", .function (.closure [0] "" [] (body span)))] }
      sourceName := name }
  let call (span : Option Span) : Node := .call "f" [] "" span
  have nodes : unplaced (call none) = unplaced (call (some default)) := by simp [call]
  have machines : unplaced (machine none "a") = unplaced (machine (some default) "b") := rfl
  refine ⟨call none, call (some default), machine none "a", machine (some default) "b", ?_, ?_,
    nodes, machines, (evaluation_ignores_spans .generous nodes machines).1⟩
  · simp [call]
  · simp [machine, body]

end CallLang
