import CallLang.Proofs.Discipline

/-!
# Evaluation follows every discipline

One lemma for each builtin says that it keeps to a discipline if the engine that it asks does, and
what may be counted on of its result. They add up to calls, to evaluation and to runs of texts
(`Discipline.Follows.runText`), so that an engine follows a discipline if the engine of the next
lower depth does.
-/

namespace CallLang

open CallLang.Action CallLang.Builtin

namespace Discipline.Follows

variable {Stage : Type} [Preorder Stage] {d : Discipline Stage} {t : Stage} {e : Engine}
  (he : d.Follows e)

include he

/-! ### Arguments -/

section

variable {node : Node} (hn : d.Over t node.values)

include hn

/-- An expression whose value is not counted. -/
theorem evalOver : d.Gives t (e.eval node) :=
  (he.eval hn).weaken fun _ _ _ h => h.1

theorem evalInt : d.Keeps t (Action.evalInt e node) fun _ n => d.int n := by
  refine (he.evalOver hn).bind fun t' a _ ha => ?_
  cases a with
  | int n => exact keeps_pure (ha _ (Atom.mem_values_self _))
  | _ => exact keeps_stop _

theorem evalBool : d.Keeps t (Action.evalBool e node) fun _ _ => True := by
  refine (he.eval hn).bind fun t' a _ _ => ?_
  cases a with
  | bool b => exact keeps_pure trivial
  | _ => exact keeps_stop _

theorem evalString : d.Keeps t (Action.evalString e node) fun _ _ => True := by
  refine (he.eval hn).bind fun t' a _ _ => ?_
  cases a with
  | string s => exact keeps_pure trivial
  | _ => exact keeps_stop _

theorem evalObject : d.Keeps t (Action.evalObject e node) fun t' o =>
    d.Over t' (Atom.object o.1 o.2).values := by
  refine (he.evalOver hn).bind fun t' a _ ha => ?_
  cases a with
  | object typeId fields => exact keeps_pure ha
  | _ => exact keeps_stop _

theorem evalCallable (builtin : String) :
    d.Keeps t (CallLang.evalCallable e node builtin) fun _ f => d.int (f.arity.getD 0) := by
  refine (he.eval hn).bind fun t' a _ ha => ?_
  cases a with
  | function f => exact keeps_pure (d.int_extent ha.2)
  | _ => exact keeps_stop _

end

theorem evalAll {nodes : List Node} (hn : d.Over t (Node.valuesAll nodes)) :
    d.Keeps t (Action.evalAll e nodes) fun t' vs =>
      d.Over t' (Atom.valuesAll vs) ∧ vs.length = nodes.length := by
  induction nodes generalizing t with
  | nil => exact keeps_pure ⟨over_nil, rfl⟩
  | cons node nodes ih =>
    refine (he.evalOver hn.left).bind fun t₁ value h₁ hv => ?_
    refine (ih (hn.right.mono h₁)).bind fun t₂ values h₂ hvs => keeps_pure ⟨?_, ?_⟩
    · exact (hv.mono h₂).append hvs.1
    · exact congrArg (· + 1) hvs.2

/-! ### Functions that programs define -/

theorem pass (depth : Nat) (isLazy : Bool) {argument : Node} (hn : d.Over t argument.values) :
    d.Gives t (Closure.pass e depth isLazy argument) := by
  rw [Closure.pass]
  split
  · exact keeps_look fun _ _ => keeps_pure (over_cons trivial hn)
  · exact he.evalOver hn

theorem passAll (depth : Nat) (isLazy : Bool) {arguments : List Node}
    (hn : d.Over t (Node.valuesAll arguments)) :
    d.Keeps t (Closure.passAll e depth isLazy arguments) fun t' vs =>
      d.Over t' (Atom.valuesAll vs) := by
  induction arguments generalizing t with
  | nil => exact keeps_pure over_nil
  | cons argument arguments ih =>
    refine (he.pass depth isLazy hn.left).bind fun t₁ value h₁ hv => ?_
    refine (ih (hn.right.mono h₁)).bind fun t₂ values h₂ hvs => keeps_pure ?_
    exact (hv.mono h₂).append hvs

theorem bindParams (depth : Nat) (params : List Param) {arguments : List Node}
    (hn : d.Over t (Node.valuesAll arguments)) :
    d.Keeps t (Closure.bind e depth params arguments) fun t' bs => d.Over t' bs.values := by
  induction params generalizing t arguments with
  | nil => exact keeps_pure over_nil
  | cons param params ih =>
    unfold Closure.bind
    split
    · refine (he.passAll depth _ hn).bind fun t₁ values h₁ hv => ?_
      refine (ih over_nil).bind fun t₂ rest h₂ hr => keeps_pure ?_
      exact (over_list (hv.mono h₂)).append hr
    · cases arguments with
      | nil => exact keeps_pure over_nil
      | cons argument arguments =>
        refine (he.pass depth _ hn.left).bind fun t₁ value h₁ hv => ?_
        refine (ih (hn.right.mono h₁)).bind fun t₂ rest h₂ hr => keeps_pure ?_
        exact (hv.mono h₂).append hr

theorem callClosure (params : List Param) {body : Node} {arguments : List Node}
    (hb : d.Over t body.values) (hn : d.Over t (Node.valuesAll arguments)) :
    d.Gives t (Closure.call e params body arguments) := by
  rw [Closure.call]
  split
  · exact keeps_stop _
  · refine keeps_machine fun m _ => (he.bindParams _ params hn).bind fun t' bindings ht hbs => ?_
    exact Keeps.inScope hbs (he.evalOver (hb.mono ht))

/-! ### Control flow -/

theorem sequence {value : Atom} {nodes : List Node} (hv : d.Over t value.values)
    (hn : d.Over t (Node.valuesAll nodes)) :
    d.Gives t (Control.sequence e value nodes) := by
  induction nodes generalizing t value with
  | nil => exact keeps_pure hv
  | cons node nodes ih =>
    exact (he.evalOver hn.left).bind fun t' a ht ha => ih ha (hn.right.mono ht)

theorem assign {target value : Node} (hn : d.Over t value.values) :
    d.Gives t (Control.assign e target value) := by
  rw [Control.assign]
  split
  · exact keeps_stop _
  · refine (he.evalOver hn).bind fun t' a _ ha => ?_
    refine keeps_unlessExiting (keeps_pure (over_single trivial)) ?_
    exact keeps_take rfl ha (keeps_pure (over_single trivial))

theorem when {condition body : Node} (hc : d.Over t condition.values)
    (hb : d.Over t body.values) :
    d.Gives t (Control.when e condition body) := by
  refine (he.evalBool hc).bind fun t' b ht _ => ?_
  cases b with
  | true => exact he.evalOver (hb.mono ht)
  | false => exact keeps_pure (over_single trivial)

theorem choose {condition yes no : Node} (hc : d.Over t condition.values)
    (hy : d.Over t yes.values) (hn : d.Over t no.values) :
    d.Gives t (Control.choose e condition yes no) := by
  refine (he.evalBool hc).bind fun t' b ht _ => ?_
  cases b with
  | true => exact he.evalOver (hy.mono ht)
  | false => exact he.evalOver (hn.mono ht)

theorem loop {condition body : Node} (hc : d.Over t condition.values) (hb : d.Over t body.values)
    (steps : Nat) : d.Keeps t (Control.loop e condition body steps) fun _ _ => True := by
  induction steps generalizing t with
  | zero => exact keeps_stop _
  | succ steps ih =>
    refine keeps_unlessExiting (keeps_pure trivial) ((he.evalBool hc).bind fun t₁ b h₁ _ => ?_)
    cases b with
    | true =>
      refine (he.eval (hb.mono h₁)).bind fun t₂ _ h₂ _ => ?_
      exact ih (hc.mono (h₁.trans h₂)) (hb.mono (h₁.trans h₂))
    | false => exact keeps_pure trivial

theorem raise {kind message : Node} (hk : d.Over t kind.values) (hm : d.Over t message.values) :
    d.Gives t (Control.raise e kind message) :=
  (he.evalString hk).bind fun _ _ ht _ =>
    (he.evalString (hm.mono ht)).bind fun _ _ _ _ => keeps_stop _

theorem recover {node : Node} (hn : d.Over t node.values) :
    d.Gives t (Control.recover e node) := by
  refine (he.evalOver hn).attempt.bind fun t' r _ hr => ?_
  cases r with
  | ok value => exact keeps_pure (hr value rfl)
  | error fault => exact keeps_pure (over_single trivial)

theorem exitWith {node : Node} (hn : d.Over t node.values) :
    d.Gives t (Control.exit e node) := by
  refine (he.evalOver hn).attempt.bind fun t' r _ hr => ?_
  refine keeps_take rfl ?_ (keeps_pure (over_single trivial))
  cases r with
  | ok value => exact hr value rfl
  | error fault => exact over_nil

theorem assert {node : Node} (hn : d.Over t node.values) :
    d.Gives t (Control.assert e node) := by
  refine (he.evalBool hn).bind fun t' b _ _ => ?_
  cases b with
  | true => exact keeps_pure (over_single trivial)
  | false => exact keeps_stop _

theorem assertEq {left right : Node} (hl : d.Over t left.values) (hr : d.Over t right.values) :
    d.Gives t (Control.assertEq e left right) := by
  refine (he.eval hl).bind fun t₁ x h₁ _ => (he.eval (hr.mono h₁)).bind fun t₂ y _ _ => ?_
  split
  · exact keeps_pure (over_single trivial)
  · exact keeps_stop _

omit he in
theorem global (node : Node) :
    d.Gives t (Control.global node) :=
  (keeps_nameOf node _).bind fun _ _ _ _ =>
    keeps_take rfl over_nil (keeps_pure (over_single trivial))

omit he in
theorem define (doc : String) {nodes : List Node} (hn : d.Over t (Node.valuesAll nodes)) :
    d.Gives t (Control.define doc nodes) := by
  unfold Control.define
  split
  · rename_i target second rest
    refine (keeps_nameOf target _).bind fun t' name ht _ => keeps_define ?_ fun g hg => ?_
    · exact (hn.right.argument (List.getLast_mem _)).mono ht
    · exact keeps_take rfl hg (keeps_pure (over_single trivial))
  · exact keeps_stop _

omit he in
theorem lambda {nodes : List Node} (hn : d.Over t (Node.valuesAll nodes)) :
    d.Gives t (Control.lambda nodes) := by
  unfold Control.lambda
  split
  · exact keeps_stop _
  · exact keeps_define (hn.argument (List.getLast_mem _)) fun g hg => keeps_pure hg

/-! ### Objects -/

theorem field {fields : Object.Fields} {node : Node} (hf : d.Over t fields.defaults.values)
    (distinct : fields.names.Nodup) (hn : d.Over t node.values) :
    d.Keeps t (Object.field e fields node) fun t' fs =>
      d.Over t' fs.defaults.values ∧ fs.names.Nodup := by
  unfold Object.field
  split
  · rw [Object.Fields.addRequired]
    split
    · exact keeps_stop _
    · rename_i fresh
      refine keeps_pure ⟨hf, ?_⟩
      rw [Object.Fields.names, List.append_assoc]
      exact List.perm_middle.nodup_iff.mpr (List.nodup_cons.mpr ⟨fresh, distinct⟩)
  · refine (he.evalOver hn.right.left).bind fun t' a ht ha => ?_
    rw [Object.Fields.addDefault]
    split
    · exact keeps_stop _
    · rename_i fresh
      refine keeps_pure ⟨?_, ?_⟩
      · rw [Bindings.values_append]
        exact (hf.mono ht).append (ha.append over_nil)
      · rw [Object.Fields.names, Bindings.names, List.map_append, ← List.append_assoc]
        exact (List.perm_append_singleton _ _).nodup_iff.mpr (List.nodup_cons.mpr ⟨fresh, distinct⟩)
  · exact keeps_stop _
  · exact keeps_stop _
  · exact keeps_stop _

theorem fieldsOf {fields : Object.Fields} {nodes : List Node}
    (hf : d.Over t fields.defaults.values) (distinct : fields.names.Nodup)
    (hn : d.Over t (Node.valuesAll nodes)) :
    d.Keeps t (Object.fieldsOf e fields nodes) fun t' fs =>
      d.Over t' fs.defaults.values ∧ fs.names.Nodup := by
  induction nodes generalizing t fields with
  | nil => exact keeps_pure ⟨hf, distinct⟩
  | cons node nodes ih =>
    exact (he.field hf distinct hn.left).bind fun t' fs ht hfs => ih hfs.1 hfs.2 (hn.right.mono ht)

theorem newType (doc : String) {nodes : List Node} (hn : d.Over t (Node.valuesAll nodes)) :
    d.Gives t (Object.newType e doc nodes) := by
  unfold Object.newType
  split
  · exact keeps_stop _
  · refine (keeps_nameOf _ _).bind fun t₁ name h₁ _ => ?_
    have none : (Object.Fields.names {}).Nodup := List.nodup_nil
    refine (he.fieldsOf over_nil none (hn.right.mono h₁)).bind fun t₂ fields _ hf => ?_
    refine keeps_unlessExiting (keeps_pure (over_single trivial)) ?_
    -- the fields are known when the type id is given out
    refine keeps_freshTypeId hf.2 fun t₃ typeId h₃ typed => ?_
    refine keeps_take rfl ?_ (keeps_pure (over_single trivial))
    exact over_constructor typed (hf.1.mono h₃) _ _

theorem construct {stamp : Stamp} {doc : String} {required : List String} {defaults : Bindings}
    {typeId : Nat} {arguments : List Node}
    (hf : d.Over t (Atom.function (.constructor stamp doc required defaults typeId)).values)
    (hn : d.Over t (Node.valuesAll arguments)) (arity : required.length = arguments.length) :
    d.Gives t (Object.construct e required defaults typeId arguments) := by
  refine (he.evalAll hn).bind fun t' values ht hv => keeps_pure (over_object ?_ ?_)
  · have names : Bindings.names (required.zip values ++ defaults) =
        required ++ Bindings.names defaults := by
      rw [Bindings.names, List.map_append, List.map_fst_zip (by omega)]
      rfl
    rw [names]
    exact d.type_mono ht (hf _ List.mem_cons_self)
  · rw [Bindings.values_append]
    refine Over.append (fun v hv' => ?_) ?_
    · obtain ⟨b, hb, hv'⟩ := Bindings.mem_values.mp hv'
      exact hv.1.element (List.of_mem_zip hb).2 v hv'
    · exact hf.defaults.mono ht

theorem getField {object field : Node} (hn : d.Over t object.values) :
    d.Gives t (Object.getField e object field) := by
  refine (he.evalObject hn).bind fun t₁ o h₁ ho => ?_
  refine (keeps_nameOf field _).bind fun t₂ name h₂ _ => ?_
  split
  · rename_i value hv
    exact keeps_pure ((ho.fields.get? hv).mono h₂)
  · exact keeps_stop _

/-- An object keeps its fields when one of them gets another value. -/
theorem setField {object field value : Node} (hn : d.Over t object.values)
    (hv : d.Over t value.values) :
    d.Gives t (Object.setField e object field value) := by
  refine (he.evalObject hn).bind fun t₁ o h₁ ho => ?_
  refine (keeps_nameOf field _).bind fun t₂ name h₂ _ => ?_
  split
  · rename_i old hf
    refine (he.evalOver (hv.mono (h₁.trans h₂))).bind fun t₃ a h₃ ha => keeps_pure ?_
    have there := ho.mono (h₂.trans h₃)
    have bound : name ∈ Bindings.names o.2 := Bindings.mem_names_iff.mpr ⟨old, hf⟩
    refine over_object ?_ fun v hv => ?_
    · rw [Bindings.names_set, if_pos bound]
      exact there _ List.mem_cons_self
    · obtain ⟨b, hb, hv⟩ := Bindings.mem_values.mp hv
      rcases Bindings.mem_set hb with hb | rfl
      · exact there.fields.bound hb v hv
      · exact ha v hv
  · exact keeps_stop _

theorem callMethod {nodes : List Node} (hn : d.Over t (Node.valuesAll nodes)) :
    d.Gives t (Object.callMethod e nodes) := by
  unfold Object.callMethod
  split
  · refine (he.evalObject hn.left).bind fun t₁ o h₁ ho => ?_
    refine (keeps_nameOf _ _).bind fun t₂ name h₂ _ => ?_
    split
    · rename_i f hf
      -- the object is passed to its method as a literal
      refine he.call _ _ ((ho.fields.get? hf).mono h₂) ?_
      exact (ho.mono h₂).append (hn.right.right.mono (h₁.trans h₂))
    · exact keeps_stop _
    · exact keeps_stop _
  · exact keeps_stop _

/-! ### Lists and strings -/

/-- The elements of a sequence may occur, and it may be counted. -/
theorem evalSequence {node : Node} (hn : d.Over t node.values) :
    d.Keeps t (Sequences.evalSequence e node) fun t' seq =>
      d.Over t' (Atom.valuesAll seq.elements) ∧ d.int seq.length := by
  refine (he.eval hn).bind fun t' a _ ha => ?_
  obtain ⟨inside, countable⟩ := ha
  have counted := d.int_extent countable
  cases a with
  | string s =>
    refine keeps_pure ⟨fun v hv => ?_, counted⟩
    rw [Atom.valuesAll_eq] at hv
    obtain ⟨c, hc, hv⟩ := List.mem_flatMap.mp hv
    obtain ⟨_, -, rfl⟩ := List.mem_map.mp hc
    obtain rfl := List.mem_singleton.mp hv
    trivial
  | list xs => exact keeps_pure ⟨inside.elements, counted⟩
  | _ => exact keeps_stop _

theorem evalIndex {node : Node} (hn : d.Over t node.values) :
    d.Keeps t (Sequences.evalIndex e node) fun _ _ => True := by
  refine (he.evalInt hn).bind fun t' index _ _ => ?_
  split
  · exact keeps_stop _
  · exact keeps_pure trivial

omit he in
theorem checkBounds (seq : Sequence) (index : Nat) :
    d.Keeps t (Sequences.checkBounds seq index) fun _ _ => True := by
  rw [Sequences.checkBounds]
  split
  · exact keeps_pure trivial
  · exact keeps_stop _

theorem length {node : Node} (hn : d.Over t node.values) :
    d.Gives t (Sequences.length e node) :=
  (he.evalSequence hn).bind fun _ _ _ hs => keeps_pure (over_single hs.2)

theorem index {sequence position : Node} (hs : d.Over t sequence.values)
    (hp : d.Over t position.values) :
    d.Gives t (Sequences.index e sequence position) := by
  refine (he.evalSequence hs).bind fun t₁ seq h₁ hseq => ?_
  refine (he.evalIndex (hp.mono h₁)).bind fun t₂ index h₂ _ => ?_
  split
  · rename_i element hel
    exact keeps_pure ((hseq.1.element (List.mem_of_getElem? hel)).mono h₂)
  · exact keeps_stop _

theorem append {sequence element : Node} (hs : d.Over t sequence.values)
    (hn : d.Over t element.values) :
    d.Gives t (Sequences.append e sequence element) := by
  refine (he.evalSequence hs).bind fun t₁ seq h₁ hseq => ?_
  cases seq with
  | text cs =>
    refine (he.evalString (hn.mono h₁)).bind fun t₂ s _ _ => ?_
    exact keeps_pure (over_single trivial)
  | items xs =>
    refine (he.evalOver (hn.mono h₁)).bind fun t₂ a h₂ ha => keeps_pure (over_list ?_)
    rw [Atom.valuesAll_eq, List.flatMap_append, ← Atom.valuesAll_eq]
    exact (hseq.1.mono h₂).append (ha.append over_nil)

theorem replaceAt {sequence position element : Node} (hs : d.Over t sequence.values)
    (hp : d.Over t position.values) (hn : d.Over t element.values) :
    d.Gives t (Sequences.replaceAt e sequence position element) := by
  refine (he.evalSequence hs).bind fun t₁ seq h₁ hseq => ?_
  refine (he.evalIndex (hp.mono h₁)).bind fun t₂ index h₂ _ => ?_
  refine (checkBounds seq index).bind fun t₃ _ h₃ _ => ?_
  have h₁₃ := h₁.trans (h₂.trans h₃)
  cases seq with
  | text cs =>
    refine (he.evalString (hn.mono h₁₃)).bind fun t₄ s _ _ => ?_
    split
    · exact keeps_pure (over_single trivial)
    · exact keeps_stop _
  | items xs =>
    refine (he.evalOver (hn.mono h₁₃)).bind fun t₄ a h₄ ha => keeps_pure (over_list ?_)
    have others := hseq.1.mono ((h₂.trans h₃).trans h₄)
    intro v hv
    rw [Atom.valuesAll_eq] at hv
    obtain ⟨x, hx, hx'⟩ := List.mem_flatMap.mp hv
    rcases List.mem_or_eq_of_mem_set hx with hx | rfl
    · exact others.element hx v hx'
    · exact ha v hx'

theorem removeAt {sequence position : Node} (hs : d.Over t sequence.values)
    (hp : d.Over t position.values) :
    d.Gives t (Sequences.removeAt e sequence position) := by
  refine (he.evalSequence hs).bind fun t₁ seq h₁ hseq => ?_
  refine (he.evalIndex (hp.mono h₁)).bind fun t₂ index h₂ _ => ?_
  refine (checkBounds seq index).bind fun t₃ _ h₃ _ => keeps_pure ?_
  cases seq with
  | text cs => exact over_single trivial
  | items xs =>
    exact over_list ((hseq.1.among (List.eraseIdx_sublist xs index).subset).mono (h₂.trans h₃))

theorem iterate (name : String) {body : Node} {elements : List Atom} (hb : d.Over t body.values)
    (hs : d.Over t (Atom.valuesAll elements)) :
    d.Keeps t (Sequences.iterate e name body elements) fun _ _ => True := by
  induction elements generalizing t with
  | nil => exact keeps_pure trivial
  | cons element elements ih =>
    refine keeps_unlessExiting (keeps_pure trivial) (keeps_take rfl hs.left ?_)
    exact (he.eval hb).bind fun t' _ ht _ => ih (hb.mono ht) (hs.right.mono ht)

theorem forEach {sequence loopName body : Node} (hs : d.Over t sequence.values)
    (hb : d.Over t body.values) :
    d.Gives t (Sequences.forEach e sequence loopName body) := by
  refine (he.evalSequence hs).bind fun t₁ seq h₁ hseq => ?_
  refine (keeps_nameOf loopName _).bind fun t₂ name h₂ _ => ?_
  refine (he.iterate name (hb.mono (h₁.trans h₂)) (hseq.1.mono h₂)).bind fun _ _ _ _ => ?_
  exact keeps_pure (over_single trivial)

theorem concatAll {nodes : List Node} (hn : d.Over t (Node.valuesAll nodes)) :
    d.Keeps t (Sequences.concatAll e nodes) fun _ _ => True := by
  induction nodes generalizing t with
  | nil => exact keeps_pure trivial
  | cons node nodes ih =>
    refine (he.evalString hn.left).bind fun t' _ ht _ => ?_
    exact (ih (hn.right.mono ht)).bind fun _ _ _ _ => keeps_pure trivial

/-! ### Streams -/

theorem print {nodes : List Node} (hn : d.Over t (Node.valuesAll nodes)) :
    d.Gives t (Stream.print e nodes) :=
  (he.evalAll hn).bind fun _ _ _ _ =>
    (keeps_write _).bind fun _ _ _ _ => keeps_pure (over_single trivial)

theorem writeValue {node : Node} (hn : d.Over t node.values) :
    d.Gives t (Stream.writeValue e node) :=
  (he.eval hn).bind fun _ _ _ _ =>
    (keeps_write _).bind fun _ _ _ _ => keeps_pure (over_single trivial)

theorem printFault {node : Node} (hn : d.Over t node.values) :
    d.Gives t (Stream.printFault e node) := by
  refine (he.eval hn).attempt.bind fun t' r _ _ => ?_
  cases r with
  | error fault => exact (keeps_writeError _).bind fun _ _ _ _ => keeps_pure (over_single trivial)
  | ok value => exact keeps_unlessExiting (keeps_pure (over_single trivial)) (keeps_stop _)

/-! ### Modules -/

/-- The literals of a program text may occur, and so may an outcome that was stored. -/
theorem execute {prepare : Action Unit} (hp : d.Keeps t prepare fun _ _ => True)
    (source : Source) :
    d.Keeps t (Action.execute e prepare source) fun t' o => d.Over t' o.values := by
  have evaluated : d.Gives t (prepare >>= fun _ =>
      ofOutcome (Node.parse source.text (some source)) >>= e.eval) := by
    refine hp.bind fun t' _ _ _ => ?_
    rw [ofOutcome_bind]
    split
    · rename_i program hprogram
      exact he.evalOver fun v hv => allows_of_written (Node.written_of_parse hprogram v hv)
    · exact keeps_stop _
  refine evaluated.contain.bind fun t' r _ hr => keeps_machine fun m hm => keeps_pure ?_
  cases stored : m.exit with
  | some o => exact hm.exit stored
  | none =>
    cases r with
    | ok a => exact hr a rfl
    | error fault => exact over_nil

omit he in
theorem importWith {run : Source → Action Outcome}
    (hr : ∀ t source, d.Keeps t (run source) fun t' o => d.Over t' o.values) (name : String)
    (embeddedOnly : Bool) :
    d.Gives t (Action.importWith run name embeddedOnly) := by
  refine keeps_machine fun m _ => ?_
  rw [ofExcept_bind]
  split
  · split
    · exact keeps_stop _
    · refine (hr t _).inMachine.bind fun t' r _ h => ?_
      exact keeps_settle h.1 h.2 fun b => Storage.mem_all_of_exported
  · exact keeps_stop _

theorem loadPrelude : d.Keeps t (Action.loadPrelude e) fun _ _ => True := by
  refine keeps_machine fun m _ => ?_
  split
  · exact keeps_pure trivial
  · refine keeps_take rfl over_nil ?_
    refine (importWith (fun t => he.execute (keeps_pure trivial)) _ _).bind fun _ _ _ _ => ?_
    exact keeps_step rfl over_nil (keeps_pure trivial)

/-- The outcome of a text that is run may occur. -/
theorem runText (source : Source) :
    d.Keeps t (Action.runText e source) fun t' o => d.Over t' o.values :=
  he.execute he.loadPrelude source

theorem importModule (name : String) (embeddedOnly : Bool) :
    d.Gives t (Action.importModule e name embeddedOnly) :=
  importWith (fun _ => he.runText) name embeddedOnly

theorem importNamed (node : Node) :
    d.Gives t (Control.importNamed e node) :=
  (keeps_nameOf node _).bind fun _ name _ _ => he.importModule name false

theorem evalText (text : String) :
    d.Gives t (Action.evalText e text) := by
  refine (he.runText _).inMachine.bind fun t' r _ h => ?_
  exact keeps_settle h.1 h.2 fun b hb => absurd hb List.not_mem_nil

theorem evalNamed {node : Node} (hn : d.Over t node.values) :
    d.Gives t (Control.eval e node) :=
  (he.evalString hn).bind fun _ text _ _ => he.evalText text

/-! ### Builtins -/

omit he in
theorem nullary (op : Nullary) : d.Gives t op.call := by
  cases op with
  | input => exact keeps_readLine.bind fun _ _ _ _ => keeps_pure (over_single trivial)
  | now => exact keeps_readClock.bind fun _ _ _ hn => keeps_pure (over_single hn)
  | nowNanosPart =>
    refine keeps_readClock.bind fun _ n _ _ => keeps_pure (over_single (d.int_of_fits ?_))
    have part : n % Stream.nanosPerSecond < Stream.nanosPerSecond := Nat.mod_lt _ (by decide)
    simp only [Fits, minInt, maxInt, Stream.nanosPerSecond] at part ⊢
    omega

/-- The type id of a value is among the first ones or counts types. -/
theorem typeIdOf {node : Node} (hn : d.Over t node.values) :
    d.Keeps t (e.eval node) fun _ a => d.int a.typeId := by
  refine (he.eval hn).weaken fun t' a _ ha => ?_
  cases a with
  | object typeId fields => exact d.int_extent ha.2
  | int | bool | null | list | string | function =>
    exact d.int_of_fits (by simp only [Atom.typeId]; decide)

omit he in
/-- A conversion to an integer gives the integer itself or one that is in range. -/
theorem toInt {a b : Atom} (ha : d.Over t a.values) (hb : Convert.toInt a = .ok b) :
    d.Over t b.values := by
  unfold Convert.toInt at hb
  split at hb
  · obtain rfl := Except.ok.inj hb
    exact ha
  · obtain rfl := Except.ok.inj hb
    refine over_single (d.int_of_fits ?_)
    split <;> decide
  · split at hb
    · split at hb
      · cases hb
      · split at hb
        · rename_i fits
          obtain rfl := Except.ok.inj hb
          exact over_single (d.int_of_fits fits)
        · cases hb
    · cases hb
  · cases hb

omit he in
theorem toText {a b : Atom} (hb : Convert.toText a = .ok b) : d.Over t b.values := by
  unfold Convert.toText Atom.expect at hb
  split at hb
  · obtain rfl := Except.ok.inj hb
    exact over_single trivial
  · cases hb

omit he in
theorem toBool {a b : Atom} (hb : Convert.toBool a = .ok b) : d.Over t b.values := by
  unfold Convert.toBool at hb
  split at hb
  · obtain rfl := Except.ok.inj hb
    exact over_single trivial
  · obtain rfl := Except.ok.inj hb
    exact over_single trivial
  · split at hb
    · obtain rfl := Except.ok.inj hb
      exact over_single trivial
    · split at hb
      · obtain rfl := Except.ok.inj hb
        exact over_single trivial
      · cases hb
  · cases hb

theorem unary (op : Unary) {a : Node} (ha : d.Over t a.values) :
    d.Gives t (op.call e a) := by
  cases op with
  | not => exact (he.evalBool ha).bind fun _ _ _ _ => keeps_pure (over_single trivial)
  | toInt => exact (he.evalOver ha).bind fun _ v _ hv => keeps_ofExcept fun n hn => toInt hv hn
  | toString => exact (he.eval ha).bind fun _ v _ _ => keeps_ofExcept fun s hs => toText hs
  | toBool => exact (he.eval ha).bind fun _ v _ _ => keeps_ofExcept fun b hb => toBool hb
  | printable => exact (he.eval ha).bind fun _ _ _ _ => keeps_pure (over_single trivial)
  | length => exact he.length ha
  | docOf => exact (he.evalCallable ha _).bind fun _ _ _ _ => keeps_pure (over_single trivial)
  | argcOf =>
    refine (he.evalCallable ha _).bind fun _ f _ hf => ?_
    split
    · rename_i n hn
      rw [hn] at hf
      exact keeps_pure (over_single hf)
    · exact keeps_pure (over_single trivial)
  | typeIdOf => exact (he.typeIdOf ha).bind fun _ _ _ hn => keeps_pure (over_single hn)
  | assert => exact he.assert ha
  | recover => exact he.recover ha
  | exit => exact he.exitWith ha
  | eval => exact he.evalNamed ha
  | global => exact global a
  | importModule => exact he.importNamed a
  | write => exact he.writeValue ha
  | printFault => exact he.printFault ha

theorem binary (steps : Nat) (op : Binary) {a b : Node} (ha : d.Over t a.values)
    (hb : d.Over t b.values) :
    d.Gives t (op.call e steps a b) := by
  cases op with
  | arith op =>
    refine (he.evalInt ha).bind fun t₁ x h₁ hx => ?_
    refine (he.evalInt (hb.mono h₁)).bind fun t₂ y _ hy => ?_
    rw [ofExcept_bind]
    split
    · rename_i n hn
      exact keeps_pure (over_single (d.int_apply hx hy hn))
    · exact keeps_stop _
  | compare op =>
    refine (he.evalInt ha).bind fun t₁ x h₁ _ => (he.evalInt (hb.mono h₁)).bind fun _ _ _ _ => ?_
    exact keeps_pure (over_single trivial)
  | or =>
    refine (he.evalBool ha).bind fun t₁ x h₁ _ => ?_
    cases x with
    | true => exact keeps_pure (over_single trivial)
    | false =>
      exact (he.evalBool (hb.mono h₁)).bind fun _ _ _ _ => keeps_pure (over_single trivial)
  | and =>
    refine (he.evalBool ha).bind fun t₁ x h₁ _ => ?_
    cases x with
    | true => exact (he.evalBool (hb.mono h₁)).bind fun _ _ _ _ => keeps_pure (over_single trivial)
    | false => exact keeps_pure (over_single trivial)
  | equals =>
    refine (he.eval ha).bind fun t₁ x h₁ _ => (he.eval (hb.mono h₁)).bind fun _ _ _ _ => ?_
    exact keeps_pure (over_single trivial)
  | assertEq => exact he.assertEq ha hb
  | assign => exact he.assign hb
  | when => exact he.when ha hb
  | loop => exact (he.loop ha hb steps).bind fun _ _ _ _ => keeps_pure (over_single trivial)
  | raise => exact he.raise ha hb
  | index => exact he.index ha hb
  | append => exact he.append ha hb
  | removeAt => exact he.removeAt ha hb
  | getField => exact he.getField ha

theorem ternary (op : Ternary) {a b c : Node} (ha : d.Over t a.values) (hb : d.Over t b.values)
    (hc : d.Over t c.values) :
    d.Gives t (op.call e a b c) := by
  cases op with
  | choose => exact he.choose ha hb hc
  | replaceAt => exact he.replaceAt ha hb hc
  | forEach => exact he.forEach ha hc
  | setField => exact he.setField ha hc

theorem variadic (doc : String) (op : Variadic) {args : List Node}
    (hn : d.Over t (Node.valuesAll args)) :
    d.Gives t (op.call e doc args) := by
  cases op with
  | sequence => exact he.sequence (over_single trivial) hn
  | define => exact define doc hn
  | lambda => exact lambda hn
  | list => exact (he.evalAll hn).bind fun _ _ _ hv => keeps_pure (over_list hv.1)
  | concat => exact (he.concatAll hn).bind fun _ _ _ _ => keeps_pure (over_single trivial)
  | print => exact he.print hn
  | newType => exact he.newType doc hn
  | callMethod => exact he.callMethod hn

theorem builtin (steps : Nat) (doc : String) (b : Builtin) {args : List Node}
    (hn : d.Over t (Node.valuesAll args)) :
    d.Gives t (Builtin.call e steps doc b args) := by
  unfold Builtin.call
  split
  · exact nullary _
  · exact he.unary _ hn.left
  · exact he.binary steps _ hn.left hn.right.left
  · exact he.ternary _ hn.left hn.right.left hn.right.right.left
  · exact he.variadic doc _ hn
  · exact keeps_stop _

/-! ### Calls and evaluation -/

/-- A call keeps to the discipline if the function and the arguments do. -/
theorem apply (steps : Nat) {f : Callable} {args : List Node} (name doc : String)
    (hf : d.Over t (Atom.function f).values) (hn : d.Over t (Node.valuesAll args)) :
    d.Gives t (applyWith e steps f args name doc) := by
  unfold applyWith
  rw [ofExcept_bind]
  split
  · rename_i arity
    cases f with
    | builtin stamp b => exact he.builtin steps doc b hn
    | closure stamp doc params body => exact he.callClosure params hf.tail hn
    | thunk stamp argument depth => exact (he.evalOver hf.tail).truncated depth
    | constructor stamp doc required defaults typeId =>
      -- the number of arguments was checked
      refine he.construct hf hn ?_
      by_contra differ
      simp [Callable.checkArity, Callable.arity, differ] at arity
  · exact keeps_stop _

end Discipline.Follows

/-- Evaluation keeps to the discipline if calls do. -/
theorem Discipline.keeps_evalWith {Stage : Type} [Preorder Stage] {d : Discipline Stage} {t : Stage}
    {call : Callable → List Node → String → String → Action Atom}
    (hc : ∀ {t f args} (name doc : String), d.Over t (Atom.function f).values →
      d.Over t (Node.valuesAll args) →
      d.Gives t (call f args name doc))
    {node : Node} (hn : d.Over t node.values) :
    d.Gives t (evalWith call node) := by
  refine keeps_unlessExiting (keeps_pure (over_single trivial)) ?_
  cases node with
  | literal value span => exact keeps_pure hn
  | var name span => exact keeps_lookup name span
  | call name args doc span =>
    refine Keeps.traced span ((keeps_lookupFunction name).bind fun t' f ht hf => ?_)
    exact hc name doc hf (hn.mono ht)

/-- Where every value may be counted, all engines follow the discipline. -/
theorem Discipline.follows_engine {Stage : Type} [Preorder Stage] {d : Discipline Stage}
    (all : ∀ a, d.countable a) (steps depth : Nat) : d.Follows (engine steps depth) := by
  have counted {t : Stage} {x : Action Atom} (hx : d.Gives t x) :
      d.Keeps t x fun t' a => d.Over t' a.values ∧ d.countable a :=
    hx.weaken fun _ a _ ha => ⟨ha, all a⟩
  induction depth with
  | zero =>
    exact ⟨fun hn => counted (keeps_evalWith (fun _ _ _ _ => keeps_stop _) hn),
      fun _ _ _ _ => keeps_stop _⟩
  | succ depth ih => exact ⟨fun hn => counted (keeps_evalWith (ih.apply steps) hn), ih.apply steps⟩

/-- If a discipline lets every fresh machine start, it admits every machine that a host can have. -/
theorem Machine.Reachable.exists_admits {Stage : Type} [Preorder Stage] {d : Discipline Stage}
    (all : ∀ a, d.countable a)
    (fresh : ∀ w : World, w.nextTypeId = Atom.firstTypeId → ∃ t, d.world t w)
    {m : Machine} (h : m.Reachable) : ∃ t, d.Admits t m := by
  have follows (limits : Limits) : d.Follows limits.engine :=
    Discipline.follows_engine all limits.steps limits.depth
  refine preserved (P := fun m => ∃ t, d.Admits t m) ?start ?run ?importModule ?enterFile
    ?meanwhile h
  case start =>
    intro world directory sourceName usePrelude first
    obtain ⟨t, hw⟩ := fresh world first
    exact ⟨t, Discipline.admits_start hw directory sourceName usePrelude⟩
  case run =>
    rintro limits source m ⟨t, hm⟩
    obtain ⟨-, t', -, hm', -⟩ := (follows limits).runText source m hm
    exact ⟨t', hm'⟩
  case importModule =>
    rintro limits name embeddedOnly m ⟨t, hm⟩
    obtain ⟨-, t', -, hm', -⟩ := (follows limits).importModule name embeddedOnly m hm
    exact ⟨t', hm'⟩
  case enterFile =>
    rintro m path ⟨t, hm⟩
    exact ⟨t, hm.world, hm.values⟩
  case meanwhile =>
    rintro m files stdin stdout stderr ⟨t, hm⟩
    exact ⟨t, d.world_congr (w := m.world) rfl rfl hm.world, hm.values⟩

end CallLang
