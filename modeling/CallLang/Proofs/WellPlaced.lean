import CallLang.Proofs.Reachable
import CallLang.Proofs.Values
import Mathlib.Data.List.Chain

/-!
# Places that exist

Expressions know where they are written, and so do functions, bindings, stored outcomes and the
backtraces of faults. `WellPlaced` says of any of these that all places in it exist: a span that has
a source lies in the text of that source. A backtrace must not name a place twice in a row, either.

Copies, steps of a machine and frames that are added to a fault keep things well placed.
-/

namespace CallLang

/-- Whether a span that has a source encloses a part of its text. -/
def Span.Exists (span : Span) : Prop :=
  ∀ source, span.source = some source → (extract source.text span).isSome

/-- Things that may know places, and whether these exist. -/
class Places (α : Type) where
  WellPlaced : α → Prop

export Places (WellPlaced)

instance : Places Span := ⟨Span.Exists⟩

instance {α : Type} [Places α] : Places (List α) := ⟨fun xs => ∀ x ∈ xs, WellPlaced x⟩
instance {α : Type} [Places α] : Places (Option α) := ⟨fun x => ∀ a ∈ x, WellPlaced a⟩
instance {α β : Type} [Places α] [Places β] : Places (α × β) :=
  ⟨fun x => WellPlaced x.1 ∧ WellPlaced x.2⟩
instance {ε α : Type} [Places ε] [Places α] : Places (Except ε α) where
  WellPlaced
    | .ok a => WellPlaced a
    | .error reason => WellPlaced reason

-- data without places
instance : Places Unit := ⟨fun _ => True⟩
instance : Places Bool := ⟨fun _ => True⟩
instance : Places Nat := ⟨fun _ => True⟩
instance : Places Int := ⟨fun _ => True⟩
instance : Places String := ⟨fun _ => True⟩
instance : Places Param := ⟨fun _ => True⟩

section

variable {α β : Type} [Places α] [Places β]

@[simp] theorem wellPlaced_nil : WellPlaced ([] : List α) := fun _ h => absurd h List.not_mem_nil

@[simp] theorem wellPlaced_cons {x : α} {xs : List α} :
    WellPlaced (x :: xs) ↔ WellPlaced x ∧ WellPlaced xs := List.forall_mem_cons

@[simp] theorem wellPlaced_append {xs ys : List α} :
    WellPlaced (xs ++ ys) ↔ WellPlaced xs ∧ WellPlaced ys := List.forall_mem_append

@[simp] theorem wellPlaced_reverse {xs : List α} : WellPlaced xs.reverse ↔ WellPlaced xs := by
  simp [WellPlaced]

theorem wellPlaced_of_subset {xs ys : List α} (h : WellPlaced ys) (hs : xs ⊆ ys) : WellPlaced xs :=
  fun x hx => h x (hs hx)

@[simp] theorem wellPlaced_none : WellPlaced (none : Option α) := fun _ h => nomatch h

@[simp] theorem wellPlaced_some {a : α} : WellPlaced (some a) ↔ WellPlaced a := by
  simp [WellPlaced]

@[simp] theorem wellPlaced_mk {a : α} {b : β} :
    WellPlaced (a, b) ↔ WellPlaced a ∧ WellPlaced b := Iff.rfl

@[simp] theorem wellPlaced_string (s : String) : WellPlaced s := trivial

end

/-! ### Values and expressions -/

mutual

def Atom.PlacesExist : Atom → Prop
  | .list xs => Atom.PlacesExistAll xs
  | .object _ fields => Atom.PlacesExistFields fields
  | .function f => f.PlacesExist
  | _ => True

def Atom.PlacesExistAll : List Atom → Prop
  | [] => True
  | x :: xs => x.PlacesExist ∧ Atom.PlacesExistAll xs

def Atom.PlacesExistFields : List (String × Atom) → Prop
  | [] => True
  | (_, value) :: fields => value.PlacesExist ∧ Atom.PlacesExistFields fields

def Callable.PlacesExist : Callable → Prop
  | .builtin _ _ => True
  | .closure _ _ _ body => body.PlacesExist
  | .thunk _ argument _ => argument.PlacesExist
  | .constructor _ _ _ defaults _ => Atom.PlacesExistFields defaults

def Node.PlacesExist : Node → Prop
  | .literal value span => value.PlacesExist ∧ WellPlaced span
  | .var _ span => WellPlaced span
  | .call _ args _ span => Node.PlacesExistAll args ∧ WellPlaced span

def Node.PlacesExistAll : List Node → Prop
  | [] => True
  | x :: xs => x.PlacesExist ∧ Node.PlacesExistAll xs

end

instance : Places Atom := ⟨Atom.PlacesExist⟩
instance : Places Callable := ⟨Callable.PlacesExist⟩
instance : Places Node := ⟨Node.PlacesExist⟩

@[simp] theorem wellPlaced_int (n : Int) : WellPlaced (Atom.int n) := trivial

@[simp] theorem wellPlaced_bool (b : Bool) : WellPlaced (Atom.bool b) := trivial

@[simp] theorem wellPlaced_null : WellPlaced Atom.null := trivial

@[simp] theorem wellPlaced_text (s : String) : WellPlaced (Atom.string s) := trivial

@[simp] theorem wellPlaced_list {xs : List Atom} : WellPlaced (Atom.list xs) ↔ WellPlaced xs := by
  show Atom.PlacesExistAll xs ↔ _
  induction xs with
  | nil => simp [Atom.PlacesExistAll]
  | cons x xs ih =>
    rw [wellPlaced_cons, ← ih]
    exact Iff.rfl

theorem placesExistFields_iff {fields : Bindings} :
    Atom.PlacesExistFields fields ↔ WellPlaced fields := by
  induction fields with
  | nil => simp [Atom.PlacesExistFields]
  | cons field fields ih =>
    rw [wellPlaced_cons, ← ih]
    exact and_congr_left' (true_and _).symm.to_iff

@[simp] theorem wellPlaced_object {typeId : Nat} {fields : Bindings} :
    WellPlaced (Atom.object typeId fields) ↔ WellPlaced fields := placesExistFields_iff

@[simp] theorem wellPlaced_function {f : Callable} :
    WellPlaced (Atom.function f) ↔ WellPlaced f := Iff.rfl

@[simp] theorem wellPlaced_builtin (stamp : Stamp) (b : Builtin) :
    WellPlaced (Callable.builtin stamp b) := trivial

@[simp] theorem wellPlaced_closure {stamp : Stamp} {doc : String} {params : List Param}
    {body : Node} : WellPlaced (Callable.closure stamp doc params body) ↔ WellPlaced body := Iff.rfl

@[simp] theorem wellPlaced_thunk {stamp : Stamp} {argument : Node} {depth : Nat} :
    WellPlaced (Callable.thunk stamp argument depth) ↔ WellPlaced argument := Iff.rfl

@[simp] theorem wellPlaced_constructor {stamp : Stamp} {doc : String} {required : List String}
    {defaults : Bindings} {typeId : Nat} :
    WellPlaced (Callable.constructor stamp doc required defaults typeId) ↔ WellPlaced defaults :=
  placesExistFields_iff

@[simp] theorem wellPlaced_literal {value : Atom} {span : Option Span} :
    WellPlaced (Node.literal value span) ↔ WellPlaced value ∧ WellPlaced span := Iff.rfl

@[simp] theorem wellPlaced_var {name : String} {span : Option Span} :
    WellPlaced (Node.var name span) ↔ WellPlaced span := Iff.rfl

@[simp] theorem wellPlaced_call {name : String} {args : List Node} {doc : String}
    {span : Option Span} :
    WellPlaced (Node.call name args doc span) ↔ WellPlaced args ∧ WellPlaced span := by
  refine and_congr_left' ?_
  induction args with
  | nil => simp [Node.PlacesExistAll]
  | cons node nodes ih =>
    rw [wellPlaced_cons, ← ih]
    exact Iff.rfl

theorem Node.wellPlaced_span {node : Node} (h : WellPlaced node) : WellPlaced node.span := by
  cases node with
  | literal value span => exact h.2
  | var name span => exact h
  | call name args doc span => exact h.2

/-- What a program can write down knows no place. -/
theorem Atom.Written.wellPlaced {a : Atom} (h : a.Written) : WellPlaced a := by
  cases a with
  | int | bool | null | string => simp
  | list | object | function => cases h

mutual

/-- A copy is written where the original is. -/
theorem Atom.wellPlaced_copied {n : Nat} (a : Atom) (h : WellPlaced a) :
    WellPlaced (a.copied n) := by
  match a with
  | .int _ | .bool _ | .null | .string _ => exact trivial
  | .list xs => exact Atom.wellPlaced_copiedAll xs h
  | .object _ fields => exact Atom.wellPlaced_copiedFields fields h
  | .function f => exact Callable.wellPlaced_copied f h

theorem Atom.wellPlaced_copiedAll {n : Nat} (xs : List Atom) (h : Atom.PlacesExistAll xs) :
    Atom.PlacesExistAll (Atom.copiedAll n xs) := by
  match xs with
  | [] => trivial
  | x :: xs => exact ⟨Atom.wellPlaced_copied x h.1, Atom.wellPlaced_copiedAll xs h.2⟩

theorem Atom.wellPlaced_copiedFields {n : Nat} (fields : List (String × Atom))
    (h : Atom.PlacesExistFields fields) :
    Atom.PlacesExistFields (Atom.copiedFields n fields) := by
  match fields with
  | [] => trivial
  | (_, value) :: fields =>
    exact ⟨Atom.wellPlaced_copied value h.1, Atom.wellPlaced_copiedFields fields h.2⟩

theorem Callable.wellPlaced_copied {n : Nat} (f : Callable) (h : WellPlaced f) :
    WellPlaced (f.copied n) := by
  match f with
  | .builtin _ _ => trivial
  | .closure _ _ _ body => exact Node.wellPlaced_copied body h
  -- unevaluated arguments and defaults are shared
  | .thunk _ _ _ | .constructor _ _ _ _ _ => exact h

theorem Node.wellPlaced_copied {n : Nat} (node : Node) (h : WellPlaced node) :
    WellPlaced (node.copied n) := by
  match node with
  | .literal value _ => exact ⟨Atom.wellPlaced_copied value h.1, h.2⟩
  | .var _ _ => exact h
  | .call _ args _ _ => exact ⟨Node.wellPlaced_copiedAll args h.1, h.2⟩

theorem Node.wellPlaced_copiedAll {n : Nat} (nodes : List Node) (h : Node.PlacesExistAll nodes) :
    Node.PlacesExistAll (Node.copiedAll n nodes) := by
  match nodes with
  | [] => trivial
  | node :: nodes => exact ⟨Node.wellPlaced_copied node h.1, Node.wellPlaced_copiedAll nodes h.2⟩

end

/-! ### Faults -/

instance : Places Fault :=
  ⟨fun fault => WellPlaced fault.backtrace ∧ fault.backtrace.IsChain (· ≠ ·)⟩

instance : Places Stop where
  WellPlaced
    | .fault f => WellPlaced f
    | .exhausted => True

namespace Fault

/-- A fault that names no place. -/
theorem wellPlaced_nowhere (cause : Cause) : WellPlaced (⟨cause, []⟩ : Fault) :=
  ⟨wellPlaced_nil, .nil⟩

theorem wellPlaced_at? (cause : Cause) {span : Option Span} (h : WellPlaced span) :
    WellPlaced (Fault.at? cause span) := by
  cases span with
  | none => exact wellPlaced_nowhere cause
  | some s => exact ⟨by simpa [at?] using h, .singleton s⟩

theorem wellPlaced_ofText (cause : Cause) {span : Span} (h : WellPlaced span) :
    WellPlaced (Fault.ofText cause span) := by
  rw [ofText]
  split
  · exact wellPlaced_nowhere cause
  · exact wellPlaced_at? cause (wellPlaced_some.mpr h)

/-- A frame is added unless it was added last, so no place comes twice in a row. -/
theorem wellPlaced_addFrame {fault : Fault} {span : Option Span} (h : WellPlaced fault)
    (hs : WellPlaced span) : WellPlaced (fault.addFrame span) := by
  cases span with
  | none => exact h
  | some s =>
    rw [addFrame]
    split
    · exact h
    · rename_i other
      refine ⟨wellPlaced_append.mpr ⟨h.1, by simpa using hs⟩, ?_⟩
      refine List.isChain_append.mpr ⟨h.2, .singleton s, ?_⟩
      rintro x hx y hy rfl
      obtain rfl : s = x := by simpa using hy
      exact other (.inr hx)

/-- The frame that was added last is the last one, unless the interpreter is at fault. -/
theorem getLast?_addFrame {fault : Fault} (h : ¬fault.isDefect) (s : Span) :
    (fault.addFrame (some s)).backtrace.getLast? = some s := by
  rw [addFrame]
  split
  · rename_i last
    exact last.resolve_left h
  · simp

end Fault

/-! ### Machines -/

/-- What a machine holds, and the outcome that `exit` has stored. -/
instance : Places Machine :=
  ⟨fun m => WellPlaced m.storage.all ∧ WellPlaced m.baseline ∧ WellPlaced m.exit⟩

instance : Places Step where
  WellPlaced
    | .exit outcome | .adopt _ outcome => WellPlaced outcome
    | .insert _ value => WellPlaced value
    | .merge _ bindings globals => WellPlaced bindings ∧ WellPlaced globals
    | .enter params => WellPlaced params
    | .restore scopes => WellPlaced scopes.flatten
    | _ => True

theorem wellPlaced_get? {bs : Bindings} {name : String} {a : Atom} (h : WellPlaced bs)
    (ha : bs.get? name = some a) : WellPlaced a :=
  (h _ (Bindings.mem_of_get? ha)).2

/-- Builtins are written nowhere. -/
theorem wellPlaced_builtins : WellPlaced builtinBindings := by
  intro b hb
  obtain ⟨entry, -, rfl⟩ := List.mem_map.mp hb
  simp

namespace Machine

variable {m : Machine}

theorem wellPlaced_start (world : World) (directory : Option Path) (sourceName : String)
    (usePrelude : Bool) : WellPlaced (Machine.start world directory sourceName usePrelude) := by
  refine ⟨fun b hb => wellPlaced_builtins b ?_, wellPlaced_builtins, wellPlaced_none⟩
  simpa [Storage.all, Machine.start] using hb

theorem wellPlaced_nested (h : WellPlaced m) (directory : Option Path) (sourceName : String)
    (embedded : Bool) (importStack : List String) :
    WellPlaced (m.nested directory sourceName embedded importStack) := by
  refine ⟨fun b hb => ?_, wellPlaced_builtins, wellPlaced_none⟩
  rcases Storage.mem_all.mp hb with hb | hb | hb
  · cases hb
  · exact wellPlaced_builtins b hb
  · exact h.1 b (Storage.mem_all.mpr (.inr (.inr hb)))

end Machine

/-- A step of a well placed machine brings in nothing but what the step has. -/
theorem Step.wellPlaced_apply {s : Step} {m : Machine} (hs : WellPlaced s) (hm : WellPlaced m) :
    WellPlaced (s.apply m) := by
  obtain ⟨bound, baseline, exit⟩ := hm
  cases s with
  | exit outcome | adopt origin outcome => exact ⟨bound, baseline, wellPlaced_some.mpr hs⟩
  | insert name value =>
    refine ⟨fun b hb => ?_, baseline, exit⟩
    rcases Storage.mem_all_insert hb with hb | rfl
    · exact bound b hb
    · exact ⟨trivial, hs⟩
  | declareGlobal name =>
    exact ⟨fun b hb => bound b (Storage.mem_all_declareGlobal hb), baseline, exit⟩
  | merge origin bindings globals =>
    refine ⟨fun b hb => ?_, baseline, exit⟩
    rcases Storage.mem_all_extend hb with hb | hb | hb
    · exact bound b hb
    · exact hs.1 b hb
    · exact hs.2 b hb
  | enter params =>
    refine ⟨fun b hb => ?_, baseline, exit⟩
    rcases Storage.mem_all_insertAll (s := m.storage.push) hb with hb | hb
    · exact bound b hb
    · exact hs b hb
  | leave =>
    exact ⟨fun b hb => bound b (Storage.mem_all_of_sublist (List.tail_sublist _) hb), baseline,
      exit⟩
  | hide depth =>
    exact ⟨fun b hb => bound b (Storage.mem_all_of_sublist (List.drop_sublist _ _) hb), baseline,
      exit⟩
  | restore scopes =>
    refine ⟨fun b hb => ?_, baseline, exit⟩
    rcases Storage.mem_all_restore hb with hb | hb
    · exact bound b hb
    · exact hs b hb
  | markBaseline =>
    exact ⟨bound, fun b hb => bound b (Storage.mem_all.mpr (.inr (.inl hb))), exit⟩
  | takeTypeId | takeStamp | readClock | write | writeError | readLine | beginPrelude | nested =>
    exact ⟨bound, baseline, exit⟩

end CallLang
