import CallLang.Action.Lemmas
import CallLang.Builtin.Object
import CallLang.Builtin.Sequences
import CallLang.Node.Printer

/-!
# Forgetting places

Expressions know where they are written, and so does everything that holds expressions: functions,
the bindings of a program, its stored outcome. `unplaced` forgets all of these places, and with them
the backtraces of faults and the name under which a machine shows its text.

Two things are equal up to places if they are equal without them. Every operation of the development
commutes with `unplaced`, so it cannot tell such things apart.
-/

namespace CallLang

/-- Things that may know places. -/
class Placed (α : Type) where
  unplaced : α → α

export Placed (unplaced)

/-! ### Values and expressions -/

mutual

def Atom.withoutPlaces : Atom → Atom
  | .list xs => .list (Atom.withoutPlacesAll xs)
  | .object typeId fields => .object typeId (Atom.withoutPlacesFields fields)
  | .function f => .function f.withoutPlaces
  | a => a

def Atom.withoutPlacesAll : List Atom → List Atom
  | [] => []
  | x :: xs => x.withoutPlaces :: Atom.withoutPlacesAll xs

def Atom.withoutPlacesFields : List (String × Atom) → List (String × Atom)
  | [] => []
  | (name, value) :: fields => (name, value.withoutPlaces) :: Atom.withoutPlacesFields fields

def Callable.withoutPlaces : Callable → Callable
  | .builtin stamp b => .builtin stamp b
  | .closure stamp doc params body => .closure stamp doc params body.withoutPlaces
  | .thunk stamp argument depth => .thunk stamp argument.withoutPlaces depth
  | .constructor stamp doc required defaults typeId =>
    .constructor stamp doc required (Atom.withoutPlacesFields defaults) typeId

def Node.withoutPlaces : Node → Node
  | .literal value _ => .literal value.withoutPlaces none
  | .var name _ => .var name none
  | .call name args doc _ => .call name (Node.withoutPlacesAll args) doc none

def Node.withoutPlacesAll : List Node → List Node
  | [] => []
  | x :: xs => x.withoutPlaces :: Node.withoutPlacesAll xs

end

instance : Placed Atom := ⟨Atom.withoutPlaces⟩
instance : Placed Callable := ⟨Callable.withoutPlaces⟩
instance : Placed Node := ⟨Node.withoutPlaces⟩

instance {α : Type} [Placed α] : Placed (List α) := ⟨List.map unplaced⟩
instance {α : Type} [Placed α] : Placed (Option α) := ⟨Option.map unplaced⟩
instance {α β : Type} [Placed α] [Placed β] : Placed (α × β) := ⟨Prod.map unplaced unplaced⟩

-- data without places
instance : Placed Unit := ⟨id⟩
instance : Placed Bool := ⟨id⟩
instance : Placed Nat := ⟨id⟩
instance : Placed Int := ⟨id⟩
instance : Placed String := ⟨id⟩
instance : Placed Param := ⟨id⟩

section

variable {α β : Type} [Placed α] [Placed β]

@[simp] theorem unplaced_nil : unplaced ([] : List α) = [] := rfl

@[simp] theorem unplaced_cons (x : α) (xs : List α) :
    unplaced (x :: xs) = unplaced x :: unplaced xs := rfl

@[simp] theorem unplaced_append (xs ys : List α) :
    unplaced (xs ++ ys) = unplaced xs ++ unplaced ys := List.map_append

@[simp] theorem unplaced_none : unplaced (none : Option α) = none := rfl

@[simp] theorem unplaced_some (a : α) : unplaced (some a) = some (unplaced a) := rfl

@[simp] theorem isSome_unplaced (x : Option α) : (unplaced x).isSome = x.isSome :=
  Option.isSome_map

@[simp] theorem unplaced_mk (a : α) (b : β) : unplaced (a, b) = (unplaced a, unplaced b) := rfl

@[simp] theorem unplaced_string (s : String) : unplaced s = s := rfl

end

@[simp] theorem unplaced_int (n : Int) : unplaced (Atom.int n) = .int n := rfl

@[simp] theorem unplaced_bool (b : Bool) : unplaced (Atom.bool b) = .bool b := rfl

@[simp] theorem unplaced_null : unplaced Atom.null = .null := rfl

@[simp] theorem unplaced_text (s : String) : unplaced (Atom.string s) = .string s := rfl

@[simp] theorem unplaced_list (xs : List Atom) : unplaced (Atom.list xs) = .list (unplaced xs) := by
  have all (xs : List Atom) : Atom.withoutPlacesAll xs = unplaced xs := by
    induction xs with
    | nil => rfl
    | cons x xs ih => rw [Atom.withoutPlacesAll, ih]; rfl
  show Atom.withoutPlaces _ = _
  rw [Atom.withoutPlaces, all]

theorem withoutPlacesFields_eq (fields : Bindings) :
    Atom.withoutPlacesFields fields = unplaced fields := by
  induction fields with
  | nil => rfl
  | cons field fields ih => rw [Atom.withoutPlacesFields, ih]; rfl

@[simp] theorem unplaced_object (typeId : Nat) (fields : Bindings) :
    unplaced (Atom.object typeId fields) = .object typeId (unplaced fields) := by
  show Atom.withoutPlaces _ = _
  rw [Atom.withoutPlaces, withoutPlacesFields_eq]

@[simp] theorem unplaced_function (f : Callable) :
    unplaced (Atom.function f) = .function (unplaced f) := rfl

@[simp] theorem unplaced_builtin (stamp : Stamp) (b : Builtin) :
    unplaced (Callable.builtin stamp b) = .builtin stamp b := rfl

@[simp] theorem unplaced_closure (stamp : Stamp) (doc : String) (params : List Param) (body : Node) :
    unplaced (Callable.closure stamp doc params body) =
      .closure stamp doc params (unplaced body) := rfl

@[simp] theorem unplaced_thunk (stamp : Stamp) (argument : Node) (depth : Nat) :
    unplaced (Callable.thunk stamp argument depth) = .thunk stamp (unplaced argument) depth := rfl

@[simp] theorem unplaced_constructor (stamp : Stamp) (doc : String) (required : List String)
    (defaults : Bindings) (typeId : Nat) :
    unplaced (Callable.constructor stamp doc required defaults typeId) =
      .constructor stamp doc required (unplaced defaults) typeId := by
  show Callable.withoutPlaces _ = _
  rw [Callable.withoutPlaces, withoutPlacesFields_eq]

@[simp] theorem unplaced_literal (value : Atom) (span : Option Span) :
    unplaced (Node.literal value span) = .literal (unplaced value) none := rfl

@[simp] theorem unplaced_var (name : String) (span : Option Span) :
    unplaced (Node.var name span) = .var name none := rfl

@[simp] theorem unplaced_call (name : String) (args : List Node) (doc : String)
    (span : Option Span) :
    unplaced (Node.call name args doc span) = .call name (unplaced args) doc none := by
  have all (nodes : List Node) : Node.withoutPlacesAll nodes = unplaced nodes := by
    induction nodes with
    | nil => rfl
    | cons node nodes ih => rw [Node.withoutPlacesAll, ih]; rfl
  show Node.withoutPlaces _ = _
  rw [Node.withoutPlaces, all]

/-! ### What is seen of values -/

@[simp] theorem variant_unplaced (a : Atom) : (unplaced a).variant = a.variant := by
  cases a <;> simp [Atom.variant]

@[simp] theorem typeId_unplaced (a : Atom) : (unplaced a).typeId = a.typeId := by
  cases a <;> simp [Atom.typeId]

@[simp] theorem arity_unplaced (f : Callable) : (unplaced f).arity = f.arity := by
  cases f <;> simp [Callable.arity]

@[simp] theorem doc_unplaced (f : Callable) : (unplaced f).doc = f.doc := by
  cases f <;> simp [Callable.doc]

@[simp] theorem name?_unplaced (node : Node) : (unplaced node).name? = node.name? := by
  cases node <;> simp [Node.name?]

mutual

theorem display_unplaced (a : Atom) : (unplaced a).display = a.display := by
  match a with
  | .int _ | .bool true | .bool false | .null | .string _ => simp [Atom.display]
  | .list xs => simp [Atom.display, displayAll_unplaced xs]
  | .object _ fields => simp [Atom.display, displayFields_unplaced fields]
  | .function f => simp [Atom.display, Callable.display]

theorem displayAll_unplaced (xs : List Atom) :
    Atom.displayAll (unplaced xs) = Atom.displayAll xs := by
  match xs with
  | [] => rfl
  | x :: xs => simp [Atom.displayAll, display_unplaced x, displayAll_unplaced xs]

theorem displayFields_unplaced (fields : Bindings) :
    Atom.displayFields (unplaced fields) = Atom.displayFields fields := by
  match fields with
  | [] => rfl
  | (name, value) :: fields =>
    simp [Atom.displayFields, display_unplaced value, displayFields_unplaced fields]

end

theorem literal_unplaced (a : Atom) : (unplaced a).literal = a.literal := by
  have display := display_unplaced a
  cases a <;> simp_all [Atom.literal]

mutual

theorem render_unplaced (node : Node) : (unplaced node).render = node.render := by
  match node with
  | .literal value _ => simp [Node.render, literal_unplaced]
  | .var name _ => simp [Node.render]
  | .call name args _ _ => simp [Node.render, renderAll_unplaced args]

theorem renderAll_unplaced (nodes : List Node) :
    Node.renderAll (unplaced nodes) = Node.renderAll nodes := by
  match nodes with
  | [] => rfl
  | node :: nodes => simp [Node.renderAll, render_unplaced node, renderAll_unplaced nodes]

end

theorem lookup_unplaced (fields : Bindings) (name : String) :
    List.lookup name (unplaced fields) = unplaced (List.lookup name fields) := by
  induction fields with
  | nil => rfl
  | cons field fields ih =>
    obtain ⟨n, v⟩ := field
    simp only [unplaced_cons, unplaced_mk, unplaced_string, List.lookup_cons, ih]
    split <;> rfl

theorem sameNames_unplaced (fields others : Bindings) :
    sameNames (unplaced fields) (unplaced others) = sameNames fields others := by
  have found (xs ys : Bindings) :
      (unplaced xs).all (fun x => (List.lookup x.1 (unplaced ys)).isSome) =
        xs.all fun x => (List.lookup x.1 ys).isSome := by
    show List.all (List.map unplaced xs) _ = _
    simp only [List.all_map, lookup_unplaced]
    congr 1
    funext x
    exact Option.isSome_map
  rw [sameNames, sameNames, found fields others, found others fields]

mutual

theorem equals_unplaced (a b : Atom) : (unplaced a).equals (unplaced b) = a.equals b := by
  match a with
  | .int _ | .bool _ | .null | .string _ | .function _ => cases b <;> simp [Atom.equals]
  | .list xs => cases b <;> simp [Atom.equals, equalsAll_unplaced xs]
  | .object _ fields =>
    cases b <;> simp [Atom.equals, sameNames_unplaced, equalsFields_unplaced fields]

theorem equalsAll_unplaced (xs ys : List Atom) :
    Atom.equalsAll (unplaced xs) (unplaced ys) = Atom.equalsAll xs ys := by
  match xs with
  | [] => cases ys <;> simp [Atom.equalsAll]
  | x :: xs => cases ys <;> simp [Atom.equalsAll, equals_unplaced x, equalsAll_unplaced xs]

theorem equalsFields_unplaced (fields others : Bindings) :
    Atom.equalsFields (unplaced fields) (unplaced others) = Atom.equalsFields fields others := by
  match fields with
  | [] => simp [Atom.equalsFields]
  | (name, value) :: fields =>
    simp only [unplaced_cons, unplaced_mk, unplaced_string, Atom.equalsFields, lookup_unplaced,
      equalsFields_unplaced fields]
    cases List.lookup name others with
    | none => rfl
    | some other => simp [equals_unplaced value]

end

mutual

theorem Callable.same_unplaced (f g : Callable) : (unplaced f).same (unplaced g) = f.same g := by
  match f with
  | .builtin .. | .closure .. | .constructor .. => cases g <;> simp [Callable.same]
  | .thunk _ argument _ => cases g <;> simp [Callable.same, Node.same_unplaced argument]

theorem Atom.same_unplaced (a b : Atom) : (unplaced a).same (unplaced b) = a.same b := by
  match a with
  | .int _ | .bool _ | .null | .string _ => cases b <;> simp [Atom.same]
  | .list xs => cases b <;> simp [Atom.same, sameAll_unplaced xs]
  | .object _ fields => cases b <;> simp [Atom.same, sameFields_unplaced fields]
  | .function f => cases b <;> simp [Atom.same, Callable.same_unplaced f]

theorem sameAll_unplaced (xs ys : List Atom) :
    Atom.sameAll (unplaced xs) (unplaced ys) = Atom.sameAll xs ys := by
  match xs with
  | [] => cases ys <;> simp [Atom.sameAll]
  | x :: xs => cases ys <;> simp [Atom.sameAll, Atom.same_unplaced x, sameAll_unplaced xs]

theorem sameFields_unplaced (fields others : Bindings) :
    Atom.sameFields (unplaced fields) (unplaced others) = Atom.sameFields fields others := by
  match fields with
  | [] => cases others <;> simp [Atom.sameFields]
  | (name, value) :: fields =>
    rcases others with _ | ⟨⟨other, value'⟩, others⟩
    · simp [Atom.sameFields]
    · simp [Atom.sameFields, Atom.same_unplaced value, sameFields_unplaced fields]

theorem Node.same_unplaced (x y : Node) : (unplaced x).same (unplaced y) = x.same y := by
  match x with
  | .literal value _ => cases y <;> simp [Node.same, Atom.same_unplaced value]
  | .var _ _ => cases y <;> simp [Node.same]
  | .call _ args _ _ => cases y <;> simp [Node.same, Node.sameAll_unplaced args]

theorem Node.sameAll_unplaced (xs ys : List Node) :
    Node.sameAll (unplaced xs) (unplaced ys) = Node.sameAll xs ys := by
  match xs with
  | [] => cases ys <;> simp [Node.sameAll]
  | x :: xs => cases ys <;> simp [Node.sameAll, Node.same_unplaced x, Node.sameAll_unplaced xs]

end

theorem Atom.showsIdentity_unplaced (a : Atom) :
    (unplaced a).showsIdentity = a.showsIdentity := by
  match a with
  | .int _ | .bool _ | .null | .string _ | .list _ | .object .. => simp [showsIdentity]
  | .function f => cases f <;> simp [showsIdentity]

theorem Atom.isOne_unplaced (identical : Bool) (a b : Atom) :
    (unplaced a).isOne identical (unplaced b) = a.isOne identical b := by
  rw [isOne, same_unplaced, showsIdentity_unplaced, isOne]

/-! ### Copies -/

mutual

theorem Atom.unplaced_copied (n : Nat) (a : Atom) :
    unplaced (a.copied n) = (unplaced a).copied n := by
  match a with
  | .int _ | .bool _ | .null | .string _ => simp [Atom.copied]
  | .list xs => simp [Atom.copied, unplaced_copiedAll n xs]
  | .object _ fields => simp [Atom.copied, unplaced_copiedFields n fields]
  | .function f => simp [Atom.copied, Callable.unplaced_copied n f]

theorem unplaced_copiedAll (n : Nat) (xs : List Atom) :
    unplaced (Atom.copiedAll n xs) = Atom.copiedAll n (unplaced xs) := by
  match xs with
  | [] => rfl
  | x :: xs => simp [Atom.copiedAll, Atom.unplaced_copied n x, unplaced_copiedAll n xs]

theorem unplaced_copiedFields (n : Nat) (fields : Bindings) :
    unplaced (Atom.copiedFields n fields) = Atom.copiedFields n (unplaced fields) := by
  match fields with
  | [] => rfl
  | (name, value) :: fields =>
    simp [Atom.copiedFields, Atom.unplaced_copied n value, unplaced_copiedFields n fields]

theorem Callable.unplaced_copied (n : Nat) (f : Callable) :
    unplaced (f.copied n) = (unplaced f).copied n := by
  match f with
  | .builtin .. | .thunk .. | .constructor .. => simp [Callable.copied]
  | .closure _ _ _ body => simp [Callable.copied, Node.unplaced_copied n body]

theorem Node.unplaced_copied (n : Nat) (node : Node) :
    unplaced (node.copied n) = (unplaced node).copied n := by
  match node with
  | .literal value _ => simp [Node.copied, Atom.unplaced_copied n value]
  | .var _ _ => simp [Node.copied]
  | .call _ args _ _ => simp [Node.copied, Node.unplaced_copiedAll n args]

theorem Node.unplaced_copiedAll (n : Nat) (nodes : List Node) :
    unplaced (Node.copiedAll n nodes) = Node.copiedAll n (unplaced nodes) := by
  match nodes with
  | [] => rfl
  | node :: nodes =>
    simp [Node.copiedAll, Node.unplaced_copied n node, Node.unplaced_copiedAll n nodes]

end

/-! ### Bindings and storages -/

theorem get?_unplaced (bs : Bindings) (name : String) :
    Bindings.get? (unplaced bs) name = unplaced (bs.get? name) := by
  induction bs with
  | nil => rfl
  | cons b bs ih =>
    obtain ⟨n, v⟩ := b
    simp only [unplaced_cons, unplaced_mk, unplaced_string, Bindings.get?, ih]
    split <;> rfl

@[simp] theorem unplaced_set (bs : Bindings) (name : String) (value : Atom) :
    unplaced (bs.set name value) = Bindings.set (unplaced bs) name (unplaced value) := by
  induction bs with
  | nil => rfl
  | cons b bs ih =>
    obtain ⟨n, v⟩ := b
    by_cases h : n = name <;> simp [Bindings.set, h, ih]

@[simp] theorem unplaced_erase (bs : Bindings) (name : String) :
    unplaced (bs.erase name) = Bindings.erase (unplaced bs) name := by
  simp only [unplaced, Bindings.erase, List.filter_map]
  rfl

@[simp] theorem names_unplaced (bs : Bindings) : Bindings.names (unplaced bs) = bs.names := by
  simp [unplaced, Bindings.names]

namespace Storage

instance : Placed Storage where
  unplaced s :=
    { outermost := unplaced s.outermost
      inner := unplaced s.inner
      globals := unplaced s.globals
      globalNames := s.globalNames }

variable (s : Storage)

@[simp] theorem outermost_unplaced : (unplaced s).outermost = unplaced s.outermost := rfl

@[simp] theorem inner_unplaced : (unplaced s).inner = unplaced s.inner := rfl

@[simp] theorem globals_unplaced : (unplaced s).globals = unplaced s.globals := rfl

@[simp] theorem globalNames_unplaced : (unplaced s).globalNames = s.globalNames := rfl

@[simp] theorem depth_unplaced : (unplaced s).depth = s.depth := by
  simp [depth, unplaced]

theorem lookup_unplaced (name : String) (scopes : List Bindings) :
    lookup name (unplaced scopes) = unplaced (lookup name scopes) := by
  induction scopes with
  | nil => rfl
  | cons scope scopes ih =>
    rw [unplaced_cons, lookup, lookup, get?_unplaced, ih]
    cases scope.get? name <;> rfl

theorem get?_unplaced (name : String) : (unplaced s).get? name = unplaced (s.get? name) := by
  have scopes : (unplaced s).scopes = unplaced s.scopes := by simp [Storage.scopes]
  have global : (unplaced s).getGlobal? name = unplaced (s.getGlobal? name) := by
    simp only [getGlobal?, globalNames_unplaced, globals_unplaced, CallLang.get?_unplaced]
    split <;> rfl
  rw [get?, get?, global, scopes, lookup_unplaced]
  cases s.getGlobal? name <;> rfl

@[simp] theorem unplaced_mk (outermost : Bindings) (inner : List Bindings) (globals : Bindings)
    (names : List String) :
    unplaced (Storage.mk outermost inner globals names) =
      ⟨unplaced outermost, unplaced inner, unplaced globals, names⟩ := rfl

theorem unplaced_insert (name : String) (value : Atom) :
    unplaced (s.insert name value) = (unplaced s).insert name (unplaced value) := by
  obtain ⟨outermost, inner, globals, names⟩ := s
  by_cases h : name ∈ names
  · simp [insert, h]
  · cases inner <;> simp [insert, insertLocal, h]

theorem unplaced_insertAll (bindings : Bindings) :
    unplaced (s.insertAll bindings) = (unplaced s).insertAll (unplaced bindings) := by
  induction bindings generalizing s with
  | nil => rfl
  | cons b bindings ih =>
    show unplaced ((s.insert b.1 b.2).insertAll bindings) = _
    rw [ih, unplaced_insert]
    rfl

theorem unplaced_addGlobal (name : String) (value : Atom) :
    unplaced (s.addGlobal name value) = (unplaced s).addGlobal name (unplaced value) := by
  obtain ⟨outermost, inner, globals, names⟩ := s
  simp [addGlobal]

theorem unplaced_extend (bindings globals : Bindings) :
    unplaced (s.extend bindings globals) =
      (unplaced s).extend (unplaced bindings) (unplaced globals) := by
  rw [extend, extend, ← unplaced_insertAll]
  generalize s.insertAll bindings = t
  induction globals generalizing t with
  | nil => rfl
  | cons b globals ih =>
    rw [List.foldl_cons, ih, unplaced_addGlobal]
    rfl

theorem unplaced_takeOut (name : String) (scopes : List Bindings) :
    unplaced (takeOut name scopes) = takeOut name (unplaced scopes) := by
  induction scopes with
  | nil => rfl
  | cons scope scopes ih =>
    rw [unplaced_cons, takeOut, takeOut, CallLang.get?_unplaced, ← ih]
    cases scope.get? name with
    | some value => simp
    | none => cases takeOut name scopes <;> rfl

theorem unplaced_declareGlobal (name : String) :
    unplaced (s.declareGlobal name) = (unplaced s).declareGlobal name := by
  obtain ⟨outermost, inner, globals, names⟩ := s
  by_cases h : name ∈ names
  · simp [declareGlobal, h]
  · have taken := unplaced_takeOut name inner
    have outer := CallLang.get?_unplaced outermost name
    simp only [declareGlobal, unplaced_mk, h, if_false, ← taken, outer]
    cases takeOut name inner with
    | some found =>
      obtain ⟨value, inner⟩ := found
      simp
    | none => cases outermost.get? name <;> simp

theorem unplaced_truncate (depth : Nat) :
    unplaced (s.truncate depth) = (unplaced s).truncate depth := by
  obtain ⟨outermost, inner, globals, names⟩ := s
  simp [truncate, above, unplaced, List.map_drop]

theorem unplaced_restore (scopes : List Bindings) :
    unplaced (s.restore scopes) = (unplaced s).restore (unplaced scopes) := by
  obtain ⟨outermost, inner, globals, names⟩ := s
  simp [restore]

theorem unplaced_pop : unplaced s.pop = (unplaced s).pop := by
  obtain ⟨outermost, inner, globals, names⟩ := s
  cases inner <;> rfl

theorem unplaced_hidden (depth : Nat) :
    unplaced (s.hidden depth) = (unplaced s).hidden depth := by
  simp [hidden, above, unplaced, List.map_take]

theorem isNew_unplaced (identical : String → Bool) (baseline : Bindings)
    (binding : String × Atom) :
    isNew identical (unplaced baseline) (unplaced binding) = isNew identical baseline binding := by
  obtain ⟨name, value⟩ := binding
  simp only [isNew, CallLang.unplaced_mk, unplaced_string, CallLang.get?_unplaced]
  cases baseline.get? name with
  | none => rfl
  | some other => exact congrArg not (Atom.isOne_unplaced (identical name) other value)

theorem unplaced_exported (identical : String → Bool) (baseline : Bindings) :
    unplaced (s.exported identical baseline) =
      (unplaced s).exported identical (unplaced baseline) := by
  have new : isNew identical (unplaced baseline) ∘ unplaced = isNew identical baseline :=
    funext (isNew_unplaced identical baseline)
  show List.map unplaced (List.filter _ _) = List.filter _ (List.map unplaced _)
  rw [List.filter_map, new]

end Storage

/-! ### Faults and machines -/

instance : Placed Fault := ⟨fun fault => ⟨fault.cause, []⟩⟩

instance {ε α : Type} [Placed ε] [Placed α] : Placed (Except ε α) where
  unplaced
    | .ok a => .ok (unplaced a)
    | .error e => .error (unplaced e)

@[simp] theorem unplaced_ok {ε α : Type} [Placed ε] [Placed α] (a : α) :
    unplaced (.ok a : Except ε α) = .ok (unplaced a) := rfl

@[simp] theorem unplaced_error {ε α : Type} [Placed ε] [Placed α] (e : ε) :
    unplaced (.error e : Except ε α) = .error (unplaced e) := rfl

instance : Placed Machine where
  unplaced m :=
    { m with
      storage := unplaced m.storage
      sourceName := ""
      exit := unplaced m.exit
      baseline := unplaced m.baseline }

theorem text_unplaced (fault : Fault) : (unplaced fault).text = fault.text := rfl

section

variable (m : Machine)

@[simp] theorem world_unplaced : (unplaced m).world = m.world := rfl

@[simp] theorem storage_unplaced : (unplaced m).storage = unplaced m.storage := rfl

@[simp] theorem exit_unplaced : (unplaced m).exit = unplaced m.exit := rfl

@[simp] theorem baseline_unplaced : (unplaced m).baseline = unplaced m.baseline := rfl

@[simp] theorem directory_unplaced : (unplaced m).directory = m.directory := rfl

@[simp] theorem importStack_unplaced : (unplaced m).importStack = m.importStack := rfl

@[simp] theorem usePrelude_unplaced : (unplaced m).usePrelude = m.usePrelude := rfl

@[simp] theorem preludeLoaded_unplaced : (unplaced m).preludeLoaded = m.preludeLoaded := rfl

end

/-- What a program makes visible does not depend on places, because its world has none. -/
theorem unplaced_exported (m : Machine) : unplaced m.exported = (unplaced m).exported :=
  Storage.unplaced_exported ..

/-- No builtin is written anywhere. -/
theorem unplaced_builtinBindings : unplaced builtinBindings = builtinBindings := by
  show List.map unplaced (List.map _ _) = List.map _ _
  rw [List.map_map]
  rfl

theorem unplaced_nested (m : Machine) (directory : Option Path) (name : String) (embedded : Bool)
    (importStack : List String) :
    unplaced (m.nested directory name embedded importStack) =
      (unplaced m).nested directory "" embedded importStack := by
  have storage : unplaced (Storage.mk builtinBindings [] m.storage.globals m.storage.globalNames) =
      ⟨builtinBindings, [], unplaced m.storage.globals, m.storage.globalNames⟩ := by
    rw [Storage.unplaced_mk, unplaced_builtinBindings]
    rfl
  show Machine.mk _ (unplaced (Storage.mk builtinBindings [] m.storage.globals
    m.storage.globalNames)) _ _ _ _ _ _ (unplaced builtinBindings) = _
  rw [storage, unplaced_builtinBindings]
  rfl

namespace Step

def withoutPlaces : Step → Step
  | exit outcome => exit (unplaced outcome)
  | adopt origin outcome => adopt origin (unplaced outcome)
  | insert name value => insert name (unplaced value)
  | merge origin bindings globals =>
    merge origin (unplaced bindings) (unplaced globals)
  | enter params => enter (unplaced params)
  | restore scopes => restore (unplaced scopes)
  | nested origin inner s => nested origin (unplaced inner) s.withoutPlaces
  | s => s

instance : Placed Step := ⟨withoutPlaces⟩

end Step

theorem unplaced_withStorage (m : Machine) {s t : Storage} (h : unplaced s = t) :
    unplaced { m with storage := s } = { unplaced m with storage := t } := by
  rw [← h]
  rfl

theorem unplaced_apply (s : Step) (m : Machine) :
    unplaced (s.apply m) = (unplaced s).apply (unplaced m) := by
  induction s generalizing m with
  | insert name value => exact unplaced_withStorage m (m.storage.unplaced_insert name value)
  | declareGlobal name => exact unplaced_withStorage m (m.storage.unplaced_declareGlobal name)
  | merge _ bindings globals =>
    exact unplaced_withStorage { m with world := m.world.countMerge }
      (m.storage.unplaced_extend bindings globals)
  | enter params => exact unplaced_withStorage m (m.storage.push.unplaced_insertAll params)
  | leave => exact unplaced_withStorage m m.storage.unplaced_pop
  | hide depth => exact unplaced_withStorage m (m.storage.unplaced_truncate depth)
  | restore scopes => exact unplaced_withStorage m (m.storage.unplaced_restore scopes)
  | nested _ inner s ih =>
    -- only the world of the inner machine matters, and it has no places
    show _ = { unplaced m with world := ((unplaced s).apply (unplaced inner)).world }
    rw [← ih inner]
    rfl
  | _ => rfl

/-! ### Sequences and fields -/

instance : Placed Sequence where
  unplaced
    | .text chars => .text chars
    | .items xs => .items (unplaced xs)

theorem length_unplaced (seq : Sequence) : (unplaced seq).length = seq.length := by
  cases seq with
  | text chars => rfl
  | items xs => exact List.length_map _

theorem unplaced_elements (seq : Sequence) :
    unplaced seq.elements = (unplaced seq).elements := by
  cases seq with
  | text chars =>
    show List.map unplaced (List.map _ _) = List.map _ _
    rw [List.map_map]
    rfl
  | items xs => rfl

theorem unplaced_removeAt (seq : Sequence) (index : Nat) :
    unplaced (seq.removeAt index).toAtom = ((unplaced seq).removeAt index).toAtom := by
  cases seq with
  | text chars => exact unplaced_text _
  | items xs =>
    show unplaced (Atom.list (xs.eraseIdx index)) = .list ((unplaced xs).eraseIdx index)
    rw [unplaced_list, List.eraseIdx_eq_take_drop_succ, List.eraseIdx_eq_take_drop_succ,
      unplaced_append]
    simp [unplaced, List.map_take, List.map_drop]

instance : Placed Builtin.Object.Fields where
  unplaced fields := ⟨fields.required, unplaced fields.defaults⟩

end CallLang
