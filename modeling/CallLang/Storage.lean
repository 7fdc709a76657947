import CallLang.Bindings

/-!
# Storage

The bindings of a running program: a stack of scopes and the globals. A call opens a scope and
closes it when it returns. Reading looks at the globals first and then at the scopes from the
innermost outwards; writing goes to the globals for a name that is declared global and to the
innermost scope otherwise, so that a call does not touch the bindings of its caller.

There is always an outermost scope: it is a field of its own.
-/

namespace CallLang

/-- The scopes and globals of a running program. -/
@[ext]
structure Storage where
  /-- The scope of the top level. -/
  outermost : Bindings := []
  /-- The scopes of open calls, innermost first. -/
  inner : List Bindings := []
  /-- The values of globals. A declared name has none until it is assigned. -/
  globals : Bindings := []
  /-- The names that are declared global. -/
  globalNames : List String := []

namespace Storage

/-- All scopes, innermost first. -/
def scopes (s : Storage) : List Bindings := s.inner ++ [s.outermost]

/-- The number of scopes. -/
def depth (s : Storage) : Nat := s.inner.length + 1

/-- The value of a name in the innermost of `scopes` that binds it. -/
def lookup (name : String) : List Bindings → Option Atom
  | [] => none
  | scope :: scopes =>
    match scope.get? name with
    | some value => some value
    | none => lookup name scopes

/-- The value of a name that is declared global and assigned. -/
def getGlobal? (s : Storage) (name : String) : Option Atom :=
  if name ∈ s.globalNames then s.globals.get? name else none

/-- The value of a name. -/
def get? (s : Storage) (name : String) : Option Atom :=
  match s.getGlobal? name with
  | some value => some value
  | none => lookup name s.scopes

/-- The function that a name is bound to. -/
def getFunction (s : Storage) (name : String) : Except Cause Callable :=
  match s.get? name with
  | some (.function f) => .ok f
  | some _ => .error (.notFunction name)
  | none => .error (.noFunction name)

/-- Binds a name in the innermost scope. -/
def insertLocal (s : Storage) (name : String) (value : Atom) : Storage :=
  match s.inner with
  | scope :: scopes => { s with inner := scope.set name value :: scopes }
  | [] => { s with outermost := s.outermost.set name value }

/-- Binds a name: a declared global among the globals, any other name in the innermost scope. -/
def insert (s : Storage) (name : String) (value : Atom) : Storage :=
  if name ∈ s.globalNames then { s with globals := s.globals.set name value }
  else s.insertLocal name value

/-- Takes the innermost binding of a name out of `scopes`. -/
def takeOut (name : String) : List Bindings → Option (Atom × List Bindings)
  | [] => none
  | scope :: scopes =>
    match scope.get? name with
    | some value => some (value, scope.erase name :: scopes)
    | none => (takeOut name scopes).map fun found => (found.1, scope :: found.2)

/-- Declares a name global. A local value that it has becomes its global value. -/
def declareGlobal (s : Storage) (name : String) : Storage :=
  if name ∈ s.globalNames then s
  else
    let names := s.globalNames ++ [name]
    match takeOut name s.inner with
    | some (value, inner) =>
      { s with inner := inner, globals := s.globals.set name value, globalNames := names }
    | none =>
      match s.outermost.get? name with
      | some value =>
        { s with
          outermost := s.outermost.erase name
          globals := s.globals.set name value
          globalNames := names }
      | none => { s with globalNames := names }

/-- Declares a name global and assigns it. -/
def addGlobal (s : Storage) (name : String) (value : Atom) : Storage :=
  { s with
    globals := s.globals.set name value
    globalNames := if name ∈ s.globalNames then s.globalNames else s.globalNames ++ [name] }

/-- Opens a scope. -/
def push (s : Storage) : Storage := { s with inner := [] :: s.inner }

/-- Closes the innermost scope that is not the outermost one. -/
def pop (s : Storage) : Storage := { s with inner := s.inner.tail }

/-- Closes the innermost scope, unless it is the outermost one. -/
def pop? (s : Storage) : Option Storage :=
  match s.inner with
  | [] => none
  | _ :: scopes => some { s with inner := scopes }

/-- The number of inner scopes that are above the `depth` lowest scopes. -/
def above (s : Storage) (depth : Nat) : Nat := s.inner.length - (depth - 1)

/-- The scopes above the `depth` lowest ones. The outermost scope is never among them. -/
def hidden (s : Storage) (depth : Nat) : List Bindings := s.inner.take (s.above depth)

/-- Only the `depth` lowest scopes. -/
def truncate (s : Storage) (depth : Nat) : Storage :=
  { s with inner := s.inner.drop (s.above depth) }

/-- Puts scopes back on top. -/
def restore (s : Storage) (scopes : List Bindings) : Storage :=
  { s with inner := scopes ++ s.inner }

/-- Whether the value of a binding is not the one and same in `baseline`. Where values do not show
it, `identical` tells it of the name. -/
def isNew (identical : String → Bool) (baseline : Bindings) (binding : String × Atom) : Bool :=
  match baseline.get? binding.1 with
  | some value => !value.isOne (identical binding.1) binding.2
  | none => true

/-- The bindings of the outermost scope that are new against `baseline`. -/
def exported (s : Storage) (identical : String → Bool) (baseline : Bindings) : Bindings :=
  s.outermost.filter (isNew identical baseline)

/-- Binds names one after the other. -/
def insertAll (s : Storage) (bindings : Bindings) : Storage :=
  bindings.foldl (fun s b => s.insert b.1 b.2) s

/-- Binds names in the current scope and assigns globals. -/
def extend (s : Storage) (bindings globals : Bindings) : Storage :=
  globals.foldl (fun s b => s.addGlobal b.1 b.2) (s.insertAll bindings)

/-- A storage is well formed if every global that has a value is declared. -/
def WellFormed (s : Storage) : Prop :=
  ∀ name ∈ s.globals.names, name ∈ s.globalNames

@[simp]
theorem depth_push (s : Storage) : s.push.depth = s.depth + 1 := rfl

@[simp]
theorem pop_push (s : Storage) : s.push.pop = s := rfl

/-- Hidden scopes come back where they were. -/
@[simp]
theorem restore_truncate (s : Storage) (depth : Nat) :
    (s.truncate depth).restore (s.hidden depth) = s := by
  simp [truncate, restore, hidden]

end Storage

end CallLang
