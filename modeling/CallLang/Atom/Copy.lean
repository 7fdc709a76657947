import CallLang.Atom

/-!
# Copies of values

A function keeps a copy of the expression that it was defined with. Copying goes into lists, objects
and the bodies of functions. A copied function does what the function does, but is not the same one:
its stamp has a further number, the number of the copy. What an unevaluated argument refers to and
the defaults of a type are shared by the function and its copies.
-/

namespace CallLang

mutual

/-- The copy of a value with number `n`. -/
def Atom.copied (n : Nat) : Atom → Atom
  | .list xs => .list (Atom.copiedAll n xs)
  | .object typeId fields => .object typeId (Atom.copiedFields n fields)
  | .function f => .function (f.copied n)
  | a => a

/-- The copies of several values. -/
def Atom.copiedAll (n : Nat) : List Atom → List Atom
  | [] => []
  | x :: xs => x.copied n :: Atom.copiedAll n xs

/-- Fields with copies of their values. -/
def Atom.copiedFields (n : Nat) : List (String × Atom) → List (String × Atom)
  | [] => []
  | (name, value) :: fields => (name, value.copied n) :: Atom.copiedFields n fields

/-- The copy of a function with number `n`. -/
def Callable.copied (n : Nat) : Callable → Callable
  | .builtin stamp b => .builtin (n :: stamp) b
  | .closure stamp doc params body => .closure (n :: stamp) doc params (body.copied n)
  | .thunk stamp argument depth => .thunk (n :: stamp) argument depth
  | .constructor stamp doc required defaults typeId =>
    .constructor (n :: stamp) doc required defaults typeId

/-- The copy of an expression with number `n`. -/
def Node.copied (n : Nat) : Node → Node
  | .literal value span => .literal (value.copied n) span
  | .var name span => .var name span
  | .call name args doc span => .call name (Node.copiedAll n args) doc span

/-- The copies of several expressions. -/
def Node.copiedAll (n : Nat) : List Node → List Node
  | [] => []
  | x :: xs => x.copied n :: Node.copiedAll n xs

end

end CallLang
