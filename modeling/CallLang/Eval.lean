import CallLang.Builtin.Arithmetic
import CallLang.Builtin.Control
import CallLang.Builtin.Convert
import CallLang.Builtin.Object
import CallLang.Builtin.Sequences
import CallLang.Builtin.Stream

/-!
# Evaluation

The value of an expression is the value that is written down, the value of the variable, or the
result of the call. A called function gets its arguments unevaluated: evaluating them is up to it.

Calls nest at most as deeply as the depth of the engine allows. `engine steps depth` evaluates with
`depth` nested calls and loops of `steps` rounds; each call is made with the engine of the next
lower depth, so evaluation is defined by recursion on the depth.
-/

namespace CallLang

open CallLang.Action CallLang.Builtin

/-- The function that a value is; `builtin` asks for it. -/
def evalCallable (e : Engine) (node : Node) (builtin : String) : Action Callable := do
  match ← e.eval node with
  | .function f => return f
  | _ => fail (.functionNeeded builtin)

/-- Calls a builtin without arguments. -/
def Nullary.call : Nullary → Action Atom
  | .input => do return .string (← readLine)
  | .now => Stream.now
  | .nowNanosPart => Stream.nowNanosPart

/-- Calls a builtin of one argument. -/
def Unary.call (e : Engine) (op : Unary) (a : Node) : Action Atom :=
  match op with
  | .not => do return .bool (!(← evalBool e a))
  | .toInt => do ofExcept (Convert.toInt (← e.eval a))
  | .toString => do ofExcept (Convert.toText (← e.eval a))
  | .toBool => do ofExcept (Convert.toBool (← e.eval a))
  | .printable => do return .string (← e.eval a).display
  | .length => Sequences.length e a
  | .docOf => do return .string (← evalCallable e a "doc").doc
  | .argcOf => do
    match (← evalCallable e a "argc").arity with
    | some n => return .int n
    | none => return .null
  | .typeIdOf => do return .int (← e.eval a).typeId
  | .assert => Control.assert e a
  | .recover => Control.recover e a
  | .exit => Control.exit e a
  | .eval => Control.eval e a
  | .global => Control.global a
  | .importModule => Control.importNamed e a
  | .write => Stream.writeValue e a
  | .printFault => Stream.printFault e a

/-- Calls a builtin of two arguments. -/
def Binary.call (e : Engine) (steps : Nat) (op : Binary) (a b : Node) : Action Atom :=
  match op with
  | .arith op => do
    let x ← evalInt e a
    let y ← evalInt e b
    return .int (← ofExcept (op.apply x y))
  | .compare op => do
    let x ← evalInt e a
    let y ← evalInt e b
    return .bool (op.holds x y)
  | .or => do
    if ← evalBool e a then return .bool true else return .bool (← evalBool e b)
  | .and => do
    if ← evalBool e a then return .bool (← evalBool e b) else return .bool false
  | .equals => do
    let x ← e.eval a
    let y ← e.eval b
    return .bool (x.equals y)
  | .assertEq => Control.assertEq e a b
  | .assign => Control.assign e a b
  | .when => Control.when e a b
  | .loop => do
    Control.loop e a b steps
    return .null
  | .raise => Control.raise e a b
  | .index => Sequences.index e a b
  | .append => Sequences.append e a b
  | .removeAt => Sequences.removeAt e a b
  | .getField => Object.getField e a b

/-- Calls a builtin of three arguments. -/
def Ternary.call (e : Engine) (op : Ternary) (a b c : Node) : Action Atom :=
  match op with
  | .choose => Control.choose e a b c
  | .replaceAt => Sequences.replaceAt e a b c
  | .forEach => Sequences.forEach e a b c
  | .setField => Object.setField e a b c

/-- Calls a builtin of any number of arguments; `doc` is what the comments before the call say. -/
def Variadic.call (e : Engine) (doc : String) (op : Variadic) (args : List Node) : Action Atom :=
  match op with
  | .sequence => Control.sequence e .null args
  | .define => Control.define doc args
  | .lambda => Control.lambda args
  | .list => do return .list (← evalAll e args)
  | .concat => do return .string (← Sequences.concatAll e args)
  | .print => Stream.print e args
  | .newType => Object.newType e doc args
  | .callMethod => Object.callMethod e args

/-- Calls a builtin. -/
def Builtin.call (e : Engine) (steps : Nat) (doc : String) : Builtin → List Node → Action Atom
  | .nullary op, [] => op.call
  | .unary op, [a] => op.call e a
  | .binary op, [a, b] => op.call e steps a b
  | .ternary op, [a, b, c] => op.call e a b c
  | .variadic op, args => op.call e doc args
  | b, args => fail (.arity (b.arity.getD 0) args.length "")

/-- Calls a function with unevaluated arguments. The number of arguments is checked before anything
is evaluated. -/
def applyWith (e : Engine) (steps : Nat) (f : Callable) (args : List Node) (name doc : String) :
    Action Atom := do
  ofExcept (Callable.checkArity f.arity args.length name)
  match f with
  | .builtin _ b => Builtin.call e steps doc b args
  | .closure _ _ params body => Closure.call e params body args
  | .thunk _ argument depth => truncated depth (e.eval argument)
  | .constructor _ _ required defaults typeId => Object.construct e required defaults typeId args

/-- The value of an expression, whose calls are made by `call`. Nothing is evaluated once the
program is ending. -/
def evalWith (call : Callable → List Node → String → String → Action Atom) (node : Node) :
    Action Atom := do
  if ← exiting then
    return .null
  else
    match node with
    | .literal value _ => return value
    | .var name span => lookup name span
    | .call name args doc span =>
      traced span do
        let f ← lookupFunction name
        call f args name doc

/-- The engine that nests at most `depth` calls and does at most `steps` rounds of a loop. -/
def engine (steps : Nat) : Nat → Engine
  | 0 =>
    let call := fun _ _ _ _ => stop .exhausted
    ⟨evalWith call, call⟩
  | depth + 1 =>
    let call := applyWith (engine steps depth) steps
    ⟨evalWith call, call⟩

end CallLang
