import CallLang.Action
import CallLang.Atom.Copy

/-!
# Functions that programs define

A definition turns parameter names and a body into a function. A call evaluates the arguments in the
scopes of the caller, from left to right and before any parameter is bound; a lazy parameter gets
its argument unevaluated, as a function that evaluates it in the scopes of the caller each time it
is called. The body runs in a scope of its own.
-/

namespace CallLang.Closure

open CallLang.Action

/-- The parameter that an expression in a definition stands for. -/
def paramOf (node : Node) : Except Fault Param :=
  match node.name? with
  | some name =>
    match Param.parse name with
    | .ok param => .ok param
    | .error cause => .error (.at? cause node.span)
  | none => .error (.at? (.nameNeeded .parameter) node.span)

/-- The parameters that expressions in a definition stand for. -/
def paramsOf : List Node → Except Fault (List Param)
  | [] => .ok []
  | node :: nodes => do
    let param ← paramOf node
    let params ← paramsOf nodes
    .ok (param :: params)

/-- The parameters of a definition, checked. -/
def checkedParams (nodes : List Node) : Except Fault (List Param) := do
  let params ← paramsOf nodes
  match Param.check params with
  | .ok () => .ok params
  | .error cause => .error ⟨cause, []⟩

/-- Makes a function from its documentation, the expressions for its parameters and its body. The
function has a copy of the body for its own. -/
def define (doc : String) (params : List Node) (body : Node) : Action Callable := do
  let params ← ofOutcome (checkedParams params)
  let stamp ← freshStamp
  return .closure [stamp] doc params (body.copied stamp)

/-- What a parameter is bound to for an argument of a caller that has `depth` scopes. -/
def pass (e : Engine) (depth : Nat) (isLazy : Bool) (argument : Node) : Action Atom := do
  if isLazy then return .function (.thunk [← nextStamp] argument depth) else e.eval argument

/-- What a variadic parameter is bound to, element by element. -/
def passAll (e : Engine) (depth : Nat) (isLazy : Bool) : List Node → Action (List Atom)
  | [] => return []
  | argument :: arguments => do
    let value ← pass e depth isLazy argument
    let values ← passAll e depth isLazy arguments
    return value :: values

/-- What the parameters are bound to, in order. A variadic parameter takes all arguments that are
left. -/
def bind (e : Engine) (depth : Nat) : List Param → List Node → Action Bindings
  | [], _ => return []
  | param :: params, arguments =>
    if param.variadic then do
      let values ← passAll e depth param.isLazy arguments
      let rest ← bind e depth params []
      return (param.name, .list values) :: rest
    else
      match arguments with
      | [] => return []
      | argument :: arguments => do
        let value ← pass e depth param.isLazy argument
        let rest ← bind e depth params arguments
        return (param.name, value) :: rest

/-- Calls a function with the given parameters and body. -/
def call (e : Engine) (params : List Param) (body : Node) (arguments : List Node) :
    Action Atom := do
  if arguments.length < Param.required params then
    fail (.tooFewForVariadic (Param.required params) arguments.length)
  else
    let depth := (← machine).storage.depth
    let bindings ← bind e depth params arguments
    inScope bindings (e.eval body)

end CallLang.Closure
