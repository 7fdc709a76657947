import CallLang.Closure

/-!
# Objects

An object maps the field names of its type to values. A type has required fields, which its
constructor takes as arguments, and fields with defaults. A method is a field that holds a function;
it is called with the object as its first argument.
-/

namespace CallLang.Builtin.Object

open CallLang.Action

/-- The fields of a type: the names of the required ones, and the others with their defaults. -/
structure Fields where
  required : List String := []
  defaults : Bindings := []

/-- The names of all fields. -/
def Fields.names (fields : Fields) : List String := fields.required ++ fields.defaults.names

/-- Adds a field, unless its name is taken. -/
def Fields.addRequired (fields : Fields) (name : String) (span : Option Span) : Action Fields :=
  if name ∈ fields.names then failAt (.duplicateField name) span
  else pure { fields with required := fields.required ++ [name] }

/-- Adds a field with a default, unless its name is taken. -/
def Fields.addDefault (fields : Fields) (name : String) (value : Atom) (span : Option Span) :
    Action Fields :=
  if name ∈ fields.names then failAt (.duplicateField name) span
  else pure { fields with defaults := fields.defaults ++ [(name, value)] }

/-- Adds the field that an expression in a type definition stands for: a name, or an assignment of a
default to a name. -/
def field (e : Engine) (fields : Fields) : Node → Action Fields
  | .var name span => fields.addRequired name span
  | .call "=" [.var name _, value] _ span => do
    let value ← e.eval value
    fields.addDefault name value span
  | .call "=" _ _ span => failAt .defaultMalformed span
  | .call _ _ _ span => failAt .defaultNotAssigned span
  | .literal _ span => failAt .fieldMalformed span

/-- The fields that the expressions in a type definition stand for. -/
def fieldsOf (e : Engine) (fields : Fields) : List Node → Action Fields
  | [] => return fields
  | node :: nodes => do
    let fields ← field e fields node
    fieldsOf e fields nodes

/-- Defines a type: its name is bound to the constructor. -/
def newType (e : Engine) (doc : String) : List Node → Action Atom
  | [] => fail .typeNameMissing
  | node :: nodes => do
    let name ← nameOf node .typeName
    let fields ← fieldsOf e {} nodes
    if ← exiting then
      return .null
    else
      let typeId ← freshTypeId
      insert name (.function (.constructor [typeId] doc fields.required fields.defaults typeId))
      return .null

/-- Makes an object of a type from one argument per required field. -/
def construct (e : Engine) (required : List String) (defaults : Bindings) (typeId : Nat)
    (arguments : List Node) : Action Atom := do
  let values ← evalAll e arguments
  return .object typeId (required.zip values ++ defaults)

/-- The value of a field. -/
def getField (e : Engine) (object field : Node) : Action Atom := do
  let (_, fields) ← evalObject e object
  let name ← nameOf field .fieldRead
  match fields.get? name with
  | some value => return value
  | none => fail (.noField name)

/-- An object with another value in a field. -/
def setField (e : Engine) (object field value : Node) : Action Atom := do
  let (typeId, fields) ← evalObject e object
  let name ← nameOf field .fieldWrite
  match fields.get? name with
  | some _ => return .object typeId (fields.set name (← e.eval value))
  | none => fail (.noField name)

/-- Calls a method of an object. -/
def callMethod (e : Engine) : List Node → Action Atom
  | object :: method :: arguments => do
    let (typeId, fields) ← evalObject e object
    let name ← nameOf method .method
    match fields.get? name with
    | some (.function f) =>
      e.call f (.literal (.object typeId fields) object.span :: arguments) ("<object>." ++ name) ""
    | some value => fail (.wrongVariant value.display [.function])
    | none => fail (.noMethod name)
  | _ => fail .methodCallTooShort

end CallLang.Builtin.Object
