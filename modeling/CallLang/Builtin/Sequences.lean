import CallLang.Closure

/-!
# Lists and strings

Builtins on sequences. A string is a sequence of characters, each of them a string of its own; every
builtin gives a new sequence and leaves its argument as it is.
-/

namespace CallLang

/-- A list or a string. -/
inductive Sequence where
  | text (chars : List Char)
  | items (elements : List Atom)

namespace Sequence

/-- The sequence that a value is. -/
def ofAtom? : Atom → Option Sequence
  | .string s => some (text s.toList)
  | .list xs => some (items xs)
  | _ => none

/-- The number of elements. -/
def length : Sequence → Nat
  | text cs => cs.length
  | items xs => xs.length

/-- The elements as values. -/
def elements : Sequence → List Atom
  | text cs => cs.map fun c => .string (String.ofList [c])
  | items xs => xs

/-- The value that a sequence is. -/
def toAtom : Sequence → Atom
  | text cs => .string (String.ofList cs)
  | items xs => .list xs

/-- The sequence without the element at an index. -/
def removeAt (index : Nat) : Sequence → Sequence
  | text cs => text (cs.eraseIdx index)
  | items xs => items (xs.eraseIdx index)

end Sequence

namespace Builtin.Sequences

open CallLang.Action

/-- The value of an expression that must be a sequence. -/
def evalSequence (e : Engine) (node : Node) : Action Sequence := do
  let value ← e.eval node
  match Sequence.ofAtom? value with
  | some seq => return seq
  | none => fail (.wrongVariant value.display [.string, .list])

/-- The value of an expression that must be an index, which is never negative. -/
def evalIndex (e : Engine) (node : Node) : Action Nat := do
  let index ← evalInt e node
  if index < 0 then fail (.negativeIndex index) else return index.toNat

/-- Refuses an index past the end of a sequence. -/
def checkBounds (seq : Sequence) (index : Nat) : Action Unit :=
  if index < seq.length then pure () else fail .indexOutOfBounds

/-- The number of elements. -/
def length (e : Engine) (sequence : Node) : Action Atom := do
  let seq ← evalSequence e sequence
  return .int seq.length

/-- The element at an index. -/
def index (e : Engine) (sequence position : Node) : Action Atom := do
  let seq ← evalSequence e sequence
  let index ← evalIndex e position
  match seq.elements[index]? with
  | some element => return element
  | none => fail .indexOutOfBounds

/-- A list with one more element, or a string followed by another one. -/
def append (e : Engine) (sequence element : Node) : Action Atom := do
  match ← evalSequence e sequence with
  | .text cs => return .string (String.ofList cs ++ (← evalString e element))
  | .items xs => return .list (xs ++ [← e.eval element])

/-- A sequence with another element at an index. -/
def replaceAt (e : Engine) (sequence position element : Node) : Action Atom := do
  let seq ← evalSequence e sequence
  let index ← evalIndex e position
  checkBounds seq index
  match seq with
  | .text cs =>
    match (← evalString e element).toList with
    | [c] => return .string (String.ofList (cs.set index c))
    | _ => fail .notSingleCharacter
  | .items xs => return .list (xs.set index (← e.eval element))

/-- A sequence without the element at an index. -/
def removeAt (e : Engine) (sequence position : Node) : Action Atom := do
  let seq ← evalSequence e sequence
  let index ← evalIndex e position
  checkBounds seq index
  return (seq.removeAt index).toAtom

/-- Evaluates `body` once per element, with the element bound to `name`. -/
def iterate (e : Engine) (name : String) (body : Node) : List Atom → Action Unit
  | [] => return ()
  | element :: elements => do
    if ← exiting then
      return ()
    else
      insert name element
      let _ ← e.eval body
      iterate e name body elements

/-- A loop over a sequence. -/
def forEach (e : Engine) (sequence loopName body : Node) : Action Atom := do
  let seq ← evalSequence e sequence
  let name ← nameOf loopName .loopVariable
  iterate e name body seq.elements
  return .null

/-- The texts of expressions that must be strings, one after the other. -/
def concatAll (e : Engine) : List Node → Action String
  | [] => return ""
  | node :: nodes => do
    let s ← evalString e node
    let rest ← concatAll e nodes
    return s ++ rest

end Builtin.Sequences

end CallLang
