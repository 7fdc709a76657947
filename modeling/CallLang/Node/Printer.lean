import CallLang.Atom.Display

/-!
# Writing expressions

`Node.render` writes an expression as program text: every call with its arguments between
parentheses, separated by commas.
-/

namespace CallLang.Node

mutual

/-- The program text of an expression. -/
def render : Node → String
  | literal value _ => value.literal
  | var name _ => name
  | call name args _ _ => name ++ "(" ++ ", ".intercalate (renderAll args) ++ ")"

/-- The program texts of several expressions. -/
def renderAll : List Node → List String
  | [] => []
  | node :: nodes => render node :: renderAll nodes

end

end CallLang.Node
