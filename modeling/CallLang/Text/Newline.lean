/-!
# Line ends of files

Files may end their lines with a carriage return, with a newline or with both. Program text knows
only newlines, so a file is brought to that form when it is read.
-/

namespace CallLang

/-- Every line end becomes a single newline. -/
def unifyNewlines : List Char → List Char
  | '\r' :: '\n' :: cs => '\n' :: unifyNewlines cs
  | '\r' :: cs => '\n' :: unifyNewlines cs
  | c :: cs => c :: unifyNewlines cs
  | [] => []

/-- The text of a file with its line ends unified. -/
def readText (content : String) : String :=
  String.ofList (unifyNewlines content.toList)

end CallLang
