import CallLang.Text.Newline

/-!
# Files

The files that a program can see. A path is the list of names from the root; a path that is given as
text is followed name by name, and every name on the way but the last must be a directory. Nothing
is linked, so each file has one path.
-/

namespace CallLang

/-- The names that lead from the root to a file or directory. -/
abbrev Path := List String

/-- A path as text, from the root. -/
def Path.render (path : Path) : String :=
  "/" ++ "/".intercalate path

/-- A path without its last name. -/
def Path.parent (path : Path) : Path := path.dropLast

/-- What is in a file: a text, or nothing that can be read, for a reason that the system gives. -/
abbrev Files.Content := Except String String

/-- The files of a system and the directory that relative paths start from. -/
structure Files where
  workingDirectory : Path := []
  contents : List (Path × Files.Content) := []

namespace Files

/-- The content of the file at a path. -/
def content? (files : Files) (path : Path) : Option Content :=
  (files.contents.find? fun file => file.1 == path).map Prod.snd

/-- Whether a path leads to a directory: one that a file is in, or one that the working directory is
in. -/
def isDirectory (files : Files) (path : Path) : Bool :=
  path.isPrefixOf files.workingDirectory ||
    files.contents.any fun file => path.isPrefixOf file.1 && path != file.1

/-- Writes a file, in the place of one that has the same path. -/
def write (files : Files) (path : Path) (content : String) : Files :=
  { files with contents := (path, .ok content) :: files.contents.filter fun file => file.1 != path }

/-- One step of a path, by its text only. -/
def enter (path : Path) (name : String) : Path :=
  if name = "" || name = "." then path
  else if name = ".." then path.parent
  else path ++ [name]

/-- The names of a path that is given as text. -/
def namesOf (text : String) : List String := text.splitOn "/"

/-- Where a path that is given as text starts. -/
def startOf (files : Files) (text : String) : Path :=
  if text.startsWith "/" then [] else files.workingDirectory

/-- The path that a text names, whether anything is there or not. -/
def absolute (files : Files) (text : String) : Path :=
  (namesOf text).foldl enter (files.startOf text)

/-- Follows names through directories. -/
def follow (files : Files) : Path → List String → Option Path
  | path, [] => some path
  | path, name :: names =>
    if files.isDirectory path then follow files (enter path name) names else none

/-- The file that a path leads to and that can be read, with its path from the root and its text. -/
def open? (files : Files) (text : String) : Option (Path × String) :=
  match files.follow (files.startOf text) (namesOf text) with
  | some path =>
    match files.content? path with
    | some (.ok content) => some (path, readText content)
    | _ => none
  | none => none

end Files

end CallLang
