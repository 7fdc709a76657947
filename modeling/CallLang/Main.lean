import CallLang.CommandLine
import Std.Time.DateTime.Timestamp

/-!
# The program

Collects what a command line can reach (the files beside the program file or in the working
directory, the input, the time), hands it to `CommandLine.execute`, and prints what comes back.
-/

namespace CallLang

/-- The names of a path that starts at the root. -/
def pathOf (text : String) : Path :=
  (Files.namesOf text).filter (· ≠ "")

/-- The regular files of a directory whose names end like those of modules. A directory that cannot
be read has none. -/
def modulesIn (directory : String) : IO (List (Path × Files.Content)) := do
  let found ← try
      let absolute ← IO.FS.realPath directory
      absolute.readDir
    catch _ => pure #[]
  let mut files := []
  for entry in found do
    let path := entry.path.toString
    if path.endsWith ".re" && !(← entry.path.isDir) then
      let content : Files.Content ← try
          pure (.ok (← IO.FS.readFile path))
        catch reason => pure (.error reason.toString)
      files := (pathOf path, content) :: files
  return files

/-- The directory of the file that a path leads to. -/
def directoryOf (path : String) : String :=
  match (Files.namesOf path).reverse with
  | _ :: rest => if rest.isEmpty then "." else "/".intercalate rest.reverse ++ "/"
  | [] => "."

/-- The files that a command line can reach. -/
def filesFor (args : List String) : IO Files := do
  let workingDirectory := pathOf (← IO.currentDir).toString
  match CommandLine.read args with
  | .run ⟨some path, _, _⟩ =>
    let beside ← modulesIn (directoryOf path)
    let start : Files := { workingDirectory := workingDirectory, contents := beside }
    try
      let content ← IO.FS.readFile path
      return start.write (start.absolute path) content
    catch _ => return start
  | _ =>
    return { workingDirectory := workingDirectory, contents := ← modulesIn "." }

/-- The world that the process is in. The clock advances by a nanosecond with every reading. -/
def currentWorld (args : List String) : IO World := do
  let input ← (← IO.getStdin).readToEnd
  let time := (← Std.Time.Timestamp.now).toNanosecondsSinceUnixEpoch.val.toNat
  return {
    files := ← filesFor args
    stdin := ⟨input.toList, false⟩
    clock := fun reading => time + reading }

end CallLang

open CallLang in
/-- Runs a program file, or the shell without one. -/
def main (args : List String) : IO UInt32 := do
  let result := CommandLine.execute .terminal .generous (← currentWorld args) args
  (← IO.getStdout).putStr result.world.stdout.written
  (← IO.getStderr).putStr result.world.stderr.written
  return (result.status.getD 0).toUInt32
