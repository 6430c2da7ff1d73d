import ReactiveDoc.Cli.Run

namespace ReactiveDoc.Cli

/-!
# The program

* `disk` — files on the disk.
* `main` — carry out the command line of the process.
-/

/-- Why the system did not read or write a file. -/
def ofSystemError : IO.Error → FileError
  | .noFileOrDirectory .. => .notFound
  | .inappropriateType _ 21 _ => .isADirectory
  | .inappropriateType _ 20 _ => .notADirectory
  | e => .other (toString e)

/-- The outcome of an access to a file. -/
def attempt {α : Type} (access : IO α) : IO (Except FileError α) := do
  match ← access.toBaseIO with
  | .ok a => pure (.ok a)
  | .error e => pure (.error (ofSystemError e))

/-- Files on the disk. -/
def disk : Files IO where
  read path := attempt (IO.FS.readFile path)
  write path text := attempt (IO.FS.writeFile path text)
  isFile path := return (← attempt (IO.FS.readFile path)).isOk
  isThere path := do
    match ← attempt (IO.FS.readFile path) with
    | .error .notFound | .error .notADirectory => pure false
    | _ => pure true
  directories := do
    let here : Folder := .ofFiles [] (← IO.currentDir).toString
    pure here.directories

end ReactiveDoc.Cli

/-- Carry out the command line of the process. -/
def main (words : List String) : IO UInt32 := do
  let output ← ReactiveDoc.Cli.run ReactiveDoc.Cli.disk words
  IO.print output.stdout
  IO.eprint output.stderr
  pure (UInt32.ofNat output.exit)
