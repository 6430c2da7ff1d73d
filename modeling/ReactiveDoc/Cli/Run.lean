import ReactiveDoc.Cli.Files
import ReactiveDoc.Cli.Help
import ReactiveDoc.Document.Running

namespace ReactiveDoc.Cli

/-!
# Carrying out commands

* `Output` — what a command prints, and its exit code.
* `check`, `evaluate`, `initialConfig` — the commands.
* `run` — carry out a command line.
-/

/-- What a command prints, and its exit code: `0` if all is well, `1` if documents have errors or
    there is no configuration, `2` if the command could not be carried out. -/
structure Output where
  stdout : String := ""
  stderr : String := ""
  exit : Nat := 0
  deriving DecidableEq, Repr

/-- The exit code of a command that came upon a fault. -/
def faultExit : Nat := 101

/-- A failed command with its reason. -/
def Output.failed (exit : Nat) (message : String) : Output :=
  { stderr := "Error: " ++ message ++ "\n", exit }

/-- Print some more before what is printed already. -/
def Output.after (o : Output) (stdout stderr : String) : Output :=
  { o with stdout := stdout ++ o.stdout, stderr := stderr ++ o.stderr }

/-- A command that may fail with a message. -/
abbrev CommandM (m : Type → Type) := ExceptT String m

section

variable {m : Type → Type} [Monad m] (files : Files m)

/-! ### Input -/

/-- The text of a file. -/
def readText (path : String) : CommandM m String := do
  match ← ExceptT.lift (files.read path) with
  | .ok text => pure text
  | .error e => throw ("failed to read " ++ path ++ ": " ++ e.message)

/-- The document in a file. -/
def readDocument (path : String) : CommandM m Document := do
  match Document.parse? (← readText files path) with
  | some d => pure d
  | none => throw ("invalid document " ++ path)

/-- The types of modules from an object with their paths; of a repeated path the last type
    counts. -/
def moduleTypes? (text : String) : Option Check.ModuleTypes := do
  let .object fields ← Json.parse? text | none
  let types ← fields.mapM fun (path, j) => (Ty.ofJson? .plain j).map fun ty => (path, ty)
  some (Keyed.ofEntries types)

/-- The types of modules in a file, if one is given. -/
def readModules (path? : Option String) : CommandM m Check.ModuleTypes := do
  match path? with
  | none => pure []
  | some path =>
      match moduleTypes? (← readText files path) with
      | some types => pure types
      | none => throw ("invalid module types " ++ path)

/-! ### Reports -/

/-- A line in red, if colors are on. -/
def errorLine (color : Bool) (line : String) : String :=
  if color then "\x1b[31m" ++ line ++ "\x1b[0m\n" else line ++ "\n"

/-- The errors of a document. -/
def errorReport (color : Bool) (path : String) (c : CheckedDocument) : String :=
  String.join (c.errors.map fun e => errorLine color (path ++ ":" ++ e.message)) ++
    (if c.dropped = 0 then ""
     else path ++ ": " ++ natText c.dropped ++ " more error(s) not shown\n")

/-- The number of errors of a document. -/
def errorCount (c : CheckedDocument) : Nat := c.errors.length + c.dropped

/-- What is told about checked documents. -/
def checkReport (color interfaces : Bool) (checked : List (String × CheckedDocument)) : Output :=
  let total := checked.foldl (fun n (_, c) => n + errorCount c) 0
  let documents := natText checked.length ++ " document(s)"
  let result : Output :=
    if total = 0 then { stdout := "Checked " ++ documents ++ ", no errors found\n" }
    else { stderr := "Found " ++ natText total ++ " error(s) in " ++ documents ++ "\n", exit := 1 }
  result.after
    (if interfaces then String.join (checked.map fun (_, c) => c.interfaces.report.pretty ++ "\n")
     else "")
    (String.join (checked.map fun (path, c) => errorReport color path c))

/-! ### Commands -/

/-- Check documents. -/
def check (config : Config) (color : Bool) (paths : List String) (modules? : Option String)
    (interfaces : Bool) : CommandM m Output := do
  if paths.isEmpty then throw "no documents specified"
  else
    let modules ← readModules files modules?
    let documents ← paths.mapM (readDocument files)
    let compiler : Compiler := { config := config.check, modules }
    match compiler.checkAll documents config.newCache? with
    | .ok (checked, _) => pure (checkReport color interfaces (paths.zip checked))
    | .error _ => pure { exit := faultExit }

/-- A host without functions that keeps no edits. -/
def bareHost : Eval.Host Unit where
  native name _ := Eval.throwInternal (.unboundName name)

/-- The values of a document as JSON, or why there are none. -/
def valuesOf (config : Config) (d : Document) (c : CheckedDocument) :
    Except Fault (Except EvalError (List Json)) := do
  let r := Eval.rules bareHost Signal.depthLimit
  let evaluation : Eval.EvalM Unit (List Json) := do
    let e ← c.evaluate r d config.eval {} []
    Eval.lift (e.values.mapM (Eval.valueJson r Signal.depthLimit))
  let (result, _) ← evaluation.run.run ⟨{}, 0, ()⟩
  pure result

/-- Check and evaluate a document. -/
def evaluate (config : Config) (color : Bool) (path : String) : CommandM m Output := do
  let d ← readDocument files path
  let compiler : Compiler := { config := config.check }
  match compiler.check d config.newCache? with
  | .error _ => pure { exit := faultExit }
  | .ok (checked, _) =>
      let report := errorReport color path checked
      match valuesOf config d checked with
      | .error _ => pure { stderr := report, exit := faultExit }
      | .ok (.error e) => pure ((Output.failed 2 e.message).after "" report)
      | .ok (.ok values) =>
          pure { stdout := (Json.array values).pretty ++ "\n", stderr := report
                 exit := if checked.hasErrors then 1 else 0 }

/-- Write the default configuration into the current directory. -/
def initialConfig : CommandM m Output := do
  let name := Config.fileName
  if ← ExceptT.lift (files.isThere name) then throw (name ++ " already exists")
  else
    match ← ExceptT.lift (files.write name ({} : Config).print) with
    | .ok () => pure { stdout := "Wrote " ++ name ++ "\n" }
    | .error e => throw (ConfigError.unreadable name e.message).message

/-! ### Command lines -/

/-- Carry out a command as configured. -/
def perform (config : Config) (i : Invocation) : CommandM m Output :=
  match i.command with
  | .check paths modules? interfaces => check files config i.color paths modules? interfaces
  | .eval path => evaluate files config i.color path
  | .init => initialConfig files

/-- Carry out a command line. -/
def run (words : List String) : m Output := do
  match Invocation.parse words with
  | .error (.help command?) => pure { stdout := helpText command? }
  | .error .version => pure { stdout := versionText }
  | .error .misuse =>
      pure { stderr := "error: this command line is not understood; try '--help'\n", exit := 2 }
  | .ok i =>
      match ← files.config i.config? with
      | .error e => pure (.failed 1 e.message)
      | .ok config =>
          match ← (perform files config i).run with
          | .ok output => pure output
          | .error message => pure (.failed 2 message)

end

end ReactiveDoc.Cli
