import ReactiveDoc.Config.Basic
import ReactiveDoc.Json.Basic

namespace ReactiveDoc.Cli

/-!
# Command lines

* `Flag` — what may be given by name.
* `scan` — the flags and operands of one level of a command line.
* `Invocation.parse` — a whole command line.
-/

/-! ### Flags -/

/-- Something given by name.  A flag with a value says which values it takes. -/
structure Flag where
  name : String
  accepts? : Option (String → Bool) := none

/-- A path is any text but the empty one. -/
def isPath (s : String) : Bool := !s.isEmpty

/-- A level of logging. -/
def isLevel (s : String) : Bool := (LogLevel.ofText? s).isSome

/-- A number of workers. -/
def isCount (s : String) : Bool := (LogLevel.number? s.toList).any (· ≤ Json.maxSize)

/-- The flags that may be given anywhere. -/
def globalFlags : List Flag :=
  [⟨"config", some isPath⟩, ⟨"log-level", some isLevel⟩, ⟨"no-color", none⟩]

/-- The flags of the check. -/
def checkFlags : List Flag :=
  [⟨"modules", some isPath⟩, ⟨"interfaces", none⟩, ⟨"workers", some isCount⟩]

/-! ### One level -/

/-- Why a command line is not carried out. -/
inductive Stop where
  /-- The help for a command is asked for, or for all if there is no name. -/
  | help (command? : Option String)
  | version
  | misuse
  deriving DecidableEq, Repr

/-- What is expected on one level.  `operands?` is the largest number of operands; at the top
    there are none, but the first word that is no flag ends the level. -/
structure Level where
  name? : Option String
  flags : List Flag
  operands? : Option Nat

/-- What was given on one level. -/
structure Given where
  values : List (String × String) := []
  operands : List String := []
  rest : List String := []

/-- The name of a flag and the value after an equals sign, from a word with two dashes. -/
def splitFlag (word : String) : String × Option String :=
  let (name, value) := (word.toList.drop 2).span (· != '=')
  (String.ofList name, if value.isEmpty then none else some (String.ofList value.tail))

/-- The word begins with a dash and is no dash alone. -/
def isDashed (word : String) : Bool := word.startsWith "-" && word != "-"

/-- One more operand. -/
def Given.addOperand (g : Given) (l : Level) (word : String) : Except Stop Given :=
  let room := match l.operands? with
    | some n => decide (g.operands.length < n)
    | none => true
  if room && isPath word then .ok { g with operands := g.operands ++ [word] } else .error .misuse

/-- One more flag; none may be given twice. -/
def Given.addFlag (g : Given) (flag : Flag) (value : String) : Except Stop Given :=
  if (g.values.lookup flag.name).isSome || !(flag.accepts?.all fun accepts => accepts value) then
    .error .misuse
  else .ok { g with values := (flag.name, value) :: g.values }

/-- A word with a single dash asks for help, or at the top for the version. -/
def shortFlag (l : Level) (word : String) : Stop :=
  if word.startsWith "-h" then .help l.name?
  else if word.startsWith "-V" && l.name?.isNone then .version
  else .misuse

/-- Read one level of a command line. -/
def scan (l : Level) (g : Given) : List String → Except Stop Given
  | [] => .ok g
  | "--" :: words =>
      if l.name?.isNone then if words.isEmpty then .ok g else .error .misuse
      else words.foldlM (fun g word => g.addOperand l word) g
  | word :: words =>
      if word.startsWith "--" then
        match splitFlag word with
        | ("help", none) => .error (.help l.name?)
        | ("version", none) => .error (if l.name?.isNone then .version else .misuse)
        | (name, value?) =>
            match l.flags.find? fun flag => flag.name == name with
            | none => .error .misuse
            | some flag =>
                match flag.accepts?, value?, words with
                | none, none, words => do scan l (← g.addFlag flag "") words
                | none, some _, _ => .error .misuse
                | some _, some value, words => do scan l (← g.addFlag flag value) words
                | some _, none, value :: words =>
                    if isDashed value then .error .misuse
                    else do scan l (← g.addFlag flag value) words
                | some _, none, [] => .error .misuse
      else if isDashed word then .error (shortFlag l word)
      else if l.name?.isNone then .ok { g with rest := word :: words }
      else do scan l (← g.addOperand l word) words

/-! ### Whole command lines -/

/-- What to do. -/
inductive Command where
  | check (files : List String) (modules? : Option String) (interfaces : Bool)
  | eval (file : String)
  | init
  deriving DecidableEq, Repr

/-- A command with the settings that hold for all commands. -/
structure Invocation where
  config? : Option String
  color : Bool
  command : Command
  deriving DecidableEq, Repr

/-- The names of the commands. -/
def commandNames : List String := ["check", "eval", "init"]

/-- A command from what was given for it. -/
def Command.ofGiven (name : String) (g : Given) : Except Stop Command :=
  match name, g.operands with
  | "check", files =>
      .ok (.check files (g.values.lookup "modules") (g.values.lookup "interfaces").isSome)
  | "eval", [file] => .ok (.eval file)
  | "init", [] => .ok .init
  | _, _ => .error .misuse

/-- What is expected after the name of a command. -/
def levelOf (name : String) : Level :=
  { name? := some name
    flags := globalFlags ++ (if name == "check" then checkFlags else [])
    operands? := if name == "check" then none else if name == "eval" then some 1 else some 0 }

/-- The help that is asked for by a word of its own. -/
def helpFor : List String → Stop
  | [] => .help none
  | [name] => if ("help" :: commandNames).contains name then .help (some name) else .misuse
  | _ => .misuse

/-- Read a command line.  A setting given after the command counts before one given in front. -/
def Invocation.parse (words : List String) : Except Stop Invocation := do
  let top ← scan { name? := none, flags := globalFlags, operands? := some 0 } {} words
  match top.rest with
  | [] => throw .misuse
  | "help" :: words => throw (helpFor words)
  | name :: words =>
      if !commandNames.contains name then throw .misuse
      else
        let g ← scan (levelOf name) {} words
        let values := g.values ++ top.values
        pure {
          config? := values.lookup "config"
          color := (values.lookup "no-color").isNone
          command := ← Command.ofGiven name g }

end ReactiveDoc.Cli
