import ReactiveDoc.Cache.Fragment
import ReactiveDoc.Document.Checking
import ReactiveDoc.Number.Reading
import ReactiveDoc.Value.Basic

namespace ReactiveDoc

/-!
# Configuration

* `Config` — what can be configured, in sections.
* `LogLevel.ofText?` — a level by its name or number.
* `LogConfig.setup` — how messages are logged; an unknown level is refused.
-/

/-! ### Logging -/

/-- How important messages must be to be logged. -/
inductive LogLevel where
  | error
  | warn
  | info
  | debug
  | trace
  deriving DecidableEq, Repr

namespace LogLevel

/-- The levels from the most important one down. -/
def all : List LogLevel := [error, warn, info, debug, trace]

/-- The name of a level. -/
def name : LogLevel → String
  | error => "ERROR"
  | warn => "WARN"
  | info => "INFO"
  | debug => "DEBUG"
  | trace => "TRACE"

/-- The level with a number; the most important one has number one. -/
def ofNumber? (n : Nat) : Option LogLevel := if n = 0 then none else all[n - 1]?

/-- The number that a text spells, with a plus sign or without. -/
def number? (cs : List Char) : Option Nat :=
  let digits := if cs.head? = some '+' then cs.tail else cs
  if !digits.isEmpty && digits.all Char.isDigit then some (Number.digitsValue digits) else none

/-- A level by its number, or by its name in letters of any case. -/
def ofText? (s : String) : Option LogLevel :=
  match number? s.toList with
  | some n => ofNumber? n
  | none => all.find? fun level => level.name.toList == s.toList.map Char.toUpper

end LogLevel

/-- How a logged message is laid out. -/
inductive LogLayout where
  | pretty
  | compact
  | json
  deriving DecidableEq, Repr

/-- The name of a layout in configurations. -/
def LogLayout.name : LogLayout → String
  | pretty => "pretty"
  | compact => "compact"
  | json => "json"

/-- The layout with a name. -/
def LogLayout.ofName? (name : String) : Option LogLayout :=
  [pretty, compact, json].find? fun layout => layout.name == name

/-- What is logged and how. -/
structure LogConfig where
  level : String := "info"
  layout : LogLayout := .pretty
  filter? : Option String := none
  deriving DecidableEq, Repr

/-- What is logged, with a level that exists. -/
structure LogSetup where
  level : LogLevel
  layout : LogLayout
  filter? : Option String
  deriving DecidableEq, Repr

/-- The setup of logging; a level that does not exist is the failure. -/
def LogConfig.setup (c : LogConfig) : Except String LogSetup :=
  match LogLevel.ofText? c.level with
  | some level => .ok ⟨level, c.layout, c.filter?⟩
  | none => .error c.level

/-! ### All sections -/

/-- Whether results of checks are kept, and how many. -/
structure CacheConfig where
  enabled : Bool := true
  capacity : Nat := FragmentCache.defaultCapacity
  deriving DecidableEq, Repr

/-- What can be configured. -/
structure Config where
  check : CheckConfig := {}
  eval : EvalOptions := {}
  cache : CacheConfig := {}
  log : LogConfig := {}
  deriving DecidableEq, Repr

/-- The cache for checks, if one is to be used. -/
def Config.newCache? (c : Config) : Option FragmentCache :=
  if c.cache.enabled then some (.ofCapacity c.cache.capacity) else none

/-- The name of configuration files. -/
def Config.fileName : String := "livedoc.toml"

/-- Why there is no configuration. -/
inductive ConfigError where
  | unreadable (path cause : String)
  | malformed
  | unknownLevel (level : String)
  deriving DecidableEq, Repr

/-- The wording of a failure. -/
def ConfigError.message : ConfigError → String
  | unreadable path cause => "failed to read config " ++ path ++ ": " ++ cause
  | malformed => "failed to parse config"
  | unknownLevel level => "invalid log level '" ++ level ++ "'"

end ReactiveDoc
