import ReactiveDoc.Config.Basic
import ReactiveDoc.Json.Shape
import ReactiveDoc.Toml.Parser
import ReactiveDoc.Toml.Printer

namespace ReactiveDoc

/-!
# Configurations as text

Every section and every setting may be left out, and unknown ones are ignored.

* `Config.parse?` — a configuration from its text.
* `Config.print` — the text of a configuration, all settings included.
-/

/-! ### Reading -/

/-- The values of settings by their names.  A list gives them in order, and what it has more of
    is ignored. -/
def settings? (names : List String) : Json → Option (List (Option Json))
  | .object fields => some (names.map fun name => fields.lookup name)
  | .array items => some ((List.range names.length).map fun i => items[i]?)
  | _ => none

/-- Checking as configured. -/
def CheckConfig.ofJson? (j : Json) : Option CheckConfig := do
  let [maxErrors, suggestions, allow] ←
    settings? ["max_errors", "suggestions", "allow_unannotated_params"] j | none
  some ⟨← Json.entryOr 100 Json.size? maxErrors, ← Json.entryOr true Json.bool? suggestions,
    ← Json.entryOr false Json.bool? allow⟩

/-- Evaluation as configured. -/
def EvalOptions.ofJson? (j : Json) : Option EvalOptions := do
  let [fuseMaps, writeBack] ← settings? ["fuse_maps", "write_back"] j | none
  some ⟨← Json.entryOr true Json.bool? fuseMaps, ← Json.entryOr true Json.bool? writeBack⟩

/-- The cache as configured. -/
def CacheConfig.ofJson? (j : Json) : Option CacheConfig := do
  let [enabled, capacity] ← settings? ["enabled", "capacity"] j | none
  some ⟨← Json.entryOr true Json.bool? enabled,
    ← Json.entryOr FragmentCache.defaultCapacity Json.size? capacity⟩

/-- A layout by its name, which may stand alone or over nothing. -/
def LogLayout.ofJson? : Json → Option LogLayout
  | .string name | .object [(name, .object [])] | .object [(name, .array [])] => ofName? name
  | _ => none

/-- Logging as configured. -/
def LogConfig.ofJson? (j : Json) : Option LogConfig := do
  let [level, layout, filter] ← settings? ["level", "format", "filter"] j | none
  some ⟨← Json.entryOr "info" Json.string? level, ← Json.entryOr .pretty LogLayout.ofJson? layout,
    ← Json.entryOr none (fun j => j.string?.map some) filter⟩

/-- A setup of logging.  Messages go to the error stream, and spans are not logged. -/
def LogSetup.toJson (s : LogSetup) : Json :=
  .object [("level", .string s.level.name), ("format", .string s.layout.name.capitalize),
    ("output", .string "Stderr"), ("span_events", .bool false),
    ("filter", .ofOption Json.string s.filter?)]

namespace Config

/-- A configuration from the values of its sections. -/
def ofJson? (j : Json) : Option Config := do
  let [check, eval, cache, log] ← settings? ["check", "eval", "cache", "log"] j | none
  some ⟨← Json.entryOr {} CheckConfig.ofJson? check, ← Json.entryOr {} EvalOptions.ofJson? eval,
    ← Json.entryOr {} CacheConfig.ofJson? cache, ← Json.entryOr {} LogConfig.ofJson? log⟩

/-- A configuration from its text. -/
def parse? (text : String) : Option Config := (Toml.parse? text).bind ofJson?

/-! ### Writing -/

/-- The sections with their settings in order. -/
def sections (c : Config) : List (String × List (String × Json)) :=
  [("check", [("max_errors", .ofNat c.check.maxErrors), ("suggestions", .bool c.check.suggestions),
      ("allow_unannotated_params", .bool c.check.allowUnannotatedParams)]),
    ("eval", [("fuse_maps", .bool c.eval.fuseMaps), ("write_back", .bool c.eval.writeBack)]),
    ("cache", [("enabled", .bool c.cache.enabled), ("capacity", .ofNat c.cache.capacity)]),
    ("log", [("level", .string c.log.level), ("format", .string c.log.layout.name),
      ("filter", Json.ofOption Json.string c.log.filter?)])]

/-- The settings as an object of objects. -/
def toJson (c : Config) : Json :=
  .object (c.sections.map fun (name, settings) => (name, .object settings))

/-- The setting has a value. -/
def isSet : String × Json → Bool
  | (_, .null) => false
  | _ => true

/-- The text of a configuration. -/
def print (c : Config) : String :=
  String.intercalate "\n" (c.sections.map fun (name, settings) =>
    Toml.block name (settings.filter isSet))

end Config

end ReactiveDoc
