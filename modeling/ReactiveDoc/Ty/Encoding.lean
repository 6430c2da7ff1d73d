import ReactiveDoc.Diagnostic.Encoding
import ReactiveDoc.Ty.Basic

namespace ReactiveDoc

/-!
# Types as JSON

The form is the same whatever stands for a number, so writing and reading take the form of
numbers as a parameter: documents use plain JSON numbers.

* `Literal.toJson`, `Ty.toJson` — the written form: a variant for each way to build a type.
* `Literal.ofJson?`, `Ty.ofJson?` — reading it back.  Nothing is normalised.
-/

open Json (entries? variant variant? empty?)

/-- How numbers are written and read. -/
structure NumberForm where
  write : Float → Json
  read : Json → Option Float

/-- Numbers as plain JSON numbers; what is not finite is written `null`. -/
def NumberForm.plain : NumberForm := ⟨Json.ofFloat, Json.float?⟩

namespace Literal

/-- A literal as a variant. -/
def toJson (form : NumberForm) : Literal → Json
  | boolean b => variant "Boolean" (.bool b)
  | number x => variant "Number" (form.write x)
  | string s => variant "String" (.string s)

/-- A literal from its variant. -/
def ofJson? (form : NumberForm) (j : Json) : Option Literal := do
  let (name, contents) ← variant? j
  let contents ← contents
  match name with
  | "Boolean" => contents.bool?.map boolean
  | "Number" => (form.read contents).map number
  | "String" => contents.string?.map string
  | _ => none

end Literal

namespace Ty

mutual

/-- A type as a variant. -/
def toJson (form : NumberForm) : Ty → Json
  | never => .string "Never"
  | unknown => .string "Unknown"
  | undefined => .string "Undefined"
  | null => .string "Null"
  | boolean => .string "Boolean"
  | number => .string "Number"
  | string => .string "String"
  | tuple items => variant "Tuple" (.array (toJsonList form items))
  | array item => variant "Array" (item.toJson form)
  | set item => variant "Set" (item.toJson form)
  | map key value => variant "Map" (.array [key.toJson form, value.toJson form])
  | labelled label args =>
      variant "Abstract" (.array [.string label, .array (toJsonList form args)])
  | function params result =>
      variant "Function" (.array [.array (toJsonList form params), result.toJson form])
  | object fields => variant "Object" (.array (toJsonFields form fields))
  | module exports => variant "Module" (.array (toJsonExports form exports))
  | union arms => variant "Union" (.array (toJsonList form arms))
  | intersection arms => variant "Intersection" (.array (toJsonList form arms))
  | singleton base value => variant "Singleton" (.array [base.toJson form, value.toJson form])
  | complement ty => variant "Not" (ty.toJson form)
  | error cause => variant "Error" cause.toJson

/-- Several types as JSON. -/
def toJsonList (form : NumberForm) : List Ty → List Json
  | [] => []
  | t :: ts => t.toJson form :: toJsonList form ts

/-- Fields as records. -/
def toJsonFields (form : NumberForm) : List (Field Ty) → List Json
  | [] => []
  | ⟨name, ty⟩ :: fs =>
      .object [("name", .string name), ("ty", ty.toJson form)] :: toJsonFields form fs

/-- Exports as records. -/
def toJsonExports (form : NumberForm) : List (Export Ty) → List Json
  | [] => []
  | ⟨name, ty, dynamic⟩ :: es =>
      .object [("name", .string name), ("ty", ty.toJson form), ("dynamic", .bool dynamic)] ::
        toJsonExports form es

end

/-- The types without parts, by name. -/
def ofName? : String → Option Ty
  | "Never" => some never
  | "Unknown" => some unknown
  | "Undefined" => some undefined
  | "Null" => some null
  | "Boolean" => some boolean
  | "Number" => some number
  | "String" => some string
  | _ => none

/-- A field from its record, its type read by `read`. -/
def fieldOfJson? (read : Json → Option Ty) (j : Json) : Option (Field Ty) := do
  let [some name, some ty] ← entries? [("name", .required), ("ty", .required)] j | none
  some ⟨← name.string?, ← read ty⟩

/-- An export from its record, its type read by `read`. -/
def exportOfJson? (read : Json → Option Ty) (j : Json) : Option (Export Ty) := do
  let [some name, some ty, some dynamic] ←
    entries? [("name", .required), ("ty", .required), ("dynamic", .required)] j | none
  some ⟨← name.string?, ← read ty, ← dynamic.bool?⟩

/-- A type with parts from its name and contents, the parts read by `read`. -/
def ofParts? (form : NumberForm) (read : Json → Option Ty) (name : String) (contents : Json) :
    Option Ty :=
  match name with
  | "Tuple" => (contents.list? read).map tuple
  | "Array" => (read contents).map array
  | "Set" => (read contents).map set
  | "Map" => do
      let .array [key, value] := contents | none
      some (map (← read key) (← read value))
  | "Abstract" => do
      let .array [label, args] := contents | none
      some (labelled (← label.string?) (← args.list? read))
  | "Function" => do
      let .array [params, result] := contents | none
      some (function (← params.list? read) (← read result))
  | "Object" => (contents.list? (fieldOfJson? read)).map object
  | "Module" => (contents.list? (exportOfJson? read)).map module
  | "Union" => (contents.list? read).map union
  | "Intersection" => (contents.list? read).map intersection
  | "Singleton" => do
      let .array [base, value] := contents | none
      some (singleton (← read base) (← Literal.ofJson? form value))
  | "Not" => (read contents).map complement
  | "Error" => (TypeError.ofJson? contents).map error
  | _ => none

/-- A type from a value that nests less than `fuel`. -/
def ofJsonWithin? (form : NumberForm) : Nat → Json → Option Ty
  | 0, _ => none
  | fuel + 1, j => do
      let (name, contents) ← variant? j
      match ofName? name with
      | some t => (empty? .exact contents).map fun _ => t
      | none => ofParts? form (ofJsonWithin? form fuel) name (← contents)

/-- A type from its written form. -/
def ofJson? (form : NumberForm) (j : Json) : Option Ty := ofJsonWithin? form (j.depth + 1) j

end Ty

end ReactiveDoc
