import ReactiveDoc.Diagnostic.Basic
import ReactiveDoc.Json.Shape

namespace ReactiveDoc

/-!
# Type errors as JSON

* `Span.toJson`, `Complaint.toJson`, `TypeError.toJson` — the written form.
* `Span.ofJson?`, `Complaint.ofJson?`, `TypeError.ofJson?` — reading it back.
-/

open Json (entries? entryOr variant variant? empty?)

namespace Span

/-- A range as a record of its two offsets. -/
def toJson (s : Span) : Json :=
  .object [("start", .ofNat s.start), ("end", .ofNat s.stop)]

/-- A range from a record of its two offsets. -/
def ofJson? (j : Json) : Option Span := do
  let [some start, some stop] ← entries? [("start", .required), ("end", .required)] j | none
  some ⟨← start.size?, ← stop.size?⟩

end Span

namespace Complaint

/-- A record of texts as the contents of a variant. -/
def texts (name : String) (fields : List (String × String)) : Json :=
  variant name (.object (fields.map fun (key, text) => (key, .string text)))

/-- A record of two counts as the contents of a variant. -/
def counts (name : String) (expected found : Nat) : Json :=
  variant name (.object [("expected", .ofNat expected), ("found", .ofNat found)])

/-- A cause as a variant with a record of what it names. -/
def toJson : Complaint → Json
  | unboundIdentifier name => texts "UnboundIdentifier" [("name", name)]
  | typeMismatch expected found => texts "TypeMismatch" [("expected", expected), ("found", found)]
  | duplicateProperty name => texts "DuplicateProperty" [("name", name)]
  | missingField name expected => texts "MissingField" [("name", name), ("expected", expected)]
  | unknownField ty name => texts "UnknownField" [("ty", ty), ("name", name)]
  | notCallable ty => texts "NotCallable" [("ty", ty)]
  | arityMismatch expected found => counts "ArityMismatch" expected found
  | incompatibleOperands op left right =>
      texts "IncompatibleOperands" [("op", op), ("left", left), ("right", right)]
  | notAssignable target => texts "NotAssignable" [("target", target)]
  | missingParameterType name => texts "MissingParameterType" [("name", name)]
  | tupleLength expected found => counts "TupleLength" expected found
  | unknownModule module => texts "UnknownModule" [("module", module)]
  | unknownExport module name => texts "UnknownExport" [("module", module), ("name", name)]
  | cyclicDefinition chain =>
      variant "CyclicDefinition" (.object [("chain", .array (chain.map .string))])
  | notAnExpression => .string "NotAnExpression"

/-- The one text of a record. -/
def text1? (a : String) (j : Json) : Option String := do
  let [some x] ← entries? [(a, .required)] j | none
  x.string?

/-- The two texts of a record. -/
def text2? (a b : String) (j : Json) : Option (String × String) := do
  let [some x, some y] ← entries? [(a, .required), (b, .required)] j | none
  some (← x.string?, ← y.string?)

/-- The three texts of a record. -/
def text3? (a b c : String) (j : Json) : Option (String × String × String) := do
  let [some x, some y, some z] ← entries? [(a, .required), (b, .required), (c, .required)] j | none
  some (← x.string?, ← y.string?, ← z.string?)

/-- The two counts of a record. -/
def counts? (j : Json) : Option (Nat × Nat) := do
  let [some x, some y] ← entries? [("expected", .required), ("found", .required)] j | none
  some (← x.size?, ← y.size?)

/-- The cause of a given name from its contents. -/
def ofContents? (name : String) (j : Json) : Option Complaint :=
  match name with
  | "UnboundIdentifier" => (text1? "name" j).map unboundIdentifier
  | "TypeMismatch" => (text2? "expected" "found" j).map fun (x, y) => typeMismatch x y
  | "DuplicateProperty" => (text1? "name" j).map duplicateProperty
  | "MissingField" => (text2? "name" "expected" j).map fun (x, y) => missingField x y
  | "UnknownField" => (text2? "ty" "name" j).map fun (x, y) => unknownField x y
  | "NotCallable" => (text1? "ty" j).map notCallable
  | "ArityMismatch" => (counts? j).map fun (x, y) => arityMismatch x y
  | "IncompatibleOperands" =>
      (text3? "op" "left" "right" j).map fun (x, y, z) => incompatibleOperands x y z
  | "NotAssignable" => (text1? "target" j).map notAssignable
  | "MissingParameterType" => (text1? "name" j).map missingParameterType
  | "TupleLength" => (counts? j).map fun (x, y) => tupleLength x y
  | "UnknownModule" => (text1? "module" j).map unknownModule
  | "UnknownExport" => (text2? "module" "name" j).map fun (x, y) => unknownExport x y
  | "CyclicDefinition" => do
      let [some chain] ← entries? [("chain", .required)] j | none
      some (cyclicDefinition (← chain.list? Json.string?))
  | _ => none

/-- A cause from its written form. -/
def ofJson? (j : Json) : Option Complaint := do
  let (name, contents) ← variant? j
  if name = "NotAnExpression" then (empty? .exact contents).map fun _ => notAnExpression
  else ofContents? name (← contents)

end Complaint

namespace TypeError

/-- An error as a record of cause, place and hints. -/
def toJson (e : TypeError) : Json :=
  .object [("kind", e.kind.toJson), ("span", .ofOption Span.toJson e.span),
    ("suggestions", .array (e.hints.map .string))]

/-- An error from its record; the place may be missing. -/
def ofJson? (j : Json) : Option TypeError := do
  let [some kind, span, some hints] ←
    entries? [("kind", .required), ("span", .optional), ("suggestions", .required)] j | none
  some ⟨← Complaint.ofJson? kind, ← entryOr none (Json.optional? Span.ofJson?) span,
    ← hints.list? Json.string?⟩

end TypeError

end ReactiveDoc
