import ReactiveDoc.Json.Basic
import ReactiveDoc.Value.Basic

namespace ReactiveDoc.Value

/-!
# Values as JSON

* `Value.toJsonWith` — the written form, given that of signals.  What JSON has no form for is
  `null`, and an element is a record of its parts.
* `Value.ofJson` — a value from its written form.
-/

/-- The written form of an element. -/
def elementJson (tag : String) (props : List (String × Json)) (children : List Json) : Json :=
  .object [("children", .array children), ("props", .object (Json.sortedFields props)),
    ("tag", .string tag)]

section

variable {m : Type → Type} [Monad m] (read : SignalId → m Json)

mutual

/-- The written form of a value, where `read` gives that of a signal. -/
def toJsonWith : Value → m Json
  | undefined | null | function _ _ => pure .null
  | boolean b => pure (.bool b)
  | number x => pure (.ofFloat x)
  | string s => pure (.string s)
  | array _ items => do pure (.array (← itemsToJson items))
  | object _ fields => do pure (.object (Json.sortedFields (← fieldsToJson fields)))
  | element _ tag props children => do
      let props ← fieldsToJson props
      pure (elementJson tag props (← itemsToJson children))
  | signal id => read id

/-- The written forms of several values, in order. -/
def itemsToJson : List Value → m (List Json)
  | [] => pure []
  | v :: vs => do
      let j ← toJsonWith v
      pure (j :: (← itemsToJson vs))

/-- The written forms of fields, in order. -/
def fieldsToJson : List (String × Value) → m (List (String × Json))
  | [] => pure []
  | (key, v) :: fs => do
      let j ← toJsonWith v
      pure ((key, j) :: (← fieldsToJson fs))

end

end

mutual

/-- A value from its written form; the fields of objects are sorted by key, and what stands for
    nothing is `null`.  The containers built get the identities from `fresh` on, and the second result is the first that is left. -/
def ofJson (fresh : Identity) : Json → Value × Identity
  | .null | .unreadable => (null, fresh)
  | .bool b => (boolean b, fresh)
  | .integer n => (number ((Json.integer n).float?.getD (0.0 / 0.0)), fresh)
  | .float x => (number x, fresh)
  | .string s => (string s, fresh)
  | .array items =>
      let (vs, next) := itemsOfJson (fresh + 1) items
      (array fresh vs, next)
  | .object fields =>
      let (fs, next) := fieldsOfJson (fresh + 1) fields
      (object fresh (Json.sortedFields fs), next)

/-- Several values from their written forms. -/
def itemsOfJson (fresh : Identity) : List Json → List Value × Identity
  | [] => ([], fresh)
  | j :: js =>
      let (v, next) := ofJson fresh j
      let (vs, next) := itemsOfJson next js
      (v :: vs, next)

/-- Fields from their written forms. -/
def fieldsOfJson (fresh : Identity) : List (String × Json) → List (String × Value) × Identity
  | [] => ([], fresh)
  | (key, j) :: js =>
      let (v, next) := ofJson fresh j
      let (fs, next) := fieldsOfJson next js
      ((key, v) :: fs, next)

end

end ReactiveDoc.Value
