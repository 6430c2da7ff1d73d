import ReactiveDoc.Json.Basic

namespace ReactiveDoc.Json

/-!
# Records and variants as JSON

How structured data is laid out in JSON, and how it is read back.

* `entries?` — the entries of a record, from an object or from an array in field order.
* `variant?` — a choice: a bare name, or an object whose one key is the name.
* `tagged?` — a choice whose name stands among the fields of its record.
* `adjacent?` — a choice with its name and its contents under two keys.
* `Manner` — how much a reader puts up with.
-/

/-! ### Records -/

/-- What the absence of a record's entry means.

    A `required` entry must be there; an `optional` one may be missing from an object; a
    `defaulted` one may be missing from an object and from the end of an array. -/
inductive Presence where
  | required
  | optional
  | defaulted
  deriving DecidableEq, Repr

/-- The value of `key` in an object: `none` if the key is repeated, `some none` if it is absent. -/
def lookup? (fields : List (String × Json)) (key : String) : Option (Option Json) :=
  match fields.filter fun f => f.1 == key with
  | [] => some none
  | [f] => some (some f.2)
  | _ => none

/-- The entries of a record laid out as an array. -/
def positional? : List (String × Presence) → List Json → Option (List (Option Json))
  | [], [] => some []
  | [], _ :: _ => none
  | (_, presence) :: names, [] =>
      if presence = .defaulted then (positional? names []).map (none :: ·) else none
  | _ :: names, j :: js => (positional? names js).map (some j :: ·)

/-- The entries of a record in the order of `names`.  Keys that the record does not have are
    ignored. -/
def entries? (names : List (String × Presence)) : Json → Option (List (Option Json))
  | object fields => names.mapM fun (name, presence) => do
      let entry ← lookup? fields name
      if entry.isNone ∧ presence = .required then none else some entry
  | array items => positional? names items
  | _ => none

/-- A missing entry that stands for `none`. -/
def entryOr {α : Type} (default : α) (read : Json → Option α) : Option Json → Option α
  | none => some default
  | some j => read j

/-! ### Variants -/

/-- A choice: its name, and its contents if it has any. -/
def variant? : Json → Option (String × Option Json)
  | string name => some (name, none)
  | object [(name, contents)] => some (name, some contents)
  | _ => none

/-- How much a reader puts up with.

    Where the name of a choice stands beside its contents, they are set aside until the name is
    known, and what was set aside is read in a `loose` manner: an empty object may stand for no
    contents, and the number of a choice for its name at the front of an array. -/
inductive Manner where
  | exact
  | loose
  deriving DecidableEq, Repr

/-- Contents that are none at all, or `null`. -/
def empty? (manner : Manner) : Option Json → Option Unit
  | none | some null => some ()
  | some (object []) => if manner = .loose then some () else none
  | some _ => none

/-- A choice without contents, written as its name or as a variant. -/
def name? (manner : Manner) (j : Json) : Option String := do
  let (name, contents) ← j.variant?
  (empty? manner contents).map fun _ => name

/-- The name of one of `choices` at the front of an array. -/
def frontName? (manner : Manner) (choices : List String) : Json → Option String
  | string name => some name
  | integer n => if manner = .loose ∧ 0 ≤ n then choices[n.toNat]? else none
  | _ => none

/-- A choice whose name stands under `tag` among the fields of its record.  All of the record must
    be readable, the fields included that the choice does not have. -/
def tagged? (tag : String) (j : Json) : Option (String × Json) :=
  if j.isReadable then
    match j with
    | object fields => do
        let name ← (← lookup? fields tag).bind string?
        some (name, object (fields.filter fun f => f.1 != tag))
    | array (string name :: items) => some (name, array items)
    | _ => none
  else none

/-- One of `choices` with its name under `tag` and its contents under `content`, and the manner in
    which to read them. -/
def adjacent? (manner : Manner) (choices : List String) (tag content : String) :
    Json → Option (String × Option (Manner × Json))
  | object fields => do
      let name ← (← lookup? fields tag).bind (name? manner)
      some (name, (← lookup? fields content).map fun j => (.loose, j))
  | array [front, contents] => do
      some (← frontName? manner choices front, some (manner, contents))
  | _ => none

/-! ### Writing -/

/-- A choice with contents. -/
def variant (name : String) (contents : Json) : Json := object [(name, contents)]

/-- A value, or `null` for its absence. -/
def ofOption {α : Type} (write : α → Json) : Option α → Json
  | none => null
  | some a => write a

end ReactiveDoc.Json
