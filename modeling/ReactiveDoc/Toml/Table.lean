import ReactiveDoc.Json.Basic
import ReactiveDoc.Keyed

namespace ReactiveDoc.Toml

/-!
# Tables of a TOML text

A table may come about in three ways, and each way may be used once: by its header, by a dotted
key, or as a step on the way to another header.

* `Item`, `Table` — what is known of a text so far.
* `Table.assign` — add a value under a dotted key.
* `Table.open`, `Table.openNext` — what a header does.
* `Table.toJson` — the values of a finished table.
-/

/-- A table with entries of some sort.  An `implicit` table was only passed on the way to another
    one, and a `dotted` table was made by a dotted key. -/
structure TableOf (ι : Type) where
  implicit : Bool := false
  dotted : Bool := false
  entries : List (String × ι) := []

/-- What a key stands for: a value, a table, or several tables of one name, the latest first. -/
inductive Item where
  | value (j : Json)
  | table (t : TableOf Item)
  | tables (ts : List (TableOf Item))

/-- A table. -/
abbrev Table := TableOf Item

namespace Table

/-- Give a key an item. -/
def put (t : Table) (key : String) (item : Item) : Table :=
  { t with entries := Keyed.put t.entries key item }

/-- Change the table that a path leads to.  Tables that are missing on the way are added; of
    several tables of one name the latest is meant.  A dotted key does not lead into tables that
    have a header. -/
def change (dotted : Bool) (f : Table → Option Table) : List String → Table → Option Table
  | [], t => f t
  | key :: path, t =>
      match t.entries.lookup key with
      | none => do
          let child ← change dotted f path { implicit := true, dotted }
          some (t.put key (.table child))
      | some (.table child) =>
          if dotted ∧ !child.implicit then none
          else do some (t.put key (.table (← change dotted f path child)))
      | some (.tables (latest :: others)) => do
          some (t.put key (.tables ((← change dotted f path latest) :: others)))
      | some (.tables []) | some (.value _) => none

/-- Add a value under a key.  Tables that were made by dotted keys only take further dotted keys,
    and other tables only take simple ones. -/
def assign (path : List String) (key : String) (j : Json) : Table → Option Table :=
  change true (fun t =>
    if t.dotted = path.isEmpty ∨ (t.entries.lookup key).isSome then none
    else some (t.put key (.value j))) path

/-- Begin the table of a header; it must not have begun before. -/
def openHeader (path : List String) (key : String) : Table → Option Table :=
  change false (fun t =>
    match t.entries.lookup key with
    | none => some (t.put key (.table {}))
    | some (.table child) =>
        if child.implicit ∧ !child.dotted then
          some (t.put key (.table { child with implicit := false }))
        else none
    | _ => none) path

/-- Begin a further table of a name. -/
def openNext (path : List String) (key : String) : Table → Option Table :=
  change false (fun t =>
    match t.entries.lookup key with
    | none => some (t.put key (.tables [{}]))
    | some (.tables ts) => some (t.put key (.tables ({} :: ts)))
    | _ => none) path

end Table

/-! ### Values -/

mutual

/-- The value of an item. -/
def Item.toJson : Item → Json
  | .value j => j
  | .table t => tableJson t
  | .tables ts => .array (tablesJson ts).reverse

/-- A table as an object. -/
def tableJson : TableOf Item → Json
  | ⟨_, _, entries⟩ => .object (entriesJson entries)

/-- Several tables as objects. -/
def tablesJson : List (TableOf Item) → List Json
  | [] => []
  | t :: ts => tableJson t :: tablesJson ts

/-- The values of entries. -/
def entriesJson : List (String × Item) → List (String × Json)
  | [] => []
  | (key, item) :: entries => (key, item.toJson) :: entriesJson entries

end

end ReactiveDoc.Toml
