import ReactiveDoc.Value.Basic

namespace ReactiveDoc

/-!
# Edited copies of values

* `Value.setPath` — a copy of a value with one part replaced.  Containers along the path are new
  ones; everything else is shared with the value before.
* `EditError` — why a part cannot be replaced.
-/

/-- Why a part of a value cannot be replaced. -/
inductive EditError where
  /-- The path goes through a field that the object does not have. -/
  | missingField (key : String)
  /-- The path goes through an item that the array does not have. -/
  | outOfBounds (position : Nat)
  /-- The value has no parts of this sort; `typeName` says what it is. -/
  | noPart (segment : String) (typeName : String)
  /-- The array would become longer than arrays can be: this does not fail but stops everything. -/
  | tooLong (position : Nat)
  deriving DecidableEq, Repr

/-- The wording of a failed edit. -/
def EditError.message : EditError → String
  | missingField key => "cannot set properties of undefined ('" ++ key ++ "')"
  | outOfBounds position => "index " ++ natText position ++ " out of bounds"
  | noPart segment typeName => "cannot set '" ++ segment ++ "' on a " ++ typeName
  | tooLong position => "index " ++ natText position ++ " is too large"

namespace Value

/-- An array cannot have an item at a position: its length would be too large for a word, or there
    is no memory for it but only for `capacity` items. -/
def NoRoom (capacity position : Nat) : Prop := UInt64.size ≤ position + 1 ∨ capacity ≤ position

instance (capacity position : Nat) : Decidable (NoRoom capacity position) :=
  inferInstanceAs (Decidable (_ ∨ _))

/-- The number of items for which there is memory, unless it is said. -/
def usualCapacity : Nat := UInt32.size - 1

/-- Items with `undefined` at the end, so that there are `n` of them or more. -/
def padTo (n : Nat) (items : List Value) : List Value :=
  items ++ List.replicate (n - items.length) undefined

/-- A copy of a value with the part at a path replaced.  At the end of the path a new field may be
    added, and an array may grow if there is room.  The first container copied gets the identity
    `fresh`, the next one the identity after it, and so on. -/
def setPath (fresh : Identity) (v : Value) (path : List PathSegment) (new : Value)
    (capacity : Nat := usualCapacity) : Except EditError Value :=
  match path with
  | [] => .ok new
  | segment :: rest =>
      match v, segment with
      | object _ fields, .key name =>
          match fields.lookup name with
          | some old => do
              let edited ← setPath (fresh + 1) old rest new capacity
              pure (object fresh (Keyed.put fields name edited))
          | none =>
              if rest.isEmpty then .ok (object fresh (Keyed.put fields name new))
              else .error (.missingField name)
      | array _ items, .index position =>
          match items[position]? with
          | some old => do
              let edited ← setPath (fresh + 1) old rest new capacity
              pure (array fresh (items.set position edited))
          | none =>
              if !rest.isEmpty then .error (.outOfBounds position)
              else if NoRoom capacity position then .error (.tooLong position)
              else .ok (array fresh (padTo position items ++ [new]))
      | _, _ => .error (.noPart segment.text v.typeName)

end Value

end ReactiveDoc
