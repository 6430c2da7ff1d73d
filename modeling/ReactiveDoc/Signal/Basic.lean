namespace ReactiveDoc

/-!
# Signals, their kinds and their failures

* `SignalId` — a signal, by its position in the graph.
* `SignalKind` — the ways in which signals come about.
* `SignalError` — why a signal has no value, or could not be set.
* `Outcome` — what reading a signal gives.
-/

/-- A signal, by its position in the graph. -/
abbrev SignalId := Nat

/-- The ways in which signals come about. -/
inductive SignalKind where
  | constant
  | cell
  | map
  | flatMap
  | mapWritable
  | join
  | lift
  | label
  | reference
  deriving DecidableEq, Repr

/-- The name of a kind in messages. -/
def SignalKind.name : SignalKind → String
  | constant => "Const"
  | cell => "Cell"
  | map => "Map"
  | flatMap => "FlatMap"
  | mapWritable => "MapWritable"
  | join => "Join"
  | lift => "LiftToTry"
  | label => "Label"
  | reference => "Ref"

/-- Why a signal has no value, or could not be set or resolved. -/
inductive SignalError where
  /-- The computation of the value failed. -/
  | failed (message : String)
  | unresolvedRef
  | alreadyResolved
  | notAReference
  | readOnly (kind : SignalKind)
  | unreconciled
  deriving DecidableEq, Repr

/-- The wording of a failure. -/
def SignalError.message : SignalError → String
  | failed message => message
  | unresolvedRef => "reference read before it was resolved"
  | alreadyResolved => "reference is already resolved"
  | notAReference => "signal is not a reference"
  | readOnly kind => kind.name ++ " signals cannot be set"
  | unreconciled => "signal read before its first reconcile"

/-- What reading a signal gives: its value, or why there is none. -/
abbrev Outcome (α : Type) := Except SignalError α

/-- Equality of outcomes, values compared by `==`. -/
def Outcome.same {α : Type} [BEq α] : Outcome α → Outcome α → Bool
  | .ok a, .ok b => a == b
  | .error e, .error e' => e == e'
  | _, _ => false

end ReactiveDoc
