import ReactiveDoc.Signal.Update
import ReactiveDoc.Value.Basic

namespace ReactiveDoc

/-!
# What signals carry

* `Payload` — a value, the list that joined signals carry, or the outcome of a lifted signal.
* `Value.signals`, `Payload.signals` — the signals that are mentioned.
-/

mutual

/-- The signals in a value, at any depth.  What a function captures does not count. -/
def Value.signals : Value → List SignalId
  | .signal id => [id]
  | .array _ items => Value.itemsSignals items
  | .object _ fields => Value.fieldsSignals fields
  | .element _ _ props children => Value.fieldsSignals props ++ Value.itemsSignals children
  | _ => []

/-- The signals in several values. -/
def Value.itemsSignals : List Value → List SignalId
  | [] => []
  | v :: vs => v.signals ++ Value.itemsSignals vs

/-- The signals in the values of fields. -/
def Value.fieldsSignals : List (String × Value) → List SignalId
  | [] => []
  | (_, v) :: fields => v.signals ++ Value.fieldsSignals fields

end

/-- What a signal carries. -/
inductive Payload where
  | plain (value : Value)
  | list (items : List Payload)
  | attempt (outcome : Except SignalError Payload)

namespace Payload

mutual

/-- Equality of what signals carry, by the contents of values. -/
def same : Payload → Payload → Bool
  | plain a, plain b => a.same b
  | list ps, list qs => sameItems ps qs
  | attempt (.ok p), attempt (.ok q) => p.same q
  | attempt (.error e), attempt (.error e') => e == e'
  | _, _ => false

/-- Equality of items one by one. -/
def sameItems : List Payload → List Payload → Bool
  | [], [] => true
  | p :: ps, q :: qs => p.same q && sameItems ps qs
  | _, _ => false

end

instance : Signal.Carrier Payload where
  beq := same
  ofList := list
  ofOutcome := attempt

/-- The plain values that something carried consists of. -/
def values : Payload → List Value
  | plain v => [v]
  | list items => items.filterMap fun
      | plain v => some v
      | _ => none
  | attempt _ => []

/-- The plain value that is carried; a list or an outcome counts as `undefined`. -/
def value : Payload → Value
  | plain v => v
  | _ => .undefined

mutual

/-- The signals in what a signal carries. -/
def signals : Payload → List SignalId
  | plain v => v.signals
  | list items => itemsSignals items
  | attempt (.ok p) => p.signals
  | attempt (.error _) => []

/-- The signals in several payloads. -/
def itemsSignals : List Payload → List SignalId
  | [] => []
  | p :: ps => p.signals ++ itemsSignals ps

end

end Payload

end ReactiveDoc
