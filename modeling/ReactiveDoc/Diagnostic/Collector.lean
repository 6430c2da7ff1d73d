import ReactiveDoc.Diagnostic.Basic

namespace ReactiveDoc

/-!
# Collecting errors up to a limit

* `Collector` — the first errors that came in, and the number of those that found no room.
-/

/-- Errors kept in the order they came, at most `limit` of them, and a count of the rest. -/
structure Collector where
  limit : Nat
  errors : List TypeError := []
  dropped : Nat := 0
  deriving DecidableEq, Repr

namespace Collector

/-- An empty collector with room for a hundred errors. -/
def standard : Collector := { limit := 100 }

/-- Keep an error if there is room, else count it as dropped. -/
def add (c : Collector) (e : TypeError) : Collector :=
  if c.errors.length < c.limit then { c with errors := c.errors ++ [e] }
  else { c with dropped := c.dropped + 1 }

/-- Add several errors in order. -/
def addAll (c : Collector) (es : List TypeError) : Collector := es.foldl add c

/-- Forget the errors and the count; the limit stays. -/
def clear (c : Collector) : Collector := { limit := c.limit }

/-- Some error was kept. -/
def hasErrors (c : Collector) : Bool := !c.errors.isEmpty

/-- The number of errors kept. -/
def count (c : Collector) : Nat := c.errors.length

end Collector

end ReactiveDoc
