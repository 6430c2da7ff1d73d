import ReactiveDoc.Syntax.Place

namespace ReactiveDoc

/-!
# Faults

A fault ends a whole computation: what it was given is not a document at all, or asks for more
than there can be.  Errors that a document's author can make are never faults.
-/

/-- Why a computation cannot go on. -/
inductive Fault where
  /-- A node refers to a node that the tree does not have. -/
  | missingNode (node : NodeId)
  /-- The recursion goes deeper than any finite tree or chain of signals of this size. -/
  | endless
  /-- An array would become longer than arrays can be. -/
  | tooLong (length : Nat)
  deriving DecidableEq, Repr

end ReactiveDoc
