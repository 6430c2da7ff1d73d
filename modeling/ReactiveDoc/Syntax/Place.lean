import ReactiveDoc.Text.Quoted

namespace ReactiveDoc

/-!
# Places in a document

* `NodeId` — a node of the tree, by its position among the nodes.
* `Span` — a half-open range of byte offsets, with `Span.cover` for the range around two.
* `Span.before` — the order by start and then by end in which diagnostics are listed.
-/

/-- A node of a document, by its position among the nodes. -/
abbrev NodeId := Nat

/-- The name of a node in messages. -/
def nodeText (node : NodeId) : String := "#" ++ natText node

/-- A range of byte offsets into the source of a document. -/
structure Span where
  start : Nat
  stop : Nat
  deriving DecidableEq, Repr, Inhabited

namespace Span

/-- The least range that contains both. -/
def cover (a b : Span) : Span := ⟨min a.start b.start, max a.stop b.stop⟩

/-- Order by start, then by end. -/
def before (a b : Span) : Bool :=
  a.start < b.start || (a.start == b.start && a.stop ≤ b.stop)

end Span

end ReactiveDoc
