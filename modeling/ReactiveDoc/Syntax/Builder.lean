import ReactiveDoc.Syntax.Tree
import ReactiveDoc.Ty.Text

namespace ReactiveDoc

/-!
# Building trees

Hosts without a parser build trees node by node.  Leaves get fresh, growing places and other
nodes cover the nodes below them, so diagnostics come in the order of construction.

* `Builder.leaf`, `Builder.composite`, `Builder.spanned` — add one node.
* `Builder.object`, `Builder.element` — add a node with a property node for each entry.
-/

/-- The nodes so far, and the offset at which the next leaf starts. -/
structure Builder where
  nodes : Array Node := #[]
  cursor : Nat := 0

namespace Builder

/-- The finished tree. -/
def finish (b : Builder) : Tree := ⟨b.nodes⟩

/-- Add a node at a given place. -/
def push (b : Builder) (span : Span) (kind : NodeKind) : NodeId × Builder :=
  (b.nodes.size, { b with nodes := b.nodes.push ⟨span, kind⟩ })

/-- Add a node at a given place; later leaves come after it. -/
def spanned (b : Builder) (span : Span) (kind : NodeKind) : NodeId × Builder :=
  { b with cursor := max b.cursor (span.stop + 1) }.push span kind

/-- Add a node of a given width, at least one, one offset after the previous leaf. -/
def leaf (b : Builder) (width : Nat) (kind : NodeKind) : NodeId × Builder :=
  let span : Span := ⟨b.cursor, b.cursor + max width 1⟩
  { b with cursor := span.stop + 1 }.push span kind

/-- The width of a node that has nothing below it and no text of its own. -/
def emptyWidth : Nat := 2

/-- Add a node that covers the nodes below it. -/
def composite (b : Builder) (kind : NodeKind) : Except Fault (NodeId × Builder) := do
  match ← kind.children.mapM b.finish.span with
  | [] => pure (b.leaf emptyWidth kind)
  | span :: spans => pure (b.push (spans.foldl Span.cover span) kind)

/-- Add a literal, as wide as its spelling in bytes. -/
def literal (b : Builder) (value : Literal) : NodeId × Builder :=
  b.leaf value.text.utf8ByteSize (.literal value)

/-- Add `undefined`. -/
def undefined (b : Builder) : NodeId × Builder := b.leaf 9 .undefined

/-- Add `null`. -/
def null (b : Builder) : NodeId × Builder := b.leaf 4 .null

/-- Add a use of a name. -/
def identifier (b : Builder) (name : String) : NodeId × Builder :=
  b.leaf name.utf8ByteSize (.identifier name)

/-- Add an import. -/
def importing (b : Builder) (module : String) (specifiers : List ImportSpecifier) :
    NodeId × Builder :=
  b.leaf (module.utf8ByteSize + 8) (.importing module specifiers)

/-- Add a property node for each entry. -/
def properties (b : Builder) : List (String × NodeId) → Except Fault (List NodeId × Builder)
  | [] => .ok ([], b)
  | (key, value) :: entries => do
      let (id, b) ← b.composite (.property key value)
      let (ids, b) ← b.properties entries
      pure (id :: ids, b)

/-- Add an object with a property node for each entry. -/
def object (b : Builder) (entries : List (String × NodeId)) : Except Fault (NodeId × Builder) := do
  let (ids, b) ← b.properties entries
  b.composite (.object ids)

/-- Add an element with a property node for each attribute. -/
def element (b : Builder) (tag : String) (attributes : List (String × NodeId))
    (children : List NodeId) : Except Fault (NodeId × Builder) := do
  let (ids, b) ← b.properties attributes
  b.composite (.element tag ids children)

/-- The form with its statement made visible to other documents. -/
def exportedKind : NodeKind → NodeKind
  | .constBinding name written? value _ => .constBinding name written? value true
  | .letBinding name written? value mutability _ =>
      .letBinding name written? value mutability true
  | kind => kind

/-- Make a statement visible to other documents; other nodes stay as they are. -/
def exporting (b : Builder) (statement : NodeId) : Builder :=
  { b with nodes := b.nodes.modify statement fun n => { n with kind := exportedKind n.kind } }

end Builder

end ReactiveDoc
