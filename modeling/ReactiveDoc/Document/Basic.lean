import ReactiveDoc.Json.Parser
import ReactiveDoc.Json.Printer
import ReactiveDoc.Syntax.Encoding

namespace ReactiveDoc

/-!
# Documents

* `Document` — a tree and the nodes at its top, the fragments, in the order of the source.
* `Document.parse?`, `Document.print` — documents as JSON text.
-/

/-- A parsed document: its nodes, and its top-level fragments in the order of the source. -/
structure Document where
  tree : Tree
  fragments : List NodeId

namespace Document

/-- A document as a record of its tree and its fragments. -/
def toJson (form : NumberForm) (d : Document) : Json :=
  .object [("ast", d.tree.toJson form), ("fragments", NodeKind.nodes d.fragments)]

/-- A document from its record. -/
def ofJson? (form : NumberForm) (j : Json) : Option Document := do
  let [tree, fragments] ← NodeKind.fields? ["ast", "fragments"] j | none
  some ⟨← Tree.ofJson? form tree, ← fragments.list? Json.node?⟩

/-- A document from its JSON text. -/
def parse? (text : String) : Option Document := (Json.parse? text).bind (ofJson? .plain)

/-- The JSON text of a document, over several lines. -/
def print (d : Document) : String := (d.toJson .plain).pretty

/-- The fragment at a position. -/
def fragment? (d : Document) (position : Nat) : Option NodeId := d.fragments[position]?

end Document

end ReactiveDoc
