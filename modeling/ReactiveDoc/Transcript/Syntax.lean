import ReactiveDoc.Interface
import ReactiveDoc.Syntax.Encoding
import ReactiveDoc.Syntax.Reference

namespace ReactiveDoc

/-!
# Transcripts of types and nodes

* `Ty.transcript` — what can be told from a type alone.
* `Tree.nodeTranscript` — what can be told about a node from the tree alone.
-/

/-- What can be told from a type alone; `cell` is the mutability and the content of a cell. -/
def Ty.transcript (form : NumberForm) (t : Ty) : Json :=
  .object [("truthiness", .ofOption .bool t.truthiness), ("typeof", .ofOption .string t.typeofName),
    ("literal", .ofOption (Literal.toJson form) t.literal?),
    ("fields", .array (t.fieldNames.map .string)), ("is_error", .bool t.isError),
    ("is_never", .bool t.isNever),
    ("cell", .ofOption (fun (m, ty) => .array [.string m.label, ty.toJson form]) (cell? t))]

/-- A use of a name. -/
def Reference.transcript (u : Reference) : Json :=
  .array [.string u.name, .ofNat u.node, .bool u.deferred]

/-- What can be told about a node from the tree alone: the size of the tree as the list of its
    nodes, the node's place and form, and the names it binds and uses. -/
def Tree.nodeTranscript (t : Tree) (id : NodeId) : Except Fault Json := do
  let kind ← t.kind id
  let span ← t.span id
  let subtree ← t.subtree id
  let free ← t.freeIdentifiers id
  let references ← t.references id
  let nodes (ids : List NodeId) : Json := .array (ids.map .ofNat)
  let names (ns : List String) : Json := .array (ns.map .string)
  return .object [("id", .string (nodeText id)), ("span", span.toJson),
    ("ids", nodes (List.range t.size)), ("empty", .bool (t.size == 0)),
    ("present", .bool (id < t.size)), ("children", nodes kind.children),
    ("subtree", nodes subtree), ("statement", .bool kind.isStatement),
    ("binding", .ofOption .string kind.bindingName?), ("defined", names kind.definedNames),
    ("free", names free),
    ("references", .array (references.map Reference.transcript))]

end ReactiveDoc
