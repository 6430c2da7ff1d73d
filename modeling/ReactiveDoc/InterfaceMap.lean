import ReactiveDoc.Interface
import ReactiveDoc.Json.Basic
import ReactiveDoc.Ty.Text

namespace ReactiveDoc

/-!
# The interfaces of a document's nodes

* `InterfaceMap` — at most one interface for each node.  The first one recorded stays.
* `InterfaceMap.record` — record an interface and return the one now held.
* `InterfaceMap.errors` — every different error once, in the order of the source.
* `InterfaceMap.report` — a summary for people, as JSON.
-/

/-- The interfaces recorded so far, by node. -/
structure InterfaceMap where
  slots : Array (Option Interface)

namespace InterfaceMap

/-- A map without entries and with room for the first `n` nodes. -/
def ofSize (n : Nat) : InterfaceMap := ⟨Array.replicate n none⟩

instance : Inhabited InterfaceMap := ⟨ofSize 0⟩

/-- The interface of a node. -/
def get? (m : InterfaceMap) (node : NodeId) : Option Interface := m.slots[node]?.join

/-- The node has an interface. -/
def contains (m : InterfaceMap) (node : NodeId) : Bool := (m.get? node).isSome

/-- Give a node an interface unless it has one. -/
def insert (m : InterfaceMap) (node : NodeId) (interface : Interface) : InterfaceMap :=
  if m.contains node then m
  else
    let room := m.slots ++ Array.replicate (node + 1 - m.slots.size) none
    ⟨room.setIfInBounds node (some interface)⟩

/-- Give a node an interface unless it has one, and return the one it has then. -/
def record (m : InterfaceMap) (node : NodeId) (interface : Interface) : Interface × InterfaceMap :=
  match m.get? node with
  | some held => (held, m)
  | none => (interface, m.insert node interface)

/-- Record several interfaces. -/
def insertAll (m : InterfaceMap) (entries : List (NodeId × Interface)) : InterfaceMap :=
  entries.foldl (fun m (node, interface) => m.insert node interface) m

/-- The nodes that have an interface, each with it, in the order of the nodes. -/
def entries (m : InterfaceMap) : List (NodeId × Interface) :=
  m.slots.toList.zipIdx.filterMap fun (slot, node) => slot.map fun interface => (node, interface)

/-- The number of nodes that have an interface. -/
def count (m : InterfaceMap) : Nat := m.entries.length

/-- The first of each group of equal members. -/
def distinct (es : List TypeError) : List TypeError :=
  es.foldl (fun kept e => if kept.contains e then kept else kept ++ [e]) []

/-- The errors of all nodes, each different one once, ordered by place and then by node. -/
def errors (m : InterfaceMap) : List TypeError :=
  let all := m.entries.filterMap fun (_, interface) => Interface.error? interface
  distinct (all.mergeSort TypeError.before)

/-! ### Summaries -/

/-- An interface for people: its type as text, or its error as text. -/
def summary : Interface → Json
  | .ok typing => .object [
      ("dynamic", .bool typing.dynamic),
      ("mutable", match typing.mutable? with | some m => .string m.label | none => .null),
      ("type", .string typing.ty.text)]
  | .error e => .object [("error", .string e.message)]

/-- The summaries of all nodes under the names of the nodes, sorted by name. -/
def report (m : InterfaceMap) : Json :=
  .object (Json.sortedFields (m.entries.map fun (node, interface) =>
    (nodeText node, summary interface)))

end InterfaceMap

end ReactiveDoc
