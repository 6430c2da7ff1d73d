import ReactiveDoc.InterfaceMap
import ReactiveDoc.Syntax.Tree

namespace ReactiveDoc.Check

/-!
# What checking reads and what it writes

* `Setting` — the tree, the types of the modules it may import, and the options.
* `CheckM` — a computation that records interfaces; only a fault stops it.
* `record`, `mark` — record an interface; an error without a place gets the node's.
* `Rules` — the three judgements that the rules of each form of expression call.
-/

/-- Options of the checker. -/
structure Options where
  /-- Parameters without annotation have the type `unknown` instead of being errors. -/
  allowUnannotatedParams : Bool := false
  deriving DecidableEq, Repr

/-- The types of modules by path. -/
abbrev ModuleTypes := List (String × Ty)

/-- Everything that stays the same while a tree is checked. -/
structure Setting where
  tree : Tree
  modules : ModuleTypes := []
  options : Options := {}

/-- A computation that records interfaces. -/
abbrev CheckM := StateT InterfaceMap (Except Fault)

variable (s : Setting)

/-- The form of a node. -/
def kindOf (node : NodeId) : CheckM NodeKind := s.tree.kind node

/-- An interface whose error, if it has no place yet, is placed at the node. -/
def located (node : NodeId) (interface : Interface) : CheckM Interface := do
  let span ← s.tree.span node
  pure (interface.mapError fun e => e.located span)

/-- Record an interface for a node and return the one it has then. -/
def record (node : NodeId) (interface : Interface) : CheckM Interface := do
  let interface ← located s node interface
  modifyGet fun m => m.record node interface

/-- Record an interface for a node. -/
def mark (node : NodeId) (interface : Interface) : CheckM Unit := do
  let _ ← record s node interface
  pure ()

/-- The judgements on nodes.  The rules of each form take them as parameters and apply them to
    the nodes below. -/
structure Rules where
  /-- The interface that follows from the node's parts. -/
  synth : NodeId → TypeEnv → CheckM Interface
  /-- The interface of a node where a type is expected. -/
  check : NodeId → TypeEnv → Ty → CheckM Interface
  /-- What is known where a test has come out true or false. -/
  narrow : TypeEnv → NodeId → Bool → CheckM TypeEnv

end ReactiveDoc.Check
