import ReactiveDoc.Cache.Fragment
import ReactiveDoc.Check.Setting
import ReactiveDoc.Json.Printer
import ReactiveDoc.Syntax.Encoding
import ReactiveDoc.Syntax.Reference

namespace ReactiveDoc

/-!
# What the check of a fragment depends on

* `fragmentKey` — the options, the nodes of the fragment with their ids, what its free names
  stand for, and the type of the module that it imports, written one after the other.
-/

/-- The bytes of a text. -/
def textBytes (s : String) : List UInt8 := s.toUTF8.toList

/-- The bytes of a value's compact JSON text. -/
def jsonBytes (j : Json) : List UInt8 := textBytes j.compact

/-- A number as eight bytes, the lowest first. -/
def wordBytes (n : Nat) : List UInt8 := (List.range 8).map fun i => UInt8.ofNat (n >>> (8 * i))

/-- A typing as a record; the mutability is left out where there is none. -/
def Typing.toJson (t : Typing) : Json :=
  .object ([("ty", t.ty.toJson .plain), ("dynamic", .bool t.dynamic)]
    ++ (t.mutable?.map fun m => ("mutable", .string m.label)).toList)

/-- An interface as a variant. -/
def Interface.toJson : Interface → Json
  | .ok typing => Json.variant "Ok" typing.toJson
  | .error e => Json.variant "Err" e.toJson

/-- The bytes of a node with its id. -/
def nodeBytes (t : Tree) (id : NodeId) : Except Fault (List UInt8) :=
  (t.node id).map fun n => wordBytes id ++ jsonBytes (n.toJson .plain)

/-- The bytes of a name with what it stands for. -/
def nameBytes (env : TypeEnv) (name : String) : List UInt8 :=
  textBytes name ++
    match env.get? name with
    | some interface => jsonBytes interface.toJson
    | none => textBytes "\x00unbound"

/-- The bytes of the module that a node imports, with its type if it is known. -/
def importBytes (modules : Check.ModuleTypes) (kind : NodeKind) : List UInt8 :=
  match kind with
  | .importing path _ =>
      textBytes path ++ ((modules.lookup path).map fun ty => jsonBytes (ty.toJson .plain)).getD []
  | _ => []

/-- The key of the fragment `node` at a position, checked in an environment. -/
def fragmentKey (s : Check.Setting) (fragment : Nat) (node : NodeId) (env : TypeEnv) :
    Except Fault FragmentKey := do
  let option : UInt8 := if s.options.allowUnannotatedParams then 1 else 0
  let nodes ← (← s.tree.subtree node).mapM (nodeBytes s.tree)
  let names := (← s.tree.freeIdentifiers node).map (nameBytes env)
  let imported := importBytes s.modules (← s.tree.kind node)
  pure ⟨fragment, option :: (nodes.flatten ++ names.flatten ++ imported)⟩

end ReactiveDoc
