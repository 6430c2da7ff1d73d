import ReactiveDoc.Syntax.Tree

namespace ReactiveDoc

/-!
# Uses of names

* `Reference` — a use of a name that the surrounding arrows do not bind.
* `Tree.references` — every such use below a node, in the order of the source.
* `Tree.freeIdentifiers` — the names used, each once, the first use first.
-/

/-- A use of a name.  A deferred one stands inside an arrow, so it is read only when the
    function runs. -/
structure Reference where
  name : String
  node : NodeId
  deferred : Bool
  deriving DecidableEq, Repr

namespace Tree

/-- The uses at and below a node of names other than `bound`. -/
def referencesWithin (t : Tree) (bound : List String) (deferred : Bool) :
    Nat → NodeId → Except Fault (List Reference)
  | 0, _ => .error .endless
  | fuel + 1, id => do
      match ← t.kind id with
      | .identifier name => pure (if bound.contains name then [] else [⟨name, id, deferred⟩])
      | .arrow params body =>
          t.referencesWithin (params.map Param.name ++ bound) true fuel body
      | kind => do
          let uses ← kind.children.mapM (t.referencesWithin bound deferred fuel)
          pure uses.flatten

/-- Every free use of a name at and below a node, in the order of the source. -/
def references (t : Tree) (id : NodeId) : Except Fault (List Reference) :=
  t.referencesWithin [] false t.depthLimit id

/-- The first of each group of equal names. -/
def distinctNames (names : List String) : List String :=
  names.foldl (fun kept name => if kept.contains name then kept else kept ++ [name]) []

/-- The names used freely at and below a node, each once, the first use first. -/
def freeIdentifiers (t : Tree) (id : NodeId) : Except Fault (List String) :=
  (t.references id).map fun uses => distinctNames (uses.map Reference.name)

end Tree

end ReactiveDoc
