import ReactiveDoc.Fault
import ReactiveDoc.Syntax.WrittenType
import ReactiveDoc.Syntax.Operator

namespace ReactiveDoc

/-!
# Syntax trees

A document arrives parsed, as a list of nodes that refer to each other by position.

* `NodeKind` — the forms of expressions and statements.
* `Tree` — the nodes of one document.
* `NodeKind.children`, `Tree.subtree` — the nodes below a node, in the order of evaluation.
-/

/-- A parameter of an arrow. -/
structure Param where
  name : String
  written? : Option WrittenType

/-- One name taken from a module, and the name it gets. -/
structure ImportSpecifier where
  imported : String
  bound : String

/-- The forms of nodes: expressions, then properties, then the three statements. -/
inductive NodeKind where
  | undefined
  | null
  | literal (value : Literal)
  | identifier (name : String)
  | object (properties : List NodeId)
  | array (elements : List NodeId)
  | unary (op : UnaryOp) (argument : NodeId)
  | binary (op : BinaryOp) (left right : NodeId)
  | logical (op : LogicalOp) (left right : NodeId)
  | conditional (test consequent alternate : NodeId)
  | member (object : NodeId) (property : String)
  | index (object index : NodeId)
  | call (callee : NodeId) (arguments : List NodeId)
  | arrow (params : List Param) (body : NodeId)
  | assignment (target value : NodeId)
  | element (tag : String) (attributes children : List NodeId)
  | ascription (expression : NodeId) (written : WrittenType)
  | property (key : String) (value : NodeId)
  | constBinding (name : String) (written? : Option WrittenType) (value : NodeId)
      (exported : Bool)
  | letBinding (name : String) (written? : Option WrittenType) (value : NodeId)
      (mutability : Mutability) (exported : Bool)
  | importing (module : String) (specifiers : List ImportSpecifier)

namespace NodeKind

/-- Statements stand at the top of a document only. -/
def isStatement : NodeKind → Bool
  | constBinding .. | letBinding .. | importing .. => true
  | _ => false

/-- The nodes directly below a node, in the order of evaluation. -/
def children : NodeKind → List NodeId
  | undefined | null | literal _ | identifier _ | importing _ _ => []
  | object ids | array ids => ids
  | unary _ id | member id _ | arrow _ id | ascription id _ | property _ id => [id]
  | binary _ left right | logical _ left right => [left, right]
  | conditional test consequent alternate => [test, consequent, alternate]
  | index base position => [base, position]
  | call callee arguments => callee :: arguments
  | assignment target value => [target, value]
  | element _ attributes children => attributes ++ children
  | constBinding _ _ value _ | letBinding _ _ value _ _ => [value]

/-- The name that a `const` or `let` statement binds. -/
def bindingName? : NodeKind → Option String
  | constBinding name .. | letBinding name .. => some name
  | _ => none

/-- The names that a statement brings into scope. -/
def definedNames : NodeKind → List String
  | constBinding name .. | letBinding name .. => [name]
  | importing _ specifiers => specifiers.map ImportSpecifier.bound
  | _ => []

/-- A `const` or `let` statement with an annotation. -/
def isAnnotatedBinding : NodeKind → Bool
  | constBinding _ (some _) .. | letBinding _ (some _) .. => true
  | _ => false

/-- The name of a statement that other documents may import. -/
def exportedName? : NodeKind → Option String
  | constBinding name _ _ true | letBinding name _ _ _ true => some name
  | _ => none

/-- The forms that can be assigned to. -/
def isPlace : NodeKind → Bool
  | identifier _ | member .. | index .. => true
  | _ => false

end NodeKind

/-- A node with its place in the source. -/
structure Node where
  span : Span
  kind : NodeKind

instance : Inhabited Node := ⟨⟨default, .undefined⟩⟩

/-- The nodes of one document; a node's id is its position. -/
structure Tree where
  nodes : Array Node

namespace Tree

instance : Inhabited Tree := ⟨⟨#[]⟩⟩

/-- The number of nodes. -/
def size (t : Tree) : Nat := t.nodes.size

/-- A node, or a fault if the tree does not have it. -/
def node (t : Tree) (id : NodeId) : Except Fault Node :=
  match t.nodes[id]? with
  | some node => .ok node
  | none => .error (.missingNode id)

/-- The form of a node. -/
def kind (t : Tree) (id : NodeId) : Except Fault NodeKind := (t.node id).map Node.kind

/-- The place of a node. -/
def span (t : Tree) (id : NodeId) : Except Fault Span := (t.node id).map Node.span

/-- The nodes directly below a node. -/
def children (t : Tree) (id : NodeId) : Except Fault (List NodeId) :=
  (t.kind id).map NodeKind.children

/-- Every chain of nodes in which each is below the one before has at most this length, unless
    the nodes run in a circle. -/
def depthLimit (t : Tree) : Nat := t.size + 1

/-- The nodes at and below `root`, `root` first, each before the nodes below it. -/
def subtreeWithin (t : Tree) : Nat → NodeId → Except Fault (List NodeId)
  | 0, _ => .error .endless
  | fuel + 1, root => do
      let below ← (← t.children root).mapM (t.subtreeWithin fuel)
      pure (root :: below.flatten)

/-- The nodes at and below `root`, `root` first, each before the nodes below it. -/
def subtree (t : Tree) (root : NodeId) : Except Fault (List NodeId) :=
  t.subtreeWithin t.depthLimit root

end Tree

end ReactiveDoc
