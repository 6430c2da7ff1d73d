import ReactiveDoc.Syntax.Builder
import ReactiveDoc.Syntax.Encoding

namespace ReactiveDoc.Builder

/-!
# Calls that build trees

Hosts in other programs send what they build as calls: a name, and arguments as JSON.

* `forms` — the calls that add one node from its fields.
* `call?` — carry out a call; `none` if it is not understood.
-/

/-- Calls that add a node of one form: the name of the form, and the first of its fields where
    the call fixes them.  The arguments are the other fields. -/
def forms : List (String × String × List String) :=
  [("property", "Property", []), ("array", "Array", []), ("unary", "Unary", []),
    ("not", "Unary", ["not"]), ("type_of", "Unary", ["typeof"]), ("binary", "Binary", []),
    ("add", "Binary", ["Add"]), ("strict_eq", "Binary", ["StrictEq"]), ("logical", "Logical", []),
    ("and", "Logical", ["and"]), ("or", "Logical", ["or"]), ("conditional", "Conditional", []),
    ("member", "Member", []), ("index", "Index", []), ("call", "Call", []), ("arrow", "Arrow", []),
    ("assign", "Assignment", []), ("as_type", "As", []), ("const", "Const", []), ("let", "Let", [])]

/-- Keys with the nodes of their values. -/
def entries? (j : Json) : Option (List (String × NodeId)) :=
  j.list? fun
    | .array [.string key, node] => node.node?.map fun node => (key, node)
    | _ => none

/-- Carry out a call of one of `forms`. -/
def formCall? (form : NumberForm) (b : Builder) (name : String) (args : List Json) :
    Option (Except Fault (NodeId × Builder)) := do
  let (formName, fixed) ← forms.lookup name
  let kind ← NodeKind.ofParts? form formName (.array (fixed.map Json.string ++ args))
  some (b.composite kind)

/-- Carry out a call: the node that it adds or changes, and the builder after it. -/
def call? (form : NumberForm) (b : Builder) (name : String) (args : List Json) :
    Option (Except Fault (NodeId × Builder)) :=
  match name, args with
  | "undefined", [] => some (.ok b.undefined)
  | "null", [] => some (.ok b.null)
  | "num", [x] => (form.read x).map fun x => .ok (b.literal (.number x))
  | "str", [.string s] => some (.ok (b.literal (.string s)))
  | "bool", [.bool x] => some (.ok (b.literal (.boolean x)))
  | "literal", [j] => (Literal.ofJson? form j).map fun l => .ok (b.literal l)
  | "ident", [.string name] => some (.ok (b.identifier name))
  | "object", [entries] => (entries? entries).map b.object
  | "element", [.string tag, attributes, children] => do
      some (b.element tag (← entries? attributes) (← children.list? Json.node?))
  | "export", [node] => node.node?.map fun node => .ok (node, b.exporting node)
  | "import", [.string module, specifiers] =>
      (specifiers.list? NodeKind.specifierOfJson?).map fun ss => .ok (b.importing module ss)
  | "spanned", [start, stop, kind] => do
      let kind ← NodeKind.ofJson? form kind
      some (.ok (b.spanned ⟨← start.size?, ← stop.size?⟩ kind))
  | name, args => b.formCall? form name args

end ReactiveDoc.Builder
