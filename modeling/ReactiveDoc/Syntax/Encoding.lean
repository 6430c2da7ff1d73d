import ReactiveDoc.Json.Shape
import ReactiveDoc.Syntax.Tree
import ReactiveDoc.Ty.Encoding

namespace ReactiveDoc

/-!
# Syntax trees as JSON

Writing and reading take the form of numbers as a parameter, like types do.

* `WrittenType.toJson`, `WrittenType.ofJson?` — a name under `type`, its arguments under `of`.
* `NodeKind.toJson`, `NodeKind.ofJson?` — a record with the form's name under `node`.
* `Tree.toJson`, `Tree.ofJson?` — the list of nodes.
-/

open Json (entries? entryOr Presence Manner tagged? adjacent? empty?)

/-! ### Operators and mutability -/

namespace UnaryOp

/-- The written name of an operator. -/
def name : UnaryOp → String
  | not => "not"
  | neg => "neg"
  | plus => "plus"
  | typeof => "typeof"

/-- The operator of a written name. -/
def ofName? (name : String) : Option UnaryOp := [not, neg, plus, typeof].find? fun op => op.name == name

end UnaryOp

namespace BinaryOp

/-- The written name of an operator. -/
def name : BinaryOp → String
  | add => "Add"
  | sub => "Sub"
  | mul => "Mul"
  | div => "Div"
  | rem => "Rem"
  | strictEq => "StrictEq"
  | strictNe => "StrictNe"
  | eq => "Eq"
  | ne => "Ne"
  | lt => "Lt"
  | le => "Le"
  | gt => "Gt"
  | ge => "Ge"

/-- The operator of a written name. -/
def ofName? (name : String) : Option BinaryOp :=
  [add, sub, mul, div, rem, strictEq, strictNe, eq, ne, lt, le, gt, ge].find? fun op => op.name == name

end BinaryOp

namespace LogicalOp

/-- The written name of an operator. -/
def name : LogicalOp → String
  | and => "and"
  | or => "or"

/-- The operator of a written name. -/
def ofName? (name : String) : Option LogicalOp := [and, or].find? fun op => op.name == name

end LogicalOp

/-! ### Annotations -/

namespace WrittenType

/-- An annotation with arguments. -/
def withArgs (type : String) (args : Json) : Json := .object [("type", .string type), ("of", args)]

/-- An annotation without arguments. -/
def bare (type : String) : Json := .object [("type", .string type)]

mutual

/-- An annotation as a record of its name and its arguments. -/
def toJson (form : NumberForm) : WrittenType → Json
  | never => bare "Never"
  | unknown => bare "Unknown"
  | undefined => bare "Undefined"
  | null => bare "Null"
  | boolean => bare "Boolean"
  | number => bare "Number"
  | string => bare "String"
  | literal value => withArgs "Literal" (value.toJson form)
  | array item => withArgs "Array" (item.toJson form)
  | tuple items => withArgs "Tuple" (.array (toJsonList form items))
  | object fields => withArgs "Object" (.array (toJsonFields form fields))
  | function params result =>
      withArgs "Function" (.array [.array (toJsonList form params), result.toJson form])
  | union arms => withArgs "Union" (.array (toJsonList form arms))
  | intersection arms => withArgs "Intersection" (.array (toJsonList form arms))
  | reference label args =>
      withArgs "Reference" (.array [.string label, .array (toJsonList form args)])

/-- Several annotations as JSON. -/
def toJsonList (form : NumberForm) : List WrittenType → List Json
  | [] => []
  | a :: as => a.toJson form :: toJsonList form as

/-- Annotated fields as records. -/
def toJsonFields (form : NumberForm) : List (WrittenField WrittenType) → List Json
  | [] => []
  | ⟨name, written, isOptional⟩ :: fs =>
      .object [("name", .string name), ("annotation", written.toJson form),
        ("optional", .bool isOptional)] :: toJsonFields form fs

end

/-- The annotations without arguments, by name. -/
def ofBareName? : String → Option WrittenType
  | "Never" => some never
  | "Unknown" => some unknown
  | "Undefined" => some undefined
  | "Null" => some null
  | "Boolean" => some boolean
  | "Number" => some number
  | "String" => some string
  | _ => none

/-- An annotated field from its record; it is not optional unless that is said. -/
def fieldOfJson? (read : Json → Option WrittenType) (j : Json) :
    Option (WrittenField WrittenType) := do
  let [some name, some written, isOptional] ← entries?
    [("name", .required), ("annotation", .required), ("optional", .defaulted)] j | none
  some ⟨← name.string?, ← read written, ← entryOr false Json.bool? isOptional⟩

/-- An annotation with arguments from its name and them, its parts read by `read`. -/
def ofArgs? (form : NumberForm) (read : Json → Option WrittenType) (name : String) (args : Json) :
    Option WrittenType :=
  match name with
  | "Literal" => (Literal.ofJson? form args).map literal
  | "Array" => (read args).map array
  | "Tuple" => (args.list? read).map tuple
  | "Object" => (args.list? (fieldOfJson? read)).map object
  | "Function" => do
      let .array [params, result] := args | none
      some (function (← params.list? read) (← read result))
  | "Union" => (args.list? read).map union
  | "Intersection" => (args.list? read).map intersection
  | "Reference" => do
      let .array [label, args] := args | none
      some (reference (← label.string?) (← args.list? read))
  | _ => none

/-- The names of all annotations. -/
def names : List String :=
  ["Never", "Unknown", "Undefined", "Null", "Boolean", "Number", "String", "Literal", "Array",
    "Tuple", "Object", "Function", "Union", "Intersection", "Reference"]

/-- An annotation from a value that nests less than `fuel`. -/
def ofJsonWithin? (form : NumberForm) : Nat → Manner → Json → Option WrittenType
  | 0, _, _ => none
  | fuel + 1, manner, j => do
      let (name, args) ← adjacent? manner names "type" "of" j
      match ofBareName? name with
      | some a => (empty? .exact (args.map Prod.snd)).map fun _ => a
      | none => do
          let (manner, args) ← args
          ofArgs? form (ofJsonWithin? form fuel manner) name args

/-- An annotation from its written form. -/
def ofJson? (form : NumberForm) (manner : Manner) (j : Json) : Option WrittenType :=
  ofJsonWithin? form (j.depth + 1) manner j

end WrittenType

/-! ### Nodes -/

/-- The largest position that can be written for a node. -/
def maxNodeId : Nat := UInt32.size - 1

/-- A reference to a node. -/
def Json.node? : Json → Option NodeId := Json.natural? maxNodeId

namespace NodeKind

/-- References to several nodes. -/
def nodes (ids : List NodeId) : Json := .array (ids.map .ofNat)

/-- An annotation that may be missing. -/
def writtenJson (form : NumberForm) : Option WrittenType → Json := .ofOption (WrittenType.toJson form)

/-- A parameter as a record. -/
def paramJson (form : NumberForm) (p : Param) : Json :=
  .object [("name", .string p.name), ("annotation", writtenJson form p.written?)]

/-- A taken name as a record. -/
def specifierJson (s : ImportSpecifier) : Json :=
  .object [("imported", .string s.imported), ("local", .string s.bound)]

/-- The name of a form and its fields. -/
def parts (form : NumberForm) : NodeKind → String × List (String × Json)
  | undefined => ("Undefined", [])
  | null => ("Null", [])
  | literal value => ("Literal", [("value", value.toJson form)])
  | identifier name => ("Identifier", [("name", .string name)])
  | object properties => ("Object", [("properties", nodes properties)])
  | property key value => ("Property", [("key", .string key), ("value", .ofNat value)])
  | array elements => ("Array", [("elements", nodes elements)])
  | unary op argument => ("Unary", [("op", .string op.name), ("argument", .ofNat argument)])
  | binary op left right =>
      ("Binary", [("op", .string op.name), ("left", .ofNat left), ("right", .ofNat right)])
  | logical op left right =>
      ("Logical", [("op", .string op.name), ("left", .ofNat left), ("right", .ofNat right)])
  | conditional test consequent alternate =>
      ("Conditional",
        [("test", .ofNat test), ("consequent", .ofNat consequent), ("alternate", .ofNat alternate)])
  | member base name => ("Member", [("object", .ofNat base), ("property", .string name)])
  | index base position => ("Index", [("object", .ofNat base), ("index", .ofNat position)])
  | call callee arguments => ("Call", [("callee", .ofNat callee), ("arguments", nodes arguments)])
  | arrow params body =>
      ("Arrow", [("params", .array (params.map (paramJson form))), ("body", .ofNat body)])
  | assignment target value =>
      ("Assignment", [("target", .ofNat target), ("value", .ofNat value)])
  | element tag attributes children =>
      ("Element",
        [("tag", .string tag), ("attributes", nodes attributes), ("children", nodes children)])
  | ascription expression written =>
      ("As", [("expression", .ofNat expression), ("annotation", written.toJson form)])
  | constBinding name written? value exported =>
      ("Const", [("name", .string name), ("annotation", writtenJson form written?),
        ("value", .ofNat value), ("exported", .bool exported)])
  | letBinding name written? value mutability exported =>
      ("Let", [("name", .string name), ("annotation", writtenJson form written?),
        ("value", .ofNat value), ("mutability", .string mutability.label),
        ("exported", .bool exported)])
  | importing module specifiers =>
      ("Import", [("module", .string module), ("specifiers", .array (specifiers.map specifierJson))])

/-- A form as a record with its name under `node`. -/
def toJson (form : NumberForm) (kind : NodeKind) : Json :=
  let (name, fields) := kind.parts form
  .object (("node", .string name) :: fields)

/-- An annotation among the fields of a form. -/
def writtenOfJson? (form : NumberForm) : Json → Option WrittenType := WrittenType.ofJson? form .loose

/-- A parameter from its record; the annotation may be missing. -/
def paramOfJson? (form : NumberForm) (j : Json) : Option Param := do
  let [some name, written] ← entries? [("name", .required), ("annotation", .defaulted)] j | none
  some ⟨← name.string?, ← entryOr none (Json.optional? (writtenOfJson? form)) written⟩

/-- A taken name from its record. -/
def specifierOfJson? (j : Json) : Option ImportSpecifier := do
  let [some imported, some bound] ← entries? [("imported", .required), ("local", .required)] j | none
  some ⟨← imported.string?, ← bound.string?⟩

/-- The required fields of a form. -/
def fields? (names : List String) (j : Json) : Option (List Json) := do
  let found ← entries? (names.map fun name => (name, Presence.required)) j
  found.mapM id

/-- A form from its name and the record of its fields. -/
def ofParts? (form : NumberForm) (name : String) (j : Json) : Option NodeKind :=
  match name with
  | "Undefined" => (fields? [] j).map fun _ => undefined
  | "Null" => (fields? [] j).map fun _ => null
  | "Literal" => do
      let [value] ← fields? ["value"] j | none
      some (literal (← Literal.ofJson? form value))
  | "Identifier" => do
      let [name] ← fields? ["name"] j | none
      some (identifier (← name.string?))
  | "Object" => do
      let [properties] ← fields? ["properties"] j | none
      some (object (← properties.list? Json.node?))
  | "Property" => do
      let [key, value] ← fields? ["key", "value"] j | none
      some (property (← key.string?) (← value.node?))
  | "Array" => do
      let [elements] ← fields? ["elements"] j | none
      some (array (← elements.list? Json.node?))
  | "Unary" => do
      let [op, argument] ← fields? ["op", "argument"] j | none
      some (unary (← (op.name? .loose).bind UnaryOp.ofName?) (← argument.node?))
  | "Binary" => do
      let [op, left, right] ← fields? ["op", "left", "right"] j | none
      some (binary (← (op.name? .loose).bind BinaryOp.ofName?) (← left.node?) (← right.node?))
  | "Logical" => do
      let [op, left, right] ← fields? ["op", "left", "right"] j | none
      some (logical (← (op.name? .loose).bind LogicalOp.ofName?) (← left.node?) (← right.node?))
  | "Conditional" => do
      let [test, consequent, alternate] ← fields? ["test", "consequent", "alternate"] j | none
      some (conditional (← test.node?) (← consequent.node?) (← alternate.node?))
  | "Member" => do
      let [base, name] ← fields? ["object", "property"] j | none
      some (member (← base.node?) (← name.string?))
  | "Index" => do
      let [base, position] ← fields? ["object", "index"] j | none
      some (index (← base.node?) (← position.node?))
  | "Call" => do
      let [callee, arguments] ← fields? ["callee", "arguments"] j | none
      some (call (← callee.node?) (← arguments.list? Json.node?))
  | "Arrow" => do
      let [params, body] ← fields? ["params", "body"] j | none
      some (arrow (← params.list? (paramOfJson? form)) (← body.node?))
  | "Assignment" => do
      let [target, value] ← fields? ["target", "value"] j | none
      some (assignment (← target.node?) (← value.node?))
  | "Element" => do
      let [tag, attributes, children] ← fields? ["tag", "attributes", "children"] j | none
      some (element (← tag.string?) (← attributes.list? Json.node?) (← children.list? Json.node?))
  | "As" => do
      let [expression, written] ← fields? ["expression", "annotation"] j | none
      some (ascription (← expression.node?) (← writtenOfJson? form written))
  | "Const" => do
      let [some name, written, some value, exported] ← entries?
        [("name", .required), ("annotation", .defaulted), ("value", .required),
          ("exported", .defaulted)] j | none
      some (constBinding (← name.string?)
        (← entryOr none (Json.optional? (writtenOfJson? form)) written)
        (← value.node?) (← entryOr false Json.bool? exported))
  | "Let" => do
      let [some name, written, some value, some mutability, exported] ← entries?
        [("name", .required), ("annotation", .defaulted), ("value", .required),
          ("mutability", .required), ("exported", .defaulted)] j | none
      some (letBinding (← name.string?)
        (← entryOr none (Json.optional? (writtenOfJson? form)) written)
        (← value.node?) (← (mutability.name? .loose).bind Mutability.ofLabel?)
        (← entryOr false Json.bool? exported))
  | "Import" => do
      let [module, specifiers] ← fields? ["module", "specifiers"] j | none
      some (importing (← module.string?) (← specifiers.list? specifierOfJson?))
  | _ => none

/-- A form from its written form. -/
def ofJson? (form : NumberForm) (j : Json) : Option NodeKind := do
  let (name, fields) ← tagged? "node" j
  ofParts? form name fields

end NodeKind

/-! ### Trees -/

namespace Node

/-- A node as a record of its place and its form. -/
def toJson (form : NumberForm) (n : Node) : Json :=
  .object [("span", n.span.toJson), ("kind", n.kind.toJson form)]

/-- A node from its record. -/
def ofJson? (form : NumberForm) (j : Json) : Option Node := do
  let [span, kind] ← NodeKind.fields? ["span", "kind"] j | none
  some ⟨← Span.ofJson? span, ← NodeKind.ofJson? form kind⟩

end Node

namespace Tree

/-- A tree as a record of its nodes. -/
def toJson (form : NumberForm) (t : Tree) : Json :=
  .object [("nodes", .array (t.nodes.toList.map (Node.toJson form)))]

/-- A tree from its record. -/
def ofJson? (form : NumberForm) (j : Json) : Option Tree := do
  let [nodes] ← NodeKind.fields? ["nodes"] j | none
  some ⟨(← nodes.list? (Node.ofJson? form)).toArray⟩

end Tree

end ReactiveDoc
