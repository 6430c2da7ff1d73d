import ReactiveDoc.Check.Synthesis

namespace ReactiveDoc.Check

/-!
# Typing against an expected type

Arrays, objects, arrows and conditionals are taken apart, so that a mismatch is reported on the
innermost node that causes it.  Every other form is typed from its parts and compared.

* `checkForm` — the interface of a node where a type is expected, the node itself not recorded.
-/

variable (s : Setting) (r : Rules)

/-- The interface of a form that is not taken apart: its own, if its type is the expected one or
    below it. -/
def expectType (interface : Interface) (expected : Ty) : Interface :=
  match interface with
  | .error e => .error e
  | .ok typing =>
      if typing.ty.isSubtype expected then .ok typing
      else .error (.typeMismatch expected typing.ty)

/-! ### Arrays -/

/-- An array where a tuple is expected needs one element for each item. -/
def checkTuple (elements : List NodeId) (env : TypeEnv) (items : List Ty) : CheckM Interface := do
  if elements.length = items.length then
    let checked ← (elements.zip items).mapM fun (element, item) => r.check element env item
    pure (.ok { ty := .tuple items, dynamic := checked.any Interface.dynamic })
  else
    visitAll r elements env
    pure (.error { kind := .tupleLength items.length elements.length })

/-! ### Objects -/

/-- The keys of an object so far, and the first repeated property. -/
structure CheckedKeys where
  keys : List String := []
  dynamic : Bool := false
  duplicate? : Option TypeError := none

/-- Check a property against the field of its name; one that repeats a key is an error. -/
def checkProperty (env : TypeEnv) (fields : List (Field Ty)) (seen : CheckedKeys)
    (property : NodeId) : CheckM CheckedKeys := do
  match ← kindOf s property with
  | .property key value =>
      if seen.keys.contains key then
        let _ ← r.synth value env
        let e := ({ kind := .duplicateProperty key } : TypeError).placedAt (← s.tree.span property)
        mark s property (.error e)
        pure { seen with duplicate? := seen.duplicate?.orElse fun _ => some e }
      else
        let value ← match fields.find? fun f => f.name == key with
          | some field => r.check value env field.ty
          | none => r.synth value env
        let value ← record s property (value.map Typing.read)
        pure { seen with keys := key :: seen.keys, dynamic := seen.dynamic || value.dynamic }
  | _ =>
      mark s property (.error { kind := .notAnExpression })
      pure seen

/-- The first field that no key provides and that does not admit `undefined`. -/
def missingField? (fields : List (Field Ty)) (keys : List String) : Option (Field Ty) :=
  fields.find? fun f => !(keys.contains f.name) && !(Ty.undefined.isSubtype f.ty)

/-- An object where an object type is expected needs every field that does not admit
    `undefined`. -/
def checkObject (properties : List NodeId) (env : TypeEnv) (fields : List (Field Ty)) :
    CheckM Interface := do
  let seen ← properties.foldlM (checkProperty s r env fields) {}
  pure <| match seen.duplicate?, missingField? fields seen.keys with
    | some e, _ => .error e
    | none, some field => .error { kind := .missingField field.name field.ty.text }
    | none, none => .ok { ty := .object fields, dynamic := seen.dynamic }

/-! ### Arrows -/

/-- The type of a parameter of which a type is expected: the declared one, if there is one. -/
def parameterType (param : Param) (expected : Ty) : Ty :=
  (param.written?.map WrittenType.resolve).getD expected

/-- The first declared parameter that does not admit what is expected of it. -/
def parameterMismatch? (params : List Param) (expected : List Ty) : Option TypeError :=
  (params.zip expected).findSome? fun (param, expected) =>
    let declared := parameterType param expected
    if param.written?.isSome && !(expected.isSubtype declared) then
      some (.typeMismatch declared expected)
    else none

/-- An arrow where a function is expected takes the types of its parameters from there. -/
def checkArrow (node : NodeId) (params : List Param) (body : NodeId) (env : TypeEnv)
    (expected : List Ty) (result : Ty) : CheckM Interface := do
  if params.length = expected.length then
    let types := (params.zip expected).map fun (param, expected) => parameterType param expected
    let body ← r.check body (bodyEnv env params types) result
    pure <| match parameterMismatch? params expected with
      | some e => .error e
      | none => .ok { ty := .function types result, dynamic := body.dynamic }
  else
    let _ ← synthForm s r node env
    pure (.error (.arityMismatch expected.length params.length))

/-! ### Conditionals -/

/-- Whether a conditional changes over time: its test does, or a branch that may be taken. -/
def conditionalDynamic (test consequent alternate : Interface) : Bool :=
  let (dynamic, truth) := testOutcome test
  dynamic ||
    match truth with
    | some true => consequent.dynamic
    | some false => alternate.dynamic
    | none => consequent.dynamic || alternate.dynamic

/-- Both branches of a conditional are checked against what is expected of it. -/
def checkConditional (test consequent alternate : NodeId) (env : TypeEnv) (expected : Ty) :
    CheckM Interface := do
  let testInterface ← r.synth test env
  let whenTrue ← r.narrow env test true
  let whenFalse ← r.narrow env test false
  let consequent ← r.check consequent whenTrue expected
  let alternate ← r.check alternate whenFalse expected
  pure (.ok { ty := expected, dynamic := conditionalDynamic testInterface consequent alternate })

/-! ### All forms -/

/-- The interface of a node where `expected` is expected.  The parts are recorded, the node is
    not. -/
def checkForm (node : NodeId) (env : TypeEnv) (expected : Ty) : CheckM Interface := do
  match ← kindOf s node, expected with
  | .array elements, .tuple items => checkTuple r elements env items
  | .array elements, .array item =>
      let checked ← elements.mapM fun e => r.check e env item
      pure (.ok { ty := .array item, dynamic := checked.any Interface.dynamic })
  | .object properties, .object fields => checkObject s r properties env fields
  | .arrow params body, .function types result => checkArrow s r node params body env types result
  | .conditional test consequent alternate, _ =>
      checkConditional r test consequent alternate env expected
  | _, _ => return expectType (← synthForm s r node env) expected

/-- The interface of a node where `expected` is expected: the recorded one if there is one. -/
def checkNode (node : NodeId) (env : TypeEnv) (expected : Ty) : CheckM Interface := do
  match (← get).get? node with
  | some held => pure held
  | none => record s node (← checkForm s r node env expected)

end ReactiveDoc.Check
