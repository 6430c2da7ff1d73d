import ReactiveDoc.Check.Narrowing
import ReactiveDoc.Check.Operators

namespace ReactiveDoc.Check

/-!
# Typing from the parts

The rule of each form of expression when nothing is expected of it.  A failed operand is left out
where the rest still has a meaning, so that one mistake is reported once.

* `synthForm` — the interface of a node, its parts recorded but not the node itself.
* `bodyEnv` — the environment of an arrow's body, in which cells are read once a call.
-/

variable (s : Setting) (r : Rules)

/-- Record the interfaces at and below several nodes. -/
def visitAll (nodes : List NodeId) (env : TypeEnv) : CheckM Unit :=
  nodes.forM fun node => do let _ ← r.synth node env

/-! ### Names -/

/-- The interface of a name.  A cell reads as its contents; an unknown name is reported with the
    names in scope that are spelled alike. -/
def nameInterface (name : String) (env : TypeEnv) : Interface :=
  match env.get? name with
  | some (.ok typing) => .ok typing.contents
  | some (.error e) => .error e
  | none =>
      .error (.unboundIdentifier name (Text.closeNames name env.names TypeError.hintDistance))

/-! ### Objects and arrays -/

/-- The fields of an object so far, and the first repeated property. -/
structure ObjectParts where
  fields : List (Field Ty) := []
  dynamic : Bool := false
  duplicate? : Option TypeError := none

/-- Add a property; one that repeats a key is an error and is not added. -/
def addProperty (env : TypeEnv) (parts : ObjectParts) (property : NodeId) :
    CheckM ObjectParts := do
  match ← kindOf s property with
  | .property key value =>
      let value ← r.synth value env
      if parts.fields.any fun f => f.name == key then
        let e := ({ kind := .duplicateProperty key } : TypeError).placedAt (← s.tree.span property)
        mark s property (.error e)
        pure { parts with duplicate? := parts.duplicate?.orElse fun _ => some e }
      else
        let value ← record s property (value.map Typing.read)
        pure { parts with
          fields := parts.fields ++ [⟨key, value.ty⟩], dynamic := parts.dynamic || value.dynamic }
  | _ =>
      mark s property (.error { kind := .notAnExpression })
      pure parts

/-- An object has the fields of its properties. -/
def synthObject (properties : List NodeId) (env : TypeEnv) : CheckM Interface := do
  let parts ← properties.foldlM (addProperty s r env) {}
  pure <| match parts.duplicate? with
    | some e => .error e
    | none => .ok { ty := .object parts.fields, dynamic := parts.dynamic }

/-- The typing of an array: its items have the union of the widened types. -/
def arrayTyping (items : List Interface) : Typing :=
  { ty := .array (Ty.unionOf (items.map fun i => i.ty.widen)), dynamic := items.any Interface.dynamic }

/-! ### Operators -/

/-- The interface of an operation with one operand. -/
def unaryInterface (op : UnaryOp) (argument : Interface) : Interface :=
  (unaryType op argument.ty).map fun ty => { ty, dynamic := argument.dynamic }

/-- The interface of an operation with two operands; a failed one lets the other through. -/
def binaryInterface (op : BinaryOp) (left right : Interface) : Interface :=
  match left, right with
  | .ok l, .ok r => (binaryType op l.ty r.ty).map fun ty => { ty, dynamic := l.dynamic || r.dynamic }
  | .error _, .ok other | .ok other, .error _ => .ok other.read
  | .error e, .error _ => .error e

/-- The truth at which a logical operator stops at its left operand. -/
def stopsAt : LogicalOp → Bool
  | .and => false
  | .or => true

/-- The interface of a logical operation.  Where the left operand's truth is known, only one
    operand counts; otherwise the result is the right one or what stops the left one. -/
def logicalInterface (op : LogicalOp) (left right : Interface) : Interface :=
  match left with
  | .error _ => right.map Typing.read
  | .ok left =>
      let left := left.read
      match left.ty.truthiness, right with
      | some truth, right =>
          if truth = stopsAt op then .ok left
          else
            match right with
            | .ok right => .ok { ty := right.ty, dynamic := left.dynamic || right.dynamic }
            | .error _ => .ok left
      | none, .error _ => .ok left
      | none, .ok right =>
          let kept := match op with | .and => Ty.notTruthy | .or => Ty.notFalsy
          .ok { ty := Ty.unionOf [left.ty.narrow kept, right.ty]
                dynamic := left.dynamic || right.dynamic }

/-- The right operand is checked where the left one did not stop the operation. -/
def synthLogical (op : LogicalOp) (left right : NodeId) (env : TypeEnv) : CheckM Interface := do
  let leftInterface ← r.synth left env
  let narrowed ← r.narrow env left (op = .and)
  pure (logicalInterface op leftInterface (← r.synth right narrowed))

/-! ### Conditionals -/

/-- Whether a test changes over time, and its truth where that is known. -/
def testOutcome : Interface → Bool × Option Bool
  | .ok test => (test.dynamic, test.ty.truthiness)
  | .error _ => (false, none)

/-- The interface of a conditional: of the branch that is taken where the test is known, else the
    union of both, a failed branch left out. -/
def conditionalInterface (test consequent alternate : Interface) : Interface :=
  let (dynamic, truth) := testOutcome test
  let withTest (t : Typing) : Typing := { t.read with dynamic := t.dynamic || dynamic }
  match truth with
  | some true => consequent.map withTest
  | some false => alternate.map withTest
  | none =>
      match consequent, alternate with
      | .ok c, .ok a =>
          .ok { ty := Ty.unionOf [c.ty, a.ty], dynamic := c.dynamic || a.dynamic || dynamic }
      | .ok branch, .error _ | .error _, .ok branch => .ok (withTest branch)
      | .error e, .error _ => .error e

/-- Each branch is checked under what the test says. -/
def synthConditional (test consequent alternate : NodeId) (env : TypeEnv) : CheckM Interface := do
  let testInterface ← r.synth test env
  let whenTrue ← r.narrow env test true
  let whenFalse ← r.narrow env test false
  let consequent ← r.synth consequent whenTrue
  let alternate ← r.synth alternate whenFalse
  pure (conditionalInterface testInterface consequent alternate)

/-! ### Fields and indices -/

/-- The interface of a field of an object. -/
def memberInterface (object : Interface) (name : String) : Interface := do
  let object ← object
  let access ← memberType object.ty name
  pure { ty := access.ty, dynamic := object.dynamic || access.dynamic,
         mutable? := access.mutable?.orElse fun _ => object.mutable? }

/-- The interface of an element at an index. -/
def indexInterface (object index : Interface) : Interface := do
  let object ← object
  let index ← index
  let ty ← indexType object.ty index.ty
  pure { ty, dynamic := object.dynamic || index.dynamic, mutable? := object.mutable? }

/-! ### Calls -/

/-- The result of the first function among several types that takes the arguments. -/
def chooseResult? (arms args : List Ty) : Option Ty :=
  arms.findSome? fun
    | .function params result => if Ty.isSubtypeList args params then some result else none
    | _ => none

/-- The interface of a call of one of several functions. -/
def overloadInterface (callee : Typing) (arms : List Ty) (arguments : List Interface) : Interface :=
  let args := arguments.map Interface.ty
  match chooseResult? arms args with
  | some ty => .ok { ty, dynamic := callee.dynamic || arguments.any Interface.dynamic }
  | none => .error (.typeMismatch callee.ty (.function args .unknown))

/-- A call checks its arguments against the parameters, picks the first arm of an intersection that
    takes them, and is unknown where the callee is. -/
def synthCall (callee : NodeId) (arguments : List NodeId) (env : TypeEnv) : CheckM Interface := do
  match ← r.synth callee env with
  | .error e =>
      visitAll r arguments env
      pure (.error e)
  | .ok callee =>
      match callee.ty with
      | .function params result =>
          if params.length = arguments.length then
            let checked ← (arguments.zip params).mapM fun (argument, param) =>
              r.check argument env param
            pure (.ok { ty := result, dynamic := callee.dynamic || checked.any Interface.dynamic })
          else
            visitAll r arguments env
            pure (.error (.arityMismatch params.length arguments.length))
      | .intersection arms =>
          pure (overloadInterface callee arms (← arguments.mapM fun a => r.synth a env))
      | .unknown | .error _ =>
          let found ← arguments.mapM fun a => r.synth a env
          pure (.ok { ty := .unknown, dynamic := callee.dynamic || found.any Interface.dynamic })
      | other =>
          visitAll r arguments env
          pure (.error { kind := .notCallable other.text })

/-! ### Arrows -/

/-- A name as the body of an arrow sees it: a cell is read once a call and does not count as
    changing over time. -/
def snapshotInterface (interface : Interface) : Interface :=
  interface.map fun typing =>
    let typing := typing.contents
    if typing.mutable?.isSome then { typing with dynamic := false } else typing

/-- The environment of the body of an arrow. -/
def bodyEnv (env : TypeEnv) (params : List Param) (types : List Ty) : TypeEnv :=
  (env.map fun _ interface => snapshotInterface interface).extendAll
    ((params.zip types).map fun (param, ty) => (param.name, .ok (Typing.fixed ty)))

/-- The declared type of a parameter, or `unknown`. -/
def declaredType (p : Param) : Ty := (p.written?.map WrittenType.resolve).getD .unknown

/-- The first parameter that lacks the annotation it needs. -/
def missingParameter? (options : Options) (params : List Param) : Option String :=
  if options.allowUnannotatedParams then none
  else (params.find? fun p => p.written?.isNone).map Param.name

/-- An arrow is a function from its declared parameters to the type of its body. -/
def synthArrow (params : List Param) (body : NodeId) (env : TypeEnv) : CheckM Interface := do
  let types := params.map declaredType
  let body ← r.synth body (bodyEnv env params types)
  pure <| match missingParameter? s.options params with
    | some name => .error { kind := .missingParameterType name }
    | none => .ok { ty := .function types body.ty, dynamic := body.dynamic }

/-! ### Assignments -/

/-- An assignment target as the author wrote it, for messages. -/
def describePlaceWithin : Nat → NodeId → CheckM String
  | 0, _ => throw .endless
  | fuel + 1, node => do
      match ← kindOf s node with
      | .identifier name => pure name
      | .member object property => return (← describePlaceWithin fuel object) ++ "." ++ property
      | .index object _ => return (← describePlaceWithin fuel object) ++ "[..]"
      | _ => pure "expression"

/-- An assignment needs a target that can be set, and has the target's type. -/
def synthAssignment (target value : NodeId) (env : TypeEnv) : CheckM Interface := do
  match ← r.synth target env with
  | .error e =>
      let _ ← r.synth value env
      pure (.error e)
  | .ok typing =>
      if typing.mutable?.isSome && (← kindOf s target).isPlace then
        let _ ← r.check value env typing.ty
        pure (.ok (.fixed typing.ty))
      else
        let _ ← r.synth value env
        pure (.error { kind := .notAssignable (← describePlaceWithin s s.tree.depthLimit target) })

/-! ### All forms -/

/-- The interface of a node from its parts.  The parts are recorded, the node is not. -/
def synthForm (node : NodeId) (env : TypeEnv) : CheckM Interface := do
  match ← kindOf s node with
  | .undefined => pure (.ok (.fixed .undefined))
  | .null => pure (.ok (.fixed .null))
  | .literal value => pure (.ok (.fixed (.literal value)))
  | .identifier name => pure (nameInterface name env)
  | .object properties => synthObject s r properties env
  | .property _ value => return (← r.synth value env).map Typing.read
  | .array elements => return .ok (arrayTyping (← elements.mapM fun e => r.synth e env))
  | .unary op argument => return unaryInterface op (← r.synth argument env)
  | .binary op left right => return binaryInterface op (← r.synth left env) (← r.synth right env)
  | .logical op left right => synthLogical r op left right env
  | .conditional test consequent alternate => synthConditional r test consequent alternate env
  | .member object property => return memberInterface (← r.synth object env) property
  | .index object index => return indexInterface (← r.synth object env) (← r.synth index env)
  | .call callee arguments => synthCall r callee arguments env
  | .arrow params body => synthArrow s r params body env
  | .assignment target value => synthAssignment s r target value env
  | .element _ attributes children =>
      let parts ← (attributes ++ children).mapM fun part => r.synth part env
      pure (.ok { ty := elementType, dynamic := parts.any Interface.dynamic })
  | .ascription expression written =>
      let ty := written.resolve
      return .ok { ty, dynamic := (← r.check expression env ty).dynamic }
  | .constBinding .. | .letBinding .. | .importing .. => pure (.error { kind := .notAnExpression })

/-- The interface of a node: the recorded one, or the one that follows from its parts. -/
def synthNode (node : NodeId) (env : TypeEnv) : CheckM Interface := do
  match (← get).get? node with
  | some held => pure held
  | none => record s node (← synthForm s r node env)

end ReactiveDoc.Check
