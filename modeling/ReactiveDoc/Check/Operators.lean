import ReactiveDoc.Diagnostic.Cause
import ReactiveDoc.Interface
import ReactiveDoc.Syntax.Operator
import ReactiveDoc.Ty.Narrow

namespace ReactiveDoc.Check

/-!
# Typing rules of operators, fields and indices

Singleton operands are folded and unions distribute, so the type of an operation is as precise as
its operands allow.

* `binaryType`, `unaryType` — the type of an operation.
* `memberType` — the type of a field, and what reading it adds to the typing.
* `indexType` — the type of an element at an index.
-/

/-- Operands of these types are let through unchecked. -/
def isGradual : Ty → Bool
  | .unknown | .error _ => true
  | _ => false

/-- The number that a type consists of. -/
def number? (t : Ty) : Option Float :=
  match t.literal? with
  | some (.number x) => some x
  | _ => none

/-- The text that a type contributes to a concatenation, if it is known. -/
def concatText? (t : Ty) : Option String :=
  match t.literal? with
  | some (.string s) => some s
  | some (.number x) => some (Number.text x)
  | _ => none

/-! ### Binary operators -/

/-- An arithmetic result: the number itself if both operands are known. -/
def foldNumber (f : Float → Float → Float) (left right : Ty) : Ty :=
  match number? left, number? right with
  | some x, some y => Ty.ofNumber (f x y)
  | _, _ => .number

/-- The arithmetic of an operator on numbers. -/
def arithmetic? : BinaryOp → Option (Float → Float → Float)
  | .add => some (· + ·)
  | .sub => some (· - ·)
  | .mul => some (· * ·)
  | .div => some (· / ·)
  | .rem => some Number.remainder
  | _ => none

/-- The order of the values of two singleton types, where there is one. -/
def compareLiterals? (left right : Ty) : Option Ordering :=
  match left.literal?, right.literal? with
  | some (.number x), some (.number y) => compareNumbers? x y
  | some (.string s), some (.string t) => some (compareTexts s t)
  | _, _ => none

/-- `undefined` or `null`. -/
def isNullish : Ty → Bool
  | .undefined | .null => true
  | _ => false

/-- Whether values of the two types are equal, if the types alone tell. -/
def staticEquality? (loose : Bool) (left right : Ty) : Option Bool :=
  match left, right with
  | .singleton _ v, .singleton _ w => some (v.same w)
  | .undefined, .undefined => some true
  | .null, .null => some true
  | a, b =>
      if loose && isNullish a && isNullish b then some true
      else if Ty.disjoint a b then some false
      else none

/-- Both types are below `t`. -/
def bothBelow (t left right : Ty) : Bool := left.isSubtype t && right.isSubtype t

/-- The type of a sum that is no sum of numbers: a concatenation, if one side is a text and
    the other a text or a number. -/
def concatType? (left right : Ty) : Option Ty :=
  let text := left.isSubtype .string || right.isSubtype .string
  if text && bothBelow (.union [.string, .number]) left right then
    some <| match concatText? left, concatText? right with
      | some s, some t => Ty.ofString (s ++ t)
      | _, _ => .string
  else none

/-- The type of an operation on operands that are not unions; `none` if they do not fit. -/
def binaryArm? (op : BinaryOp) (left right : Ty) : Option Ty :=
  if isGradual left || isGradual right then
    some <| match op with
      | .add => .unknown
      | .sub | .mul | .div | .rem => .number
      | _ => .boolean
  else
    let numeric := bothBelow .number left right
    match op with
    | .add | .sub | .mul | .div | .rem =>
        if numeric then (arithmetic? op).map fun f => foldNumber f left right
        else if op = .add then concatType? left right
        else none
    | .lt | .le | .gt | .ge =>
        if numeric || bothBelow .string left right then
          some <| match compareLiterals? left right with
            | some o => Ty.ofBool (op.holdsOf o)
            | none => .boolean
        else none
    | .strictEq | .strictNe | .eq | .ne =>
        some <| match staticEquality? op.isLoose left right with
          | some equal => Ty.ofBool (equal != op.isNegated)
          | none => .boolean

/-- Apply a rule to every combination of union arms and unite the results; the left operand is
    opened first.  One failure fails all. -/
def distribute? (rule : Ty → Ty → Option Ty) (left right : Ty) : Option Ty :=
  match left with
  | .union arms => (arms.attach.mapM fun arm => distribute? rule arm.1 right).map Ty.unionOf
  | left =>
      match right with
      | .union arms => (arms.attach.mapM fun arm => distribute? rule left arm.1).map Ty.unionOf
      | right => rule left right
termination_by left.size + right.size
decreasing_by
  all_goals
    have := Ty.size_le_sizeList arm.2
    simp only [Ty.size]
    omega

/-- The type of an operation with two operands. -/
def binaryType (op : BinaryOp) (left right : Ty) : Except TypeError Ty :=
  match distribute? (binaryArm? op) left right with
  | some t => .ok t
  | none => .error (.incompatibleOperands op.symbol left right)

/-! ### Unary operators -/

/-- The number type of a sign operator applied to one operand that is not a union. -/
def signedType (negate : Bool) (t : Ty) : Ty :=
  match number? t with
  | some x => Ty.ofNumber (if negate then -x else x)
  | none => .number

/-- The type of an operation with one operand. -/
def unaryType (op : UnaryOp) (t : Ty) : Except TypeError Ty :=
  match op with
  | .not =>
      .ok <| match t.truthiness with
        | some truthy => Ty.ofBool !truthy
        | none => .boolean
  | .typeof =>
      .ok <| match t.typeofName with
        | some kind => Ty.ofString kind
        | none => .string
  | .neg | .plus =>
      if isGradual t then .ok .number
      else if t.isSubtype .number then
        match distribute? (fun arm _ => some (signedType (op = .neg) arm)) t .unknown with
        | some t => .ok t
        | none => .error (.typeMismatch .number t)
      else .error (.typeMismatch .number t)

/-! ### Fields -/

/-- A field's type, and what reading it adds: whether the result changes over time, and what
    backs it if it can be assigned to. -/
structure Access where
  ty : Ty
  dynamic : Bool := false
  mutable? : Option Mutability := none

/-- The type of the field `name` of a type that is neither a union nor an intersection nor a cell. -/
def plainMember? (t : Ty) (name : String) : Option Access :=
  match t with
  | .unknown | .error _ => some { ty := t }
  | .object fields => (fields.find? fun f => f.name == name).map fun f => { ty := f.ty }
  | .module exports => (exports.find? fun e => e.name == name).map fun e =>
      match cell? e.ty with
      | some (m, ty) => { ty, dynamic := true, mutable? := some m }
      | none => { ty := e.ty, dynamic := e.dynamic }
  | .string | .array _ => if name = "length" then some { ty := .number } else none
  | .singleton base (.string s) =>
      if base.same .string && name == "length" then
        some { ty := Ty.ofNumber (Float.ofNat s.length) }
      else none
  | .tuple items =>
      if name = "length" then some { ty := Ty.ofNumber (Float.ofNat items.length) } else none
  | .set _ | .map _ _ => if name = "size" then some { ty := .number } else none
  | _ => none

/-- What several fields of one name have in common: the union of their types. -/
def uniteAccesses (as : List Access) : Access :=
  { ty := Ty.unionOf (as.map Access.ty), dynamic := as.any Access.dynamic }

mutual

/-- The type of the field `name`; an error names the type that lacks it.

    A cell reads as its contents and can be assigned to; a union needs the field in every arm, an
    intersection takes it from the first arm that has it. -/
def memberType (t : Ty) (name : String) : Except TypeError Access :=
  match t with
  | .labelled label [inner] =>
      match Mutability.ofLabel? label with
      | some m => (memberType inner name).map fun a => { a with mutable? := some m }
      | none => .error (.unknownField t name)
  | .union arms =>
      match memberTypes name arms with
      | some accesses => .ok (uniteAccesses accesses)
      | none => .error (.unknownField t name)
  | .intersection arms =>
      match firstMember? name arms with
      | some access => .ok access
      | none => .error (.unknownField t name)
  | t =>
      match plainMember? t name with
      | some access => .ok access
      | none => .error (.unknownField t name)

/-- The field of every type; `none` if one lacks it. -/
def memberTypes (name : String) : List Ty → Option (List Access)
  | [] => some []
  | t :: ts =>
      match memberType t name with
      | .ok access => (memberTypes name ts).map (access :: ·)
      | .error _ => none

/-- The field of the first type that has it. -/
def firstMember? (name : String) : List Ty → Option Access
  | [] => none
  | t :: ts =>
      match memberType t name with
      | .ok access => some access
      | .error _ => firstMember? name ts

end

/-! ### Indices -/

/-- The type of the element of a tuple at an index. -/
def tupleIndex (items : List Ty) (index : Ty) : Ty :=
  match number? index with
  | some x =>
      match Number.toWhole? x with
      | some n => items[n]?.getD .undefined
      | none => .undefined
  | none => Ty.orUndefined (Ty.unionOf items)

/-- The operands of an index expression do not fit. -/
def badIndex (t index : Ty) : TypeError := .incompatibleOperands "[]" t index

/-- The type of an element of a type that is neither a union nor a cell. -/
def plainIndex (t index : Ty) : Except TypeError Ty :=
  match t with
  | .unknown | .error _ => .ok t
  | t =>
      if isGradual index then .ok .unknown
      else
        match t with
        | .tuple items =>
            if index.isSubtype .number then .ok (tupleIndex items index) else .error (badIndex t index)
        | .array item =>
            if index.isSubtype .number then .ok (Ty.orUndefined item) else .error (badIndex t index)
        | .string | .singleton _ (.string _) =>
            if t.isSubtype .string && index.isSubtype .number then .ok (Ty.orUndefined .string)
            else .error (badIndex t index)
        | .object _ | .module _ =>
            match index.literal? with
            | some (.string name) => (memberType t name).map Access.ty
            | _ => .error (badIndex t index)
        | _ => .error (badIndex t index)

mutual

/-- The type of an element at an index.  An index outside may be read and gives `undefined`; a
    cell is read through its contents; a union needs the index in every arm. -/
def indexType (t index : Ty) : Except TypeError Ty :=
  match t with
  | .labelled label [inner] =>
      match Mutability.ofLabel? label with
      | some _ => indexType inner index
      | none => plainIndex t index
  | .union arms =>
      if isGradual index then .ok .unknown
      else
        match indexTypes index arms with
        | some ts => .ok (Ty.unionOf ts)
        | none => .error (badIndex t index)
  | t => plainIndex t index

/-- The element of every type; `none` if one does not take the index. -/
def indexTypes (index : Ty) : List Ty → Option (List Ty)
  | [] => some []
  | t :: ts =>
      match indexType t index with
      | .ok element => (indexTypes index ts).map (element :: ·)
      | .error _ => none

end

end ReactiveDoc.Check
