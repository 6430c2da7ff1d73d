import ReactiveDoc.InterfaceMap
import ReactiveDoc.Keyed
import ReactiveDoc.Number.Notation
import ReactiveDoc.Number.Reading
import ReactiveDoc.Signal.Basic
import ReactiveDoc.Syntax.Tree
import ReactiveDoc.Text.Blank

namespace ReactiveDoc

/-!
# Values

* `Value` — what expressions evaluate to.  Arrays, objects, functions and elements have an
  identity, so that two with the same contents can be told apart.
* `Value.same` — equality of contents; `Value.strictEquals`, `Value.looseEquals` — the two
  equalities of documents.
* `Value.isTruthy`, `Value.toNumber`, `Value.display` — the conversions.
* `Value.member`, `Value.index`, `Value.child` — the parts of a value.
-/

/-- Which of the values that were built one after the other this is. -/
abbrev Identity := Nat

/-- Options of evaluation. -/
structure EvalOptions where
  /-- An image of an image becomes one signal. -/
  fuseMaps : Bool := true
  /-- Assignments to bindings of the document are reported to the host. -/
  writeBack : Bool := true
  deriving DecidableEq, Repr

/-- A checked tree, ready to be evaluated. -/
structure Program where
  tree : Tree
  interfaces : InterfaceMap
  options : EvalOptions := {}

/-- What a function does: a function of the host by its name, or the body of an arrow with the
    names of its parameters and the values in scope. -/
inductive FunctionBody (α : Type) where
  | native (name : String)
  | closure (program : Program) (params : List String) (body : NodeId) (env : Env α)

/-- What expressions evaluate to.  The fields of objects and elements have different keys. -/
inductive Value where
  | undefined
  | null
  | boolean (b : Bool)
  | number (x : Float)
  | string (s : String)
  | array (identity : Identity) (items : List Value)
  | object (identity : Identity) (fields : List (String × Value))
  | function (identity : Identity) (body : FunctionBody Value)
  | element (identity : Identity) (tag : String) (props : List (String × Value))
      (children : List Value)
  | signal (id : SignalId)

/-- The values that names stand for. -/
abbrev ValueEnv := Env Value

namespace Value

instance : Inhabited Value := ⟨.undefined⟩

/-- The value of a literal. -/
def ofLiteral : Literal → Value
  | .boolean b => boolean b
  | .number x => number x
  | .string s => string s

/-! ### Equality -/

mutual

/-- Equality of contents.  Functions and signals are equal only to themselves, the order of fields
    does not matter, and not-a-number equals itself. -/
def same : Value → Value → Bool
  | undefined, undefined => true
  | null, null => true
  | boolean a, boolean b => a == b
  | number x, number y => Number.same x y
  | string s, string t => s == t
  | array _ xs, array _ ys => sameItems xs ys
  | object _ fs, object _ gs => fs.length == gs.length && sameFields fs gs
  | function i _, function j _ => i == j
  | element _ t fs xs, element _ u gs ys =>
      t == u && (fs.length == gs.length && sameFields fs gs) && sameItems xs ys
  | signal a, signal b => a == b
  | _, _ => false

/-- Equality of items one by one. -/
def sameItems : List Value → List Value → Bool
  | [], [] => true
  | x :: xs, y :: ys => x.same y && sameItems xs ys
  | _, _ => false

/-- The second list has equal values under the keys of the first. -/
def sameFields : List (String × Value) → List (String × Value) → Bool
  | [], _ => true
  | (key, x) :: fs, gs =>
      (match gs.lookup key with
      | some y => x.same y
      | none => false) && sameFields fs gs

end

instance : BEq Value := ⟨same⟩

/-- The equality `===`: primitives by value, everything else by identity. -/
def strictEquals : Value → Value → Bool
  | number x, number y => x == y
  | array i _, array j _ => i == j
  | object i _, object j _ => i == j
  | element i _ _ _, element j _ _ _ => i == j
  | a, b => a.same b

/-! ### Conversions -/

/-- The value counts as true in a test. -/
def isTruthy : Value → Bool
  | undefined | null => false
  | boolean b => b
  | number x => x != 0.0 && !x.isNaN
  | string s => !s.isEmpty
  | _ => true

/-- What `typeof` says of a value. -/
def typeName : Value → String
  | undefined => "undefined"
  | boolean _ => "boolean"
  | number _ => "number"
  | string _ => "string"
  | function _ _ => "function"
  | null | array _ _ | object _ _ | element _ _ _ _ | signal _ => "object"

/-- A text as a number: blanks around it do not count, and nothing but blanks is zero. -/
def numberOfText (s : String) : Float :=
  let trimmed := Text.trimBlank s
  if trimmed.isEmpty then 0.0 else (Number.read? trimmed).getD (0.0 / 0.0)

/-- A value as a number. -/
def toNumber : Value → Float
  | null => 0.0
  | boolean b => if b then 1.0 else 0.0
  | number x => x
  | string s => numberOfText s
  | _ => 0.0 / 0.0

mutual

/-- A value as text in a concatenation. -/
def display : Value → String
  | undefined => "undefined"
  | null => "null"
  | boolean b => if b then "true" else "false"
  | number x => Number.text x
  | string s => s
  | array _ items => ",".intercalate (displayItems items)
  | object _ _ | element _ _ _ _ | signal _ => "[object Object]"
  | function _ _ => "[function]"

/-- The items of an array as texts; `undefined` and `null` leave nothing. -/
def displayItems : List Value → List String
  | [] => []
  | undefined :: items | null :: items => "" :: displayItems items
  | item :: items => item.display :: displayItems items

end

/-- The equality `==`: `null` equals `undefined`, and numbers equal their texts and truth
    values. -/
def looseEquals (a b : Value) : Bool :=
  match a, b with
  | undefined, undefined | undefined, null | null, undefined | null, null => true
  | undefined, _ | null, _ | _, undefined | _, null => false
  | number _, string _ | string _, number _ | boolean _, _ | _, boolean _ =>
      a.toNumber == b.toNumber
  | _, _ => a.strictEquals b

/-- A function for people. -/
def describeFunction : FunctionBody Value → String
  | .native name => "[function " ++ name ++ "]"
  | .closure .. => "[function]"

/-! ### Parts -/

/-- One step from a value to a part of it. -/
inductive PathSegment where
  | key (name : String)
  | index (position : Nat)
  deriving DecidableEq, Repr

/-- The written form of a step. -/
def PathSegment.text : PathSegment → String
  | key name => name
  | index position => natText position

/-- The member of a given name, or `undefined`. -/
def member (v : Value) (name : String) : Value :=
  match v with
  | object _ fields => (fields.lookup name).getD undefined
  | element _ _ props _ => (props.lookup name).getD undefined
  | string s => if name = "length" then number (Float.ofNat s.length) else undefined
  | array _ items => if name = "length" then number (Float.ofNat items.length) else undefined
  | _ => undefined

/-- The part at a given position or of a given name, or `undefined`. -/
def index (v i : Value) : Value :=
  match v, i with
  | array _ items, number x => ((Number.toWhole? x).bind (items[·]?)).getD undefined
  | string s, number x =>
      (((Number.toWhole? x).bind (s.toList[·]?)).map fun c => string (String.singleton c)).getD
        undefined
  | _, string key => v.member key
  | _, _ => undefined

/-- The part one step below a value. -/
def child? (v : Value) (segment : PathSegment) : Option Value :=
  match v, segment with
  | object _ fields, .key name => fields.lookup name
  | array _ items, .index position => items[position]?
  | _, _ => none

/-! ### Operators -/

/-- The order of two values: texts as texts, all else as numbers. -/
def compare? (a b : Value) : Option Ordering :=
  match a, b with
  | string s, string t => some (compareTexts s t)
  | _, _ => compareNumbers? a.toNumber b.toNumber

/-- Addition, which joins texts if one operand is a text. -/
def add (a b : Value) : Value :=
  match a, b with
  | string _, _ | _, string _ => string (a.display ++ b.display)
  | _, _ => number (a.toNumber + b.toNumber)

/-- The result of an operator with two operands. -/
def binary (op : BinaryOp) (a b : Value) : Value :=
  match op with
  | .add => a.add b
  | .sub => number (a.toNumber - b.toNumber)
  | .mul => number (a.toNumber * b.toNumber)
  | .div => number (a.toNumber / b.toNumber)
  | .rem => number (Number.remainder a.toNumber b.toNumber)
  | .strictEq => boolean (a.strictEquals b)
  | .strictNe => boolean (!a.strictEquals b)
  | .eq => boolean (a.looseEquals b)
  | .ne => boolean (!a.looseEquals b)
  | .lt | .le | .gt | .ge => boolean ((a.compare? b).elim false op.holdsOf)

/-- The result of an operator with one operand. -/
def unary (op : UnaryOp) (a : Value) : Value :=
  match op with
  | .not => boolean (!a.isTruthy)
  | .neg => number (-a.toNumber)
  | .plus => number a.toNumber
  | .typeof => string a.typeName

end Value

end ReactiveDoc
