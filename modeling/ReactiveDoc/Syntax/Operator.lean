namespace ReactiveDoc

/-!
# Operators

* `UnaryOp`, `BinaryOp`, `LogicalOp` — the operators of expressions.
* `BinaryOp.symbol` — the spelling in messages.
* `BinaryOp.holdsOf` — what an order comparison makes of an ordering.
-/

/-- The operators with one operand. -/
inductive UnaryOp where
  | not
  | neg
  | plus
  | typeof
  deriving DecidableEq, Repr

/-- The operators with two operands that evaluate both. -/
inductive BinaryOp where
  | add
  | sub
  | mul
  | div
  | rem
  | strictEq
  | strictNe
  | eq
  | ne
  | lt
  | le
  | gt
  | ge
  deriving DecidableEq, Repr

/-- The operators that may stop at their first operand. -/
inductive LogicalOp where
  | and
  | or
  deriving DecidableEq, Repr

namespace BinaryOp

/-- The spelling of an operator. -/
def symbol : BinaryOp → String
  | add => "+"
  | sub => "-"
  | mul => "*"
  | div => "/"
  | rem => "%"
  | strictEq => "==="
  | strictNe => "!=="
  | eq => "=="
  | ne => "!="
  | lt => "<"
  | le => "<="
  | gt => ">"
  | ge => ">="

/-- The operators that test for equality or its opposite. -/
def isEquality : BinaryOp → Bool
  | strictEq | strictNe | eq | ne => true
  | _ => false

/-- The operators that test for the opposite of equality. -/
def isNegated : BinaryOp → Bool
  | strictNe | ne => true
  | _ => false

/-- The operators that convert their operands before they test for equality. -/
def isLoose : BinaryOp → Bool
  | eq | ne => true
  | _ => false

/-- What an order comparison answers for operands in the order `o`. -/
def holdsOf (op : BinaryOp) (o : Ordering) : Bool :=
  match op with
  | lt => o.isLT
  | le => o.isLE
  | gt => o.isGT
  | _ => o.isGE

end BinaryOp

/-- The order of two numbers; `none` if one is not a number. -/
def compareNumbers? (x y : Float) : Option Ordering :=
  if x < y then some .lt else if x == y then some .eq else if y < x then some .gt else none

/-- The order of two texts by code points. -/
def compareTexts (s t : String) : Ordering :=
  if s < t then .lt else if s = t then .eq else .gt

end ReactiveDoc
