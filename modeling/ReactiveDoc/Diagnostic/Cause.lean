import ReactiveDoc.Text.EditDistance
import ReactiveDoc.Ty.Lattice
import ReactiveDoc.Ty.Text

namespace ReactiveDoc.TypeError

/-!
# Errors about types and names

The errors whose text or hints are computed from types and from the names at hand.
-/

/-- An expression has the type `found` where `expected` was wanted.

    The hint says that the widened type would do, or else that `found` is the larger type. -/
def typeMismatch (expected found : Ty) : TypeError :=
  let hints :=
    if found.widen.isSubtype expected then [found.text ++ " widens to " ++ found.widen.text]
    else if expected.isSubtype found then
      ["Note: " ++ found.text ++ " is a supertype of " ++ expected.text]
    else []
  { kind := .typeMismatch expected.text found.text, hints }

/-- A name that nothing binds, with names that were perhaps meant. -/
def unboundIdentifier (name : String) (similar : List String) : TypeError :=
  ({ kind := .unboundIdentifier name } : TypeError).didYouMean similar

/-- The largest edit distance of a name that is offered instead of another. -/
def hintDistance : Nat := 2

/-- A field that the type `ty` does not have, with fields that were perhaps meant. -/
def unknownField (ty : Ty) (name : String) : TypeError :=
  ({ kind := .unknownField ty.text name } : TypeError).didYouMean
    (Text.closeNames name ty.fieldNames hintDistance)

/-- A call with the wrong number of arguments. -/
def arityMismatch (expected found : Nat) : TypeError := { kind := .arityMismatch expected found }

/-- Operands that an operator does not take. -/
def incompatibleOperands (op : String) (left right : Ty) : TypeError :=
  { kind := .incompatibleOperands op left.text right.text }

end ReactiveDoc.TypeError
