import ReactiveDoc.Syntax.Place

namespace ReactiveDoc

/-!
# Type errors

A type error is recorded on a node and never raised.  It names its cause in texts that were
fixed when it arose, so it needs no types.

* `Complaint` — the causes.
* `TypeError` — a cause with the place and the hints.
* `Complaint.message`, `TypeError.message` — the wording.
-/

/-- What is wrong at a node. -/
inductive Complaint where
  | unboundIdentifier (name : String)
  | typeMismatch (expected found : String)
  | duplicateProperty (name : String)
  | missingField (name expected : String)
  | unknownField (ty name : String)
  | notCallable (ty : String)
  | arityMismatch (expected found : Nat)
  | incompatibleOperands (op left right : String)
  | notAssignable (target : String)
  | missingParameterType (name : String)
  | tupleLength (expected found : Nat)
  | unknownModule (module : String)
  | unknownExport (module name : String)
  | cyclicDefinition (chain : List String)
  | notAnExpression
  deriving DecidableEq, Repr

/-- The wording of a cause. -/
def Complaint.message : Complaint → String
  | unboundIdentifier name => "unbound identifier '" ++ name ++ "'"
  | typeMismatch expected found => "type mismatch: expected " ++ expected ++ ", found " ++ found
  | duplicateProperty name => "duplicate property '" ++ name ++ "'"
  | missingField name expected => "missing field '" ++ name ++ "' of type " ++ expected
  | unknownField ty name => "type " ++ ty ++ " has no field '" ++ name ++ "'"
  | notCallable ty => "type " ++ ty ++ " is not callable"
  | arityMismatch expected found =>
      "expected " ++ natText expected ++ " arguments, found " ++ natText found
  | incompatibleOperands op left right =>
      "operator '" ++ op ++ "' cannot be applied to " ++ left ++ " and " ++ right
  | notAssignable target => "cannot assign to '" ++ target ++ "'"
  | missingParameterType name => "parameter '" ++ name ++ "' needs a type annotation"
  | tupleLength expected found =>
      "expected a tuple of " ++ natText expected ++ " elements, found " ++ natText found
  | unknownModule module => "unknown module '" ++ module ++ "'"
  | unknownExport module name => "module '" ++ module ++ "' has no export '" ++ name ++ "'"
  | cyclicDefinition chain => "cyclic definition: " ++ " -> ".intercalate chain
  | notAnExpression => "statement used where an expression is expected"

/-- A cause, the place it was found at, and hints for the author. -/
structure TypeError where
  kind : Complaint
  span : Option Span := none
  hints : List String := []
  deriving DecidableEq, Repr

namespace TypeError

/-- The error placed at `span`, whatever place it had. -/
def placedAt (e : TypeError) (span : Span) : TypeError := { e with span := some span }

/-- The error placed at `span` unless it has a place already. -/
def located (e : TypeError) (span : Span) : TypeError :=
  if e.span.isNone then e.placedAt span else e

/-- The place, the cause, and one line a hint. -/
def message (e : TypeError) : String :=
  let place :=
    match e.span with
    | some span => natText span.start ++ ".." ++ natText span.stop ++ ": "
    | none => ""
  e.hints.foldl (fun text hint => text ++ "\n  hint: " ++ hint) (place ++ e.kind.message)

/-- Offer up to three names that were perhaps meant. -/
def didYouMean (e : TypeError) (names : List String) : TypeError :=
  if names.isEmpty then e
  else { e with hints := (names.take 3).map fun name => "Did you mean '" ++ name ++ "'?" }

/-- Order by place for listing; errors without a place come first. -/
def before (a b : TypeError) : Bool :=
  match a.span, b.span with
  | none, _ => true
  | some _, none => false
  | some s, some t => s.before t

end TypeError

end ReactiveDoc
