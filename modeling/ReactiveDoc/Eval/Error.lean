import ReactiveDoc.InterfaceMap
import ReactiveDoc.Value.Edit

namespace ReactiveDoc

/-!
# Failures of evaluation

* `EvalError` — an evaluation stopped: the checker missed something, something went wrong in the
  document or the host, or a signal had no value.
* `EvalError.message` — the wording.
* `EvalError.asSignalError` — the failure as the outcome of a signal.
-/

/-- Something that cannot happen in a checked document. -/
inductive Inconsistency where
  | noInterface (node : NodeId)
  | unboundName (name : String)
  | statementAsExpression (node : NodeId)
  | notAPlace (node : NodeId)
  | noCell
  | stated (message : String)
  deriving DecidableEq, Repr

/-- The wording of an inconsistency. -/
def Inconsistency.message : Inconsistency → String
  | noInterface node => "no interface recorded for node " ++ nodeText node
  | unboundName name => "'" ++ name ++ "' is not bound at runtime"
  | statementAsExpression node => "statement " ++ nodeText node ++ " evaluated as an expression"
  | notAPlace node => "node " ++ nodeText node ++ " is not an assignable place"
  | noCell => "assignment target is not backed by a cell"
  | stated message => message

/-- Something that goes wrong while a document runs. -/
inductive Exception where
  | notCallable (typeName : String)
  | badIndex (typeName : String)
  /-- The place to assign to is part of something that is not there. -/
  | noParent (segment : String)
  | edit (cause : EditError)
  | stated (message : String)
  deriving DecidableEq, Repr

/-- The wording of an exception. -/
def Exception.message : Exception → String
  | notCallable typeName => typeName ++ " is not a function"
  | badIndex typeName => "cannot index with a " ++ typeName
  | noParent segment => "cannot set '" ++ segment ++ "' of undefined"
  | edit cause => cause.message
  | stated message => message

/-- Why an evaluation stopped. -/
inductive EvalError where
  | internal (cause : Inconsistency)
  | runtime (cause : Exception)
  | signal (cause : SignalError)
  deriving DecidableEq, Repr

namespace EvalError

/-- The wording of a failure. -/
def message : EvalError → String
  | internal cause => "internal invariant violated: " ++ cause.message
  | runtime cause => "runtime exception: " ++ cause.message
  | signal cause => cause.message

/-- The failure as the outcome of a signal. -/
def asSignalError : EvalError → SignalError
  | signal cause => cause
  | e => .failed e.message

end EvalError

/-- The interface of a node that was checked. -/
def InterfaceMap.require (m : InterfaceMap) (node : NodeId) : Except EvalError Interface :=
  match m.get? node with
  | some interface => .ok interface
  | none => .error (.internal (.noInterface node))

end ReactiveDoc
