import ReactiveDoc.Eval.Error
import ReactiveDoc.Value.Encoding
import ReactiveDoc.Value.Payload

namespace ReactiveDoc.Eval

/-!
# What evaluation uses

* `Recipe` — how the value of an expression is put together from the values of its parts.
* `Step`, `Choice` — the functions of the signals that evaluation makes.
* `EvalM` — a computation that may stop with an error.
* `Host` — the functions and the store that a document is run with.
* `Rules` — the operations that the rules of each form of expression call.
-/

/-- How a value is put together from others. -/
inductive Recipe where
  | object (keys : List String)
  | array
  | unary (op : UnaryOp)
  | binary (op : BinaryOp)
  | index
  | call
  | element (tag : String) (keys : List String)
  deriving Repr

/-- The function of a map. -/
inductive Step where
  /-- Put a value together; what the signal carries takes the places `slots` of the inputs. -/
  | combine (recipe : Recipe) (inputs : List Value) (slots : List Nat)
  /-- Make a function; what the signal carries only tells when to make a new one. -/
  | close (program : Program) (params : List String) (body : NodeId) (env : ValueEnv)

/-- The function of a flat map. -/
inductive Choice where
  | member (name : String)
  | logical (op : LogicalOp) (program : Program) (right : NodeId) (env : ValueEnv)
  | conditional (program : Program) (consequent alternate : NodeId) (env : ValueEnv)

/-- A computation on signals. -/
abbrev SignalM (σ : Type) := Signal.Action Payload Step Choice σ

/-- A computation on signals that may stop with an error. -/
abbrev EvalM (σ : Type) := ExceptT EvalError (SignalM σ)

/-- The functions by name that a document may call, what becomes of an edit of a binding of the
    document, which is given its path and the new value as JSON text, and the number of items for
    which there is memory in an array. -/
structure Host (σ : Type) where
  native : String → List Value → EvalM σ Value
  save? : Option (List String → String → SignalM σ Unit) := none
  capacity : Nat := Value.usualCapacity

/-- The operations on signals and nodes.  The rules of each form take them as parameters and
    apply them to the nodes below. -/
structure Rules (σ : Type) extends Signal.Rules Payload Step Choice σ where
  host : Host σ
  evaluate : Program → NodeId → ValueEnv → EvalM σ Value

/-- The values that modules export, by path and name. -/
abbrev ModuleValues := List (String × List (String × Value))

variable {σ : Type}

/-- A new identity. -/
def newIdentity : SignalM σ Identity := Signal.newIdentities 1

/-- A computation on signals as part of an evaluation. -/
def lift {α : Type} (x : SignalM σ α) : EvalM σ α := ExceptT.lift x

/-- Look something up in a tree. -/
def lookUp {α : Type} (x : Except Fault α) : EvalM σ α := lift (liftM x)

/-- A new signal, as a value. -/
def newSignal (f : Signal.Graph Payload Step Choice → SignalId × Signal.Graph Payload Step Choice) :
    EvalM σ Value := do
  pure (.signal (← lift (Signal.create f)))

/-- Stop with a fault. -/
def throwFault {α : Type} (f : Fault) : EvalM σ α := lift (throw f)

/-- Take an interface that the checker must have recorded. -/
def require (p : Program) (node : NodeId) : EvalM σ Interface :=
  ExceptT.mk (pure (p.interfaces.require node))

/-- Stop with an exception. -/
def throwException {α : Type} (e : Exception) : EvalM σ α := throw (.runtime e)

/-- Stop because of something that cannot happen in a checked document. -/
def throwInternal {α : Type} (e : Inconsistency) : EvalM σ α := throw (.internal e)

end ReactiveDoc.Eval
