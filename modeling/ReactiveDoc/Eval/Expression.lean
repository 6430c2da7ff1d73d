import ReactiveDoc.Eval.Assignment
import ReactiveDoc.Syntax.Reference

namespace ReactiveDoc.Eval

/-!
# Evaluating expressions

* `evaluateForm` — the value of each form of expression.
* `evaluateNode` — the value of a node, as a signal exactly if it changes over time.
* `rules` — the operations, each applied to the nodes and signals below up to a given depth.
-/

variable {σ : Type} (r : Rules σ)

/-- The keys and the values of property nodes; other nodes are left out. -/
def entriesOf (p : Program) (nodes : List NodeId) : EvalM σ (List (String × NodeId)) := do
  let kinds ← lookUp (nodes.mapM p.tree.kind)
  pure (kinds.filterMap fun
    | .property key value => some (key, value)
    | _ => none)

/-- The node failed the check. -/
def isFailed (p : Program) (node : NodeId) : EvalM σ Bool := return (← require p node).failed

/-- An operator with two operands.  If one of them failed the check, the other is the result. -/
def evaluateBinary (p : Program) (op : BinaryOp) (left right : NodeId) (env : ValueEnv) :
    EvalM σ Value := do
  if ← isFailed p left then r.evaluate p right env
  else if ← isFailed p right then r.evaluate p left env
  else combine r p [left, right] env (.binary op)

/-- An operator that may stop at its first operand.  One that failed the check counts as false. -/
def evaluateLogical (p : Program) (op : LogicalOp) (left right : NodeId) (env : ValueEnv) :
    EvalM σ Value := do
  if ← isFailed p left then
    match op with
    | .and => pure .undefined
    | .or => r.evaluate p right env
  else
    match ← r.evaluate p left env with
    | .signal id => newSignal fun g => g.flatMap id (.logical op p right env)
    | v => if decidesLogical op v then pure v else r.evaluate p right env

/-- A choice between two expressions. -/
def evaluateConditional (p : Program) (test consequent alternate : NodeId) (env : ValueEnv) :
    EvalM σ Value := do
  match ← r.evaluate p test env with
  | .signal id =>
      newSignal fun g => g.flatMap id (.conditional p consequent alternate env)
  | v => r.evaluate p (if v.isTruthy then consequent else alternate) env

/-- The member of an object. -/
def evaluateMember (p : Program) (object : NodeId) (name : String) (env : ValueEnv) :
    EvalM σ Value := do
  match ← r.evaluate p object env with
  | .signal id => newSignal fun g => g.flatMap id (.member name)
  | v => pure (v.member name)

/-- The signals that an arrow uses and whose values change over time, each once. -/
def capturedSignals (p : Program) (uses : List Reference) (env : ValueEnv) : List SignalId :=
  uses.foldl (fun captured use =>
    match (p.interfaces.get? use.node).any Interface.dynamic, env.get? use.name with
    | true, some (.signal id) => if captured.contains id then captured else captured ++ [id]
    | _, _ => captured) []

/-- An arrow.  If it changes over time it is made anew whenever a signal that it uses changes. -/
def evaluateArrow (p : Program) (node : NodeId) (params : List Param) (body : NodeId)
    (dynamic : Bool) (env : ValueEnv) : EvalM σ Value := do
  let names := params.map Param.name
  if dynamic then
    let uses ← lookUp (p.tree.references node)
    let joined ← lift (Signal.create fun g => g.join (capturedSignals p uses env))
    newSignal fun g => g.map joined (.close p names body env) false
  else pure (.function (← lift newIdentity) (.closure p names body env))

/-- The value of an expression that the checker gave the typing `typing`. -/
def evaluateForm (p : Program) (node : NodeId) (typing : Typing) (env : ValueEnv) :
    EvalM σ Value := do
  match ← lookUp (p.tree.kind node) with
  | .undefined => pure .undefined
  | .null => pure .null
  | .literal value => pure (.ofLiteral value)
  | .identifier name =>
      match env.get? name with
      | some v => pure v
      | none => throwInternal (.unboundName name)
  | .property _ value => r.evaluate p value env
  | .object properties =>
      let entries ← entriesOf p properties
      combine r p (entries.map Prod.snd) env (.object (entries.map Prod.fst))
  | .array elements => combine r p elements env .array
  | .unary op argument => combine r p [argument] env (.unary op)
  | .binary op left right => evaluateBinary r p op left right env
  | .logical op left right => evaluateLogical r p op left right env
  | .conditional test consequent alternate => evaluateConditional r p test consequent alternate env
  | .member object name => evaluateMember r p object name env
  | .index object position => combine r p [object, position] env .index
  | .call callee arguments => combine r p (callee :: arguments) env .call
  | .arrow params body => evaluateArrow p node params body typing.dynamic env
  | .assignment target value => assign r p target value env
  | .element tag attributes children =>
      let entries ← entriesOf p attributes
      combine r p (entries.map Prod.snd ++ children) env (.element tag (entries.map Prod.fst))
  | .ascription expression _ => r.evaluate p expression env
  | .constBinding .. | .letBinding .. | .importing .. => throwInternal (.statementAsExpression node)

/-- The value of a node.  A node that failed the check is `undefined`. -/
def evaluateNode (p : Program) (node : NodeId) (env : ValueEnv) : EvalM σ Value := do
  match ← require p node with
  | .error _ => pure .undefined
  | .ok typing => conform r (← evaluateForm r p node typing env) typing.dynamic

/-- The operations where no recursion is left. -/
def Rules.exhausted (host : Host σ) : Rules σ :=
  { Signal.Rules.exhausted with host, evaluate := fun _ _ _ => throwFault .endless }

/-- The operations on nodes and signals above at most `depth - 1` others.  No signal that
    evaluation makes is written through a function. -/
def rules (host : Host σ) : Nat → Rules σ
  | 0 => .exhausted host
  | depth + 1 =>
      { host
        reconcile := fun id => Signal.reconcileNode (rules host depth).toRules id
        set := fun id outcome => Signal.setNode (rules host depth).toRules id outcome
        apply := fun step p => applyStep (rules host depth) step p
        invert := fun _ p => pure p
        choose := fun choice p => chooseSignal (rules host depth) choice p
        evaluate := fun p node env => evaluateNode (rules host depth) p node env }

end ReactiveDoc.Eval
