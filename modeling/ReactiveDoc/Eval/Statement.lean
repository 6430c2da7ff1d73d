import ReactiveDoc.Eval.Expression

namespace ReactiveDoc.Eval

/-!
# Evaluating statements

* `evaluateStatement` — the value of a statement and the environment for what follows.
* `evaluateProgram` — several statements in order.
-/

variable {σ : Type} (r : Rules σ)

/-- The values of what an import takes; a missing one is `undefined`. -/
def importBindings (modules : ModuleValues) (path : String) (specifiers : List ImportSpecifier) :
    List (String × Value) :=
  let exports := (modules.lookup path).getD []
  specifiers.map fun s => (s.bound, (exports.lookup s.imported).getD .undefined)

/-- The value of a `let` binding: a cell under the binding's name. -/
def evaluateLet (p : Program) (name : String) (value : NodeId) (env : ValueEnv) : EvalM σ Value := do
  let initial ← snapshot r (← r.evaluate p value env)
  let cell ← lift (Signal.create fun g => g.cell (.ok (.plain initial)))
  newSignal fun g => g.label cell name

/-- Evaluate a statement or expression at the top of a document; the environment for what follows
    and the value.  A binding that failed the check is `undefined`. -/
def evaluateStatement (p : Program) (modules : ModuleValues) (node : NodeId) (env : ValueEnv) :
    EvalM σ (ValueEnv × Value) := do
  let interface ← require p node
  match ← lookUp (p.tree.kind node) with
  | .constBinding name _ value _ =>
      let bound ←
        if interface.failed then pure .undefined
        else conform r (← r.evaluate p value env) interface.dynamic
      pure (env.extend name bound, bound)
  | .letBinding name _ value _ _ =>
      let bound ← if interface.failed then pure .undefined else evaluateLet r p name value env
      pure (env.extend name bound, bound)
  | .importing path specifiers =>
      pure (env.extendAll (importBindings modules path specifiers), .undefined)
  | _ => return (env, ← r.evaluate p node env)

/-- Evaluate statements in order, each in the environment after the ones before it. -/
def evaluateProgram (p : Program) (modules : ModuleValues) :
    List NodeId → ValueEnv → EvalM σ (ValueEnv × List Value)
  | [], env => pure (env, [])
  | node :: nodes, env => do
      let (env, value) ← evaluateStatement r p modules node env
      let (env, values) ← evaluateProgram p modules nodes env
      pure (env, value :: values)

end ReactiveDoc.Eval
