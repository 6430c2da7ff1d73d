import ReactiveDoc.Eval.Setting

namespace ReactiveDoc.Eval

/-!
# Between values and signals

An expression whose value changes over time evaluates to a signal, and every other one to a plain
value.

* `read`, `snapshot` — the current value of a signal, and of a value that may be one.
* `conform` — bring a value in line with what the checker found out.
* `settle`, `asSignal` — a result as the outcome of a signal, and as a signal.
* `assemble` — carry out a recipe.
* `combine` — evaluate several nodes and put their values together, as a signal if one is.
-/

variable {σ : Type} (r : Rules σ)

/-- The current value of a signal; its failure stops the evaluation. -/
def read (id : SignalId) : EvalM σ Value := do
  match ← lift (r.toRules.read id) with
  | .ok p => pure p.value
  | .error e => throw (.signal e)

/-- The current value of a signal; other values as they are. -/
def snapshot : Value → EvalM σ Value
  | .signal id => read r id
  | v => pure v

/-- A new signal that always has the value. -/
def constantSignal (v : Value) : SignalM σ SignalId := Signal.create fun g => g.constant (.ok (.plain v))

/-- A value that changes over time is a signal, any other is not. -/
def conform (v : Value) (dynamic : Bool) : EvalM σ Value :=
  match v, dynamic with
  | .signal id, false => read r id
  | .signal id, true => pure (.signal id)
  | v, true => do pure (.signal (← lift (constantSignal v)))
  | v, false => pure v

/-- A result as the outcome of a signal.  A signal is read, not followed. -/
def settle : Except EvalError Value → SignalM σ (Outcome Payload)
  | .ok (.signal id) => r.toRules.read id
  | .ok v => pure (.ok (.plain v))
  | .error e => pure (.error e.asSignalError)

/-- A result as a signal. -/
def asSignal : Except EvalError Value → SignalM σ SignalId
  | .ok (.signal id) => pure id
  | .ok v => constantSignal v
  | .error e => Signal.create fun g => g.constant (.error e.asSignalError)

/-! ### Calls -/

/-- The bindings of parameters; a missing argument is `undefined`. -/
def bindParams (params : List String) (args : List Value) : List (String × Value) :=
  params.zipIdx.map fun (name, i) => (name, args.getD i .undefined)

/-- Call a function.  A signal that a body evaluates to is read. -/
def call (callee : Value) (args : List Value) : EvalM σ Value :=
  match callee with
  | .function _ (.native name) => r.host.native name args
  | .function _ (.closure program params body env) => do
      snapshot r (← r.evaluate program body (env.extendAll (bindParams params args)))
  | v => throwException (.notCallable v.typeName)

/-! ### Recipes -/

/-- Put a value together. -/
def assemble (recipe : Recipe) (values : List Value) : EvalM σ Value := do
  let value (i : Nat) : Value := values.getD i .undefined
  match recipe with
  | .object keys => pure (.object (← lift newIdentity) (Keyed.ofEntries (keys.zip values)))
  | .array => pure (.array (← lift newIdentity) values)
  | .unary op => pure ((value 0).unary op)
  | .binary op => pure ((value 0).binary op (value 1))
  | .index => pure ((value 0).index (value 1))
  | .call => call r (value 0) (values.drop 1)
  | .element tag keys =>
      let props := Keyed.ofEntries (keys.zip (values.take keys.length))
      pure (.element (← lift newIdentity) tag props (values.drop keys.length))

/-- Put values into some of the places of a list; a missing value is `undefined`. -/
def fill (inputs : List Value) (slots : List Nat) (values : List Value) : List Value :=
  slots.zipIdx.foldl (fun inputs (slot, i) => inputs.set slot (values.getD i .undefined)) inputs

/-- The places of the values that are signals of nodes that change over time. -/
def dynamicSlots (p : Program) (nodes : List NodeId) (values : List Value) :
    List (Nat × SignalId) :=
  (nodes.zip values).zipIdx.filterMap fun ((node, v), slot) =>
    match v with
    | .signal id => if (p.interfaces.get? node).any Interface.dynamic then some (slot, id) else none
    | _ => none

/-- Evaluate nodes and put their values together.  If one of them is a signal the result maps it,
    and if several are it maps their join. -/
def combine (p : Program) (nodes : List NodeId) (env : ValueEnv) (recipe : Recipe) :
    EvalM σ Value := do
  let values ← nodes.mapM fun node => r.evaluate p node env
  let dynamic := dynamicSlots p nodes values
  let step : Step := .combine recipe values (dynamic.map Prod.fst)
  match dynamic.map Prod.snd with
  | [] => assemble r recipe values
  | [source] =>
      if p.options.fuseMaps then newSignal fun g => g.mapFused source step
      else newSignal fun g => g.map source step true
  | sources =>
      let joined ← lift (Signal.create fun g => g.join sources)
      newSignal fun g => g.map joined step false

/-! ### The functions of signals -/

/-- The function of a map. -/
def applyStep (step : Step) (p : Payload) : SignalM σ (Outcome Payload) :=
  match step with
  | .combine recipe inputs slots => do
      settle r (← (assemble r recipe (fill inputs slots p.values)).run)
  | .close program params body env => do
      pure (.ok (.plain (.function (← newIdentity) (.closure program params body env))))

/-- The left operand decides the result of a logical operator. -/
def decidesLogical (op : LogicalOp) (left : Value) : Bool :=
  match op with
  | .and => !left.isTruthy
  | .or => left.isTruthy

/-- The function of a flat map. -/
def chooseSignal (choice : Choice) (p : Payload) : SignalM σ SignalId :=
  match choice with
  | .member name => asSignal (.ok (p.value.member name))
  | .logical op program right env =>
      if decidesLogical op p.value then constantSignal p.value
      else do asSignal (← (r.evaluate program right env).run)
  | .conditional program consequent alternate env => do
      let branch := if p.value.isTruthy then consequent else alternate
      asSignal (← (r.evaluate program branch env).run)

end ReactiveDoc.Eval
