import ReactiveDoc.Eval.Lifting
import ReactiveDoc.Json.Printer

namespace ReactiveDoc.Eval

/-!
# Assignment

* `valueJson` — the written form of a value, signals read.
* `placePath` — the binding that a place belongs to, and the way from there to the place.
* `assignInto` — write to the first signal on the way; the rest of the way is edited in a copy of
  its value.
* `assign` — evaluate, write, and report edits of the document's own bindings.
-/

variable {σ : Type} (r : Rules σ)

/-- The written form of a value.  Signals inside signals are read to the given depth. -/
def valueJson : Nat → Value → SignalM σ Json
  | 0, _ => throw .endless
  | depth + 1, v =>
      v.toJsonWith fun id => do
        match ← r.toRules.read id with
        | .ok p => valueJson depth p.value
        | .error _ => pure .null

/-- The largest position that an index can name; larger ones count as this one. -/
def maxPosition : Nat := UInt64.size - 1

/-- The step that a computed index names. -/
def indexSegment (v : Value) : EvalM σ Value.PathSegment :=
  match v with
  | .number x =>
      match Number.toWhole? x with
      | some n => pure (.index (min n maxPosition))
      | none => throwException (.badIndex v.typeName)
  | .string key => pure (.key key)
  | _ => throwException (.badIndex v.typeName)

/-- The name that a place starts from and the steps from there, for places of at most the given
    depth. -/
def placePath (p : Program) (env : ValueEnv) : Nat → NodeId → EvalM σ (String × List Value.PathSegment)
  | 0, _ => throwFault .endless
  | depth + 1, node => do
      match ← lookUp (p.tree.kind node) with
      | .identifier name => pure (name, [])
      | .member object property =>
          let (root, path) ← placePath p env depth object
          pure (root, path ++ [.key property])
      | .index object index =>
          let (root, path) ← placePath p env depth object
          let segment ← indexSegment (← snapshot r (← r.evaluate p index env))
          pure (root, path ++ [segment])
      | _ => throwInternal (.notAPlace node)

/-- Write a signal; that it cannot be written stops the evaluation. -/
def write (id : SignalId) (v : Value) : EvalM σ Unit := do
  match ← lift (r.set id (.ok (.plain v))) with
  | .ok () => pure ()
  | .error e => throw (.signal e)

/-- Write an edited copy of a signal's value.  An edit that fails still writes what was read. -/
def produce (id : SignalId) (path : List Value.PathSegment) (v : Value) : EvalM σ Unit := do
  let draft ← read r id
  let fresh ← lift (Signal.newIdentities path.length)
  match draft.setPath fresh path v r.host.capacity with
  | .ok edited => write r id edited
  | .error (.tooLong position) => throwFault (.tooLong position)
  | .error e =>
      write r id draft
      throwException (.edit e)

/-- Write to the first signal on the way from a value along a path. -/
def assignInto (cursor : Value) (path : List Value.PathSegment) (v : Value) : EvalM σ Unit :=
  match cursor, path with
  | .signal id, [] => write r id v
  | .signal id, path => produce r id path v
  | _, [] => throwInternal .noCell
  | cursor, segment :: rest =>
      match cursor.child? segment with
      | some part => assignInto part rest v
      | none => throwException (.noParent segment.text)

/-- The place belongs to a binding of the document's own source. -/
def isCodePlace (interface : Interface) : Bool :=
  match interface with
  | .ok typing => typing.mutable? == some .code
  | .error _ => false

/-- Report an edit to the host. -/
def report (root : String) (path : List Value.PathSegment) (v : Value) : EvalM σ Unit := do
  match r.host.save? with
  | some save =>
      let json ← lift (valueJson r Signal.depthLimit v)
      lift (save (root :: path.map Value.PathSegment.text) json.compact)
  | none => pure ()

/-- Evaluate an assignment; its value is the one assigned. -/
def assign (p : Program) (target value : NodeId) (env : ValueEnv) : EvalM σ Value := do
  let v ← snapshot r (← r.evaluate p value env)
  let (root, path) ← placePath r p env p.tree.depthLimit target
  match env.get? root with
  | none => throwInternal (.unboundName root)
  | some owner =>
      assignInto r owner path v
      if isCodePlace (← require p target) ∧ p.options.writeBack then report r root path v
      pure v

end ReactiveDoc.Eval
