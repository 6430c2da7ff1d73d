import ReactiveDoc.Document.Checking
import ReactiveDoc.Eval.Statement

namespace ReactiveDoc

/-!
# Running documents

* `Prelude` — the names that the host provides, with their typings and values.
* `EvaluatedDocument` — the values of a document.
* `CheckedDocument.evaluate` — evaluate a document, group by group.
-/

/-- The names that the host provides to a document. -/
structure Prelude where
  types : HostTypes := []
  values : List (String × Value) := []

namespace Prelude

/-- Provide a value of a given typing. -/
def provide (p : Prelude) (name : String) (typing : Typing) (value : Value) : Prelude :=
  { types := Keyed.put p.types name typing, values := Keyed.put p.values name value }

/-- Provide a value that never changes. -/
def provideStatic (p : Prelude) (name : String) (ty : Ty) (value : Value) : Prelude :=
  p.provide name (.fixed ty) value

/-- Provide a signal that a document can read. -/
def provideDynamic (p : Prelude) (name : String) (ty : Ty) (signal : SignalId) : Prelude :=
  p.provide name { ty, dynamic := true } (.signal signal)

/-- Provide a signal that a document can write. -/
def provideCell (p : Prelude) (name : String) (m : Mutability) (ty : Ty) (signal : SignalId) :
    Prelude :=
  p.provide name { ty, dynamic := true, mutable? := some m } (.signal signal)

/-- The values as an environment. -/
def env (p : Prelude) : ValueEnv := Env.empty.extendAll p.values

end Prelude

/-- The values of a document's fragments in the order of the document, and those of the bindings
    that other documents may import. -/
structure EvaluatedDocument where
  values : List Value
  exports : List (String × Value)

namespace CheckedDocument

open Eval

variable {σ : Type} (r : Rules σ)

/-- The members of a group with their nodes. -/
def membersOf (d : Document) (group : Group) : List (Nat × NodeId) :=
  group.members.filterMap fun m => (d.fragment? m).map fun node => (m, node)

/-- The environment so far, and the values of the fragments evaluated so far. -/
abbrev Progress := ValueEnv × List Value

/-- Evaluate a fragment and keep its value. -/
def evaluateMember (p : Program) (modules : ModuleValues) (progress : Progress)
    (member : Nat × NodeId) : EvalM σ Progress := do
  let (env, values) := progress
  let (env, value) ← evaluateStatement r p modules member.2 env
  pure (env, values.set member.1 value)

/-- Bring the names of bindings that use each other into scope as references. -/
def declareNames (d : Document) (env : ValueEnv) :
    List (Nat × NodeId) → EvalM σ (ValueEnv × List (Nat × SignalId))
  | [] => pure (env, [])
  | (m, node) :: rest => do
      let names := (← lookUp (d.tree.kind node)).definedNames
      let references ← names.mapM fun name => do
        pure (name, ← lift (Signal.create fun g => g.reference))
      let env := env.extendAll (references.map fun (name, id) => (name, .signal id))
      let (env, others) ← declareNames d env rest
      pure (env, references.map (fun (_, id) => (m, id)) ++ others)

/-- Let a reference stand for a value. -/
def resolveTo (reference : SignalId) (value : Value) : EvalM σ Unit := do
  let target ← lift (asSignal (.ok value))
  match ← lift (Signal.resolve reference target) with
  | .ok () => pure ()
  | .error e => throw (.signal e)

/-- Evaluate a group.  Names of bindings that use each other stand for references until all of the
    group are evaluated. -/
def evaluateGroup (d : Document) (p : Program) (modules : ModuleValues) (progress : Progress)
    (group : Group) : EvalM σ Progress := do
  let members := membersOf d group
  if group.cyclic ∧ group.legal then
    let (env, references) ← declareNames d progress.1 members
    let (env, values) ← members.foldlM (evaluateMember r p modules) (env, progress.2)
    references.forM fun (m, reference) => resolveTo reference (values.getD m .undefined)
    pure (env, values)
  else members.foldlM (evaluateMember r p modules) progress

/-- The values of the bindings that other documents may import. -/
def exportValues (d : Document) (values : List Value) : Except Fault (List (String × Value)) := do
  let names ← d.fragments.mapM fun node => (d.tree.kind node).map NodeKind.exportedName?
  pure (Keyed.ofEntries ((names.zip values).filterMap fun (name?, value) =>
    name?.map fun name => (name, value)))

/-- Evaluate a document. -/
def evaluate (c : CheckedDocument) (d : Document) (options : EvalOptions) (prelude : Prelude)
    (modules : ModuleValues) : EvalM σ EvaluatedDocument := do
  let p : Program := { tree := d.tree, interfaces := c.interfaces, options }
  let start : Progress := (prelude.env, List.replicate d.fragments.length .undefined)
  let (_, values) ← c.groups.foldlM (evaluateGroup r d p modules) start
  pure { values, exports := ← lookUp (exportValues d values) }

end CheckedDocument

end ReactiveDoc
