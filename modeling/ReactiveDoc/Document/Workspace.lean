import ReactiveDoc.Document.Running

namespace ReactiveDoc

/-!
# Documents that import each other

* `Workspace` — the modules that are known so far, by their paths.
* `Workspace.run` — check and evaluate a document, and make what it exports known.
-/

/-- How documents are checked and evaluated, and the modules that are known so far. -/
structure Workspace where
  config : CheckConfig := {}
  options : EvalOptions := {}
  types : Check.ModuleTypes := []
  values : Eval.ModuleValues := []

/-- What becomes of a document: what its check found, and its values. -/
structure WorkspaceDocument where
  checked : CheckedDocument
  evaluated : Except EvalError EvaluatedDocument

namespace Workspace

/-- How a document is checked with the names of a prelude. -/
def compiler (w : Workspace) (prelude : Prelude) : Compiler :=
  { config := w.config, modules := w.types, host := prelude.types }

/-- The workspace with the exports of a document under a path.  A document that could not be
    evaluated exports types only. -/
def extend (w : Workspace) (path : String) (d : WorkspaceDocument) : Workspace :=
  { w with
    types := Keyed.put w.types path d.checked.exports
    values := match d.evaluated with
      | .ok evaluated => Keyed.put w.values path evaluated.exports
      | .error _ => w.values }

/-- Check and evaluate a document, and make its exports known under a path. -/
def run {σ : Type} (r : Eval.Rules σ) (w : Workspace) (path : String) (d : Document)
    (prelude : Prelude) : Eval.SignalM σ (WorkspaceDocument × Workspace) := do
  let (checked, _) ← ((w.compiler prelude).check d none : Except Fault _)
  let evaluated ← (checked.evaluate r d w.options prelude w.values).run
  pure (⟨checked, evaluated⟩, w.extend path ⟨checked, evaluated⟩)

end Workspace

end ReactiveDoc
