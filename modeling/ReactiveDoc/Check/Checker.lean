import ReactiveDoc.Check.Expectation

namespace ReactiveDoc.Check

/-!
# The checker

Every visited node gets one interface; asking again returns it.  Errors are recorded and never
stop the check.

* `rules` — the judgements, each applied to the nodes below up to a given depth.
* `synth`, `check`, `narrow` — the judgements on a tree.
* `statement`, `program` — top-level statements, with the environment for what follows.
-/

/-- The judgements where no recursion is left. -/
def Rules.exhausted : Rules where
  synth _ _ := throw .endless
  check _ _ _ := throw .endless
  narrow _ _ _ := throw .endless

/-- The judgements on nodes above at most `depth - 1` others. -/
def rules (s : Setting) : Nat → Rules
  | 0 => .exhausted
  | depth + 1 =>
      let r := rules s depth
      { synth := synthNode s r, check := checkNode s r, narrow := narrowTest s r }

/-- The judgements on all nodes of the tree. -/
def treeRules (s : Setting) : Rules := rules s s.tree.depthLimit

variable (s : Setting)

/-- The interface of a node from its parts. -/
def synth (node : NodeId) (env : TypeEnv) : CheckM Interface := (treeRules s).synth node env

/-- The interface of a node where a type is expected. -/
def check (node : NodeId) (env : TypeEnv) (expected : Ty) : CheckM Interface :=
  (treeRules s).check node env expected

/-- What is known where a test has come out as `outcome`. -/
def narrow (env : TypeEnv) (test : NodeId) (outcome : Bool) : CheckM TypeEnv :=
  (treeRules s).narrow env test outcome

/-! ### Imports -/

/-- The typing of an export of a module.  A cell reads as its contents. -/
def importTyping? (module : Ty) (name : String) : Option Typing :=
  match module with
  | .module exports => (exports.find? fun e => e.name == name).map fun e =>
      match cell? e.ty with
      | some (m, ty) => { ty, dynamic := true, mutable? := some m }
      | none => { ty := e.ty, dynamic := e.dynamic }
  | _ => none

/-- What one taken name stands for. -/
def specifierInterface (path : String) (module : Ty) (span : Span) (specifier : ImportSpecifier) :
    Interface :=
  match importTyping? module specifier.imported with
  | some typing => .ok typing
  | none => .error { kind := .unknownExport path specifier.imported, span := some span }

/-- What an import stands for itself, and what its names stand for. -/
def importInterfaces (modules : ModuleTypes) (path : String) (span : Span)
    (specifiers : List ImportSpecifier) : Interface × List (String × Interface) :=
  match modules.lookup path with
  | none =>
      let e : Interface := .error { kind := .unknownModule path, span := some span }
      (e, specifiers.map fun specifier => (specifier.bound, e))
  | some module =>
      let bindings := specifiers.map fun specifier =>
        (specifier.bound, specifierInterface path module span specifier)
      let failure := bindings.findSome? fun (_, interface) => interface.error?
      (failure.elim (.ok (.fixed module)) .error, bindings)

/-! ### Statements -/

/-- The interface of a `const` binding: of its annotation, or of its value once read. -/
def constInterface (written? : Option WrittenType) (value : NodeId) (env : TypeEnv) :
    CheckM Interface := do
  match written? with
  | some written =>
      let ty := written.resolve
      return .ok { ty, dynamic := (← check s value env ty).dynamic }
  | none => return (← synth s value env).map Typing.read

/-- The interface of a `let` binding: a cell of its annotation, or of its value's widened type. -/
def letInterface (written? : Option WrittenType) (value : NodeId) (mutability : Mutability)
    (env : TypeEnv) : CheckM Interface := do
  let ty : Except TypeError Ty ← match written? with
    | some written =>
        let ty := written.resolve
        let _ ← check s value env ty
        pure (.ok ty)
    | none => pure ((← synth s value env).map fun typing => typing.ty.widen)
  pure (ty.map fun ty => { ty, dynamic := true, mutable? := some mutability })

/-- Check a statement or expression at the top of a document; the environment for what follows. -/
def statement (node : NodeId) (env : TypeEnv) : CheckM TypeEnv := do
  match ← kindOf s node with
  | .constBinding name written? value _ =>
      let interface ← record s node (← constInterface s written? value env)
      pure (env.extend name interface)
  | .letBinding name written? value mutability _ =>
      let interface ← record s node (← letInterface s written? value mutability env)
      pure (env.extend name interface)
  | .importing path specifiers =>
      let (interface, bindings) :=
        importInterfaces s.modules path (← s.tree.span node) specifiers
      mark s node interface
      pure (env.extendAll bindings)
  | _ =>
      let _ ← synth s node env
      pure env

/-- Check statements in order, each in the environment after the ones before it. -/
def program (nodes : List NodeId) (env : TypeEnv) : CheckM TypeEnv :=
  nodes.foldlM (fun env node => statement s node env) env

/-- Record an error found outside the check of a node, such as a cyclic definition. -/
def recordError (node : NodeId) (e : TypeError) : CheckM Interface := record s node (.error e)

/-- Take over interfaces that were computed before. -/
def adopt (entries : List (NodeId × Interface)) : CheckM Unit :=
  modify fun m => m.insertAll entries

end ReactiveDoc.Check
