import ReactiveDoc.Cache.Key
import ReactiveDoc.Check.Checker
import ReactiveDoc.Diagnostic.Collector
import ReactiveDoc.Document.Basic
import ReactiveDoc.Document.Group

namespace ReactiveDoc

/-!
# Checking documents

* `CheckConfig`, `Compiler` — how documents are checked and what they may use.
* `CheckedDocument` — what is found out about a document.
* `Compiler.check` — check a document, group by group, with a cache of earlier results if there
  is one.
* `Compiler.checkAll` — check several documents with the same cache.
-/

/-- How documents are checked. -/
structure CheckConfig where
  /-- The number of errors that are reported; the others are only counted. -/
  maxErrors : Nat := 100
  /-- Errors keep their hints. -/
  suggestions : Bool := true
  allowUnannotatedParams : Bool := false
  deriving DecidableEq, Repr

/-- The options of the checker. -/
def CheckConfig.options (c : CheckConfig) : Check.Options :=
  { allowUnannotatedParams := c.allowUnannotatedParams }

/-- The typings of the names that the host provides. -/
abbrev HostTypes := List (String × Typing)

/-- How documents are checked, and the modules and names that they may use. -/
structure Compiler where
  config : CheckConfig := {}
  modules : Check.ModuleTypes := []
  host : HostTypes := []

/-- What is found out about a document.  `errors` are the first errors in the order of the
    source, and `dropped` counts the others; `exports` is the type that importers see. -/
structure CheckedDocument where
  interfaces : InterfaceMap
  exports : Ty
  errors : List TypeError
  dropped : Nat
  groups : List Group

/-- Some error was found. -/
def CheckedDocument.hasErrors (c : CheckedDocument) : Bool := !c.errors.isEmpty || 0 < c.dropped

/-- The names that the host provides, as an environment. -/
def HostTypes.env (host : HostTypes) : TypeEnv :=
  Env.empty.extendAll (host.map fun (name, typing) => (name, .ok typing))

namespace Compiler

/-- A check with the cache as it is so far, if there is one. -/
abbrev CompileM := StateT (Option FragmentCache) Check.CheckM

/-- What stays the same while a document is checked. -/
def setting (c : Compiler) (d : Document) : Check.Setting :=
  { tree := d.tree, modules := c.modules, options := c.config.options }

variable (s : Check.Setting)

/-! ### Fragments -/

/-- What the check of a fragment recorded and brought into scope. -/
def resultOf (node : NodeId) (env : TypeEnv) : Check.CheckM FragmentResult := do
  let nodes ← s.tree.subtree node
  let names := (← s.tree.kind node).definedNames
  let m ← get
  pure {
    interfaces := nodes.filterMap fun id => (m.get? id).map fun interface => (id, interface)
    bindings := names.filterMap fun name => (env.get? name).map fun interface => (name, interface) }

/-- Take over the result of an earlier check. -/
def replay (result : FragmentResult) (env : TypeEnv) : Check.CheckM TypeEnv := do
  Check.adopt result.interfaces
  pure (env.extendAll result.bindings)

/-- Check the fragment `node` at a position, or take over the result of an earlier check of it. -/
def checkFragment (position : Nat) (node : NodeId) (env : TypeEnv) : CompileM TypeEnv := do
  match ← get with
  | none => Check.statement s node env
  | some cache =>
      let key ← fragmentKey s position node env
      let (found?, cache) := cache.find key
      set (some cache)
      match found? with
      | some result => replay result env
      | none =>
          let next ← Check.statement s node env
          let result ← resultOf s node next
          set (some (cache.insert key result))
          pure next

/-! ### Groups -/

/-- The name and the typing that an annotated binding is taken to have before it is checked. -/
def declared? : NodeKind → Option (String × Typing)
  | .constBinding name (some written) _ _ => some (name, .fixed written.resolve)
  | .letBinding name (some written) _ mutability _ =>
      some (name, { ty := written.resolve, dynamic := true, mutable? := some mutability })
  | _ => none

/-- Check annotated bindings that use each other.  All are in scope from the start. -/
def checkRecursive (nodes : List NodeId) (env : TypeEnv) : Check.CheckM TypeEnv := do
  let kinds ← nodes.mapM (Check.kindOf s)
  let env := env.extendAll ((kinds.filterMap declared?).map fun (name, typing) => (name, .ok typing))
  Check.program s nodes env

/-- Record that a binding depends on itself.  Its names stand for what was recorded. -/
def rejectCyclic (chain : List String) (env : TypeEnv) (node : NodeId) : Check.CheckM TypeEnv := do
  let recorded ← Check.recordError s node { kind := .cyclicDefinition chain }
  let names := (← Check.kindOf s node).definedNames
  pure (env.extendAll (names.map fun name => (name, recorded)))

/-- Record that bindings depend on themselves. -/
def rejectAll (chain : List String) (nodes : List NodeId) (env : TypeEnv) :
    Check.CheckM TypeEnv :=
  nodes.foldlM (rejectCyclic s chain) env

/-- Check the fragments of a group. -/
def checkGroup (d : Document) (env : TypeEnv) (group : Group) : CompileM TypeEnv := do
  let members := group.members.filterMap fun m => (d.fragment? m).map fun node => (m, node)
  if !group.cyclic then
    members.foldlM (fun env (position, node) => checkFragment s position node env) env
  else if group.legal then checkRecursive s (members.map Prod.snd) env
  else rejectAll s group.chain (members.map Prod.snd) env

/-! ### Documents -/

/-- The field of an exported binding in the type of its document.  A binding that can be assigned
    to is a cell. -/
def exportOf? (kind : NodeKind) (interface : Interface) : Option (Export Ty) :=
  match kind, interface with
  | .constBinding name _ _ true, .ok typing => some ⟨name, typing.ty, typing.dynamic⟩
  | .letBinding name _ _ mutability true, .ok typing =>
      some ⟨name, cellOf mutability typing.ty, true⟩
  | .constBinding name _ _ true, .error e | .letBinding name _ _ _ true, .error e =>
      some ⟨name, .error e, false⟩
  | _, _ => none

/-- The type that importers see. -/
def exportType (d : Document) (m : InterfaceMap) : Except Fault Ty := do
  let fields ← d.fragments.mapM fun node => do
    let kind ← d.tree.kind node
    pure ((m.get? node).bind (exportOf? kind))
  pure (.module (fields.filterMap id))

/-- The errors that are reported, with the number of the others. -/
def diagnostics (config : CheckConfig) (m : InterfaceMap) : Collector :=
  let shown (e : TypeError) : TypeError := if config.suggestions then e else { e with hints := [] }
  ({ limit := config.maxErrors } : Collector).addAll (m.errors.map shown)

/-- Check a document. -/
def check (c : Compiler) (d : Document) (cache? : Option FragmentCache) :
    Except Fault (CheckedDocument × Option FragmentCache) := do
  let groups ← fragmentGroups d.tree d.fragments
  let s := c.setting d
  let checking := groups.foldlM (checkGroup s d) c.host.env
  let ((_, cache?), interfaces) ← (checking.run cache?).run (.ofSize d.tree.size)
  let exports ← exportType d interfaces
  let found := diagnostics c.config interfaces
  pure ({ interfaces, exports, errors := found.errors, dropped := found.dropped, groups }, cache?)

/-- Check several documents in order. -/
def checkAll (c : Compiler) : List Document → Option FragmentCache →
    Except Fault (List CheckedDocument × Option FragmentCache)
  | [], cache? => .ok ([], cache?)
  | d :: ds, cache? => do
      let (checked, cache?) ← c.check d cache?
      let (rest, cache?) ← c.checkAll ds cache?
      pure (checked :: rest, cache?)

end Compiler

end ReactiveDoc
