import ReactiveDoc.Fault
import ReactiveDoc.Signal.Graph

namespace ReactiveDoc.Signal

/-!
# Bringing signals up to date

Nothing is computed before it is read.  A signal that is marked first brings its sources up to
date and registers with them, and is computed again only if one of their versions moved.

* `World`, `Action` — the graph with whatever else functions of signals may use.
* `Rules` — the operations that a signal applies to its sources, and its functions.
* `reconcileNode`, `setNode` — bring one signal up to date; write one signal.
* `Rules.ofCodes` — the operations on all signals, for given functions.
* `Rules.read`, `Rules.poll` — the current outcome; what a watcher is to be told.
-/

/-- A graph, the identities given out so far, and the rest of what functions of signals use. -/
structure World (P F Φ σ : Type) where
  graph : Graph P F Φ
  identities : Nat
  host : σ

/-- A computation on a world; only a fault stops it. -/
abbrev Action (P F Φ σ : Type) := StateT (World P F Φ σ) (Except Fault)

/-- What signals carry besides plain values. -/
class Carrier (P : Type) extends BEq P where
  /-- The values of joined signals. -/
  ofList : List P → P
  /-- The outcome of a lifted signal. -/
  ofOutcome : Outcome P → P

variable {P F Φ σ : Type}

/-! ### Access to the graph -/

/-- The graph as it is now. -/
def graph : Action P F Φ σ (Graph P F Φ) := return (← get).graph

/-- Change the graph. -/
def update (f : Graph P F Φ → Graph P F Φ) : Action P F Φ σ Unit :=
  modify fun w => { w with graph := f w.graph }

/-- Add to the graph. -/
def create {α : Type} (f : Graph P F Φ → α × Graph P F Φ) : Action P F Φ σ α :=
  modifyGet fun w => let (a, g) := f w.graph; (a, { w with graph := g })

/-- As many new identities, in order, as given; the first of them. -/
def newIdentities (n : Nat) : Action P F Φ σ Nat :=
  modifyGet fun w => (w.identities, { w with identities := w.identities + n })

/-- Change what the host keeps. -/
def updateHost (f : σ → σ) : Action P F Φ σ Unit := modify fun w => { w with host := f w.host }

/-- Register a signal as a dependent of another. -/
def register (id source : SignalId) : Action P F Φ σ Unit :=
  update fun g => g.depend source (.signal id)

/-- Remember an outcome of a signal. -/
def store [BEq P] (id : SignalId) (outcome : Outcome P) : Action P F Φ σ Unit :=
  update fun g => g.modify id fun n => { n with memo := n.memo.store outcome }

/-- Remember the versions of a signal's sources. -/
def remember (id : SignalId) (versions : List Nat) : Action P F Φ σ Unit :=
  update fun g => g.modify id fun n => { n with seen := versions }

/-- Remember the signal that a flat map follows. -/
def follow (id : SignalId) (inner? : Option Inner) : Action P F Φ σ Unit :=
  update fun g => g.modify id fun n => { n with inner? }

/-- A signal is up to date now. -/
def clean (id : SignalId) : Action P F Φ σ Unit :=
  update fun g => g.modify id fun n => { n with memo := { n.memo with dirty := false } }

/-! ### Rules -/

/-- The operations that a signal applies to the signals it comes from, and the functions of maps
    and flat maps. -/
structure Rules (P F Φ σ : Type) where
  reconcile : SignalId → Action P F Φ σ Unit
  set : SignalId → Outcome P → Action P F Φ σ (Except SignalError Unit)
  /-- The function of a map. -/
  apply : F → P → Action P F Φ σ (Outcome P)
  /-- The inverse of a map that can be set. -/
  invert : F → P → Action P F Φ σ P
  /-- The signal that a flat map follows for a value of its source. -/
  choose : Φ → P → Action P F Φ σ SignalId

/-- The operations where no recursion is left. -/
def Rules.exhausted : Rules P F Φ σ where
  reconcile _ := throw .endless
  set _ _ := throw .endless
  apply _ _ := throw .endless
  invert _ _ := throw .endless
  choose _ _ := throw .endless

variable [Carrier P] (r : Rules P F Φ σ)

/-- Apply the steps of a map in order; the first failure stays. -/
def applySteps (steps : List F) (outcome : Outcome P) : Action P F Φ σ (Outcome P) :=
  steps.foldlM (fun outcome f =>
    match outcome with
    | .ok p => r.apply f p
    | .error e => pure (.error e)) outcome

/-! ### Reading -/

/-- The signal was never computed, or a source has another version than at the last time. -/
def isStale (id : SignalId) (versions : List Nat) : Action P F Φ σ Bool := do
  let n := (← graph).node id
  pure (n.memo.outcome?.isNone || n.seen != versions)

/-- Bring a signal with one source up to date by a function on outcomes. -/
def reconcileImage (id source : SignalId) (compute : Outcome P → Action P F Φ σ (Outcome P)) :
    Action P F Φ σ Unit := do
  r.reconcile source
  register id source
  let version := (← graph).version source
  if ← isStale id [version] then
    remember id [version]
    store id (← compute ((← graph).value source))
  clean id

/-- Bring the first `sources` up to date and register with each; their versions. -/
def reconcileSources (id : SignalId) (sources : List SignalId) : Action P F Φ σ (List Nat) :=
  sources.mapM fun source => do
    r.reconcile source
    register id source
    return (← graph).version source

/-- The values of several signals, or the first failure. -/
def Graph.valueAll (g : Graph P F Φ) (sources : List SignalId) : Outcome (List P) :=
  sources.mapM g.value

/-- Bring a join up to date. -/
def reconcileJoin (id : SignalId) (sources : List SignalId) : Action P F Φ σ Unit := do
  let versions ← reconcileSources r id sources
  if ← isStale id versions then
    remember id versions
    store id (((← graph).valueAll sources).map Carrier.ofList)
  clean id

/-- Leave the signal that a flat map followed. -/
def leave (id : SignalId) : Action P F Φ σ Unit := do
  match ((← graph).node id).inner? with
  | some inner =>
      follow id none
      update fun g => g.undepend inner.signal (.signal id)
  | none => pure ()

/-- Leave the signal that a flat map followed, and follow the one for the source's value; the
    source's failure if it has none. -/
def turn (id source : SignalId) (choice : Φ) : Action P F Φ σ (Option (Outcome P)) := do
  leave id
  match (← graph).value source with
  | .ok p =>
      follow id (some ⟨← r.choose choice p, 0⟩)
      pure none
  | .error e => pure (some (.error e))

/-- Bring the signal that a flat map follows up to date; its outcome if that is new. -/
def reconcileInner (id : SignalId) : Action P F Φ σ (Option (Outcome P)) := do
  match ((← graph).node id).inner? with
  | none => pure none
  | some inner =>
      r.reconcile inner.signal
      register id inner.signal
      let g ← graph
      let version := g.version inner.signal
      if inner.seen = 0 ∨ version ≠ inner.seen then
        follow id (some ⟨inner.signal, max version 1⟩)
        pure (some (g.value inner.signal))
      else pure none

/-- Remember a new outcome, if there is one; the signal is up to date then. -/
def conclude (id : SignalId) (outcome? : Option (Outcome P)) : Action P F Φ σ Unit := do
  match outcome? with
  | some outcome => store id outcome
  | none => pure ()
  clean id

/-- Bring a flat map up to date. -/
def reconcileChoice (id source : SignalId) (choice : Φ) : Action P F Φ σ Unit := do
  r.reconcile source
  register id source
  let version := (← graph).version source
  let failure ← if ← isStale id [version] then
      remember id [version]
      turn r id source choice
    else pure none
  conclude id ((← reconcileInner r id).or failure)

/-- Bring a signal up to date if it is marked.  A label or reference that stands for no other
    signal in the end is part of a circle. -/
def reconcileNode (id : SignalId) : Action P F Φ σ Unit := do
  let g ← graph
  let id := g.anchor id
  let n := g.node id
  if n.memo.dirty then
    match n.form with
    | .map source steps _ => reconcileImage r id source (applySteps r steps)
    | .lift source => reconcileImage r id source fun outcome => pure (.ok (Carrier.ofOutcome outcome))
    | .flatMap source choice => reconcileChoice r id source choice
    | .join sources => reconcileJoin r id sources
    | .label .. | .reference _ => throw .endless
    | .constant | .cell => pure ()

/-! ### Writing -/

/-- Write a cell and tell its dependents, unless it has the outcome already. -/
def setCell (id : SignalId) (outcome : Outcome P) : Action P F Φ σ Unit :=
  update fun g =>
    if (g.node id).memo.holds outcome then g
    else (g.modify id fun n => { n with memo := n.memo.store outcome }).notify id

/-- Take over an outcome that was written through to the source. -/
def settleWritten (id source : SignalId) (outcome : Outcome P) : Action P F Φ σ Unit := do
  let changed := !((← graph).node id).memo.holds outcome
  store id outcome
  clean id
  remember id [(← graph).version source]
  register id source
  if changed then update fun g => g.notify id

/-- Write a map with an inverse: first its source, then itself. -/
def setWritable (id source : SignalId) (inverse : F) (outcome : Outcome P) :
    Action P F Φ σ (Except SignalError Unit) := do
  let written ← match outcome with
    | .ok p => .ok <$> r.invert inverse p
    | .error e => pure (.error e)
  match ← r.set source written with
  | .error e => pure (.error e)
  | .ok () =>
      r.reconcile source
      settleWritten id source outcome
      pure (.ok ())

/-- Write a signal. -/
def setNode (id : SignalId) (outcome : Outcome P) : Action P F Φ σ (Except SignalError Unit) := do
  let g ← graph
  let id := g.anchor id
  match (g.node id).form with
  | .cell =>
      setCell id outcome
      pure (.ok ())
  | .map source _ (.writable inverse) => setWritable r id source inverse outcome
  | .reference none => pure (.error .unresolvedRef)
  | .label .. | .reference (some _) => throw .endless
  | form => pure (.error (.readOnly form.kind))

/-! ### All signals -/

/-- The functions of the signals of a graph. -/
structure Codes (P F Φ σ : Type) where
  apply : F → P → Action P F Φ σ (Outcome P)
  invert : F → P → Action P F Φ σ P
  choose : Φ → P → Action P F Φ σ SignalId

/-- The operations on signals that come from others over at most `depth - 1` steps. -/
def Rules.ofCodes (codes : Codes P F Φ σ) : Nat → Rules P F Φ σ
  | 0 => .exhausted
  | depth + 1 =>
      { reconcile := fun id => reconcileNode (ofCodes codes depth) id
        set := fun id outcome => setNode (ofCodes codes depth) id outcome
        apply := codes.apply
        invert := codes.invert
        choose := codes.choose }

/-- More steps than there are between any two signals. -/
def depthLimit : Nat := 1000000

/-- The current outcome of a signal. -/
def Rules.read (id : SignalId) : Action P F Φ σ (Outcome P) := do
  r.reconcile id
  return (← graph).value id

/-- Give a reference its target. -/
def resolve (reference target : SignalId) : Action P F Φ σ (Except SignalError Unit) := do
  match (← graph).resolve reference target with
  | .ok resolved =>
      update fun _ => resolved
      pure (.ok ())
  | .error e => pure (.error e)

/-- What a watcher is to be told: the outcome, if the signal may have changed since the last poll
    and then turns out to have another version. -/
def Rules.poll (watcher : Nat) : Action P F Φ σ (Option (Outcome P)) := do
  match (← graph).watchers[watcher]? with
  | none => pure none
  | some w =>
      if w.pending then
        update fun g => { g with watchers := g.watchers.modify watcher fun w => { w with pending := false } }
        r.reconcile w.source
        update fun g => g.depend w.source (.watcher watcher)
        let g ← graph
        let version := g.version w.source
        let known := g.watchers[watcher]?.map Watcher.seen
        update fun g => { g with watchers := g.watchers.modify watcher fun w => { w with seen := version } }
        if known = some version then pure none else pure (some (g.value w.source))
      else pure none

end ReactiveDoc.Signal
