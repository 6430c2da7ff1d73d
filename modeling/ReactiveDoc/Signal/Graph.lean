import ReactiveDoc.Signal.Basic
import ReactiveDoc.Text.Quoted

namespace ReactiveDoc.Signal

/-!
# The graph of signals

A signal keeps its last outcome, a version that counts the different outcomes it had, and a mark
that it may be out of date.  A write only marks: everything that registered as a dependent is
marked, and is then forgotten until it registers again.

* `Form` — what a signal's value comes from; `MapRole` — whether a map can be set or fused.
* `Node`, `Graph` — a signal with its memory; all signals, watchers and probes.
* `Graph.anchor` — the signal that a label or a resolved reference stands for.
* `Graph.notify` — mark dependents, and theirs, as out of date.
* `Graph.constant`, `Graph.cell`, … — add a signal.
-/

/-- A map with an inverse can be set.  Of one without it matters whether it is uniform: then its
    values are of the type of its source's, and it can be fused with a map that follows. -/
inductive MapRole (F : Type) where
  | readOnly (uniform : Bool)
  | writable (inverse : F)

/-- The inverse of a map, if it has one. -/
def MapRole.inverse? {F : Type} : MapRole F → Option F
  | readOnly _ => none
  | writable inverse => some inverse

/-- What a signal's value comes from.

    `F` holds the functions of maps and `Φ` the functions of flat maps.  A map applies its steps
    one after the other. -/
inductive Form (F Φ : Type) where
  | constant
  | cell
  | map (source : SignalId) (steps : List F) (role : MapRole F)
  | lift (source : SignalId)
  | flatMap (source : SignalId) (choice : Φ)
  | join (sources : List SignalId)
  | label (name : String) (source : SignalId)
  | reference (target? : Option SignalId)

/-- The kind of a signal of a given form. -/
def Form.kind {F Φ : Type} : Form F Φ → SignalKind
  | constant => .constant
  | cell => .cell
  | map _ _ (.readOnly _) => .map
  | map _ _ (.writable _) => .mapWritable
  | lift _ => .lift
  | flatMap _ _ => .flatMap
  | join _ => .join
  | label _ _ => .label
  | reference _ => .reference

/-- The signal that a label or a resolved reference stands for. -/
def Form.target? {F Φ : Type} : Form F Φ → Option SignalId
  | label _ source => some source
  | reference target? => target?
  | _ => none

/-- Constants never change, so they remember no dependents. -/
def Form.remembers {F Φ : Type} : Form F Φ → Bool
  | constant => false
  | _ => true

/-- What is told when a signal changes. -/
inductive Dependent where
  | signal (id : SignalId)
  | watcher (index : Nat)
  | probe (index : Nat)
  deriving DecidableEq, Repr

/-! ### Memory -/

/-- The last outcome of a signal, how many different ones there were so far, and whether the last
    one may be out of date. -/
structure Memo (P : Type) where
  outcome? : Option (Outcome P) := none
  version : Nat := 0
  dirty : Bool := true

namespace Memo

variable {P : Type}

/-- A first outcome that is up to date. -/
def given (outcome : Outcome P) : Memo P := ⟨some outcome, 1, false⟩

/-- The last outcome; a signal that was never computed has none. -/
def read (m : Memo P) : Outcome P := m.outcome?.getD (.error .unreconciled)

/-- The outcome is the last one. -/
def holds [BEq P] (m : Memo P) (outcome : Outcome P) : Bool :=
  match m.outcome? with
  | some last => last.same outcome
  | none => false

/-- Remember an outcome; only a different one gives a new version. -/
def store [BEq P] (m : Memo P) (outcome : Outcome P) : Memo P :=
  if m.holds outcome then m else { m with outcome? := some outcome, version := m.version + 1 }

end Memo

/-- The signal that a flat map follows, and its version when it was last read; `0` before that. -/
structure Inner where
  signal : SignalId
  seen : Nat
  deriving DecidableEq, Repr

/-- A signal.  `seen` are the versions of its sources when it was last computed. -/
structure Node (P F Φ : Type) where
  form : Form F Φ
  memo : Memo P := {}
  dependents : List Dependent := []
  seen : List Nat := []
  inner? : Option Inner := none

/-- An observer of a signal.  It is pending if the signal may have changed since it was polled. -/
structure Watcher where
  source : SignalId
  pending : Bool := true
  seen : Nat := 0
  deriving DecidableEq, Repr

/-- All signals and watchers, and how often each probe was told of a change. -/
structure Graph (P F Φ : Type) where
  nodes : Array (Node P F Φ) := #[]
  watchers : Array Watcher := #[]
  probes : Array Nat := #[]

namespace Graph

variable {P F Φ : Type}

/-- The number of signals. -/
def size (g : Graph P F Φ) : Nat := g.nodes.size

/-- A reference that nothing was assigned to yet. -/
def unresolved : Node P F Φ :=
  { form := .reference none, memo := ⟨some (.error .unresolvedRef), 0, false⟩ }

/-- A signal; one that is not there reads like an unresolved reference. -/
def node (g : Graph P F Φ) (id : SignalId) : Node P F Φ := g.nodes.getD id unresolved

/-- Change a signal. -/
def modify (g : Graph P F Φ) (id : SignalId) (f : Node P F Φ → Node P F Φ) : Graph P F Φ :=
  { g with nodes := g.nodes.modify id f }

/-! ### Labels and references -/

/-- Move on to the target at most `fuel` times. -/
def anchorWithin (g : Graph P F Φ) : Nat → SignalId → SignalId
  | 0, id => id
  | fuel + 1, id =>
      match (g.node id).form.target? with
      | some target => g.anchorWithin fuel target
      | none => id

/-- The signal that a label or a resolved reference stands for in the end; others stand for
    themselves. -/
def anchor (g : Graph P F Φ) (id : SignalId) : SignalId := g.anchorWithin (g.size + 1) id

/-- The last outcome of a signal. -/
def value (g : Graph P F Φ) (id : SignalId) : Outcome P := (g.node (g.anchor id)).memo.read

/-- The version of a signal. -/
def version (g : Graph P F Φ) (id : SignalId) : Nat := (g.node (g.anchor id)).memo.version

/-- The kind of a signal; a label is not looked through. -/
def kind (g : Graph P F Φ) (id : SignalId) : SignalKind := (g.node id).form.kind

/-- The name of a label. -/
def labelName? (g : Graph P F Φ) (id : SignalId) : Option String :=
  match (g.node id).form with
  | .label name _ => some name
  | _ => none

/-- The signal is no reference, or one with a target. -/
def isResolved (g : Graph P F Φ) (id : SignalId) : Bool :=
  match (g.node id).form with
  | .reference none => false
  | _ => true

/-- Whether a signal carries a plain value, found at most `fuel` signals further up. -/
def isPlainWithin (g : Graph P F Φ) : Nat → SignalId → Bool
  | 0, _ => true
  | fuel + 1, id =>
      match (g.node id).form with
      | .join _ | .lift _ => false
      | .label _ source | .reference (some source) | .map source _ (.readOnly true) =>
          g.isPlainWithin fuel source
      | _ => true

/-- The signal carries a plain value, neither a list nor a lifted outcome, if only uniform maps
    carry such. -/
def isPlain (g : Graph P F Φ) (id : SignalId) : Bool := g.isPlainWithin (g.size + 1) id

/-- A signal for people. -/
def describe (g : Graph P F Φ) (id : SignalId) : String :=
  let label := (g.labelName? id).elim "" fun name => ", label: " ++ Text.quoted name
  "Signal \x7b kind: " ++ (g.kind id).name ++ ", version: " ++ natText (g.version id) ++ label
    ++ " \x7d"

/-! ### Dependents -/

/-- Tell a dependent of the next change of a signal. -/
def depend (g : Graph P F Φ) (id : SignalId) (d : Dependent) : Graph P F Φ :=
  g.modify (g.anchor id) fun n =>
    if !n.form.remembers || n.dependents.contains d then n
    else { n with dependents := n.dependents ++ [d] }

/-- No longer tell a dependent. -/
def undepend (g : Graph P F Φ) (id : SignalId) (d : Dependent) : Graph P F Φ :=
  g.modify (g.anchor id) fun n => { n with dependents := n.dependents.filter (· != d) }

/-- The number of registrations in the whole graph. -/
def registrations (g : Graph P F Φ) : Nat :=
  g.nodes.toList.foldr (fun n total => n.dependents.length + total) 0

/-- Mark a signal as out of date, without the dependents it had. -/
def mark (g : Graph P F Φ) (id : SignalId) : Graph P F Φ :=
  g.modify id fun n => { n with memo := { n.memo with dirty := true }, dependents := [] }

theorem total_modify {α : Type} (f : α → Nat) (h : α → α) (l : List α) (i : Nat) (d : α)
    (hh : f (h (l.getD i d)) = 0) (hd : f d = 0) :
    (l.modify i h).foldr (fun a n => f a + n) 0 + f (l.getD i d)
      = l.foldr (fun a n => f a + n) 0 := by
  induction l generalizing i with
  | nil => simp [hd]
  | cons a l ih =>
    cases i with
    | zero => simp_all [Nat.add_comm]
    | succ i =>
      have := ih i (by simpa using hh)
      simp only [List.modify_succ_cons, List.foldr_cons, List.getD_cons_succ]
      omega

/-- What a marked signal had registered is gone from the graph. -/
theorem registrations_mark (g : Graph P F Φ) (id : SignalId) :
    (g.mark id).registrations + (g.node id).dependents.length = g.registrations := by
  have h := total_modify (fun n : Node P F Φ => n.dependents.length)
    (fun n => { n with memo := { n.memo with dirty := true }, dependents := [] })
    g.nodes.toList id unresolved (by simp) (by simp [unresolved])
  simpa [registrations, mark, modify, node, Array.getD_eq_getD_getElem?] using h

/-- Mark dependents, and whatever depends on them, as out of date. -/
def notifyAll (g : Graph P F Φ) : List Dependent → Graph P F Φ
  | [] => g
  | .signal id :: rest => (g.mark id).notifyAll ((g.node id).dependents ++ rest)
  | .watcher index :: rest =>
      notifyAll { g with watchers := g.watchers.modify index fun w => { w with pending := true } }
        rest
  | .probe index :: rest => notifyAll { g with probes := g.probes.modify index (· + 1) } rest
termination_by ds => g.registrations + ds.length
decreasing_by
  · have := registrations_mark g id
    simp only [List.length_append, List.length_cons]
    omega
  · simp [registrations]
  · simp [registrations]

/-- Tell the dependents of a signal that it changed, and forget them. -/
def notify (g : Graph P F Φ) (id : SignalId) : Graph P F Φ :=
  let id := g.anchor id
  (g.modify id fun n => { n with dependents := [] }).notifyAll (g.node id).dependents

/-! ### New signals -/

/-- Add a signal. -/
def add (g : Graph P F Φ) (n : Node P F Φ) : SignalId × Graph P F Φ :=
  (g.nodes.size, { g with nodes := g.nodes.push n })

/-- Add a signal that never changes. -/
def constant (g : Graph P F Φ) (outcome : Outcome P) : SignalId × Graph P F Φ :=
  g.add { form := .constant, memo := .given outcome }

/-- Add a signal that can be set. -/
def cell (g : Graph P F Φ) (outcome : Outcome P) : SignalId × Graph P F Φ :=
  g.add { form := .cell, memo := .given outcome }

/-- Add a reference whose target will be given later. -/
def reference (g : Graph P F Φ) : SignalId × Graph P F Φ := g.add unresolved

/-- Add the image of a signal under a function, which gives plain values unless it is said whether
    it gives values of the type that it takes. -/
def map (g : Graph P F Φ) (source : SignalId) (f : F) (uniform : Bool := g.isPlain source) :
    SignalId × Graph P F Φ :=
  g.add { form := .map source [f] (.readOnly uniform) }

/-- Add the image of a signal under a function that gives values of the type that it takes.  The
    image of a uniform map becomes one signal that applies both functions. -/
def mapFused (g : Graph P F Φ) (source : SignalId) (f : F) : SignalId × Graph P F Φ :=
  match (g.node source).form with
  | .map origin steps (.readOnly true) =>
      g.add { form := .map origin (steps ++ [f]) (.readOnly true) }
  | _ => g.map source f true

/-- Add the image of a signal under a function with an inverse. -/
def mapWritable (g : Graph P F Φ) (source : SignalId) (f inverse : F) :
    SignalId × Graph P F Φ :=
  g.add { form := .map source [f] (.writable inverse) }

/-- Add a signal that follows the one chosen for the value of another. -/
def flatMap (g : Graph P F Φ) (source : SignalId) (choice : Φ) : SignalId × Graph P F Φ :=
  g.add { form := .flatMap source choice }

/-- Add the list of several signals. -/
def join (g : Graph P F Φ) (sources : List SignalId) : SignalId × Graph P F Φ :=
  g.add { form := .join sources }

/-- Add a signal that succeeds with the outcome of another. -/
def lift (g : Graph P F Φ) (source : SignalId) : SignalId × Graph P F Φ :=
  g.add { form := .lift source }

/-- Add a name for a signal. -/
def label (g : Graph P F Φ) (source : SignalId) (name : String) : SignalId × Graph P F Φ :=
  g.add { form := .label name source }

/-- Give a reference its target; whatever read the reference before is told. -/
def resolve (g : Graph P F Φ) (id target : SignalId) : Except SignalError (Graph P F Φ) :=
  match (g.node id).form with
  | .reference none =>
      let waiting := (g.node id).dependents
      let resolved := g.modify id fun _ => { form := .reference (some target) }
      .ok (resolved.notifyAll waiting)
  | .reference (some _) => .error .alreadyResolved
  | _ => .error .notAReference

/-! ### Watchers and probes -/

/-- Add a watcher; it is pending. -/
def watch (g : Graph P F Φ) (source : SignalId) : Nat × Graph P F Φ :=
  (g.watchers.size, { g with watchers := g.watchers.push { source } })

/-- The watched signal may have changed since the last poll. -/
def isPending (g : Graph P F Φ) (watcher : Nat) : Bool :=
  (g.watchers[watcher]?.map Watcher.pending).getD false

/-- Add a probe; it was told of no change yet. -/
def probe (g : Graph P F Φ) : Nat × Graph P F Φ :=
  (g.probes.size, { g with probes := g.probes.push 0 })

/-- How often a probe was told of a change. -/
def hits (g : Graph P F Φ) (probe : Nat) : Nat := g.probes[probe]?.getD 0

end Graph

end ReactiveDoc.Signal
