import ReactiveDoc.Signal.Graph

namespace ReactiveDoc.Signal

/-!
# Signals that nothing owns

A signal lives as long as it is held from outside, or some living signal comes from it, carries
it, or has a function that mentions it.  Being told of changes keeps nothing alive, so a signal
that nothing owns is no longer told, and passes nothing on.

* `Owning` — the signals that values and functions mention.
* `Graph.living` — the signals that are owned.
* `Graph.release` — forget the registrations of the others.
-/

/-- The signals that values, functions of maps and functions of flat maps mention. -/
structure Owning (P F Φ : Type) where
  value : P → List SignalId
  step : F → List SignalId
  choice : Φ → List SignalId

variable {P F Φ : Type}

/-- The signals that a signal of a given form comes from or mentions in its functions. -/
def Form.mentions (o : Owning P F Φ) : Form F Φ → List SignalId
  | constant | cell => []
  | map source steps role => source :: (steps ++ role.inverse?.toList).flatMap o.step
  | lift source | label _ source => [source]
  | flatMap source choice => source :: o.choice choice
  | join sources => sources
  | reference target? => target?.toList

/-- The signals that a signal carries. -/
def Memo.mentions (o : Owning P F Φ) (m : Memo P) : List SignalId :=
  match m.outcome? with
  | some (.ok p) => o.value p
  | _ => []

/-- The signals that a signal owns. -/
def Node.owned (o : Owning P F Φ) (n : Node P F Φ) : List SignalId :=
  n.form.mentions o ++ n.memo.mentions o ++ (n.inner?.map Inner.signal).toList

/-- Take away signals that neither are held nor belong to a remaining one, until none is left to
    take away. -/
def livingWithin (owned : Array (List SignalId)) (held : List SignalId) :
    Nat → List SignalId → List SignalId
  | 0, ids => ids
  | fuel + 1, ids =>
      let kept := ids.filter fun id =>
        held.contains id || ids.any fun owner => (owned.getD owner []).contains id
      if kept.length = ids.length then ids else livingWithin owned held fuel kept

/-- The signals that are owned, those in `held` from outside. -/
def Graph.living (o : Owning P F Φ) (g : Graph P F Φ) (held : List SignalId) : List SignalId :=
  livingWithin (g.nodes.map (Node.owned o)) held g.size (List.range g.size)

/-- Signals that nothing owns are no longer told of changes. -/
def Graph.release (o : Owning P F Φ) (g : Graph P F Φ) (held : List SignalId) : Graph P F Φ :=
  let living := g.living o held
  let isKept : Dependent → Bool
    | .signal id => living.contains id
    | _ => true
  { g with nodes := g.nodes.map fun n => { n with dependents := n.dependents.filter isKept } }

end ReactiveDoc.Signal
