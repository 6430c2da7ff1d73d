import ReactiveDoc.Syntax.Reference

namespace ReactiveDoc

/-!
# The order of fragments

A fragment may use a binding further down.  Fragments that use each other form a group, and the
groups are ordered so that definitions come before their uses; what is left open is in the order
of the document.

* `resolveDefinition?` — the definition that a use reads.
* `uses` — the uses between fragments.
* `reachEachOther` — two fragments reach each other along uses.
* `fragmentGroups` — the groups in their order.
-/

/-- Fragments that use each other, or a fragment on its own.

    `members` are positions in the order of the document.  A group is `cyclic` if it uses its own
    bindings, and such a group is `legal` if all its members are annotated and none of these uses
    is read before a function runs.  `chain` names the bindings around the circle. -/
structure Group where
  members : List Nat
  cyclic : Bool
  legal : Bool
  chain : List String
  deriving DecidableEq, Repr

/-! ### Uses between fragments -/

/-- Which of the fragments that define a name a use in `user` reads: the fragment itself, else the
    nearest one before it, else the first one after it. -/
def resolveDefinition? (definitions : List Nat) (user : Nat) : Option Nat :=
  if definitions.contains user then some user
  else ((definitions.filter (· < user)).getLast?).orElse fun _ => definitions.find? (user < ·)

/-- A use in the fragment `user` of a binding of the fragment `definition`. -/
structure Use where
  definition : Nat
  user : Nat
  deferred : Bool
  deriving DecidableEq, Repr

/-- The names that each fragment defines. -/
def definitionsOf (kinds : List NodeKind) (name : String) : List Nat :=
  kinds.zipIdx.filterMap fun (kind, position) =>
    if kind.definedNames.contains name then some position else none

/-- The uses of other fragments' or its own bindings by the fragment `user`. -/
def usesBy (kinds : List NodeKind) (user : Nat) (references : List Reference) : List Use :=
  references.filterMap fun reference =>
    (resolveDefinition? (definitionsOf kinds reference.name) user).map fun definition =>
      ⟨definition, user, reference.deferred⟩

/-- The forms of the fragments. -/
def fragmentKinds (t : Tree) (fragments : List NodeId) : Except Fault (List NodeKind) :=
  fragments.mapM t.kind

/-- All uses between the fragments of a document. -/
def uses (t : Tree) (fragments : List NodeId) : Except Fault (List Use) := do
  let kinds ← fragmentKinds t fragments
  let references ← fragments.mapM t.references
  pure (references.zipIdx.flatMap fun (references, user) => usesBy kinds user references)

/-! ### Reachability -/

/-- The users of a fragment's bindings. -/
def usersOf (us : List Use) (definition : Nat) : List Nat :=
  us.filterMap fun u => if u.definition = definition then some u.user else none

/-- The fragments reached from those to visit, added to those seen. -/
def explore (us : List Use) : Nat → List Nat → List Nat → List Nat
  | 0, _, seen => seen
  | _, [], seen => seen
  | fuel + 1, x :: rest, seen =>
      if seen.contains x then explore us fuel rest seen
      else explore us fuel (usersOf us x ++ rest) (x :: seen)

/-- The fragments reached from one along uses, itself included.  Every use is followed once. -/
def reachedFrom (us : List Use) (start : Nat) : List Nat :=
  explore us (us.length + 1) [start] []

/-- The fragments reached from each of the first `n`. -/
def reachTable (us : List Use) (n : Nat) : Array (List Nat) :=
  ((List.range n).map (reachedFrom us)).toArray

/-- Two fragments reach each other. -/
def reachEachOther (table : Array (List Nat)) (a b : Nat) : Bool :=
  (table.getD a []).contains b && (table.getD b []).contains a

/-- The fragments that reach `a` and are reached from it, in order. -/
def component (table : Array (List Nat)) (n a : Nat) : List Nat :=
  (List.range n).filter fun b => reachEachOther table a b

/-- The components, ordered by their first members. -/
def components (us : List Use) (n : Nat) : List (List Nat) :=
  let table := reachTable us n
  (List.range n).filterMap fun a =>
    let members := component table n a
    if members.head? = some a then some members else none

/-! ### The order of groups -/

/-- No use in the component reads a fragment that is still pending elsewhere. -/
def isReady (us : List Use) (pending : List (List Nat)) (members : List Nat) : Bool :=
  us.all fun u =>
    !(members.contains u.user) || members.contains u.definition ||
      !(pending.any fun other => other.contains u.definition)

/-- Put components in order: of those that are ready, always the first. -/
def orderComponents (us : List Use) : Nat → List (List Nat) → List (List Nat)
  | 0, pending => pending
  | fuel + 1, pending =>
      match pending.find? (isReady us pending) with
      | some members => members :: orderComponents us fuel (pending.erase members)
      | none => pending

/-- The uses within a component. -/
def innerUses (us : List Use) (members : List Nat) : List Use :=
  us.filter fun u => members.contains u.definition && members.contains u.user

/-- The names along a circle, closed with the first one. -/
def closeChain (names : List String) : List String := names ++ names.head?.toList

/-- The group of a component. -/
def groupOf (kinds : List NodeKind) (us : List Use) (members : List Nat) : Group :=
  let inner := innerUses us members
  let forms := members.filterMap fun m => kinds[m]?
  let cyclic := 1 < members.length || inner.any fun u => u.definition == u.user
  { members, cyclic
    legal := cyclic && (inner.all Use.deferred && forms.all NodeKind.isAnnotatedBinding)
    chain := if cyclic then closeChain (forms.flatMap NodeKind.definedNames) else [] }

/-- The fragments in groups, definitions before their uses. -/
def fragmentGroups (t : Tree) (fragments : List NodeId) : Except Fault (List Group) := do
  let kinds ← fragmentKinds t fragments
  let us ← uses t fragments
  let parts := components us fragments.length
  pure ((orderComponents us parts.length parts).map (groupOf kinds us))

end ReactiveDoc
