import ReactiveDoc.Env
import ReactiveDoc.Ty.Basic

namespace ReactiveDoc

/-!
# What the checker finds out about a node

* `Typing` — a type, whether the value changes over time, and what backs it if it can be set.
* `Interface` — a typing, or the error of a node that failed.
* `cellOf`, `cell?` — the types of settable cells.
-/

/-- What backs a settable binding: the document's own source, or the running session. -/
inductive Mutability where
  | code
  | session
  deriving DecidableEq, Repr

namespace Mutability

/-- The label of the cell type and of the written form. -/
def label : Mutability → String
  | code => "Code"
  | session => "Session"

/-- The kind of cell that a label names. -/
def ofLabel? (label : String) : Option Mutability :=
  if label = "Code" then some code else if label = "Session" then some session else none

end Mutability

/-- The type of a cell of a given kind with contents of type `ty`. -/
def cellOf (m : Mutability) (ty : Ty) : Ty := .labelled m.label [ty]

/-- The kind and the contents of a cell type. -/
def cell? : Ty → Option (Mutability × Ty)
  | .labelled label [ty] => (Mutability.ofLabel? label).map fun m => (m, ty)
  | _ => none

/-- The type of elements. -/
def elementType : Ty := .labelled "Element" []

/-- What is known of an expression: its type, whether its value changes over time and is thus a
    signal at run time, and what backs it if it can be assigned to. -/
structure Typing where
  ty : Ty
  dynamic : Bool
  mutable? : Option Mutability := none

namespace Typing

/-- A value that never changes. -/
def fixed (ty : Ty) : Typing := { ty, dynamic := false }

/-- The typing of a value once it has been read: it can no longer be assigned to. -/
def read (t : Typing) : Typing := { t with mutable? := none }

/-- A name of cell type stands for the cell's contents; every other name for itself. -/
def contents (t : Typing) : Typing :=
  match cell? t.ty with
  | some (m, ty) => { ty, dynamic := true, mutable? := some m }
  | none => t

/-- Equality of typings, types compared as types. -/
def same (a b : Typing) : Bool :=
  a.ty.same b.ty && a.dynamic == b.dynamic && a.mutable? == b.mutable?

end Typing

/-- The result of checking a node. -/
abbrev Interface := Except TypeError Typing

namespace Interface

/-- The type that a node contributes to its parent. -/
def ty : Interface → Ty
  | .ok typing => typing.ty
  | .error e => .error e

/-- The value of the node changes over time; a failed node's does not. -/
def dynamic : Interface → Bool
  | .ok typing => typing.dynamic
  | .error _ => false

/-- The error of a failed node. -/
def error? : Interface → Option TypeError
  | .ok _ => none
  | .error e => some e

/-- The node failed. -/
def failed (i : Interface) : Bool := i.error?.isSome

/-- Equality of interfaces. -/
def same : Interface → Interface → Bool
  | .ok a, .ok b => a.same b
  | .error a, .error b => a == b
  | _, _ => false

end Interface

/-- What the names in scope stand for. -/
abbrev TypeEnv := Env Interface

end ReactiveDoc
