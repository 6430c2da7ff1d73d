import ReactiveDoc.Text.Quoted

namespace ReactiveDoc

/-!
# Lexical environments

* `Env` — a chain of bindings.  Extending gives a new environment and leaves the old one as it
  is; a later binding hides earlier ones of its name.
* `Env.visible` — the bindings that are not hidden, innermost first.
* `Env.map` — the visible bindings with a function applied to each value.
* `Env.describe` — the visible bindings as text.
-/

/-- A chain of bindings, innermost first. -/
structure Env (α : Type) where
  frames : List (String × α) := []

namespace Env

variable {α β : Type}

/-- The environment without bindings. -/
def empty : Env α := ⟨[]⟩

instance : Inhabited (Env α) := ⟨empty⟩

/-- Add a binding inside all others. -/
def extend (env : Env α) (name : String) (value : α) : Env α := ⟨(name, value) :: env.frames⟩

/-- Add several bindings, each inside the ones before it. -/
def extendAll (env : Env α) (bindings : List (String × α)) : Env α :=
  bindings.foldl (fun env (name, value) => env.extend name value) env

/-- The value of the innermost binding of a name. -/
def get? (env : Env α) (name : String) : Option α :=
  (env.frames.find? fun f => f.1 == name).map Prod.snd

/-- The name is bound. -/
def contains (env : Env α) (name : String) : Bool := (env.get? name).isSome

/-- The first binding of each name in a chain. -/
def firstOfEach : List (String × α) → List (String × α)
  | [] => []
  | f :: fs => f :: (firstOfEach fs).filter fun g => g.1 != f.1

/-- The bindings that no inner one hides, innermost first. -/
def visible (env : Env α) : List (String × α) := firstOfEach env.frames

/-- The names of the visible bindings, innermost first. -/
def names (env : Env α) : List String := env.visible.map Prod.fst

/-- The visible bindings with `f` applied to each name and value. -/
def map (f : String → α → β) (env : Env α) : Env β :=
  ⟨env.visible.map fun (name, value) => (name, f name value)⟩

/-- The visible bindings as text, each value written by `write`. -/
def describe (write : α → String) (env : Env α) : String :=
  let entries := env.visible.map fun (name, value) => Text.quoted name ++ ": " ++ write value
  "\x7b" ++ ", ".intercalate entries ++ "\x7d"

end Env

end ReactiveDoc
