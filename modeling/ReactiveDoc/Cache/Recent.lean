namespace ReactiveDoc

/-!
# Maps that forget what was used least recently

* `Recent` — at most `capacity` entries, the most recently used one first.
* `Recent.get?`, `Recent.touch` — a look-up, and the use that goes with it.
* `Recent.insert` — a new key makes room by forgetting the last entry.
-/

/-- Entries with different keys, the most recently used one first. -/
structure Recent (κ α : Type) where
  capacity : Nat
  entries : List (κ × α) := []

namespace Recent

variable {κ α : Type} [DecidableEq κ]

/-- A map without entries that holds at most `capacity` of them, at least one. -/
def ofCapacity (capacity : Nat) : Recent κ α := { capacity := max capacity 1 }

/-- The number of entries. -/
def size (m : Recent κ α) : Nat := m.entries.length

/-- The keys, the most recently used one first. -/
def keys (m : Recent κ α) : List κ := m.entries.map Prod.fst

/-- The value of a key. -/
def get? (m : Recent κ α) (key : κ) : Option α := m.entries.lookup key

/-- Forget a key. -/
def erase (m : Recent κ α) (key : κ) : Recent κ α :=
  { m with entries := m.entries.filter fun e => e.1 ≠ key }

/-- Note the use of a key, if it is there. -/
def touch (m : Recent κ α) (key : κ) : Recent κ α :=
  match m.get? key with
  | some value => { m with entries := (key, value) :: (m.erase key).entries }
  | none => m

/-- Give a key a value.  If that would be one entry too many, the one used least recently is
    forgotten; the second result is its key. -/
def insert (m : Recent κ α) (key : κ) (value : α) : Recent κ α × Option κ :=
  let others := (m.erase key).entries
  if others.length < m.capacity then ({ m with entries := (key, value) :: others }, none)
  else ({ m with entries := (key, value) :: others.dropLast }, others.getLast?.map Prod.fst)

/-- Forget all keys. -/
def clear (m : Recent κ α) : Recent κ α := { m with entries := [] }

end Recent

end ReactiveDoc
