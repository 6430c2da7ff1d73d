namespace ReactiveDoc.Keyed

/-!
# Lists of entries with keys

* `put` — give a key a value, in its old place if it has one.
* `ofEntries` — several entries put one after the other.
* `erase` — forget a key.
-/

variable {α : Type}

/-- Give a key a value; a new key goes to the end. -/
def put (entries : List (String × α)) (key : String) (value : α) : List (String × α) :=
  match entries with
  | [] => [(key, value)]
  | (k, v) :: rest => if k = key then (k, value) :: rest else (k, v) :: put rest key value

/-- The entries put one after the other: of a repeated key the last value counts, in the first
    place. -/
def ofEntries (entries : List (String × α)) : List (String × α) :=
  entries.foldl (fun kept (key, value) => put kept key value) []

/-- The entries without a key. -/
def erase (entries : List (String × α)) (key : String) : List (String × α) :=
  entries.filter fun e => e.1 != key

end ReactiveDoc.Keyed
