namespace ReactiveDoc.Text

/-!
# Edit distance and close names

* `editDistance` — the least number of single-character insertions, deletions and
  substitutions between two texts, computed one row of the distance table at a time.
* `closeNames` — the candidates near a target, each once, by distance and then by name.
-/

/-! ### The distance table, row by row -/

/-- Continue a row of the table to the right.

    `above` is the rest of the previous row (the cell diagonally behind, then the cells above),
    `left` the value just written. -/
def nextCells (c : Char) : List Char → Nat → List Nat → List Nat
  | d :: ds, left, diagonal :: up :: above =>
      let here := min (min (up + 1) (left + 1)) (diagonal + if c = d then 0 else 1)
      here :: nextCells c ds here (up :: above)
  | _, _, _ => []

/-- The row after `row`, once the character `c` has been read from the first text. -/
def nextRow (c : Char) (b : List Char) (row : List Nat) : List Nat :=
  let first := row.headD 0 + 1
  first :: nextCells c b first row

/-- The last row of the table for `a` against `b`. -/
def lastRow (a b : List Char) : List Nat :=
  a.foldl (fun row c => nextRow c b row) (List.range (b.length + 1))

/-- The edit distance of two lists of characters. -/
def editDistanceChars (a b : List Char) : Nat :=
  (lastRow a b).getLastD 0

/-- The least number of insertions, deletions and substitutions of one character (a Unicode
    scalar value) that turn `a` into `b`. -/
def editDistance (a b : String) : Nat :=
  editDistanceChars a.toList b.toList

/-! ### Close names -/

/-- A candidate with its distance from the target. -/
structure Near where
  name : String
  distance : Nat
  deriving DecidableEq, Repr

/-- Nearer names come first; names at one distance are in code point order. -/
def Near.before (a b : Near) : Bool :=
  if a.distance = b.distance then decide (a.name ≤ b.name) else decide (a.distance < b.distance)

/-- Drop every entry whose name equals that of the entry before it. -/
def dropRepeats : List Near → List Near
  | a :: b :: rest => if a.name = b.name then dropRepeats (a :: rest) else a :: dropRepeats (b :: rest)
  | short => short
  termination_by ns => ns.length

/-- The candidates at distance `1` to `bound` from `target`, each once, nearest first. -/
def closeNames (target : String) (candidates : List String) (bound : Nat) : List String :=
  let near := candidates.filterMap fun name =>
    let distance := editDistance target name
    if 0 < distance ∧ distance ≤ bound then some ⟨name, distance⟩ else none
  (dropRepeats (near.mergeSort Near.before)).map Near.name

end ReactiveDoc.Text
