import ReactiveDoc.Toml.Scalar
import ReactiveDoc.Toml.Table

namespace ReactiveDoc.Toml

/-!
# Reading TOML

* `key?`, `value?` — a dotted key and a value at the front of a text.
* `Reader` — the tables read so far, and the one that the last header began.
* `parse?` — a whole text as an object; `none` if it is not well formed.
-/

/-! ### Keys -/

/-- A character of keys without quotes. -/
def isKeyChar (c : Char) : Bool := c.isAlphanum || c == '_' || c == '-'

/-- One part of a key. -/
def keyPart? (cs : List Char) : Option (String × List Char) :=
  let (name, rest) := cs.span isKeyChar
  if name.isEmpty then shortString? cs else some (String.ofList name, rest)

/-- Arrays and tables may nest up to this depth, and keys may have as many parts. -/
def maxDepth : Nat := 79

/-- A key of at most `room` parts between points. -/
def keyParts? : Nat → List Char → Option (List String × List Char)
  | 0, _ => none
  | room + 1, cs => do
      let (part, rest) ← keyPart? (skipBlanks cs)
      match skipBlanks rest with
      | '.' :: rest => do
          let (parts, rest) ← keyParts? room rest
          some (part :: parts, rest)
      | rest => some ([part], rest)

/-- A dotted key: the path to its table, and its last part. -/
structure Key where
  path : List String
  last : String

/-- A key at the front of a text, with the blanks around it. -/
def key? (cs : List Char) : Option (Key × List Char) := do
  let (parts, rest) ← keyParts? maxDepth cs
  some (⟨parts.dropLast, ← parts.getLast?⟩, rest)

/-! ### Values -/

mutual

/-- A value at the front of a text that nests at most `room` deep. -/
def value? (fuel room : Nat) (cs : List Char) : Option (Json × List Char) :=
  match fuel with
  | 0 => none
  | fuel + 1 =>
      match cs with
      | '"' :: _ | '\'' :: _ => (string? cs).map fun (s, rest) => (.string s, rest)
      | '[' :: rest =>
          if room = 0 then none
          else (items? fuel (room - 1) (skipGap rest)).map fun (js, rest) => (.array js, rest)
      | '{' :: rest =>
          if room = 0 then none
          else
            match skipBlanks rest with
            | '}' :: rest => some (.object [], rest)
            | rest => (inline? fuel (room - 1) {} rest).map fun (t, rest) => (tableJson t, rest)
      | cs => scalar? cs

/-- The items of an array up to its end; the last one may have a comma after it. -/
def items? (fuel room : Nat) (cs : List Char) : Option (List Json × List Char) :=
  match fuel with
  | 0 => none
  | fuel + 1 =>
      match cs with
      | ']' :: rest => some ([], rest)
      | cs =>
          match value? fuel room cs with
          | none => none
          | some (j, rest) =>
              match skipGap rest with
              | ']' :: rest => some ([j], rest)
              | ',' :: rest => (items? fuel room (skipGap rest)).map fun (js, rest) => (j :: js, rest)
              | _ => none

/-- The entries of a table between braces up to its end. -/
def inline? (fuel room : Nat) (t : Table) (cs : List Char) : Option (Table × List Char) :=
  match fuel with
  | 0 => none
  | fuel + 1 =>
      match key? cs with
      | some (key, '=' :: rest) =>
          match value? fuel room (skipBlanks rest) with
          | none => none
          | some (j, rest) =>
              match t.assign key.path key.last j, skipBlanks rest with
              | some t, '}' :: rest => some (t, rest)
              | some t, ',' :: rest => inline? fuel room t rest
              | _, _ => none
      | _ => none

end

/-! ### Texts -/

/-- The tables read so far, and the path of the one that the last header began. -/
structure Reader where
  root : Table := {}
  current : List String := []

/-- An entry, with the end of its line. -/
def Reader.entry? (r : Reader) (cs : List Char) : Option (Reader × List Char) := do
  let (key, rest) ← key? cs
  let '=' :: rest := rest | none
  let (j, rest) ← value? (2 * rest.length + 2) maxDepth (skipBlanks rest)
  let root ← r.root.change false (Table.assign key.path key.last j) r.current
  some ({ r with root }, ← lineEnd? rest)

/-- The key of a header and what follows its closing bracket. -/
def headerKey? (cs : List Char) : Option (Key × List Char) := do
  let (key, rest) ← key? cs
  let ']' :: rest := rest | none
  some (key, rest)

/-- A header, with the end of its line. -/
def Reader.header? (r : Reader) (cs : List Char) : Option (Reader × List Char) :=
  match cs with
  | '[' :: cs => do
      let (key, rest) ← headerKey? cs
      let ']' :: rest := rest | none
      let root ← r.root.openNext key.path key.last
      some (⟨root, key.path ++ [key.last]⟩, ← lineEnd? rest)
  | cs => do
      let (key, rest) ← headerKey? cs
      let root ← r.root.openHeader key.path key.last
      some (⟨root, key.path ++ [key.last]⟩, ← lineEnd? rest)

/-- Read lines until the text ends. -/
def Reader.run : Nat → Reader → List Char → Option Table
  | 0, _, _ => none
  | fuel + 1, r, cs =>
      match skipBlanks cs with
      | [] => some r.root
      | '#' :: _ | '\n' :: _ | '\r' :: _ => (lineEnd? cs).bind (run fuel r)
      | '[' :: rest => (r.header? rest).bind fun (r, rest) => run fuel r rest
      | rest => (r.entry? rest).bind fun (r, rest) => run fuel r rest

/-- A text without the mark that some editors put in front. -/
def dropMark : List Char → List Char
  | '\ufeff' :: rest => rest
  | cs => cs

/-- A whole text as an object. -/
def parse? (s : String) : Option Json :=
  let cs := dropMark s.toList
  (Reader.run (cs.length + 2) {} cs).map tableJson

end ReactiveDoc.Toml
