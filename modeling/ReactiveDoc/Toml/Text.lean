import ReactiveDoc.Json.Parser

namespace ReactiveDoc.Toml

/-!
# Characters, gaps and strings of TOML

* `skipBlanks`, `skipGap` — blanks on a line; blanks, comments and line ends.
* `lineEnd?` — what may follow a value or a header on its line.
* `string?` — a string of one of the four kinds at the front of a text.
-/

/-! ### Blanks, comments and line ends -/

/-- A space or a tab. -/
def isBlank (c : Char) : Bool := c == ' ' || c == '\t'

/-- A character that may stand in a comment: no control character but the tab. -/
def isPrintable (c : Char) : Bool := c == '\t' || (32 ≤ c.toNat && c.toNat != 127)

/-- Drop blanks. -/
def skipBlanks : List Char → List Char := List.dropWhile isBlank

/-- What follows the end of a line. -/
def newline? : List Char → Option (List Char)
  | '\n' :: rest | '\r' :: '\n' :: rest => some rest
  | _ => none

/-- Drop a comment. -/
def skipComment : List Char → List Char
  | '#' :: rest => rest.dropWhile isPrintable
  | cs => cs

/-- What follows the line, if only blanks and a comment are left of it. -/
def lineEnd? (cs : List Char) : Option (List Char) :=
  match skipComment (skipBlanks cs) with
  | [] => some []
  | rest => newline? rest

/-- Drop blanks, comments and line ends, at most `fuel` of these. -/
def skipGapWithin : Nat → List Char → List Char
  | 0, cs => cs
  | fuel + 1, cs =>
      match newline? (skipComment (skipBlanks cs)) with
      | some rest => skipGapWithin fuel rest
      | none => skipBlanks cs

/-- Drop blanks, comments and line ends. -/
def skipGap (cs : List Char) : List Char := skipGapWithin cs.length cs

/-- Drop blanks and line ends, at most `fuel` of these. -/
def skipLinesWithin : Nat → List Char → List Char
  | 0, cs => cs
  | fuel + 1, cs =>
      match newline? (skipBlanks cs) with
      | some rest => skipLinesWithin fuel rest
      | none => skipBlanks cs

/-- Drop blanks and line ends, as after a backslash at the end of a line. -/
def skipLines (cs : List Char) : List Char := skipLinesWithin cs.length cs

/-! ### Escapes -/

/-- The number that hexadecimal digits stand for. -/
def hexNumber? (digits : List Char) : Option Nat :=
  digits.foldlM (fun n c => (Json.hexValue? c).map fun d => n * 16 + d) 0

/-- The character of a code point given by `count` hexadecimal digits. -/
def codePoint? (count : Nat) (cs : List Char) : Option (Char × List Char) := do
  let digits := cs.take count
  let n ← hexNumber? digits
  if digits.length = count ∧ n.isValidChar then some (Char.ofNat n, cs.drop count) else none

/-- The character that is written after a backslash. -/
def escape? : List Char → Option (Char × List Char)
  | 'u' :: rest => codePoint? 4 rest
  | 'U' :: rest => codePoint? 8 rest
  | '/' :: _ => none
  | c :: rest => (Json.shortEscape? c).map fun c => (c, rest)
  | [] => none

/-! ### Strings -/

/-- The kinds of strings: with or without escapes, on one or on several lines. -/
structure StringKind where
  quote : Char
  escapes : Bool
  multiline : Bool

/-- Put characters before those that were read after them. -/
def before (front : List Char) (read : List Char × List Char) : List Char × List Char :=
  (front ++ read.1, read.2)

/-- The characters of a string up to its end, with what follows it.  Quotes right before the end
    of a string over several lines belong to it, up to two of them. -/
def stringTail? (kind : StringKind) : Nat → List Char → Option (List Char × List Char)
  | 0, _ => none
  | fuel + 1, cs =>
      match cs with
      | [] => none
      | c :: rest =>
          if c = kind.quote then
            if kind.multiline then
              let run := cs.takeWhile (· == c)
              let rest := cs.drop run.length
              if run.length < 3 then (stringTail? kind fuel rest).map (before run)
              else if run.length ≤ 5 then some (run.drop 3, rest)
              else none
            else some ([], rest)
          else if c = '\\' ∧ kind.escapes then
            match if kind.multiline then newline? (skipBlanks rest) else none with
            | some rest => stringTail? kind fuel (skipLines rest)
            | none =>
                match escape? rest with
                | some (c, rest) => (stringTail? kind fuel rest).map (before [c])
                | none => none
          else
            match if kind.multiline then newline? cs else none with
            | some rest => (stringTail? kind fuel rest).map (before ['\n'])
            | none => if isPrintable c then (stringTail? kind fuel rest).map (before [c]) else none

/-- The string after its opening quotes; a line end right after these does not count. -/
def stringBody? (kind : StringKind) (cs : List Char) : Option (String × List Char) :=
  let cs := if kind.multiline then (newline? cs).getD cs else cs
  (stringTail? kind (cs.length + 1) cs).map fun (text, rest) => (String.ofList text, rest)

/-- A string on one line at the front of a text. -/
def shortString? : List Char → Option (String × List Char)
  | '"' :: rest => stringBody? ⟨'"', true, false⟩ rest
  | '\'' :: rest => stringBody? ⟨'\'', false, false⟩ rest
  | _ => none

/-- A string at the front of a text. -/
def string? : List Char → Option (String × List Char)
  | '"' :: '"' :: '"' :: rest => stringBody? ⟨'"', true, true⟩ rest
  | '\'' :: '\'' :: '\'' :: rest => stringBody? ⟨'\'', false, true⟩ rest
  | cs => shortString? cs

end ReactiveDoc.Toml
