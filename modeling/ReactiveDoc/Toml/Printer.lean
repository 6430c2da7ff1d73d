import ReactiveDoc.Json.Printer
import ReactiveDoc.Text.Quoted

namespace ReactiveDoc.Toml

/-!
# Writing TOML

* `quote` — a string in the first form that needs no escapes: between double quotes, between
  single quotes, or over several lines; with escapes if there is none.
* `section` — a header with its entries.
-/

/-! ### Strings -/

/-- The longest run of a character. -/
def longestRun (c : Char) (cs : List Char) : Nat :=
  (cs.foldl (fun (longest, run) d =>
    if d = c then (max longest (run + 1), run + 1) else (longest, 0)) (0, 0)).1

/-- A character that every form of string but an escape leaves out. -/
def needsEscape (c : Char) : Bool :=
  c != '\t' && c != '\n' && (decide (c.toNat < 32) || c.toNat == 127)

/-- Four hexadecimal digits in upper case. -/
def hexUnit (n : Nat) : List Char :=
  [n / 4096, n / 256, n / 16, n].map fun d => (Nat.digitChar (d % 16)).toUpper

/-- How a character that needs an escape is written. -/
def escapeChar (c : Char) : List Char :=
  if c.toNat = 8 then ['\\', 'b']
  else if c = '\t' then ['\\', 't']
  else if c = '\n' then ['\\', 'n']
  else if c.toNat = 12 then ['\\', 'f']
  else if c = '\r' then ['\\', 'r']
  else if c = '\\' then ['\\', '\\']
  else if c = '"' then ['\\', '"']
  else ['\\', 'u'] ++ hexUnit c.toNat

/-- The text between double quotes.  Over several lines, line ends and up to two quotes in a row
    stay; `run` of them came right before. -/
def escaped (multiline : Bool) (run : Nat) : List Char → List Char
  | [] => []
  | c :: cs =>
      if c = '"' ∧ multiline ∧ run < 2 then c :: escaped multiline (run + 1) cs
      else if c = '"' ∨ c = '\\' ∨ c = '\t' ∨ (c = '\n' ∧ !multiline) ∨ needsEscape c then
        escapeChar c ++ escaped multiline 0 cs
      else c :: escaped multiline 0 cs

/-- A text between marks; where it has several lines a line end follows the first mark. -/
def between (mark : List Char) (multiline : Bool) (text whole : List Char) : List Char :=
  mark ++ (if multiline && whole.contains '\n' then ['\n'] else []) ++ text ++ mark

/-- A string on one line between double quotes. -/
def basic (cs : List Char) : List Char := between ['"'] false (escaped false 0 cs) cs

/-- A string over several lines between double quotes. -/
def basicLines (cs : List Char) : List Char := between ['"', '"', '"'] true (escaped true 0 cs) cs

/-- The characters of a written string. -/
def quoteChars (cs : List Char) : List Char :=
  let singles := longestRun '\'' cs
  let doubles := longestRun '"' cs
  let controls := cs.any needsEscape
  let backslashes := cs.contains '\\'
  let lines := cs.contains '\n'
  if !controls && !backslashes && doubles == 0 && !lines then basic cs
  else if !controls && singles == 0 && !lines then between ['\''] false cs cs
  else if !controls && !backslashes && doubles ≤ 2 then basicLines cs
  else if !controls && singles ≤ 2 then between ['\'', '\'', '\''] true cs cs
  else if lines then basicLines cs
  else basic cs

/-- A written string. -/
def quote (s : String) : String := String.ofList (quoteChars s.toList)

/-! ### Tables -/

/-- A value without parts. -/
def leaf : Json → String
  | .string s => quote s
  | j => j.compact

/-- An entry on a line of its own. -/
def line (entry : String × Json) : String := entry.1 ++ " = " ++ leaf entry.2 ++ "\n"

/-- A header with its entries, which have no parts. -/
def block (name : String) (entries : List (String × Json)) : String :=
  "[" ++ name ++ "]\n" ++ String.join (entries.map line)

end ReactiveDoc.Toml
