import ReactiveDoc.Json.Basic
import ReactiveDoc.Number.Notation

namespace ReactiveDoc.Json

/-!
# JSON text

* `compact` — a value on one line without blanks.
* `pretty` — a value with one item or field a line, indented by two blanks a level.
* `quote` — a string literal: only quotes, backslashes and control characters are escaped.
-/

/-! ### Strings -/

/-- The lower-case hexadecimal digit of a number below sixteen. -/
def hexDigit (n : Nat) : Char := Nat.digitChar n

/-- How a character stands inside a string literal. -/
def escapeChar (c : Char) : List Char :=
  if c = '"' then ['\\', '"']
  else if c = '\\' then ['\\', '\\']
  else if c.toNat = 8 then ['\\', 'b']
  else if c.toNat = 12 then ['\\', 'f']
  else if c = '\n' then ['\\', 'n']
  else if c = '\r' then ['\\', 'r']
  else if c = '\t' then ['\\', 't']
  else if c.toNat < 32 then
    ['\\', 'u', '0', '0', hexDigit (c.toNat / 16), hexDigit (c.toNat % 16)]
  else [c]

/-- The characters of a string literal, quotes included. -/
def quoteChars (cs : List Char) : List Char :=
  '"' :: (cs.flatMap escapeChar ++ ['"'])

/-- A string literal. -/
def quote (s : String) : String := String.ofList (quoteChars s.toList)

/-- The text of a value without parts; empty for arrays and objects. -/
def leafText : Json → String
  | null | unreadable => "null"
  | bool b => if b then "true" else "false"
  | integer n => signedInteger n
  | float x => Number.jsonText x
  | string s => quote s
  | _ => ""
where
  /-- An integer with a minus sign where it is negative. -/
  signedInteger (n : Int) : String :=
    Number.signed (n < 0) (Number.digitChars n.natAbs)

/-! ### Compact text -/

mutual

/-- The text of a value on one line without blanks. -/
def compact : Json → String
  | array items => "[" ++ compactItems items ++ "]"
  | object fields => "\x7b" ++ compactFields fields ++ "\x7d"
  | leaf => leafText leaf

/-- The items of an array between commas. -/
def compactItems : List Json → String
  | [] => ""
  | [j] => j.compact
  | j :: js => j.compact ++ "," ++ compactItems js

/-- The fields of an object between commas. -/
def compactFields : List (String × Json) → String
  | [] => ""
  | [(key, j)] => quote key ++ ":" ++ j.compact
  | (key, j) :: fs => quote key ++ ":" ++ j.compact ++ "," ++ compactFields fs

end

/-! ### Indented text -/

/-- A new line indented to `level`. -/
def newLine (level : Nat) : String :=
  String.ofList ('\n' :: List.replicate (2 * level) ' ')

mutual

/-- The text of a value whose parts stand one a line at `level + 1`. -/
def prettyAt (level : Nat) : Json → String
  | array [] => "[]"
  | array items => "[" ++ newLine (level + 1) ++ prettyItems (level + 1) items ++ newLine level ++ "]"
  | object [] => "\x7b\x7d"
  | object fields =>
      "\x7b" ++ newLine (level + 1) ++ prettyFields (level + 1) fields ++ newLine level ++ "\x7d"
  | leaf => leafText leaf

/-- The items of an array, one a line. -/
def prettyItems (level : Nat) : List Json → String
  | [] => ""
  | [j] => j.prettyAt level
  | j :: js => j.prettyAt level ++ "," ++ newLine level ++ prettyItems level js

/-- The fields of an object, one a line. -/
def prettyFields (level : Nat) : List (String × Json) → String
  | [] => ""
  | [(key, j)] => quote key ++ ": " ++ j.prettyAt level
  | (key, j) :: fs =>
      quote key ++ ": " ++ j.prettyAt level ++ "," ++ newLine level ++ prettyFields level fs

end

/-- The text of a value over several lines. -/
def pretty (j : Json) : String := j.prettyAt 0

end ReactiveDoc.Json
