import ReactiveDoc.Json.Basic
import ReactiveDoc.Number.Reading

namespace ReactiveDoc.Json

/-!
# Reading JSON text

* `parse?` — a whole text as one value, `none` if it does not have the form of JSON.
* `pieces?`, `join?` — string literals, in which some characters are written as two halves.
* `number?` — a number at the front of a text.  The significand is read into 64 bits, digits
  that do not fit only shift the exponent, and the result is scaled by a power of ten in double
  arithmetic.
* `maxDepth` — what nests deeper is unreadable, like half a character that stands alone and a
  number beyond the doubles.
-/

/-! ### Blanks and fixed words -/

/-- Drop the blanks that may stand between tokens. -/
def skipBlanks : List Char → List Char :=
  List.dropWhile fun c => c == ' ' || c == '\n' || c == '\t' || c == '\r'

/-- What follows `word` if the text starts with it. -/
def expect? (word : List Char) (cs : List Char) : Option (List Char) :=
  if word.isPrefixOf cs then some (cs.drop word.length) else none

/-! ### Strings -/

/-- The value of a hexadecimal digit. -/
def hexValue? (c : Char) : Option Nat :=
  if c.isDigit then some (c.toNat - '0'.toNat)
  else if 'a' ≤ c ∧ c ≤ 'f' then some (c.toNat - 'a'.toNat + 10)
  else if 'A' ≤ c ∧ c ≤ 'F' then some (c.toNat - 'A'.toNat + 10)
  else none

/-- The value of four hexadecimal digits. -/
def hexUnit? (a b c d : Char) : Option Nat := do
  let a ← hexValue? a
  let b ← hexValue? b
  let c ← hexValue? c
  let d ← hexValue? d
  some (((a * 16 + b) * 16 + c) * 16 + d)

/-- The character that an escape of one letter stands for. -/
def shortEscape? (c : Char) : Option Char :=
  if c = '"' ∨ c = '\\' ∨ c = '/' then some c
  else if c = 'b' then some (Char.ofNat 8)
  else if c = 'f' then some (Char.ofNat 12)
  else if c = 'n' then some '\n'
  else if c = 'r' then some '\r'
  else if c = 't' then some '\t'
  else none

/-- The character of two surrogate halves; `none` unless they are a high and a low one. -/
def pairSurrogates? (high low : Nat) : Option Char :=
  if 0xD800 ≤ high ∧ high < 0xDC00 ∧ 0xDC00 ≤ low ∧ low < 0xE000 then
    some (Char.ofNat (0x10000 + (high - 0xD800) * 0x400 + (low - 0xDC00)))
  else none

/-- What a string literal consists of: characters, and halves of characters. -/
inductive Piece where
  | whole (c : Char)
  | half (unit : Nat)

/-- The piece that is written as the number of a code unit. -/
def Piece.ofUnit (unit : Nat) : Piece :=
  if 0xD800 ≤ unit ∧ unit < 0xE000 then .half unit else .whole (Char.ofNat unit)

/-- The pieces of a string literal after its opening quote, with what follows the closing one. -/
def pieces? : List Char → Option (List Piece × List Char)
  | [] => none
  | '"' :: rest => some ([], rest)
  | '\\' :: 'u' :: a :: b :: c :: d :: rest =>
      match hexUnit? a b c d with
      | none => none
      | some unit => (pieces? rest).map fun (ps, rest) => (.ofUnit unit :: ps, rest)
  | '\\' :: c :: rest =>
      match shortEscape? c with
      | none => none
      | some ch => (pieces? rest).map fun (ps, rest) => (.whole ch :: ps, rest)
  | c :: rest =>
      if c.toNat < 32 then none else (pieces? rest).map fun (ps, rest) => (.whole c :: ps, rest)

/-- The characters that pieces make up; `none` if a half stands alone. -/
def join? : List Piece → Option (List Char)
  | [] => some []
  | .whole c :: ps => (join? ps).map (c :: ·)
  | .half high :: .half low :: ps =>
      match pairSurrogates? high low with
      | none => none
      | some c => (join? ps).map (c :: ·)
  | .half _ :: _ => none

/-- The string that pieces make up. -/
def joined? (ps : List Piece) : Option String := (join? ps).map String.ofList

/-- A string literal of some pieces. -/
def ofPieces (ps : List Piece) : Json := (joined? ps).elim unreadable string

/-! ### Numbers -/

/-- Whether a significand with one more digit leaves 64 bits. -/
def overflows (bound significand digit : Nat) : Bool :=
  bound < significand * 10 + digit

/-- Append digits to a significand while it stays in 64 bits: the significand, how many digits
    were taken, and the rest, which starts with a digit if one did not fit. -/
def takeDigits (bound : Nat) : Nat → Nat → List Char → Nat × Nat × List Char
  | significand, taken, c :: rest =>
      if c.isDigit then
        let digit := c.toNat - '0'.toNat
        if overflows bound significand digit then (significand, taken, c :: rest)
        else takeDigits bound (significand * 10 + digit) (taken + 1) rest
      else (significand, taken, c :: rest)
  | significand, taken, [] => (significand, taken, [])

/-- `10 ^ n` as a double. -/
def powerOfTen (n : Nat) : Float := Float.ofScientific 1 false n

/-- Divide by powers of ten until the exponent is used up; exact powers reach `10 ^ 308`. -/
def scaleDown : Nat → Float → Nat → Float
  | 0, x, _ => x
  | fuel + 1, x, n =>
      if n ≤ 308 then x / powerOfTen n
      else if x == 0.0 then x
      else scaleDown fuel (x / powerOfTen 308) (n - 308)

/-- The number `significand · 10 ^ exponent`, scaled in double arithmetic. -/
def scaled (significand : Nat) (exponent : Int) : Float :=
  let x := Float.ofNat significand
  if 0 ≤ exponent then
    if exponent ≤ 308 then x * powerOfTen exponent.toNat
    else if x == 0.0 then x
    else 1.0 / 0.0
  else scaleDown 8 x exponent.natAbs

/-- A decimal with its sign, if it is a double. -/
def decimal (negative : Bool) (x : Float) : Json :=
  if x.isInf then unreadable else float (if negative then -x else x)

/-- The exponent of a number after its mark, and the number it completes. -/
def exponentTail? (negative : Bool) (significand : Nat) (start : Int) (cs : List Char) :
    Option (Json × List Char) :=
  let (down, cs) := Number.readSign cs
  let (digits, rest) := Number.spanDigits cs
  if digits.isEmpty then none
  else
    let n := Number.digitsValue digits
    let x :=
      if UInt32.size / 2 ≤ n then (if significand = 0 ∨ down then 0.0 else 1.0 / 0.0)
      else scaled significand (if down then start - n else start + n)
    some (decimal negative x, rest)

/-- A number whose significand is complete: the exponent if one follows. -/
def finish? (negative : Bool) (significand : Nat) (exponent : Int) (cs : List Char) :
    Option (Json × List Char) :=
  match cs with
  | 'e' :: rest | 'E' :: rest => exponentTail? negative significand exponent rest
  | rest => some (decimal negative (scaled significand exponent), rest)

/-- The fraction of a number after its point, and the number it completes. -/
def fractionTail? (negative : Bool) (significand : Nat) (exponent : Int) (cs : List Char) :
    Option (Json × List Char) :=
  let (significand, taken, rest) := takeDigits maxSize significand 0 cs
  let (ignored, rest) := Number.spanDigits rest
  if taken = 0 ∧ ignored.isEmpty then none
  else finish? negative significand (exponent - taken) rest

/-- A number without its sign at the front of a text. -/
def unsigned? (negative : Bool) (cs : List Char) : Option (Json × List Char) :=
  match cs with
  | '0' :: rest =>
      match rest with
      | c :: _ => if c.isDigit then none else continued 0 0 rest
      | [] => continued 0 0 rest
  | c :: _ =>
      if c.isDigit then
        let (significand, _, rest) := takeDigits maxSize 0 0 cs
        let (ignored, rest) := Number.spanDigits rest
        continued significand ignored.length rest
      else none
  | [] => none
where
  /-- What may follow the whole part, of which `ignored` digits did not fit. -/
  continued (significand ignored : Nat) (rest : List Char) : Option (Json × List Char) :=
    match rest with
    | '.' :: rest => fractionTail? negative significand ignored rest
    | 'e' :: rest | 'E' :: rest => exponentTail? negative significand ignored rest
    | rest =>
        if ignored ≠ 0 then some (decimal negative (scaled significand ignored), rest)
        else if negative then
          if 0 < significand ∧ significand ≤ UInt64.size / 2 then some (integer (-(significand : Int)), rest)
          else some (float (-(Float.ofNat significand)), rest)
        else some (integer significand, rest)

/-- A number at the front of a text. -/
def number? : List Char → Option (Json × List Char)
  | '-' :: rest => unsigned? true rest
  | cs => unsigned? false cs

/-! ### Values -/

/-- Arrays and objects may nest this deeply. -/
def maxDepth : Nat := 127

/-- An array or object where `room` levels are left. -/
def within (room : Nat) (j : Json) : Json := if room = 0 then unreadable else j

/-- An object of fields, all of whose keys must be readable. -/
def ofFields (fields : List (Option String × Json)) : Json :=
  match fields.mapM fun (f : Option String × Json) => f.1.map fun key => (key, f.2) with
  | some fields => object fields
  | none => unreadable

mutual

/-- A value at the front of a text, blanks before it included; what nests more than `room` deep is
    unreadable. -/
def value? (fuel room : Nat) (cs : List Char) : Option (Json × List Char) :=
  match fuel with
  | 0 => none
  | fuel + 1 =>
      match skipBlanks cs with
      | '"' :: rest => (pieces? rest).map fun (ps, rest) => (ofPieces ps, rest)
      | '[' :: rest =>
          match skipBlanks rest with
          | ']' :: rest => some (within room (array []), rest)
          | rest => (items? fuel (room - 1) rest).map fun (js, rest) => (within room (array js), rest)
      | '{' :: rest =>
          match skipBlanks rest with
          | '}' :: rest => some (within room (object []), rest)
          | rest =>
              (fields? fuel (room - 1) rest).map fun (fs, rest) => (within room (ofFields fs), rest)
      | 't' :: rest => (expect? ['r', 'u', 'e'] rest).map fun rest => (bool true, rest)
      | 'f' :: rest => (expect? ['a', 'l', 's', 'e'] rest).map fun rest => (bool false, rest)
      | 'n' :: rest => (expect? ['u', 'l', 'l'] rest).map fun rest => (null, rest)
      | rest => number? rest

/-- One or more values between commas, up to the closing bracket. -/
def items? (fuel room : Nat) (cs : List Char) : Option (List Json × List Char) :=
  match fuel with
  | 0 => none
  | fuel + 1 =>
      match value? fuel room cs with
      | none => none
      | some (j, rest) =>
          match skipBlanks rest with
          | ']' :: rest => some ([j], rest)
          | ',' :: rest => (items? fuel room rest).map fun (js, rest) => (j :: js, rest)
          | _ => none

/-- One or more fields between commas, up to the closing brace. -/
def fields? (fuel room : Nat) (cs : List Char) :
    Option (List (Option String × Json) × List Char) :=
  match fuel with
  | 0 => none
  | fuel + 1 =>
      match skipBlanks cs with
      | '"' :: rest =>
          match pieces? rest with
          | none => none
          | some (key, rest) =>
              match skipBlanks rest with
              | ':' :: rest =>
                  match value? fuel room rest with
                  | none => none
                  | some (j, rest) =>
                      let field := (joined? key, j)
                      match skipBlanks rest with
                      | '}' :: rest => some ([field], rest)
                      | ',' :: rest => (fields? fuel room rest).map fun (fs, rest) => (field :: fs, rest)
                      | _ => none
              | _ => none
      | _ => none

end

/-- A whole text as one value; only blanks may follow it. -/
def parse? (s : String) : Option Json :=
  let cs := s.toList
  match value? (2 * cs.length + 2) maxDepth cs with
  | some (j, rest) => if (skipBlanks rest).isEmpty then some j else none
  | none => none

end ReactiveDoc.Json
