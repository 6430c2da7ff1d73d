import ReactiveDoc.Json.Parser
import ReactiveDoc.Toml.Text

namespace ReactiveDoc.Toml

/-!
# Numbers and dates of TOML

* `integer?`, `float?`, `isDate` — whole words as integers of 64 bits, decimals and dates.
* `scalar?` — a word or a date at the front of a text.
-/

/-! ### Digits -/

/-- The digits of a number, of which any two may have one underscore between them. -/
def digits? (isDigit : Char → Bool) : List Char → Option (List Char)
  | [] => none
  | c :: rest =>
      if isDigit c then
        match rest with
        | [] => some [c]
        | '_' :: rest => (digits? isDigit rest).map (c :: ·)
        | rest => (digits? isDigit rest).map (c :: ·)
      else none

/-- The digits of a decimal number without needless zeros in front. -/
def wholeDigits? (cs : List Char) : Option (List Char) := do
  let digits ← digits? Char.isDigit cs
  if digits.length = 1 ∨ digits.head? ≠ some '0' then some digits else none

/-- Every integer up to this one fits. -/
def maxInteger : Nat := UInt64.size / 2 - 1

/-! ### Integers -/

/-- The digit of some base below seventeen. -/
def isDigitOf (base : Nat) (c : Char) : Bool := (Json.hexValue? c).any (· < base)

/-- A number without sign in some base. -/
def based? (base : Nat) (cs : List Char) : Option Int := do
  let digits ← digits? (isDigitOf base) cs
  let n := digits.foldl (fun n c => n * base + (Json.hexValue? c).getD 0) 0
  if n ≤ maxInteger then some n else none

/-- A whole word as an integer. -/
def integer? : List Char → Option Int
  | '0' :: 'x' :: rest => based? 16 rest
  | '0' :: 'o' :: rest => based? 8 rest
  | '0' :: 'b' :: rest => based? 2 rest
  | cs => do
      let (negative, body) := Number.readSign cs
      let n := Number.digitsValue (← wholeDigits? body)
      if negative then if n ≤ maxInteger + 1 then some (-n) else none
      else if n ≤ maxInteger then some n else none

/-! ### Decimals -/

/-- The exponent of a decimal, its mark included; none at all is an exponent, too. -/
def exponentText? : List Char → Option (List Char)
  | [] => some []
  | mark :: '-' :: cs => if isMark mark then (digits? Char.isDigit cs).map (['e', '-'] ++ ·) else none
  | mark :: '+' :: cs => if isMark mark then (digits? Char.isDigit cs).map ('e' :: ·) else none
  | mark :: cs => if isMark mark then (digits? Char.isDigit cs).map ('e' :: ·) else none
where
  /-- The mark before an exponent. -/
  isMark (c : Char) : Bool := c == 'e' || c == 'E'

/-- The fraction of a decimal with its point; none at all is a fraction, too. -/
def fractionText? : List Char → Option (List Char)
  | [] => some []
  | '.' :: cs => (digits? Char.isDigit cs).map ('.' :: ·)
  | _ => none

/-- A decimal with a fraction, an exponent or both; one out of range is refused. -/
def decimal? (cs : List Char) : Option Float := do
  let (negative, body) := Number.readSign cs
  let (significand, exponent) := body.span fun c => c != 'e' && c != 'E'
  let (whole, fraction) := significand.span (· != '.')
  let whole ← wholeDigits? whole
  let fraction ← fractionText? fraction
  let exponent ← exponentText? exponent
  if fraction.isEmpty ∧ exponent.isEmpty then none
  else
    let x ← Number.read? (String.ofList (whole ++ fraction ++ exponent))
    if negative then some (-x) else if x.isInf then none else some x

/-- A whole word as a decimal, an infinity or not-a-number. -/
def float? (cs : List Char) : Option Float :=
  let (negative, body) := Number.readSign cs
  if body = ['i', 'n', 'f'] then some (if negative then -(1.0 / 0.0) else 1.0 / 0.0)
  else if body = ['n', 'a', 'n'] then some (0.0 / 0.0)
  else decimal? cs

/-! ### Dates and times -/

/-- A number of two digits in a range. -/
def inRange (low high : Nat) (a b : Char) : Bool :=
  a.isDigit && b.isDigit && decide (low ≤ Number.digitsValue [a, b]) &&
    decide (Number.digitsValue [a, b] ≤ high)

/-- The number of days of a month. -/
def daysOf (year month : Nat) : Nat :=
  if month = 2 then
    if year % 4 = 0 ∧ (year % 100 ≠ 0 ∨ year % 400 = 0) then 29 else 28
  else if month ∈ [4, 6, 9, 11] then 30
  else 31

/-- What follows a date at the front of a word. -/
def dateTail? : List Char → Option (List Char)
  | y :: y' :: y'' :: y''' :: '-' :: m :: m' :: '-' :: d :: d' :: rest =>
      let year := [y, y', y'', y''']
      if year.all Char.isDigit && inRange 1 12 m m' &&
          inRange 1 (daysOf (Number.digitsValue year) (Number.digitsValue [m, m'])) d d' then
        some rest
      else none
  | _ => none

/-- What follows a time at the front of a word. -/
def timeTail? : List Char → Option (List Char)
  | h :: h' :: ':' :: m :: m' :: ':' :: s :: s' :: rest =>
      if inRange 0 23 h h' && inRange 0 59 m m' && inRange 0 60 s s' then
        match rest with
        | '.' :: c :: rest => if c.isDigit then some (rest.dropWhile Char.isDigit) else none
        | rest => some rest
      else none
  | _ => none

/-- The word is the distance of a time from universal time, or empty. -/
def isOffset : List Char → Bool
  | [] | ['Z'] | ['z'] => true
  | [sign, h, h', ':', m, m'] => (sign == '+' || sign == '-') && inRange 0 23 h h' && inRange 0 59 m m'
  | _ => false

/-- The word is a time with its distance from universal time. -/
def isTime (cs : List Char) : Bool := (timeTail? cs).any isOffset

/-- The word is a date, a time or both. -/
def isDate (cs : List Char) : Bool :=
  match dateTail? cs with
  | some [] => true
  | some (mark :: rest) => (mark == 'T' || mark == 't') && isTime rest
  | none => timeTail? cs == some []

/-! ### Words -/

/-- A character of numbers, dates and names without quotes. -/
def isWordChar (c : Char) : Bool := c.isAlphanum || c ∈ ['+', '-', '_', '.', ':']

/-- A date as a value; it is no number, text or table with entries that anyone reads. -/
def dateJson (cs : List Char) : Json := .object [("date", .string (String.ofList cs))]

/-- A whole word as a value. -/
def word? (cs : List Char) : Option Json :=
  if cs = ['t', 'r', 'u', 'e'] then some (.bool true)
  else if cs = ['f', 'a', 'l', 's', 'e'] then some (.bool false)
  else if isDate cs then some (dateJson cs)
  else ((integer? cs).map Json.integer).or ((float? cs).map Json.float)

/-- A value without quotes or brackets at the front of a text.  A blank may stand between a date
    and a time. -/
def scalar? (cs : List Char) : Option (Json × List Char) :=
  let (word, rest) := cs.span isWordChar
  match dateTail? word, rest with
  | some [], ' ' :: c :: _ =>
      if c.isDigit then
        let (time, rest) := rest.tail.span isWordChar
        if isTime time then some (dateJson (word ++ ' ' :: time), rest) else none
      else (word? word).map fun j => (j, rest)
  | _, _ => (word? word).map fun j => (j, rest)

end ReactiveDoc.Toml
