import ReactiveDoc.Number.Binary

namespace ReactiveDoc.Number

/-!
# Reading numbers from text

* `ofDecimal` — the double nearest to `m · 10 ^ e`, for exponents of any size.
* `read?` — a whole text as a number: a sign, digits around an optional point, an optional
  exponent, or the names of infinity and not-a-number in any case.
-/

/-- The value of a list of decimal digits. -/
def digitsValue (cs : List Char) : Nat :=
  cs.foldl (fun n c => n * 10 + (c.toNat - '0'.toNat)) 0

/-- The double nearest to `m · 10 ^ e`, ties to even, infinite above the largest double.

    A value of more than 310 digits before the point is infinite and one that starts more than
    330 places behind it is zero, so that no huge power is computed. -/
def ofDecimal (m : Nat) (e : Int) : Float :=
  let magnitude := (Nat.toDigits 10 m).length + e
  if m = 0 ∨ magnitude < -330 then 0.0
  else if 310 < magnitude then 1.0 / 0.0
  else Float.ofScientific m (e < 0) e.natAbs

/-- The digits at the front of a text, and what follows them. -/
def spanDigits (cs : List Char) : List Char × List Char :=
  (cs.takeWhile Char.isDigit, cs.dropWhile Char.isDigit)

/-- An optional sign at the front: whether it is a minus, and what follows. -/
def readSign : List Char → Bool × List Char
  | '-' :: rest => (true, rest)
  | '+' :: rest => (false, rest)
  | rest => (false, rest)

/-- The exponent part that must fill the rest of a number; an absent one is zero. -/
def readExponent? : List Char → Option Int
  | [] => some 0
  | mark :: rest =>
      if mark = 'e' ∨ mark = 'E' then
        let (negative, rest) := readSign rest
        let (digits, rest) := spanDigits rest
        if digits.isEmpty ∨ ¬ rest.isEmpty then none
        else
          let n : Int := digitsValue digits
          some (if negative then -n else n)
      else none

/-- An unsigned number: digits with an optional point, at least one of them, and an exponent. -/
def readUnsigned? (cs : List Char) : Option Float :=
  let (whole, rest) := spanDigits cs
  let (fraction, rest) :=
    match rest with
    | '.' :: rest => spanDigits rest
    | rest => ([], rest)
  if whole.isEmpty ∧ fraction.isEmpty then none
  else
    (readExponent? rest).map fun e =>
      ofDecimal (digitsValue (whole ++ fraction)) (e - (fraction.length : Int))

/-- The names of numbers that digits cannot write. -/
def readName? (cs : List Char) : Option Float :=
  let name := cs.map Char.toLower
  if name = ['i', 'n', 'f'] ∨ name = ['i', 'n', 'f', 'i', 'n', 'i', 't', 'y'] then some (1.0 / 0.0)
  else if name = ['n', 'a', 'n'] then some (0.0 / 0.0)
  else none

/-- A whole text as a number; nothing may surround it. -/
def read? (s : String) : Option Float :=
  let (negative, cs) := readSign s.toList
  let magnitude := (readName? cs).orElse fun _ => readUnsigned? cs
  magnitude.map fun x => if negative then -x else x

end ReactiveDoc.Number
