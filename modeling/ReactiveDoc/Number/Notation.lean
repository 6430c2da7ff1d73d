import ReactiveDoc.Number.Shortest

namespace ReactiveDoc.Number

/-!
# Written forms of numbers

* `text` — the form used by display strings and concatenation: positional, never an exponent,
  both zeros as `0`.
* `jsonText` — the form of JSON text: always a fraction digit or an exponent.
-/

/-- The decimal digits of a natural number. -/
def digitChars (n : Nat) : List Char := Nat.toDigits 10 n

/-- A decimal written without exponent; no point where there is no fraction. -/
def positional (d : Decimal) : List Char :=
  let digits := digitChars d.coefficient
  if 0 ≤ d.exponent then digits ++ List.replicate d.exponent.toNat '0'
  else
    let places := (-d.exponent).toNat
    if places < digits.length then
      let whole := digits.length - places
      digits.take whole ++ '.' :: digits.drop whole
    else '0' :: '.' :: (List.replicate (places - digits.length) '0' ++ digits)

/-- A decimal written as one digit, its fraction and a signed exponent. -/
def scientific (d : Decimal) : List Char :=
  let digits := digitChars d.coefficient
  let power := d.exponent + (digits.length : Int) - 1
  let mantissa :=
    match digits with
    | first :: second :: rest => first :: '.' :: second :: rest
    | short => short
  mantissa ++ 'e' :: (if power < 0 then '-' else '+') :: digitChars power.natAbs

/-- Put the sign in front. -/
def signed (negative : Bool) (cs : List Char) : String :=
  String.ofList (if negative then '-' :: cs else cs)

/-- The display form: the fewest digits that read back, ties upwards, without exponent. -/
def text (x : Float) : String :=
  match binary? x with
  | none => if x.isNaN then "NaN" else if isNegative x then "-Infinity" else "Infinity"
  | some b =>
      if b.significand = 0 then "0" else signed b.negative (positional (shortest .up b))

/-- The JSON form of a finite number: the fewest digits that read back, ties to even; positional
    with a fraction from `10 ^ (-5)` up to `10 ^ 16`, else scientific.  Numbers that are not
    finite have no JSON form and are written `null`. -/
def jsonText (x : Float) : String :=
  match binary? x with
  | none => "null"
  | some b =>
      if b.significand = 0 then signed b.negative ['0', '.', '0']
      else
        let d := shortest .even b
        let point := d.exponent + ((digitChars d.coefficient).length : Int)
        if -5 < point ∧ point ≤ 16 then
          let cs := positional d
          signed b.negative (if 0 ≤ d.exponent then cs ++ ['.', '0'] else cs)
        else signed b.negative (scientific d)

end ReactiveDoc.Number
