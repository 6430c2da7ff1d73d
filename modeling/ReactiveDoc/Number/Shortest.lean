import ReactiveDoc.Number.Binary

namespace ReactiveDoc.Number

/-!
# The fewest decimal digits that read back

A positive double stands for every real number that rounds to it.  `shortest` finds the decimal
with the fewest digits in that interval and, of those, the one nearest to the double.

* `Interval` — the double and the two ends of its interval, in quarter units of the last place.
* `hits` — the members of one decimal grid that the interval holds next to the double.
* `shortest` — the first grid with a hit, from one digit to seventeen.
-/

/-- The number `coefficient · 10 ^ exponent`. -/
structure Decimal where
  coefficient : Nat
  exponent : Int
  deriving DecidableEq, Repr

/-- What an exact tie between two nearest decimals goes to. -/
inductive Tie
  | up
  | even
  deriving DecidableEq, Repr

/-! ### The interval of a double -/

/-- The reals between `low · 2 ^ exponent` and `high · 2 ^ exponent` round to the double
    `centre · 2 ^ exponent`; the ends themselves do so when `closed`. -/
structure Interval where
  low : Nat
  centre : Nat
  high : Nat
  exponent : Int
  closed : Bool
  deriving DecidableEq, Repr

/-- The interval of `m · 2 ^ q`: half a unit to each side, but only a quarter below a power of
    two, where the lower neighbour is closer.  Ends belong to it when `m` is even. -/
def Interval.ofBinary (b : Binary) : Interval :=
  let m := b.significand
  let below := if m = unitBits ∧ -1074 < b.exponent then 1 else 2
  ⟨4 * m - below, 4 * m, 4 * m + 2, b.exponent - 2, m % 2 = 0⟩

/-! ### Decimal grids -/

/-- The interval over a common denominator, measured in units of `10 ^ p`: low end, centre, high
    end, denominator. -/
def Interval.inUnits (i : Interval) (p : Int) : Nat × Nat × Nat × Nat :=
  let scale := Nat.pow 2 i.exponent.toNat * Nat.pow 10 (-p).toNat
  (i.low * scale, i.centre * scale, i.high * scale, Nat.pow 2 (-i.exponent).toNat * Nat.pow 10 p.toNat)

/-- The multiples of `10 ^ p` next to the centre that the interval holds, the nearer one chosen
    if it holds both. -/
def Interval.hit? (i : Interval) (tie : Tie) (p : Int) : Option Nat :=
  let (low, centre, high, unit) := i.inUnits p
  let holds (c : Nat) : Bool :=
    if i.closed then low ≤ c * unit && c * unit ≤ high else low < c * unit && c * unit < high
  let down := centre / unit
  let below := centre - down * unit
  let above := (down + 1) * unit - centre
  let upward : Bool :=
    if below = above then (match tie with | .up => true | .even => down % 2 = 1)
    else above < below
  match holds down, holds (down + 1) with
  | true, true => some (if upward then down + 1 else down)
  | true, false => some down
  | false, true => some (down + 1)
  | false, false => none

/-- The `k` with `10 ^ (k - 1) ≤ x < 10 ^ k`, for the positive centre `x`. -/
def Interval.digitsBeforePoint (i : Interval) : Int :=
  let guess : Int := ((i.centre.log2 : Int) + i.exponent) * 30103 / 100000 + 1
  let reaches (p : Int) : Bool := let (_, centre, _, unit) := i.inUnits p; unit ≤ centre
  if reaches guess then guess + 1 else if reaches (guess - 1) then guess else guess - 1

/-- Move the zeros at the end of a coefficient into the exponent. -/
def Decimal.strip (fuel : Nat) (d : Decimal) : Decimal :=
  match fuel with
  | 0 => d
  | fuel + 1 =>
      if d.coefficient ≠ 0 ∧ d.coefficient % 10 = 0 then
        Decimal.strip fuel ⟨d.coefficient / 10, d.exponent + 1⟩
      else d

/-- The shortest decimal in the interval of a positive double, the nearest of that length. -/
def shortest (tie : Tie) (b : Binary) : Decimal :=
  let i := Interval.ofBinary b
  let k := i.digitsBeforePoint
  let found := (List.range 17).findSome? fun (n : Nat) =>
    let p := k - ((n : Int) + 1)
    (i.hit? tie p).map fun c => (⟨c, p⟩ : Decimal)
  (found.getD ⟨0, 0⟩).strip 20

end ReactiveDoc.Number
