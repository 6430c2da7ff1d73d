namespace ReactiveDoc.Number

/-!
# Doubles as exact binary numbers

* `Binary` — sign, significand `m` and exponent `q` of the number `± m · 2^q`.
* `binary?`, `ofExact` — from a finite double to its exact value and back.
* `same` — equality of numbers as contents: zero equals negative zero, not-a-number equals itself.
* `remainder` — the exact remainder of a division that truncates.
-/

/-! ### Decoding -/

/-- The number `± significand · 2 ^ exponent`. -/
structure Binary where
  negative : Bool
  significand : Nat
  exponent : Int
  deriving DecidableEq, Repr

/-- The sign bit of an encoded double. -/
def signBit : Nat := UInt64.size / 2

/-- The number of fractions an encoded double can have; an exponent counts as that many. -/
def unitBits : Nat := Nat.pow 2 52

/-- The sign bit, also that of a zero. -/
def isNegative (x : Float) : Bool := signBit ≤ x.toBits.toNat

/-- The value of a finite double; `none` for the infinities and not-a-number. -/
def binary? (x : Float) : Option Binary :=
  let bits : Nat := x.toBits.toNat
  let biased : Nat := bits % signBit / unitBits
  let fraction := bits % unitBits
  if biased = 2047 then none
  else if biased = 0 then some ⟨isNegative x, fraction, -1074⟩
  else some ⟨isNegative x, unitBits + fraction, (biased : Int) - 1075⟩

/-- Neither infinite nor not-a-number. -/
def isFinite (x : Float) : Bool := (binary? x).isSome

/-! ### Equality -/

/-- The representative of a number among those that count as the same: both zeros are `0`. -/
def key (x : Float) : Float := if x = -0.0 then 0.0 else x

/-- Equality of contents: `0` and `-0` are the same number, and not-a-number is itself. -/
def same (x y : Float) : Bool := decide (key x = key y)

theorem same_iff {x y : Float} : same x y = true ↔ key x = key y := by simp [same]

@[simp] theorem same_refl (x : Float) : same x x = true := by simp [same]

theorem same_comm (x y : Float) : same x y = same y x := by simp [same, eq_comm]

theorem same_trans {x y z : Float} (h : same x y = true) (h' : same y z = true) :
    same x z = true := by
  simp only [same_iff] at *
  exact h.trans h'

/-! ### Encoding -/

/-- The double `± m · 2 ^ q`, where `m < 2 ^ 53` and the value is representable.

    A value from `2 ^ (-1022)` on is normal and stores its significand without the leading one;
    below that the fraction counts units of `2 ^ (-1074)`. -/
def ofExact (b : Binary) : Float :=
  let sign := if b.negative then signBit else 0
  let top := b.significand.log2
  let scale := b.exponent + top
  let magnitude :=
    if b.significand = 0 then 0
    else if -1022 ≤ scale then
      (scale + 1023).toNat * unitBits + (b.significand * Nat.pow 2 (52 - top) - unitBits)
    else b.significand * Nat.pow 2 (b.exponent + 1074).toNat
  Float.ofBits (UInt64.ofNat (sign + magnitude))

/-! ### Remainder and whole numbers -/

/-- `x - y · t` for the quotient `t` of `x / y` cut off towards zero, exactly.

    The sign is that of `x`. Dividing by zero or dividing an infinity gives not-a-number, and
    dividing by an infinity gives `x`. -/
def remainder (x y : Float) : Float :=
  match binary? x, binary? y with
  | some a, some b =>
      if b.significand = 0 then 0.0 / 0.0
      else
        let q := min a.exponent b.exponent
        let m := a.significand * Nat.pow 2 (a.exponent - q).toNat
        let n := b.significand * Nat.pow 2 (b.exponent - q).toNat
        ofExact ⟨a.negative, m % n, q⟩
  | some _, none => if y.isNaN then y else x
  | none, _ => 0.0 / 0.0

/-- The natural number that a number is, if it is whole and not negative. -/
def toWhole? (x : Float) : Option Nat :=
  match binary? x with
  | none => none
  | some b =>
      let value :=
        if 0 ≤ b.exponent then some (b.significand * Nat.pow 2 b.exponent.toNat)
        else
          let unit := Nat.pow 2 (-b.exponent).toNat
          if b.significand % unit = 0 then some (b.significand / unit) else none
      match value with
      | some 0 => some 0
      | some n => if b.negative then none else some n
      | none => none

end ReactiveDoc.Number
