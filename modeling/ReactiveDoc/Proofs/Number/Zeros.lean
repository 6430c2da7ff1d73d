import Mathlib
import ReactiveDoc.Number.Notation
import ReactiveDoc.Proofs.Number.Comparing
import ReactiveDoc.Syntax.Operator

namespace ReactiveDoc.Number

open Float.Model Float.Model.UnpackedFloat

/-!
# The two zeros as operands

Zero and negative zero are one number as contents.  Arithmetic, comparison and text do not tell them
apart either, up to the sign of a zero in the result; only as a divisor a zero shows its sign, in
that of an infinity.

* `ZeroBlind` — an operation on unpacked numbers gives equal results, or zeros, for both zeros.
* `zeroBlind_add`, `zeroBlind_sub`, `zeroBlind_mul`, `zeroBlind_div` — the arithmetic does.
* `same_div_zero_iff` — dividing by them, unless what is divided is zero or not a number.
* `remainder_zero_left`, `compareNumbers?_zero_left`, `text_zero` — the operations defined here.
-/

variable {x y z : Float}

/-! ### Unpacked numbers -/

/-- The two are equal or both zero. -/
def Alike (f g : UnpackedFloat) : Prop := f = g ∨ (∃ s, f = .zero s) ∧ ∃ s, g = .zero s

/-- The operation gives alike results for the two zeros. -/
def ZeroBlind (op : UnpackedFloat → UnpackedFloat) : Prop :=
  ∀ s t, Alike (op (.zero s)) (op (.zero t))

/-- The number that an unpacked one stands for. -/
def packed (f : UnpackedFloat) : Float := .ofModel (.pack f)

theorem isZero_packed (s : Sign) : IsZero (packed (.zero s)) := by
  cases s with
  | positive => exact .inl (by decide +kernel)
  | negative => exact .inr (by decide +kernel)

theorem ZeroBlind.same {op : UnpackedFloat → UnpackedFloat} (h : ZeroBlind op) (hx : IsZero x)
    (hy : IsZero y) :
    Number.same (packed (op x.toModel.unpack)) (packed (op y.toModel.unpack)) = true := by
  obtain ⟨s, hs⟩ := isZero_iff.mp hx
  obtain ⟨t, ht⟩ := isZero_iff.mp hy
  rw [hs, ht]
  rcases h s t with heq | ⟨⟨r, hr⟩, u, hu⟩
  · rw [heq, same_refl]
  · rw [hr, hu]
    exact same_iff_eq_or.mpr (.inr ⟨isZero_packed r, isZero_packed u⟩)

/-! ### Arithmetic -/

theorem exists_add_zero (s t : Sign) :
    ∃ r, UnpackedFloat.add .binary64 (.zero s) (.zero t) = .zero r := by
  simp only [UnpackedFloat.add]
  split
  · exact ⟨s, rfl⟩
  · exact ⟨.positive, rfl⟩

theorem exists_sub_zero (s t : Sign) :
    ∃ r, UnpackedFloat.sub .binary64 (.zero s) (.zero t) = .zero r := by
  simp only [UnpackedFloat.sub]
  split
  · exact ⟨s, rfl⟩
  · exact ⟨.positive, rfl⟩

theorem zeroBlind_add_left (f : UnpackedFloat) : ZeroBlind (.add .binary64 · f) := by
  intro s t
  cases f with
  | zero u => exact .inr ⟨exists_add_zero s u, exists_add_zero t u⟩
  | notANumber | infinity | finite => exact .inl rfl

theorem zeroBlind_add_right (f : UnpackedFloat) : ZeroBlind (.add .binary64 f) := by
  intro s t
  cases f with
  | zero u => exact .inr ⟨exists_add_zero u s, exists_add_zero u t⟩
  | notANumber | infinity | finite => exact .inl rfl

theorem zeroBlind_sub_left (f : UnpackedFloat) : ZeroBlind (.sub .binary64 · f) := by
  intro s t
  cases f with
  | zero u => exact .inr ⟨exists_sub_zero s u, exists_sub_zero t u⟩
  | notANumber | infinity | finite => exact .inl rfl

theorem zeroBlind_sub_right (f : UnpackedFloat) : ZeroBlind (.sub .binary64 f) := by
  intro s t
  cases f with
  | zero u => exact .inr ⟨exists_sub_zero u s, exists_sub_zero u t⟩
  | notANumber | infinity | finite => exact .inl rfl

theorem zeroBlind_mul_left (f : UnpackedFloat) : ZeroBlind (.mul .binary64 · f) := by
  intro s t
  cases f with
  | zero | finite => exact .inr ⟨⟨_, rfl⟩, _, rfl⟩
  | notANumber | infinity => exact .inl rfl

theorem zeroBlind_mul_right (f : UnpackedFloat) : ZeroBlind (.mul .binary64 f) := by
  intro s t
  cases f with
  | zero | finite => exact .inr ⟨⟨_, rfl⟩, _, rfl⟩
  | notANumber | infinity => exact .inl rfl

/-- A zero that is divided does not show its sign. -/
theorem zeroBlind_div_left (f : UnpackedFloat) : ZeroBlind (.div .binary64 · f) := by
  intro s t
  cases f with
  | infinity | finite => exact .inr ⟨⟨_, rfl⟩, _, rfl⟩
  | notANumber | zero => exact .inl rfl

theorem zeroBlind_neg : ZeroBlind .neg := fun _ _ => .inr ⟨⟨_, rfl⟩, _, rfl⟩

theorem not_same_infinity {s t : Sign} (h : s ≠ t) :
    same (packed (.infinity s)) (packed (.infinity t)) = false := by
  cases s with
  | positive =>
    cases t with
    | positive => exact absurd rfl h
    | negative => decide +kernel
  | negative =>
    cases t with
    | positive => decide +kernel
    | negative => exact absurd rfl h

theorem div_ne_div (u : Sign) {s t : Sign} (h : s ≠ t) : u / s ≠ u / t := by
  cases u <;> cases s <;> cases t <;> simp_all [HDiv.hDiv, Div.div]

/-- A divisor shows which zero it is, unless zero itself or not-a-number is divided. -/
theorem same_div_zero_iff (hx : IsZero x) (hy : IsZero y) (hne : x ≠ y) :
    same (z / x) (z / y) = true ↔ IsZero z ∨ z.isNaN = true := by
  obtain ⟨s, hs⟩ := isZero_iff.mp hx
  obtain ⟨t, ht⟩ := isZero_iff.mp hy
  have hst : s ≠ t := by
    rintro rfl
    exact hne (eq_of_unpack (hs.trans ht.symm) (by simp [hs]))
  have hdiv (w : Float) (u : Sign) (hw : w.toModel.unpack = .zero u) :
      z / w = packed (.div .binary64 z.toModel.unpack (.zero u)) := by
    rw [← hw]
    rfl
  rw [hdiv x s hs, hdiv y t ht, isNaN_iff, isZero_iff]
  cases z.toModel.unpack with
  | notANumber => simp [UnpackedFloat.div]
  | zero u => simp [UnpackedFloat.div]
  | infinity u => simp [UnpackedFloat.div, not_same_infinity (div_ne_div u hst)]
  | finite u m e hm => simp [UnpackedFloat.div, not_same_infinity (div_ne_div u hst)]

/-! ### Remainders -/

theorem binary?_of_isZero (hx : IsZero x) : ∃ negative, binary? x = some ⟨negative, 0, -1074⟩ := by
  rcases hx with rfl | rfl
  · exact ⟨false, by decide +kernel⟩
  · exact ⟨true, by decide +kernel⟩

theorem isZero_ofExact (negative : Bool) (q : Int) : IsZero (ofExact ⟨negative, 0, q⟩) := by
  have hbits : ofExact ⟨negative, 0, q⟩ =
      Float.ofBits (UInt64.ofNat (if negative then signBit else 0)) := by
    simp only [ofExact, if_true, Nat.add_zero]
  rw [hbits]
  cases negative with
  | false => exact .inl (by decide +kernel)
  | true => exact .inr (by decide +kernel)

theorem same_remainder_left (hx : IsZero x) (hy : IsZero y) :
    same (remainder x z) (remainder y z) = true := by
  obtain ⟨s, hs⟩ := binary?_of_isZero hx
  obtain ⟨t, ht⟩ := binary?_of_isZero hy
  unfold remainder
  rw [hs, ht]
  cases binary? z with
  | none =>
    show same (if z.isNaN then z else x) (if z.isNaN then z else y) = true
    split
    · exact same_refl z
    · exact same_iff_eq_or.mpr (.inr ⟨hx, hy⟩)
  | some b =>
    simp only [Nat.zero_mul, Nat.zero_mod]
    split
    · exact same_refl _
    · exact same_iff_eq_or.mpr (.inr ⟨isZero_ofExact s _, isZero_ofExact t _⟩)

/-- The remainder by either zero is not a number. -/
theorem remainder_zero (hx : IsZero x) : remainder z x = 0.0 / 0.0 := by
  obtain ⟨s, hs⟩ := binary?_of_isZero hx
  unfold remainder
  rw [hs]
  cases binary? z with
  | none => rfl
  | some a => rfl

/-! ### Comparisons and texts -/

theorem lt_iff : x < y ↔ x.toModel.unpack.compare y.toModel.unpack = some .lt := by
  show decide (x.toModel.unpack.lt y.toModel.unpack = true) = true ↔ _
  simp [UnpackedFloat.lt]

theorem beq_iff : (x == y) = true ↔ x.toModel.unpack.compare y.toModel.unpack = some .eq := by
  show (x.toModel.unpack.compare y.toModel.unpack == some .eq) = true ↔ _
  simp

theorem compare_zero_left (s t : Sign) (f : UnpackedFloat) :
    (UnpackedFloat.zero s).compare f = (UnpackedFloat.zero t).compare f := by
  cases f with
  | infinity u | finite u => cases u <;> rfl
  | notANumber | zero => rfl

theorem compare_zero_right (s t : Sign) (f : UnpackedFloat) :
    f.compare (.zero s) = f.compare (.zero t) := by
  cases f with
  | infinity u | finite u => cases u <;> rfl
  | notANumber | zero => rfl

theorem compareNumbers?_zero_left (hx : IsZero x) (hy : IsZero y) :
    compareNumbers? x z = compareNumbers? y z := by
  obtain ⟨s, hs⟩ := isZero_iff.mp hx
  obtain ⟨t, ht⟩ := isZero_iff.mp hy
  unfold compareNumbers?
  simp only [lt_iff, beq_iff, hs, ht, compare_zero_left s t, compare_zero_right s t]

theorem compareNumbers?_zero_right (hx : IsZero x) (hy : IsZero y) :
    compareNumbers? z x = compareNumbers? z y := by
  obtain ⟨s, hs⟩ := isZero_iff.mp hx
  obtain ⟨t, ht⟩ := isZero_iff.mp hy
  unfold compareNumbers?
  simp only [lt_iff, beq_iff, hs, ht, compare_zero_left s t, compare_zero_right s t]

theorem beq_zero_left (hx : IsZero x) (hy : IsZero y) : (x == z) = (y == z) := by
  obtain ⟨s, hs⟩ := isZero_iff.mp hx
  obtain ⟨t, ht⟩ := isZero_iff.mp hy
  rw [Bool.eq_iff_iff, beq_iff, beq_iff, hs, ht, compare_zero_left s t]

theorem beq_zero_right (hx : IsZero x) (hy : IsZero y) : (z == x) = (z == y) := by
  obtain ⟨s, hs⟩ := isZero_iff.mp hx
  obtain ⟨t, ht⟩ := isZero_iff.mp hy
  rw [Bool.eq_iff_iff, beq_iff, beq_iff, hs, ht, compare_zero_right s t]

theorem text_zero (hx : IsZero x) : text x = "0" := by
  obtain ⟨s, hs⟩ := binary?_of_isZero hx
  unfold text
  rw [hs]
  rfl

end ReactiveDoc.Number
