import ReactiveDoc.Proofs.Number.Zeros
import ReactiveDoc.Proofs.Value.Sameness

namespace ReactiveDoc.Value

open Number

/-!
# Equal values as operands

A signal does not pass on a value that equals the one it has.  Of two primitive values that are equal
as contents either may stand for the other as an operand, but that zero and negative zero, which are
equal, do not divide alike.

* `eq_or_oppositeZeros` — equal primitive values are the same value or the two zeros.
* `binary_zero_left`, `binary_zero_right`, `unary_zero` — the zeros under the operators.
* `operators_interchangeable` — equal primitive values under the operators.
-/

/-- A value that is not built of parts, no function and no signal. -/
def isPrimitive : Value → Bool
  | undefined | null | boolean _ | number _ | string _ => true
  | _ => false

/-- Zero and negative zero, in either order. -/
def OppositeZeros (a b : Value) : Prop :=
  ∃ x y, a = number x ∧ b = number y ∧ IsZero x ∧ IsZero y ∧ x ≠ y

variable {a b : Value}

theorem eq_or_oppositeZeros (ha : a.isPrimitive = true) (h : a.same b = true) :
    a = b ∨ OppositeZeros a b := by
  cases a with
  | undefined | null => cases b <;> simp [same] at h ⊢
  | boolean p => cases b <;> simp_all [same]
  | string s => cases b <;> simp_all [same]
  | number x =>
    cases b with
    | number y =>
      by_cases hxy : x = y
      · exact .inl (congrArg number hxy)
      · have hzeros := (same_iff_eq_or.mp (by simpa [same] using h)).resolve_left hxy
        exact .inr ⟨x, y, rfl, rfl, hzeros.1, hzeros.2, hxy⟩
    | _ => simp [same] at h
  | array | object | function | element | signal => simp [isPrimitive] at ha

/-! ### Operators and the zeros -/

variable {x y : Float} {c : Value}

theorem same_number {x y : Float} : (number x).same (number y) = Number.same x y := by
  simp [same]

theorem same_boolean {p q : Bool} : (boolean p).same (boolean q) = true ↔ p = q := by
  simp [same]

theorem add_zero_left (hx : IsZero x) (hy : IsZero y) :
    ((number x).add c).same ((number y).add c) = true := by
  cases c with
  | string s => simp [add, display, same, text_zero hx, text_zero hy]
  | _ => exact same_number ▸ (zeroBlind_add_left _).same hx hy

theorem add_zero_right (hx : IsZero x) (hy : IsZero y) :
    (c.add (number x)).same (c.add (number y)) = true := by
  cases c with
  | string s => simp [add, display, same, text_zero hx, text_zero hy]
  | _ => exact same_number ▸ (zeroBlind_add_right _).same hx hy

theorem strictEquals_zero_left (hx : IsZero x) (hy : IsZero y) :
    (number x).strictEquals c = (number y).strictEquals c := by
  cases c with
  | number z => exact beq_zero_left hx hy
  | _ => simp [strictEquals, same]

theorem strictEquals_zero_right (hx : IsZero x) (hy : IsZero y) :
    c.strictEquals (number x) = c.strictEquals (number y) := by
  cases c with
  | number z => exact beq_zero_right hx hy
  | _ => simp [strictEquals, same]

theorem looseEquals_zero_left (hx : IsZero x) (hy : IsZero y) :
    (number x).looseEquals c = (number y).looseEquals c := by
  cases c with
  | undefined | null => rfl
  | string s => exact beq_zero_left hx hy
  | boolean p => exact beq_zero_left hx hy
  | _ =>
    simp only [looseEquals]
    exact strictEquals_zero_left hx hy

theorem looseEquals_zero_right (hx : IsZero x) (hy : IsZero y) :
    c.looseEquals (number x) = c.looseEquals (number y) := by
  cases c with
  | undefined | null => rfl
  | string s => exact beq_zero_right hx hy
  | boolean p => exact beq_zero_right hx hy
  | _ =>
    simp only [looseEquals]
    exact strictEquals_zero_right hx hy

theorem compare?_zero_left (hx : IsZero x) (hy : IsZero y) :
    (number x).compare? c = (number y).compare? c :=
  compareNumbers?_zero_left hx hy

theorem compare?_zero_right (hx : IsZero x) (hy : IsZero y) :
    c.compare? (number x) = c.compare? (number y) := by
  cases c with
  | string s => exact compareNumbers?_zero_right hx hy
  | _ => exact compareNumbers?_zero_right hx hy

/-- A zero on the left does not show its sign. -/
theorem binary_zero_left (op : BinaryOp) (hx : IsZero x) (hy : IsZero y) :
    (binary op (number x) c).same (binary op (number y) c) = true := by
  cases op with
  | add => exact add_zero_left hx hy
  | sub => exact same_number ▸ (zeroBlind_sub_left _).same hx hy
  | mul => exact same_number ▸ (zeroBlind_mul_left _).same hx hy
  | div => exact same_number ▸ (zeroBlind_div_left _).same hx hy
  | rem => exact same_number ▸ same_remainder_left hx hy
  | strictEq => exact same_boolean.mpr (strictEquals_zero_left hx hy)
  | strictNe => exact same_boolean.mpr (congrArg _ (strictEquals_zero_left hx hy))
  | eq => exact same_boolean.mpr (looseEquals_zero_left hx hy)
  | ne => exact same_boolean.mpr (congrArg _ (looseEquals_zero_left hx hy))
  | lt | le | gt | ge =>
    exact same_boolean.mpr (congrArg (Option.elim · false _) (compare?_zero_left hx hy))

/-- A zero on the right shows its sign only as a divisor. -/
theorem binary_zero_right {op : BinaryOp} (hop : op ≠ .div) (hx : IsZero x) (hy : IsZero y) :
    (binary op c (number x)).same (binary op c (number y)) = true := by
  cases op with
  | add => exact add_zero_right hx hy
  | sub => exact same_number ▸ (zeroBlind_sub_right _).same hx hy
  | mul => exact same_number ▸ (zeroBlind_mul_right _).same hx hy
  | div => exact absurd rfl hop
  | rem =>
    show (number (remainder c.toNumber x)).same (number (remainder c.toNumber y)) = true
    rw [same_number, remainder_zero hx, remainder_zero hy, Number.same_refl]
  | strictEq => exact same_boolean.mpr (strictEquals_zero_right hx hy)
  | strictNe => exact same_boolean.mpr (congrArg _ (strictEquals_zero_right hx hy))
  | eq => exact same_boolean.mpr (looseEquals_zero_right hx hy)
  | ne => exact same_boolean.mpr (congrArg _ (looseEquals_zero_right hx hy))
  | lt | le | gt | ge =>
    exact same_boolean.mpr (congrArg (Option.elim · false _) (compare?_zero_right hx hy))

theorem isTruthy_zero (hx : IsZero x) : (number x).isTruthy = false := by
  rcases hx with rfl | rfl
  · decide +kernel
  · decide +kernel

theorem unary_zero (op : UnaryOp) (hx : IsZero x) (hy : IsZero y) :
    (unary op (number x)).same (unary op (number y)) = true := by
  cases op with
  | not => exact same_boolean.mpr (by rw [isTruthy_zero hx, isTruthy_zero hy])
  | neg => exact same_number ▸ zeroBlind_neg.same hx hy
  | plus => exact same_number ▸ same_iff_eq_or.mpr (.inr ⟨hx, hy⟩)
  | typeof => simp [unary, typeName, same]

/-! ### Operators and equal values -/

theorem same_binary_self (op : BinaryOp) (a b : Value) :
    (binary op a b).same (binary op a b) = true := by
  cases op with
  | add =>
    show (a.add b).same (a.add b) = true
    unfold add
    split <;> simp [same]
  | _ => simp [binary, same]

theorem same_unary_self (op : UnaryOp) (a : Value) : (unary op a).same (unary op a) = true := by
  cases op <;> simp [unary, same]

/-- Two values that are equal as contents are interchangeable as operands, except that the two zeros
    are told apart as divisors of what is neither zero nor not-a-number. -/
theorem operators_interchangeable {a b : Value} (ha : a.isPrimitive = true)
    (hsame : a.same b = true) (c : Value) :
    (∀ op, (binary op a c).same (binary op b c) = true) ∧
      (∀ op, (binary op c a).same (binary op c b) = true ↔
        ¬ (op = .div ∧ OppositeZeros a b ∧ ¬ IsZero c.toNumber ∧ c.toNumber.isNaN = false)) ∧
      ∀ op, (unary op a).same (unary op b) = true := by
  rcases eq_or_oppositeZeros ha hsame with rfl | hzeros
  · refine ⟨fun op => same_binary_self op a c, fun op => ?_, fun op => same_unary_self op a⟩
    have hnone : ¬ OppositeZeros a a := by
      rintro ⟨x, y, hx, hy, -, -, hne⟩
      exact hne (number.inj (hx.symm.trans hy))
    simp [same_binary_self, hnone]
  · have hopposite := hzeros
    obtain ⟨x, y, rfl, rfl, hx, hy, hne⟩ := hzeros
    refine ⟨fun op => binary_zero_left op hx hy, fun op => ?_, fun op => unary_zero op hx hy⟩
    -- Of the operators only division tells the zeros apart, by the sign of an infinity.
    by_cases hop : op = .div
    · subst hop
      have hdiv : (binary .div c (number x)).same (binary .div c (number y)) = true ↔
          IsZero c.toNumber ∨ c.toNumber.isNaN = true := by
        rw [← same_div_zero_iff hx hy hne]
        exact same_number ▸ Iff.rfl
      rw [hdiv]
      simp [hopposite, Classical.or_iff_not_imp_left]
    · simp [hop, binary_zero_right hop hx hy]

/-- Negative zero stands for zero as what is divided, and in a sum. -/
theorem operators_interchangeable_zeros :
    (number 0.0).isPrimitive = true ∧ (number 0.0).same (number (-0.0)) = true ∧
      (binary .div (number 0.0) (number 1.0)).same (binary .div (number (-0.0)) (number 1.0)) =
        true ∧
      (binary .add (number 1.0) (number 0.0)).same (binary .add (number 1.0) (number (-0.0))) =
        true := by
  have hprimitive : (number 0.0).isPrimitive = true := rfl
  have hsame : (number 0.0).same (number (-0.0)) = true := by
    rw [same_number]
    decide +kernel
  obtain ⟨hleft, hright, -⟩ := operators_interchangeable hprimitive hsame (number 1.0)
  exact ⟨hprimitive, hsame, hleft .div, (hright .add).mpr (by simp)⟩

/-- As divisors of one the two zeros give infinities of different sign, which are not equal. -/
theorem divisor_shows_zero :
    (number 0.0).isPrimitive = true ∧ (number (-0.0)).isPrimitive = true ∧
      (number 1.0).isPrimitive = true ∧ (number 0.0).same (number (-0.0)) = true ∧
      (binary .div (number 1.0) (number 0.0)).same (binary .div (number 1.0) (number (-0.0))) =
        false := by
  refine ⟨rfl, rfl, rfl, ?_, ?_⟩
  · rw [same_number]
    decide +kernel
  · show (number (1.0 / 0.0)).same (number (1.0 / -0.0)) = false
    rw [same_number]
    decide +kernel

end ReactiveDoc.Value
