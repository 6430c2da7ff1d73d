import ReactiveDoc.Number.Binary
import Mathlib

namespace ReactiveDoc.Number

open Float.Model Float.Model.UnpackedFloat

/-!
# Two equalities of doubles

Contents are compared by `same`, operands by the equality of the arithmetic.  They differ at
not-a-number alone.

* `unpack_inj` — the parts of an encoded double determine it.
* `same_iff_eq_or` — two numbers are the same if they are equal or both zero.
* `beq_iff_same` — the arithmetic finds two numbers equal if they are the same and are numbers.
-/

/-! ### Parts of an encoded double -/

theorem sign_compare_eq_iff {s t : Sign} : compare s t = .eq ↔ s = t := by
  cases s <;> cases t <;> simp <;> decide

theorem sign_ofBitVec_inj {a b : BitVec 1} (h : Sign.ofBitVec a = Sign.ofBitVec b) : a = b := by
  rcases BitVec.eq_zero_or_eq_one a with rfl | rfl <;>
    rcases BitVec.eq_zero_or_eq_one b with rfl | rfl <;> simp [Sign.ofBitVec] at h ⊢

/-- The sign, the exponent and the fraction are all that is encoded. -/
theorem eq_of_parts {a b : BitVec Format.binary64.numBits} (hs : unpackSign a = unpackSign b)
    (he : unpackExponent a = unpackExponent b) (hm : unpackMantissa a = unpackMantissa b) :
    a = b := by
  have ha := a.isLt
  have hb := b.isLt
  simp only [unpackSign, unpackExponent, unpackMantissa, ← BitVec.toNat_inj, BitVec.toNat_cast,
    BitVec.extractLsb_toNat, Nat.shiftRight_eq_div_pow, Format.numBits, Nat.reduceAdd,
    Nat.reduceSub, Nat.reducePow] at *
  omega

theorem unpack_infinity {b : BitVec Format.binary64.numBits} {s : Sign}
    (h : UnpackedFloat.unpack Format.binary64 b = .infinity s) :
    Sign.ofBitVec (unpackSign b) = s ∧ unpackExponent b = -1#_ ∧ unpackMantissa b = 0#_ := by
  simp only [UnpackedFloat.unpack] at h
  split at h
  next he =>
    split at h
    next hm => exact ⟨UnpackedFloat.infinity.inj h, he, hm⟩
    next => cases h
  next =>
    split at h
    next => split at h <;> cases h
    next => cases h

theorem unpack_zero {b : BitVec Format.binary64.numBits} {s : Sign}
    (h : UnpackedFloat.unpack Format.binary64 b = .zero s) :
    Sign.ofBitVec (unpackSign b) = s ∧ unpackExponent b = 0#_ ∧ unpackMantissa b = 0#_ := by
  simp only [UnpackedFloat.unpack] at h
  split at h
  next => split at h <;> cases h
  next =>
    split at h
    next he =>
      split at h
      next hm => exact ⟨UnpackedFloat.zero.inj h, he, hm⟩
      next => cases h
    next => cases h

/-- The significand of a finite number is its fraction, with the implicit bit from the least
    normal exponent on. -/
theorem unpack_finite {b : BitVec Format.binary64.numBits} {s : Sign} {m : Nat} {e : Int}
    {hm : 0 < m} (h : UnpackedFloat.unpack Format.binary64 b = .finite s m e hm) :
    Sign.ofBitVec (unpackSign b) = s ∧
      ((unpackExponent b).toNat = 0 ∧ m = (unpackMantissa b).toNat ∧ e = -1074 ∨
        0 < (unpackExponent b).toNat ∧ m = 2 ^ 52 + (unpackMantissa b).toNat ∧
          e = (unpackExponent b).toNat - 1075) := by
  simp only [UnpackedFloat.unpack] at h
  split at h
  next => split at h <;> cases h
  next =>
    split at h
    next h0 =>
      split at h <;> cases h
      simp [h0, Format.exponentBias]
    next h0 =>
      cases h
      refine ⟨rfl, .inr ⟨?_, ?_, ?_⟩⟩
      · exact Nat.pos_of_ne_zero fun h => h0 (BitVec.eq_of_toNat_eq h)
      · rw [BitVec.toNat_append, ← Nat.shiftLeft_add_eq_or_of_lt (unpackMantissa b).isLt]
        rfl
      · simp [Format.exponentBias]

theorem unpack_notANumber {b : BitVec Format.binary64.numBits}
    (h : UnpackedFloat.unpack Format.binary64 b = .notANumber) :
    unpackExponent b = -1#_ ∧ unpackMantissa b ≠ 0#_ := by
  simp only [UnpackedFloat.unpack] at h
  split at h
  next he =>
    split at h
    next => cases h
    next hm => exact ⟨he, hm⟩
  next =>
    split at h
    next => split at h <;> cases h
    next => cases h

theorem unpack_inj {a b : BitVec Format.binary64.numBits}
    (h : UnpackedFloat.unpack Format.binary64 a = UnpackedFloat.unpack Format.binary64 b)
    (hn : UnpackedFloat.unpack Format.binary64 a ≠ .notANumber) : a = b := by
  cases hb : UnpackedFloat.unpack Format.binary64 b with
  | notANumber => exact absurd (h.trans hb) hn
  | infinity s =>
    obtain ⟨hs, he, hm⟩ := unpack_infinity (h.trans hb)
    obtain ⟨hs', he', hm'⟩ := unpack_infinity hb
    exact eq_of_parts (sign_ofBitVec_inj (hs.trans hs'.symm)) (he.trans he'.symm)
      (hm.trans hm'.symm)
  | zero s =>
    obtain ⟨hs, he, hm⟩ := unpack_zero (h.trans hb)
    obtain ⟨hs', he', hm'⟩ := unpack_zero hb
    exact eq_of_parts (sign_ofBitVec_inj (hs.trans hs'.symm)) (he.trans he'.symm)
      (hm.trans hm'.symm)
  | finite s m e hm =>
    obtain ⟨hs, hx⟩ := unpack_finite (h.trans hb)
    obtain ⟨hs', hx'⟩ := unpack_finite hb
    -- the implicit bit keeps apart the two ways in which a significand comes about
    have hma : (unpackMantissa a).toNat < 2 ^ 52 := (unpackMantissa a).isLt
    have hmb : (unpackMantissa b).toNat < 2 ^ 52 := (unpackMantissa b).isLt
    refine eq_of_parts (sign_ofBitVec_inj (hs.trans hs'.symm)) ?_ ?_ <;>
      apply BitVec.eq_of_toNat_eq <;> omega

theorem eq_of_unpack {x y : Float} (h : x.toModel.unpack = y.toModel.unpack)
    (hn : x.toModel.unpack ≠ .notANumber) : x = y := by
  obtain ⟨⟨a, ha⟩⟩ := x
  obtain ⟨⟨b, hb⟩⟩ := y
  have : a.toBitVec = b.toBitVec := unpack_inj h hn
  congr
  exact UInt64.eq_of_toBitVec_eq this

/-! ### Zeros and not-a-number -/

theorem isNaN_iff {x : Float} : x.isNaN = true ↔ x.toModel.unpack = .notANumber := by
  show x.toModel.unpack.isNaN = true ↔ _
  cases x.toModel.unpack <;> simp [UnpackedFloat.isNaN]

/-- There is one not-a-number. -/
theorem eq_of_isNaN {x y : Float} (hx : x.isNaN = true) (hy : y.isNaN = true) : x = y := by
  obtain ⟨⟨a, ha⟩⟩ := x
  obtain ⟨⟨b, hb⟩⟩ := y
  obtain ⟨hae, ham⟩ := unpack_notANumber (isNaN_iff.1 hx)
  obtain ⟨hbe, hbm⟩ := unpack_notANumber (isNaN_iff.1 hy)
  have : a.toBitVec = b.toBitVec :=
    (ha.eq_packedNaN hae ham).trans (hb.eq_packedNaN hbe hbm).symm
  congr
  exact UInt64.eq_of_toBitVec_eq this

theorem unpack_positiveZero : (0.0 : Float).toModel.unpack = .zero .positive := by
  have : (0.0 : Float).toModel = Float.Model.ofBits 0 := by decide +kernel
  rw [this]
  rfl

theorem unpack_negativeZero : (-0.0 : Float).toModel.unpack = .zero .negative := by
  have : (-0.0 : Float).toModel = Float.Model.ofBits 0x8000000000000000 := by decide +kernel
  rw [this]
  rfl

/-- One of the two zeros. -/
def IsZero (x : Float) : Prop := x = 0.0 ∨ x = -0.0

theorem isZero_iff {x : Float} : IsZero x ↔ ∃ s, x.toModel.unpack = .zero s := by
  constructor
  · rintro (rfl | rfl)
    · exact ⟨_, unpack_positiveZero⟩
    · exact ⟨_, unpack_negativeZero⟩
  · rintro ⟨s, hs⟩
    cases s with
    | positive => exact .inl (eq_of_unpack (hs.trans unpack_positiveZero.symm) (by simp [hs]))
    | negative => exact .inr (eq_of_unpack (hs.trans unpack_negativeZero.symm) (by simp [hs]))

theorem same_iff_eq_or {x y : Float} : same x y = true ↔ x = y ∨ IsZero x ∧ IsZero y := by
  have : (0.0 : Float) ≠ -0.0 := by decide +kernel
  rw [same_iff, key, key, IsZero, IsZero]
  grind

/-! ### Equality of the arithmetic -/

theorem compare_eq_iff {a b : UnpackedFloat} :
    a.compare b = some .eq ↔
      a = b ∧ a ≠ .notANumber ∨ (∃ s, a = .zero s) ∧ ∃ s, b = .zero s := by
  cases a with
  | notANumber => simp [UnpackedFloat.compare]
  | infinity s =>
    cases b with
    | infinity t => simp [UnpackedFloat.compare, sign_compare_eq_iff]
    | notANumber | zero t | finite t => cases s <;> simp [UnpackedFloat.compare]
  | zero s =>
    cases b with
    | infinity t | finite t => cases t <;> simp [UnpackedFloat.compare]
    | notANumber | zero t => simp [UnpackedFloat.compare]
  | finite s m e hm =>
    cases b with
    | infinity t => cases t <;> simp [UnpackedFloat.compare]
    | notANumber => simp [UnpackedFloat.compare]
    | zero t => cases s <;> simp [UnpackedFloat.compare]
    | finite t m' e' hm' =>
      cases s <;> cases t <;>
        simp [UnpackedFloat.compare, Ordering.then_eq_eq, Std.LawfulEqCmp.compare_eq_iff_eq,
          and_comm]

theorem beq_iff_same {x y : Float} : (x == y) = true ↔ same x y = true ∧ x.isNaN = false := by
  have hbeq : (x == y) = true ↔ x.toModel.unpack.compare y.toModel.unpack = some .eq := by
    show (x.toModel.unpack.compare y.toModel.unpack == some .eq) = true ↔ _
    simp
  rw [hbeq, compare_eq_iff, ← isZero_iff, ← isZero_iff, same_iff_eq_or, ← Bool.not_eq_true,
    isNaN_iff]
  constructor
  · rintro (⟨h, hn⟩ | ⟨hx, hy⟩)
    · exact ⟨.inl (eq_of_unpack h hn), hn⟩
    · obtain ⟨s, hs⟩ := isZero_iff.1 hx
      exact ⟨.inr ⟨hx, hy⟩, by simp [hs]⟩
  · rintro ⟨rfl | h, hn⟩
    · exact .inl ⟨rfl, hn⟩
    · exact .inr h

theorem isNaN_of_same {x y : Float} (h : same x y = true) (hx : x.isNaN = true) :
    y.isNaN = true := by
  rcases same_iff_eq_or.1 h with rfl | ⟨hz, -⟩
  · exact hx
  · obtain ⟨s, hs⟩ := isZero_iff.1 hz
    rw [isNaN_iff, hs] at hx
    cases hx

end ReactiveDoc.Number
