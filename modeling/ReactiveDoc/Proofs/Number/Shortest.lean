import Mathlib
import ReactiveDoc.Number.Shortest

namespace ReactiveDoc.Number

/-!
# The shortest decimal lies in the interval of its double

* `Canonical` — significand and exponent are as a double has them.
* `canonical_of_binary?`, `binary?_inj` — the exact value of a double is so, and determines it.
* `Interval.Holds` — a number lies in the interval of a double.
* `eq_of_holds` — no number lies in the intervals of two doubles.
* `Decimal.value` — the number that a decimal stands for.
* `inUnits_scaled` — comparisons in units of a grid are comparisons of the numbers themselves.
* `holds_of_hit?` — a hit lies in the interval.
* `exists_hit?` — a grid that is finer than the interval is wide has a hit.
* `le_centre` — a double has as many digits before its point as are counted.
* `holds_shortest` — the shortest decimal of a double lies in its interval.
-/

variable {x y : Float} {b b' : Binary}

/-! ### Decoding -/

theorem signBit_eq : signBit = 2 ^ 63 := rfl

theorem unitBits_eq : unitBits = 2 ^ 52 := rfl

/-- Significand and exponent are as a double has them: the significand fills its bits unless the
    exponent is the least one. -/
structure Canonical (b : Binary) : Prop where
  significand_lt : b.significand < 2 ^ 53
  le_exponent : -1074 ≤ b.exponent
  exponent_le : b.exponent ≤ 971
  normal : -1074 < b.exponent → 2 ^ 52 ≤ b.significand

/-- The two ways in which a finite double is decoded. -/
theorem binary?_eq_some (h : binary? x = some b) :
    b.negative = decide (2 ^ 63 ≤ x.toBits.toNat) ∧
      (x.toBits.toNat % 2 ^ 63 / 2 ^ 52 = 0 ∧ b.significand = x.toBits.toNat % 2 ^ 52 ∧
          b.exponent = -1074 ∨
        0 < x.toBits.toNat % 2 ^ 63 / 2 ^ 52 ∧ x.toBits.toNat % 2 ^ 63 / 2 ^ 52 < 2047 ∧
          b.significand = 2 ^ 52 + x.toBits.toNat % 2 ^ 52 ∧
          b.exponent = (x.toBits.toNat % 2 ^ 63 / 2 ^ 52 : Nat) - 1075) := by
  have hlt : x.toBits.toNat < 2 ^ 64 := x.toBits.toNat_lt
  have hsign : isNegative x = decide (2 ^ 63 ≤ x.toBits.toNat) := rfl
  rw [← signBit_eq, ← unitBits_eq] at *
  unfold binary? at h
  dsimp only at h
  split at h
  · cases h
  · rename_i hfinite
    split at h
    · rename_i hzero
      cases h
      exact ⟨hsign, .inl ⟨hzero, rfl, rfl⟩⟩
    · rename_i hpos
      cases h
      have hbelow : x.toBits.toNat % signBit / unitBits < 2048 := by
        rw [signBit_eq, unitBits_eq]
        omega
      exact ⟨hsign, .inr ⟨Nat.pos_of_ne_zero hpos,
        Nat.lt_of_le_of_ne (Nat.le_of_lt_succ hbelow) hfinite, rfl, rfl⟩⟩

theorem canonical_of_binary? (h : binary? x = some b) : Canonical b := by
  have hcases := (binary?_eq_some h).2
  constructor <;> omega

theorem eq_of_toBits (h : x.toBits.toNat = y.toBits.toNat) : x = y := by
  obtain ⟨⟨p, hp⟩⟩ := x
  obtain ⟨⟨q, hq⟩⟩ := y
  obtain rfl : p = q := UInt64.toNat_inj.mp h
  rfl

/-- The exact value of a finite double determines it. -/
theorem binary?_inj (hx : binary? x = some b) (hy : binary? y = some b) : x = y := by
  obtain ⟨hsign, hcases⟩ := binary?_eq_some hx
  obtain ⟨hsign', hcases'⟩ := binary?_eq_some hy
  have hlt : x.toBits.toNat < 2 ^ 64 := x.toBits.toNat_lt
  have hlt' : y.toBits.toNat < 2 ^ 64 := y.toBits.toNat_lt
  have hiff : 2 ^ 63 ≤ x.toBits.toNat ↔ 2 ^ 63 ≤ y.toBits.toNat :=
    decide_eq_decide.mp (hsign.symm.trans hsign')
  exact eq_of_toBits (by omega)

/-! ### Intervals -/

/-- The number lies in the interval; the ends belong to it only if it is closed. -/
structure Interval.Holds (i : Interval) (r : ℚ) : Prop where
  low_le : i.low * (2 : ℚ) ^ i.exponent ≤ r
  le_high : r ≤ i.high * (2 : ℚ) ^ i.exponent
  lt_of_open : i.closed = false →
    i.low * (2 : ℚ) ^ i.exponent < r ∧ r < i.high * (2 : ℚ) ^ i.exponent

theorem low_ofBinary (b : Binary) : (Interval.ofBinary b).low =
    4 * b.significand - if b.significand = unitBits ∧ -1074 < b.exponent then 1 else 2 := rfl

theorem open_of_odd (h : b.significand % 2 = 1) : (Interval.ofBinary b).closed = false := by
  simp [Interval.ofBinary, h]

/-- In units of the finer of two doubles, the smaller one's interval is before that of the other.
    Where they touch, one of the significands is odd. -/
theorem high_le_low_scaled (hb : Canonical b) (hb' : Canonical b') {k : Nat}
    (hk : b'.exponent = b.exponent + k) (hlt : k = 0 → b.significand < b'.significand) :
    4 * b.significand + 2 ≤ (Interval.ofBinary b').low * 2 ^ k ∧
      (4 * b.significand + 2 = (Interval.ofBinary b').low * 2 ^ k →
        b.significand % 2 = 1 ∨ b'.significand % 2 = 1) := by
  have hm := hb.significand_lt
  rw [low_ofBinary, unitBits_eq]
  by_cases hzero : k = 0
  · have := hlt hzero
    subst hzero
    split <;> omega
  · -- The other double is normal, so that one unit of its interval is two of the finer ones or more.
    have hleast := hb.le_exponent
    have hnormal : 2 ^ 52 ≤ b'.significand := hb'.normal (by omega)
    have htwo : 2 ≤ 2 ^ k := Nat.le_self_pow hzero 2
    split
    · have hscale := Nat.mul_le_mul_left (4 * b'.significand - 1) htwo
      omega
    · have hscale := Nat.mul_le_mul_left (4 * b'.significand - 2) htwo
      omega

/-- Of two different doubles the smaller one has its interval before that of the other.  Where the
    intervals touch, one of them is open. -/
theorem high_le_low (hb : Canonical b) (hb' : Canonical b')
    (hlt : b.exponent < b'.exponent ∨ b.exponent = b'.exponent ∧ b.significand < b'.significand) :
    (Interval.ofBinary b).high * (2 : ℚ) ^ (Interval.ofBinary b).exponent ≤
        (Interval.ofBinary b').low * (2 : ℚ) ^ (Interval.ofBinary b').exponent ∧
      ((Interval.ofBinary b).high * (2 : ℚ) ^ (Interval.ofBinary b).exponent =
          (Interval.ofBinary b').low * (2 : ℚ) ^ (Interval.ofBinary b').exponent →
        (Interval.ofBinary b).closed = false ∨ (Interval.ofBinary b').closed = false) := by
  obtain ⟨k, hk⟩ : ∃ k : Nat, b'.exponent = b.exponent + k :=
    ⟨(b'.exponent - b.exponent).toNat, by omega⟩
  obtain ⟨hle, heq⟩ := high_le_low_scaled hb hb' hk (by omega)
  have hpos : (0 : ℚ) < 2 ^ (b.exponent - 2) := by positivity
  have hhigh : ((Interval.ofBinary b).high : ℚ) = (4 * b.significand + 2 : Nat) := rfl
  have hscale : (2 : ℚ) ^ (Interval.ofBinary b').exponent = 2 ^ k * 2 ^ (b.exponent - 2) := by
    show (2 : ℚ) ^ (b'.exponent - 2) = _
    rw [hk, ← zpow_natCast, ← zpow_add₀ two_ne_zero]
    congr 1
    ring
  rw [hscale, hhigh, ← mul_assoc]
  show _ * (2 : ℚ) ^ (b.exponent - 2) ≤ _ ∧ (_ * (2 : ℚ) ^ (b.exponent - 2) = _ → _)
  rw [mul_le_mul_iff_left₀ hpos, mul_left_inj' hpos.ne']
  refine ⟨by exact_mod_cast hle, fun h => ?_⟩
  exact (heq (by exact_mod_cast h)).imp open_of_odd open_of_odd

/-- No number lies in the intervals of two doubles. -/
theorem eq_of_holds (hb : Canonical b) (hb' : Canonical b') {r : ℚ}
    (h : (Interval.ofBinary b).Holds r) (h' : (Interval.ofBinary b').Holds r) :
    b.significand = b'.significand ∧ b.exponent = b'.exponent := by
  have hnot {c c' : Binary} (hc : Canonical c) (hc' : Canonical c')
      (hlt : c.exponent < c'.exponent ∨ c.exponent = c'.exponent ∧ c.significand < c'.significand)
      (hr : (Interval.ofBinary c).Holds r) (hr' : (Interval.ofBinary c').Holds r) : False := by
    obtain ⟨hle, hopen⟩ := high_le_low hc hc' hlt
    have heq := le_antisymm hle (hr'.low_le.trans hr.le_high)
    rcases hopen heq with hopen | hopen
    · exact absurd (hr.lt_of_open hopen).2 (not_lt.mpr (heq ▸ hr'.low_le))
    · exact absurd (hr'.lt_of_open hopen).1 (not_lt.mpr (heq ▸ hr.le_high))
  by_contra hne
  have hcases : (b.exponent < b'.exponent ∨
      b.exponent = b'.exponent ∧ b.significand < b'.significand) ∨
      b'.exponent < b.exponent ∨ b'.exponent = b.exponent ∧ b'.significand < b.significand := by
    omega
  rcases hcases with hlt | hlt
  · exact hnot hb hb' hlt h h'
  · exact hnot hb' hb hlt h' h

/-! ### Decimals -/

variable {i : Interval} {tie : Tie} {p : Int} {c : Nat}

/-- The number that a decimal stands for. -/
def Decimal.value (d : Decimal) : ℚ := d.coefficient * 10 ^ d.exponent

/-- The double itself. -/
def Interval.middle (i : Interval) : ℚ := i.centre * 2 ^ i.exponent

/-! ### Grids -/

/-- The interval in units of a grid: two and ten to the given powers, over one denominator. -/
theorem inUnits_scaled (i : Interval) (p : Int) : ∃ scale unit : Nat, ∃ k : ℚ, 0 < k ∧
    i.inUnits p = (i.low * scale, i.centre * scale, i.high * scale, unit) ∧
    (scale : ℚ) = 2 ^ i.exponent * k ∧ (unit : ℚ) = 10 ^ p * k := by
  have hsplit {a : ℚ} (ha : a ≠ 0) (n : Int) :
      a ^ n.toNat = a ^ n * a ^ (-n).toNat := by
    rw [← zpow_natCast, ← zpow_natCast, ← zpow_add₀ ha]
    congr 1
    omega
  refine ⟨_, _, 2 ^ (-i.exponent).toNat * 10 ^ (-p).toNat, by positivity, rfl, ?_, ?_⟩
  · show ((2 ^ i.exponent.toNat * 10 ^ (-p).toNat : Nat) : ℚ) = _
    push_cast
    rw [hsplit two_ne_zero i.exponent]
    ring
  · show ((2 ^ (-i.exponent).toNat * 10 ^ p.toNat : Nat) : ℚ) = _
    push_cast
    rw [hsplit (by norm_num : (10 : ℚ) ≠ 0) p]
    ring

section

variable {scale unit a : Nat} {k : ℚ} {e : Int} (hk : 0 < k) (hscale : (scale : ℚ) = 2 ^ e * k)
  (hunit : (unit : ℚ) = 10 ^ p * k)

include hk hscale hunit

theorem scaled_le_iff : a * scale ≤ c * unit ↔ (a : ℚ) * 2 ^ e ≤ c * 10 ^ p := by
  rw [← Nat.cast_le (α := ℚ), Nat.cast_mul, Nat.cast_mul, hscale, hunit, ← mul_assoc, ← mul_assoc,
    mul_le_mul_iff_left₀ hk]

theorem le_scaled_iff : c * unit ≤ a * scale ↔ (c : ℚ) * 10 ^ p ≤ a * 2 ^ e := by
  rw [← Nat.cast_le (α := ℚ), Nat.cast_mul, Nat.cast_mul, hscale, hunit, ← mul_assoc, ← mul_assoc,
    mul_le_mul_iff_left₀ hk]

end

/-- A multiple of the unit that is tested to lie in the interval. -/
def Interval.test (i : Interval) (p : Int) (c : Nat) : Bool :=
  let (low, _, high, unit) := i.inUnits p
  if i.closed then low ≤ c * unit && c * unit ≤ high else low < c * unit && c * unit < high

theorem holds_of_test (h : i.test p c = true) : i.Holds (c * 10 ^ p) := by
  obtain ⟨scale, unit, k, hk, hunits, hscale, hunit⟩ := inUnits_scaled i p
  rw [Interval.test, hunits] at h
  dsimp only at h
  cases hclosed : i.closed with
  | true =>
    rw [hclosed, if_pos rfl, Bool.and_eq_true, decide_eq_true_eq, decide_eq_true_eq,
      scaled_le_iff hk hscale hunit, le_scaled_iff hk hscale hunit] at h
    exact ⟨h.1, h.2, fun hopen => absurd (hclosed.symm.trans hopen) (by decide)⟩
  | false =>
    rw [hclosed, if_neg (by decide), Bool.and_eq_true, decide_eq_true_eq, decide_eq_true_eq,
      ← not_le, ← not_le, scaled_le_iff hk hscale hunit, le_scaled_iff hk hscale hunit, not_le,
      not_le] at h
    exact ⟨h.1.le, h.2.le, fun _ => h⟩

/-- The number of units up to the centre. -/
def Interval.floor (i : Interval) (p : Int) : Nat :=
  let (_, centre, _, unit) := i.inUnits p
  centre / unit

/-- A hit is a multiple next to the centre that passes its test. -/
theorem hit?_eq (i : Interval) (tie : Tie) (p : Int) : ∃ upward : Bool, i.hit? tie p =
    match i.test p (i.floor p), i.test p (i.floor p + 1) with
    | true, true => some (if upward then i.floor p + 1 else i.floor p)
    | true, false => some (i.floor p)
    | false, true => some (i.floor p + 1)
    | false, false => none :=
  ⟨_, rfl⟩

theorem holds_of_hit? (h : i.hit? tie p = some c) : i.Holds (c * 10 ^ p) := by
  obtain ⟨upward, hhit⟩ := hit?_eq i tie p
  rw [hhit] at h
  refine holds_of_test ?_
  split at h
  · cases upward <;> cases h <;> assumption
  · cases h
    assumption
  · cases h
    assumption
  · cases h

/-- A multiple between the ends passes its test, whether the interval is open or closed. -/
theorem test_of_between (hlow : i.low * (2 : ℚ) ^ i.exponent < c * 10 ^ p)
    (hhigh : c * 10 ^ p < i.high * (2 : ℚ) ^ i.exponent) : i.test p c = true := by
  obtain ⟨scale, unit, k, hk, hunits, hscale, hunit⟩ := inUnits_scaled i p
  have hlow' : i.low * scale < c * unit := by
    rwa [← not_le, le_scaled_iff hk hscale hunit, not_le]
  have hhigh' : c * unit < i.high * scale := by
    rwa [← not_le, scaled_le_iff hk hscale hunit, not_le]
  rw [Interval.test, hunits]
  cases i.closed with
  | true => simp [hlow'.le, hhigh'.le]
  | false => simp [hlow', hhigh']

/-- The centre is less than a unit behind the multiple before it. -/
theorem floor_spec (i : Interval) (p : Int) : (i.floor p : ℚ) * 10 ^ p ≤ i.middle ∧
    i.middle < ((i.floor p + 1 : Nat) : ℚ) * 10 ^ p := by
  obtain ⟨scale, unit, k, hk, hunits, hscale, hunit⟩ := inUnits_scaled i p
  have hfloor : i.floor p = i.centre * scale / unit := by rw [Interval.floor, hunits]
  have hpos : 0 < unit := by
    have : (0 : ℚ) < unit := by
      rw [hunit]
      positivity
    exact_mod_cast this
  constructor
  · rw [Interval.middle, ← le_scaled_iff hk hscale hunit, hfloor]
    exact Nat.div_mul_le_self _ _
  · rw [Interval.middle, ← not_le, ← le_scaled_iff hk hscale hunit, hfloor, not_le,
      mul_comm (_ + 1)]
    exact Nat.lt_mul_div_succ _ hpos

/-- A grid that is finer than the interval is wide has a multiple in it. -/
theorem exists_hit? (hlow : i.low < i.centre) (hhigh : i.centre < i.high)
    (hfine : (10 : ℚ) ^ p < (i.high - i.low) * 2 ^ i.exponent) : ∃ c, i.hit? tie p = some c := by
  obtain ⟨upward, hhit⟩ := hit?_eq i tie p
  rw [hhit]
  split
  · exact ⟨_, rfl⟩
  · exact ⟨_, rfl⟩
  · exact ⟨_, rfl⟩
  · rename_i hdown hup
    -- The two multiples would be outside, on either side, and a unit apart.
    obtain ⟨hfloor, hceil⟩ := floor_spec i p
    have hpos : (0 : ℚ) < 2 ^ i.exponent := by positivity
    have hlow' : i.low * (2 : ℚ) ^ i.exponent < i.middle :=
      mul_lt_mul_of_pos_right (by exact_mod_cast hlow) hpos
    have hhigh' : i.middle < i.high * (2 : ℚ) ^ i.exponent :=
      mul_lt_mul_of_pos_right (by exact_mod_cast hhigh) hpos
    have hbefore : (i.floor p : ℚ) * 10 ^ p ≤ i.low * (2 : ℚ) ^ i.exponent := by
      by_contra hnot
      have := test_of_between (not_le.mp hnot) (hfloor.trans_lt hhigh')
      rw [hdown] at this
      exact Bool.false_ne_true this
    have hbehind : i.high * (2 : ℚ) ^ i.exponent ≤ ((i.floor p + 1 : Nat) : ℚ) * 10 ^ p := by
      by_contra hnot
      have := test_of_between (hlow'.trans hceil) (not_le.mp hnot)
      rw [hup] at this
      exact Bool.false_ne_true this
    have hunit : ((i.floor p + 1 : Nat) : ℚ) * 10 ^ p = i.floor p * 10 ^ p + 10 ^ p := by
      push_cast
      ring
    rw [sub_mul] at hfine
    linarith

/-! ### Digits before the point -/

/-- Powers of ten and two by their exponents, which relate nearly as the logarithms do. -/
theorem ten_zpow_le_two_zpow {n l : Int} (h : 100000 * (n + 1) ≤ 30103 * l) (hlow : -1074 ≤ l)
    (hhigh : l ≤ 1023) : (10 : ℚ) ^ n ≤ 2 ^ l := by
  by_cases hn : 0 ≤ n
  · obtain ⟨n, rfl⟩ := Int.eq_ofNat_of_zero_le hn
    obtain ⟨l, rfl⟩ := Int.eq_ofNat_of_zero_le (by omega : 0 ≤ l)
    have hpow : ((10 : ℚ) ^ n) ^ 59 ≤ (2 ^ l) ^ 59 := calc
      ((10 : ℚ) ^ n) ^ 59 = (10 ^ 59) ^ n := pow_right_comm _ _ _
      _ ≤ (2 ^ 196) ^ n := pow_le_pow_left₀ (by positivity) (by norm_num) n
      _ = 2 ^ (196 * n) := (pow_mul _ _ _).symm
      _ ≤ 2 ^ (l * 59) := pow_le_pow_right₀ one_le_two (by omega)
      _ = (2 ^ l) ^ 59 := pow_mul _ _ _
    simpa using (pow_le_pow_iff_left₀ (by positivity) (by positivity) (by norm_num)).mp hpow
  · obtain ⟨k, rfl⟩ := Int.exists_eq_neg_ofNat (by omega : n ≤ 0)
    by_cases hl : 0 ≤ l
    · exact (zpow_le_one_of_nonpos₀ (by norm_num) (by omega)).trans (one_le_zpow₀ one_le_two hl)
    · obtain ⟨l, rfl⟩ := Int.exists_eq_neg_ofNat (by omega : l ≤ 0)
      have hpow : ((2 : ℚ) ^ l) ^ 93 ≤ (10 ^ k) ^ 93 := calc
        ((2 : ℚ) ^ l) ^ 93 = (2 ^ 93) ^ l := pow_right_comm _ _ _
        _ ≤ (10 ^ 28) ^ l := pow_le_pow_left₀ (by positivity) (by norm_num) l
        _ = 10 ^ (28 * l) := (pow_mul _ _ _).symm
        _ ≤ 10 ^ (k * 93) := pow_le_pow_right₀ (by norm_num) (by omega)
        _ = (10 ^ k) ^ 93 := pow_mul _ _ _
      have hle := (pow_le_pow_iff_left₀ (by positivity) (by positivity) (by norm_num)).mp hpow
      rw [zpow_neg, zpow_neg, zpow_natCast, zpow_natCast]
      exact inv_anti₀ (by positivity) hle

/-- A double is at least the power of ten that its digits before the point start with. -/
theorem ten_zpow_le_middle (hb : Canonical b) (hm : 0 < b.significand) :
    (10 : ℚ) ^ ((Interval.ofBinary b).digitsBeforePoint - 1) ≤ (Interval.ofBinary b).middle := by
  have hlt := hb.significand_lt
  have hle := hb.le_exponent
  have hge := hb.exponent_le
  generalize hi : Interval.ofBinary b = i
  have hcentre : i.centre = 4 * b.significand := by rw [← hi]; rfl
  have hexponent : i.exponent = b.exponent - 2 := by rw [← hi]; rfl
  obtain ⟨guess, hguess⟩ : ∃ guess : Int,
      guess = ((i.centre.log2 : Int) + i.exponent) * 30103 / 100000 + 1 := ⟨_, rfl⟩
  have hreaches (p : Int) (h : (i.inUnits p).2.2.2 ≤ (i.inUnits p).2.1) :
      (10 : ℚ) ^ p ≤ i.middle := by
    obtain ⟨scale, unit, k, hk, hunits, hscale, hunit⟩ := inUnits_scaled i p
    rw [hunits, ← one_mul unit, le_scaled_iff hk hscale hunit] at h
    simpa [Interval.middle] using h
  rw [Interval.digitsBeforePoint]
  dsimp only
  rw [← hguess]
  split
  · rename_i h
    rw [add_sub_cancel_right]
    exact hreaches _ (of_decide_eq_true h)
  · split
    · rename_i h
      exact hreaches _ (of_decide_eq_true h)
    · -- The guess is never more than one digit too many.
      have hlow : 2 ≤ i.centre.log2 := (Nat.le_log2 (by omega)).mpr (by omega)
      have hhigh : i.centre.log2 < 55 := (Nat.log2_lt (by omega)).mpr (by omega)
      calc (10 : ℚ) ^ (guess - 1 - 1) ≤ 2 ^ ((i.centre.log2 : Int) + i.exponent) :=
            ten_zpow_le_two_zpow (by omega) (by omega) (by omega)
        _ = 2 ^ i.centre.log2 * 2 ^ i.exponent := by
            rw [zpow_add₀ two_ne_zero, zpow_natCast]
        _ ≤ i.middle := by
            refine mul_le_mul_of_nonneg_right ?_ (by positivity)
            exact_mod_cast Nat.log2_self_le (by omega : i.centre ≠ 0)

/-! ### The shortest decimal -/

/-- Moving zeros into the exponent keeps the number. -/
@[simp] theorem value_strip (fuel : Nat) (d : Decimal) : (d.strip fuel).value = d.value := by
  induction fuel generalizing d with
  | zero => rfl
  | succ fuel ih =>
    rw [Decimal.strip]
    split
    · rename_i h
      have hten : (d.coefficient : ℚ) = (d.coefficient / 10 : Nat) * 10 := by
        exact_mod_cast (Nat.div_mul_cancel (Nat.dvd_of_mod_eq_zero h.2)).symm
      rw [ih, Decimal.value, Decimal.value, hten, zpow_add_one₀ (by norm_num)]
      ring
    · rfl

/-- With seventeen digits the grid is finer than the interval is wide. -/
theorem ten_zpow_lt_width (hb : Canonical b) (hm : 0 < b.significand) :
    (10 : ℚ) ^ ((Interval.ofBinary b).digitsBeforePoint - 17) <
      ((Interval.ofBinary b).high - (Interval.ofBinary b).low) *
        2 ^ (Interval.ofBinary b).exponent := by
  have hlt := hb.significand_lt
  have hreach := ten_zpow_le_middle hb hm
  have hpos : (0 : ℚ) < 2 ^ (Interval.ofBinary b).exponent := by positivity
  have hwide : (Interval.ofBinary b).centre + (Interval.ofBinary b).low * 10 ^ 16 <
      (Interval.ofBinary b).high * 10 ^ 16 := by
    rw [low_ofBinary]
    show 4 * b.significand + _ < (4 * b.significand + 2) * 10 ^ 16
    rw [unitBits_eq]
    split <;> omega
  have hwide' : ((Interval.ofBinary b).centre : ℚ) <
      ((Interval.ofBinary b).high - (Interval.ofBinary b).low) * 10 ^ 16 := by
    rw [sub_mul, lt_sub_iff_add_lt]
    exact_mod_cast hwide
  calc (10 : ℚ) ^ ((Interval.ofBinary b).digitsBeforePoint - 17)
      = 10 ^ ((Interval.ofBinary b).digitsBeforePoint - 1) / 10 ^ 16 := by
        rw [← zpow_natCast, ← zpow_sub₀ (by norm_num)]
        congr 1
        push_cast
        ring
    _ ≤ (Interval.ofBinary b).middle / 10 ^ 16 := div_le_div_of_nonneg_right hreach (by positivity)
    _ < _ := by
        rw [div_lt_iff₀ (by positivity), Interval.middle, mul_right_comm]
        exact mul_lt_mul_of_pos_right hwide' hpos

/-- The shortest decimal of a positive double lies in the interval of the double. -/
theorem holds_shortest (tie : Tie) (hb : Canonical b) (hm : 0 < b.significand) :
    (Interval.ofBinary b).Holds (shortest tie b).value := by
  have hlow : (Interval.ofBinary b).low < (Interval.ofBinary b).centre := by
    rw [low_ofBinary]
    show _ < 4 * b.significand
    split <;> omega
  obtain ⟨c, hc⟩ : ∃ c, (Interval.ofBinary b).hit? tie
      ((Interval.ofBinary b).digitsBeforePoint - 17) = some c :=
    exists_hit? hlow (Nat.lt_add_of_pos_right (by decide)) (ten_zpow_lt_width hb hm)
  rw [shortest, value_strip]
  dsimp only
  generalize hfound : List.findSome? _ (List.range 17) = found
  cases found with
  | none =>
    have hnone := List.findSome?_eq_none_iff.mp hfound 16 (by decide)
    have : (Interval.ofBinary b).hit? tie ((Interval.ofBinary b).digitsBeforePoint - 17) = none :=
      Option.map_eq_none_iff.mp hnone
    rw [this] at hc
    cases hc
  | some d =>
    obtain ⟨n, -, hn⟩ := List.exists_of_findSome?_eq_some hfound
    obtain ⟨c, hc, rfl⟩ := Option.map_eq_some_iff.mp hn
    exact holds_of_hit? hc

end ReactiveDoc.Number
