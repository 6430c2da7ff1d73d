import Mathlib
import ReactiveDoc.Proofs.Json.Tokens
import ReactiveDoc.Proofs.Number.Shortest

namespace ReactiveDoc.Number

/-!
# Finite numbers are told apart by their JSON texts

* `Numeral` — digits, digits behind a point, and a power of ten, with its text and its value.
* `Numeral.text_inj` — a text is that of one numeral.
* `exists_numeral` — the JSON text of a finite number is that of a numeral in its interval.
* `jsonText_inj` — different finite numbers have different texts.
-/

open Json (isDigit_of_mem_digitChars)

variable {cs ds r r' : List Char}

/-! ### Runs of characters -/

/-- Where a run of characters ends, another text with such a run in front divides as well. -/
theorem append_inj_of_run {p : Char → Bool} (hcs : ∀ c ∈ cs, p c = true)
    (hds : ∀ c ∈ ds, p c = true) (hr : ∀ c ∈ r.head?, p c = false)
    (hr' : ∀ c ∈ r'.head?, p c = false) (h : cs ++ r = ds ++ r') : cs = ds ∧ r = r' := by
  have hrun {cs r : List Char} (hcs : ∀ c ∈ cs, p c = true) (hr : ∀ c ∈ r.head?, p c = false) :
      (cs ++ r).takeWhile p = cs := by
    rw [List.takeWhile_append_of_pos hcs]
    cases r with
    | nil => simp
    | cons c r => simp [hr c rfl]
  have heq : cs = ds := (hrun hcs hr).symm.trans ((congrArg _ h).trans (hrun hds hr'))
  subst heq
  exact ⟨rfl, List.append_cancel_left h⟩

theorem digitChars_inj {m n : Nat} (h : digitChars m = digitChars n) : m = n := by
  have hvalue := congrArg (Nat.ofDigitChars 10 · 0) h
  simpa [digitChars] using hvalue

/-- Where no minus stands in front, the sign is told from the digits. -/
theorem signed_inj {negative negative' : Bool} (hcs : ∀ c ∈ cs.head?, c ≠ '-')
    (hds : ∀ c ∈ ds.head?, c ≠ '-') (h : signed negative cs = signed negative' ds) :
    negative = negative' ∧ cs = ds := by
  have hlist := String.ofList_inj.mp h
  cases negative <;> cases negative'
  · exact ⟨rfl, hlist⟩
  · exact absurd rfl (hcs '-' (by rw [show cs = '-' :: ds from hlist]; rfl))
  · exact absurd rfl (hds '-' (by rw [show ds = '-' :: cs from hlist.symm]; rfl))
  · exact ⟨rfl, (List.cons.inj hlist).2⟩

/-! ### Numerals -/

/-- Digits, digits behind a point, and the power of ten behind an `e`. -/
structure Numeral where
  whole : List Char
  fraction : List Char
  power? : Option Int

namespace Numeral

/-- The parts are digits, and there are some before the point. -/
structure Proper (n : Numeral) : Prop where
  whole_ne_nil : n.whole ≠ []
  whole_digits : ∀ c ∈ n.whole, c.isDigit = true
  fraction_digits : ∀ c ∈ n.fraction, c.isDigit = true

/-- The point with the digits behind it, if there are any. -/
def pointText : List Char → List Char
  | [] => []
  | fraction => '.' :: fraction

/-- The power of ten with its sign, if there is one. -/
def powerText : Option Int → List Char
  | none => []
  | some power => 'e' :: (if power < 0 then '-' else '+') :: digitChars power.natAbs

/-- The text of a numeral. -/
def text (n : Numeral) : List Char := n.whole ++ (pointText n.fraction ++ powerText n.power?)

/-- The number that a numeral stands for. -/
def value (n : Numeral) : ℚ :=
  Nat.ofDigitChars 10 (n.whole ++ n.fraction) 0 * 10 ^ (n.power?.getD 0 - n.fraction.length)

theorem powerText_inj {p q : Option Int} (h : powerText p = powerText q) : p = q := by
  cases p with
  | none =>
    cases q with
    | none => rfl
    | some => cases h
  | some p =>
    cases q with
    | none => cases h
    | some q =>
      simp only [powerText, List.cons.injEq, true_and] at h
      obtain ⟨hsign, hdigits⟩ := h
      have habs := digitChars_inj hdigits
      have hpq : p = q := by
        by_cases hp : p < 0 <;> by_cases hq : q < 0 <;> simp [hp, hq] at hsign <;> omega
      rw [hpq]

theorem head_powerText (p : Option Int) : ∀ c ∈ (powerText p).head?, c.isDigit = false := by
  cases p with
  | none => exact fun c hc => by cases hc
  | some p =>
    intro c hc
    cases hc
    decide

theorem head_rest (n : Numeral) :
    ∀ c ∈ (pointText n.fraction ++ powerText n.power?).head?, c.isDigit = false := by
  cases n.fraction with
  | nil => exact head_powerText n.power?
  | cons d ds =>
    intro c hc
    cases hc
    decide

/-- A text is that of one numeral. -/
theorem text_inj {m n : Numeral} (hm : m.Proper) (hn : n.Proper) (h : m.text = n.text) :
    m = n := by
  obtain ⟨whole, fraction, power?⟩ := m
  obtain ⟨whole', fraction', power?'⟩ := n
  obtain ⟨rfl, hrest⟩ := append_inj_of_run hm.whole_digits hn.whole_digits (head_rest _)
    (head_rest _) h
  obtain ⟨rfl, rfl⟩ : fraction = fraction' ∧ power? = power?' := by
    cases fraction with
    | nil =>
      cases fraction' with
      | nil => exact ⟨rfl, powerText_inj hrest⟩
      | cons d ds => cases power? <;> cases hrest
    | cons d ds =>
      cases fraction' with
      | nil => cases power?' <;> cases hrest
      | cons d' ds' =>
        obtain ⟨hfraction, hpower⟩ := append_inj_of_run hm.fraction_digits hn.fraction_digits
          (head_powerText _) (head_powerText _) (List.cons.inj hrest).2
        exact ⟨hfraction, powerText_inj hpower⟩
  rfl

end Numeral

/-! ### The numeral of a decimal -/

/-- The text of the numeral is put together from the digits of a decimal, and their value is
    kept. -/
structure Numeral.Writes (n : Numeral) (d : Decimal) (cs : List Char) : Prop where
  proper : n.Proper
  text_eq : n.text = cs
  value_eq : n.value = d.value
  isDecimal : n.fraction ≠ [] ∨ n.power? ≠ none

variable (d : Decimal)

theorem digitChars_ne_nil (n : Nat) : digitChars n ≠ [] := Nat.toDigits_ne_nil

theorem isDigit_of_mem_append {c : Char} (hcs : ∀ c ∈ cs, c.isDigit = true)
    (hds : ∀ c ∈ ds, c.isDigit = true) (hc : c ∈ cs ++ ds) : c.isDigit = true :=
  (List.mem_append.mp hc).elim (hcs c) (hds c)

theorem isDigit_of_mem_zeros {n : Nat} {c : Char} (hc : c ∈ List.replicate n '0') :
    c.isDigit = true := by
  rw [List.eq_of_mem_replicate hc]
  rfl

/-- A whole number is written with its zeros, and one zero behind the point. -/
theorem writes_whole (h : 0 ≤ d.exponent) :
    ∃ n : Numeral, n.Writes d (positional d ++ ['.', '0']) := by
  obtain ⟨e, he⟩ := Int.eq_ofNat_of_zero_le h
  refine ⟨⟨digitChars d.coefficient ++ List.replicate e '0', ['0'], none⟩, ⟨?_, ?_, ?_⟩, ?_, ?_, ?_⟩
  · simp [digitChars_ne_nil]
  · exact fun c => isDigit_of_mem_append (fun c => isDigit_of_mem_digitChars)
      fun c => isDigit_of_mem_zeros
  · exact fun c => isDigit_of_mem_zeros (n := 1)
  · simp [positional, he, Numeral.text, Numeral.pointText, Numeral.powerText]
  · have hdigits : Nat.ofDigitChars 10
        ((digitChars d.coefficient ++ List.replicate e '0') ++ ['0']) 0 =
          d.coefficient * 10 ^ (e + 1) := by
      rw [List.append_assoc, ← List.replicate_succ', Nat.ofDigitChars_append, digitChars,
        Nat.ofDigitChars_ten_toDigits, Nat.ofDigitChars_replicate_zero, Nat.mul_comm]
    rw [Numeral.value, hdigits, Decimal.value, he]
    simp only [Option.getD_none, List.length_singleton]
    push_cast
    rw [mul_assoc, ← zpow_natCast, ← zpow_add₀ (by norm_num)]
    congr 2
    push_cast
    ring
  · exact .inl (by simp)

/-- A number with a fraction is written with its point, or behind as many zeros as it needs. -/
theorem writes_fraction (h : d.exponent < 0) : ∃ n : Numeral, n.Writes d (positional d) := by
  obtain ⟨places, hplaces⟩ : ∃ places : Nat, d.exponent = -places := ⟨(-d.exponent).toNat, by omega⟩
  have hpos : 0 < places := by omega
  have hnat : (-d.exponent).toNat = places := by omega
  have hvalue {whole fraction : List Char} (hlen : fraction.length = places)
      (hdigits : Nat.ofDigitChars 10 (whole ++ fraction) 0 = d.coefficient) :
      (⟨whole, fraction, none⟩ : Numeral).value = d.value := by
    rw [Numeral.value, hdigits, Decimal.value, hplaces, hlen]
    simp
  have hcoefficient : Nat.ofDigitChars 10 (digitChars d.coefficient) 0 = d.coefficient :=
    Nat.ofDigitChars_ten_toDigits
  have hmem {c : Char} (hc : c ∈ digitChars d.coefficient) := isDigit_of_mem_digitChars hc
  -- The point stands among the digits if there are enough of them; otherwise zeros fill the places.
  by_cases hlt : places < (digitChars d.coefficient).length
  · obtain ⟨k, hk⟩ : ∃ k, k = (digitChars d.coefficient).length - places := ⟨_, rfl⟩
    have hlen : ((digitChars d.coefficient).drop k).length = places := by
      rw [List.length_drop]
      omega
    refine ⟨⟨(digitChars d.coefficient).take k, (digitChars d.coefficient).drop k, none⟩,
      ⟨?_, fun c hc => hmem (List.mem_of_mem_take hc), fun c hc => hmem (List.mem_of_mem_drop hc)⟩,
      ?_, hvalue hlen (by rw [List.take_append_drop, hcoefficient]), .inl ?_⟩
    · exact List.ne_nil_of_length_pos (by rw [List.length_take]; omega)
    · have hne : (digitChars d.coefficient).drop k ≠ [] := List.ne_nil_of_length_pos (by omega)
      rw [positional, if_neg (by omega), hnat]
      dsimp only
      rw [if_pos hlt, ← hk, Numeral.text]
      cases hdrop : (digitChars d.coefficient).drop k with
      | nil => exact absurd hdrop hne
      | cons => simp [Numeral.pointText, Numeral.powerText]
    · exact List.ne_nil_of_length_pos (hlen ▸ hpos)
  · obtain ⟨zeros, hzeros⟩ : ∃ zeros, zeros = places - (digitChars d.coefficient).length := ⟨_, rfl⟩
    have hlen : (List.replicate zeros '0' ++ digitChars d.coefficient).length = places := by
      rw [List.length_append, List.length_replicate]
      omega
    refine ⟨⟨['0'], List.replicate zeros '0' ++ digitChars d.coefficient, none⟩,
      ⟨by simp, fun c => isDigit_of_mem_zeros (n := 1),
        fun c => isDigit_of_mem_append (fun c => isDigit_of_mem_zeros) fun c => hmem⟩,
      ?_, hvalue hlen ?_, .inl ?_⟩
    · rw [positional, if_neg (by omega), hnat]
      dsimp only
      rw [if_neg hlt, ← hzeros, Numeral.text]
      cases hfraction : List.replicate zeros '0' ++ digitChars d.coefficient with
      | nil => simp [digitChars_ne_nil] at hfraction
      | cons => simp [Numeral.pointText, Numeral.powerText]
    · have hcons : ['0'] ++ List.replicate zeros '0' = List.replicate (zeros + 1) '0' := rfl
      rw [← List.append_assoc, hcons, Nat.ofDigitChars_append, Nat.ofDigitChars_replicate_zero,
        Nat.mul_zero, hcoefficient]
    · exact List.ne_nil_of_length_pos (hlen ▸ hpos)

/-- In scientific form one digit stands before the point. -/
theorem writes_scientific : ∃ n : Numeral, n.Writes d (scientific d) := by
  have hcoefficient : Nat.ofDigitChars 10 (digitChars d.coefficient) 0 = d.coefficient :=
    Nat.ofDigitChars_ten_toDigits
  have hmem : ∀ c ∈ digitChars d.coefficient, c.isDigit = true := fun c => isDigit_of_mem_digitChars
  cases hdigits : digitChars d.coefficient with
  | nil => exact absurd hdigits (digitChars_ne_nil _)
  | cons first rest =>
    rw [hdigits] at hcoefficient hmem
    refine ⟨⟨[first], rest, some (d.exponent + (first :: rest).length - 1)⟩,
      ⟨by simp, ?_, fun c hc => hmem c (List.mem_cons_of_mem _ hc)⟩, ?_, ?_, .inr (by simp)⟩
    · intro c hc
      exact hmem c (by simpa using Or.inl (List.mem_singleton.mp hc))
    · cases rest <;> simp [scientific, hdigits, Numeral.text, Numeral.pointText, Numeral.powerText]
    · rw [Numeral.value, List.singleton_append, hcoefficient, Decimal.value]
      congr 2
      simp only [Option.getD_some, List.length_cons]
      push_cast
      ring

/-! ### Texts of finite numbers -/

variable {x y : Float} {b : Binary}

/-- A finite number is written as a numeral that lies in its interval. -/
theorem exists_numeral (hx : binary? x = some b) : ∃ n : Numeral, n.Proper ∧
    (n.fraction ≠ [] ∨ n.power? ≠ none) ∧ jsonText x = signed b.negative n.text ∧
    (Interval.ofBinary b).Holds n.value := by
  have hb := canonical_of_binary? hx
  rw [jsonText, hx]
  dsimp only
  by_cases hm : b.significand = 0
  · rw [if_pos hm]
    refine ⟨⟨['0'], ['0'], none⟩, ⟨by simp, ?_, ?_⟩, .inl (by simp), rfl, ?_⟩
    · exact fun c => isDigit_of_mem_zeros (n := 1)
    · exact fun c => isDigit_of_mem_zeros (n := 1)
    · have hvalue : (⟨['0'], ['0'], none⟩ : Numeral).value = 0 := by
        simp [Numeral.value, Nat.ofDigitChars]
      have hlow : (Interval.ofBinary b).low = 0 := by
        rw [low_ofBinary, hm, Nat.mul_zero, Nat.zero_sub]
      rw [hvalue]
      refine ⟨by simp [hlow], by positivity, fun hopen => ?_⟩
      simp [Interval.ofBinary, hm] at hopen
  · rw [if_neg hm]
    have hholds := holds_shortest .even hb (Nat.pos_of_ne_zero hm)
    generalize shortest .even b = d at hholds ⊢
    have hwrites {cs : List Char} (h : ∃ n : Numeral, n.Writes d cs) : ∃ n : Numeral, n.Proper ∧
        (n.fraction ≠ [] ∨ n.power? ≠ none) ∧ signed b.negative cs = signed b.negative n.text ∧
        (Interval.ofBinary b).Holds n.value := by
      obtain ⟨n, hn⟩ := h
      exact ⟨n, hn.proper, hn.isDecimal, by rw [hn.text_eq], hn.value_eq ▸ hholds⟩
    split
    · split
      · exact hwrites (writes_whole d ‹_›)
      · exact hwrites (writes_fraction d (by omega))
    · exact hwrites (writes_scientific d)

/-- The infinities and not-a-number have all bits of the exponent set. -/
theorem binary?_eq_none_iff : binary? x = none ↔ x.toBits.toNat % 2 ^ 63 / 2 ^ 52 = 2047 := by
  rw [← signBit_eq, ← unitBits_eq]
  unfold binary?
  dsimp only
  split
  · exact ⟨fun _ => ‹_›, fun _ => rfl⟩
  · rename_i hne
    refine ⟨fun h => ?_, fun h => absurd h hne⟩
    split at h <;> cases h

theorem isFinite_eq_false_iff :
    x.isFinite = false ↔ x.toBits.toNat % 2 ^ 63 / 2 ^ 52 = 2047 := by
  obtain ⟨bits, hbits⟩ : ∃ bits : BitVec Float.Model.Format.binary64.numBits,
    bits = x.toModel.toBits.toBitVec := ⟨_, rfl⟩
  have hexponent : Float.Model.UnpackedFloat.unpackExponent bits =
      -1#(Float.Model.Format.binary64.exponentBits) ↔
        x.toBits.toNat % 2 ^ 63 / 2 ^ 52 = 2047 := by
    have hnat : bits.toNat = x.toBits.toNat := congrArg BitVec.toNat hbits
    rw [← BitVec.toNat_inj]
    simp only [Float.Model.UnpackedFloat.unpackExponent, BitVec.toNat_cast,
      BitVec.extractLsb_toNat, Nat.shiftRight_eq_div_pow, hnat]
    show x.toBits.toNat / 2 ^ 52 % 2 ^ 11 = 2047 ↔ _
    omega
  rw [← hexponent]
  show x.toModel.unpack.isFinite = false ↔ _
  rw [Float.Model.unpack, ← hbits, Float.Model.UnpackedFloat.unpack]
  split
  · refine ⟨fun _ => ‹_›, fun _ => ?_⟩
    split <;> rfl
  · rename_i hne
    refine ⟨fun h => ?_, fun h => absurd h hne⟩
    split at h
    · split at h <;> cases h
    · cases h

/-- A finite number has an exact value. -/
theorem exists_binary? (hx : x.isFinite = true) : ∃ b, binary? x = some b := by
  cases hb : binary? x with
  | some b => exact ⟨b, rfl⟩
  | none =>
    rw [isFinite_eq_false_iff.mpr (binary?_eq_none_iff.mp hb)] at hx
    cases hx

/-- What is not finite is written as if it were absent. -/
theorem jsonText_of_not_finite (hx : x.isFinite = false) : jsonText x = "null" := by
  rw [jsonText, binary?_eq_none_iff.mpr (isFinite_eq_false_iff.mp hx)]

namespace Numeral

variable {n : Numeral}

/-- Every text of a numeral begins with a digit. -/
theorem head_text (hn : n.Proper) : ∀ c ∈ n.text.head?, c.isDigit = true := by
  intro c hc
  cases hwhole : n.whole with
  | nil => exact absurd hwhole hn.whole_ne_nil
  | cons d ds =>
    rw [text, hwhole] at hc
    obtain rfl : d = c := Option.some.inj hc
    exact hn.whole_digits d (hwhole ▸ List.mem_cons_self)

/-- The characters of a numeral. -/
theorem mem_text (hn : n.Proper) {c : Char} (hc : c ∈ n.text) :
    c.isDigit = true ∨ c ∈ ['.', 'e', '+', '-'] := by
  rw [text, List.mem_append, List.mem_append] at hc
  rcases hc with hc | hc | hc
  · exact .inl (hn.whole_digits c hc)
  · cases hfraction : n.fraction with
    | nil =>
      rw [hfraction] at hc
      cases hc
    | cons d ds =>
      rw [hfraction, pointText] at hc
      rcases List.mem_cons.mp hc with rfl | hc
      · exact .inr (by decide)
      · exact .inl (hn.fraction_digits c (hfraction ▸ hc))
      · simp
  · cases hpower : n.power? with
    | none =>
      rw [hpower] at hc
      cases hc
    | some power =>
      rw [hpower, powerText, List.mem_cons, List.mem_cons] at hc
      rcases hc with rfl | rfl | hc
      · exact .inr (by decide)
      · split <;> exact .inr (by decide)
      · exact .inl (isDigit_of_mem_digitChars hc)

/-- A numeral that is not a mere row of digits shows it. -/
theorem mark_mem_text (h : n.fraction ≠ [] ∨ n.power? ≠ none) : '.' ∈ n.text ∨ 'e' ∈ n.text := by
  rw [text, List.mem_append, List.mem_append, List.mem_append, List.mem_append]
  rcases h with h | h
  · cases hfraction : n.fraction with
    | nil => exact absurd hfraction h
    | cons d ds => exact .inl (.inr (.inl List.mem_cons_self))
  · cases hpower : n.power? with
    | none => exact absurd hpower h
    | some power => exact .inr (.inr (.inr List.mem_cons_self))

end Numeral

theorem ne_minus_of_isDigit {c : Char} (h : c.isDigit = true) : c ≠ '-' := by
  rintro rfl
  exact absurd h (by decide)

/-- Finite numbers that are written alike are equal. -/
theorem jsonText_inj (hx : x.isFinite = true) (hy : y.isFinite = true)
    (h : jsonText x = jsonText y) : x = y := by
  obtain ⟨b, hb⟩ := exists_binary? hx
  obtain ⟨b', hb'⟩ := exists_binary? hy
  obtain ⟨n, hn, -, htext, hholds⟩ := exists_numeral hb
  obtain ⟨n', hn', -, htext', hholds'⟩ := exists_numeral hb'
  obtain ⟨hnegative, htexts⟩ := signed_inj
    (fun c hc => ne_minus_of_isDigit (Numeral.head_text hn c hc))
    (fun c hc => ne_minus_of_isDigit (Numeral.head_text hn' c hc))
    ((htext.symm.trans h).trans htext')
  obtain rfl := Numeral.text_inj hn hn' htexts
  obtain ⟨hsignificand, hexponent⟩ :=
    eq_of_holds (canonical_of_binary? hb) (canonical_of_binary? hb') hholds hholds'
  have heq : b = b' := by
    cases b
    cases b'
    simp_all
  exact binary?_inj hb (heq ▸ hb')

end ReactiveDoc.Number
