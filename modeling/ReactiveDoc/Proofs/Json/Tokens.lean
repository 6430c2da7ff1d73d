import ReactiveDoc.Json.Parser
import ReactiveDoc.Json.Printer

namespace ReactiveDoc.Json

/-!
# Tokens read back

* `number?_append` — a number is the same in front of every text that does not continue it.
* `number?_integer` — the digits of an integer of 64 bits are read as that integer.
* `pieces?_quoteChars` — a string literal is read as its string.
-/

/-! ### Numbers before other text -/

/-- The text does not begin with a character that continues a number. -/
def EndsNumber (rest : List Char) : Prop :=
  ∀ c ∈ rest.head?, c.isDigit = false ∧ c ≠ '.' ∧ c ≠ 'e' ∧ c ≠ 'E'

theorem endsNumber_nil : EndsNumber [] := by simp [EndsNumber]

variable {cs rest r : List Char} {j : Json} {negative : Bool} {significand : Nat} {exponent : Int}

theorem spanDigits_of_endsNumber (hrest : EndsNumber rest) :
    Number.spanDigits rest = ([], rest) := by
  cases rest with
  | nil => rfl
  | cons c rest => simp [Number.spanDigits, (hrest c rfl).1]

theorem spanDigits_append (hrest : EndsNumber rest) (cs : List Char) :
    Number.spanDigits (cs ++ rest) =
      ((Number.spanDigits cs).1, (Number.spanDigits cs).2 ++ rest) := by
  induction cs with
  | nil => exact spanDigits_of_endsNumber hrest
  | cons c cs ih =>
    simp only [Number.spanDigits, Prod.mk.injEq] at ih
    cases hc : c.isDigit <;> simp [Number.spanDigits, hc, ih]

theorem takeDigits_of_endsNumber (hrest : EndsNumber rest) (bound taken : Nat) :
    takeDigits bound significand taken rest = (significand, taken, rest) := by
  cases rest with
  | nil => rfl
  | cons c rest => simp [takeDigits, (hrest c rfl).1]

theorem takeDigits_append (hrest : EndsNumber rest) (bound significand taken : Nat)
    (cs : List Char) :
    takeDigits bound significand taken (cs ++ rest) =
      ((takeDigits bound significand taken cs).1, (takeDigits bound significand taken cs).2.1,
        (takeDigits bound significand taken cs).2.2 ++ rest) := by
  induction cs generalizing significand taken with
  | nil => exact takeDigits_of_endsNumber hrest bound taken
  | cons c cs ih =>
    simp only [List.cons_append, takeDigits]
    split
    · split
      · rfl
      · exact ih _ _
    · rfl

theorem readSign_append (hcs : cs ≠ []) :
    Number.readSign (cs ++ rest) = ((Number.readSign cs).1, (Number.readSign cs).2 ++ rest) := by
  cases cs with
  | nil => exact absurd rfl hcs
  | cons c cs =>
    simp only [List.cons_append, Number.readSign.eq_def]
    split <;> simp_all

theorem exponentTail?_append (hrest : EndsNumber rest)
    (h : exponentTail? negative significand exponent cs = some (j, r)) :
    exponentTail? negative significand exponent (cs ++ rest) = some (j, r ++ rest) := by
  have hcs : cs ≠ [] := by rintro rfl; simp [exponentTail?, Number.readSign, Number.spanDigits] at h
  simp only [exponentTail?, readSign_append hcs, spanDigits_append hrest] at h ⊢
  split at h
  · cases h
  · next hd =>
    obtain ⟨rfl, rfl⟩ := by simpa using h
    rw [if_neg hd]

theorem finish?_append (hrest : EndsNumber rest)
    (h : finish? negative significand exponent cs = some (j, r)) :
    finish? negative significand exponent (cs ++ rest) = some (j, r ++ rest) := by
  cases cs with
  | nil =>
    obtain ⟨rfl, rfl⟩ := by simpa [finish?] using h
    cases rest with
    | nil => rfl
    | cons c rest =>
      obtain ⟨-, -, he, hE⟩ := hrest c rfl
      simp [finish?, he, hE]
  | cons c cs =>
    rw [finish?.eq_def] at h
    split at h
    next heq => cases heq; exact exponentTail?_append hrest h
    next heq => cases heq; exact exponentTail?_append hrest h
    next he hE =>
      obtain ⟨rfl, rfl⟩ := by simpa using h
      rw [finish?.eq_def]
      split
      next heq => cases heq; exact absurd rfl (he cs)
      next heq => cases heq; exact absurd rfl (hE cs)
      next => rfl

theorem fractionTail?_append (hrest : EndsNumber rest)
    (h : fractionTail? negative significand exponent cs = some (j, r)) :
    fractionTail? negative significand exponent (cs ++ rest) = some (j, r ++ rest) := by
  simp only [fractionTail?, takeDigits_append hrest, spanDigits_append hrest] at h ⊢
  split at h
  · cases h
  · next hd =>
    rw [if_neg hd]
    exact finish?_append hrest h

/-- The number that a whole part alone stands for. -/
def wholeNumber (negative : Bool) (significand ignored : Nat) : Json :=
  if ignored ≠ 0 then decimal negative (scaled significand ignored)
  else if negative then
    if 0 < significand ∧ significand ≤ UInt64.size / 2 then integer (-(significand : Int))
    else float (-(Float.ofNat significand))
  else integer significand

theorem continued_eq {ignored : Nat} (hp : ∀ cs, rest ≠ '.' :: cs) (he : ∀ cs, rest ≠ 'e' :: cs)
    (hE : ∀ cs, rest ≠ 'E' :: cs) :
    unsigned?.continued negative significand ignored rest =
      some (wholeNumber negative significand ignored, rest) := by
  unfold unsigned?.continued wholeNumber
  split
  next cs => exact absurd rfl (hp cs)
  next cs => exact absurd rfl (he cs)
  next cs => exact absurd rfl (hE cs)
  next =>
    split
    · rfl
    · split
      · split <;> rfl
      · rfl

/-- The whole part of a number stands for itself where nothing continues it. -/
theorem continued_of_endsNumber {ignored : Nat} (hrest : EndsNumber rest) :
    unsigned?.continued negative significand ignored rest =
      some (wholeNumber negative significand ignored, rest) := by
  refine continued_eq ?_ ?_ ?_ <;> rintro cs rfl <;> simp [EndsNumber] at hrest

theorem continued_append {ignored : Nat} (hrest : EndsNumber rest)
    (h : unsigned?.continued negative significand ignored cs = some (j, r)) :
    unsigned?.continued negative significand ignored (cs ++ rest) = some (j, r ++ rest) := by
  cases cs with
  | nil =>
    rw [continued_of_endsNumber endsNumber_nil] at h
    rw [List.nil_append, continued_of_endsNumber hrest]
    simpa using h
  | cons c cs =>
    rw [unsigned?.continued.eq_def] at h
    split at h
    next heq => cases heq; exact fractionTail?_append hrest h
    next heq => cases heq; exact exponentTail?_append hrest h
    next heq => cases heq; exact exponentTail?_append hrest h
    next hp he hE =>
      rw [← unsigned?.continued.eq_4 _ _ _ _ hp he hE, continued_eq hp he hE] at h
      rw [continued_eq (by simpa using hp) (by simpa using he) (by simpa using hE)]
      obtain ⟨rfl, rfl⟩ := by simpa using h
      rfl

theorem unsigned?_cons {c : Char} (hz : c ≠ '0') :
    unsigned? negative (c :: cs) =
      if c.isDigit then
        unsigned?.continued negative (takeDigits maxSize 0 0 (c :: cs)).1
          (Number.spanDigits (takeDigits maxSize 0 0 (c :: cs)).2.2).1.length
          (Number.spanDigits (takeDigits maxSize 0 0 (c :: cs)).2.2).2
      else none := by
  simp [unsigned?]

theorem unsigned?_append (hrest : EndsNumber rest) (h : unsigned? negative cs = some (j, r)) :
    unsigned? negative (cs ++ rest) = some (j, r ++ rest) := by
  cases cs with
  | nil => cases h
  | cons c cs =>
    by_cases hz : c = '0'
    · subst hz
      cases cs with
      | nil =>
        simp only [unsigned?] at h
        cases rest with
        | nil => simpa [unsigned?] using continued_append hrest h
        | cons c rest => simpa [unsigned?, (hrest c rfl).1] using continued_append hrest h
      | cons c cs =>
        cases hc : c.isDigit with
        | true => simp [unsigned?, hc] at h
        | false =>
          simp only [unsigned?, hc, Bool.false_eq_true, if_false] at h
          simpa [unsigned?, hc] using continued_append hrest h
    · rw [unsigned?_cons hz] at h
      rw [List.cons_append, unsigned?_cons hz]
      split at h
      next hc =>
        rw [if_pos hc, ← List.cons_append, takeDigits_append hrest, spanDigits_append hrest]
        exact continued_append hrest h
      next => cases h

theorem number?_cons {c : Char} (hm : c ≠ '-') : number? (c :: cs) = unsigned? false (c :: cs) := by
  simp [number?, hm]

/-- What stands for a number in front of nothing does so in front of every text that does not
    continue it. -/
theorem number?_append (hrest : EndsNumber rest) (h : number? cs = some (j, r)) :
    number? (cs ++ rest) = some (j, r ++ rest) := by
  cases cs with
  | nil => cases h
  | cons c cs =>
    by_cases hm : c = '-'
    · subst hm
      exact unsigned?_append hrest h
    · have hcons : ∀ ds, number? (c :: ds) = unsigned? false (c :: ds) := fun ds =>
        number?.eq_2 _ (by simpa using hm)
      rw [hcons] at h
      rw [List.cons_append, hcons]
      exact unsigned?_append hrest h

/-! ### Integers -/

theorem le_ofDigitChars (ds : List Char) (n : Nat) : n ≤ Nat.ofDigitChars 10 ds n := by
  induction ds generalizing n with
  | nil => exact Nat.le_refl n
  | cons d ds ih =>
    have hstep : n ≤ 10 * n + (d.toNat - '0'.toNat) := by omega
    exact Nat.le_trans hstep (ih _)

/-- Digits that fit are taken to the last. -/
theorem takeDigits_digits {bound taken : Nat} {ds : List Char} (hd : ∀ d ∈ ds, d.isDigit = true)
    (hb : Nat.ofDigitChars 10 ds significand ≤ bound) :
    takeDigits bound significand taken ds =
      (Nat.ofDigitChars 10 ds significand, taken + ds.length, []) := by
  induction ds generalizing significand taken with
  | nil => rfl
  | cons d ds ih =>
    have hle : significand * 10 + (d.toNat - '0'.toNat) ≤ bound := by
      rw [Nat.mul_comm]
      exact Nat.le_trans (le_ofDigitChars ds _) hb
    have hcons : Nat.ofDigitChars 10 (d :: ds) significand =
        Nat.ofDigitChars 10 ds (significand * 10 + (d.toNat - '0'.toNat)) := by
      rw [Nat.mul_comm]
      rfl
    rw [takeDigits, if_pos (hd d List.mem_cons_self)]
    simp only [overflows, Nat.not_lt.2 hle, decide_false, Bool.false_eq_true, if_false]
    rw [hcons] at hb ⊢
    rw [ih (fun c hc => hd c (List.mem_cons_of_mem _ hc)) hb, List.length_cons]
    grind

/-- No number but zero is written with a leading zero. -/
theorem head_digitChars {n : Nat} (hn : 0 < n) : ∀ c ∈ (Number.digitChars n).head?, c ≠ '0' := by
  induction n using Nat.strongRecOn with
  | ind n ih =>
    intro c hc
    by_cases hlt : n < 10
    · rw [Number.digitChars, Nat.toDigits_of_lt_base hlt] at hc
      obtain rfl : n.digitChar = c := by simpa using hc
      rw [Ne, Nat.digitChar_eq_zero]
      omega
    · obtain ⟨d, ds, hds⟩ :=
        List.exists_cons_of_ne_nil (Nat.toDigits_ne_nil : Nat.toDigits 10 (n / 10) ≠ [])
      rw [Number.digitChars, Nat.toDigits_of_base_le (by omega) (by omega), hds] at hc
      refine ih (n / 10) (by omega) (by omega) c ?_
      rwa [Number.digitChars, hds]

theorem isDigit_of_mem_digitChars {n : Nat} {c : Char} (hc : c ∈ Number.digitChars n) :
    c.isDigit = true := Nat.isDigit_of_mem_toDigits (by omega) (by omega) hc

theorem unsigned?_digitChars {n : Nat} (hn : n ≤ maxSize) :
    unsigned? negative (Number.digitChars n) = some (wholeNumber negative n 0, []) := by
  by_cases h0 : n = 0
  · rw [h0, Number.digitChars, Nat.toDigits_zero]
    simp only [unsigned?]
    exact continued_of_endsNumber endsNumber_nil
  · have hhead := head_digitChars (Nat.pos_of_ne_zero h0)
    have htake : takeDigits maxSize 0 0 (Number.digitChars n) =
        (n, (Number.digitChars n).length, []) := by
      have hval : Nat.ofDigitChars 10 (Number.digitChars n) 0 = n := Nat.ofDigitChars_ten_toDigits
      rw [takeDigits_digits (fun _ => isDigit_of_mem_digitChars) (hval.symm ▸ hn), hval,
        Nat.zero_add]
    cases hds : Number.digitChars n with
    | nil => exact absurd hds Nat.toDigits_ne_nil
    | cons c ds =>
      rw [hds] at htake hhead
      have hc : c.isDigit = true := isDigit_of_mem_digitChars (hds ▸ List.mem_cons_self)
      have hz : c ≠ '0' := hhead c rfl
      rw [unsigned?_cons hz, if_pos hc, htake]
      exact continued_of_endsNumber endsNumber_nil

/-- An integer of 64 bits, signed or unsigned. -/
def Fits (n : Int) : Prop := -(UInt64.size / 2 : Nat) ≤ n ∧ n ≤ maxSize

/-- The written form of an integer of 64 bits is read as that integer. -/
theorem number?_integer {n : Int} (hn : Fits n) :
    number? (leafText (.integer n)).toList = some (.integer n, []) := by
  obtain ⟨hlo, hhi⟩ := hn
  have hsize : (UInt64.size / 2 : Nat) ≤ maxSize := by decide
  have habs : n.natAbs ≤ maxSize := by omega
  simp only [leafText, leafText.signedInteger, Number.signed, String.toList_ofList]
  split
  next h =>
    have hneg : n < 0 := by simpa using h
    rw [number?, unsigned?_digitChars habs, wholeNumber, if_neg (by simp), if_pos rfl, if_pos (by omega)]
    congr 3
    omega
  next h =>
    have hpos : 0 ≤ n := by simpa using h
    cases hds : Number.digitChars n.natAbs with
    | nil => exact absurd hds Nat.toDigits_ne_nil
    | cons c ds =>
      have hm : c ≠ '-' := by
        rintro rfl
        have := isDigit_of_mem_digitChars (hds ▸ List.mem_cons_self)
        contradiction
      rw [number?_cons hm, ← hds, unsigned?_digitChars habs]
      simp [wholeNumber, Int.natAbs_of_nonneg hpos]

/-! ### Strings -/

theorem hexUnit?_control {n : Nat} (hn : n < 32) :
    hexUnit? '0' '0' (hexDigit (n / 16)) (hexDigit (n % 16)) = some n := by
  have : ∀ n < 32, hexUnit? '0' '0' (hexDigit (n / 16)) (hexDigit (n % 16)) = some n := by decide
  exact this n hn

/-- A backslash and a letter stand for the character of that escape. -/
theorem pieces?_short {c d : Char} (hd : d ≠ 'u') (hc : shortEscape? d = some c)
    (rest : List Char) :
    pieces? ('\\' :: d :: rest) = (pieces? rest).map fun p => (.whole c :: p.1, p.2) := by
  simp [pieces?, hd, hc]

theorem eq_ofNat {c : Char} {n : Nat} (h : c.toNat = n) : c = Char.ofNat n := by
  rw [← h, Char.ofNat_toNat]

/-- The written form of a character stands for that character. -/
theorem pieces?_escapeChar (c : Char) (rest : List Char) :
    pieces? (escapeChar c ++ rest) = (pieces? rest).map fun p => (.whole c :: p.1, p.2) := by
  unfold escapeChar
  split
  next h => exact pieces?_short (by decide) (by subst h; rfl) rest
  split
  next h => exact pieces?_short (by decide) (by subst h; rfl) rest
  split
  next h => exact pieces?_short (by decide) (by rw [eq_ofNat h]; rfl) rest
  split
  next h => exact pieces?_short (by decide) (by rw [eq_ofNat h]; rfl) rest
  split
  next h => exact pieces?_short (by decide) (by subst h; rfl) rest
  split
  next h => exact pieces?_short (by decide) (by subst h; rfl) rest
  split
  next h => exact pieces?_short (by decide) (by subst h; rfl) rest
  split
  next h =>
    have hunit : Piece.ofUnit c.toNat = .whole c := by
      rw [Piece.ofUnit, if_neg (by omega), Char.ofNat_toNat]
    simp [pieces?, hexUnit?_control h, hunit]
  next hb _ _ _ _ _ hctl => simp [pieces?, hb, hctl]

theorem pieces?_quoteChars (cs rest : List Char) :
    pieces? (cs.flatMap escapeChar ++ '"' :: rest) = some (cs.map Piece.whole, rest) := by
  induction cs with
  | nil => rfl
  | cons c cs ih => simp [pieces?_escapeChar, ih]

theorem join?_whole (cs : List Char) : join? (cs.map Piece.whole) = some cs := by
  induction cs with
  | nil => rfl
  | cons c cs ih => simp [join?, ih]

theorem joined?_whole (s : String) : joined? (s.toList.map Piece.whole) = some s := by
  simp [joined?, join?_whole]

theorem ofPieces_whole (s : String) : ofPieces (s.toList.map Piece.whole) = .string s := by
  simp [ofPieces, joined?_whole]

end ReactiveDoc.Json
