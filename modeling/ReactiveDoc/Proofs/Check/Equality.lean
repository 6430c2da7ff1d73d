import ReactiveDoc.Proofs.Check.Operands

namespace ReactiveDoc.Check

/-!
# Equality that the types alone tell

* `Primitive` — types of primitive values.
* `Mistaken` — the values that the types are wrong about: two that are not-a-number, and for the
  loose operators two of different kinds that become equal once they are converted.
* `binaryType_equality_iff` — a folded equality is what the operator gives, unless the operands
  are mistaken.
-/

/-- A type of `undefined`, `null`, booleans, numbers and texts. -/
inductive Primitive : Ty → Prop
  | undefined : Primitive .undefined
  | null : Primitive .null
  | boolean : Primitive .boolean
  | number : Primitive .number
  | string : Primitive .string
  | literal (l : Literal) : Primitive (Ty.literal l)
  | union {arms} (h : ∀ t ∈ arms, Primitive t) : Primitive (.union arms)

theorem Primitive.of_union {arms : List Ty} : Primitive (.union arms) → ∀ t ∈ arms, Primitive t
  | union h => h

/-- The equality that an operator tests for. -/
def equal (loose : Bool) (v w : Value) : Bool :=
  if loose then v.looseEquals w else v.strictEquals w

/-- The types take the values for equal where they are not, or the other way round. -/
def Mistaken (loose : Bool) (v w : Value) : Prop :=
  (∃ x y, v = .number x ∧ w = .number y ∧ x.isNaN = true ∧ y.isNaN = true) ∨
    loose = true ∧ v ≠ .undefined ∧ v ≠ .null ∧ v.kind ≠ w.kind ∧ v.looseEquals w = true

variable {loose : Bool} {v w : Value} {l r : Ty}

theorem binary_eq_equal {op : BinaryOp} (hop : op.isEquality = true) :
    Value.binary op v w = .boolean (equal op.isLoose v w != op.isNegated) := by
  cases op <;> simp_all [BinaryOp.isEquality, Value.binary, equal, BinaryOp.isLoose, BinaryOp.isNegated]

/-! ### Single types -/

theorem kind_of_contains (hl : Primitive l) (hs : Single l) (hv : l.Contains Literal.Alike v) :
    l.kind? = some v.kind ∧ v.kind ≠ .object := by
  cases hl with
  | union => exact (hs _ rfl).elim
  | undefined | null =>
    cases hv
    exact ⟨rfl, nofun⟩
  | boolean | number | string =>
    obtain ⟨_, rfl⟩ := hv
    exact ⟨rfl, nofun⟩
  | literal m =>
    obtain ⟨n, hn, rfl⟩ := hv
    have hbase := Ty.baseOf_eq_of_same hn
    cases n <;> cases m <;> first | exact ⟨rfl, nofun⟩ | cases hbase

/-- What the contents of two literals tell of the numbers that are compared. -/
theorem beq_eq_same {x y x' y' : Float} (hx : Number.same x x' = true)
    (hy : Number.same y y' = true) (hn : ¬ (x.isNaN = true ∧ y.isNaN = true)) :
    (x == y) = Number.same x' y' := by
  have hxy : Number.same x y = true ↔ Number.same x' y' = true := by
    simp only [Number.same_iff] at hx hy ⊢
    rw [hx, hy]
  rw [Bool.eq_iff_iff, Number.beq_iff_same, ← hxy]
  refine ⟨And.left, fun h => ⟨h, Bool.eq_false_iff.2 fun hx => ?_⟩⟩
  exact hn ⟨hx, Number.isNaN_of_same h hx⟩

theorem isNullish_iff (hl : Primitive l) (hs : Single l) (hv : l.Contains Literal.Alike v) :
    isNullish l = true ↔ v = .undefined ∨ v = .null := by
  obtain ⟨hk, -⟩ := kind_of_contains hl hs hv
  cases hl with
  | union => exact (hs _ rfl).elim
  | literal m => cases m <;> cases v <;> simp_all [isNullish, Ty.literal, Ty.kind?, Ty.baseOf, Value.kind]
  | _ => cases v <;> simp_all [isNullish, Ty.kind?, Value.kind]

/-- Values of different kinds are unequal, save for what the loose operators convert. -/
theorem equal_of_kind_ne (h : v.kind ≠ w.kind) (hv : v.kind ≠ .object) (hw : w.kind ≠ .object)
    (hn : loose = true → ¬ ((v = .undefined ∨ v = .null) ∧ (w = .undefined ∨ w = .null))) :
    equal loose v w = false ↔ ¬ Mistaken loose v w := by
  rw [← Bool.not_eq_true, not_iff_not]
  cases v <;> cases w <;> cases loose <;>
    simp_all [equal, Mistaken, Value.kind, Value.strictEquals, Value.same, Value.looseEquals]

theorem toNumber_boolean_beq (a b : Bool) :
    ((Value.boolean a).toNumber == (Value.boolean b).toNumber) = (a == b) := by
  cases a <;> cases b <;> decide +kernel

/-- Values of singletons of one kind are compared by their contents. -/
theorem equal_ofLiteral {l m l' m' : Literal} (hl : l.Alike l') (hm : m.Alike m')
    (hk : (Value.ofLiteral l).kind = (Value.ofLiteral m).kind) :
    equal loose (.ofLiteral l) (.ofLiteral m) = l'.same m' ↔
      ¬ Mistaken loose (.ofLiteral l) (.ofLiteral m) := by
  cases l <;> cases m <;> simp only [Value.ofLiteral, Value.kind, reduceCtorEq] at hk
  case boolean a b =>
    cases l' <;> simp [Literal.Alike, Literal.same] at hl
    cases m' <;> simp [Literal.Alike, Literal.same] at hm
    subst hl hm
    have := toNumber_boolean_beq a b
    cases loose <;>
      simp_all [Mistaken, Value.ofLiteral, Value.kind, equal, Value.looseEquals,
        Value.strictEquals, Value.same, Literal.same]
  case number x y =>
    cases l' <;> simp [Literal.Alike, Literal.same] at hl
    cases m' <;> simp [Literal.Alike, Literal.same] at hm
    have hxy : equal loose (.number x) (.number y) = (x == y) := by cases loose <;> rfl
    have hmis : Mistaken loose (.number x) (.number y) ↔ x.isNaN = true ∧ y.isNaN = true := by
      simp [Mistaken, Value.kind]
    simp only [Value.ofLiteral, Literal.same]
    rw [hxy, hmis]
    by_cases hn : x.isNaN = true ∧ y.isNaN = true
    · obtain rfl := Number.eq_of_isNaN hn.1 hn.2
      have hsame := Number.same_trans ((Number.same_comm _ _).trans hl) hm
      simp [hsame]
    · exact iff_of_true (beq_eq_same hl hm hn) hn
  case string s t =>
    cases l' <;> simp [Literal.Alike, Literal.same] at hl
    cases m' <;> simp [Literal.Alike, Literal.same] at hm
    subst hl hm
    cases loose <;>
      simp [Mistaken, Value.ofLiteral, Value.kind, equal, Value.looseEquals, Value.strictEquals,
        Value.same, Literal.same]

theorem disjoint_single (hl : Primitive l) (hr : Primitive r) (hsl : Single l) (hsr : Single r)
    (h : ∀ a b, l = Ty.literal a → r = Ty.literal b → False) :
    Ty.disjoint l r = Ty.kindsDiffer l r := by
  cases hl with
  | union => exact (hsl _ rfl).elim
  | literal a =>
    cases hr with
    | union => exact (hsr _ rfl).elim
    | literal b => exact (h a b rfl rfl).elim
    | _ => simp [Ty.disjoint, Ty.literal]
  | _ =>
    cases hr with
    | union => exact (hsr _ rfl).elim
    | _ => simp [Ty.disjoint, Ty.literal]

/-- What the types of single operands tell is right unless the operands are mistaken. -/
theorem staticEquality?_iff {e : Bool} (hl : Primitive l) (hr : Primitive r) (hsl : Single l)
    (hsr : Single r) (hv : l.Contains Literal.Alike v) (hw : r.Contains Literal.Alike w)
    (h : staticEquality? loose l r = some e) : equal loose v w = e ↔ ¬ Mistaken loose v w := by
  have hkv := kind_of_contains hl hsl hv
  have hkw := kind_of_contains hr hsr hw
  unfold staticEquality? at h
  split at h
  next base a base' b =>
    cases hl
    cases hr
    cases h
    obtain ⟨l, hl, rfl⟩ := hv
    obtain ⟨m, hm, rfl⟩ := hw
    -- Values of different kinds have different literals, and are not equal either.
    by_cases hk : (Value.ofLiteral l).kind = (Value.ofLiteral m).kind
    · exact equal_ofLiteral hl hm hk
    · have hdiffer : a.same b = false := Bool.eq_false_iff.2 fun hab => hk ?_
      · rw [hdiffer]
        refine equal_of_kind_ne hk hkv.2 hkw.2 fun _ hnull => ?_
        cases l <;> simp [Value.ofLiteral] at hnull
      · have := Ty.baseOf_eq_of_same (Literal.same_trans hl hab)
        have := this.trans (Ty.baseOf_eq_of_same hm).symm
        cases l <;> cases m <;> first | rfl | cases this
  next =>
    cases hv
    cases hw
    cases h
    cases loose <;> simp [equal, Mistaken, Value.strictEquals, Value.same, Value.looseEquals]
  next =>
    cases hv
    cases hw
    cases h
    cases loose <;> simp [equal, Mistaken, Value.strictEquals, Value.same, Value.looseEquals]
  next hlit _ _ =>
    -- Other types tell something where both are nullish or their kinds differ.
    have hnv := isNullish_iff hl hsl hv
    have hnw := isNullish_iff hr hsr hw
    split at h
    next hnull =>
      simp only [Bool.and_eq_true, hnv, hnw] at hnull
      obtain ⟨⟨rfl, hv⟩, hw⟩ := hnull
      cases h
      rcases hv with rfl | rfl <;> rcases hw with rfl | rfl <;> simp [equal, Mistaken, Value.looseEquals]
    next hnull =>
      split at h
      next hd =>
        cases h
        rw [disjoint_single hl hr hsl hsr fun a b => hlit _ a _ b] at hd
        simp only [Ty.kindsDiffer, hkv.1, hkw.1, bne_iff_ne, ne_eq] at hd
        refine equal_of_kind_ne hd hkv.2 hkw.2 fun hloose hvw => hnull ?_
        simp [hloose, hnv.2 hvw.1, hnw.2 hvw.2]
      next => cases h

/-! ### Operands of any primitive type -/

/-- An equality of single operands has the truth value that the types tell, if they tell one. -/
theorem binaryArm?_equality {op : BinaryOp} (hop : op.isEquality = true) (hl : Primitive l)
    (hr : Primitive r) (hsl : Single l) (hsr : Single r) :
    binaryArm? op l r = some (match staticEquality? op.isLoose l r with
      | some e => Ty.ofBool (e != op.isNegated)
      | none => .boolean) := by
  have hgl : isGradual l = false := by cases hl <;> rfl
  have hgr : isGradual r = false := by cases hr <;> rfl
  have hg : (isGradual l || isGradual r) = false := by rw [hgl, hgr]; rfl
  cases op <;> simp [BinaryOp.isEquality] at hop
  all_goals exact if_neg (ne_true_of_eq_false hg)

/-- The type of an equality has the truth value that the types see. -/
theorem contains_equality {op : BinaryOp} (hop : op.isEquality = true) {left right t : Ty}
    (hl : Primitive left) (hr : Primitive right) (hv : left.Contains Literal.Alike v)
    (hw : right.Contains Literal.Alike w) {seen : Bool}
    (hseen : equal op.isLoose v w = seen ↔ ¬ Mistaken op.isLoose v w)
    (h : binaryType op left right = .ok t) :
    t.Contains Literal.Alike (.boolean (seen != op.isNegated)) := by
  refine contains_distribute? Primitive (fun _ => Primitive.of_union)
    (fun l r u _ _ hu => regular_binaryArm? hu)
    (fun l r u hsl hsr hl hr hv hw hu => ?_) hl hr hv hw (distribute?_of_binaryType h)
  rw [binaryArm?_equality hop hl hr hsl hsr] at hu
  cases hu
  split
  next e he =>
    have : e = seen := by
      have hiff := (staticEquality?_iff hl hr hsl hsr hv hw he).trans hseen.symm
      cases hq : equal op.isLoose v w <;> cases e <;> cases seen <;> simp_all
    rw [this]
    exact Ty.contains_literal (Literal.Alike.refl (.boolean _))
  next => exact ⟨_, rfl⟩

/-- The type of an equality has its result, unless the operands are mistaken. -/
theorem contains_binaryType_equality {op : BinaryOp} (hop : op.isEquality = true)
    {left right t : Ty} (hl : Primitive left) (hr : Primitive right)
    (hv : left.Contains Literal.Alike v) (hw : right.Contains Literal.Alike w)
    (hm : ¬ Mistaken op.isLoose v w) (h : binaryType op left right = .ok t) :
    t.Contains Literal.Alike (Value.binary op v w) := by
  rw [binary_eq_equal hop]
  exact contains_equality hop hl hr hv hw (by simp [hm]) h

/-- A folded equality is what the operator gives, unless the operands are mistaken. -/
theorem binaryType_equality_iff {op : BinaryOp} (hop : op.isEquality = true) {left right : Ty}
    (hl : Primitive left) (hr : Primitive right) {v w : Value}
    (hv : left.Contains Literal.Alike v) (hw : right.Contains Literal.Alike w) {b : Bool}
    (h : binaryType op left right = .ok (Ty.ofBool b)) :
    Value.binary op v w = .boolean b ↔ ¬ Mistaken op.isLoose v w := by
  -- what the types see of the operands: the equality, or its opposite where they are mistaken
  obtain ⟨seen, hseen⟩ : ∃ seen, equal op.isLoose v w = seen ↔ ¬ Mistaken op.isLoose v w := by
    by_cases hm : Mistaken op.isLoose v w
    · exact ⟨!equal op.isLoose v w, by simp [hm]⟩
    · exact ⟨equal op.isLoose v w, by simp [hm]⟩
  obtain ⟨l, hl, hlv⟩ := contains_equality hop hl hr hv hw hseen h
  have hb : (seen != op.isNegated) = b := by
    cases l <;> simp_all [Literal.Alike, Literal.same, Value.ofLiteral]
  rw [binary_eq_equal hop, Value.boolean.injEq, ← hb, ← hseen]
  cases op.isNegated <;> simp

/-- A text is neither `undefined` nor `null`, and the types tell so. -/
theorem binaryType_equality_iff_nullish :
    binaryType .eq (.union [.undefined, .null]) .string = .ok (Ty.ofBool false) ∧
      (Value.binary .eq .null (.string "a") = .boolean false ↔
        ¬ Mistaken true .null (.string "a")) := by
  have hleft : Primitive (.union [.undefined, .null]) :=
    .union (by simp [Primitive.undefined, Primitive.null])
  have hcheck : binaryType .eq (.union [.undefined, .null]) .string = .ok (Ty.ofBool false) := by
    simp [binaryType, distribute?, binaryArm?, isGradual, staticEquality?, isNullish,
      BinaryOp.isLoose, BinaryOp.isNegated, Ty.disjoint, Ty.kindsDiffer, Ty.kind?, Ty.unionOf,
      Ty.unionParts, Ty.addArm, Ty.ofArms, Ty.ofBool, Ty.literal, Ty.isEquivalent, Ty.isSubtype, Ty.same, Ty.baseOf, Literal.same]
  exact ⟨hcheck, binaryType_equality_iff rfl hleft .string
    (Ty.contains_union.2 ⟨.null, by simp, rfl⟩) ⟨"a", rfl⟩ hcheck⟩

/-- Not-a-number equals itself for the types and not for the operator, and `true == 1` holds for
    the operator and not for the types. -/
theorem mistaken_operands :
    (binaryType .strictEq (Ty.ofNumber (0 / 0)) (Ty.ofNumber (0 / 0)) = .ok (Ty.ofBool true) ∧
        Value.binary .strictEq (.number (0 / 0)) (.number (0 / 0)) = .boolean false) ∧
      binaryType .eq (Ty.ofBool true) (Ty.ofNumber 1.0) = .ok (Ty.ofBool false) ∧
        Value.binary .eq (.boolean true) (.number 1.0) = .boolean true := by
  refine ⟨⟨?_, ?_⟩, ?_, ?_⟩
  · simp [binaryType, distribute?, Ty.ofNumber, Ty.literal, binaryArm?, isGradual, Ty.baseOf,
      staticEquality?, Literal.same, BinaryOp.isNegated]
  · have : ((0 / 0 : Float) == 0 / 0) = false := by decide +kernel
    simp [Value.binary, Value.strictEquals, this]
  · simp [binaryType, distribute?, Ty.ofBool, Ty.ofNumber, Ty.literal, binaryArm?, isGradual, Ty.baseOf,
      staticEquality?, Literal.same, BinaryOp.isNegated]
  · have : ((1.0 : Float) == 1.0) = true := by decide +kernel
    simp [Value.binary, Value.looseEquals, Value.toNumber, this]

end ReactiveDoc.Check
