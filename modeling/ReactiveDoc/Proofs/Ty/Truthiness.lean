import ReactiveDoc.Proofs.Ty.Retaining

namespace ReactiveDoc.Ty

/-!
# Narrowing by truthiness

* `contains_falsy_iff` — the types that count as falsy have the falsy values, not-a-number apart.
* `ArmOf`, `Agreeing` — the arms of nested unions, and that those which stand for each other agree
  about a value.
* `agreeing_of_normal` — those of a type in normal form do.
* `contains_narrow_truthiness` — a truthy value of a type stays when the type is narrowed to what
  is truthy, and a falsy one when it is narrowed to what is falsy.

Primitive values and functions are kept by all narrowing.  Of an array or an object, narrowing
leaves every arm as it is, and only the union of them may lose it.
-/

variable {a s t : Ty} {v : Value}

/-! ### Falsy values -/

theorem falsy_eq : falsy = union [undefined, null, ofBool false, ofNumber 0, ofString ""] := by
  simp [falsy, unionOf, unionParts, addArm, ofArms, isEquivalent, isSubtype, same, ofBool, ofNumber,
    ofString, literal, baseOf]

theorem described_falsy (optional : Bool) : Described optional falsy := by
  rw [falsy_eq]
  exact .union (by simpa using ⟨.undefined, .null, .literal _, .literal _, .literal _⟩)

theorem same_zero_iff {x : Float} : Number.same x 0 = true ↔
    (Value.number x).isTruthy = false ∧ x.isNaN = false := by
  have hzero : (0 : Float) = 0.0 := by decide +kernel
  have hnan : (0.0 : Float).isNaN = false := by decide +kernel
  have hbeq : (x == 0.0) = true ↔ Number.same x 0.0 = true ∧ x.isNaN = false := Number.beq_iff_same
  have hsame := @Number.isNaN_of_same x 0.0
  rw [hzero, Value.isTruthy]
  cases hx : x.isNaN <;> cases hb : x == 0.0 <;> simp_all [bne]

/-- What counts as falsy are the falsy values other than not-a-number. -/
theorem contains_falsy_iff : Contains Literal.Alike falsy v ↔
    v.isTruthy = false ∧ ∀ x, v = .number x → x.isNaN = false := by
  rw [falsy_eq, contains_union]
  simp only [List.mem_cons, List.not_mem_nil, or_false, exists_eq_or_imp, exists_eq_left]
  constructor
  · rintro (rfl | rfl | ⟨m, hm, rfl⟩ | ⟨m, hm, rfl⟩ | ⟨m, hm, rfl⟩)
    · simp [Value.isTruthy]
    · simp [Value.isTruthy]
    · cases m <;> simp_all [Literal.Alike, Literal.same, Value.ofLiteral, Value.isTruthy]
    · cases m with
      | number x => simpa [Value.ofLiteral] using same_zero_iff.1 hm
      | _ => simp [Literal.Alike, Literal.same] at hm
    · cases m <;> simp_all [Literal.Alike, Literal.same, Value.ofLiteral, Value.isTruthy]
  · rintro ⟨hf, hn⟩
    cases v with
    | undefined => exact .inl rfl
    | null => exact .inr (.inl rfl)
    | boolean b =>
      have hb : (Literal.boolean b).same (.boolean false) = true := by
        simpa [Literal.same, Value.isTruthy] using hf
      exact .inr (.inr (.inl ⟨_, hb, rfl⟩))
    | number x =>
      have hx : (Literal.number x).same (.number 0) = true := same_zero_iff.2 ⟨hf, hn x rfl⟩
      exact .inr (.inr (.inr (.inl ⟨_, hx, rfl⟩)))
    | string s =>
      have hs : (Literal.string s).same (.string "") = true := by
        simpa [Literal.same, Value.isTruthy] using hf
      exact .inr (.inr (.inr (.inr ⟨_, hs, rfl⟩)))
    | _ => cases hf

theorem atomic_of_isTruthy_eq_false (h : v.isTruthy = false) : v.Atomic := by
  cases v with
  | array | object => cases h
  | _ => trivial

/-! ### Arms -/

/-- The type `t` is `a` or, if that is a union, an arm of it at any depth. -/
inductive ArmOf : Ty → Ty → Prop
  | self {t : Ty} (h : ∀ arms, t ≠ union arms) : ArmOf t t
  | arm {arms : List Ty} {arm t : Ty} (hm : arm ∈ arms) (h : ArmOf arm t) : ArmOf (union arms) t

theorem ArmOf.ne_union (h : ArmOf a t) (arms : List Ty) : t ≠ union arms := by
  induction h with
  | self h => exact h arms
  | arm _ _ ih => exact ih

/-- Arms that stand for each other agree about a value. -/
def Agreeing (a : Ty) (v : Value) : Prop :=
  ∀ s t, ArmOf a s → ArmOf a t → isEquivalent s t = true →
    Contains Literal.Alike t v → Contains Literal.Alike s v

theorem Agreeing.of_union {arms : List Ty} {arm : Ty} (h : Agreeing (union arms) v)
    (hm : arm ∈ arms) : Agreeing arm v :=
  fun s t hs ht => h s t (.arm hm hs) (.arm hm ht)

theorem Formed.armOf {optional : Bool} (ha : Formed optional a) (h : ArmOf a t) :
    Formed optional t := by
  induction h with
  | self => exact ha
  | arm hm _ ih => exact ih (ha.of_union _ hm)

/-- No two arms of a type in normal form stand for each other. -/
theorem agreeing_of_normal (ha : Normal a) (v : Value) : Agreeing a v := by
  intro s t hs ht h htv
  cases ha with
  | @union arms _ hu _ hd =>
    have hmem : ∀ {t}, ArmOf (union arms) t → t ∈ arms := by
      intro t ht
      cases ht with
      | self h => exact absurd rfl (h arms)
      | arm hm h =>
        cases h with
        | self => exact hm
        | arm => exact (hu _ hm).elim
    rwa [eq_of_isEquivalent hd (hmem hs) (hmem ht) h]
  | _ =>
    cases hs
    cases ht
    exact htv

/-! ### Arrays and objects -/

/-- A type that has an array or object is no subtype of one whose values are of another kind. -/
theorem not_isSubtype_of_kind {k : Kind} (ha : WellFormed a) (hv : ¬ v.Atomic)
    (hav : Contains Literal.Alike a v) (hk : kind? t = some k) (hobject : k ≠ .object) :
    isSubtype a t = false := by
  rw [Bool.eq_false_iff]
  intro h
  induction ha with
  | union _ ih =>
    obtain ⟨arm, hm, hav⟩ := contains_union.1 hav
    exact ih arm hm hav (isSubtype_of_unionLeft h hm)
  | never => exact hav
  | undefined | null =>
    cases hav
    exact hv trivial
  | boolean | number | string =>
    obtain ⟨_, rfl⟩ := hav
    exact hv trivial
  | function =>
    obtain ⟨_, _, rfl⟩ := hav
    exact hv trivial
  | literal l =>
    obtain ⟨m, -, rfl⟩ := hav
    cases m <;> exact hv trivial
  | unknown =>
    cases isSubtype_cases h with
    | same h => cases t <;> simp_all [same, kind?]
    | _ => cases hk
  | tuple | array | object =>
    cases isSubtype_cases h with
    | same h => exact hobject (Option.some.inj (hk.symm.trans (kind?_of_same h).symm))
    | unknown | intersectionRight | unionRight | apart => cases hk
    | _ => exact hobject (Option.some.inj hk).symm

/-- A single type that has an array or object is no subtype of what counts as falsy. -/
theorem not_isSubtype_falsy (ha : WellFormed a) (hw : Whole a) (hv : ¬ v.Atomic)
    (hav : Contains Literal.Alike a v) : isSubtype a falsy = false := by
  rw [Bool.eq_false_iff]
  intro h
  have he : a.isError = false := by cases ha <;> rfl
  rw [falsy_eq] at h
  obtain ⟨arm, hm, h⟩ := exists_arm he hw h
  have hkind : ∃ k, kind? arm = some k ∧ k ≠ .object := by
    simp only [List.mem_cons, List.not_mem_nil, or_false] at hm
    rcases hm with rfl | rfl | rfl | rfl | rfl <;> exact ⟨_, rfl, nofun⟩
  obtain ⟨k, hk, hne⟩ := hkind
  cases (not_isSubtype_of_kind ha hv hav hk hne).symm.trans h

/-! ### Narrowing to what is truthy -/

theorem narrow_union_notFalsy (arms : List Ty) :
    narrow (union arms) notFalsy = unionOf (arms.map fun arm => narrow arm notFalsy) := by
  rw [narrow] <;> simp [notFalsy]

theorem narrow_boolean_notFalsy : narrow boolean notFalsy = ofBool true := by
  have htrue : isSubtype (ofBool true) falsy = false := by
    simp [falsy_eq, isSubtype, same, ofBool, ofNumber, ofString, literal, baseOf, Literal.same]
  have hfalse : isSubtype (ofBool false) falsy = true := by
    rw [falsy_eq]
    exact isSubtype_union_of_mem (by simp) (isSubtype_refl _)
  have hunion : unionOf [ofBool true, never] = ofBool true := by
    simp [unionOf, unionParts, addArm, ofArms, ofBool, literal]
  rw [notFalsy, narrow]
  simp [booleanArms, without, htrue, hfalse, hunion]

/-- A single type other than `boolean` stays unless all of it counts as falsy. -/
theorem narrow_notFalsy (ha : WellFormed a) (hw : Whole a) :
    narrow a notFalsy = without a falsy := by
  cases ha with
  | never | boolean | union => cases hw
  | unknown =>
    have hle : isSubtype unknown falsy = false := by
      simp [falsy_eq, isSubtype, same, ofBool, ofNumber, ofString, literal]
    rw [notFalsy, narrow, without, hle]
    rfl
  | _ => rw [notFalsy, narrow] <;> simp [falsy_eq, literal]

theorem armOf_narrow_notFalsy_of_whole (ha : WellFormed a) (hw : Whole a) :
    ∀ s ∈ unionParts [narrow a notFalsy], ArmOf a s := by
  intro s hs
  have hu : ∀ arms, a ≠ union arms := by
    rintro arms rfl
    exact hw
  rw [narrow_notFalsy ha hw] at hs
  rcases without_cases a falsy with h | h <;> rw [h] at hs
  · cases hs
  · rcases mem_unionParts.1 hs with ⟨arms, harms, -⟩ | ⟨hs, -⟩
    · exact absurd (List.mem_singleton.1 harms).symm (hu arms)
    · obtain rfl := List.mem_singleton.1 hs
      exact .self hu

theorem armOf_of_mem_unionParts {arms : List Ty} (h : ∀ arm ∈ arms,
      ∀ s ∈ unionParts [narrow arm notFalsy], ArmOf arm s ∨ s = ofBool true) :
    ∀ s ∈ unionParts (arms.map fun arm => narrow arm notFalsy),
      ArmOf (union arms) s ∨ s = ofBool true := by
  intro s hs
  obtain ⟨r, hr, hs⟩ := mem_unionParts_iff_exists.1 hs
  obtain ⟨arm, hm, rfl⟩ := List.mem_map.1 hr
  exact (h arm hm s hs).imp_left (.arm hm)

/-- The arms that are left are arms of the type, or `true` for `boolean`. -/
theorem armOf_narrow_notFalsy (ha : WellFormed a) :
    ∀ s ∈ unionParts [narrow a notFalsy], ArmOf a s ∨ s = ofBool true := by
  have hwf := ha
  induction ha with
  | never =>
    rw [narrow]
    simp [unionParts]
  | boolean =>
    rw [narrow_boolean_notFalsy]
    simp [unionParts, ofBool, literal]
  | union harms ih =>
    have hparts := armOf_of_mem_unionParts fun arm hm => ih arm hm (harms arm hm)
    intro s hs
    rw [narrow_union_notFalsy] at hs
    -- None of the parts is a union itself, so that the union of them opens nothing more.
    refine hparts s (mem_unionParts_of_unionOf (fun u hu us => ?_) hs)
    rcases hparts u hu with h | rfl
    · exact h.ne_union us
    · exact literal_ne_union _ us
  | _ => exact fun s hs => .inl (armOf_narrow_notFalsy_of_whole hwf trivial s hs)

/-- Arms that are left and stand for each other agree about an array or object. -/
theorem contains_of_isEquivalent_arm (ha : WellFormed a) (hagree : Agreeing a v)
    (hv : ¬ v.Atomic) (hs : ArmOf a s ∨ s = ofBool true) (ht : ArmOf a t ∨ t = ofBool true)
    (h : isEquivalent s t = true) (htv : Contains Literal.Alike t v) :
    Contains Literal.Alike s v := by
  rcases ht with ht | rfl
  · rcases hs with hs | rfl
    · exact hagree s t hs ht h htv
    · rw [isEquivalent, Bool.and_eq_true] at h
      cases (not_isSubtype_of_kind (k := .boolean) (ha.armOf ht) hv htv rfl nofun).symm.trans h.2
  · obtain ⟨l, -, rfl⟩ := htv
    cases l <;> exact absurd trivial hv

/-- An array or object is kept among what is truthy. -/
theorem contains_narrow_notFalsy (ha : WellFormed a) (hagree : Agreeing a v) (hv : ¬ v.Atomic)
    (hav : Contains Literal.Alike a v) : Contains Literal.Alike (narrow a notFalsy) v := by
  have hwf := ha
  induction ha with
  | never => exact hav.elim
  | boolean =>
    obtain ⟨_, rfl⟩ := hav
    exact absurd trivial hv
  | @union arms harms ih =>
    obtain ⟨arm, hm, hav⟩ := contains_union.1 hav
    have hkept : ∃ r ∈ arms.map fun arm => narrow arm notFalsy, Contains Literal.Alike r v :=
      ⟨_, List.mem_map.2 ⟨arm, hm, rfl⟩, ih arm hm (hagree.of_union hm) hav (harms arm hm)⟩
    obtain ⟨s, hs, hsv⟩ := contains_unionParts.2 hkept
    rw [narrow_union_notFalsy, unionOf, contains_ofArms]
    exact exists_mem_foldl_addArm
      (fun s t hs ht => contains_of_isEquivalent_arm hwf hagree hv hs ht) (by simp)
      (armOf_of_mem_unionParts fun arm hm => armOf_narrow_notFalsy (harms arm hm)) hs hsv
  | _ =>
    rw [narrow_notFalsy hwf trivial, without, not_isSubtype_falsy hwf trivial hv hav]
    exact hav

/-! ### Truthiness -/

/-- A truthy value is kept by narrowing to what is truthy, if equivalent arms agree about it, and
    a falsy one other than not-a-number by narrowing to what is falsy. -/
theorem contains_narrow_truthiness (ha : WellFormed a) (hav : Contains Literal.Alike a v) :
    (v.isTruthy = true → Agreeing a v → Contains Literal.Alike (narrow a notFalsy) v) ∧
      (v.isTruthy = false → (∀ x, v = .number x → x.isNaN = false) →
        Contains Literal.Alike (narrow a notTruthy) v) := by
  constructor
  · intro ht hagree
    by_cases hv : v.Atomic
    -- The general law covers what has no fields; the rest depends on the arms.
    · have hnot : Contains Literal.Alike notFalsy v := by
        rw [notFalsy, Contains, contains_falsy_iff, ht]
        simp
      exact ((narrowed a notFalsy).keeps ha.described (.complement (described_falsy true))).kept
        (.inr hv) hav hnot
    · exact contains_narrow_notFalsy ha hagree hv hav
  · intro hf hn
    exact ((narrowed a notTruthy).keeps ha.described (described_falsy true)).kept
      (.inr (atomic_of_isTruthy_eq_false hf)) hav (contains_falsy_iff.2 ⟨hf, hn⟩)

theorem wellFormed_maybeCoded : WellFormed maybeCoded :=
  .object (by simpa using .union (by simpa using ⟨.undefined, .number⟩)) nofun

/-- A number, or an object whose `c`, if it has one, is a number. -/
def codedOrCount : Ty := union [number, maybeCoded]

/-- An object is kept among what is truthy, and zero among what is falsy. -/
theorem contains_narrow_truthiness_codedOrCount :
    (WellFormed codedOrCount ∧ Contains Literal.Alike codedOrCount (.object 0 []) ∧
      Contains Literal.Alike codedOrCount (.number 0.0)) ∧
      Contains Literal.Alike (narrow codedOrCount notFalsy) (.object 0 []) ∧
      Contains Literal.Alike (narrow codedOrCount notTruthy) (.number 0.0) := by
  have hwf : WellFormed codedOrCount := .union (by simpa using ⟨.number, wellFormed_maybeCoded⟩)
  have hd : Distinct number maybeCoded := by
    simp [Distinct, isEquivalent, isSubtype, same, maybeCoded]
  have hnormal : Normal codedOrCount :=
    .union (by simpa using ⟨.number, normal_maybeCoded⟩) (by simp [UnionArm, maybeCoded]) (by simp)
      (by simpa using hd)
  have hobject : Contains Literal.Alike codedOrCount (.object 0 []) := by
    simp [codedOrCount, maybeCoded, Contains, ContainsSome, ContainsFields, Value.member]
  have hzero : Contains Literal.Alike codedOrCount (.number 0.0) :=
    contains_union.2 ⟨number, by simp, _, rfl⟩
  have hfalse : (Value.number 0.0).isTruthy = false := by decide +kernel
  have hnan : ∀ x, Value.number 0.0 = .number x → x.isNaN = false := by
    rintro _ ⟨⟩
    decide +kernel
  exact ⟨⟨hwf, hobject, hzero⟩,
    (contains_narrow_truthiness hwf hobject).1 rfl (agreeing_of_normal hnormal _),
    (contains_narrow_truthiness hwf hzero).2 hfalse hnan⟩

/-- No number is left by a single type that is disjoint from numbers. -/
theorem narrow_number_eq_never {b : Ty} (hb : MeetArm b) (hc : ∀ t, b ≠ complement t)
    (hle : isSubtype number b = false) (hge : isSubtype b number = false)
    (hd : disjoint number b = true) : narrow number b = never := by
  have hmeet : intersectionOf [number, b] = never := by
    rw [intersectionOf_of_meetArm (by simpa [MeetArm] using hb)]
    simp [meetArms, meetArm?, hle, hd]
  have h := narrowed number b
  generalize narrow number b = r at h ⊢
  cases h with
  | left h => cases hle.symm.trans h
  | right h => cases hge.symm.trans h
  | meet => exact hmeet
  | without => exact absurd rfl (hc _)
  | unionRight | intersectionRight => exact hb.elim

/-- An object whose `c`, if it has one, is a number, or any object. -/
def looselyCoded : Ty := union [maybeCoded, object []]

/-- An object with a text `c` is lost with the arm that has it, and not-a-number is not among the
    falsy numbers. -/
theorem narrow_truthiness_loses :
    ((WellFormed looselyCoded ∧
        Contains Literal.Alike looselyCoded (.object 0 [("c", .string "x")])) ∧
      (Value.object 0 [("c", .string "x")]).isTruthy = true ∧
      ¬ Contains Literal.Alike (narrow looselyCoded notFalsy) (.object 0 [("c", .string "x")])) ∧
    (Contains Literal.Alike number (.number Float.nan) ∧
      (Value.number Float.nan).isTruthy = false ∧
      ¬ Contains Literal.Alike (narrow number notTruthy) (.number Float.nan)) := by
  have hcoded : WellFormed (object []) := .object (by simp) nofun
  have hloose : narrow looselyCoded notFalsy = maybeCoded := by
    have hleft : narrow maybeCoded notFalsy = maybeCoded := by
      rw [narrow_notFalsy wellFormed_maybeCoded trivial, without]
      simp [falsy_eq, maybeCoded, isSubtype, same, ofBool, ofNumber, ofString, literal]
    have hright : narrow (object []) notFalsy = object [] := by
      rw [narrow_notFalsy hcoded trivial, without]
      simp [falsy_eq, isSubtype, same, ofBool, ofNumber, ofString, literal]
    have hunion : unionOf [maybeCoded, object []] = maybeCoded := by
      simp [unionOf, unionParts, addArm, ofArms, maybeCoded, isEquivalent, isSubtype, same,
        sameFields]
    simp [looselyCoded, narrow_union_notFalsy, hleft, hright, hunion]
  have hnumber : narrow number notTruthy = ofNumber 0 := by
    have hapart : ∀ b ∈ [undefined, null, ofBool false, ofString ""], narrow number b = never := by
      simp only [List.forall_mem_cons, List.not_mem_nil, false_imp_iff, implies_true, and_true]
      refine ⟨?_, ?_, ?_, ?_⟩ <;> refine narrow_number_eq_never ?_ ?_ ?_ ?_ ?_ <;>
        simp [MeetArm, ofBool, ofString, literal, baseOf, disjoint, kindsDiffer, kind?, isSubtype,
          same]
    have hzero : narrow number (ofNumber 0) = ofNumber 0 := by
      rw [ofNumber, literal, narrow] <;> simp [baseOf, isSubtype, same]
    have hunion : unionOf [never, never, never, ofNumber 0, never] = ofNumber 0 := by
      simp [unionOf, unionParts, addArm, ofArms, ofNumber, literal]
    simp only [List.forall_mem_cons] at hapart
    rw [notTruthy, falsy_eq, narrow]
    · simp [hapart, hzero, hunion]
    all_goals simp
  have hwf : WellFormed looselyCoded := .union (by simpa using ⟨wellFormed_maybeCoded, hcoded⟩)
  refine ⟨⟨⟨hwf, ?_⟩, rfl, ?_⟩, ⟨_, rfl⟩, ?_, ?_⟩
  · exact contains_union.2 ⟨object [], by simp, contains_object.2 ⟨⟨_, _, rfl⟩, by simp⟩⟩
  · simp [hloose, maybeCoded, Contains, ContainsSome, ContainsFields, Value.member]
  · decide +kernel
  · rw [hnumber]
    rintro ⟨l, hl, heq⟩
    cases l <;> cases heq
    have hnan : Float.nan.isNaN = false := (same_zero_iff.1 hl).2
    revert hnan
    decide +kernel

end ReactiveDoc.Ty
