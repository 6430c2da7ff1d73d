import ReactiveDoc.Proofs.Ty.Subtyping

namespace ReactiveDoc.Ty

/-!
# How far disjointness tells

* `Meet` — two types have a value in common.
* `Scalar`, `meet_of_not_disjoint` — types of single values, primitives and unions of these, which
  meet wherever they are not disjoint.
* `disjoint_apart` — disjointness does not depend on the order of the types, disjoint types do not
  meet, and scalar types are disjoint exactly if they do not meet.
-/

/-- The types have a value in common. -/
def Meet (a b : Ty) : Prop := ∃ v, Contains Literal.Alike a v ∧ Contains Literal.Alike b v

variable {a b : Ty}

/-- Being disjoint does not depend on the order of the types. -/
theorem disjoint_swap (a b : Ty) : disjoint a b = disjoint b a :=
  Bool.eq_iff_iff.mpr ⟨disjoint_comm, disjoint_comm⟩

theorem Meet.symm : Meet a b → Meet b a
  | ⟨v, ha, hb⟩ => ⟨v, hb, ha⟩

theorem Meet.of_arm {arms : List Ty} {arm : Ty} (hm : arm ∈ arms) :
    Meet a arm → Meet a (union arms)
  | ⟨v, ha, harm⟩ => ⟨v, ha, contains_union.mpr ⟨arm, hm, harm⟩⟩

/-! ### Scalar types -/

/-- A type without parts: `undefined`, `null`, the primitive type of some literal, or the literal
    itself. -/
inductive Simple : Ty → Prop
  | undefined : Simple undefined
  | null : Simple null
  | primitive (l : Literal) : Simple (baseOf l)
  | literal (l : Literal) : Simple (literal l)

/-- A simple type, or a union of such. -/
inductive Scalar : Ty → Prop
  | never : Scalar never
  | simple {t : Ty} (h : Simple t) : Scalar t
  | union {arms : List Ty} (h : ∀ arm ∈ arms, Scalar arm) : Scalar (union arms)

theorem Scalar.described {t : Ty} (h : Scalar t) : Described true t := by
  induction h with
  | never => exact .never
  | simple h =>
    cases h with
    | undefined => exact .undefined
    | null => exact .null
    | literal l => exact .literal l
    | primitive l => exact described_baseOf true l
  | union _ ih => exact .union ih

/-- Primitive types of one kind are the same. -/
theorem baseOf_eq_of_kinds {l m : Literal} (h : kindsDiffer (baseOf l) (baseOf m) = false) :
    baseOf l = baseOf m := by
  cases l <;> cases m <;> first | rfl | simp [kindsDiffer, kind?, baseOf] at h

theorem meet_literals {l m : Literal} (h : disjoint (literal l) (literal m) = false) :
    Meet (literal l) (literal m) := by
  have hsame : l.same m = true := by
    rw [literal, literal, disjoint, Bool.or_eq_false_iff] at h
    simpa using h.2
  exact ⟨Value.ofLiteral l, contains_literal (.refl l), l, hsame, rfl⟩

theorem meet_primitive_literal {l m : Literal} (h : kindsDiffer (baseOf l) (baseOf m) = false) :
    Meet (baseOf l) (literal m) := by
  rw [baseOf_eq_of_kinds h]
  exact ⟨Value.ofLiteral m, contains_baseOf m, contains_literal (.refl m)⟩

/-- Simple types of one kind meet, unless they are different literals. -/
theorem meet_simple (ha : Simple a) (hb : Simple b) (h : disjoint a b = false) : Meet a b := by
  have hkinds : kindsDiffer a b = false := by
    rw [Bool.eq_false_iff] at h ⊢
    exact fun hk => h (disjoint_kinds hk)
  cases ha with
  | undefined =>
    cases hb with
    | undefined => exact ⟨.undefined, rfl, rfl⟩
    | null => simp [kindsDiffer, kind?] at hkinds
    | primitive m | literal m => cases m <;> simp [kindsDiffer, kind?, baseOf, literal] at hkinds
  | null =>
    cases hb with
    | null => exact ⟨.null, rfl, rfl⟩
    | undefined => simp [kindsDiffer, kind?] at hkinds
    | primitive m | literal m => cases m <;> simp [kindsDiffer, kind?, baseOf, literal] at hkinds
  | primitive l =>
    cases hb with
    | undefined | null => cases l <;> simp [kindsDiffer, kind?, baseOf] at hkinds
    | primitive m =>
      rw [baseOf_eq_of_kinds hkinds]
      exact ⟨Value.ofLiteral m, contains_baseOf m, contains_baseOf m⟩
    | literal m => exact meet_primitive_literal hkinds
  | literal l =>
    cases hb with
    | undefined | null => cases l <;> simp [kindsDiffer, kind?, baseOf, literal] at hkinds
    | primitive m => exact (meet_primitive_literal ((kindsDiffer_comm _ _).trans hkinds)).symm
    | literal m => exact meet_literals h

theorem exists_arm_of_not_disjoint {arms : List Ty} (h : disjoint a (union arms) = false) :
    ∃ arm ∈ arms, disjoint a arm = false := by
  rw [Bool.eq_false_iff, Ne, disjoint_unionRight] at h
  simpa using h

/-- Scalar types that are not disjoint meet: so do some arms of them. -/
theorem meet_of_not_disjoint (ha : Scalar a) (hb : Scalar b) (h : disjoint a b = false) :
    Meet a b := by
  induction ha with
  | never => simp [disjoint] at h
  | union _ ih =>
    rw [disjoint_swap] at h
    obtain ⟨arm, hm, h⟩ := exists_arm_of_not_disjoint h
    rw [disjoint_swap] at h
    exact (Meet.of_arm hm (ih arm hm h).symm).symm
  | simple ha =>
    induction hb with
    | never => simp [disjoint_never] at h
    | simple hb => exact meet_simple ha hb h
    | union _ ih =>
      obtain ⟨arm, hm, h⟩ := exists_arm_of_not_disjoint h
      exact (ih arm hm h).of_arm hm

/-! ### Disjoint types -/

/-- Disjointness does not depend on the order of the types.  Disjoint types have no value in common,
    whatever fields of their objects may be missing, and scalar types that have none are disjoint. -/
theorem disjoint_apart (a b : Ty) :
    disjoint a b = disjoint b a ∧
      (Described true a → Described true b → disjoint a b = true → ¬ Meet a b) ∧
      (Scalar a → Scalar b → (disjoint a b = true ↔ ¬ Meet a b)) := by
  have hsound {a b : Ty} (ha : Described true a) (hb : Described true b)
      (h : disjoint a b = true) : ¬ Meet a b :=
    fun ⟨_, hav, hbv⟩ => not_contains_of_disjoint ha hb h hav hbv
  refine ⟨disjoint_swap a b, hsound, fun ha hb => ⟨hsound ha.described hb.described, fun h => ?_⟩⟩
  by_contra hnot
  exact h (meet_of_not_disjoint ha hb (Bool.eq_false_iff.mpr hnot))

/-- Two forms of an object that are told apart by their tags; one has a field that may be missing. -/
theorem disjoint_apart_tags :
    let circle := object [⟨"tag", ofString "circle"⟩, ⟨"fill", union [undefined, string]⟩]
    let square := object [⟨"tag", ofString "square"⟩]
    disjoint circle square = true ∧ ¬ Meet circle square := by
  intro circle square
  have hcircle : Described true circle := by
    refine .object (fun f hf => ?_) (fun h => nomatch h)
    simp only [List.mem_cons, List.not_mem_nil, or_false] at hf
    rcases hf with rfl | rfl
    · exact .literal _
    · refine .union fun t ht => ?_
      simp only [List.mem_cons, List.not_mem_nil, or_false] at ht
      rcases ht with rfl | rfl
      · exact .undefined
      · exact .string
  have hsquare : Described true square := by
    refine .object (fun f hf => ?_) (fun h => nomatch h)
    obtain rfl := List.mem_singleton.mp hf
    exact .literal _
  have htags : disjoint (ofString "circle") (ofString "square") = true :=
    disjoint_singletons fun _ => by decide
  have h : disjoint circle square = true :=
    disjoint_fields List.mem_cons_self List.mem_cons_self rfl htags
  exact ⟨h, (disjoint_apart circle square).2.1 hcircle hsquare h⟩

end ReactiveDoc.Ty
