import ReactiveDoc.Proofs.Ty.Intersection
import ReactiveDoc.Ty.Narrow

namespace ReactiveDoc.Ty

/-!
# Narrowing never widens

* `Narrowed`, `narrowed` — the ways in which one type is narrowed by another.
* `normal_narrow` — types in normal form are narrowed to types in normal form.
* `Meetless` — types in which narrowing comes to no intersection.
* `narrow_isSubtype` — meetless types, and firm ones, are narrowed to parts of themselves.

The arms of an intersection are narrowed each for itself, and the result is a part of all of them
only where subtyping is transitive.
-/

/-! ### Ways to narrow -/

/-- What the knowledge `b` about an object says about one of its fields. -/
def knownField? (b : Ty) (name : String) : Option Ty :=
  match b with
  | object fields => (fields.find? fun g => g.name == name).map Field.ty
  | complement (object [⟨excluded, ty⟩]) =>
      if excluded == name then some (complement ty) else none
  | _ => none

/-- A field narrowed by what `b` says about it. -/
def narrowField (b : Ty) (f : Field Ty) : Field Ty :=
  match knownField? b f.name with
  | some t => ⟨f.name, narrow f.ty t⟩
  | none => f

/-- The steps by which `a` is narrowed by `b` to a type. -/
inductive Narrowed : Ty → Ty → Ty → Prop
  | left {a b} (h : isSubtype a b = true) : Narrowed a b a
  | right {a b} (h : isSubtype b a = true) (hb : ∀ t, b ≠ complement t) : Narrowed a b b
  | unknown {excluded} : Narrowed unknown (complement excluded) unknown
  | unionLeft {arms b} (h : ∀ arm ∈ arms, Narrowed arm b (narrow arm b)) :
      Narrowed (union arms) b (unionOf (arms.map fun arm => narrow arm b))
  | intersectionLeft {arms b} (h : ∀ arm ∈ arms, Narrowed arm b (narrow arm b)) :
      Narrowed (intersection arms) b (intersectionOf (arms.map fun arm => narrow arm b))
  | boolean {excluded} : Narrowed boolean (complement excluded)
      (unionOf (booleanArms.map fun arm => without arm excluded))
  | without {a excluded} : Narrowed a (complement excluded) (without a excluded)
  | unionRight {a arms} (h : ∀ arm ∈ arms, Narrowed a arm (narrow a arm)) :
      Narrowed a (union arms) (unionOf (arms.map fun arm => narrow a arm))
  | intersectionRight {a arms} (h : ∀ kept, ∀ arm ∈ arms, Narrowed kept arm (narrow kept arm)) :
      Narrowed a (intersection arms) (arms.foldl narrow a)
  | fields {fs b} (h : ∀ f ∈ fs, ∀ t, knownField? b f.name = some t →
      Narrowed f.ty t (narrow f.ty t)) :
      Narrowed (object fs) b (objectUnlessNever (fs.map (narrowField b)))
  | meet {a b} (ha : MeetArm a) (hb : MeetArm b) (hc : ∀ t, b ≠ complement t) :
      Narrowed a b (intersectionOf [a, b])

theorem narrowed (a b : Ty) : Narrowed a b (narrow a b) := by
  fun_induction narrow a b with
  | case1 b => exact .left (isSubtype_never b)
  | case2 a => exact .right (isSubtype_never a) (by simp)
  | case3 b cause => exact .left (isSubtype_error cause b)
  | case4 a => exact .left (isSubtype_unknown a)
  | case5 => exact .unknown
  | case6 b _ _ hc => exact .right (isSubtype_unknown b) hc
  | case7 arms b _ _ ih => simpa using Narrowed.unionLeft ih
  | case8 arms b _ _ ih => simpa using Narrowed.intersectionLeft ih
  | case9 => exact .boolean
  | case10 fs name ty ih =>
    have hstep : narrowField (complement (object [⟨name, ty⟩])) =
        fun f => if name == f.name then ⟨f.name, narrow f.ty (complement ty)⟩ else f := by
      funext f
      cases hname : name == f.name <;> simp [narrowField, knownField?, hname]
    refine hstep ▸ Narrowed.fields fun f _ t ht => ?_
    obtain ⟨-, rfl⟩ : name = f.name ∧ complement ty = t := by simpa [knownField?] using ht
    exact ih f
  | case11 => exact .without
  | case12 a arms _ _ _ _ _ ih => simpa using Narrowed.unionRight ih
  | case13 a arms _ _ _ _ _ ih => simpa using Narrowed.intersectionRight ih
  | case14 fs gs ih =>
    have hknown : ∀ f ∈ fs, ∀ t, knownField? (object gs) f.name = some t →
        Narrowed f.ty t (narrow f.ty t) := by
      intro f _ t ht
      obtain ⟨g, hg, rfl⟩ := Option.map_eq_some_iff.1 ht
      exact ih f g hg
    refine Eq.subst (motive := fun step => Narrowed (object fs) (object gs)
      (objectUnlessNever (fs.map step))) (funext fun f => ?_) (Narrowed.fields hknown)
    split
    next g hg => simp only [narrowField, knownField?, hg, Option.map_some]
    next hg => simp only [narrowField, knownField?, hg, Option.map_none]
  | case15 a b => exact .left ‹_›
  | case16 a b => exact .right ‹_› ‹_›
  | case17 a b => exact .meet (meetArm_of_ne ‹_› ‹_› ‹_› ‹_›) (meetArm_of_ne ‹_› ‹_› ‹_› ‹_›) ‹_›

/-! ### Fields -/

@[simp]
theorem narrowField_name (b : Ty) (f : Field Ty) : (narrowField b f).name = f.name := by
  unfold narrowField
  split <;> rfl

/-- A field stays as it is or is narrowed by what is known about it. -/
theorem narrowField_cases {b : Ty} {f : Field Ty} {P : Ty → Prop} (hf : P f.ty)
    (h : ∀ t, knownField? b f.name = some t → P (narrow f.ty t)) : P (narrowField b f).ty := by
  unfold narrowField
  split
  next t ht => exact h t ht
  next => exact hf

/-- What is known about a field is a part of what is known about the object. -/
theorem knownField?_cases {b t : Ty} {name : String} (h : knownField? b name = some t) :
    (∃ gs, b = object gs ∧ ∃ g ∈ gs, g.ty = t) ∨
      ∃ excluded ty, b = complement (object [⟨excluded, ty⟩]) ∧ t = complement ty := by
  unfold knownField? at h
  split at h
  next gs =>
    obtain ⟨g, hg, rfl⟩ := Option.map_eq_some_iff.1 h
    exact .inl ⟨gs, rfl, g, List.mem_of_find?_eq_some hg, rfl⟩
  next excluded ty =>
    split at h
    · exact .inr ⟨excluded, ty, rfl, (Option.some.inj h).symm⟩
    · cases h
  next => cases h

/-- Among fields of different names each is the first of its name. -/
theorem find?_name_of_nodup {fs : List (Field Ty)} (hn : (fs.map Field.name).Nodup) {f : Field Ty}
    (hf : f ∈ fs) : fs.find? (fun g => g.name == f.name) = some f := by
  induction fs with
  | nil => cases hf
  | cons g gs ih =>
    simp only [List.map_cons, List.nodup_cons] at hn
    rcases List.mem_cons.1 hf with rfl | hf
    · exact List.find?_cons_of_pos (beq_self_eq_true _)
    · have hne : (g.name == f.name) = false := by
        rw [beq_eq_false_iff_ne]
        exact fun heq => hn.1 (heq ▸ List.mem_map_of_mem hf)
      simp only [List.find?_cons, hne, ih hn.2 hf]

/-- Fields that become parts of themselves make the object a part of itself. -/
theorem isSubtype_objectUnlessNever {fs : List (Field Ty)} {step : Field Ty → Field Ty}
    (hn : (fs.map Field.name).Nodup) (hname : ∀ f, (step f).name = f.name)
    (h : ∀ f ∈ fs, isSubtype (step f).ty f.ty = true) :
    isSubtype (objectUnlessNever (fs.map step)) (object fs) = true := by
  unfold objectUnlessNever
  split
  · exact isSubtype_never _
  · refine isSubtype_object.2 (.inr fun f hf => ?_)
    have hfind : (fs.map step).find? (fun g => g.name == f.name) = some (step f) := by
      rw [List.find?_map]
      simp only [Function.comp_def, hname, find?_name_of_nodup hn hf, Option.map_some]
    simpa only [field?, hfind, Option.map_some, Option.getD_some] using h f hf

theorem normal_objectUnlessNever {fs : List (Field Ty)} {step : Field Ty → Field Ty}
    (hn : (fs.map Field.name).Nodup) (hname : ∀ f, (step f).name = f.name)
    (h : ∀ f ∈ fs, Normal (step f).ty) : Normal (objectUnlessNever (fs.map step)) := by
  unfold objectUnlessNever
  split
  · exact .never
  · exact .object (List.forall_mem_map.2 h) (by simpa [Function.comp_def, hname] using hn)

/-! ### Normal form -/

theorem without_cases (a excluded : Ty) : without a excluded = never ∨ without a excluded = a := by
  unfold without
  split
  · exact .inl rfl
  · exact .inr rfl

theorem normal_without {a : Ty} (excluded : Ty) (ha : Normal a) : Normal (without a excluded) := by
  rcases without_cases a excluded with h | h <;> rw [h]
  · exact .never
  · exact ha

theorem Normal.knownField {b t : Ty} {name : String} (hb : Normal b)
    (h : knownField? b name = some t) : Normal t := by
  rcases knownField?_cases h with ⟨gs, rfl, g, hg, rfl⟩ | ⟨excluded, ty, rfl, rfl⟩
  · exact hb.of_object.1 g hg
  · exact .complement (hb.of_complement.of_object.1 ⟨excluded, ty⟩ List.mem_cons_self)

theorem Narrowed.normal {a b r : Ty} (h : Narrowed a b r) (ha : Normal a) (hb : Normal b) :
    Normal r := by
  induction h with
  | left => exact ha
  | right => exact hb
  | unknown => exact .unknown
  | unionLeft _ ih =>
    exact normal_unionOf (List.forall_mem_map.2 fun arm hm => ih arm hm (ha.of_union arm hm).1 hb)
  | intersectionLeft _ ih =>
    exact normal_intersectionOf
      (List.forall_mem_map.2 fun arm hm => ih arm hm (ha.of_intersection arm hm).1 hb)
  | boolean =>
    refine normal_unionOf (List.forall_mem_map.2 fun arm hm => normal_without _ ?_)
    simp only [booleanArms, List.mem_cons, List.not_mem_nil, or_false] at hm
    rcases hm with rfl | rfl <;> exact .literal _
  | without => exact normal_without _ ha
  | unionRight _ ih =>
    exact normal_unionOf (List.forall_mem_map.2 fun arm hm => ih arm hm ha (hb.of_union arm hm).1)
  | intersectionRight _ ih =>
    exact List.foldlRecOn _ _ ha fun kept hk arm hm =>
      ih kept arm hm hk (hb.of_intersection arm hm).1
  | fields _ ih =>
    obtain ⟨hf, hn⟩ := ha.of_object
    exact normal_objectUnlessNever hn (narrowField_name _) fun f hm =>
      narrowField_cases (hf f hm) fun t ht => ih f hm t ht (hf f hm) (hb.knownField ht)
  | meet => exact normal_intersectionOf (by simpa using ⟨ha, hb⟩)

/-- Types in normal form are narrowed to types in normal form. -/
theorem normal_narrow {a b : Ty} (ha : Normal a) (hb : Normal b) : Normal (narrow a b) :=
  (narrowed a b).normal ha hb

/-! ### Single steps -/

theorem isSubtype_without (a excluded : Ty) : isSubtype (without a excluded) a = true := by
  rcases without_cases a excluded with h | h <;> rw [h]
  · exact isSubtype_never a
  · exact isSubtype_refl a

theorem mem_booleanArms {arm : Ty} : arm ∈ booleanArms ↔ ∃ b, arm = ofBool b := by
  simp [booleanArms, or_comm]

theorem isSubtype_without_ofBool (b : Bool) (excluded : Ty) :
    isSubtype (without (ofBool b) excluded) boolean = true := by
  rcases without_cases (ofBool b) excluded with h | h <;> rw [h]
  · exact isSubtype_never _
  · exact isSubtype_literal (isSubtype_refl (baseOf (.boolean b)))

/-- The truth values that are left are part of `boolean`. -/
theorem isSubtype_withoutBoolean (excluded : Ty) :
    isSubtype (unionOf (booleanArms.map fun arm => without arm excluded)) boolean = true := by
  refine unionOf_isSubtype (List.forall_mem_map.2 fun arm hm => ?_)
  obtain ⟨b, rfl⟩ := mem_booleanArms.1 hm
  exact isSubtype_without_ofBool b excluded

theorem isSubtype_meet {a b : Ty} (ha : MeetArm a) (hb : MeetArm b) :
    isSubtype (intersectionOf [a, b]) a = true := by
  have hm : ∀ t ∈ [a, b], MeetArm t := by simpa using ⟨ha, hb⟩
  rw [intersectionOf_of_meetArm hm]
  exact meetArms_isSubtype (chained_of_length_le_two (by simp)) hm a (by simp)

/-! ### Without intersections -/

/-- A type that is no intersection, nor is any arm of it, if it is a union, or any field of it, if
    it is an object. -/
inductive Meetless : Ty → Prop
  | union {arms} (h : ∀ t ∈ arms, Meetless t) : Meetless (union arms)
  | object {fields} (h : ∀ f ∈ fields, Meetless f.ty) : Meetless (object fields)
  | other {t} (hu : ∀ arms, t ≠ .union arms) (hi : ∀ arms, t ≠ .intersection arms)
      (ho : ∀ fields, t ≠ .object fields) : Meetless t

namespace Meetless

theorem of_union {arms : List Ty} : Meetless (.union arms) → ∀ t ∈ arms, Meetless t
  | union h => h
  | other hu _ _ => absurd rfl (hu arms)

theorem of_object {fields : List (Field Ty)} :
    Meetless (.object fields) → ∀ f ∈ fields, Meetless f.ty
  | object h => h
  | other _ _ ho => absurd rfl (ho fields)

theorem not_intersection {arms : List Ty} : ¬ Meetless (.intersection arms)
  | other _ hi _ => hi arms rfl

theorem complement (t : Ty) : Meetless (.complement t) := .other (by simp) (by simp) (by simp)

theorem knownField {b t : Ty} {name : String} (hb : Meetless b) (h : knownField? b name = some t) :
    Meetless t := by
  rcases knownField?_cases h with ⟨gs, rfl, g, hg, rfl⟩ | ⟨_, ty, -, rfl⟩
  · exact hb.of_object g hg
  · exact complement ty

end Meetless

/-- Where no intersection is met, a type is narrowed to a part of itself. -/
theorem Narrowed.isSubtype_of_meetless {a b r : Ty} (h : Narrowed a b r) (hn : Normal a)
    (ha : Meetless a) (hb : Meetless b) : isSubtype r a = true := by
  induction h with
  | left => exact isSubtype_refl _
  | right h => exact h
  | unknown => exact isSubtype_refl _
  | unionLeft _ ih =>
    exact unionOf_isSubtype (List.forall_mem_map.2 fun arm hm =>
      isSubtype_union_of_mem hm (ih arm hm (hn.of_union arm hm).1 (ha.of_union arm hm) hb))
  | intersectionLeft => exact absurd ha Meetless.not_intersection
  | boolean => exact isSubtype_withoutBoolean _
  | without => exact isSubtype_without _ _
  | unionRight _ ih =>
    exact unionOf_isSubtype (List.forall_mem_map.2 fun arm hm =>
      ih arm hm hn ha (hb.of_union arm hm))
  | intersectionRight => exact absurd hb Meetless.not_intersection
  | fields _ ih =>
    obtain ⟨hf, hnames⟩ := hn.of_object
    exact isSubtype_objectUnlessNever hnames (narrowField_name _) fun f hm =>
      narrowField_cases (P := fun t => isSubtype t f.ty = true) (isSubtype_refl _) fun t ht =>
        ih f hm t ht (hf f hm) (ha.of_object f hm) (hb.knownField ht)
  | meet hma hmb => exact isSubtype_meet hma hmb

/-! ### Firm types -/

section Firm

variable {booleans labels : Bool}

theorem firmIn_ofBool (b : Bool) : FirmIn booleans labels (ofBool b) := .literal (.boolean b)

theorem firmIn_without {a : Ty} (excluded : Ty) (ha : FirmIn booleans labels a) :
    FirmIn booleans labels (without a excluded) := by
  rcases without_cases a excluded with h | h <;> rw [h]
  · exact .never
  · exact ha

/-- Firm fields that become parts of themselves make a firm object. -/
theorem firmIn_objectUnlessNever {fs : List (Field Ty)} {step : Field Ty → Field Ty}
    (ha : FirmIn booleans labels (object fs))
    (h : ∀ f ∈ fs, FirmIn booleans labels (step f).ty ∧ isSubtype (step f).ty f.ty = true) :
    FirmIn booleans labels (objectUnlessNever (fs.map step)) := by
  unfold objectUnlessNever
  split
  · exact .never
  · refine .object (List.forall_mem_map.2 fun f hf => (h f hf).1)
      (List.forall_mem_map.2 fun f hf => ?_)
    obtain ⟨hfirm, hu⟩ := ha.of_object f hf
    -- A field that could be missing now could have been missing before.
    rw [Bool.eq_false_iff]
    intro hs
    have hundefined : isSubtype undefined f.ty = true :=
      FirmIn.undefined.trans (h f hf).1 hfirm hs (h f hf).2
    cases hu.symm.trans hundefined

/-- Knowledge that is firm or that a value is not of some type. -/
def FirmKnowledge (booleans labels : Bool) (b : Ty) : Prop :=
  FirmIn booleans labels b ∨ ∃ excluded, b = complement excluded

theorem FirmKnowledge.knownField {b t : Ty} {name : String} (hb : FirmKnowledge booleans labels b)
    (h : knownField? b name = some t) : FirmKnowledge booleans labels t := by
  rcases knownField?_cases h with ⟨gs, rfl, g, hg, rfl⟩ | ⟨_, ty, -, rfl⟩
  · rcases hb with hb | ⟨_, hb⟩
    · exact .inl (hb.of_object g hg).1
    · cases hb
  · exact .inr ⟨ty, rfl⟩

theorem FirmKnowledge.firmIn {b : Ty} (hb : FirmKnowledge booleans labels b)
    (hc : ∀ t, b ≠ complement t) : FirmIn booleans labels b :=
  hb.resolve_right fun ⟨t, ht⟩ => hc t ht

/-- Firm types are narrowed to firm types that are part of them. -/
theorem Narrowed.firmIn (hf : ¬(booleans = true ∧ labels = true)) {a b r : Ty}
    (h : Narrowed a b r) (hna : Normal a) (hnb : Normal b) (ha : FirmIn booleans labels a)
    (hb : FirmKnowledge booleans labels b) : FirmIn booleans labels r ∧ isSubtype r a = true := by
  induction h with
  | left => exact ⟨ha, isSubtype_refl _⟩
  | right h hc => exact ⟨hb.firmIn hc, h⟩
  | unknown => exact ⟨ha, isSubtype_refl _⟩
  | unionLeft _ ih =>
    have harm := fun arm hm => ih arm hm (hna.of_union arm hm).1 hnb (ha.of_union arm hm) hb
    exact ⟨firmIn_unionOf (List.forall_mem_map.2 fun arm hm => (harm arm hm).1),
      unionOf_isSubtype (List.forall_mem_map.2 fun arm hm =>
        isSubtype_union_of_mem hm (harm arm hm).2)⟩
  | @intersectionLeft arms b _ ih =>
    have harm := fun arm hm =>
      ih arm hm (hna.of_intersection arm hm).1 hnb (ha.of_intersection arm hm).1 hb
    have hnormal : ∀ t ∈ arms.map fun arm => narrow arm b, Normal t :=
      List.forall_mem_map.2 fun arm hm => normal_narrow (hna.of_intersection arm hm).1 hnb
    have hfirm : ∀ t ∈ arms.map fun arm => narrow arm b, FirmIn booleans labels t :=
      List.forall_mem_map.2 fun arm hm => (harm arm hm).1
    have hmeet := firmIn_intersectionOf hf hnormal hfirm
    -- The result is below each narrowed arm, and that one is below the arm itself.
    refine ⟨hmeet, isSubtype_intersectionRight fun arm hm => ?_⟩
    have hbelow := FirmIn.intersectionOf_isSubtype hnormal hfirm _ (List.mem_map_of_mem hm)
    exact hmeet.trans (harm arm hm).1 (ha.of_intersection arm hm).1 hbelow (harm arm hm).2
  | boolean =>
    refine ⟨firmIn_unionOf (List.forall_mem_map.2 fun arm hm => ?_), isSubtype_withoutBoolean _⟩
    obtain ⟨b, rfl⟩ := mem_booleanArms.1 hm
    exact firmIn_without _ (firmIn_ofBool b)
  | without => exact ⟨firmIn_without _ ha, isSubtype_without _ _⟩
  | @unionRight a arms _ ih =>
    have hb := hb.firmIn (by simp)
    have harm := fun arm hm => ih arm hm hna (hnb.of_union arm hm).1 ha (.inl (hb.of_union arm hm))
    exact ⟨firmIn_unionOf (List.forall_mem_map.2 fun arm hm => (harm arm hm).1),
      unionOf_isSubtype (List.forall_mem_map.2 fun arm hm => (harm arm hm).2)⟩
  | @intersectionRight a arms _ ih =>
    have hb := hb.firmIn (by simp)
    -- What is kept stays in normal form, firm and a part of what the fold began with.
    have hfold : Normal (arms.foldl narrow a) ∧ FirmIn booleans labels (arms.foldl narrow a) ∧
        isSubtype (arms.foldl narrow a) a = true := by
      refine List.foldlRecOn arms narrow (motive := fun kept => Normal kept ∧
        FirmIn booleans labels kept ∧ isSubtype kept a = true) ⟨hna, ha, isSubtype_refl a⟩ ?_
      rintro kept ⟨hnk, hk, hka⟩ arm hm
      have hnarm := (hnb.of_intersection arm hm).1
      obtain ⟨hr, hrk⟩ := ih kept arm hm hnk hnarm hk (.inl (hb.of_intersection arm hm).1)
      exact ⟨normal_narrow hnk hnarm, hr, hr.trans hk ha hrk hka⟩
    exact hfold.2
  | @fields fs b _ ih =>
    obtain ⟨hnf, hnames⟩ := hna.of_object
    have hstep : ∀ f ∈ fs, FirmIn booleans labels (narrowField b f).ty ∧
        isSubtype (narrowField b f).ty f.ty = true := fun f hm =>
      narrowField_cases (P := fun t => FirmIn booleans labels t ∧ isSubtype t f.ty = true)
        ⟨(ha.of_object f hm).1, isSubtype_refl _⟩ fun t ht =>
          ih f hm t ht (hnf f hm) (hnb.knownField ht) (ha.of_object f hm).1 (hb.knownField ht)
    exact ⟨firmIn_objectUnlessNever ha hstep,
      isSubtype_objectUnlessNever hnames (narrowField_name b) fun f hm => (hstep f hm).2⟩
  | meet hma hmb hc =>
    exact ⟨firmIn_intersectionOf hf (by simpa using ⟨hna, hnb⟩) (by simpa using ⟨ha, hb.firmIn hc⟩),
      isSubtype_meet hma hmb⟩

end Firm

/-! ### Narrowing -/

/-- Narrowing never widens a type in normal form, if it meets no intersection or if both types are
    firm and no `boolean` may meet a labelled type; the knowledge may be a complement. -/
theorem narrow_isSubtype {a b : Ty} (ha : Normal a) (hb : Normal b)
    (h : (Meetless a ∧ Meetless b) ∨ ∃ booleans labels, ¬(booleans = true ∧ labels = true) ∧
      FirmIn booleans labels a ∧ FirmKnowledge booleans labels b) :
    isSubtype (narrow a b) a = true := by
  rcases h with ⟨hma, hmb⟩ | ⟨booleans, labels, hf, hfa, hfb⟩
  · exact (narrowed a b).isSubtype_of_meetless ha hma hmb
  · exact ((narrowed a b).firmIn hf ha hb hfa hfb).2

/-- Lists of objects with a number that are code as well. -/
def countedCode : Ty := intersection [array counted, labelled "Code" []]

/-- An intersection one of whose arms is narrowed, while the other one meets the knowledge. -/
theorem narrow_isSubtype_countedCode :
    (Normal countedCode ∧ Normal (array captioned)) ∧
      isSubtype (narrow countedCode (array captioned)) countedCode = true := by
  have hd : Distinct (array counted) (labelled "Code" []) := by
    simp [Distinct, isEquivalent, isSubtype, same]
  have hn : Normal countedCode :=
    .intersection (by simpa using ⟨.array normal_counted, .labelled (by simp)⟩) (by simp [MeetArm])
      (by simp) (by simpa using hd)
  have hf : FirmIn false true countedCode :=
    .intersection (by simpa using ⟨.array (firmIn_counted _ _), .labelled rfl (by simp)⟩)
      (by simp [Whole])
  have hb : FirmIn false true (array captioned) := .array (firmIn_captioned _ _)
  have hnb : Normal (array captioned) := .array normal_captioned
  exact ⟨⟨hn, hnb⟩, narrow_isSubtype hn hnb (.inr ⟨false, true, by simp, hf, .inl hb⟩)⟩

theorem narrow_array (a b : Ty) : narrow (array a) (array b) =
    if isSubtype a b then array a else if isSubtype b a then array b
      else intersectionOf [array a, array b] := by
  rw [narrow] <;> simp [isSubtype_array]

/-- An arm that is replaced by the knowledge no longer restricts what another arm leaves. -/
theorem narrow_maybeCoded_widens :
    (Normal (intersection [array maybeCoded, array captioned]) ∧ Normal (array counted)) ∧
      narrow (intersection [array maybeCoded, array captioned]) (array counted) = array captioned ∧
      isSubtype (array captioned) (intersection [array maybeCoded, array captioned]) = false := by
  have hd : Distinct (array maybeCoded) (array captioned) := by
    simp [Distinct, isEquivalent, isSubtype_array, not_isSubtype_captioned_maybeCoded]
  have hn : Normal (intersection [array maybeCoded, array captioned]) :=
    .intersection (by simpa using ⟨.array normal_maybeCoded, .array normal_captioned⟩)
      (by simp [MeetArm]) (by simp) (by simpa using hd)
  refine ⟨⟨hn, .array normal_counted⟩, ?_, ?_⟩
  · have hleft : narrow (array maybeCoded) (array counted) = array counted := by
      simp [narrow_array, not_isSubtype_maybeCoded_counted, isSubtype_counted_maybeCoded]
    have hright : narrow (array captioned) (array counted) = array captioned := by
      simp [narrow_array, isSubtype_captioned_counted]
    have hapart : disjoint (array counted) (array captioned) = false := by
      simp [disjoint, kindsDiffer, kind?]
    have hfold : [array counted, array captioned].foldlM meetArm? [] = some [array captioned] := by
      simp [meetArm?, hapart, isSubtype_array, isSubtype_captioned_counted,
        not_isSubtype_counted_captioned]
    have hmeet : intersectionOf [array counted, array captioned] = array captioned := by
      rw [intersectionOf_of_meetArm (by simp [MeetArm]), meetArms, hfold]
    rw [narrow]
    · simp [hleft, hright, hmeet]
    all_goals simp
  · rw [Bool.eq_false_iff]
    intro h
    have hwhole : Whole (array captioned) := trivial
    have harm := forall_arms rfl hwhole h (array maybeCoded) (by simp)
    rw [isSubtype_array, not_isSubtype_captioned_maybeCoded] at harm
    cases harm

end ReactiveDoc.Ty
