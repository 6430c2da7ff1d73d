import ReactiveDoc.Proofs.Ty.Arms

namespace ReactiveDoc.Ty

/-!
# Firm types

* `FirmIn`, `Firm` — types without complements and errors none of whose fields may be missing.
* `Core`, `Records` — the rules of subtyping that go by the outermost constructors.
* `isSubtype_boolean`, `isSubtype_intersectionLeft`, `isSubtype_of_intersectionRight` — firm types
  obey the rules for truth values and intersections in every position.
* `Step`, `step_of_isSubtype` — the ways in which one firm type comes to be a subtype of another.
-/

/-! ### Firm types -/

/-- A single type other than `never` and `boolean`, which is part of a union only if it is part of
    an arm. -/
def Whole : Ty → Prop
  | never | boolean | union _ | intersection _ => False
  | _ => True

/-- A type without complements and errors whose singletons are well-formed, none of whose fields
    may be missing and whose intersections have whole arms, and whether `boolean` and labelled
    types may be in it. -/
inductive FirmIn (booleans labels : Bool) : Ty → Prop
  | never : FirmIn booleans labels never
  | unknown : FirmIn booleans labels unknown
  | undefined : FirmIn booleans labels undefined
  | null : FirmIn booleans labels null
  | boolean (hb : booleans = true) : FirmIn booleans labels boolean
  | number : FirmIn booleans labels number
  | string : FirmIn booleans labels string
  | literal (l : Literal) : FirmIn booleans labels (literal l)
  | tuple {items} (h : ∀ t ∈ items, FirmIn booleans labels t) : FirmIn booleans labels (tuple items)
  | array {item} (h : FirmIn booleans labels item) : FirmIn booleans labels (array item)
  | set {item} (h : FirmIn booleans labels item) : FirmIn booleans labels (set item)
  | map {key value} (hk : FirmIn booleans labels key) (hv : FirmIn booleans labels value) :
      FirmIn booleans labels (map key value)
  | labelled {label args} (hl : labels = true) (h : ∀ t ∈ args, FirmIn booleans labels t) :
      FirmIn booleans labels (labelled label args)
  | function {params result} (hp : ∀ t ∈ params, FirmIn booleans labels t)
      (hr : FirmIn booleans labels result) : FirmIn booleans labels (function params result)
  | object {fields} (h : ∀ f ∈ fields, FirmIn booleans labels f.ty)
      (hu : ∀ f ∈ fields, isSubtype Ty.undefined f.ty = false) :
      FirmIn booleans labels (object fields)
  | module {exports} (h : ∀ e ∈ exports, FirmIn booleans labels e.ty)
      (hu : ∀ e ∈ exports, isSubtype Ty.undefined e.ty = false) :
      FirmIn booleans labels (module exports)
  | union {arms} (h : ∀ t ∈ arms, FirmIn booleans labels t) : FirmIn booleans labels (union arms)
  | intersection {arms} (h : ∀ t ∈ arms, FirmIn booleans labels t) (hw : ∀ t ∈ arms, Whole t) :
      FirmIn booleans labels (intersection arms)

/-- A firm type of any form. -/
abbrev Firm : Ty → Prop := FirmIn true true

variable {booleans labels : Bool}

namespace FirmIn

theorem of_tuple {items : List Ty} :
    FirmIn booleans labels (.tuple items) → ∀ t ∈ items, FirmIn booleans labels t
  | tuple h => h

theorem of_array {item : Ty} :
    FirmIn booleans labels (.array item) → FirmIn booleans labels item
  | array h => h

theorem of_set {item : Ty} : FirmIn booleans labels (.set item) → FirmIn booleans labels item
  | set h => h

theorem of_map {key value : Ty} : FirmIn booleans labels (.map key value) →
    FirmIn booleans labels key ∧ FirmIn booleans labels value
  | map hk hv => ⟨hk, hv⟩

theorem of_labelled {label : String} {args : List Ty} :
    FirmIn booleans labels (.labelled label args) → ∀ t ∈ args, FirmIn booleans labels t
  | labelled _ h => h

theorem of_function {params : List Ty} {result : Ty} :
    FirmIn booleans labels (.function params result) →
      (∀ t ∈ params, FirmIn booleans labels t) ∧ FirmIn booleans labels result
  | function hp hr => ⟨hp, hr⟩

theorem of_object {fields : List (Field Ty)} : FirmIn booleans labels (.object fields) →
    ∀ f ∈ fields, FirmIn booleans labels f.ty ∧ isSubtype Ty.undefined f.ty = false
  | object h hu => fun f hf => ⟨h f hf, hu f hf⟩

theorem of_union {arms : List Ty} :
    FirmIn booleans labels (.union arms) → ∀ t ∈ arms, FirmIn booleans labels t
  | union h => h

theorem of_intersection {arms : List Ty} : FirmIn booleans labels (.intersection arms) →
    ∀ t ∈ arms, FirmIn booleans labels t ∧ Whole t
  | intersection h hw => fun t ht => ⟨h t ht, hw t ht⟩

/-- A type that is firm without some forms is firm. -/
theorem firm {t : Ty} (h : FirmIn booleans labels t) : Firm t := by
  induction h with
  | boolean _ => exact .boolean rfl
  | literal l => exact .literal l
  | tuple _ ih => exact .tuple ih
  | array _ ih => exact .array ih
  | set _ ih => exact .set ih
  | map _ _ ihk ihv => exact .map ihk ihv
  | labelled _ _ ih => exact .labelled rfl ih
  | function _ _ ihp ihr => exact .function ihp ihr
  | object _ hu ih => exact .object ih hu
  | module _ hu ih => exact .module ih hu
  | union _ ih => exact .union ih
  | intersection _ hw ih => exact .intersection ih hw
  | _ => constructor

/-- No firm type is an error. -/
theorem isError_eq_false {t : Ty} (h : FirmIn booleans labels t) : t.isError = false := by
  cases h <;> rfl

end FirmIn

theorem firm_baseOf (l : Literal) : Firm (baseOf l) := by
  cases l <;> constructor
  rfl

/-! ### Members -/

/-- The members of an object or module type. -/
def members : Ty → List (Field Ty)
  | object fields => fields
  | module exports => exports.map fun e => ⟨e.name, e.ty⟩
  | _ => []

theorem field?_eq (a : Ty) (name : String) :
    a.field? name = (a.members.find? fun f => f.name == name).map Field.ty := by
  cases a with
  | object fields => rfl
  | module exports =>
    simp only [field?, members, List.find?_map, Option.map_map, Function.comp_def]
  | _ => rfl

theorem Firm.member {a : Ty} (ha : Firm a) {f : Field Ty} (hf : f ∈ a.members) :
    Firm f.ty ∧ isSubtype Ty.undefined f.ty = false ∧ f.ty.size < a.size := by
  cases ha with
  | @object fields h hu =>
    have hf : f ∈ fields := hf
    have := size_le_sizeFields hf
    exact ⟨h f hf, hu f hf, by simp only [size]; omega⟩
  | module h hu =>
    obtain ⟨e, he, rfl⟩ := List.mem_map.1 hf
    have := size_le_sizeExports he
    exact ⟨h e he, hu e he, by simp only [size]; omega⟩
  | _ => cases hf

/-- The pairs of objects and modules that subtyping compares by their members. -/
inductive Records : Ty → Ty → Prop
  | objects {fs gs} : Records (object fs) (object gs)
  | modules {es gs} : Records (module es) (module gs)
  | exports {es gs} : Records (module es) (object gs)

theorem Records.trans {a b c : Ty} (h : Records a b) (h' : Records b c) : Records a c := by
  cases h with
  | objects => cases h'; exact .objects
  | modules => cases h' with
    | modules => exact .modules
    | exports => exact .exports
  | exports => cases h'; exact .exports

theorem sameFields_members {a b : Ty} (hab : Records a b) (h : same a b = true) :
    sameFields a.members b.members = true := by
  cases hab with
  | objects =>
    rw [same] at h
    exact h
  | modules =>
    rw [same] at h
    exact sameFields_of_sameExports h
  | exports => simp [same] at h

/-! ### Rules -/

theorem isSubtypeList_of_sameList {as bs : List Ty} (h : sameList as bs = true) :
    isSubtypeList as bs = true := by
  induction as generalizing bs with
  | nil => cases bs <;> simp_all [sameList, isSubtypeList]
  | cons a as ih =>
    cases bs with
    | nil => simp [sameList] at h
    | cons b bs =>
      simp only [sameList, Bool.and_eq_true] at h
      simp only [isSubtypeList, isSubtype_of_same h.1, ih h.2, Bool.and_self]

/-- The ways to be a subtype that go by the outermost constructors. -/
inductive Core : Ty → Ty → Prop
  | undefined : Core undefined undefined
  | null : Core null null
  | boolean : Core boolean boolean
  | number : Core number number
  | string : Core string string
  | singletons {base l base' m} (hb : same base base' = true) (h : Literal.same l m = true) :
      Core (singleton base l) (singleton base' m)
  | array {a b} (h : isSubtype a b = true) : Core (array a) (array b)
  | set {a b} (h : isSubtype a b = true) : Core (set a) (set b)
  | map {k v k' v'} (hk : isSubtype k' k = true) (hv : isSubtype v v' = true) :
      Core (map k v) (map k' v')
  | tuple {as bs} (h : isSubtypeList as bs = true) : Core (tuple as) (tuple bs)
  | items {as b} (h : ∀ a ∈ as, isSubtype a b = true) : Core (tuple as) (array b)
  | function {as r bs s} (hp : isSubtypeList bs as = true) (hr : isSubtype r s = true) :
      Core (function as r) (function bs s)
  | labelled {label as bs} (h : isSubtypeList as bs = true) :
      Core (labelled label as) (labelled label bs)

theorem Core.isSubtype {a b : Ty} (h : Core a b) : Ty.isSubtype a b = true := by
  rw [isSubtype.eq_def, Bool.or_eq_true]
  cases h with
  | undefined | null | boolean | number | string => exact .inl (by rw [same])
  | singletons hb h => exact .inr (Bool.and_eq_true_iff.2 ⟨hb, h⟩)
  | array h | set h | tuple h => exact .inr h
  | map hk hv => exact .inr (Bool.and_eq_true_iff.2 ⟨hk, hv⟩)
  | @items as b h =>
    have hall : (as.attach.all fun a => Ty.isSubtype a.1 b) = true := by simpa using h
    exact .inr hall
  | function hp hr => exact .inr (Bool.and_eq_true_iff.2 ⟨hp, hr⟩)
  | labelled h => exact .inr (Bool.and_eq_true_iff.2 ⟨beq_self_eq_true _, h⟩)

theorem isSubtype_array (a b : Ty) : isSubtype (array a) (array b) = isSubtype a b := by
  rw [Bool.eq_iff_iff]
  refine ⟨fun h => ?_, fun h => (Core.array h).isSubtype⟩
  cases isSubtype_cases h with
  | same h => exact isSubtype_of_same (by rwa [same] at h)
  | array h => exact h

/-- A record is a subtype of another if it equals it or if its members are subtypes of the
    other's. -/
inductive Beneath (a b : Ty) : Prop
  | equal (h : same a b = true)
  | members (h : ∀ f ∈ b.members, Ty.isSubtype ((a.field? f.name).getD undefined) f.ty = true)

theorem Records.isSubtype {a b : Ty} (hr : Records a b) (h : Beneath a b) :
    Ty.isSubtype a b = true := by
  rw [isSubtype.eq_def, Bool.or_eq_true]
  cases h with
  | equal h => exact .inl h
  | members h =>
    cases hr with
    | objects | modules | exports =>
      simp only [Ty.members, List.forall_mem_map, field?] at h
      refine .inr (List.all_eq_true.2 fun g _ => ?_)
      have hg := h g.1 g.2
      dsimp only
      split <;> simp_all

/-- Objects are compared by the fields of the wider one, where a missing field is `undefined`. -/
theorem isSubtype_object {fs gs : List (Field Ty)} :
    isSubtype (object fs) (object gs) = true ↔ sameFields fs gs = true ∨
      ∀ g ∈ gs, isSubtype (((object fs).field? g.name).getD undefined) g.ty = true := by
  constructor
  · intro h
    cases isSubtype_cases h with
    | same h => exact .inl (by rwa [same] at h)
    | object h => exact .inr h
  · rintro (h | h)
    · exact isSubtype_of_same (by rwa [same])
    · exact Records.objects.isSubtype (.members h)

/-- The steps that take the left type apart or compare constructors. -/
inductive Inner : Ty → Ty → Prop
  | never {b} : Inner never b
  | unionLeft {arms b} (h : ∀ arm ∈ arms, isSubtype arm b = true) : Inner (union arms) b
  | boolean {arms s t} (hs : s ∈ arms) (hst : isSubtype (ofBool true) s = true) (ht : t ∈ arms)
      (htf : isSubtype (ofBool false) t = true) : Inner boolean (union arms)
  | intersectionLeft {arms b arm} (hm : arm ∈ arms) (h : isSubtype arm b = true) :
      Inner (intersection arms) b
  | base {l b} (h : isSubtype (baseOf l) b = true) : Inner (literal l) b
  | core {a b} (h : Core a b) : Inner a b
  | records {a b} (hr : Records a b) (h : Beneath a b) : Inner a b

/-- The last step by which one firm type is found to be a subtype of another. -/
inductive Step : Ty → Ty → Prop
  | unknown {a} : Step a unknown
  | unionRight {a arms arm} (hm : arm ∈ arms) (h : isSubtype a arm = true) : Step a (union arms)
  | intersectionRight {a arms} (h : ∀ arm ∈ arms, isSubtype a arm = true) :
      Step a (intersection arms)
  | inner {a b} (h : Inner a b) : Step a b

/-! ### Truth values and intersections -/

theorem whole_literal (l : Literal) : Whole (literal l) := trivial

/-- A whole type that is part of a union is part of an arm. -/
theorem exists_arm {a : Ty} {arms : List Ty} (he : a.isError = false) (hw : Whole a)
    (h : isSubtype a (union arms) = true) : ∃ arm ∈ arms, isSubtype a arm = true := by
  have hany : ∀ h : (arms.attach.any fun arm => isSubtype a arm.1) = true,
      ∃ arm ∈ arms, isSubtype a arm = true := by
    intro h
    simpa using h
  rw [isSubtype.eq_def, Bool.or_eq_true] at h
  cases a with
  | never | boolean | union | intersection => cases hw
  | error => cases he
  | _ => exact hany (h.resolve_left (by simp [same]))

/-- A whole type that is part of an intersection is part of its arms. -/
theorem forall_arms {a : Ty} {arms : List Ty} (he : a.isError = false) (hw : Whole a)
    (h : isSubtype a (intersection arms) = true) : ∀ arm ∈ arms, isSubtype a arm = true := by
  have hall : ∀ h : (arms.attach.all fun arm => isSubtype a arm.1) = true,
      ∀ arm ∈ arms, isSubtype a arm = true := by
    intro h
    simpa using h
  rw [isSubtype.eq_def, Bool.or_eq_true] at h
  cases a with
  | never | boolean | union | intersection => cases hw
  | error => cases he
  | _ => exact hall (h.resolve_left (by simp [same]))

/-- `boolean` is part of what both truth values are part of. -/
theorem isSubtype_boolean {b : Ty} (hb : Firm b) (ht : isSubtype (ofBool true) b = true)
    (hf : isSubtype (ofBool false) b = true) : isSubtype boolean b = true := by
  induction hb with
  | unknown => exact isSubtype_unknown _
  | boolean => exact Core.boolean.isSubtype
  | union _ _ =>
    obtain ⟨s, hs, hst⟩ := exists_arm rfl (whole_literal _) ht
    obtain ⟨t, ht, htf⟩ := exists_arm rfl (whole_literal _) hf
    exact isSubtype_booleanUnion hs hst ht htf
  | intersection _ _ ih =>
    exact isSubtype_intersectionRight fun arm hm =>
      ih arm hm (forall_arms rfl (whole_literal _) ht arm hm)
        (forall_arms rfl (whole_literal _) hf arm hm)
  | literal m =>
    -- A single value cannot be both truth values.
    have hone : ∀ b, isSubtype (ofBool b) (literal m) = true → m = .boolean b := by
      intro b h
      have hsame : (Literal.boolean b).same m = true := by
        cases isSubtype_cases h with
        | same h =>
          simp only [ofBool, literal, same, Bool.and_eq_true] at h
          exact h.2
        | singletons _ h => exact h
        | base h =>
          rw [literal, not_isSubtype_singleton] at h
          cases h
      cases m <;> simp_all [Literal.same]
    cases (hone true ht).symm.trans (hone false hf)
  | _ =>
    cases isSubtype_cases ht with
    | same h => simp [ofBool, literal, same] at h
    | base h => exact h

/-- An intersection is part of what one of its arms is part of. -/
theorem isSubtype_intersectionLeft {arms : List Ty} {arm b : Ty} (ha : Firm (intersection arms))
    (hb : Firm b) (hm : arm ∈ arms) (h : isSubtype arm b = true) :
    isSubtype (intersection arms) b = true := by
  obtain ⟨harm, hw⟩ := ha.of_intersection arm hm
  induction hb with
  | union _ ih =>
    obtain ⟨u, hu, hle⟩ := exists_arm harm.isError_eq_false hw h
    exact isSubtype_union_of_mem hu (ih u hu hle)
  | intersection _ _ ih =>
    exact isSubtype_intersectionRight fun u hu =>
      ih u hu (forall_arms harm.isError_eq_false hw h u hu)
  | _ => exact isSubtype_intersection_of_mem hm h rfl (by simp [literal]) (by simp [literal])

/-- What is part of an intersection is part of its arms. -/
theorem isSubtype_of_intersectionRight {a arm : Ty} {arms : List Ty} (ha : Firm a)
    (hb : Firm (intersection arms)) (hm : arm ∈ arms)
    (h : isSubtype a (intersection arms) = true) : isSubtype a arm = true := by
  obtain ⟨harm, -⟩ := hb.of_intersection arm hm
  induction ha with
  | never => exact isSubtype_never arm
  | boolean =>
    cases isSubtype_cases h with
    | same h => simp [same] at h
    | intersectionRight h => exact h arm hm
  | union _ ih =>
    refine isSubtype_unionLeft harm.isError_eq_false fun t ht => ih t ht ?_
    exact isSubtype_of_unionLeft h ht
  | @intersection as has hw ih =>
    cases isSubtype_cases h with
    | same h =>
      simp only [same] at h
      have hsymm := sameList_symm (fun _ _ _ => same_symm) h
      obtain ⟨t, ht, hsame⟩ := exists_mem_of_sameList hsymm arm hm
      exact isSubtype_intersectionLeft (.intersection has hw) harm ht
        (isSubtype_of_same (same_symm hsame))
    | intersectionRight h => exact h arm hm
    | intersectionLeft ht hle =>
      exact isSubtype_intersectionLeft (.intersection has hw) harm ht (ih _ ht hle)
  | _ => exact forall_arms (by rfl) (by trivial) h arm hm

/-! ### Steps -/

/-- Equal types are subtypes by the rules that go by the constructors. -/
theorem step_of_same {a b : Ty} (ha : Firm a) (hb : Firm b) (h : same a b = true) : Step a b := by
  have hsub := isSubtype_of_same h
  fun_cases same a b with
  | case1 => exact .inner .never
  | case2 => exact .unknown
  | case3 => exact .inner (.core .undefined)
  | case4 => exact .inner (.core .null)
  | case5 => exact .inner (.core .boolean)
  | case6 => exact .inner (.core .number)
  | case7 => exact .inner (.core .string)
  | case8 xs ys =>
    rw [same] at h
    exact .inner (.core (.tuple (isSubtypeList_of_sameList h)))
  | case9 x y =>
    rw [same] at h
    exact .inner (.core (.array (isSubtype_of_same h)))
  | case10 x y =>
    rw [same] at h
    exact .inner (.core (.set (isSubtype_of_same h)))
  | case11 k v k' v' =>
    simp only [same, Bool.and_eq_true] at h
    exact .inner (.core (.map (isSubtype_of_same (same_symm h.1)) (isSubtype_of_same h.2)))
  | case12 l xs l' ys =>
    simp only [same, Bool.and_eq_true, beq_iff_eq] at h
    obtain ⟨rfl, h⟩ := h
    exact .inner (.core (.labelled (isSubtypeList_of_sameList h)))
  | case13 ps r ps' r' =>
    simp only [same, Bool.and_eq_true] at h
    have hp := sameList_symm (fun _ _ _ => same_symm) h.1
    exact .inner (.core (.function (isSubtypeList_of_sameList hp) (isSubtype_of_same h.2)))
  -- With repeated names the members do not tell of equality, which is a rule of its own then.
  | case14 => exact .inner (.records .objects (.equal h))
  | case15 => exact .inner (.records .modules (.equal h))
  | case16 => exact .inner (.unionLeft fun t ht => isSubtype_of_unionLeft hsub ht)
  | case17 => exact .intersectionRight fun t ht => isSubtype_of_intersectionRight ha hb ht hsub
  | case18 =>
    simp only [same, Bool.and_eq_true] at h
    exact .inner (.core (.singletons h.1 h.2))
  | case19 | case20 => cases ha
  | case21 => simp_all [same]

theorem step_of_isSubtype {a b : Ty} (ha : Firm a) (hb : Firm b) (h : isSubtype a b = true) :
    Step a b := by
  have hby := isSubtype_cases h
  clear h
  cases hby with
  | same h => exact step_of_same ha hb h
  | never => exact .inner .never
  | unknown => exact .unknown
  | unionLeft h => exact .inner (.unionLeft h)
  | intersectionRight h => exact .intersectionRight h
  | boolean hs hst ht htf => exact .inner (.boolean hs hst ht htf)
  | unionRight hm h => exact .unionRight hm h
  | intersectionLeft hm h => exact .inner (.intersectionLeft hm h)
  | base h =>
    cases ha with
    | literal l => exact .inner (.base h)
  | singletons hl h => exact .inner (.core (.singletons hl h))
  | array h => exact .inner (.core (.array h))
  | set h => exact .inner (.core (.set h))
  | map hk hv => exact .inner (.core (.map hk hv))
  | tuple h => exact .inner (.core (.tuple h))
  | items h => exact .inner (.core (.items h))
  | object h => exact .inner (.records .objects (.members h))
  | module h => exact .inner (.records .modules (.members (List.forall_mem_map.2 h)))
  | exports h => exact .inner (.records .exports (.members h))
  | function hp hr => exact .inner (.core (.function hp hr))
  | labelled h => exact .inner (.core (.labelled h))
  | error => cases ha
  | complements | apart => cases hb

end ReactiveDoc.Ty
