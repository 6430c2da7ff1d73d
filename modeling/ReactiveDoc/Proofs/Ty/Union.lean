import ReactiveDoc.Proofs.Ty.Arms

namespace ReactiveDoc.Ty

/-!
# The union is the least upper bound

* `unionOf_isSubtype` — the union of several types is part of what all of them are part of.
* `isSubtype_unionOf_iff` — each of several types is part of their union.
* `unionOf_leastUpperBound` — both, and that order and repetition do not matter.
* `Normal` — the form of types that unions and intersections are built in.
* `normal_unionOf` — the union of types in normal form is in normal form.

A union of errors alone is the exception, since nothing but errors and `never` is part of an
error.  Building unions makes none, for any two errors are equivalent.
-/

/-! ### Arms of a union -/

/-- What the arms of several types are. -/
theorem mem_unionParts {ts : List Ty} {s : Ty} :
    s ∈ unionParts ts ↔
      (∃ arms, union arms ∈ ts ∧ s ∈ arms) ∨ (s ∈ ts ∧ s ≠ never ∧ ∀ arms, s ≠ union arms) := by
  fun_induction unionParts ts with
  | case1 => simp
  | case2 arms ts ih =>
    rw [List.mem_append, ih]
    simp only [List.mem_cons, union.injEq]
    grind
  | case3 ts ih =>
    rw [ih]
    simp only [List.mem_cons, reduceCtorEq, false_or]
    grind
  | case4 t ts hu hn ih =>
    rw [List.mem_cons, ih]
    simp only [List.mem_cons]
    grind

theorem mem_unionParts_iff_exists {ts : List Ty} {s : Ty} :
    s ∈ unionParts ts ↔ ∃ t ∈ ts, s ∈ unionParts [t] := by
  simp only [mem_unionParts, List.mem_singleton]
  grind

/-- The arms of a union are among those of its types, if these are opened far enough. -/
theorem mem_unionParts_of_unionOf {ts : List Ty} {s : Ty}
    (hu : ∀ t ∈ unionParts ts, ∀ arms, t ≠ union arms) (hs : s ∈ unionParts [unionOf ts]) :
    s ∈ unionParts ts := by
  have hkept : ∀ t ∈ (unionParts ts).foldl addArm [], t ∈ unionParts ts := fun t ht =>
    (mem_foldl_addArm ht).resolve_left List.not_mem_nil
  rcases ofArms_cases ((unionParts ts).foldl addArm []) with ⟨-, h⟩ | ⟨t, ht, h⟩ | ⟨-, h⟩
  · rw [unionOf, h] at hs
    cases hs
  · rw [unionOf, h] at hs
    have ht := hkept t (ht ▸ List.mem_singleton_self t)
    rcases mem_unionParts.1 hs with ⟨arms, harms, -⟩ | ⟨hs, -⟩
    · exact absurd (List.mem_singleton.1 harms).symm (hu t ht arms)
    · exact List.mem_singleton.1 hs ▸ ht
  · rw [unionOf, h] at hs
    exact hkept s (by simpa [unionParts] using hs)

/-- Neither type stands for the other. -/
def Distinct (s t : Ty) : Prop := isEquivalent s t = false

instance : Std.Symm Distinct where
  symm s t h := by rwa [Distinct, isEquivalent, Bool.and_comm, ← isEquivalent]

theorem eq_of_isEquivalent {arms : List Ty} {s t : Ty} (hd : arms.Pairwise Distinct) (hs : s ∈ arms)
    (ht : t ∈ arms) (h : isEquivalent s t = true) : s = t := by
  by_contra hne
  cases (hd.forall hs ht hne).symm.trans h

theorem addArm_distinct {kept : List Ty} (t : Ty) (h : kept.Pairwise Distinct) :
    (addArm kept t).Pairwise Distinct := by
  unfold addArm
  split
  next => exact h
  next hany =>
    have hall : ∀ s ∈ kept, Distinct s t := by simpa [Distinct] using hany
    exact List.pairwise_append.2 ⟨h, List.pairwise_singleton _ _, by simpa using hall⟩

theorem foldl_addArm_distinct {kept : List Ty} (ts : List Ty) (h : kept.Pairwise Distinct) :
    (ts.foldl addArm kept).Pairwise Distinct := by
  induction ts generalizing kept with
  | nil => exact h
  | cons t ts ih => exact ih (addArm_distinct t h)

theorem isEquivalent_refl (t : Ty) : isEquivalent t t = true := by
  rw [isEquivalent, isSubtype_refl, Bool.and_self]

/-- What is left out is equivalent to an arm that was kept. -/
theorem exists_isEquivalent_foldl_addArm {kept ts : List Ty} {t : Ty} (ht : t ∈ ts) :
    ∃ k ∈ ts.foldl addArm kept, isEquivalent k t = true := by
  induction ts generalizing kept with
  | nil => cases ht
  | cons u us ih =>
    rcases List.mem_cons.1 ht with rfl | ht
    · obtain ⟨k, hk, hkt⟩ := exists_mem_addArm (P := fun k => isEquivalent k t = true)
        (fun k (_ : k ∈ kept) h _ => h) (isEquivalent_refl t)
      exact ⟨k, mem_foldl_addArm_of_mem us hk, hkt⟩
    · exact ih ht

/-! ### Bounds -/

theorem isSubtype_ofArms {arms : List Ty} {a t : Ty} (ht : t ∈ arms)
    (h : isSubtype a t = true) : isSubtype a (ofArms arms) = true := by
  match arms with
  | [] => cases ht
  | [s] =>
    rw [List.mem_singleton] at ht
    exact ht ▸ h
  | s :: s' :: ss => exact isSubtype_union_of_mem ht h

/-- What is part of an error is part of everything. -/
theorem isSubtype_of_isSubtype_error {s : Ty} {cause : TypeError}
    (hs : isSubtype s (error cause) = true) (t : Ty) : isSubtype s t = true := by
  rcases isSubtype_error_iff.1 hs with rfl | h
  · exact isSubtype_never t
  · cases s with
    | error => exact isSubtype_error _ t
    | _ => cases h

theorem ofArms_isSubtype {arms : List Ty} {u : Ty} (hd : arms.Pairwise Distinct)
    (h : ∀ t ∈ arms, isSubtype t u = true) : isSubtype (ofArms arms) u = true := by
  match arms with
  | [] => exact isSubtype_never u
  | [t] => exact h t List.mem_cons_self
  | s :: t :: ts =>
    cases u with
    | error cause =>
      -- Two arms cannot both be part of an error.
      have hst : Distinct s t := (List.pairwise_cons.1 hd).1 t List.mem_cons_self
      have hequiv : isEquivalent s t = true := by
        rw [isEquivalent, isSubtype_of_isSubtype_error (h s (by simp)) t,
          isSubtype_of_isSubtype_error (h t (by simp)) s, Bool.and_self]
      cases hst.symm.trans hequiv
    | _ => exact isSubtype_unionLeft rfl h

/-- Every arm of several types is part of their union. -/
theorem isSubtype_unionOf_of_mem_unionParts {ts : List Ty} {s : Ty} (hs : s ∈ unionParts ts) :
    isSubtype s (unionOf ts) = true := by
  obtain ⟨k, hk, hks⟩ := exists_isEquivalent_foldl_addArm hs
  rw [isEquivalent, Bool.and_eq_true] at hks
  exact isSubtype_ofArms hk hks.2

/-- The union is part of what every arm is part of. -/
theorem unionOf_isSubtype_of_unionParts {ts : List Ty} {u : Ty}
    (h : ∀ s ∈ unionParts ts, isSubtype s u = true) : isSubtype (unionOf ts) u = true := by
  refine ofArms_isSubtype (foldl_addArm_distinct _ List.Pairwise.nil) fun t ht => ?_
  rcases mem_foldl_addArm ht with ht | ht
  · cases ht
  · exact h t ht

/-- The union of several types is part of what every one of them is part of. -/
theorem unionOf_isSubtype {ts : List Ty} {u : Ty} (h : ∀ t ∈ ts, isSubtype t u = true) :
    isSubtype (unionOf ts) u = true := by
  refine unionOf_isSubtype_of_unionParts fun s hs => ?_
  rcases mem_unionParts.1 hs with ⟨arms, harms, hs⟩ | ⟨hs, -, -⟩
  · exact isSubtype_of_unionLeft (h _ harms) hs
  · exact h s hs

/-- Each of several types is part of their union, unless it is a union and they amount to one
    error. -/
theorem isSubtype_unionOf_iff {ts : List Ty} {t : Ty} (ht : t ∈ ts) :
    isSubtype t (unionOf ts) = true ↔
      ¬((∃ arms, t = union arms) ∧ (unionOf ts).isError = true) := by
  constructor
  · rintro h ⟨⟨arms, rfl⟩, he⟩
    cases hu : unionOf ts with
    | error cause =>
      rw [hu, isSubtype_error_iff] at h
      simp [isError] at h
    | _ => simp [hu, isError] at he
  · intro he
    cases t with
    | never => exact isSubtype_never _
    | union arms =>
      have harms : ∀ arm ∈ arms, isSubtype arm (unionOf ts) = true := fun arm hm =>
        isSubtype_unionOf_of_mem_unionParts (mem_unionParts.2 (.inl ⟨arms, ht, hm⟩))
      exact isSubtype_unionLeft (Bool.eq_false_iff.2 fun h => he ⟨⟨arms, rfl⟩, h⟩) harms
    | _ =>
      exact isSubtype_unionOf_of_mem_unionParts (mem_unionParts.2 (.inr ⟨ht, by simp, by simp⟩))

/-- The union of some of several types is part of the union of all. -/
theorem unionOf_mono {ss ts : List Ty} (h : ∀ t ∈ ss, t ∈ ts) :
    isSubtype (unionOf ss) (unionOf ts) = true := by
  refine unionOf_isSubtype_of_unionParts fun s hs =>
    isSubtype_unionOf_of_mem_unionParts (mem_unionParts.2 ?_)
  rcases mem_unionParts.1 hs with ⟨arms, harms, hs⟩ | ⟨hs, hnu⟩
  · exact .inl ⟨arms, h _ harms, hs⟩
  · exact .inr ⟨h s hs, hnu⟩

/-- The union of several types is their least upper bound: each of them is part of it, except
    unions where all types amount to one error, and it is part of whatever all of them are part
    of.  So two lists of the same types in any order and number have equivalent unions. -/
theorem unionOf_leastUpperBound (ts : List Ty) :
    (∀ t ∈ ts, isSubtype t (unionOf ts) = true ↔
        ¬((∃ arms, t = union arms) ∧ (unionOf ts).isError = true)) ∧
      (∀ u, (∀ t ∈ ts, isSubtype t u = true) → isSubtype (unionOf ts) u = true) ∧
      ∀ ss, (∀ t, t ∈ ss ↔ t ∈ ts) → isEquivalent (unionOf ss) (unionOf ts) = true := by
  refine ⟨fun t ht => isSubtype_unionOf_iff ht, fun u h => unionOf_isSubtype h, fun ss h => ?_⟩
  rw [isEquivalent, Bool.and_eq_true]
  exact ⟨unionOf_mono fun t => (h t).1, unionOf_mono fun t => (h t).2⟩

/-- The union of two different errors. -/
def twoErrors : Ty := union [error { kind := .notAnExpression }, error { kind := .notCallable "1" }]

/-- A union of errors is no part of its own union, which is the first of them. -/
theorem twoErrors_not_isSubtype_unionOf :
    unionOf [twoErrors] = error { kind := .notAnExpression } ∧
      isSubtype twoErrors (unionOf [twoErrors]) = false := by
  have hunion : unionOf [twoErrors] = error { kind := .notAnExpression } := by
    simp [twoErrors, unionOf, unionParts, addArm, ofArms, isEquivalent, isSubtype_error]
  refine ⟨hunion, ?_⟩
  rw [hunion, Bool.eq_false_iff, Ne, isSubtype_error_iff]
  simp [twoErrors, isError]

/-! ### Normal form -/

/-- A type other than `never` and unions, which may be an arm of a union. -/
def UnionArm : Ty → Prop
  | never | union _ => False
  | _ => True

/-- A type other than `never`, `unknown`, unions and intersections, which may be an arm of an
    intersection. -/
def MeetArm : Ty → Prop
  | never | unknown | union _ | intersection _ => False
  | _ => True

theorem unionArm_of_ne {t : Ty} (hn : t ≠ never) (hu : ∀ arms, t ≠ union arms) : UnionArm t := by
  cases t with
  | never => exact hn rfl
  | union arms => exact hu arms rfl
  | _ => trivial

namespace MeetArm

theorem ne_unknown {t : Ty} (h : MeetArm t) : t ≠ .unknown := by
  rintro rfl
  exact h

theorem ne_union {t : Ty} (h : MeetArm t) (arms : List Ty) : t ≠ .union arms := by
  rintro rfl
  exact h

theorem ne_intersection {t : Ty} (h : MeetArm t) (arms : List Ty) : t ≠ .intersection arms := by
  rintro rfl
  exact h

end MeetArm

theorem meetArm_of_ne {t : Ty} (hn : t ≠ never) (hk : t ≠ unknown) (hu : ∀ arms, t ≠ union arms)
    (hi : ∀ arms, t ≠ intersection arms) : MeetArm t := by
  cases t with
  | never => exact hn rfl
  | unknown => exact hk rfl
  | union arms => exact hu arms rfl
  | intersection arms => exact hi arms rfl
  | _ => trivial

/-- A type in which, at any depth, unions and intersections have two arms or more, which are of
    other kinds and of which no two are equivalent, names of fields differ and singletons are of
    their base. -/
inductive Normal : Ty → Prop
  | never : Normal never
  | unknown : Normal unknown
  | undefined : Normal undefined
  | null : Normal null
  | boolean : Normal boolean
  | number : Normal number
  | string : Normal string
  | literal (l : Literal) : Normal (literal l)
  | tuple {items} (h : ∀ t ∈ items, Normal t) : Normal (tuple items)
  | array {item} (h : Normal item) : Normal (array item)
  | set {item} (h : Normal item) : Normal (set item)
  | map {key value} (hk : Normal key) (hv : Normal value) : Normal (map key value)
  | labelled {label args} (h : ∀ t ∈ args, Normal t) : Normal (labelled label args)
  | function {params result} (hp : ∀ t ∈ params, Normal t) (hr : Normal result) :
      Normal (function params result)
  | object {fields} (h : ∀ f ∈ fields, Normal f.ty) (hn : (fields.map Field.name).Nodup) :
      Normal (object fields)
  | module {exports} (h : ∀ e ∈ exports, Normal e.ty) (hn : (exports.map Export.name).Nodup) :
      Normal (module exports)
  | union {arms} (h : ∀ t ∈ arms, Normal t) (hu : ∀ t ∈ arms, UnionArm t) (hl : 2 ≤ arms.length)
      (hd : arms.Pairwise Distinct) : Normal (union arms)
  | intersection {arms} (h : ∀ t ∈ arms, Normal t) (hm : ∀ t ∈ arms, MeetArm t)
      (hl : 2 ≤ arms.length) (hd : arms.Pairwise Distinct) : Normal (intersection arms)
  | complement {t} (h : Normal t) : Normal (complement t)
  | error (cause : TypeError) : Normal (error cause)

namespace Normal

theorem of_object {fields : List (Field Ty)} : Normal (.object fields) →
    (∀ f ∈ fields, Normal f.ty) ∧ (fields.map Field.name).Nodup
  | object h hn => ⟨h, hn⟩

theorem of_union {arms : List Ty} : Normal (.union arms) → ∀ t ∈ arms, Normal t ∧ UnionArm t
  | union h hu _ _ => fun t ht => ⟨h t ht, hu t ht⟩

theorem of_intersection {arms : List Ty} :
    Normal (.intersection arms) → ∀ t ∈ arms, Normal t ∧ MeetArm t
  | intersection h hm _ _ => fun t ht => ⟨h t ht, hm t ht⟩

theorem of_complement {t : Ty} : Normal (.complement t) → Normal t
  | complement h => h

end Normal

/-! ### Unions -/

theorem normal_unionParts {ts : List Ty} (h : ∀ t ∈ ts, Normal t) :
    ∀ s ∈ unionParts ts, Normal s ∧ UnionArm s := by
  intro s hs
  rcases mem_unionParts.1 hs with ⟨arms, harms, hs⟩ | ⟨hs, hn, hu⟩
  · exact (h _ harms).of_union s hs
  · exact ⟨h s hs, unionArm_of_ne hn hu⟩

theorem normal_ofArms {arms : List Ty} (h : ∀ t ∈ arms, Normal t ∧ UnionArm t)
    (hd : arms.Pairwise Distinct) : Normal (ofArms arms) := by
  match arms with
  | [] => exact .never
  | [t] => exact (h t List.mem_cons_self).1
  | s :: t :: ts =>
    exact .union (fun t ht => (h t ht).1) (fun t ht => (h t ht).2) (by simp) hd

/-- The union of types in normal form is in normal form. -/
theorem normal_unionOf {ts : List Ty} (h : ∀ t ∈ ts, Normal t) : Normal (unionOf ts) := by
  refine normal_ofArms (fun t ht => ?_) (foldl_addArm_distinct _ List.Pairwise.nil)
  rcases mem_foldl_addArm ht with ht | ht
  · cases ht
  · exact normal_unionParts h t ht

end ReactiveDoc.Ty
