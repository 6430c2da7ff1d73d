import ReactiveDoc.Proofs.Ty.Disjointness
import ReactiveDoc.Proofs.Ty.Subtyping

namespace ReactiveDoc.Ty

/-!
# Subtyping by arms

Rules of subtyping that hold of all types, however they are built.

* `isSubtype_refl`, `isSubtype_never`, `isSubtype_unknown`, `isSubtype_error` — bounds.
* `isSubtype_literal` — a single value is part of what its primitive type is part of.
* `isSubtype_unionLeft`, `isSubtype_of_unionLeft` — a union is part of a type through all its arms.
* `isSubtype_union_of_mem` — what is part of an arm is part of the union.
* `isSubtype_intersectionRight`, `isSubtype_intersection_of_mem` — the same of intersections.

Subtyping is not transitive, so none of them follows from the bounds.
-/

/-! ### Bounds -/

theorem isSubtype_of_same {a b : Ty} (h : same a b = true) : isSubtype a b = true := by
  rw [isSubtype.eq_def, h, Bool.true_or]

/-- Every type is a subtype of itself. -/
theorem isSubtype_refl (a : Ty) : isSubtype a a = true := isSubtype_of_same (same_refl a)

theorem isSubtype_never (b : Ty) : isSubtype never b = true := by
  rw [isSubtype.eq_def, Bool.or_eq_true]
  exact .inr rfl

theorem isSubtype_unknown (a : Ty) : isSubtype a unknown = true := by
  rw [isSubtype.eq_def, Bool.or_eq_true]
  cases a <;> exact .inr rfl

theorem isSubtype_error (cause : TypeError) (b : Ty) : isSubtype (error cause) b = true := by
  rw [isSubtype.eq_def, Bool.or_eq_true]
  cases b <;> exact .inr rfl

/-- Only `never` and errors are part of an error. -/
theorem isSubtype_error_iff {a : Ty} {cause : TypeError} :
    isSubtype a (error cause) = true ↔ a = never ∨ a.isError = true := by
  constructor
  · intro h
    rw [isSubtype.eq_def, Bool.or_eq_true] at h
    cases a with
    | never => exact .inl rfl
    | error => exact .inr rfl
    | _ => simp [same] at h
  · rintro (rfl | h)
    · exact isSubtype_never _
    · cases a with
      | error => exact isSubtype_error _ _
      | _ => cases h

/-! ### Unions on the left -/

/-- A union is part of a type if all its arms are; of an error nothing but errors is part. -/
theorem isSubtype_unionLeft {arms : List Ty} {b : Ty} (hb : b.isError = false)
    (h : ∀ arm ∈ arms, isSubtype arm b = true) : isSubtype (union arms) b = true := by
  have hall : (arms.attach.all fun arm => isSubtype arm.1 b) = true := by simpa using h
  rw [isSubtype.eq_def, Bool.or_eq_true]
  cases b with
  | unknown => exact .inr rfl
  | error => cases hb
  | _ => exact .inr hall

/-- A union is part of a type if it equals it or if all its arms are part of it. -/
theorem same_or_forall_arms {ts : List Ty} {b : Ty} (h : isSubtype (union ts) b = true) :
    same (union ts) b = true ∨ ∀ t ∈ ts, isSubtype t b = true := by
  rw [isSubtype.eq_def, Bool.or_eq_true] at h
  refine h.imp_right fun h => ?_
  have hall : ∀ (h : (ts.attach.all fun t => isSubtype t.1 b) = true),
      ∀ t ∈ ts, isSubtype t b = true := by
    intro h
    simpa using h
  cases b with
  | unknown => exact fun t _ => isSubtype_unknown t
  | error => cases h
  | _ => exact hall h

/-! ### Unions on the right -/

/-- A primitive type is part of no single value. -/
theorem not_isSubtype_singleton (l m : Literal) (base : Ty) :
    isSubtype (baseOf l) (singleton base m) = false := by
  rw [Bool.eq_false_iff]
  intro h
  cases l <;> simp only [baseOf] at h <;> cases isSubtype_cases h with
  | same h => simp [same] at h

theorem isSubtype_booleanUnion {arms : List Ty} {s t : Ty} (hs : s ∈ arms)
    (hst : isSubtype (ofBool true) s = true) (ht : t ∈ arms)
    (htf : isSubtype (ofBool false) t = true) : isSubtype boolean (union arms) = true := by
  have hall : ((arms.attach.any fun arm => isSubtype (ofBool true) arm.1) &&
      arms.attach.any fun arm => isSubtype (ofBool false) arm.1) = true := by
    simpa using ⟨⟨s, hs, hst⟩, t, ht, htf⟩
  rw [isSubtype.eq_def, Bool.or_eq_true]
  exact .inr hall

/-- What is neither a union nor `boolean` is part of a union if it is part of an arm. -/
theorem isSubtype_arm {arms : List Ty} {a arm : Ty} (hm : arm ∈ arms)
    (h : isSubtype a arm = true) (hu : ∀ ts, a ≠ union ts) (hb : a ≠ boolean) :
    isSubtype a (union arms) = true := by
  have hany : (arms.attach.any fun arm => isSubtype a arm.1) = true := by
    simpa using ⟨arm, hm, h⟩
  rw [isSubtype.eq_def, Bool.or_eq_true]
  cases a with
  | never | error => exact .inr rfl
  | union ts => exact absurd rfl (hu ts)
  | boolean => exact absurd rfl hb
  | _ => exact .inr hany

theorem literal_ne_union (l : Literal) (ts : List Ty) : literal l ≠ union ts := by
  intro h
  cases h

theorem literal_ne_boolean (l : Literal) : literal l ≠ boolean := by
  intro h
  cases h

/-- A single value is part of an intersection whose arms it is part of. -/
theorem isSubtype_literal_intersection {l : Literal} {arms : List Ty}
    (h : ∀ arm ∈ arms, isSubtype (literal l) arm = true) :
    isSubtype (literal l) (intersection arms) = true := by
  have hall : (arms.attach.all fun arm => isSubtype (literal l) arm.1) = true := by simpa using h
  rw [isSubtype.eq_def, Bool.or_eq_true]
  exact .inr hall

theorem isSubtype_literal_below (n : Nat) : ∀ (l : Literal) (b : Ty), b.size < n →
    isSubtype (baseOf l) b = true → isSubtype (literal l) b = true := by
  induction n with
  | zero => intro l b hn; omega
  | succ n ih =>
    intro l b hn h
    cases b with
    | unknown => exact isSubtype_unknown _
    | singleton base m => rw [not_isSubtype_singleton] at h; cases h
    | error cause =>
      rw [isSubtype_error_iff] at h
      cases l <;> simp [baseOf, isError] at h
    | complement t =>
      have hd : disjoint (baseOf l) t = true := by
        cases l <;> cases isSubtype_cases h with
        | same h => simp [baseOf, same] at h
        | apart h => exact h
      rw [isSubtype.eq_def, Bool.or_eq_true]
      exact .inr (disjoint_literal hd)
    | intersection arms =>
      refine isSubtype_literal_intersection fun arm hm => ih l arm ?_ ?_
      · have := size_le_sizeList hm
        simp only [size] at hn
        omega
      · cases l <;> cases isSubtype_cases h with
        | same h => simp [baseOf, same] at h
        | intersectionRight h => exact h arm hm
    | union arms =>
      have harm : ∀ arm ∈ arms, isSubtype (literal l) arm = true →
          isSubtype (literal l) (union arms) = true := fun arm hm h =>
        isSubtype_arm hm h (literal_ne_union l) (literal_ne_boolean l)
      have hsize : ∀ arm ∈ arms, arm.size < n := by
        intro arm hm
        have := size_le_sizeList hm
        simp only [size] at hn
        omega
      cases l with
      -- Both values of the boolean type may be arms, of which the singleton is one.
      | boolean b =>
        cases isSubtype_cases h with
        | same h => simp [baseOf, same] at h
        | boolean hs hst ht htf =>
          cases b with
          | true => exact harm _ hs hst
          | false => exact harm _ ht htf
        | unionRight hm h => exact harm _ hm (ih _ _ (hsize _ hm) h)
      | number | string =>
        cases isSubtype_cases h with
        | same h => simp [baseOf, same] at h
        | unionRight hm h => exact harm _ hm (ih _ _ (hsize _ hm) h)
    | _ =>
      rw [isSubtype.eq_def, Bool.or_eq_true]
      exact .inr h

/-- A single value of a primitive type is part of what the primitive type is part of. -/
theorem isSubtype_literal {l : Literal} {b : Ty} (h : isSubtype (baseOf l) b = true) :
    isSubtype (literal l) b = true :=
  isSubtype_literal_below _ l b (Nat.lt_succ_self _) h

theorem isSubtype_union_of_mem_below (n : Nat) : ∀ {a : Ty} {arms : List Ty} {arm : Ty},
    a.size < n → arm ∈ arms → isSubtype a arm = true → isSubtype a (union arms) = true := by
  induction n with
  | zero => intro a arms arm hn; omega
  | succ n ih =>
    intro a arms arm hn hm h
    by_cases hb : a = boolean
    · subst hb
      exact isSubtype_booleanUnion hm (isSubtype_literal h) hm (isSubtype_literal h)
    by_cases hu : ∃ ts, a = union ts
    · obtain ⟨ts, rfl⟩ := hu
      refine isSubtype_unionLeft rfl fun t ht => ?_
      have hsize : t.size < n := by
        have := size_le_sizeList ht
        simp only [size] at hn
        omega
      refine ih hsize hm ?_
      rcases same_or_forall_arms h with h | h
      · -- The union equals the arm, so one of the arm's own arms equals `t`.
        cases arm with
        | union us =>
          simp only [same] at h
          obtain ⟨u, hu, htu⟩ := exists_mem_of_sameList h t ht
          exact ih hsize hu (isSubtype_of_same htu)
        | _ => simp [same] at h
      · exact h t ht
    · exact isSubtype_arm hm h (fun ts hts => hu ⟨ts, hts⟩) hb

/-- What is part of an arm is part of the union. -/
theorem isSubtype_union_of_mem {a : Ty} {arms : List Ty} {arm : Ty} (hm : arm ∈ arms)
    (h : isSubtype a arm = true) : isSubtype a (union arms) = true :=
  isSubtype_union_of_mem_below _ (Nat.lt_succ_self _) hm h

/-- Every arm is part of a type that the union is part of. -/
theorem isSubtype_of_unionLeft {ts : List Ty} {b t : Ty} (h : isSubtype (union ts) b = true)
    (ht : t ∈ ts) : isSubtype t b = true := by
  rcases same_or_forall_arms h with h | h
  · cases b with
    | union us =>
      simp only [same] at h
      obtain ⟨u, hu, htu⟩ := exists_mem_of_sameList h t ht
      exact isSubtype_union_of_mem hu (isSubtype_of_same htu)
    | _ => simp [same] at h
  · exact h t ht

/-! ### Intersections -/

theorem isSubtype_intersectionRight_below (n : Nat) : ∀ {a : Ty} {arms : List Ty}, a.size < n →
    (∀ arm ∈ arms, isSubtype a arm = true) → isSubtype a (intersection arms) = true := by
  induction n with
  | zero => intro a arms hn; omega
  | succ n ih =>
    intro a arms hn h
    have hall : (arms.attach.all fun arm => isSubtype a arm.1) = true := by simpa using h
    cases a with
    | union ts =>
      refine isSubtype_unionLeft rfl fun t ht => ih ?_ fun arm hm => ?_
      · have := size_le_sizeList ht
        simp only [size] at hn
        omega
      · exact isSubtype_of_unionLeft (h arm hm) ht
    | _ =>
      rw [isSubtype.eq_def, Bool.or_eq_true]
      first | exact .inr rfl | exact .inr hall

/-- What is part of all arms is part of the intersection. -/
theorem isSubtype_intersectionRight {a : Ty} {arms : List Ty}
    (h : ∀ arm ∈ arms, isSubtype a arm = true) : isSubtype a (intersection arms) = true :=
  isSubtype_intersectionRight_below _ (Nat.lt_succ_self _) h

/-- An intersection is part of what an arm is part of, where that is a single type. -/
theorem isSubtype_intersection_of_mem {arms : List Ty} {arm b : Ty} (hm : arm ∈ arms)
    (h : isSubtype arm b = true) (hb : b.isError = false) (hu : ∀ ts, b ≠ union ts)
    (hi : ∀ ts, b ≠ intersection ts) : isSubtype (intersection arms) b = true := by
  have hany : (arms.attach.any fun arm => isSubtype arm.1 b) = true := by
    simpa using ⟨arm, hm, h⟩
  rw [isSubtype.eq_def, Bool.or_eq_true]
  cases b with
  | unknown => exact .inr rfl
  | error => cases hb
  | union ts => exact absurd rfl (hu ts)
  | intersection ts => exact absurd rfl (hi ts)
  | _ => exact .inr hany

end ReactiveDoc.Ty
