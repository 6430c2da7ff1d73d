import ReactiveDoc.Proofs.Ty.Sameness

namespace ReactiveDoc

/-!
# Disjoint types

* `DisjointBy`, `disjoint_cases` — the ways in which types come to be disjoint.
* `disjoint_comm` — being disjoint is symmetric.
* `disjoint_literal` — a single value is disjoint from what its primitive type is disjoint from.
* `Value.Atomic` — a value into which no type looks.
* `Value.Judged` — the values of which subtyping tells the truth: all of them where no field may
  be missing, and otherwise the atomic ones.
* `Ty.Described`, `Ty.Definite` — types that say which values they have, and those of them whose
  objects have all their fields.
* `Ty.not_contains_of_disjoint` — disjoint types have no value in common.
-/

namespace Ty

/-! ### Ways to be disjoint -/

/-- The last step by which `a` and `b` are found to be disjoint. -/
inductive DisjointBy : Ty → Ty → Prop
  | neverLeft {b} : DisjointBy never b
  | neverRight {a} : DisjointBy a never
  | unionLeft {arms b} (h : ∀ arm ∈ arms, disjoint arm b = true) : DisjointBy (union arms) b
  | unionRight {a arms} (h : ∀ arm ∈ arms, disjoint arm a = true) : DisjointBy a (union arms)
  | singletons {base l base' m} (h : same base base' = true → Literal.same l m = false) :
      DisjointBy (singleton base l) (singleton base' m)
  | fields {fs gs f g} (hf : f ∈ fs) (hg : g ∈ gs) (hn : g.name = f.name)
      (h : disjoint f.ty g.ty = true) : DisjointBy (object fs) (object gs)
  | kinds {a b} (h : kindsDiffer a b = true) : DisjointBy a b

theorem disjoint_cases {a b : Ty} (h : disjoint a b = true) : DisjointBy a b := by
  rw [disjoint.eq_def] at h
  split at h
  case h_1 => exact .neverLeft
  case h_2 => exact .neverRight
  case h_3 => exact .unionLeft (by simpa using h)
  case h_4 => exact .unionRight (by simpa using h)
  case h_5 => exact .singletons fun hb => by simpa [hb] using h
  case h_6 =>
    simp only [List.any_eq_true, List.mem_attach, true_and, Subtype.exists, Bool.and_eq_true,
      beq_iff_eq] at h
    obtain ⟨f, hf, g, hg, hn, h⟩ := h
    exact .fields hf hg hn h
  case h_7 => exact .kinds h

theorem disjoint_never (a : Ty) : disjoint a never = true := by
  rw [disjoint.eq_def]
  cases a <;> rfl

theorem disjoint_unionLeft {arms : List Ty} {b : Ty} :
    disjoint (union arms) b = true ↔ ∀ arm ∈ arms, disjoint arm b = true := by
  by_cases hb : b = never
  · simp [hb, disjoint_never]
  · rw [disjoint]
    · simp
    · exact hb

theorem kindsDiffer_comm (a b : Ty) : kindsDiffer a b = kindsDiffer b a := by
  unfold kindsDiffer
  cases kind? a <;> cases kind? b <;> simp [bne_comm]

theorem kind?_of_same_below (n : Nat) : ∀ a b : Ty, a.size < n →
    same a b = true → kind? a = kind? b := by
  induction n with
  | zero => intro a b hn; omega
  | succ n ih =>
    intro a b hn h
    cases same_cases h with
    | @singleton base _ base' _ hb =>
      simp only [size] at hn
      exact ih base base' (by omega) hb
    | _ => rfl

theorem kind?_of_same {a b : Ty} (h : same a b = true) : kind? a = kind? b :=
  kind?_of_same_below _ a b (Nat.lt_succ_self _) h

theorem disjoint_singletons {base base' : Ty} {l m : Literal}
    (h : same base base' = true → l.same m = false) :
    disjoint (singleton base l) (singleton base' m) = true := by
  rw [disjoint]
  cases hb : same base base' with
  | false => rfl
  | true => simp [h hb]

theorem disjoint_fields {fs gs : List (Field Ty)} {f g : Field Ty} (hf : f ∈ fs) (hg : g ∈ gs)
    (hn : g.name = f.name) (h : disjoint f.ty g.ty = true) :
    disjoint (object fs) (object gs) = true := by
  rw [disjoint]
  simpa using ⟨f, hf, g, hg, hn, h⟩

/-- Types of different kinds are disjoint. -/
theorem disjoint_kinds {a b : Ty} (h : kindsDiffer a b = true) : disjoint a b = true := by
  rw [disjoint.eq_def]
  split
  case h_3 | h_4 => simp [kindsDiffer, kind?] at h
  case h_5 base l base' m =>
    have hb : same base base' = false := by
      rw [Bool.eq_false_iff]
      intro hs
      have hk := kind?_of_same hs
      cases hkind : kind? base' <;> simp [kindsDiffer, kind?, hk, hkind] at h
    simp [hb]
  case h_6 => simp [kindsDiffer, kind?] at h
  case h_7 => exact h
  all_goals rfl

theorem disjoint_comm_below (n : Nat) : ∀ a b : Ty, a.size + b.size < n →
    disjoint a b = true → disjoint b a = true := by
  induction n with
  | zero => intro a b hn; omega
  | succ n ih =>
    intro a b hn h
    have hby := disjoint_cases h
    clear h
    cases hby with
    | neverLeft => exact disjoint_never b
    | neverRight => rw [disjoint]
    | unionRight h => exact disjoint_unionLeft.2 h
    -- Two unions are compared by the arms of the left one, so the arms of the right one have to be
    -- turned round one by one.
    | @unionLeft arms _ h =>
      have hall {b : Ty} (h : ∀ arm ∈ arms, disjoint arm b = true) :
          (arms.attach.all fun arm => disjoint arm.1 b) = true := by simpa using h
      cases b with
      | never => rw [disjoint]
      | union bs =>
        refine disjoint_unionLeft.2 fun b hb => ih _ _ ?_ (disjoint_unionLeft.2 fun arm hm => ?_)
        · have := size_le_sizeList hb
          simp only [size] at hn ⊢
          omega
        · have := size_le_sizeList hm
          have := size_le_sizeList hb
          simp only [size] at hn
          have harm := ih arm (union bs) (by simp only [size]; omega) (h arm hm)
          exact ih b arm (by omega) (disjoint_unionLeft.1 harm b hb)
      | _ =>
        rw [disjoint.eq_def]
        exact hall h
    | singletons h =>
      exact disjoint_singletons fun hb => (Literal.same_comm _ _).trans (h (same_symm hb))
    | @fields fs gs f g hf hg hn' h =>
      have := size_le_sizeFields hf
      have := size_le_sizeFields hg
      simp only [size] at hn
      exact disjoint_fields hg hf hn'.symm (ih f.ty g.ty (by omega) h)
    | kinds h => exact disjoint_kinds ((kindsDiffer_comm b a).trans h)

/-- Being disjoint is symmetric. -/
theorem disjoint_comm {a b : Ty} (h : disjoint a b = true) : disjoint b a = true :=
  disjoint_comm_below _ a b (Nat.lt_succ_self _) h

theorem disjoint_unionRight {a : Ty} {arms : List Ty} :
    disjoint a (union arms) = true ↔ ∀ arm ∈ arms, disjoint a arm = true := by
  refine ⟨fun h arm hm => ?_, fun h => ?_⟩
  · exact disjoint_comm (disjoint_unionLeft.1 (disjoint_comm h) arm hm)
  · exact disjoint_comm (disjoint_unionLeft.2 fun arm hm => disjoint_comm (h arm hm))

/-! ### Single values -/

theorem disjoint_literal_below (n : Nat) : ∀ (l : Literal) (t : Ty), t.size < n →
    disjoint (baseOf l) t = true → disjoint (literal l) t = true := by
  induction n with
  | zero => intro l t hn; omega
  | succ n ih =>
    intro l t hn h
    cases l with
    | boolean | number | string =>
      simp only [baseOf] at h
      cases disjoint_cases h with
      | neverRight => exact disjoint_never _
      | unionRight harms =>
        refine disjoint_unionRight.2 fun arm hm => ih _ arm ?_ (disjoint_comm (harms arm hm))
        have := size_le_sizeList hm
        simp only [size] at hn
        omega
      | kinds hk => exact disjoint_kinds hk

/-- A single value is disjoint from what its primitive type is disjoint from. -/
theorem disjoint_literal {l : Literal} {t : Ty} (h : disjoint (baseOf l) t = true) :
    disjoint (literal l) t = true :=
  disjoint_literal_below _ l t (Nat.lt_succ_self _) h

end Ty

namespace Value

/-- The value is neither an array nor an object, so that types go by its kind and contents alone. -/
def Atomic : Value → Prop
  | array _ _ | object _ _ => False
  | _ => True

/-- Either no field may be missing, or the value has none. -/
def Judged (optional : Bool) (v : Value) : Prop := optional = false ∨ v.Atomic

/-- Arrays are judged only where no field may be missing, and so is all that is in them. -/
theorem Judged.of_array {optional : Bool} {i : Identity} {vs : List Value} :
    (array i vs).Judged optional → optional = false
  | .inl h => h

theorem Judged.of_object {optional : Bool} {i : Identity} {entries : List (String × Value)} :
    (object i entries).Judged optional → optional = false
  | .inl h => h

end Value

namespace Ty

/-! ### Described types -/

/-- A type of primitives, well-formed singletons, tuples, arrays, functions, objects, unions,
    intersections and complements, and whether fields of its objects may have no value. -/
inductive Described (optional : Bool) : Ty → Prop
  | never : Described optional never
  | unknown : Described optional unknown
  | undefined : Described optional undefined
  | null : Described optional null
  | boolean : Described optional boolean
  | number : Described optional number
  | string : Described optional string
  | literal (l : Literal) : Described optional (literal l)
  | tuple {items} (h : ∀ t ∈ items, Described optional t) : Described optional (tuple items)
  | array {item} (h : Described optional item) : Described optional (array item)
  | function {params result} (hp : ∀ t ∈ params, Described optional t)
      (hr : Described optional result) : Described optional (function params result)
  | object {fields} (h : ∀ f ∈ fields, Described optional f.ty)
      (hu : optional = false → ∀ f ∈ fields, ¬ Contains Literal.Alike f.ty .undefined) :
      Described optional (object fields)
  | union {arms} (h : ∀ t ∈ arms, Described optional t) : Described optional (union arms)
  | intersection {arms} (h : ∀ t ∈ arms, Described optional t) :
      Described optional (intersection arms)
  | complement {t} (h : Described optional t) : Described optional (complement t)

/-- A described type whose objects have no field that may be `undefined`. -/
abbrev Definite : Ty → Prop := Described false

variable {optional : Bool} {a b : Ty} {v : Value}

theorem baseOf_eq_of_same {l m : Literal} (h : l.same m = true) : baseOf l = baseOf m := by
  cases l <;> cases m <;> simp_all [Literal.same, baseOf]

namespace Described

theorem of_tuple {items : List Ty} :
    Described optional (.tuple items) → ∀ t ∈ items, Described optional t
  | tuple h => h

theorem of_array {item : Ty} : Described optional (.array item) → Described optional item
  | array h => h

theorem of_object {fields : List (Field Ty)} :
    Described optional (.object fields) → ∀ f ∈ fields, Described optional f.ty
  | object h _ => h

/-- The fields of a definite object have values. -/
theorem not_contains_undefined {fields : List (Field Ty)} :
    Described optional (.object fields) → optional = false →
      ∀ f ∈ fields, ¬ Contains Literal.Alike f.ty .undefined
  | object _ hu => hu

theorem of_union {arms : List Ty} :
    Described optional (.union arms) → ∀ t ∈ arms, Described optional t
  | union h => h

theorem of_intersection {arms : List Ty} :
    Described optional (.intersection arms) → ∀ t ∈ arms, Described optional t
  | intersection h => h

theorem of_complement {t : Ty} : Described optional (.complement t) → Described optional t
  | complement h => h

/-- A type of one kind has values of that kind only. -/
theorem kind_eq (ha : Described optional a) {k : Kind} (hk : kind? a = some k)
    (hv : Contains Literal.Alike a v) : v.kind = k := by
  cases ha with
  | never | unknown | union | intersection | complement => cases hk
  | undefined | null =>
    cases hk
    cases hv
    rfl
  | boolean | number | string =>
    cases hk
    obtain ⟨_, rfl⟩ := hv
    rfl
  | tuple | array =>
    cases hk
    obtain ⟨_, _, rfl, -⟩ := hv
    rfl
  | function =>
    cases hk
    obtain ⟨_, _, rfl⟩ := hv
    rfl
  | object =>
    cases hk
    obtain ⟨⟨_, _, rfl⟩, -⟩ := hv
    rfl
  | literal l =>
    obtain ⟨m, hm, rfl⟩ := hv
    rw [Ty.literal, kind?, ← baseOf_eq_of_same hm] at hk
    cases m <;> cases hk <;> rfl

end Described

/-! ### Disjoint types -/

theorem not_contains_of_disjoint_below (n : Nat) : ∀ {a b : Ty} {v : Value},
    a.size + b.size < n → Described optional a → Described optional b → disjoint a b = true →
      Contains Literal.Alike a v → ¬ Contains Literal.Alike b v := by
  induction n with
  | zero => intro a b v hn; omega
  | succ n ih =>
    intro a b v hn ha hb h hav hbv
    have hby := disjoint_cases h
    clear h
    cases hby with
    | neverLeft => exact hav
    | neverRight => exact hbv
    | unionLeft h =>
      obtain ⟨arm, hm, hv⟩ := contains_union.1 hav
      have := size_le_sizeList hm
      simp only [size] at hn
      exact ih (by omega) (ha.of_union arm hm) hb (h arm hm) hv hbv
    -- The sides change places, which the sum of sizes allows for.
    | unionRight h =>
      obtain ⟨arm, hm, hv⟩ := contains_union.1 hbv
      have := size_le_sizeList hm
      simp only [size] at hn
      exact ih (by omega) (hb.of_union arm hm) ha (h arm hm) hv hav
    | @singletons base l base' m h =>
      obtain ⟨x, hx, rfl⟩ := hav
      obtain ⟨y, hy, hxy⟩ := hbv
      obtain rfl := Value.ofLiteral_inj hxy
      have hlm : l.same m = true := Literal.same_trans ((Literal.same_comm l x).trans hx) hy
      cases ha
      cases hb
      rw [baseOf_eq_of_same hlm] at h
      cases (h (same_refl _)).symm.trans hlm
    -- One field of that name would have to be of both types.
    | @fields fs gs f g hf hg hname h =>
      have := size_le_sizeFields hf
      have := size_le_sizeFields hg
      simp only [size] at hn
      exact ih (by omega) (ha.of_object f hf) (hb.of_object g hg) h ((contains_object.1 hav).2 f hf)
        (hname ▸ (contains_object.1 hbv).2 g hg)
    | kinds h =>
      unfold kindsDiffer at h
      split at h
      next k l hk hl =>
        rw [← ha.kind_eq hk hav, ← hb.kind_eq hl hbv] at h
        simp at h
      next => cases h

/-- Disjoint types have no value in common. -/
theorem not_contains_of_disjoint (ha : Described optional a) (hb : Described optional b)
    (h : disjoint a b = true) (hv : Contains Literal.Alike a v) : ¬ Contains Literal.Alike b v :=
  not_contains_of_disjoint_below _ (Nat.lt_succ_self _) ha hb h hv

end Ty

end ReactiveDoc
