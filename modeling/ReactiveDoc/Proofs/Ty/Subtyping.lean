import ReactiveDoc.Proofs.Traversal
import ReactiveDoc.Proofs.Ty.Disjointness

namespace ReactiveDoc.Ty

/-!
# Subtypes and unions contain the values

* `SubtypeBy`, `isSubtype_cases` — the ways in which a type comes to be a subtype.
* `WellFormed`, `Regular` — types with well-formed singletons, and those of them whose objects have
  all their fields.
* `Described.contains_of_isSubtype`, `contains_of_isSubtype` — a value of a subtype is a value of
  the type.
* `contains_unionOf_iff`, `Mergeable.contains_unionOf` — the values of a union are those of its
  types.
-/

/-! ### Ways to be a subtype -/

/-- The last step by which `a` is found to be a subtype of `b`. -/
inductive SubtypeBy : Ty → Ty → Prop
  | same {a b} (h : same a b = true) : SubtypeBy a b
  | never {b} : SubtypeBy never b
  | unknown {a} : SubtypeBy a unknown
  | error {cause b} : SubtypeBy (error cause) b
  | unionLeft {arms b} (h : ∀ arm ∈ arms, isSubtype arm b = true) : SubtypeBy (union arms) b
  | intersectionRight {a arms} (h : ∀ arm ∈ arms, isSubtype a arm = true) :
      SubtypeBy a (intersection arms)
  | boolean {arms s t} (hs : s ∈ arms) (hst : isSubtype (ofBool true) s = true) (ht : t ∈ arms)
      (htf : isSubtype (ofBool false) t = true) : SubtypeBy boolean (union arms)
  | unionRight {a arms arm} (hm : arm ∈ arms) (h : isSubtype a arm = true) :
      SubtypeBy a (union arms)
  | intersectionLeft {arms b arm} (hm : arm ∈ arms) (h : isSubtype arm b = true) :
      SubtypeBy (intersection arms) b
  | complements {a b} (h : isSubtype b a = true) : SubtypeBy (complement a) (complement b)
  | apart {a b} (h : disjoint a b = true) : SubtypeBy a (complement b)
  | singletons {base l base' m} (hb : Ty.same base base' = true) (h : l.same m = true) :
      SubtypeBy (singleton base l) (singleton base' m)
  | base {base l b} (h : isSubtype base b = true) : SubtypeBy (singleton base l) b
  | array {a b} (h : isSubtype a b = true) : SubtypeBy (array a) (array b)
  | set {a b} (h : isSubtype a b = true) : SubtypeBy (set a) (set b)
  | map {k v k' v'} (hk : isSubtype k' k = true) (hv : isSubtype v v' = true) :
      SubtypeBy (map k v) (map k' v')
  | tuple {as bs} (h : isSubtypeList as bs = true) : SubtypeBy (tuple as) (tuple bs)
  | items {as b} (h : ∀ a ∈ as, isSubtype a b = true) : SubtypeBy (tuple as) (array b)
  | object {fs gs}
      (h : ∀ g ∈ gs, isSubtype (((object fs).field? g.name).getD undefined) g.ty = true) :
      SubtypeBy (object fs) (object gs)
  | module {es gs}
      (h : ∀ g ∈ gs, isSubtype (((module es).field? g.name).getD undefined) g.ty = true) :
      SubtypeBy (module es) (module gs)
  | exports {es gs}
      (h : ∀ g ∈ gs, isSubtype (((module es).field? g.name).getD undefined) g.ty = true) :
      SubtypeBy (module es) (object gs)
  | function {as r bs s} (hp : isSubtypeList bs as = true) (hr : isSubtype r s = true) :
      SubtypeBy (function as r) (function bs s)
  | labelled {label as bs} (h : isSubtypeList as bs = true) :
      SubtypeBy (labelled label as) (labelled label bs)

theorem isSubtype_cases {a b : Ty} (h : isSubtype a b = true) : SubtypeBy a b := by
  rw [isSubtype.eq_def, Bool.or_eq_true] at h
  rcases h with h | h
  · exact .same h
  -- One case for each equation of the definition, in its order.
  split at h
  case h_1 => exact .never
  case h_2 => exact .unknown
  case h_3 => exact .error
  case h_4 => cases h
  case h_5 => exact .unionLeft (by simpa using h)
  case h_6 => exact .intersectionRight (by simpa using h)
  case h_7 =>
    simp only [Bool.and_eq_true, List.any_eq_true, List.mem_attach, true_and, Subtype.exists] at h
    obtain ⟨⟨s, hs, hst⟩, t, ht, htf⟩ := h
    exact .boolean hs hst ht htf
  case h_8 =>
    simp only [List.any_eq_true, List.mem_attach, true_and, Subtype.exists] at h
    obtain ⟨arm, hm, h⟩ := h
    exact .unionRight hm h
  case h_9 =>
    simp only [List.any_eq_true, List.mem_attach, true_and, Subtype.exists] at h
    obtain ⟨arm, hm, h⟩ := h
    exact .intersectionLeft hm h
  case h_10 => exact .complements h
  case h_11 => exact .apart h
  case h_12 => cases h
  case h_13 =>
    simp only [Bool.and_eq_true] at h
    exact .singletons h.1 h.2
  case h_14 => exact .base h
  case h_15 => exact .array h
  case h_16 => exact .set h
  case h_17 =>
    simp only [Bool.and_eq_true] at h
    exact .map h.1 h.2
  case h_18 => exact .tuple h
  case h_19 => exact .items (by simpa using h)
  case h_20 =>
    -- A field that the left type does not have counts as one that is undefined.
    refine .object fun g hg => ?_
    simp only [List.all_eq_true, List.mem_attach, true_imp_iff, Subtype.forall] at h
    have hg := h g hg
    split at hg
    next f hf => simpa only [field?, hf, Option.map_some, Option.getD_some] using hg
    next hf => simpa only [field?, hf, Option.map_none, Option.getD_none] using hg
  case h_21 =>
    refine .module fun g hg => ?_
    simp only [List.all_eq_true, List.mem_attach, true_imp_iff, Subtype.forall] at h
    have hg := h g hg
    split at hg
    next f hf => simpa only [field?, hf, Option.map_some, Option.getD_some] using hg
    next hf => simpa only [field?, hf, Option.map_none, Option.getD_none] using hg
  case h_22 =>
    refine .exports fun g hg => ?_
    simp only [List.all_eq_true, List.mem_attach, true_imp_iff, Subtype.forall] at h
    have hg := h g hg
    split at hg
    next f hf => simpa only [field?, hf, Option.map_some, Option.getD_some] using hg
    next hf => simpa only [field?, hf, Option.map_none, Option.getD_none] using hg
  case h_23 =>
    simp only [Bool.and_eq_true] at h
    exact .function h.1 h.2
  case h_24 =>
    simp only [Bool.and_eq_true, beq_iff_eq] at h
    obtain ⟨rfl, h⟩ := h
    exact .labelled h
  case h_25 => cases h

/-! ### Regular types -/

/-- A type of primitives, well-formed singletons, tuples, arrays, functions, unions and objects,
    and whether fields of its objects may be missing. -/
inductive Formed (optional : Bool) : Ty → Prop
  | never : Formed optional never
  | unknown : Formed optional unknown
  | undefined : Formed optional undefined
  | null : Formed optional null
  | boolean : Formed optional boolean
  | number : Formed optional number
  | string : Formed optional string
  | literal (l : Literal) : Formed optional (literal l)
  | tuple {items} (h : ∀ t ∈ items, Formed optional t) : Formed optional (tuple items)
  | array {item} (h : Formed optional item) : Formed optional (array item)
  | function {params result} (hp : ∀ t ∈ params, Formed optional t) (hr : Formed optional result) :
      Formed optional (function params result)
  | object {fields} (h : ∀ f ∈ fields, Formed optional f.ty)
      (hu : optional = false → ∀ f ∈ fields, isSubtype Ty.undefined f.ty = false) :
      Formed optional (object fields)
  | union {arms} (h : ∀ t ∈ arms, Formed optional t) : Formed optional (union arms)

/-- A type whose singletons are well-formed. -/
abbrev WellFormed : Ty → Prop := Formed true

/-- A well-formed type none of whose fields may be missing. -/
abbrev Regular : Ty → Prop := Formed false

namespace Formed

variable {optional : Bool}

theorem of_tuple {items : List Ty} : Formed optional (.tuple items) → ∀ t ∈ items, Formed optional t
  | tuple h => h

theorem of_array {item : Ty} : Formed optional (.array item) → Formed optional item
  | array h => h

theorem of_union {arms : List Ty} : Formed optional (.union arms) → ∀ t ∈ arms, Formed optional t
  | union h => h

/-- A regular type is well-formed. -/
theorem wellFormed {t : Ty} (h : Formed optional t) : WellFormed t := by
  induction h with
  | object _ _ ih => exact .object ih nofun
  | literal l => exact .literal l
  | tuple _ ih => exact .tuple ih
  | array _ ih => exact .array ih
  | function _ _ ihp ihr => exact .function ihp ihr
  | union _ ih => exact .union ih
  | _ => constructor

end Formed

theorem size_literal (l : Literal) : (literal l).size = 2 := by
  cases l <;> rfl

/-- A literal's type is a part of the primitive type it belongs to. -/
theorem contains_baseOf {agree : Literal → Literal → Prop} (l : Literal) :
    Contains agree (baseOf l) (Value.ofLiteral l) := by
  cases l <;> simp [baseOf, Contains, Value.ofLiteral]

/-- A value that is the very literal of each singleton has its contents as well. -/
theorem Formed.contains_alike {optional : Bool} {t : Ty} (h : Formed optional t) {v : Value}
    (hv : Contains Eq t v) : Contains Literal.Alike t v := by
  induction h generalizing v with
  | never | unknown | undefined | null | boolean | number | string | function => exact hv
  | literal l =>
    obtain ⟨m, rfl, rfl⟩ := hv
    exact contains_literal (Literal.Alike.refl m)
  | tuple _ ih =>
    obtain ⟨i, vs, rfl, hvs⟩ := contains_tuple.1 hv
    exact contains_tuple.2 ⟨i, vs, rfl, forall₂_mono hvs fun t ht w => ih t ht⟩
  | array _ ih =>
    obtain ⟨i, vs, rfl, hvs⟩ := hv
    exact ⟨i, vs, rfl, fun w hw => ih (hvs w hw)⟩
  | object _ _ ih =>
    obtain ⟨ho, hfs⟩ := contains_object.1 hv
    exact contains_object.2 ⟨ho, fun f hf => ih f hf (hfs f hf)⟩
  | union _ ih =>
    obtain ⟨t, ht, htv⟩ := contains_union.1 hv
    exact contains_union.2 ⟨t, ht, ih t ht htv⟩

/-- The contents of a value that is neither a number nor has parts tell what literal it is. -/
theorem Formed.contains_of_alike {optional : Bool} {t : Ty} (h : Formed optional t) {v : Value}
    (hnumber : v.kind ≠ .number) (hobject : v.kind ≠ .object) (hv : Contains Literal.Alike t v) :
    Contains Eq t v := by
  induction h with
  | never | unknown | undefined | null | boolean | number | string | function => exact hv
  | literal l =>
    obtain ⟨m, hm, rfl⟩ := hv
    obtain rfl | ⟨x, y, rfl, -⟩ := Literal.same_iff.1 hm
    · exact contains_literal rfl
    · exact absurd rfl hnumber
  | tuple =>
    obtain ⟨i, vs, rfl, -⟩ := contains_tuple.1 hv
    exact absurd rfl hobject
  | array =>
    obtain ⟨i, vs, rfl, -⟩ := hv
    exact absurd rfl hobject
  | object =>
    obtain ⟨⟨i, entries, rfl⟩, -⟩ := contains_object.1 hv
    exact absurd rfl hobject
  | union _ ih =>
    obtain ⟨t, ht, htv⟩ := contains_union.1 hv
    exact contains_union.2 ⟨t, ht, ih t ht htv⟩

/-! ### Subtypes -/

/-- What holds of the values of all smaller pairs of types. -/
def ContainsBelow (n : Nat) : Prop :=
  ∀ {optional : Bool} {a b : Ty} {v : Value}, a.size + b.size < n → Described optional a →
    Described optional b → v.Judged optional → isSubtype a b = true →
      Contains Literal.Alike a v → Contains Literal.Alike b v

theorem containsEach_of_isSubtypeList {n : Nat} (ih : ContainsBelow n) {as bs : List Ty}
    {vs : List Value} (hn : sizeList as + sizeList bs < n) (ha : ∀ a ∈ as, Definite a)
    (hb : ∀ b ∈ bs, Definite b) (h : isSubtypeList as bs = true)
    (hv : ContainsEach Literal.Alike as vs) : ContainsEach Literal.Alike bs vs := by
  induction as generalizing bs vs with
  | nil =>
    cases bs with
    | nil => exact hv
    | cons b bs => simp [isSubtypeList] at h
  | cons a as iha =>
    cases bs with
    | nil => simp [isSubtypeList] at h
    | cons b bs =>
      simp only [isSubtypeList, Bool.and_eq_true] at h
      simp only [sizeList] at hn
      simp only [List.forall_mem_cons] at ha hb
      obtain ⟨w, ws, rfl, hw, hws⟩ := hv
      exact ⟨w, ws, rfl, ih (by omega) ha.1 hb.1 (.inl rfl) h.1 hw,
        iha (by omega) ha.2 hb.2 h.2 hws⟩

/-- A field that an object type has need not be looked for elsewhere. -/
theorem field?_of_isSubtype {fs : List (Field Ty)} {name : String} {t : Ty}
    (ht : isSubtype undefined t = false)
    (h : isSubtype (((object fs).field? name).getD undefined) t = true) :
    ∃ f ∈ fs, f.name = name ∧ isSubtype f.ty t = true := by
  simp only [field?] at h
  cases hf : fs.find? fun f => f.name == name with
  | none => simp [hf, ht] at h
  | some f =>
    have hname : f.name = name := by simpa using List.find?_some hf
    exact ⟨f, List.mem_of_find?_eq_some hf, hname, by simpa [hf] using h⟩

theorem described_baseOf (optional : Bool) (l : Literal) : Described optional (baseOf l) := by
  cases l <;> constructor

theorem contains_of_isSubtype_below (n : Nat) : ContainsBelow n := by
  induction n with
  | zero => intro optional a b v h; omega
  | succ n ih =>
    intro optional a b v hn ha hb hj h hv
    have hby := isSubtype_cases h
    clear h
    cases hby with
    | same h => exact (contains_congr a h).1 hv
    | never => exact hv.elim
    | unknown => trivial
    | error | set | map | module | labelled | exports => cases ha
    | unionLeft h =>
      obtain ⟨arm, hm, hv⟩ := contains_union.1 hv
      have := size_le_sizeList hm
      simp only [size] at hn
      exact ih (by omega) (ha.of_union arm hm) hb hj (h arm hm) hv
    | intersectionRight h =>
      refine contains_intersection.2 fun arm hm => ?_
      have := size_le_sizeList hm
      simp only [size] at hn
      exact ih (by omega) ha (hb.of_intersection arm hm) hj (h arm hm) hv
    | boolean hs hst ht htf =>
      obtain ⟨b, rfl⟩ := hv
      have hlit : Contains Literal.Alike (ofBool b) (.boolean b) :=
        contains_literal (Literal.Alike.refl (.boolean b))
      simp only [size] at hn
      rw [contains_union]
      cases b with
      | true =>
        have := size_le_sizeList hs
        exact ⟨_, hs, ih (by rw [size_literal]; omega) (.literal _) (hb.of_union _ hs) hj hst hlit⟩
      | false =>
        have := size_le_sizeList ht
        exact ⟨_, ht, ih (by rw [size_literal]; omega) (.literal _) (hb.of_union _ ht) hj htf hlit⟩
    | unionRight hm h =>
      have := size_le_sizeList hm
      simp only [size] at hn
      exact contains_union.2 ⟨_, hm, ih (by omega) ha (hb.of_union _ hm) hj h hv⟩
    | intersectionLeft hm h =>
      have := size_le_sizeList hm
      simp only [size] at hn
      exact ih (by omega) (ha.of_intersection _ hm) hb hj h (contains_intersection.1 hv _ hm)
    | complements h =>
      simp only [size] at hn
      exact fun hbv => hv (ih (by omega) hb.of_complement ha.of_complement hj h hbv)
    | apart h => exact not_contains_of_disjoint ha hb.of_complement h hv
    | singletons _ h =>
      simp only [Contains] at hv ⊢
      simpa only [← Literal.alike_congr h] using hv
    | base h =>
      cases ha with
      | literal m =>
        obtain ⟨l, hl, rfl⟩ := hv
        rw [← baseOf_eq_of_same hl] at h hn
        simp only [size] at hn
        exact ih (by omega) (described_baseOf _ l) hb hj h (contains_baseOf l)
    -- The remaining types look into the value, so none of its fields may be missing.
    | array h =>
      obtain ⟨i, vs, rfl, hvs⟩ := hv
      obtain rfl := hj.of_array
      simp only [size] at hn
      exact ⟨i, vs, rfl, fun w hw => ih (by omega) ha.of_array hb.of_array (.inl rfl) h (hvs w hw)⟩
    | tuple h =>
      obtain ⟨i, vs, rfl, hvs⟩ := hv
      obtain rfl := hj.of_array
      simp only [size] at hn
      exact ⟨i, vs, rfl, containsEach_of_isSubtypeList ih (by omega) ha.of_tuple hb.of_tuple h hvs⟩
    | items h =>
      obtain ⟨i, vs, rfl, hvs⟩ := contains_tuple.1 hv
      obtain rfl := hj.of_array
      refine ⟨i, vs, rfl, fun w hw => ?_⟩
      obtain ⟨a, hm, hw⟩ := exists_left_of_mem hvs hw
      have := size_le_sizeList hm
      simp only [size] at hn
      exact ih (by omega) (ha.of_tuple a hm) hb.of_array (.inl rfl) (h a hm) hw
    | object h =>
      obtain ⟨⟨i, entries, rfl⟩, hfs⟩ := contains_object.1 hv
      obtain rfl := hj.of_object
      refine contains_object.2 ⟨⟨i, entries, rfl⟩, fun g hg => ?_⟩
      have := size_le_sizeFields hg
      simp only [size] at hn
      have hu : isSubtype undefined g.ty = false := by
        rw [Bool.eq_false_iff]
        intro hs
        refine hb.not_contains_undefined rfl g hg ?_
        exact ih (by simp only [size]; omega) .undefined (hb.of_object g hg) (.inl rfl) hs rfl
      obtain ⟨f, hf, hname, hfg⟩ := field?_of_isSubtype hu (h g hg)
      have := size_le_sizeFields hf
      exact ih (by omega) (ha.of_object f hf) (hb.of_object g hg) (.inl rfl) hfg
        (hname ▸ hfs f hf :)
    | function => exact hv

/-- A value of a subtype is a value of the type, if it is one that subtyping judges. -/
theorem Described.contains_of_isSubtype {optional : Bool} {a b : Ty} {v : Value}
    (ha : Described optional a) (hb : Described optional b) (hj : v.Judged optional)
    (h : isSubtype a b = true) (hv : Contains Literal.Alike a v) : Contains Literal.Alike b v :=
  contains_of_isSubtype_below _ (Nat.lt_succ_self _) ha hb hj h hv

/-- A well-formed type that has `undefined` as a value has it as a subtype. -/
theorem Formed.isSubtype_undefined {optional : Bool} {t : Ty} (h : Formed optional t)
    (hv : Contains Literal.Alike t .undefined) : isSubtype Ty.undefined t = true := by
  rw [isSubtype.eq_def, Bool.or_eq_true]
  induction h with
  | unknown => exact .inr rfl
  | undefined => exact .inl (by rw [same])
  | union _ ih =>
    obtain ⟨arm, hm, hv⟩ := contains_union.1 hv
    refine .inr (List.any_eq_true.2 ⟨⟨arm, hm⟩, List.mem_attach _ _, ?_⟩)
    dsimp only
    rw [isSubtype.eq_def, Bool.or_eq_true]
    exact ih arm hm hv
  | literal l =>
    obtain ⟨m, -, hm⟩ := hv
    cases m <;> cases hm
  | _ => simp [Contains] at hv

/-- A well-formed type is described, and a regular one is definite. -/
theorem Formed.described {optional : Bool} {t : Ty} (h : Formed optional t) :
    Described optional t := by
  induction h with
  | object hf hu ih =>
    refine .object ih fun ho f hm hv => ?_
    cases (hu ho f hm).symm.trans ((hf f hm).isSubtype_undefined hv)
  | literal l => exact .literal l
  | tuple _ ih => exact .tuple ih
  | array _ ih => exact .array ih
  | function _ _ ihp ihr => exact .function ihp ihr
  | union _ ih => exact .union ih
  | _ => constructor

/-- A value of a subtype is a value of the type. -/
theorem contains_of_isSubtype {a b : Ty} {v : Value} (ha : Regular a) (hb : Regular b)
    (h : isSubtype a b = true) (hv : Contains Literal.Alike a v) : Contains Literal.Alike b v :=
  ha.described.contains_of_isSubtype hb.described (.inl rfl) h hv

/-! ### Unions -/

/-- A value of one of several types is a value of one of their arms. -/
theorem contains_unionParts {agree : Literal → Literal → Prop} {ts : List Ty} {v : Value} :
    (∃ s ∈ unionParts ts, Contains agree s v) ↔ ∃ t ∈ ts, Contains agree t v := by
  fun_induction unionParts ts with
  | case1 => rfl
  | case2 arms ts ih =>
    simp only [List.mem_append, List.mem_cons, or_and_right, exists_or, exists_eq_left, ih,
      contains_union]
  | case3 ts ih =>
    simp only [List.mem_cons, or_and_right, exists_or, exists_eq_left, ih, Contains, false_or]
  | case4 t ts _ _ ih =>
    simp only [List.mem_cons, or_and_right, exists_or, exists_eq_left, ih]

theorem mem_addArm {kept : List Ty} {s t : Ty} (h : s ∈ addArm kept t) : s ∈ kept ∨ s = t := by
  unfold addArm at h
  split at h
  · exact .inl h
  · simpa using h

theorem mem_addArm_of_mem {kept : List Ty} {s : Ty} (t : Ty) (h : s ∈ kept) :
    s ∈ addArm kept t := by
  unfold addArm
  split
  · exact h
  · exact List.mem_append_left _ h

/-- An arm that is left out has what it shares with equivalent arms in one that was kept. -/
theorem exists_mem_addArm {P : Ty → Prop} {kept : List Ty} {t : Ty}
    (hP : ∀ s ∈ kept, isEquivalent s t = true → P t → P s) (ht : P t) :
    ∃ s ∈ addArm kept t, P s := by
  unfold addArm
  split
  next h =>
    obtain ⟨s, hs, hst⟩ := List.any_eq_true.1 h
    exact ⟨s, hs, hP s hs hst ht⟩
  next => exact ⟨t, by simp, ht⟩

theorem mem_foldl_addArm {kept ts : List Ty} {s : Ty} (h : s ∈ ts.foldl addArm kept) :
    s ∈ kept ∨ s ∈ ts := by
  induction ts generalizing kept with
  | nil => exact .inl h
  | cons t ts ih =>
    rcases ih h with h | h
    · rcases mem_addArm h with h | rfl
      · exact .inl h
      · exact .inr List.mem_cons_self
    · exact .inr (List.mem_cons_of_mem _ h)

theorem mem_foldl_addArm_of_mem {kept : List Ty} {s : Ty} (ts : List Ty) (h : s ∈ kept) :
    s ∈ ts.foldl addArm kept := by
  induction ts generalizing kept with
  | nil => exact h
  | cons t ts ih => exact ih (mem_addArm_of_mem t h)

/-- What equivalent types share and one of several types has, an arm of their union has. -/
theorem exists_mem_foldl_addArm {P Q : Ty → Prop} {kept ts : List Ty} {t : Ty}
    (hP : ∀ s t, Q s → Q t → isEquivalent s t = true → P t → P s) (hk : ∀ s ∈ kept, Q s)
    (hts : ∀ s ∈ ts, Q s) (ht : t ∈ ts) (hPt : P t) : ∃ s ∈ ts.foldl addArm kept, P s := by
  induction ts generalizing kept with
  | nil => cases ht
  | cons u us ih =>
    have hu : Q u := hts u List.mem_cons_self
    rcases List.mem_cons.1 ht with rfl | ht
    · obtain ⟨s, hs, hPs⟩ := exists_mem_addArm (fun s hs => hP s t (hk s hs) hu) hPt
      exact ⟨s, mem_foldl_addArm_of_mem us hs, hPs⟩
    · refine ih (fun s hs => ?_) (fun s hs => hts s (List.mem_cons_of_mem _ hs)) ht
      rcases mem_addArm hs with hs | rfl
      · exact hk s hs
      · exact hu

/-- No arm is `never`, one arm is itself, and several are a union. -/
theorem ofArms_cases (arms : List Ty) :
    (arms = [] ∧ ofArms arms = never) ∨ (∃ t, arms = [t] ∧ ofArms arms = t) ∨
      (2 ≤ arms.length ∧ ofArms arms = union arms) := by
  match arms with
  | [] => exact .inl ⟨rfl, rfl⟩
  | [t] => exact .inr (.inl ⟨t, rfl, rfl⟩)
  | _ :: _ :: _ => exact .inr (.inr ⟨by simp, rfl⟩)

theorem contains_ofArms {agree : Literal → Literal → Prop} {arms : List Ty} {v : Value} :
    Contains agree (ofArms arms) v ↔ ∃ t ∈ arms, Contains agree t v := by
  match arms with
  | [] => simp [ofArms, Contains]
  | [t] => simp [ofArms]
  | s :: t :: ts => exact contains_union

theorem ofArms_of_forall {P : Ty → Prop} (hn : P never)
    (hu : ∀ arms, (∀ t ∈ arms, P t) → P (union arms)) {arms : List Ty} (h : ∀ t ∈ arms, P t) :
    P (ofArms arms) := by
  match arms with
  | [] => exact hn
  | [t] => exact h t List.mem_cons_self
  | s :: t :: ts => exact hu _ h

theorem unionParts_of_forall {P : Ty → Prop} (ha : ∀ arms, P (union arms) → ∀ t ∈ arms, P t)
    {ts : List Ty} (h : ∀ t ∈ ts, P t) : ∀ s ∈ unionParts ts, P s := by
  fun_induction unionParts ts with
  | case1 => simp
  | case2 arms ts ih =>
    rw [List.forall_mem_cons] at h
    rw [List.forall_mem_append]
    exact ⟨ha arms h.1, ih h.2⟩
  | case3 ts ih => exact ih (List.forall_mem_cons.1 h).2
  | case4 t ts _ _ ih =>
    rw [List.forall_mem_cons] at h ⊢
    exact ⟨h.1, ih h.2⟩

/-- What unions share with their arms, the union of several types shares with them. -/
theorem unionOf_of_forall {P : Ty → Prop} (hn : P never)
    (hu : ∀ arms, (∀ t ∈ arms, P t) → P (union arms))
    (ha : ∀ arms, P (union arms) → ∀ t ∈ arms, P t) {ts : List Ty} (h : ∀ t ∈ ts, P t) :
    P (unionOf ts) := by
  refine ofArms_of_forall hn hu fun t ht => ?_
  rcases mem_foldl_addArm ht with ht | ht
  · cases ht
  · exact unionParts_of_forall ha h t ht

theorem formed_unionOf {optional : Bool} {ts : List Ty} (h : ∀ t ∈ ts, Formed optional t) :
    Formed optional (unionOf ts) :=
  unionOf_of_forall .never (fun _ => .union) (fun _ hu => hu.of_union) h

theorem described_unionOf {optional : Bool} {ts : List Ty} (h : ∀ t ∈ ts, Described optional t) :
    Described optional (unionOf ts) :=
  unionOf_of_forall .never (fun _ => .union) (fun _ hu => hu.of_union) h

/-- The values of the union of several types are those of the types. -/
theorem contains_unionOf_iff {optional : Bool} {ts : List Ty} {v : Value}
    (h : ∀ t ∈ ts, Described optional t) (hj : v.Judged optional) :
    Contains Literal.Alike (unionOf ts) v ↔ ∃ t ∈ ts, Contains Literal.Alike t v := by
  rw [unionOf, contains_ofArms]
  constructor
  · rintro ⟨s, hs, hsv⟩
    exact contains_unionParts.1 ⟨s, (mem_foldl_addArm hs).resolve_left List.not_mem_nil, hsv⟩
  · intro hv
    obtain ⟨s, hs, hsv⟩ := contains_unionParts.2 hv
    refine exists_mem_foldl_addArm (Q := Described optional) (fun s t hs ht hst htv => ?_) (by simp)
      (unionParts_of_forall (fun _ hu => hu.of_union) h) hs hsv
    rw [isEquivalent, Bool.and_eq_true] at hst
    exact ht.contains_of_isSubtype hs hj hst.2 htv

/-- It does not matter which of two equivalent arms a union of the types keeps: they are equal, or
    none of their fields may be missing. -/
def Mergeable (ts : List Ty) : Prop :=
  ∀ s ∈ unionParts ts, ∀ t ∈ unionParts ts, isEquivalent s t = true →
    same s t = true ∨ Regular s ∧ Regular t

theorem mergeable_of_regular {ts : List Ty} (h : ∀ t ∈ ts, Regular t) : Mergeable ts := by
  have hparts := unionParts_of_forall (fun _ hu => hu.of_union) h
  exact fun s hs t ht _ => .inr ⟨hparts s hs, hparts t ht⟩

/-- A value of one of several types is a value of their union. -/
theorem Mergeable.contains_unionOf {ts : List Ty} (h : Mergeable ts) {t : Ty} {v : Value}
    (ht : t ∈ ts) (hv : Contains Literal.Alike t v) : Contains Literal.Alike (unionOf ts) v := by
  rw [unionOf, contains_ofArms]
  obtain ⟨s, hs, hsv⟩ := contains_unionParts.2 ⟨t, ht, hv⟩
  refine exists_mem_foldl_addArm (Q := (· ∈ unionParts ts)) (fun s t hs ht hst htv => ?_) (by simp)
    (fun _ hs => hs) hs hsv
  rcases h s hs t ht hst with hsame | ⟨hs, ht⟩
  · exact (contains_congr s hsame).2 htv
  · rw [isEquivalent, Bool.and_eq_true] at hst
    exact contains_of_isSubtype ht hs hst.2 htv

theorem contains_unionOf {ts : List Ty} {t : Ty} {v : Value} (h : ∀ t ∈ ts, Regular t)
    (ht : t ∈ ts) (hv : Contains Literal.Alike t v) : Contains Literal.Alike (unionOf ts) v :=
  (mergeable_of_regular h).contains_unionOf ht hv

end ReactiveDoc.Ty
