import ReactiveDoc.Proofs.Ty.Narrowing

namespace ReactiveDoc.Ty

/-!
# Narrowing keeps values

* `contains_intersectionOf_iff` — the values of an intersection are those that all types share.
* `Keeps`, `Narrowed.keeps` — narrowing keeps the values of a type that agree with what is known,
  and adds none.
* `contains_narrow` — the same of `narrow`, for definite types.

Primitive values and functions are kept even where fields may be missing.  Arrays and objects need
not be: `{c?: number}` and `{}` are each part of the other, so that a union of both is the first of
them, and an object with a text `c` is lost.
-/

variable {optional : Bool} {a b : Ty} {v : Value}

/-! ### Intersections -/

/-- A value of all types is a value of all their arms. -/
theorem contains_intersectionParts {agree : Literal → Literal → Prop} {ts : List Ty} :
    (∀ s ∈ intersectionParts ts, Contains agree s v) ↔ ∀ t ∈ ts, Contains agree t v := by
  fun_induction intersectionParts ts with
  | case1 => rfl
  | case2 arms ts ih =>
    rw [List.forall_mem_append, List.forall_mem_cons, contains_intersection, ih]
  | case3 ts ih => simp only [List.forall_mem_cons, ih, Contains, true_and]
  | case4 t ts _ _ ih => rw [List.forall_mem_cons, List.forall_mem_cons, ih]

theorem described_intersectionParts {ts : List Ty} (h : ∀ t ∈ ts, Described optional t) :
    ∀ s ∈ intersectionParts ts, Described optional s :=
  intersectionParts_of_forall (fun _ hi => hi.of_intersection) h

theorem described_meetArms {parts : List Ty} (h : ∀ p ∈ parts, Described optional p) :
    Described optional (meetArms parts) := by
  rcases meetArms_cases parts with heq | ⟨kept, -, -, hmem, heq⟩
  · exact heq ▸ .never
  have hkept : ∀ s ∈ kept, Described optional s := fun s hs => h s (hmem s hs)
  rcases heq with ⟨-, heq⟩ | ⟨t, rfl, heq⟩ | ⟨-, heq⟩
  · exact heq ▸ .unknown
  · exact heq ▸ hkept t List.mem_cons_self
  · exact heq ▸ .intersection hkept

theorem described_intersectionOf {ts : List Ty} (h : ∀ t ∈ ts, Described optional t) :
    Described optional (intersectionOf ts) := by
  fun_induction intersectionOf ts with
  | case1 => exact .never
  | case2 ts parts hn arms rest hs ih =>
    refine described_unionOf fun r hr => ?_
    obtain ⟨⟨arm, hm⟩, -, rfl⟩ := List.mem_map.1 hr
    exact ih arm hm (forall_split (described_intersectionParts h) (fun hu => hu.of_union arm hm) hs)
  | case3 ts parts hn hs => exact described_meetArms (described_intersectionParts h)

/-- One more type leaves the values that it shares with the arms, and none if it leaves no arms. -/
theorem contains_meetArm? {kept : List Ty} {t : Ty} (hk : ∀ s ∈ kept, Described optional s)
    (ht : Described optional t) (hj : v.Judged optional) :
    (∃ kept', meetArm? kept t = some kept' ∧ ∀ s ∈ kept', Contains Literal.Alike s v) ↔
      (∀ s ∈ kept, Contains Literal.Alike s v) ∧ Contains Literal.Alike t v := by
  cases hmeet : meetArm? kept t with
  | none =>
    obtain ⟨s, hs, hst⟩ : ∃ s ∈ kept, disjoint s t = true := by
      unfold meetArm? at hmeet
      split at hmeet
      · cases hmeet
      · split at hmeet
        next hd => exact List.any_eq_true.1 hd
        next => cases hmeet
    refine iff_of_false (by simp) fun ⟨hkv, htv⟩ => ?_
    exact not_contains_of_disjoint (hk s hs) ht hst (hkv s hs) htv
  | some kept' =>
    simp only [Option.some.injEq, exists_eq_left']
    rcases meetArm?_cases hmeet with ⟨rfl, s, hs, hst⟩ | ⟨rfl, -⟩
    · refine ⟨fun hkv => ⟨hkv, ?_⟩, And.left⟩
      exact (hk s hs).contains_of_isSubtype ht hj hst (hkv s hs)
    · simp only [List.forall_mem_append, List.forall_mem_singleton, List.mem_filter,
        Bool.not_eq_true', and_imp]
      refine ⟨fun ⟨hkv, htv⟩ => ⟨fun s hs => ?_, htv⟩,
        fun ⟨hkv, htv⟩ => ⟨fun s hs _ => hkv s hs, htv⟩⟩
      -- An arm that `t` is part of has the values of `t`.
      cases hts : isSubtype t s with
      | true => exact ht.contains_of_isSubtype (hk s hs) hj hts htv
      | false => exact hkv s hs hts

theorem contains_foldlM_meetArm? {ts kept : List Ty} (hk : ∀ s ∈ kept, Described optional s)
    (hts : ∀ t ∈ ts, Described optional t) (hj : v.Judged optional) :
    (∃ kept', ts.foldlM meetArm? kept = some kept' ∧ ∀ s ∈ kept', Contains Literal.Alike s v) ↔
      (∀ s ∈ kept, Contains Literal.Alike s v) ∧ ∀ t ∈ ts, Contains Literal.Alike t v := by
  induction ts generalizing kept with
  | nil => simp
  | cons t ts ih =>
    rw [List.forall_mem_cons] at hts ⊢
    rw [← and_assoc, ← contains_meetArm? hk hts.1 hj, List.foldlM_cons]
    cases hnext : meetArm? kept t with
    | none => simp
    | some next =>
      have hnextd : ∀ s ∈ next, Described optional s := by
        intro s hs
        rcases mem_meetArm? hnext hs with hs | rfl
        · exact hk s hs
        · exact hts.1
      simpa using ih hnextd hts.2

theorem contains_meetArms {parts : List Ty} (h : ∀ p ∈ parts, Described optional p)
    (hj : v.Judged optional) :
    Contains Literal.Alike (meetArms parts) v ↔ ∀ p ∈ parts, Contains Literal.Alike p v := by
  have hfold : (∃ kept, parts.foldlM meetArm? [] = some kept ∧
      ∀ s ∈ kept, Contains Literal.Alike s v) ↔ _ := contains_foldlM_meetArm? (by simp) h hj
  unfold meetArms
  split
  next hnone => simpa [hnone, Contains] using hfold
  next hnil => simpa [hnil, Contains] using hfold
  next t hone => simpa [hone] using hfold
  next arms _ _ hmany =>
    rw [contains_intersection]
    simpa [hmany] using hfold

/-- The values of the intersection of several types are those that all of them share. -/
theorem contains_intersectionOf_iff {ts : List Ty} (h : ∀ t ∈ ts, Described optional t)
    (hj : v.Judged optional) :
    Contains Literal.Alike (intersectionOf ts) v ↔ ∀ t ∈ ts, Contains Literal.Alike t v := by
  fun_induction intersectionOf ts with
  | case1 ts parts hn =>
    refine iff_of_false (fun hv => hv) fun hv => ?_
    obtain ⟨p, hp, hnever⟩ := List.any_eq_true.1 hn
    have hpv := contains_intersectionParts.2 hv p hp
    cases p with
    | never => exact hpv
    | _ => cases hnever
  | case2 ts parts hn arms rest hs ih =>
    have hsplit : ∀ arm ∈ arms, ∀ t ∈ rest ++ [arm], Described optional t := fun arm hm =>
      forall_split (described_intersectionParts h) (fun hu => hu.of_union arm hm) hs
    have hmap : ∀ r ∈ arms.attach.map fun arm => intersectionOf (rest ++ [arm.1]),
        Described optional r := by
      intro r hr
      obtain ⟨arm, -, rfl⟩ := List.mem_map.1 hr
      exact described_intersectionOf (hsplit arm.1 arm.2)
    rw [contains_unionOf_iff hmap hj, ← contains_intersectionParts]
    -- The union among the parts holds the value through the arm that joins the other types.
    constructor
    · rintro ⟨r, hr, hrv⟩ p hp
      obtain ⟨⟨arm, hm⟩, -, rfl⟩ := List.mem_map.1 hr
      have hall := (ih arm hm (hsplit arm hm)).1 hrv
      rcases (mem_splitUnion? hs).1 hp with rfl | hp
      · exact contains_union.2 ⟨arm, hm, hall arm (by simp)⟩
      · exact hall p (List.mem_append_left _ hp)
    · intro hall
      obtain ⟨arm, hm, hv⟩ := contains_union.1 (hall _ ((mem_splitUnion? hs).2 (.inl rfl)))
      refine ⟨_, List.mem_map.2 ⟨⟨arm, hm⟩, List.mem_attach _ _, rfl⟩, ?_⟩
      refine (ih arm hm (hsplit arm hm)).2 fun t ht => ?_
      rcases List.mem_append.1 ht with ht | ht
      · exact hall t ((mem_splitUnion? hs).2 (.inr ht))
      · exact List.mem_singleton.1 ht ▸ hv
  | case3 ts parts hn hs =>
    rw [contains_meetArms (described_intersectionParts h) hj, contains_intersectionParts]

/-! ### Single steps -/

theorem Described.knownField {t : Ty} {name : String} (hb : Described optional b)
    (h : knownField? b name = some t) : Described optional t := by
  rcases knownField?_cases h with ⟨gs, rfl, g, hg, rfl⟩ | ⟨excluded, ty, rfl, rfl⟩
  · exact hb.of_object g hg
  · exact .complement (hb.of_complement.of_object ⟨excluded, ty⟩ List.mem_cons_self)

/-- What is known about a field is so of the member of an object of which it is known. -/
theorem contains_knownField {t : Ty} {name : String} (h : knownField? b name = some t)
    (ho : ∃ i entries, v = .object i entries) (hv : Contains Literal.Alike b v) :
    Contains Literal.Alike t (v.member name) := by
  unfold knownField? at h
  split at h
  next gs =>
    obtain ⟨g, hg, rfl⟩ := Option.map_eq_some_iff.1 h
    have hname : g.name = name := by simpa using List.find?_some hg
    exact hname ▸ (contains_object.1 hv).2 g (List.mem_of_find?_eq_some hg)
  next excluded ty =>
    split at h
    next hname =>
      cases h
      rw [beq_iff_eq] at hname
      subst hname
      exact fun hty => hv (contains_object.2 ⟨ho, by simpa using hty⟩)
    next => cases h
  next => cases h

theorem described_without {excluded : Ty} (ha : Described optional a) :
    Described optional (without a excluded) := by
  rcases without_cases a excluded with h | h <;> rw [h]
  · exact .never
  · exact ha

theorem contains_without {excluded : Ty} (ha : Described optional a)
    (hb : Described optional excluded) (hj : v.Judged optional)
    (hbv : ¬ Contains Literal.Alike excluded v) :
    Contains Literal.Alike (without a excluded) v ↔ Contains Literal.Alike a v := by
  unfold without
  split
  next h => exact iff_of_false id fun hav => hbv (ha.contains_of_isSubtype hb hj h hav)
  next => rfl

/-! ### Narrowing -/

/-- The type `r` has those values of `a` that agree with `b`, and only values of `a`. -/
structure Keeps (optional : Bool) (a b r : Ty) : Prop where
  described : Described optional r
  below {w : Value} (hj : w.Judged optional) (hr : Contains Literal.Alike r w) :
    Contains Literal.Alike a w
  kept {w : Value} (hj : w.Judged optional) (ha : Contains Literal.Alike a w)
    (hb : Contains Literal.Alike b w) : Contains Literal.Alike r w

theorem Keeps.refl (b : Ty) (ha : Described optional a) : Keeps optional a b a where
  described := ha
  below _ hr := hr
  kept _ ha _ := ha

/-- A union keeps the values that one of its types has. -/
theorem keeps_unionOf {ts : List Ty} {step : Ty → Ty}
    (hd : ∀ t ∈ ts, Described optional (step t))
    (hbelow : ∀ t ∈ ts, ∀ w : Value, w.Judged optional → Contains Literal.Alike (step t) w →
      Contains Literal.Alike a w)
    (hkept : ∀ w : Value, w.Judged optional → Contains Literal.Alike a w →
      Contains Literal.Alike b w → ∃ t ∈ ts, Contains Literal.Alike (step t) w) :
    Keeps optional a b (unionOf (ts.map step)) where
  described := described_unionOf (List.forall_mem_map.2 hd)
  below hj hr := by
    obtain ⟨r, hr, hrw⟩ := (contains_unionOf_iff (List.forall_mem_map.2 hd) hj).1 hr
    obtain ⟨t, ht, rfl⟩ := List.mem_map.1 hr
    exact hbelow t ht _ hj hrw
  kept hj ha hb := by
    obtain ⟨t, ht, hw⟩ := hkept _ hj ha hb
    exact (contains_unionOf_iff (List.forall_mem_map.2 hd) hj).2 ⟨_, List.mem_map_of_mem ht, hw⟩

theorem keeps_unionLeft {arms : List Ty} {step : Ty → Ty}
    (h : ∀ arm ∈ arms, Keeps optional arm b (step arm)) :
    Keeps optional (union arms) b (unionOf (arms.map step)) := by
  refine keeps_unionOf (fun arm hm => (h arm hm).described) (fun arm hm w hj hw => ?_)
    fun w hj ha hb => ?_
  · exact contains_union.2 ⟨arm, hm, (h arm hm).below hj hw⟩
  · obtain ⟨arm, hm, hw⟩ := contains_union.1 ha
    exact ⟨arm, hm, (h arm hm).kept hj hw hb⟩

theorem keeps_unionRight {arms : List Ty} {step : Ty → Ty}
    (h : ∀ arm ∈ arms, Keeps optional a arm (step arm)) :
    Keeps optional a (union arms) (unionOf (arms.map step)) := by
  refine keeps_unionOf (fun arm hm => (h arm hm).described) (fun arm hm w hj hw => ?_)
    fun w hj ha hb => ?_
  · exact (h arm hm).below hj hw
  · obtain ⟨arm, hm, hw⟩ := contains_union.1 hb
    exact ⟨arm, hm, (h arm hm).kept hj ha hw⟩

/-- The truth values that are left out are excluded. -/
theorem keeps_boolean {excluded : Ty} (hb : Described optional excluded) :
    Keeps optional boolean (complement excluded)
      (unionOf (booleanArms.map fun arm => without arm excluded)) := by
  refine keeps_unionOf (fun arm hm => ?_) (fun arm hm w hj hw => ?_) fun w hj ha hb' => ?_
  · obtain ⟨x, rfl⟩ := mem_booleanArms.1 hm
    exact described_without (.literal _)
  · obtain ⟨x, rfl⟩ := mem_booleanArms.1 hm
    exact (described_without (.literal _)).contains_of_isSubtype .boolean hj
      (isSubtype_without_ofBool x excluded) hw
  · obtain ⟨x, rfl⟩ := ha
    exact ⟨ofBool x, mem_booleanArms.2 ⟨x, rfl⟩, (contains_without (.literal _) hb hj hb').2
      (contains_literal (Literal.Alike.refl (.boolean x)))⟩

theorem keeps_without {excluded : Ty} (ha : Described optional a)
    (hb : Described optional excluded) :
    Keeps optional a (complement excluded) (without a excluded) where
  described := described_without ha
  below hj hr := by
    rcases without_cases a excluded with h | h <;> rw [h] at hr
    · exact hr.elim
    · exact hr
  kept hj hav hbv := (contains_without ha hb hj hbv).2 hav

theorem keeps_intersectionLeft {arms : List Ty} {step : Ty → Ty}
    (h : ∀ arm ∈ arms, Keeps optional arm b (step arm)) :
    Keeps optional (intersection arms) b (intersectionOf (arms.map step)) := by
  have hd : ∀ r ∈ arms.map step, Described optional r :=
    List.forall_mem_map.2 fun arm hm => (h arm hm).described
  refine ⟨described_intersectionOf hd, fun hj hr => ?_, fun hj ha hb => ?_⟩
  · rw [contains_intersectionOf_iff hd hj, List.forall_mem_map] at hr
    exact contains_intersection.2 fun arm hm => (h arm hm).below hj (hr arm hm)
  · rw [contains_intersectionOf_iff hd hj, List.forall_mem_map]
    exact fun arm hm => (h arm hm).kept hj (contains_intersection.1 ha arm hm) hb

/-- Each arm of what is known narrows what the arms before it have left. -/
theorem keeps_intersectionRight {arms : List Ty} {step : Ty → Ty → Ty}
    (ha : Described optional a)
    (h : ∀ kept, Described optional kept → ∀ arm ∈ arms, Keeps optional kept arm (step kept arm)) :
    Keeps optional a (intersection arms) (arms.foldl step a) := by
  -- What one arm leaves is what the next one narrows, so `a` varies along the list.
  induction arms generalizing a with
  | nil => exact .refl _ ha
  | cons arm arms ih =>
    have hstep := h a ha arm List.mem_cons_self
    have hrest := ih hstep.described fun kept hk u hu => h kept hk u (List.mem_cons_of_mem _ hu)
    refine ⟨hrest.described, fun hj hr => hstep.below hj (hrest.below hj hr), fun hj ha hb => ?_⟩
    rw [contains_intersection, List.forall_mem_cons] at hb
    exact hrest.kept hj (hstep.kept hj ha hb.1) (contains_intersection.2 hb.2)

/-- An object type has the same values when it is replaced by `never` for lack of any. -/
theorem contains_objectUnlessNever {fs : List (Field Ty)} :
    Contains Literal.Alike (objectUnlessNever fs) v ↔ Contains Literal.Alike (object fs) v := by
  unfold objectUnlessNever
  split
  next h =>
    refine iff_of_false id fun hv => ?_
    obtain ⟨f, hf, hnever⟩ := List.any_eq_true.1 h
    have hfv := (contains_object.1 hv).2 f hf
    cases hty : f.ty with
    | never => rwa [hty] at hfv
    | _ => simp [hty, isNever] at hnever
  next => rfl

/-- Fields are narrowed by what is known of them, and stay definite. -/
theorem keeps_fields {fs : List (Field Ty)} (ha : Described optional (object fs))
    (h : ∀ f ∈ fs, ∀ t, knownField? b f.name = some t → Keeps optional f.ty t (narrow f.ty t)) :
    Keeps optional (object fs) b (objectUnlessNever (fs.map (narrowField b))) := by
  have hbelow : ∀ f ∈ fs, Described optional (narrowField b f).ty ∧ ∀ w : Value,
      w.Judged optional → Contains Literal.Alike (narrowField b f).ty w →
        Contains Literal.Alike f.ty w := fun f hf =>
    narrowField_cases (P := fun t => Described optional t ∧ ∀ w : Value, w.Judged optional →
        Contains Literal.Alike t w → Contains Literal.Alike f.ty w)
      ⟨ha.of_object f hf, fun _ _ => id⟩
      fun t ht => ⟨(h f hf t ht).described, fun _ => (h f hf t ht).below⟩
  refine ⟨?_, fun hj hr => ?_, fun hj hav hbv => ?_⟩
  · unfold objectUnlessNever
    split
    · exact .never
    · refine .object (List.forall_mem_map.2 fun f hf => (hbelow f hf).1) fun ho =>
        List.forall_mem_map.2 fun f hf hu => ?_
      -- A field for which `undefined` does now would have let it pass before.
      exact ha.not_contains_undefined ho f hf ((hbelow f hf).2 _ (.inl ho) hu)
  · obtain ⟨⟨i, entries, rfl⟩, hr⟩ := contains_object.1 (contains_objectUnlessNever.1 hr)
    rw [List.forall_mem_map] at hr
    refine contains_object.2 ⟨⟨i, entries, rfl⟩, fun f hf => ?_⟩
    exact (hbelow f hf).2 _ (.inl hj.of_object) (narrowField_name b f ▸ hr f hf)
  · obtain ⟨⟨i, entries, rfl⟩, hav⟩ := contains_object.1 hav
    refine contains_objectUnlessNever.2 (contains_object.2 ⟨⟨i, entries, rfl⟩, ?_⟩)
    rw [List.forall_mem_map]
    intro f hf
    rw [narrowField_name]
    refine narrowField_cases (P := fun t => Contains Literal.Alike t _) (hav f hf) fun t ht => ?_
    exact (h f hf t ht).kept (.inl hj.of_object) (hav f hf)
      (contains_knownField ht ⟨i, entries, rfl⟩ hbv)

theorem keeps_meet (ha : Described optional a) (hb : Described optional b) :
    Keeps optional a b (intersectionOf [a, b]) := by
  have hd : ∀ t ∈ [a, b], Described optional t := by simpa using ⟨ha, hb⟩
  refine ⟨described_intersectionOf hd, fun hj hr => ?_, fun hj hav hbv => ?_⟩
  · exact (contains_intersectionOf_iff hd hj).1 hr a (by simp)
  · exact (contains_intersectionOf_iff hd hj).2 (by simpa using ⟨hav, hbv⟩)

/-- Narrowing keeps the values that agree with what is known, and adds none. -/
theorem Narrowed.keeps {r : Ty} (h : Narrowed a b r) (ha : Described optional a)
    (hb : Described optional b) : Keeps optional a b r := by
  induction h with
  | left => exact .refl _ ha
  | right h =>
    exact ⟨hb, fun hj => hb.contains_of_isSubtype ha hj h, fun _ _ hbv => hbv⟩
  | unknown => exact .refl _ ha
  | unionLeft _ ih => exact keeps_unionLeft fun arm hm => ih arm hm (ha.of_union arm hm) hb
  | intersectionLeft _ ih =>
    exact keeps_intersectionLeft fun arm hm => ih arm hm (ha.of_intersection arm hm) hb
  | boolean => exact keeps_boolean hb.of_complement
  | without => exact keeps_without ha hb.of_complement
  | unionRight _ ih => exact keeps_unionRight fun arm hm => ih arm hm ha (hb.of_union arm hm)
  | intersectionRight _ ih =>
    exact keeps_intersectionRight ha fun kept hk arm hm =>
      ih kept arm hm hk (hb.of_intersection arm hm)
  | fields _ ih =>
    exact keeps_fields ha fun f hf t ht => ih f hf t ht (ha.of_object f hf) (hb.knownField ht)
  | meet => exact keeps_meet ha hb

/-- A value of a definite type that agrees with definite knowledge is a value of the narrowed
    type. -/
theorem contains_narrow (ha : Definite a) (hb : Definite b) (hav : Contains Literal.Alike a v)
    (hbv : Contains Literal.Alike b v) : Contains Literal.Alike (narrow a b) v :=
  ((narrowed a b).keeps ha hb).kept (.inl rfl) hav hbv

/-- Circles with their radius, and squares. -/
def shapes : Ty :=
  union [object [⟨"kind", ofString "circle"⟩, ⟨"r", number⟩], object [⟨"kind", ofString "square"⟩]]

/-- What is no square. -/
def notSquare : Ty := complement (object [⟨"kind", ofString "square"⟩])

/-- A circle is left among the shapes that are no squares. -/
theorem contains_narrow_circle :
    (Definite shapes ∧ Definite notSquare) ∧
      Contains Literal.Alike (narrow shapes notSquare)
        (.object 0 [("kind", .string "circle"), ("r", .number 1)]) := by
  have htext : ∀ s : String, ¬ Contains Literal.Alike (ofString s) .undefined := by
    rintro s ⟨l, -, hl⟩
    cases l <;> cases hl
  have hnumber : ¬ Contains Literal.Alike number .undefined := by simp [Contains]
  have hsquare : Definite (object [⟨"kind", ofString "square"⟩]) :=
    .object (by simpa using .literal _) (by simpa using htext _)
  have hcircle : Definite (object [⟨"kind", ofString "circle"⟩, ⟨"r", number⟩]) :=
    .object (by simpa using ⟨.literal _, .number⟩) (by simpa using ⟨htext _, hnumber⟩)
  have hshapes : Definite shapes := .union (by simpa using ⟨hcircle, hsquare⟩)
  have hkind : Contains Literal.Alike (ofString "circle") (.string "circle") :=
    contains_literal (Literal.Alike.refl (.string "circle"))
  refine ⟨⟨hshapes, .complement hsquare⟩, contains_narrow hshapes (.complement hsquare) ?_ ?_⟩
  · refine contains_union.2 ⟨_, List.mem_cons_self, contains_object.2 ⟨⟨_, _, rfl⟩, ?_⟩⟩
    simpa [Value.member, List.lookup] using ⟨hkind, 1, rfl⟩
  · intro hv
    obtain ⟨l, hl, hcircle⟩ := (contains_object.1 hv).2 ⟨"kind", ofString "square"⟩ (by simp)
    cases l with
    | string s =>
      simp only [Value.member, Value.ofLiteral, List.lookup] at hcircle
      cases hcircle
      simp [Literal.Alike, Literal.same] at hl
    | _ => cases hcircle

/-- Neither numbers nor what is a number and a text. -/
def uncounted : Ty := intersection [complement number, complement (intersection [number, string])]

/-- Objects that have something else than a number under `k`, or any objects. -/
def looselyUncounted : Ty := union [object [⟨"k", uncounted⟩], object []]

/-- What has no text under `k`. -/
def textless : Ty := complement (object [⟨"k", string⟩])

/-- A field for which `undefined` will do, though it is no subtype of the field's type, may become
    one that can be missing, and then stands for all objects. -/
theorem narrow_loses_counted :
    (Described true looselyUncounted ∧ Described true textless) ∧
      (isSubtype undefined uncounted = false ∧ isSubtype undefined string = false) ∧
      (Contains Literal.Alike looselyUncounted (.object 0 [("k", .number 5)]) ∧
        Contains Literal.Alike textless (.object 0 [("k", .number 5)])) ∧
      ¬ Contains Literal.Alike (narrow looselyUncounted textless)
        (.object 0 [("k", .number 5)]) := by
  have hplain : isSubtype undefined string = false := by simp [isSubtype, same]
  have hmissing : isSubtype undefined uncounted = false := by
    simp [uncounted, isSubtype, same, disjoint, kindsDiffer, kind?]
  have huncounted : narrow uncounted (complement string) = complement number := by
    have hleft : narrow (complement number) (complement string) = complement number := by
      rw [narrow] <;> simp [without, isSubtype, same]
    have hright : narrow (complement (intersection [number, string])) (complement string) =
        complement (intersection [number, string]) := by
      rw [narrow] <;> simp [without, isSubtype, same]
    have hle : isSubtype (complement number) (complement (intersection [number, string])) =
        true := by
      simp [isSubtype, same]
    have hmeet : intersectionOf [complement number, complement (intersection [number, string])] =
        complement number := by
      rw [intersectionOf_of_meetArm (by simp [MeetArm])]
      simp [meetArms, meetArm?, hle]
    rw [uncounted, narrow]
    · simp [hleft, hright, hmeet]
    all_goals simp
  have hnarrow : narrow looselyUncounted textless = object [⟨"k", complement number⟩] := by
    have hkeyed : narrow (object [⟨"k", uncounted⟩]) textless =
        object [⟨"k", complement number⟩] := by
      rw [textless, narrow]
      simp [huncounted, objectUnlessNever, isNever]
    have hany : narrow (object []) textless = object [] := by
      rw [textless, narrow]
      simp [objectUnlessNever]
    have hunion : unionOf [object [⟨"k", complement number⟩], object []] =
        object [⟨"k", complement number⟩] := by
      simp [unionOf, unionParts, addArm, ofArms, isEquivalent, isSubtype, same, sameFields,
        disjoint, kindsDiffer, kind?]
    rw [looselyUncounted, narrow]
    · simp [hkeyed, hany, hunion]
    all_goals simp [textless]
  refine ⟨⟨.union ?_, .complement (.object (by simpa using .string) (by simp))⟩, ⟨hmissing, hplain⟩,
    ⟨?_, ?_⟩, ?_⟩
  · have hd : Described true uncounted := .intersection (by
      simpa using ⟨.complement .number,
        .complement (.intersection (by simpa using ⟨.number, .string⟩))⟩)
    simpa using ⟨.object (by simpa using hd) (by simp), .object (by simp) (by simp)⟩
  · exact contains_union.2 ⟨object [], by simp, contains_object.2 ⟨⟨_, _, rfl⟩, by simp⟩⟩
  · simp [textless, Contains, ContainsFields, Value.member]
  · simp [hnarrow, contains_object, Contains, Value.member]

end ReactiveDoc.Ty
