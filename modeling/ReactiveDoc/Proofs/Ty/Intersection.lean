import ReactiveDoc.Proofs.Ty.Union
import ReactiveDoc.Proofs.Ty.Ordering

namespace ReactiveDoc.Ty

/-!
# The intersection is a lower bound

* `meetArm?_cases` — what one more type does to the arms of an intersection.
* `normal_intersectionOf` — the intersection of types in normal form is in normal form.
* `Compared` — the lists of types that an intersection compares with each other.
* `intersectionOf_isSubtype` — where subtyping is transitive within these lists, the intersection
  of several types is part of each of them.

Elsewhere it need not be: `{x: number}` is part of `{c?: number}` and makes it superfluous, and
so is `{x: number, c: string}` of `{x: number}`, but not of `{c?: number}`.
-/

/-! ### Arms of an intersection -/

/-- What the arms of several types are. -/
theorem mem_intersectionParts {ts : List Ty} {s : Ty} :
    s ∈ intersectionParts ts ↔ (∃ arms, intersection arms ∈ ts ∧ s ∈ arms) ∨
      (s ∈ ts ∧ s ≠ unknown ∧ ∀ arms, s ≠ intersection arms) := by
  fun_induction intersectionParts ts with
  | case1 => simp
  | case2 arms ts ih =>
    rw [List.mem_append, ih]
    simp only [List.mem_cons, intersection.injEq]
    grind
  | case3 ts ih =>
    rw [ih]
    simp only [List.mem_cons, reduceCtorEq, false_or]
    grind
  | case4 t ts hi hk ih =>
    rw [List.mem_cons, ih]
    simp only [List.mem_cons]
    grind

/-- What intersections share with their arms, several types share with all their arms. -/
theorem intersectionParts_of_forall {P : Ty → Prop}
    (hi : ∀ arms, P (intersection arms) → ∀ t ∈ arms, P t) {ts : List Ty} (h : ∀ t ∈ ts, P t) :
    ∀ s ∈ intersectionParts ts, P s := by
  intro s hs
  rcases mem_intersectionParts.1 hs with ⟨arms, harms, hs⟩ | ⟨hs, -, -⟩
  · exact hi arms (h _ harms) s hs
  · exact h s hs

theorem mem_splitUnion? {ts arms rest : List Ty} (h : splitUnion? ts = some (arms, rest)) {t : Ty} :
    t ∈ ts ↔ t = union arms ∨ t ∈ rest := by
  fun_induction splitUnion? ts generalizing arms rest with
  | case1 => cases h
  | case2 arms' ts =>
    simp only [Option.some.injEq, Prod.mk.injEq] at h
    obtain ⟨rfl, rfl⟩ := h
    exact List.mem_cons
  | case3 s ts _ ih =>
    obtain ⟨⟨arms', rest'⟩, hs, h⟩ := Option.map_eq_some_iff.1 h
    simp only [Prod.mk.injEq] at h
    obtain ⟨rfl, rfl⟩ := h
    rw [List.mem_cons, List.mem_cons, ih hs]
    exact or_left_comm

theorem splitUnion?_eq_none {ts : List Ty} :
    splitUnion? ts = none ↔ ∀ t ∈ ts, ∀ arms, t ≠ union arms := by
  fun_induction splitUnion? ts with
  | case1 => simp
  | case2 arms ts => simp
  | case3 s ts hs ih =>
    rw [Option.map_eq_none_iff, ih, List.forall_mem_cons, and_iff_right hs]

/-- What is part of all arms of several types is part of each of the types. -/
theorem isSubtype_of_intersectionParts {r : Ty} {ts : List Ty}
    (h : ∀ p ∈ intersectionParts ts, isSubtype r p = true) : ∀ t ∈ ts, isSubtype r t = true := by
  intro t ht
  by_cases hi : ∃ arms, t = intersection arms
  · obtain ⟨arms, rfl⟩ := hi
    exact isSubtype_intersectionRight fun arm hm =>
      h arm (mem_intersectionParts.2 (.inl ⟨arms, ht, hm⟩))
  by_cases hk : t = unknown
  · exact hk ▸ isSubtype_unknown r
  · exact h t (mem_intersectionParts.2 (.inr ⟨ht, hk, fun arms ha => hi ⟨arms, ha⟩⟩))

/-! ### One more type -/

/-- Neither of two types is part of the other, and they may have a value in common. -/
structure Incomparable (s t : Ty) : Prop where
  left : isSubtype s t = false
  right : isSubtype t s = false
  overlap : disjoint s t = false

theorem Incomparable.distinct {s t : Ty} (h : Incomparable s t) : Distinct s t := by
  rw [Distinct, isEquivalent, h.left, Bool.false_and]

theorem Incomparable.symm {s t : Ty} (h : Incomparable s t) : Incomparable t s where
  left := h.right
  right := h.left
  overlap := by
    rw [Bool.eq_false_iff]
    intro hts
    cases (disjoint_comm hts).symm.trans h.overlap

/-- Each of two incomparable types or more has another beside it. -/
theorem exists_incomparable {kept : List Ty} (hl : 2 ≤ kept.length)
    (hp : kept.Pairwise Incomparable) {s : Ty} (hs : s ∈ kept) : ∃ t ∈ kept, Incomparable s t := by
  match kept with
  | [] | [_] => simp at hl
  | a :: b :: rest =>
    have ha := (List.pairwise_cons.1 hp).1
    rcases List.mem_cons.1 hs with rfl | hs
    · exact ⟨b, by simp, ha b List.mem_cons_self⟩
    · exact ⟨a, by simp, (ha s hs).symm⟩

/-- One more type adds nothing, or it replaces the arms that it is part of. -/
theorem meetArm?_cases {kept kept' : List Ty} {t : Ty} (h : meetArm? kept t = some kept') :
    (kept' = kept ∧ ∃ s ∈ kept, isSubtype s t = true) ∨
      (kept' = (kept.filter fun s => !(isSubtype t s)) ++ [t] ∧
        ∀ s ∈ kept, isSubtype s t = false ∧ disjoint s t = false) := by
  unfold meetArm? at h
  split at h
  next hle =>
    obtain ⟨s, hs, hst⟩ := List.any_eq_true.1 hle
    exact .inl ⟨(Option.some.inj h).symm, s, hs, hst⟩
  next hle =>
    split at h
    · cases h
    next hd =>
      refine .inr ⟨(Option.some.inj h).symm, fun s hs => ?_⟩
      rw [Bool.not_eq_true, List.any_eq_false] at hle hd
      exact ⟨by simpa using hle s hs, by simpa using hd s hs⟩

theorem mem_meetArm? {kept kept' : List Ty} {s t : Ty} (h : meetArm? kept t = some kept')
    (hs : s ∈ kept') : s ∈ kept ∨ s = t := by
  rcases meetArm?_cases h with ⟨rfl, -⟩ | ⟨rfl, -⟩
  · exact .inl hs
  · rcases List.mem_append.1 hs with hs | hs
    · exact .inl (List.mem_of_mem_filter hs)
    · exact .inr (List.mem_singleton.1 hs)

theorem meetArm?_incomparable {kept kept' : List Ty} {t : Ty} (h : meetArm? kept t = some kept')
    (hk : kept.Pairwise Incomparable) : kept'.Pairwise Incomparable := by
  rcases meetArm?_cases h with ⟨rfl, -⟩ | ⟨rfl, hnew⟩
  · exact hk
  · refine List.pairwise_append.2 ⟨hk.filter _, List.pairwise_singleton _ _, fun s hs u hu => ?_⟩
    obtain ⟨hs, hts⟩ := List.mem_filter.1 hs
    rw [List.mem_singleton.1 hu]
    exact ⟨(hnew s hs).1, by simpa using hts, (hnew s hs).2⟩

/-- The arms that are left are among the types, and none is part of another or disjoint from it. -/
theorem foldlM_meetArm? {ts kept kept' : List Ty} (h : ts.foldlM meetArm? kept = some kept')
    (hk : kept.Pairwise Incomparable) :
    kept'.Pairwise Incomparable ∧ ∀ s ∈ kept', s ∈ kept ∨ s ∈ ts := by
  induction ts generalizing kept with
  | nil =>
    cases h
    exact ⟨hk, fun s hs => .inl hs⟩
  | cons t ts ih =>
    rw [List.foldlM_cons] at h
    obtain ⟨next, hnext, h⟩ := Option.bind_eq_some_iff.1 h
    obtain ⟨hpair, hmem⟩ := ih h (meetArm?_incomparable hnext hk)
    refine ⟨hpair, fun s hs => ?_⟩
    rcases hmem s hs with hs | hs
    · rcases mem_meetArm? hnext hs with hs | rfl
      · exact .inl hs
      · exact .inr List.mem_cons_self
    · exact .inr (List.mem_cons_of_mem _ hs)

/-- The result of an intersection of arms: `never`, or some of them. -/
theorem meetArms_cases (parts : List Ty) :
    meetArms parts = never ∨
      ∃ kept, parts.foldlM meetArm? [] = some kept ∧ kept.Pairwise Incomparable ∧
        (∀ s ∈ kept, s ∈ parts) ∧
        ((kept = [] ∧ meetArms parts = unknown) ∨ (∃ t, kept = [t] ∧ meetArms parts = t) ∨
          (2 ≤ kept.length ∧ meetArms parts = intersection kept)) := by
  cases hfold : parts.foldlM meetArm? [] with
  | none => exact .inl (by simp only [meetArms, hfold])
  | some kept =>
    obtain ⟨hpair, hmem⟩ := foldlM_meetArm? hfold List.Pairwise.nil
    refine .inr ⟨kept, rfl, hpair, fun s hs => (hmem s hs).resolve_left List.not_mem_nil, ?_⟩
    match kept with
    | [] => exact .inl ⟨rfl, by simp only [meetArms, hfold]⟩
    | [t] => exact .inr (.inl ⟨t, rfl, by simp only [meetArms, hfold]⟩)
    | s :: t :: ts => exact .inr (.inr ⟨by simp, by simp only [meetArms, hfold]⟩)

/-- Without a union and `never`, all arms are compared with each other. -/
theorem intersectionOf_eq_meetArms {ts : List Ty} (hn : (intersectionParts ts).any isNever = false)
    (hs : splitUnion? (intersectionParts ts) = none) :
    intersectionOf ts = meetArms (intersectionParts ts) := by
  rw [intersectionOf]
  simp only [hn, Bool.false_eq_true, if_false]
  split
  next h => cases h.symm.trans hs
  next => rfl

theorem intersectionOf_of_meetArm {ts : List Ty} (h : ∀ t ∈ ts, MeetArm t) :
    intersectionOf ts = meetArms ts := by
  have hparts : intersectionParts ts = ts := by
    fun_induction intersectionParts ts with
    | case1 => rfl
    | case2 | case3 => exact (h _ List.mem_cons_self).elim
    | case4 t ts _ _ ih => rw [ih fun u hu => h u (List.mem_cons_of_mem _ hu)]
  have hn : ts.any isNever = false := by
    refine List.any_eq_false.2 fun t ht hnever => ?_
    cases t with
    | never => exact h _ ht
    | _ => cases hnever
  rw [intersectionOf_eq_meetArms (by rwa [hparts]), hparts]
  rw [hparts, splitUnion?_eq_none]
  exact fun t ht => (h t ht).ne_union

/-! ### Normal form -/

/-- The arms of types in normal form, unions apart. -/
theorem normal_intersectionParts {ts : List Ty} (h : ∀ t ∈ ts, Normal t) :
    ∀ s ∈ intersectionParts ts, Normal s ∧ s ≠ unknown ∧ ∀ arms, s ≠ intersection arms := by
  intro s hs
  rcases mem_intersectionParts.1 hs with ⟨arms, harms, hs⟩ | ⟨hs, hk, hi⟩
  · obtain ⟨hn, hm⟩ := (h _ harms).of_intersection s hs
    exact ⟨hn, hm.ne_unknown, hm.ne_intersection⟩
  · exact ⟨h s hs, hk, hi⟩

/-- Without a union and `never`, the arms of types in normal form are arms of an intersection. -/
theorem meetArm_intersectionParts {ts : List Ty} (h : ∀ t ∈ ts, Normal t)
    (hn : (intersectionParts ts).any isNever = false)
    (hs : splitUnion? (intersectionParts ts) = none) :
    ∀ p ∈ intersectionParts ts, Normal p ∧ MeetArm p := by
  intro p hp
  obtain ⟨hnormal, hk, hi⟩ := normal_intersectionParts h p hp
  refine ⟨hnormal, meetArm_of_ne ?_ hk (splitUnion?_eq_none.1 hs p hp) hi⟩
  rintro rfl
  exact List.any_eq_false.1 hn _ hp rfl

/-- What holds of several types and of their arms holds of the rest with one arm of a union. -/
theorem forall_split {P : Ty → Prop} {ts arms rest : List Ty} {arm : Ty}
    (h : ∀ p ∈ intersectionParts ts, P p) (hu : P (union arms) → P arm)
    (hs : splitUnion? (intersectionParts ts) = some (arms, rest)) : ∀ t ∈ rest ++ [arm], P t := by
  intro t ht
  rcases List.mem_append.1 ht with ht | ht
  · exact h t ((mem_splitUnion? hs).2 (.inr ht))
  · rw [List.mem_singleton.1 ht]
    exact hu (h _ ((mem_splitUnion? hs).2 (.inl rfl)))

theorem normal_meetArms {parts : List Ty} (h : ∀ p ∈ parts, Normal p ∧ MeetArm p) :
    Normal (meetArms parts) := by
  rcases meetArms_cases parts with hm | ⟨kept, -, hpair, hmem, hm⟩
  · exact hm ▸ .never
  rcases hm with ⟨-, hm⟩ | ⟨t, rfl, hm⟩ | ⟨hl, hm⟩
  · exact hm ▸ .unknown
  · exact hm ▸ (h t (hmem t List.mem_cons_self)).1
  · exact hm ▸ .intersection (fun s hs => (h s (hmem s hs)).1) (fun s hs => (h s (hmem s hs)).2) hl
      (hpair.imp Incomparable.distinct)

/-- The intersection of types in normal form is in normal form. -/
theorem normal_intersectionOf {ts : List Ty} (h : ∀ t ∈ ts, Normal t) :
    Normal (intersectionOf ts) := by
  fun_induction intersectionOf ts with
  | case1 => exact .never
  | case2 ts parts hn arms rest hs ih =>
    refine normal_unionOf fun r hr => ?_
    obtain ⟨⟨arm, hm⟩, -, rfl⟩ := List.mem_map.1 hr
    exact ih arm hm (forall_split (fun p hp => (normal_intersectionParts h p hp).1)
      (fun hu => (hu.of_union arm hm).1) hs)
  | case3 ts parts hn hs =>
    exact normal_meetArms (meetArm_intersectionParts h (by simpa using hn) hs)

/-! ### Lower bound -/

/-- Subtyping is transitive among several types. -/
def Chained (parts : List Ty) : Prop :=
  ∀ a ∈ parts, ∀ b ∈ parts, ∀ c ∈ parts,
    isSubtype a b = true → isSubtype b c = true → isSubtype a c = true

/-- One more type leaves an arm below every type that an arm was below, and below itself. -/
theorem exists_below_meetArm? {parts kept kept' : List Ty} {t p : Ty} (hc : Chained parts)
    (hk : ∀ s ∈ kept, s ∈ parts) (ht : t ∈ parts) (hp : p ∈ parts)
    (h : meetArm? kept t = some kept') (hle : p = t ∨ ∃ s ∈ kept, isSubtype s p = true) :
    ∃ s ∈ kept', isSubtype s p = true := by
  rcases meetArm?_cases h with ⟨rfl, hst⟩ | ⟨rfl, -⟩
  · rcases hle with rfl | hle
    · exact hst
    · exact hle
  · rcases hle with rfl | ⟨s, hs, hsp⟩
    · exact ⟨p, by simp, isSubtype_refl p⟩
    -- If `t` replaces the arm below `p`, only transitivity tells that it is below `p` as well.
    cases hts : isSubtype t s with
    | true => exact ⟨t, by simp, hc t ht s (hk s hs) p hp hts hsp⟩
    | false =>
      exact ⟨s, List.mem_append_left _ (List.mem_filter.2 ⟨hs, by simp [hts]⟩), hsp⟩

theorem exists_below_foldlM_meetArm? {parts ts kept kept' : List Ty} (hc : Chained parts)
    (hts : ∀ t ∈ ts, t ∈ parts) (hk : ∀ s ∈ kept, s ∈ parts)
    (h : ts.foldlM meetArm? kept = some kept') {p : Ty} (hp : p ∈ parts)
    (hle : p ∈ ts ∨ ∃ s ∈ kept, isSubtype s p = true) : ∃ s ∈ kept', isSubtype s p = true := by
  induction ts generalizing kept with
  | nil =>
    cases h
    exact hle.resolve_left List.not_mem_nil
  | cons t ts ih =>
    rw [List.foldlM_cons] at h
    obtain ⟨next, hnext, h⟩ := Option.bind_eq_some_iff.1 h
    have ht : t ∈ parts := hts t List.mem_cons_self
    have hbelow := exists_below_meetArm? hc hk ht hp hnext
    refine ih (fun u hu => hts u (List.mem_cons_of_mem _ hu)) (fun s hs => ?_) h ?_
    · rcases mem_meetArm? hnext hs with hs | rfl
      · exact hk s hs
      · exact ht
    · rcases hle with hle | hle
      · exact (List.mem_cons.1 hle).symm.imp_right fun hpt => hbelow (.inl hpt)
      · exact .inr (hbelow (.inr hle))

/-- An intersection of arms is part of each of them. -/
theorem meetArms_isSubtype {parts : List Ty} (hc : Chained parts) (hm : ∀ p ∈ parts, MeetArm p) :
    ∀ p ∈ parts, isSubtype (meetArms parts) p = true := by
  intro p hp
  rcases meetArms_cases parts with heq | ⟨kept, hfold, hpair, -, heq⟩
  · exact heq ▸ isSubtype_never p
  obtain ⟨s, hs, hsp⟩ : ∃ s ∈ kept, isSubtype s p = true :=
    exists_below_foldlM_meetArm? hc (fun _ ht => ht) (by simp) hfold hp (.inl hp)
  rcases heq with ⟨rfl, -⟩ | ⟨t, rfl, heq⟩ | ⟨hl, heq⟩
  · cases hs
  · rw [heq, ← List.mem_singleton.1 hs]
    exact hsp
  · rw [heq]
    refine isSubtype_intersection_of_mem hs hsp ?_ (hm p hp).ne_union (hm p hp).ne_intersection
    cases p with
    | error cause =>
      -- What is part of an error is part of everything, and would be the only arm.
      obtain ⟨t, -, hst⟩ := exists_incomparable hl hpair hs
      have hbelow : isSubtype s t = true := isSubtype_of_isSubtype_error hsp t
      cases hst.left.symm.trans hbelow
    | _ => rfl

/-- The lists of types that the intersection of several types compares with each other: their arms,
    with one arm for each union. -/
inductive Compared : List Ty → List Ty → Prop
  | whole {ts} (hs : splitUnion? (intersectionParts ts) = none) :
      Compared ts (intersectionParts ts)
  | arm {ts arms rest arm parts} (hs : splitUnion? (intersectionParts ts) = some (arms, rest))
      (hm : arm ∈ arms) (h : Compared (rest ++ [arm]) parts) : Compared ts parts

/-- The intersection of several types in normal form is part of each of them, if subtyping is
    transitive among the types that it compares. -/
theorem intersectionOf_isSubtype {ts : List Ty} (hn : ∀ t ∈ ts, Normal t)
    (hc : ∀ parts, Compared ts parts → Chained parts) :
    ∀ t ∈ ts, isSubtype (intersectionOf ts) t = true := by
  fun_induction intersectionOf ts with
  | case1 => exact fun t _ => isSubtype_never t
  | case2 ts parts hnever arms rest hs ih =>
    have hnormal : ∀ arm ∈ arms, ∀ t ∈ rest ++ [arm], Normal t := fun arm hm =>
      forall_split (fun p hp => (normal_intersectionParts hn p hp).1)
        (fun hu => (hu.of_union arm hm).1) hs
    have harm : ∀ arm ∈ arms, ∀ t ∈ rest ++ [arm],
        isSubtype (intersectionOf (rest ++ [arm])) t = true := fun arm hm =>
      ih arm hm (hnormal arm hm) fun parts hp => hc parts (.arm hs hm hp)
    -- Every arm of the result is below the rest and below the arm it comes from.
    refine isSubtype_of_intersectionParts fun p hp => unionOf_isSubtype fun r hr => ?_
    obtain ⟨⟨arm, hm⟩, -, rfl⟩ := List.mem_map.1 hr
    rcases (mem_splitUnion? hs).1 hp with rfl | hp
    · exact isSubtype_union_of_mem hm (harm arm hm arm (by simp))
    · exact harm arm hm p (List.mem_append_left _ hp)
  | case3 ts parts hnever hs =>
    have hm := meetArm_intersectionParts hn (by simpa using hnever) hs
    exact isSubtype_of_intersectionParts
      (meetArms_isSubtype (hc _ (.whole hs)) fun p hp => (hm p hp).2)

/-! ### Firm types -/

section Firm

variable {booleans labels : Bool}

theorem firmIn_unionOf {ts : List Ty} (h : ∀ t ∈ ts, FirmIn booleans labels t) :
    FirmIn booleans labels (unionOf ts) :=
  unionOf_of_forall .never (fun _ => .union) (fun _ hu => hu.of_union) h

theorem firmIn_intersectionParts {ts : List Ty} (h : ∀ t ∈ ts, FirmIn booleans labels t) :
    ∀ s ∈ intersectionParts ts, FirmIn booleans labels s :=
  intersectionParts_of_forall (fun _ hi t ht => (hi.of_intersection t ht).1) h

/-- Firm types are compared with firm types only, so that subtyping is transitive among them. -/
theorem Compared.chained {ts parts : List Ty} (hp : Compared ts parts)
    (h : ∀ t ∈ ts, FirmIn booleans labels t) : Chained parts := by
  induction hp with
  | whole hs =>
    have hfirm := firmIn_intersectionParts h
    exact fun a ha b hb c hc => (hfirm a ha).trans (hfirm b hb) (hfirm c hc)
  | @arm ts arms rest arm parts hs hm _ ih =>
    exact ih (forall_split (firmIn_intersectionParts h) (fun hu => hu.of_union arm hm) hs)

/-- Without labelled types, every arm of an intersection has its kind. -/
theorem FirmIn.exists_kind {t : Ty} (h : FirmIn booleans false t) (hm : MeetArm t) :
    ∃ k, kind? t = some k := by
  cases h with
  | never | unknown | union | intersection => exact hm.elim
  | labelled hl => cases hl
  | literal l => cases l <;> exact ⟨_, rfl⟩
  | _ => exact ⟨_, rfl⟩

theorem FirmIn.isSubtype_boolean {t : Ty} (h : FirmIn booleans labels t)
    (hk : kind? t = some .boolean) : isSubtype t Ty.boolean = true := by
  cases h with
  | boolean => exact isSubtype_refl _
  | literal l =>
    cases l with
    | boolean b => exact isSubtype_literal (isSubtype_refl _)
    | _ => simp [Ty.literal, baseOf, kind?] at hk
  | _ => simp [kind?] at hk

/-- `boolean` is comparable with or disjoint from every type that has a kind. -/
theorem whole_of_incomparable (hf : ¬(booleans = true ∧ labels = true)) {s t : Ty}
    (hs : FirmIn booleans labels s) (ht : FirmIn booleans labels t) (hsm : MeetArm s)
    (htm : MeetArm t) (h : Incomparable s t) : Whole s := by
  cases hs with
  | boolean hb =>
    obtain rfl : labels = false := by
      rw [Bool.eq_false_iff]
      exact fun hl => hf ⟨hb, hl⟩
    obtain ⟨k, hk⟩ := ht.exists_kind htm
    have hkind : kindsDiffer Ty.boolean t = false := by
      rw [Bool.eq_false_iff]
      intro hd
      cases (disjoint_kinds hd).symm.trans h.overlap
    obtain rfl : Kind.boolean = k := by
      simpa only [kindsDiffer, kind?, hk, bne_eq_false_iff_eq] using hkind
    cases (ht.isSubtype_boolean hk).symm.trans h.right
  | never | unknown | union | intersection => exact hsm.elim
  | _ => trivial

theorem firmIn_meetArms (hf : ¬(booleans = true ∧ labels = true)) {parts : List Ty}
    (h : ∀ p ∈ parts, FirmIn booleans labels p) (hm : ∀ p ∈ parts, MeetArm p) :
    FirmIn booleans labels (meetArms parts) := by
  rcases meetArms_cases parts with heq | ⟨kept, -, hpair, hmem, heq⟩
  · exact heq ▸ .never
  rcases heq with ⟨-, heq⟩ | ⟨t, rfl, heq⟩ | ⟨hl, heq⟩
  · exact heq ▸ .unknown
  · exact heq ▸ h t (hmem t List.mem_cons_self)
  · rw [heq]
    refine .intersection (fun s hs => h s (hmem s hs)) fun s hs => ?_
    obtain ⟨t, ht, hst⟩ := exists_incomparable hl hpair hs
    exact whole_of_incomparable hf (h s (hmem s hs)) (h t (hmem t ht)) (hm s (hmem s hs))
      (hm t (hmem t ht)) hst

/-- The intersection of firm types is firm, unless `boolean` may meet a labelled type. -/
theorem firmIn_intersectionOf (hf : ¬(booleans = true ∧ labels = true)) {ts : List Ty}
    (hn : ∀ t ∈ ts, Normal t) (h : ∀ t ∈ ts, FirmIn booleans labels t) :
    FirmIn booleans labels (intersectionOf ts) := by
  fun_induction intersectionOf ts with
  | case1 => exact .never
  | case2 ts parts hnever arms rest hs ih =>
    refine firmIn_unionOf fun r hr => ?_
    obtain ⟨⟨arm, hm⟩, -, rfl⟩ := List.mem_map.1 hr
    refine ih arm hm ?_ ?_
    · exact forall_split (fun p hp => (normal_intersectionParts hn p hp).1)
        (fun hu => (hu.of_union arm hm).1) hs
    · exact forall_split (firmIn_intersectionParts h) (fun hu => hu.of_union arm hm) hs
  | case3 ts parts hnever hs =>
    have hm := meetArm_intersectionParts hn (by simpa using hnever) hs
    exact firmIn_meetArms hf (firmIn_intersectionParts h) fun p hp => (hm p hp).2

/-- The intersection of firm types in normal form is part of each of them. -/
theorem FirmIn.intersectionOf_isSubtype {ts : List Ty} (hn : ∀ t ∈ ts, Normal t)
    (h : ∀ t ∈ ts, FirmIn booleans labels t) : ∀ t ∈ ts, isSubtype (intersectionOf ts) t = true :=
  Ty.intersectionOf_isSubtype hn fun _ hp => hp.chained h

end Firm

/-! ### Missing fields -/

theorem chained_of_length_le_two {parts : List Ty} (h : parts.length ≤ 2) : Chained parts := by
  match parts with
  | [] | [_] | [_, _] =>
    intro a ha b hb c hc hab hbc
    simp only [List.mem_cons, List.not_mem_nil, or_false] at ha hb hc
    first | done | grind [isSubtype_refl]
  | _ :: _ :: _ :: _ => simp at h

/-- The intersection of several types in normal form is in normal form and part of each of them,
    if subtyping is transitive wherever it compares more than two types with each other. -/
theorem intersectionOf_lowerBound {ts : List Ty} (hn : ∀ t ∈ ts, Normal t)
    (hc : ∀ parts, Compared ts parts → 2 < parts.length → Chained parts) :
    Normal (intersectionOf ts) ∧ ∀ t ∈ ts, isSubtype (intersectionOf ts) t = true := by
  refine ⟨normal_intersectionOf hn, intersectionOf_isSubtype hn fun parts hp => ?_⟩
  by_cases hl : parts.length ≤ 2
  · exact chained_of_length_le_two hl
  · exact hc parts hp (by omega)

/-- Objects with a number `x`. -/
def counted : Ty := object [⟨"x", number⟩]

/-- Objects with a number `x` and a text `c`. -/
def captioned : Ty := object [⟨"x", number⟩, ⟨"c", string⟩]

/-- Objects whose `c`, if they have one, is a number. -/
def maybeCoded : Ty := object [⟨"c", union [undefined, number]⟩]

theorem normal_counted : Normal counted :=
  .object (by simpa using .number) (by simp)

theorem normal_captioned : Normal captioned :=
  .object (by simpa using ⟨.number, .string⟩) (by simp)

theorem normal_maybeCoded : Normal maybeCoded := by
  refine .object ?_ (by simp)
  have hd : Distinct undefined number := by simp [Distinct, isEquivalent, isSubtype, same]
  simpa using Normal.union (by simpa using ⟨.undefined, .number⟩) (by simp [UnionArm]) (by simp)
    (by simpa using hd)

theorem firmIn_counted (booleans labels : Bool) : FirmIn booleans labels counted :=
  .object (by simpa using .number) (by simp [isSubtype, same])

theorem firmIn_captioned (booleans labels : Bool) : FirmIn booleans labels captioned :=
  .object (by simpa using ⟨.number, .string⟩) (by simp [isSubtype, same])

/-- Of two unions and an object, whose numbers and texts are left out. -/
theorem intersectionOf_lowerBound_counted :
    (∀ t ∈ [union [number, counted], union [string, captioned], counted], Normal t) ∧
      Normal (intersectionOf [union [number, counted], union [string, captioned], counted]) ∧
      ∀ t ∈ [union [number, counted], union [string, captioned], counted],
        isSubtype (intersectionOf [union [number, counted], union [string, captioned], counted]) t =
          true := by
  have hcounted : Firm counted := firmIn_counted true true
  have hcaptioned : Firm captioned := firmIn_captioned true true
  have hfirm : ∀ t ∈ [union [number, counted], union [string, captioned], counted], Firm t := by
    simpa using ⟨.union (by simpa using ⟨.number, hcounted⟩),
      .union (by simpa using ⟨.string, hcaptioned⟩), hcounted⟩
  have hleft : Distinct number counted := by
    simp [Distinct, isEquivalent, isSubtype, same, counted]
  have hright : Distinct string captioned := by
    simp [Distinct, isEquivalent, isSubtype, same, captioned]
  have hn : ∀ t ∈ [union [number, counted], union [string, captioned], counted], Normal t := by
    simpa using ⟨.union (by simpa using ⟨.number, normal_counted⟩) (by simp [UnionArm, counted])
        (by simp) (by simpa using hleft),
      .union (by simpa using ⟨.string, normal_captioned⟩) (by simp [UnionArm, captioned])
        (by simp) (by simpa using hright), normal_counted⟩
  exact ⟨hn, intersectionOf_lowerBound hn fun _ hp _ => hp.chained hfirm⟩

theorem isSubtype_captioned_counted : isSubtype captioned counted = true := by
  rw [captioned, counted, isSubtype_object]
  simp [field?, isSubtype_refl]

theorem isSubtype_counted_maybeCoded : isSubtype counted maybeCoded = true := by
  have hmissing : isSubtype undefined (union [undefined, number]) = true :=
    isSubtype_union_of_mem (by simp) (isSubtype_refl undefined)
  rw [counted, maybeCoded, isSubtype_object]
  simp [field?, hmissing]

theorem not_isSubtype_captioned_maybeCoded : isSubtype captioned maybeCoded = false := by
  have htext : isSubtype string (union [undefined, number]) = false := by
    simp [isSubtype, same]
  rw [Bool.eq_false_iff, Ne, captioned, maybeCoded, isSubtype_object]
  simp [sameFields, field?, htext]

theorem not_isSubtype_counted_captioned : isSubtype counted captioned = false := by
  rw [Bool.eq_false_iff, Ne, counted, captioned, isSubtype_object]
  simp [sameFields, field?, isSubtype, same]

theorem not_isSubtype_maybeCoded_counted : isSubtype maybeCoded counted = false := by
  rw [Bool.eq_false_iff, Ne, maybeCoded, counted, isSubtype_object]
  simp [sameFields, field?, isSubtype, same]

/-- A type that another makes superfluous need not be among those that the result is part of. -/
theorem captioned_not_lowerBound :
    (∀ t ∈ [maybeCoded, counted, captioned], Normal t) ∧
      intersectionOf [maybeCoded, counted, captioned] = captioned ∧
      isSubtype captioned maybeCoded = false ∧ disjoint captioned maybeCoded = true := by
  have hleft : disjoint maybeCoded counted = false := by
    simp [maybeCoded, counted, disjoint]
  have hright : disjoint counted captioned = false := by
    simp [counted, captioned, disjoint, kindsDiffer, kind?]
  have hfold : [maybeCoded, counted, captioned].foldlM meetArm? [] = some [captioned] := by
    simp [meetArm?, hleft, hright, isSubtype_counted_maybeCoded, isSubtype_captioned_counted,
      not_isSubtype_maybeCoded_counted, not_isSubtype_counted_captioned]
  have htext : disjoint string (union [undefined, number]) = true :=
    disjoint_unionRight.2 (by simp [disjoint, kindsDiffer, kind?])
  refine ⟨by simpa using ⟨normal_maybeCoded, normal_counted, normal_captioned⟩, ?_,
    not_isSubtype_captioned_maybeCoded, disjoint_fields (f := ⟨"c", string⟩)
      (g := ⟨"c", union [undefined, number]⟩) (by simp) (by simp) rfl htext⟩
  rw [intersectionOf_of_meetArm (by simp [MeetArm, maybeCoded, counted, captioned]), meetArms,
    hfold]

end ReactiveDoc.Ty
