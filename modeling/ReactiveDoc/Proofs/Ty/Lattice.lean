import ReactiveDoc.Proofs.Ty.Intersection

namespace ReactiveDoc.Ty

/-!
# Laws of the lattice

* `unionOf_assoc` — unions of firm types associate.
* `Solid`, `disjoint_of_isSubtype` — types that disjointness sees through, and whose parts are
  disjoint from what they are disjoint from.
* `Meetable` — types with solid arms, of which no two that are met are disjoint.
* `isSubtype_intersectionOf` — the intersection of several types is their greatest lower bound.
* `lattice_laws` — unions associate, and intersections commute and associate.

Without firmness no law holds, for subtyping is not transitive where fields may be missing.
Disjointness does not look into modules and intersections, and an object whose field is `never` is
a part of others that it is disjoint from, so that intersections of such types depend on the order.
-/

variable {booleans labels : Bool}

/-! ### Unions -/

/-- Firm types are part of their union. -/
theorem FirmIn.isSubtype_unionOf {ts : List Ty} (h : ∀ t ∈ ts, FirmIn booleans labels t) {t : Ty}
    (ht : t ∈ ts) : isSubtype t (unionOf ts) = true := by
  rw [isSubtype_unionOf_iff ht, (firmIn_unionOf h).isError_eq_false]
  simp

/-- Unions of firm types associate up to equivalence. -/
theorem unionOf_assoc {a b c : Ty} (ha : Firm a) (hb : Firm b) (hc : Firm c) :
    isEquivalent (unionOf [unionOf [a, b], c]) (unionOf [a, unionOf [b, c]]) = true := by
  have hleft : ∀ t ∈ [a, b], Firm t := by simpa using ⟨ha, hb⟩
  have hright : ∀ t ∈ [b, c], Firm t := by simpa using ⟨hb, hc⟩
  have hab := firmIn_unionOf hleft
  have hbc := firmIn_unionOf hright
  have hl : ∀ t ∈ [unionOf [a, b], c], Firm t := by simpa using ⟨hab, hc⟩
  have hr : ∀ t ∈ [a, unionOf [b, c]], Firm t := by simpa using ⟨ha, hbc⟩
  have hlu := firmIn_unionOf hl
  have hru := firmIn_unionOf hr
  have hble : isSubtype b (unionOf [a, unionOf [b, c]]) = true :=
    isSubtype_trans hb hbc hru (FirmIn.isSubtype_unionOf hright (by simp))
      (FirmIn.isSubtype_unionOf hr (by simp))
  have hcle : isSubtype c (unionOf [a, unionOf [b, c]]) = true :=
    isSubtype_trans hc hbc hru (FirmIn.isSubtype_unionOf hright (by simp))
      (FirmIn.isSubtype_unionOf hr (by simp))
  have hage : isSubtype a (unionOf [unionOf [a, b], c]) = true :=
    isSubtype_trans ha hab hlu (FirmIn.isSubtype_unionOf hleft (by simp))
      (FirmIn.isSubtype_unionOf hl (by simp))
  have hbge : isSubtype b (unionOf [unionOf [a, b], c]) = true :=
    isSubtype_trans hb hab hlu (FirmIn.isSubtype_unionOf hleft (by simp))
      (FirmIn.isSubtype_unionOf hl (by simp))
  rw [isEquivalent, Bool.and_eq_true]
  constructor
  · refine unionOf_isSubtype ?_
    simpa using ⟨unionOf_isSubtype (by simpa using
      ⟨FirmIn.isSubtype_unionOf hr (by simp), hble⟩), hcle⟩
  · refine unionOf_isSubtype ?_
    simpa using ⟨hage, unionOf_isSubtype (by simpa using
      ⟨hbge, FirmIn.isSubtype_unionOf hl (by simp)⟩)⟩

/-! ### Solid types -/

/-- A single type other than `never`, objects, modules, unions and intersections. -/
def Flat : Ty → Prop
  | never | object _ | module _ | union _ | intersection _ => False
  | _ => True

/-- A type whose objects have a solid type for each field, and which is, up to unions and fields,
    neither `never` nor a module nor an intersection. -/
inductive Solid : Ty → Prop
  | single {t} (h : Flat t) : Solid t
  | object {fields} (h : ∀ f ∈ fields, Solid f.ty) (hn : (fields.map Field.name).Nodup) :
      Solid (object fields)
  | union {arms} (h : ∀ t ∈ arms, Solid t) (hne : arms ≠ []) : Solid (union arms)

namespace Solid

theorem of_object {fields : List (Field Ty)} (h : Solid (.object fields)) :
    (∀ f ∈ fields, Solid f.ty) ∧ (fields.map Field.name).Nodup := by
  cases h with
  | single h => exact h.elim
  | object h hn => exact ⟨h, hn⟩

theorem of_union {arms : List Ty} (h : Solid (.union arms)) : (∀ t ∈ arms, Solid t) ∧ arms ≠ [] := by
  cases h with
  | single h => exact h.elim
  | union h hne => exact ⟨h, hne⟩

theorem not_intersection {arms : List Ty} : ¬ Solid (.intersection arms) := by
  rintro (h | _ | _)
  exact h

theorem not_module {exports : List (Export Ty)} : ¬ Solid (.module exports) := by
  rintro (h | _ | _)
  exact h

end Solid

theorem kindsDiffer_self (a : Ty) : kindsDiffer a a = false := by
  unfold kindsDiffer
  cases kind? a <;> simp

/-- No solid type is disjoint from itself. -/
theorem Solid.not_disjoint_self {a : Ty} (h : Solid a) : disjoint a a = false := by
  induction h with
  | @single t h =>
    rw [Bool.eq_false_iff]
    intro hd
    cases disjoint_cases hd with
    | singletons hl => cases (hl (same_refl _)).symm.trans (Literal.same_refl _)
    | kinds hk => cases (kindsDiffer_self t).symm.trans hk
    | _ => exact h
  | @object fields _ hn ih =>
    rw [Bool.eq_false_iff]
    intro hd
    cases disjoint_cases hd with
    | @fields _ _ f g hf hg hname hd =>
      obtain rfl : g = f := List.inj_on_of_nodup_map hn hg hf hname
      cases (ih g hg).symm.trans hd
    | kinds hk => cases (kindsDiffer_self _).symm.trans hk
  | union _ hne ih =>
    rw [Bool.eq_false_iff]
    intro hd
    obtain ⟨t, ht⟩ := List.exists_mem_of_ne_nil _ hne
    cases (ih t ht).symm.trans (disjoint_unionRight.1 (disjoint_unionLeft.1 hd t ht) t ht)

/-! ### Parts of disjoint types -/

/-- What is disjoint from `unknown` is disjoint from everything. -/
theorem disjoint_of_unknown_below (n : Nat) : ∀ a q : Ty, q.size < n →
    disjoint unknown q = true → disjoint a q = true := by
  induction n with
  | zero => intro a q hn; omega
  | succ n ih =>
    intro a q hn h
    cases disjoint_cases h with
    | neverRight => exact disjoint_never a
    | unionRight harms =>
      refine disjoint_unionRight.2 fun arm hm => ih a arm ?_ (disjoint_comm (harms arm hm))
      have := size_le_sizeList hm
      simp only [size] at hn
      omega
    | kinds hk => simp [kindsDiffer, kind?] at hk

theorem disjoint_of_unknown {a q : Ty} (h : disjoint unknown q = true) : disjoint a q = true :=
  disjoint_of_unknown_below _ a q (Nat.lt_succ_self _) h

/-- `boolean` is disjoint from what both truth values are disjoint from. -/
theorem disjoint_boolean {q : Ty} (hq : Firm q) (ht : disjoint (ofBool true) q = true)
    (hf : disjoint (ofBool false) q = true) : disjoint boolean q = true := by
  induction hq with
  | never => exact disjoint_never _
  | union _ ih =>
    rw [disjoint_unionRight] at ht hf ⊢
    exact fun arm hm => ih arm hm (ht arm hm) (hf arm hm)
  | literal l =>
    cases l with
    | boolean b =>
      have hne : ∀ b', disjoint (ofBool b') (literal (.boolean b)) = true → b' ≠ b := by
        rintro _ h rfl
        cases (Solid.single (by trivial : Flat (ofBool _))).not_disjoint_self.symm.trans h
      cases b with
      | true => exact absurd rfl (hne true ht)
      | false => exact absurd rfl (hne false hf)
    | number x => exact disjoint_kinds rfl
    | string s => exact disjoint_kinds rfl
  | _ =>
    cases disjoint_cases ht with
    | kinds h => exact disjoint_kinds h

/-- Types that are compared by their constructors are of one kind. -/
theorem Core.kind?_eq {a b : Ty} (h : Core a b) : kind? a = kind? b := by
  cases h with
  | singletons hb _ => rw [kind?, kind?, kind?_of_same hb]
  | _ => rfl

/-- What a type is disjoint from by its constructor, its parts by the constructor are as well. -/
theorem Core.disjoint_below (n : Nat) {a p : Ty} (h : Core a p) : ∀ q : Ty, q.size < n →
    Ty.disjoint p q = true → Ty.disjoint a q = true := by
  induction n with
  | zero => intro q hn; omega
  | succ n ih =>
    intro q hn hd
    have hby := disjoint_cases hd
    clear hd
    cases hby with
    | neverLeft | unionLeft | fields => cases h
    | neverRight => exact disjoint_never a
    | unionRight harms =>
      refine disjoint_unionRight.2 fun arm hm => ih arm ?_ (disjoint_comm (harms arm hm))
      have := size_le_sizeList hm
      simp only [size] at hn
      omega
    | @singletons _ l _ m hl =>
      cases h with
      | singletons hb hsame =>
        refine disjoint_singletons fun hbase => ?_
        have hne := hl (same_trans (same_symm hb) hbase)
        rw [Bool.eq_false_iff] at hne ⊢
        exact fun h => hne (Literal.same_trans ((Literal.same_comm _ _).trans hsame) h)
    | kinds hk =>
      refine disjoint_kinds ?_
      rw [kindsDiffer] at hk ⊢
      rwa [h.kind?_eq]

/-- What is disjoint from a type is disjoint from its parts, for types up to a size. -/
theorem disjoint_of_isSubtype_below (n : Nat) : ∀ {a p q : Ty}, a.size + p.size + q.size < n →
    Firm a → Firm p → Firm q → (a ≠ never → Solid a) → Solid p → isSubtype a p = true →
      disjoint p q = true → disjoint a q = true := by
  induction n with
  | zero => intro a p q hn; omega
  | succ n ih =>
    intro a p q hn ha hp hq hsa hsp hle hd
    cases step_of_isSubtype ha hp hle with
    | unknown => exact disjoint_of_unknown hd
    | intersectionRight => exact absurd hsp Solid.not_intersection
    | unionRight hm harm =>
      have := size_le_sizeList hm
      simp only [size] at hn
      exact ih (by omega) ha (hp.of_union _ hm) hq hsa (hsp.of_union.1 _ hm) harm
        (disjoint_unionLeft.1 hd _ hm)
    | inner h =>
      cases h with
      | never => exact disjoint_comm (disjoint_never q)
      | intersectionLeft => exact absurd (hsa (by simp)) Solid.not_intersection
      | unionLeft h =>
        refine disjoint_unionLeft.2 fun arm hm => ?_
        have := size_le_sizeList hm
        simp only [size] at hn
        exact ih (by omega) (ha.of_union arm hm) hp hq
          (fun _ => (hsa (by simp)).of_union.1 arm hm) hsp (h arm hm) hd
      | boolean hs hst ht htf =>
        have := size_le_sizeList hs
        have := size_le_sizeList ht
        have htrue : (ofBool true).size = 2 := size_literal (.boolean true)
        have hfalse : (ofBool false).size = 2 := size_literal (.boolean false)
        simp only [size] at hn
        rw [disjoint_unionLeft] at hd
        exact disjoint_boolean hq
          (ih (by omega) (.literal _) (hp.of_union _ hs) hq (fun _ => .single trivial)
            (hsp.of_union.1 _ hs) hst (hd _ hs))
          (ih (by omega) (.literal _) (hp.of_union _ ht) hq (fun _ => .single trivial)
            (hsp.of_union.1 _ ht) htf (hd _ ht))
      | @base l _ h =>
        have hsize : (baseOf l).size < (literal l).size := by
          rw [literal, size]
          omega
        exact disjoint_literal (ih (by omega) (firm_baseOf l) hp hq
          (fun _ => .single (by cases l <;> trivial)) hsp h hd)
      | core h => exact h.disjoint_below _ q (Nat.lt_succ_self _) hd
      | records hr hbeneath =>
        cases hr with
        | modules | exports => exact absurd (hsa (by simp)) Solid.not_module
        | @objects fs gs =>
          have hby := disjoint_cases hd
          cases hby with
          | neverRight => exact disjoint_never _
          | unionRight harms =>
            refine disjoint_unionRight.2 fun arm hm => ?_
            have := size_le_sizeList hm
            simp only [size] at hn
            exact ih (by simp only [size]; omega) ha hp (hq.of_union arm hm) hsa hsp hle
              (disjoint_comm (harms arm hm))
          | @fields _ hs g k hg hk hname hgk =>
            -- The field of `p` that tells it apart is one of `a`, at a smaller type.
            obtain ⟨f, hf, hfname, hfg⟩ :
                ∃ f ∈ fs, f.name = g.name ∧ isSubtype f.ty g.ty = true := by
              cases hbeneath with
              | equal h =>
                rw [same] at h
                obtain ⟨f, hf, hname, hsame⟩ := exists_mem_of_sameFields h g hg
                exact ⟨f, hf, hname, isSubtype_of_same hsame⟩
              | members h => exact field?_of_isSubtype (hp.of_object g hg).2 (h g hg)
            have := size_le_sizeFields hf
            have := size_le_sizeFields hg
            have := size_le_sizeFields hk
            simp only [size] at hn
            have hsolid := (hsa (by simp)).of_object.1 f hf
            exact disjoint_fields hf hk (hname.trans hfname.symm)
              (ih (by omega) (ha.of_object f hf).1 (hp.of_object g hg).1 (hq.of_object k hk).1
                (fun _ => hsolid) (hsp.of_object.1 g hg) hfg hgk)
          | kinds h => exact disjoint_kinds h

/-- Parts of disjoint types are disjoint. -/
theorem disjoint_of_isSubtype {a b p q : Ty} (ha : Firm a) (hb : Firm b) (hp : Firm p) (hq : Firm q)
    (hsa : Solid a) (hsb : Solid b) (hsp : Solid p) (hsq : Solid q) (hap : isSubtype a p = true)
    (hbq : isSubtype b q = true) (hd : disjoint p q = true) : disjoint a b = true := by
  have haq : disjoint a q = true :=
    disjoint_of_isSubtype_below _ (Nat.lt_succ_self _) ha hp hq (fun _ => hsa) hsp hap hd
  have hba : disjoint b a = true :=
    disjoint_of_isSubtype_below _ (Nat.lt_succ_self _) hb hq ha (fun _ => hsb) hsq hbq
      (disjoint_comm haq)
  exact disjoint_comm hba

/-! ### Types to be met -/

/-- `never`, a solid type, an intersection of solid types no two of which are disjoint, or a union
    of such types. -/
inductive Meetable : Ty → Prop
  | never : Meetable never
  | solid {t} (h : Solid t) : Meetable t
  | intersection {arms} (h : ∀ t ∈ arms, Solid t)
      (hd : ∀ s ∈ arms, ∀ t ∈ arms, disjoint s t = false) : Meetable (intersection arms)
  | union {arms} (h : ∀ t ∈ arms, Meetable t) : Meetable (union arms)

namespace Meetable

theorem of_union {arms : List Ty} : Meetable (.union arms) → ∀ t ∈ arms, Meetable t
  | union h => h
  | solid h => fun t ht => .solid (h.of_union.1 t ht)

theorem of_intersection {arms : List Ty} : Meetable (.intersection arms) →
    (∀ t ∈ arms, Solid t) ∧ ∀ s ∈ arms, ∀ t ∈ arms, disjoint s t = false
  | intersection h hd => ⟨h, hd⟩
  | solid h => absurd h Solid.not_intersection

/-- A type that may be an arm of an intersection is solid. -/
theorem solid_of_meetArm {t : Ty} (h : Meetable t) (hm : MeetArm t) : Solid t := by
  cases h with
  | solid h => exact h
  | never | intersection | union => exact hm.elim

end Meetable

theorem meetable_unionOf {ts : List Ty} (h : ∀ t ∈ ts, Meetable t) : Meetable (unionOf ts) :=
  unionOf_of_forall .never (fun _ => .union) (fun _ hu => hu.of_union) h

theorem meetable_intersectionParts {ts : List Ty} (h : ∀ t ∈ ts, Meetable t) :
    ∀ p ∈ intersectionParts ts, Meetable p :=
  intersectionParts_of_forall (fun _ hi t ht => .solid (hi.of_intersection.1 t ht)) h

theorem meetable_meetArms {parts : List Ty} (h : ∀ p ∈ parts, Solid p) :
    Meetable (meetArms parts) := by
  rcases meetArms_cases parts with heq | ⟨kept, -, hpair, hmem, heq⟩
  · exact heq ▸ .never
  rcases heq with ⟨-, heq⟩ | ⟨t, rfl, heq⟩ | ⟨-, heq⟩
  · exact heq ▸ .solid (.single trivial)
  · exact heq ▸ .solid (h t (hmem t List.mem_cons_self))
  · rw [heq]
    refine .intersection (fun s hs => h s (hmem s hs)) fun s hs t ht => ?_
    by_cases hst : s = t
    · exact hst ▸ (h s (hmem s hs)).not_disjoint_self
    · have : Std.Symm Incomparable := ⟨fun _ _ => Incomparable.symm⟩
      exact (hpair.forall hs ht hst).overlap

/-- The intersection of types to be met can be met again. -/
theorem meetable_intersectionOf {ts : List Ty} (hn : ∀ t ∈ ts, Normal t)
    (h : ∀ t ∈ ts, Meetable t) : Meetable (intersectionOf ts) := by
  fun_induction intersectionOf ts with
  | case1 => exact .never
  | case2 ts parts hnever arms rest hs ih =>
    refine meetable_unionOf fun r hr => ?_
    obtain ⟨⟨arm, hm⟩, -, rfl⟩ := List.mem_map.1 hr
    refine ih arm hm ?_ ?_
    · exact forall_split (fun p hp => (normal_intersectionParts hn p hp).1)
        (fun hu => (hu.of_union arm hm).1) hs
    · exact forall_split (meetable_intersectionParts h) (fun hu => hu.of_union arm hm) hs
  | case3 ts parts hnever hs =>
    have hm := meetArm_intersectionParts hn (by simpa using hnever) hs
    exact meetable_meetArms fun p hp =>
      (meetable_intersectionParts h p hp).solid_of_meetArm (hm p hp).2

/-! ### Pieces -/

/-- A type other than `never`, `boolean` and unions, which is part of a union only if it is part
    of an arm. -/
def Piece : Ty → Prop
  | never | boolean | union _ => False
  | _ => True

theorem Whole.piece {t : Ty} (h : Whole t) : Piece t := by
  cases t with
  | never | boolean | union | intersection => exact h.elim
  | _ => trivial

/-- A type is part of what all its pieces are part of. -/
theorem isSubtype_of_pieces {u b : Ty} (hu : Firm u) (hm : Meetable u) (hb : Firm b)
    (h : ∀ v, Firm v → Meetable v → Piece v → isSubtype v u = true → isSubtype v b = true) :
    isSubtype u b = true := by
  have hself : Piece u → isSubtype u b = true := fun hp => h u hu hm hp (isSubtype_refl u)
  have htruth : ∀ x, isSubtype (ofBool x) u = true → isSubtype (ofBool x) b = true := fun x =>
    h _ (.literal _) (.solid (.single trivial)) trivial
  induction hu with
  | never => exact isSubtype_never b
  | boolean =>
    have hbool : ∀ x, isSubtype (ofBool x) boolean = true := fun x =>
      isSubtype_literal (isSubtype_refl (baseOf (.boolean x)))
    exact isSubtype_boolean hb (htruth true (hbool true)) (htruth false (hbool false))
  | union harms ih =>
    refine isSubtype_unionLeft hb.isError_eq_false fun arm ha => ?_
    have harm : ∀ v, Firm v → Meetable v → Piece v → isSubtype v arm = true →
        isSubtype v b = true := fun v hv hvm hp hle =>
      h v hv hvm hp (isSubtype_union_of_mem ha hle)
    exact ih arm ha (hm.of_union arm ha) harm
      (fun hp => harm arm (harms arm ha) (hm.of_union arm ha) hp (isSubtype_refl arm)) fun x =>
        harm _ (.literal _) (.solid (.single trivial)) trivial
  | _ => exact hself trivial

/-- A piece of a union is a piece of an arm. -/
theorem Piece.exists_arm {u : Ty} {arms : List Ty} (hp : Piece u) (hu : Firm u)
    (h : isSubtype u (union arms) = true) : ∃ arm ∈ arms, isSubtype u arm = true := by
  have hany : ∀ h : (arms.attach.any fun arm => isSubtype u arm.1) = true,
      ∃ arm ∈ arms, isSubtype u arm = true := by
    intro h
    simpa using h
  cases hu with
  | never | boolean | union => exact hp.elim
  | intersection =>
    rw [isSubtype.eq_def, Bool.or_eq_true] at h
    exact hany (h.resolve_left (by simp [same]))
  | _ => exact Ty.exists_arm rfl trivial h

/-- A piece has values. -/
theorem Piece.not_isSubtype_never {u : Ty} (hp : Piece u) (hu : Firm u) :
    isSubtype u never = false := by
  rw [Bool.eq_false_iff]
  intro h
  induction hu with
  | never | boolean | union => exact hp
  | @intersection arms _ hw ih =>
    cases isSubtype_cases h with
    | same h => simp [same] at h
    | intersectionLeft hm h => exact ih _ hm (hw _ hm).piece h
  | literal l =>
    cases isSubtype_cases h with
    | same h => simp [literal, same] at h
    | base h => cases l <;> cases isSubtype_cases h with
      | same h => simp [baseOf, same] at h
  | _ =>
    cases isSubtype_cases h with
    | same h => simp [same] at h

/-- Two types with a piece in common are not disjoint. -/
theorem Piece.not_disjoint {u p q : Ty} (hu : Piece u) (hfu : Firm u) (hmu : Meetable u)
    (hp : Firm p) (hq : Firm q) (hmp : MeetArm p) (hmq : MeetArm q) (hsp : Solid p) (hsq : Solid q)
    (hup : isSubtype u p = true) (huq : isSubtype u q = true) : disjoint p q = false := by
  rw [Bool.eq_false_iff]
  intro hd
  cases hmu with
  | never | union => exact hu.elim
  | solid hs =>
    have hself := disjoint_of_isSubtype hfu hfu hp hq hs hs hsp hsq hup huq hd
    cases hs.not_disjoint_self.symm.trans hself
  | @intersection arms hs hover =>
    -- An arm of the piece is below each of the two types.
    have hbelow : ∀ t, Firm t → MeetArm t → isSubtype (.intersection arms) t = true →
        ∃ a ∈ arms, isSubtype a t = true := by
      intro t hft hmt h
      cases step_of_isSubtype hfu hft h with
      | unknown | unionRight | intersectionRight => exact hmt.elim
      | inner h =>
        cases h with
        | intersectionLeft hm h => exact ⟨_, hm, h⟩
        | core h => cases h
        | records hr => cases hr
    obtain ⟨a, ha, hap⟩ := hbelow p hp hmp hup
    obtain ⟨b, hb, hbq⟩ := hbelow q hq hmq huq
    have hab := disjoint_of_isSubtype (hfu.of_intersection a ha).1 (hfu.of_intersection b hb).1
      hp hq (hs a ha) (hs b hb) hsp hsq hap hbq hd
    cases (hover a ha b hb).symm.trans hab

/-! ### Greatest lower bound -/

theorem exists_foldlM_meetArm? {parts ts kept : List Ty}
    (hd : ∀ s ∈ parts, ∀ t ∈ parts, disjoint s t = false) (hts : ∀ t ∈ ts, t ∈ parts)
    (hk : ∀ s ∈ kept, s ∈ parts) : ∃ kept', ts.foldlM meetArm? kept = some kept' := by
  induction ts generalizing kept with
  | nil => exact ⟨kept, rfl⟩
  | cons t ts ih =>
    have ht : t ∈ parts := hts t List.mem_cons_self
    obtain ⟨next, hnext⟩ : ∃ next, meetArm? kept t = some next := by
      have hany : (kept.any fun s => disjoint s t) = false := by
        refine List.any_eq_false.2 fun s hs => ?_
        simp [hd s (hk s hs) t ht]
      unfold meetArm?
      rw [hany]
      split <;> exact ⟨_, rfl⟩
    rw [List.foldlM_cons, hnext]
    refine ih (fun u hu => hts u (List.mem_cons_of_mem _ hu)) fun s hs => ?_
    rcases mem_meetArm? hnext hs with hs | rfl
    · exact hk s hs
    · exact ht

/-- What is part of several arms, no two of which are disjoint, is part of their intersection. -/
theorem isSubtype_meetArms {parts : List Ty} {u : Ty}
    (hd : ∀ s ∈ parts, ∀ t ∈ parts, disjoint s t = false)
    (h : ∀ p ∈ parts, isSubtype u p = true) : isSubtype u (meetArms parts) = true := by
  have hnone : ∀ s ∈ ([] : List Ty), s ∈ parts := by simp
  obtain ⟨kept, hfold⟩ := exists_foldlM_meetArm? hd (fun _ ht => ht) hnone
  have hmem : ∀ s ∈ kept, s ∈ parts := fun s hs =>
    ((foldlM_meetArm? hfold List.Pairwise.nil).2 s hs).resolve_left List.not_mem_nil
  rw [meetArms, hfold]
  rcases kept with _ | ⟨s, _ | ⟨t, ts⟩⟩
  · exact isSubtype_unknown u
  · exact h s (hmem s List.mem_cons_self)
  · exact isSubtype_intersectionRight fun p hp => h p (hmem p hp)

/-- What is part of firm types is part of their arms. -/
theorem isSubtype_intersectionParts {ts : List Ty} {u : Ty} (hu : Firm u) (h : ∀ t ∈ ts, Firm t)
    (hle : ∀ t ∈ ts, isSubtype u t = true) : ∀ p ∈ intersectionParts ts, isSubtype u p = true := by
  intro p hp
  rcases mem_intersectionParts.1 hp with ⟨arms, harms, hp⟩ | ⟨hp, -, -⟩
  · exact isSubtype_of_intersectionRight hu (h _ harms) hp (hle _ harms)
  · exact hle p hp

/-- A piece of several types is part of their intersection. -/
theorem Piece.isSubtype_intersectionOf {ts : List Ty} {u : Ty}
    (hf : ¬(booleans = true ∧ labels = true)) (hn : ∀ t ∈ ts, Normal t)
    (h : ∀ t ∈ ts, FirmIn booleans labels t) (hm : ∀ t ∈ ts, Meetable t) (hp : Piece u)
    (hu : Firm u) (hum : Meetable u) (hle : ∀ t ∈ ts, isSubtype u t = true) :
    isSubtype u (intersectionOf ts) = true := by
  fun_induction intersectionOf ts with
  | case1 ts parts hnever =>
    obtain ⟨t, ht, hnt⟩ := List.any_eq_true.1 hnever
    have hut := isSubtype_intersectionParts hu (fun t ht => (h t ht).firm) hle t ht
    cases t with
    | never => cases (hp.not_isSubtype_never hu).symm.trans hut
    | _ => cases hnt
  | case2 ts parts hnever arms rest hs ih =>
    have hparts := isSubtype_intersectionParts hu (fun t ht => (h t ht).firm) hle
    have hfirm := firmIn_intersectionParts h
    have hnormal := fun p hp => (normal_intersectionParts hn p hp).1
    -- The piece is part of one arm of the union, and of the intersection with that arm.
    obtain ⟨arm, ha, hua⟩ := hp.exists_arm hu (hparts _ ((mem_splitUnion? hs).2 (.inl rfl)))
    have hsplit : ∀ arm ∈ arms, ∀ t ∈ rest ++ [arm], FirmIn booleans labels t := fun arm ha =>
      forall_split hfirm (fun hu => hu.of_union arm ha) hs
    have hsplitNormal : ∀ arm ∈ arms, ∀ t ∈ rest ++ [arm], Normal t := fun arm ha =>
      forall_split hnormal (fun hu => (hu.of_union arm ha).1) hs
    have harm : isSubtype u (intersectionOf (rest ++ [arm])) = true := by
      refine ih arm ha (hsplitNormal arm ha) (hsplit arm ha)
        (forall_split (meetable_intersectionParts hm) (fun hu => hu.of_union arm ha) hs)
        fun t ht => ?_
      rcases List.mem_append.1 ht with ht | ht
      · exact hparts t ((mem_splitUnion? hs).2 (.inr ht))
      · rwa [List.mem_singleton.1 ht]
    have hall : ∀ r ∈ arms.attach.map fun arm => intersectionOf (rest ++ [arm.1]),
        FirmIn booleans labels r := by
      intro r hr
      obtain ⟨⟨arm, ha⟩, -, rfl⟩ := List.mem_map.1 hr
      exact firmIn_intersectionOf hf (hsplitNormal arm ha) (hsplit arm ha)
    have hmem : intersectionOf (rest ++ [arm]) ∈
        arms.attach.map fun arm => intersectionOf (rest ++ [arm.1]) :=
      List.mem_map.2 ⟨⟨arm, ha⟩, List.mem_attach _ _, rfl⟩
    exact isSubtype_trans hu (hall _ hmem).firm (firmIn_unionOf hall).firm harm
      (FirmIn.isSubtype_unionOf hall hmem)
  | case3 ts parts hnever hs =>
    have hparts := isSubtype_intersectionParts hu (fun t ht => (h t ht).firm) hle
    -- Without unions among the parts the arms are met one after the other.
    have harm := meetArm_intersectionParts hn (by simpa using hnever) hs
    have hfirm := fun p hp => (firmIn_intersectionParts h p hp).firm
    have hsolid : ∀ p ∈ intersectionParts ts, Solid p := fun p hp =>
      (meetable_intersectionParts hm p hp).solid_of_meetArm (harm p hp).2
    exact isSubtype_meetArms (fun s hs t ht => hp.not_disjoint hu hum (hfirm s hs) (hfirm t ht)
      (harm s hs).2 (harm t ht).2 (hsolid s hs) (hsolid t ht) (hparts s hs) (hparts t ht)) hparts

/-- The intersection of several types is their greatest lower bound. -/
theorem isSubtype_intersectionOf {ts : List Ty} {u : Ty} (hf : ¬(booleans = true ∧ labels = true))
    (hn : ∀ t ∈ ts, Normal t) (h : ∀ t ∈ ts, FirmIn booleans labels t) (hm : ∀ t ∈ ts, Meetable t)
    (hu : Firm u) (hum : Meetable u) (hle : ∀ t ∈ ts, isSubtype u t = true) :
    isSubtype u (intersectionOf ts) = true :=
  isSubtype_of_pieces hu hum (firmIn_intersectionOf hf hn h).firm fun _ hv hvm hp hvu =>
    hp.isSubtype_intersectionOf hf hn h hm hv hvm fun t ht =>
      isSubtype_trans hv hu (h t ht).firm hvu (hle t ht)

/-! ### Laws -/

/-- A type in normal form that is firm and may be met. -/
structure Lawful (booleans labels : Bool) (t : Ty) : Prop where
  normal : Normal t
  firmIn : FirmIn booleans labels t
  meetable : Meetable t

namespace Lawful

variable {a b c u : Ty} {ts : List Ty}

theorem firm (h : Lawful booleans labels a) : Firm a := h.firmIn.firm

theorem intersectionOf (hf : ¬(booleans = true ∧ labels = true))
    (h : ∀ t ∈ ts, Lawful booleans labels t) : Lawful booleans labels (Ty.intersectionOf ts) where
  normal := normal_intersectionOf fun t ht => (h t ht).normal
  firmIn := firmIn_intersectionOf hf (fun t ht => (h t ht).normal) fun t ht => (h t ht).firmIn
  meetable := meetable_intersectionOf (fun t ht => (h t ht).normal) fun t ht => (h t ht).meetable

theorem intersectionOf_isSubtype (h : ∀ t ∈ ts, Lawful booleans labels t) :
    ∀ t ∈ ts, isSubtype (Ty.intersectionOf ts) t = true :=
  FirmIn.intersectionOf_isSubtype (fun t ht => (h t ht).normal) fun t ht => (h t ht).firmIn

theorem isSubtype_intersectionOf (hf : ¬(booleans = true ∧ labels = true))
    (h : ∀ t ∈ ts, Lawful booleans labels t) (hu : Lawful booleans labels u)
    (hle : ∀ t ∈ ts, isSubtype u t = true) : isSubtype u (Ty.intersectionOf ts) = true :=
  Ty.isSubtype_intersectionOf hf (fun t ht => (h t ht).normal) (fun t ht => (h t ht).firmIn)
    (fun t ht => (h t ht).meetable) hu.firm hu.meetable hle

theorem intersectionOf_comm (hf : ¬(booleans = true ∧ labels = true))
    (ha : Lawful booleans labels a) (hb : Lawful booleans labels b) :
    isEquivalent (Ty.intersectionOf [a, b]) (Ty.intersectionOf [b, a]) = true := by
  have hle : ∀ {s t : Ty}, Lawful booleans labels s → Lawful booleans labels t →
      isSubtype (Ty.intersectionOf [s, t]) (Ty.intersectionOf [t, s]) = true := by
    intro s t hs ht
    have hst : ∀ r ∈ [s, t], Lawful booleans labels r := by simpa using ⟨hs, ht⟩
    have hbelow := intersectionOf_isSubtype hst
    refine isSubtype_intersectionOf hf (by simpa using ⟨ht, hs⟩) (.intersectionOf hf hst) ?_
    simpa using ⟨hbelow t (by simp), hbelow s (by simp)⟩
  rw [isEquivalent, Bool.and_eq_true]
  exact ⟨hle ha hb, hle hb ha⟩

theorem intersectionOf_assoc (hf : ¬(booleans = true ∧ labels = true))
    (ha : Lawful booleans labels a) (hb : Lawful booleans labels b)
    (hc : Lawful booleans labels c) :
    isEquivalent (Ty.intersectionOf [Ty.intersectionOf [a, b], c])
      (Ty.intersectionOf [a, Ty.intersectionOf [b, c]]) = true := by
  have hleft : ∀ t ∈ [a, b], Lawful booleans labels t := by simpa using ⟨ha, hb⟩
  have hright : ∀ t ∈ [b, c], Lawful booleans labels t := by simpa using ⟨hb, hc⟩
  have hab := intersectionOf hf hleft
  have hbc := intersectionOf hf hright
  have hl : ∀ t ∈ [Ty.intersectionOf [a, b], c], Lawful booleans labels t := by
    simpa using ⟨hab, hc⟩
  have hr : ∀ t ∈ [a, Ty.intersectionOf [b, c]], Lawful booleans labels t := by
    simpa using ⟨ha, hbc⟩
  have hL := intersectionOf hf hl
  have hR := intersectionOf hf hr
  -- Each side is below `a`, `b` and `c`, one of them directly and two through the inner meet.
  have hLab := intersectionOf_isSubtype hl _ (by simp : Ty.intersectionOf [a, b] ∈ _)
  have hLa := isSubtype_trans hL.firm hab.firm ha.firm hLab
    (intersectionOf_isSubtype hleft a (by simp))
  have hLb := isSubtype_trans hL.firm hab.firm hb.firm hLab
    (intersectionOf_isSubtype hleft b (by simp))
  have hLc := intersectionOf_isSubtype hl c (by simp)
  have hRbc := intersectionOf_isSubtype hr _ (by simp : Ty.intersectionOf [b, c] ∈ _)
  have hRa := intersectionOf_isSubtype hr a (by simp)
  have hRb := isSubtype_trans hR.firm hbc.firm hb.firm hRbc
    (intersectionOf_isSubtype hright b (by simp))
  have hRc := isSubtype_trans hR.firm hbc.firm hc.firm hRbc
    (intersectionOf_isSubtype hright c (by simp))
  have hLbc := isSubtype_intersectionOf hf hright hL (by simpa using ⟨hLb, hLc⟩)
  have hRab := isSubtype_intersectionOf hf hleft hR (by simpa using ⟨hRa, hRb⟩)
  rw [isEquivalent, Bool.and_eq_true]
  exact ⟨isSubtype_intersectionOf hf hr hL (by simpa using ⟨hLa, hLbc⟩),
    isSubtype_intersectionOf hf hl hR (by simpa using ⟨hRab, hRc⟩)⟩

end Lawful

/-- **The laws of the lattice** up to equivalence, for types in normal form: the unions of firm
    types associate, and the intersections of firm types that may be met commute and associate,
    unless `boolean` may meet a labelled type. -/
theorem lattice_laws {a b c : Ty} (ha : Normal a) (hb : Normal b) (hc : Normal c)
    (hfirm : Firm a ∧ Firm b ∧ Firm c) :
    isEquivalent (unionOf [unionOf [a, b], c]) (unionOf [a, unionOf [b, c]]) = true ∧
      ∀ booleans labels, ¬(booleans = true ∧ labels = true) →
        (∀ t ∈ [a, b, c], FirmIn booleans labels t ∧ Meetable t) →
          isEquivalent (intersectionOf [a, b]) (intersectionOf [b, a]) = true ∧
            isEquivalent (intersectionOf [intersectionOf [a, b], c])
              (intersectionOf [a, intersectionOf [b, c]]) = true := by
  refine ⟨unionOf_assoc hfirm.1 hfirm.2.1 hfirm.2.2, fun booleans labels hf h => ?_⟩
  simp only [List.forall_mem_cons] at h
  obtain ⟨⟨hfa, hma⟩, ⟨hfb, hmb⟩, ⟨hfc, hmc⟩, -⟩ := h
  have hla : Lawful booleans labels a := ⟨ha, hfa, hma⟩
  have hlb : Lawful booleans labels b := ⟨hb, hfb, hmb⟩
  exact ⟨hla.intersectionOf_comm hf hlb, hla.intersectionOf_assoc hf hlb ⟨hc, hfc, hmc⟩⟩

/-- Objects with a text `c`. -/
def worded : Ty := object [⟨"c", string⟩]

theorem normal_worded : Normal worded := .object (by simpa using .string) (by simp)

theorem firmIn_worded : FirmIn booleans labels worded :=
  .object (by simpa using .string) (by simp [isSubtype, same])

theorem solid_counted : Solid counted := .object (by simpa using .single trivial) (by simp)

theorem solid_worded : Solid worded := .object (by simpa using .single trivial) (by simp)

/-- Of a union of a number and an object, an object with another field, and an intersection. -/
theorem lattice_laws_counted :
    (Normal (union [number, counted]) ∧ Normal worded ∧ Normal (intersection [counted, worded])) ∧
      isEquivalent
          (unionOf [unionOf [union [number, counted], worded], intersection [counted, worded]])
          (unionOf [union [number, counted], unionOf [worded, intersection [counted, worded]]]) =
        true ∧
      isEquivalent (intersectionOf [union [number, counted], worded])
          (intersectionOf [worded, union [number, counted]]) = true ∧
      isEquivalent
          (intersectionOf
            [intersectionOf [union [number, counted], worded], intersection [counted, worded]])
          (intersectionOf
            [union [number, counted], intersectionOf [worded, intersection [counted, worded]]]) =
        true := by
  have hdistinct : Distinct number counted := by
    simp [Distinct, isEquivalent, isSubtype, same, counted]
  have hnot : isSubtype counted worded = false := by
    rw [Bool.eq_false_iff, Ne, counted, worded, isSubtype_object]
    simp [sameFields, field?, isSubtype, same]
  have hwords : Distinct counted worded := by rw [Distinct, isEquivalent, hnot, Bool.false_and]
  have hover : disjoint counted worded = false := by
    simp [counted, worded, disjoint, kindsDiffer, kind?]
  have hna : Normal (union [number, counted]) :=
    .union (by simpa using ⟨.number, normal_counted⟩) (by simp [UnionArm, counted]) (by simp)
      (by simpa using hdistinct)
  have hnc : Normal (intersection [counted, worded]) :=
    .intersection (by simpa using ⟨normal_counted, normal_worded⟩)
      (by simp [MeetArm, counted, worded]) (by simp) (by simpa using hwords)
  have hfirm : ∀ t ∈ [union [number, counted], worded, intersection [counted, worded]],
      FirmIn true false t := by
    simpa using ⟨.union (by simpa using ⟨.number, firmIn_counted true false⟩), firmIn_worded,
      .intersection (by simpa using ⟨firmIn_counted true false, firmIn_worded⟩)
        (by simp [Whole, counted, worded])⟩
  have hmeet : ∀ t ∈ [union [number, counted], worded, intersection [counted, worded]],
      Meetable t := by
    have hself := solid_counted.not_disjoint_self
    have hself' := solid_worded.not_disjoint_self
    have hover' : disjoint worded counted = false :=
      Bool.eq_false_iff.2 fun h => Bool.eq_false_iff.1 hover (disjoint_comm h)
    simpa using ⟨.union (by simpa using ⟨.solid (.single trivial), .solid solid_counted⟩),
      .solid solid_worded, .intersection (by simpa using ⟨solid_counted, solid_worded⟩)
        (by simpa using ⟨⟨hself, hover⟩, hover', hself'⟩)⟩
  have hlaws := lattice_laws hna normal_worded hnc
    ⟨(hfirm _ (by simp)).firm, (hfirm _ (by simp)).firm, (hfirm _ (by simp)).firm⟩
  exact ⟨⟨hna, normal_worded, hnc⟩, hlaws.1,
    hlaws.2 true false (by simp) fun t ht => ⟨hfirm t ht, hmeet t ht⟩⟩

/-- Objects whose `c`, if they have one, is a text. -/
def maybeWorded : Ty := object [⟨"c", union [undefined, string]⟩]

/-- Objects whose `x` has no value. -/
def vacant : Ty := object [⟨"x", never⟩]

/-- Two object types are one if they are equivalent, and else the arms of a union. -/
theorem unionOf_objects (fs gs : List (Field Ty)) :
    unionOf [object fs, object gs] =
      if isEquivalent (object fs) (object gs) then object fs
      else union [object fs, object gs] := by
  cases h : isEquivalent (object fs) (object gs) <;>
    simp [unionOf, unionParts, addArm, ofArms, h]

/-- A union depends on which of two equivalent arms comes first, where equivalence is not
    transitive, and an intersection on which of two disjoint types comes first, where one is part
    of the other. -/
theorem maybeCoded_not_lattice :
    (∀ t ∈ [maybeCoded, object [], maybeWorded, vacant, counted], Normal t) ∧
      isEquivalent (unionOf [unionOf [maybeCoded, object []], maybeWorded])
        (unionOf [maybeCoded, unionOf [object [], maybeWorded]]) = false ∧
      isEquivalent (intersectionOf [vacant, counted]) (intersectionOf [counted, vacant]) =
        false := by
  have hd : Distinct undefined string := by simp [Distinct, isEquivalent, isSubtype, same]
  have hnormal : Normal maybeWorded := by
    refine .object ?_ (by simp)
    simpa using Normal.union (by simpa using ⟨.undefined, .string⟩) (by simp [UnionArm]) (by simp)
      (by simpa using hd)
  have hvacant : Normal vacant := .object (by simpa using .never) (by simp)
  have hempty : Normal (object []) := .object (by simp) (by simp)
  have hcoded : isEquivalent maybeCoded (object []) = true := by
    simp [isEquivalent, maybeCoded, isSubtype, same, sameFields]
  have hworded : isEquivalent (object []) maybeWorded = true := by
    simp [isEquivalent, maybeWorded, isSubtype, same, sameFields]
  have hapart : isSubtype maybeWorded maybeCoded = false := by
    rw [Bool.eq_false_iff, Ne, maybeWorded, maybeCoded, isSubtype_object]
    simp [sameFields, sameList, field?, isSubtype, same]
  have hapart' : isEquivalent maybeCoded maybeWorded = false := by
    rw [isEquivalent, hapart, Bool.and_false]
  refine ⟨by simpa using ⟨normal_maybeCoded, hempty, hnormal, hvacant, normal_counted⟩, ?_, ?_⟩
  · have hfirst : unionOf [maybeCoded, object []] = maybeCoded := by
      rw [maybeCoded, unionOf_objects, ← maybeCoded, if_pos hcoded]
    have hsecond : unionOf [object [], maybeWorded] = object [] := by
      rw [maybeWorded, unionOf_objects, ← maybeWorded, if_pos hworded]
    have hboth : unionOf [maybeCoded, maybeWorded] = union [maybeCoded, maybeWorded] := by
      rw [maybeCoded, maybeWorded, unionOf_objects, ← maybeCoded, ← maybeWorded, hapart',
        if_neg (by simp)]
    rw [hfirst, hsecond, hboth, hfirst, isEquivalent, Bool.and_eq_false_iff]
    left
    rw [Bool.eq_false_iff]
    intro h
    cases hapart.symm.trans (isSubtype_of_unionLeft h (by simp))
  · have hle : isSubtype vacant counted = true := by
      rw [vacant, counted, isSubtype_object]
      simp [field?, isSubtype_never]
    have hnot : isSubtype counted vacant = false := by
      rw [Bool.eq_false_iff, Ne, counted, vacant, isSubtype_object]
      simp [sameFields, field?, isSubtype, same]
    have hdisjoint : disjoint counted vacant = true :=
      disjoint_fields (f := ⟨"x", number⟩) (g := ⟨"x", never⟩) (by simp) (by simp) rfl
        (disjoint_never _)
    have hkept : intersectionOf [vacant, counted] = vacant := by
      rw [intersectionOf_of_meetArm (by simp [MeetArm, vacant, counted])]
      simp [meetArms, meetArm?, hle]
    have hnone : intersectionOf [counted, vacant] = never := by
      rw [intersectionOf_of_meetArm (by simp [MeetArm, vacant, counted])]
      simp [meetArms, meetArm?, hnot, hdisjoint]
    have hnever : isSubtype vacant never = false := by simp [vacant, isSubtype, same]
    rw [hkept, hnone, isEquivalent, hnever, Bool.false_and]

end ReactiveDoc.Ty
