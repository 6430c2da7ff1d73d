import ReactiveDoc.Proofs.Ty.Firm

namespace ReactiveDoc.Ty

/-!
# Subtyping is transitive

* `transBelow` — transitivity among firm types up to a size, by the last step of each side.
* `FirmIn.trans`, `isSubtype_trans` — subtyping of firm types is transitive.

Where fields may be missing it is not: `{c?: number}` is a subtype of `{}`, and that is one of
`{c?: string}`.
-/

variable {booleans labels : Bool}

/-! ### Transitivity -/

/-- A member that cannot be missing is compared with a member. -/
theorem exists_member {a t : Ty} {name : String} (ht : isSubtype undefined t = false)
    (h : isSubtype ((a.field? name).getD undefined) t = true) :
    ∃ f ∈ a.members, f.name = name ∧ a.field? name = some f.ty ∧ isSubtype f.ty t = true := by
  cases hfind : a.members.find? fun f => f.name == name with
  | none =>
    rw [field?_eq, hfind, Option.map_none, Option.getD_none, ht] at h
    cases h
  | some f =>
    rw [field?_eq, hfind, Option.map_some] at h ⊢
    exact ⟨f, List.mem_of_find?_eq_some hfind, by simpa using List.find?_some hfind, rfl, h⟩

/-- The first member of a name is compared with the first of that name. -/
theorem Beneath.exists_member {a b t : Ty} {name : String} (h : Beneath a b) (hr : Records a b)
    (hb : Firm b) (ht : b.field? name = some t) :
    ∃ f ∈ a.members, a.field? name = some f.ty ∧ isSubtype f.ty t = true := by
  rw [field?_eq] at ht
  obtain ⟨g, hfind, rfl⟩ := Option.map_eq_some_iff.1 ht
  have hg := List.mem_of_find?_eq_some hfind
  have hname : g.name = name := by simpa using List.find?_some hfind
  cases h with
  | members h =>
    obtain ⟨f, hf, -, hfield, hfg⟩ := Ty.exists_member (hb.member hg).2.1 (hname ▸ h g hg)
    exact ⟨f, hf, hfield, hfg⟩
  | equal h =>
    obtain ⟨f, hf, hsame⟩ := find?_of_sameFields (sameFields_members hr h) hfind
    refine ⟨f, List.mem_of_find?_eq_some hf, ?_, isSubtype_of_same hsame⟩
    rw [field?_eq, hf, Option.map_some]

/-- Transitivity among types that are not larger than a bound together. -/
def TransBelow (n : Nat) : Prop :=
  ∀ {a b c : Ty}, a.size + b.size + c.size < n → Firm a → Firm b →
    Firm c → isSubtype a b = true → isSubtype b c = true → isSubtype a c = true

theorem isSubtypeList_trans {n : Nat} (ih : TransBelow n) {as bs cs : List Ty}
    (hn : sizeList as + sizeList bs + sizeList cs < n) (ha : ∀ a ∈ as, Firm a)
    (hb : ∀ b ∈ bs, Firm b) (hc : ∀ c ∈ cs, Firm c) (h : isSubtypeList as bs = true)
    (h' : isSubtypeList bs cs = true) : isSubtypeList as cs = true := by
  induction as generalizing bs cs with
  | nil => cases bs <;> simp_all [isSubtypeList]
  | cons a as iha =>
    cases bs with
    | nil => simp [isSubtypeList] at h
    | cons b bs =>
      cases cs with
      | nil => simp [isSubtypeList] at h'
      | cons c cs =>
        simp only [isSubtypeList, Bool.and_eq_true] at h h' ⊢
        simp only [sizeList] at hn
        simp only [List.forall_mem_cons] at ha hb hc
        exact ⟨ih (by omega) ha.1 hb.1 hc.1 h.1 h'.1, iha (by omega) ha.2 hb.2 hc.2 h.2 h'.2⟩

theorem beneath_trans {n : Nat} (ih : TransBelow n) {a b c : Ty}
    (hn : a.size + b.size + c.size ≤ n) (ha : Firm a) (hb : Firm b)
    (hc : Firm c) (hr : Records a b) (hr' : Records b c) (h : Beneath a b) (h' : Beneath b c) :
    Beneath a c := by
  cases h' with
  | members h' =>
    refine .members fun k hk => ?_
    obtain ⟨hkf, hku, hks⟩ := hc.member hk
    obtain ⟨g, hg, -, hfield, hgk⟩ := exists_member hku (h' k hk)
    obtain ⟨f, hf, hfield', hfg⟩ := h.exists_member hr hb hfield
    obtain ⟨hff, -, hfs⟩ := ha.member hf
    obtain ⟨hgf, -, hgs⟩ := hb.member hg
    rw [hfield', Option.getD_some]
    exact ih (by omega) hff hgf hkf hfg hgk
  | equal h' =>
    cases h with
    | equal h => exact .equal (same_trans h h')
    | members h =>
      refine .members fun k hk => ?_
      obtain ⟨g, hg, hname, hgk⟩ := exists_mem_of_sameFields (sameFields_members hr' h') k hk
      obtain ⟨hkf, hku, hks⟩ := hc.member hk
      obtain ⟨hgf, hgu, hgs⟩ := hb.member hg
      obtain ⟨f, hf, -, hfield, hfg⟩ := exists_member hgu (h g hg)
      obtain ⟨hff, -, hfs⟩ := ha.member hf
      rw [← hname, hfield, Option.getD_some]
      exact ih (by omega) hff hgf hkf hfg (isSubtype_of_same hgk)

/-- The items of a tuple are part of what the items of a wider tuple are part of. -/
theorem forall_of_isSubtypeList {n : Nat} (ih : TransBelow n) {as bs : List Ty} {c : Ty}
    (hn : sizeList as + sizeList bs + c.size < n) (ha : ∀ a ∈ as, Firm a)
    (hb : ∀ b ∈ bs, Firm b) (hc : Firm c) (h : isSubtypeList as bs = true)
    (h' : ∀ b ∈ bs, isSubtype b c = true) : ∀ a ∈ as, isSubtype a c = true := by
  induction as generalizing bs with
  | nil => simp
  | cons a as iha =>
    cases bs with
    | nil => simp [isSubtypeList] at h
    | cons b bs =>
      simp only [isSubtypeList, Bool.and_eq_true] at h
      simp only [sizeList] at hn
      simp only [List.forall_mem_cons] at ha hb h' ⊢
      exact ⟨ih (by omega) ha.1 hb.1 hc h.1 h'.1, iha (by omega) ha.2 hb.2 h.2 h'.2⟩

theorem core_trans {n : Nat} (ih : TransBelow n) {a b c : Ty}
    (hn : a.size + b.size + c.size ≤ n) (ha : Firm a) (hb : Firm b)
    (hc : Firm c) (h : Core a b) (h' : Core b c) : Core a c := by
  cases h with
  | undefined | null | boolean | number | string => exact h'
  | singletons hl h =>
    cases h' with
    | singletons hm h' => exact .singletons (same_trans hl hm) (Literal.same_trans h h')
  | array h =>
    cases h' with
    | array h' =>
      simp only [size] at hn
      exact .array (ih (by omega) ha.of_array hb.of_array hc.of_array h h')
  | set h =>
    cases h' with
    | set h' =>
      simp only [size] at hn
      exact .set (ih (by omega) ha.of_set hb.of_set hc.of_set h h')
  -- Keys are compared the other way round, so the two steps change places.
  | map hk hv =>
    cases h' with
    | map hk' hv' =>
      simp only [size] at hn
      exact .map (ih (by omega) hc.of_map.1 hb.of_map.1 ha.of_map.1 hk' hk)
        (ih (by omega) ha.of_map.2 hb.of_map.2 hc.of_map.2 hv hv')
  | tuple h =>
    simp only [size] at hn
    cases h' with
    | tuple h' =>
      simp only [size] at hn
      exact .tuple (isSubtypeList_trans ih (by omega) ha.of_tuple hb.of_tuple hc.of_tuple h h')
    | items h' =>
      simp only [size] at hn
      exact .items (forall_of_isSubtypeList ih (by omega) ha.of_tuple hb.of_tuple hc.of_array h h')
  | items h =>
    cases h' with
    | array h' =>
      refine .items fun t ht => ?_
      have := size_le_sizeList ht
      simp only [size] at hn
      exact ih (by omega) (ha.of_tuple t ht) hb.of_array hc.of_array (h t ht) h'
  -- As keys are, so are parameters.
  | function hp hr =>
    cases h' with
    | function hp' hr' =>
      simp only [size] at hn
      exact .function
        (isSubtypeList_trans ih (by omega) hc.of_function.1 hb.of_function.1 ha.of_function.1
          hp' hp)
        (ih (by omega) ha.of_function.2 hb.of_function.2 hc.of_function.2 hr hr')
  | labelled h =>
    cases h' with
    | labelled h' =>
      simp only [size] at hn
      exact .labelled (isSubtypeList_trans ih (by omega) ha.of_labelled hb.of_labelled
        hc.of_labelled h h')

/-- Two steps that go by the left types or by the constructors. -/
theorem inner_trans {n : Nat} (ih : TransBelow n) {a b c : Ty}
    (hn : a.size + b.size + c.size ≤ n) (ha : Firm a) (hb : Firm b) (hc : Firm c)
    (h : Inner a b) (h' : Inner b c) (hbc : isSubtype b c = true) : isSubtype a c = true := by
  cases h with
  | never => exact isSubtype_never c
  | unionLeft h =>
    refine isSubtype_unionLeft hc.isError_eq_false fun arm hm => ?_
    have := size_le_sizeList hm
    simp only [size] at hn
    exact ih (by omega) (ha.of_union arm hm) hb hc (h arm hm) hbc
  | intersectionLeft hm h =>
    have := size_le_sizeList hm
    simp only [size] at hn
    exact isSubtype_intersectionLeft ha hc hm
      (ih (by omega) (ha.of_intersection _ hm).1 hb hc h hbc)
  -- The base is smaller than its singleton, so the induction reaches the steps from the base.
  | @base l _ h =>
    have hsize : (baseOf l).size < (literal l).size := by
      rw [literal, size]
      omega
    exact isSubtype_literal (ih (by omega) (firm_baseOf l) hb hc h hbc)
  | boolean hs hst ht htf =>
    cases h' with
    | unionLeft h =>
      have := size_le_sizeList hs
      have := size_le_sizeList ht
      have htrue : (ofBool true).size = 2 := size_literal (.boolean true)
      have hfalse : (ofBool false).size = 2 := size_literal (.boolean false)
      simp only [size] at hn
      exact isSubtype_boolean hc
        (ih (by omega) (.literal _) (hb.of_union _ hs) hc hst (h _ hs))
        (ih (by omega) (.literal _) (hb.of_union _ ht) hc htf (h _ ht))
    | core h => cases h
    | records hr _ => cases hr
  | core hcore =>
    cases h' with
    | never | unionLeft | intersectionLeft => cases hcore
    | boolean =>
      cases hcore
      exact hbc
    | @base m _ h =>
      cases hcore with
      | singletons hl hlm =>
        cases ha with
        | literal l => exact isSubtype_literal (by rwa [baseOf_eq_of_same hlm])
    | core h => exact (core_trans ih (by omega) ha hb hc hcore h).isSubtype
    | records hr _ => cases hr <;> cases hcore
  | records hr hbeneath =>
    cases h' with
    | never | unionLeft | intersectionLeft | boolean | base => cases hr
    | core h => cases hr <;> cases h
    | records hr' h =>
      exact (hr.trans hr').isSubtype (beneath_trans ih (by omega) ha hb hc hr hr' hbeneath h)

/-- What `b` is part of by a rule for the right type, every part of `b` is part of. -/
theorem isSubtype_or_inner {n : Nat} (ih : TransBelow n) {a b c : Ty}
    (hn : a.size + b.size + c.size ≤ n) (ha : Firm a) (hb : Firm b) (hc : Firm c)
    (hab : isSubtype a b = true) (h : Step b c) : isSubtype a c = true ∨ Inner b c := by
  cases h with
  | inner h => exact .inr h
  | unknown => exact .inl (isSubtype_unknown a)
  | unionRight hm h =>
    have := size_le_sizeList hm
    simp only [size] at hn
    exact .inl (isSubtype_union_of_mem hm (ih (by omega) ha hb (hc.of_union _ hm) hab h))
  | intersectionRight h =>
    refine .inl (isSubtype_intersectionRight fun arm hm => ?_)
    have := size_le_sizeList hm
    simp only [size] at hn
    exact ih (by omega) ha hb (hc.of_intersection arm hm).1 hab (h arm hm)

theorem transBelow (n : Nat) : TransBelow n := by
  induction n with
  | zero => intro a b c hn; omega
  | succ n ih =>
    intro a b c hn ha hb hc hab hbc
    have hright := isSubtype_or_inner ih (by omega) ha hb hc hab (step_of_isSubtype hb hc hbc)
    rcases hright with h | hinner
    · exact h
    -- Either `a` is taken apart, or the constructors of `b` decide both steps.
    cases step_of_isSubtype ha hb hab with
    | unknown =>
      cases hinner with
      | core h => cases h
      | records hr _ => cases hr
    | unionRight hm hle =>
      cases hinner with
      | unionLeft h =>
        have := size_le_sizeList hm
        simp only [size] at hn
        exact ih (by omega) ha (hb.of_union _ hm) hc hle (h _ hm)
      | core h => cases h
      | records hr _ => cases hr
    | intersectionRight hle =>
      cases hinner with
      | intersectionLeft hm h =>
        have := size_le_sizeList hm
        simp only [size] at hn
        exact ih (by omega) ha (hb.of_intersection _ hm).1 hc (hle _ hm) h
      | core h => cases h
      | records hr _ => cases hr
    | inner h => exact inner_trans ih (by omega) ha hb hc h hinner hbc

/-- Subtyping is transitive among types that are firm with the same forms. -/
theorem FirmIn.trans {a b c : Ty} (ha : FirmIn booleans labels a) (hb : FirmIn booleans labels b)
    (hc : FirmIn booleans labels c) (hab : isSubtype a b = true) (hbc : isSubtype b c = true) :
    isSubtype a c = true :=
  transBelow _ (Nat.lt_succ_self _) ha.firm hb.firm hc.firm hab hbc

/-- Subtyping of firm types is transitive. -/
theorem isSubtype_trans {a b c : Ty} (ha : Firm a) (hb : Firm b) (hc : Firm c)
    (hab : isSubtype a b = true) (hbc : isSubtype b c = true) : isSubtype a c = true :=
  ha.trans hb hc hab hbc

/-- A module that exports a function from texts to the two truth values in order. -/
def pairModule : Ty :=
  module [⟨"f", function [string] (tuple [ofBool true, ofBool false]), true⟩, ⟨"x", null, false⟩]

/-- Objects with a function from one text to truth values. -/
def flagsObject : Ty := object [⟨"f", function [ofString "key"] (array boolean)⟩]

/-- The same, where the two truth values are listed. -/
def casesObject : Ty :=
  object [⟨"f", function [ofString "key"] (array (union [ofBool false, ofBool true]))⟩]

theorem firm_pairModule : Firm pairModule := by
  refine .module ?_ ?_
  · simp only [List.forall_mem_cons, List.not_mem_nil, false_imp_iff, implies_true, and_true]
    refine ⟨.function ?_ (.tuple ?_), .null⟩
    · simpa using .string
    · simpa using ⟨.literal (.boolean true), .literal (.boolean false)⟩
  · simp [isSubtype, same]

theorem firm_flagsObject : Firm flagsObject := by
  refine .object ?_ ?_
  · simpa using .function (by simpa using .literal (.string "key")) (.array (.boolean rfl))
  · simp [isSubtype, same]

theorem firm_casesObject : Firm casesObject := by
  refine .object ?_ ?_
  · simp only [List.forall_mem_cons, List.not_mem_nil, false_imp_iff, implies_true, and_true]
    refine .function (by simpa using .literal (.string "key")) (.array (.union ?_))
    simpa using ⟨.literal (.boolean false), .literal (.boolean true)⟩
  · simp [isSubtype, same]

/-- From a module to an object, against the parameters, from a tuple to an array and through
    `boolean`. -/
theorem isSubtype_trans_casesObject :
    (isSubtype pairModule flagsObject = true ∧ isSubtype flagsObject casesObject = true) ∧
      isSubtype pairModule casesObject = true := by
  have hab : isSubtype pairModule flagsObject = true := by
    have hkey : isSubtype (ofString "key") string = true :=
      isSubtype_literal (isSubtype_refl (baseOf (.string "key")))
    have htruth : ∀ b, isSubtype (ofBool b) boolean = true := fun b =>
      isSubtype_literal (isSubtype_refl (baseOf (.boolean b)))
    have hparams : isSubtypeList [ofString "key"] [string] = true := by
      simp [isSubtypeList, hkey]
    have hresult : isSubtype (tuple [ofBool true, ofBool false]) (array boolean) = true :=
      (Core.items (by simp [htruth])).isSubtype
    refine Records.exports.isSubtype (.members ?_)
    simpa [members, field?] using (Core.function hparams hresult).isSubtype
  have hbc : isSubtype flagsObject casesObject = true := by
    have hresult : isSubtype (array boolean) (array (union [ofBool false, ofBool true])) = true :=
      (Core.array (isSubtype_booleanUnion (by simp) (isSubtype_refl (ofBool true))
        (by simp) (isSubtype_refl (ofBool false)))).isSubtype
    have hparams : isSubtypeList [ofString "key"] [ofString "key"] = true := by
      simp [isSubtypeList, isSubtype_refl]
    refine Records.objects.isSubtype (.members ?_)
    simpa [members, field?] using (Core.function hparams hresult).isSubtype
  exact ⟨⟨hab, hbc⟩, isSubtype_trans firm_pairModule firm_flagsObject firm_casesObject hab hbc⟩

end ReactiveDoc.Ty
