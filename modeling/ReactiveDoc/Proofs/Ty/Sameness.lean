import ReactiveDoc.Proofs.Ty.Inhabiting

namespace ReactiveDoc.Ty

/-!
# Equality of types

* `same_refl`, `same_symm`, `same_trans` — equality is an equivalence.
* `exists_mem_of_sameList`, `find?_of_sameFields` — what equal lists have in common.
-/

/-! ### Reflexivity -/

mutual

/-- Equality is reflexive. -/
theorem same_refl : ∀ a : Ty, same a a = true
  | never | unknown | undefined | null | boolean | number | string => by rw [same]
  | error cause => by rw [same, beq_self_eq_true]
  | tuple ts | union ts | intersection ts => by rw [same, sameList_refl ts]
  | array t | set t | complement t => by rw [same, same_refl t]
  | map k v => by rw [same, same_refl k, same_refl v, Bool.and_self]
  | labelled l ts => by rw [same, beq_self_eq_true, sameList_refl ts, Bool.and_self]
  | function ps r => by rw [same, sameList_refl ps, same_refl r, Bool.and_self]
  | object fs => by rw [same, sameFields_refl fs]
  | module es => by rw [same, sameExports_refl es]
  | singleton base l => by rw [same, same_refl base, Literal.same_refl, Bool.and_self]

theorem sameList_refl : ∀ ts : List Ty, sameList ts ts = true
  | [] => by rw [sameList]
  | t :: ts => by rw [sameList, same_refl t, sameList_refl ts, Bool.and_self]

theorem sameFields_refl : ∀ fs : List (Field Ty), sameFields fs fs = true
  | [] => by rw [sameFields]
  | ⟨_, t⟩ :: fs => by simp only [sameFields, beq_self_eq_true, same_refl t, sameFields_refl fs,
      Bool.and_self]

theorem sameExports_refl : ∀ es : List (Export Ty), sameExports es es = true
  | [] => by rw [sameExports]
  | ⟨_, t, _⟩ :: es => by simp only [sameExports, beq_self_eq_true, same_refl t,
      sameExports_refl es, Bool.and_self]

end

/-! ### Symmetry -/

/-- Equality is symmetric for the members of a list and so for the list. -/
theorem sameList_symm {xs ys : List Ty}
    (hx : ∀ x ∈ xs, ∀ y, same x y = true → same y x = true) (h : sameList xs ys = true) :
    sameList ys xs = true := by
  induction xs generalizing ys with
  | nil => cases ys <;> simp_all [sameList]
  | cons x xs ih =>
    cases ys with
    | nil => simp [sameList] at h
    | cons y ys =>
      simp only [sameList, Bool.and_eq_true, List.forall_mem_cons] at h hx ⊢
      exact ⟨hx.1 y h.1, ih hx.2 h.2⟩

theorem sameFields_symm {fs gs : List (Field Ty)}
    (hf : ∀ f ∈ fs, ∀ y, same f.ty y = true → same y f.ty = true)
    (h : sameFields fs gs = true) : sameFields gs fs = true := by
  induction fs generalizing gs with
  | nil => cases gs <;> simp_all [sameFields]
  | cons f fs ih =>
    cases gs with
    | nil => simp [sameFields] at h
    | cons g gs =>
      obtain ⟨n, x⟩ := f
      obtain ⟨m, y⟩ := g
      simp only [sameFields, Bool.and_eq_true, beq_iff_eq, List.forall_mem_cons] at h hf ⊢
      exact ⟨⟨h.1.1.symm, hf.1 y h.1.2⟩, ih hf.2 h.2⟩

theorem sameExports_symm {es gs : List (Export Ty)}
    (he : ∀ e ∈ es, ∀ y, same e.ty y = true → same y e.ty = true)
    (h : sameExports es gs = true) : sameExports gs es = true := by
  induction es generalizing gs with
  | nil => cases gs <;> simp_all [sameExports]
  | cons e es ih =>
    cases gs with
    | nil => simp [sameExports] at h
    | cons g gs =>
      obtain ⟨n, x, d⟩ := e
      obtain ⟨m, y, d'⟩ := g
      simp only [sameExports, Bool.and_eq_true, beq_iff_eq, List.forall_mem_cons] at h he ⊢
      exact ⟨⟨⟨h.1.1.1.symm, he.1 y h.1.1.2⟩, h.1.2.symm⟩, ih he.2 h.2⟩

theorem same_symm_below (n : Nat) : ∀ a b : Ty, a.size < n →
    same a b = true → same b a = true := by
  induction n with
  | zero => intro a b hn; omega
  | succ n ih =>
    intro a b hn h
    have hlist : ∀ xs : List Ty, sizeList xs < n →
        ∀ x ∈ xs, ∀ y, same x y = true → same y x = true := fun xs hxs x hx y =>
      ih x y (Nat.lt_of_le_of_lt (size_le_sizeList hx) hxs)
    cases same_cases h with
    | refl => exact h
    | tuple ht | union ht | intersection ht =>
      simp only [same, size] at hn ⊢
      exact sameList_symm (hlist _ (by omega)) ht
    | array hx | set hx | complement hx =>
      simp only [same, size] at hn ⊢
      exact ih _ _ (by omega) hx
    | map hk hv =>
      simp only [same, size, Bool.and_eq_true] at hn ⊢
      exact ⟨ih _ _ (by omega) hk, ih _ _ (by omega) hv⟩
    | labelled ht =>
      simp only [same, size, beq_self_eq_true, Bool.true_and] at hn ⊢
      exact sameList_symm (hlist _ (by omega)) ht
    | function hp hr =>
      simp only [same, size, Bool.and_eq_true] at hn ⊢
      exact ⟨sameList_symm (hlist _ (by omega)) hp, ih _ _ (by omega) hr⟩
    | object hfs =>
      simp only [same, size] at hn ⊢
      refine sameFields_symm (fun f hf y => ih f.ty y ?_) hfs
      have := size_le_sizeFields hf
      omega
    | module hes =>
      simp only [same, size] at hn ⊢
      refine sameExports_symm (fun e he y => ih e.ty y ?_) hes
      have := size_le_sizeExports he
      omega
    | singleton hb hl =>
      simp only [same, size, Bool.and_eq_true] at hn ⊢
      exact ⟨ih _ _ (by omega) hb, (Literal.same_comm _ _).trans hl⟩

/-- Equality of types is symmetric. -/
theorem same_symm {a b : Ty} (h : same a b = true) : same b a = true :=
  same_symm_below _ a b (Nat.lt_succ_self _) h

/-! ### Transitivity -/

theorem sameList_trans {xs ys zs : List Ty}
    (hx : ∀ x ∈ xs, ∀ y z, same x y = true → same y z = true → same x z = true)
    (h : sameList xs ys = true) (h' : sameList ys zs = true) : sameList xs zs = true := by
  induction xs generalizing ys zs with
  | nil => cases ys <;> simp_all [sameList]
  | cons x xs ih =>
    cases ys with
    | nil => simp [sameList] at h
    | cons y ys =>
      cases zs with
      | nil => simp [sameList] at h'
      | cons z zs =>
        simp only [sameList, Bool.and_eq_true, List.forall_mem_cons] at h h' hx ⊢
        exact ⟨hx.1 y z h.1 h'.1, ih hx.2 h.2 h'.2⟩

theorem sameFields_trans {fs gs ks : List (Field Ty)}
    (hf : ∀ f ∈ fs, ∀ y z, same f.ty y = true → same y z = true → same f.ty z = true)
    (h : sameFields fs gs = true) (h' : sameFields gs ks = true) : sameFields fs ks = true := by
  induction fs generalizing gs ks with
  | nil => cases gs <;> simp_all [sameFields]
  | cons f fs ih =>
    cases gs with
    | nil => simp [sameFields] at h
    | cons g gs =>
      cases ks with
      | nil => simp [sameFields] at h'
      | cons k ks =>
        obtain ⟨n, x⟩ := f
        obtain ⟨m, y⟩ := g
        obtain ⟨o, z⟩ := k
        simp only [sameFields, Bool.and_eq_true, beq_iff_eq, List.forall_mem_cons] at h h' hf ⊢
        exact ⟨⟨h.1.1.trans h'.1.1, hf.1 y z h.1.2 h'.1.2⟩, ih hf.2 h.2 h'.2⟩

theorem sameExports_trans {es gs ks : List (Export Ty)}
    (he : ∀ e ∈ es, ∀ y z, same e.ty y = true → same y z = true → same e.ty z = true)
    (h : sameExports es gs = true) (h' : sameExports gs ks = true) :
    sameExports es ks = true := by
  induction es generalizing gs ks with
  | nil => cases gs <;> simp_all [sameExports]
  | cons e es ih =>
    cases gs with
    | nil => simp [sameExports] at h
    | cons g gs =>
      cases ks with
      | nil => simp [sameExports] at h'
      | cons k ks =>
        obtain ⟨n, x, d⟩ := e
        obtain ⟨m, y, d'⟩ := g
        obtain ⟨o, z, d''⟩ := k
        simp only [sameExports, Bool.and_eq_true, beq_iff_eq, List.forall_mem_cons] at h h' he ⊢
        exact ⟨⟨⟨h.1.1.1.trans h'.1.1.1, he.1 y z h.1.1.2 h'.1.1.2⟩, h.1.2.trans h'.1.2⟩,
          ih he.2 h.2 h'.2⟩

theorem same_trans_below (n : Nat) : ∀ a b c : Ty, a.size < n →
    same a b = true → same b c = true → same a c = true := by
  induction n with
  | zero => intro a b c hn; omega
  | succ n ih =>
    intro a b c hn h h'
    have hlist : ∀ xs : List Ty, sizeList xs < n →
        ∀ x ∈ xs, ∀ y z, same x y = true → same y z = true → same x z = true :=
      fun xs hxs x hx y z => ih x y z (Nat.lt_of_le_of_lt (size_le_sizeList hx) hxs)
    -- Equal types have the same constructor, so the second equality goes by the case of the first.
    cases same_cases h with
    | refl => exact h'
    | tuple ht | union ht | intersection ht =>
      cases same_cases h' with
      | refl => exact h
      | _ ht' =>
        simp only [same, size] at hn ⊢
        exact sameList_trans (hlist _ (by omega)) ht ht'
    | array hx | set hx | complement hx =>
      cases same_cases h' with
      | refl => exact h
      | _ hx' =>
        simp only [same, size] at hn ⊢
        exact ih _ _ _ (by omega) hx hx'
    | map hk hv =>
      cases same_cases h' with
      | refl => exact h
      | map hk' hv' =>
        simp only [same, size, Bool.and_eq_true] at hn ⊢
        exact ⟨ih _ _ _ (by omega) hk hk', ih _ _ _ (by omega) hv hv'⟩
    | labelled ht =>
      cases same_cases h' with
      | refl => exact h
      | labelled ht' =>
        simp only [same, size, beq_self_eq_true, Bool.true_and] at hn ⊢
        exact sameList_trans (hlist _ (by omega)) ht ht'
    | function hp hr =>
      cases same_cases h' with
      | refl => exact h
      | function hp' hr' =>
        simp only [same, size, Bool.and_eq_true] at hn ⊢
        exact ⟨sameList_trans (hlist _ (by omega)) hp hp', ih _ _ _ (by omega) hr hr'⟩
    | object hfs =>
      cases same_cases h' with
      | refl => exact h
      | object hfs' =>
        simp only [same, size] at hn ⊢
        refine sameFields_trans (fun f hf y z => ih f.ty y z ?_) hfs hfs'
        have := size_le_sizeFields hf
        omega
    | module hes =>
      cases same_cases h' with
      | refl => exact h
      | module hes' =>
        simp only [same, size] at hn ⊢
        refine sameExports_trans (fun e he y z => ih e.ty y z ?_) hes hes'
        have := size_le_sizeExports he
        omega
    | singleton hb hl =>
      cases same_cases h' with
      | refl => exact h
      | singleton hb' hl' =>
        simp only [same, size, Bool.and_eq_true] at hn ⊢
        exact ⟨ih _ _ _ (by omega) hb hb', Literal.same_trans hl hl'⟩

/-- Equality of types is transitive. -/
theorem same_trans {a b c : Ty} (h : same a b = true) (h' : same b c = true) : same a c = true :=
  same_trans_below _ a b c (Nat.lt_succ_self _) h h'


/-! ### Equal lists -/

theorem exists_mem_of_sameList {xs ys : List Ty} (h : sameList xs ys = true) :
    ∀ x ∈ xs, ∃ y ∈ ys, same x y = true := by
  induction xs generalizing ys with
  | nil => simp
  | cons x xs ih =>
    cases ys with
    | nil => simp [sameList] at h
    | cons y ys =>
      simp only [sameList, Bool.and_eq_true] at h
      rw [List.forall_mem_cons]
      refine ⟨⟨y, List.mem_cons_self, h.1⟩, fun x' hx' => ?_⟩
      obtain ⟨y', hy', hxy⟩ := ih h.2 x' hx'
      exact ⟨y', List.mem_cons_of_mem _ hy', hxy⟩

theorem exists_mem_of_sameFields {fs gs : List (Field Ty)} (h : sameFields fs gs = true) :
    ∀ g ∈ gs, ∃ f ∈ fs, f.name = g.name ∧ same f.ty g.ty = true := by
  induction fs generalizing gs with
  | nil => cases gs <;> simp_all [sameFields]
  | cons f fs ih =>
    cases gs with
    | nil => simp
    | cons g gs =>
      obtain ⟨n, x⟩ := f
      obtain ⟨m, y⟩ := g
      simp only [sameFields, Bool.and_eq_true, beq_iff_eq] at h
      rw [List.forall_mem_cons]
      refine ⟨⟨_, List.mem_cons_self, h.1.1, h.1.2⟩, fun g' hg' => ?_⟩
      obtain ⟨f', hf', hfg⟩ := ih h.2 g' hg'
      exact ⟨f', List.mem_cons_of_mem _ hf', hfg⟩

/-- The first fields of a name in equal lists are equal. -/
theorem find?_of_sameFields {fs gs : List (Field Ty)} {name : String} {g : Field Ty}
    (h : sameFields fs gs = true) (hg : gs.find? (fun g => g.name == name) = some g) :
    ∃ f, fs.find? (fun f => f.name == name) = some f ∧ same f.ty g.ty = true := by
  induction fs generalizing gs with
  | nil => cases gs <;> simp_all [sameFields]
  | cons f fs ih =>
    cases gs with
    | nil => simp at hg
    | cons g' gs =>
      obtain ⟨n, x⟩ := f
      obtain ⟨m, y⟩ := g'
      simp only [sameFields, Bool.and_eq_true, beq_iff_eq] at h
      obtain ⟨⟨rfl, hxy⟩, hrest⟩ := h
      cases hn : n == name with
      | true =>
        simp only [List.find?_cons, hn, Option.some.injEq] at hg ⊢
        subst hg
        exact ⟨_, rfl, hxy⟩
      | false =>
        simp only [List.find?_cons, hn] at hg ⊢
        exact ih hrest hg

/-- Equal exports are equal as fields. -/
theorem sameFields_of_sameExports {es gs : List (Export Ty)} (h : sameExports es gs = true) :
    sameFields (es.map fun e => ⟨e.name, e.ty⟩) (gs.map fun e => ⟨e.name, e.ty⟩) = true := by
  induction es generalizing gs with
  | nil => cases gs <;> simp_all [sameExports, sameFields]
  | cons e es ih =>
    cases gs with
    | nil => simp [sameExports] at h
    | cons g gs =>
      obtain ⟨n, x, d⟩ := e
      obtain ⟨m, y, d'⟩ := g
      simp only [sameExports, Bool.and_eq_true] at h
      simp only [List.map_cons, sameFields, Bool.and_eq_true]
      exact ⟨h.1.1, ih h.2⟩

end ReactiveDoc.Ty
