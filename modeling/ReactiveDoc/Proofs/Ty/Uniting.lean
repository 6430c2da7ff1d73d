import ReactiveDoc.Proofs.Ty.Widening

namespace ReactiveDoc.Ty

/-!
# What a union and a widened type are part of

What bounds a union bounds its parts, and what bounds a widened type bounds the type.  Both take
that nothing is lost where types come together, since subtyping is not transitive.

* `SharesBounds` — what one type is part of or apart from, another is.
* `Congruent` — among several types, equivalent ones share their bounds.
* `Unites` — among several types, equivalent ones are all part of what is expected if one is;
  `Unites.isSubtype` — then all of the types are if their union is.
* `disjoint_of_disjoint_unionOf` — what is apart from a union is from the types it is built from.
* `Container.sharesBounds` — a kind of objects that is told apart by its elements shares their
  bounds.
* `forall_of_isSubtype_object`, `isSubtype_function` — the parts of what is part of an object or a
  function type.
* `Lossless`, `Lossless.sharesBounds` — types that share the bounds of what they are widened to.
-/

/-! ### Unions -/

/-- What the first type is part of the second one is, and what it is disjoint from as well. -/
structure SharesBounds (s t : Ty) : Prop where
  le : ∀ u, isSubtype s u = true → isSubtype t u = true
  apart : ∀ u, disjoint s u = true → disjoint t u = true

theorem SharesBounds.refl (t : Ty) : SharesBounds t t := ⟨fun _ => id, fun _ => id⟩

/-- Of these types, those that are equivalent share their bounds. -/
def Congruent (ts : List Ty) : Prop :=
  ∀ s ∈ ts, ∀ t ∈ ts, isEquivalent s t = true → SharesBounds s t

variable {ts : List Ty} {a b t u : Ty}

/-- Where equivalent types are equal nothing is lost. -/
theorem congruent_of_eq (h : ∀ s ∈ ts, ∀ t ∈ ts, isEquivalent s t = true → s = t) :
    Congruent ts := by
  intro s hs t ht hequiv
  rw [h s hs t ht hequiv]
  exact .refl t

/-- Of the arms that a union is built from, an equivalent one is kept. -/
theorem exists_kept {s : Ty} (hs : s ∈ unionParts ts) :
    ∃ k ∈ (unionParts ts).foldl addArm [], k ∈ unionParts ts ∧ isEquivalent k s = true := by
  obtain ⟨k, hk, hequiv⟩ : ∃ k ∈ (unionParts ts).foldl addArm [], isEquivalent k s = true :=
    exists_isEquivalent_foldl_addArm hs
  exact ⟨k, hk, (mem_foldl_addArm hk).resolve_left List.not_mem_nil, hequiv⟩

theorem isSubtype_of_ofArms {arms : List Ty} (h : isSubtype (ofArms arms) u = true) :
    ∀ arm ∈ arms, isSubtype arm u = true := by
  intro arm hm
  rcases ofArms_cases arms with ⟨rfl, -⟩ | ⟨_, rfl, heq⟩ | ⟨-, heq⟩
  · cases hm
  · rwa [List.mem_singleton.1 hm, ← heq]
  · exact isSubtype_of_unionLeft (heq ▸ h) hm

theorem disjoint_of_ofArms {arms : List Ty} (h : disjoint (ofArms arms) u = true) :
    ∀ arm ∈ arms, disjoint arm u = true := by
  intro arm hm
  rcases ofArms_cases arms with ⟨rfl, -⟩ | ⟨_, rfl, heq⟩ | ⟨-, heq⟩
  · cases hm
  · rwa [List.mem_singleton.1 hm, ← heq]
  · exact disjoint_unionLeft.1 (heq ▸ h) arm hm

/-- Types whose union is compared with `u`: of equivalent ones all are part of `u` if one is, and
    `u` is no error, of which no union is part. -/
structure Unites (ts : List Ty) (u : Ty) : Prop where
  le : ∀ s ∈ unionParts ts, ∀ t ∈ unionParts ts, isEquivalent s t = true →
    Ty.isSubtype s u = true → Ty.isSubtype t u = true
  noError : u.isError = false

theorem Congruent.unites (hc : Congruent (unionParts ts)) (hu : u.isError = false) : Unites ts u :=
  ⟨fun s hs t ht hequiv => (hc s hs t ht hequiv).le u, hu⟩

/-- A part is part of what the union is compared with, also one that was left out. -/
theorem Unites.isSubtype_part (h : Unites ts u) (hle : Ty.isSubtype (unionOf ts) u = true) {s : Ty}
    (hs : s ∈ unionParts ts) : Ty.isSubtype s u = true := by
  obtain ⟨k, hk, hpart, hequiv⟩ := exists_kept hs
  exact h.le k hpart s hs hequiv (isSubtype_of_ofArms hle k hk)

/-- Types fit where their union does. -/
theorem Unites.isSubtype (h : Unites ts u) (hle : Ty.isSubtype (unionOf ts) u = true)
    (ht : t ∈ ts) : Ty.isSubtype t u = true := by
  cases t with
  | never => exact isSubtype_never u
  | union arms =>
    exact isSubtype_unionLeft h.noError fun arm hm =>
      h.isSubtype_part hle (mem_unionParts.2 (.inl ⟨arms, ht, hm⟩))
  | _ => exact h.isSubtype_part hle (mem_unionParts.2 (.inr ⟨ht, by simp, by simp⟩))

/-- A part is disjoint from whatever the union is disjoint from, also one that was left out. -/
theorem disjoint_of_unionOf (hc : Congruent (unionParts ts)) (h : disjoint (unionOf ts) u = true)
    {s : Ty} (hs : s ∈ unionParts ts) : disjoint s u = true := by
  obtain ⟨k, hk, hpart, hequiv⟩ := exists_kept hs
  exact (hc k hpart s hs hequiv).apart u (disjoint_of_ofArms h k hk)

theorem disjoint_of_disjoint_unionOf (hc : Congruent (unionParts ts))
    (h : disjoint (unionOf ts) u = true) (ht : t ∈ ts) : disjoint t u = true := by
  cases t with
  | never => rw [disjoint]
  | union arms =>
    exact disjoint_unionLeft.2 fun arm hm =>
      disjoint_of_unionOf hc h (mem_unionParts.2 (.inl ⟨arms, ht, hm⟩))
  | _ => exact disjoint_of_unionOf hc h (mem_unionParts.2 (.inr ⟨ht, by simp, by simp⟩))

/-! ### Containers -/

/-- Types of values that hold others and are widened by widening these. -/
def Container : Ty → Prop
  | tuple _ | array _ | set _ | map _ _ | object _ => True
  | _ => False

/-- A type that containers are compared with by its outermost constructor. -/
def Direct : Ty → Prop
  | unknown | error _ | union _ | intersection _ | complement _ => False
  | _ => True

namespace Container

theorem whole (h : Container a) : Whole a := by
  cases a <;> first | exact h.elim | trivial

theorem isError_eq_false (h : Container a) : a.isError = false := by
  cases a <;> first | exact h.elim | rfl

theorem kind?_eq (h : Container a) : kind? a = some .object := by
  cases a <;> first | exact h.elim | rfl

theorem isSubtype_complement (h : Container a) (hd : disjoint a u = true) :
    isSubtype a (complement u) = true := by
  rw [isSubtype.eq_def, Bool.or_eq_true]
  cases a <;> first | exact h.elim | exact .inr hd

theorem disjoint_of_isSubtype (h : Container a) (hle : isSubtype a (complement u) = true) :
    disjoint a u = true := by
  cases a <;> first
    | exact h.elim
    | cases isSubtype_cases hle with
      | same h => simp [same] at h
      | apart h => exact h

/-- What is disjoint from a container is so by its kind, or by a field. -/
theorem disjoint_below (n : Nat) (ha : Container a) (hb : Container b)
    (hfields : ∀ gs, disjoint a (object gs) = true → disjoint b (object gs) = true) :
    ∀ u : Ty, u.size < n → disjoint a u = true → disjoint b u = true := by
  induction n with
  | zero => intro u hn; omega
  | succ n ih =>
    intro u hn h
    have hsize {arms : List Ty} {arm : Ty} (hm : arm ∈ arms) (hlt : (union arms).size < n + 1) :
        arm.size < n := by
      have := size_le_sizeList hm
      simp only [size] at hlt
      omega
    -- A union is compared arm by arm, which the bound on the size allows; all other types tell
    -- containers apart by their kind, and both have the same one.
    cases disjoint_cases h with
    | neverLeft | unionLeft | singletons => exact ha.elim
    | neverRight => exact disjoint_never b
    | unionRight =>
      exact disjoint_unionRight.2 fun arm hm => ih arm (hsize hm hn) (disjoint_unionRight.1 h arm hm)
    | fields => exact hfields _ h
    | kinds hk => exact disjoint_kinds (by rwa [kindsDiffer, hb.kind?_eq, ← ha.kind?_eq])

/-- Containers are part of the same types if those that they are compared with directly are the
    same. -/
theorem isSubtype_below (n : Nat) (ha : Container a) (hb : Container b)
    (hapart : ∀ u, disjoint a u = true → disjoint b u = true)
    (hdirect : ∀ u, Direct u → isSubtype a u = true → isSubtype b u = true) :
    ∀ u : Ty, u.size < n → isSubtype a u = true → isSubtype b u = true := by
  induction n with
  | zero => intro u hn; omega
  | succ n ih =>
    intro u hn h
    have hsize {arms : List Ty} {arm : Ty} (hm : arm ∈ arms) (hle : sizeList arms + 2 < n + 1) :
        arm.size < n := by
      have := size_le_sizeList hm
      omega
    cases u with
    | unknown => exact isSubtype_unknown b
    | error cause =>
      rcases isSubtype_error_iff.1 h with rfl | he
      · exact ha.elim
      · cases ha.isError_eq_false.symm.trans he
    | union arms =>
      obtain ⟨arm, hm, h⟩ := exists_arm ha.isError_eq_false ha.whole h
      exact isSubtype_union_of_mem hm (ih arm (hsize hm hn) h)
    | intersection arms =>
      have h := forall_arms ha.isError_eq_false ha.whole h
      exact isSubtype_intersectionRight fun arm hm => ih arm (hsize hm hn) (h arm hm)
    | complement v => exact hb.isSubtype_complement (hapart v (ha.disjoint_of_isSubtype h))
    | _ => exact hdirect _ trivial h

theorem sharesBounds (ha : Container a) (hb : Container b)
    (hfields : ∀ gs, disjoint a (object gs) = true → disjoint b (object gs) = true)
    (hdirect : ∀ u, Direct u → isSubtype a u = true → isSubtype b u = true) :
    SharesBounds a b := by
  have hapart : ∀ u, disjoint a u = true → disjoint b u = true := fun u =>
    disjoint_below _ ha hb hfields u (Nat.lt_succ_self _)
  exact ⟨fun u => isSubtype_below _ ha hb hapart hdirect u (Nat.lt_succ_self _), hapart⟩

/-- Only objects are disjoint from objects by a field. -/
theorem sharesBounds_of_ne_object (ha : Container a) (hb : Container b)
    (hne : ∀ fs, a ≠ object fs)
    (hdirect : ∀ u, Direct u → isSubtype a u = true → isSubtype b u = true) :
    SharesBounds a b := by
  refine sharesBounds ha hb (fun gs hd => ?_) hdirect
  cases a <;> first
    | exact ha.elim
    | exact absurd rfl (hne _)
    | cases disjoint_cases hd with
      | kinds hk => simp [kindsDiffer, kind?] at hk

end Container

/-! ### Parts of subtypes -/

/-- Of an object type that is a subtype of another, the fields are, and those that it does not have
    may be missing. -/
theorem forall_of_isSubtype_object {fs gs : List (Field Ty)} (hn : (fs.map Field.name).Nodup)
    (h : isSubtype (object fs) (object gs) = true) :
    (∀ f ∈ fs, ∀ g, gs.find? (fun g => g.name == f.name) = some g → isSubtype f.ty g.ty = true) ∧
      ∀ g ∈ gs, g.name ∉ fs.map Field.name → isSubtype undefined g.ty = true := by
  rcases isSubtype_object.1 h with hsame | hfields
  · refine ⟨fun f hf g hg => ?_, fun g hg hnew => ?_⟩
    · obtain ⟨f', hf', hty⟩ := find?_of_sameFields hsame hg
      cases (find?_name_of_nodup hn hf).symm.trans hf'
      exact isSubtype_of_same hty
    · obtain ⟨f, hf, hname, -⟩ := exists_mem_of_sameFields hsame g hg
      exact absurd (hname ▸ List.mem_map_of_mem hf) hnew
  · refine ⟨fun f hf g hg => ?_, fun g hg hnew => ?_⟩
    · have hname : g.name = f.name := by simpa using List.find?_some hg
      have hle := hfields g (List.mem_of_find?_eq_some hg)
      rwa [hname, field?, find?_name_of_nodup hn hf] at hle
    · have hle := hfields g hg
      have hnone : (fs.find? fun f => f.name == g.name) = none := by
        simpa using hnew
      rwa [field?, hnone] at hle

/-- Of a function type that is a subtype of another, the parameters are wider and the result is
    narrower. -/
theorem isSubtype_function {as bs : List Ty} {r s : Ty}
    (h : isSubtype (function as r) (function bs s) = true) :
    isSubtypeList bs as = true ∧ isSubtype r s = true := by
  cases isSubtype_cases h with
  | same h =>
    rw [same, Bool.and_eq_true] at h
    have hparams := sameList_symm (fun _ _ _ => same_symm) h.1
    exact ⟨isSubtypeList_of_sameList hparams, isSubtype_of_same h.2⟩
  | function hp hr => exact ⟨hp, hr⟩

/-! ### Widened types -/

/-- A type that loses nothing when it is widened: the keys of its maps are as wide as they get, of
    the widened arms of a union those that stand for each other share their bounds, and they are
    neither nothing nor one error. -/
inductive Lossless : Ty → Prop
  | fixed {t : Ty} (h : t.widen = t) : Lossless t
  | literal (l : Literal) : Lossless (literal l)
  | tuple {items : List Ty} (h : ∀ t ∈ items, Lossless t) : Lossless (tuple items)
  | array {item : Ty} (h : Lossless item) : Lossless (array item)
  | set {item : Ty} (h : Lossless item) : Lossless (set item)
  | map {key value : Ty} (hk : key.widen = key) (hv : Lossless value) : Lossless (map key value)
  | object {fields : List (Field Ty)} (hn : (fields.map Field.name).Nodup)
      (h : ∀ f ∈ fields, Lossless f.ty) : Lossless (object fields)
  | union {arms : List Ty} (h : ∀ t ∈ arms, Lossless t)
      (hc : Congruent (unionParts (arms.map widen)))
      (he : ∀ cause, isSubtype (union arms).widen (error cause) = false) : Lossless (union arms)

theorem isSubtypeList_of_widen {items bs : List Ty}
    (h : ∀ t ∈ items, SharesBounds t.widen t) (hle : isSubtypeList (items.map widen) bs = true) :
    isSubtypeList items bs = true := by
  induction items generalizing bs with
  | nil => exact hle
  | cons t ts ih =>
    cases bs with
    | nil => simp [isSubtypeList] at hle
    | cons b bs =>
      rw [List.forall_mem_cons] at h
      rw [List.map_cons, isSubtypeList, Bool.and_eq_true] at hle
      rw [isSubtypeList, h.1.le b hle.1, ih h.2 hle.2, Bool.and_self]

theorem field?_map_widenField (fields : List (Field Ty)) (name : String) :
    (object (fields.map widenField)).field? name = ((object fields).field? name).map widen := by
  simp only [field?, List.find?_map, Option.map_map, Function.comp_def, widenField]

section

variable {items : List Ty} {item value key : Ty} {fields : List (Field Ty)}

theorem sharesBounds_tuple (h : ∀ t ∈ items, SharesBounds t.widen t) :
    SharesBounds (tuple (items.map widen)) (tuple items) := by
  refine Container.sharesBounds_of_ne_object trivial trivial (by simp) fun u hu hle => ?_
  cases isSubtype_cases hle with
  | unknown | intersectionRight | unionRight | apart => exact hu.elim
  | same hs =>
    cases u <;> simp only [same, Bool.false_eq_true] at hs
    exact (Core.tuple (isSubtypeList_of_widen h (isSubtypeList_of_sameList hs))).isSubtype
  | tuple hitems => exact (Core.tuple (isSubtypeList_of_widen h hitems)).isSubtype
  | items hitems =>
    exact (Core.items fun t ht => (h t ht).le _ (hitems _ (List.mem_map_of_mem ht))).isSubtype

theorem sharesBounds_array (h : SharesBounds item.widen item) :
    SharesBounds (array item.widen) (array item) := by
  refine Container.sharesBounds_of_ne_object trivial trivial (by simp) fun u hu hle => ?_
  cases isSubtype_cases hle with
  | unknown | intersectionRight | unionRight | apart => exact hu.elim
  | same hs =>
    cases u <;> simp only [same, Bool.false_eq_true] at hs
    exact (Core.array (h.le _ (isSubtype_of_same hs))).isSubtype
  | array hitem => exact (Core.array (h.le _ hitem)).isSubtype

theorem sharesBounds_set (h : SharesBounds item.widen item) :
    SharesBounds (set item.widen) (set item) := by
  refine Container.sharesBounds_of_ne_object trivial trivial (by simp) fun u hu hle => ?_
  cases isSubtype_cases hle with
  | unknown | intersectionRight | unionRight | apart => exact hu.elim
  | same hs =>
    cases u <;> simp only [same, Bool.false_eq_true] at hs
    exact (Core.set (h.le _ (isSubtype_of_same hs))).isSubtype
  | set hitem => exact (Core.set (h.le _ hitem)).isSubtype

theorem sharesBounds_map (h : SharesBounds value.widen value) :
    SharesBounds (map key value.widen) (map key value) := by
  refine Container.sharesBounds_of_ne_object trivial trivial (by simp) fun u hu hle => ?_
  cases isSubtype_cases hle with
  | unknown | intersectionRight | unionRight | apart => exact hu.elim
  | same hs =>
    cases u <;> simp only [same, Bool.false_eq_true, Bool.and_eq_true] at hs
    exact (Core.map (isSubtype_of_same (same_symm hs.1))
      (h.le _ (isSubtype_of_same hs.2))).isSubtype
  | map hk hv => exact (Core.map hk (h.le _ hv)).isSubtype

theorem sharesBounds_object (hn : (fields.map Field.name).Nodup)
    (h : ∀ f ∈ fields, SharesBounds f.ty.widen f.ty) :
    SharesBounds (object (fields.map widenField)) (object fields) := by
  refine Container.sharesBounds trivial trivial (fun gs hd => ?_) fun u hu hle => ?_
  · cases disjoint_cases hd with
    | kinds hk => simp [kindsDiffer, kind?] at hk
    | fields hmem hg hname hd =>
      obtain ⟨f, hf, rfl⟩ := List.mem_map.1 hmem
      exact disjoint_fields hf hg hname ((h f hf).apart _ hd)
  · cases u with
    | object gs =>
      refine isSubtype_object.2 (.inr fun g hg => ?_)
      rcases isSubtype_object.1 hle with hsame | hle
      · -- Fields are the same in any order, so that names have to tell which one is meant.
        obtain ⟨_, hmem, hname, hty⟩ := exists_mem_of_sameFields hsame g hg
        obtain ⟨f, hf, rfl⟩ := List.mem_map.1 hmem
        rw [← hname, widenField, field?, find?_name_of_nodup hn hf]
        exact (h f hf).le _ (isSubtype_of_same hty)
      · have hle := hle g hg
        rw [field?_map_widenField] at hle
        cases hfield : (object fields).field? g.name with
        | none => rwa [hfield] at hle
        | some t =>
          obtain ⟨f, hf, rfl⟩ := Option.map_eq_some_iff.1 hfield
          rw [hfield] at hle
          exact (h f (List.mem_of_find?_eq_some hf)).le _ hle
    | unknown | error | union | intersection | complement => exact hu.elim
    | _ =>
      cases isSubtype_cases hle with
      | same hs => simp [same] at hs

end

/-- A lossless type is part of whatever the widened type is part of, and apart from whatever that
    is apart from. -/
theorem Lossless.sharesBounds (h : Lossless t) : SharesBounds t.widen t := by
  induction h with
  | fixed h =>
    rw [h]
    exact .refl _
  | literal l => exact ⟨fun u => isSubtype_literal, fun u => disjoint_literal⟩
  | tuple _ ih => simpa using sharesBounds_tuple ih
  | array _ ih => exact sharesBounds_array ih
  | set _ ih => exact sharesBounds_set ih
  | map hk _ ih =>
    rw [widen_map, hk]
    exact sharesBounds_map ih
  | object hn _ ih => simpa using sharesBounds_object hn ih
  | @union arms _ hc he ih =>
    rw [widen_union] at he ⊢
    refine ⟨fun u hle => ?_, fun u hd => ?_⟩
    · -- No union is part of an error, and by `he` the widened arms are not either.
      have hu : u.isError = false := by
        cases u with
        | error cause => cases (he cause).symm.trans hle
        | _ => rfl
      exact isSubtype_unionLeft hu fun arm hm =>
        (ih arm hm).le u ((hc.unites hu).isSubtype hle (List.mem_map_of_mem hm))
    · exact disjoint_unionLeft.2 fun arm hm =>
        (ih arm hm).apart u (disjoint_of_disjoint_unionOf hc hd (List.mem_map_of_mem hm))

end ReactiveDoc.Ty
