import Mathlib.Data.List.Nodup
import ReactiveDoc.Text.EditDistance

namespace ReactiveDoc.Text

/-!
# Close names, each once and in order

* `IsClose` — a name is spelled like another, but not the same.
* `Nearer` — the order of suggestions: by distance, then by name.
* `mem_closeNames`, `pairwise_closeNames` — the close candidates are suggested, in that order, which
  no name has to itself, so that each is there once.
* `closeNames_congr` — which names are suggested depends on the close ones among the candidates
  only, not on their order, not on how often they are there and not on the others.
* `closeNames_exact` — what is suggested, as a whole.
-/

/-- The distance of two names is within the bound, and they are not the same. -/
def IsClose (bound : Nat) (target name : String) : Prop :=
  0 < editDistance target name ∧ editDistance target name ≤ bound

theorem Near.before_total (a b : Near) : (a.before b || b.before a) = true := by
  unfold Near.before
  rcases Nat.lt_trichotomy a.distance b.distance with h | h | h
  · simp [Nat.ne_of_lt h, h]
  · simp only [h, ↓reduceIte, Bool.or_eq_true, decide_eq_true_eq]
    exact String.le_total a.name b.name
  · simp [Nat.ne_of_lt h, h]

theorem Near.before_trans (a b c : Near) (hab : a.before b = true) (hbc : b.before c = true) :
    a.before c = true := by
  unfold Near.before at *
  split at hab <;> split at hbc <;> simp only [decide_eq_true_eq] at hab hbc
  · rename_i h h'
    rw [if_pos (h.trans h'), decide_eq_true_eq]
    exact String.le_trans hab hbc
  · rw [if_neg (by omega), decide_eq_true_eq]
    omega
  · rw [if_neg (by omega), decide_eq_true_eq]
    omega
  · rw [if_neg (by omega), decide_eq_true_eq]
    omega

theorem Near.before_antisymm {a b : Near} (hab : a.before b = true) (hba : b.before a = true) :
    a = b := by
  obtain ⟨name, distance⟩ := a
  obtain ⟨name', distance'⟩ := b
  unfold Near.before at *
  split at hab <;> split at hba <;> simp only [decide_eq_true_eq] at hab hba
  · rename_i h _
    obtain rfl : distance = distance' := h
    rw [String.le_antisymm hab hba]
  · omega
  · omega
  · omega

/-- A close name with its distance. -/
def nearOf? (bound : Nat) (target name : String) : Option Near :=
  let distance := editDistance target name
  if 0 < distance ∧ distance ≤ bound then some ⟨name, distance⟩ else none

theorem closeNames_eq (target : String) (candidates : List String) (bound : Nat) :
    closeNames target candidates bound =
      (dropRepeats ((candidates.filterMap (nearOf? bound target)).mergeSort Near.before)).map
        Near.name := rfl

theorem nearOf?_eq_some_iff {bound : Nat} {target name : String} {n : Near} :
    nearOf? bound target name = some n ↔
      IsClose bound target name ∧ ⟨name, editDistance target name⟩ = n :=
  Option.ite_none_right_eq_some.trans (and_congr_right fun _ => Option.some_inj)

/-! ### Repeats -/

/-- The distance of the entry is that of its name. -/
def Near.Measured (target : String) (n : Near) : Prop := n.distance = editDistance target n.name

variable {target : String} {bound : Nat} {near : List Near}

theorem Near.Measured.eq_of_name {a b : Near} (ha : a.Measured target) (hb : b.Measured target)
    (h : a.name = b.name) : a = b := by
  obtain ⟨name, distance⟩ := a
  obtain ⟨name', distance'⟩ := b
  obtain rfl : name = name' := h
  obtain rfl : distance = distance' := ha.trans hb.symm
  rfl

theorem dropRepeats_sublist (near : List Near) : (dropRepeats near).Sublist near := by
  fun_induction dropRepeats near with
  | case1 a b rest _ ih => exact ih.trans ((List.sublist_cons_self b rest).cons_cons a)
  | case2 a b rest _ ih => exact ih.cons_cons a
  | case3 short => exact .refl short

/-- No entry is lost for good. -/
theorem mem_dropRepeats (h : ∀ n ∈ near, n.Measured target) {n : Near} :
    n ∈ dropRepeats near ↔ n ∈ near := by
  refine ⟨fun hn => (dropRepeats_sublist near).subset hn, ?_⟩
  fun_induction dropRepeats near with
  | case1 a b rest hab ih =>
    simp only [List.forall_mem_cons] at h
    obtain rfl := h.1.eq_of_name h.2.1 hab
    intro hn
    exact ih (List.forall_mem_cons.mpr h.2) (by simpa using hn)
  | case2 a b rest _ ih =>
    intro hn
    rcases List.mem_cons.mp hn with rfl | hn
    · exact List.mem_cons_self
    · exact List.mem_cons_of_mem a (ih (fun m hm => h m (List.mem_cons_of_mem a hm)) hn)
  | case3 => exact id

/-- Equal names stand side by side in a sorted list, so that none is left twice. -/
theorem pairwise_dropRepeats (h : ∀ n ∈ near, n.Measured target)
    (hsorted : near.Pairwise fun a b => a.before b = true) :
    (dropRepeats near).Pairwise fun a b => a.before b = true ∧ a.name ≠ b.name := by
  fun_induction dropRepeats near with
  | case1 a b rest hab ih =>
    refine ih (fun n hn => h n ?_) (hsorted.sublist ((List.sublist_cons_self b rest).cons_cons a))
    exact ((List.sublist_cons_self b rest).cons_cons a).subset hn
  | case2 a b rest hab ih =>
    obtain ⟨ha, hrest⟩ := List.pairwise_cons.mp hsorted
    refine List.pairwise_cons.mpr ⟨fun n hn => ?_, ih (fun n hn => h n (.tail a hn)) hrest⟩
    have hmem : n ∈ b :: rest := (dropRepeats_sublist (b :: rest)).subset hn
    refine ⟨ha n hmem, fun hname => ?_⟩
    -- What is further back and has the name of the first entry is that entry, and so is `b`.
    obtain rfl : a = n := (h a List.mem_cons_self).eq_of_name (h n (.tail a hmem)) hname
    rcases List.mem_cons.mp hmem with rfl | hlater
    · exact hab rfl
    · have hba := (List.pairwise_cons.mp hrest).1 a hlater
      exact hab (congrArg Near.name (Near.before_antisymm (ha b List.mem_cons_self) hba))
  | case3 short hshort =>
    cases short with
    | nil => exact .nil
    | cons n rest =>
      cases rest with
      | nil => exact List.pairwise_singleton _ n
      | cons m rest => exact absurd rfl (hshort n m rest)

/-! ### Suggestions -/

/-- `a` is suggested before `b`: it is nearer, or as near and earlier in code point order. -/
def Nearer (target a b : String) : Prop :=
  editDistance target a < editDistance target b ∨
    editDistance target a = editDistance target b ∧ a < b

theorem Nearer.irrefl (a : String) : ¬ Nearer target a a := by
  rintro (h | ⟨-, h⟩)
  · exact Nat.lt_irrefl _ h
  · exact String.lt_irrefl a h

theorem Nearer.asymm {a b : String} (h : Nearer target a b) : ¬ Nearer target b a := by
  rcases h with h | ⟨h, hab⟩
  · rintro (h' | ⟨h', -⟩) <;> omega
  · rintro (h' | ⟨-, hba⟩)
    · omega
    · exact String.lt_asymm hab hba

theorem Near.nearer {a b : Near} (ha : a.Measured target) (hb : b.Measured target)
    (h : a.before b = true) (hne : a.name ≠ b.name) : Nearer target a.name b.name := by
  unfold Nearer
  rw [← ha, ← hb]
  unfold Near.before at h
  split at h
  next heq =>
    refine .inr ⟨heq, ?_⟩
    exact String.not_le.mp fun hle => hne (String.le_antisymm (of_decide_eq_true h) hle)
  next => exact .inl (of_decide_eq_true h)

/-- The close names among the candidates, nearest first, with repeats. -/
def sortedNear (target : String) (candidates : List String) (bound : Nat) : List Near :=
  (candidates.filterMap (nearOf? bound target)).mergeSort Near.before

theorem mem_sortedNear {candidates : List String} {n : Near} :
    n ∈ sortedNear target candidates bound ↔
      n.name ∈ candidates ∧ IsClose bound target n.name ∧ n.Measured target := by
  rw [sortedNear, List.mem_mergeSort, List.mem_filterMap]
  simp only [nearOf?_eq_some_iff]
  constructor
  · rintro ⟨name, hmem, hclose, rfl⟩
    exact ⟨hmem, hclose, rfl⟩
  · rintro ⟨hmem, hclose, hmeasured⟩
    exact ⟨n.name, hmem, hclose, congrArg (Near.mk n.name) hmeasured.symm⟩

theorem measured_of_mem_sortedNear {candidates : List String} :
    ∀ n ∈ sortedNear target candidates bound, n.Measured target :=
  fun _ hn => (mem_sortedNear.mp hn).2.2

/-- The close candidates are suggested, and nothing else. -/
theorem mem_closeNames {candidates : List String} {name : String} :
    name ∈ closeNames target candidates bound ↔
      name ∈ candidates ∧ IsClose bound target name := by
  rw [closeNames_eq, ← sortedNear, List.mem_map]
  simp only [mem_dropRepeats measured_of_mem_sortedNear, mem_sortedNear]
  constructor
  · rintro ⟨n, ⟨hmem, hclose, -⟩, rfl⟩
    exact ⟨hmem, hclose⟩
  · rintro ⟨hmem, hclose⟩
    exact ⟨⟨name, editDistance target name⟩, ⟨hmem, hclose, rfl⟩, rfl⟩

/-- Suggestions are sorted by distance, and names at one distance by name. -/
theorem pairwise_closeNames (target : String) (candidates : List String) (bound : Nat) :
    (closeNames target candidates bound).Pairwise (Nearer target) := by
  have hmeasured : ∀ n ∈ sortedNear target candidates bound, n.Measured target :=
    measured_of_mem_sortedNear
  have hsorted : (sortedNear target candidates bound).Pairwise fun a b => a.before b = true :=
    List.pairwise_mergeSort Near.before_trans Near.before_total _
  rw [closeNames_eq, ← sortedNear, List.pairwise_map]
  refine (pairwise_dropRepeats hmeasured hsorted).imp_of_mem fun ha hb hab => ?_
  exact Near.nearer (hmeasured _ ((mem_dropRepeats hmeasured).mp ha))
    (hmeasured _ ((mem_dropRepeats hmeasured).mp hb)) hab.1 hab.2

theorem nodup_closeNames (target : String) (candidates : List String) (bound : Nat) :
    (closeNames target candidates bound).Nodup := by
  refine (pairwise_closeNames target candidates bound).imp ?_
  rintro a b h rfl
  exact Nearer.irrefl a h

/-- The order of the candidates does not count, and neither do repeats and those that are not
    close. -/
theorem closeNames_congr {cs cs' : List String}
    (h : ∀ name, IsClose bound target name → (name ∈ cs ↔ name ∈ cs')) :
    closeNames target cs bound = closeNames target cs' bound := by
  have hperm : (closeNames target cs bound).Perm (closeNames target cs' bound) := by
    refine (List.perm_ext_iff_of_nodup (nodup_closeNames ..) (nodup_closeNames ..)).mpr fun name => ?_
    rw [mem_closeNames, mem_closeNames]
    exact and_congr_left fun hclose => h name hclose
  -- A list that is sorted by an asymmetric order is determined by its members.
  exact hperm.eq_of_pairwise (fun _ _ _ _ hab hba => absurd hba hab.asymm)
    (pairwise_closeNames ..) (pairwise_closeNames ..)

/-- The suggestions are the distinct candidates whose distance is between one and the bound, each
    once, sorted by distance and then by name.  They are the same for all lists of candidates with
    the same close names. -/
theorem closeNames_exact (target : String) (candidates : List String) (bound : Nat) :
    (∀ name, name ∈ closeNames target candidates bound ↔
      name ∈ candidates ∧ 1 ≤ editDistance target name ∧ editDistance target name ≤ bound) ∧
    (closeNames target candidates bound).Nodup ∧
    (closeNames target candidates bound).Pairwise (Nearer target) ∧
    ∀ others, (∀ name, IsClose bound target name → (name ∈ others ↔ name ∈ candidates)) →
      closeNames target others bound = closeNames target candidates bound :=
  ⟨fun _ => mem_closeNames, nodup_closeNames target candidates bound,
    pairwise_closeNames target candidates bound, fun _ h => closeNames_congr h⟩

theorem closeNames_exact_count :
    (∀ name, name ∈ ["total", "count", "counter", "count"] ↔ name ∈ ["count", "counter", "total"]) ∧
      closeNames "coutn" ["total", "count", "counter", "count"] 2 =
        closeNames "coutn" ["count", "counter", "total"] 2 := by
  have h (name : String) :
      name ∈ ["total", "count", "counter", "count"] ↔ name ∈ ["count", "counter", "total"] := by
    simp only [List.mem_cons, List.not_mem_nil]
    tauto
  exact ⟨h, (closeNames_exact "coutn" ["count", "counter", "total"] 2).2.2.2 _ fun name _ => h name⟩

end ReactiveDoc.Text
