import Mathlib.Data.List.Perm.Lattice
import Mathlib.Logic.Relation
import ReactiveDoc.Document.Group

namespace ReactiveDoc

/-!
# The components of a document

* `Reaches` — a fragment is reached from another along uses.
* `mem_reachedFrom` — `reachedFrom` finds exactly the fragments that are reached.
* `mem_component_iff` — a component holds what reaches its members and is reached from them.
* `components_flatten_perm` — every fragment is in exactly one component.
-/

variable {us : List Use} {n : Nat}

/-! ### Reachability -/

/-- The fragment `definition` is used by the fragment `user`. -/
def Edge (us : List Use) (definition user : Nat) : Prop :=
  ∃ deferred, ⟨definition, user, deferred⟩ ∈ us

/-- The second fragment is reached from the first along uses. -/
def Reaches (us : List Use) : Nat → Nat → Prop := Relation.ReflTransGen (Edge us)

theorem mem_usersOf {d user : Nat} : user ∈ usersOf us d ↔ Edge us d user := by
  unfold usersOf Edge
  simp only [List.mem_filterMap, Option.ite_none_right_eq_some, Option.some.injEq]
  constructor
  · rintro ⟨u, hu, rfl, rfl⟩
    exact ⟨u.deferred, hu⟩
  · rintro ⟨deferred, hu⟩
    exact ⟨_, hu, rfl, rfl⟩

/-- The uses that are still to be followed. -/
def openUses (us : List Use) (seen : List Nat) : List Use :=
  us.filter fun u => !seen.contains u.definition

theorem length_openUses_cons {seen : List Nat} {x : Nat} (hx : x ∉ seen) :
    (openUses us (x :: seen)).length + (usersOf us x).length = (openUses us seen).length := by
  unfold openUses usersOf
  induction us with
  | nil => rfl
  | cons u us ih =>
    by_cases hdef : u.definition = x
    · simp [hdef, hx] at ih ⊢
      omega
    · by_cases hseen : u.definition ∈ seen
      · simpa [List.filter_cons, hdef, hseen] using ih
      · simp [hdef, hseen] at ih ⊢
        omega

theorem explore_nil (fuel : Nat) (seen : List Nat) : explore us fuel [] seen = seen := by
  cases fuel <;> rfl

/-- Everything that is found is reached from what was to be visited. -/
theorem reaches_of_mem_explore {fuel : Nat} {todo seen : List Nat} {x : Nat}
    (hx : x ∈ explore us fuel todo seen) : x ∈ seen ∨ ∃ s ∈ todo, Reaches us s x := by
  induction fuel generalizing todo seen with
  | zero => exact .inl hx
  | succ fuel ih =>
    cases todo with
    | nil => exact .inl hx
    | cons y rest =>
      unfold explore at hx
      split at hx
      · refine (ih hx).imp_right ?_
        rintro ⟨s, hs, hreach⟩
        exact ⟨s, List.mem_cons_of_mem y hs, hreach⟩
      · rcases ih hx with hseen | ⟨s, hs, hreach⟩
        · rcases List.mem_cons.mp hseen with rfl | hseen
          · exact .inr ⟨x, List.mem_cons_self, .refl⟩
          · exact .inl hseen
        · rcases List.mem_append.mp hs with huser | hrest
          · exact .inr ⟨y, List.mem_cons_self, .head (mem_usersOf.mp huser) hreach⟩
          · exact .inr ⟨s, List.mem_cons_of_mem y hrest, hreach⟩

/-- What is found holds what was seen or to be visited, and all users of its members.  Each step
    uses up a fragment to visit or a use to follow, so the fuel suffices. -/
theorem explore_closed {fuel : Nat} {todo seen : List Nat}
    (hfuel : todo.length + (openUses us seen).length ≤ fuel)
    (hseen : ∀ x ∈ seen, ∀ y, Edge us x y → y ∈ seen ∨ y ∈ todo) :
    (∀ x, x ∈ seen ∨ x ∈ todo → x ∈ explore us fuel todo seen) ∧
      ∀ x ∈ explore us fuel todo seen, ∀ y, Edge us x y → y ∈ explore us fuel todo seen := by
  induction fuel generalizing todo seen with
  | zero =>
    obtain rfl : todo = [] := List.length_eq_zero_iff.mp (by omega)
    rw [explore_nil]
    exact ⟨fun x hx => by simpa using hx, fun x hx y hxy => by simpa using hseen x hx y hxy⟩
  | succ fuel ih =>
    cases todo with
    | nil =>
      rw [explore_nil]
      exact ⟨fun x hx => by simpa using hx, fun x hx y hxy => by simpa using hseen x hx y hxy⟩
    | cons a rest =>
      unfold explore
      rw [List.length_cons] at hfuel
      split
      · rename_i ha
        -- What was seen before is dropped.
        have ha : a ∈ seen := List.contains_iff_mem.mp ha
        have hfuel : rest.length + (openUses us seen).length ≤ fuel := by omega
        obtain ⟨hmem, hclosed⟩ := ih hfuel fun x hx y hxy => by
          rcases hseen x hx y hxy with hy | hy
          · exact .inl hy
          · rcases List.mem_cons.mp hy with rfl | hy
            · exact .inl ha
            · exact .inr hy
        refine ⟨fun x hx => hmem x ?_, hclosed⟩
        rcases hx with hx | hx
        · exact .inl hx
        · exact (List.mem_cons.mp hx).imp_left fun (heq : x = a) => heq ▸ ha
      · rename_i ha
        -- What is new uses up its open uses, as many as there are users to visit then.
        have ha : a ∉ seen := fun h => ha (List.contains_iff_mem.mpr h)
        have hfuel : (usersOf us a ++ rest).length + (openUses us (a :: seen)).length ≤ fuel := by
          have : (openUses us (a :: seen)).length + (usersOf us a).length = _ :=
            length_openUses_cons ha
          rw [List.length_append]
          omega
        obtain ⟨hmem, hclosed⟩ := ih hfuel fun x hx y hxy => by
            rcases List.mem_cons.mp hx with rfl | hx
            · exact .inr (List.mem_append_left _ (mem_usersOf.mpr hxy))
            · rcases hseen x hx y hxy with hy | hy
              · exact .inl (List.mem_cons_of_mem a hy)
              · rcases List.mem_cons.mp hy with rfl | hy
                · exact .inl List.mem_cons_self
                · exact .inr (List.mem_append_right _ hy)
        refine ⟨fun x hx => hmem x ?_, hclosed⟩
        rcases hx with hx | hx
        · exact .inl (List.mem_cons_of_mem a hx)
        · rcases List.mem_cons.mp hx with rfl | hx
          · exact .inl List.mem_cons_self
          · exact .inr (List.mem_append_right _ hx)

/-- Exactly the fragments reached from `a` are found from there. -/
theorem mem_reachedFrom {a b : Nat} : b ∈ reachedFrom us a ↔ Reaches us a b := by
  unfold reachedFrom
  constructor
  · intro hb
    rcases reaches_of_mem_explore hb with h | ⟨s, hs, h⟩
    · cases h
    · rwa [List.mem_singleton.mp hs] at h
  · have hfuel : [a].length + (openUses us []).length ≤ us.length + 1 := by
      have := List.length_filter_le (fun u : Use => !([] : List Nat).contains u.definition) us
      simp only [openUses, List.length_singleton]
      omega
    obtain ⟨hmem, hclosed⟩ := explore_closed hfuel fun x hx => nomatch hx
    intro h
    induction h with
    | refl => exact hmem a (.inr List.mem_cons_self)
    | tail _ hedge ih => exact hclosed _ ih _ hedge

/-! ### Components -/

/-- Two fragments reach each other. -/
def Mutual (us : List Use) (a b : Nat) : Prop := Reaches us a b ∧ Reaches us b a

namespace Mutual

variable {a b c : Nat}

theorem refl (a : Nat) : Mutual us a a := ⟨.refl, .refl⟩

theorem symm (h : Mutual us a b) : Mutual us b a := ⟨h.2, h.1⟩

theorem trans (hab : Mutual us a b) (hbc : Mutual us b c) : Mutual us a c :=
  ⟨hab.1.trans hbc.1, hbc.2.trans hab.2⟩

end Mutual

theorem mem_reachTable {a b : Nat} (ha : a < n) :
    b ∈ (reachTable us n).getD a [] ↔ Reaches us a b := by
  unfold reachTable
  simp [Array.getD_eq_getD_getElem?, ha, mem_reachedFrom]

theorem reachEachOther_iff {a b : Nat} (ha : a < n) (hb : b < n) :
    reachEachOther (reachTable us n) a b = true ↔ Mutual us a b := by
  unfold reachEachOther
  rw [Bool.and_eq_true, List.contains_iff_mem, List.contains_iff_mem, mem_reachTable ha,
    mem_reachTable hb]
  exact Iff.rfl

theorem mem_component_iff {a b : Nat} (ha : a < n) :
    b ∈ component (reachTable us n) n a ↔ b < n ∧ Mutual us a b := by
  unfold component
  rw [List.mem_filter, List.mem_range]
  exact and_congr_right fun hb => reachEachOther_iff ha hb

theorem component_pairwise (a : Nat) :
    (component (reachTable us n) n a).Pairwise (· < ·) :=
  List.pairwise_lt_range.filter _

/-- Fragments that reach each other have one component. -/
theorem component_congr {a b : Nat} (ha : a < n) (hb : b < n) (h : Mutual us a b) :
    component (reachTable us n) n a = component (reachTable us n) n b := by
  unfold component
  refine List.filter_congr fun x hx => Bool.eq_iff_iff.mpr ?_
  have hx := List.mem_range.mp hx
  rw [reachEachOther_iff ha hx, reachEachOther_iff hb hx]
  exact ⟨h.symm.trans, h.trans⟩

/-- A component is listed under its first member. -/
theorem mem_components_iff {members : List Nat} :
    members ∈ components us n ↔
      ∃ a < n, members = component (reachTable us n) n a ∧ members.head? = some a := by
  unfold components
  simp only [List.mem_filterMap, List.mem_range, Option.ite_none_right_eq_some, Option.some.injEq]
  constructor
  · rintro ⟨a, ha, hhead, rfl⟩
    exact ⟨a, ha, rfl, hhead⟩
  · rintro ⟨a, ha, rfl, hhead⟩
    exact ⟨a, ha, hhead, rfl⟩

/-- The members of a component reach each other, and whatever they reach that reaches them is a
    member. -/
theorem mem_of_mem_components {members : List Nat} (h : members ∈ components us n) {a b : Nat}
    (ha : a ∈ members) : b ∈ members ↔ b < n ∧ Mutual us a b := by
  obtain ⟨c, hc, rfl, -⟩ := mem_components_iff.mp h
  obtain ⟨han, hca⟩ := (mem_component_iff hc).mp ha
  rw [component_congr hc han hca, mem_component_iff han]

/-- Every fragment is in a component. -/
theorem exists_mem_components {a : Nat} (ha : a < n) : ∃ members ∈ components us n, a ∈ members := by
  have hmem : a ∈ component (reachTable us n) n a := (mem_component_iff ha).mpr ⟨ha, .refl a⟩
  cases hhead : (component (reachTable us n) n a).head? with
  | none => simp [List.head?_eq_none_iff.mp hhead] at hmem
  | some b =>
    obtain ⟨hb, hab⟩ := (mem_component_iff ha).mp (List.mem_of_head? hhead)
    have heq := component_congr ha hb hab
    exact ⟨_, mem_components_iff.mpr ⟨b, hb, heq, hhead⟩, hmem⟩

/-- Two places in the list of components hold no common member. -/
theorem components_pairwise_disjoint : (components us n).Pairwise List.Disjoint := by
  unfold components
  refine List.pairwise_filterMap.mpr (List.nodup_range.imp_of_mem fun {a b} ha hb hne x hx y hy => ?_)
  simp only [Option.ite_none_right_eq_some, Option.some.injEq] at hx hy
  obtain ⟨hxa, rfl⟩ := hx
  obtain ⟨hyb, rfl⟩ := hy
  have ha := List.mem_range.mp ha
  have hb := List.mem_range.mp hb
  -- A common member would make both components the same, and so their first members.
  intro z hza hzb
  have haz := (mem_component_iff ha).mp hza
  have hbz := (mem_component_iff hb).mp hzb
  have heq := component_congr ha hb (haz.2.trans hbz.2.symm)
  rw [heq, hyb] at hxa
  exact hne (Option.some.inj hxa).symm

/-- Every fragment is in exactly one component. -/
theorem components_flatten_perm : (components us n).flatten.Perm (List.range n) := by
  have hnodup : (components us n).flatten.Nodup := by
    refine List.nodup_flatten.mpr ⟨fun members h => ?_, components_pairwise_disjoint⟩
    obtain ⟨a, -, rfl, -⟩ := mem_components_iff.mp h
    exact (component_pairwise a).imp Nat.ne_of_lt
  refine (List.perm_ext_iff_of_nodup hnodup List.nodup_range).mpr fun a => ?_
  rw [List.mem_flatten, List.mem_range]
  constructor
  · rintro ⟨members, h, ha⟩
    exact ((mem_of_mem_components h ha).mp ha).1
  · exact exists_mem_components

end ReactiveDoc
