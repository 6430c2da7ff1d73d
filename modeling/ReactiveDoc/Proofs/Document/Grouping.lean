import Mathlib.Data.Fintype.Basic
import Mathlib.Order.WellFounded
import Mathlib.Data.Fintype.Order
import ReactiveDoc.Proofs.Document.Components
import ReactiveDoc.Proofs.Document.Uses

namespace ReactiveDoc

/-!
# The groups of a document

* `exists_isReady` — of several components one uses no other of them.
* `orderComponents_pairwise` — a component comes after those that it uses.
* `OrderedGroups` — what a document's groups are to be, said by uses alone.
* `fragmentGroups_ordered` — `fragmentGroups` answers such groups.
-/

variable {us : List Use} {n : Nat}

/-! ### The order of components -/

theorem orderComponents_perm (fuel : Nat) (pending : List (List Nat)) :
    (orderComponents us fuel pending).Perm pending := by
  induction fuel generalizing pending with
  | zero => exact .refl _
  | succ fuel ih =>
    unfold orderComponents
    split
    · rename_i members hready
      exact ((ih (pending.erase members)).cons members).trans
        (List.perm_cons_erase (List.mem_of_find?_eq_some hready)).symm
    · exact .refl _

/-- A ready component uses none of those that are pending with it. -/
theorem isReady_iff {pending : List (List Nat)} {members : List Nat} :
    isReady us pending members = true ↔
      ∀ d user, Edge us d user → user ∈ members → d ∈ members ∨ ∀ other ∈ pending, d ∉ other := by
  unfold isReady Edge
  simp only [List.all_eq_true, Bool.or_eq_true, Bool.not_eq_true', List.contains_eq_mem,
    decide_eq_true_eq, decide_eq_false_iff_not, List.any_eq_false]
  constructor
  · rintro h d user ⟨deferred, hmem⟩ huser
    rcases h _ hmem with (h | h) | h
    · exact absurd huser h
    · exact .inl h
    · exact .inr h
  · intro h u hu
    by_cases huser : u.user ∈ members
    · rcases h _ _ ⟨u.deferred, hu⟩ huser with h | h
      · exact .inl (.inr h)
      · exact .inr h
    · exact .inl (.inl huser)

/-- Uses are between the first `n` fragments. -/
def UsesBelow (us : List Use) (n : Nat) : Prop := ∀ d user, Edge us d user → d < n ∧ user < n

/-- The first fragment is used by the second, directly or not, but not the other way round. -/
def Precedes (us : List Use) (a b : Nat) : Prop := Reaches us a b ∧ ¬ Reaches us b a

/-- Of several components one uses no other of them. -/
theorem exists_isReady (hus : UsesBelow us n) {pending : List (List Nat)}
    (hpending : pending.Sublist (components us n)) (hne : pending ≠ []) :
    ∃ members ∈ pending, isReady us pending members = true := by
  -- A member of a pending component that no other such member precedes: there are finitely many.
  have hwf : WellFounded fun a b : Fin n => Precedes us a b := by
    have : IsTrans (Fin n) fun a b => Precedes us a b :=
      ⟨fun a b c hab hbc => ⟨hab.1.trans hbc.1, fun hca => hab.2 (hbc.1.trans hca)⟩⟩
    have : Std.Irrefl fun a b : Fin n => Precedes us a b := ⟨fun a h => h.2 .refl⟩
    exact Finite.wellFounded_of_trans_of_irrefl _
  obtain ⟨members, hmembers⟩ := List.exists_mem_of_ne_nil pending hne
  obtain ⟨c, hcn, rfl, hhead⟩ := mem_components_iff.mp (hpending.subset hmembers)
  let waiting : Set (Fin n) := { a | ∃ members ∈ pending, a.val ∈ members }
  have hwaiting : waiting.Nonempty := ⟨⟨c, hcn⟩, _, hmembers, List.mem_of_head? hhead⟩
  obtain ⟨a, ⟨members, hmem, ha⟩, hleast⟩ := hwf.has_min waiting hwaiting
  refine ⟨members, hmem, isReady_iff.mpr fun d user hedge huser => ?_⟩
  by_cases hd : d ∈ members
  · exact .inl hd
  · refine .inr fun other hother hdother => ?_
    have hcomponent {x : Nat} := mem_of_mem_components (b := x) (hpending.subset hmem) ha
    have hda : Reaches us d a := .head hedge (hcomponent.mp huser).2.2
    have hdn := (hus d user hedge).1
    refine hleast ⟨d, hdn⟩ ⟨other, hother, hdother⟩ ⟨hda, fun had => hd ?_⟩
    exact hcomponent.mpr ⟨hdn, had, hda⟩

/-- No use in the first list of fragments reads one of the second list. -/
def NoUse (us : List Use) (earlier later : List Nat) : Prop :=
  ∀ user ∈ earlier, ∀ d ∈ later, ¬ Edge us d user

/-- A component comes after those that it uses. -/
theorem orderComponents_pairwise (hus : UsesBelow us n) {fuel : Nat} {pending : List (List Nat)}
    (hfuel : pending.length ≤ fuel) (hpending : pending.Sublist (components us n)) :
    (orderComponents us fuel pending).Pairwise (NoUse us) := by
  induction fuel generalizing pending with
  | zero =>
    obtain rfl : pending = [] := List.length_eq_zero_iff.mp (by omega)
    exact .nil
  | succ fuel ih =>
    unfold orderComponents
    split
    · rename_i members hfind
      have hmem := List.mem_of_find?_eq_some hfind
      have hready := isReady_iff.mp (List.find?_some hfind)
      have hshorter : (pending.erase members).length ≤ fuel := by
        rw [List.length_erase_of_mem hmem]
        omega
      have hrest := ih hshorter (List.erase_sublist.trans hpending)
      refine List.pairwise_cons.mpr ⟨fun later hlater user huser d hd hedge => ?_, hrest⟩
      have hlater := (orderComponents_perm fuel _).mem_iff.mp hlater
      -- What comes later is another component, so it does not hold the members that this one uses.
      have hdisjoint : members.Disjoint later :=
        (List.pairwise_cons.mp ((List.perm_cons_erase hmem).pairwise_iff
          (fun h => h.symm) |>.mp (components_pairwise_disjoint.sublist hpending))).1 later hlater
      rcases hready d user hedge huser with hdm | hnone
      · exact hdisjoint hdm hd
      · exact hnone later (List.mem_of_mem_erase hlater) hd
    · rename_i hnone
      cases pending with
      | nil => exact .nil
      | cons first rest =>
        obtain ⟨members, hmem, hready⟩ := exists_isReady hus hpending (by simp)
        exact absurd hready (List.find?_eq_none.mp hnone members hmem)

/-! ### Groups -/

theorem groupOf_members (kinds : List NodeKind) (us : List Use) (members : List Nat) :
    (groupOf kinds us members).members = members := rfl

/-- A group is cyclic if it has several members or a fragment that uses its own binding. -/
theorem groupOf_cyclic_iff {kinds : List NodeKind} {members : List Nat} :
    (groupOf kinds us members).cyclic = true ↔
      1 < members.length ∨ ∃ a ∈ members, Edge us a a := by
  simp only [groupOf, innerUses, Bool.or_eq_true, decide_eq_true_eq, List.any_eq_true,
    List.mem_filter, Bool.and_eq_true, List.contains_iff_mem, beq_iff_eq]
  refine or_congr_right ⟨?_, ?_⟩
  · rintro ⟨⟨d, user, deferred⟩, ⟨hu, hd, -⟩, rfl : d = user⟩
    exact ⟨d, hd, deferred, hu⟩
  · rintro ⟨a, ha, deferred, hu⟩
    exact ⟨_, ⟨hu, ha, ha⟩, rfl⟩

/-- A cyclic group is legal if all its members are annotated and all uses in it are deferred. -/
theorem groupOf_legal_iff {kinds : List NodeKind} {members : List Nat}
    (hmembers : ∀ a ∈ members, a < kinds.length) :
    (groupOf kinds us members).legal = true ↔
      (groupOf kinds us members).cyclic = true ∧
      (∀ a ∈ members, ∃ kind, kinds[a]? = some kind ∧ kind.isAnnotatedBinding = true) ∧
      ∀ d ∈ members, ∀ user ∈ members, ∀ deferred, ⟨d, user, deferred⟩ ∈ us → deferred = true := by
  have hlegal : (groupOf kinds us members).legal = ((groupOf kinds us members).cyclic &&
      ((innerUses us members).all Use.deferred &&
        (members.filterMap fun m => kinds[m]?).all NodeKind.isAnnotatedBinding)) := rfl
  rw [hlegal, Bool.and_eq_true, Bool.and_eq_true]
  refine and_congr_right fun _ => ?_
  rw [and_comm]
  refine and_congr ?_ ?_
  · simp only [List.all_eq_true, List.mem_filterMap]
    constructor
    · intro h a ha
      have hget := List.getElem?_eq_getElem (hmembers a ha)
      exact ⟨_, hget, h _ ⟨a, ha, hget⟩⟩
    · rintro h kind ⟨a, ha, hkind⟩
      obtain ⟨kind', hkind', hannotated⟩ := h a ha
      obtain rfl : kind' = kind := Option.some.inj (hkind'.symm.trans hkind)
      exact hannotated
  · simp only [innerUses, List.all_eq_true, List.mem_filter, Bool.and_eq_true,
      List.contains_iff_mem]
    exact ⟨fun h d hd user huser deferred hu => h ⟨d, user, deferred⟩ ⟨hu, hd, huser⟩,
      fun h u hu => h u.definition hu.2.1 u.user hu.2.2 u.deferred hu.1⟩

/-! ### Documents -/

/-- A fragment reads the other, in an arrow or not. -/
def Uses (t : Tree) (fragments : List NodeId) (definition user : Nat) : Prop :=
  ∃ deferred, UsedBy t fragments definition user deferred

/-- The first fragment is used by the second, directly or through others. -/
def Leads (t : Tree) (fragments : List NodeId) : Nat → Nat → Prop :=
  Relation.ReflTransGen (Uses t fragments)

/-- The fragment at a position is a `const` or `let` with an annotation. -/
def Annotated (t : Tree) (fragments : List NodeId) (position : Nat) : Prop :=
  ∃ node kind, fragments[position]? = some node ∧ t.kind node = .ok kind ∧
    kind.isAnnotatedBinding = true

/-- What the groups of a document are to be. -/
structure OrderedGroups (t : Tree) (fragments : List NodeId) (groups : List Group) : Prop where
  /-- Every fragment is a member of one group, once. -/
  perm : (groups.flatMap Group.members).Perm (List.range fragments.length)
  /-- Two fragments are in one group if and only if each leads to the other. -/
  together : ∀ a < fragments.length, ∀ b < fragments.length, a ≠ b →
    ((∃ g ∈ groups, a ∈ g.members ∧ b ∈ g.members) ↔
      Leads t fragments a b ∧ Leads t fragments b a)
  /-- No fragment uses one of a later group. -/
  ordered : groups.Pairwise fun earlier later =>
    ∀ user ∈ earlier.members, ∀ d ∈ later.members, ¬ Uses t fragments d user
  cyclic_iff : ∀ g ∈ groups, g.cyclic = true ↔
    1 < g.members.length ∨ ∃ a ∈ g.members, Uses t fragments a a
  legal_iff : ∀ g ∈ groups, g.legal = true ↔ g.cyclic = true ∧
    (∀ a ∈ g.members, Annotated t fragments a) ∧
    ∀ d ∈ g.members, ∀ user ∈ g.members, ∀ deferred,
      UsedBy t fragments d user deferred → deferred = true

section

variable {t : Tree} {fragments : List NodeId}

theorem edge_iff (h : uses t fragments = .ok us) {d user : Nat} :
    Edge us d user ↔ Uses t fragments d user :=
  exists_congr fun _ => mem_uses_iff h

theorem reaches_eq_leads (h : uses t fragments = .ok us) : Reaches us = Leads t fragments := by
  have hedge : Edge us = Uses t fragments :=
    funext fun _ => funext fun _ => propext (edge_iff h)
  unfold Reaches Leads
  rw [hedge]

/-- The walk for uses looks at the form of the fragment first. -/
theorem kind_eq_ok_of_references {node : NodeId} {references : List Reference}
    (h : t.references node = .ok references) : ∃ kind, t.kind node = .ok kind := by
  unfold Tree.references Tree.depthLimit Tree.referencesWithin at h
  obtain ⟨kind, hkind, -⟩ := Except.bind_eq_ok_iff.mp h
  exact ⟨kind, hkind⟩

/-- The groups are the components in their order. -/
theorem fragmentGroups_eq_ok_iff {groups : List Group} :
    fragmentGroups t fragments = .ok groups ↔
      ∃ kinds us, fragmentKinds t fragments = .ok kinds ∧ uses t fragments = .ok us ∧
        groups = (orderComponents us (components us fragments.length).length
          (components us fragments.length)).map (groupOf kinds us) := by
  unfold fragmentGroups
  simp only [Except.bind_eq_ok_iff]
  constructor
  · rintro ⟨kinds, hkinds, us, hus, hgroups⟩
    cases hgroups
    exact ⟨kinds, us, hkinds, hus, rfl⟩
  · rintro ⟨kinds, us, hkinds, hus, rfl⟩
    exact ⟨kinds, hkinds, us, hus, rfl⟩

/-- There are groups wherever each fragment can be walked. -/
theorem exists_fragmentGroups_iff :
    (∃ groups, fragmentGroups t fragments = .ok groups) ↔
      ∀ node ∈ fragments, ∃ references, t.references node = .ok references := by
  simp only [fragmentGroups_eq_ok_iff]
  constructor
  · rintro ⟨_, _, us, -, hus, -⟩
    obtain ⟨_, -, hus⟩ := Except.bind_eq_ok_iff.mp hus
    obtain ⟨found, hfound, -⟩ := Except.bind_eq_ok_iff.mp hus
    exact exists_mapM_eq_ok_iff.mp ⟨found, hfound⟩
  · intro h
    obtain ⟨found, hfound⟩ := exists_mapM_eq_ok_iff.mpr h
    obtain ⟨kinds, hkinds⟩ : ∃ kinds, fragmentKinds t fragments = .ok kinds :=
      exists_mapM_eq_ok_iff.mpr fun node hnode => kind_eq_ok_of_references (h node hnode).choose_spec
    exact ⟨_, kinds, _, hkinds, Except.bind_eq_ok_iff.mpr
      ⟨kinds, hkinds, Except.bind_eq_ok_iff.mpr ⟨found, hfound, rfl⟩⟩, rfl⟩

/-- The groups made of the components in their order are what they are to be. -/
theorem orderedGroups_of_uses {kinds : List NodeKind} (hkinds : fragmentKinds t fragments = .ok kinds)
    (hus : uses t fragments = .ok us) :
    OrderedGroups t fragments
      ((orderComponents us (components us fragments.length).length
        (components us fragments.length)).map (groupOf kinds us)) := by
  set parts := components us fragments.length with hparts
  have hbelow : UsesBelow us fragments.length := fun d user hedge =>
    ((edge_iff hus).mp hedge).choose_spec.lt_length
  have hperm : (orderComponents us parts.length parts).Perm parts := orderComponents_perm _ _
  have hlength : fragments.length = kinds.length := length_of_mapM_ok hkinds
  have hmem {g : Group} : g ∈ (orderComponents us parts.length parts).map (groupOf kinds us) ↔
      ∃ members ∈ parts, groupOf kinds us members = g := by
    simp only [List.mem_map, hperm.mem_iff]
  -- Every fragment once, groups by mutual use, definitions first, then which groups are cyclic and
  -- which legal.
  refine ⟨?_, ?_, ?_, ?_, ?_⟩
  · have hflat : ((orderComponents us parts.length parts).map (groupOf kinds us)).flatMap
        Group.members = (orderComponents us parts.length parts).flatten := by
      rw [List.flatMap_map, List.flatten_eq_flatMap]
      rfl
    rw [hflat]
    exact hperm.flatten.trans components_flatten_perm
  · intro a ha b hb _
    rw [← reaches_eq_leads hus]
    constructor
    · rintro ⟨g, hg, hag, hbg⟩
      obtain ⟨members, hmembers, rfl⟩ := hmem.mp hg
      exact ((mem_of_mem_components hmembers hag).mp hbg).2
    · intro hmutual
      obtain ⟨members, hmembers, ham⟩ : ∃ members ∈ parts, a ∈ members := exists_mem_components ha
      exact ⟨_, hmem.mpr ⟨members, hmembers, rfl⟩, ham,
        (mem_of_mem_components hmembers ham).mpr ⟨hb, hmutual⟩⟩
  · refine List.pairwise_map.mpr ?_
    refine (orderComponents_pairwise hbelow (Nat.le_refl _) (.refl _)).imp ?_
    exact fun h user huser d hd huses => h user huser d hd ((edge_iff hus).mpr huses)
  · intro g hg
    obtain ⟨members, -, rfl⟩ := hmem.mp hg
    simp only [groupOf_cyclic_iff, edge_iff hus, groupOf_members]
  · intro g hg
    obtain ⟨members, hmembers, rfl⟩ := hmem.mp hg
    have hlt : ∀ a ∈ members, a < kinds.length := fun a ha =>
      hlength ▸ ((mem_of_mem_components hmembers ha).mp ha).1
    simp only [groupOf_legal_iff hlt, mem_uses_iff hus, groupOf_members]
    refine and_congr_right fun _ => and_congr_left fun _ => forall₂_congr fun a _ => ?_
    simp only [getElem?_of_mapM_ok hkinds]
    constructor
    · rintro ⟨kind, ⟨node, hnode, hkind⟩, hannotated⟩
      exact ⟨node, kind, hnode, hkind, hannotated⟩
    · rintro ⟨node, kind, hnode, hkind, hannotated⟩
      exact ⟨kind, ⟨node, hnode, hkind⟩, hannotated⟩

end

/-- A document is put into groups by its uses, unless there is a fragment below which nodes are
    missing or run in a circle. -/
theorem fragmentGroups_ordered (t : Tree) (fragments : List NodeId) :
    match fragmentGroups t fragments with
    | .ok groups => OrderedGroups t fragments groups
    | .error _ => ∃ node ∈ fragments, ∃ fault, t.references node = .error fault := by
  cases hgroups : fragmentGroups t fragments with
  | ok groups =>
    obtain ⟨kinds, us, hkinds, hus, rfl⟩ := fragmentGroups_eq_ok_iff.mp hgroups
    exact orderedGroups_of_uses hkinds hus
  | error fault =>
    have hnone : ¬ ∃ groups, fragmentGroups t fragments = .ok groups := by
      rintro ⟨groups, hok⟩
      rw [hgroups] at hok
      cases hok
    rw [exists_fragmentGroups_iff] at hnone
    push Not at hnone
    obtain ⟨node, hnode, hnone⟩ := hnone
    refine ⟨node, hnode, ?_⟩
    cases hrefs : t.references node with
    | ok references => exact absurd hrefs (hnone references)
    | error fault => exact ⟨fault, rfl⟩

end ReactiveDoc
