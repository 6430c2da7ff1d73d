import Mathlib.Data.List.MinMax
import Mathlib.Data.List.Sort
import Mathlib.Logic.Function.Basic
import ReactiveDoc.Proofs.Document.Grouping

namespace ReactiveDoc

/-!
# The least order of groups

A component can come out as soon as those that it uses have.  Instead of looking for such a
component again and again one counts, for every component, the others that it still waits for, and
keeps those whose count is zero in a queue.

* `orderComponents_split` — a component that comes out uses nothing that is still to come, and
  starts before every other component of which the same is true.
* `LeastOrder` — what the order of a document's groups is to be: at every step the one that starts
  earliest, among those that wait for nothing.
* `leastOrder_of_uses` — the groups made of the components in their order come out so.
* `LeastOrder.members_eq` — where no use is of a later fragment, that is the document's order.
* `Countdown` — the counts and the queue; `Countdown.run` takes the components out.
* `Counting` — what the counts and the queue say about the components that are pending.
* `Counting.pop` — taking a component out keeps this.
* `countdown_eq_orderComponents` — the components come out as `orderComponents` orders them, in
  whatever order they have been numbered.
* `fragmentGroups_least` — the groups of a document come out in the least order.
-/

variable {us : List Use} {n : Nat}

/-! ### Components -/

/-- The first member of the one is earlier in the document than that of the other. -/
def StartsBefore (members other : List Nat) : Prop :=
  ∃ a b, members.head? = some a ∧ other.head? = some b ∧ a < b

/-- The components are listed in the order in which they start. -/
theorem components_pairwise_startsBefore : (components us n).Pairwise StartsBefore := by
  unfold components
  refine List.pairwise_filterMap.mpr (List.pairwise_lt_range.imp fun {a b} hlt x hx y hy => ?_)
  simp only [Option.ite_none_right_eq_some, Option.some.injEq] at hx hy
  obtain ⟨hxa, rfl⟩ := hx
  obtain ⟨hyb, rfl⟩ := hy
  exact ⟨a, b, hxa, hyb, hlt⟩

theorem components_nodup : (components us n).Nodup := by
  refine components_pairwise_startsBefore.imp fun {members other} h heq => ?_
  obtain ⟨a, b, ha, hb, hlt⟩ := h
  have hab : some a = some b := by rw [← ha, ← hb, heq]
  exact Nat.ne_of_lt hlt (Option.some.inj hab)

/-- No member of the component uses a fragment in another of those that are pending. -/
def WaitsForNone (us : List Use) (pending : List (List Nat)) (members : List Nat) : Prop :=
  ∀ d user, Edge us d user → user ∈ members → d ∈ members ∨ ∀ other ∈ pending, d ∉ other

theorem waitsForNone_iff {pending : List (List Nat)} {members : List Nat} :
    isReady us pending members = true ↔ WaitsForNone us pending members := isReady_iff

theorem WaitsForNone.mono {pending fewer : List (List Nat)} {members : List Nat}
    (h : WaitsForNone us pending members) (hfewer : ∀ other ∈ fewer, other ∈ pending) :
    WaitsForNone us fewer members := fun d user hedge huser =>
  (h d user hedge huser).imp_right fun hnone other hother => hnone other (hfewer other hother)

/-- A component that comes out waits for none of those still pending, and starts before every other
    of which the same is true. -/
theorem orderComponents_split (hus : UsesBelow us n) {fuel : Nat} {pending : List (List Nat)}
    (hfuel : pending.length ≤ fuel) (hpending : pending.Sublist (components us n))
    {emitted rest : List (List Nat)} {members : List Nat}
    (h : orderComponents us fuel pending = emitted ++ members :: rest) :
    WaitsForNone us (members :: rest) members ∧
      ∀ other ∈ rest, WaitsForNone us (members :: rest) other → StartsBefore members other := by
  induction fuel generalizing pending emitted with
  | zero =>
    obtain rfl : pending = [] := List.length_eq_zero_iff.mp (by omega)
    simp [orderComponents] at h
  | succ fuel ih =>
    unfold orderComponents at h
    split at h
    · rename_i first hfind
      have hfirst := List.mem_of_find?_eq_some hfind
      have hperm : (orderComponents us fuel (pending.erase first)).Perm (pending.erase first) :=
        orderComponents_perm fuel _
      cases emitted with
      | nil =>
        obtain ⟨rfl, rfl⟩ := List.cons.inj h
        have hmem {other : List Nat} :
            other ∈ first :: orderComponents us fuel (pending.erase first) ↔ other ∈ pending :=
          ((hperm.cons first).trans (List.perm_cons_erase hfirst).symm).mem_iff
        refine ⟨(waitsForNone_iff.mp (List.find?_some hfind)).mono fun other => hmem.mp,
          fun other hother hwaits => ?_⟩
        -- What is ready is not in front of the first that is, so it starts later.
        have hready : isReady us pending other = true :=
          waitsForNone_iff.mpr (hwaits.mono fun other => hmem.mpr)
        obtain ⟨-, front, back, rfl, hfront⟩ := List.find?_eq_some_iff_append.mp hfind
        have hnodup : (front ++ first :: back).Nodup := components_nodup.sublist hpending
        have hother := hperm.mem_iff.mp hother
        have hback : other ∈ back := by
          rcases List.mem_append.mp (List.mem_of_mem_erase hother) with hf | hb
          · exact absurd hready (by simpa using hfront other hf)
          · refine (List.mem_cons.mp hb).resolve_left ?_
            rintro rfl
            exact hnodup.not_mem_erase hother
        have hstarts := components_pairwise_startsBefore.sublist hpending
        exact (List.pairwise_cons.mp (List.pairwise_append.mp hstarts).2.1).1 other hback
      | cons _ emitted =>
        obtain ⟨-, h⟩ := List.cons.inj h
        refine ih ?_ (List.erase_sublist.trans hpending) h
        rw [List.length_erase_of_mem hfirst]
        omega
    · rename_i hnone
      cases pending with
      | nil => simp at h
      | cons first rest =>
        obtain ⟨members, hmem, hready⟩ := exists_isReady hus hpending (by simp)
        exact absurd hready (List.find?_eq_none.mp hnone members hmem)

/-! ### Groups -/

/-- A fragment of the first group is used by one of the second, another group. -/
def Supplies (t : Tree) (fragments : List NodeId) (before g : Group) : Prop :=
  before ≠ g ∧ ∃ d ∈ before.members, ∃ user ∈ g.members, Uses t fragments d user

/-- The group waits for nothing: all that supply it are among those that have come out. -/
def Enabled (t : Tree) (fragments : List NodeId) (groups emitted : List Group) (g : Group) : Prop :=
  ∀ before ∈ groups, Supplies t fragments before g → before ∈ emitted

/-- What the order of a document's groups is to be. -/
structure LeastOrder (t : Tree) (fragments : List NodeId) (groups : List Group) : Prop
    extends OrderedGroups t fragments groups where
  nonempty : ∀ g ∈ groups, g.members ≠ []
  /-- The members are in the order of the document, so that the first of them is the head. -/
  ascending : ∀ g ∈ groups, g.members.Pairwise (· < ·)
  /-- The group that comes out waits for nothing. -/
  enabled : ∀ emitted g rest, groups = emitted ++ g :: rest →
    Enabled t fragments groups emitted g
  /-- Of the groups that wait for nothing, it is the one whose first member is earliest. -/
  earliest : ∀ emitted g rest, groups = emitted ++ g :: rest →
    ∀ other ∈ rest, Enabled t fragments groups emitted other →
      StartsBefore g.members other.members

variable {t : Tree} {fragments : List NodeId}

/-- Among groups that share no members, one waits for nothing if its members use nothing that is
    still to come. -/
theorem waitsForNone_iff_enabled {kinds : List NodeKind} (hus : uses t fragments = .ok us)
    {emitted pending : List (List Nat)} {members : List Nat} (hmem : members ∈ pending)
    (hdisjoint : (emitted ++ pending).Pairwise List.Disjoint) :
    Enabled t fragments ((emitted ++ pending).map (groupOf kinds us)) (emitted.map (groupOf kinds us))
      (groupOf kinds us members) ↔ WaitsForNone us pending members := by
  have hcross : ∀ out ∈ emitted, ∀ other ∈ pending, out.Disjoint other :=
    (List.pairwise_append.mp hdisjoint).2.2
  constructor
  · intro henabled d user hedge huser
    by_contra! h
    obtain ⟨hd, other, hother, hdother⟩ := h
    have hsupplies : Supplies t fragments (groupOf kinds us other) (groupOf kinds us members) := by
      refine ⟨fun heq => hd ?_, d, hdother, user, huser, (edge_iff hus).mp hedge⟩
      have hsame : other = members := congrArg Group.members heq
      exact hsame ▸ hdother
    have hin := henabled _ (List.mem_map_of_mem (List.mem_append_right emitted hother)) hsupplies
    obtain ⟨out, hout, heq⟩ := List.mem_map.mp hin
    obtain rfl : out = other := congrArg Group.members heq
    exact hcross out hout out hother hdother hdother
  · rintro hwaits before hbefore ⟨hne, d, hd, user, huser, huses⟩
    obtain ⟨other, hother, rfl⟩ := List.mem_map.mp hbefore
    rcases List.mem_append.mp hother with hout | hother
    · exact List.mem_map_of_mem hout
    · -- What it uses of a pending group is in itself, but the two groups share no members.
      exfalso
      rcases hwaits d user ((edge_iff hus).mpr huses) huser with hdm | hnone
      · have hpending := (List.pairwise_append.mp hdisjoint).2.1
        have hneq : other ≠ members := fun heq => hne (congrArg (groupOf kinds us) heq)
        have : Std.Symm (@List.Disjoint Nat) := ⟨fun _ _ h => h.symm⟩
        exact hpending.forall hother hmem hneq hd hdm
      · exact hnone other hother hd

/-- The groups made of the components in their order come out in the least order. -/
theorem leastOrder_of_uses {kinds : List NodeKind} (hkinds : fragmentKinds t fragments = .ok kinds)
    (hus : uses t fragments = .ok us) :
    LeastOrder t fragments
      ((orderComponents us (components us fragments.length).length
        (components us fragments.length)).map (groupOf kinds us)) := by
  set parts := components us fragments.length with hparts
  set order := orderComponents us parts.length parts with horder
  have hbelow : UsesBelow us fragments.length := fun d user hedge =>
    ((edge_iff hus).mp hedge).choose_spec.lt_length
  have hperm : order.Perm parts := orderComponents_perm _ _
  have hdisjoint : order.Pairwise List.Disjoint :=
    (hperm.pairwise_iff fun h => h.symm).mpr components_pairwise_disjoint
  have hcomponent {g : Group} (hg : g ∈ order.map (groupOf kinds us)) :
      ∃ a, g.members = component (reachTable us fragments.length) fragments.length a ∧
        g.members.head? = some a := by
    obtain ⟨members, hmembers, rfl⟩ := List.mem_map.mp hg
    obtain ⟨a, -, hmembers⟩ := mem_components_iff.mp (hperm.mem_iff.mp hmembers)
    exact ⟨a, hmembers⟩
  refine { orderedGroups_of_uses hkinds hus with
    nonempty := fun g hg => ?_, ascending := fun g hg => ?_, enabled := ?_, earliest := ?_ }
  · obtain ⟨a, -, hhead⟩ := hcomponent hg
    exact List.ne_nil_of_mem (List.mem_of_head? hhead)
  · obtain ⟨a, hmembers, -⟩ := hcomponent hg
    exact hmembers ▸ component_pairwise a
  · intro emitted g rest hsplit
    obtain ⟨out, later, hlists, rfl, hlater⟩ := List.map_eq_append_iff.mp hsplit
    obtain ⟨members, pending, rfl, rfl, rfl⟩ := List.map_eq_cons_iff.mp hlater
    rw [hlists] at hdisjoint ⊢
    rw [waitsForNone_iff_enabled hus List.mem_cons_self hdisjoint]
    exact (orderComponents_split hbelow (Nat.le_refl _) (.refl _) hlists).1
  · intro emitted g rest hsplit other hother henabled
    obtain ⟨out, later, hlists, rfl, hlater⟩ := List.map_eq_append_iff.mp hsplit
    obtain ⟨members, pending, rfl, rfl, rfl⟩ := List.map_eq_cons_iff.mp hlater
    obtain ⟨waiting, hwaiting, rfl⟩ := List.mem_map.mp hother
    rw [hlists] at hdisjoint henabled
    rw [waitsForNone_iff_enabled hus (List.mem_cons_of_mem members hwaiting) hdisjoint] at henabled
    exact (orderComponents_split hbelow (Nat.le_refl _) (.refl _) hlists).2 waiting hwaiting henabled

/-! ### Documents without forward uses -/

namespace LeastOrder

variable {groups : List Group}

/-- Along uses of earlier fragments the positions only grow. -/
theorem le_of_leads (hbackward : ∀ d user, Uses t fragments d user → d ≤ user) {a b : Nat}
    (h : Leads t fragments a b) : a ≤ b := by
  induction h with
  | refl => exact Nat.le_refl a
  | tail _ hedge ih => exact ih.trans (hbackward _ _ hedge)

/-- Where no use is of a later fragment, every group is a single fragment. -/
theorem singleton (h : LeastOrder t fragments groups)
    (hbackward : ∀ d user, Uses t fragments d user → d ≤ user) {g : Group} (hg : g ∈ groups) :
    ∃ a, g.members = [a] := by
  have hascends := h.ascending g hg
  have hlt {a : Nat} (ha : a ∈ g.members) : a < fragments.length :=
    List.mem_range.mp (h.perm.subset (List.mem_flatMap.mpr ⟨g, hg, ha⟩))
  match hmembers : g.members with
  | [] => exact absurd hmembers (h.nonempty g hg)
  | [a] => exact ⟨a, rfl⟩
  | a :: b :: rest =>
    -- Two members lead to each other, so that neither is before the other.
    exfalso
    have ha : a ∈ g.members := by simp [hmembers]
    have hb : b ∈ g.members := by simp [hmembers]
    have hab : a < b := by
      rw [hmembers] at hascends
      exact (List.pairwise_cons.mp hascends).1 b List.mem_cons_self
    have hmutual := (h.together a (hlt ha) b (hlt hb) (by omega)).mp ⟨g, hg, ha, hb⟩
    have := le_of_leads hbackward hmutual.2
    omega

/-- Groups that share a member are one group. -/
theorem eq_of_mem (h : LeastOrder t fragments groups) {g other : Group} (hg : g ∈ groups)
    (hother : other ∈ groups) {a : Nat} (ha : a ∈ g.members) (haother : a ∈ other.members) :
    g = other := by
  have hnodup : (groups.flatMap Group.members).Nodup := h.perm.nodup_iff.mpr List.nodup_range
  have hdisjoint := (List.nodup_flatMap.mp hnodup).2
  have : Std.Symm (Function.onFun List.Disjoint Group.members) := ⟨fun _ _ h => h.symm⟩
  by_contra hne
  exact hdisjoint.forall hg hother hne ha haother

/-- Where no use is of a later fragment, what comes out is before all that is still to come. -/
theorem lt_of_split (h : LeastOrder t fragments groups)
    (hbackward : ∀ d user, Uses t fragments d user → d ≤ user) {emitted rest : List Group}
    {g : Group} (hsplit : groups = emitted ++ g :: rest) {a : Nat} (ha : g.members = [a]) {b : Nat}
    {other : Group} (hother : other ∈ rest) (hb : other.members = [b]) : a < b := by
  -- By induction on the position: all that supplies the fragment is before it.
  induction b using Nat.strongRecOn generalizing other with
  | ind b ih =>
    by_contra hle
    have hmem : other ∈ groups := by rw [hsplit]; simp [hother]
    have henabled : Enabled t fragments groups emitted other := by
      rintro before hbefore ⟨hne, d, hd, user, huser, huses⟩
      obtain rfl : user = b := by simpa [hb] using huser
      have hdb : d ≠ user := by
        rintro rfl
        exact hne (h.eq_of_mem hbefore hmem hd huser)
      have hlt : d < user := Nat.lt_of_le_of_ne (hbackward d user huses) hdb
      obtain ⟨x, hx⟩ := h.singleton hbackward hbefore
      obtain rfl : d = x := by simpa [hx] using hd
      rw [hsplit, List.mem_append, List.mem_cons] at hbefore
      rcases hbefore with hout | rfl | hrest
      · exact hout
      · obtain rfl : d = a := by simpa [ha] using hd
        exact absurd hlt hle
      · exact absurd ((ih d hlt hrest hx).trans hlt) hle
    obtain ⟨x, y, hx, hy, hxy⟩ := h.earliest emitted g rest hsplit other hother henabled
    simp only [ha, hb, List.head?_cons, Option.some.injEq] at hx hy
    omega

/-- Where no use is of a later fragment, the groups are the fragments in the document's order. -/
theorem members_eq (h : LeastOrder t fragments groups)
    (hbackward : ∀ d user, Uses t fragments d user → d ≤ user) :
    groups.map Group.members = (List.range fragments.length).map fun a => [a] := by
  have hsorted (emitted rest : List Group) (hsplit : groups = emitted ++ rest) :
      (rest.flatMap Group.members).Pairwise (· < ·) ∧
        rest.map Group.members = (rest.flatMap Group.members).map fun a => [a] := by
    induction rest generalizing emitted with
    | nil => simp
    | cons g rest ih =>
      obtain ⟨hpairs, hmap⟩ := ih (emitted ++ [g]) (by simp [hsplit])
      have hgroup {other : Group} (hother : other ∈ g :: rest) : other ∈ groups := by
        rw [hsplit]
        exact List.mem_append_right emitted hother
      obtain ⟨a, ha⟩ := h.singleton hbackward (hgroup List.mem_cons_self)
      refine ⟨?_, by simp [ha, hmap]⟩
      rw [List.flatMap_cons, ha, List.singleton_append, List.pairwise_cons]
      refine ⟨fun b hb => ?_, hpairs⟩
      obtain ⟨other, hother, hmem⟩ := List.mem_flatMap.mp hb
      obtain ⟨x, hx⟩ := h.singleton hbackward (hgroup (List.mem_cons_of_mem g hother))
      obtain rfl : b = x := by simpa [hx] using hmem
      exact h.lt_of_split hbackward hsplit ha hother hx
  obtain ⟨hpairs, hmap⟩ := hsorted [] groups rfl
  rw [hmap, h.perm.eq_of_pairwise' hpairs List.pairwise_lt_range]

end LeastOrder

/-- There are no groups only if the walk for uses fails at a fragment. -/
theorem exists_fault_of_fragmentGroups {fault : Fault}
    (h : fragmentGroups t fragments = .error fault) :
    ∃ node ∈ fragments, ∃ fault, t.references node = .error fault := by
  by_contra! hnone
  have hwalks : ∀ node ∈ fragments, ∃ references, t.references node = .ok references := by
    intro node hnode
    cases hrefs : t.references node with
    | ok references => exact ⟨references, rfl⟩
    | error fault => exact absurd hrefs (hnone node hnode fault)
  obtain ⟨groups, hok⟩ := exists_fragmentGroups_iff.mpr hwalks
  simp [h] at hok

/-! ### The counts and the queue -/

/-- The pairs of a component and one that uses it, for each component the number of others that it
    waits for, and those that wait for none. -/
structure Countdown where
  edges : List (List Nat × List Nat)
  inDegree : List Nat → Nat
  ready : List (List Nat)

namespace Countdown

/-- A use between two components is counted once, however often it is made. -/
def addUse (parts : List (List Nat)) (k : Countdown) (u : Use) : Countdown :=
  match parts.find? (·.contains u.definition), parts.find? (·.contains u.user) with
  | some a, some b =>
    if a = b ∨ (a, b) ∈ k.edges then k
    else { k with
      edges := k.edges ++ [(a, b)], inDegree := Function.update k.inDegree b (k.inDegree b + 1) }
  | _, _ => k

/-- All uses counted, and the components without any in the queue. -/
def start (us : List Use) (parts : List (List Nat)) : Countdown :=
  let counted := us.foldl (addUse parts) ⟨[], fun _ => 0, []⟩
  { counted with ready := parts.filter fun c => counted.inDegree c = 0 }

/-- The components that use a component. -/
def successors (k : Countdown) (c : List Nat) : List (List Nat) :=
  (k.edges.filter fun edge => edge.1 = c).map Prod.snd

/-- One of those that a component waits for has come out. -/
def release (k : Countdown) (next : List Nat) : Countdown :=
  let left := k.inDegree next - 1
  { k with
    inDegree := Function.update k.inDegree next left
    ready := if left = 0 then next :: k.ready else k.ready }

/-- A component comes out of the queue. -/
def pop (k : Countdown) (c : List Nat) : Countdown :=
  (k.successors c).foldl release { k with ready := k.ready.erase c }

/-- Take components out, of those in the queue always the one that starts earliest. -/
def run : Nat → Countdown → List (List Nat)
  | 0, _ => []
  | fuel + 1, k =>
      match k.ready.argmin (·.headD 0) with
      | some c => c :: run fuel (k.pop c)
      | none => []

/-! ### Counting uses -/

/-- A member of the component is used by a member of the other. -/
def Crosses (us : List Use) (parts : List (List Nat)) (a b : List Nat) : Prop :=
  a ∈ parts ∧ b ∈ parts ∧ a ≠ b ∧ ∃ d ∈ a, ∃ user ∈ b, Edge us d user

/-- Every crossing is an edge, once, and every component has counted the edges to it. -/
structure Counted (us : List Use) (parts : List (List Nat)) (k : Countdown) : Prop where
  nodup : k.edges.Nodup
  mem_iff : ∀ a b, (a, b) ∈ k.edges ↔ Crosses us parts a b
  inDegree_eq : ∀ c, k.inDegree c = (k.edges.filter fun edge => edge.2 = c).length

theorem find?_contains {parts : List (List Nat)} (hdisjoint : parts.Pairwise List.Disjoint)
    {x : Nat} {c : List Nat} : parts.find? (·.contains x) = some c ↔ c ∈ parts ∧ x ∈ c := by
  constructor
  · intro h
    exact ⟨List.mem_of_find?_eq_some h, by simpa using List.find?_some h⟩
  · rintro ⟨hc, hx⟩
    obtain ⟨found, hfound⟩ : ∃ found, parts.find? (·.contains x) = some found :=
      Option.isSome_iff_exists.mp (List.find?_isSome.mpr ⟨c, hc, by simpa using hx⟩)
    have hin : x ∈ found := by simpa using List.find?_some hfound
    rw [hfound]
    -- Two components that hold `x` are the same, since different ones share nothing.
    by_contra hne
    have : Std.Symm (@List.Disjoint Nat) := ⟨fun _ _ h => h.symm⟩
    exact hdisjoint.forall (List.mem_of_find?_eq_some hfound) hc (fun heq => hne (heq ▸ rfl)) hin hx

theorem edge_append {u : Use} {d user : Nat} :
    Edge (us ++ [u]) d user ↔ Edge us d user ∨ (d = u.definition ∧ user = u.user) := by
  unfold Edge
  simp only [List.mem_append, List.mem_singleton, exists_or]
  refine or_congr_right ⟨?_, ?_⟩
  · rintro ⟨deferred, rfl⟩
    exact ⟨rfl, rfl⟩
  · rintro ⟨rfl, rfl⟩
    exact ⟨u.deferred, rfl⟩

/-- One more use adds the crossing between the components of its two ends, if they are two. -/
theorem crosses_append {parts : List (List Nat)} (hdisjoint : parts.Pairwise List.Disjoint)
    {u : Use} {a b : List Nat} :
    Crosses (us ++ [u]) parts a b ↔ Crosses us parts a b ∨
      (parts.find? (·.contains u.definition) = some a ∧ parts.find? (·.contains u.user) = some b ∧
        a ≠ b) := by
  simp only [Crosses, edge_append, find?_contains hdisjoint]
  constructor
  · rintro ⟨ha, hb, hne, d, hd, user, huser, hedge | ⟨rfl, rfl⟩⟩
    · exact .inl ⟨ha, hb, hne, d, hd, user, huser, hedge⟩
    · exact .inr ⟨⟨ha, hd⟩, ⟨hb, huser⟩, hne⟩
  · rintro (⟨ha, hb, hne, d, hd, user, huser, hedge⟩ | ⟨⟨ha, hd⟩, ⟨hb, huser⟩, hne⟩)
    · exact ⟨ha, hb, hne, d, hd, user, huser, .inl hedge⟩
    · exact ⟨ha, hb, hne, _, hd, _, huser, .inr ⟨rfl, rfl⟩⟩

theorem counted_addUse {parts : List (List Nat)} (hdisjoint : parts.Pairwise List.Disjoint)
    {k : Countdown} (h : Counted us parts k) (u : Use) :
    Counted (us ++ [u]) parts (k.addUse parts u) := by
  have hcrosses (a b : List Nat) : Crosses (us ++ [u]) parts a b ↔ Crosses us parts a b ∨
      (parts.find? (·.contains u.definition) = some a ∧ parts.find? (·.contains u.user) = some b ∧
        a ≠ b) := crosses_append hdisjoint
  unfold addUse
  split
  · rename_i a b ha hb
    rw [ha, hb] at hcrosses
    simp only [Option.some.injEq] at hcrosses
    split
    · -- Nothing is counted: the use stays in its component, or has been counted before.
      rename_i hold
      refine ⟨h.nodup, fun x y => ?_, h.inDegree_eq⟩
      rw [hcrosses, h.mem_iff]
      refine (or_iff_left_of_imp ?_).symm
      rintro ⟨rfl, rfl, hne⟩
      exact (h.mem_iff a b).mp (hold.resolve_left hne)
    · rename_i hnew
      -- A new edge is counted once, at the component of the user.
      obtain ⟨hne, hnotin⟩ := not_or.mp hnew
      refine ⟨h.nodup.append (List.nodup_singleton _) ?_, fun x y => ?_, fun c => ?_⟩
      · simpa using hnotin
      · rw [hcrosses, List.mem_append, h.mem_iff, List.mem_singleton, Prod.mk.injEq]
        refine or_congr_right ⟨?_, ?_⟩
        · rintro ⟨rfl, rfl⟩
          exact ⟨rfl, rfl, hne⟩
        · rintro ⟨rfl, rfl, -⟩
          exact ⟨rfl, rfl⟩
      · rw [List.filter_append, List.length_append, ← h.inDegree_eq]
        by_cases hc : b = c
        · simp [hc]
        · simp [hc, Function.update_of_ne (Ne.symm hc)]
  · rename_i hnone
    refine ⟨h.nodup, fun x y => ?_, h.inDegree_eq⟩
    rw [hcrosses, h.mem_iff]
    refine (or_iff_left_of_imp ?_).symm
    rintro ⟨hx, hy, -⟩
    exact absurd hy (hnone x y hx)

theorem counted_nil (parts : List (List Nat)) : Counted [] parts ⟨[], fun _ => 0, []⟩ := by
  refine ⟨List.nodup_nil, fun a b => ?_, fun _ => rfl⟩
  simp [Crosses, Edge]

theorem counted_foldl {parts : List (List Nat)} (hdisjoint : parts.Pairwise List.Disjoint)
    (us : List Use) : Counted us parts (us.foldl (addUse parts) ⟨[], fun _ => 0, []⟩) := by
  induction us using List.reverseRecOn with
  | nil => exact counted_nil parts
  | append_singleton us u ih =>
    rw [List.foldl_concat]
    exact counted_addUse hdisjoint ih u

/-! ### Taking components out -/

theorem mem_successors {k : Countdown} {c next : List Nat} :
    next ∈ k.successors c ↔ (c, next) ∈ k.edges := by
  unfold successors
  simp only [List.mem_map, List.mem_filter, decide_eq_true_eq, Prod.exists]
  constructor
  · rintro ⟨_, _, ⟨hedge, rfl⟩, rfl⟩
    exact hedge
  · intro hedge
    exact ⟨c, next, ⟨hedge, rfl⟩, rfl⟩

theorem nodup_successors {k : Countdown} (h : k.edges.Nodup) (c : List Nat) :
    (k.successors c).Nodup := by
  refine (h.filter _).map_on fun x hx y hy hxy => Prod.ext ?_ hxy
  simp only [List.mem_filter, decide_eq_true_eq] at hx hy
  rw [hx.2, hy.2]

theorem ready_release (k : Countdown) (next : List Nat) :
    (k.release next).ready = if k.inDegree next ≤ 1 then next :: k.ready else k.ready := by
  unfold release
  simp only [Nat.sub_eq_zero_iff_le]

theorem edges_foldl_release (next : List (List Nat)) (k : Countdown) :
    (next.foldl release k).edges = k.edges := by
  induction next generalizing k with
  | nil => rfl
  | cons x next ih => exact ih (k.release x)

theorem inDegree_foldl_release {next : List (List Nat)} (hnext : next.Nodup) (k : Countdown)
    (c : List Nat) : (next.foldl release k).inDegree c =
      k.inDegree c - if c ∈ next then 1 else 0 := by
  induction next generalizing k with
  | nil => rfl
  | cons x next ih =>
    obtain ⟨hx, hnext⟩ := List.nodup_cons.mp hnext
    rw [List.foldl_cons, ih hnext]
    by_cases hc : c = x
    · subst hc
      simp [hx, release]
    · simp [hc, release]

/-- Those join the queue that waited for the one component only. -/
theorem mem_ready_foldl_release {next : List (List Nat)} (hnext : next.Nodup) (k : Countdown)
    {c : List Nat} : c ∈ (next.foldl release k).ready ↔
      c ∈ k.ready ∨ (c ∈ next ∧ k.inDegree c ≤ 1) := by
  induction next generalizing k with
  | nil => simp
  | cons x next ih =>
    obtain ⟨hx, hnext⟩ := List.nodup_cons.mp hnext
    rw [List.foldl_cons, ih hnext]
    by_cases hc : c = x
    · subst hc
      by_cases hleft : k.inDegree c ≤ 1
      · simp [hx, ready_release, hleft]
      · simp [hx, ready_release, hleft]
    · have hready : c ∈ (k.release x).ready ↔ c ∈ k.ready := by
        rw [ready_release]
        split
        · simp [hc]
        · rfl
      rw [hready]
      simp [hc, release]

theorem nodup_ready_foldl_release {next : List (List Nat)} (hnext : next.Nodup) {k : Countdown}
    (hk : k.ready.Nodup) (hnew : ∀ c ∈ next, c ∉ k.ready) :
    (next.foldl release k).ready.Nodup := by
  induction next generalizing k with
  | nil => exact hk
  | cons x next ih =>
    obtain ⟨hx, hnext⟩ := List.nodup_cons.mp hnext
    obtain ⟨hnewx, hnew⟩ := List.forall_mem_cons.mp hnew
    refine ih hnext ?_ fun c hc => ?_
    · rw [ready_release]
      split
      · exact List.nodup_cons.mpr ⟨hnewx, hk⟩
      · exact hk
    · have hne : c ≠ x := fun heq => hx (heq ▸ hc)
      rw [ready_release]
      split
      · simpa [hne] using hnew c hc
      · exact hnew c hc

/-- What the counts and the queue say while `pending` are still to come out. -/
structure Counting (us : List Use) (parts pending : List (List Nat)) (k : Countdown) : Prop where
  nodup : k.edges.Nodup
  mem_iff : ∀ a b, (a, b) ∈ k.edges ↔ Crosses us parts a b
  /-- A component has counted the pending ones that it uses. -/
  inDegree_eq : ∀ c ∈ pending, k.inDegree c = pending.countP fun a => (a, c) ∈ k.edges
  nodup_ready : k.ready.Nodup
  mem_ready_iff : ∀ c, c ∈ k.ready ↔ c ∈ pending ∧ k.inDegree c = 0
  /-- What has come out uses none that is pending. -/
  closed : ∀ a ∈ pending, ∀ b, (a, b) ∈ k.edges → b ∈ pending

namespace Counting

variable {parts pending : List (List Nat)} {k : Countdown}

theorem not_mem_edges (h : Counting us parts pending k) {a c : List Nat} (ha : a ∈ pending)
    (hc : c ∈ k.ready) : (a, c) ∉ k.edges := by
  obtain ⟨hmem, hzero⟩ := (h.mem_ready_iff c).mp hc
  rw [h.inDegree_eq c hmem, List.countP_eq_zero] at hzero
  simpa using hzero a ha

/-- The step of the loop: what is in the queue can come out. -/
theorem pop (h : Counting us parts pending k) (hpending : pending.Nodup) {c : List Nat}
    (hc : c ∈ k.ready) : Counting us parts (pending.erase c) (k.pop c) := by
  have hsuccessors := nodup_successors h.nodup c
  have hedges : (k.pop c).edges = k.edges := edges_foldl_release _ _
  have hdegree (x : List Nat) : (k.pop c).inDegree x =
      k.inDegree x - if (c, x) ∈ k.edges then 1 else 0 := by
    unfold Countdown.pop
    rw [inDegree_foldl_release hsuccessors]
    simp only [mem_successors]
  have hmem {x : List Nat} : x ∈ pending.erase c ↔ x ≠ c ∧ x ∈ pending := hpending.mem_erase_iff
  have hpos {x : List Nat} (hx : (c, x) ∈ k.edges) : x ∉ k.ready := fun hready =>
    h.not_mem_edges ((h.mem_ready_iff c).mp hc).1 hready hx
  have hne {x : List Nat} (hx : (c, x) ∈ k.edges) : x ≠ c := by
    rintro rfl
    exact ((h.mem_iff x x).mp hx).2.2.1 rfl
  -- The component that comes out lowers the count of each of its successors by one, and those that
  -- get to none join the queue.
  refine ⟨hedges ▸ h.nodup, fun a b => by rw [hedges, h.mem_iff], fun x hx => ?_, ?_, fun x => ?_,
    fun a ha b hb => ?_⟩
  · obtain ⟨-, hx⟩ := hmem.mp hx
    rw [hdegree, h.inDegree_eq x hx, hedges, List.countP_erase]
    simp [((h.mem_ready_iff c).mp hc).1]
  · refine nodup_ready_foldl_release hsuccessors (h.nodup_ready.erase c) fun x hx hready => ?_
    exact hpos (mem_successors.mp hx) (List.mem_of_mem_erase hready)
  · unfold Countdown.pop
    rw [mem_ready_foldl_release hsuccessors, mem_successors, h.nodup_ready.mem_erase_iff,
      inDegree_foldl_release hsuccessors, h.mem_ready_iff, hmem]
    simp only [mem_successors]
    by_cases hx : (c, x) ∈ k.edges
    · have hzero : ¬ (x ∈ pending ∧ k.inDegree x = 0) := fun hin =>
        hpos hx ((h.mem_ready_iff x).mpr hin)
      have hin := h.closed c ((h.mem_ready_iff c).mp hc).1 x hx
      simp only [hx, hne hx, hin, ne_eq, not_false_eq_true, true_and, if_true]
      omega
    · simp only [hx, false_and, or_false, if_false, Nat.sub_zero, and_assoc]
  · rw [hedges] at hb
    have hpends := List.mem_of_mem_erase ha
    refine hmem.mpr ⟨?_, h.closed a hpends b hb⟩
    rintro rfl
    exact h.not_mem_edges hpends hc hb

/-- The queue holds exactly the pending components that can come out. -/
theorem mem_ready_iff_isReady (h : Counting us parts pending k)
    (hdisjoint : parts.Pairwise List.Disjoint) (hsub : ∀ c ∈ pending, c ∈ parts) {c : List Nat} :
    c ∈ k.ready ↔ c ∈ pending ∧ isReady us pending c = true := by
  rw [h.mem_ready_iff, waitsForNone_iff]
  refine and_congr_right fun hc => ?_
  rw [h.inDegree_eq c hc, List.countP_eq_zero]
  simp only [decide_eq_true_eq, h.mem_iff]
  constructor
  · intro hnone d user hedge huser
    by_contra! hwaits
    obtain ⟨hd, other, hother, hdother⟩ := hwaits
    exact hnone other hother
      ⟨hsub other hother, hsub c hc, fun heq => hd (heq ▸ hdother), d, hdother, user, huser, hedge⟩
  · rintro hwaits a ha ⟨hain, hcin, hne, d, hd, user, huser, hedge⟩
    rcases hwaits d user hedge huser with hdc | hnone
    · have : Std.Symm (@List.Disjoint Nat) := ⟨fun _ _ h => h.symm⟩
      exact hdisjoint.forall hain hcin hne hd hdc
    · exact hnone a ha hd

end Counting

/-- The edges to a component are as many as the components that they come from. -/
theorem length_filter_edges {parts : List (List Nat)} {edges : List (List Nat × List Nat)}
    (hedges : edges.Nodup) (hparts : parts.Nodup) {c : List Nat}
    (hmem : ∀ a, (a, c) ∈ edges → a ∈ parts) :
    (edges.filter fun edge => edge.2 = c).length = parts.countP fun a => (a, c) ∈ edges := by
  rw [List.countP_eq_length_filter]
  refine Eq.trans ?_ (List.length_map (Prod.mk · c))
  have hnodup : ((parts.filter fun a => (a, c) ∈ edges).map (Prod.mk · c)).Nodup :=
    (hparts.filter _).map fun x y hxy => (Prod.mk.inj hxy).1
  refine ((List.perm_ext_iff_of_nodup (hedges.filter _) hnodup).mpr fun (a, b) => ?_).length_eq
  simp only [List.mem_filter, List.mem_map, decide_eq_true_eq, Prod.mk.injEq]
  constructor
  · rintro ⟨hedge, rfl⟩
    exact ⟨a, ⟨hmem a hedge, hedge⟩, rfl, rfl⟩
  · rintro ⟨_, ⟨-, hedge⟩, rfl, rfl⟩
    exact ⟨hedge, rfl⟩

/-- Before anything has come out, all components are pending. -/
theorem counting_start {parts pending : List (List Nat)} (hdisjoint : parts.Pairwise List.Disjoint)
    (hnodup : parts.Nodup) (hperm : parts.Perm pending) :
    Counting us parts pending (start us parts) := by
  have hcounted := counted_foldl hdisjoint us
  have hcrosses (a b : List Nat) := hcounted.mem_iff a b
  refine ⟨hcounted.nodup, hcrosses, fun c _ => ?_, hnodup.filter _, fun c => ?_,
    fun a _ b hb => hperm.mem_iff.mp ((hcrosses a b).mp hb).2.1⟩
  · rw [← hperm.countP_eq]
    exact (hcounted.inDegree_eq c).trans
      (length_filter_edges hcounted.nodup hnodup fun a ha => ((hcrosses a c).mp ha).1)
  · simp [Countdown.start, hperm.mem_iff]

/-- Taking the earliest of the queue is taking the first of those that are ready. -/
theorem argmin_eq_find? {pending ready : List (List Nat)}
    (hstarts : pending.Pairwise StartsBefore)
    {p : List Nat → Bool} (hready : ∀ c, c ∈ ready ↔ c ∈ pending ∧ p c = true) :
    ready.argmin (·.headD 0) = pending.find? p := by
  cases hfind : pending.find? p with
  | none =>
    rw [List.argmin_eq_none, List.eq_nil_iff_forall_not_mem]
    intro c hc
    obtain ⟨hmem, hp⟩ := (hready c).mp hc
    exact List.find?_eq_none.mp hfind c hmem hp
  | some first =>
    have hfirst : first ∈ ready :=
      (hready first).mpr ⟨List.mem_of_find?_eq_some hfind, List.find?_some hfind⟩
    obtain ⟨least, hleast⟩ : ∃ least, ready.argmin (·.headD 0) = some least := by
      rw [← Option.ne_none_iff_exists', Ne, List.argmin_eq_none]
      exact List.ne_nil_of_mem hfirst
    have hle : least.headD 0 ≤ first.headD 0 := List.le_of_mem_argmin hfirst hleast
    obtain ⟨hmem, hp⟩ := (hready least).mp (List.argmin_mem hleast)
    obtain ⟨-, front, back, rfl, hfront⟩ := List.find?_eq_some_iff_append.mp hfind
    rw [hleast]
    rcases List.mem_append.mp hmem with hin | hin
    · exact absurd hp (by simpa using hfront least hin)
    · rcases List.mem_cons.mp hin with rfl | hin
      · rfl
      · obtain ⟨a, b, ha, hb, hlt⟩ :=
          (List.pairwise_cons.mp (List.pairwise_append.mp hstarts).2.1).1 least hin
        simp only [List.headD_eq_head?_getD, ha, hb, Option.getD_some] at hle
        omega

/-- The run of the loop takes the components out in the order of `orderComponents`. -/
theorem run_eq {parts pending : List (List Nat)} {k : Countdown} (hus : UsesBelow us n)
    (hparts : parts.Perm (components us n)) (hpending : pending.Sublist (components us n))
    (h : Counting us parts pending k) {fuel : Nat} (hfuel : pending.length ≤ fuel) :
    run fuel k = orderComponents us fuel pending := by
  have hdisjoint : parts.Pairwise List.Disjoint :=
    (hparts.pairwise_iff fun h => h.symm).mpr components_pairwise_disjoint
  induction fuel generalizing pending k with
  | zero =>
    obtain rfl : pending = [] := List.length_eq_zero_iff.mp (by omega)
    rfl
  | succ fuel ih =>
    have hready : ∀ c, c ∈ k.ready ↔ c ∈ pending ∧ isReady us pending c = true := fun c =>
      h.mem_ready_iff_isReady hdisjoint fun c hc => hparts.mem_iff.mpr (hpending.subset hc)
    have hnext := argmin_eq_find? (components_pairwise_startsBefore.sublist hpending) hready
    unfold run orderComponents
    rw [hnext]
    cases hfind : pending.find? (isReady us pending) with
    | some c =>
      have hc := List.mem_of_find?_eq_some hfind
      have hpop := h.pop (components_nodup.sublist hpending)
        ((hready c).mpr ⟨hc, List.find?_some hfind⟩)
      have hshorter : (pending.erase c).length ≤ fuel := by
        rw [List.length_erase_of_mem hc]
        omega
      exact congrArg (c :: ·) (ih (List.erase_sublist.trans hpending) hpop hshorter)
    | none =>
      cases pending with
      | nil => rfl
      | cons first rest =>
        obtain ⟨members, hmem, hisReady⟩ := exists_isReady hus hpending (by simp)
        exact absurd hisReady (List.find?_eq_none.mp hfind members hmem)

/-- Counting prerequisites takes the components out in the order of `orderComponents`, in whatever
    order they have been numbered. -/
theorem countdown_eq_orderComponents (hus : UsesBelow us n) {parts : List (List Nat)}
    (hparts : parts.Perm (components us n)) :
    run parts.length (start us parts) =
      orderComponents us (components us n).length (components us n) := by
  have hdisjoint : parts.Pairwise List.Disjoint :=
    (hparts.pairwise_iff fun h => h.symm).mpr components_pairwise_disjoint
  have hstart : Counting us parts (components us n) (start us parts) :=
    counting_start hdisjoint (hparts.nodup_iff.mpr components_nodup) hparts
  rw [hparts.length_eq]
  exact run_eq hus hparts (.refl _) hstart (Nat.le_refl _)

/-- The first fragment waits for the second, and still comes out before the third. -/
example : run 3 (start [⟨1, 0, false⟩] [[2], [0], [1]]) = [[1], [0], [2]] := by
  decide

end Countdown

/-! ### Documents -/

/-- The groups of a document come out in the least order: at every step the one that starts
    earliest, among those whose prerequisites have all come out.  Where no use is of a later
    fragment, that is the document's order, fragment by fragment.  Counting prerequisites gives the
    same groups, in whatever order the components have been numbered.  There are no groups only if
    nodes are missing below a fragment or run in a circle. -/
theorem fragmentGroups_least (t : Tree) (fragments : List NodeId) :
    match fragmentGroups t fragments with
    | .ok groups => LeastOrder t fragments groups ∧
        ((∀ d user, Uses t fragments d user → d ≤ user) →
          groups.map Group.members = (List.range fragments.length).map fun a => [a]) ∧
        ∀ us, uses t fragments = .ok us → ∀ parts, parts.Perm (components us fragments.length) →
          Countdown.run parts.length (Countdown.start us parts) = groups.map Group.members
    | .error _ => ∃ node ∈ fragments, ∃ fault, t.references node = .error fault := by
  cases hgroups : fragmentGroups t fragments with
  | ok groups =>
    obtain ⟨kinds, us, hkinds, hus, rfl⟩ := fragmentGroups_eq_ok_iff.mp hgroups
    have hleast := leastOrder_of_uses hkinds hus
    refine ⟨hleast, hleast.members_eq, fun us' hus' parts hparts => ?_⟩
    obtain rfl : us = us' := Except.ok.inj (hus.symm.trans hus')
    have hbelow : UsesBelow us fragments.length := fun d user hedge =>
      ((edge_iff hus).mp hedge).choose_spec.lt_length
    rw [Countdown.countdown_eq_orderComponents hbelow hparts, List.map_map]
    exact (List.map_id _).symm
  | error fault => exact exists_fault_of_fragmentGroups hgroups

end ReactiveDoc
