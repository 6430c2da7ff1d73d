import Mathlib.Data.List.Nodup
import Mathlib.Logic.Relation
import ReactiveDoc.Proofs.Traversal
import ReactiveDoc.Syntax.Reference

namespace ReactiveDoc.Tree

/-!
# Arenas that hold trees

Nothing in the form of a `Tree` keeps a node from being listed below two others, or below itself.

* `ChildOf`, `Below`, `AtOrBelow` — the places of nodes relative to each other.
* `TreeShaped` — every node stands in one place.
* `mem_subtree_iff` — `Tree.subtree` lists the nodes at and below a node.
* `TreeShaped.exists_subtree`, `TreeShaped.exists_references` — in an arena that holds trees the
  walks come to an end.
* `treeShaped_of_ascending` — an arena in which each node follows the nodes below it holds trees.
-/

variable {t : Tree} {x y z child root : NodeId} {kind : NodeKind} {nodes : List NodeId}

/-! ### Places -/

/-- The second node is directly below the first one. -/
def ChildOf (t : Tree) (x child : NodeId) : Prop := ∃ kind, t.kind x = .ok kind ∧ child ∈ kind.children

/-- The second node is somewhere below the first one. -/
def Below (t : Tree) : NodeId → NodeId → Prop := Relation.TransGen t.ChildOf

/-- The second node is the first one or below it. -/
def AtOrBelow (t : Tree) : NodeId → NodeId → Prop := Relation.ReflTransGen t.ChildOf

/-- Below a node there are only nodes of the arena, each has one place there, and no node is below
    itself. -/
structure TreeShaped (t : Tree) : Prop where
  present : ∀ x child, t.ChildOf x child → child < t.size
  once : ∀ x kind, t.kind x = .ok kind → kind.children.Nodup
  parent : ∀ x y child, t.ChildOf x child → t.ChildOf y child → x = y
  acyclic : ∀ x, ¬ t.Below x x

theorem childOf_iff (h : t.kind x = .ok kind) : t.ChildOf x child ↔ child ∈ kind.children := by
  constructor
  · rintro ⟨kind', hkind', hchild⟩
    obtain rfl := Except.ok.inj (h.symm.trans hkind')
    exact hchild
  · exact fun hchild => ⟨kind, h, hchild⟩

theorem exists_kind_of_lt (h : x < t.size) : ∃ kind, t.kind x = .ok kind := by
  have hnode : t.nodes[x]? = some (t.nodes[x]) := Array.getElem?_eq_getElem h
  refine ⟨(t.nodes[x]).kind, ?_⟩
  unfold Tree.kind Tree.node
  rw [hnode]
  rfl

theorem lt_size_of_kind (h : t.kind x = .ok kind) : x < t.size := by
  unfold Tree.kind Tree.node at h
  cases hnode : t.nodes[x]? with
  | none =>
    rw [hnode] at h
    cases h
  | some n => exact (Array.getElem?_eq_some_iff.mp hnode).1

theorem exists_span_of_lt (h : x < t.size) : ∃ span, t.span x = .ok span := by
  refine ⟨(t.nodes[x]).span, ?_⟩
  unfold Tree.span Tree.node
  rw [Array.getElem?_eq_getElem h]
  rfl

theorem children_eq (h : t.kind x = .ok kind) : t.children x = .ok kind.children := by
  unfold Tree.children
  rw [h]
  rfl

theorem kind_of_children {ids : List NodeId} (h : t.children x = .ok ids) :
    ∃ kind, t.kind x = .ok kind ∧ kind.children = ids := by
  unfold Tree.children at h
  cases hkind : t.kind x with
  | error fault =>
    rw [hkind] at h
    cases h
  | ok kind =>
    rw [hkind] at h
    exact ⟨kind, rfl, Except.ok.inj h⟩

/-- What is below a node hangs from one of the nodes directly below it. -/
theorem atOrBelow_iff (h : t.kind x = .ok kind) :
    t.AtOrBelow x y ↔ y = x ∨ ∃ child ∈ kind.children, t.AtOrBelow child y := by
  constructor
  · intro hxy
    rcases Relation.ReflTransGen.cases_head hxy with rfl | ⟨child, hchild, hrest⟩
    · exact .inl rfl
    · exact .inr ⟨child, (childOf_iff h).mp hchild, hrest⟩
  · rintro (rfl | ⟨child, hchild, hrest⟩)
    · exact .refl
    · exact .head ((childOf_iff h).mpr hchild) hrest

/-! ### Subtrees -/

/-- The walk lists the nodes at and below a node, and nothing else. -/
theorem mem_subtreeWithin_iff {fuel : Nat} (h : t.subtreeWithin fuel root = .ok nodes) :
    x ∈ nodes ↔ t.AtOrBelow root x := by
  induction fuel generalizing root nodes with
  | zero => cases h
  | succ fuel ih =>
    obtain ⟨ids, hids, h⟩ := Except.bind_eq_ok_iff.mp h
    obtain ⟨below, hbelow, h⟩ := Except.bind_eq_ok_iff.mp h
    cases h
    obtain ⟨kind, hkind, rfl⟩ := kind_of_children hids
    have hparts := mapM_eq_ok_iff.mp hbelow
    rw [atOrBelow_iff hkind, List.mem_cons, List.mem_flatten]
    refine or_congr Iff.rfl ⟨?_, ?_⟩
    · rintro ⟨part, hpart, hx⟩
      obtain ⟨child, hchild, hok⟩ := exists_left_of_mem hparts hpart
      exact ⟨child, hchild, (ih hok).mp hx⟩
    · rintro ⟨child, hchild, hx⟩
      obtain ⟨part, hpart, hok⟩ := exists_right_of_mem hparts hchild
      exact ⟨part, hpart, (ih hok).mpr hx⟩

theorem mem_subtree_iff (h : t.subtree root = .ok nodes) : x ∈ nodes ↔ t.AtOrBelow root x :=
  mem_subtreeWithin_iff h

/-- What can be listed can be searched for uses. -/
theorem exists_referencesWithin {fuel : Nat} (h : t.subtreeWithin fuel root = .ok nodes)
    (bound : List String) (deferred : Bool) :
    ∃ uses, t.referencesWithin bound deferred fuel root = .ok uses := by
  induction fuel generalizing root nodes bound deferred with
  | zero => cases h
  | succ fuel ih =>
    obtain ⟨ids, hids, h⟩ := Except.bind_eq_ok_iff.mp h
    obtain ⟨below, hbelow, -⟩ := Except.bind_eq_ok_iff.mp h
    obtain ⟨kind, hkind, rfl⟩ := kind_of_children hids
    have hchild (child : NodeId) (hchild : child ∈ kind.children) :
        ∃ part, t.subtreeWithin fuel child = .ok part := by
      obtain ⟨part, -, hok⟩ := exists_right_of_mem (mapM_eq_ok_iff.mp hbelow) hchild
      exact ⟨part, hok⟩
    have hall : ∃ parts, kind.children.mapM (t.referencesWithin bound deferred fuel) = .ok parts :=
      exists_mapM_eq_ok_iff.mpr fun child hmem => ih (hchild child hmem).choose_spec bound deferred
    unfold referencesWithin
    rw [hkind]
    cases kind with
    | identifier name => exact ⟨_, rfl⟩
    | arrow params body => exact ih (hchild body List.mem_cons_self).choose_spec _ true
    | _ =>
      obtain ⟨parts, hparts⟩ := hall
      exact ⟨_, Except.bind_eq_ok_iff.mpr
        ⟨_, rfl, Except.bind_eq_ok_iff.mpr ⟨parts, hparts, rfl⟩⟩⟩

/-! ### Trees -/

/-- There are no more different nodes than the arena has. -/
theorem length_le_size {path : List NodeId} (hpath : path.Nodup) (h : ∀ y ∈ path, y < t.size) :
    path.length ≤ t.size := by
  have hsub : path ⊆ List.range t.size := fun y hy => List.mem_range.mpr (h y hy)
  have hlength := hpath.length_le_of_subset hsub
  rwa [List.length_range] at hlength

namespace TreeShaped

/-- Each step down from a node meets a node that it has not met before, so the walk ends before the
    arena is used up. -/
theorem exists_subtreeWithin (ht : t.TreeShaped) {fuel : Nat} {path : List NodeId}
    (hx : x < t.size) (hpath : path.Nodup) (habove : ∀ y ∈ path, y < t.size ∧ t.Below y x)
    (hfuel : fuel + path.length = t.size + 1) : ∃ nodes, t.subtreeWithin fuel x = .ok nodes := by
  induction fuel generalizing x path with
  | zero =>
    have hlength := length_le_size hpath fun y hy => (habove y hy).1
    omega
  | succ fuel ih =>
    obtain ⟨kind, hkind⟩ := exists_kind_of_lt hx
    have hnodup : (x :: path).Nodup :=
      List.nodup_cons.mpr ⟨fun hmem => ht.acyclic x (habove x hmem).2, hpath⟩
    have hbelow : ∀ child ∈ kind.children, ∃ part, t.subtreeWithin fuel child = .ok part := by
      intro child hchild
      have hchild : t.ChildOf x child := (childOf_iff hkind).mpr hchild
      refine ih (ht.present x child hchild) hnodup (fun y hy => ?_) ?_
      · rcases List.mem_cons.mp hy with rfl | hy
        · exact ⟨hx, .single hchild⟩
        · exact ⟨(habove y hy).1, (habove y hy).2.tail hchild⟩
      · rw [List.length_cons]
        omega
    obtain ⟨below, hbelow⟩ := exists_mapM_eq_ok_iff.mpr hbelow
    exact ⟨_, Except.bind_eq_ok_iff.mpr
      ⟨_, children_eq hkind, Except.bind_eq_ok_iff.mpr ⟨below, hbelow, rfl⟩⟩⟩

theorem exists_subtree (ht : t.TreeShaped) (hx : x < t.size) : ∃ nodes, t.subtree x = .ok nodes :=
  ht.exists_subtreeWithin hx .nil (fun _ hy => nomatch hy) rfl

theorem exists_references (ht : t.TreeShaped) (hx : x < t.size) :
    ∃ uses, t.references x = .ok uses := by
  obtain ⟨nodes, hnodes⟩ := ht.exists_subtree hx
  exact exists_referencesWithin hnodes [] false

theorem lt_size (ht : t.TreeShaped) (hx : x < t.size) (h : t.AtOrBelow x y) : y < t.size := by
  rcases Relation.ReflTransGen.cases_tail h with rfl | ⟨z, -, hz⟩
  · exact hx
  · exact ht.present z y hz

/-- Whoever is above a node is its parent or above that. -/
theorem atOrBelow_parent (ht : t.TreeShaped) (hchild : t.ChildOf x child) (h : t.Below y child) :
    t.AtOrBelow y x := by
  obtain ⟨z, hyz, hz⟩ := Relation.TransGen.tail'_iff.mp h
  obtain rfl := ht.parent z x child hz hchild
  exact hyz

/-- No node is below a node and at or above it. -/
theorem not_atOrBelow_of_childOf (ht : t.TreeShaped) (hchild : t.ChildOf x child) :
    ¬ t.AtOrBelow child x := fun h => ht.acyclic x (.head' hchild h)

/-- Of two nodes above a third one, one is above the other. -/
theorem comparable (ht : t.TreeShaped) (hx : t.AtOrBelow x z) (hy : t.AtOrBelow y z) :
    t.AtOrBelow x y ∨ t.AtOrBelow y x := by
  induction hx with
  | refl => exact .inr hy
  | tail hxw hw ih =>
    rcases Relation.ReflTransGen.cases_tail hy with rfl | ⟨v, hyv, hv⟩
    · exact .inl (hxw.tail hw)
    · obtain rfl := ht.parent _ _ _ hw hv
      exact ih hyv

end TreeShaped

/-! ### Arenas in ascending order -/

/-- Each node refers to nodes before it only, and no node is referred to twice. -/
def ascending (t : Tree) : Bool :=
  (t.nodes.toList.zipIdx.all fun (n, i) => n.kind.children.all (· < i)) &&
    decide (t.nodes.toList.flatMap fun n => n.kind.children).Nodup

/-- A tree that is built from its leaves on has the nodes below a node before it. -/
theorem treeShaped_of_ascending (h : t.ascending = true) : t.TreeShaped := by
  obtain ⟨hbefore, honce⟩ := Bool.and_eq_true_iff.mp h
  have honce := of_decide_eq_true honce
  have hnode {x : NodeId} {kind : NodeKind} (hkind : t.kind x = .ok kind) :
      ∃ n, t.nodes.toList[x]? = some n ∧ n.kind = kind := by
    have hx := lt_size_of_kind hkind
    refine ⟨t.nodes[x], by rw [Array.getElem?_toList]; exact Array.getElem?_eq_getElem hx, ?_⟩
    unfold Tree.kind Tree.node at hkind
    rw [Array.getElem?_eq_getElem hx] at hkind
    exact Except.ok.inj hkind
  -- Children stand before their parents, and so does everything below.
  have hlt {x child : NodeId} (hchild : t.ChildOf x child) : child < x := by
    obtain ⟨kind, hkind, hmem⟩ := hchild
    obtain ⟨n, hn, rfl⟩ := hnode hkind
    have hall := List.all_eq_true.mp hbefore (n, x) (List.mk_mem_zipIdx_iff_getElem?.mpr hn)
    exact of_decide_eq_true (List.all_eq_true.mp hall child hmem)
  have hbelow {x y : NodeId} (hxy : t.Below x y) : y < x := by
    induction hxy with
    | single hchild => exact hlt hchild
    | tail _ hchild ih => exact Nat.lt_trans (hlt hchild) ih
  obtain ⟨heach, hapart⟩ := List.nodup_flatMap.mp honce
  refine ⟨fun x child hchild => ?_, fun x kind hkind => ?_, fun x y child hx hy => ?_,
    fun x hx => Nat.lt_irrefl x (hbelow hx)⟩
  · obtain ⟨kind, hkind, -⟩ := id hchild
    exact Nat.lt_trans (hlt hchild) (lt_size_of_kind hkind)
  · obtain ⟨n, hn, rfl⟩ := hnode hkind
    exact heach n (List.mem_of_getElem? hn)
  · obtain ⟨kindx, hkindx, hmemx⟩ := hx
    obtain ⟨kindy, hkindy, hmemy⟩ := hy
    obtain ⟨n, hn, rfl⟩ := hnode hkindx
    obtain ⟨n', hn', rfl⟩ := hnode hkindy
    obtain ⟨hlx, hgetx⟩ := List.getElem?_eq_some_iff.mp hn
    obtain ⟨hly, hgety⟩ := List.getElem?_eq_some_iff.mp hn'
    subst hgetx hgety
    -- Two parents of one child would list it twice.
    rcases Nat.lt_trichotomy x y with hxy | rfl | hxy
    · exact absurd hmemy (List.pairwise_iff_getElem.mp hapart x y hlx hly hxy hmemx)
    · rfl
    · exact absurd hmemx (List.pairwise_iff_getElem.mp hapart y x hly hlx hxy hmemy)

end ReactiveDoc.Tree
