import ReactiveDoc.Proofs.Check.Statement

namespace ReactiveDoc.Check

/-!
# The nodes of a fragment

* `mem_subtreeWithin` — the nodes that `Tree.subtree` lists are closed under the nodes below.
* `SameView` — two fragments whose nodes and whose names cannot be told apart.
* `SameView.statement_alike` — the checks of such fragments record and bind the same.
-/

variable {t t₀ : Tree} {D E : NodeId → Prop} {N N' : String → Prop} {depth depth' : Nat}
  {node : NodeId} {nodes : List NodeId}

/-! ### Subtrees -/

/-- What is in common can be listed. -/
theorem Common.exists_subtreeWithin (h : Common t t₀ D depth N node) :
    ∃ nodes, t.subtreeWithin depth node = .ok nodes := by
  induction depth generalizing N node with
  | zero => exact h.elim
  | succ depth ih =>
    obtain ⟨kind, hkind, -, hparts⟩ := h.kind
    have hbelow : ∀ child ∈ kind.children, ∃ nodes, t.subtreeWithin depth child = .ok nodes := by
      intro child hchild
      cases kind with
      | arrow params body =>
        obtain rfl : child = body := List.mem_singleton.mp hchild
        exact ih hparts
      | identifier name => cases hchild
      | _ => exact ih (hparts child hchild)
    obtain ⟨below, hbelow⟩ := exists_mapM_eq_ok_iff.mpr hbelow
    have hchildren : t.children node = .ok kind.children := by
      unfold Tree.children
      rw [hkind]
      rfl
    exact ⟨_, Except.bind_eq_ok_iff.mpr
      ⟨_, hchildren, Except.bind_eq_ok_iff.mpr ⟨below, hbelow, rfl⟩⟩⟩

/-- A listed node exists, and the nodes below it are listed as well. -/
theorem mem_subtreeWithin (h : t.subtreeWithin depth node = .ok nodes) :
    node ∈ nodes ∧ ∀ x ∈ nodes, ∃ n, t.node x = .ok n ∧ ∀ child ∈ n.kind.children, child ∈ nodes := by
  induction depth generalizing node nodes with
  | zero => cases h
  | succ depth ih =>
    obtain ⟨children, hchildren, h⟩ := Except.bind_eq_ok_iff.mp h
    obtain ⟨below, hbelow, h⟩ := Except.bind_eq_ok_iff.mp h
    cases h
    refine ⟨List.mem_cons_self, fun x hx => ?_⟩
    have hlisted {child : NodeId} (hchild : child ∈ children) :
        ∃ part ∈ below, t.subtreeWithin depth child = .ok part := by
      obtain ⟨i, hi⟩ := List.getElem?_of_mem hchild
      have hi' : i < below.length := by
        rw [← length_of_mapM_ok hbelow]
        exact (List.getElem?_eq_some_iff.mp hi).1
      obtain ⟨y, hy, hok⟩ := (getElem?_of_mapM_ok hbelow).mp (List.getElem?_eq_getElem hi')
      obtain rfl : y = child := Option.some.inj (hy.symm.trans hi)
      exact ⟨_, List.getElem_mem hi', hok⟩
    rcases List.mem_cons.mp hx with rfl | hx
    · unfold Tree.children at hchildren
      obtain ⟨kind, hkind, rfl⟩ : ∃ kind, t.kind x = .ok kind ∧ kind.children = children := by
        cases hkind : t.kind x with
        | error fault => rw [hkind] at hchildren; cases hchildren
        | ok kind => rw [hkind] at hchildren; cases hchildren; exact ⟨kind, rfl, rfl⟩
      obtain ⟨n, hn, rfl⟩ := node_eq_ok_of_kind hkind
      refine ⟨n, hn, fun child hchild => List.mem_cons_of_mem x ?_⟩
      obtain ⟨part, hpart, hok⟩ := hlisted hchild
      exact List.mem_flatten.mpr ⟨part, hpart, (ih hok).1⟩
    · obtain ⟨part, hpart, hxpart⟩ := List.mem_flatten.mp hx
      obtain ⟨i, hi⟩ := List.getElem?_of_mem hpart
      obtain ⟨child, -, hok⟩ := (getElem?_of_mapM_ok hbelow).mp hi
      obtain ⟨n, hn, hchildren⟩ := (ih hok).2 x hxpart
      refine ⟨n, hn, fun child hchild => List.mem_cons_of_mem node ?_⟩
      exact List.mem_flatten.mpr ⟨part, hpart, hchildren child hchild⟩

theorem lt_size_of_node {n : Node} {x : NodeId} (h : t.node x = .ok n) : x < t.size := by
  unfold Tree.node at h
  split at h
  · rename_i hget
    exact (Array.getElem?_eq_some_iff.mp hget).1
  · cases h

/-- The nodes of a subtree that another tree has as well. -/
theorem sharedBelow_subtree (h : t.subtree node = .ok nodes)
    (hnodes : ∀ x ∈ nodes, t₀.node x = t.node x) : SharedBelow t t₀ (· ∈ nodes) := by
  intro x hx n hn
  obtain ⟨n', hn', hchildren⟩ := (mem_subtreeWithin h).2 x hx
  obtain rfl : n' = n := Except.ok.inj (hn'.symm.trans hn)
  exact ⟨(hnodes x hx).trans hn, hchildren⟩

theorem Common.symm (h : Common t t₀ D depth N node) : Common t₀ t D depth N node := by
  induction depth generalizing N node with
  | zero => exact h.elim
  | succ depth ih =>
    obtain ⟨hD, n, hn, hn₀, hparts⟩ := h
    exact ⟨hD, n, hn₀, hn, hparts.mono fun N x hx => ih hx⟩

/-- One tree bounds the depth, the other one the names. -/
theorem Common.inter (h : Common t t₀ D depth N node) (h' : Common t t₀ E depth' N' node) :
    Common t t₀ D depth' N node := by
  induction depth' generalizing depth N N' node with
  | zero => exact h'.elim
  | succ depth' ih =>
    cases depth with
    | zero => exact h.elim
    | succ depth =>
      obtain ⟨hD, n, hn, hn₀, hparts⟩ := h
      obtain ⟨-, n', hn', -, hparts'⟩ := h'
      obtain rfl : n' = n := Except.ok.inj (hn'.symm.trans hn)
      refine ⟨hD, n', hn, hn₀, ?_⟩
      cases hkind : n'.kind with
      | identifier name =>
        rw [hkind] at hparts
        exact hparts
      | arrow params body =>
        rw [hkind] at hparts hparts'
        exact ih hparts hparts'
      | _ =>
        rw [hkind] at hparts hparts'
        exact fun child hchild => ih (hparts child hchild) (hparts' child hchild)

/-! ### Fragments that look the same -/

/-- The name is used freely at or below a node. -/
def UsedIn (t : Tree) (node : NodeId) (name : String) : Prop :=
  ∃ references, t.references node = .ok references ∧ ∃ r ∈ references, r.name = name

/-- Two trees have the same nodes at and below a node, and the names that are used there cannot be
    told apart. -/
structure SameView (t t₀ : Tree) (node : NodeId) (env env₀ : TypeEnv) : Prop where
  subtree_eq : t₀.subtree node = t.subtree node
  nodes_eq : ∀ nodes, t.subtree node = .ok nodes → ∀ x ∈ nodes, t₀.node x = t.node x
  names : SameFor (UsedIn t node) env env₀

theorem SameView.refl (t : Tree) (node : NodeId) (env : TypeEnv) : SameView t t node env env :=
  ⟨rfl, fun _ _ _ _ => rfl, .refl _ env⟩

/-- What can be walked has its subtree in common with a tree that looks the same. -/
theorem SameView.common {env env₀ : TypeEnv} {references references₀ : List Reference}
    (h : SameView t t₀ node env env₀) (hreferences : t.references node = .ok references)
    (hreferences₀ : t₀.references node = .ok references₀) (hnodes : t.subtree node = .ok nodes) :
    Common t t₀ (· ∈ nodes) (min t.depthLimit t₀.depthLimit) (UsedIn t node) node := by
  have hroot := (mem_subtreeWithin hnodes).1
  have hnodes₀ : t₀.subtree node = .ok nodes := h.subtree_eq.trans hnodes
  have hcommon : Common t t₀ (· ∈ nodes) t.depthLimit (UsedIn t node) node :=
    common_of_references (sharedBelow_subtree hnodes (h.nodes_eq nodes hnodes)) hroot hreferences
      (fun _ hx => nomatch hx) fun r hr => ⟨references, hreferences, r, hr, rfl⟩
  have hcommon₀ : Common t₀ t (· ∈ nodes) t₀.depthLimit (fun _ => True) node :=
    common_of_references
      (sharedBelow_subtree hnodes₀ fun x hx => (h.nodes_eq nodes hnodes x hx).symm) hroot
      hreferences₀ (fun _ _ => trivial) fun _ _ => trivial
  rcases Nat.le_total t.depthLimit t₀.depthLimit with hle | hle
  · rw [Nat.min_eq_left hle]
    exact hcommon
  · rw [Nat.min_eq_right hle]
    exact hcommon.inter hcommon₀.symm

/-- The checks of two fragments that look the same record the same at and below them, and bind the
    same. -/
theorem SameView.statement_alike {s s₀ : Setting} {env env₀ : TypeEnv}
    {references references₀ : List Reference} {kind : NodeKind}
    (h : SameView s.tree s₀.tree node env env₀) (hoptions : s.options = s₀.options)
    (hmodules : s.modules = s₀.modules) (hreferences : s.tree.references node = .ok references)
    (hreferences₀ : s₀.tree.references node = .ok references₀)
    (hnodes : s.tree.subtree node = .ok nodes) (hkind : s.tree.kind node = .ok kind) :
    Alike (· ∈ nodes) (SameBindings kind.definedNames env env₀) (statement s node env)
      (statement s₀ node env₀) :=
  Check.statement_alike ⟨hoptions, Nat.min_le_left _ _, Nat.min_le_right _ _⟩
    (h.common hreferences hreferences₀ hnodes) h.names hkind fun _ _ _ => by rw [hmodules]

end ReactiveDoc.Check
