import ReactiveDoc.Proofs.Check.Covered
import ReactiveDoc.Proofs.Syntax.Free

/-!
# Checking depends on the free names only

The walk for free names sees each lookup in the environment that the rules make, those of narrowing
and those in the bodies of arrows included.

* `Check.SameFor.of_bound` — environments that bind names to the same look the same for them.
* `Check.statement_of_bound` — then a statement is checked alike, whatever else they hold.
-/

namespace ReactiveDoc.Tree

variable {t : Tree} {node : NodeId} {names : List String} {name : String}

theorem mem_distinctNames : name ∈ distinctNames names ↔ name ∈ names := by
  -- The induction is on the names that are left, with those kept so far.
  have hfold (kept : List String) : name ∈ names.foldl
      (fun kept name => if kept.contains name then kept else kept ++ [name]) kept ↔
        name ∈ kept ∨ name ∈ names := by
    induction names generalizing kept with
    | nil => simp
    | cons first rest ih =>
      rw [List.foldl_cons, ih, List.mem_cons, ← or_assoc]
      refine or_congr_left ?_
      split
      next hkept =>
        have hmem : first ∈ kept := by simpa using hkept
        exact ⟨.inl, fun h => h.elim id fun heq => heq ▸ hmem⟩
      next => simp
  exact (hfold []).trans (or_iff_right List.not_mem_nil)

theorem exists_references_of_freeIdentifiers (h : t.freeIdentifiers node = .ok names) :
    ∃ uses, t.references node = .ok uses ∧ ∀ name, name ∈ names ↔ ∃ use ∈ uses, use.name = name := by
  unfold freeIdentifiers at h
  cases huses : t.references node with
  | error fault =>
    rw [huses] at h
    cases h
  | ok uses =>
    rw [huses] at h
    cases h
    exact ⟨uses, rfl, fun name => mem_distinctNames.trans List.mem_map⟩

theorem TreeShaped.exists_freeIdentifiers (ht : t.TreeShaped) (hnode : node < t.size) :
    ∃ names, t.freeIdentifiers node = .ok names := by
  obtain ⟨uses, huses⟩ := ht.exists_references hnode
  exact ⟨_, by rw [freeIdentifiers, huses]; rfl⟩

end ReactiveDoc.Tree

namespace ReactiveDoc.Check

variable {s : Setting} {node : NodeId} {names : List String} {N : String → Prop}
  {env env₀ : TypeEnv} {kind : NodeKind} {m : InterfaceMap}

/-- Where the names are bound, how others are spelled plays no role. -/
theorem SameFor.of_bound
    (h : ∀ name, N name → ∃ i, env.get? name = some i ∧ env₀.get? name = some i) :
    SameFor N env env₀ where
  held name hname := by
    obtain ⟨i, hi, hi₀⟩ := h name hname
    rw [hi, hi₀]
  close name hname hnone := by
    obtain ⟨i, hi, -⟩ := h name hname
    cases hi.symm.trans hnone

/-- A node has all nodes below it in common with itself, and uses no names but its free ones. -/
theorem common_of_freeIdentifiers (h : s.tree.freeIdentifiers node = .ok names) :
    Common s.tree s.tree (s.tree.AtOrBelow node) s.tree.depthLimit (· ∈ names) node := by
  obtain ⟨uses, huses, hnames⟩ := Tree.exists_references_of_freeIdentifiers h
  refine common_of_references (sharedBelow_atOrBelow s.tree node) .refl huses
    (fun _ hmem => absurd hmem List.not_mem_nil) fun use huse => ?_
  exact (hnames use.name).mpr ⟨use, huse, rfl⟩

/-- Two environments that bind the free names of a statement to the same interfaces cannot be told
    apart by its check.  From the same map it completes in both, records the same interfaces and
    binds its names to the same ones. -/
theorem statement_of_bound (ht : s.tree.TreeShaped) (hkind : s.tree.kind node = .ok kind)
    (hroom : s.tree.size ≤ m.slots.size) :
    ∃ names, s.tree.freeIdentifiers node = .ok names ∧ ∀ env env₀ : TypeEnv,
      (∀ name ∈ names, ∃ i, env.get? name = some i ∧ env₀.get? name = some i) →
      ∃ bindings m', bindings.map Prod.fst = kind.definedNames ∧
        statement s node env m = .ok (env.extendAll bindings, m') ∧
        statement s node env₀ m = .ok (env₀.extendAll bindings, m') := by
  have hnode := Tree.lt_size_of_kind hkind
  obtain ⟨names, hnames⟩ := ht.exists_freeIdentifiers hnode
  refine ⟨names, hnames, fun env env₀ hbound => ?_⟩
  have halike : Alike (s.tree.AtOrBelow node) (SameBindings kind.definedNames env env₀)
      (statement s node env) (statement s node env₀) :=
    statement_alike ⟨rfl, Nat.le_refl _, Nat.le_refl _⟩ (common_of_freeIdentifiers hnames)
      (.of_bound hbound) hkind fun _ _ _ => rfl
  obtain ⟨next, next₀, m', hrun, hrun₀, ⟨bindings, hfst, rfl, rfl⟩, -⟩ :=
    halike.run_same (m := m) fun x hx => Nat.lt_of_lt_of_le (ht.lt_size hnode hx) hroom
  exact ⟨bindings, m', hfst, hrun, hrun₀⟩

/-- `const y = n ? (k) => n : 0` -/
def guardedName : Tree :=
  ⟨#[⟨default, .identifier "n"⟩, ⟨default, .identifier "n"⟩, ⟨default, .arrow [⟨"k", none⟩] 1⟩,
    ⟨default, .literal (.number 0)⟩, ⟨default, .conditional 0 2 3⟩,
    ⟨default, .constBinding "y" none 4 false⟩]⟩

/-- What `k` and `m` stand for, and the order of the bindings, play no role. -/
theorem statement_of_bound_guardedName : ∃ bindings m', bindings.map Prod.fst = ["y"] ∧
    statement ⟨guardedName, [], {}⟩ 5 ⟨[("m", .ok (.fixed .null)), ("n", .ok (.fixed .number))]⟩
        (.ofSize 6) =
      .ok (Env.extendAll ⟨[("m", .ok (.fixed .null)), ("n", .ok (.fixed .number))]⟩ bindings, m') ∧
    statement ⟨guardedName, [], {}⟩ 5 ⟨[("n", .ok (.fixed .number)), ("k", .ok (.fixed .string))]⟩
        (.ofSize 6) =
      .ok (Env.extendAll ⟨[("n", .ok (.fixed .number)), ("k", .ok (.fixed .string))]⟩ bindings, m')
    := by
  have hkind : guardedName.kind 5 = .ok (.constBinding "y" none 4 false) := rfl
  obtain ⟨names, hnames, h⟩ := statement_of_bound (s := ⟨guardedName, [], {}⟩) (m := .ofSize 6)
    (Tree.treeShaped_of_ascending (by decide)) hkind (Nat.le_refl 6)
  obtain rfl : ["n"] = names := Except.ok.inj hnames
  refine h _ _ fun name hname => ?_
  obtain rfl := List.mem_singleton.mp hname
  exact ⟨_, rfl, rfl⟩

end ReactiveDoc.Check
