import ReactiveDoc.Proofs.Cache.Contents
import ReactiveDoc.Proofs.Document.Reading

namespace ReactiveDoc

/-!
# Results that are taken over from a cache

* `SameNames` — environments in which every name stands for the same.
* `Fresh` — a result is what the check of a fragment finds out.
* `replay_eq` — taking such a result over does what a check of a fragment does that looks the same.
* `statement_fresh` — what a check that misses in the cache keeps is such a result.
* `checkFragment_hit`, `checkFragment_miss` — the two ways of a fragment with a cache.
-/

open Check InterfaceMap

/-- Every name stands for the same in both environments. -/
def SameNames (env env₀ : TypeEnv) : Prop := ∀ x, env.get? x = env₀.get? x

theorem SameNames.sameFor {env env₀ : TypeEnv} (h : SameNames env env₀) (N : String → Prop) :
    SameFor N env env₀ :=
  ⟨fun x _ => h x, fun _ _ _ y _ => by rw [h y]⟩

theorem SameNames.extendAll {env env₀ : TypeEnv} (h : SameNames env env₀)
    (bindings : List (String × Interface)) :
    SameNames (env.extendAll bindings) (env₀.extendAll bindings) := by
  intro x
  rw [Env.get?_extendAll, Env.get?_extendAll, h x]

variable {s s₀ : Setting} {node : NodeId} {nodes : List NodeId} {env env₀ : TypeEnv}
  {m m' : InterfaceMap} {kind : NodeKind} {result : FragmentResult}

/-! ### Results -/

/-- What the check of a fragment has found out, from the interfaces and names after it. -/
def resultFrom (nodes : List NodeId) (names : List String) (m : InterfaceMap) (env : TypeEnv) :
    FragmentResult where
  interfaces := nodes.filterMap fun id => (m.get? id).map fun interface => (id, interface)
  bindings := names.filterMap fun name => (env.get? name).map fun interface => (name, interface)

theorem resultOf_run (hnodes : s.tree.subtree node = .ok nodes) (hkind : s.tree.kind node = .ok kind) :
    Compiler.resultOf s node env m = .ok (resultFrom nodes kind.definedNames m env, m) := by
  unfold Compiler.resultOf
  rw [liftM_bind hnodes, liftM_bind hkind]
  rfl

/-- The result is what the check of the fragment finds out where nothing is recorded for its
    nodes. -/
def Fresh (s : Setting) (node : NodeId) (env : TypeEnv) (result : FragmentResult) : Prop :=
  ∃ nodes kind m next m', s.tree.subtree node = .ok nodes ∧ s.tree.kind node = .ok kind ∧
    (∀ x ∈ nodes, m.get? x = none) ∧ statement s node env m = .ok (next, m') ∧
    result = resultFrom nodes kind.definedNames m' next

/-- The names that a statement binds stand for the same wherever it is checked. -/
theorem Check.SameBindings.get?_eq {names : List String} {next next₀ : TypeEnv}
    (h : SameBindings names env env₀ next next₀) {x : String} (hx : x ∈ names) :
    next.get? x = next₀.get? x ∧ (next₀.get? x).isSome := by
  obtain ⟨bindings, rfl, rfl, rfl⟩ := h
  obtain ⟨heq, hsome⟩ := Env.get?_extendAll_of_mem env env₀ hx
  exact ⟨heq, heq ▸ hsome⟩

theorem Check.SameBindings.sameNames {names : List String} {next next₀ : TypeEnv}
    (h : SameBindings names env env₀ next next₀) (henv : SameNames env env₀) :
    SameNames next next₀ := by
  obtain ⟨bindings, -, rfl, rfl⟩ := h
  exact henv.extendAll bindings

/-- Names that a result binds stand for what they did after the check, and others for what they
    did before. -/
theorem get?_extendAll_result {names : List String} {next : TypeEnv} (x : String)
    (hbound : ∀ x ∈ names, (next.get? x).isSome) :
    (env.extendAll (resultFrom nodes names m next).bindings).get? x =
      if x ∈ names then next.get? x else env.get? x := by
  rw [Env.get?_extendAll]
  set bindings := (resultFrom nodes names m next).bindings with hbindings
  have hmem {b : String × Interface} : b ∈ bindings ↔ b.1 ∈ names ∧ next.get? b.1 = some b.2 := by
    simp only [hbindings, resultFrom, List.mem_filterMap, Option.map_eq_some_iff]
    constructor
    · rintro ⟨name, hname, interface, hget, rfl⟩
      exact ⟨hname, hget⟩
    · rintro ⟨hname, hget⟩
      exact ⟨b.1, hname, b.2, hget, rfl⟩
  by_cases hx : x ∈ names
  · rw [if_pos hx]
    obtain ⟨interface, hget⟩ := Option.isSome_iff_exists.mp (hbound x hx)
    have hfind : (bindings.reverse.find? fun b => b.1 == x).isSome :=
      List.find?_isSome.mpr ⟨(x, interface), List.mem_reverse.mpr (hmem.mpr ⟨hx, hget⟩), by simp⟩
    obtain ⟨b, hb⟩ := Option.isSome_iff_exists.mp hfind
    have hbmem := hmem.mp (List.mem_reverse.mp (List.mem_of_find?_eq_some hb))
    obtain rfl : b.1 = x := by simpa using List.find?_some hb
    rw [hb, hbmem.2]
    rfl
  · rw [if_neg hx, List.find?_eq_none.mpr]
    · rfl
    · intro b hb heq
      obtain rfl : b.1 = x := by simpa using heq
      exact hx (hmem.mp (List.mem_reverse.mp hb)).1

theorem mem_interfaces_resultFrom {names : List String} {next : TypeEnv} {e : NodeId × Interface} :
    e ∈ (resultFrom nodes names m next).interfaces ↔ e.1 ∈ nodes ∧ m.get? e.1 = some e.2 := by
  simp only [resultFrom, List.mem_filterMap, Option.map_eq_some_iff]
  constructor
  · rintro ⟨x, hx, interface, hget, rfl⟩
    exact ⟨hx, hget⟩
  · rintro ⟨hx, hget⟩
    exact ⟨e.1, hx, e.2, hget, rfl⟩

/-- Where nothing was recorded for the nodes of a fragment, the interfaces of a result are what its
    check adds. -/
theorem insertAll_result {names : List String} {next : TypeEnv} {m₀ : InterfaceMap}
    (hlt : ∀ x ∈ nodes, x < m.slots.size) (hnone : ∀ x ∈ nodes, m.get? x = none)
    (hextends : Extends (· ∈ nodes) m m') (hagree : AgreeOn (· ∈ nodes) m' m₀) :
    m.insertAll (resultFrom nodes names m₀ next).interfaces = m' := by
  have hmem {e : NodeId × Interface} : e ∈ (resultFrom nodes names m₀ next).interfaces ↔
      e.1 ∈ nodes ∧ m₀.get? e.1 = some e.2 := mem_interfaces_resultFrom
  refine ext_of_get? ?_ fun x => ?_
  · rw [size_insertAll fun e he => hlt e.1 (hmem.mp he).1, hextends.size_eq hlt]
  · have hheld : ∀ e ∈ (resultFrom nodes names m₀ next).interfaces, m₀.get? e.1 = some e.2 :=
      fun e he => (hmem.mp he).2
    rw [get?_insertAll hheld]
    by_cases hx : x ∈ nodes
    · rw [hnone x hx, hagree x hx, Option.none_or]
      split
      · rfl
      · rename_i hnot
        refine (Option.eq_none_iff_forall_ne_some.mpr fun interface hget => hnot ?_).symm
        exact List.mem_map.mpr ⟨(x, interface), hmem.mpr ⟨hx, hget⟩, rfl⟩
    · rw [if_neg, Option.or_none, hextends.frame x hx]
      intro hnot
      obtain ⟨e, he, rfl⟩ := List.mem_map.mp hnot
      exact hx (hmem.mp he).1

/-- The nodes of a subtree have a place in a map for the tree. -/
theorem lt_size_of_mem_subtree {x : NodeId} (hnodes : s.tree.subtree node = .ok nodes)
    (hsize : m.slots.size = s.tree.size) (hx : x ∈ nodes) : x < m.slots.size := by
  obtain ⟨n, hn, -⟩ := (mem_subtreeWithin hnodes).2 x hx
  rw [hsize]
  exact lt_size_of_node hn

/-- Taking over a result does what the check of a fragment does that looks the same. -/
theorem replay_eq {references references₀ : List Reference} {envC : TypeEnv}
    (hview : SameView s.tree s₀.tree node env env₀) (hoptions : s.options = s₀.options)
    (hmodules : s.modules = s₀.modules) (hreferences : s.tree.references node = .ok references)
    (hreferences₀ : s₀.tree.references node = .ok references₀)
    (hnodes : s.tree.subtree node = .ok nodes) (hsize : m.slots.size = s.tree.size)
    (hnone : ∀ x ∈ nodes, m.get? x = none) (hfresh : Fresh s₀ node env₀ result)
    (henv : SameNames envC env) :
    ∃ next m' nextC, statement s node env m = .ok (next, m') ∧
      Compiler.replay result envC m = .ok (nextC, m') ∧ SameNames nextC next := by
  obtain ⟨nodes₀, kind, m₀, next₀, m₀', hnodes₀, hkind₀, hnone₀, hrun₀, rfl⟩ := hfresh
  obtain rfl : nodes₀ = nodes :=
    Except.ok.inj (hnodes₀.symm.trans (hview.subtree_eq.trans hnodes))
  have hkind : s.tree.kind node = .ok kind := by
    unfold Tree.kind
    rw [← hview.nodes_eq nodes₀ hnodes node (mem_subtreeWithin hnodes).1]
    exact hkind₀
  have halike := hview.statement_alike hoptions hmodules hreferences hreferences₀ hnodes hkind
  obtain ⟨next, m', next₁, m₁, hrun, hrun₁, hbindings, hextends, -, hagree⟩ :=
    halike m m₀ fun x hx => (hnone x hx).trans (hnone₀ x hx).symm
  obtain ⟨rfl, rfl⟩ : next₁ = next₀ ∧ m₁ = m₀' := by
    rw [hrun₀] at hrun₁
    cases hrun₁
    exact ⟨rfl, rfl⟩
  have hmaps : m.insertAll (resultFrom nodes₀ kind.definedNames m₁ next₁).interfaces = m' :=
    insertAll_result (fun x => lt_size_of_mem_subtree hnodes hsize) hnone hextends hagree
  refine ⟨next, m', envC.extendAll (resultFrom nodes₀ kind.definedNames m₁ next₁).bindings, hrun, ?_,
    fun x => ?_⟩
  · rw [← hmaps]
    rfl
  · rw [get?_extendAll_result x fun x hx => (hbindings.get?_eq hx).2]
    by_cases hx : x ∈ kind.definedNames
    · rw [if_pos hx]
      exact (hbindings.get?_eq hx).1.symm
    · obtain ⟨bindings, hnames, rfl, -⟩ := hbindings
      rw [if_neg hx, henv x, Env.get?_extendAll_of_not_mem (hnames ▸ hx)]

/-! ### Steps with and without a cache -/

/-- A check that misses in the cache finds out what a check without a cache does. -/
theorem statement_fresh {references : List Reference} {envC : TypeEnv}
    (hreferences : s.tree.references node = .ok references)
    (hnodes : s.tree.subtree node = .ok nodes) (hkind : s.tree.kind node = .ok kind)
    (hsize : m.slots.size = s.tree.size) (hnone : ∀ x ∈ nodes, m.get? x = none)
    (henv : SameNames envC env) :
    ∃ next m' nextC, statement s node env m = .ok (next, m') ∧
      statement s node envC m = .ok (nextC, m') ∧ SameNames nextC next ∧
      Fresh s node env (resultFrom nodes kind.definedNames m' nextC) := by
  have hview : SameView s.tree s.tree node envC env :=
    ⟨rfl, fun _ _ _ _ => rfl, henv.sameFor _⟩
  have halike := hview.statement_alike rfl rfl hreferences hreferences hnodes hkind
  obtain ⟨nextC, next, m', hrunC, hrun, hbindings, -⟩ :=
    halike.run_same fun x => lt_size_of_mem_subtree hnodes hsize
  have hnames := hbindings.sameNames henv
  refine ⟨next, m', nextC, hrun, hrunC, hnames, nodes, kind, m, next, m', hnodes, hkind, hnone, hrun,
    ?_⟩
  unfold resultFrom
  simp only [hnames _]

/-! ### Keys -/

theorem nameBytes_congr (henv : SameNames env env₀) (name : String) :
    nameBytes env name = nameBytes env₀ name := by
  unfold nameBytes
  rw [henv name]

theorem fragmentKey_congr (henv : SameNames env env₀) (p : Nat) :
    fragmentKey s p node env = fragmentKey s p node env₀ := by
  have hnames : nameBytes env = nameBytes env₀ := funext (nameBytes_congr henv)
  unfold fragmentKey
  rw [hnames]

/-- A fragment whose uses can be found has a key. -/
theorem exists_fragmentKey {references : List Reference}
    (hreferences : s.tree.references node = .ok references)
    (hnodes : s.tree.subtree node = .ok nodes) (hkind : s.tree.kind node = .ok kind) (p : Nat)
    (env : TypeEnv) : ∃ key, fragmentKey s p node env = .ok key := by
  obtain ⟨bytes, hbytes⟩ : ∃ bytes, nodes.mapM (nodeBytes s.tree) = .ok bytes := by
    refine exists_mapM_eq_ok_iff.mpr fun x hx => ?_
    obtain ⟨n, hn, -⟩ := (mem_subtreeWithin hnodes).2 x hx
    unfold nodeBytes
    rw [hn]
    exact ⟨_, rfl⟩
  have hfree : s.tree.freeIdentifiers node = .ok (Tree.distinctNames (references.map Reference.name)) := by
    unfold Tree.freeIdentifiers
    rw [hreferences]
    rfl
  exact ⟨_, Except.bind_eq_ok_iff.mpr ⟨nodes, hnodes, Except.bind_eq_ok_iff.mpr ⟨bytes, hbytes,
    Except.bind_eq_ok_iff.mpr ⟨_, hfree, Except.bind_eq_ok_iff.mpr ⟨kind, hkind, rfl⟩⟩⟩⟩⟩

section

variable {α β : Type} {p : Nat} {key : FragmentKey} {cache cache' : FragmentCache} {next : TypeEnv}
  {held held' : Option FragmentCache}

theorem Compiler.bind_run {x : Compiler.CompileM α} {f : α → Compiler.CompileM β} {a : α}
    (h : x held m = .ok ((a, held'), m')) : (x >>= f) held m = f a held' m' := by
  show ((x held >>= fun r => f r.1 r.2) : CheckM _) m = _
  exact Check.bind_run h

/-- A check leaves the cache as it is. -/
theorem Compiler.lift_run {x : CheckM α} {a : α} (h : x m = .ok (a, m')) :
    (liftM x : Compiler.CompileM α) held m = .ok ((a, held), m') := by
  show ((x >>= fun a => pure (a, held)) : CheckM _) m = _
  exact Check.bind_run h

/-- A fragment is looked up under its key. -/
theorem checkFragment_run (hkey : fragmentKey s p node env = .ok key)
    {found? : Option FragmentResult} (hfind : cache.find key = (found?, cache')) :
    Compiler.checkFragment s p node env (some cache) m =
      (match found? with
        | some result => (Compiler.replay result env : Compiler.CompileM TypeEnv)
        | none => do
            let next ← statement s node env
            let result ← Compiler.resultOf s node next
            set (some (cache'.insert key result))
            pure next) (some cache') m := by
  obtain ⟨rfl, rfl⟩ := Prod.mk.inj hfind
  unfold Compiler.checkFragment
  rw [hkey]
  rfl

/-- Without a cache a fragment is checked. -/
theorem checkFragment_none (p : Nat) (hrun : statement s node env m = .ok (next, m')) :
    Compiler.checkFragment s p node env none m = .ok ((next, none), m') := Compiler.lift_run hrun

/-- A fragment whose key is found is not checked. -/
theorem checkFragment_hit (hkey : fragmentKey s p node env = .ok key)
    (hfind : cache.find key = (some result, cache'))
    (hreplay : Compiler.replay result env m = .ok (next, m')) :
    Compiler.checkFragment s p node env (some cache) m = .ok ((next, some cache'), m') :=
  (checkFragment_run hkey hfind).trans (Compiler.lift_run hreplay)

/-- A fragment whose key is not found is checked, and what is found out is kept. -/
theorem checkFragment_miss (hkey : fragmentKey s p node env = .ok key)
    (hfind : cache.find key = (none, cache'))
    (hrun : statement s node env m = .ok (next, m'))
    (hresult : Compiler.resultOf s node next m' = .ok (result, m')) :
    Compiler.checkFragment s p node env (some cache) m =
      .ok ((next, some (cache'.insert key result)), m') := by
  refine (checkFragment_run hkey hfind).trans ?_
  refine (Compiler.bind_run (Compiler.lift_run hrun)).trans ?_
  exact Compiler.bind_run (Compiler.lift_run hresult)

end

end ReactiveDoc
