import Mathlib
import ReactiveDoc.Proofs.Cache.Telling
import ReactiveDoc.Proofs.Check.FreeNames
import ReactiveDoc.Proofs.Document.Caching

namespace ReactiveDoc

/-!
# Documents are checked alike with and without a cache

* `Apart` — the fragments of a document share no nodes.
* `CheckedIn`, `KeysTell` — what the keys of the fragments of several documents are to tell.
* `Sound` — every result in a cache is what the check of a fragment finds out.
* `check_alike` — with such a cache a document is checked alike, and it stays such a cache.
* `checkAll_completes` — documents that are checked without a cache are checked with such a cache.
* `keysTell_of_eq`, `apart_of_subtrees` — when keys tell and fragments share no nodes.
* `NamesBound`, `NumbersTold` — documents in which each name that is used is bound, and in which
  numbers are finite; `keysTell_of_told` — the keys of such documents tell.
* `check_cached` — a document is checked alike after any documents that were checked with the cache
  before.
* `hint_replayed` — keys do not tell which names a misspelt name is like.
-/

open Check InterfaceMap

variable {s : Setting} {node : NodeId} {nodes : List NodeId} {env env₀ : TypeEnv}
  {m m' : InterfaceMap}

/-! ### Documents -/

/-- No node is at or below two fragments. -/
def Apart (d : Document) : Prop :=
  ∀ p q, p ≠ q → ∀ x, Within d.tree d.fragments [p] x → ¬ Within d.tree d.fragments [q] x

/-- A fragment in a group without a circle is checked in an environment, if there is no cache. -/
def CheckedIn (c : Compiler) (d : Document) (p : Nat) (node : NodeId) (env : TypeEnv) : Prop :=
  ∃ earlier g later m, fragmentGroups d.tree d.fragments = .ok (earlier ++ g :: later) ∧
    g.cyclic = false ∧ p ∈ g.members ∧ d.fragments[p]? = some node ∧
    c.after d earlier = .ok (env, m)

/-- Fragments of the documents that have the same key look the same. -/
def KeysTell (c : Compiler) (docs : List Document) : Prop :=
  ∀ d ∈ docs, ∀ d₀ ∈ docs, ∀ p p₀ node node₀ env env₀ key,
    CheckedIn c d p node env → CheckedIn c d₀ p₀ node₀ env₀ →
    fragmentKey (c.setting d) p node env = .ok key →
    fragmentKey (c.setting d₀) p₀ node₀ env₀ = .ok key →
    node₀ = node ∧ SameView d.tree d₀.tree node env env₀

/-- Every result in the cache is what the check of a fragment of the documents finds out. -/
def Sound (c : Compiler) (docs : List Document) (cache : FragmentCache) : Prop :=
  ∀ key result, cache.Holds key result → ∃ d ∈ docs, ∃ p node env, CheckedIn c d p node env ∧
    fragmentKey (c.setting d) p node env = .ok key ∧ Fresh (c.setting d) node env result

variable {c : Compiler} {d : Document} {docs : List Document} {earlier later : List Group}
  {g : Group} {cache : FragmentCache} {envC : TypeEnv}

theorem Within.single {t : Tree} {fragments : List NodeId} {positions : List Nat} {x : NodeId}
    (h : Within t fragments positions x) : ∃ p ∈ positions, Within t fragments [p] x := by
  obtain ⟨p, hp, h⟩ := h
  exact ⟨p, hp, p, List.mem_singleton.mpr rfl, h⟩

/-- Nothing is recorded for the nodes of a fragment that has not been checked yet. -/
theorem get?_eq_none_of_later {p : Nat} (hapart : Apart d)
    (hgroups : fragmentGroups d.tree d.fragments = .ok (earlier ++ g :: later))
    (hafter : c.after d earlier = .ok (env, m)) (hp : p ∈ g.members)
    (hnode : d.fragments[p]? = some node) (hnodes : d.tree.subtree node = .ok nodes) :
    ∀ x ∈ nodes, m.get? x = none := by
  intro x hx
  have hbound := (bound_of_after hgroups (fun g hg => List.mem_append_left _ hg) hafter).2
  rw [hbound.grows.frame x, get?_ofSize]
  intro hwithin
  obtain ⟨q, hq, hwithin⟩ := hwithin.single
  -- Every fragment is a member of one group only.
  have hne : q ≠ p := by
    rintro rfl
    have hnodup := (ordered_of_fragmentGroups hgroups).perm.nodup_iff.mpr List.nodup_range
    rw [List.flatMap_append, List.flatMap_cons] at hnodup
    exact (List.nodup_append.mp hnodup).2.2 q hq q (List.mem_append_left _ hp) rfl
  exact hapart q p hne x hwithin ⟨p, List.mem_singleton.mpr rfl, node, nodes, hnode, hnodes, hx⟩

/-- A fragment is checked alike with and without a cache. -/
theorem checkFragment_cached {p : Nat} {references : List Reference} (hkeys : KeysTell c docs)
    (hd : d ∈ docs) (hsound : Sound c docs cache) (hchecked : CheckedIn c d p node env)
    (hreferences : d.tree.references node = .ok references)
    (hnodes : d.tree.subtree node = .ok nodes) (hsize : m.slots.size = d.tree.size)
    (hnone : ∀ x ∈ nodes, m.get? x = none) (henv : SameNames envC env) :
    ∃ next m' nextC cache', statement (c.setting d) node env m = .ok (next, m') ∧
      Compiler.checkFragment (c.setting d) p node envC (some cache) m =
        .ok ((nextC, some cache'), m') ∧
      SameNames nextC next ∧ Sound c docs cache' := by
  obtain ⟨kind, hkind⟩ := kind_eq_ok_of_references hreferences
  obtain ⟨key, hkey⟩ := exists_fragmentKey (s := c.setting d) hreferences hnodes hkind p env
  have hkeyC : fragmentKey (c.setting d) p node envC = .ok key :=
    (fragmentKey_congr henv p).trans hkey
  cases hfind : cache.find key with
  | mk found? cache' =>
    obtain ⟨hfound, hkept⟩ := FragmentCache.holds_of_find hfind
    have hsound' : Sound c docs cache' := fun k r hr => hsound k r (hkept k r hr)
    cases found? with
    | some result =>
      obtain ⟨d₀, hd₀, p₀, node₀, env₀, hchecked₀, hkey₀, hfresh⟩ :=
        hsound key result (hfound result rfl)
      obtain ⟨rfl, hview⟩ : node₀ = node ∧
          SameView (c.setting d).tree (c.setting d₀).tree node env env₀ :=
        hkeys d hd d₀ hd₀ p p₀ node node₀ env env₀ key hchecked hchecked₀ hkey hkey₀
      obtain ⟨references₀, hreferences₀⟩ : ∃ references, d₀.tree.references node₀ = .ok references := by
        obtain ⟨_, _, _, _, hgroups₀, -, -, hnode₀, -⟩ := hchecked₀
        exact walked_of_fragmentGroups hgroups₀ node₀ (List.mem_of_getElem? hnode₀)
      obtain ⟨next, m', nextC, hrun, hreplay, hnames⟩ :=
        replay_eq hview rfl rfl hreferences hreferences₀ hnodes hsize hnone hfresh henv
      exact ⟨next, m', nextC, cache', hrun, checkFragment_hit hkeyC hfind hreplay, hnames, hsound'⟩
    | none =>
      obtain ⟨next, m', nextC, hrun, hrunC, hnames, hfresh⟩ := statement_fresh (s := c.setting d)
        hreferences hnodes hkind hsize hnone henv
      refine ⟨next, m', nextC, _, hrun, checkFragment_miss hkeyC hfind hrunC
        (resultOf_run hnodes hkind), hnames, fun k r hr => ?_⟩
      rcases FragmentCache.holds_of_insert hr with ⟨rfl, rfl⟩ | hr
      · exact ⟨d, hd, p, node, env, hchecked, hkey, hfresh⟩
      · exact hsound' k r hr

/-! ### Groups that use their own bindings -/

section

variable {fragments : List NodeId} {positions : List Nat} {members : List (Nat × NodeId)}

/-- A fragment records and binds the same in environments with the same names. -/
theorem statement_sameNames {p : Nat} (hwalked : Walked s.tree fragments) (hp : p ∈ positions)
    (hnode : fragments[p]? = some node) (henv : SameNames env env₀) :
    Alike (Within s.tree fragments positions) SameNames (statement s node env)
      (statement s node env₀) := by
  obtain ⟨references, hreferences⟩ := hwalked node (List.mem_of_getElem? hnode)
  obtain ⟨kind, hkind⟩ := kind_eq_ok_of_references hreferences
  have halike := statement_alike ⟨rfl, Nat.le_refl _, Nat.le_refl _⟩
    (common_within hnode hreferences hp) (henv.sameFor _) hkind fun _ _ _ => rfl
  exact halike.mono fun _ _ hbindings => hbindings.sameNames henv

variable (hwalked : Walked s.tree fragments)
  (hmembers : ∀ member ∈ members, member.1 ∈ positions ∧ fragments[member.1]? = some member.2)
  (henv : SameNames env env₀)

include hwalked hmembers henv

theorem checkRecursive_sameNames :
    Alike (Within s.tree fragments positions) SameNames
      (Compiler.checkRecursive s (members.map Prod.snd) env)
      (Compiler.checkRecursive s (members.map Prod.snd) env₀) := by
  have hkinds : Alike (Within s.tree fragments positions) Eq
      ((members.map Prod.snd).mapM (kindOf s)) ((members.map Prod.snd).mapM (kindOf s)) := by
    refine .mapM fun node hnode => ?_
    obtain ⟨member, hmember, rfl⟩ := List.mem_map.mp hnode
    have hfragment := List.mem_of_getElem? (hmembers member hmember).2
    obtain ⟨kind, hkind⟩ := kind_eq_ok_of_references (hwalked _ hfragment).choose_spec
    rw [← bind_pure (kindOf s member.2), kindOf_bind hkind]
    exact alike_pure rfl
  refine hkinds.bind_eq fun kinds => .foldlM (fun env env₀ henv node hnode => ?_)
    (henv.extendAll _)
  obtain ⟨member, hmember, rfl⟩ := List.mem_map.mp hnode
  obtain ⟨hp, hfragment⟩ := hmembers member hmember
  exact statement_sameNames hwalked hp hfragment henv

theorem rejectAll_sameNames (chain : List String) :
    Alike (Within s.tree fragments positions) SameNames
      (Compiler.rejectAll s chain (members.map Prod.snd) env)
      (Compiler.rejectAll s chain (members.map Prod.snd) env₀) := by
  refine .foldlM (fun env env₀ henv node hnode => ?_) henv
  obtain ⟨member, hmember, rfl⟩ := List.mem_map.mp hnode
  obtain ⟨hp, hfragment⟩ := hmembers member hmember
  obtain ⟨references, hreferences⟩ := hwalked _ (List.mem_of_getElem? hfragment)
  obtain ⟨kind, hkind⟩ := kind_eq_ok_of_references hreferences
  obtain ⟨span, hspan⟩ := span_eq_ok_of_kind hkind
  obtain ⟨nodes, hnodes⟩ := exists_subtree hreferences
  have hroot : Within s.tree fragments positions member.2 :=
    ⟨member.1, hp, member.2, nodes, hfragment, hnodes, (mem_subtreeWithin hnodes).1⟩
  refine (record_alike hroot hspan hspan _).bind_eq fun recorded => ?_
  rw [kindOf_bind hkind, kindOf_bind hkind]
  exact alike_pure (henv.extendAll _)

end

/-- A group that uses its own bindings is checked alike with and without a cache. -/
theorem checkGroup_cyclic {d : Document} {g : Group} (hwalked : Walked d.tree d.fragments)
    (htree : s.tree = d.tree) (hcyclic : g.cyclic = true) (hsize : m.slots.size = d.tree.size)
    (henv : SameNames envC env) (cache? : Option FragmentCache) :
    ∃ next m' nextC, Compiler.checkGroup s d env g none m = .ok ((next, none), m') ∧
      Compiler.checkGroup s d envC g cache? m = .ok ((nextC, cache?), m') ∧
      SameNames nextC next := by
  let check (env : TypeEnv) : CheckM TypeEnv :=
    if g.legal then Compiler.checkRecursive s ((membersOf d.fragments g).map Prod.snd) env
    else Compiler.rejectAll s g.chain ((membersOf d.fragments g).map Prod.snd) env
  have hcheck (env : TypeEnv) (cache? : Option FragmentCache) :
      Compiler.checkGroup s d env g cache? =
        (liftM (check env) : Compiler.CompileM TypeEnv) cache? := by
    unfold Compiler.checkGroup
    simp only [hcyclic, Bool.not_true, Bool.false_eq_true, ↓reduceIte, check]
    split
    · rfl
    · rfl
  have hmembers : ∀ member ∈ membersOf d.fragments g,
      member.1 ∈ g.members ∧ d.fragments[member.1]? = some member.2 :=
    fun member hmember => mem_membersOf.mp hmember
  rw [← htree] at hwalked hsize
  have halike : Alike (Within s.tree d.fragments g.members) SameNames (check envC) (check env) := by
    simp only [check]
    split
    · exact checkRecursive_sameNames hwalked hmembers henv
    · exact rejectAll_sameNames hwalked hmembers henv g.chain
  obtain ⟨nextC, next, m', hrunC, hrun, hnames, -⟩ :=
    halike.run_same fun x hx => hsize ▸ hx.lt_size
  rw [hcheck, hcheck]
  exact ⟨next, m', nextC, Compiler.lift_run hrun, Compiler.lift_run hrunC, hnames⟩

/-! ### Groups without a circle -/

theorem checkGroup_of_not_cyclic (hcyclic : g.cyclic = false) (env : TypeEnv) :
    Compiler.checkGroup s d env g = (membersOf d.fragments g).foldlM
      (fun env (p, node) => Compiler.checkFragment s p node env) env := by
  unfold Compiler.checkGroup
  simp only [hcyclic, Bool.not_false, ↓reduceIte]
  rfl

/-- A group of one fragment is that fragment. -/
theorem checkGroup_single {p : Nat} {held held' : Option FragmentCache} {next : TypeEnv}
    (hcyclic : g.cyclic = false) (hmembers : membersOf d.fragments g = [(p, node)])
    (h : Compiler.checkFragment s p node env held m = .ok ((next, held'), m')) :
    Compiler.checkGroup s d env g held m = .ok ((next, held'), m') := by
  rw [checkGroup_of_not_cyclic hcyclic, hmembers]
  exact (Compiler.bind_run h).trans rfl

/-- A group without a circle has one member. -/
theorem exists_membersOf {groups : List Group} (hordered : OrderedGroups d.tree d.fragments groups)
    (hg : g ∈ groups) (hcyclic : g.cyclic = false) {p : Nat} (hp : p ∈ g.members) :
    ∃ node, membersOf d.fragments g = [(p, node)] ∧ d.fragments[p]? = some node := by
  have hlt : p < d.fragments.length :=
    List.mem_range.mp (hordered.perm.mem_iff.mp (List.mem_flatMap.mpr ⟨g, hg, hp⟩))
  have hnot : ¬ 1 < g.members.length := fun h => by
    rw [(hordered.cyclic_iff g hg).mpr (.inl h)] at hcyclic
    cases hcyclic
  obtain ⟨a, ha⟩ : ∃ a, g.members = [a] :=
    List.length_eq_one_iff.mp (Nat.le_antisymm (Nat.not_lt.mp hnot) (List.length_pos_of_mem hp))
  obtain rfl : p = a := List.mem_singleton.mp (ha ▸ hp)
  refine ⟨d.fragments[p], ?_, List.getElem?_eq_getElem hlt⟩
  unfold membersOf
  rw [ha, List.filterMap_cons, List.getElem?_eq_getElem hlt]
  rfl

/-- A group without a circle is checked alike with and without a cache. -/
theorem checkGroup_plain (hkeys : KeysTell c docs) (hd : d ∈ docs) (hapart : Apart d)
    (hsound : Sound c docs cache)
    (hgroups : fragmentGroups d.tree d.fragments = .ok (earlier ++ g :: later))
    (hcyclic : g.cyclic = false) (hafter : c.after d earlier = .ok (env, m))
    (hsize : m.slots.size = d.tree.size) (henv : SameNames envC env) :
    ∃ next m' nextC cache',
      Compiler.checkGroup (c.setting d) d env g none m = .ok ((next, none), m') ∧
      Compiler.checkGroup (c.setting d) d envC g (some cache) m = .ok ((nextC, some cache'), m') ∧
      SameNames nextC next ∧ Sound c docs cache' := by
  have hordered := ordered_of_fragmentGroups hgroups
  cases hlist : g.members with
  | nil =>
    have hmembers : membersOf d.fragments g = [] := by
      unfold membersOf
      rw [hlist]
      rfl
    rw [checkGroup_of_not_cyclic hcyclic, checkGroup_of_not_cyclic hcyclic, hmembers]
    exact ⟨env, m, envC, cache, rfl, rfl, henv, hsound⟩
  | cons p rest =>
    have hp : p ∈ g.members := hlist ▸ List.mem_cons_self
    obtain ⟨node, hmembers, hnode⟩ :=
      exists_membersOf hordered (List.mem_append_right _ List.mem_cons_self) hcyclic hp
    have hchecked : CheckedIn c d p node env :=
      ⟨earlier, g, later, m, hgroups, hcyclic, hp, hnode, hafter⟩
    obtain ⟨references, hreferences⟩ :=
      walked_of_fragmentGroups hgroups node (List.mem_of_getElem? hnode)
    obtain ⟨nodes, hnodes⟩ := exists_subtree hreferences
    obtain ⟨next, m', nextC, cache', hrun, hrunC, hnames, hsound'⟩ :=
      checkFragment_cached hkeys hd hsound hchecked hreferences hnodes hsize
        (get?_eq_none_of_later hapart hgroups hafter hp hnode hnodes) henv
    exact ⟨next, m', nextC, cache', checkGroup_single hcyclic hmembers (Compiler.lift_run hrun),
      checkGroup_single hcyclic hmembers hrunC, hnames, hsound'⟩

/-- The check of further groups is alike with and without a cache. -/
theorem checkGroups_cached (hkeys : KeysTell c docs) (hd : d ∈ docs) (hapart : Apart d)
    (hsound : Sound c docs cache)
    (hgroups : fragmentGroups d.tree d.fragments = .ok (earlier ++ later))
    (hafter : c.after d earlier = .ok (env, m)) (henv : SameNames envC env) :
    ∃ next m' nextC cache',
      later.foldlM (Compiler.checkGroup (c.setting d) d) env none m = .ok ((next, none), m') ∧
      later.foldlM (Compiler.checkGroup (c.setting d) d) envC (some cache) m =
        .ok ((nextC, some cache'), m') ∧
      Sound c docs cache' := by
  induction later generalizing earlier env envC m cache with
  | nil => exact ⟨env, m, envC, cache, rfl, rfl, hsound⟩
  | cons g later ih =>
    obtain ⟨hrun, hbound⟩ := bound_of_after hgroups (fun g hg => List.mem_append_left _ hg) hafter
    have hsize : m.slots.size = d.tree.size := by
      rw [hbound.grows.size_eq fun x hx => ?_]
      · exact Array.size_replicate
      · exact hx.lt_size.trans_eq Array.size_replicate.symm
    have hstep : ∃ next m' nextC cache',
        Compiler.checkGroup (c.setting d) d env g none m = .ok ((next, none), m') ∧
        Compiler.checkGroup (c.setting d) d envC g (some cache) m = .ok ((nextC, some cache'), m') ∧
        SameNames nextC next ∧ Sound c docs cache' := by
      cases hcyclic : g.cyclic with
      | true =>
        obtain ⟨next, m', nextC, hrun, hrunC, hnames⟩ := checkGroup_cyclic (s := c.setting d)
          (walked_of_fragmentGroups hgroups) rfl hcyclic hsize henv (some cache)
        exact ⟨next, m', nextC, cache, hrun, hrunC, hnames, hsound⟩
      | false => exact checkGroup_plain hkeys hd hapart hsound hgroups hcyclic hafter hsize henv
    obtain ⟨next, m', nextC, cache', hgroup, hgroupC, hnames, hsound'⟩ := hstep
    have hafter' : c.after d (earlier ++ [g]) = .ok (next, m') := by
      refine Except.bind_eq_ok_iff.mpr ⟨((next, none), m'), ?_, rfl⟩
      rw [List.foldlM_append, StateT.run_bind]
      refine (bind_run hrun).trans ?_
      exact (Compiler.bind_run hgroup).trans rfl
    obtain ⟨next', m'', nextC', cache'', hrest, hrestC, hsound''⟩ :=
      ih hsound' (by rw [List.append_assoc]; exact hgroups) hafter' hnames
    refine ⟨next', m'', nextC', cache'', ?_, ?_, hsound''⟩
    · rw [List.foldlM_cons]
      exact (Compiler.bind_run hgroup).trans hrest
    · rw [List.foldlM_cons]
      exact (Compiler.bind_run hgroupC).trans hrestC

/-- What is reported depends on the interfaces only. -/
theorem check_eq_of_run {groups : List Group} {cache? cache?' : Option FragmentCache}
    (hgroups : fragmentGroups d.tree d.fragments = .ok groups)
    (h : groups.foldlM (Compiler.checkGroup (c.setting d) d) c.host.env cache?
      (.ofSize d.tree.size) = .ok ((env, cache?'), m')) :
    c.check d cache? = (do
      let exports ← Compiler.exportType d m'
      let found := Compiler.diagnostics c.config m'
      pure (⟨m', exports, found.errors, found.dropped, groups⟩, cache?')) := by
  unfold Compiler.check
  rw [hgroups]
  show ((groups.foldlM (Compiler.checkGroup (c.setting d) d) c.host.env cache?
    (.ofSize d.tree.size)) >>= _ : Except Fault _) = _
  rw [h]
  rfl

/-- A document is checked alike with and without a cache whose results are sound, and they still are
    afterwards. -/
theorem check_alike (hkeys : KeysTell c docs) (hd : d ∈ docs) (hapart : Apart d)
    (hsound : Sound c docs cache) :
    (c.check d (some cache)).map Prod.fst = (c.check d none).map Prod.fst ∧
      ∀ checked cache?, c.check d (some cache) = .ok (checked, cache?) →
        ∃ cache', cache? = some cache' ∧ Sound c docs cache' := by
  cases hgroups : fragmentGroups d.tree d.fragments with
  | error fault =>
    have hfault (cache? : Option FragmentCache) : c.check d cache? = .error fault := by
      unfold Compiler.check
      rw [hgroups]
      rfl
    rw [hfault, hfault]
    exact ⟨rfl, fun _ _ h => (nomatch h)⟩
  | ok groups =>
    have hgroups' : fragmentGroups d.tree d.fragments = .ok ([] ++ groups) := hgroups
    obtain ⟨next, m', nextC, cache', hrun, hrunC, hsound'⟩ :=
      checkGroups_cached hkeys hd hapart hsound hgroups' rfl fun _ => rfl
    rw [check_eq_of_run hgroups hrun, check_eq_of_run hgroups hrunC]
    cases Compiler.exportType d m' with
    | error fault => exact ⟨rfl, fun _ _ h => (nomatch h)⟩
    | ok exports =>
      refine ⟨rfl, fun checked cache? h => ?_⟩
      cases h
      exact ⟨cache', rfl, hsound'⟩

theorem sound_ofCapacity (c : Compiler) (docs : List Document) (capacity : Nat) :
    Sound c docs (.ofCapacity capacity) :=
  fun _ _ hholds => absurd hholds FragmentCache.not_holds_ofCapacity

/-- The results in a cache stay sound from document to document. -/
theorem checkAll_sound {ds : List Document} (hkeys : KeysTell c docs)
    (hds : ∀ d ∈ ds, d ∈ docs ∧ Apart d) (hsound : Sound c docs cache)
    {found : List CheckedDocument} {cache? : Option FragmentCache}
    (h : c.checkAll ds (some cache) = .ok (found, cache?)) :
    ∃ cache', cache? = some cache' ∧ Sound c docs cache' := by
  induction ds generalizing cache found cache? with
  | nil =>
    cases h
    exact ⟨cache, rfl, hsound⟩
  | cons d ds ih =>
    obtain ⟨⟨checked, cache₁?⟩, hcheck, h⟩ := Except.bind_eq_ok_iff.mp h
    obtain ⟨⟨rest, cache₂?⟩, hrest, h⟩ := Except.bind_eq_ok_iff.mp h
    cases h
    obtain ⟨hd, hapart⟩ := hds d List.mem_cons_self
    obtain ⟨cache₁, rfl, hsound₁⟩ := (check_alike hkeys hd hapart hsound).2 checked cache₁? hcheck
    exact ih (fun d' hd' => hds d' (List.mem_cons_of_mem d hd')) hsound₁ hrest

/-- With a cache whose results are sound the documents are checked. -/
theorem checkAll_completes {ds : List Document} (hkeys : KeysTell c docs)
    (hds : ∀ d ∈ ds, d ∈ docs ∧ Apart d ∧ ∃ found, c.check d none = .ok (found, none))
    (hsound : Sound c docs cache) :
    ∃ found cache', c.checkAll ds (some cache) = .ok (found, some cache') := by
  induction ds generalizing cache with
  | nil => exact ⟨[], cache, rfl⟩
  | cons d ds ih =>
    obtain ⟨⟨hd, hapart, checked, hcheck⟩, hds⟩ := List.forall_mem_cons.mp hds
    obtain ⟨halike, hkept⟩ := check_alike hkeys hd hapart hsound
    cases hrun : c.check d (some cache) with
    | error fault =>
      rw [hrun, hcheck] at halike
      cases halike
    | ok result =>
      obtain ⟨cache', hcache, hsound'⟩ := hkept result.1 result.2 hrun
      obtain ⟨rest, cache'', hrest⟩ := ih hds hsound'
      rw [← hcache] at hrest
      exact ⟨_, cache'', Except.bind_eq_ok_iff.mpr ⟨_, hrun,
        Except.bind_eq_ok_iff.mpr ⟨_, hrest, rfl⟩⟩⟩

/-! ### Documents in which keys tell -/

/-- Fragments share no nodes if the lists of nodes at and below them do not. -/
theorem apart_of_subtrees {subtrees : List (List NodeId)}
    (hsubtrees : d.fragments.mapM d.tree.subtree = .ok subtrees)
    (hdisjoint : subtrees.Pairwise List.Disjoint) : Apart d := by
  have hat {p : Nat} {x : NodeId} (h : Within d.tree d.fragments [p] x) :
      ∃ nodes, subtrees[p]? = some nodes ∧ x ∈ nodes := by
    obtain ⟨p', hp', node, nodes, hnode, hnodes, hx⟩ := h
    obtain rfl := List.mem_singleton.mp hp'
    exact ⟨nodes, (getElem?_of_mapM_ok hsubtrees).mpr ⟨node, hnode, hnodes⟩, hx⟩
  intro p q hne x hp hq
  obtain ⟨nodes, hnodes, hx⟩ := hat hp
  obtain ⟨nodes', hnodes', hx'⟩ := hat hq
  have hall := List.pairwise_iff_getElem.mp hdisjoint
  obtain ⟨hplt, rfl⟩ := List.getElem?_eq_some_iff.mp hnodes
  obtain ⟨hqlt, rfl⟩ := List.getElem?_eq_some_iff.mp hnodes'
  rcases Nat.lt_or_gt_of_ne hne with h | h
  · exact hall p q hplt hqlt h hx hx'
  · exact hall q p hqlt hplt h hx' hx

/-- A fragment of a document is checked in one environment only. -/
theorem CheckedIn.unique {p : Nat} {node node' : NodeId} {env env' : TypeEnv}
    (h : CheckedIn c d p node env) (h' : CheckedIn c d p node' env') : node' = node ∧ env' = env := by
  obtain ⟨earlier, g, later, m, hgroups, -, hp, hnode, hafter⟩ := h
  obtain ⟨earlier', g', later', m', hgroups', -, hp', hnode', hafter'⟩ := h'
  have hsplit : earlier ++ g :: later = earlier' ++ g' :: later' := by
    rw [hgroups] at hgroups'
    exact Except.ok.inj hgroups'
  have hnodup := (ordered_of_fragmentGroups hgroups).perm.nodup_iff.mpr List.nodup_range
  -- The groups before the one that has the fragment as a member are the same.
  have hearlier : earlier = earlier' := by
    rcases List.append_eq_append_iff.mp hsplit with ⟨between, rfl, hrest⟩ | ⟨between, rfl, hrest⟩
    · cases between with
      | nil => rw [List.append_nil]
      | cons g'' between =>
        obtain rfl : g = g'' := (List.cons.inj hrest).1
        rw [hsplit, List.flatMap_append, List.flatMap_cons] at hnodup
        exact absurd rfl ((List.nodup_append.mp hnodup).2.2 p
          (List.mem_flatMap.mpr ⟨g, by simp, hp⟩) p (List.mem_append_left _ hp'))
    · cases between with
      | nil => rw [List.append_nil]
      | cons g'' between =>
        obtain rfl : g' = g'' := (List.cons.inj hrest).1
        rw [List.flatMap_append, List.flatMap_cons] at hnodup
        exact absurd rfl ((List.nodup_append.mp hnodup).2.2 p
          (List.mem_flatMap.mpr ⟨g', by simp, hp'⟩) p (List.mem_append_left _ hp))
  subst hearlier
  rw [hafter] at hafter'
  cases hafter'
  exact ⟨Option.some.inj (hnode'.symm.trans hnode), rfl⟩

theorem fragment_eq_of_key {p : Nat} {key : FragmentKey}
    (h : fragmentKey s p node env = .ok key) : key.fragment = p := by
  obtain ⟨_, _, h⟩ := Except.bind_eq_ok_iff.mp h
  obtain ⟨_, _, h⟩ := Except.bind_eq_ok_iff.mp h
  obtain ⟨_, _, h⟩ := Except.bind_eq_ok_iff.mp h
  obtain ⟨_, _, h⟩ := Except.bind_eq_ok_iff.mp h
  cases h
  rfl

/-- The fragments of one document have keys that tell, so checking a document again takes over what
    was found out before. -/
theorem keysTell_of_eq (h : ∀ d' ∈ docs, d' = d) : KeysTell c docs := by
  intro d₁ hd₁ d₂ hd₂ p p₀ node node₀ env env₀ key hchecked hchecked₀ hkey hkey₀
  obtain rfl := h d₁ hd₁
  obtain rfl := h d₂ hd₂
  obtain rfl : p₀ = p := (fragment_eq_of_key hkey₀).symm.trans (fragment_eq_of_key hkey)
  obtain ⟨rfl, rfl⟩ := hchecked.unique hchecked₀
  exact ⟨rfl, .refl _ _ _⟩

/-! ### Documents whose names are bound -/

/-- Some fragment defines each name that a fragment uses, or the host provides it. -/
def NamesBound (c : Compiler) (d : Document) : Prop :=
  ∀ p name deferred, Mentions d.tree d.fragments p name deferred →
    (c.host.env.get? name).isSome ∨ ∃ q, Defines d.tree d.fragments name q

/-- Not-a-number is the only number that is not finite in a document, in the types of the modules
    and the host's names, and in what is found out about the document without a cache. -/
structure NumbersTold (c : Compiler) (d : Document) : Prop where
  written : ∀ x n, d.tree.node x = .ok n → n.blurred = n
  host : ∀ name i, c.host.env.get? name = some i → i.blurred = i
  modules : ∀ path ty, c.modules.lookup path = some ty → ty.blurred = ty
  recorded : ∀ checked, c.check d none = .ok (checked, none) →
    ∀ x i, checked.interfaces.get? x = some i → i.blurred = i

/-- The names that a fragment uses are bound when it is checked. -/
theorem NamesBound.exists_get? {p : Nat} {name : String} {deferred : Bool} (h : NamesBound c d)
    (hchecked : CheckedIn c d p node env) (hname : Mentions d.tree d.fragments p name deferred) :
    ∃ i, env.get? name = some i := by
  obtain ⟨earlier, g, later, m, hgroups, hcyclic, hp, -, hafter⟩ := hchecked
  have hbound := (bound_of_after hgroups (fun g hg => List.mem_append_left _ hg) hafter).2
  by_cases hdefined : ∃ q ∈ earlier.flatMap Group.members, Defines d.tree d.fragments name q
  · obtain ⟨q, hq, hdefines⟩ := hdefined
    obtain ⟨last, hlast⟩ := LastDefining.exists_of_defines hq hdefines
    obtain ⟨i, -, hget⟩ := hbound.last name last hlast
    exact ⟨i, hget⟩
  · -- No fragment defines the name, since the definition that is to be read comes before its use.
    have hnone : ∀ q ∈ earlier.flatMap Group.members, ¬ Defines d.tree d.fragments name q :=
      fun q hq hdefines => hdefined ⟨q, hq, hdefines⟩
    rw [hbound.kept name hnone]
    refine Option.isSome_iff_exists.mp ((h p name deferred hname).resolve_right ?_)
    rintro ⟨q, hdefines⟩
    obtain ⟨chosen, hchosen⟩ := exists_chosen (u := p) (walked_of_fragmentGroups hgroups) hdefines
    have hmem := chosen_before (ordered_of_fragmentGroups hgroups) hcyclic hp hname hchosen
    exact hnone chosen hmem hchosen.defines

/-- Each name that is used in the fragments, if their uses can be found, is bound. -/
theorem namesBound_of_references {found : List (List Reference)}
    (hfound : d.fragments.mapM d.tree.references = .ok found)
    (h : ∀ use ∈ found.flatten, (c.host.env.get? use.name).isSome ∨
      ∃ q, Defines d.tree d.fragments use.name q) : NamesBound c d := by
  rintro p name deferred ⟨node, hnode, hfree⟩
  obtain ⟨references, hp, hreferences⟩ : ∃ references, found[p]? = some references ∧
      d.tree.references node = .ok references := by
    obtain ⟨references, hreferences⟩ :=
      exists_mapM_eq_ok_iff.mp ⟨found, hfound⟩ node (List.mem_of_getElem? hnode)
    exact ⟨references, (getElem?_of_mapM_ok hfound).mpr ⟨node, hnode, hreferences⟩, hreferences⟩
  obtain ⟨use, huse, rfl, -⟩ := (Tree.exists_deferred_iff hreferences).mpr hfree
  exact h use (List.mem_flatten.mpr ⟨references, List.mem_of_getElem? hp, huse⟩)

/-! #### Numbers that are not finite -/

theorem Ty.blurred_of_mem_exports {exports : List (Export Ty)} {e : Export Ty}
    (h : Ty.blurredExports exports = exports) (he : e ∈ exports) : e.ty.blurred = e.ty := by
  induction exports with
  | nil => cases he
  | cons e' exports ih =>
    simp only [blurredExports, List.cons.injEq] at h
    rcases List.mem_cons.mp he with rfl | he
    · exact congrArg Export.ty h.1
    · exact ih h.2 he

theorem Ty.blurred_of_cell? {ty u : Ty} {mutability : Mutability}
    (hcell : cell? ty = some (mutability, u)) (h : ty.blurred = ty) : u.blurred = u := by
  unfold cell? at hcell
  split at hcell
  · simp only [Option.map_eq_some_iff, Prod.mk.injEq] at hcell
    obtain ⟨-, -, -, rfl⟩ := hcell
    simpa [blurred, blurredList] using h
  · cases hcell

/-- A name that is taken from a module stands for a type that the module has. -/
theorem specifierInterface_blurred {path : String} {module : Ty} {span : Span}
    {specifier : ImportSpecifier} (h : module.blurred = module) :
    (specifierInterface path module span specifier).blurred =
      specifierInterface path module span specifier := by
  unfold specifierInterface
  cases htyping : importTyping? module specifier.imported with
  | none => rfl
  | some typing =>
    suffices typing.ty.blurred = typing.ty by
      show Except.ok typing.blurred = Except.ok typing
      rw [Typing.blurred, this]
    cases module with
    | module exports =>
      obtain ⟨e, he, rfl⟩ := Option.map_eq_some_iff.mp htyping
      have hty : e.ty.blurred = e.ty :=
        Ty.blurred_of_mem_exports (by simpa [Ty.blurred] using h) (List.mem_of_find?_eq_some he)
      split
      case h_1 hcell => exact Ty.blurred_of_cell? hcell hty
      case h_2 => exact hty
    | _ => cases htyping

/-- What a fragment makes a name stand for has the numbers of what is recorded or imported. -/
theorem Provides.blurred_eq {p : Nat} {name : String} {i : Interface}
    (hprovides : Provides s d.fragments m p name i)
    (hmodules : ∀ path ty, s.modules.lookup path = some ty → ty.blurred = ty)
    (hrecorded : ∀ x i, m.get? x = some i → i.blurred = i) : i.blurred = i := by
  obtain ⟨node, kind, bindings, -, -, hbinds, hget⟩ := hprovides
  have hmem := (Env.mem_or_get?_of_extendAll hget).resolve_right fun h => nomatch h.2
  cases kind with
  | constBinding | letBinding =>
    obtain ⟨held, hheld, rfl⟩ := hbinds
    obtain rfl : i = held := congrArg Prod.snd (List.mem_singleton.mp hmem)
    exact hrecorded node i hheld
  | importing path specifiers =>
    obtain ⟨span, -, rfl⟩ := hbinds
    unfold importInterfaces at hmem
    cases hmodule : s.modules.lookup path with
    | none =>
      simp only [hmodule, List.mem_map, Prod.mk.injEq] at hmem
      obtain ⟨-, -, -, rfl⟩ := hmem
      rfl
    | some module =>
      simp only [hmodule, List.mem_map, Prod.mk.injEq] at hmem
      obtain ⟨-, -, -, rfl⟩ := hmem
      exact specifierInterface_blurred (hmodules path module hmodule)
  | _ =>
    obtain rfl : bindings = [] := hbinds
    cases hmem

/-- What a name stands for when a fragment is checked has no number that keys do not tell. -/
theorem NumbersTold.blurred_eq {p : Nat} {name : String} {i : Interface} (h : NumbersTold c d)
    (hchecked : CheckedIn c d p node env) (hget : env.get? name = some i) : i.blurred = i := by
  obtain ⟨earlier, g, later, m, hgroups, -, -, -, hafter⟩ := hchecked
  obtain ⟨env', m', checked, hafter', hcheck, hbound, hgrows⟩ := check_completes c hgroups
  obtain ⟨rfl, rfl⟩ : env' = env ∧ m' = m := Prod.mk.inj (Except.ok.inj (hafter'.symm.trans hafter))
  by_cases hdefined : ∃ q ∈ earlier.flatMap Group.members, Defines d.tree d.fragments name q
  · obtain ⟨q, hq, hdefines⟩ := hdefined
    obtain ⟨last, hlast⟩ := LastDefining.exists_of_defines hq hdefines
    obtain ⟨i', hprovides, hget'⟩ := hbound.last name last hlast
    obtain rfl : i = i' := Option.some.inj (hget.symm.trans hget')
    exact (hprovides.mono hgrows).blurred_eq h.modules (h.recorded checked hcheck)
  · rw [hbound.kept name fun q hq hdefines => hdefined ⟨q, hq, hdefines⟩] at hget
    exact h.host name i hget

/-- Numbers are told if they are in all nodes of the document and all interfaces. -/
theorem numbersTold_of_forall {found : CheckedDocument}
    (hwritten : ∀ n ∈ d.tree.nodes, n.blurred = n)
    (hcheck : ({} : Compiler).check d none = .ok (found, none))
    (hrecorded : ∀ i, some i ∈ found.interfaces.slots → i.blurred = i) : NumbersTold {} d where
  written x n hn := by
    unfold Tree.node at hn
    split at hn
    case h_1 n' hget =>
      cases hn
      exact hwritten _ (Array.mem_of_getElem? hget)
    case h_2 => cases hn
  host _ _ h := nomatch h
  modules _ _ h := nomatch h
  recorded checked hchecked x i hget := by
    rw [hcheck] at hchecked
    cases hchecked
    exact hrecorded i (Array.mem_of_getElem? (Option.join_eq_some_iff.mp hget))

/-- In documents whose names are bound and whose numbers are finite the keys tell, whatever the
    documents have in common. -/
theorem keysTell_of_told (hsize : ∀ d ∈ docs, d.tree.size ≤ UInt64.size)
    (hbound : ∀ d ∈ docs, NamesBound c d) (htold : ∀ d ∈ docs, NumbersTold c d) :
    KeysTell c docs := by
  intro d hd d₀ hd₀ p p₀ node node₀ env env₀ key hchecked hchecked₀ hkey hkey₀
  have htree : (c.setting d).tree.size ≤ UInt64.size := hsize d hd
  -- A key tells what free names stand for, up to numbers that are not finite.  What other names stand
  -- for is seen only where a name is not bound.
  obtain ⟨-, halike⟩ := fragmentKey_tells htree (hsize d₀ hd₀) hkey hkey₀
  obtain rfl := halike.node_eq
  obtain ⟨_, _, names, _, -, -, hnames, -⟩ := fragmentKey_eq hkey
  obtain ⟨references, hreferences, hmem⟩ := Tree.exists_references_of_freeIdentifiers hnames
  refine ⟨rfl, halike.subtree_eq.symm, fun nodes hnodes x hx => ?_, .of_bound ?_⟩
  · obtain ⟨n, n₀, hn, hn₀, heq⟩ := halike.resembles nodes hnodes x hx
    rw [(htold d hd).written x n hn, (htold d₀ hd₀).written x n₀ hn₀] at heq
    exact (hn₀.trans (congrArg Except.ok heq.symm)).trans hn.symm
  · rintro name ⟨references', hreferences', use, huse, rfl⟩
    obtain rfl : references = references' := Except.ok.inj (hreferences.symm.trans hreferences')
    have hmentions : Mentions d.tree d.fragments p use.name use.deferred := by
      obtain ⟨-, -, -, -, -, -, -, hnode, -⟩ := hchecked
      exact ⟨node, hnode, (Tree.exists_deferred_iff hreferences).mp ⟨use, huse, rfl, rfl⟩⟩
    obtain ⟨i, hi⟩ := (hbound d hd).exists_get? hchecked hmentions
    have hinterfaces := halike.interfaces names hnames use.name ((hmem use.name).mpr ⟨use, huse, rfl⟩)
    rw [hi] at hinterfaces
    obtain ⟨i₀, hi₀, heq⟩ := Option.map_eq_some_iff.mp hinterfaces.symm
    rw [(htold d hd).blurred_eq hchecked hi, (htold d₀ hd₀).blurred_eq hchecked₀ hi₀] at heq
    exact ⟨i, hi, heq ▸ hi₀⟩

/-! ### Two documents with a fragment more -/

/-- `const count = true` and `const x = count`. -/
def counted : Document where
  tree := ⟨#[⟨⟨0, 4⟩, .literal (.boolean true)⟩, ⟨⟨0, 4⟩, .constBinding "count" none 0 false⟩,
    ⟨⟨5, 7⟩, .identifier "count"⟩, ⟨⟨5, 7⟩, .constBinding "x" none 2 false⟩]⟩
  fragments := [1, 3]

/-- The same and `const y = x`. -/
def recounted : Document where
  tree := ⟨#[⟨⟨0, 4⟩, .literal (.boolean true)⟩, ⟨⟨0, 4⟩, .constBinding "count" none 0 false⟩,
    ⟨⟨5, 7⟩, .identifier "count"⟩, ⟨⟨5, 7⟩, .constBinding "x" none 2 false⟩,
    ⟨⟨8, 9⟩, .identifier "x"⟩, ⟨⟨8, 9⟩, .constBinding "y" none 4 false⟩]⟩
  fragments := [1, 3, 5]

theorem keysTell_counted : KeysTell {} [recounted, counted] := by
  have hcount : Defines recounted.tree recounted.fragments "count" 0 :=
    ⟨1, .constBinding "count" none 0 false, rfl, rfl, List.mem_cons_self⟩
  have hx : Defines recounted.tree recounted.fragments "x" 1 :=
    ⟨3, .constBinding "x" none 2 false, rfl, rfl, List.mem_cons_self⟩
  have hcount' : Defines counted.tree counted.fragments "count" 0 :=
    ⟨1, .constBinding "count" none 0 false, rfl, rfl, List.mem_cons_self⟩
  have hpair {P : Document → Prop} (h : P recounted) (h' : P counted) :
      ∀ d ∈ [recounted, counted], P d :=
    List.forall_mem_cons.mpr ⟨h, List.forall_mem_singleton.mpr h'⟩
  refine keysTell_of_told (hpair (by decide) (by decide)) (hpair ?_ ?_) (hpair ?_ ?_)
  · have hreferences : recounted.fragments.mapM recounted.tree.references =
        .ok [[], [⟨"count", 2, false⟩], [⟨"x", 4, false⟩]] := rfl
    refine namesBound_of_references hreferences ?_
    simpa using ⟨.inr ⟨0, hcount⟩, .inr ⟨1, hx⟩⟩
  · have hreferences : counted.fragments.mapM counted.tree.references =
        .ok [[], [⟨"count", 2, false⟩]] := rfl
    refine namesBound_of_references hreferences ?_
    simpa using .inr ⟨0, hcount'⟩
  · refine numbersTold_of_forall ?_ (show _ = Except.ok (_, _) by cbv) ?_
    · simp [recounted, Node.blurred, NodeKind.blurred, Literal.blurred]
    · rintro i hi
      obtain rfl : i = .ok ⟨.singleton .boolean (.boolean true), false, none⟩ := by simpa using hi
      rfl
  · refine numbersTold_of_forall ?_ (show _ = Except.ok (_, _) by cbv) ?_
    · simp [counted, Node.blurred, NodeKind.blurred, Literal.blurred]
    · rintro i hi
      obtain rfl : i = .ok ⟨.singleton .boolean (.boolean true), false, none⟩ := by simpa using hi
      rfl

/-! ### Two documents with a misspelt name -/

/-- `const count = true` and `const x = cout`. -/
def misspeltCount : Document where
  tree := ⟨#[⟨⟨0, 4⟩, .literal (.boolean true)⟩, ⟨⟨0, 4⟩, .constBinding "count" none 0 false⟩,
    ⟨⟨4, 5⟩, .identifier "cout"⟩, ⟨⟨6, 7⟩, .constBinding "x" none 2 false⟩]⟩
  fragments := [1, 3]

/-- `const total = true` and, with the same nodes as before, `const x = cout`. -/
def misspeltTotal : Document where
  tree := ⟨#[⟨⟨0, 0⟩, .undefined⟩, ⟨⟨0, 0⟩, .undefined⟩, ⟨⟨4, 5⟩, .identifier "cout"⟩,
    ⟨⟨6, 7⟩, .constBinding "x" none 2 false⟩, ⟨⟨0, 4⟩, .literal (.boolean true)⟩,
    ⟨⟨0, 4⟩, .constBinding "total" none 4 false⟩]⟩
  fragments := [5, 3]

/-- The groups of both documents. -/
def misspeltGroups : List Group := [⟨[0], false, false, []⟩, ⟨[1], false, false, []⟩]

/-- The interface of the first binding. -/
def trueInterface : Interface := .ok (.fixed (.literal (.boolean true)))

/-- The failure of the second binding. -/
def coutFailure (hints : List String) : Interface :=
  .error { kind := .unboundIdentifier "cout", span := some ⟨4, 5⟩, hints }

/-- What is found out about `const x = cout`. -/
def coutResult (hints : List String) : FragmentResult where
  interfaces := [(3, coutFailure hints), (2, coutFailure hints)]
  bindings := [("x", coutFailure hints)]

/-- A key that is computed to begin with some bytes is given by these and the others. -/
theorem fragmentKey_begins {s : Setting} {p : Nat} {node : NodeId} {env : TypeEnv}
    (bytes : List UInt8) (h : (fragmentKey s p node env).toOption.any
      (fun key => key.fragment == p && bytes.isPrefixOf key.content) = true) :
    ∃ rest, fragmentKey s p node env = .ok ⟨p, bytes ++ rest⟩ := by
  obtain ⟨⟨position, content⟩, hkey, hbegins⟩ := Except.exists_ok_of_any h
  rw [Bool.and_eq_true, beq_iff_eq, List.isPrefixOf_iff_prefix] at hbegins
  obtain ⟨rfl, rest, rfl⟩ := hbegins
  exact ⟨rest, hkey⟩

/-- The bytes of the keys do not depend on the first binding. -/
theorem fragmentKey_cout :
    fragmentKey (({} : Compiler).setting misspeltCount) 1 3 ⟨[("count", trueInterface)]⟩ =
      fragmentKey (({} : Compiler).setting misspeltTotal) 1 3 ⟨[("total", trueInterface)]⟩ := (rfl)

/-- The environment of the second fragment. -/
def firstBound (name : String) : TypeEnv := ⟨[(name, trueInterface)]⟩

/-- A hint with a name that was perhaps meant. -/
def countHint : String := "Did you mean 'count'?"

/-- What is found out about `const count = true`. -/
def countResult : FragmentResult where
  interfaces := [(1, trueInterface), (0, trueInterface)]
  bindings := [("count", trueInterface)]

/-- The cache after some fragments of the first document. -/
def misspeltCache (entries : List (FragmentKey × FragmentResult)) : FragmentCache where
  results := entries
  recency := { capacity := 8, entries := entries.map fun e => (e.1, ()) }
  counts := { misses := entries.length }

/-- Both fragments of the first document are kept. -/
theorem checkAll_misspeltCount {content content' : List UInt8}
    (hfirst : fragmentKey (({} : Compiler).setting misspeltCount) 0 1 .empty = .ok ⟨0, content⟩)
    (hsecond : fragmentKey (({} : Compiler).setting misspeltCount) 1 3 (firstBound "count") =
      .ok ⟨1, content'⟩) :
    ∃ found, ({} : Compiler).checkAll [misspeltCount] (some (.ofCapacity 8)) =
      .ok (found, some (misspeltCache
        [(⟨1, content'⟩, coutResult [countHint]), (⟨0, content⟩, countResult)])) := by
  let s := ({} : Compiler).setting misspeltCount
  let m : InterfaceMap := ⟨#[some trueInterface, some trueInterface, none, none]⟩
  let m' : InterfaceMap := ⟨#[some trueInterface, some trueInterface,
    some (coutFailure [countHint]), some (coutFailure [countHint])]⟩
  let next : TypeEnv := ⟨[("x", coutFailure [countHint]), ("count", trueInterface)]⟩
  have hcount : statement s 1 .empty (.ofSize 4) = .ok (firstBound "count", m) := rfl
  have hcout : statement s 3 (firstBound "count") m = .ok (next, m') := by cbv
  have hfind : (FragmentCache.ofCapacity 8).find ⟨0, content⟩ =
      (none, { recency := .ofCapacity 8, counts := { misses := 1 } }) := rfl
  have hfind' : (misspeltCache [(⟨0, content⟩, countResult)]).find ⟨1, content'⟩ =
      (none, { misspeltCache [(⟨0, content⟩, countResult)] with counts := { misses := 2 } }) := rfl
  have hmiss : Compiler.checkFragment s 0 1 .empty (some (.ofCapacity 8)) (.ofSize 4) =
      .ok ((firstBound "count", some (misspeltCache [(⟨0, content⟩, countResult)])), m) :=
    checkFragment_miss hfirst hfind hcount rfl
  have hmiss' : Compiler.checkFragment s 1 3 (firstBound "count")
      (some (misspeltCache [(⟨0, content⟩, countResult)])) m =
      .ok ((next, some (misspeltCache
        [(⟨1, content'⟩, coutResult [countHint]), (⟨0, content⟩, countResult)])), m') :=
    checkFragment_miss hsecond hfind' hcout rfl
  have hrun : misspeltGroups.foldlM (Compiler.checkGroup s misspeltCount) .empty
      (some (.ofCapacity 8)) (.ofSize 4) = .ok ((next, some (misspeltCache
        [(⟨1, content'⟩, coutResult [countHint]), (⟨0, content⟩, countResult)])), m') :=
    (Compiler.bind_run (checkGroup_single rfl rfl hmiss)).trans
      ((Compiler.bind_run (checkGroup_single rfl rfl hmiss')).trans rfl)
  have hcheck := check_eq_of_run (c := {}) (d := misspeltCount) rfl hrun
  exact ⟨_, Except.bind_eq_ok_iff.mpr ⟨_, hcheck, rfl⟩⟩

/-! ### Any documents -/

/-- A cache changes nothing in what is found out about a document, whatever documents have been
    checked with it before, as long as the keys of their fragments tell what the checks depend on
    and no fragments share nodes. -/
theorem check_cached (c : Compiler) (ds : List Document) (d : Document) (capacity : Nat)
    (hkeys : KeysTell c (d :: ds)) (hapart : ∀ d' ∈ d :: ds, Apart d')
    {found : List CheckedDocument} {cache : FragmentCache}
    (h : c.checkAll ds (some (.ofCapacity capacity)) = .ok (found, some cache)) :
    (c.check d (some cache)).map Prod.fst = (c.check d none).map Prod.fst := by
  obtain ⟨cache', hcache, hsound⟩ := checkAll_sound hkeys
    (fun d' hd' => ⟨List.mem_cons_of_mem d hd', hapart d' (List.mem_cons_of_mem d hd')⟩)
    (sound_ofCapacity c (d :: ds) capacity) h
  obtain rfl : cache = cache' := Option.some.inj hcache
  exact (check_alike hkeys List.mem_cons_self (hapart d List.mem_cons_self) hsound).1

/-- A document is checked a second time, with the results of the first time, and another one with
    those of the fragments that it has in common with a third. -/
theorem check_cached_misspeltCount :
    (∃ found cache,
      ({} : Compiler).checkAll [misspeltCount] (some (.ofCapacity 8)) = .ok (found, some cache) ∧
        (({} : Compiler).check misspeltCount (some cache)).map Prod.fst =
          (({} : Compiler).check misspeltCount none).map Prod.fst) ∧
      ∃ found cache,
        ({} : Compiler).checkAll [counted] (some (.ofCapacity 8)) = .ok (found, some cache) ∧
          (({} : Compiler).check recounted (some cache)).map Prod.fst =
            (({} : Compiler).check recounted none).map Prod.fst := by
  refine ⟨?_, ?_⟩
  · obtain ⟨content, hfirst⟩ : ∃ content, fragmentKey (({} : Compiler).setting misspeltCount) 0 1
        .empty = .ok ⟨0, content⟩ := fragmentKey_begins [] (by decide +kernel)
    obtain ⟨content', hsecond⟩ : ∃ content, fragmentKey (({} : Compiler).setting misspeltCount) 1 3
        (firstBound "count") = .ok ⟨1, content⟩ := fragmentKey_begins [] (by decide +kernel)
    obtain ⟨found, hall⟩ := checkAll_misspeltCount hfirst hsecond
    have hsubtrees : misspeltCount.fragments.mapM misspeltCount.tree.subtree =
        .ok [[1, 0], [3, 2]] := rfl
    have hsame : ∀ d' ∈ [misspeltCount, misspeltCount], d' = misspeltCount := by simp
    exact ⟨found, _, hall, check_cached {} [misspeltCount] misspeltCount 8 (keysTell_of_eq hsame)
      (fun d' hd' => hsame d' hd' ▸ apart_of_subtrees hsubtrees (by simp)) hall⟩
  · have hsubtrees : counted.fragments.mapM counted.tree.subtree = .ok [[1, 0], [3, 2]] := rfl
    have hsubtrees' : recounted.fragments.mapM recounted.tree.subtree =
        .ok [[1, 0], [3, 2], [5, 4]] := rfl
    have hapart : Apart counted := apart_of_subtrees hsubtrees (by simp)
    have hapart' : Apart recounted := apart_of_subtrees hsubtrees' (by simp)
    have hcounted : counted ∈ [recounted, counted] ∧ Apart counted ∧
        ∃ found, ({} : Compiler).check counted none = .ok (found, none) :=
      ⟨by simp, hapart, _, show _ = Except.ok (_, none) by cbv⟩
    obtain ⟨found, cache, hall⟩ := checkAll_completes keysTell_counted
      (List.forall_mem_singleton.mpr hcounted) (sound_ofCapacity {} _ 8)
    exact ⟨found, cache, hall, check_cached {} [counted] recounted 8 keysTell_counted
      (List.forall_mem_cons.mpr ⟨hapart', List.forall_mem_singleton.mpr hapart⟩) hall⟩

/-- The interfaces after both fragments of the second document. -/
def totalInterfaces (hints : List String) : InterfaceMap :=
  ⟨#[none, none, some (coutFailure hints), some (coutFailure hints), some trueInterface,
    some trueInterface]⟩

/-- Without a cache the second document gets no hint. -/
theorem run_misspeltTotal : ∃ env, misspeltGroups.foldlM
    (Compiler.checkGroup (({} : Compiler).setting misspeltTotal) misspeltTotal) .empty none
    (.ofSize 6) = .ok ((env, none), totalInterfaces []) := by
  let s := ({} : Compiler).setting misspeltTotal
  let m : InterfaceMap := ⟨#[none, none, none, none, some trueInterface, some trueInterface]⟩
  have htotal : statement s 5 .empty (.ofSize 6) = .ok (firstBound "total", m) := rfl
  have hcout : statement s 3 (firstBound "total") m =
      .ok (⟨[("x", coutFailure []), ("total", trueInterface)]⟩, totalInterfaces []) := by cbv
  exact ⟨_, (Compiler.bind_run (checkGroup_single rfl rfl (checkFragment_none 0 htotal))).trans
    ((Compiler.bind_run (checkGroup_single rfl rfl (checkFragment_none 1 hcout))).trans rfl)⟩

/-- With the cache the second document gets the hint for the first one. -/
theorem run_misspeltTotal_cached {content content' : List UInt8} {cache cache' : FragmentCache}
    {hints : List String}
    (hfirst : fragmentKey (({} : Compiler).setting misspeltTotal) 0 5 .empty = .ok ⟨0, content⟩)
    (hsecond : fragmentKey (({} : Compiler).setting misspeltTotal) 1 3 (firstBound "total") =
      .ok ⟨1, content'⟩) (hmiss : cache.find ⟨0, content⟩ = (none, cache'))
    (hhit : ∀ result, ((cache'.insert ⟨0, content⟩ result).find ⟨1, content'⟩).1 =
      some (coutResult hints)) :
    ∃ env cache?, misspeltGroups.foldlM
      (Compiler.checkGroup (({} : Compiler).setting misspeltTotal) misspeltTotal) .empty
      (some cache) (.ofSize 6) = .ok ((env, cache?), totalInterfaces hints) := by
  let s := ({} : Compiler).setting misspeltTotal
  let m : InterfaceMap := ⟨#[none, none, none, none, some trueInterface, some trueInterface]⟩
  let next : TypeEnv := ⟨[("x", coutFailure hints), ("total", trueInterface)]⟩
  let totalResult : FragmentResult :=
    { interfaces := [(5, trueInterface), (4, trueInterface)], bindings := [("total", trueInterface)] }
  let filled := cache'.insert ⟨0, content⟩ totalResult
  have htotal : statement s 5 .empty (.ofSize 6) = .ok (firstBound "total", m) := rfl
  have hfound : filled.find ⟨1, content'⟩ =
      (some (coutResult hints), (filled.find ⟨1, content'⟩).2) :=
    Prod.ext (hhit totalResult) rfl
  have hchecked : Compiler.checkFragment s 0 5 .empty (some cache) (.ofSize 6) =
      .ok ((firstBound "total", some filled), m) :=
    checkFragment_miss hfirst hmiss htotal rfl
  have hreplay : Compiler.replay (coutResult hints) (firstBound "total") m =
      .ok (next, totalInterfaces hints) := by
    cbv
  have hreplayed : Compiler.checkFragment s 1 3 (firstBound "total") (some filled) m =
      .ok ((next, some (filled.find ⟨1, content'⟩).2), totalInterfaces hints) :=
    checkFragment_hit hsecond hfound hreplay
  exact ⟨next, _, (Compiler.bind_run (checkGroup_single rfl rfl hchecked)).trans
    ((Compiler.bind_run (checkGroup_single rfl rfl hreplayed)).trans rfl)⟩

/-- A cache can change what is found out: the key of a fragment does not tell which names in scope
    are spelled like one that is not. -/
theorem hint_replayed : ¬ ∀ (c : Compiler) (ds : List Document) (d : Document) (capacity : Nat)
    (found : List CheckedDocument) (cache : FragmentCache),
    c.checkAll ds (some (.ofCapacity capacity)) = .ok (found, some cache) →
    (c.check d (some cache)).map Prod.fst = (c.check d none).map Prod.fst := by
  intro h
  obtain ⟨rest, hfirst⟩ : ∃ rest, fragmentKey (({} : Compiler).setting misspeltCount) 0 1 .empty =
      .ok ⟨0, 0 :: 1 :: rest⟩ := fragmentKey_begins [0, 1] (by decide +kernel)
  obtain ⟨rest', hfirst'⟩ : ∃ rest, fragmentKey (({} : Compiler).setting misspeltTotal) 0 5 .empty =
      .ok ⟨0, 0 :: 5 :: rest⟩ := fragmentKey_begins [0, 5] (by decide +kernel)
  obtain ⟨content, hsecond'⟩ : ∃ content,
      fragmentKey (({} : Compiler).setting misspeltTotal) 1 3 (firstBound "total") =
        .ok ⟨1, content⟩ := fragmentKey_begins [] (by decide +kernel)
  obtain ⟨found, hall⟩ := checkAll_misspeltCount hfirst (fragmentKey_cout.trans hsecond')
  have hsame := h {} [misspeltCount] misspeltTotal 8 found _ hall
  let cache := misspeltCache [(⟨1, content⟩, coutResult [countHint]),
    (⟨0, 0 :: 1 :: rest⟩, countResult)]
  let cache' : FragmentCache := { cache with counts := { misses := 3 } }
  -- The first fragments have different keys, since the ids of their nodes differ.
  have hmiss : cache.find ⟨0, 0 :: 5 :: rest'⟩ = (none, cache') := rfl
  have hhit (result : FragmentResult) :
      ((cache'.insert ⟨0, 0 :: 5 :: rest'⟩ result).find ⟨1, content⟩).1 =
        some (coutResult [countHint]) := by
    have hne : ((⟨1, content⟩ : FragmentKey) == ⟨0, 0 :: 5 :: rest'⟩) = false := rfl
    simp [hne, FragmentCache.insert, FragmentCache.find, FragmentCache.get?, FragmentCache.evict,
      FragmentCache.without, Recent.insert, Recent.erase, cache', cache, misspeltCache, List.lookup]
  obtain ⟨env, hrun⟩ := run_misspeltTotal
  obtain ⟨envC, cache?, hrunC⟩ := run_misspeltTotal_cached hfirst' hsecond' hmiss hhit
  rw [check_eq_of_run (c := {}) (d := misspeltTotal) rfl hrun,
    check_eq_of_run (c := {}) (d := misspeltTotal) rfl hrunC] at hsame
  have hinterfaces := congrArg (fun checked => checked.toOption.map fun checked : CheckedDocument =>
    checked.interfaces.get? 3) hsame
  have hfailures : coutFailure [countHint] = coutFailure [] :=
    Option.some.inj (Option.some.inj hinterfaces)
  cases hfailures

end ReactiveDoc
