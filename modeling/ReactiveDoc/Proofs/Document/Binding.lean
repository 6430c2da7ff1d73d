import ReactiveDoc.Document.Checking
import ReactiveDoc.Proofs.Check.Subtree
import ReactiveDoc.Proofs.Document.Grouping

namespace ReactiveDoc

/-!
# What the check of fragments brings into scope

* `Provides` — what a fragment makes a name stand for.
* `LastDefining` — the last one of several fragments that defines a name.
* `Bound` — after a check of fragments, one after the other, a name stands for what the last one
  that defines it provides.
* `groups_bound` — so it is after a check of groups, whatever their kind.
-/

open Check InterfaceMap

/-- The fragment at a position makes a name stand for an interface. -/
def Provides (s : Setting) (fragments : List NodeId) (m : InterfaceMap) (position : Nat)
    (name : String) (interface : Interface) : Prop :=
  ∃ node kind bindings, fragments[position]? = some node ∧ s.tree.kind node = .ok kind ∧
    Binds s m node bindings kind ∧ (Env.empty.extendAll bindings).get? name = some interface

/-- Of the fragments in a list, in their order, the last one that defines a name. -/
def LastDefining (t : Tree) (fragments : List NodeId) (name : String) (positions : List Nat)
    (last : Nat) : Prop :=
  ∃ front back, positions = front ++ last :: back ∧ Defines t fragments name last ∧
    ∀ p ∈ back, ¬ Defines t fragments name p

/-- The node is at or below one of the fragments. -/
def Within (t : Tree) (fragments : List NodeId) (positions : List Nat) (x : NodeId) : Prop :=
  ∃ p ∈ positions, ∃ node nodes, fragments[p]? = some node ∧ t.subtree node = .ok nodes ∧ x ∈ nodes

/-- The step from one environment and map to others is like a check of the fragments, in this
    order. -/
structure Bound (s : Setting) (fragments : List NodeId) (positions : List Nat)
    (env env' : TypeEnv) (m m' : InterfaceMap) : Prop where
  grows : Extends (Within s.tree fragments positions) m m'
  last : ∀ name p, LastDefining s.tree fragments name positions p →
    ∃ interface, Provides s fragments m' p name interface ∧ env'.get? name = some interface
  kept : ∀ name, (∀ p ∈ positions, ¬ Defines s.tree fragments name p) →
    env'.get? name = env.get? name

variable {s : Setting} {fragments : List NodeId} {m m' m'' : InterfaceMap} {name : String}
  {positions : List Nat} {env env' env'' : TypeEnv}

/-! ### Definitions in a list of fragments -/

namespace LastDefining

variable {t : Tree} {p : Nat}

theorem mem (h : LastDefining t fragments name positions p) : p ∈ positions := by
  obtain ⟨front, back, rfl, -, -⟩ := h
  exact List.mem_append_right front List.mem_cons_self

theorem defines (h : LastDefining t fragments name positions p) : Defines t fragments name p := by
  obtain ⟨-, -, -, hdefines, -⟩ := h
  exact hdefines

/-- A name that some of the fragments define has a last definition. -/
theorem exists_of_defines (hp : p ∈ positions) (hdefines : Defines t fragments name p) :
    ∃ last, LastDefining t fragments name positions last := by
  induction positions generalizing p with
  | nil => cases hp
  | cons q rest ih =>
    by_cases hrest : ∃ r ∈ rest, Defines t fragments name r
    · obtain ⟨r, hr, hr'⟩ := hrest
      obtain ⟨last, front, back, rfl, hlast⟩ := ih hr hr'
      exact ⟨last, q :: front, back, rfl, hlast⟩
    · have hnone : ∀ r ∈ rest, ¬ Defines t fragments name r := fun r hr h => hrest ⟨r, hr, h⟩
      rcases List.mem_cons.mp hp with rfl | hp
      · exact ⟨p, [], rest, rfl, hdefines, hnone⟩
      · exact absurd hdefines (hnone p hp)

/-- The last definition in two lists is in the second one, or there is none in that. -/
theorem of_append {more : List Nat} (h : LastDefining t fragments name (positions ++ more) p) :
    LastDefining t fragments name more p ∨ LastDefining t fragments name positions p ∧
      ∀ q ∈ more, ¬ Defines t fragments name q := by
  obtain ⟨front, back, heq, hdefines, hback⟩ := h
  rcases List.append_eq_append_iff.mp heq with ⟨between, rfl, rfl⟩ | ⟨between, rfl, hcons⟩
  · exact .inl ⟨between, back, rfl, hdefines, hback⟩
  · cases between with
    | nil =>
      obtain rfl : p :: back = more := hcons
      exact .inl ⟨[], back, rfl, hdefines, hback⟩
    | cons q between =>
      obtain ⟨rfl, rfl⟩ : p = q ∧ back = between ++ more := by simpa using hcons
      refine .inr ⟨⟨front, between, rfl, hdefines, fun r hr => ?_⟩, fun r hr => ?_⟩
      · exact hback r (List.mem_append_left _ hr)
      · exact hback r (List.mem_append_right _ hr)

/-- Where a definition stands, it is the last one unless another one follows. -/
theorem eq_or_last {front back : List Nat} {chosen : Nat}
    (h : LastDefining t fragments name (front ++ chosen :: back) p)
    (hchosen : Defines t fragments name chosen) :
    p = chosen ∧ (∀ q ∈ back, ¬ Defines t fragments name q) ∨
      LastDefining t fragments name back p := by
  rcases h.of_append with ⟨front', back', heq, hdefines, hback'⟩ | ⟨-, hnone⟩
  · cases front' with
    | nil =>
      obtain ⟨rfl, rfl⟩ : chosen = p ∧ back = back' := by simpa using heq
      exact .inl ⟨rfl, hback'⟩
    | cons q front' =>
      obtain ⟨rfl, rfl⟩ : chosen = q ∧ back = front' ++ p :: back' := by simpa using heq
      exact .inr ⟨front', back', rfl, hdefines, hback'⟩
  · exact absurd hchosen (hnone chosen List.mem_cons_self)

end LastDefining

namespace Within

variable {t : Tree} {more : List Nat} {x : NodeId}

theorem append_left (h : Within t fragments positions x) :
    Within t fragments (positions ++ more) x := by
  obtain ⟨p, hp, h⟩ := h
  exact ⟨p, List.mem_append_left more hp, h⟩

theorem append_right (h : Within t fragments more x) :
    Within t fragments (positions ++ more) x := by
  obtain ⟨p, hp, h⟩ := h
  exact ⟨p, List.mem_append_right positions hp, h⟩

theorem lt_size (h : Within t fragments positions x) : x < t.size := by
  obtain ⟨_, _, _, nodes, _, hnodes, hx⟩ := h
  obtain ⟨n, hn, -⟩ := (mem_subtreeWithin hnodes).2 x hx
  exact lt_size_of_node hn

/-- What is below a node within the fragments is within them. -/
theorem sharedBelow (t : Tree) (fragments : List NodeId) (positions : List Nat) :
    SharedBelow t t (Within t fragments positions) := by
  rintro x ⟨p, hp, node, nodes, hnode, hnodes, hx⟩ n hn
  obtain ⟨hn', hchildren⟩ := sharedBelow_subtree hnodes (fun _ _ => rfl) x hx n hn
  exact ⟨hn', fun child hchild => ⟨p, hp, node, nodes, hnode, hnodes, hchildren child hchild⟩⟩

end Within

theorem Provides.mono {D : NodeId → Prop} {p : Nat} {interface : Interface}
    (h : Provides s fragments m p name interface) (hm : Extends D m m') :
    Provides s fragments m' p name interface := by
  obtain ⟨node, kind, bindings, hnode, hkind, hbinds, hget⟩ := h
  refine ⟨node, kind, bindings, hnode, hkind, ?_, hget⟩
  cases kind with
  | constBinding | letBinding =>
    obtain ⟨held, hheld, hbindings⟩ := hbinds
    exact ⟨held, hm.held _ _ hheld, hbindings⟩
  | _ => exact hbinds

/-! ### Checks of several fragments -/

namespace Bound

theorem refl (env : TypeEnv) (m : InterfaceMap) : Bound s fragments [] env env m m where
  grows := .refl m
  last _ _ h := (nomatch h.mem)
  kept _ _ := rfl

theorem append {more : List Nat} (h : Bound s fragments positions env env' m m')
    (h' : Bound s fragments more env' env'' m' m'') :
    Bound s fragments (positions ++ more) env env'' m m'' where
  grows := (h.grows.mono fun _ => .append_left).trans (h'.grows.mono fun _ => .append_right)
  last name p hlast := by
    rcases hlast.of_append with hlast | ⟨hlast, hnone⟩
    · exact h'.last name p hlast
    · obtain ⟨interface, hprovides, hget⟩ := h.last name p hlast
      exact ⟨interface, hprovides.mono h'.grows, (h'.kept name hnone).trans hget⟩
  kept name hnone := by
    rw [h'.kept name fun p hp => hnone p (List.mem_append_right _ hp),
      h.kept name fun p hp => hnone p (List.mem_append_left _ hp)]

/-- Bindings that the fragments make anyway may be there before. -/
theorem of_declared {bindings : List (String × Interface)}
    (h : Bound s fragments positions (env.extendAll bindings) env' m m')
    (hbindings : ∀ name ∈ bindings.map Prod.fst, ∃ p ∈ positions,
      Defines s.tree fragments name p) : Bound s fragments positions env env' m m' where
  grows := h.grows
  last := h.last
  kept name hnone := by
    rw [h.kept name hnone, Env.get?_extendAll_of_not_mem]
    intro hmem
    obtain ⟨p, hp, hdefines⟩ := hbindings name hmem
    exact hnone p hp hdefines

/-- A fragment that makes its bindings. -/
theorem single {p : Nat} {node : NodeId} {kind : NodeKind} {bindings : List (String × Interface)}
    (hnode : fragments[p]? = some node) (hkind : s.tree.kind node = .ok kind)
    (hgrows : Extends (Within s.tree fragments [p]) m m') (hbinds : Binds s m' node bindings kind) :
    Bound s fragments [p] env (env.extendAll bindings) m m' where
  grows := hgrows
  last name q hlast := by
    obtain rfl : q = p := List.mem_singleton.mp hlast.mem
    obtain ⟨node', kind', hnode', hkind', hname⟩ := hlast.defines
    obtain rfl : node' = node := Option.some.inj (hnode'.symm.trans hnode)
    obtain rfl : kind' = kind := Except.ok.inj (hkind'.symm.trans hkind)
    rw [← hbinds.names] at hname
    obtain ⟨heq, hbound⟩ := Env.get?_extendAll_of_mem env Env.empty hname
    obtain ⟨interface, hget⟩ := Option.isSome_iff_exists.mp hbound
    exact ⟨interface, ⟨node', kind', bindings, hnode, hkind, hbinds, heq ▸ hget⟩, hget⟩
  kept name hnone := by
    refine Env.get?_extendAll_of_not_mem fun hmem => ?_
    rw [hbinds.names] at hmem
    exact hnone p List.mem_cons_self ⟨node, kind, hnode, hkind, hmem⟩

end Bound

/-- The computation completes, from any map, and is like a check of the fragments. -/
def Completes (s : Setting) (fragments : List NodeId) (positions : List Nat) (env : TypeEnv)
    (x : CheckM TypeEnv) : Prop :=
  ∀ m, ∃ env' m', x m = .ok (env', m') ∧ Bound s fragments positions env env' m m'

/-- Members with their nodes, checked one after the other. -/
theorem completes_foldlM (step : TypeEnv → Nat × NodeId → CheckM TypeEnv)
    {members : List (Nat × NodeId)}
    (hstep : ∀ member ∈ members, ∀ env, Completes s fragments [member.1] env (step env member))
    (env : TypeEnv) : Completes s fragments (members.map Prod.fst) env (members.foldlM step env) := by
  induction members generalizing env with
  | nil => exact fun m => ⟨env, m, rfl, .refl env m⟩
  | cons member rest ih =>
    intro m
    obtain ⟨env', m', hrun, hbound⟩ := hstep member List.mem_cons_self env m
    obtain ⟨env'', m'', hrest, hbound'⟩ :=
      ih (fun other hother => hstep other (List.mem_cons_of_mem member hother)) env' m'
    rw [List.foldlM_cons]
    exact ⟨env'', m'', (bind_run hrun).trans hrest, hbound.append hbound'⟩

/-! ### Fragments -/

/-- The subtree of a fragment whose uses can be found can be listed. -/
theorem exists_subtree {t : Tree} {node : NodeId} {references : List Reference}
    (h : t.references node = .ok references) : ∃ nodes, t.subtree node = .ok nodes := by
  have hcommon : Common t t (fun _ => True) t.depthLimit (fun _ => True) node :=
    common_of_references (sharedBelow_self t) trivial h (fun _ _ => trivial) fun _ _ => trivial
  exact hcommon.exists_subtreeWithin

/-- A fragment is in common with itself, its nodes within the fragments. -/
theorem common_within {t : Tree} {p : Nat} {node : NodeId} {references : List Reference}
    (hnode : fragments[p]? = some node) (hreferences : t.references node = .ok references)
    (hp : p ∈ positions) :
    Common t t (Within t fragments positions) t.depthLimit (fun _ => True) node := by
  obtain ⟨nodes, hnodes⟩ := exists_subtree hreferences
  have hroot : Within t fragments positions node :=
    ⟨p, hp, node, nodes, hnode, hnodes, (mem_subtreeWithin hnodes).1⟩
  exact common_of_references (Within.sharedBelow t fragments positions) hroot hreferences
    (fun _ _ => trivial) fun _ _ => trivial

/-- A statement whose uses can be found is checked, and makes its bindings. -/
theorem statement_completes {p : Nat} {node : NodeId} {references : List Reference}
    (hnode : fragments[p]? = some node) (hreferences : s.tree.references node = .ok references)
    (env : TypeEnv) : Completes s fragments [p] env (statement s node env) := by
  intro m
  obtain ⟨kind, hkind⟩ := kind_eq_ok_of_references hreferences
  have hcommon := common_within hnode hreferences (List.mem_singleton.mpr rfl)
  have hcomparable : Comparable s s s.tree.depthLimit := ⟨rfl, Nat.le_refl _, Nat.le_refl _⟩
  obtain ⟨env', m', -, -, hrun, -, -, hgrows, -, -⟩ :=
    statement_alike hcomparable hcommon (.refl _ env) hkind (fun _ _ _ => rfl) m m fun _ _ => rfl
  obtain ⟨bindings, hbinds, rfl⟩ := statement_binds hkind hrun
  exact ⟨_, m', hrun, .single hnode hkind hgrows hbinds⟩

/-- A binding that is rejected stands for what is recorded for it. -/
theorem rejectCyclic_completes {p : Nat} {node : NodeId} {kind : NodeKind}
    {references : List Reference} (hnode : fragments[p]? = some node)
    (hreferences : s.tree.references node = .ok references)
    (hkind : s.tree.kind node = .ok kind) (himport : ∀ path specifiers,
      kind ≠ .importing path specifiers) (chain : List String) (env : TypeEnv) :
    Completes s fragments [p] env (Compiler.rejectCyclic s chain env node) := by
  intro m
  obtain ⟨span, hspan⟩ := span_eq_ok_of_kind hkind
  obtain ⟨nodes, hnodes⟩ := exists_subtree hreferences
  let failure : Interface := .error { kind := .cyclicDefinition chain }
  have hrecord : record s node failure m = _ := record_run hspan
  have hgrows := extends_record (m := m)
    (show Within s.tree fragments [p] node from ⟨p, List.mem_singleton.mpr rfl, node, nodes, hnode,
      hnodes, (mem_subtreeWithin hnodes).1⟩) (failure.mapError fun e => e.located span)
  have hheld := held_of_record hrecord
  refine ⟨_, _, (bind_run hrecord).trans (congrFun (kindOf_bind hkind _) _),
    .single hnode hkind hgrows ?_⟩
  cases kind with
  | constBinding | letBinding => exact ⟨_, hheld, rfl⟩
  | importing path specifiers => exact absurd rfl (himport path specifiers)
  | _ => rfl

/-! ### Groups -/

/-- The uses in each fragment can be found. -/
def Walked (t : Tree) (fragments : List NodeId) : Prop :=
  ∀ node ∈ fragments, ∃ references, t.references node = .ok references

/-- The members of a group that are fragments, with their nodes. -/
def membersOf (fragments : List NodeId) (group : Group) : List (Nat × NodeId) :=
  group.members.filterMap fun p => fragments[p]?.map fun node => (p, node)

theorem mem_membersOf {group : Group} {p : Nat} {node : NodeId} :
    (p, node) ∈ membersOf fragments group ↔ p ∈ group.members ∧ fragments[p]? = some node := by
  unfold membersOf
  simp only [List.mem_filterMap, Option.map_eq_some_iff, Prod.mk.injEq]
  constructor
  · rintro ⟨p, hp, node, hnode, rfl, rfl⟩
    exact ⟨hp, hnode⟩
  · rintro ⟨hp, hnode⟩
    exact ⟨p, hp, node, hnode, rfl, rfl⟩

theorem map_membersOf {group : Group} (h : ∀ p ∈ group.members, p < fragments.length) :
    (membersOf fragments group).map Prod.fst = group.members := by
  unfold membersOf
  rw [List.map_filterMap]
  conv_rhs => rw [← List.filterMap_some (l := group.members)]
  refine List.filterMap_congr fun p hp => ?_
  rw [List.getElem?_eq_getElem (h p hp)]
  rfl

/-- Without a cache a fragment is checked. -/
theorem foldlM_checkFragment_none (members : List (Nat × NodeId)) (env : TypeEnv) :
    (members.foldlM (fun env (p, node) => Compiler.checkFragment s p node env) env).run none =
      (fun env => (env, none)) <$>
        members.foldlM (fun env (_, node) => statement s node env) env := by
  induction members generalizing env with
  | nil => rfl
  | cons member rest ih =>
    rw [List.foldlM_cons, List.foldlM_cons, StateT.run_bind, map_bind]
    show (do let env ← statement s member.2 env; pure (env, none)) >>= _ = _
    rw [bind_assoc]
    refine bind_congr fun env => ?_
    rw [pure_bind]
    exact ih env

/-- Annotated bindings that use each other are checked one after the other, all in scope. -/
theorem checkRecursive_completes {members : List (Nat × NodeId)} (hwalked : Walked s.tree fragments)
    (hmembers : ∀ member ∈ members, fragments[member.1]? = some member.2) (env : TypeEnv) :
    Completes s fragments (members.map Prod.fst) env
      (Compiler.checkRecursive s (members.map Prod.snd) env) := by
  intro m
  have hkind : ∀ node ∈ members.map Prod.snd, ∃ kind, s.tree.kind node = .ok kind := by
    intro node hnode
    obtain ⟨member, hmember, rfl⟩ := List.mem_map.mp hnode
    have hfragment := List.mem_of_getElem? (hmembers member hmember)
    exact kind_eq_ok_of_references (hwalked _ hfragment).choose_spec
  obtain ⟨kinds, hkinds⟩ := exists_mapM_eq_ok_iff.mpr hkind
  -- The declared types are collected first, which records nothing.
  have hrun : (members.map Prod.snd).mapM (kindOf s) m = .ok (kinds, m) := by
    clear hmembers hkind
    generalize members.map Prod.snd = nodes at hkinds
    have hall := mapM_eq_ok_iff.mp hkinds
    clear hkinds
    induction hall with
    | nil => rfl
    | cons hnode _ ih =>
      rw [List.mapM_cons, kindOf_bind hnode]
      exact bind_run ih
  set bindings := (kinds.filterMap Compiler.declared?).map fun declared =>
    (declared.1, (.ok declared.2 : Interface)) with hbindings
  have hsteps : ∀ member ∈ members, ∀ env,
      Completes s fragments [member.1] env (statement s member.2 env) := by
    intro member hmember env
    have hfragment := List.mem_of_getElem? (hmembers member hmember)
    exact statement_completes (hmembers member hmember)
      (hwalked _ hfragment).choose_spec env
  obtain ⟨env', m', hprogram, hbound⟩ :=
    completes_foldlM (fun env member => statement s member.2 env) hsteps
      (env.extendAll bindings) m
  refine ⟨env', m', ?_, hbound.of_declared fun name hname => ?_⟩
  · refine (bind_run hrun).trans ?_
    show (members.map Prod.snd).foldlM (fun env node => statement s node env) _ m = _
    rw [List.foldlM_map]
    exact hprogram
  · simp only [hbindings, List.map_map, List.mem_map, List.mem_filterMap, Function.comp] at hname
    obtain ⟨⟨_, typing⟩, ⟨kind, hkind, hdeclared⟩, rfl⟩ := hname
    obtain ⟨i, hi⟩ := List.getElem?_of_mem hkind
    obtain ⟨node, hnode, hkind⟩ := (getElem?_of_mapM_ok hkinds).mp hi
    obtain ⟨member, hmember, rfl⟩ := List.mem_map.mp (List.mem_of_getElem? hnode)
    refine ⟨member.1, List.mem_map_of_mem hmember, member.2, kind, hmembers member hmember, hkind, ?_⟩
    unfold Compiler.declared? at hdeclared
    split at hdeclared
    · cases hdeclared
      exact List.mem_cons_self
    · cases hdeclared
      exact List.mem_cons_self
    · cases hdeclared

/-- Imports use no names, so they are in no cyclic group. -/
theorem not_importing_of_mentions {p : Nat} {node : NodeId} {kind : NodeKind} {deferred : Bool}
    (hmentions : Mentions s.tree fragments p name deferred) (hnode : fragments[p]? = some node)
    (hkind : s.tree.kind node = .ok kind) (path : String) (specifiers : List ImportSpecifier) :
    kind ≠ .importing path specifiers := by
  rintro rfl
  obtain ⟨node', hnode', hfree⟩ := hmentions
  obtain rfl : node' = node := Option.some.inj (hnode'.symm.trans hnode)
  obtain ⟨use, hfree⟩ := hfree.free
  cases hfree with
  | here hkind' => cases Except.ok.inj (hkind.symm.trans hkind')
  | child hkind' _ hchild _ =>
    obtain rfl := Except.ok.inj (hkind.symm.trans hkind')
    cases hchild
  | body hkind' _ _ => cases Except.ok.inj (hkind.symm.trans hkind')

/-- A member of a cyclic group uses a name. -/
theorem exists_mentions_of_cyclic {groups : List Group}
    (h : OrderedGroups s.tree fragments groups) {g : Group} (hg : g ∈ groups)
    (hcyclic : g.cyclic = true) {a : Nat} (ha : a ∈ g.members) :
    ∃ name deferred, Mentions s.tree fragments a name deferred := by
  have hnodup : (groups.flatMap Group.members).Nodup := h.perm.nodup_iff.mpr List.nodup_range
  have hmember {x : Nat} (hx : x ∈ g.members) : x < fragments.length :=
    List.mem_range.mp (h.perm.mem_iff.mp (List.mem_flatMap.mpr ⟨g, hg, hx⟩))
  have hused : ∃ b, Uses s.tree fragments b a := by
    rcases (h.cyclic_iff g hg).mp hcyclic with hlength | ⟨b, hb, huses⟩
    · -- Another member leads to this one, and the last step on the way is a use in it.
      obtain ⟨b, hb, hne⟩ : ∃ b ∈ g.members, b ≠ a := by
        by_contra hall
        push Not at hall
        have hnodup : g.members.Nodup := (List.nodup_flatMap.mp hnodup).1 g hg
        have hsubset : g.members ⊆ [a] := fun x hx => List.mem_singleton.mpr (hall x hx)
        exact absurd (hnodup.length_le_of_subset hsubset) (Nat.not_le.mpr hlength)
      have hleads := ((h.together b (hmember hb) a (hmember ha) hne).mp ⟨g, hg, hb, ha⟩).1
      rcases Relation.ReflTransGen.cases_tail hleads with heq | ⟨c, -, huses⟩
      · exact absurd heq.symm hne
      · exact ⟨c, huses⟩
    · by_cases hba : b = a
      · exact ⟨b, hba ▸ huses⟩
      · have hleads := ((h.together b (hmember hb) a (hmember ha) hba).mp ⟨g, hg, hb, ha⟩).1
        rcases Relation.ReflTransGen.cases_tail hleads with heq | ⟨c, -, huses⟩
        · exact absurd heq.symm hba
        · exact ⟨c, huses⟩
  obtain ⟨b, deferred, name, hmentions, -⟩ := hused
  exact ⟨name, deferred, hmentions⟩

/-- Without a cache the check of a group completes, and makes the bindings of its members. -/
theorem checkGroup_completes {d : Document} {groups : List Group} {g : Group}
    (hwalked : Walked d.tree d.fragments) (htree : s.tree = d.tree)
    (hordered : OrderedGroups d.tree d.fragments groups) (hg : g ∈ groups) (env : TypeEnv)
    (m : InterfaceMap) :
    ∃ env' m', ((Compiler.checkGroup s d env g).run none).run m = .ok ((env', none), m') ∧
      Bound s d.fragments g.members env env' m m' := by
  rw [← htree] at hwalked hordered
  have hmembers : ∀ p ∈ g.members, p < d.fragments.length := fun p hp =>
    List.mem_range.mp (hordered.perm.mem_iff.mp (List.mem_flatMap.mpr ⟨g, hg, hp⟩))
  have hpairs : ∀ member ∈ membersOf d.fragments g, d.fragments[member.1]? = some member.2 :=
    fun member hmember => (mem_membersOf.mp hmember).2
  have hlifted {x : CheckM TypeEnv} (h : Completes s d.fragments g.members env x) :
      ∃ env' m', ((fun env => (env, (none : Option FragmentCache))) <$> x) m =
        .ok ((env', none), m') ∧ Bound s d.fragments g.members env env' m m' := by
    obtain ⟨env', m', hrun, hbound⟩ := h m
    rw [map_eq_pure_bind]
    exact ⟨env', m', bind_run hrun, hbound⟩
  have hrun : (Compiler.checkGroup s d env g).run none =
      (fun env => (env, none)) <$>
        (if !g.cyclic then
          (membersOf d.fragments g).foldlM (fun env (_, node) => statement s node env) env
        else if g.legal then
          Compiler.checkRecursive s ((membersOf d.fragments g).map Prod.snd) env
        else
          Compiler.rejectAll s g.chain ((membersOf d.fragments g).map Prod.snd) env) := by
    unfold Compiler.checkGroup
    show StateT.run (if !g.cyclic then _ else if g.legal then _ else _) none = _
    split
    · exact foldlM_checkFragment_none _ env
    · split
      · rfl
      · rfl
  rw [StateT.run, hrun]
  refine hlifted ?_
  rw [← map_membersOf hmembers]
  split
  · refine completes_foldlM (fun env member => statement s member.2 env) (fun member hmember env => ?_)
      env
    have hfragment := List.mem_of_getElem? (hpairs member hmember)
    exact statement_completes (hpairs member hmember)
      (hwalked _ hfragment).choose_spec env
  · rename_i hcyclic
    split
    · exact checkRecursive_completes hwalked hpairs env
    · unfold Compiler.rejectAll
      rw [List.foldlM_map]
      refine completes_foldlM (fun env member => Compiler.rejectCyclic s g.chain env member.2)
        (fun member hmember env => ?_) env
      have hfragment := List.mem_of_getElem? (hpairs member hmember)
      obtain ⟨kind, hkind⟩ := kind_eq_ok_of_references (hwalked _ hfragment).choose_spec
      -- The group is cyclic, so no member is an import.
      obtain ⟨name, deferred, hmentions⟩ := exists_mentions_of_cyclic hordered hg
        (by simpa using hcyclic) (mem_membersOf.mp hmember).1
      exact rejectCyclic_completes (hpairs member hmember) (hwalked _ hfragment).choose_spec hkind
        (not_importing_of_mentions hmentions (hpairs member hmember) hkind) g.chain env

end ReactiveDoc
