import ReactiveDoc.Proofs.Document.Binding

namespace ReactiveDoc

/-!
# Which definition a fragment reads

* `Compiler.after` — the environment in which the fragments after some groups are checked.
* `Compiler.check_eq` — a document is checked from group to group in such environments.
* `chosen_before` — the definition that a fragment's use is to read has been checked before.
* `reads_lastDefined` — the fragment reads the definition that was checked last, which is the
  chosen one unless another one was checked after that.
-/

open Check InterfaceMap

/-- The environment and the interfaces once the groups have been checked without a cache. -/
def Compiler.after (c : Compiler) (d : Document) (groups : List Group) :
    Except Fault (TypeEnv × InterfaceMap) := do
  let checking := groups.foldlM (Compiler.checkGroup (c.setting d) d) c.host.env
  let ((env, _), m) ← (checking.run none).run (.ofSize d.tree.size)
  pure (env, m)

variable {c : Compiler} {d : Document} {groups earlier later : List Group} {g : Group}

/-! ### Groups in order -/

theorem walked_of_fragmentGroups (h : fragmentGroups d.tree d.fragments = .ok groups) :
    Walked d.tree d.fragments :=
  exists_fragmentGroups_iff.mp ⟨groups, h⟩

theorem ordered_of_fragmentGroups (h : fragmentGroups d.tree d.fragments = .ok groups) :
    OrderedGroups d.tree d.fragments groups := by
  obtain ⟨kinds, us, hkinds, hus, rfl⟩ := fragmentGroups_eq_ok_iff.mp h
  exact orderedGroups_of_uses hkinds hus

/-- The check of several groups completes, and makes the bindings of their members. -/
theorem checkGroups_complete (h : fragmentGroups d.tree d.fragments = .ok groups)
    {part : List Group} (hpart : ∀ g ∈ part, g ∈ groups) (env : TypeEnv) (m : InterfaceMap) :
    ∃ env' m', ((part.foldlM (Compiler.checkGroup (c.setting d) d) env).run none).run m =
        .ok ((env', none), m') ∧
      Bound (c.setting d) d.fragments (part.flatMap Group.members) env env' m m' := by
  induction part generalizing env m with
  | nil => exact ⟨env, m, rfl, .refl env m⟩
  | cons g rest ih =>
    obtain ⟨env', m', hrun, hbound⟩ := checkGroup_completes (s := c.setting d)
      (walked_of_fragmentGroups h) rfl (ordered_of_fragmentGroups h) (hpart g List.mem_cons_self) env m
    obtain ⟨env'', m'', hrest, hbound'⟩ :=
      ih (fun other hother => hpart other (List.mem_cons_of_mem g hother)) env' m'
    refine ⟨env'', m'', ?_, hbound.append hbound'⟩
    rw [List.foldlM_cons, StateT.run_bind]
    exact (bind_run hrun).trans hrest

/-- Where the check is after some groups of a document. -/
theorem bound_of_after {part : List Group} {env : TypeEnv} {m : InterfaceMap}
    (h : fragmentGroups d.tree d.fragments = .ok groups) (hpart : ∀ g ∈ part, g ∈ groups)
    (hafter : c.after d part = .ok (env, m)) :
    ((part.foldlM (Compiler.checkGroup (c.setting d) d) c.host.env).run none).run
        (.ofSize d.tree.size) = .ok ((env, none), m) ∧
      Bound (c.setting d) d.fragments (part.flatMap Group.members) c.host.env env
        (.ofSize d.tree.size) m := by
  obtain ⟨env', m', hrun, hbound⟩ :=
    checkGroups_complete (c := c) h hpart c.host.env (.ofSize d.tree.size)
  have hafter' : c.after d part = .ok (env', m') := Except.bind_eq_ok_iff.mpr ⟨_, hrun, rfl⟩
  obtain ⟨rfl, rfl⟩ : env' = env ∧ m' = m := by
    rw [hafter] at hafter'
    cases hafter'
    exact ⟨rfl, rfl⟩
  exact ⟨hrun, hbound⟩

/-- The check of a document completes, and goes on from where it is after the first groups. -/
theorem check_completes (c : Compiler)
    (h : fragmentGroups d.tree d.fragments = .ok (earlier ++ later)) :
    ∃ env m checked, c.after d earlier = .ok (env, m) ∧ c.check d none = .ok (checked, none) ∧
      Bound (c.setting d) d.fragments (earlier.flatMap Group.members) c.host.env env
        (.ofSize d.tree.size) m ∧
      Extends (Within d.tree d.fragments (later.flatMap Group.members)) m checked.interfaces := by
  obtain ⟨env, m, hrun, hbound⟩ := checkGroups_complete (c := c) h
    (fun g hg => List.mem_append_left later hg) c.host.env (.ofSize d.tree.size)
  obtain ⟨env', m', hrun', hbound'⟩ := checkGroups_complete (c := c) h
    (fun g hg => List.mem_append_right earlier hg) env m
  obtain ⟨exports, hexports⟩ : ∃ exports, Compiler.exportType d m' = .ok exports := by
    have hfields : ∀ node ∈ d.fragments, ∃ field, (do
        let kind ← d.tree.kind node
        pure ((m'.get? node).bind (Compiler.exportOf? kind)) : Except Fault _) = .ok field := by
      intro node hnode
      obtain ⟨references, hreferences⟩ := walked_of_fragmentGroups h node hnode
      obtain ⟨kind, hkind⟩ := kind_eq_ok_of_references hreferences
      exact ⟨_, Except.bind_eq_ok_iff.mpr ⟨kind, hkind, rfl⟩⟩
    obtain ⟨fields, hfields⟩ := exists_mapM_eq_ok_iff.mpr hfields
    exact ⟨_, Except.bind_eq_ok_iff.mpr ⟨fields, hfields, rfl⟩⟩
  set found := Compiler.diagnostics c.config m'
  refine ⟨env, m, ⟨m', exports, found.errors, found.dropped, earlier ++ later⟩, ?_, ?_, hbound,
    hbound'.grows⟩
  · exact Except.bind_eq_ok_iff.mpr ⟨_, hrun, rfl⟩
  · refine Except.bind_eq_ok_iff.mpr ⟨_, h, Except.bind_eq_ok_iff.mpr ⟨((env', none), m'), ?_, ?_⟩⟩
    · rw [List.foldlM_append, StateT.run_bind]
      exact (bind_run hrun).trans hrun'
    · exact Except.bind_eq_ok_iff.mpr ⟨exports, hexports, rfl⟩

/-! ### The definition that is read -/

section

variable {t : Tree} {fragments : List NodeId} {u : Nat} {name : String} {deferred : Bool}

/-- The definition that `resolveDefinition?` answers is the chosen one. -/
theorem chosen_of_resolved {kinds : List NodeKind} {chosen : Nat}
    (hkinds : fragmentKinds t fragments = .ok kinds)
    (h : resolveDefinition? (definitionsOf kinds name) u = some chosen) :
    Chosen (Defines t fragments name) u chosen :=
  ((resolveDefinition?_eq_some_iff (definitionsOf_pairwise kinds name)).mp h).congr fun _ =>
    mem_definitionsOf_fragmentKinds hkinds

/-- A use of a name that some fragment defines has a chosen definition. -/
theorem exists_chosen {p : Nat} (hwalked : Walked t fragments)
    (hdefines : Defines t fragments name p) : ∃ chosen, Chosen (Defines t fragments name) u chosen := by
  obtain ⟨kinds, hkinds⟩ : ∃ kinds, fragmentKinds t fragments = .ok kinds :=
    exists_mapM_eq_ok_iff.mpr fun node hnode =>
      kind_eq_ok_of_references (hwalked node hnode).choose_spec
  have hmem : p ∈ definitionsOf kinds name := (mem_definitionsOf_fragmentKinds hkinds).mpr hdefines
  obtain ⟨chosen, hchosen⟩ : ∃ chosen, resolveDefinition? (definitionsOf kinds name) u = some chosen :=
    Option.isSome_iff_exists.mp (isSome_resolveDefinition? hmem)
  exact ⟨chosen, chosen_of_resolved hkinds hchosen⟩

/-- The definition that a use in a group without a circle is to read is in an earlier group. -/
theorem chosen_before {chosen : Nat}
    (hordered : OrderedGroups t fragments (earlier ++ g :: later)) (hcyclic : g.cyclic = false)
    (hu : u ∈ g.members) (hname : Mentions t fragments u name deferred)
    (hchosen : Chosen (Defines t fragments name) u chosen) :
    chosen ∈ earlier.flatMap Group.members := by
  have huses : Uses t fragments chosen u := ⟨deferred, name, hname, hchosen⟩
  have hg : g ∈ earlier ++ g :: later := List.mem_append_right earlier List.mem_cons_self
  have hlt : chosen < fragments.length := huses.choose_spec.lt_length.1
  obtain ⟨g', hg', hmem⟩ := List.mem_flatMap.mp (hordered.perm.mem_iff.mpr (List.mem_range.mpr hlt))
  have hplain : ¬ (1 < g.members.length ∨ ∃ a ∈ g.members, Uses t fragments a a) :=
    fun h => Bool.false_ne_true (hcyclic.symm.trans ((hordered.cyclic_iff g hg).mpr h))
  rcases List.mem_append.mp hg' with hearlier | hrest
  · exact List.mem_flatMap.mpr ⟨g', hearlier, hmem⟩
  · rcases List.mem_cons.mp hrest with rfl | hlater
    · -- The group has one member, which does not use itself.
      by_cases hself : chosen = u
      · exact absurd (.inr ⟨u, hu, hself ▸ huses⟩) hplain
      · refine absurd (.inl ?_) hplain
        cases hmembers : g'.members with
        | nil => rw [hmembers] at hu; cases hu
        | cons a rest =>
          cases rest with
          | nil =>
            rw [hmembers] at hu hmem
            exact absurd ((List.mem_singleton.mp hmem).trans (List.mem_singleton.mp hu).symm) hself
          | cons b rest =>
            rw [List.length_cons, List.length_cons]
            omega
    · -- No group uses a later one.
      have hpairs := (List.pairwise_append.mp hordered.ordered).2.1
      exact absurd huses ((List.pairwise_cons.mp hpairs).1 g' hlater u hu chosen hmem)

end

/-- When a fragment in a group without a circle is checked, a name that some fragment defines stands
    for what the definition provides that was checked last.  The chosen definition has been checked
    before; it is the one that is read unless another one was checked after it. -/
theorem reads_lastDefined (c : Compiler) (d : Document) {earlier later : List Group} {g : Group}
    (hgroups : fragmentGroups d.tree d.fragments = .ok (earlier ++ g :: later))
    (hcyclic : g.cyclic = false) {u : Nat} (hu : u ∈ g.members) {name : String} {deferred : Bool}
    (hname : Mentions d.tree d.fragments u name deferred) {p : Nat}
    (hdefined : Defines d.tree d.fragments name p) :
    ∃ env m checked last interface chosen front back,
      c.after d earlier = .ok (env, m) ∧ c.check d none = .ok (checked, none) ∧
      env.get? name = some interface ∧
      Provides (c.setting d) d.fragments checked.interfaces last name interface ∧
      Chosen (Defines d.tree d.fragments name) u chosen ∧
      earlier.flatMap Group.members = front ++ chosen :: back ∧
      (last = chosen ∧ (∀ q ∈ back, ¬ Defines d.tree d.fragments name q) ∨
        LastDefining d.tree d.fragments name back last) := by
  have hordered := ordered_of_fragmentGroups hgroups
  obtain ⟨env, m, checked, hafter, hcheck, hbound, hgrows⟩ := check_completes c hgroups
  obtain ⟨chosen, hchosen⟩ := exists_chosen (u := u) (walked_of_fragmentGroups hgroups) hdefined
  have hmem := chosen_before hordered hcyclic hu hname hchosen
  -- Of what is checked after the chosen definition, the last one of the name hides it.
  obtain ⟨front, back, hsplit⟩ := List.append_of_mem hmem
  obtain ⟨last, hlast⟩ := LastDefining.exists_of_defines hmem hchosen.defines
  obtain ⟨interface, hprovides, hget⟩ := hbound.last name last hlast
  refine ⟨env, m, checked, last, interface, chosen, front, back, hafter, hcheck, hget,
    hprovides.mono hgrows, hchosen, hsplit, ?_⟩
  rw [hsplit] at hlast
  exact hlast.eq_or_last hchosen.defines

/-! ### A definition that is overtaken -/

/-- `const n = 1`, `const u = n + z`, `const n = "s"` and `const z = 1`: `u` waits for `z`, and the
    second `n` is checked in the meantime. -/
def overtaking : Document where
  tree := ⟨#[⟨⟨0, 1⟩, .literal (.number 1)⟩, ⟨⟨2, 3⟩, .constBinding "n" none 0 false⟩,
    ⟨⟨4, 5⟩, .identifier "n"⟩, ⟨⟨6, 7⟩, .identifier "z"⟩, ⟨⟨8, 9⟩, .binary .add 2 3⟩,
    ⟨⟨10, 11⟩, .constBinding "u" none 4 false⟩, ⟨⟨12, 13⟩, .literal (.string "s")⟩,
    ⟨⟨14, 15⟩, .constBinding "n" none 6 false⟩, ⟨⟨16, 17⟩, .literal (.number 1)⟩,
    ⟨⟨18, 19⟩, .constBinding "z" none 8 false⟩]⟩
  fragments := [1, 5, 7, 9]

/-- The groups that are checked before `u`. -/
def overtakingEarlier : List Group :=
  [⟨[0], false, false, []⟩, ⟨[2], false, false, []⟩, ⟨[3], false, false, []⟩]

theorem fragmentGroups_overtaking : fragmentGroups overtaking.tree overtaking.fragments =
    .ok (overtakingEarlier ++ ⟨[1], false, false, []⟩ :: []) := rfl

theorem mentions_overtaking : Mentions overtaking.tree overtaking.fragments 1 "n" false :=
  have hsum : Tree.Immediate overtaking.tree 5 4 := .child .root rfl nofun List.mem_cons_self
  ⟨5, rfl, 2, .child hsum rfl nofun List.mem_cons_self, rfl⟩

/-- The use of `n` is to read the first definition, but the second one is there. -/
theorem chosen_overtaking : Chosen (Defines overtaking.tree overtaking.fragments "n") 1 0 :=
  have hkinds : fragmentKinds overtaking.tree overtaking.fragments =
      .ok [.constBinding "n" none 0 false, .constBinding "u" none 4 false,
        .constBinding "n" none 6 false, .constBinding "z" none 8 false] := rfl
  chosen_of_resolved hkinds rfl

/-- Here `u` reads the second `n`, which is not the chosen one. -/
theorem reads_overtaking :
    fragmentGroups overtaking.tree overtaking.fragments =
        .ok (overtakingEarlier ++ ⟨[1], false, false, []⟩ :: []) ∧
      Mentions overtaking.tree overtaking.fragments 1 "n" false ∧
      Defines overtaking.tree overtaking.fragments "n" 0 ∧
      ∃ env m checked last interface chosen front back,
        ({} : Compiler).after overtaking overtakingEarlier = .ok (env, m) ∧
        ({} : Compiler).check overtaking none = .ok (checked, none) ∧
        env.get? "n" = some interface ∧
        Provides (({} : Compiler).setting overtaking) overtaking.fragments checked.interfaces last "n"
          interface ∧
        Chosen (Defines overtaking.tree overtaking.fragments "n") 1 chosen ∧
        overtakingEarlier.flatMap Group.members = front ++ chosen :: back ∧
        (last = chosen ∧ (∀ q ∈ back, ¬ Defines overtaking.tree overtaking.fragments "n" q) ∨
          LastDefining overtaking.tree overtaking.fragments "n" back last) :=
  ⟨fragmentGroups_overtaking, mentions_overtaking, chosen_overtaking.defines,
    reads_lastDefined {} overtaking fragmentGroups_overtaking rfl List.mem_cons_self
      mentions_overtaking chosen_overtaking.defines⟩

/-- Not every fragment reads the definition that is chosen for it. -/
theorem chosen_overtaken : ¬ ∀ (c : Compiler) (d : Document) (earlier later : List Group)
    (g : Group) (u chosen : Nat) (name : String) (deferred : Bool) (env : TypeEnv)
    (m : InterfaceMap) (interface : Interface),
    fragmentGroups d.tree d.fragments = .ok (earlier ++ g :: later) → g.cyclic = false →
    u ∈ g.members → Mentions d.tree d.fragments u name deferred →
    Chosen (Defines d.tree d.fragments name) u chosen → c.after d earlier = .ok (env, m) →
    Provides (c.setting d) d.fragments m chosen name interface → env.get? name = some interface := by
  intro h
  have hread := h {} overtaking overtakingEarlier [] ⟨[1], false, false, []⟩ 1 0 "n" false _ _ _
    fragmentGroups_overtaking rfl List.mem_cons_self mentions_overtaking chosen_overtaking rfl
    ⟨1, _, _, rfl, rfl, ⟨.ok (.fixed (.literal (.number 1))), rfl, rfl⟩, rfl⟩
  cases hread

end ReactiveDoc
