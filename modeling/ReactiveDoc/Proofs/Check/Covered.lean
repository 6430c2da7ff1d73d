import ReactiveDoc.Proofs.Check.Coverage
import ReactiveDoc.Proofs.Check.Subtree

namespace ReactiveDoc.Check

/-!
# All nodes are checked, each of them once

* `Covered` — what the check of a node leaves behind: an interface for each node of its subtree that
  is not below a misplaced one, and everything else as it was.
* `covered_of_run` — a computation that keeps the notes leaves that behind.
* `subtree_covered` — so do the judgements and the check of statements, and they complete.
-/

open InterfaceMap (Extends)

variable {t : Tree} {s : Setting} {root x y value node : NodeId} {kind : NodeKind}
  {m m₁ m' : InterfaceMap} {proper : NodeId → Prop} {env : TypeEnv} {interface : Interface}

/-- From `m` to `m'` the subtree of `root` has been checked.  What was recorded before is kept, and
    nothing is recorded outside of the subtree. -/
structure Covered (t : Tree) (root : NodeId) (proper : NodeId → Prop) (m m' : InterfaceMap) : Prop
    extends Extends (t.AtOrBelow root) m m' where
  /-- All nodes are recorded but those below a misplaced one. -/
  recorded_iff : ∀ x, t.AtOrBelow root x →
    ((∃! i, m'.get? x = some i) ↔ ¬ Hidden t root proper x)
  /-- A misplaced node is reported as one. -/
  reported : ∀ x i, t.AtOrBelow root x → Misplaced t root proper x → m'.get? x = some i →
    ∃ span, t.span x = .ok span ∧ i = .error { kind := .notAnExpression, span := some span }
  placed : ∀ x e, t.AtOrBelow root x → m'.get? x = some (.error e) → e.span.isSome

theorem existsUnique_get?_iff : (∃! i, m.get? x = some i) ↔ Recorded m x :=
  ⟨fun ⟨i, hi, _⟩ => ⟨i, hi⟩, fun ⟨i, hi⟩ => ⟨i, hi, fun _ hj => Option.some.inj (hj.symm.trans hi)⟩⟩

/-! ### Expressions -/

/-- Where all parts of a recorded node are recorded, all nodes are that are visited. -/
theorem recorded_of_visited {U : NodeId → String → Prop} (hnotes : Notes t root U m m)
    (hroot : Recorded m root) (h : Visited t root x) : Recorded m x := by
  have hentered {y : NodeId} (hy : Entered t root y) : Recorded m y := by
    induction hy with
    | root => exact hroot
    | child hparent hkind hexpression hchild _ ih =>
      obtain ⟨i, hi⟩ := ih
      exact (hnotes _ i hparent.atOrBelow hi).parts hparent _ hkind hexpression _ hchild
  rcases h with h | ⟨object, properties, hobject, hkind, hx⟩
  · exact hentered h
  · obtain ⟨i, hi⟩ := hentered hobject
    exact (hnotes _ i hobject.atOrBelow hi).parts hobject _ hkind rfl x hx

theorem covered_of_run (ht : t.TreeShaped) {z : CheckM Interface}
    (halike : Alike (fun x => t.AtOrBelow root x) Eq z z)
    (hkeeps : ∀ M, Keeps (Notes t root (fun _ _ => False) M) M True z
      fun i => M.get? root = some i)
    (hfresh : ∀ x, t.AtOrBelow root x → m.get? x = none) :
    ∃ i m', z m = .ok (i, m') ∧ m'.get? root = some i ∧ Covered t root noStatement m m' := by
  obtain ⟨i, m', -, -, hrun, -, -, hextends, -⟩ := halike m m fun _ _ => rfl
  obtain ⟨hnotes, hheld⟩ := ((hkeeps m') m i m' hrun).2 (.refl m') trivial fun x i hx hi => by
    rw [hfresh x hx] at hi
    cases hi
  refine ⟨i, m', hrun, hheld, hextends, fun x hx => ?_,
    fun x i hx hmisplaced hi => (hnotes x i hx hi).misplaced hmisplaced,
    fun x e hx he => (hnotes x _ hx he).placed e rfl⟩
  rw [existsUnique_get?_iff, ← visited_iff ht hx]
  exact ⟨fun ⟨i, hi⟩ => (hnotes x i hx hi).visited, recorded_of_visited hnotes ⟨i, hheld⟩⟩

/-! ### Statements -/

/-- An expression has the same misplaced nodes whether it stands on its own or not. -/
theorem misplaced_iff_of_expression (hkind : t.kind root = .ok kind)
    (hexpression : kind.isStatement = false) :
    Misplaced t root (· = root) x ↔ Misplaced t root noStatement x := by
  refine or_congr_left ⟨And.imp_left fun _ => id, fun ⟨_, hstatement⟩ => ⟨?_, hstatement⟩⟩
  rintro rfl
  obtain ⟨kind', hkind', hstatement⟩ := hstatement
  obtain rfl := Except.ok.inj (hkind.symm.trans hkind')
  exact Bool.false_ne_true (hexpression.symm.trans hstatement)

section

variable (ht : t.TreeShaped) (hkind : t.kind root = .ok kind) (hstatement : kind.isStatement = true)

include ht in
theorem not_misplaced_root : ¬ Misplaced t root (· = root) root := by
  rintro (⟨hnot, -⟩ | ⟨object, properties, hobject, hkindObject, hmem, -⟩)
  · exact hnot rfl
  · exact ht.not_atOrBelow_of_childOf ⟨_, hkindObject, hmem⟩ hobject

include ht hkind hstatement

section

variable (hvalue : kind.children = [value])

include hvalue

/-- The nodes below a statement are misplaced in what it binds, or not at all. -/
theorem misplaced_iff_of_statement (hx : t.AtOrBelow value x) :
    Misplaced t root (· = root) x ↔ Misplaced t value noStatement x := by
  have hchild : t.ChildOf root value := ⟨kind, hkind, hvalue ▸ List.mem_cons_self⟩
  refine or_congr (and_congr_left fun _ => ⟨fun _ => id, fun _ => ?_⟩) ⟨?_, ?_⟩
  · rintro rfl
    exact ht.not_atOrBelow_of_childOf hchild hx
  · rintro ⟨object, properties, hobject, hkindObject, hrest⟩
    refine ⟨object, properties, ?_, hkindObject, hrest⟩
    rcases (Tree.atOrBelow_iff hkind).mp hobject with rfl | ⟨child, hmem, habove⟩
    · obtain rfl := Except.ok.inj (hkind.symm.trans hkindObject)
      cases hstatement
    · rw [hvalue] at hmem
      exact List.mem_singleton.mp hmem ▸ habove
  · rintro ⟨object, properties, hobject, hrest⟩
    exact ⟨object, properties, .head hchild hobject, hrest⟩

theorem hidden_iff_of_statement :
    Hidden t root (· = root) x ↔ Hidden t value noStatement x := by
  refine exists_congr fun y => ⟨?_, ?_⟩
  · rintro ⟨hy, hmisplaced, hbelow⟩
    rcases (Tree.atOrBelow_iff hkind).mp hy with rfl | ⟨child, hchild, hy⟩
    · exact absurd hmisplaced (not_misplaced_root ht)
    · rw [hvalue] at hchild
      obtain rfl := List.mem_singleton.mp hchild
      exact ⟨hy, (misplaced_iff_of_statement ht hkind hstatement hvalue hy).mp hmisplaced, hbelow⟩
  · rintro ⟨hy, hmisplaced, hbelow⟩
    exact ⟨.head ⟨kind, hkind, hvalue ▸ List.mem_cons_self⟩ hy,
      (misplaced_iff_of_statement ht hkind hstatement hvalue hy).mpr hmisplaced, hbelow⟩

end

/-- A statement is recorded once what it binds has been checked. -/
theorem covered_statement {span : Span} (hfresh : m.get? root = none)
    (hextends : Extends (fun x => t.Below root x) m m₁)
    (hparts : kind.children = [] ∨
      ∃ value, kind.children = [value] ∧ Covered t value noStatement m m₁) :
    Covered t root (· = root) m (m₁.insert root (interface.mapError fun e => e.located span)) := by
  have hnone : m₁.get? root = none := (hextends.frame root (ht.acyclic root)).trans hfresh
  have hinsert : Extends (fun x => t.AtOrBelow root x) m
      (m₁.insert root (interface.mapError fun e => e.located span)) :=
    (hextends.mono fun _ hbelow => hbelow.to_reflTransGen).trans (.insert .refl _)
  have hget (x : NodeId) := InterfaceMap.get?_insert_of_none
    (i := interface.mapError fun e => e.located span) hnone x
  -- A node of the subtree is the statement, or has been checked with what the statement binds.
  have hplace {x : NodeId} (hx : t.AtOrBelow root x) : x = root ∨ x ≠ root ∧
      ∃ value, kind.children = [value] ∧ Covered t value noStatement m m₁ ∧ t.AtOrBelow value x := by
    refine or_iff_not_imp_left.mpr fun hne => ⟨hne, ?_⟩
    obtain ⟨child, hchild, hx⟩ := ((Tree.atOrBelow_iff hkind).mp hx).resolve_left hne
    rcases hparts with hnil | ⟨value, hvalue, hcovered⟩
    · rw [hnil] at hchild
      cases hchild
    · rw [hvalue] at hchild
      obtain rfl := List.mem_singleton.mp hchild
      exact ⟨child, hvalue, hcovered, hx⟩
  refine ⟨hinsert, fun x hx => ?_, fun x i hx hmisplaced hi => ?_,
    fun x e hx he => ?_⟩
  · rw [existsUnique_get?_iff, Recorded, hget]
    rcases hplace hx with rfl | ⟨hne, value, hvalue, hcovered, hx⟩
    · rw [if_pos rfl]
      exact iff_of_true ⟨_, rfl⟩ fun ⟨y, hy, _, hbelow⟩ => ht.acyclic y (hbelow.trans_left hy)
    · rw [if_neg hne, ← Recorded, ← existsUnique_get?_iff, hcovered.recorded_iff x hx,
        hidden_iff_of_statement ht hkind hstatement hvalue]
  · rcases hplace hx with rfl | ⟨hne, value, hvalue, hcovered, hx⟩
    · exact absurd hmisplaced (not_misplaced_root ht)
    · rw [hget, if_neg hne] at hi
      exact hcovered.reported x i hx
        ((misplaced_iff_of_statement ht hkind hstatement hvalue hx).mp hmisplaced) hi
  · rw [hget] at he
    rcases hplace hx with rfl | ⟨hne, value, hvalue, hcovered, hx⟩
    · rw [if_pos rfl] at he
      cases interface with
      | ok typing => cases he
      | error e' =>
        cases he
        exact isSome_span_located e' span
    · rw [if_neg hne] at he
      exact hcovered.placed x e hx he

end

/-! ### The judgements -/

/-- The nodes at and below a node are closed under the nodes below. -/
theorem sharedBelow_atOrBelow (t : Tree) (root : NodeId) : SharedBelow t t (t.AtOrBelow root) :=
  fun x hx n hn =>
    ⟨hn, fun child hchild => hx.tail ⟨n.kind, by simp [Tree.kind, hn, Except.map], hchild⟩⟩

/-- A node has all nodes below it in common with itself. -/
theorem common_self (ht : t.TreeShaped) (hroot : root < t.size) :
    Common t t (t.AtOrBelow root) t.depthLimit (fun _ => True) root := by
  obtain ⟨uses, huses⟩ := ht.exists_references hroot
  exact common_of_references (sharedBelow_atOrBelow t root) .refl huses (fun _ _ => trivial)
    fun _ _ => trivial

/-- No name is known to be unbound. -/
theorem inherited_false : Inherited t fun _ _ => False := ⟨fun _ => id, fun _ h => h.elim⟩

section

variable (ht : s.tree.TreeShaped) (hroot : root < s.tree.size)
  (hfresh : ∀ x, s.tree.AtOrBelow root x → m.get? x = none)

include ht hroot hfresh

theorem synth_covered (env : TypeEnv) :
    ∃ i m', synth s root env m = .ok (i, m') ∧ m'.get? root = some i ∧
      Covered s.tree root noStatement m m' :=
  covered_of_run ht
    ((rules_alike ⟨rfl, Nat.le_refl _, Nat.le_refl _⟩ (Nat.le_refl _) (Nat.le_refl _)).synth
      (common_self ht hroot) (.refl _ env))
    (fun _ => (rules_note ht inherited_false _).synth .root fun _ _ h => h.elim) hfresh

theorem check_covered (env : TypeEnv) (expected : Ty) :
    ∃ i m', check s root env expected m = .ok (i, m') ∧ m'.get? root = some i ∧
      Covered s.tree root noStatement m m' :=
  covered_of_run ht
    ((rules_alike ⟨rfl, Nat.le_refl _, Nat.le_refl _⟩ (Nat.le_refl _) (Nat.le_refl _)).check expected
      (common_self ht hroot) (.refl _ env))
    (fun _ => (rules_note ht inherited_false _).check expected .root fun _ _ h => h.elim) hfresh

/-- A statement is checked by checking what it binds and recording what follows from that. -/
theorem statement_covered (env : TypeEnv) :
    ∃ env' m', statement s root env m = .ok (env', m') ∧
      Covered s.tree root (· = root) m m' := by
  obtain ⟨kind, hkind⟩ := Tree.exists_kind_of_lt hroot
  obtain ⟨span, hspan⟩ := Tree.exists_span_of_lt hroot
  have hnone := hfresh root .refl
  -- An expression in the place of a statement is covered by its own synthesis.
  have hexpression (hexpression : kind.isStatement = false) :
      ∃ env' m', (do let _ ← synth s root env; pure env : CheckM TypeEnv) m = .ok (env', m') ∧
        Covered s.tree root (· = root) m m' := by
    obtain ⟨i, m', hrun, -, hcovered⟩ := synth_covered ht hroot hfresh env
    refine ⟨env, m', bind_run hrun, hcovered.toExtends, fun x hx => ?_,
      fun x i hx hmisplaced => ?_, hcovered.placed⟩
    · rw [hcovered.recorded_iff x hx]
      refine not_congr (exists_congr fun y => ?_)
      rw [misplaced_iff_of_expression hkind hexpression]
    · exact hcovered.reported x i hx ((misplaced_iff_of_expression hkind hexpression).mp hmisplaced)
  have hrecorded {m₁ : InterfaceMap} (hm₁ : m₁.get? root = none) (interface : Interface) :
      record s root interface m₁ = .ok (interface.mapError fun e => e.located span,
        m₁.insert root (interface.mapError fun e => e.located span)) :=
    (record_run hspan).trans (congrArg Except.ok (InterfaceMap.record_of_none hm₁ _))
  have hbinding {value : NodeId} (hvalue : kind.children = [value])
      (hstatement : kind.isStatement = true) (name : String) {z : CheckM Interface}
      (hz : (∀ x, s.tree.AtOrBelow value x → m.get? x = none) →
        ∃ i m', z m = .ok (i, m') ∧ Covered s.tree value noStatement m m') :
      ∃ env' m', (do let interface ← record s root (← z); pure (env.extend name interface) :
          CheckM TypeEnv) m = .ok (env', m') ∧ Covered s.tree root (· = root) m m' := by
    have hchild : s.tree.ChildOf root value := ⟨kind, hkind, hvalue ▸ List.mem_cons_self⟩
    obtain ⟨i, m₁, hrun, hcovered⟩ := hz fun x hx => hfresh x (.head hchild hx)
    -- The subtree of the value does not hold the binding, which can still be recorded.
    have hnone₁ : m₁.get? root = none :=
      (hcovered.frame root (ht.not_atOrBelow_of_childOf hchild)).trans hnone
    refine ⟨_, _, (bind_run hrun).trans (bind_run (hrecorded hnone₁ i)), ?_⟩
    refine covered_statement ht hkind hstatement hnone (hcovered.toExtends.mono fun x hx => ?_)
      (.inr ⟨value, hvalue, hcovered⟩)
    exact .head' hchild hx
  have hvalue {value : NodeId} (hlt : value < s.tree.size) :
      (∀ x, s.tree.AtOrBelow value x → m.get? x = none) →
      (∃ i m', synth s value env m = .ok (i, m') ∧ Covered s.tree value noStatement m m') ∧
      ∀ ty, ∃ i m', check s value env ty m = .ok (i, m') ∧
        Covered s.tree value noStatement m m' := by
    intro hfresh
    obtain ⟨i, m', hrun, -, hcovered⟩ := synth_covered ht hlt hfresh env
    refine ⟨⟨i, m', hrun, hcovered⟩, fun ty => ?_⟩
    obtain ⟨i, m', hrun, -, hcovered⟩ := check_covered ht hlt hfresh env ty
    exact ⟨i, m', hrun, hcovered⟩
  unfold statement
  rw [kindOf_bind hkind]
  cases kind with
  | constBinding name written? value exported =>
    refine hbinding rfl rfl name fun hfresh => ?_
    obtain ⟨hsynth, hcheck⟩ := hvalue (ht.present root value ⟨_, hkind, List.mem_cons_self⟩) hfresh
    cases written? with
    | some written =>
      obtain ⟨i, m', hrun, hcovered⟩ := hcheck written.resolve
      exact ⟨_, m', bind_run hrun, hcovered⟩
    | none =>
      obtain ⟨i, m', hrun, hcovered⟩ := hsynth
      exact ⟨_, m', bind_run hrun, hcovered⟩
  | letBinding name written? value mutability exported =>
    refine hbinding rfl rfl name fun hfresh => ?_
    obtain ⟨hsynth, hcheck⟩ := hvalue (ht.present root value ⟨_, hkind, List.mem_cons_self⟩) hfresh
    cases written? with
    | some written =>
      obtain ⟨i, m', hrun, hcovered⟩ := hcheck written.resolve
      exact ⟨_, m', bind_run hrun, hcovered⟩
    | none =>
      obtain ⟨i, m', hrun, hcovered⟩ := hsynth
      exact ⟨_, m', bind_run hrun, hcovered⟩
  | importing path specifiers =>
    dsimp only
    rw [liftM_bind hspan]
    refine ⟨_, _, bind_run (bind_run (hrecorded hnone _)), ?_⟩
    exact covered_statement ht hkind rfl hnone (.refl m) (.inl rfl)
  | _ => exact hexpression rfl

/-- However a node is checked, if nothing of its subtree is recorded then the check completes, and
    all of the subtree is recorded but what is below a misplaced node. -/
theorem subtree_covered (env : TypeEnv) (expected : Ty) :
    (∃ i m', synth s root env m = .ok (i, m') ∧ m'.get? root = some i ∧
      Covered s.tree root noStatement m m') ∧
    (∃ i m', check s root env expected m = .ok (i, m') ∧ m'.get? root = some i ∧
      Covered s.tree root noStatement m m') ∧
    ∃ env' m', statement s root env m = .ok (env', m') ∧ Covered s.tree root (· = root) m m' :=
  ⟨synth_covered ht hroot hfresh env, check_covered ht hroot hfresh env expected,
    statement_covered ht hroot hfresh env⟩

end

/-- `const x = { a: true, const y = false }`, an object with a member that is no property. -/
def strayMember : Tree :=
  ⟨#[⟨default, .literal (.boolean true)⟩, ⟨default, .property "a" 0⟩,
    ⟨default, .literal (.boolean false)⟩, ⟨default, .constBinding "y" none 2 false⟩,
    ⟨default, .object [1, 3]⟩, ⟨default, .constBinding "x" none 4 false⟩]⟩

/-- In `strayMember` only `false` is below a misplaced node. -/
theorem subtree_covered_strayMember :
    strayMember.TreeShaped ∧ 5 < strayMember.size ∧
      (∀ x, strayMember.AtOrBelow 5 x → (InterfaceMap.ofSize 6).get? x = none) ∧
      Hidden strayMember 5 (· = 5) 2 ∧
      ∃ env' m', statement { tree := strayMember } 5 .empty (.ofSize 6) = .ok (env', m') ∧
        Covered strayMember 5 (· = 5) (.ofSize 6) m' := by
  have ht : strayMember.TreeShaped := Tree.treeShaped_of_ascending rfl
  have hfresh (x : NodeId) : strayMember.AtOrBelow 5 x → (InterfaceMap.ofSize 6).get? x = none :=
    fun _ => InterfaceMap.get?_ofSize 6 x
  refine ⟨ht, by decide, hfresh, ⟨3, ?_, ?_, ?_⟩, ?_⟩
  · exact .head ⟨_, rfl, List.mem_cons_self⟩ (.single ⟨_, rfl, List.mem_cons_of_mem _ List.mem_cons_self⟩)
  · exact .inl ⟨by decide, _, rfl, rfl⟩
  · exact .single ⟨_, rfl, List.mem_cons_self⟩
  · exact (subtree_covered (s := { tree := strayMember }) ht (by decide) hfresh .empty .unknown).2.2

end ReactiveDoc.Check
