import ReactiveDoc.Proofs.Check.Visiting

namespace ReactiveDoc.Check

/-!
# The judgements visit all nodes

* `RulesNote` — the judgements record what `Noted` says, and return what is recorded.
* `rules_note` — so it is at every depth.
-/

variable {t : Tree} {s : Setting} {root node : NodeId} {kind : NodeKind} {M : InterfaceMap}
  {U : NodeId → String → Prop} {P : Prop} {env : TypeEnv} {interface : Interface}

/-- The judgements on nodes that are reached from `root` keep the notes. -/
structure RulesNote (t : Tree) (root : NodeId) (U : NodeId → String → Prop) (M : InterfaceMap)
    (r : Rules) : Prop where
  synth : ∀ {P : Prop} {node env}, Entered t root node → (P → Scoped U node env) →
    Keeps (Notes t root U M) M P (r.synth node env) fun i => M.get? node = some i
  check : ∀ {P : Prop} {node env} (expected : Ty), Entered t root node → (P → Scoped U node env) →
    Keeps (Notes t root U M) M P (r.check node env expected) fun i => M.get? node = some i
  narrow : ∀ {P : Prop} {node env} (outcome : Bool), Entered t root node →
    (P → Scoped U node env) →
    Keeps (Notes t root U M) M P (r.narrow env node outcome) (Narrows env)

/-! ### Recording -/

theorem record_notes (ht : s.tree.TreeShaped) (hnode : Entered s.tree root node)
    (hkind : s.tree.kind node = .ok kind) (h : P → Formed U M node kind interface) :
    Keeps (Notes s.tree root U M) M P (record s node interface) fun i => M.get? node = some i :=
  keeps_record fun hP _ _ hspan hget hnotes =>
    hnotes.insert hget ((h hP).noted ht hnode hkind hspan)

theorem mark_notes (ht : s.tree.TreeShaped) (hnode : Entered s.tree root node)
    (hkind : s.tree.kind node = .ok kind) (h : P → Formed U M node kind interface) :
    Keeps (Notes s.tree root U M) M P (mark s node interface) fun _ => Recorded M node :=
  (record_notes ht hnode hkind h).bind fun i => keeps_pure fun hP => ⟨i, hP.2⟩

/-- A member of an object that is no property is reported. -/
theorem markStray_notes (ht : s.tree.TreeShaped) {object : NodeId} {properties : List NodeId}
    (hobject : Entered s.tree root object) (hkind : s.tree.kind object = .ok (.object properties))
    (hmem : node ∈ properties) (hnone : ∀ key value, s.tree.kind node ≠ .ok (.property key value)) :
    Keeps (Notes s.tree root U M) M P (mark s node (.error { kind := .notAnExpression }))
      fun _ => Recorded M node := by
  have hstray : Stray s.tree root node :=
    ⟨object, properties, hobject.atOrBelow, hkind, hmem, hnone⟩
  refine Keeps.bind (keeps_record fun hP m span hspan hget hnotes => hnotes.insert hget ?_)
    fun i => keeps_pure fun hP => ⟨i, hP.2⟩
  exact {
    visited := .inr ⟨object, properties, hobject, hkind, hmem⟩
    parts := fun hentered => absurd hstray (hentered.not_stray ht)
    placed := fun e he => by cases he; rfl
    misplaced := fun _ => ⟨span, hspan, rfl⟩
    unbound := fun _ _ _ => ⟨_, rfl⟩ }

/-! ### What the rules find out -/

/-- Names and statements apart, a form has been dealt with once its parts are recorded. -/
theorem formed_of_parts (hexpression : kind.isStatement = false)
    (hname : ∀ name, kind ≠ .identifier name) (h : ∀ x ∈ kind.children, Recorded M x) :
    Formed U M node kind interface where
  parts _ := h
  statement hstatement := absurd (hexpression.symm.trans hstatement) Bool.false_ne_true
  unbound name heq := absurd heq (hname name)

theorem formed_property {value : NodeId} {key : String} (hvalue : Recorded M value) :
    Formed U M node (.property key value) interface :=
  formed_of_parts rfl nofun (List.forall_mem_singleton.mpr hvalue)

theorem recorded_pair {x y : NodeId} (hx : Recorded M x) (hy : Recorded M y) :
    ∀ child ∈ [x, y], Recorded M child :=
  List.forall_mem_cons.mpr ⟨hx, List.forall_mem_singleton.mpr hy⟩

/-! ### Narrowing -/

theorem narrowPlaceWithin_narrows {I : InterfaceMap → Prop} (fuel : Nat) (place : NodeId)
    (known : Ty) :
    Keeps I M P (narrowPlaceWithin s env fuel place known) (Narrows env) := by
  induction fuel generalizing place known with
  | zero => exact keeps_throw _
  | succ fuel ih =>
    unfold narrowPlaceWithin
    refine keeps_liftM_bind fun kind _ => ?_
    cases kind with
    | identifier name => exact keeps_pure fun _ => narrows_narrowName env name known
    | member object property => exact ih object _
    | _ => exact keeps_pure fun _ _ => id

theorem narrowSide_narrows {I : InterfaceMap → Prop} (place : NodeId) (other : Ty) (equal : Bool) :
    Keeps I M P (narrowSide s env place other equal) (Narrows env) := by
  unfold narrowSide
  split
  · exact keeps_pure fun _ _ => id
  · split
    · exact narrowPlaceWithin_narrows _ place _
    · split
      · exact narrowPlaceWithin_narrows _ place _
      · exact keeps_pure fun _ _ => id

section

variable {r : Rules} (hr : RulesNote s.tree root U M r)

include hr

theorem narrowComparison_notes {left right : NodeId} (hleft : Entered s.tree root left)
    (hright : Entered s.tree root right) (hscopeLeft : P → Scoped U left env)
    (hscopeRight : P → Scoped U right env) (loose equal : Bool) :
    Keeps (Notes s.tree root U M) M P (narrowComparison s r env loose left right equal)
      (Narrows env) := by
  unfold narrowComparison
  refine keeps_liftM_bind fun leftKind _ => ?_
  refine keeps_liftM_bind fun rightKind _ => ?_
  cases typeofTest? leftKind rightKind with
  | some found =>
    simp only
    split
    · exact narrowPlaceWithin_narrows _ _ _
    · exact keeps_pure fun _ _ => id
  | none =>
    refine (hr.synth hleft hscopeLeft).bind fun leftInterface => ?_
    refine (hr.synth hright fun hP => hscopeRight hP.1).bind fun rightInterface => ?_
    refine (narrowSide_narrows _ _ _).bind fun narrowed => ?_
    exact (narrowSide_narrows _ _ _).mono id fun _ hP hnarrows => hP.2.trans hnarrows

variable (hU : Inherited s.tree U)

include hU

theorem narrowTest_notes (hnode : Entered s.tree root node) (h : P → Scoped U node env)
    (outcome : Bool) :
    Keeps (Notes s.tree root U M) M P (narrowTest s r env node outcome) (Narrows env) := by
  -- A test that is not taken apart narrows its own place, if it is one.
  have htruth (known : Ty) :
      Keeps (Notes s.tree root U M) M P (narrowPlace s env node known) (Narrows env) :=
    narrowPlaceWithin_narrows _ _ _
  unfold narrowTest
  refine keeps_liftM_bind fun kind hkind => ?_
  cases kind with
  | unary op argument =>
    have hargument : Entered s.tree root argument :=
      .child hnode hkind rfl List.mem_cons_self (by simp)
    cases op with
    | not => exact hr.narrow _ hargument fun hP => (h hP).child hU ⟨_, hkind, List.mem_cons_self⟩
    | _ => exact htruth _
  | logical op left right =>
    have hleft : Entered s.tree root left := .child hnode hkind rfl (by simp [NodeKind.children]) (by simp)
    have hright : Entered s.tree root right :=
      .child hnode hkind rfl (by simp [NodeKind.children]) (by simp)
    have hboth (outcome : Bool) : Keeps (Notes s.tree root U M) M P
        (do r.narrow (← r.narrow env left outcome) right outcome) (Narrows env) := by
      refine (hr.narrow outcome hleft fun hP => (h hP).child hU ?_).bind fun narrowed => ?_
      · exact ⟨_, hkind, by simp [NodeKind.children]⟩
      · refine (hr.narrow outcome hright fun hP => ?_).mono id fun _ hP hnarrows =>
          hP.2.trans hnarrows
        exact ((h hP.1).child hU ⟨_, hkind, by simp [NodeKind.children]⟩).narrowed hP.2
    cases op with
    | and =>
      cases outcome with
      | true => exact hboth true
      | false => exact htruth _
    | or =>
      cases outcome with
      | true => exact htruth _
      | false => exact hboth false
  | binary op left right =>
    simp only
    split
    · refine narrowComparison_notes hr (.child hnode hkind rfl ?_ ?_)
        (.child hnode hkind rfl ?_ ?_) (fun hP => (h hP).child hU ⟨_, hkind, ?_⟩)
        (fun hP => (h hP).child hU ⟨_, hkind, ?_⟩) _ _
      all_goals simp [NodeKind.children]
    · exact htruth _
  | _ => exact htruth _

/-! ### Objects -/

section

variable (ht : s.tree.TreeShaped) {properties : List NodeId} (hnode : Entered s.tree root node)
  (hkind : s.tree.kind node = .ok (.object properties)) (h : P → Scoped U node env)
  {property : NodeId} (hmem : property ∈ properties)

omit hr in
include hnode hkind h hmem in
/-- Where an object is reached, its properties are and their values. -/
theorem property_entered {value : NodeId} {key : String}
    (hproperty : s.tree.kind property = .ok (.property key value)) :
    Entered s.tree root property ∧ Entered s.tree root value ∧ (P → Scoped U value env) := by
  have hentered : Entered s.tree root property :=
    .child hnode hkind rfl hmem fun _ _ => ⟨key, value, hproperty⟩
  refine ⟨hentered, .child hentered hproperty rfl List.mem_cons_self nofun, fun hP => ?_⟩
  exact ((h hP).child hU ⟨_, hkind, hmem⟩).child hU ⟨_, hproperty, List.mem_cons_self⟩

include ht hnode hkind h hmem

theorem addProperty_notes (parts : ObjectParts) :
    Keeps (Notes s.tree root U M) M P (addProperty s r env parts property)
      fun _ => Recorded M property := by
  unfold addProperty
  refine keeps_liftM_bind fun kind hproperty => ?_
  cases kind with
  | property key value =>
    obtain ⟨hentered, hvalue, hscope⟩ := property_entered hU hnode hkind h hmem hproperty
    refine (hr.synth hvalue hscope).bind fun i => ?_
    have hformed (i' : Interface) (hP : P ∧ M.get? value = some i) :
        Formed U M property (.property key value) i' := formed_property ⟨i, hP.2⟩
    dsimp only
    split
    · refine keeps_liftM_bind fun span _ => ?_
      exact (mark_notes ht hentered hproperty (hformed _)).bind fun _ => keeps_pure And.right
    · exact (record_notes ht hentered hproperty (hformed _)).bind fun held =>
        keeps_pure fun hP => ⟨held, hP.2⟩
  | _ =>
    refine (markStray_notes ht hnode hkind hmem fun key value heq => ?_).bind fun _ =>
      keeps_pure And.right
    rw [hproperty] at heq
    cases heq

theorem checkProperty_notes (fields : List (Field Ty)) (seen : CheckedKeys) :
    Keeps (Notes s.tree root U M) M P (checkProperty s r env fields seen property)
      fun _ => Recorded M property := by
  unfold checkProperty
  refine keeps_liftM_bind fun kind hproperty => ?_
  cases kind with
  | property key value =>
    obtain ⟨hentered, hvalue, hscope⟩ := property_entered hU hnode hkind h hmem hproperty
    have hformed {i : Interface} (i' : Interface) (hP : P ∧ M.get? value = some i) :
        Formed U M property (.property key value) i' := formed_property ⟨i, hP.2⟩
    dsimp only
    split
    · refine (hr.synth hvalue hscope).bind fun i => keeps_liftM_bind fun span _ => ?_
      exact (mark_notes ht hentered hproperty (hformed _)).bind fun _ => keeps_pure And.right
    · split
      · exact (hr.check _ hvalue hscope).bind fun i =>
          (record_notes ht hentered hproperty (hformed _)).bind fun held =>
            keeps_pure fun hP => ⟨held, hP.2⟩
      · exact (hr.synth hvalue hscope).bind fun i =>
          (record_notes ht hentered hproperty (hformed _)).bind fun held =>
            keeps_pure fun hP => ⟨held, hP.2⟩
  | _ =>
    refine (markStray_notes ht hnode hkind hmem fun key value heq => ?_).bind fun _ =>
      keeps_pure And.right
    rw [hproperty] at heq
    cases heq

end

/-! ### Several nodes -/

section

omit hU

variable {nodes : List NodeId}
  (hnodes : ∀ x ∈ nodes, Entered s.tree root x ∧ (P → Scoped U x env))

include hnodes

theorem synthAll_notes :
    Keeps (Notes s.tree root U M) M P (nodes.mapM fun x => r.synth x env)
      fun _ => ∀ x ∈ nodes, Recorded M x := by
  have hmapM : Keeps (Notes s.tree root U M) M P (nodes.mapM fun x => r.synth x env)
      (List.Forall₂ (fun x i => M.get? x = some i) nodes) :=
    .mapM fun x hx P' hP' => hr.synth (hnodes x hx).1 fun hP => (hnodes x hx).2 (hP' hP)
  refine hmapM.mono id fun _ _ hall x hx => ?_
  obtain ⟨i, -, hi⟩ := exists_right_of_mem hall hx
  exact ⟨i, hi⟩

theorem visitAll_notes :
    Keeps (Notes s.tree root U M) M P (visitAll r nodes env) fun _ => ∀ x ∈ nodes, Recorded M x :=
  Keeps.forM fun x hx _ hP' =>
    (hr.synth (hnodes x hx).1 fun hP => (hnodes x hx).2 (hP' hP)).bind fun i =>
      keeps_pure fun hP => ⟨i, hP.2⟩

theorem checkEach_notes {types : List Ty} (hlength : nodes.length = types.length) :
    Keeps (Notes s.tree root U M) M P
      ((nodes.zip types).mapM fun (x, ty) => r.check x env ty)
      fun _ => ∀ x ∈ nodes, Recorded M x := by
  have hmapM : Keeps (Notes s.tree root U M) M P
      ((nodes.zip types).mapM fun (x, ty) => r.check x env ty)
      (List.Forall₂ (fun pair i => M.get? pair.1 = some i) (nodes.zip types)) := by
    refine .mapM fun pair hpair P' hP' => ?_
    obtain ⟨hentered, hscope⟩ := hnodes _ (List.of_mem_zip hpair).1
    exact hr.check _ hentered fun hP => hscope (hP' hP)
  refine hmapM.mono id fun _ _ hall x hx => ?_
  rw [← List.map_fst_zip (Nat.le_of_eq hlength)] at hx
  obtain ⟨pair, hpair, rfl⟩ := List.mem_map.mp hx
  obtain ⟨i, -, hi⟩ := exists_right_of_mem hall hpair
  exact ⟨i, hi⟩

end

/-! ### Forms -/

section

variable (ht : s.tree.TreeShaped) (hnode : Entered s.tree root node) (h : P → Scoped U node env)

include ht hnode h

theorem synthObject_notes {properties : List NodeId}
    (hkind : s.tree.kind node = .ok (.object properties)) :
    Keeps (Notes s.tree root U M) M P (synthObject s r properties env)
      fun _ => ∀ x ∈ properties, Recorded M x := by
  have hfold : Keeps (Notes s.tree root U M) M P (properties.foldlM (addProperty s r env) {})
      fun _ => ∀ x ∈ properties, Recorded M x :=
    .foldlM_forall (fun parts p hp P' hP' =>
      addProperty_notes hr hU ht hnode hkind (h ∘ hP') hp parts) {}
  exact hfold.bind fun parts => keeps_pure And.right

theorem checkObject_notes {properties : List NodeId}
    (hkind : s.tree.kind node = .ok (.object properties)) (fields : List (Field Ty)) :
    Keeps (Notes s.tree root U M) M P (checkObject s r properties env fields)
      fun _ => ∀ x ∈ properties, Recorded M x := by
  have hfold : Keeps (Notes s.tree root U M) M P
      (properties.foldlM (checkProperty s r env fields) {}) fun _ => ∀ x ∈ properties, Recorded M x :=
    .foldlM_forall (fun seen p hp P' hP' =>
      checkProperty_notes hr hU ht hnode hkind (h ∘ hP') hp fields seen) {}
  exact hfold.bind fun seen => keeps_pure And.right

omit ht

/-- The branches are visited where the test has come out true and where it has come out false. -/
theorem branches_note {test consequent alternate : NodeId}
    (hkind : s.tree.kind node = .ok (.conditional test consequent alternate))
    {visit : NodeId → TypeEnv → CheckM Interface} {f : Interface → Interface → Interface → Interface}
    (hvisit : ∀ {P : Prop} {node env}, Entered s.tree root node → (P → Scoped U node env) →
      Keeps (Notes s.tree root U M) M P (visit node env) fun i => M.get? node = some i) :
    Keeps (Notes s.tree root U M) M P
      (do
        let testInterface ← r.synth test env
        let whenTrue ← r.narrow env test true
        let whenFalse ← r.narrow env test false
        let consequent ← visit consequent whenTrue
        let alternate ← visit alternate whenFalse
        pure (f testInterface consequent alternate))
      fun _ => ∀ x ∈ (NodeKind.conditional test consequent alternate).children, Recorded M x := by
  have hentered {x : NodeId} (hx : x ∈ (NodeKind.conditional test consequent alternate).children) :
      Entered s.tree root x := .child hnode hkind rfl hx nofun
  have hscope {x : NodeId} (hx : x ∈ (NodeKind.conditional test consequent alternate).children)
      (hP : P) : Scoped U x env := (h hP).child hU ⟨_, hkind, hx⟩
  have htest : test ∈ (NodeKind.conditional test consequent alternate).children := by
    simp [NodeKind.children]
  have hconsequent : consequent ∈ (NodeKind.conditional test consequent alternate).children := by
    simp [NodeKind.children]
  have halternate : alternate ∈ (NodeKind.conditional test consequent alternate).children := by
    simp [NodeKind.children]
  refine (hr.synth (hentered htest) (hscope htest)).bind fun i => ?_
  refine (hr.narrow true (hentered htest) fun hP => hscope htest hP.1).bind fun whenTrue => ?_
  refine (hr.narrow false (hentered htest) fun hP => hscope htest hP.1.1).bind fun whenFalse => ?_
  refine (hvisit (hentered hconsequent) fun hP =>
    (hscope hconsequent hP.1.1.1).narrowed hP.1.2).bind fun c => ?_
  refine (hvisit (hentered halternate) fun hP =>
    (hscope halternate hP.1.1.1.1).narrowed hP.1.2).bind fun a => keeps_pure ?_
  rintro ⟨⟨⟨⟨⟨-, hi⟩, -⟩, -⟩, hc⟩, ha⟩ x hx
  rcases List.mem_cons.mp hx with rfl | hx
  · exact ⟨i, hi⟩
  · rcases List.mem_cons.mp hx with rfl | hx
    · exact ⟨c, hc⟩
    · exact List.mem_singleton.mp hx ▸ ⟨a, ha⟩

omit hr in
/-- The parts of an expression are reached with it, and what is not bound at it is not bound at
    them.  The members of an object are reached only if they are properties. -/
theorem part_entered (hkind : s.tree.kind node = .ok kind) (hexpression : kind.isStatement = false)
    (hobject : ∀ properties, kind ≠ .object properties) :
    ∀ x ∈ kind.children, Entered s.tree root x ∧ (P → Scoped U x env) := fun _ hx =>
  ⟨.child hnode hkind hexpression hx fun properties heq => absurd heq (hobject properties),
    fun hP => (h hP).child hU ⟨_, hkind, hx⟩⟩

theorem synthCall_notes {callee : NodeId} {arguments : List NodeId}
    (hkind : s.tree.kind node = .ok (.call callee arguments)) :
    Keeps (Notes s.tree root U M) M P (synthCall r callee arguments env)
      fun _ => ∀ x ∈ callee :: arguments, Recorded M x := by
  have hpart := part_entered hU hnode h hkind rfl (fun _ heq => nomatch heq)
  obtain ⟨hcallee, hscope⟩ := hpart callee List.mem_cons_self
  refine (hr.synth hcallee hscope).bind fun i => ?_
  have hargument (x : NodeId) (hx : x ∈ arguments) :
      Entered s.tree root x ∧ (P ∧ M.get? callee = some i → Scoped U x env) :=
    (hpart x (List.mem_cons_of_mem _ hx)).imp_right fun hx hP => hx hP.1
  have hall (hP : (P ∧ M.get? callee = some i) ∧ ∀ x ∈ arguments, Recorded M x) :
      ∀ x ∈ callee :: arguments, Recorded M x :=
    List.forall_mem_cons.mpr ⟨⟨i, hP.1.2⟩, hP.2⟩
  have hvisited (i' : Interface) : Keeps (Notes s.tree root U M) M (P ∧ M.get? callee = some i)
      (do visitAll r arguments env; pure i') fun _ => ∀ x ∈ callee :: arguments, Recorded M x :=
    (visitAll_notes hr hargument).bind fun _ => keeps_pure hall
  have hsynth (f : List Interface → Interface) :
      Keeps (Notes s.tree root U M) M (P ∧ M.get? callee = some i)
      (do pure (f (← arguments.mapM fun a => r.synth a env)))
      fun _ => ∀ x ∈ callee :: arguments, Recorded M x :=
    (synthAll_notes hr hargument).bind fun _ => keeps_pure hall
  cases i with
  | error e => exact hvisited _
  | ok typing =>
    dsimp only
    split
    · split
      · rename_i hlength
        exact (checkEach_notes hr hargument hlength.symm).bind fun _ => keeps_pure hall
      · exact hvisited _
    · exact hsynth _
    · exact hsynth _
    · exact hsynth _
    · exact hvisited _

omit hr in
/-- The body of an arrow is visited in the environment of its parameters. -/
theorem body_entered {params : List Param} {body : NodeId}
    (hkind : s.tree.kind node = .ok (.arrow params body)) (types : List Ty) :
    Entered s.tree root body ∧ (P → Scoped U body (bodyEnv env params types)) :=
  ⟨.child hnode hkind rfl List.mem_cons_self (fun _ heq => nomatch heq),
    fun hP => (h hP).bodyEnv hU hkind types⟩

theorem synthArrow_notes {params : List Param} {body : NodeId}
    (hkind : s.tree.kind node = .ok (.arrow params body)) :
    Keeps (Notes s.tree root U M) M P (synthArrow s r params body env)
      fun _ => Recorded M body := by
  obtain ⟨hbody, hscope⟩ := body_entered hU hnode h hkind (params.map declaredType)
  exact (hr.synth hbody hscope).bind fun i => keeps_pure fun hP => ⟨i, hP.2⟩

omit hr hU hnode h in
theorem describePlaceWithin_keeps {I : InterfaceMap → Prop} (fuel : Nat) (place : NodeId) :
    Keeps I M P (describePlaceWithin s fuel place) fun _ => True := by
  induction fuel generalizing P place with
  | zero => exact keeps_throw _
  | succ fuel ih =>
    unfold describePlaceWithin
    refine keeps_liftM_bind fun kind _ => ?_
    cases kind with
    | member object _ => exact (ih object).bind fun _ => keeps_pure fun _ => trivial
    | index object _ => exact (ih object).bind fun _ => keeps_pure fun _ => trivial
    | _ => exact keeps_pure fun _ => trivial

theorem synthAssignment_notes {target value : NodeId}
    (hkind : s.tree.kind node = .ok (.assignment target value)) :
    Keeps (Notes s.tree root U M) M P (synthAssignment s r target value env)
      fun _ => Recorded M target ∧ Recorded M value := by
  have hpart := part_entered hU hnode h hkind rfl (fun _ heq => nomatch heq)
  obtain ⟨htarget, hscope⟩ := hpart target List.mem_cons_self
  obtain ⟨hvalue, hscopeValue⟩ := hpart value (List.mem_cons_of_mem _ List.mem_cons_self)
  refine (hr.synth htarget hscope).bind fun i => ?_
  have hboth {j : Interface} (hP : (P ∧ M.get? target = some i) ∧ M.get? value = some j) :
      Recorded M target ∧ Recorded M value := ⟨⟨i, hP.1.2⟩, ⟨j, hP.2⟩⟩
  cases i with
  | error e =>
    exact (hr.synth hvalue fun hP => hscopeValue hP.1).bind fun _ => keeps_pure hboth
  | ok typing =>
    refine keeps_liftM_bind fun kind _ => ?_
    split
    · exact (hr.check _ hvalue fun hP => hscopeValue hP.1).bind fun _ => keeps_pure hboth
    · refine (hr.synth hvalue fun hP => hscopeValue hP.1).bind fun _ => ?_
      exact (describePlaceWithin_keeps _ _).bind fun _ => keeps_pure fun hP => hboth hP.1

include ht

theorem synthForm_notes (hkind : s.tree.kind node = .ok kind) :
    Keeps (Notes s.tree root U M) M P (synthForm s r node env) (Formed U M node kind) := by
  unfold synthForm
  rw [kindOf_bind hkind]
  have hpart := part_entered hU hnode h hkind
  cases kind with
  | undefined => exact keeps_pure fun _ => formed_of_parts rfl nofun nofun
  | null => exact keeps_pure fun _ => formed_of_parts rfl nofun nofun
  | literal value => exact keeps_pure fun _ => formed_of_parts rfl nofun nofun
  | identifier name =>
    refine keeps_pure fun hP => ⟨fun _ => nofun, nofun, fun name' heq hname => ?_⟩
    cases heq
    unfold nameInterface
    rw [h hP name hname]
    exact ⟨_, rfl⟩
  | object properties =>
    exact (synthObject_notes hr hU ht hnode h hkind).mono id fun i _ hparts =>
      formed_of_parts rfl nofun hparts
  | property key value =>
    obtain ⟨hvalue, hscope⟩ := hpart rfl nofun value List.mem_cons_self
    exact (hr.synth hvalue hscope).bind fun i => keeps_pure fun hP => formed_property ⟨i, hP.2⟩
  | array elements =>
    exact (synthAll_notes hr (hpart rfl nofun)).bind fun items => keeps_pure fun hP =>
      formed_of_parts rfl nofun hP.2
  | unary op argument =>
    obtain ⟨hargument, hscope⟩ := hpart rfl nofun argument List.mem_cons_self
    refine (hr.synth hargument hscope).bind fun i => keeps_pure fun hP => ?_
    exact formed_of_parts rfl nofun (List.forall_mem_singleton.mpr ⟨i, hP.2⟩)
  | binary op left right =>
    obtain ⟨hleft, hscopeLeft⟩ := hpart rfl nofun left List.mem_cons_self
    obtain ⟨hright, hscopeRight⟩ := hpart rfl nofun right (List.mem_cons_of_mem _ List.mem_cons_self)
    refine (hr.synth hleft hscopeLeft).bind fun i => ?_
    refine (hr.synth hright fun hP => hscopeRight hP.1).bind fun j => keeps_pure fun hP => ?_
    exact formed_of_parts rfl nofun (recorded_pair ⟨i, hP.1.2⟩ ⟨j, hP.2⟩)
  | logical op left right =>
    obtain ⟨hleft, hscopeLeft⟩ := hpart rfl nofun left List.mem_cons_self
    obtain ⟨hright, hscopeRight⟩ := hpart rfl nofun right (List.mem_cons_of_mem _ List.mem_cons_self)
    refine (hr.synth hleft hscopeLeft).bind fun i => ?_
    -- The right side is visited in the environment that the left one leaves.
    refine (hr.narrow _ hleft fun hP => hscopeLeft hP.1).bind fun narrowed => ?_
    refine (hr.synth hright fun hP => (hscopeRight hP.1.1).narrowed hP.2).bind fun j =>
      keeps_pure fun hP => ?_
    exact formed_of_parts rfl nofun (recorded_pair ⟨i, hP.1.1.2⟩ ⟨j, hP.2⟩)
  | conditional test consequent alternate =>
    exact (branches_note hr hU hnode h hkind hr.synth).mono id fun i _ hparts =>
      formed_of_parts rfl nofun hparts
  | member object name =>
    obtain ⟨hobject, hscope⟩ := hpart rfl nofun object List.mem_cons_self
    refine (hr.synth hobject hscope).bind fun i => keeps_pure fun hP => ?_
    exact formed_of_parts rfl nofun (List.forall_mem_singleton.mpr ⟨i, hP.2⟩)
  | index object index =>
    obtain ⟨hobject, hscopeObject⟩ := hpart rfl nofun object List.mem_cons_self
    obtain ⟨hindex, hscopeIndex⟩ := hpart rfl nofun index (List.mem_cons_of_mem _ List.mem_cons_self)
    refine (hr.synth hobject hscopeObject).bind fun i => ?_
    refine (hr.synth hindex fun hP => hscopeIndex hP.1).bind fun j => keeps_pure fun hP => ?_
    exact formed_of_parts rfl nofun (recorded_pair ⟨i, hP.1.2⟩ ⟨j, hP.2⟩)
  | call callee arguments =>
    exact (synthCall_notes hr hU hnode h hkind).mono id fun i _ hparts =>
      formed_of_parts rfl nofun hparts
  | arrow params body =>
    exact (synthArrow_notes hr hU hnode h hkind).mono id fun i _ hbody =>
      formed_of_parts rfl nofun (List.forall_mem_singleton.mpr hbody)
  | assignment target value =>
    exact (synthAssignment_notes hr hU hnode h hkind).mono id fun i _ hparts =>
      formed_of_parts rfl nofun (recorded_pair hparts.1 hparts.2)
  | element tag attributes children =>
    exact (synthAll_notes hr (hpart rfl nofun)).bind fun parts => keeps_pure fun hP =>
      formed_of_parts rfl nofun hP.2
  | ascription expression written =>
    obtain ⟨hexpression, hscope⟩ := hpart rfl nofun expression List.mem_cons_self
    refine (hr.check _ hexpression hscope).bind fun i => keeps_pure fun hP => ?_
    exact formed_of_parts rfl nofun (List.forall_mem_singleton.mpr ⟨i, hP.2⟩)
  -- A misplaced statement is answered with an error; its parts are not visited.
  | constBinding => exact keeps_pure fun _ => ⟨nofun, fun _ => rfl, nofun⟩
  | letBinding => exact keeps_pure fun _ => ⟨nofun, fun _ => rfl, nofun⟩
  | importing => exact keeps_pure fun _ => ⟨nofun, fun _ => rfl, nofun⟩

omit ht in
theorem checkTuple_notes {elements : List NodeId}
    (hkind : s.tree.kind node = .ok (.array elements)) (items : List Ty) :
    Keeps (Notes s.tree root U M) M P (checkTuple r elements env items)
      fun _ => ∀ x ∈ elements, Recorded M x := by
  have hpart := part_entered hU hnode h hkind rfl nofun
  unfold checkTuple
  split
  · rename_i hlength
    exact (checkEach_notes hr hpart hlength).bind fun _ => keeps_pure And.right
  · exact (visitAll_notes hr hpart).bind fun _ => keeps_pure And.right

theorem checkArrow_notes {params : List Param} {body : NodeId}
    (hkind : s.tree.kind node = .ok (.arrow params body)) (expected : List Ty) (result : Ty) :
    Keeps (Notes s.tree root U M) M P (checkArrow s r node params body env expected result)
      fun _ => Recorded M body := by
  unfold checkArrow
  split
  · have hbody := body_entered hU hnode h hkind
    refine Keeps.bind (hr.check result (hbody []).1 fun hP => (hbody _).2 hP) fun i => ?_
    exact keeps_pure fun hP => ⟨i, hP.2⟩
  · refine (synthForm_notes hr hU ht hnode h hkind).bind fun _ => keeps_pure fun hP => ?_
    exact hP.2.parts rfl body List.mem_cons_self

/-- What is expected of a form does not change its parts. -/
theorem checkForm_notes (hkind : s.tree.kind node = .ok kind) (expected : Ty) :
    Keeps (Notes s.tree root U M) M P (checkForm s r node env expected)
      (Formed U M node kind) := by
  have hform : Keeps (Notes s.tree root U M) M P
      (return expectType (← synthForm s r node env) expected) (Formed U M node kind) := by
    refine (synthForm_notes hr hU ht hnode h hkind).bind fun i => keeps_pure fun hP => ?_
    refine ⟨hP.2.parts, fun hstatement => ?_, fun name heq hname => ?_⟩
    · rw [hP.2.statement hstatement]
      rfl
    · obtain ⟨e, rfl⟩ := hP.2.unbound name heq hname
      exact ⟨e, rfl⟩
  unfold checkForm
  rw [kindOf_bind hkind]
  cases kind with
  | array elements =>
    cases expected with
    | tuple items =>
      exact (checkTuple_notes hr hU hnode h hkind items).mono id fun i _ hparts =>
        formed_of_parts rfl nofun hparts
    | array item =>
      have hpart := part_entered (P := P) hU hnode h hkind rfl nofun
      have hmapM : Keeps (Notes s.tree root U M) M P (elements.mapM fun e => r.check e env item)
          (List.Forall₂ (fun x i => M.get? x = some i) elements) :=
        .mapM fun x hx P' hP' => hr.check item (hpart x hx).1 fun hP => (hpart x hx).2 (hP' hP)
      refine hmapM.bind fun checked => keeps_pure fun hP => formed_of_parts rfl nofun ?_
      intro x hx
      obtain ⟨i, -, hi⟩ := exists_right_of_mem hP.2 hx
      exact ⟨i, hi⟩
    | _ => exact hform
  | object properties =>
    cases expected with
    | object fields =>
      exact (checkObject_notes hr hU ht hnode h hkind fields).mono id fun i _ hparts =>
        formed_of_parts rfl nofun hparts
    | _ => exact hform
  | arrow params body =>
    cases expected with
    | function types result =>
      exact (checkArrow_notes hr hU ht hnode h hkind types result).mono id fun i _ hbody =>
        formed_of_parts rfl nofun (List.forall_mem_singleton.mpr hbody)
    | _ => exact hform
  | conditional test consequent alternate =>
    refine (branches_note hr hU hnode h hkind fun hentered hscope =>
      hr.check expected hentered hscope).mono id fun i _ hparts => formed_of_parts rfl nofun hparts
  | _ => exact hform

end

end

/-! ### All nodes -/

/-- At every depth the judgements keep the notes. -/
theorem rules_note (ht : s.tree.TreeShaped) (hU : Inherited s.tree U) (depth : Nat) :
    RulesNote s.tree root U M (rules s depth) := by
  induction depth with
  | zero => exact ⟨fun _ _ => keeps_throw _, fun _ _ _ => keeps_throw _, fun _ _ _ => keeps_throw _⟩
  | succ depth ih =>
    have hrecord {P : Prop} {node : NodeId} {z : CheckM Interface}
        (hnode : Entered s.tree root node)
        (hz : ∀ kind, s.tree.kind node = .ok kind →
          Keeps (Notes s.tree root U M) M P z (Formed U M node kind))
        (hthrow : ∀ fault, s.tree.kind node = .error fault → z = throw fault) :
        Keeps (Notes s.tree root U M) M P (do record s node (← z))
          fun i => M.get? node = some i := by
      cases hkind : s.tree.kind node with
      | error fault =>
        rw [hthrow fault hkind]
        exact keeps_throw fault
      | ok kind =>
        exact (hz kind hkind).bind fun i => record_notes ht hnode hkind And.right
    refine ⟨fun {_ node env} hnode h => keeps_heldOr (hrecord hnode
        (fun kind hkind => synthForm_notes ih hU ht hnode h hkind) fun fault hfault => ?_),
      fun {_ node env} expected hnode h => keeps_heldOr (hrecord hnode
        (fun kind hkind => checkForm_notes ih hU ht hnode h hkind expected) fun fault hfault => ?_),
      fun outcome hnode h => narrowTest_notes ih hU hnode h outcome⟩
    · unfold synthForm kindOf
      rw [hfault]
      rfl
    · unfold checkForm kindOf
      rw [hfault]
      rfl

end ReactiveDoc.Check
