import ReactiveDoc.Proofs.Check.Subtree
import ReactiveDoc.Proofs.Eval.Computing
import ReactiveDoc.Proofs.Syntax.Arena

namespace ReactiveDoc.Eval

/-!
# What does not change over time does not depend on signals

* `Visited` — the nodes that the evaluation of a node comes to.
* `TypesHold` — the values of names, of other tests and of the parts that are read are as the checker
  takes them.
* `TypesHold.isTruthy` — then all tests have the truth that their types tell.
* `rules_sameQuietly` — and steady nodes are evaluated alike, and touch nothing.
* `evaluate_undisturbed` — so expressions that are not dynamic do not depend on signals.
* `sameNaN_disturbed` — one that does, since the checker takes not-a-number to equal itself.
-/

open Check (Steady SteadyParts truthOf isQuiet stopsAt)
open Signal (World)

variable {σ : Type}

/-! ### What evaluation comes to -/

/-- The node can have the value. -/
def Gives (host : Host σ) (p : Program) (env : ValueEnv) (node : NodeId) (v : Value) : Prop :=
  ∃ depth w w', (rules host depth).evaluate p node env w = .ok (.ok v, w')

section

variable (gives : NodeId → Value → Prop)

/-- The nodes that the evaluation of a form goes on with. -/
def Next : NodeKind → NodeId → Prop
  | .logical op left right, x =>
      x = left ∨ x = right ∧ ∃ v, gives left v ∧ decidesLogical op v = false
  | .conditional test consequent alternate, x =>
      x = test ∨ ∃ v, gives test v ∧ x = if v.isTruthy then consequent else alternate
  | kind, x => x ∈ kind.children

/-- The nodes that the evaluation of `root` comes to. -/
inductive Visited (t : Tree) (root : NodeId) : NodeId → Prop
  | root : Visited t root root
  | next {x y : NodeId} {kind : NodeKind} (hx : Visited t root x) (hkind : t.kind x = .ok kind)
      (hy : Next gives kind y) : Visited t root y

/-- The part of a form whose truth decides how its evaluation goes on. -/
def test? : NodeKind → Option NodeId
  | .logical _ left _ => some left
  | .conditional test _ _ => some test
  | _ => none

/-- The values of nodes that do not change over time are as the checker takes them, wherever
    evaluation depends on it: operators make the tests of names that stand for values of their types,
    other tests have the truth that their types tell, and no part that is read is a signal. -/
structure TypesHold (p : Program) (env : ValueEnv) (root : NodeId) : Prop where
  test : ∀ x kind test truth, Visited gives p.tree root x → p.tree.kind x = .ok kind →
    test? kind = some test → Steady p.interfaces test →
    truthOf p.interfaces test = some truth →
    (∃ exact v, Predicted p env exact test v) ∨ ∀ v, gives test v → v.isTruthy = truth
  member : ∀ x object name v, Visited gives p.tree root x →
    p.tree.kind x = .ok (.member object name) → Steady p.interfaces x → gives object v →
    (v.member name).Plain
  index : ∀ x object index v i, Visited gives p.tree root x →
    p.tree.kind x = .ok (.index object index) → Steady p.interfaces x → gives object v →
    gives index i → (v.index i).Plain

/-- What is known of a checked expression whose evaluation in two environments is compared.  The
    names in `fixed` do not change over time. -/
structure Foreseen (fixed : String → Prop) (p : Program) (root : NodeId) (env env' : ValueEnv) :
    Prop where
  checked : ∀ x e, p.interfaces.get? x ≠ some (.error e)
  quiet : ∀ x kind, Visited gives p.tree root x → p.tree.kind x = .ok kind → isQuiet kind = true
  parts : ∀ x kind typing, Visited gives p.tree root x → p.tree.kind x = .ok kind →
    p.interfaces.get? x = some (.ok typing) → typing.dynamic = false →
    SteadyParts p.tree p.interfaces fixed kind
  names : ∀ name, fixed name → env.get? name = env'.get? name ∧
    ∀ v, env.get? name = some v → v.Plain
  truth : ∀ x kind test truth v, Visited gives p.tree root x → p.tree.kind x = .ok kind →
    test? kind = some test → Steady p.interfaces test →
    truthOf p.interfaces test = some truth → gives test v → v.isTruthy = truth
  types : TypesHold gives p env root

end

/-! ### Expressions -/

section

variable {r : Rules σ} {p : Program} {root node : NodeId} {env env' : ValueEnv}
  {gives : NodeId → Value → Prop} {fixed : String → Prop}
  (hr : ∀ x, Visited gives p.tree root x → Steady p.interfaces x →
    SameQuietly (r.evaluate p x env) (r.evaluate p x env') fun v => v.Plain ∧ gives x v)

include hr

/-- Steady nodes are evaluated and their values put together at once. -/
theorem combine_sameQuietly {nodes : List NodeId} {recipe : Recipe}
    (hnodes : ∀ x ∈ nodes, Visited gives p.tree root x ∧ Steady p.interfaces x)
    (hcall : recipe ≠ .call)
    (hindex : ∀ values, recipe = .index → List.Forall₂ gives nodes values →
      ((values.getD 0 .undefined).index (values.getD 1 .undefined)).Plain) :
    SameQuietly (combine r p nodes env recipe) (combine r p nodes env' recipe) Value.Plain := by
  have hvalues := SameQuietly.mapM fun x hx => hr x (hnodes x hx).1 (hnodes x hx).2
  refine hvalues.bind fun values hall => ?_
  have hplain : ∀ v ∈ values, v.Plain :=
    ((List.forall₂_and_left values nodes).mp (List.Forall₂.flip hall)).1
  simp only [dynamicSlots_of_plain p nodes hplain, List.map_nil]
  exact assemble_sameQuietly r hcall fun h => hindex values h (hall.imp fun _ _ hv => hv.2)

variable (h : Foreseen gives fixed p root env env') (hx : Visited gives p.tree root node)

include h hx

/-- The right operand is evaluated only where the type of the left one does not rule it out. -/
theorem evaluateLogical_sameQuietly {op : LogicalOp} {left right : NodeId}
    (hkind : p.tree.kind node = .ok (.logical op left right))
    (hsteady : SteadyParts p.tree p.interfaces fixed (.logical op left right)) :
    SameQuietly (evaluateLogical r p op left right env) (evaluateLogical r p op left right env')
      Value.Plain := by
  obtain ⟨hsteadyLeft, hright⟩ := hsteady
  refine (isFailed_sameQuietly hsteadyLeft (h.checked left)).bind fun failed hfailed => ?_
  rw [hfailed]
  simp only [Bool.false_eq_true, ↓reduceIte]
  refine (hr left (hx.next hkind (.inl rfl)) hsteadyLeft).bind fun v hv => ?_
  obtain ⟨hplain, hgives⟩ := hv
  have hrest : SameQuietly
      (if decidesLogical op v then pure v else r.evaluate p right env)
      (if decidesLogical op v then pure v else r.evaluate p right env') Value.Plain := by
    cases hdecides : decidesLogical op v with
    | true => exact sameQuietly_pure hplain
    | false =>
      have hsteadyRight : Steady p.interfaces right := by
        refine hright.resolve_left fun hstops => ?_
        have htruth := h.truth node _ left _ v hx hkind rfl hsteadyLeft hstops hgives
        cases op <;> simp [decidesLogical, stopsAt, htruth] at hdecides
      have hvisited : Visited gives p.tree root right :=
        hx.next hkind (.inr ⟨rfl, v, hgives, hdecides⟩)
      exact (hr right hvisited hsteadyRight).mono fun _ => And.left
  cases v with
  | signal id => exact absurd rfl (hplain id)
  | _ => exact hrest

/-- The branch that is taken is not the one that the type of the test rules out. -/
theorem evaluateConditional_sameQuietly {test consequent alternate : NodeId}
    (hkind : p.tree.kind node = .ok (.conditional test consequent alternate))
    (hsteady : SteadyParts p.tree p.interfaces fixed (.conditional test consequent alternate)) :
    SameQuietly (evaluateConditional r p test consequent alternate env)
      (evaluateConditional r p test consequent alternate env') Value.Plain := by
  obtain ⟨hsteadyTest, hconsequent, halternate⟩ := hsteady
  refine (hr test (hx.next hkind (.inl rfl)) hsteadyTest).bind fun v hv => ?_
  obtain ⟨hplain, hgives⟩ := hv
  have htruth {truth : Bool} (htold : truthOf p.interfaces test = some truth) :
      v.isTruthy = truth := h.truth node _ test truth v hx hkind rfl hsteadyTest htold hgives
  have hsteadyBranch : Steady p.interfaces (if v.isTruthy then consequent else alternate) := by
    cases hv : v.isTruthy with
    | true => exact hconsequent fun hfalse => Bool.false_ne_true ((htruth hfalse).symm.trans hv)
    | false => exact halternate fun htrue => Bool.false_ne_true (hv.symm.trans (htruth htrue))
  have hbranch : Visited gives p.tree root (if v.isTruthy then consequent else alternate) :=
    hx.next hkind (.inr ⟨v, hgives, rfl⟩)
  cases v with
  | signal id => exact absurd rfl (hplain id)
  | _ => exact (hr _ hbranch hsteadyBranch).mono fun _ => And.left

theorem evaluateMember_sameQuietly {object : NodeId} {name : String}
    (hkind : p.tree.kind node = .ok (.member object name)) (hnode : Steady p.interfaces node)
    (hsteady : SteadyParts p.tree p.interfaces fixed (.member object name)) :
    SameQuietly (evaluateMember r p object name env) (evaluateMember r p object name env')
      Value.Plain := by
  have hobject : object ∈ (NodeKind.member object name).children := List.mem_cons_self
  refine (hr object (hx.next hkind hobject) (hsteady object hobject)).bind fun v hv => ?_
  obtain ⟨hplain, hgives⟩ := hv
  have hmember : SameQuietly (pure (v.member name) : EvalM σ Value) (pure (v.member name))
      Value.Plain := sameQuietly_pure (h.types.member node object name v hx hkind hnode hgives)
  cases v with
  | signal id => exact absurd rfl (hplain id)
  | _ => exact hmember

omit h in
/-- A form that is put together from all of its parts. -/
theorem combine_children_sameQuietly {kind : NodeKind} {recipe : Recipe}
    (hkind : p.tree.kind node = .ok kind) (hnext : ∀ x ∈ kind.children, Next gives kind x)
    (hsteady : ∀ x ∈ kind.children, Steady p.interfaces x) (hcall : recipe ≠ .call)
    (hindex : recipe ≠ .index) :
    SameQuietly (combine r p kind.children env recipe) (combine r p kind.children env' recipe)
      Value.Plain :=
  combine_sameQuietly hr (fun x hx' => ⟨hx.next hkind (hnext x hx'), hsteady x hx'⟩) hcall
    fun _ hrecipe => absurd hrecipe hindex

theorem evaluateBinary_sameQuietly {op : BinaryOp} {left right : NodeId}
    (hkind : p.tree.kind node = .ok (.binary op left right))
    (hsteady : SteadyParts p.tree p.interfaces fixed (.binary op left right)) :
    SameQuietly (evaluateBinary r p op left right env) (evaluateBinary r p op left right env')
      Value.Plain := by
  have hleft := hsteady left List.mem_cons_self
  have hright := hsteady right (List.mem_cons_of_mem _ List.mem_cons_self)
  refine (isFailed_sameQuietly hleft (h.checked left)).bind fun failed hfailed => ?_
  rw [hfailed]
  refine (isFailed_sameQuietly hright (h.checked right)).bind fun failed hfailed => ?_
  rw [hfailed]
  exact combine_children_sameQuietly hr hx hkind (fun _ => id) hsteady (by simp) (by simp)

omit hr hx in
/-- The values of steady properties are steady, since none of the properties failed. -/
theorem property_visited {property value : NodeId} {key : String}
    (hproperty : Visited gives p.tree root property)
    (hkind : p.tree.kind property = .ok (.property key value))
    (hsteady : Steady p.interfaces property) :
    Visited gives p.tree root value ∧ Steady p.interfaces value := by
  obtain ⟨interface, hget, hdynamic⟩ := hsteady
  cases interface with
  | error e => exact absurd hget (h.checked property e)
  | ok typing =>
    have hvalue : value ∈ (NodeKind.property key value).children := List.mem_cons_self
    exact ⟨hproperty.next hkind hvalue,
      h.parts property _ typing hproperty hkind hget hdynamic value hvalue⟩

omit hx in
/-- Objects, and elements, whose entries come before their children. -/
theorem evaluateEntries_sameQuietly {properties : List NodeId} (children : List NodeId)
    (recipe : List String → Recipe)
    (hproperties : ∀ property ∈ properties, Visited gives p.tree root property ∧
      ∀ key value, p.tree.kind property = .ok (.property key value) →
        Steady p.interfaces property)
    (hchildren : ∀ x ∈ children, Visited gives p.tree root x ∧ Steady p.interfaces x)
    (hcall : ∀ keys, recipe keys ≠ .call) (hindex : ∀ keys, recipe keys ≠ .index) :
    SameQuietly
      (do
        let entries ← entriesOf p properties
        combine r p (entries.map Prod.snd ++ children) env (recipe (entries.map Prod.fst)))
      (do
        let entries ← entriesOf p properties
        combine r p (entries.map Prod.snd ++ children) env' (recipe (entries.map Prod.fst)))
      Value.Plain := by
  refine (entriesOf_sameQuietly p properties).bind fun entries hentries => ?_
  refine combine_sameQuietly hr (fun x hx' => ?_) (hcall _) fun _ h => absurd h (hindex _)
  rcases List.mem_append.mp hx' with hx' | hx'
  · obtain ⟨⟨key, value⟩, he, rfl⟩ := List.mem_map.mp hx'
    obtain ⟨property, hproperty, hkind'⟩ := hentries _ he
    obtain ⟨hvisited, hsteady⟩ := hproperties property hproperty
    exact property_visited h hvisited hkind' (hsteady key value hkind')
  · exact hchildren x hx'

theorem evaluateIndex_sameQuietly {object index : NodeId}
    (hkind : p.tree.kind node = .ok (.index object index)) (hnode : Steady p.interfaces node)
    (hsteady : SteadyParts p.tree p.interfaces fixed (.index object index)) :
    SameQuietly (combine r p [object, index] env .index) (combine r p [object, index] env' .index)
      Value.Plain := by
  refine combine_sameQuietly hr (fun x hx' => ⟨hx.next hkind hx', hsteady x hx'⟩) (by simp) ?_
  rintro values - hall
  obtain ⟨v, rest, hv, hrest, rfl⟩ := List.forall₂_cons_left_iff.mp hall
  obtain ⟨i, rest, hi, -, rfl⟩ := List.forall₂_cons_left_iff.mp hrest
  exact h.types.index node object index v i hx hkind hnode hv hi

theorem evaluateForm_sameQuietly {typing : Typing}
    (hget : p.interfaces.get? node = some (.ok typing)) (hdynamic : typing.dynamic = false) :
    SameQuietly (evaluateForm r p node typing env) (evaluateForm r p node typing env')
      Value.Plain := by
  unfold evaluateForm
  refine (sameQuietly_lookUp _).bind fun kind hkind => ?_
  have hsteady := h.parts node kind typing hx hkind hget hdynamic
  have hnode : Steady p.interfaces node := ⟨_, hget, hdynamic⟩
  have hquiet := h.quiet node kind hx hkind
  have hcombine {recipe : Recipe} (hnext : ∀ x ∈ kind.children, Next gives kind x)
      (hsteady : ∀ x ∈ kind.children, Steady p.interfaces x) (hcall : recipe ≠ .call)
      (hindex : recipe ≠ .index) :=
    combine_children_sameQuietly hr hx hkind hnext hsteady hcall hindex
  cases kind with
  | undefined => exact sameQuietly_pure fun _ h => nomatch h
  | null => exact sameQuietly_pure fun _ h => nomatch h
  | literal value => cases value <;> exact sameQuietly_pure fun _ h => nomatch h
  | identifier name =>
    obtain ⟨heq, hplain⟩ := h.names name hsteady
    simp only [← heq]
    cases hget : env.get? name with
    | some v => exact sameQuietly_pure (hplain v hget)
    | none => exact sameQuietly_throw _
  | property key value =>
    have hvalue : value ∈ (NodeKind.property key value).children := List.mem_cons_self
    exact (hr value (hx.next hkind hvalue) (hsteady value hvalue)).mono fun _ => And.left
  | object properties =>
    have hproperties : ∀ property ∈ properties, Visited gives p.tree root property ∧
        ∀ key value, p.tree.kind property = .ok (.property key value) →
          Steady p.interfaces property :=
      fun property hmem => ⟨hx.next hkind hmem, hsteady property hmem⟩
    simpa only [List.append_nil] using evaluateEntries_sameQuietly hr h [] .object hproperties
      (fun _ hmem => absurd hmem List.not_mem_nil) (by simp) (by simp)
  | array elements => exact hcombine (fun _ => id) hsteady (by simp) (by simp)
  | unary op argument => exact hcombine (fun _ => id) hsteady (by simp) (by simp)
  | binary op left right => exact evaluateBinary_sameQuietly hr h hx hkind hsteady
  | logical op left right => exact evaluateLogical_sameQuietly hr h hx hkind hsteady
  | conditional test consequent alternate =>
    exact evaluateConditional_sameQuietly hr h hx hkind hsteady
  | member object name => exact evaluateMember_sameQuietly hr h hx hkind hnode hsteady
  | index object index => exact evaluateIndex_sameQuietly hr h hx hkind hnode hsteady
  | ascription expression written =>
    have hpart : expression ∈ (NodeKind.ascription expression written).children :=
      List.mem_cons_self
    exact (hr expression (hx.next hkind hpart) (hsteady expression hpart)).mono fun _ => And.left
  | element tag attributes children =>
    have hparts : ∀ x ∈ attributes ++ children, Visited gives p.tree root x ∧
        Steady p.interfaces x := fun x hx' => ⟨hx.next hkind hx', hsteady x hx'⟩
    refine evaluateEntries_sameQuietly hr h children (.element tag) (fun property hmem => ?_)
      (fun x hx' => hparts x (List.mem_append_right _ hx')) (by simp) (by simp)
    have hproperty := hparts property (List.mem_append_left _ hmem)
    exact ⟨hproperty.1, fun _ _ _ => hproperty.2⟩
  -- None of the remaining forms is quiet.
  | call | arrow | assignment => cases hquiet
  | constBinding | letBinding | importing => cases hquiet

theorem evaluateNode_sameQuietly (hnode : Steady p.interfaces node) :
    SameQuietly (evaluateNode r p node env) (evaluateNode r p node env') Value.Plain := by
  obtain ⟨interface, hget, hdynamic⟩ := hnode
  unfold evaluateNode
  refine (require_sameQuietly hget).bind fun held heq => ?_
  rw [heq]
  cases interface with
  | error e => exact absurd hget (h.checked node e)
  | ok typing =>
    refine (evaluateForm_sameQuietly hr h hx hget hdynamic).bind fun v hv => ?_
    have hdynamic : typing.dynamic = false := hdynamic
    rw [hdynamic, conform_of_plain r hv]
    exact sameQuietly_pure hv

end

/-! ### All expressions -/

section

variable {host : Host σ} {p : Program} {root : NodeId} {env env' : ValueEnv}
  {fixed : String → Prop}

/-- At every depth steady nodes are evaluated alike. -/
theorem rules_sameQuietly (h : Foreseen (Gives host p env) fixed p root env env') (depth : Nat) :
    ∀ x, Visited (Gives host p env) p.tree root x → Steady p.interfaces x →
      SameQuietly ((rules host depth).evaluate p x env) ((rules host depth).evaluate p x env')
        fun v => v.Plain ∧ Gives host p env x v := by
  induction depth with
  | zero => exact fun _ _ _ => sameQuietly_throwFault _
  | succ depth ih =>
    intro x hx hsteady
    have hnode : SameQuietly ((rules host (depth + 1)).evaluate p x env)
      ((rules host (depth + 1)).evaluate p x env') Value.Plain :=
      evaluateNode_sameQuietly ih h hx hsteady
    exact hnode.given.mono fun v hv => ⟨hv.1, depth + 1, hv.2⟩

/-- Evaluation goes on with nodes below. -/
theorem mem_children_of_next {gives : NodeId → Value → Prop} {kind : NodeKind} {x : NodeId}
    (h : Next gives kind x) : x ∈ kind.children := by
  cases kind with
  | logical op left right =>
    rcases h with rfl | ⟨rfl, -⟩
    · exact List.mem_cons_self
    · exact List.mem_cons_of_mem _ List.mem_cons_self
  | conditional test consequent alternate =>
    rcases h with rfl | ⟨v, -, rfl⟩
    · exact List.mem_cons_self
    · split <;> simp [NodeKind.children]
  | _ => exact h

theorem Visited.mem_subtree {gives : NodeId → Value → Prop} {t : Tree} {root x : NodeId}
    {nodes : List NodeId} (hnodes : t.subtree root = .ok nodes) (h : Visited gives t root x) :
    x ∈ nodes := by
  obtain ⟨hroot, hbelow⟩ := Check.mem_subtreeWithin hnodes
  induction h with
  | root => exact hroot
  | next _ hkind hy ih =>
    obtain ⟨n, hn, hchildren⟩ := hbelow _ ih
    unfold Tree.kind at hkind
    rw [hn] at hkind
    cases hkind
    exact hchildren _ (mem_children_of_next hy)

theorem mem_children_of_test? {kind : NodeKind} {test : NodeId} (h : test? kind = some test) :
    test ∈ kind.children := by
  cases kind with
  | logical | conditional =>
    cases h
    exact List.mem_cons_self
  | _ => cases h

/-- Where the types of names hold, tests that operators make of them have the truth that is told. -/
theorem TypesHold.isTruthy {D : NodeId → Prop} (h : TypesHold (Gives host p env) p env root)
    (hs : Surveyed D fixed p env) {x test : NodeId} {kind : NodeKind} {truth : Bool} {v : Value}
    (hx : Visited (Gives host p env) p.tree root x) (hD : D x) (hkind : p.tree.kind x = .ok kind)
    (htest : test? kind = some test) (hsteady : Steady p.interfaces test)
    (htold : truthOf p.interfaces test = some truth) (hv : Gives host p env test v) :
    v.isTruthy = truth := by
  rcases h.test x kind test truth hx hkind htest hsteady htold with ⟨exact, u, hu⟩ | hholds
  · -- A node evaluates to one value, so what the test has given is the value that was predicted.
    obtain ⟨depth, w, w', hrun⟩ := hv
    have hDtest := hs.child hD hkind (mem_children_of_test? htest)
    rw [(hu.computed hs hDtest hsteady).eq_of_run hrun]
    exact hu.isTruthy hs hDtest htold
  · exact hholds v hv

/-- An expression that is checked without errors and is not dynamic is evaluated alike in
    environments that agree on the names that are not dynamic, whatever signals there are, and
    touches none, as long as the values that its evaluation depends on are as the checker takes
    them. -/
theorem evaluate_undisturbed {s : Check.Setting} {node : NodeId} {names : TypeEnv}
    {nodes : List NodeId} {typing : Typing} {m : InterfaceMap}
    (hnodes : s.tree.subtree node = .ok nodes)
    (hquiet : ∀ x ∈ nodes, ∀ kind, s.tree.kind x = .ok kind → isQuiet kind = true)
    (hcheck : Check.synth s node names (.ofSize s.tree.size) = .ok (.ok typing, m))
    (herrors : m.errors = []) (hdynamic : typing.dynamic = false) (options : EvalOptions)
    (host : Host σ) (env env' : ValueEnv)
    (hnames : ∀ name typing, names.get? name = some (.ok typing) →
      typing.contents.dynamic = false →
        env.get? name = env'.get? name ∧ ∀ v, env.get? name = some v → v.Plain)
    (htypes : TypesHold (Gives host ⟨s.tree, m, options⟩ env) ⟨s.tree, m, options⟩ env node)
    (depth : Nat) :
    SameQuietly ((rules host depth).evaluate ⟨s.tree, m, options⟩ node env)
      ((rules host depth).evaluate ⟨s.tree, m, options⟩ node env') Value.Plain := by
  let p : Program := ⟨s.tree, m, options⟩
  let fixed (name : String) : Prop :=
    ∃ typing, names.get? name = some (.ok typing) ∧ typing.contents.dynamic = false
  have hbelow : Check.QuietBelow s.tree (· ∈ nodes) := by
    intro x hx kind hkind
    obtain ⟨n, hn, hchildren⟩ := (Check.mem_subtreeWithin hnodes).2 x hx
    refine ⟨hquiet x hx kind hkind, ?_⟩
    unfold Tree.kind at hkind
    rw [hn] at hkind
    cases hkind
    exact hchildren
  -- What is recorded below the node accounts for itself, with the names that are not dynamic fixed.
  have hfixed : Check.Fixes fixed names := fun name typing hget hsteady => ⟨typing, hget, hsteady⟩
  obtain ⟨hget, haccounted⟩ :=
    Check.explained_of_synth hbelow (Check.mem_subtreeWithin hnodes).1 hfixed hcheck
  have hfixedNames (name : String) (hname : fixed name) :
      env.get? name = env'.get? name ∧ ∀ v, env.get? name = some v → v.Plain := by
    obtain ⟨typing, hname, hsteady⟩ := hname
    exact hnames name typing hname hsteady
  have hsurveyed : Surveyed (· ∈ nodes) fixed p env :=
    { child := fun hx hkind hy => (hbelow _ hx _ hkind).2 _ hy
      checked := fun x e hx => InterfaceMap.get?_ne_error herrors hx
      accounted := haccounted
      plain := fun name v hname => (hfixedNames name hname).2 v }
  -- This is what each step of the evaluation may rely on.
  have hforeseen : Foreseen (Gives host p env) fixed p node env env' :=
    { checked := hsurveyed.checked
      quiet := fun x kind hx hkind => hquiet x (hx.mem_subtree hnodes) kind hkind
      parts := fun x kind typing hx hkind hgetx =>
        (haccounted x kind _ (hx.mem_subtree hnodes) hkind hgetx).steady typing rfl
      names := hfixedNames
      truth := fun x kind test truth v hx hkind htest hsteady htold hv =>
        htypes.isTruthy hsurveyed hx (hx.mem_subtree hnodes) hkind htest hsteady htold hv
      types := htypes }
  exact (rules_sameQuietly hforeseen depth node .root ⟨_, hget, hdynamic⟩).mono fun _ => And.left

end

/-! ### A branch that is ruled out -/

/-- A host without functions. -/
def bareHost : Host Unit where
  native name _ := throwException (.stated name)

/-- The expression `k === "x" ? a : d`. -/
def settledChoice : Tree :=
  ⟨#[⟨default, .identifier "k"⟩, ⟨default, .literal (.string "x")⟩, ⟨default, .binary .strictEq 0 1⟩,
    ⟨default, .identifier "a"⟩, ⟨default, .identifier "d"⟩, ⟨default, .conditional 2 3 4⟩]⟩

/-- The names `k` and `a` do not change over time, the name `d` does. -/
def mixedNames : TypeEnv :=
  ⟨[("k", .ok (.fixed (.ofString "x"))), ("a", .ok (.fixed .string)),
    ("d", .ok { ty := .string, dynamic := true })]⟩

/-- What is found out about the expression, which is not dynamic. -/
def settledProgram : Program where
  tree := settledChoice
  interfaces := ⟨#[some (.ok (.fixed (.ofString "x"))), some (.ok (.fixed (.ofString "x"))),
    some (.ok (.fixed (.ofBool true))), some (.ok (.fixed .string)),
    some (.ok { ty := .string, dynamic := true }), some (.ok (.fixed .string))]⟩

/-- The name `d` stands for a signal. -/
def mixedEnv (d : SignalId) : ValueEnv := ⟨[("k", .string "x"), ("a", .string "y"), ("d", .signal d)]⟩

theorem kind_settledChoice {x : NodeId} {kind : NodeKind} (h : settledChoice.kind x = .ok kind) :
    kind = .identifier "k" ∨ kind = .literal (.string "x") ∨ kind = .binary .strictEq 0 1 ∨
      kind = .identifier "a" ∨ kind = .identifier "d" ∨ kind = .conditional 2 3 4 := by
  have hx : x < 6 := Tree.lt_size_of_kind h
  interval_cases x
  · exact .inl (Except.ok.inj h).symm
  · exact .inr (.inl (Except.ok.inj h).symm)
  · exact .inr (.inr (.inl (Except.ok.inj h).symm))
  · exact .inr (.inr (.inr (.inl (Except.ok.inj h).symm)))
  · exact .inr (.inr (.inr (.inr (.inl (Except.ok.inj h).symm))))
  · exact .inr (.inr (.inr (.inr (.inr (Except.ok.inj h).symm))))

/-- The name `k` stands for a value of its type, so the test is as true as its type says. -/
theorem settledProgram_typesHold (d : SignalId) :
    TypesHold (Gives bareHost settledProgram (mixedEnv d)) settledProgram (mixedEnv d) 5 := by
  have htext : (Ty.ofString "x").Contains Eq (.string "x") := Check.contains_ofString "x"
  have hk : Predicted settledProgram (mixedEnv d) true 0 (.string "x") :=
    .name rfl rfl ⟨_, rfl, .literal _, htext⟩
  have htest : Predicted settledProgram (mixedEnv d) false 2
      (Value.binary .strictEq (.string "x") (.string "x")) :=
    .equality rfl rfl hk (.literal (l := .string "x") rfl)
      ⟨⟨_, rfl, .literal _⟩, ⟨_, rfl, .literal _⟩⟩ (by simp [Check.Mistaken, BinaryOp.isLoose])
  refine ⟨?_, ?_, ?_⟩
  · intro x kind test truth _ hkind htest?
    rcases kind_settledChoice hkind with rfl | rfl | rfl | rfl | rfl | rfl <;> cases htest?
    exact fun _ _ => .inl ⟨false, _, htest⟩
  · intro x object name v _ hkind
    rcases kind_settledChoice hkind with h | h | h | h | h | h <;> cases h
  · intro x object name v i _ hkind
    rcases kind_settledChoice hkind with h | h | h | h | h | h <;> cases h

/-- The expression is evaluated alike whatever the signal is and carries. -/
theorem evaluate_undisturbed_settledChoice :
    Check.synth ⟨settledChoice, [], {}⟩ 5 mixedNames (.ofSize 6) =
        .ok (.ok (.fixed .string), settledProgram.interfaces) ∧
      SameQuietly ((rules bareHost 5).evaluate settledProgram 5 (mixedEnv 0))
        ((rules bareHost 5).evaluate settledProgram 5 (mixedEnv 1)) Value.Plain := by
  have hcheck : Check.synth ⟨settledChoice, [], {}⟩ 5 mixedNames (.ofSize 6) =
    .ok (.ok (.fixed .string), settledProgram.interfaces) := by cbv
  have hnodes : settledChoice.subtree 5 = .ok [5, 2, 0, 1, 3, 4] := rfl
  have herrors : settledProgram.interfaces.errors = [] := InterfaceMap.errors_eq_nil rfl
  refine ⟨hcheck, evaluate_undisturbed hnodes ?_ hcheck herrors rfl {} bareHost (mixedEnv 0)
    (mixedEnv 1) ?_ (settledProgram_typesHold 0) 5⟩
  · intro x _ kind hkind
    rcases kind_settledChoice hkind with rfl | rfl | rfl | rfl | rfl | rfl <;> rfl
  · intro name typing hname hdynamic
    have hcases : "k" = name ∨ "a" = name ∨ { ty := .string, dynamic := true } = typing := by
      simp only [mixedNames, Env.get?] at hname
      grind
    rcases hcases with rfl | rfl | rfl
    · refine ⟨rfl, fun v hv => ?_⟩
      cases hv
      exact fun _ h => by cases h
    · refine ⟨rfl, fun v hv => ?_⟩
      cases hv
      exact fun _ h => by cases h
    · cases hdynamic

/-! ### A branch that is not ruled out -/

/-- The expression `0 / 0 === 0 / 0 ? 1 : d`. -/
def sameNaN : Tree :=
  ⟨#[⟨default, .literal (.number 0)⟩, ⟨default, .literal (.number 0)⟩, ⟨default, .binary .div 0 1⟩,
    ⟨default, .literal (.number 0)⟩, ⟨default, .literal (.number 0)⟩, ⟨default, .binary .div 3 4⟩,
    ⟨default, .binary .strictEq 2 5⟩, ⟨default, .literal (.number 1)⟩, ⟨default, .identifier "d"⟩,
    ⟨default, .conditional 6 7 8⟩]⟩

/-- A name of numbers that changes over time. -/
def changingNumber : TypeEnv := ⟨[("d", .ok { ty := .number, dynamic := true })]⟩

/-- The interfaces of the first `n` nodes. -/
def sameNaNInterfaces (n : Nat) : InterfaceMap :=
  let zero : Interface := .ok (.fixed (.ofNumber 0))
  let nan : Interface := .ok (.fixed (.ofNumber (0 / 0)))
  let one : Interface := .ok (.fixed (.ofNumber 1))
  let found : List Interface := [zero, zero, nan, zero, zero, nan, .ok (.fixed (.ofBool true)), one,
    .ok { ty := .number, dynamic := true }, one]
  ⟨((found.take n).map some ++ List.replicate (10 - n) none).toArray⟩

/-- A world with a cell that holds a number. -/
def numberWorld (x : Float) : World Payload Step Choice Unit :=
  ⟨(Signal.Graph.cell {} (.ok (.plain (.number x)))).2, 0, ()⟩

section

open Check

theorem binaryType_div (x y : Float) :
    binaryType .div (.ofNumber x) (.ofNumber y) = .ok (.ofNumber (x / y)) := by
  simp [binaryType, distribute?, Ty.ofNumber, Ty.literal, binaryArm?, isGradual, bothBelow,
    Ty.isSubtype, arithmetic?, foldNumber, Ty.baseOf, number?, Ty.literal?, Ty.same]

theorem binaryType_strictEq_self (x : Float) :
    binaryType .strictEq (.ofNumber x) (.ofNumber x) = .ok (.ofBool true) := by
  simp [binaryType, distribute?, Ty.ofNumber, Ty.literal, binaryArm?, isGradual, Ty.baseOf,
    staticEquality?, Literal.same, BinaryOp.isNegated]

variable {s : Setting} {depth : Nat} {node : NodeId} {env : TypeEnv} {m m' m'' : InterfaceMap}

/-- An interface that is recorded is kept. -/
theorem synthNode_run (r : Check.Rules) : synthNode s r node env m =
    (match m.get? node with
      | some held => pure held
      | none => do record s node (← synthForm s r node env) : CheckM Interface) m := rfl

/-- A node without an interface gets the one of its form. -/
theorem synth_run {i : Interface} (hnone : m.get? node = none)
    (h : synthForm s (Check.rules s depth) node env m = .ok (i, m')) :
    (Check.rules s (depth + 1)).synth node env m = record s node i m' := by
  refine (synthNode_run _).trans ?_
  rw [hnone]
  exact Check.bind_run h

theorem synthForm_binary_run {left right : NodeId} {op : BinaryOp} {l r : Interface}
    (hkind : s.tree.kind node = .ok (.binary op left right))
    (hl : (Check.rules s depth).synth left env m = .ok (l, m'))
    (hr : (Check.rules s depth).synth right env m' = .ok (r, m'')) :
    synthForm s (Check.rules s depth) node env m = .ok (binaryInterface op l r, m'') := by
  unfold synthForm
  rw [kindOf_bind hkind]
  exact (Check.bind_run hl).trans ((Check.bind_run hr).trans rfl)

/-- The nodes are checked one after the other. -/
theorem synth_sameNaN : Check.synth ⟨sameNaN, [], {}⟩ 9 changingNumber (.ofSize 10) =
    .ok (.ok (.fixed (.ofNumber 1)), sameNaNInterfaces 10) := by
  let s : Setting := ⟨sameNaN, [], {}⟩
  let zero : Interface := .ok (.fixed (.ofNumber 0))
  let nan : Interface := .ok (.fixed (.ofNumber (0 / 0)))
  let one : Interface := .ok (.fixed (.ofNumber 1))
  let visit (depth : Nat) (node : NodeId) (n : Nat) : Except Fault (Interface × InterfaceMap) :=
    (Check.rules s depth).synth node changingNumber (sameNaNInterfaces n)
  have hnan : binaryInterface .div zero zero = nan := by
    show (binaryType .div (.ofNumber 0) (.ofNumber 0)).map _ = _
    rw [binaryType_div]
    rfl
  have htrue : binaryInterface .strictEq nan nan = .ok (.fixed (.ofBool true)) := by
    show (binaryType .strictEq (.ofNumber (0 / 0)) (.ofNumber (0 / 0))).map _ = _
    rw [binaryType_strictEq_self]
    rfl
  have h₂ : visit 9 2 0 = .ok (nan, sameNaNInterfaces 3) := by
    have h₀ : visit 8 0 0 = .ok (zero, sameNaNInterfaces 1) := rfl
    have h₁ : visit 8 1 1 = .ok (zero, sameNaNInterfaces 2) := rfl
    exact (synth_run rfl (hnan ▸ synthForm_binary_run rfl h₀ h₁)).trans rfl
  have h₅ : visit 9 5 3 = .ok (nan, sameNaNInterfaces 6) := by
    have h₃ : visit 8 3 3 = .ok (zero, sameNaNInterfaces 4) := rfl
    have h₄ : visit 8 4 4 = .ok (zero, sameNaNInterfaces 5) := rfl
    exact (synth_run rfl (hnan ▸ synthForm_binary_run rfl h₃ h₄)).trans rfl
  have h₆ : visit 10 6 0 = .ok (.ok (.fixed (.ofBool true)), sameNaNInterfaces 7) :=
    (synth_run rfl (htrue ▸ synthForm_binary_run rfl h₂ h₅)).trans rfl
  have hnarrow (outcome : Bool) : (Check.rules s 10).narrow changingNumber 6 outcome
      (sameNaNInterfaces 7) = .ok (changingNumber, sameNaNInterfaces 7) := by
    cases outcome <;> rfl
  have h₇ : visit 10 7 7 = .ok (one, sameNaNInterfaces 8) := rfl
  have h₈ : visit 10 8 8 = .ok (.ok { ty := .number, dynamic := true }, sameNaNInterfaces 9) := rfl
  have hempty : InterfaceMap.ofSize 10 = sameNaNInterfaces 0 := rfl
  have h₉ : synthForm s (Check.rules s 10) 9 changingNumber (sameNaNInterfaces 0) =
      .ok (one, sameNaNInterfaces 9) := by
    have hkind : s.tree.kind 9 = .ok (.conditional 6 7 8) := rfl
    unfold synthForm
    rw [kindOf_bind hkind]
    refine Eq.trans (Check.bind_run h₆) (Eq.trans (Check.bind_run (hnarrow true)) ?_)
    refine Eq.trans (Check.bind_run (hnarrow false)) (Eq.trans (Check.bind_run h₇) ?_)
    exact Eq.trans (Check.bind_run h₈) rfl
  rw [hempty]
  exact (synth_run rfl h₉).trans rfl

end

/-- The cell is read, for at run time not-a-number does not equal itself. -/
theorem sameNaN_disturbed : ∃ m w w',
    Check.synth ⟨sameNaN, [], {}⟩ 9 changingNumber (.ofSize 10) =
        .ok (.ok (.fixed (.ofNumber 1)), m) ∧ m.errors = [] ∧
      (rules bareHost 5).evaluate ⟨sameNaN, m, {}⟩ 9 ⟨[("d", .signal 0)]⟩ (numberWorld 5) =
        .ok (.ok (.number 5), w) ∧
      (rules bareHost 5).evaluate ⟨sameNaN, m, {}⟩ 9 ⟨[("d", .signal 0)]⟩ (numberWorld 6) =
        .ok (.ok (.number 6), w') :=
  ⟨sameNaNInterfaces 10, _, _, synth_sameNaN, InterfaceMap.errors_eq_nil rfl, rfl, rfl⟩

end ReactiveDoc.Eval
