import ReactiveDoc.Check.Checker
import ReactiveDoc.Proofs.Check.Alike
import ReactiveDoc.Proofs.Env
import ReactiveDoc.Proofs.Text.CloseNames

namespace ReactiveDoc.Check

/-!
# What the check of a node depends on

A node is checked in two settings that have in common the node and all nodes below it.  The
environments look the same to the names used there, and nothing else needs to be alike.

* `SameFor` — environments that look the same to certain names, also after the rules changed them.
* `Common` — what the trees have in common.
* `RulesAlike` — the judgements see no difference at and below such nodes.
* `rules_alike` — so it is at every depth.
* `statement_alike` — and for statements, which bind the same names to the same interfaces.
-/

/-! ### Environments that look the same -/

/-- The names in `N` stand for the same.  Where one of them is not bound, the names that are
    spelled alike are bound in both or in neither. -/
structure SameFor (N : String → Prop) (env env₀ : TypeEnv) : Prop where
  held : ∀ x, N x → env.get? x = env₀.get? x
  close : ∀ x, N x → env.get? x = none → ∀ y, Text.IsClose TypeError.hintDistance x y →
    ((env.get? y).isSome ↔ (env₀.get? y).isSome)

namespace SameFor

variable {N N' : String → Prop} {env env₀ : TypeEnv}

theorem refl (N : String → Prop) (env : TypeEnv) : SameFor N env env :=
  ⟨fun _ _ => rfl, fun _ _ _ _ _ => Iff.rfl⟩

theorem mono (h : SameFor N env env₀) (hN : ∀ x, N' x → N x) : SameFor N' env env₀ :=
  ⟨fun x hx => h.held x (hN x hx), fun x hx => h.close x (hN x hx)⟩

/-- A name has the same interface in both, and if it is not bound the same suggestions. -/
theorem nameInterface (h : SameFor N env env₀) {name : String} (hname : N name) :
    nameInterface name env = nameInterface name env₀ := by
  unfold Check.nameInterface
  rw [← h.held name hname]
  cases hget : env.get? name with
  | some interface => cases interface <;> rfl
  | none =>
    have hnames : Text.closeNames name env.names TypeError.hintDistance =
        Text.closeNames name env₀.names TypeError.hintDistance :=
      Text.closeNames_congr fun y hy => by
        rw [Env.mem_names, Env.mem_names]
        exact h.close name hname hget y hy
    rw [hnames]

/-- Names that are bound on both sides to the same interface. -/
theorem extend (h : SameFor N env env₀) {name : String} (i : Interface)
    (hN : ∀ x, N' x → x = name ∨ N x) : SameFor N' (env.extend name i) (env₀.extend name i) where
  held x hx := by
    rw [Env.get?_extend, Env.get?_extend]
    split
    · rfl
    · rename_i hne
      exact h.held x ((hN x hx).resolve_left (Ne.symm hne))
  close x hx hget y hy := by
    rw [Env.get?_extend] at hget
    split at hget
    · cases hget
    · rename_i hne
      rw [Env.get?_extend, Env.get?_extend]
      split
      · exact Iff.rfl
      · exact h.close x ((hN x hx).resolve_left (Ne.symm hne)) hget y hy

theorem extendAll (h : SameFor N env env₀) (bindings : List (String × Interface))
    (hN : ∀ x, N' x → x ∈ bindings.map Prod.fst ∨ N x) :
    SameFor N' (env.extendAll bindings) (env₀.extendAll bindings) := by
  induction bindings generalizing N env env₀ with
  | nil => exact h.mono fun x hx => (hN x hx).resolve_left List.not_mem_nil
  | cons b rest ih =>
    rw [Env.extendAll_cons, Env.extendAll_cons]
    refine ih (h.extend b.2 fun x hx => hx) fun x hx => ?_
    rcases hN x hx with hmem | hx
    · rcases List.mem_cons.mp hmem with rfl | hmem
      · exact .inr (.inl rfl)
      · exact .inl hmem
    · exact .inr (.inr hx)

theorem map (h : SameFor N env env₀) (f : String → Interface → Interface) :
    SameFor N (env.map f) (env₀.map f) where
  held x hx := by rw [Env.get?_map, Env.get?_map, h.held x hx]
  close x hx hget y hy := by
    rw [Env.get?_map, Option.map_eq_none_iff] at hget
    rw [Env.get?_map, Env.get?_map, Option.isSome_map, Option.isSome_map]
    exact h.close x hx hget y hy

/-- Only a bound name is refined, so no name becomes bound. -/
theorem narrowName (h : SameFor N env env₀) {name : String} (hname : N name) (known : Ty) :
    SameFor N (narrowName env name known) (narrowName env₀ name known) := by
  unfold Check.narrowName
  rw [← h.held name hname]
  split
  · split
    · exact h.extend _ fun x hx => .inr hx
    · exact h
  · exact h

/-- In the body of an arrow its parameters are the same as well. -/
theorem bodyEnv (h : SameFor N env env₀) {params : List Param} {types : List Ty}
    (hlength : params.length = types.length)
    (hN : ∀ x, N' x → x ∈ params.map Param.name ∨ N x) :
    SameFor N' (bodyEnv env params types) (bodyEnv env₀ params types) := by
  refine (h.map fun _ interface => snapshotInterface interface).extendAll _ fun x hx => ?_
  refine (hN x hx).imp_left fun hmem => ?_
  rw [List.map_map]
  show x ∈ (params.zip types).map (Param.name ∘ Prod.fst)
  rwa [← List.map_map, List.map_fst_zip (Nat.le_of_eq hlength)]

end SameFor

/-! ### What two checks have in common -/

/-- What is below a node of a given form.  The names that are used freely satisfy `N`. -/
def Parts (below : (String → Prop) → NodeId → Prop) (N : String → Prop) :
    NodeKind → Prop
  | .identifier name => N name
  | .arrow params body => below (fun x => x ∈ params.map Param.name ∨ N x) body
  | kind => ∀ child ∈ kind.children, below N child

/-- The node and all nodes below it, on at most `depth` levels, are the same in both trees and are
    in `D`.  The names that are used freely there satisfy `N`. -/
def Common (t t₀ : Tree) (D : NodeId → Prop) : Nat → (String → Prop) → NodeId → Prop
  | 0, _, _ => False
  | depth + 1, N, id => D id ∧ ∃ node, t.node id = .ok node ∧ t₀.node id = .ok node ∧
      Parts (Common t t₀ D depth) N node.kind

/-- What two settings need to have in common besides nodes. -/
structure Comparable (s s₀ : Setting) (depth : Nat) : Prop where
  options_eq : s.options = s₀.options
  le_limit : depth ≤ s.tree.depthLimit
  le_limit₀ : depth ≤ s₀.tree.depthLimit

theorem Comparable.of_succ {s s₀ : Setting} {depth : Nat} (h : Comparable s s₀ (depth + 1)) :
    Comparable s s₀ depth :=
  ⟨h.options_eq, Nat.le_of_succ_le h.le_limit, Nat.le_of_succ_le h.le_limit₀⟩

/-- The judgements of two sets of rules see no difference at the nodes `below`. -/
structure RulesAlike (D : NodeId → Prop) (below : (String → Prop) → NodeId → Prop)
    (r r₀ : Rules) : Prop where
  synth : ∀ {N node env env₀}, below N node → SameFor N env env₀ →
    Alike D Eq (r.synth node env) (r₀.synth node env₀)
  check : ∀ {N node env env₀} (expected : Ty), below N node → SameFor N env env₀ →
    Alike D Eq (r.check node env expected) (r₀.check node env₀ expected)
  narrow : ∀ {N node env env₀} (outcome : Bool), below N node → SameFor N env env₀ →
    Alike D (SameFor N) (r.narrow env node outcome) (r₀.narrow env₀ node outcome)

variable {s s₀ : Setting} {D : NodeId → Prop} {N : String → Prop} {env env₀ : TypeEnv}
  {depth : Nat} {node : NodeId}

/-! ### Nodes in common -/

theorem Parts.mono {below below' : (String → Prop) → NodeId → Prop} {kind : NodeKind}
    (h : Parts below N kind) (hbelow : ∀ N x, below N x → below' N x) :
    Parts below' N kind := by
  cases kind with
  | identifier => exact h
  | arrow => exact hbelow _ _ h
  | _ => exact fun child hchild => hbelow _ _ (h child hchild)

namespace Common

theorem mono {t t₀ : Tree} {depth' : Nat} (hle : depth ≤ depth') (h : Common t t₀ D depth N node) :
    Common t t₀ D depth' N node := by
  induction depth generalizing depth' N node with
  | zero => exact h.elim
  | succ depth ih =>
    obtain ⟨depth', rfl⟩ := Nat.exists_eq_add_of_lt hle
    obtain ⟨hD, n, hn, hn₀, hparts⟩ := h
    exact ⟨hD, n, hn, hn₀, hparts.mono fun N x hx => ih (by omega) hx⟩

/-- The form of a node in common. -/
theorem kind {t t₀ : Tree} (h : Common t t₀ D (depth + 1) N node) :
    ∃ kind, t.kind node = .ok kind ∧ t₀.kind node = .ok kind ∧
      Parts (Common t t₀ D depth) N kind := by
  obtain ⟨-, n, hn, hn₀, hparts⟩ := h
  exact ⟨n.kind, by simp [Tree.kind, hn, Except.map], by simp [Tree.kind, hn₀, Except.map], hparts⟩

theorem span {t t₀ : Tree} (h : Common t t₀ D (depth + 1) N node) :
    ∃ span, t.span node = .ok span ∧ t₀.span node = .ok span := by
  obtain ⟨-, n, hn, hn₀, -⟩ := h
  exact ⟨n.span, by simp [Tree.span, hn, Except.map], by simp [Tree.span, hn₀, Except.map]⟩

theorem record (h : Common s.tree s₀.tree D (depth + 1) N node) (interface : Interface) :
    Alike D Eq (record s node interface) (record s₀ node interface) := by
  obtain ⟨span, hspan, hspan₀⟩ := h.span
  exact record_alike h.1 hspan hspan₀ interface

theorem mark (h : Common s.tree s₀.tree D (depth + 1) N node) (interface : Interface) :
    Alike D Eq (mark s node interface) (mark s₀ node interface) :=
  (h.record interface).bind_eq fun _ => alike_pure rfl

end Common

/-! ### Narrowing -/

theorem narrowPlaceWithin_alike {fuel fuel₀ : Nat} {place : NodeId} {known : Ty}
    (hfuel : depth ≤ fuel) (hfuel₀ : depth ≤ fuel₀) (h : Common s.tree s₀.tree D depth N place)
    (henv : SameFor N env env₀) :
    Alike D (SameFor N) (narrowPlaceWithin s env fuel place known)
      (narrowPlaceWithin s₀ env₀ fuel₀ place known) := by
  induction depth generalizing fuel fuel₀ place known with
  | zero => exact h.elim
  | succ depth ih =>
    obtain ⟨fuel, rfl⟩ := Nat.exists_eq_add_of_lt hfuel
    obtain ⟨fuel₀, rfl⟩ := Nat.exists_eq_add_of_lt hfuel₀
    obtain ⟨kind, hkind, hkind₀, hparts⟩ := h.kind
    unfold narrowPlaceWithin
    rw [kindOf_bind hkind, kindOf_bind hkind₀]
    cases kind with
    | identifier name => exact alike_pure (henv.narrowName hparts known)
    | member object property =>
      exact ih (by omega) (by omega) (hparts object List.mem_cons_self)
    | _ => exact alike_pure henv

section

variable {r r₀ : Rules} (hs : Comparable s s₀ depth)
  (hr : RulesAlike D (Common s.tree s₀.tree D depth) r r₀)

include hs in
theorem narrowPlace_alike {place : NodeId} (known : Ty)
    (h : Common s.tree s₀.tree D depth N place) (henv : SameFor N env env₀) :
    Alike D (SameFor N) (narrowPlace s env place known) (narrowPlace s₀ env₀ place known) :=
  narrowPlaceWithin_alike hs.le_limit hs.le_limit₀ h henv

include hs in
theorem narrowSide_alike {place : NodeId} (other : Ty) (equal : Bool)
    (h : Common s.tree s₀.tree D depth N place) (henv : SameFor N env env₀) :
    Alike D (SameFor N) (narrowSide s env place other equal)
      (narrowSide s₀ env₀ place other equal) := by
  unfold narrowSide
  split
  · exact alike_pure henv
  · split
    · exact narrowPlace_alike hs _ h henv
    · split
      · exact narrowPlace_alike hs _ h henv
      · exact alike_pure henv

/-- The operand of a `typeof` test is a part of one of the two sides. -/
theorem Common.typeofTest? {t t₀ : Tree} {left right : NodeKind} {operand : NodeId} {text : String}
    (hleft : Parts (Common t t₀ D depth) N left) (hright : Parts (Common t t₀ D depth) N right)
    (h : typeofTest? left right = some (operand, text)) : Common t t₀ D depth N operand := by
  unfold Check.typeofTest? at h
  split at h
  · cases h
    exact hleft operand List.mem_cons_self
  · cases h
    exact hright operand List.mem_cons_self
  · cases h

include hs hr in
theorem narrowComparison_alike {left right : NodeId} (loose equal : Bool)
    (hleft : Common s.tree s₀.tree D depth N left) (hright : Common s.tree s₀.tree D depth N right)
    (henv : SameFor N env env₀) :
    Alike D (SameFor N) (narrowComparison s r env loose left right equal)
      (narrowComparison s₀ r₀ env₀ loose left right equal) := by
  cases depth with
  | zero => exact hleft.elim
  | succ depth =>
    obtain ⟨leftKind, hkind, hkind₀, hleftParts⟩ := hleft.kind
    obtain ⟨rightKind, hkind', hkind'₀, hrightParts⟩ := hright.kind
    unfold narrowComparison
    rw [kindOf_bind hkind, kindOf_bind hkind', kindOf_bind hkind₀, kindOf_bind hkind'₀]
    cases htest : typeofTest? leftKind rightKind with
    | some test =>
      obtain ⟨operand, text⟩ := test
      cases htext : Ty.ofTypeofName? text with
      | some ty =>
        have hoperand := Common.typeofTest? hleftParts hrightParts htest
        simp only [htext]
        exact narrowPlace_alike hs _ (hoperand.mono (Nat.le_succ depth)) henv
      | none =>
        simp only [htext]
        exact alike_pure henv
    | none =>
      refine (hr.synth hleft henv).bind_eq fun leftInterface => ?_
      refine (hr.synth hright henv).bind_eq fun rightInterface => ?_
      refine (narrowSide_alike hs _ equal hleft henv).bind fun env env₀ henv => ?_
      exact narrowSide_alike hs _ equal hright henv

include hr in
theorem narrowTest_alike (hs : Comparable s s₀ (depth + 1)) (outcome : Bool)
    (h : Common s.tree s₀.tree D (depth + 1) N node) (henv : SameFor N env env₀) :
    Alike D (SameFor N) (narrowTest s r env node outcome) (narrowTest s₀ r₀ env₀ node outcome) := by
  obtain ⟨kind, hkind, hkind₀, hparts⟩ := h.kind
  have htruth := narrowPlace_alike hs (if outcome then Ty.notFalsy else Ty.notTruthy) h henv
  unfold narrowTest
  rw [kindOf_bind hkind, kindOf_bind hkind₀]
  cases kind with
  | unary op argument =>
    cases op with
    | not => exact hr.narrow _ (hparts argument List.mem_cons_self) henv
    | _ => exact htruth
  | logical op left right =>
    have hleft := hparts left (by simp [NodeKind.children])
    have hright := hparts right (by simp [NodeKind.children])
    cases op with
    | and =>
      cases outcome with
      | true => exact (hr.narrow true hleft henv).bind fun _ _ henv => hr.narrow true hright henv
      | false => exact htruth
    | or =>
      cases outcome with
      | true => exact htruth
      | false => exact (hr.narrow false hleft henv).bind fun _ _ henv => hr.narrow false hright henv
  | binary op left right =>
    simp only
    split
    · exact narrowComparison_alike hs.of_succ hr _ _ (hparts left (by simp [NodeKind.children]))
        (hparts right (by simp [NodeKind.children])) henv
    · exact htruth
  | _ => exact htruth

/-! ### Typing from the parts -/

include hr in
theorem visitAll_alike {nodes : List NodeId}
    (h : ∀ node ∈ nodes, Common s.tree s₀.tree D depth N node) (henv : SameFor N env env₀) :
    Alike D Eq (visitAll r nodes env) (visitAll r₀ nodes env₀) :=
  .forM fun node hnode => (hr.synth (h node hnode) henv).bind_eq fun _ => alike_pure rfl

include hr in
theorem synthAll_alike {nodes : List NodeId}
    (h : ∀ node ∈ nodes, Common s.tree s₀.tree D depth N node) (henv : SameFor N env env₀) :
    Alike D Eq (nodes.mapM fun node => r.synth node env)
      (nodes.mapM fun node => r₀.synth node env₀) :=
  .mapM fun node hnode => hr.synth (h node hnode) henv

include hr in
theorem addProperty_alike {property : NodeId} (parts : ObjectParts)
    (h : Common s.tree s₀.tree D depth N property) (henv : SameFor N env env₀) :
    Alike D Eq (addProperty s r env parts property) (addProperty s₀ r₀ env₀ parts property) := by
  cases depth with
  | zero => exact h.elim
  | succ depth =>
    obtain ⟨kind, hkind, hkind₀, hparts⟩ := h.kind
    obtain ⟨span, hspan, hspan₀⟩ := h.span
    unfold addProperty
    rw [kindOf_bind hkind, kindOf_bind hkind₀]
    cases kind with
    | property key value =>
      have hvalue := (hparts value List.mem_cons_self).mono (Nat.le_succ depth)
      refine (hr.synth hvalue henv).bind_eq fun interface => ?_
      split
      · rw [liftM_bind hspan, liftM_bind hspan₀]
        exact (h.mark _).bind_eq fun _ => alike_pure rfl
      · exact (h.record _).bind_eq fun _ => alike_pure rfl
    | _ => exact (h.mark _).bind_eq fun _ => alike_pure rfl

include hr in
theorem synthObject_alike {properties : List NodeId}
    (h : ∀ node ∈ properties, Common s.tree s₀.tree D depth N node) (henv : SameFor N env env₀) :
    Alike D Eq (synthObject s r properties env) (synthObject s₀ r₀ properties env₀) := by
  have hfold : Alike D Eq (properties.foldlM (addProperty s r env) {})
      (properties.foldlM (addProperty s₀ r₀ env₀) {}) :=
    .foldlM (fun parts _ heq property hproperty =>
      heq ▸ addProperty_alike hr parts (h property hproperty) henv) rfl
  exact hfold.bind_eq fun _ => alike_pure rfl

include hr in
theorem synthLogical_alike (op : LogicalOp) {left right : NodeId}
    (hleft : Common s.tree s₀.tree D depth N left) (hright : Common s.tree s₀.tree D depth N right)
    (henv : SameFor N env env₀) :
    Alike D Eq (synthLogical r op left right env) (synthLogical r₀ op left right env₀) := by
  refine (hr.synth hleft henv).bind_eq fun leftInterface => ?_
  refine (hr.narrow _ hleft henv).bind fun _ _ hnarrowed => ?_
  exact (hr.synth hright hnarrowed).bind_eq fun _ => alike_pure rfl

include hr in
theorem synthConditional_alike {test consequent alternate : NodeId}
    (htest : Common s.tree s₀.tree D depth N test)
    (hconsequent : Common s.tree s₀.tree D depth N consequent)
    (halternate : Common s.tree s₀.tree D depth N alternate) (henv : SameFor N env env₀) :
    Alike D Eq (synthConditional r test consequent alternate env)
      (synthConditional r₀ test consequent alternate env₀) := by
  refine (hr.synth htest henv).bind_eq fun testInterface => ?_
  refine (hr.narrow true htest henv).bind fun _ _ hwhenTrue => ?_
  refine (hr.narrow false htest henv).bind fun _ _ hwhenFalse => ?_
  refine (hr.synth hconsequent hwhenTrue).bind_eq fun _ => ?_
  exact (hr.synth halternate hwhenFalse).bind_eq fun _ => alike_pure rfl

include hr in
theorem synthCall_alike {callee : NodeId} {arguments : List NodeId}
    (hcallee : Common s.tree s₀.tree D depth N callee)
    (harguments : ∀ node ∈ arguments, Common s.tree s₀.tree D depth N node)
    (henv : SameFor N env env₀) :
    Alike D Eq (synthCall r callee arguments env) (synthCall r₀ callee arguments env₀) := by
  have hvisit := visitAll_alike hr harguments henv
  have hsynth := synthAll_alike hr harguments henv
  refine (hr.synth hcallee henv).bind_eq fun calleeInterface => ?_
  split
  · exact hvisit.bind_eq fun _ => alike_pure rfl
  · split
    · rename_i params result _
      split
      · refine Alike.bind_eq (.mapM fun pair hpair => ?_) fun _ => alike_pure rfl
        exact hr.check _ (harguments _ (List.of_mem_zip hpair).1) henv
      · exact hvisit.bind_eq fun _ => alike_pure rfl
    · exact hsynth.bind_eq fun _ => alike_pure rfl
    · exact hsynth.bind_eq fun _ => alike_pure rfl
    · exact hsynth.bind_eq fun _ => alike_pure rfl
    · exact hvisit.bind_eq fun _ => alike_pure rfl

include hs hr in
theorem synthArrow_alike {params : List Param} {body : NodeId}
    (hbody : Common s.tree s₀.tree D depth (fun x => x ∈ params.map Param.name ∨ N x) body)
    (henv : SameFor N env env₀) :
    Alike D Eq (synthArrow s r params body env) (synthArrow s₀ r₀ params body env₀) := by
  have hlength : params.length = (params.map declaredType).length :=
    (List.length_map declaredType).symm
  unfold synthArrow
  refine (hr.synth hbody (henv.bodyEnv hlength fun _ hx => hx)).bind_eq fun _ => ?_
  rw [hs.options_eq]
  exact alike_pure rfl

theorem describePlaceWithin_alike {fuel fuel₀ : Nat} {place : NodeId} (hfuel : depth ≤ fuel)
    (hfuel₀ : depth ≤ fuel₀) (h : Common s.tree s₀.tree D depth N place) :
    Alike D Eq (describePlaceWithin s fuel place) (describePlaceWithin s₀ fuel₀ place) := by
  induction depth generalizing fuel fuel₀ place with
  | zero => exact h.elim
  | succ depth ih =>
    obtain ⟨fuel, rfl⟩ := Nat.exists_eq_add_of_lt hfuel
    obtain ⟨fuel₀, rfl⟩ := Nat.exists_eq_add_of_lt hfuel₀
    obtain ⟨kind, hkind, hkind₀, hparts⟩ := h.kind
    unfold describePlaceWithin
    rw [kindOf_bind hkind, kindOf_bind hkind₀]
    cases kind with
    | identifier name => exact alike_pure rfl
    | member object property =>
      refine (ih ?_ ?_ (hparts object List.mem_cons_self)).bind_eq fun _ => alike_pure rfl
      · omega
      · omega
    | index object index =>
      refine (ih ?_ ?_ (hparts object List.mem_cons_self)).bind_eq fun _ => alike_pure rfl
      · omega
      · omega
    | _ => exact alike_pure rfl

include hs hr in
theorem synthAssignment_alike {target value : NodeId}
    (htarget : Common s.tree s₀.tree D depth N target)
    (hvalue : Common s.tree s₀.tree D depth N value) (henv : SameFor N env env₀) :
    Alike D Eq (synthAssignment s r target value env) (synthAssignment s₀ r₀ target value env₀) := by
  cases depth with
  | zero => exact htarget.elim
  | succ depth =>
    obtain ⟨kind, hkind, hkind₀, -⟩ := htarget.kind
    have hdescribe := describePlaceWithin_alike hs.le_limit hs.le_limit₀ htarget
    refine (hr.synth htarget henv).bind_eq fun targetInterface => ?_
    split
    · exact (hr.synth hvalue henv).bind_eq fun _ => alike_pure rfl
    · rw [kindOf_bind hkind, kindOf_bind hkind₀]
      split
      · exact (hr.check _ hvalue henv).bind_eq fun _ => alike_pure rfl
      · refine (hr.synth hvalue henv).bind_eq fun _ => ?_
        exact hdescribe.bind_eq fun _ => alike_pure rfl

include hr in
theorem synthForm_alike (hs : Comparable s s₀ (depth + 1))
    (h : Common s.tree s₀.tree D (depth + 1) N node) (henv : SameFor N env env₀) :
    Alike D Eq (synthForm s r node env) (synthForm s₀ r₀ node env₀) := by
  obtain ⟨kind, hkind, hkind₀, hparts⟩ := h.kind
  unfold synthForm
  rw [kindOf_bind hkind, kindOf_bind hkind₀]
  -- Each form visits the same parts in environments that agree on what these use.
  cases kind with
  | undefined | null | literal | constBinding | letBinding | importing => exact alike_pure rfl
  | identifier name =>
    simp only
    rw [henv.nameInterface hparts]
    exact alike_pure rfl
  | object properties => exact synthObject_alike hr hparts henv
  | property key value =>
    exact (hr.synth (hparts value List.mem_cons_self) henv).bind_eq fun _ => alike_pure rfl
  | array elements => exact (synthAll_alike hr hparts henv).bind_eq fun _ => alike_pure rfl
  | unary op argument =>
    exact (hr.synth (hparts argument List.mem_cons_self) henv).bind_eq fun _ => alike_pure rfl
  | binary op left right =>
    refine (hr.synth (hparts left (by simp [NodeKind.children])) henv).bind_eq fun _ => ?_
    refine (hr.synth (hparts right (by simp [NodeKind.children])) henv).bind_eq fun _ => ?_
    exact alike_pure rfl
  | logical op left right =>
    exact synthLogical_alike hr op (hparts left (by simp [NodeKind.children]))
      (hparts right (by simp [NodeKind.children])) henv
  | conditional test consequent alternate =>
    exact synthConditional_alike hr (hparts test (by simp [NodeKind.children]))
      (hparts consequent (by simp [NodeKind.children]))
      (hparts alternate (by simp [NodeKind.children])) henv
  | member object property =>
    exact (hr.synth (hparts object List.mem_cons_self) henv).bind_eq fun _ => alike_pure rfl
  | index object index =>
    refine (hr.synth (hparts object (by simp [NodeKind.children])) henv).bind_eq fun _ => ?_
    refine (hr.synth (hparts index (by simp [NodeKind.children])) henv).bind_eq fun _ => ?_
    exact alike_pure rfl
  | call callee arguments =>
    exact synthCall_alike hr (hparts callee List.mem_cons_self)
      (fun a ha => hparts a (List.mem_cons_of_mem callee ha)) henv
  | arrow params body => exact synthArrow_alike hs.of_succ hr hparts henv
  | assignment target value =>
    exact synthAssignment_alike hs.of_succ hr (hparts target (by simp [NodeKind.children]))
      (hparts value (by simp [NodeKind.children])) henv
  | element tag attributes children =>
    exact (synthAll_alike hr hparts henv).bind_eq fun _ => alike_pure rfl
  | ascription expression written =>
    exact (hr.check _ (hparts expression List.mem_cons_self) henv).bind_eq fun _ => alike_pure rfl

include hr in
theorem synthNode_alike (hs : Comparable s s₀ (depth + 1))
    (h : Common s.tree s₀.tree D (depth + 1) N node) (henv : SameFor N env env₀) :
    Alike D Eq (synthNode s r node env) (synthNode s₀ r₀ node env₀) :=
  heldOr_alike h.1 ((synthForm_alike hr hs h henv).bind_eq fun interface => h.record interface)

/-! ### Typing against an expected type -/

include hr in
theorem checkTuple_alike {elements : List NodeId} (items : List Ty)
    (h : ∀ node ∈ elements, Common s.tree s₀.tree D depth N node) (henv : SameFor N env env₀) :
    Alike D Eq (checkTuple r elements env items) (checkTuple r₀ elements env₀ items) := by
  unfold checkTuple
  split
  · refine Alike.bind_eq (.mapM fun pair hpair => ?_) fun _ => alike_pure rfl
    exact hr.check _ (h _ (List.of_mem_zip hpair).1) henv
  · exact (visitAll_alike hr h henv).bind_eq fun _ => alike_pure rfl

include hr in
theorem checkProperty_alike {property : NodeId} (fields : List (Field Ty)) (seen : CheckedKeys)
    (h : Common s.tree s₀.tree D depth N property) (henv : SameFor N env env₀) :
    Alike D Eq (checkProperty s r env fields seen property)
      (checkProperty s₀ r₀ env₀ fields seen property) := by
  cases depth with
  | zero => exact h.elim
  | succ depth =>
    obtain ⟨kind, hkind, hkind₀, hparts⟩ := h.kind
    obtain ⟨span, hspan, hspan₀⟩ := h.span
    unfold checkProperty
    rw [kindOf_bind hkind, kindOf_bind hkind₀]
    cases kind with
    | property key value =>
      have hvalue := (hparts value List.mem_cons_self).mono (Nat.le_succ depth)
      simp only
      split
      · refine (hr.synth hvalue henv).bind_eq fun _ => ?_
        rw [liftM_bind hspan, liftM_bind hspan₀]
        exact (h.mark _).bind_eq fun _ => alike_pure rfl
      · split
        · refine (hr.check _ hvalue henv).bind_eq fun _ => ?_
          exact (h.record _).bind_eq fun _ => alike_pure rfl
        · refine (hr.synth hvalue henv).bind_eq fun _ => ?_
          exact (h.record _).bind_eq fun _ => alike_pure rfl
    | _ => exact (h.mark _).bind_eq fun _ => alike_pure rfl

include hr in
theorem checkObject_alike {properties : List NodeId} (fields : List (Field Ty))
    (h : ∀ node ∈ properties, Common s.tree s₀.tree D depth N node) (henv : SameFor N env env₀) :
    Alike D Eq (checkObject s r properties env fields)
      (checkObject s₀ r₀ properties env₀ fields) := by
  have hfold : Alike D Eq (properties.foldlM (checkProperty s r env fields) {})
      (properties.foldlM (checkProperty s₀ r₀ env₀ fields) {}) :=
    .foldlM (fun seen _ heq property hproperty =>
      heq ▸ checkProperty_alike hr fields seen (h property hproperty) henv) rfl
  exact hfold.bind_eq fun _ => alike_pure rfl

include hr in
theorem checkArrow_alike (hs : Comparable s s₀ (depth + 1)) {params : List Param} {body : NodeId}
    (expected : List Ty) (result : Ty) (h : Common s.tree s₀.tree D (depth + 1) N node)
    (hbody : Common s.tree s₀.tree D depth (fun x => x ∈ params.map Param.name ∨ N x) body)
    (henv : SameFor N env env₀) :
    Alike D Eq (checkArrow s r node params body env expected result)
      (checkArrow s₀ r₀ node params body env₀ expected result) := by
  unfold checkArrow
  split
  · rename_i hlength
    refine (hr.check result hbody (henv.bodyEnv ?_ fun _ hx => hx)).bind_eq fun _ => alike_pure rfl
    rw [List.length_map, List.length_zip, hlength, Nat.min_self]
  · exact (synthForm_alike hr hs h henv).bind_eq fun _ => alike_pure rfl

include hr in
theorem checkConditional_alike {test consequent alternate : NodeId} (expected : Ty)
    (htest : Common s.tree s₀.tree D depth N test)
    (hconsequent : Common s.tree s₀.tree D depth N consequent)
    (halternate : Common s.tree s₀.tree D depth N alternate) (henv : SameFor N env env₀) :
    Alike D Eq (checkConditional r test consequent alternate env expected)
      (checkConditional r₀ test consequent alternate env₀ expected) := by
  refine (hr.synth htest henv).bind_eq fun testInterface => ?_
  refine (hr.narrow true htest henv).bind fun _ _ hwhenTrue => ?_
  refine (hr.narrow false htest henv).bind fun _ _ hwhenFalse => ?_
  refine (hr.check expected hconsequent hwhenTrue).bind_eq fun _ => ?_
  exact (hr.check expected halternate hwhenFalse).bind_eq fun _ => alike_pure rfl

include hr in
theorem checkForm_alike (hs : Comparable s s₀ (depth + 1)) (expected : Ty)
    (h : Common s.tree s₀.tree D (depth + 1) N node) (henv : SameFor N env env₀) :
    Alike D Eq (checkForm s r node env expected) (checkForm s₀ r₀ node env₀ expected) := by
  obtain ⟨kind, hkind, hkind₀, hparts⟩ := h.kind
  unfold checkForm
  rw [kindOf_bind hkind, kindOf_bind hkind₀]
  split
  · exact checkTuple_alike hr _ hparts henv
  · refine Alike.bind_eq (Alike.mapM fun e he => ?_) fun _ => alike_pure rfl
    exact hr.check _ (hparts e he) henv
  · exact checkObject_alike hr _ hparts henv
  · exact checkArrow_alike hr hs _ _ h hparts henv
  · exact checkConditional_alike hr _ (hparts _ (by simp [NodeKind.children]))
      (hparts _ (by simp [NodeKind.children])) (hparts _ (by simp [NodeKind.children])) henv
  · exact (synthForm_alike hr hs h henv).bind_eq fun _ => alike_pure rfl

include hr in
theorem checkNode_alike (hs : Comparable s s₀ (depth + 1)) (expected : Ty)
    (h : Common s.tree s₀.tree D (depth + 1) N node) (henv : SameFor N env env₀) :
    Alike D Eq (checkNode s r node env expected) (checkNode s₀ r₀ node env₀ expected) :=
  heldOr_alike h.1
    ((checkForm_alike hr hs expected h henv).bind_eq fun interface => h.record interface)

end

/-! ### All judgements -/

/-- At every depth that the nodes in common need, the judgements see no difference there. -/
theorem rules_alike {fuel fuel₀ : Nat} (hs : Comparable s s₀ depth) (hfuel : depth ≤ fuel)
    (hfuel₀ : depth ≤ fuel₀) :
    RulesAlike D (Common s.tree s₀.tree D depth) (rules s fuel) (rules s₀ fuel₀) := by
  induction depth generalizing fuel fuel₀ with
  | zero => exact ⟨fun h => h.elim, fun _ h => h.elim, fun _ h => h.elim⟩
  | succ depth ih =>
    obtain ⟨fuel, rfl⟩ := Nat.exists_eq_add_of_lt hfuel
    obtain ⟨fuel₀, rfl⟩ := Nat.exists_eq_add_of_lt hfuel₀
    have hr := ih hs.of_succ (Nat.le_add_right depth fuel) (Nat.le_add_right depth fuel₀)
    exact ⟨synthNode_alike hr hs, checkNode_alike hr hs, fun outcome => narrowTest_alike hr hs outcome⟩

end ReactiveDoc.Check
