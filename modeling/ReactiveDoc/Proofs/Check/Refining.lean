import Mathlib.Tactic.IntervalCases
import ReactiveDoc.Proofs.Check.Covered
import ReactiveDoc.Proofs.Env

namespace ReactiveDoc.Tree

/-!
# Narrowing touches what the test mentions

* `Tree.Mentions` — a name is the root of an identifier or chain of fields in an expression.
* `Check.Synthesized` — an expression has an interface, and so has what is visited below it.
* `Check.Synthesized.within` — a walk down such an expression ends within the depth of the tree.
* `Check.Refines` — names keep all but their types, and those of other names keep these too.
* `Check.narrow_frame` — narrowing by a synthesized test does no more than that.
-/

/-- The name at the root of an identifier or chain of fields. -/
inductive RootName (t : Tree) (name : String) : NodeId → Prop
  | identifier {x : NodeId} (hkind : t.kind x = .ok (.identifier name)) : RootName t name x
  | member {x object : NodeId} {property : String} (hkind : t.kind x = .ok (.member object property))
      (hobject : RootName t name object) : RootName t name x

/-- The name is the root of some identifier or chain of fields at or below the node. -/
def Mentions (t : Tree) (node : NodeId) (name : String) : Prop :=
  ∃ place, t.AtOrBelow node place ∧ t.RootName name place

variable {t : Tree} {x y : NodeId} {name : String}

theorem RootName.mentions (h : t.RootName name x) : t.Mentions x name := ⟨x, .refl, h⟩

theorem Mentions.of_child (hchild : t.ChildOf x y) (h : t.Mentions y name) : t.Mentions x name := by
  obtain ⟨place, hplace, hroot⟩ := h
  exact ⟨place, .head hchild hplace, hroot⟩

end ReactiveDoc.Tree

namespace ReactiveDoc.Check

variable {t : Tree} {s : Setting} {m m' : InterfaceMap} {x y child left right test : NodeId}
  {kind : NodeKind} {env env' env'' : TypeEnv} {named named' : String → Prop}

/-! ### Synthesized expressions -/

/-- The second node is a part of the first one that the checker visits with it. -/
def Part (t : Tree) (x child : NodeId) : Prop :=
  ∃ kind, t.kind x = .ok kind ∧ kind.isStatement = false ∧ child ∈ kind.children ∧
    ∀ properties, kind = .object properties → ∃ key value, t.kind child = .ok (.property key value)

theorem Part.childOf (h : Part t x child) : t.ChildOf x child := by
  obtain ⟨kind, hkind, -, hchild, -⟩ := h
  exact ⟨kind, hkind, hchild⟩

/-- The expression has an interface, and so have its parts. -/
inductive Synthesized (t : Tree) (m : InterfaceMap) : NodeId → Prop
  | intro {x : NodeId} (hx : x < t.size) (hrecorded : Recorded m x)
      (hparts : ∀ child, Part t x child → Synthesized t m child) : Synthesized t m x

namespace Synthesized

theorem lt_size (h : Synthesized t m x) : x < t.size := by
  cases h with
  | intro hx _ _ => exact hx

theorem recorded (h : Synthesized t m x) : Recorded m x := by
  cases h with
  | intro _ hrecorded _ => exact hrecorded

theorem part (h : Synthesized t m x) (hpart : Part t x child) : Synthesized t m child := by
  cases h with
  | intro _ _ hparts => exact hparts child hpart

/-- No synthesized expression is a part of itself. -/
theorem acyclic (h : Synthesized t m x) : ¬ Relation.TransGen (Part t) x x := by
  induction h with
  | intro _ _ _ ih =>
    intro hcycle
    obtain ⟨child, hpart, hrest⟩ := Relation.TransGen.head'_iff.mp hcycle
    exact ih child hpart (.tail' hrest hpart)

/-- What holds of an expression at a depth if it holds of its parts at one less holds of a
    synthesized one at the depth of the tree. -/
theorem within {P : Nat → NodeId → Prop}
    (hstep : ∀ depth x, Synthesized t m x → (∀ child, Part t x child → P depth child) →
      P (depth + 1) x) (h : Synthesized t m x) : P t.depthLimit x := by
  -- Each step down meets a node that is not among those on the way to it.
  have hpaths (depth : Nat) : ∀ (x : NodeId) (path : List NodeId), Synthesized t m x → path.Nodup →
      (∀ y ∈ path, y < t.size ∧ Relation.TransGen (Part t) y x) →
      depth + path.length = t.size + 1 → P depth x := by
    induction depth with
    | zero =>
      intro x path _ hpath habove hlength
      have hle := Tree.length_le_size (t := t) hpath fun y hy => (habove y hy).1
      omega
    | succ depth ih =>
      intro x path h hpath habove hlength
      refine hstep depth x h fun child hpart => ih child (x :: path) (h.part hpart) ?_ ?_ ?_
      · exact List.nodup_cons.mpr ⟨fun hmem => h.acyclic (habove x hmem).2, hpath⟩
      · intro y hy
        rcases List.mem_cons.mp hy with rfl | hy
        · exact ⟨h.lt_size, .single hpart⟩
        · exact ⟨(habove y hy).1, (habove y hy).2.tail hpart⟩
      · rw [List.length_cons]
        omega
  exact hpaths _ x [] h .nil (fun _ hy => nomatch hy) rfl

end Synthesized

/-- Where everything is recorded that is visited, the expression is synthesized. -/
theorem synthesized_of_visited (ht : t.TreeShaped) (hx : x < t.size)
    (hrecorded : ∀ y, Visited t x y → Recorded m y) : Synthesized t m x := by
  obtain ⟨nodes, hnodes⟩ := ht.exists_subtree hx
  -- The induction is on the walk, which ends; the root of the visit stays.
  have hwalk (fuel : Nat) : ∀ (y : NodeId) (nodes : List NodeId),
      t.subtreeWithin fuel y = .ok nodes → Entered t x y → Synthesized t m y := by
    induction fuel with
    | zero =>
      intro y nodes h
      cases h
    | succ fuel ih =>
      intro y nodes h hentered
      obtain ⟨ids, hids, h⟩ := Except.bind_eq_ok_iff.mp h
      obtain ⟨below, hbelow, -⟩ := Except.bind_eq_ok_iff.mp h
      obtain ⟨kind, hkind, rfl⟩ := Tree.kind_of_children hids
      refine .intro (Tree.lt_size_of_kind hkind) (hrecorded y (.inl hentered)) ?_
      rintro child ⟨kind', hkind', hexpression, hchild, hproperty⟩
      obtain rfl := Except.ok.inj (hkind.symm.trans hkind')
      obtain ⟨part, -, hpart⟩ := exists_right_of_mem (mapM_eq_ok_iff.mp hbelow) hchild
      exact ih child part hpart (.child hentered hkind hexpression hchild hproperty)
  exact hwalk _ x nodes hnodes .root

/-- The check of a tree leaves its root synthesized. -/
theorem synthesized_of_synth (ht : s.tree.TreeShaped) (hx : x < s.tree.size)
    (hfresh : ∀ y, s.tree.AtOrBelow x y → m.get? y = none) {i : Interface}
    (h : synth s x env m = .ok (i, m')) : Synthesized s.tree m' x := by
  obtain ⟨i', m'', hrun, -, hcovered⟩ := synth_covered ht hx hfresh env
  cases h.symm.trans hrun
  refine synthesized_of_visited ht hx fun y hy => ?_
  have hbelow := hy.atOrBelow
  exact existsUnique_get?_iff.mp ((hcovered.recorded_iff y hbelow).mpr ((visited_iff ht hbelow).mp hy))

/-- A node that has an interface is not looked at again. -/
theorem synth_run_of_held {i : Interface} (h : m.get? x = some i) (depth : Nat) (env : TypeEnv) :
    (rules s (depth + 1)).synth x env m = .ok (i, m) := by
  show synthNode s (rules s depth) x env m = _
  have hget : (get : CheckM InterfaceMap) m = .ok (m, m) := rfl
  unfold synthNode
  rw [bind_run hget, h]
  rfl

theorem synth_run_of_recorded (h : Recorded m x) (depth : Nat) (env : TypeEnv) :
    ∃ i, (rules s (depth + 1)).synth x env m = .ok (i, m) := by
  obtain ⟨i, hi⟩ := h
  exact ⟨i, synth_run_of_held hi depth env⟩

/-! ### Refinements -/

/-- A name keeps what it stands for, or a typing that is not of a cell gets another type. -/
inductive Refined : Option Interface → Option Interface → Prop
  | same {i? : Option Interface} : Refined i? i?
  | narrowed {typing : Typing} (hcell : cell? typing.ty = none) (ty : Ty) :
      Refined (some (.ok typing)) (some (.ok { typing with ty }))

theorem Refined.trans {i? j? k? : Option Interface} (h : Refined i? j?) (h' : Refined j? k?) :
    Refined i? k? := by
  cases h with
  | same => exact h'
  | narrowed hcell ty =>
    cases h' with
    | same => exact .narrowed hcell ty
    | narrowed _ ty' => exact .narrowed hcell ty'

theorem Refined.isSome_iff {i? j? : Option Interface} (h : Refined i? j?) : j?.isSome ↔ i?.isSome := by
  cases h with
  | same => rfl
  | narrowed => rfl

/-- From one environment to the other the names in `named` have been refined, and no others. -/
structure Refines (named : String → Prop) (env env' : TypeEnv) : Prop where
  refined : ∀ name, Refined (env.get? name) (env'.get? name)
  frame : ∀ name, ¬ named name → env'.get? name = env.get? name

namespace Refines

theorem refl (named : String → Prop) (env : TypeEnv) : Refines named env env :=
  ⟨fun _ => .same, fun _ _ => rfl⟩

theorem trans (h : Refines named env env') (h' : Refines named env' env'') :
    Refines named env env'' :=
  ⟨fun name => (h.refined name).trans (h'.refined name),
    fun name hname => (h'.frame name hname).trans (h.frame name hname)⟩

theorem mono (h : Refines named env env') (hnamed : ∀ name, named name → named' name) :
    Refines named' env env' :=
  ⟨h.refined, fun name hname => h.frame name fun hin => hname (hnamed name hin)⟩

theorem mem_names_iff (h : Refines named env env') (name : String) :
    name ∈ env'.names ↔ name ∈ env.names := by
  rw [Env.mem_names, Env.mem_names]
  exact (h.refined name).isSome_iff

theorem failed (h : Refines named env env') {name : String} {e : TypeError}
    (he : env.get? name = some (.error e)) : env'.get? name = some (.error e) := by
  have hrefined := h.refined name
  rw [he] at hrefined
  generalize env'.get? name = i? at hrefined
  cases hrefined
  rfl

theorem cell (h : Refines named env env') {name : String} {typing : Typing}
    (htyping : env.get? name = some (.ok typing)) (hcell : (cell? typing.ty).isSome) :
    env'.get? name = some (.ok typing) := by
  have hrefined := h.refined name
  rw [htyping] at hrefined
  generalize env'.get? name = i? at hrefined
  cases hrefined with
  | same => rfl
  | narrowed hnone ty =>
    rw [hnone] at hcell
    cases hcell

theorem typing (h : Refines named env env') {name : String} {typing : Typing}
    (htyping : env.get? name = some (.ok typing)) :
    ∃ ty, env'.get? name = some (.ok { typing with ty }) := by
  have hrefined := h.refined name
  rw [htyping] at hrefined
  generalize env'.get? name = i? at hrefined
  cases hrefined with
  | same => exact ⟨typing.ty, rfl⟩
  | narrowed _ ty => exact ⟨ty, rfl⟩

end Refines

/-! ### Narrowing -/

theorem narrowName_refines (env : TypeEnv) (name : String) (known : Ty) :
    Refines (· = name) env (narrowName env name known) := by
  unfold narrowName
  split
  next typing htyping =>
    split
    next hcell =>
      refine ⟨fun x => ?_, fun x hx => ?_⟩
      · rw [Env.get?_extend]
        split
        next heq =>
          rw [← heq, htyping]
          exact .narrowed (Option.isNone_iff_eq_none.mp hcell) _
        next => exact .same
      · rw [Env.get?_extend, if_neg (Ne.symm hx)]
    next => exact .refl _ env
  next => exact .refl _ env

/-- The walk down a place refines the name at its root. -/
theorem narrowPlace_run (h : Synthesized s.tree m x) (env : TypeEnv) (known : Ty) :
    ∃ env', narrowPlace s env x known m = .ok (env', m) ∧
      Refines (fun name => s.tree.RootName name x) env env' := by
  refine h.within (P := fun depth x => ∀ known, ∃ env',
    narrowPlaceWithin s env depth x known m = .ok (env', m) ∧
      Refines (fun name => s.tree.RootName name x) env env') ?_ known
  intro depth x hx ih known
  obtain ⟨kind, hkind⟩ := Tree.exists_kind_of_lt hx.lt_size
  unfold narrowPlaceWithin
  rw [kindOf_bind hkind]
  cases kind with
  | identifier name =>
    refine ⟨_, rfl, (narrowName_refines env name known).mono ?_⟩
    rintro _ rfl
    exact .identifier hkind
  | member object property =>
    have hpart : Part s.tree x object := by
      refine ⟨_, hkind, rfl, List.mem_cons_self, fun _ heq => ?_⟩
      cases heq
    obtain ⟨env', hrun, hrefines⟩ := ih object hpart (.object [⟨property, known⟩])
    exact ⟨env', hrun, hrefines.mono fun _ hroot => .member hkind hroot⟩
  | _ => exact ⟨env, rfl, .refl _ env⟩

theorem narrowSide_run (h : Synthesized s.tree m x) (env : TypeEnv) (other : Ty) (equal : Bool) :
    ∃ env', narrowSide s env x other equal m = .ok (env', m) ∧
      Refines (fun name => s.tree.RootName name x) env env' := by
  unfold narrowSide
  split
  · exact ⟨env, rfl, .refl _ env⟩
  · split
    · exact narrowPlace_run h env other
    · split
      · exact narrowPlace_run h env (.complement other)
      · exact ⟨env, rfl, .refl _ env⟩

theorem typeofTest?_cases {leftKind rightKind : NodeKind} {operand : NodeId} {kind : String}
    (h : typeofTest? leftKind rightKind = some (operand, kind)) :
    leftKind = .unary .typeof operand ∧ rightKind = .literal (.string kind) ∨
      leftKind = .literal (.string kind) ∧ rightKind = .unary .typeof operand := by
  unfold typeofTest? at h
  split at h
  · cases h
    exact .inl ⟨rfl, rfl⟩
  · cases h
    exact .inr ⟨rfl, rfl⟩
  · cases h

/-- A comparison refines the roots of its operands, or of the one whose type it asks for. -/
theorem narrowComparison_run (hleft : Synthesized s.tree m left)
    (hright : Synthesized s.tree m right) {r : Rules}
    (hsynth : ∀ x env, x = left ∨ x = right → ∃ i, r.synth x env m = .ok (i, m)) (env : TypeEnv)
    (loose equal : Bool) :
    ∃ env', narrowComparison s r env loose left right equal m = .ok (env', m) ∧
      Refines (fun name => s.tree.Mentions left name ∨ s.tree.Mentions right name) env env' := by
  obtain ⟨leftKind, hleftKind⟩ := Tree.exists_kind_of_lt hleft.lt_size
  obtain ⟨rightKind, hrightKind⟩ := Tree.exists_kind_of_lt hright.lt_size
  unfold narrowComparison
  rw [kindOf_bind hleftKind, kindOf_bind hrightKind]
  cases htypeof : typeofTest? leftKind rightKind with
  | some asked =>
    obtain ⟨operand, kind⟩ := asked
    have hoperand (known : Ty) : ∃ env', narrowPlace s env operand known m = .ok (env', m) ∧
        Refines (fun name => s.tree.Mentions left name ∨ s.tree.Mentions right name) env env' := by
      rcases typeofTest?_cases htypeof with ⟨rfl, -⟩ | ⟨-, rfl⟩
      · have hpart : Part s.tree left operand :=
          ⟨_, hleftKind, rfl, List.mem_cons_self, fun _ heq => nomatch heq⟩
        obtain ⟨env', hrun, hrefines⟩ := narrowPlace_run (hleft.part hpart) env known
        exact ⟨env', hrun, hrefines.mono fun _ hroot => .inl (hroot.mentions.of_child hpart.childOf)⟩
      · have hpart : Part s.tree right operand :=
          ⟨_, hrightKind, rfl, List.mem_cons_self, fun _ heq => nomatch heq⟩
        obtain ⟨env', hrun, hrefines⟩ := narrowPlace_run (hright.part hpart) env known
        exact ⟨env', hrun, hrefines.mono fun _ hroot => .inr (hroot.mentions.of_child hpart.childOf)⟩
    dsimp only
    cases Ty.ofTypeofName? kind with
    | some ty => exact hoperand _
    | none => exact ⟨env, rfl, .refl _ env⟩
  | none =>
    obtain ⟨leftInterface, hleftRun⟩ := hsynth left env (.inl rfl)
    obtain ⟨rightInterface, hrightRun⟩ := hsynth right env (.inr rfl)
    dsimp only
    rw [bind_run hleftRun, bind_run hrightRun]
    obtain ⟨env₁, hrun₁, hrefines₁⟩ :=
      narrowSide_run hleft env (comparisonType loose rightInterface) equal
    obtain ⟨env₂, hrun₂, hrefines₂⟩ :=
      narrowSide_run hright env₁ (comparisonType loose leftInterface) equal
    rw [bind_run hrun₁]
    refine ⟨env₂, hrun₂, (hrefines₁.mono ?_).trans (hrefines₂.mono ?_)⟩
    · exact fun _ hroot => .inl hroot.mentions
    · exact fun _ hroot => .inr hroot.mentions

/-- One step of narrowing by a test, from those by its parts. -/
theorem narrowTest_run {depth : Nat} (h : Synthesized s.tree m test)
    (ih : ∀ child, Part s.tree test child → (∀ env, ∃ i, (rules s depth).synth child env m = .ok (i, m)) ∧
      ∀ env outcome, ∃ env', (rules s depth).narrow env child outcome m = .ok (env', m) ∧
        Refines (s.tree.Mentions child) env env')
    (env : TypeEnv) (outcome : Bool) :
    ∃ env', narrowTest s (rules s depth) env test outcome m = .ok (env', m) ∧
      Refines (s.tree.Mentions test) env env' := by
  obtain ⟨kind, hkind⟩ := Tree.exists_kind_of_lt h.lt_size
  have hpart (child : NodeId) (hexpression : kind.isStatement = false)
      (hobject : ∀ properties, kind ≠ .object properties) (hchild : child ∈ kind.children) :
      Part s.tree test child :=
    ⟨kind, hkind, hexpression, hchild, fun properties heq => absurd heq (hobject properties)⟩
  -- A test of any other form narrows its own place, if it is one.
  have htruth (known : Ty) : ∃ env', narrowPlace s env test known m = .ok (env', m) ∧
      Refines (s.tree.Mentions test) env env' := by
    obtain ⟨env', hrun, hrefines⟩ := narrowPlace_run h env known
    exact ⟨env', hrun, hrefines.mono fun _ hroot => hroot.mentions⟩
  -- Where both parts have the same outcome, they narrow one after the other.
  have hboth {left right : NodeId} (hleft : Part s.tree test left) (hright : Part s.tree test right)
      (outcome : Bool) : ∃ env', ((rules s depth).narrow env left outcome >>= fun env =>
        (rules s depth).narrow env right outcome) m = .ok (env', m) ∧
          Refines (s.tree.Mentions test) env env' := by
    obtain ⟨env₁, hrun₁, hrefines₁⟩ := (ih left hleft).2 env outcome
    obtain ⟨env₂, hrun₂, hrefines₂⟩ := (ih right hright).2 env₁ outcome
    rw [bind_run hrun₁]
    refine ⟨env₂, hrun₂, (hrefines₁.mono ?_).trans (hrefines₂.mono ?_)⟩
    · exact fun _ hname => hname.of_child hleft.childOf
    · exact fun _ hname => hname.of_child hright.childOf
  unfold narrowTest
  rw [kindOf_bind hkind]
  split
  next argument =>
    have hargument := hpart argument rfl (fun _ heq => nomatch heq) List.mem_cons_self
    obtain ⟨env', hrun, hrefines⟩ := (ih argument hargument).2 env !outcome
    exact ⟨env', hrun, hrefines.mono fun _ hname => hname.of_child hargument.childOf⟩
  next left right =>
    have hleft := hpart left rfl (fun _ heq => nomatch heq) List.mem_cons_self
    have hright := hpart right rfl (fun _ heq => nomatch heq)
      (List.mem_cons_of_mem _ List.mem_cons_self)
    split
    · exact hboth hleft hright true
    · exact htruth _
  next left right =>
    have hleft := hpart left rfl (fun _ heq => nomatch heq) List.mem_cons_self
    have hright := hpart right rfl (fun _ heq => nomatch heq)
      (List.mem_cons_of_mem _ List.mem_cons_self)
    split
    · exact htruth _
    · exact hboth hleft hright false
  next op left right =>
    have hleft := hpart left rfl (fun _ heq => nomatch heq) List.mem_cons_self
    have hright := hpart right rfl (fun _ heq => nomatch heq)
      (List.mem_cons_of_mem _ List.mem_cons_self)
    split
    · have hsynth (x : NodeId) (env : TypeEnv) (hx : x = left ∨ x = right) :
          ∃ i, (rules s depth).synth x env m = .ok (i, m) := by
        rcases hx with rfl | rfl
        · exact (ih x hleft).1 env
        · exact (ih x hright).1 env
      obtain ⟨env', hrun, hrefines⟩ := narrowComparison_run (h.part hleft) (h.part hright) hsynth env
        op.isLoose (outcome != op.isNegated)
      refine ⟨env', hrun, hrefines.mono fun _ hname => ?_⟩
      rcases hname with hname | hname
      · exact hname.of_child hleft.childOf
      · exact hname.of_child hright.childOf
    · exact htruth _
  next => exact htruth _

/-- Narrowing by a synthesized test completes and records nothing.  The names that are visible stay
    the same; those that the test does not mention, failed ones and cells keep their interfaces, and
    the others keep all of theirs but the type. -/
theorem narrow_frame (h : Synthesized s.tree m test) (env : TypeEnv) (outcome : Bool) :
    ∃ env', narrow s env test outcome m = .ok (env', m) ∧
      (∀ name, name ∈ env'.names ↔ name ∈ env.names) ∧
      (∀ name, ¬ s.tree.Mentions test name → env'.get? name = env.get? name) ∧
      (∀ name e, env.get? name = some (.error e) → env'.get? name = some (.error e)) ∧
      (∀ name typing, env.get? name = some (.ok typing) → (cell? typing.ty).isSome →
        env'.get? name = some (.ok typing)) ∧
      ∀ name typing, env.get? name = some (.ok typing) → ∃ narrowed,
        env'.get? name = some (.ok narrowed) ∧ narrowed.dynamic = typing.dynamic ∧
          narrowed.mutable? = typing.mutable? := by
  -- By depth in the test, whose parts are found recorded.
  have hrun : ∃ env', (rules s s.tree.depthLimit).narrow env test outcome m = .ok (env', m) ∧
      Refines (s.tree.Mentions test) env env' := by
    refine (h.within (P := fun depth x =>
      (∀ env, ∃ i, (rules s depth).synth x env m = .ok (i, m)) ∧
      ∀ env outcome, ∃ env', (rules s depth).narrow env x outcome m = .ok (env', m) ∧
        Refines (s.tree.Mentions x) env env') ?_).2 env outcome
    intro depth x hx ih
    exact ⟨synth_run_of_recorded hx.recorded depth, narrowTest_run hx ih⟩
  obtain ⟨env', hrun, hrefines⟩ := hrun
  refine ⟨env', hrun, hrefines.mem_names_iff, hrefines.frame, fun _ _ => hrefines.failed,
    fun _ _ => hrefines.cell, fun name typing htyping => ?_⟩
  obtain ⟨ty, hty⟩ := hrefines.typing htyping
  exact ⟨_, hty, rfl, rfl⟩

/-- `!(o.tag === "a") && c` -/
def tagTest : Setting where
  tree := ⟨#[⟨default, .identifier "o"⟩, ⟨default, .member 0 "tag"⟩,
    ⟨default, .literal (.string "a")⟩, ⟨default, .binary .strictEq 1 2⟩, ⟨default, .unary .not 3⟩,
    ⟨default, .identifier "c"⟩, ⟨default, .logical .and 4 5⟩]⟩

/-- Among others the names of `tagTest`, `o` with a tag that varies and `c` as a cell. -/
def tagEnv : TypeEnv :=
  Env.empty.extendAll
    [("o", .ok { ty := .object [⟨"tag", .union [.literal (.string "a"), .literal (.string "b")]⟩],
                 dynamic := true }),
      ("c", .ok (.fixed (cellOf .code .boolean))), ("k", .ok (.fixed .number)),
      ("f", .error { kind := .notAnExpression })]

/-- Once `tagTest` has been checked, narrowing by it leaves all names but `o` as they are. -/
theorem narrow_frame_tagTest :
    ∃ i m, synth tagTest 6 tagEnv (.ofSize 7) = .ok (i, m) ∧ Synthesized tagTest.tree m 6 ∧
      ∃ env', narrow tagTest tagEnv 6 true m = .ok (env', m) ∧
        (∀ name, name ∈ env'.names ↔ name ∈ tagEnv.names) ∧
        env'.get? "k" = tagEnv.get? "k" ∧ env'.get? "f" = tagEnv.get? "f" ∧
        env'.get? "c" = tagEnv.get? "c" ∧ ∃ narrowed, env'.get? "o" = some (.ok narrowed) ∧
          narrowed.dynamic = true ∧ narrowed.mutable? = none := by
  have ht : tagTest.tree.TreeShaped := Tree.treeShaped_of_ascending rfl
  have hfresh (y : NodeId) (_ : tagTest.tree.AtOrBelow 6 y) : (InterfaceMap.ofSize 7).get? y = none :=
    InterfaceMap.get?_ofSize 7 y
  obtain ⟨i, m, hrun, -⟩ := synth_covered (s := tagTest) ht (by decide) hfresh tagEnv
  have h := synthesized_of_synth ht (by decide) hfresh hrun
  obtain ⟨env', hnarrow, hnames, hframe, hfailed, hcell, hkept⟩ := narrow_frame h tagEnv true
  refine ⟨i, m, hrun, h, env', hnarrow, hnames, hframe "k" ?_, hfailed "f" _ rfl, hcell "c" _ rfl rfl,
    hkept "o" _ rfl⟩
  rintro ⟨place, -, hroot⟩
  induction hroot with
  | @identifier x hkind =>
    have hx : x < 7 := Tree.lt_size_of_kind hkind
    interval_cases x <;> simp [Tree.kind, Tree.node, tagTest, Except.map] at hkind
  | member _ _ ih => exact ih

end ReactiveDoc.Check
