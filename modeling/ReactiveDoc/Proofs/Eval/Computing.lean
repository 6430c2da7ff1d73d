import ReactiveDoc.Proofs.Check.Accounting
import ReactiveDoc.Proofs.Check.Equality
import ReactiveDoc.Proofs.Check.Operating
import ReactiveDoc.Proofs.Eval.Quiet

namespace ReactiveDoc.Eval

/-!
# Values that operators make of those of names

* `Computed` — the value of a node that is put together from those of names and literals, none of
  which changes over time.
* `evaluate_computed` — the node evaluates to it, and touches nothing.
* `Predicted` — such a value where the types of the parts tell what the operators give.
* `Predicted.computed`, `Predicted.inhabits` — the node evaluates to it, and its type has it.
-/

open Check
open Signal (World)

variable {σ : Type} {r : Rules σ} {p : Program} {env : ValueEnv} {x : NodeId} {v : Value}

/-! ### Evaluation -/

/-- The node is checked without errors and does not change over time, and its value is no signal. -/
structure Still (p : Program) (x : NodeId) (v : Value) : Prop where
  steady : ∃ typing, p.interfaces.get? x = some (.ok typing) ∧ typing.dynamic = false
  plain : v.Plain

/-- The value that operators, members and items make of the values of names. -/
inductive Computed (p : Program) (env : ValueEnv) : NodeId → Value → Prop
  | undefined {x : NodeId} (hx : Still p x .undefined) (hkind : p.tree.kind x = .ok .undefined) :
      Computed p env x .undefined
  | null {x : NodeId} (hx : Still p x .null) (hkind : p.tree.kind x = .ok .null) :
      Computed p env x .null
  | literal {x : NodeId} {l : Literal} (hx : Still p x (.ofLiteral l))
      (hkind : p.tree.kind x = .ok (.literal l)) : Computed p env x (.ofLiteral l)
  | name {x : NodeId} {name : String} {v : Value} (hx : Still p x v)
      (hkind : p.tree.kind x = .ok (.identifier name)) (hget : env.get? name = some v) :
      Computed p env x v
  | unary {x operand : NodeId} {op : UnaryOp} {v : Value} (hx : Still p x (.unary op v))
      (hkind : p.tree.kind x = .ok (.unary op operand)) (h : Computed p env operand v) :
      Computed p env x (.unary op v)
  | binary {x left right : NodeId} {op : BinaryOp} {v w : Value} (hx : Still p x (.binary op v w))
      (hkind : p.tree.kind x = .ok (.binary op left right)) (hl : Computed p env left v)
      (hr : Computed p env right w) : Computed p env x (.binary op v w)
  | member {x object : NodeId} {name : String} {v : Value} (hx : Still p x (v.member name))
      (hkind : p.tree.kind x = .ok (.member object name)) (h : Computed p env object v) :
      Computed p env x (v.member name)
  | index {x object index : NodeId} {v w : Value} (hx : Still p x (v.index w))
      (hkind : p.tree.kind x = .ok (.index object index)) (hl : Computed p env object v)
      (hr : Computed p env index w) : Computed p env x (v.index w)

theorem Computed.still (h : Computed p env x v) : Still p x v := by
  cases h <;> assumption

/-- Parts that are plain values are put together at once. -/
theorem combine_quietly {nodes : List NodeId} {vs : List Value} {recipe : Recipe} {v : Value}
    (hnodes : List.Forall₂ (fun node v => SameQuietly (r.evaluate p node env)
      (r.evaluate p node env) (· = v)) nodes vs)
    (hplain : ∀ v ∈ vs, v.Plain) (hrecipe : assemble r recipe vs = pure v) :
    SameQuietly (combine r p nodes env recipe) (combine r p nodes env recipe) (· = v) := by
  have hvalues : SameQuietly (nodes.mapM fun node => r.evaluate p node env)
      (nodes.mapM fun node => r.evaluate p node env) (· = vs) := by
    clear hplain hrecipe
    induction hnodes with
    | nil => exact sameQuietly_pure rfl
    | cons h _ ih =>
      rw [List.mapM_cons]
      refine h.bind fun a ha => ih.bind fun as has => sameQuietly_pure ?_
      rw [ha, has]
  unfold combine
  refine hvalues.bind fun as has => ?_
  subst has
  simp only [dynamicSlots_of_plain p nodes hplain, List.map_nil]
  rw [hrecipe]
  exact sameQuietly_pure rfl

section

variable (hr : ∀ y u, Computed p env y u →
  SameQuietly (r.evaluate p y env) (r.evaluate p y env) (· = u))

include hr

theorem combine_computed {nodes : List NodeId} {vs : List Value} {recipe : Recipe}
    (hnodes : List.Forall₂ (Computed p env) nodes vs) (hrecipe : assemble r recipe vs = pure v) :
    SameQuietly (combine r p nodes env recipe) (combine r p nodes env recipe) (· = v) := by
  refine combine_quietly (hnodes.imp hr) (fun u hu => ?_) hrecipe
  obtain ⟨y, -, hy⟩ := exists_left_of_mem hnodes hu
  exact hy.still.plain

/-- A form evaluates to the value that is made of those of its parts. -/
theorem evaluateForm_computed {typing : Typing} (h : Computed p env x v) :
    SameQuietly (evaluateForm r p x typing env) (evaluateForm r p x typing env) (· = v) := by
  unfold evaluateForm
  refine (sameQuietly_lookUp _).bind fun kind hkind => ?_
  cases h with
  | undefined _ hkind' | null _ hkind' | literal _ hkind' =>
    cases hkind.symm.trans hkind'
    exact sameQuietly_pure rfl
  | name _ hkind' hget =>
    cases hkind.symm.trans hkind'
    dsimp only
    rw [hget]
    exact sameQuietly_pure rfl
  | unary _ hkind' h =>
    cases hkind.symm.trans hkind'
    exact combine_computed hr (.cons h .nil) rfl
  | @binary _ left right _ _ _ _ hkind' hl hr' =>
    cases hkind.symm.trans hkind'
    -- An operation asks first whether the types of its operands are errors, and they are not.
    have hheld {y : NodeId} {u : Value} (hy : Computed p env y u) :
        SameQuietly (isFailed p y : EvalM σ Bool) (isFailed p y) (· = false) := by
      obtain ⟨typing, hget, hdynamic⟩ := hy.still.steady
      refine isFailed_sameQuietly ⟨_, hget, hdynamic⟩ fun e he => ?_
      cases hget.symm.trans he
    refine (hheld hl).bind fun failed hfailed => ?_
    rw [hfailed]
    refine (hheld hr').bind fun failed hfailed => ?_
    rw [hfailed]
    exact combine_computed hr (.cons hl (.cons hr' .nil)) rfl
  | @member _ object _ u _ hkind' h =>
    cases hkind.symm.trans hkind'
    refine (hr object u h).bind fun u' hu => ?_
    subst hu
    have hplain := h.still.plain
    cases u' with
    | signal id => exact absurd rfl (hplain id)
    | _ => exact sameQuietly_pure rfl
  | index _ hkind' hl hr' =>
    cases hkind.symm.trans hkind'
    exact combine_computed hr (.cons hl (.cons hr' .nil)) rfl

end

/-- At every depth the node evaluates to the value, if to anything. -/
theorem evaluate_computed (host : Host σ) (depth : Nat) (h : Computed p env x v) :
    SameQuietly ((rules host depth).evaluate p x env) ((rules host depth).evaluate p x env)
      (· = v) := by
  -- The parts are evaluated with less depth, so the values of all nodes are settled together.
  induction depth generalizing x v with
  | zero => exact sameQuietly_throwFault _
  | succ depth ih =>
    obtain ⟨typing, hget, hdynamic⟩ := h.still.steady
    show SameQuietly (evaluateNode (rules host depth) p x env)
      (evaluateNode (rules host depth) p x env) (· = v)
    unfold evaluateNode
    refine (require_sameQuietly hget).bind fun held heq => ?_
    subst heq
    refine (evaluateForm_computed (fun _ _ => ih) h).bind fun u hu => ?_
    subst hu
    rw [hdynamic, conform_of_plain _ h.still.plain]
    exact sameQuietly_pure rfl

/-- A run that does not stop gives the value. -/
theorem Computed.eq_of_run {host : Host σ} {depth : Nat} {w w' : World Payload Step Choice σ}
    {u : Value} (h : Computed p env x v)
    (hrun : (rules host depth).evaluate p x env w = .ok (.ok u, w')) : u = v := by
  rcases evaluate_computed host depth h w w rfl with
    ⟨fault, hfault, -⟩ | ⟨result, n, hresult, -, hvalue⟩
  · cases hrun.symm.trans hfault
  · cases hrun.symm.trans hresult
    exact hvalue u rfl

/-! ### Types of results -/

/-- The type has the value, if only up to the sign of zeros. -/
structure Inhabits (exact : Bool) (t : Ty) (v : Value) : Prop where
  wellFormed : t.WellFormed
  contains : t.Contains Literal.Alike v
  exactly : exact = true → t.Contains Eq v

theorem Inhabits.of_exact {exact : Bool} {t : Ty} (ht : t.WellFormed) (hv : t.Contains Eq v) :
    Inhabits exact t v :=
  ⟨ht, ht.contains_alike hv, fun _ => hv⟩

namespace Inhabits

variable {exact exact' : Bool} {t u result : Ty} {w : Value}

/-- Only numbers have others with the same contents. -/
theorem exact_of_kind (hv : Inhabits false t v) (hnumber : v.kind ≠ .number)
    (hobject : v.kind ≠ .object) : Inhabits true t v :=
  .of_exact hv.wellFormed (hv.wellFormed.contains_of_alike hnumber hobject hv.contains)

theorem unary {op : UnaryOp} (hv : Inhabits true t v) (hs : exact = true → Single t)
    (h : unaryType op t = .ok result) : Inhabits exact result (.unary op v) where
  wellFormed := (regular_unaryType h).wellFormed
  contains := (follows_unaryType hv.wellFormed (hv.exactly rfl) h).contains
  exactly hexact := contains_unaryType hv.wellFormed (fun _ => hs hexact) (hv.exactly rfl) h

theorem binary {op : BinaryOp} (hop : op.isEquality = false) (hv : Inhabits true t v)
    (hw : Inhabits true u w) (hs : exact = true → Single t ∧ Single u)
    (h : binaryType op t u = .ok result) : Inhabits exact result (.binary op v w) where
  wellFormed := (regular_binaryType h).wellFormed
  contains :=
    (follows_binaryType hop hv.wellFormed hw.wellFormed (hv.exactly rfl) (hw.exactly rfl) h).contains
  exactly hexact :=
    contains_binaryType_single hop hv.wellFormed hw.wellFormed (hs hexact).1 (hs hexact).2
      (hv.exactly rfl) (hw.exactly rfl) h

/-- What an equality gives does not depend on the sign of zeros. -/
theorem equality {op : BinaryOp} (hop : op.isEquality = true) (hv : Inhabits exact t v)
    (hw : Inhabits exact' u w) (ht : Primitive t) (hu : Primitive u)
    (hmistaken : ¬ Mistaken op.isLoose v w) (h : binaryType op t u = .ok result) :
    Inhabits false result (.binary op v w) where
  wellFormed := (regular_binaryType h).wellFormed
  contains := contains_binaryType_equality hop ht hu hv.contains hw.contains hmistaken h
  exactly hexact := by cases hexact

theorem member {name : String} {access : Access} (hv : Inhabits true t v)
    (hm : MergesMembers name t) (hs : exact = true → Single t)
    (h : memberType t name = .ok access) : Inhabits exact access.ty (v.member name) where
  wellFormed := formed_memberType hv.wellFormed h
  contains := (follows_memberType hv.wellFormed hm (hv.exactly rfl) h).contains
  exactly hexact :=
    contains_plainMember? hv.wellFormed (hv.exactly rfl)
      (memberType_single hv.wellFormed (hs hexact) h)

theorem index (hv : Inhabits true t v) (hw : Inhabits true u w) (hm : MergesItems u t)
    (h : indexType t u = .ok result) : Inhabits false result (v.index w) where
  wellFormed := formed_indexType hv.wellFormed h
  contains :=
    (follows_indexType hv.wellFormed hm hw.wellFormed (hv.exactly rfl) (hw.exactly rfl) h).contains
  exactly hexact := by cases hexact

end Inhabits

/-! ### Values that types tell -/

/-- What is recorded for the node is a type that satisfies `P`. -/
def TypedBy (p : Program) (x : NodeId) (P : Ty → Prop) : Prop :=
  ∃ typing, p.interfaces.get? x = some (.ok typing) ∧ P typing.ty

/-- The value of a node that operators, members and items make of those of names, where the types
    that are recorded for the parts tell what they give: names stand for values of their types,
    equality is not mistaken about its operands, and what is found for the arms of a union can be
    united.  Unless it is `exact`, a value is of its type up to the sign of zeros, since results
    were united. -/
inductive Predicted (p : Program) (env : ValueEnv) : Bool → NodeId → Value → Prop
  | undefined {x : NodeId} (hkind : p.tree.kind x = .ok .undefined) :
      Predicted p env true x .undefined
  | null {x : NodeId} (hkind : p.tree.kind x = .ok .null) : Predicted p env true x .null
  | literal {x : NodeId} {l : Literal} (hkind : p.tree.kind x = .ok (.literal l)) :
      Predicted p env true x (.ofLiteral l)
  | name {x : NodeId} {name : String} {v : Value} (hkind : p.tree.kind x = .ok (.identifier name))
      (hget : env.get? name = some v)
      (hv : TypedBy p x fun t => t.WellFormed ∧ t.Contains Eq v) : Predicted p env true x v
  -- A literal that is united with others of the same contents stands for all of them.
  | unary {exact : Bool} {x operand : NodeId} {op : UnaryOp} {v : Value}
      (hkind : p.tree.kind x = .ok (.unary op operand)) (h : Predicted p env true operand v)
      (hsingle : exact = true → TypedBy p operand Single) :
      Predicted p env exact x (.unary op v)
  | binary {exact : Bool} {x left right : NodeId} {op : BinaryOp} {v w : Value}
      (hkind : p.tree.kind x = .ok (.binary op left right)) (hop : op.isEquality = false)
      (hl : Predicted p env true left v) (hr : Predicted p env true right w)
      (hsingle : exact = true → TypedBy p left Single ∧ TypedBy p right Single) :
      Predicted p env exact x (.binary op v w)
  | equality {exactLeft exactRight : Bool} {x left right : NodeId} {op : BinaryOp} {v w : Value}
      (hkind : p.tree.kind x = .ok (.binary op left right)) (hop : op.isEquality = true)
      (hl : Predicted p env exactLeft left v) (hr : Predicted p env exactRight right w)
      (hprimitive : TypedBy p left Primitive ∧ TypedBy p right Primitive)
      (hmistaken : ¬ Mistaken op.isLoose v w) : Predicted p env false x (.binary op v w)
  | member {exact : Bool} {x object : NodeId} {name : String} {v : Value}
      (hkind : p.tree.kind x = .ok (.member object name)) (h : Predicted p env true object v)
      (hmerges : TypedBy p object (MergesMembers name))
      (hsingle : exact = true → TypedBy p object Single) (hplain : (v.member name).Plain) :
      Predicted p env exact x (v.member name)
  | index {x object index : NodeId} {v w : Value} (hkind : p.tree.kind x = .ok (.index object index))
      (hl : Predicted p env true object v) (hr : Predicted p env true index w)
      (hmerges : TypedBy p object fun t => TypedBy p index fun u => MergesItems u t)
      (hplain : (v.index w).Plain) : Predicted p env false x (v.index w)
  | exact {x : NodeId} {v : Value} (h : Predicted p env false x v) (hnumber : v.kind ≠ .number)
      (hobject : v.kind ≠ .object) : Predicted p env true x v

/-- What the check of an expression without errors tells about the nodes in `D`, with the children
    of which they are closed, where the names in `fixed` do not change over time. -/
structure Surveyed (D : NodeId → Prop) (fixed : String → Prop) (p : Program) (env : ValueEnv) :
    Prop where
  child : ∀ {x kind y}, D x → p.tree.kind x = .ok kind → y ∈ kind.children → D y
  checked : ∀ x e, p.interfaces.get? x ≠ some (.error e)
  accounted : Accounted p.tree D fixed p.interfaces p.interfaces
  plain : ∀ name v, fixed name → env.get? name = some v → v.Plain

section

variable {D : NodeId → Prop} {fixed : String → Prop} {exact : Bool} {typing : Typing}

/-- What is recorded for a node satisfies what is known of it. -/
theorem TypedBy.of_get? {P : Ty → Prop} (h : TypedBy p x P)
    (hget : p.interfaces.get? x = some (.ok typing)) : P typing.ty := by
  obtain ⟨typing', hget', hP⟩ := h
  cases hget.symm.trans hget'
  exact hP

theorem Surveyed.ok (h : Surveyed D fixed p env) {i : Interface}
    (hget : p.interfaces.get? x = some i) : ∃ typing, i = .ok typing := by
  cases i with
  | ok typing => exact ⟨typing, rfl⟩
  | error e => exact absurd hget (h.checked x e)

/-- The type that is recorded for the node has the value. -/
theorem Predicted.inhabits (h : Predicted p env exact x v) (hs : Surveyed D fixed p env) (hx : D x)
    (hget : p.interfaces.get? x = some (.ok typing)) : Inhabits exact typing.ty v := by
  have hmade {x : NodeId} {kind : NodeKind} {typing : Typing} (hx : D x)
      (hkind : p.tree.kind x = .ok kind) (hget : p.interfaces.get? x = some (.ok typing)) :
      FromParts p.interfaces kind typing := (hs.accounted x kind _ hx hkind hget).made typing rfl
  -- What is recorded for a node is what its operator makes of the types recorded for its operands,
  -- which have their values by induction.
  induction h generalizing typing with
  | undefined hkind =>
    cases hmade hx hkind hget
    exact .of_exact .undefined rfl
  | null hkind =>
    cases hmade hx hkind hget
    exact .of_exact .null rfl
  | literal hkind =>
    cases hmade hx hkind hget
    exact .of_exact (.literal _) (Ty.contains_literal rfl)
  | name hkind hget' hv =>
    obtain ⟨hwf, hv⟩ := hv.of_get? hget
    exact .of_exact hwf hv
  | @unary exact x operand op v hkind h hsingle ih =>
    obtain ⟨i, hi, hinterface⟩ := hmade hx hkind hget
    obtain ⟨operandTyping, rfl⟩ := hs.ok hi
    have hv := ih (hs.child hx hkind List.mem_cons_self) hi
    exact hv.unary (fun hexact => (hsingle hexact).of_get? hi) (unaryType_of_interface hinterface)
  | @binary exact x left right op v w hkind hop hl hr hsingle ihl ihr =>
    obtain ⟨l, r, hgetl, hgetr, hinterface⟩ := hmade hx hkind hget
    obtain ⟨leftTyping, rfl⟩ := hs.ok hgetl
    obtain ⟨rightTyping, rfl⟩ := hs.ok hgetr
    have hv := ihl (hs.child hx hkind List.mem_cons_self) hgetl
    have hw := ihr (hs.child hx hkind (List.mem_cons_of_mem _ List.mem_cons_self)) hgetr
    refine hv.binary hop hw (fun hexact => ?_) (binaryType_of_interface hinterface)
    exact ⟨(hsingle hexact).1.of_get? hgetl, (hsingle hexact).2.of_get? hgetr⟩
  | @equality exactLeft exactRight x left right op v w hkind hop hl hr hprimitive hmistaken ihl ihr =>
    obtain ⟨l, r, hgetl, hgetr, hinterface⟩ := hmade hx hkind hget
    obtain ⟨leftTyping, rfl⟩ := hs.ok hgetl
    obtain ⟨rightTyping, rfl⟩ := hs.ok hgetr
    have hv := ihl (hs.child hx hkind List.mem_cons_self) hgetl
    have hw := ihr (hs.child hx hkind (List.mem_cons_of_mem _ List.mem_cons_self)) hgetr
    exact hv.equality hop hw (hprimitive.1.of_get? hgetl) (hprimitive.2.of_get? hgetr) hmistaken
      (binaryType_of_interface hinterface)
  | @member exact x object name v hkind h hmerges hsingle hplain ih =>
    obtain ⟨i, hi, hinterface⟩ := hmade hx hkind hget
    obtain ⟨objectTyping, rfl⟩ := hs.ok hi
    have hv := ih (hs.child hx hkind List.mem_cons_self) hi
    obtain ⟨access, htype, hty⟩ := memberType_of_interface hinterface
    rw [← hty]
    exact hv.member (hmerges.of_get? hi) (fun hexact => (hsingle hexact).of_get? hi) htype
  | @index x object index v w hkind hl hr hmerges hplain ihl ihr =>
    obtain ⟨l, r, hgetl, hgetr, hinterface⟩ := hmade hx hkind hget
    obtain ⟨objectTyping, rfl⟩ := hs.ok hgetl
    obtain ⟨indexTyping, rfl⟩ := hs.ok hgetr
    have hv := ihl (hs.child hx hkind List.mem_cons_self) hgetl
    have hw := ihr (hs.child hx hkind (List.mem_cons_of_mem _ List.mem_cons_self)) hgetr
    exact hv.index hw ((hmerges.of_get? hgetl).of_get? hgetr) (indexType_of_interface hinterface)
  | exact h hnumber hobject ih => exact (ih hx hget).exact_of_kind hnumber hobject

/-- The truth that the recorded type tells is that of the value. -/
theorem Predicted.isTruthy (h : Predicted p env exact x v) (hs : Surveyed D fixed p env)
    (hx : D x) {truth : Bool} (htruth : truthOf p.interfaces x = some truth) :
    v.isTruthy = truth := by
  obtain ⟨i, hget, htold⟩ := Option.bind_eq_some_iff.1 htruth
  obtain ⟨typing, rfl⟩ := hs.ok hget
  have hinhabits := h.inhabits hs hx hget
  exact isTruthy_of_truthiness hinhabits.wellFormed hinhabits.contains htold

/-- The children of a steady node are steady where its form asks for all of them. -/
theorem Surveyed.children (h : Surveyed D fixed p env) (hx : D x) {kind : NodeKind}
    (hkind : p.tree.kind x = .ok kind) (hsteady : Steady p.interfaces x)
    (hall : SteadyParts p.tree p.interfaces fixed kind → ∀ y ∈ kind.children, Steady p.interfaces y)
    {y : NodeId} (hy : y ∈ kind.children) : D y ∧ Steady p.interfaces y := by
  obtain ⟨i, hget, hdynamic⟩ := hsteady
  obtain ⟨typing, rfl⟩ := h.ok hget
  have hparts := (h.accounted x kind _ hx hkind hget).steady typing rfl hdynamic
  exact ⟨h.child hx hkind hy, hall hparts y hy⟩

/-- A steady node evaluates to the value. -/
theorem Predicted.computed (h : Predicted p env exact x v) (hs : Surveyed D fixed p env)
    (hx : D x) (hsteady : Steady p.interfaces x) : Computed p env x v := by
  have hstill {x : NodeId} {v : Value} (hsteady : Steady p.interfaces x) (hplain : v.Plain) :
      Still p x v := by
    obtain ⟨i, hget, hdynamic⟩ := hsteady
    obtain ⟨typing, rfl⟩ := hs.ok hget
    exact ⟨⟨typing, hget, hdynamic⟩, hplain⟩
  induction h with
  | undefined hkind => exact .undefined (hstill hsteady nofun) hkind
  | null hkind => exact .null (hstill hsteady nofun) hkind
  | @literal x l hkind =>
    refine .literal (hstill hsteady ?_) hkind
    cases l <;> exact nofun
  | @name x name v hkind hget hv =>
    obtain ⟨i, hgetx, hdynamic⟩ := hsteady
    obtain ⟨typing, rfl⟩ := hs.ok hgetx
    -- A name that does not change over time does not stand for a signal.
    have hfixed : fixed name := (hs.accounted x _ _ hx hkind hgetx).steady typing rfl hdynamic
    exact .name ⟨⟨typing, hgetx, hdynamic⟩, hs.plain name v hfixed hget⟩ hkind hget
  | @unary exact x operand op v hkind h hsingle ih =>
    obtain ⟨hD, hy⟩ := hs.children hx hkind hsteady id List.mem_cons_self
    exact .unary (hstill hsteady (plain_unary op v)) hkind (ih hD hy)
  | @binary exact x left right op v w hkind hop hl hr hsingle ihl ihr =>
    obtain ⟨hD, hy⟩ := hs.children hx hkind hsteady id List.mem_cons_self
    obtain ⟨hD', hy'⟩ := hs.children hx hkind hsteady id (List.mem_cons_of_mem _ List.mem_cons_self)
    exact .binary (hstill hsteady (plain_binary op v w)) hkind (ihl hD hy) (ihr hD' hy')
  | @equality exactLeft exactRight x left right op v w hkind hop hl hr hprimitive hmistaken ihl ihr =>
    obtain ⟨hD, hy⟩ := hs.children hx hkind hsteady id List.mem_cons_self
    obtain ⟨hD', hy'⟩ := hs.children hx hkind hsteady id (List.mem_cons_of_mem _ List.mem_cons_self)
    exact .binary (hstill hsteady (plain_binary op v w)) hkind (ihl hD hy) (ihr hD' hy')
  | @member exact x object name v hkind h hmerges hsingle hplain ih =>
    obtain ⟨hD, hy⟩ := hs.children hx hkind hsteady id List.mem_cons_self
    exact .member (hstill hsteady hplain) hkind (ih hD hy)
  | @index x object index v w hkind hl hr hmerges hplain ihl ihr =>
    obtain ⟨hD, hy⟩ := hs.children hx hkind hsteady id List.mem_cons_self
    obtain ⟨hD', hy'⟩ := hs.children hx hkind hsteady id (List.mem_cons_of_mem _ List.mem_cons_self)
    exact .index (hstill hsteady hplain) hkind (ihl hD hy) (ihr hD' hy')
  | exact h hnumber hobject ih => exact ih hx hsteady

end

end ReactiveDoc.Eval
