import ReactiveDoc.Proofs.Eval.Settled
import ReactiveDoc.Proofs.Signal.Sparing

namespace ReactiveDoc.Eval

/-!
# Evaluations that write no cell

Only calls and assignments do more than read signals and add new ones.  Code without them writes no
cell, as long as the signals that it reads are computed by such code as well.

* `Silent` — code without calls and assignments that uses certain signals only.
* `silence` — signals that are computed by such code.
* `Rules.Spare` — the operations on these signals, and on silent code, below write no cell.
* `Rules.Spare.evaluateForm`, `rules_spare` — then so does silent code of every form, at every
  depth.
-/

open Signal (Realm Spares Creation Good spares_pure spares_throw spares_graph spares_newIdentities
  create_spares good_ok good_error)

variable {σ α β : Type} {K cell : SignalId → Prop} {p : Program} {node x : NodeId} {env : ValueEnv}

/-! ### Silent code -/

/-- All signals in the value are of this kind. -/
abbrev Confined (K : SignalId → Prop) (v : Value) : Prop := v.Within K fun _ => True

/-- What a function uses when it is called does not count. -/
theorem confined_function (i : Identity) (body : FunctionBody Value) :
    Confined K (.function i body) :=
  ⟨nofun, fun _ _ => trivial⟩

/-- Outside arrows the code calls no function and assigns nothing, and what its names stand for uses
    certain signals only. -/
structure Silent (K : SignalId → Prop) (p : Program) (node : NodeId) (env : ValueEnv) : Prop where
  acts : ∀ x kind, p.tree.Immediate node x → p.tree.kind x = .ok kind → ¬ Acts kind
  names : ∀ name v, p.tree.Free name node → env.get? name = some v → Confined K v

/-- What evaluation goes on with at once stands below, outside arrows. -/
theorem immediate_of_part {t : Tree} {kind : NodeKind} (hkind : t.kind node = .ok kind)
    (hx : Part t kind x) : t.Immediate node x := by
  have hproperty {property : NodeId} {key : String} (h : t.Immediate node property)
      (hp : t.kind property = .ok (.property key x)) : t.Immediate node x :=
    .child h hp (by simp) List.mem_cons_self
  cases kind with
  | arrow params body => exact hx.elim
  | object properties =>
    obtain ⟨property, hmem, key, hp⟩ := hx
    exact hproperty (.child .root hkind (by simp) hmem) hp
  | element tag attributes children =>
    rcases hx with ⟨property, hmem, key, hp⟩ | hx
    · exact hproperty (.child .root hkind (by simp) (List.mem_append_left _ hmem)) hp
    · exact .child .root hkind (by simp) (List.mem_append_right _ hx)
  | assignment target value =>
    obtain rfl : x = value := hx
    exact .child .root hkind (by simp) (List.mem_cons_of_mem _ List.mem_cons_self)
  | _ => exact .child .root hkind (by simp) hx

theorem Silent.part (h : Silent K p node env) {kind : NodeKind}
    (hkind : p.tree.kind node = .ok kind) (hx : Part p.tree kind x) : Silent K p x env where
  acts y kind' hy := h.acts y kind' ((immediate_of_part hkind hx).trans hy)
  names name v hfree := h.names name v (below_of_part hkind hx hfree)

/-- What a dynamic arrow captures is used where it stands. -/
theorem Silent.captured (h : Silent K p node env) {uses : List Reference}
    (huses : p.tree.references node = .ok uses) : ∀ id ∈ capturedSignals p uses env, K id := by
  intro id hid
  obtain ⟨use, huse, -, hget⟩ := mem_capturedSignals hid
  have hfree := (Tree.freeAt_of_mem_referencesWithin huses huse).1
  exact Value.within_signal.mp (h.names use.name _ ⟨use.node, hfree⟩ hget)

/-- Signals that are computed from each other by silent code.  Steps of maps put values together,
    and call nothing. -/
def silence (K cell : SignalId → Prop) : Realm Payload Step Choice where
  signal := K
  payload q := q.Within K fun _ => True
  step
    | .combine recipe inputs _ => recipe ≠ .call ∧ ∀ v ∈ inputs, Confined K v
    | .close .. => True
  choice
    | .member _ => True
    | .logical _ p right env => Silent K p right env
    | .conditional p consequent alternate env =>
        Silent K p consequent env ∧ Silent K p alternate env
  cell := cell
  ofList := Payload.within_list
  ofOutcome := Payload.within_attempt

/-! ### Completed evaluations -/

/-- Every completed evaluation writes no cell, and a value that it ends with satisfies the
    postcondition. -/
def Spared (K cell : SignalId → Prop) (x : EvalM σ α) (Q : α → Prop) : Prop :=
  Spares (silence K cell) x.run fun result => ∀ a, result = .ok a → Q a

section

variable {Q : α → Prop} {R : β → Prop} {x : EvalM σ α}

theorem spared_pure {a : α} (h : Q a) : Spared K cell (pure a : EvalM σ α) Q := by
  apply spares_pure
  rintro _ ⟨⟩
  exact h

theorem spared_throw (e : EvalError) : Spared K cell (throw e : EvalM σ α) Q := spares_pure nofun

theorem Spared.bind {f : α → EvalM σ β} (h : Spared K cell x Q)
    (hf : ∀ a, Q a → Spared K cell (f a) R) : Spared K cell (x >>= f) R := by
  refine Spares.bind h fun result hresult => ?_
  cases result with
  | ok a => exact hf a (hresult a rfl)
  | error e => exact spares_pure nofun

/-- A computation on signals is an evaluation that does not stop. -/
theorem spared_lift {y : SignalM σ α} (h : Spares (silence K cell) y Q) :
    Spared K cell (lift y) Q := by
  refine Spares.map h fun a ha => ?_
  rintro _ ⟨⟩
  exact ha

theorem spared_throwFault (e : Fault) : Spared K cell (throwFault e : EvalM σ α) Q :=
  spared_lift (spares_throw e)

theorem spared_lookUp (y : Except Fault α) :
    Spared K cell (lookUp y : EvalM σ α) fun a => y = .ok a := by
  apply spared_lift
  cases y with
  | ok a => exact spares_pure rfl
  | error e => exact spares_throw e

theorem spared_require (p : Program) (node : NodeId) :
    Spared K cell (require p node : EvalM σ Interface) fun _ => True :=
  spares_pure fun _ _ => trivial

theorem isFailed_spared (p : Program) (node : NodeId) :
    Spared K cell (isFailed p node : EvalM σ Bool) fun _ => True :=
  (spared_require p node).bind fun _ _ => spared_pure trivial

/-- An evaluation for each of several things, with a value for each. -/
theorem Spared.mapM {S : α → β → Prop} {f : α → EvalM σ β} {as : List α}
    (h : ∀ a ∈ as, Spared K cell (f a) (S a)) :
    Spared K cell (as.mapM f) (List.Forall₂ S as) := by
  induction as with
  | nil => exact spared_pure .nil
  | cons a as ih =>
    rw [List.mapM_cons]
    refine (h a List.mem_cons_self).bind fun b hb => ?_
    refine (ih fun a' ha' => h a' (List.mem_cons_of_mem _ ha')).bind fun bs hbs => ?_
    exact spared_pure (.cons hb hbs)

end

/-! ### New signals -/

theorem newSignal_spared {c : Creation Payload Step Choice} (hc : c.In (silence K cell)) :
    Spared K cell (newSignal fun g => c.apply g : EvalM σ Value) (Confined K) :=
  (spared_lift (create_spares hc)).bind fun _ hid => spared_pure (Value.within_signal.mpr hid)

theorem constantSignal_spares {v : Value} (hv : Confined K v) :
    Spares (silence K cell) (constantSignal v : SignalM σ SignalId) K :=
  create_spares (c := .constant _) (good_ok (Payload.within_plain.mpr hv))

theorem newIdentity_spared : Spared K cell (lift newIdentity : EvalM σ Identity) fun _ => True :=
  spared_lift (spares_newIdentities 1)

theorem asSignal_spares {result : Except EvalError Value} (h : ∀ v, result = .ok v → Confined K v) :
    Spares (silence K cell) (asSignal result : SignalM σ SignalId) K := by
  cases result with
  | error e => exact create_spares (c := .constant _) (good_error e.asSignalError)
  | ok v =>
    have hv := h v rfl
    cases v with
    | signal id => exact spares_pure (Value.within_signal.mp hv)
    | _ => exact constantSignal_spares hv

/-! ### The operations below -/

/-- The operations on signals that silent code computes, and on silent code, write no cell. -/
structure Rules.Spare (K cell : SignalId → Prop) (r : Rules σ) : Prop where
  signals : r.toRules.Spare (silence K cell)
  evaluate : ∀ p node env, Silent K p node env → Spared K cell (r.evaluate p node env) (Confined K)

namespace Rules.Spare

variable {r : Rules σ}

theorem read (hr : r.Spare K cell) {id : SignalId} (hid : K id) :
    Spared K cell (read r id) (Confined K) := by
  unfold Eval.read
  refine (spared_lift (hr.signals.read hid)).bind fun o ho => ?_
  cases o with
  | ok q => exact spared_pure (Payload.Within.value (ho q rfl))
  | error e => exact spared_throw _

theorem snapshot (hr : r.Spare K cell) {v : Value} (hv : Confined K v) :
    Spared K cell (snapshot r v) (Confined K) := by
  cases v with
  | signal id => exact hr.read (Value.within_signal.mp hv)
  | _ => exact spared_pure hv

theorem conform (hr : r.Spare K cell) {v : Value} (hv : Confined K v) (dynamic : Bool) :
    Spared K cell (conform r v dynamic) (Confined K) := by
  have hconstant (v : Value) (hv : Confined K v) :
      Spared K cell (do pure (.signal (← lift (constantSignal v))) : EvalM σ Value) (Confined K) :=
    (spared_lift (constantSignal_spares hv)).bind fun _ hid =>
      spared_pure (Value.within_signal.mpr hid)
  cases dynamic with
  | false =>
    cases v with
    | signal id => exact hr.read (Value.within_signal.mp hv)
    | _ => exact spared_pure hv
  | true =>
    cases v with
    | signal id => exact spared_pure hv
    | _ => exact hconstant _ hv

theorem settle (hr : r.Spare K cell) {result : Except EvalError Value}
    (h : ∀ v, result = .ok v → Confined K v) :
    Spares (silence K cell) (settle r result) (Good (silence K cell).payload) := by
  cases result with
  | error e => exact spares_pure (good_error _)
  | ok v =>
    have hv := h v rfl
    cases v with
    | signal id => exact hr.signals.read (Value.within_signal.mp hv)
    | _ => exact spares_pure (good_ok (Payload.within_plain.mpr hv))

/-! ### Putting values together -/

theorem assemble {recipe : Recipe} {values : List Value} (hcall : recipe ≠ .call)
    (hvalues : ∀ v ∈ values, Confined K v) :
    Spared K cell (assemble r recipe values) (Confined K) := by
  have hmake {f : Identity → Value} (hf : ∀ i, Confined K (f i)) :
      Spared K cell (do pure (f (← lift newIdentity)) : EvalM σ Value) (Confined K) :=
    newIdentity_spared.bind fun i _ => spared_pure (hf i)
  cases recipe with
  | object keys => exact hmake fun _ => Value.within_object.mpr (Value.within_zip keys hvalues)
  | array => exact hmake fun _ => Value.within_array.mpr hvalues
  | unary op => exact spared_pure (Value.within_unary op _)
  | binary op => exact spared_pure (Value.within_binary op _ _)
  | index => exact spared_pure ((Value.within_getD hvalues 0).index _)
  | call => exact absurd rfl hcall
  | element tag keys =>
    refine hmake fun _ => Value.within_element.mpr ⟨?_, fun v hv => ?_⟩
    · exact Value.within_zip keys fun v hv => hvalues v (List.mem_of_mem_take hv)
    · exact hvalues v (List.mem_of_mem_drop hv)

/-- Nodes are evaluated and their values put together, at once or in a signal. -/
theorem combine (hr : r.Spare K cell) {nodes : List NodeId} {recipe : Recipe}
    (hcall : recipe ≠ .call) (hcode : ∀ x ∈ nodes, Silent K p x env) :
    Spared K cell (combine r p nodes env recipe) (Confined K) := by
  unfold Eval.combine
  refine (Spared.mapM (S := fun _ v => Confined K v) fun x hx =>
    hr.evaluate p x env (hcode x hx)).bind fun values hvalues => ?_
  have hconfined : ∀ v ∈ values, Confined K v := by
    intro v hv
    obtain ⟨_, -, h⟩ := exists_left_of_mem hvalues hv
    exact h
  have hstep : (silence K cell).step
      (.combine recipe values ((dynamicSlots p nodes values).map Prod.fst)) := ⟨hcall, hconfined⟩
  have hsources : ∀ source ∈ (dynamicSlots p nodes values).map Prod.snd, K source :=
    fun _ hsource =>
      Value.within_signal.mp (hconfined _ (Regime.signal_mem_of_dynamicSlots hsource))
  simp only
  split
  · exact assemble hcall hconfined
  · rename_i source heq
    have hsource := hsources source (heq ▸ List.mem_singleton_self _)
    split
    · exact newSignal_spared (c := .mapFused source _) ⟨hsource, hstep⟩
    · exact newSignal_spared (c := .map source _ true) ⟨hsource, hstep⟩
  · refine (spared_lift (create_spares (c := .join _) hsources)).bind fun joined hjoined => ?_
    exact newSignal_spared (c := .map joined _ false) ⟨hjoined, hstep⟩

/-! ### The functions of signals -/

theorem applyStep (hr : r.Spare K cell) {step : Step} {q : Payload}
    (hstep : (silence K cell).step step) (hq : (silence K cell).payload q) :
    Spares (silence K cell) (applyStep r step q) (Good (silence K cell).payload) := by
  cases step with
  | combine recipe inputs slots =>
    obtain ⟨hcall, hinputs⟩ := hstep
    refine Spares.bind (assemble hcall (Regime.within_fill slots hinputs hq)) ?_
    exact fun result hresult => hr.settle hresult
  | close program params body env =>
    refine (spares_newIdentities 1).bind fun i _ => spares_pure (good_ok ?_)
    exact Payload.within_plain.mpr (confined_function _ _)

theorem chooseSignal (hr : r.Spare K cell) {choice : Choice} {q : Payload}
    (hchoice : (silence K cell).choice choice) (hq : (silence K cell).payload q) :
    Spares (silence K cell) (chooseSignal r choice q) K := by
  have hvalue : Confined K q.value := Payload.Within.value hq
  have hcode {program : Program} {node : NodeId} {env : ValueEnv}
      (h : Eval.Silent K program node env) :
      Spares (silence K cell) (do asSignal (← (r.evaluate program node env).run)) K :=
    Spares.bind (hr.evaluate program node env h) fun result hresult => asSignal_spares hresult
  cases choice with
  | member name =>
    refine asSignal_spares ?_
    rintro _ ⟨⟩
    exact hvalue.member name
  | logical op program right env =>
    unfold Eval.chooseSignal
    simp only
    split
    · exact constantSignal_spares hvalue
    · exact hcode hchoice
  | conditional program consequent alternate env =>
    unfold Eval.chooseSignal
    simp only
    split
    · exact hcode hchoice.1
    · exact hcode hchoice.2

/-! ### Expressions -/

theorem evaluateBinary (hr : r.Spare K cell) (op : BinaryOp) {left right : NodeId}
    (hleft : Silent K p left env) (hright : Silent K p right env) :
    Spared K cell (evaluateBinary r p op left right env) (Confined K) := by
  unfold Eval.evaluateBinary
  refine (isFailed_spared p left).bind fun failed _ => ?_
  split
  · exact hr.evaluate p right env hright
  · refine (isFailed_spared p right).bind fun failed _ => ?_
    split
    · exact hr.evaluate p left env hleft
    · exact hr.combine nofun
        (List.forall_mem_cons.mpr ⟨hleft, List.forall_mem_singleton.mpr hright⟩)

theorem evaluateLogical (hr : r.Spare K cell) (op : LogicalOp) {left right : NodeId}
    (hleft : Silent K p left env) (hright : Silent K p right env) :
    Spared K cell (evaluateLogical r p op left right env) (Confined K) := by
  unfold Eval.evaluateLogical
  refine (isFailed_spared p left).bind fun failed _ => ?_
  split
  · cases op with
    | and => exact spared_pure Value.within_undefined
    | or => exact hr.evaluate p right env hright
  · refine (hr.evaluate p left env hleft).bind fun v hv => ?_
    have hplain : Spared K cell
        (if decidesLogical op v then pure v else r.evaluate p right env) (Confined K) := by
      split
      · exact spared_pure hv
      · exact hr.evaluate p right env hright
    cases v with
    | signal id => exact newSignal_spared (c := .flatMap id _) ⟨Value.within_signal.mp hv, hright⟩
    | _ => exact hplain

theorem evaluateConditional (hr : r.Spare K cell) {test consequent alternate : NodeId}
    (htest : Silent K p test env) (hthen : Silent K p consequent env)
    (helse : Silent K p alternate env) :
    Spared K cell (evaluateConditional r p test consequent alternate env) (Confined K) := by
  unfold Eval.evaluateConditional
  refine (hr.evaluate p test env htest).bind fun v hv => ?_
  have hbranch : Silent K p (if v.isTruthy then consequent else alternate) env := by
    split
    · exact hthen
    · exact helse
  cases v with
  | signal id =>
    exact newSignal_spared (c := .flatMap id _) ⟨Value.within_signal.mp hv, hthen, helse⟩
  | _ => exact hr.evaluate p _ env hbranch

theorem evaluateMember (hr : r.Spare K cell) (name : String) {object : NodeId}
    (hobject : Silent K p object env) :
    Spared K cell (evaluateMember r p object name env) (Confined K) := by
  unfold Eval.evaluateMember
  refine (hr.evaluate p object env hobject).bind fun v hv => ?_
  cases v with
  | signal id => exact newSignal_spared (c := .flatMap id _) ⟨Value.within_signal.mp hv, trivial⟩
  | _ => exact spared_pure (Value.Within.member hv name)

omit r in
/-- A function is made, not called. -/
theorem evaluateArrow (h : Silent K p node env) (params : List Param) (body : NodeId)
    (dynamic : Bool) :
    Spared K cell (evaluateArrow p node params body dynamic env : EvalM σ Value) (Confined K) := by
  unfold Eval.evaluateArrow
  simp only
  split
  · refine (spared_lookUp _).bind fun uses huses => ?_
    have hsources := h.captured huses
    refine (spared_lift (create_spares (c := .join _) hsources)).bind fun joined hjoined => ?_
    exact newSignal_spared (c := .map joined _ false) ⟨hjoined, trivial⟩
  · exact newIdentity_spared.bind fun i _ => spared_pure (confined_function _ _)

omit r in
/-- The entries are those of property nodes. -/
theorem entriesOf_spared (p : Program) (nodes : List NodeId) :
    Spared K cell (entriesOf p nodes : EvalM σ (List (String × NodeId))) fun entries =>
      ∀ e ∈ entries, ∃ property ∈ nodes, p.tree.kind property = .ok (.property e.1 e.2) := by
  unfold entriesOf
  refine (spared_lookUp _).bind fun kinds hkinds => spared_pure fun e he => ?_
  obtain ⟨kind, hkind, hentry⟩ := List.mem_filterMap.mp he
  obtain ⟨property, hproperty, heq⟩ := exists_left_of_mem (mapM_eq_ok_iff.mp hkinds) hkind
  cases kind with
  | property key value =>
    cases hentry
    exact ⟨property, hproperty, heq⟩
  | _ => cases hentry

/-- Silent code of every form writes no cell. -/
theorem evaluateForm (hr : r.Spare K cell) (h : Silent K p node env) (typing : Typing) :
    Spared K cell (evaluateForm r p node typing env) (Confined K) := by
  unfold Eval.evaluateForm
  refine (spared_lookUp _).bind fun kind hkind => ?_
  -- Silent code neither calls nor assigns.
  have hacts : ¬ Acts kind := h.acts node kind .root hkind
  have hpart {x : NodeId} (hx : Part p.tree kind x) : Silent K p x env := h.part hkind hx
  cases kind with
  | undefined => exact spared_pure Value.within_undefined
  | null => exact spared_pure Value.within_null
  | literal value => exact spared_pure (Value.within_ofLiteral value)
  | identifier name =>
    simp only
    cases hv : env.get? name with
    | some v => exact spared_pure (h.names name v (.here hkind) hv)
    | none => exact spared_throw _
  | property key value => exact hr.evaluate p value env (hpart List.mem_cons_self)
  | object properties =>
    refine (entriesOf_spared p properties).bind fun entries hentries =>
      hr.combine (by simp) fun x hx => ?_
    obtain ⟨e, he, rfl⟩ := List.mem_map.mp hx
    obtain ⟨property, hproperty, heq⟩ := hentries e he
    exact hpart ⟨property, hproperty, e.1, heq⟩
  | array elements => exact hr.combine (by simp) fun x hx => hpart hx
  | unary op argument => exact hr.combine (by simp) fun x hx => hpart hx
  | binary op left right =>
    exact hr.evaluateBinary op (hpart List.mem_cons_self)
      (hpart (List.mem_cons_of_mem _ List.mem_cons_self))
  | logical op left right =>
    exact hr.evaluateLogical op (hpart List.mem_cons_self)
      (hpart (List.mem_cons_of_mem _ List.mem_cons_self))
  | conditional test consequent alternate =>
    exact hr.evaluateConditional (hpart List.mem_cons_self)
      (hpart (List.mem_cons_of_mem _ List.mem_cons_self))
      (hpart (List.mem_cons_of_mem _ (List.mem_cons_of_mem _ List.mem_cons_self)))
  | member object name => exact hr.evaluateMember name (hpart List.mem_cons_self)
  | index object position => exact hr.combine (by simp) fun x hx => hpart hx
  | call callee arguments => exact absurd trivial hacts
  | arrow params body => exact evaluateArrow h params body typing.dynamic
  | assignment target value => exact absurd trivial hacts
  | element tag attributes children =>
    refine (entriesOf_spared p attributes).bind fun entries hentries =>
      hr.combine (by simp) fun x hx => ?_
    rcases List.mem_append.mp hx with hx | hx
    · obtain ⟨e, he, rfl⟩ := List.mem_map.mp hx
      obtain ⟨property, hproperty, heq⟩ := hentries e he
      exact hpart (.inl ⟨property, hproperty, e.1, heq⟩)
    · exact hpart (.inr hx)
  | ascription expression written => exact hr.evaluate p expression env (hpart List.mem_cons_self)
  | constBinding _ _ _ _ => exact spared_throw _
  | letBinding _ _ _ _ _ => exact spared_throw _
  | importing _ _ => exact spared_throw _

theorem evaluateNode (hr : r.Spare K cell) (h : Silent K p node env) :
    Spared K cell (evaluateNode r p node env) (Confined K) := by
  unfold Eval.evaluateNode
  refine (spared_require p node).bind fun interface _ => ?_
  cases interface with
  | error e => exact spared_pure Value.within_undefined
  | ok typing => exact (hr.evaluateForm h typing).bind fun v hv => hr.conform hv _

end Rules.Spare

/-- At every depth reading signals that silent code computes, and evaluating silent code, writes no
    cell. -/
theorem rules_spare (K cell : SignalId → Prop) (host : Host σ) (depth : Nat) :
    (rules host depth).Spare K cell := by
  induction depth with
  | zero =>
    exact ⟨⟨fun _ _ => spares_throw _, fun _ _ _ _ => spares_throw _,
      fun _ _ _ _ => spares_throw _⟩, fun _ _ _ _ => spared_throwFault _⟩
  | succ depth ih =>
    refine ⟨⟨?_, ?_, ?_⟩, ?_⟩
    · exact fun id hid => ih.signals.reconcileNode hid
    · exact fun step q hstep hq => ih.applyStep hstep hq
    · exact fun choice q hchoice hq => ih.chooseSignal hchoice hq
    · exact fun p node env h => ih.evaluateNode h

end ReactiveDoc.Eval
