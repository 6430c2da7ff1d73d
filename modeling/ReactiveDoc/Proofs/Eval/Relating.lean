import ReactiveDoc.Eval.Expression
import ReactiveDoc.Proofs.Signal.Relating
import ReactiveDoc.Proofs.Signal.Request

namespace ReactiveDoc.Eval

/-!
# What becomes of a world by an evaluation

An evaluation does nothing by itself but add signals and give out identities.  So it leads to a
related world if these do, the operations on the nodes and signals below do, and the host does.

* `Covers` — a preorder that new signals and identities lead to related worlds of.
* `Rules.Relate` — the operations on the nodes and signals below lead to related worlds.
* `Rules.Relate.assign`, `Rules.Relate.evaluateForm` — then so does every form of expression.
* `Rules.Relate.applyStep`, `Rules.Relate.chooseSignal` — and so do the functions of signals.
-/

open Signal (World Relates RelatesFrom relates_pure relates_throw)

variable {σ α β : Type}

/-- A relation between worlds and what becomes of them: signals may be added and identities given
    out. -/
class Covers (R : World Payload Step Choice σ → World Payload Step Choice σ → Prop) : Prop extends
    IsPreorder (World Payload Step Choice σ) R where
  create : ∀ c : Signal.Creation Payload Step Choice,
    Relates R (Signal.create fun g => c.apply g : SignalM σ SignalId)
  newIdentities : ∀ n, Relates R (Signal.newIdentities n : SignalM σ Nat)

/-- The host functions, and what the host does with edits, lead to related worlds. -/
structure Host.Relate (R : World Payload Step Choice σ → World Payload Step Choice σ → Prop)
    (host : Host σ) : Prop where
  native : ∀ name args, Relates R (host.native name args).run
  save : ∀ save, host.save? = some save → ∀ path text, Relates R (save path text)

/-- The operations on the nodes and signals below lead to related worlds. -/
structure Rules.Relate (R : World Payload Step Choice σ → World Payload Step Choice σ → Prop)
    (r : Rules σ) : Prop where
  host : r.host.Relate R
  reconcile : ∀ id, Relates R (r.reconcile id)
  set : ∀ id o, Relates R (r.set id o)
  evaluate : ∀ p node env, Relates R (r.evaluate p node env).run

variable {R : World Payload Step Choice σ → World Payload Step Choice σ → Prop} [Covers R]

/-! ### Evaluations -/

section

variable {x : EvalM σ α}

/-- An evaluation may stop with an error at its first step. -/
theorem relates_bind {f : α → EvalM σ β} (h : Relates R x.run) (hf : ∀ a, Relates R (f a).run) :
    Relates R (x >>= f).run := by
  refine Relates.bind h fun result => ?_
  cases result with
  | ok a => exact hf a
  | error e => exact relates_pure _

theorem relates_ok (a : α) : Relates R (pure a : EvalM σ α).run := relates_pure _

theorem relates_stop (e : EvalError) : Relates R (throw e : EvalM σ α).run := relates_pure _

theorem relates_lift {y : SignalM σ α} (h : Relates R y) : Relates R (lift y : EvalM σ α).run := h.map

theorem relates_throwFault (e : Fault) : Relates R (throwFault e : EvalM σ α).run :=
  relates_lift (relates_throw e)

theorem relates_lookUp (y : Except Fault α) : Relates R (lookUp y : EvalM σ α).run := by
  apply relates_lift
  cases y with
  | ok a => exact relates_pure a
  | error e => exact relates_throw e

theorem relates_require (p : Program) (node : NodeId) :
    Relates R (require p node : EvalM σ Interface).run := relates_pure _

theorem isFailed_relates (p : Program) (node : NodeId) :
    Relates R (isFailed p node : EvalM σ Bool).run :=
  relates_bind (relates_require p node) fun _ => relates_ok _

theorem relates_mapM {f : α → EvalM σ β} {as : List α} (h : ∀ a ∈ as, Relates R (f a).run) :
    Relates R (as.mapM f).run := by
  induction as with
  | nil => exact relates_ok []
  | cons a as ih =>
    rw [List.mapM_cons]
    refine relates_bind (h a List.mem_cons_self) fun b => ?_
    refine relates_bind (ih fun a' ha' => h a' (List.mem_cons_of_mem _ ha')) fun bs => ?_
    exact relates_ok (b :: bs)

theorem newSignal_relates (c : Signal.Creation Payload Step Choice) :
    Relates R (newSignal fun g => c.apply g : EvalM σ Value).run :=
  relates_bind (relates_lift (Covers.create c)) fun _ => relates_ok _

theorem constantSignal_relates (v : Value) : Relates R (constantSignal v : SignalM σ SignalId) :=
  Covers.create (.constant _)

theorem newIdentity_relates : Relates R (lift newIdentity : EvalM σ Identity).run :=
  relates_lift (Covers.newIdentities 1)

end

section

variable {read : SignalId → SignalM σ Json}

mutual

/-- Writing a value leads where reading its signals leads. -/
theorem toJsonWith_relates (h : ∀ id, Relates R (read id)) : ∀ v : Value, Relates R (v.toJsonWith read)
  | .undefined | .null | .function _ _ => relates_pure _
  | .boolean _ | .number _ | .string _ => relates_pure _
  | .array _ items => (itemsToJson_relates h items).bind fun _ => relates_pure _
  | .object _ fields => (fieldsToJson_relates h fields).bind fun _ => relates_pure _
  | .element _ _ props children =>
      (fieldsToJson_relates h props).bind fun _ =>
        (itemsToJson_relates h children).bind fun _ => relates_pure _
  | .signal id => h id

theorem itemsToJson_relates (h : ∀ id, Relates R (read id)) :
    ∀ items : List Value, Relates R (Value.itemsToJson read items)
  | [] => relates_pure _
  | v :: vs =>
      (toJsonWith_relates h v).bind fun _ => (itemsToJson_relates h vs).bind fun _ => relates_pure _

theorem fieldsToJson_relates (h : ∀ id, Relates R (read id)) :
    ∀ fields : List (String × Value), Relates R (Value.fieldsToJson read fields)
  | [] => relates_pure _
  | (_, v) :: fs =>
      (toJsonWith_relates h v).bind fun _ => (fieldsToJson_relates h fs).bind fun _ => relates_pure _

end

end

namespace Rules.Relate

variable {r : Rules σ} (hr : r.Relate R)

include hr

/-! ### Signals and values -/

theorem readSignal (id : SignalId) : Relates R (r.toRules.read id) :=
  (hr.reconcile id).bind fun _ => Relates.bind Signal.relates_graph fun _ => relates_pure _

theorem read (id : SignalId) : Relates R (read r id).run := by
  unfold Eval.read
  refine relates_bind (relates_lift (hr.readSignal id)) fun o => ?_
  cases o with
  | ok p => exact relates_ok _
  | error e => exact relates_stop _

theorem snapshot (v : Value) : Relates R (snapshot r v).run := by
  cases v with
  | signal id => exact hr.read id
  | _ => exact relates_ok _

theorem conform (v : Value) (dynamic : Bool) : Relates R (conform r v dynamic).run := by
  have hconstant (v : Value) :
      Relates R (do pure (.signal (← lift (constantSignal v))) : EvalM σ Value).run :=
    relates_bind (relates_lift (constantSignal_relates v)) fun _ => relates_ok _
  cases dynamic with
  | false =>
    cases v with
    | signal id => exact hr.read id
    | _ => exact relates_ok _
  | true =>
    cases v with
    | signal id => exact relates_ok _
    | _ => exact hconstant _

theorem settle (result : Except EvalError Value) : Relates R (settle r result) := by
  cases result with
  | error e => exact relates_pure _
  | ok v =>
    cases v with
    | signal id => exact hr.readSignal id
    | _ => exact relates_pure _

omit hr in
theorem asSignal (result : Except EvalError Value) :
    Relates R (asSignal result : SignalM σ SignalId) := by
  cases result with
  | error e => exact Covers.create (.constant _)
  | ok v =>
    cases v with
    | signal id => exact relates_pure _
    | _ => exact constantSignal_relates _

/-! ### Putting values together -/

theorem call (callee : Value) (args : List Value) : Relates R (call r callee args).run := by
  cases callee with
  | function identity body =>
    cases body with
    | native name => exact hr.host.native name args
    | closure program params body env =>
      exact relates_bind (hr.evaluate _ _ _) fun v => hr.snapshot v
  | _ => exact relates_stop _

theorem assemble (recipe : Recipe) (values : List Value) :
    Relates R (assemble r recipe values).run := by
  cases recipe with
  | object keys => exact relates_bind newIdentity_relates fun _ => relates_ok _
  | array => exact relates_bind newIdentity_relates fun _ => relates_ok _
  | unary op => exact relates_ok _
  | binary op => exact relates_ok _
  | index => exact relates_ok _
  | call => exact hr.call _ _
  | element tag keys => exact relates_bind newIdentity_relates fun _ => relates_ok _

theorem combine (p : Program) (nodes : List NodeId) (env : ValueEnv) (recipe : Recipe) :
    Relates R (combine r p nodes env recipe).run := by
  unfold Eval.combine
  refine relates_bind (relates_mapM fun node _ => hr.evaluate p node env) fun values => ?_
  simp only
  split
  · exact hr.assemble recipe values
  · split
    · exact newSignal_relates (.mapFused _ _)
    · exact newSignal_relates (.map _ _ true)
  · refine relates_bind (relates_lift (Covers.create (.join _))) fun joined => ?_
    exact newSignal_relates (.map joined _ false)

theorem applyStep (step : Step) (p : Payload) : Relates R (applyStep r step p) := by
  cases step with
  | combine recipe inputs slots =>
    exact Relates.bind (hr.assemble recipe _) fun result => hr.settle result
  | close program params body env =>
    exact Relates.bind (Covers.newIdentities 1) fun _ => relates_pure _

theorem chooseSignal (choice : Choice) (p : Payload) : Relates R (chooseSignal r choice p) := by
  cases choice with
  | member name => exact asSignal _
  | logical op program right env =>
    unfold Eval.chooseSignal
    simp only
    split
    · exact constantSignal_relates _
    · exact Relates.bind (hr.evaluate program right env) fun result => asSignal result
  | conditional program consequent alternate env =>
    exact Relates.bind (hr.evaluate program _ env) fun result => asSignal result

/-! ### Assignment -/

theorem valueJson (depth : Nat) (v : Value) : Relates R (valueJson r depth v) := by
  induction depth generalizing v with
  | zero => exact relates_throw _
  | succ depth ih =>
    refine toJsonWith_relates (fun id => ?_) v
    refine (hr.readSignal id).bind fun o => ?_
    cases o with
    | ok p => exact ih p.value
    | error e => exact relates_pure _

theorem placePath (p : Program) (env : ValueEnv) (depth : Nat) (node : NodeId) :
    Relates R (placePath r p env depth node).run := by
  induction depth generalizing node with
  | zero => exact relates_throwFault _
  | succ depth ih =>
    unfold Eval.placePath
    refine relates_bind (relates_lookUp _) fun kind => ?_
    cases kind with
    | identifier name => exact relates_ok _
    | member object property => exact relates_bind (ih object) fun _ => relates_ok _
    | index object index =>
      refine relates_bind (ih object) fun place => ?_
      refine relates_bind (hr.evaluate p index env) fun v => ?_
      refine relates_bind (hr.snapshot v) fun v => ?_
      refine relates_bind ?_ fun segment => relates_ok _
      unfold indexSegment
      cases v with
      | number x =>
        simp only
        split
        · exact relates_ok _
        · exact relates_stop _
      | string key => exact relates_ok _
      | _ => exact relates_stop _
    | _ => exact relates_stop _

theorem write (id : SignalId) (v : Value) : Relates R (write r id v).run := by
  unfold Eval.write
  refine relates_bind (relates_lift (hr.set id _)) fun result => ?_
  cases result with
  | ok _ => exact relates_ok _
  | error e => exact relates_stop _

theorem produce (id : SignalId) (path : List Value.PathSegment) (v : Value) :
    Relates R (produce r id path v).run := by
  unfold Eval.produce
  refine relates_bind (hr.read id) fun draft => ?_
  refine relates_bind (relates_lift (Covers.newIdentities path.length)) fun fresh => ?_
  cases draft.setPath fresh path v r.host.capacity with
  | ok edited => exact hr.write id edited
  | error e =>
    have hfail : Relates R (do Eval.write r id draft; throwException (.edit e) : EvalM σ Unit).run :=
      relates_bind (hr.write id draft) fun _ => relates_stop _
    cases e with
    | tooLong position => exact relates_throwFault _
    | _ => exact hfail

theorem assignInto (cursor : Value) (path : List Value.PathSegment) (v : Value) :
    Relates R (assignInto r cursor path v).run := by
  induction path generalizing cursor with
  | nil =>
    cases cursor with
    | signal id => exact hr.write id v
    | _ => exact relates_stop _
  | cons segment rest ih =>
    cases cursor with
    | signal id => exact hr.produce id (segment :: rest) v
    | _ =>
      unfold Eval.assignInto
      split
      · exact ih _
      · exact relates_stop _

theorem report (root : String) (path : List Value.PathSegment) (v : Value) :
    Relates R (report r root path v).run := by
  unfold Eval.report
  cases hsave : r.host.save? with
  | none => exact relates_ok _
  | some save =>
    refine relates_bind (relates_lift (hr.valueJson _ v)) fun json => ?_
    exact relates_lift (hr.host.save save hsave _ _)

theorem assign (p : Program) (target value : NodeId) (env : ValueEnv) :
    Relates R (assign r p target value env).run := by
  unfold Eval.assign
  refine relates_bind (hr.evaluate p value env) fun v => relates_bind (hr.snapshot v) fun v => ?_
  refine relates_bind (hr.placePath p env _ target) fun place => ?_
  simp only
  cases env.get? place.1 with
  | none => exact relates_stop _
  | some owner =>
    refine relates_bind (hr.assignInto owner place.2 v) fun _ => ?_
    refine relates_bind (relates_require p target) fun interface => ?_
    split
    · exact relates_bind (hr.report _ _ v) fun _ => relates_ok _
    · exact relates_ok _

/-! ### Expressions -/

theorem evaluateBinary (p : Program) (op : BinaryOp) (left right : NodeId) (env : ValueEnv) :
    Relates R (evaluateBinary r p op left right env).run := by
  unfold Eval.evaluateBinary
  refine relates_bind (isFailed_relates p left) fun failed => ?_
  split
  · exact hr.evaluate p right env
  · refine relates_bind (isFailed_relates p right) fun failed => ?_
    split
    · exact hr.evaluate p left env
    · exact hr.combine p _ env _

theorem evaluateLogical (p : Program) (op : LogicalOp) (left right : NodeId) (env : ValueEnv) :
    Relates R (evaluateLogical r p op left right env).run := by
  unfold Eval.evaluateLogical
  refine relates_bind (isFailed_relates p left) fun failed => ?_
  split
  · cases op with
    | and => exact relates_ok _
    | or => exact hr.evaluate p right env
  · refine relates_bind (hr.evaluate p left env) fun v => ?_
    have hplain : Relates R (if decidesLogical op v then pure v else r.evaluate p right env).run := by
      split
      · exact relates_ok _
      · exact hr.evaluate p right env
    cases v with
    | signal id => exact newSignal_relates (.flatMap id _)
    | _ => exact hplain

theorem evaluateConditional (p : Program) (test consequent alternate : NodeId) (env : ValueEnv) :
    Relates R (evaluateConditional r p test consequent alternate env).run := by
  unfold Eval.evaluateConditional
  refine relates_bind (hr.evaluate p test env) fun v => ?_
  cases v with
  | signal id => exact newSignal_relates (.flatMap id _)
  | _ => exact hr.evaluate p _ env

theorem evaluateMember (p : Program) (object : NodeId) (name : String) (env : ValueEnv) :
    Relates R (evaluateMember r p object name env).run := by
  unfold Eval.evaluateMember
  refine relates_bind (hr.evaluate p object env) fun v => ?_
  cases v with
  | signal id => exact newSignal_relates (.flatMap id _)
  | _ => exact relates_ok _

omit hr in
theorem evaluateArrow (p : Program) (node : NodeId) (params : List Param) (body : NodeId)
    (dynamic : Bool) (env : ValueEnv) :
    Relates R (evaluateArrow p node params body dynamic env : EvalM σ Value).run := by
  unfold Eval.evaluateArrow
  simp only
  split
  · refine relates_bind (relates_lookUp _) fun uses => ?_
    refine relates_bind (relates_lift (Covers.create (.join _))) fun joined => ?_
    exact newSignal_relates (.map joined _ false)
  · exact relates_bind newIdentity_relates fun _ => relates_ok _

/-- Every form of expression leads to a related world. -/
theorem evaluateForm (p : Program) (node : NodeId) (typing : Typing) (env : ValueEnv) :
    Relates R (evaluateForm r p node typing env).run := by
  have hentries (nodes : List NodeId) :
      Relates R (entriesOf p nodes : EvalM σ (List (String × NodeId))).run :=
    relates_bind (relates_lookUp _) fun _ => relates_ok _
  unfold Eval.evaluateForm
  refine relates_bind (relates_lookUp _) fun kind => ?_
  cases kind with
  | undefined | null | literal => exact relates_ok _
  | identifier name =>
    simp only
    cases env.get? name with
    | some v => exact relates_ok _
    | none => exact relates_stop _
  | property key value => exact hr.evaluate p value env
  | object properties => exact relates_bind (hentries properties) fun _ => hr.combine p _ env _
  | array elements => exact hr.combine p elements env _
  | unary op argument => exact hr.combine p [argument] env _
  | binary op left right => exact hr.evaluateBinary p op left right env
  | logical op left right => exact hr.evaluateLogical p op left right env
  | conditional test consequent alternate =>
    exact hr.evaluateConditional p test consequent alternate env
  | member object name => exact hr.evaluateMember p object name env
  | index object position => exact hr.combine p [object, position] env _
  | call callee arguments => exact hr.combine p (callee :: arguments) env _
  | arrow params body => exact evaluateArrow p node params body typing.dynamic env
  | assignment target value => exact hr.assign p target value env
  | element tag attributes children =>
    exact relates_bind (hentries attributes) fun _ => hr.combine p _ env _
  | ascription expression annotation => exact hr.evaluate p expression env
  | constBinding | letBinding | importing => exact relates_stop _

theorem evaluateNode (p : Program) (node : NodeId) (env : ValueEnv) :
    Relates R (evaluateNode r p node env).run := by
  unfold Eval.evaluateNode
  refine relates_bind (relates_require p node) fun interface => ?_
  cases interface with
  | error e => exact relates_ok _
  | ok typing =>
    exact relates_bind (hr.evaluateForm p node typing env) fun v => hr.conform v typing.dynamic

end Rules.Relate

end ReactiveDoc.Eval
