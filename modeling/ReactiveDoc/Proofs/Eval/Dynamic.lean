import Mathlib
import ReactiveDoc.Proofs.Eval.Plain

namespace ReactiveDoc.Eval

/-!
# A value is a signal exactly if it changes over time

* `assign_yields`, `evaluateForm_yields` — every form of expression keeps what signals carry plain.
* `evaluateNode_yields` — the value of a node is a signal exactly if its interface is dynamic.
* `rules_plain` — this holds at every depth.
* `Later` — what may happen to signals after an evaluation.
* `signal_iff_dynamic` — all of it, for an evaluation and everything after it.
-/

open Signal (Keeps Good Graph World Creation Owning keeps_pure keeps_throw keeps_newIdentities
  good_ok good_error)

variable {σ : Type} {r : Rules σ}

/-! ### Assignment -/

/-- An edited copy is plain, for its containers are and the new part is. -/
theorem plain_setPath {fresh : Identity} {v new edited : Value} {path : List Value.PathSegment}
    {capacity : Nat}
    (hnew : new.Plain) (h : v.setPath fresh path new capacity = .ok edited) : edited.Plain := by
  cases path with
  | nil =>
    rw [Value.setPath] at h
    cases h
    exact hnew
  | cons segment rest =>
    unfold Value.setPath at h
    split at h
    · split at h
      · rename_i old _
        cases hrest : old.setPath (fresh + 1) rest new capacity with
        | error e =>
          rw [hrest] at h
          cases h
        | ok part =>
          rw [hrest] at h
          cases h
          exact fun _ h => nomatch h
      · split at h
        · cases h
          exact fun _ h => nomatch h
        · cases h
    · split at h
      · rename_i old _
        cases hrest : old.setPath (fresh + 1) rest new capacity with
        | error e =>
          rw [hrest] at h
          cases h
        | ok part =>
          rw [hrest] at h
          cases h
          exact fun _ h => nomatch h
      · split at h
        · cases h
        · split at h
          · cases h
          · cases h
            exact fun _ h => nomatch h
    · cases h

section

variable {I : Graph Payload Step Choice → Prop} {read : SignalId → SignalM σ Json}

mutual

/-- Writing a value keeps what reading its signals keeps. -/
theorem toJsonWith_keeps (h : ∀ id, Keeps I (read id) fun _ => True) :
    ∀ v : Value, Keeps I (v.toJsonWith read) fun _ => True
  | .undefined | .null | .function _ _ => keeps_pure trivial
  | .boolean _ | .number _ | .string _ => keeps_pure trivial
  | .array _ items => (itemsToJson_keeps h items).bind fun _ _ => keeps_pure trivial
  | .object _ fields => (fieldsToJson_keeps h fields).bind fun _ _ => keeps_pure trivial
  | .element _ _ props children =>
      (fieldsToJson_keeps h props).bind fun _ _ =>
        (itemsToJson_keeps h children).bind fun _ _ => keeps_pure trivial
  | .signal id => h id

theorem itemsToJson_keeps (h : ∀ id, Keeps I (read id) fun _ => True) :
    ∀ items : List Value, Keeps I (Value.itemsToJson read items) fun _ => True
  | [] => keeps_pure trivial
  | v :: vs =>
      (toJsonWith_keeps h v).bind fun _ _ =>
        (itemsToJson_keeps h vs).bind fun _ _ => keeps_pure trivial

theorem fieldsToJson_keeps (h : ∀ id, Keeps I (read id) fun _ => True) :
    ∀ fields : List (String × Value), Keeps I (Value.fieldsToJson read fields) fun _ => True
  | [] => keeps_pure trivial
  | (_, v) :: fs =>
      (toJsonWith_keeps h v).bind fun _ _ =>
        (fieldsToJson_keeps h fs).bind fun _ _ => keeps_pure trivial

end

end

theorem valueJson_keeps (hr : r.Plain) (depth : Nat) (v : Value) :
    Keeps PlainGraph (valueJson r depth v) fun _ => True := by
  induction depth generalizing v with
  | zero => exact keeps_throw _
  | succ depth ih =>
    refine toJsonWith_keeps (fun id => ?_) v
    refine (hr.signals.read id).bind fun o _ => ?_
    cases o with
    | ok p => exact ih p.value
    | error e => exact keeps_pure trivial

theorem placePath_yields (hr : r.Plain) (p : Program) (env : ValueEnv) (depth : Nat)
    (node : NodeId) : Yields (placePath r p env depth node) fun _ => True := by
  induction depth generalizing node with
  | zero => exact yields_throwFault _
  | succ depth ih =>
    unfold placePath
    refine (yields_lookUp _).bind fun kind _ => ?_
    cases kind with
    | identifier name => exact yields_pure trivial
    | member object property => exact (ih object).bind fun _ _ => yields_pure trivial
    | index object index =>
      refine (ih object).bind fun place _ => ?_
      refine (hr.evaluate p index env).bind fun v _ => ?_
      refine (snapshot_yields hr v).bind fun v _ => ?_
      have hsegment : Yields (indexSegment v : EvalM σ Value.PathSegment) fun _ => True := by
        unfold indexSegment
        cases v with
        | number x =>
          simp only
          split
          · exact yields_pure trivial
          · exact yields_throwException _
        | string key => exact yields_pure trivial
        | _ => exact yields_throwException _
      exact hsegment.bind fun _ _ => yields_pure trivial
    | _ => exact yields_throwInternal _

theorem write_yields (hr : r.Plain) (id : SignalId) {v : Value} (hv : v.Plain) :
    Yields (write r id v) fun _ => True := by
  unfold write
  refine (yields_lift (hr.signals.set id _ (good_ok (Payload.plain_plain hv)))).bind
    fun result _ => ?_
  cases result with
  | ok _ => exact yields_pure trivial
  | error e => exact yields_throw _

theorem produce_yields (hr : r.Plain) (id : SignalId) (path : List Value.PathSegment) {v : Value}
    (hv : v.Plain) : Yields (produce r id path v) fun _ => True := by
  unfold produce
  refine (read_yields hr id).bind fun draft hdraft => ?_
  refine (yields_lift (keeps_newIdentities path.length)).bind fun fresh _ => ?_
  cases hset : draft.setPath fresh path v r.host.capacity with
  | ok edited => exact write_yields hr id (plain_setPath hv hset)
  | error e =>
    -- All but one failure still write what was read.
    have hfail : Yields (do write r id draft; throwException (.edit e) : EvalM σ Unit)
        fun _ => True :=
      (write_yields hr id hdraft).bind fun _ _ => yields_throwException _
    cases e with
    | tooLong position => exact yields_throwFault _
    | _ => exact hfail

theorem assignInto_yields (hr : r.Plain) (cursor : Value) (path : List Value.PathSegment)
    {v : Value} (hv : v.Plain) : Yields (assignInto r cursor path v) fun _ => True := by
  induction path generalizing cursor with
  | nil =>
    cases cursor with
    | signal id => exact write_yields hr id hv
    | _ => exact yields_throwInternal _
  | cons segment rest ih =>
    cases cursor with
    | signal id => exact produce_yields hr id (segment :: rest) hv
    | _ =>
      unfold assignInto
      split
      · exact ih _
      · exact yields_throwException _

theorem report_yields (hr : r.Plain) (root : String) (path : List Value.PathSegment) (v : Value) :
    Yields (report r root path v) fun _ => True := by
  unfold report
  cases hsave : r.host.save? with
  | none => exact yields_pure trivial
  | some save =>
    refine (yields_lift (valueJson_keeps hr _ v)).bind fun json _ => ?_
    exact yields_lift (hr.host.save save hsave _ _)

theorem assign_yields (hr : r.Plain) (p : Program) (target value : NodeId) (env : ValueEnv) :
    Yields (assign r p target value env) fun _ => True := by
  unfold assign
  refine (hr.evaluate p value env).bind fun v _ => ?_
  refine (snapshot_yields hr v).bind fun v hv => ?_
  refine (placePath_yields hr p env _ target).bind fun place _ => ?_
  simp only
  cases env.get? place.1 with
  | none => exact yields_throwInternal _
  | some owner =>
    refine (assignInto_yields hr owner place.2 hv).bind fun _ _ => ?_
    refine (yields_require p target).bind fun interface _ => ?_
    split
    · exact (report_yields hr _ _ v).bind fun _ _ => yields_pure trivial
    · exact yields_pure trivial

/-! ### Expressions -/

theorem entriesOf_yields (p : Program) (nodes : List NodeId) :
    Yields (entriesOf p nodes : EvalM σ (List (String × NodeId))) fun _ => True :=
  (yields_lookUp _).bind fun _ _ => yields_pure trivial

theorem isFailed_yields (p : Program) (node : NodeId) :
    Yields (isFailed p node : EvalM σ Bool) fun _ => True :=
  (yields_require p node).bind fun _ _ => yields_pure trivial

/-- Evaluate a node, whatever its value. -/
theorem evaluate_yields (hr : r.Plain) (p : Program) (node : NodeId) (env : ValueEnv) :
    Yields (r.evaluate p node env) fun _ => True :=
  (hr.evaluate p node env).mono fun _ _ => trivial

theorem evaluateBinary_yields (hr : r.Plain) (p : Program) (op : BinaryOp) (left right : NodeId)
    (env : ValueEnv) : Yields (evaluateBinary r p op left right env) fun _ => True := by
  unfold evaluateBinary
  refine (isFailed_yields p left).bind fun failed _ => ?_
  split
  · exact evaluate_yields hr p right env
  · refine (isFailed_yields p right).bind fun failed _ => ?_
    split
    · exact evaluate_yields hr p left env
    · exact combine_yields hr p _ env _

theorem evaluateLogical_yields (hr : r.Plain) (p : Program) (op : LogicalOp) (left right : NodeId)
    (env : ValueEnv) : Yields (evaluateLogical r p op left right env) fun _ => True := by
  unfold evaluateLogical
  refine (isFailed_yields p left).bind fun failed _ => ?_
  have hright := evaluate_yields hr p right env
  split
  · cases op with
    | and => exact yields_pure trivial
    | or => exact hright
  · refine (hr.evaluate p left env).bind fun v _ => ?_
    have hplain : Yields (if decidesLogical op v then pure v else r.evaluate p right env)
        fun _ => True := by
      split
      · exact yields_pure trivial
      · exact hright
    cases v with
    | signal id => exact newSignal_yields (c := .flatMap id _) trivial
    | _ => exact hplain

theorem evaluateConditional_yields (hr : r.Plain) (p : Program)
    (test consequent alternate : NodeId) (env : ValueEnv) :
    Yields (evaluateConditional r p test consequent alternate env) fun _ => True := by
  unfold evaluateConditional
  refine (hr.evaluate p test env).bind fun v _ => ?_
  cases v with
  | signal id => exact newSignal_yields (c := .flatMap id _) trivial
  | _ => exact evaluate_yields hr p _ env

theorem evaluateMember_yields (hr : r.Plain) (p : Program) (object : NodeId) (name : String)
    (env : ValueEnv) : Yields (evaluateMember r p object name env) fun _ => True := by
  unfold evaluateMember
  refine (hr.evaluate p object env).bind fun v _ => ?_
  cases v with
  | signal id => exact newSignal_yields (c := .flatMap id _) trivial
  | _ => exact yields_pure trivial

theorem evaluateArrow_yields (p : Program) (node : NodeId) (params : List Param) (body : NodeId)
    (dynamic : Bool) (env : ValueEnv) :
    Yields (evaluateArrow p node params body dynamic env : EvalM σ Value) fun _ => True := by
  unfold evaluateArrow
  simp only
  split
  · refine (yields_lookUp _).bind fun uses _ => ?_
    refine (yields_lift (create_keeps (c := .join _) trivial)).bind fun joined _ => ?_
    exact newSignal_yields (c := .map joined _ false) trivial
  · exact newIdentity_yields.bind fun _ _ => yields_pure trivial

/-- Every form of expression keeps what signals carry plain. -/
theorem evaluateForm_yields (hr : r.Plain) (p : Program) (node : NodeId) (typing : Typing)
    (env : ValueEnv) : Yields (evaluateForm r p node typing env) fun _ => True := by
  unfold evaluateForm
  refine (yields_lookUp _).bind fun kind _ => ?_
  cases kind with
  | undefined => exact yields_pure trivial
  | null => exact yields_pure trivial
  | literal value => exact yields_pure trivial
  | identifier name =>
    simp only
    cases env.get? name with
    | some v => exact yields_pure trivial
    | none => exact yields_throwInternal _
  | property key value => exact evaluate_yields hr p value env
  | object properties =>
    exact (entriesOf_yields p properties).bind fun _ _ => combine_yields hr p _ env _
  | array elements => exact combine_yields hr p elements env _
  | unary op argument => exact combine_yields hr p [argument] env _
  | binary op left right => exact evaluateBinary_yields hr p op left right env
  | logical op left right => exact evaluateLogical_yields hr p op left right env
  | conditional test consequent alternate =>
    exact evaluateConditional_yields hr p test consequent alternate env
  | member object name => exact evaluateMember_yields hr p object name env
  | index object position => exact combine_yields hr p [object, position] env _
  | call callee arguments => exact combine_yields hr p (callee :: arguments) env _
  | arrow params body => exact evaluateArrow_yields p node params body typing.dynamic env
  | assignment target value => exact assign_yields hr p target value env
  | element tag attributes children =>
    exact (entriesOf_yields p attributes).bind fun _ _ => combine_yields hr p _ env _
  | ascription expression annotation => exact evaluate_yields hr p expression env
  | constBinding _ _ _ _ => exact yields_throwInternal _
  | letBinding _ _ _ _ _ => exact yields_throwInternal _
  | importing _ _ => exact yields_throwInternal _

/-- What a node that was checked evaluates to: `undefined` if it failed the check, and else a
    signal exactly if its interface is dynamic. -/
def Fits (interface? : Option Interface) (v : Value) : Prop :=
  ((∃ id, v = .signal id) ↔ ∃ typing, interface? = some (.ok typing) ∧ typing.dynamic = true) ∧
    ∀ e, interface? = some (.error e) → v = .undefined

theorem evaluateNode_yields (hr : r.Plain) (p : Program) (node : NodeId) (env : ValueEnv) :
    Yields (evaluateNode r p node env) (Fits (p.interfaces.get? node)) := by
  unfold evaluateNode
  refine (yields_require p node).bind fun interface hget => ?_
  rw [hget]
  cases interface with
  | error e =>
    refine yields_pure ⟨⟨?_, ?_⟩, fun _ _ => rfl⟩
    · rintro ⟨id, h⟩
      cases h
    · rintro ⟨typing, h, _⟩
      cases h
  | ok typing =>
    refine (evaluateForm_yields hr p node typing env).bind fun v _ => ?_
    refine (conform_yields hr v typing.dynamic).mono fun v hv => ⟨?_, fun e h => nomatch h⟩
    rw [← Value.not_plain_iff, hv]
    constructor
    · exact fun h => ⟨typing, rfl, h⟩
    · rintro ⟨_, ⟨⟩, h⟩
      exact h

/-- What fits is plain if the interface is not dynamic. -/
theorem Fits.dynamic_of_not_plain {interface? : Option Interface} {v : Value}
    (h : Fits interface? v) (hv : ¬ v.Plain) : interface?.any Interface.dynamic = true := by
  obtain ⟨typing, rfl, hdynamic⟩ := h.1.mp (Value.not_plain_iff.mp hv)
  exact hdynamic

/-- At every depth the operations keep all that signals carry plain. -/
theorem rules_plain {host : Host σ} (hhost : host.Plain) (depth : Nat) :
    (rules host depth).Plain := by
  induction depth with
  | zero =>
    exact ⟨Signal.Rules.keep_exhausted, hhost, fun _ _ _ => yields_throwFault _⟩
  | succ depth ih =>
    refine ⟨⟨?_, ?_, ?_, ?_, ?_⟩, hhost, ?_⟩
    · intro id
      exact ih.signals.reconcileNode (fun _ => Payload.plain_list) (fun _ _ _ h => nomatch h) id
    · intro id o ho
      exact ih.signals.setNode id ho
    · intro step p hstep hp
      exact applyStep_keeps ih hstep hp
    · intro step p hp
      exact keeps_pure hp
    · intro choice p hp
      exact chooseSignal_keeps ih choice hp
    · intro p node env
      exact (evaluateNode_yields ih p node env).mono fun v hv => hv.dynamic_of_not_plain

/-! ### Statements -/

theorem evaluateLet_yields (hr : r.Plain) (p : Program) (name : String) (value : NodeId)
    (env : ValueEnv) : Yields (evaluateLet r p name value env) fun _ => True := by
  unfold evaluateLet
  refine (hr.evaluate p value env).bind fun v _ => ?_
  refine (snapshot_yields hr v).bind fun initial hinitial => ?_
  have hcell := create_keeps (σ := σ) (c := .cell _) (good_ok (Payload.plain_plain hinitial))
  refine (yields_lift hcell).bind fun cell _ => ?_
  exact newSignal_yields (c := .label cell name) trivial

theorem evaluateStatement_yields (hr : r.Plain) (p : Program) (modules : ModuleValues)
    (node : NodeId) (env : ValueEnv) :
    Yields (evaluateStatement r p modules node env) fun _ => True := by
  unfold evaluateStatement
  refine (yields_require p node).bind fun interface _ => ?_
  refine (yields_lookUp _).bind fun kind _ => ?_
  cases kind with
  | constBinding name _ value _ =>
    simp only
    split
    · exact yields_pure trivial
    · refine (hr.evaluate p value env).bind fun v _ => ?_
      exact (conform_yields hr v _).bind fun _ _ => yields_pure trivial
  | letBinding name _ value _ _ =>
    simp only
    split
    · exact yields_pure trivial
    · exact (evaluateLet_yields hr p name value env).bind fun _ _ => yields_pure trivial
  | importing path specifiers => exact yields_pure trivial
  | _ => exact (evaluate_yields hr p node env).bind fun _ _ => yields_pure trivial

/-! ### What happens later -/

/-- Something that is done with signals: evaluation of a statement or an expression, a call of a
    function, a new signal, a read or a write of one, and what nothing holds being let go. -/
inductive Event where
  | evaluate (p : Program) (modules : ModuleValues) (node : NodeId) (env : ValueEnv)
  | call (callee : Value) (args : List Value)
  | create (c : Creation Payload Step Choice)
  | resolve (reference target : SignalId)
  | set (id : SignalId) (o : Outcome Payload)
  | read (id : SignalId)
  | release (o : Owning Payload Step Choice) (held : List SignalId)

/-- The event gives no signal to another one, nor to a function of the host. -/
def Event.Plain : Event → Prop
  | call _ args => ∀ v ∈ args, v.Plain
  | create c => c.All Payload.Plain Step.Plain
  | set _ o => Good Payload.Plain o
  | _ => True

/-- Carry out an event, whether it succeeds or not. -/
def Event.run (r : Rules σ) : Event → SignalM σ Unit
  | evaluate p modules node env => discard (evaluateStatement r p modules node env).run
  | call callee args => discard (Eval.call r callee args).run
  | create c => discard (Signal.create fun g => c.apply g)
  | resolve reference target => discard (Signal.resolve reference target)
  | set id o => discard (r.set id o)
  | read id => discard (r.toRules.read id)
  | release o held => Signal.update fun g => g.release o held

/-- What comes after some events, each at a depth of its own. -/
inductive Later (host : Host σ) (w : World Payload Step Choice σ) :
    World Payload Step Choice σ → Prop
  | now : Later host w w
  | next {w₁ w₂} (event : Event) (depth : Nat) (h : Later host w w₁) (hplain : event.Plain)
      (hrun : event.run (rules host depth) w₁ = .ok ((), w₂)) : Later host w w₂

theorem Event.run_keeps (hr : r.Plain) {event : Event} (h : event.Plain) :
    Keeps PlainGraph (event.run r) fun _ => True := by
  cases event with
  | evaluate p modules node env =>
    exact Keeps.map (evaluateStatement_yields hr p modules node env) fun _ _ => trivial
  | call callee args => exact Keeps.map (call_yields hr callee h) fun _ _ => trivial
  | create c => exact (create_keeps h).map fun _ _ => trivial
  | resolve reference target =>
    exact (Signal.keeps_resolve reference target).map fun _ _ => trivial
  | set id o => exact (hr.signals.set id o h).map fun _ _ => trivial
  | read id => exact (hr.signals.read id).map fun _ _ => trivial
  | release o held =>
    exact Signal.keeps_update (f := fun g => g.release o held) fun _ hg => Graph.All.release hg o held

/-- What signals carry stays plain. -/
theorem Later.plainGraph {host : Host σ} (hhost : host.Plain)
    {w w' : World Payload Step Choice σ} (h : Later host w w') (hw : PlainGraph w.graph) :
    PlainGraph w'.graph := by
  induction h with
  | now => exact hw
  | next event depth _ hevent hrun ih =>
    exact (Event.run_keeps (rules_plain hhost depth) hevent ih hrun).1

/-- A node that failed the check evaluates to `undefined`.  Any other one evaluates to a signal
    exactly if its interface is dynamic, and whatever happens later, reading a signal never gives a
    signal. -/
theorem signal_iff_dynamic {host : Host σ} (hhost : host.Plain) (depth : Nat) (p : Program)
    (node : NodeId) (env : ValueEnv) {w : World Payload Step Choice σ} (hw : PlainGraph w.graph) :
    (∀ e, p.interfaces.get? node = some (.error e) →
      (rules host (depth + 1)).evaluate p node env w = .ok (.ok .undefined, w)) ∧
    ∀ result w', (rules host (depth + 1)).evaluate p node env w = .ok (result, w') →
      (∀ v, result = .ok v → ((∃ id, v = .signal id) ↔
        ∃ typing, p.interfaces.get? node = some (.ok typing) ∧ typing.dynamic = true)) ∧
      ∀ w'', Later host w' w'' → ∀ depth' id o w₃,
        (rules host depth').toRules.read id w'' = .ok (o, w₃) →
          ∀ target, o ≠ .ok (.plain (.signal target)) := by
  refine ⟨fun e he => ?_, fun result w' hrun => ?_⟩
  · show evaluateNode (rules host depth) p node env w = _
    unfold evaluateNode require InterfaceMap.require
    rw [he]
    rfl
  · have hnode := evaluateNode_yields (rules_plain hhost depth) p node env hw hrun
    refine ⟨fun v hv => (hnode.2 v hv).1, fun w'' hlater depth' id o w₃ hread target ho => ?_⟩
    have hgood := ((rules_plain hhost depth').signals.read id (hlater.plainGraph hhost hnode.1) hread).2
    exact hgood _ ho _ (List.mem_singleton_self _) target rfl

/-- A host with one function, which makes a cell with its argument. -/
def lifting : Host Unit where
  native name args :=
    if name = "lift" then newSignal fun g => g.cell (.ok (.plain (args.getD 0 .undefined)))
    else throwException (.stated name)

theorem lifting_plain : lifting.Plain := by
  refine ⟨fun name args hargs => ?_, fun _ h => nomatch h⟩
  unfold lifting
  simp only
  split
  · refine newSignal_yields (c := .cell _) (good_ok (Payload.plain_plain ?_))
    rw [List.getD_eq_getElem?_getD]
    cases hfirst : args[0]? with
    | none => exact fun _ h => nomatch h
    | some v => exact hargs v (List.mem_of_getElem? hfirst)
  · exact yields_throwException _

/-- The call `lift(c)`. -/
def lifted : Program where
  tree := ⟨#[⟨default, .identifier "lift"⟩, ⟨default, .identifier "c"⟩, ⟨default, .call 0 [1]⟩]⟩
  interfaces := ⟨#[some (.ok (.fixed .unknown)), some (.ok { ty := .string, dynamic := true }),
    some (.ok { ty := .string, dynamic := true })]⟩

/-- The function of the host, and a cell. -/
def liftedEnv : ValueEnv := ⟨[("lift", .function 0 (.native "lift")), ("c", .signal 0)]⟩

/-- A world with the cell. -/
def liftedWorld : World Payload Step Choice Unit :=
  ⟨(Graph.cell {} (.ok (.plain (.string "x")))).2, 1, ()⟩

/-- The call is a signal.  Whenever it is computed the function makes a new cell, but it is what
    that cell carries that is read. -/
theorem signal_iff_dynamic_lifted : ∃ w' w'',
    (rules lifting 4).evaluate lifted 2 liftedEnv liftedWorld = .ok (.ok (.signal 1), w') ∧
    (rules lifting 4).toRules.read 1 w' = .ok (.ok (.plain (.string "x")), w'') ∧
    ((∃ id, Value.signal 1 = .signal id) ↔
      ∃ typing, lifted.interfaces.get? 2 = some (.ok typing) ∧ typing.dynamic = true) ∧
    ∀ w₂, Later lifting w' w₂ → ∀ depth id o w₃,
      (rules lifting depth).toRules.read id w₂ = .ok (o, w₃) →
        ∀ target, o ≠ .ok (.plain (.signal target)) := by
  have hplain : PlainGraph liftedWorld.graph :=
    Graph.All.empty.create (c := .cell _) (good_ok (Payload.plain_plain fun _ h => nomatch h))
  obtain ⟨w', w'', hrun, hread⟩ : ∃ w' w'',
      (rules lifting 4).evaluate lifted 2 liftedEnv liftedWorld = .ok (.ok (.signal 1), w') ∧
      (rules lifting 4).toRules.read 1 w' = .ok (.ok (.plain (.string "x")), w'') :=
    ⟨_, _, rfl, rfl⟩
  obtain ⟨-, hrest⟩ := signal_iff_dynamic lifting_plain 3 lifted 2 liftedEnv hplain
  obtain ⟨hiff, hlater⟩ := hrest _ w' hrun
  exact ⟨w', w'', hrun, hread, hiff _ rfl, hlater⟩

end ReactiveDoc.Eval
