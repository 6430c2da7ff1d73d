import ReactiveDoc.Proofs.Eval.Regime

namespace ReactiveDoc.Eval

/-!
# Evaluation never leaves a regime

* `Regime.Governs.assign`, `Regime.Governs.evaluateForm` — every form of expression keeps to the
  regime, if the operations on the nodes below do so.
* `Regime.governs_rules` — so the operations at every depth do so.
* `Regime.Governs.evaluateStatement` — statements do so too.
-/

open Signal (Stage Tier Discipline Preserves Creation preserves_pure preserves_throw
  preserves_create preserves_newIdentities)

variable {σ α β : Type}

namespace Regime

variable {M : Regime} {s s' : Stage} {t : Tier}

/-! ### Assignment -/

section

variable {read : SignalId → SignalM σ Json}

mutual

/-- Writing a value reads its signals. -/
theorem toJsonWith_preserves :
    ∀ {s : Stage} (v : Value), (∀ s', s.Grows s' → ∀ id ∈ v.signals,
      Preserves M.discipline s' (read id) fun _ _ => True) →
    Preserves M.discipline s (v.toJsonWith read) fun _ _ => True
  | _, .undefined, _ | _, .null, _ | _, .function _ _, _ => preserves_pure trivial
  | _, .boolean _, _ | _, .number _, _ | _, .string _, _ => preserves_pure trivial
  | _, .array _ items, h =>
      (itemsToJson_preserves items h).bind fun _ _ _ _ => preserves_pure trivial
  | _, .object _ fields, h =>
      (fieldsToJson_preserves fields h).bind fun _ _ _ _ => preserves_pure trivial
  | _, .element _ _ props children, h =>
      (fieldsToJson_preserves props fun s' hs id hid =>
        h s' hs id (List.mem_append_left _ hid)).bind fun _ hs _ _ =>
          (itemsToJson_preserves children fun s' hs' id hid =>
            h s' (hs.trans hs') id (List.mem_append_right _ hid)).bind
              fun _ _ _ _ => preserves_pure trivial
  | _, .signal id, h => h _ (.refl _) id (List.mem_singleton_self id)

theorem itemsToJson_preserves :
    ∀ {s : Stage} (items : List Value), (∀ s', s.Grows s' → ∀ id ∈ Value.itemsSignals items,
      Preserves M.discipline s' (read id) fun _ _ => True) →
    Preserves M.discipline s (Value.itemsToJson read items) fun _ _ => True
  | _, [], _ => preserves_pure trivial
  | _, v :: vs, h =>
      (toJsonWith_preserves v fun s' hs id hid => h s' hs id (List.mem_append_left _ hid)).bind
        fun _ hs _ _ => (itemsToJson_preserves vs fun s' hs' id hid =>
          h s' (hs.trans hs') id (List.mem_append_right _ hid)).bind
            fun _ _ _ _ => preserves_pure trivial

theorem fieldsToJson_preserves :
    ∀ {s : Stage} (fields : List (String × Value)),
      (∀ s', s.Grows s' → ∀ id ∈ Value.fieldsSignals fields,
        Preserves M.discipline s' (read id) fun _ _ => True) →
    Preserves M.discipline s (Value.fieldsToJson read fields) fun _ _ => True
  | _, [], _ => preserves_pure trivial
  | _, (_, v) :: fs, h =>
      (toJsonWith_preserves v fun s' hs id hid => h s' hs id (List.mem_append_left _ hid)).bind
        fun _ hs _ _ => (fieldsToJson_preserves fs fun s' hs' id hid =>
          h s' (hs.trans hs') id (List.mem_append_right _ hid)).bind
            fun _ _ _ _ => preserves_pure trivial

end

end

namespace Governs

variable {r : Rules σ}

theorem valueJson (hr : M.Governs r) (depth : Nat) {v : Value} (hv : M.Allows s t v) :
    Preserves M.discipline s (Eval.valueJson r depth v) fun _ _ => True := by
  induction depth generalizing s v with
  | zero => exact preserves_throw _
  | succ depth ih =>
    refine toJsonWith_preserves v fun s' hs id hid => ?_
    have hreadable := (hv.signals id hid).later hs
    refine (hr.signals.read hreadable).bind fun s₁ _ o ho => ?_
    cases o with
    | ok p => exact ih (Payload.Within.value ho)
    | error e => exact preserves_pure trivial

/-- The name that a place starts from is that of an identifier on the place. -/
theorem placePath (hr : M.Governs r) {p : Program} {env : ValueEnv} {target : NodeId} (depth : Nat)
    {x : NodeId} (hx : OnPlace p.tree target x)
    (hindex : ∀ x object index, OnPlace p.tree target x →
      p.tree.kind x = .ok (.index object index) → M.code s .ready p index env) :
    M.Admits s (Eval.placePath r p env depth x) fun _ place =>
      ∃ x, OnPlace p.tree target x ∧ p.tree.kind x = .ok (.identifier place.1) := by
  induction depth generalizing s x with
  | zero => exact admits_throwFault _
  | succ depth ih =>
    unfold Eval.placePath
    refine Admits.lookUp_bind fun kind hkind => ?_
    cases kind with
    | identifier name => exact admits_pure ⟨x, hx, hkind⟩
    | member object property =>
      exact (ih (hx.member hkind) hindex).bind fun _ _ _ hplace => admits_pure hplace
    | index object index =>
      refine (ih (hx.index hkind) hindex).bind fun s₁ hs₁ place hplace => ?_
      have hcode := code_later (hindex x object index hx hkind) hs₁
      refine (hr.evaluate s₁ .ready p index env hcode).bind fun s₂ _ v hv => ?_
      refine (hr.snapshot hv).bind fun s₃ _ v _ => ?_
      have hsegment : M.Admits s₃ (indexSegment v : EvalM σ Value.PathSegment)
          fun _ _ => True := by
        unfold indexSegment
        cases v with
        | number x =>
          simp only
          split
          · exact admits_pure trivial
          · exact admits_throwException _
        | string key => exact admits_pure trivial
        | _ => exact admits_throwException _
      exact hsegment.bind fun _ _ _ _ => admits_pure hplace
    | _ => exact admits_throw (M.notAPlace x)

theorem write (hr : M.Governs r) {id : SignalId} (hid : s.Readable .ready id) {v : Value}
    (hv : M.Allows s .ready v) : M.Admits s (Eval.write r id v) fun _ _ => True := by
  unfold Eval.write
  have hset := hr.signals.set s id (.ok (.plain v)) hid (Payload.within_plain.mpr hv)
  refine (admits_lift hset).bind fun s' _ result hresult => ?_
  cases result with
  | ok _ => exact admits_pure trivial
  | error e => exact admits_throw (hresult e rfl)

theorem produce (hr : M.Governs r) {id : SignalId} (hid : s.Readable .ready id)
    (path : List Value.PathSegment) {v : Value} (hv : M.Allows s .ready v) :
    M.Admits s (Eval.produce r id path v) fun _ _ => True := by
  unfold Eval.produce
  refine (hr.read hid).bind fun s₁ hs₁ draft hdraft => ?_
  refine (admits_lift (preserves_newIdentities path.length)).bind fun s₂ hs₂ fresh _ => ?_
  have hid₂ := hid.later (hs₁.trans hs₂)
  have hdraft₂ := Allows.later hdraft hs₂
  have hv₂ := Allows.later hv (hs₁.trans hs₂)
  cases hset : draft.setPath fresh path v r.host.capacity with
  | ok edited => exact hr.write hid₂ (hdraft₂.setPath hv₂ hset)
  | error e =>
    -- All but one failure still write what was read.
    have hfail : M.Admits s₂ (do Eval.write r id draft; throwException (.edit e) : EvalM σ Unit)
        fun _ _ => True :=
      (hr.write hid₂ hdraft₂).bind fun _ _ _ _ => admits_throwException _
    cases e with
    | tooLong position => exact admits_throwFault _
    | _ => exact hfail

theorem assignInto (hr : M.Governs r) {cursor : Value} (hcursor : M.Allows s .ready cursor)
    (path : List Value.PathSegment) {v : Value} (hv : M.Allows s .ready v) :
    M.Admits s (Eval.assignInto r cursor path v) fun _ _ => True := by
  induction path generalizing cursor with
  | nil =>
    cases cursor with
    | signal id => exact hr.write (Value.within_signal.mp hcursor) hv
    | _ => exact admits_throw M.noCell
  | cons segment rest ih =>
    cases cursor with
    | signal id => exact hr.produce (Value.within_signal.mp hcursor) (segment :: rest) hv
    | _ =>
      unfold Eval.assignInto
      split
      next hpart => exact ih (hcursor.child? hpart)
      next => exact admits_throwException _

theorem report (hr : M.Governs r) (root : String) (path : List Value.PathSegment) {v : Value}
    (hv : M.Allows s t v) : M.Admits s (Eval.report r root path v) fun _ _ => True := by
  unfold Eval.report
  cases hsave : r.host.save? with
  | none => exact admits_pure trivial
  | some save =>
    refine (admits_lift (hr.valueJson _ hv)).bind fun s' _ json _ => ?_
    exact admits_lift (hr.host.save save hsave s' _ _)

theorem assign (hr : M.Governs r) {p : Program} {node target value : NodeId} {env : ValueEnv}
    {typing : Typing} (hcode : M.code s .ready p node env)
    (hget : p.interfaces.get? node = some (.ok typing))
    (hkind : p.tree.kind node = .ok (.assignment target value)) :
    M.Admits s (Eval.assign r p target value env) fun s' => M.Allows s' .ready := by
  unfold Eval.assign
  refine (hr.evaluate s .ready p value env (M.part hcode hget hkind rfl)).bind
    fun s₁ hs₁ v hv => ?_
  refine (hr.snapshot hv).bind fun s₂ hs₂ v hv => ?_
  have hcode₂ := code_later hcode (hs₁.trans hs₂)
  refine (hr.placePath _ .target fun x object index hx hindex =>
    M.index hcode₂ hget hkind hx hindex).bind fun s₃ hs₃ place hplace => ?_
  obtain ⟨x, hx, hname⟩ := hplace
  have hcode₃ := code_later hcode₂ hs₃
  have hroot := M.root hcode₃ hget hkind hx hname
  have hv₃ := Allows.later hv hs₃
  simp only
  cases howner : env.get? place.1 with
  | none => exact admits_throw (hroot.2 howner)
  | some owner =>
    refine (hr.assignInto (hroot.1 owner howner) place.2 hv₃).bind fun s₄ hs₄ _ _ => ?_
    have hv₄ := Allows.later hv₃ hs₄
    refine Admits.require_bind (M.target hcode₃ hget hkind) fun i _ => ?_
    split
    · exact (hr.report _ _ hv₄).bind fun _ hs _ _ => admits_pure (hv₄.later hs)
    · exact admits_pure hv₄

/-! ### Expressions -/

/-- Code whose parts are known. -/
theorem isFailed_bind {p : Program} {node : NodeId} {env : ValueEnv} {f : Bool → EvalM σ β}
    {R : Stage → β → Prop} (hcode : M.code s t p node env)
    (hf : ∀ failed, M.Admits s (f failed) R) : M.Admits s (isFailed p node >>= f) R := by
  unfold isFailed
  rw [bind_assoc]
  refine Admits.require_bind (M.checked hcode) fun i _ => ?_
  rw [pure_bind]
  exact hf _

theorem evaluateBinary (hr : M.Governs r) {p : Program} (op : BinaryOp) {left right : NodeId}
    {env : ValueEnv} (hleft : M.code s t p left env) (hright : M.code s t p right env) :
    M.Admits s (Eval.evaluateBinary r p op left right env) fun s' => M.Allows s' t := by
  unfold Eval.evaluateBinary
  refine isFailed_bind hleft fun failed => ?_
  split
  · exact hr.evaluate s t p right env hright
  · refine isFailed_bind hright fun failed => ?_
    split
    · exact hr.evaluate s t p left env hleft
    · exact hr.combine nofun (List.forall_mem_cons.mpr ⟨hleft, List.forall_mem_singleton.mpr hright⟩)

theorem evaluateLogical (hr : M.Governs r) {p : Program} (op : LogicalOp) {left right : NodeId}
    {env : ValueEnv} (hleft : M.code s t p left env) (hright : M.code s t p right env) :
    M.Admits s (Eval.evaluateLogical r p op left right env) fun s' => M.Allows s' t := by
  unfold Eval.evaluateLogical
  refine isFailed_bind hleft fun failed => ?_
  split
  · cases op with
    | and => exact admits_pure Value.within_undefined
    | or => exact hr.evaluate s t p right env hright
  · refine (hr.evaluate s t p left env hleft).bind fun s₁ hs₁ v hv => ?_
    have hright₁ := code_later hright hs₁
    have hplain : M.Admits s₁ (if decidesLogical op v then pure v else r.evaluate p right env)
        fun s' => M.Allows s' t := by
      split
      · exact admits_pure hv
      · exact hr.evaluate s₁ t p right env hright₁
    cases v with
    | signal id =>
      exact newSignal_admits (c := .flatMap id _) ⟨Value.within_signal.mp hv, hright₁⟩
    | _ => exact hplain

theorem evaluateConditional (hr : M.Governs r) {p : Program} {test consequent alternate : NodeId}
    {env : ValueEnv} (htest : M.code s t p test env) (hthen : M.code s t p consequent env)
    (helse : M.code s t p alternate env) :
    M.Admits s (Eval.evaluateConditional r p test consequent alternate env)
      fun s' => M.Allows s' t := by
  unfold Eval.evaluateConditional
  refine (hr.evaluate s t p test env htest).bind fun s₁ hs₁ v hv => ?_
  have hthen₁ := code_later hthen hs₁
  have helse₁ := code_later helse hs₁
  have hbranch : M.code s₁ t p (if v.isTruthy then consequent else alternate) env := by
    split
    · exact hthen₁
    · exact helse₁
  cases v with
  | signal id =>
    exact newSignal_admits (c := .flatMap id _) ⟨Value.within_signal.mp hv, hthen₁, helse₁⟩
  | _ => exact hr.evaluate s₁ t p _ env hbranch

theorem evaluateMember (hr : M.Governs r) {p : Program} {object : NodeId} (name : String)
    {env : ValueEnv} (hobject : M.code s t p object env) :
    M.Admits s (Eval.evaluateMember r p object name env) fun s' => M.Allows s' t := by
  unfold Eval.evaluateMember
  refine (hr.evaluate s t p object env hobject).bind fun s₁ _ v hv => ?_
  cases v with
  | signal id => exact newSignal_admits (c := .flatMap id _) ⟨Value.within_signal.mp hv, trivial⟩
  | _ => exact admits_pure (Value.Within.member hv name)

/-- A function is made at once, or anew whenever a signal that it uses changes. -/
theorem evaluateArrow {p : Program} {node : NodeId} {params : List Param} {body : NodeId}
    {dynamic : Bool} {env : ValueEnv}
    (hfunction : M.function s t ⟨p, params.map Param.name, body, env⟩)
    (hcaptured : dynamic = true → ∀ uses, p.tree.references node = .ok uses →
      ∀ id ∈ capturedSignals p uses env, s.Readable t id) :
    M.Admits s (Eval.evaluateArrow p node params body dynamic env : EvalM σ Value)
      fun s' => M.Allows s' t := by
  unfold Eval.evaluateArrow
  simp only
  split
  · rename_i hdynamic
    refine Admits.lookUp_bind fun uses huses => ?_
    have hsources := hcaptured hdynamic uses huses
    refine (admits_lift (preserves_create (c := .join _) hsources)).bind fun s₁ hs₁ joined hj => ?_
    exact newSignal_admits (c := .map joined _ false)
      ⟨hj, M.function_mono hs₁.before hfunction⟩
  · refine newIdentity_admits.bind fun s₁ hs₁ i _ => admits_pure ?_
    exact Value.within_closure.mpr (M.function_mono hs₁.before hfunction)

/-- The entries are those of property nodes. -/
theorem entriesOf_bind {p : Program} {nodes : List NodeId}
    {f : List (String × NodeId) → EvalM σ β} {R : Stage → β → Prop}
    (hf : ∀ entries : List (String × NodeId), (∀ e ∈ entries, ∃ property ∈ nodes,
      p.tree.kind property = .ok (.property e.1 e.2)) → M.Admits s (f entries) R) :
    M.Admits s (entriesOf p nodes >>= f) R := by
  unfold entriesOf
  rw [bind_assoc]
  refine Admits.lookUp_bind fun kinds hkinds => ?_
  rw [pure_bind]
  refine hf _ fun e he => ?_
  obtain ⟨kind, hkind, hentry⟩ := List.mem_filterMap.mp he
  obtain ⟨property, hproperty, heq⟩ := exists_left_of_mem (mapM_eq_ok_iff.mp hkinds) hkind
  cases kind with
  | property key value =>
    cases hentry
    exact ⟨property, hproperty, heq⟩
  | _ => cases hentry

/-- Every form of expression keeps to the regime. -/
theorem evaluateForm (hr : M.Governs r) {p : Program} {node : NodeId} {typing : Typing}
    {env : ValueEnv} (hcode : M.code s t p node env)
    (hget : p.interfaces.get? node = some (.ok typing)) :
    M.Admits s (Eval.evaluateForm r p node typing env) fun s' => M.Allows s' t := by
  unfold Eval.evaluateForm
  refine Admits.lookUp_bind fun kind hkind => ?_
  have hpart {x : NodeId} (hx : Part p.tree kind x) : M.code s t p x env :=
    M.part hcode hget hkind hx
  -- Calls and assignments act, which the regime has to be ready for.
  have hready (hacts : Acts kind) : M.code s .ready p node env := M.active hcode hget hkind hacts
  cases kind with
  | undefined => exact admits_pure Value.within_undefined
  | null => exact admits_pure Value.within_null
  | literal value => exact admits_pure (Value.within_ofLiteral value)
  | identifier name =>
    obtain ⟨hbound, hunbound⟩ := M.name hcode hget hkind
    simp only
    cases hv : env.get? name with
    | some v => exact admits_pure (hbound v hv)
    | none => exact admits_throw (hunbound hv)
  | property key value => exact hr.evaluate s t p value env (hpart List.mem_cons_self)
  | object properties =>
    refine entriesOf_bind fun entries hentries => hr.combine (by simp) fun x hx => ?_
    obtain ⟨e, he, rfl⟩ := List.mem_map.mp hx
    obtain ⟨property, hproperty, heq⟩ := hentries e he
    exact hpart ⟨property, hproperty, e.1, heq⟩
  | array elements => exact hr.combine (by simp) fun x hx => hpart hx
  | unary op argument => exact hr.combine (by simp) fun x hx => hpart hx
  | binary op left right =>
    exact hr.evaluateBinary op (hpart List.mem_cons_self)
      (hpart (List.mem_cons_of_mem _ List.mem_cons_self))
  | logical op left right =>
    exact hr.evaluateLogical op (hpart List.mem_cons_self)
      (hpart (List.mem_cons_of_mem _ List.mem_cons_self))
  | conditional test consequent alternate =>
    exact hr.evaluateConditional (hpart List.mem_cons_self)
      (hpart (List.mem_cons_of_mem _ List.mem_cons_self))
      (hpart (List.mem_cons_of_mem _ (List.mem_cons_of_mem _ List.mem_cons_self)))
  | member object name => exact hr.evaluateMember name (hpart List.mem_cons_self)
  | index object position => exact hr.combine (by simp) fun x hx => hpart hx
  | call callee arguments =>
    have hcombine : M.Admits s (Eval.combine r p (callee :: arguments) env .call)
        fun s' => M.Allows s' .ready :=
      hr.combine (fun _ => rfl) fun x hx => M.part (hready trivial) hget hkind hx
    exact hcombine.mono fun _ _ _ hv => hv.idle
  | arrow params body =>
    obtain ⟨hfunction, hcaptured⟩ := M.arrow hcode hget hkind
    exact evaluateArrow hfunction hcaptured
  | assignment target value =>
    exact (hr.assign (hready trivial) hget hkind).mono fun _ _ _ hv => hv.idle
  | element tag attributes children =>
    refine entriesOf_bind fun entries hentries => hr.combine (by simp) fun x hx => ?_
    rcases List.mem_append.mp hx with hx | hx
    · obtain ⟨e, he, rfl⟩ := List.mem_map.mp hx
      obtain ⟨property, hproperty, heq⟩ := hentries e he
      exact hpart (.inl ⟨property, hproperty, e.1, heq⟩)
    · exact hpart (.inr hx)
  | ascription expression written =>
    exact hr.evaluate s t p expression env (hpart List.mem_cons_self)
  | constBinding _ _ _ _ => exact admits_throw (M.statement hcode hget hkind rfl)
  | letBinding _ _ _ _ _ => exact admits_throw (M.statement hcode hget hkind rfl)
  | importing _ _ => exact admits_throw (M.statement hcode hget hkind rfl)

theorem evaluateNode (hr : M.Governs r) {p : Program} {node : NodeId} {env : ValueEnv}
    (hcode : M.code s t p node env) :
    M.Admits s (Eval.evaluateNode r p node env) fun s' => M.Allows s' t := by
  unfold Eval.evaluateNode
  refine Admits.require_bind (M.checked hcode) fun interface hget => ?_
  cases interface with
  | error e => exact admits_pure Value.within_undefined
  | ok typing => exact (hr.evaluateForm hcode hget).bind fun s' _ v hv => hr.conform hv _

end Governs

/-- At every depth the operations keep to the regime. -/
theorem governs_rules {host : Host σ} (hhost : M.Hosts host) (depth : Nat) :
    M.Governs (rules host depth) := by
  induction depth with
  | zero => exact ⟨Signal.Rules.tame_exhausted, hhost, fun _ _ _ _ _ _ => admits_throwFault _⟩
  | succ depth ih =>
    refine ⟨⟨?_, ?_, ?_, ?_, ?_⟩, hhost, ?_⟩
    · exact fun s t id hid => ih.signals.reconcileNode hid
    · exact fun s id o hid ho => ih.signals.setNode hid ho
    · exact fun s t step p hstep hp => ih.applyStep hstep hp
    · exact fun s t step p hp => preserves_pure hp
    · exact fun s t choice p hchoice hp => ih.chooseSignal hchoice hp
    · exact fun s t p node env hcode => ih.evaluateNode hcode

/-! ### Statements -/

variable (M) in
/-- A statement added bindings of these names to an environment.  They and its value are
    allowed. -/
def Adds (env : ValueEnv) (names : List String) (t : Tier) (s : Stage)
    (result : ValueEnv × Value) : Prop :=
  ∃ bindings : List (String × Value), result.1 = env.extendAll bindings ∧
    bindings.map Prod.fst = names ∧ (∀ b ∈ bindings, M.Allows s t b.2) ∧ M.Allows s t result.2

namespace Governs

variable {r : Rules σ}

theorem evaluateLet (hr : M.Governs r) {p : Program} (name : String) {value : NodeId}
    {env : ValueEnv} (hcode : M.code s t p value env) :
    M.Admits s (Eval.evaluateLet r p name value env) fun s' => M.Allows s' t := by
  unfold Eval.evaluateLet
  refine (hr.evaluate s t p value env hcode).bind fun s₁ _ v hv => ?_
  refine (hr.snapshot hv).bind fun s₂ _ initial hinitial => ?_
  have hcell := preserves_create (σ := σ) (c := .cell (.ok (Payload.plain initial)))
    (D := M.discipline) (s := s₂) (t := t) (Payload.within_plain.mpr hinitial)
  refine (admits_lift hcell).bind fun s₃ _ cell hcell => ?_
  exact newSignal_admits (c := .label cell name) hcell

/-- A statement adds bindings of the names that it defines.  The value of a binding that failed the
    check is not evaluated. -/
theorem evaluateStatement (hr : M.Governs r) {p : Program} {modules : ModuleValues} {node : NodeId}
    {kind : NodeKind} {env : ValueEnv} (hkind : p.tree.kind node = .ok kind)
    (hchecked : (∃ i, p.interfaces.get? node = some i) ∨
      M.tolerates (.internal (.noInterface node)))
    (hbinding : ∀ typing, p.interfaces.get? node = some (.ok typing) → kind.isStatement = true →
      ∀ x ∈ kind.children, M.code s t p x env)
    (hexpression : kind.isStatement = false → M.code s t p node env)
    (himports : ∀ path specifiers, kind = .importing path specifiers →
      ∀ b ∈ importBindings modules path specifiers, M.Allows s t b.2) :
    M.Admits s (Eval.evaluateStatement r p modules node env) (M.Adds env kind.definedNames t) := by
  unfold Eval.evaluateStatement
  refine Admits.require_bind hchecked fun interface hget => ?_
  refine Admits.lookUp_bind fun kind' hkind' => ?_
  obtain rfl : kind' = kind := Except.ok.inj (hkind'.symm.trans hkind)
  have hbound (name : String) (s' : Stage) (v : Value) (hv : M.Allows s' t v) :
      M.Admits s' (pure (env.extend name v, v) : EvalM σ (ValueEnv × Value))
        (M.Adds env [name] t) :=
    admits_pure ⟨[(name, v)], rfl, rfl, List.forall_mem_singleton.mpr hv, hv⟩
  have hplain (hstatement : kind'.isStatement = false) :
      M.Admits s (do return (env, ← r.evaluate p node env) : EvalM σ (ValueEnv × Value))
        (M.Adds env [] t) :=
    (hr.evaluate s t p node env (hexpression hstatement)).bind fun _ _ _ hv =>
      admits_pure ⟨[], rfl, rfl, List.forall_mem_nil _, hv⟩
  cases kind' with
  | constBinding name written? value exported =>
    cases interface with
    | error e => exact hbound name s .undefined Value.within_undefined
    | ok typing =>
      have hcode := hbinding typing hget rfl value List.mem_cons_self
      exact (hr.evaluate s t p value env hcode).bind fun _ _ v hv =>
        (hr.conform hv _).bind fun s' _ v hv => hbound name s' v hv
  | letBinding name written? value mutability exported =>
    cases interface with
    | error e => exact hbound name s .undefined Value.within_undefined
    | ok typing =>
      exact (hr.evaluateLet name (hbinding typing hget rfl value List.mem_cons_self)).bind
        fun s' _ v hv => hbound name s' v hv
  | importing path specifiers =>
    exact admits_pure ⟨importBindings modules path specifiers, rfl, List.map_map,
      himports path specifiers rfl, Value.within_undefined⟩
  | _ => exact hplain rfl

end Governs

end Regime

end ReactiveDoc.Eval
