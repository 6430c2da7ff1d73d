import ReactiveDoc.Eval.Statement
import ReactiveDoc.Proofs.Signal.Preserving
import ReactiveDoc.Proofs.Value.Within

namespace ReactiveDoc.Eval

/-!
# Regimes of evaluation

What may stop an evaluation is decided by the code that is evaluated, by the functions in the
values that it meets, and by what signals carry.  A regime says what is allowed of each, so that
evaluation never leaves it.

* `Regime` — the functions and the code that are allowed at each tier, and the errors that are
  tolerated.
* `Regime.Admits` — completed evaluations keep to the regime: they end with a value that is allowed,
  or with an error that is tolerated.
* `Regime.Governs` — the operations on the nodes and signals below do so.
* `Regime.Governs.combine`, `Regime.Governs.applyStep`, `Regime.Governs.chooseSignal` — then so does
  putting values together, at once or in a signal.
-/

open Signal (Stage Tier Discipline Preserves Creation preserves_pure preserves_throw
  preserves_create preserves_newIdentities)

variable {σ α β : Type}

/-- The nodes on the way from the target of an assignment to the name that it starts from. -/
inductive OnPlace (t : Tree) (target : NodeId) : NodeId → Prop
  | target : OnPlace t target target
  | member {x object : NodeId} {name : String} (hx : OnPlace t target x)
      (hkind : t.kind x = .ok (.member object name)) : OnPlace t target object
  | index {x object index : NodeId} (hx : OnPlace t target x)
      (hkind : t.kind x = .ok (.index object index)) : OnPlace t target object

/-- The nodes that the evaluation of a form goes on with at once.  Arrows go on with nothing, and
    assignments with their value; their target is no matter of evaluation. -/
def Part (t : Tree) : NodeKind → NodeId → Prop
  | .object properties, x => ∃ property ∈ properties, ∃ key, t.kind property = .ok (.property key x)
  | .element _ attributes children, x =>
      (∃ property ∈ attributes, ∃ key, t.kind property = .ok (.property key x)) ∨ x ∈ children
  | .arrow .., _ => False
  | .assignment _ value, x => x = value
  | kind, x => x ∈ kind.children

/-- Forms whose evaluation calls functions or writes signals. -/
def Acts : NodeKind → Prop
  | .call .. | .assignment .. => True
  | _ => False

/-- The value may be had at a tier, if these functions may. -/
abbrev Held (function : Stage → Tier → Closure → Prop) (s : Stage) (t : Tier) (v : Value) : Prop :=
  v.Within (s.Readable t) (function s t)

/-- Which functions and which code are allowed at each tier, and which errors are tolerated.  Code
    is a node with the environment that it is evaluated in. -/
structure Regime where
  function : Stage → Tier → Closure → Prop
  code : Stage → Tier → Program → NodeId → ValueEnv → Prop
  tolerates : EvalError → Prop
  function_mono : ∀ {s s' t c}, s.Before s' → function s t c → function s' t c
  function_idle : ∀ {s c}, function s .ready c → function s .idle c
  code_mono : ∀ {s s' t p node env}, s.Before s' → code s t p node env → code s' t p node env
  runtime : ∀ e, tolerates (.runtime e)
  asSignal : ∀ {e}, tolerates e → tolerates (.signal e.asSignalError)
  unreconciled : tolerates (.signal .unreconciled)
  readOnly : ∀ kind, tolerates (.signal (.readOnly kind))
  notAPlace : ∀ node, tolerates (.internal (.notAPlace node))
  noCell : tolerates (.internal .noCell)
  /-- A function that is ready is called with what is ready. -/
  call : ∀ {s c args}, function s .ready c → (∀ v ∈ args, Held function s .ready v) →
    code s .ready c.program c.body (c.env.extendAll (bindParams c.params args))
  checked : ∀ {s t p node env}, code s t p node env →
    (∃ i, p.interfaces.get? node = some i) ∨ tolerates (.internal (.noInterface node))
  /-- Code may go on with its parts. -/
  part : ∀ {s t p node env typing kind x}, code s t p node env →
    p.interfaces.get? node = some (.ok typing) → p.tree.kind node = .ok kind →
    Part p.tree kind x → code s t p x env
  name : ∀ {s t p node env typing name}, code s t p node env →
    p.interfaces.get? node = some (.ok typing) → p.tree.kind node = .ok (.identifier name) →
    (∀ v, env.get? name = some v → Held function s t v) ∧
      (env.get? name = none → tolerates (.internal (.unboundName name)))
  arrow : ∀ {s t p node env typing params body}, code s t p node env →
    p.interfaces.get? node = some (.ok typing) → p.tree.kind node = .ok (.arrow params body) →
    function s t ⟨p, params.map Param.name, body, env⟩ ∧
      (typing.dynamic = true → ∀ uses, p.tree.references node = .ok uses →
        ∀ id ∈ capturedSignals p uses env, s.Readable t id)
  /-- Functions are called, and signals written, by code that is ready only. -/
  active : ∀ {s t p node env typing kind}, code s t p node env →
    p.interfaces.get? node = some (.ok typing) → p.tree.kind node = .ok kind →
    Acts kind → code s .ready p node env
  target : ∀ {s p node env typing target value}, code s .ready p node env →
    p.interfaces.get? node = some (.ok typing) →
    p.tree.kind node = .ok (.assignment target value) →
    (∃ i, p.interfaces.get? target = some i) ∨ tolerates (.internal (.noInterface target))
  index : ∀ {s p node env typing target value x object index}, code s .ready p node env →
    p.interfaces.get? node = some (.ok typing) →
    p.tree.kind node = .ok (.assignment target value) → OnPlace p.tree target x →
    p.tree.kind x = .ok (.index object index) → code s .ready p index env
  root : ∀ {s p node env typing target value x name}, code s .ready p node env →
    p.interfaces.get? node = some (.ok typing) →
    p.tree.kind node = .ok (.assignment target value) → OnPlace p.tree target x →
    p.tree.kind x = .ok (.identifier name) →
    (∀ v, env.get? name = some v → Held function s .ready v) ∧
      (env.get? name = none → tolerates (.internal (.unboundName name)))
  statement : ∀ {s t p node env typing kind}, code s t p node env →
    p.interfaces.get? node = some (.ok typing) → p.tree.kind node = .ok kind →
    kind.isStatement = true → tolerates (.internal (.statementAsExpression node))

namespace Regime

variable (M : Regime)

/-- The value may be had at a tier. -/
abbrev Allows (s : Stage) (t : Tier) (v : Value) : Prop := Held M.function s t v

/-- What signals may carry, and what their functions may be. -/
def discipline : Discipline Payload Step Choice where
  payload s t p := p.Within (s.Readable t) (M.function s t)
  step
    | s, t, .combine recipe inputs _ =>
        (recipe = .call → t = .ready) ∧ ∀ v ∈ inputs, M.Allows s t v
    | s, t, .close program params body env => M.function s t ⟨program, params, body, env⟩
  choice
    | _, _, .member _ => True
    | s, t, .logical _ p right env => M.code s t p right env
    | s, t, .conditional p consequent alternate env =>
        M.code s t p consequent env ∧ M.code s t p alternate env
  failure e := M.tolerates (.signal e)
  payload_mono hs h := h.mono (hs.readable _) fun _ => M.function_mono hs
  step_mono {s s' t f} hs h := by
    cases f with
    | combine recipe inputs slots =>
      exact ⟨h.1, fun v hv => (h.2 v hv).mono (hs.readable t) fun _ => M.function_mono hs⟩
    | close program params body env => exact M.function_mono hs h
  choice_mono {s s' t c} hs h := by
    cases c with
    | member name => trivial
    | logical op p right env => exact M.code_mono hs h
    | conditional p consequent alternate env => exact ⟨M.code_mono hs h.1, M.code_mono hs h.2⟩
  payload_idle h := h.mono (fun _ hid => hid.idle) fun _ => M.function_idle
  ofList := Payload.within_list
  ofOutcome := Payload.within_attempt
  unreconciled := M.unreconciled
  readOnly := M.readOnly

variable {M} {s s' : Stage} {t : Tier} {v : Value}

theorem Allows.later (h : M.Allows s t v) (hs : s.Grows s') : M.Allows s' t v :=
  have hbefore := hs.before
  h.mono (hbefore.readable t) fun _ => M.function_mono hbefore

theorem Allows.idle (h : M.Allows s .ready v) : M.Allows s t v := by
  cases t with
  | ready => exact h
  | idle => exact h.mono (fun _ hid => hid.idle) fun _ => M.function_idle

theorem code_later {p : Program} {node : NodeId} {env : ValueEnv} (h : M.code s t p node env)
    (hs : s.Grows s') : M.code s' t p node env :=
  M.code_mono hs.before h

/-! ### Completed evaluations -/

variable (M) in
/-- The value satisfies the postcondition, or the error is tolerated. -/
def Ends (Q : Stage → α → Prop) (s : Stage) : Except EvalError α → Prop
  | .ok a => Q s a
  | .error e => M.tolerates e

variable (M) in
/-- Every completed evaluation keeps to the regime, and ends with a value that satisfies the
    postcondition, or with an error that is tolerated. -/
def Admits (s : Stage) (x : EvalM σ α) (Q : Stage → α → Prop) : Prop :=
  Preserves M.discipline s x.run (M.Ends Q)

section

variable {Q : Stage → α → Prop} {R : Stage → β → Prop} {x : EvalM σ α}

theorem admits_pure {a : α} (h : Q s a) : M.Admits s (pure a : EvalM σ α) Q := preserves_pure h

theorem admits_throw {e : EvalError} (h : M.tolerates e) : M.Admits s (throw e : EvalM σ α) Q :=
  preserves_pure h

theorem Admits.bind {f : α → EvalM σ β} (h : M.Admits s x Q)
    (hf : ∀ s', s.Grows s' → ∀ a, Q s' a → M.Admits s' (f a) R) : M.Admits s (x >>= f) R := by
  refine Preserves.bind h fun s' hs result hresult => ?_
  cases result with
  | ok a => exact hf s' hs a hresult
  | error e => exact preserves_pure hresult

theorem Admits.mono {Q' : Stage → α → Prop} (h : M.Admits s x Q)
    (hQ : ∀ s', s.Grows s' → ∀ a, Q s' a → Q' s' a) : M.Admits s x Q' := by
  refine Preserves.mono h fun s' hs result hresult => ?_
  cases result with
  | ok a => exact hQ s' hs a hresult
  | error e => exact hresult

/-- A computation on signals is an evaluation that does not stop. -/
theorem admits_lift {y : SignalM σ α} (h : Preserves M.discipline s y Q) : M.Admits s (lift y) Q :=
  Preserves.map h fun _ _ _ ha => ha

theorem admits_throwFault (e : Fault) : M.Admits s (throwFault e : EvalM σ α) Q :=
  admits_lift (preserves_throw e)

/-- An evaluation that goes on with what is found in a tree. -/
theorem Admits.lookUp_bind {y : Except Fault α} {f : α → EvalM σ β}
    (hf : ∀ a, y = .ok a → M.Admits s (f a) R) : M.Admits s (lookUp y >>= f) R := by
  have hlookUp : M.Admits s (lookUp y : EvalM σ α) fun s' a => s' = s ∧ y = .ok a := by
    apply admits_lift
    cases y with
    | ok a => exact preserves_pure ⟨rfl, rfl⟩
    | error e => exact preserves_throw e
  refine hlookUp.bind ?_
  rintro _ _ a ⟨rfl, ha⟩
  exact hf a ha

/-- An evaluation that goes on with the interface of code. -/
theorem Admits.require_bind {p : Program} {node : NodeId} {f : Interface → EvalM σ β}
    (h : (∃ i, p.interfaces.get? node = some i) ∨ M.tolerates (.internal (.noInterface node)))
    (hf : ∀ i, p.interfaces.get? node = some i → M.Admits s (f i) R) :
    M.Admits s (require p node >>= f) R := by
  have hrequire : M.Admits s (require p node : EvalM σ Interface)
      fun s' i => s' = s ∧ p.interfaces.get? node = some i := by
    refine preserves_pure ?_
    unfold InterfaceMap.require
    cases hget : p.interfaces.get? node with
    | some i => exact ⟨rfl, rfl⟩
    | none =>
      rcases h with ⟨i, hi⟩ | h
      · rw [hget] at hi
        cases hi
      · exact h
  refine hrequire.bind ?_
  rintro _ _ i ⟨rfl, hi⟩
  exact hf i hi

theorem admits_throwException (e : Exception) : M.Admits s (throwException e : EvalM σ α) Q :=
  admits_throw (M.runtime e)

/-- An evaluation for each of several things, with a value for each. -/
theorem Admits.mapM {S : Stage → α → β → Prop} {f : α → EvalM σ β} {as : List α}
    (hS : ∀ s s' a b, s.Grows s' → S s a b → S s' a b)
    (h : ∀ s', s.Grows s' → ∀ a ∈ as, M.Admits s' (f a) fun s'' => S s'' a) :
    M.Admits s (as.mapM f) fun s' => List.Forall₂ (S s') as := by
  induction as generalizing s with
  | nil => exact admits_pure .nil
  | cons a as ih =>
    rw [List.mapM_cons]
    refine (h s (.refl s) a List.mem_cons_self).bind fun s₁ hs₁ b hb => ?_
    have hrest := ih (s := s₁) fun s' hs' a' ha' =>
      h s' (hs₁.trans hs') a' (List.mem_cons_of_mem _ ha')
    exact hrest.bind fun s₂ hs₂ bs hbs => admits_pure (.cons (hS _ _ _ _ hs₂ hb) hbs)

end

/-! ### New signals -/

theorem newSignal_admits {c : Creation Payload Step Choice} (hc : c.Obeys M.discipline s t) :
    M.Admits s (newSignal fun g => c.apply g : EvalM σ Value) fun s' => M.Allows s' t :=
  (admits_lift (preserves_create hc)).bind fun _ _ _ hid =>
    admits_pure (Value.within_signal.mpr hid)

theorem constantSignal_preserves (hv : M.Allows s t v) :
    Preserves M.discipline s (constantSignal v : SignalM σ SignalId) fun s' => s'.Readable t :=
  preserves_create (c := .constant (.ok (Payload.plain v))) (Payload.within_plain.mpr hv)

/-! ### The operations below -/

variable (M) in
/-- The functions of the host keep to the regime, if they are given what is ready. -/
structure Hosts (host : Host σ) : Prop where
  native : ∀ s name args, (∀ v ∈ args, M.Allows s .ready v) →
    M.Admits s (host.native name args) fun s' => M.Allows s' .ready
  save : ∀ save, host.save? = some save →
    ∀ s path text, Preserves M.discipline s (save path text) fun _ _ => True

variable (M) in
/-- The operations keep to the regime. -/
structure Governs (r : Rules σ) : Prop where
  signals : r.toRules.Tame M.discipline
  host : M.Hosts r.host
  evaluate : ∀ s t p node env, M.code s t p node env →
    M.Admits s (r.evaluate p node env) fun s' => M.Allows s' t

namespace Governs

variable {r : Rules σ}

theorem read (hr : M.Governs r) {id : SignalId} (hid : s.Readable t id) :
    M.Admits s (Eval.read r id) fun s' => M.Allows s' t := by
  unfold Eval.read
  refine (admits_lift (hr.signals.read hid)).bind fun s' _ o ho => ?_
  cases o with
  | ok p => exact admits_pure (Payload.Within.value ho)
  | error e => exact admits_throw ho

theorem snapshot (hr : M.Governs r) (hv : M.Allows s t v) :
    M.Admits s (Eval.snapshot r v) fun s' => M.Allows s' t := by
  cases v with
  | signal id => exact hr.read (Value.within_signal.mp hv)
  | _ => exact admits_pure hv

theorem conform (hr : M.Governs r) (hv : M.Allows s t v) (dynamic : Bool) :
    M.Admits s (Eval.conform r v dynamic) fun s' => M.Allows s' t := by
  have hconstant : ∀ v : Value, M.Allows s t v →
      M.Admits s (do pure (.signal (← lift (constantSignal v))) : EvalM σ Value)
        fun s' => M.Allows s' t := fun v hv =>
    (admits_lift (constantSignal_preserves hv)).bind fun _ _ _ hid =>
      admits_pure (Value.within_signal.mpr hid)
  cases dynamic with
  | false =>
    cases v with
    | signal id => exact hr.read (Value.within_signal.mp hv)
    | _ => exact admits_pure hv
  | true =>
    cases v with
    | signal id => exact admits_pure hv
    | _ => exact hconstant _ hv

/-- A result that keeps to the regime, as the outcome of a signal. -/
theorem settle (hr : M.Governs r) {result : Except EvalError Value}
    (hresult : M.Ends (M.Allows · t) s result) :
    Preserves M.discipline s (Eval.settle r result) fun s' => M.discipline.Allows s' t := by
  cases result with
  | error e => exact preserves_pure (M.asSignal hresult)
  | ok v =>
    cases v with
    | signal id => exact hr.signals.read (Value.within_signal.mp hresult)
    | _ => exact preserves_pure (Payload.within_plain.mpr hresult)

end Governs

/-- A result that keeps to the regime, as a signal. -/
theorem asSignal_preserves {result : Except EvalError Value}
    (hresult : M.Ends (M.Allows · t) s result) :
    Preserves M.discipline s (Eval.asSignal result : SignalM σ SignalId)
      fun s' => s'.Readable t := by
  cases result with
  | error e =>
    exact preserves_create (c := .constant (.error e.asSignalError)) (M.asSignal hresult)
  | ok v =>
    cases v with
    | signal id => exact preserves_pure (Value.within_signal.mp hresult)
    | _ => exact constantSignal_preserves hresult

/-! ### Putting values together -/

theorem newIdentity_admits : M.Admits s (lift newIdentity : EvalM σ Identity) fun _ _ => True :=
  admits_lift (preserves_newIdentities 1)

/-- What takes the place of some of several values was given. -/
theorem within_fill {R : SignalId → Prop} {C : Closure → Prop} {inputs values : List Value}
    (slots : List Nat) (hinputs : ∀ v ∈ inputs, v.Within R C)
    (hvalues : ∀ v ∈ values, v.Within R C) : ∀ v ∈ fill inputs slots values, v.Within R C := by
  unfold fill
  generalize slots.zipIdx = places
  induction places generalizing inputs with
  | nil => exact hinputs
  | cons place places ih =>
    refine ih fun v hv => ?_
    rcases List.mem_or_eq_of_mem_set hv with hv | rfl
    · exact hinputs v hv
    · exact Value.within_getD hvalues place.2

/-- The signals at the places that a step fills are among the values. -/
theorem signal_mem_of_dynamicSlots {p : Program} {nodes : List NodeId} {values : List Value}
    {source : SignalId} (h : source ∈ (dynamicSlots p nodes values).map Prod.snd) :
    .signal source ∈ values := by
  obtain ⟨place, hplace, rfl⟩ := List.mem_map.mp h
  unfold dynamicSlots at hplace
  obtain ⟨⟨⟨node, v⟩, slot⟩, hmem, heq⟩ := List.mem_filterMap.mp hplace
  have hv : v ∈ values := (List.of_mem_zip (List.fst_mem_of_mem_zipIdx hmem)).2
  cases v with
  | signal id =>
    simp only [Option.ite_none_right_eq_some] at heq
    obtain ⟨-, heq⟩ := heq
    cases heq
    exact hv
  | _ => cases heq

namespace Governs

variable {r : Rules σ}

theorem call (hr : M.Governs r) {callee : Value} {args : List Value}
    (hcallee : M.Allows s .ready callee) (hargs : ∀ v ∈ args, M.Allows s .ready v) :
    M.Admits s (Eval.call r callee args) fun s' => M.Allows s' .ready := by
  cases callee with
  | function identity body =>
    cases body with
    | native name => exact hr.host.native s name args hargs
    | closure program params body env =>
      have hfunction : M.function s .ready ⟨program, params, body, env⟩ :=
        Value.within_closure.mp hcallee
      refine (hr.evaluate s .ready _ _ _ (M.call hfunction hargs)).bind fun s' _ v hv => ?_
      exact hr.snapshot hv
  | _ => exact admits_throwException _

/-- Only calls do more than make a value, and they are made by what is ready. -/
theorem assemble (hr : M.Governs r) {recipe : Recipe} {values : List Value}
    (hcall : recipe = .call → t = .ready) (hvalues : ∀ v ∈ values, M.Allows s t v) :
    M.Admits s (Eval.assemble r recipe values) fun s' => M.Allows s' t := by
  have hmake {f : Identity → Value} (hf : ∀ i s', s.Grows s' → M.Allows s' t (f i)) :
      M.Admits s (do pure (f (← lift newIdentity)) : EvalM σ Value) fun s' => M.Allows s' t :=
    newIdentity_admits.bind fun s' hs i _ => admits_pure (hf i s' hs)
  have hlater {s' : Stage} (hs : s.Grows s') : ∀ v ∈ values, M.Allows s' t v :=
    fun v hv => (hvalues v hv).later hs
  cases recipe with
  | object keys =>
    exact hmake fun _ _ hs => Value.within_object.mpr (Value.within_zip keys (hlater hs))
  | array => exact hmake fun _ _ hs => Value.within_array.mpr (hlater hs)
  | unary op => exact admits_pure (Value.within_unary op _)
  | binary op => exact admits_pure (Value.within_binary op _ _)
  | index => exact admits_pure ((Value.within_getD hvalues 0).index _)
  | call =>
    obtain rfl := hcall rfl
    exact hr.call (Value.within_getD hvalues 0) fun v hv => hvalues v (List.mem_of_mem_drop hv)
  | element tag keys =>
    refine hmake fun _ _ hs => Value.within_element.mpr ⟨?_, fun v hv => ?_⟩
    · exact Value.within_zip keys fun v hv => hlater hs v (List.mem_of_mem_take hv)
    · exact hlater hs v (List.mem_of_mem_drop hv)

/-- Nodes are evaluated and their values put together, at once or in a signal. -/
theorem combine (hr : M.Governs r) {p : Program} {nodes : List NodeId} {env : ValueEnv}
    {recipe : Recipe} (hcall : recipe = .call → t = .ready)
    (hcode : ∀ x ∈ nodes, M.code s t p x env) :
    M.Admits s (Eval.combine r p nodes env recipe) fun s' => M.Allows s' t := by
  unfold Eval.combine
  refine (Admits.mapM (S := fun s' _ v => M.Allows s' t v) (fun _ _ _ _ hs h => h.later hs)
    fun s' hs x hx => hr.evaluate s' t p x env (code_later (hcode x hx) hs)).bind
      fun (s₁ : Stage) hs₁ values hvalues => ?_
  have hallowed : ∀ v ∈ values, M.Allows s₁ t v := by
    intro v hv
    obtain ⟨_, -, h⟩ := exists_left_of_mem hvalues hv
    exact h
  have hstep : M.discipline.step s₁ t
      (.combine recipe values ((dynamicSlots p nodes values).map Prod.fst)) := ⟨hcall, hallowed⟩
  have hsources : ∀ source ∈ (dynamicSlots p nodes values).map Prod.snd,
      s₁.Readable t source := fun _ hsource =>
    Value.within_signal.mp (hallowed _ (signal_mem_of_dynamicSlots hsource))
  simp only
  split
  · exact hr.assemble hcall hallowed
  · rename_i source heq
    have hsource := hsources source (heq ▸ List.mem_singleton_self _)
    split
    · exact newSignal_admits (c := .mapFused source _) ⟨hsource, hstep⟩
    · exact newSignal_admits (c := .map source _ true) ⟨hsource, hstep⟩
  · refine (admits_lift (preserves_create (c := .join _) hsources)).bind fun s₂ hs₂ joined hj => ?_
    exact newSignal_admits (c := .map joined _ false)
      ⟨hj, M.discipline.step_mono hs₂.before hstep⟩

/-! ### The functions of signals -/

theorem applyStep (hr : M.Governs r) {step : Step} {p : Payload}
    (hstep : M.discipline.step s t step) (hp : M.discipline.payload s t p) :
    Preserves M.discipline s (Eval.applyStep r step p) fun s' => M.discipline.Allows s' t := by
  cases step with
  | combine recipe inputs slots =>
    obtain ⟨hcall, hinputs⟩ := hstep
    refine Preserves.bind (hr.assemble hcall (within_fill slots hinputs hp)) ?_
    exact fun s' _ result hresult => hr.settle hresult
  | close program params body env =>
    refine (preserves_newIdentities 1).bind fun s' hs i _ => preserves_pure ?_
    exact Payload.within_plain.mpr (Value.within_closure.mpr
      (M.function_mono hs.before hstep))

theorem chooseSignal (hr : M.Governs r) {choice : Choice} {p : Payload}
    (hchoice : M.discipline.choice s t choice) (hp : M.discipline.payload s t p) :
    Preserves M.discipline s (Eval.chooseSignal r choice p) fun s' => s'.Readable t := by
  have hvalue : M.Allows s t p.value := Payload.Within.value hp
  have hcode {program : Program} {node : NodeId} {env : ValueEnv}
      (h : M.code s t program node env) :
      Preserves M.discipline s (do Eval.asSignal (← (r.evaluate program node env).run))
        fun s' => s'.Readable t :=
    Preserves.bind (hr.evaluate s t program node env h) fun s' _ result hresult =>
      asSignal_preserves hresult
  cases choice with
  | member name =>
    have hmember : M.Ends (M.Allows · t) s (.ok (p.value.member name)) := hvalue.member name
    exact asSignal_preserves hmember
  | logical op program right env =>
    unfold Eval.chooseSignal
    simp only
    split
    · exact constantSignal_preserves hvalue
    · exact hcode hchoice
  | conditional program consequent alternate env =>
    unfold Eval.chooseSignal
    simp only
    split
    · exact hcode hchoice.1
    · exact hcode hchoice.2

end Governs

end Regime

end ReactiveDoc.Eval
