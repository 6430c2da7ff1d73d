import ReactiveDoc.Eval.Statement
import ReactiveDoc.Proofs.Signal.Keeping

namespace ReactiveDoc

/-!
# Plain values

A value is plain unless it is a signal.  No signal carries another one as its value, and this stays
so whatever is evaluated, read or written.

* `Value.Plain`, `Payload.Plain`, `Step.Plain` — plain values, and where they are asked for.
* `Yields` — a completed evaluation keeps all that signals carry plain, and ends with a value of a
  kind.
* `Rules.Plain` — the operations on the nodes and signals below do so.
* `combine_yields`, `applyStep_keeps`, `chooseSignal_keeps` — then so does putting values together,
  at once or in a signal.
-/

/-- The value is no signal.  Its parts may be. -/
def Value.Plain (v : Value) : Prop := ∀ id, v ≠ .signal id

theorem Value.not_plain_iff {v : Value} : ¬ v.Plain ↔ ∃ id, v = .signal id := by
  unfold Plain
  push Not
  exact Iff.rfl

/-- No value that is carried is a signal. -/
def Payload.Plain (p : Payload) : Prop := ∀ v ∈ p.values, v.Plain

theorem Payload.plain_plain {v : Value} (h : v.Plain) : (Payload.plain v).Plain := by
  intro v' hv
  rwa [List.mem_singleton.mp hv]

theorem Payload.Plain.value {p : Payload} (h : p.Plain) : p.value.Plain := by
  cases p with
  | plain v => exact h v (List.mem_singleton_self _)
  | list items => exact fun _ => by simp [Payload.value]
  | attempt outcome => exact fun _ => by simp [Payload.value]

/-- What joined signals carry is plain if what each carries is. -/
theorem Payload.plain_list {items : List Payload} (h : ∀ p ∈ items, p.Plain) :
    (Payload.list items).Plain := by
  intro v hv
  obtain ⟨p, hp, hpv⟩ := List.mem_filterMap.mp hv
  cases p with
  | plain v' =>
    cases hpv
    exact h _ hp v (List.mem_singleton_self _)
  | list _ => cases hpv
  | attempt _ => cases hpv

namespace Eval

open Signal (Keeps Good Graph Creation keeps_pure keeps_throw keeps_create keeps_newIdentities
  good_ok good_error)

variable {σ α β : Type}

/-- The inputs of a step are plain, but for those whose places are filled. -/
def Step.Plain : Step → Prop
  | combine _ inputs slots => ∀ i v, inputs[i]? = some v → v.Plain ∨ i ∈ slots
  | close .. => True

/-- What every signal carries is plain, and so are the inputs of all steps. -/
abbrev PlainGraph : Graph Payload Step Choice → Prop := Graph.All Payload.Plain Step.Plain

/-! ### Completed evaluations -/

/-- Every completed evaluation keeps the graph plain, and a value that it ends with satisfies the
    postcondition. -/
def Yields (x : EvalM σ α) (Q : α → Prop) : Prop :=
  Keeps PlainGraph x.run fun result => ∀ a, result = .ok a → Q a

section

variable {Q : α → Prop} {R : β → Prop} {x : EvalM σ α}

theorem yields_pure {a : α} (h : Q a) : Yields (pure a : EvalM σ α) Q := by
  apply keeps_pure
  rintro _ ⟨⟩
  exact h

theorem yields_throw (e : EvalError) : Yields (throw e : EvalM σ α) Q :=
  keeps_pure fun _ h => nomatch h

theorem Yields.bind {f : α → EvalM σ β} (h : Yields x Q) (hf : ∀ a, Q a → Yields (f a) R) :
    Yields (x >>= f) R := by
  refine Keeps.bind h fun result hresult => ?_
  cases result with
  | ok a => exact hf a (hresult a rfl)
  | error e => exact keeps_pure fun _ h => nomatch h

theorem Yields.mono {Q' : α → Prop} (h : Yields x Q) (hQ : ∀ a, Q a → Q' a) : Yields x Q' :=
  Keeps.mono h fun _ hresult a ha => hQ a (hresult a ha)

/-- A computation on signals is an evaluation that does not stop. -/
theorem yields_lift {y : SignalM σ α} (h : Keeps PlainGraph y Q) : Yields (lift y) Q := by
  refine Keeps.map h fun a ha => ?_
  rintro _ ⟨⟩
  exact ha

theorem yields_throwFault (e : Fault) : Yields (throwFault e : EvalM σ α) Q :=
  yields_lift (keeps_throw e)

theorem yields_lookUp (y : Except Fault α) : Yields (lookUp y : EvalM σ α) fun a => y = .ok a := by
  apply yields_lift
  cases y with
  | ok a => exact keeps_pure rfl
  | error e => exact keeps_throw e

theorem yields_require (p : Program) (node : NodeId) :
    Yields (require p node : EvalM σ Interface) fun i => p.interfaces.get? node = some i := by
  refine keeps_pure fun i hi => ?_
  unfold InterfaceMap.require at hi
  cases hget : p.interfaces.get? node with
  | none =>
    rw [hget] at hi
    cases hi
  | some interface =>
    rw [hget] at hi
    cases hi
    rfl

theorem yields_throwException (e : Exception) : Yields (throwException e : EvalM σ α) Q :=
  yields_throw _

theorem yields_throwInternal (e : Inconsistency) : Yields (throwInternal e : EvalM σ α) Q :=
  yields_throw _

/-- An evaluation for each of several things, with a value for each. -/
theorem Yields.mapM {S : α → β → Prop} {f : α → EvalM σ β} {as : List α}
    (h : ∀ a ∈ as, Yields (f a) (S a)) : Yields (as.mapM f) (List.Forall₂ S as) := by
  induction as with
  | nil => exact yields_pure .nil
  | cons a as ih =>
    rw [List.mapM_cons]
    refine (h a (List.mem_cons_self ..)).bind fun b hb => ?_
    refine (ih fun a' ha' => h a' (List.mem_cons_of_mem _ ha')).bind fun bs hbs => ?_
    exact yields_pure (.cons hb hbs)

end

/-! ### New signals -/

theorem create_keeps {c : Creation Payload Step Choice} (hc : c.All Payload.Plain Step.Plain) :
    Keeps PlainGraph (Signal.create fun g => c.apply g : SignalM σ SignalId) fun _ => True :=
  keeps_create fun _ h => h.create hc

theorem newSignal_yields {c : Creation Payload Step Choice} (hc : c.All Payload.Plain Step.Plain) :
    Yields (newSignal fun g => c.apply g : EvalM σ Value) fun _ => True :=
  (yields_lift (create_keeps hc)).bind fun _ _ => yields_pure trivial

theorem constantSignal_keeps {v : Value} (hv : v.Plain) :
    Keeps PlainGraph (constantSignal v : SignalM σ SignalId) fun _ => True :=
  create_keeps (c := .constant _) (good_ok (Payload.plain_plain hv))

/-! ### The operations below -/

/-- The host leaves no signal with another one as its value.  A host function is never given a
    signal itself. -/
structure Host.Plain (host : Host σ) : Prop where
  native : ∀ name args, (∀ v ∈ args, v.Plain) → Yields (host.native name args) fun _ => True
  save : ∀ save, host.save? = some save →
    ∀ path text, Keeps PlainGraph (save path text) fun _ => True

/-- The operations keep the graph plain, and a node evaluates to a signal only if it changes over
    time. -/
structure Rules.Plain (r : Rules σ) : Prop where
  signals : r.toRules.Keep Payload.Plain Step.Plain
  host : r.host.Plain
  evaluate : ∀ p node env, Yields (r.evaluate p node env) fun v =>
    ¬ v.Plain → (p.interfaces.get? node).any Interface.dynamic = true

variable {r : Rules σ}

theorem read_yields (hr : r.Plain) (id : SignalId) : Yields (read r id) Value.Plain := by
  unfold read
  refine (yields_lift (hr.signals.read id)).bind fun o ho => ?_
  cases o with
  | ok p => exact yields_pure (ho p rfl).value
  | error e => exact yields_throw _

theorem snapshot_yields (hr : r.Plain) (v : Value) : Yields (snapshot r v) Value.Plain := by
  cases v with
  | signal id => exact read_yields hr id
  | _ => exact yields_pure fun _ h => nomatch h

/-- A value is brought in line: it is a signal exactly if it is to change over time. -/
theorem conform_yields (hr : r.Plain) (v : Value) (dynamic : Bool) :
    Yields (conform r v dynamic) fun v => ¬ v.Plain ↔ dynamic = true := by
  have hplain : ∀ v : Value, v.Plain → (¬ v.Plain ↔ false = true) :=
    fun v hv => ⟨fun h => absurd hv h, fun h => nomatch h⟩
  have hsignal : ∀ id, ¬ (Value.signal id).Plain ↔ true = true :=
    fun id => ⟨fun _ => rfl, fun _ h => h id rfl⟩
  have hconstant : ∀ v : Value, v.Plain →
      Yields (do pure (.signal (← lift (constantSignal v))) : EvalM σ Value)
        fun v => ¬ v.Plain ↔ true = true := fun v hv =>
    (yields_lift (constantSignal_keeps hv)).bind fun id _ => yields_pure (hsignal id)
  cases dynamic with
  | false =>
    cases v with
    | signal id => exact (read_yields hr id).mono hplain
    | _ => exact yields_pure (hplain _ fun _ h => nomatch h)
  | true =>
    cases v with
    | signal id => exact yields_pure (hsignal id)
    | _ => exact hconstant _ fun _ h => nomatch h

/-- The outcome of a signal is plain: a signal is read. -/
theorem settle_keeps (hr : r.Plain) (result : Except EvalError Value) :
    Keeps PlainGraph (settle r result) (Good Payload.Plain) := by
  cases result with
  | error e => exact keeps_pure (good_error _)
  | ok v =>
    cases v with
    | signal id => exact hr.signals.read id
    | _ => exact keeps_pure (good_ok (Payload.plain_plain fun _ h => nomatch h))

theorem asSignal_keeps (result : Except EvalError Value) :
    Keeps PlainGraph (asSignal result : SignalM σ SignalId) fun _ => True := by
  cases result with
  | error e => exact create_keeps (c := .constant _) (good_error e.asSignalError)
  | ok v =>
    cases v with
    | signal id => exact keeps_pure trivial
    | _ => exact constantSignal_keeps fun _ h => nomatch h

/-! ### Putting values together -/

theorem call_yields (hr : r.Plain) (callee : Value) {args : List Value}
    (hargs : ∀ v ∈ args, v.Plain) : Yields (call r callee args) fun _ => True := by
  cases callee with
  | function identity body =>
    cases body with
    | native name => exact hr.host.native name args hargs
    | closure program params body env =>
      refine (hr.evaluate _ _ _).bind fun v _ => ?_
      exact (snapshot_yields hr v).mono fun _ _ => trivial
  | _ => exact yields_throwException _

theorem newIdentity_yields : Yields (lift newIdentity : EvalM σ Identity) fun _ => True :=
  yields_lift (keeps_newIdentities 1)

/-- Only calls do more than make a value, and they are given plain arguments. -/
theorem assemble_yields (hr : r.Plain) (recipe : Recipe) {values : List Value}
    (hvalues : ∀ v ∈ values, v.Plain) : Yields (assemble r recipe values) fun _ => True := by
  cases recipe with
  | object keys => exact newIdentity_yields.bind fun _ _ => yields_pure trivial
  | array => exact newIdentity_yields.bind fun _ _ => yields_pure trivial
  | unary op => exact yields_pure trivial
  | binary op => exact yields_pure trivial
  | index => exact yields_pure trivial
  | call => exact call_yields hr _ fun v hv => hvalues v (List.mem_of_mem_drop hv)
  | element tag keys => exact newIdentity_yields.bind fun _ _ => yields_pure trivial

/-- Once the places of signals are filled with plain values, all inputs are plain. -/
theorem plain_fill {inputs : List Value} {slots : List Nat} {values : List Value}
    (hinputs : ∀ i v, inputs[i]? = some v → v.Plain ∨ i ∈ slots)
    (hvalues : ∀ v ∈ values, v.Plain) : ∀ v ∈ fill inputs slots values, v.Plain := by
  have hnew : ∀ i, (values.getD i .undefined).Plain := by
    intro i
    rw [List.getD_eq_getElem?_getD]
    cases hi : values[i]? with
    | none => exact fun _ h => by cases h
    | some v => exact hvalues v (List.mem_of_getElem? hi)
  -- The induction is on the places that are left to fill.
  have hfill : ∀ (places : List (Nat × Nat)) (inputs : List Value),
      (∀ i v, inputs[i]? = some v → v.Plain ∨ ∃ place ∈ places, place.1 = i) →
        ∀ v ∈ places.foldl (fun inputs place =>
          inputs.set place.1 (values.getD place.2 .undefined)) inputs, v.Plain := by
    intro places
    induction places with
    | nil =>
      intro inputs hleft v hv
      obtain ⟨i, hi⟩ := List.mem_iff_getElem?.mp hv
      rcases hleft i v hi with h | ⟨_, h, _⟩
      · exact h
      · cases h
    | cons place places ih =>
      intro inputs hleft
      refine ih _ fun i v hi => ?_
      rw [List.getElem?_set] at hi
      split at hi
      · split at hi
        · cases hi
          exact .inl (hnew _)
        · cases hi
      · rename_i hne
        rcases hleft i v hi with h | ⟨place', hmem, rfl⟩
        · exact .inl h
        · rcases List.mem_cons.mp hmem with rfl | hmem
          · exact absurd rfl hne
          · exact .inr ⟨place', hmem, rfl⟩
  refine hfill slots.zipIdx inputs fun i v hi => ?_
  rcases hinputs i v hi with h | h
  · exact .inl h
  · obtain ⟨n, hn⟩ := List.mem_iff_getElem?.mp h
    exact .inr ⟨(i, n), List.mk_mem_zipIdx_iff_getElem?.mpr hn, rfl⟩

/-- Signals among the values of nodes are at the places of nodes that change over time. -/
theorem plain_or_mem_dynamicSlots {p : Program} {nodes : List NodeId} {values : List Value}
    (h : List.Forall₂ (fun node (v : Value) =>
      ¬ v.Plain → (p.interfaces.get? node).any Interface.dynamic = true) nodes values) :
    ∀ i v, values[i]? = some v →
      v.Plain ∨ i ∈ (dynamicSlots p nodes values).map Prod.fst := by
  intro i v hi
  by_cases hv : v.Plain
  · exact .inl hv
  · right
    obtain ⟨id, rfl⟩ := Value.not_plain_iff.mp hv
    obtain ⟨hlt, hget⟩ := List.getElem?_eq_some_iff.mp hi
    have hlt' : i < nodes.length := by rwa [h.length_eq]
    have hdynamic := h.get hlt' hlt
    simp only [List.get_eq_getElem, hget] at hdynamic
    refine List.mem_map.mpr ⟨(i, id), ?_, rfl⟩
    unfold dynamicSlots
    refine List.mem_filterMap.mpr ⟨((nodes[i], .signal id), i), ?_, ?_⟩
    · rw [List.mk_mem_zipIdx_iff_getElem?, List.getElem?_zip_eq_some]
      exact ⟨List.getElem?_eq_getElem hlt', hi⟩
    · simp only [if_pos (hdynamic hv)]

/-- Nodes are evaluated and their values put together, at once or in a signal. -/
theorem combine_yields (hr : r.Plain) (p : Program) (nodes : List NodeId) (env : ValueEnv)
    (recipe : Recipe) : Yields (combine r p nodes env recipe) fun _ => True := by
  unfold combine
  refine (Yields.mapM fun node _ => hr.evaluate p node env).bind fun values hvalues => ?_
  have hslots := plain_or_mem_dynamicSlots hvalues
  have hstep : Step.Plain (.combine recipe values ((dynamicSlots p nodes values).map Prod.fst)) :=
    hslots
  simp only
  split
  · rename_i hnone
    refine assemble_yields hr recipe fun v hv => ?_
    obtain ⟨i, hi⟩ := List.mem_iff_getElem?.mp hv
    rcases hslots i v hi with h | h
    · exact h
    · rw [List.map_eq_nil_iff.mp hnone] at h
      cases h
  · split
    · exact newSignal_yields (c := .mapFused _ _) hstep
    · exact newSignal_yields (c := .map _ _ true) hstep
  · refine (yields_lift (create_keeps (c := .join _) trivial)).bind fun joined _ => ?_
    exact newSignal_yields (c := .map joined _ false) hstep

/-! ### The functions of signals -/

theorem applyStep_keeps (hr : r.Plain) {step : Step} (hstep : step.Plain) {p : Payload}
    (hp : p.Plain) : Keeps PlainGraph (applyStep r step p) (Good Payload.Plain) := by
  cases step with
  | combine recipe inputs slots =>
    refine Keeps.bind (assemble_yields hr recipe (plain_fill hstep hp)) fun result _ => ?_
    exact settle_keeps hr result
  | close program params body env =>
    refine (keeps_newIdentities 1).bind fun identity _ => ?_
    exact keeps_pure (good_ok (Payload.plain_plain fun _ h => nomatch h))

theorem chooseSignal_keeps (hr : r.Plain) (choice : Choice) {p : Payload} (hp : p.Plain) :
    Keeps PlainGraph (chooseSignal r choice p) fun _ => True := by
  cases choice with
  | member name => exact asSignal_keeps _
  | logical op program right env =>
    show Keeps PlainGraph (if decidesLogical op p.value then constantSignal p.value
      else do asSignal (← (r.evaluate program right env).run)) fun _ => True
    split
    · exact constantSignal_keeps hp.value
    · exact Keeps.bind (hr.evaluate program right env) fun result _ => asSignal_keeps result
  | conditional program consequent alternate env =>
    exact Keeps.bind (hr.evaluate program _ env) fun result _ => asSignal_keeps result

end Eval

end ReactiveDoc
