import ReactiveDoc.Proofs.Signal.Request
import ReactiveDoc.Signal.Ownership

namespace ReactiveDoc.Signal

/-!
# What every run keeps

A property of all outcomes and of all steps of maps, kept by every operation on signals whether it
succeeds or finds failures on the way.

* `Keeps` — completed runs keep a property of the graph, and end with a result of a kind.
* `Graph.All` — every outcome that is remembered is good, and every step of a map is fine.
* `Rules.Keep` — the operations on the signals below keep it.
* `Rules.Keep.reconcileNode`, `Rules.Keep.setNode` — then so do those on the signals above.
-/

variable {P F Φ σ α β : Type}

/-! ### Completed runs -/

/-- Every completed run from a graph with the property ends in a graph with the property, and with
    a result that satisfies the postcondition. -/
def Keeps (I : Graph P F Φ → Prop) (x : Action P F Φ σ α) (Q : α → Prop) : Prop :=
  ∀ ⦃w a w'⦄, I w.graph → x w = .ok (a, w') → I w'.graph ∧ Q a

section

variable {I : Graph P F Φ → Prop} {Q : α → Prop} {R : β → Prop} {x : Action P F Φ σ α}

theorem keeps_pure {a : α} (h : Q a) : Keeps I (pure a : Action P F Φ σ α) Q := by
  intro w a' w' hi hrun
  cases hrun
  exact ⟨hi, h⟩

theorem keeps_throw (e : Fault) : Keeps I (throw e : Action P F Φ σ α) Q := by
  intro w a w' _ hrun
  cases hrun

theorem Keeps.bind {f : α → Action P F Φ σ β} (h : Keeps I x Q)
    (hf : ∀ a, Q a → Keeps I (f a) R) : Keeps I (x >>= f) R := by
  intro w b w' hi hrun
  cases hx : x w with
  | error e =>
    have hfail : (x >>= f) w = .error e := by
      show StateT.bind x f w = _
      unfold StateT.bind
      rw [hx]
      rfl
    rw [hfail] at hrun
    cases hrun
  | ok first =>
    obtain ⟨a, w₁⟩ := first
    rw [bind_run hx] at hrun
    obtain ⟨hi₁, ha⟩ := h hi hx
    exact hf a ha hi₁ hrun

theorem Keeps.mono {Q' : α → Prop} (h : Keeps I x Q) (hQ : ∀ a, Q a → Q' a) : Keeps I x Q' :=
  fun _ _ _ hi hrun => ⟨(h hi hrun).1, hQ _ (h hi hrun).2⟩

/-- A run followed by one that gives a pure result. -/
theorem Keeps.map {f : α → β} (h : Keeps I x Q) (hf : ∀ a, Q a → R (f a)) :
    Keeps I (f <$> x) R := by
  rw [map_eq_pure_bind]
  exact h.bind fun a ha => keeps_pure (hf a ha)

theorem keeps_graph : Keeps I (graph : Action P F Φ σ (Graph P F Φ)) I := by
  intro w g w' hi hrun
  cases hrun
  exact ⟨hi, hi⟩

theorem keeps_update {f : Graph P F Φ → Graph P F Φ} (h : ∀ g, I g → I (f g)) :
    Keeps I (update f : Action P F Φ σ Unit) fun _ => True := by
  intro w a w' hi hrun
  cases hrun
  exact ⟨h _ hi, trivial⟩

theorem keeps_create {f : Graph P F Φ → α × Graph P F Φ} (h : ∀ g, I g → I (f g).2) :
    Keeps I (create f : Action P F Φ σ α) fun _ => True := by
  intro w a w' hi hrun
  cases hrun
  exact ⟨h _ hi, trivial⟩

theorem keeps_newIdentities (n : Nat) :
    Keeps I (newIdentities n : Action P F Φ σ Nat) fun _ => True := by
  intro w a w' hi hrun
  cases hrun
  exact ⟨hi, trivial⟩

/-- A run for each of several things, with a result for each. -/
theorem Keeps.mapM {S : α → β → Prop} {f : α → Action P F Φ σ β} {as : List α}
    (h : ∀ a ∈ as, Keeps I (f a) (S a)) : Keeps I (as.mapM f) (List.Forall₂ S as) := by
  induction as with
  | nil => exact keeps_pure .nil
  | cons a as ih =>
    rw [List.mapM_cons]
    refine (h a (List.mem_cons_self ..)).bind fun b hb => ?_
    refine (ih fun a' ha' => h a' (List.mem_cons_of_mem _ ha')).bind fun bs hbs => ?_
    exact keeps_pure (.cons hb hbs)

theorem Keeps.foldlM {f : β → α → Action P F Φ σ β} {as : List α}
    (h : ∀ b, R b → ∀ a ∈ as, Keeps I (f b a) R) {b : β} (hb : R b) :
    Keeps I (as.foldlM f b) R := by
  induction as generalizing b with
  | nil => exact keeps_pure hb
  | cons a as ih =>
    rw [List.foldlM_cons]
    refine (h b hb a (List.mem_cons_self ..)).bind fun b' hb' => ?_
    exact ih (fun b'' hb'' a' ha' => h b'' hb'' a' (List.mem_cons_of_mem _ ha')) hb'

end

/-! ### All outcomes and all steps -/

section

variable {good : P → Prop} {fine : F → Prop} {g : Graph P F Φ} {n : Node P F Φ}

namespace Graph.All

/-- One signal changes. -/
theorem modify (h : g.All good fine) (id : SignalId) {f : Node P F Φ → Node P F Φ}
    (hf : ∀ n, n.All good fine → (f n).All good fine) : (g.modify id f).All good fine := by
  intro j
  refine g.node_modify_induction (C := fun _ n => n.All good fine) ?_ j (h j)
  exact fun _ => hf _ (h id)

/-- One signal changes, but neither its form nor its outcome. -/
theorem modify_same (h : g.All good fine) (id : SignalId) {f : Node P F Φ → Node P F Φ}
    (hform : ∀ n, (f n).form = n.form)
    (houtcome : ∀ n, (f n).memo.outcome? = n.memo.outcome?) : (g.modify id f).All good fine :=
  h.modify id fun n hn => hn.congr (hform n) (houtcome n)

/-- Telling dependents marks them, and changes nothing else. -/
theorem notifyAll (h : g.All good fine) (ds : List Dependent) :
    (g.notifyAll ds).All good fine := by
  intro j
  by_cases hj : j < g.size
  · by_cases htold : g.Told ds j
    · rw [(g.node_notifyAll ds j).1 htold hj]
      exact (h j).congr rfl rfl
    · rw [(g.node_notifyAll ds j).2 htold]
      exact h j
  · rw [Graph.node_of_size_le _ (by rw [g.size_notifyAll]; exact Nat.le_of_not_lt hj),
      ← g.node_of_size_le (Nat.le_of_not_lt hj)]
    exact h j

theorem notify (h : g.All good fine) (id : SignalId) : (g.notify id).All good fine := by
  show ((g.modify (g.anchor id) fun n => { n with dependents := [] }).notifyAll _).All good fine
  refine Graph.All.notifyAll ?_ _
  exact h.modify_same _ (fun _ => rfl) fun _ => rfl

theorem add (h : g.All good fine) (hn : n.All good fine) : (g.add n).2.All good fine := by
  intro j
  rw [g.node_add]
  split
  · exact hn
  · exact h j

theorem resolve (h : g.All good fine) {id target : SignalId} {g' : Graph P F Φ}
    (hresolve : g.resolve id target = .ok g') : g'.All good fine := by
  unfold Graph.resolve at hresolve
  split at hresolve
  · cases hresolve
    refine (h.modify id fun _ _ => ⟨?_, ?_⟩).notifyAll _
    · intro o ho
      cases ho
    · intro source steps role hform
      cases hform
  · cases hresolve
  · cases hresolve

/-- What is told of changes does not matter. -/
theorem release (h : g.All good fine) (o : Owning P F Φ) (held : List SignalId) :
    (g.release o held).All good fine := by
  intro j
  refine (h j).congr ?_ ?_
  all_goals
    unfold Graph.node Graph.release
    simp only [Array.getD_eq_getD_getElem?, Array.getElem?_map]
    cases g.nodes[j]? <;> rfl

end Graph.All

/-- With one more signal of this kind, all are so. -/
theorem Graph.All.create (h : g.All good fine) {c : Creation P F Φ} (hc : c.All good fine) :
    (c.apply g).2.All good fine := by
  rw [c.apply_eq g]
  exact h.add (hc.node h)

end

/-! ### Operations on signals -/

section

variable {good : P → Prop} {fine : F → Prop}

theorem keeps_register (id source : SignalId) :
    Keeps (Graph.All good fine) (register id source : Action P F Φ σ Unit) fun _ => True :=
  keeps_update fun _ h => h.depend source _

theorem keeps_remember (id : SignalId) (versions : List Nat) :
    Keeps (Graph.All good fine) (remember id versions : Action P F Φ σ Unit) fun _ => True :=
  keeps_update fun _ h => h.modify_same id (fun _ => rfl) fun _ => rfl

theorem keeps_follow (id : SignalId) (inner? : Option Inner) :
    Keeps (Graph.All good fine) (follow id inner? : Action P F Φ σ Unit) fun _ => True :=
  keeps_update fun _ h => h.modify_same id (fun _ => rfl) fun _ => rfl

theorem keeps_clean (id : SignalId) :
    Keeps (Graph.All good fine) (clean id : Action P F Φ σ Unit) fun _ => True :=
  keeps_update fun _ h => h.modify_same id (fun _ => rfl) fun _ => rfl

theorem keeps_store [BEq P] (id : SignalId) {o : Outcome P} (ho : Good good o) :
    Keeps (Graph.All good fine) (store id o : Action P F Φ σ Unit) fun _ => True :=
  keeps_update fun _ h => h.modify id fun _ hn => hn.store ho

theorem keeps_isStale (id : SignalId) (versions : List Nat) :
    Keeps (Graph.All good fine) (isStale id versions : Action P F Φ σ Bool) fun _ => True := by
  unfold isStale
  exact keeps_graph.bind fun _ _ => keeps_pure trivial

theorem keeps_resolve (reference target : SignalId) :
    Keeps (Graph.All good fine)
      (resolve reference target : Action P F Φ σ (Except SignalError Unit)) fun _ => True := by
  unfold resolve
  refine keeps_graph.bind fun g hg => ?_
  cases hresolve : g.resolve reference target with
  | ok resolved => exact (keeps_update fun _ _ => hg.resolve hresolve).bind fun _ _ => keeps_pure trivial
  | error e => exact keeps_pure trivial

/-- The operations on the signals below keep all outcomes good, if they are given good ones. -/
structure Rules.Keep (good : P → Prop) (fine : F → Prop) (r : Rules P F Φ σ) : Prop where
  reconcile : ∀ id, Keeps (Graph.All good fine) (r.reconcile id) fun _ => True
  set : ∀ id o, Good good o → Keeps (Graph.All good fine) (r.set id o) fun _ => True
  apply : ∀ f p, fine f → good p → Keeps (Graph.All good fine) (r.apply f p) (Good good)
  invert : ∀ f p, good p → Keeps (Graph.All good fine) (r.invert f p) good
  choose : ∀ choice p, good p → Keeps (Graph.All good fine) (r.choose choice p) fun _ => True

/-- Where no recursion is left nothing completes. -/
theorem Rules.keep_exhausted : (Rules.exhausted : Rules P F Φ σ).Keep good fine where
  reconcile _ := keeps_throw _
  set _ _ _ := keeps_throw _
  apply _ _ _ _ := keeps_throw _
  invert _ _ _ := keeps_throw _
  choose _ _ _ := keeps_throw _

namespace Rules.Keep

variable {r : Rules P F Φ σ}

theorem applySteps (h : r.Keep good fine) {steps : List F} (hsteps : ∀ f ∈ steps, fine f)
    {o : Outcome P} (ho : Good good o) :
    Keeps (Graph.All good fine) (applySteps r steps o) (Good good) := by
  unfold Signal.applySteps
  refine Keeps.foldlM (fun o ho f hf => ?_) ho
  cases o with
  | ok p => exact h.apply f p (hsteps f hf) (ho p rfl)
  | error e => exact keeps_pure (good_error e)

theorem reconcileSources (h : r.Keep good fine) (id : SignalId) (sources : List SignalId) :
    Keeps (Graph.All good fine) (reconcileSources r id sources) fun _ => True := by
  unfold Signal.reconcileSources
  refine (Keeps.mapM (S := fun _ _ => True) fun source _ => ?_).mono fun _ _ => trivial
  refine (h.reconcile source).bind fun _ _ => ?_
  refine (keeps_register id source).bind fun _ _ => ?_
  exact keeps_graph.bind fun _ _ => keeps_pure trivial

theorem leave (id : SignalId) :
    Keeps (Graph.All good fine) (leave id : Action P F Φ σ Unit) fun _ => True := by
  unfold Signal.leave
  refine keeps_graph.bind fun g _ => ?_
  cases (g.node id).inner? with
  | none => exact keeps_pure trivial
  | some inner =>
    refine (keeps_follow id none).bind fun _ _ => ?_
    exact keeps_update fun _ hg => hg.undepend inner.signal _

theorem turn (h : r.Keep good fine) (id source : SignalId) (choice : Φ) :
    Keeps (Graph.All good fine) (turn r id source choice)
      fun o? => ∀ o, o? = some o → Good good o := by
  unfold Signal.turn
  refine (leave id).bind fun _ _ => ?_
  refine keeps_graph.bind fun g hg => ?_
  cases hv : g.value source with
  | error e =>
    refine keeps_pure ?_
    rintro _ ⟨⟩
    exact good_error e
  | ok p =>
    refine (h.choose choice p (hg.value source p hv)).bind fun inner _ => ?_
    refine (keeps_follow id _).bind fun _ _ => keeps_pure ?_
    intro o ho
    cases ho

theorem reconcileInner (h : r.Keep good fine) (id : SignalId) :
    Keeps (Graph.All good fine) (reconcileInner r id) fun o? => ∀ o, o? = some o → Good good o := by
  unfold Signal.reconcileInner
  refine keeps_graph.bind fun g _ => ?_
  cases (g.node id).inner? with
  | none =>
    refine keeps_pure ?_
    intro o ho
    cases ho
  | some inner =>
    refine (h.reconcile inner.signal).bind fun _ _ => ?_
    refine (keeps_register id inner.signal).bind fun _ _ => ?_
    refine keeps_graph.bind fun g hg => ?_
    simp only
    split
    · refine (keeps_follow id _).bind fun _ _ => keeps_pure ?_
      rintro _ ⟨⟩
      exact hg.value inner.signal
    · refine keeps_pure ?_
      intro o ho
      cases ho

theorem read (h : r.Keep good fine) (id : SignalId) :
    Keeps (Graph.All good fine) (r.read id) (Good good) := by
  unfold Rules.read
  refine (h.reconcile id).bind fun _ _ => ?_
  exact keeps_graph.bind fun g hg => keeps_pure (hg.value id)

variable [Carrier P]

theorem reconcileImage (h : r.Keep good fine) (id source : SignalId)
    {compute : Outcome P → Action P F Φ σ (Outcome P)}
    (hcompute : ∀ o, Good good o → Keeps (Graph.All good fine) (compute o) (Good good)) :
    Keeps (Graph.All good fine) (reconcileImage r id source compute) fun _ => True := by
  unfold Signal.reconcileImage
  refine (h.reconcile source).bind fun _ _ => ?_
  refine (keeps_register id source).bind fun _ _ => ?_
  refine keeps_graph.bind fun g _ => ?_
  refine (keeps_isStale id _).bind fun stale _ => ?_
  cases stale with
  | false => exact keeps_clean id
  | true =>
    refine (keeps_remember id _).bind fun _ _ => ?_
    refine keeps_graph.bind fun g hg => ?_
    refine (hcompute _ (hg.value source)).bind fun o ho => ?_
    exact (keeps_store id ho).bind fun _ _ => keeps_clean id

theorem reconcileJoin (h : r.Keep good fine)
    (hlist : ∀ ps : List P, (∀ p ∈ ps, good p) → good (Carrier.ofList ps)) (id : SignalId)
    (sources : List SignalId) :
    Keeps (Graph.All good fine) (reconcileJoin r id sources) fun _ => True := by
  unfold Signal.reconcileJoin
  refine (h.reconcileSources id sources).bind fun versions _ => ?_
  refine (keeps_isStale id versions).bind fun stale _ => ?_
  cases stale with
  | false => exact keeps_clean id
  | true =>
    refine (keeps_remember id versions).bind fun _ _ => ?_
    refine keeps_graph.bind fun g hg => ?_
    refine (keeps_store id ?_).bind fun _ _ => keeps_clean id
    cases hall : g.valueAll sources with
    | error e => exact good_error e
    | ok ps => exact good_ok (hlist ps (hg.valueAll hall))

theorem reconcileChoice (h : r.Keep good fine) (id source : SignalId) (choice : Φ) :
    Keeps (Graph.All good fine) (reconcileChoice r id source choice) fun _ => True := by
  unfold Signal.reconcileChoice
  refine (h.reconcile source).bind fun _ _ => ?_
  refine (keeps_register id source).bind fun _ _ => ?_
  refine keeps_graph.bind fun g _ => ?_
  refine (keeps_isStale id _).bind fun stale _ => ?_
  -- Both outcomes that may be remembered are good: the new one and the failure of the source.
  have hrest : ∀ failure : Option (Outcome P), (∀ o, failure = some o → Good good o) →
      Keeps (Graph.All good fine) (do
        let new ← Signal.reconcileInner r id
        conclude id (new.or failure)) fun _ => True := by
    intro failure hfailure
    refine (h.reconcileInner id).bind fun new hnew => ?_
    unfold conclude
    cases ho : new.or failure with
    | none => exact keeps_clean id
    | some o =>
      refine (keeps_store id ?_).bind fun _ _ => keeps_clean id
      cases new with
      | none => exact hfailure o ho
      | some o' => exact hnew o ho
  cases stale with
  | false => exact hrest none fun o ho => nomatch ho
  | true =>
    refine (keeps_remember id _).bind fun _ _ => ?_
    exact (h.turn id source choice).bind hrest

/-- One level more keeps all outcomes good. -/
theorem reconcileNode (h : r.Keep good fine)
    (hlist : ∀ ps : List P, (∀ p ∈ ps, good p) → good (Carrier.ofList ps))
    (hattempt : ∀ o : Outcome P, Good good o → good (Carrier.ofOutcome o)) (id : SignalId) :
    Keeps (Graph.All good fine) (reconcileNode r id) fun _ => True := by
  unfold Signal.reconcileNode
  refine keeps_graph.bind fun g hg => ?_
  simp only
  split
  · cases hform : (g.node (g.anchor id)).form with
    | map source steps role =>
      exact h.reconcileImage _ source fun o ho => h.applySteps ((hg _).steps _ _ _ hform) ho
    | lift source =>
      exact h.reconcileImage _ source fun o ho => keeps_pure (good_ok (hattempt o ho))
    | flatMap source choice => exact h.reconcileChoice _ source choice
    | join sources => exact h.reconcileJoin hlist _ sources
    | label name source => exact keeps_throw _
    | reference target? => exact keeps_throw _
    | constant => exact keeps_pure trivial
    | cell => exact keeps_pure trivial
  · exact keeps_pure trivial

/-! ### Writing -/

theorem setCell (id : SignalId) {o : Outcome P} (ho : Good good o) :
    Keeps (Graph.All good fine) (setCell id o : Action P F Φ σ Unit) fun _ => True := by
  unfold Signal.setCell
  refine keeps_update fun g hg => ?_
  split
  · exact hg
  · exact (hg.modify id fun _ hn => hn.store ho).notify id

theorem settleWritten (id source : SignalId) {o : Outcome P} (ho : Good good o) :
    Keeps (Graph.All good fine) (settleWritten id source o : Action P F Φ σ Unit)
      fun _ => True := by
  unfold Signal.settleWritten
  refine keeps_graph.bind fun g _ => ?_
  refine (keeps_store id ho).bind fun _ _ => ?_
  refine (keeps_clean id).bind fun _ _ => ?_
  refine keeps_graph.bind fun g' _ => ?_
  refine (keeps_remember id _).bind fun _ _ => ?_
  refine (keeps_register id source).bind fun _ _ => ?_
  split
  · exact keeps_update fun _ hg => hg.notify id
  · exact keeps_pure trivial

/-- The source of a map is written before the map. -/
theorem setThrough (h : r.Keep good fine) (id source : SignalId) {o written : Outcome P}
    (ho : Good good o) (hwritten : Good good written) :
    Keeps (Graph.All good fine) ((do
      match ← r.set source written with
      | .error e => pure (.error e)
      | .ok () =>
          r.reconcile source
          Signal.settleWritten id source o
          pure (.ok ())) : Action P F Φ σ (Except SignalError Unit)) fun _ => True := by
  refine (h.set source written hwritten).bind fun result _ => ?_
  cases result with
  | error e => exact keeps_pure trivial
  | ok _ =>
    refine (h.reconcile source).bind fun _ _ => ?_
    exact (settleWritten id source ho).bind fun _ _ => keeps_pure trivial

theorem setWritable (h : r.Keep good fine) (id source : SignalId) (inverse : F) {o : Outcome P}
    (ho : Good good o) :
    Keeps (Graph.All good fine) (setWritable r id source inverse o) fun _ => True := by
  unfold Signal.setWritable
  cases o with
  | ok p =>
    have hinvert := (h.invert inverse p (ho p rfl)).map (R := Good good) fun _ hp => good_ok hp
    exact hinvert.bind fun _ => h.setThrough id source ho
  | error e => exact h.setThrough id source ho (good_error e)

/-- One level more writes good outcomes, and keeps all good. -/
theorem setNode (h : r.Keep good fine) (id : SignalId) {o : Outcome P} (ho : Good good o) :
    Keeps (Graph.All good fine) (setNode r id o) fun _ => True := by
  unfold Signal.setNode
  refine keeps_graph.bind fun g _ => ?_
  simp only
  cases (g.node (g.anchor id)).form with
  | cell => exact (setCell _ ho).bind fun _ _ => keeps_pure trivial
  | map source steps role =>
    cases role with
    | readOnly uniform => exact keeps_pure trivial
    | writable inverse => exact h.setWritable _ source inverse ho
  | reference target? =>
    cases target? with
    | none => exact keeps_pure trivial
    | some target => exact keeps_throw _
  | label name source => exact keeps_throw _
  | _ => exact keeps_pure trivial

end Rules.Keep

end

end ReactiveDoc.Signal
