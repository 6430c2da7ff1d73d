import ReactiveDoc.Proofs.Signal.Intact
import ReactiveDoc.Proofs.Signal.Keeping
import ReactiveDoc.Proofs.Signal.Layered
import ReactiveDoc.Proofs.Signal.Relating
import ReactiveDoc.Proofs.Traversal

namespace ReactiveDoc.Signal

/-!
# Reads that write no cell

The functions of signals may do anything, so a read may write cells.  It does not if nothing does so
that the signal is computed from.

* `Realm`, `Graph.In` — signals that are computed from each other alone, and by what.
* `Spares` — completed runs keep the graph in the realm, write no cell, and leave what the host
  keeps alone.
* `Rules.Spare`, `Rules.Spare.reconcileNode` — the operations on the signals below do so; then so do
  those on the signals above.
* `setNode_cases`, `Graph.In.written` — a write is refused, or writes a cell.
-/

variable {P F Φ σ α β : Type} [Carrier P]

/-! ### Signals that are computed from each other -/

/-- Some of the signals, what they may carry and what their functions may be; and which of all
    signals are cells. -/
structure Realm (P F Φ : Type) [Carrier P] where
  signal : SignalId → Prop
  payload : P → Prop
  step : F → Prop
  choice : Φ → Prop
  cell : SignalId → Prop
  ofList : ∀ {ps}, (∀ p ∈ ps, payload p) → payload (Carrier.ofList ps)
  ofOutcome : ∀ o, payload (Carrier.ofOutcome o)

variable {K : Realm P F Φ} {g : Graph P F Φ} {n n' : Node P F Φ} {id source : SignalId}

/-- The signal comes from signals of the realm, and so do its functions and its outcome.  It is not
    written through a function. -/
structure Node.In (K : Realm P F Φ) (n : Node P F Φ) : Prop extends n.All K.payload K.step where
  upstream : ∀ id ∈ n.form.upstream, K.signal id
  choice : ∀ source choice, n.form = .flatMap source choice → K.choice choice
  inner : ∀ inner, n.inner? = some inner → K.signal inner.signal
  fixed : ∀ source steps inverse, n.form ≠ .map source steps (.writable inverse)

/-- The signal is a cell. -/
def Graph.IsCell (g : Graph P F Φ) (id : SignalId) : Prop := (g.node id).form = .cell

section

omit [Carrier P]

theorem Graph.isCell_congr {g' : Graph P F Φ} (h : (g'.node id).form = (g.node id).form) :
    g'.IsCell id ↔ g.IsCell id := by
  unfold IsCell
  rw [h]

theorem Graph.not_isCell_of_size_le (h : g.size ≤ id) : ¬ g.IsCell id := by
  unfold IsCell
  rw [g.node_of_size_le h]
  exact nofun

end

/-- The signals of the realm are computed from each other alone, and what is still to be added
    belongs to it. -/
structure Graph.In (K : Realm P F Φ) (g : Graph P F Φ) : Prop where
  node : ∀ id, K.signal id → (g.node id).In K
  fresh : ∀ id, g.size ≤ id → K.signal id
  cell : ∀ id, g.IsCell id ↔ K.cell id

namespace Node.In

/-- Only the form, the outcome and the signal that is followed matter. -/
theorem congr (h : n.In K) (hform : n'.form = n.form)
    (houtcome : n'.memo.outcome? = n.memo.outcome?) (hinner : n'.inner? = n.inner?) : n'.In K :=
  ⟨h.toAll.congr hform houtcome, hform ▸ h.upstream, hform ▸ h.choice, hinner ▸ h.inner,
    hform ▸ h.fixed⟩

theorem store (h : n.In K) {o : Outcome P} (ho : Good K.payload o) :
    ({ n with memo := n.memo.store o } : Node P F Φ).In K :=
  { h.toAll.store ho with
    upstream := h.upstream
    choice := h.choice
    inner := h.inner
    fixed := h.fixed }

end Node.In

/-- What is not there comes from nothing. -/
theorem Node.in_unresolved : (Graph.unresolved : Node P F Φ).In K :=
  ⟨Node.all_unresolved, nofun, nofun, nofun, nofun⟩

namespace Graph.In

/-- One signal changes, but not its form. -/
theorem modify (h : g.In K) (id : SignalId) {f : Node P F Φ → Node P F Φ}
    (hform : ∀ n, (f n).form = n.form) (hf : ∀ n, n.In K → (f n).In K) : (g.modify id f).In K := by
  refine ⟨fun j hj => ?_, fun j hj => ?_, fun j => ?_⟩
  · exact g.node_modify_induction (C := fun j n => K.signal j → n.In K)
      (fun _ hid => hf _ (h.node id hid)) j (h.node j) hj
  · rw [size_modify] at hj
    exact h.fresh j hj
  · rw [← h.cell j]
    refine isCell_congr ?_
    exact g.node_modify_induction (C := fun j n => n.form = (g.node j).form)
      (fun _ => hform _) j rfl

/-- One signal changes, but nothing of it that matters. -/
theorem modify_same (h : g.In K) (id : SignalId) {f : Node P F Φ → Node P F Φ}
    (hform : ∀ n, (f n).form = n.form) (houtcome : ∀ n, (f n).memo.outcome? = n.memo.outcome?)
    (hinner : ∀ n, (f n).inner? = n.inner?) : (g.modify id f).In K :=
  h.modify id hform fun n hn => hn.congr (hform n) (houtcome n) (hinner n)

theorem depend (h : g.In K) (id : SignalId) (d : Dependent) : (g.depend id d).In K := by
  refine h.modify_same _ ?_ ?_ ?_
  all_goals
    intro n
    split <;> rfl

theorem undepend (h : g.In K) (id : SignalId) (d : Dependent) : (g.undepend id d).In K :=
  h.modify_same _ (fun _ => rfl) (fun _ => rfl) fun _ => rfl

/-- Telling dependents marks them, and changes nothing else. -/
theorem notifyAll (h : g.In K) (ds : List Dependent) : (g.notifyAll ds).In K := by
  have hform (j : SignalId) := (g.heard_notifyAll ds j).form_eq
  refine ⟨fun j hj => ?_, fun j hj => ?_, fun j => ?_⟩
  · by_cases htold : g.Told ds j
    · by_cases hlt : j < g.size
      · rw [(g.node_notifyAll ds j).1 htold hlt]
        exact (h.node j hj).congr rfl rfl rfl
      · rw [Graph.node_of_size_le _ (by rw [g.size_notifyAll]; exact Nat.le_of_not_lt hlt)]
        exact Node.in_unresolved
    · rw [(g.node_notifyAll ds j).2 htold]
      exact h.node j hj
  · rw [size_notifyAll] at hj
    exact h.fresh j hj
  · rw [isCell_congr (hform j), h.cell]

/-- A write to a cell of what the realm allows. -/
theorem written (h : g.In K) {c : SignalId} (hcell : (g.node c).form = .cell) {o : Outcome P}
    (ho : Good K.payload o) : (g.written c o).In K := by
  have hset := setCell_eq (w := (⟨g, 0, ()⟩ : World P F Φ Unit)) hcell o
  have hgraph := congrArg (fun result => result.toOption.map fun end' => end'.2.graph) hset
  have hwritten : (if (g.node c).memo.holds o then g
      else (g.modify c fun n => { n with memo := n.memo.store o }).notify c) = g.written c o :=
    Option.some.inj hgraph
  rw [← hwritten]
  split
  · exact h
  · have hstored := h.modify c (f := fun n => { n with memo := n.memo.store o }) (fun _ => rfl)
      fun n hn => hn.store ho
    exact (hstored.modify_same _ (f := fun n => { n with dependents := [] }) (fun _ => rfl)
      (fun _ => rfl) fun _ => rfl).notifyAll _

/-- A signal of the realm stands for one of the realm. -/
theorem anchor (h : g.In K) (hid : K.signal id) : K.signal (g.anchor id) := by
  have hwithin (fuel : Nat) : ∀ id, K.signal id → K.signal (g.anchorWithin fuel id) := by
    induction fuel with
    | zero => exact fun _ hid => hid
    | succ fuel ih =>
      intro id hid
      rw [Graph.anchorWithin]
      cases htarget : (g.node id).form.target? with
      | none => exact hid
      | some target =>
        exact ih target ((h.node id hid).upstream target (Form.mem_upstream_of_target? htarget))
  exact hwithin _ id hid

theorem value (h : g.In K) (hid : K.signal id) : Good K.payload (g.value id) := by
  unfold Graph.value Memo.read
  cases houtcome : (g.node (g.anchor id)).memo.outcome? with
  | none => exact good_error _
  | some o => exact (h.node _ (h.anchor hid)).outcome o houtcome

/-- What is remembered of joined signals. -/
theorem ofList (h : g.In K) {sources : List SignalId} (hsources : ∀ id ∈ sources, K.signal id) :
    Good K.payload ((g.valueAll sources).map Carrier.ofList) := by
  cases hall : g.valueAll sources with
  | error e => exact good_error e
  | ok ps =>
    refine good_ok (K.ofList fun p hp => ?_)
    obtain ⟨source, hsource, hvalue⟩ := exists_left_of_mem (mapM_eq_ok_iff.mp hall) hp
    exact h.value (hsources source hsource) p hvalue

/-- One more signal, which is no cell. -/
theorem add (h : g.In K) (hn : n.In K) (hcell : n.form ≠ .cell) : (g.add n).2.In K := by
  have hsize : ¬ K.cell g.size := by
    rw [← h.cell]
    exact not_isCell_of_size_le (Nat.le_refl _)
  refine ⟨fun j hj => ?_, fun j hj => h.fresh j ?_, fun j => ?_⟩
  · rw [node_add]
    split
    · exact hn
    · exact h.node j hj
  · rw [size_add] at hj
    exact Nat.le_of_succ_le hj
  · rw [IsCell, node_add]
    split
    · rename_i heq
      exact heq ▸ iff_of_false hcell hsize
    · exact h.cell j

end Graph.In

/-! ### Completed runs -/

/-- Cells have the outcomes and versions that they had, and the host keeps what it kept. -/
structure Sparing (cell : SignalId → Prop) (w w' : World P F Φ σ) : Prop where
  heard : ∀ id, cell id → Graph.Heard (w.graph.node id) (w'.graph.node id)
  host_eq : w'.host = w.host

section

variable {cell : SignalId → Prop} {w w₁ w' : World P F Φ σ}

omit [Carrier P]

theorem Sparing.refl (w : World P F Φ σ) : Sparing cell w w := ⟨fun _ _ => .refl _, rfl⟩

theorem Sparing.trans (h : Sparing cell w w₁) (h' : Sparing cell w₁ w') : Sparing cell w w' :=
  ⟨fun id hid => (h.heard id hid).trans (h'.heard id hid), h'.host_eq.trans h.host_eq⟩

end

/-- Every completed run from a graph in the realm ends in a graph in the realm, with a result that
    satisfies the postcondition.  No cell was written, and the host was asked nothing. -/
def Spares (K : Realm P F Φ) (x : Action P F Φ σ α) (Q : α → Prop) : Prop :=
  ∀ ⦃w a w'⦄, w.graph.In K → x w = .ok (a, w') → w'.graph.In K ∧ Sparing K.cell w w' ∧ Q a

section

variable {Q : α → Prop} {R : β → Prop} {x : Action P F Φ σ α}

theorem spares_pure {a : α} (h : Q a) : Spares K (pure a : Action P F Φ σ α) Q := by
  intro w a' w' hin hrun
  cases hrun
  exact ⟨hin, .refl w, h⟩

theorem spares_throw (e : Fault) : Spares K (throw e : Action P F Φ σ α) Q := by
  intro w a w' _ hrun
  cases hrun

theorem Spares.bind {f : α → Action P F Φ σ β} (h : Spares K x Q)
    (hf : ∀ a, Q a → Spares K (f a) R) : Spares K (x >>= f) R := by
  intro w b w' hin hrun
  obtain ⟨a, w₁, hfirst, hrest⟩ := exists_of_bind hrun
  obtain ⟨hin₁, hspare₁, ha⟩ := h hin hfirst
  obtain ⟨hin', hspare', hb⟩ := hf a ha hin₁ hrest
  exact ⟨hin', hspare₁.trans hspare', hb⟩

theorem Spares.mono {Q' : α → Prop} (h : Spares K x Q) (hQ : ∀ a, Q a → Q' a) : Spares K x Q' :=
  fun _ _ _ hin hrun => (h hin hrun).imp_right fun ⟨hspare, ha⟩ => ⟨hspare, hQ _ ha⟩

/-- A run followed by one that gives a pure result. -/
theorem Spares.map {f : α → β} (h : Spares K x Q) (hf : ∀ a, Q a → R (f a)) :
    Spares K (f <$> x) R := by
  rw [map_eq_pure_bind]
  exact h.bind fun a ha => spares_pure (hf a ha)

theorem spares_graph : Spares K (graph : Action P F Φ σ (Graph P F Φ)) (Graph.In K) := by
  intro w g w' hin hrun
  cases hrun
  exact ⟨hin, .refl w, hin⟩

theorem spares_newIdentities (n : Nat) :
    Spares K (newIdentities n : Action P F Φ σ Nat) fun _ => True := by
  intro w a w' hin hrun
  cases hrun
  exact ⟨hin, ⟨fun _ _ => .refl _, rfl⟩, trivial⟩

/-- A run for each of several things, with a result for each. -/
theorem Spares.mapM {S : α → β → Prop} {f : α → Action P F Φ σ β} {as : List α}
    (h : ∀ a ∈ as, Spares K (f a) (S a)) : Spares K (as.mapM f) (List.Forall₂ S as) := by
  induction as with
  | nil => exact spares_pure .nil
  | cons a as ih =>
    rw [List.mapM_cons]
    refine (h a List.mem_cons_self).bind fun b hb => ?_
    refine (ih fun a' ha' => h a' (List.mem_cons_of_mem _ ha')).bind fun bs hbs => ?_
    exact spares_pure (.cons hb hbs)

theorem Spares.foldlM {f : β → α → Action P F Φ σ β} {as : List α}
    (h : ∀ b, R b → ∀ a ∈ as, Spares K (f b a) R) {b : β} (hb : R b) :
    Spares K (as.foldlM f b) R := by
  induction as generalizing b with
  | nil => exact spares_pure hb
  | cons a as ih =>
    rw [List.foldlM_cons]
    refine (h b hb a List.mem_cons_self).bind fun b' hb' => ?_
    exact ih (fun b'' hb'' a' ha' => h b'' hb'' a' (List.mem_cons_of_mem _ ha')) hb'

end

/-! ### Changes of one signal -/

theorem spares_update {f : Graph P F Φ → Graph P F Φ} (hin : ∀ g, g.In K → (f g).In K)
    (hheard : ∀ g id, K.cell id → Graph.Heard (g.node id) ((f g).node id)) :
    Spares K (update f : Action P F Φ σ Unit) fun _ => True := by
  intro w a w' h hrun
  cases hrun
  exact ⟨hin _ h, ⟨hheard w.graph, rfl⟩, trivial⟩

theorem spares_register (id source : SignalId) :
    Spares K (register id source : Action P F Φ σ Unit) fun _ => True :=
  spares_update (fun _ h => h.depend source _) fun g j _ => g.heard_depend source _ j

theorem spares_clean (id : SignalId) :
    Spares K (clean id : Action P F Φ σ Unit) fun _ => True :=
  spares_update (fun _ h => h.modify_same id (fun _ => rfl) (fun _ => rfl) fun _ => rfl)
    fun g j _ => g.heard_modify id (f := fun n => { n with memo := { n.memo with dirty := false } })
      (fun _ => ⟨rfl, rfl, rfl, rfl⟩) j

theorem spares_follow (id : SignalId) {inner? : Option Inner}
    (hinner : ∀ inner, inner? = some inner → K.signal inner.signal) :
    Spares K (follow id inner? : Action P F Φ σ Unit) fun _ => True := by
  refine spares_update (fun g h => h.modify id (fun _ => rfl) fun n hn => ?_) fun g j _ => ?_
  · exact { hn with inner := hinner }
  · exact g.heard_modify id (f := fun n => { n with inner? }) (fun _ => ⟨rfl, rfl, rfl, rfl⟩) j

/-- A signal that is no cell changes what it remembers. -/
theorem spares_modify {f : Node P F Φ → Node P F Φ} (hid : ¬ K.cell id)
    (hform : ∀ n, (f n).form = n.form) (hf : ∀ n, n.In K → (f n).In K) :
    Spares K (update fun g => g.modify id f : Action P F Φ σ Unit) fun _ => True := by
  refine spares_update (fun _ h => h.modify id hform hf) fun g j hj => ?_
  have hne : j ≠ id := by
    rintro rfl
    exact hid hj
  rw [g.node_modify_of_ne f hne]
  exact .refl _

theorem spares_remember (hid : ¬ K.cell id) (versions : List Nat) :
    Spares K (remember id versions : Action P F Φ σ Unit) fun _ => True :=
  spares_modify hid (fun _ => rfl) fun _ hn => hn.congr rfl rfl rfl

theorem spares_store (hid : ¬ K.cell id) {o : Outcome P} (ho : Good K.payload o) :
    Spares K (store id o : Action P F Φ σ Unit) fun _ => True :=
  spares_modify hid (fun _ => rfl) fun _ hn => hn.store ho

theorem spares_isStale (id : SignalId) (versions : List Nat) :
    Spares K (isStale id versions : Action P F Φ σ Bool) fun _ => True := by
  unfold isStale
  exact spares_graph.bind fun _ _ => spares_pure trivial

/-! ### One more signal -/

/-- The new signal comes from signals of the realm, and so do its functions and its outcome.  It is
    no cell, and not written through a function. -/
def Creation.In (K : Realm P F Φ) : Creation P F Φ → Prop
  | constant o => Good K.payload o
  | map source f _ | mapFused source f => K.signal source ∧ K.step f
  | lift source | label source _ => K.signal source
  | join sources => ∀ source ∈ sources, K.signal source
  | flatMap source choice => K.signal source ∧ K.choice choice
  | reference => True
  | cell _ | mapWritable .. => False

/-- A map of a signal of the realm. -/
theorem Node.in_map {steps : List F} {uniform : Bool} (hsource : K.signal source) (hsteps : ∀ f ∈ steps, K.step f) :
    ({ form := .map source steps (.readOnly uniform) } : Node P F Φ).In K := by
  refine ⟨⟨nofun, ?_⟩, fun id hid => ?_, nofun, nofun, nofun⟩
  · rintro _ _ _ ⟨⟩
    exact hsteps
  · rw [List.mem_singleton.mp hid]
    exact hsource

theorem Creation.In.node {c : Creation P F Φ} (hc : c.In K) (hg : g.In K) :
    ({ form := c.form g, memo := c.memo } : Node P F Φ).In K ∧ c.form g ≠ .cell := by
  have hone {source : SignalId} {f : F} {uniform : Bool} (h : K.signal source ∧ K.step f) :
      ({ form := .map source [f] (.readOnly uniform) } : Node P F Φ).In K ∧
        (.map source [f] (.readOnly uniform) : Form F Φ) ≠ .cell :=
    ⟨Node.in_map h.1 (List.forall_mem_singleton.mpr h.2), by rintro ⟨⟩⟩
  -- What is made of other signals has no outcome yet, and has no functions unless it is a map.
  have hplain {form : Form F Φ} (hupstream : ∀ id ∈ form.upstream, K.signal id)
      (hchoice : ∀ source choice, form = .flatMap source choice → K.choice choice)
      (hmap : ∀ source steps role, form ≠ .map source steps role) :
      ({ form } : Node P F Φ).In K :=
    ⟨⟨by rintro _ ⟨⟩, fun _ _ _ h => absurd h (hmap _ _ _)⟩, hupstream, hchoice, by rintro _ ⟨⟩,
      fun _ _ _ => hmap _ _ _⟩
  cases c with
  | constant o =>
    refine ⟨⟨⟨?_, by rintro _ _ _ ⟨⟩⟩, List.forall_mem_nil _, by rintro _ _ ⟨⟩, by rintro _ ⟨⟩,
      by rintro _ _ _ ⟨⟩⟩, by rintro ⟨⟩⟩
    rintro _ ⟨⟩
    exact hc
  | map source f uniform => exact hone hc
  | mapFused source f =>
    simp only [Creation.form]
    split
    · rename_i origin steps hsource
      have hnode := hg.node source hc.1
      have horigin := hnode.upstream origin (by rw [hsource]; exact List.mem_singleton_self _)
      refine ⟨Node.in_map horigin fun f' hf' => ?_, by rintro ⟨⟩⟩
      rcases List.mem_append.mp hf' with hf' | hf'
      · exact hnode.steps _ _ _ hsource f' hf'
      · exact List.mem_singleton.mp hf' ▸ hc.2
    · exact hone hc
  | lift source =>
    exact ⟨hplain (List.forall_mem_singleton.mpr hc) (by rintro _ _ ⟨⟩) (by rintro _ _ _ ⟨⟩),
      by rintro ⟨⟩⟩
  | label source name =>
    exact ⟨hplain (List.forall_mem_singleton.mpr hc) (by rintro _ _ ⟨⟩) (by rintro _ _ _ ⟨⟩),
      by rintro ⟨⟩⟩
  | join sources =>
    exact ⟨hplain hc (by rintro _ _ ⟨⟩) (by rintro _ _ _ ⟨⟩), by rintro ⟨⟩⟩
  | flatMap source choice =>
    refine ⟨hplain (List.forall_mem_singleton.mpr hc.1) ?_ (by rintro _ _ _ ⟨⟩), by rintro ⟨⟩⟩
    rintro _ _ ⟨⟩
    exact hc.2
  | reference => exact ⟨Node.in_unresolved, by rintro ⟨⟩⟩
  | cell o => exact hc.elim
  | mapWritable source f inverse => exact hc.elim

theorem create_spares {c : Creation P F Φ} (hc : c.In K) :
    Spares K (create fun g => c.apply g : Action P F Φ σ SignalId) K.signal := by
  intro w id w' hin hrun
  have hid : (c.apply w.graph).1 = id ∧ w.put (c.apply w.graph).2 = w' := by
    cases hrun
    exact ⟨rfl, rfl⟩
  obtain ⟨rfl, rfl⟩ := hid
  obtain ⟨hnode, hcell⟩ := hc.node hin
  rw [c.apply_eq w.graph]
  refine ⟨hin.add hnode hcell, ⟨fun j hj => ?_, rfl⟩, hin.fresh _ (Nat.le_refl _)⟩
  have hne : j ≠ w.graph.size := by
    rintro rfl
    exact Graph.not_isCell_of_size_le (Nat.le_refl _) ((hin.cell _).mpr hj)
  rw [World.put_graph, Graph.node_add, if_neg hne]
  exact .refl _

/-! ### Reading -/

/-- The operations on the signals of the realm below, and the functions of these, write no cell. -/
structure Rules.Spare (K : Realm P F Φ) (r : Rules P F Φ σ) : Prop where
  reconcile : ∀ id, K.signal id → Spares K (r.reconcile id) fun _ => True
  apply : ∀ f p, K.step f → K.payload p → Spares K (r.apply f p) (Good K.payload)
  choose : ∀ choice p, K.choice choice → K.payload p → Spares K (r.choose choice p) K.signal

namespace Rules.Spare

variable {r : Rules P F Φ σ}

theorem read (h : r.Spare K) (hid : K.signal id) : Spares K (r.read id) (Good K.payload) := by
  unfold Rules.read
  refine (h.reconcile id hid).bind fun _ _ => ?_
  exact spares_graph.bind fun g hg => spares_pure (hg.value hid)

theorem applySteps (h : r.Spare K) {steps : List F} (hsteps : ∀ f ∈ steps, K.step f) {o : Outcome P}
    (ho : Good K.payload o) : Spares K (applySteps r steps o) (Good K.payload) := by
  unfold Signal.applySteps
  refine Spares.foldlM (fun o ho f hf => ?_) ho
  cases o with
  | ok p => exact h.apply f p (hsteps f hf) (ho p rfl)
  | error e => exact spares_pure (good_error e)

theorem reconcileImage (h : r.Spare K) (hid : ¬ K.cell id) (hsource : K.signal source)
    {compute : Outcome P → Action P F Φ σ (Outcome P)}
    (hcompute : ∀ o, Good K.payload o → Spares K (compute o) (Good K.payload)) :
    Spares K (reconcileImage r id source compute) fun _ => True := by
  unfold Signal.reconcileImage
  refine (h.reconcile source hsource).bind fun _ _ => ?_
  refine (spares_register id source).bind fun _ _ => spares_graph.bind fun g _ => ?_
  refine (spares_isStale id _).bind fun stale _ => ?_
  cases stale with
  | false => exact spares_clean id
  | true =>
    refine (spares_remember hid _).bind fun _ _ => spares_graph.bind fun g hg => ?_
    refine (hcompute _ (hg.value hsource)).bind fun o ho => ?_
    exact (spares_store hid ho).bind fun _ _ => spares_clean id

theorem reconcileJoin (h : r.Spare K) (hid : ¬ K.cell id) {sources : List SignalId}
    (hsources : ∀ source ∈ sources, K.signal source) :
    Spares K (reconcileJoin r id sources) fun _ => True := by
  unfold Signal.reconcileJoin Signal.reconcileSources
  have hversions : Spares K (sources.mapM fun source => do
      r.reconcile source
      register id source
      return (← graph).version source : Action P F Φ σ (List Nat)) fun _ => True := by
    refine (Spares.mapM (S := fun _ _ => True) fun source hsource => ?_).mono fun _ _ => trivial
    refine (h.reconcile source (hsources source hsource)).bind fun _ _ => ?_
    refine (spares_register id source).bind fun _ _ => ?_
    exact spares_graph.bind fun _ _ => spares_pure trivial
  refine hversions.bind fun versions _ => (spares_isStale id versions).bind fun stale _ => ?_
  cases stale with
  | false => exact spares_clean id
  | true =>
    refine (spares_remember hid versions).bind fun _ _ => spares_graph.bind fun g hg => ?_
    exact (spares_store hid (hg.ofList hsources)).bind fun _ _ => spares_clean id

theorem leave (id : SignalId) : Spares K (leave id : Action P F Φ σ Unit) fun _ => True := by
  unfold Signal.leave
  refine spares_graph.bind fun g _ => ?_
  cases (g.node id).inner? with
  | none => exact spares_pure trivial
  | some inner =>
    have hfollow : Spares K (follow id none : Action P F Φ σ Unit) fun _ => True :=
      spares_follow id nofun
    refine hfollow.bind fun _ _ => ?_
    exact spares_update (fun _ hg => hg.undepend inner.signal _)
      fun g j _ => g.heard_undepend inner.signal _ j

/-- A failure of the source is one of the flat map. -/
theorem turn (h : r.Spare K) (id : SignalId) {choice : Φ} (hsource : K.signal source)
    (hchoice : K.choice choice) :
    Spares K (turn r id source choice) fun o? => ∀ o, o? = some o → Good K.payload o := by
  unfold Signal.turn
  refine (leave id).bind fun _ _ => spares_graph.bind fun g hg => ?_
  have hvalue := hg.value hsource
  cases hv : g.value source with
  | error e =>
    refine spares_pure ?_
    rintro _ ⟨⟩
    exact good_error e
  | ok p =>
    refine (h.choose choice p hchoice (hvalue p hv)).bind fun inner hinner => ?_
    refine (spares_follow id ?_).bind fun _ _ => spares_pure nofun
    rintro _ ⟨⟩
    exact hinner

theorem reconcileInner (h : r.Spare K) (hid : K.signal id) :
    Spares K (reconcileInner r id) fun o? => ∀ o, o? = some o → Good K.payload o := by
  unfold Signal.reconcileInner
  refine spares_graph.bind fun g hg => ?_
  cases hinner : (g.node id).inner? with
  | none => exact spares_pure nofun
  | some inner =>
    have hsignal := (hg.node id hid).inner inner hinner
    refine (h.reconcile inner.signal hsignal).bind fun _ _ => ?_
    refine (spares_register id inner.signal).bind fun _ _ => spares_graph.bind fun g hg => ?_
    simp only
    split
    · refine (spares_follow id ?_).bind fun _ _ => spares_pure ?_
      · rintro _ ⟨⟩
        exact hsignal
      · rintro _ ⟨⟩
        exact hg.value hsignal
    · exact spares_pure nofun

theorem reconcileChoice (h : r.Spare K) (hid : K.signal id) (hcell : ¬ K.cell id) {choice : Φ}
    (hsource : K.signal source) (hchoice : K.choice choice) :
    Spares K (reconcileChoice r id source choice) fun _ => True := by
  unfold Signal.reconcileChoice
  refine (h.reconcile source hsource).bind fun _ _ => ?_
  refine (spares_register id source).bind fun _ _ => spares_graph.bind fun g _ => ?_
  refine (spares_isStale id _).bind fun stale _ => ?_
  -- Both outcomes that may be remembered are allowed: the new one and the failure of the source.
  have hrest (failure : Option (Outcome P)) (hfailure : ∀ o, failure = some o → Good K.payload o) :
      Spares K (do
        let new ← Signal.reconcileInner r id
        conclude id (new.or failure)) fun _ => True := by
    refine (h.reconcileInner hid).bind fun new hnew => ?_
    unfold conclude
    cases ho : new.or failure with
    | none => exact spares_clean id
    | some o =>
      refine (spares_store hcell ?_).bind fun _ _ => spares_clean id
      cases new with
      | none => exact hfailure o ho
      | some o' => exact hnew o ho
  cases stale with
  | false => exact hrest none nofun
  | true =>
    refine (spares_remember hcell _).bind fun _ _ => ?_
    exact (h.turn id hsource hchoice).bind hrest

/-- One level more reads without writing a cell. -/
theorem reconcileNode (h : r.Spare K) (hid : K.signal id) :
    Spares K (reconcileNode r id) fun _ => True := by
  unfold Signal.reconcileNode
  refine spares_graph.bind fun g hg => ?_
  have hanchor := hg.anchor hid
  have hnode := hg.node _ hanchor
  have hcell : (g.node (g.anchor id)).form ≠ .cell → ¬ K.cell (g.anchor id) := mt (hg.cell _).mpr
  simp only
  split
  · cases hform : (g.node (g.anchor id)).form with
    | map source steps role =>
      have hsource := hnode.upstream source (by rw [hform]; exact List.mem_singleton_self _)
      exact h.reconcileImage (hcell (hform ▸ nofun)) hsource fun _ =>
        h.applySteps (hnode.steps source steps role hform)
    | lift source =>
      have hsource := hnode.upstream source (by rw [hform]; exact List.mem_singleton_self _)
      exact h.reconcileImage (hcell (hform ▸ nofun)) hsource fun o _ =>
        spares_pure (good_ok (K.ofOutcome o))
    | flatMap source choice =>
      have hsource := hnode.upstream source (by rw [hform]; exact List.mem_singleton_self _)
      exact h.reconcileChoice hanchor (hcell (hform ▸ nofun)) hsource
        (hnode.choice source choice hform)
    | join sources =>
      refine h.reconcileJoin (hcell (hform ▸ nofun)) fun source hsource => ?_
      refine hnode.upstream source ?_
      rw [hform]
      exact hsource
    | label name source => exact spares_throw _
    | reference target? => exact spares_throw _
    | constant => exact spares_pure trivial
    | cell => exact spares_pure trivial
  · exact spares_pure trivial

end Rules.Spare

/-! ### Writing -/

variable {r : Rules P F Φ σ} {w w' : World P F Φ σ}

/-- A write in the realm is refused, and nothing has changed, or it is for a cell. -/
theorem setNode_cases {o : Outcome P} {result : Except SignalError Unit}
    (hfixed : ∀ source steps inverse,
      (w.graph.node (w.graph.anchor id)).form ≠ .map source steps (.writable inverse))
    (hrun : setNode r id o w = .ok (result, w')) :
    (∃ e, result = .error e ∧ w' = w ∧ (w.graph.node (w.graph.anchor id)).form ≠ .cell) ∨
      (result = .ok () ∧ (w.graph.node (w.graph.anchor id)).form = .cell ∧
        w' = w.put (w.graph.written (w.graph.anchor id) o)) := by
  unfold setNode at hrun
  simp only [graph_bind_run] at hrun
  generalize w.graph.anchor id = c at hfixed hrun ⊢
  cases hform : (w.graph.node c).form with
  | cell =>
    simp only [hform] at hrun
    rw [bind_run (setCell_eq hform o)] at hrun
    cases hrun
    exact .inr ⟨rfl, rfl, rfl⟩
  | map source steps role =>
    cases role with
    | readOnly uniform =>
      simp only [hform] at hrun
      cases hrun
      exact .inl ⟨_, rfl, rfl, nofun⟩
    | writable inverse => exact absurd hform (hfixed source steps inverse)
  | reference target? =>
    cases target? with
    | none =>
      simp only [hform] at hrun
      cases hrun
      exact .inl ⟨_, rfl, rfl, nofun⟩
    | some target =>
      simp only [hform] at hrun
      cases hrun
  | label name source =>
    simp only [hform] at hrun
    cases hrun
  | _ =>
    simp only [hform] at hrun
    cases hrun
    exact .inl ⟨_, rfl, rfl, nofun⟩

/-- A write to a cell leaves the others, and all forms. -/
theorem Graph.heard_written {c j : SignalId} (g : Graph P F Φ) (o : Outcome P) (hj : j ≠ c) :
    Heard (g.node j) ((g.written c o).node j) := by
  unfold written
  split
  · exact .refl _
  · exact g.heard_retold _ hj

theorem Graph.form_written {c : SignalId} (hcell : (g.node c).form = .cell) (o : Outcome P)
    (j : SignalId) : ((g.written c o).node j).form = (g.node j).form := by
  unfold written
  split
  · rfl
  · exact form_retold_eq (by rfl) (g.lt_size_of_form_ne (by rw [hcell]; exact nofun)) j

/-- The cell has the outcome that was written, or another that it is not told apart from. -/
theorem Graph.outcome_written {c : SignalId} (hcell : (g.node c).form = .cell) (o : Outcome P) :
    ((g.written c o).node c).memo.outcome? = ((g.node c).memo.store o).outcome? := by
  unfold written
  split
  · rename_i hholds
    rw [Memo.store_of_holds hholds]
  · rcases Graph.node_retold_self { g.node c with memo := (g.node c).memo.store o }
        (g.lt_size_of_form_ne (by rw [hcell]; exact nofun)) with h | h <;> rw [h]
    rfl

end ReactiveDoc.Signal
