import ReactiveDoc.Proofs.Signal.Frame

namespace ReactiveDoc.Signal

/-!
# Bringing the sources of a signal up to date

* `bind_run` and its like — running an action step by step.
* `Laws` — the functions of signals keep to a behaviour.
* `Visit` — signals below one were brought up to date, and it was not touched.
* `Reconciles` — the operations bring what they are given up to date.
* `visit_run`, `reconcileSources_run` — then the sources of a signal are brought up to date, and
  will tell it of their changes.
-/

variable {P F Φ σ : Type}

/-! ### Running actions -/

/-- The world with another graph. -/
def World.put (w : World P F Φ σ) (g : Graph P F Φ) : World P F Φ σ := { w with graph := g }

@[simp] theorem World.put_graph (w : World P F Φ σ) (g : Graph P F Φ) : (w.put g).graph = g := rfl

@[simp] theorem World.put_put (w : World P F Φ σ) (g g' : Graph P F Φ) :
    (w.put g).put g' = w.put g' := rfl

section

variable {α β : Type} (w : World P F Φ σ)

theorem bind_run {x : Action P F Φ σ α} {f : α → Action P F Φ σ β} {w w' : World P F Φ σ} {a : α}
    (h : x w = .ok (a, w')) : (x >>= f) w = f a w' := by
  show StateT.bind x f w = f a w'
  unfold StateT.bind
  rw [h]
  rfl

theorem pure_bind_run (a : α) (f : α → Action P F Φ σ β) : (pure a >>= f) w = f a w := rfl

theorem graph_bind_run (f : Graph P F Φ → Action P F Φ σ β) : (graph >>= f) w = f w.graph w := rfl

theorem register_bind_run (id source : SignalId) (f : Unit → Action P F Φ σ β) :
    (register id source >>= f) w = f () (w.put (w.graph.depend source (.signal id))) := rfl

theorem update_bind_run (change : Graph P F Φ → Graph P F Φ) (f : Unit → Action P F Φ σ β) :
    (update change >>= f) w = f () (w.put (change w.graph)) := rfl

theorem remember_bind_run (id : SignalId) (versions : List Nat) (f : Unit → Action P F Φ σ β) :
    (remember id versions >>= f) w
      = f () (w.put (w.graph.modify id fun n => { n with seen := versions })) := rfl

theorem follow_bind_run (id : SignalId) (inner? : Option Inner) (f : Unit → Action P F Φ σ β) :
    (follow id inner? >>= f) w = f () (w.put (w.graph.modify id fun n => { n with inner? })) := rfl

theorem isStale_bind_run {id : SignalId} {versions : List Nat} {f : Bool → Action P F Φ σ β}
    {stale : Bool}
    (h : ((w.graph.node id).memo.outcome?.isNone || (w.graph.node id).seen != versions) = stale) :
    (isStale id versions >>= f) w = f stale w := by
  rw [← h]
  rfl

theorem isStale_eq_false_iff {n : Node P F Φ} {versions : List Nat} :
    (n.memo.outcome?.isNone || n.seen != versions) = false ↔
      n.memo.outcome?.isSome = true ∧ n.seen = versions := by
  cases n.memo.outcome? <;> simp

theorem store_bind_run [BEq P] (id : SignalId) (o : Outcome P) (f : Unit → Action P F Φ σ β) :
    (store id o >>= f) w
      = f () (w.put (w.graph.modify id fun n => { n with memo := n.memo.store o })) := rfl

theorem clean_run (id : SignalId) : clean id w
    = .ok ((), w.put (w.graph.modify id fun n => { n with memo := { n.memo with dirty := false } })) :=
  rfl

end

/-! ### What the functions of signals keep to -/

variable [Carrier P] {b : Behaviour P F Φ}

/-- Lists and outcomes of good values are good. -/
structure Behaviour.Closed (b : Behaviour P F Φ) : Prop where
  list : ∀ ps : List P, (∀ p ∈ ps, b.good p) → b.good (Carrier.ofList ps)
  attempt : ∀ o : Outcome P, Good b.good o → b.good (Carrier.ofOutcome o)

/-- The functions of signals keep to a behaviour.  The function of a map may change anything but
    the graph; choosing a signal may add to the graph, within the room there is. -/
structure Laws (b : Behaviour P F Φ) (codes : Codes P F Φ σ) : Prop where
  stable : b.Stable
  closed : b.Closed
  apply_run : ∀ f p w, b.fine f → b.good p → ∃ o w', codes.apply f p w = .ok (o, w') ∧
    w'.graph = w.graph ∧ b.image f p o ∧ Good b.good o
  choose_run : ∀ source choice p w rank k, w.graph.Shaped b rank → source < w.graph.size →
    b.room w.graph rank source choice k → b.good p →
    ∃ id w' rank', codes.choose choice p w = .ok (id, w') ∧
      Extends b k rank rank' w.graph w'.graph ∧ (¬ b.adds → w'.graph.size = w.graph.size) ∧
      id < w'.graph.size ∧ rank' id < k ∧ b.chosen w'.graph source choice p id

/-! ### Visiting signals below -/

/-- Progress on the way to bringing `me` up to date that has not touched `me`. -/
structure Visit (b : Behaviour P F Φ) (me : SignalId) (rank rank' : SignalId → Nat)
    (g g' : Graph P F Φ) : Prop where
  progress : Progress b me rank rank' g g'
  frame : Frame (fun j => rank j < rank me) g g'

namespace Visit

variable {me : SignalId} {rank rank' rank'' : SignalId → Nat} {g g' g'' : Graph P F Φ}

theorem refl (hs : g.Shaped b rank) (hc : CoherentBelow b rank me g) : Visit b me rank rank g g :=
  ⟨.refl hs hc, .refl _ _⟩

theorem trans (h : Visit b me rank rank' g g') (h' : Visit b me rank' rank'' g' g'')
    (hme : me < g.size) : Visit b me rank rank'' g g'' := by
  refine ⟨h.progress.trans h'.progress hme, h.frame.trans h'.frame ?_⟩
  intro j hj
  rw [h.progress.rank_eq j hj, h.progress.rank_eq me hme]
  exact id

section

variable (h : Visit b me rank rank' g g') (hme : me < g.size)
include h hme

theorem memo_eq : (g'.node me).memo = (g.node me).memo :=
  h.frame.memo_eq me hme (.inl (Nat.lt_irrefl _))

theorem seen_eq : (g'.node me).seen = (g.node me).seen :=
  h.frame.seen_eq me hme (.inl (Nat.lt_irrefl _))

theorem inner?_eq : (g'.node me).inner? = (g.node me).inner? :=
  h.frame.inner?_eq me hme (.inl (Nat.lt_irrefl _))

theorem registered {a : SignalId} (ha : g.Registered a me) : g'.Registered a me :=
  h.frame.registered me hme (.inl (Nat.lt_irrefl _)) a ha

theorem upToDate_iff : g'.UpToDate me ↔ g.UpToDate me :=
  h.frame.upToDate_iff hme (.inl (Nat.lt_irrefl _))

theorem coherentAt (hstable : b.Stable) (hs : g.Shaped b rank) (hc : CoherentAt b g me) :
    CoherentAt b g' me :=
  h.frame.coherentAt hs hstable hc hme (.inl (Nat.lt_irrefl _))

end

end Visit

/-- The source is up to date and will tell `me` of its next change, if there can be one. -/
structure Linked (me : SignalId) (g : Graph P F Φ) (s : SignalId) : Prop where
  upToDate : g.UpToDate (g.anchor s)
  registered : (g.node (g.anchor s)).form.remembers = true → g.Registered (g.anchor s) me

omit [Carrier P] in
theorem Linked.frame {T : SignalId → Prop} {me s : SignalId} {rank : SignalId → Nat}
    {g g' : Graph P F Φ} (h : Linked me g s) (hf : Frame T g g') (hs : g.Shaped b rank)
    (hlt : s < g.size) (hreg : ∀ a, g.Registered a me → g'.Registered a me) :
    Linked me g' s := by
  refine ⟨hf.upToDate_anchor hs hlt h.upToDate, ?_⟩
  rw [hf.form_anchor_eq hs hlt, hf.anchor_eq s hlt]
  exact fun hrem => hreg _ (h.registered hrem)

/-- A run that brings a signal up to date, and at most changes that one and those below. -/
def Refreshes (b : Behaviour P F Φ) (rank : SignalId → Nat) (me : SignalId)
    (x : Action P F Φ σ Unit) (w : World P F Φ σ) : Prop :=
  ∃ w' rank', x w = .ok ((), w') ∧ Progress b me rank rank' w.graph w'.graph ∧
    CoherentAt b w'.graph me ∧ w'.graph.UpToDate me

/-- The operations bring every signal whose anchor has a rank below `d` up to date. -/
def Reconciles (b : Behaviour P F Φ) (r : Rules P F Φ σ) (d : Nat) : Prop :=
  ∀ ⦃id w rank⦄, w.graph.Shaped b rank → id < w.graph.size → rank (w.graph.anchor id) < d →
    CoherentBelow b rank (w.graph.anchor id) w.graph → CoherentAt b w.graph (w.graph.anchor id) →
      Refreshes b rank (w.graph.anchor id) (r.reconcile id) w

section

variable {r : Rules P F Φ σ} {d : Nat} {me : SignalId} {rank : SignalId → Nat}

/-- A source is brought up to date, and registers `me`. -/
theorem visit_run (hstable : b.Stable) (hr : Reconciles b r d) {s : SignalId}
    {w : World P F Φ σ} (hs : w.graph.Shaped b rank) (hc : CoherentBelow b rank me w.graph)
    (hme : (w.graph.node me).form.isDerived = true) (hdepth : rank me ≤ d)
    (hlt : s < w.graph.size) (hrank : rank s < rank me) :
    ∃ w₁ rank', r.reconcile s w = .ok ((), w₁) ∧
      Visit b me rank rank' w.graph (w₁.graph.depend s (.signal me)) ∧
      Linked me (w₁.graph.depend s (.signal me)) s := by
  have hmelt := w.graph.lt_size_of_isDerived hme
  have hanchor : rank (w.graph.anchor s) < rank me :=
    Nat.lt_of_le_of_lt (Graph.rank_anchor_le hs.descends s) hrank
  obtain ⟨w₁, rank', hrun, hprogress, hmine, hup⟩ := hr hs hlt (by omega)
    (fun j hj => hc j (hj.trans hanchor)) (hc _ hanchor)
  -- Everything up to the source is below `me`.
  have hvisit : Visit b me rank rank' w.graph w₁.graph := by
    refine ⟨hprogress.widen hstable hs hmine hanchor hc, hprogress.frame.mono ?_⟩
    rintro j _ (hj | rfl)
    · exact hj.trans hanchor
    · exact hanchor
  have hme₁ : (w₁.graph.node me).form.isDerived = true := by
    rwa [hprogress.frame.form_eq me hmelt]
  have hup₁ : w₁.graph.UpToDate (w₁.graph.anchor s) := by
    rw [hprogress.frame.anchor_eq s hlt]
    exact hup
  have hlt₁ : s < w₁.graph.size := Nat.lt_of_lt_of_le hlt hprogress.frame.size_le
  have hframe := Graph.frame_depend me hup₁
  have hshaped : (w₁.graph.depend s (.signal me)).Shaped b rank' :=
    hprogress.shaped.depend hstable hup₁ hme₁
  have hdepend : Visit b me rank' rank' w₁.graph (w₁.graph.depend s (.signal me)) :=
    ⟨.of_frame hstable hframe (fun _ h => h.elim) (Graph.size_depend ..) hprogress.shaped hshaped
      (hvisit.progress.coherentBelow hmelt), hframe.mono fun _ _ h => h.elim⟩
  refine ⟨w₁, rank', hrun, hvisit.trans hdepend hmelt, ?_, ?_⟩
  · exact hframe.upToDate_anchor hprogress.shaped hlt₁ hup₁
  · rw [hframe.form_anchor_eq hprogress.shaped hlt₁, Graph.anchor_depend]
    exact Graph.registered_depend (hprogress.shaped.anchor_lt hlt₁)

/-- All sources are brought up to date, and register `me`. -/
theorem reconcileSources_run (hstable : b.Stable) (hr : Reconciles b r d) (sources : List SignalId)
    {w : World P F Φ σ} (hs : w.graph.Shaped b rank) (hc : CoherentBelow b rank me w.graph)
    (hme : (w.graph.node me).form.isDerived = true) (hdepth : rank me ≤ d)
    (hsources : ∀ s ∈ sources, s < w.graph.size ∧ rank s < rank me) :
    ∃ w' rank', reconcileSources r me sources w = .ok (sources.map w'.graph.version, w') ∧
      Visit b me rank rank' w.graph w'.graph ∧ ∀ s ∈ sources, Linked me w'.graph s := by
  unfold reconcileSources
  induction sources generalizing w rank with
  | nil => exact ⟨w, rank, rfl, .refl hs hc, fun s hmem => absurd hmem List.not_mem_nil⟩
  | cons s rest ih =>
    obtain ⟨hlt, hrank⟩ := hsources s (List.mem_cons_self ..)
    obtain ⟨w₁, rank₁, hrun₁, hvisit₁, hlinked⟩ :=
      visit_run hstable hr hs hc hme hdepth hlt hrank
    have hsize := hvisit₁.frame.size_le
    have hmelt := w.graph.lt_size_of_isDerived hme
    have hmelt₁ := Nat.lt_of_lt_of_le hmelt hsize
    have hrank₁ := hvisit₁.progress.rank_eq
    obtain ⟨w', rank', hrun, hvisit, hrest⟩ := ih (w := w₁.put (w₁.graph.depend s (.signal me)))
      hvisit₁.progress.shaped (hvisit₁.progress.coherentBelow hmelt)
      (by rw [World.put_graph, hvisit₁.frame.form_eq me hmelt]; exact hme)
      (by rw [hrank₁ me hmelt]; exact hdepth)
      (by
        intro t ht
        obtain ⟨htlt, htrank⟩ := hsources t (List.mem_cons_of_mem _ ht)
        rw [hrank₁ t htlt, hrank₁ me hmelt]
        exact ⟨Nat.lt_of_lt_of_le htlt hsize, htrank⟩)
    have hlt₁ := Nat.lt_of_lt_of_le hlt hsize
    -- The sources that are visited later leave this one up to date.
    have hversion : w'.graph.version s = (w₁.graph.depend s (.signal me)).version s :=
      hvisit.frame.version_eq hvisit₁.progress.shaped hlt₁ hlinked.upToDate
    refine ⟨w', rank', ?_, hvisit₁.trans hvisit hmelt, ?_⟩
    · rw [List.mapM_cons]
      simp only [bind_assoc]
      rw [bind_run hrun₁]
      simp only [register_bind_run, graph_bind_run, pure_bind_run]
      rw [bind_run hrun, List.map_cons, hversion]
      rfl
    · intro t ht
      rcases List.mem_cons.mp ht with rfl | ht
      · exact hlinked.frame hvisit.frame hvisit₁.progress.shaped hlt₁
          fun a ha => hvisit.registered hmelt₁ ha
      · exact hrest t ht

end

end ReactiveDoc.Signal
