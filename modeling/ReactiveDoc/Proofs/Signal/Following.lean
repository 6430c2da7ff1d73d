import ReactiveDoc.Proofs.Signal.Updating

namespace ReactiveDoc.Signal

/-!
# Bringing any signal up to date

* `turn_run` — a flat map leaves the signal that it followed for the one chosen for a new value.
* `reconcileInner_run` — it brings that signal up to date, and looks whether it has moved.
* `reconcileChoice_run` — so a flat map is brought up to date.
* `reconciles_ofCodes` — every signal is, with as much depth as its rank needs.
-/

variable {P F Φ σ : Type} [Carrier P] {b : Behaviour P F Φ}

theorem Progress.of_becomes {me : SignalId} {n : Node P F Φ} {rank : SignalId → Nat}
    {g g' : Graph P F Φ} (hstable : b.Stable) (hb : Becomes me n g g')
    (hform : n.form = (g.node me).form) (hdeps : n.dependents = (g.node me).dependents)
    (hmemo : n.memo = (g.node me).memo) (hup : ¬ g.UpToDate me) (hs : g.Shaped b rank)
    (hc : CoherentBelow b rank me g)
    (hinner : ∀ inner, n.inner? = some inner →
      (∃ source choice p, (g.node me).form = .flatMap source choice ∧
        b.chosen g source choice p inner.signal) ∧
        inner.signal < g.size ∧ rank inner.signal < rank me) : Progress b me rank rank g g' := by
  have hahead : (g.node me).memo.Ahead n.memo := by
    rw [hmemo]
    exact .refl _
  have hframe := hb.frame hform hdeps hahead hup
  exact .of_frame hstable hframe (fun _ hj => hj) hb.size_eq hs
    (hb.shaped hstable hframe.evolves hform hdeps hs hinner
      ((hs.all me).congr hform (by rw [hmemo]))) hc

/-- While its memory is the one it had, a signal that was not up to date is not. -/
theorem Progress.not_upToDate {me : SignalId} {rank rank' : SignalId → Nat} {g g' : Graph P F Φ}
    (h : Progress b me rank rank' g g') (hme : me < g.size)
    (hmemo : (g'.node me).memo = (g.node me).memo) (hup : ¬ g.UpToDate me) : ¬ g'.UpToDate me := by
  unfold Graph.UpToDate at *
  rwa [h.frame.form_eq me hme, hmemo]

section

variable {r : Rules P F Φ σ} {codes : Codes P F Φ σ} {d : Nat} {me source : SignalId}
  {choice : Φ} {rank : SignalId → Nat} {w : World P F Φ σ}

/-! ### Turning to another signal -/

/-- A flat map leaves the signal that it followed, and nothing else changes.  What is not that
    signal goes on telling it. -/
theorem leave_run (hstable : b.Stable) (hs : w.graph.Shaped b rank)
    (hc : CoherentBelow b rank me w.graph) (hup : ¬ w.graph.UpToDate me) :
    ∃ g, leave me w = .ok ((), w.put g) ∧ Progress b me rank rank w.graph g ∧
      g.size = w.graph.size ∧ (g.node me).memo = (w.graph.node me).memo ∧
      (g.node me).seen = (w.graph.node me).seen ∧ (g.node me).inner? = none ∧
      ∀ a, (∀ inner, (w.graph.node me).inner? = some inner → a ≠ w.graph.anchor inner.signal) →
        w.graph.Registered a me → g.Registered a me := by
  have hme := w.graph.lt_size_of_isDerived ((w.graph.not_upToDate_iff me).mp hup).1
  unfold leave
  rw [graph_bind_run]
  cases hinner : (w.graph.node me).inner? with
  | none => exact ⟨w.graph, rfl, .refl hs hc, rfl, rfl, rfl, hinner, fun _ _ h => h⟩
  | some inner =>
    have hb := Becomes.modify w.graph hme fun n => { n with inner? := none }
    generalize hg : (w.graph.modify me fun n => { n with inner? := none }) = g at hb
    have hprogress : Progress b me rank rank w.graph g :=
      .of_becomes hstable hb rfl rfl rfl hup hs hc (fun _ hi => by cases hi)
    have hmemo : (g.node me).memo = (w.graph.node me).memo := by rw [hb.node_eq]
    have hup₁ := hprogress.not_upToDate hme hmemo hup
    have hframe := Graph.frame_undepend inner.signal hup₁
    obtain ⟨-, hmemo₂, hseen₂, hinner₂⟩ := g.node_undepend inner.signal (.signal me) me
    have hundepend : Progress b me rank rank g (g.undepend inner.signal (.signal me)) :=
      .of_frame hstable hframe (fun _ hj => hj) (Graph.size_undepend ..) hprogress.shaped
        (hprogress.shaped.undepend hstable hup₁) (hprogress.coherentBelow hme)
    refine ⟨g.undepend inner.signal (.signal me), ?_, hprogress.trans hundepend hme, ?_, ?_, ?_, ?_,
      ?_⟩
    · simp only [follow_bind_run, hg]
      rfl
    · rw [Graph.size_undepend, hb.size_eq]
    · rw [hmemo₂, hmemo]
    · rw [hseen₂, hb.node_eq]
    · rw [hinner₂, hb.node_eq]
    · intro a ha hreg
      have hne : a ≠ g.anchor inner.signal := by
        rw [hb.anchor_eq rfl]
        exact ha inner rfl
      rw [Graph.registered_undepend_of_anchor_ne _ hne]
      exact (hb.registered_iff rfl a me).mpr hreg

/-- A flat map turns to the signal chosen for its source's value, or takes over its failure. -/
theorem turn_run (laws : Laws b codes) (hchoose : r.choose = codes.choose)
    (hs : w.graph.Shaped b rank) (hc : CoherentBelow b rank me w.graph)
    (hup : ¬ w.graph.UpToDate me) (hform : (w.graph.node me).form = .flatMap source choice)
    (hlinked : Linked me w.graph source) :
    ∃ w' rank' failure, turn r me source choice w = .ok (failure, w') ∧
      Progress b me rank rank' w.graph w'.graph ∧
      (w'.graph.node me).memo = (w.graph.node me).memo ∧
      (w'.graph.node me).seen = (w.graph.node me).seen ∧
      (b.apart → Linked me w'.graph source) ∧
      ((∃ p id, w.graph.value source = .ok p ∧ failure = none ∧
          (w'.graph.node me).inner? = some ⟨id, 0⟩ ∧ b.chosen w'.graph source choice p id) ∨
        (∃ e, w.graph.value source = .error e ∧ failure = some (.error e) ∧
          (w'.graph.node me).inner? = none)) := by
  have hme := w.graph.lt_size_of_isDerived ((w.graph.not_upToDate_iff me).mp hup).1
  have hlt : source < w.graph.size :=
    hs.upstream_lt me source (by rw [hform]; exact List.mem_singleton_self _)
  obtain ⟨g, hrun, hleave, hsize, hmemo, hseen, hinner, hstay⟩ := leave_run laws.stable hs hc hup
  have hmeg : me < g.size := by rwa [hsize]
  have hvalue : g.value source = w.graph.value source :=
    hleave.frame.value_eq hs hlt hlinked.upToDate
  -- What was followed is not the source, so that leaving it loses no touch with the source.
  have hlinkedg : b.apart → Linked me g source := by
    intro hapart
    refine ⟨hleave.frame.upToDate_anchor hs hlt hlinked.upToDate, fun hrem => ?_⟩
    rw [hleave.frame.form_anchor_eq hs hlt] at hrem
    rw [hleave.frame.anchor_eq source hlt]
    refine hstay _ (fun inner hi => ?_) (hlinked.registered hrem)
    obtain ⟨⟨source', choice', p, hform', hchosen⟩, -⟩ := hs.inner me inner hi
    rw [hform] at hform'
    cases hform'
    exact (laws.stable.apart hapart hs hchosen).symm
  have hformg : (g.node me).form = .flatMap source choice := by
    rw [hleave.frame.form_eq me hme, hform]
  unfold turn
  rw [bind_run hrun]
  simp only [graph_bind_run, World.put_graph, hvalue]
  cases hv : w.graph.value source with
  | error e =>
    exact ⟨w.put g, rank, some (.error e), rfl, hleave, hmemo, hseen, hlinkedg,
      .inr ⟨e, rfl, rfl, hinner⟩⟩
  | ok p =>
    have hltg : source < g.size := by rwa [hsize]
    obtain ⟨id, w₂, rank', hrun₂, hextends, hadds, hid, hidrank, hchosen⟩ :=
      laws.choose_run source choice p (w.put g) rank (rank me) hleave.shaped hltg
        (hleave.shaped.room me source choice hformg) (hs.all.value source p hv)
    have hgrow : Progress b me rank rank' g w₂.graph :=
      .of_extends laws.stable hextends hleave.shaped hadds (hleave.coherentBelow hme)
    have hme₂ : me < w₂.graph.size := Nat.lt_of_lt_of_le hmeg hextends.grows.size_le
    have hnode₂ : w₂.graph.node me = g.node me := hextends.grows.node_eq me hmeg
    have hb := Becomes.modify w₂.graph hme₂ fun n => { n with inner? := some ⟨id, 0⟩ }
    have hup₂ : ¬ w₂.graph.UpToDate me :=
      (hleave.trans hgrow hme).not_upToDate hme (by rw [hnode₂, hmemo]) hup
    have hfollow : Progress b me rank' rank' w₂.graph
        (w₂.graph.modify me fun n => { n with inner? := some ⟨id, 0⟩ }) := by
      refine .of_becomes laws.stable hb rfl rfl rfl hup₂ hextends.shaped
        (hgrow.coherentBelow hmeg) ?_
      rintro inner hi
      cases hi
      rw [hnode₂, hextends.rank_eq me hmeg]
      exact ⟨⟨source, choice, p, hformg, hchosen⟩, hid, hidrank⟩
    refine ⟨w₂.put (w₂.graph.modify me fun n => { n with inner? := some ⟨id, 0⟩ }), rank', none,
      ?_, (hleave.trans hgrow hme).trans hfollow hme, ?_, ?_, fun hapart => ?_,
      .inl ⟨p, id, rfl, rfl, ?_, ?_⟩⟩
    · simp only [hchoose]
      rw [bind_run hrun₂]
      rfl
    · rw [World.put_graph, hb.node_eq, hnode₂]
      exact hmemo
    · rw [World.put_graph, hb.node_eq, hnode₂]
      exact hseen
    · have hgrown := (hlinkedg hapart).frame hgrow.frame hleave.shaped hltg fun a ha => by
        unfold Graph.Registered at *
        rwa [hextends.grows.node_eq a (Graph.lt_size_of_registered ha)]
      refine hgrown.frame hfollow.frame hextends.shaped
        (Nat.lt_of_lt_of_le hltg hextends.grows.size_le) fun a ha => ?_
      exact (hb.registered_iff rfl a me).mpr ha
    · rw [World.put_graph, hb.node_eq]
    · exact laws.stable.chosen hfollow.frame.evolves hchosen

/-! ### Reading the signal that is followed -/

/-- The signal that a flat map follows is brought up to date and registers it; a signal that was
    not read yet, or has moved since, is read. -/
theorem reconcileInner_run (hstable : b.Stable) (hr : Reconciles b r d)
    (hs : w.graph.Shaped b rank) (hc : CoherentBelow b rank me w.graph)
    (hme : (w.graph.node me).form.isDerived = true) (hdepth : rank me ≤ d) {inner : Inner}
    (hinner : (w.graph.node me).inner? = some inner) :
    ∃ w' rank', Visit b me rank rank' w.graph w'.graph ∧ Linked me w'.graph inner.signal ∧
      reconcileInner r me w = if inner.seen = 0 ∨ w'.graph.version inner.signal ≠ inner.seen then
        .ok (some (w'.graph.value inner.signal), w'.put (w'.graph.modify me fun n =>
          { n with inner? := some ⟨inner.signal, max (w'.graph.version inner.signal) 1⟩ }))
      else .ok (none, w') := by
  obtain ⟨-, hlt, hrank⟩ := hs.inner me inner hinner
  obtain ⟨w₁, rank', hrun, hvisit, hlinked⟩ := visit_run hstable hr hs hc hme hdepth hlt hrank
  refine ⟨w₁.put (w₁.graph.depend inner.signal (.signal me)), rank', hvisit, hlinked, ?_⟩
  unfold reconcileInner
  rw [graph_bind_run, hinner]
  simp only
  rw [bind_run hrun, register_bind_run, graph_bind_run]
  split
  · rfl
  · rfl

/-! ### Flat maps -/

/-- What is followed for a value of the source that was seen. -/
theorem CoherentAt.inner_of_seen {g : Graph P F Φ} (h : CoherentAt b g me)
    (hform : (g.node me).form = .flatMap source choice)
    (hsome : (g.node me).memo.outcome?.isSome = true)
    (hseen : (g.node me).seen = [g.version source]) (hcomputed : g.Computed source) :
    (∃ p inner, g.value source = .ok p ∧ (g.node me).inner? = some inner ∧
        b.chosen g source choice p inner.signal) ∨
      (∃ e, g.value source = .error e ∧ (g.node me).inner? = none) := by
  have hanswers := h.answers (by rw [hform]; rfl) hsome (by rw [hform]; exact hseen)
    (by rw [hform]; simpa [Form.upstream] using hcomputed)
  unfold Behaviour.Answers at hanswers
  simp only [hform] at hanswers
  cases hv : g.value source with
  | ok p =>
    rw [hv] at hanswers
    obtain ⟨inner, hi, hch⟩ := hanswers
    exact .inl ⟨p, inner, rfl, hi, hch⟩
  | error e =>
    rw [hv] at hanswers
    exact .inr ⟨e, rfl, hanswers.1⟩

omit [Carrier P] in
/-- A flat map that is kept apart from its source keeps in touch with it. -/
theorem linked_source {g : Graph P F Φ} (hform : (g.node me).form = .flatMap source choice)
    (hsource : b.apart → Linked me g source) :
    b.apart ∨ (∀ source choice, (g.node me).form ≠ .flatMap source choice) →
      ∀ s ∈ (g.node me).form.upstream, Linked me g s := by
  rintro (hapart | hne) s hmem
  · rw [hform] at hmem
    rw [List.mem_singleton.mp hmem]
    exact hsource hapart
  · exact absurd hform (hne source choice)

/-- A flat map that has just read the signal chosen for its source's value is ready. -/
theorem Ready.of_followed {g : Graph P F Φ} {p : P} {id : SignalId}
    (hform : (g.node me).form = .flatMap source choice)
    (hcounted : (g.node me).memo.outcome?.isSome = true ↔ 0 < (g.node me).memo.version)
    (hseen : (g.node me).seen = [g.version source]) (hup : g.UpToDate (g.anchor source))
    (hsource : b.apart → Linked me g source) (hvalue : g.value source = .ok p)
    (hchosen : b.chosen g source choice p id) (hlt : id < g.size) (hrank : rank id < rank me)
    (hlinked : Linked me g id) (hall : g.All b.good b.fine) :
    Ready b rank me
      { g.node me with
        inner? := some ⟨id, max (g.version id) 1⟩
        memo := { (g.node me).memo.store (g.value id) with dirty := false } } g := by
  refine .of_store rfl rfl rfl hcounted ?_ ?_ ?_ ?_ ?_ (hall me) (hall.value id)
  · simp only [hform, hseen]
    rfl
  · rw [hform]
    intro s hmem
    rwa [List.mem_singleton.mp hmem]
  · exact linked_source hform hsource
  · rintro inner hi
    cases hi
    exact ⟨⟨source, choice, p, hform, hchosen⟩, hlt, hrank, rfl, hlinked, Memo.near_store _ _⟩
  · unfold Behaviour.Answers
    simp only [hform, hvalue]
    exact ⟨_, rfl, hchosen⟩

/-- A flat map that has taken over its source's failure is ready. -/
theorem Ready.of_failed {g : Graph P F Φ} {e : SignalError}
    (hform : (g.node me).form = .flatMap source choice)
    (hcounted : (g.node me).memo.outcome?.isSome = true ↔ 0 < (g.node me).memo.version)
    (hseen : (g.node me).seen = [g.version source]) (hup : g.UpToDate (g.anchor source))
    (hsource : b.apart → Linked me g source) (hvalue : g.value source = .error e)
    (hinner : (g.node me).inner? = none) (hall : g.All b.good b.fine) :
    Ready b rank me
      { g.node me with memo := { (g.node me).memo.store (.error e) with dirty := false } } g := by
  refine .of_store rfl rfl rfl hcounted ?_ ?_ ?_ ?_ ?_ (hall me) (good_error e)
  · simp only [hform, hseen]
    rfl
  · rw [hform]
    intro s hmem
    rwa [List.mem_singleton.mp hmem]
  · exact linked_source hform hsource
  · intro inner hi
    rw [hinner] at hi
    cases hi
  · unfold Behaviour.Answers
    simp only [hform, hvalue]
    exact ⟨hinner, Memo.near_store _ _⟩

/-- What was brought up to date after a visit below is so in the whole. -/
theorem Refreshes.of_visit {x y : Action P F Φ σ Unit} (w₁ : World P F Φ σ)
    {rank' : SignalId → Nat} (hx : x w = y w₁) (hvisit : Visit b me rank rank' w.graph w₁.graph)
    (hme : me < w.graph.size) (h : Refreshes b rank' me y w₁) : Refreshes b rank me x w := by
  obtain ⟨w', rank'', hrun, hprogress, hdone⟩ := h
  exact ⟨w', rank'', hx.trans hrun, hvisit.progress.trans hprogress hme, hdone⟩

/-- A flat map whose source has another version turns to the signal for its value. -/
theorem turnChoice_run (laws : Laws b codes) (hchoose : r.choose = codes.choose)
    (hr : Reconciles b r d) (hp : Pending b rank me w.graph) (hdepth : rank me ≤ d)
    (hform : (w.graph.node me).form = .flatMap source choice)
    (hlinked : Linked me w.graph source) :
    Refreshes b rank me (do
      remember me [w.graph.version source]
      let failure ← turn r me source choice
      conclude me ((← reconcileInner r me).or failure)) w := by
  have hme := hp.lt_size
  have hlt : source < w.graph.size :=
    hp.shaped.upstream_lt me source (by rw [hform]; exact List.mem_singleton_self _)
  -- First the flat map remembers the version.
  have hb := Becomes.modify w.graph hme fun n => { n with seen := [w.graph.version source] }
  generalize hg : (w.graph.modify me fun n => { n with seen := [w.graph.version source] }) = g
    at hb
  have hseen : Progress b me rank rank w.graph g :=
    .of_becomes laws.stable hb rfl rfl rfl hp.dirty hp.shaped hp.below
      fun inner hi => hp.shaped.inner me inner hi
  have hmemo : (g.node me).memo = (w.graph.node me).memo := by rw [hb.node_eq]
  have hformg : (g.node me).form = .flatMap source choice := by
    rw [hseen.frame.form_eq me hme, hform]
  have hupg := hseen.not_upToDate hme hmemo hp.dirty
  have hsource := hlinked.upToDate
  -- Then it turns.
  obtain ⟨w₁, rank₁, failure, hrun, hturn, hmemo₁, hseen₁, hlinked₁, hturned⟩ :=
    turn_run (w := w.put g) laws hchoose hseen.shaped (hseen.coherentBelow hme) hupg hformg
      (hlinked.frame hseen.frame hp.shaped hlt fun a ha => (hb.registered_iff rfl a me).mpr ha)
  have hprogress := hseen.trans hturn hme
  have hme₁ : me < w₁.graph.size := Nat.lt_of_lt_of_le hme hprogress.frame.size_le
  have hform₁ : (w₁.graph.node me).form = .flatMap source choice := by
    rw [hprogress.frame.form_eq me hme, hform]
  have hmemoAll : (w₁.graph.node me).memo = (w.graph.node me).memo := hmemo₁.trans hmemo
  have hup₁ := hprogress.not_upToDate hme hmemoAll hp.dirty
  have hlt₁ := Nat.lt_of_lt_of_le hlt hprogress.frame.size_le
  have hsource₁ := hprogress.frame.upToDate_anchor hp.shaped hlt hsource
  have hversion₁ := hprogress.frame.version_eq hp.shaped hlt hsource
  have hvalue₁ := hprogress.frame.value_eq hp.shaped hlt hsource
  have hvalueg := hseen.frame.value_eq hp.shaped hlt hsource
  have hseenAll : (w₁.graph.node me).seen = [w₁.graph.version source] := by
    rw [hseen₁, World.put_graph, hb.node_eq, hversion₁]
  have hcounted := hp.coherent.counted hp.derived
  unfold Refreshes
  simp only [remember_bind_run, hg]
  rw [bind_run hrun]
  rcases hturned with ⟨p, id, hv, rfl, hinner, hchosen⟩ | ⟨e, hv, rfl, hinner⟩
  · -- It reads the signal that it has turned to.
    obtain ⟨w₂, rank₂, hvisit, hfollowed, hrun₂⟩ := reconcileInner_run laws.stable hr hturn.shaped
      (hprogress.coherentBelow hme) (by rw [hform₁]; rfl)
      (by rw [hprogress.rank_eq me hme]; exact hdepth) hinner
    rw [if_pos (Or.inl rfl)] at hrun₂
    rw [bind_run hrun₂]
    have hme₂ : me < w₂.graph.size := Nat.lt_of_lt_of_le hme₁ hvisit.frame.size_le
    obtain ⟨-, hid, hidrank⟩ := hturn.shaped.inner me _ hinner
    have hbecomes := ((Becomes.modify w₂.graph hme₂ fun n =>
      { n with inner? := some ⟨id, max (w₂.graph.version id) 1⟩ }).next hme₂
        fun n => { n with memo := n.memo.store (w₂.graph.value id) }).next hme₂
          fun n => { n with memo := { n.memo with dirty := false } }
    have hmemo₂ := hvisit.memo_eq hme₁
    have hready : Ready b rank₂ me _ w₂.graph := .of_followed
      ((hvisit.frame.form_eq me hme₁).trans hform₁) (by rw [hmemo₂, hmemoAll]; exact hcounted)
      (by
        rw [hvisit.seen_eq hme₁, hseenAll,
          hvisit.frame.version_eq hturn.shaped hlt₁ hsource₁])
      (hvisit.frame.upToDate_anchor hturn.shaped hlt₁ hsource₁)
      (fun hapart => (hlinked₁ hapart).frame hvisit.frame hturn.shaped hlt₁
        fun a ha => hvisit.registered hme₁ ha)
      ((hvisit.frame.value_eq hturn.shaped hlt₁ hsource₁).trans
        (hvalue₁.trans (hvalueg.symm.trans hv)))
      (laws.stable.chosen hvisit.frame.evolves hchosen)
      (Nat.lt_of_lt_of_le hid hvisit.frame.size_le)
      (by rw [hvisit.progress.rank_eq _ hid, hvisit.progress.rank_eq me hme₁]; exact hidrank)
      hfollowed hvisit.progress.shaped.all
    have hup₂ : ¬ w₂.graph.UpToDate me := by rwa [hvisit.upToDate_iff hme₁]
    obtain ⟨hfinish, hdone⟩ := hready.finish laws.stable hbecomes hvisit.progress.shaped
      (hvisit.progress.coherentBelow hme₁) hup₂
    exact ⟨_, rank₂, rfl, (hprogress.trans hvisit.progress hme).trans hfinish hme, hdone⟩
  · -- There is none to read.
    have hrun₂ : reconcileInner r me w₁ = .ok (none, w₁) := by
      unfold reconcileInner
      rw [graph_bind_run, hinner]
      rfl
    rw [bind_run hrun₂]
    have hbecomes := (Becomes.modify w₁.graph hme₁ fun n =>
      { n with memo := n.memo.store (.error e) }).next hme₁
        fun n => { n with memo := { n.memo with dirty := false } }
    have hready : Ready b rank₁ me _ w₁.graph := .of_failed hform₁
      (by rw [hmemoAll]; exact hcounted) hseenAll hsource₁ hlinked₁
      (hvalue₁.trans (hvalueg.symm.trans hv)) hinner hturn.shaped.all
    obtain ⟨hfinish, hdone⟩ := hready.finish laws.stable hbecomes hturn.shaped
      (hprogress.coherentBelow hme) hup₁
    exact ⟨_, rank₁, rfl, hprogress.trans hfinish hme, hdone⟩

/-- A flat map whose source has the version that it saw reads the signal that it follows, if that
    has moved. -/
theorem keepChoice_run (hstable : b.Stable) (hr : Reconciles b r d)
    (hp : Pending b rank me w.graph) (hdepth : rank me ≤ d)
    (hform : (w.graph.node me).form = .flatMap source choice)
    (hlinked : Linked me w.graph source)
    (hsome : (w.graph.node me).memo.outcome?.isSome = true)
    (hseen : (w.graph.node me).seen = [w.graph.version source]) :
    Refreshes b rank me (do conclude me ((← reconcileInner r me).or none)) w := by
  have hme := hp.lt_size
  have hlt : source < w.graph.size ∧ rank source < rank me :=
    hp.shaped.upstream me source (by rw [hform]; exact List.mem_singleton_self _)
  have hcomputed : w.graph.Computed source := by
    have hanchor := hp.below (w.graph.anchor source)
      (Nat.lt_of_le_of_lt (Graph.rank_anchor_le hp.shaped.descends source) hlt.2)
    exact hanchor.isSome (Graph.target?_anchor hp.shaped.descends source) hlinked.upToDate
  have hsource := hlinked.upToDate
  unfold Refreshes
  -- Either it follows the signal chosen for the outcome of its source, or that outcome is an error
  -- and it follows nothing.
  rcases hp.coherent.inner_of_seen hform hsome hseen hcomputed with
    ⟨p, inner, hv, hinner, hchosen⟩ | ⟨e, hv, hinner⟩
  · obtain ⟨hpos, -⟩ := hp.coherent.inner_seen inner hinner
    obtain ⟨-, hid, hidrank⟩ := hp.shaped.inner me inner hinner
    obtain ⟨w₂, rank₂, hvisit, hfollowed, hrun₂⟩ :=
      reconcileInner_run hstable hr hp.shaped hp.below hp.derived hdepth hinner
    have hp₂ := hvisit.pending hstable hp
    have hme₂ := hp₂.lt_size
    have hform₂ : (w₂.graph.node me).form = .flatMap source choice := by
      rw [hvisit.frame.form_eq me hme, hform]
    have hversion₂ := hvisit.frame.version_eq hp.shaped hlt.1 hsource
    have hsource₂ := hvisit.frame.upToDate_anchor hp.shaped hlt.1 hsource
    have hlinked₂ := hlinked.frame hvisit.frame hp.shaped hlt.1 fun a ha => hvisit.registered hme ha
    have hseen₂ : (w₂.graph.node me).seen = [w₂.graph.version source] := by
      rw [hvisit.seen_eq hme, hseen, hversion₂]
    split at hrun₂
    · -- It has moved.
      rw [bind_run hrun₂]
      have hbecomes := ((Becomes.modify w₂.graph hme₂ fun n =>
        { n with inner? := some ⟨inner.signal, max (w₂.graph.version inner.signal) 1⟩ }).next hme₂
          fun n => { n with memo := n.memo.store (w₂.graph.value inner.signal) }).next hme₂
            fun n => { n with memo := { n.memo with dirty := false } }
      have hready : Ready b rank₂ me _ w₂.graph := .of_followed hform₂
        (hp₂.coherent.counted hp₂.derived) hseen₂ hsource₂ (fun _ => hlinked₂)
        ((hvisit.frame.value_eq hp.shaped hlt.1 hsource).trans hv)
        (hstable.chosen hvisit.frame.evolves hchosen)
        (Nat.lt_of_lt_of_le hid hvisit.frame.size_le)
        (by rw [hvisit.progress.rank_eq _ hid, hvisit.progress.rank_eq me hme]; exact hidrank)
        hfollowed hp₂.shaped.all
      exact ⟨_, rank₂, rfl, hvisit.finish hstable hp hready hbecomes⟩
    · -- It has not.
      rename_i hsame
      rw [bind_run hrun₂]
      have hbecomes := Becomes.modify w₂.graph hme₂
        fun n => { n with memo := { n.memo with dirty := false } }
      refine ⟨_, rank₂, rfl, hvisit.finish hstable hp (.of_seen hp₂.shaped hp₂.below hp₂.coherent
        hp₂.derived (by rwa [hvisit.memo_eq hme]) ?_ ?_ ?_ ?_) hbecomes⟩
      · rw [hform₂]
        exact hseen₂
      · rw [hform₂]
        intro s hmem
        rwa [List.mem_singleton.mp hmem]
      · exact linked_source hform₂ fun _ => hlinked₂
      · rw [hvisit.inner?_eq hme, hinner]
        rintro _ ⟨rfl⟩
        refine ⟨?_, hfollowed⟩
        omega
  · have hrun₂ : reconcileInner r me w = .ok (none, w) := by
      unfold reconcileInner
      rw [graph_bind_run, hinner]
      rfl
    rw [bind_run hrun₂]
    have hbecomes := Becomes.modify w.graph hme
      fun n => { n with memo := { n.memo with dirty := false } }
    refine ⟨_, rank, rfl, (Visit.refl hp.shaped hp.below).finish hstable hp (.of_seen hp.shaped
      hp.below hp.coherent hp.derived hsome ?_ ?_ ?_ ?_) hbecomes⟩
    · rw [hform]
      exact hseen
    · rw [hform]
      intro s hmem
      rwa [List.mem_singleton.mp hmem]
    · exact linked_source hform fun _ => hlinked
    · intro inner hi
      rw [hinner] at hi
      cases hi

/-- A flat map is brought up to date. -/
theorem reconcileChoice_run (laws : Laws b codes) (hchoose : r.choose = codes.choose)
    (hr : Reconciles b r d) (hp : Pending b rank me w.graph) (hdepth : rank me ≤ d)
    (hform : (w.graph.node me).form = .flatMap source choice) :
    Refreshes b rank me (reconcileChoice r me source choice) w := by
  have hme := hp.lt_size
  obtain ⟨hlt, hrank⟩ := hp.shaped.upstream me source
    (by rw [hform]; exact List.mem_singleton_self _)
  obtain ⟨w₁, rank', hrun, hvisit, hlinked⟩ :=
    visit_run laws.stable hr hp.shaped hp.below hp.derived hdepth hlt hrank
  have hp₁ := hvisit.pending laws.stable hp
  have hdepth₁ : rank' me ≤ d := by rwa [hvisit.progress.rank_eq me hme]
  have hform₁ := (hvisit.frame.form_eq me hme).trans hform
  generalize hg : w₁.graph.depend source (.signal me) = g at hvisit hlinked hp₁ hform₁
  cases hstale : ((g.node me).memo.outcome?.isNone || (g.node me).seen != [g.version source]) with
  | true =>
    refine .of_visit (w₁.put g) ?_ hvisit hme (turnChoice_run laws hchoose hr hp₁ hdepth₁
      hform₁ hlinked)
    unfold reconcileChoice
    rw [bind_run hrun]
    simp only [register_bind_run, graph_bind_run, World.put_graph, hg]
    rw [isStale_bind_run (w₁.put g) hstale]
    rfl
  | false =>
    obtain ⟨hsome, hseen⟩ := isStale_eq_false_iff.mp hstale
    refine .of_visit (w₁.put g) ?_ hvisit hme (keepChoice_run laws.stable hr hp₁ hdepth₁
      hform₁ hlinked hsome hseen)
    unfold reconcileChoice
    rw [bind_run hrun]
    simp only [register_bind_run, graph_bind_run, World.put_graph, hg]
    rw [isStale_bind_run (w₁.put g) hstale]
    rfl

/-! ### All signals -/

/-- There is nothing to bring up to date about the signal. -/
def Graph.AtRest (g : Graph P F Φ) (id : SignalId) : Prop :=
  (g.node id).memo.dirty = true → (g.node id).form = .constant ∨ (g.node id).form = .cell

/-- What is coherent and up to date is at rest. -/
theorem CoherentAt.atRest {g : Graph P F Φ} {id : SignalId} (h : CoherentAt b g id)
    (htarget : (g.node id).form.target? = none) (hup : g.UpToDate id) : g.AtRest id := by
  intro hdirty
  rcases Form.eq_of_target?_none htarget with hd | hf | hf | hf
  · rw [hup hd] at hdirty
    cases hdirty
  · exact .inl hf
  · exact .inr hf
  · rw [h.waiting hf] at hdirty
    cases hdirty

theorem reconcileNode_of_atRest {id : SignalId} (h : w.graph.AtRest (w.graph.anchor id)) :
    reconcileNode r id w = .ok ((), w) := by
  unfold reconcileNode
  simp only [graph_bind_run]
  cases hdirty : (w.graph.node (w.graph.anchor id)).memo.dirty with
  | false => rfl
  | true =>
    simp only [if_true]
    rcases h hdirty with hf | hf <;> rw [hf] <;> rfl

/-- The steps of a map succeed, one after the other. -/
theorem applySteps_run (laws : Laws b codes) (happly : r.apply = codes.apply) (steps : List F)
    (hfine : ∀ f ∈ steps, b.fine f) (o : Outcome P) (w : World P F Φ σ) (ho : Good b.good o) :
    ∃ o' w', applySteps r steps o w = .ok (o', w') ∧ w'.graph = w.graph ∧ b.Images steps o o' ∧
      Good b.good o' := by
  unfold applySteps
  induction steps generalizing o w with
  | nil => exact ⟨o, w, rfl, rfl, .nil o, ho⟩
  | cons f steps ih =>
    rw [List.foldlM_cons]
    have hrest := ih fun f' hf' => hfine f' (List.mem_cons_of_mem _ hf')
    cases o with
    | error e =>
      obtain ⟨o', w', hrun, hgraph, himages, ho'⟩ := hrest (.error e) w ho
      exact ⟨o', w', hrun, hgraph, .failed himages, ho'⟩
    | ok p =>
      obtain ⟨o₁, w₁, hrun₁, hgraph₁, himage, ho₁⟩ :=
        laws.apply_run f p w (hfine f (List.mem_cons_self ..)) (ho p rfl)
      obtain ⟨o', w', hrun, hgraph, himages, ho'⟩ := hrest o₁ w₁ ho₁
      have hstep : r.apply f p w = .ok (o₁, w₁) := by rw [happly, hrun₁]
      exact ⟨o', w', (bind_run hstep).trans hrun, hgraph.trans hgraph₁, .step himage himages, ho'⟩

/-- One level more brings every signal of one rank more up to date. -/
theorem reconcileNode_run (laws : Laws b codes) (happly : 0 < d → r.apply = codes.apply)
    (hchoose : 0 < d → r.choose = codes.choose) (hr : Reconciles b r d) {id : SignalId}
    (hs : w.graph.Shaped b rank) (hdepth : rank (w.graph.anchor id) ≤ d)
    (hbelow : CoherentBelow b rank (w.graph.anchor id) w.graph)
    (hc : CoherentAt b w.graph (w.graph.anchor id)) :
    Refreshes b rank (w.graph.anchor id) (reconcileNode r id) w := by
  unfold Refreshes reconcileNode
  simp only [graph_bind_run]
  have htarget := Graph.target?_anchor hs.descends id
  generalize w.graph.anchor id = me at hdepth hbelow hc htarget
  have hstay : w.graph.UpToDate me → ∃ w' rank', (pure () : Action P F Φ σ Unit) w = .ok ((), w') ∧
      Progress b me rank rank' w.graph w'.graph ∧ CoherentAt b w'.graph me ∧
        w'.graph.UpToDate me :=
    fun hup => ⟨w, rank, rfl, .refl hs hbelow, hc, hup⟩
  cases hdirty : (w.graph.node me).memo.dirty with
  | false =>
    simp only [Bool.false_eq_true, if_false]
    exact hstay fun _ => hdirty
  | true =>
    simp only [if_true]
    have hpending : (w.graph.node me).form.isDerived = true → Pending b rank me w.graph :=
      fun hd => ⟨hs, hbelow, hc, (w.graph.not_upToDate_iff me).mpr ⟨hd, hdirty⟩⟩
    -- With a source below it, a signal is not of the lowest rank.
    have hpos : ∀ s, s ∈ (w.graph.node me).form.upstream → 0 < d := by
      intro s hmem
      have := (hs.upstream me s hmem).2
      omega
    cases hf : (w.graph.node me).form with
    | constant =>
      apply hstay
      intro hd
      rw [hf] at hd
      cases hd
    | cell =>
      apply hstay
      intro hd
      rw [hf] at hd
      cases hd
    | map source steps role =>
      have happly := happly (hpos source (by rw [hf]; exact List.mem_singleton_self _))
      apply reconcileImage_run (b.Images steps) laws.stable hr (hpending (by rw [hf]; rfl)) hdepth
        (by rw [hf]; rfl) (by rw [hf]; simp)
        (applySteps_run laws happly steps ((hs.all me).steps _ _ _ hf))
      intro g n o hn himages hnear
      unfold Behaviour.Answers
      rw [hn, hf]
      exact ⟨o, himages, hnear⟩
    | lift source =>
      apply reconcileImage_run (fun o o' => o' = .ok (Carrier.ofOutcome o)) laws.stable hr
        (hpending (by rw [hf]; rfl)) hdepth (by rw [hf]; rfl) (by rw [hf]; simp)
        (fun o w ho => ⟨_, w, rfl, rfl, rfl, good_ok (laws.closed.attempt o ho)⟩)
      rintro g n _ hn rfl hnear
      unfold Behaviour.Answers
      rw [hn, hf]
      exact hnear
    | flatMap source choice =>
      have hchoose := hchoose (hpos source (by rw [hf]; exact List.mem_singleton_self _))
      exact reconcileChoice_run laws hchoose hr (hpending (by rw [hf]; rfl)) hdepth hf
    | join sources =>
      exact reconcileJoin_run laws.stable laws.closed hr (hpending (by rw [hf]; rfl)) hdepth hf
    | label name source =>
      rw [hf] at htarget
      cases htarget
    | reference target? =>
      cases target? with
      | none =>
        rw [hc.waiting hf] at hdirty
        cases hdirty
      | some target =>
        rw [hf] at htarget
        cases htarget

end

/-- Every signal of a rank below the depth is brought up to date. -/
theorem reconciles_ofCodes {codes : Codes P F Φ σ} (laws : Laws b codes) (d : Nat) :
    Reconciles b (.ofCodes codes d) d := by
  induction d with
  | zero =>
    intro id w rank _ _ hdepth
    exact absurd hdepth (Nat.not_lt_zero _)
  | succ d ih =>
    intro id w rank hs _ hdepth hbelow hc
    refine reconcileNode_run laws ?_ ?_ ih hs (Nat.le_of_lt_succ hdepth) hbelow hc
    · intro hd
      cases d with
      | zero => exact absurd hd (Nat.lt_irrefl _)
      | succ d => rfl
    · intro hd
      cases d with
      | zero => exact absurd hd (Nat.lt_irrefl _)
      | succ d => rfl

end ReactiveDoc.Signal
