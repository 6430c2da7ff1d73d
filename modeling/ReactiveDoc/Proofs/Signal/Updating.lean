import ReactiveDoc.Proofs.Signal.Visiting

namespace ReactiveDoc.Signal

/-!
# Bringing images and joins up to date

Computing an outcome again, or finding that no source has moved, leaves a signal coherent.

* `Ready.finish` — the last step: the signal has seen its sources and comes out coherent.
* `Ready.of_seen`, `Ready.of_store` — with the outcome that it had, and with another.
* `reconcileImage_run`, `reconcileJoin_run` — images of one source, and joins.
-/

variable {P F Φ σ : Type} [Carrier P] {b : Behaviour P F Φ}

/-! ### The last step -/

/-- A flat map has read the signal that it follows, and will be told of its next change. -/
structure Follows (b : Behaviour P F Φ) (rank : SignalId → Nat) (me : SignalId) (n : Node P F Φ)
    (g : Graph P F Φ) (inner : Inner) : Prop where
  chosen : ∃ source choice p, n.form = .flatMap source choice ∧
    b.chosen g source choice p inner.signal
  lt : inner.signal < g.size
  rank_lt : rank inner.signal < rank me
  seen_eq : inner.seen = max (g.version inner.signal) 1
  linked : Linked me g inner.signal
  read : Near n.memo.read (g.value inner.signal)

/-- What is known of a signal right before it counts as up to date: its sources are, and what it
    is about to remember is their versions and the outcome for them. -/
structure Ready (b : Behaviour P F Φ) (rank : SignalId → Nat) (me : SignalId) (n : Node P F Φ)
    (g : Graph P F Φ) : Prop where
  form_eq : n.form = (g.node me).form
  dependents_eq : n.dependents = (g.node me).dependents
  ahead : (g.node me).memo.Ahead n.memo
  clean : n.memo.dirty = false
  computed : n.memo.outcome?.isSome = true
  version_pos : 0 < n.memo.version
  seen_eq : n.seen = n.form.upstream.map g.version
  upToDate : ∀ s ∈ n.form.upstream, g.UpToDate (g.anchor s)
  linked : b.apart ∨ (∀ source choice, n.form ≠ .flatMap source choice) →
    ∀ s ∈ n.form.upstream, Linked me g s
  follows : ∀ inner, n.inner? = some inner → Follows b rank me n g inner
  answers : b.Answers g n
  all : n.All b.good b.fine

/-- A signal that is ready comes out coherent, and nothing else changes. -/
theorem Ready.finish {me : SignalId} {n : Node P F Φ} {rank : SignalId → Nat} {g g' : Graph P F Φ}
    (h : Ready b rank me n g) (hstable : b.Stable) (hb : Becomes me n g g') (hs : g.Shaped b rank)
    (hc : CoherentBelow b rank me g) (hup : ¬ g.UpToDate me) :
    Progress b me rank rank g g' ∧ CoherentAt b g' me ∧ g'.UpToDate me := by
  have hderived : n.form.isDerived = true := by
    rw [h.form_eq]
    exact ((g.not_upToDate_iff me).mp hup).1
  have hframe := hb.frame h.form_eq h.dependents_eq h.ahead hup
  have hshaped : g'.Shaped b rank := by
    refine hb.shaped hstable hframe.evolves h.form_eq h.dependents_eq hs (fun inner hi => ?_) h.all
    rw [← h.form_eq]
    have hfollows := h.follows inner hi
    exact ⟨hfollows.chosen, hfollows.lt, hfollows.rank_lt⟩
  have hsource : ∀ s ∈ n.form.upstream, s < g.size := by
    rw [h.form_eq]
    exact hs.upstream_lt me
  have hreg : ∀ a, g.Registered a me → g'.Registered a me :=
    fun a => (hb.registered_iff h.dependents_eq a me).mpr
  have hinner : ∀ inner, n.inner? = some inner → Linked me g' inner.signal :=
    fun inner hi => (h.follows inner hi).linked.frame hframe hs (h.follows inner hi).lt hreg
  -- Its sources are up to date, so the frame keeps the versions that it has seen.
  have hseen : n.seen = n.form.upstream.map g'.version := by
    rw [h.seen_eq]
    apply List.map_congr_left
    intro s hmem
    exact (hframe.version_eq hs (hsource s hmem) (h.upToDate s hmem)).symm
  have hinnerVersion : ∀ inner, n.inner? = some inner →
      g'.version inner.signal = g.version inner.signal := fun inner hi =>
    hframe.version_eq hs (h.follows inner hi).lt (h.follows inner hi).linked.upToDate
  -- The rest of the graph is framed; what is left is each part of coherence at the signal itself,
  -- where its node is the one that was ready.
  refine ⟨.of_frame hstable hframe (fun _ hj => hj) hb.size_eq hs hshaped hc, ?_, ?_⟩
  · constructor
    · rw [hb.node_eq]
      rintro (hf | hf) <;> rw [hf] at hderived <;> cases hderived
    · rw [hb.node_eq]
      intro hf
      rw [hf] at hderived
      cases hderived
    · rw [hb.node_eq]
      intro _
      exact ⟨fun _ => h.version_pos, fun _ => h.computed⟩
    · rw [hb.node_eq, hseen]
      intro _
      right
      exact List.forall₂_refl _
    · rw [hb.node_eq]
      intro _ _ _ _
      apply h.answers.congr (fun _ _ _ _ hch => hstable.chosen hframe.evolves hch) rfl rfl rfl
      intro s hmem
      exact hframe.value_eq hs (hsource s hmem) (h.upToDate s hmem)
    · rw [hb.node_eq]
      intro inner hi
      have hfollows := h.follows inner hi
      have htarget := Graph.target?_anchor hs.descends inner.signal
      have hanchor := hc (g.anchor inner.signal)
        (Nat.lt_of_le_of_lt (Graph.rank_anchor_le hs.descends _) hfollows.rank_lt)
      rw [hfollows.seen_eq, hinnerVersion inner hi, hframe.form_anchor_eq hs hfollows.lt]
      exact ⟨by omega, Nat.le_refl _, hanchor.form_of_version_zero htarget
        (hanchor.isSome htarget hfollows.linked.upToDate)⟩
    · rw [hb.node_eq]
      intro inner hi _ _
      have hfollows := h.follows inner hi
      rw [hframe.value_eq hs hfollows.lt hfollows.linked.upToDate]
      exact hfollows.read
    · intro hn
      rw [Graph.not_upToDate_iff, hb.node_eq, h.clean] at hn
      cases hn.2
    · intro _ _
      constructor
      · rw [hb.node_eq]
        exact h.computed
      · rw [hb.node_eq]
        exact hseen
      · rw [hb.node_eq]
        exact fun s hmem => hframe.upToDate_anchor hs (hsource s hmem) (h.upToDate s hmem)
      · rw [hb.node_eq]
        exact fun hne s hmem =>
          ((h.linked hne s hmem).frame hframe hs (hsource s hmem) hreg).registered
      · rw [hb.node_eq]
        intro inner hi
        rw [hinnerVersion inner hi]
        exact (h.follows inner hi).seen_eq
      · rw [hb.node_eq]
        exact fun inner hi => (hinner inner hi).upToDate
      · rw [hb.node_eq]
        exact fun inner hi => (hinner inner hi).registered
  · intro _
    rw [hb.node_eq]
    exact h.clean

/-- A signal whose sources have the versions that it saw is ready as it is. -/
theorem Ready.of_seen {me : SignalId} {rank : SignalId → Nat} {g : Graph P F Φ}
    (hs : g.Shaped b rank) (hc : CoherentBelow b rank me g) (hme : CoherentAt b g me)
    (hd : (g.node me).form.isDerived = true) (hsome : (g.node me).memo.outcome?.isSome = true)
    (hseen : (g.node me).seen = (g.node me).form.upstream.map g.version)
    (hup : ∀ s ∈ (g.node me).form.upstream, g.UpToDate (g.anchor s))
    (hlinked : b.apart ∨ (∀ source choice, (g.node me).form ≠ .flatMap source choice) →
      ∀ s ∈ (g.node me).form.upstream, Linked me g s)
    (hinner : ∀ inner, (g.node me).inner? = some inner →
      inner.seen = max (g.version inner.signal) 1 ∧ Linked me g inner.signal) :
    Ready b rank me { g.node me with memo := { (g.node me).memo with dirty := false } } g := by
  have hcomputed : ∀ s, rank s < rank me → g.UpToDate (g.anchor s) → g.Computed s := by
    intro s hrank hup
    have hanchor := hc (g.anchor s) (Nat.lt_of_le_of_lt (Graph.rank_anchor_le hs.descends s) hrank)
    exact hanchor.isSome (Graph.target?_anchor hs.descends s) hup
  refine ⟨rfl, rfl, ⟨Nat.le_refl _, fun _ _ => rfl⟩, rfl, hsome, (hme.counted hd).mp hsome, hseen,
    hup, hlinked, ?_, ?_, (hs.all me).congr rfl rfl⟩
  · intro inner hi
    obtain ⟨hflat, hlt, hrank⟩ := hs.inner me inner hi
    obtain ⟨hinnerSeen, hinnerLinked⟩ := hinner inner hi
    exact ⟨hflat, hlt, hrank, hinnerSeen, hinnerLinked,
      hme.inner_read inner hi hinnerSeen (hcomputed _ hrank hinnerLinked.upToDate)⟩
  · have hanswers := hme.answers hd hsome hseen fun s hmem =>
      hcomputed s (hs.upstream me s hmem).2 (hup s hmem)
    exact hanswers.congr (fun _ _ _ _ hch => hch) rfl rfl rfl fun _ _ => rfl

/-- A signal that stores the outcome for its sources is ready. -/
theorem Ready.of_store {me : SignalId} {rank : SignalId → Nat} {g : Graph P F Φ} {n : Node P F Φ}
    {o : Outcome P} (hform : n.form = (g.node me).form)
    (hdeps : n.dependents = (g.node me).dependents)
    (hmemo : n.memo = { (g.node me).memo.store o with dirty := false })
    (hcounted : (g.node me).memo.outcome?.isSome = true ↔ 0 < (g.node me).memo.version)
    (hseen : n.seen = n.form.upstream.map g.version)
    (hup : ∀ s ∈ n.form.upstream, g.UpToDate (g.anchor s))
    (hlinked : b.apart ∨ (∀ source choice, n.form ≠ .flatMap source choice) →
      ∀ s ∈ n.form.upstream, Linked me g s)
    (hfollows : ∀ inner, n.inner? = some inner → Follows b rank me n g inner)
    (hanswers : b.Answers g n) (hall : (g.node me).All b.good b.fine) (hgood : Good b.good o) :
    Ready b rank me n g := by
  have hahead := (g.node me).memo.ahead_store o
  have hsome := (g.node me).memo.isSome_store o
  refine ⟨hform, hdeps, ?_, ?_, ?_, ?_, hseen, hup, hlinked, hfollows, hanswers,
    (hall.store hgood).congr hform (by rw [hmemo])⟩
  · rw [hmemo]
    exact ⟨hahead.version_le, hahead.outcome?_eq⟩
  · rw [hmemo]
  · rw [hmemo]
    exact hsome
  · rw [hmemo]
    exact (Memo.counted_store hcounted o).mp hsome

/-! ### Signals with a function on outcomes -/

/-- A signal that is not up to date, in a graph where everything below it is coherent. -/
structure Pending (b : Behaviour P F Φ) (rank : SignalId → Nat) (me : SignalId)
    (g : Graph P F Φ) : Prop where
  shaped : g.Shaped b rank
  below : CoherentBelow b rank me g
  coherent : CoherentAt b g me
  dirty : ¬ g.UpToDate me

theorem Pending.derived {rank : SignalId → Nat} {me : SignalId} {g : Graph P F Φ}
    (h : Pending b rank me g) : (g.node me).form.isDerived = true :=
  ((g.not_upToDate_iff me).mp h.dirty).1

theorem Pending.lt_size {rank : SignalId → Nat} {me : SignalId} {g : Graph P F Φ}
    (h : Pending b rank me g) : me < g.size :=
  g.lt_size_of_isDerived h.derived

/-- Visiting what is below does not change that a signal is pending. -/
theorem Visit.pending {me : SignalId} {rank rank' : SignalId → Nat} {g g' : Graph P F Φ}
    (h : Visit b me rank rank' g g') (hstable : b.Stable) (hp : Pending b rank me g) :
    Pending b rank' me g' where
  shaped := h.progress.shaped
  below := h.progress.coherentBelow hp.lt_size
  coherent := h.coherentAt hp.lt_size hstable hp.shaped hp.coherent
  dirty := by
    rw [h.upToDate_iff hp.lt_size]
    exact hp.dirty

/-- Once the sources are visited and the signal is ready, it is up to date and coherent. -/
theorem Visit.finish {me : SignalId} {rank rank' : SignalId → Nat} {g g₁ g' : Graph P F Φ}
    {n : Node P F Φ} (h : Visit b me rank rank' g g₁) (hstable : b.Stable)
    (hp : Pending b rank me g) (hready : Ready b rank' me n g₁) (hb : Becomes me n g₁ g') :
    Progress b me rank rank' g g' ∧ CoherentAt b g' me ∧ g'.UpToDate me := by
  have hp₁ := h.pending hstable hp
  obtain ⟨hprogress, hdone⟩ := hready.finish hstable hb hp₁.shaped hp₁.below hp₁.dirty
  exact ⟨h.progress.trans hprogress hp.lt_size, hdone⟩

section

variable {r : Rules P F Φ σ} {d : Nat} {me source : SignalId} {rank : SignalId → Nat}
  {w : World P F Φ σ}

/-- A signal with one source is brought up to date by its function on outcomes. -/
theorem reconcileImage_run {compute : Outcome P → Action P F Φ σ (Outcome P)}
    (Image : Outcome P → Outcome P → Prop) (hstable : b.Stable) (hr : Reconciles b r d)
    (hp : Pending b rank me w.graph) (hdepth : rank me ≤ d)
    (hup : (w.graph.node me).form.upstream = [source])
    (hform : ∀ source choice, (w.graph.node me).form ≠ .flatMap source choice)
    (hcompute : ∀ o w, Good b.good o → ∃ o' w', compute o w = .ok (o', w') ∧
      w'.graph = w.graph ∧ Image o o' ∧ Good b.good o')
    (hanswers : ∀ (g : Graph P F Φ) (n : Node P F Φ) o, n.form = (w.graph.node me).form →
      Image (g.value source) o → Near n.memo.read o → b.Answers g n) :
    Refreshes b rank me (reconcileImage r me source compute) w := by
  have hme := hp.lt_size
  obtain ⟨hlt, hrank⟩ := hp.shaped.upstream me source (by rw [hup]; exact List.mem_singleton_self _)
  obtain ⟨w₁, rank', hrun, hvisit, hlinked⟩ :=
    visit_run hstable hr hp.shaped hp.below hp.derived hdepth hlt hrank
  generalize hg : w₁.graph.depend source (.signal me) = g at hvisit hlinked
  have hpg := hvisit.pending hstable hp
  have hmeg := hpg.lt_size
  have hltg := Nat.lt_of_lt_of_le hlt hvisit.frame.size_le
  have hformg := hvisit.frame.form_eq me hme
  have hupg : (g.node me).form.upstream = [source] := by rw [hformg, hup]
  have hlinkedg : ∀ s ∈ (g.node me).form.upstream, Linked me g s := by
    rw [hupg]
    rintro s hmem
    rw [List.mem_singleton.mp hmem]
    exact hlinked
  -- Only flat maps follow another signal.
  have hnone : (g.node me).inner? = none := by
    cases hi : (g.node me).inner? with
    | none => rfl
    | some inner =>
      obtain ⟨⟨source, choice, p, hf, -⟩, -⟩ := hpg.shaped.inner me inner hi
      exact absurd (hformg.symm.trans hf) (hform source choice)
  unfold Refreshes reconcileImage
  rw [bind_run hrun]
  simp only [register_bind_run, graph_bind_run, World.put_graph, hg]
  cases hstale : ((g.node me).memo.outcome?.isNone || (g.node me).seen != [g.version source]) with
  | true =>
    rw [isStale_bind_run (w₁.put g) hstale]
    simp only [if_true, remember_bind_run, graph_bind_run, World.put_graph, World.put_put]
    have hb := Becomes.modify g hmeg fun n => { n with seen := [g.version source] }
    -- The versions are noted before the source is read, which does not change what is read.
    have hvalue : (g.modify me fun n => { n with seen := [g.version source] }).value source
        = g.value source :=
      (hb.frame rfl rfl (.refl _) hpg.dirty).value_eq hpg.shaped hltg hlinked.upToDate
    rw [hvalue]
    obtain ⟨o, w₂, hrun₂, hgraph₂, himage, hgood⟩ := hcompute (g.value source)
      (w₁.put (g.modify me fun n => { n with seen := [g.version source] }))
      (hpg.shaped.all.value source)
    rw [bind_run hrun₂]
    simp only [store_bind_run, clean_run, World.put_graph, hgraph₂]
    have hbecomes := (hb.next hmeg fun n => { n with memo := n.memo.store o }).next hmeg
      fun n => { n with memo := { n.memo with dirty := false } }
    refine ⟨_, rank', rfl, hvisit.finish hstable hp ?_ hbecomes⟩
    refine Ready.of_store rfl rfl rfl (hpg.coherent.counted hpg.derived) ?_
      (fun s hmem => (hlinkedg s hmem).upToDate) (fun _ => hlinkedg) ?_ ?_ (hpg.shaped.all me)
      hgood
    · rw [hupg]
      rfl
    · intro inner hi
      rw [hnone] at hi
      cases hi
    · exact hanswers g _ o hformg himage (Memo.near_store _ o)
  | false =>
    rw [isStale_bind_run (w₁.put g) hstale]
    simp only [Bool.false_eq_true, if_false, clean_run, World.put_graph]
    have hbecomes := Becomes.modify g hmeg
      fun n => { n with memo := { n.memo with dirty := false } }
    refine ⟨_, rank', rfl, hvisit.finish hstable hp ?_ hbecomes⟩
    obtain ⟨hsome, hseen⟩ := isStale_eq_false_iff.mp hstale
    refine .of_seen hpg.shaped hpg.below hpg.coherent hpg.derived hsome ?_
      (fun s hmem => (hlinkedg s hmem).upToDate) (fun _ => hlinkedg) ?_
    · rw [hupg]
      exact hseen
    · intro inner hi
      rw [hnone] at hi
      cases hi

/-- A join is brought up to date. -/
theorem reconcileJoin_run {sources : List SignalId} (hstable : b.Stable) (hclosed : b.Closed)
    (hr : Reconciles b r d) (hp : Pending b rank me w.graph) (hdepth : rank me ≤ d)
    (hform : (w.graph.node me).form = .join sources) :
    Refreshes b rank me (reconcileJoin r me sources) w := by
  have hme := hp.lt_size
  have hup : (w.graph.node me).form.upstream = sources := by rw [hform]; rfl
  obtain ⟨w₁, rank', hrun, hvisit, hlinked⟩ := reconcileSources_run hstable hr sources hp.shaped
    hp.below hp.derived hdepth (fun s hmem => hp.shaped.upstream me s (by rwa [hup]))
  generalize hg : w₁.graph = g at hrun hvisit hlinked
  have hpg := hvisit.pending hstable hp
  have hmeg := hpg.lt_size
  have hformg : (g.node me).form = .join sources := by rw [hvisit.frame.form_eq me hme, hform]
  have hupg : (g.node me).form.upstream = sources := by rw [hformg]; rfl
  have hlinkedg : ∀ s ∈ (g.node me).form.upstream, Linked me g s := by rwa [hupg]
  have hnone : (g.node me).inner? = none := by
    cases hi : (g.node me).inner? with
    | none => rfl
    | some inner =>
      obtain ⟨⟨source, choice, p, hf, -⟩, -⟩ := hpg.shaped.inner me inner hi
      rw [hformg] at hf
      cases hf
  unfold Refreshes reconcileJoin
  rw [bind_run hrun]
  cases hstale : ((g.node me).memo.outcome?.isNone
      || (g.node me).seen != sources.map g.version) with
  | true =>
    subst hg
    rw [isStale_bind_run w₁ hstale]
    simp only [if_true, remember_bind_run, graph_bind_run, store_bind_run, clean_run,
      World.put_graph, World.put_put]
    have hb := Becomes.modify w₁.graph hmeg
      fun n => { n with seen := sources.map w₁.graph.version }
    -- As in a map, the versions are noted before the sources are read.
    have hvalue : (w₁.graph.modify me
        fun n => { n with seen := sources.map w₁.graph.version }).valueAll sources
          = w₁.graph.valueAll sources := by
      apply Graph.valueAll_congr
      intro s hmem
      exact (hb.frame rfl rfl (.refl _) hpg.dirty).value_eq hpg.shaped
        (hpg.shaped.upstream_lt me s (by rwa [hupg])) (hlinked s hmem).upToDate
    rw [hvalue]
    have hbecomes := (hb.next hmeg fun n =>
      { n with memo := n.memo.store ((w₁.graph.valueAll sources).map Carrier.ofList) }).next hmeg
        fun n => { n with memo := { n.memo with dirty := false } }
    refine ⟨_, rank', rfl, hvisit.finish hstable hp ?_ hbecomes⟩
    refine Ready.of_store rfl rfl rfl (hpg.coherent.counted hpg.derived) ?_
      (fun s hmem => (hlinkedg s hmem).upToDate) (fun _ => hlinkedg) ?_ ?_ (hpg.shaped.all me) ?_
    · rw [hupg]
    · intro inner hi
      rw [hnone] at hi
      cases hi
    · unfold Behaviour.Answers
      simp only [hformg]
      exact Memo.near_store _ _
    · cases hall : w₁.graph.valueAll sources with
      | error e => exact good_error e
      | ok ps => exact good_ok (hclosed.list ps (hpg.shaped.all.valueAll hall))
  | false =>
    subst hg
    rw [isStale_bind_run w₁ hstale]
    simp only [Bool.false_eq_true, if_false, clean_run]
    have hbecomes := Becomes.modify w₁.graph hmeg
      fun n => { n with memo := { n.memo with dirty := false } }
    refine ⟨_, rank', rfl, hvisit.finish hstable hp ?_ hbecomes⟩
    obtain ⟨hsome, hseen⟩ := isStale_eq_false_iff.mp hstale
    refine .of_seen hpg.shaped hpg.below hpg.coherent hpg.derived hsome ?_
      (fun s hmem => (hlinkedg s hmem).upToDate) (fun _ => hlinkedg) ?_
    · rw [hupg]
      exact hseen
    · intro inner hi
      rw [hnone] at hi
      cases hi

end

end ReactiveDoc.Signal
