import Mathlib
import ReactiveDoc.Proofs.Signal.Overwriting
import ReactiveDoc.Proofs.Signal.Operating
import ReactiveDoc.Value.Payload

namespace ReactiveDoc.Signal

/-!
# Setting maps that can be set

* `Runs` — the worlds that requests lead to.
* `Channel` — a signal from which writes get to a cell.
* `Persists` — a map goes on to give what was written to it.
* `DependentsRead` — what comes from a signal is computed from its outcome.
* `set_through` — what becomes of a write, at every signal and with every outcome.
-/

variable {P F Φ σ : Type} [Carrier P] {fn : F → P → Outcome P} {inv : F → P → P}
  {codes : Codes P F Φ σ} {w w' w₁ : World P F Φ σ} {g g' : Graph P F Φ} {rank : SignalId → Nat}
  {id j m source : SignalId} {o v : Outcome P} {d n : Nat}

/-! ### Later worlds -/

/-- The worlds that requests lead to, each with depth enough for the signals there are.  `A` says
    what may be asked of a graph. -/
inductive Runs (codes : Codes P F Φ σ) (A : Graph P F Φ → Request P F Φ → Prop)
    (w : World P F Φ σ) : World P F Φ σ → Prop
  | now : Runs codes A w w
  | next {w₁ w₂ : World P F Φ σ} {answer : Answer P} (request : Request P F Φ) (depth : Nat)
      (h : Runs codes A w w₁) (hallowed : A w₁.graph request) (hdepth : w₁.graph.size < depth)
      (hrun : request.run (.ofCodes codes depth) w₁ = .ok (answer, w₂)) : Runs codes A w w₂

/-- Requests that fit keep a graph intact. -/
theorem Runs.intact (h : Runs codes Request.Fits w w') (hpure : codes.Pure fn inv)
    (hintact : Intact fn w.graph) : Intact fn w'.graph := by
  induction h with
  | now => exact hintact
  | next request depth _ hallowed hdepth hrun ih =>
    obtain ⟨answer, w₂, hrun', hintact₂, -⟩ := request.change hpure ih hdepth hallowed
    rw [hrun] at hrun'
    cases hrun'
    exact hintact₂

/-- A map stays whatever is asked for, unless it is written. -/
theorem Runs.stays (h : Runs codes (fun g request => request.Avoids g m) w w')
    (hpure : codes.Pure fn inv) (hmakes : codes.Makes) : Stays m source w w' := by
  induction h with
  | now => exact .refl w
  | next request depth _ hallowed _ hrun ih =>
    exact ih.trans ((stay_ofCodes hpure hmakes depth).request hallowed hrun)

/-! ### Ways to a cell -/

/-- From the signal it is so many maps that can be set to a cell. -/
inductive Channel (g : Graph P F Φ) : Nat → SignalId → Prop
  | cell {id : SignalId} (hform : (g.node (g.anchor id)).form = .cell) : Channel g 0 id
  | through {n : Nat} {id source : SignalId} {steps : List F} {inverse : F}
      (hform : (g.node (g.anchor id)).form = .map source steps (.writable inverse))
      (h : Channel g n source) : Channel g (n + 1) id

omit [Carrier P] in
theorem Channel.le_rank (h : Channel g n id) (hd : g.Descends rank) : n ≤ rank (g.anchor id) := by
  induction h with
  | cell => exact Nat.zero_le _
  | through hform _ ih => exact Nat.lt_of_le_of_lt ih (Graph.rank_source_lt hd hform)

theorem Carries.channel (h : Carries inv g id o) : ∃ n, Channel g n id := by
  induction h with
  | cell hform => exact ⟨0, .cell hform⟩
  | through hform _ _ _ _ ih =>
    obtain ⟨n, hn⟩ := ih
    exact ⟨n + 1, .through hform hn⟩

omit [Carrier P] in
theorem Channel.anchored (h : Channel g n id) : g.Anchored id := by
  cases h with
  | cell hform => exact ⟨by rw [hform]; rfl, by rw [hform]; exact nofun⟩
  | through hform => exact ⟨by rw [hform]; rfl, by rw [hform]; exact nofun⟩

omit [Carrier P] in
/-- The way stays when the world ages. -/
theorem Channel.ageing (h : Channel w.graph n id) (hages : Ageing .none w w') :
    Channel w'.graph n id := by
  generalize hg : w.graph = g at h
  induction h with
  | @cell id hform =>
    subst hg
    have hanchored : w.graph.Anchored id := (Channel.cell hform).anchored
    refine .cell ?_
    rw [hages.anchor_eq hanchored, hages.form_eq _ hanchored.known, hform]
  | @through n id source steps inverse hform h ih =>
    subst hg
    have hanchored : w.graph.Anchored id := (Channel.through hform h).anchored
    have hform' : (w'.graph.node (w'.graph.anchor id)).form = .map source steps (.writable inverse) := by
      rw [hages.anchor_eq hanchored, hages.form_eq _ hanchored.known, hform]
    exact .through hform' ih

/-- A signal on such a way can be read, whatever has become of the graph. -/
theorem Channel.reconcile (h : Channel w.graph n id) (hpure : codes.Pure fn inv) (hd : n < d) :
    ∃ w', (Rules.ofCodes codes d).reconcile id w = .ok ((), w') := by
  induction d generalizing n id with
  | zero => exact absurd hd (Nat.not_lt_zero _)
  | succ d ih =>
    show ∃ w', reconcileNode _ id w = _
    cases h with
    | cell hform => exact ⟨w, reconcileNode_of_atRest fun _ => .inr hform⟩
    | @through n _ source steps inverse hform h =>
      cases hdirty : (w.graph.node (w.graph.anchor id)).memo.dirty with
      | false =>
        refine ⟨w, reconcileNode_of_atRest fun h => ?_⟩
        rw [hdirty] at h
        cases h
      | true =>
        obtain ⟨w₁, hrun⟩ := ih h (by omega)
        obtain ⟨d, rfl⟩ : ∃ k, d = k + 1 := ⟨d - 1, by omega⟩
        generalize hme : w.graph.anchor id = me at hform hdirty
        unfold reconcileNode
        rw [graph_bind_run]
        simp only [hme, hdirty, if_true, hform]
        unfold reconcileImage
        rw [bind_run hrun]
        simp only [register_bind_run, graph_bind_run]
        generalize w₁.put (w₁.graph.depend source (.signal me)) = w₂
        cases hstale : ((w₂.graph.node me).memo.outcome?.isNone ||
            (w₂.graph.node me).seen != [w₂.graph.version source]) with
        | false =>
          rw [isStale_bind_run w₂ hstale]
          exact ⟨_, rfl⟩
        | true =>
          rw [isStale_bind_run w₂ hstale]
          simp only [if_true, remember_bind_run, graph_bind_run]
          rw [bind_run (applySteps_pure hpure d steps _ _)]
          exact ⟨_, rfl⟩

omit [Carrier P] in
/-- The number of signals of no higher rank ranks a graph as well. -/
theorem Graph.Descends.below (hd : g.Descends rank) :
    g.Descends fun id => (Graph.below rank g id).card := by
  intro id s hs
  have hid : id < g.size := g.lt_size_of_form_ne fun hform => by
    rw [hform] at hs
    cases hs
  exact Graph.card_below_lt hid (hd id s hs)

omit [Carrier P] in
theorem Channel.le_size (h : Channel g n id) (hd : g.Descends rank) : n ≤ g.size :=
  (h.le_rank hd.below).trans (Graph.card_below_le rank g _)

/-! ### What was written stays -/

omit [Carrier P] in
/-- What is known of a signal is known of what it stands for. -/
theorem Graph.anchor_self_of_target? {k : SignalId} (h : (g.node k).form.target? = none) :
    g.anchor k = k := Graph.anchorWithin_of_target?_none h _

theorem Carries.congr (h : Carries inv g id o) (hanchor : g.anchor j = g.anchor id) :
    Carries inv g j o := by
  have hvalue : g.value j = g.value id := by
    unfold Graph.value
    rw [hanchor]
  have hcomputed (h : g.Computed id) : g.Computed j := by
    unfold Graph.Computed at h ⊢
    rwa [hanchor]
  cases h with
  | cell hform hv hsome => exact .cell (hanchor ▸ hform) (hvalue ▸ hv) (hcomputed hsome)
  | through hform hv hsome hseen h =>
    exact .through (hanchor ▸ hform) (hvalue ▸ hv) (hcomputed hsome) (hanchor ▸ hseen) h

/-- Every signal that a write goes through has what was written to it. -/
theorem Carries.passes (h : Carries inv g id o) (hpasses : g.Passes j id) :
    ∃ o', Carries inv g j o' := by
  induction hpasses generalizing o with
  | @here id hid =>
    have htarget : (g.node j).form.target? = none := by
      cases h with
      | cell hform =>
        rw [← hid, hform]
        rfl
      | through hform =>
        rw [← hid, hform]
        rfl
    exact ⟨o, h.congr ((Graph.anchor_self_of_target? htarget).trans hid.symm)⟩
  | @through id source steps inverse hform _ ih =>
    cases h with
    | cell hform' =>
      rw [hform] at hform'
      cases hform'
    | through hform' _ _ _ h =>
      rw [hform] at hform'
      cases hform'
      exact ih h

/-- Until its source changes, and unless it is written, a map gives the outcome and version that it
    has, whatever is asked for; and so does its source until it changes. -/
def Persists (codes : Codes P F Φ σ) (w : World P F Φ σ) (m source : SignalId) : Prop :=
  ∀ w₁, Runs codes (fun g request => request.Avoids g m) w w₁ → ∀ d, w₁.graph.size < d →
    (∃ w₂, (Request.get m).run (.ofCodes codes d) w₁ = .ok (.value (w₂.graph.value m), w₂) ∧
      (w₂.graph.version source = w.graph.version source →
        w₂.graph.value m = w.graph.value m ∧ w₂.graph.version m = w.graph.version m)) ∧
    ∃ w₂, (Request.get source).run (.ofCodes codes d) w₁ =
        .ok (.value (w₂.graph.value source), w₂) ∧
      (w₂.graph.version source = w.graph.version source →
        w₂.graph.value source = w.graph.value source)

/-- A signal on a way to a cell can be read, however the world has aged. -/
theorem Channel.get (h : Channel w.graph n id) (hd : w.graph.Descends rank)
    (hpure : codes.Pure fn inv) (hages : Ageing .none w w₁) (hdepth : w₁.graph.size < d) :
    ∃ w₂, (Rules.ofCodes codes d).reconcile id w₁ = .ok ((), w₂) ∧
      (Request.get id).run (.ofCodes codes d) w₁ = .ok (.value (w₂.graph.value id), w₂) := by
  have hlt : n < d := by
    have := h.le_size hd
    have := hages.size_le
    omega
  obtain ⟨w₂, hrun⟩ := (h.ageing hages).reconcile hpure hlt
  exact ⟨w₂, hrun, get_run hrun⟩

/-- What a map carries persists. -/
theorem Carries.persists (h : Carries inv w.graph m o) {steps : List F} {inverse : F}
    (hform : (w.graph.node m).form = .map source steps (.writable inverse))
    (hd : w.graph.Descends rank) (hpure : codes.Pure fn inv) (hmakes : codes.Makes) :
    Persists codes w m source := by
  have hself : w.graph.anchor m = m := Graph.anchor_self_of_target? (by rw [hform]; rfl)
  obtain ⟨n, hchannel⟩ := h.channel
  cases h with
  | cell hcell =>
    rw [hself, hform] at hcell
    cases hcell
  | through hmap hvalue hsome hseen hsource =>
    rw [hself, hform] at hmap
    cases hmap
    rw [hself] at hseen
    obtain ⟨k, hbelow⟩ := hsource.channel
    have hfed : w.graph.Fed m source := ⟨⟨_, _, hform⟩, hbelow.anchored⟩
    have hnotes : w.graph.Notes m source (w.graph.version source) := by
      refine ⟨hseen, ?_, Nat.le_refl _⟩
      unfold Graph.Computed at hsome
      rwa [hself] at hsome
    intro w₁ hruns d hdepth
    have hstays : Stays m source w w₁ := hruns.stays hpure hmakes
    obtain ⟨w₂, hrun₂, hget₂⟩ := hchannel.get hd hpure hstays.ageing hdepth
    obtain ⟨w₃, hrun₃, hget₃⟩ := hbelow.get hd hpure hstays.ageing hdepth
    refine ⟨⟨w₂, hget₂, fun hversion => ?_⟩, w₃, hget₃, fun hversion => ?_⟩
    · have hstays₂ := hstays.trans ((stay_ofCodes hpure hmakes d).reconcile m _ hrun₂)
      have hheard := hstays₂.kept _ hfed hnotes hversion
      have hself₂ : w₂.graph.anchor m = m :=
        Graph.anchor_self_of_target? (by rw [hheard.form_eq, hform]; rfl)
      unfold Graph.value Graph.version Memo.read
      rw [hself, hself₂, hheard.outcome?_eq, hheard.version_eq]
      exact ⟨rfl, rfl⟩
    · have hstays₃ := hstays.trans ((stay_ofCodes hpure hmakes d).reconcile source _ hrun₃)
      exact (Graph.value_eq_of_ahead (hstays₃.ageing.ahead_anchor hbelow.anchored) hversion
        (hstays₃.computed hfed hsource.computed)).2

/-! ### What is computed from it -/

/-- The request writes nothing and resolves no reference. -/
def Request.isQuiet : Request P F Φ → Bool
  | set _ _ | resolve _ _ => false
  | create _ | reconcile _ | get _ => true

/-- Reads, and new signals, leave what is up to date as it is, and maps with their images. -/
structure Quietly (fn : F → P → Outcome P) (w w' : World P F Φ σ) : Prop where
  intact : Intact fn w'.graph
  frame : Frame (fun _ => True) w.graph w'.graph
  image : ∀ j, (j < w.graph.size → w.graph.HasImage fn j) → w'.graph.HasImage fn j

theorem Updates.quietly (h : Updates fn id w w') (hintact : Intact fn w.graph)
    (hintact' : Intact fn w'.graph) : Quietly fn w w' := by
  refine ⟨hintact', h.frame, fun j himage => ?_⟩
  obtain ⟨rank, hs, hle⟩ := hintact.sound.exists_rank Behaviour.lenient_regular
  obtain ⟨ran, hreach⟩ := h.reaches rank hs (by simpa using hle (w.graph.anchor id))
  have hmoved : Moved (fun steps o o' => o' = imageOf fn steps o) w.graph w'.graph ran :=
    hreach.moves.moved fun _ _ _ _ _ h => h.1
  by_cases hj : j < w.graph.size
  · exact hmoved.hasImage hs (hintact.sound.coherent j) (himage hj)
  · intro s steps role hform
    rw [hmoved.form_eq, w.graph.node_of_size_le (Nat.le_of_not_lt hj)] at hform
    cases hform

/-- So do several of them. -/
theorem Runs.quietly
    (h : Runs codes (fun g request => request.Fits g ∧ request.isQuiet = true) w w')
    (hpure : codes.Pure fn inv) (hintact : Intact fn w.graph) : Quietly fn w w' := by
  induction h with
  | now => exact ⟨hintact, .refl _ _, fun j himage source steps role hform =>
      himage (w.graph.lt_size_of_form_ne (by rw [hform]; exact nofun)) source steps role hform⟩
  | @next w₁ w₂ answer request depth _ hallowed hdepth hrun ih =>
    have hone : Quietly fn w₁ w₂ := by
      obtain ⟨answer', w₂', hrun', hintact', hchange⟩ :=
        request.change hpure ih.intact hdepth hallowed.1
      rw [hrun] at hrun'
      cases hrun'
      cases hchange with
      | create c =>
        obtain ⟨hsources, hchoice⟩ := hallowed.1
        exact ⟨hintact', (ih.intact.frame_create hsources hchoice).mono fun _ _ _ => trivial,
          fun j => ih.intact.hasImage_create hsources hchoice⟩
      | reconcile h => exact h.quietly ih.intact hintact'
      | get h => exact h.quietly ih.intact hintact'
      | set _ => exact nomatch hallowed.2
      | refuse _ => exact nomatch hallowed.2
      | resolve _ => exact nomatch hallowed.2
      | fail _ => exact nomatch hallowed.2
    exact ⟨hone.intact, ih.frame.trans hone.frame fun _ _ _ => trivial, fun j himage =>
      hone.image j fun _ => ih.image j himage⟩

/-- A signal that is up to date has the outcome for what its sources have. -/
theorem Sound.near_image (h : Sound .lenient g) (hd : (g.node j).form.isDerived = true)
    (hup : g.UpToDate j) (himage : g.HasImage fn j) : Near (g.value j) (g.image fn j) := by
  obtain ⟨rank, hs⟩ := h.shaped
  have hset := (h.coherent j).settled hd (hup hd)
  obtain ⟨hanswers, hsources⟩ := h.answers hd hup
  unfold Graph.value Graph.image
  rw [Graph.anchor_of_isDerived hd]
  unfold Behaviour.Answers at hanswers
  cases hform : (g.node j).form with
  | map source steps role =>
    have hmem : source ∈ (g.node j).form.upstream := by
      rw [hform]
      exact List.mem_singleton_self _
    refine himage source steps role hform hset.computed ?_ ?_
    · rw [hset.seen_eq, hform]
      rfl
    · exact (h.coherent _).isSome (Graph.target?_anchor hs.descends source) (hsources source hmem)
  | lift source =>
    rw [hform] at hanswers
    exact hanswers
  | join sources =>
    rw [hform] at hanswers
    exact hanswers
  | flatMap source choice => exact (hs.room j source choice hform).elim
  | _ =>
    rw [hform] at hd
    cases hd

/-- From `w` to `w'` the signal `m` was written.  Until something else is, all that comes from it is
    computed from the outcome that it has: labels and references have that outcome, and other
    signals the one for it.  A map that can be set keeps what it had if `m` did. -/
def DependentsRead (fn : F → P → Outcome P) (codes : Codes P F Φ σ) (w w' : World P F Φ σ)
    (m : SignalId) : Prop :=
  ∀ w₁, Runs codes (fun g request => request.Fits g ∧ request.isQuiet = true) w' w₁ →
    ∀ j, ∀ s ∈ (w₁.graph.node j).form.upstream, w₁.graph.anchor s = w₁.graph.anchor m →
    ∀ d, w₁.graph.size < d →
    ∃ w₂, (Request.get j).run (.ofCodes codes d) w₁ = .ok (.value (w₂.graph.value j), w₂) ∧
      w₂.graph.value s = w'.graph.value m ∧
      match (w₁.graph.node j).form with
      | .label .. | .reference _ => w₂.graph.value j = w'.graph.value m
      | .map _ _ (.writable _) => w.graph.version m < w'.graph.version m →
          Near (w₂.graph.value j) (w₂.graph.image fn j)
      | _ => Near (w₂.graph.value j) (w₂.graph.image fn j)

/-- A write leaves no map an image of what its source has not got any more. -/
theorem Intact.hasImage_overwritten (h : Intact fn g) (hover : Overwritten inv g m o g')
    (hgrown : g.version m < g'.version m)
    (hmem : source ∈ (g.node j).form.upstream) (hanchor : g.anchor source = g.anchor m) :
    g'.HasImage fn j := by
  obtain ⟨rank, hs⟩ := h.sound.shaped
  have hre := hover.rewritten hs.descends
  have hheard : Graph.Heard (g.node j) (g'.node j) := by
    refine hre.heard j fun hpasses => ?_
    have hle := hpasses.rank_le hs.descends
    have hlt := Nat.lt_of_le_of_lt (Graph.rank_anchor_le hs.descends source)
      (hs.upstream j source hmem).2
    rw [hanchor] at hlt
    omega
  intro source' steps role hform _ hseen
  rw [hheard.form_eq] at hform
  rw [hform] at hmem
  cases List.mem_singleton.mp hmem
  -- The map has noted no version that its source had not before.
  have hle := (h.sound.coherent j).seen_le (by rw [hform]; rfl)
  rw [← hheard.seen_eq, hseen, hform] at hle
  have hversion {g₁ : Graph P F Φ} (heq : g₁.anchor source = g₁.anchor m) :
      g₁.version source = g₁.version m := by
    unfold Graph.version
    rw [heq]
  rcases hle with hle | hle
  · cases hle
  · obtain ⟨hle, -⟩ := List.forall₂_cons.mp hle
    rw [hversion hanchor, hversion (by rw [hre.anchor_eq, hre.anchor_eq, hanchor])] at hle
    omega

/-- After a write all that comes from the signal is computed from what it has. -/
theorem Overwritten.dependentsRead (hpure : codes.Pure fn inv) (h : Intact fn w.graph)
    (hover : Overwritten inv w.graph m o w'.graph) (hm : m < w.graph.size) :
    DependentsRead fn codes w w' m := by
  intro w₁ hruns j s hmem hanchor d hdepth
  obtain ⟨h', hup⟩ := hover.intact h
  obtain ⟨rank, hs⟩ := h.sound.shaped
  have hre := hover.rewritten hs.descends
  obtain ⟨hintact₁, hframe₁, himage₁⟩ := hruns.quietly hpure h'
  obtain ⟨rank₁, hs₁⟩ := hintact₁.sound.shaped
  have hj₁ : j < w₁.graph.size := w₁.graph.lt_size_of_form_ne fun hform => by
    rw [hform] at hmem
    cases hmem
  obtain ⟨w₂, hrun, hintact₂, hupdates⟩ := hintact₁.updates hpure hdepth hj₁
  obtain ⟨-, hframe₂, himage₂⟩ := hupdates.quietly hintact₁ hintact₂
  obtain ⟨rank', hs'⟩ := h'.sound.shaped
  -- The signal that was written is as it was.
  have hm' : m < w'.graph.size := hre.size_eq ▸ hm
  have hm₁ : m < w₁.graph.size := Nat.lt_of_lt_of_le hm' hframe₁.size_le
  have hs₁lt := hs₁.upstream_lt j s hmem
  have hvalue : w₂.graph.value m = w'.graph.value m := by
    rw [hframe₂.value_eq hs₁ hm₁ (hframe₁.upToDate_anchor hs' hm' hup),
      hframe₁.value_eq hs' hm' hup]
  have hsame : w₂.graph.anchor s = w₂.graph.anchor m := by
    rw [hframe₂.anchor_eq s hs₁lt, hframe₂.anchor_eq m hm₁, hanchor]
  have hsvalue : w₂.graph.value s = w'.graph.value m := by
    rw [← hvalue]
    unfold Graph.value
    rw [hsame]
  refine ⟨w₂, get_run hrun, hsvalue, ?_⟩
  have hform₂ := hframe₂.form_eq j hj₁
  obtain ⟨rank₂, hs₂⟩ := hintact₂.sound.shaped
  have hnear (hd : (w₁.graph.node j).form.isDerived = true) (himage : w₂.graph.HasImage fn j) :
      Near (w₂.graph.value j) (w₂.graph.image fn j) := by
    have hd₂ : (w₂.graph.node j).form.isDerived = true := hform₂ ▸ hd
    refine hintact₂.sound.near_image hd₂ ?_ himage
    have hup₂ := hupdates.upToDate
    rwa [Graph.anchor_of_isDerived hd₂] at hup₂
  have hread (hr : (w₁.graph.node j).form.isReadOnly = true) : w₂.graph.HasImage fn j :=
    hintact₂.image j (hform₂ ▸ hr)
  have htarget (ht : (w₁.graph.node j).form.target? = some s) :
      w₂.graph.value j = w'.graph.value m := by
    rw [← hsvalue]
    unfold Graph.value
    rw [Graph.anchor_of_target? hs₂.descends (hform₂ ▸ ht)]
  cases hform : (w₁.graph.node j).form with
  | constant =>
    rw [hform] at hmem
    cases hmem
  | cell =>
    rw [hform] at hmem
    cases hmem
  | label name t =>
    rw [hform] at hmem
    cases List.mem_singleton.mp hmem
    exact htarget (by rw [hform]; rfl)
  | reference target? =>
    cases target? with
    | none =>
      rw [hform] at hmem
      cases hmem
    | some t =>
      rw [hform] at hmem
      cases List.mem_singleton.mp hmem
      exact htarget (by rw [hform]; rfl)
  | lift t => exact hnear (by rw [hform]; rfl) (hread (by rw [hform]; rfl))
  | join ts => exact hnear (by rw [hform]; rfl) (hread (by rw [hform]; rfl))
  | flatMap t choice => exact (hs₁.room j t choice hform).elim
  | map t steps role =>
    cases role with
    | readOnly uniform => exact hnear (by rw [hform]; rfl) (hread (by rw [hform]; rfl))
    | writable inverse =>
      refine fun hgrown => hnear (by rw [hform]; rfl) (himage₂ j fun _ => himage₁ j fun hj' => ?_)
      have hform' := hframe₁.form_eq j hj'
      have hsrc : s < w'.graph.size := hs'.upstream_lt j s (hform' ▸ hmem)
      rw [hform', hre.form_eq] at hmem
      rw [hframe₁.anchor_eq s hsrc, hframe₁.anchor_eq m hm', hre.anchor_eq,
        hre.anchor_eq] at hanchor
      exact h.hasImage_overwritten hover hgrown hmem hanchor

/-! ### Writes -/

/-- What a write that gets to a cell makes of a world. -/
structure Takes (fn : F → P → Outcome P) (inv : F → P → P) (codes : Codes P F Φ σ)
    (w : World P F Φ σ) (m : SignalId) (o : Outcome P) (w' : World P F Φ σ) : Prop where
  /-- The version grows by one if the outcome is told apart from the last one, -/
  version_eq : w'.graph.version m =
    if (w.graph.node (w.graph.anchor m)).memo.holds o then w.graph.version m
    else w.graph.version m + 1
  /-- which otherwise stays. -/
  value_eq : w'.graph.value m =
    if (w.graph.node (w.graph.anchor m)).memo.holds o then w.graph.value m else o
  /-- Every signal on the way has what was written to it, its source the preimage. -/
  carries : Carries inv w'.graph m o
  reads : ∀ d, w'.graph.size < d →
    ∃ w₁, (Request.get m).run (.ofCodes codes d) w' = .ok (.value (w'.graph.value m), w₁)
  persists : ∀ j source steps inverse, w'.graph.Passes j m →
    (w'.graph.node j).form = .map source steps (.writable inverse) → Persists codes w' j source
  dependents : ∀ w₀, w₀.graph = {} → Runs codes Request.Fits w₀ w →
    DependentsRead fn codes w w' m

theorem Carries.reads (h : Carries inv w.graph m o) (hd : w.graph.Descends rank)
    (hdepth : w.graph.size < d) :
    ∃ w₁, (Request.get m).run (.ofCodes codes d) w = .ok (.value (w.graph.value m), w₁) := by
  have hbelow := Nat.lt_of_le_of_lt (Graph.card_below_le rank w.graph (w.graph.anchor m)) hdepth
  obtain ⟨g₁, hrun, htouched⟩ := h.reconcile codes hd.below hbelow
  refine ⟨w.put g₁, ?_⟩
  rw [get_run hrun, World.put_graph, htouched.value_eq]

theorem Written.lt_size (h : Written codes inv d w m o w') : m < w.graph.size := by
  by_contra hm
  have hnode := w.graph.node_of_size_le (Nat.le_of_not_lt hm)
  have hself : w.graph.anchor m = m := Graph.anchor_self_of_target? (by rw [hnode]; rfl)
  cases h with
  | cell hform =>
    rw [hself, hnode] at hform
    cases hform
  | through hform =>
    rw [hself, hnode] at hform
    cases hform

theorem Written.takes (h : Written codes inv d w m o w') (hd : w.graph.Descends rank)
    (hdepth : w.graph.size < d) (hpure : codes.Pure fn inv) (hmakes : codes.Makes) :
    Takes fn inv codes w m o w' := by
  have hre := h.rewritten hd.below
    (Nat.lt_of_le_of_lt (Graph.card_below_le rank w.graph (w.graph.anchor m)) hdepth)
  have hd' := hre.descends hd
  refine ⟨hre.version_eq, ?_, hre.carries, fun d => hre.carries.reads hd', ?_, ?_⟩
  · unfold Graph.value Memo.read
    rw [hre.anchor_eq, hre.outcome?_eq, Memo.store_outcome?]
    split <;> rfl
  · intro j source steps inverse hpasses hform
    obtain ⟨o', hcarries⟩ := hre.carries.passes hpasses
    exact hcarries.persists hform hd' hpure hmakes
  · intro w₀ hempty hruns
    have hintact : Intact fn w.graph := hruns.intact hpure (hempty ▸ intact_empty)
    obtain ⟨rank', hs, hle⟩ := hintact.sound.exists_rank Behaviour.lenient_regular
    have hle := hle (w.graph.anchor m)
    obtain ⟨-, hover⟩ := h.overwritten hintact hs (by omega)
    exact hover.dependentsRead hpure hintact h.lt_size

/-- **Writing through maps.**  In a graph without circles a write completes.  Where a signal on the
    way is read-only, or a reference without a target, it is refused and nothing has changed.  Else
    every map on the way has what was written to it, until its source changes or it is written
    again, and all that comes from the signal is computed from what it has. -/
theorem set_through (hpure : codes.Pure fn inv) (hmakes : codes.Makes) (hd : w.graph.Descends rank)
    (hdepth : w.graph.size < d) (m : SignalId) (o : Outcome P) :
    ∃ result w', (Request.set m o).run (.ofCodes codes d) w = .ok (.written result, w') ∧
      match result with
      | .error e => Refuses w.graph m e ∧ w' = w
      | .ok () => Takes fn inv codes w m o w' := by
  have hbelow := Nat.lt_of_le_of_lt (Graph.card_below_le rank w.graph (w.graph.anchor m)) hdepth
  obtain ⟨result, w', hrun⟩ := set_completes hd.below hbelow hpure o
  refine ⟨result, w', bind_run hrun, ?_⟩
  rcases set_cases hpure hrun with ⟨e, rfl, rfl, hrefuses⟩ | ⟨rfl, hwritten⟩
  · exact ⟨hrefuses, rfl⟩
  · exact hwritten.takes hd hdepth hpure hmakes

section

open scoped Summing

/-- A cell, a map of it that can be set, a label of that and a map of the label. -/
def labelled : Graph Nat Unit Unit where
  nodes := #[{ form := .cell, memo := .given (.ok 3) }, { form := .map 0 [()] (.writable ()) },
    { form := .label "top" 1 }, { form := .map 2 [()] (.readOnly true) }]

theorem runs_labelled : Runs (.ofFunctions predecessor successor) Request.Fits
    (⟨{}, 0, ()⟩ : World Nat Unit Unit Unit) ⟨labelled, 0, ()⟩ := by
  refine .next (.create (.map 2 () true)) 9 (.next (.create (.label 1 "top")) 9
    (.next (.create (.mapWritable 0 () ())) 9 (.next (.create (.cell (.ok 3))) 9 .now ?_ ?_ rfl)
    ?_ ?_ rfl) ?_ ?_ rfl) ?_ ?_ rfl
  · exact ⟨nofun, nofun⟩
  · decide
  · exact ⟨by decide, nofun⟩
  · decide
  · exact ⟨by decide, nofun⟩
  · decide
  · exact ⟨by decide, nofun⟩
  · decide

/-- The label is set: the cell gets the number above, and the map of the label is computed anew. -/
theorem set_through_labelled :
    ∃ w' : World Nat Unit Unit Unit,
      (Request.set 2 (.ok 5)).run (.ofCodes (.ofFunctions predecessor successor) 9)
        ⟨labelled, 0, ()⟩ = .ok (.written (.ok ()), w') ∧
      Carries successor w'.graph 2 (.ok 5) ∧
      DependentsRead predecessor (.ofFunctions predecessor successor) ⟨labelled, 0, ()⟩ w' 2 := by
  have hd : labelled.Descends id := Graph.descends_of_forall_lt (by decide)
  obtain ⟨result, w', hrun, htakes⟩ := set_through (w := ⟨labelled, 0, ()⟩) (d := 9)
    (Codes.pure_ofFunctions predecessor successor) (Codes.makes_ofFunctions _ _) hd (by decide) 2
    (.ok 5)
  obtain ⟨w₁, hset⟩ : ∃ w₁, (Request.set 2 (.ok 5)).run
      (.ofCodes (.ofFunctions predecessor successor) 9) (⟨labelled, 0, ()⟩ : World Nat Unit Unit Unit)
        = .ok (.written (.ok ()), w₁) := ⟨_, show _ = Except.ok (_, _) by cbv⟩
  rw [hset] at hrun
  cases hrun
  exact ⟨w', hset, htakes.carries, htakes.dependents _ rfl runs_labelled⟩

end

/-! ### Outcomes that are not told apart -/

/-- Values may be equal in contents and yet not identical. -/
theorem set_alike :
    ∃ w : World Payload Unit Unit Unit,
      runAll (.ofCodes (.ofFunctions (fun _ => .ok) fun _ p => p) 9)
        [.create (.cell (.ok (.plain (.array 1 [])))), .create (.mapWritable 0 () ()), .get 1,
          .set 1 (.ok (.plain (.array 2 []))), .get 1, .get 0] ⟨{}, 0, ()⟩ =
        .ok ([.created 0, .created 1, .value (.ok (.plain (.array 1 []))), .written (.ok ()),
          .value (.ok (.plain (.array 1 []))), .value (.ok (.plain (.array 1 [])))], w) ∧
      Payload.plain (.array 1 []) ≠ .plain (.array 2 []) :=
  ⟨_, show _ = Except.ok (_, _) by cbv, by simp⟩

end ReactiveDoc.Signal
