import ReactiveDoc.Proofs.Signal.Staying

namespace ReactiveDoc.Signal

/-!
# Every request keeps a graph intact

* `Intact.register` — a signal registers with one that it comes from.
* `Intact.takenOver` — a map takes over an outcome that was written through to its source.
* `Written.intact` — so a write through maps leaves the graph intact.
* `Request.Fits`, `Request.intact` — every request that makes no circle completes and does so.
-/

variable {P F Φ σ : Type} [Carrier P] {fn : F → P → Outcome P} {g g' : Graph P F Φ}
  {rank : SignalId → Nat} {id j s source : SignalId} {o : Outcome P}

/-! ### Registering -/

/-- A signal that registers with one that it comes from, and that is up to date, leaves the graph
    intact. -/
theorem Intact.register (h : Intact fn g) (hd : (g.node id).form.isDerived = true)
    (hs : s ∈ (g.node id).form.upstream) (hup : g.UpToDate (g.anchor s)) :
    Intact fn (g.depend s (.signal id)) := by
  obtain ⟨rank, hshaped⟩ := h.sound.shaped
  have hframe := Graph.frame_depend id hup
  have hform (j : SignalId) := (g.node_depend s (.signal id) j).1
  refine ⟨⟨⟨rank, hshaped.depend Behaviour.lenient_stable hup hd⟩, fun j => ?_⟩, fun a j hreg => ?_,
    fun j => ?_, fun j hread => ?_⟩
  · by_cases hj : j < g.size
    · exact hframe.coherentAt hshaped Behaviour.lenient_stable (h.sound.coherent j) hj
        (.inl fun hfalse => hfalse)
    · exact coherentAt_of_size_le (by rw [Graph.size_depend]; exact Nat.le_of_not_lt hj)
  · simp only [Graph.anchor_depend, hform]
    rcases Graph.registered_of_depend hreg with hreg | ⟨rfl, rfl⟩
    · exact h.wired a j hreg
    · exact ⟨s, hs, rfl⟩
  · rw [hform]
    exact h.oneStep j
  · rw [hform] at hread
    refine (h.image j hread).carry (h.sound.coherent j) (hform j) ?_ ?_ fun t ht => ?_
    · rw [(g.node_depend s _ j).2.1]
    · exact (g.node_depend s _ j).2.2.1
    · exact hframe.ahead_anchor hshaped (hshaped.upstream_lt j t ht)

/-! ### Taking over an outcome -/

/-- A map with a note of the version that its source has, and registered with that, is coherent
    with any outcome, but fails if its source does. -/
theorem coherentAt_of_noted {f : F} {role : MapRole F}
    (hform : (g.node id).form = .map source [f] role) (hinner : (g.node id).inner? = none)
    (hsome : (g.node id).memo.outcome?.isSome = true) (hpos : 0 < (g.node id).memo.version)
    (hclean : (g.node id).memo.dirty = false) (hseen : (g.node id).seen = [g.version source])
    (hlinked : Linked id g source)
    (herror : ∀ e, g.value source = .error e → (g.node id).memo.read = .error e) :
    CoherentAt .lenient g id := by
  have hup : (g.node id).form.upstream = [source] := by
    rw [hform]
    rfl
  have hseen' : (g.node id).seen = (g.node id).form.upstream.map g.version := by
    rw [hup, hseen]
    rfl
  have hone {C : SignalId → Prop} (hC : C source) : ∀ s ∈ (g.node id).form.upstream, C s := by
    rw [hup]
    intro s hs
    rwa [List.mem_singleton.mp hs]
  refine ⟨?_, ?_, fun _ => ⟨fun _ => hpos, fun _ => hsome⟩, fun _ => .inr ?_, fun _ _ _ _ => ?_, ?_, ?_,
    fun hn => absurd (fun _ => hclean) hn, fun _ _ => ⟨hsome, hseen', ?_, fun _ => ?_, ?_, ?_, ?_⟩⟩
  · rw [hform]
    rintro (h | h) <;> cases h
  · rw [hform]
    intro h
    cases h
  · rw [hseen']
    exact List.forall₂_refl _
  -- Any outcome will do: the lenient image asks only that a failure is passed on.
  · unfold Behaviour.Answers
    rw [hform]
    refine ⟨(g.node id).memo.read, ?_, .inl rfl⟩
    cases hvalue : g.value source with
    | ok p => exact .step trivial (.nil _)
    | error e =>
      rw [herror e hvalue]
      exact .failed (.nil _)
  · rw [hinner]
    exact nofun
  · rw [hinner]
    exact nofun
  · exact hone hlinked.upToDate
  · exact hone hlinked.registered
  · rw [hinner]
    exact nofun
  · rw [hinner]
    exact nofun
  · rw [hinner]
    exact nofun

omit [Carrier P] in
/-- A signal that does not hear of itself becomes what it should when its dependents are told. -/
theorem Graph.node_retold_self_of_not_hears {c : SignalId} (n : Node P F Φ) (hlt : c < g.size)
    (h : ¬ g.Hears c c) : (g.retold c n).node c = { n with dependents := [] } := by
  have hedge : ∀ a b, (g.modify c fun _ => { n with dependents := [] }).Registered a b →
      g.Registered a b := by
    intro a b hreg
    unfold Registered at hreg ⊢
    rw [node_modify] at hreg
    split at hreg
    · cases hreg
    · exact hreg
  unfold retold
  rw [(node_notifyAll _ _ c).2, node_modify_self g _ hlt]
  rintro ⟨m, hm, hpath⟩
  exact h ((told_dependents_iff g c c).mp ⟨m, hm, Relation.ReflTransGen.mono hedge _ _ hpath⟩)

section

variable {f inverse : F} (h : Intact fn g) (hform : (g.node id).form = .map source [f] (.writable inverse))
  (herror : ∀ e, g.value source = .error e → o = .error e)

include h hform herror

/-- What the map takes over is coherent, where nothing has happened to its source. -/
theorem Intact.coherentAt_taken (deps : List Dependent)
    (hnode : g'.node id = { g.taken id source o with dependents := deps })
    (hanchor : g'.anchor source = g.anchor source)
    (hsource : Graph.Heard (g.node (g.anchor source)) (g'.node (g.anchor source)))
    (hlinked' : Linked id g' source) : CoherentAt .lenient g' id := by
  obtain ⟨rank, hs⟩ := h.sound.shaped
  have hcounted := Memo.counted_store ((h.sound.coherent id).counted (by rw [hform]; rfl)) o
  have hsome := (g.node id).memo.isSome_store o
  have hform' : (g'.node id).form = .map source [f] (.writable inverse) := by
    rw [hnode]
    exact hform
  refine coherentAt_of_noted hform' ?_ ?_ ?_ ?_ ?_ hlinked' ?_
  · rw [hnode]
    exact hs.no_inner id
  · rw [hnode]
    exact hsome
  · rw [hnode]
    exact hcounted.mp hsome
  · rw [hnode]
    rfl
  · rw [hnode]
    show [g.version source] = _
    unfold Graph.version
    rw [hanchor, hsource.version_eq]
  · intro e he
    have hvalue : g'.value source = g.value source := by
      unfold Graph.value Memo.read
      rw [hanchor, hsource.outcome?_eq]
    rw [hnode]
    rw [hvalue] at he
    have hnear := (g.node id).memo.near_store o
    rw [herror e he] at hnear ⊢
    exact hnear.eq_error

variable (hlinked : Linked id g source)

include hlinked

/-- The map takes over another outcome, and tells its dependents. -/
theorem Intact.retold_taken (hne : g.anchor source ≠ id) :
    Intact fn (g.retold id (g.taken id source o)) := by
  obtain ⟨rank, hs⟩ := h.sound.shaped
  have hderived : (g.node id).form.isDerived = true := by
    rw [hform]
    rfl
  have hlt := g.lt_size_of_isDerived hderived
  have hahead : (g.node id).memo.Ahead (g.taken id source o).memo :=
    ⟨((g.node id).memo.ahead_store o).version_le, ((g.node id).memo.ahead_store o).outcome?_eq⟩
  generalize hn : g.taken id source o = n at hahead ⊢
  have hnform : n.form = (g.node id).form := by rw [← hn]; rfl
  have hninner : n.inner? = (g.node id).inner? := by rw [← hn]; rfl
  have hself : (g.retold id n).node id = { n with dependents := [] } :=
    Graph.node_retold_self_of_not_hears n hlt fun hears => Nat.lt_irrefl _ (h.wired.rank_lt hs hears)
  -- The source does not hear of the map that comes from it.
  have hsource : (g.retold id n).node (g.anchor source) = g.node (g.anchor source) := by
    refine Graph.node_retold_of_not_hears n hne fun hears => ?_
    exact absurd (h.wired.rank_lt hs hears) (Nat.not_lt.mpr (Nat.le_of_lt (Graph.rank_source_lt hs.descends hform)))
  have hanchor := Graph.anchor_retold hnform hlt
  have hshaped := hs.retold Behaviour.lenient_stable (by rw [hform]; nofun) hnform hninner
    (node_all_lenient n) hlt
  have hlinked' : Linked id (g.retold id n) source := by
    refine ⟨?_, ?_⟩
    · unfold Graph.UpToDate
      rw [hanchor, hsource]
      exact hlinked.upToDate
    · unfold Graph.Registered
      rw [hanchor, hsource]
      exact hlinked.registered
  refine ⟨⟨⟨rank, hshaped⟩, fun j => ?_⟩, h.wired.retold hnform hlt, fun j => ?_,
    h.hasImage_retold (by rw [hform]; rfl) hnform hahead hlt⟩
  · by_cases hj : j = id
    · subst hj
      exact h.coherentAt_taken hform herror [] (hself.trans (by rw [hn])) (hanchor source)
        (by rw [hsource]; exact .refl _) hlinked'
    · by_cases hjlt : j < g.size
      · refine (h.sound.coherent j).carry (carried_retold hs h.sound.coherent (by rw [hform]; rfl)
          (attentive_lenient hs id) (fun s _ _ => hanchor s)
          (fun s hslt => Graph.ahead_anchor_retold hnform hahead hlt (hs.anchor_lt hslt)) ?_ ?_ hjlt
          hj) fun _ _ _ _ hch => hch
        · intro inner hi
          rw [hs.no_inner] at hi
          cases hi
        · intro inner hi
          rw [hs.no_inner] at hi
          cases hi
      · exact coherentAt_of_size_le (by rw [Graph.size_retold]; exact Nat.le_of_not_lt hjlt)
  · rw [Graph.form_retold_eq hnform hlt]
    exact h.oneStep j

/-- The map takes over an outcome that it had before. -/
theorem Intact.modify_taken (hholds : (g.node id).memo.holds o = true)
    (hne : g.anchor source ≠ id) : Intact fn (g.modify id fun _ => g.taken id source o) := by
  obtain ⟨rank, hs⟩ := h.sound.shaped
  have hderived : (g.node id).form.isDerived = true := by
    rw [hform]
    rfl
  have hlt := g.lt_size_of_isDerived hderived
  have hb := Becomes.modify g hlt fun _ => g.taken id source o
  have htaken : g.taken id source o = { g.node id with
      memo := { (g.node id).memo with dirty := false }, seen := [g.version source] } := by
    unfold Graph.taken
    rw [Memo.store_of_holds hholds]
  generalize hg' : (g.modify id fun _ => g.taken id source o) = g' at hb
  cases hdirty : (g.node id).memo.dirty with
  | false =>
    -- The map has noted this version already.
    have hset := (h.sound.coherent id).settled hderived hdirty
    have hseen : (g.node id).seen = [g.version source] := by
      rw [hset.seen_eq, hform]
      rfl
    refine h.alike (.of_node_eq hb.size_eq fun j => ?_)
    by_cases hj : j = id
    · subst hj
      rw [hb.node_eq, htaken]
      rw [← hseen, ← hdirty]
    · exact hb.node_ne j hj
  | true =>
    have hahead : (g.node id).memo.Ahead (g.taken id source o).memo := by
      rw [htaken]
      exact ⟨Nat.le_refl _, fun _ _ => rfl⟩
    have hdown : ¬ g.UpToDate id := (g.not_upToDate_iff id).mpr ⟨hderived, hdirty⟩
    have hframe := hb.frame (by rfl) (by rfl) hahead hdown
    have hshaped := hb.shaped Behaviour.lenient_stable hframe.evolves (by rfl) (by rfl) hs
      (fun inner hi => hs.inner id inner hi) (node_all_lenient _)
    have hsource : g'.node (g.anchor source) = g.node (g.anchor source) := hb.node_ne _ hne
    have hanchor := hb.anchor_eq (by rfl)
    refine ⟨⟨⟨rank, hshaped⟩, fun j => ?_⟩, fun a j hreg => ?_, fun j => ?_, fun j hread => ?_⟩
    · by_cases hj : j = id
      · subst hj
        refine h.coherentAt_taken hform herror _ hb.node_eq (hanchor source)
          (by rw [hsource]; exact .refl _) ⟨?_, ?_⟩
        · unfold Graph.UpToDate
          rw [hanchor, hsource]
          exact hlinked.upToDate
        · unfold Graph.Registered
          rw [hanchor, hsource]
          exact hlinked.registered
      · by_cases hjlt : j < g.size
        · exact hframe.coherentAt hs Behaviour.lenient_stable (h.sound.coherent j) hjlt (.inl hj)
        · exact coherentAt_of_size_le (by rw [hb.size_eq]; exact Nat.le_of_not_lt hjlt)
    · rw [hb.registered_iff (by rfl)] at hreg
      obtain ⟨s, hs, ha⟩ := h.wired a j hreg
      exact ⟨s, by rwa [hb.form_eq (by rfl)], (hanchor s).trans ha⟩
    · rw [hb.form_eq (by rfl)]
      exact h.oneStep j
    · rw [hb.form_eq (by rfl)] at hread
      have hj : j ≠ id := by
        rintro rfl
        rw [hform] at hread
        cases hread
      refine (h.image j hread).carry (h.sound.coherent j) (hb.form_eq (by rfl) j) ?_ ?_
        fun t ht => hframe.ahead_anchor hs (hs.upstream_lt j t ht)
      · rw [hb.node_ne j hj]
      · rw [hb.node_ne j hj]

end

/-- A map that can be set takes over an outcome after its source was written, and is up to date. -/
theorem Intact.takenOver (h : Intact fn g) {steps : List F} {inverse : F}
    (hform : (g.node id).form = .map source steps (.writable inverse))
    (hup : g.UpToDate (g.anchor source)) (herror : ∀ e, g.value source = .error e → o = .error e) :
    Intact fn (g.takenOver id source o) ∧ (g.takenOver id source o).UpToDate id := by
  obtain ⟨f, rfl⟩ := h.oneStep id source steps inverse hform
  obtain ⟨rank, hs⟩ := h.sound.shaped
  have hderived : (g.node id).form.isDerived = true := by
    rw [hform]
    rfl
  have hmem : source ∈ (g.node id).form.upstream := by
    rw [hform]
    exact List.mem_singleton_self _
  have hne : g.anchor source ≠ id := fun heq => by
    have hlt := Graph.rank_source_lt hs.descends hform
    rw [heq] at hlt
    exact Nat.lt_irrefl _ hlt
  rw [Graph.takenOver_eq hderived hne]
  have hintact := h.register hderived hmem hup
  have htouched := Graph.Touched.depend g source (.signal id)
  have hholds : ((g.depend source (.signal id)).node id).memo.holds o = (g.node id).memo.holds o := by
    rw [(g.node_depend source _ id).2.1]
  have hlinked : Linked id (g.depend source (.signal id)) source := by
    refine ⟨Graph.upToDate_depend_iff.mpr (by rwa [Graph.anchor_depend]), fun hrem => ?_⟩
    rw [Graph.anchor_depend] at hrem ⊢
    rw [(g.node_depend source _ _).1] at hrem
    exact Graph.registered_depend (hs.anchor_lt (hs.upstream_lt id source hmem)) hrem
  have hform₀ : ((g.depend source (.signal id)).node id).form = .map source [f] (.writable inverse) := by
    rw [(g.node_depend source _ id).1, hform]
  have hne₀ : (g.depend source (.signal id)).anchor source ≠ id := by rwa [Graph.anchor_depend]
  have herror₀ (e : SignalError) (he : (g.depend source (.signal id)).value source = .error e) :
      o = .error e := herror e (by rwa [htouched.value_eq] at he)
  -- From here on only the graph in which the map is registered matters.
  generalize g.depend source (.signal id) = g₀ at *
  have hid₀ : id < g₀.size := g₀.lt_size_of_form_ne (by rw [hform₀]; exact nofun)
  split
  · rename_i hh
    refine ⟨hintact.modify_taken hform₀ herror₀ hlinked (hholds.trans hh) hne₀, fun _ => ?_⟩
    rw [Graph.node_modify_self _ _ hid₀]
    rfl
  · refine ⟨hintact.retold_taken hform₀ herror₀ hlinked hne₀, fun _ => ?_⟩
    obtain ⟨rank, hs⟩ := hintact.sound.shaped
    rw [Graph.node_retold_self_of_not_hears _ hid₀
      fun hears => Nat.lt_irrefl _ (hintact.wired.rank_lt hs hears)]
    rfl

/-! ### Writing -/

/-- What a write that gets to a cell makes of an intact graph. -/
inductive Overwritten (inv : F → P → P) (g : Graph P F Φ) :
    SignalId → Outcome P → Graph P F Φ → Prop
  | cell {id : SignalId} {o : Outcome P} (hform : (g.node (g.anchor id)).form = .cell) :
      Overwritten inv g id o (g.written (g.anchor id) o)
  | through {id source : SignalId} {steps : List F} {inverse : F} {o : Outcome P}
      {g₁ : Graph P F Φ} (hform : (g.node (g.anchor id)).form = .map source steps (.writable inverse))
      (hsource : Overwritten inv g source (o.map (inv inverse)) g₁) :
      Overwritten inv g id o (g₁.takenOver (g.anchor id) source o)

section

variable {inv : F → P → P} {codes : Codes P F Φ σ} {w w' : World P F Φ σ} {d : Nat}

/-- Another reconcile of what is up to date does nothing. -/
theorem Intact.reconcile_eq (h : Intact fn w.graph) (hup : w.graph.UpToDate (w.graph.anchor id))
    (hrun : (Rules.ofCodes codes d).reconcile id w = .ok ((), w')) : w' = w := by
  cases d with
  | zero => cases hrun
  | succ d =>
    obtain ⟨rank, hs⟩ := h.sound.shaped
    have hrest := (h.sound.coherent _).atRest (Graph.target?_anchor hs.descends id) hup
    have hrun : reconcileNode (Rules.ofCodes codes d) id w = .ok ((), w') := hrun
    rw [reconcileNode_of_atRest hrest] at hrun
    cases hrun
    rfl

theorem Overwritten.rewritten (h : Overwritten inv g id o g') (hd : g.Descends rank) :
    Rewritten inv g id o g' := by
  induction h with
  | cell hform => exact rewritten_cell hform _
  | through hform _ ih => exact rewritten_through hd hform ih (.refl _)

/-- A write leaves the graph intact, and what is written up to date. -/
theorem Overwritten.intact (h : Overwritten inv g id o g') (hintact : Intact fn g) :
    Intact fn g' ∧ g'.UpToDate (g'.anchor id) := by
  obtain ⟨rank, hs⟩ := hintact.sound.shaped
  induction h with
  | @cell id o hform =>
    refine ⟨hintact.write hform o, fun hd => ?_⟩
    have hre : Rewritten inv g id o _ := rewritten_cell hform o
    rw [hre.anchor_eq, hre.form_eq, hform] at hd
    cases hd
  | @through id source steps inverse o g₁ hform hover ih =>
    obtain ⟨hintact₁, hup⟩ := ih
    have hre := hover.rewritten hs.descends
    have herror (e : SignalError) (he : g₁.value source = .error e) : o = .error e := by
      have hvalue := hre.carries.value
      rw [he] at hvalue
      have hmap := hvalue.of_error
      cases o with
      | ok p => cases hmap
      | error e' =>
        cases hmap
        rfl
    have hform₁ : (g₁.node (g.anchor id)).form = .map source steps (.writable inverse) := by
      rw [hre.form_eq, hform]
    obtain ⟨hintact', hup'⟩ := hintact₁.takenOver hform₁ hup herror
    refine ⟨hintact', ?_⟩
    have hre' := rewritten_through hs.descends hform hre (.refl _)
    rwa [hre'.anchor_eq]

/-- A write that got to a cell has changed the graph only. -/
theorem Written.overwritten (hw : Written codes inv d w id o w') (h : Intact fn w.graph)
    (hs : w.graph.Shaped .lenient rank) (hdepth : rank (w.graph.anchor id) < d) :
    w' = w.put w'.graph ∧ Overwritten inv w.graph id o w'.graph := by
  induction hw with
  | cell hform => exact ⟨rfl, .cell hform⟩
  | @through d w w₁ w₂ id source steps inverse o hform hsource hread ih =>
    have hlt := Graph.rank_source_lt hs.descends hform
    obtain ⟨hput, hover⟩ := ih h hs (by omega)
    -- What was written is up to date, so that reading it does nothing.
    obtain ⟨hintact, hup⟩ := hover.intact h
    obtain rfl := hintact.reconcile_eq hup hread
    refine ⟨?_, .through hform hover⟩
    rw [hput]
    rfl

/-! ### Requests -/

/-- The request is for signals of the graph, adds no flat map and makes no circle. -/
def Request.Fits (g : Graph P F Φ) : Request P F Φ → Prop
  | create c => (∀ s ∈ c.sources, s < g.size) ∧ ∀ source choice, c ≠ .flatMap source choice
  | set id _ | reconcile id | get id => id < g.size
  | resolve r t => r < g.size ∧ t < g.size ∧ ((g.node r).form = .reference none →
      ∃ rank, (g.modify r fun _ => Node.resolved t).Descends rank)

/-- From a world to another the signal was brought up to date by signals of no higher rank. -/
structure Updates (fn : F → P → Outcome P) (id : SignalId) (w w' : World P F Φ σ) : Prop where
  frame : Frame (fun _ => True) w.graph w'.graph
  upToDate : w'.graph.UpToDate (w'.graph.anchor id)
  reaches : ∀ rank, w.graph.Shaped .lenient rank → rank (w.graph.anchor id) ≤ w.graph.size →
    ∃ ran, Reaches .lenient (exactly fn) rank (rank (w.graph.anchor id) + 1) w ran w'

/-- What a request makes of a world. -/
inductive Change (fn : F → P → Outcome P) (inv : F → P → P) (w : World P F Φ σ) :
    Request P F Φ → World P F Φ σ → Prop
  | create (c : Creation P F Φ) : Change fn inv w (.create c) (w.put (c.apply w.graph).2)
  | set {id : SignalId} {o : Outcome P} {g' : Graph P F Φ} (h : Overwritten inv w.graph id o g') :
      Change fn inv w (.set id o) (w.put g')
  | refuse {id : SignalId} {o : Outcome P} {e : SignalError} (h : Refuses w.graph id e) :
      Change fn inv w (.set id o) w
  | resolve {r t : SignalId} (hwait : (w.graph.node r).form = .reference none) :
      Change fn inv w (.resolve r t) (w.put (w.graph.retold r (Node.resolved t)))
  | fail {r t : SignalId} (hform : (w.graph.node r).form ≠ .reference none) :
      Change fn inv w (.resolve r t) w
  | reconcile {id : SignalId} {w' : World P F Φ σ} (h : Updates fn id w w') :
      Change fn inv w (.reconcile id) w'
  | get {id : SignalId} {w' : World P F Φ σ} (h : Updates fn id w w') :
      Change fn inv w (.get id) w'

/-- With more depth than signals, a signal is brought up to date. -/
theorem Intact.updates (h : Intact fn w.graph) (hpure : codes.Pure fn inv)
    (hd : w.graph.size < d) (hid : id < w.graph.size) :
    ∃ w', (Rules.ofCodes codes d).reconcile id w = .ok ((), w') ∧ Intact fn w'.graph ∧
      Updates fn id w w' := by
  obtain ⟨rank, hs, hle⟩ := h.sound.exists_rank Behaviour.lenient_regular
  have hrank := hle (w.graph.anchor id)
  obtain ⟨-, w', hrun, hintact, -, hup⟩ := h.reconcile hpure hs hid hd (by omega)
  obtain ⟨w'', hrun', -, hframe, -⟩ := h.sound.reconcile Behaviour.lenient_stable
    Behaviour.lenient_regular (reconciles_ofCodes hpure.laws d) hid (by rwa [Nat.one_mul])
  rw [hrun] at hrun'
  cases hrun'
  refine ⟨w', hrun, hintact, hframe, hup, fun rank' hs' hle' => ?_⟩
  obtain ⟨ran, w'', hrun', -, hreach, -⟩ := h.reconcile hpure hs' hid hd (by omega)
  rw [hrun] at hrun'
  cases hrun'
  exact ⟨ran, hreach⟩

/-- A request that fits completes, and leaves the graph intact. -/
theorem Request.change (hpure : codes.Pure fn inv) (h : Intact fn w.graph)
    (hd : w.graph.size < d) {request : Request P F Φ} (hfits : request.Fits w.graph) :
    ∃ answer w', request.run (.ofCodes codes d) w = .ok (answer, w') ∧ Intact fn w'.graph ∧
      Change fn inv w request w' := by
  obtain ⟨rank, hs, hle⟩ := h.sound.exists_rank Behaviour.lenient_regular
  cases request with
  | create c =>
    obtain ⟨hsources, hchoice⟩ := hfits
    exact ⟨_, w.put (c.apply w.graph).2, rfl, h.create hsources hchoice, .create c⟩
  | set id o =>
    have hrank := hle (w.graph.anchor id)
    have hdepth : rank (w.graph.anchor id) < d := by omega
    obtain ⟨result, w', hrun⟩ := set_completes hs.descends hdepth hpure o
    refine ⟨.written result, w', bind_run hrun, ?_⟩
    rcases set_cases hpure hrun with ⟨e, rfl, rfl, hrefuses⟩ | ⟨rfl, hwritten⟩
    · exact ⟨h, .refuse hrefuses⟩
    · obtain ⟨hput, hover⟩ := hwritten.overwritten h hs hdepth
      rw [hput]
      exact ⟨(hover.intact h).1, .set hover⟩
  | resolve r t =>
    obtain ⟨hr, ht, hcircle⟩ := hfits
    have hrun := resolve_run w r t
    by_cases hwait : (w.graph.node r).form = .reference none
    · simp only [hwait] at hrun
      obtain ⟨rank', hd'⟩ := hcircle hwait
      exact ⟨_, _, bind_run hrun, h.resolve hwait hr ht hd', .resolve hwait⟩
    · obtain ⟨e, hfail⟩ : ∃ e, Signal.resolve r t w = .ok (.error e, w) := by
        cases hform : (w.graph.node r).form with
        | reference target? =>
          cases target? with
          | none => exact absurd hform hwait
          | some target => exact ⟨_, hrun.trans (by rw [hform])⟩
        | _ => exact ⟨_, hrun.trans (by rw [hform])⟩
      exact ⟨_, w, bind_run hfail, h, .fail hwait⟩
  | reconcile id =>
    obtain ⟨w', hrun, hintact, hupdates⟩ := h.updates hpure hd hfits
    exact ⟨_, w', bind_run hrun, hintact, .reconcile hupdates⟩
  | get id =>
    obtain ⟨w', hrun, hintact, hupdates⟩ := h.updates hpure hd hfits
    exact ⟨_, w', get_run hrun, hintact, .get hupdates⟩

end

end ReactiveDoc.Signal
