import ReactiveDoc.Proofs.Signal.Following
import ReactiveDoc.Proofs.Signal.Writing

namespace ReactiveDoc.Signal

/-!
# Every operation keeps a graph sound

* `Sound` — every signal is coherent, and signals come from others without circles.
* `Sound.add`, `Sound.reconcile`, `Sound.write`, `Sound.resolve` — adding, reading and writing
  signals and resolving references keep it so.
* `setNode_run`, `resolve_run` — what writing and resolving do to the graph.
* `Sound.answers`, `Sound.seen_ne` — a signal that is up to date has the outcome for those of its
  sources, and has noted other versions if these have.
* `Sound.read`, `Sound.readAll` — reads of one signal, and of several, complete and do not disturb
  what was read before.
-/

variable {P F Φ σ : Type}

/-! ### Ranks -/

/-- A rank that the size of the graph bounds: the number of signals up to the rank of a given one,
    with room for `step - 1` new ones between two of them. -/
def Graph.compact (step : Nat) (rank : SignalId → Nat) (g : Graph P F Φ) (id : SignalId) : Nat :=
  step * (Graph.below rank g id).card

/-- There is still room if ranks are chosen as close as the step allows. -/
structure Behaviour.Regular (b : Behaviour P F Φ) (step : Nat) : Prop where
  step_pos : 0 < step
  room_compact : ∀ {g : Graph P F Φ} {rank source choice id}, id < g.size →
    b.room g rank source choice (rank id) →
      b.room g (g.compact step rank) source choice (g.compact step rank id)

namespace Graph

variable {b : Behaviour P F Φ} {step : Nat} {rank : SignalId → Nat} {g : Graph P F Φ}

theorem compact_add_le (step : Nat) {id t : SignalId} (hlt : id < g.size) (hrank : rank t < rank id) :
    g.compact step rank t + step ≤ g.compact step rank id := by
  have hcard := card_below_lt hlt hrank
  calc step * (below rank g t).card + step = step * ((below rank g t).card + 1) :=
        (Nat.mul_succ ..).symm
    _ ≤ step * (below rank g id).card := Nat.mul_le_mul_left step hcard

theorem Shaped.compact (hs : g.Shaped b rank) (hb : b.Regular step) :
    g.Shaped b (g.compact step rank) := by
  have hlt : ∀ {id t : SignalId}, id < g.size → rank t < rank id →
      g.compact step rank t < g.compact step rank id := by
    intro id t hid hrank
    have hle := compact_add_le step hid hrank
    have hpos := hb.step_pos
    omega
  refine ⟨?_, ?_, ?_, hs.registered, hs.all⟩
  · intro id s hmem
    obtain ⟨hslt, hrank⟩ := hs.upstream id s hmem
    refine ⟨hslt, hlt (g.lt_size_of_form_ne ?_) hrank⟩
    intro hform
    rw [hform] at hmem
    cases hmem
  · intro id inner hi
    obtain ⟨⟨source, choice, p, hform, hch⟩, hinlt, hrank⟩ := hs.inner id inner hi
    exact ⟨⟨source, choice, p, hform, hch⟩, hinlt,
      hlt (g.lt_size_of_form_ne (by rw [hform]; simp)) hrank⟩
  · intro id source choice hform
    exact hb.room_compact (g.lt_size_of_form_ne (by rw [hform]; simp))
      (hs.room id source choice hform)

theorem compact_le (step : Nat) (rank : SignalId → Nat) (g : Graph P F Φ) (id : SignalId) :
    g.compact step rank id ≤ step * g.size :=
  Nat.mul_le_mul_left step (card_below_le rank g id)

end Graph

/-! ### New signals in the graph -/

section

variable {b : Behaviour P F Φ} {step : Nat} {g : Graph P F Φ} {n : Node P F Φ}

theorem fresh_unresolved : (Graph.unresolved : Node P F Φ).Fresh := by
  refine ⟨rfl, rfl, rfl, ?_, ?_, fun _ => rfl⟩
  · intro h
    cases h
  · rintro (h | h) <;> cases h

theorem Grows.refl (g : Graph P F Φ) : Grows g g := by
  refine ⟨Nat.le_refl _, fun _ _ => rfl, fun j hge => ?_⟩
  rw [g.node_of_size_le hge]
  exact fresh_unresolved

theorem Graph.grows_add (hfresh : n.Fresh) : Grows g (g.add n).2 := by
  refine ⟨by rw [g.size_add]; exact Nat.le_succ _, ?_, ?_⟩
  · intro j hj
    rw [g.node_add, if_neg (Nat.ne_of_lt hj)]
  · intro j hge
    rw [g.node_add]
    split
    · exact hfresh
    · rw [g.node_of_size_le hge]
      exact fresh_unresolved

theorem Grows.evolves {g' : Graph P F Φ} (h : Grows g g') : g.Evolves g' := by
  refine ⟨h.size_le, ?_, ?_⟩
  · intro id hform
    rw [h.node_eq id (g.lt_size_of_form_ne hform)]
  · intro id hform
    rw [h.node_eq id (g.lt_size_of_form_ne (by rw [hform]; simp))]

/-- A new signal may have every rank above those of the signals that it comes from. -/
theorem Graph.Shaped.add {rank : SignalId → Nat} (hs : g.Shaped b rank) (hstable : b.Stable)
    (hfresh : n.Fresh) {k : Nat} (hup : ∀ s ∈ n.form.upstream, s < g.size ∧ rank s < k)
    (hroom : ∀ source choice, n.form = .flatMap source choice → b.room g rank source choice k)
    (hall : n.All b.good b.fine) : (g.add n).2.Shaped b (Function.update rank g.size k) := by
  have hrank : ∀ j < g.size, Function.update rank g.size k j = rank j :=
    fun j hj => Function.update_of_ne (Nat.ne_of_lt hj) k rank
  have hgrows := Graph.grows_add (g := g) hfresh
  have hnode : ∀ j, j ≠ g.size → (g.add n).2.node j = g.node j := by
    intro j hj
    rw [g.node_add, if_neg hj]
  have hself : (g.add n).2.node g.size = n := by rw [g.node_add, if_pos rfl]
  have hsize := g.size_add n
  -- Each part holds of the new signal by assumption, and of the others as before.
  refine ⟨?_, ?_, ?_, ?_, ?_⟩
  · intro id s hmem
    rw [hsize]
    by_cases hid : id = g.size
    · rw [hid, hself] at hmem
      obtain ⟨hslt, hlt⟩ := hup s hmem
      rw [hid, Function.update_self, hrank s hslt]
      exact ⟨Nat.lt_succ_of_lt hslt, hlt⟩
    · rw [hnode id hid] at hmem
      obtain ⟨hslt, hlt⟩ := hs.upstream id s hmem
      rw [hrank s hslt, Function.update_of_ne hid]
      exact ⟨Nat.lt_succ_of_lt hslt, hlt⟩
  · intro id inner hi
    rw [hsize]
    by_cases hid : id = g.size
    · rw [hid, hself, hfresh.inner?_eq] at hi
      cases hi
    · rw [hnode id hid] at hi ⊢
      obtain ⟨⟨source, choice, p, hform, hch⟩, hslt, hlt⟩ := hs.inner id inner hi
      rw [hrank _ hslt, Function.update_of_ne hid]
      exact ⟨⟨source, choice, p, hform, hstable.chosen hgrows.evolves hch⟩,
        Nat.lt_succ_of_lt hslt, hlt⟩
  · intro id source choice hform
    by_cases hid : id = g.size
    · rw [hid, hself] at hform
      rw [hid, Function.update_self]
      exact hstable.room hgrows.evolves hrank (hroom source choice hform)
    · rw [hnode id hid] at hform
      rw [Function.update_of_ne hid]
      exact hstable.room hgrows.evolves hrank (hs.room id source choice hform)
  · intro a id hreg
    have hbefore : g.Registered a id := by
      unfold Graph.Registered at hreg ⊢
      by_cases ha : a = g.size
      · rw [ha, hself, hfresh.dependents_eq] at hreg
        cases hreg
      · rwa [hnode a ha] at hreg
    have hd := hs.registered a id hbefore
    rwa [hgrows.node_eq id (g.lt_size_of_isDerived hd)]
  · intro id
    rw [g.node_add]
    split
    · exact hall
    · exact hs.all id

theorem Extends.refl {rank : SignalId → Nat} {k : Nat} (hs : g.Shaped b rank) :
    Extends b k rank rank g g :=
  ⟨.refl g, hs, fun _ _ => rfl, fun _ hge hlt => absurd hlt (Nat.not_lt.mpr hge)⟩

theorem Grows.trans {g' g'' : Graph P F Φ} (h : Grows g g') (h' : Grows g' g'') : Grows g g'' := by
  refine ⟨h.size_le.trans h'.size_le, fun j hj => ?_, fun j hge => ?_⟩
  · rw [h'.node_eq j (Nat.lt_of_lt_of_le hj h.size_le), h.node_eq j hj]
  · by_cases hj : j < g'.size
    · rw [h'.node_eq j hj]
      exact h.fresh j hge
    · exact h'.fresh j (Nat.le_of_not_lt hj)

theorem Extends.trans {rank rank' rank'' : SignalId → Nat} {k : Nat} {g' g'' : Graph P F Φ}
    (h : Extends b k rank rank' g g') (h' : Extends b k rank' rank'' g' g'') :
    Extends b k rank rank'' g g'' := by
  refine ⟨h.grows.trans h'.grows, h'.shaped, fun j hj => ?_, fun j hge hlt => ?_⟩
  · rw [h'.rank_eq j (Nat.lt_of_lt_of_le hj h.grows.size_le), h.rank_eq j hj]
  · by_cases hj : j < g'.size
    · rw [h'.rank_eq j hj]
      exact h.rank_new j hge hj
    · exact h'.rank_new j (Nat.le_of_not_lt hj) hlt

/-- One more signal is added. -/
theorem Extends.add {rank rank' : SignalId → Nat} {k : Nat} {g' : Graph P F Φ}
    (h : Extends b k rank rank' g g') (hstable : b.Stable) (hfresh : n.Fresh) {new : Nat}
    (hup : ∀ s ∈ n.form.upstream, s < g'.size ∧ rank' s < new)
    (hroom : ∀ source choice, n.form = .flatMap source choice → b.room g' rank' source choice new)
    (hall : n.All b.good b.fine) (hnew : new < k) :
    Extends b k rank (Function.update rank' g'.size new) g (g'.add n).2 := by
  refine h.trans ⟨Graph.grows_add hfresh, h.shaped.add hstable hfresh hup hroom hall,
    fun j hj => Function.update_of_ne (Nat.ne_of_lt hj) _ _, fun j hge hlt => ?_⟩
  rw [Graph.size_add] at hlt
  rw [Nat.le_antisymm (Nat.le_of_lt_succ hlt) hge, Function.update_self]
  exact hnew

end

/-! ### Soundness -/

section

variable [Carrier P] {b : Behaviour P F Φ} {step : Nat} {g : Graph P F Φ} {n : Node P F Φ}

/-- Every signal is coherent, and signals come from others without circles. -/
structure Sound (b : Behaviour P F Φ) (g : Graph P F Φ) : Prop where
  shaped : ∃ rank, g.Shaped b rank
  coherent : Coherent b g

theorem Sound.exists_rank (h : Sound b g) (hb : b.Regular step) :
    ∃ rank, g.Shaped b rank ∧ ∀ id, rank id ≤ step * g.size := by
  obtain ⟨rank, hs⟩ := h.shaped
  exact ⟨g.compact step rank, hs.compact hb, g.compact_le step rank⟩

/-- The empty graph is sound. -/
theorem sound_empty : Sound b ({} : Graph P F Φ) := by
  have hnode : ∀ id, ({} : Graph P F Φ).node id = Graph.unresolved :=
    fun id => Graph.node_of_size_le _ (Nat.zero_le _)
  refine ⟨⟨fun _ => 0, ?_, ?_, ?_, ?_, .empty⟩, fun id => coherentAt_of_size_le (Nat.zero_le _)⟩
  · intro id s hmem
    rw [hnode] at hmem
    cases hmem
  · intro id inner hi
    rw [hnode] at hi
    cases hi
  · intro id source choice hform
    rw [hnode] at hform
    cases hform
  · intro a id hreg
    exact absurd (Graph.lt_size_of_registered hreg) (Nat.not_lt_zero _)

/-- New signals leave the graph sound. -/
theorem Sound.grow (hstable : b.Stable) (h : Sound b g) {g' : Graph P F Φ} {rank rank' : SignalId → Nat}
    (hs : g.Shaped b rank) (hgrows : Grows g g') (hs' : g'.Shaped b rank') : Sound b g' := by
  refine ⟨⟨rank', hs'⟩, fun id => ?_⟩
  by_cases hid : id < g.size
  · exact (hgrows.frame hs hs').coherentAt hs hstable (h.coherent id) hid (.inl fun hfalse => hfalse)
  · exact coherentAt_of_fresh (hgrows.fresh id (Nat.le_of_not_lt hid))

/-- A new signal leaves the graph sound. -/
theorem Sound.add (hstable : b.Stable) (hb : b.Regular step) (h : Sound b g) (hfresh : n.Fresh)
    (hup : ∀ s ∈ n.form.upstream, s < g.size)
    (hroom : ∀ source choice, n.form = .flatMap source choice →
      ∀ rank, (∀ j, rank j ≤ step * g.size) →
        b.room g rank source choice (step * (g.size + 1)))
    (hall : n.All b.good b.fine) : Sound b (g.add n).2 := by
  obtain ⟨rank, hs, hle⟩ := h.exists_rank hb
  -- The new signal is above all others.
  refine h.grow hstable hs (Graph.grows_add hfresh) (hs.add hstable hfresh
    (k := step * (g.size + 1)) ?_ (fun source choice hform => hroom source choice hform rank hle) hall)
  intro s hmem
  refine ⟨hup s hmem, ?_⟩
  calc rank s ≤ step * g.size := hle s
    _ < step * (g.size + 1) := Nat.mul_lt_mul_of_pos_left (Nat.lt_succ_self _) hb.step_pos

/-! ### Reading -/

/-- With more depth than signals, every signal is brought up to date, and the graph stays sound. -/
theorem Sound.reconcile (hstable : b.Stable) (hb : b.Regular step) {r : Rules P F Φ σ} {d : Nat}
    (hr : Reconciles b r d) {w : World P F Φ σ} (h : Sound b w.graph) {id : SignalId}
    (hid : id < w.graph.size) (hd : step * w.graph.size < d) :
    ∃ w', r.reconcile id w = .ok ((), w') ∧ Sound b w'.graph ∧
      Frame (fun _ => True) w.graph w'.graph ∧ (¬ b.adds → w'.graph.size = w.graph.size) ∧
      w'.graph.UpToDate (w'.graph.anchor id) := by
  obtain ⟨rank, hs, hle⟩ := h.exists_rank hb
  have hdepth : rank (w.graph.anchor id) < d := Nat.lt_of_le_of_lt (hle _) hd
  obtain ⟨w', rank', hrun, hprogress, hmine, hup⟩ := hr hs hid hdepth
    (fun j _ => h.coherent j) (h.coherent _)
  have hframe : Frame (fun _ => True) w.graph w'.graph :=
    hprogress.frame.mono fun _ _ _ => trivial
  refine ⟨w', hrun, ⟨⟨rank', hprogress.shaped⟩, ?_⟩, hframe, hprogress.size_eq, ?_⟩
  · exact fun j => hprogress.coherentAt hstable hs hmine fun _ => h.coherent j
  · rwa [hprogress.frame.anchor_eq id hid]

end

/-! ### Writing -/

section

variable [Carrier P] {b : Behaviour P F Φ} {g : Graph P F Φ}

/-- The graph after a cell was written: nothing happens if it has the outcome already. -/
def Graph.written (g : Graph P F Φ) (c : SignalId) (o : Outcome P) : Graph P F Φ :=
  if (g.node c).memo.holds o then g
  else g.retold c { g.node c with memo := (g.node c).memo.store o }

/-- A cell that is written leaves the graph sound, if all that depends on it hears of it. -/
theorem Sound.write (hstable : b.Stable) (h : Sound b g) {c : SignalId}
    (hcell : (g.node c).form = .cell) (hatt : Attentive g c) {o : Outcome P} (ho : Good b.good o) :
    Sound b (g.written c o) := by
  unfold Graph.written
  split
  · exact h
  · obtain ⟨rank, hs⟩ := h.shaped
    have hlt : c < g.size := g.lt_size_of_form_ne (by rw [hcell]; simp)
    have hahead := (g.node c).memo.ahead_store o
    have hpos := ((h.coherent c).given (.inr hcell)).2
    have hall := (hs.all c).store ho
    exact ⟨⟨rank, hs.retold hstable (by rw [hcell]; simp) rfl rfl hall hlt⟩,
      h.coherent.retold hs hstable hcell rfl rfl hahead (Memo.isSome_store _ o)
        (Nat.lt_of_lt_of_le hpos hahead.version_le) hall hatt⟩

omit [Carrier P] in
/-- A change of a signal only matters for what the signal is. -/
theorem Graph.modify_congr {id : SignalId} {f f' : Node P F Φ → Node P F Φ}
    (h : f (g.node id) = f' (g.node id)) : g.modify id f = g.modify id f' := by
  have hnodes : g.nodes.modify id f = g.nodes.modify id f' := by
    apply Array.ext
    · simp
    · intro i hi _
      simp only [Array.size_modify] at hi
      simp only [Array.getElem_modify]
      split
      · rename_i hid
        have hnode : g.nodes[i] = g.node id := by
          unfold node
          rw [hid, Array.getD_eq_getD_getElem?, Array.getElem?_eq_getElem hi]
          rfl
        rw [hnode, h]
      · rfl
  unfold modify
  rw [hnodes]

omit [Carrier P] in
/-- A change of a signal, and then another, are one change. -/
theorem Graph.modify_modify (g : Graph P F Φ) (id : SignalId) (f f' : Node P F Φ → Node P F Φ) :
    (g.modify id f).modify id f' = g.modify id fun n => f' (f n) := by
  have hnodes : (g.nodes.modify id f).modify id f' = g.nodes.modify id fun n => f' (f n) := by
    apply Array.ext
    · simp
    · intro i _ _
      simp only [Array.getElem_modify]
      split <;> rfl
  unfold modify
  simp only [hnodes]

/-- A cell is written, and tells its dependents unless it had the outcome already. -/
theorem setCell_eq {w : World P F Φ σ} {c : SignalId} (hcell : (w.graph.node c).form = .cell)
    (o : Outcome P) : setCell c o w = .ok ((), w.put (w.graph.written c o)) := by
  show Except.ok ((), w.put (if (w.graph.node c).memo.holds o then w.graph
    else (w.graph.modify c fun n => { n with memo := n.memo.store o }).notify c)) = _
  unfold Graph.written
  split
  · rfl
  · have hlt : c < w.graph.size := w.graph.lt_size_of_form_ne (by rw [hcell]; simp)
    have hself : w.graph.anchor c = c := Graph.anchor_of_target?_none (by rw [hcell]; rfl)
    have hanchor : (w.graph.modify c fun n => { n with memo := n.memo.store o }).anchor c = c :=
      (Becomes.modify w.graph hlt fun n => { n with memo := n.memo.store o }).anchor_eq rfl c
        |>.trans hself
    unfold Graph.notify
    simp only [hanchor, Graph.modify_modify]
    unfold Graph.retold
    rw [Graph.node_modify_self _ _ hlt]
    congr 4
    apply Graph.modify_congr
    rfl

/-- Writing goes through labels and references to a cell, and fails for everything else but maps
    that can be set. -/
theorem setNode_run {r : Rules P F Φ σ} {w : World P F Φ σ} (h : Sound b w.graph) (id : SignalId)
    (hreadOnly : ∀ source steps inverse,
      (w.graph.node (w.graph.anchor id)).form ≠ .map source steps (.writable inverse))
    (o : Outcome P) :
    setNode r id o w = match (w.graph.node (w.graph.anchor id)).form with
      | .cell => .ok (.ok (), w.put (w.graph.written (w.graph.anchor id) o))
      | .reference none => .ok (.error .unresolvedRef, w)
      | form => .ok (.error (.readOnly form.kind), w) := by
  obtain ⟨rank, hs⟩ := h.shaped
  have htarget := Graph.target?_anchor hs.descends id
  unfold setNode
  simp only [graph_bind_run]
  generalize w.graph.anchor id = c at htarget hreadOnly
  cases hform : (w.graph.node c).form with
  | cell =>
    simp only
    rw [bind_run (setCell_eq hform o)]
    rfl
  | constant => rfl
  | lift source => rfl
  | flatMap source choice => rfl
  | join sources => rfl
  | map source steps role =>
    cases role with
    | readOnly uniform => rfl
    | writable inverse => exact absurd hform (hreadOnly source steps inverse)
  | label name source =>
    rw [hform] at htarget
    cases htarget
  | reference target? =>
    cases target? with
    | none => rfl
    | some target =>
      rw [hform] at htarget
      cases htarget

/-! ### Resolving -/

omit [Carrier P] in
/-- Resolving works once, and for references only. -/
theorem resolve_run (w : World P F Φ σ) (id target : SignalId) :
    resolve id target w = match (w.graph.node id).form with
      | .reference none => .ok (.ok (), w.put (w.graph.retold id (Node.resolved target)))
      | .reference (some _) => .ok (.error .alreadyResolved, w)
      | _ => .ok (.error .notAReference, w) := by
  unfold resolve
  simp only [graph_bind_run]
  unfold Graph.resolve
  cases hform : (w.graph.node id).form with
  | reference target? =>
    cases target? with
    | none => rfl
    | some target => rfl
  | _ => rfl

omit [Carrier P] in
theorem Graph.descends_resolved {rank : SignalId → Nat} {r t : SignalId} (hlt : r < g.size)
    (hd : (g.modify r fun _ => Node.resolved t).Descends rank) :
    (g.retold r (Node.resolved t)).Descends rank := by
  intro id s hmem
  apply hd id s
  by_cases hid : id = r
  · rw [hid, Graph.form_resolved hlt] at hmem
    rw [hid, g.node_modify_self _ hlt]
    exact hmem
  · rw [Graph.form_retold _ hid] at hmem
    rwa [g.node_modify_of_ne _ hid]

omit [Carrier P] in
/-- A reference may get a target if signals still come from, follow and may follow signals of
    lower rank only. -/
theorem Graph.Shaped.resolved {rank rank' : SignalId → Nat} (hs : g.Shaped b rank)
    (hstable : b.Stable) {r t : SignalId} (hwait : (g.node r).form = .reference none)
    (hlt : r < g.size) (htlt : t < g.size)
    (hd' : (g.modify r fun _ => Node.resolved t).Descends rank')
    (hinner' : ∀ id inner, (g.node id).inner? = some inner → rank' inner.signal < rank' id)
    (hroom' : ∀ id source choice, (g.node id).form = .flatMap source choice →
      b.room g rank' source choice (rank' id)) :
    (g.retold r (Node.resolved t)).Shaped b rank' := by
  have hsize := g.size_retold r (Node.resolved t)
  have hself := Graph.form_resolved (t := t) hlt
  have hev := Graph.evolves_resolved hs hwait (t := t)
  have hnew : (Node.resolved t : Node P F Φ).All b.good b.fine :=
    ⟨fun _ ho => (nomatch ho), fun _ _ _ hform => nomatch hform⟩
  -- Only the form of the reference is new; what signals follow and who is registered is as before.
  refine ⟨?_, ?_, ?_, ?_, hs.all.retold hnew hlt⟩
  · intro id s hmem
    refine ⟨?_, Graph.descends_resolved hlt hd' id s hmem⟩
    rw [hsize]
    by_cases hid : id = r
    · rw [hid, hself] at hmem
      rwa [List.mem_singleton.mp hmem]
    · rw [Graph.form_retold _ hid] at hmem
      exact hs.upstream_lt id s hmem
  · intro id inner hi
    rw [hsize]
    by_cases hid : id = r
    · rw [hid] at hi
      rcases Graph.node_retold_self (Node.resolved t) hlt with hn | hn <;> rw [hn] at hi <;> cases hi
    · by_cases hidlt : id < g.size
      · have hbefore : (g.node id).inner? = some inner := by
          rcases g.node_retold_cases (Node.resolved t) hid hidlt with ⟨-, hn⟩ | ⟨-, hn⟩ <;>
            rw [hn] at hi
          · exact hi
          · exact hi
        obtain ⟨⟨source, choice, p, hf, hch⟩, hinlt, -⟩ := hs.inner id inner hbefore
        exact ⟨⟨source, choice, p, (Graph.form_retold _ hid).trans hf,
          hstable.chosen hev hch⟩, hinlt, hinner' id inner hbefore⟩
      · rw [Graph.node_of_size_le _ (by rw [hsize]; exact Nat.le_of_not_lt hidlt)] at hi
        cases hi
  · intro id source choice hf
    by_cases hid : id = r
    · rw [hid, hself] at hf
      cases hf
    · rw [Graph.form_retold _ hid] at hf
      exact hstable.room hev (fun _ _ => rfl) (hroom' id source choice hf)
  · intro a id hreg
    have hd := hs.registered a id (Graph.registered_of_retold hlt hreg)
    have hid : id ≠ r := by
      rintro rfl
      rw [hwait] at hd
      cases hd
    rwa [Graph.form_retold _ hid]

/-- A reference that gets a target leaves the graph sound, if this makes no circle, all that
    depends on it hears of it, and no flat map mistakes the target. -/
theorem Sound.resolve (hstable : b.Stable) (h : Sound b g) {r t : SignalId}
    (hwait : (g.node r).form = .reference none) (hlt : r < g.size) (htlt : t < g.size)
    {rank' : SignalId → Nat} (hs' : (g.retold r (Node.resolved t)).Shaped b rank')
    (hatt : Attentive g r) (htells : TellsApart g r t) :
    Sound b (g.retold r (Node.resolved t)) := by
  obtain ⟨rank, hs⟩ := h.shaped
  exact ⟨⟨rank', hs'⟩, h.coherent.resolved hs hstable hwait hlt htlt hs' hatt htells⟩

end

/-! ### Signals that are up to date -/

section

variable [Carrier P] {b : Behaviour P F Φ} {g : Graph P F Φ} {id : SignalId}

/-- A signal that is up to date answers its sources, which are up to date as well. -/
theorem Sound.answers (h : Sound b g) (hd : (g.node id).form.isDerived = true)
    (hup : g.UpToDate id) : b.Answers g (g.node id) ∧
      ∀ s ∈ (g.node id).form.upstream, g.UpToDate (g.anchor s) := by
  obtain ⟨rank, hs⟩ := h.shaped
  have hset := (h.coherent id).settled hd (hup hd)
  refine ⟨(h.coherent id).answers hd hset.computed hset.seen_eq fun s hmem => ?_, hset.upToDate⟩
  exact (h.coherent _).isSome (Graph.target?_anchor hs.descends s) (hset.upToDate s hmem)

/-- Of sources with other versions than before a signal has noted others, once it is up to date
    again. -/
theorem Sound.seen_ne {g' : Graph P F Φ} {source : SignalId} (h : Sound b g) (h' : Sound b g')
    (hform : (g'.node id).form = (g.node id).form) (hd : (g.node id).form.isDerived = true)
    (hup : g.UpToDate id) (hup' : g'.UpToDate id) (hsource : source ∈ (g.node id).form.upstream)
    (hversion : g.version source ≠ g'.version source) : (g'.node id).seen ≠ (g.node id).seen := by
  have hd' : (g'.node id).form.isDerived = true := hform ▸ hd
  rw [((h.coherent id).settled hd (hup hd)).seen_eq,
    ((h'.coherent id).settled hd' (hup' hd')).seen_eq, hform]
  intro heq
  exact hversion (List.map_inj_left.mp heq source hsource).symm

section

variable {step d : Nat} {r : Rules P F Φ σ} {w : World P F Φ σ} (hstable : b.Stable)
  (hb : b.Regular step) (hr : Reconciles b r d) (h : Sound b w.graph)
  (hd : step * w.graph.size < d)

include hstable hb hr h hd

/-- A read completes, with what the signal is up to date with. -/
theorem Sound.read (hid : id < w.graph.size) :
    ∃ w', r.read id w = .ok (w'.graph.value id, w') ∧ Sound b w'.graph ∧
      Frame (fun _ => True) w.graph w'.graph ∧ (¬ b.adds → w'.graph.size = w.graph.size) ∧
      w'.graph.UpToDate (w'.graph.anchor id) := by
  obtain ⟨w', hrun, hsound, hframe, hsize, hup⟩ := h.reconcile hstable hb hr hid hd
  refine ⟨w', ?_, hsound, hframe, hsize, hup⟩
  unfold Rules.read
  exact bind_run hrun

/-- So do several reads where these add no signals; what was read first is not disturbed by the
    others. -/
theorem Sound.readAll (hadds : ¬ b.adds) (ids : List SignalId)
    (hids : ∀ id ∈ ids, id < w.graph.size) :
    ∃ w', ids.mapM r.read w = .ok (ids.map w'.graph.value, w') ∧ Sound b w'.graph ∧
      Frame (fun _ => True) w.graph w'.graph ∧
      ∀ id ∈ ids, w'.graph.UpToDate (w'.graph.anchor id) := by
  induction ids generalizing w with
  | nil => exact ⟨w, rfl, h, .refl _ _, fun _ hmem => nomatch hmem⟩
  | cons id ids ih =>
    have hid := hids id List.mem_cons_self
    obtain ⟨w₁, hrun₁, hsound₁, hframe₁, hsize₁, hup₁⟩ := h.read hstable hb hr hd hid
    have hsize₁ := hsize₁ hadds
    obtain ⟨w', hrun, hsound, hframe, hup⟩ := ih hsound₁ (hsize₁ ▸ hd)
      fun s hs => hsize₁ ▸ hids s (List.mem_cons_of_mem id hs)
    obtain ⟨rank₁, hs₁⟩ := hsound₁.shaped
    have hid₁ : id < w₁.graph.size := hsize₁ ▸ hid
    refine ⟨w', ?_, hsound, hframe₁.trans hframe fun _ _ _ => trivial, fun s hs => ?_⟩
    · rw [List.mapM_cons, bind_run hrun₁, bind_run hrun, List.map_cons,
        hframe.value_eq hs₁ hid₁ hup₁]
      rfl
    · rcases List.mem_cons.mp hs with rfl | hs
      · exact hframe.upToDate_anchor hs₁ hid₁ hup₁
      · exact hup s hs

end

/-! ### Images -/

omit [Carrier P] in
/-- Steps and then others: there is an outcome in between. -/
theorem Behaviour.Images.append_inv {steps steps' : List F} {o o' : Outcome P}
    (h : b.Images (steps ++ steps') o o') : ∃ o₁, b.Images steps o o₁ ∧ b.Images steps' o₁ o' := by
  induction steps generalizing o with
  | nil => exact ⟨o, .nil o, h⟩
  | cons f steps ih =>
    cases h with
    | failed h =>
      obtain ⟨o₁, h₁, h'⟩ := ih h
      exact ⟨o₁, .failed h₁, h'⟩
    | step himage h =>
      obtain ⟨o₁, h₁, h'⟩ := ih h
      exact ⟨o₁, .step himage h₁, h'⟩

end

end ReactiveDoc.Signal
