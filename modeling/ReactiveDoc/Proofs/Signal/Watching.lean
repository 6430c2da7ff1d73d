import Mathlib
import ReactiveDoc.Proofs.Signal.Alerting

namespace ReactiveDoc.Signal

/-!
# Watchers lose no change

* `Updates.agree` — a signal that is brought up to date has one outcome, whoever watches.
* `Graph.silence`, `Graph.note`, `poll_run` — what a poll does.
* `Watched` — what is known of a watcher, by the last outcome that it was told of.
* `Observed` — requests, new watchers and polls in any order, and what watchers were told.
* `poll_loses_nothing` — the next poll tells of any outcome but the last one.
-/

variable {P F Φ σ : Type}

/-! ### What a poll does -/

namespace Graph

variable {g : Graph P F Φ} {s : SignalId} {k : Nat}

/-- The watcher is not pending any more. -/
def silence (g : Graph P F Φ) (k : Nat) : Graph P F Φ :=
  { g with watchers := g.watchers.modify k fun o => { o with pending := false } }

/-- The watcher has seen the version. -/
def note (g : Graph P F Φ) (k version : Nat) : Graph P F Φ :=
  { g with watchers := g.watchers.modify k fun o => { o with seen := version } }

theorem alike_silence (g : Graph P F Φ) (k : Nat) : g.Alike (g.silence k) :=
  .of_node_eq rfl fun _ => rfl

theorem alike_note (g : Graph P F Φ) (k version : Nat) : g.Alike (g.note k version) :=
  .of_node_eq rfl fun _ => rfl

/-- A watcher registers. -/
theorem alike_depend (g : Graph P F Φ) (s : SignalId) (k : Nat) :
    g.Alike (g.depend s (.watcher k)) := by
  refine ⟨g.size_depend s _, g.node_depend s _, fun a j => ?_⟩
  unfold Registered depend
  rw [node_modify]
  split
  · rename_i heq
    rw [heq.1]
    split
    · exact Iff.rfl
    · simp
  · exact Iff.rfl

/-- Then it attends to the signal, if that can change. -/
theorem attends_depend (hlt : g.anchor s < g.size)
    (hrem : (g.node (g.anchor s)).form.remembers = true) :
    (g.depend s (.watcher k)).Attends k (g.anchor s) := by
  unfold Attends depend
  rw [node_modify_self g _ hlt]
  split
  · rename_i h
    simp only [hrem, Bool.not_true, Bool.false_or, List.contains_iff_mem] at h
    exact h
  · exact List.mem_append_right _ (List.mem_singleton_self _)

end Graph

variable [Carrier P] {fn : F → P → Outcome P} {inv : F → P → P} {codes : Codes P F Φ σ}
  {r : Rules P F Φ σ} {w w' w₀ w₁ w₂ : World P F Φ σ} {id : SignalId} {k d : Nat} {o : Watcher}

omit [Carrier P] in
/-- A watcher that is pending is told of the outcome if its signal turns out to have another
    version. -/
theorem poll_run (hw : w.graph.watchers[k]? = some o) (hpending : o.pending = true)
    (hrun : r.reconcile o.source (w.put (w.graph.silence k)) = .ok ((), w₁))
    (hkept : w₁.graph.watchers[k]? = some { o with pending := false }) :
    r.poll k w = .ok (if o.seen = w₁.graph.version o.source then none
      else some (w₁.graph.value o.source),
      w₁.put ((w₁.graph.depend o.source (.watcher k)).note k (w₁.graph.version o.source))) := by
  have hsame := w₁.graph.alike_depend o.source k
  have hknown : (w₁.graph.depend o.source (.watcher k)).watchers[k]?.map Watcher.seen
      = some o.seen := by
    show w₁.graph.watchers[k]?.map Watcher.seen = _
    rw [hkept]
    rfl
  unfold Graph.silence at hrun
  unfold Rules.poll
  rw [graph_bind_run, hw]
  simp only [hpending, if_true]
  rw [update_bind_run, bind_run hrun]
  simp only [update_bind_run, graph_bind_run, World.put_graph, hknown, hsame.version_eq,
    hsame.value_eq, Option.some.injEq]
  split <;> rfl

omit [Carrier P] in
theorem poll_run_of_rest (hw : w.graph.watchers[k]? = some o) (hpending : o.pending = false) :
    r.poll k w = .ok (none, w) := by
  unfold Rules.poll
  rw [graph_bind_run, hw]
  simp only [hpending]
  rfl

/-! ### What is known of watchers -/

/-- A signal that is brought up to date has one outcome and version, whoever watches. -/
theorem Updates.agree (hintact : Intact fn w.graph) (hsame : w.graph.Alike w₀.graph)
    (h : Updates fn id w w₁) (h' : Updates fn id w₀ w₂) (hintact₁ : Intact fn w₁.graph)
    (hintact₂ : Intact fn w₂.graph) : w₂.graph.value id = w₁.graph.value id ∧
      w₂.graph.version id = w₁.graph.version id := by
  obtain ⟨rank, hs, hle⟩ := hintact.sound.exists_rank Behaviour.lenient_regular
  have hle := hle (w.graph.anchor id)
  obtain ⟨ran₁, hreach₁⟩ := h.reaches rank hs (by omega)
  obtain ⟨ran₂, hreach₂⟩ := h'.reaches rank (hsame.shaped hs) (by
    rw [hsame.anchor_eq, hsame.size_eq]
    omega)
  have hmoved₁ : Moved (fun steps o o' => o' = imageOf fn steps o) w.graph w₁.graph ran₁ :=
    hreach₁.moves.moved fun _ _ _ _ _ h => h.1
  have hmoved₂ : Moved (fun steps o o' => o' = imageOf fn steps o) w₀.graph w₂.graph ran₂ :=
    hreach₂.moves.moved fun _ _ _ _ _ h => h.1
  have hanchor : w₂.graph.anchor id = w₁.graph.anchor id := by
    rw [hmoved₂.anchor_eq, hsame.anchor_eq, hmoved₁.anchor_eq]
  have hup₂ := h'.upToDate
  rw [hanchor] at hup₂
  obtain ⟨houtcome, hversion⟩ := Moved.agree hsame hmoved₁ hmoved₂ hs hintact₁.sound.coherent
    hintact₂.sound.coherent _ h.upToDate hup₂
  unfold Graph.value Graph.version Memo.read
  rw [hanchor, houtcome, hversion]
  exact ⟨rfl, rfl⟩

/-- What is known of a watcher that was last told of an outcome, if of any: unless it is pending,
    its signal is up to date, has the version that it has seen, and will tell it of the next
    change.  What it was told of is the outcome for that version. -/
structure Watched (g : Graph P F Φ) (last : Option (Outcome P)) (k : Nat) (o : Watcher) : Prop where
  source_lt : o.source < g.size
  awaits : o.pending = false → g.Awaits k (g.anchor o.source) ∧ g.version o.source = o.seen
  told : ∀ p, last = some p → ∃ m : Memo P, m.outcome? = some p ∧ m.version = o.seen ∧
    m.Ahead (g.node (g.anchor o.source)).memo

namespace Watched

variable {g g' : Graph P F Φ} {last : Option (Outcome P)} {p : Outcome P}

omit [Carrier P] in
/-- It stays known while watchers are told of what changes. -/
theorem alerts (h : Watched g last k o) (halerts : Alerts g g') {o' : Watcher}
    (hw : g.watchers[k]? = some o) (hw' : g'.watchers[k]? = some o') : Watched g' last k o' := by
  obtain ⟨told, heq⟩ := halerts.watcher k
  have ho : o' = o.alerted told := by
    rw [hw, hw'] at heq
    exact Option.some.inj heq
  subst ho
  refine ⟨Nat.lt_of_lt_of_le h.source_lt halerts.size_le, fun hpending => ?_, fun p hp => ?_⟩
  · obtain ⟨hawaits, hversion⟩ := h.awaits (Bool.or_eq_false_iff.mp hpending).1
    obtain ⟨hanchor, hawaits', hmemo⟩ :=
      halerts.kept k _ hw' hpending o.source h.source_lt hawaits
    refine ⟨hanchor.symm ▸ hawaits', ?_⟩
    show g'.version o.source = o.seen
    rw [← hversion]
    unfold Graph.version
    rw [hanchor, hmemo]
  · obtain ⟨m, hm, hversion, hahead⟩ := h.told p hp
    exact ⟨m, hm, hversion, hahead.trans (halerts.ahead o.source h.source_lt)⟩

omit [Carrier P] in
theorem of_node_eq (h : Watched g last k o) (hsize : g'.size = g.size)
    (hnode : ∀ j, g'.node j = g.node j) : Watched g' last k o := by
  have hsame := Graph.Alike.of_node_eq hsize hnode
  refine ⟨hsize ▸ h.source_lt, fun hpending => ?_, fun p hp => ?_⟩
  · obtain ⟨hawaits, hversion⟩ := h.awaits hpending
    rw [hsame.anchor_eq, hsame.version_eq]
    exact ⟨hawaits.congr (hnode _), hversion⟩
  · rw [hsame.anchor_eq, hnode]
    exact h.told p hp

omit [Carrier P] in
/-- As long as the signal has the version that was seen, its outcome is the one that was told. -/
theorem value_eq (h : Watched g last k o) (hlast : last = some p)
    (hahead : (g.node (g.anchor o.source)).memo.Ahead (g'.node (g'.anchor o.source)).memo)
    (hversion : g'.version o.source = o.seen) (hcomputed : g'.Computed o.source) :
    g'.value o.source = p := by
  obtain ⟨m, hm, hseen, hbefore⟩ := h.told p hlast
  have heq := (hbefore.trans hahead).outcome?_eq (hversion.trans hseen.symm) hcomputed
  unfold Graph.value Memo.read
  rw [heq, hm]
  rfl

/-- After a poll the watcher waits for the next change, and was told what its signal has. -/
theorem polled (h : Watched g last k o) (halerts : Alerts (g.silence k) g') (hintact : Intact fn g')
    (hup : g'.UpToDate (g'.anchor o.source)) :
    Watched ((g'.depend o.source (.watcher k)).note k (g'.version o.source))
      ((if o.seen = g'.version o.source then none else some (g'.value o.source)).or last) k
      { o with pending := false, seen := g'.version o.source } := by
  obtain ⟨rank, hs⟩ := hintact.sound.shaped
  have hlt : o.source < g'.size := Nat.lt_of_lt_of_le h.source_lt halerts.size_le
  have hsame := (g'.alike_depend o.source k).trans (Graph.alike_note _ k (g'.version o.source))
  refine ⟨hsame.size_eq.symm ▸ hlt, fun _ => ⟨⟨?_, fun hrem => ?_⟩, hsame.version_eq _⟩,
    fun p hp => ?_⟩
  · rw [hsame.anchor_eq]
    exact hsame.upToDate_iff.mpr hup
  · rw [hsame.anchor_eq] at hrem ⊢
    rw [(hsame.node_eq _).1] at hrem
    exact Graph.attends_depend (hs.anchor_lt hlt) hrem
  · rw [hsame.anchor_eq, (hsame.node_eq _).2.1]
    split at hp
    · rename_i hversion
      obtain ⟨m, hm, hseen, hahead⟩ := h.told p hp
      have hlater := halerts.ahead o.source h.source_lt
      rw [(g.alike_silence k).anchor_eq, ((g.alike_silence k).node_eq _).2.1] at hlater
      exact ⟨m, hm, hseen.trans hversion, hahead.trans hlater⟩
    · have hsome := (hintact.sound.coherent _).isSome (Graph.target?_anchor hs.descends o.source) hup
      cases hp
      refine ⟨(g'.node (g'.anchor o.source)).memo, ?_, rfl, .refl _⟩
      obtain ⟨p, hp⟩ := Option.isSome_iff_exists.mp hsome
      unfold Graph.value Memo.read
      rw [hp]
      rfl

end Watched

/-! ### Polls of intact graphs -/

/-- A watcher that is pending is polled: its signal is brought up to date, and it is told of the
    outcome if that has another version than the last one. -/
theorem Intact.poll (h : Intact fn w.graph) (hpure : codes.Pure fn inv)
    (hd : w.graph.size < d) (hw : w.graph.watchers[k]? = some o) (hpending : o.pending = true)
    (hsource : o.source < w.graph.size) :
    ∃ w₁, Updates fn o.source (w.put (w.graph.silence k)) w₁ ∧ Intact fn w₁.graph ∧
      w₁.graph.watchers = (w.graph.silence k).watchers ∧
      (Rules.ofCodes codes d).poll k w =
        .ok (if o.seen = w₁.graph.version o.source then none
          else some (w₁.graph.value o.source),
          w₁.put ((w₁.graph.depend o.source (.watcher k)).note k (w₁.graph.version o.source))) := by
  have hsame := w.graph.alike_silence k
  have hintact₀ : Intact fn (w.put (w.graph.silence k)).graph := h.alike hsame
  obtain ⟨w₁, hrun, hintact₁, hupdates⟩ := hintact₀.updates hpure hd hsource
  have hwatchers : w₁.graph.watchers = (w.graph.silence k).watchers := by
    obtain ⟨rank, hs, hle⟩ := hintact₀.sound.exists_rank Behaviour.lenient_regular
    have hle := hle ((w.put (w.graph.silence k)).graph.anchor o.source)
    obtain ⟨ran, hreach⟩ := hupdates.reaches rank hs (by omega)
    exact hreach.moves.watchers.1
  refine ⟨w₁, hupdates, hintact₁, hwatchers, poll_run hw hpending hrun ?_⟩
  rw [hwatchers]
  unfold Graph.silence
  simp only [Array.getElem?_modify, if_true, hw]
  rfl

/-! ### Every order of requests, new watchers and polls -/

/-- The worlds that requests, new watchers and polls lead to, and what each watcher was last told.
    No request makes a circle or is for a flat map. -/
inductive Observed (codes : Codes P F Φ σ) :
    World P F Φ σ → (Nat → Option (Outcome P)) → Prop
  | start {w : World P F Φ σ} (hempty : w.graph = {}) : Observed codes w fun _ => none
  | request {w w' : World P F Φ σ} {last : Nat → Option (Outcome P)} {answer : Answer P}
      (request : Request P F Φ) (depth : Nat) (h : Observed codes w last)
      (hfits : request.Fits w.graph) (hdepth : w.graph.size < depth)
      (hrun : request.run (.ofCodes codes depth) w = .ok (answer, w')) : Observed codes w' last
  | watch {w : World P F Φ σ} {last : Nat → Option (Outcome P)} (source : SignalId)
      (h : Observed codes w last) (hsource : source < w.graph.size) :
      Observed codes (w.put (w.graph.watch source).2) last
  | poll {w w' : World P F Φ σ} {last : Nat → Option (Outcome P)}
      {delivery : Option (Outcome P)} (k depth : Nat) (h : Observed codes w last)
      (hdepth : w.graph.size < depth)
      (hrun : (Rules.ofCodes codes depth).poll k w = .ok (delivery, w')) :
      Observed codes w' fun j => if j = k then delivery.or (last j) else last j

/-- The graph is intact, and what is known of watchers holds of each. -/
structure Attended (fn : F → P → Outcome P) (g : Graph P F Φ)
    (last : Nat → Option (Outcome P)) : Prop where
  intact : Intact fn g
  watched : ∀ (k : Nat) (o : Watcher), g.watchers[k]? = some o → Watched g (last k) k o
  unknown : ∀ k : Nat, g.watchers[k]? = none → last k = none

namespace Attended

variable {g g' : Graph P F Φ} {last : Nat → Option (Outcome P)}

theorem alerts (h : Attended fn g last) (hintact : Intact fn g') (halerts : Alerts g g') :
    Attended fn g' last := by
  refine ⟨hintact, fun k o' hw' => ?_, fun k hnone => ?_⟩
  · obtain ⟨told, heq⟩ := halerts.watcher k
    rw [hw'] at heq
    obtain ⟨o, hw, -⟩ := Option.map_eq_some_iff.mp heq.symm
    exact (h.watched k o hw).alerts halerts hw hw'
  · obtain ⟨told, heq⟩ := halerts.watcher k
    rw [hnone] at heq
    exact h.unknown k (Option.map_eq_none_iff.mp heq.symm)

/-- A new watcher is pending, and was told nothing. -/
theorem watch (h : Attended fn g last) {source : SignalId} (hsource : source < g.size) :
    Attended fn (g.watch source).2 last := by
  have hsame : g.Alike (g.watch source).2 := .of_node_eq rfl fun _ => rfl
  refine ⟨h.intact.alike hsame, fun k o hw => ?_, fun k hnone => ?_⟩
  · rw [Graph.watch, Array.getElem?_push] at hw
    split at hw
    · rename_i hk
      cases hw
      refine ⟨hsource, nofun, fun p hp => ?_⟩
      rw [h.unknown k (by rw [hk]; simp)] at hp
      cases hp
    · exact (h.watched k o hw).of_node_eq rfl fun _ => rfl
  · rw [Graph.watch, Array.getElem?_push] at hnone
    split at hnone
    · cases hnone
    · exact h.unknown k hnone

/-- A poll leaves the watcher not pending, and it has been told of what its signal has. -/
theorem poll (h : Attended fn w.graph last) (hpure : codes.Pure fn inv) (hd : w.graph.size < d)
    {delivery : Option (Outcome P)}
    (hrun : (Rules.ofCodes codes d).poll k w = .ok (delivery, w')) :
    Attended fn w'.graph fun j => if j = k then delivery.or (last j) else last j := by
  have hsilent (hrun' : (Rules.ofCodes codes d).poll k w = .ok (none, w)) :
      Attended fn w'.graph fun j => if j = k then delivery.or (last j) else last j := by
    rw [hrun] at hrun'
    cases hrun'
    simpa using h
  cases hw : w.graph.watchers[k]? with
  | none =>
    refine hsilent ?_
    unfold Rules.poll
    rw [graph_bind_run, hw]
    rfl
  | some o =>
    cases hpending : o.pending with
    | false => exact hsilent (poll_run_of_rest hw hpending)
    | true =>
      have hwatched := h.watched k o hw
      obtain ⟨w₁, hupdates, hintact₁, hwatchers, hrun'⟩ :=
        h.intact.poll hpure hd hw hpending hwatched.source_lt
      rw [hrun] at hrun'
      cases hrun'
      have halerts := hupdates.alerts (h.intact.alike (w.graph.alike_silence k))
      have hsame := (w₁.graph.alike_depend o.source k).trans
        (Graph.alike_note _ k (w₁.graph.version o.source))
      -- The other watchers are as they were.
      have hother {j : Nat} (hj : j ≠ k) (version : Nat) :
          ((w₁.graph.depend o.source (.watcher k)).note k version).watchers[j]?
            = w.graph.watchers[j]? := by
        show (w₁.graph.watchers.modify k _)[j]? = _
        rw [hwatchers, Array.getElem?_modify, if_neg hj.symm]
        show (w.graph.watchers.modify k _)[j]? = _
        rw [Array.getElem?_modify, if_neg hj.symm]
      have hself (version : Nat) :
          ((w₁.graph.depend o.source (.watcher k)).note k version).watchers[k]?
            = some { o with pending := false, seen := version } := by
        show (w₁.graph.watchers.modify k _)[k]? = _
        rw [hwatchers, Array.getElem?_modify, if_pos rfl]
        show Option.map _ (w.graph.watchers.modify k _)[k]? = _
        rw [Array.getElem?_modify, if_pos rfl, hw]
        rfl
      refine ⟨hintact₁.alike hsame, fun j o' hw' => ?_, fun j hnone => ?_⟩
      · by_cases hj : j = k
        · subst hj
          rw [World.put_graph, hself] at hw'
          cases hw'
          simp only [if_true]
          exact hwatched.polled halerts hintact₁ hupdates.upToDate
        · rw [World.put_graph, hother hj] at hw'
          simp only [if_neg hj]
          have hlisted : (w.graph.silence k).watchers[j]? = some o' := by
            show (w.graph.watchers.modify k _)[j]? = _
            rw [Array.getElem?_modify, if_neg (Ne.symm hj), hw']
          have hlater : Watched (w₁.graph.depend o.source (.watcher k)) (last j) j o' := by
            have hsilent : Watched (w.put (w.graph.silence k)).graph (last j) j o' :=
              (h.watched j o' hw').of_node_eq rfl fun _ => rfl
            refine hsilent.alerts (halerts.trans (.of_alike (w₁.graph.alike_depend o.source k) rfl
              fun i a h => h.depend _ _)) hlisted ?_
            show w₁.graph.watchers[j]? = _
            rw [hwatchers, hlisted]
          exact hlater.of_node_eq rfl fun _ => rfl
      · by_cases hj : j = k
        · subst hj
          rw [World.put_graph, hself] at hnone
          cases hnone
        · rw [World.put_graph, hother hj] at hnone
          simp only [if_neg hj]
          exact h.unknown j hnone

end Attended

theorem Observed.attended {last : Nat → Option (Outcome P)} (h : Observed codes w last)
    (hpure : codes.Pure fn inv) : Attended fn w.graph last := by
  induction h with
  | start hempty =>
    rw [hempty]
    exact ⟨intact_empty, fun k o hw => by simp at hw, fun _ _ => rfl⟩
  | request request depth _ hfits hdepth hrun ih =>
    obtain ⟨answer, w₂, hrun', hintact, hchange⟩ := request.change hpure ih.intact hdepth hfits
    rw [hrun] at hrun'
    cases hrun'
    exact ih.alerts hintact (hchange.alerts ih.intact hfits)
  | watch source _ hsource ih => exact ih.watch hsource
  | poll k depth _ hdepth hrun ih => exact ih.poll hpure hdepth hrun

/-- **Watchers lose no change.**  After any requests, new watchers and polls, every watcher can be
    polled, and its signal read.  It is told of what a read would give, once, if it is pending and
    the signal turns out to have another version than the one that it has seen, and of nothing
    otherwise.  Whenever a read would give another outcome than the one that it was last told of, it
    is pending and is told. -/
theorem poll_loses_nothing (hpure : codes.Pure fn inv) {last : Nat → Option (Outcome P)}
    (h : Observed codes w last) (hw : w.graph.watchers[k]? = some o) (hd : w.graph.size < d) :
    ∃ current w₁ delivery w₂,
      (Request.get o.source).run (.ofCodes codes d) w = .ok (.value current, w₁) ∧
      (Rules.ofCodes codes d).poll k w = .ok (delivery, w₂) ∧
      (delivery = if o.pending = true ∧ w₁.graph.version o.source ≠ o.seen then some current
        else none) ∧
      ∀ p, last k = some p → p ≠ current → o.pending = true ∧ delivery = some current := by
  have hattended := h.attended hpure
  have hwatched := hattended.watched k o hw
  obtain ⟨w₁, hrun, hintact₁, hupdates⟩ := hattended.intact.updates hpure hd hwatched.source_lt
  obtain ⟨rank, hs⟩ := hattended.intact.sound.shaped
  obtain ⟨rank₁, hs₁⟩ := hintact₁.sound.shaped
  have hcomputed : w₁.graph.Computed o.source :=
    (hintact₁.sound.coherent _).isSome (Graph.target?_anchor hs₁.descends o.source) hupdates.upToDate
  -- What was told is what the signal has, as long as its version is the one that was seen.
  have htold (p : Outcome P) (hp : last k = some p) (hne : p ≠ w₁.graph.value o.source) :
      w₁.graph.version o.source ≠ o.seen := fun hversion =>
    hne (hwatched.value_eq hp (hupdates.frame.ahead_anchor hs hwatched.source_lt) hversion
      hcomputed).symm
  cases hpending : o.pending with
  | false =>
    obtain ⟨hawaits, hversion⟩ := hwatched.awaits hpending
    have hkept : w₁.graph.version o.source = o.seen :=
      (hupdates.frame.version_eq hs hwatched.source_lt hawaits.upToDate).trans hversion
    exact ⟨_, w₁, none, w, get_run hrun, poll_run_of_rest hw hpending, by simp,
      fun p hp hne => absurd hkept (htold p hp hne)⟩
  | true =>
    obtain ⟨w₂, hupdates₂, hintact₂, -, hpoll⟩ :=
      hattended.intact.poll hpure hd hw hpending hwatched.source_lt
    obtain ⟨hvalue, hversion⟩ := hupdates.agree hattended.intact (w.graph.alike_silence k) hupdates₂
      hintact₁ hintact₂
    rw [hvalue, hversion] at hpoll
    refine ⟨_, w₁, _, _, get_run hrun, hpoll, ?_, fun p hp hne => ⟨rfl, ?_⟩⟩
    · by_cases hseen : o.seen = w₁.graph.version o.source
      · simp [hseen]
      · simp [hseen, Ne.symm hseen]
    · rw [if_neg (htold p hp hne).symm]

section

open scoped Summing

/-- A cell and the number below it, which is watched. -/
def newlyWatched : Graph Nat Unit Unit where
  nodes := #[{ form := .cell, memo := .given (.ok 3) }, { form := .map 0 [()] (.readOnly true) }]
  watchers := #[{ source := 1 }]

/-- The watcher was told, and the cell was written. -/
def outOfDate : Graph Nat Unit Unit where
  nodes := #[{ form := .cell, memo := ⟨some (.ok 7), 2, false⟩ },
    { form := .map 0 [()] (.readOnly true), memo := ⟨some (.ok 2), 1, true⟩, seen := [1] }]
  watchers := #[{ source := 1, pending := true, seen := 1 }]

theorem observed_newlyWatched : Observed (.ofFunctions predecessor successor)
    (⟨newlyWatched, 0, ()⟩ : World Nat Unit Unit Unit) fun _ => none := by
  have hcell : Observed (.ofFunctions predecessor successor)
      (⟨{ nodes := #[{ form := .cell, memo := .given (.ok 3) }] }, 0, ()⟩ : World Nat Unit Unit Unit)
      fun _ => none :=
    .request (.create (.cell (.ok 3))) 9 (.start (w := ⟨{}, 0, ()⟩) rfl) ⟨nofun, nofun⟩ (by decide) rfl
  exact .watch 1 (.request (.create (.map 0 () true)) 9 hcell ⟨by decide, nofun⟩ (by decide) rfl) (by decide)

/-- What the watcher was told when it was polled. -/
def toldTwo (k : Nat) : Option (Outcome Nat) := if k = 0 then some (.ok 2) else none

theorem observed_outOfDate : Observed (.ofFunctions predecessor successor)
    (⟨outOfDate, 0, ()⟩ : World Nat Unit Unit Unit) toldTwo := by
  have hpolled : Observed (.ofFunctions predecessor successor)
      (⟨{ nodes := #[{ form := .cell, memo := .given (.ok 3), dependents := [.signal 1] },
            { form := .map 0 [()] (.readOnly true), memo := ⟨some (.ok 2), 1, false⟩,
              dependents := [.watcher 0], seen := [1] }],
          watchers := #[{ source := 1, pending := false, seen := 1 }] }, 0, ()⟩ :
        World Nat Unit Unit Unit) toldTwo :=
    .poll 0 9 observed_newlyWatched (by decide) (by cbv)
  exact .request (.set 0 (.ok 7)) 9 hpolled (by decide : 0 < 2) (by decide) (by cbv)

/-- The cell was written since, so that the watcher is told of the number below. -/
theorem poll_loses_nothing_outOfDate :
    ∃ w, (Rules.ofCodes (.ofFunctions predecessor successor) 9).poll 0
      (⟨outOfDate, 0, ()⟩ : World Nat Unit Unit Unit) = .ok (some (.ok 6), w) := by
  obtain ⟨current, w₁, delivery, w₂, hread, hpoll, -, htold⟩ :=
    poll_loses_nothing (k := 0) (d := 9) (Codes.pure_ofFunctions predecessor successor)
      observed_outOfDate (by rfl) (by decide)
  obtain ⟨w₃, hread'⟩ : ∃ w₃, (Request.get 1).run (.ofCodes (.ofFunctions predecessor successor) 9)
      (⟨outOfDate, 0, ()⟩ : World Nat Unit Unit Unit) = .ok (.value (.ok 6), w₃) :=
    ⟨_, show _ = Except.ok (_, _) by cbv⟩
  obtain rfl : current = .ok 6 := by
    have hsame := hread.symm.trans hread'
    cases hsame
    rfl
  obtain ⟨-, rfl⟩ := htold (.ok 2) rfl (by simp)
  exact ⟨w₂, hpoll⟩

end

end ReactiveDoc.Signal
