import ReactiveDoc.Proofs.Signal.Setting

namespace ReactiveDoc.Signal

/-!
# Versions count outcomes, and functions run when they have to

* `Codes.noting` — pure functions that leave a note whenever they run.
* `Moves.host_eq` — a reconcile runs the functions of the signals that are computed again.
* `Advance` — a signal is computed another time only for other versions of its sources.
* `runAll_advance` — every run of requests is such an advance.
* `Counts` — which signals a reconcile computes again, and what becomes of versions and outcomes.
* `HidesNothing` — a signal whose outcome has to be another gets it, with another version.
* `reconcile_counts` — so does every reconcile, and functions run for what is computed again.
-/

variable {P F Φ : Type} [Carrier P]

/-! ### Functions that leave notes -/

/-- Pure functions for maps that leave a note of each application. -/
def Codes.noting (fn : F → P → Outcome P) (inv : F → P → P) : Codes P F Φ (List (F × P)) where
  apply f p := do
    updateHost (· ++ [(f, p)])
    pure (fn f p)
  invert f p := pure (inv f p)
  choose _ _ := throw .endless

/-- The applications that steps lead to; a failure ends them. -/
def callsOf (fn : F → P → Outcome P) : List F → Outcome P → List (F × P)
  | f :: steps, .ok p => (f, p) :: callsOf fn steps (fn f p)
  | _, _ => []

/-- The applications that the computation of a signal leads to. -/
def Graph.calls (fn : F → P → Outcome P) (g : Graph P F Φ) (id : SignalId) : List (F × P) :=
  callsOf fn (g.node id).form.steps (g.input (g.node id).form)

/-- Steps give their image, and leave a note of each application. -/
def noted (fn : F → P → Outcome P) : Effect P F Φ (List (F × P)) :=
  fun steps o w o' w' =>
    o' = imageOf fn steps o ∧ w' = { w with host := w.host ++ callsOf fn steps o }

section

variable {fn : F → P → Outcome P} {inv : F → P → P} {w w' : World P F Φ (List (F × P))}

omit [Carrier P] in
theorem callsOf_error (steps : List F) (e : SignalError) : callsOf fn steps (.error e) = [] := by
  cases steps <;> rfl

omit [Carrier P] in
theorem noted_nil (o : Outcome P) (w : World P F Φ (List (F × P))) : noted fn [] o w o w :=
  ⟨rfl, by simp [callsOf]⟩

/-- Steps that leave notes complete, and do nothing else. -/
theorem applySteps_noting (d : Nat) (steps : List F) (o : Outcome P)
    (w : World P F Φ (List (F × P))) :
    applySteps (.ofCodes (.noting fn inv) (d + 1)) steps o w =
      .ok (imageOf fn steps o, { w with host := w.host ++ callsOf fn steps o }) := by
  unfold applySteps
  induction steps generalizing o w with
  | nil => rw [← (noted_nil o w).2]; rfl
  | cons f steps ih =>
    rw [List.foldlM_cons]
    cases o with
    | error e =>
      rw [pure_bind, ih, imageOf_error, imageOf_error, callsOf_error, callsOf_error]
    | ok p =>
      have hstep : (Rules.ofCodes (.noting fn inv : Codes P F Φ _) (d + 1)).apply f p w =
          .ok (fn f p, { w with host := w.host ++ [(f, p)] }) := rfl
      rw [bind_run hstep, ih]
      simp only [callsOf, List.append_assoc, List.singleton_append]
      rfl

theorem applies_noting (d : Nat) :
    Applies (.static fn) (noted fn) (.ofCodes (.noting fn inv : Codes P F Φ _) (d + 1)) :=
  fun steps o w _ _ =>
    ⟨_, _, applySteps_noting d steps o w, rfl, ⟨rfl, rfl⟩, fun _ _ => trivial⟩

/-- The functions that run are those of the signals that are computed again, in their order. -/
theorem Moves.host_eq {ran : List SignalId} (h : Moves (noted fn) w ran w') :
    w'.host = w.host ++ ran.flatMap (w'.graph.calls fn) := by
  induction h with
  | refl => simp
  | @tail ran ran' w₁ w₂ h hmove ih =>
    have himage : ∀ steps o (w : World P F Φ (List (F × P))) o' w', noted fn steps o w o' w' →
        o' = imageOf fn steps o := fun _ _ _ _ _ h => h.1
    have hmoved := hmove.moved himage
    -- What comes from sources that are up to date stays.
    have hkept {j : SignalId} (hup : ∀ s ∈ (w₁.graph.node j).form.upstream,
        w₁.graph.UpToDate (w₁.graph.anchor s)) : w₂.graph.calls fn j = w₁.graph.calls fn j := by
      unfold Graph.calls
      rw [hmoved.form_eq, hmoved.input_eq hup]
    have hbefore : ran.flatMap (w₂.graph.calls fn) = ran.flatMap (w₁.graph.calls fn) :=
      List.flatMap_congr fun j hj => hkept ((h.moved himage).renewed j hj).sources
    have hlast : w₂.host = w₁.host ++ ran'.flatMap (w₂.graph.calls fn) := by
      cases hmove with
      | register hsource => simp [World.put]
      | confirm hdue _ => simp [World.put]
      | renew hdue hstale happly =>
        rw [List.flatMap_singleton, hkept hdue.sources]
        rw [happly.2]
        rfl
    rw [List.flatMap_append, hlast, ih, hbefore, List.append_assoc]

end

/-! ### Advancing -/

/-- One computation of a signal: the versions that its sources had then, and the applications of
    its functions. -/
structure Run (F P : Type) where
  signal : SignalId
  versions : List Nat
  calls : List (F × P)

/-- Two computations are not of one signal, or are for other versions of its sources. -/
def Run.Apart (a b : Run F P) : Prop := a.signal = b.signal → a.versions ≠ b.versions

/-- The computation that a signal's outcome comes from, if its sources have not changed since. -/
def Graph.run (fn : F → P → Outcome P) (g : Graph P F Φ) (id : SignalId) : Run F P :=
  ⟨id, g.sourceVersions id, g.calls fn id⟩

/-- From one world to a later one the given computations were made.  What a signal has noted before
    is behind the versions that it was computed for, and what it has noted since is not. -/
structure Advance (fn : F → P → Outcome P) (w : World P F Φ (List (F × P)))
    (runs : List (Run F P)) (w' : World P F Φ (List (F × P))) : Prop where
  later : w.graph.Later w'.graph
  host_eq : w'.host = w.host ++ runs.flatMap Run.calls
  made : ∀ run ∈ runs, ∃ g, w.graph.Later g ∧ g.Later w'.graph ∧ run = g.run fn run.signal
  started : ∀ run ∈ runs, run.signal < w.graph.size → w.graph.Tracked run.signal →
    List.Forall₂ (· ≤ ·) (w.graph.node run.signal).seen run.versions ∧
      ((w.graph.node run.signal).memo.outcome?.isSome = true →
        (w.graph.node run.signal).seen ≠ run.versions)
  ended : ∀ run ∈ runs, run.signal < w'.graph.size ∧
    (w'.graph.node run.signal).memo.outcome?.isSome = true ∧
    List.Forall₂ (· ≤ ·) run.versions (w'.graph.node run.signal).seen ∧
    w'.graph.Tracked run.signal
  apart : runs.Pairwise Run.Apart

section

variable {fn : F → P → Outcome P} {inv : F → P → P} {w w₁ w₂ : World P F Φ (List (F × P))}
  {ran : List SignalId} {runs runs' : List (Run F P)}

namespace Advance

/-- Changes that compute nothing. -/
theorem of_later (h : w.graph.Later w₁.graph) (hhost : w₁.host = w.host) : Advance fn w [] w₁ :=
  { later := h
    host_eq := by simp [hhost]
    made := fun _ h => nomatch h
    started := fun _ h => nomatch h
    ended := fun _ h => nomatch h
    apart := .nil }

theorem refl (w : World P F Φ (List (F × P))) : Advance fn w [] w := of_later (.refl _) rfl

theorem trans (h : Advance fn w runs w₁) (h' : Advance fn w₁ runs' w₂) :
    Advance fn w (runs ++ runs') w₂ := by
  have hlt {j : SignalId} (hj : j < w.graph.size) : j < w₁.graph.size :=
    Nat.lt_of_lt_of_le hj h.later.size_le
  refine ⟨h.later.trans h'.later, ?_, fun run hrun => ?_, fun run hrun hj htracked => ?_,
    fun run hrun => ?_, ?_⟩
  · rw [h'.host_eq, h.host_eq, List.flatMap_append, List.append_assoc]
  · rcases List.mem_append.mp hrun with hrun | hrun
    · obtain ⟨g, hbefore, hafter, heq⟩ := h.made run hrun
      exact ⟨g, hbefore, hafter.trans h'.later, heq⟩
    · obtain ⟨g, hbefore, hafter, heq⟩ := h'.made run hrun
      exact ⟨g, h.later.trans hbefore, hafter, heq⟩
  · rcases List.mem_append.mp hrun with hrun | hrun
    · exact h.started run hrun hj htracked
    · obtain ⟨hseen, htracked₁⟩ := h.later.seen _ hj htracked
      obtain ⟨hle, hne⟩ := h'.started run hrun (hlt hj) htracked₁
      refine ⟨Graph.forall₂_le_trans hseen hle, fun hsome heq => ?_⟩
      -- What was noted first and last is the same, so it has not changed in between.
      refine hne (h.later.isSome _ hj hsome) (Graph.forall₂_le_antisymm hle ?_)
      rwa [← heq]
  · rcases List.mem_append.mp hrun with hrun | hrun
    · obtain ⟨hj, hsome, hle, htracked⟩ := h.ended run hrun
      obtain ⟨hseen, htracked'⟩ := h'.later.seen _ hj htracked
      exact ⟨Nat.lt_of_lt_of_le hj h'.later.size_le, h'.later.isSome _ hj hsome,
        Graph.forall₂_le_trans hle hseen, htracked'⟩
    · exact h'.ended run hrun
  · refine List.pairwise_append.mpr ⟨h.apart, h'.apart, fun a ha c hc hsignal hversions => ?_⟩
    obtain ⟨hj, hsome, hle, htracked⟩ := h.ended a ha
    rw [hsignal] at hj hsome hle htracked
    obtain ⟨hle', hne⟩ := h'.started c hc hj htracked
    rw [hversions] at hle
    exact hne hsome (Graph.forall₂_le_antisymm hle' hle)

end Advance

/-- A reconcile is an advance with one computation for each signal that is computed again. -/
theorem Moves.advance (h : Moves (noted fn) w ran w₁) :
    Advance fn w (ran.map (w₁.graph.run fn)) w₁ := by
  have hmoved : Moved (fun steps o o' => o' = imageOf fn steps o) w.graph w₁.graph ran :=
    h.moved fun _ _ _ _ _ h => h.1
  have hlater := hmoved.later
  refine ⟨hlater, ?_, fun run hrun => ?_, fun run hrun hj htracked => ?_, fun run hrun => ?_, ?_⟩
  · rw [h.host_eq, List.flatMap_map]
    rfl
  · obtain ⟨j, -, rfl⟩ := List.mem_map.mp hrun
    exact ⟨w₁.graph, hlater, .refl _, rfl⟩
  · obtain ⟨j, hmem, rfl⟩ := List.mem_map.mp hrun
    have hrenewed := hmoved.renewed j hmem
    obtain ⟨hseen, -⟩ := hlater.seen j hj htracked
    rw [hrenewed.seen_eq] at hseen
    refine ⟨hseen, fun hsome => hrenewed.stale.resolve_left fun hnone => ?_⟩
    have hsome : (w.graph.node j).memo.outcome?.isSome = true := hsome
    rw [hnone] at hsome
    cases hsome
  · obtain ⟨j, hmem, rfl⟩ := List.mem_map.mp hrun
    have hrenewed := hmoved.renewed j hmem
    obtain ⟨o, -, houtcome, -⟩ := hrenewed.stored
    have hseen : List.Forall₂ (· ≤ ·) (w₁.graph.sourceVersions j) (w₁.graph.sourceVersions j) :=
      List.forall₂_refl _
    refine ⟨?_, ?_, ?_, ?_⟩
    · rw [hmoved.size_eq]
      exact w.graph.lt_size_of_isDerived ((w.graph.not_upToDate_iff j).mp hrenewed.dirty).1
    · exact houtcome ▸ Memo.isSome_store _ o
    · exact hrenewed.seen_eq ▸ hseen
    · unfold Graph.Tracked
      exact hrenewed.seen_eq ▸ hseen
  · refine List.pairwise_map.mpr (hmoved.nodup.imp fun hne hsignal => absurd hsignal hne)

/-! ### Writing -/

theorem later_store (g : Graph P F Φ) (id : SignalId) (o : Outcome P) :
    g.Later (g.modify id fun n => { n with memo := n.memo.store o }) := by
  let g' := g.modify id fun n => { n with memo := n.memo.store o }
  have hnode (j : SignalId) : (g'.node j).form = (g.node j).form ∧
      (g.node j).memo.Ahead (g'.node j).memo ∧
      ((g.node j).memo.outcome?.isSome = true → (g'.node j).memo.outcome?.isSome = true) ∧
      (g'.node j).seen = (g.node j).seen :=
    Graph.node_modify_induction (C := fun j n => n.form = (g.node j).form ∧
      (g.node j).memo.Ahead n.memo ∧
      ((g.node j).memo.outcome?.isSome = true → n.memo.outcome?.isSome = true) ∧
      n.seen = (g.node j).seen)
      (fun _ => ⟨rfl, Memo.ahead_store _ o, fun _ => Memo.isSome_store _ o, rfl⟩) j
      ⟨rfl, .refl _, fun h => h, rfl⟩
  exact Graph.later_of_forms (g.size_modify id _) (fun j => (hnode j).1) (fun j => (hnode j).2.1)
    (fun j => (hnode j).2.2.1) fun j => .inl (hnode j).2.2.2

/-- A cell is written, or has the outcome already. -/
theorem setCell_run (id : SignalId) (o : Outcome P) (w : World P F Φ (List (F × P))) :
    ∃ g', setCell id o w = .ok ((), w.put g') ∧ w.graph.Later g' ∧ g'.size = w.graph.size := by
  refine ⟨_, rfl, ?_⟩
  dsimp only
  split
  · exact ⟨.refl _, rfl⟩
  · refine ⟨(later_store w.graph id o).trans (Graph.later_notify _ id), ?_⟩
    rw [Graph.size_notify, Graph.size_modify]

theorem later_adopted {rank : SignalId → Nat} {g : Graph P F Φ} (hl : g.Layered rank)
    {id source : SignalId} (hup : (g.node id).form.upstream = [source]) (o : Outcome P) :
    g.Later (g.adopted id source o) ∧ (g.adopted id source o).size = g.size := by
  have hid : id < g.size := g.lt_size_of_form_ne fun hform => by
    rw [hform] at hup
    cases hup
  have hne : g.anchor source ≠ id := fun heq => by
    have hlt := hl.rank_anchor_lt (hup ▸ List.mem_singleton_self source)
    rw [heq] at hlt
    exact Nat.lt_irrefl _ hlt
  unfold Graph.adopted
  dsimp only
  have hb₁ := (Becomes.modify g hid fun n => { n with memo := n.memo.store o }).next hid
    fun n => { n with memo := { n.memo with dirty := false } }
  generalize (g.modify id _).modify id _ = g₁ at hb₁ ⊢
  have hb₂ := hb₁.next hid fun n => { n with seen := [g₁.version source] }
  generalize g₁.modify id _ = g₂ at hb₂ ⊢
  -- The version of the source is no matter of what the map remembers.
  have hversion : g₂.version source = g₁.version source := by
    unfold Graph.version
    rw [hb₁.anchor_eq rfl, hb₂.anchor_eq rfl, hb₁.node_ne _ hne, hb₂.node_ne _ hne]
  have hnode (j : SignalId) : (g.node j).memo.Ahead (g₂.node j).memo ∧
      ((g.node j).memo.outcome?.isSome = true → (g₂.node j).memo.outcome?.isSome = true) ∧
      ((g₂.node j).seen = (g.node j).seen ∨ (g₂.node j).seen = g₂.sourceVersions j) := by
    by_cases hj : j = id
    · subst hj
      have hahead := (g.node j).memo.ahead_store o
      refine ⟨?_, fun _ => ?_, .inr ?_⟩
      · rw [hb₂.node_eq]
        exact ⟨hahead.version_le, hahead.outcome?_eq⟩
      · rw [hb₂.node_eq]
        exact Memo.isSome_store _ o
      · unfold Graph.sourceVersions
        rw [hb₂.node_eq]
        show _ = (g.node j).form.upstream.map g₂.version
        rw [hup, List.map_singleton, hversion]
    · rw [hb₂.node_ne j hj]
      exact ⟨.refl _, fun h => h, .inl rfl⟩
  have hlater : g.Later g₂ :=
    Graph.later_of_forms hb₂.size_eq (hb₂.form_eq rfl) (fun j => (hnode j).1)
      (fun j => (hnode j).2.1) fun j => (hnode j).2.2
  have hregister : Moved (fun _ _ _ => True) g₂ (g₂.depend source (.signal id)) [] :=
    moved_register g₂ id source
  exact ⟨hlater.trans hregister.later, hregister.size_eq.trans hb₂.size_eq⟩

theorem settleWritten_run {rank : SignalId → Nat} (hl : w.graph.Layered rank) {id source : SignalId}
    (hup : (w.graph.node id).form.upstream = [source]) (o : Outcome P) :
    ∃ g', settleWritten id source o w = .ok ((), w.put g') ∧ w.graph.Later g' ∧
      g'.size = w.graph.size := by
  obtain ⟨hlater, hsize⟩ := later_adopted hl hup o
  refine ⟨w.graph.takenOver id source o, settleWritten_eq id source o w, ?_⟩
  unfold Graph.takenOver
  split
  · exact ⟨hlater, hsize⟩
  · exact ⟨hlater.trans (Graph.later_notify _ id), (Graph.size_notify _ _).trans hsize⟩

/-- The operations write signals of a rank below the depth, and this is an advance. -/
def Advances (fn : F → P → Outcome P) (r : Rules P F Φ (List (F × P))) (rank : SignalId → Nat)
    (d : Nat) : Prop :=
  ∀ id o w, w.graph.Layered rank → rank (w.graph.anchor id) < d → ∃ result runs w',
    r.set id o w = .ok (result, w') ∧ Advance fn w runs w' ∧ w'.graph.size = w.graph.size

variable {r : Rules P F Φ (List (F × P))} {rank : SignalId → Nat} {d : Nat}

omit [Carrier P] in
/-- Every outcome is good, and every step fine, where nothing is asked of them. -/
theorem all_static (g : Graph P F Φ) : g.All (Behaviour.static fn : Behaviour P F Φ).good
    (Behaviour.static fn : Behaviour P F Φ).fine :=
  fun _ => ⟨fun _ _ _ _ => trivial, fun _ _ _ _ _ _ => trivial⟩

/-- A map that can be set is written through to its source. -/
theorem setWritable_advance (hr : Settles (.static fn) (noted fn) r rank d)
    (hset : Advances fn r rank d) {id source : SignalId} {inverse : F}
    (hinvert : ∀ p, r.invert inverse p = pure (inv inverse p)) (hl : w.graph.Layered rank)
    (hup : (w.graph.node id).form.upstream = [source]) (hdepth : rank id ≤ d) (o : Outcome P) :
    ∃ result runs w', setWritable r id source inverse o w = .ok (result, w') ∧
      Advance fn w runs w' ∧ w'.graph.size = w.graph.size := by
  have hrank := Nat.lt_of_lt_of_le (hl.rank_anchor_lt (hup ▸ List.mem_singleton_self source)) hdepth
  -- The source is written first; what is done then depends on whether it could be.
  obtain ⟨rest, hstart, hfail, hrest⟩ : ∃ rest,
      setWritable r id source inverse o w = (r.set source (o.map (inv inverse)) >>= rest) w ∧
      (∀ e, rest (.error e) = pure (.error e)) ∧ rest (.ok ()) = (do
        r.reconcile source
        settleWritten id source o
        pure (.ok ())) := by
    unfold setWritable
    cases o with
    | ok p =>
      simp only [hinvert, map_pure, pure_bind]
      refine ⟨_, rfl, ?_, ?_⟩
      · exact fun _ => rfl
      · rfl
    | error e =>
      simp only [pure_bind]
      refine ⟨_, rfl, ?_, ?_⟩
      · exact fun _ => rfl
      · rfl
  obtain ⟨result, runs, w₁, hrun₁, hadvance₁, hsize₁⟩ :=
    hset source (o.map (inv inverse)) w hl hrank
  rw [hstart, bind_run hrun₁]
  cases result with
  | error e =>
    rw [hfail]
    exact ⟨_, runs, w₁, rfl, hadvance₁, hsize₁⟩
  | ok done =>
    have hid : id < w.graph.size := w.graph.lt_size_of_form_ne fun hform => by
      rw [hform] at hup
      cases hup
    have hl₁ := hl.later hadvance₁.later hsize₁
    have hanchor := Graph.anchor_eq_of_forms hl hl₁ hadvance₁.later.form_eq
      (hl.upstream_lt id source (hup ▸ List.mem_singleton_self source))
    obtain ⟨ran, w₂, hrun₂, hreach, -, -⟩ :=
      hr source w₁ hl₁.choiceless (all_static _) (hanchor ▸ hrank)
    have hform : (w₂.graph.node id).form = (w.graph.node id).form :=
      (hreach.moved.form_eq id).trans (hadvance₁.later.form_eq id hid)
    obtain ⟨g₃, hrun₃, hlater₃, hsize₃⟩ :=
      settleWritten_run (hreach.layered hl₁) (hform ▸ hup) o
    rw [hrest, bind_run hrun₂, bind_run hrun₃]
    refine ⟨_, _, w₂.put g₃, rfl,
      (hadvance₁.trans hreach.moves.advance).trans (.of_later hlater₃ rfl), ?_⟩
    rw [World.put_graph, hsize₃, hreach.moved.size_eq, hsize₁]

/-- One level more writes every signal of one rank more. -/
theorem setNode_advance (inv : F → P → P) (hr : Settles (.static fn) (noted fn) r rank d)
    (hset : Advances fn r rank d)
    (hinvert : 0 < d → ∀ f p, r.invert f p = pure (inv f p)) (hl : w.graph.Layered rank)
    {id : SignalId} (hdepth : rank (w.graph.anchor id) ≤ d) (o : Outcome P) :
    ∃ result runs w', setNode r id o w = .ok (result, w') ∧ Advance fn w runs w' ∧
      w'.graph.size = w.graph.size := by
  have htarget := Graph.target?_anchor hl.descends id
  unfold setNode
  rw [graph_bind_run]
  generalize w.graph.anchor id = me at hdepth htarget ⊢
  cases hf : (w.graph.node me).form with
  | cell =>
    obtain ⟨g', hrun, hlater, hsize⟩ := setCell_run me o w
    dsimp only
    rw [bind_run hrun]
    exact ⟨_, [], w.put g', rfl, .of_later hlater rfl, hsize⟩
  | map source steps role =>
    cases role with
    | readOnly uniform => exact ⟨_, [], w, rfl, .refl w, rfl⟩
    | writable inverse =>
      have hup : (w.graph.node me).form.upstream = [source] := by rw [hf]; rfl
      have hpos : 0 < d := by
        have := (hl.upstream me source (hup ▸ List.mem_singleton_self source)).2
        omega
      exact setWritable_advance hr hset (hinvert hpos inverse) hl hup hdepth o
  | label name source =>
    rw [hf] at htarget
    cases htarget
  | reference target? =>
    cases target? with
    | none => exact ⟨_, [], w, rfl, .refl w, rfl⟩
    | some target =>
      rw [hf] at htarget
      cases htarget
  | _ => exact ⟨_, [], w, rfl, .refl w, rfl⟩

theorem settles_noting (fn : F → P → Outcome P) (inv : F → P → P) (d : Nat) :
    Settles (.static fn) (noted fn) (.ofCodes (.noting fn inv : Codes P F Φ _) d) rank d :=
  settles_ofCodes ⟨fun _ _ => trivial, fun _ _ => trivial⟩ (fun o w _ => noted_nil o w)
    applies_noting d

/-- Every signal of a rank below the depth is written, and this is an advance. -/
theorem advances_noting (fn : F → P → Outcome P) (inv : F → P → P) (d : Nat) :
    Advances fn (.ofCodes (.noting fn inv : Codes P F Φ _) d) rank d := by
  induction d with
  | zero => exact fun id o w _ hdepth => absurd hdepth (Nat.not_lt_zero _)
  | succ d ih =>
    intro id o w hl hdepth
    refine setNode_advance inv (settles_noting fn inv d) ih (fun hd f p => ?_) hl
      (Nat.le_of_lt_succ hdepth) o
    obtain ⟨d, rfl⟩ : ∃ k, d = k + 1 := ⟨d - 1, by omega⟩
    rfl

end

/-! ### Requests -/

/-- The new signal comes from the same signals for good. -/
def Creation.isFixed : Creation P F Φ → Bool
  | reference | flatMap .. => false
  | _ => true

omit [Carrier P] in
theorem Creation.isFixed_form {c : Creation P F Φ} (h : c.isFixed = true) (g : Graph P F Φ) :
    (c.form g).isFixed = true := by
  cases c with
  | mapFused source f =>
    obtain ⟨_, _, hform, -⟩ := form_mapFused g source f
    rw [hform]
    rfl
  | reference => cases h
  | flatMap source choice => cases h
  | _ => rfl

namespace Request

/-- The request is not for a reference or a flat map, and makes signals from some of the first `n`
    ones. -/
def Fixed (n : Nat) : Request P F Φ → Prop
  | create creation => creation.isFixed = true ∧ ∀ s ∈ creation.sources, s < n
  | resolve _ _ => False
  | set _ _ | reconcile _ | get _ => True

/-- The number of signals afterwards. -/
def after (n : Nat) : Request P F Φ → Nat
  | create _ => n + 1
  | _ => n

/-- The request is to write. -/
def isWrite : Request P F Φ → Bool
  | set _ _ => true
  | _ => false

end Request

/-- Every request is fixed at its time, where there are `n` signals at first. -/
def AllFixed (n : Nat) : List (Request P F Φ) → Prop
  | [] => True
  | request :: rest => request.Fixed n ∧ AllFixed (request.after n) rest

section

variable (fn : F → P → Outcome P) (inv : F → P → P) {w : World P F Φ (List (F × P))} {d : Nat}
  {rank : SignalId → Nat}

/-- With more depth than signals every signal is brought up to date by moves. -/
theorem reconcile_moves (hl : w.graph.Layered rank) (hd : w.graph.size < d) (id : SignalId) :
    ∃ ran w', (Rules.ofCodes (.noting fn inv : Codes P F Φ _) d).reconcile id w = .ok ((), w') ∧
      Moves (noted fn) w ran w' ∧ (∀ j ∈ ran, w.graph.Visits (w.graph.anchor id) j) ∧
      w'.graph.AtRest (w'.graph.anchor id) := by
  have hdepth := Nat.lt_of_le_of_lt (Graph.card_below_le rank w.graph (w.graph.anchor id)) hd
  obtain ⟨ran, w', hrun, hreach, hvisits, hrest⟩ :=
    settles_noting fn inv d id w hl.below.choiceless (all_static _) hdepth
  exact ⟨ran, w', hrun, hreach.moves, hvisits, by rwa [hreach.moved.anchor_eq]⟩

/-- What a request leaves: computations in advance, and layers.  Nothing that is at rest is
    disturbed unless something is written. -/
structure Left (fn : F → P → Outcome P) (w : World P F Φ (List (F × P))) (write : Bool)
    (runs : List (Run F P)) (w' : World P F Φ (List (F × P))) : Prop where
  advance : Advance fn w runs w'
  layered : ∃ rank, w'.graph.Layered rank
  atRest : write = false → ∀ j < w.graph.size, w.graph.AtRest (w.graph.anchor j) →
    w'.graph.AtRest (w'.graph.anchor j)

/-- A request completes, and is an advance. -/
theorem Request.run_advance (hl : w.graph.Layered rank) (hd : w.graph.size < d)
    {request : Request P F Φ} (hfixed : request.Fixed w.graph.size) :
    ∃ answer runs w', request.run (.ofCodes (.noting fn inv) d) w = .ok (answer, w') ∧
      Left fn w request.isWrite runs w' ∧ w'.graph.size = request.after w.graph.size := by
  -- A read does to the graph what a reconcile does.
  have hreconcile (id : SignalId) : ∃ runs w',
      (Rules.ofCodes (.noting fn inv : Codes P F Φ _) d).reconcile id w = .ok ((), w') ∧
        (∀ write, Left fn w write runs w') ∧ w'.graph.size = w.graph.size := by
    obtain ⟨ran, w', hrun, hmoves, -, -⟩ := reconcile_moves fn inv hl hd id
    have hmoved : Moved (fun _ _ _ => True) w.graph w'.graph ran :=
      hmoves.moved fun _ _ _ _ _ _ => trivial
    refine ⟨_, w', hrun, fun write => ⟨hmoves.advance,
      ⟨rank, hl.congr hmoved.size_eq hmoved.form_eq⟩, fun _ j _ hrest => ?_⟩, hmoved.size_eq⟩
    rw [hmoved.anchor_eq]
    exact hmoved.atRest hrest hrest.upToDate
  cases request with
  | create creation =>
    obtain ⟨hform, hsources⟩ := hfixed
    obtain ⟨rank', hl'⟩ := hl.add (n := { form := creation.form w.graph, memo := creation.memo })
      (creation.isFixed_form hform w.graph) (creation.upstream_lt hl.upstream_lt hsources)
    have happly := creation.apply_eq w.graph
    rw [← happly] at hl'
    refine ⟨_, [], w.put (creation.apply w.graph).2, rfl, ⟨.of_later ?_ rfl, ⟨rank', hl'⟩, ?_⟩, ?_⟩
    · rw [World.put_graph]
      rw [happly] at hl' ⊢
      exact Graph.later_add hl hl'
    · intro _ j hj hrest
      have hnode {k : SignalId} (hk : k < w.graph.size) :
          (creation.apply w.graph).2.node k = w.graph.node k := by
        rw [happly, Graph.node_add, if_neg (Nat.ne_of_lt hk)]
      have hanchor := Graph.anchor_eq_of_forms hl hl' (fun k hk => by rw [hnode hk]) hj
      unfold Graph.AtRest
      rw [World.put_graph, hanchor, hnode (hl.anchor_lt hj)]
      exact hrest
    · rw [World.put_graph, happly, Graph.size_add]
      rfl
  | set id o =>
    obtain ⟨d, rfl⟩ : ∃ k, d = k + 1 := ⟨d - 1, by omega⟩
    have hdepth := Nat.lt_of_le_of_lt (Graph.card_below_le rank w.graph (w.graph.anchor id)) hd
    obtain ⟨result, runs, w', hrun, hadvance, hsize⟩ :=
      advances_noting fn inv (d + 1) id o w hl.below hdepth
    exact ⟨_, runs, w', bind_run hrun,
      ⟨hadvance, ⟨rank, hl.later hadvance.later hsize⟩, fun h => nomatch h⟩, hsize⟩
  | resolve r t => exact hfixed.elim
  | reconcile id =>
    obtain ⟨runs, w', hrun, hleft, hsize⟩ := hreconcile id
    exact ⟨_, runs, w', bind_run hrun, hleft _, hsize⟩
  | get id =>
    obtain ⟨runs, w', hrun, hleft, hsize⟩ := hreconcile id
    exact ⟨_, runs, w', get_run hrun, hleft _, hsize⟩

/-- Requests complete, one after the other, and are an advance. -/
theorem runAll_advance (requests : List (Request P F Φ)) (hl : w.graph.Layered rank)
    (hd : w.graph.size + requests.length < d) (hfixed : AllFixed w.graph.size requests) :
    ∃ answers runs w', runAll (.ofCodes (.noting fn inv) d) requests w = .ok (answers, w') ∧
      Left fn w (requests.any Request.isWrite) runs w' := by
  induction requests generalizing w rank with
  | nil => exact ⟨[], [], w, rfl, .refl w, ⟨rank, hl⟩, fun _ _ _ h => h⟩
  | cons request rest ih =>
    obtain ⟨hrequest, hrest⟩ := hfixed
    rw [List.length_cons] at hd
    have hlt : w.graph.size < d := by omega
    obtain ⟨answer, runs, w₁, hrun, hleft, hsize⟩ := request.run_advance fn inv hl hlt hrequest
    obtain ⟨rank₁, hl₁⟩ := hleft.layered
    have hle : request.after w.graph.size ≤ w.graph.size + 1 := by
      cases request <;> simp [Request.after]
    have hd₁ : w₁.graph.size + rest.length < d := by omega
    obtain ⟨answers, runs', w', hrun', hleft'⟩ := ih hl₁ hd₁ (hsize ▸ hrest)
    refine ⟨answer :: answers, runs ++ runs', w', ?_, hleft.advance.trans hleft'.advance,
      hleft'.layered, fun hwrite j hj hatRest => ?_⟩
    · unfold runAll at hrun' ⊢
      rw [List.mapM_cons, bind_run hrun, bind_run hrun']
      rfl
    · rw [List.any_cons, Bool.or_eq_false_iff] at hwrite
      have hj₁ := Nat.lt_of_lt_of_le hj hleft.advance.later.size_le
      exact hleft'.atRest hwrite.2 j hj₁ (hleft.atRest hwrite.1 j hj hatRest)

/-! ### What a reconcile does -/

/-- From `g` to `g'` a reconcile of `id` has computed the signals of `ran` again, and versions count
    their outcomes. -/
structure Counts (g g' : Graph P F Φ) (id : SignalId) (ran : List SignalId) : Prop where
  size_eq : g'.size = g.size
  form_eq : ∀ j, (g'.node j).form = (g.node j).form
  /-- All that it looks at is up to date afterwards. -/
  upToDate : ∀ j, g.Visits (g.anchor id) j → g'.UpToDate j
  /-- No signal is computed twice. -/
  nodup : ran.Nodup
  /-- Of the signals that it looks at, those are computed that are not up to date, either for the
      first time or for other versions of their sources. -/
  mem_iff : ∀ j, j ∈ ran ↔ g.Visits (g.anchor id) j ∧ ¬ g.UpToDate j ∧
    ((g.node j).memo.outcome? = none ∨ (g.node j).seen ≠ g'.sourceVersions j)
  /-- Whether computed or not, a signal that was not up to date has noted the versions. -/
  seen_eq : ∀ j, g.Visits (g.anchor id) j → ¬ g.UpToDate j →
    (g'.node j).seen = g'.sourceVersions j
  /-- Its version rises by one if the outcome is told apart from the last one. -/
  version_eq : ∀ j ∈ ran, g'.version j =
    if (g.node j).memo.holds (g'.image fn j) then g.version j else g.version j + 1
  value_eq : ∀ j ∈ ran, g'.value j =
    if (g.node j).memo.holds (g'.image fn j) then g.value j else g'.image fn j
  /-- Everything else keeps its version and its outcome. -/
  kept : ∀ j, g.anchor j ∉ ran → g'.version j = g.version j ∧ g'.value j = g.value j

theorem Moves.counts {ran : List SignalId} {w' : World P F Φ (List (F × P))} {id : SignalId}
    (h : Moves (noted fn) w ran w') (hvisits : ∀ j ∈ ran, w.graph.Visits (w.graph.anchor id) j)
    (hrest : w'.graph.UpToDate (w'.graph.anchor id)) : Counts fn w.graph w'.graph id ran := by
  have hmoved : Moved (fun steps o o' => o' = imageOf fn steps o) w.graph w'.graph ran :=
    h.moved fun _ _ _ _ _ h => h.1
  have hup {j : SignalId} (hj : w.graph.Visits (w.graph.anchor id) j) : w'.graph.UpToDate j :=
    h.upToDate (hmoved.anchor_eq id ▸ hrest) hj
  have hanchor {j : SignalId} (hj : j ∈ ran) : w.graph.anchor j = j :=
    Graph.anchor_of_isDerived ((w.graph.not_upToDate_iff j).mp (hmoved.renewed j hj).dirty).1
  have hstored {j : SignalId} (hj : j ∈ ran) :
      (w'.graph.node j).memo.outcome? =
          ((w.graph.node j).memo.store (w'.graph.image fn j)).outcome? ∧
        (w'.graph.node j).memo.version =
          ((w.graph.node j).memo.store (w'.graph.image fn j)).version := by
    obtain ⟨o, rfl, hstored⟩ := (hmoved.renewed j hj).stored
    exact hstored
  refine ⟨hmoved.size_eq, hmoved.form_eq, fun j => hup, hmoved.nodup, fun j => ⟨fun hj => ?_, ?_⟩,
    fun j hj hdirty => (h.arrived hdirty (hup hj)).seen_eq, fun j hj => ?_, fun j hj => ?_,
    fun j hj => ?_⟩
  · exact ⟨hvisits j hj, (hmoved.renewed j hj).dirty, (hmoved.renewed j hj).stale⟩
  · -- A signal that was not computed has an outcome, for the versions that its sources have.
    rintro ⟨hj, hdirty, hstale⟩
    have harrived := h.arrived hdirty (hup hj)
    by_contra hran
    rcases hstale with hnone | hseen
    · have hsome := harrived.computed
      rw [hmoved.outcome?_eq j hran, hnone] at hsome
      cases hsome
    · rw [← hmoved.seen_eq j hran] at hseen
      exact hseen harrived.seen_eq
  · unfold Graph.version
    rw [hmoved.anchor_eq, hanchor hj, (hstored hj).2, Memo.store_version]
  · unfold Graph.value Memo.read
    rw [hmoved.anchor_eq, hanchor hj, (hstored hj).1, Memo.store_outcome?]
    split <;> rfl
  · unfold Graph.version Graph.value Memo.read
    rw [hmoved.anchor_eq, hmoved.outcome?_eq _ hj, hmoved.version_eq _ hj]
    exact ⟨rfl, rfl⟩

/-- After a reconcile of `id` every signal that it looks at has the outcome for its sources'
    outcomes.  If that is told apart from what the signal had, its version has risen by one.  Only a
    map that was written may keep another outcome, as long as its source keeps its version. -/
def HidesNothing (g g' : Graph P F Φ) (id : SignalId) : Prop :=
  ∀ j, g.Visits (g.anchor id) j → (g.node j).form.isDerived = true →
    (g.node j).form.isReadOnly = true ∨ g.HasImage fn j →
    Near (g'.value j) (g'.image fn j) ∧
      (¬ Near (g.value j) (g'.image fn j) →
        g'.version j = g.version j + 1 ∧ g'.value j = g'.image fn j)

theorem Counts.hidesNothing {g g' : Graph P F Φ} {id : SignalId} {ran : List SignalId}
    (h : Counts fn g g' id ran)
    (hmoved : Moved (fun steps o o' => o' = imageOf fn steps o) g g' ran)
    (hintact : Intact fn g) (hsound : Sound .lenient g') : HidesNothing fn g g' id := by
  intro j hvisits hd himage
  obtain ⟨rank, hs⟩ := hintact.sound.shaped
  have himage' : g'.HasImage fn j :=
    hmoved.hasImage hs (hintact.sound.coherent j) (himage.elim (hintact.image j) fun h => h)
  have hnear := hsound.near_image (h.form_eq j ▸ hd) (h.upToDate j hvisits) himage'
  refine ⟨hnear, fun hapart => ?_⟩
  have hself : g.anchor j = j := Graph.anchor_of_isDerived hd
  by_cases hran : j ∈ ran
  · have hholds : ¬ (g.node j).memo.holds (g'.image fn j) = true := fun hholds => by
      have hlast := (g.node j).memo.near_store (g'.image fn j)
      rw [Memo.store_of_holds hholds] at hlast
      refine hapart ?_
      unfold Graph.value
      rwa [hself]
    rw [h.version_eq j hran, h.value_eq j hran, if_neg hholds, if_neg hholds]
    exact ⟨rfl, rfl⟩
  · -- A signal that was not computed has kept its outcome, which is then the one for its sources.
    rw [(h.kept j (hself.symm ▸ hran)).2] at hnear
    exact absurd hnear hapart

/-- Functions that leave notes keep to the laws of signals. -/
theorem Codes.noting_laws : Laws .lenient (.noting fn inv : Codes P F Φ _) where
  stable := Behaviour.lenient_stable
  closed := ⟨fun _ _ => trivial, fun _ _ => trivial⟩
  apply_run f p w _ _ :=
    ⟨fn f p, { w with host := w.host ++ [(f, p)] }, rfl, rfl, trivial, good_lenient _⟩
  choose_run _ _ _ _ _ _ _ _ h := h.elim

/-- However the signals of a graph without circles came to remember what they do, a reconcile
    completes.  Versions count outcomes, and only the functions of the signals that are computed
    again run.  In a graph that requests have led to, no change is hidden.  Whatever is done
    afterwards, a signal that still has its version has its outcome, and no signal is computed again
    for the same versions of its sources.  Until something is written, another reconcile changes
    nothing at all. -/
theorem reconcile_counts (hl : w.graph.Layered rank) (hd : w.graph.size < d) {id : SignalId}
    (hid : id < w.graph.size) :
    ∃ (ran : List SignalId) (w' : World P F Φ (List (F × P))),
      (Rules.ofCodes (.noting fn inv) d).reconcile id w = .ok ((), w') ∧
      Counts fn w.graph w'.graph id ran ∧
      w'.host = w.host ++ ran.flatMap (w'.graph.calls fn) ∧
      (Intact fn w.graph → HidesNothing fn w.graph w'.graph id) ∧
      ∀ requests, AllFixed w'.graph.size requests → w'.graph.size + requests.length < d →
        ∃ answers runs w'', runAll (.ofCodes (.noting fn inv) d) requests w' = .ok (answers, w'') ∧
          w''.host = w'.host ++ runs.flatMap Run.calls ∧
          (∀ run ∈ runs, ∃ g, w'.graph.Later g ∧ g.Later w''.graph ∧ run = g.run fn run.signal) ∧
          (ran.map (w'.graph.run fn) ++ runs).Pairwise Run.Apart ∧
          (∀ j < w'.graph.size, w''.graph.version j = w'.graph.version j →
            w''.graph.value j = w'.graph.value j) ∧
          (requests.any Request.isWrite = false →
            (Rules.ofCodes (.noting fn inv) d).reconcile id w'' = .ok ((), w'')) := by
  obtain ⟨ran, w', hrun, hmoves, hvisits, hrest⟩ := reconcile_moves fn inv hl hd id
  have hmoved : Moved (fun steps o o' => o' = imageOf fn steps o) w.graph w'.graph ran :=
    hmoves.moved fun _ _ _ _ _ h => h.1
  have hcounts := hmoves.counts fn hvisits hrest.upToDate
  have hl' := hl.congr hmoved.size_eq hmoved.form_eq
  refine ⟨ran, w', hrun, hcounts, hmoves.host_eq, fun hintact => ?_, fun requests hfixed hd' => ?_⟩
  · obtain ⟨w'', hrun', hsound, -⟩ := hintact.sound.reconcile Behaviour.lenient_stable
      Behaviour.lenient_regular (reconciles_ofCodes (Codes.noting_laws fn inv) d) hid
      (by rwa [Nat.one_mul])
    rw [hrun] at hrun'
    cases hrun'
    exact hcounts.hidesNothing fn hmoved hintact hsound
  · obtain ⟨answers, runs, w'', hrun', hleft⟩ := runAll_advance fn inv requests hl' hd' hfixed
    obtain ⟨rank'', hl''⟩ := hleft.layered
    refine ⟨answers, runs, w'', hrun', hleft.advance.host_eq, hleft.advance.made,
      (hmoves.advance.trans hleft.advance).apart,
      fun j hj => hleft.advance.later.value_eq hl' hl'' hj, fun hwrite => ?_⟩
    obtain ⟨d, rfl⟩ : ∃ k, d = k + 1 := ⟨d - 1, by omega⟩
    exact reconcileNode_of_atRest (hleft.atRest hwrite id (hmoved.size_eq ▸ hid) hrest)

end

/-! ### A diamond that was written -/

section

open scoped Summing

/-- A cell, two maps of it, their join with one of them twice, a label and a lift. -/
def newFork : Graph Nat Unit Unit where
  nodes := #[{ form := .cell, memo := .given (.ok 2) }, { form := .map 0 [()] (.writable ()) },
    { form := .map 0 [()] (.readOnly true) }, { form := .join [1, 2, 1] },
    { form := .label "sum" 3 }, { form := .lift 4 }]

/-- The label was read. -/
def readFork : Graph Nat Unit Unit where
  nodes := #[{ form := .cell, memo := .given (.ok 2), dependents := [.signal 1, .signal 2] },
    { form := .map 0 [()] (.writable ()), memo := ⟨some (.ok 1), 1, false⟩,
      dependents := [.signal 3], seen := [1] },
    { form := .map 0 [()] (.readOnly true), memo := ⟨some (.ok 1), 1, false⟩,
      dependents := [.signal 3], seen := [1] },
    { form := .join [1, 2, 1], memo := ⟨some (.ok 3), 1, false⟩, seen := [1, 1, 1] },
    { form := .label "sum" 3 }, { form := .lift 4 }]

/-- Then the cell was written. -/
def fork : Graph Nat Unit Unit where
  nodes := #[{ form := .cell, memo := ⟨some (.ok 1), 2, false⟩ },
    { form := .map 0 [()] (.writable ()), memo := ⟨some (.ok 1), 1, true⟩, seen := [1] },
    { form := .map 0 [()] (.readOnly true), memo := ⟨some (.ok 1), 1, true⟩, seen := [1] },
    { form := .join [1, 2, 1], memo := ⟨some (.ok 3), 1, true⟩, seen := [1, 1, 1] },
    { form := .label "sum" 3 }, { form := .lift 4 }]

theorem layered_fork : fork.Layered id := .of_forall_lt (by decide)

theorem intact_fork : Intact predecessor fork := by
  have hnew : Runs (.ofFunctions predecessor successor) Request.Fits
      (⟨{}, 0, ()⟩ : World Nat Unit Unit Unit) ⟨newFork, 0, ()⟩ :=
    .next (.create (.lift 4)) 9 (.next (.create (.label 3 "sum")) 9
      (.next (.create (.join [1, 2, 1])) 9 (.next (.create (.map 0 () true)) 9
        (.next (.create (.mapWritable 0 () ())) 9 (.next (.create (.cell (.ok 2))) 9 .now
          ⟨nofun, nofun⟩ (by decide) rfl) ⟨by decide, nofun⟩ (by decide) rfl)
        ⟨by decide, nofun⟩ (by decide) rfl) ⟨by decide, nofun⟩ (by decide) rfl)
      ⟨by decide, nofun⟩ (by decide) rfl) ⟨by decide, nofun⟩ (by decide) rfl
  have hread : Runs (.ofFunctions predecessor successor) Request.Fits
      (⟨{}, 0, ()⟩ : World Nat Unit Unit Unit) ⟨readFork, 0, ()⟩ :=
    .next (.get 4) 9 hnew (show 4 < newFork.size by decide) (by decide) (by cbv)
  have hwritten : Runs (.ofFunctions predecessor successor) Request.Fits
      (⟨{}, 0, ()⟩ : World Nat Unit Unit Unit) ⟨fork, 0, ()⟩ :=
    .next (.set 0 (.ok 1)) 9 hread (show 0 < readFork.size by decide) (by decide) (by cbv)
  exact hwritten.intact (Codes.pure_ofFunctions predecessor successor) intact_empty

/-- The label is read.  Then the cell is written through a map, another map is made, and the lift
    is read. -/
theorem reconcile_counts_fork :
    ∃ (ran : List SignalId) (w' : World Nat Unit Unit (List (Unit × Nat))),
      (Rules.ofCodes (.noting predecessor successor) 12).reconcile 4 ⟨fork, 0, []⟩ = .ok ((), w') ∧
      Counts predecessor fork w'.graph 4 ran ∧ w'.host = ran.flatMap (w'.graph.calls predecessor) ∧
      HidesNothing predecessor fork w'.graph 4 ∧
      ∃ answers runs w'', runAll (.ofCodes (.noting predecessor successor) 12)
          [.set 1 (.ok 5), .create (.mapFused 2 ()), .get 5] w' = .ok (answers, w'') ∧
        w''.host = w'.host ++ runs.flatMap Run.calls ∧
        (ran.map (w'.graph.run predecessor) ++ runs).Pairwise Run.Apart := by
  obtain ⟨ran, w', hrun, hcounts, hhost, hhides, hlater⟩ :=
    reconcile_counts predecessor successor (w := ⟨fork, 0, []⟩) (d := 12) layered_fork
      (by decide) (by decide : 4 < fork.size)
  have hsize : w'.graph.size = 6 := hcounts.size_eq
  have hfixed : AllFixed w'.graph.size
      ([.set 1 (.ok 5), .create (.mapFused 2 ()), .get 5] : List (Request Nat Unit Unit)) := by
    rw [hsize]
    exact ⟨trivial, ⟨rfl, by decide⟩, trivial, trivial⟩
  obtain ⟨answers, runs, w'', hruns, hhost', -, hapart, -, -⟩ :=
    hlater _ hfixed (by rw [hsize]; decide)
  exact ⟨ran, w', hrun, hcounts, hhost, hhides intact_fork, answers, runs, w'', hruns, hhost',
    hapart⟩

end

end ReactiveDoc.Signal
