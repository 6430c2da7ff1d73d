import ReactiveDoc.Proofs.Signal.Intact
import ReactiveDoc.Proofs.Signal.Renewing

namespace ReactiveDoc.Signal

/-!
# Writing through maps

A write to a map that can be set goes down to a cell, and every map on the way takes over what was
written to it.

* `Refuses` — there is no cell at the end, and the reason.
* `Written` — a write that went down to a cell, one map after the other.
* `set_cases`, `set_completes` — a write either is refused and changes nothing, or is such a write.
* `Carries` — the signals on the way have the outcomes that were written, and remember for what
  versions of their sources.
* `Written.carries`, `Written.memo_eq` — this holds after a write, and nothing else gets another
  outcome.
* `Carries.get` — so reading gives what was written.
-/

variable {P F Φ σ : Type} [Carrier P]

/-! ### Taking over an outcome -/

/-- A map that was written through to its source has the outcome, and notes the version that the
    source has now. -/
def Graph.adopted (g : Graph P F Φ) (id source : SignalId) (o : Outcome P) : Graph P F Φ :=
  let stored := (g.modify id fun n => { n with memo := n.memo.store o }).modify id
    fun n => { n with memo := { n.memo with dirty := false } }
  (stored.modify id fun n => { n with seen := [stored.version source] }).depend source (.signal id)

/-- A map takes over an outcome that was written through to its source, and tells its dependents
    unless it had that outcome already. -/
def Graph.takenOver (g : Graph P F Φ) (id source : SignalId) (o : Outcome P) : Graph P F Φ :=
  if (g.node id).memo.holds o then g.adopted id source o else (g.adopted id source o).notify id

theorem settleWritten_eq (id source : SignalId) (o : Outcome P) (w : World P F Φ σ) :
    settleWritten id source o w = .ok ((), w.put (w.graph.takenOver id source o)) := by
  unfold settleWritten Graph.takenOver
  rw [graph_bind_run]
  cases (w.graph.node id).memo.holds o <;> rfl

namespace Graph

variable {g : Graph P F Φ} {id source j : SignalId} {o : Outcome P}

omit [Carrier P] in
theorem modify_comm (g : Graph P F Φ) {a c : SignalId} (hne : a ≠ c)
    (f f' : Node P F Φ → Node P F Φ) : (g.modify a f).modify c f' = (g.modify c f').modify a f := by
  have hnodes : (g.nodes.modify a f).modify c f' = (g.nodes.modify c f').modify a f := by
    apply Array.ext
    · simp
    · intro i _ _
      simp only [Array.getElem_modify]
      by_cases ha : a = i
      · have hc : ¬ c = i := fun hc => hne (ha.trans hc.symm)
        simp only [if_pos ha, if_neg hc]
      · simp only [if_neg ha]
  unfold modify
  simp only [hnodes]

/-- The map with the outcome that it takes over, and a note of the version that its source has. -/
def taken (g : Graph P F Φ) (id source : SignalId) (o : Outcome P) : Node P F Φ :=
  { g.node id with
    memo := { (g.node id).memo.store o with dirty := false }, seen := [g.version source] }

/-- It registers with its source first, as that is another signal. -/
theorem adopted_eq (hid : id < g.size) (hne : g.anchor source ≠ id) (o : Outcome P) :
    g.adopted id source o = (g.depend source (.signal id)).modify id
      fun _ => (g.depend source (.signal id)).taken id source o := by
  have hb := (Becomes.modify g hid fun n => { n with memo := n.memo.store o }).next hid
    fun n => { n with memo := { n.memo with dirty := false } }
  unfold adopted
  dsimp only
  generalize hstored : (g.modify id _).modify id _ = stored at hb ⊢
  have hversion : stored.version source = (g.depend source (.signal id)).version source := by
    unfold version
    rw [hb.anchor_eq rfl, hb.node_ne _ hne, anchor_depend, (g.node_depend source _ _).2.1]
  have hanchor : (stored.modify id fun n => { n with seen := [stored.version source] }).anchor source
      = g.anchor source := (hb.next hid fun n => { n with
        seen := [stored.version source] }).anchor_eq rfl source
  unfold depend
  rw [hanchor, ← hstored, modify_modify, modify_modify, modify_comm _ hne.symm, hstored, hversion]
  exact modify_congr rfl

/-- Then it becomes another signal, and its dependents are told if it had another outcome before. -/
theorem takenOver_eq (hform : (g.node id).form.isDerived = true) (hne : g.anchor source ≠ id)
    (o : Outcome P) : g.takenOver id source o =
      if (g.node id).memo.holds o then (g.depend source (.signal id)).modify id
        fun _ => (g.depend source (.signal id)).taken id source o
      else (g.depend source (.signal id)).retold id
        ((g.depend source (.signal id)).taken id source o) := by
  have hid := g.lt_size_of_isDerived hform
  unfold takenOver
  rw [adopted_eq hid hne]
  split
  · rfl
  · generalize hg₀ : g.depend source (.signal id) = g₀
    have hid₀ : id < g₀.size := by rw [← hg₀, size_depend]; exact hid
    have hform₀ : (g₀.node id).form.isDerived = true := by
      rw [← hg₀, (g.node_depend source _ id).1]
      exact hform
    have hb := Becomes.modify g₀ hid₀ fun _ => g₀.taken id source o
    have hanchor : (g₀.modify id fun _ => g₀.taken id source o).anchor id = id :=
      anchor_of_isDerived (by rw [hb.node_eq]; exact hform₀)
    unfold notify retold
    simp only [hanchor, modify_modify, hb.node_eq]
    rfl

/-- Between two graphs of the same signals at most marks and registrations have changed. -/
structure Touched (g g' : Graph P F Φ) : Prop where
  size_eq : g'.size = g.size
  heard : ∀ j, Heard (g.node j) (g'.node j)

namespace Touched

variable {g' g'' : Graph P F Φ}

omit [Carrier P] in
theorem refl (g : Graph P F Φ) : g.Touched g := ⟨rfl, fun _ => .refl _⟩

omit [Carrier P] in
theorem trans (h : g.Touched g') (h' : g'.Touched g'') : g.Touched g'' :=
  ⟨h'.size_eq.trans h.size_eq, fun j => (h.heard j).trans (h'.heard j)⟩

omit [Carrier P] in
theorem depend (g : Graph P F Φ) (s : SignalId) (d : Dependent) : g.Touched (g.depend s d) :=
  ⟨g.size_depend s d, g.heard_depend s d⟩

omit [Carrier P] in
theorem cleaned (g : Graph P F Φ) (id : SignalId) : g.Touched (g.cleaned id) :=
  ⟨g.size_modify id _, g.heard_modify id (f := fun n => { n with
    memo := { n.memo with dirty := false } }) fun _ => ⟨rfl, rfl, rfl, rfl⟩⟩

omit [Carrier P] in
theorem anchor_eq (h : g.Touched g') (s : SignalId) : g'.anchor s = g.anchor s :=
  anchor_congr h.size_eq (fun j => (h.heard j).form_eq) s

omit [Carrier P] in
theorem version_eq (h : g.Touched g') (s : SignalId) : g'.version s = g.version s := by
  unfold version
  rw [h.anchor_eq, (h.heard _).version_eq]

omit [Carrier P] in
theorem value_eq (h : g.Touched g') (s : SignalId) : g'.value s = g.value s := by
  unfold value Memo.read
  rw [h.anchor_eq, (h.heard _).outcome?_eq]

end Touched

section

variable (hform : (g.node id).form.isDerived = true) (hne : g.anchor source ≠ id)

include hform hne

/-- The map has the outcome and notes the version of its source, and all else is at most marked. -/
theorem heard_takenOver (o : Outcome P) : (g.takenOver id source o).size = g.size ∧
    (∀ j, j ≠ id → Heard (g.node j) ((g.takenOver id source o).node j)) ∧
    Heard (g.taken id source o) ((g.takenOver id source o).node id) := by
  have hid := g.lt_size_of_isDerived hform
  rw [takenOver_eq hform hne]
  generalize hg₀ : g.depend source (.signal id) = g₀
  have htouched : g.Touched g₀ := hg₀ ▸ .depend g source _
  have hid₀ : id < g₀.size := by rwa [htouched.size_eq]
  -- The new registration is no matter of what is taken over.
  have htaken : Heard (g.taken id source o) (g₀.taken id source o) := by
    have hheard := htouched.heard id
    obtain ⟨houtcome, hversion⟩ :=
      (g.node id).memo.store_congr hheard.outcome?_eq hheard.version_eq o
    refine ⟨hheard.form_eq, houtcome, hversion, ?_⟩
    show [g₀.version source] = [g.version source]
    rw [htouched.version_eq]
  split
  · have hb := Becomes.modify g₀ hid₀ fun _ => g₀.taken id source o
    refine ⟨hb.size_eq.trans htouched.size_eq, fun j hj => ?_, ?_⟩
    · rw [hb.node_ne j hj]
      exact htouched.heard j
    · rw [hb.node_eq]
      exact htaken
  · refine ⟨(size_retold ..).trans htouched.size_eq,
      fun j hj => (htouched.heard j).trans (g₀.heard_retold _ hj), htaken.trans ?_⟩
    rcases node_retold_self (g₀.taken id source o) hid₀ with h | h <;> rw [h] <;>
      exact ⟨rfl, rfl, rfl, rfl⟩

theorem form_takenOver (o : Outcome P) (j : SignalId) :
    ((g.takenOver id source o).node j).form = (g.node j).form := by
  obtain ⟨-, hother, hself⟩ := heard_takenOver hform hne o
  by_cases hj : j = id
  · rw [hj]
    exact hself.form_eq
  · exact (hother j hj).form_eq

theorem anchor_takenOver (o : Outcome P) (s : SignalId) :
    (g.takenOver id source o).anchor s = g.anchor s :=
  anchor_congr (heard_takenOver hform hne o).1 (form_takenOver hform hne o) s

end

end Graph

/-! ### Running writes -/

/-- A write to the signal does not get to a cell, and the reason. -/
inductive Refuses (g : Graph P F Φ) : SignalId → SignalError → Prop
  | waiting {id : SignalId} (hform : (g.node (g.anchor id)).form = .reference none) :
      Refuses g id .unresolvedRef
  | readOnly {id : SignalId} (hform : (g.node (g.anchor id)).form.isReadOnly = true) :
      Refuses g id (.readOnly (g.node (g.anchor id)).form.kind)
  | through {id source : SignalId} {steps : List F} {inverse : F} {e : SignalError}
      (hform : (g.node (g.anchor id)).form = .map source steps (.writable inverse))
      (h : Refuses g source e) : Refuses g id e

/-- A write to a signal that gets to a cell: the maps on the way take over what was written to
    them, after their sources. -/
inductive Written (codes : Codes P F Φ σ) (inv : F → P → P) :
    Nat → World P F Φ σ → SignalId → Outcome P → World P F Φ σ → Prop
  | cell {d : Nat} {w : World P F Φ σ} {id : SignalId} {o : Outcome P}
      (hform : (w.graph.node (w.graph.anchor id)).form = .cell) :
      Written codes inv (d + 1) w id o (w.put (w.graph.written (w.graph.anchor id) o))
  | through {d : Nat} {w w₁ w₂ : World P F Φ σ} {id source : SignalId} {steps : List F}
      {inverse : F} {o : Outcome P}
      (hform : (w.graph.node (w.graph.anchor id)).form = .map source steps (.writable inverse))
      (hsource : Written codes inv d w source (o.map (inv inverse)) w₁)
      (hread : (Rules.ofCodes codes d).reconcile source w₁ = .ok ((), w₂)) :
      Written codes inv (d + 1) w id o
        (w₂.put (w₂.graph.takenOver (w.graph.anchor id) source o))

section

variable {fn : F → P → Outcome P} {inv : F → P → P} {codes : Codes P F Φ σ} {r : Rules P F Φ σ}
  {w w' : World P F Φ σ} {rank : SignalId → Nat} {d : Nat} {id source : SignalId} {o : Outcome P}

/-- A map hands down the preimage of what is written, and takes the outcome over if that was
    written. -/
theorem setWritable_eq {inverse : F}
    (hinvert : ∀ p w, r.invert inverse p w = .ok (inv inverse p, w)) :
    setWritable r id source inverse o w = (do
      match ← r.set source (o.map (inv inverse)) with
      | .error e => pure (.error e)
      | .ok () =>
          r.reconcile source
          settleWritten id source o
          pure (.ok ()) : Action P F Φ σ (Except SignalError Unit)) w := by
  unfold setWritable
  cases o with
  | error e => rfl
  | ok p =>
    have hpreimage : (Except.ok <$> r.invert inverse p : Action P F Φ σ (Outcome P)) w
        = .ok (.ok (inv inverse p), w) := by
      rw [map_eq_pure_bind, bind_run (hinvert p w)]
      rfl
    dsimp only
    rw [bind_run hpreimage]
    rfl

/-- A write that completes was refused and has changed nothing, or has got to a cell. -/
theorem set_cases (hpure : codes.Pure fn inv) {result : Except SignalError Unit}
    (hrun : (Rules.ofCodes codes d).set id o w = .ok (result, w')) :
    (∃ e, result = .error e ∧ w' = w ∧ Refuses w.graph id e) ∨
      (result = .ok () ∧ Written codes inv d w id o w') := by
  induction d generalizing id o result w' with
  | zero => cases hrun
  | succ d ih =>
    have hrun : setNode (.ofCodes codes d) id o w = .ok (result, w') := hrun
    unfold setNode at hrun
    rw [graph_bind_run] at hrun
    have hrefused (e : SignalError) (h : Refuses w.graph id e)
        (hrun : (Except.ok (Except.error e, w) : Except Fault _) = .ok (result, w')) :
        (∃ e, result = .error e ∧ w' = w ∧ Refuses w.graph id e) ∨
          (result = .ok () ∧ Written codes inv (d + 1) w id o w') := by
      cases hrun
      exact .inl ⟨e, rfl, rfl, h⟩
    have hreadOnly {form : Form F Φ} (hform : (w.graph.node (w.graph.anchor id)).form = form)
        (h : form.isReadOnly = true) : Refuses w.graph id (.readOnly form.kind) := by
      subst hform
      exact .readOnly h
    -- What a write does is decided by the form of the signal behind labels and references.
    generalize hform : (w.graph.node (w.graph.anchor id)).form = form at hrun
    cases form with
    | cell =>
      dsimp only at hrun
      rw [bind_run (setCell_eq hform o)] at hrun
      cases hrun
      exact .inr ⟨rfl, .cell hform⟩
    | map source steps role =>
      cases role with
      | readOnly uniform => exact hrefused _ (hreadOnly hform rfl) hrun
      | writable inverse =>
        dsimp only at hrun
        -- A written map writes its source one level below.
        obtain ⟨d, rfl⟩ : ∃ k, d = k + 1 := by
          cases d with
          | zero =>
            unfold setWritable at hrun
            cases o <;> cases hrun
          | succ d => exact ⟨d, rfl⟩
        rw [setWritable_eq (hpure.invert_run inverse)] at hrun
        obtain ⟨first, w₁, hset, hrest⟩ := exists_of_bind hrun
        rcases ih hset with ⟨e, rfl, rfl, hrefuses⟩ | ⟨rfl, hwritten⟩
        · exact hrefused e (.through hform hrefuses) hrest
        · obtain ⟨_, w₂, hread, hsettle⟩ := exists_of_bind hrest
          rw [bind_run (settleWritten_eq _ source o w₂)] at hsettle
          cases hsettle
          exact .inr ⟨rfl, .through hform hwritten hread⟩
    | reference target? =>
      cases target? with
      | none => exact hrefused _ (.waiting hform) hrun
      | some target => cases hrun
    | label name source => cases hrun
    | _ => exact hrefused _ (hreadOnly hform rfl) hrun

/-! ### Reading what was written -/

/-- The signals that a write goes through have the outcomes that were written to them, and the maps
    among them note the versions that their sources have. -/
inductive Carries (inv : F → P → P) (g : Graph P F Φ) : SignalId → Outcome P → Prop
  | cell {id : SignalId} {o : Outcome P} (hform : (g.node (g.anchor id)).form = .cell)
      (hvalue : Near (g.value id) o) (hsome : g.Computed id) : Carries inv g id o
  | through {id source : SignalId} {steps : List F} {inverse : F} {o : Outcome P}
      (hform : (g.node (g.anchor id)).form = .map source steps (.writable inverse))
      (hvalue : Near (g.value id) o) (hsome : g.Computed id)
      (hseen : (g.node (g.anchor id)).seen = [g.version source])
      (h : Carries inv g source (o.map (inv inverse))) : Carries inv g id o

theorem Carries.value {g : Graph P F Φ} (h : Carries inv g id o) : Near (g.value id) o := by
  cases h with
  | cell _ hvalue _ => exact hvalue
  | through _ hvalue => exact hvalue

theorem Carries.computed {g : Graph P F Φ} (h : Carries inv g id o) : g.Computed id := by
  cases h with
  | cell _ _ hsome => exact hsome
  | through _ _ hsome => exact hsome

/-- The chain stays where its signals are at most marked. -/
theorem Carries.of_heard {g g' : Graph P F Φ} (h : Carries inv g id o) (hd : g.Descends rank)
    (hanchor : ∀ s, g'.anchor s = g.anchor s)
    (hheard : ∀ j, rank j ≤ rank (g.anchor id) → Graph.Heard (g.node j) (g'.node j)) :
    Carries inv g' id o := by
  have hvalue {s : SignalId} (hs : rank (g.anchor s) ≤ rank (g.anchor id)) :
      g'.value s = g.value s := by
    unfold Graph.value Memo.read
    rw [hanchor, (hheard _ hs).outcome?_eq]
  have hcomputed {s : SignalId} (hs : rank (g.anchor s) ≤ rank (g.anchor id))
      (h : g.Computed s) : g'.Computed s := by
    unfold Graph.Computed at h ⊢
    rwa [hanchor, (hheard _ hs).outcome?_eq]
  induction h with
  | @cell id o hform hv hsome =>
    refine .cell ?_ (by rwa [hvalue (Nat.le_refl _)]) (hcomputed (Nat.le_refl _) hsome)
    rw [hanchor, (hheard _ (Nat.le_refl _)).form_eq, hform]
  | @through id source steps inverse o hform hv hsome hseen _ ih =>
    have hself := hheard (g.anchor id) (Nat.le_refl _)
    have hlt : rank (g.anchor source) < rank (g.anchor id) :=
      Nat.lt_of_le_of_lt (Graph.rank_anchor_le hd source)
        (hd _ source (by rw [hform]; exact List.mem_singleton_self _))
    have hle := Nat.le_of_lt hlt
    have hform' : (g'.node (g'.anchor id)).form = .map source steps (.writable inverse) := by
      rw [hanchor, hself.form_eq, hform]
    refine .through hform' (by rwa [hvalue (Nat.le_refl _)]) (hcomputed (Nat.le_refl _) hsome) ?_
      (ih (fun j hj => hheard j (hj.trans hle)) (fun hs => hvalue (hs.trans hle))
        fun hs => hcomputed (hs.trans hle))
    have hversion : g'.version source = g.version source := by
      unfold Graph.version
      rw [hanchor, (hheard _ hle).version_eq]
    rw [hanchor, hself.seen_eq, hseen, hversion]

/-- A reconcile of the signal finds everything as it was written, and at most takes marks away. -/
theorem Carries.reconcile (h : Carries inv w.graph id o) (codes : Codes P F Φ σ)
    (hd : w.graph.Descends rank) (hdepth : rank (w.graph.anchor id) < d) :
    ∃ g', (Rules.ofCodes codes d).reconcile id w = .ok ((), w.put g') ∧ w.graph.Touched g' := by
  generalize hg : w.graph = g at h
  induction h generalizing w d with
  | @cell id o hform _ _ =>
    subst hg
    obtain ⟨d, rfl⟩ : ∃ k, d = k + 1 := ⟨d - 1, by omega⟩
    exact ⟨w.graph, reconcileNode_of_atRest fun _ => .inr hform, .refl _⟩
  | @through id source steps inverse o hform hvalue hsome hseen _ ih =>
    subst hg
    obtain ⟨d, rfl⟩ : ∃ k, d = k + 1 := ⟨d - 1, by omega⟩
    cases hdirty : (w.graph.node (w.graph.anchor id)).memo.dirty with
    | false =>
      refine ⟨w.graph, reconcileNode_of_atRest fun h => ?_, .refl _⟩
      rw [hdirty] at h
      cases h
    | true =>
      have hlt : rank (w.graph.anchor source) < rank (w.graph.anchor id) :=
        Nat.lt_of_le_of_lt (Graph.rank_anchor_le hd source)
          (hd _ source (by rw [hform]; exact List.mem_singleton_self _))
      obtain ⟨g₁, hrun, htouched⟩ := ih hd (d := d) (by omega) rfl
      generalize hme : w.graph.anchor id = me at *
      have htouched₂ := htouched.trans (.depend g₁ source (.signal me))
      generalize hg₂ : g₁.depend source (.signal me) = g₂ at htouched₂
      -- The source has the version that was noted.
      have hfresh : ((g₂.node me).memo.outcome?.isNone || (g₂.node me).seen != [g₂.version source])
          = false := by
        rw [isStale_eq_false_iff, (htouched₂.heard me).outcome?_eq, (htouched₂.heard me).seen_eq,
          htouched₂.version_eq]
        unfold Graph.Computed at hsome
        rw [hme] at hsome
        exact ⟨hsome, hseen⟩
      refine ⟨g₂.cleaned me, ?_, htouched₂.trans (.cleaned g₂ me)⟩
      show reconcileNode _ id w = _
      unfold reconcileNode
      rw [graph_bind_run]
      simp only [hme, hdirty, if_true, hform]
      unfold reconcileImage
      rw [bind_run hrun]
      simp only [register_bind_run, graph_bind_run, World.put_graph, World.put_put, hg₂]
      rw [isStale_bind_run (w.put g₂) hfresh]
      rfl

/-! ### What a write changes -/

/-- A write to the signal goes through another one, if it is not refused. -/
inductive Graph.Passes (g : Graph P F Φ) (j : SignalId) : SignalId → Prop
  | here {id : SignalId} (hid : g.anchor id = j) : Passes g j id
  | through {id source : SignalId} {steps : List F} {inverse : F}
      (hform : (g.node (g.anchor id)).form = .map source steps (.writable inverse))
      (h : Passes g j source) : Passes g j id

omit [Carrier P] in
theorem Graph.rank_source_lt {g : Graph P F Φ} (hd : g.Descends rank) {me : SignalId}
    {steps : List F} {role : MapRole F} (hform : (g.node me).form = .map source steps role) :
    rank (g.anchor source) < rank me :=
  Nat.lt_of_le_of_lt (Graph.rank_anchor_le hd source)
    (hd me source (by rw [hform]; exact List.mem_singleton_self _))

omit [Carrier P] in
theorem Graph.Passes.rank_le {g : Graph P F Φ} {j : SignalId} (h : g.Passes j id)
    (hd : g.Descends rank) : rank j ≤ rank (g.anchor id) := by
  induction h with
  | here hid => rw [hid]
  | through hform _ ih => exact ih.trans (Nat.le_of_lt (Graph.rank_source_lt hd hform))

/-- An outcome was written to a signal: those that the write goes through have what was written to
    them, and all else is at most marked. -/
structure Rewritten (inv : F → P → P) (g : Graph P F Φ) (id : SignalId) (o : Outcome P)
    (g' : Graph P F Φ) : Prop where
  size_eq : g'.size = g.size
  form_eq : ∀ j, (g'.node j).form = (g.node j).form
  ahead : ∀ j, (g.node j).memo.Ahead (g'.node j).memo
  isSome : ∀ j, (g.node j).memo.outcome?.isSome = true → (g'.node j).memo.outcome?.isSome = true
  heard : ∀ j, ¬ g.Passes j id → Graph.Heard (g.node j) (g'.node j)
  carries : Carries inv g' id o
  outcome?_eq : (g'.node (g.anchor id)).memo.outcome?
    = ((g.node (g.anchor id)).memo.store o).outcome?
  stored_version : (g'.node (g.anchor id)).memo.version
    = ((g.node (g.anchor id)).memo.store o).version

namespace Rewritten

variable {g g' : Graph P F Φ}

theorem anchor_eq (h : Rewritten inv g id o g') (s : SignalId) : g'.anchor s = g.anchor s :=
  Graph.anchor_congr h.size_eq h.form_eq s

theorem descends (h : Rewritten inv g id o g') (hd : g.Descends rank) : g'.Descends rank := by
  intro j
  rw [h.form_eq]
  exact hd j

theorem computed (h : Rewritten inv g id o g') {s : SignalId} (hs : g.Computed s) :
    g'.Computed s := by
  unfold Graph.Computed at hs ⊢
  rw [h.anchor_eq]
  exact h.isSome _ hs

/-- The version counts the outcomes that are told apart. -/
theorem version_eq (h : Rewritten inv g id o g') : g'.version id =
    if (g.node (g.anchor id)).memo.holds o then g.version id else g.version id + 1 := by
  unfold Graph.version
  rw [h.anchor_eq, h.stored_version, Memo.store_version]

end Rewritten

/-- The outcome of a signal after it was stored. -/
theorem Graph.near_value_of_stored {g g' : Graph P F Φ} {me : SignalId} (hanchor : g'.anchor id = me)
    (h : (g'.node me).memo.outcome? = ((g.node me).memo.store o).outcome?) :
    Near (g'.value id) o := by
  unfold Graph.value Memo.read
  rw [hanchor, h]
  exact Memo.near_store _ o

theorem Graph.computed_of_stored {g g' : Graph P F Φ} {me : SignalId} (hanchor : g'.anchor id = me)
    (h : (g'.node me).memo.outcome? = ((g.node me).memo.store o).outcome?) : g'.Computed id := by
  unfold Graph.Computed
  rw [hanchor, h]
  exact Memo.isSome_store _ o

/-- A cell is written. -/
theorem rewritten_cell {g : Graph P F Φ} (hform : (g.node (g.anchor id)).form = .cell)
    (o : Outcome P) : Rewritten inv g id o (g.written (g.anchor id) o) := by
  generalize hc : g.anchor id = c at *
  have hlt : c < g.size := g.lt_size_of_form_ne (by rw [hform]; simp)
  have hcarries {g' : Graph P F Φ} (hanchor : g'.anchor id = c) (hform' : (g'.node c).form = .cell)
      (houtcome : (g'.node c).memo.outcome? = ((g.node c).memo.store o).outcome?) :
      Carries inv g' id o :=
    .cell (hanchor ▸ hform') (Graph.near_value_of_stored hanchor houtcome)
      (Graph.computed_of_stored hanchor houtcome)
  unfold Graph.written
  -- An equal outcome leaves the graph as it is; any other is stored and told.
  cases hholds : (g.node c).memo.holds o with
  | true =>
    have hstore := Memo.store_of_holds hholds
    simp only [if_true]
    refine ⟨rfl, fun _ => rfl, fun _ => .refl _, fun _ h => h, fun _ _ => .refl _, ?_, ?_, ?_⟩
    · exact hcarries hc hform (by rw [hstore])
    all_goals rw [hc, hstore]
  | false =>
    simp only [Bool.false_eq_true, if_false]
    generalize hn : ({ g.node c with memo := (g.node c).memo.store o } : Node P F Φ) = n
    have hnform : n.form = (g.node c).form := by rw [← hn]
    have hnmemo : n.memo = (g.node c).memo.store o := by rw [← hn]
    have hself : ((g.retold c n).node c).memo.outcome? = n.memo.outcome? ∧
        ((g.retold c n).node c).memo.version = n.memo.version := by
      rcases Graph.node_retold_self n hlt with h | h <;> rw [h] <;> exact ⟨rfl, rfl⟩
    have hall := Graph.form_retold_eq hnform hlt
    refine ⟨g.size_retold c n, hall, fun j => ?_, fun j hsome => ?_, fun j hj => ?_, ?_, ?_, ?_⟩
    · by_cases hj : j = c
      · subst hj
        have hahead := (g.node j).memo.ahead_store o
        rw [← hnmemo] at hahead
        exact ⟨hself.2 ▸ hahead.version_le, fun hv hsome => by
          rw [hself.1] at hsome ⊢
          exact hahead.outcome?_eq (hself.2 ▸ hv) hsome⟩
      · exact (g.heard_retold n hj).ahead
    · by_cases hj : j = c
      · rw [hj, hself.1, hnmemo]
        exact Memo.isSome_store _ o
      · rwa [(g.heard_retold n hj).outcome?_eq]
    · exact g.heard_retold n fun heq => hj (.here (hc.trans heq.symm))
    · refine hcarries ?_ (by rw [hall, hform]) (by rw [hself.1, hnmemo])
      rw [Graph.anchor_retold hnform hlt, hc]
    · rw [hc, hself.1, hnmemo]
    · rw [hc, hself.2, hnmemo]

/-- A map takes over what was written to it after its source was written. -/
theorem rewritten_through {g g₁ g₂ : Graph P F Φ} (hd : g.Descends rank) {steps : List F}
    {inverse : F} (hform : (g.node (g.anchor id)).form = .map source steps (.writable inverse))
    (hsource : Rewritten inv g source (o.map (inv inverse)) g₁) (htouched : g₁.Touched g₂) :
    Rewritten inv g id o (g₂.takenOver (g.anchor id) source o) := by
  generalize hme : g.anchor id = me at *
  have hlt := Graph.rank_source_lt hd hform
  have hanchor₂ (s : SignalId) : g₂.anchor s = g.anchor s :=
    (htouched.anchor_eq s).trans (hsource.anchor_eq s)
  have hne : g₂.anchor source ≠ me := by
    rw [hanchor₂]
    intro heq
    rw [heq] at hlt
    exact Nat.lt_irrefl _ hlt
  have hform₂ (j : SignalId) : (g₂.node j).form = (g.node j).form :=
    (htouched.heard j).form_eq.trans (hsource.form_eq j)
  have hderived : (g₂.node me).form.isDerived = true := by
    rw [hform₂, hform]
    rfl
  obtain ⟨hsize₃, hother, hself⟩ := Graph.heard_takenOver hderived hne o
  have hform₃ := Graph.form_takenOver hderived hne o
  have hanchor₃ := Graph.anchor_takenOver hderived hne o
  generalize g₂.takenOver me source o = g₃ at *
  -- Nothing has happened to the map itself before.
  have hbefore : Graph.Heard (g.node me) (g₂.node me) := by
    refine (hsource.heard me fun hpasses => ?_).trans (htouched.heard me)
    exact absurd (hpasses.rank_le hd) (Nat.not_le.mpr hlt)
  obtain ⟨houtcome, hversion⟩ :=
    (g.node me).memo.store_congr hbefore.outcome?_eq hbefore.version_eq o
  have hstored : (g₃.node me).memo.outcome? = ((g.node me).memo.store o).outcome? :=
    hself.outcome?_eq.trans houtcome
  have hd₂ : g₂.Descends rank := fun j => by
    rw [hform₂]
    exact hd j
  refine ⟨hsize₃.trans (htouched.size_eq.trans hsource.size_eq),
    fun j => (hform₃ j).trans (hform₂ j), fun j => ?_, fun j hsome => ?_, fun j hj => ?_, ?_, ?_, ?_⟩
  · refine ((hsource.ahead j).trans (htouched.heard j).ahead).trans ?_
    by_cases hj : j = me
    · subst hj
      have hahead := (g₂.node j).memo.ahead_store o
      have htaken : (g₂.node j).memo.Ahead (g₂.taken j source o).memo :=
        ⟨hahead.version_le, hahead.outcome?_eq⟩
      exact htaken.trans hself.ahead
    · exact (hother j hj).ahead
  · by_cases hj : j = me
    · rw [hj, hstored]
      exact Memo.isSome_store _ o
    · rw [(hother j hj).outcome?_eq, (htouched.heard j).outcome?_eq]
      exact hsource.isSome j hsome
  · have hjme : j ≠ me := fun heq => hj (.here (hme.trans heq.symm))
    exact ((hsource.heard j fun h => hj (.through (hme.symm ▸ hform) h)).trans
      (htouched.heard j)).trans (hother j hjme)
  · have hmap : (g₃.node (g₃.anchor id)).form = .map source steps (.writable inverse) := by
      rw [hanchor₃, hanchor₂, hme, hform₃, hform₂, hform]
    have hself₃ : g₃.anchor id = me := by rw [hanchor₃, hanchor₂, hme]
    refine .through hmap (Graph.near_value_of_stored hself₃ hstored)
      (Graph.computed_of_stored hself₃ hstored) ?_ ?_
    · have hversion : g₃.version source = g₂.version source := by
        unfold Graph.version
        rw [hanchor₃, (hother _ hne).version_eq]
      rw [hanchor₃, hanchor₂, hme, hself.seen_eq, hversion]
      rfl
    · have hcarries := hsource.carries.of_heard (hsource.descends hd) htouched.anchor_eq
        fun j _ => htouched.heard j
      refine hcarries.of_heard hd₂ hanchor₃ fun j hj => hother j ?_
      rintro rfl
      rw [hanchor₂] at hj
      omega
  · rw [hme, hstored]
  · rw [hme, hself.version_eq]
    exact hversion

section

variable (hd : w.graph.Descends rank) (hdepth : rank (w.graph.anchor id) < d)

include hd hdepth

/-- A write that gets to a cell leaves what was written, and at most marks besides. -/
theorem Written.rewritten (h : Written codes inv d w id o w') :
    Rewritten inv w.graph id o w'.graph := by
  induction h with
  | cell hform => exact rewritten_cell hform _
  | @through d w w₁ w₂ id source steps inverse o hform _ hread ih =>
    have hlt := Graph.rank_source_lt hd hform
    have hsource := ih hd (by omega)
    obtain ⟨g₂, hread', htouched⟩ := hsource.carries.reconcile codes
      (hsource.descends hd) (d := d) (by rw [hsource.anchor_eq]; omega)
    rw [hread] at hread'
    cases hread'
    exact rewritten_through hd hform hsource htouched

/-- With more depth than rank a write completes. -/
theorem set_completes (hpure : codes.Pure fn inv) (o : Outcome P) :
    ∃ result w', (Rules.ofCodes codes d).set id o w = .ok (result, w') := by
  induction d generalizing id o with
  | zero => exact absurd hdepth (Nat.not_lt_zero _)
  | succ d ih =>
    have htarget := Graph.target?_anchor hd id
    show ∃ result w', setNode (Rules.ofCodes codes d) id o w = _
    unfold setNode
    rw [graph_bind_run]
    cases hform : (w.graph.node (w.graph.anchor id)).form with
    | cell =>
      dsimp only
      rw [bind_run (setCell_eq hform o)]
      exact ⟨_, _, rfl⟩
    | map source steps role =>
      cases role with
      | readOnly uniform => exact ⟨_, _, rfl⟩
      | writable inverse =>
        have hlt := Graph.rank_source_lt hd hform
        have hdepth' : rank (w.graph.anchor source) < d := by omega
        obtain ⟨d, rfl⟩ : ∃ k, d = k + 1 := ⟨d - 1, by omega⟩
        dsimp only
        rw [setWritable_eq (hpure.invert_run inverse)]
        obtain ⟨result, w₁, hset⟩ := ih hdepth' (o.map (inv inverse))
        rw [bind_run hset]
        -- If the source takes the outcome, it is read back before the map takes it over.
        rcases set_cases hpure hset with ⟨e, rfl, rfl, -⟩ | ⟨rfl, hwritten⟩
        · exact ⟨_, _, rfl⟩
        · have hsource := hwritten.rewritten hd hdepth'
          obtain ⟨g₂, hread, -⟩ := hsource.carries.reconcile codes
            (hsource.descends hd) (d := d + 1) (by rw [hsource.anchor_eq]; exact hdepth')
          dsimp only
          rw [bind_run hread, bind_run (settleWritten_eq _ source o _)]
          exact ⟨_, _, rfl⟩
    | reference target? =>
      cases target? with
      | none => exact ⟨_, _, rfl⟩
      | some target =>
        rw [hform] at htarget
        cases htarget
    | label name source =>
      rw [hform] at htarget
      cases htarget
    | _ => exact ⟨_, _, rfl⟩

end

end

end ReactiveDoc.Signal
