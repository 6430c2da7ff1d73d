import ReactiveDoc.Proofs.Signal.Through
import ReactiveDoc.Proofs.Signal.Relating

namespace ReactiveDoc.Signal

/-!
# What was written stays until the source changes

Whatever is asked of the graph, a map that can be set keeps what was written to it as long as its
source keeps its version and it is not written again.

* `Graph.Fed` — a map comes from a source, whose outcome is that of one signal for good.
* `Stays` — what may become of a world in which the map has noted the version of its source.
* `Rules.Stay` — the operations on the signals below do nothing else.
* `Rules.Stay.reconcileNode`, `Rules.Stay.setNode` — nor do those on the signals above.
-/

variable {P F Φ σ α β : Type}

/-! ### Anchors that stay -/

namespace Graph

variable {g g' : Graph P F Φ} {s : SignalId}

theorem anchorWithin_of_target?_none (h : (g.node s).form.target? = none) (fuel : Nat) :
    g.anchorWithin fuel s = s := by
  cases fuel with
  | zero => rfl
  | succ fuel =>
    rw [anchorWithin]
    simp only [h]

/-- A way that has come to its end within the fuel leads there in every later graph. -/
theorem anchorWithin_of_forms
    (hform : ∀ id, (g.node id).form ≠ .reference none → (g'.node id).form = (g.node id).form)
    (fuel more : Nat) (hend : (g.node (g.anchorWithin fuel s)).form.target? = none)
    (hknown : (g.node (g.anchorWithin fuel s)).form ≠ .reference none) :
    g'.anchorWithin (fuel + more) s = g.anchorWithin fuel s := by
  induction fuel generalizing s with
  | zero =>
    refine anchorWithin_of_target?_none ?_ _
    rw [hform s hknown]
    exact hend
  | succ fuel ih =>
    rw [Nat.succ_add, anchorWithin, anchorWithin]
    cases ht : (g.node s).form.target? with
    | none =>
      have hself : g.anchorWithin (fuel + 1) s = s := anchorWithin_of_target?_none ht _
      rw [hself] at hknown
      simp only [hform s hknown, ht]
    | some t =>
      have hstep : g.anchorWithin (fuel + 1) s = g.anchorWithin fuel t := by
        rw [anchorWithin]
        simp only [ht]
      rw [hstep] at hend hknown
      have hne : (g.node s).form ≠ .reference none := by
        intro hf
        rw [hf] at ht
        cases ht
      simp only [hform s hne, ht]
      exact ih hend hknown

/-- What a signal stands for in the end is known, and no other signal. -/
structure Anchored (g : Graph P F Φ) (s : SignalId) : Prop where
  target : (g.node (g.anchor s)).form.target? = none
  known : (g.node (g.anchor s)).form ≠ .reference none

/-- The map comes from the source. -/
structure Fed (g : Graph P F Φ) (m source : SignalId) : Prop where
  form : ∃ steps role, (g.node m).form = .map source steps role
  anchored : g.Anchored source

theorem Fed.known {m source : SignalId} (h : g.Fed m source) :
    (g.node m).form ≠ .reference none := by
  obtain ⟨steps, role, hform⟩ := h.form
  rw [hform]
  exact nofun

end Graph

/-! ### What becomes of a world -/

/-- No map is made anew. -/
def Stamps.none : Stamps P F where
  old _ _ := True
  fresh _ := False
  mono _ _ := trivial

theorem lasting_none {form : Form F Φ} (h : form ≠ .reference none) :
    form.Lasting (Stamps.none : Stamps P F) := by
  refine ⟨h, fun hrenews => ?_⟩
  match form, hrenews with
  | .map source [f] (.readOnly _), hfresh => exact hfresh

section

variable {w w₁ w₂ : World P F Φ σ} {m source id s : SignalId}

theorem Ageing.anchor_eq (h : Ageing .none w w₁) (hs : w.graph.Anchored s) :
    w₁.graph.anchor s = w.graph.anchor s := by
  obtain ⟨more, hmore⟩ := Nat.exists_eq_add_of_le h.size_le
  unfold Graph.anchor
  rw [hmore, show w.graph.size + more + 1 = w.graph.size + 1 + more by omega]
  exact Graph.anchorWithin_of_forms h.form_eq _ more hs.target hs.known

theorem Ageing.anchored (h : Ageing .none w w₁) (hs : w.graph.Anchored s) :
    w₁.graph.Anchored s := by
  have hform := h.form_eq _ hs.known
  refine ⟨?_, ?_⟩ <;> rw [h.anchor_eq hs, hform]
  · exact hs.target
  · exact hs.known

theorem Ageing.ahead_anchor (h : Ageing .none w w₁) (hs : w.graph.Anchored s) :
    (w.graph.node (w.graph.anchor s)).memo.Ahead (w₁.graph.node (w₁.graph.anchor s)).memo := by
  rw [h.anchor_eq hs]
  exact h.ahead _ hs.known

theorem Ageing.version_le (h : Ageing .none w w₁) (hs : w.graph.Anchored s) :
    w.graph.version s ≤ w₁.graph.version s := (h.ahead_anchor hs).version_le

theorem Ageing.fed (h : Ageing .none w w₁) (hfed : w.graph.Fed m source) :
    w₁.graph.Fed m source := by
  refine ⟨?_, h.anchored hfed.anchored⟩
  rw [h.form_eq m hfed.known]
  exact hfed.form

/-- The map has an outcome, and has noted a version of its source that is not one to come. -/
structure Graph.Notes (g : Graph P F Φ) (m source : SignalId) (v : Nat) : Prop where
  seen_eq : (g.node m).seen = [v]
  isSome : (g.node m).memo.outcome?.isSome = true
  le : v ≤ g.version source

/-- The world only ages, and the map keeps what it remembers as long as its source keeps the version
    that it has noted.  The source goes on to have an outcome. -/
structure Stays (m source : SignalId) (w w' : World P F Φ σ) : Prop where
  ageing : Ageing .none w w'
  computed : w.graph.Fed m source → w.graph.Computed source → w'.graph.Computed source
  kept : ∀ v, w.graph.Fed m source → w.graph.Notes m source v → w'.graph.version source = v →
    Graph.Heard (w.graph.node m) (w'.graph.node m)

namespace Stays

theorem refl (w : World P F Φ σ) : Stays m source w w :=
  ⟨.refl w, fun _ h => h, fun _ _ _ _ => .refl _⟩

/-- In between the source has the version as well. -/
theorem between (h : Stays m source w w₁) (h' : Ageing .none w₁ w₂) {v : Nat}
    (hfed : w.graph.Fed m source) (hnotes : w.graph.Notes m source v)
    (hversion : w₂.graph.version source = v) :
    w₁.graph.version source = v ∧ w₁.graph.Notes m source v := by
  have hle := h.ageing.version_le hfed.anchored
  have hle' := h'.version_le (h.ageing.anchored hfed.anchored)
  have hnotesLe := hnotes.le
  have hv : w₁.graph.version source = v := by omega
  have hheard := h.kept v hfed hnotes hv
  refine ⟨hv, ?_, ?_, Nat.le_of_eq hv.symm⟩
  · rw [hheard.seen_eq]
    exact hnotes.seen_eq
  · rw [hheard.outcome?_eq]
    exact hnotes.isSome

theorem trans (h : Stays m source w w₁) (h' : Stays m source w₁ w₂) : Stays m source w w₂ := by
  refine ⟨h.ageing.trans h'.ageing, fun hfed hcomputed => ?_, fun v hfed hnotes hversion => ?_⟩
  · exact h'.computed (h.ageing.fed hfed) (h.computed hfed hcomputed)
  obtain ⟨hv, hnotes₁⟩ := h.between h'.ageing hfed hnotes hversion
  exact (h.kept v hfed hnotes hv).trans
    (h'.kept v (h.ageing.fed hfed) hnotes₁ hversion)

/-- Where nothing is more than marked, it stays. -/
theorem of_heard (h : Ageing .none w w₁) (hheard : ∀ j, (w.graph.node j).form ≠ .reference none →
    Graph.Heard (w.graph.node j) (w₁.graph.node j)) : Stays m source w w₁ := by
  refine ⟨h, fun hfed hcomputed => ?_, fun _ hfed _ _ => hheard m hfed.known⟩
  unfold Graph.Computed at hcomputed ⊢
  rwa [h.anchor_eq hfed.anchored, (hheard _ hfed.anchored.known).outcome?_eq]

/-- A signal that does not come from the source is not asked for. -/
theorem of_not_fed (h : Ageing .none w w₁) (hfed : ¬ w.graph.Fed m source) :
    Stays m source w w₁ := ⟨h, fun h => absurd h hfed, fun _ h _ _ => absurd h hfed⟩

end Stays

instance (m source : SignalId) : IsPreorder (World P F Φ σ) (Stays m source) where
  refl := .refl
  trans _ _ _ := .trans

/-! ### Changes of one signal -/

theorem stays_update {f : Graph P F Φ → Graph P F Φ} (h : Hushed f) :
    Relates (Stays m source) (update f : Action P F Φ σ Unit) := by
  intro w a w' hrun
  have hages := ages_update (S := .none) h w hrun
  cases hrun
  exact .of_heard hages (h w.graph).2

theorem stays_register (id s : SignalId) :
    Relates (Stays m source) (register id s : Action P F Φ σ Unit) :=
  stays_update (hushed_depend s _)

theorem stays_clean (id : SignalId) :
    Relates (Stays m source) (clean id : Action P F Φ σ Unit) :=
  stays_update (hushed_modify id fun _ => ⟨rfl, rfl, rfl, rfl⟩)

theorem stays_follow (id : SignalId) (inner? : Option Inner) :
    Relates (Stays m source) (follow id inner? : Action P F Φ σ Unit) :=
  stays_update (hushed_modify id fun _ => ⟨rfl, rfl, rfl, rfl⟩)

theorem computed_modify {f : Node P F Φ → Node P F Φ} (hform : ∀ n, (f n).form = n.form)
    (hf : ∀ n, n.memo.outcome?.isSome = true → (f n).memo.outcome?.isSome = true)
    {g : Graph P F Φ} (h : g.Computed s) : (g.modify id f).Computed s := by
  have hanchor : (g.modify id f).anchor s = g.anchor s :=
    Graph.anchor_congr (g.size_modify id f) (fun j => Graph.node_modify_induction
      (C := fun j n => n.form = (g.node j).form) (fun _ => hform _) j rfl) s
  unfold Graph.Computed at h ⊢
  rw [hanchor]
  exact Graph.node_modify_induction (C := fun j n => (g.node j).memo.outcome?.isSome = true →
    n.memo.outcome?.isSome = true) (fun _ => hf _) _ (fun h => h) h

/-- A signal that is computed again has an outcome. -/
theorem computed_refresh [BEq P] {g : Graph P F Φ} (versions : List Nat) (o : Outcome P)
    (h : g.Computed s) : (((g.modify id fun n => { n with seen := versions }).modify id fun n =>
      { n with memo := n.memo.store o }).modify id fun n =>
      { n with memo := { n.memo with dirty := false } }).Computed s := by
  have hseen : (g.modify id fun n => { n with seen := versions }).Computed s :=
    computed_modify (f := fun n => { n with seen := versions }) (fun _ => rfl) (fun _ h => h) h
  have hstored : ((g.modify id fun n => { n with seen := versions }).modify id fun n =>
      { n with memo := n.memo.store o }).Computed s :=
    computed_modify (f := fun n => { n with memo := n.memo.store o }) (fun _ => rfl)
      (fun n _ => n.memo.isSome_store o) hseen
  exact computed_modify (f := fun n => { n with memo := { n.memo with dirty := false } })
    (fun _ => rfl) (fun _ h => h) hstored

/-- Another signal changes. -/
theorem stays_of_modify {f : Node P F Φ → Node P F Φ} (hne : id ≠ m)
    (hform : ∀ n, (f n).form = n.form)
    (hf : ∀ n, n.memo.outcome?.isSome = true → (f n).memo.outcome?.isSome = true)
    (h : Ageing .none w (w.put (w.graph.modify id f))) :
    Stays m source w (w.put (w.graph.modify id f)) := by
  refine ⟨h, fun _ hcomputed => computed_modify hform hf hcomputed, fun _ _ _ _ => ?_⟩
  rw [World.put_graph, w.graph.node_modify_of_ne f hne.symm]
  exact .refl _

theorem remember_stays (hne : id ≠ m) (hform : (w.graph.node id).form ≠ .reference none)
    (versions : List Nat) : RelatesFrom (Stays m source) w (remember id versions) := by
  intro a w' hrun
  have hages := remember_ages (lasting_none hform) versions hrun
  cases hrun
  exact stays_of_modify hne (fun _ => rfl) (fun _ h => h) hages

theorem store_stays [BEq P] (hne : id ≠ m) (hform : (w.graph.node id).form ≠ .reference none)
    (o : Outcome P) : RelatesFrom (Stays m source) w (store id o) := by
  intro a w' hrun
  have hages := store_ages (lasting_none hform) o hrun
  cases hrun
  exact stays_of_modify hne (fun _ => rfl) (fun n _ => n.memo.isSome_store o) hages

/-- Other signals may be brought up to date. -/
theorem touches_stays [BEq P] (m source : SignalId) :
    Touches (Stays m source) fun (w : World P F Φ σ) id =>
      id ≠ m ∧ (w.graph.node id).form ≠ .reference none where
  register := stays_register
  undepend _ s := stays_update (hushed_undepend s _)
  clean := stays_clean
  follow := stays_follow
  remember versions h := remember_stays h.1 h.2 versions
  store o h := store_stays h.1 h.2 o
  keep h hstays := ⟨h.1, hstays.ageing.form_eq _ h.2 ▸ h.2⟩

end

/-! ### The operations on the signals below -/

variable [Carrier P] {m source : SignalId}

/-- The operations on the signals below let the map stay, if they do not write it, and the functions
    of maps are pure. -/
structure Rules.Stay (m source : SignalId) (r : Rules P F Φ σ) : Prop where
  ages : r.Ages .none
  reconcile : ∀ id, Relates (Stays m source) (r.reconcile id)
  set : ∀ {w : World P F Φ σ} {id} o, ¬ w.graph.Passes m id →
    RelatesFrom (Stays m source) w (r.set id o)
  apply_eq : ∀ {f p w o w'}, r.apply f p w = .ok (o, w') → w' = w
  invert_eq : ∀ {f p w q w'}, r.invert f p w = .ok (q, w') → w' = w
  choose : ∀ choice p, Relates (Stays m source) (r.choose choice p)

theorem Rules.stay_exhausted : (Rules.exhausted : Rules P F Φ σ).Stay m source where
  ages := Rules.ages_exhausted
  reconcile _ := relates_throw _
  set _ _ := relates_throw _ _
  apply_eq hrun := nomatch hrun
  invert_eq hrun := nomatch hrun
  choose _ _ := relates_throw _

namespace Rules.Stay

variable {r : Rules P F Φ σ} {w : World P F Φ σ} {id s : SignalId}

theorem applySteps_eq (h : r.Stay m source) (steps : List F) (o : Outcome P) {w : World P F Φ σ}
    {o' : Outcome P} {w' : World P F Φ σ} (hrun : applySteps r steps o w = .ok (o', w')) :
    w' = w := by
  unfold applySteps at hrun
  induction steps generalizing o w with
  | nil =>
    cases hrun
    rfl
  | cons f steps ih =>
    rw [List.foldlM_cons] at hrun
    obtain ⟨o₁, w₁, hfirst, hrest⟩ := exists_of_bind hrun
    have hw₁ : w₁ = w := by
      cases o with
      | ok p => exact h.apply_eq hfirst
      | error e =>
        cases hfirst
        rfl
    exact (ih o₁ hrest).trans hw₁

/-- The map itself is not computed again for the version that it has noted. -/
theorem reconcileSelf (h : r.Stay m source) {steps : List F} (hfed : w.graph.Fed m source) :
    RelatesFrom (Stays m source) w
      (Signal.reconcileImage r m source (Signal.applySteps r steps)) := by
  intro a w' hrun
  unfold Signal.reconcileImage at hrun
  obtain ⟨_, w₁, hreconcile, hrun⟩ := exists_of_bind hrun
  have h₁ := h.reconcile source w hreconcile
  rw [register_bind_run, graph_bind_run] at hrun
  have h₂ : Stays m source w (w₁.put (w₁.graph.depend source (.signal m))) :=
    h₁.trans (stays_register m source w₁ rfl)
  generalize w₁.put (w₁.graph.depend source (.signal m)) = w₂ at hrun h₂
  have hfed₂ := h₂.ageing.fed hfed
  cases hstale : ((w₂.graph.node m).memo.outcome?.isNone ||
      (w₂.graph.node m).seen != [w₂.graph.version source]) with
  | false =>
    rw [isStale_bind_run w₂ hstale] at hrun
    exact h₂.trans (stays_clean m w₂ hrun)
  | true =>
    rw [isStale_bind_run w₂ hstale] at hrun
    have hages : Ageing .none w₂ w' :=
      Rules.Ages.refresh (h.ages.applySteps steps) (lasting_none hfed₂.known) _ hrun
    refine ⟨h₂.ageing.trans hages, fun _ hcomputed => ?_, fun v _ hnotes hversion => ?_⟩
    · rw [if_pos rfl, remember_bind_run, graph_bind_run] at hrun
      obtain ⟨o, w₃, hsteps, hrun⟩ := exists_of_bind hrun
      rw [store_bind_run] at hrun
      cases hrun
      rw [h.applySteps_eq steps _ hsteps]
      exact computed_refresh _ o (h₂.computed hfed hcomputed)
    obtain ⟨hv, hnotes₂⟩ := h₂.between hages hfed hnotes hversion
    rw [isStale_eq_false_iff.mpr ⟨hnotes₂.isSome, by rw [hnotes₂.seen_eq, hv]⟩] at hstale
    cases hstale

/-- One level more lets the map stay. -/
theorem reconcileNode (h : r.Stay m source) (id : SignalId) :
    Relates (Stays m source) (reconcileNode r id) := by
  intro w
  by_cases hfed : w.graph.Fed m source
  · have ht := touches_stays (P := P) (F := F) (Φ := Φ) (σ := σ) m source
    unfold Signal.reconcileNode
    refine .graph_bind ?_
    simp only
    split
    · have hsteps (steps : List F) (o : Outcome P) :
          Relates (Stays m source) (Signal.applySteps r steps o) := by
        intro w₁ o' w₂ hrun
        rw [h.applySteps_eq steps o hrun]
        exact .refl w₁
      by_cases hme : w.graph.anchor id = m
      · obtain ⟨steps, role, hform⟩ := hfed.form
        rw [hme, hform]
        exact h.reconcileSelf hfed
      · cases hform : (w.graph.node (w.graph.anchor id)).form with
        | map s steps role =>
          exact ht.reconcileImage (h.reconcile s) (hsteps steps) ⟨hme, hform ▸ nofun⟩
        | lift s =>
          exact ht.reconcileImage (h.reconcile s) (fun _ => relates_pure _) ⟨hme, hform ▸ nofun⟩
        | flatMap s choice =>
          exact ht.reconcileChoice h.reconcile (h.choose choice) ⟨hme, hform ▸ nofun⟩
        | join sources => exact ht.reconcileJoin h.reconcile sources ⟨hme, hform ▸ nofun⟩
        | label name s => exact relates_throw _ w
        | reference target? => exact relates_throw _ w
        | constant => exact relates_pure _ w
        | cell => exact relates_pure _ w
    · exact relates_pure _ w
  · exact fun _ _ hrun => .of_not_fed (h.ages.reconcileNode id w hrun) hfed

/-! ### Writing -/

theorem settleWritten (s : SignalId) (o : Outcome P) (hne : id ≠ m)
    (hform : (w.graph.node id).form ≠ .reference none) :
    RelatesFrom (Stays m source) w (settleWritten id s o) := by
  unfold Signal.settleWritten
  have hknown {w' : World P F Φ σ} (h' : Stays m source w w') :
      (w'.graph.node id).form ≠ .reference none := h'.ageing.form_eq id hform ▸ hform
  refine .graph_bind ?_
  refine (store_stays hne hform o).bind fun _ w₁ h₁ => ?_
  refine (stays_clean id w₁).bind fun _ w₂ h₂ => ?_
  refine .graph_bind ?_
  refine (remember_stays hne (hknown (h₁.trans h₂)) _).bind fun _ w₃ _ => ?_
  refine (stays_register id s w₃).bind fun _ w₄ _ => ?_
  split
  · exact stays_update (hushed_notify id) w₄
  · exact relates_pure _ w₄

/-- The source of another map is written before that. -/
theorem setThrough (h : r.Stay m source) (o written : Outcome P) (hs : ¬ w.graph.Passes m s)
    (hne : id ≠ m) (hform : (w.graph.node id).form ≠ .reference none) :
    RelatesFrom (Stays m source) w (do
      match ← r.set s written with
      | .error e => pure (.error e)
      | .ok () =>
          r.reconcile s
          Signal.settleWritten id s o
          pure (.ok ()) : Action P F Φ σ (Except SignalError Unit)) := by
  refine (h.set written hs).bind fun result w₁ h₁ => ?_
  cases result with
  | error e => exact relates_pure _ w₁
  | ok _ =>
    refine (h.reconcile s w₁).bind fun _ w₂ h₂ => ?_
    refine (settleWritten s o hne ?_).bind fun _ w₃ _ => relates_pure _ w₃
    rw [(h₁.trans h₂).ageing.form_eq id hform]
    exact hform

theorem setWritable (h : r.Stay m source) {inverse : F} (o : Outcome P)
    (hs : ¬ w.graph.Passes m s) (hne : id ≠ m)
    (hform : (w.graph.node id).form ≠ .reference none) :
    RelatesFrom (Stays m source) w (setWritable r id s inverse o) := by
  unfold Signal.setWritable
  cases o with
  | error e => exact h.setThrough (.error e) (.error e) hs hne hform
  | ok p =>
    intro a w' hrun
    obtain ⟨written, w₁, hinvert, hrest⟩ := exists_of_bind hrun
    rw [map_eq_pure_bind] at hinvert
    obtain ⟨q, w₂, hinvert, hdone⟩ := exists_of_bind hinvert
    cases hdone
    rw [h.invert_eq hinvert] at hrest
    exact h.setThrough (.ok p) (.ok q) hs hne hform hrest

/-- One level more lets the map stay when another signal is written. -/
theorem setNode (h : r.Stay m source) {id : SignalId} (o : Outcome P)
    (hpasses : ¬ w.graph.Passes m id) : RelatesFrom (Stays m source) w (setNode r id o) := by
  have hme : w.graph.anchor id ≠ m := fun heq => hpasses (.here heq)
  unfold Signal.setNode
  refine .graph_bind ?_
  simp only
  cases hform : (w.graph.node (w.graph.anchor id)).form with
  | cell =>
    refine RelatesFrom.bind ?_ fun _ w₁ _ => relates_pure _ w₁
    intro a w' hrun
    rw [setCell_eq hform] at hrun
    cases hrun
    have hre : Rewritten (fun _ p => p) w.graph id o _ := rewritten_cell hform o
    refine ⟨Rules.Ages.setCell (lasting_none (hform ▸ nofun)) o (setCell_eq hform o), fun _ => ?_,
      fun _ _ _ _ => hre.heard m fun h => hpasses h⟩
    exact hre.computed
  | map s steps role =>
    cases role with
    | readOnly uniform => exact relates_pure _ w
    | writable inverse =>
      exact h.setWritable o (fun hs => hpasses (.through hform hs)) hme (hform ▸ nofun)
  | reference target? =>
    cases target? with
    | none => exact relates_pure _ w
    | some target => exact relates_throw _ w
  | label name s => exact relates_throw _ w
  | _ => exact relates_pure _ w

end Rules.Stay

/-! ### Every request -/

/-- Functions of flat maps at most make signals. -/
def Codes.Makes (codes : Codes P F Φ σ) : Prop :=
  ∀ {choice p w id w'}, codes.choose choice p w = .ok (id, w') →
    w.identities ≤ w'.identities ∧ Grows w.graph w'.graph

omit [Carrier P] in
theorem Codes.makes_ofFunctions (fn : F → P → Outcome P) (inv : F → P → P) :
    (Codes.ofFunctions fn inv : Codes P F Φ σ).Makes := fun hrun => nomatch hrun

section

variable {fn : F → P → Outcome P} {inv : F → P → P} {codes : Codes P F Φ σ}

omit [Carrier P] in
theorem Codes.Makes.ages (h : codes.Makes) {choice : Φ} {p : P} {w w' : World P F Φ σ}
    {id : SignalId} (hrun : codes.choose choice p w = .ok (id, w')) :
    Ageing .none w w' ∧ ∀ j, (w.graph.node j).form ≠ .reference none →
      Graph.Heard (w.graph.node j) (w'.graph.node j) := by
  obtain ⟨hids, hgrows⟩ := h hrun
  have hheard (j : SignalId) (hform : (w.graph.node j).form ≠ .reference none) :
      Graph.Heard (w.graph.node j) (w'.graph.node j) := by
    rw [hgrows.node_eq j (w.graph.lt_size_of_form_ne hform)]
    exact .refl _
  exact ⟨.of_heard hgrows.size_le hids hheard, hheard⟩

section

variable {d : Nat} {f : F} {p q : P} {o : Outcome P} {w w' : World P F Φ σ}

theorem Codes.Pure.apply_eq (h : codes.Pure fn inv)
    (hrun : (Rules.ofCodes codes (d + 1)).apply f p w = .ok (o, w')) : w' = w := by
  have hrun : codes.apply f p w = .ok (o, w') := hrun
  rw [h.apply_run] at hrun
  cases hrun
  rfl

theorem Codes.Pure.invert_eq (h : codes.Pure fn inv)
    (hrun : (Rules.ofCodes codes (d + 1)).invert f p w = .ok (q, w')) : w' = w := by
  have hrun : codes.invert f p w = .ok (q, w') := hrun
  rw [h.invert_run] at hrun
  cases hrun
  rfl

end

theorem ages_ofCodes (hpure : codes.Pure fn inv) (hmakes : codes.Makes) (d : Nat) :
    (Rules.ofCodes codes d).Ages .none := by
  induction d with
  | zero => exact Rules.ages_exhausted
  | succ d ih =>
    refine ⟨ih.reconcileNode, ih.setNode, fun f p w o w' hrun => ?_, fun h => h.elim,
      fun f p w q w' hrun => ?_, fun choice p w id w' hrun => (hmakes.ages hrun).1⟩
    · rw [hpure.apply_eq hrun]
      exact .refl w
    · rw [hpure.invert_eq hrun]
      exact .refl w

theorem stay_ofCodes (hpure : codes.Pure fn inv) (hmakes : codes.Makes) (d : Nat) :
    (Rules.ofCodes codes d).Stay m source := by
  induction d with
  | zero => exact Rules.stay_exhausted
  | succ d ih =>
    refine ⟨ages_ofCodes hpure hmakes (d + 1), ih.reconcileNode, ih.setNode, hpure.apply_eq,
      hpure.invert_eq, fun choice p w id w' hrun => ?_⟩
    obtain ⟨hages, hheard⟩ := hmakes.ages hrun
    exact .of_heard hages hheard

/-- The request is no write that goes through the signal. -/
def Request.Avoids (g : Graph P F Φ) (m : SignalId) : Request P F Φ → Prop
  | set id _ => ¬ g.Passes m id
  | _ => True

/-- The map stays whatever is asked for, unless it is written. -/
theorem Rules.Stay.request {r : Rules P F Φ σ} {w : World P F Φ σ} (h : r.Stay m source)
    {request : Request P F Φ} (havoids : request.Avoids w.graph m) :
    RelatesFrom (Stays m source) w (request.run r) := by
  cases request with
  | create c =>
    refine RelatesFrom.bind ?_ fun _ w₁ _ => relates_pure _ w₁
    intro a w' hrun
    have hages := ages_create (S := .none) c w hrun
    cases hrun
    exact .of_heard hages (hushed_create c w.graph).2
  | set id o => exact (h.set o havoids).bind fun _ w₁ _ => relates_pure _ w₁
  | resolve reference target =>
    refine RelatesFrom.bind ?_ fun _ w₁ _ => relates_pure _ w₁
    intro result w' hrun
    have hages := ages_resolve (S := .none) reference target w hrun
    refine .of_heard hages fun j hform => ?_
    unfold Signal.resolve at hrun
    rw [graph_bind_run] at hrun
    cases hresolve : w.graph.resolve reference target with
    | error e =>
      rw [hresolve] at hrun
      cases hrun
      exact .refl _
    | ok g =>
      rw [hresolve] at hrun
      cases hrun
      exact (heard_resolve hresolve).2 j hform
  | reconcile id => exact (h.reconcile id w).bind fun _ w₁ _ => relates_pure _ w₁
  | get id =>
    refine RelatesFrom.bind ?_ fun _ w₁ _ => relates_pure _ w₁
    unfold Rules.read
    exact (h.reconcile id w).bind fun _ w₁ _ => relates_graph.bind (fun _ => relates_pure _) w₁

end

end ReactiveDoc.Signal
