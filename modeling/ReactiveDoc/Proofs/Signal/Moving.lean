import ReactiveDoc.Proofs.Signal.Keeping
import ReactiveDoc.Proofs.Signal.Layered

namespace ReactiveDoc.Signal

/-!
# What a reconcile does, one signal after the other

* `Graph.Visits` — the signals that a reconcile looks at.
* `Move` — a signal registers, finds itself up to date, or is computed again.
* `Moved` — the signals that were computed again were due, each once, and now have the outcome for
  their sources' outcomes; the others keep their versions and outcomes.
* `Move.moved`, `Moves.moved` — a move, and so every sequence of moves, does this.
* `reconcileNode_moves` — a reconcile completes, and consists of moves.
-/

variable {P F Φ σ : Type} [Carrier P]

/-! ### Moves -/

/-- The steps that a signal applies to what comes from its sources. -/
def Form.steps : Form F Φ → List F
  | map _ steps _ => steps
  | _ => []

namespace Graph

/-- What comes from the sources of a signal of a given form, before its steps are applied. -/
def input (g : Graph P F Φ) : Form F Φ → Outcome P
  | .map source _ _ => g.value source
  | .lift source => .ok (Carrier.ofOutcome (g.value source))
  | .join sources => (g.valueAll sources).map Carrier.ofList
  | _ => .error .unreconciled

variable (g : Graph P F Φ) (id : SignalId)

/-- A signal was never computed, or its sources have other versions than those that it has noted. -/
def Stale : Prop := (g.node id).memo.outcome? = none ∨ (g.node id).seen ≠ g.sourceVersions id

/-- A signal is not up to date, but its sources are. -/
structure Due : Prop where
  dirty : ¬ g.UpToDate id
  sources : ∀ s ∈ (g.node id).form.upstream, g.UpToDate (g.anchor s)

/-- The signal notes the versions that its sources have. -/
def noted : Graph P F Φ := g.modify id fun n => { n with seen := g.sourceVersions id }

/-- The signal is up to date as it is. -/
def cleaned : Graph P F Φ := g.modify id fun n => { n with memo := { n.memo with dirty := false } }

/-- The signal is up to date with an outcome for its sources. -/
def renewed (o : Outcome P) : Graph P F Φ :=
  (g.noted id).modify id fun n => { n with memo := { n.memo.store o with dirty := false } }

/-- The signals that a reconcile of `me` looks at: this one, and what those of them that are not up
    to date come from. -/
inductive Visits (me : SignalId) : SignalId → Prop
  | self : Visits me me
  | source {j s : SignalId} (h : Visits me j) (hdirty : ¬ g.UpToDate j)
      (hs : s ∈ (g.node j).form.upstream) : Visits me (g.anchor s)

omit [Carrier P] in
theorem Visits.trans {g : Graph P F Φ} {me j k : SignalId} (h : g.Visits me j)
    (h' : g.Visits j k) : g.Visits me k := by
  induction h' with
  | self => exact h
  | source _ hdirty hs ih => exact ih.source hdirty hs

/-- What comes from the sources depends on their outcomes only. -/
theorem input_congr {g g' : Graph P F Φ} {form : Form F Φ}
    (h : ∀ s ∈ form.upstream, g'.value s = g.value s) : g'.input form = g.input form := by
  cases form with
  | map source steps role => exact h source (List.mem_singleton_self _)
  | lift source =>
    exact congrArg (fun o => Except.ok (Carrier.ofOutcome o)) (h source (List.mem_singleton_self _))
  | join sources => exact congrArg (Except.map Carrier.ofList) (valueAll_congr h)
  | _ => rfl

omit [Carrier P] in
theorem sourceVersions_congr {g g' : Graph P F Φ} {id : SignalId}
    (hform : (g'.node id).form = (g.node id).form)
    (h : ∀ s ∈ (g.node id).form.upstream, g'.version s = g.version s) :
    g'.sourceVersions id = g.sourceVersions id := by
  unfold sourceVersions
  rw [hform]
  exact List.map_congr_left h

end Graph

/-- What steps make of an outcome, and how that changes the world. -/
abbrev Effect (P F Φ σ : Type) :=
  List F → Outcome P → World P F Φ σ → Outcome P → World P F Φ σ → Prop

/-- A signal registers with one that it comes from, finds itself up to date, or is computed again.
    The list has the signal that is computed again, if there is one. -/
inductive Move (A : Effect P F Φ σ) (w : World P F Φ σ) :
    List SignalId → World P F Φ σ → Prop
  | register {id source : SignalId} (hsource : source ∈ (w.graph.node id).form.upstream) :
      Move A w [] (w.put (w.graph.depend source (.signal id)))
  | confirm {id : SignalId} (hdue : w.graph.Due id) (hfresh : ¬ w.graph.Stale id) :
      Move A w [] (w.put (w.graph.cleaned id))
  | renew {id : SignalId} {o : Outcome P} {w₁ : World P F Φ σ} (hdue : w.graph.Due id)
      (hstale : w.graph.Stale id)
      (happly : A (w.graph.node id).form.steps (w.graph.input (w.graph.node id).form)
        (w.put (w.graph.noted id)) o w₁) :
      Move A w [id] (w₁.put (w.graph.renewed id o))

/-- Several moves, and the signals that are computed again in their order. -/
inductive Moves (A : Effect P F Φ σ) (w : World P F Φ σ) : List SignalId → World P F Φ σ → Prop
  | refl : Moves A w [] w
  | tail {ran ran' : List SignalId} {w₁ w₂ : World P F Φ σ} (h : Moves A w ran w₁)
      (hmove : Move A w₁ ran' w₂) : Moves A w (ran ++ ran') w₂

namespace Moves

variable {A : Effect P F Φ σ} {w w₁ w₂ : World P F Φ σ} {ran ran' : List SignalId}

theorem trans (h : Moves A w ran w₁) (h' : Moves A w₁ ran' w₂) : Moves A w (ran ++ ran') w₂ := by
  induction h' with
  | refl => rwa [List.append_nil]
  | tail _ hmove ih =>
    rw [← List.append_assoc]
    exact ih.tail hmove

theorem single (h : Move A w ran w₁) : Moves A w ran w₁ := Moves.refl.tail h

end Moves

/-! ### What moves leave -/

/-- From `g` to `g'` the signal was computed again. -/
structure Renewed (I : List F → Outcome P → Outcome P → Prop) (g g' : Graph P F Φ)
    (j : SignalId) : Prop where
  dirty : ¬ g.UpToDate j
  stale : (g.node j).memo.outcome? = none ∨ (g.node j).seen ≠ g'.sourceVersions j
  sources : ∀ s ∈ (g'.node j).form.upstream, g'.UpToDate (g'.anchor s)
  done : g'.UpToDate j
  seen_eq : (g'.node j).seen = g'.sourceVersions j
  stored : ∃ o, I (g'.node j).form.steps (g'.input (g'.node j).form) o ∧
    (g'.node j).memo.outcome? = ((g.node j).memo.store o).outcome? ∧
    (g'.node j).memo.version = ((g.node j).memo.store o).version

/-- From `g` to `g'` the signals of `ran` were computed again, each once, and no others. -/
structure Moved (I : List F → Outcome P → Outcome P → Prop) (g g' : Graph P F Φ)
    (ran : List SignalId) : Prop where
  size_eq : g'.size = g.size
  form_eq : ∀ j, (g'.node j).form = (g.node j).form
  memo_eq : ∀ j, g.UpToDate j → (g'.node j).memo = (g.node j).memo
  rest_eq : ∀ j, g.UpToDate j → (g'.node j).seen = (g.node j).seen
  nodup : ran.Nodup
  renewed : ∀ j ∈ ran, Renewed I g g' j
  outcome?_eq : ∀ j, j ∉ ran → (g'.node j).memo.outcome? = (g.node j).memo.outcome?
  version_eq : ∀ j, j ∉ ran → (g'.node j).memo.version = (g.node j).memo.version
  seen_eq : ∀ j, j ∉ ran → (g'.node j).seen = (g.node j).seen

namespace Moved

variable {I : List F → Outcome P → Outcome P → Prop} {g g' g'' : Graph P F Φ}
  {ran ran' : List SignalId} {j s : SignalId}

theorem refl (g : Graph P F Φ) : Moved I g g [] :=
  { size_eq := rfl
    form_eq := fun _ => rfl
    memo_eq := fun _ _ => rfl
    rest_eq := fun _ _ => rfl
    nodup := .nil
    renewed := fun _ h => nomatch h
    outcome?_eq := fun _ _ => rfl
    version_eq := fun _ _ => rfl
    seen_eq := fun _ _ => rfl }

theorem anchor_eq (h : Moved I g g' ran) (j : SignalId) : g'.anchor j = g.anchor j :=
  Graph.anchor_congr h.size_eq h.form_eq j

theorem upToDate (h : Moved I g g' ran) (hup : g.UpToDate j) : g'.UpToDate j := by
  unfold Graph.UpToDate
  rw [h.form_eq, h.memo_eq j hup]
  exact hup

theorem upToDate_anchor (h : Moved I g g' ran) (hup : g.UpToDate (g.anchor s)) :
    g'.UpToDate (g'.anchor s) := by
  rw [h.anchor_eq]
  exact h.upToDate hup

theorem atRest (h : Moved I g g' ran) (hj : g.AtRest j) (hup : g.UpToDate j) : g'.AtRest j := by
  unfold Graph.AtRest
  rw [h.form_eq, h.memo_eq j hup]
  exact hj

theorem version_eq_of_upToDate (h : Moved I g g' ran) (hup : g.UpToDate (g.anchor s)) :
    g'.version s = g.version s := by
  unfold Graph.version
  rw [h.anchor_eq, h.memo_eq _ hup]

theorem value_eq_of_upToDate (h : Moved I g g' ran) (hup : g.UpToDate (g.anchor s)) :
    g'.value s = g.value s := by
  unfold Graph.value
  rw [h.anchor_eq, h.memo_eq _ hup]

/-- Where the sources of a signal are up to date their versions stay. -/
theorem sourceVersions_eq (h : Moved I g g' ran)
    (hup : ∀ s ∈ (g.node j).form.upstream, g.UpToDate (g.anchor s)) :
    g'.sourceVersions j = g.sourceVersions j :=
  Graph.sourceVersions_congr (h.form_eq j) fun s hs => h.version_eq_of_upToDate (hup s hs)

/-- So does what comes from them. -/
theorem input_eq (h : Moved I g g' ran) {form : Form F Φ}
    (hup : ∀ s ∈ form.upstream, g.UpToDate (g.anchor s)) : g'.input form = g.input form :=
  Graph.input_congr fun s hs => h.value_eq_of_upToDate (hup s hs)

end Moved

section

variable {I : List F → Outcome P → Outcome P → Prop} {A : Effect P F Φ σ} {g g' g'' : Graph P F Φ}
  {ran ran' : List SignalId} {j id : SignalId} {w w' : World P F Φ σ} {o : Outcome P}

/-- What was computed again is left alone afterwards. -/
theorem Renewed.later (h : Renewed I g g' j) (h' : Moved I g' g'' ran') : Renewed I g g'' j := by
  have hversions := h'.sourceVersions_eq h.sources
  refine ⟨h.dirty, ?_, fun s hs => ?_, h'.upToDate h.done, ?_, ?_⟩
  · rw [hversions]
    exact h.stale
  · rw [h'.form_eq] at hs
    exact h'.upToDate_anchor (h.sources s hs)
  · rw [h'.rest_eq j h.done, hversions]
    exact h.seen_eq
  · rw [h'.form_eq, h'.input_eq h.sources, h'.memo_eq j h.done]
    exact h.stored

/-- What was left alone before may be computed again. -/
theorem Renewed.earlier (h : Moved I g g' ran) (hj : j ∉ ran) (h' : Renewed I g' g'' j) :
    Renewed I g g'' j := by
  refine ⟨fun hup => h'.dirty (h.upToDate hup), ?_, h'.sources, h'.done, h'.seen_eq, ?_⟩
  · rw [← h.outcome?_eq j hj, ← h.seen_eq j hj]
    exact h'.stale
  · obtain ⟨o, himage, houtcome, hversion⟩ := h'.stored
    have hmemo := (g.node j).memo.store_congr (h.outcome?_eq j hj) (h.version_eq j hj) o
    exact ⟨o, himage, houtcome.trans hmemo.1, hversion.trans hmemo.2⟩

theorem Moved.trans (h : Moved I g g' ran) (h' : Moved I g' g'' ran') :
    Moved I g g'' (ran ++ ran') := by
  -- Whatever was computed again is up to date, and is not computed another time.
  have hapart {j : SignalId} (hj : j ∈ ran) : j ∉ ran' :=
    fun hj' => (h'.renewed j hj').dirty (h.renewed j hj).done
  refine ⟨h'.size_eq.trans h.size_eq, fun j => (h'.form_eq j).trans (h.form_eq j), fun j hup => ?_,
    fun j hup => ?_, ?_, fun j hj => ?_, fun j hj => ?_, fun j hj => ?_, fun j hj => ?_⟩
  · exact (h'.memo_eq j (h.upToDate hup)).trans (h.memo_eq j hup)
  · exact (h'.rest_eq j (h.upToDate hup)).trans (h.rest_eq j hup)
  · refine List.nodup_append.mpr ⟨h.nodup, h'.nodup, ?_⟩
    rintro j hj _ hj' rfl
    exact hapart hj hj'
  · by_cases hmem : j ∈ ran
    · exact (h.renewed j hmem).later h'
    · have hmem' := (List.mem_append.mp hj).resolve_left hmem
      exact (h'.renewed j hmem').earlier h hmem
  all_goals
    have hmem : j ∉ ran := fun hmem => hj (List.mem_append_left _ hmem)
    have hmem' : j ∉ ran' := fun hmem' => hj (List.mem_append_right _ hmem')
  · exact (h'.outcome?_eq j hmem').trans (h.outcome?_eq j hmem)
  · exact (h'.version_eq j hmem').trans (h.version_eq j hmem)
  · exact (h'.seen_eq j hmem').trans (h.seen_eq j hmem)

/-! ### Every move -/

omit [Carrier P] in
theorem Graph.becomes_cleaned (hid : id < g.size) :
    Becomes id { g.node id with memo := { (g.node id).memo with dirty := false } } g
      (g.cleaned id) :=
  Becomes.modify g hid fun n => { n with memo := { n.memo with dirty := false } }

theorem Graph.becomes_renewed (hid : id < g.size) (o : Outcome P) :
    Becomes id { g.node id with
      seen := g.sourceVersions id, memo := { (g.node id).memo.store o with dirty := false } } g
      (g.renewed id o) :=
  (Becomes.modify g hid fun n => { n with seen := g.sourceVersions id }).next hid
    fun n => { n with memo := { n.memo.store o with dirty := false } }

omit [Carrier P] in
theorem Graph.Due.lt_size (h : g.Due id) : id < g.size :=
  g.lt_size_of_isDerived ((g.not_upToDate_iff id).mp h.dirty).1

/-- A signal registers with another. -/
theorem moved_register (g : Graph P F Φ) (id source : SignalId) :
    Moved I g (g.depend source (.signal id)) [] := by
  have hnode := g.node_depend source (.signal id)
  exact {
    size_eq := g.size_depend source _
    form_eq := fun j => (hnode j).1
    memo_eq := fun j _ => (hnode j).2.1
    rest_eq := fun j _ => (hnode j).2.2.1
    nodup := .nil
    renewed := fun _ h => nomatch h
    outcome?_eq := fun j _ => by rw [(hnode j).2.1]
    version_eq := fun j _ => by rw [(hnode j).2.1]
    seen_eq := fun j _ => (hnode j).2.2.1 }

/-- A signal that is due is up to date as it is. -/
theorem moved_cleaned (hdue : g.Due id) : Moved I g (g.cleaned id) [] := by
  have hb := Graph.becomes_cleaned hdue.lt_size
  have hne {j : SignalId} (hup : g.UpToDate j) : (g.cleaned id).node j = g.node j :=
    hb.node_ne j fun heq => hdue.dirty (heq ▸ hup)
  -- Nothing but its mark changes.
  have hsame (j : SignalId) : ((g.cleaned id).node j).memo.outcome? = (g.node j).memo.outcome? ∧
      ((g.cleaned id).node j).memo.version = (g.node j).memo.version ∧
      ((g.cleaned id).node j).seen = (g.node j).seen := by
    by_cases hj : j = id
    · rw [hj, hb.node_eq]
      exact ⟨rfl, rfl, rfl⟩
    · rw [hb.node_ne j hj]
      exact ⟨rfl, rfl, rfl⟩
  exact {
    size_eq := hb.size_eq
    form_eq := hb.form_eq rfl
    memo_eq := fun j hup => by rw [hne hup]
    rest_eq := fun j hup => by rw [hne hup]
    nodup := .nil
    renewed := fun _ h => nomatch h
    outcome?_eq := fun j _ => (hsame j).1
    version_eq := fun j _ => (hsame j).2.1
    seen_eq := fun j _ => (hsame j).2.2 }

/-- A signal that is due and stale is computed again. -/
theorem moved_renewed (hdue : g.Due id) (hstale : g.Stale id)
    (himage : I (g.node id).form.steps (g.input (g.node id).form) o) :
    Moved I g (g.renewed id o) [id] := by
  have hb := Graph.becomes_renewed hdue.lt_size o
  have hne {j : SignalId} (hup : g.UpToDate j) : (g.renewed id o).node j = g.node j :=
    hb.node_ne j fun heq => hdue.dirty (heq ▸ hup)
  have hother {j : SignalId} (hj : j ∉ [id]) : (g.renewed id o).node j = g.node j :=
    hb.node_ne j fun heq => hj (List.mem_singleton.mpr heq)
  have hform (j : SignalId) : ((g.renewed id o).node j).form = (g.node j).form := hb.form_eq rfl j
  -- The signal is none of its own sources, for these are up to date.
  have hsource {s : SignalId} (hs : s ∈ (g.node id).form.upstream) :
      (g.renewed id o).anchor s = g.anchor s ∧
        (g.renewed id o).node (g.anchor s) = g.node (g.anchor s) :=
    ⟨Graph.anchor_congr hb.size_eq hform s, hne (hdue.sources s hs)⟩
  have hversions : (g.renewed id o).sourceVersions id = g.sourceVersions id := by
    refine Graph.sourceVersions_congr (hform id) fun s hs => ?_
    unfold Graph.version
    rw [(hsource hs).1, (hsource hs).2]
  have hinput : (g.renewed id o).input (g.node id).form = g.input (g.node id).form := by
    refine Graph.input_congr fun s hs => ?_
    unfold Graph.value
    rw [(hsource hs).1, (hsource hs).2]
  have hself : Renewed I g (g.renewed id o) id := by
    refine ⟨hdue.dirty, ?_, fun s hs => ?_, ?_, ?_, ⟨o, ?_, ?_, ?_⟩⟩
    · rw [hversions]
      exact hstale
    · rw [hform] at hs
      unfold Graph.UpToDate
      rw [(hsource hs).1, (hsource hs).2]
      exact hdue.sources s hs
    · intro _
      rw [hb.node_eq]
    · rw [hversions, hb.node_eq]
    · rw [hform, hinput]
      exact himage
    · rw [hb.node_eq]
    · rw [hb.node_eq]
  exact {
    size_eq := hb.size_eq
    form_eq := hform
    memo_eq := fun j hup => by rw [hne hup]
    rest_eq := fun j hup => by rw [hne hup]
    nodup := List.nodup_singleton id
    renewed := fun j hj => List.mem_singleton.mp hj ▸ hself
    outcome?_eq := fun j hj => by rw [hother hj]
    version_eq := fun j hj => by rw [hother hj]
    seen_eq := fun j hj => by rw [hother hj] }

/-- Every move only does what a signal that is due needs. -/
theorem Move.moved (hA : ∀ steps o w o' w', A steps o w o' w' → I steps o o')
    (h : Move A w ran w') : Moved I w.graph w'.graph ran := by
  cases h with
  | @register id source _ => exact moved_register w.graph id source
  | confirm hdue _ => exact moved_cleaned hdue
  | renew hdue hstale happly => exact moved_renewed hdue hstale (hA _ _ _ _ _ happly)

/-- So does every sequence of moves. -/
theorem Moves.moved (hA : ∀ steps o w o' w', A steps o w o' w' → I steps o o')
    (h : Moves A w ran w') : Moved I w.graph w'.graph ran := by
  induction h with
  | refl => exact .refl w.graph
  | tail _ hmove ih => exact ih.trans (hmove.moved hA)

/-- What moves have brought up to date comes from signals that are up to date, and has noted their
    versions. -/
structure Arrived (g : Graph P F Φ) (j : SignalId) : Prop where
  sources : ∀ s ∈ (g.node j).form.upstream, g.UpToDate (g.anchor s)
  seen_eq : (g.node j).seen = g.sourceVersions j
  computed : (g.node j).memo.outcome?.isSome = true

theorem Arrived.moved (h : Arrived g j) (hup : g.UpToDate j) (h' : Moved I g g' ran) :
    Arrived g' j := by
  refine ⟨fun s hs => ?_, ?_, ?_⟩
  · rw [h'.form_eq] at hs
    exact h'.upToDate_anchor (h.sources s hs)
  · rw [h'.rest_eq j hup, h'.sourceVersions_eq h.sources]
    exact h.seen_eq
  · rw [h'.memo_eq j hup]
    exact h.computed

/-- The move that brings a signal up to date finds its sources up to date. -/
theorem Move.arrived (h : Move A w ran w') (hdirty : ¬ w.graph.UpToDate j)
    (hup : w'.graph.UpToDate j) : Arrived w'.graph j := by
  have hmoved : Moved (fun _ _ _ => True) w.graph w'.graph ran := h.moved fun _ _ _ _ _ _ => trivial
  -- A move brings no signal up to date but the one that it is about.
  have hdue {id : SignalId} {n : Node P F Φ} (hb : Becomes id n w.graph w'.graph) : j = id := by
    by_contra hne
    unfold Graph.UpToDate at hdirty hup
    rw [hb.node_ne j hne] at hup
    exact hdirty hup
  cases h with
  | register hsource =>
    unfold Graph.UpToDate at hdirty hup
    rw [World.put_graph, (w.graph.node_depend _ _ j).1, (w.graph.node_depend _ _ j).2.1] at hup
    exact absurd hup hdirty
  | confirm hid hfresh =>
    have hb := Graph.becomes_cleaned hid.lt_size
    obtain rfl := hdue hb
    obtain ⟨hsome, hseen⟩ := not_or.mp hfresh
    refine ⟨fun s hs => ?_, ?_, ?_⟩
    · rw [hmoved.form_eq] at hs
      exact hmoved.upToDate_anchor (hid.sources s hs)
    · rw [hmoved.sourceVersions_eq hid.sources, ← not_not.mp hseen, World.put_graph, hb.node_eq]
    · rw [World.put_graph, hb.node_eq]
      exact Option.isSome_iff_ne_none.mpr hsome
  | @renew id o w₁ hid hstale happly =>
    obtain rfl := hdue (Graph.becomes_renewed hid.lt_size o)
    have hrenewed := hmoved.renewed j (List.mem_singleton_self j)
    obtain ⟨o', -, houtcome, -⟩ := hrenewed.stored
    exact ⟨hrenewed.sources, hrenewed.seen_eq, houtcome ▸ Memo.isSome_store _ o'⟩

/-- So do several moves. -/
theorem Moves.arrived (h : Moves A w ran w') (hdirty : ¬ w.graph.UpToDate j)
    (hup : w'.graph.UpToDate j) : Arrived w'.graph j := by
  induction h with
  | refl => exact absurd hup hdirty
  | @tail ran ran' w₁ w₂ h hmove ih =>
    by_cases hup₁ : w₁.graph.UpToDate j
    · exact (ih hup₁).moved hup₁ (hmove.moved (I := fun _ _ _ => True) fun _ _ _ _ _ _ => trivial)
    · exact hmove.arrived hup₁ hup

/-- Once a signal is up to date, so is all that its reconcile looks at. -/
theorem Moves.upToDate (h : Moves A w ran w') {me : SignalId} (hme : w'.graph.UpToDate me)
    (hvisits : w.graph.Visits me j) : w'.graph.UpToDate j := by
  have hmoved : Moved (fun _ _ _ => True) w.graph w'.graph ran := h.moved fun _ _ _ _ _ _ => trivial
  -- The induction goes from the signal that is read to those that it is computed from.
  induction hvisits with
  | self => exact hme
  | source _ hdirty hs ih =>
    rw [← hmoved.anchor_eq]
    exact (h.arrived hdirty ih).sources _ (hmoved.form_eq _ ▸ hs)

/-- Later moves have less to look at. -/
theorem Moved.visits (h : Moved I g g' ran) {me : SignalId} (hvisits : g'.Visits me j) :
    g.Visits me j := by
  induction hvisits with
  | self => exact .self
  | source _ hdirty hs ih =>
    rw [h.anchor_eq]
    exact ih.source (fun hup => hdirty (h.upToDate hup)) (h.form_eq _ ▸ hs)

/-- What was moved is the same graph at a later time. -/
theorem Moved.later (h : Moved I g g' ran) : g.Later g' := by
  refine Graph.later_of_forms h.size_eq h.form_eq (fun j => ?_) (fun j hsome => ?_) fun j => ?_
  all_goals by_cases hj : j ∈ ran
  · obtain ⟨o, -, houtcome, hversion⟩ := (h.renewed j hj).stored
    have hahead := (g.node j).memo.ahead_store o
    refine ⟨by rw [hversion]; exact hahead.version_le, fun heq hsome => ?_⟩
    rw [houtcome] at hsome ⊢
    exact hahead.outcome?_eq (hversion.symm.trans heq) hsome
  · exact ⟨Nat.le_of_eq (h.version_eq j hj).symm, fun _ _ => h.outcome?_eq j hj⟩
  · obtain ⟨o, -, houtcome, -⟩ := (h.renewed j hj).stored
    rw [houtcome]
    exact (g.node j).memo.isSome_store o
  · rwa [h.outcome?_eq j hj]
  · exact .inr (h.renewed j hj).seen_eq
  · exact .inl (h.seen_eq j hj)

/-- Moves leave forms, and references, as they are. -/
theorem Moved.choiceless {rank : SignalId → Nat} (h : Moved I g g' ran)
    (hl : g.Choiceless rank) : g'.Choiceless rank := by
  refine ⟨fun id => ?_, fun id => ?_, fun id hform => ?_⟩
  · rw [h.form_eq, h.size_eq]
    exact hl.upstream id
  · rw [h.form_eq]
    exact hl.fixed id
  · rw [h.form_eq] at hform
    have hup : g.UpToDate id := by
      intro hd
      rw [hform] at hd
      cases hd
    rw [h.memo_eq id hup]
    exact hl.waiting id hform

end

/-! ### Reconciling -/

variable {b : Behaviour P F Φ} {A : Effect P F Φ σ} {r : Rules P F Φ σ} {rank : SignalId → Nat}
  {d k k' : Nat} {me id s source : SignalId} {w w₁ w₂ : World P F Φ σ} {ran ran' : List SignalId}

/-- Steps complete, and only do what they may do. -/
def Applies (b : Behaviour P F Φ) (A : Effect P F Φ σ) (r : Rules P F Φ σ) : Prop :=
  ∀ steps o w, (∀ f ∈ steps, b.fine f) → Good b.good o → ∃ o' w',
    applySteps r steps o w = .ok (o', w') ∧ w'.graph = w.graph ∧ A steps o w o' w' ∧
      Good b.good o'

/-- Moves lead from one world to another, and no signal of rank `k` or above is moved. -/
structure Reaches (b : Behaviour P F Φ) (A : Effect P F Φ σ) (rank : SignalId → Nat) (k : Nat)
    (w : World P F Φ σ) (ran : List SignalId) (w' : World P F Φ σ) : Prop where
  moves : Moves A w ran w'
  all : w'.graph.All b.good b.fine
  memo_eq : ∀ j, k ≤ rank j → (w'.graph.node j).memo = (w.graph.node j).memo
  seen_eq : ∀ j, k ≤ rank j → (w'.graph.node j).seen = (w.graph.node j).seen

namespace Reaches

theorem refl (hall : w.graph.All b.good b.fine) : Reaches b A rank k w [] w :=
  ⟨.refl, hall, fun _ _ => rfl, fun _ _ => rfl⟩

theorem moved (h : Reaches b A rank k w ran w₁) :
    Moved (fun _ _ _ => True) w.graph w₁.graph ran :=
  h.moves.moved fun _ _ _ _ _ _ => trivial

theorem layered (h : Reaches b A rank k w ran w₁) (hl : w.graph.Layered rank) :
    w₁.graph.Layered rank := hl.congr h.moved.size_eq h.moved.form_eq

theorem choiceless (h : Reaches b A rank k w ran w₁) (hl : w.graph.Choiceless rank) :
    w₁.graph.Choiceless rank := h.moved.choiceless hl

theorem trans (h : Reaches b A rank k w ran w₁) (h' : Reaches b A rank k w₁ ran' w₂) :
    Reaches b A rank k w (ran ++ ran') w₂ :=
  ⟨h.moves.trans h'.moves, h'.all, fun j hj => (h'.memo_eq j hj).trans (h.memo_eq j hj),
    fun j hj => (h'.seen_eq j hj).trans (h.seen_eq j hj)⟩

theorem mono (h : Reaches b A rank k w ran w₁) (hle : k ≤ k') : Reaches b A rank k' w ran w₁ :=
  ⟨h.moves, h.all, fun j hj => h.memo_eq j (hle.trans hj), fun j hj => h.seen_eq j (hle.trans hj)⟩

theorem register (hall : w.graph.All b.good b.fine)
    (hsource : source ∈ (w.graph.node id).form.upstream) :
    Reaches b A rank k w [] (w.put (w.graph.depend source (.signal id))) :=
  ⟨.single (.register hsource), hall.depend source _,
    fun j _ => (w.graph.node_depend source _ j).2.1,
    fun j _ => (w.graph.node_depend source _ j).2.2.1⟩

/-- What is not moved is as much up to date as before. -/
theorem upToDate_iff (h : Reaches b A rank k w ran w₁) {j : SignalId} (hj : k ≤ rank j) :
    w₁.graph.UpToDate j ↔ w.graph.UpToDate j := by
  unfold Graph.UpToDate
  rw [h.moved.form_eq, h.memo_eq j hj]

end Reaches

/-- The signal that another stands for is brought up to date by moves of those of no higher rank.
    Only what its reconcile looks at is computed again. -/
def Rests (b : Behaviour P F Φ) (A : Effect P F Φ σ) (rank : SignalId → Nat) (me : SignalId)
    (x : Action P F Φ σ Unit) (w : World P F Φ σ) : Prop :=
  ∃ ran w', x w = .ok ((), w') ∧ Reaches b A rank (rank me + 1) w ran w' ∧
    (∀ j ∈ ran, w.graph.Visits me j) ∧ w'.graph.AtRest me

/-- The operations bring signals of a rank below the depth up to date by moves. -/
def Settles (b : Behaviour P F Φ) (A : Effect P F Φ σ) (r : Rules P F Φ σ)
    (rank : SignalId → Nat) (d : Nat) : Prop :=
  ∀ id w, w.graph.Choiceless rank → w.graph.All b.good b.fine → rank (w.graph.anchor id) < d →
    Rests b A rank (w.graph.anchor id) (r.reconcile id) w

omit [Carrier P] in
theorem Graph.AtRest.upToDate {g : Graph P F Φ} (h : g.AtRest id) : g.UpToDate id := by
  intro hd
  cases hdirty : (g.node id).memo.dirty with
  | false => rfl
  | true =>
    rcases h hdirty with hf | hf
    all_goals
      rw [hf] at hd
      cases hd

/-- Signals of lower rank may be moved first. -/
theorem Reaches.rests {x y : Action P F Φ σ Unit} (h : Reaches b A rank (rank me) w ran w₁)
    (hvisits : ∀ j ∈ ran, w.graph.Visits me j) (hrun : x w = y w₁)
    (hrests : Rests b A rank me y w₁) : Rests b A rank me x w := by
  obtain ⟨ran', w', hrun', hreach, hvisits', hrest⟩ := hrests
  refine ⟨ran ++ ran', w', hrun.trans hrun', (h.mono (Nat.le_succ _)).trans hreach,
    fun j hj => ?_, hrest⟩
  exact (List.mem_append.mp hj).elim (hvisits j) fun hj => h.moved.visits (hvisits' j hj)

/-- A source is brought up to date, and is registered with. -/
theorem visit_moves (hr : Settles b A r rank d) (hl : w.graph.Choiceless rank)
    (hall : w.graph.All b.good b.fine) (hdepth : rank (w.graph.anchor s) < d)
    (hk : rank (w.graph.anchor s) < k) (hs : s ∈ (w.graph.node me).form.upstream) :
    ∃ ran w₁, r.reconcile s w = .ok ((), w₁) ∧
      Reaches b A rank k w ran (w₁.put (w₁.graph.depend s (.signal me))) ∧
      (∀ j ∈ ran, w.graph.Visits (w.graph.anchor s) j) ∧
      (w₁.graph.depend s (.signal me)).UpToDate (w.graph.anchor s) := by
  obtain ⟨ran, w₁, hrun, hreach, hvisits, hrest⟩ := hr s w hl hall hdepth
  refine ⟨ran, w₁, hrun, ?_, hvisits, Graph.upToDate_depend_iff.mpr hrest.upToDate⟩
  have hboth := (hreach.mono hk).trans
    (.register hreach.all (hreach.moved.form_eq me ▸ hs))
  rwa [List.append_nil] at hboth

/-- So are several sources; their versions are those that they have in the end. -/
theorem reconcileSources_moves (hr : Settles b A r rank d) (me : SignalId)
    (sources : List SignalId) (hl : w.graph.Choiceless rank) (hall : w.graph.All b.good b.fine)
    (hdepth : ∀ s ∈ sources, rank (w.graph.anchor s) < d)
    (hk : ∀ s ∈ sources, rank (w.graph.anchor s) < k)
    (hsources : ∀ s ∈ sources, s ∈ (w.graph.node me).form.upstream) :
    ∃ ran w', reconcileSources r me sources w = .ok (sources.map w'.graph.version, w') ∧
      Reaches b A rank k w ran w' ∧
      (∀ j ∈ ran, ∃ s ∈ sources, w.graph.Visits (w.graph.anchor s) j) ∧
      ∀ s ∈ sources, w'.graph.UpToDate (w'.graph.anchor s) := by
  induction sources generalizing w with
  | nil => exact ⟨[], w, rfl, .refl hall, List.forall_mem_nil _, List.forall_mem_nil _⟩
  | cons s rest ih =>
    obtain ⟨ran₁, w₁, hrun₁, hreach₁, hvisits₁, hup⟩ := visit_moves hr hl hall
      (hdepth s List.mem_cons_self) (hk s List.mem_cons_self)
      (hsources s List.mem_cons_self)
    have hanchor := hreach₁.moved.anchor_eq
    obtain ⟨ran₂, w₂, hrun₂, hreach₂, hvisits₂, hups⟩ := ih (hreach₁.choiceless hl) hreach₁.all
      (fun t ht => by rw [hanchor]; exact hdepth t (List.mem_cons_of_mem s ht))
      (fun t ht => by rw [hanchor]; exact hk t (List.mem_cons_of_mem s ht))
      (fun t ht => hreach₁.moved.form_eq me ▸ hsources t (List.mem_cons_of_mem s ht))
    rw [← hanchor s] at hup
    refine ⟨ran₁ ++ ran₂, w₂, ?_, hreach₁.trans hreach₂, fun j hj => ?_, fun t ht => ?_⟩
    · have hversion := hreach₂.moved.version_eq_of_upToDate hup
      unfold reconcileSources at hrun₂ ⊢
      rw [List.mapM_cons, bind_assoc, bind_run hrun₁, bind_assoc, register_bind_run, bind_assoc,
        graph_bind_run]
      rw [pure_bind, bind_run hrun₂, List.map_cons, hversion]
      rfl
    · rcases List.mem_append.mp hj with hj | hj
      · exact ⟨s, List.mem_cons_self, hvisits₁ j hj⟩
      · obtain ⟨t, ht, hvisits⟩ := hvisits₂ j hj
        exact ⟨t, List.mem_cons_of_mem s ht, hanchor t ▸ hreach₁.moved.visits hvisits⟩
    · rcases List.mem_cons.mp ht with rfl | ht
      · exact hreach₂.moved.upToDate_anchor hup
      · exact hups t ht

/-! ### Bringing one signal up to date -/

omit [Carrier P] in
/-- What a signal notes does not change any outcome. -/
theorem Graph.value_noted (g : Graph P F Φ) (id s : SignalId) :
    (g.noted id).value s = g.value s := by
  have hnode (j : SignalId) : ((g.noted id).node j).form = (g.node j).form ∧
      ((g.noted id).node j).memo = (g.node j).memo :=
    Graph.node_modify_induction
      (C := fun j n => n.form = (g.node j).form ∧ n.memo = (g.node j).memo)
      (fun _ => ⟨rfl, rfl⟩) j ⟨rfl, rfl⟩
  have hanchor : (g.noted id).anchor s = g.anchor s :=
    Graph.anchor_congr (g.size_modify id _) (fun j => (hnode j).1) s
  unfold Graph.value
  rw [hanchor, (hnode _).2]

/-- A signal that is due, and not stale, is up to date as it is. -/
theorem confirm_rests (hdue : w.graph.Due me) (hall : w.graph.All b.good b.fine)
    (hfresh : ¬ w.graph.Stale me) : Rests b A rank me (clean me) w := by
  have hb := Graph.becomes_cleaned hdue.lt_size
  refine ⟨[], w.put (w.graph.cleaned me), rfl, ⟨.single (.confirm hdue hfresh), ?_, ?_, ?_⟩,
    List.forall_mem_nil _, ?_⟩
  · exact hall.modify_same me (fun _ => rfl) fun _ => rfl
  · intro j hj
    rw [World.put_graph, hb.node_ne j (by rintro rfl; omega)]
  · intro j hj
    rw [World.put_graph, hb.node_ne j (by rintro rfl; omega)]
  · intro hdirty
    rw [World.put_graph, hb.node_eq] at hdirty
    cases hdirty

/-- A signal that is due and stale is computed from its sources. -/
theorem renew_rests (hdue : w.graph.Due me) (hall : w.graph.All b.good b.fine)
    (hstale : w.graph.Stale me) {compute : Action P F Φ σ (Outcome P)} {o : Outcome P}
    (hrun : compute (w.put (w.graph.noted me)) = .ok (o, w₁)) (hgraph : w₁.graph = w.graph.noted me)
    (happly : A (w.graph.node me).form.steps (w.graph.input (w.graph.node me).form)
      (w.put (w.graph.noted me)) o w₁) (hgood : Good b.good o) :
    Rests b A rank me (do
      remember me (w.graph.sourceVersions me)
      store me (← compute)
      clean me) w := by
  have hb := Graph.becomes_renewed hdue.lt_size o
  refine ⟨[me], w₁.put (w.graph.renewed me o), ?_,
    ⟨.single (.renew hdue hstale happly), ?_, ?_, ?_⟩,
    fun j hj => List.mem_singleton.mp hj ▸ .self, ?_⟩
  · rw [remember_bind_run]
    show (compute >>= _) (w.put (w.graph.noted me)) = _
    rw [bind_run hrun, store_bind_run, clean_run, World.put_graph, World.put_put,
      Graph.modify_modify, hgraph]
    rfl
  · have hnoted : (w.graph.noted me).All b.good b.fine :=
      hall.modify_same me (fun _ => rfl) fun _ => rfl
    exact hnoted.modify me fun n hn => (hn.store hgood).congr rfl rfl
  · intro j hj
    rw [World.put_graph, hb.node_ne j (by rintro rfl; omega)]
  · intro j hj
    rw [World.put_graph, hb.node_ne j (by rintro rfl; omega)]
  · intro hdirty
    rw [World.put_graph, hb.node_eq] at hdirty
    cases hdirty

omit [Carrier P] in
theorem Graph.stale_iff {g : Graph P F Φ} : ((g.node me).memo.outcome?.isNone ||
    (g.node me).seen != g.sourceVersions me) = true ↔ g.Stale me := by
  unfold Graph.Stale
  rw [Bool.or_eq_true, Option.isNone_iff_eq_none, bne_iff_ne]

/-- A signal that is due is computed from its sources if it is stale. -/
theorem refresh_rests (hdue : w.graph.Due me) (hall : w.graph.All b.good b.fine)
    (compute : Action P F Φ σ (Outcome P))
    (hcompute : ∃ o w₁, compute (w.put (w.graph.noted me)) = .ok (o, w₁) ∧
      w₁.graph = w.graph.noted me ∧
      A (w.graph.node me).form.steps (w.graph.input (w.graph.node me).form)
        (w.put (w.graph.noted me)) o w₁ ∧ Good b.good o) :
    Rests b A rank me (do
      if ← isStale me (w.graph.sourceVersions me) then
        remember me (w.graph.sourceVersions me)
        store me (← compute)
      clean me) w := by
  cases hstale : ((w.graph.node me).memo.outcome?.isNone ||
      (w.graph.node me).seen != w.graph.sourceVersions me) with
  | true =>
    obtain ⟨o, w₁, hrun, hgraph, happly, hgood⟩ := hcompute
    refine (Reaches.refl hall).rests (List.forall_mem_nil _) (isStale_bind_run w hstale) ?_
    exact renew_rests hdue hall (Graph.stale_iff.mp hstale) hrun hgraph happly hgood
  | false =>
    refine (Reaches.refl hall).rests (List.forall_mem_nil _) (isStale_bind_run w hstale)
      (confirm_rests hdue hall fun h => ?_)
    rw [Graph.stale_iff.mpr h] at hstale
    cases hstale

/-- A signal that is not up to date is due once its sources are up to date. -/
theorem Reaches.due (h : Reaches b A rank (rank me) w ran w₁) (hdirty : ¬ w.graph.UpToDate me)
    (hsources : ∀ s ∈ (w.graph.node me).form.upstream, w₁.graph.UpToDate (w₁.graph.anchor s)) :
    w₁.graph.Due me := by
  refine ⟨fun hup => hdirty ((h.upToDate_iff (Nat.le_refl _)).mp hup), fun s hs => ?_⟩
  rw [h.moved.form_eq] at hs
  exact hsources s hs

section

variable (hr : Settles b A r rank d) (hl : w.graph.Choiceless rank) (hall : w.graph.All b.good b.fine)
  (hdepth : rank me ≤ d) (hdirty : ¬ w.graph.UpToDate me)

include hr hl hall hdepth hdirty

/-- A signal with one source is brought up to date by what is computed from that. -/
theorem reconcileImage_moves {compute : Outcome P → Action P F Φ σ (Outcome P)}
    (prepare : Outcome P → Outcome P) (hup : (w.graph.node me).form.upstream = [source])
    (hinput : ∀ g : Graph P F Φ, g.input (w.graph.node me).form = prepare (g.value source))
    (hcompute : ∀ o w', Good b.good o → ∃ o' w₁, compute o w' = .ok (o', w₁) ∧
      w₁.graph = w'.graph ∧ A (w.graph.node me).form.steps (prepare o) w' o' w₁ ∧ Good b.good o') :
    Rests b A rank me (reconcileImage r me source compute) w := by
  have hsource : source ∈ (w.graph.node me).form.upstream := hup ▸ List.mem_singleton_self _
  have hrank := hl.rank_anchor_lt hsource
  obtain ⟨ran, w₁, hrun, hreach, hvisits, hsourceUp⟩ :=
    visit_moves hr hl hall (Nat.lt_of_lt_of_le hrank hdepth) hrank hsource
  generalize hw₂ : w₁.put (w₁.graph.depend source (.signal me)) = w₂ at hreach
  have hgraph₂ : w₁.graph.depend source (.signal me) = w₂.graph := by rw [← hw₂]; rfl
  rw [hgraph₂] at hsourceUp
  have hform := hreach.moved.form_eq me
  have hdue : w₂.graph.Due me := hreach.due hdirty fun s hs => by
    rw [hup] at hs
    rw [List.mem_singleton.mp hs, hreach.moved.anchor_eq]
    exact hsourceUp
  have hversions : w₂.graph.sourceVersions me = [w₂.graph.version source] := by
    unfold Graph.sourceVersions
    rw [hform, hup]
    rfl
  obtain ⟨o, w₃, hrun₃, hgraph₃, happly, hgood⟩ := hcompute (w₂.graph.value source)
    (w₂.put (w₂.graph.noted me)) (hreach.all.value source)
  refine hreach.rests (fun j hj => (Graph.Visits.self.source hdirty hsource).trans (hvisits j hj)) ?_
    (refresh_rests hdue hreach.all
      (do compute ((← graph).value source)) ⟨o, w₃, ?_, hgraph₃, ?_, hgood⟩)
  · unfold reconcileImage
    rw [bind_run hrun, register_bind_run, graph_bind_run, hw₂, hversions]
    simp only [bind_assoc]
  · rw [graph_bind_run, World.put_graph, Graph.value_noted]
    exact hrun₃
  · rw [hform, hinput]
    exact happly

/-- A join is brought up to date by the list of its sources. -/
theorem reconcileJoin_moves (hclosed : b.Closed) (hnil : ∀ o w, Good b.good o → A [] o w o w)
    {sources : List SignalId} (hform : (w.graph.node me).form = .join sources) :
    Rests b A rank me (reconcileJoin r me sources) w := by
  have hup : (w.graph.node me).form.upstream = sources := by rw [hform]; rfl
  have hrank (s : SignalId) (hs : s ∈ sources) : rank (w.graph.anchor s) < rank me :=
    hl.rank_anchor_lt (hup ▸ hs)
  obtain ⟨ran, w₁, hrun, hreach, hvisits, hsourcesUp⟩ := reconcileSources_moves hr me sources hl hall
    (fun s hs => Nat.lt_of_lt_of_le (hrank s hs) hdepth) hrank (fun s hs => hup ▸ hs)
  have hdue : w₁.graph.Due me := hreach.due hdirty fun s hs => hsourcesUp s (hup ▸ hs)
  have hform₁ : (w₁.graph.node me).form = .join sources := (hreach.moved.form_eq me).trans hform
  have hversions : w₁.graph.sourceVersions me = sources.map w₁.graph.version := by
    unfold Graph.sourceVersions
    rw [hform₁]
    rfl
  have hgood : Good b.good ((w₁.graph.valueAll sources).map Carrier.ofList) := by
    cases hvalues : w₁.graph.valueAll sources with
    | error e => exact good_error e
    | ok ps => exact good_ok (hclosed.list ps (hreach.all.valueAll hvalues))
  refine hreach.rests (fun j hj => ?_) ?_ (refresh_rests hdue hreach.all
    (do pure (((← graph).valueAll sources).map Carrier.ofList))
    ⟨_, _, rfl, rfl, ?_, ?_⟩)
  · obtain ⟨s, hs, hvisits⟩ := hvisits j hj
    exact (Graph.Visits.self.source hdirty (hup ▸ hs)).trans hvisits
  · unfold reconcileJoin
    rw [bind_run hrun, hversions]
    simp only [bind_assoc, pure_bind]
  · have hvalues : (w₁.graph.noted me).valueAll sources = w₁.graph.valueAll sources :=
      Graph.valueAll_congr fun s _ => w₁.graph.value_noted me s
    rw [hform₁, World.put_graph, hvalues]
    exact hnil _ _ hgood
  · have hvalues : (w₁.graph.noted me).valueAll sources = w₁.graph.valueAll sources :=
      Graph.valueAll_congr fun s _ => w₁.graph.value_noted me s
    rw [World.put_graph, hvalues]
    exact hgood

end

/-- One level more brings every signal of one rank more up to date. -/
theorem reconcileNode_moves (hclosed : b.Closed) (hnil : ∀ o w, Good b.good o → A [] o w o w)
    (happly : 0 < d → Applies b A r) (hr : Settles b A r rank d) (hl : w.graph.Choiceless rank)
    (hall : w.graph.All b.good b.fine)
    (hdepth : rank (w.graph.anchor id) ≤ d) :
    Rests b A rank (w.graph.anchor id) (reconcileNode r id) w := by
  have htarget := Graph.target?_anchor hl.descends id
  unfold reconcileNode Rests
  simp only [graph_bind_run]
  generalize w.graph.anchor id = me at hdepth htarget
  have hstay (hrest : w.graph.AtRest me) :
      Rests b A rank me (pure ()) w :=
    ⟨[], w, rfl, .refl hall, List.forall_mem_nil _, hrest⟩
  cases hmark : (w.graph.node me).memo.dirty with
  | false =>
    simp only [Bool.false_eq_true, if_false]
    exact hstay fun hdirty => by rw [hmark] at hdirty; cases hdirty
  | true =>
    simp only [if_true]
    have hdirty (hd : (w.graph.node me).form.isDerived = true) : ¬ w.graph.UpToDate me :=
      (w.graph.not_upToDate_iff me).mpr ⟨hd, hmark⟩
    -- With a source below it, a signal is not of the lowest rank.
    have happly {s : SignalId} (hs : s ∈ (w.graph.node me).form.upstream) : Applies b A r :=
      happly (by have := (hl.upstream me s hs).2; omega)
    cases hf : (w.graph.node me).form with
    | constant => exact hstay fun _ => .inl hf
    | cell => exact hstay fun _ => .inr hf
    | map source steps role =>
      have happly := happly (s := source) (by rw [hf]; exact List.mem_singleton_self _)
      refine reconcileImage_moves hr hl hall hdepth (hdirty (by rw [hf]; rfl)) (fun o => o)
        (by rw [hf]; rfl) (fun g => by rw [hf]; rfl) fun o w' ho => ?_
      rw [hf]
      exact happly steps o w' ((hall me).steps _ _ _ hf) ho
    | lift source =>
      refine reconcileImage_moves hr hl hall hdepth (hdirty (by rw [hf]; rfl))
        (fun o => .ok (Carrier.ofOutcome o)) (by rw [hf]; rfl) (fun g => by rw [hf]; rfl)
        fun o w' ho => ?_
      have hgood := good_ok (hclosed.attempt o ho)
      rw [hf]
      exact ⟨_, w', rfl, rfl, hnil _ w' hgood, hgood⟩
    | join sources =>
      exact reconcileJoin_moves hr hl hall hdepth (hdirty (by rw [hf]; rfl)) hclosed hnil hf
    | flatMap source choice => exact absurd hf (hl.fixed me source choice)
    | reference target? =>
      cases target? with
      | none =>
        rw [hl.waiting me hf] at hmark
        cases hmark
      | some target =>
        rw [hf] at htarget
        cases htarget
    | label name source =>
      rw [hf] at htarget
      cases htarget

/-- Every signal of a rank below the depth is brought up to date by moves. -/
theorem settles_ofCodes {codes : Codes P F Φ σ} (hclosed : b.Closed)
    (hnil : ∀ o w, Good b.good o → A [] o w o w)
    (happly : ∀ d, Applies b A (.ofCodes codes (d + 1))) (d : Nat) :
    Settles b A (.ofCodes codes d) rank d := by
  induction d with
  | zero => exact fun id w _ _ hdepth => absurd hdepth (Nat.not_lt_zero _)
  | succ d ih =>
    intro id w hl hall hdepth
    refine reconcileNode_moves hclosed hnil (fun hd => ?_) ih hl hall (Nat.le_of_lt_succ hdepth)
    obtain ⟨d, rfl⟩ : ∃ k, d = k + 1 := ⟨d - 1, by omega⟩
    exact happly d

end ReactiveDoc.Signal
