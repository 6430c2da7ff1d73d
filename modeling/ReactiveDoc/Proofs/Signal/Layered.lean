import Mathlib.Data.Finset.Lattice.Fold
import ReactiveDoc.Proofs.Signal.Following

namespace ReactiveDoc.Signal

/-!
# Graphs in layers, and later ones

* `Graph.Layered` — cells, constants, maps, joins, labels and lifts that come from others without
  circles.
* `Graph.Choiceless` — references may be there as well.
* `Graph.Later` — a later graph has the same signals, whose memories and whose notes of their
  sources' versions have only moved ahead.
* `Graph.Later.value_eq` — in a later graph a signal with the same version has the same outcome.
* `Graph.later_notify`, `Graph.later_add` — telling dependents and adding signals lead to later
  graphs.
-/

variable {P F Φ : Type}

/-- Signals of this form come from the same signals for good. -/
def Form.isFixed : Form F Φ → Bool
  | flatMap .. | reference _ => false
  | _ => true

namespace Graph

variable {rank rank' : SignalId → Nat} {g g' g'' : Graph P F Φ} {id j s : SignalId}

/-- Signals come from signals of the graph of lower rank, and from the same ones for good. -/
structure Layered (rank : SignalId → Nat) (g : Graph P F Φ) : Prop where
  upstream : ∀ id, ∀ s ∈ (g.node id).form.upstream, s < g.size ∧ rank s < rank id
  fixed : ∀ id < g.size, (g.node id).form.isFixed = true

namespace Layered

/-- Only the signals of the graph have to be looked at. -/
theorem of_forall_lt (h : ∀ id < g.size, (g.node id).form.isFixed = true ∧
    ∀ s ∈ (g.node id).form.upstream, s < g.size ∧ rank s < rank id) : g.Layered rank := by
  refine ⟨fun id s hs => (h id (g.lt_size_of_form_ne fun hform => ?_)).2 s hs,
    fun id hid => (h id hid).1⟩
  rw [hform] at hs
  cases hs

theorem descends (h : g.Layered rank) : g.Descends rank := fun id s hs => (h.upstream id s hs).2

theorem upstream_lt (h : g.Layered rank) (id : SignalId) :
    ∀ s ∈ (g.node id).form.upstream, s < g.size := fun s hs => (h.upstream id s hs).1

theorem anchor_lt (h : g.Layered rank) (hid : id < g.size) : g.anchor id < g.size :=
  anchor_lt_size h.descends h.upstream_lt id hid

/-- The anchors of the signals that a signal comes from are of lower rank. -/
theorem rank_anchor_lt (h : g.Layered rank) (hs : s ∈ (g.node id).form.upstream) :
    rank (g.anchor s) < rank id :=
  Nat.lt_of_le_of_lt (rank_anchor_le h.descends s) (h.upstream id s hs).2

/-- Only the forms matter. -/
theorem congr (h : g.Layered rank) (hsize : g'.size = g.size)
    (hform : ∀ j, (g'.node j).form = (g.node j).form) : g'.Layered rank := by
  refine ⟨fun id => ?_, fun id hid => ?_⟩
  · rw [hform id, hsize]
    exact h.upstream id
  · rw [hform id]
    exact h.fixed id (hsize ▸ hid)

/-- A signal of a form that stays may be added above those that it comes from. -/
theorem add (h : g.Layered rank) {n : Node P F Φ} (hfixed : n.form.isFixed = true)
    (hup : ∀ s ∈ n.form.upstream, s < g.size) :
    ∃ rank', (g.add n).2.Layered rank' := by
  -- The new signal is above all others.
  refine ⟨fun j => if j = g.size then (Finset.range g.size).sup rank + 1 else rank j, ?_, ?_⟩
  · intro id s hs
    rw [g.node_add] at hs
    rw [size_add]
    split at hs
    next hid =>
      have hlt := hup s hs
      refine ⟨Nat.lt_succ_of_lt hlt, ?_⟩
      rw [if_neg (Nat.ne_of_lt hlt), if_pos hid]
      exact Nat.lt_succ_of_le (Finset.le_sup (f := rank) (Finset.mem_range.mpr hlt))
    next hid =>
      obtain ⟨hlt, hrank⟩ := h.upstream id s hs
      refine ⟨Nat.lt_succ_of_lt hlt, ?_⟩
      rwa [if_neg (Nat.ne_of_lt hlt), if_neg hid]
  · intro id hid
    rw [size_add] at hid
    rw [g.node_add]
    split
    · exact hfixed
    next hne => exact h.fixed id (Nat.lt_of_le_of_ne (Nat.le_of_lt_succ hid) hne)

/-- The number of signals of no higher rank ranks them as well. -/
theorem below (h : g.Layered rank) : g.Layered fun id => (Graph.below rank g id).card := by
  refine ⟨fun id s hs => ?_, h.fixed⟩
  obtain ⟨hlt, hrank⟩ := h.upstream id s hs
  have hid : id < g.size := g.lt_size_of_form_ne fun hform => by
    rw [hform] at hs
    cases hs
  exact ⟨hlt, card_below_lt hid hrank⟩

end Layered

/-- Signals come from signals of the graph of lower rank, none of them chooses what it follows, and a
    reference without a target is not marked. -/
structure Choiceless (rank : SignalId → Nat) (g : Graph P F Φ) : Prop where
  upstream : ∀ id, ∀ s ∈ (g.node id).form.upstream, s < g.size ∧ rank s < rank id
  fixed : ∀ id source choice, (g.node id).form ≠ .flatMap source choice
  waiting : ∀ id, (g.node id).form = .reference none → (g.node id).memo.dirty = false

theorem Layered.choiceless (h : g.Layered rank) : g.Choiceless rank := by
  refine ⟨h.upstream, fun id source choice hform => ?_, fun id hform => ?_⟩
  · have hfixed := h.fixed id (g.lt_size_of_form_ne (by rw [hform]; simp))
    rw [hform] at hfixed
    cases hfixed
  · by_cases hid : id < g.size
    · have hfixed := h.fixed id hid
      rw [hform] at hfixed
      cases hfixed
    · rw [g.node_of_size_le (Nat.le_of_not_lt hid)]
      rfl

namespace Choiceless

theorem descends (h : g.Choiceless rank) : g.Descends rank := fun id s hs => (h.upstream id s hs).2

/-- The anchors of the signals that a signal comes from are of lower rank. -/
theorem rank_anchor_lt (h : g.Choiceless rank) (hs : s ∈ (g.node id).form.upstream) :
    rank (g.anchor s) < rank id :=
  Nat.lt_of_le_of_lt (rank_anchor_le h.descends s) (h.upstream id s hs).2

end Choiceless

/-! ### Versions of sources -/

/-- The versions of the signals that a signal comes from. -/
def sourceVersions (g : Graph P F Φ) (id : SignalId) : List Nat :=
  (g.node id).form.upstream.map g.version

/-- The versions that a signal has noted are none that its sources have not had yet. -/
def Tracked (g : Graph P F Φ) (id : SignalId) : Prop :=
  List.Forall₂ (· ≤ ·) (g.node id).seen (g.sourceVersions id)

/-- The signals of the one graph are in the other, at a later time. -/
structure Later (g g' : Graph P F Φ) : Prop where
  size_le : g.size ≤ g'.size
  form_eq : ∀ j < g.size, (g'.node j).form = (g.node j).form
  ahead : ∀ j < g.size, (g.node j).memo.Ahead (g'.node j).memo
  isSome : ∀ j < g.size, (g.node j).memo.outcome?.isSome = true →
    (g'.node j).memo.outcome?.isSome = true
  seen : ∀ j < g.size, g.Tracked j →
    List.Forall₂ (· ≤ ·) (g.node j).seen (g'.node j).seen ∧ g'.Tracked j

/-- Signals that keep their forms keep what they stand for. -/
theorem anchor_eq_of_forms (h : g.Layered rank) (h' : g'.Layered rank')
    (hform : ∀ j < g.size, (g'.node j).form = (g.node j).form) (hj : j < g.size) :
    g'.anchor j = g.anchor j := by
  refine target?_induction h.descends (C := fun j => j < g.size → g'.anchor j = g.anchor j)
    ?_ ?_ j hj
  · intro j htarget hj
    rw [anchor_of_target?_none htarget, anchor_of_target?_none (hform j hj ▸ htarget)]
  · intro j t htarget ih _
    have ht := h.upstream_lt j t (Form.mem_upstream_of_target? htarget)
    rw [anchor_of_target? h.descends htarget, anchor_of_target? h'.descends (hform j ‹_› ▸ htarget)]
    exact ih ht

theorem forall₂_le_trans {as bs cs : List Nat} (h : List.Forall₂ (· ≤ ·) as bs)
    (h' : List.Forall₂ (· ≤ ·) bs cs) : List.Forall₂ (· ≤ ·) as cs := by
  induction h generalizing cs with
  | nil => exact h'
  | cons hab _ ih =>
    cases h' with
    | cons hbc hrest => exact .cons (hab.trans hbc) (ih hrest)

/-- Versions that are not above each other are the same. -/
theorem forall₂_le_antisymm {as bs : List Nat} (h : List.Forall₂ (· ≤ ·) as bs)
    (h' : List.Forall₂ (· ≤ ·) bs as) : as = bs := by
  induction h with
  | nil => rfl
  | cons hab _ ih =>
    cases h' with
    | cons hba hrest => rw [Nat.le_antisymm hab hba, ih hrest]

namespace Later

theorem refl (g : Graph P F Φ) : g.Later g :=
  ⟨Nat.le_refl _, fun _ _ => rfl, fun _ _ => .refl _, fun _ _ => id,
    fun _ _ h => ⟨List.forall₂_refl _, h⟩⟩

theorem trans (h : g.Later g') (h' : g'.Later g'') : g.Later g'' := by
  have hlt {j : SignalId} (hj : j < g.size) : j < g'.size := Nat.lt_of_lt_of_le hj h.size_le
  refine ⟨h.size_le.trans h'.size_le, fun j hj => ?_, fun j hj => ?_, fun j hj hsome => ?_,
    fun j hj htracked => ?_⟩
  · rw [h'.form_eq j (hlt hj), h.form_eq j hj]
  · exact (h.ahead j hj).trans (h'.ahead j (hlt hj))
  · exact h'.isSome j (hlt hj) (h.isSome j hj hsome)
  · obtain ⟨hseen, htracked⟩ := h.seen j hj htracked
    obtain ⟨hseen', htracked'⟩ := h'.seen j (hlt hj) htracked
    exact ⟨forall₂_le_trans hseen hseen', htracked'⟩

/-- A signal that has the same version as before has the same outcome. -/
theorem value_eq (h : g.Later g') (hl : g.Layered rank) (hl' : g'.Layered rank') (hj : j < g.size)
    (hversion : g'.version j = g.version j) : g'.value j = g.value j := by
  have hanchor := anchor_eq_of_forms hl hl' h.form_eq hj
  have hlt := hl.anchor_lt hj
  unfold version at hversion
  unfold value Memo.read
  rw [hanchor] at hversion ⊢
  have houtcome : (g'.node (g.anchor j)).memo.outcome? = (g.node (g.anchor j)).memo.outcome? := by
    cases hsome : (g'.node (g.anchor j)).memo.outcome? with
    | some o =>
      rw [← hsome]
      exact (h.ahead _ hlt).outcome?_eq hversion (by rw [hsome]; rfl)
    | none =>
      -- What has no outcome now had none before.
      cases hbefore : (g.node (g.anchor j)).memo.outcome? with
      | none => rfl
      | some o =>
        have hkept := h.isSome _ hlt (by rw [hbefore]; rfl)
        rw [hsome] at hkept
        cases hkept
  rw [houtcome]

end Later

/-- A later graph without new signals is in the same layers. -/
theorem Layered.later (hl : g.Layered rank) (h : g.Later g') (hsize : g'.size = g.size) :
    g'.Layered rank := by
  refine hl.congr hsize fun j => ?_
  by_cases hj : j < g.size
  · exact h.form_eq j hj
  · rw [g.node_of_size_le (Nat.le_of_not_lt hj), g'.node_of_size_le (hsize ▸ Nat.le_of_not_lt hj)]

/-- Signals keep their forms and their memories move ahead, and a signal that notes other versions
    notes those that its sources have. -/
theorem later_of_forms (hsize : g'.size = g.size)
    (hform : ∀ j, (g'.node j).form = (g.node j).form)
    (hahead : ∀ j, (g.node j).memo.Ahead (g'.node j).memo)
    (hsome : ∀ j, (g.node j).memo.outcome?.isSome = true → (g'.node j).memo.outcome?.isSome = true)
    (hseen : ∀ j, (g'.node j).seen = (g.node j).seen ∨ (g'.node j).seen = g'.sourceVersions j) :
    g.Later g' := by
  have hversions (j : SignalId) :
      List.Forall₂ (· ≤ ·) (g.sourceVersions j) (g'.sourceVersions j) := by
    unfold sourceVersions
    rw [hform j, List.forall₂_map_left_iff, List.forall₂_map_right_iff, List.forall₂_same]
    intro s _
    unfold version
    rw [anchor_congr hsize hform s]
    exact (hahead _).version_le
  refine ⟨Nat.le_of_eq hsize.symm, fun j _ => hform j, fun j _ => hahead j, fun j _ => hsome j,
    fun j _ htracked => ?_⟩
  have htracked' := forall₂_le_trans htracked (hversions j)
  unfold Tracked
  rcases hseen j with heq | heq
  · rw [heq]
    exact ⟨List.forall₂_refl _, htracked'⟩
  · rw [heq]
    exact ⟨htracked', List.forall₂_refl _⟩

/-! ### Telling dependents -/

/-- A signal that was told of a change, or not. -/
structure Heard (n n' : Node P F Φ) : Prop where
  form_eq : n'.form = n.form
  outcome?_eq : n'.memo.outcome? = n.memo.outcome?
  version_eq : n'.memo.version = n.memo.version
  seen_eq : n'.seen = n.seen

theorem Heard.refl (n : Node P F Φ) : Heard n n := ⟨rfl, rfl, rfl, rfl⟩

theorem Heard.trans {n n' n'' : Node P F Φ} (h : Heard n n') (h' : Heard n' n'') : Heard n n'' :=
  ⟨h'.form_eq.trans h.form_eq, h'.outcome?_eq.trans h.outcome?_eq,
    h'.version_eq.trans h.version_eq, h'.seen_eq.trans h.seen_eq⟩

theorem Heard.ahead {n n' : Node P F Φ} (h : Heard n n') : n.memo.Ahead n'.memo :=
  ⟨Nat.le_of_eq h.version_eq.symm, fun _ _ => h.outcome?_eq⟩

/-- One signal changes, but not what it has noted and remembers. -/
theorem heard_modify (g : Graph P F Φ) (id : SignalId) {f : Node P F Φ → Node P F Φ}
    (hf : ∀ n, Heard n (f n)) (j : SignalId) : Heard (g.node j) ((g.modify id f).node j) :=
  node_modify_induction (C := fun j n => Heard (g.node j) n) (fun _ => hf _) j (.refl _)

theorem heard_depend (g : Graph P F Φ) (s : SignalId) (d : Dependent) (j : SignalId) :
    Heard (g.node j) ((g.depend s d).node j) := by
  obtain ⟨hform, hmemo, hseen, -⟩ := g.node_depend s d j
  exact ⟨hform, by rw [hmemo], by rw [hmemo], hseen⟩

theorem heard_undepend (g : Graph P F Φ) (s : SignalId) (d : Dependent) (j : SignalId) :
    Heard (g.node j) ((g.undepend s d).node j) := by
  obtain ⟨hform, hmemo, hseen, -⟩ := g.node_undepend s d j
  exact ⟨hform, by rw [hmemo], by rw [hmemo], hseen⟩

theorem heard_notifyAll (g : Graph P F Φ) (ds : List Dependent) (j : SignalId) :
    Heard (g.node j) ((g.notifyAll ds).node j) := by
  by_cases htold : g.Told ds j
  · by_cases hj : j < g.size
    · rw [(g.node_notifyAll ds j).1 htold hj]
      exact ⟨rfl, rfl, rfl, rfl⟩
    · rw [g.node_of_size_le (Nat.le_of_not_lt hj),
        Graph.node_of_size_le _ (by rw [g.size_notifyAll]; exact Nat.le_of_not_lt hj)]
      exact ⟨rfl, rfl, rfl, rfl⟩
  · rw [(g.node_notifyAll ds j).2 htold]
    exact ⟨rfl, rfl, rfl, rfl⟩

theorem heard_notify (g : Graph P F Φ) (id j : SignalId) :
    Heard (g.node j) ((g.notify id).node j) :=
  (g.heard_modify (g.anchor id) (f := fun n => { n with dependents := [] })
    (fun _ => ⟨rfl, rfl, rfl, rfl⟩) j).trans (heard_notifyAll _ (g.node (g.anchor id)).dependents j)

theorem size_notify (g : Graph P F Φ) (id : SignalId) : (g.notify id).size = g.size := by
  show ((g.modify (g.anchor id) _).notifyAll _).size = _
  rw [size_notifyAll, size_modify]

/-- Telling dependents of a change leaves everything but their marks. -/
theorem later_notify (g : Graph P F Φ) (id : SignalId) : g.Later (g.notify id) := by
  refine later_of_forms (g.size_notify id) (fun j => (g.heard_notify id j).form_eq) (fun j => ?_)
    (fun j => ?_) fun j => .inl (g.heard_notify id j).seen_eq
  · obtain ⟨-, houtcome, hversion, -⟩ := g.heard_notify id j
    exact ⟨Nat.le_of_eq hversion.symm, fun _ _ => houtcome⟩
  · rw [(g.heard_notify id j).outcome?_eq]
    exact fun h => h

/-! ### New signals -/

/-- A new signal leaves the others as they are. -/
theorem later_add (hl : g.Layered rank) {n : Node P F Φ} (hl' : (g.add n).2.Layered rank') :
    g.Later (g.add n).2 := by
  have hnode {j : SignalId} (hj : j < g.size) : (g.add n).2.node j = g.node j := by
    rw [g.node_add, if_neg (Nat.ne_of_lt hj)]
  have hversions {j : SignalId} (hj : j < g.size) :
      (g.add n).2.sourceVersions j = g.sourceVersions j := by
    unfold sourceVersions
    rw [hnode hj]
    refine List.map_congr_left fun s hs => ?_
    have hlt := hl.upstream_lt j s hs
    unfold version
    rw [anchor_eq_of_forms hl hl' (fun j hj => by rw [hnode hj]) hlt, hnode (hl.anchor_lt hlt)]
  refine ⟨by rw [size_add]; exact Nat.le_succ _, fun j hj => by rw [hnode hj], fun j hj => ?_,
    fun j hj => ?_, fun j hj htracked => ?_⟩
  · rw [hnode hj]
    exact .refl _
  · rw [hnode hj]
    exact fun h => h
  · unfold Tracked at htracked ⊢
    rw [hnode hj, hversions hj]
    exact ⟨List.forall₂_refl _, htracked⟩

end Graph

end ReactiveDoc.Signal
