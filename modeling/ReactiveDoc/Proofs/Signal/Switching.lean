import Mathlib
import ReactiveDoc.Proofs.Signal.Choosing

namespace ReactiveDoc.Signal

/-!
# A flat map follows the signal that its function gives

* `Reached` — the graphs that requests lead to, as long as all that a change concerns hears of it.
* `ReadsChosen` — a flat map reads like the signal that its function gives for the value of its source.
* `Sound.readsChosen` — every flat map of a sound graph does so.
* `Sound.readsOn` — a write that a flat map does not hear of does not change what it reads.
* `Sound.staysUnresolved` — a flat map that has read a reference without a target takes the first
  outcome of the target for the one it has read.
* `reached_readsChosen` — flat maps follow what their functions give in every reached graph, and
  only as long as these two do not happen.
-/

variable {P F Φ σ : Type}

/-- Signals come from, follow and may follow others without circles. -/
def Graph.Acyclic (pick : Φ → P → Pick P F Φ) (g : Graph P F Φ) : Prop :=
  ∃ rank, g.Descends rank ∧
    (∀ id inner, (g.node id).inner? = some inner → rank inner.signal < rank id) ∧
    ∀ id source choice, (g.node id).form = .flatMap source choice →
      ∀ p, ∀ s ∈ (pick choice p).sources, rank s < rank id

/-- The request is for signals of the graph, makes no circle, and does not write through a map.
    What a change concerns hears of it, and no flat map mistakes the target of a reference. -/
def Request.Permitted (pick : Φ → P → Pick P F Φ) (g : Graph P F Φ) : Request P F Φ → Prop
  | create creation => (∀ s ∈ creation.sources, s < g.size) ∧
      ∀ source choice, creation = .flatMap source choice →
        ∀ p, (pick choice p).Determined ∧ ∀ s ∈ (pick choice p).sources, s < g.size
  | set id _ => id < g.size ∧
      (∀ source steps inverse, (g.node (g.anchor id)).form ≠ .map source steps (.writable inverse)) ∧
      ((g.node (g.anchor id)).form = .cell → Attentive g (g.anchor id))
  | resolve r t => r < g.size ∧ t < g.size ∧ ((g.node r).form = .reference none →
      (g.modify r fun _ => Node.resolved t).Acyclic pick ∧ Attentive g r ∧ TellsApart g r t)
  | reconcile id => id < g.size
  | get id => id < g.size

/-- What is permitted is allowed for the behaviour of pure functions. -/
theorem Request.Permitted.allowed {fn : F → P → Outcome P} {pick : Φ → P → Pick P F Φ}
    {g : Graph P F Φ} {rank : SignalId → Nat} (hs : g.Shaped (.choosing fn pick) rank)
    {request : Request P F Φ} (h : request.Permitted pick g) :
    request.Allowed (.choosing fn pick) 2 g := by
  cases request with
  | create creation =>
    obtain ⟨hsources, hpicks⟩ := h
    refine ⟨hsources, fun source choice hc rank hle => ⟨by omega, fun p => ?_⟩, creation.all_true⟩
    obtain ⟨hd, hlt⟩ := hpicks source choice hc p
    refine ⟨hd, fun s hmem => ⟨hlt s hmem, ?_⟩⟩
    have := hle s
    omega
  | set id o => exact ⟨h.1, fun _ _ => trivial, h.2⟩
  | resolve r t =>
    obtain ⟨hr, ht, hresolves⟩ := h
    refine ⟨hr, ht, fun hwait => ?_⟩
    obtain ⟨⟨rank', hdescends, hinner, hpicks⟩, hatt, htells⟩ := hresolves hwait
    have hne : ∀ id, (g.node id).form ≠ .reference none → id ≠ r := by
      rintro _ hform rfl
      exact hform hwait
    -- Ranks two apart leave room for what is made.
    refine ⟨⟨fun id => 2 * rank' id, ?_⟩, hatt, htells⟩
    refine hs.resolved choosing_stable hwait hr ht ?_ ?_ ?_
    · intro id s hmem
      exact Nat.mul_lt_mul_of_pos_left (hdescends id s hmem) Nat.two_pos
    · intro id inner hi
      obtain ⟨⟨source, choice, p, hform, -⟩, -⟩ := hs.inner id inner hi
      have hid := hne id (by rw [hform]; simp)
      apply Nat.mul_lt_mul_of_pos_left _ Nat.two_pos
      apply hinner id inner
      rwa [g.node_modify_of_ne _ hid]
    · intro id source choice hform
      have hid := hne id (by rw [hform]; simp)
      have hform' : ((g.modify r fun _ => Node.resolved t).node id).form
          = .flatMap source choice := by
        rw [g.node_modify_of_ne _ hid, hform]
      have hsource := hdescends id source (by rw [hform']; exact List.mem_singleton_self _)
      refine ⟨by omega, fun p => ?_⟩
      obtain ⟨hd, hlt⟩ := (hs.room id source choice hform).2 p
      refine ⟨hd, fun s hmem => ⟨(hlt s hmem).1, ?_⟩⟩
      have hrank := hpicks id source choice hform' p s hmem
      show 2 * rank' s + 1 < 2 * rank' id
      omega
  | reconcile id => exact h
  | get id => exact h

variable [Carrier P]

/-! ### Reached graphs -/

/-- The worlds that permitted requests lead to from an empty graph, each with depth enough for the
    signals there are. -/
inductive Reached (codes : Codes P F Φ σ) (pick : Φ → P → Pick P F Φ) : World P F Φ σ → Prop
  | start {w : World P F Φ σ} (hempty : w.graph = {}) : Reached codes pick w
  | step {w w' : World P F Φ σ} {answer : Answer P} (request : Request P F Φ) (depth : Nat)
      (h : Reached codes pick w) (hpermitted : request.Permitted pick w.graph)
      (hdepth : 2 * w.graph.size < depth)
      (hrun : request.run (.ofCodes codes depth) w = .ok (answer, w')) : Reached codes pick w'

section

variable {fn : F → P → Outcome P} {pick : Φ → P → Pick P F Φ} {codes : Codes P F Φ σ}
  {w : World P F Φ σ}

/-- Every reached graph is sound. -/
theorem Reached.sound (hpure : ∀ f p w, codes.apply f p w = .ok (fn f p, w))
    (hpick : ∀ choice p, codes.choose choice p = (pick choice p).run)
    (h : Reached codes pick w) : Sound (.choosing fn pick) w.graph := by
  induction h with
  | start hempty =>
    rw [hempty]
    exact sound_empty
  | step request depth _ hpermitted hdepth hrun ih =>
    obtain ⟨rank, hs⟩ := ih.shaped
    exact Request.sound_of_run (laws_choosing hpure hpick) choosing_regular ih hdepth
      (hpermitted.allowed hs) hrun

/-! ### Following -/

/-- The flat map reads like the signal that its function gives for the value of its source, or
    fails like its source.  What it reads is there afterwards. -/
def ReadsChosen (codes : Codes P F Φ σ) (pick : Φ → P → Pick P F Φ) (w : World P F Φ σ)
    (depth : Nat) (id source : SignalId) (choice : Φ) : Prop :=
  ∃ o o' w', (Request.get id).run (.ofCodes codes depth) w = .ok (.value o, w') ∧
    (Request.get source).run (.ofCodes codes depth) w' = .ok (.value o', w') ∧
    match o' with
    | .error e => o = .error e
    | .ok p => ∃ inner o'', (pick choice p).Is w'.graph inner ∧
        (Request.get inner).run (.ofCodes codes depth) w' = .ok (.value o'', w') ∧ Near o o''

/-- Every flat map of a sound graph follows what its function gives. -/
theorem Sound.readsChosen (laws : Laws (.choosing fn pick) codes)
    (h : Sound (.choosing fn pick) w.graph) {id source : SignalId} {choice : Φ}
    (hform : (w.graph.node id).form = .flatMap source choice) {depth : Nat}
    (hdepth : 2 * w.graph.size < depth) : ReadsChosen codes pick w depth id source choice := by
  have hid : id < w.graph.size := w.graph.lt_size_of_form_ne (by rw [hform]; simp)
  have hpos : 0 < depth := by omega
  obtain ⟨w', hrun, hsound, hframe, -, hup⟩ :=
    h.reconcile laws.stable choosing_regular (reconciles_ofCodes laws depth) hid hdepth
  obtain ⟨rank, hs⟩ := hsound.shaped
  have hform' : (w'.graph.node id).form = .flatMap source choice := by
    rw [hframe.form_eq id hid, hform]
  have hderived : (w'.graph.node id).form.isDerived = true := by
    rw [hform']
    rfl
  rw [Graph.anchor_of_isDerived hderived] at hup
  have hc := hsound.coherent id
  have hset := hc.settled hderived (hup hderived)
  have hmem : source ∈ (w'.graph.node id).form.upstream := by
    rw [hform']
    exact List.mem_singleton_self _
  -- Source and followed signal are up to date, so that reading them changes nothing.
  have hrest : ∀ s, w'.graph.UpToDate (w'.graph.anchor s) →
      (Request.get s).run (.ofCodes codes depth) w' = .ok (.value (w'.graph.value s), w') :=
    fun s hs' => get_run_of_atRest hpos
      ((hsound.coherent _).atRest (Graph.target?_anchor hs.descends s) hs')
  have hcomputed : ∀ s, w'.graph.UpToDate (w'.graph.anchor s) → w'.graph.Computed s :=
    fun s hs' => (hsound.coherent _).isSome (Graph.target?_anchor hs.descends s) hs'
  have hvalue : w'.graph.value id = (w'.graph.node id).memo.read := by
    unfold Graph.value
    rw [Graph.anchor_of_isDerived hderived]
  have hanswers := hc.answers hderived hset.computed hset.seen_eq
    fun s hs' => hcomputed s (hset.upToDate s hs')
  unfold Behaviour.Answers at hanswers
  rw [hform'] at hanswers
  refine ⟨_, _, w', get_run hrun, hrest source (hset.upToDate source hmem), ?_⟩
  rw [hvalue]
  cases hv : w'.graph.value source with
  | error e =>
    simp only [hv] at hanswers
    exact hanswers.2.eq_error
  | ok p =>
    simp only [hv] at hanswers
    obtain ⟨inner, hi, -, hpicked⟩ := hanswers
    have hupInner := hset.inner_upToDate inner hi
    exact ⟨inner.signal, _, hpicked, hrest _ hupInner,
      hc.inner_read inner hi (hset.inner_seen inner hi) (hcomputed _ hupInner)⟩

/-! ### Where a flat map does not follow -/

/-- A flat map whose source the cell concerns reads on as before when the cell is written, whatever
    its function gives then. -/
def ReadsOn (codes : Codes P F Φ σ) (w : World P F Φ σ) (depth : Nat) (c : SignalId)
    (o : Outcome P) : Prop :=
  ∃ id source choice answer w', (w.graph.node id).form = .flatMap source choice ∧
    (w.graph.anchor source = c ∨ w.graph.Hears c (w.graph.anchor source)) ∧
    (Request.get id).run (.ofCodes codes depth) w = .ok (answer, w) ∧
    (Request.set c o).run (.ofCodes codes depth) w = .ok (.written (.ok ()), w') ∧
    (Request.get id).run (.ofCodes codes depth) w' = .ok (answer, w')

/-- When not all that a write of a cell concerns hears of it, some flat map reads on. -/
theorem Sound.readsOn {b : Behaviour P F Φ} (h : Sound b w.graph) {c : SignalId}
    (hcell : (w.graph.node c).form = .cell) (hdeaf : ¬ Attentive w.graph c) {o : Outcome P}
    (hnew : (w.graph.node c).memo.holds o = false) {depth : Nat} (hdepth : 0 < depth) :
    ReadsOn codes w depth c o := by
  unfold Attentive at hdeaf
  push Not at hdeaf
  obtain ⟨id, source, choice, hform, hclean, hconcerned, hunheard⟩ := hdeaf
  obtain ⟨rank, hs⟩ := h.shaped
  have hderived : (w.graph.node id).form.isDerived = true := by
    rw [hform]
    rfl
  have hid : id ≠ c := by
    rintro rfl
    rw [hform] at hcell
    cases hcell
  have hc : w.graph.anchor c = c := Graph.anchor_of_target?_none (by rw [hcell]; rfl)
  have hnode : ((w.graph.written c o).node id) = w.graph.node id := by
    unfold Graph.written
    rw [hnew]
    exact Graph.node_retold_of_not_hears _ hid hunheard
  -- The flat map is at rest before and after.
  have hget : ∀ w' : World P F Φ σ, w'.graph.node id = w.graph.node id →
      (Request.get id).run (.ofCodes codes depth) w'
        = .ok (.value (w.graph.node id).memo.read, w') := by
    intro w' hsame
    have hanchor : w'.graph.anchor id = id := Graph.anchor_of_isDerived (by rwa [hsame])
    have hread : w'.graph.value id = (w.graph.node id).memo.read := by
      unfold Graph.value
      rw [hanchor, hsame]
    rw [← hread]
    apply get_run_of_atRest hdepth
    intro hdirty
    rw [hanchor, hsame, hclean] at hdirty
    cases hdirty
  obtain ⟨d, rfl⟩ : ∃ k, depth = k + 1 := ⟨depth - 1, by omega⟩
  have hset := setNode_run (r := Rules.ofCodes codes d) h c
    (by rw [hc, hcell]; simp) o
  rw [hc, hcell] at hset
  exact ⟨id, source, choice, _, _, hform, hconcerned, hget w rfl, set_run c o hset,
    hget (w.put _) hnode⟩

omit [Carrier P] in
theorem Graph.atRest_depend_iff {g : Graph P F Φ} (s : SignalId) (d : Dependent) (j : SignalId) :
    (g.depend s d).AtRest j ↔ g.AtRest j := by
  unfold Graph.AtRest
  rw [(g.node_depend s d j).1, (g.node_depend s d j).2.1]

/-- A flat map whose source and followed signal are at rest, with the versions it has seen, keeps
    its outcome. -/
theorem reconcileChoice_of_unmoved {r : Rules P F Φ σ}
    (hr : ∀ s (w : World P F Φ σ), w.graph.AtRest (w.graph.anchor s) →
      r.reconcile s w = .ok ((), w))
    {id source : SignalId} {inner : Inner} (choice : Φ) (hid : id < w.graph.size)
    (hsome : (w.graph.node id).memo.outcome?.isSome = true)
    (hseen : (w.graph.node id).seen = [w.graph.version source])
    (hinner : (w.graph.node id).inner? = some inner)
    (hpos : inner.seen ≠ 0) (hversion : w.graph.version inner.signal = inner.seen)
    (hsource : w.graph.AtRest (w.graph.anchor source))
    (hfollowed : w.graph.AtRest (w.graph.anchor inner.signal)) :
    ∃ w', reconcileChoice r id source choice w = .ok ((), w') ∧
      (w'.graph.node id).form = (w.graph.node id).form ∧
      (w'.graph.node id).memo.outcome? = (w.graph.node id).memo.outcome? := by
  -- To register with the source and with the followed signal changes no version and no outcome.
  let g₁ := w.graph.depend source (.signal id)
  let g₂ := g₁.depend inner.signal (.signal id)
  have hnode₁ := w.graph.node_depend source (.signal id) id
  have hnode₂ := g₁.node_depend inner.signal (.signal id) id
  have hversion₁ : ∀ s, g₁.version s = w.graph.version s := by
    intro s
    unfold Graph.version
    rw [w.graph.anchor_depend, (w.graph.node_depend _ _ _).2.1]
  have hversion₂ : ∀ s, g₂.version s = w.graph.version s := by
    intro s
    rw [← hversion₁]
    unfold Graph.version
    rw [g₁.anchor_depend, (g₁.node_depend _ _ _).2.1]
  have hstale : (((w.put g₁).graph.node id).memo.outcome?.isNone ||
      ((w.put g₁).graph.node id).seen != [g₁.version source]) = false := by
    rw [World.put_graph, isStale_eq_false_iff, hnode₁.2.1, hnode₁.2.2.1, hversion₁]
    exact ⟨hsome, hseen⟩
  have hrest₁ : (w.put g₁).graph.AtRest ((w.put g₁).graph.anchor inner.signal) := by
    rw [World.put_graph, w.graph.anchor_depend, Graph.atRest_depend_iff]
    exact hfollowed
  -- The followed signal has the version that was seen, so nothing is read from it.
  have hinnerRun : reconcileInner r id (w.put g₁) = .ok (none, w.put g₂) := by
    unfold reconcileInner
    rw [graph_bind_run, World.put_graph, hnode₁.2.2.2, hinner]
    simp only
    rw [bind_run (hr _ _ hrest₁), register_bind_run, graph_bind_run]
    have hseen : ¬ (inner.seen = 0 ∨ g₂.version inner.signal ≠ inner.seen) := by
      rw [hversion₂]
      exact not_or.mpr ⟨hpos, fun h => h hversion⟩
    split
    · rename_i hmoved
      exact absurd hmoved hseen
    · rfl
  have hclean : (g₂.modify id fun n => { n with memo := { n.memo with dirty := false } }).node id
      = _ := g₂.node_modify_self _
    (by rwa [g₁.size_depend, w.graph.size_depend])
  refine ⟨w.put (g₂.modify id fun n => { n with memo := { n.memo with dirty := false } }), ?_, ?_, ?_⟩
  · unfold reconcileChoice
    rw [bind_run (hr _ _ hsource)]
    simp only [register_bind_run, graph_bind_run, World.put_graph]
    rw [isStale_bind_run (w.put g₁) hstale]
    simp only [Bool.false_eq_true, if_false, pure_bind_run]
    rw [bind_run hinnerRun]
    rfl
  · rw [World.put_graph, hclean, hnode₂.1, hnode₁.1]
  · rw [World.put_graph, hclean, hnode₂.2.1, hnode₁.2.1]

/-- The flat map is up to date and follows a reference without a target, which does not concern its
    source.  The target has had one outcome only. -/
structure Mistakes (g : Graph P F Φ) (id r t : SignalId) : Prop where
  follows : ∃ source choice inner, (g.node id).form = .flatMap source choice ∧
    (g.node id).inner? = some inner ∧ g.anchor inner.signal = r ∧ ¬ g.Hears r (g.anchor source)
  clean : (g.node id).memo.dirty = false
  target : (g.node (g.anchor t)).form = .constant ∨ (g.node (g.anchor t)).form = .cell
  first : g.version t = 1

/-- Once the reference has its target, the target can be read, but the flat map goes on reading that
    the reference has none. -/
def StaysUnresolved (codes : Codes P F Φ σ) (w : World P F Φ σ) (depth : Nat)
    (id r t : SignalId) : Prop :=
  ∃ w₁ w₂, (Request.resolve r t).run (.ofCodes codes depth) w = .ok (.written (.ok ()), w₁) ∧
    (Request.get t).run (.ofCodes codes depth) w₁ = .ok (.value (w.graph.value t), w₁) ∧
    (Request.get id).run (.ofCodes codes depth) w₁ = .ok (.value (.error .unresolvedRef), w₂)

/-- A flat map that mistakes the first outcome of a target for what it has read of the reference
    does not read the target. -/
theorem Sound.staysUnresolved {b : Behaviour P F Φ} (h : Sound b w.graph) {id r t : SignalId}
    (hwait : (w.graph.node r).form = .reference none) (hr : r < w.graph.size)
    {rank' : SignalId → Nat}
    (hacyclic : (w.graph.modify r fun _ => Node.resolved t).Descends rank')
    (hmistakes : Mistakes w.graph id r t) {depth : Nat} (hdepth : 1 < depth) :
    StaysUnresolved codes w depth id r t := by
  obtain ⟨⟨source, choice, inner, hform, hinner, hfollows, hquiet⟩, hclean, htarget, hfirst⟩ :=
    hmistakes
  obtain ⟨rank, hs⟩ := h.shaped
  obtain ⟨d, rfl⟩ : ∃ k, depth = k + 2 := ⟨depth - 2, by omega⟩
  have hderived : (w.graph.node id).form.isDerived = true := by
    rw [hform]
    rfl
  have hid : id < w.graph.size := w.graph.lt_size_of_isDerived hderived
  have hidr : id ≠ r := by
    rintro rfl
    rw [hform] at hwait
    cases hwait
  have hc := h.coherent id
  have hset := hc.settled hderived hclean
  have hmem : source ∈ (w.graph.node id).form.upstream := by
    rw [hform]
    exact List.mem_singleton_self _
  have hmemor := (h.coherent r).waiting hwait
  have hcomputed : ∀ s, w.graph.UpToDate (w.graph.anchor s) → w.graph.Computed s :=
    fun s hs' => (h.coherent _).isSome (Graph.target?_anchor hs.descends s) hs'
  -- What the flat map has read is the failure of the reference.
  have hread : (w.graph.node id).memo.read = .error .unresolvedRef := by
    have hnear := hc.inner_read inner hinner (hset.inner_seen inner hinner)
      (hcomputed _ (hset.inner_upToDate inner hinner))
    have hvalue : w.graph.value inner.signal = .error .unresolvedRef := by
      unfold Graph.value
      rw [hfollows, hmemor]
      rfl
    rw [hvalue] at hnear
    exact hnear.eq_error
  have hseen : inner.seen = 1 := by
    have hversion : w.graph.version inner.signal = 0 := by
      unfold Graph.version
      rw [hfollows, hmemor]
    rw [hset.inner_seen inner hinner, hversion]
    rfl
  -- The source has a value, so it does not stand for the reference.
  have hsourcer : w.graph.anchor source ≠ r := by
    intro hsr
    have hanswers := hc.answers hderived hset.computed hset.seen_eq
      fun s hs' => hcomputed s (hset.upToDate s hs')
    have hvalue : w.graph.value source = .error .unresolvedRef := by
      unfold Graph.value
      rw [hsr, hmemor]
      rfl
    unfold Behaviour.Answers at hanswers
    rw [hform] at hanswers
    simp only [hvalue, hinner] at hanswers
    cases hanswers.1
  have htr : w.graph.anchor t ≠ r := by
    intro htr
    rw [htr, hwait] at htarget
    rcases htarget with hf | hf <;> cases hf
  let g₁ := w.graph.retold r (Node.resolved t)
  have hdescends : g₁.Descends rank' := Graph.descends_resolved hr hacyclic
  have hanchor := Graph.anchor_resolved hs.descends hdescends hr hwait
  have hanchorSource : g₁.anchor source = w.graph.anchor source := (hanchor source).1 hsourcer
  have hanchorTarget : g₁.anchor t = w.graph.anchor t := (hanchor t).1 htr
  have hanchorInner : g₁.anchor inner.signal = w.graph.anchor t :=
    ((hanchor _).2 hfollows).1.trans hanchorTarget
  have hnodeSource : g₁.node (w.graph.anchor source) = w.graph.node (w.graph.anchor source) :=
    Graph.node_retold_of_not_hears _ hsourcer hquiet
  have hnodeTarget : g₁.node (w.graph.anchor t) = w.graph.node (w.graph.anchor t) := by
    refine Graph.node_retold_of_not_hears _ htr fun hears => ?_
    have hd := Graph.isDerived_of_hears hs hears
    rcases htarget with hf | hf <;> rw [hf] at hd <;> cases hd
  have hrem : (w.graph.node (w.graph.anchor inner.signal)).form.remembers = true := by
    rw [hfollows, hwait]
    rfl
  have hears : w.graph.Hears r id := by
    have hreg := hset.inner_registered inner hinner hrem
    rw [hfollows] at hreg
    exact .single hreg
  have hnode : g₁.node id = (w.graph.node id).marked :=
    Graph.node_retold_of_hears _ hidr hid hears
  have hrestSource : g₁.AtRest (g₁.anchor source) := by
    have hrest := (h.coherent _).atRest (Graph.target?_anchor hs.descends source)
      (hset.upToDate source hmem)
    unfold Graph.AtRest at hrest ⊢
    rwa [hanchorSource, hnodeSource]
  have hrestTarget : g₁.AtRest (w.graph.anchor t) := by
    intro _
    rwa [hnodeTarget]
  have hversionSource : g₁.version source = w.graph.version source := by
    unfold Graph.version
    rw [hanchorSource, hnodeSource]
  have hversionInner : g₁.version inner.signal = 1 := by
    rw [← hfirst]
    unfold Graph.version
    rw [hanchorInner, hnodeTarget]
  have hvalueTarget : g₁.value t = w.graph.value t := by
    unfold Graph.value
    rw [hanchorTarget, hnodeTarget]
  have hderived₁ : (g₁.node id).form.isDerived = true := by
    rw [hnode]
    exact hderived
  obtain ⟨w₂, hrun, hform₂, houtcome₂⟩ := reconcileChoice_of_unmoved (w := w.put g₁)
    (r := .ofCodes codes (d + 1)) (fun s w' => reconcileNode_of_atRest) choice
    (by rwa [World.put_graph, Graph.size_retold])
    (by rw [World.put_graph, hnode]; exact hset.computed)
    (by
      rw [World.put_graph, hnode, hversionSource]
      show (w.graph.node id).seen = _
      rw [hset.seen_eq, hform]
      rfl)
    (by rw [World.put_graph, hnode]; exact hinner)
    (by rw [hseen]; exact Nat.one_ne_zero) (by rw [World.put_graph, hversionInner, hseen])
    hrestSource (by rw [World.put_graph, hanchorInner]; exact hrestTarget)
  rw [World.put_graph, hnode] at hform₂ houtcome₂
  have hreconcile : (Rules.ofCodes codes (d + 2)).reconcile id (w.put g₁) = .ok ((), w₂) := by
    show reconcileNode (.ofCodes codes (d + 1)) id (w.put g₁) = _
    unfold reconcileNode
    rw [graph_bind_run, World.put_graph, Graph.anchor_of_isDerived hderived₁, hnode]
    simp only [show (w.graph.node id).marked.form = _ from hform]
    exact hrun
  have hvalue : w₂.graph.value id = .error .unresolvedRef := by
    unfold Graph.value Memo.read
    rw [Graph.anchor_of_isDerived (by rw [hform₂]; exact hderived), houtcome₂]
    exact hread
  refine ⟨w.put g₁, w₂, ?_, ?_, ?_⟩
  · have hresolve := resolve_run w r t
    rw [hwait] at hresolve
    unfold Request.run
    exact bind_run hresolve
  · rw [← hvalueTarget]
    refine get_run_of_atRest (by omega) ?_
    rw [World.put_graph, hanchorTarget]
    exact hrestTarget
  · rw [get_run hreconcile, hvalue]

end

/-! ### All reached graphs -/

/-- **Flat maps follow what their functions give**, in every graph that is reached by requests of
    whose changes everything hears.  A write that a flat map does not hear of, or a target that it
    mistakes for the reference, leaves it behind. -/
theorem reached_readsChosen {fn : F → P → Outcome P} {pick : Φ → P → Pick P F Φ}
    {codes : Codes P F Φ σ} (hpure : ∀ f p w, codes.apply f p w = .ok (fn f p, w))
    (hpick : ∀ choice p, codes.choose choice p = (pick choice p).run) {w : World P F Φ σ}
    (h : Reached codes pick w) :
    (∀ id source choice depth, (w.graph.node id).form = .flatMap source choice →
      2 * w.graph.size < depth → ReadsChosen codes pick w depth id source choice) ∧
    (∀ c o depth, (w.graph.node c).form = .cell → ¬ Attentive w.graph c →
      (w.graph.node c).memo.holds o = false → 0 < depth → ReadsOn codes w depth c o) ∧
    (∀ id r t depth, (w.graph.node r).form = .reference none → r < w.graph.size →
      (w.graph.modify r fun _ => Node.resolved t).Acyclic pick → Mistakes w.graph id r t →
        1 < depth → StaysUnresolved codes w depth id r t) := by
  have hsound := h.sound hpure hpick
  refine ⟨?_, ?_, ?_⟩
  · intro id source choice depth hform hdepth
    exact hsound.readsChosen (laws_choosing hpure hpick) hform hdepth
  · intro c o depth hcell hdeaf hnew hdepth
    exact hsound.readsOn hcell hdeaf hnew hdepth
  · intro id r t depth hwait hr hacyclic hmistakes hdepth
    obtain ⟨rank, hdescends, -⟩ := hacyclic
    exact hsound.staysUnresolved hwait hr hdescends hmistakes hdepth

/-! ### A flat map that is turned away from its source -/

section

open scoped Summing

/-- For zero the source itself, and else a new constant; or always the reference. -/
def branch : Bool → Nat → Pick Nat Unit Bool
  | false, 0 => .known 0
  | false, n + 1 => .made (.constant (.ok (n + 7)))
  | true, _ => .known 2

/-- Flat maps that branch. -/
def branches : Codes Nat Unit Bool Unit where
  apply _ n := pure (.ok n)
  invert _ n := pure n
  choose choice n := (branch choice n).run

/-- Two cells, a reference, and a flat map over each of the cells, after these were read. -/
def watching : Graph Nat Unit Bool where
  nodes := #[{ form := .cell, memo := .given (.ok 0), dependents := [.signal 3] },
    { form := .cell, memo := .given (.ok 7), dependents := [.signal 4] },
    { form := .reference none, memo := ⟨some (.error .unresolvedRef), 0, false⟩,
      dependents := [.signal 4] },
    { form := .flatMap 0 false, memo := .given (.ok 0), seen := [1], inner? := some ⟨0, 1⟩ },
    { form := .flatMap 1 true, memo := .given (.error .unresolvedRef), seen := [1],
      inner? := some ⟨2, 1⟩ }]

/-- The same after the first cell was written and its flat map was read. -/
def turned : Graph Nat Unit Bool where
  nodes := #[{ form := .cell, memo := ⟨some (.ok 1), 2, false⟩ },
    { form := .cell, memo := .given (.ok 7), dependents := [.signal 4] },
    { form := .reference none, memo := ⟨some (.error .unresolvedRef), 0, false⟩,
      dependents := [.signal 4] },
    { form := .flatMap 0 false, memo := ⟨some (.ok 7), 2, false⟩, seen := [2],
      inner? := some ⟨5, 1⟩ },
    { form := .flatMap 1 true, memo := .given (.error .unresolvedRef), seen := [1],
      inner? := some ⟨2, 1⟩ },
    { form := .constant, memo := .given (.ok 7) }]

theorem attentive_watching : Attentive watching 0 := by
  intro id source choice hform _ hconcerned
  have hquiet : ∀ a < watching.size, ¬ watching.Registered a 1 := by decide
  have hunheard : ∀ a, ¬ watching.Registered a 1 :=
    fun a hreg => hquiet a (Graph.lt_size_of_registered hreg) hreg
  match id with
  | 3 => exact .single (by decide : watching.Registered 0 3)
  | 4 =>
    cases hform
    rcases hconcerned with h | h
    · cases h
    · cases h with
      | single h => exact absurd h (hunheard _)
      | tail _ h => exact absurd h (hunheard _)
  | 0 | 1 | 2 => cases hform
  | id + 5 =>
    rw [Graph.node_of_size_le _ (Nat.le_add_left 5 id)] at hform
    cases hform

theorem reached_turned : Reached branches branch ⟨turned, 0, ()⟩ := by
  have hknown : ∀ n p, 2 < n → (branch true p).Determined ∧ ∀ s ∈ (branch true p).sources, s < n := by
    intro n p hn
    exact ⟨trivial, by simp [branch, Pick.sources, hn]⟩
  have hbranch : ∀ n p, 0 < n →
      (branch false p).Determined ∧ ∀ s ∈ (branch false p).sources, s < n := by
    intro n p hn
    cases p with
    | zero => exact ⟨trivial, by simp [branch, Pick.sources, hn]⟩
    | succ p => exact ⟨trivial, by simp [branch, Pick.sources, Creation.sources]⟩
  have h₀ : Reached branches branch ⟨{}, 0, ()⟩ := .start rfl
  have h₁ := h₀.step (.create (.cell (.ok 0))) 13 ⟨by decide, by simp⟩ (by decide) rfl
  have h₂ := h₁.step (.create (.cell (.ok 7))) 13 ⟨by decide, by simp⟩ (by decide) rfl
  have h₃ := h₂.step (.create .reference) 13 ⟨by decide, by simp⟩ (by decide) rfl
  have h₄ := h₃.step (.create (.flatMap 0 false)) 13
    ⟨by decide, by rintro _ _ ⟨⟩ p; exact hbranch _ p (by decide)⟩ (by decide) rfl
  have h₅ := h₄.step (.create (.flatMap 1 true)) 13
    ⟨by decide, by rintro _ _ ⟨⟩ p; exact hknown _ p (by decide)⟩ (by decide) rfl
  have h₆ := h₅.step (.get 3) 13 (show 3 < 5 by decide) (by decide) rfl
  have h₇ : Reached branches branch ⟨watching, 0, ()⟩ := h₆.step (.get 4) 13
    (show 4 < 5 by decide) (by decide) (show _ = Except.ok (.value (.error .unresolvedRef), _) by cbv)
  have h₈ : Reached branches branch ⟨watching.written 0 (.ok 1), 0, ()⟩ :=
    h₇.step (.set 0 (.ok 1)) 13
      ⟨by decide, fun _ _ _ hform => (by cases hform), fun _ => attentive_watching⟩
      (by decide) (show _ = Except.ok (.written (.ok ()), _) by cbv)
  have hsize : (watching.written 0 (.ok 1)).size = 5 := by cbv
  refine h₈.step (.get 3) 13 ?_ ?_ (show _ = Except.ok (.value (.ok 7), _) by cbv)
  · show 3 < (watching.written 0 (.ok 1)).size
    rw [hsize]
    decide
  · show 2 * (watching.written 0 (.ok 1)).size < 13
    rw [hsize]
    decide

/-- In the graph that is reached, both flat maps follow; the first does not hear of the next write,
    and the second mistakes the second cell for the reference. -/
theorem readsChosen_turned :
    ReadsChosen branches branch ⟨turned, 0, ()⟩ 13 3 0 false ∧
      ReadsOn branches ⟨turned, 0, ()⟩ 13 0 (.ok 0) ∧
        StaysUnresolved branches ⟨turned, 0, ()⟩ 13 4 2 1 := by
  have hpure : ∀ f p w, branches.apply f p w = .ok (Except.ok p, w) := fun _ _ _ => rfl
  obtain ⟨hreads, hdeaf, hlate⟩ := reached_readsChosen hpure (fun _ _ => rfl)
    reached_turned
  have hquiet : ∀ a < turned.size, ¬ turned.Registered a 1 ∧ ¬ turned.Registered a 3 := by decide
  -- Neither flat map is registered anywhere, so that they hear of nothing.
  have hunheard : ∀ a id, id = 1 ∨ id = 3 → ¬ turned.Hears a id := by
    intro a id hid h
    have hlast : ∃ x, turned.Registered x id := by
      cases h with
      | single h => exact ⟨_, h⟩
      | tail _ h => exact ⟨_, h⟩
    obtain ⟨x, hx⟩ := hlast
    have hnone := hquiet x (Graph.lt_size_of_registered hx)
    rcases hid with rfl | rfl
    · exact hnone.1 hx
    · exact hnone.2 hx
  refine ⟨hreads 3 0 false 13 rfl (by decide), hdeaf 0 _ 13 rfl ?_ rfl (by decide), ?_⟩
  · intro hatt
    exact hunheard 0 3 (.inr rfl) (hatt 3 0 false rfl rfl (.inl rfl))
  · refine hlate 4 2 1 13 rfl (by decide) ?_ ?_ (by decide)
    -- Ranks for the graph in which the reference has its target.
    · refine ⟨fun id => if id = 4 then 2 else if id = 2 ∨ id = 3 then 1 else 0, ?_, ?_, ?_⟩
      · apply Graph.descends_of_forall_lt
        decide
      · intro id inner hi
        match id with
        | 3 | 4 =>
          cases hi
          decide
        | 0 | 1 | 2 | 5 => cases hi
        | id + 6 =>
          rw [Graph.node_of_size_le _ (Nat.le_add_left 6 id)] at hi
          cases hi
      · intro id source choice hform p s hmem
        match id with
        | 3 =>
          cases hform
          cases p with
          | zero =>
            cases List.mem_singleton.mp hmem
            decide
          | succ p => cases hmem
        | 4 =>
          cases hform
          cases List.mem_singleton.mp hmem
          decide
        | 0 | 1 | 2 | 5 => cases hform
        | id + 6 =>
          rw [Graph.node_of_size_le _ (Nat.le_add_left 6 id)] at hform
          cases hform
    · exact ⟨⟨1, true, ⟨2, 1⟩, rfl, rfl, rfl, hunheard _ _ (.inl rfl)⟩, rfl, .inr rfl, rfl⟩

/-- A flat map that has followed its own source and then another signal misses the way back. -/
theorem turned_away : (runAll (.ofCodes branches 13) [.create (.cell (.ok 0)),
    .create (.flatMap 0 false), .get 1, .set 0 (.ok 1), .get 1, .set 0 (.ok 0), .get 1, .get 0]
      ⟨{}, 0, ()⟩).map Prod.fst = .ok [.created 0, .created 1, .value (.ok 0), .written (.ok ()),
        .value (.ok 7), .written (.ok ()), .value (.ok 7), .value (.ok 0)] := by
  cbv

end

end ReactiveDoc.Signal
