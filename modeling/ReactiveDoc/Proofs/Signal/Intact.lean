import ReactiveDoc.Proofs.Signal.Moving
import ReactiveDoc.Proofs.Signal.Recomputing

namespace ReactiveDoc.Signal

/-!
# Graphs with maps that can be set

A map that was written has the outcome that was written, which need not be the image of what its
source has.  All else that is known of a signal stays so.

* `Behaviour.lenient` — maps may give anything, and there are no flat maps.
* `Intact` — every signal is coherent up to the outcomes of maps, signals register only with those
  that they come from, and maps that cannot be set have the images of their sources' outcomes.
* `Intact.reconcile`, `Intact.write`, `Intact.resolve`, `Intact.create` — reading, writing cells,
  resolving references and adding signals keep a graph intact.
-/

variable {P F Φ σ : Type}

/-- The functions of maps may give anything, and there are no flat maps. -/
def Behaviour.lenient : Behaviour P F Φ where
  good _ := True
  fine _ := True
  image _ _ _ := True
  chosen _ _ _ _ _ := False
  room _ _ _ _ _ := False
  adds := False
  apart := True

theorem Behaviour.lenient_stable : (Behaviour.lenient : Behaviour P F Φ).Stable where
  chosen _ h := h
  room _ _ h := h
  apart _ _ _ _ _ _ _ _ h := h.elim

theorem Behaviour.lenient_regular : (Behaviour.lenient : Behaviour P F Φ).Regular 1 where
  step_pos := Nat.one_pos
  room_compact _ h := h

theorem good_lenient (o : Outcome P) : Good (Behaviour.lenient : Behaviour P F Φ).good o :=
  fun _ _ => trivial

theorem node_all_lenient (n : Node P F Φ) :
    n.All (Behaviour.lenient : Behaviour P F Φ).good (Behaviour.lenient : Behaviour P F Φ).fine :=
  ⟨fun _ _ => good_lenient _, fun _ _ _ _ _ _ => trivial⟩

theorem all_lenient (g : Graph P F Φ) :
    g.All (Behaviour.lenient : Behaviour P F Φ).good (Behaviour.lenient : Behaviour P F Φ).fine :=
  fun id => node_all_lenient (g.node id)

/-! ### Pure functions -/

/-- The functions of maps, and their inverses, are pure. -/
structure Codes.Pure (codes : Codes P F Φ σ) (fn : F → P → Outcome P) (inv : F → P → P) : Prop where
  apply_run : ∀ f p w, codes.apply f p w = .ok (fn f p, w)
  invert_run : ∀ f p w, codes.invert f p w = .ok (inv f p, w)

/-- Functions that do nothing but give an outcome.  There are none for flat maps. -/
def Codes.ofFunctions (fn : F → P → Outcome P) (inv : F → P → P) : Codes P F Φ σ where
  apply f p := pure (fn f p)
  invert f p := pure (inv f p)
  choose _ _ := throw .endless

theorem Codes.pure_ofFunctions (fn : F → P → Outcome P) (inv : F → P → P) :
    (Codes.ofFunctions fn inv : Codes P F Φ σ).Pure fn inv :=
  ⟨fun _ _ _ => rfl, fun _ _ _ => rfl⟩

/-- Steps give their image, and do nothing else. -/
def exactly (fn : F → P → Outcome P) : Effect P F Φ σ :=
  fun steps o w o' w' => o' = imageOf fn steps o ∧ w' = w

section

variable [Carrier P] {fn : F → P → Outcome P} {inv : F → P → P} {codes : Codes P F Φ σ}

theorem Codes.Pure.laws (h : codes.Pure fn inv) : Laws .lenient codes where
  stable := Behaviour.lenient_stable
  closed := ⟨fun _ _ => trivial, fun _ _ => trivial⟩
  apply_run f p w _ _ := ⟨fn f p, w, h.apply_run f p w, rfl, trivial, good_lenient _⟩
  choose_run _ _ _ _ _ _ _ _ h := h.elim

theorem applySteps_pure (h : codes.Pure fn inv) (d : Nat) (steps : List F) (o : Outcome P)
    (w : World P F Φ σ) :
    applySteps (.ofCodes codes (d + 1)) steps o w = .ok (imageOf fn steps o, w) := by
  unfold applySteps
  induction steps generalizing o with
  | nil => rfl
  | cons f steps ih =>
    rw [List.foldlM_cons]
    cases o with
    | error e =>
      rw [pure_bind, ih, imageOf_error, imageOf_error]
    | ok p =>
      have hstep : (Rules.ofCodes codes (d + 1)).apply f p w = .ok (fn f p, w) := h.apply_run f p w
      rw [bind_run hstep, ih]
      rfl

/-- Signals are brought up to date by moves. -/
theorem Codes.Pure.settles (h : codes.Pure fn inv) (rank : SignalId → Nat) (d : Nat) :
    Settles .lenient (exactly fn) (.ofCodes codes d) rank d :=
  settles_ofCodes ⟨fun _ _ => trivial, fun _ _ => trivial⟩ (fun _ _ _ => ⟨rfl, rfl⟩)
    (fun d steps o w _ _ => ⟨_, w, applySteps_pure h d steps o w, rfl, ⟨rfl, rfl⟩, good_lenient _⟩) d

end

/-- The outcome of a signal for its sources' outcomes. -/
def Graph.image [Carrier P] (fn : F → P → Outcome P) (g : Graph P F Φ) (id : SignalId) :
    Outcome P :=
  imageOf fn (g.node id).form.steps (g.input (g.node id).form)

/-! ### Intact graphs -/

/-- Signals of this form are neither written nor stand for another. -/
def Form.isReadOnly : Form F Φ → Bool
  | constant | map _ _ (.readOnly _) | lift _ | flatMap .. | join _ => true
  | cell | map _ _ (.writable _) | label .. | reference _ => false

/-- A map has the image of its source's outcome, as far as the source has the version that the map
    has seen. -/
def Graph.HasImage [BEq P] (fn : F → P → Outcome P) (g : Graph P F Φ) (id : SignalId) : Prop :=
  ∀ source steps role, (g.node id).form = .map source steps role →
    (g.node id).memo.outcome?.isSome = true → (g.node id).seen = [g.version source] →
      g.Computed source → Near (g.node id).memo.read (imageOf fn steps (g.value source))

/-- Signals register only with those that they come from. -/
def Graph.Wired (g : Graph P F Φ) : Prop :=
  ∀ a id, g.Registered a id → ∃ s ∈ (g.node id).form.upstream, g.anchor s = a

/-- Maps that can be set have one step. -/
def Graph.OneStep (g : Graph P F Φ) : Prop :=
  ∀ id source steps inverse, (g.node id).form = .map source steps (.writable inverse) →
    ∃ f, steps = [f]

/-- Every signal is coherent up to the outcomes of maps, signals register only with those that they
    come from, and maps that cannot be set have the images of their sources' outcomes. -/
structure Intact [Carrier P] (fn : F → P → Outcome P) (g : Graph P F Φ) : Prop where
  sound : Sound .lenient g
  wired : g.Wired
  oneStep : g.OneStep
  image : ∀ id, (g.node id).form.isReadOnly = true → g.HasImage fn id

variable [Carrier P] {fn : F → P → Outcome P} {g g' : Graph P F Φ} {rank : SignalId → Nat}
  {id j s : SignalId} {o : Outcome P}

theorem Graph.Shaped.choiceless (hs : g.Shaped .lenient rank) (hc : Coherent .lenient g) :
    g.Choiceless rank := by
  refine ⟨hs.upstream, fun id source choice hform => hs.room id source choice hform, ?_⟩
  intro id hform
  rw [(hc id).waiting hform]

omit [Carrier P] in
theorem Graph.Shaped.no_inner (hs : g.Shaped .lenient rank) (id : SignalId) :
    (g.node id).inner? = none := by
  cases hi : (g.node id).inner? with
  | none => rfl
  | some inner =>
    obtain ⟨⟨_, _, _, _, hchosen⟩, -⟩ := hs.inner id inner hi
    exact hchosen.elim

omit [Carrier P] in
theorem attentive_lenient (hs : g.Shaped .lenient rank) (c : SignalId) : Attentive g c :=
  fun id source choice hform _ _ => (hs.room id source choice hform).elim

omit [Carrier P] in
theorem Graph.Wired.rank_lt (h : g.Wired) (hs : g.Shaped .lenient rank) {a : SignalId}
    (hears : g.Hears a id) : rank a < rank id := by
  have hone {a id : SignalId} (hreg : g.Registered a id) : rank a < rank id := by
    obtain ⟨s, hmem, rfl⟩ := h a id hreg
    exact Nat.lt_of_le_of_lt (rank_anchor_le hs.descends s) (hs.upstream id s hmem).2
  induction hears with
  | single hreg => exact hone hreg
  | tail _ hreg ih => exact ih.trans (hone hreg)

/-- A map that keeps what it remembers keeps having an image, while its source moves ahead. -/
theorem Graph.HasImage.carry (h : g.HasImage fn id) (hc : CoherentAt .lenient g id)
    (hform : (g'.node id).form = (g.node id).form)
    (houtcome : (g'.node id).memo.outcome? = (g.node id).memo.outcome?)
    (hseen : (g'.node id).seen = (g.node id).seen)
    (hahead : ∀ s ∈ (g.node id).form.upstream,
      (g.node (g.anchor s)).memo.Ahead (g'.node (g'.anchor s)).memo) : g'.HasImage fn id := by
  intro source steps role hmap hsome hsaw hcomputed
  have hread : (g'.node id).memo.read = (g.node id).memo.read := by
    unfold Memo.read
    rw [houtcome]
  rw [hform] at hmap
  rw [houtcome] at hsome
  rw [hseen] at hsaw
  rw [hread]
  have hmem : source ∈ (g.node id).form.upstream := by
    rw [hmap]
    exact List.mem_singleton_self _
  have hup : (g.node id).form.upstream = [source] := by rw [hmap]; rfl
  have hle : ∀ s ∈ (g.node id).form.upstream, g.version s ≤ g'.version s :=
    fun s hs => (hahead s hs).version_le
  have hversion := version_eq_of_seen (hc.seen_le (by rw [hmap]; rfl)) hle
    (by rw [hup, hsaw]; rfl) source hmem
  obtain ⟨hbefore, hvalue⟩ := value_eq_of_ahead (hahead source hmem) hversion hcomputed
  rw [hvalue]
  exact h source steps role hmap hsome (by rw [hsaw, hversion]) hbefore

/-! ### Graphs of the same signals -/

/-- Between two graphs at most registrations of watchers and probes have changed, and these. -/
structure Graph.Alike (g g' : Graph P F Φ) : Prop where
  size_eq : g'.size = g.size
  node_eq : ∀ j, (g'.node j).form = (g.node j).form ∧ (g'.node j).memo = (g.node j).memo ∧
    (g'.node j).seen = (g.node j).seen ∧ (g'.node j).inner? = (g.node j).inner?
  registered_iff : ∀ a j, g'.Registered a j ↔ g.Registered a j

namespace Graph.Alike

omit [Carrier P] in
theorem of_node_eq (hsize : g'.size = g.size) (hnode : ∀ j, g'.node j = g.node j) : g.Alike g' := by
  refine ⟨hsize, fun j => by rw [hnode]; exact ⟨rfl, rfl, rfl, rfl⟩, fun a j => ?_⟩
  unfold Graph.Registered
  rw [hnode]

omit [Carrier P] in
theorem symm (h : g.Alike g') : g'.Alike g := by
  refine ⟨h.size_eq.symm, fun j => ?_, fun a j => (h.registered_iff a j).symm⟩
  obtain ⟨hform, hmemo, hseen, hinner⟩ := h.node_eq j
  exact ⟨hform.symm, hmemo.symm, hseen.symm, hinner.symm⟩

omit [Carrier P] in
theorem trans {g'' : Graph P F Φ} (h : g.Alike g') (h' : g'.Alike g'') : g.Alike g'' := by
  refine ⟨h'.size_eq.trans h.size_eq, fun j => ?_, fun a j =>
    (h'.registered_iff a j).trans (h.registered_iff a j)⟩
  obtain ⟨hform, hmemo, hseen, hinner⟩ := h.node_eq j
  obtain ⟨hform', hmemo', hseen', hinner'⟩ := h'.node_eq j
  exact ⟨hform'.trans hform, hmemo'.trans hmemo, hseen'.trans hseen, hinner'.trans hinner⟩

variable (h : g.Alike g')

include h

omit [Carrier P] in
theorem anchor_eq (s : SignalId) : g'.anchor s = g.anchor s :=
  Graph.anchor_congr h.size_eq (fun j => (h.node_eq j).1) s

omit [Carrier P] in
theorem version_eq (s : SignalId) : g'.version s = g.version s := by
  unfold Graph.version
  rw [h.anchor_eq, (h.node_eq _).2.1]

omit [Carrier P] in
theorem value_eq (s : SignalId) : g'.value s = g.value s := by
  unfold Graph.value
  rw [h.anchor_eq, (h.node_eq _).2.1]

omit [Carrier P] in
theorem upToDate_iff : g'.UpToDate j ↔ g.UpToDate j := by
  unfold Graph.UpToDate
  rw [(h.node_eq j).1, (h.node_eq j).2.1]

omit [Carrier P] in
theorem ahead (s : SignalId) :
    (g.node (g.anchor s)).memo.Ahead (g'.node (g'.anchor s)).memo := by
  rw [h.anchor_eq, (h.node_eq _).2.1]
  exact .refl _

omit [Carrier P] in
theorem shaped (hs : g.Shaped .lenient rank) : g'.Shaped .lenient rank := by
  have hev : g.Evolves g' :=
    ⟨Nat.le_of_eq h.size_eq.symm, fun j _ => (h.node_eq j).1, fun j _ => (h.node_eq j).2.1⟩
  exact hs.of_same Behaviour.lenient_stable hev h.size_eq (fun j => (h.node_eq j).1)
    (fun j => (h.node_eq j).2.2.2) (fun a j hr => .inl ((h.registered_iff a j).mp hr))
    (all_lenient g')

end Graph.Alike

/-- Graphs with the same signals are intact alike; watchers and probes do not matter. -/
theorem Intact.alike (h : Intact fn g) (hsame : g.Alike g') : Intact fn g' := by
  obtain ⟨rank, hs⟩ := h.sound.shaped
  refine ⟨⟨⟨rank, hsame.shaped hs⟩, fun id => ?_⟩, fun a id hr => ?_, fun id => ?_, fun id hid => ?_⟩
  · obtain ⟨hform, hmemo, hseen, hinner⟩ := hsame.node_eq id
    refine (h.sound.coherent id).carry ?_ fun _ _ _ _ hch => hch
    -- Nothing has changed that coherence looks at.
    exact {
      form_eq := hform
      outcome?_eq := by rw [hmemo]
      version_eq := by rw [hmemo]
      seen_eq := hseen
      inner?_eq := hinner
      ahead := fun s _ => hsame.ahead s
      inner_le := fun inner _ => Nat.le_of_eq (hsame.version_eq _).symm
      inner_zero := fun inner hi => by rw [hs.no_inner] at hi; cases hi
      inner_value := fun inner hi => by rw [hs.no_inner] at hi; cases hi
      quiet := fun hn d hd => ⟨fun hd' => hn (hsame.upToDate_iff.mpr hd'),
        (hsame.registered_iff id d).mp hd⟩
      waiting := fun _ => hmemo
      clean := fun _ => by rw [hmemo]; exact fun hclean => hclean
      stay := fun hd hclean s hsource => by
        rw [hform] at hd
        rw [hmemo] at hclean
        have hset := (h.sound.coherent id).settled hd hclean
        rcases hsource with hmem | ⟨inner, hi, -⟩
        · exact ⟨hsame.anchor_eq s, (hsame.node_eq _).1, congrArg _ (hsame.node_eq _).2.1,
            hsame.upToDate_iff.mpr (hset.upToDate s hmem), (hsame.registered_iff _ _).mpr⟩
        · rw [hs.no_inner] at hi
          cases hi }
  · rw [(hsame.node_eq id).1]
    obtain ⟨s, hmem, ha⟩ := h.wired a id ((hsame.registered_iff a id).mp hr)
    exact ⟨s, hmem, (hsame.anchor_eq s).trans ha⟩
  · rw [(hsame.node_eq id).1]
    exact h.oneStep id
  · obtain ⟨hform, hmemo, hseen, -⟩ := hsame.node_eq id
    exact (h.image id (hform ▸ hid)).carry (h.sound.coherent id) hform (by rw [hmemo]) hseen
      fun s _ => hsame.ahead s

/-- Without signals there is nothing that could be out of order. -/
theorem intact_empty : Intact fn ({} : Graph P F Φ) := by
  have hnode : ∀ id, ({} : Graph P F Φ).node id = Graph.unresolved :=
    fun id => Graph.node_of_size_le _ (Nat.zero_le _)
  refine ⟨sound_empty, fun a id hreg => ?_, fun id source steps inverse hform => ?_,
    fun id _ source steps role hform => ?_⟩
  · exact absurd (Graph.lt_size_of_registered hreg) (Nat.not_lt_zero _)
  · rw [hnode] at hform
    cases hform
  · rw [hnode] at hform
    cases hform

/-! ### Reading -/

/-- Moves leave the registrations of signals with those that they come from. -/
theorem Moves.wired {A : Effect P F Φ σ} {w w' : World P F Φ σ} {ran : List SignalId}
    (h : Moves A w ran w') (hwired : w.graph.Wired) : w'.graph.Wired := by
  have hsame {w w' : World P F Φ σ} {ran : List SignalId}
      (hmoved : Moved (fun _ _ _ => True) w.graph w'.graph ran) (hwired : w.graph.Wired)
      (hreg : ∀ a id, w'.graph.Registered a id → w.graph.Registered a id) : w'.graph.Wired := by
    intro a id hr
    obtain ⟨s, hmem, ha⟩ := hwired a id (hreg a id hr)
    exact ⟨s, hmoved.form_eq id ▸ hmem, (hmoved.anchor_eq s).trans ha⟩
  induction h with
  | refl => exact hwired
  | tail _ hmove ih =>
    have hmoved := hmove.moved (I := fun _ _ _ => True) fun _ _ _ _ _ _ => trivial
    cases hmove with
    | @register id source hsource =>
      intro a j hr
      rw [World.put_graph] at hr ⊢
      simp only [Graph.anchor_depend, (Graph.node_depend _ _ _ j).1]
      rcases Graph.registered_of_depend hr with hr | ⟨ha, rfl⟩
      · exact ih a j hr
      · exact ⟨source, hsource, ha.symm⟩
    | confirm hdue hfresh =>
      exact hsame hmoved ih fun a j =>
        ((Graph.becomes_cleaned hdue.lt_size).registered_iff rfl a j).mp
    | @renew id o w₁ hdue hstale happly =>
      exact hsame hmoved ih fun a j =>
        ((Graph.becomes_renewed hdue.lt_size o).registered_iff rfl a j).mp

/-- What is computed again has its image, and the rest keeps it. -/
theorem Moved.hasImage {ran : List SignalId}
    (h : Moved (fun steps o o' => o' = imageOf fn steps o) g g' ran) (hs : g.Shaped .lenient rank)
    (hc : CoherentAt .lenient g id) (himage : g.HasImage fn id) : g'.HasImage fn id := by
  by_cases hran : id ∈ ran
  · intro source steps role hform _ _ _
    obtain ⟨o, ho, houtcome, -⟩ := (h.renewed id hran).stored
    have hread : (g'.node id).memo.read = ((g.node id).memo.store o).read := by
      unfold Memo.read
      rw [houtcome]
    rw [hread]
    rw [hform] at ho
    subst ho
    exact Memo.near_store _ _
  · refine himage.carry hc (h.form_eq id) (h.outcome?_eq id hran) (h.seen_eq id hran) fun s hmem => ?_
    rw [h.anchor_eq]
    exact h.later.ahead _ (hs.anchor_lt (hs.upstream_lt id s hmem))

section

variable {g₀ g₁ g₂ : Graph P F Φ} {ran₁ ran₂ : List SignalId} (hsame : g.Alike g₀)
  (h₁ : Moved (fun steps o o' => o' = imageOf fn steps o) g g₁ ran₁)
  (h₂ : Moved (fun steps o o' => o' = imageOf fn steps o) g₀ g₂ ran₂)

include hsame h₁ h₂

/-- What one has computed again the other has, if it is up to date there with the same versions. -/
theorem Moved.mem_of_mem (hset : Settled .lenient g₂ id)
    (hversions : g₂.sourceVersions id = g₁.sourceVersions id) (hran : id ∈ ran₁) : id ∈ ran₂ := by
  by_contra hnot
  obtain ⟨hform, hmemo, hseen, -⟩ := hsame.node_eq id
  rcases (h₁.renewed id hran).stale with hnone | hne
  · have hsome := hset.computed
    rw [h₂.outcome?_eq id hnot, hmemo, hnone] at hsome
    cases hsome
  · refine hne ?_
    rw [← hseen, ← h₂.seen_eq id hnot, hset.seen_eq, ← hversions]
    rfl

/-- However a signal was brought up to date, it has the same outcome and version. -/
theorem Moved.agree (hs : g.Shaped .lenient rank) (hc₁ : Coherent .lenient g₁)
    (hc₂ : Coherent .lenient g₂) (id : SignalId) (hup₁ : g₁.UpToDate id) (hup₂ : g₂.UpToDate id) :
    (g₂.node id).memo.outcome? = (g₁.node id).memo.outcome? ∧
      (g₂.node id).memo.version = (g₁.node id).memo.version := by
  obtain ⟨hform, hmemo, hseen, -⟩ := hsame.node_eq id
  by_cases hup : g.UpToDate id
  · rw [h₁.memo_eq id hup, h₂.memo_eq id (hsame.upToDate_iff.mpr hup), hmemo]
    exact ⟨rfl, rfl⟩
  · have hd := ((g.not_upToDate_iff id).mp hup).1
    have hform₁ := h₁.form_eq id
    have hform₂ : (g₂.node id).form = (g.node id).form := (h₂.form_eq id).trans hform
    have hset₁ := (hc₁ id).settled (hform₁ ▸ hd) (hup₁ (hform₁ ▸ hd))
    have hset₂ := (hc₂ id).settled (hform₂ ▸ hd) (hup₂ (hform₂ ▸ hd))
    -- Its sources agree.
    have hsources : ∀ s ∈ (g.node id).form.upstream, g₂.value s = g₁.value s ∧
        g₂.version s = g₁.version s := by
      intro s hmem
      have hanchor₁ := h₁.anchor_eq s
      have hanchor₂ : g₂.anchor s = g.anchor s := (h₂.anchor_eq s).trans (hsame.anchor_eq s)
      have hlt : rank (g.anchor s) < rank id :=
        Nat.lt_of_le_of_lt (Graph.rank_anchor_le hs.descends s) (hs.upstream id s hmem).2
      have hsource₁ := hset₁.upToDate s (hform₁ ▸ hmem)
      have hsource₂ := hset₂.upToDate s (hform₂ ▸ hmem)
      rw [hanchor₁] at hsource₁
      rw [hanchor₂] at hsource₂
      obtain ⟨houtcome, hversion⟩ := Moved.agree hs hc₁ hc₂ _ hsource₁ hsource₂
      unfold Graph.value Graph.version Memo.read
      rw [hanchor₁, hanchor₂, houtcome, hversion]
      exact ⟨rfl, rfl⟩
    have hversions : g₂.sourceVersions id = g₁.sourceVersions id :=
      Graph.sourceVersions_congr (hform₂.trans hform₁.symm)
        fun s hmem => (hsources s (hform₁ ▸ hmem)).2
    by_cases hran₁ : id ∈ ran₁
    · have hran₂ := Moved.mem_of_mem hsame h₁ h₂ hset₂ hversions hran₁
      obtain ⟨o₁, rfl, houtcome₁, hversion₁⟩ := (h₁.renewed id hran₁).stored
      obtain ⟨o₂, rfl, houtcome₂, hversion₂⟩ := (h₂.renewed id hran₂).stored
      have hinput : g₂.input (g₂.node id).form = g₁.input (g₁.node id).form := by
        rw [hform₁, hform₂]
        exact Graph.input_congr fun s hmem => (hsources s hmem).1
      rw [houtcome₁, houtcome₂, hversion₁, hversion₂, hinput, hform₁, hform₂, hmemo]
      exact ⟨rfl, rfl⟩
    · have hran₂ : id ∉ ran₂ := fun hran₂ =>
        hran₁ (Moved.mem_of_mem hsame.symm h₂ h₁ hset₁ hversions.symm hran₂)
      rw [h₁.outcome?_eq id hran₁, h₁.version_eq id hran₁, h₂.outcome?_eq id hran₂,
        h₂.version_eq id hran₂, hmemo]
      exact ⟨rfl, rfl⟩
termination_by rank id

end

section

variable {inv : F → P → P} {codes : Codes P F Φ σ} {w : World P F Φ σ} {d : Nat}

/-- A signal is brought up to date by moves of those of no higher rank, and the graph stays
    intact. -/
theorem Intact.reconcile (h : Intact fn w.graph) (hpure : codes.Pure fn inv)
    (hs : w.graph.Shaped .lenient rank) (hid : id < w.graph.size) (hd : w.graph.size < d)
    (hrank : rank (w.graph.anchor id) < d) :
    ∃ ran w', (Rules.ofCodes codes d).reconcile id w = .ok ((), w') ∧ Intact fn w'.graph ∧
      Reaches .lenient (exactly fn) rank (rank (w.graph.anchor id) + 1) w ran w' ∧
      w'.graph.UpToDate (w'.graph.anchor id) := by
  obtain ⟨w', hrun, hsound, -, -, hup⟩ := h.sound.reconcile Behaviour.lenient_stable
    Behaviour.lenient_regular (reconciles_ofCodes hpure.laws d) hid (by rwa [Nat.one_mul])
  obtain ⟨ran, w'', hrun', hreach, -⟩ := hpure.settles rank d id w
    (hs.choiceless h.sound.coherent) (all_lenient _) hrank
  rw [hrun] at hrun'
  cases hrun'
  have hmoved : Moved (fun steps o o' => o' = imageOf fn steps o) w.graph w'.graph ran :=
    hreach.moves.moved fun _ _ _ _ _ h => h.1
  refine ⟨ran, w', hrun, ⟨hsound, hreach.moves.wired h.wired, fun j => ?_, fun j hj => ?_⟩, hreach,
    hup⟩
  · rw [hmoved.form_eq]
    exact h.oneStep j
  · exact hmoved.hasImage hs (h.sound.coherent j) (h.image j (hmoved.form_eq j ▸ hj))

end

/-! ### Writing cells -/

omit [Carrier P] in
/-- When a signal has become another of the same form and its dependents are told, signals stay
    registered with those that they come from. -/
theorem Graph.Wired.retold {n : Node P F Φ} (h : g.Wired) (hform : n.form = (g.node id).form)
    (hlt : id < g.size) : (g.retold id n).Wired := by
  intro a j hreg
  obtain ⟨s, hmem, ha⟩ := h a j (registered_of_retold hlt hreg)
  refine ⟨s, ?_, (anchor_retold hform hlt s).trans ha⟩
  by_cases hj : j = id
  · rw [hj, form_retold_self n hlt, hform, ← hj]
    exact hmem
  · rwa [form_retold n hj]

omit [Carrier P] in
/-- Forms stay when dependents are told. -/
theorem Graph.form_retold_eq {n : Node P F Φ} (hform : n.form = (g.node id).form) (hlt : id < g.size)
    (j : SignalId) : ((g.retold id n).node j).form = (g.node j).form := by
  by_cases hj : j = id
  · rw [hj, form_retold_self n hlt, hform]
  · exact form_retold n hj

omit [Carrier P] in
/-- Another signal keeps all but its mark and its dependents. -/
theorem Graph.heard_retold (n : Node P F Φ) (hj : j ≠ id) :
    Heard (g.node j) ((g.retold id n).node j) := by
  by_cases hlt : j < g.size
  · rcases g.node_retold_cases n hj hlt with ⟨-, h⟩ | ⟨-, h⟩ <;> rw [h]
    · exact ⟨rfl, rfl, rfl, rfl⟩
    · exact ⟨rfl, rfl, rfl, rfl⟩
  · rw [g.node_of_size_le (Nat.le_of_not_lt hlt),
      Graph.node_of_size_le _ (by rw [g.size_retold]; exact Nat.le_of_not_lt hlt)]
    exact ⟨rfl, rfl, rfl, rfl⟩

omit [Carrier P] in
/-- Signals move ahead when one that has the same form does and its dependents are told. -/
theorem Graph.ahead_anchor_retold {n : Node P F Φ} (hform : n.form = (g.node id).form)
    (hahead : (g.node id).memo.Ahead n.memo) (hlt : id < g.size) (hs : g.anchor s < g.size) :
    (g.node (g.anchor s)).memo.Ahead ((g.retold id n).node ((g.retold id n).anchor s)).memo := by
  rw [Graph.anchor_retold hform hlt]
  by_cases ha : g.anchor s = id
  · rw [ha]
    rcases Graph.node_retold_self n hlt with hself | hself <;> rw [hself]
    · exact hahead
    · exact ⟨hahead.version_le, hahead.outcome?_eq⟩
  · exact Graph.ahead_retold n ha hs

/-- Images stay, where a signal that may be written or stand for another moves ahead. -/
theorem Intact.hasImage_retold (h : Intact fn g) {n : Node P F Φ}
    (hwritten : (g.node id).form.isReadOnly = false)
    (hform : n.form = (g.node id).form) (hahead : (g.node id).memo.Ahead n.memo) (hlt : id < g.size)
    (j : SignalId) (hj : ((g.retold id n).node j).form.isReadOnly = true) :
    (g.retold id n).HasImage fn j := by
  rw [Graph.form_retold_eq hform hlt] at hj
  have hne : j ≠ id := by
    rintro rfl
    rw [hwritten] at hj
    cases hj
  have hheard := g.heard_retold n hne
  refine (h.image j hj).carry (h.sound.coherent j) hheard.form_eq hheard.outcome?_eq hheard.seen_eq
    fun s hmem => ?_
  obtain ⟨rank, hs⟩ := h.sound.shaped
  exact Graph.ahead_anchor_retold hform hahead hlt (hs.anchor_lt (hs.upstream_lt j s hmem))

/-- A cell that is written leaves the graph intact. -/
theorem Intact.write (h : Intact fn g) (hcell : (g.node id).form = .cell) (o : Outcome P) :
    Intact fn (g.written id o) := by
  obtain ⟨rank, hs⟩ := h.sound.shaped
  have hsound := h.sound.write Behaviour.lenient_stable hcell (attentive_lenient hs id)
    (good_lenient o)
  have hlt : id < g.size := g.lt_size_of_form_ne (by rw [hcell]; simp)
  unfold Graph.written at hsound ⊢
  split
  · exact h
  · rename_i hholds
    rw [if_neg hholds] at hsound
    refine ⟨hsound, h.wired.retold rfl hlt, fun j => ?_, h.hasImage_retold ?_ rfl
      ((g.node id).memo.ahead_store o) hlt⟩
    · rw [Graph.form_retold_eq (by rfl) hlt]
      exact h.oneStep j
    · rw [hcell]
      rfl

/-! ### Resolving references -/

section

variable {r t : SignalId} (h : Intact fn g) (hwait : (g.node r).form = .reference none)
  (hlt : r < g.size) (htlt : t < g.size)
  (hd' : (g.modify r fun _ => Node.resolved t).Descends rank)

include h hwait hlt htlt hd'

theorem Intact.shaped_resolved : (g.retold r (Node.resolved t)).Shaped .lenient rank := by
  obtain ⟨rank₀, hs⟩ := h.sound.shaped
  exact hs.resolved Behaviour.lenient_stable hwait hlt htlt hd'
    (fun id inner hi => by rw [hs.no_inner] at hi; cases hi)
    fun id source choice hf => hs.room id source choice hf

/-- What did not stand for the reference stands for what it did. -/
theorem Intact.anchor_resolved (hs : g.anchor s ≠ r) :
    (g.retold r (Node.resolved t)).anchor s = g.anchor s := by
  obtain ⟨rank₀, hs₀⟩ := h.sound.shaped
  have hs' := h.shaped_resolved hwait hlt htlt hd'
  exact (Graph.anchor_resolved hs₀.descends hs'.descends hlt hwait s).1 hs

/-- Signals move ahead when a reference gets a target. -/
theorem Intact.ahead_resolved (hslt : s < g.size) : (g.node (g.anchor s)).memo.Ahead
    ((g.retold r (Node.resolved t)).node ((g.retold r (Node.resolved t)).anchor s)).memo := by
  obtain ⟨rank₀, hs⟩ := h.sound.shaped
  have hs' := h.shaped_resolved hwait hlt htlt hd'
  have hanchor := Graph.anchor_resolved hs.descends hs'.descends hlt hwait (t := t)
  have htne := Graph.anchor_target_ne hs.descends hs'.descends hlt hwait
  by_cases hsr : g.anchor s = r
  · -- What stood for the reference now stands for the target, if that has anything to show.
    have hthrough := (((hanchor s).2 hsr).1).trans ((hanchor t).1 htne)
    have htarget := g.heard_retold (Node.resolved t) htne
    rw [hthrough, hsr, (h.sound.coherent r).waiting hwait]
    refine ⟨Nat.zero_le _, fun hversion hsome => ?_⟩
    rw [htarget.outcome?_eq] at hsome ⊢
    rw [htarget.version_eq] at hversion
    have hzero := (h.sound.coherent (g.anchor t)).form_of_version_zero
      (Graph.target?_anchor hs.descends t) hsome hversion
    rw [(h.sound.coherent (g.anchor t)).waiting hzero]
  · rw [(hanchor s).1 hsr]
    exact Graph.ahead_retold _ hsr (hs.anchor_lt hslt)

/-- A reference that gets a target leaves the graph intact, if this makes no circle. -/
theorem Intact.resolve : Intact fn (g.retold r (Node.resolved t)) := by
  obtain ⟨rank₀, hs⟩ := h.sound.shaped
  have hs' := h.shaped_resolved hwait hlt htlt hd'
  have htells : TellsApart g r t := fun id inner hi => by
    rw [hs.no_inner] at hi
    cases hi
  have hsound := h.sound.resolve Behaviour.lenient_stable hwait hlt htlt hs'
    (attentive_lenient hs r) htells
  refine ⟨hsound, fun a id hreg => ?_, fun id source steps inverse hform => ?_, fun id hread => ?_⟩
  · have hbefore := Graph.registered_of_retold hlt hreg
    have hd := hs.registered a id hbefore
    obtain ⟨s, hmem, ha⟩ := h.wired a id hbefore
    have hid : id ≠ r := by
      rintro rfl
      rw [hwait] at hd
      cases hd
    refine ⟨s, by rwa [Graph.form_retold _ hid], ?_⟩
    -- What was registered with the reference has been told, and is not any more.
    have har : a ≠ r := by
      rintro rfl
      unfold Graph.Registered at hreg
      rcases Graph.node_retold_self (Node.resolved t) hlt with hn | hn <;> rw [hn] at hreg <;>
        cases hreg
    rw [h.anchor_resolved hwait hlt htlt hd' (ha ▸ har), ha]
  · have hid : id ≠ r := by
      rintro rfl
      rw [Graph.form_resolved hlt] at hform
      cases hform
    rw [Graph.form_retold _ hid] at hform
    exact h.oneStep id source steps inverse hform
  · have hid : id ≠ r := by
      rintro rfl
      rw [Graph.form_resolved hlt] at hread
      cases hread
    rw [Graph.form_retold _ hid] at hread
    have hheard := g.heard_retold (Node.resolved t) hid
    exact (h.image id hread).carry (h.sound.coherent id) hheard.form_eq hheard.outcome?_eq
      hheard.seen_eq fun s hmem => h.ahead_resolved hwait hlt htlt hd' (hs.upstream_lt id s hmem)

end

/-! ### New signals -/

omit [Carrier P] in
/-- A signal is the new one, or was there before, or is not there. -/
theorem Creation.node_cases (c : Creation P F Φ) (g : Graph P F Φ) (j : SignalId) :
    (j = g.size ∧ (c.apply g).2.node j = { form := c.form g, memo := c.memo }) ∨
      (j < g.size ∧ (c.apply g).2.node j = g.node j) ∨
      (g.size < j ∧ (c.apply g).2.node j = Graph.unresolved) := by
  rw [c.apply_eq, g.node_add]
  by_cases hj : j = g.size
  · exact .inl ⟨hj, if_pos hj⟩
  · rw [if_neg hj]
    by_cases hlt : j < g.size
    · exact .inr (.inl ⟨hlt, rfl⟩)
    · have hle := Nat.le_of_not_lt hlt
      exact .inr (.inr ⟨Nat.lt_of_le_of_ne hle (Ne.symm hj), g.node_of_size_le hle⟩)

section

variable (h : Intact fn g) {c : Creation P F Φ} (hsources : ∀ s ∈ c.sources, s < g.size)
  (hchoice : ∀ source choice, c ≠ .flatMap source choice)

include h hsources hchoice

theorem Intact.sound_create : Sound .lenient (c.apply g).2 :=
  Creation.sound Behaviour.lenient_stable Behaviour.lenient_regular h.sound hsources
    (fun source choice hc => absurd hc (hchoice source choice)) c.all_true

theorem Intact.frame_create : Frame (fun _ => False) g (c.apply g).2 := by
  obtain ⟨rank, hs⟩ := h.sound.shaped
  obtain ⟨rank', hs'⟩ := (h.sound_create hsources hchoice).shaped
  rw [c.apply_eq] at hs' ⊢
  exact (Graph.grows_add (c.fresh g)).frame hs hs'

/-- A new signal has nothing that could be no image, and the others keep theirs. -/
theorem Intact.hasImage_create (himage : id < g.size → g.HasImage fn id) :
    (c.apply g).2.HasImage fn id := by
  obtain ⟨rank, hs⟩ := h.sound.shaped
  have hframe := h.frame_create hsources hchoice
  rcases c.node_cases g id with ⟨-, hnew⟩ | ⟨hid, hnode⟩ | ⟨-, hnone⟩
  · intro source steps role hform hsome
    have hderived := (c.fresh g).derived (by rw [hnew] at hform; rw [hform]; rfl)
    rw [hnew] at hsome
    rw [hderived] at hsome
    cases hsome
  · refine (himage hid).carry (h.sound.coherent id) (by rw [hnode]) (by rw [hnode]) (by rw [hnode])
      fun s hmem => ?_
    have hslt := hs.upstream_lt id s hmem
    rw [hframe.anchor_eq s hslt]
    exact hframe.ahead _ (hs.anchor_lt hslt)
  · intro source steps role hform
    rw [hnone] at hform
    cases hform

/-- A new signal that is no flat map leaves the graph intact. -/
theorem Intact.create : Intact fn (c.apply g).2 := by
  obtain ⟨rank, hs⟩ := h.sound.shaped
  have hframe := h.frame_create hsources hchoice
  refine ⟨h.sound_create hsources hchoice, fun a id hreg => ?_,
    fun id source steps inverse hform => ?_,
    fun id hread => h.hasImage_create hsources hchoice fun hid => h.image id ?_⟩
  · have hbefore : g.Registered a id := by
      unfold Graph.Registered at hreg ⊢
      rcases c.node_cases g a with ⟨-, hnew⟩ | ⟨-, hnode⟩ | ⟨-, hnone⟩
      · rw [hnew] at hreg
        cases hreg
      · rwa [hnode] at hreg
      · rw [hnone] at hreg
        cases hreg
    obtain ⟨s, hmem, ha⟩ := h.wired a id hbefore
    have hid := g.lt_size_of_isDerived (hs.registered a id hbefore)
    exact ⟨s, by rwa [hframe.form_eq id hid],
      (hframe.anchor_eq s (hs.upstream_lt id s hmem)).trans ha⟩
  · rcases c.node_cases g id with ⟨-, hnew⟩ | ⟨-, hnode⟩ | ⟨-, hnone⟩
    · rw [hnew] at hform
      by_cases hwritable : ∃ source' f inverse', c = .mapWritable source' f inverse'
      · obtain ⟨source', f, inverse', rfl⟩ := hwritable
        cases hform
        exact ⟨f, rfl⟩
      · exact absurd hform (c.form_ne_writable g (fun s f i hc => hwritable ⟨s, f, i, hc⟩) _ _ _)
    · rw [hnode] at hform
      exact h.oneStep id source steps inverse hform
    · rw [hnone] at hform
      cases hform
  · rwa [hframe.form_eq id hid] at hread

end

end ReactiveDoc.Signal
