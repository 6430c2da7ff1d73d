import ReactiveDoc.Proofs.Signal.Operating

namespace ReactiveDoc.Signal

/-!
# Requests to a graph of signals

* `Creation`, `Request`, `Answer` — what can be asked of a graph, and what it says.
* `Creation.run_sound` — a new signal leaves the graph sound.
* `Request.run`, `runAll` — requests to the graph with its memory.
* `Request.Allowed` — the request makes no circle, and all that a change concerns hears of it.
* `Request.run_sound` — such a request succeeds and leaves the graph sound.
* `Requested`, `Requested.sound` — later requests, and what they keep.
-/

variable {P F Φ σ : Type}

/-- A signal to be added. -/
inductive Creation (P F Φ : Type) where
  | constant (outcome : Outcome P)
  | cell (outcome : Outcome P)
  | map (source : SignalId) (f : F) (uniform : Bool)
  | mapFused (source : SignalId) (f : F)
  | mapWritable (source : SignalId) (f inverse : F)
  | lift (source : SignalId)
  | join (sources : List SignalId)
  | label (source : SignalId) (name : String)
  | reference
  | flatMap (source : SignalId) (choice : Φ)

namespace Creation

/-- Add the signal. -/
def apply (g : Graph P F Φ) : Creation P F Φ → SignalId × Graph P F Φ
  | constant outcome => g.constant outcome
  | cell outcome => g.cell outcome
  | map source f uniform => g.map source f uniform
  | mapFused source f => g.mapFused source f
  | mapWritable source f inverse => g.mapWritable source f inverse
  | lift source => g.lift source
  | join sources => g.join sources
  | label source name => g.label source name
  | reference => g.reference
  | flatMap source choice => g.flatMap source choice

/-- The signals that the new one is made from. -/
def sources : Creation P F Φ → List SignalId
  | constant _ | cell _ | reference => []
  | map source _ _ | mapFused source _ | mapWritable source _ _ => [source]
  | lift source | label source _ | flatMap source _ => [source]
  | join sources => sources

/-- The form of the new signal. -/
def form (g : Graph P F Φ) : Creation P F Φ → Form F Φ
  | constant _ => .constant
  | cell _ => .cell
  | map source f uniform => .map source [f] (.readOnly uniform)
  | mapFused source f =>
      match (g.node source).form with
      | .map origin steps (.readOnly true) => .map origin (steps ++ [f]) (.readOnly true)
      | _ => .map source [f] (.readOnly true)
  | mapWritable source f inverse => .map source [f] (.writable inverse)
  | lift source => .lift source
  | join sources => .join sources
  | label source name => .label name source
  | reference => .reference none
  | flatMap source choice => .flatMap source choice

/-- What the new signal remembers. -/
def memo : Creation P F Φ → Memo P
  | constant outcome | cell outcome => .given outcome
  | reference => ⟨some (.error .unresolvedRef), 0, false⟩
  | _ => {}

/-- Every creation adds one signal, and changes no other. -/
theorem apply_eq (g : Graph P F Φ) (c : Creation P F Φ) :
    c.apply g = g.add { form := c.form g, memo := c.memo } := by
  cases c with
  | mapFused source f =>
    simp only [apply, Graph.mapFused, form]
    cases (g.node source).form with
    | map origin steps role =>
      cases role with
      | readOnly uniform => cases uniform <;> rfl
      | writable inverse => rfl
    | _ => rfl
  | _ => rfl

/-- A fused map comes from the signal that it is made from, or from what that comes from. -/
theorem form_mapFused (g : Graph P F Φ) (source : SignalId) (f : F) :
    ∃ origin steps, (mapFused source f : Creation P F Φ).form g =
        .map origin steps (.readOnly true) ∧
      (origin = source ∨ origin ∈ (g.node source).form.upstream) := by
  simp only [form]
  split
  · rename_i origin steps hform
    exact ⟨origin, _, rfl, .inr (by rw [hform]; exact List.mem_singleton_self _)⟩
  · exact ⟨source, _, rfl, .inl rfl⟩

/-- Only the creation of a flat map adds one. -/
theorem eq_flatMap_of_form {g : Graph P F Φ} {c : Creation P F Φ} {source : SignalId} {choice : Φ}
    (h : c.form g = .flatMap source choice) : c = .flatMap source choice := by
  cases c with
  | flatMap source' choice' =>
    cases h
    rfl
  | mapFused origin f =>
    obtain ⟨_, _, hform, -⟩ := form_mapFused g origin f
    rw [hform] at h
    cases h
  | _ => cases h

/-- Only the creation of a map that can be set adds one. -/
theorem form_ne_writable {c : Creation P F Φ} (g : Graph P F Φ)
    (h : ∀ source f inverse, c ≠ .mapWritable source f inverse) (source : SignalId)
    (steps : List F) (inverse : F) : c.form g ≠ .map source steps (.writable inverse) := by
  intro hform
  cases c with
  | mapWritable source f inverse => exact h source f inverse rfl
  | mapFused origin f =>
    obtain ⟨_, _, hfused, -⟩ := form_mapFused g origin f
    rw [hfused] at hform
    cases hform
  | _ => cases hform

/-- The new signal is given a good outcome or a fine step. -/
def All (good : P → Prop) (fine : F → Prop) : Creation P F Φ → Prop
  | constant outcome | cell outcome => Good good outcome
  | map _ f _ | mapFused _ f | mapWritable _ f _ => fine f
  | _ => True

/-- Nothing is asked of the new signal. -/
theorem all_true (c : Creation P F Φ) : c.All (fun _ => True) fun _ => True := by
  cases c with
  | constant outcome | cell outcome => exact fun _ _ => trivial
  | _ => trivial

/-- Then what it remembers is good and its steps are fine, if this holds of all others. -/
theorem All.node {good : P → Prop} {fine : F → Prop} {g : Graph P F Φ} {c : Creation P F Φ}
    (hc : c.All good fine) (h : g.All good fine) :
    ({ form := c.form g, memo := c.memo } : Node P F Φ).All good fine := by
  have hone : ∀ {source source' : SignalId} {f : F} {steps : List F} {role role' : MapRole F},
      fine f → Form.map source [f] role = (.map source' steps role' : Form F Φ) →
        ∀ f ∈ steps, fine f := by
    rintro _ _ f _ _ _ hf ⟨⟩ f' hf'
    rwa [List.mem_singleton.mp hf']
  refine ⟨fun o ho => ?_, fun source steps role hform => ?_⟩
  · cases c with
    | constant outcome | cell outcome =>
      cases ho
      exact hc
    | reference =>
      cases ho
      exact good_error _
    | _ => cases ho
  · cases c with
    | map source' f uniform | mapWritable source' f inverse => exact hone hc hform
    | mapFused source' f =>
      -- The steps of the map that it is fused with come first.
      simp only [form] at hform
      split at hform
      · rename_i hsource
        cases hform
        intro f' hf'
        rcases List.mem_append.mp hf' with hf' | hf'
        · exact (h source').steps _ _ _ hsource f' hf'
        · rwa [List.mem_singleton.mp hf']
      · exact hone hc hform
    | _ => cases hform

/-- A new signal was not computed, read or told anything. -/
theorem fresh (g : Graph P F Φ) (c : Creation P F Φ) :
    ({ form := c.form g, memo := c.memo } : Node P F Φ).Fresh := by
  cases c with
  | constant outcome => exact ⟨rfl, rfl, rfl, by simp [form, Form.isDerived], fun _ => ⟨_, rfl⟩,
      by simp [form]⟩
  | cell outcome => exact ⟨rfl, rfl, rfl, by simp [form, Form.isDerived], fun _ => ⟨_, rfl⟩,
      by simp [form]⟩
  | mapFused source f =>
    obtain ⟨origin, steps, hform, -⟩ := form_mapFused g source f
    exact ⟨rfl, rfl, rfl, fun _ => rfl, by simp [hform], by simp [hform]⟩
  | reference => exact ⟨rfl, rfl, rfl, by simp [form, Form.isDerived], by simp [form],
      fun _ => rfl⟩
  | _ => exact ⟨rfl, rfl, rfl, fun _ => rfl, by simp [form], by simp [form]⟩

/-- The new signal comes from signals of the graph, if it is made from such. -/
theorem upstream_lt {g : Graph P F Φ} (hup : ∀ id, ∀ s ∈ (g.node id).form.upstream, s < g.size)
    {c : Creation P F Φ} (h : ∀ s ∈ c.sources, s < g.size) :
    ∀ s ∈ (c.form g).upstream, s < g.size := by
  cases c with
  | mapFused source f =>
    obtain ⟨origin, steps, hform, horigin⟩ := form_mapFused g source f
    rw [hform]
    intro s hmem
    rw [List.mem_singleton.mp hmem]
    rcases horigin with rfl | hmem
    · exact h origin (List.mem_singleton_self _)
    · exact hup source origin hmem
  | constant outcome => exact h
  | cell outcome => exact h
  | map source f uniform => exact h
  | mapWritable source f inverse => exact h
  | lift source => exact h
  | join sources => exact h
  | label source name => exact h
  | reference => exact h
  | flatMap source choice => exact h

end Creation

/-- Something that is asked of a graph. -/
inductive Request (P F Φ : Type) where
  | create (creation : Creation P F Φ)
  | set (id : SignalId) (outcome : Outcome P)
  | resolve (reference target : SignalId)
  | reconcile (id : SignalId)
  | get (id : SignalId)

/-- What a graph says to a request. -/
inductive Answer (P : Type) where
  | created (id : SignalId)
  | written (result : Except SignalError Unit)
  | reconciled
  | value (outcome : Outcome P)

variable [Carrier P]

/-- Put a request to the graph. -/
def Request.run (r : Rules P F Φ σ) : Request P F Φ → Action P F Φ σ (Answer P)
  | create creation => return .created (← Signal.create fun g => creation.apply g)
  | set id outcome => return .written (← r.set id outcome)
  | resolve reference target => return .written (← Signal.resolve reference target)
  | reconcile id => do
      r.reconcile id
      return .reconciled
  | get id => return .value (← r.read id)

/-- Put requests to the graph, one after the other. -/
def runAll (r : Rules P F Φ σ) (requests : List (Request P F Φ)) :
    Action P F Φ σ (List (Answer P)) :=
  requests.mapM (Request.run r)

namespace Summing

/-- Numbers as payload: a list is its sum, and a failure counts as zero. -/
scoped instance : Carrier Nat where
  ofList ps := ps.foldr (· + ·) 0
  ofOutcome o := o.toOption.getD 0

end Summing

/-- Every creation from signals of the graph leaves it sound. -/
theorem Creation.sound {b : Behaviour P F Φ} {step : Nat} {g : Graph P F Φ} (hstable : b.Stable)
    (hb : b.Regular step) (h : Sound b g) {c : Creation P F Φ} (hsources : ∀ s ∈ c.sources, s < g.size)
    (hroom : ∀ source choice, c = .flatMap source choice →
      ∀ rank, (∀ j, rank j ≤ step * g.size) →
        b.room g rank source choice (step * (g.size + 1)))
    (hall : c.All b.good b.fine) : Sound b (c.apply g).2 := by
  obtain ⟨rank, hs⟩ := h.shaped
  rw [c.apply_eq]
  refine h.add hstable hb (c.fresh g) (c.upstream_lt hs.upstream_lt hsources) ?_ (hall.node hs.all)
  exact fun source choice hform => hroom source choice (Creation.eq_flatMap_of_form hform)

/-- A new signal without choices is made in a sound graph. -/
theorem Creation.run_sound {b : Behaviour P F Φ} {step : Nat} {w : World P F Φ σ}
    (hstable : b.Stable) (hb : b.Regular step) (h : Sound b w.graph) {c : Creation P F Φ}
    (hsources : ∀ s ∈ c.sources, s < w.graph.size)
    (hchoice : ∀ source choice, c ≠ .flatMap source choice) (hall : c.All b.good b.fine) :
    ∃ w', (create fun g => c.apply g : Action P F Φ σ SignalId) w = .ok (w.graph.size, w') ∧
      Sound b w'.graph ∧ w.graph.Evolves w'.graph ∧ w'.graph.size = w.graph.size + 1 ∧
      w'.graph.node w.graph.size = { form := c.form w.graph, memo := c.memo } := by
  refine ⟨w.put (c.apply w.graph).2, ?_, Creation.sound hstable hb h hsources
    (fun source choice heq => absurd heq (hchoice source choice)) hall, ?_, ?_, ?_⟩
  all_goals
    try rw [World.put_graph]
    rw [c.apply_eq]
  · show Except.ok ((c.apply w.graph).1, w.put (c.apply w.graph).2) = _
    rw [c.apply_eq]
    rfl
  · exact (Graph.grows_add (c.fresh w.graph)).evolves
  · exact Graph.size_add _ _
  · rw [Graph.node_add, if_pos rfl]

/-! ### Requests that keep a graph sound -/

/-- The request is for signals of the graph and makes no circle, and a write is not for a map that
    can be set.  What is given is good.  What a change concerns hears of it, and no flat map
    mistakes the target of a reference. -/
def Request.Allowed (b : Behaviour P F Φ) (step : Nat) (g : Graph P F Φ) : Request P F Φ → Prop
  | create creation => (∀ s ∈ creation.sources, s < g.size) ∧
      (∀ source choice, creation = .flatMap source choice → ∀ rank, (∀ j, rank j ≤ step * g.size) →
        b.room g rank source choice (step * (g.size + 1))) ∧ creation.All b.good b.fine
  | set id o => id < g.size ∧ Good b.good o ∧
      (∀ source steps inverse, (g.node (g.anchor id)).form ≠ .map source steps (.writable inverse)) ∧
      ((g.node (g.anchor id)).form = .cell → Attentive g (g.anchor id))
  | resolve r t => r < g.size ∧ t < g.size ∧ ((g.node r).form = .reference none →
      (∃ rank, (g.retold r (Node.resolved t)).Shaped b rank) ∧ Attentive g r ∧
        TellsApart g r t)
  | reconcile id => id < g.size
  | get id => id < g.size

section

variable {b : Behaviour P F Φ} {step : Nat} {codes : Codes P F Φ σ} {d : Nat}
  {w : World P F Φ σ}

theorem set_run (id : SignalId) (o : Outcome P) {result : Except SignalError Unit}
    {w' : World P F Φ σ} (h : setNode (.ofCodes codes d) id o w = .ok (result, w')) :
    (Request.set id o).run (.ofCodes codes (d + 1)) w = .ok (.written result, w') := by
  unfold Request.run
  exact bind_run h

omit [Carrier P] in
theorem get_run {r : Rules P F Φ σ} {id : SignalId} {w' : World P F Φ σ}
    (h : r.reconcile id w = .ok ((), w')) :
    (Request.get id).run r w = .ok (.value (w'.graph.value id), w') := by
  have hread : r.read id w = .ok (w'.graph.value id, w') := by
    unfold Rules.read
    exact bind_run h
  unfold Request.run
  exact bind_run hread

/-- A read of what is at rest changes nothing. -/
theorem get_run_of_atRest {id : SignalId} (hd : 0 < d)
    (h : w.graph.AtRest (w.graph.anchor id)) :
    (Request.get id).run (.ofCodes codes d) w = .ok (.value (w.graph.value id), w) := by
  obtain ⟨d, rfl⟩ : ∃ k, d = k + 1 := ⟨d - 1, by omega⟩
  exact get_run (reconcileNode_of_atRest h)

omit [Carrier P] in
theorem Graph.Evolves.refl (g : Graph P F Φ) : g.Evolves g :=
  ⟨Nat.le_refl _, fun _ _ => rfl, fun _ _ => rfl⟩

omit [Carrier P] in
theorem Graph.Evolves.trans {g g' g'' : Graph P F Φ} (h : g.Evolves g') (h' : g'.Evolves g'') :
    g.Evolves g'' := by
  refine ⟨h.size_le.trans h'.size_le, fun id hform => ?_, fun id hform => ?_⟩
  · have hsame := h.form_eq id hform
    exact (h'.form_eq id (hsame ▸ hform)).trans hsame
  · have hconstant : (g'.node id).form = .constant :=
      (h.form_eq id (by rw [hform]; simp)).trans hform
    exact (h'.constant_eq id hconstant).trans (h.constant_eq id hform)

theorem Graph.evolves_written {g : Graph P F Φ} (h : Sound b g) {c : SignalId}
    (hcell : (g.node c).form = .cell) (o : Outcome P) : g.Evolves (g.written c o) := by
  unfold Graph.written
  split
  · exact .refl g
  · obtain ⟨rank, hs⟩ := h.shaped
    exact Graph.evolves_retold hs (by rw [hcell]; simp) rfl
      (g.lt_size_of_form_ne (by rw [hcell]; simp))

/-- A request that is allowed succeeds, and leaves a later graph that is sound, where the
    operations bring signals up to date and write one by one. -/
theorem Request.run_sound_of {r : Rules P F Φ σ} (hstable : b.Stable) (hb : b.Regular step)
    (hr : Reconciles b r d) (hset : ∀ id o, ∃ below, r.set id o = setNode below id o)
    (h : Sound b w.graph) (hd : step * w.graph.size < d) {request : Request P F Φ}
    (hallowed : request.Allowed b step w.graph) :
    ∃ answer w', request.run r w = .ok (answer, w') ∧ Sound b w'.graph ∧
      w.graph.Evolves w'.graph := by
  cases request with
  | create creation =>
    obtain ⟨hsources, hroom, hall⟩ := hallowed
    refine ⟨_, w.put (creation.apply w.graph).2, rfl,
      Creation.sound hstable hb h hsources hroom hall, ?_⟩
    rw [World.put_graph, creation.apply_eq]
    exact (Graph.grows_add (creation.fresh w.graph)).evolves
  -- A write is refused, which changes nothing, unless it gets to a cell.
  | set id o =>
    obtain ⟨below, hset⟩ := hset id o
    obtain ⟨-, hgood, hreadOnly, hatt⟩ := hallowed
    have hrun := setNode_run (r := below) h id hreadOnly o
    rw [← hset] at hrun
    cases hform : (w.graph.node (w.graph.anchor id)).form with
    | cell =>
      rw [hform] at hrun
      exact ⟨_, _, bind_run hrun, h.write hstable hform (hatt hform) hgood,
        Graph.evolves_written h hform o⟩
    | reference target? =>
      cases target? <;> rw [hform] at hrun <;> exact ⟨_, _, bind_run hrun, h, .refl _⟩
    | _ =>
      rw [hform] at hrun
      exact ⟨_, _, bind_run hrun, h, .refl _⟩
  -- Only a reference that has no target takes one.
  | resolve r t =>
    obtain ⟨hr, ht, hresolves⟩ := hallowed
    have hrun := resolve_run w r t
    unfold Request.run
    cases hform : (w.graph.node r).form with
    | reference target? =>
      cases target? with
      | none =>
        rw [hform] at hrun
        obtain ⟨⟨rank, hshaped⟩, hatt, htells⟩ := hresolves hform
        obtain ⟨rank₀, hs⟩ := h.shaped
        exact ⟨_, _, bind_run hrun, h.resolve hstable hform hr ht hshaped hatt htells,
          Graph.evolves_resolved hs hform⟩
      | some target =>
        rw [hform] at hrun
        exact ⟨_, _, bind_run hrun, h, .refl _⟩
    | _ =>
      rw [hform] at hrun
      exact ⟨_, _, bind_run hrun, h, .refl _⟩
  | reconcile id =>
    obtain ⟨w', hrun, hsound, hframe, -⟩ := h.reconcile hstable hb hr hallowed hd
    exact ⟨_, _, bind_run hrun, hsound, hframe.evolves⟩
  | get id =>
    obtain ⟨w', hrun, hsound, hframe, -⟩ := h.reconcile hstable hb hr hallowed hd
    exact ⟨_, _, get_run hrun, hsound, hframe.evolves⟩

/-- The operations bring every signal of the graph up to date. -/
def Suffices (b : Behaviour P F Φ) (step : Nat) (r : Rules P F Φ σ) (g : Graph P F Φ) : Prop :=
  ∃ d, step * g.size < d ∧ Reconciles b r d

/-- What later requests lead to, each of which is allowed at its time and put to operations of one
    family that suffice for the signals there are. -/
inductive Requested (b : Behaviour P F Φ) (step : Nat) (r : Nat → Rules P F Φ σ)
    (w : World P F Φ σ) : World P F Φ σ → Prop
  | now : Requested b step r w w
  | next {w₁ w₂ : World P F Φ σ} {answer : Answer P} (request : Request P F Φ) (depth : Nat)
      (h : Requested b step r w w₁) (hallowed : request.Allowed b step w₁.graph)
      (hdepth : Suffices b step (r (depth + 1)) w₁.graph)
      (hrun : request.run (r (depth + 1)) w₁ = .ok (answer, w₂)) : Requested b step r w w₂

/-- Operations that write one by one keep a graph sound. -/
theorem Requested.sound {r : Nat → Rules P F Φ σ} {w' : World P F Φ σ} (hstable : b.Stable)
    (hb : b.Regular step) (hset : ∀ depth id o, (r (depth + 1)).set id o = setNode (r depth) id o)
    (h : Requested b step r w w') (hsound : Sound b w.graph) :
    Sound b w'.graph ∧ w.graph.Evolves w'.graph := by
  induction h with
  | now => exact ⟨hsound, .refl _⟩
  | next request depth _ hallowed hdepth hrun ih =>
    obtain ⟨d, hd, hr⟩ := hdepth
    obtain ⟨answer, w₂, hrun', hsound₂, hevolves⟩ := Request.run_sound_of hstable hb hr
      (fun id o => ⟨_, hset depth id o⟩) ih.1 hd hallowed
    rw [hrun] at hrun'
    cases hrun'
    exact ⟨hsound₂, ih.2.trans hevolves⟩

/-- A request that is allowed succeeds, and leaves the graph sound. -/
theorem Request.run_sound (laws : Laws b codes) (hb : b.Regular step)
    (h : Sound b w.graph) (hd : step * w.graph.size < d) {request : Request P F Φ}
    (hallowed : request.Allowed b step w.graph) :
    ∃ answer w', request.run (.ofCodes codes d) w = .ok (answer, w') ∧ Sound b w'.graph := by
  obtain ⟨d, rfl⟩ : ∃ k, d = k + 1 := ⟨d - 1, by omega⟩
  obtain ⟨answer, w', hrun, hsound, -⟩ := Request.run_sound_of laws.stable hb
    (reconciles_ofCodes laws (d + 1)) (fun _ _ => ⟨_, rfl⟩) h hd hallowed
  exact ⟨answer, w', hrun, hsound⟩

/-- What an allowed request leaves is sound. -/
theorem Request.sound_of_run (laws : Laws b codes) (hb : b.Regular step)
    (h : Sound b w.graph) (hd : step * w.graph.size < d) {request : Request P F Φ}
    (hallowed : request.Allowed b step w.graph)
    {answer : Answer P} {w' : World P F Φ σ}
    (hrun : request.run (.ofCodes codes d) w = .ok (answer, w')) : Sound b w'.graph := by
  obtain ⟨answer', w'', hrun', hsound⟩ := request.run_sound laws hb h hd hallowed
  rw [hrun] at hrun'
  cases hrun'
  exact hsound

end

end ReactiveDoc.Signal
