import Mathlib
import ReactiveDoc.Proofs.Eval.Composing
import ReactiveDoc.Proofs.Eval.Governing
import ReactiveDoc.Proofs.Eval.Undisturbed

namespace ReactiveDoc.Eval

/-!
# Lifting agrees with putting values together

* `Reflects` — an outcome is the one that is put together of the current outcomes of signals.
* `Lifts` — the three shapes in which a signal puts values together.
* `Lifts.reads` — in each of them the signal reflects its sources.
* `combine_lifts` — putting the values of nodes together makes a signal of one of these shapes.
* `combine_reads` — so at any later time it reads like the values put together.
-/

open Signal (Graph World Request Requested Near good_ok runAll)

variable {σ : Type} {host : Host σ} {k d : Nat} {l : Similarity}

/-- The graphs of evaluation. -/
abbrev ValueGraph := Graph Payload Step Choice

/-! ### Outcomes -/

/-- What a map is given for several signals: the list of what they carry, and for a single one what
    that carries. -/
def gathered : List Payload → Payload
  | [q] => q
  | qs => .list qs

/-- What fills a place is what the signal carries.  Unless this is `exact` it may be something else
    that is equal in contents. -/
def Supplies (exact : Prop) (q q' : Payload) : Prop :=
  q = q' ∨ ¬ exact ∧ (q.same q' = true ∨ q'.same q = true)

/-- The outcome is the first failure of the signals.  If none fails it is equal in contents to what
    is put together at any time, with what the signals carry in the places `slots` of the inputs. -/
def Reflects (host : Host σ) (k : Nat) (recipe : Recipe) (inputs : List Value) (slots : List Nat)
    (exact : Prop) (currents : List (Outcome Payload)) (o : Outcome Payload) : Prop :=
  match currents.mapM id with
  | .error e => o = .error e
  | .ok qs => ∃ qs', List.Forall₂ (Supplies exact) qs qs' ∧
      ∀ depth, k ≤ depth → ∀ w, ∃ result n,
        assemble (rules host depth) recipe (fill inputs slots (gathered qs').values) w =
          .ok (result, { w with identities := n }) ∧ Near o (settled result)

section

variable {recipe : Recipe} {inputs : List Value} {slots : List Nat} {exact : Prop}
  {o t : Outcome Payload}

/-- The last step of a signal puts values together now as it has done before. -/
theorem reflects_of_images {currents : List (Outcome Payload)} {qs qs' : List Payload}
    (hcurrents : currents.mapM id = .ok qs)
    (hslots : List.Forall₂ (Supplies exact) qs qs')
    (hpure : (Step.combine recipe inputs slots).Pure host k l)
    (hgood : l.like (gathered qs') (gathered qs'))
    (himages : (composed host k l).Images [.combine recipe inputs slots] (.ok (gathered qs')) t)
    (hnear : Near o t) : Reflects host k recipe inputs slots exact currents o := by
  obtain ⟨make, hcombines⟩ := hpure
  cases himages with
  | step hgives hnil =>
    cases hnil
    obtain ⟨i, rfl⟩ := hcombines.gives hgood hgives
    unfold Reflects
    rw [hcurrents]
    refine ⟨qs', hslots, fun depth hdepth w => ?_⟩
    obtain ⟨result, n, hrun, -, hmake⟩ := hcombines.run _ hgood depth hdepth w
    refine ⟨result, n, hrun, ?_⟩
    rw [hmake]
    exact Payload.near_trans hnear (hcombines.alike _ _ hgood i _).near

/-- A failure is passed on. -/
theorem reflects_of_error {currents : List (Outcome Payload)} {e : SignalError} {steps : List Step}
    (hcurrents : currents.mapM id = .error e)
    (himages : (composed host k l).Images steps (.error e) t) (hnear : Near o t) :
    Reflects host k recipe inputs slots exact currents o := by
  have hfailed : t = .error e := by
    clear hnear
    induction steps with
    | nil =>
      cases himages
      rfl
    | cons step steps ih =>
      cases himages with
      | failed h => exact ih h
  unfold Reflects
  rw [hcurrents]
  exact (hfailed ▸ hnear).eq_error

end

/-- The outcomes of signals, or the first failure, are those of the list of their outcomes. -/
theorem valueAll_eq (g : ValueGraph) (sources : List SignalId) :
    g.valueAll sources = (sources.map g.value).mapM id := by
  unfold Graph.valueAll
  induction sources with
  | nil => rfl
  | cons s sources ih =>
    rw [List.map_cons, List.mapM_cons, List.mapM_cons, ih]
    rfl

/-- A list that holds several things is what a map is given for them. -/
theorem gathered_of_le {qs : List Payload} (h : 2 ≤ qs.length) : gathered qs = .list qs := by
  match qs, h with
  | _ :: _ :: _, _ => rfl

/-! ### Shapes -/

/-- The signal carries out a step on what the sources carry: it maps its only source, is fused with
    it, or maps the join of several.  Only the first is exact. -/
inductive Lifts (g : ValueGraph) (step : Step) (exact : Prop) : List SignalId → SignalId → Prop
  | map {source lifted : SignalId} {uniform : Bool}
      (hform : (g.node lifted).form = .map source [step] (.readOnly uniform)) :
      Lifts g step exact [source] lifted
  | fused {source origin lifted : SignalId} {steps : List Step} {uniform uniform' : Bool}
      (hinexact : ¬ exact)
      (hsource : (g.node source).form = .map origin steps (.readOnly uniform))
      (hcombine : ∀ s ∈ steps, s.isCombine = true)
      (hform : (g.node lifted).form = .map origin (steps ++ [step]) (.readOnly uniform')) :
      Lifts g step exact [source] lifted
  | joined {joined lifted first second : SignalId} {rest : List SignalId} {uniform : Bool}
      (hinexact : ¬ exact)
      (hjoin : (g.node joined).form = .join (first :: second :: rest))
      (hform : (g.node lifted).form = .map joined [step] (.readOnly uniform)) :
      Lifts g step exact (first :: second :: rest) lifted

namespace Lifts

variable {g g' : ValueGraph} {step : Step} {exact : Prop} {sources : List SignalId}
  {lifted : SignalId}

theorem evolve (h : Lifts g step exact sources lifted) (hev : g.Evolves g') :
    Lifts g' step exact sources lifted := by
  have hkeep {j : SignalId} {form : Signal.Form Step Choice} (hj : (g.node j).form = form)
      (hne : form ≠ .reference none) : (g'.node j).form = form :=
    (hev.form_eq j (hj ▸ hne)).trans hj
  cases h with
  | map hform => exact .map (hkeep hform (by simp))
  | fused hinexact hsource hcombine hform =>
    exact .fused hinexact (hkeep hsource (by simp)) hcombine (hkeep hform (by simp))
  | joined hinexact hjoin hform =>
    exact .joined hinexact (hkeep hjoin (by simp)) (hkeep hform (by simp))

theorem isDerived (h : Lifts g step exact sources lifted) :
    (g.node lifted).form.isDerived = true := by
  cases h with
  | map hform => rw [hform]; rfl
  | fused _ _ _ hform => rw [hform]; rfl
  | joined _ _ hform => rw [hform]; rfl

variable {recipe : Recipe} {inputs : List Value} {slots : List Nat}

/-- A signal that is up to date, with sources that are, reflects them. -/
theorem reads (h : Lifts g (.combine recipe inputs slots) exact sources lifted)
    (hsound : Signal.Sound (composed host k l) g) (hup : g.UpToDate lifted)
    (hups : ∀ s ∈ sources, g.UpToDate (g.anchor s)) :
    Reflects host k recipe inputs slots exact (sources.map g.value) (g.value lifted) := by
  obtain ⟨rank, hs⟩ := hsound.shaped
  have hread {j : SignalId} (hj : (g.node j).form.isDerived = true) :
      g.value j = (g.node j).memo.read := by
    unfold Graph.value
    rw [Graph.anchor_of_isDerived hj]
  have hpure {j source : SignalId} {steps : List Step} {uniform : Bool}
      (hj : (g.node j).form = .map source steps (.readOnly uniform)) {step : Step}
      (hstep : step ∈ steps) : step.Pure host k l := (hs.all j).steps _ _ _ hj step hstep
  -- A map that is up to date has made its outcome from that of its source.
  have himages {j source : SignalId} {steps : List Step} {uniform : Bool}
      (hj : (g.node j).form = .map source steps (.readOnly uniform)) (hup : g.UpToDate j) :
      ∃ t, (composed host k l).Images steps (g.value source) t ∧ Near (g.value j) t := by
    have hd : (g.node j).form.isDerived = true := by rw [hj]; rfl
    have hanswers := (hsound.answers hd hup).1
    unfold Signal.Behaviour.Answers at hanswers
    rw [hj] at hanswers
    rwa [hread hd]
  cases h with
  | @map source lifted uniform hform =>
    obtain ⟨t, himage, hnear⟩ := himages hform hup
    cases hv : g.value source with
    | error e =>
      rw [hv] at himage
      exact reflects_of_error (by rw [List.map_singleton, hv]; rfl) himage hnear
    | ok q =>
      rw [hv] at himage
      exact reflects_of_images (by rw [List.map_singleton, hv]; rfl)
        (.cons (.inl rfl) .nil) (hpure hform (List.mem_singleton_self _))
        (hs.all.value source q hv) himage hnear
  | @fused source origin lifted steps uniform uniform' hinexact hsource hcombine hform =>
    obtain ⟨t, himage, hnear⟩ := himages hform hup
    -- The steps that are fused lead to something else than the source has, but not another content.
    obtain ⟨t₁, hsteps, hlast⟩ := himage.append_inv
    have hsourceUp : g.UpToDate source := by
      have hup := hups source (List.mem_singleton_self _)
      rwa [Graph.anchor_of_isDerived (by rw [hsource]; rfl)] at hup
    obtain ⟨t₂, hsteps', hnear'⟩ := himages hsource hsourceUp
    have horigin : l.Alike (g.value origin) (g.value origin) :=
      Similarity.alike_of_good (hs.all.value origin)
    have halike : l.Alike t₂ t₁ := images_alike (fun s hmem => hpure hsource hmem) hcombine hsteps'
      hsteps horigin horigin horigin
    have hgood : l.Alike t₁ t₁ := images_alike (fun s hmem => hpure hsource hmem) hcombine hsteps
      hsteps horigin horigin horigin
    cases halike with
    | error e =>
      have hv : g.value source = .error e := hnear'.eq_error
      exact reflects_of_error (by rw [List.map_singleton, hv]; rfl) hlast hnear
    | @ok q₂ q₁ hlike =>
      obtain ⟨q, hv, hq⟩ := hnear'.exists_ok
      have hsame : q.same q₁ = true := by
        rcases hq with rfl | hq
        · exact l.same hlike
        · exact Payload.same_trans hq (l.same hlike)
      cases hgood with
      | ok hgood =>
        exact reflects_of_images (by rw [List.map_singleton, hv]; rfl)
          (.cons (.inr ⟨hinexact, .inl hsame⟩) .nil)
          (hpure hform (List.mem_append_right _ (List.mem_singleton_self _))) hgood hlast hnear
  | @joined joined lifted first second rest uniform hinexact hjoin hform =>
    obtain ⟨t, himage, hnear⟩ := himages hform hup
    have hjoinDerived : (g.node joined).form.isDerived = true := by rw [hjoin]; rfl
    have hjoinUp : g.UpToDate joined := by
      have hd : (g.node lifted).form.isDerived = true := by rw [hform]; rfl
      have hup := (hsound.answers hd hup).2 joined (by rw [hform]; exact List.mem_singleton_self _)
      rwa [Graph.anchor_of_isDerived hjoinDerived] at hup
    have hanswers := (hsound.answers hjoinDerived hjoinUp).1
    unfold Signal.Behaviour.Answers at hanswers
    rw [hjoin] at hanswers
    simp only at hanswers
    rw [← hread hjoinDerived, valueAll_eq] at hanswers
    cases hcurrents : ((first :: second :: rest).map g.value).mapM id with
    | error e =>
      rw [hcurrents] at hanswers
      rw [hanswers.eq_error] at himage
      exact reflects_of_error hcurrents himage hnear
    | ok qs =>
      rw [hcurrents] at hanswers
      -- The join may hold an older list with the same contents.
      obtain ⟨q, hv, hq⟩ := hanswers.exists_ok
      obtain ⟨qs', rfl, hqs⟩ := Payload.exists_list hq
      have hqs : List.Forall₂ (Supplies exact) qs qs' :=
        hqs.imp fun _ _ h => h.imp Eq.symm fun h => ⟨hinexact, .inr h⟩
      have hlength : 2 ≤ qs'.length := by
        rw [← hqs.length_eq, ← length_of_mapM_ok hcurrents]
        simp
      have hlist : gathered qs' = .list qs' := gathered_of_le hlength
      rw [hv] at himage
      refine reflects_of_images hcurrents hqs (hpure hform (List.mem_singleton_self _)) ?_
        (by rw [hlist]; exact himage) hnear
      rw [hlist]
      exact hs.all.value joined _ hv

end Lifts

/-! ### Operators -/

theorem same_binary (op : BinaryOp) (a b : Value) :
    (a.binary op b).same (a.binary op b) = true := by
  cases op with
  | add =>
    show (a.add b).same (a.add b) = true
    unfold Value.add
    split <;> simp [Value.same]
  | _ => simp [Value.binary, Value.same]

/-- What equals itself in contents is similar to itself only. -/
def Similarity.exactly : Similarity where
  like p q := p = q ∧ p.same p = true
  same := by
    rintro p q ⟨rfl, h⟩
    exact h
  list {ps} h := by
    refine ⟨rfl, ?_⟩
    rw [Payload.same]
    induction ps with
    | nil => rfl
    | cons p ps ih =>
      rw [Payload.sameItems, (h p List.mem_cons_self).2, Bool.true_and]
      exact ih fun q hq => h q (List.mem_cons_of_mem p hq)
  attempt {o} h := by
    refine ⟨rfl, ?_⟩
    cases o with
    | ok p =>
      rw [Payload.same]
      exact (h p rfl).2
    | error e => simp [Payload.same]

/-- The operators with two operands are pure at any depth. -/
theorem combines_binary (host : Host σ) (op : BinaryOp) (inputs : List Value) (slots : List Nat) :
    Combines host 0 .exactly (.binary op) inputs slots fun _ q =>
      let values := fill inputs slots q.values
      .ok (.plain ((values.getD 0 .undefined).binary op (values.getD 1 .undefined))) where
  run q _ depth _ w := by
    refine ⟨_, w.identities, rfl, fun id h => ?_, ?_⟩
    · exact plain_binary op _ _ id (Except.ok.inj h)
    · rfl
  alike := by
    rintro q _ ⟨rfl, -⟩ _ _
    exact .ok ⟨rfl, by rw [Payload.same]; exact same_binary op _ _⟩

/-! ### Making signals -/

/-- If the source is a map that a new one is fused with, its steps put values together. -/
def FusesCombines (g : ValueGraph) (source : SignalId) : Prop :=
  ∀ origin steps, (g.node source).form = .map origin steps (.readOnly true) →
    ∀ step ∈ steps, step.isCombine = true

/-- A map that may be fused carries out its step on what the source carries. -/
theorem Lifts.of_mapFused {g g' : ValueGraph} {step : Step} {exact : Prop}
    {source lifted : SignalId} (hev : g.Evolves g') (hsource : FusesCombines g source)
    (hinexact : ¬ exact) (hform : (g'.node lifted).form =
      (Signal.Creation.mapFused source step : Signal.Creation Payload _ _).form g) :
    Lifts g' step exact [source] lifted := by
  simp only [Signal.Creation.form] at hform
  split at hform
  · rename_i origin steps hmap
    have hmap' := (hev.form_eq source (by rw [hmap]; simp)).trans hmap
    exact .fused hinexact hmap' (hsource origin steps hmap) hform
  · exact .map hform

section

variable {w w₁ : World Payload Step Choice σ}

/-- A new signal without choices leaves a graph of pure functions sound. -/
theorem create_run (hsound : Signal.Sound (composed host k l) w.graph)
    {c : Signal.Creation Payload Step Choice} (hsources : ∀ s ∈ c.sources, s < w.graph.size)
    (hchoice : ∀ source choice, c ≠ .flatMap source choice)
    (hall : c.All (fun q => l.like q q) (Step.Pure host k l)) :
    ∃ w', (Signal.create fun g => c.apply g : SignalM σ SignalId) w = .ok (w.graph.size, w') ∧
      Signal.Sound (composed host k l) w'.graph ∧ w.graph.Evolves w'.graph ∧
      w'.graph.size = w.graph.size + 1 ∧ (w'.graph.node w.graph.size).form = c.form w.graph := by
  obtain ⟨w', hrun, hsound', hevolves, hsize, hnode⟩ := Signal.Creation.run_sound composed_stable
    composed_regular hsound hsources hchoice hall
  exact ⟨w', hrun, hsound', hevolves, hsize, congrArg Signal.Node.form hnode⟩

theorem lift_run {α : Type} {x : SignalM σ α} {a : α} (h : x w = .ok (a, w₁)) :
    (lift x : EvalM σ α) w = .ok (.ok a, w₁) := by
  show (Except.ok <$> x : SignalM σ (Except EvalError α)) w = _
  rw [map_eq_pure_bind, Signal.bind_run h]
  rfl

variable {r : Rules σ} {p : Program} {nodes : List NodeId} {env : ValueEnv} {recipe : Recipe}
  {values : List Value}

/-- The step that puts the values of nodes together. -/
def combination (p : Program) (nodes : List NodeId) (recipe : Recipe) (values : List Value) :
    Step :=
  .combine recipe values ((dynamicSlots p nodes values).map Prod.fst)

/-- If one of the values changes over time, a signal is made that puts them together. -/
theorem combine_lifts
    (hvalues : (nodes.mapM fun node => r.evaluate p node env) w = .ok (.ok values, w₁))
    (hsound : Signal.Sound (composed host k l) w₁.graph)
    (hpure : (combination p nodes recipe values).Pure host k l)
    (hknown : ∀ slot ∈ dynamicSlots p nodes values, slot.2 < w₁.graph.size)
    (hfuse : p.options.fuseMaps = true →
      ∀ slot ∈ dynamicSlots p nodes values, FusesCombines w₁.graph slot.2)
    (hsome : dynamicSlots p nodes values ≠ []) :
    ∃ lifted w₂, combine r p nodes env recipe w = .ok (.ok (.signal lifted), w₂) ∧
      Signal.Sound (composed host k l) w₂.graph ∧ w₁.graph.Evolves w₂.graph ∧
      lifted < w₂.graph.size ∧
      Lifts w₂.graph (combination p nodes recipe values)
        (p.options.fuseMaps = false ∧ (dynamicSlots p nodes values).length = 1)
        ((dynamicSlots p nodes values).map Prod.snd) lifted := by
  have hstart : combine r p nodes env recipe w = _ := bind_run_ok hvalues
  rw [hstart]
  unfold combination at hpure ⊢
  generalize hslots : dynamicSlots p nodes values = slots at *
  -- One input is mapped, fused or not; several are joined first.
  match slots, hsome with
  | [(slot, source)], _ =>
    have hsource : source < w₁.graph.size := hknown _ (List.mem_singleton_self _)
    simp only [List.map_cons, List.map_nil] at hpure ⊢
    by_cases hf : p.options.fuseMaps = true
    · rw [if_pos hf]
      obtain ⟨w₂, hrun, hsound₂, hevolves, hsize, hform⟩ := create_run hsound
        (c := .mapFused source (.combine recipe values [slot]))
        (List.forall_mem_singleton.mpr hsource) nofun hpure
      refine ⟨w₁.graph.size, w₂, bind_run_ok (lift_run hrun), hsound₂, hevolves,
        hsize ▸ Nat.lt_succ_self _, ?_⟩
      exact .of_mapFused hevolves (hfuse hf _ (List.mem_singleton_self _)) (by simp [hf]) hform
    · rw [if_neg hf]
      obtain ⟨w₂, hrun, hsound₂, hevolves, hsize, hform⟩ := create_run hsound
        (c := .map source (.combine recipe values [slot]) true)
        (List.forall_mem_singleton.mpr hsource) nofun hpure
      exact ⟨w₁.graph.size, w₂, bind_run_ok (lift_run hrun), hsound₂, hevolves,
        hsize ▸ Nat.lt_succ_self _, .map hform⟩
  | (slot, first) :: (slot', second) :: rest, _ =>
    have hsources : ∀ s ∈ first :: second :: rest.map Prod.snd, s < w₁.graph.size := by
      intro s hs
      obtain ⟨slot, hmem, rfl⟩ := List.mem_map.mp
        (show s ∈ ((slot, first) :: (slot', second) :: rest).map Prod.snd from hs)
      exact hknown slot hmem
    simp only [List.map_cons] at hpure ⊢
    obtain ⟨w₂, hrun, hsound₂, hevolves, hsize, hform⟩ := create_run hsound
      (c := .join (first :: second :: rest.map Prod.snd)) hsources nofun trivial
    obtain ⟨w₃, hrun', hsound₃, hevolves', hsize', hform'⟩ := create_run hsound₂
      (c := .map w₁.graph.size (.combine recipe values (slot :: slot' :: rest.map Prod.fst)) false)
      (List.forall_mem_singleton.mpr (hsize ▸ Nat.lt_succ_self _)) nofun hpure
    have hjoin := (hevolves'.form_eq _ (by rw [hform]; simp [Signal.Creation.form])).trans hform
    refine ⟨w₂.graph.size, w₃, ?_, hsound₃, hevolves.trans hevolves',
      hsize' ▸ Nat.lt_succ_self _, .joined (fun h => ?_) hjoin hform'⟩
    · exact (bind_run_ok (lift_run hrun)).trans (bind_run_ok (lift_run hrun'))
    · simp at h

/-- If none of the values of the nodes changes over time, they are put together.  Otherwise they
    are in a signal, and whenever this is read later, the signals among the values reflect in what
    is read. -/
theorem combine_reads
    (hvalues : (nodes.mapM fun node => r.evaluate p node env) w = .ok (.ok values, w₁))
    (hsound : Signal.Sound (composed host k l) w₁.graph)
    (hpure : (combination p nodes recipe values).Pure host k l)
    (hknown : ∀ slot ∈ dynamicSlots p nodes values, slot.2 < w₁.graph.size)
    (hfuse : p.options.fuseMaps = true →
      ∀ slot ∈ dynamicSlots p nodes values, FusesCombines w₁.graph slot.2) :
    let slots := dynamicSlots p nodes values
    (slots = [] → combine r p nodes env recipe w = assemble r recipe values w₁) ∧
    (slots ≠ [] → ∃ lifted w₂, combine r p nodes env recipe w = .ok (.ok (.signal lifted), w₂) ∧
      Signal.Sound (composed host k l) w₂.graph ∧
      ∀ w₃, Requested (composed host k l) 1 (fun depth => (rules host depth).toRules) w₂ w₃ →
        ∀ d, w₃.graph.size < d → ∃ o w₄ currents w₅,
        (rules host (k + d)).toRules.read lifted w₃ = .ok (o, w₄) ∧
        (slots.map Prod.snd).mapM (rules host (k + d)).toRules.read w₄ = .ok (currents, w₅) ∧
        Reflects host k recipe values (slots.map Prod.fst)
          (p.options.fuseMaps = false ∧ slots.length = 1) currents o) := by
  intro slots
  refine ⟨fun hnone => ?_, fun hsome => ?_⟩
  · have hstart : combine r p nodes env recipe w = _ := bind_run_ok hvalues
    rw [hstart, show dynamicSlots p nodes values = [] from hnone]
    rfl
  · obtain ⟨lifted, w₂, hrun, hsound₂, hevolves, hlt, hlifts⟩ :=
      combine_lifts hvalues hsound hpure hknown hfuse hsome
    refine ⟨lifted, w₂, hrun, hsound₂, fun w₃ hlater d hd => ?_⟩
    obtain ⟨hsound₃, hevolves₃⟩ := requested_sound hlater hsound₂
    have hreconciles : Signal.Reconciles (composed host k l) (rules host (k + d)).toRules d :=
      reconciles_rules d
    -- The signal is read first, then those among the values; nothing disturbs it.
    obtain ⟨w₄, hread, hsound₄, hframe₄, hsize₄, hup⟩ := hsound₃.read composed_stable
      composed_regular hreconciles (by rwa [Nat.one_mul]) (hlt.trans_le hevolves₃.size_le)
    have hsize₄ := hsize₄ id
    have hsources : ∀ s ∈ slots.map Prod.snd, s < w₄.graph.size := by
      intro s hs
      obtain ⟨slot, hmem, rfl⟩ := List.mem_map.mp hs
      rw [hsize₄]
      exact (hknown slot hmem).trans_le (hevolves.size_le.trans hevolves₃.size_le)
    obtain ⟨w₅, hreads, hsound₅, hframe₅, hups⟩ := hsound₄.readAll composed_stable
      composed_regular hreconciles (by rwa [Nat.one_mul, hsize₄]) id _ hsources
    obtain ⟨rank, hs₄⟩ := hsound₄.shaped
    have hlt₄ : lifted < w₄.graph.size := hsize₄ ▸ hlt.trans_le hevolves₃.size_le
    have hlifts₅ := hlifts.evolve (hevolves₃.trans (hframe₄.evolves.trans hframe₅.evolves))
    have hup₅ := hframe₅.upToDate_anchor hs₄ hlt₄ hup
    rw [Graph.anchor_of_isDerived hlifts₅.isDerived] at hup₅
    refine ⟨_, w₄, _, w₅, hread, hreads, ?_⟩
    rw [← hframe₅.value_eq hs₄ hlt₄ hup]
    exact hlifts₅.reads hsound₅ hup₅ hups

end

/-! ### A text that is joined to itself -/

/-- A world with cells. -/
def cellWorld (values : List Value) : World Payload Step Choice Unit :=
  ⟨values.foldl (fun g v => (g.cell (.ok (.plain v))).2) {}, 0, ()⟩

/-- The name `x` twice. -/
def doubled : Program where
  tree := ⟨#[⟨default, .identifier "x"⟩, ⟨default, .identifier "x"⟩]⟩
  interfaces := ⟨#[some (.ok { ty := .string, dynamic := true }),
    some (.ok { ty := .string, dynamic := true })]⟩

/-- No flat map has lost touch where there is none. -/
theorem attentive_composed {g : ValueGraph} (h : Signal.Sound (composed host k l) g)
    (c : SignalId) : Signal.Attentive g c := by
  obtain ⟨rank, hs⟩ := h.shaped
  exact fun id source choice hform => (hs.room id source choice hform).elim

/-- The cell is written after its text was joined to itself. -/
theorem combine_reads_doubled : ∃ w₂ w₃ o w₄ currents w₅,
    combine (rules bareHost 3) doubled [0, 1] ⟨[("x", .signal 0)]⟩ (.binary .add)
      (cellWorld [.string "a"]) = .ok (.ok (.signal 2), w₂) ∧
    (Request.set 0 (.ok (.plain (.string "b")))).run (rules bareHost (0 + 9)).toRules w₂ =
      .ok (.written (.ok ()), w₃) ∧
    (rules bareHost (0 + 9)).toRules.read 2 w₃ = .ok (o, w₄) ∧
    [0, 0].mapM (rules bareHost (0 + 9)).toRules.read w₄ = .ok (currents, w₅) ∧
    Reflects bareHost 0 (.binary .add) [.signal 0, .signal 0] [0, 1]
      (doubled.options.fuseMaps = false ∧ 2 = 1) currents o := by
  have hcell : Signal.Sound (composed bareHost 0 .exactly) (cellWorld [.string "a"]).graph :=
    Signal.Creation.sound composed_stable composed_regular Signal.sound_empty (c := .cell _) nofun
      nofun (good_ok ⟨rfl, rfl⟩)
  have hvalues : ([0, 1].mapM fun node => (rules bareHost 3).evaluate doubled node
      ⟨[("x", .signal 0)]⟩) (cellWorld [.string "a"]) =
        .ok (.ok [.signal 0, .signal 0], cellWorld [.string "a"]) := rfl
  have hslots : ∀ slot ∈ dynamicSlots doubled [0, 1] [.signal 0, .signal 0], slot.2 = 0 := by
    decide
  obtain ⟨-, hsome⟩ := combine_reads hvalues hcell
    ⟨_, combines_binary bareHost .add [.signal 0, .signal 0] [0, 1]⟩ (by decide)
    fun _ slot hmem origin steps hform => by
      rw [hslots slot hmem] at hform
      cases hform
  obtain ⟨lifted, w₂, hrun, hsound, hlater⟩ := hsome (by decide)
  obtain ⟨w₂', w₃, hrun', hset, hsize, hform, hsize'⟩ : ∃ w₂ w₃,
      combine (rules bareHost 3) doubled [0, 1] ⟨[("x", .signal 0)]⟩ (.binary .add)
        (cellWorld [.string "a"]) = .ok (.ok (.signal 2), w₂) ∧
      (Request.set 0 (.ok (.plain (.string "b")))).run (rules bareHost (0 + 9)).toRules w₂ =
        .ok (.written (.ok ()), w₃) ∧
      w₂.graph.size = 3 ∧ (w₂.graph.node (w₂.graph.anchor 0)).form = .cell ∧ w₃.graph.size = 3 :=
    ⟨_, _, rfl, rfl, rfl, rfl, by with_unfolding_all rfl⟩
  obtain ⟨rfl, rfl⟩ : lifted = 2 ∧ w₂ = w₂' := by
    rw [hrun'] at hrun
    cases hrun
    exact ⟨rfl, rfl⟩
  have hlate : Requested (composed bareHost 0 .exactly) 1
      (fun depth => (rules bareHost depth).toRules) w₂ w₃ := by
    have hknown : 0 < w₂.graph.size := by omega
    have hdepth : w₂.graph.size < 9 := by omega
    refine .next (.set 0 (.ok (.plain (.string "b")))) 8 .now ⟨hknown, good_ok ⟨rfl, rfl⟩,
      fun _ _ _ hmap => ?_, fun _ => attentive_composed hsound _⟩ (suffices_rules hdepth) hset
    rw [hform] at hmap
    cases hmap
  obtain ⟨o, w₄, currents, w₅, hread, hreads, hreflects⟩ := hlater w₃ hlate 9 (by omega)
  exact ⟨w₂, w₃, o, w₄, currents, w₅, hrun', hset, hread, hreads, hreflects⟩

/-! ### Results that stay behind -/

/-- A member of an object by a key that changes over time. -/
def lookedUp : Program where
  tree := ⟨#[⟨default, .identifier "m"⟩, ⟨default, .identifier "k"⟩]⟩
  interfaces := ⟨#[some (.ok (.fixed .unknown)), some (.ok { ty := .string, dynamic := true })]⟩

/-- Two arrays that change over time. -/
def compared : Program where
  tree := ⟨#[⟨default, .identifier "s"⟩, ⟨default, .identifier "t"⟩]⟩
  interfaces := ⟨#[some (.ok { ty := .array .string, dynamic := true }),
    some (.ok { ty := .array .string, dynamic := true })]⟩

/-- A signal that is looked up is not followed.  A join that comes to an array of equal contents
    keeps the one it has, which is not identical to the other. -/
theorem combine_outdated :
    (∃ w₁ w₂ w₃, combine (rules bareHost 3) lookedUp [0, 1]
        ⟨[("m", .object 0 [("x", .signal 0)]), ("k", .signal 1)]⟩ .index
        (cellWorld [.string "old", .string "x"]) = .ok (.ok (.signal 2), w₁) ∧
      runAll (rules bareHost 9).toRules
        [.get 2, .set 0 (.ok (.plain (.string "new"))), .get 2, .get 1] w₁ =
          .ok ([.value (.ok (.plain (.string "old"))), .written (.ok ()),
            .value (.ok (.plain (.string "old"))), .value (.ok (.plain (.string "x")))], w₂) ∧
      applyStep (rules bareHost 9) (.combine .index [.object 0 [("x", .signal 0)], .signal 1] [1])
        (.plain (.string "x")) w₂ = .ok (.ok (.plain (.string "new")), w₃)) ∧
    ∃ w₁ w₂ w₃, combine (rules bareHost 3) compared [0, 1]
        ⟨[("s", .signal 0), ("t", .signal 1)]⟩ (.binary .strictEq)
        (cellWorld [.array 1 [], .array 2 []]) = .ok (.ok (.signal 3), w₁) ∧
      runAll (rules bareHost 9).toRules [.get 3, .set 0 (.ok (.plain .null)),
          .set 0 (.ok (.plain (.array 2 []))), .get 3, .get 0, .get 1] w₁ =
        .ok ([.value (.ok (.plain (.boolean false))), .written (.ok ()), .written (.ok ()),
          .value (.ok (.plain (.boolean false))), .value (.ok (.plain (.array 2 []))),
          .value (.ok (.plain (.array 2 [])))], w₂) ∧
      applyStep (rules bareHost 9) (.combine (.binary .strictEq) [.signal 0, .signal 1] [0, 1])
        (.list [.plain (.array 2 []), .plain (.array 2 [])]) w₂ =
          .ok (.ok (.plain (.boolean true)), w₃) :=
  ⟨⟨_, _, _, show _ = Except.ok (_, _) by cbv, show _ = Except.ok (_, _) by cbv,
    show _ = Except.ok (_, _) by cbv⟩, _, _, _, show _ = Except.ok (_, _) by cbv,
    show _ = Except.ok (_, _) by cbv, show _ = Except.ok (_, _) by cbv⟩

end ReactiveDoc.Eval
