import ReactiveDoc.Proofs.Signal.Request

namespace ReactiveDoc.Signal

/-!
# Remembering changes nothing

A graph of constants, cells, maps, lifts, joins, labels and references answers every request as if
it remembered nothing and computed each outcome anew.

* `Graph.recompute` — the outcome of a signal, from what constants and cells hold.
* `Request.scratch` — the answer of a graph without memory.
* `value_eq_recompute` — what is up to date has the outcome that would be computed anew.
* `runAll_eq_scratchAll` — all answers are the same, in every order of requests.
-/

variable {P F Φ σ : Type}

/-! ### Computing anew -/

section

variable [Carrier P] (fn : F → P → Outcome P)

/-- The steps of a map, one after the other; the first failure stays. -/
def imageOf (steps : List F) (o : Outcome P) : Outcome P :=
  steps.foldl (fun o f => o.bind (fn f)) o

omit [Carrier P] in
theorem imageOf_error (steps : List F) (e : SignalError) :
    imageOf fn steps (.error e) = .error e := by
  unfold imageOf
  induction steps with
  | nil => rfl
  | cons f steps ih => exact ih

/-- The outcome of a signal computed from what constants and cells hold, over at most as many
    signals as given. -/
def Graph.recompute (g : Graph P F Φ) : Nat → SignalId → Outcome P
  | 0, _ => .error .unreconciled
  | depth + 1, id =>
      match (g.node id).form with
      | .constant | .cell => (g.node id).memo.read
      | .map source steps _ => imageOf fn steps (g.recompute depth source)
      | .lift source => .ok (Carrier.ofOutcome (g.recompute depth source))
      | .join sources => (sources.mapM (g.recompute depth)).map Carrier.ofList
      | .label _ source => g.recompute depth source
      | .reference (some source) => g.recompute depth source
      | .reference none => .error .unresolvedRef
      | .flatMap .. => .error .unreconciled

/-- Write what a cell holds. -/
def Graph.overwrite (g : Graph P F Φ) (id : SignalId) (o : Outcome P) :
    Except SignalError Unit × Graph P F Φ :=
  match (g.node (g.anchor id)).form with
  | .cell => (.ok (), g.modify (g.anchor id) fun n => { n with memo := .given o })
  | .reference none => (.error .unresolvedRef, g)
  | form => (.error (.readOnly form.kind), g)

/-- Give a reference a target. -/
def Graph.assign (g : Graph P F Φ) (r t : SignalId) : Except SignalError Unit × Graph P F Φ :=
  match (g.node r).form with
  | .reference none => (.ok (), g.modify r fun _ => Node.resolved t)
  | .reference (some _) => (.error .alreadyResolved, g)
  | _ => (.error .notAReference, g)

/-- The answer to a request of a graph that remembers nothing but what constants and cells hold. -/
def Request.scratch (g : Graph P F Φ) : Request P F Φ → Answer P × Graph P F Φ
  | create creation => (.created (creation.apply g).1, (creation.apply g).2)
  | set id o => (.written (g.overwrite id o).1, (g.overwrite id o).2)
  | resolve r t => (.written (g.assign r t).1, (g.assign r t).2)
  | reconcile _ => (.reconciled, g)
  | get id => (.value (g.recompute fn (g.size + 1) id), g)

/-- The answers to requests, one after the other. -/
def scratchAll (g : Graph P F Φ) : List (Request P F Φ) → List (Answer P)
  | [] => []
  | request :: rest => (request.scratch fn g).1 :: scratchAll (request.scratch fn g).2 rest

/-- The request is for signals of the graph and makes no circle.  It is not for a flat map, nor for
    a map that can be set. -/
def Request.Static (g : Graph P F Φ) : Request P F Φ → Prop
  | create creation => (∀ s ∈ creation.sources, s < g.size) ∧
      (∀ source choice, creation ≠ .flatMap source choice) ∧
      ∀ source f inverse, creation ≠ .mapWritable source f inverse
  | set id _ => id < g.size
  | resolve r t => r < g.size ∧ t < g.size ∧ ((g.node r).form = .reference none →
      ∃ rank, (g.modify r fun _ => Node.resolved t).Descends rank)
  | reconcile id => id < g.size
  | get id => id < g.size

/-- Every request is static at its time. -/
def AllStatic (g : Graph P F Φ) : List (Request P F Φ) → Prop
  | [] => True
  | request :: rest => request.Static g ∧ AllStatic (request.scratch fn g).2 rest

end

/-! ### What is up to date -/

/-- The functions of maps give what `fn` gives, and there are no flat maps. -/
def Behaviour.static (fn : F → P → Outcome P) : Behaviour P F Φ where
  good _ := True
  fine _ := True
  image f p o := o = fn f p
  chosen _ _ _ _ _ := False
  room _ _ _ _ _ := False
  adds := False
  apart := True

theorem Behaviour.static_stable (fn : F → P → Outcome P) :
    (Behaviour.static fn : Behaviour P F Φ).Stable where
  chosen _ h := h
  room _ _ h := h
  apart _ _ _ _ _ _ _ _ h := h.elim

theorem Behaviour.static_regular (fn : F → P → Outcome P) :
    (Behaviour.static fn : Behaviour P F Φ).Regular 1 where
  step_pos := Nat.one_pos
  room_compact _ h := h

theorem images_static {fn : F → P → Outcome P} {steps : List F} {o o' : Outcome P}
    (h : (Behaviour.static fn : Behaviour P F Φ).Images steps o o') :
    o' = imageOf fn steps o := by
  induction h with
  | nil o => rfl
  | failed _ ih => exact ih
  | step himage _ ih =>
    rw [ih, show _ = _ from himage]
    rfl

variable [Carrier P]

/-- Pure functions of maps keep to the behaviour. -/
theorem laws_static {fn : F → P → Outcome P} {codes : Codes P F Φ σ}
    (hpure : ∀ f p w, codes.apply f p w = .ok (fn f p, w)) :
    Laws (.static fn : Behaviour P F Φ) codes where
  stable := Behaviour.static_stable fn
  closed := ⟨fun _ _ => trivial, fun _ _ => trivial⟩
  apply_run f p w _ _ := ⟨fn f p, w, hpure f p w, rfl, rfl, fun _ _ => trivial⟩
  choose_run _ _ _ _ _ _ _ _ h := h.elim

theorem Near.eq [LawfulBEq P] {o o' : Outcome P} (h : Near o o') : o = o' := by
  rcases h with h | h
  · exact h
  · unfold Outcome.same at h
    cases o <;> cases o' <;> simp_all

/-- What is up to date has the outcome that would be computed anew. -/
theorem value_eq_recompute [LawfulBEq P] {fn : F → P → Outcome P} {g : Graph P F Φ}
    {rank : SignalId → Nat} (hs : g.Shaped (.static fn) rank) (hc : Coherent (.static fn) g)
    (depth : Nat) (id : SignalId) (hdepth : rank id < depth) (hup : g.UpToDate (g.anchor id)) :
    g.value id = g.recompute fn depth id := by
  induction depth generalizing id with
  | zero => exact absurd hdepth (Nat.not_lt_zero _)
  | succ depth ih =>
    -- A source of an up-to-date signal is up to date itself.
    have hsource : (g.node id).form.isDerived = true → ∀ s ∈ (g.node id).form.upstream,
        g.UpToDate (g.anchor s) ∧ g.value s = g.recompute fn depth s := by
      intro hd s hmem
      rw [Graph.anchor_of_isDerived hd] at hup
      have hs' := ((hc id).settled hd (hup hd)).upToDate s hmem
      have hrank := (hs.upstream id s hmem).2
      exact ⟨hs', ih s (by omega) hs'⟩
    have hanswers : (g.node id).form.isDerived = true →
        Behaviour.Answers (.static fn) g (g.node id) := by
      intro hd
      rw [Graph.anchor_of_isDerived hd] at hup
      have hset := (hc id).settled hd (hup hd)
      refine (hc id).answers hd hset.computed hset.seen_eq fun s hmem => ?_
      exact (hc _).isSome (Graph.target?_anchor hs.descends s) (hset.upToDate s hmem)
    have hvalue : (g.node id).form.target? = none → g.value id = (g.node id).memo.read := by
      intro htarget
      unfold Graph.value
      rw [Graph.anchor_of_target?_none htarget]
    have hthrough : ∀ t, (g.node id).form.target? = some t → g.value id = g.recompute fn depth t := by
      intro t htarget
      have hrank := (hs.upstream id t (Form.mem_upstream_of_target? htarget)).2
      have hanchor := Graph.anchor_of_target? hs.descends htarget
      rw [hanchor] at hup
      rw [← ih t (by omega) hup]
      unfold Graph.value
      rw [hanchor]
    unfold Graph.recompute
    cases hform : (g.node id).form with
    | constant => exact hvalue (by rw [hform]; rfl)
    | cell => exact hvalue (by rw [hform]; rfl)
    | map source steps role =>
      rw [hform] at hsource hanswers hvalue
      obtain ⟨-, hsourceValue⟩ := hsource rfl source (List.mem_singleton_self _)
      have ha := hanswers rfl
      unfold Behaviour.Answers at ha
      rw [hform] at ha
      obtain ⟨o, himages, hnear⟩ := ha
      rw [hvalue rfl, hnear.eq, images_static himages, hsourceValue]
    | lift source =>
      rw [hform] at hsource hanswers hvalue
      obtain ⟨-, hsourceValue⟩ := hsource rfl source (List.mem_singleton_self _)
      have ha := hanswers rfl
      unfold Behaviour.Answers at ha
      rw [hform] at ha
      rw [hvalue rfl, Near.eq ha, hsourceValue]
    | join sources =>
      rw [hform] at hsource hanswers hvalue
      have ha := hanswers rfl
      unfold Behaviour.Answers at ha
      rw [hform] at ha
      have hall : g.valueAll sources = sources.mapM (g.recompute fn depth) := by
        unfold Graph.valueAll
        exact Graph.mapM_congr fun s hmem => (hsource rfl s hmem).2
      rw [hvalue rfl, Near.eq ha, hall]
    | flatMap source choice => exact (hs.room id source choice hform).elim
    | label name source => exact hthrough source (by rw [hform]; rfl)
    | reference target? =>
      cases target? with
      | some target => exact hthrough target (by rw [hform]; rfl)
      | none =>
        rw [hvalue (by rw [hform]; rfl), (hc id).waiting hform]
        rfl

/-! ### With and without memory -/

/-- Two graphs have the same signals, of which none is a map that can be set, and constants and
    cells hold the same. -/
structure Mirrors (g h : Graph P F Φ) : Prop where
  size_eq : h.size = g.size
  form_eq : ∀ id, (h.node id).form = (g.node id).form
  readOnly : ∀ id source steps inverse, (h.node id).form ≠ .map source steps (.writable inverse)
  content_eq : ∀ id, (g.node id).form = .constant ∨ (g.node id).form = .cell →
    (h.node id).memo.read = (g.node id).memo.read

namespace Mirrors

variable {g h g' : Graph P F Φ}

omit [Carrier P] in
/-- Two empty graphs. -/
theorem empty : Mirrors ({} : Graph P F Φ) {} := by
  refine ⟨rfl, fun _ => rfl, fun id source steps inverse => ?_, fun _ _ => rfl⟩
  rw [Graph.node_of_size_le _ (Nat.zero_le _)]
  simp [Graph.unresolved]

omit [Carrier P] in
theorem anchor_eq (hm : Mirrors g h) (id : SignalId) : h.anchor id = g.anchor id :=
  Graph.anchor_congr hm.size_eq hm.form_eq id

omit [Carrier P] in
theorem readOnly_anchor (hm : Mirrors g h) (id : SignalId) (source : SignalId) (steps : List F)
    (inverse : F) : (g.node (g.anchor id)).form ≠ .map source steps (.writable inverse) := by
  rw [← hm.form_eq]
  exact hm.readOnly _ source steps inverse

/-- Computing anew asks for forms and for what constants and cells hold only. -/
theorem recompute_eq (fn : F → P → Outcome P) (hm : Mirrors g h) (depth : Nat) (id : SignalId) :
    h.recompute fn depth id = g.recompute fn depth id := by
  induction depth generalizing id with
  | zero => rfl
  | succ depth ih =>
    have hall : ∀ sources : List SignalId,
        sources.mapM (h.recompute fn depth) = sources.mapM (g.recompute fn depth) :=
      fun sources => Graph.mapM_congr fun s _ => ih s
    unfold Graph.recompute
    rw [hm.form_eq id]
    cases hform : (g.node id).form with
    | constant => exact hm.content_eq id (.inl hform)
    | cell => exact hm.content_eq id (.inr hform)
    | map source steps role => simp only [ih]
    | lift source => simp only [ih]
    | join sources => simp only [hall]
    | flatMap source choice => rfl
    | label name source => exact ih source
    | reference target? =>
      cases target? with
      | none => rfl
      | some target => exact ih target

omit [Carrier P] in
/-- A read changes nothing that the other graph knows. -/
theorem of_frame {T : SignalId → Prop} (hm : Mirrors g h) (hf : Frame T g g')
    (hsize : g'.size = g.size) : Mirrors g' h := by
  have hform : ∀ id, (g'.node id).form = (g.node id).form := by
    intro id
    by_cases hid : id < g.size
    · exact hf.form_eq id hid
    · rw [g'.node_of_size_le (by rw [hsize]; exact Nat.le_of_not_lt hid),
        g.node_of_size_le (Nat.le_of_not_lt hid)]
  refine ⟨by rw [hm.size_eq, hsize], fun id => by rw [hm.form_eq, hform], hm.readOnly, ?_⟩
  intro id hkind
  rw [hform id] at hkind
  have hid : id < g.size := by
    apply g.lt_size_of_form_ne
    rcases hkind with h | h <;> rw [h] <;> simp
  have hup : g.UpToDate id := by
    intro hd
    rcases hkind with h | h <;> rw [h] at hd <;> cases hd
  rw [hm.content_eq id hkind, hf.memo_eq id hid (.inr hup)]

omit [Carrier P] in
/-- Both graphs add the same signal. -/
theorem create (hm : Mirrors g h) (c : Creation P F Φ)
    (hreadOnly : ∀ source f inverse, c ≠ .mapWritable source f inverse) :
    (c.apply h).1 = (c.apply g).1 ∧ Mirrors (c.apply g).2 (c.apply h).2 := by
  have hform : c.form h = c.form g := by
    cases c with
    | mapFused source f => simp only [Creation.form, hm.form_eq]
    | _ => rfl
  rw [c.apply_eq, c.apply_eq, hform]
  refine ⟨hm.size_eq, ?_, ?_, ?_, ?_⟩
  · rw [Graph.size_add, Graph.size_add, hm.size_eq]
  · intro id
    rw [Graph.node_add, Graph.node_add, hm.size_eq]
    split
    · rfl
    · exact hm.form_eq id
  · intro id source steps inverse
    rw [Graph.node_add]
    split
    · exact Creation.form_ne_writable g hreadOnly source steps inverse
    · exact hm.readOnly id source steps inverse
  · intro id
    rw [Graph.node_add, Graph.node_add, hm.size_eq]
    split
    · exact fun _ => rfl
    · exact hm.content_eq id

end Mirrors

/-! ### Requests -/

section

variable {fn : F → P → Outcome P} {codes : Codes P F Φ σ} {d : Nat} {w : World P F Φ σ}
  {h : Graph P F Φ}

omit [Carrier P] in
/-- Without flat maps every signal hears of every change that concerns it. -/
theorem attentive_static {g : Graph P F Φ} {rank : SignalId → Nat}
    (hs : g.Shaped (.static fn) rank) (c : SignalId) : Attentive g c :=
  fun id source choice hform _ _ => (hs.room id source choice hform).elim

/-- After a write, the cell holds the outcome. -/
theorem Mirrors.write [LawfulBEq P] {g : Graph P F Φ} (hm : Mirrors g h) {c : SignalId}
    (hcell : (g.node c).form = .cell)
    (o : Outcome P) :
    Mirrors (g.written c o) (h.modify c fun n => { n with memo := .given o }) := by
  have hlt : c < g.size := g.lt_size_of_form_ne (by rw [hcell]; simp)
  have hlth : c < h.size := by rwa [hm.size_eq]
  have hread : ((g.node c).memo.store o).read = o := (Memo.near_store _ o).eq
  have hother : ∀ id, id ≠ c → (h.modify c fun n => { n with memo := .given o }).node id
      = h.node id := fun id hid => h.node_modify_of_ne _ hid
  have hself := h.node_modify_self (fun n => { n with memo := .given o }) hlth
  have hformh : ∀ id, ((h.modify c fun n => { n with memo := .given o }).node id).form
      = (g.node id).form := by
    intro id
    by_cases hid : id = c
    · rw [hid, hself, ← hm.form_eq]
    · rw [hother id hid, hm.form_eq]
  have hreadOnly : ∀ id source steps inverse,
      ((h.modify c fun n => { n with memo := .given o }).node id).form
        ≠ .map source steps (.writable inverse) := by
    intro id
    rw [hformh id, ← hm.form_eq id]
    exact hm.readOnly id
  -- An equal write is ignored, and the cell then reads as what was written all the same.
  unfold Graph.written
  split
  · rename_i hholds
    rw [Memo.store_of_holds hholds] at hread
    refine ⟨by rw [Graph.size_modify, hm.size_eq], hformh, hreadOnly, ?_⟩
    intro id hkind
    by_cases hid : id = c
    · rw [hid, hself, hread]
      rfl
    · rw [hother id hid]
      exact hm.content_eq id hkind
  · have hform : ∀ id, ((g.retold c { g.node c with memo := (g.node c).memo.store o }).node id).form
        = (g.node id).form := by
      intro id
      by_cases hid : id = c
      · rw [hid, Graph.form_retold_self _ hlt]
      · exact Graph.form_retold _ hid
    refine ⟨by rw [Graph.size_modify, Graph.size_retold, hm.size_eq],
      fun id => by rw [hformh, hform], hreadOnly, ?_⟩
    intro id hkind
    rw [hform] at hkind
    by_cases hid : id = c
    · rw [hid, hself]
      rcases Graph.node_retold_self { g.node c with memo := (g.node c).memo.store o } hlt with
        hn | hn <;> rw [hn] <;> exact hread.symm
    · rw [hother id hid, hm.content_eq id hkind]
      have hidlt : id < g.size := by
        apply g.lt_size_of_form_ne
        rcases hkind with hk | hk <;> rw [hk] <;> simp
      rcases g.node_retold_cases { g.node c with memo := (g.node c).memo.store o } hid hidlt with
        ⟨-, hn⟩ | ⟨-, hn⟩ <;> rw [hn]
      rfl

omit [Carrier P] in
/-- A reference that gets a target does so in both graphs. -/
theorem Mirrors.resolve {g : Graph P F Φ} (hm : Mirrors g h) {r t : SignalId} (hlt : r < g.size) :
    Mirrors (g.retold r (Node.resolved t)) (h.modify r fun _ => Node.resolved t) := by
  have hlth : r < h.size := by rwa [hm.size_eq]
  refine ⟨by rw [Graph.size_modify, Graph.size_retold, hm.size_eq], ?_, ?_, ?_⟩
  · intro id
    by_cases hid : id = r
    · rw [hid, h.node_modify_self _ hlth, Graph.form_resolved hlt]
      rfl
    · rw [h.node_modify_of_ne _ hid, Graph.form_retold _ hid, hm.form_eq]
  · intro id source steps inverse
    by_cases hid : id = r
    · rw [hid, h.node_modify_self _ hlth]
      simp [Node.resolved]
    · rw [h.node_modify_of_ne _ hid]
      exact hm.readOnly id source steps inverse
  · intro id hkind
    by_cases hid : id = r
    · rw [hid, Graph.form_resolved hlt] at hkind
      rcases hkind with hk | hk <;> cases hk
    · rw [Graph.form_retold _ hid] at hkind
      rw [h.node_modify_of_ne _ hid, hm.content_eq id hkind]
      have hidlt : id < g.size := by
        apply g.lt_size_of_form_ne
        rcases hkind with hk | hk <;> rw [hk] <;> simp
      rcases g.node_retold_cases (Node.resolved t) hid hidlt with ⟨-, hn⟩ | ⟨-, hn⟩ <;> rw [hn]
      rfl

omit [Carrier P] in
/-- A static request keeps the graph sound. -/
theorem Request.Static.allowed {g : Graph P F Φ} {rank : SignalId → Nat}
    (hs : g.Shaped (.static fn) rank) (hm : Mirrors g h) {request : Request P F Φ}
    (hstatic : request.Static h) : request.Allowed (.static fn) 1 g := by
  cases request with
  | create creation =>
    obtain ⟨hsources, hflat, -⟩ := hstatic
    rw [hm.size_eq] at hsources
    exact ⟨hsources, fun source choice hc => absurd hc (hflat source choice), creation.all_true⟩
  | set id o =>
    refine ⟨?_, fun _ _ => trivial, hm.readOnly_anchor id, fun _ => attentive_static hs _⟩
    rw [← hm.size_eq]
    exact hstatic
  | resolve r t =>
    obtain ⟨hr, ht, hacyclic⟩ := hstatic
    rw [hm.size_eq] at hr ht
    -- The ranks for the mirror are ranks for the graph; no signal follows another one.
    refine ⟨hr, ht, fun hform => ⟨?_, attentive_static hs r, ?_⟩⟩
    · obtain ⟨rank', hdescends⟩ := hacyclic (by rw [hm.form_eq, hform])
      refine ⟨rank', hs.resolved (Behaviour.static_stable fn) hform hr ht ?_ ?_ ?_⟩
      · intro id s hmem
        apply hdescends id s
        by_cases hid : id = r
        · rw [hid, g.node_modify_self _ hr] at hmem
          rwa [hid, h.node_modify_self _ (by rwa [hm.size_eq])]
        · rw [g.node_modify_of_ne _ hid] at hmem
          rwa [h.node_modify_of_ne _ hid, hm.form_eq]
      · intro id inner hi
        obtain ⟨⟨_, _, _, _, hch⟩, -⟩ := hs.inner id inner hi
        exact hch.elim
      · exact fun id source choice hf => (hs.room id source choice hf).elim
    · intro id inner hi
      obtain ⟨⟨_, _, _, _, hch⟩, -⟩ := hs.inner id inner hi
      exact hch.elim
  | reconcile id =>
    show id < g.size
    rw [← hm.size_eq]
    exact hstatic
  | get id =>
    show id < g.size
    rw [← hm.size_eq]
    exact hstatic

/-- A request is answered like by the graph without memory, and the graphs stay the same. -/
theorem Request.run_eq_scratch [LawfulBEq P] (hpure : ∀ f p w, codes.apply f p w = .ok (fn f p, w))
    (hsound : Sound (.static fn) w.graph) (hm : Mirrors w.graph h) (hd : w.graph.size < d)
    {request : Request P F Φ} (hstatic : request.Static h) :
    ∃ w', request.run (.ofCodes codes d) w = .ok ((request.scratch fn h).1, w') ∧
      Sound (.static fn) w'.graph ∧ Mirrors w'.graph (request.scratch fn h).2 ∧
      w'.graph.size ≤ w.graph.size + 1 := by
  have laws : Laws (.static fn : Behaviour P F Φ) codes := laws_static hpure
  have hregular : (Behaviour.static fn : Behaviour P F Φ).Regular 1 := Behaviour.static_regular fn
  rw [← Nat.one_mul w.graph.size] at hd
  obtain ⟨rank, hs⟩ := hsound.shaped
  -- It is left to say what the request does, and that both graphs still have the same signals.
  suffices hrun : ∃ w', request.run (.ofCodes codes d) w = .ok ((request.scratch fn h).1, w') ∧
      Mirrors w'.graph (request.scratch fn h).2 ∧ w'.graph.size ≤ w.graph.size + 1 by
    obtain ⟨w', hrun, hm', hsize⟩ := hrun
    exact ⟨w', hrun, request.sound_of_run laws hregular hsound hd (hstatic.allowed hs hm) hrun, hm',
      hsize⟩
  cases request with
  | create creation =>
    obtain ⟨hid, hmirrors⟩ := hm.create creation hstatic.2.2
    refine ⟨w.put (creation.apply w.graph).2, ?_, hmirrors, ?_⟩
    · simp only [scratch, hid]
      rfl
    · rw [World.put_graph, creation.apply_eq, Graph.size_add]
  | set id o =>
    obtain ⟨d, rfl⟩ : ∃ k, d = k + 1 := ⟨d - 1, by omega⟩
    have hrun := setNode_run (r := Rules.ofCodes codes d) hsound id
      (hm.readOnly_anchor id) o
    unfold Request.scratch Graph.overwrite
    simp only [hm.anchor_eq, hm.form_eq]
    cases hform : (w.graph.node (w.graph.anchor id)).form with
    | cell =>
      rw [hform] at hrun
      refine ⟨_, set_run id o hrun, hm.write hform o, ?_⟩
      show (w.graph.written _ o).size ≤ _
      unfold Graph.written
      split
      · exact Nat.le_succ _
      · rw [Graph.size_retold]
        exact Nat.le_succ _
    | reference target? =>
      cases target? <;> rw [hform] at hrun <;>
        exact ⟨w, set_run id o hrun, hm, Nat.le_succ _⟩
    | _ =>
      rw [hform] at hrun
      exact ⟨w, set_run id o hrun, hm, Nat.le_succ _⟩
  | resolve r t =>
    have hr : r < w.graph.size := hm.size_eq ▸ hstatic.1
    have hrun := resolve_run w r t
    have hresolve : ∀ result w', Signal.resolve r t w = .ok (result, w') →
        (Request.resolve r t).run (.ofCodes codes d) w = .ok (.written result, w') := by
      intro result w' h
      unfold Request.run
      exact bind_run h
    unfold Request.scratch Graph.assign
    simp only [hm.form_eq]
    cases hform : (w.graph.node r).form with
    | reference target? =>
      cases target? with
      | none =>
        rw [hform] at hrun
        refine ⟨_, hresolve _ _ hrun, hm.resolve hr, ?_⟩
        rw [World.put_graph, Graph.size_retold]
        exact Nat.le_succ _
      | some target =>
        rw [hform] at hrun
        exact ⟨w, hresolve _ _ hrun, hm, Nat.le_succ _⟩
    | _ =>
      rw [hform] at hrun
      exact ⟨w, hresolve _ _ hrun, hm, Nat.le_succ _⟩
  | reconcile id =>
    obtain ⟨w', hrun, -, hframe, hsize, -⟩ :=
      hsound.reconcile laws.stable hregular (reconciles_ofCodes laws d) (hstatic.allowed hs hm) hd
    have hsize := hsize fun h => h
    refine ⟨w', ?_, hm.of_frame hframe hsize, by rw [hsize]; exact Nat.le_succ _⟩
    unfold Request.run
    exact bind_run hrun
  | get id =>
    obtain ⟨w', hrun, hsound', hframe, hsize, hup⟩ :=
      hsound.reconcile laws.stable hregular (reconciles_ofCodes laws d) (hstatic.allowed hs hm) hd
    have hsize := hsize fun h => h
    have hm' := hm.of_frame hframe hsize
    refine ⟨w', ?_, hm', by rw [hsize]; exact Nat.le_succ _⟩
    obtain ⟨rank', hs', hle⟩ := hsound'.exists_rank hregular
    have hvalue : w'.graph.value id = h.recompute fn (h.size + 1) id := by
      rw [value_eq_recompute hs' hsound'.coherent (h.size + 1) id
        (by rw [hm'.size_eq, ← Nat.one_mul w'.graph.size]; exact Nat.lt_succ_of_le (hle id)) hup,
        hm'.recompute_eq]
    rw [get_run hrun, hvalue]
    rfl

end

/-- **Remembering changes nothing.**  From the empty graph, every list of requests is answered in
    full, and each answer is that of a graph which computes every outcome anew. -/
theorem runAll_eq_scratchAll [LawfulBEq P] {fn : F → P → Outcome P} {codes : Codes P F Φ σ}
    (hpure : ∀ f p w, codes.apply f p w = .ok (fn f p, w)) {requests : List (Request P F Φ)}
    (hstatic : AllStatic fn {} requests) {w : World P F Φ σ} (hempty : w.graph = {}) {depth : Nat}
    (hdepth : requests.length < depth) :
    ∃ w', runAll (.ofCodes codes depth) requests w = .ok (scratchAll fn {} requests, w') := by
  -- By induction on the requests, between a sound graph and the one without memory that mirrors it.
  have hgeneral : ∀ (requests : List (Request P F Φ)) (w : World P F Φ σ) (h : Graph P F Φ),
      Sound (.static fn) w.graph → Mirrors w.graph h → AllStatic fn h requests →
        w.graph.size + requests.length < depth →
          ∃ w', runAll (.ofCodes codes depth) requests w = .ok (scratchAll fn h requests, w') := by
    intro requests
    unfold runAll
    induction requests with
    | nil => exact fun w h _ _ _ _ => ⟨w, rfl⟩
    | cons request rest ih =>
      intro w h hsound hm hall hlength
      rw [List.length_cons] at hlength
      have hd : w.graph.size < depth := by omega
      obtain ⟨w₁, hrun₁, hsound₁, hm₁, hsize₁⟩ := request.run_eq_scratch hpure hsound hm hd hall.1
      obtain ⟨w', hrun⟩ := ih w₁ _ hsound₁ hm₁ hall.2 (by omega)
      refine ⟨w', ?_⟩
      rw [List.mapM_cons, bind_run hrun₁, bind_run hrun]
      rfl
  refine hgeneral requests w {} ?_ ?_ hstatic ?_
  · rw [hempty]
    exact sound_empty
  · rw [hempty]
    exact .empty
  · rw [hempty, show Graph.size ({} : Graph P F Φ) = 0 from rfl]
    omega

/-! ### A diamond over a late reference -/

section

open scoped Summing

/-- The predecessor of a number; zero has none. -/
def predecessor (_ : Unit) : Nat → Outcome Nat
  | 0 => .error (.failed "zero")
  | n + 1 => .ok n

/-- The successor of a number. -/
def successor (_ : Unit) (n : Nat) : Nat := n + 1

/-- Maps that take the predecessor. -/
def predecessors : Codes Nat Unit Unit Unit where
  apply f n := pure (predecessor f n)
  invert _ n := pure n
  choose _ _ := throw .endless

/-- A join that reads a cell twice by one map, and once through a reference by another. -/
def diamond : List (Request Nat Unit Unit) :=
  [.create (.cell (.ok 2)), .create .reference, .create (.map 0 () true), .create (.map 1 () true),
    .create (.join [2, 3, 2]), .create (.label 4 "sum"), .get 5, .resolve 1 0, .get 5,
    .set 1 (.ok 0), .get 5, .get 0]

theorem runAll_diamond :
    AllStatic predecessor {} diamond ∧
      ∃ w', runAll (.ofCodes predecessors 13) diamond ⟨{}, 0, ()⟩ = .ok ([.created 0, .created 1,
        .created 2, .created 3, .created 4, .created 5, .value (.error .unresolvedRef),
        .written (.ok ()), .value (.ok 3), .written (.ok ()), .value (.error (.failed "zero")),
        .value (.ok 0)], w') := by
  have hstatic : AllStatic predecessor {} diamond := by
    refine ⟨⟨by decide, by simp⟩, ⟨by decide, by simp⟩, ⟨by decide, by simp⟩, ⟨by decide, by simp⟩,
      ⟨by decide, by simp⟩, ⟨by decide, by simp⟩, ?_, ⟨?_, ?_, fun _ => ?_⟩, ?_, ?_, ?_, ?_, trivial⟩
    · show 5 < 6
      decide
    · show 1 < 6
      decide
    · show 0 < 6
      decide
    · refine ⟨fun id => if id = 1 then 1 else 2 * id, Graph.descends_of_forall_lt ?_⟩
      decide
    · show 5 < 6
      decide
    · show 1 < 6
      decide
    · show 5 < 6
      decide
    · show 0 < 6
      decide
  exact ⟨hstatic, runAll_eq_scratchAll (fun _ _ _ => rfl) hstatic rfl (by decide)⟩

end

end ReactiveDoc.Signal
