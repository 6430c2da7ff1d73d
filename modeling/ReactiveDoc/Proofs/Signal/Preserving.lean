import ReactiveDoc.Proofs.Signal.Tiers

namespace ReactiveDoc.Signal

/-!
# Signals keep to their tiers

* `Preserves` — completed runs keep a graph obedient.  They may add signals, but no signal changes
  its tier.
* `Rules.Tame` — the operations on the signals below do so.
* `Rules.Tame.reconcileNode`, `Rules.Tame.setNode` — then so do those on the signals above.
-/

variable {P F Φ σ α β : Type} [Carrier P]

/-! ### Completed runs -/

/-- Every completed run from an obedient graph ends in an obedient graph, which may have more
    signals, and with a result that satisfies the postcondition there. -/
def Preserves (D : Discipline P F Φ) (s : Stage) (x : Action P F Φ σ α)
    (Q : Stage → α → Prop) : Prop :=
  ∀ ⦃w a w'⦄, w.graph.Obeys D s → x w = .ok (a, w') →
    ∃ s', s.Grows s' ∧ w'.graph.Obeys D s' ∧ Q s' a

section

variable {D : Discipline P F Φ} {s : Stage} {Q : Stage → α → Prop} {R : Stage → β → Prop}
  {x : Action P F Φ σ α}

theorem preserves_pure {a : α} (h : Q s a) : Preserves D s (pure a : Action P F Φ σ α) Q := by
  intro w a' w' hobeys hrun
  cases hrun
  exact ⟨s, .refl s, hobeys, h⟩

theorem preserves_throw (e : Fault) : Preserves D s (throw e : Action P F Φ σ α) Q := by
  intro w a w' _ hrun
  cases hrun

/-- The second run starts at a later stage than the first one. -/
theorem Preserves.bind {f : α → Action P F Φ σ β} (h : Preserves D s x Q)
    (hf : ∀ s', s.Grows s' → ∀ a, Q s' a → Preserves D s' (f a) R) : Preserves D s (x >>= f) R := by
  intro w b w' hobeys hrun
  cases hx : x w with
  | error e =>
    have hfail : (x >>= f) w = .error e := by
      show StateT.bind x f w = _
      unfold StateT.bind
      rw [hx]
      rfl
    rw [hfail] at hrun
    cases hrun
  | ok first =>
    obtain ⟨a, w₁⟩ := first
    rw [bind_run hx] at hrun
    obtain ⟨s₁, hs₁, hobeys₁, ha⟩ := h hobeys hx
    obtain ⟨s₂, hs₂, hobeys₂, hb⟩ := hf s₁ hs₁ a ha hobeys₁ hrun
    exact ⟨s₂, hs₁.trans hs₂, hobeys₂, hb⟩

theorem Preserves.mono {Q' : Stage → α → Prop} (h : Preserves D s x Q)
    (hQ : ∀ s', s.Grows s' → ∀ a, Q s' a → Q' s' a) : Preserves D s x Q' := by
  intro w a w' hobeys hrun
  obtain ⟨s', hs, hobeys', ha⟩ := h hobeys hrun
  exact ⟨s', hs, hobeys', hQ s' hs a ha⟩

/-- A run followed by one that gives a pure result. -/
theorem Preserves.map {f : α → β} (h : Preserves D s x Q)
    (hf : ∀ s', s.Grows s' → ∀ a, Q s' a → R s' (f a)) : Preserves D s (f <$> x) R := by
  rw [map_eq_pure_bind]
  exact h.bind fun s' hs a ha => preserves_pure (hf s' hs a ha)

theorem preserves_graph :
    Preserves D s (graph : Action P F Φ σ (Graph P F Φ)) fun s' g => s' = s ∧ g.Obeys D s := by
  intro w g w' hobeys hrun
  cases hrun
  exact ⟨s, .refl s, hobeys, rfl, hobeys⟩

/-- A run that goes on with the graph as it is. -/
theorem Preserves.graph_bind {f : Graph P F Φ → Action P F Φ σ β}
    (hf : ∀ g, g.Obeys D s → Preserves D s (f g) R) : Preserves D s (graph >>= f) R := by
  refine preserves_graph.bind ?_
  rintro _ _ g ⟨rfl, hg⟩
  exact hf g hg

theorem preserves_update {f : Graph P F Φ → Graph P F Φ} (h : ∀ g, g.Obeys D s → (f g).Obeys D s) :
    Preserves D s (update f : Action P F Φ σ Unit) fun s' _ => s' = s := by
  intro w a w' hobeys hrun
  cases hrun
  exact ⟨s, .refl s, h _ hobeys, rfl⟩

theorem preserves_newIdentities (n : Nat) :
    Preserves D s (newIdentities n : Action P F Φ σ Nat) fun _ _ => True := by
  intro w a w' hobeys hrun
  cases hrun
  exact ⟨s, .refl s, hobeys, trivial⟩

/-- A run for each of several things, with a result for each. -/
theorem Preserves.mapM {S : Stage → α → β → Prop} {f : α → Action P F Φ σ β} {as : List α}
    (hS : ∀ s s' a b, s.Grows s' → S s a b → S s' a b)
    (h : ∀ s', s.Grows s' → ∀ a ∈ as, Preserves D s' (f a) fun s'' => S s'' a) :
    Preserves D s (as.mapM f) fun s' => List.Forall₂ (S s') as := by
  induction as generalizing s with
  | nil => exact preserves_pure .nil
  | cons a as ih =>
    rw [List.mapM_cons]
    refine (h s (.refl s) a List.mem_cons_self).bind fun s₁ hs₁ b hb => ?_
    have hrest := ih (s := s₁) fun s' hs' a' ha' =>
      h s' (hs₁.trans hs') a' (List.mem_cons_of_mem _ ha')
    exact hrest.bind fun s₂ hs₂ bs hbs => preserves_pure (.cons (hS _ _ _ _ hs₂ hb) hbs)

end

/-! ### Changes of one signal -/

section

variable {D : Discipline P F Φ} {s : Stage} {t : Tier}

theorem preserves_register (id source : SignalId) :
    Preserves D s (register id source : Action P F Φ σ Unit) fun s' _ => s' = s :=
  preserves_update fun _ h => h.depend source _

theorem preserves_remember (id : SignalId) (versions : List Nat) :
    Preserves D s (remember id versions : Action P F Φ σ Unit) fun s' _ => s' = s :=
  preserves_update fun _ h => h.modify_same id (fun _ => rfl) (fun _ => rfl) fun _ => rfl

theorem preserves_clean (id : SignalId) :
    Preserves D s (clean id : Action P F Φ σ Unit) fun s' _ => s' = s :=
  preserves_update fun _ h => h.modify_same id (fun _ => rfl) (fun _ => rfl) fun _ => rfl

theorem preserves_store {id : SignalId} (hid : s[id]? = some (some t)) {o : Outcome P}
    (ho : D.Allows s t o) :
    Preserves D s (store id o : Action P F Φ σ Unit) fun s' _ => s' = s := by
  refine preserves_update fun g hg => hg.modify id (fun _ => rfl) fun t' ht' n hn => ?_
  rw [hid] at ht'
  cases ht'
  exact hn.store ho

theorem preserves_follow {id : SignalId} (hid : s[id]? = some (some t)) {inner? : Option Inner}
    (hinner : ∀ inner, inner? = some inner → s.Readable t inner.signal) :
    Preserves D s (follow id inner? : Action P F Φ σ Unit) fun s' _ => s' = s := by
  refine preserves_update fun g hg => hg.modify id (fun _ => rfl) fun t' ht' n hn => ?_
  rw [hid] at ht'
  cases ht'
  exact hn.follow hinner

theorem preserves_isStale (id : SignalId) (versions : List Nat) :
    Preserves D s (isStale id versions : Action P F Φ σ Bool) fun s' _ => s' = s := by
  unfold isStale
  exact Preserves.graph_bind fun _ _ => preserves_pure rfl

/-- A new signal may be used as far as its tier says. -/
theorem preserves_create {c : Creation P F Φ} (hc : c.Obeys D s t) :
    Preserves D s (create fun g => c.apply g : Action P F Φ σ SignalId)
      fun s' id => s'.Readable t id := by
  intro w id w' hobeys hrun
  cases hrun
  refine ⟨s ++ [some t], s.grows_append t, hobeys.create hc, ?_⟩
  have hnew : (c.apply w.graph).1 = s.length := by
    rw [c.apply_eq w.graph, hobeys.size]
    rfl
  show (s ++ [some t]).Readable t (c.apply w.graph).1
  rw [hnew]
  exact Stage.readable_own List.getElem?_concat_length

/-- After a change that leaves the stage as it is. -/
theorem Preserves.then {x : Action P F Φ σ α} {k : α → Action P F Φ σ β} {R : Stage → β → Prop}
    (h : Preserves D s x fun s' _ => s' = s) (hk : ∀ a, Preserves D s (k a) R) :
    Preserves D s (x >>= k) R := by
  refine h.bind ?_
  rintro _ _ a rfl
  exact hk a

end

/-! ### Operations on signals -/

/-- The operations on the signals below keep to tiers, if they are given what their tiers allow. -/
structure Rules.Tame (D : Discipline P F Φ) (r : Rules P F Φ σ) : Prop where
  reconcile : ∀ s t id, s.Readable t id → Preserves D s (r.reconcile id) fun _ _ => True
  set : ∀ s id o, s.Readable .ready id → D.Allows s .ready o →
    Preserves D s (r.set id o) fun _ result => ∀ e, result = .error e → D.failure e
  apply : ∀ s t f p, D.step s t f → D.payload s t p →
    Preserves D s (r.apply f p) fun s' => D.Allows s' t
  invert : ∀ s t f p, D.payload s t p → Preserves D s (r.invert f p) fun s' => D.payload s' t
  choose : ∀ s t c p, D.choice s t c → D.payload s t p →
    Preserves D s (r.choose c p) fun s' => s'.Readable t

variable {D : Discipline P F Φ}

/-- Where no recursion is left nothing completes. -/
theorem Rules.tame_exhausted : (Rules.exhausted : Rules P F Φ σ).Tame D where
  reconcile _ _ _ _ := preserves_throw _
  set _ _ _ _ _ := preserves_throw _
  apply _ _ _ _ _ _ := preserves_throw _
  invert _ _ _ _ _ := preserves_throw _
  choose _ _ _ _ _ _ := preserves_throw _

namespace Rules.Tame

variable {r : Rules P F Φ σ} {s : Stage} {own t : Tier}

/-- A step is applied to an outcome, not to a failure. -/
theorem applyStep (h : r.Tame D) {f : F} (hf : D.step s t f) {o : Outcome P}
    (ho : D.Allows s t o) :
    Preserves D s
      (match o with
        | .ok p => r.apply f p
        | .error e => pure (.error e)) fun s' => D.Allows s' t := by
  cases o with
  | ok p => exact h.apply s t f p hf ho
  | error e => exact preserves_pure ho

/-- The steps are applied in order, each to what the one before it gave. -/
theorem applySteps (h : r.Tame D) {steps : List F} (hsteps : D.Chain s own steps t)
    {o : Outcome P} (ho : D.Allows s own o) :
    Preserves D s (applySteps r steps o) fun s' => D.Allows s' t := by
  induction steps generalizing s own o with
  | nil =>
    cases hsteps with
    | nil hown => exact preserves_pure (ho.mono hown)
  | cons f fs ih =>
    cases hsteps with
    | @cons _ mid _ _ _ hown hf hfs =>
      unfold Signal.applySteps
      rw [List.foldlM_cons]
      refine (h.applyStep hf (ho.mono hown)).bind fun s₁ hs₁ o₁ ho₁ => ?_
      exact ih (hfs.later hs₁.before) ho₁

theorem reconcileSources (h : r.Tame D) (id : SignalId) {sources : List SignalId}
    (hsources : ∀ source ∈ sources, s.Readable t source) :
    Preserves D s (reconcileSources r id sources) fun _ _ => True := by
  unfold Signal.reconcileSources
  refine (Preserves.mapM (S := fun _ _ _ => True) (fun _ _ _ _ _ h => h)
    fun s' hs' source hsource => ?_).mono fun _ _ _ _ => trivial
  refine (h.reconcile s' t source ((hsources source hsource).later hs')).bind
    fun _ _ _ _ => ?_
  refine (preserves_register id source).then fun _ => ?_
  exact Preserves.graph_bind fun _ _ => preserves_pure trivial

theorem leave {id : SignalId} (hid : s[id]? = some (some t)) :
    Preserves D s (leave id : Action P F Φ σ Unit) fun s' _ => s' = s := by
  unfold Signal.leave
  refine Preserves.graph_bind fun g _ => ?_
  cases (g.node id).inner? with
  | none => exact preserves_pure rfl
  | some inner =>
    have hfollow : Preserves D s (follow id none : Action P F Φ σ Unit) fun s' _ => s' = s :=
      preserves_follow hid nofun
    refine hfollow.then fun _ => ?_
    exact preserves_update fun _ hg => hg.undepend inner.signal _

/-- A failure of the source is one of the flat map. -/
theorem turn (h : r.Tame D) {id source : SignalId} {choice : Φ} (hid : s[id]? = some (some t))
    (hsource : s.Readable t source) (hchoice : D.choice s t choice) :
    Preserves D s (turn r id source choice) fun s' o? => ∀ o, o? = some o → D.Allows s' t o := by
  unfold Signal.turn
  refine (leave hid).then fun _ => ?_
  refine Preserves.graph_bind fun g hg => ?_
  have hvalue := hg.value hsource
  cases hv : g.value source with
  | error e =>
    rw [hv] at hvalue
    refine preserves_pure ?_
    rintro _ ⟨⟩
    exact hvalue
  | ok p =>
    rw [hv] at hvalue
    refine (h.choose s t choice p hchoice hvalue).bind fun s₁ hs₁ inner hinner => ?_
    have hfollow : Preserves D s₁ (follow id (some ⟨inner, 0⟩) : Action P F Φ σ Unit)
        fun s' _ => s' = s₁ := by
      refine preserves_follow (hs₁.getElem? hid) ?_
      rintro _ ⟨⟩
      exact hinner
    exact hfollow.then fun _ => preserves_pure nofun

theorem reconcileInner (h : r.Tame D) {id : SignalId} (hid : s[id]? = some (some t)) :
    Preserves D s (reconcileInner r id)
      fun s' o? => ∀ o, o? = some o → D.Allows s' t o := by
  unfold Signal.reconcileInner
  refine Preserves.graph_bind fun g hg => ?_
  cases hinner : (g.node id).inner? with
  | none => exact preserves_pure nofun
  | some inner =>
    have hreadable := (hg.node id t hid).inner inner hinner
    refine (h.reconcile s t inner.signal hreadable).bind fun s₁ hs₁ _ _ => ?_
    have hreadable₁ := hreadable.later hs₁
    refine (preserves_register id inner.signal).then fun _ => ?_
    refine Preserves.graph_bind fun g₁ hg₁ => ?_
    simp only
    split
    · have hfollow (seen : Nat) : Preserves D s₁
          (follow id (some ⟨inner.signal, seen⟩) : Action P F Φ σ Unit) fun s' _ => s' = s₁ := by
        refine preserves_follow (hs₁.getElem? hid) ?_
        rintro _ ⟨⟩
        exact hreadable₁
      refine (hfollow _).then fun _ => preserves_pure ?_
      rintro _ ⟨⟩
      exact hg₁.value hreadable₁
    · exact preserves_pure nofun

theorem read (h : r.Tame D) {id : SignalId} (hid : s.Readable t id) :
    Preserves D s (r.read id) fun s' => D.Allows s' t := by
  unfold Rules.read
  refine (h.reconcile s t id hid).bind fun s₁ hs₁ _ _ => ?_
  exact Preserves.graph_bind fun g hg => preserves_pure (hg.value (hid.later hs₁))

theorem reconcileImage (h : r.Tame D) {id source : SignalId} (hid : s[id]? = some (some t))
    (hsource : s.Readable own source) {compute : Outcome P → Action P F Φ σ (Outcome P)}
    (hcompute : ∀ s', s.Grows s' → ∀ o, D.Allows s' own o →
      Preserves D s' (compute o) fun s'' => D.Allows s'' t) :
    Preserves D s (reconcileImage r id source compute) fun _ _ => True := by
  unfold Signal.reconcileImage
  refine (h.reconcile s own source hsource).bind fun s₁ hs₁ _ _ => ?_
  have hdone {s' : Stage} : Preserves D s' (clean id : Action P F Φ σ Unit) fun _ _ => True :=
    (preserves_clean id).mono fun _ _ _ _ => trivial
  refine (preserves_register id source).then fun _ => ?_
  refine Preserves.graph_bind fun g _ => ?_
  refine (preserves_isStale id _).then fun stale => ?_
  cases stale with
  | false => exact hdone
  | true =>
    refine (preserves_remember id _).then fun _ => ?_
    refine Preserves.graph_bind fun g₁ hg₁ => ?_
    refine (hcompute s₁ hs₁ _ (hg₁.value (hsource.later hs₁))).bind fun s₂ hs₂ o ho => ?_
    exact (preserves_store ((hs₁.trans hs₂).getElem? hid) ho).then fun _ => hdone

theorem reconcileJoin (h : r.Tame D) {id : SignalId} {sources : List SignalId}
    (hid : s[id]? = some (some t)) (hsources : ∀ source ∈ sources, s.Readable t source) :
    Preserves D s (reconcileJoin r id sources) fun _ _ => True := by
  unfold Signal.reconcileJoin
  refine (h.reconcileSources id hsources).bind fun s₁ hs₁ versions _ => ?_
  have hdone : Preserves D s₁ (clean id : Action P F Φ σ Unit) fun _ _ => True :=
    (preserves_clean id).mono fun _ _ _ _ => trivial
  refine (preserves_isStale id versions).then fun stale => ?_
  cases stale with
  | false => exact hdone
  | true =>
    refine (preserves_remember id _).then fun _ => ?_
    refine Preserves.graph_bind fun g hg => ?_
    have hvalues := hg.ofList fun source hsource => (hsources source hsource).later hs₁
    exact (preserves_store (hs₁.getElem? hid) hvalues).then fun _ => hdone

theorem conclude {id : SignalId} (hid : s[id]? = some (some t)) {o? : Option (Outcome P)}
    (ho : ∀ o, o? = some o → D.Allows s t o) :
    Preserves D s (conclude id o? : Action P F Φ σ Unit) fun _ _ => True := by
  have hdone : Preserves D s (clean id : Action P F Φ σ Unit) fun _ _ => True :=
    (preserves_clean id).mono fun _ _ _ _ => trivial
  unfold Signal.conclude
  cases o? with
  | none => exact hdone
  | some o => exact (preserves_store hid (ho o rfl)).then fun _ => hdone

theorem reconcileChoice (h : r.Tame D) {id source : SignalId} {choice : Φ}
    (hid : s[id]? = some (some t)) (hsource : s.Readable t source) (hchoice : D.choice s t choice) :
    Preserves D s (reconcileChoice r id source choice) fun _ _ => True := by
  unfold Signal.reconcileChoice
  refine (h.reconcile s t source hsource).bind fun s₁ hs₁ _ _ => ?_
  refine (preserves_register id source).then fun _ => ?_
  refine Preserves.graph_bind fun g _ => ?_
  refine (preserves_isStale id _).then fun stale => ?_
  have hid₁ := hs₁.getElem? hid
  -- Both outcomes that may be remembered are allowed: the new one and the failure of the source.
  have hrest : ∀ s₂, s₁.Grows s₂ → ∀ failure : Option (Outcome P),
      (∀ o, failure = some o → D.Allows s₂ t o) → Preserves D s₂ (do
        let new ← Signal.reconcileInner r id
        Signal.conclude id (new.or failure)) fun _ _ => True := by
    intro s₂ hs₂ failure hfailure
    have hid₂ := hs₂.getElem? hid₁
    refine (h.reconcileInner hid₂).bind fun s₃ hs₃ new hnew => ?_
    refine conclude (hs₃.getElem? hid₂) fun o ho => ?_
    cases new with
    | none => exact (hfailure o ho).later hs₃.before
    | some o' => exact hnew o ho
  cases stale with
  | false => exact hrest s₁ (.refl s₁) none fun o ho => nomatch ho
  | true =>
    refine (preserves_remember id _).then fun _ => ?_
    exact (h.turn hid₁ (hsource.later hs₁)
      (D.choice_mono hs₁.before hchoice)).bind hrest

/-- One level more keeps to tiers. -/
theorem reconcileNode (h : r.Tame D) {id : SignalId} (hid : s.Readable t id) :
    Preserves D s (reconcileNode r id) fun _ _ => True := by
  unfold Signal.reconcileNode
  refine Preserves.graph_bind fun g hg => ?_
  obtain ⟨own, hanchor, -⟩ := hg.anchor hid
  have hnode := hg.node _ own hanchor
  simp only
  split
  · cases hform : (g.node (g.anchor id)).form with
    | map source steps role =>
      obtain ⟨first, hsource, hchain⟩ := hnode.steps source steps role hform
      exact h.reconcileImage hanchor hsource fun s' hs' o ho =>
        h.applySteps (hchain.later hs'.before) ho
    | lift source =>
      have hsource := hnode.upstream source (by rw [hform]; exact List.mem_singleton_self _)
      exact h.reconcileImage hanchor hsource fun _ _ o _ => preserves_pure (D.ofOutcome o)
    | flatMap source choice =>
      have hsource := hnode.upstream source (by rw [hform]; exact List.mem_singleton_self _)
      exact h.reconcileChoice hanchor hsource (hnode.choice source choice hform)
    | join sources =>
      refine h.reconcileJoin hanchor fun source hsource => hnode.upstream source ?_
      rw [hform]
      exact hsource
    | label name source => exact preserves_throw _
    | reference target? => exact preserves_throw _
    | constant => exact preserves_pure trivial
    | cell => exact preserves_pure trivial
  · exact preserves_pure trivial

/-! ### Writing -/

theorem setCell {id : SignalId} (hid : s[id]? = some (some t)) {o : Outcome P}
    (ho : D.Allows s t o) :
    Preserves D s (setCell id o : Action P F Φ σ Unit) fun s' _ => s' = s := by
  unfold Signal.setCell
  refine preserves_update fun g hg => ?_
  split
  · exact hg
  · have hstored : (g.modify id fun n => { n with memo := n.memo.store o }).Obeys D s := by
      refine hg.modify id (fun _ => rfl) fun t' ht' n hn => ?_
      rw [hid] at ht'
      cases ht'
      exact hn.store ho
    exact hstored.notify id

theorem settleWritten {id source : SignalId} (hid : s[id]? = some (some t)) {o : Outcome P}
    (ho : D.Allows s t o) :
    Preserves D s (settleWritten id source o : Action P F Φ σ Unit) fun s' _ => s' = s := by
  unfold Signal.settleWritten
  refine Preserves.graph_bind fun g _ => ?_
  refine (preserves_store hid ho).then fun _ => ?_
  refine (preserves_clean id).then fun _ => ?_
  refine Preserves.graph_bind fun g' _ => ?_
  refine (preserves_remember id _).then fun _ => ?_
  refine (preserves_register id source).then fun _ => ?_
  split
  · exact preserves_update fun _ hg => hg.notify id
  · exact preserves_pure rfl

/-- The source of a map is written before the map. -/
theorem setThrough (h : r.Tame D) {id source : SignalId} (hid : s[id]? = some (some .ready))
    (hsource : s.Readable .ready source) {o written : Outcome P} (ho : D.Allows s .ready o)
    (hwritten : D.Allows s .ready written) :
    Preserves D s ((do
      match ← r.set source written with
      | .error e => pure (.error e)
      | .ok () =>
          r.reconcile source
          Signal.settleWritten id source o
          pure (.ok ())) : Action P F Φ σ (Except SignalError Unit))
      fun _ result => ∀ e, result = .error e → D.failure e := by
  refine (h.set s source written hsource hwritten).bind fun s₁ hs₁ result hresult => ?_
  cases result with
  | error e => exact preserves_pure fun e' he => by cases he; exact hresult e rfl
  | ok _ =>
    refine (h.reconcile s₁ .ready source (hsource.later hs₁)).bind fun s₂ hs₂ _ _ => ?_
    have hs := hs₁.trans hs₂
    refine (settleWritten (hs.getElem? hid) (ho.later hs.before)).then fun _ => ?_
    exact preserves_pure fun _ h => by cases h

theorem setWritable (h : r.Tame D) {id source : SignalId} (inverse : F)
    (hid : s[id]? = some (some .ready)) (hsource : s.Readable .ready source) {o : Outcome P}
    (ho : D.Allows s .ready o) :
    Preserves D s (setWritable r id source inverse o)
      fun _ result => ∀ e, result = .error e → D.failure e := by
  unfold Signal.setWritable
  cases o with
  | ok p =>
    have hinvert : Preserves D s (.ok <$> r.invert inverse p) fun s' => D.Allows s' .ready :=
      (h.invert s .ready inverse p ho).map fun _ _ _ hp => hp
    refine hinvert.bind fun s₁ hs₁ _ hwritten => ?_
    exact h.setThrough (hs₁.getElem? hid) (hsource.later hs₁) (ho.later hs₁.before) hwritten
  | error e => exact h.setThrough hid hsource ho ho

/-- One level more writes what may be had of ready signals. -/
theorem setNode (h : r.Tame D) {id : SignalId} (hid : s.Readable .ready id) {o : Outcome P}
    (ho : D.Allows s .ready o) :
    Preserves D s (setNode r id o) fun _ result => ∀ e, result = .error e → D.failure e := by
  unfold Signal.setNode
  refine Preserves.graph_bind fun g hg => ?_
  obtain ⟨own, hanchor, hown⟩ := hg.anchor hid
  obtain rfl : own = .ready := hown.resolve_right nofun
  have hnode := hg.node _ _ hanchor
  simp only
  cases hform : (g.node (g.anchor id)).form with
  | cell => exact (setCell hanchor ho).then fun _ => preserves_pure fun _ he => nomatch he
  | map source steps role =>
    cases role with
    | readOnly uniform =>
      refine preserves_pure ?_
      rintro _ ⟨⟩
      exact D.readOnly _
    | writable inverse =>
      have hsource := hnode.upstream source (by rw [hform]; exact List.mem_singleton_self _)
      exact h.setWritable inverse hanchor hsource ho
  | reference target? =>
    cases target? with
    | none =>
      refine preserves_pure ?_
      rintro _ ⟨⟩
      exact hnode.target hform
    | some target => exact preserves_throw _
  | label name source => exact preserves_throw _
  | _ =>
    refine preserves_pure ?_
    rintro _ ⟨⟩
    exact D.readOnly _

end Rules.Tame

end ReactiveDoc.Signal
