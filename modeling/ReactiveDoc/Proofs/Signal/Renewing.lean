import ReactiveDoc.Proofs.Signal.Layered
import ReactiveDoc.Proofs.Signal.Relating
import ReactiveDoc.Proofs.Signal.Request

namespace ReactiveDoc.Signal

/-!
# Signals that are made anew

A function that makes something else whenever it is applied, as one that gives out an identity does,
leaves its signal with another version whenever it is applied again.

* `Stamps` — what was there when so many identities had been given out, and functions that make
  something else.
* `Ageing` — what may become of a world: memories only move ahead, and a signal of such a function
  has another version if it has noted another version of its source, or fails as before.
* `Ages` — completed runs do nothing else.
* `Rules.Ages` — nor do the operations on the signals below.
* `Rules.Ages.reconcileNode`, `Rules.Ages.setNode` — so neither do those on the signals above.
-/

variable {P F Φ σ α β : Type}

/-! ### What becomes of a signal -/

/-- What can have been there when so many identities had been given out, and the functions that make
    something that was not there. -/
structure Stamps (P F : Type) where
  old : Nat → P → Prop
  fresh : F → Prop
  mono : ∀ {m n : Nat} {p : P}, m ≤ n → old m p → old n p

variable {S : Stamps P F}

/-- A map under a single function that makes something else whenever it is applied. -/
def Form.Renews (S : Stamps P F) : Form F Φ → Prop
  | .map _ [f] (.readOnly _) => S.fresh f
  | _ => False

/-- The form stays, and is not that of a signal that is made anew. -/
structure Form.Lasting (S : Stamps P F) (form : Form F Φ) : Prop where
  known : form ≠ .reference none
  plain : ¬ form.Renews S

theorem Form.lasting_of_ne {form : Form F Φ} (hknown : form ≠ .reference none)
    (hmap : ∀ source f uniform, form ≠ .map source [f] (.readOnly uniform)) : form.Lasting S := by
  refine ⟨hknown, fun hrenews => ?_⟩
  match form, hrenews with
  | .map source [f] (.readOnly uniform), _ => exact hmap source f uniform rfl

/-- What the signal remembers can have been there when so many identities had been given out. -/
def Node.Stamped (S : Stamps P F) (k : Nat) (n : Node P F Φ) : Prop :=
  ∀ p, n.memo.outcome? = some (.ok p) → S.old k p

/-- A signal has noted and remembers the same as before, has another version, or fails as before. -/
inductive Node.Proceeds (n n' : Node P F Φ) : Prop
  | stays (hseen : n'.seen = n.seen) (houtcome : n'.memo.outcome? = n.memo.outcome?)
      (hversion : n'.memo.version = n.memo.version)
  | moves (h : n.memo.version < n'.memo.version)
  | fails (e : SignalError) (h : n.memo.outcome? = some (.error e))
      (h' : n'.memo.outcome? = some (.error e))

theorem Node.Proceeds.trans {n n' n'' : Node P F Φ} (h : n.Proceeds n') (h' : n'.Proceeds n'')
    (hle : n.memo.version ≤ n'.memo.version) (hle' : n'.memo.version ≤ n''.memo.version) :
    n.Proceeds n'' := by
  cases h with
  | stays hseen houtcome hversion =>
    cases h' with
    | stays hseen' houtcome' hversion' =>
      exact .stays (hseen'.trans hseen) (houtcome'.trans houtcome) (hversion'.trans hversion)
    | moves h' => exact .moves (hversion ▸ h')
    | fails e he he' => exact .fails e (houtcome.symm.trans he) he'
  | moves h => exact .moves (Nat.lt_of_lt_of_le h hle')
  | fails e he he' =>
    cases h' with
    | stays _ houtcome' _ => exact .fails e he (houtcome'.trans he')
    | moves h' => exact .moves (Nat.lt_of_le_of_lt hle h')
    | fails e' h' h'' =>
      obtain rfl : e = e' := by
        rw [he'] at h'
        cases h'
        rfl
      exact .fails e he h''

theorem Memo.holds_eq_true [BEq P] {m : Memo P} {o : Outcome P} (h : m.holds o = true) :
    ∃ last, m.outcome? = some last ∧ last.same o = true := by
  unfold holds at h
  cases hm : m.outcome? with
  | none =>
    rw [hm] at h
    cases h
  | some last =>
    rw [hm] at h
    exact ⟨last, rfl, h⟩

/-! ### What becomes of a world -/

/-- Identities are given out and signals are added, references may get their targets, and all that
    is remembered only moves ahead.  Signals that are made anew proceed. -/
structure Ageing (S : Stamps P F) (w w' : World P F Φ σ) : Prop where
  size_le : w.graph.size ≤ w'.graph.size
  identities_le : w.identities ≤ w'.identities
  form_eq : ∀ id, (w.graph.node id).form ≠ .reference none →
    (w'.graph.node id).form = (w.graph.node id).form
  ahead : ∀ id, (w.graph.node id).form ≠ .reference none →
    (w.graph.node id).memo.Ahead (w'.graph.node id).memo
  renewed : ∀ id, (w.graph.node id).form.Renews S → (w.graph.node id).Stamped S w.identities →
    (w'.graph.node id).Stamped S w'.identities ∧ (w.graph.node id).Proceeds (w'.graph.node id)

theorem Form.Renews.ne_reference {form : Form F Φ} (h : form.Renews S) :
    form ≠ .reference none := by
  rintro rfl
  exact h

namespace Ageing

variable {w w₁ w₂ : World P F Φ σ} {id : SignalId}

theorem refl (w : World P F Φ σ) : Ageing S w w :=
  ⟨Nat.le_refl _, Nat.le_refl _, fun _ _ => rfl, fun _ _ => .refl _,
    fun _ _ h => ⟨h, .stays rfl rfl rfl⟩⟩

theorem trans (h : Ageing S w w₁) (h' : Ageing S w₁ w₂) : Ageing S w w₂ := by
  have hne {id : SignalId} (hform : (w.graph.node id).form ≠ .reference none) :
      (w₁.graph.node id).form ≠ .reference none := h.form_eq id hform ▸ hform
  refine ⟨h.size_le.trans h'.size_le, h.identities_le.trans h'.identities_le, fun id hform => ?_,
    fun id hform => ?_, fun id hrenews hstamped => ?_⟩
  · exact (h'.form_eq id (hne hform)).trans (h.form_eq id hform)
  · exact (h.ahead id hform).trans (h'.ahead id (hne hform))
  · have hform := hrenews.ne_reference
    obtain ⟨hstamped₁, hproceeds₁⟩ := h.renewed id hrenews hstamped
    obtain ⟨hstamped₂, hproceeds₂⟩ := h'.renewed id (h.form_eq id hform ▸ hrenews) hstamped₁
    exact ⟨hstamped₂, hproceeds₁.trans hproceeds₂ (h.ahead id hform).version_le
      (h'.ahead id (hne hform)).version_le⟩

/-- Marks and registrations, new signals and targets of references do not count. -/
theorem of_heard (hsize : w.graph.size ≤ w₁.graph.size) (hids : w.identities ≤ w₁.identities)
    (h : ∀ id, (w.graph.node id).form ≠ .reference none →
      Graph.Heard (w.graph.node id) (w₁.graph.node id)) : Ageing S w w₁ := by
  refine ⟨hsize, hids, fun id hform => (h id hform).form_eq, fun id hform => ?_,
    fun id hrenews hstamped => ?_⟩
  · obtain ⟨-, houtcome, hversion, -⟩ := h id hform
    exact ⟨Nat.le_of_eq hversion.symm, fun _ _ => houtcome⟩
  · obtain ⟨-, houtcome, hversion, hseen⟩ := h id hrenews.ne_reference
    refine ⟨fun p hp => S.mono hids (hstamped p (houtcome ▸ hp)), .stays hseen houtcome hversion⟩

/-- A signal that is not made anew may note versions and move ahead. -/
theorem modify {f : Node P F Φ → Node P F Φ} (hform : ∀ n, (f n).form = n.form)
    (hahead : ∀ n : Node P F Φ, n.memo.Ahead (f n).memo)
    (hlasting : (w.graph.node id).form.Lasting S) :
    Ageing S w (w.put (w.graph.modify id f)) := by
  have hother {j : SignalId} (hj : (w.graph.node j).form.Renews S) :
      (w.graph.modify id f).node j = w.graph.node j :=
    w.graph.node_modify_of_ne f fun heq => hlasting.plain (heq ▸ hj)
  refine ⟨Nat.le_of_eq (w.graph.size_modify id f).symm, Nat.le_refl _, fun j _ => ?_,
    fun j _ => ?_, fun j hrenews hstamped => ?_⟩
  · exact Graph.node_modify_induction (C := fun j n => n.form = (w.graph.node j).form)
      (fun _ => hform _) j rfl
  · exact Graph.node_modify_induction (C := fun j n => (w.graph.node j).memo.Ahead n.memo)
      (fun _ => hahead _) j (.refl _)
  · rw [World.put_graph, hother hrenews]
    exact ⟨hstamped, .stays rfl rfl rfl⟩

/-- A signal that is made anew, and given what was not there or a failure, has another version or
    fails as before. -/
theorem renew [BEq P] {versions : List Nat} {o : Outcome P} (hids : w.identities ≤ w₁.identities)
    (ho : ∀ q, o = .ok q → S.old w₁.identities q ∧
      ∀ q', S.old w.identities q' → (q' == q) = false) :
    Ageing S w (w₁.put (w.graph.modify id fun n =>
      { n with seen := versions, memo := { n.memo.store o with dirty := false } })) := by
  refine ⟨Nat.le_of_eq (w.graph.size_modify id _).symm, hids, fun j _ => ?_, fun j _ => ?_,
    fun j _ hstamped => ?_⟩
  · exact Graph.node_modify_induction (C := fun j n => n.form = (w.graph.node j).form)
      (fun _ => rfl) j rfl
  · refine Graph.node_modify_induction (C := fun j n => (w.graph.node j).memo.Ahead n.memo)
      (fun _ => ?_) j (.refl _)
    have hahead := (w.graph.node id).memo.ahead_store o
    exact ⟨hahead.version_le, hahead.outcome?_eq⟩
  · rw [World.put_graph, Graph.node_modify]
    split
    · rename_i hj
      obtain ⟨rfl, -⟩ := hj
      cases hholds : (w.graph.node j).memo.holds o with
      | false =>
        rw [Memo.store_of_not_holds hholds]
        refine ⟨?_, .moves (Nat.lt_succ_self _)⟩
        rintro p ⟨⟩
        exact (ho p rfl).1
      | true =>
        rw [Memo.store_of_holds hholds]
        refine ⟨fun p hp => S.mono hids (hstamped p hp), ?_⟩
        obtain ⟨last, hlast, hsame⟩ := Memo.holds_eq_true hholds
        -- What was not there is not what is remembered, so that this is a failure.
        cases last with
        | ok p =>
          cases o with
          | ok q =>
            have hapart : (p == q) = false := (ho q rfl).2 p (hstamped p hlast)
            rw [Outcome.same, hapart] at hsame
            cases hsame
          | error e => cases hsame
        | error e => exact .fails e hlast hlast
    · exact ⟨fun p hp => S.mono hids (hstamped p hp), .stays rfl rfl rfl⟩

theorem lasting (h : Ageing S w w₁) (hlasting : (w.graph.node id).form.Lasting S) :
    (w₁.graph.node id).form.Lasting S := by
  rwa [h.form_eq id hlasting.known]

end Ageing

instance (S : Stamps P F) : IsPreorder (World P F Φ σ) (Ageing S) where
  refl := .refl
  trans _ _ _ := .trans

/-! ### Completed runs -/

/-- A run from a world that completes only lets the world age. -/
abbrev AgesFrom (S : Stamps P F) (w : World P F Φ σ) (x : Action P F Φ σ α) : Prop :=
  RelatesFrom (Ageing S) w x

/-- Every run that completes only lets the world age. -/
abbrev Ages (S : Stamps P F) (x : Action P F Φ σ α) : Prop := Relates (Ageing S) x

theorem ages_newIdentities (n : Nat) : Ages S (newIdentities n : Action P F Φ σ Nat) := by
  intro w a w' hrun
  cases hrun
  exact .of_heard (Nat.le_refl _) (Nat.le_add_right _ _) fun _ _ => ⟨rfl, rfl, rfl, rfl⟩

/-- A change that leaves all but marks and registrations; it may add signals, and give targets to
    references. -/
def Hushed (f : Graph P F Φ → Graph P F Φ) : Prop :=
  ∀ g, g.size ≤ (f g).size ∧
    ∀ id, (g.node id).form ≠ .reference none → Graph.Heard (g.node id) ((f g).node id)

theorem ages_update {f : Graph P F Φ → Graph P F Φ} (h : Hushed f) :
    Ages S (update f : Action P F Φ σ Unit) := by
  intro w a w' hrun
  cases hrun
  exact .of_heard (h w.graph).1 (Nat.le_refl _) (h w.graph).2

theorem hushed_depend (source : SignalId) (d : Dependent) :
    Hushed fun g : Graph P F Φ => g.depend source d := fun g =>
  ⟨Nat.le_of_eq (g.size_depend source d).symm, fun j _ => g.heard_depend source d j⟩

theorem hushed_undepend (source : SignalId) (d : Dependent) :
    Hushed fun g : Graph P F Φ => g.undepend source d := fun g =>
  ⟨Nat.le_of_eq (g.size_undepend source d).symm, fun j _ => g.heard_undepend source d j⟩

theorem hushed_modify (id : SignalId) {f : Node P F Φ → Node P F Φ}
    (hf : ∀ n, Graph.Heard n (f n)) : Hushed fun g => g.modify id f := fun g =>
  ⟨Nat.le_of_eq (g.size_modify id f).symm, fun j _ => g.heard_modify id hf j⟩

theorem hushed_notify (id : SignalId) : Hushed fun g : Graph P F Φ => g.notify id := fun g =>
  ⟨Nat.le_of_eq (g.size_notify id).symm, fun j _ => g.heard_notify id j⟩

theorem hushed_create (c : Creation P F Φ) : Hushed fun g => (c.apply g).2 := fun g => by
  have hgrows : Grows g (c.apply g).2 := by
    rw [c.apply_eq]
    exact Graph.grows_add (c.fresh g)
  refine ⟨hgrows.size_le, fun id hform => ?_⟩
  rw [hgrows.node_eq id (g.lt_size_of_form_ne hform)]
  exact .refl _

/-- A reference that waits for a target gets one. -/
theorem heard_resolve {g g' : Graph P F Φ} {reference target : SignalId}
    (h : g.resolve reference target = .ok g') : g.size ≤ g'.size ∧
      ∀ id, (g.node id).form ≠ .reference none → Graph.Heard (g.node id) (g'.node id) := by
  unfold Graph.resolve at h
  split at h
  · rename_i hwaiting
    cases h
    refine ⟨?_, fun id hform => ?_⟩
    · show _ ≤ (Graph.notifyAll _ _).size
      rw [Graph.size_notifyAll, Graph.size_modify]
    · -- The reference was waiting before.
      have hne : id ≠ reference := fun heq => hform (heq ▸ hwaiting)
      have hheard := Graph.heard_notifyAll
        (g.modify reference fun _ => { form := .reference (some target) })
        (g.node reference).dependents id
      rwa [Graph.node_modify_of_ne _ _ hne] at hheard
  · cases h
  · cases h

theorem ages_create (c : Creation P F Φ) :
    Ages S (create fun g => c.apply g : Action P F Φ σ SignalId) := by
  intro w a w' hrun
  cases hrun
  obtain ⟨hsize, hheard⟩ := hushed_create c w.graph
  exact .of_heard hsize (Nat.le_refl _) hheard

/-! ### Changes of one signal -/

section

variable {w : World P F Φ σ} {id : SignalId}

theorem ages_register (id source : SignalId) :
    Ages S (register id source : Action P F Φ σ Unit) := ages_update (hushed_depend source _)

theorem ages_follow (id : SignalId) (inner? : Option Inner) :
    Ages S (follow id inner? : Action P F Φ σ Unit) :=
  ages_update (hushed_modify id fun _ => ⟨rfl, rfl, rfl, rfl⟩)

theorem ages_clean (id : SignalId) : Ages S (clean id : Action P F Φ σ Unit) :=
  ages_update (hushed_modify id fun _ => ⟨rfl, rfl, rfl, rfl⟩)

theorem ages_notify (id : SignalId) :
    Ages S (update fun g => g.notify id : Action P F Φ σ Unit) := ages_update (hushed_notify id)

theorem ages_undepend (source : SignalId) (d : Dependent) :
    Ages S (update fun g => g.undepend source d : Action P F Φ σ Unit) :=
  ages_update (hushed_undepend source d)

theorem remember_ages (hlasting : (w.graph.node id).form.Lasting S) (versions : List Nat) :
    AgesFrom S w (remember id versions) := by
  intro a w' hrun
  cases hrun
  exact .modify (fun _ => rfl) (fun _ => .refl _) hlasting

theorem ages_isStale (id : SignalId) (versions : List Nat) :
    Ages S (isStale id versions : Action P F Φ σ Bool) :=
  relates_graph.bind fun _ => relates_pure _

theorem store_ages [BEq P] (hlasting : (w.graph.node id).form.Lasting S) (o : Outcome P) :
    AgesFrom S w (store id o) := by
  intro a w' hrun
  cases hrun
  exact .modify (fun _ => rfl) (fun n => n.memo.ahead_store o) hlasting

theorem ages_resolve (reference target : SignalId) :
    Ages S (resolve reference target : Action P F Φ σ (Except SignalError Unit)) := by
  intro w
  refine .graph_bind ?_
  cases hresolve : w.graph.resolve reference target with
  | error e => exact relates_pure _ w
  | ok g =>
    intro a w' hrun
    cases hrun
    obtain ⟨hsize, hheard⟩ := heard_resolve hresolve
    exact .of_heard hsize (Nat.le_refl _) hheard

end

/-! ### The operations on the signals below -/

variable [Carrier P]

/-- The operations on the signals below only let the world age, and functions make something that
    was not there if they are to. -/
structure Rules.Ages (S : Stamps P F) (r : Rules P F Φ σ) : Prop where
  reconcile : ∀ id, Signal.Ages S (r.reconcile id)
  set : ∀ id o, Signal.Ages S (r.set id o)
  apply : ∀ f p, Signal.Ages S (r.apply f p)
  renews : ∀ {f p w o w'}, S.fresh f → r.apply f p w = .ok (o, w') → w'.graph = w.graph ∧
    ∃ q, o = .ok q ∧ S.old w'.identities q ∧ ∀ q', S.old w.identities q' → (q' == q) = false
  invert : ∀ f p, Signal.Ages S (r.invert f p)
  choose : ∀ choice p, Signal.Ages S (r.choose choice p)

/-- Where no recursion is left nothing completes. -/
theorem Rules.ages_exhausted : (Rules.exhausted : Rules P F Φ σ).Ages S where
  reconcile _ := relates_throw _
  set _ _ := relates_throw _
  apply _ _ := relates_throw _
  renews _ hrun := nomatch hrun
  invert _ _ := relates_throw _
  choose _ _ := relates_throw _

namespace Rules.Ages

variable {r : Rules P F Φ σ} {w : World P F Φ σ} {id : SignalId}

theorem applySteps (h : r.Ages S) (steps : List F) (o : Outcome P) :
    Signal.Ages S (applySteps r steps o) := by
  unfold Signal.applySteps
  refine Relates.foldlM (fun o f => ?_) steps o
  cases o with
  | ok p => exact h.apply f p
  | error e => exact relates_pure _

theorem read (h : r.Ages S) (id : SignalId) : Signal.Ages S (r.read id) := by
  unfold Rules.read
  exact (h.reconcile id).bind fun _ => relates_graph.bind fun _ => relates_pure _

theorem reconcileSources (h : r.Ages S) (id : SignalId) (sources : List SignalId) :
    Signal.Ages S (reconcileSources r id sources) := by
  unfold Signal.reconcileSources
  refine Relates.mapM fun source _ => (h.reconcile source).bind fun _ => ?_
  exact (ages_register id source).bind fun _ => relates_graph.bind fun _ => relates_pure _

/-- A signal is brought up to date by what is computed from its source. -/
theorem reconcileImage (h : r.Ages S) {source : SignalId}
    {compute : Outcome P → Action P F Φ σ (Outcome P)}
    (hrefresh : ∀ w₁ versions, Ageing S w w₁ → AgesFrom S w₁ (do
      remember id versions
      store id (← compute ((← graph).value source))
      clean id)) : AgesFrom S w (reconcileImage r id source compute) := by
  unfold Signal.reconcileImage
  refine (h.reconcile source w).bind fun _ w₁ h₁ => ?_
  refine (ages_register id source w₁).bind fun _ w₂ h₂ => ?_
  refine .graph_bind ?_
  refine (ages_isStale id _ w₂).bind fun stale w₃ h₃ => ?_
  cases stale with
  | false => exact ages_clean id w₃
  | true => exact hrefresh w₃ _ (h₁.trans (h₂.trans h₃))

omit [Carrier P] in
/-- One that is not made anew may be given any outcome. -/
theorem refresh [BEq P] {source : SignalId} {compute : Outcome P → Action P F Φ σ (Outcome P)}
    (hcompute : ∀ o, Signal.Ages S (compute o)) (hlasting : (w.graph.node id).form.Lasting S)
    (versions : List Nat) : AgesFrom S w (do
      remember id versions
      store id (← compute ((← graph).value source))
      clean id) := by
  refine (remember_ages hlasting versions).bind fun _ w₂ h₂ => ?_
  refine .graph_bind ?_
  refine (hcompute _ w₂).bind fun o w₃ h₃ => ?_
  refine (store_ages ((h₂.trans h₃).lasting hlasting) o).bind fun _ w₄ _ => ?_
  exact ages_clean id w₄

theorem reconcileFixed (h : r.Ages S) {source : SignalId}
    {compute : Outcome P → Action P F Φ σ (Outcome P)} (hcompute : ∀ o, Signal.Ages S (compute o))
    (hlasting : (w.graph.node id).form.Lasting S) :
    AgesFrom S w (Signal.reconcileImage r id source compute) :=
  h.reconcileImage fun _ versions h₁ => refresh hcompute (h₁.lasting hlasting) versions

/-- One that is made anew is given what was not there, or the failure of its source. -/
theorem renew (h : r.Ages S) {f : F} {source : SignalId} (hfresh : S.fresh f)
    (versions : List Nat) : AgesFrom S w (do
      remember id versions
      store id (← Signal.applySteps r [f] ((← graph).value source))
      clean id) := by
  intro a w' hrun
  let w₁ := w.put (w.graph.modify id fun n => { n with seen := versions })
  have hsplit : (Signal.applySteps r [f] (w₁.graph.value source) >>= fun o =>
    store id o >>= fun _ => clean id) w₁ = .ok (a, w') := hrun
  obtain ⟨o, w₂, happly, hrest⟩ := exists_of_bind hsplit
  -- After its step has run the graph is as before.
  obtain ⟨hgraph, hids, ho⟩ : w₂.graph = w₁.graph ∧ w₁.identities ≤ w₂.identities ∧
      ∀ q, o = .ok q → S.old w₂.identities q ∧
        ∀ q', S.old w₁.identities q' → (q' == q) = false := by
    cases hv : w₁.graph.value source with
    | error e =>
      rw [hv] at happly
      cases happly
      refine ⟨rfl, Nat.le_refl _, ?_⟩
      rintro _ ⟨⟩
    | ok p =>
      have hsingle : Signal.applySteps r [f] (.ok p) = r.apply f p := by
        unfold Signal.applySteps
        rw [List.foldlM_cons]
        exact bind_pure _
      rw [hv, hsingle] at happly
      obtain ⟨hgraph, q, rfl, hold, hnew⟩ := h.renews hfresh happly
      refine ⟨hgraph, (h.apply f p w₁ happly).identities_le, ?_⟩
      rintro _ ⟨⟩
      exact ⟨hold, hnew⟩
  rw [store_bind_run, clean_run, World.put_put, World.put_graph, hgraph, World.put_graph,
    Graph.modify_modify, Graph.modify_modify] at hrest
  cases hrest
  exact .renew hids ho

/-- A map is brought up to date. -/
theorem reconcileMap (h : r.Ages S) {source : SignalId} {steps : List F} {role : MapRole F}
    (hform : (w.graph.node id).form = .map source steps role) :
    AgesFrom S w (Signal.reconcileImage r id source (Signal.applySteps r steps)) := by
  by_cases hrenews : (w.graph.node id).form.Renews S
  · rw [hform] at hrenews
    match steps, role, hrenews with
    | [f], .readOnly _, hfresh => exact h.reconcileImage fun w₁ versions _ => h.renew hfresh versions
  · exact h.reconcileFixed (h.applySteps steps) ⟨hform ▸ nofun, hrenews⟩

/-- So is a join. -/
theorem reconcileJoin (h : r.Ages S) (sources : List SignalId)
    (hlasting : (w.graph.node id).form.Lasting S) : AgesFrom S w (reconcileJoin r id sources) := by
  unfold Signal.reconcileJoin
  refine (h.reconcileSources id sources w).bind fun versions w₁ h₁ => ?_
  refine (ages_isStale id versions w₁).bind fun stale w₂ h₂ => ?_
  cases stale with
  | false => exact ages_clean id w₂
  | true =>
    refine (remember_ages ((h₁.trans h₂).lasting hlasting) versions).bind fun _ w₃ h₃ => ?_
    refine .graph_bind ?_
    refine (store_ages ((h₁.trans (h₂.trans h₃)).lasting hlasting) _).bind fun _ w₄ _ => ?_
    exact ages_clean id w₄

omit [Carrier P] in
theorem leave (id : SignalId) : Signal.Ages S (leave id : Action P F Φ σ Unit) := by
  unfold Signal.leave
  refine relates_graph.bind fun g => ?_
  cases (g.node id).inner? with
  | none => exact relates_pure _
  | some inner =>
    refine (ages_follow id none).bind fun _ => ages_undepend inner.signal _

theorem turn (h : r.Ages S) (id source : SignalId) (choice : Φ) :
    Signal.Ages S (turn r id source choice) := by
  unfold Signal.turn
  refine (leave id).bind fun _ => relates_graph.bind fun g => ?_
  cases g.value source with
  | error e => exact relates_pure _
  | ok p =>
    refine (h.choose choice p).bind fun inner => ?_
    exact (ages_follow id _).bind fun _ => relates_pure _

theorem reconcileInner (h : r.Ages S) (id : SignalId) : Signal.Ages S (reconcileInner r id) := by
  unfold Signal.reconcileInner
  refine relates_graph.bind fun g => ?_
  cases (g.node id).inner? with
  | none => exact relates_pure _
  | some inner =>
    refine (h.reconcile inner.signal).bind fun _ => (ages_register id _).bind fun _ => ?_
    refine relates_graph.bind fun g => ?_
    simp only
    split
    · exact (ages_follow id _).bind fun _ => relates_pure _
    · exact relates_pure _

/-- So is a flat map. -/
theorem reconcileChoice (h : r.Ages S) (source : SignalId) (choice : Φ)
    (hlasting : (w.graph.node id).form.Lasting S) :
    AgesFrom S w (reconcileChoice r id source choice) := by
  unfold Signal.reconcileChoice
  refine (h.reconcile source w).bind fun _ w₁ h₁ => ?_
  refine (ages_register id source w₁).bind fun _ w₂ h₂ => ?_
  refine .graph_bind ?_
  refine (ages_isStale id _ w₂).bind fun stale w₃ h₃ => ?_
  have h₃ := h₁.trans (h₂.trans h₃)
  have hrest (failure : Option (Outcome P)) {w₄ : World P F Φ σ} (h₄ : Ageing S w w₄) :
      AgesFrom S w₄ (do
        let new ← Signal.reconcileInner r id
        conclude id (new.or failure)) := by
    refine (h.reconcileInner id w₄).bind fun new w₅ h₅ => ?_
    unfold conclude
    cases new.or failure with
    | none => exact ages_clean id w₅
    | some o =>
      refine (store_ages ((h₄.trans h₅).lasting hlasting) o).bind fun _ w₆ _ => ?_
      exact ages_clean id w₆
  cases stale with
  | false => exact hrest none h₃
  | true =>
    refine (remember_ages (h₃.lasting hlasting) _).bind fun _ w₄ h₄ => ?_
    exact (h.turn id source choice w₄).bind fun failure w₅ h₅ =>
      hrest failure (h₃.trans (h₄.trans h₅))

/-- One level more only lets the world age. -/
theorem reconcileNode (h : r.Ages S) (id : SignalId) : Signal.Ages S (reconcileNode r id) := by
  intro w
  unfold Signal.reconcileNode
  refine .graph_bind ?_
  simp only
  split
  · cases hform : (w.graph.node (w.graph.anchor id)).form with
    | map source steps role => exact h.reconcileMap hform
    | lift source =>
      have hlasting : (w.graph.node (w.graph.anchor id)).form.Lasting S :=
        Form.lasting_of_ne (hform ▸ nofun) (hform ▸ nofun)
      exact h.reconcileFixed (fun _ => relates_pure _) hlasting
    | flatMap source choice =>
      exact h.reconcileChoice source choice (Form.lasting_of_ne (hform ▸ nofun) (hform ▸ nofun))
    | join sources =>
      exact h.reconcileJoin sources (Form.lasting_of_ne (hform ▸ nofun) (hform ▸ nofun))
    | label name source => exact relates_throw _ w
    | reference target? => exact relates_throw _ w
    | constant => exact relates_pure _ w
    | cell => exact relates_pure _ w
  · exact relates_pure _ w

/-! ### Writing -/

theorem setCell (hlasting : (w.graph.node id).form.Lasting S) (o : Outcome P) :
    AgesFrom S w (setCell id o) := by
  intro a w' hrun
  cases hrun
  show Ageing S w (w.put (if _ then w.graph else _))
  split
  · exact .refl w
  · exact (store_ages hlasting o rfl).trans (ages_notify id (w.put _) rfl)

theorem settleWritten (hlasting : (w.graph.node id).form.Lasting S) (source : SignalId)
    (o : Outcome P) : AgesFrom S w (settleWritten id source o) := by
  unfold Signal.settleWritten
  refine .graph_bind ?_
  refine (store_ages hlasting o).bind fun _ w₁ h₁ => ?_
  refine (ages_clean id w₁).bind fun _ w₂ h₂ => ?_
  refine .graph_bind ?_
  refine (remember_ages ((h₁.trans h₂).lasting hlasting) _).bind fun _ w₃ _ => ?_
  refine (ages_register id source w₃).bind fun _ w₄ _ => ?_
  split
  · exact ages_notify id w₄
  · exact relates_pure _ w₄

/-- The source of a map is written before the map. -/
theorem setThrough (h : r.Ages S) (source : SignalId) (o written : Outcome P)
    (hlasting : (w.graph.node id).form.Lasting S) : AgesFrom S w (do
      match ← r.set source written with
      | .error e => pure (.error e)
      | .ok () =>
          r.reconcile source
          Signal.settleWritten id source o
          pure (.ok ()) : Action P F Φ σ (Except SignalError Unit)) := by
  refine (h.set source written w).bind fun result w₁ h₁ => ?_
  cases result with
  | error e => exact relates_pure _ w₁
  | ok _ =>
    refine (h.reconcile source w₁).bind fun _ w₂ h₂ => ?_
    exact (settleWritten ((h₁.trans h₂).lasting hlasting) source o).bind fun _ w₃ _ =>
      relates_pure _ w₃

theorem setWritable (h : r.Ages S) (source : SignalId) (inverse : F) (o : Outcome P)
    (hlasting : (w.graph.node id).form.Lasting S) :
    AgesFrom S w (setWritable r id source inverse o) := by
  unfold Signal.setWritable
  cases o with
  | ok p =>
    refine ((h.invert inverse p).map w).bind fun written w₁ h₁ => ?_
    exact h.setThrough source (.ok p) written (h₁.lasting hlasting)
  | error e => exact h.setThrough source (.error e) (.error e) hlasting

/-- One level more only lets the world age when a signal is written. -/
theorem setNode (h : r.Ages S) (id : SignalId) (o : Outcome P) :
    Signal.Ages S (setNode r id o) := by
  intro w
  unfold Signal.setNode
  refine .graph_bind ?_
  simp only
  cases hform : (w.graph.node (w.graph.anchor id)).form with
  | cell =>
    have hlasting : (w.graph.node (w.graph.anchor id)).form.Lasting S :=
      Form.lasting_of_ne (hform ▸ nofun) (hform ▸ nofun)
    exact (setCell hlasting o).bind fun _ w₁ _ => relates_pure _ w₁
  | map source steps role =>
    cases role with
    | readOnly uniform => exact relates_pure _ w
    | writable inverse =>
      exact h.setWritable source inverse o (Form.lasting_of_ne (hform ▸ nofun) (hform ▸ nofun))
  | reference target? =>
    cases target? with
    | none => exact relates_pure _ w
    | some target => exact relates_throw _ w
  | label name source => exact relates_throw _ w
  | _ => exact relates_pure _ w

/-- Every request only lets the world age. -/
theorem request (h : r.Ages S) (request : Request P F Φ) : Signal.Ages S (request.run r) := by
  cases request with
  | create c => exact (ages_create c).bind fun _ => relates_pure _
  | set id o => exact (h.set id o).bind fun _ => relates_pure _
  | resolve reference target => exact (ages_resolve reference target).bind fun _ => relates_pure _
  | reconcile id => exact (h.reconcile id).bind fun _ => relates_pure _
  | get id => exact (h.read id).bind fun _ => relates_pure _

end Rules.Ages

end ReactiveDoc.Signal
