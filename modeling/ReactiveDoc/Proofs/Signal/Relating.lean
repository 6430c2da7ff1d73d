import Mathlib.Order.Defs.Unbundled
import ReactiveDoc.Proofs.Signal.Visiting

namespace ReactiveDoc.Signal

/-!
# What becomes of a world by a run

To bring a signal up to date changes what that signal remembers.  What it does to others is what the
operations on the signals below do.

* `Relates` — every run that completes leads from a world to a related one.
* `Relates.bind` — for a preorder this is so of runs that are put together.
* `Relates.mapM`, `Relates.foldlM` — and of runs for each of several things.
* `Touches` — changes of certain signals lead to related worlds.
* `Touches.reconcileImage`, `Touches.reconcileJoin`, `Touches.reconcileChoice` — then so does
  bringing one of them up to date.
-/

variable {P F Φ σ α β : Type} {R : World P F Φ σ → World P F Φ σ → Prop}

/-- A run from a world that completes leads to a related one. -/
def RelatesFrom (R : World P F Φ σ → World P F Φ σ → Prop) (w : World P F Φ σ)
    (x : Action P F Φ σ α) : Prop :=
  ∀ ⦃a w'⦄, x w = .ok (a, w') → R w w'

/-- Every run that completes leads to a related world. -/
def Relates (R : World P F Φ σ → World P F Φ σ → Prop) (x : Action P F Φ σ α) : Prop :=
  ∀ w, RelatesFrom R w x

section

variable {x : Action P F Φ σ α} {w : World P F Φ σ}

/-- A run of two steps that completes has completed the first one. -/
theorem exists_of_bind {f : α → Action P F Φ σ β} {b : β} {w' : World P F Φ σ}
    (h : (x >>= f) w = .ok (b, w')) : ∃ a w₁, x w = .ok (a, w₁) ∧ f a w₁ = .ok (b, w') := by
  cases hx : x w with
  | error e =>
    have hfail : (x >>= f) w = .error e := by
      show StateT.bind x f w = _
      unfold StateT.bind
      rw [hx]
      rfl
    rw [hfail] at h
    cases h
  | ok first =>
    obtain ⟨a, w₁⟩ := first
    rw [bind_run hx] at h
    exact ⟨a, w₁, rfl, h⟩

/-- A run that goes on with the graph as it is. -/
theorem RelatesFrom.graph_bind {f : Graph P F Φ → Action P F Φ σ β} (h : RelatesFrom R w (f w.graph)) :
    RelatesFrom R w (graph >>= f) := h

theorem relates_throw (e : Fault) : Relates R (throw e : Action P F Φ σ α) := by
  intro w a w' hrun
  cases hrun

variable [IsPreorder (World P F Φ σ) R]

theorem RelatesFrom.bind {f : α → Action P F Φ σ β} (h : RelatesFrom R w x)
    (hf : ∀ a w₁, R w w₁ → RelatesFrom R w₁ (f a)) : RelatesFrom R w (x >>= f) := by
  intro b w' hrun
  obtain ⟨a, w₁, hfirst, hrest⟩ := exists_of_bind hrun
  exact trans_of R (h hfirst) (hf a w₁ (h hfirst) hrest)

theorem Relates.bind {f : α → Action P F Φ σ β} (h : Relates R x) (hf : ∀ a, Relates R (f a)) :
    Relates R (x >>= f) := fun w => (h w).bind fun a w₁ _ => hf a w₁

theorem relates_pure (a : α) : Relates R (pure a : Action P F Φ σ α) := by
  intro w a' w' hrun
  cases hrun
  exact refl_of R w

theorem Relates.map {f : α → β} (h : Relates R x) : Relates R (f <$> x) := by
  rw [map_eq_pure_bind]
  exact h.bind fun a => relates_pure (f a)

theorem relates_graph : Relates R (graph : Action P F Φ σ (Graph P F Φ)) := by
  intro w g w' hrun
  cases hrun
  exact refl_of R w

theorem Relates.mapM {f : α → Action P F Φ σ β} {as : List α} (h : ∀ a ∈ as, Relates R (f a)) :
    Relates R (as.mapM f) := by
  induction as with
  | nil => exact relates_pure []
  | cons a as ih =>
    rw [List.mapM_cons]
    refine (h a List.mem_cons_self).bind fun b => ?_
    refine Relates.bind (ih fun a' ha' => h a' (List.mem_cons_of_mem _ ha')) fun bs => ?_
    exact relates_pure (b :: bs)

theorem Relates.foldlM {f : β → α → Action P F Φ σ β} (h : ∀ b a, Relates R (f b a)) (as : List α)
    (b : β) : Relates R (as.foldlM f b) := by
  induction as generalizing b with
  | nil => exact relates_pure b
  | cons a as ih =>
    rw [List.foldlM_cons]
    exact (h b a).bind ih

end

/-! ### Bringing one signal up to date -/

variable {A : World P F Φ σ → SignalId → Prop} {r : Rules P F Φ σ} {w : World P F Φ σ}
  {id s : SignalId}

/-- Registrations and marks, and changes of what the signals in `A` remember, lead to related
    worlds.  What is in `A` stays there. -/
structure Touches [BEq P] (R : World P F Φ σ → World P F Φ σ → Prop)
    (A : World P F Φ σ → SignalId → Prop) : Prop where
  register : ∀ id s, Relates R (register id s : Action P F Φ σ Unit)
  undepend : ∀ id s,
    Relates R (update fun g => g.undepend s (.signal id) : Action P F Φ σ Unit)
  clean : ∀ id, Relates R (clean id : Action P F Φ σ Unit)
  follow : ∀ id inner?, Relates R (follow id inner? : Action P F Φ σ Unit)
  remember : ∀ {w id} versions, A w id → RelatesFrom R w (remember id versions)
  store : ∀ {w id} o, A w id → RelatesFrom R w (store id o)
  keep : ∀ {w w' id}, A w id → R w w' → A w' id

variable [IsPreorder (World P F Φ σ) R]

theorem isStale_relates (id : SignalId) (versions : List Nat) :
    Relates R (isStale id versions : Action P F Φ σ Bool) :=
  relates_graph.bind fun _ => relates_pure _

namespace Touches

variable [Carrier P] (ht : Touches R A)

include ht

theorem reconcileImage {compute : Outcome P → Action P F Φ σ (Outcome P)}
    (hreconcile : Relates R (r.reconcile s)) (hcompute : ∀ o, Relates R (compute o))
    (hA : A w id) : RelatesFrom R w (reconcileImage r id s compute) := by
  unfold Signal.reconcileImage
  refine (hreconcile w).bind fun _ w₁ h₁ => ?_
  refine (ht.register id s w₁).bind fun _ w₂ h₂ => ?_
  refine .graph_bind ?_
  refine (isStale_relates id _ w₂).bind fun stale w₃ h₃ => ?_
  have hA₃ := ht.keep (ht.keep (ht.keep hA h₁) h₂) h₃
  cases stale with
  | false => exact ht.clean id w₃
  | true =>
    refine (ht.remember _ hA₃).bind fun _ w₄ h₄ => ?_
    refine .graph_bind ?_
    refine (hcompute _ w₄).bind fun o w₅ h₅ => ?_
    refine (ht.store o (ht.keep (ht.keep hA₃ h₄) h₅)).bind fun _ w₆ _ => ?_
    exact ht.clean id w₆

theorem reconcileSources (hreconcile : ∀ s, Relates R (r.reconcile s)) (id : SignalId)
    (sources : List SignalId) : Relates R (reconcileSources r id sources) := by
  unfold Signal.reconcileSources
  refine Relates.mapM fun s _ => (hreconcile s).bind fun _ => ?_
  exact (ht.register id s).bind fun _ => relates_graph.bind fun _ => relates_pure _

theorem reconcileJoin (hreconcile : ∀ s, Relates R (r.reconcile s)) (sources : List SignalId)
    (hA : A w id) : RelatesFrom R w (reconcileJoin r id sources) := by
  unfold Signal.reconcileJoin
  refine (ht.reconcileSources hreconcile id sources w).bind fun versions w₁ h₁ => ?_
  refine (isStale_relates id versions w₁).bind fun stale w₂ h₂ => ?_
  have hA₂ := ht.keep (ht.keep hA h₁) h₂
  cases stale with
  | false => exact ht.clean id w₂
  | true =>
    refine (ht.remember versions hA₂).bind fun _ w₃ h₃ => ?_
    refine .graph_bind ?_
    refine (ht.store _ (ht.keep hA₂ h₃)).bind fun _ w₄ _ => ?_
    exact ht.clean id w₄

theorem leave (id : SignalId) : Relates R (leave id : Action P F Φ σ Unit) := by
  unfold Signal.leave
  refine relates_graph.bind fun g => ?_
  cases (g.node id).inner? with
  | none => exact relates_pure _
  | some inner => exact (ht.follow id none).bind fun _ => ht.undepend id inner.signal

theorem turn {choice : Φ} (hchoose : ∀ p, Relates R (r.choose choice p)) (id s : SignalId) :
    Relates R (turn r id s choice) := by
  unfold Signal.turn
  refine (ht.leave id).bind fun _ => relates_graph.bind fun g => ?_
  cases g.value s with
  | error e => exact relates_pure _
  | ok p =>
    refine (hchoose p).bind fun inner => ?_
    exact (ht.follow id _).bind fun _ => relates_pure _

theorem reconcileInner (hreconcile : ∀ s, Relates R (r.reconcile s)) (id : SignalId) :
    Relates R (reconcileInner r id) := by
  unfold Signal.reconcileInner
  refine relates_graph.bind fun g => ?_
  cases (g.node id).inner? with
  | none => exact relates_pure _
  | some inner =>
    refine (hreconcile inner.signal).bind fun _ => (ht.register id _).bind fun _ => ?_
    refine relates_graph.bind fun g => ?_
    simp only
    split
    · exact (ht.follow id _).bind fun _ => relates_pure _
    · exact relates_pure _

theorem reconcileChoice {choice : Φ} (hreconcile : ∀ s, Relates R (r.reconcile s))
    (hchoose : ∀ p, Relates R (r.choose choice p)) (hA : A w id) :
    RelatesFrom R w (reconcileChoice r id s choice) := by
  unfold Signal.reconcileChoice
  refine (hreconcile s w).bind fun _ w₁ h₁ => ?_
  refine (ht.register id s w₁).bind fun _ w₂ h₂ => ?_
  refine .graph_bind ?_
  refine (isStale_relates id _ w₂).bind fun stale w₃ h₃ => ?_
  have hA₃ := ht.keep (ht.keep (ht.keep hA h₁) h₂) h₃
  have hrest (failure : Option (Outcome P)) {w₄ : World P F Φ σ} (hA₄ : A w₄ id) :
      RelatesFrom R w₄ (do
        let new ← Signal.reconcileInner r id
        conclude id (new.or failure)) := by
    refine (ht.reconcileInner hreconcile id w₄).bind fun new w₅ h₅ => ?_
    unfold conclude
    cases new.or failure with
    | none => exact ht.clean id w₅
    | some o =>
      refine (ht.store o (ht.keep hA₄ h₅)).bind fun _ w₆ _ => ?_
      exact ht.clean id w₆
  cases stale with
  | false => exact hrest none hA₃
  | true =>
    refine (ht.remember _ hA₃).bind fun _ w₄ h₄ => ?_
    exact (ht.turn hchoose id s w₄).bind fun failure w₅ h₅ =>
      hrest failure (ht.keep (ht.keep hA₃ h₄) h₅)

end Touches

end ReactiveDoc.Signal
