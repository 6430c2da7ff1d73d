import ReactiveDoc.Proofs.Eval.Governing
import ReactiveDoc.Proofs.Eval.Settled

namespace ReactiveDoc.Eval

/-!
# References that are given their targets

* `Regime.Advances` — completed evaluations keep to a regime, and references may be given their
  targets on the way.
* `Complete`, `Unlimited` — no reference waits any longer; there are only signals without limits.
* `obeys_opened` — then signals that kept to their tiers need no tiers any more.
-/

open Signal (Stage Tier Discipline Graph preserves_create)

variable {σ α β : Type}

/-! ### Evaluations that advance -/

namespace Regime

variable {M : Regime} {s s' : Stage} {Q : Stage → α → Prop} {R : Stage → β → Prop}
  {x : EvalM σ α}

variable (M) in
/-- Every completed evaluation ends at a stage where no less is known or readable, with a value
    that satisfies the postcondition there; or it ends with an error that is tolerated. -/
def Advances (s : Stage) (x : EvalM σ α) (Q : Stage → α → Prop) : Prop :=
  ∀ ⦃w result w'⦄, w.graph.Obeys M.discipline s → x.run w = .ok (result, w') →
    match result with
    | .ok a => ∃ s', s.Before s' ∧ w'.graph.Obeys M.discipline s' ∧ Q s' a
    | .error e => M.tolerates e

theorem Admits.advances (h : M.Admits s x Q) : M.Advances s x Q := by
  intro w result w' hobeys hrun
  obtain ⟨s', hs, hobeys', hresult⟩ := h hobeys hrun
  cases result with
  | ok a => exact ⟨s', hs.before, hobeys', hresult⟩
  | error e => exact hresult

theorem advances_pure {a : α} (h : Q s a) : M.Advances s (pure a : EvalM σ α) Q :=
  (admits_pure h).advances

namespace Advances

theorem bind {f : α → EvalM σ β} (h : M.Advances s x Q)
    (hf : ∀ s', s.Before s' → ∀ a, Q s' a → M.Advances s' (f a) R) :
    M.Advances s (x >>= f) R := by
  intro w result w' hobeys hrun
  cases hx : x.run w with
  | error fault =>
    have hfail : (x >>= f).run w = .error fault := by
      show StateT.bind x.run (ExceptT.bindCont f) w = _
      unfold StateT.bind
      rw [hx]
      rfl
    rw [hfail] at hrun
    cases hrun
  | ok first =>
    obtain ⟨result₁, w₁⟩ := first
    have hrest : (x >>= f).run w = ExceptT.bindCont f result₁ w₁ := Signal.bind_run hx
    rw [hrest] at hrun
    have hfirst := h hobeys hx
    cases result₁ with
    | error e =>
      cases hrun
      exact hfirst
    | ok a =>
      obtain ⟨s₁, hs₁, hobeys₁, ha⟩ := hfirst
      have hsecond := hf s₁ hs₁ a ha hobeys₁ hrun
      cases result with
      | error e => exact hsecond
      | ok b =>
        obtain ⟨s₂, hs₂, hobeys₂, hb⟩ := hsecond
        exact ⟨s₂, hs₁.trans hs₂, hobeys₂, hb⟩

theorem lookUp_bind {y : Except Fault α} {f : α → EvalM σ β}
    (hf : ∀ a, y = .ok a → M.Advances s (f a) R) : M.Advances s (lookUp y >>= f) R := by
  cases y with
  | ok a =>
    intro w result w' hobeys hrun
    exact hf a rfl hobeys hrun
  | error e =>
    intro w result w' hobeys hrun
    cases hrun

/-- An evaluation for each of several things, which goes on with what the one before gave. -/
theorem foldlM {f : β → α → EvalM σ β} {as : List α}
    (h : ∀ s', s.Before s' → ∀ b, R s' b → ∀ a ∈ as, M.Advances s' (f b a) R) {b : β}
    (hb : R s b) : M.Advances s (as.foldlM f b) R := by
  induction as generalizing s b with
  | nil => exact advances_pure hb
  | cons a as ih =>
    rw [List.foldlM_cons]
    have hs : s.Before s := ⟨Nat.le_refl _, fun _ _ h => h⟩
    refine (h s hs b hb a List.mem_cons_self).bind fun s₁ hs₁ b' hb' => ?_
    exact ih (fun s' hs' b'' hb'' a' ha' => h s' (hs₁.trans hs') b'' hb'' a'
      (List.mem_cons_of_mem _ ha')) hb'

end Advances

/-- One more reference that waits for its target. -/
theorem reference_advances :
    M.Advances s (lift (Signal.create fun g => g.reference) : EvalM σ SignalId)
      fun s' id => s' = s ++ [none] ∧ id = s.length := by
  intro w result w' hobeys hrun
  cases hrun
  exact ⟨s ++ [none], s.before_append _, hobeys.reference, rfl, hobeys.size.symm⟩

/-- A reference that waits is given a target that may be read. -/
theorem resolve_advances {id target : SignalId} (hid : s[id]? = some none)
    (htarget : s.Readable .idle target) :
    M.Advances s (lift (Signal.resolve id target) : EvalM σ (Except SignalError Unit))
      fun s' result => s' = s.set id (some .idle) ∧ result = .ok () := by
  intro w result w' hobeys hrun
  have hsome : ∃ g, w.graph.resolve id target = .ok g := by
    unfold Graph.resolve
    rw [hobeys.waiting id hid]
    exact ⟨_, rfl⟩
  obtain ⟨g, hg⟩ := hsome
  have hresolve : Signal.resolve id target w = .ok (.ok (), { w with graph := g }) := by
    rw [Signal.resolve, Signal.graph_bind_run, hg]
    rfl
  have hlift : (lift (Signal.resolve id target) : EvalM σ (Except SignalError Unit)).run w =
      .ok (.ok (.ok ()), { w with graph := g }) := by
    show (Except.ok <$> Signal.resolve id target : SignalM σ (Except EvalError _)) w = _
    rw [map_eq_pure_bind, Signal.bind_run hresolve]
    rfl
  rw [hlift] at hrun
  cases hrun
  exact ⟨s.set id (some .idle), Stage.before_set id hid, hobeys.resolve hid htarget hg, rfl, rfl⟩

end Regime

/-! ### Complete stages -/

section

variable {s : Stage} {t t' : Tier} {id : SignalId}

/-- No reference waits for its target. -/
def Complete (s : Stage) : Prop := ∀ id : SignalId, s[id]? ≠ some none

/-- As many signals without limits. -/
def opened (s : Stage) : Stage := List.replicate s.length (some .ready)

/-- There are only signals without limits. -/
def Unlimited (s : Stage) : Prop := ∀ id, s.Known id → s.Readable .ready id

theorem Unlimited.complete (h : Unlimited s) : Complete s := by
  intro id hid
  obtain ⟨own, hown, -⟩ := h id (List.getElem?_eq_some_iff.mp hid).1
  rw [hid] at hown
  cases hown

theorem readable_opened (h : s.Known id) : (opened s).Readable t id := by
  refine ⟨.ready, ?_, .inl rfl⟩
  unfold opened
  exact List.getElem?_replicate_of_lt h

theorem opened_known : (opened s).Known id ↔ s.Known id := by
  unfold Stage.Known opened
  rw [List.length_replicate]

theorem before_opened (s : Stage) : s.Before (opened s) :=
  ⟨Nat.le_of_eq List.length_replicate.symm, fun _ _ h => readable_opened h.known⟩

theorem unlimited_opened (s : Stage) : Unlimited (opened s) :=
  fun _ hid => readable_opened (opened_known.mp hid)

theorem Complete.later {s' : Stage} (h : Complete s) (hs : s.Grows s') : Complete s' := by
  obtain ⟨more, rfl⟩ := hs
  intro id hid
  rcases Nat.lt_or_ge id s.length with hlt | hge
  · rw [List.getElem?_append_left hlt] at hid
    exact h id hid
  · rw [List.getElem?_append_right hge] at hid
    obtain ⟨t, -, ht⟩ := List.mem_map.mp (List.mem_of_getElem? hid)
    cases ht

theorem Obtainable.known (h : Obtainable s t id) : s.Known id := by
  cases t with
  | ready => exact Stage.Readable.known h
  | idle => exact h

theorem obtainable_opened (h : Obtainable s t id) : Obtainable (opened s) t' id := by
  cases t' with
  | ready => exact readable_opened h.known
  | idle => exact opened_known.mpr h.known

theorem within_opened {v : Value} (h : settling.Allows s t v) : settling.Allows (opened s) t' v :=
  h.mono (fun _ hid => readable_opened hid.known) fun _ hc => hc.mono fun _ => obtainable_opened

theorem code_opened {p : Program} {node : NodeId} {env : ValueEnv} (h : settling.code s t p node env) :
    settling.code (opened s) .ready p node env :=
  ⟨h.1.mono fun _ => obtainable_opened, by rintro ⟨⟩⟩

theorem chain_opened {own : Tier} {steps : List Step} (h : settling.discipline.Chain s own steps t) :
    settling.discipline.Chain (opened s) .ready steps .ready := by
  induction h with
  | nil _ => exact .nil (.inl rfl)
  | @cons _ mid _ step _ _ hstep _ ih =>
    refine .cons (.inl rfl) ?_ ih
    cases step with
    | combine recipe inputs slots => exact ⟨fun _ => rfl, fun v hv => within_opened (hstep.2 v hv)⟩
    | close program params body env => exact hstep.mono fun _ => obtainable_opened

theorem node_opened {n : Signal.Node Payload Step Choice} (h : n.Obeys settling.discipline s t) :
    n.Obeys settling.discipline (opened s) .ready where
  upstream id hid := readable_opened (h.upstream id hid).known
  target := h.target
  steps source steps role hform := by
    obtain ⟨own, hsource, hchain⟩ := h.steps source steps role hform
    exact ⟨.ready, readable_opened hsource.known, chain_opened hchain⟩
  choice source choice hform := by
    have hchoice := h.choice source choice hform
    cases choice with
    | member name => trivial
    | logical op program right env => exact code_opened hchoice
    | conditional program consequent alternate env =>
      exact ⟨code_opened hchoice.1, code_opened hchoice.2⟩
  outcome o ho := by
    have houtcome := h.outcome o ho
    cases o with
    | ok p => exact fun v hv => within_opened (houtcome v hv)
    | error e => exact houtcome
  inner inner hinner := readable_opened (h.inner inner hinner).known

/-- When no reference waits any longer, the signals that were idle are so no more. -/
theorem obeys_opened {g : Graph Payload Step Choice} (h : g.Obeys settling.discipline s)
    (hs : Complete s) : g.Obeys settling.discipline (opened s) := by
  refine ⟨by rw [opened, List.length_replicate]; exact h.size, fun id t hid => ?_, fun id hid => ?_⟩
  · have hlt : id < s.length := by
      rw [← List.length_replicate (n := s.length) (a := some Tier.ready)]
      exact (List.getElem?_eq_some_iff.mp hid).1
    have ht : t = .ready := by
      cases List.eq_of_mem_replicate (List.mem_of_getElem? hid)
      rfl
    rw [ht]
    cases hget : s[id]? with
    | none => exact absurd (List.getElem?_eq_none_iff.mp hget) (Nat.not_le_of_lt hlt)
    | some own? =>
      cases own? with
      | none => exact absurd hget (hs id)
      | some own => exact node_opened (h.node id own hget)
  · exact absurd hid ((unlimited_opened s).complete id)

/-- Without limits, only the signals in a value need to be there. -/
theorem Settled.unlimited {v : Value} (h : Settled s.Known v) (hs : Unlimited s) :
    Settled (s.Readable .ready) v :=
  h.mono hs

namespace Regime.Advances

variable {α : Type} {Q Q' : Stage → α → Prop} {x : EvalM σ α}

/-- An evaluation that ends with no reference waiting ends without limits. -/
theorem opened (h : settling.Advances s x Q) (hcomplete : ∀ s' a, Q s' a → Complete s')
    (hQ : ∀ s' a, Q s' a → Q' (opened s') a) : settling.Advances s x Q' := by
  intro w result w' hobeys hrun
  have hresult := h hobeys hrun
  cases result with
  | error e => exact hresult
  | ok a =>
    obtain ⟨s', hs, hobeys', ha⟩ := hresult
    exact ⟨Eval.opened s', hs.trans (before_opened s'), obeys_opened hobeys' (hcomplete s' a ha),
      hQ s' a ha⟩

end Regime.Advances

end

end ReactiveDoc.Eval
