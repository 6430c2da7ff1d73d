import Mathlib.Data.List.Forall2
import ReactiveDoc.Proofs.Signal.Marking
import ReactiveDoc.Signal.Update

namespace ReactiveDoc.Signal

/-!
# Coherent graphs

What every operation on signals keeps true of what a signal remembers.

* `Behaviour` — what the functions of maps and flat maps may give.
* `Behaviour.Answers` — the outcome that a signal remembers is the one for its sources' outcomes.
* `CoherentAt` — what a signal remembers is right as far as its sources have the versions that it
  saw; if it is up to date, they have these versions and it is told of their next change.
* `CoherentAt.carry` — a signal stays coherent while what it remembers stays the same and its
  sources only move ahead.
-/

variable {P F Φ : Type}

/-! ### Outcomes that are remembered -/

/-- Two outcomes are one, or signals do not tell them apart. -/
def Near [BEq P] (o o' : Outcome P) : Prop := o = o' ∨ o.same o' = true

section

variable [BEq P] {o : Outcome P}

theorem Near.eq_error {e : SignalError} (h : Near o (.error e)) : o = .error e := by
  rcases h with h | h
  · exact h
  · cases o with
    | ok p => cases h
    | error e' => rw [eq_of_beq (show (e' == e) = true from h)]

theorem Near.of_error {e : SignalError} (h : Near (.error e) o) : o = .error e := by
  rcases h with h | h
  · exact h.symm
  · cases o with
    | ok p => cases h
    | error e' => rw [eq_of_beq (show (e == e') = true from h)]

theorem Near.exists_ok {p : P} (h : Near o (.ok p)) :
    ∃ q, o = .ok q ∧ (q = p ∨ (q == p) = true) := by
  rcases h with rfl | h
  · exact ⟨p, rfl, .inl rfl⟩
  · cases o with
    | ok q => exact ⟨q, rfl, .inr h⟩
    | error e => cases h

end

/-- A memory is a later one: it has moved on to another version or has the same outcome. -/
structure Memo.Ahead (m m' : Memo P) : Prop where
  version_le : m.version ≤ m'.version
  outcome?_eq : m'.version = m.version → m'.outcome?.isSome = true → m'.outcome? = m.outcome?

namespace Memo

theorem Ahead.refl (m : Memo P) : m.Ahead m := ⟨Nat.le_refl _, fun _ _ => rfl⟩

theorem Ahead.trans {m m' m'' : Memo P} (h : m.Ahead m') (h' : m'.Ahead m'') : m.Ahead m'' := by
  have hle := h.version_le
  have hle' := h'.version_le
  refine ⟨by omega, fun hversion hsome => ?_⟩
  have heq := h'.outcome?_eq (by omega) hsome
  rw [heq]
  exact h.outcome?_eq (by omega) (by rwa [← heq])

variable [BEq P]

theorem store_of_holds {m : Memo P} {o : Outcome P} (h : m.holds o = true) : m.store o = m := by
  unfold store
  rw [if_pos h]

theorem store_of_not_holds {m : Memo P} {o : Outcome P} (h : m.holds o = false) :
    m.store o = { m with outcome? := some o, version := m.version + 1 } := by
  unfold store
  rw [h]
  rfl

theorem store_version (m : Memo P) (o : Outcome P) :
    (m.store o).version = if m.holds o then m.version else m.version + 1 := by
  unfold store
  split <;> rfl

theorem store_outcome? (m : Memo P) (o : Outcome P) :
    (m.store o).outcome? = if m.holds o then m.outcome? else some o := by
  unfold store
  split <;> rfl

theorem ahead_store (m : Memo P) (o : Outcome P) : m.Ahead (m.store o) := by
  cases h : m.holds o with
  | true =>
    rw [store_of_holds h]
    exact .refl m
  | false =>
    rw [store_of_not_holds h]
    exact ⟨Nat.le_succ _, fun hversion => absurd hversion (Nat.succ_ne_self _)⟩

@[simp] theorem store_dirty (m : Memo P) (o : Outcome P) : (m.store o).dirty = m.dirty := by
  unfold store
  split <;> rfl

theorem isSome_store (m : Memo P) (o : Outcome P) : (m.store o).outcome?.isSome = true := by
  unfold store
  split
  · rename_i h
    unfold holds at h
    cases hm : m.outcome? with
    | none => simp [hm] at h
    | some last => rfl
  · rfl

/-- The outcome that was stored is remembered, or one that is not told apart from it. -/
theorem near_store (m : Memo P) (o : Outcome P) : Near (m.store o).read o := by
  unfold store
  split
  · rename_i h
    unfold holds at h
    cases hm : m.outcome? with
    | none => simp [hm] at h
    | some last =>
      rw [hm] at h
      right
      unfold read
      rw [hm]
      exact h
  · exact .inl rfl

/-- Whether a signal is up to date does not matter for what it stores. -/
theorem store_congr (m : Memo P) {m' : Memo P} (houtcome : m'.outcome? = m.outcome?)
    (hversion : m'.version = m.version) (o : Outcome P) :
    (m'.store o).outcome? = (m.store o).outcome? ∧ (m'.store o).version = (m.store o).version := by
  have hholds : m'.holds o = m.holds o := by
    unfold holds
    rw [houtcome]
  unfold store
  rw [hholds]
  split
  · exact ⟨houtcome, hversion⟩
  · exact ⟨rfl, congrArg (· + 1) hversion⟩

/-- A signal whose versions count its outcomes keeps counting them. -/
theorem counted_store {m : Memo P} (h : m.outcome?.isSome = true ↔ 0 < m.version)
    (o : Outcome P) : (m.store o).outcome?.isSome = true ↔ 0 < (m.store o).version := by
  unfold store
  split
  · exact h
  · simp

end Memo

/-! ### Functions of signals -/

/-- An outcome is good if its value is. -/
def Good (good : P → Prop) (o : Outcome P) : Prop := ∀ p, o = .ok p → good p

theorem good_error {good : P → Prop} (e : SignalError) : Good good (.error e) :=
  fun _ h => nomatch h

theorem good_ok {good : P → Prop} {p : P} (h : good p) : Good good (.ok p) := by
  rintro _ ⟨⟩
  exact h

/-- The outcome that the signal remembers is good, and if it is a map all its steps are fine. -/
structure Node.All (good : P → Prop) (fine : F → Prop) (n : Node P F Φ) : Prop where
  outcome : ∀ o, n.memo.outcome? = some o → Good good o
  steps : ∀ source steps role, n.form = .map source steps role → ∀ f ∈ steps, fine f

/-- This holds of every signal. -/
def Graph.All (good : P → Prop) (fine : F → Prop) (g : Graph P F Φ) : Prop :=
  ∀ id, (g.node id).All good fine

section

variable {good : P → Prop} {fine : F → Prop} {g : Graph P F Φ} {n : Node P F Φ}

/-- Only the form and the outcome matter. -/
theorem Node.All.congr {n' : Node P F Φ} (h : n.All good fine) (hform : n'.form = n.form)
    (houtcome : n'.memo.outcome? = n.memo.outcome?) : n'.All good fine := by
  refine ⟨?_, ?_⟩
  · rw [houtcome]
    exact h.outcome
  · rw [hform]
    exact h.steps

/-- A good outcome may be remembered. -/
theorem Node.All.store [BEq P] (h : n.All good fine) {o : Outcome P} (ho : Good good o) :
    ({ n with memo := n.memo.store o } : Node P F Φ).All good fine := by
  refine ⟨fun o' ho' => ?_, h.steps⟩
  have hcases : (n.memo.store o).outcome? = n.memo.outcome? ∨
      (n.memo.store o).outcome? = some o := by
    cases hholds : n.memo.holds o with
    | true => exact .inl (by rw [Memo.store_of_holds hholds])
    | false => exact .inr (by rw [Memo.store_of_not_holds hholds])
  rcases hcases with hsame | hnew
  · rw [hsame] at ho'
    exact h.outcome o' ho'
  · rw [hnew] at ho'
    cases ho'
    exact ho

/-- A signal that is not there remembers nothing that could be bad. -/
theorem Node.all_unresolved : (Graph.unresolved : Node P F Φ).All good fine := by
  refine ⟨?_, fun _ _ _ hform => nomatch hform⟩
  rintro _ ⟨⟩
  exact good_error _

namespace Graph.All

/-- Without signals there is nothing to remember. -/
theorem empty : ({} : Graph P F Φ).All good fine := by
  intro id
  rw [Graph.node_of_size_le _ (Nat.zero_le id)]
  exact Node.all_unresolved

/-- What is read is good. -/
theorem value (h : g.All good fine) (id : SignalId) : Good good (g.value id) := by
  unfold Graph.value Memo.read
  cases hm : (g.node (g.anchor id)).memo.outcome? with
  | none => exact good_error _
  | some o => exact (h (g.anchor id)).outcome o hm

/-- The values of several signals are good, if all of them have one. -/
theorem valueAll (h : g.All good fine) {sources : List SignalId} {ps : List P}
    (hall : g.valueAll sources = .ok ps) : ∀ p ∈ ps, good p := by
  unfold Graph.valueAll at hall
  induction sources generalizing ps with
  | nil =>
    cases hall
    simp
  | cons s rest ih =>
    rw [List.mapM_cons] at hall
    cases hv : g.value s with
    | error e =>
      rw [hv] at hall
      cases hall
    | ok p =>
      cases hrest : rest.mapM g.value with
      | error e =>
        rw [hv, hrest] at hall
        cases hall
      | ok qs =>
        rw [hv, hrest] at hall
        cases hall
        intro q hq
        rcases List.mem_cons.mp hq with rfl | hq
        · exact h.value s _ hv
        · exact ih hrest q hq

end Graph.All

end

/-- What functions of signals may give: the values that signals may carry and the steps that maps
    may have, the images under a step, the signals that a flat map over a source may follow for a
    value, and whether all of these fit below a rank.  It may be that choosing one adds to the
    graph, and that no flat map follows its own source. -/
structure Behaviour (P F Φ : Type) where
  good : P → Prop
  fine : F → Prop
  image : F → P → Outcome P → Prop
  chosen : Graph P F Φ → SignalId → Φ → P → SignalId → Prop
  room : Graph P F Φ → (SignalId → Nat) → SignalId → Φ → Nat → Prop
  adds : Prop
  apart : Prop

/-- The steps of a map lead from one outcome to another; the first failure stays. -/
inductive Behaviour.Images (b : Behaviour P F Φ) : List F → Outcome P → Outcome P → Prop
  | nil (o : Outcome P) : b.Images [] o o
  | failed {f : F} {steps : List F} {e : SignalError} {o : Outcome P} :
      b.Images steps (.error e) o → b.Images (f :: steps) (.error e) o
  | step {f : F} {steps : List F} {p : P} {o o' : Outcome P} :
      b.image f p o → b.Images steps o o' → b.Images (f :: steps) (.ok p) o'

namespace Graph

/-- The outcome of a signal is final until something changes: it is up to date, or is never
    computed from others. -/
def UpToDate (g : Graph P F Φ) (id : SignalId) : Prop :=
  (g.node id).form.isDerived = true → (g.node id).memo.dirty = false

/-- The signal that `id` stands for has an outcome. -/
def Computed (g : Graph P F Φ) (id : SignalId) : Prop :=
  (g.node (g.anchor id)).memo.outcome?.isSome = true

theorem not_upToDate_iff (g : Graph P F Φ) (id : SignalId) :
    ¬ g.UpToDate id ↔ (g.node id).form.isDerived = true ∧ (g.node id).memo.dirty = true := by
  unfold UpToDate
  rw [Classical.not_imp, Bool.not_eq_false]

/-- The outcomes of several signals depend on that of each. -/
theorem mapM_congr {read read' : SignalId → Outcome P} {sources : List SignalId}
    (h : ∀ s ∈ sources, read s = read' s) : sources.mapM read = sources.mapM read' := by
  induction sources with
  | nil => rfl
  | cons s rest ih =>
    rw [List.mapM_cons, List.mapM_cons, h s (List.mem_cons_self ..),
      ih fun t ht => h t (List.mem_cons_of_mem _ ht)]

theorem valueAll_congr {g g' : Graph P F Φ} {sources : List SignalId}
    (h : ∀ s ∈ sources, g'.value s = g.value s) : g'.valueAll sources = g.valueAll sources :=
  mapM_congr h

/-- A later graph: references may have got a target and signals may have been added. -/
structure Evolves (g g' : Graph P F Φ) : Prop where
  size_le : g.size ≤ g'.size
  form_eq : ∀ id, (g.node id).form ≠ .reference none → (g'.node id).form = (g.node id).form
  constant_eq : ∀ id, (g.node id).form = .constant → (g'.node id).memo = (g.node id).memo

/-- Every signal comes from, follows and may follow signals of the graph of lower rank only, and
    nothing is told of changes that is not computed.  All outcomes are good and all steps fine. -/
structure Shaped (b : Behaviour P F Φ) (rank : SignalId → Nat) (g : Graph P F Φ) : Prop where
  upstream : ∀ id, ∀ s ∈ (g.node id).form.upstream, s < g.size ∧ rank s < rank id
  inner : ∀ id inner, (g.node id).inner? = some inner →
    (∃ source choice p, (g.node id).form = .flatMap source choice ∧
      b.chosen g source choice p inner.signal) ∧ inner.signal < g.size ∧
      rank inner.signal < rank id
  room : ∀ id source choice, (g.node id).form = .flatMap source choice →
    b.room g rank source choice (rank id)
  registered : ∀ a id, g.Registered a id → (g.node id).form.isDerived = true
  all : g.All b.good b.fine

theorem Shaped.descends {b : Behaviour P F Φ} {rank : SignalId → Nat} {g : Graph P F Φ}
    (h : g.Shaped b rank) : g.Descends rank :=
  fun id s hs => (h.upstream id s hs).2

theorem Shaped.upstream_lt {b : Behaviour P F Φ} {rank : SignalId → Nat} {g : Graph P F Φ}
    (h : g.Shaped b rank) (id : SignalId) : ∀ s ∈ (g.node id).form.upstream, s < g.size :=
  fun s hs => (h.upstream id s hs).1

theorem Shaped.anchor_lt {b : Behaviour P F Φ} {rank : SignalId → Nat} {g : Graph P F Φ}
    (h : g.Shaped b rank) {id : SignalId} (hid : id < g.size) : g.anchor id < g.size :=
  anchor_lt_size h.descends (fun j => h.upstream_lt j) id hid

end Graph

/-- A signal that may be followed for a value may also be followed in every later graph, and there
    is room for it.  Where flat maps are kept apart from their sources, it is not the source. -/
structure Behaviour.Stable (b : Behaviour P F Φ) : Prop where
  chosen : ∀ {g g' : Graph P F Φ} {source choice p id}, g.Evolves g' →
    b.chosen g source choice p id → b.chosen g' source choice p id
  room : ∀ {g g' : Graph P F Φ} {rank rank' : SignalId → Nat} {source choice k}, g.Evolves g' →
    (∀ j < g.size, rank' j = rank j) → b.room g rank source choice k →
      b.room g' rank' source choice k
  apart : b.apart → ∀ {g : Graph P F Φ} {rank source choice p id}, g.Shaped b rank →
    b.chosen g source choice p id → g.anchor id ≠ g.anchor source

/-- A signal that is up to date has seen all that there is, and will be told of the next change.
    A flat map may have lost touch with its source, if it may have followed that. -/
structure Settled (b : Behaviour P F Φ) (g : Graph P F Φ) (id : SignalId) : Prop where
  computed : (g.node id).memo.outcome?.isSome = true
  seen_eq : (g.node id).seen = (g.node id).form.upstream.map g.version
  upToDate : ∀ s ∈ (g.node id).form.upstream, g.UpToDate (g.anchor s)
  registered : b.apart ∨ (∀ source choice, (g.node id).form ≠ .flatMap source choice) →
    ∀ s ∈ (g.node id).form.upstream, (g.node (g.anchor s)).form.remembers = true →
      g.Registered (g.anchor s) id
  inner_seen : ∀ inner, (g.node id).inner? = some inner →
    inner.seen = max (g.version inner.signal) 1
  inner_upToDate : ∀ inner, (g.node id).inner? = some inner → g.UpToDate (g.anchor inner.signal)
  inner_registered : ∀ inner, (g.node id).inner? = some inner →
    (g.node (g.anchor inner.signal)).form.remembers = true →
      g.Registered (g.anchor inner.signal) id

/-! ### What a change leaves as it is -/

section

variable {g g' : Graph P F Φ}

/-- If a signal had seen at most the versions that its sources had, and now has seen exactly those
    that they have, they have not moved in between. -/
theorem version_eq_of_seen {sources : List SignalId} {seen : List Nat}
    (hseen : seen = [] ∨ List.Forall₂ (· ≤ ·) seen (sources.map g.version))
    (hle : ∀ s ∈ sources, g.version s ≤ g'.version s) (heq : seen = sources.map g'.version) :
    ∀ s ∈ sources, g'.version s = g.version s := by
  subst heq
  rcases hseen with hnil | hall
  · intro s hs
    rw [List.map_eq_nil_iff.mp hnil] at hs
    cases hs
  · rw [List.forall₂_map_left_iff, List.forall₂_map_right_iff, List.forall₂_same] at hall
    intro s hs
    exact Nat.le_antisymm (hall s hs) (hle s hs)

/-- Versions that were seen stay behind. -/
theorem seen_le_of_le {sources : List SignalId} {seen : List Nat}
    (hseen : List.Forall₂ (· ≤ ·) seen (sources.map g.version))
    (hle : ∀ s ∈ sources, g.version s ≤ g'.version s) :
    List.Forall₂ (· ≤ ·) seen (sources.map g'.version) := by
  induction sources generalizing seen with
  | nil => exact hseen
  | cons s rest ih =>
    rw [List.map_cons] at hseen ⊢
    cases hseen with
    | cons hs hrest =>
      exact .cons (hs.trans (hle s (List.mem_cons_self ..)))
        (ih hrest fun t ht => hle t (List.mem_cons_of_mem _ ht))

/-- What a change of the graph does not do to a coherent signal: it leaves what the signal
    remembers, moves its sources ahead only, and lets it be up to date only if nothing has
    happened to them. -/
structure Carried (g g' : Graph P F Φ) (id : SignalId) : Prop where
  form_eq : (g'.node id).form = (g.node id).form
  outcome?_eq : (g'.node id).memo.outcome? = (g.node id).memo.outcome?
  version_eq : (g'.node id).memo.version = (g.node id).memo.version
  seen_eq : (g'.node id).seen = (g.node id).seen
  inner?_eq : (g'.node id).inner? = (g.node id).inner?
  ahead : ∀ s ∈ (g.node id).form.upstream,
    (g.node (g.anchor s)).memo.Ahead (g'.node (g'.anchor s)).memo
  inner_le : ∀ inner, (g.node id).inner? = some inner →
    g.version inner.signal ≤ g'.version inner.signal
  inner_zero : ∀ inner, (g.node id).inner? = some inner → g'.version inner.signal = 0 →
    (g'.node (g'.anchor inner.signal)).form = .reference none
  inner_value : ∀ inner, (g.node id).inner? = some inner →
    max (g'.version inner.signal) 1 = max (g.version inner.signal) 1 → g'.Computed inner.signal →
      g.Computed inner.signal ∧ g'.value inner.signal = g.value inner.signal
  quiet : ¬ g'.UpToDate id → ∀ d, g'.Registered id d → ¬ g.UpToDate id ∧ g.Registered id d
  waiting : (g.node id).form = .reference none → (g'.node id).memo = (g.node id).memo
  clean : (g'.node id).form.isDerived = true → (g'.node id).memo.dirty = false →
    (g.node id).memo.dirty = false
  stay : (g'.node id).form.isDerived = true → (g'.node id).memo.dirty = false →
    ∀ s, (s ∈ (g.node id).form.upstream ∨ ∃ inner, (g.node id).inner? = some inner ∧
      inner.signal = s) →
    g'.anchor s = g.anchor s ∧ (g'.node (g.anchor s)).form = (g.node (g.anchor s)).form ∧
      (g'.node (g.anchor s)).memo.version = (g.node (g.anchor s)).memo.version ∧
      g'.UpToDate (g.anchor s) ∧
      (g.Registered (g.anchor s) id → g'.Registered (g.anchor s) id)

theorem Graph.value_eq_of_ahead {s : SignalId}
    (h : (g.node (g.anchor s)).memo.Ahead (g'.node (g'.anchor s)).memo)
    (hversion : g'.version s = g.version s) (hcomputed : g'.Computed s) :
    g.Computed s ∧ g'.value s = g.value s := by
  have heq := h.outcome?_eq hversion hcomputed
  unfold Computed at hcomputed ⊢
  unfold value Memo.read
  rw [← heq]
  exact ⟨hcomputed, rfl⟩

/-- A signal that is carried over stays settled. -/
theorem Settled.carry {b : Behaviour P F Φ} {id : SignalId} (h : Settled b g id) (hc : Carried g g' id)
    (hd : (g'.node id).form.isDerived = true) (hclean : (g'.node id).memo.dirty = false) :
    Settled b g' id := by
  have hstay := hc.stay hd hclean
  -- A signal that is not dirty has not been told of anything, so all that it reads has stayed.
  have hversion : ∀ s, (s ∈ (g.node id).form.upstream ∨ ∃ inner, (g.node id).inner? = some inner ∧
      inner.signal = s) → g'.version s = g.version s := by
    intro s hs
    obtain ⟨ha, -, hv, -⟩ := hstay s hs
    unfold Graph.version
    rw [ha, hv]
  refine ⟨?_, ?_, ?_, ?_, ?_, ?_, ?_⟩
  · rw [hc.outcome?_eq]
    exact h.computed
  · rw [hc.seen_eq, hc.form_eq, h.seen_eq]
    exact List.map_congr_left fun s hs => (hversion s (.inl hs)).symm
  · rw [hc.form_eq]
    intro s hs
    obtain ⟨ha, -, -, hup, -⟩ := hstay s (.inl hs)
    rw [ha]
    exact hup
  · rw [hc.form_eq]
    intro hne s hs hrem
    obtain ⟨ha, hf, -, -, hreg⟩ := hstay s (.inl hs)
    rw [ha] at hrem ⊢
    rw [hf] at hrem
    exact hreg (h.registered hne s hs hrem)
  · rw [hc.inner?_eq]
    intro inner hi
    rw [hversion _ (.inr ⟨inner, hi, rfl⟩)]
    exact h.inner_seen inner hi
  · rw [hc.inner?_eq]
    intro inner hi
    obtain ⟨ha, -, -, hup, -⟩ := hstay _ (.inr ⟨inner, hi, rfl⟩)
    rw [ha]
    exact hup
  · rw [hc.inner?_eq]
    intro inner hi hrem
    obtain ⟨ha, hf, -, -, hreg⟩ := hstay _ (.inr ⟨inner, hi, rfl⟩)
    rw [ha] at hrem ⊢
    rw [hf] at hrem
    exact hreg (h.inner_registered inner hi hrem)

end

/-! ### Coherence -/

variable [Carrier P]

/-- The outcome that a signal remembers is the one for its sources' outcomes.  For a flat map with
    a value to choose by, the followed signal is: it decides about the outcome. -/
def Behaviour.Answers (b : Behaviour P F Φ) (g : Graph P F Φ) (n : Node P F Φ) : Prop :=
  match n.form with
  | .map source steps _ => ∃ o, b.Images steps (g.value source) o ∧ Near n.memo.read o
  | .lift source => Near n.memo.read (.ok (Carrier.ofOutcome (g.value source)))
  | .join sources => Near n.memo.read ((g.valueAll sources).map Carrier.ofList)
  | .flatMap source choice =>
      match g.value source with
      | .ok p => ∃ inner, n.inner? = some inner ∧ b.chosen g source choice p inner.signal
      | .error e => n.inner? = none ∧ Near n.memo.read (.error e)
  | .constant | .cell | .label .. | .reference _ => True

/-- What a signal remembers is right as far as its sources have the versions that it saw. -/
structure CoherentAt (b : Behaviour P F Φ) (g : Graph P F Φ) (id : SignalId) : Prop where
  given : (g.node id).form = .constant ∨ (g.node id).form = .cell →
    (g.node id).memo.outcome?.isSome = true ∧ 0 < (g.node id).memo.version
  waiting : (g.node id).form = .reference none →
    (g.node id).memo = ⟨some (.error .unresolvedRef), 0, false⟩
  counted : (g.node id).form.isDerived = true →
    ((g.node id).memo.outcome?.isSome = true ↔ 0 < (g.node id).memo.version)
  seen_le : (g.node id).form.isDerived = true → (g.node id).seen = [] ∨
    List.Forall₂ (· ≤ ·) (g.node id).seen ((g.node id).form.upstream.map g.version)
  answers : (g.node id).form.isDerived = true → (g.node id).memo.outcome?.isSome = true →
    (g.node id).seen = (g.node id).form.upstream.map g.version →
    (∀ s ∈ (g.node id).form.upstream, g.Computed s) → b.Answers g (g.node id)
  /-- `0` is for a signal that was not read, so version `0` of a reference counts as `1`. -/
  inner_seen : ∀ inner, (g.node id).inner? = some inner →
    0 < inner.seen ∧ inner.seen ≤ max (g.version inner.signal) 1 ∧
      (g.version inner.signal = 0 → (g.node (g.anchor inner.signal)).form = .reference none)
  inner_read : ∀ inner, (g.node id).inner? = some inner →
    inner.seen = max (g.version inner.signal) 1 → g.Computed inner.signal →
      Near (g.node id).memo.read (g.value inner.signal)
  silent : ¬ g.UpToDate id → ∀ d, ¬ g.Registered id d
  settled : (g.node id).form.isDerived = true → (g.node id).memo.dirty = false → Settled b g id

/-! ### Reading a coherent signal -/

section

variable {b : Behaviour P F Φ} {g g' : Graph P F Φ}

/-- A signal that stands for no other and is up to date has an outcome. -/
theorem CoherentAt.isSome {id : SignalId} (h : CoherentAt b g id)
    (htarget : (g.node id).form.target? = none) (hup : g.UpToDate id) :
    (g.node id).memo.outcome?.isSome = true := by
  rcases Form.eq_of_target?_none htarget with hd | hf | hf | hf
  · exact (h.settled hd (hup hd)).computed
  · exact (h.given (.inl hf)).1
  · exact (h.given (.inr hf)).1
  · rw [h.waiting hf]
    rfl

/-- Only a reference without a target has an outcome at version `0`. -/
theorem CoherentAt.form_of_version_zero {id : SignalId} (h : CoherentAt b g id)
    (htarget : (g.node id).form.target? = none)
    (hsome : (g.node id).memo.outcome?.isSome = true) (hzero : (g.node id).memo.version = 0) :
    (g.node id).form = .reference none := by
  rcases Form.eq_of_target?_none htarget with hd | hf | hf | hf
  · have := (h.counted hd).mp hsome
    omega
  · have := (h.given (.inl hf)).2
    omega
  · have := (h.given (.inr hf)).2
    omega
  · exact hf

/-- Of a signal that is not computed from others only its given outcome matters. -/
theorem coherentAt_of_not_derived {id : SignalId} (hd : (g.node id).form.isDerived = false)
    (hgiven : (g.node id).form = .constant ∨ (g.node id).form = .cell →
      (g.node id).memo.outcome?.isSome = true ∧ 0 < (g.node id).memo.version)
    (hwaiting : (g.node id).form = .reference none →
      (g.node id).memo = ⟨some (.error .unresolvedRef), 0, false⟩)
    (hinner : (g.node id).inner? = none) : CoherentAt b g id := by
  have hnot : ¬ (g.node id).form.isDerived = true := by
    rw [hd]
    exact Bool.false_ne_true
  refine ⟨hgiven, hwaiting, fun h => absurd h hnot, fun h => absurd h hnot,
    fun h => absurd h hnot, ?_, ?_, ?_, fun h => absurd h hnot⟩
  · intro inner hi
    rw [hinner] at hi
    cases hi
  · intro inner hi
    rw [hinner] at hi
    cases hi
  · intro hup
    rw [Graph.not_upToDate_iff] at hup
    exact absurd hup.1 hnot

/-- A signal that is not there is coherent. -/
theorem coherentAt_of_size_le {id : SignalId} (h : g.size ≤ id) : CoherentAt b g id := by
  have hnode := g.node_of_size_le h
  refine coherentAt_of_not_derived (by rw [hnode]; rfl) ?_ ?_ (by rw [hnode]; rfl)
  · rw [hnode]
    rintro (hf | hf) <;> cases hf
  · rw [hnode]
    exact fun _ => rfl

/-! ### Staying coherent -/

/-- Answers depend on the sources' outcomes only. -/
theorem Behaviour.Answers.congr
    (hchosen : ∀ source choice p id, b.chosen g source choice p id → b.chosen g' source choice p id)
    {n n' : Node P F Φ} (hform : n'.form = n.form) (hread : n'.memo.read = n.memo.read)
    (hinner : n'.inner? = n.inner?)
    (hvalue : ∀ s ∈ n.form.upstream, g'.value s = g.value s) (h : b.Answers g n) :
    b.Answers g' n' := by
  unfold Answers at h ⊢
  rw [hform, hread, hinner]
  cases hf : n.form with
  | map source steps role =>
    rw [hf] at h hvalue
    simp only at h ⊢
    rw [hvalue source (by simp [Form.upstream])]
    exact h
  | lift source =>
    rw [hf] at h hvalue
    simp only at h ⊢
    rw [hvalue source (by simp [Form.upstream])]
    exact h
  | join sources =>
    rw [hf] at h hvalue
    simp only at h ⊢
    have hall : g'.valueAll sources = g.valueAll sources := Graph.valueAll_congr hvalue
    rw [hall]
    exact h
  | flatMap source choice =>
    rw [hf] at h hvalue
    simp only at h ⊢
    rw [hvalue source (by simp [Form.upstream])]
    cases hv : g.value source with
    | ok p =>
      simp only [hv] at h ⊢
      obtain ⟨inner, hi, hc⟩ := h
      exact ⟨inner, hi, hchosen _ _ _ _ hc⟩
    | error e =>
      simp only [hv] at h ⊢
      exact h
  | constant => trivial
  | cell => trivial
  | label name source => trivial
  | reference target? => trivial

/-- A signal that is carried over stays coherent. -/
theorem CoherentAt.carry {id : SignalId} (h : CoherentAt b g id) (hc : Carried g g' id)
    (hchosen : ∀ source choice p id, b.chosen g source choice p id → b.chosen g' source choice p id) :
    CoherentAt b g' id := by
  have hread : (g'.node id).memo.read = (g.node id).memo.read := by
    unfold Memo.read
    rw [hc.outcome?_eq]
  have hle : ∀ s ∈ (g.node id).form.upstream, g.version s ≤ g'.version s :=
    fun s hs => (hc.ahead s hs).version_le
  -- Part by part: the signal has kept what it remembers, and its sources have not gone back.
  refine ⟨?_, ?_, ?_, ?_, ?_, ?_, ?_, ?_, ?_⟩
  · rw [hc.form_eq, hc.outcome?_eq, hc.version_eq]
    exact h.given
  · rw [hc.form_eq]
    intro hf
    rw [hc.waiting hf, h.waiting hf]
  · rw [hc.form_eq, hc.outcome?_eq, hc.version_eq]
    exact h.counted
  · rw [hc.form_eq, hc.seen_eq]
    intro hd
    rcases h.seen_le hd with hnil | hall
    · exact .inl hnil
    · exact .inr (seen_le_of_le hall hle)
  · rw [hc.form_eq, hc.outcome?_eq, hc.seen_eq]
    intro hd hsome heq hcomputed
    have hversion := version_eq_of_seen (h.seen_le hd) hle heq
    have hvalue := fun s hs =>
      Graph.value_eq_of_ahead (hc.ahead s hs) (hversion s hs) (hcomputed s hs)
    have hanswers := h.answers hd hsome
      (heq.trans (List.map_congr_left hversion)) fun s hs => (hvalue s hs).1
    exact hanswers.congr hchosen hc.form_eq hread hc.inner?_eq fun s hs => (hvalue s hs).2
  · rw [hc.inner?_eq]
    intro inner hi
    obtain ⟨hpos, hseen, -⟩ := h.inner_seen inner hi
    have := hc.inner_le inner hi
    exact ⟨hpos, by omega, hc.inner_zero inner hi⟩
  · rw [hc.inner?_eq, hread]
    intro inner hi heq hcomputed
    obtain ⟨-, hseen, -⟩ := h.inner_seen inner hi
    have hle := hc.inner_le inner hi
    have hmax : max (g'.version inner.signal) 1 = max (g.version inner.signal) 1 := by omega
    obtain ⟨hbefore, hvalue⟩ := hc.inner_value inner hi hmax hcomputed
    rw [hvalue]
    exact h.inner_read inner hi (by omega) hbefore
  · intro hup d hd
    obtain ⟨hbefore, hreg⟩ := hc.quiet hup d hd
    exact h.silent hbefore d hreg
  · intro hd hclean
    exact (h.settled (by rwa [← hc.form_eq]) (hc.clean hd hclean)).carry hc hd hclean

end

end ReactiveDoc.Signal
