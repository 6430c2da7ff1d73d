import Mathlib.Data.Finset.Card
import Mathlib.Data.Finset.Filter
import Mathlib.Data.Finset.Range
import ReactiveDoc.Signal.Graph

namespace ReactiveDoc.Signal

/-!
# The shape of a graph

What a graph looks like when the outcomes, marks and registrations are left out.

* `Form.upstream` — the signals that a signal comes from or stands for.
* `Form.isDerived` — the signal computes its outcome from others.
* `Graph.node_modify` — a change of one signal, seen from every signal.
* `Graph.Descends` — a ranking along which every signal lies above the ones it comes from.
* `Graph.anchor_of_target?`, `Graph.target?_anchor` — in a ranked graph `anchor` follows labels
  and references to the end.
-/

variable {P F Φ : Type}

namespace Form

/-- The signals that a signal of a given form comes from, or stands for. -/
def upstream : Form F Φ → List SignalId
  | constant | cell => []
  | map source _ _ | lift source | flatMap source _ | label _ source => [source]
  | join sources => sources
  | reference target? => target?.toList

/-- Signals of this form compute their outcome from other signals. -/
def isDerived : Form F Φ → Bool
  | map .. | lift _ | flatMap .. | join _ => true
  | constant | cell | label .. | reference _ => false

theorem mem_upstream_of_target? {form : Form F Φ} {t : SignalId} (h : form.target? = some t) :
    t ∈ form.upstream := by
  cases form <;> simp_all [target?, upstream]

theorem target?_of_isDerived {form : Form F Φ} (h : form.isDerived = true) :
    form.target? = none := by
  cases form <;> simp_all [target?, isDerived]

/-- What neither is computed nor stands for another signal was given its outcome, or waits for a
    target. -/
theorem eq_of_target?_none {form : Form F Φ} (h : form.target? = none) :
    form.isDerived = true ∨ form = constant ∨ form = cell ∨ form = reference none := by
  cases form <;> simp_all [target?, isDerived]

theorem remembers_of_isDerived {form : Form F Φ} (h : form.isDerived = true) :
    form.remembers = true := by
  cases form <;> simp_all [remembers, isDerived]

end Form

namespace Graph

/-! ### Access to signals -/

theorem node_of_size_le (g : Graph P F Φ) {id : SignalId} (h : g.size ≤ id) :
    g.node id = unresolved := by
  unfold size at h
  simp [node, Array.getD_eq_getD_getElem?, h]

/-- Only references without a target read like signals that are not there. -/
theorem lt_size_of_form_ne (g : Graph P F Φ) {id : SignalId}
    (h : (g.node id).form ≠ .reference none) : id < g.size := by
  by_contra hlt
  exact h (by rw [g.node_of_size_le (Nat.le_of_not_lt hlt)]; rfl)

theorem lt_size_of_isDerived (g : Graph P F Φ) {id : SignalId}
    (h : (g.node id).form.isDerived = true) : id < g.size := by
  apply g.lt_size_of_form_ne
  intro hf
  rw [hf] at h
  exact absurd h (by simp [Form.isDerived])

@[simp] theorem size_modify (g : Graph P F Φ) (id : SignalId) (f : Node P F Φ → Node P F Φ) :
    (g.modify id f).size = g.size := by
  simp [modify, size]

theorem node_modify (g : Graph P F Φ) (id j : SignalId) (f : Node P F Φ → Node P F Φ) :
    (g.modify id f).node j = if j = id ∧ id < g.size then f (g.node id) else g.node j := by
  simp only [node, modify, size, Array.getD_eq_getD_getElem?, Array.getElem?_modify]
  by_cases hj : j = id
  · subst hj
    by_cases hlt : j < g.nodes.size
    · simp [hlt]
    · simp [hlt]
  · have hne : ¬ id = j := fun h => hj h.symm
    simp [hj, hne]

theorem node_modify_self (g : Graph P F Φ) {id : SignalId} (f : Node P F Φ → Node P F Φ)
    (h : id < g.size) : (g.modify id f).node id = f (g.node id) := by
  rw [node_modify, if_pos ⟨rfl, h⟩]

theorem node_modify_of_ne (g : Graph P F Φ) {id j : SignalId} (f : Node P F Φ → Node P F Φ)
    (h : j ≠ id) : (g.modify id f).node j = g.node j := by
  rw [node_modify, if_neg (fun hj => h hj.1)]

/-- A property that a change keeps at one signal is kept at all. -/
theorem node_modify_induction {g : Graph P F Φ} {id : SignalId} {f : Node P F Φ → Node P F Φ}
    {C : SignalId → Node P F Φ → Prop} (hid : id < g.size → C id (f (g.node id)))
    (j : SignalId) (hj : C j (g.node j)) : C j ((g.modify id f).node j) := by
  rw [node_modify]
  split
  · rename_i h
    obtain ⟨rfl, hlt⟩ := h
    exact hid hlt
  · exact hj

@[simp] theorem size_add (g : Graph P F Φ) (n : Node P F Φ) : (g.add n).2.size = g.size + 1 := by
  simp [add, size]

theorem node_add (g : Graph P F Φ) (n : Node P F Φ) (j : SignalId) :
    (g.add n).2.node j = if j = g.size then n else g.node j := by
  unfold add node size
  rw [Array.getD_eq_getD_getElem?, Array.getD_eq_getD_getElem?, Array.getElem?_push]
  split <;> rfl

/-! ### Anchors -/

/-- The rank of a signal is above that of the signals it comes from. -/
def Descends (rank : SignalId → Nat) (g : Graph P F Φ) : Prop :=
  ∀ id, ∀ s ∈ (g.node id).form.upstream, rank s < rank id

/-- Only signals of the graph come from others. -/
theorem descends_of_forall_lt {rank : SignalId → Nat} {g : Graph P F Φ}
    (h : ∀ id < g.size, ∀ s ∈ (g.node id).form.upstream, rank s < rank id) : g.Descends rank := by
  intro id s hmem
  refine h id (g.lt_size_of_form_ne ?_) s hmem
  intro hform
  rw [hform] at hmem
  cases hmem

/-- Graphs with the same forms have the same anchors. -/
theorem anchorWithin_congr {g g' : Graph P F Φ}
    (h : ∀ id, (g'.node id).form = (g.node id).form) (fuel : Nat) (id : SignalId) :
    g'.anchorWithin fuel id = g.anchorWithin fuel id := by
  induction fuel generalizing id with
  | zero => rfl
  | succ fuel ih =>
    simp only [anchorWithin, h id]
    cases (g.node id).form.target? with
    | none => rfl
    | some t => exact ih t

theorem anchor_congr {g g' : Graph P F Φ} (hsize : g'.size = g.size)
    (h : ∀ id, (g'.node id).form = (g.node id).form) (id : SignalId) :
    g'.anchor id = g.anchor id := by
  unfold anchor
  rw [hsize]
  exact anchorWithin_congr h _ id

/-- The signals of the graph whose rank is at most that of a given one. -/
def below (rank : SignalId → Nat) (g : Graph P F Φ) (id : SignalId) : Finset SignalId :=
  (Finset.range g.size).filter fun j => rank j ≤ rank id

theorem card_below_le (rank : SignalId → Nat) (g : Graph P F Φ) (id : SignalId) :
    (below rank g id).card ≤ g.size := by
  calc (below rank g id).card ≤ (Finset.range g.size).card := Finset.card_filter_le _ _
    _ = g.size := Finset.card_range _

theorem card_below_pos (rank : SignalId → Nat) {g : Graph P F Φ} {id : SignalId}
    (hlt : id < g.size) : 0 < (below rank g id).card := by
  apply Finset.card_pos.mpr
  exact ⟨id, by simp [below, hlt]⟩

theorem card_below_lt {rank : SignalId → Nat} {g : Graph P F Φ} {id t : SignalId}
    (hlt : id < g.size) (hrank : rank t < rank id) :
    (below rank g t).card < (below rank g id).card := by
  apply Finset.card_lt_card
  rw [Finset.ssubset_iff_of_subset]
  · refine ⟨id, ?_, ?_⟩
    · simp [below, hlt]
    · simp [below, hrank]
  · intro j hj
    simp only [below, Finset.mem_filter, Finset.mem_range] at hj ⊢
    exact ⟨hj.1, by omega⟩

/-- Each step to a target leaves a signal out of account, so more fuel than signals is no use. -/
theorem anchorWithin_of_card_le {rank : SignalId → Nat} {g : Graph P F Φ} (hd : g.Descends rank)
    (fuel more : Nat) (id : SignalId) (h : (below rank g id).card ≤ fuel) :
    g.anchorWithin (fuel + more) id = g.anchorWithin fuel id := by
  induction fuel generalizing id with
  | zero =>
    have hcard : (below rank g id).card = 0 := by omega
    cases more with
    | zero => rfl
    | succ more =>
      simp only [anchorWithin]
      cases ht : (g.node id).form.target? with
      | none => rfl
      | some t =>
        have hlt : id < g.size := g.lt_size_of_form_ne (by intro hf; rw [hf] at ht; cases ht)
        have := card_below_lt hlt (hd id t (Form.mem_upstream_of_target? ht))
        omega
  | succ fuel ih =>
    have hsucc : fuel + 1 + more = (fuel + more) + 1 := by omega
    rw [hsucc]
    simp only [anchorWithin]
    cases ht : (g.node id).form.target? with
    | none => rfl
    | some t =>
      have hlt : id < g.size := g.lt_size_of_form_ne (by intro hf; rw [hf] at ht; cases ht)
      have := card_below_lt hlt (hd id t (Form.mem_upstream_of_target? ht))
      exact ih t (by omega)

theorem anchorWithin_eq_anchor {rank : SignalId → Nat} {g : Graph P F Φ} (hd : g.Descends rank)
    {fuel : Nat} (id : SignalId) (h : g.size ≤ fuel) : g.anchorWithin fuel id = g.anchor id := by
  have hcard := card_below_le rank g id
  have h1 := anchorWithin_of_card_le hd g.size (fuel - g.size) id hcard
  have h2 := anchorWithin_of_card_le hd g.size 1 id hcard
  rw [Nat.add_sub_cancel' h] at h1
  rw [h1, ← h2]
  rfl

section

variable {rank : SignalId → Nat} {g : Graph P F Φ}

theorem anchor_of_target? (hd : g.Descends rank) {id t : SignalId}
    (h : (g.node id).form.target? = some t) : g.anchor id = g.anchor t := by
  rw [← anchorWithin_eq_anchor hd t (Nat.le_refl _)]
  unfold anchor
  simp only [anchorWithin, h]

theorem anchor_of_target?_none {id : SignalId} (h : (g.node id).form.target? = none) :
    g.anchor id = id := by
  unfold anchor
  simp only [anchorWithin, h]

theorem anchor_of_isDerived {id : SignalId} (h : (g.node id).form.isDerived = true) :
    g.anchor id = id :=
  anchor_of_target?_none (Form.target?_of_isDerived h)

/-- Along a ranking, what holds of the ends of chains and is carried back over each step holds of
    every signal. -/
theorem target?_induction (hd : g.Descends rank) {C : SignalId → Prop}
    (hend : ∀ id, (g.node id).form.target? = none → C id)
    (hstep : ∀ id t, (g.node id).form.target? = some t → C t → C id) (id : SignalId) : C id := by
  induction hn : rank id using Nat.strong_induction_on generalizing id with
  | _ n ih =>
    cases ht : (g.node id).form.target? with
    | none => exact hend id ht
    | some t =>
      have hlt := hd id t (Form.mem_upstream_of_target? ht)
      exact hstep id t ht (ih (rank t) (by omega) t rfl)

/-- An anchor stands for no other signal. -/
theorem target?_anchor (hd : g.Descends rank) (id : SignalId) :
    (g.node (g.anchor id)).form.target? = none := by
  refine target?_induction hd (C := fun id => (g.node (g.anchor id)).form.target? = none) ?_ ?_ id
  · intro id h
    rw [anchor_of_target?_none h]
    exact h
  · intro id t ht h
    rw [anchor_of_target? hd ht]
    exact h

theorem rank_anchor_le (hd : g.Descends rank) (id : SignalId) : rank (g.anchor id) ≤ rank id := by
  refine target?_induction hd (C := fun id => rank (g.anchor id) ≤ rank id) ?_ ?_ id
  · intro id h
    rw [anchor_of_target?_none h]
  · intro id t ht h
    rw [anchor_of_target? hd ht]
    have := hd id t (Form.mem_upstream_of_target? ht)
    omega

/-- The anchor of a signal of the graph is in the graph, if the signals it comes from are. -/
theorem anchor_lt_size (hd : g.Descends rank)
    (hin : ∀ id, ∀ s ∈ (g.node id).form.upstream, s < g.size) (id : SignalId) (h : id < g.size) :
    g.anchor id < g.size := by
  refine target?_induction hd (C := fun id => id < g.size → g.anchor id < g.size) ?_ ?_ id h
  · intro id ht hlt
    rw [anchor_of_target?_none ht]
    exact hlt
  · intro id t ht ih _
    rw [anchor_of_target? hd ht]
    exact ih (hin id t (Form.mem_upstream_of_target? ht))

end

end Graph

end ReactiveDoc.Signal
