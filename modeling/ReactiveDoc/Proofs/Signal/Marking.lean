import Mathlib.Logic.Relation
import ReactiveDoc.Proofs.Signal.Shape

namespace ReactiveDoc.Signal

/-!
# Who hears of a change

* `Graph.Registered` — a signal is on the list of those that are told of the next change of another.
* `Graph.Hears` — it is told directly or by way of others.
* `Graph.node_notifyAll`, `Graph.node_notify` — telling the dependents of a signal marks what
  hears it, takes the registrations of everything marked, and touches nothing else.
-/

variable {P F Φ : Type}

open Relation

/-- A signal marked as out of date, its dependents forgotten. -/
def Node.marked (n : Node P F Φ) : Node P F Φ :=
  { n with memo := { n.memo with dirty := true }, dependents := [] }

@[simp] theorem Node.marked_form (n : Node P F Φ) : n.marked.form = n.form := rfl

@[simp] theorem Node.marked_dependents (n : Node P F Φ) : n.marked.dependents = [] := rfl

@[simp] theorem Node.marked_seen (n : Node P F Φ) : n.marked.seen = n.seen := rfl

@[simp] theorem Node.marked_inner? (n : Node P F Φ) : n.marked.inner? = n.inner? := rfl

@[simp] theorem Node.marked_outcome? (n : Node P F Φ) :
    n.marked.memo.outcome? = n.memo.outcome? := rfl

@[simp] theorem Node.marked_version (n : Node P F Φ) :
    n.marked.memo.version = n.memo.version := rfl

@[simp] theorem Node.marked_dirty (n : Node P F Φ) : n.marked.memo.dirty = true := rfl

namespace Graph

/-- `id` is on the list of those that are told of the next change of `a`. -/
def Registered (g : Graph P F Φ) (a id : SignalId) : Prop :=
  Dependent.signal id ∈ (g.node a).dependents

instance (g : Graph P F Φ) (a id : SignalId) : Decidable (g.Registered a id) :=
  inferInstanceAs (Decidable (Dependent.signal id ∈ (g.node a).dependents))

/-- `id` is told of the next change of `a`, directly or by way of others. -/
def Hears (g : Graph P F Φ) : SignalId → SignalId → Prop := TransGen g.Registered

theorem lt_size_of_registered {g : Graph P F Φ} {a id : SignalId} (h : g.Registered a id) :
    a < g.size := by
  by_contra hlt
  unfold Registered at h
  rw [g.node_of_size_le (Nat.le_of_not_lt hlt)] at h
  simp [unresolved] at h

/-- What is told of a change that is passed on to the given dependents. -/
def Told (g : Graph P F Φ) (ds : List Dependent) (id : SignalId) : Prop :=
  ∃ m, Dependent.signal m ∈ ds ∧ ReflTransGen g.Registered m id

theorem told_dependents_iff (g : Graph P F Φ) (a id : SignalId) :
    g.Told (g.node a).dependents id ↔ g.Hears a id := by
  unfold Told Hears
  rw [TransGen.head'_iff]
  rfl

theorem told_cons_signal (g : Graph P F Φ) (m id : SignalId) (ds : List Dependent) :
    g.Told (.signal m :: ds) id ↔ ReflTransGen g.Registered m id ∨ g.Told ds id := by
  unfold Told
  constructor
  · rintro ⟨k, hk, hpath⟩
    rcases List.mem_cons.mp hk with h | h
    · cases h
      exact .inl hpath
    · exact .inr ⟨k, h, hpath⟩
  · rintro (hpath | ⟨k, hk, hpath⟩)
    · exact ⟨m, List.mem_cons_self .., hpath⟩
    · exact ⟨k, List.mem_cons_of_mem _ hk, hpath⟩

/-- Without the registrations at `c`, its former dependents and others reach what they did
    before, but for `c` itself: a path from `c` goes through one of them. -/
theorem told_clear (g g' : Graph P F Φ) (c : SignalId) (ds : List Dependent)
    (hc : (g'.node c).dependents = [])
    (hne : ∀ a, a ≠ c → (g'.node a).dependents = (g.node a).dependents) (id : SignalId) :
    (ReflTransGen g.Registered c id ∨ g.Told ds id) ↔
      id = c ∨ g'.Told ((g.node c).dependents ++ ds) id := by
  have hedge : ∀ a b, g'.Registered a b → g.Registered a b := by
    intro a b h
    unfold Registered at h ⊢
    by_cases ha : a = c
    · rw [ha, hc] at h
      simp at h
    · rwa [hne a ha] at h
  -- A path is cut at its last visit to `c`.
  have hcut : ∀ m, (m = c ∨ Dependent.signal m ∈ ds) → ReflTransGen g.Registered m id →
      id = c ∨ g'.Told ((g.node c).dependents ++ ds) id := by
    intro m hm hpath
    induction hpath with
    | refl =>
      rcases hm with h | h
      · exact .inl h
      · exact .inr ⟨m, List.mem_append_right _ h, .refl⟩
    | @tail b d _ hbd ih =>
      by_cases hb : b = c
      · right
        refine ⟨d, List.mem_append_left _ ?_, .refl⟩
        unfold Registered at hbd
        rwa [hb] at hbd
      · rcases ih with h | ⟨k, hk, hkb⟩
        · exact absurd h hb
        · right
          refine ⟨k, hk, hkb.tail ?_⟩
          unfold Registered at hbd ⊢
          rwa [hne b hb]
  constructor
  · rintro (h | ⟨m, hm, h⟩)
    · exact hcut c (.inl rfl) h
    · exact hcut m (.inr hm) h
  · rintro (rfl | ⟨m, hm, h⟩)
    · exact .inl .refl
    · have hpath := ReflTransGen.mono hedge _ _ h
      rcases List.mem_append.mp hm with hm | hm
      · exact .inl (ReflTransGen.head hm hpath)
      · exact .inr ⟨m, hm, hpath⟩

/-! ### Marking -/

theorem mark_eq (g : Graph P F Φ) (id : SignalId) : g.mark id = g.modify id Node.marked := rfl

theorem node_mark (g : Graph P F Φ) (id j : SignalId) :
    (g.mark id).node j = if j = id ∧ id < g.size then (g.node id).marked else g.node j := by
  rw [mark_eq, node_modify]

theorem dependents_mark_self (g : Graph P F Φ) (id : SignalId) :
    ((g.mark id).node id).dependents = [] := by
  rw [node_mark]
  split
  · rfl
  · rename_i h
    have hle : g.size ≤ id := Nat.le_of_not_lt fun hlt => h ⟨rfl, hlt⟩
    rw [g.node_of_size_le hle]
    rfl

theorem told_mark (g : Graph P F Φ) (c id : SignalId) (ds : List Dependent) :
    g.Told (.signal c :: ds) id ↔ id = c ∨ (g.mark c).Told ((g.node c).dependents ++ ds) id := by
  rw [told_cons_signal]
  apply told_clear g (g.mark c) c ds (dependents_mark_self g c)
  intro a ha
  rw [mark_eq, node_modify_of_ne g _ ha]

@[simp] theorem size_mark (g : Graph P F Φ) (id : SignalId) : (g.mark id).size = g.size :=
  size_modify g id _

theorem told_of_watcher {g : Graph P F Φ} (g' : Graph P F Φ) {d : Dependent} {ds : List Dependent}
    (hd : ∀ m, d ≠ .signal m) (hnodes : g'.nodes = g.nodes) (id : SignalId) :
    g.Told (d :: ds) id ↔ g'.Told ds id := by
  have hreg : g'.Registered = g.Registered := by
    unfold Registered node
    rw [hnodes]
  unfold Told
  rw [hreg]
  constructor
  · rintro ⟨m, hm, h⟩
    rcases List.mem_cons.mp hm with hm | hm
    · exact absurd hm.symm (hd m)
    · exact ⟨m, hm, h⟩
  · rintro ⟨m, hm, h⟩
    exact ⟨m, List.mem_cons_of_mem _ hm, h⟩

theorem size_notifyAll (g : Graph P F Φ) (ds : List Dependent) :
    (g.notifyAll ds).size = g.size := by
  fun_induction notifyAll g ds with
  | case1 => rfl
  | case2 g id rest ih => rw [ih, size_mark]
  | case3 g index rest ih => exact ih
  | case4 g index rest ih => exact ih

/-- What is told is marked, and everything else stays as it is. -/
theorem node_notifyAll (g : Graph P F Φ) (ds : List Dependent) (id : SignalId) :
    (g.Told ds id → id < g.size → (g.notifyAll ds).node id = (g.node id).marked) ∧
      (¬ g.Told ds id → (g.notifyAll ds).node id = g.node id) := by
  fun_induction notifyAll g ds with
  | case1 g =>
    have hnone : ¬ g.Told [] id := by
      rintro ⟨m, hm, _⟩
      simp at hm
    exact ⟨fun h => absurd h hnone, fun _ => rfl⟩
  | case2 g c rest ih =>
    rw [told_mark]
    obtain ⟨htold, hnot⟩ := ih
    rw [size_mark] at htold
    by_cases hid : id = c
    · subst hid
      -- Whether or not the walk comes back, the signal has been marked.
      refine ⟨fun _ hlt => ?_, fun h => absurd (.inl rfl) h⟩
      have hself : (g.mark id).node id = (g.node id).marked := by
        rw [node_mark, if_pos ⟨rfl, hlt⟩]
      by_cases h : (g.mark id).Told ((g.node id).dependents ++ rest) id
      · rw [htold h hlt, hself]
        rfl
      · rw [hnot h, hself]
    · have hother : (g.mark c).node id = g.node id := by
        rw [mark_eq, node_modify_of_ne g _ hid]
      rw [hother] at htold hnot
      constructor
      · rintro (h | h) hlt
        · exact absurd h hid
        · exact htold h hlt
      · intro h
        exact hnot fun h' => h (.inr h')
  | case3 g index rest ih =>
    rw [told_of_watcher { g with watchers := _ } (by simp) rfl]
    exact ih
  | case4 g index rest ih =>
    rw [told_of_watcher { g with probes := _ } (by simp) rfl]
    exact ih

/-! ### Telling the dependents of one signal -/

/-- The graph in which a signal has become another and whatever heard it is told. -/
def retold (g : Graph P F Φ) (c : SignalId) (n : Node P F Φ) : Graph P F Φ :=
  (g.modify c fun _ => { n with dependents := [] }).notifyAll (g.node c).dependents

theorem size_retold (g : Graph P F Φ) (c : SignalId) (n : Node P F Φ) :
    (g.retold c n).size = g.size := by
  unfold retold
  rw [size_notifyAll, size_modify]

theorem told_modify_iff_hears {g : Graph P F Φ} {c : SignalId} (n : Node P F Φ) {id : SignalId}
    (hid : id ≠ c) :
    (g.modify c fun _ => { n with dependents := [] }).Told (g.node c).dependents id ↔
      g.Hears c id := by
  by_cases hlt : c < g.size
  · have hclear := told_clear g (g.modify c fun _ => { n with dependents := [] }) c []
      (by rw [node_modify_self g _ hlt])
      (fun a ha => by rw [node_modify_of_ne g _ ha]) id
    rw [List.append_nil] at hclear
    have hnil : ¬ g.Told [] id := by
      rintro ⟨m, hm, _⟩
      simp at hm
    rw [or_iff_left hnil, or_iff_right hid] at hclear
    rw [← hclear]
    constructor
    · intro h
      rcases reflTransGen_iff_eq_or_transGen.mp h with h | h
      · exact absurd h hid
      · exact h
    · exact fun h => h.to_reflTransGen
  · -- A signal that is not there has no dependents.
    have hnone : (g.node c).dependents = [] := by
      rw [g.node_of_size_le (Nat.le_of_not_lt hlt)]
      rfl
    rw [hnone]
    constructor
    · rintro ⟨m, hm, _⟩
      simp at hm
    · intro h
      obtain ⟨m, hm, _⟩ := TransGen.head'_iff.mp h
      unfold Registered at hm
      rw [hnone] at hm
      simp at hm

/-- What hears the signal is marked. -/
theorem node_retold_of_hears {g : Graph P F Φ} {c id : SignalId} (n : Node P F Φ) (hid : id ≠ c)
    (hlt : id < g.size) (h : g.Hears c id) : (g.retold c n).node id = (g.node id).marked := by
  unfold retold
  rw [(node_notifyAll _ _ id).1 ((told_modify_iff_hears n hid).mpr h) (by rwa [size_modify]),
    node_modify_of_ne g _ hid]

/-- What does not hear the signal stays as it is. -/
theorem node_retold_of_not_hears {g : Graph P F Φ} {c id : SignalId} (n : Node P F Φ)
    (hid : id ≠ c) (h : ¬ g.Hears c id) : (g.retold c n).node id = g.node id := by
  unfold retold
  rw [(node_notifyAll _ _ id).2 (fun ht => h ((told_modify_iff_hears n hid).mp ht)),
    node_modify_of_ne g _ hid]

/-- Every other signal is marked if it hears the signal, and stays as it is otherwise. -/
theorem node_retold_cases (g : Graph P F Φ) {c id : SignalId} (n : Node P F Φ) (hid : id ≠ c)
    (hlt : id < g.size) : (g.Hears c id ∧ (g.retold c n).node id = (g.node id).marked) ∨
      (¬ g.Hears c id ∧ (g.retold c n).node id = g.node id) := by
  by_cases h : g.Hears c id
  · exact .inl ⟨h, node_retold_of_hears n hid hlt h⟩
  · exact .inr ⟨h, node_retold_of_not_hears n hid h⟩

/-- The signal itself has become the other, but may be marked. -/
theorem node_retold_self {g : Graph P F Φ} {c : SignalId} (n : Node P F Φ) (hlt : c < g.size) :
    (g.retold c n).node c = { n with dependents := [] } ∨
      (g.retold c n).node c = n.marked := by
  unfold retold
  have hself := node_modify_self g (fun _ => { n with dependents := [] }) hlt
  have hnotify := node_notifyAll (g.modify c fun _ => { n with dependents := [] })
    (g.node c).dependents c
  by_cases h : (g.modify c fun _ => { n with dependents := [] }).Told (g.node c).dependents c
  · right
    rw [hnotify.1 h (by rwa [size_modify]), hself]
    rfl
  · left
    rw [hnotify.2 h, hself]

end Graph

end ReactiveDoc.Signal
