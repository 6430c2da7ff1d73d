import ReactiveDoc.Proofs.Signal.Coherence

namespace ReactiveDoc.Signal

/-!
# What an update leaves alone

* `Frame T g g'` — from `g` to `g'` forms and anchors stay, memories only move ahead, and a signal
  outside of `T`, or one that is up to date, keeps what it remembers and who tells it.
* `Frame.coherentAt` — such a signal stays coherent.
* `Becomes` — one signal has changed and no other.
* `Grows` — new signals were added at the end.
* `Progress` — everything below the rank of a signal is coherent again; at most these signals and
  the signal itself have changed.
-/

variable {P F Φ : Type}

/-- From `g` to `g'` at most the signals of `T` that were not up to date have changed; new signals
    may have been added, and up-to-date signals may have got new dependents. -/
structure Frame (T : SignalId → Prop) (g g' : Graph P F Φ) : Prop where
  size_le : g.size ≤ g'.size
  form_eq : ∀ j < g.size, (g'.node j).form = (g.node j).form
  anchor_eq : ∀ j < g.size, g'.anchor j = g.anchor j
  ahead : ∀ j < g.size, (g.node j).memo.Ahead (g'.node j).memo
  memo_eq : ∀ j < g.size, ¬ T j ∨ g.UpToDate j → (g'.node j).memo = (g.node j).memo
  seen_eq : ∀ j < g.size, ¬ T j ∨ g.UpToDate j → (g'.node j).seen = (g.node j).seen
  inner?_eq : ∀ j < g.size, ¬ T j ∨ g.UpToDate j → (g'.node j).inner? = (g.node j).inner?
  registered : ∀ j < g.size, ¬ T j ∨ g.UpToDate j → ∀ a, g.Registered a j → g'.Registered a j
  quiet : ∀ a < g.size, ¬ g'.UpToDate a → ∀ j, g'.Registered a j → g.Registered a j

namespace Frame

variable {T T' : SignalId → Prop} {g g' g'' : Graph P F Φ}

theorem refl (T : SignalId → Prop) (g : Graph P F Φ) : Frame T g g where
  size_le := Nat.le_refl _
  form_eq _ _ := rfl
  anchor_eq _ _ := rfl
  ahead _ _ := .refl _
  memo_eq _ _ _ := rfl
  seen_eq _ _ _ := rfl
  inner?_eq _ _ _ := rfl
  registered _ _ _ _ h := h
  quiet _ _ _ _ h := h

theorem upToDate_iff (h : Frame T g g') {j : SignalId} (hj : j < g.size)
    (hkept : ¬ T j ∨ g.UpToDate j) : g'.UpToDate j ↔ g.UpToDate j := by
  unfold Graph.UpToDate
  rw [h.form_eq j hj, h.memo_eq j hj hkept]

/-- What is up to date stays so. -/
theorem upToDate (h : Frame T g g') {j : SignalId} (hj : j < g.size) (hup : g.UpToDate j) :
    g'.UpToDate j :=
  (h.upToDate_iff hj (.inr hup)).mpr hup

theorem trans (h : Frame T g g') (h' : Frame T' g' g'') (hT : ∀ j < g.size, T' j → T j) :
    Frame T g g'' := by
  have hlt : ∀ j < g.size, j < g'.size := fun j hj => Nat.lt_of_lt_of_le hj h.size_le
  have hkept : ∀ j < g.size, ¬ T j ∨ g.UpToDate j → ¬ T' j ∨ g'.UpToDate j := by
    rintro j hj (hn | hup)
    · exact .inl fun ht => hn (hT j hj ht)
    · exact .inr (h.upToDate hj hup)
  refine ⟨h.size_le.trans h'.size_le, ?_, ?_, ?_, ?_, ?_, ?_, ?_, ?_⟩
  · intro j hj
    rw [h'.form_eq j (hlt j hj), h.form_eq j hj]
  · intro j hj
    rw [h'.anchor_eq j (hlt j hj), h.anchor_eq j hj]
  · intro j hj
    exact (h.ahead j hj).trans (h'.ahead j (hlt j hj))
  · intro j hj hk
    rw [h'.memo_eq j (hlt j hj) (hkept j hj hk), h.memo_eq j hj hk]
  · intro j hj hk
    rw [h'.seen_eq j (hlt j hj) (hkept j hj hk), h.seen_eq j hj hk]
  · intro j hj hk
    rw [h'.inner?_eq j (hlt j hj) (hkept j hj hk), h.inner?_eq j hj hk]
  · intro j hj hk a ha
    exact h'.registered j (hlt j hj) (hkept j hj hk) a (h.registered j hj hk a ha)
  · intro a ha hup j hreg
    -- A signal that is still not up to date was not before.
    have hbefore : ¬ g'.UpToDate a := fun hu => hup (h'.upToDate (hlt a ha) hu)
    exact h.quiet a ha hbefore j (h'.quiet a (hlt a ha) hup j hreg)

theorem mono (h : Frame T g g') (hT : ∀ j < g.size, T j → T' j) : Frame T' g g' := by
  have hkept : ∀ j < g.size, ¬ T' j ∨ g.UpToDate j → ¬ T j ∨ g.UpToDate j := by
    rintro j hj (hn | hup)
    · exact .inl fun ht => hn (hT j hj ht)
    · exact .inr hup
  exact ⟨h.size_le, h.form_eq, h.anchor_eq, h.ahead,
    fun j hj hk => h.memo_eq j hj (hkept j hj hk), fun j hj hk => h.seen_eq j hj (hkept j hj hk),
    fun j hj hk => h.inner?_eq j hj (hkept j hj hk),
    fun j hj hk => h.registered j hj (hkept j hj hk), h.quiet⟩

theorem evolves (h : Frame T g g') : g.Evolves g' := by
  refine ⟨h.size_le, ?_, ?_⟩
  · intro id hf
    exact h.form_eq id (g.lt_size_of_form_ne hf)
  · intro id hf
    have hlt : id < g.size := g.lt_size_of_form_ne (by rw [hf]; simp)
    apply h.memo_eq id hlt
    right
    intro hd
    rw [hf] at hd
    cases hd

/-- The signals that one which is there stands for, and follows, move ahead. -/
theorem ahead_anchor {b : Behaviour P F Φ} {rank : SignalId → Nat} (h : Frame T g g')
    (hs : g.Shaped b rank) {s : SignalId} (hlt : s < g.size) :
    (g.node (g.anchor s)).memo.Ahead (g'.node (g'.anchor s)).memo := by
  rw [h.anchor_eq s hlt]
  exact h.ahead _ (hs.anchor_lt hlt)

theorem version_le {b : Behaviour P F Φ} {rank : SignalId → Nat} (h : Frame T g g')
    (hs : g.Shaped b rank) {s : SignalId} (hlt : s < g.size) : g.version s ≤ g'.version s :=
  (h.ahead_anchor hs hlt).version_le

section

variable {b : Behaviour P F Φ} {rank : SignalId → Nat} {s : SignalId}

/-- A signal whose anchor is up to date keeps its outcome and version. -/
theorem memo_anchor_eq (h : Frame T g g') (hs : g.Shaped b rank) (hlt : s < g.size)
    (hup : g.UpToDate (g.anchor s)) :
    (g'.node (g'.anchor s)).memo = (g.node (g.anchor s)).memo := by
  rw [h.anchor_eq s hlt]
  exact h.memo_eq _ (hs.anchor_lt hlt) (.inr hup)

theorem version_eq (h : Frame T g g') (hs : g.Shaped b rank) (hlt : s < g.size)
    (hup : g.UpToDate (g.anchor s)) : g'.version s = g.version s := by
  unfold Graph.version
  rw [h.memo_anchor_eq hs hlt hup]

theorem value_eq (h : Frame T g g') (hs : g.Shaped b rank) (hlt : s < g.size)
    (hup : g.UpToDate (g.anchor s)) : g'.value s = g.value s := by
  unfold Graph.value
  rw [h.memo_anchor_eq hs hlt hup]

theorem upToDate_anchor (h : Frame T g g') (hs : g.Shaped b rank) (hlt : s < g.size)
    (hup : g.UpToDate (g.anchor s)) : g'.UpToDate (g'.anchor s) := by
  rw [h.anchor_eq s hlt]
  exact h.upToDate (hs.anchor_lt hlt) hup

theorem form_anchor_eq (h : Frame T g g') (hs : g.Shaped b rank) (hlt : s < g.size) :
    (g'.node (g'.anchor s)).form = (g.node (g.anchor s)).form := by
  rw [h.anchor_eq s hlt]
  exact h.form_eq _ (hs.anchor_lt hlt)

variable [Carrier P]

/-- A signal that is left alone is carried over. -/
theorem carried (h : Frame T g g') (hs : g.Shaped b rank) {j : SignalId} (hc : CoherentAt b g j)
    (hj : j < g.size) (hkept : ¬ T j ∨ g.UpToDate j) : Carried g g' j where
  form_eq := h.form_eq j hj
  outcome?_eq := by rw [h.memo_eq j hj hkept]
  version_eq := by rw [h.memo_eq j hj hkept]
  seen_eq := h.seen_eq j hj hkept
  inner?_eq := h.inner?_eq j hj hkept
  ahead s hmem := h.ahead_anchor hs (hs.upstream_lt j s hmem)
  inner_le inner hi := h.version_le hs (hs.inner j inner hi).2.1
  inner_zero := by
    intro inner hi hzero
    have hlt := (hs.inner j inner hi).2.1
    have hle := h.version_le hs hlt
    rw [h.form_anchor_eq hs hlt]
    exact (hc.inner_seen inner hi).2.2 (by omega)
  inner_value := by
    intro inner hi hmax hcomputed
    have hlt := (hs.inner j inner hi).2.1
    have hle := h.version_le hs hlt
    apply Graph.value_eq_of_ahead (h.ahead_anchor hs hlt) _ hcomputed
    -- A reference without a target does not move on, so the versions cannot be `0` and `1`.
    by_cases hzero : g.version inner.signal = 0
    · apply h.version_eq hs hlt
      intro hd
      rw [(hc.inner_seen inner hi).2.2 hzero] at hd
      cases hd
    · omega
  quiet := by
    intro hup d hreg
    rw [h.upToDate_iff hj hkept] at hup
    exact ⟨hup, h.quiet j hj (by rwa [h.upToDate_iff hj hkept]) d hreg⟩
  waiting _ := h.memo_eq j hj hkept
  clean := by
    intro _ hclean
    rwa [h.memo_eq j hj hkept] at hclean
  stay := by
    intro hd hclean s hmem
    rw [h.form_eq j hj] at hd
    rw [h.memo_eq j hj hkept] at hclean
    have hset := hc.settled hd hclean
    have hsource : s < g.size ∧ g.UpToDate (g.anchor s) := by
      rcases hmem with hmem | ⟨inner, hi, rfl⟩
      · exact ⟨hs.upstream_lt j s hmem, hset.upToDate s hmem⟩
      · exact ⟨(hs.inner j inner hi).2.1, hset.inner_upToDate inner hi⟩
    obtain ⟨hlt, hup⟩ := hsource
    have halt := hs.anchor_lt hlt
    refine ⟨h.anchor_eq s hlt, h.form_eq _ halt, ?_, h.upToDate halt hup,
      h.registered j hj hkept _⟩
    rw [h.memo_eq _ halt (.inr hup)]

/-- A coherent signal that is left alone stays coherent. -/
theorem coherentAt (h : Frame T g g') (hs : g.Shaped b rank) (hstable : b.Stable) {j : SignalId}
    (hc : CoherentAt b g j) (hj : j < g.size) (hkept : ¬ T j ∨ g.UpToDate j) :
    CoherentAt b g' j :=
  hc.carry (h.carried hs hc hj hkept) fun _ _ _ _ hch => hstable.chosen h.evolves hch

end

end Frame

/-! ### One signal changes -/

/-- One signal has become another, and nothing else has changed. -/
structure Becomes (id : SignalId) (n : Node P F Φ) (g g' : Graph P F Φ) : Prop where
  size_eq : g'.size = g.size
  node_eq : g'.node id = n
  node_ne : ∀ j, j ≠ id → g'.node j = g.node j

namespace Becomes

variable {id : SignalId} {n n' : Node P F Φ} {g g' g'' : Graph P F Φ}

theorem modify (g : Graph P F Φ) (hlt : id < g.size) (f : Node P F Φ → Node P F Φ) :
    Becomes id (f (g.node id)) g (g.modify id f) :=
  ⟨g.size_modify id f, g.node_modify_self f hlt, fun _ hj => g.node_modify_of_ne f hj⟩

theorem trans (h : Becomes id n g g') (h' : Becomes id n' g' g'') : Becomes id n' g g'' :=
  ⟨h'.size_eq.trans h.size_eq, h'.node_eq, fun j hj => (h'.node_ne j hj).trans (h.node_ne j hj)⟩

/-- The signal changes once more. -/
theorem next (h : Becomes id n g g') (hlt : id < g.size) (f : Node P F Φ → Node P F Φ) :
    Becomes id (f n) g (g'.modify id f) := by
  have hnext := Becomes.modify g' (by rwa [h.size_eq]) f
  rw [h.node_eq] at hnext
  exact h.trans hnext

theorem form_eq (h : Becomes id n g g') (hform : n.form = (g.node id).form) (j : SignalId) :
    (g'.node j).form = (g.node j).form := by
  by_cases hj : j = id
  · rw [hj, h.node_eq, hform]
  · rw [h.node_ne j hj]

theorem anchor_eq (h : Becomes id n g g') (hform : n.form = (g.node id).form) (j : SignalId) :
    g'.anchor j = g.anchor j :=
  Graph.anchor_congr h.size_eq (h.form_eq hform) j

theorem registered_iff (h : Becomes id n g g') (hdeps : n.dependents = (g.node id).dependents)
    (a j : SignalId) : g'.Registered a j ↔ g.Registered a j := by
  unfold Graph.Registered
  by_cases ha : a = id
  · rw [ha, h.node_eq, hdeps]
  · rw [h.node_ne a ha]

/-- A signal that is not up to date may move ahead. -/
theorem frame (h : Becomes id n g g') (hform : n.form = (g.node id).form)
    (hdeps : n.dependents = (g.node id).dependents) (hahead : (g.node id).memo.Ahead n.memo)
    (hup : ¬ g.UpToDate id) : Frame (· = id) g g' := by
  have hne : ∀ j, ¬ j = id ∨ g.UpToDate j → g'.node j = g.node j := by
    rintro j (hj | hj)
    · exact h.node_ne j hj
    · exact h.node_ne j fun hji => hup (hji ▸ hj)
  refine ⟨Nat.le_of_eq h.size_eq.symm, fun j _ => h.form_eq hform j,
    fun j _ => h.anchor_eq hform j, ?_, ?_, ?_, ?_, ?_, ?_⟩
  · intro j _
    by_cases hj : j = id
    · rw [hj, h.node_eq]
      exact hahead
    · rw [h.node_ne j hj]
      exact .refl _
  · intro j _ hk
    rw [hne j hk]
  · intro j _ hk
    rw [hne j hk]
  · intro j _ hk
    rw [hne j hk]
  · intro j _ _ a
    exact (h.registered_iff hdeps a j).mpr
  · intro a _ _ j
    exact (h.registered_iff hdeps a j).mp

/-- The shape stays if a flat map follows only what it may follow. -/
theorem shaped {b : Behaviour P F Φ} {rank : SignalId → Nat} (h : Becomes id n g g')
    (hstable : b.Stable) (hev : g.Evolves g')
    (hform : n.form = (g.node id).form) (hdeps : n.dependents = (g.node id).dependents)
    (hs : g.Shaped b rank)
    (hinner : ∀ inner, n.inner? = some inner →
      (∃ source choice p, (g.node id).form = .flatMap source choice ∧
        b.chosen g source choice p inner.signal) ∧ inner.signal < g.size ∧
        rank inner.signal < rank id)
    (hall : n.All b.good b.fine) : g'.Shaped b rank := by
  refine ⟨?_, ?_, ?_, ?_, ?_⟩
  · intro j
    rw [h.form_eq hform j, h.size_eq]
    exact hs.upstream j
  · intro j inner hi
    rw [h.form_eq hform j, h.size_eq]
    have hbefore : (∃ source choice p, (g.node j).form = .flatMap source choice ∧
        b.chosen g source choice p inner.signal) ∧ inner.signal < g.size ∧
        rank inner.signal < rank j := by
      by_cases hj : j = id
      · rw [hj, h.node_eq] at hi
        rw [hj]
        exact hinner inner hi
      · rw [h.node_ne j hj] at hi
        exact hs.inner j inner hi
    obtain ⟨⟨source, choice, p, hf, hch⟩, hlt⟩ := hbefore
    exact ⟨⟨source, choice, p, hf, hstable.chosen hev hch⟩, hlt⟩
  · intro j source choice hf
    rw [h.form_eq hform j] at hf
    exact hstable.room hev (fun _ _ => rfl) (hs.room j source choice hf)
  · intro a j hreg
    rw [h.form_eq hform j]
    exact hs.registered a j ((h.registered_iff hdeps a j).mp hreg)
  · intro j
    by_cases hj : j = id
    · rw [hj, h.node_eq]
      exact hall
    · rw [h.node_ne j hj]
      exact hs.all j

end Becomes

/-! ### Dependents come and go -/

namespace Graph

variable {g : Graph P F Φ} {me s : SignalId}

/-- What is not a dependent is no matter of registration. -/
theorem node_depend (g : Graph P F Φ) (s : SignalId) (d : Dependent) (j : SignalId) :
    ((g.depend s d).node j).form = (g.node j).form ∧
      ((g.depend s d).node j).memo = (g.node j).memo ∧
      ((g.depend s d).node j).seen = (g.node j).seen ∧
      ((g.depend s d).node j).inner? = (g.node j).inner? := by
  unfold depend
  refine node_modify_induction (C := fun k n => n.form = (g.node k).form ∧
    n.memo = (g.node k).memo ∧ n.seen = (g.node k).seen ∧ n.inner? = (g.node k).inner?)
    (fun _ => ?_) j ⟨rfl, rfl, rfl, rfl⟩
  split <;> exact ⟨rfl, rfl, rfl, rfl⟩

theorem node_undepend (g : Graph P F Φ) (s : SignalId) (d : Dependent) (j : SignalId) :
    ((g.undepend s d).node j).form = (g.node j).form ∧
      ((g.undepend s d).node j).memo = (g.node j).memo ∧
      ((g.undepend s d).node j).seen = (g.node j).seen ∧
      ((g.undepend s d).node j).inner? = (g.node j).inner? := by
  unfold undepend
  exact node_modify_induction (C := fun k n => n.form = (g.node k).form ∧
    n.memo = (g.node k).memo ∧ n.seen = (g.node k).seen ∧ n.inner? = (g.node k).inner?)
    (fun _ => ⟨rfl, rfl, rfl, rfl⟩) j ⟨rfl, rfl, rfl, rfl⟩

theorem All.depend {good : P → Prop} {fine : F → Prop} (h : g.All good fine) (s : SignalId)
    (d : Dependent) : (g.depend s d).All good fine := by
  intro j
  exact (h j).congr (g.node_depend s d j).1 (by rw [(g.node_depend s d j).2.1])

theorem All.undepend {good : P → Prop} {fine : F → Prop} (h : g.All good fine) (s : SignalId)
    (d : Dependent) : (g.undepend s d).All good fine := by
  intro j
  exact (h j).congr (g.node_undepend s d j).1 (by rw [(g.node_undepend s d j).2.1])

@[simp] theorem size_depend (g : Graph P F Φ) (s : SignalId) (d : Dependent) :
    (g.depend s d).size = g.size := size_modify g _ _

@[simp] theorem size_undepend (g : Graph P F Φ) (s : SignalId) (d : Dependent) :
    (g.undepend s d).size = g.size := size_modify g _ _

theorem anchor_depend (g : Graph P F Φ) (s : SignalId) (d : Dependent) (j : SignalId) :
    (g.depend s d).anchor j = g.anchor j :=
  anchor_congr (g.size_depend s d) (fun k => (g.node_depend s d k).1) j

theorem anchor_undepend (g : Graph P F Φ) (s : SignalId) (d : Dependent) (j : SignalId) :
    (g.undepend s d).anchor j = g.anchor j :=
  anchor_congr (g.size_undepend s d) (fun k => (g.node_undepend s d k).1) j

/-- Nobody loses a registration by another's. -/
theorem Registered.depend {a j : SignalId} (h : g.Registered a j) (s me : SignalId) :
    (g.depend s (.signal me)).Registered a j := by
  unfold Registered Graph.depend at *
  refine node_modify_induction (C := fun k n => k = a → Dependent.signal j ∈ n.dependents)
    (fun _ hk => ?_) a (fun _ => h) rfl
  subst hk
  split
  · exact h
  · exact List.mem_append_left _ h

/-- A registration that is new is that of the signal at the anchor. -/
theorem registered_of_depend {a j : SignalId} (h : (g.depend s (.signal me)).Registered a j) :
    g.Registered a j ∨ a = g.anchor s ∧ j = me := by
  unfold Registered Graph.depend at *
  rw [node_modify] at h
  split at h
  · rename_i ha
    rw [← ha.1] at h
    split at h
    · exact .inl h
    · rcases List.mem_append.mp h with h | h
      · exact .inl h
      · right
        simpa [ha.1] using h
  · exact .inl h

theorem registered_depend (hlt : g.anchor s < g.size)
    (hrem : (g.node (g.anchor s)).form.remembers = true) :
    (g.depend s (.signal me)).Registered (g.anchor s) me := by
  unfold Registered Graph.depend
  rw [node_modify_self g _ hlt]
  split
  · rename_i h
    simpa [hrem] using h
  · simp

theorem registered_undepend_of_ne {a j : SignalId} (hj : j ≠ me) :
    (g.undepend s (.signal me)).Registered a j ↔ g.Registered a j := by
  have hd : Dependent.signal j ≠ Dependent.signal me := by simpa using hj
  unfold Registered Graph.undepend
  rw [node_modify]
  split
  · rename_i h
    rw [h.1, List.mem_filter]
    simp [hd]
  · rfl

/-- Leaving a signal matters for its anchor only. -/
theorem registered_undepend_of_anchor_ne {a j : SignalId} (d : Dependent) (ha : a ≠ g.anchor s) :
    (g.undepend s d).Registered a j ↔ g.Registered a j := by
  unfold Registered Graph.undepend
  rw [node_modify_of_ne g _ ha]

theorem registered_of_undepend {a j : SignalId}
    (h : (g.undepend s (.signal me)).Registered a j) : g.Registered a j := by
  by_cases hj : j = me
  · unfold Registered Graph.undepend at *
    rw [node_modify] at h
    split at h
    · rename_i hk
      rw [hk.1]
      exact (List.mem_filter.mp h).1
    · exact h
  · exact (registered_undepend_of_ne hj).mp h

theorem upToDate_depend_iff {j : SignalId} {d : Dependent} :
    (g.depend s d).UpToDate j ↔ g.UpToDate j := by
  unfold UpToDate
  rw [(g.node_depend s d j).1, (g.node_depend s d j).2.1]

/-- A signal registers only with what is up to date. -/
theorem frame_depend (me : SignalId) (hup : g.UpToDate (g.anchor s)) :
    Frame (fun _ => False) g (g.depend s (.signal me)) where
  size_le := Nat.le_of_eq (g.size_depend s _).symm
  form_eq j _ := (g.node_depend s _ j).1
  anchor_eq j _ := g.anchor_depend s _ j
  ahead j _ := by
    rw [(g.node_depend s _ j).2.1]
    exact .refl _
  memo_eq j _ _ := (g.node_depend s _ j).2.1
  seen_eq j _ _ := (g.node_depend s _ j).2.2.1
  inner?_eq j _ _ := (g.node_depend s _ j).2.2.2
  registered j _ _ a ha := ha.depend s me
  quiet a _ hn j hreg := by
    rw [upToDate_depend_iff] at hn
    rcases registered_of_depend hreg with h | ⟨rfl, -⟩
    · exact h
    · exact absurd hup hn

/-- A signal that is not up to date may leave what it was registered with. -/
theorem frame_undepend (s : SignalId) (hup : ¬ g.UpToDate me) :
    Frame (· = me) g (g.undepend s (.signal me)) where
  size_le := Nat.le_of_eq (g.size_undepend s _).symm
  form_eq j _ := (g.node_undepend s _ j).1
  anchor_eq j _ := g.anchor_undepend s _ j
  ahead j _ := by
    rw [(g.node_undepend s _ j).2.1]
    exact .refl _
  memo_eq j _ _ := (g.node_undepend s _ j).2.1
  seen_eq j _ _ := (g.node_undepend s _ j).2.2.1
  inner?_eq j _ _ := (g.node_undepend s _ j).2.2.2
  registered j _ hk a ha := by
    have hj : j ≠ me := by
      rintro rfl
      exact hk.elim (fun h => h rfl) hup
    exact (registered_undepend_of_ne hj).mpr ha
  quiet a _ _ j hreg := registered_of_undepend hreg

theorem Shaped.of_same {b : Behaviour P F Φ} {rank : SignalId → Nat} {g' : Graph P F Φ}
    (hs : g.Shaped b rank) (hstable : b.Stable) (hev : g.Evolves g') (hsize : g'.size = g.size)
    (hform : ∀ j, (g'.node j).form = (g.node j).form)
    (hinner : ∀ j, (g'.node j).inner? = (g.node j).inner?)
    (hreg : ∀ a j, g'.Registered a j → g.Registered a j ∨ (g.node j).form.isDerived = true)
    (hall : g'.All b.good b.fine) : g'.Shaped b rank := by
  refine ⟨?_, ?_, ?_, ?_, hall⟩
  · intro j
    rw [hform, hsize]
    exact hs.upstream j
  · intro j inner hi
    rw [hinner] at hi
    rw [hform, hsize]
    obtain ⟨⟨source, choice, p, hf, hch⟩, hlt⟩ := hs.inner j inner hi
    exact ⟨⟨source, choice, p, hf, hstable.chosen hev hch⟩, hlt⟩
  · intro j source choice hf
    rw [hform] at hf
    exact hstable.room hev (fun _ _ => rfl) (hs.room j source choice hf)
  · intro a j h
    rw [hform]
    exact (hreg a j h).elim (hs.registered a j) id

theorem Shaped.depend {b : Behaviour P F Φ} {rank : SignalId → Nat} (hs : g.Shaped b rank)
    (hstable : b.Stable) (hup : g.UpToDate (g.anchor s))
    (hme : (g.node me).form.isDerived = true) : (g.depend s (.signal me)).Shaped b rank := by
  refine hs.of_same hstable (frame_depend me hup).evolves (size_depend ..)
    (fun j => (node_depend _ _ _ j).1) (fun j => (node_depend _ _ _ j).2.2.2) ?_
    (hs.all.depend s _)
  intro a j h
  rcases registered_of_depend h with h | ⟨-, rfl⟩
  · exact .inl h
  · exact .inr hme

theorem Shaped.undepend {b : Behaviour P F Φ} {rank : SignalId → Nat} (hs : g.Shaped b rank)
    (hstable : b.Stable) (hup : ¬ g.UpToDate me) :
    (g.undepend s (.signal me)).Shaped b rank :=
  hs.of_same hstable (frame_undepend s hup).evolves (size_undepend ..)
    (fun j => (node_undepend _ _ _ j).1) (fun j => (node_undepend _ _ _ j).2.2.2)
    (fun _ _ h => .inl (registered_of_undepend h)) (hs.all.undepend s _)

end Graph

/-! ### New signals -/

/-- A signal that was just added: nothing was computed, read or told yet. -/
structure Node.Fresh (n : Node P F Φ) : Prop where
  dependents_eq : n.dependents = []
  seen_eq : n.seen = []
  inner?_eq : n.inner? = none
  derived : n.form.isDerived = true → n.memo = {}
  given : n.form = .constant ∨ n.form = .cell → ∃ o, n.memo = .given o
  waiting : n.form = .reference none → n.memo = ⟨some (.error .unresolvedRef), 0, false⟩

/-- Signals were added at the end, and nothing else has changed. -/
structure Grows (g g' : Graph P F Φ) : Prop where
  size_le : g.size ≤ g'.size
  node_eq : ∀ j < g.size, g'.node j = g.node j
  fresh : ∀ j, g.size ≤ j → (g'.node j).Fresh

theorem Grows.frame {b : Behaviour P F Φ} {rank rank' : SignalId → Nat} {g g' : Graph P F Φ}
    (h : Grows g g') (hs : g.Shaped b rank) (hs' : g'.Shaped b rank') :
    Frame (fun _ => False) g g' where
  size_le := h.size_le
  form_eq j hj := by rw [h.node_eq j hj]
  anchor_eq := by
    refine Graph.target?_induction hs.descends
      (C := fun j => j < g.size → g'.anchor j = g.anchor j) ?_ ?_
    · intro j ht hj
      rw [Graph.anchor_of_target?_none ht, Graph.anchor_of_target?_none (by rwa [h.node_eq j hj])]
    · intro j t ht ih hj
      rw [Graph.anchor_of_target? hs.descends ht,
        Graph.anchor_of_target? hs'.descends (t := t) (by rwa [h.node_eq j hj])]
      exact ih (hs.upstream_lt j t (Form.mem_upstream_of_target? ht))
  ahead j hj := by
    rw [h.node_eq j hj]
    exact .refl _
  memo_eq j hj _ := by rw [h.node_eq j hj]
  seen_eq j hj _ := by rw [h.node_eq j hj]
  inner?_eq j hj _ := by rw [h.node_eq j hj]
  registered j _ _ a ha := by
    unfold Graph.Registered at *
    rwa [h.node_eq a (Graph.lt_size_of_registered ha)]
  quiet a ha _ j hreg := by
    unfold Graph.Registered at *
    rwa [h.node_eq a ha] at hreg

/-- Signals of a rank below `k` were added. -/
structure Extends (b : Behaviour P F Φ) (k : Nat) (rank rank' : SignalId → Nat)
    (g g' : Graph P F Φ) : Prop where
  grows : Grows g g'
  shaped : g'.Shaped b rank'
  rank_eq : ∀ j < g.size, rank' j = rank j
  rank_new : ∀ j, g.size ≤ j → j < g'.size → rank' j < k

section

variable [Carrier P] {b : Behaviour P F Φ}

/-- A signal that was just added is coherent. -/
theorem coherentAt_of_fresh {g : Graph P F Φ} {id : SignalId} (h : (g.node id).Fresh) :
    CoherentAt b g id := by
  refine ⟨?_, ?_, ?_, ?_, ?_, ?_, ?_, ?_, ?_⟩
  · intro hf
    obtain ⟨o, ho⟩ := h.given hf
    rw [ho]
    exact ⟨rfl, Nat.one_pos⟩
  · intro hf
    exact h.waiting hf
  · intro hd
    rw [h.derived hd]
    simp
  · intro _
    exact .inl h.seen_eq
  · intro hd hsome
    rw [h.derived hd] at hsome
    cases hsome
  · intro inner hi
    rw [h.inner?_eq] at hi
    cases hi
  · intro inner hi
    rw [h.inner?_eq] at hi
    cases hi
  · intro _ d hreg
    unfold Graph.Registered at hreg
    rw [h.dependents_eq] at hreg
    cases hreg
  · intro hd hclean
    rw [h.derived hd] at hclean
    cases hclean

/-! ### Progress below a rank -/

/-- Every signal of a rank below that of `me` is coherent. -/
def CoherentBelow (b : Behaviour P F Φ) (rank : SignalId → Nat) (me : SignalId)
    (g : Graph P F Φ) : Prop :=
  ∀ j, rank j < rank me → CoherentAt b g j

/-- On the way to bringing `me` up to date, at most signals below it and `me` itself have changed,
    and what was added is below it.  The signals below it are coherent again. -/
structure Progress (b : Behaviour P F Φ) (me : SignalId) (rank rank' : SignalId → Nat)
    (g g' : Graph P F Φ) : Prop where
  frame : Frame (fun j => rank j < rank me ∨ j = me) g g'
  rank_eq : ∀ j < g.size, rank' j = rank j
  rank_new : ∀ j, g.size ≤ j → j < g'.size → rank' j < rank me
  size_eq : ¬ b.adds → g'.size = g.size
  shaped : g'.Shaped b rank'
  coherent : ∀ j, rank' j < rank me → CoherentAt b g' j

namespace Progress

variable {me : SignalId} {rank rank' rank'' : SignalId → Nat} {g g' g'' : Graph P F Φ}

theorem coherentBelow (h : Progress b me rank rank' g g') (hme : me < g.size) :
    CoherentBelow b rank' me g' := by
  intro j hj
  rw [h.rank_eq me hme] at hj
  exact h.coherent j hj

theorem refl (hs : g.Shaped b rank) (hc : CoherentBelow b rank me g) :
    Progress b me rank rank g g where
  frame := .refl _ _
  rank_eq _ _ := rfl
  rank_new _ hge hlt := absurd hlt (Nat.not_lt.mpr hge)
  size_eq _ := rfl
  shaped := hs
  coherent := hc

theorem trans (h : Progress b me rank rank' g g') (h' : Progress b me rank' rank'' g' g'')
    (hme : me < g.size) : Progress b me rank rank'' g g'' := by
  have hlt : ∀ j < g.size, j < g'.size := fun j hj => Nat.lt_of_lt_of_le hj h.frame.size_le
  have hrank := h.rank_eq me hme
  refine ⟨?_, ?_, ?_, fun hadds => (h'.size_eq hadds).trans (h.size_eq hadds), h'.shaped, ?_⟩
  · apply h.frame.trans h'.frame
    intro j hj
    rw [h.rank_eq j hj, hrank]
    exact id
  · intro j hj
    rw [h'.rank_eq j (hlt j hj), h.rank_eq j hj]
  · intro j hge hlt'
    rw [← hrank]
    by_cases hj : j < g'.size
    · rw [h'.rank_eq j hj, hrank]
      exact h.rank_new j hge hj
    · exact h'.rank_new j (Nat.le_of_not_lt hj) hlt'
  · rw [← hrank]
    exact h'.coherent

/-- A change of `me` alone, or of nothing that is not up to date. -/
theorem of_frame {T : SignalId → Prop} (hstable : b.Stable) (hf : Frame T g g')
    (hT : ∀ j, T j → j = me) (hsize : g'.size = g.size) (hs : g.Shaped b rank)
    (hs' : g'.Shaped b rank) (hc : CoherentBelow b rank me g) : Progress b me rank rank g g' where
  frame := hf.mono fun j _ hj => .inr (hT j hj)
  rank_eq _ _ := rfl
  rank_new j hge hlt := by
    rw [hsize] at hlt
    exact absurd hlt (Nat.not_lt.mpr hge)
  size_eq _ := hsize
  shaped := hs'
  coherent j hj := by
    by_cases hlt : j < g.size
    · apply hf.coherentAt hs hstable (hc j hj) hlt
      left
      intro hjT
      rw [hT j hjT] at hj
      exact Nat.lt_irrefl _ hj
    · exact coherentAt_of_size_le (by rw [hsize]; exact Nat.le_of_not_lt hlt)

theorem of_extends (hstable : b.Stable) (h : Extends b (rank me) rank rank' g g')
    (hs : g.Shaped b rank) (hsize : ¬ b.adds → g'.size = g.size)
    (hc : CoherentBelow b rank me g) : Progress b me rank rank' g g' where
  frame := (h.grows.frame hs h.shaped).mono fun _ _ hj => hj.elim
  rank_eq := h.rank_eq
  rank_new := h.rank_new
  size_eq := hsize
  shaped := h.shaped
  coherent j hj := by
    by_cases hlt : j < g.size
    · rw [h.rank_eq j hlt] at hj
      exact (h.grows.frame hs h.shaped).coherentAt hs hstable (hc j hj) hlt (.inl id)
    · exact coherentAt_of_fresh (h.grows.fresh j (Nat.le_of_not_lt hlt))

/-- What is coherent besides stays so: it is `me`, new, below `me` or untouched. -/
theorem coherentAt (hstable : b.Stable) (h : Progress b me rank rank' g g') (hs : g.Shaped b rank)
    (hme : CoherentAt b g' me) {j : SignalId} (hj : j < g.size → CoherentAt b g j) :
    CoherentAt b g' j := by
  by_cases hlt : j < g.size
  · by_cases htouched : rank j < rank me ∨ j = me
    · rcases htouched with hr | rfl
      · exact h.coherent j (by rwa [h.rank_eq j hlt])
      · exact hme
    · exact h.frame.coherentAt hs hstable (hj hlt) hlt (.inl htouched)
  · by_cases hlt' : j < g'.size
    · exact h.coherent j (h.rank_new j (Nat.le_of_not_lt hlt) hlt')
    · exact coherentAt_of_size_le (Nat.le_of_not_lt hlt')

/-- Bringing one signal up to date is progress for every signal above. -/
theorem widen {s : SignalId} (hstable : b.Stable) (h : Progress b s rank rank' g g')
    (hs : g.Shaped b rank) (hmine : CoherentAt b g' s) (hrank : rank s < rank me)
    (hc : CoherentBelow b rank me g) : Progress b me rank rank' g g' where
  frame := by
    apply h.frame.mono
    rintro j _ (hj | rfl)
    · exact .inl (hj.trans hrank)
    · exact .inl hrank
  rank_eq := h.rank_eq
  rank_new j hge hlt := (h.rank_new j hge hlt).trans hrank
  size_eq := h.size_eq
  shaped := h.shaped
  coherent j hj := h.coherentAt hstable hs hmine fun hlt => hc j (by rwa [← h.rank_eq j hlt])

end Progress

end

end ReactiveDoc.Signal
