import ReactiveDoc.Proofs.Signal.Overwriting

namespace ReactiveDoc.Signal

/-!
# Watchers hear of changes

A watcher that is not pending is on the list of those that its signal tells.  Such a list is
forgotten when it is told, but then the watcher is pending.

* `watchers_notifyAll` — telling dependents takes a watcher off a list only by telling it.
* `Graph.Awaits` — a watcher will be told of the next change of a signal that is up to date.
* `Alerts` — a watcher that is not told finds the signal as it was, and will be told.
* `Change.alerts` — every request that fits does nothing else to watchers.
-/

variable {P F Φ σ : Type}

/-- The watcher after it has been told, or not. -/
def Watcher.alerted (told : Bool) (k : Watcher) : Watcher := { k with pending := k.pending || told }

namespace Graph

variable {g g' : Graph P F Φ} {k : Nat} {a c : SignalId}

/-- The watcher is on the list of those that are told of the next change of `a`. -/
def Attends (g : Graph P F Φ) (k : Nat) (a : SignalId) : Prop :=
  Dependent.watcher k ∈ (g.node a).dependents

/-- A watcher is told if it is among the given dependents.  If it is on a list before and not any
    more, it has been told as well. -/
theorem watchers_notifyAll (g : Graph P F Φ) (ds : List Dependent) (k : Nat) :
    ∃ told, (g.notifyAll ds).watchers[k]? = g.watchers[k]?.map (Watcher.alerted told) ∧
      (.watcher k ∈ ds → told = true) ∧
      ∀ a, g.Attends k a → ¬ (g.notifyAll ds).Attends k a → told = true := by
  fun_induction notifyAll g ds with
  | case1 g =>
    refine ⟨false, ?_, by simp, fun a h h' => absurd h h'⟩
    cases g.watchers[k]? <;> simp [Watcher.alerted]
  | case2 g c rest ih =>
    obtain ⟨told, heq, hmem, hattends⟩ := ih
    refine ⟨told, heq, fun h => hmem (List.mem_append_right _ ?_), fun a h h' => ?_⟩
    · rcases List.mem_cons.mp h with h | h
      · cases h
      · exact h
    · by_cases ha : a = c
      -- A signal that is told passes its dependents on to be told.
      · subst ha
        exact hmem (List.mem_append_left _ h)
      · refine hattends a ?_ h'
        unfold Attends at h ⊢
        rwa [mark_eq, node_modify_of_ne g _ ha]
  | case3 g index rest ih =>
    obtain ⟨told, heq, hmem, hattends⟩ := ih
    by_cases hk : index = k
    · subst hk
      refine ⟨true, ?_, fun _ => rfl, fun _ _ _ => rfl⟩
      rw [heq]
      simp only [Array.getElem?_modify, if_true, Option.map_map]
      cases g.watchers[index]? <;> simp [Watcher.alerted]
    · refine ⟨told, ?_, fun h => hmem ?_, fun a h => hattends a h⟩
      · rw [heq]
        simp only [Array.getElem?_modify, if_neg hk]
      · rcases List.mem_cons.mp h with h | h
        · cases h
          exact absurd rfl hk
        · exact h
  | case4 g index rest ih =>
    obtain ⟨told, heq, hmem, hattends⟩ := ih
    refine ⟨told, heq, fun h => hmem ?_, fun a h => hattends a h⟩
    rcases List.mem_cons.mp h with h | h
    · cases h
    · exact h

/-- The signal is up to date, and tells the watcher of its next change if there is to be one. -/
structure Awaits (g : Graph P F Φ) (k : Nat) (a : SignalId) : Prop where
  upToDate : g.UpToDate a
  attends : (g.node a).form.remembers = true → g.Attends k a

theorem Awaits.congr (h : g.Awaits k a) (hnode : g'.node a = g.node a) : g'.Awaits k a := by
  obtain ⟨hup, hattends⟩ := h
  refine ⟨?_, ?_⟩
  · unfold UpToDate at hup ⊢
    rwa [hnode]
  · unfold Attends at hattends ⊢
    rwa [hnode]

theorem Attends.becomes {n : Node P F Φ} (h : g.Attends k a) (hb : Becomes c n g g')
    (hn : n.dependents = (g.node c).dependents) : g'.Attends k a := by
  unfold Attends at h ⊢
  by_cases ha : a = c
  · subst ha
    rwa [hb.node_eq, hn]
  · rwa [hb.node_ne a ha]

theorem Attends.depend (h : g.Attends k a) (s : SignalId) (d : Dependent) :
    (g.depend s d).Attends k a := by
  unfold Attends Graph.depend at *
  rw [node_modify]
  split
  · rename_i heq
    rw [heq.1] at h
    split
    · exact h
    · exact List.mem_append_left _ h
  · exact h

end Graph

/-- From `g` to `g'` signals have moved ahead.  A watcher that was not told finds the signal that it
    waits for as it was. -/
structure Alerts (g g' : Graph P F Φ) : Prop where
  size_le : g.size ≤ g'.size
  watcher : ∀ k : Nat, ∃ told, g'.watchers[k]? = g.watchers[k]?.map (Watcher.alerted told)
  ahead : ∀ s < g.size, (g.node (g.anchor s)).memo.Ahead (g'.node (g'.anchor s)).memo
  kept : ∀ (k : Nat) (w : Watcher), g'.watchers[k]? = some w → w.pending = false → ∀ s < g.size,
    g.Awaits k (g.anchor s) → g'.anchor s = g.anchor s ∧ g'.Awaits k (g.anchor s) ∧
      (g'.node (g.anchor s)).memo = (g.node (g.anchor s)).memo

namespace Alerts

variable {g g' g'' : Graph P F Φ}

theorem refl (g : Graph P F Φ) : Alerts g g := by
  refine ⟨Nat.le_refl _, fun k => ⟨false, ?_⟩, fun _ _ => .refl _, fun _ _ _ _ _ _ h => ⟨rfl, h, rfl⟩⟩
  cases g.watchers[k]? <;> simp [Watcher.alerted]

theorem trans (h : Alerts g g') (h' : Alerts g' g'') : Alerts g g'' := by
  refine ⟨h.size_le.trans h'.size_le, fun k => ?_, fun s hs => ?_, fun k w hw hp s hs hawaits => ?_⟩
  · obtain ⟨told, heq⟩ := h.watcher k
    obtain ⟨told', heq'⟩ := h'.watcher k
    refine ⟨told || told', ?_⟩
    rw [heq', heq, Option.map_map]
    congr 1
    funext w
    simp [Watcher.alerted, Bool.or_assoc]
  · exact (h.ahead s hs).trans (h'.ahead s (Nat.lt_of_lt_of_le hs h.size_le))
  · obtain ⟨told, heq⟩ := h'.watcher k
    rw [hw] at heq
    obtain ⟨w₁, hw₁, rfl⟩ := Option.map_eq_some_iff.mp heq.symm
    have hp₁ : w₁.pending = false := (Bool.or_eq_false_iff.mp hp).1
    obtain ⟨hanchor, hawaits₁, hmemo⟩ := h.kept k w₁ hw₁ hp₁ s hs hawaits
    rw [← hanchor] at hawaits₁
    obtain ⟨hanchor', hawaits', hmemo'⟩ :=
      h'.kept k _ hw hp s (Nat.lt_of_lt_of_le hs h.size_le) hawaits₁
    rw [hanchor] at hanchor' hawaits' hmemo'
    exact ⟨hanchor', hawaits', hmemo'.trans hmemo⟩

/-- No watcher is told, where signals that are up to date keep what they remember, and their
    lists only grow. -/
theorem of_frame {b : Behaviour P F Φ} {rank : SignalId → Nat} {T : SignalId → Prop}
    (hs : g.Shaped b rank) (hframe : Frame T g g') (hwatchers : g'.watchers = g.watchers)
    (hattends : ∀ k a, g.Attends k a → g'.Attends k a) : Alerts g g' := by
  refine ⟨hframe.size_le, fun k => ⟨false, ?_⟩, fun s => hframe.ahead_anchor hs,
    fun k w _ _ s hlt hawaits => ?_⟩
  · rw [hwatchers]
    cases g.watchers[k]? <;> simp [Watcher.alerted]
  · have ha := hs.anchor_lt hlt
    refine ⟨hframe.anchor_eq s hlt, ⟨hframe.upToDate ha hawaits.upToDate, fun hrem => ?_⟩,
      hframe.memo_eq _ ha (.inr hawaits.upToDate)⟩
    rw [hframe.form_eq _ ha] at hrem
    exact hattends k _ (hawaits.attends hrem)

/-- No watcher is told, where lists of watchers grow and nothing else changes. -/
theorem of_alike (hsame : g.Alike g') (hwatchers : g'.watchers = g.watchers)
    (hattends : ∀ k a, g.Attends k a → g'.Attends k a) : Alerts g g' := by
  refine ⟨Nat.le_of_eq hsame.size_eq.symm, fun k => ⟨false, ?_⟩, fun s _ => hsame.ahead s,
    fun k w _ _ s _ hawaits => ?_⟩
  · rw [hwatchers]
    cases g.watchers[k]? <;> simp [Watcher.alerted]
  · obtain ⟨hform, hmemo, -⟩ := hsame.node_eq (g.anchor s)
    refine ⟨hsame.anchor_eq s, ⟨hsame.upToDate_iff.mpr hawaits.upToDate, fun hrem => ?_⟩, hmemo⟩
    rw [hform] at hrem
    exact hattends k _ (hawaits.attends hrem)

/-- A signal moves ahead that was not up to date, or keeps what it remembers. -/
theorem becomes {c : SignalId} {n : Node P F Φ} (hb : Becomes c n g g') (hform : n.form = (g.node c).form)
    (hdeps : n.dependents = (g.node c).dependents) (hahead : (g.node c).memo.Ahead n.memo)
    (hkept : g.UpToDate c → n.memo = (g.node c).memo) (hwatchers : g'.watchers = g.watchers) :
    Alerts g g' := by
  have hanchor := hb.anchor_eq hform
  refine ⟨Nat.le_of_eq hb.size_eq.symm, fun k => ⟨false, ?_⟩, fun s hlt => ?_,
    fun k w _ _ s hlt hawaits => ?_⟩
  · rw [hwatchers]
    cases g.watchers[k]? <;> simp [Watcher.alerted]
  · rw [hanchor]
    by_cases ha : g.anchor s = c
    · rwa [ha, hb.node_eq]
    · rw [hb.node_ne _ ha]
      exact .refl _
  · refine ⟨hanchor s, ?_⟩
    by_cases ha : g.anchor s = c
    · rw [ha] at hawaits ⊢
      have hmemo := hkept hawaits.upToDate
      refine ⟨⟨?_, fun hrem => ?_⟩, by rw [hb.node_eq, hmemo]⟩
      · have hup := hawaits.upToDate
        unfold Graph.UpToDate at hup ⊢
        rwa [hb.node_eq, hform, hmemo]
      · rw [hb.node_eq, hform] at hrem
        exact (hawaits.attends hrem).becomes hb hdeps
    · have hnode := hb.node_ne _ ha
      exact ⟨hawaits.congr hnode, by rw [hnode]⟩

/-- A signal changes and its dependents are told. -/
theorem retold {b : Behaviour P F Φ} {rank : SignalId → Nat} {c : SignalId} {n : Node P F Φ}
    (hs : g.Shaped b rank) (hrem : (g.node c).form.remembers = true)
    (hanchor : ∀ s < g.size, g.anchor s ≠ c → (g.retold c n).anchor s = g.anchor s)
    (hahead : ∀ s < g.size, (g.node (g.anchor s)).memo.Ahead
      ((g.retold c n).node ((g.retold c n).anchor s)).memo) : Alerts g (g.retold c n) := by
  have htold := (g.modify c fun _ => { n with dependents := [] }).watchers_notifyAll
    (g.node c).dependents
  refine ⟨Nat.le_of_eq (g.size_retold c n).symm, fun k => ?_, hahead, fun k w hw hp s hlt hawaits => ?_⟩
  · obtain ⟨told, heq, -⟩ := htold k
    exact ⟨told, heq⟩
  · obtain ⟨told, heq, hmem, hattends⟩ := htold k
    have hquiet : told = false := by
      have hw' : (g.retold c n).watchers[k]? = g.watchers[k]?.map (Watcher.alerted told) := heq
      rw [hw] at hw'
      obtain ⟨w₀, -, rfl⟩ := Option.map_eq_some_iff.mp hw'.symm
      exact (Bool.or_eq_false_iff.mp hp).2
    subst hquiet
    have hne : g.anchor s ≠ c := by
      intro heq
      have := hmem (by simpa [Graph.Attends, heq] using hawaits.attends (heq ▸ hrem))
      cases this
    -- A signal that was told has lost its list, and the watcher would have been told with it.
    have hnode : (g.retold c n).node (g.anchor s) = g.node (g.anchor s) := by
      rcases g.node_retold_cases n hne (hs.anchor_lt hlt) with ⟨hears, hnode⟩ | ⟨-, hnode⟩
      · have hderived := Graph.isDerived_of_hears hs hears
        have hbefore := hawaits.attends (Form.remembers_of_isDerived hderived)
        have := hattends (g.anchor s) (by
          unfold Graph.Attends at hbefore ⊢
          rwa [Graph.node_modify_of_ne g _ hne]) (by
          show ¬ (g.retold c n).Attends k (g.anchor s)
          unfold Graph.Attends
          rw [hnode]
          exact nofun)
        cases this
      · exact hnode
    exact ⟨hanchor s hlt hne, hawaits.congr hnode, by rw [hnode]⟩

end Alerts

/-! ### Requests -/

variable [Carrier P] {fn : F → P → Outcome P} {inv : F → P → P} {g g' : Graph P F Φ}
  {w w' : World P F Φ σ} {id source : SignalId} {o : Outcome P}

/-- Moves tell no watcher. -/
theorem Moves.watchers {A : Effect P F Φ σ} {ran : List SignalId} (h : Moves A w ran w') :
    w'.graph.watchers = w.graph.watchers ∧
      ∀ k a, w.graph.Attends k a → w'.graph.Attends k a := by
  induction h with
  | refl => exact ⟨rfl, fun _ _ h => h⟩
  | tail _ hmove ih =>
    obtain ⟨hwatchers, hattends⟩ := ih
    cases hmove with
    | register hsource =>
      exact ⟨hwatchers, fun k a h => (hattends k a h).depend _ _⟩
    | confirm hdue =>
      exact ⟨hwatchers, fun k a h =>
        (hattends k a h).becomes (Graph.becomes_cleaned hdue.lt_size) rfl⟩
    | renew hdue =>
      exact ⟨hwatchers, fun k a h =>
        (hattends k a h).becomes (Graph.becomes_renewed hdue.lt_size _) rfl⟩

theorem Updates.alerts (h : Updates fn id w w') (hintact : Intact fn w.graph) :
    Alerts w.graph w'.graph := by
  obtain ⟨rank, hs, hle⟩ := hintact.sound.exists_rank Behaviour.lenient_regular
  obtain ⟨ran, hreach⟩ := h.reaches rank hs (by simpa using hle (w.graph.anchor id))
  obtain ⟨hwatchers, hattends⟩ := hreach.moves.watchers
  exact .of_frame hs h.frame hwatchers hattends

/-- A new signal is nobody's. -/
theorem Intact.alerts_create (h : Intact fn g) {c : Creation P F Φ}
    (hsources : ∀ s ∈ c.sources, s < g.size) (hchoice : ∀ source choice, c ≠ .flatMap source choice) :
    Alerts g (c.apply g).2 := by
  obtain ⟨rank, hs⟩ := h.sound.shaped
  refine .of_frame hs (h.frame_create hsources hchoice) ?_ fun k a hattends => ?_
  · rw [c.apply_eq]
    rfl
  · have hlt : a < g.size := by
      by_contra hlt
      unfold Graph.Attends at hattends
      rw [g.node_of_size_le (Nat.le_of_not_lt hlt)] at hattends
      cases hattends
    unfold Graph.Attends at hattends ⊢
    rcases c.node_cases g a with ⟨rfl, -⟩ | ⟨-, hnode⟩ | ⟨hle, -⟩
    · exact absurd hlt (Nat.lt_irrefl _)
    · rwa [hnode]
    · exact absurd hlt (Nat.not_lt.mpr (Nat.le_of_lt hle))

/-- A map that takes over an outcome tells its dependents, if that is another one. -/
theorem Intact.alerts_takenOver (h : Intact fn g) {steps : List F} {inverse : F}
    (hform : (g.node id).form = .map source steps (.writable inverse))
    (hup : g.UpToDate (g.anchor source)) : Alerts g (g.takenOver id source o) := by
  obtain ⟨rank, hs⟩ := h.sound.shaped
  have hderived : (g.node id).form.isDerived = true := by
    rw [hform]
    rfl
  have hmem : source ∈ (g.node id).form.upstream := by
    rw [hform]
    exact List.mem_singleton_self _
  have hne : g.anchor source ≠ id := fun heq => by
    have hlt := Graph.rank_source_lt hs.descends hform
    rw [heq] at hlt
    exact Nat.lt_irrefl _ hlt
  rw [Graph.takenOver_eq hderived hne]
  -- To register is no change of an outcome.
  have hfirst : Alerts g (g.depend source (.signal id)) :=
    .of_frame hs (Graph.frame_depend id hup) rfl fun k a h => h.depend _ _
  have hintact := h.register hderived hmem hup
  have hholds : ((g.depend source (.signal id)).node id).memo.holds o = (g.node id).memo.holds o := by
    rw [(g.node_depend source _ id).2.1]
  have hform₀ : ((g.depend source (.signal id)).node id).form = .map source steps (.writable inverse) := by
    rw [(g.node_depend source _ id).1, hform]
  generalize g.depend source (.signal id) = g₀ at *
  obtain ⟨rank, hs⟩ := hintact.sound.shaped
  have hid₀ : id < g₀.size := g₀.lt_size_of_form_ne (by rw [hform₀]; exact nofun)
  have hahead : (g₀.node id).memo.Ahead (g₀.taken id source o).memo :=
    ⟨((g₀.node id).memo.ahead_store o).version_le, ((g₀.node id).memo.ahead_store o).outcome?_eq⟩
  refine hfirst.trans ?_
  split
  · rename_i hh
    have hmemo : (g₀.taken id source o).memo = { (g₀.node id).memo with dirty := false } := by
      unfold Graph.taken
      rw [Memo.store_of_holds (hholds.trans hh)]
    refine .becomes (.modify g₀ hid₀ fun _ => g₀.taken id source o) (by rfl) (by rfl) hahead
      (fun hup => ?_) rfl
    have hclean := hup (by rw [hform₀]; rfl)
    rw [hmemo, ← hclean]
  · refine .retold hs (by rw [hform₀]; rfl)
      (fun s _ _ => Graph.anchor_retold (by rfl) hid₀ s) fun s hslt => ?_
    exact Graph.ahead_anchor_retold (by rfl) hahead hid₀ (hs.anchor_lt hslt)

/-- So does every write. -/
theorem Overwritten.alerts (h : Overwritten inv g id o g') (hintact : Intact fn g) :
    Alerts g g' := by
  obtain ⟨rank, hs⟩ := hintact.sound.shaped
  induction h with
  | @cell id o hform =>
    have hlt : g.anchor id < g.size := g.lt_size_of_form_ne (by rw [hform]; exact nofun)
    unfold Graph.written
    split
    · exact .refl g
    · refine .retold hs (by rw [hform]; rfl) (fun s _ _ => Graph.anchor_retold (by rfl) hlt s)
        fun s hslt => ?_
      exact Graph.ahead_anchor_retold (by rfl) (Memo.ahead_store _ _) hlt (hs.anchor_lt hslt)
  | @through id source steps inverse o g₁ hform hover ih =>
    obtain ⟨hintact₁, hup⟩ := hover.intact hintact
    have hre := hover.rewritten hs.descends
    have hform₁ : (g₁.node (g.anchor id)).form = .map source steps (.writable inverse) := by
      rw [hre.form_eq, hform]
    exact ih.trans (hintact₁.alerts_takenOver hform₁ hup)

/-- Every request that fits tells the watchers of what it changes. -/
theorem Change.alerts {request : Request P F Φ} (h : Change fn inv w request w')
    (hintact : Intact fn w.graph) (hfits : request.Fits w.graph) : Alerts w.graph w'.graph := by
  obtain ⟨rank, hs⟩ := hintact.sound.shaped
  cases h with
  | create c => exact hintact.alerts_create hfits.1 hfits.2
  | set hover => exact hover.alerts hintact
  | refuse _ => exact .refl _
  | @resolve r t hwait =>
    obtain ⟨hr, ht, hcircle⟩ := hfits
    obtain ⟨rank', hd'⟩ := hcircle hwait
    exact .retold hs (by rw [hwait]; rfl)
      (fun s _ => hintact.anchor_resolved hwait hr ht hd')
      fun s => hintact.ahead_resolved hwait hr ht hd'
  | fail _ => exact .refl _
  | reconcile h => exact h.alerts hintact
  | get h => exact h.alerts hintact

end ReactiveDoc.Signal
