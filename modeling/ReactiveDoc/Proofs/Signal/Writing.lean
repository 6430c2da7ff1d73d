import ReactiveDoc.Proofs.Signal.Frame

namespace ReactiveDoc.Signal

/-!
# Writing cells and resolving references

* `Attentive` — every clean flat map hears of a change that concerns its source.
* `carried_retold` — then a signal whose dependents are told leaves every other one coherent.
* `Coherent.write` — writing a cell.
* `Coherent.resolve` — resolving a reference, if no flat map mistakes the target for what it has
  read already.
-/

variable {P F Φ : Type}

/-- Everything that is computed from others hears of a change of `c` that concerns them.  For all
    but flat maps this is so in every coherent graph. -/
def Attentive (g : Graph P F Φ) (c : SignalId) : Prop :=
  ∀ id source choice, (g.node id).form = .flatMap source choice → (g.node id).memo.dirty = false →
    (g.anchor source = c ∨ g.Hears c (g.anchor source)) → g.Hears c id

namespace Graph

variable {g : Graph P F Φ} {c : SignalId} {n : Node P F Φ}

/-- What is told of a change is computed from others. -/
theorem isDerived_of_hears {b : Behaviour P F Φ} {rank : SignalId → Nat} (hs : g.Shaped b rank)
    {a id : SignalId} (h : g.Hears a id) : (g.node id).form.isDerived = true := by
  cases h with
  | single h => exact hs.registered _ _ h
  | tail _ h => exact hs.registered _ _ h

theorem form_retold (n : Node P F Φ) {id : SignalId} (hid : id ≠ c) :
    ((g.retold c n).node id).form = (g.node id).form := by
  by_cases hlt : id < g.size
  · rcases g.node_retold_cases n hid hlt with ⟨-, h⟩ | ⟨-, h⟩
    · rw [h]
      rfl
    · rw [h]
  · rw [node_of_size_le _ (by rw [size_retold]; exact Nat.le_of_not_lt hlt),
      node_of_size_le _ (Nat.le_of_not_lt hlt)]

/-- Another signal keeps its outcome and version. -/
theorem ahead_retold (n : Node P F Φ) {id : SignalId} (hid : id ≠ c) (hlt : id < g.size) :
    (g.node id).memo.Ahead ((g.retold c n).node id).memo := by
  rcases g.node_retold_cases n hid hlt with ⟨-, h⟩ | ⟨-, h⟩
  · rw [h]
    exact ⟨Nat.le_refl _, fun _ _ => rfl⟩
  · rw [h]
    exact .refl _

theorem registered_of_retold (hdeps : c < g.size) {a id : SignalId}
    (h : (g.retold c n).Registered a id) : g.Registered a id := by
  have hlt : a < g.size := by
    have := lt_size_of_registered h
    rwa [size_retold] at this
  unfold Registered at *
  by_cases ha : a = c
  · rw [ha] at h
    rcases node_retold_self n hdeps with hn | hn <;> rw [hn] at h <;> cases h
  · rcases g.node_retold_cases n ha hlt with ⟨-, hn⟩ | ⟨-, hn⟩
    · rw [hn] at h
      cases h
    · rwa [hn] at h

end Graph

section

variable {b : Behaviour P F Φ} {g : Graph P F Φ} {rank rank' : SignalId → Nat} {c r t : SignalId}
  {n : Node P F Φ}

/-- A signal that is up to date hears of every change of `c` that concerns its sources. -/
theorem hears_of_settled {id s : SignalId}
    (hs : g.Shaped b rank) (hatt : Attentive g c) (hrem : (g.node c).form.remembers = true)
    (hset : Settled b g id) (hclean : (g.node id).memo.dirty = false)
    (hsource : s ∈ (g.node id).form.upstream ∨ ∃ inner, (g.node id).inner? = some inner ∧
      inner.signal = s)
    (hheard : g.anchor s = c ∨ g.Hears c (g.anchor s)) : g.Hears c id := by
  have hanchor : (g.node (g.anchor s)).form.remembers = true := by
    rcases hheard with h | h
    · rwa [h]
    · exact Form.remembers_of_isDerived (Graph.isDerived_of_hears hs h)
  have hreach : g.Registered (g.anchor s) id → g.Hears c id := by
    intro hreg
    rcases hheard with h | h
    · rw [h] at hreg
      exact .single hreg
    · exact h.tail hreg
  rcases hsource with hmem | ⟨inner, hi, rfl⟩
  · cases hform : (g.node id).form with
    | flatMap source choice =>
      rw [hform] at hmem
      rw [List.mem_singleton.mp hmem] at hheard
      exact hatt id source choice hform hclean hheard
    | _ => exact hreach (hset.registered (.inr (by rw [hform]; simp)) s hmem hanchor)
  · exact hreach (hset.inner_registered inner hi hanchor)

/-- The signal itself has the form of what it has become. -/
theorem Graph.form_retold_self (n : Node P F Φ) (hlt : c < g.size) :
    ((g.retold c n).node c).form = n.form := by
  rcases Graph.node_retold_self n hlt with h | h <;> rw [h]
  rfl

/-- When the dependents of a signal of the same form are told, signals stand for what they did. -/
theorem Graph.anchor_retold (hform : n.form = (g.node c).form) (hlt : c < g.size) (s : SignalId) :
    (g.retold c n).anchor s = g.anchor s := by
  apply Graph.anchor_congr (g.size_retold c n)
  intro id
  by_cases hid : id = c
  · rw [hid, Graph.form_retold_self n hlt, hform]
  · exact Graph.form_retold n hid

theorem Graph.evolves_retold (hs : g.Shaped b rank) (hne : (g.node c).form ≠ .constant)
    (hform : n.form = (g.node c).form) (hlt : c < g.size) : g.Evolves (g.retold c n) := by
  refine ⟨Nat.le_of_eq (g.size_retold c n).symm, ?_, ?_⟩
  · intro id _
    by_cases hid : id = c
    · rw [hid, Graph.form_retold_self n hlt, hform]
    · exact Graph.form_retold n hid
  · intro id hconst
    have hid : id ≠ c := by
      rintro rfl
      exact hne hconst
    rcases g.node_retold_cases n hid (g.lt_size_of_form_ne (by rw [hconst]; simp)) with
      ⟨hears, -⟩ | ⟨-, h⟩
    · have := Graph.isDerived_of_hears hs hears
      rw [hconst] at this
      cases this
    · rw [h]

theorem Graph.All.retold {good : P → Prop} {fine : F → Prop} (h : g.All good fine)
    (hn : n.All good fine) (hlt : c < g.size) : (g.retold c n).All good fine := by
  intro id
  by_cases hid : id = c
  · rw [hid]
    rcases Graph.node_retold_self n hlt with hself | hself <;> rw [hself]
    · exact hn.congr rfl rfl
    · exact hn.congr rfl rfl
  · by_cases hidlt : id < g.size
    · rcases g.node_retold_cases n hid hidlt with ⟨-, hnode⟩ | ⟨-, hnode⟩ <;> rw [hnode]
      · exact (h id).congr rfl rfl
      · exact h id
    · rw [Graph.node_of_size_le _ (by rw [Graph.size_retold]; exact Nat.le_of_not_lt hidlt)]
      exact Node.all_unresolved

theorem Graph.Shaped.retold (hs : g.Shaped b rank) (hstable : b.Stable)
    (hne : (g.node c).form ≠ .constant) (hform : n.form = (g.node c).form)
    (hinner : n.inner? = (g.node c).inner?) (hall : n.All b.good b.fine) (hlt : c < g.size) :
    (g.retold c n).Shaped b rank := by
  have hev := Graph.evolves_retold hs hne hform hlt
  refine hs.of_same hstable hev (g.size_retold c n) ?_ ?_ ?_ (hs.all.retold hall hlt)
  · intro id
    by_cases hid : id = c
    · rw [hid, Graph.form_retold_self n hlt, hform]
    · exact Graph.form_retold n hid
  · intro id
    by_cases hid : id = c
    · rw [hid, ← hinner]
      rcases Graph.node_retold_self n hlt with h | h <;> rw [h]
      rfl
    · by_cases hidlt : id < g.size
      · rcases g.node_retold_cases n hid hidlt with ⟨-, h⟩ | ⟨-, h⟩ <;> rw [h]
        rfl
      · rw [Graph.node_of_size_le _ (by rw [Graph.size_retold]; exact Nat.le_of_not_lt hidlt),
          Graph.node_of_size_le _ (Nat.le_of_not_lt hidlt)]
  · exact fun a j h => .inl (Graph.registered_of_retold hlt h)

/-! ### References that get a target -/

/-- No flat map mistakes the target of a reference for what it has read already.  A flat map that
    has read the reference without a target remembers version `1` for it: the target must have a
    later one, or fail like the reference. -/
def TellsApart (g : Graph P F Φ) (reference target : SignalId) : Prop :=
  ∀ id inner, (g.node id).inner? = some inner → g.anchor inner.signal = reference →
    2 ≤ g.version target ∨
      (g.node (g.anchor target)).memo.outcome? = some (.error .unresolvedRef)

/-- A reference with the given target, before anything was read through it. -/
def Node.resolved (target : SignalId) : Node P F Φ := { form := .reference (some target) }

theorem Graph.form_resolved (hlt : r < g.size) :
    ((g.retold r (Node.resolved t)).node r).form = .reference (some t) :=
  Graph.form_retold_self _ hlt

/-- What did not stand for the reference stands for what it did; the rest stands for the target. -/
theorem Graph.anchor_resolved (hd : g.Descends rank)
    (hd' : (g.retold r (Node.resolved t)).Descends rank') (hlt : r < g.size)
    (hwait : (g.node r).form = .reference none) (s : SignalId) :
    (g.anchor s ≠ r → (g.retold r (Node.resolved t)).anchor s = g.anchor s) ∧
      (g.anchor s = r → (g.retold r (Node.resolved t)).anchor s
          = (g.retold r (Node.resolved t)).anchor t ∧ rank' r ≤ rank' s) := by
  refine Graph.target?_induction hd
    (C := fun s => (g.anchor s ≠ r → (g.retold r (Node.resolved t)).anchor s = g.anchor s) ∧
      (g.anchor s = r → (g.retold r (Node.resolved t)).anchor s
          = (g.retold r (Node.resolved t)).anchor t ∧ rank' r ≤ rank' s)) ?_ ?_ s
  · intro id hend
    rw [Graph.anchor_of_target?_none hend]
    constructor
    · intro hne
      exact Graph.anchor_of_target?_none (by rw [Graph.form_retold _ hne, hend])
    · rintro rfl
      refine ⟨Graph.anchor_of_target? hd' ?_, Nat.le_refl _⟩
      rw [Graph.form_resolved hlt]
      rfl
  · intro id u hu ih
    have hne : id ≠ r := by
      rintro rfl
      rw [hwait] at hu
      cases hu
    have hu' : ((g.retold r (Node.resolved t)).node id).form.target? = some u := by
      rw [Graph.form_retold _ hne, hu]
    rw [Graph.anchor_of_target? hd hu, Graph.anchor_of_target? hd' hu']
    refine ⟨ih.1, fun h => ⟨(ih.2 h).1, ?_⟩⟩
    have := hd' id u (Form.mem_upstream_of_target? hu')
    have := (ih.2 h).2
    omega

/-- The target does not stand for the reference itself. -/
theorem Graph.anchor_target_ne (hd : g.Descends rank)
    (hd' : (g.retold r (Node.resolved t)).Descends rank') (hlt : r < g.size)
    (hwait : (g.node r).form = .reference none) : g.anchor t ≠ r := by
  intro h
  have hle := ((Graph.anchor_resolved hd hd' hlt hwait t).2 h).2
  have := hd' r t (by rw [Graph.form_resolved hlt]; exact List.mem_singleton_self _)
  omega

theorem Graph.evolves_resolved (hs : g.Shaped b rank) (hwait : (g.node r).form = .reference none) :
    g.Evolves (g.retold r (Node.resolved t)) := by
  have hne : ∀ id, (g.node id).form ≠ .reference none → id ≠ r := by
    rintro _ hf rfl
    exact hf hwait
  refine ⟨Nat.le_of_eq (g.size_retold _ _).symm, fun id hf => Graph.form_retold _ (hne id hf), ?_⟩
  intro id hconst
  have hid : id ≠ r := hne id (by rw [hconst]; simp)
  rcases g.node_retold_cases (Node.resolved t) hid
    (g.lt_size_of_form_ne (by rw [hconst]; simp)) with ⟨hears, -⟩ | ⟨-, h⟩
  · have := Graph.isDerived_of_hears hs hears
    rw [hconst] at this
    cases this
  · rw [h]

end

/-! ### Coherence -/

variable [Carrier P] {b : Behaviour P F Φ}

/-- Every signal is coherent. -/
def Coherent (b : Behaviour P F Φ) (g : Graph P F Φ) : Prop := ∀ id, CoherentAt b g id

section

variable {g : Graph P F Φ} {rank : SignalId → Nat} {c : SignalId} {n : Node P F Φ}

/-- A signal other than `c` is carried over when the dependents of `c` are told, if its sources
    move ahead. -/
theorem carried_retold (hs : g.Shaped b rank) (hc : Coherent b g)
    (hrem : (g.node c).form.remembers = true) (hatt : Attentive g c)
    (hanchor : ∀ s < g.size, g.anchor s ≠ c → (g.retold c n).anchor s = g.anchor s)
    (hahead : ∀ s < g.size,
      (g.node (g.anchor s)).memo.Ahead ((g.retold c n).node ((g.retold c n).anchor s)).memo)
    {id : SignalId}
    (hzero : ∀ inner, (g.node id).inner? = some inner → (g.retold c n).version inner.signal = 0 →
      ((g.retold c n).node ((g.retold c n).anchor inner.signal)).form = .reference none)
    (hvalue : ∀ inner, (g.node id).inner? = some inner →
      max ((g.retold c n).version inner.signal) 1 = max (g.version inner.signal) 1 →
        (g.retold c n).Computed inner.signal → g.Computed inner.signal ∧
          (g.retold c n).value inner.signal = g.value inner.signal)
    (hid : id < g.size) (hne : id ≠ c) : Carried g (g.retold c n) id := by
  have hcases := g.node_retold_cases n hne hid
  have hupstream := hs.upstream_lt id
  refine ⟨Graph.form_retold n hne, ?_, ?_, ?_, ?_, ?_, ?_, hzero, hvalue, ?_, ?_, ?_, ?_⟩
  · rcases hcases with ⟨-, h⟩ | ⟨-, h⟩ <;> rw [h]
    rfl
  · rcases hcases with ⟨-, h⟩ | ⟨-, h⟩ <;> rw [h]
    rfl
  · rcases hcases with ⟨-, h⟩ | ⟨-, h⟩ <;> rw [h]
    rfl
  · rcases hcases with ⟨-, h⟩ | ⟨-, h⟩ <;> rw [h]
    rfl
  · exact fun s hmem => hahead s (hupstream s hmem)
  · exact fun inner hi => (hahead _ (hs.inner id inner hi).2.1).version_le
  · intro hup d hreg
    rcases hcases with ⟨-, h⟩ | ⟨-, h⟩
    · unfold Graph.Registered at hreg
      rw [h] at hreg
      cases hreg
    · unfold Graph.UpToDate Graph.Registered at *
      rw [h] at hup hreg
      exact ⟨hup, hreg⟩
  · intro hform
    rcases hcases with ⟨hears, h⟩ | ⟨-, h⟩
    · have := Graph.isDerived_of_hears hs hears
      rw [hform] at this
      cases this
    · rw [h]
  · intro _ hclean
    rcases hcases with ⟨-, h⟩ | ⟨-, h⟩ <;> rw [h] at hclean
    · cases hclean
    · exact hclean
  · intro hd hclean s hsource
    rcases hcases with ⟨-, h⟩ | ⟨hnot, h⟩
    · rw [h] at hclean
      cases hclean
    rw [h] at hd hclean
    -- Otherwise the signal itself would have been told.
    have hset := (hc id).settled hd hclean
    have hunheard : ¬ (g.anchor s = c ∨ g.Hears c (g.anchor s)) :=
      fun hheard => hnot (hears_of_settled hs hatt hrem hset hclean hsource hheard)
    rw [not_or] at hunheard
    have hslt : s < g.size := by
      rcases hsource with hmem | ⟨inner, hi, rfl⟩
      · exact hupstream s hmem
      · exact (hs.inner id inner hi).2.1
    have hup : g.UpToDate (g.anchor s) := by
      rcases hsource with hmem | ⟨inner, hi, rfl⟩
      · exact hset.upToDate s hmem
      · exact hset.inner_upToDate inner hi
    have hnode := Graph.node_retold_of_not_hears n hunheard.1 hunheard.2
    refine ⟨hanchor s hslt hunheard.1, ?_, ?_, ?_, ?_⟩
    · rw [hnode]
    · rw [hnode]
    · unfold Graph.UpToDate at *
      rwa [hnode]
    · intro hreg
      unfold Graph.Registered at *
      rwa [hnode]

/-- When everything that hears a cell is told, the graph stays coherent: the cell holds a later
    outcome. -/
theorem Coherent.retold (hc : Coherent b g) (hs : g.Shaped b rank) (hstable : b.Stable)
    (hcell : (g.node c).form = .cell) (hform : n.form = (g.node c).form)
    (hinner : n.inner? = (g.node c).inner?) (hahead : (g.node c).memo.Ahead n.memo)
    (hsome : n.memo.outcome?.isSome = true) (hpos : 0 < n.memo.version)
    (hall : n.All b.good b.fine) (hatt : Attentive g c) : Coherent b (g.retold c n) := by
  have hlt : c < g.size := g.lt_size_of_form_ne (by rw [hcell]; simp)
  have hanchor := Graph.anchor_retold (n := n) hform hlt
  -- No signal goes back: the cell has moved on, and to be told changes no outcome.
  have hmove : ∀ s < g.size,
      (g.node (g.anchor s)).memo.Ahead ((g.retold c n).node ((g.retold c n).anchor s)).memo := by
    intro s hslt
    rw [hanchor]
    by_cases hs' : g.anchor s = c
    · rw [hs']
      rcases Graph.node_retold_self n hlt with h | h <;> rw [h]
      · exact hahead
      · exact ⟨hahead.version_le, hahead.outcome?_eq⟩
    · exact Graph.ahead_retold n hs' (hs.anchor_lt hslt)
  intro id
  by_cases hidlt : id < g.size
  · by_cases hid : id = c
    · -- The cell itself has an outcome, and nothing else is asked of it.
      subst hid
      have hformc := (Graph.form_retold_self n hlt).trans (hform.trans hcell)
      have hinnerc : ((g.retold id n).node id).inner? = none := by
        cases hi : ((g.retold id n).node id).inner? with
        | none => rfl
        | some inner =>
          obtain ⟨⟨source, choice, p, hf, -⟩, -⟩ :=
            (hs.retold hstable (by rw [hcell]; simp) hform hinner hall hlt).inner id inner hi
          rw [hformc] at hf
          cases hf
      refine coherentAt_of_not_derived (by rw [hformc]; rfl) (fun _ => ?_) ?_ hinnerc
      · rcases Graph.node_retold_self n hlt with h | h <;> rw [h]
        · exact ⟨hsome, hpos⟩
        · exact ⟨hsome, hpos⟩
      · rw [hformc]
        intro hf
        cases hf
    · refine (hc id).carry (carried_retold hs hc (by rw [hcell]; rfl) hatt
        (fun s _ _ => hanchor s) hmove ?_ ?_ hidlt hid) fun _ _ _ _ hch =>
          hstable.chosen (Graph.evolves_retold hs (by rw [hcell]; simp) hform hlt) hch
      -- What is left concerns the signal that a flat map follows.
      · intro inner hi hzero
        have hle := (hmove _ (hs.inner id inner hi).2.1).version_le
        have hwait := ((hc id).inner_seen inner hi).2.2 (by
          unfold Graph.version at hzero ⊢
          omega)
        have hne : g.anchor inner.signal ≠ c := by
          intro h
          rw [h, hcell] at hwait
          cases hwait
        rw [hanchor, Graph.form_retold n hne]
        exact hwait
      · intro inner hi hmax hcomputed
        have hinlt := (hs.inner id inner hi).2.1
        have hle := (hmove _ hinlt).version_le
        apply Graph.value_eq_of_ahead (hmove _ hinlt) _ hcomputed
        by_cases hzero : g.version inner.signal = 0
        · -- A reference without a target is not told of anything.
          have hwait := ((hc id).inner_seen inner hi).2.2 hzero
          have hne : g.anchor inner.signal ≠ c := by
            intro h
            rw [h, hcell] at hwait
            cases hwait
          unfold Graph.version
          rw [hanchor]
          rcases g.node_retold_cases n hne (hs.anchor_lt hinlt) with ⟨hears, -⟩ | ⟨-, h⟩
          · have := Graph.isDerived_of_hears hs hears
            rw [hwait] at this
            cases this
          · rw [h]
        · unfold Graph.version at *
          omega
  · exact coherentAt_of_size_le (by rw [Graph.size_retold]; exact Nat.le_of_not_lt hidlt)

section

variable {r t : SignalId} {rank' : SignalId → Nat}

/-- When a reference gets a target, the graph stays coherent. -/
theorem Coherent.resolved (hc : Coherent b g) (hs : g.Shaped b rank) (hstable : b.Stable)
    (hwait : (g.node r).form = .reference none) (hlt : r < g.size) (htlt : t < g.size)
    (hs' : (g.retold r (Node.resolved t)).Shaped b rank') (hatt : Attentive g r)
    (htells : TellsApart g r t) : Coherent b (g.retold r (Node.resolved t)) := by
  have hanchor := Graph.anchor_resolved hs.descends hs'.descends hlt hwait (t := t)
  have htne := Graph.anchor_target_ne hs.descends hs'.descends hlt hwait
  have hmemor := (hc r).waiting hwait
  -- What stood for the reference now stands for the anchor of the target.
  have hthrough : ∀ s, g.anchor s = r →
      (g.retold r (Node.resolved t)).anchor s = g.anchor t := fun s h =>
    (((hanchor s).2 h).1).trans ((hanchor t).1 htne)
  have hahead := Graph.ahead_retold (Node.resolved t) htne (hs.anchor_lt htlt)
  have hsame : ((g.retold r (Node.resolved t)).node (g.anchor t)).memo.outcome?
      = (g.node (g.anchor t)).memo.outcome? ∧
      ((g.retold r (Node.resolved t)).node (g.anchor t)).memo.version
        = (g.node (g.anchor t)).memo.version := by
    rcases g.node_retold_cases (Node.resolved t) htne (hs.anchor_lt htlt) with ⟨-, h⟩ | ⟨-, h⟩ <;>
      rw [h] <;> exact ⟨rfl, rfl⟩
  have hzeroTarget : (g.node (g.anchor t)).memo.outcome?.isSome = true →
      (g.node (g.anchor t)).memo.version = 0 →
        (g.node (g.anchor t)).form = .reference none :=
    (hc (g.anchor t)).form_of_version_zero (Graph.target?_anchor hs.descends t)
  have hmove : ∀ s < g.size, (g.node (g.anchor s)).memo.Ahead
      ((g.retold r (Node.resolved t)).node ((g.retold r (Node.resolved t)).anchor s)).memo := by
    intro s hslt
    by_cases hsr : g.anchor s = r
    · rw [hthrough s hsr, hsr, hmemor]
      refine ⟨Nat.zero_le _, fun hversion hsome => ?_⟩
      rw [hsame.1] at hsome ⊢
      rw [hsame.2] at hversion
      rw [(hc (g.anchor t)).waiting (hzeroTarget hsome hversion)]
    · rw [(hanchor s).1 hsr]
      exact Graph.ahead_retold _ hsr (hs.anchor_lt hslt)
  intro id
  by_cases hidlt : id < g.size
  · by_cases hid : id = r
    · subst hid
      have hform := Graph.form_resolved (t := t) hlt
      refine coherentAt_of_not_derived (by rw [hform]; rfl) ?_ ?_ ?_
      · rw [hform]
        rintro (hf | hf) <;> cases hf
      · rw [hform]
        intro hf
        cases hf
      · rcases Graph.node_retold_self (Node.resolved t) hlt with h | h <;> rw [h] <;> rfl
    · refine (hc id).carry (carried_retold hs hc (by rw [hwait]; rfl) hatt
        (fun s _ => (hanchor s).1) hmove ?_ ?_ hidlt hid) fun _ _ _ _ hch =>
          hstable.chosen (Graph.evolves_resolved hs hwait) hch
      · intro inner hi hzero
        unfold Graph.version at hzero
        by_cases hir : g.anchor inner.signal = r
        · rw [hthrough _ hir] at hzero ⊢
          rw [hsame.2] at hzero
          rw [Graph.form_retold _ htne]
          rcases htells id inner hi hir with hlater | hfails
          · unfold Graph.version at hlater
            omega
          · exact hzeroTarget (by rw [hfails]; rfl) hzero
        · have hle := (hmove _ (hs.inner id inner hi).2.1).version_le
          rw [(hanchor _).1 hir] at hzero hle ⊢
          rw [Graph.form_retold _ hir]
          exact ((hc id).inner_seen inner hi).2.2 (by unfold Graph.version; omega)
      · intro inner hi hmax hcomputed
        have hinlt := (hs.inner id inner hi).2.1
        by_cases hir : g.anchor inner.signal = r
        · unfold Graph.version at hmax
          unfold Graph.Computed Graph.value Memo.read at *
          rw [hthrough _ hir] at hmax hcomputed ⊢
          rw [hir, hmemor] at hmax ⊢
          rw [hsame.2] at hmax
          rw [hsame.1]
          rcases htells id inner hi hir with hlater | hfails
          · unfold Graph.version at hlater
            have : max (g.node (g.anchor t)).memo.version 1 = 1 := hmax
            omega
          · rw [hfails]
            exact ⟨rfl, rfl⟩
        · have hle := (hmove _ hinlt).version_le
          apply Graph.value_eq_of_ahead (hmove _ hinlt) _ hcomputed
          unfold Graph.version at *
          rcases g.node_retold_cases (Node.resolved t) hir (hs.anchor_lt hinlt) with
            ⟨-, h⟩ | ⟨-, h⟩ <;> rw [(hanchor _).1 hir, h]
          rfl
  · exact coherentAt_of_size_le (by rw [Graph.size_retold]; exact Nat.le_of_not_lt hidlt)

end

end

end ReactiveDoc.Signal
