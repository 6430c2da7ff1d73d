import ReactiveDoc.Proofs.Signal.Setting

namespace ReactiveDoc.Signal

/-!
# Fused maps

A map of a map may be fused with it, so that it comes from the source of the other and applies the
steps of both, whatever that source is.  It then skips what the other remembers, which nobody can
tell.

* `Graph.IsMap`, `Along` — maps lead from one signal to another, with these steps.
* `Graph.chain`, `chained_chain` — maps of maps, fused or not, and how they are made up.
* `Graph.chain_mapFused` — those that are fused are one map.
* `Updates.stored`, `Updates.memo_eq` — what a read does to a signal, and to one that it does not
  come from.
* `Twins` — maps with the same steps from the same signal, with the same outcome and version.
* `mapFused_alike` — a chain of fused maps has the outcomes and versions of a chain of maps.
-/

variable {P F Φ σ : Type} [Carrier P] {fn : F → P → Outcome P} {inv : F → P → P}
  {codes : Codes P F Φ σ} {w w' w₁ : World P F Φ σ} {g g' : Graph P F Φ} {rank : SignalId → Nat}
  {id j b s t u v : SignalId} {o : Outcome P} {xs steps : List F} {d n : Nat}

/-! ### Maps of maps -/

/-- The signal is a map that cannot be set. -/
def Graph.IsMap (g : Graph P F Φ) (t : SignalId) : Prop :=
  ∃ source steps uniform, (g.node t).form = .map source steps (.readOnly uniform)

omit [Carrier P] in
theorem Graph.IsMap.isDerived (h : g.IsMap t) : (g.node t).form.isDerived = true := by
  obtain ⟨_, _, _, h⟩ := h
  rw [h]
  rfl

omit [Carrier P] in
theorem Graph.IsMap.lt_size (h : g.IsMap t) : t < g.size := by
  obtain ⟨_, _, _, h⟩ := h
  exact g.lt_size_of_form_ne (by rw [h]; exact nofun)

omit [Carrier P] in
theorem Graph.IsMap.of_form_eq (h : g.IsMap t) (hform : (g'.node t).form = (g.node t).form) :
    g'.IsMap t := by
  unfold Graph.IsMap
  rw [hform]
  exact h

/-- Maps that cannot be set lead from `b` to the signal, and these are their steps. -/
inductive Along (g : Graph P F Φ) (b : SignalId) : List F → SignalId → Prop
  | here : Along g b [] b
  | map {xs steps : List F} {id source : SignalId} {uniform : Bool}
      (hform : (g.node id).form = .map source steps (.readOnly uniform)) (h : Along g b xs source) :
      Along g b (xs ++ steps) id

omit [Carrier P] in
/-- Only the forms of maps matter. -/
theorem Along.of_form_eq (h : Along g b xs t)
    (hform : ∀ j, g.IsMap j → (g'.node j).form = (g.node j).form) : Along g' b xs t := by
  induction h with
  | here => exact .here
  | map hmap _ ih => exact .map ((hform _ ⟨_, _, _, hmap⟩).trans hmap) ih

omit [Carrier P] in
theorem imageOf_append (fn : F → P → Outcome P) (xs ys : List F) (o : Outcome P) :
    imageOf fn (xs ++ ys) o = imageOf fn ys (imageOf fn xs o) :=
  List.foldl_append

/-- A signal that is up to date has the outcome that the steps make of that of `b`. -/
theorem Along.value_eq [LawfulBEq P] (h : Along g b xs t) (hintact : Intact fn g)
    (hup : g.UpToDate (g.anchor t)) :
    g.UpToDate (g.anchor b) ∧ g.value t = imageOf fn xs (g.value b) := by
  induction h with
  | here => exact ⟨hup, rfl⟩
  | @map xs steps id source uniform hform _ ih =>
    have hd : (g.node id).form.isDerived = true := by
      rw [hform]
      rfl
    rw [Graph.anchor_of_isDerived hd] at hup
    obtain ⟨-, hsources⟩ := hintact.sound.answers hd hup
    have hmem : source ∈ (g.node id).form.upstream := by
      rw [hform]
      exact List.mem_singleton_self _
    obtain ⟨hbase, hvalue⟩ := ih (hsources source hmem)
    refine ⟨hbase, ?_⟩
    have hnear := hintact.sound.near_image hd hup (hintact.image id (by rw [hform]; rfl))
    rw [hnear.eq, imageOf_append, ← hvalue]
    unfold Graph.image
    rw [hform]
    rfl

/-- Maps lead from `b` to the signal, and if it is a map itself they are those that lead to its
    source, and its own steps. -/
structure Traced (g : Graph P F Φ) (b : SignalId) (xs : List F) (s : SignalId) : Prop where
  along : Along g b xs s
  last : ∀ origin steps uniform, (g.node s).form = .map origin steps (.readOnly uniform) →
    ∃ ys, xs = ys ++ steps ∧ Along g b ys origin

omit [Carrier P] in
/-- Every signal is traced to itself, or to its source if it is a map. -/
theorem exists_traced (g : Graph P F Φ) (s : SignalId) : ∃ b xs, Traced g b xs s := by
  by_cases hmap : g.IsMap s
  · obtain ⟨origin, steps, uniform, hform⟩ := hmap
    refine ⟨origin, [] ++ steps, .map hform .here, fun origin' steps' uniform' hform' => ?_⟩
    rw [hform] at hform'
    cases hform'
    exact ⟨[], rfl, .here⟩
  · exact ⟨s, [], .here, fun origin steps uniform hform =>
      absurd ⟨origin, steps, uniform, hform⟩ hmap⟩

omit [Carrier P] in
theorem Traced.of_form_eq (h : Traced g b xs s) (hs : s < g.size)
    (hform : ∀ j < g.size, (g'.node j).form = (g.node j).form) : Traced g' b xs s := by
  have hmap : ∀ j, g.IsMap j → (g'.node j).form = (g.node j).form := fun j hj =>
    hform j hj.lt_size
  refine ⟨h.along.of_form_eq hmap, fun origin steps uniform hlast => ?_⟩
  rw [hform s hs] at hlast
  obtain ⟨ys, hys, halong⟩ := h.last origin steps uniform hlast
  exact ⟨ys, hys, halong.of_form_eq hmap⟩

/-- No signal comes from this one. -/
def Graph.Unused (g : Graph P F Φ) (t : SignalId) : Prop := ∀ j, t ∉ (g.node j).form.upstream

/-- The signal is a map that was neither read nor used. -/
structure Graph.Unread (g : Graph P F Φ) (t : SignalId) : Prop where
  isMap : g.IsMap t
  memo_eq : (g.node t).memo = {}
  unused : g.Unused t

/-- The ways to make a map of a signal that cannot be set. -/
def Maps (make : SignalId → F → Creation P F Φ) : Prop :=
  ∀ s f, (∃ uniform, make s f = .map s f uniform) ∨ make s f = .mapFused s f

/-- Maps made one of another, beginning with a map of `s`; the last of them. -/
def Graph.chain (make : SignalId → F → Creation P F Φ) (g : Graph P F Φ) (s : SignalId)
    (fs : List F) : SignalId × Graph P F Φ :=
  fs.foldl (fun last f => (make last.1 f).apply last.2) (s, g)

omit [Carrier P] in
/-- Fused maps make one map, which applies the steps of all after those of the signal that they
    begin with, if this is a map too. -/
theorem Graph.chain_mapFused (g : Graph P F Φ) (s : SignalId) {fs : List F} (hfs : fs ≠ []) :
    ∃ origin steps, ((g.chain .mapFused s fs).2.node (g.chain .mapFused s fs).1).form =
      .map origin (steps ++ fs) (.readOnly true) := by
  have hnew (g : Graph P F Φ) (t : SignalId) (f : F) :
      ((Creation.apply g (.mapFused t f)).2.node (Creation.apply g (.mapFused t f)).1).form =
        (Creation.mapFused t f : Creation P F Φ).form g := by
    rw [Creation.apply_eq]
    show ((g.add _).2.node g.size).form = _
    rw [Graph.node_add, if_pos rfl]
  unfold Graph.chain
  -- The last map looks at what the others have been made into, so the induction ends with it.
  induction fs using List.reverseRecOn with
  | nil => exact absurd rfl hfs
  | append_singleton fs f ih =>
    rw [List.foldl_append]
    refine Exists.imp (fun origin => Exists.imp fun steps => (hnew _ _ f).trans) ?_
    simp only [Creation.form]
    by_cases hrest : fs = []
    · subst hrest
      split
      · exact ⟨_, _, rfl⟩
      · exact ⟨s, [], rfl⟩
    · obtain ⟨origin, steps, hform⟩ := ih hrest
      rw [hform]
      exact ⟨origin, steps, congrArg (Form.map origin · _) (List.append_assoc steps fs [f])⟩

section

variable {make : SignalId → F → Creation P F Φ} (hmake : Maps make)

include hmake

omit [Carrier P] in
theorem Maps.sources_eq (s : SignalId) (f : F) : (make s f).sources = [s] := by
  rcases hmake s f with ⟨_, h⟩ | h <;> rw [h] <;> rfl

omit [Carrier P] in
theorem Maps.ne_flatMap (s : SignalId) (f : F) (source : SignalId) (choice : Φ) :
    make s f ≠ .flatMap source choice := by
  rcases hmake s f with ⟨_, h⟩ | h <;> rw [h] <;> exact nofun

omit [Carrier P] in
theorem Maps.memo_eq (s : SignalId) (f : F) : (make s f).memo = {} := by
  rcases hmake s f with ⟨_, h⟩ | h <;> rw [h] <;> rfl

omit [Carrier P] in
/-- The new map applies its step after all others that lead to its source.  It comes from that, or
    from what that comes from. -/
theorem Traced.snoc (h : Traced g b xs s) (f : F) :
    ∃ ys source steps uniform, (make s f).form g = .map source steps (.readOnly uniform) ∧
      xs ++ [f] = ys ++ steps ∧ Along g b ys source ∧
      (source = s ∨ source ∈ (g.node s).form.upstream) := by
  rcases hmake s f with ⟨uniform, hmk⟩ | hmk
  · rw [hmk]
    exact ⟨xs, s, [f], uniform, rfl, rfl, h.along, .inl rfl⟩
  · rw [hmk]
    simp only [Creation.form]
    split
    · rename_i origin steps hform
      obtain ⟨ys, rfl, halong⟩ := h.last origin steps true hform
      refine ⟨ys, origin, steps ++ [f], true, rfl, List.append_assoc _ _ _, halong, .inr ?_⟩
      rw [hform]
      exact List.mem_singleton_self _
    · exact ⟨xs, s, [f], true, rfl, rfl, h.along, .inl rfl⟩

end

/-- From `g` to `g'` maps were made, beginning with a map of `s` and up to `t`. -/
structure Chained (fn : F → P → Outcome P) (b : SignalId) (g : Graph P F Φ) (s : SignalId)
    (xs : List F) (t : SignalId) (g' : Graph P F Φ) : Prop where
  intact : Intact fn g'
  size_le : g.size ≤ g'.size
  known : t < g'.size
  node_eq : ∀ j < g.size, g'.node j = g.node j
  traced : Traced g' b xs t
  newer : t = s ∨ g.size ≤ t
  unused : ∀ v < g.size, v ≠ s → g.Unused v → g'.Unused v

/-- One more map. -/
theorem Chained.snoc {make : SignalId → F → Creation P F Φ} (hmake : Maps make)
    (h : Chained fn b g s xs t g') (f : F) :
    Chained fn b g s (xs ++ [f]) ((make t f).apply g').1 ((make t f).apply g').2 ∧
      g.size ≤ ((make t f).apply g').1 ∧
      ((make t f).apply g').2.Unread ((make t f).apply g').1 := by
  have hsources : ∀ x ∈ (make t f).sources, x < g'.size := by
    rw [hmake.sources_eq]
    intro x hx
    rw [List.mem_singleton.mp hx]
    exact h.known
  have hchoice := hmake.ne_flatMap t f
  have hintact := h.intact.create hsources hchoice
  obtain ⟨ys, source, steps, uniform, hform, hxs, halong, hsource⟩ := h.traced.snoc hmake f
  have hnode := (make t f).node_cases g'
  have hid : ((make t f).apply g').1 = g'.size := by
    rw [Creation.apply_eq]
    rfl
  have hsize : ((make t f).apply g').2.size = g'.size + 1 := by
    rw [Creation.apply_eq, Graph.size_add]
  rw [hid]
  generalize ((make t f).apply g').2 = g'' at *
  have hold : ∀ j < g'.size, g''.node j = g'.node j := by
    intro j hj
    rcases hnode j with ⟨rfl, -⟩ | ⟨-, heq⟩ | ⟨hgt, -⟩
    · exact absurd hj (Nat.lt_irrefl _)
    · exact heq
    · exact absurd hj (Nat.not_lt.mpr (Nat.le_of_lt hgt))
  have hnew : g''.node g'.size = { form := .map source steps (.readOnly uniform) } := by
    rcases hnode g'.size with ⟨-, heq⟩ | ⟨hlt, -⟩ | ⟨hlt, -⟩
    · rw [heq, hform, hmake.memo_eq]
    · exact absurd hlt (Nat.lt_irrefl _)
    · exact absurd hlt (Nat.lt_irrefl _)
  have halong'' : Along g'' b ys source := halong.of_form_eq fun j hj => by
    rw [hold j hj.lt_size]
  obtain ⟨rank, hs⟩ := h.intact.sound.shaped
  have hsourceLt : source < g'.size := by
    rcases hsource with rfl | hmem
    · exact h.known
    · exact hs.upstream_lt t source hmem
  -- What the new map comes from was there, and used already unless it is the one before.
  have hkept : ∀ v, v ≠ t → v ≠ g'.size → g'.Unused v → g''.Unused v := by
    intro v hvt _ hv j hmem
    rcases hnode j with ⟨rfl, -⟩ | ⟨hj, -⟩ | ⟨-, heq⟩
    · rw [hnew] at hmem
      obtain rfl := List.mem_singleton.mp hmem
      rcases hsource with rfl | hmem'
      · exact hvt rfl
      · exact hv t hmem'
    · rw [hold j hj] at hmem
      exact hv j hmem
    · rw [heq] at hmem
      cases hmem
  refine ⟨⟨hintact, h.size_le.trans (hsize ▸ Nat.le_succ _), hsize ▸ Nat.lt_succ_self _,
    fun j hj => ?_, ⟨?_, ?_⟩, .inr h.size_le, fun v hv hvs hunused => ?_⟩, h.size_le,
    ⟨source, steps, uniform, by rw [hnew]⟩, by rw [hnew], fun j hmem => ?_⟩
  · rw [hold j (Nat.lt_of_lt_of_le hj h.size_le), h.node_eq j hj]
  · rw [hxs]
    exact .map (by rw [hnew]) halong''
  · intro origin steps' uniform' hlast
    rw [hnew] at hlast
    cases hlast
    exact ⟨ys, hxs, halong''⟩
  · refine hkept v ?_ (Nat.ne_of_lt (Nat.lt_of_lt_of_le hv h.size_le)) (h.unused v hv hvs hunused)
    rcases h.newer with rfl | hle
    · exact hvs
    · exact Nat.ne_of_lt (Nat.lt_of_lt_of_le hv hle)
  · -- A new signal is not among those that were there.
    rcases hnode j with ⟨rfl, -⟩ | ⟨hj, -⟩ | ⟨-, heq⟩
    · rw [hnew] at hmem
      exact absurd (List.mem_singleton.mp hmem) (Nat.ne_of_gt hsourceLt)
    · rw [hold j hj] at hmem
      exact absurd (hs.upstream_lt j _ hmem) (Nat.lt_irrefl _)
    · rw [heq] at hmem
      cases hmem

/-- So do several.  The last one, if there is any, was neither read nor used. -/
theorem chained_chain {make : SignalId → F → Creation P F Φ} (hmake : Maps make)
    (hintact : Intact fn g) (hs : s < g.size) (htraced : Traced g b xs s) (fs : List F) :
    Chained fn b g s (xs ++ fs) (g.chain make s fs).1 (g.chain make s fs).2 ∧
      (fs ≠ [] → g.size ≤ (g.chain make s fs).1 ∧
        (g.chain make s fs).2.Unread (g.chain make s fs).1) := by
  induction fs using List.reverseRecOn with
  | nil =>
    refine ⟨⟨hintact, Nat.le_refl _, hs, fun _ _ => rfl, ?_, .inl rfl, fun _ _ _ h => h⟩,
      fun h => absurd rfl h⟩
    rw [List.append_nil]
    exact htraced
  | append_singleton fs f ih =>
    have hsnoc := ih.1.snoc hmake f
    unfold Graph.chain at hsnoc ⊢
    rw [List.foldl_append, ← List.append_assoc]
    exact ⟨hsnoc.1, fun _ => hsnoc.2⟩

/-! ### Reading -/

theorem Memo.read_store [LawfulBEq P] (m : Memo P) (o : Outcome P) : (m.store o).read = o :=
  (m.near_store o).eq

/-- Remembering what is remembered changes nothing. -/
theorem Memo.store_read [LawfulBEq P] {m : Memo P} (h : m.outcome?.isSome = true) :
    m.store m.read = m := by
  apply Memo.store_of_holds
  obtain ⟨o, ho⟩ := Option.isSome_iff_exists.mp h
  unfold Memo.holds Memo.read
  rw [ho]
  cases o with
  | ok p => exact beq_self_eq_true p
  | error e => exact beq_self_eq_true e

theorem Updates.moved (h : Updates fn id w w') (hintact : Intact fn w.graph) :
    ∃ ran, Moved (fun steps o o' => o' = imageOf fn steps o) w.graph w'.graph ran := by
  obtain ⟨rank, hs, hle⟩ := hintact.sound.exists_rank Behaviour.lenient_regular
  obtain ⟨ran, hreach⟩ := h.reaches rank hs (by simpa using hle (w.graph.anchor id))
  exact ⟨ran, hreach.moves.moved fun _ _ _ _ _ h => h.1⟩

/-- A signal that was read remembers its outcome after what it remembered before. -/
theorem Updates.stored [LawfulBEq P] (h : Updates fn id w w') (hintact : Intact fn w.graph)
    (hintact' : Intact fn w'.graph) (hd : (w.graph.node id).form.isDerived = true) :
    (w'.graph.node id).memo.outcome?
        = ((w.graph.node id).memo.store (w'.graph.value id)).outcome? ∧
      (w'.graph.node id).memo.version
        = ((w.graph.node id).memo.store (w'.graph.value id)).version := by
  obtain ⟨ran, hmoved⟩ := h.moved hintact
  have hd' : (w'.graph.node id).form.isDerived = true := (hmoved.form_eq id).symm ▸ hd
  have hvalue : w'.graph.value id = (w'.graph.node id).memo.read := by
    unfold Graph.value
    rw [Graph.anchor_of_isDerived hd']
  by_cases hran : id ∈ ran
  · obtain ⟨o, -, houtcome, hversion⟩ := (hmoved.renewed id hran).stored
    have hread : (w'.graph.node id).memo.read = o := by
      rw [← (w.graph.node id).memo.read_store o]
      unfold Memo.read
      rw [houtcome]
    rw [hvalue, hread]
    exact ⟨houtcome, hversion⟩
  · have houtcome := hmoved.outcome?_eq id hran
    have hup := h.upToDate
    rw [Graph.anchor_of_isDerived hd'] at hup
    have hsome := ((hintact'.sound.coherent id).settled hd' (hup hd')).computed
    have hread : (w'.graph.node id).memo.read = (w.graph.node id).memo.read := by
      unfold Memo.read
      rw [houtcome]
    rw [hvalue, hread, Memo.store_read (houtcome ▸ hsome)]
    exact ⟨houtcome, hmoved.version_eq id hran⟩

omit [Carrier P] in
/-- A signal that no other comes from may be ranked above all. -/
theorem Graph.Shaped.raise (hs : g.Shaped .lenient rank) (hunused : g.Unused t)
    (hle : ∀ id, rank id ≤ n) : g.Shaped .lenient (Function.update rank t (n + 1)) := by
  refine ⟨fun id s hmem => ?_, fun id inner hi => ?_,
    fun id source choice hform => (hs.room id source choice hform).elim, hs.registered, hs.all⟩
  · obtain ⟨hlt, hrank⟩ := hs.upstream id s hmem
    have hne : s ≠ t := fun heq => hunused id (heq ▸ hmem)
    rw [Function.update_of_ne hne]
    refine ⟨hlt, ?_⟩
    by_cases hid : id = t
    · rw [hid, Function.update_self]
      exact Nat.lt_succ_of_le (hle s)
    · rwa [Function.update_of_ne hid]
  · rw [hs.no_inner] at hi
    cases hi

omit [Carrier P] in
theorem Graph.Unused.anchor_ne (h : g.Unused t) (hd : g.Descends rank) (hne : j ≠ t) :
    g.anchor j ≠ t := by
  refine Graph.target?_induction hd (C := fun j => j ≠ t → g.anchor j ≠ t) ?_ ?_ j hne
  · intro j htarget hne
    rwa [Graph.anchor_of_target?_none htarget]
  · intro j k htarget ih _
    have hmem := Form.mem_upstream_of_target? htarget
    rw [Graph.anchor_of_target? hd htarget]
    exact ih fun heq => h j (heq ▸ hmem)

/-- Reading another signal leaves one that none comes from. -/
theorem Updates.memo_eq (h : Updates fn id w w') (hintact : Intact fn w.graph)
    (hunused : w.graph.Unused t) (hne : id ≠ t) :
    (w'.graph.node t).memo = (w.graph.node t).memo := by
  obtain ⟨rank, hs, hle⟩ := hintact.sound.exists_rank Behaviour.lenient_regular
  rw [Nat.one_mul] at hle
  have hanchor := hunused.anchor_ne hs.descends hne
  obtain ⟨ran, hreach⟩ := h.reaches _ (hs.raise hunused hle) (by
    rw [Function.update_of_ne hanchor]
    exact hle _)
  refine hreach.memo_eq t ?_
  rw [Function.update_of_ne hanchor, Function.update_self]
  exact Nat.succ_le_succ (hle _)

/-! ### Writing -/

/-- A write goes through no map that cannot be set. -/
theorem Overwritten.not_passes (h : Overwritten inv g id o g') (hmap : g.IsMap j) :
    ¬ g.Passes j id := by
  intro hpasses
  obtain ⟨source, steps, uniform, hform⟩ := hmap
  induction hpasses generalizing o g' with
  | here hid =>
    cases h with
    | cell hcell =>
      rw [hid, hform] at hcell
      cases hcell
    | through hmap =>
      rw [hid, hform] at hmap
      cases hmap
  | through hmap _ ih =>
    cases h with
    | cell hcell =>
      rw [hmap] at hcell
      cases hcell
    | through hmap' hsource =>
      rw [hmap] at hmap'
      cases hmap'
      exact ih hsource

/-! ### Two maps of the same -/

/-- Two maps that no signal comes from apply the same steps to the same signal, and remember the
    same outcome and version. -/
structure Twins (g : Graph P F Φ) (t u : SignalId) : Prop where
  ne : t ≠ u
  left : g.IsMap t ∧ g.Unused t
  right : g.IsMap u ∧ g.Unused u
  along : ∃ b xs, Along g b xs t ∧ Along g b xs u
  outcome?_eq : (g.node u).memo.outcome? = (g.node t).memo.outcome?
  version_eq : (g.node u).memo.version = (g.node t).memo.version

namespace Twins

omit [Carrier P] in
theorem symm (h : Twins g t u) : Twins g u t := by
  obtain ⟨b, xs, ht, hu⟩ := h.along
  exact ⟨h.ne.symm, h.right, h.left, ⟨b, xs, hu, ht⟩, h.outcome?_eq.symm, h.version_eq.symm⟩

omit [Carrier P] in
/-- They stay twins as long as signals keep their forms and they remember the same. -/
theorem of_form_eq (h : Twins g t u) (hform : ∀ j, (g'.node j).form = (g.node j).form)
    (houtcome : (g'.node u).memo.outcome? = (g'.node t).memo.outcome?)
    (hversion : (g'.node u).memo.version = (g'.node t).memo.version) : Twins g' t u := by
  have hunused {v : SignalId} (hv : g.Unused v) : g'.Unused v := fun j => by
    rw [hform]
    exact hv j
  obtain ⟨b, xs, ht, hu⟩ := h.along
  exact ⟨h.ne, ⟨h.left.1.of_form_eq (hform t), hunused h.left.2⟩,
    ⟨h.right.1.of_form_eq (hform u), hunused h.right.2⟩,
    ⟨b, xs, ht.of_form_eq fun j _ => hform j, hu.of_form_eq fun j _ => hform j⟩,
    houtcome, hversion⟩

omit [Carrier P] in
theorem known (h : Twins g t u) : t < g.size ∧ u < g.size :=
  ⟨h.left.1.lt_size, h.right.1.lt_size⟩

/-- A write leaves them. -/
theorem overwritten (h : Twins g t u) (hover : Overwritten inv g id o g') (hintact : Intact fn g) :
    Twins g' t u := by
  obtain ⟨rank, hs⟩ := hintact.sound.shaped
  have hre := hover.rewritten hs.descends
  have hheard := hre.heard t (hover.not_passes h.left.1)
  have hheard' := hre.heard u (hover.not_passes h.right.1)
  refine h.of_form_eq hre.form_eq ?_ ?_
  · rw [hheard.outcome?_eq, hheard'.outcome?_eq, h.outcome?_eq]
  · rw [hheard.version_eq, hheard'.version_eq, h.version_eq]

/-- So does a read of another signal. -/
theorem updates (h : Twins w.graph t u) (hup : Updates fn id w w') (hintact : Intact fn w.graph)
    (ht : id ≠ t) (hu : id ≠ u) : Twins w'.graph t u := by
  obtain ⟨ran, hmoved⟩ := hup.moved hintact
  refine h.of_form_eq hmoved.form_eq ?_ ?_
  · rw [hup.memo_eq hintact h.left.2 ht, hup.memo_eq hintact h.right.2 hu, h.outcome?_eq]
  · rw [hup.memo_eq hintact h.left.2 ht, hup.memo_eq hintact h.right.2 hu, h.version_eq]

end Twins

/-- Both signals can be read, the one after the other, and give the same outcome and version. -/
def ReadAlike (codes : Codes P F Φ σ) (d : Nat) (w : World P F Φ σ) (t u : SignalId)
    (w' : World P F Φ σ) : Prop :=
  ∃ o w₁, (Request.get t).run (.ofCodes codes d) w = .ok (.value o, w₁) ∧
    (Request.get u).run (.ofCodes codes d) w₁ = .ok (.value o, w') ∧
    w'.graph.version u = w₁.graph.version t

/-- Twins are read alike, and stay twins when both are read. -/
theorem Twins.readAlike [LawfulBEq P] (h : Twins w.graph t u) (hintact : Intact fn w.graph)
    (hpure : codes.Pure fn inv) (hd : w.graph.size < d) :
    ∃ w', ReadAlike codes d w t u w' ∧ Intact fn w'.graph ∧ Twins w'.graph t u ∧
      w'.graph.size = w.graph.size := by
  obtain ⟨w₁, hrun₁, hintact₁, hup₁⟩ := hintact.updates hpure hd h.known.1
  obtain ⟨ran₁, hmoved₁⟩ := hup₁.moved hintact
  have hlt : u < w₁.graph.size := hmoved₁.size_eq.symm ▸ h.known.2
  obtain ⟨w₂, hrun₂, hintact₂, hup₂⟩ := hintact₁.updates hpure (by rwa [hmoved₁.size_eq]) hlt
  obtain ⟨ran₂, hmoved₂⟩ := hup₂.moved hintact₁
  have hd₁ := h.left.1.isDerived
  have hd₂ := h.right.1.isDerived
  have hunused {v : SignalId} (hv : w.graph.Unused v) : w₁.graph.Unused v := fun j => by
    rw [hmoved₁.form_eq]
    exact hv j
  have hform (j : SignalId) : (w₂.graph.node j).form = (w.graph.node j).form :=
    (hmoved₂.form_eq j).trans (hmoved₁.form_eq j)
  -- Both have the image of the same outcome.
  have hvalue : w₂.graph.value u = w₁.graph.value t := by
    obtain ⟨b, xs, ht, hu⟩ := h.along
    obtain ⟨hbase, hleft⟩ := (ht.of_form_eq fun j _ => hmoved₁.form_eq j).value_eq hintact₁
      hup₁.upToDate
    obtain ⟨-, hright⟩ := (hu.of_form_eq fun j _ => hform j).value_eq hintact₂ hup₂.upToDate
    rw [hleft, hright, hmoved₂.value_eq_of_upToDate hbase]
  obtain ⟨houtcome₁, hversion₁⟩ := hup₁.stored hintact hintact₁ hd₁
  obtain ⟨houtcome₂, hversion₂⟩ :=
    hup₂.stored hintact₁ hintact₂ ((hmoved₁.form_eq u).symm ▸ hd₂)
  have hstay₁ := hup₁.memo_eq hintact h.right.2 h.ne
  have hstay₂ := hup₂.memo_eq hintact₁ (hunused h.left.2) h.ne.symm
  obtain ⟨houtcome, hversion⟩ :=
    (w.graph.node t).memo.store_congr h.outcome?_eq h.version_eq (w₁.graph.value t)
  rw [hstay₁, hvalue, houtcome, ← houtcome₁] at houtcome₂
  rw [hstay₁, hvalue, hversion, ← hversion₁] at hversion₂
  refine ⟨w₂, ⟨_, w₁, get_run hrun₁, ?_, ?_⟩, hintact₂, h.of_form_eq hform ?_ ?_, ?_⟩
  · rw [← hvalue]
    exact get_run hrun₂
  · unfold Graph.version
    rwa [Graph.anchor_of_isDerived (hform u ▸ hd₂),
      Graph.anchor_of_isDerived (hmoved₁.form_eq t ▸ hd₁)]
  · rw [hstay₂, houtcome₂]
  · rw [hstay₂, hversion₂]
  · rw [hmoved₂.size_eq, hmoved₁.size_eq]

/-! ### Every order of writes and reads -/

/-- The worlds that writes and reads lead to, where neither `t` nor `u` is read without the other. -/
inductive Turns (codes : Codes P F Φ σ) (t u : SignalId) (w : World P F Φ σ) :
    World P F Φ σ → Prop
  | now : Turns codes t u w w
  | write {w₁ w₂ : World P F Φ σ} {answer : Answer P} (id : SignalId) (o : Outcome P) (depth : Nat)
      (h : Turns codes t u w w₁) (hid : id < w₁.graph.size) (hdepth : w₁.graph.size < depth)
      (hrun : (Request.set id o).run (.ofCodes codes depth) w₁ = .ok (answer, w₂)) :
      Turns codes t u w w₂
  | read {w₁ w₂ : World P F Φ σ} {answer : Answer P} (id depth : Nat) (h : Turns codes t u w w₁)
      (hid : id < w₁.graph.size) (ht : id ≠ t) (hu : id ≠ u) (hdepth : w₁.graph.size < depth)
      (hrun : (Request.get id).run (.ofCodes codes depth) w₁ = .ok (answer, w₂)) :
      Turns codes t u w w₂
  | both {w₁ w₂ w₃ : World P F Φ σ} {answer answer' : Answer P} (first second depth : Nat)
      (h : Turns codes t u w w₁)
      (hpair : first = t ∧ second = u ∨ first = u ∧ second = t) (hdepth : w₁.graph.size < depth)
      (hrun : (Request.get first).run (.ofCodes codes depth) w₁ = .ok (answer, w₂))
      (hrun' : (Request.get second).run (.ofCodes codes depth) w₂ = .ok (answer', w₃)) :
      Turns codes t u w w₃

/-- Signals of an intact graph that are the same, or twins. -/
structure Paired (fn : F → P → Outcome P) (g : Graph P F Φ) (t u : SignalId) : Prop where
  intact : Intact fn g
  left_lt : t < g.size
  right_lt : u < g.size
  alike : t = u ∨ Twins g t u

namespace Paired

theorem symm (h : Paired fn g t u) : Paired fn g u t :=
  ⟨h.intact, h.right_lt, h.left_lt, h.alike.imp Eq.symm Twins.symm⟩

theorem readAlike [LawfulBEq P] (h : Paired fn w.graph t u) (hpure : codes.Pure fn inv)
    (hd : w.graph.size < d) :
    ∃ w', ReadAlike codes d w t u w' ∧ Paired fn w'.graph t u := by
  rcases h.alike with rfl | htwins
  · -- The second read finds the signal up to date.
    obtain ⟨w₁, hrun, hintact₁, hup⟩ := h.intact.updates hpure hd h.left_lt
    obtain ⟨ran, hmoved⟩ := hup.moved h.intact
    have hlt : t < w₁.graph.size := hmoved.size_eq.symm ▸ h.left_lt
    obtain ⟨w₂, hrun₂, -, -⟩ := hintact₁.updates hpure (by rwa [hmoved.size_eq]) hlt
    obtain rfl := hintact₁.reconcile_eq hup.upToDate hrun₂
    exact ⟨w₂, ⟨_, w₂, get_run hrun, get_run hrun₂, rfl⟩, hintact₁, hlt, hlt, .inl rfl⟩
  · obtain ⟨w', hread, hintact', htwins', hsize⟩ := htwins.readAlike h.intact hpure hd
    exact ⟨w', hread, hintact', htwins'.known.1, htwins'.known.2, .inr htwins'⟩

/-- Writes and reads keep a pair, where neither is read without the other. -/
theorem turns [LawfulBEq P] (h : Paired fn w.graph t u) (hturns : Turns codes t u w w')
    (hpure : codes.Pure fn inv) : Paired fn w'.graph t u := by
  induction hturns with
  | now => exact h
  | @write w₁ w₂ answer id o depth _ hid hdepth hrun ih =>
    have hfits : (Request.set id o).Fits w₁.graph := hid
    obtain ⟨answer', w₂', hrun', hintact', hchange⟩ :=
      Request.change hpure ih.intact hdepth hfits
    rw [hrun] at hrun'
    cases hrun'
    cases hchange with
    | @set _ _ g' hover =>
      obtain ⟨rank, hs⟩ := ih.intact.sound.shaped
      have hsize := (hover.rewritten hs.descends).size_eq
      refine ⟨hintact', ?_, ?_, ih.alike.imp_right fun htwins =>
        htwins.overwritten hover ih.intact⟩
      · rw [World.put_graph, hsize]
        exact ih.left_lt
      · rw [World.put_graph, hsize]
        exact ih.right_lt
    | refuse _ => exact ih
  | @read w₁ w₂ answer id depth _ hid ht hu hdepth hrun ih =>
    obtain ⟨w₂', hrun', hintact', hup⟩ := ih.intact.updates hpure hdepth hid
    have hrun'' := (get_run hrun').symm.trans hrun
    cases hrun''
    obtain ⟨ran, hmoved⟩ := hup.moved ih.intact
    refine ⟨hintact', ?_, ?_, ih.alike.imp_right fun htwins => htwins.updates hup ih.intact ht hu⟩
    · rw [hmoved.size_eq]
      exact ih.left_lt
    · rw [hmoved.size_eq]
      exact ih.right_lt
  | @both w₁ w₂ w₃ answer answer' first second depth _ hpair hdepth hrun hrun' ih =>
    -- The two may be read in either order.
    have hkeep {a b : SignalId} (hpaired : Paired fn w₁.graph a b) (ha : first = a)
        (hb : second = b) : Paired fn w₃.graph a b := by
      subst ha hb
      obtain ⟨w₃', ⟨o, w₂', hread, hread', -⟩, hpaired'⟩ := hpaired.readAlike hpure hdepth
      rw [hrun] at hread
      cases hread
      rw [hrun'] at hread'
      cases hread'
      exact hpaired'
    rcases hpair with ⟨ha, hb⟩ | ⟨ha, hb⟩
    · exact hkeep ih ha hb
    · exact (hkeep ih.symm ha hb).symm

end Paired

omit [Carrier P] in
theorem maps_map : Maps fun s f => (.map s f true : Creation P F Φ) :=
  fun _ _ => .inl ⟨true, rfl⟩

omit [Carrier P] in
theorem maps_mapFused : Maps (.mapFused : SignalId → F → Creation P F Φ) := fun _ _ => .inr rfl

/-- A chain of maps and a chain of fused maps with the same steps, made of the same signal. -/
theorem paired_chain (hintact : Intact fn g) (hs : s < g.size) (fs : List F) {g₁ g₂ : Graph P F Φ}
    (hmaps : g.chain (fun s f => .map s f true) s fs = (t, g₁))
    (hfused : g₁.chain .mapFused s fs = (u, g₂)) : Paired fn g₂ t u := by
  obtain ⟨b, xs, htraced⟩ := exists_traced g s
  obtain ⟨hleft, hnew⟩ := chained_chain maps_map hintact hs htraced fs
  rw [hmaps] at hleft hnew
  have hs₁ : s < g₁.size := Nat.lt_of_lt_of_le hs hleft.size_le
  have htraced₁ : Traced g₁ b xs s :=
    htraced.of_form_eq hs fun j hj => by rw [hleft.node_eq j hj]
  obtain ⟨hright, hnew'⟩ := chained_chain maps_mapFused hleft.intact hs₁ htraced₁ fs
  rw [hfused] at hright hnew'
  refine ⟨hright.intact, Nat.lt_of_lt_of_le hleft.known hright.size_le, hright.known, ?_⟩
  by_cases hfs : fs = []
  · subst hfs
    cases hmaps
    cases hfused
    exact .inl rfl
  · obtain ⟨hle, hunread⟩ := hnew hfs
    obtain ⟨hle', hunread'⟩ := hnew' hfs
    -- The second chain neither uses nor changes what the first has led to.
    have hnode := hright.node_eq t hleft.known
    refine .inr ⟨Nat.ne_of_lt (Nat.lt_of_lt_of_le hleft.known hle'),
      ⟨hunread.isMap.of_form_eq (congrArg Node.form hnode), ?_⟩,
      ⟨hunread'.isMap, hunread'.unused⟩, ⟨b, xs ++ fs, ?_, hright.traced.along⟩, ?_, ?_⟩
    · exact hright.unused t hleft.known (Nat.ne_of_gt (Nat.lt_of_lt_of_le hs hle)) hunread.unused
    · exact (hleft.traced.of_form_eq hleft.known fun j hj => by rw [hright.node_eq j hj]).along
    · rw [hnode, hunread.memo_eq, hunread'.memo_eq]
    · rw [hnode, hunread.memo_eq, hunread'.memo_eq]

/-- **Fused maps.**  Of any signal of a graph that requests have led to, with no circles and no flat
    maps, a chain of maps and a chain of fused maps with the same steps are made.  The fused ones
    are a single map.  After any writes and reads, with neither chain read without the other, both
    can be read, and the reads give the same outcome and the same version, whichever comes
    first. -/
theorem mapFused_alike [LawfulBEq P] (hpure : codes.Pure fn inv) {w₀ : World P F Φ σ}
    (hempty : w₀.graph = {}) (hruns : Runs codes Request.Fits w₀ w) (hs : s < w.graph.size)
    (fs : List F) {g₁ g₂ : Graph P F Φ}
    (hmaps : w.graph.chain (fun s f => .map s f true) s fs = (t, g₁))
    (hfused : g₁.chain .mapFused s fs = (u, g₂)) (hturns : Turns codes t u (w.put g₂) w')
    (hd : w'.graph.size < d) :
    (fs ≠ [] → ∃ origin steps,
        (g₂.node u).form = .map origin (steps ++ fs) (.readOnly true)) ∧
      (∃ w₁, ReadAlike codes d w' t u w₁) ∧ ∃ w₁, ReadAlike codes d w' u t w₁ := by
  have hintact : Intact fn w.graph := hruns.intact hpure (hempty ▸ intact_empty)
  have hpaired : Paired fn (w.put g₂).graph t u := paired_chain hintact hs fs hmaps hfused
  have hpaired' := hpaired.turns hturns hpure
  obtain ⟨w₁, hread, -⟩ := hpaired'.readAlike hpure hd
  obtain ⟨w₂, hread', -⟩ := hpaired'.symm.readAlike hpure hd
  refine ⟨fun hfs => ?_, ⟨w₁, hread⟩, w₂, hread'⟩
  have hone := g₁.chain_mapFused s hfs
  rwa [hfused] at hone

section

open scoped Summing

/-- The list of a cell, and the number two below it, once by a map of a map and once fused. -/
def twoBelow : Graph Nat Unit Unit where
  nodes := #[{ form := .cell, memo := .given (.ok 3) }, { form := .join [0] },
    { form := .map 1 [()] (.readOnly true) }, { form := .map 2 [()] (.readOnly true) },
    { form := .map 1 [()] (.readOnly true) }, { form := .map 1 [(), ()] (.readOnly true) }]

/-- Both were read. -/
def oneRead : Graph Nat Unit Unit where
  nodes := #[{ form := .cell, memo := .given (.ok 3), dependents := [.signal 1] },
    { form := .join [0], memo := ⟨some (.ok 3), 1, false⟩,
      dependents := [.signal 2, .signal 5], seen := [1] },
    { form := .map 1 [()] (.readOnly true), memo := ⟨some (.ok 2), 1, false⟩,
      dependents := [.signal 3], seen := [1] },
    { form := .map 2 [()] (.readOnly true), memo := ⟨some (.ok 1), 1, false⟩, seen := [1] },
    { form := .map 1 [()] (.readOnly true) },
    { form := .map 1 [(), ()] (.readOnly true), memo := ⟨some (.ok 1), 1, false⟩, seen := [1] }]

/-- Then the cell was written. -/
def oneLeft : Graph Nat Unit Unit where
  nodes := #[{ form := .cell, memo := ⟨some (.ok 1), 2, false⟩ },
    { form := .join [0], memo := ⟨some (.ok 3), 1, true⟩, seen := [1] },
    { form := .map 1 [()] (.readOnly true), memo := ⟨some (.ok 2), 1, true⟩, seen := [1] },
    { form := .map 2 [()] (.readOnly true), memo := ⟨some (.ok 1), 1, true⟩, seen := [1] },
    { form := .map 1 [()] (.readOnly true) },
    { form := .map 1 [(), ()] (.readOnly true), memo := ⟨some (.ok 1), 1, true⟩, seen := [1] }]

theorem turns_oneLeft : Turns (.ofFunctions predecessor successor) 3 5
    (⟨twoBelow, 0, ()⟩ : World Nat Unit Unit Unit) ⟨oneLeft, 0, ()⟩ := by
  have hread : Turns (.ofFunctions predecessor successor) 3 5
      (⟨twoBelow, 0, ()⟩ : World Nat Unit Unit Unit) ⟨oneRead, 0, ()⟩ :=
    .both 3 5 9 .now (.inl ⟨rfl, rfl⟩) (by decide) (by cbv) (by cbv)
  exact .write 0 (.ok 1) 9 hread (by decide) (by decide) (by cbv)

/-- There is no number two below any more: both fail at the second step. -/
theorem mapFused_alike_oneLeft :
    ∃ w₁ w₂ : World Nat Unit Unit Unit,
      (Request.get 5).run (.ofCodes (.ofFunctions predecessor successor) 9) ⟨oneLeft, 0, ()⟩ =
        .ok (.value (.error (.failed "zero")), w₁) ∧
      (Request.get 3).run (.ofCodes (.ofFunctions predecessor successor) 9) w₁ =
        .ok (.value (.error (.failed "zero")), w₂) ∧
      w₂.graph.version 3 = w₁.graph.version 5 := by
  have hcell : Runs (.ofFunctions predecessor successor) Request.Fits
      (⟨{}, 0, ()⟩ : World Nat Unit Unit Unit)
      ⟨{ nodes := #[{ form := .cell, memo := .given (.ok 3) }] }, 0, ()⟩ :=
    .next (.create (.cell (.ok 3))) 9 .now ⟨nofun, nofun⟩ (by decide) rfl
  have hjoin : Runs (.ofFunctions predecessor successor) Request.Fits
      (⟨{}, 0, ()⟩ : World Nat Unit Unit Unit)
      ⟨{ nodes := #[{ form := .cell, memo := .given (.ok 3) }, { form := .join [0] }] }, 0, ()⟩ :=
    .next (.create (.join [0])) 9 hcell ⟨by decide, nofun⟩ (by decide) rfl
  obtain ⟨-, -, w₂, o, w₁, hread, hread', hversion⟩ :=
    mapFused_alike (d := 9) (Codes.pure_ofFunctions predecessor successor) rfl hjoin (s := 1)
      (by decide) [(), ()] rfl rfl turns_oneLeft (by decide)
  obtain ⟨w₃, hfails⟩ : ∃ w₃, (Request.get 5).run
      (.ofCodes (.ofFunctions predecessor successor) 9)
      (⟨oneLeft, 0, ()⟩ : World Nat Unit Unit Unit) = .ok (.value (.error (.failed "zero")), w₃) :=
    ⟨_, show _ = Except.ok (_, _) by cbv⟩
  obtain rfl : o = .error (.failed "zero") := by
    have hsame := hread.symm.trans hfails
    cases hsame
    rfl
  exact ⟨w₁, w₂, hread, hread', hversion⟩

end

end ReactiveDoc.Signal
