import ReactiveDoc.Proofs.Signal.Request

namespace ReactiveDoc.Signal

/-!
# Flat maps over pure functions

* `Pick` — the signal that a function gives for a value: one that is there, or a new one.
* `Pick.Is` — a signal is the one that the function gives, or one made like it.
* `Behaviour.choosing` — what maps and flat maps over pure functions may give.
* `laws_choosing` — pure functions keep to it, and `choosing_regular` — it leaves room for the
  signals that they make.
-/

variable {P F Φ σ : Type}

/-- The new signal is determined by what it is made from.  A cell or a reference has a life of its
    own, and what a fused map is made from depends on the graph. -/
def Creation.Determined : Creation P F Φ → Prop
  | constant _ | map .. | mapWritable .. | lift _ | join _ | label .. => True
  | cell _ | reference | mapFused .. | flatMap .. => False

theorem Creation.Determined.form_eq {c : Creation P F Φ} (h : c.Determined) (g g' : Graph P F Φ) :
    c.form g' = c.form g := by
  cases c with
  | mapFused source f => exact h.elim
  | _ => rfl

theorem Creation.Determined.form_ne {c : Creation P F Φ} (h : c.Determined) (g : Graph P F Φ) :
    c.form g ≠ .reference none := by
  cases c with
  | reference => exact h.elim
  | mapFused source f => exact h.elim
  | _ => simp [form]

theorem Creation.Determined.form_ne_flatMap {c : Creation P F Φ} (h : c.Determined)
    (g : Graph P F Φ) {source : SignalId} {choice : Φ} : c.form g ≠ .flatMap source choice := by
  intro hform
  rw [Creation.eq_flatMap_of_form hform] at h
  exact h

theorem Creation.Determined.upstream_eq {c : Creation P F Φ} (h : c.Determined)
    (g : Graph P F Φ) : (c.form g).upstream = c.sources := by
  cases c with
  | mapFused source f => exact h.elim
  | _ => rfl

/-- The signal that a function gives for a value: one that is there, or a new one. -/
inductive Pick (P F Φ : Type) where
  | known (id : SignalId)
  | made (creation : Creation P F Φ)

namespace Pick

/-- The signals that must be there. -/
def sources : Pick P F Φ → List SignalId
  | known id => [id]
  | made creation => creation.sources

/-- A signal that is there, or a new one that is determined by what it is made from. -/
def Determined : Pick P F Φ → Prop
  | known _ => True
  | made creation => creation.Determined

/-- Give the signal. -/
def run : Pick P F Φ → Action P F Φ σ SignalId
  | known id => pure id
  | made creation => create fun g => creation.apply g

/-- The signal is the one that is given, or one made in the same way. -/
def Is (g : Graph P F Φ) : Pick P F Φ → SignalId → Prop
  | known id, i => i = id
  | made creation, i => (g.node i).form = creation.form g ∧
      ((g.node i).form = .constant → (g.node i).memo = creation.memo)

theorem Is.evolve {g g' : Graph P F Φ} {pick : Pick P F Φ} {i : SignalId} (h : pick.Is g i)
    (hd : pick.Determined) (hev : g.Evolves g') : pick.Is g' i := by
  cases pick with
  | known id => exact h
  | made c =>
    obtain ⟨hform, hmemo⟩ := h
    have hsame : (g'.node i).form = (g.node i).form :=
      hev.form_eq i (by rw [hform]; exact Creation.Determined.form_ne hd g)
    refine ⟨?_, fun hconst => ?_⟩
    · rw [hsame, hform, Creation.Determined.form_eq hd g g']
    · rw [hsame] at hconst
      rw [hev.constant_eq i hconst]
      exact hmemo hconst

end Pick

/-! ### What pure functions keep to -/

/-- The functions of maps give what `fn` gives, and flat maps follow what `pick` gives, or signals
    made like that.  A signal that is made needs a rank below that of the flat map. -/
def Behaviour.choosing (fn : F → P → Outcome P) (pick : Φ → P → Pick P F Φ) :
    Behaviour P F Φ where
  good _ := True
  fine _ := True
  image f p o := o = fn f p
  chosen g _ choice p id := (pick choice p).Determined ∧ (pick choice p).Is g id
  room g rank _ choice k := 0 < k ∧ ∀ p, (pick choice p).Determined ∧
    ∀ s ∈ (pick choice p).sources, s < g.size ∧ rank s + 1 < k
  adds := True
  apart := False

section

variable {fn : F → P → Outcome P} {pick : Φ → P → Pick P F Φ}

theorem choosing_stable : (Behaviour.choosing fn pick).Stable where
  chosen hev h := ⟨h.1, h.2.evolve h.1 hev⟩
  room := by
    rintro g g' rank rank' source choice k hev hrank ⟨hpos, hpicks⟩
    refine ⟨hpos, fun p => ⟨(hpicks p).1, fun s hmem => ?_⟩⟩
    obtain ⟨hlt, hk⟩ := (hpicks p).2 s hmem
    rw [hrank s hlt]
    exact ⟨Nat.lt_of_lt_of_le hlt hev.size_le, hk⟩
  apart h := h.elim

/-- Ranks two apart leave room for one new signal in between. -/
theorem choosing_regular : (Behaviour.choosing fn pick).Regular 2 where
  step_pos := Nat.two_pos
  room_compact := by
    rintro g rank source choice id hid ⟨-, hpicks⟩
    refine ⟨?_, fun p => ⟨(hpicks p).1, fun s hmem => ?_⟩⟩
    · exact Nat.mul_pos Nat.two_pos (Graph.card_below_pos rank hid)
    · obtain ⟨hlt, hk⟩ := (hpicks p).2 s hmem
      have hle := Graph.compact_add_le 2 hid (show rank s < rank id by omega)
      exact ⟨hlt, by omega⟩

/-- Pure functions keep to the behaviour. -/
theorem laws_choosing [Carrier P] {codes : Codes P F Φ σ}
    (hpure : ∀ f p w, codes.apply f p w = .ok (fn f p, w))
    (hpick : ∀ choice p, codes.choose choice p = (pick choice p).run) :
    Laws (.choosing fn pick) codes where
  stable := choosing_stable
  closed := ⟨fun _ _ => trivial, fun _ _ => trivial⟩
  apply_run f p w _ _ := ⟨fn f p, w, hpure f p w, rfl, rfl, fun _ _ => trivial⟩
  choose_run := by
    rintro source choice p w rank k hs - ⟨hpos, hpicks⟩ -
    obtain ⟨hd, hsources⟩ := hpicks p
    rw [hpick]
    have hchosen : ∀ g id, (Behaviour.choosing fn pick).chosen g source choice p id ↔
        (pick choice p).Determined ∧ (pick choice p).Is g id := fun _ _ => Iff.rfl
    simp only [hchosen]
    cases hp : pick choice p with
    | known id =>
      rw [hp] at hsources
      obtain ⟨hlt, hk⟩ := hsources id (List.mem_singleton_self _)
      exact ⟨id, w, rank, rfl, .refl hs, fun _ => rfl, hlt, by omega, trivial, rfl⟩
    | made c =>
      rw [hp] at hd hsources
      have hupstream : ∀ s ∈ (c.form w.graph).upstream, s < w.graph.size ∧ rank s < k - 1 := by
        intro s hmem
        rw [Creation.Determined.upstream_eq hd] at hmem
        obtain ⟨hlt, hk⟩ := hsources s hmem
        exact ⟨hlt, by omega⟩
      -- The new signal is between what it is made from and the flat map.
      have hextends := (Extends.refl hs (k := k)).add choosing_stable (c.fresh w.graph) hupstream
        (fun source choice' hform => absurd hform (Creation.Determined.form_ne_flatMap hd _))
        (Creation.All.node c.all_true hs.all)
        (by omega)
      have hnode := w.graph.node_add { form := c.form w.graph, memo := c.memo } w.graph.size
      rw [if_pos rfl] at hnode
      have happly := c.apply_eq w.graph
      rw [← happly] at hextends hnode
      refine ⟨w.graph.size, w.put (c.apply w.graph).2,
        Function.update rank w.graph.size (k - 1), ?_, hextends, ?_, ?_, ?_, hd, ?_, fun _ => ?_⟩
      · show Except.ok ((c.apply w.graph).1, w.put (c.apply w.graph).2) = _
        rw [happly]
        rfl
      · exact fun hadds => absurd trivial hadds
      · rw [World.put_graph, happly, Graph.size_add]
        exact Nat.lt_succ_self _
      · rw [Function.update_self]
        omega
      · rw [World.put_graph, hnode]
        exact Creation.Determined.form_eq hd _ _
      · rw [World.put_graph, hnode]

end

end ReactiveDoc.Signal
