import ReactiveDoc.Proofs.Check.Statement

namespace ReactiveDoc.Check

/-!
# Runs without errors

A computation of the checker has run, and another one is to run on nodes without interfaces.

* `Fresh`, `ErrorFree` — none of some nodes has an interface, or none has failed.
* `OfSome` — the nodes of all members of a list, no two of which share any.
* `Within` — a computation records interfaces for some nodes only.
* `Ran` — a computation started where these nodes were fresh, and what it recorded is still held.
* `Clean` — a computation completes from wherever they are fresh, and leaves no error there.
* `Ran.bind`, `Ran.mapM` — the steps of what ran on nodes have run on nodes of their own.
* `Clean.bind`, `Clean.mapM` — clean steps on different nodes make a clean computation.
* `Ran.clean` — what ran without errors is clean, and so is what it cannot be told from.
* `heldOr` — an interface is computed where none is held.
-/

open InterfaceMap (Extends)

variable {α β γ : Type} {D E F : NodeId → Prop} {M m m' : InterfaceMap} {s : Setting}
  {node : NodeId}

/-- No node in `D` has an interface. -/
def Fresh (D : NodeId → Prop) (m : InterfaceMap) : Prop := ∀ x, D x → m.get? x = none

/-- No node in `D` has failed. -/
def ErrorFree (D : NodeId → Prop) (m : InterfaceMap) : Prop :=
  ∀ x e, D x → m.get? x ≠ some (.error e)

/-- Whatever the computation records it records for nodes in `D`. -/
def Within (D : NodeId → Prop) (x : CheckM α) : Prop :=
  ∀ m a m', x m = .ok (a, m') → Extends D m m'

/-- The computation had this result where the nodes in `D` were fresh, and `M` holds what had been
    recorded after it. -/
def Ran (M : InterfaceMap) (D : NodeId → Prop) (x : CheckM α) (a : α) : Prop :=
  ∃ m m', Fresh D m ∧ x m = .ok (a, m') ∧ Extends (fun _ => True) m' M

/-- Wherever the nodes in `D` are fresh the computation completes, with a result that satisfies `Q`
    and without an error there. -/
def Clean (D : NodeId → Prop) (x : CheckM α) (Q : α → Prop) : Prop :=
  ∀ m, Fresh D m → ∃ a m', x m = .ok (a, m') ∧ Extends D m m' ∧ ErrorFree D m' ∧ Q a

theorem Fresh.mono (h : Fresh D m) (hDE : ∀ x, E x → D x) : Fresh E m :=
  fun x hx => h x (hDE x hx)

/-- What is recorded for other nodes leaves these fresh. -/
theorem Fresh.extends (h : Fresh D m) (hext : Extends E m m') (hdisj : ∀ x, D x → ¬ E x) :
    Fresh D m' := fun x hx => (hext.frame x (hdisj x hx)).trans (h x hx)

theorem ErrorFree.mono (h : ErrorFree D m) (hDE : ∀ x, E x → D x) : ErrorFree E m :=
  fun x e hx => h x e (hDE x hx)

theorem ErrorFree.of_held (h : ErrorFree D M) (hext : Extends (fun _ => True) m M) :
    ErrorFree D m := fun x e hx he => h x e hx (hext.held x _ he)

/-! ### Nodes of the members of a list -/

section

variable {nodesOf : γ → NodeId → Prop} {c : γ} {cs : List γ}

/-- The nodes of different members are different. -/
abbrev Apart (nodesOf : γ → NodeId → Prop) (c d : γ) : Prop := ∀ z, nodesOf d z → ¬ nodesOf c z

/-- The nodes of all members. -/
def OfSome (nodesOf : γ → NodeId → Prop) (cs : List γ) (z : NodeId) : Prop :=
  ∃ c ∈ cs, nodesOf c z

theorem ofSome_of_mem (hc : c ∈ cs) (z : NodeId) (hz : nodesOf c z) : OfSome nodesOf cs z :=
  ⟨c, hc, hz⟩

theorem of_ofSome (hD : ∀ c ∈ cs, ∀ z, nodesOf c z → D z) (z : NodeId)
    (hz : OfSome nodesOf cs z) : D z := by
  obtain ⟨c, hc, hz⟩ := hz
  exact hD c hc z hz

theorem not_of_ofSome (h : ∀ d ∈ cs, Apart nodesOf c d) (z : NodeId)
    (hz : OfSome nodesOf cs z) : ¬ nodesOf c z := by
  obtain ⟨d, hd, hz⟩ := hz
  exact h d hd z hz

end

/-! ### Where a computation records -/

theorem within_pure (a : α) : Within D (pure a : CheckM α) := by
  intro m b m' hrun
  cases hrun
  exact .refl m

namespace Within

variable {x : CheckM α}

theorem mono (h : Within D x) (hDE : ∀ z, D z → E z) : Within E x :=
  fun m a m' hrun => (h m a m' hrun).mono hDE

theorem bind {f : α → CheckM β} (h : Within D x) (hf : ∀ a, Within D (f a)) :
    Within D (x >>= f) := by
  intro m b m'' hrun
  obtain ⟨a, m', hx, hfa⟩ := bind_eq_ok hrun
  exact (h m a m' hx).trans (hf a m' b m'' hfa)

theorem mapM {f : γ → CheckM α} {cs : List γ} (h : ∀ c ∈ cs, Within D (f c)) :
    Within D (cs.mapM f) := by
  induction cs with
  | nil => exact within_pure []
  | cons c cs ih =>
    rw [List.mapM_cons]
    refine (h c List.mem_cons_self).bind fun a => ?_
    exact (ih fun c' hc' => h c' (List.mem_cons_of_mem c hc')).bind fun _ => within_pure _

theorem foldlM {f : α → γ → CheckM α} {cs : List γ} (h : ∀ a, ∀ c ∈ cs, Within D (f a c)) (a : α) :
    Within D (cs.foldlM f a) := by
  induction cs generalizing a with
  | nil => exact within_pure a
  | cons c cs ih =>
    rw [List.foldlM_cons]
    exact (h a c List.mem_cons_self).bind
      (ih fun a c' hc' => h a c' (List.mem_cons_of_mem c hc'))

end Within

theorem Alike.within {R : α → β → Prop} {x : CheckM α} {y : CheckM β} (h : Alike D R x y) :
    Within D x := by
  intro m a m' hrun
  obtain ⟨a', m'', b, m₀', hx, -, -, hext, -⟩ := h m m fun _ _ => rfl
  cases hrun.symm.trans hx
  exact hext

/-! ### What has run -/

/-- The steps of what ran have run, each where its own nodes were fresh. -/
theorem Ran.bind {x : CheckM α} {f : α → CheckM β} {b : β} (h : Ran M D (x >>= f) b)
    (hx : Within E x) (hf : ∀ a, Within F (f a)) (hE : ∀ z, E z → D z) (hF : ∀ z, F z → D z)
    (hdisj : ∀ z, F z → ¬ E z) : ∃ a, Ran M E x a ∧ Ran M F (f a) b := by
  obtain ⟨m, m'', hfresh, hrun, hM⟩ := h
  obtain ⟨a, m', hxm, hfm⟩ := bind_eq_ok hrun
  have hext := hx m a m' hxm
  have hrest := (hf a m' b m'' hfm).mono fun _ _ => trivial
  refine ⟨a, ⟨m, m', hfresh.mono hE, hxm, hrest.trans hM⟩, ?_⟩
  exact ⟨m', m'', (hfresh.mono hF).extends hext hdisj, hfm, hM⟩

theorem Ran.mono {x : CheckM α} {a : α} (h : Ran M D x a) (hE : ∀ z, E z → D z) : Ran M E x a := by
  obtain ⟨m, m', hfresh, hrest⟩ := h
  exact ⟨m, m', hfresh.mono hE, hrest⟩

/-- A computation that returns what its first part does has run if that has. -/
theorem Ran.of_bind_pure {x : CheckM α} {f : α → β} {b : β}
    (h : Ran M D (x >>= fun a => pure (f a)) b) : ∃ a, Ran M D x a ∧ b = f a := by
  obtain ⟨m, m'', hfresh, hrun, hM⟩ := h
  obtain ⟨a, m', hxm, hpure⟩ := bind_eq_ok hrun
  cases hpure
  exact ⟨a, ⟨m, _, hfresh, hxm, hM⟩, rfl⟩

theorem Ran.mapM {f : γ → CheckM α} {nodesOf : γ → NodeId → Prop} {cs : List γ} {as : List α}
    (h : Ran M D (cs.mapM f) as) (hf : ∀ c ∈ cs, Within (nodesOf c) (f c))
    (hD : ∀ c ∈ cs, ∀ z, nodesOf c z → D z) (hdisj : cs.Pairwise (Apart nodesOf)) :
    List.Forall₂ (fun c a => Ran M (nodesOf c) (f c) a) cs as := by
  induction cs generalizing D as with
  | nil =>
    obtain ⟨m, m', -, hrun, -⟩ := h
    cases hrun
    exact .nil
  | cons c cs ih =>
    rw [List.mapM_cons] at h
    rw [List.forall_mem_cons] at hf hD
    obtain ⟨happart, hdisj⟩ := List.pairwise_cons.mp hdisj
    have hrest : Within (OfSome nodesOf cs) (cs.mapM f) :=
      .mapM fun d hd => (hf.2 d hd).mono (ofSome_of_mem hd)
    obtain ⟨a, hfirst, h⟩ := h.bind hf.1 (fun _ => hrest.bind fun _ => within_pure _) hD.1
      (of_ofSome hD.2) (not_of_ofSome happart)
    obtain ⟨rest, hrun, heq⟩ := h.of_bind_pure
    cases heq
    exact .cons hfirst (ih hrun hf.2 (fun d hd => ofSome_of_mem hd) hdisj)

/-! ### Clean computations -/

theorem Fresh.errorFree (h : Fresh D m) : ErrorFree D m := by
  intro x e hx he
  rw [h x hx] at he
  cases he

theorem clean_pure {Q : α → Prop} {a : α} (h : Q a) : Clean D (pure a : CheckM α) Q :=
  fun m hfresh => ⟨a, m, rfl, .refl m, hfresh.errorFree, h⟩

namespace Clean

variable {x : CheckM α} {Q : α → Prop} {R : β → Prop}

theorem imp {Q' : α → Prop} (h : Clean D x Q) (hQ : ∀ a, Q a → Q' a) : Clean D x Q' := by
  intro m hfresh
  obtain ⟨a, m', hrun, hext, hfree, ha⟩ := h m hfresh
  exact ⟨a, m', hrun, hext, hfree, hQ a ha⟩

/-- Nodes for which nothing is recorded have no errors. -/
theorem mono (h : Clean E x Q) (hE : ∀ z, E z → D z) : Clean D x Q := by
  intro m hfresh
  obtain ⟨a, m', hrun, hext, hfree, ha⟩ := h m (hfresh.mono hE)
  refine ⟨a, m', hrun, hext.mono hE, fun z e hz => ?_, ha⟩
  by_cases hEz : E z
  · exact hfree z e hEz
  · rw [hext.frame z hEz]
    exact hfresh.errorFree z e hz

/-- Clean steps on different nodes. -/
theorem bind {f : α → CheckM β} (h : Clean E x Q) (hf : ∀ a, Q a → Clean F (f a) R)
    (hE : ∀ z, E z → D z) (hF : ∀ z, F z → D z) (hdisj : ∀ z, F z → ¬ E z) :
    Clean D (x >>= f) R := by
  intro m hfresh
  obtain ⟨a, m', hx, hext, hfree, ha⟩ := h m (hfresh.mono hE)
  obtain ⟨b, m'', hfa, hext', hfree', hb⟩ := hf a ha m' ((hfresh.mono hF).extends hext hdisj)
  have hall := (hext.mono hE).trans (hext'.mono hF)
  refine ⟨b, m'', (bind_run hx).trans hfa, hall, fun z e hz he => ?_, hb⟩
  by_cases hFz : F z
  · exact hfree' z e hFz he
  · rw [hext'.frame z hFz] at he
    by_cases hEz : E z
    · exact hfree z e hEz he
    · exact hfresh.errorFree z e hz ((hext.frame z hEz).symm.trans he)

theorem map {f : α → β} (h : Clean D x Q) (hf : ∀ a, Q a → R (f a)) :
    Clean D (x >>= fun a => pure (f a)) R :=
  h.bind (F := fun _ => False) (fun a ha => clean_pure (hf a ha)) (fun _ => id)
    (fun _ => False.elim) fun _ => False.elim

theorem mapM {f : γ → CheckM α} {nodesOf : γ → NodeId → Prop} {cs : List γ}
    (h : ∀ c ∈ cs, Clean (nodesOf c) (f c) Q) (hD : ∀ c ∈ cs, ∀ z, nodesOf c z → D z)
    (hdisj : cs.Pairwise (Apart nodesOf)) : Clean D (cs.mapM f) fun _ => True := by
  induction cs generalizing D with
  | nil => exact clean_pure trivial
  | cons c cs ih =>
    rw [List.mapM_cons]
    rw [List.forall_mem_cons] at h hD
    obtain ⟨happart, hdisj⟩ := List.pairwise_cons.mp hdisj
    have hrest : Clean (OfSome nodesOf cs) (cs.mapM f) fun _ => True :=
      ih h.2 (fun d hd => ofSome_of_mem hd) hdisj
    exact h.1.bind (fun _ _ => hrest.map fun _ _ => trivial) hD.1 (of_ofSome hD.2)
      (not_of_ofSome happart)

end Clean

/-- What ran without errors is clean, and so is every computation that it cannot be told from. -/
theorem Ran.clean {R : α → β → Prop} {x : CheckM α} {y : CheckM β} {a : α} (h : Ran M D x a)
    (hM : ErrorFree D M) (halike : Alike D R x y) : Clean D y (R a) := by
  intro m₀ hfresh₀
  obtain ⟨m, m', hfresh, hrun, hheld⟩ := h
  obtain ⟨a', m₁, b, m₀', hx, hy, hab, -, hext₀, hagree⟩ :=
    halike m m₀ fun z hz => (hfresh z hz).trans (hfresh₀ z hz).symm
  cases hrun.symm.trans hx
  -- Both runs leave the same interfaces in `D`, and `M` still holds those of the first one.
  refine ⟨b, m₀', hy, hext₀, fun z e hz he => ?_, hab⟩
  exact hM.of_held hheld z e hz ((hagree z hz).trans he)

/-! ### Recording -/

theorem within_record (hnode : D node) {span : Span} (hspan : s.tree.span node = .ok span)
    (interface : Interface) : Within D (record s node interface) := by
  have halike : Alike D Eq (record s node interface) (record s node interface) :=
    record_alike hnode hspan hspan interface
  exact halike.within

/-- A typing that is recorded for a fresh node is held. -/
theorem clean_record {span : Span} (hspan : s.tree.span node = .ok span) (typing : Typing) :
    Clean (· = node) (record s node (.ok typing)) (· = .ok typing) := by
  intro m hfresh
  refine ⟨.ok typing, m.insert node (.ok typing), ?_, .insert (D := (· = node)) rfl _, ?_, rfl⟩
  · rw [record_run hspan]
    exact congrArg Except.ok (InterfaceMap.record_of_none (hfresh node rfl) _)
  · rintro x e rfl
    rw [InterfaceMap.get?_insert_of_none (hfresh x rfl), if_pos rfl]
    exact nofun

/-- What was recorded for a fresh node is what it has then. -/
theorem Ran.record {span : Span} (hspan : s.tree.span node = .ok span) {interface held : Interface}
    (h : Ran M (· = node) (record s node interface) held) :
    held = interface.mapError (fun e => e.located span) ∧ M.get? node = some held := by
  obtain ⟨m, m', hfresh, hrun, hM⟩ := h
  refine ⟨?_, hM.held node held (held_of_record hrun)⟩
  rw [record_run hspan, InterfaceMap.record_of_none (hfresh node rfl)] at hrun
  cases hrun
  rfl

/-- An error that was marked at a fresh node is there. -/
theorem Ran.mark_error {span : Span} (hspan : s.tree.span node = .ok span) {e : TypeError}
    {f : Unit → α} {a : α}
    (h : Ran M (· = node) (mark s node (.error e) >>= fun u => pure (f u)) a) :
    ∃ e, M.get? node = some (.error e) := by
  obtain ⟨_, h, -⟩ := h.of_bind_pure
  obtain ⟨held, h, -⟩ := Ran.of_bind_pure (f := fun _ : Interface => ()) h
  obtain ⟨rfl, hheld⟩ := h.record hspan
  exact ⟨_, hheld⟩

/-- The interface that is held for a node, or else what a computation gives. -/
def heldOr (node : NodeId) (z : CheckM Interface) : CheckM Interface := do
  match (← get).get? node with
  | some held => pure held
  | none => z

variable {z : CheckM Interface} {i : Interface}

theorem heldOr_of_some (h : m.get? node = some i) : heldOr node z m = .ok (i, m) := by
  show (match m.get? node with | some held => pure held | none => z : CheckM Interface) m = _
  rw [h]
  rfl

theorem heldOr_of_none (h : m.get? node = none) : heldOr node z m = z m := by
  show (match m.get? node with | some held => pure held | none => z : CheckM Interface) m = _
  rw [h]

/-- A node without interface gets one. -/
theorem Ran.heldOr (hnode : D node) (h : Ran M D (heldOr node z) i) : Ran M D z i := by
  obtain ⟨m, m', hfresh, hrun, hM⟩ := h
  rw [heldOr_of_none (hfresh node hnode)] at hrun
  exact ⟨m, m', hfresh, hrun, hM⟩

theorem Clean.heldOr {Q : Interface → Prop} (hnode : D node) (h : Clean D z Q) :
    Clean D (heldOr node z) Q := by
  intro m hfresh
  obtain ⟨i, m', hrun, hrest⟩ := h m hfresh
  exact ⟨i, m', (heldOr_of_none (hfresh node hnode)).trans hrun, hrest⟩

end ReactiveDoc.Check
