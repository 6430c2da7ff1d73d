import ReactiveDoc.Proofs.Check.Statement

namespace ReactiveDoc.Check

/-!
# What holds of the recorded interfaces

* `Keeps` — a computation of the checker keeps what holds of the recorded interfaces, in view of
  what is recorded in the end.
* `Keeps.bind`, `Keeps.mapM`, `Keeps.foldlM` — this passes through sequences of steps.
* `keeps_record`, `keeps_heldOr` — recording keeps what the new interface keeps.
-/

open InterfaceMap (Extends)

/-- The computation keeps what is recorded.  If `M` keeps what the computation has recorded, and
    `P` holds, then `I` stays true of the recorded interfaces, and the result satisfies `Q`. -/
def Keeps (I : InterfaceMap → Prop) (M : InterfaceMap) {α : Type} (P : Prop) (x : CheckM α)
    (Q : α → Prop) : Prop :=
  ∀ m a m', x m = .ok (a, m') → Extends (fun _ => True) m m' ∧
    (Extends (fun _ => True) m' M → P → I m → I m' ∧ Q a)

variable {I : InterfaceMap → Prop} {M : InterfaceMap} {α β γ : Type} {P : Prop} {s : Setting}
  {node : NodeId}

/-! ### Sequences of steps -/

section

variable {Q : α → Prop} {R : β → Prop} {x : CheckM α}

theorem keeps_pure {a : α} (h : P → Q a) : Keeps I M P (pure a : CheckM α) Q := by
  intro m b m' hrun
  cases hrun
  exact ⟨.refl m, fun _ hP hI => ⟨hI, h hP⟩⟩

theorem keeps_throw (fault : Fault) : Keeps I M P (throw fault : CheckM α) Q :=
  fun _ _ _ hrun => nomatch hrun

theorem Keeps.bind {f : α → CheckM β} (h : Keeps I M P x Q)
    (hf : ∀ a, Keeps I M (P ∧ Q a) (f a) R) : Keeps I M P (x >>= f) R := by
  intro m b m'' hrun
  obtain ⟨a, m', hx, hfa⟩ := bind_eq_ok hrun
  obtain ⟨hgrows, hfirst⟩ := h m a m' hx
  obtain ⟨hgrows', hsecond⟩ := hf a m' b m'' hfa
  refine ⟨hgrows.trans hgrows', fun hM hP hI => ?_⟩
  obtain ⟨hI', hQ⟩ := hfirst (hgrows'.trans hM) hP hI
  exact hsecond hM ⟨hP, hQ⟩ hI'

/-- What is looked up outside of the map is passed on. -/
theorem keeps_liftM_bind {e : Except Fault α} {f : α → CheckM β}
    (h : ∀ a, e = .ok a → Keeps I M P (f a) R) :
    Keeps I M P ((liftM e : CheckM α) >>= f) R := by
  cases e with
  | ok a => exact h a rfl
  | error fault => exact fun _ _ _ hrun => nomatch hrun

theorem Keeps.mono {P' : Prop} {Q' : α → Prop} (h : Keeps I M P x Q) (hP : P' → P)
    (hQ : ∀ a, P' → Q a → Q' a) : Keeps I M P' x Q' := by
  intro m a m' hrun
  obtain ⟨hgrows, hrest⟩ := h m a m' hrun
  refine ⟨hgrows, fun hM hP' hI => ?_⟩
  obtain ⟨hI', hQa⟩ := hrest hM (hP hP') hI
  exact ⟨hI', hQ a hP' hQa⟩

theorem Keeps.mapM {S : γ → α → Prop} {f : γ → CheckM α} {cs : List γ}
    (h : ∀ c ∈ cs, ∀ P' : Prop, (P' → P) → Keeps I M P' (f c) (S c)) :
    Keeps I M P (cs.mapM f) (List.Forall₂ S cs) := by
  induction cs generalizing P with
  | nil => exact keeps_pure fun _ => .nil
  | cons c cs ih =>
    rw [List.mapM_cons]
    refine (h c List.mem_cons_self P id).bind fun a => ?_
    refine (ih fun c' hc' P' hP' => h c' (List.mem_cons_of_mem c hc') P' fun hP => (hP' hP).1).bind
      fun as => ?_
    exact keeps_pure fun ⟨⟨_, ha⟩, has⟩ => .cons ha has

/-- If the result of a fold is good then so was what it started from, and each member. -/
theorem Keeps.foldlM {good : α → Prop} {S : γ → Prop} {f : α → γ → CheckM α} {cs : List γ}
    (h : ∀ a, ∀ c ∈ cs, ∀ P' : Prop, (P' → P) →
      Keeps I M P' (f a c) fun b => good b → good a ∧ S c) (a : α) :
    Keeps I M P (cs.foldlM f a) fun b => good b → good a ∧ ∀ c ∈ cs, S c := by
  induction cs generalizing P a with
  | nil => exact keeps_pure fun _ ha => ⟨ha, fun _ hc => nomatch hc⟩
  | cons c cs ih =>
    rw [List.foldlM_cons]
    refine (h a c List.mem_cons_self P id).bind fun b => ?_
    refine (ih (fun a c' hc' P' hP' => h a c' (List.mem_cons_of_mem c hc') P' fun hP =>
      (hP' hP).1) b).mono id ?_
    rintro d ⟨-, hfirst⟩ hrest hd
    obtain ⟨hb, hcs⟩ := hrest hd
    exact ⟨(hfirst hb).1, List.forall_mem_cons.mpr ⟨(hfirst hb).2, hcs⟩⟩

theorem Keeps.foldlM_forall {S : γ → Prop} {f : α → γ → CheckM α} {cs : List γ}
    (h : ∀ a, ∀ c ∈ cs, ∀ P' : Prop, (P' → P) → Keeps I M P' (f a c) fun _ => S c) (a : α) :
    Keeps I M P (cs.foldlM f a) fun _ => ∀ c ∈ cs, S c := by
  have hfold : Keeps I M P (cs.foldlM f a) fun _ => True → True ∧ ∀ c ∈ cs, S c :=
    .foldlM (fun a c hc P' hP' => (h a c hc P' hP').mono id fun _ _ hS _ => ⟨trivial, hS⟩) a
  exact hfold.mono id fun _ _ hall => (hall trivial).2

theorem Keeps.forM {S : γ → Prop} {f : γ → CheckM Unit} {cs : List γ}
    (h : ∀ c ∈ cs, ∀ P' : Prop, (P' → P) → Keeps I M P' (f c) fun _ => S c) :
    Keeps I M P (cs.forM f) fun _ => ∀ c ∈ cs, S c := by
  induction cs generalizing P with
  | nil => exact keeps_pure fun _ _ hc => nomatch hc
  | cons c cs ih =>
    show Keeps I M P (f c >>= fun _ => cs.forM f) _
    refine (h c List.mem_cons_self P id).bind fun _ => ?_
    refine (ih fun c' hc' P' hP' => h c' (List.mem_cons_of_mem c hc') P' fun hP =>
      (hP' hP).1).mono id ?_
    exact fun _ hP hcs => List.forall_mem_cons.mpr ⟨hP.2, hcs⟩

end

/-! ### Recording -/

/-- What is recorded for a node without interface has the place of the node, and is held from then
    on. -/
theorem keeps_record {interface : Interface}
    (h : P → ∀ m span, s.tree.span node = .ok span → m.get? node = none → I m →
      I (m.insert node (interface.mapError fun e => e.located span))) :
    Keeps I M P (record s node interface) fun i => M.get? node = some i := by
  intro m i m'' hrun
  have hheld := held_of_record hrun
  obtain ⟨placed, m', hplaced, hrecord⟩ := bind_eq_ok hrun
  obtain ⟨span, hspan, rfl, rfl⟩ : ∃ span, s.tree.span node = .ok span ∧ m' = m ∧
      placed = interface.mapError fun e => e.located span := by
    unfold located at hplaced
    cases hspan : s.tree.span node with
    | ok span =>
      rw [liftM_bind hspan] at hplaced
      cases hplaced
      exact ⟨span, rfl, rfl, rfl⟩
    | error fault =>
      rw [hspan] at hplaced
      cases hplaced
  have hrecord : m'.record node (interface.mapError fun e => e.located span) = (i, m'') :=
    Except.ok.inj hrecord
  unfold InterfaceMap.record at hrecord
  cases hget : m'.get? node with
  | some kept =>
    rw [hget] at hrecord
    cases hrecord
    exact ⟨.refl _, fun hM _ hI => ⟨hI, hM.held node i hheld⟩⟩
  | none =>
    rw [hget] at hrecord
    cases hrecord
    exact ⟨.insert trivial _, fun hM hP hI =>
      ⟨h hP m' span hspan hget hI, hM.held node _ hheld⟩⟩

/-- A node that has an interface keeps it. -/
theorem keeps_heldOr {z : CheckM Interface} (h : Keeps I M P z fun i => M.get? node = some i) :
    Keeps I M P (do match (← get).get? node with | some held => pure held | none => z)
      fun i => M.get? node = some i := by
  intro m i m' hrun
  have hrun : (match m.get? node with | some held => pure held | none => z : CheckM Interface) m =
      .ok (i, m') := hrun
  cases hget : m.get? node with
  | some held =>
    rw [hget] at hrun
    cases hrun
    exact ⟨.refl m, fun hM _ hI => ⟨hI, hM.held node i hget⟩⟩
  | none =>
    rw [hget] at hrun
    exact h m i m' hrun

end ReactiveDoc.Check
