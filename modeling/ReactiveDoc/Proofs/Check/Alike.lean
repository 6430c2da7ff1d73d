import Mathlib.Tactic.Common
import ReactiveDoc.Check.Setting
import ReactiveDoc.InterfaceMap

namespace ReactiveDoc

/-!
# Computations that see the same

Two computations of the checker are compared that start from maps with the same interfaces for some
nodes.  They need not have anything else in common.

* `get?_insert`, `get?_insertAll` — an interface is recorded where there is none.
* `Extends` — one map keeps what another has recorded, and adds interfaces in a range of nodes.
* `ext_of_get?` — maps of one size with the same interfaces are equal.
* `Alike` — both complete, with related results, and record the same, for these nodes only.
* `Alike.bind`, `Alike.mapM`, `Alike.foldlM` — this passes through sequences of steps.
* `record_alike` — recording keeps to it.
-/

namespace InterfaceMap

/-! ### What is recorded -/

variable {m m' m'' : InterfaceMap} {node x : NodeId} {i : Interface}

theorem get?_ofSize (n : Nat) (x : NodeId) : (ofSize n).get? x = none := by
  unfold get? ofSize
  rw [Array.getElem?_replicate]
  split <;> rfl

theorem get?_insert_of_held (h : (m.get? node).isSome) : m.insert node i = m := by
  unfold insert contains
  rw [if_pos h]

/-- A node without an interface gets the one that is recorded, and no other node gets any. -/
theorem get?_insert_of_none (h : m.get? node = none) (x : NodeId) :
    (m.insert node i).get? x = if x = node then some i else m.get? x := by
  unfold insert
  rw [if_neg (by simp [contains, h])]
  unfold get?
  simp only [Array.getElem?_setIfInBounds, Array.getElem?_append, Array.size_append,
    Array.size_replicate, Array.getElem?_replicate]
  by_cases hx : x = node
  · subst hx
    rw [if_pos rfl, if_pos (by omega), if_pos rfl]
    rfl
  · rw [if_neg (Ne.symm hx), if_neg hx]
    by_cases hlt : x < m.slots.size
    · rw [if_pos hlt]
    · rw [if_neg hlt, Array.getElem?_eq_none (Nat.not_lt.mp hlt)]
      split <;> rfl

theorem record_of_none (h : m.get? node = none) (i : Interface) :
    m.record node i = (i, m.insert node i) := by
  unfold record
  rw [h]

theorem size_insert_of_lt (h : node < m.slots.size) : (m.insert node i).slots.size = m.slots.size := by
  unfold insert
  split
  · rfl
  · rw [Array.size_setIfInBounds, Array.size_append, Array.size_replicate,
      Nat.sub_eq_zero_of_le h, Nat.add_zero]

/-- Interfaces that are taken over fill in for those that are not there. -/
theorem get?_insertAll {held : NodeId → Option Interface} {entries : List (NodeId × Interface)}
    (hentries : ∀ e ∈ entries, held e.1 = some e.2) (m : InterfaceMap) (x : NodeId) :
    (m.insertAll entries).get? x =
      (m.get? x).or (if x ∈ entries.map Prod.fst then held x else none) := by
  induction entries generalizing m with
  | nil => simp [insertAll]
  | cons e rest ih =>
    have hfirst := hentries e List.mem_cons_self
    show ((m.insert e.1 e.2).insertAll rest).get? x = _
    rw [ih (fun e' he' => hentries e' (List.mem_cons_of_mem e he')) (m.insert e.1 e.2),
      List.map_cons]
    cases hget : m.get? e.1 with
    | some kept =>
      rw [get?_insert_of_held (by rw [hget]; rfl)]
      by_cases hx : x = e.1
      · rw [hx, hget]
        rfl
      · simp only [List.mem_cons, hx, false_or]
    | none =>
      rw [get?_insert_of_none hget]
      by_cases hx : x = e.1
      · rw [if_pos hx, hx, hget, hfirst, if_pos List.mem_cons_self]
        rfl
      · simp only [List.mem_cons, hx, false_or, ↓reduceIte]

theorem size_insertAll {entries : List (NodeId × Interface)}
    (h : ∀ e ∈ entries, e.1 < m.slots.size) : (m.insertAll entries).slots.size = m.slots.size := by
  induction entries generalizing m with
  | nil => rfl
  | cons e rest ih =>
    have hsize := size_insert_of_lt (i := e.2) (h e List.mem_cons_self)
    refine (ih fun e' he' => ?_).trans hsize
    rw [hsize]
    exact h e' (List.mem_cons_of_mem e he')

/-- Maps of one size with the same interfaces are equal. -/
theorem ext_of_get? (hsize : m.slots.size = m'.slots.size) (h : ∀ x, m.get? x = m'.get? x) :
    m = m' := by
  obtain ⟨slots⟩ := m
  obtain ⟨slots'⟩ := m'
  congr 1
  refine Array.ext hsize fun x hx hx' => ?_
  have hget := h x
  unfold get? at hget
  simpa [Array.getElem?_eq_getElem hx, Array.getElem?_eq_getElem hx'] using hget

/-! ### Errors -/

/-- The first of some errors is kept. -/
theorem eq_nil_of_distinct {es : List TypeError} (h : distinct es = []) : es = [] := by
  cases es with
  | nil => rfl
  | cons e es =>
    have hkept : ∀ (es kept : List TypeError), kept ≠ [] →
        es.foldl (fun kept e => if kept.contains e then kept else kept ++ [e]) kept ≠ [] := by
      intro es
      induction es with
      | nil => exact fun _ h => h
      | cons e es ih =>
        intro kept hne
        refine ih _ ?_
        dsimp only
        split
        · exact hne
        · exact List.append_ne_nil_of_left_ne_nil hne _
    exact absurd h (hkept es [e] (List.cons_ne_nil e []))

theorem errors_eq_nil (h : (m.entries.filterMap fun (_, i) => Interface.error? i) = []) :
    m.errors = [] := by
  unfold errors
  simp only [h, List.mergeSort_nil]
  rfl

/-- If no error is reported then none is recorded. -/
theorem get?_ne_error {e : TypeError} (h : m.errors = []) : m.get? x ≠ some (.error e) := by
  intro hget
  have hslot : m.slots.toList[x]? = some (some (.error e)) := by
    unfold get? at hget
    rwa [Array.getElem?_toList, ← Option.join_eq_some_iff]
  have hentry : (x, .error e) ∈ m.entries :=
    List.mem_filterMap.mpr ⟨_, List.mk_mem_zipIdx_iff_getElem?.mpr hslot, rfl⟩
  have hall := eq_nil_of_distinct h
  have hmem : e ∈ (m.entries.filterMap fun (_, interface) => Interface.error? interface) :=
    List.mem_filterMap.mpr ⟨_, hentry, rfl⟩
  exact List.not_mem_nil (hall ▸ List.mem_mergeSort.mpr hmem)

/-! ### Extension -/

/-- `m'` holds everything that `m` holds, and has new interfaces only for nodes in `D`. -/
structure Extends (D : NodeId → Prop) (m m' : InterfaceMap) : Prop where
  held : ∀ x i, m.get? x = some i → m'.get? x = some i
  frame : ∀ x, ¬ D x → m'.get? x = m.get? x
  size_eq : (∀ x, D x → x < m.slots.size) → m'.slots.size = m.slots.size

namespace Extends

variable {D E : NodeId → Prop}

theorem refl (m : InterfaceMap) : Extends D m m := ⟨fun _ _ h => h, fun _ _ => rfl, fun _ => rfl⟩

theorem trans (h : Extends D m m') (h' : Extends D m' m'') : Extends D m m'' where
  held x i hx := h'.held x i (h.held x i hx)
  frame x hx := (h'.frame x hx).trans (h.frame x hx)
  size_eq hD := by
    have hsize := h.size_eq hD
    rw [h'.size_eq (fun x hx => hsize ▸ hD x hx), hsize]

theorem mono (hDE : ∀ x, D x → E x) (h : Extends D m m') : Extends E m m' where
  held := h.held
  frame x hx := h.frame x fun hD => hx (hDE x hD)
  size_eq hE := h.size_eq fun x hx => hE x (hDE x hx)

theorem insert (hnode : D node) (i : Interface) : Extends D m (m.insert node i) := by
  cases hget : m.get? node with
  | some held =>
    rw [get?_insert_of_held (by rw [hget]; rfl)]
    exact refl m
  | none =>
    refine ⟨fun x j hx => ?_, fun x hx => ?_, fun hD => size_insert_of_lt (hD node hnode)⟩
    · rw [get?_insert_of_none hget, if_neg, hx]
      rintro rfl
      rw [hget] at hx
      cases hx
    · rw [get?_insert_of_none hget, if_neg]
      rintro rfl
      exact hx hnode

end Extends

/-- Where two maps agree, they agree after recording the same interface. -/
theorem get?_insert_congr (h : m.get? node = m'.get? node) (hx : m.get? x = m'.get? x) :
    (m.insert node i).get? x = (m'.insert node i).get? x := by
  cases hget : m.get? node with
  | some held =>
    rw [get?_insert_of_held (by rw [hget]; rfl), get?_insert_of_held (by rw [← h, hget]; rfl), hx]
  | none =>
    rw [get?_insert_of_none hget, get?_insert_of_none (h ▸ hget), hx]

end InterfaceMap

namespace Check

open InterfaceMap (Extends)

variable {α β γ δ : Type} {D : NodeId → Prop}

/-- Two maps hold the same interfaces for the nodes in `D`. -/
def AgreeOn (D : NodeId → Prop) (m m₀ : InterfaceMap) : Prop := ∀ x, D x → m.get? x = m₀.get? x

/-- From maps that agree on `D` both computations complete, with related results.  They record
    interfaces for nodes in `D` only, and the maps still agree there. -/
def Alike (D : NodeId → Prop) (R : α → β → Prop) (x : CheckM α) (y : CheckM β) : Prop :=
  ∀ m m₀, AgreeOn D m m₀ → ∃ a m' b m₀', x m = .ok (a, m') ∧ y m₀ = .ok (b, m₀') ∧ R a b ∧
    Extends D m m' ∧ Extends D m₀ m₀' ∧ AgreeOn D m' m₀'

section

variable {R : α → β → Prop} {S : γ → δ → Prop} {x : CheckM α} {y : CheckM β}

theorem alike_pure {a : α} {b : β} (h : R a b) : Alike D R (pure a) (pure b) :=
  fun m m₀ hm => ⟨a, m, b, m₀, rfl, rfl, h, .refl m, .refl m₀, hm⟩

/-- A first step that completes is followed by the second one. -/
theorem bind_run {f : α → CheckM γ} {m m' : InterfaceMap} {a : α} (h : x m = .ok (a, m')) :
    (x >>= f) m = f a m' := by
  show StateT.bind x f m = _
  unfold StateT.bind
  rw [h]
  rfl

theorem Alike.bind {f : α → CheckM γ} {g : β → CheckM δ} (h : Alike D R x y)
    (hfg : ∀ a b, R a b → Alike D S (f a) (g b)) : Alike D S (x >>= f) (y >>= g) := by
  intro m m₀ hm
  obtain ⟨a, m', b, m₀', hx, hy, hab, hext, hext₀, hm'⟩ := h m m₀ hm
  obtain ⟨c, m'', d, m₀'', hf, hg, hcd, hext', hext₀', hm''⟩ := hfg a b hab m' m₀' hm'
  exact ⟨c, m'', d, m₀'', (bind_run hx).trans hf, (bind_run hy).trans hg, hcd, hext.trans hext',
    hext₀.trans hext₀', hm''⟩

/-- A step with one result on both sides. -/
theorem Alike.bind_eq {z z₀ : CheckM α} {f : α → CheckM γ} {g : α → CheckM δ}
    (h : Alike D Eq z z₀) (hfg : ∀ a, Alike D S (f a) (g a)) : Alike D S (z >>= f) (z₀ >>= g) :=
  h.bind fun a _ hab => hab ▸ hfg a

theorem Alike.mono {R' : α → β → Prop} (h : Alike D R x y) (hR : ∀ a b, R a b → R' a b) :
    Alike D R' x y := by
  intro m m₀ hm
  obtain ⟨a, m', b, m₀', hx, hy, hab, hrest⟩ := h m m₀ hm
  exact ⟨a, m', b, m₀', hx, hy, hR a b hab, hrest⟩

/-- From the same map both computations complete, with the same map after them. -/
theorem Alike.run_same {m : InterfaceMap} (h : Alike D R x y) (hD : ∀ z, D z → z < m.slots.size) :
    ∃ a b m', x m = .ok (a, m') ∧ y m = .ok (b, m') ∧ R a b ∧ Extends D m m' := by
  obtain ⟨a, m', b, m₀', hx, hy, hab, hextends, hextends₀, hagree⟩ := h m m fun _ _ => rfl
  have hmaps : m₀' = m' := by
    refine InterfaceMap.ext_of_get? ?_ fun z => ?_
    · rw [hextends.size_eq hD, hextends₀.size_eq hD]
    · by_cases hz : D z
      · exact (hagree z hz).symm
      · rw [hextends.frame z hz, hextends₀.frame z hz]
  exact ⟨a, b, m', hx, hmaps ▸ hy, hab, hextends⟩

/-- What is looked up outside of the map is passed on. -/
theorem liftM_bind {a : α} {e : Except Fault α} (h : e = .ok a) (f : α → CheckM γ) :
    (liftM e : CheckM α) >>= f = f a := by
  subst h
  rfl

end

/-- The same step for each of several things, with the same results. -/
theorem Alike.mapM {as : List γ} {f f₀ : γ → CheckM α} (h : ∀ c ∈ as, Alike D Eq (f c) (f₀ c)) :
    Alike D Eq (as.mapM f) (as.mapM f₀) := by
  induction as with
  | nil => exact alike_pure rfl
  | cons c as ih =>
    rw [List.mapM_cons, List.mapM_cons]
    refine (h c List.mem_cons_self).bind_eq fun a => ?_
    refine (ih fun c' hc' => h c' (List.mem_cons_of_mem c hc')).bind_eq fun rest => ?_
    exact alike_pure rfl

theorem Alike.foldlM {as : List γ} {R : α → α → Prop} {f f₀ : α → γ → CheckM α}
    (h : ∀ a a₀, R a a₀ → ∀ c ∈ as, Alike D R (f a c) (f₀ a₀ c)) {a a₀ : α} (ha : R a a₀) :
    Alike D R (as.foldlM f a) (as.foldlM f₀ a₀) := by
  induction as generalizing a a₀ with
  | nil => exact alike_pure ha
  | cons c as ih =>
    rw [List.foldlM_cons, List.foldlM_cons]
    refine (h a a₀ ha c List.mem_cons_self).bind fun b b₀ hb => ?_
    exact ih (fun b b₀ hb c' hc' => h b b₀ hb c' (List.mem_cons_of_mem c hc')) hb

theorem Alike.forM {as : List γ} {f f₀ : γ → CheckM Unit} (h : ∀ c ∈ as, Alike D Eq (f c) (f₀ c)) :
    Alike D Eq (as.forM f) (as.forM f₀) := by
  induction as with
  | nil => exact alike_pure rfl
  | cons c as ih =>
    show Alike D Eq (f c >>= fun _ => as.forM f) (f₀ c >>= fun _ => as.forM f₀)
    refine (h c List.mem_cons_self).bind_eq fun _ => ?_
    exact ih fun c' hc' => h c' (List.mem_cons_of_mem c hc')

/-! ### Recording -/

/-- A node that has an interface keeps it. -/
theorem heldOr_alike {node : NodeId} (hnode : D node) {x y : CheckM Interface}
    (h : Alike D Eq x y) :
    Alike D Eq (do match (← get).get? node with | some held => pure held | none => x)
      (do match (← get).get? node with | some held => pure held | none => y) := by
  intro m m₀ hm
  have hget := hm node hnode
  have hrun (z : CheckM Interface) (m : InterfaceMap) :
      (do match (← get).get? node with | some held => pure held | none => z : CheckM Interface) m =
        (match m.get? node with | some held => pure held | none => z : CheckM Interface) m := rfl
  rw [hrun x m, hrun y m₀, ← hget]
  cases m.get? node with
  | some held => exact alike_pure rfl m m₀ hm
  | none => exact h m m₀ hm

section

variable {s s₀ : Setting} {node : NodeId}

theorem kindOf_bind {kind : NodeKind} (h : s.tree.kind node = .ok kind) (f : NodeKind → CheckM γ) :
    kindOf s node >>= f = f kind := liftM_bind h f

theorem record_run {m : InterfaceMap} {interface : Interface} {span : Span}
    (h : s.tree.span node = .ok span) :
    record s node interface m =
      .ok (m.record node (interface.mapError fun e => e.located span)) := by
  unfold record located
  rw [h]
  rfl

theorem extends_record {m : InterfaceMap} (hnode : D node) (interface : Interface) :
    Extends D m (m.record node interface).2 := by
  unfold InterfaceMap.record
  split
  · exact .refl m
  · exact .insert hnode _

theorem record_congr {m m₀ : InterfaceMap} (hm : AgreeOn D m m₀) (hnode : D node)
    (interface : Interface) :
    (m.record node interface).1 = (m₀.record node interface).1 ∧
      AgreeOn D (m.record node interface).2 (m₀.record node interface).2 := by
  have hget := hm node hnode
  unfold InterfaceMap.record
  cases h : m.get? node with
  | some held =>
    rw [← hget, h]
    exact ⟨rfl, hm⟩
  | none =>
    rw [← hget, h]
    exact ⟨rfl, fun x hx => InterfaceMap.get?_insert_congr hget (hm x hx)⟩

theorem record_alike (hnode : D node) {span : Span} (h : s.tree.span node = .ok span)
    (h₀ : s₀.tree.span node = .ok span) (interface : Interface) :
    Alike D Eq (record s node interface) (record s₀ node interface) := by
  intro m m₀ hm
  obtain ⟨heq, hagree⟩ := record_congr hm hnode (interface.mapError fun e => e.located span)
  exact ⟨_, _, _, _, record_run h, record_run h₀, heq, extends_record hnode _,
    extends_record hnode _, hagree⟩

end

end Check

end ReactiveDoc
