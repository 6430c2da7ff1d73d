import ReactiveDoc.Proofs.Signal.Coherence
import ReactiveDoc.Proofs.Traversal
import ReactiveDoc.Value.Payload

namespace ReactiveDoc

/-!
# Equality of contents is transitive

* `Value.same_trans` — for values.
* `Payload.same_trans` — for what signals carry.
* `Payload.near_trans` — for outcomes of signals.
* `Payload.exists_list`, `Payload.near_valueAll` — a list is equal to a list, item by item.
-/

namespace Value

/-- Fields are equal if every one is equal to that of the same key. -/
theorem sameFields_iff {fs gs : List (String × Value)} : sameFields fs gs = true ↔
    ∀ f ∈ fs, ∃ y, gs.lookup f.1 = some y ∧ f.2.same y = true := by
  induction fs with
  | nil => simp [sameFields]
  | cons f fs ih =>
    obtain ⟨key, x⟩ := f
    rw [sameFields, Bool.and_eq_true, ih, List.forall_mem_cons]
    refine and_congr_left fun _ => ?_
    cases gs.lookup key <;> simp

mutual

theorem same_trans : ∀ {a b c : Value}, a.same b = true → b.same c = true → a.same c = true
  | .array _ xs, b, c, h, h' => by
    cases b with
    | array _ ys =>
      cases c with
      | array _ zs =>
        simp only [same] at h h' ⊢
        exact sameItems_trans h h'
      | _ => simp [same] at h'
    | _ => simp [same] at h
  | .object _ fs, b, c, h, h' => by
    cases b with
    | object _ gs =>
      cases c with
      | object _ ks =>
        simp only [same, Bool.and_eq_true, beq_iff_eq] at h h' ⊢
        exact ⟨h.1.trans h'.1, sameFields_trans h.2 h'.2⟩
      | _ => simp [same] at h'
    | _ => simp [same] at h
  | .element _ t fs xs, b, c, h, h' => by
    cases b with
    | element _ u gs ys =>
      cases c with
      | element _ v ks zs =>
        simp only [same, Bool.and_eq_true, beq_iff_eq] at h h' ⊢
        obtain ⟨⟨htag, hlength, hfields⟩, hitems⟩ := h
        obtain ⟨⟨htag', hlength', hfields'⟩, hitems'⟩ := h'
        exact ⟨⟨htag.trans htag', hlength.trans hlength', sameFields_trans hfields hfields'⟩,
          sameItems_trans hitems hitems'⟩
      | _ => simp [same] at h'
    | _ => simp [same] at h
  | .number x, b, c, h, h' => by
    cases b with
    | number y =>
      cases c with
      | number z => exact Number.same_trans h h'
      | _ => simp [same] at h'
    | _ => simp [same] at h
  | .undefined, b, c, h, h' | .null, b, c, h, h' | .boolean _, b, c, h, h'
  | .string _, b, c, h, h' | .function _ _, b, c, h, h' | .signal _, b, c, h, h' => by
    cases b <;> cases c <;> simp_all [same]

theorem sameItems_trans : ∀ {xs ys zs : List Value}, sameItems xs ys = true →
    sameItems ys zs = true → sameItems xs zs = true
  | [], ys, zs, h, h' => by
    cases ys with
    | nil => exact h'
    | cons => cases h
  | x :: xs, ys, zs, h, h' => by
    cases ys with
    | nil => cases h
    | cons y ys =>
      cases zs with
      | nil => cases h'
      | cons z zs =>
        simp only [sameItems, Bool.and_eq_true] at h h' ⊢
        exact ⟨same_trans h.1 h'.1, sameItems_trans h.2 h'.2⟩

theorem sameFields_trans : ∀ {fs gs ks : List (String × Value)}, sameFields fs gs = true →
    sameFields gs ks = true → sameFields fs ks = true
  | [], _, _, _, _ => rfl
  | (key, x) :: fs, gs, ks, h, h' => by
    have hfirst := sameFields_iff.mp h (key, x) List.mem_cons_self
    obtain ⟨y, hy, hxy⟩ := hfirst
    obtain ⟨z, hz, hyz⟩ := sameFields_iff.mp h' (key, y) (mem_of_lookup hy)
    rw [sameFields, Bool.and_eq_true] at h ⊢
    rw [hz]
    exact ⟨same_trans hxy hyz, sameFields_trans h.2 h'⟩

end

end Value

namespace Payload

mutual

theorem same_trans : ∀ {p q r : Payload}, p.same q = true → q.same r = true → p.same r = true
  | .plain v, q, r, h, h' => by
    cases q with
    | plain u =>
      cases r with
      | plain t => exact Value.same_trans h h'
      | _ => simp [same] at h'
    | _ => simp [same] at h
  | .list ps, q, r, h, h' => by
    cases q with
    | list qs =>
      cases r with
      | list rs =>
        simp only [same] at h h' ⊢
        exact sameItems_trans h h'
      | _ => simp [same] at h'
    | _ => simp [same] at h
  | .attempt (.ok p), q, r, h, h' => by
    cases q with
    | attempt o =>
      cases o with
      | error e => simp [same] at h
      | ok q =>
        cases r with
        | attempt o' =>
          cases o' with
          | error e => simp [same] at h'
          | ok r =>
            simp only [same] at h h' ⊢
            exact same_trans h h'
        | _ => simp [same] at h'
    | _ => simp [same] at h
  | .attempt (.error e), q, r, h, h' => by
    cases q with
    | attempt o =>
      cases o with
      | ok q => simp [same] at h
      | error e' =>
        simp only [same, beq_iff_eq] at h
        exact h ▸ h'
    | _ => simp [same] at h

theorem sameItems_trans : ∀ {ps qs rs : List Payload}, sameItems ps qs = true →
    sameItems qs rs = true → sameItems ps rs = true
  | [], qs, rs, h, h' => by
    cases qs with
    | nil => exact h'
    | cons => cases h
  | p :: ps, qs, rs, h, h' => by
    cases qs with
    | nil => cases h
    | cons q qs =>
      cases rs with
      | nil => cases h'
      | cons r rs =>
        simp only [sameItems, Bool.and_eq_true] at h h' ⊢
        exact ⟨same_trans h.1 h'.1, sameItems_trans h.2 h'.2⟩

end

open Signal (Near)

/-- Outcomes that are not told apart from one in the middle are not told apart. -/
theorem near_trans {o o' o'' : Outcome Payload} (h : Near o o') (h' : Near o' o'') :
    Near o o'' := by
  rcases h with rfl | h
  · exact h'
  rcases h' with rfl | h'
  · exact .inr h
  right
  cases o with
  | ok p =>
    cases o' with
    | ok q =>
      cases o'' with
      | ok r => exact same_trans h h'
      | error e => cases h'
    | error e => cases h
  | error e =>
    cases o' with
    | ok q => cases h
    | error e' =>
      have heq : e = e' := eq_of_beq h
      exact heq ▸ h'

/-- What equals a list in contents is a list, item by item. -/
theorem exists_list {q : Payload} {ps : List Payload}
    (h : q = .list ps ∨ q.same (.list ps) = true) :
    ∃ qs, q = .list qs ∧ List.Forall₂ (fun p q => q = p ∨ q.same p = true) ps qs := by
  have hitems : ∀ {ps qs : List Payload}, sameItems qs ps = true →
      List.Forall₂ (fun p q => q = p ∨ q.same p = true) ps qs := by
    intro ps qs h
    induction qs generalizing ps with
    | nil =>
      cases ps with
      | nil => exact .nil
      | cons => cases h
    | cons q qs ih =>
      cases ps with
      | nil => cases h
      | cons p ps =>
        rw [sameItems, Bool.and_eq_true] at h
        exact .cons (.inr h.1) (ih h.2)
  rcases h with rfl | h
  · exact ⟨ps, rfl, List.forall₂_same.mpr fun _ _ => .inl rfl⟩
  · cases q with
    | list qs => exact ⟨qs, rfl, hitems (by simpa only [same] using h)⟩
    | plain v => simp [same] at h
    | attempt o => cases o <;> simp [same] at h

/-- What a join of signals has fails, or is a list of what the signals have. -/
theorem near_valueAll {F Φ : Type} {g : Signal.Graph Payload F Φ} {sources : List SignalId}
    {o : Outcome Payload} (h : Near o ((g.valueAll sources).map .list)) : (∃ e, o = .error e) ∨
      ∃ qs, o = .ok (.list qs) ∧
        List.Forall₂ (fun s q => Near (.ok q) (g.value s)) sources qs := by
  cases hall : g.valueAll sources with
  | error e =>
    rw [hall] at h
    exact .inl ⟨e, h.eq_error⟩
  | ok ps =>
    rw [hall] at h
    obtain ⟨q, rfl, hq⟩ := h.exists_ok
    obtain ⟨qs, rfl, hqs⟩ := exists_list hq
    have hvalues : List.Forall₂ (fun s p => g.value s = .ok p) sources ps :=
      mapM_eq_ok_iff.mp hall
    refine .inr ⟨qs, rfl, ?_⟩
    clear hall h hq
    induction hvalues generalizing qs with
    | nil =>
      cases hqs
      exact .nil
    | cons hvalue _ ih =>
      cases hqs with
      | cons hsame hqs =>
        refine .cons ?_ (ih _ hqs)
        rw [hvalue]
        exact hsame.imp (congrArg _) fun h => h

end Payload

end ReactiveDoc
