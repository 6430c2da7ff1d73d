import Mathlib
import ReactiveDoc.Document.Checking
import ReactiveDoc.Proofs.Traversal

namespace ReactiveDoc

/-!
# What the check of a document reports

An error may be recorded at several nodes, and it is reported once.  The errors are sorted by place
before repeated ones are dropped, and sorting keeps the order of the nodes where places are the
same.

* `TypeError.place` — what errors are sorted by: those without a place come first.
* `InterfaceMap.Listing` — all recorded errors, each of them once, by place and then by first node.
* `InterfaceMap.listing_errors`, `InterfaceMap.Listing.unique` — there is one such list.
* `Collector.addAll_eq` — the first errors are kept and the others are counted.
* `Compiler.check_reports` — so the report of a document loses nothing but what it counts.
-/

/-! ### Places -/

/-- Where an error is listed: without a place before everything, then by start and by end. -/
def TypeError.place (e : TypeError) : WithBot (ℕ ×ₗ ℕ) :=
  match e.span with
  | none => ⊥
  | some span => (toLex (span.start, span.stop) : ℕ ×ₗ ℕ)

theorem Span.before_iff (s t : Span) :
    s.before t = true ↔ toLex (s.start, s.stop) ≤ toLex (t.start, t.stop) := by
  simp [Span.before, Prod.Lex.toLex_le_toLex]

theorem TypeError.before_iff (a b : TypeError) : a.before b = true ↔ a.place ≤ b.place := by
  unfold TypeError.before TypeError.place
  cases a.span with
  | none => simp
  | some s =>
    cases b.span with
    | none => simp
    | some t => simpa using Span.before_iff s t

theorem TypeError.before_total (a b : TypeError) : (a.before b || b.before a) = true := by
  rw [Bool.or_eq_true, before_iff, before_iff]
  exact le_total a.place b.place

theorem TypeError.before_trans (a b c : TypeError) (hab : a.before b = true)
    (hbc : b.before c = true) : a.before c = true :=
  (before_iff a c).mpr (((before_iff a b).mp hab).trans ((before_iff b c).mp hbc))

namespace InterfaceMap

variable {es : List TypeError} {e e' : TypeError} {m : InterfaceMap}

/-! ### Errors that are found again -/

/-- The first error is there before any that equals the second one. -/
def Leads (es : List TypeError) (e e' : TypeError) : Prop :=
  ∃ earlier later, es = earlier ++ e :: later ∧ e' ∉ earlier ∧ e' ≠ e

theorem Leads.append (h : Leads es e e') (more : List TypeError) : Leads (es ++ more) e e' := by
  obtain ⟨earlier, later, rfl, hnot, hne⟩ := h
  exact ⟨earlier, later ++ more, by simp, hnot, hne⟩

theorem leads_of_not_mem (h : e ∈ es) (h' : e' ∉ es) : Leads es e e' := by
  obtain ⟨earlier, later, rfl⟩ := List.append_of_mem h
  simp only [List.mem_append, List.mem_cons, not_or] at h'
  exact ⟨earlier, later, rfl, h'.1, h'.2.1⟩

theorem distinct_concat (es : List TypeError) (e : TypeError) :
    distinct (es ++ [e]) = if e ∈ distinct es then distinct es else distinct es ++ [e] := by
  simp [distinct, List.foldl_append]

@[simp]
theorem mem_distinct : e ∈ distinct es ↔ e ∈ es := by
  induction es using List.reverseRecOn with
  | nil => simp [distinct]
  | append_singleton es a ih =>
    rw [distinct_concat]
    split
    · rename_i hmem
      rw [List.mem_append, List.mem_singleton, ih]
      refine ⟨.inl, Or.rec id ?_⟩
      rintro rfl
      exact ih.mp hmem
    · simp [ih]

theorem distinct_sublist (es : List TypeError) : (distinct es).Sublist es := by
  induction es using List.reverseRecOn with
  | nil => exact List.Sublist.refl _
  | append_singleton es a ih =>
    rw [distinct_concat]
    split
    · exact ih.trans (List.sublist_append_left es [a])
    · exact ih.append (List.Sublist.refl [a])

/-- Of equal errors the first one stays. -/
theorem pairwise_distinct (es : List TypeError) : (distinct es).Pairwise (Leads es) := by
  induction es using List.reverseRecOn with
  | nil => exact List.Pairwise.nil
  | append_singleton es a ih =>
    have ih := ih.imp fun h => h.append [a]
    rw [distinct_concat]
    split
    · exact ih
    · rename_i hmem
      refine List.pairwise_append.mpr ⟨ih, List.pairwise_singleton _ _, fun e he b hb => ?_⟩
      obtain rfl := List.mem_singleton.mp hb
      exact (leads_of_not_mem (mem_distinct.mp he) (mem_distinct.not.mp hmem)).append [b]

/-! ### Sorting -/

theorem Leads.filter {p : TypeError → Bool} (h : Leads es e e') (hp : p e = true) :
    Leads (es.filter p) e e' := by
  obtain ⟨earlier, later, rfl, hnot, hne⟩ := h
  refine ⟨earlier.filter p, later.filter p, ?_, fun hmem => hnot (List.mem_filter.mp hmem).1, hne⟩
  rw [List.filter_append, List.filter_cons_of_pos hp]

theorem Leads.of_filter {p : TypeError → Bool} (h : Leads (es.filter p) e e') (hp : p e' = true) :
    Leads es e e' := by
  obtain ⟨earlier, later, heq, hnot, hne⟩ := h
  obtain ⟨before, after, rfl, rfl, hafter⟩ := List.filter_eq_append_iff.mp heq
  obtain ⟨between, rest, rfl, hbetween, -, -⟩ := List.filter_eq_cons_iff.mp hafter
  refine ⟨before ++ between, rest, by simp, fun hmem => ?_, hne⟩
  rcases List.mem_append.mp hmem with hmem | hmem
  · exact hnot (List.mem_filter.mpr ⟨hmem, hp⟩)
  · exact hbetween e' hmem hp

/-- Errors of one place stay in their order. -/
theorem filter_mergeSort (es : List TypeError) (p : WithBot (ℕ ×ₗ ℕ)) :
    (es.mergeSort TypeError.before).filter (fun e => e.place = p) =
      es.filter fun e => e.place = p := by
  have hsorted : (es.filter fun e => e.place = p).Pairwise fun a b => a.before b = true := by
    refine List.pairwise_of_forall_mem_list fun a ha b hb => ?_
    have ha : a.place = p := of_decide_eq_true (List.mem_filter.mp ha).2
    have hb : b.place = p := of_decide_eq_true (List.mem_filter.mp hb).2
    exact (TypeError.before_iff a b).mpr (ha.trans hb.symm).le
  have hsub := (List.sublist_mergeSort TypeError.before_trans TypeError.before_total hsorted
    List.filter_sublist).filter fun e => e.place = p
  rw [List.filter_filter] at hsub
  simp only [Bool.and_self] at hsub
  exact (hsub.eq_of_length ((List.mergeSort_perm es _).filter _).length_eq.symm).symm

theorem Leads.of_mergeSort (h : Leads (es.mergeSort TypeError.before) e e')
    (hplace : e.place = e'.place) : Leads es e e' := by
  have hfilter := h.filter (p := fun a => a.place = e'.place) (decide_eq_true hplace)
  rw [filter_mergeSort] at hfilter
  exact hfilter.of_filter (decide_eq_true rfl)

/-! ### Recorded errors -/

/-- The errors of all nodes in the order of the nodes, as often as they were recorded. -/
def found (m : InterfaceMap) : List TypeError :=
  m.entries.filterMap fun (_, interface) => Interface.error? interface

theorem errors_eq (m : InterfaceMap) : m.errors = distinct (m.found.mergeSort TypeError.before) :=
  rfl

theorem mem_entries {node : NodeId} {interface : Interface} :
    (node, interface) ∈ m.entries ↔ m.get? node = some interface := by
  unfold entries get?
  simp only [List.mem_filterMap, Prod.exists, List.mem_zipIdx_iff_getElem?, Option.map_eq_some_iff,
    Prod.mk.injEq, Array.getElem?_toList, Option.join_eq_some_iff]
  constructor
  · rintro ⟨slot, node, hslot, _, rfl, rfl, rfl⟩
    exact hslot
  · exact fun h => ⟨_, _, h, _, rfl, rfl, rfl⟩

/-- The entries are in the order of the nodes. -/
theorem pairwise_entries (m : InterfaceMap) : m.entries.Pairwise fun a b => a.1 < b.1 := by
  have hzip : (m.slots.toList.zipIdx).Pairwise fun a b => a.2 < b.2 := by
    rw [← List.pairwise_map (f := Prod.snd) (R := (· < ·)), List.zipIdx_map_snd]
    exact List.pairwise_lt_range' 1
  refine List.pairwise_filterMap.mpr (hzip.imp fun {a b} hlt x hx y hy => ?_)
  obtain ⟨_, -, rfl⟩ := Option.map_eq_some_iff.mp hx
  obtain ⟨_, -, rfl⟩ := Option.map_eq_some_iff.mp hy
  exact hlt

theorem error?_eq_some_iff {interface : Interface} :
    interface.error? = some e ↔ interface = .error e := by
  cases interface <;> simp [Interface.error?]

theorem mem_found : e ∈ m.found ↔ ∃ node, m.get? node = some (.error e) := by
  simp [found, List.mem_filterMap, error?_eq_some_iff, mem_entries]

/-- The first error was recorded at a node before all nodes with the second one. -/
def FoundBefore (m : InterfaceMap) (e e' : TypeError) : Prop :=
  ∃ node, m.get? node = some (.error e) ∧ ∀ k ≤ node, m.get? k ≠ some (.error e')

theorem foundBefore_of_leads (h : Leads m.found e e') : m.FoundBefore e e' := by
  obtain ⟨earlier, later, heq, hnot, hne⟩ := h
  obtain ⟨before, after, hentries, hbefore, hafter⟩ := List.filterMap_eq_append_iff.mp heq
  obtain ⟨between, ⟨node, interface⟩, rest, rfl, hbetween, herror, -⟩ :=
    List.filterMap_eq_cons_iff.mp hafter
  obtain rfl := error?_eq_some_iff.mp herror
  refine ⟨node, mem_entries.mp (by simp [hentries]), fun k hk hget => ?_⟩
  have hpairs := m.pairwise_entries
  have hmem := mem_entries.mpr hget
  rw [hentries] at hpairs hmem
  rcases List.mem_append.mp hmem with hmem | hmem
  · exact hnot (hbefore ▸ List.mem_filterMap.mpr ⟨_, hmem, rfl⟩)
  · have hpairs := (List.pairwise_append.mp hpairs).2.1
    rcases List.mem_append.mp hmem with hmem | hmem
    · cases hbetween _ hmem
    · rcases List.mem_cons.mp hmem with heq | hmem
      · cases heq
        exact hne rfl
      · have hlt := (List.pairwise_cons.mp (List.pairwise_append.mp hpairs).2.1).1 _ hmem
        exact absurd hk (Nat.not_le.mpr hlt)

/-! ### The list of errors -/

/-- The first error is listed before the second one: its place is earlier, or the place is the same
    and it was recorded first. -/
def Precedes (m : InterfaceMap) (e e' : TypeError) : Prop :=
  e.place < e'.place ∨ e.place = e'.place ∧ m.FoundBefore e e'

/-- All recorded errors in their order, each of them once. -/
structure Listing (m : InterfaceMap) (es : List TypeError) : Prop where
  complete : ∀ e, e ∈ es ↔ ∃ node, m.get? node = some (.error e)
  ordered : es.Pairwise m.Precedes

theorem FoundBefore.asymm (h : m.FoundBefore e e') : ¬ m.FoundBefore e' e := by
  rintro ⟨node', hget', hnone'⟩
  obtain ⟨node, hget, hnone⟩ := h
  rcases le_total node node' with hle | hle
  · exact hnone' node hle hget
  · exact hnone node' hle hget'

theorem Precedes.asymm (h : m.Precedes e e') : ¬ m.Precedes e' e := by
  rcases h with hlt | ⟨heq, hfound⟩
  · rintro (hlt' | ⟨heq', -⟩)
    · exact lt_asymm hlt hlt'
    · exact hlt.ne' heq'
  · rintro (hlt' | ⟨-, hfound'⟩)
    · exact hlt'.ne' heq
    · exact hfound.asymm hfound'

namespace Listing

theorem nodup (h : m.Listing es) : es.Nodup :=
  h.ordered.imp fun hprecedes heq => (heq ▸ hprecedes).asymm (heq ▸ hprecedes)

/-- Completeness and order leave no choice. -/
theorem unique {es' : List TypeError} (h : m.Listing es) (h' : m.Listing es') : es = es' := by
  have hperm := (List.perm_ext_iff_of_nodup h.nodup h'.nodup).mpr fun e =>
    (h.complete e).trans (h'.complete e).symm
  exact hperm.eq_of_pairwise (fun _ _ _ _ hab hba => absurd hba hab.asymm) h.ordered h'.ordered

theorem eq_nil_iff (h : m.Listing es) : es = [] ↔ ¬ ∃ node e, m.get? node = some (.error e) := by
  rw [List.eq_nil_iff_forall_not_mem, exists_comm, not_exists]
  exact forall_congr' fun e => (h.complete e).not

end Listing

theorem listing_errors (m : InterfaceMap) : m.Listing m.errors := by
  rw [errors_eq]
  refine ⟨fun e => ?_, ?_⟩
  · rw [mem_distinct, List.mem_mergeSort, mem_found]
  · have hsorted : (m.found.mergeSort TypeError.before).Pairwise fun a b => a.before b = true :=
      List.pairwise_mergeSort TypeError.before_trans TypeError.before_total _
    refine ((hsorted.sublist (distinct_sublist _)).and (pairwise_distinct _)).imp ?_
    rintro e e' ⟨hbefore, hleads⟩
    rcases ((TypeError.before_iff e e').mp hbefore).lt_or_eq with hlt | heq
    · exact .inl hlt
    · exact .inr ⟨heq, foundBefore_of_leads (hleads.of_mergeSort heq)⟩

end InterfaceMap

/-! ### The limit -/

theorem Collector.addAll_eq (c : Collector) (es : List TypeError) :
    c.addAll es = { c with
      errors := c.errors ++ es.take (c.limit - c.errors.length)
      dropped := c.dropped + (es.length - (c.limit - c.errors.length)) } := by
  induction es generalizing c with
  | nil => simp [addAll]
  | cons e es ih =>
    rw [addAll, List.foldl_cons, ← addAll, ih, add]
    split
    · rename_i hroom
      obtain ⟨room, hroom⟩ := Nat.exists_eq_add_of_lt hroom
      have hleft : c.limit - c.errors.length = room + 1 := by omega
      have hleft' : c.limit - (c.errors.length + 1) = room := by omega
      simp [hleft, hleft']
    · rename_i hfull
      have hleft : c.limit - c.errors.length = 0 := by omega
      simp [hleft]
      omega

namespace Compiler

variable {c : Compiler} {d : Document} {checked : CheckedDocument}
  {cache? cache?' : Option FragmentCache}

/-- What is reported are the recorded errors. -/
theorem diagnostics_of_check (h : c.check d cache? = .ok (checked, cache?')) :
    checked.errors = (diagnostics c.config checked.interfaces).errors ∧
      checked.dropped = (diagnostics c.config checked.interfaces).dropped := by
  obtain ⟨groups, -, h⟩ := Except.bind_eq_ok_iff.mp h
  obtain ⟨⟨⟨env, cache?''⟩, m⟩, -, h⟩ := Except.bind_eq_ok_iff.mp h
  obtain ⟨exports, -, h⟩ := Except.bind_eq_ok_iff.mp h
  cases h
  exact ⟨rfl, rfl⟩

theorem diagnostics_eq {config : CheckConfig} (h : config.suggestions = true) (m : InterfaceMap) :
    diagnostics config m = {
      limit := config.maxErrors
      errors := m.errors.take config.maxErrors
      dropped := m.errors.length - config.maxErrors } := by
  simp [diagnostics, Collector.addAll_eq, h]

/-- No list of errors is cut to nothing without a count of what was left out. -/
theorem hasErrors_iff {es : List TypeError} {limit : Nat} (herrors : checked.errors = es.take limit)
    (hdropped : checked.dropped = es.length - limit) : checked.hasErrors = true ↔ es ≠ [] := by
  unfold CheckedDocument.hasErrors
  rw [herrors, hdropped]
  cases es with
  | nil => simp
  | cons e es =>
    cases limit with
    | zero => simp
    | succ limit => simp

/-- There is one list of all recorded errors in their order.  As many of them as the limit admits
    are reported, the others are counted, and a document has errors if and only if some node has. -/
theorem check_reports (h : c.check d cache? = .ok (checked, cache?'))
    (hsuggestions : c.config.suggestions = true) :
    (∃ es, checked.interfaces.Listing es ∧ (∀ es', checked.interfaces.Listing es' → es' = es) ∧
      checked.errors = es.take c.config.maxErrors ∧
      checked.dropped = es.length - c.config.maxErrors) ∧
    (checked.hasErrors = true ↔ ∃ node e, checked.interfaces.get? node = some (.error e)) := by
  obtain ⟨herrors, hdropped⟩ := diagnostics_of_check h
  rw [diagnostics_eq hsuggestions] at herrors hdropped
  have hlisting := checked.interfaces.listing_errors
  refine ⟨⟨_, hlisting, fun es' h' => h'.unique hlisting, herrors, hdropped⟩, ?_⟩
  rw [hasErrors_iff herrors hdropped, Ne, hlisting.eq_nil_iff, not_not]

/-- `x + y`, where neither name is bound. -/
def unboundSum : Document where
  tree := ⟨#[⟨⟨4, 5⟩, .identifier "y"⟩, ⟨⟨0, 1⟩, .identifier "x"⟩, ⟨⟨0, 5⟩, .binary .add 1 0⟩]⟩
  fragments := [2]

/-- The sum has the error of `x`.  With room for one error that of `y` is only counted. -/
theorem check_reports_unboundSum : ∃ checked,
    ({ config := { maxErrors := 1 } } : Compiler).check unboundSum none = .ok (checked, none) ∧
    (checked.interfaces.get? 1).isSome ∧ checked.interfaces.get? 1 = checked.interfaces.get? 2 ∧
    checked.errors = [{ kind := .unboundIdentifier "x", span := some ⟨0, 1⟩ }] ∧
    checked.dropped = 1 ∧ ∃ es, checked.interfaces.Listing es ∧ checked.errors = es.take 1 := by
  obtain ⟨checked, hcheck, hsum⟩ : ∃ checked,
      ({ config := { maxErrors := 1 } } : Compiler).check unboundSum none = .ok (checked, none) ∧
      (checked.interfaces.get? 1).isSome ∧ checked.interfaces.get? 1 = checked.interfaces.get? 2 ∧
      checked.errors = [{ kind := .unboundIdentifier "x", span := some ⟨0, 1⟩ }] ∧
      checked.dropped = 1 :=
    ⟨_, show _ = Except.ok (_, none) by cbv, by cbv, by cbv, by cbv, by cbv⟩
  obtain ⟨⟨es, hlisting, -, herrors, -⟩, -⟩ := check_reports hcheck rfl
  exact ⟨checked, hcheck, hsum.1, hsum.2.1, hsum.2.2.1, hsum.2.2.2, es, hlisting, herrors⟩

end Compiler

end ReactiveDoc
