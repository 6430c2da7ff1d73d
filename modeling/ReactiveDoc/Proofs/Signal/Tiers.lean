import ReactiveDoc.Proofs.Signal.Keeping

namespace ReactiveDoc.Signal

/-!
# How far signals may be used

While bindings that use each other are evaluated, their names stand for references without a
target.  Such a reference must not be read yet, and a function that would read it must not be
called yet.

* `Tier`, `Stage` — how far a signal may be used; the tiers of all signals of a graph.
* `Discipline` — what signals may carry at each tier, and which failures may occur.
* `Graph.Obeys` — every signal keeps to its tier: it comes from signals that may be used so far, and
  so do its functions and its outcome.
* `Graph.Obeys.value` — what is read then may be used as far as the signal.
* `Graph.Obeys.create`, `Graph.Obeys.reference`, `Graph.Obeys.resolve` — one more signal, or one
  more reference; a reference is given its target.
-/

/-- How far a signal that is no waiting reference may be used. -/
inductive Tier where
  /-- The signal may be read, and functions in its value may be called. -/
  | ready
  /-- The signal may be read, but functions in its value may not be called yet. -/
  | idle
  deriving DecidableEq

/-- What may be used as far as the first tier says may be used as far as the second one says. -/
def Tier.Suffices (own t : Tier) : Prop := own = .ready ∨ t = .idle

theorem Tier.suffices_refl (t : Tier) : t.Suffices t := by
  cases t with
  | ready => exact .inl rfl
  | idle => exact .inr rfl

theorem Tier.Suffices.trans {a b c : Tier} (h : a.Suffices b) (h' : b.Suffices c) :
    a.Suffices c := by
  rcases h with rfl | rfl
  · exact .inl rfl
  · rcases h' with h' | rfl
    · cases h'
    · exact .inr rfl

/-- The tier of each signal of a graph.  A reference that waits for its target has none. -/
abbrev Stage := List (Option Tier)

namespace Stage

/-- A signal may be used as far as the tier says. -/
def Readable (s : Stage) (t : Tier) (id : SignalId) : Prop :=
  ∃ own : Tier, s[id]? = some (some own) ∧ own.Suffices t

/-- There is such a signal. -/
def Known (s : Stage) (id : SignalId) : Prop := id < s.length

/-- Nothing is less known or less readable at the second stage than at the first one. -/
structure Before (s s' : Stage) : Prop where
  known : s.length ≤ s'.length
  readable : ∀ t id, s.Readable t id → s'.Readable t id

variable {s s' s'' : Stage} {t t' : Tier} {id : SignalId}

theorem Before.trans (h : s.Before s') (h' : s'.Before s'') : s.Before s'' :=
  ⟨h.known.trans h'.known, fun t id hid => h'.readable t id (h.readable t id hid)⟩

theorem Readable.known (h : s.Readable t id) : s.Known id := by
  obtain ⟨_, hget, _⟩ := h
  exact (List.getElem?_eq_some_iff.mp hget).1

theorem Readable.mono (h : s.Readable t id) (ht : t.Suffices t') : s.Readable t' id := by
  obtain ⟨own, hget, hown⟩ := h
  exact ⟨own, hget, hown.trans ht⟩

theorem Readable.idle (h : s.Readable t id) : s.Readable .idle id := h.mono (.inr rfl)

theorem readable_own (h : s[id]? = some (some t)) : s.Readable t id := ⟨t, h, t.suffices_refl⟩

/-- More signals make none of the others less readable. -/
theorem before_append (s more : Stage) : s.Before (s ++ more) := by
  refine ⟨by simp, ?_⟩
  rintro t id ⟨own, hget, hown⟩
  refine ⟨own, ?_, hown⟩
  rw [List.getElem?_append_left (List.getElem?_eq_some_iff.mp hget).1]
  exact hget

/-- At the second stage there may be more signals than at the first one, each of some tier. -/
def Grows (s s' : Stage) : Prop := ∃ more : List Tier, s' = s ++ more.map some

theorem Grows.refl (s : Stage) : s.Grows s := ⟨[], (List.append_nil s).symm⟩

theorem Grows.trans (h : s.Grows s') (h' : s'.Grows s'') : s.Grows s'' := by
  obtain ⟨more, rfl⟩ := h
  obtain ⟨more', rfl⟩ := h'
  exact ⟨more ++ more', by simp⟩

theorem grows_append (s : Stage) (t : Tier) : s.Grows (s ++ [some t]) := ⟨[t], rfl⟩

theorem Grows.before (h : s.Grows s') : s.Before s' := by
  obtain ⟨more, rfl⟩ := h
  exact s.before_append _

theorem Grows.getElem? (h : s.Grows s') {own? : Option Tier} (hget : s[id]? = some own?) :
    s'[id]? = some own? := by
  obtain ⟨more, rfl⟩ := h
  rw [List.getElem?_append_left (List.getElem?_eq_some_iff.mp hget).1]
  exact hget

theorem Readable.later (h : s.Readable t id) (hs : s.Grows s') : s'.Readable t id :=
  hs.before.readable t id h

/-- A reference that is given its target becomes readable. -/
theorem before_set (id : SignalId) (h : s[id]? = some none) : s.Before (s.set id (some t)) := by
  refine ⟨by simp, ?_⟩
  rintro t' id' ⟨own, hget, hown⟩
  refine ⟨own, ?_, hown⟩
  rw [List.getElem?_set_ne]
  · exact hget
  · rintro rfl
    rw [h] at hget
    cases hget

end Stage

variable {P F Φ σ α β : Type}

/-! ### Disciplines -/

/-- What signals may carry at each tier, what their functions may be, and which failures may
    occur. -/
structure Discipline (P F Φ : Type) [Carrier P] where
  payload : Stage → Tier → P → Prop
  step : Stage → Tier → F → Prop
  choice : Stage → Tier → Φ → Prop
  failure : SignalError → Prop
  payload_mono : ∀ {s s' t p}, s.Before s' → payload s t p → payload s' t p
  step_mono : ∀ {s s' t f}, s.Before s' → step s t f → step s' t f
  choice_mono : ∀ {s s' t c}, s.Before s' → choice s t c → choice s' t c
  payload_idle : ∀ {s p}, payload s .ready p → payload s .idle p
  ofList : ∀ {s t ps}, (∀ p ∈ ps, payload s t p) → payload s t (Carrier.ofList ps)
  ofOutcome : ∀ {s t} (o : Outcome P), payload s t (Carrier.ofOutcome o)
  unreconciled : failure .unreconciled
  readOnly : ∀ kind, failure (.readOnly kind)

namespace Discipline

variable [Carrier P] (D : Discipline P F Φ)

/-- The outcome may be had at a tier. -/
def Allows (s : Stage) (t : Tier) : Outcome P → Prop
  | .ok p => D.payload s t p
  | .error e => D.failure e

/-- The outcome of several signals may be had at a tier. -/
def AllowsAll (s : Stage) (t : Tier) : Outcome (List P) → Prop
  | .ok ps => ∀ p ∈ ps, D.payload s t p
  | .error e => D.failure e

/-- The steps lead from what a signal of one tier carries to what one of the other may carry. -/
inductive Chain (s : Stage) : Tier → List F → Tier → Prop
  | nil {own t : Tier} (h : own.Suffices t) : Chain s own [] t
  | cons {own mid t : Tier} {f : F} {fs : List F} (h : own.Suffices mid) (hf : D.step s mid f)
      (hfs : Chain s mid fs t) : Chain s own (f :: fs) t

variable {D} {s s' : Stage} {own mid t : Tier} {o : Outcome P}

theorem payload_of_suffices {p : P} (h : D.payload s own p) (ht : own.Suffices t) :
    D.payload s t p := by
  rcases ht with rfl | rfl
  · cases t with
    | ready => exact h
    | idle => exact D.payload_idle h
  · cases own with
    | ready => exact D.payload_idle h
    | idle => exact h

theorem Allows.mono (h : D.Allows s own o) (ht : own.Suffices t) : D.Allows s t o := by
  cases o with
  | ok p => exact payload_of_suffices h ht
  | error e => exact h

theorem Allows.later (h : D.Allows s t o) (hs : s.Before s') : D.Allows s' t o := by
  cases o with
  | ok p => exact D.payload_mono hs h
  | error e => exact h

theorem Chain.later {fs : List F} (h : D.Chain s own fs t) (hs : s.Before s') :
    D.Chain s' own fs t := by
  induction h with
  | nil h => exact .nil h
  | cons h hf _ ih => exact .cons h (D.step_mono hs hf) ih

theorem Chain.suffices {fs : List F} (h : D.Chain s own fs t) : own.Suffices t := by
  induction h with
  | nil h => exact h
  | cons h _ _ ih => exact h.trans ih

/-- A step may follow at the tier that is reached, or at a lesser one. -/
theorem Chain.append {fs : List F} {f : F} (h : D.Chain s own fs mid) (hmid : mid.Suffices t)
    (hf : D.step s t f) : D.Chain s own (fs ++ [f]) t := by
  induction h with
  | nil h => exact .cons (h.trans hmid) hf (.nil t.suffices_refl)
  | cons h hf' _ ih => exact .cons h hf' (ih hmid)

end Discipline

variable [Carrier P] {D : Discipline P F Φ}

/-! ### Obedient signals -/

/-- A signal of a tier comes from signals of this tier, and so do its functions and its outcome. -/
structure Node.Obeys (D : Discipline P F Φ) (s : Stage) (t : Tier) (n : Node P F Φ) : Prop where
  upstream : ∀ id ∈ n.form.upstream, s.Readable t id
  /-- A waiting reference is read only where that failure may occur. -/
  target : n.form = .reference none → D.failure .unresolvedRef
  steps : ∀ source steps role, n.form = .map source steps role →
    ∃ own, s.Readable own source ∧ D.Chain s own steps t
  choice : ∀ source choice, n.form = .flatMap source choice → D.choice s t choice
  outcome : ∀ o, n.memo.outcome? = some o → D.Allows s t o
  inner : ∀ inner, n.inner? = some inner → s.Readable t inner.signal

namespace Node.Obeys

variable {s s' : Stage} {t : Tier} {n n' : Node P F Φ}

theorem later (h : n.Obeys D s t) (hs : s.Before s') : n.Obeys D s' t where
  upstream id hid := hs.readable t id (h.upstream id hid)
  target := h.target
  steps source steps role hform := by
    obtain ⟨own, hsource, hchain⟩ := h.steps source steps role hform
    exact ⟨own, hs.readable own source hsource, hchain.later hs⟩
  choice source choice hform := D.choice_mono hs (h.choice source choice hform)
  outcome o ho := (h.outcome o ho).later hs
  inner inner hinner := hs.readable t _ (h.inner inner hinner)

/-- Only the form, the outcome and the signal that is followed matter. -/
theorem congr (h : n.Obeys D s t) (hform : n'.form = n.form)
    (houtcome : n'.memo.outcome? = n.memo.outcome?) (hinner : n'.inner? = n.inner?) :
    n'.Obeys D s t where
  upstream := by rw [hform]; exact h.upstream
  target := by rw [hform]; exact h.target
  steps := by rw [hform]; exact h.steps
  choice := by rw [hform]; exact h.choice
  outcome := by rw [houtcome]; exact h.outcome
  inner := by rw [hinner]; exact h.inner

theorem store (h : n.Obeys D s t) {o : Outcome P} (ho : D.Allows s t o) :
    ({ n with memo := n.memo.store o } : Node P F Φ).Obeys D s t := by
  refine { h with outcome := fun o' ho' => ?_ }
  have hcases : (n.memo.store o).outcome? = n.memo.outcome? ∨
      (n.memo.store o).outcome? = some o := by
    cases hholds : n.memo.holds o with
    | true => exact .inl (by rw [Memo.store_of_holds hholds])
    | false => exact .inr (by rw [Memo.store_of_not_holds hholds])
  rcases hcases with hsame | hnew
  · exact h.outcome o' (hsame ▸ ho')
  · rw [hnew] at ho'
    cases ho'
    exact ho

theorem follow (h : n.Obeys D s t) {inner? : Option Inner}
    (hinner : ∀ inner, inner? = some inner → s.Readable t inner.signal) :
    ({ n with inner? } : Node P F Φ).Obeys D s t :=
  { h with inner := hinner }

/-- What was never computed reads as that, and everything else as it was computed. -/
theorem read (h : n.Obeys D s t) : D.Allows s t n.memo.read := by
  unfold Memo.read
  cases houtcome : n.memo.outcome? with
  | none => exact D.unreconciled
  | some o => exact h.outcome o houtcome

end Node.Obeys

/-- Every signal keeps to its tier, and what has no tier is a reference without a target. -/
structure Graph.Obeys (D : Discipline P F Φ) (s : Stage) (g : Graph P F Φ) : Prop where
  size : s.length = g.size
  node : ∀ id t, s[id]? = some (some t) → (g.node id).Obeys D s t
  waiting : ∀ id, s[id]? = some none → (g.node id).form = .reference none

namespace Graph.Obeys

variable {s : Stage} {t : Tier} {g : Graph P F Φ} {id : SignalId}

/-- One signal changes, but not its form. -/
theorem modify (h : g.Obeys D s) (id : SignalId) {f : Node P F Φ → Node P F Φ}
    (hform : ∀ n, (f n).form = n.form)
    (hf : ∀ t, s[id]? = some (some t) → ∀ n, n.Obeys D s t → (f n).Obeys D s t) :
    (g.modify id f).Obeys D s := by
  refine ⟨by rw [size_modify]; exact h.size, fun j t hj => ?_, fun j hj => ?_⟩
  · refine g.node_modify_induction (C := fun j n => s[j]? = some (some t) → n.Obeys D s t)
      (fun _ hid => hf t hid _ (h.node id t hid)) j (h.node j t) hj
  · refine g.node_modify_induction (C := fun j n => s[j]? = some none → n.form = .reference none)
      (fun _ hid => ?_) j (h.waiting j) hj
    rw [hform]
    exact h.waiting id hid

/-- One signal changes, but nothing of it that matters. -/
theorem modify_same (h : g.Obeys D s) (id : SignalId) {f : Node P F Φ → Node P F Φ}
    (hform : ∀ n, (f n).form = n.form)
    (houtcome : ∀ n, (f n).memo.outcome? = n.memo.outcome?)
    (hinner : ∀ n, (f n).inner? = n.inner?) : (g.modify id f).Obeys D s :=
  h.modify id hform fun _ _ n hn => hn.congr (hform n) (houtcome n) (hinner n)

theorem depend (h : g.Obeys D s) (id : SignalId) (d : Dependent) : (g.depend id d).Obeys D s := by
  refine h.modify_same _ ?_ ?_ ?_
  all_goals
    intro n
    split <;> rfl

theorem undepend (h : g.Obeys D s) (id : SignalId) (d : Dependent) :
    (g.undepend id d).Obeys D s :=
  h.modify_same _ (fun _ => rfl) (fun _ => rfl) fun _ => rfl

/-- Telling dependents marks them, and changes nothing else. -/
theorem notifyAll (h : g.Obeys D s) (ds : List Dependent) : (g.notifyAll ds).Obeys D s := by
  have hsame : ∀ j, (g.notifyAll ds).node j = g.node j ∨
      (g.notifyAll ds).node j = (g.node j).marked := by
    intro j
    by_cases htold : g.Told ds j
    · by_cases hj : j < g.size
      · exact .inr ((g.node_notifyAll ds j).1 htold hj)
      · left
        rw [Graph.node_of_size_le _ (by rw [g.size_notifyAll]; exact Nat.le_of_not_lt hj),
          g.node_of_size_le (Nat.le_of_not_lt hj)]
    · exact .inl ((g.node_notifyAll ds j).2 htold)
  refine ⟨by rw [size_notifyAll]; exact h.size, fun j t hj => ?_, fun j hj => ?_⟩
  · rcases hsame j with heq | heq
    · rw [heq]
      exact h.node j t hj
    · rw [heq]
      exact (h.node j t hj).congr rfl rfl rfl
  · rcases hsame j with heq | heq
    · rw [heq]
      exact h.waiting j hj
    · rw [heq, Node.marked_form]
      exact h.waiting j hj

theorem notify (h : g.Obeys D s) (id : SignalId) : (g.notify id).Obeys D s := by
  show ((g.modify (g.anchor id) fun n => { n with dependents := [] }).notifyAll _).Obeys D s
  refine Obeys.notifyAll ?_ _
  exact h.modify_same _ (fun _ => rfl) (fun _ => rfl) fun _ => rfl

/-! ### Reading -/

theorem anchorWithin (h : g.Obeys D s) (fuel : Nat) {id : SignalId} (hid : s.Readable t id) :
    s.Readable t (g.anchorWithin fuel id) := by
  induction fuel generalizing id with
  | zero => exact hid
  | succ fuel ih =>
    rw [Graph.anchorWithin]
    cases htarget : (g.node id).form.target? with
    | none => exact hid
    | some target =>
      obtain ⟨own, hget, hown⟩ := hid
      have hmem := Form.mem_upstream_of_target? htarget
      exact ih (((h.node id own hget).upstream target hmem).mono hown)

/-- A signal stands for one that may be used as far. -/
theorem anchor (h : g.Obeys D s) (hid : s.Readable t id) : s.Readable t (g.anchor id) :=
  h.anchorWithin _ hid

theorem value (h : g.Obeys D s) (hid : s.Readable t id) : D.Allows s t (g.value id) := by
  obtain ⟨own, hget, hown⟩ := h.anchor hid
  exact (h.node _ own hget).read.mono hown

theorem valueAll (h : g.Obeys D s) {sources : List SignalId}
    (hsources : ∀ id ∈ sources, s.Readable t id) : D.AllowsAll s t (g.valueAll sources) := by
  unfold Graph.valueAll
  induction sources with
  | nil => exact fun p hp => nomatch hp
  | cons source sources ih =>
    have hvalue := h.value (hsources source List.mem_cons_self)
    have hrest := ih fun id hid => hsources id (List.mem_cons_of_mem _ hid)
    rw [List.mapM_cons]
    cases hfirst : g.value source with
    | error e =>
      rw [hfirst] at hvalue
      exact hvalue
    | ok p =>
      rw [hfirst] at hvalue
      cases hmore : sources.mapM g.value with
      | error e =>
        rw [hmore] at hrest
        exact hrest
      | ok ps =>
        rw [hmore] at hrest
        exact List.forall_mem_cons.mpr ⟨hvalue, hrest⟩

/-- What is remembered of joined signals. -/
theorem ofList (h : g.Obeys D s) {sources : List SignalId}
    (hsources : ∀ id ∈ sources, s.Readable t id) :
    D.Allows s t ((g.valueAll sources).map Carrier.ofList) := by
  have hall := h.valueAll hsources
  cases hvalues : g.valueAll sources with
  | ok ps =>
    rw [hvalues] at hall
    exact D.ofList hall
  | error e =>
    rw [hvalues] at hall
    exact hall

/-! ### More signals -/

/-- One more signal, which keeps to its tier, or waits for its target if it has none. -/
theorem add (h : g.Obeys D s) {n : Node P F Φ} {own? : Option Tier}
    (hn : ∀ t, own? = some t → n.Obeys D (s ++ [own?]) t)
    (hwaiting : own? = none → n.form = .reference none) :
    (g.add n).2.Obeys D (s ++ [own?]) := by
  have hs := s.before_append [own?]
  have hcases : ∀ {j other?}, (s ++ [own?])[j]? = some other? →
      j = g.size ∧ other? = own? ∨ j ≠ g.size ∧ s[j]? = some other? := by
    intro j other? hj
    rw [← h.size]
    by_cases heq : j = s.length
    · rw [heq, List.getElem?_concat_length] at hj
      cases hj
      exact .inl ⟨heq, rfl⟩
    · have hlt := (List.getElem?_eq_some_iff.mp hj).1
      rw [List.length_append, List.length_singleton] at hlt
      rw [List.getElem?_append_left (Nat.lt_of_le_of_ne (Nat.le_of_lt_succ hlt) heq)] at hj
      exact .inr ⟨heq, hj⟩
  refine ⟨by rw [size_add, List.length_append, h.size]; rfl, fun j t hj => ?_, fun j hj => ?_⟩
  · rw [node_add]
    rcases hcases hj with ⟨rfl, ht⟩ | ⟨hne, hj⟩
    · rw [if_pos rfl]
      exact hn t ht.symm
    · rw [if_neg hne]
      exact (h.node j t hj).later hs
  · rw [node_add]
    rcases hcases hj with ⟨rfl, ht⟩ | ⟨hne, hj⟩
    · rw [if_pos rfl]
      exact hwaiting ht.symm
    · rw [if_neg hne]
      exact h.waiting j hj

/-- One more reference that waits for its target. -/
theorem reference (h : g.Obeys D s) : g.reference.2.Obeys D (s ++ [none]) :=
  h.add (n := Graph.unresolved) (fun _ ht => nomatch ht) fun _ => rfl

/-- A waiting reference is given its target. -/
theorem resolve (h : g.Obeys D s) {id target : SignalId} {g' : Graph P F Φ}
    (hid : s[id]? = some none) (htarget : s.Readable .idle target)
    (hresolve : g.resolve id target = .ok g') : g'.Obeys D (s.set id (some .idle)) := by
  have hs := Stage.before_set (t := .idle) id hid
  have hnode : ({ form := .reference (some target) } : Node P F Φ).Obeys D
      (s.set id (some .idle)) .idle := by
    refine ⟨fun source hsource => ?_, nofun, nofun, nofun, nofun, nofun⟩
    rw [List.mem_singleton.mp hsource]
    exact hs.readable .idle target htarget
  unfold Graph.resolve at hresolve
  rw [h.waiting id hid] at hresolve
  cases hresolve
  have hlt : id < g.size := by
    rw [← h.size]
    exact (List.getElem?_eq_some_iff.mp hid).1
  have hmodified : (g.modify id fun _ => { form := .reference (some target) }).Obeys D
      (s.set id (some .idle)) := by
    refine ⟨by rw [List.length_set, size_modify]; exact h.size, fun j t hj => ?_, fun j hj => ?_⟩
    · by_cases heq : j = id
      · rw [heq, List.getElem?_set_self (h.size ▸ hlt)] at hj
        cases hj
        rw [heq, node_modify_self g _ hlt]
        exact hnode
      · rw [List.getElem?_set_ne (Ne.symm heq)] at hj
        rw [node_modify_of_ne g _ heq]
        exact (h.node j t hj).later hs
    · by_cases heq : j = id
      · rw [heq, List.getElem?_set_self (h.size ▸ hlt)] at hj
        cases hj
      · rw [List.getElem?_set_ne (Ne.symm heq)] at hj
        rw [node_modify_of_ne g _ heq]
        exact h.waiting j hj
  exact hmodified.notifyAll _

end Graph.Obeys

/-! ### Creations -/

/-- The new signal comes from signals of its tier, and so do its functions and its outcome.  New
    references wait for their targets, and have no tier. -/
def Creation.Obeys (D : Discipline P F Φ) (s : Stage) (t : Tier) : Creation P F Φ → Prop
  | constant o | cell o => D.Allows s t o
  | map source f _ | mapFused source f | mapWritable source f _ => s.Readable t source ∧ D.step s t f
  | lift source | label source _ => s.Readable t source
  | join sources => ∀ source ∈ sources, s.Readable t source
  | flatMap source choice => s.Readable t source ∧ D.choice s t choice
  | reference => False

/-- A signal that was never computed. -/
theorem Node.obeys_new {s : Stage} {t : Tier} {form : Form F Φ}
    (hupstream : ∀ id ∈ form.upstream, s.Readable t id) (htarget : form ≠ .reference none)
    (hsteps : ∀ source steps role, form = .map source steps role →
      ∃ own, s.Readable own source ∧ D.Chain s own steps t)
    (hchoice : ∀ source choice, form = .flatMap source choice → D.choice s t choice) :
    ({ form } : Node P F Φ).Obeys D s t :=
  ⟨hupstream, fun h => absurd h htarget, hsteps, hchoice, nofun, nofun⟩

/-- Then the new signal keeps to the tier, if all others keep to theirs. -/
theorem Creation.Obeys.node {s : Stage} {t : Tier} {g : Graph P F Φ} {c : Creation P F Φ}
    (hc : c.Obeys D s t) (hg : g.Obeys D s) :
    ({ form := c.form g, memo := c.memo } : Node P F Φ).Obeys D s t := by
  have hone : ∀ {source : SignalId} {f : F} {role : MapRole F}, s.Readable t source →
      D.step s t f → ({ form := .map source [f] role } : Node P F Φ).Obeys D s t := by
    intro source f role hsource hf
    refine Node.obeys_new (fun id hid => ?_) (by simp) ?_ (by simp)
    · rw [List.mem_singleton.mp hid]
      exact hsource
    · rintro _ _ _ ⟨⟩
      exact ⟨t, hsource, .cons t.suffices_refl hf (.nil t.suffices_refl)⟩
  have hgiven : ∀ {form : Form F Φ} {o : Outcome P}, form = .constant ∨ form = .cell →
      D.Allows s t o → ({ form, memo := .given o } : Node P F Φ).Obeys D s t := by
    rintro _ o (rfl | rfl) ho
    all_goals
      refine ⟨by simp [Form.upstream], by simp, by simp, by simp, ?_, by simp⟩
      rintro _ ⟨⟩
      exact ho
  have hplain : ∀ {form : Form F Φ}, (∀ id ∈ form.upstream, s.Readable t id) →
      form ≠ .reference none → (∀ source steps role, form ≠ .map source steps role) →
      (∀ source choice, form ≠ .flatMap source choice) →
      ({ form } : Node P F Φ).Obeys D s t := fun hupstream htarget hmap hchoice =>
    Node.obeys_new hupstream htarget (fun _ _ _ h => absurd h (hmap _ _ _))
      fun _ _ h => absurd h (hchoice _ _)
  cases c with
  | constant o => exact hgiven (.inl rfl) hc
  | cell o => exact hgiven (.inr rfl) hc
  | map source f uniform => exact hone hc.1 hc.2
  | mapWritable source f inverse => exact hone hc.1 hc.2
  | mapFused source f =>
    simp only [Creation.form]
    split
    · rename_i origin steps hsource
      -- The steps of the map that it is fused with come first.
      obtain ⟨own, hget, hown⟩ := hc.1
      obtain ⟨first, horigin, hchain⟩ := (hg.node source own hget).steps _ _ _ hsource
      refine Node.obeys_new (fun id hid => ?_) (by simp) ?_ (by simp)
      · rw [List.mem_singleton.mp hid]
        exact horigin.mono (hchain.suffices.trans hown)
      · rintro _ _ _ ⟨⟩
        exact ⟨first, horigin, hchain.append hown hc.2⟩
    · exact hone hc.1 hc.2
  | lift source =>
    refine hplain (fun id hid => ?_) (by simp [form]) (by simp [form]) (by simp [form])
    rw [List.mem_singleton.mp hid]
    exact hc
  | label source name =>
    refine hplain (fun id hid => ?_) (by simp [form]) (by simp [form]) (by simp [form])
    rw [List.mem_singleton.mp hid]
    exact hc
  | join sources => exact hplain hc (by simp [form]) (by simp [form]) (by simp [form])
  | flatMap source choice =>
    refine Node.obeys_new (fun id hid => ?_) (by simp [form]) (by simp [form]) ?_
    · rw [List.mem_singleton.mp hid]
      exact hc.1
    · rintro _ _ ⟨⟩
      exact hc.2
  | reference => exact hc.elim

/-- One more signal of a tier. -/
theorem Graph.Obeys.create {s : Stage} {t : Tier} {g : Graph P F Φ} (h : g.Obeys D s)
    {c : Creation P F Φ} (hc : c.Obeys D s t) : (c.apply g).2.Obeys D (s ++ [some t]) := by
  rw [c.apply_eq g]
  refine h.add ?_ nofun
  rintro _ ⟨⟩
  exact (hc.node h).later (s.before_append [some t])

end ReactiveDoc.Signal
