import ReactiveDoc.Proofs.Eval.Quiet
import ReactiveDoc.Proofs.Signal.Request
import ReactiveDoc.Proofs.Value.Sameness

namespace ReactiveDoc.Eval

/-!
# Graphs of pure functions

The signals that evaluation makes from cells, maps and joins, where what is put together does
nothing but make a value.

* `Similarity` — values that the functions of signals do not tell apart.
* `Combines`, `Step.Pure` — pure functions of maps.
* `composed` — the behaviour of graphs of such functions, without flat maps.
* `reconciles_rules` — the operations of evaluation bring their signals up to date.
* `requested_sound` — later requests keep the graph sound.
-/

open Signal (Graph World Behaviour Good Near Requested Reconciles good_ok good_error)

variable {σ : Type}

/-! ### Similar values -/

/-- Values that the functions of signals do not tell apart.  They are equal in contents; what is
    similar to itself may be carried. -/
structure Similarity where
  like : Payload → Payload → Prop
  same : ∀ {p q}, like p q → p.same q = true
  list : ∀ {ps}, (∀ p ∈ ps, like p p) → like (.list ps) (.list ps)
  attempt : ∀ {o : Outcome Payload}, Good (fun p => like p p) o → like (.attempt o) (.attempt o)

/-- Outcomes are similar if their values are, or if they are the same failure. -/
inductive Similarity.Alike (l : Similarity) : Outcome Payload → Outcome Payload → Prop
  | ok {p q : Payload} (h : l.like p q) : l.Alike (.ok p) (.ok q)
  | error (e : SignalError) : l.Alike (.error e) (.error e)

namespace Similarity

variable {l : Similarity} {o o' : Outcome Payload}

theorem alike_of_good (h : Good (fun p => l.like p p) o) : l.Alike o o := by
  cases o with
  | ok p => exact .ok (h p rfl)
  | error e => exact .error e

theorem Alike.good (h : l.Alike o o) : Good (fun p => l.like p p) o := by
  cases h with
  | ok h => exact good_ok h
  | error e => exact good_error e

/-- Similar outcomes are equal in contents. -/
theorem Alike.near (h : l.Alike o o') : Near o o' := by
  cases h with
  | ok h => exact .inr (l.same h)
  | error e => exact .inl rfl

end Similarity

/-! ### Pure functions -/

/-- The outcome for a result that is no signal. -/
def settled : Except EvalError Value → Outcome Payload
  | .ok v => .ok (.plain v)
  | .error e => .error e.asSignalError

/-- With depth at least `k`, putting values together only makes a value that is no signal, or fails:
    the outcome `make` for what the places are filled from, and for the next identity.  Similar
    values have similar outcomes. -/
structure Combines (host : Host σ) (k : Nat) (l : Similarity) (recipe : Recipe)
    (inputs : List Value) (slots : List Nat) (make : Identity → Payload → Outcome Payload) :
    Prop where
  run : ∀ q, l.like q q → ∀ depth, k ≤ depth → ∀ w, ∃ result n,
    assemble (rules host depth) recipe (fill inputs slots q.values) w =
      .ok (result, { w with identities := n }) ∧
    (∀ id, result ≠ .ok (.signal id)) ∧ settled result = make w.identities q
  alike : ∀ q q', l.like q q' → ∀ i i', l.Alike (make i q) (make i' q')

/-- The step is pure.  An arrow is: what it makes may be carried. -/
def Step.Pure (host : Host σ) (k : Nat) (l : Similarity) : Step → Prop
  | combine recipe inputs slots => ∃ make, Combines host k l recipe inputs slots make
  | close program params body env => ∀ i,
      let arrow : Payload := .plain (.function i (.closure program params body env))
      l.like arrow arrow

/-- The step gives the outcome at some time. -/
def Step.Gives (host : Host σ) (k : Nat) (step : Step) (q : Payload) (o : Outcome Payload) : Prop :=
  ∃ depth w n, k ≤ depth ∧
    applyStep (rules host depth) step q w = .ok (o, { w with identities := n })

/-- Graphs of cells, constants, maps, joins, lifts, labels and references with pure functions. -/
def composed (host : Host σ) (k : Nat) (l : Similarity) : Behaviour Payload Step Choice where
  good q := l.like q q
  fine := Step.Pure host k l
  image := Step.Gives host k
  chosen _ _ _ _ _ := False
  room _ _ _ _ _ := False
  adds := False
  apart := True

section

variable {host : Host σ} {k : Nat} {l : Similarity}

theorem composed_stable : (composed host k l).Stable where
  chosen _ h := h
  room _ _ h := h
  apart _ _ _ _ _ _ _ _ h := h.elim

theorem composed_regular : (composed host k l).Regular 1 where
  step_pos := Nat.one_pos
  room_compact _ h := h

theorem composed_closed : (composed host k l).Closed := ⟨fun _ => l.list, fun _ => l.attempt⟩

theorem settle_run (r : Rules σ) {result : Except EvalError Value}
    (hplain : ∀ id, result ≠ .ok (.signal id)) : settle r result = pure (settled result) := by
  cases result with
  | error e => rfl
  | ok v =>
    cases v with
    | signal id => exact absurd rfl (hplain id)
    | _ => rfl

/-- What is put together is the outcome of the step, if it is no signal. -/
theorem applyStep_combine_run {r : Rules σ} {recipe : Recipe} {inputs : List Value}
    {slots : List Nat} {q : Payload} {result : Except EvalError Value}
    {w w' : World Payload Step Choice σ}
    (hrun : assemble r recipe (fill inputs slots q.values) w = .ok (result, w'))
    (hplain : ∀ id, result ≠ .ok (.signal id)) :
    applyStep r (.combine recipe inputs slots) q w = .ok (settled result, w') := by
  have hstart : (assemble r recipe (fill inputs slots q.values)).run w = .ok (result, w') := hrun
  refine (Signal.bind_run hstart).trans ?_
  rw [settle_run r hplain]
  rfl

/-- A step that puts values together gives what is made of them. -/
theorem Combines.gives {recipe : Recipe} {inputs : List Value} {slots : List Nat}
    {make : Identity → Payload → Outcome Payload} {q : Payload} {o : Outcome Payload}
    (h : Combines host k l recipe inputs slots make) (hq : l.like q q)
    (ho : Step.Gives host k (.combine recipe inputs slots) q o) : ∃ i, o = make i q := by
  obtain ⟨depth, w, n, hdepth, hrun⟩ := ho
  obtain ⟨result, n', hresult, hplain, hmake⟩ := h.run q hq depth hdepth w
  rw [applyStep_combine_run hresult hplain] at hrun
  cases hrun
  exact ⟨w.identities, hmake⟩

/-- With enough depth a pure step completes and only gives out identities. -/
theorem Step.Pure.run {step : Step} (h : step.Pure host k l) {q : Payload} (hq : l.like q q)
    {depth : Nat} (hdepth : k ≤ depth) (w : World Payload Step Choice σ) :
    ∃ o n, applyStep (rules host depth) step q w = .ok (o, { w with identities := n }) ∧
      Good (fun p => l.like p p) o := by
  cases step with
  | combine recipe inputs slots =>
    obtain ⟨make, hcombines⟩ := h
    obtain ⟨result, n, hresult, hplain, hmake⟩ := hcombines.run q hq depth hdepth w
    refine ⟨_, n, applyStep_combine_run hresult hplain, ?_⟩
    rw [hmake]
    exact (hcombines.alike q q hq _ _).good
  | close program params body env => exact ⟨_, _, rfl, good_ok (h w.identities)⟩

/-- The step puts values together. -/
def Step.isCombine : Step → Bool
  | combine .. => true
  | close .. => false

/-- Steps that put values together lead from similar outcomes to similar ones, whenever they are
    carried out. -/
theorem images_alike {steps : List Step} (hpure : ∀ step ∈ steps, step.Pure host k l)
    (hcombine : ∀ step ∈ steps, step.isCombine = true) {o o' t t' : Outcome Payload}
    (h : (composed host k l).Images steps o t) (h' : (composed host k l).Images steps o' t')
    (hstart : l.Alike o o') (ho : l.Alike o o) (ho' : l.Alike o' o') : l.Alike t t' := by
  induction steps generalizing o o' with
  | nil =>
    cases h
    cases h'
    exact hstart
  | cons step steps ih =>
    have ih : ∀ {o o' : Outcome Payload}, (composed host k l).Images steps o t →
        (composed host k l).Images steps o' t' → l.Alike o o' → l.Alike o o → l.Alike o' o' →
          l.Alike t t' :=
      ih (fun s hs => hpure s (List.mem_cons_of_mem _ hs))
        fun s hs => hcombine s (List.mem_cons_of_mem _ hs)
    cases hstart with
    | error e =>
      -- A failure is passed on by either.
      cases h with
      | failed h =>
        cases h' with
        | failed h' => exact ih h h' (.error e) (.error e) (.error e)
    | ok hlike =>
      rename_i q q'
      have hfirst := hpure step List.mem_cons_self
      cases step with
      | close => cases hcombine _ List.mem_cons_self
      | combine recipe inputs slots =>
        obtain ⟨make, hcombines⟩ := hfirst
        cases h with
        | step hgives h =>
          cases h' with
          | step hgives' h' =>
            cases ho with
            | ok hq =>
              cases ho' with
              | ok hq' =>
                obtain ⟨i, rfl⟩ := hcombines.gives hq hgives
                obtain ⟨i', rfl⟩ := hcombines.gives hq' hgives'
                exact ih h h' (hcombines.alike _ _ hlike i i') (hcombines.alike _ _ hq i i)
                  (hcombines.alike _ _ hq' i' i')

end

/-! ### The operations of evaluation -/

section

variable {host : Host σ} {k d : Nat} {l : Similarity}

/-- The functions of signals, as they are applied with the given depth. -/
def codesAt (host : Host σ) (depth : Nat) : Signal.Codes Payload Step Choice σ where
  apply step q := applyStep (rules host depth) step q
  invert _ q := pure q
  choose choice q := chooseSignal (rules host depth) choice q

/-- They keep to the behaviour where the depth is enough for pure functions. -/
theorem laws_codesAt {depth : Nat} (hdepth : k ≤ depth) :
    Signal.Laws (composed host k l) (codesAt host depth) where
  stable := composed_stable
  closed := composed_closed
  apply_run step q w hpure hq := by
    obtain ⟨o, n, hrun, hgood⟩ := Step.Pure.run hpure hq hdepth w
    exact ⟨o, _, hrun, rfl, ⟨depth, w, n, hdepth, hrun⟩, hgood⟩
  choose_run _ _ _ _ _ _ _ _ h := h.elim

/-- Above the depth that pure functions need, the operations bring every signal up to date. -/
theorem reconciles_rules (d : Nat) :
    Reconciles (composed host k l) (rules host (k + d)).toRules d := by
  induction d with
  | zero => exact fun id w rank _ _ hdepth => absurd hdepth (Nat.not_lt_zero _)
  | succ d ih =>
    intro id w rank hs _ hdepth hbelow hc
    refine Signal.reconcileNode_run (laws_codesAt (Nat.le_add_right k (d - 1))) ?_ ?_ ih hs
      (Nat.le_of_lt_succ hdepth) hbelow hc
    all_goals
      intro hd
      obtain ⟨d, rfl⟩ : ∃ n, d = n + 1 := ⟨d - 1, by omega⟩
      rfl

/-- So there is depth enough for the signals of any graph. -/
theorem suffices_rules {g : Graph Payload Step Choice} (hd : g.size < d) :
    Signal.Suffices (composed host k l) 1 (rules host (k + d)).toRules g :=
  ⟨d, by rwa [Nat.one_mul], reconciles_rules d⟩

/-- Later requests keep a graph of pure functions sound. -/
theorem requested_sound {w w' : World Payload Step Choice σ}
    (h : Requested (composed host k l) 1 (fun depth => (rules host depth).toRules) w w')
    (hsound : Signal.Sound (composed host k l) w.graph) :
    Signal.Sound (composed host k l) w'.graph ∧ w.graph.Evolves w'.graph :=
  h.sound composed_stable composed_regular (fun _ _ _ => rfl) hsound

end

end ReactiveDoc.Eval
