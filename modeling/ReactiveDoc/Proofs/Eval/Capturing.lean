import ReactiveDoc.Proofs.Eval.Combining
import ReactiveDoc.Proofs.Eval.Relating
import ReactiveDoc.Proofs.Eval.Settled
import ReactiveDoc.Proofs.Signal.Renewing

namespace ReactiveDoc.Eval

/-!
# Arrows follow what they capture

An arrow that changes over time is made anew whenever one of the names that it uses stands for
something else.  What its body reads below a name that does not change over time is not followed.

* `closures` — functions that arrows make are told apart from all that were there before.
* `rules_ages` — so that evaluation leaves the signal of an arrow with another version whenever it
  makes the arrow anew.
* `mem_capturedSignals_of_use` — what changes over time where an arrow uses it is captured.
* `Closes.follows` — what the join of the captured signals tells apart has the arrow made anew, and
  all that calls it computed anew.
* `arrow_follows` — so an arrow follows the names that it uses.
* `arrow_outdated` — but not what is exported by a module that it uses.
-/

open Signal (Graph World Behaviour Request Near Requested Suffices Ageing good_ok relates_pure
  relates_throw runAll)

variable {σ : Type} {host : Host σ}

/-! ### Functions that are made anew -/

/-- Functions with identities that were given out, and the steps that make functions. -/
def closures : Signal.Stamps Payload Step where
  old n q := ∃ i body, q = .plain (.function i body) ∧ i < n
  fresh step := step.isCombine = false
  mono hle := by
    rintro ⟨i, body, rfl, hi⟩
    exact ⟨i, body, rfl, hi.trans_le hle⟩

instance : Covers (Ageing closures : World Payload Step Choice σ → _ → Prop) where
  create := Signal.ages_create
  newIdentities := Signal.ages_newIdentities

/-- A function that is made is none of those that were there. -/
theorem close_renews {r : Rules σ} {step : Step} {q : Payload} {o : Outcome Payload}
    {w w' : World Payload Step Choice σ} (hstep : closures.fresh step)
    (hrun : applyStep r step q w = .ok (o, w')) : w'.graph = w.graph ∧ ∃ q', o = .ok q' ∧
      closures.old w'.identities q' ∧
      ∀ q'', closures.old w.identities q'' → (q'' == q') = false := by
  cases step with
  | combine => cases hstep
  | close program params body env =>
    cases hrun
    refine ⟨rfl, _, rfl, ⟨_, _, rfl, Nat.lt_succ_self _⟩, ?_⟩
    rintro _ ⟨i, body', rfl, hi⟩
    show (Payload.plain _).same (.plain _) = false
    rw [Payload.same, Value.same]
    exact beq_false_of_ne hi.ne

/-- Evaluation leaves signals of arrows with another version whenever it makes the arrows anew. -/
theorem rules_ages (hhost : host.Relate (Ageing closures)) (depth : Nat) :
    (rules host depth).Relate (Ageing closures) ∧ (rules host depth).toRules.Ages closures := by
  induction depth with
  | zero =>
    refine ⟨⟨hhost, fun _ => relates_throw _, fun _ _ => relates_throw _, fun _ _ _ => ?_⟩,
      Signal.Rules.ages_exhausted⟩
    exact relates_throwFault _
  | succ depth ih =>
    obtain ⟨hrelate, hages⟩ := ih
    refine ⟨⟨hhost, hages.reconcileNode, hages.setNode, hrelate.evaluateNode⟩, ?_⟩
    exact ⟨hages.reconcileNode, hages.setNode, hrelate.applyStep, close_renews,
      fun _ _ => relates_pure _, hrelate.chooseSignal⟩

/-- Nor do later requests do anything else. -/
theorem ageing_of_requested {b : Behaviour Payload Step Choice} {step : Nat}
    {w w' : World Payload Step Choice σ} (hhost : host.Relate (Ageing closures))
    (h : Requested b step (fun depth => (rules host depth).toRules) w w') :
    Ageing closures w w' := by
  induction h with
  | now => exact .refl w
  | next request depth _ _ _ hrun ih =>
    exact ih.trans ((rules_ages hhost (depth + 1)).2.request request _ hrun)

/-! ### What is captured -/

/-- A signal is captured that stands where it is used for what changes over time. -/
theorem mem_capturedSignals_of_use {p : Program} {uses : List Reference} {env : ValueEnv}
    {use : Reference} {id : SignalId} (huse : use ∈ uses)
    (hdynamic : (p.interfaces.get? use.node).any Interface.dynamic = true)
    (hget : env.get? use.name = some (.signal id)) : id ∈ capturedSignals p uses env := by
  unfold capturedSignals
  have hkeep {f : List SignalId → Reference → List SignalId}
      (hf : ∀ captured use, id ∈ captured → id ∈ f captured use) {captured : List SignalId}
      (uses : List Reference) (hmem : id ∈ captured) : id ∈ uses.foldl f captured := by
    induction uses generalizing captured with
    | nil => exact hmem
    | cons use uses ih => exact ih (hf captured use hmem)
  obtain ⟨before, after, rfl⟩ := List.append_of_mem huse
  rw [List.foldl_append, List.foldl_cons]
  refine hkeep (fun captured use hmem => ?_) after ?_
  · split
    · split
      · exact hmem
      · exact List.mem_append_left _ hmem
    · exact hmem
  rw [hdynamic, hget]
  simp only
  split
  · rename_i h
    exact List.contains_iff_mem.mp h
  · exact List.mem_append_right _ (List.mem_singleton_self id)

/-- No outcome is equal in contents to both. -/
def Apart (o o' : Outcome Payload) : Prop := ∀ q, Near q o → ¬ Near q o'

/-- The signals fail before and after, with the same first failure. -/
def FailAlike (g g' : ValueGraph) (sources : List SignalId) : Prop :=
  ∃ e, g.valueAll sources = .error e ∧ g'.valueAll sources = .error e

/-- A join that has failed has the first failure of its signals. -/
theorem valueAll_eq_error {g : ValueGraph} {sources : List SignalId} {e : SignalError}
    (h : Near (.error e) ((g.valueAll sources).map Payload.list)) :
    g.valueAll sources = .error e := by
  have hfail := h.of_error
  cases hall : g.valueAll sources with
  | ok qs =>
    rw [hall] at hfail
    cases hfail
  | error e' =>
    rw [hall] at hfail
    cases hfail
    rfl

/-- If one of the signals is told apart, no join has been right before and after, unless they fail
    alike. -/
theorem failAlike_of_near {g g' : ValueGraph} {sources : List SignalId} {s : SignalId}
    {o : Outcome Payload} (hs : s ∈ sources) (hapart : Apart (g.value s) (g'.value s))
    (h : Near o ((g.valueAll sources).map .list)) (h' : Near o ((g'.valueAll sources).map .list)) :
    FailAlike g g' sources := by
  rcases Payload.near_valueAll h with ⟨e, rfl⟩ | ⟨qs, rfl, hqs⟩
  · exact ⟨e, valueAll_eq_error h, valueAll_eq_error h'⟩
  · rcases Payload.near_valueAll h' with ⟨e, heq⟩ | ⟨qs', heq, hqs'⟩
    · cases heq
    · cases heq
      have hboth := List.Forall₂.mp (fun _ _ => And.intro) hqs hqs'
      obtain ⟨q, -, hq, hq'⟩ := exists_right_of_mem hboth hs
      exact absurd hq' (hapart _ hq)

/-! ### What follows an arrow -/

/-- The signal makes a function anew for what is joined of the captured signals. -/
structure Closes (g : ValueGraph) (captured : List SignalId) (step : Step) (joined f : SignalId) :
    Prop where
  join : (g.node joined).form = .join captured
  map : (g.node f).form = .map joined [step] (.readOnly false)

/-- The signal is computed from what `f` carries, or is a map that is fused with it. -/
structure Uses (g : ValueGraph) (f c : SignalId) : Prop where
  isDerived : (g.node c).form.isDerived = true
  source : f ∈ (g.node c).form.upstream ∨ ∃ origin steps steps' uniform uniform',
    (g.node f).form = .map origin steps (.readOnly uniform) ∧
      (g.node c).form = .map origin (steps ++ steps') (.readOnly uniform')

/-- The signal has another version, and what uses it has noted other versions, which it only does
    when it is computed anew.  This is so wherever they were up to date and are so again. -/
structure Followed (g g' : ValueGraph) (f : SignalId) : Prop where
  moves : g.UpToDate f → g'.UpToDate f → g.version f < g'.version f
  recomputed : ∀ c, Uses g f c → g.UpToDate c → g'.UpToDate c →
    (g'.node c).seen ≠ (g.node c).seen

namespace Closes

variable {b : Behaviour Payload Step Choice} {g g' : ValueGraph} {captured : List SignalId}
  {step : Step} {joined f : SignalId}

theorem isDerived_join (h : Closes g captured step joined f) :
    (g.node joined).form.isDerived = true := by
  rw [h.join]
  rfl

theorem isDerived_map (h : Closes g captured step joined f) :
    (g.node f).form.isDerived = true := by
  rw [h.map]
  rfl

theorem evolve (h : Closes g captured step joined f) (hev : g.Evolves g') :
    Closes g' captured step joined f :=
  ⟨(hev.form_eq joined (h.join ▸ nofun)).trans h.join, (hev.form_eq f (h.map ▸ nofun)).trans h.map⟩

/-- What is joined is up to date if the function is. -/
theorem upToDate (h : Closes g captured step joined f) (hs : Signal.Sound b g)
    (hup : g.UpToDate f) : g.UpToDate joined := by
  have hsource := (hs.answers h.isDerived_map hup).2 joined (by
    rw [h.map]
    exact List.mem_singleton_self joined)
  rwa [Graph.anchor_of_isDerived h.isDerived_join] at hsource

theorem near_join (h : Closes g captured step joined f) (hs : Signal.Sound b g)
    (hup : g.UpToDate joined) :
    Near (g.node joined).memo.read ((g.valueAll captured).map .list) := by
  have hanswers := (hs.answers h.isDerived_join hup).1
  unfold Behaviour.Answers at hanswers
  rwa [h.join] at hanswers

/-- Where making functions does not fail, only a failure of what is captured makes one fail. -/
theorem valueAll_eq_error (h : Closes g captured step joined f) (hs : Signal.Sound b g)
    (himage : ∀ q o, b.image step q o → ∃ q', o = .ok q') (hup : g.UpToDate f) {e : SignalError}
    (he : (g.node f).memo.outcome? = some (.error e)) : g.valueAll captured = .error e := by
  have hanswers := (hs.answers h.isDerived_map hup).1
  unfold Behaviour.Answers at hanswers
  rw [h.map] at hanswers
  obtain ⟨o, himages, hnear⟩ := hanswers
  have hread : (g.node f).memo.read = .error e := by
    unfold Signal.Memo.read
    rw [he]
    rfl
  rw [hread] at hnear
  obtain rfl := hnear.of_error
  cases hv : g.value joined with
  | ok q =>
    rw [hv] at himages
    cases himages with
    | step hstep hnil =>
      cases hnil
      obtain ⟨q', heq⟩ := himage q _ hstep
      cases heq
  | error e' =>
    rw [hv] at himages
    cases himages with
    | failed hnil =>
      cases hnil
      have hjoin := h.near_join hs (h.upToDate hs hup)
      unfold Graph.value at hv
      rw [Graph.anchor_of_isDerived h.isDerived_join] at hv
      rw [hv] at hjoin
      exact Eval.valueAll_eq_error hjoin

/-- What tells apart one of the captured signals is followed, unless these fail alike. -/
theorem follows {w w' : World Payload Step Choice σ} {s : SignalId}
    (h : Closes w.graph captured step joined f) (hs : Signal.Sound b w.graph)
    (hs' : Signal.Sound b w'.graph)
    (hageing : Ageing closures w w') (hfresh : closures.fresh step)
    (hstamped : (w.graph.node f).Stamped closures w.identities)
    (himage : ∀ q o, b.image step q o → ∃ q', o = .ok q') (hmem : s ∈ captured)
    (hapart : Apart (w.graph.value s) (w'.graph.value s)) :
    FailAlike w.graph w'.graph captured ∨ Followed w.graph w'.graph f := by
  by_cases hfail : FailAlike w.graph w'.graph captured
  · exact .inl hfail
  have hform {id : SignalId} (hd : (w.graph.node id).form.isDerived = true) :
      (w'.graph.node id).form = (w.graph.node id).form ∧
        (w.graph.node id).memo.Ahead (w'.graph.node id).memo := by
    have hne : (w.graph.node id).form ≠ .reference none := by
      intro heq
      rw [heq] at hd
      cases hd
    exact ⟨hageing.form_eq id hne, hageing.ahead id hne⟩
  have h' : Closes w'.graph captured step joined f :=
    ⟨(hform h.isDerived_join).1.trans h.join, (hform h.isDerived_map).1.trans h.map⟩
  have hversion {g : ValueGraph} {id : SignalId} (hd : (g.node id).form.isDerived = true) :
      g.version id = (g.node id).memo.version := by
    unfold Graph.version
    rw [Graph.anchor_of_isDerived hd]
  -- A join of the same version would have been right before and after.
  have hjoin (hup : w.graph.UpToDate joined) (hup' : w'.graph.UpToDate joined) :
      w.graph.version joined ≠ w'.graph.version joined := by
    intro heq
    rw [hversion h.isDerived_join, hversion h'.isDerived_join] at heq
    have hcomputed := ((hs'.coherent joined).settled h'.isDerived_join
      (hup' h'.isDerived_join)).computed
    have hsame := (hform h.isDerived_join).2.outcome?_eq heq.symm hcomputed
    have hread : (w'.graph.node joined).memo.read = (w.graph.node joined).memo.read := by
      unfold Signal.Memo.read
      rw [hsame]
    exact hfail (failAlike_of_near hmem hapart (h.near_join hs hup)
      (hread ▸ h'.near_join hs' hup'))
  have hmoves (hup : w.graph.UpToDate f) (hup' : w'.graph.UpToDate f) :
      w.graph.version f < w'.graph.version f := by
    have hsource : joined ∈ (w.graph.node f).form.upstream := by
      rw [h.map]
      exact List.mem_singleton_self joined
    obtain ⟨-, hproceeds⟩ := hageing.renewed f (by rw [h.map]; exact hfresh) hstamped
    rw [hversion h.isDerived_map, hversion h'.isDerived_map]
    cases hproceeds with
    | stays hseen _ _ =>
      exact absurd hseen (hs.seen_ne hs' (hform h.isDerived_map).1 h.isDerived_map hup hup' hsource
        (hjoin (h.upToDate hs hup) (h'.upToDate hs' hup')))
    | moves hlt => exact hlt
    | fails e he he' =>
      exact absurd ⟨e, h.valueAll_eq_error hs himage hup he,
        h'.valueAll_eq_error hs' himage hup' he'⟩ hfail
  refine .inr ⟨hmoves, fun c huses hup hup' => ?_⟩
  obtain ⟨hd, hsource⟩ := huses
  have hdirect {source : SignalId} (hd' : (w.graph.node source).form.isDerived = true)
      (hmem : source ∈ (w.graph.node c).form.upstream) :
      w.graph.UpToDate source ∧ w'.graph.UpToDate source := by
    have hsourceUp := (hs.answers hd hup).2 source hmem
    have hsourceUp' := (hs'.answers ((hform hd).1 ▸ hd) hup').2 source ((hform hd).1 ▸ hmem)
    rw [Graph.anchor_of_isDerived hd'] at hsourceUp
    rw [Graph.anchor_of_isDerived ((hform hd').1 ▸ hd')] at hsourceUp'
    exact ⟨hsourceUp, hsourceUp'⟩
  rcases hsource with hmem | ⟨origin, steps, steps', _, _, hf, hc⟩
  · obtain ⟨hf, hf'⟩ := hdirect h.isDerived_map hmem
    exact hs.seen_ne hs' (hform hd).1 hd hup hup' hmem (hmoves hf hf').ne
  · -- What is fused with the function has the same source.
    obtain rfl : joined = origin := by
      rw [h.map] at hf
      cases hf
      rfl
    have hmem : joined ∈ (w.graph.node c).form.upstream := by
      rw [hc]
      exact List.mem_singleton_self joined
    obtain ⟨hj, hj'⟩ := hdirect h.isDerived_join hmem
    exact hs.seen_ne hs' (hform hd).1 hd hup hup' hmem (hjoin hj hj')

end Closes

/-! ### Arrows -/

section

variable {b : Behaviour Payload Step Choice} {step : Nat} {p : Program} {node body : NodeId}
  {params : List Param} {uses : List Reference} {env : ValueEnv} {w : World Payload Step Choice σ}

theorem lookUp_bind {α β : Type} {e : Except Fault α} {a : α} (h : e = .ok a)
    (f : α → EvalM σ β) : (lookUp e >>= f) = f a := by
  subst h
  rfl

theorem require_bind {β : Type} {interface : Interface}
    (h : p.interfaces.get? node = some interface) (f : Interface → EvalM σ β) :
    (require p node >>= f) = f interface := by
  unfold require InterfaceMap.require
  rw [h]
  rfl

/-- An arrow that changes over time makes functions anew for the signals that it captures. -/
theorem evaluateArrow_run (hstable : b.Stable) (hb : b.Regular step)
    (hsound : Signal.Sound b w.graph)
    (huses : p.tree.references node = .ok uses)
    (hknown : ∀ id ∈ capturedSignals p uses env, id < w.graph.size)
    (hfine : b.fine (.close p (params.map Param.name) body env)) : ∃ joined f w₁,
      evaluateArrow p node params body true env w = .ok (.ok (.signal f), w₁) ∧
      Signal.Sound b w₁.graph ∧ f < w₁.graph.size ∧ (w₁.graph.node f).memo = {} ∧
      Closes w₁.graph (capturedSignals p uses env)
        (.close p (params.map Param.name) body env) joined f := by
  obtain ⟨w', hjoin, hsound', hevolves', hsize', hnode'⟩ := Signal.Creation.run_sound hstable hb
    hsound (c := .join (capturedSignals p uses env)) hknown nofun trivial
  have hsources : ∀ s ∈ [w.graph.size], s < w'.graph.size :=
    List.forall_mem_singleton.mpr (hsize' ▸ Nat.lt_succ_self _)
  obtain ⟨w₁, hmap, hsound₁, hevolves₁, hsize₁, hnode₁⟩ := Signal.Creation.run_sound hstable hb
    hsound' (c := .map w.graph.size (.close p (params.map Param.name) body env) false) hsources nofun
    hfine
  have hform : (w'.graph.node w.graph.size).form = .join (capturedSignals p uses env) :=
    congrArg Signal.Node.form hnode'
  refine ⟨w.graph.size, w'.graph.size, w₁, ?_, hsound₁, hsize₁ ▸ Nat.lt_succ_self _,
    congrArg Signal.Node.memo hnode₁, ?_, congrArg Signal.Node.form hnode₁⟩
  · unfold evaluateArrow
    simp only [if_true]
    rw [lookUp_bind huses]
    exact (bind_run_ok (lift_run hjoin)).trans (bind_run_ok (lift_run hmap))
  · exact (hevolves₁.form_eq _ (hform ▸ nofun)).trans hform

/-- An arrow that changes over time is a signal that can be read at any later time.  Whenever one
    of the signals that it captures is then told apart from what it was before, the arrow has been
    made anew and all that calls it computed anew, unless the captured signals fail as before. -/
theorem arrow_follows {typing : Typing} (hstable : b.Stable) (hb : b.Regular step)
    (himage : ∀ q o, b.image (.close p (params.map Param.name) body env) q o → ∃ q', o = .ok q')
    (hhost : host.Relate (Ageing closures)) (hsound : Signal.Sound b w.graph)
    (hnode : p.interfaces.get? node = some (.ok typing)) (hdynamic : typing.dynamic = true)
    (hkind : p.tree.kind node = .ok (.arrow params body))
    (huses : p.tree.references node = .ok uses)
    (hknown : ∀ id ∈ capturedSignals p uses env, id < w.graph.size)
    (hfine : b.fine (.close p (params.map Param.name) body env)) (depth : Nat) : ∃ f w₁,
      (rules host (depth + 1)).evaluate p node env w = .ok (.ok (.signal f), w₁) ∧
      Signal.Sound b w₁.graph ∧
      ∀ w₂, Requested b step (fun depth => (rules host depth).toRules) w₁ w₂ →
        (∀ depth, Suffices b step (rules host depth).toRules w₂.graph → ∃ w₃,
          (rules host depth).toRules.read f w₂ = .ok (w₃.graph.value f, w₃) ∧
          w₃.graph.UpToDate f) ∧
        ∀ w₃, Requested b step (fun depth => (rules host depth).toRules) w₂ w₃ →
          ∀ use ∈ uses, ∀ s, (p.interfaces.get? use.node).any Interface.dynamic = true →
            env.get? use.name = some (.signal s) →
            Apart (w₂.graph.value s) (w₃.graph.value s) →
              FailAlike w₂.graph w₃.graph (capturedSignals p uses env) ∨
              Followed w₂.graph w₃.graph f := by
  obtain ⟨joined, f, w₁, hrun, hsound₁, hlt, hmemo, hcloses⟩ :=
    evaluateArrow_run hstable hb hsound huses hknown hfine
  refine ⟨f, w₁, ?_, hsound₁, fun w₂ hlater => ?_⟩
  · show evaluateNode (rules host depth) p node env w = _
    unfold evaluateNode
    rw [require_bind hnode]
    simp only
    unfold evaluateForm
    rw [lookUp_bind hkind, hdynamic]
    exact bind_run_ok hrun
  obtain ⟨hsound₂, hevolves₂⟩ := hlater.sound hstable hb (fun _ _ _ => rfl) hsound₁
  have hcloses₂ := hcloses.evolve hevolves₂
  refine ⟨fun depth hdepth => ?_, fun w₃ hlater₃ use huse s hdynamic' hget hapart => ?_⟩
  · obtain ⟨d, hd, hr⟩ := hdepth
    obtain ⟨w₃, hread, -, hframe, -, hup⟩ := hsound₂.read hstable hb hr hd
      (hlt.trans_le hevolves₂.size_le)
    rw [Graph.anchor_of_isDerived (hcloses₂.evolve hframe.evolves).isDerived_map] at hup
    exact ⟨w₃, hread, hup⟩
  · -- A signal that has not been computed yet remembers nothing that could have been there.
    have hfresh : (w₁.graph.node f).Stamped closures w₁.identities := by
      intro q hq
      rw [hmemo] at hq
      cases hq
    have hrenews : (w₁.graph.node f).form.Renews closures := by
      rw [hcloses.map]
      rfl
    obtain ⟨hstamped, -⟩ := (ageing_of_requested hhost hlater).renewed f hrenews hfresh
    obtain ⟨hsound₃, -⟩ := hlater₃.sound hstable hb (fun _ _ _ => rfl) hsound₂
    exact hcloses₂.follows hsound₂ hsound₃ (ageing_of_requested hhost hlater₃) rfl hstamped himage
      (mem_capturedSignals_of_use huse hdynamic' hget) hapart

end

/-- The arrow `() => x`, where `x` changes over time. -/
def reader : Program where
  tree := ⟨#[⟨default, .identifier "x"⟩, ⟨default, .arrow [] 0⟩]⟩
  interfaces := ⟨#[some (.ok { ty := .string, dynamic := true }),
    some (.ok { ty := .function [] .string, dynamic := true })]⟩

/-- Other texts are not equal in contents to a text. -/
theorem eq_of_near_string {o : Outcome Payload} {t : String}
    (h : Near o (.ok (.plain (.string t)))) : o = .ok (.plain (.string t)) := by
  obtain ⟨q, rfl, rfl | hq⟩ := h.exists_ok
  · rfl
  · have hsame : q.same (.plain (.string t)) = true := hq
    cases q with
    | plain v =>
      cases v with
      | string u =>
        rw [Payload.same, Value.same, beq_iff_eq] at hsame
        rw [hsame]
      | _ => simp [Payload.same, Value.same] at hsame
    | _ => simp [Payload.same] at hsame

theorem bareHost_relate : bareHost.Relate (Ageing closures) :=
  ⟨fun _ _ => relates_stop _, nofun⟩

/-- The cell that an arrow uses is written between two reads of the arrow. -/
theorem arrow_follows_cell : ∃ w₁ w₂ w₃ w₄ o o',
    (rules bareHost 9).evaluate reader 1 ⟨[("x", .signal 0)]⟩ (cellWorld [.string "a"]) =
      .ok (.ok (.signal 2), w₁) ∧
    (Request.get 2).run (rules bareHost 9).toRules w₁ = .ok (.value o, w₂) ∧
    (Request.set 0 (.ok (.plain (.string "b")))).run (rules bareHost 9).toRules w₂ =
      .ok (.written (.ok ()), w₃) ∧
    (Request.get 2).run (rules bareHost 9).toRules w₃ = .ok (.value o', w₄) ∧
    w₂.graph.version 2 < w₄.graph.version 2 := by
  have hcell : Signal.Sound (composed bareHost 0 .exactly) (cellWorld [.string "a"]).graph :=
    Signal.Creation.sound composed_stable composed_regular Signal.sound_empty (c := .cell _) nofun
      nofun (good_ok ⟨rfl, rfl⟩)
  have himage : ∀ q o, (composed bareHost 0 .exactly).image
      (.close reader [] 0 ⟨[("x", .signal 0)]⟩) q o → ∃ q', o = .ok q' := by
    rintro q o ⟨depth, w, n, -, hrun⟩
    cases hrun
    exact ⟨_, rfl⟩
  have hnode : reader.interfaces.get? 1 =
    some (.ok { ty := .function [] .string, dynamic := true }) := rfl
  have hkind : reader.tree.kind 1 = .ok (.arrow [] 0) := rfl
  have huses : reader.tree.references 1 = .ok [⟨"x", 0, true⟩] := rfl
  have hcaptured : capturedSignals reader [⟨"x", 0, true⟩] ⟨[("x", .signal 0)]⟩ = [0] := rfl
  obtain ⟨f, w₁, hrun, hsound₁, hlater⟩ := arrow_follows composed_stable composed_regular himage
    bareHost_relate hcell hnode rfl hkind huses (by decide)
    (fun i => ⟨rfl, by simp [Payload.same, Value.same]⟩) 8
  -- The run is computed; that the version rises comes from the general theorem.
  obtain ⟨w₁', w₂, w₃, w₄, o, o', hrun', hget, hset, hget', hsize, hform, hclean, hclean', hbefore,
      hafter⟩ : ∃ w₁ w₂ w₃ w₄ o o',
      (rules bareHost 9).evaluate reader 1 ⟨[("x", .signal 0)]⟩ (cellWorld [.string "a"]) =
        .ok (.ok (.signal 2), w₁) ∧
      (Request.get 2).run (rules bareHost 9).toRules w₁ = .ok (.value o, w₂) ∧
      (Request.set 0 (.ok (.plain (.string "b")))).run (rules bareHost 9).toRules w₂ =
        .ok (.written (.ok ()), w₃) ∧
      (Request.get 2).run (rules bareHost 9).toRules w₃ = .ok (.value o', w₄) ∧
      (w₁.graph.size = 3 ∧ w₂.graph.size = 3 ∧ w₃.graph.size = 3) ∧
      (w₂.graph.node (w₂.graph.anchor 0)).form = .cell ∧
      (w₂.graph.node 2).memo.dirty = false ∧ (w₄.graph.node 2).memo.dirty = false ∧
      w₂.graph.value 0 = .ok (.plain (.string "a")) ∧
      w₄.graph.value 0 = .ok (.plain (.string "b")) :=
    ⟨_, _, _, _, _, _, show _ = Except.ok (_, _) by cbv, show _ = Except.ok (_, _) by cbv,
      show _ = Except.ok (_, _) by cbv, show _ = Except.ok (_, _) by cbv, by cbv, by cbv, by cbv,
      by cbv, by cbv, by cbv⟩
  obtain ⟨rfl, rfl⟩ : f = 2 ∧ w₁ = w₁' := by
    rw [hrun'] at hrun
    cases hrun
    exact ⟨rfl, rfl⟩
  have hdepth₁ : w₁.graph.size < 9 := by omega
  have hdepth₂ : w₂.graph.size < 9 := by omega
  have hdepth₃ : w₃.graph.size < 9 := by omega
  have hfirst : Requested (composed bareHost 0 .exactly) 1
      (fun depth => (rules bareHost depth).toRules) w₁ w₂ :=
    .next (.get 2) 8 .now (show 2 < w₁.graph.size by omega) (suffices_rules hdepth₁) hget
  obtain ⟨hsound₂, -⟩ := requested_sound hfirst hsound₁
  have hwrite : Requested (composed bareHost 0 .exactly) 1
      (fun depth => (rules bareHost depth).toRules) w₂ w₃ := by
    have hknown : 0 < w₂.graph.size := by omega
    refine .next (.set 0 (.ok (.plain (.string "b")))) 8 .now ⟨hknown, good_ok ⟨rfl, rfl⟩,
      fun _ _ _ hmap => ?_, fun _ => attentive_composed hsound₂ _⟩ (suffices_rules hdepth₂) hset
    rw [hform] at hmap
    cases hmap
  have hlast : Requested (composed bareHost 0 .exactly) 1
      (fun depth => (rules bareHost depth).toRules) w₂ w₄ :=
    .next (.get 2) 8 hwrite (show 2 < w₃.graph.size by omega) (suffices_rules hdepth₃) hget'
  have hapart : Apart (w₂.graph.value 0) (w₄.graph.value 0) := by
    intro o h h'
    rw [hbefore] at h
    rw [hafter, eq_of_near_string h] at h'
    have heq := eq_of_near_string h'
    simp at heq
  -- The cell is all that the arrow has captured, and it does not fail.
  rcases (hlater w₂ hfirst).2 w₄ hlast _ (List.mem_singleton_self _) 0 rfl rfl hapart with
    ⟨e, hfail, -⟩ | hfollowed
  · rw [hcaptured, show w₂.graph.valueAll [0] = .ok [.plain (.string "a")] by
      unfold Graph.valueAll
      rw [List.mapM_cons, hbefore]
      rfl] at hfail
    cases hfail
  · exact ⟨w₁, w₂, w₃, w₄, o, o', hrun', hget, hset, hget',
      hfollowed.moves (fun _ => hclean) fun _ => hclean'⟩

/-! ### Exports of modules -/

/-- A module with a text that changes over time. -/
def exporting : TypeEnv := ⟨[("m", .ok (.fixed (.module [⟨"x", .string, true⟩])))]⟩

/-- The arrow `() => m.x` and a call of it, which both change over time. -/
def exportReader : Program where
  tree := ⟨#[⟨default, .identifier "m"⟩, ⟨default, .member 0 "x"⟩, ⟨default, .arrow [] 1⟩,
    ⟨default, .call 2 []⟩]⟩
  interfaces := ⟨#[some (.ok (.fixed (.module [⟨"x", .string, true⟩]))),
    some (.ok { ty := .string, dynamic := true }),
    some (.ok { ty := .function [] .string, dynamic := true }),
    some (.ok { ty := .string, dynamic := true })]⟩

/-- The text of the module is written between two reads of the arrow, and of a call of it.  The
    same function stays, although it gives another text when it is called again, and the call keeps
    what it has. -/
theorem arrow_outdated :
    Check.synth ⟨exportReader.tree, [], {}⟩ 3 exporting (.ofSize 4) =
      .ok (.ok { ty := .string, dynamic := true }, exportReader.interfaces) ∧
    (∃ w₁ w₂ w₃ w₄ arrow,
      (rules bareHost 9).evaluate exportReader 2 ⟨[("m", .object 0 [("x", .signal 0)])]⟩
        (cellWorld [.string "a"]) = .ok (.ok (.signal 2), w₁) ∧
      (Request.get 2).run (rules bareHost 9).toRules w₁ = .ok (.value (.ok (.plain arrow)), w₂) ∧
      call (rules bareHost 9) arrow [] w₂ = .ok (.ok (.string "a"), w₂) ∧
      runAll (rules bareHost 9).toRules [.set 0 (.ok (.plain (.string "b"))), .get 2] w₂ =
        .ok ([.written (.ok ()), .value (.ok (.plain arrow))], w₃) ∧
      w₃.graph.version 2 = w₂.graph.version 2 ∧
      call (rules bareHost 9) arrow [] w₃ = .ok (.ok (.string "b"), w₄)) ∧
    ∃ w₁ w₂,
      (rules bareHost 9).evaluate exportReader 3 ⟨[("m", .object 0 [("x", .signal 0)])]⟩
        (cellWorld [.string "a"]) = .ok (.ok (.signal 3), w₁) ∧
      runAll (rules bareHost 9).toRules [.get 3, .set 0 (.ok (.plain (.string "b"))), .get 3] w₁ =
        .ok ([.value (.ok (.plain (.string "a"))), .written (.ok ()),
          .value (.ok (.plain (.string "a")))], w₂) :=
  ⟨rfl, ⟨_, _, _, _, _, show _ = Except.ok (_, _) by cbv, show _ = Except.ok (_, _) by cbv,
    show _ = Except.ok (_, _) by cbv, show _ = Except.ok (_, _) by cbv, by cbv,
    show _ = Except.ok (_, _) by cbv⟩, _, _, show _ = Except.ok (_, _) by cbv,
    show _ = Except.ok (_, _) by cbv⟩

end ReactiveDoc.Eval
