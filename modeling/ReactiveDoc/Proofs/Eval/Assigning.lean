import Mathlib
import ReactiveDoc.Proofs.Eval.Sparing
import ReactiveDoc.Proofs.Value.Editing

namespace ReactiveDoc

/-!
# Assignments take place as a whole

An assignment writes the first signal on the way to its place.  The rest of the way is edited in a
copy of the signal's value, and a failed edit writes the value as it was.

* `Value.firstSignal?` — the first signal on the way along a path, and the rest of the path.
* `Eval.SilentAssignment`, `Eval.TidyCells` — no part of the assignment calls a function or assigns,
  and what cells carry has fields with different keys.
* `Eval.Edits`, `Eval.Reports` — one cell was written, and it reads so; the host was told once.
* `Eval.assign_atomic` — an assignment that fails has written no cell and told the host nothing; one
  that succeeds has written one cell, and then told the host if it is to be told.
-/

namespace Value

/-- The first signal on the way from a value along a path, with the rest of the path. -/
def firstSignal? : Value → List PathSegment → Option (SignalId × List PathSegment)
  | signal id, path => some (id, path)
  | _, [] => none
  | v, segment :: rest => (v.child? segment).bind (·.firstSignal? rest)

/-- The signals on the way are part of the value. -/
theorem Within.firstSignal? {K : SignalId → Prop} {C : Closure → Prop} {v : Value}
    (h : v.Within K C) {path rest : List PathSegment} {id : SignalId}
    (hfirst : v.firstSignal? path = some (id, rest)) : K id := by
  induction path generalizing v with
  | nil =>
    cases v <;> cases hfirst
    exact within_signal.mp h
  | cons segment path ih =>
    cases v with
    | signal id' =>
      cases hfirst
      exact within_signal.mp h
    | _ =>
      obtain ⟨part, hpart, hrest⟩ := Option.bind_eq_some_iff.mp hfirst
      exact ih (h.child? hpart) hrest

end Value

namespace Eval

open Signal (World Spares Sparing Graph spares_pure spares_throw spares_graph spares_newIdentities
  graph_bind_run bind_run exists_of_bind setNode_cases good_ok)

variable {σ α β : Type} {K cell : SignalId → Prop} {p : Program} {target value node x : NodeId}
  {env : ValueEnv} {r : Rules σ} {host : Host σ} {depth : Nat} {id : SignalId} {v : Value}
  {w w₁ w' : World Payload Step Choice σ} {path : List Value.PathSegment}

/-- A completed evaluation in two steps stopped at the first one, or went on. -/
theorem bind_cases {x : EvalM σ α} {f : α → EvalM σ β} {result : Except EvalError β}
    (h : (x >>= f) w = .ok (result, w')) : (∃ e, x w = .ok (.error e, w') ∧ result = .error e) ∨
      ∃ a w₁, x w = .ok (.ok a, w₁) ∧ f a w₁ = .ok (result, w') := by
  obtain ⟨first, w₁, hfirst, hrest⟩ := exists_of_bind (x := x.run) h
  cases first with
  | ok a => exact .inr ⟨a, w₁, hfirst, hrest⟩
  | error e =>
    cases hrest
    exact .inl ⟨e, hfirst, rfl⟩

/-- A computation on signals does not stop an evaluation. -/
theorem lift_cases {y : SignalM σ α} {result : Except EvalError α}
    (h : (lift y : EvalM σ α) w = .ok (result, w')) : ∃ a, y w = .ok (a, w') ∧ result = .ok a := by
  have hmap : (Except.ok <$> y : SignalM σ (Except EvalError α)) w = .ok (result, w') := h
  rw [map_eq_pure_bind] at hmap
  obtain ⟨a, w₁, hy, hrest⟩ := exists_of_bind hmap
  cases hrest
  exact ⟨a, hy, rfl⟩

/-! ### Places -/

/-- Neither the value of an assignment nor the computed steps of its target call a function or
    assign, outside arrows.  What all of it uses, and what the target starts from, has certain
    signals only. -/
structure SilentAssignment (K : SignalId → Prop) (p : Program) (target value : NodeId)
    (env : ValueEnv) : Prop where
  value : Silent K p value env
  index : ∀ x object index, OnPlace p.tree target x → p.tree.kind x = .ok (.index object index) →
    Silent K p index env
  root : ∀ x name v, OnPlace p.tree target x → p.tree.kind x = .ok (.identifier name) →
    env.get? name = some v → Confined K v

/-- The name that a place starts from is that of an identifier on the place. -/
theorem Rules.Spare.placePath (hr : r.Spare K cell)
    (hindex : ∀ x object index, OnPlace p.tree target x →
      p.tree.kind x = .ok (.index object index) → Silent K p index env)
    (depth : Nat) (hx : OnPlace p.tree target x) :
    Spared K cell (placePath r p env depth x) fun place =>
      ∃ x, OnPlace p.tree target x ∧ p.tree.kind x = .ok (.identifier place.1) := by
  induction depth generalizing x with
  | zero => exact spared_throwFault _
  | succ depth ih =>
    unfold Eval.placePath
    refine (spared_lookUp _).bind fun kind hkind => ?_
    cases kind with
    | identifier name => exact spared_pure ⟨x, hx, hkind⟩
    | member object property =>
      exact (ih (hx.member hkind)).bind fun _ hplace => spared_pure hplace
    | index object index =>
      refine (ih (hx.index hkind)).bind fun place hplace => ?_
      refine (hr.evaluate p index env (hindex x object index hx hkind)).bind fun v hv => ?_
      refine (hr.snapshot hv).bind fun v _ => ?_
      have hsegment : Spared K cell (indexSegment v : EvalM σ Value.PathSegment)
          fun _ => True := by
        unfold indexSegment
        cases v with
        | number x =>
          simp only
          split
          · exact spared_pure trivial
          · exact spared_throw _
        | string key => exact spared_pure trivial
        | _ => exact spared_throw _
      exact hsegment.bind fun _ _ => spared_pure hplace
    | _ => exact spared_throw _

/-! ### What the host is told -/

section

variable {read : SignalId → SignalM σ Json}

mutual

/-- Writing a value reads its signals. -/
theorem toJsonWith_spares : ∀ {v : Value},
    (∀ id ∈ v.signals, Spares (silence K cell) (read id) fun _ => True) →
    Spares (silence K cell) (v.toJsonWith read) fun _ => True
  | .undefined, _ | .null, _ | .function _ _, _ => spares_pure trivial
  | .boolean _, _ | .number _, _ | .string _, _ => spares_pure trivial
  | .array _ _, h => (itemsToJson_spares h).bind fun _ _ => spares_pure trivial
  | .object _ _, h => (fieldsToJson_spares h).bind fun _ _ => spares_pure trivial
  | .element _ _ _ _, h =>
      (fieldsToJson_spares fun id hid => h id (List.mem_append_left _ hid)).bind fun _ _ =>
        (itemsToJson_spares fun id hid => h id (List.mem_append_right _ hid)).bind
          fun _ _ => spares_pure trivial
  | .signal id, h => h id (List.mem_singleton_self id)

theorem itemsToJson_spares : ∀ {items : List Value},
    (∀ id ∈ Value.itemsSignals items, Spares (silence K cell) (read id) fun _ => True) →
    Spares (silence K cell) (Value.itemsToJson read items) fun _ => True
  | [], _ => spares_pure trivial
  | _ :: _, h =>
      (toJsonWith_spares fun id hid => h id (List.mem_append_left _ hid)).bind fun _ _ =>
        (itemsToJson_spares fun id hid => h id (List.mem_append_right _ hid)).bind
          fun _ _ => spares_pure trivial

theorem fieldsToJson_spares : ∀ {fields : List (String × Value)},
    (∀ id ∈ Value.fieldsSignals fields, Spares (silence K cell) (read id) fun _ => True) →
    Spares (silence K cell) (Value.fieldsToJson read fields) fun _ => True
  | [], _ => spares_pure trivial
  | (_, _) :: _, h =>
      (toJsonWith_spares fun id hid => h id (List.mem_append_left _ hid)).bind fun _ _ =>
        (fieldsToJson_spares fun id hid => h id (List.mem_append_right _ hid)).bind
          fun _ _ => spares_pure trivial

end

end

theorem Rules.Spare.valueJson (hr : r.Spare K cell) (depth : Nat) {v : Value} (hv : Confined K v) :
    Spares (silence K cell) (valueJson r depth v) fun _ => True := by
  induction depth generalizing v with
  | zero => exact spares_throw _
  | succ depth ih =>
    refine toJsonWith_spares fun id hid => ?_
    refine (hr.signals.read (hv.signals id hid)).bind fun o ho => ?_
    cases o with
    | ok q => exact ih (Payload.Within.value (ho q rfl))
    | error e => exact spares_pure trivial

/-- Who is told of edits of a place: the host, if the place belongs to a binding of the document's
    own source and edits are to be reported. -/
def listener? (host : Host σ) (p : Program) (target : NodeId) :
    Option (List String → String → SignalM σ Unit) :=
  if (p.interfaces.get? target).any isCodePlace && p.options.writeBack then host.save? else none

/-- Who is to be told of an edit is told once, by the path and the written form of the new value.
    Writing this form writes no cell. -/
def Reports (host : Host σ) (depth : Nat) (p : Program) (target : NodeId) (path : List String)
    (v : Value) (w w' : World Payload Step Choice σ) : Prop :=
  match listener? host p target with
  | none => w' = w
  | some save => ∃ json w₁, valueJson (rules host depth) Signal.depthLimit v w = .ok (json, w₁) ∧
      Sparing w.graph.IsCell w w₁ ∧ save path json.compact w₁ = .ok ((), w')

/-! ### Writing the first signal -/

/-- What cells carry is a value whose fields have different keys. -/
def TidyCells (K : SignalId → Prop) (w : World Payload Step Choice σ) : Prop :=
  ∀ c q, K c → w.graph.IsCell c → (w.graph.node c).memo.outcome? = some (.ok q) →
    ∃ u, q = .plain u ∧ u.Tidy

/-- A write is refused, and nothing has changed, or it is for a cell. -/
theorem write_cases {result : Except EvalError Unit} (hin : w.graph.In (silence K cell))
    (hid : K id) (hrun : write (rules host depth) id v w = .ok (result, w')) :
    (∃ e, result = .error e ∧ w' = w) ∨
      (result = .ok () ∧ (w.graph.node (w.graph.anchor id)).form = .cell ∧
        w' = w.put (w.graph.written (w.graph.anchor id) (.ok (.plain v)))) := by
  unfold write at hrun
  rcases bind_cases hrun with ⟨e, hset, -⟩ | ⟨outcome, w₁, hset, hrest⟩
  · obtain ⟨_, -, hok⟩ := lift_cases hset
    cases hok
  obtain ⟨o, hset, hok⟩ := lift_cases hset
  cases hok
  cases depth with
  | zero => cases hset
  | succ depth =>
    rcases setNode_cases (hin.node _ (hin.anchor hid)).fixed hset with
      ⟨e, rfl, rfl, -⟩ | ⟨rfl, hcell, rfl⟩
    · cases hrest
      exact .inl ⟨_, rfl, rfl⟩
    · cases hrest
      exact .inr ⟨rfl, hcell, rfl⟩

/-- A signal that stands for a cell is read as it is. -/
theorem read_of_cell (host : Host σ) (hcell : (w.graph.node (w.graph.anchor id)).form = .cell)
    (depth : Nat) : (rules host (depth + 1)).toRules.read id w = .ok (w.graph.value id, w) := by
  have hreconcile : (rules host (depth + 1)).reconcile id w = .ok ((), w) := by
    show Signal.reconcileNode _ id w = _
    unfold Signal.reconcileNode
    rw [graph_bind_run]
    simp only [hcell]
    split <;> rfl
  unfold Signal.Rules.read
  rw [bind_run hreconcile]
  rfl

/-- A cell was written, and no other.  The signal `id` stands for it, and is read with `v` at the
    end of the path, or with a part there that it is not told apart from. -/
structure Edits (host : Host σ) (w w' : World Payload Step Choice σ) (id : SignalId)
    (path : List Value.PathSegment) (v : Value) : Prop where
  cell : w.graph.IsCell (w'.graph.anchor id)
  others : ∀ j, j ≠ w'.graph.anchor id → w.graph.IsCell j →
    Graph.Heard (w.graph.node j) (w'.graph.node j)
  host_eq : w'.host = w.host
  read : ∃ u part,
    (∀ depth, (rules host (depth + 1)).toRules.read id w' = .ok (.ok (.plain u), w')) ∧
    u.at? path = some part ∧ (part = v ∨ part.same v = true)

/-- What is read after a write is what was written, or what was read before, if the two are not told
    apart. -/
theorem value_written {g : Signal.Graph Payload Step Choice} {u : Value}
    (hcell : (g.node (g.anchor id)).form = .cell) :
    (g.written (g.anchor id) (.ok (.plain u))).anchor id = g.anchor id ∧
      ∃ u', (g.written (g.anchor id) (.ok (.plain u))).value id = .ok (.plain u') ∧
        (u' = u ∨ g.value id = .ok (.plain u') ∧ u'.same u = true) := by
  have hanchor : (g.written (g.anchor id) (.ok (.plain u))).anchor id = g.anchor id := by
    refine Graph.anchor_congr ?_ (fun j => Graph.form_written hcell _ j) id
    unfold Graph.written
    split
    · rfl
    · exact g.size_retold _ _
  refine ⟨hanchor, ?_⟩
  unfold Graph.value Signal.Memo.read
  rw [hanchor, Graph.outcome_written hcell]
  cases hholds : (g.node (g.anchor id)).memo.holds (.ok (.plain u)) with
  | false =>
    rw [Signal.Memo.store_of_not_holds hholds]
    exact ⟨u, rfl, .inl rfl⟩
  | true =>
    rw [Signal.Memo.store_of_holds hholds]
    unfold Signal.Memo.holds at hholds
    split at hholds
    · rename_i last hlast
      cases last with
      | error e => cases hholds
      | ok q =>
        cases q with
        | plain u' => exact ⟨u', by rw [hlast]; rfl, .inr ⟨by rw [hlast]; rfl, hholds⟩⟩
        | list items => cases hholds
        | attempt o => cases o <;> cases hholds
    · cases hholds

/-- A written cell is read with the new part, if what it may be read as has this part. -/
theorem edits_of_write {u : Value} (hcell : (w.graph.node (w.graph.anchor id)).form = .cell)
    (hpart : ∀ u', u' = u ∨ w.graph.value id = .ok (.plain u') ∧ u'.same u = true →
      ∃ part, u'.at? path = some part ∧ (part = v ∨ part.same v = true)) :
    Edits host w (w.put (w.graph.written (w.graph.anchor id) (.ok (.plain u)))) id path v := by
  obtain ⟨hanchor, u', hvalue, hu'⟩ := value_written (u := u) hcell
  obtain ⟨part, hat, hsame⟩ := hpart u' hu'
  refine ⟨?_, fun j hj _ => ?_, rfl, u', part, fun depth => ?_, hat, hsame⟩
  · rw [World.put_graph, hanchor]
    exact hcell
  · rw [World.put_graph, hanchor] at hj
    exact w.graph.heard_written _ hj
  · rw [read_of_cell host _ depth, World.put_graph, hvalue]
    rw [World.put_graph, hanchor, Graph.form_written hcell]
    exact hcell

/-- Before the cell was written, no cell was. -/
theorem Edits.of_sparing (h : Edits host w₁ w' id path v) (hin : w.graph.In (silence K cell))
    (hin₁ : w₁.graph.In (silence K cell)) (hspare : Sparing cell w w₁) :
    Edits host w w' id path v where
  cell := (hin.cell _).mpr ((hin₁.cell _).mp h.cell)
  others j hj hcell := by
    have hheard := hspare.heard j ((hin.cell j).mp hcell)
    exact hheard.trans (h.others j hj (hheard.form_eq.trans hcell))
  host_eq := h.host_eq.trans hspare.host_eq
  read := h.read

theorem TidyCells.of_sparing (h : TidyCells K w) (hin : w.graph.In (silence K cell))
    (hin₁ : w₁.graph.In (silence K cell)) (hspare : Sparing cell w w₁) :
    TidyCells K w₁ := by
  intro c q hc hcell houtcome
  have hc' := (hin₁.cell c).mp hcell
  exact h c q hc ((hin.cell c).mpr hc') ((hspare.heard c hc').outcome?_eq.symm.trans houtcome)

/-- What a cell carries already is not written. -/
theorem written_value (hcells : TidyCells K w) (hid : K (w.graph.anchor id))
    (hcell : (w.graph.node (w.graph.anchor id)).form = .cell) {q : Payload}
    (hvalue : w.graph.value id = .ok q) :
    w.graph.written (w.graph.anchor id) (.ok (.plain q.value)) = w.graph := by
  have houtcome : (w.graph.node (w.graph.anchor id)).memo.outcome? = some (.ok q) := by
    unfold Graph.value Signal.Memo.read at hvalue
    cases ho : (w.graph.node (w.graph.anchor id)).memo.outcome? with
    | none =>
      rw [ho] at hvalue
      cases hvalue
    | some o =>
      rw [ho] at hvalue
      exact congrArg some hvalue
  obtain ⟨u, rfl, htidy⟩ := hcells _ q hid hcell houtcome
  have hholds : (w.graph.node (w.graph.anchor id)).memo.holds (.ok (.plain u)) = true := by
    unfold Signal.Memo.holds
    rw [houtcome]
    exact Value.same_self htidy
  unfold Graph.written
  exact if_pos hholds

/-- An assignment to a signal that fails has written no cell; one that succeeds has written one. -/
def Writes (K cell : SignalId → Prop) (host : Host σ) (w w' : World Payload Step Choice σ)
    (id : SignalId) (path : List Value.PathSegment) (v : Value) : Except EvalError Unit → Prop
  | .error _ => Sparing cell w w'
  | .ok _ => w'.graph.In (silence K cell) ∧ Edits host w w' id path v

theorem write_writes {result : Except EvalError Unit} (hin : w.graph.In (silence K cell))
    (hid : K id) (hv : Confined K v) (hrun : write (rules host depth) id v w = .ok (result, w')) :
    Writes K cell host w w' id [] v result := by
  rcases write_cases hin hid hrun with ⟨e, rfl, rfl⟩ | ⟨rfl, hcell, rfl⟩
  · exact .refl _
  · refine ⟨hin.written hcell (good_ok (Payload.within_plain.mpr hv)), edits_of_write hcell ?_⟩
    rintro u (rfl | ⟨-, hsame⟩)
    · exact ⟨u, rfl, .inl rfl⟩
    · exact ⟨u, rfl, .inr hsame⟩

theorem read_cases {result : Except EvalError Value} (hrun : read r id w = .ok (result, w')) :
    (∃ e, w'.graph.value id = .error e ∧ result = .error (.signal e)) ∨
      ∃ q, w'.graph.value id = .ok q ∧ result = .ok q.value := by
  unfold read at hrun
  rcases bind_cases hrun with ⟨e, hread, -⟩ | ⟨o, w₁, hread, hrest⟩
  · obtain ⟨_, -, hok⟩ := lift_cases hread
    cases hok
  obtain ⟨o', hread, hok⟩ := lift_cases hread
  cases hok
  unfold Signal.Rules.read at hread
  obtain ⟨_, w₂, -, hvalue⟩ := exists_of_bind hread
  cases hvalue
  cases hv : w₁.graph.value id with
  | error e =>
    rw [hv] at hrest
    cases hrest
    exact .inl ⟨e, hv, rfl⟩
  | ok q =>
    rw [hv] at hrest
    cases hrest
    exact .inr ⟨q, hv, rfl⟩

/-- An edit that fails writes what was read, which changes nothing. -/
theorem produce_writes {result : Except EvalError Unit} (hin : w.graph.In (silence K cell))
    (hcells : TidyCells K w) (hid : K id) (hv : Confined K v)
    (hrun : produce (rules host depth) id path v w = .ok (result, w')) :
    Writes K cell host w w' id path v result := by
  unfold produce at hrun
  have hread := (rules_spare K cell host depth).read hid
  rcases bind_cases hrun with ⟨e, hfail, rfl⟩ | ⟨draft, w₁, hdraft, hrun⟩
  · exact (hread hin hfail).2.1
  obtain ⟨hin₁, hspare₁, hdraftConfined⟩ := hread hin hdraft
  have hconfined := hdraftConfined draft rfl
  obtain ⟨q, hvalue, hq⟩ := (read_cases hdraft).resolve_left fun ⟨_, _, h⟩ => nomatch h
  cases hq
  rcases bind_cases hrun with ⟨e, hfresh, -⟩ | ⟨fresh, w₂, hfresh, hrun⟩
  · obtain ⟨_, -, hok⟩ := lift_cases hfresh
    cases hok
  obtain ⟨_, hfresh, hok⟩ := lift_cases hfresh
  cases hok
  obtain ⟨hin₂, hspare₂, -⟩ := spares_newIdentities _ hin₁ hfresh
  have hgraph : w₂.graph = w₁.graph := by
    cases hfresh
    rfl
  have hspare := hspare₁.trans hspare₂
  -- The draft is the outcome of the signal, so an edited copy of it is the only change.
  cases hset : q.value.setPath fresh path v (rules host depth).host.capacity with
  | ok edited =>
    rw [hset] at hrun
    have hedited : Confined K edited := hconfined.setPath hv hset
    rcases write_cases hin₂ hid hrun with ⟨e, rfl, rfl⟩ | ⟨rfl, hcell, rfl⟩
    · exact hspare
    · refine ⟨hin₂.written hcell (good_ok (Payload.within_plain.mpr hedited)), ?_⟩
      refine Edits.of_sparing (edits_of_write hcell ?_) hin hin₂ hspare
      rintro u (rfl | ⟨hlast, hsame⟩)
      · exact ⟨v, Value.at?_setPath hset, .inl rfl⟩
      · rw [hgraph, hvalue] at hlast
        cases hlast
        obtain ⟨part, hat, hpart⟩ := Value.exists_at?_of_same hset hsame
        exact ⟨part, hat, .inr hpart⟩
  | error e =>
    rw [hset] at hrun
    -- After a failed edit the draft is written back, and an equal write is ignored.
    have hfail (hrun : (do write (rules host depth) id q.value; throwException (.edit e) :
        EvalM σ Unit) w₂ = .ok (result, w')) : Writes K cell host w w' id path v result := by
      rcases bind_cases hrun with ⟨e', hwrite, rfl⟩ | ⟨_, w₃, hwrite, hrest⟩
      · rcases write_cases hin₂ hid hwrite with ⟨_, -, rfl⟩ | ⟨hok, -⟩
        · exact hspare
        · cases hok
      · cases hrest
        rcases write_cases hin₂ hid hwrite with ⟨_, hok, -⟩ | ⟨-, hcell, rfl⟩
        · cases hok
        · have hcells₂ := hcells.of_sparing hin hin₂ hspare
          rw [written_value hcells₂ (hin₂.anchor hid) hcell (by rw [hgraph, hvalue])]
          exact hspare
    cases e with
    | tooLong position => cases hrun
    | _ => exact hfail hrun

/-- Without a signal on the way nothing is written. -/
theorem assignInto_cases {cursor : Value} {result : Except EvalError Unit}
    (hrun : assignInto r cursor path v w = .ok (result, w')) :
    (∃ e, result = .error e ∧ w' = w) ∨ ∃ id rest, cursor.firstSignal? path = some (id, rest) ∧
      (if rest.isEmpty then write r id v w else produce r id rest v w) = .ok (result, w') := by
  induction path generalizing cursor with
  | nil =>
    cases cursor with
    | signal id => exact .inr ⟨id, [], rfl, hrun⟩
    | _ =>
      cases hrun
      exact .inl ⟨_, rfl, rfl⟩
  | cons segment rest ih =>
    cases hpart : cursor.child? segment with
    | none =>
      cases cursor with
      | signal id => exact .inr ⟨id, segment :: rest, rfl, hrun⟩
      | _ =>
        simp only [assignInto, hpart] at hrun
        cases hrun
        exact .inl ⟨_, rfl, rfl⟩
    | some part =>
      cases cursor with
      | signal id => cases hpart
      | _ =>
        simp only [assignInto, hpart] at hrun
        refine (ih hrun).imp_right fun ⟨id, rest', hfirst, hrun'⟩ => ⟨id, rest', ?_, hrun'⟩
        exact Option.bind_eq_some_iff.mpr ⟨part, hpart, hfirst⟩

/-! ### Assignments -/

/-- An assignment took place: its value was evaluated, then its place, then the first signal on the
    way to the place was written, and then the host was told. -/
inductive Assigned (host : Host σ) (depth : Nat) (p : Program) (target value : NodeId)
    (env : ValueEnv) (w : World Payload Step Choice σ) (v : Value)
    (w' : World Payload Step Choice σ) : Prop
  | intro {w₀ w₁ w₂ : World Payload Step Choice σ} {root : String}
      {path rest : List Value.PathSegment} {owner : Value} {id : SignalId}
      (hvalue : (do snapshot (rules host depth) (← (rules host depth).evaluate p value env) :
        EvalM σ Value) w = .ok (.ok v, w₀))
      (hplace : placePath (rules host depth) p env p.tree.depthLimit target w₀ =
        .ok (.ok (root, path), w₁))
      (howner : env.get? root = some owner)
      (hfirst : owner.firstSignal? path = some (id, rest))
      (hedits : Edits host w w₂ id rest v)
      (hreports : Reports host depth p target (root :: path.map Value.PathSegment.text) v w₂ w')

theorem host_rules (host : Host σ) (depth : Nat) : (rules host depth).host = host := by
  cases depth <;> rfl

/-- A host that wants to know is told once, after the written form of the value was found. -/
theorem report_cases {root : String} {result : Except EvalError Unit}
    (hrun : report (rules host depth) root path v w = .ok (result, w')) : result = .ok () ∧
      match host.save? with
      | none => w' = w
      | some save => ∃ json w₁,
          valueJson (rules host depth) Signal.depthLimit v w = .ok (json, w₁) ∧
            save (root :: path.map Value.PathSegment.text) json.compact w₁ = .ok ((), w') := by
  unfold report at hrun
  rw [host_rules] at hrun
  cases hsave : host.save? with
  | none =>
    rw [hsave] at hrun
    cases hrun
    exact ⟨rfl, rfl⟩
  | some save =>
    rw [hsave] at hrun
    rcases bind_cases hrun with ⟨e, hfail, -⟩ | ⟨json, w₁, hjson, hrest⟩
    · obtain ⟨_, -, hok⟩ := lift_cases hfail
      cases hok
    obtain ⟨_, hjson, hok⟩ := lift_cases hjson
    cases hok
    obtain ⟨_, hsaved, rfl⟩ := lift_cases hrest
    exact ⟨rfl, json, w₁, hjson, hsaved⟩

/-- What is left of an assignment once it has written. -/
theorem report_reports {root : String} {i : Interface} {result : Except EvalError Value}
    (hin : w.graph.In (silence K cell)) (hv : Confined K v)
    (hchecked : p.interfaces.get? target = some i) (hrun : (do
      if isCodePlace (← require p target) ∧ p.options.writeBack then
        report (rules host depth) root path v
      pure v : EvalM σ Value) w = .ok (result, w')) : result = .ok v ∧
        Reports host depth p target (root :: path.map Value.PathSegment.text) v w w' := by
  have hrequire : (require p target : EvalM σ Interface) w = .ok (.ok i, w) := by
    show Except.ok (p.interfaces.require target, w) = _
    unfold InterfaceMap.require
    rw [hchecked]
  rcases bind_cases hrun with ⟨e, hfail, -⟩ | ⟨i', w₁, hi', hrest⟩
  · rw [hrequire] at hfail
    cases hfail
  rw [hrequire] at hi'
  cases hi'
  unfold Reports listener?
  rw [hchecked, Option.any_some]
  by_cases htold : isCodePlace i = true ∧ p.options.writeBack = true
  · rw [if_pos htold] at hrest
    rw [if_pos (Bool.and_eq_true_iff.mpr htold)]
    rcases bind_cases hrest with ⟨e, hfail, -⟩ | ⟨_, w₂, hreport, hpure⟩
    · cases (report_cases hfail).1
    cases hpure
    obtain ⟨-, hreport⟩ := report_cases hreport
    refine ⟨rfl, ?_⟩
    cases hsave : host.save? with
    | none =>
      rw [hsave] at hreport
      exact hreport
    | some save =>
      rw [hsave] at hreport
      obtain ⟨json, w₁, hjson, hsaved⟩ := hreport
      have hspare := ((rules_spare K cell host depth).valueJson _ hv hin hjson).2.1
      have hcell : Sparing w.graph.IsCell w w₁ :=
        ⟨fun id hid => hspare.heard id ((hin.cell id).mp hid), hspare.host_eq⟩
      exact ⟨json, w₁, hjson, hcell, hsaved⟩
  · rw [if_neg htold] at hrest
    rw [if_neg (mt Bool.and_eq_true_iff.mp htold)]
    cases hrest
    exact ⟨rfl, rfl⟩

/-- An assignment without calls and further assignments takes place as a whole or not at all. -/
theorem assign_atomic {result : Except EvalError Value}
    (hsilent : SilentAssignment K p target value env)
    (hgraph : w.graph.In (silence K w.graph.IsCell)) (hcells : TidyCells K w)
    (hchecked : ∃ i, p.interfaces.get? target = some i)
    (hrun : assign (rules host depth) p target value env w = .ok (result, w')) :
    match result with
    | .error _ => Sparing w.graph.IsCell w w'
    | .ok v => Assigned host depth p target value env w v w' := by
  have hrules := rules_spare K w.graph.IsCell host depth
  have hvalue : Spared K w.graph.IsCell (do
      snapshot (rules host depth) (← (rules host depth).evaluate p value env) : EvalM σ Value)
      (Confined K) :=
    (hrules.evaluate p value env hsilent.value).bind fun _ hv => hrules.snapshot hv
  unfold assign at hrun
  rw [← bind_assoc] at hrun
  rcases bind_cases hrun with ⟨e, hfail, rfl⟩ | ⟨v, w₀, hv, hrun⟩
  · exact (hvalue hgraph hfail).2.1
  obtain ⟨hin₀, hspare₀, hconfined⟩ := hvalue hgraph hv
  have hplaces := hrules.placePath hsilent.index p.tree.depthLimit .target
  rcases bind_cases hrun with ⟨e, hfail, rfl⟩ | ⟨⟨root, path⟩, w₁, hplace, hrun⟩
  · exact hspare₀.trans (hplaces hin₀ hfail).2.1
  obtain ⟨hin₁, hspare₁, hroot⟩ := hplaces hin₀ hplace
  obtain ⟨x, hx, hname⟩ := hroot _ rfl
  have hspare := hspare₀.trans hspare₁
  simp only at hrun hname
  cases howner : env.get? root with
  | none =>
    rw [howner] at hrun
    cases hrun
    exact hspare
  | some owner =>
    rw [howner] at hrun
    have hownerConfined := hsilent.root x root owner hx hname howner
    have hcells₁ := hcells.of_sparing hgraph hin₁ hspare
    -- Whatever is written, it is at the first signal on the way.
    have hwrites {id : SignalId} {rest : List Value.PathSegment}
        (hfirst : owner.firstSignal? path = some (id, rest)) {written : Except EvalError Unit}
        {w₂ : World Payload Step Choice σ}
        (hrun : (if rest.isEmpty then write (rules host depth) id v w₁
          else produce (rules host depth) id rest v w₁) = .ok (written, w₂)) :
        Writes K w.graph.IsCell host w₁ w₂ id rest v written := by
      have hid := hownerConfined.firstSignal? hfirst
      split at hrun
      · rename_i hrest
        rw [List.isEmpty_iff.mp hrest]
        exact write_writes hin₁ hid (hconfined v rfl) hrun
      · exact produce_writes hin₁ hcells₁ hid (hconfined v rfl) hrun
    rcases bind_cases hrun with ⟨e, hfail, rfl⟩ | ⟨_, w₂, hinto, hrun⟩
    · rcases assignInto_cases hfail with ⟨_, -, rfl⟩ | ⟨id, rest, hfirst, hrun'⟩
      · exact hspare
      · exact hspare.trans (hwrites hfirst hrun')
    · rcases assignInto_cases hinto with ⟨_, hok, -⟩ | ⟨id, rest, hfirst, hrun'⟩
      · cases hok
      · obtain ⟨hin₂, hedits⟩ := hwrites hfirst hrun'
        obtain ⟨i, hi⟩ := hchecked
        obtain ⟨rfl, hreports⟩ := report_reports hin₂ (hconfined v rfl) hi hrun
        exact .intro hv hplace howner hfirst (hedits.of_sparing hgraph hin₁ hspare) hreports

/-- A host that keeps what it is told. -/
def ledger : Host (List (List String × String)) where
  native name _ := throwException (.stated name)
  save? := some fun path text => Signal.updateHost fun told => told ++ [(path, text)]

/-- The place `o.n` of a binding of the document's own source, and a text. -/
def fieldEdit : Program where
  tree := ⟨#[⟨default, .identifier "o"⟩, ⟨default, .member 0 "n"⟩,
    ⟨default, .literal (.string "b")⟩]⟩
  interfaces := ⟨#[
    some (.ok { ty := .object [⟨"n", .string⟩], dynamic := true, mutable? := some .code }),
    some (.ok { ty := .string, dynamic := true, mutable? := some .code }),
    some (.ok (.fixed .string))]⟩

/-- One cell, with an object. -/
def fieldWorld : World Payload Step Choice (List (List String × String)) :=
  ⟨(({} : Graph Payload Step Choice).cell (.ok (.plain (.object 0 [("n", .string "a")])))).2, 1, []⟩

theorem node_fieldWorld (id : SignalId) : fieldWorld.graph.node id = if id = 0 then
    { form := .cell, memo := .given (.ok (.plain (.object 0 [("n", .string "a")]))) }
    else Graph.unresolved := by
  show (Graph.add _ _).2.node id = _
  rw [Graph.node_add]
  rfl

/-- `o.n = "b"`. -/
theorem assign_atomic_field : ∃ w',
    assign (rules ledger 3) fieldEdit 1 2 ⟨[("o", .signal 0)]⟩ fieldWorld =
      .ok (.ok (.string "b"), w') ∧
    w'.host = [(["o", "n"], "\"b\"")] ∧
    Assigned ledger 3 fieldEdit 1 2 ⟨[("o", .signal 0)]⟩ fieldWorld (.string "b") w' := by
  have hconfined (v : Value) : Confined (fun _ => True) v :=
    ⟨fun _ _ => trivial, fun _ _ => trivial⟩
  have hleaf (x : NodeId) (hx : fieldEdit.tree.Immediate 2 x) : x = 2 := by
    induction hx with
    | root => rfl
    | child _ hkind _ hchild ih =>
      subst ih
      cases hkind
      cases hchild
  have hplace (x : NodeId) (hx : OnPlace fieldEdit.tree 1 x) : x = 1 ∨ x = 0 := by
    induction hx with
    | target => exact .inl rfl
    | member _ hkind ih => rcases ih with rfl | rfl <;> cases hkind; exact .inr rfl
    | index _ hkind ih => rcases ih with rfl | rfl <;> cases hkind
  have hsilent : SilentAssignment (fun _ => True) fieldEdit 1 2 ⟨[("o", .signal 0)]⟩ := by
    refine ⟨⟨fun x kind hx hkind => ?_, fun _ v _ _ => hconfined v⟩, fun x _ _ hx hkind => ?_,
      fun _ _ v _ _ _ => hconfined v⟩
    · rw [hleaf x hx] at hkind
      cases hkind
      exact id
    · rcases hplace x hx with rfl | rfl <;> cases hkind
  have hgraph : fieldWorld.graph.In (silence (fun _ => True) fieldWorld.graph.IsCell) := by
    refine ⟨fun id _ => ?_, fun _ _ => trivial, fun _ => Iff.rfl⟩
    rw [node_fieldWorld]
    split
    · refine ⟨⟨?_, nofun⟩, nofun, nofun, nofun, nofun⟩
      rintro _ ⟨⟩
      exact good_ok (Payload.within_plain.mpr (hconfined _))
    · exact Signal.Node.in_unresolved
  have hcells : TidyCells (fun _ => True) fieldWorld := by
    intro c q _ _ houtcome
    rw [node_fieldWorld] at houtcome
    split at houtcome
    · cases houtcome
      exact ⟨_, rfl, List.nodup_singleton _, trivial, trivial⟩
    · cases houtcome
  obtain ⟨w', hrun, hhost⟩ : ∃ w',
      assign (rules ledger 3) fieldEdit 1 2 ⟨[("o", .signal 0)]⟩ fieldWorld =
        .ok (.ok (.string "b"), w') ∧ w'.host = [(["o", "n"], "\"b\"")] :=
    ⟨_, rfl, rfl⟩
  exact ⟨w', hrun, hhost, assign_atomic hsilent hgraph hcells ⟨_, rfl⟩ hrun⟩

/-- The places `d[s]` and `d`, with a text and an array to assign.  What `s` stands for assigns to
    `c`.  The last node, `d` once more, was not checked. -/
def steppedEdit : Program where
  tree := ⟨#[⟨default, .identifier "c"⟩, ⟨default, .literal (.string "b")⟩,
    ⟨default, .assignment 0 1⟩, ⟨default, .literal (.string "x")⟩, ⟨default, .identifier "d"⟩,
    ⟨default, .identifier "s"⟩, ⟨default, .index 4 5⟩, ⟨default, .array []⟩,
    ⟨default, .identifier "d"⟩]⟩
  interfaces := ⟨#[some (.ok { ty := .string, dynamic := true, mutable? := some .code }),
    some (.ok (.fixed .string)), some (.ok (.fixed .string)), some (.ok (.fixed .string)),
    some (.ok { ty := .array .string, dynamic := true, mutable? := some .code }),
    some (.ok { ty := .string, dynamic := true }), some (.ok (.fixed .string)),
    some (.ok (.fixed (.array .string))), none]⟩

/-- The cells of `c` and `d`, and a signal that assigns when it is read. -/
def steppedEnv : ValueEnv := ⟨[("s", .signal 3), ("d", .signal 2), ("c", .signal 0)]⟩

/-- The cells of `c` and `d`, a cell in between, and the signal of `s`: while that cell is true,
    `c = "b"` and otherwise `"x"`. -/
def steppedWorld : World Payload Step Choice (List (List String × String)) :=
  let cells := [.string "a", .boolean true, .array 0 []].foldl
    (fun g v => (g.cell (.ok (.plain v))).2) ({} : Graph Payload Step Choice)
  ⟨(cells.flatMap 1 (.conditional steppedEdit 2 3 steppedEnv)).2, 1, []⟩

/-- Where a signal that is read on the way assigns, that assignment stays although the one that read
    it fails.  An array that equals the one before is not kept, and an assignment to a place that
    was not checked fails when it has written. -/
theorem assign_partial :
    (steppedEdit.tree.kind 6 = .ok (.index 4 5) ∧
      steppedEdit.tree.kind 5 = .ok (.identifier "s") ∧
      steppedEdit.tree.kind 1 = .ok (.literal (.string "b")) ∧
      steppedWorld.graph.value 0 = .ok (.plain (.string "a")) ∧
      ∃ w', assign (rules ledger 9) steppedEdit 6 1 steppedEnv steppedWorld =
          .ok (.error (.runtime (.edit (.noPart "b" "object"))), w') ∧
        w'.graph.value 0 = .ok (.plain (.string "b")) ∧ w'.host = [(["c"], "\"b\"")]) ∧
    (∃ w', assign (rules ledger 9) steppedEdit 4 7 steppedEnv steppedWorld =
        .ok (.ok (.array 1 []), w') ∧
      w'.graph.value 2 = .ok (.plain (.array 0 [])) ∧
      (Value.array 0 []).strictEquals (.array 1 []) = false) ∧
    ∃ w', assign (rules ledger 9) steppedEdit 8 1 steppedEnv steppedWorld =
        .ok (.error (.internal (.noInterface 8)), w') ∧
      w'.graph.value 2 = .ok (.plain (.string "b")) :=
  ⟨⟨rfl, rfl, rfl, by cbv, _, show _ = Except.ok (_, _) by cbv, by cbv, by cbv⟩,
    ⟨_, show _ = Except.ok (_, _) by cbv, by cbv, rfl⟩, _, show _ = Except.ok (_, _) by cbv, by cbv⟩

end Eval

end ReactiveDoc
