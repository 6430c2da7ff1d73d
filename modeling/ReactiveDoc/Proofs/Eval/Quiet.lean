import ReactiveDoc.Proofs.Check.Steady
import ReactiveDoc.Proofs.Eval.Plain

namespace ReactiveDoc.Eval

/-!
# Evaluations that touch nothing

* `SameQuietly` — two evaluations end alike and change nothing but the number of identities.
* `SameQuietly.bind`, `SameQuietly.mapM` — sequences of such evaluations.
* `assemble_sameQuietly` — putting plain values together, unless it calls a function.
-/

open Check (Steady)
open Signal (World)

variable {σ α β : Type}

/-- From worlds in which equally many identities have been given out the evaluations end with the
    same fault or the same result, and change nothing but this number.  A value that they end with
    satisfies `Q`. -/
def SameQuietly (x y : EvalM σ α) (Q : α → Prop) : Prop :=
  ∀ w w' : World Payload Step Choice σ, w.identities = w'.identities →
    (∃ fault, x w = .error fault ∧ y w' = .error fault) ∨
    ∃ result n, x w = .ok (result, { w with identities := n }) ∧
      y w' = .ok (result, { w' with identities := n }) ∧ ∀ a, result = .ok a → Q a

section

variable {Q : α → Prop} {R : β → Prop} {x y : EvalM σ α}

theorem sameQuietly_pure {a : α} (h : Q a) : SameQuietly (pure a : EvalM σ α) (pure a) Q := by
  rintro ⟨g, n, s⟩ ⟨g', n', s'⟩ hn
  obtain rfl : n = n' := hn
  refine .inr ⟨.ok a, n, rfl, rfl, ?_⟩
  rintro _ ⟨⟩
  exact h

theorem sameQuietly_throw (e : EvalError) :
    SameQuietly (throw e : EvalM σ α) (throw e) Q := by
  rintro ⟨g, n, s⟩ ⟨g', n', s'⟩ hn
  obtain rfl : n = n' := hn
  exact .inr ⟨.error e, n, rfl, rfl, fun _ h => nomatch h⟩

theorem sameQuietly_throwFault (fault : Fault) :
    SameQuietly (throwFault fault : EvalM σ α) (throwFault fault) Q :=
  fun _ _ _ => .inl ⟨fault, rfl, rfl⟩

/-- A first step that ends with a value is followed by the second one. -/
theorem bind_run_ok {f : α → EvalM σ β} {w w' : World Payload Step Choice σ} {a : α}
    (h : x w = .ok (.ok a, w')) : (x >>= f) w = f a w' := by
  show (StateT.bind x _ : SignalM σ (Except EvalError β)) w = _
  unfold StateT.bind
  rw [h]
  rfl

theorem bind_run_error {f : α → EvalM σ β} {w w' : World Payload Step Choice σ} {e : EvalError}
    (h : x w = .ok (.error e, w')) : (x >>= f) w = .ok (.error e, w') := by
  show (StateT.bind x _ : SignalM σ (Except EvalError β)) w = _
  unfold StateT.bind
  rw [h]
  rfl

theorem bind_run_fault {f : α → EvalM σ β} {w : World Payload Step Choice σ} {fault : Fault}
    (h : x w = .error fault) : (x >>= f) w = .error fault := by
  show (StateT.bind x _ : SignalM σ (Except EvalError β)) w = _
  unfold StateT.bind
  rw [h]
  rfl

theorem SameQuietly.bind {f g : α → EvalM σ β} (h : SameQuietly x y Q)
    (hfg : ∀ a, Q a → SameQuietly (f a) (g a) R) : SameQuietly (x >>= f) (y >>= g) R := by
  intro w w' hw
  rcases h w w' hw with ⟨fault, hx, hy⟩ | ⟨result, n, hx, hy, hQ⟩
  · exact .inl ⟨fault, bind_run_fault hx, bind_run_fault hy⟩
  · cases result with
    | error e =>
      exact .inr ⟨.error e, n, bind_run_error hx, bind_run_error hy, fun _ h => nomatch h⟩
    | ok a =>
      rw [bind_run_ok hx, bind_run_ok hy]
      exact hfg a (hQ a rfl) _ _ rfl

theorem SameQuietly.mono {Q' : α → Prop} (h : SameQuietly x y Q) (hQ : ∀ a, Q a → Q' a) :
    SameQuietly x y Q' := by
  intro w w' hw
  rcases h w w' hw with hfault | ⟨result, n, hx, hy, hQa⟩
  · exact .inl hfault
  · exact .inr ⟨result, n, hx, hy, fun a ha => hQ a (hQa a ha)⟩

/-- The value is one that the first evaluation ends with. -/
theorem SameQuietly.given (h : SameQuietly x y Q) :
    SameQuietly x y fun a => Q a ∧ ∃ w w', x w = .ok (.ok a, w') := by
  intro w w' hw
  rcases h w w' hw with hfault | ⟨result, n, hx, hy, hQ⟩
  · exact .inl hfault
  · exact .inr ⟨result, n, hx, hy, fun a ha => ⟨hQ a ha, w, _, ha ▸ hx⟩⟩

theorem sameQuietly_lookUp (e : Except Fault α) :
    SameQuietly (lookUp e : EvalM σ α) (lookUp e) fun a => e = .ok a := by
  cases e with
  | error fault => exact fun _ _ _ => .inl ⟨fault, rfl, rfl⟩
  | ok a => exact sameQuietly_pure rfl

theorem sameQuietly_newIdentity :
    SameQuietly (lift newIdentity : EvalM σ Identity) (lift newIdentity) fun _ => True := by
  rintro ⟨g, n, s⟩ ⟨g', n', s'⟩ hn
  obtain rfl : n = n' := hn
  exact .inr ⟨.ok n, n + 1, rfl, rfl, fun _ _ => trivial⟩

theorem SameQuietly.mapM {γ : Type} {S : γ → α → Prop} {f g : γ → EvalM σ α} {cs : List γ}
    (h : ∀ c ∈ cs, SameQuietly (f c) (g c) (S c)) :
    SameQuietly (cs.mapM f) (cs.mapM g) (List.Forall₂ S cs) := by
  induction cs with
  | nil => exact sameQuietly_pure .nil
  | cons c cs ih =>
    rw [List.mapM_cons, List.mapM_cons]
    refine (h c List.mem_cons_self).bind fun a ha => ?_
    refine (ih fun c' hc' => h c' (List.mem_cons_of_mem c hc')).bind fun as has => ?_
    exact sameQuietly_pure (.cons ha has)

end

/-! ### Putting values together -/

theorem dynamicSlots_of_plain (p : Program) (nodes : List NodeId) {values : List Value}
    (h : ∀ v ∈ values, v.Plain) : dynamicSlots p nodes values = [] := by
  unfold dynamicSlots
  refine List.filterMap_eq_nil_iff.mpr ?_
  rintro ⟨⟨node, v⟩, slot⟩ hmem
  have hv : v ∈ values := by
    obtain ⟨hlt, hget⟩ := List.mem_zipIdx' hmem
    have := List.of_mem_zip (hget ▸ List.getElem_mem hlt)
    exact this.2
  cases v with
  | signal id => exact absurd rfl (h _ hv id)
  | _ => rfl

theorem plain_unary (op : UnaryOp) (a : Value) : (a.unary op).Plain := by
  cases op <;> exact fun _ h => nomatch h

theorem plain_binary (op : BinaryOp) (a b : Value) : (a.binary op b).Plain := by
  cases op with
  | add =>
    show (a.add b).Plain
    unfold Value.add
    split <;> exact fun _ h => nomatch h
  | _ => exact fun _ h => nomatch h

theorem require_sameQuietly {p : Program} {node : NodeId} {interface : Interface}
    (h : p.interfaces.get? node = some interface) :
    SameQuietly (require p node : EvalM σ Interface) (require p node) (· = interface) := by
  unfold require InterfaceMap.require
  rw [h]
  exact sameQuietly_pure rfl

/-- A node without an error has not failed. -/
theorem isFailed_sameQuietly {p : Program} {node : NodeId} (h : Steady p.interfaces node)
    (hok : ∀ e, p.interfaces.get? node ≠ some (.error e)) :
    SameQuietly (isFailed p node : EvalM σ Bool) (isFailed p node) (· = false) := by
  obtain ⟨interface, hget, -⟩ := h
  refine (require_sameQuietly hget).bind fun held heq => sameQuietly_pure ?_
  rw [heq]
  cases interface with
  | error e => exact absurd hget (hok e)
  | ok typing => rfl

/-- The entries of an object are those of its properties. -/
theorem entriesOf_sameQuietly (p : Program) (properties : List NodeId) :
    SameQuietly (entriesOf p properties : EvalM σ (List (String × NodeId)))
      (entriesOf p properties) fun entries => ∀ e ∈ entries, ∃ property ∈ properties,
        p.tree.kind property = .ok (.property e.1 e.2) := by
  refine (sameQuietly_lookUp _).bind fun kinds hkinds => sameQuietly_pure fun e he => ?_
  obtain ⟨kind, hkind, hentry⟩ := List.mem_filterMap.mp he
  obtain ⟨i, hi⟩ := List.getElem?_of_mem hkind
  obtain ⟨property, hproperty, hok⟩ := (getElem?_of_mapM_ok hkinds).mp hi
  refine ⟨property, List.mem_of_getElem? hproperty, ?_⟩
  cases kind with
  | property key value =>
    cases hentry
    exact hok
  | _ => cases hentry

/-- Only calls and the reading of parts do more than make a value. -/
theorem assemble_sameQuietly (r : Rules σ) {recipe : Recipe} {values : List Value}
    (hcall : recipe ≠ .call)
    (hindex : recipe = .index →
      ((values.getD 0 .undefined).index (values.getD 1 .undefined)).Plain) :
    SameQuietly (assemble r recipe values) (assemble r recipe values) Value.Plain := by
  cases recipe with
  | object keys =>
    exact sameQuietly_newIdentity.bind fun _ _ => sameQuietly_pure fun _ h => nomatch h
  | array => exact sameQuietly_newIdentity.bind fun _ _ => sameQuietly_pure fun _ h => nomatch h
  | unary op => exact sameQuietly_pure (plain_unary op _)
  | binary op => exact sameQuietly_pure (plain_binary op _ _)
  | index => exact sameQuietly_pure (hindex rfl)
  | call => exact absurd rfl hcall
  | element tag keys =>
    exact sameQuietly_newIdentity.bind fun _ _ => sameQuietly_pure fun _ h => nomatch h

/-- A plain value that is not to change over time stays as it is. -/
theorem conform_of_plain (r : Rules σ) {v : Value} (h : v.Plain) : conform r v false = pure v := by
  cases v with
  | signal id => exact absurd rfl (h id)
  | _ => rfl

end ReactiveDoc.Eval
