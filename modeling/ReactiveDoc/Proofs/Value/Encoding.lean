import ReactiveDoc.Proofs.Eval.Assigning

namespace ReactiveDoc

/-!
# Values and their written forms

Writing a value forgets what JSON has no form for, and reads its signals.  What is written is sorted
and has no form that reading would change, so that it is written again as it is.

* `Json.ascending_sortedFields`, `Json.sortedFields_eq_self` — sorted fields, once and again.
* `Json.Settled` — the written forms of values; `Value.toJsonWith_settled` — they are so.
* `Value.toJsonWith_finishes` — a value is written if its signals can be read.
* `Value.toJsonWith_ofJson` — a value that was read from a written form is written so again.
* `Value.Storable` — values that JSON has a form for; `Value.same_ofJson` — they are read as they
  were written, with identities of their own.
* `Eval.valueJson_stable` — all this of the written form of a value whose signals are read.
-/

namespace Json

variable {α β : Type} {fields : List (String × α)}

/-! ### Sorted fields -/

/-- The fields have different keys, in the order of their code points. -/
def Ascending (fields : List (String × α)) : Prop :=
  (fields.map Prod.fst).Pairwise fun a b => a ≤ b ∧ a ≠ b

/-- The last of the fields with each key, in the order of these. -/
private def latest (kept fields : List (String × α)) : List (String × α) :=
  fields.foldl (fun kept (key, a) => kept.filter (fun f => f.1 != key) ++ [(key, a)]) kept

private theorem nodup_latest {kept : List (String × α)} (h : (kept.map Prod.fst).Nodup) :
    ((latest kept fields).map Prod.fst).Nodup := by
  induction fields generalizing kept with
  | nil => exact h
  | cons f fields ih =>
    refine ih ?_
    rw [List.map_append, List.nodup_append]
    refine ⟨h.sublist (List.filter_sublist.map Prod.fst), List.nodup_singleton _, ?_⟩
    rintro _ hkey _ hlast rfl
    obtain ⟨g, hg, rfl⟩ := List.mem_map.mp hkey
    have hne := (List.mem_filter.mp hg).2
    rw [List.mem_singleton.mp hlast] at hne
    simp at hne

private theorem mem_latest {kept : List (String × α)} {f : String × α}
    (h : f ∈ latest kept fields) : f ∈ kept ∨ f ∈ fields := by
  induction fields generalizing kept with
  | nil => exact .inl h
  | cons g fields ih =>
    rcases ih h with h | h
    · rcases List.mem_append.mp h with h | h
      · exact .inl (List.mem_of_mem_filter h)
      · exact .inr (List.mem_singleton.mp h ▸ List.mem_cons_self)
    · exact .inr (List.mem_cons_of_mem _ h)

private theorem latest_eq_append {kept : List (String × α)}
    (h : ((kept ++ fields).map Prod.fst).Nodup) : latest kept fields = kept ++ fields := by
  induction fields generalizing kept with
  | nil => exact (List.append_nil kept).symm
  | cons f fields ih =>
    have hkept : kept.filter (fun g => g.1 != f.1) = kept := by
      refine List.filter_eq_self.mpr fun g hg => ?_
      rw [List.map_append, List.map_cons, List.nodup_append] at h
      exact bne_iff_ne.mpr (h.2.2 _ (List.mem_map_of_mem hg) _ List.mem_cons_self)
    show latest (kept.filter (fun g => g.1 != f.1) ++ [f]) fields = _
    rw [hkept, ih (by rwa [List.append_assoc]), List.append_assoc]
    rfl

theorem mem_sortedFields {f : String × α} (h : f ∈ sortedFields fields) : f ∈ fields :=
  (mem_latest (List.mem_mergeSort.mp h)).resolve_left List.not_mem_nil

/-- Fields with different keys are all kept. -/
theorem sortedFields_perm (h : (fields.map Prod.fst).Nodup) :
    (sortedFields fields).Perm fields := by
  refine (List.mergeSort_perm _ _).trans ?_
  show (latest [] fields).Perm fields
  rw [latest_eq_append (by exact h)]
  exact List.Perm.refl _

theorem ascending_sortedFields : Ascending (sortedFields fields) := by
  have hnodup : ((sortedFields fields).map Prod.fst).Nodup :=
    ((List.mergeSort_perm _ _).map Prod.fst).nodup_iff.mpr (nodup_latest List.nodup_nil)
  have hsorted : ((sortedFields fields).map Prod.fst).Pairwise (· ≤ ·) := by
    refine List.pairwise_map.mpr ((List.pairwise_mergeSort ?_ ?_ _).imp of_decide_eq_true)
    · intro f g k hfg hgk
      exact decide_eq_true (String.le_trans (of_decide_eq_true hfg) (of_decide_eq_true hgk))
    · intro f g
      simpa using String.le_total f.1 g.1
  exact hsorted.and hnodup

/-- Sorted fields are left as they are. -/
theorem sortedFields_eq_self (h : Ascending fields) : sortedFields fields = fields := by
  have hnodup : (fields.map Prod.fst).Nodup := h.imp And.right
  show (latest [] fields).mergeSort _ = fields
  rw [latest_eq_append (by exact hnodup)]
  exact List.mergeSort_of_pairwise ((List.pairwise_map.mp h).imp fun hle => decide_eq_true hle.1)

/-! ### Written forms -/

mutual

/-- Every number is finite and no integer, and the fields of every object are sorted. -/
def Settled : Json → Prop
  | float x => x.isFinite = true
  | array items => SettledItems items
  | object fields => Ascending fields ∧ SettledFields fields
  | integer _ | unreadable => False
  | _ => True

/-- All items are so. -/
def SettledItems : List Json → Prop
  | [] => True
  | j :: js => j.Settled ∧ SettledItems js

/-- The contents of all fields are so. -/
def SettledFields : List (String × Json) → Prop
  | [] => True
  | (_, j) :: fields => j.Settled ∧ SettledFields fields

end

theorem settledFields_iff {fields : List (String × Json)} :
    SettledFields fields ↔ ∀ f ∈ fields, f.2.Settled := by
  induction fields with
  | nil => simp [SettledFields]
  | cons f fields ih => rw [SettledFields, ih, List.forall_mem_cons]

theorem settled_ofFloat (x : Float) : (ofFloat x).Settled := by
  unfold ofFloat
  split
  · assumption
  · trivial

/-- Sorting makes an object of settled fields settled. -/
theorem settled_sorted {fields : List (String × Json)} (h : SettledFields fields) :
    (object (sortedFields fields)).Settled := by
  rw [Settled, settledFields_iff]
  exact ⟨ascending_sortedFields, fun f hf => settledFields_iff.mp h f (mem_sortedFields hf)⟩

end Json

namespace Value

open Json (Settled SettledItems SettledFields Ascending sortedFields)

variable {σ : Type} {m : Type → Type} [Monad m] [LawfulMonad m] {v : Value} {fresh : Identity}

/-! ### What is written -/

theorem settled_elementJson {tag : String} {props : List (String × Json)} {children : List Json}
    (hprops : SettledFields props) (hchildren : SettledItems children) :
    (elementJson tag props children).Settled := by
  have hkeys : ["children", "props", "tag"].Pairwise fun a b => a ≤ b ∧ a ≠ b := by decide
  exact ⟨hkeys, hchildren, Json.settled_sorted hprops, trivial, trivial⟩

section

open Eval (Choice SignalM Step)

variable {I : Signal.Graph Payload Step Choice → Prop} {read : SignalId → SignalM σ Json}

mutual

/-- The written form of a value is settled if those of its signals are. -/
theorem toJsonWith_settled (h : ∀ id, Signal.Keeps I (read id) Settled) :
    ∀ v : Value, Signal.Keeps I (v.toJsonWith read) Settled
  | .undefined | .null | .function _ _ | .boolean _ | .string _ => Signal.keeps_pure trivial
  | .number x => Signal.keeps_pure (Json.settled_ofFloat x)
  | .array _ items => (itemsToJson_settled h items).bind fun _ hitems => Signal.keeps_pure hitems
  | .object _ fields => (fieldsToJson_settled h fields).bind fun _ hfields =>
      Signal.keeps_pure (Json.settled_sorted hfields)
  | .element _ _ props children =>
      (fieldsToJson_settled h props).bind fun _ hprops =>
        (itemsToJson_settled h children).bind fun _ hchildren =>
          Signal.keeps_pure (settled_elementJson hprops hchildren)
  | .signal id => h id

theorem itemsToJson_settled (h : ∀ id, Signal.Keeps I (read id) Settled) :
    ∀ items : List Value, Signal.Keeps I (itemsToJson read items) SettledItems
  | [] => Signal.keeps_pure trivial
  | v :: vs =>
      (toJsonWith_settled h v).bind fun _ hfirst =>
        (itemsToJson_settled h vs).bind fun _ hrest => Signal.keeps_pure ⟨hfirst, hrest⟩

theorem fieldsToJson_settled (h : ∀ id, Signal.Keeps I (read id) Settled) :
    ∀ fields : List (String × Value), Signal.Keeps I (fieldsToJson read fields) SettledFields
  | [] => Signal.keeps_pure trivial
  | (_, v) :: fs =>
      (toJsonWith_settled h v).bind fun _ hfirst =>
        (fieldsToJson_settled h fs).bind fun _ hrest => Signal.keeps_pure ⟨hfirst, hrest⟩

end

end

/-! ### Where writing finishes -/

section

open Eval (Choice SignalM Step)

variable {I : Signal.World Payload Step Choice σ → Prop} {read : SignalId → SignalM σ Json}

/-- A run finishes wherever a condition holds, and keeps it. -/
def Finishes {α : Type} (I : Signal.World Payload Step Choice σ → Prop) (x : SignalM σ α) : Prop :=
  ∀ w, I w → ∃ a w', x w = .ok (a, w') ∧ I w'

theorem finishes_pure {α : Type} (a : α) : Finishes I (pure a : SignalM σ α) :=
  fun w hw => ⟨a, w, rfl, hw⟩

theorem Finishes.bind {α β : Type} {x : SignalM σ α} {f : α → SignalM σ β} (hx : Finishes I x)
    (hf : ∀ a, Finishes I (f a)) : Finishes I (x >>= f) := by
  intro w hw
  obtain ⟨a, w₁, hrun, hw₁⟩ := hx w hw
  obtain ⟨b, w₂, hrest, hw₂⟩ := hf a w₁ hw₁
  exact ⟨b, w₂, (Signal.bind_run hrun).trans hrest, hw₂⟩

mutual

/-- A value is written if its signals can be read. -/
theorem toJsonWith_finishes : ∀ {v : Value}, (∀ id ∈ v.signals, Finishes I (read id)) →
    Finishes I (v.toJsonWith read)
  | .undefined, _ | .null, _ | .function _ _, _ => finishes_pure _
  | .boolean _, _ | .number _, _ | .string _, _ => finishes_pure _
  | .array _ _, h => (itemsToJson_finishes h).bind fun _ => finishes_pure _
  | .object _ _, h => (fieldsToJson_finishes h).bind fun _ => finishes_pure _
  | .element _ _ _ _, h =>
      (fieldsToJson_finishes fun id hid => h id (List.mem_append_left _ hid)).bind fun _ =>
        (itemsToJson_finishes fun id hid => h id (List.mem_append_right _ hid)).bind
          fun _ => finishes_pure _
  | .signal id, h => h id (List.mem_singleton_self id)

theorem itemsToJson_finishes : ∀ {items : List Value},
    (∀ id ∈ itemsSignals items, Finishes I (read id)) → Finishes I (itemsToJson read items)
  | [], _ => finishes_pure _
  | _ :: _, h =>
      (toJsonWith_finishes fun id hid => h id (List.mem_append_left _ hid)).bind fun _ =>
        (itemsToJson_finishes fun id hid => h id (List.mem_append_right _ hid)).bind
          fun _ => finishes_pure _

theorem fieldsToJson_finishes : ∀ {fields : List (String × Value)},
    (∀ id ∈ fieldsSignals fields, Finishes I (read id)) → Finishes I (fieldsToJson read fields)
  | [], _ => finishes_pure _
  | _ :: _, h =>
      (toJsonWith_finishes fun id hid => h id (List.mem_append_left _ hid)).bind fun _ =>
        (fieldsToJson_finishes fun id hid => h id (List.mem_append_right _ hid)).bind
          fun _ => finishes_pure _

end

end

/-! ### What is read -/

theorem keys_fieldsOfJson (fields : List (String × Json)) (fresh : Identity) :
    (fieldsOfJson fresh fields).1.map Prod.fst = fields.map Prod.fst := by
  induction fields generalizing fresh with
  | nil => rfl
  | cons f fields ih => exact congrArg (f.1 :: ·) (ih _)

/-- Every field is read from one of the same key. -/
theorem mem_fieldsOfJson {fields : List (String × Json)} {f : String × Value}
    (h : f ∈ (fieldsOfJson fresh fields).1) :
    ∃ g ∈ fields, f.1 = g.1 ∧ ∃ next, f.2 = (ofJson next g.2).1 := by
  induction fields generalizing fresh with
  | nil => cases h
  | cons g fields ih =>
    rcases List.mem_cons.mp h with rfl | h
    · exact ⟨g, List.mem_cons_self, rfl, fresh, rfl⟩
    · obtain ⟨g', hg', hf⟩ := ih h
      exact ⟨g', List.mem_cons_of_mem g hg', hf⟩

theorem ascending_fieldsOfJson {fields : List (String × Json)} (h : Ascending fields) :
    Ascending (fieldsOfJson fresh fields).1 := by
  rw [Ascending, keys_fieldsOfJson]
  exact h

section

variable (read : SignalId → m Json)

mutual

/-- What is read from a settled form is written in this form, and has no signals to read. -/
theorem toJsonWith_ofJson : ∀ {j : Json}, j.Settled → ∀ fresh,
    (ofJson fresh j).1.toJsonWith read = pure j
  | .null, _, _ | .bool _, _, _ | .string _, _, _ => rfl
  | .float x, h, _ => congrArg pure (if_pos h)
  | .array items, h, fresh => by
    show (do pure (Json.array (← itemsToJson read (itemsOfJson (fresh + 1) items).1))) = _
    rw [itemsToJson_itemsOfJson h, pure_bind]
  | .object fields, h, fresh => by
    rw [Settled] at h
    have hfields : Ascending (fieldsOfJson (fresh + 1) fields).1 := ascending_fieldsOfJson h.1
    show (do pure (Json.object (sortedFields (← fieldsToJson read
      (sortedFields (fieldsOfJson (fresh + 1) fields).1))))) = _
    rw [Json.sortedFields_eq_self hfields, fieldsToJson_fieldsOfJson h.2, pure_bind,
      Json.sortedFields_eq_self h.1]

theorem itemsToJson_itemsOfJson : ∀ {items : List Json}, SettledItems items → ∀ fresh,
    itemsToJson read (itemsOfJson fresh items).1 = pure items
  | [], _, _ => rfl
  | j :: js, h, fresh => by
    show (do
      let first ← (ofJson fresh j).1.toJsonWith read
      pure (first :: (← itemsToJson read (itemsOfJson (ofJson fresh j).2 js).1))) = _
    rw [toJsonWith_ofJson h.1, pure_bind, itemsToJson_itemsOfJson h.2, pure_bind]

theorem fieldsToJson_fieldsOfJson : ∀ {fields : List (String × Json)}, SettledFields fields →
    ∀ fresh, fieldsToJson read (fieldsOfJson fresh fields).1 = pure fields
  | [], _, _ => rfl
  | (key, j) :: js, h, fresh => by
    show (do
      let first ← (ofJson fresh j).1.toJsonWith read
      pure ((key, first) :: (← fieldsToJson read (fieldsOfJson (ofJson fresh j).2 js).1))) = _
    rw [toJsonWith_ofJson h.1, pure_bind, fieldsToJson_fieldsOfJson h.2, pure_bind]

end

end

/-! ### Values that JSON has a form for -/

mutual

/-- The value has no parts but nothing, booleans, finite numbers and texts, at any depth, and its
    objects have different keys. -/
def Storable : Value → Prop
  | null | boolean _ | string _ => True
  | number x => x.isFinite = true
  | array _ items => StorableItems items
  | object _ fields => (fields.map Prod.fst).Nodup ∧ StorableFields fields
  | _ => False

/-- Several values are so. -/
def StorableItems : List Value → Prop
  | [] => True
  | v :: vs => v.Storable ∧ StorableItems vs

/-- The values of fields are so. -/
def StorableFields : List (String × Value) → Prop
  | [] => True
  | (_, v) :: fields => v.Storable ∧ StorableFields fields

end

/-- A written form stands for a value: whatever identities it is read with, it equals the value. -/
def StandsFor (j : Json) (v : Value) : Prop := ∀ fresh, (ofJson fresh j).1.same v = true

theorem standsFor_array {i : Identity} {js : List Json} {items : List Value}
    (h : List.Forall₂ StandsFor js items) : StandsFor (.array js) (array i items) := by
  intro fresh
  show sameItems (itemsOfJson (fresh + 1) js).1 items = true
  generalize fresh + 1 = next
  induction h generalizing next with
  | nil => rfl
  | @cons j v js items hfirst _ ih =>
    show ((ofJson next j).1.same v && sameItems (itemsOfJson (ofJson next j).2 js).1 items) = true
    rw [hfirst next, ih]
    rfl

/-- The fields are sorted when they are written, and none of them is lost. -/
theorem standsFor_object {i : Identity} {js : List (String × Json)} {fields : List (String × Value)}
    (hkeys : (fields.map Prod.fst).Nodup)
    (h : List.Forall₂ (fun f g => f.1 = g.1 ∧ StandsFor f.2 g.2) js fields) :
    StandsFor (.object (sortedFields js)) (object i fields) := by
  intro fresh
  have hjs : (js.map Prod.fst).Nodup := by
    have hsame : js.map Prod.fst = fields.map Prod.fst := by
      induction h with
      | nil => rfl
      | cons hfirst _ ih =>
        rw [List.map_cons, List.map_cons, hfirst.1, ih (List.nodup_cons.mp hkeys).2]
    rwa [hsame]
  have hread : Ascending (fieldsOfJson (fresh + 1) (sortedFields js)).1 :=
    ascending_fieldsOfJson Json.ascending_sortedFields
  show (object fresh (sortedFields (fieldsOfJson (fresh + 1) (sortedFields js)).1)).same _ = true
  rw [Json.sortedFields_eq_self hread, same, Bool.and_eq_true, beq_iff_eq, sameFields_iff]
  constructor
  · rw [← List.length_map (f := Prod.fst), keys_fieldsOfJson, List.length_map,
      (Json.sortedFields_perm hjs).length_eq, h.length_eq]
  · intro f hf
    obtain ⟨g, hg, hkey, next, hvalue⟩ := mem_fieldsOfJson hf
    obtain ⟨field, hfield, hname, hstands⟩ := exists_right_of_mem h (Json.mem_sortedFields hg)
    refine ⟨field.2, ?_, hvalue ▸ hstands next⟩
    rw [hkey, hname]
    exact Keyed.lookup_of_mem hkeys hfield

section

variable (read : SignalId → m Json)

mutual

/-- Such a value is written without reading anything, and the written form stands for it. -/
theorem exists_toJsonWith : ∀ {v : Value}, v.Storable →
    ∃ j, v.toJsonWith read = pure j ∧ StandsFor j v
  | .null, _ => ⟨.null, rfl, fun _ => rfl⟩
  | .boolean b, _ => ⟨.bool b, rfl, fun _ => beq_self_eq_true b⟩
  | .string s, _ => ⟨.string s, rfl, fun _ => beq_self_eq_true s⟩
  | .number x, h => ⟨.float x, congrArg pure (if_pos h), fun _ => Number.same_refl x⟩
  | .array _ items, h => by
    obtain ⟨js, hjs, hstands⟩ := exists_itemsToJson h
    exact ⟨.array js, by rw [toJsonWith, hjs, pure_bind], standsFor_array hstands⟩
  | .object _ fields, h => by
    obtain ⟨js, hjs, hstands⟩ := exists_fieldsToJson h.2
    exact ⟨.object (sortedFields js), by rw [toJsonWith, hjs, pure_bind],
      standsFor_object h.1 hstands⟩

theorem exists_itemsToJson : ∀ {items : List Value}, StorableItems items →
    ∃ js, itemsToJson read items = pure js ∧ List.Forall₂ StandsFor js items
  | [], _ => ⟨[], rfl, .nil⟩
  | v :: vs, h => by
    obtain ⟨j, hj, hfirst⟩ := exists_toJsonWith h.1
    obtain ⟨js, hjs, hrest⟩ := exists_itemsToJson h.2
    exact ⟨j :: js, by rw [itemsToJson, hj, pure_bind, hjs, pure_bind], .cons hfirst hrest⟩

theorem exists_fieldsToJson : ∀ {fields : List (String × Value)}, StorableFields fields →
    ∃ js, fieldsToJson read fields = pure js ∧
      List.Forall₂ (fun f g => f.1 = g.1 ∧ StandsFor f.2 g.2) js fields
  | [], _ => ⟨[], rfl, .nil⟩
  | (key, v) :: fs, h => by
    obtain ⟨j, hj, hfirst⟩ := exists_toJsonWith h.1
    obtain ⟨js, hjs, hrest⟩ := exists_fieldsToJson h.2
    exact ⟨(key, j) :: js, by rw [fieldsToJson, hj, pure_bind, hjs, pure_bind],
      .cons ⟨rfl, hfirst⟩ hrest⟩

end

end

end Value

namespace Eval

open Value (Finishes Storable)

variable {σ : Type}

/-- The written form of what a signal has; it is `null` for an error. -/
def signalJson (r : Rules σ) (depth : Nat) (id : SignalId) : SignalM σ Json := do
  match ← r.toRules.read id with
  | .ok p => valueJson r depth p.value
  | .error _ => pure .null

/-- Reading signals on the way, a value is written in a settled form. -/
theorem valueJson_settled (r : Rules σ) (depth : Nat) (v : Value) :
    Signal.Keeps (fun _ => True) (valueJson r depth v) Json.Settled := by
  induction depth generalizing v with
  | zero => exact Signal.keeps_throw _
  | succ depth ih =>
    refine Value.toJsonWith_settled (fun id => ?_) v
    have hread : Signal.Keeps (fun _ => True) (r.toRules.read id) fun _ => True :=
      fun _ _ _ _ _ => ⟨trivial, trivial⟩
    refine hread.bind fun o _ => ?_
    cases o with
    | ok p => exact ih p.value
    | error e => exact Signal.keeps_pure trivial

/-- Values that JSON has a form for are read as they were written.  Every value is written if its
    signals can be read, and what is read from the written form is written so again, with no signal
    to read. -/
theorem valueJson_stable (r : Rules σ) (depth : Nat) (v : Value) :
    (v.Storable → ∀ w, ∃ j, valueJson r (depth + 1) v w = .ok (j, w) ∧
      ∀ fresh, (Value.ofJson fresh j).1.same v = true) ∧
    (∀ I, (∀ id ∈ v.signals, Finishes I (signalJson r depth id)) →
      Finishes I (valueJson r (depth + 1) v)) ∧
    ∀ w j w', valueJson r depth v w = .ok (j, w') → ∀ (r' : Rules σ) depth' fresh w₁,
      valueJson r' (depth' + 1) (Value.ofJson fresh j).1 w₁ = .ok (j, w₁) := by
  refine ⟨fun hv w => ?_, fun I hsignals => Value.toJsonWith_finishes hsignals,
    fun w j w' h r' depth' fresh w₁ => ?_⟩
  · obtain ⟨j, hj, hstands⟩ := Value.exists_toJsonWith (signalJson r depth) hv
    exact ⟨j, congrFun hj w, hstands⟩
  · have hsettled : j.Settled := (valueJson_settled r depth v trivial h).2
    exact congrFun (Value.toJsonWith_ofJson (signalJson r' depth') hsettled fresh) w₁

/-- An object of things that JSON has a form for, and an element with a signal and a function in it.
    The signal is the cell with the object `{n: "a"}`. -/
theorem valueJson_stable_element :
    (∃ j, valueJson (rules ledger 3) 1
        (.object 0 [("b", .array 1 [.number 1.5, .boolean true]), ("a", .null)]) fieldWorld =
        .ok (j, fieldWorld) ∧
      ∀ fresh, (Value.ofJson fresh j).1.same
        (.object 0 [("b", .array 1 [.number 1.5, .boolean true]), ("a", .null)]) = true) ∧
    Finishes (· = fieldWorld) (valueJson (rules ledger 3) 2
      (.element 0 "p" [("f", .function 1 (.native "f"))] [.signal 0])) ∧
    ∃ j, valueJson (rules ledger 3) 2
        (.element 0 "p" [("f", .function 1 (.native "f"))] [.signal 0]) fieldWorld =
        .ok (j, fieldWorld) ∧
      ∀ w, valueJson (rules ledger 3) 1 (Value.ofJson 0 j).1 w = .ok (j, w) := by
  have hrun : valueJson (rules ledger 3) 2
      (.element 0 "p" [("f", .function 1 (.native "f"))] [.signal 0]) fieldWorld =
      .ok (.object [("children", .array [.object [("n", .string "a")]]),
        ("props", .object [("f", .null)]), ("tag", .string "p")], fieldWorld) := by cbv
  have hread : Finishes (· = fieldWorld) (signalJson (rules ledger 3) 1 0) := by
    rintro _ rfl
    exact ⟨.object [("n", .string "a")], fieldWorld, by cbv, rfl⟩
  have hfinite : (1.5 : Float).isFinite = true := by decide +kernel
  have hstorable : Storable
      (.object 0 [("b", .array 1 [.number 1.5, .boolean true]), ("a", .null)]) :=
    ⟨by decide, ⟨hfinite, trivial, trivial⟩, trivial, trivial⟩
  refine ⟨(valueJson_stable (rules ledger 3) 0 _).1 hstorable fieldWorld, ?_, _, hrun, ?_⟩
  · refine (valueJson_stable (rules ledger 3) 1 _).2.1 _ fun id hid => ?_
    obtain rfl : id = 0 := List.mem_singleton.mp hid
    exact hread
  · exact (valueJson_stable (rules ledger 3) 2 _).2.2 _ _ _ hrun (rules ledger 3) 0 0

end Eval

end ReactiveDoc
