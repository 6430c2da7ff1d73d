import ReactiveDoc.Proofs.Traversal
import ReactiveDoc.Value.Edit
import ReactiveDoc.Value.Payload

namespace ReactiveDoc

/-!
# What values consist of

* `Closure`, `Value.closures` — a function that an arrow made; those in a value.
* `Value.Within` — all signals and all functions in a value satisfy a property.
* `Value.Within.member`, `Value.Within.index`, `Value.Within.child?`, `Value.Within.setPath` — then
  so do those in its parts, and in edited copies.
-/

/-- A function that an arrow made: its body, its parameters and the values in scope. -/
structure Closure where
  program : Program
  params : List String
  body : NodeId
  env : ValueEnv

namespace Value

mutual

/-- The functions in a value that arrows made, at any depth.  What a function captures does not
    count. -/
def closures : Value → List Closure
  | function _ (.closure program params body env) => [⟨program, params, body, env⟩]
  | array _ items => itemsClosures items
  | object _ fields => fieldsClosures fields
  | element _ _ props children => fieldsClosures props ++ itemsClosures children
  | _ => []

/-- The functions in several values. -/
def itemsClosures : List Value → List Closure
  | [] => []
  | v :: vs => v.closures ++ itemsClosures vs

/-- The functions in the values of fields. -/
def fieldsClosures : List (String × Value) → List Closure
  | [] => []
  | (_, v) :: fields => v.closures ++ fieldsClosures fields

end

/-- All signals in the value, and all functions in it, satisfy a property each. -/
structure Within (R : SignalId → Prop) (C : Closure → Prop) (v : Value) : Prop where
  signals : ∀ id ∈ v.signals, R id
  closures : ∀ c ∈ v.closures, C c

variable {R R' : SignalId → Prop} {C C' : Closure → Prop}

theorem Within.mono {v : Value} (h : v.Within R C) (hR : ∀ id, R id → R' id)
    (hC : ∀ c, C c → C' c) : v.Within R' C' :=
  ⟨fun id hid => hR id (h.signals id hid), fun c hc => hC c (h.closures c hc)⟩

/-! ### Each sort of value -/

/-- A value without signals and functions. -/
theorem within_of_nil {v : Value} (hsignals : v.signals = []) (hclosures : v.closures = []) :
    v.Within R C := by
  constructor
  · rw [hsignals]
    exact nofun
  · rw [hclosures]
    exact nofun

theorem within_undefined : undefined.Within R C := within_of_nil rfl rfl

theorem within_null : null.Within R C := within_of_nil rfl rfl

theorem within_number (x : Float) : (number x).Within R C := within_of_nil rfl rfl

theorem within_string (s : String) : (string s).Within R C := within_of_nil rfl rfl

theorem within_ofLiteral (l : Literal) : (ofLiteral l).Within R C := by
  cases l <;> exact within_of_nil rfl rfl

theorem within_signal {id : SignalId} : (signal id).Within R C ↔ R id :=
  ⟨fun h => h.signals id (List.mem_singleton_self _), fun h =>
    ⟨fun _ hid => List.mem_singleton.mp hid ▸ h, nofun⟩⟩

theorem within_closure {i : Identity} {c : Closure} :
    (function i (.closure c.program c.params c.body c.env)).Within R C ↔ C c :=
  ⟨fun h => h.closures c (List.mem_singleton_self _), fun h =>
    ⟨nofun, fun _ hc => List.mem_singleton.mp hc ▸ h⟩⟩

theorem mem_itemsSignals {items : List Value} {id : SignalId} :
    id ∈ itemsSignals items ↔ ∃ v ∈ items, id ∈ v.signals := by
  induction items with
  | nil => simp [itemsSignals]
  | cons v vs ih => simp [itemsSignals, ih]

theorem mem_fieldsSignals {fields : List (String × Value)} {id : SignalId} :
    id ∈ fieldsSignals fields ↔ ∃ f ∈ fields, id ∈ f.2.signals := by
  induction fields with
  | nil => simp [fieldsSignals]
  | cons f fs ih => simp [fieldsSignals, ih]

theorem mem_itemsClosures {items : List Value} {c : Closure} :
    c ∈ itemsClosures items ↔ ∃ v ∈ items, c ∈ v.closures := by
  induction items with
  | nil => simp [itemsClosures]
  | cons v vs ih => simp [itemsClosures, ih]

theorem mem_fieldsClosures {fields : List (String × Value)} {c : Closure} :
    c ∈ fieldsClosures fields ↔ ∃ f ∈ fields, c ∈ f.2.closures := by
  induction fields with
  | nil => simp [fieldsClosures]
  | cons f fs ih => simp [fieldsClosures, ih]

theorem within_array {i : Identity} {items : List Value} :
    (array i items).Within R C ↔ ∀ v ∈ items, v.Within R C := by
  constructor
  · exact fun h v hv => ⟨fun id hid => h.signals id (mem_itemsSignals.mpr ⟨v, hv, hid⟩),
      fun c hc => h.closures c (mem_itemsClosures.mpr ⟨v, hv, hc⟩)⟩
  · refine fun h => ⟨fun id hid => ?_, fun c hc => ?_⟩
    · obtain ⟨v, hv, hid⟩ := mem_itemsSignals.mp hid
      exact (h v hv).signals id hid
    · obtain ⟨v, hv, hc⟩ := mem_itemsClosures.mp hc
      exact (h v hv).closures c hc

theorem within_object {i : Identity} {fields : List (String × Value)} :
    (object i fields).Within R C ↔ ∀ f ∈ fields, f.2.Within R C := by
  constructor
  · exact fun h f hf => ⟨fun id hid => h.signals id (mem_fieldsSignals.mpr ⟨f, hf, hid⟩),
      fun c hc => h.closures c (mem_fieldsClosures.mpr ⟨f, hf, hc⟩)⟩
  · refine fun h => ⟨fun id hid => ?_, fun c hc => ?_⟩
    · obtain ⟨f, hf, hid⟩ := mem_fieldsSignals.mp hid
      exact (h f hf).signals id hid
    · obtain ⟨f, hf, hc⟩ := mem_fieldsClosures.mp hc
      exact (h f hf).closures c hc

/-- An element consists of what an object with its properties and an array of its children do. -/
theorem within_element {i : Identity} {tag : String} {props : List (String × Value)}
    {children : List Value} : (element i tag props children).Within R C ↔
      (∀ f ∈ props, f.2.Within R C) ∧ ∀ v ∈ children, v.Within R C := by
  rw [← within_object (i := i), ← within_array (i := i)]
  constructor
  · exact fun h => ⟨⟨fun id hid => h.signals id (List.mem_append_left _ hid),
        fun c hc => h.closures c (List.mem_append_left _ hc)⟩,
      ⟨fun id hid => h.signals id (List.mem_append_right _ hid),
        fun c hc => h.closures c (List.mem_append_right _ hc)⟩⟩
  · exact fun h => ⟨fun id hid => (List.mem_append.mp hid).elim (h.1.signals id) (h.2.signals id),
      fun c hc => (List.mem_append.mp hc).elim (h.1.closures c) (h.2.closures c)⟩

/-! ### Lists of values -/

theorem within_getD {values : List Value} (h : ∀ v ∈ values, v.Within R C) (i : Nat) :
    (values.getD i .undefined).Within R C := by
  rw [List.getD_eq_getElem?_getD]
  cases hget : values[i]? with
  | none => exact within_undefined
  | some v => exact h v (List.mem_of_getElem? hget)

theorem within_lookup {fields : List (String × Value)} (h : ∀ f ∈ fields, f.2.Within R C)
    {name : String} {v : Value} (hv : fields.lookup name = some v) : v.Within R C :=
  h (name, v) (mem_of_lookup hv)

theorem within_put {fields : List (String × Value)} (h : ∀ f ∈ fields, f.2.Within R C)
    (name : String) {v : Value} (hv : v.Within R C) :
    ∀ f ∈ Keyed.put fields name v, f.2.Within R C := by
  induction fields with
  | nil => exact List.forall_mem_cons.mpr ⟨hv, List.forall_mem_nil _⟩
  | cons f fs ih =>
    obtain ⟨hf, hfs⟩ := List.forall_mem_cons.mp h
    rw [Keyed.put]
    split
    · exact List.forall_mem_cons.mpr ⟨hv, hfs⟩
    · exact List.forall_mem_cons.mpr ⟨hf, ih hfs⟩

theorem within_ofEntries {fields : List (String × Value)} (h : ∀ f ∈ fields, f.2.Within R C) :
    ∀ f ∈ Keyed.ofEntries fields, f.2.Within R C := by
  -- The induction is on the entries that are left to put.
  have hput : ∀ kept : List (String × Value), (∀ f ∈ kept, f.2.Within R C) →
      ∀ f ∈ fields.foldl (fun kept (key, value) => Keyed.put kept key value) kept,
        f.2.Within R C := by
    induction fields with
    | nil => exact fun _ hkept => hkept
    | cons f fs ih =>
      obtain ⟨hf, hfs⟩ := List.forall_mem_cons.mp h
      exact fun kept hkept => ih hfs _ (within_put hkept f.1 hf)
  exact hput [] (List.forall_mem_nil _)

/-- The fields that keys and values make. -/
theorem within_zip (keys : List String) {values : List Value} (h : ∀ v ∈ values, v.Within R C) :
    ∀ f ∈ Keyed.ofEntries (keys.zip values), f.2.Within R C :=
  within_ofEntries fun f hf => h f.2 (List.of_mem_zip (a := f.1) (b := f.2) hf).2

/-! ### Parts -/

namespace Within

variable {v new : Value}

theorem member (h : v.Within R C) (name : String) : (v.member name).Within R C := by
  have hfield {fields : List (String × Value)} (hfields : ∀ f ∈ fields, f.2.Within R C) :
      ((fields.lookup name).getD .undefined).Within R C := by
    cases hlookup : fields.lookup name with
    | none => exact within_undefined
    | some part => exact within_lookup hfields hlookup
  cases v with
  | object i fields => exact hfield (within_object.mp h)
  | element i tag props children => exact hfield (within_element.mp h).1
  | string s =>
    simp only [Value.member]
    split
    · exact within_number _
    · exact within_undefined
  | array i items =>
    simp only [Value.member]
    split
    · exact within_number _
    · exact within_undefined
  | _ => exact within_undefined

theorem index (h : v.Within R C) (i : Value) : (v.index i).Within R C := by
  unfold Value.index
  split
  · rename_i items x
    cases hpart : (Number.toWhole? x).bind (items[·]?) with
    | none => exact within_undefined
    | some part =>
      obtain ⟨n, -, hn⟩ := Option.bind_eq_some_iff.mp hpart
      exact within_array.mp h part (List.mem_of_getElem? hn)
  · rename_i s x
    cases (Number.toWhole? x).bind (s.toList[·]?) with
    | none => exact within_undefined
    | some c => exact within_string _
  · exact h.member _
  · exact within_undefined

theorem child? (h : v.Within R C) {segment : PathSegment} {part : Value}
    (hpart : v.child? segment = some part) : part.Within R C := by
  unfold Value.child? at hpart
  split at hpart
  · exact within_lookup (within_object.mp h) hpart
  · exact within_array.mp h part (List.mem_of_getElem? hpart)
  · cases hpart

/-- What an edited copy consists of was there before, or is new. -/
theorem setPath {fresh : Identity} {path : List PathSegment} {edited : Value} {capacity : Nat}
    (h : v.Within R C) (hnew : new.Within R C) (hedited : v.setPath fresh path new capacity = .ok edited) :
    edited.Within R C := by
  induction path generalizing fresh v edited with
  | nil =>
    rw [Value.setPath] at hedited
    cases hedited
    exact hnew
  | cons segment rest ih =>
    unfold Value.setPath at hedited
    split at hedited
    · rename_i i fields name
      have hfields := within_object.mp h
      split at hedited
      · rename_i old hold
        cases hrest : old.setPath (fresh + 1) rest new capacity with
        | error e =>
          rw [hrest] at hedited
          cases hedited
        | ok part =>
          rw [hrest] at hedited
          cases hedited
          exact within_object.mpr
            (within_put hfields name (ih (within_lookup hfields hold) hrest))
      · split at hedited
        · cases hedited
          exact within_object.mpr (within_put hfields name hnew)
        · cases hedited
    · rename_i i items position
      have hitems := within_array.mp h
      split at hedited
      · rename_i old hold
        cases hrest : old.setPath (fresh + 1) rest new capacity with
        | error e =>
          rw [hrest] at hedited
          cases hedited
        | ok part =>
          rw [hrest] at hedited
          cases hedited
          have hpart := ih (hitems old (List.mem_of_getElem? hold)) hrest
          -- The other items were there before.
          refine within_array.mpr fun v' hv' => ?_
          rcases List.mem_or_eq_of_mem_set hv' with hv' | rfl
          · exact hitems v' hv'
          · exact hpart
      · split at hedited
        · cases hedited
        · split at hedited
          · cases hedited
          · cases hedited
            refine within_array.mpr fun v' hv' => ?_
            rcases List.mem_append.mp hv' with hv' | hv'
            · rcases List.mem_append.mp hv' with hv' | hv'
              · exact hitems v' hv'
              · rw [List.eq_of_mem_replicate hv']
                exact within_undefined
            · rw [List.mem_singleton.mp hv']
              exact hnew
    · cases hedited

end Within

/-- Operators make values without parts. -/
theorem within_unary (op : UnaryOp) (a : Value) : (a.unary op).Within R C := by
  cases op <;> exact within_of_nil rfl rfl

theorem within_binary (op : BinaryOp) (a b : Value) : (a.binary op b).Within R C := by
  cases op with
  | add =>
    show (a.add b).Within R C
    unfold Value.add
    split
    · exact within_string _
    · exact within_string _
    · exact within_number _
  | _ => exact within_of_nil rfl rfl

end Value

/-! ### What signals carry -/

/-- All plain values that are carried satisfy the properties. -/
def Payload.Within (R : SignalId → Prop) (C : Closure → Prop) (p : Payload) : Prop :=
  ∀ v ∈ p.values, v.Within R C

namespace Payload

variable {R R' : SignalId → Prop} {C C' : Closure → Prop} {p : Payload}

theorem Within.mono (h : p.Within R C) (hR : ∀ id, R id → R' id) (hC : ∀ c, C c → C' c) :
    p.Within R' C' :=
  fun v hv => (h v hv).mono hR hC

theorem within_plain {v : Value} : (plain v).Within R C ↔ v.Within R C := by
  simp [Within, values]

theorem Within.value (h : p.Within R C) : p.value.Within R C := by
  cases p with
  | plain v => exact within_plain.mp h
  | list items => exact Value.within_undefined
  | attempt outcome => exact Value.within_undefined

theorem within_list {items : List Payload} (h : ∀ p ∈ items, p.Within R C) :
    (list items).Within R C := by
  intro v hv
  obtain ⟨p, hp, hpv⟩ := List.mem_filterMap.mp hv
  cases p with
  | plain v' =>
    cases hpv
    exact within_plain.mp (h _ hp)
  | list _ => cases hpv
  | attempt _ => cases hpv

theorem within_attempt (outcome : Outcome Payload) : (attempt outcome).Within R C := nofun

end Payload

end ReactiveDoc
