import ReactiveDoc.Proofs.Value.Editing

namespace ReactiveDoc.Value

/-!
# Edits in place

A value is edited in place: on the way to the part that is replaced each container that others may
hold is copied, the copies stay where the edit fails further down, and an array grows before its new
item is written.

* `editInPlace` — what an edit makes of the value, and whether it succeeds.
* `editInPlace_agrees` — a successful edit makes the edited copy, and one that fails leaves the value
  as it was, but for identities; `same_of_forget` — it is then equal to what it was.
* `stored_editInPlace` — whatever else is stored stays as it is.
* `setPath_lawful` — the edit of a value at any path, as a whole.
-/

variable {v new left : Value} {fresh : Identity} {path : List PathSegment} {capacity : Nat}

/-- An edit in place: what becomes of the value, and whether the edit succeeds.  The identities
    `fresh`, `fresh + 1` and so on are those of the copies made on the way. -/
def editInPlace (fresh : Identity) (v : Value) (path : List PathSegment) (new : Value)
    (capacity : Nat) : Value × Except EditError Unit :=
  match path with
  | [] => (new, .ok ())
  | segment :: rest =>
      match v, segment with
      | object _ fields, .key name =>
          if rest.isEmpty then (object fresh (Keyed.put fields name new), .ok ())
          else
            match fields.lookup name with
            | some child =>
                let (left, result) := child.editInPlace (fresh + 1) rest new capacity
                (object fresh (Keyed.put fields name left), result)
            | none => (object fresh fields, .error (.missingField name))
      | array _ items, .index position =>
          if items.length ≤ position ∧ !rest.isEmpty then
            (array fresh items, .error (.outOfBounds position))
          else if items.length ≤ position ∧ NoRoom capacity position then
            (array fresh items, .error (.tooLong position))
          else
            let grown := padTo (position + 1) items
            let (left, result) :=
              (grown.getD position undefined).editInPlace (fresh + 1) rest new capacity
            (array fresh (grown.set position left), result)
      | other, segment => (other, .error (.noPart segment.text other.typeName))

/-! ### One step of an edit -/

theorem padTo_eq_self {n : Nat} {items : List Value} (h : n ≤ items.length) :
    padTo n items = items := by
  rw [padTo, Nat.sub_eq_zero_of_le h, List.replicate_zero, List.append_nil]

theorem padTo_succ {position : Nat} {items : List Value} (h : items.length ≤ position) :
    padTo (position + 1) items = padTo position items ++ [undefined] := by
  rw [padTo, padTo, Nat.succ_sub h, List.replicate_succ', List.append_assoc]

/-- The item that an array grows for is written behind the gap. -/
theorem set_padTo {position : Nat} {items : List Value} (h : items.length ≤ position) (x : Value) :
    (padTo (position + 1) items).set position x = padTo position items ++ [x] := by
  have hlength := length_padTo h
  rw [padTo_succ h, List.set_append_right _ _ (Nat.le_of_eq hlength), hlength, Nat.sub_self]
  rfl

theorem editInPlace_field {i : Identity} {fields : List (String × Value)} {name : String}
    {rest : List PathSegment} {child : Value} (h : fields.lookup name = some child) :
    (object i fields).editInPlace fresh (.key name :: rest) new capacity =
      (object fresh (Keyed.put fields name (child.editInPlace (fresh + 1) rest new capacity).1),
        (child.editInPlace (fresh + 1) rest new capacity).2) := by
  cases rest with
  | nil => simp [editInPlace]
  | cons segment rest =>
    rw [editInPlace]
    simp only [List.isEmpty_cons, Bool.false_eq_true, if_false, h]

theorem editInPlace_item {i : Identity} {items : List Value} {position : Nat}
    {rest : List PathSegment} {child : Value} (h : items[position]? = some child) :
    (array i items).editInPlace fresh (.index position :: rest) new capacity =
      (array fresh (items.set position (child.editInPlace (fresh + 1) rest new capacity).1),
        (child.editInPlace (fresh + 1) rest new capacity).2) := by
  obtain ⟨hlt, hchild⟩ := List.getElem?_eq_some_iff.mp h
  rw [editInPlace]
  simp only [Nat.not_le_of_lt hlt, false_and, if_false, padTo_eq_self (Nat.succ_le_of_lt hlt),
    List.getD_eq_getElem?_getD, h, Option.getD_some]

theorem editInPlace_newItem {i : Identity} {items : List Value} {position : Nat}
    (h : items.length ≤ position) (hroom : ¬ NoRoom capacity position) :
    (array i items).editInPlace fresh [.index position] new capacity =
      (array fresh (padTo position items ++ [new]), .ok ()) := by
  rw [editInPlace]
  simp [hroom, editInPlace, set_padTo h]

theorem editInPlace_noField {i : Identity} {fields : List (String × Value)} {name : String}
    {next : PathSegment} {rest : List PathSegment} (h : fields.lookup name = none) :
    (object i fields).editInPlace fresh (.key name :: next :: rest) new capacity =
      (object fresh fields, .error (.missingField name)) := by
  simp [editInPlace, h]

theorem editInPlace_outOfBounds {i : Identity} {items : List Value} {position : Nat}
    {next : PathSegment} {rest : List PathSegment} (h : items.length ≤ position) :
    (array i items).editInPlace fresh (.index position :: next :: rest) new capacity =
      (array fresh items, .error (.outOfBounds position)) := by
  simp [editInPlace, h]

theorem editInPlace_tooLong {i : Identity} {items : List Value} {position : Nat}
    (h : items.length ≤ position) (hroom : NoRoom capacity position) :
    (array i items).editInPlace fresh [.index position] new capacity =
      (array fresh items, .error (.tooLong position)) := by
  simp [editInPlace, h, hroom]

/-! ### Identities forgotten -/

mutual

/-- The value with the identities of its arrays and objects forgotten. -/
def forget : Value → Value
  | array _ items => array 0 (forgetItems items)
  | object _ fields => object 0 (forgetFields fields)
  | v => v

/-- Several values so. -/
def forgetItems : List Value → List Value
  | [] => []
  | v :: vs => v.forget :: forgetItems vs

/-- The values of fields so. -/
def forgetFields : List (String × Value) → List (String × Value)
  | [] => []
  | (key, v) :: fields => (key, v.forget) :: forgetFields fields

end

theorem forgetItems_set {items : List Value} {position : Nat} {old part : Value}
    (h : items[position]? = some old) (hpart : part.forget = old.forget) :
    forgetItems (items.set position part) = forgetItems items := by
  induction items generalizing position with
  | nil => rfl
  | cons v vs ih =>
    cases position with
    | zero =>
      obtain rfl : v = old := Option.some.inj h
      rw [List.set_cons_zero, forgetItems, forgetItems, hpart]
    | succ position =>
      rw [List.set_cons_succ, forgetItems, forgetItems, ih h]

theorem forgetFields_put {fields : List (String × Value)} {name : String} {old part : Value}
    (h : fields.lookup name = some old) (hpart : part.forget = old.forget) :
    forgetFields (Keyed.put fields name part) = forgetFields fields := by
  induction fields with
  | nil => cases h
  | cons field fields ih =>
    obtain ⟨key, v⟩ := field
    rw [List.lookup_cons] at h
    unfold Keyed.put
    by_cases hkey : key = name
    · subst hkey
      rw [beq_self_eq_true] at h
      obtain rfl : v = old := Option.some.inj h
      rw [if_pos rfl, forgetFields, forgetFields, hpart]
    · have hne : (name == key) = false := by simpa using Ne.symm hkey
      rw [hne] at h
      rw [if_neg hkey, forgetFields, forgetFields, ih h]

mutual

/-- A value with the contents of another one, in the same order, is equal to it. -/
theorem same_of_forget : ∀ {a b : Value}, a.forget = b.forget → b.Tidy → a.same b = true
  | array i xs, b, h, hb => by
    cases b with
    | array j ys =>
      simp only [forget, array.injEq, true_and] at h
      simp only [Tidy] at hb
      rw [same]
      exact sameItems_of_forget h hb
    | _ => simp [forget] at h
  | object i fs, b, h, hb => by
    cases b with
    | object j gs =>
      simp only [forget, object.injEq, true_and] at h
      simp only [Tidy] at hb
      have hfields := forall₂_of_forget h hb.2
      rw [same, hfields.length_eq, beq_self_eq_true, Bool.true_and]
      refine sameFields_iff.mpr fun f hf => ?_
      obtain ⟨g, hg, hkey, hsame⟩ := exists_right_of_mem hfields hf
      exact ⟨g.2, hkey ▸ Keyed.lookup_of_mem hb.1 hg, hsame⟩
    | _ => simp [forget] at h
  | undefined, b, h, _ | null, b, h, _ => by
    cases b <;> simp [forget, same] at h ⊢
  | boolean _, b, h, hb | number _, b, h, hb | string _, b, h, hb | signal _, b, h, hb
  | function _ _, b, h, hb | element _ _ _ _, b, h, hb => by
    cases b with
    | array | object => simp [forget] at h
    | _ =>
      simp only [forget] at h
      rw [h]
      exact same_self hb

theorem sameItems_of_forget : ∀ {xs ys : List Value}, forgetItems xs = forgetItems ys →
    itemsTidy ys → sameItems xs ys = true
  | [], ys, h, _ => by
    cases ys with
    | nil => rfl
    | cons => simp [forgetItems] at h
  | x :: xs, ys, h, hys => by
    cases ys with
    | nil => simp [forgetItems] at h
    | cons y ys =>
      simp only [forgetItems, List.cons.injEq] at h
      simp only [itemsTidy] at hys
      rw [sameItems, same_of_forget h.1 hys.1, sameItems_of_forget h.2 hys.2]
      rfl

theorem forall₂_of_forget : ∀ {fs gs : List (String × Value)}, forgetFields fs = forgetFields gs →
    fieldsTidy gs → List.Forall₂ (fun f g => f.1 = g.1 ∧ f.2.same g.2 = true) fs gs
  | [], gs, h, _ => by
    cases gs with
    | nil => exact .nil
    | cons => simp [forgetFields] at h
  | (key, x) :: fs, gs, h, hgs => by
    cases gs with
    | nil => simp [forgetFields] at h
    | cons g gs =>
      simp only [forgetFields, List.cons.injEq, Prod.mk.injEq] at h
      simp only [fieldsTidy] at hgs
      exact .cons ⟨h.1.1, same_of_forget h.1.2 hgs.1⟩ (forall₂_of_forget h.2 hgs.2)

end

/-! ### Success and failure -/

/-- The edit in place makes the edited copy of the value, or fails with the same error and leaves the
    value as it was but for identities. -/
def Agrees (v : Value) (copy : Except EditError Value) (edit : Value × Except EditError Unit) :
    Prop :=
  match copy with
  | .ok edited => edit = (edited, .ok ())
  | .error e => ∃ left, edit = (left, .error e) ∧ left.forget = v.forget

/-- What is true of the edit of a part is true of the edit of the container that holds it. -/
theorem Agrees.within {part : Value} {copy : Except EditError Value}
    {edit : Value × Except EditError Unit} (h : Agrees part copy edit) {hold : Value → Value}
    (hhold : ∀ x, x.forget = part.forget → (hold x).forget = v.forget) :
    Agrees v (copy >>= fun x => pure (hold x)) (hold edit.1, edit.2) := by
  cases copy with
  | ok edited =>
    obtain rfl : edit = (edited, .ok ()) := h
    exact rfl
  | error e =>
    obtain ⟨left, rfl, hleft⟩ := h
    exact ⟨hold left, rfl, hhold left hleft⟩

theorem editInPlace_agrees (fresh : Identity) (v : Value) (path : List PathSegment) (new : Value)
    (capacity : Nat) :
    Agrees v (v.setPath fresh path new capacity) (v.editInPlace fresh path new capacity) := by
  induction path generalizing v fresh with
  | nil => exact rfl
  | cons segment rest ih =>
    -- Both edits go into the same part, or end where the part is missing.
    cases segment with
    | key name =>
      cases v with
      | object i fields =>
        rw [setPath]
        cases hlookup : fields.lookup name with
        | some old =>
          rw [editInPlace_field hlookup]
          refine (ih (fresh + 1) old).within fun x hx => ?_
          rw [forget, forget, forgetFields_put hlookup hx]
        | none =>
          cases rest with
          | nil => exact rfl
          | cons next rest =>
            rw [editInPlace_noField hlookup]
            exact ⟨_, rfl, by rw [forget, forget]⟩
      | _ => exact ⟨_, rfl, rfl⟩
    | index position =>
      cases v with
      | array i items =>
        rw [setPath]
        cases hitem : items[position]? with
        | some old =>
          rw [editInPlace_item hitem]
          refine (ih (fresh + 1) old).within fun x hx => ?_
          rw [forget, forget, forgetItems_set hitem hx]
        | none =>
          have hle := List.getElem?_eq_none_iff.mp hitem
          cases rest with
          | nil =>
            by_cases hroom : NoRoom capacity position
            · rw [editInPlace_tooLong hle hroom]
              simp only [List.isEmpty_nil, Bool.not_true, Bool.false_eq_true, if_false, hroom,
                if_true]
              exact ⟨_, rfl, by rw [forget, forget]⟩
            · rw [editInPlace_newItem hle hroom]
              simp only [List.isEmpty_nil, Bool.not_true, Bool.false_eq_true, if_false, hroom]
              exact rfl
          | cons next rest =>
            rw [editInPlace_outOfBounds hle]
            exact ⟨_, rfl, by rw [forget, forget]⟩
      | _ => exact ⟨_, rfl, rfl⟩

/-! ### Values in a store -/

mutual

/-- The store has the containers and functions of the value under their identities. -/
def Stored (store : Identity → Option Value) : Value → Prop
  | array i items => store i = some (array i items) ∧ ItemsStored store items
  | object i fields => store i = some (object i fields) ∧ FieldsStored store fields
  | function i body => store i = some (function i body)
  | element i tag props children =>
      store i = some (element i tag props children) ∧ FieldsStored store props ∧
        ItemsStored store children
  | _ => True

/-- Several values are so. -/
def ItemsStored (store : Identity → Option Value) : List Value → Prop
  | [] => True
  | v :: vs => Stored store v ∧ ItemsStored store vs

/-- The values of fields are so. -/
def FieldsStored (store : Identity → Option Value) : List (String × Value) → Prop
  | [] => True
  | (_, v) :: fields => Stored store v ∧ FieldsStored store fields

end

section

variable {store store' : Identity → Option Value}

/-- Nothing that is stored is changed. -/
def Keeps (store store' : Identity → Option Value) : Prop :=
  ∀ i c, store i = some c → store' i = some c

mutual

theorem Stored.mono (h : Keeps store store') : ∀ {v : Value}, Stored store v → Stored store' v
  | array i items, hv => by
    simp only [Stored] at hv ⊢
    exact ⟨h i _ hv.1, hv.2.mono h⟩
  | object i fields, hv => by
    simp only [Stored] at hv ⊢
    exact ⟨h i _ hv.1, hv.2.mono h⟩
  | function i body, hv => by
    simp only [Stored] at hv ⊢
    exact h i _ hv
  | element i tag props children, hv => by
    simp only [Stored] at hv ⊢
    exact ⟨h i _ hv.1, hv.2.1.mono h, hv.2.2.mono h⟩
  | undefined, _ | null, _ | boolean _, _ | number _, _ | string _, _ | signal _, _ => by
    simp only [Stored]

theorem ItemsStored.mono (h : Keeps store store') :
    ∀ {items : List Value}, ItemsStored store items → ItemsStored store' items
  | [], _ => trivial
  | v :: vs, hitems => by
    simp only [ItemsStored] at hitems ⊢
    exact ⟨hitems.1.mono h, hitems.2.mono h⟩

theorem FieldsStored.mono (h : Keeps store store') :
    ∀ {fields : List (String × Value)}, FieldsStored store fields → FieldsStored store' fields
  | [], _ => trivial
  | (key, v) :: fields, hfields => by
    simp only [FieldsStored] at hfields ⊢
    exact ⟨hfields.1.mono h, hfields.2.mono h⟩

end

theorem itemsStored_iff {items : List Value} :
    ItemsStored store items ↔ ∀ v ∈ items, Stored store v := by
  induction items with
  | nil => simp [ItemsStored]
  | cons v vs ih => simp [ItemsStored, ih]

theorem fieldsStored_iff {fields : List (String × Value)} :
    FieldsStored store fields ↔ ∀ f ∈ fields, Stored store f.2 := by
  induction fields with
  | nil => simp [FieldsStored]
  | cons f fs ih => simp [FieldsStored, ih]

/-- The containers that an edit copies are put where the store has nothing. -/
def Extends (fresh : Identity) (store store' : Identity → Option Value) : Prop :=
  ∀ i < fresh, store' i = store i

theorem Extends.refl (fresh : Identity) (store : Identity → Option Value) :
    Extends fresh store store := fun _ _ => rfl

theorem Extends.keeps (h : Extends fresh store store') (hfree : ∀ i, fresh ≤ i → store i = none) :
    Keeps store store' := by
  intro i c hc
  by_cases hi : i < fresh
  · rw [h i hi, hc]
  · rw [hfree i (Nat.le_of_not_lt hi)] at hc
    cases hc

/-- A copy with stored parts is stored under the next identity. -/
theorem exists_allocated {c : Value} (hfree : ∀ i, fresh ≤ i → store i = none)
    (hext : Extends (fresh + 1) store store')
    (hc : ∀ {store'' : Identity → Option Value}, Keeps store' store'' → store'' fresh = some c →
      Stored store'' c) :
    ∃ store'', Extends fresh store store'' ∧ Stored store'' c := by
  have hnone : store' fresh = none := by
    rw [hext fresh (Nat.lt_succ_self fresh), hfree fresh (Nat.le_refl fresh)]
  refine ⟨Function.update store' fresh (some c), fun i hi => ?_, hc (fun i x hx => ?_) ?_⟩
  · rw [Function.update_of_ne (Nat.ne_of_lt hi), hext i (Nat.lt_succ_of_lt hi)]
  · have hne : i ≠ fresh := by
      rintro rfl
      simp [hnone] at hx
    rw [Function.update_of_ne hne, hx]
  · exact Function.update_self ..

theorem exists_stored_object {fields : List (String × Value)}
    (hfree : ∀ i, fresh ≤ i → store i = none) (hext : Extends (fresh + 1) store store')
    (hfields : ∀ f ∈ fields, Stored store' f.2) :
    ∃ store'', Extends fresh store store'' ∧ Stored store'' (object fresh fields) := by
  refine exists_allocated hfree hext fun hkeeps hthere => ?_
  simp only [Stored]
  exact ⟨hthere, fieldsStored_iff.mpr fun f hf => (hfields f hf).mono hkeeps⟩

theorem exists_stored_array {items : List Value}
    (hfree : ∀ i, fresh ≤ i → store i = none) (hext : Extends (fresh + 1) store store')
    (hitems : ∀ x ∈ items, Stored store' x) :
    ∃ store'', Extends fresh store store'' ∧ Stored store'' (array fresh items) := by
  refine exists_allocated hfree hext fun hkeeps hthere => ?_
  simp only [Stored]
  exact ⟨hthere, itemsStored_iff.mpr fun x hx => (hitems x hx).mono hkeeps⟩

/-- What an edit leaves is stored where everything else is stored as before. -/
theorem stored_editInPlace (hfree : ∀ i, fresh ≤ i → store i = none) (hv : Stored store v)
    (hnew : Stored store new) :
    ∃ store', Extends fresh store store' ∧
      Stored store' (v.editInPlace fresh path new capacity).1 := by
  induction path generalizing v fresh with
  | nil => exact ⟨store, .refl fresh store, hnew⟩
  | cons segment rest ih =>
    -- The identity `fresh` is left for the copy of this container, the ones above it for its parts.
    have hfree' : ∀ i, fresh + 1 ≤ i → store i = none := fun i hi => hfree i (Nat.le_of_succ_le hi)
    have hsame : Extends (fresh + 1) store store := .refl (fresh + 1) store
    cases segment with
    | key name =>
      cases v with
      | object i fields =>
        simp only [Stored, fieldsStored_iff] at hv
        cases hlookup : fields.lookup name with
        | some child =>
          obtain ⟨store', hext, hleft⟩ := ih hfree' (hv.2 _ (mem_of_lookup hlookup))
          rw [editInPlace_field hlookup]
          refine exists_stored_object hfree hext fun f hf => ?_
          rcases Keyed.mem_of_mem_put hf with hf | rfl
          · exact (hv.2 f hf).mono (hext.keeps hfree')
          · exact hleft
        | none =>
          cases rest with
          | nil =>
            refine exists_stored_object hfree hsame fun f hf => ?_
            rcases Keyed.mem_of_mem_put hf with hf | rfl
            · exact hv.2 f hf
            · exact hnew
          | cons next rest =>
            rw [editInPlace_noField hlookup]
            exact exists_stored_object hfree hsame hv.2
      | _ => exact ⟨store, .refl fresh store, hv⟩
    | index position =>
      cases v with
      | array i items =>
        simp only [Stored, itemsStored_iff] at hv
        cases hitem : items[position]? with
        | some child =>
          obtain ⟨store', hext, hleft⟩ := ih hfree' (hv.2 _ (List.mem_of_getElem? hitem))
          rw [editInPlace_item hitem]
          refine exists_stored_array hfree hext fun x hx => ?_
          rcases List.mem_or_eq_of_mem_set hx with hx | rfl
          · exact (hv.2 x hx).mono (hext.keeps hfree')
          · exact hleft
        | none =>
          have hle := List.getElem?_eq_none_iff.mp hitem
          cases rest with
          | nil =>
            by_cases hroom : NoRoom capacity position
            · rw [editInPlace_tooLong hle hroom]
              exact exists_stored_array hfree hsame hv.2
            · rw [editInPlace_newItem hle hroom]
              refine exists_stored_array hfree hsame fun x hx => ?_
              simp only [padTo, List.append_assoc, List.mem_append, List.mem_replicate,
                List.mem_singleton] at hx
              rcases hx with hx | ⟨-, rfl⟩ | rfl
              · exact hv.2 x hx
              · trivial
              · exact hnew
          | cons next rest =>
            rw [editInPlace_outOfBounds hle]
            exact exists_stored_array hfree hsame hv.2
      | _ => exact ⟨store, .refl fresh store, hv⟩

end

/-! ### The edit as a whole -/

/-- Wherever the value and the new part are stored, what the edit leaves can be stored as well, and
    no value that was stored is changed by that. -/
def SparesOthers (fresh : Identity) (v new left : Value) : Prop :=
  ∀ store, Stored store v → Stored store new → (∀ i, fresh ≤ i → store i = none) →
    ∃ store', Stored store' left ∧ ∀ other, Stored store other → Stored store' other

theorem sparesOthers_editInPlace (fresh : Identity) (v new : Value) (path : List PathSegment)
    (capacity : Nat) :
    SparesOthers fresh v new (v.editInPlace fresh path new capacity).1 := by
  intro store hv hnew hfree
  obtain ⟨store', hext, hleft⟩ : ∃ store', Extends fresh store store' ∧
      Stored store' (v.editInPlace fresh path new capacity).1 := stored_editInPlace hfree hv hnew
  exact ⟨store', hleft, fun other hother => hother.mono (hext.keeps hfree)⟩

/-- An edit succeeds if the path leads to a container that accepts its last step.  It then changes
    what is there and nothing else, as `Updated` says; otherwise the value is left as it was, but for
    the identities of copies.  Either way nothing that shares parts with the value is changed. -/
theorem setPath_lawful (fresh : Identity) (v : Value) (path : List PathSegment) (new : Value)
    (capacity : Nat) :
    match v.setPath fresh path new capacity with
    | .ok edited =>
        v.HasPlace capacity path ∧ v.editInPlace fresh path new capacity = (edited, .ok ()) ∧
          Updated v path new edited ∧ SparesOthers fresh v new edited
    | .error e =>
        ¬ v.HasPlace capacity path ∧
          ∃ left, v.editInPlace fresh path new capacity = (left, .error e) ∧
          left.forget = v.forget ∧ (v.Tidy → left.same v = true) ∧ SparesOthers fresh v new left := by
  -- The edit in place agrees with the copy, and what it leaves is stored beside everything else.
  have hedit := editInPlace_agrees fresh v path new capacity
  have hspares := sparesOthers_editInPlace fresh v new path capacity
  have hplace : (∃ edited, v.setPath fresh path new capacity = .ok edited) ↔
      v.HasPlace capacity path := exists_setPath_iff
  cases hset : v.setPath fresh path new capacity with
  | ok edited =>
    rw [hset] at hedit hplace
    have hedit : v.editInPlace fresh path new capacity = (edited, .ok ()) := hedit
    rw [hedit] at hspares
    exact ⟨hplace.mp ⟨edited, rfl⟩, hedit, updated_setPath hset, hspares⟩
  | error e =>
    rw [hset] at hedit hplace
    obtain ⟨left, hedit, hleft⟩ := hedit
    rw [hedit] at hspares
    refine ⟨fun h => ?_, left, hedit, hleft, same_of_forget hleft, hspares⟩
    obtain ⟨edited, hok⟩ := hplace.mpr h
    cases hok

end ReactiveDoc.Value
