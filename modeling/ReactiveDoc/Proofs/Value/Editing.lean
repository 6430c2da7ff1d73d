import ReactiveDoc.Proofs.Keyed
import ReactiveDoc.Proofs.Value.Sameness
import ReactiveDoc.Value.Edit

namespace ReactiveDoc.Value

/-!
# Edited copies

A copy with one part replaced differs from the value before at that part only: what is on no way to
it is shared, the objects on the way keep the order of their keys, and the array that it is added to
becomes no longer than it must.

* `Value.Tidy`, `Value.same_self` — a value whose fields have different keys equals itself.
* `Value.at?` — the part of a value at the end of a path.
* `Value.at?_setPath` — an edited copy has the new part there.
* `Value.exists_at?_of_same` — and so had the value before, if it equals the copy.
* `at?_setPath_of_apart` — a part that neither holds the new one nor lies in it is kept.
* `setPath_append` — an edit is one of the container that the path leads to.
* `keys_setPath`, `items_setPath` — the keys and the items of that container.
* `Updated` — all this of a copy; `updated_setPath` — it is so.
* `exists_setPath_iff` — there is a copy if the path leads to a container that takes its last step.
-/

/-! ### Fields with different keys -/

mutual

/-- At any depth, the fields of objects and elements have different keys. -/
def Tidy : Value → Prop
  | array _ items => itemsTidy items
  | object _ fields => (fields.map Prod.fst).Nodup ∧ fieldsTidy fields
  | element _ _ props children =>
      (props.map Prod.fst).Nodup ∧ fieldsTidy props ∧ itemsTidy children
  | _ => True

/-- Several values are so. -/
def itemsTidy : List Value → Prop
  | [] => True
  | v :: vs => v.Tidy ∧ itemsTidy vs

/-- The values of fields are so. -/
def fieldsTidy : List (String × Value) → Prop
  | [] => True
  | (_, v) :: fields => v.Tidy ∧ fieldsTidy fields

end

/-- Fields with different keys equal themselves if their values do. -/
theorem sameFields_self {fields : List (String × Value)} (hkeys : (fields.map Prod.fst).Nodup)
    (h : ∀ f ∈ fields, f.2.same f.2 = true) : sameFields fields fields = true :=
  sameFields_iff.mpr fun f hf => ⟨f.2, Keyed.lookup_of_mem hkeys hf, h f hf⟩

mutual

/-- A tidy value equals itself. -/
theorem same_self : ∀ {v : Value}, v.Tidy → v.same v = true
  | .array _ items, h => by
    simp only [Tidy] at h
    rw [same]
    exact sameItems_self h
  | .object _ fields, h => by
    simp only [Tidy] at h
    rw [same, beq_self_eq_true, Bool.true_and]
    exact sameFields_self h.1 (same_self_fields h.2)
  | .element _ _ props children, h => by
    simp only [Tidy] at h
    rw [same, beq_self_eq_true, beq_self_eq_true, sameItems_self h.2.2,
      sameFields_self h.1 (same_self_fields h.2.1)]
    rfl
  | .number x, _ => Number.same_refl x
  | .undefined, _ | .null, _ => rfl
  | .boolean b, _ => beq_self_eq_true b
  | .string s, _ => beq_self_eq_true s
  | .function i _, _ => beq_self_eq_true i
  | .signal id, _ => beq_self_eq_true id

theorem sameItems_self : ∀ {items : List Value}, itemsTidy items → sameItems items items = true
  | [], _ => rfl
  | v :: vs, h => by
    simp only [itemsTidy] at h
    rw [sameItems, same_self h.1, sameItems_self h.2]
    rfl

theorem same_self_fields : ∀ {fields : List (String × Value)}, fieldsTidy fields →
    ∀ f ∈ fields, f.2.same f.2 = true
  | [], _ => nofun
  | (key, v) :: fields, h => by
    simp only [fieldsTidy] at h
    exact List.forall_mem_cons.mpr ⟨same_self h.1, same_self_fields h.2⟩

end

/-! ### Parts along a path -/

/-- The part at the end of a path. -/
def at? (v : Value) : List PathSegment → Option Value
  | [] => some v
  | segment :: rest => (v.child? segment).bind (·.at? rest)

/-- Items are equal one by one. -/
theorem sameItems_iff {xs ys : List Value} :
    sameItems xs ys = true ↔ List.Forall₂ (fun x y => x.same y = true) xs ys := by
  induction xs generalizing ys with
  | nil => cases ys <;> simp [sameItems]
  | cons x xs ih => cases ys <;> simp [sameItems, ih]

theorem length_padTo {n : Nat} {items : List Value} (h : items.length ≤ n) :
    (padTo n items).length = n := by
  rw [padTo, List.length_append, List.length_replicate, Nat.add_sub_cancel' h]

variable {v new edited : Value} {fresh : Identity} {path : List PathSegment} {capacity : Nat}

/-- An edit goes through a part that is there, or makes one at the end of the path.  Either way the
    copy has a new part in this place. -/
theorem setPath_cons {segment : PathSegment} {rest : List PathSegment}
    (h : v.setPath fresh (segment :: rest) new capacity = .ok edited) :
    ∃ part, edited.child? segment = some part ∧
      ((∃ old, v.child? segment = some old ∧
          old.setPath (fresh + 1) rest new capacity = .ok part) ∨
        (rest = [] ∧ part = new ∧ v.same edited = false)) := by
  unfold setPath at h
  split at h
  · rename_i i fields name
    cases hlookup : fields.lookup name with
    | some old =>
      simp only [hlookup] at h
      obtain ⟨part, hpart, hedited⟩ := Except.bind_eq_ok_iff.mp h
      cases hedited
      exact ⟨part, Keyed.lookup_put_self .., .inl ⟨old, hlookup, hpart⟩⟩
    | none =>
      simp only [hlookup] at h
      split at h
      · rename_i hrest
        cases h
        refine ⟨new, Keyed.lookup_put_self .., .inr ⟨List.isEmpty_iff.mp hrest, rfl, ?_⟩⟩
        -- The copy has one field more, so that it is not the same value.
        have hlength := Keyed.length_put_of_none new hlookup
        rw [same, hlength, beq_false_of_ne (Nat.succ_ne_self _).symm, Bool.false_and]
      · cases h
  · rename_i i items position
    cases hitem : items[position]? with
    | some old =>
      simp only [hitem] at h
      obtain ⟨part, hpart, hedited⟩ := Except.bind_eq_ok_iff.mp h
      cases hedited
      have hlt := (List.getElem?_eq_some_iff.mp hitem).1
      exact ⟨part, List.getElem?_set_self hlt, .inl ⟨old, hitem, hpart⟩⟩
    | none =>
      simp only [hitem] at h
      split at h
      · cases h
      · rename_i hrest
        split at h
        · cases h
        · cases h
          -- An array grows up to the place, and has more items then.
          have hlength := length_padTo (List.getElem?_eq_none_iff.mp hitem)
          refine ⟨new, ?_, .inr ⟨List.isEmpty_iff.mp (by simpa using hrest), rfl, ?_⟩⟩
          · show (padTo position items ++ [new])[position]? = some new
            rw [List.getElem?_append_right (Nat.le_of_eq hlength), hlength, Nat.sub_self]
            rfl
          · rw [same, ← Bool.not_eq_true, sameItems_iff]
            intro hsame
            have hcount := hsame.length_eq
            rw [List.length_append, hlength, List.length_singleton] at hcount
            exact Nat.not_succ_le_self _ (hcount ▸ List.getElem?_eq_none_iff.mp hitem)
  · cases h

/-- The copy has the new part at the end of the path. -/
theorem at?_setPath (h : v.setPath fresh path new capacity = .ok edited) :
    edited.at? path = some new := by
  induction path generalizing v fresh edited with
  | nil =>
    rw [setPath] at h
    cases h
    rfl
  | cons segment rest ih =>
    obtain ⟨part, hchild, ⟨old, -, hpart⟩ | ⟨rfl, rfl, -⟩⟩ := setPath_cons h
    · rw [at?, hchild, Option.bind_some, ih hpart]
    · rw [at?, hchild]
      rfl

/-- What is one step below a value is equal to what is there in a copy that equals it. -/
theorem same_child? {part old : Value} {segment : PathSegment} (h : v.same edited = true)
    (hold : v.child? segment = some old) (hpart : edited.child? segment = some part) :
    old.same part = true := by
  unfold child? at hold
  split at hold
  · rename_i i fields name
    cases edited with
    | object j fields' =>
      rw [same, Bool.and_eq_true] at h
      obtain ⟨y, hy, hsame⟩ := sameFields_iff.mp h.2 _ (mem_of_lookup hold)
      cases Option.some.inj (hy.symm.trans hpart)
      exact hsame
    | _ => simp [same] at h
  · rename_i i items position
    cases edited with
    | array j items' =>
      rw [same, sameItems_iff] at h
      obtain ⟨hlt, rfl⟩ := List.getElem?_eq_some_iff.mp hold
      obtain ⟨hlt', rfl⟩ := List.getElem?_eq_some_iff.mp hpart
      exact h.get hlt hlt'
    | _ => simp [same] at h
  · cases hold

/-- If the value before equals the copy, it had an equal part at the end of the path. -/
theorem exists_at?_of_same (h : v.setPath fresh path new capacity = .ok edited)
    (hsame : v.same edited = true) : ∃ old, v.at? path = some old ∧ old.same new = true := by
  induction path generalizing v fresh edited with
  | nil =>
    rw [setPath] at h
    cases h
    exact ⟨v, rfl, hsame⟩
  | cons segment rest ih =>
    obtain ⟨part, hchild, ⟨old, hold, hpart⟩ | ⟨-, -, hgrown⟩⟩ := setPath_cons h
    · obtain ⟨old', hat, hsame'⟩ := ih hpart (same_child? hsame hold hchild)
      exact ⟨old', by rw [at?, hold, Option.bind_some, hat], hsame'⟩
    · rw [hsame] at hgrown
      cases hgrown

/-! ### Parts elsewhere -/

/-- Another part of the same container is kept. -/
theorem child?_setPath_of_ne {segment other : PathSegment} {rest : List PathSegment} {part : Value}
    (h : v.setPath fresh (segment :: rest) new capacity = .ok edited) (hne : other ≠ segment)
    (hpart : v.child? other = some part) : edited.child? other = some part := by
  unfold setPath at h
  split at h
  · rename_i i fields name
    cases other with
    | index position => cases hpart
    | key key =>
      have hkey : key ≠ name := fun heq => hne (heq ▸ rfl)
      have hput (x : Value) :
          (object fresh (Keyed.put fields name x)).child? (.key key) = some part := by
        show (Keyed.put fields name x).lookup key = some part
        rw [Keyed.lookup_put, if_neg hkey]
        exact hpart
      split at h
      · obtain ⟨x, -, hedited⟩ := Except.bind_eq_ok_iff.mp h
        cases hedited
        exact hput x
      · split at h
        · cases h
          exact hput new
        · cases h
  · rename_i i items position
    cases other with
    | key key => cases hpart
    | index k =>
      have hk : k ≠ position := fun heq => hne (heq ▸ rfl)
      have hitem : items[k]? = some part := hpart
      split at h
      · obtain ⟨x, -, hedited⟩ := Except.bind_eq_ok_iff.mp h
        cases hedited
        show (items.set position x)[k]? = some part
        rw [List.getElem?_set_ne (Ne.symm hk)]
        exact hitem
      · split at h
        · cases h
        · split at h
          · cases h
          · cases h
            have hlt := (List.getElem?_eq_some_iff.mp hitem).1
            show (items ++ _ ++ [new])[k]? = some part
            rw [List.append_assoc, List.getElem?_append_left hlt]
            exact hitem
  · cases h

/-- A part that neither holds the new one nor lies in it is kept. -/
theorem at?_setPath_of_apart (h : v.setPath fresh path new capacity = .ok edited)
    {other : List PathSegment} {part : Value} (hpart : v.at? other = some part) (hover : ¬ other <+: path)
    (hunder : ¬ path <+: other) : edited.at? other = some part := by
  induction path generalizing v fresh edited other with
  | nil => exact absurd List.nil_prefix hunder
  | cons segment rest ih =>
    cases other with
    | nil => exact absurd List.nil_prefix hover
    | cons segment' rest' =>
      obtain ⟨child, hchild, hat⟩ := Option.bind_eq_some_iff.mp hpart
      by_cases hsegment : segment' = segment
      · subst hsegment
        rw [List.cons_prefix_cons] at hover hunder
        obtain ⟨copy, hcopy, ⟨old, hold, hset⟩ | ⟨rfl, -, -⟩⟩ := setPath_cons h
        · obtain rfl : child = old := Option.some.inj (hchild.symm.trans hold)
          rw [at?, hcopy, Option.bind_some]
          exact ih hset hat (fun hp => hover ⟨rfl, hp⟩) (fun hp => hunder ⟨rfl, hp⟩)
        · exact absurd ⟨rfl, List.nil_prefix⟩ hunder
      · rw [at?, child?_setPath_of_ne h hsegment hchild, Option.bind_some]
        exact hat

/-! ### The container that the path leads to -/

/-- What the first part of the path leads to is edited along the second. -/
theorem setPath_append {front tail : List PathSegment} (htail : tail ≠ [])
    (h : v.setPath fresh (front ++ tail) new capacity = .ok edited) :
    ∃ part copy, v.at? front = some part ∧ edited.at? front = some copy ∧
      part.setPath (fresh + front.length) tail new capacity = .ok copy := by
  induction front generalizing v fresh edited with
  | nil => exact ⟨v, edited, rfl, rfl, h⟩
  | cons segment front ih =>
    obtain ⟨copy, hcopy, ⟨old, hold, hset⟩ | ⟨hrest, -, -⟩⟩ := setPath_cons h
    · obtain ⟨part, copy', hpart, hcopy', hset'⟩ := ih hset
      refine ⟨part, copy', ?_, ?_, ?_⟩
      · rw [at?, hold, Option.bind_some, hpart]
      · rw [at?, hcopy, Option.bind_some, hcopy']
      · rw [List.length_cons, Nat.add_comm front.length, ← Nat.add_assoc]
        exact hset'
    · exact absurd (List.append_eq_nil_iff.mp hrest).2 htail

/-- An object keeps the order of its keys, and a new one goes to the end. -/
theorem keys_setPath {i : Identity} {fields : List (String × Value)} {name : String}
    {rest : List PathSegment}
    (h : (object i fields).setPath fresh (.key name :: rest) new capacity = .ok edited) :
    ∃ fields', edited = object fresh fields' ∧ fields'.map Prod.fst =
      if name ∈ fields.map Prod.fst then fields.map Prod.fst
      else fields.map Prod.fst ++ [name] := by
  unfold setPath at h
  simp only at h
  split at h
  · obtain ⟨x, -, hedited⟩ := Except.bind_eq_ok_iff.mp h
    cases hedited
    exact ⟨_, rfl, Keyed.keys_put fields name x⟩
  · split at h
    · cases h
      exact ⟨_, rfl, Keyed.keys_put fields name new⟩
    · cases h

/-- An array grows up to the new item, with `undefined` before it. -/
theorem items_setPath {i : Identity} {items : List Value} {position : Nat}
    {rest : List PathSegment}
    (h : (array i items).setPath fresh (.index position :: rest) new capacity = .ok edited) :
    ∃ items', edited = array fresh items' ∧ items'.length = max items.length (position + 1) ∧
      ∀ k, items.length ≤ k → k < position → items'[k]? = some undefined := by
  unfold setPath at h
  simp only at h
  split at h
  · rename_i old hold
    obtain ⟨x, -, hedited⟩ := Except.bind_eq_ok_iff.mp h
    cases hedited
    have hlt := (List.getElem?_eq_some_iff.mp hold).1
    refine ⟨_, rfl, ?_, fun k hk hlt' => ?_⟩
    · rw [List.length_set]
      omega
    · omega
  · rename_i hnone
    split at h
    · cases h
    · split at h
      · cases h
      · cases h
        have hle := List.getElem?_eq_none_iff.mp hnone
        refine ⟨_, rfl, ?_, fun k hk hlt => ?_⟩
        · rw [List.length_append, length_padTo hle, List.length_singleton]
          omega
        · rw [padTo, List.append_assoc, List.getElem?_append_right hk,
            List.getElem?_append_left (by rw [List.length_replicate]; omega),
            List.getElem?_replicate, if_pos (by omega)]

/-- What an edited copy is to be. -/
structure Updated (v : Value) (path : List PathSegment) (new edited : Value) : Prop where
  /-- Following the path gives the new part. -/
  written : edited.at? path = some new
  /-- Any part that neither holds the new one nor lies in it reads as before. -/
  kept : ∀ other part, v.at? other = some part → ¬ other <+: path → ¬ path <+: other →
    edited.at? other = some part
  /-- An object that the path goes through keeps the order of its keys, a new one appended. -/
  keys : ∀ front name rest, path = front ++ .key name :: rest →
    ∀ i fields, v.at? front = some (object i fields) →
      ∃ j fields', edited.at? front = some (object j fields') ∧ fields'.map Prod.fst =
        if name ∈ fields.map Prod.fst then fields.map Prod.fst
        else fields.map Prod.fst ++ [name]
  /-- An array that the path goes through grows only so far that it has the item, with `undefined`
      in the gap. -/
  items : ∀ front position rest, path = front ++ .index position :: rest →
    ∀ i items, v.at? front = some (array i items) →
      ∃ j items', edited.at? front = some (array j items') ∧
        items'.length = max items.length (position + 1) ∧
        ∀ k, items.length ≤ k → k < position → items'[k]? = some undefined

theorem updated_setPath (h : v.setPath fresh path new capacity = .ok edited) :
    Updated v path new edited where
  written := at?_setPath h
  kept _ _ hpart hover hunder := at?_setPath_of_apart h hpart hover hunder
  keys := by
    rintro front name rest rfl i fields hobject
    obtain ⟨part, copy, hpart, hcopy, hset⟩ := setPath_append (List.cons_ne_nil _ _) h
    obtain rfl := Option.some.inj (hobject.symm.trans hpart)
    obtain ⟨fields', rfl, hkeys⟩ := keys_setPath hset
    exact ⟨_, fields', hcopy, hkeys⟩
  items := by
    rintro front position rest rfl i items harray
    obtain ⟨part, copy, hpart, hcopy, hset⟩ := setPath_append (List.cons_ne_nil _ _) h
    obtain rfl := Option.some.inj (harray.symm.trans hpart)
    obtain ⟨items', rfl, hitems⟩ := items_setPath hset
    exact ⟨_, items', hcopy, hitems⟩

/-! ### Where there is a copy -/

/-- The value has a part one step below, or can be given one. -/
def Accepts (capacity : Nat) : Value → PathSegment → Prop
  | object _ _, .key _ => True
  | array _ items, .index position => position < items.length ∨ ¬ NoRoom capacity position
  | _, _ => False

/-- The path leads to a container that accepts its last step. -/
def HasPlace (capacity : Nat) (v : Value) (path : List PathSegment) : Prop :=
  ∀ front last, path = front ++ [last] →
    ∃ part, v.at? front = some part ∧ part.Accepts capacity last

theorem exists_setPath_of_child? {segment : PathSegment} {rest : List PathSegment} {old part : Value}
    (hold : v.child? segment = some old)
    (hset : old.setPath (fresh + 1) rest new capacity = .ok part) :
    ∃ edited, v.setPath fresh (segment :: rest) new capacity = .ok edited := by
  unfold child? at hold
  split at hold
  · rw [setPath]
    simp only [hold, hset]
    exact ⟨_, rfl⟩
  · rw [setPath]
    simp only [hold, hset]
    exact ⟨_, rfl⟩
  · cases hold

/-- One step can be taken from what accepts it, and from nothing else. -/
theorem exists_setPath_singleton_iff {last : PathSegment} :
    (∃ edited, v.setPath fresh [last] new capacity = .ok edited) ↔ v.Accepts capacity last := by
  cases last with
  | key name =>
    cases v with
    | object i fields =>
      rw [setPath]
      cases fields.lookup name with
      | some old => exact iff_of_true ⟨_, rfl⟩ trivial
      | none => exact iff_of_true ⟨_, rfl⟩ trivial
    | _ => simp [setPath, Accepts]
  | index position =>
    cases v with
    | array i items =>
      rw [setPath]
      simp only [Accepts]
      cases hitem : items[position]? with
      | some old =>
        exact iff_of_true ⟨_, rfl⟩ (.inl (List.getElem?_eq_some_iff.mp hitem).1)
      | none =>
        have hle := List.getElem?_eq_none_iff.mp hitem
        by_cases hlarge : NoRoom capacity position
        · simp [hlarge, Nat.not_lt_of_le hle]
        · simp [hlarge]
    | _ => simp [setPath, Accepts]

/-- There is a copy if the path leads to a container that accepts its last step, and only then. -/
theorem exists_setPath_iff :
    (∃ edited, v.setPath fresh path new capacity = .ok edited) ↔ v.HasPlace capacity path := by
  constructor
  · rintro ⟨edited, h⟩ front last rfl
    obtain ⟨part, copy, hpart, -, hset⟩ := setPath_append (List.cons_ne_nil last []) h
    exact ⟨part, hpart, exists_setPath_singleton_iff.mp ⟨copy, hset⟩⟩
  · intro h
    induction path generalizing v fresh with
    | nil => exact ⟨new, by rw [setPath]⟩
    | cons segment rest ih =>
      cases rest with
      | nil =>
        obtain ⟨part, hpart, haccepts⟩ := h [] segment rfl
        obtain rfl : v = part := Option.some.inj hpart
        exact exists_setPath_singleton_iff.mpr haccepts
      | cons next rest =>
        -- The last step is taken below the part that the first one leads to.
        obtain ⟨front, last, hrest⟩ : ∃ front last, next :: rest = front ++ [last] :=
          ⟨_, _, (List.dropLast_append_getLast (List.cons_ne_nil next rest)).symm⟩
        obtain ⟨part, hpart, -⟩ := h (segment :: front) last (by rw [hrest]; rfl)
        obtain ⟨old, hold, -⟩ := Option.bind_eq_some_iff.mp hpart
        have hplace : old.HasPlace capacity (next :: rest) := by
          intro front' last' hrest'
          obtain ⟨part', hpart', haccepts⟩ := h (segment :: front') last' (by rw [hrest']; rfl)
          rw [at?, hold, Option.bind_some] at hpart'
          exact ⟨part', hpart', haccepts⟩
        obtain ⟨copy, hset⟩ :
            ∃ copy, old.setPath (fresh + 1) (next :: rest) new capacity = .ok copy :=
          ih hplace
        exact exists_setPath_of_child? hold hset

end ReactiveDoc.Value
