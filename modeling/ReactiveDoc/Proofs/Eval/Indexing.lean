import ReactiveDoc.Proofs.Eval.Assigning

namespace ReactiveDoc.Eval

/-!
# Positions in places

A computed step of a place names a position: a whole number, cut off at the largest one.  An array
grows up to the position that is written, and cannot grow to all of them.

* `Overgrown` — a path ends behind the last item of an array, where no array has items.
* `setPath_eq_tooLong_iff` — an edit does not complete exactly there.
* `index_placePath` — the positions on the way to a place are whole numbers, cut off.
* `setPath_placed` — so an edit at a place is made or refused, but for such a position; `assign_far`
  — one is not.
-/

open Value (PathSegment NoRoom)

variable {σ : Type} {r : Rules σ} {p : Program} {env : ValueEnv} {depth : Nat} {node : NodeId}
  {v new edited : Value} {fresh : Identity} {path : List PathSegment} {position capacity : Nat}
  {w w' : Signal.World Payload Step Choice σ}

/-! ### Edits that do not complete -/

/-- The path ends at a position behind the last item of an array, where there is no room for items:
    the length of the array would be too large for a word or for the memory. -/
def Overgrown (capacity : Nat) (v : Value) (path : List PathSegment) (position : Nat) : Prop :=
  ∃ front i items, path = front ++ [.index position] ∧ v.at? front = some (.array i items) ∧
    items.length ≤ position ∧ NoRoom capacity position

/-- One step further up, a path ends where the path below it ends. -/
theorem overgrown_cons_iff {segment next : PathSegment} {rest : List PathSegment} :
    Overgrown capacity v (segment :: next :: rest) position ↔
      ∃ part, v.child? segment = some part ∧ Overgrown capacity part (next :: rest) position := by
  constructor
  · rintro ⟨front, i, items, hpath, harray, hover⟩
    cases front with
    | nil => cases hpath
    | cons first front =>
      obtain ⟨rfl, hrest⟩ := List.cons.inj hpath
      obtain ⟨part, hpart, hat⟩ := Option.bind_eq_some_iff.mp harray
      exact ⟨part, hpart, front, i, items, hrest, hat, hover⟩
  · rintro ⟨part, hpart, front, i, items, hpath, harray, hover⟩
    refine ⟨segment :: front, i, items, by rw [hpath]; rfl, ?_, hover⟩
    rw [Value.at?, hpart, Option.bind_some, harray]

theorem overgrown_singleton_iff {segment : PathSegment} :
    Overgrown capacity v [segment] position ↔
      ∃ i items, segment = .index position ∧ v = .array i items ∧ items.length ≤ position ∧ NoRoom capacity position := by
  constructor
  · rintro ⟨front, i, items, hpath, harray, hover⟩
    obtain ⟨rfl, hsegment⟩ := List.append_eq_singleton_iff.mp hpath.symm |>.resolve_right
      fun h => by simp at h
    cases hsegment
    exact ⟨i, items, rfl, Option.some.inj harray, hover⟩
  · rintro ⟨i, items, rfl, rfl, hover⟩
    exact ⟨[], i, items, rfl, rfl, hover⟩

/-- Nothing can be too long one step below a value that has no part there, or on a step that is no
    position. -/
theorem setPath_cons_eq_tooLong_iff {segment next : PathSegment} {rest : List PathSegment} :
    v.setPath fresh (segment :: next :: rest) new capacity = .error (.tooLong position) ↔
      ∃ part, v.child? segment = some part ∧
        part.setPath (fresh + 1) (next :: rest) new capacity = .error (.tooLong position) := by
  cases v with
  | object i fields =>
    cases segment with
    | key name =>
      rw [Value.setPath]
      show _ ↔ ∃ part, fields.lookup name = some part ∧ _
      cases hlookup : fields.lookup name with
      | some old =>
        cases hset : old.setPath (fresh + 1) (next :: rest) new capacity <;>
          simp [hset, bind, Except.bind, pure, Except.pure]
      | none => simp
    | index _ => simp [Value.setPath, Value.child?]
  | array i items =>
    cases segment with
    | key _ => simp [Value.setPath, Value.child?]
    | index k =>
      rw [Value.setPath]
      show _ ↔ ∃ part, items[k]? = some part ∧ _
      cases hitem : items[k]? with
      | some old =>
        cases hset : old.setPath (fresh + 1) (next :: rest) new capacity <;>
          simp [hset, bind, Except.bind, pure, Except.pure]
      | none => simp
  | _ => simp [Value.setPath, Value.child?]

theorem setPath_singleton_eq_tooLong_iff {segment : PathSegment} :
    v.setPath fresh [segment] new capacity = .error (.tooLong position) ↔
      ∃ i items, segment = .index position ∧ v = .array i items ∧ items.length ≤ position ∧
        NoRoom capacity position := by
  cases v with
  | object i fields =>
    cases segment with
    | key name =>
      rw [Value.setPath]
      cases fields.lookup name <;> simp [Value.setPath, bind, Except.bind, pure, Except.pure]
    | index _ => simp [Value.setPath]
  | array i items =>
    cases segment with
    | key _ => simp [Value.setPath]
    | index k =>
      rw [Value.setPath]
      cases hitem : items[k]? with
      | some old =>
        have hlt := (List.getElem?_eq_some_iff.mp hitem).1
        simp only [Value.setPath, bind, Except.bind, pure, Except.pure]
        constructor
        · rintro ⟨⟩
        · rintro ⟨_, _, ⟨⟩, ⟨⟩, hle, -⟩
          exact absurd hlt (Nat.not_lt_of_le hle)
      | none =>
        have hle := List.getElem?_eq_none_iff.mp hitem
        by_cases hlarge : NoRoom capacity k
        · simp only [List.isEmpty_nil, Bool.not_true, Bool.false_eq_true, if_false, hlarge, if_true]
          constructor
          · rintro ⟨⟩
            exact ⟨i, items, rfl, rfl, hle, hlarge⟩
          · rintro ⟨_, _, ⟨⟩, -⟩
            rfl
        · simp only [List.isEmpty_nil, Bool.not_true, Bool.false_eq_true, if_false, hlarge]
          constructor
          · rintro ⟨⟩
          · rintro ⟨_, _, ⟨⟩, -, -, h⟩
            exact absurd h hlarge
  | _ => simp [Value.setPath]

/-- An edit does not complete exactly where an array would grow too long. -/
theorem setPath_eq_tooLong_iff :
    v.setPath fresh path new capacity = .error (.tooLong position) ↔
      Overgrown capacity v path position := by
  induction path generalizing v fresh with
  | nil =>
    refine iff_of_false (by simp [Value.setPath]) ?_
    rintro ⟨front, _, _, hpath, -⟩
    exact absurd hpath (List.append_ne_nil_of_right_ne_nil front (List.cons_ne_nil _ _)).symm
  | cons segment rest ih =>
    cases rest with
    | nil => rw [setPath_singleton_eq_tooLong_iff, overgrown_singleton_iff]
    | cons next rest =>
      rw [setPath_cons_eq_tooLong_iff, overgrown_cons_iff]
      exact exists_congr fun part => and_congr_right fun _ => ih

/-! ### Positions on the way to a place -/

/-- A computed step that is a position is a whole number, cut off at the largest position. -/
theorem index_indexSegment (h : (indexSegment v : EvalM σ PathSegment) w =
    .ok (.ok (.index position), w')) :
    ∃ x n, Number.toWhole? x = some n ∧ position = min n maxPosition := by
  unfold indexSegment at h
  cases v with
  | number x =>
    cases hx : Number.toWhole? x with
    | some n =>
      simp only [hx] at h
      cases h
      exact ⟨x, n, hx, rfl⟩
    | none =>
      simp only [hx] at h
      cases h
  | string key => cases h
  | _ => cases h

/-- So is every position on the way to a place. -/
theorem index_placePath {root : String}
    (h : placePath r p env depth node w = .ok (.ok (root, path), w'))
    (hposition : .index position ∈ path) :
    ∃ x n, Number.toWhole? x = some n ∧ position = min n maxPosition := by
  induction depth generalizing node w w' root path with
  | zero => cases h
  | succ depth ih =>
    rw [placePath] at h
    obtain ⟨_, -, ⟨⟩⟩ | ⟨kind, w₁, -, h⟩ := bind_cases h
    cases kind with
    | identifier name =>
      cases h
      cases hposition
    | member object property =>
      obtain ⟨_, -, ⟨⟩⟩ | ⟨⟨root', way⟩, w₂, hway, h⟩ := bind_cases h
      cases h
      obtain hposition | hposition := List.mem_append.mp hposition
      · exact ih hway hposition
      · cases List.mem_singleton.mp hposition
    | index object index =>
      obtain ⟨_, -, ⟨⟩⟩ | ⟨⟨root', way⟩, w₂, hway, h⟩ := bind_cases h
      obtain ⟨_, -, ⟨⟩⟩ | ⟨v, w₃, -, h⟩ := bind_cases h
      obtain ⟨_, -, ⟨⟩⟩ | ⟨v', w₄, -, h⟩ := bind_cases h
      obtain ⟨_, -, ⟨⟩⟩ | ⟨segment, w₅, hsegment, h⟩ := bind_cases h
      cases h
      obtain hposition | hposition := List.mem_append.mp hposition
      · exact ih hway hposition
      · obtain rfl := List.mem_singleton.mp hposition
        exact index_indexSegment hsegment
    | _ => cases h

/-- Every position on the way to a place is a whole number, and the next length is one too unless
    the number was cut off.  An edit there is made or refused, and does not complete only where an
    array would grow too long. -/
theorem setPath_placed {root : String}
    (h : placePath r p env depth node w = .ok (.ok (root, path), w')) (v new : Value)
    (fresh : Identity) (capacity : Nat) :
    (∀ position, .index position ∈ path → ∃ x n, Number.toWhole? x = some n ∧
      position = min n maxPosition ∧ (position + 1 < UInt64.size ↔ n < maxPosition)) ∧
    (((∃ edited, v.setPath fresh path new capacity = .ok edited ∧ edited.at? path = some new) ∨
      ∃ e, v.setPath fresh path new capacity = .error e ∧ ∀ position, e ≠ .tooLong position) ↔
        ∀ position, ¬ Overgrown capacity v path position) := by
  refine ⟨fun position hposition => ?_, ?_, fun hfits => ?_⟩
  · obtain ⟨x, n, hx, rfl⟩ := index_placePath h hposition
    refine ⟨x, n, hx, rfl, ?_⟩
    simp only [maxPosition, UInt64.size]
    omega
  · rintro hcompletes position hover
    have hlong : v.setPath fresh path new capacity = _ := setPath_eq_tooLong_iff.mpr hover
    obtain ⟨edited, hedited, -⟩ | ⟨e, he, hne⟩ := hcompletes
    · cases hlong.symm.trans hedited
    · cases hlong.symm.trans he
      exact hne position rfl
  · cases hset : v.setPath fresh path new capacity with
    | ok edited => exact .inl ⟨edited, rfl, Value.at?_setPath hset⟩
    | error e =>
      refine .inr ⟨e, rfl, ?_⟩
      rintro position rfl
      exact hfits position (setPath_eq_tooLong_iff.mp hset)

/-- The place `c[18446744073709551616]`, a text to assign to it, and the field `n` below it. -/
def farEdit : Program where
  tree := ⟨#[⟨default, .identifier "c"⟩, ⟨default, .literal (.number 18446744073709551616)⟩,
    ⟨default, .index 0 1⟩, ⟨default, .literal (.string "b")⟩, ⟨default, .member 2 "n"⟩]⟩
  interfaces := ⟨#[
    some (.ok { ty := .array .string, dynamic := true, mutable? := some .session }),
    some (.ok (.fixed .number)),
    some (.ok { ty := .string, dynamic := true, mutable? := some .session }),
    some (.ok (.fixed .string)),
    some (.ok { ty := .string, dynamic := true, mutable? := some .session })]⟩

/-- One cell, with an empty array. -/
def emptyWorld : Signal.World Payload Step Choice (List (List String × String)) :=
  ⟨(({} : Signal.Graph Payload Step Choice).cell (.ok (.plain (.array 0 [])))).2, 1, []⟩

/-- The place `c[18446744073709551616]` lies at the last position, and an empty array does not grow
    up to it, however much memory there is. -/
theorem setPath_placed_far :
    placePath (rules ledger 3) farEdit ⟨[("c", .signal 0)]⟩ 3 2 emptyWorld =
      .ok (.ok ("c", [.index maxPosition]), emptyWorld) ∧
    (∃ x n, Number.toWhole? x = some n ∧ maxPosition = min n maxPosition ∧
      (maxPosition + 1 < UInt64.size ↔ n < maxPosition)) ∧
    ∀ capacity,
      ¬ ((∃ edited, (Value.array 0 []).setPath 1 [.index maxPosition] .null capacity = .ok edited ∧
          edited.at? [.index maxPosition] = some .null) ∨
        ∃ e, (Value.array 0 []).setPath 1 [.index maxPosition] .null capacity = .error e ∧
          ∀ position, e ≠ .tooLong position) := by
  have hplace : placePath (rules ledger 3) farEdit ⟨[("c", .signal 0)]⟩ 3 2 emptyWorld =
      .ok (.ok ("c", [.index maxPosition]), emptyWorld) := rfl
  have h (capacity : Nat) := setPath_placed hplace (.array 0 []) .null 1 capacity
  refine ⟨hplace, (h 0).1 _ (List.mem_singleton_self _), fun capacity hcompletes => ?_⟩
  exact (h capacity).2.mp hcompletes maxPosition
    ⟨[], 0, [], rfl, rfl, Nat.zero_le _, .inl (by decide)⟩

/-- The assignment to that place does not complete, however much memory there is, while the one to
    the field below it is refused: only on the way is a position checked against the items that
    there are. -/
theorem assign_far :
    (∀ capacity,
      assign (rules { ledger with capacity } 3) farEdit 2 3 ⟨[("c", .signal 0)]⟩ emptyWorld =
        .error (.tooLong maxPosition)) ∧
    ∃ w', assign (rules ledger 3) farEdit 4 3 ⟨[("c", .signal 0)]⟩ emptyWorld =
      .ok (.error (.runtime (.edit (.outOfBounds maxPosition))), w') :=
  ⟨fun _ => rfl, _, rfl⟩

end ReactiveDoc.Eval
