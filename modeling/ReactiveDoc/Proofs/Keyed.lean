import ReactiveDoc.Keyed

namespace ReactiveDoc.Keyed

/-!
# Lists of entries with keys

* `lookup_put` — a key has the value that it was given, and other keys have theirs.
* `length_put_of_none` — a new key makes one entry more.
* `keys_put` — the keys stay in their order, and a new one goes to the end.
* `lookup_ofEntries_of_last`, `lookup_ofEntries_of_none` — of a repeated key the last value counts.
-/

variable {α : Type} {entries front back : List (String × α)} {name : String} {value : α}

theorem lookup_put (entries : List (String × α)) (key : String) (value : α) (name : String) :
    (put entries key value).lookup name =
      if name = key then some value else entries.lookup name := by
  induction entries with
  | nil =>
    unfold put
    rw [List.lookup_cons]
    by_cases h : name = key
    · simp [h]
    · have hne : (name == key) = false := by simpa using h
      simp [hne, h]
  | cons entry rest ih =>
    obtain ⟨k, v⟩ := entry
    unfold put
    by_cases hk : k = key
    · subst hk
      rw [if_pos rfl, List.lookup_cons, List.lookup_cons]
      by_cases h : name = k
      · simp [h]
      · have hne : (name == k) = false := by simpa using h
        simp [hne, h]
    · rw [if_neg hk, List.lookup_cons, List.lookup_cons, ih]
      by_cases h : name = k
      · simp [h, hk]
      · have hne : (name == k) = false := by simpa using h
        simp [hne]

theorem lookup_put_self (entries : List (String × α)) (key : String) (value : α) :
    (put entries key value).lookup key = some value := by
  rw [lookup_put, if_pos rfl]

/-- Where keys differ, an entry is found under its key. -/
theorem lookup_of_mem (hkeys : (entries.map Prod.fst).Nodup) {entry : String × α}
    (h : entry ∈ entries) : entries.lookup entry.1 = some entry.2 := by
  obtain ⟨front, back, rfl⟩ := List.append_of_mem h
  refine List.lookup_eq_some_iff.mpr ⟨front, back, rfl, fun e he => ?_⟩
  rw [List.map_append, List.map_cons] at hkeys
  have hne : entry.1 ≠ e.1 := fun heq =>
    (List.nodup_append.mp hkeys).2.2 e.1 (List.mem_map_of_mem he) entry.1 List.mem_cons_self heq.symm
  exact bne_iff_ne.mpr hne

theorem length_put_of_none (value : α) (h : entries.lookup name = none) :
    (put entries name value).length = entries.length + 1 := by
  induction entries with
  | nil => rfl
  | cons entry rest ih =>
    obtain ⟨k, v⟩ := entry
    rw [List.lookup_cons] at h
    by_cases hk : k = name
    · rw [hk, beq_self_eq_true] at h
      cases h
    · rw [beq_false_of_ne (Ne.symm hk)] at h
      rw [put, if_neg hk, List.length_cons, ih h, List.length_cons]

theorem mem_of_mem_put {key : String} {entry : String × α} (h : entry ∈ put entries key value) :
    entry ∈ entries ∨ entry = (key, value) := by
  induction entries with
  | nil => exact .inr (List.mem_singleton.mp h)
  | cons e rest ih =>
    obtain ⟨k, v⟩ := e
    unfold put at h
    split at h
    · rename_i hk
      rcases List.mem_cons.mp h with rfl | hrest
      · exact .inr (hk ▸ rfl)
      · exact .inl (List.mem_cons_of_mem _ hrest)
    · rcases List.mem_cons.mp h with rfl | hrest
      · exact .inl List.mem_cons_self
      · exact (ih hrest).imp_left (List.mem_cons_of_mem _)

/-- The keys stay in their order, and a new one goes to the end. -/
theorem keys_put (entries : List (String × α)) (key : String) (value : α) :
    (put entries key value).map Prod.fst =
      if key ∈ entries.map Prod.fst then entries.map Prod.fst
      else entries.map Prod.fst ++ [key] := by
  induction entries with
  | nil => rfl
  | cons entry rest ih =>
    obtain ⟨k, v⟩ := entry
    unfold put
    by_cases hk : k = key
    · simp [hk]
    · rw [if_neg hk, List.map_cons, ih]
      by_cases hmem : key ∈ rest.map Prod.fst
      · rw [if_pos hmem, if_pos (by simp only [List.map_cons, List.mem_cons, hmem, or_true])]
        rfl
      · have hnot : key ∉ ((k, v) :: rest).map Prod.fst := by
          simp only [List.map_cons, List.mem_cons, hmem, or_false]
          exact Ne.symm hk
        rw [if_neg hmem, if_neg hnot]
        rfl

/-- Other keys do not touch the value of a name. -/
theorem lookup_foldl_put (h : ∀ e ∈ back, e.1 ≠ name) :
    (back.foldl (fun kept e => put kept e.1 e.2) entries).lookup name = entries.lookup name := by
  induction back generalizing entries with
  | nil => rfl
  | cons e rest ih =>
    rw [List.foldl_cons, ih fun e' he' => h e' (List.mem_cons_of_mem e he'), lookup_put,
      if_neg (h e List.mem_cons_self).symm]

/-- The last value of a name stays. -/
theorem lookup_ofEntries_of_last (h : ∀ e ∈ back, e.1 ≠ name) :
    (ofEntries (front ++ (name, value) :: back)).lookup name = some value := by
  unfold ofEntries
  rw [List.foldl_append, List.foldl_cons]
  refine (lookup_foldl_put h).trans ?_
  rw [lookup_put, if_pos rfl]

theorem lookup_ofEntries_of_none (h : ∀ e ∈ entries, e.1 ≠ name) :
    (ofEntries entries).lookup name = none :=
  lookup_foldl_put h

end ReactiveDoc.Keyed
