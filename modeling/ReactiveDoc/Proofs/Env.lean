import ReactiveDoc.Env

namespace ReactiveDoc.Env

/-!
# Bindings and names of an environment

* `get?_extend`, `get?_extendAll`, `get?_map` — what a name stands for afterwards.
* `mem_names`, `names_nodup` — the names are those that are bound, each once.
-/

variable {α β : Type}

@[simp]
theorem get?_empty (name : String) : (empty : Env α).get? name = none := rfl

theorem get?_extend (env : Env α) (name x : String) (value : α) :
    (env.extend name value).get? x = if name = x then some value else env.get? x := by
  unfold get? extend
  rw [List.find?_cons]
  by_cases h : name = x
  · rw [if_pos h, beq_iff_eq.mpr h]
    rfl
  · rw [if_neg h, beq_eq_false_iff_ne.mpr h]

theorem extendAll_cons (env : Env α) (binding : String × α) (rest : List (String × α)) :
    env.extendAll (binding :: rest) = (env.extend binding.1 binding.2).extendAll rest := rfl

theorem extendAll_append (env : Env α) (bs cs : List (String × α)) :
    env.extendAll (bs ++ cs) = (env.extendAll bs).extendAll cs := List.foldl_append

/-- Of several bindings of one name the last one counts. -/
theorem get?_extendAll (env : Env α) (bindings : List (String × α)) (x : String) :
    (env.extendAll bindings).get? x =
      ((bindings.reverse.find? fun b => b.1 == x).map Prod.snd).or (env.get? x) := by
  induction bindings generalizing env with
  | nil => rfl
  | cons b rest ih =>
    rw [extendAll_cons, ih, get?_extend, List.reverse_cons, List.find?_append]
    cases rest.reverse.find? fun b => b.1 == x with
    | some last => rfl
    | none =>
      by_cases hb : b.1 = x
      · simp [hb]
      · simp [hb]

/-- Names that are not bound stand for what they stood for before. -/
theorem get?_extendAll_of_not_mem {env : Env α} {bindings : List (String × α)} {x : String}
    (h : x ∉ bindings.map Prod.fst) : (env.extendAll bindings).get? x = env.get? x := by
  rw [get?_extendAll, List.find?_eq_none.mpr]
  · rfl
  · intro b hb heq
    exact h (List.mem_map.mpr ⟨b, List.mem_reverse.mp hb, by simpa using heq⟩)

/-- What a bound name stands for does not depend on what was there before. -/
theorem get?_extendAll_of_mem (env env₀ : Env α) {bindings : List (String × α)} {x : String}
    (h : x ∈ bindings.map Prod.fst) :
    (env.extendAll bindings).get? x = (env₀.extendAll bindings).get? x ∧
      ((env.extendAll bindings).get? x).isSome := by
  obtain ⟨b, hb, hx⟩ := List.mem_map.mp h
  have hfind : (bindings.reverse.find? fun b => b.1 == x).isSome :=
    List.find?_isSome.mpr ⟨b, List.mem_reverse.mpr hb, by simpa using hx⟩
  obtain ⟨last, hlast⟩ := Option.isSome_iff_exists.mp hfind
  rw [get?_extendAll, get?_extendAll, hlast]
  exact ⟨rfl, rfl⟩

/-- A name stands for what a binding says, or for what it stood for before. -/
theorem mem_or_get?_of_extendAll {env : Env α} {bindings : List (String × α)} {x : String}
    {value : α} (h : (env.extendAll bindings).get? x = some value) :
    (x, value) ∈ bindings ∨ x ∉ bindings.map Prod.fst ∧ env.get? x = some value := by
  by_cases hx : x ∈ bindings.map Prod.fst
  · rw [get?_extendAll] at h
    cases hfind : bindings.reverse.find? fun b => b.1 == x with
    | none =>
      obtain ⟨b, hb, rfl⟩ := List.mem_map.mp hx
      have hne := List.find?_eq_none.mp hfind b (List.mem_reverse.mpr hb)
      exact absurd (beq_self_eq_true b.1) hne
    | some b =>
      rw [hfind] at h
      cases h
      have hname : b.1 = x := by simpa using List.find?_some hfind
      rw [← hname]
      exact .inl (List.mem_reverse.mp (List.mem_of_find?_eq_some hfind))
  · rw [get?_extendAll_of_not_mem hx] at h
    exact .inr ⟨hx, h⟩

/-! ### Visible bindings -/

theorem find?_firstOfEach (frames : List (String × α)) (x : String) :
    (firstOfEach frames).find? (fun f => f.1 == x) = frames.find? fun f => f.1 == x := by
  induction frames with
  | nil => rfl
  | cons f fs ih =>
    rw [firstOfEach, List.find?_cons, List.find?_cons]
    by_cases hf : f.1 = x
    · simp [hf]
    · -- The filter drops bindings of another name only.
      have hkept : ((firstOfEach fs).filter fun g => g.1 != f.1).find? (fun f => f.1 == x) =
          (firstOfEach fs).find? fun f => f.1 == x := by
        rw [List.find?_filter]
        congr 1
        funext g
        by_cases hg : g.1 = x
        · simp [hg, Ne.symm hf]
        · simp [hg]
      rw [hkept, ih]

theorem get?_map (f : String → α → β) (env : Env α) (x : String) :
    (env.map f).get? x = (env.get? x).map (f x) := by
  unfold get? map visible
  rw [List.find?_map, Option.map_map]
  show (((firstOfEach env.frames).find? fun g => g.1 == x).map fun g => f g.1 g.2) = _
  rw [find?_firstOfEach, Option.map_map]
  cases hfind : env.frames.find? fun g => g.1 == x with
  | none => rfl
  | some g =>
    obtain rfl : g.1 = x := by simpa using List.find?_some hfind
    rfl

theorem mem_names {env : Env α} {x : String} : x ∈ env.names ↔ (env.get? x).isSome := by
  unfold names visible get?
  rw [← find?_firstOfEach, Option.isSome_map, List.find?_isSome, List.mem_map]
  simp only [beq_iff_eq]

theorem names_nodup (env : Env α) : env.names.Nodup := by
  unfold names visible
  induction env.frames with
  | nil => exact .nil
  | cons f fs ih =>
    rw [firstOfEach, List.map_cons, List.nodup_cons]
    refine ⟨?_, ih.sublist (List.filter_sublist.map _)⟩
    simp only [List.mem_map, List.mem_filter, bne_iff_ne]
    rintro ⟨g, ⟨-, hne⟩, heq⟩
    exact hne heq

end ReactiveDoc.Env
