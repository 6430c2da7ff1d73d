import Mathlib
import ReactiveDoc.Cache.Fragment
import ReactiveDoc.Cache.Recent
import ReactiveDoc.Proofs.Traversal

namespace ReactiveDoc

/-!
# What a cache holds

* `FragmentCache.Holds` — a result is kept under a key.
* `holds_of_find`, `holds_of_insert` — looking up and keeping bring in nothing else.
* `Recent.Lawful` — different keys, and no more of them than there is room for.
* `keys_touch`, `keys_erase` — a use moves a key to the front; forgetting it leaves the others.
* `insert_of_room`, `insert_of_full` — a key goes to the front; without room for a new one, the key
  at the end goes.
-/

namespace FragmentCache

/-- The result is kept under the key. -/
def Holds (cache : FragmentCache) (key : FragmentKey) (result : FragmentResult) : Prop :=
  (key, result) ∈ cache.results

variable {cache cache' : FragmentCache} {key k : FragmentKey} {result r : FragmentResult}

theorem not_holds_ofCapacity {capacity : Nat} : ¬ (ofCapacity capacity).Holds key result :=
  List.not_mem_nil

/-- What is found was there, and finding it adds nothing. -/
theorem holds_of_find {found? : Option FragmentResult} (h : cache.find key = (found?, cache')) :
    (∀ result, found? = some result → cache.Holds key result) ∧
      ∀ k r, cache'.Holds k r → cache.Holds k r := by
  unfold find at h
  cases hget : cache.get? key with
  | some result =>
    rw [hget] at h
    cases h
    exact ⟨fun _ heq => Option.some.inj heq ▸ mem_of_lookup hget, fun _ _ hr => hr⟩
  | none =>
    rw [hget] at h
    cases h
    exact ⟨fun _ heq => (nomatch heq), fun _ _ hr => hr⟩

/-- Making room forgets only. -/
theorem results_evict_sublist (evicted? : Option FragmentKey) :
    (cache.evict evicted?).results.Sublist cache.results := by
  cases evicted? with
  | some evicted => exact List.filter_sublist
  | none => exact .refl _

theorem results_insert : (cache.insert key result).results =
    (key, result) :: without (cache.evict (cache.recency.insert key ()).2).results key := by
  unfold insert
  obtain ⟨recency, evicted?⟩ := cache.recency.insert key ()
  cases evicted? <;> rfl

/-- Keeping a result adds that only. -/
theorem holds_of_insert (h : (cache.insert key result).Holds k r) :
    k = key ∧ r = result ∨ cache.Holds k r := by
  unfold Holds at h
  rw [results_insert] at h
  rcases List.mem_cons.mp h with heq | h
  · exact .inl ⟨congrArg Prod.fst heq, congrArg Prod.snd heq⟩
  · exact .inr ((results_evict_sublist _).subset (List.mem_of_mem_filter h))

end FragmentCache

namespace Recent

/-! ### The order in which keys were used -/

variable {κ α : Type} {m : Recent κ α} {key : κ}

/-- Different keys, and no more of them than there is room for. -/
structure Lawful (m : Recent κ α) : Prop where
  nodup : m.keys.Nodup
  room : m.keys.length ≤ m.capacity
  positive : 0 < m.capacity

theorem lawful_ofCapacity (capacity : Nat) : (ofCapacity capacity : Recent κ α).Lawful where
  nodup := .nil
  room := Nat.zero_le _
  positive := Nat.lt_of_lt_of_le Nat.one_pos (Nat.le_max_right capacity 1)

theorem Lawful.clear (h : m.Lawful) : m.clear.Lawful := ⟨.nil, Nat.zero_le _, h.positive⟩

/-- A key at the front, and others behind it, are different keys. -/
theorem nodup_front (h : m.keys.Nodup) (p : κ → Prop) [DecidablePred p] (hp : ¬ p key) :
    (key :: m.keys.filter p).Nodup :=
  List.nodup_cons.mpr ⟨fun hmem => hp (by simpa using List.of_mem_filter hmem), h.filter _⟩

variable [DecidableEq κ]

/-! ### Forgetting and using a key -/

theorem keys_erase (m : Recent κ α) (key : κ) : (m.erase key).keys = m.keys.filter (· ≠ key) := by
  unfold keys erase
  rw [List.filter_map]
  rfl

theorem length_erase (m : Recent κ α) (key : κ) :
    (m.erase key).entries.length = (m.keys.filter (· ≠ key)).length := by
  rw [← keys_erase, keys, List.length_map]

theorem isSome_get? : (m.get? key).isSome ↔ key ∈ m.keys := by
  unfold get? keys
  rw [List.lookup_isSome_iff]
  constructor
  · rintro ⟨e, he, heq⟩
    obtain rfl : key = e.1 := by simpa using heq
    exact List.mem_map_of_mem he
  · intro h
    obtain ⟨e, he, rfl⟩ := List.mem_map.mp h
    exact ⟨e, he, by simp⟩

theorem keys_touch (h : key ∈ m.keys) : (m.touch key).keys = key :: m.keys.filter (· ≠ key) := by
  obtain ⟨value, hvalue⟩ := Option.isSome_iff_exists.mp (isSome_get?.mpr h)
  unfold touch
  rw [hvalue, ← keys_erase]
  rfl

theorem capacity_touch (m : Recent κ α) (key : κ) : (m.touch key).capacity = m.capacity := by
  unfold touch
  split <;> rfl

theorem length_filter_ne_of_mem (hnodup : m.keys.Nodup) (h : key ∈ m.keys) :
    (m.keys.filter (· ≠ key)).length + 1 = m.keys.length := by
  have hother : (fun x => x != key) = fun x => decide (x ≠ key) := by
    funext x
    by_cases hx : x = key <;> simp [hx]
  have hperm := List.perm_cons_erase h
  rw [hnodup.erase_eq_filter, hother] at hperm
  exact hperm.length_eq.symm

theorem Lawful.touch (h : m.Lawful) (hkey : key ∈ m.keys) : (m.touch key).Lawful where
  nodup := by
    rw [keys_touch hkey]
    exact nodup_front h.nodup (· ≠ key) (not_not.mpr rfl)
  room := by
    rw [keys_touch hkey, capacity_touch, List.length_cons, length_filter_ne_of_mem h.nodup hkey]
    exact h.room
  positive := by
    rw [capacity_touch]
    exact h.positive

theorem Lawful.erase (h : m.Lawful) (key : κ) : (m.erase key).Lawful where
  nodup := by
    rw [keys_erase]
    exact h.nodup.filter _
  room := by
    rw [keys_erase]
    exact (List.length_filter_le _ _).trans h.room
  positive := h.positive

theorem keys_foldl_erase (m : Recent κ α) (stale : List κ) :
    (stale.foldl Recent.erase m).keys = m.keys.filter (· ∉ stale) := by
  induction stale generalizing m with
  | nil => simp
  | cons key stale ih =>
    rw [List.foldl_cons, ih, keys_erase, List.filter_filter]
    refine List.filter_congr fun x _ => ?_
    simp [Bool.and_comm]

theorem capacity_foldl_erase (m : Recent κ α) (stale : List κ) :
    (stale.foldl Recent.erase m).capacity = m.capacity := by
  induction stale generalizing m with
  | nil => rfl
  | cons key stale ih => exact ih _

theorem Lawful.foldl_erase (h : m.Lawful) (stale : List κ) :
    (stale.foldl Recent.erase m).Lawful := by
  induction stale generalizing m with
  | nil => exact h
  | cons key stale ih => exact ih (h.erase key)

/-! ### A key that gets a value -/

theorem capacity_insert (m : Recent κ α) (key : κ) (value : α) :
    (m.insert key value).1.capacity = m.capacity := by
  unfold insert
  dsimp only
  split <;> rfl

/-- A key that is there, or for which there is room, drives out no other. -/
theorem insert_of_room (h : m.Lawful) (hroom : key ∈ m.keys ∨ m.keys.length < m.capacity)
    (value : α) :
    (m.insert key value).2 = none ∧
      (m.insert key value).1.keys = key :: m.keys.filter (· ≠ key) := by
  have hlength : (m.erase key).entries.length < m.capacity := by
    rw [length_erase]
    rcases hroom with hkey | hroom
    · have hone := length_filter_ne_of_mem h.nodup hkey
      have := h.room
      omega
    · exact (List.length_filter_le _ _).trans_lt hroom
  unfold insert
  rw [if_pos hlength, ← keys_erase]
  exact ⟨rfl, rfl⟩

/-- All but the last of different things. -/
theorem dropLast_eq_filter {as : List κ} (h : as.Nodup) {a : κ} (ha : as.getLast? = some a) :
    as.dropLast = as.filter (· ≠ a) := by
  obtain ⟨front, rfl⟩ := List.getLast?_eq_some_iff.mp ha
  have hfront : ∀ x ∈ front, x ≠ a := fun x hx =>
    (List.nodup_append.mp h).2.2 x hx a (List.mem_singleton_self a)
  have hkeep : front.filter (fun x => decide (x ≠ a)) = front :=
    List.filter_eq_self.mpr fun x hx => decide_eq_true (hfront x hx)
  rw [List.dropLast_concat, List.filter_append, hkeep]
  simp

/-- A new key without room drives out the key at the end. -/
theorem insert_of_full (h : m.Lawful) (hnew : key ∉ m.keys) (hfull : m.keys.length = m.capacity)
    (value : α) :
    ∃ oldest ∈ m.keys, m.keys.getLast? = some oldest ∧ (m.insert key value).2 = some oldest ∧
      (m.insert key value).1.keys = key :: m.keys.filter (· ≠ oldest) := by
  have hothers : (m.erase key).entries = m.entries := by
    refine List.filter_eq_self.mpr fun e he => decide_eq_true fun heq => ?_
    exact hnew (heq ▸ List.mem_map_of_mem he)
  have hlength : ¬ (m.erase key).entries.length < m.capacity := by
    rw [hothers, ← hfull, keys, List.length_map]
    exact Nat.lt_irrefl _
  have hne : m.keys ≠ [] := by
    intro hnil
    rw [hnil] at hfull
    have := h.positive
    simp at hfull
    omega
  have hlast := List.getLast?_eq_some_getLast hne
  refine ⟨_, List.getLast_mem hne, hlast, ?_, ?_⟩
  · unfold insert
    rw [if_neg hlength, hothers, ← hlast]
    exact List.getLast?_map.symm
  · rw [← dropLast_eq_filter h.nodup hlast]
    unfold insert
    rw [if_neg hlength, hothers]
    simp [keys, List.map_dropLast]

theorem Lawful.insert (h : m.Lawful) (key : κ) (value : α) : (m.insert key value).1.Lawful := by
  by_cases hroom : key ∈ m.keys ∨ m.keys.length < m.capacity
  · obtain ⟨-, hkeys⟩ := insert_of_room h hroom value
    refine ⟨?_, ?_, ?_⟩
    · rw [hkeys]
      exact nodup_front h.nodup (· ≠ key) (not_not.mpr rfl)
    · rw [hkeys, capacity_insert, List.length_cons]
      rcases hroom with hkey | hroom
      · rw [length_filter_ne_of_mem h.nodup hkey]
        exact h.room
      · exact (Nat.succ_le_succ (List.length_filter_le _ _)).trans hroom
    · rw [capacity_insert]
      exact h.positive
  · obtain ⟨hnew, hfull⟩ := not_or.mp hroom
    obtain ⟨oldest, holdest, -, -, hkeys⟩ := insert_of_full h hnew
      (Nat.le_antisymm h.room (Nat.not_lt.mp hfull)) value
    refine ⟨?_, ?_, ?_⟩
    · rw [hkeys]
      refine List.nodup_cons.mpr ⟨fun hmem => hnew (List.mem_of_mem_filter hmem), h.nodup.filter _⟩
    · rw [hkeys, capacity_insert, List.length_cons, length_filter_ne_of_mem h.nodup holdest]
      exact h.room
    · rw [capacity_insert]
      exact h.positive

end Recent

end ReactiveDoc
