import Mathlib
import ReactiveDoc.Proofs.Cache.Contents

namespace ReactiveDoc

/-!
# A cache and its history

What a cache holds is told by the requests that were put to it, the latest one first.  The results
and the order of use are changed separately; that both are of the same keys is the invariant that
everything else rests on.

* `FragmentCache.after` — a new cache after requests.
* `latest`, `lastUse`, `evictedKeys` — what the requests say about a key.
* `FragmentCache.Tracked` — the keys with a result are the keys whose use is tracked.
* `LeastRecentlyUsed` — what is expected of a cache that forgets what was used least recently.
* `after_leastRecentlyUsed` — so it is after all requests, with any capacity.
-/

/-- What can be asked of a cache. -/
inductive CacheRequest where
  | find (key : FragmentKey)
  | insert (key : FragmentKey) (result : FragmentResult)
  | invalidate (fragment : Nat)
  | clear

/-- The request looks a key up. -/
def CacheRequest.isFind : CacheRequest → Bool
  | .find _ => true
  | _ => false

namespace FragmentCache

/-- The cache after a request. -/
def serve (c : FragmentCache) : CacheRequest → FragmentCache
  | .find key => (c.find key).2
  | .insert key result => c.insert key result
  | .invalidate fragment => (c.invalidate fragment).2
  | .clear => c.clear

/-- A new cache after requests, the latest one first. -/
def after (capacity : Nat) : List CacheRequest → FragmentCache
  | [] => ofCapacity capacity
  | request :: earlier => (after capacity earlier).serve request

/-- The keys that have to make room where a result is kept. -/
def evicted (c : FragmentCache) : CacheRequest → List FragmentKey
  | .insert key result => c.keys.filter fun k => k ∉ (c.insert key result).keys
  | _ => []

end FragmentCache

open FragmentCache

/-! ### What requests say about a key -/

/-- The result that was kept last under a key, unless the key was forgotten since. -/
def latest (capacity : Nat) (key : FragmentKey) : List CacheRequest → Option FragmentResult
  | [] => none
  | .find _ :: earlier => latest capacity key earlier
  | .insert k result :: earlier =>
      if k = key then some result
      else if key ∈ (after capacity earlier).evicted (.insert k result) then none
      else latest capacity key earlier
  | .invalidate fragment :: earlier =>
      if key.fragment = fragment then none else latest capacity key earlier
  | .clear :: _ => none

/-- When a result was last kept or found under a key, in requests from the start; `0` if never. -/
def lastUse (capacity : Nat) (key : FragmentKey) : List CacheRequest → Nat
  | [] => 0
  | .find k :: earlier =>
      if k = key ∧ (latest capacity key earlier).isSome then earlier.length + 1
      else lastUse capacity key earlier
  | .insert k _ :: earlier =>
      if k = key then earlier.length + 1 else lastUse capacity key earlier
  | .invalidate _ :: earlier | .clear :: earlier => lastUse capacity key earlier

/-- The keys that had to make room so far. -/
def evictedKeys (capacity : Nat) : List CacheRequest → List FragmentKey
  | [] => []
  | request :: earlier => (after capacity earlier).evicted request ++ evictedKeys capacity earlier

theorem latest_insert (capacity : Nat) (key k : FragmentKey) (result : FragmentResult)
    (earlier : List CacheRequest) : latest capacity key (.insert k result :: earlier) =
      if k = key then some result
      else if key ∈ (after capacity earlier).evicted (.insert k result) then none
      else latest capacity key earlier := rfl

theorem evictedKeys_cons (capacity : Nat) (request : CacheRequest) (earlier : List CacheRequest) :
    evictedKeys capacity (request :: earlier) =
      (after capacity earlier).evicted request ++ evictedKeys capacity earlier := rfl

theorem lastUse_le (capacity : Nat) (key : FragmentKey) (requests : List CacheRequest) :
    lastUse capacity key requests ≤ requests.length := by
  induction requests with
  | nil => exact Nat.le_refl 0
  | cons request earlier ih =>
    rw [List.length_cons]
    cases request with
    | find k =>
      unfold lastUse
      split <;> omega
    | insert k result =>
      unfold lastUse
      split <;> omega
    | invalidate fragment => exact ih.trans (Nat.le_succ _)
    | clear => exact ih.trans (Nat.le_succ _)

/-! ### The table of results -/

namespace FragmentCache

variable {c : FragmentCache} {key k : FragmentKey} {result : FragmentResult}
  {results : List (FragmentKey × FragmentResult)}

theorem mem_keys_iff : key ∈ c.keys ↔ (c.get? key).isSome := by
  unfold keys get?
  rw [List.lookup_isSome_iff]
  constructor
  · intro h
    obtain ⟨e, he, rfl⟩ := List.mem_map.mp h
    exact ⟨e, he, by simp⟩
  · rintro ⟨e, he, heq⟩
    obtain rfl : key = e.1 := by simpa using heq
    exact List.mem_map_of_mem he

theorem lookup_without (results : List (FragmentKey × FragmentResult)) (key k : FragmentKey) :
    (without results k).lookup key = if key = k then none else results.lookup key := by
  induction results with
  | nil => simp [without]
  | cons e rest ih =>
    unfold without at ih ⊢
    rw [List.filter_cons, List.lookup_cons]
    by_cases he : e.1 = k
    · rw [if_neg (by simp [he]), ih]
      by_cases hkey : key = k
      · simp [hkey]
      · have hne : (key == e.1) = false := by simpa [he] using hkey
        simp [hne]
    · rw [if_pos (by simp [he]), List.lookup_cons, ih]
      by_cases hkey : key = e.1
      · simp [hkey, he]
      · have hne : (key == e.1) = false := by simpa using hkey
        simp [hne]

theorem map_fst_without (results : List (FragmentKey × FragmentResult)) (k : FragmentKey) :
    (without results k).map Prod.fst = (results.map Prod.fst).filter (· ≠ k) := by
  unfold without
  rw [List.filter_map]
  rfl

theorem foldl_without (results : List (FragmentKey × FragmentResult)) (stale : List FragmentKey)
    (key : FragmentKey) : (stale.foldl without results).lookup key =
      if key ∈ stale then none else results.lookup key := by
  induction stale generalizing results with
  | nil => simp
  | cons k stale ih =>
    rw [List.foldl_cons, ih, lookup_without]
    by_cases hkey : key = k
    · simp [hkey]
    · by_cases hmem : key ∈ stale <;> simp [hkey, hmem]

theorem map_fst_foldl_without (results : List (FragmentKey × FragmentResult))
    (stale : List FragmentKey) : (stale.foldl without results).map Prod.fst =
      (results.map Prod.fst).filter (· ∉ stale) := by
  induction stale generalizing results with
  | nil => simp
  | cons k stale ih =>
    rw [List.foldl_cons, ih, map_fst_without, List.filter_filter]
    refine List.filter_congr fun x _ => ?_
    simp [Bool.and_comm]

/-! ### Results and order of use -/

/-- The keys with a result are the keys whose use is tracked.  They are different, and there are no
    more of them than there is room for. -/
structure Tracked (c : FragmentCache) : Prop where
  lawful : c.recency.Lawful
  perm : c.keys.Perm c.recency.keys

theorem tracked_ofCapacity (capacity : Nat) : (ofCapacity capacity).Tracked :=
  ⟨Recent.lawful_ofCapacity capacity, .nil⟩

namespace Tracked

theorem mem_iff (h : c.Tracked) : key ∈ c.recency.keys ↔ key ∈ c.keys := h.perm.mem_iff.symm

theorem nodup (h : c.Tracked) : c.keys.Nodup := h.perm.nodup_iff.mpr h.lawful.nodup

theorem size_eq (h : c.Tracked) : c.size = c.recency.keys.length := by
  rw [← h.perm.length_eq, keys, List.length_map]
  rfl

/-- A use of a key that is there. -/
theorem touch (h : c.Tracked) (hkey : key ∈ c.keys) (counts : CacheCounts) :
    Tracked { c with recency := c.recency.touch key, counts } where
  lawful := h.lawful.touch (h.mem_iff.mpr hkey)
  perm := by
    have hkey := h.mem_iff.mpr hkey
    show c.keys.Perm (c.recency.touch key).keys
    rw [Recent.keys_touch hkey]
    refine h.perm.trans ?_
    rw [List.perm_ext_iff_of_nodup h.lawful.nodup
      (Recent.nodup_front h.lawful.nodup (· ≠ key) (not_not.mpr rfl))]
    intro x
    by_cases hx : x = key <;> simp [hx, hkey]

theorem clear (h : c.Tracked) : c.clear.Tracked := ⟨h.lawful.clear, .nil⟩

end Tracked

/-- Nothing has to make room for a key that is there or for which there is room. -/
theorem insert_of_room (h : c.Tracked) (hroom : key ∈ c.keys ∨ c.size < c.recency.capacity)
    (result : FragmentResult) :
    (c.insert key result).results = (key, result) :: without c.results key ∧
      (c.insert key result).recency.keys = key :: c.recency.keys.filter (· ≠ key) ∧
      (c.insert key result).counts = c.counts := by
  rw [h.size_eq, ← h.mem_iff] at hroom
  obtain ⟨hnone, hkeys⟩ := Recent.insert_of_room h.lawful hroom ()
  unfold insert
  generalize c.recency.insert key () = inserted at hnone hkeys
  obtain ⟨recency, evicted?⟩ := inserted
  obtain rfl : evicted? = none := hnone
  exact ⟨rfl, hkeys, rfl⟩

/-- For a new key without room the key whose use is the oldest makes room. -/
theorem insert_of_full (h : c.Tracked) (hnew : key ∉ c.keys) (hfull : c.size = c.recency.capacity)
    (result : FragmentResult) :
    ∃ oldest ∈ c.keys, c.recency.keys.getLast? = some oldest ∧
      (c.insert key result).results = (key, result) :: without (without c.results oldest) key ∧
      (c.insert key result).recency.keys = key :: c.recency.keys.filter (· ≠ oldest) ∧
      (c.insert key result).counts = { c.counts with evictions := c.counts.evictions + 1 } := by
  rw [h.size_eq] at hfull
  rw [← h.mem_iff] at hnew
  obtain ⟨oldest, holdest, hlast, hsome, hkeys⟩ := Recent.insert_of_full h.lawful hnew hfull ()
  refine ⟨oldest, h.mem_iff.mp holdest, hlast, ?_⟩
  unfold insert
  generalize c.recency.insert key () = inserted at hsome hkeys
  obtain ⟨recency, evicted?⟩ := inserted
  obtain rfl : evicted? = some oldest := hsome
  exact ⟨rfl, hkeys, rfl⟩

theorem recency_insert (c : FragmentCache) (key : FragmentKey) (result : FragmentResult) :
    (c.insert key result).recency = (c.recency.insert key ()).1 := by
  unfold insert
  obtain ⟨recency, evicted?⟩ := c.recency.insert key ()
  cases evicted? <;> rfl

theorem keys_insert_of_room (h : c.Tracked) (hroom : key ∈ c.keys ∨ c.size < c.recency.capacity) :
    (c.insert key result).keys = key :: c.keys.filter (· ≠ key) := by
  obtain ⟨hresults, -⟩ := insert_of_room h hroom result
  unfold keys
  rw [hresults, List.map_cons, map_fst_without]

/-- A key is there after another one was kept, unless it had to make room. -/
theorem mem_keys_insert_of_room (h : c.Tracked)
    (hroom : key ∈ c.keys ∨ c.size < c.recency.capacity) :
    k ∈ (c.insert key result).keys ↔ k = key ∨ k ∈ c.keys := by
  rw [keys_insert_of_room h hroom, List.mem_cons, List.mem_filter]
  by_cases hk : k = key <;> simp [hk]

theorem evicted_of_room (h : c.Tracked) (hroom : key ∈ c.keys ∨ c.size < c.recency.capacity)
    (result : FragmentResult) : c.evicted (.insert key result) = [] :=
  List.filter_eq_nil_iff.mpr fun k hk => by
    simp [mem_keys_insert_of_room h hroom, hk]

/-- What a cache holds after a new key took the place of the oldest one. -/
theorem get?_insert_of_full {oldest : FragmentKey}
    (hresults : (c.insert key result).results =
      (key, result) :: without (without c.results oldest) key) (k : FragmentKey) :
    (c.insert key result).get? k =
      if k = key then some result else if k = oldest then none else c.get? k := by
  unfold get?
  rw [hresults, List.lookup_cons, lookup_without, lookup_without]
  by_cases hk : k = key
  · simp [hk]
  · have hne : (k == key) = false := by simpa using hk
    simp [hne, hk]

theorem get?_insert_of_room (h : c.Tracked) (hroom : key ∈ c.keys ∨ c.size < c.recency.capacity)
    (k : FragmentKey) :
    (c.insert key result).get? k = if k = key then some result else c.get? k := by
  unfold get?
  rw [(insert_of_room h hroom result).1, List.lookup_cons, lookup_without]
  by_cases hk : k = key
  · simp [hk]
  · have hne : (k == key) = false := by simpa using hk
    simp [hne, hk]

theorem evicted_of_full (h : c.Tracked) (hnew : key ∉ c.keys) {oldest : FragmentKey}
    (holdest : oldest ∈ c.keys) (hresults : (c.insert key result).results =
      (key, result) :: without (without c.results oldest) key) :
    c.evicted (.insert key result) = [oldest] := by
  unfold evicted
  rw [← List.perm_singleton, List.perm_ext_iff_of_nodup (h.nodup.filter _) (List.nodup_singleton _)]
  intro k
  rw [List.mem_filter, List.mem_singleton, decide_eq_true_iff, mem_keys_iff (c := c.insert key result),
    get?_insert_of_full hresults]
  constructor
  · rintro ⟨hk, hgone⟩
    by_contra hne
    have hkey : k ≠ key := fun heq => hnew (heq ▸ hk)
    rw [if_neg hkey, if_neg hne] at hgone
    exact hgone (mem_keys_iff.mp hk)
  · rintro rfl
    have hkey : k ≠ key := fun heq => hnew (heq ▸ holdest)
    refine ⟨holdest, ?_⟩
    rw [if_neg hkey, if_pos rfl]
    exact Bool.false_ne_true

theorem Tracked.insert (h : c.Tracked) (key : FragmentKey) (result : FragmentResult) :
    (c.insert key result).Tracked where
  lawful := by
    rw [recency_insert]
    exact h.lawful.insert key ()
  perm := by
    have hnodup : (c.insert key result).keys.Nodup := by
      unfold keys
      rw [results_insert, List.map_cons, map_fst_without]
      refine List.nodup_cons.mpr ⟨by simp, List.Nodup.filter _ ?_⟩
      exact h.nodup.sublist ((results_evict_sublist _).map _)
    have hnodup' : (c.insert key result).recency.keys.Nodup := by
      rw [recency_insert]
      exact (h.lawful.insert key ()).nodup
    refine (List.perm_ext_iff_of_nodup hnodup hnodup').mpr fun k => ?_
    by_cases hroom : key ∈ c.keys ∨ c.size < c.recency.capacity
    · obtain ⟨-, hkeys, -⟩ := insert_of_room h hroom result
      rw [mem_keys_insert_of_room h hroom, hkeys, List.mem_cons, List.mem_filter, h.mem_iff]
      by_cases hk : k = key <;> simp [hk]
    · obtain ⟨hnew, hfull⟩ := not_or.mp hroom
      have hsize : c.size = c.recency.capacity :=
        Nat.le_antisymm (h.size_eq ▸ h.lawful.room) (Nat.not_lt.mp hfull)
      obtain ⟨oldest, holdest, -, hresults, hkeys, -⟩ := insert_of_full h hnew hsize result
      rw [mem_keys_iff, get?_insert_of_full hresults, hkeys, List.mem_cons, List.mem_filter, h.mem_iff,
        mem_keys_iff]
      by_cases hk : k = key
      · simp [hk]
      · by_cases hold : k = oldest <;> simp [hk, hold]

/-- The keys of the fragment at a position, and no others, have no result afterwards. -/
theorem get?_invalidate (c : FragmentCache) (fragment : Nat) (key : FragmentKey) :
    (c.invalidate fragment).2.get? key = if key.fragment = fragment then none else c.get? key := by
  unfold invalidate get?
  rw [foldl_without]
  by_cases hfragment : key.fragment = fragment
  · rw [if_pos hfragment]
    by_cases hkey : key ∈ c.keys
    · rw [if_pos (List.mem_filter.mpr ⟨hkey, by simpa using hfragment⟩)]
    · rw [if_neg fun hmem => hkey (List.mem_of_mem_filter hmem)]
      rw [mem_keys_iff, Bool.not_eq_true, Option.isSome_eq_false_iff, Option.isNone_iff_eq_none] at hkey
      exact hkey
  · rw [if_neg hfragment, if_neg]
    intro hmem
    exact hfragment (by simpa using (List.mem_filter.mp hmem).2)

theorem keys_invalidate (c : FragmentCache) (fragment : Nat) :
    (c.invalidate fragment).2.keys = c.keys.filter fun key => key.fragment ≠ fragment := by
  unfold invalidate
  show ((c.keys.filter _).foldl without c.results).map Prod.fst = _
  rw [map_fst_foldl_without]
  refine List.filter_congr fun key hkey => ?_
  have hkey : key ∈ c.keys := hkey
  simp [List.mem_filter, hkey]

theorem recency_invalidate (h : c.Tracked) (fragment : Nat) :
    (c.invalidate fragment).2.recency.keys =
      c.recency.keys.filter fun key => key.fragment ≠ fragment := by
  unfold invalidate
  rw [Recent.keys_foldl_erase]
  refine List.filter_congr fun key hkey => ?_
  simp [List.mem_filter, h.mem_iff.mp hkey]

theorem Tracked.invalidate (h : c.Tracked) (fragment : Nat) :
    (c.invalidate fragment).2.Tracked where
  lawful := h.lawful.foldl_erase _
  perm := by
    rw [keys_invalidate, recency_invalidate h]
    exact h.perm.filter _

/-- The number that is told is that of the keys that were forgotten. -/
theorem count_invalidate (c : FragmentCache) (fragment : Nat) :
    (c.invalidate fragment).1 + (c.invalidate fragment).2.size = c.size := by
  have hsize (c : FragmentCache) : c.size = c.keys.length := (List.length_map _).symm
  rw [hsize, hsize, keys_invalidate]
  unfold invalidate
  show (c.keys.filter _).length + _ = _
  rw [List.length_eq_length_filter_add (l := c.keys) fun key => key.fragment == fragment]
  refine congrArg _ (congrArg List.length (List.filter_congr fun key _ => ?_))
  by_cases hfragment : key.fragment = fragment <;> simp [hfragment]

end FragmentCache

/-! ### After any requests -/

/-- What is expected of a cache that forgets what was used least recently, after requests. -/
structure LeastRecentlyUsed (capacity : Nat) (requests : List CacheRequest) : Prop where
  /-- A look-up finds what was kept last, unless it was forgotten since. -/
  find_eq : ∀ key, ((after capacity requests).find key).1 = latest capacity key requests
  /-- A new key for which there is no room drives out the one whose last use is the oldest. -/
  evicted_of_full : ∀ key result, latest capacity key requests = none →
    (after capacity requests).size = max capacity 1 →
      ∃ oldest, (after capacity requests).evicted (.insert key result) = [oldest] ∧
        (latest capacity oldest requests).isSome ∧
        ∀ other, (latest capacity other requests).isSome → other ≠ oldest →
          lastUse capacity oldest requests < lastUse capacity other requests
  /-- Otherwise nothing has to make room. -/
  evicted_of_room : ∀ key result, (latest capacity key requests).isSome ∨
    (after capacity requests).size < max capacity 1 →
      (after capacity requests).evicted (.insert key result) = []
  /-- The keys with a result are the keys whose use is tracked, each once. -/
  keys_nodup : (after capacity requests).keys.Nodup
  keys_perm : (after capacity requests).keys.Perm (after capacity requests).recency.keys
  size_le : (after capacity requests).size ≤ max capacity 1
  hits_add_misses : (after capacity requests).counts.hits + (after capacity requests).counts.misses =
    requests.countP CacheRequest.isFind
  evictions_eq : (after capacity requests).counts.evictions = (evictedKeys capacity requests).length
  /-- To forget a fragment is to forget the keys of its position and no others; their number is
      told. -/
  get?_invalidate : ∀ fragment key, ((after capacity requests).invalidate fragment).2.get? key =
    if key.fragment = fragment then none else (after capacity requests).get? key
  count_invalidate : ∀ fragment, ((after capacity requests).invalidate fragment).1 +
    ((after capacity requests).invalidate fragment).2.size = (after capacity requests).size

/-- What the requests say about a cache is so. -/
structure Remembers (capacity : Nat) (requests : List CacheRequest) : Prop where
  tracked : (after capacity requests).Tracked
  capacity_eq : (after capacity requests).recency.capacity = max capacity 1
  get?_eq : ∀ key, (after capacity requests).get? key = latest capacity key requests
  ordered : (after capacity requests).recency.keys.Pairwise fun key key' =>
    lastUse capacity key' requests < lastUse capacity key requests
  hits_add_misses : (after capacity requests).counts.hits + (after capacity requests).counts.misses =
    requests.countP CacheRequest.isFind
  evictions_eq : (after capacity requests).counts.evictions = (evictedKeys capacity requests).length

namespace Remembers

variable {capacity : Nat} {requests : List CacheRequest} {key : FragmentKey}

/-- A key that is used comes to the front; the order of the others stays. -/
theorem ordered_front (h : Remembers capacity requests) {request : CacheRequest}
    (p : FragmentKey → Prop) [DecidablePred p]
    (hkey : lastUse capacity key (request :: requests) = requests.length + 1)
    (hothers : ∀ k ∈ (after capacity requests).recency.keys, p k →
      lastUse capacity k (request :: requests) = lastUse capacity k requests) :
    (key :: (after capacity requests).recency.keys.filter p).Pairwise fun k k' =>
      lastUse capacity k' (request :: requests) < lastUse capacity k (request :: requests) := by
  have hmem {k : FragmentKey} (hk : k ∈ (after capacity requests).recency.keys.filter p) :
      lastUse capacity k (request :: requests) = lastUse capacity k requests := by
    obtain ⟨hk, hp⟩ := List.mem_filter.mp hk
    exact hothers k hk (of_decide_eq_true hp)
  refine List.pairwise_cons.mpr ⟨fun k hk => ?_, (h.ordered.filter _).imp_of_mem fun hk hk' hlt => ?_⟩
  · rw [hkey, hmem hk]
    exact Nat.lt_succ_of_le (lastUse_le capacity k requests)
  · rwa [hmem hk, hmem hk']

theorem mem_keys (h : Remembers capacity requests) :
    key ∈ (after capacity requests).keys ↔ (latest capacity key requests).isSome := by
  rw [mem_keys_iff, h.get?_eq]

theorem find (h : Remembers capacity requests) (key : FragmentKey) :
    Remembers capacity (.find key :: requests) := by
  cases hget : (after capacity requests).get? key with
  -- A hit: the key moves to the front, and to its last use.
  | some result =>
    have hmem : key ∈ (after capacity requests).keys := mem_keys_iff.mpr (by rw [hget]; rfl)
    have hafter : after capacity (.find key :: requests) =
        { after capacity requests with
          recency := (after capacity requests).recency.touch key
          counts := { (after capacity requests).counts with
            hits := (after capacity requests).counts.hits + 1 } } := by
      show ((after capacity requests).find key).2 = _
      unfold FragmentCache.find
      rw [hget]
    refine ⟨?_, ?_, ?_, ?_, ?_, ?_⟩
    · rw [hafter]
      exact h.tracked.touch hmem _
    · rw [hafter]
      exact (Recent.capacity_touch _ key).trans h.capacity_eq
    · rw [hafter]
      exact h.get?_eq
    · rw [hafter, Recent.keys_touch (h.tracked.mem_iff.mpr hmem)]
      refine h.ordered_front (· ≠ key) ?_ fun k _ hk => ?_
      · exact if_pos ⟨rfl, h.mem_keys.mp hmem⟩
      · exact if_neg fun hand => hk hand.1.symm
    · rw [hafter, List.countP_cons_of_pos rfl, ← h.hits_add_misses]
      exact Nat.add_right_comm _ 1 _
    · rw [hafter]
      exact h.evictions_eq
  -- A miss is only counted: a key that is not there has no last use.
  | none =>
    have hafter : after capacity (.find key :: requests) =
        { after capacity requests with counts := { (after capacity requests).counts with
            misses := (after capacity requests).counts.misses + 1 } } := by
      show ((after capacity requests).find key).2 = _
      unfold FragmentCache.find
      rw [hget]
    have huse (k : FragmentKey) :
        lastUse capacity k (.find key :: requests) = lastUse capacity k requests := by
      refine if_neg ?_
      rintro ⟨rfl, hsome⟩
      rw [← h.get?_eq, hget] at hsome
      cases hsome
    refine ⟨?_, ?_, ?_, ?_, ?_, ?_⟩
    · rw [hafter]
      exact ⟨h.tracked.lawful, h.tracked.perm⟩
    · rw [hafter]
      exact h.capacity_eq
    · rw [hafter]
      exact h.get?_eq
    · rw [hafter]
      simp only [huse]
      exact h.ordered
    · rw [hafter, List.countP_cons_of_pos rfl, ← h.hits_add_misses]
      exact Nat.add_assoc _ _ 1
    · rw [hafter]
      exact h.evictions_eq

theorem insert (h : Remembers capacity requests) (key : FragmentKey) (result : FragmentResult) :
    Remembers capacity (.insert key result :: requests) := by
  have hcapacity : (after capacity (.insert key result :: requests)).recency.capacity =
      max capacity 1 := by
    show ((after capacity requests).insert key result).recency.capacity = _
    rw [recency_insert, Recent.capacity_insert]
    exact h.capacity_eq
  have htracked : (after capacity (.insert key result :: requests)).Tracked :=
    h.tracked.insert key result
  have hfront : lastUse capacity key (.insert key result :: requests) = requests.length + 1 :=
    if_pos rfl
  have huse {k : FragmentKey} (hk : k ≠ key) :
      lastUse capacity k (.insert key result :: requests) = lastUse capacity k requests :=
    if_neg (Ne.symm hk)
  -- With room nothing is evicted; without, it is the key that was used the longest ago.
  by_cases hroom : key ∈ (after capacity requests).keys ∨
    (after capacity requests).size < (after capacity requests).recency.capacity
  · obtain ⟨-, hkeys, hcounts⟩ := insert_of_room h.tracked hroom result
    have hevicted := FragmentCache.evicted_of_room h.tracked hroom result
    refine ⟨htracked, hcapacity, fun k => ?_, ?_, ?_, ?_⟩
    · refine (get?_insert_of_room h.tracked hroom k).trans ?_
      rw [latest_insert, hevicted, h.get?_eq]
      by_cases hk : k = key
      · rw [if_pos hk, if_pos hk.symm]
      · rw [if_neg hk, if_neg (Ne.symm hk), if_neg List.not_mem_nil]
    · show ((after capacity requests).insert key result).recency.keys.Pairwise _
      rw [hkeys]
      exact h.ordered_front (· ≠ key) hfront fun k _ hk => huse hk
    · show ((after capacity requests).insert key result).counts.hits + _ = _
      rw [List.countP_cons_of_neg Bool.false_ne_true, ← h.hits_add_misses, ← hcounts]
      rfl
    · show ((after capacity requests).insert key result).counts.evictions = _
      rw [hcounts, evictedKeys_cons, hevicted]
      exact h.evictions_eq
  · obtain ⟨hnew, hfull⟩ := not_or.mp hroom
    have hsize : (after capacity requests).size = (after capacity requests).recency.capacity :=
      Nat.le_antisymm (h.tracked.size_eq ▸ h.tracked.lawful.room) (Nat.not_lt.mp hfull)
    obtain ⟨oldest, holdest, -, hresults, hkeys, hcounts⟩ :=
      insert_of_full h.tracked hnew hsize result
    have hevicted := FragmentCache.evicted_of_full h.tracked hnew holdest hresults
    refine ⟨htracked, hcapacity, fun k => ?_, ?_, ?_, ?_⟩
    · refine (get?_insert_of_full hresults k).trans ?_
      rw [latest_insert, hevicted, h.get?_eq]
      by_cases hk : k = key
      · rw [if_pos hk, if_pos hk.symm]
      · rw [if_neg hk, if_neg (Ne.symm hk)]
        simp only [List.mem_singleton]
    · show ((after capacity requests).insert key result).recency.keys.Pairwise _
      rw [hkeys]
      refine h.ordered_front (· ≠ oldest) hfront fun k hmem _ => huse ?_
      rintro rfl
      exact hnew (h.tracked.mem_iff.mp hmem)
    · show ((after capacity requests).insert key result).counts.hits +
        ((after capacity requests).insert key result).counts.misses = _
      rw [List.countP_cons_of_neg Bool.false_ne_true, hcounts]
      exact h.hits_add_misses
    · show ((after capacity requests).insert key result).counts.evictions = _
      rw [hcounts, evictedKeys_cons, hevicted, List.length_append, ← h.evictions_eq]
      exact Nat.add_comm _ 1

theorem invalidate (h : Remembers capacity requests) (fragment : Nat) :
    Remembers capacity (.invalidate fragment :: requests) := by
  refine ⟨h.tracked.invalidate fragment, ?_, fun k => ?_, ?_, ?_, h.evictions_eq⟩
  · exact (Recent.capacity_foldl_erase _ _).trans h.capacity_eq
  · refine (FragmentCache.get?_invalidate _ fragment k).trans ?_
    rw [h.get?_eq]
    rfl
  · show ((after capacity requests).invalidate fragment).2.recency.keys.Pairwise _
    rw [recency_invalidate h.tracked]
    exact h.ordered.filter _
  · rw [List.countP_cons_of_neg Bool.false_ne_true]
    exact h.hits_add_misses

theorem clear (h : Remembers capacity requests) : Remembers capacity (.clear :: requests) := by
  refine ⟨h.tracked.clear, h.capacity_eq, fun k => rfl, .nil, ?_, h.evictions_eq⟩
  rw [List.countP_cons_of_neg Bool.false_ne_true]
  exact h.hits_add_misses

end Remembers

theorem after_remembers (capacity : Nat) (requests : List CacheRequest) :
    Remembers capacity requests := by
  induction requests with
  | nil => exact ⟨tracked_ofCapacity capacity, rfl, fun _ => rfl, .nil, rfl, rfl⟩
  | cons request earlier ih =>
    cases request with
    | find key => exact ih.find key
    | insert key result => exact ih.insert key result
    | invalidate fragment => exact ih.invalidate fragment
    | clear => exact ih.clear

/-- A cache forgets what was used least recently, whatever is asked of it. -/
theorem after_leastRecentlyUsed (capacity : Nat) (requests : List CacheRequest) :
    LeastRecentlyUsed capacity requests := by
  have h := after_remembers capacity requests
  refine ⟨fun key => ?_, fun key result hnone hfull => ?_, fun key result hroom => ?_,
    h.tracked.nodup, h.tracked.perm, ?_, h.hits_add_misses, h.evictions_eq,
    FragmentCache.get?_invalidate _, FragmentCache.count_invalidate _⟩
  · rw [← h.get?_eq]
    unfold FragmentCache.find
    cases (after capacity requests).get? key <;> rfl
  · have hnew : key ∉ (after capacity requests).keys := by
      rw [h.mem_keys, hnone]
      exact Bool.false_ne_true
    rw [← h.capacity_eq] at hfull
    obtain ⟨oldest, holdest, hlast, hresults, -⟩ := insert_of_full h.tracked hnew hfull result
    refine ⟨oldest, FragmentCache.evicted_of_full h.tracked hnew holdest hresults,
      h.mem_keys.mp holdest, fun other hother hne => ?_⟩
    -- All tracked keys but the last one stand before it, and were used later.
    obtain ⟨front, hfront⟩ := List.getLast?_eq_some_iff.mp hlast
    have hmem : other ∈ front ++ [oldest] :=
      hfront ▸ h.tracked.mem_iff.mpr (h.mem_keys.mpr hother)
    have hordered := h.ordered
    rw [hfront] at hordered
    refine (List.pairwise_append.mp hordered).2.2 other ?_ oldest (List.mem_singleton_self _)
    exact (List.mem_append.mp hmem).resolve_right fun hlast => hne (List.mem_singleton.mp hlast)
  · refine FragmentCache.evicted_of_room h.tracked ?_ result
    rwa [h.mem_keys, h.capacity_eq]
  · rw [h.tracked.size_eq, ← h.capacity_eq]
    exact h.tracked.lawful.room

end ReactiveDoc
