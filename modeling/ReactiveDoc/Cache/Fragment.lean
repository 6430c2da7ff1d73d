import ReactiveDoc.Cache.Recent
import ReactiveDoc.Interface

namespace ReactiveDoc

/-!
# Results of checking fragments, kept for later

* `FragmentKey` — everything that the check of a fragment depends on.
* `FragmentCache` — the results by key, with counts of what was found, missed and forgotten.
-/

/-- The position of a fragment, and what its check depends on as bytes. -/
structure FragmentKey where
  fragment : Nat
  content : List UInt8
  deriving DecidableEq, Repr

/-- What checking a fragment recorded and what it brought into scope. -/
structure FragmentResult where
  interfaces : List (NodeId × Interface)
  bindings : List (String × Interface)

/-- How often keys were found and missed, and how many were forgotten to make room. -/
structure CacheCounts where
  hits : Nat := 0
  misses : Nat := 0
  evictions : Nat := 0
  deriving DecidableEq, Repr

/-- The share of look-ups that found something; `0` if there were none. -/
def CacheCounts.hitRate (c : CacheCounts) : Float :=
  let total := c.hits + c.misses
  if total = 0 then 0.0 else Float.ofNat c.hits / Float.ofNat total

/-- The results by key; apart from them the order in which their keys were used, and the counts so
    far. -/
structure FragmentCache where
  results : List (FragmentKey × FragmentResult) := []
  recency : Recent FragmentKey Unit
  counts : CacheCounts := {}

namespace FragmentCache

/-- The capacity where none is given. -/
def defaultCapacity : Nat := 1024

/-- A cache without results. -/
def ofCapacity (capacity : Nat) : FragmentCache := { recency := .ofCapacity capacity }

/-- The keys that have a result. -/
def keys (c : FragmentCache) : List FragmentKey := c.results.map Prod.fst

/-- The result that is kept under a key. -/
def get? (c : FragmentCache) (key : FragmentKey) : Option FragmentResult := c.results.lookup key

/-- The results without that of a key. -/
def without (results : List (FragmentKey × FragmentResult)) (key : FragmentKey) :
    List (FragmentKey × FragmentResult) := results.filter fun e => e.1 ≠ key

/-- Look a key up and count the outcome. -/
def find (c : FragmentCache) (key : FragmentKey) : Option FragmentResult × FragmentCache :=
  match c.get? key with
  | some result =>
      (some result,
        { c with recency := c.recency.touch key, counts := { c.counts with hits := c.counts.hits + 1 } })
  | none => (none, { c with counts := { c.counts with misses := c.counts.misses + 1 } })

/-- Forget the result of a key that had to make room, and count it. -/
def evict (c : FragmentCache) : Option FragmentKey → FragmentCache
  | some key => { c with
      results := without c.results key
      counts := { c.counts with evictions := c.counts.evictions + 1 } }
  | none => c

/-- Keep a result.  The order of use tells which key has to make room. -/
def insert (c : FragmentCache) (key : FragmentKey) (result : FragmentResult) : FragmentCache :=
  let (recency, evicted?) := c.recency.insert key ()
  let c := evict { c with recency } evicted?
  { c with results := (key, result) :: without c.results key }

/-- Forget the results of the fragment at a position; their number. -/
def invalidate (c : FragmentCache) (fragment : Nat) : Nat × FragmentCache :=
  let stale := c.keys.filter fun key => key.fragment == fragment
  (stale.length, { c with
    results := stale.foldl without c.results
    recency := stale.foldl Recent.erase c.recency })

/-- Forget all results; the counts stay. -/
def clear (c : FragmentCache) : FragmentCache := { c with results := [], recency := c.recency.clear }

/-- The number of results. -/
def size (c : FragmentCache) : Nat := c.results.length

end FragmentCache

end ReactiveDoc
