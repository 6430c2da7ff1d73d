namespace ReactiveDoc

/-!
# JSON values

* `Json` — a JSON value.  Objects keep their fields in the order of the text, repeated keys
  included; numbers keep the difference between integers and decimals.
* `Json.depth` — the nesting of a value, which bounds every walk over it.
* `Json.isReadable` — every part of a value stands for something.
-/

/-- A JSON value as it was written.

    `integer` holds the integers of 64 bits, signed or unsigned; every other number is a
    `float`.  `unreadable` is a part of a text that has the form of JSON but stands for nothing,
    such as a number beyond the doubles.  No reader accepts it, and one that has no use for the
    part passes over it. -/
inductive Json where
  | null
  | bool (b : Bool)
  | integer (n : Int)
  | float (x : Float)
  | string (s : String)
  | array (items : List Json)
  | object (fields : List (String × Json))
  | unreadable

namespace Json

instance : Inhabited Json := ⟨.null⟩

mutual

/-- How deeply arrays and objects nest; a value without parts has depth `0`. -/
def depth : Json → Nat
  | array items => depthOfItems items + 1
  | object fields => depthOfFields fields + 1
  | _ => 0

/-- The depth of the deepest item. -/
def depthOfItems : List Json → Nat
  | [] => 0
  | j :: js => max j.depth (depthOfItems js)

/-- The depth of the deepest field. -/
def depthOfFields : List (String × Json) → Nat
  | [] => 0
  | (_, j) :: fs => max j.depth (depthOfFields fs)

end

mutual

/-- Every part stands for something. -/
def isReadable : Json → Bool
  | array items => areReadable items
  | object fields => areReadableFields fields
  | unreadable => false
  | _ => true

/-- Every item stands for something. -/
def areReadable : List Json → Bool
  | [] => true
  | j :: js => j.isReadable && areReadable js

/-- Every field stands for something. -/
def areReadableFields : List (String × Json) → Bool
  | [] => true
  | (_, j) :: fs => j.isReadable && areReadableFields fs

end

/-! ### Plain contents -/

/-- The text of a string. -/
def string? : Json → Option String
  | string s => some s
  | _ => none

/-- The truth value of a boolean. -/
def bool? : Json → Option Bool
  | bool b => some b
  | _ => none

/-- An integer in the range `0` to `bound`; decimals are refused even when whole. -/
def natural? (bound : Nat) : Json → Option Nat
  | integer n => if 0 ≤ n ∧ n.toNat ≤ bound then some n.toNat else none
  | _ => none

/-- The largest size, index or offset. -/
def maxSize : Nat := UInt64.size - 1

/-- A size, index or offset. -/
def size? : Json → Option Nat := natural? maxSize

/-- A number, an integer included. -/
def float? : Json → Option Float
  | integer n => some (if n < 0 then -(Float.ofNat n.natAbs) else Float.ofNat n.natAbs)
  | float x => some x
  | _ => none

/-- The items of an array. -/
def array? : Json → Option (List Json)
  | array items => some items
  | _ => none

/-- The items of an array, each read by `read`; one bad item spoils the array. -/
def list? {α : Type} (read : Json → Option α) (j : Json) : Option (List α) :=
  j.array?.bind fun items => items.mapM read

/-- A value that `null` may stand for the absence of. -/
def optional? {α : Type} (read : Json → Option α) : Json → Option (Option α)
  | null => some none
  | j => (read j).map some

/-- The fields of an object; the last of several with one key counts, the keys are sorted by code
    points. -/
def sortedFields {α : Type} (fields : List (String × α)) : List (String × α) :=
  let latest := fields.foldl
    (fun kept (key, a) => kept.filter (fun f => f.1 != key) ++ [(key, a)]) []
  latest.mergeSort fun a b => decide (a.1 ≤ b.1)

/-- The number, or `null` where it has no JSON form. -/
def ofFloat (x : Float) : Json :=
  if x.isFinite then float x else null

/-- A size, index or offset as an integer. -/
def ofNat (n : Nat) : Json := integer n

end Json

end ReactiveDoc
