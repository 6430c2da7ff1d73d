import ReactiveDoc.Diagnostic.Basic
import ReactiveDoc.Number.Binary

namespace ReactiveDoc

/-!
# Structural types

* `Literal` — the contents of a singleton type or of a literal in a document.
* `Ty` — the types.  Any value of `Ty` is meaningful; the operations of `Ty.Lattice` build unions
  and intersections in a normal form.
* `Ty.same` — equality of types, where literal numbers are compared as contents.
* `Ty.size` — the measure by which every recursion over types ends.
-/

/-! ### Literals -/

/-- A boolean, a number or a text. -/
inductive Literal where
  | boolean (b : Bool)
  | number (x : Float)
  | string (s : String)
  deriving DecidableEq

namespace Literal

/-- Equality of contents: `0` equals `-0`, and not-a-number equals itself. -/
def same : Literal → Literal → Bool
  | boolean a, boolean b => a == b
  | number a, number b => Number.same a b
  | string a, string b => a == b
  | _, _ => false

/-- False, zero, not-a-number and the empty text are falsy. -/
def truthy : Literal → Bool
  | boolean b => b
  | number x => !(x == 0.0) && !x.isNaN
  | string s => !s.isEmpty

end Literal

/-! ### Types -/

/-- A field of an object type. -/
structure Field (α : Type) where
  name : String
  ty : α

/-- A field of a module type; a dynamic one changes over time. -/
structure Export (α : Type) where
  name : String
  ty : α
  dynamic : Bool

/-- Structural types of document expressions.

    `labelled` is an opaque type such as `Code<number>` or `Element`, `singleton` a single value
    of a primitive base, `complement` the knowledge that a value is not of a type, and `error` the
    type of an expression that failed to check. -/
inductive Ty where
  | never
  | unknown
  | undefined
  | null
  | boolean
  | number
  | string
  | tuple (items : List Ty)
  | array (item : Ty)
  | set (item : Ty)
  | map (key value : Ty)
  | labelled (label : String) (args : List Ty)
  | function (params : List Ty) (result : Ty)
  | object (fields : List (Field Ty))
  | module (exports : List (Export Ty))
  | union (arms : List Ty)
  | intersection (arms : List Ty)
  | singleton (base : Ty) (value : Literal)
  | complement (ty : Ty)
  | error (cause : TypeError)

namespace Ty

instance : Inhabited Ty := ⟨never⟩

/-! ### Size -/

mutual

/-- The number of constructors, a union or intersection counting twice and a literal's value as
    the place of its base. -/
def size : Ty → Nat
  | tuple items => sizeList items + 1
  | array item => item.size + 1
  | set item => item.size + 1
  | map key value => key.size + value.size + 1
  | labelled _ args => sizeList args + 1
  | function params result => sizeList params + result.size + 1
  | object fields => sizeFields fields + 1
  | module exports => sizeExports exports + 1
  | union arms => sizeList arms + 2
  | intersection arms => sizeList arms + 2
  | singleton base _ => base.size + 1
  | complement ty => ty.size + 1
  | _ => 1

/-- The sizes of a list of types together. -/
def sizeList : List Ty → Nat
  | [] => 0
  | t :: ts => t.size + sizeList ts

/-- The sizes of the types of a list of fields together. -/
def sizeFields : List (Field Ty) → Nat
  | [] => 0
  | ⟨_, t⟩ :: fs => t.size + sizeFields fs

/-- The sizes of the types of a list of exports together. -/
def sizeExports : List (Export Ty) → Nat
  | [] => 0
  | ⟨_, t, _⟩ :: es => t.size + sizeExports es

end

theorem size_pos (t : Ty) : 0 < t.size := by
  cases t <;> simp only [size] <;> omega

theorem size_le_sizeList {t : Ty} {ts : List Ty} (h : t ∈ ts) : t.size ≤ sizeList ts := by
  induction ts with
  | nil => cases h
  | cons s ss ih =>
    simp only [sizeList]
    rcases List.mem_cons.1 h with rfl | h
    · omega
    · have := ih h; omega

theorem size_le_sizeFields {f : Field Ty} {fs : List (Field Ty)} (h : f ∈ fs) :
    f.ty.size ≤ sizeFields fs := by
  induction fs with
  | nil => cases h
  | cons g gs ih =>
    simp only [sizeFields]
    rcases List.mem_cons.1 h with rfl | h
    · omega
    · have := ih h; omega

theorem size_le_sizeExports {e : Export Ty} {es : List (Export Ty)} (h : e ∈ es) :
    e.ty.size ≤ sizeExports es := by
  induction es with
  | nil => cases h
  | cons g gs ih =>
    simp only [sizeExports]
    rcases List.mem_cons.1 h with rfl | h
    · omega
    · have := ih h; omega

theorem sizeList_append (ss ts : List Ty) : sizeList (ss ++ ts) = sizeList ss + sizeList ts := by
  induction ss with
  | nil => simp [sizeList]
  | cons s ss ih => simp only [List.cons_append, sizeList, ih]; omega

/-! ### Equality -/

mutual

/-- Equality of types, arm by arm and field by field in order. -/
def same : Ty → Ty → Bool
  | never, never => true
  | unknown, unknown => true
  | undefined, undefined => true
  | null, null => true
  | boolean, boolean => true
  | number, number => true
  | string, string => true
  | tuple xs, tuple ys => sameList xs ys
  | array x, array y => same x y
  | set x, set y => same x y
  | map k v, map k' v' => same k k' && same v v'
  | labelled l xs, labelled l' ys => l == l' && sameList xs ys
  | function ps r, function ps' r' => sameList ps ps' && same r r'
  | object fs, object gs => sameFields fs gs
  | module es, module gs => sameExports es gs
  | union xs, union ys => sameList xs ys
  | intersection xs, intersection ys => sameList xs ys
  | singleton b v, singleton b' v' => same b b' && v.same v'
  | complement x, complement y => same x y
  | error e, error e' => e == e'
  | _, _ => false

/-- Equality of lists of types. -/
def sameList : List Ty → List Ty → Bool
  | [], [] => true
  | x :: xs, y :: ys => same x y && sameList xs ys
  | _, _ => false

/-- Equality of lists of fields. -/
def sameFields : List (Field Ty) → List (Field Ty) → Bool
  | [], [] => true
  | ⟨n, x⟩ :: xs, ⟨m, y⟩ :: ys => n == m && same x y && sameFields xs ys
  | _, _ => false

/-- Equality of lists of exports. -/
def sameExports : List (Export Ty) → List (Export Ty) → Bool
  | [], [] => true
  | ⟨n, x, d⟩ :: xs, ⟨m, y, e⟩ :: ys => n == m && same x y && d == e && sameExports xs ys
  | _, _ => false

end

/-! ### Building types -/

/-- The primitive type that a literal belongs to. -/
def baseOf : Literal → Ty
  | .boolean _ => boolean
  | .number _ => number
  | .string _ => string

/-- The type whose only value is `value`. -/
def literal (value : Literal) : Ty := singleton (baseOf value) value

/-- The type of one number. -/
def ofNumber (x : Float) : Ty := literal (.number x)

/-- The type of one text. -/
def ofString (s : String) : Ty := literal (.string s)

/-- The type of one truth value. -/
def ofBool (b : Bool) : Ty := literal (.boolean b)

/-- Keep the first of several entries with one name. -/
def firstByName {α : Type} (name : α → String) (entries : List α) : List α :=
  entries.foldl
    (fun kept e => if kept.any fun k => name k == name e then kept else kept ++ [e]) []

/-- An object type; later fields of a repeated name are dropped. -/
def objectOf (fields : List (Field Ty)) : Ty := object (firstByName Field.name fields)

/-- A module type; later exports of a repeated name are dropped. -/
def moduleOf (exports : List (Export Ty)) : Ty := module (firstByName Export.name exports)

/-! ### Looking into types -/

/-- The type of an expression that failed to check. -/
def isError : Ty → Bool
  | error _ => true
  | _ => false

/-- The type without values. -/
def isNever : Ty → Bool
  | never => true
  | _ => false

/-- The type of a field of an object or module type. -/
def field? (t : Ty) (name : String) : Option Ty :=
  match t with
  | object fields => (fields.find? fun f => f.name == name).map Field.ty
  | module exports => (exports.find? fun e => e.name == name).map Export.ty
  | _ => none

/-- The names of the fields of an object or module type. -/
def fieldNames : Ty → List String
  | object fields => fields.map Field.name
  | module exports => exports.map Export.name
  | _ => []

/-- The value of a singleton type. -/
def literal? : Ty → Option Literal
  | singleton _ value => some value
  | _ => none

/-- The answer that every member of a nonempty list gives, if they agree on one. -/
def agreed {β : Type} [BEq β] : List (Option β) → Option β
  | [] => none
  | none :: _ => none
  | some b :: rest => if rest.all fun r => r == some b then some b else none

mutual

/-- The truth of the values of a type, where all of them agree. -/
def truthiness : Ty → Option Bool
  | undefined | null => some false
  | singleton _ value => some value.truthy
  | object _ | module _ | tuple _ | array _ | set _ | map _ _ | function _ _ => some true
  | union arms => agreed (truthinessList arms)
  | _ => none

/-- The truth of each of several types. -/
def truthinessList : List Ty → List (Option Bool)
  | [] => []
  | t :: ts => truthiness t :: truthinessList ts

end

mutual

/-- What `typeof` says of the values of a type, where all of them agree. -/
def typeofName : Ty → Option String
  | undefined => some "undefined"
  | null => some "object"
  | boolean => some "boolean"
  | number => some "number"
  | string => some "string"
  | singleton base _ => typeofName base
  | function _ _ => some "function"
  | object _ | tuple _ | array _ | set _ | map _ _ | module _ => some "object"
  | union arms => agreed (typeofNames arms)
  | _ => none

/-- What `typeof` says of each of several types. -/
def typeofNames : List Ty → List (Option String)
  | [] => []
  | t :: ts => typeofName t :: typeofNames ts

end

end Ty

end ReactiveDoc
