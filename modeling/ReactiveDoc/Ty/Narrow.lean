import ReactiveDoc.Ty.Lattice

namespace ReactiveDoc.Ty

/-!
# Narrowing

What a test tells about a value is itself a type, possibly a complement.

* `narrow` — the part of a type that agrees with such knowledge.
* `falsy`, `notFalsy` — the knowledge that a value is falsy or truthy.
* `ofTypeofName?` — the type that an answer of `typeof` names.
-/

/-- A type without the values of `excluded`, where nothing finer is known. -/
def without (a excluded : Ty) : Ty := if isSubtype a excluded then never else a

/-- An object type, or `never` if one of its fields has no value. -/
def objectUnlessNever (fields : List (Field Ty)) : Ty :=
  if fields.any fun f => f.ty.isNever then never else object fields

/-- The part of `a` that agrees with the knowledge `b`.

    Knowing that an object is not of a type with one field narrows that field; with more fields
    the complement is a union, and the object stays as it is. -/
def narrow (a b : Ty) : Ty :=
  match a, b with
  | never, _ => never
  | _, never => never
  | error cause, _ => error cause
  | a, unknown => a
  | unknown, complement _ => unknown
  | unknown, b => b
  | union arms, b => unionOf (arms.attach.map fun ⟨arm, _⟩ => narrow arm b)
  | intersection arms, b => intersectionOf (arms.attach.map fun ⟨arm, _⟩ => narrow arm b)
  | boolean, complement excluded => unionOf (booleanArms.map fun arm => without arm excluded)
  | object fs, complement (object [⟨name, ty⟩]) =>
      objectUnlessNever (fs.map fun f =>
        if name == f.name then ⟨f.name, narrow f.ty (complement ty)⟩ else f)
  | a, complement excluded => without a excluded
  | a, union arms => unionOf (arms.attach.map fun ⟨arm, _⟩ => narrow a arm)
  | a, intersection arms => arms.attach.foldl (fun kept ⟨arm, _⟩ => narrow kept arm) a
  | object fs, object gs =>
      objectUnlessNever (fs.map fun f =>
        match _h : gs.find? fun g => g.name == f.name with
        | some g => ⟨f.name, narrow f.ty g.ty⟩
        | none => f)
  | a, b =>
      if isSubtype a b then a else if isSubtype b a then b else intersectionOf [a, b]
termination_by (b.size, a.size)
decreasing_by
  · have := size_le_sizeList ‹_ ∈ arms›
    exact Prod.Lex.right _ (by simp only [size]; omega)
  · have := size_le_sizeList ‹_ ∈ arms›
    exact Prod.Lex.right _ (by simp only [size]; omega)
  · exact Prod.Lex.left _ _ (by simp only [size, sizeFields]; omega)
  · have := size_le_sizeList ‹_ ∈ arms›
    exact Prod.Lex.left _ _ (by simp only [size]; omega)
  · have := size_le_sizeList ‹_ ∈ arms›
    exact Prod.Lex.left _ _ (by simp only [size]; omega)
  · have := size_le_sizeFields (List.mem_of_find?_eq_some ‹_›)
    exact Prod.Lex.left _ _ (by simp only [size]; omega)

/-! ### Truth and `typeof` -/

/-- `undefined`, `null`, `false`, `0` and the empty text. -/
def falsy : Ty :=
  unionOf [undefined, null, ofBool false, ofNumber 0, ofString ""]

/-- The knowledge that a value is truthy. -/
def notFalsy : Ty := complement falsy

/-- The knowledge that a value is falsy. -/
def notTruthy : Ty := falsy

/-- The type that an answer of `typeof` names; functions have none. -/
def ofTypeofName? (kind : String) : Option Ty :=
  if kind = "undefined" then some undefined
  else if kind = "boolean" then some boolean
  else if kind = "number" then some number
  else if kind = "string" then some string
  else if kind = "object" then
    some (unionOf [null, object [], array unknown, set unknown, map never unknown])
  else none

end ReactiveDoc.Ty
