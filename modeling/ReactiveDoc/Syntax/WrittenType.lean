import ReactiveDoc.Interface
import ReactiveDoc.Ty.Lattice

namespace ReactiveDoc

/-!
# Type annotations

* `WrittenType` — a type as an author writes it.
* `WrittenType.resolve` — the type that it names.  Optional fields admit `undefined`, a repeated
  field counts once, and `Array`, `Set` and `Map` are known by name.
-/

/-- A field of an annotated object type. -/
structure WrittenField (α : Type) where
  name : String
  written : α
  isOptional : Bool

/-- A type as it is written in a document. -/
inductive WrittenType where
  | never
  | unknown
  | undefined
  | null
  | boolean
  | number
  | string
  | literal (value : Literal)
  | array (item : WrittenType)
  | tuple (items : List WrittenType)
  | object (fields : List (WrittenField WrittenType))
  | function (params : List WrittenType) (result : WrittenType)
  | union (arms : List WrittenType)
  | intersection (arms : List WrittenType)
  | reference (label : String) (args : List WrittenType)

namespace WrittenType

/-- The type that a label with arguments names. -/
def labelled (label : String) (args : List Ty) : Ty :=
  match label, args with
  | "Array", [item] => .array item
  | "Set", [item] => .set item
  | "Map", [key, value] => .map key value
  | _, _ => .labelled label args

mutual

/-- The type that an annotation names. -/
def resolve : WrittenType → Ty
  | never => .never
  | unknown => .unknown
  | undefined => .undefined
  | null => .null
  | boolean => .boolean
  | number => .number
  | string => .string
  | literal value => .literal value
  | array item => .array item.resolve
  | tuple items => .tuple (resolveList items)
  | object fields => .objectOf (resolveFields fields)
  | function params result => .function (resolveList params) result.resolve
  | union arms => .unionOf (resolveList arms)
  | intersection arms => .intersectionOf (resolveList arms)
  | reference label args => labelled label (resolveList args)

/-- The types that several annotations name. -/
def resolveList : List WrittenType → List Ty
  | [] => []
  | a :: as => a.resolve :: resolveList as

/-- The fields that annotated fields name. -/
def resolveFields : List (WrittenField WrittenType) → List (Field Ty)
  | [] => []
  | ⟨name, written, isOptional⟩ :: fs =>
      let ty := written.resolve
      ⟨name, if isOptional then ty.orUndefined else ty⟩ :: resolveFields fs

end

end WrittenType

end ReactiveDoc
