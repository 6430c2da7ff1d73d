import ReactiveDoc.Ty.Basic
import ReactiveDoc.Number.Notation

namespace ReactiveDoc

/-!
# Types as text

* `Ty.text` — the spelling of a type in messages.
* `Literal.text` — the spelling of a literal; texts stand between single quotes, unescaped.
-/

/-- The spelling of a literal. -/
def Literal.text : Literal → String
  | boolean b => if b then "true" else "false"
  | number x => Number.text x
  | string s => "'" ++ s ++ "'"

namespace Ty

mutual

/-- The spelling of a type. -/
def text : Ty → String
  | never => "never"
  | unknown => "unknown"
  | undefined => "undefined"
  | null => "null"
  | boolean => "boolean"
  | number => "number"
  | string => "string"
  | tuple items => "[" ++ ", ".intercalate (texts items) ++ "]"
  | array item => "Array<" ++ item.text ++ ">"
  | set item => "Set<" ++ item.text ++ ">"
  | map key value => "Map<" ++ key.text ++ ", " ++ value.text ++ ">"
  | labelled label [] => label
  | labelled label args => label ++ "<" ++ ", ".intercalate (texts args) ++ ">"
  | function params result => "(" ++ ", ".intercalate (texts params) ++ ") => " ++ result.text
  | object [] => "\x7b\x7d"
  | object fields => "\x7b " ++ ", ".intercalate (fieldTexts fields) ++ " \x7d"
  | module exports => "module \x7b " ++ ", ".intercalate (exportTexts exports) ++ " \x7d"
  | union arms => " | ".intercalate (texts arms)
  | intersection arms => " & ".intercalate (texts arms)
  | singleton _ value => value.text
  | complement ty => "not(" ++ ty.text ++ ")"
  | error cause => "error(" ++ cause.kind.message ++ ")"

/-- The spellings of several types. -/
def texts : List Ty → List String
  | [] => []
  | t :: ts => t.text :: texts ts

/-- The spellings of fields, each with its name. -/
def fieldTexts : List (Field Ty) → List String
  | [] => []
  | ⟨name, ty⟩ :: fs => (name ++ ": " ++ ty.text) :: fieldTexts fs

/-- The spellings of exports; a dynamic one shows as a signal of its type. -/
def exportTexts : List (Export Ty) → List String
  | [] => []
  | ⟨name, ty, dynamic⟩ :: es =>
      (name ++ ": " ++ if dynamic then "Signal<" ++ ty.text ++ ">" else ty.text) :: exportTexts es

end

end Ty

end ReactiveDoc
