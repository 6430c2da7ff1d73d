import ReactiveDoc.Text.Visible

namespace ReactiveDoc

/-!
# Counts and texts as they are written

* `natText` — a count in decimal digits.
* `Text.quoted` — a text between double quotes.  Quotes, backslashes and everything that does not
  show on its own are escaped.
-/

/-- A natural number in decimal digits. -/
def natText (n : Nat) : String := String.ofList (Nat.toDigits 10 n)

namespace Text

/-- The written form of a character between double quotes. -/
def escape (c : Char) : List Char :=
  match c with
  | '"' => ['\\', '"']
  | '\\' => ['\\', '\\']
  | '\n' => ['\\', 'n']
  | '\r' => ['\\', 'r']
  | '\t' => ['\\', 't']
  | '\x00' => ['\\', '0']
  | c => if isVisible c then [c] else ['\\', 'u', '\x7b'] ++ Nat.toDigits 16 c.toNat ++ ['\x7d']

/-- The text between double quotes. -/
def quoted (s : String) : String := String.ofList ('"' :: s.toList.flatMap escape ++ ['"'])

end Text

end ReactiveDoc
