namespace ReactiveDoc.Text

/-!
# Blank characters

The characters with the Unicode property `White_Space`, and trimming by them.

* `isBlank` — the property, as a test on code points.
* `trimBlank` — a text without the blanks at its two ends.
-/

/-- The twenty-five code points with the property `White_Space`. -/
def isBlank (c : Char) : Bool :=
  let n := c.toNat
  (9 ≤ n && n ≤ 13) || n == 0x20 || n == 0x85 || n == 0xA0 || n == 0x1680 ||
    (0x2000 ≤ n && n ≤ 0x200A) || n == 0x2028 || n == 0x2029 || n == 0x202F ||
    n == 0x205F || n == 0x3000

/-- Drop blanks from both ends of a list of characters. -/
def trimChars (cs : List Char) : List Char :=
  ((cs.dropWhile isBlank).reverse.dropWhile isBlank).reverse

/-- A text without the blanks at its two ends; inner blanks stay. -/
def trimBlank (s : String) : String :=
  String.ofList (trimChars s.toList)

end ReactiveDoc.Text
