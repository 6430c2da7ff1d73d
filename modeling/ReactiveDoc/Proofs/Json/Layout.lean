import ReactiveDoc.Json.Shape
import ReactiveDoc.Proofs.Json.Tokens

namespace ReactiveDoc.Json

/-!
# JSON text read back

The compact and the indented text of a value differ in the blanks between tokens alone.

* `Layout`, `spell` — the text of a value with some choice of blanks.
* `toList_compact`, `toList_pretty` — the two texts are such texts.
* `Legible` — the numbers of a value survive being written.
* `cut` — what a reader finds of a value that nests more deeply than it follows.
* `value?_spell` — that much of a legible value is read from its text, whatever the blanks are.
* `parse?_compact`, `parse?_pretty` — so it is from the two texts.
* `list?_map` — a list is read from the array of its members.
* `size?_ofNat` — an offset or count of 64 bits is read back.
* `isReadable_of_legible` — every part of a legible value stands for something.
-/

/-! ### Blanks -/

/-- Nothing but characters that may stand between tokens. -/
def Blank (cs : List Char) : Prop := skipBlanks cs = []

variable {bs cs rest : List Char}

theorem skipBlanks_append (h : Blank bs) (cs : List Char) :
    skipBlanks (bs ++ cs) = skipBlanks cs := by
  rw [skipBlanks, List.dropWhile_append, if_pos]
  rw [Blank, skipBlanks] at h
  rw [h, List.isEmpty_nil]

theorem blank_lineBreak (n : Nat) : Blank ('\n' :: List.replicate n ' ') := by
  simp [Blank, skipBlanks]

/-- The characters that a number would go on with are no blanks. -/
theorem endsNumber_append (h : Blank bs) (hrest : EndsNumber rest) : EndsNumber (bs ++ rest) := by
  cases bs with
  | nil => exact hrest
  | cons b bs =>
    intro c hc
    obtain rfl : b = c := by simpa using hc
    have hb : b = ' ' ∨ b = '\n' ∨ b = '\t' ∨ b = '\r' := by
      simp only [Blank, skipBlanks, List.dropWhile_cons] at h
      split at h
      next hb => simpa [or_assoc] using hb
      next => cases h
    rcases hb with rfl | rfl | rfl | rfl <;> decide

/-! ### Layouts -/

/-- Where the text of a value has blanks: after brackets and commas, and before values of fields. -/
structure Layout where
  lineBreak : Nat → List Char
  gap : List Char
  blank_lineBreak : ∀ level, Blank (lineBreak level)
  blank_gap : Blank gap

/-- No blanks at all. -/
def Layout.dense : Layout := ⟨fun _ => [], [], fun _ => rfl, rfl⟩

/-- One item or field a line. -/
def Layout.indented : Layout :=
  ⟨fun level => '\n' :: List.replicate (2 * level) ' ', [' '], fun _ => Json.blank_lineBreak _, rfl⟩

mutual

/-- The text of a value whose parts stand at `level + 1`. -/
def spell (l : Layout) (level : Nat) : Json → List Char
  | array [] => ['[', ']']
  | array items =>
      '[' :: (l.lineBreak (level + 1) ++ (spellItems l (level + 1) items ++
        (l.lineBreak level ++ [']'])))
  | object [] => ['\x7b', '\x7d']
  | object fields =>
      '\x7b' :: (l.lineBreak (level + 1) ++ (spellFields l (level + 1) fields ++
        (l.lineBreak level ++ ['\x7d'])))
  | leaf => (leafText leaf).toList

/-- The items of an array between commas. -/
def spellItems (l : Layout) (level : Nat) : List Json → List Char
  | [] => []
  | [j] => spell l level j
  | j :: js => spell l level j ++ ',' :: (l.lineBreak level ++ spellItems l level js)

/-- The fields of an object between commas. -/
def spellFields (l : Layout) (level : Nat) : List (String × Json) → List Char
  | [] => []
  | [(key, j)] => quoteChars key.toList ++ ':' :: (l.gap ++ spell l level j)
  | (key, j) :: fs =>
      quoteChars key.toList ++ ':' :: (l.gap ++ (spell l level j ++
        ',' :: (l.lineBreak level ++ spellFields l level fs)))

end

mutual

theorem toList_compact : ∀ (j : Json) (level : Nat), j.compact.toList = spell .dense level j
  | array [], level => rfl
  | array (j :: js), level => by
    simp [compact, spell, toList_compactItems (j :: js) (level + 1), Layout.dense]
  | object [], level => by simp [compact, compactFields, spell]
  | object (f :: fs), level => by
    simp [compact, spell, toList_compactFields (f :: fs) (level + 1), Layout.dense]
  | null, _ | bool _, _ | integer _, _ | float _, _ | string _, _ | unreadable, _ => rfl

theorem toList_compactItems : ∀ (js : List Json) (level : Nat),
    (compactItems js).toList = spellItems .dense level js
  | [], level => rfl
  | [j], level => toList_compact j level
  | j :: j' :: js, level => by
    simp [compactItems, spellItems, toList_compact j level, toList_compactItems (j' :: js) level,
      Layout.dense]

theorem toList_compactFields : ∀ (fs : List (String × Json)) (level : Nat),
    (compactFields fs).toList = spellFields .dense level fs
  | [], level => rfl
  | [(key, j)], level => by
    simp [compactFields, spellFields, quote, toList_compact j level, Layout.dense]
  | (key, j) :: f :: fs, level => by
    simp [compactFields, spellFields, quote, toList_compact j level,
      toList_compactFields (f :: fs) level, Layout.dense]

end

mutual

theorem toList_prettyAt : ∀ (j : Json) (level : Nat),
    (j.prettyAt level).toList = spell .indented level j
  | array [], level => by simp [prettyAt, spell]
  | array (j :: js), level => by
    simp [prettyAt, spell, toList_prettyItems (j :: js) (level + 1), Layout.indented, newLine]
  | object [], level => by simp [prettyAt, spell]
  | object (f :: fs), level => by
    simp [prettyAt, spell, toList_prettyFields (f :: fs) (level + 1), Layout.indented, newLine]
  | null, _ | bool _, _ | integer _, _ | float _, _ | string _, _ | unreadable, _ => rfl

theorem toList_prettyItems : ∀ (js : List Json) (level : Nat),
    (prettyItems level js).toList = spellItems .indented level js
  | [], level => rfl
  | [j], level => toList_prettyAt j level
  | j :: j' :: js, level => by
    simp [prettyItems, spellItems, toList_prettyAt j level, toList_prettyItems (j' :: js) level,
      Layout.indented, newLine]

theorem toList_prettyFields : ∀ (fs : List (String × Json)) (level : Nat),
    (prettyFields level fs).toList = spellFields .indented level fs
  | [], level => rfl
  | [(key, j)], level => by
    simp [prettyFields, spellFields, quote, toList_prettyAt j level, Layout.indented]
  | (key, j) :: f :: fs, level => by
    simp [prettyFields, spellFields, quote, toList_prettyAt j level,
      toList_prettyFields (f :: fs) level, Layout.indented, newLine]

end

/-! ### Legible values -/

mutual

/-- Every number of the value survives being written: an integer has 64 bits, and the text of a
    decimal is read as that decimal. -/
def Legible : Json → Prop
  | integer n => Fits n
  | float x => number? (Number.jsonText x).toList = some (.float x, [])
  | array items => LegibleItems items
  | object fields => LegibleFields fields
  | unreadable => False
  | null | bool _ | string _ => True

/-- Every number of the items survives being written. -/
def LegibleItems : List Json → Prop
  | [] => True
  | j :: js => j.Legible ∧ LegibleItems js

/-- Every number of the fields survives being written. -/
def LegibleFields : List (String × Json) → Prop
  | [] => True
  | (_, j) :: fs => j.Legible ∧ LegibleFields fs

end

variable {j : Json} {fuel room : Nat}

/-- A number begins with a minus sign or a digit. -/
theorem number?_head {c : Char} {p : Json × List Char} (h : number? (c :: cs) = some p) :
    c = '-' ∨ c.isDigit = true := by
  by_cases hm : c = '-'
  · exact .inl hm
  by_cases hz : c = '0'
  · exact .inr (hz ▸ rfl)
  rw [number?_cons hm, unsigned?_cons hz] at h
  split at h
  next hc => exact .inr hc
  next => cases h

/-- Neither a blank nor the end of an array. -/
def Opens (c : Char) : Prop := c ∉ [' ', '\n', '\t', '\r', ']']

instance (c : Char) : Decidable (Opens c) := inferInstanceAs (Decidable (c ∉ _))

theorem skipBlanks_of_opens {c : Char} (hc : Opens c) : skipBlanks (c :: cs) = c :: cs := by
  simp only [Opens, List.mem_cons, List.not_mem_nil, or_false, not_or] at hc
  simp [skipBlanks, hc]

theorem number?_opens (h : number? cs = some (j, [])) : ∃ c ds, cs = c :: ds ∧ Opens c := by
  cases cs with
  | nil => cases h
  | cons c ds =>
    refine ⟨c, ds, rfl, fun hmem => absurd (number?_head h) ?_⟩
    simp only [List.mem_cons, List.not_mem_nil, or_false] at hmem
    rcases hmem with rfl | rfl | rfl | rfl | rfl <;> decide

/-- The text of a value begins with something else than a blank or a closing bracket. -/
theorem spell_opens (l : Layout) (level : Nat) (hj : j.Legible) : ∃ c cs, spell l level j = c :: cs ∧ Opens c := by
  cases j with
  | null => exact ⟨_, _, rfl, by decide⟩
  | bool b => cases b <;> exact ⟨_, _, rfl, by decide⟩
  | integer n => exact number?_opens (number?_integer hj)
  | float x => exact number?_opens hj
  | string s => exact ⟨'"', _, by simp only [spell, leafText, quote, String.toList_ofList, quoteChars]; rfl, by decide⟩
  | array items => cases items <;> exact ⟨'[', _, rfl, by decide⟩
  | object fields => cases fields <;> exact ⟨'\x7b', _, rfl, by decide⟩
  | unreadable => exact hj.elim

/-! ### Values that nest too deeply -/

mutual

/-- The value as a reader finds it that has room for `room` levels: what nests more deeply is
    unreadable. -/
def cut (room : Nat) : Json → Json
  | array items => within room (array (cutItems (room - 1) items))
  | object fields => within room (object (cutFields (room - 1) fields))
  | leaf => leaf

/-- Items as a reader finds them. -/
def cutItems (room : Nat) : List Json → List Json
  | [] => []
  | j :: js => j.cut room :: cutItems room js

/-- Fields as a reader finds them. -/
def cutFields (room : Nat) : List (String × Json) → List (String × Json)
  | [] => []
  | (key, j) :: fs => (key, j.cut room) :: cutFields room fs

end

mutual

/-- A value for which there is room is found as it is. -/
theorem cut_eq : ∀ (j : Json) {room : Nat}, j.depth ≤ room → j.cut room = j
  | null, _, _ | bool _, _, _ | integer _, _, _ | float _, _, _ | string _, _, _
  | unreadable, _, _ => rfl
  | array items, room, h => by
    simp only [depth] at h
    have hroom : room ≠ 0 := by omega
    rw [cut, cutItems_eq items (by omega : _ ≤ room - 1), within, if_neg hroom]
  | object fields, room, h => by
    simp only [depth] at h
    have hroom : room ≠ 0 := by omega
    rw [cut, cutFields_eq fields (by omega : _ ≤ room - 1), within, if_neg hroom]

theorem cutItems_eq : ∀ (js : List Json) {room : Nat}, depthOfItems js ≤ room →
    cutItems room js = js
  | [], _, _ => rfl
  | j :: js, room, h => by
    simp only [depthOfItems] at h
    rw [cutItems, cut_eq j (by omega : _ ≤ room), cutItems_eq js (by omega : _ ≤ room)]

theorem cutFields_eq : ∀ (fs : List (String × Json)) {room : Nat}, depthOfFields fs ≤ room →
    cutFields room fs = fs
  | [], _, _ => rfl
  | (key, j) :: fs, room, h => by
    simp only [depthOfFields] at h
    rw [cutFields, cut_eq j (by omega : _ ≤ room), cutFields_eq fs (by omega : _ ≤ room)]

end

/-! ### Reading a laid out value -/

theorem value?_blank (h : Blank bs) (cs : List Char) :
    value? fuel room (bs ++ cs) = value? fuel room cs := by
  cases fuel with
  | zero => rfl
  | succ fuel => simp only [value?, skipBlanks_append h]

theorem items?_blank (h : Blank bs) (cs : List Char) :
    items? fuel room (bs ++ cs) = items? fuel room cs := by
  cases fuel with
  | zero => rfl
  | succ fuel => simp only [items?, value?_blank h]

theorem fields?_blank (h : Blank bs) (cs : List Char) :
    fields? fuel room (bs ++ cs) = fields? fuel room cs := by
  cases fuel with
  | zero => rfl
  | succ fuel => simp only [fields?, skipBlanks_append h]

/-- A number is read as a value. -/
theorem value?_number (h : number? cs = some (j, [])) (hrest : EndsNumber rest) :
    value? (fuel + 1) room (cs ++ rest) = some (j, rest) := by
  obtain ⟨c, ds, rfl, hc⟩ := number?_opens h
  have hne : c ∉ ['"', '[', '\x7b', 't', 'f', 'n'] := by
    refine fun hmem => absurd (number?_head h) ?_
    simp only [List.mem_cons, List.not_mem_nil, or_false] at hmem
    rcases hmem with rfl | rfl | rfl | rfl | rfl | rfl <;> decide
  simp only [List.mem_cons, List.not_mem_nil, or_false, not_or] at hne
  have happ := number?_append hrest h
  rw [List.cons_append] at happ ⊢
  simpa [value?, skipBlanks_of_opens hc, hne] using happ

/-- A string literal is read as a value. -/
theorem value?_quote (s : String) (rest : List Char) :
    value? (fuel + 1) room ((quote s).toList ++ rest) = some (.string s, rest) := by
  have hq : skipBlanks ('"' :: (s.toList.flatMap escapeChar ++ '"' :: rest)) =
      '"' :: (s.toList.flatMap escapeChar ++ '"' :: rest) := skipBlanks_of_opens (by decide)
  simp [quote, quoteChars, value?, hq, pieces?_quoteChars, ofPieces_whole]

theorem length_spell_pos (l : Layout) (level : Nat) (hj : j.Legible) : 0 < (spell l level j).length := by
  obtain ⟨c, cs, h, -⟩ := spell_opens l level hj
  rw [h]
  exact Nat.succ_pos _

/-- The text of items begins like a value. -/
theorem spellItems_opens (l : Layout) (level : Nat) {js : List Json} (hj : LegibleItems (j :: js)) :
    ∃ c cs, spellItems l level (j :: js) = c :: cs ∧ Opens c := by
  obtain ⟨c, cs, h, hc⟩ := spell_opens l level hj.1
  cases js with
  | nil => exact ⟨c, cs, h, hc⟩
  | cons j' js => exact ⟨c, _, by rw [spellItems, h, List.cons_append]; simp, hc⟩

theorem skipBlanks_close {c : Char} (hc : Opens c ∨ c = ']') (hbs : Blank bs) :
    skipBlanks (bs ++ c :: rest) = c :: rest := by
  rw [skipBlanks_append hbs]
  rcases hc with hc | rfl
  · exact skipBlanks_of_opens hc
  · rfl

theorem endsNumber_comma : EndsNumber (',' :: rest) := by simp [EndsNumber]

theorem endsNumber_close {c : Char} (hc : c = ']' ∨ c = '\x7d') (hbs : Blank bs) :
    EndsNumber (bs ++ c :: rest) := by
  refine endsNumber_append hbs ?_
  rcases hc with rfl | rfl <;> simp [EndsNumber]

/-- A field as the reader of a text finds it, before its key is known to be readable. -/
def readField (f : String × Json) : Option String × Json := (some f.1, f.2)

variable {key : String} {r : List Char} {fs : List (Option String × Json)}

/-- The last field of an object is read up to the closing brace. -/
theorem fields?_last (l : Layout) (hv : value? fuel room cs = some (j, r))
    (hr : skipBlanks r = '\x7d' :: rest) :
    fields? (fuel + 1) room (quoteChars key.toList ++ ':' :: (l.gap ++ cs)) =
      some ([readField (key, j)], rest) := by
  have hq : ∀ cs, skipBlanks ('"' :: cs) = '"' :: cs := fun cs => skipBlanks_of_opens (by decide)
  have hcolon : ∀ cs, skipBlanks (':' :: cs) = ':' :: cs := fun cs => skipBlanks_of_opens (by decide)
  simp [fields?, quoteChars, hq, hcolon, pieces?_quoteChars, value?_blank l.blank_gap, hv, hr,
    joined?_whole, readField]

/-- Another field of an object is read up to the comma. -/
theorem fields?_more (l : Layout) {r' : List Char} (hv : value? fuel room cs = some (j, r))
    (hr : skipBlanks r = ',' :: r') (ht : fields? fuel room r' = some (fs, rest)) :
    fields? (fuel + 1) room (quoteChars key.toList ++ ':' :: (l.gap ++ cs)) =
      some (readField (key, j) :: fs, rest) := by
  have hq : ∀ cs, skipBlanks ('"' :: cs) = '"' :: cs := fun cs => skipBlanks_of_opens (by decide)
  have hcolon : ∀ cs, skipBlanks (':' :: cs) = ':' :: cs := fun cs => skipBlanks_of_opens (by decide)
  simp [fields?, quoteChars, hq, hcolon, pieces?_quoteChars, value?_blank l.blank_gap, hv, hr, ht,
    joined?_whole, readField]

theorem spellFields_opens (l : Layout) (level : Nat) {f : String × Json}
    (fs : List (String × Json)) : ∃ cs, spellFields l level (f :: fs) = '"' :: cs := by
  obtain ⟨key, j⟩ := f
  cases fs with
  | nil => exact ⟨_, by rw [spellFields, quoteChars, List.cons_append]⟩
  | cons f fs => exact ⟨_, by rw [spellFields, quoteChars, List.cons_append]; simp⟩

theorem ofFields_readField (fs : List (String × Json)) : ofFields (fs.map readField) = object fs := by
  have h : (fs.map readField).mapM
      (fun f : Option String × Json => f.1.map fun key => (key, f.2)) = some fs := by
    induction fs with
    | nil => rfl
    | cons f fs ih => simp [List.mapM_cons, ih, readField]
  simp [ofFields, h]

mutual

/-- A legible value is read from its text, up to what nests too deeply. -/
theorem value?_spell (l : Layout) : ∀ (j : Json) (level : Nat) {fuel room : Nat} {rest : List Char},
    j.Legible → (spell l level j).length ≤ fuel → EndsNumber rest →
    value? fuel room (spell l level j ++ rest) = some (j.cut room, rest)
  | j, level, 0, _, _, hj, hf, _ => by
    have := length_spell_pos l level hj
    omega
  | null, _, fuel + 1, _, _, _, _, _ => rfl
  | bool b, _, fuel + 1, _, _, _, _, _ => by cases b <;> rfl
  | integer n, _, fuel + 1, _, _, hj, _, hrest => value?_number (number?_integer hj) hrest
  | float x, _, fuel + 1, _, _, hj, _, hrest => value?_number hj hrest
  | string s, _, fuel + 1, _, rest, _, _, _ => value?_quote s rest
  | array [], _, fuel + 1, room, _, _, _, _ => by
    simp [spell, value?, skipBlanks, cut, cutItems]
  | array (j :: js), level, fuel + 1, room, rest, hj, hf, _ => by
    simp only [spell, List.length_cons, List.length_append, List.length_nil] at hf
    have hitems : items? fuel (room - 1)
        (spellItems l (level + 1) (j :: js) ++ (l.lineBreak level ++ ']' :: rest)) =
          some (cutItems (room - 1) (j :: js), rest) :=
      items?_spell l (j :: js) (level + 1) (by simp) hj (by omega) (l.blank_lineBreak level)
    obtain ⟨c, cs, hcs, hc⟩ := spellItems_opens l (level + 1) hj
    rw [hcs, List.cons_append] at hitems
    have hopen : ∀ cs, skipBlanks ('[' :: cs) = '[' :: cs := fun cs =>
      skipBlanks_of_opens (by decide)
    have hne : c ≠ ']' := by
      rintro rfl
      exact absurd hc (by decide)
    simp [spell, hcs, value?, hopen, skipBlanks_append (l.blank_lineBreak (level + 1)),
      skipBlanks_of_opens hc, hne, hitems, cut]
  | object [], _, fuel + 1, room, _, _, _, _ => by
    simp [spell, value?, skipBlanks, cut, cutFields]
  | object (f :: fs), level, fuel + 1, room, rest, hj, hf, _ => by
    simp only [spell, List.length_cons, List.length_append, List.length_nil] at hf
    have hfields : fields? fuel (room - 1)
        (spellFields l (level + 1) (f :: fs) ++ (l.lineBreak level ++ '\x7d' :: rest)) =
          some ((cutFields (room - 1) (f :: fs)).map readField, rest) :=
      fields?_spell l (f :: fs) (level + 1) (by simp) hj (by omega) (l.blank_lineBreak level)
    obtain ⟨cs, hcs⟩ := spellFields_opens l (level + 1) (f := f) fs
    rw [hcs, List.cons_append] at hfields
    have hopen : ∀ cs, skipBlanks ('\x7b' :: cs) = '\x7b' :: cs := fun cs =>
      skipBlanks_of_opens (by decide)
    simp only [spell, hcs]
    simp [value?, hopen, skipBlanks_append (l.blank_lineBreak (level + 1)),
      skipBlanks_of_opens (by decide : Opens '"'), hfields, ofFields_readField, cut]
  | unreadable, _, _, _, _, hj, _, _ => hj.elim

/-- Legible items are read from their text before the closing bracket. -/
theorem items?_spell (l : Layout) : ∀ (js : List Json) (level : Nat) {fuel room : Nat}
    {bs rest : List Char}, js ≠ [] → LegibleItems js →
    (spellItems l level js).length < fuel → Blank bs →
    items? fuel room (spellItems l level js ++ (bs ++ ']' :: rest)) =
      some (cutItems room js, rest)
  | [], _, _, _, _, _, hne, _, _, _ => absurd rfl hne
  | _, _, 0, _, _, _, _, _, hf, _ => by omega
  | [j], level, fuel + 1, room, bs, rest, _, hj, hf, hbs => by
    simp only [spellItems] at hf ⊢
    rw [items?, value?_spell l j level hj.1 (by omega) (endsNumber_close (by simp) hbs)]
    simp only [skipBlanks_close (.inr rfl) hbs, cutItems]
  | j :: j' :: js, level, fuel + 1, room, bs, rest, _, hj, hf, hbs => by
    simp only [spellItems, List.length_append, List.length_cons] at hf
    have htail : items? fuel room (spellItems l level (j' :: js) ++ (bs ++ ']' :: rest)) =
        some (cutItems room (j' :: js), rest) :=
      items?_spell l (j' :: js) level (by simp) hj.2 (by omega) hbs
    rw [spellItems, List.append_assoc, items?, List.cons_append, List.append_assoc,
      value?_spell l j level hj.1 (by omega) endsNumber_comma]
    · simp only [skipBlanks_of_opens (by decide : Opens ','),
        items?_blank (l.blank_lineBreak level), htail, Option.map_some, cutItems]
    · simp

/-- Legible fields are read from their text before the closing brace. -/
theorem fields?_spell (l : Layout) : ∀ (fs : List (String × Json)) (level : Nat) {fuel room : Nat}
    {bs rest : List Char}, fs ≠ [] → LegibleFields fs →
    (spellFields l level fs).length < fuel → Blank bs →
    fields? fuel room (spellFields l level fs ++ (bs ++ '\x7d' :: rest)) =
      some ((cutFields room fs).map readField, rest)
  | [], _, _, _, _, _, hne, _, _, _ => absurd rfl hne
  | _, _, 0, _, _, _, _, _, hf, _ => by omega
  | [(key, j)], level, fuel + 1, room, bs, rest, _, hj, hf, hbs => by
    simp only [spellFields, List.length_append, List.length_cons] at hf
    rw [spellFields, List.append_assoc, List.cons_append, List.append_assoc]
    exact fields?_last l
      (value?_spell l j level hj.1 (by omega) (endsNumber_close (.inr rfl) hbs))
      (skipBlanks_close (.inl (by decide)) hbs)
  | (key, j) :: f :: fs, level, fuel + 1, room, bs, rest, _, hj, hf, hbs => by
    obtain ⟨key', j'⟩ := f
    simp only [spellFields, List.length_append, List.length_cons] at hf
    have htail : fields? fuel room
        (spellFields l level ((key', j') :: fs) ++ (bs ++ '\x7d' :: rest)) =
          some ((cutFields room ((key', j') :: fs)).map readField, rest) :=
      fields?_spell l ((key', j') :: fs) level (by simp) hj.2 (by omega) hbs
    rw [spellFields]
    · simp only [List.append_assoc, List.cons_append]
      refine fields?_more l (value?_spell l j level hj.1 (by omega) endsNumber_comma)
        (skipBlanks_of_opens (by decide)) ?_
      rwa [fields?_blank (l.blank_lineBreak level)]
    · simp

end

/-! ### Whole texts -/

variable {l : Layout} {s : String}

theorem parse?_of_spell (hj : j.Legible) (hs : s.toList = spell l 0 j) :
    parse? s = some (j.cut maxDepth) := by
  have h : value? (2 * s.toList.length + 2) maxDepth (spell l 0 j ++ []) =
      some (j.cut maxDepth, []) := value?_spell l j 0 hj (by rw [hs]; omega) endsNumber_nil
  rw [List.append_nil, ← hs] at h
  simp [parse?, h, skipBlanks]

/-- A legible value is read from its compact text, up to what nests too deeply. -/
theorem parse?_compact (hj : j.Legible) : parse? j.compact = some (j.cut maxDepth) :=
  parse?_of_spell hj (toList_compact j 0)

/-- A legible value is read from its indented text, up to what nests too deeply. -/
theorem parse?_pretty (hj : j.Legible) : parse? j.pretty = some (j.cut maxDepth) :=
  parse?_of_spell hj (toList_prettyAt j 0)

/-! ### Lists -/

theorem mapM_map {α β : Type} {read : β → Option α} {write : α → β} {as : List α}
    (h : ∀ a ∈ as, read (write a) = some a) : (as.map write).mapM read = some as := by
  induction as with
  | nil => rfl
  | cons a as ih =>
    rw [List.forall_mem_cons] at h
    simp [List.mapM_cons, h.1, ih h.2]

/-- A list is read from the array of its members. -/
theorem list?_map {α : Type} {read : Json → Option α} {write : α → Json} {as : List α}
    (h : ∀ a ∈ as, read (write a) = some a) : (array (as.map write)).list? read = some as :=
  mapM_map h

theorem legibleItems_iff {js : List Json} : LegibleItems js ↔ ∀ j ∈ js, j.Legible := by
  induction js with
  | nil => simp [LegibleItems]
  | cons j js ih => simp [LegibleItems, ih]

theorem legible_array_map {α : Type} {write : α → Json} {as : List α} :
    (array (as.map write)).Legible ↔ ∀ a ∈ as, (write a).Legible := by
  simp [Legible, legibleItems_iff]

/-! ### Numbers -/

theorem natural?_ofNat {bound n : Nat} (hn : n ≤ bound) : natural? bound (ofNat n) = some n := by
  simp [natural?, ofNat, hn]

/-- An offset or count of 64 bits is read back. -/
theorem size?_ofNat {n : Nat} (hn : n ≤ maxSize) : (ofNat n).size? = some n := natural?_ofNat hn

theorem legible_ofNat {n : Nat} (hn : n ≤ maxSize) : (ofNat n).Legible := by
  rw [ofNat, Legible, Fits]
  omega

/-! ### Variants -/

@[simp] theorem depth_variant (name : String) (contents : Json) :
    (variant name contents).depth = contents.depth + 1 := by
  simp [variant, depth, depthOfFields]

@[simp] theorem variant?_variant (name : String) (contents : Json) :
    variant? (variant name contents) = some (name, some contents) := rfl

@[simp] theorem legible_variant {name : String} {contents : Json} :
    (variant name contents).Legible ↔ contents.Legible := by
  simp [variant, Legible, LegibleFields]

/-! ### Readable values -/

mutual

/-- Every part of a legible value stands for something. -/
theorem isReadable_of_legible : ∀ {j : Json}, j.Legible → j.isReadable = true
  | null, _ | bool _, _ | integer _, _ | float _, _ | string _, _ => rfl
  | array _, h => by
    rw [isReadable]
    exact areReadable_of_legible h
  | object _, h => by
    rw [isReadable]
    exact areReadableFields_of_legible h
  | unreadable, h => h.elim

theorem areReadable_of_legible : ∀ {js : List Json}, LegibleItems js → areReadable js = true
  | [], _ => rfl
  | j :: js, h => by
    rw [areReadable, isReadable_of_legible h.1, areReadable_of_legible h.2, Bool.and_self]

theorem areReadableFields_of_legible : ∀ {fs : List (String × Json)},
    LegibleFields fs → areReadableFields fs = true
  | [], _ => rfl
  | (_, j) :: fs, h => by
    rw [areReadableFields, isReadable_of_legible h.1, areReadableFields_of_legible h.2,
      Bool.and_self]

end

/-- A choice whose name stands among its fields is taken apart into them. -/
theorem tagged?_object {tag name : String} {fields : List (String × Json)}
    (hr : (object ((tag, string name) :: fields)).Legible) (ht : ∀ f ∈ fields, f.1 ≠ tag) :
    tagged? tag (object ((tag, string name) :: fields)) = some (name, object fields) := by
  have hnone : fields.filter (fun f => f.1 == tag) = [] := by
    simpa [List.filter_eq_nil_iff] using ht
  have hall : fields.filter (fun f => f.1 != tag) = fields := by
    simpa [List.filter_eq_self] using ht
  simp [tagged?, isReadable_of_legible hr, lookup?, hnone, hall, string?]

end ReactiveDoc.Json
