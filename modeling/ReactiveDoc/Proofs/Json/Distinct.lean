import Mathlib
import ReactiveDoc.Proofs.Json.Layout
import ReactiveDoc.Proofs.Number.Written

namespace ReactiveDoc.Json

/-!
# Values are told apart by their JSON texts

* `written` — a value as far as its text shows it: what has no JSON form is `null`;
  `written_variant`, `writtenItems_strings` — variants and texts are shown whole.
* `Token` — the kinds of texts, which their first characters tell apart.
* `numeral_inj` — integers and finite numbers are told apart.
* `spell_append_inj` — a text is divided in one way into that of a value and what follows.
* `compact_inj` — so compact texts tell values apart, up to what has no JSON form.
-/

open Number (digitChars digitChars_inj signed signed_inj append_inj_of_run)

mutual

/-- The value as its text shows it: numbers that are not finite and unreadable parts are `null`. -/
def written : Json → Json
  | float x => ofFloat x
  | array items => array (writtenItems items)
  | object fields => object (writtenFields fields)
  | unreadable => null
  | j => j

/-- Items as their text shows them. -/
def writtenItems : List Json → List Json
  | [] => []
  | j :: js => j.written :: writtenItems js

/-- Fields as their text shows them. -/
def writtenFields : List (String × Json) → List (String × Json)
  | [] => []
  | (key, j) :: fs => (key, j.written) :: writtenFields fs

end

@[simp] theorem written_variant (name : String) (contents : Json) :
    (variant name contents).written = variant name contents.written := by
  simp [variant, written, writtenFields]

theorem writtenItems_strings (texts : List String) :
    writtenItems (texts.map string) = texts.map string := by
  induction texts with
  | nil => rfl
  | cons s texts ih => rw [List.map_cons, writtenItems, ih, written]; all_goals simp

/-! ### Kinds of texts -/

/-- The characters of numerals. -/
def isNumeral (c : Char) : Bool := c.isDigit || c ∈ ['-', '+', '.', 'e']

/-- The kinds of texts of values. -/
inductive Token
  | nothing
  | truth
  | numeral
  | text
  | items
  | fields
  deriving DecidableEq

/-- The kind of text that a character begins. -/
def Token.ofHead? (c : Char) : Option Token :=
  if c = 'n' then some nothing
  else if c = 't' ∨ c = 'f' then some truth
  else if c = '"' then some text
  else if c = '[' then some items
  else if c = '\x7b' then some fields
  else if isNumeral c then some numeral
  else none

/-- The kind of a value's text. -/
def token : Json → Token
  | null | unreadable => .nothing
  | bool _ => .truth
  | integer _ => .numeral
  | float x => if x.isFinite then .numeral else .nothing
  | string _ => .text
  | array _ => .items
  | object _ => .fields

variable {j j' : Json} {cs ds r r' : List Char}

/-! ### Numerals -/

theorem isNumeral_of_mem {c : Char} (h : c.isDigit = true ∨ c ∈ ['.', 'e', '+', '-']) :
    isNumeral c = true := by
  simp only [List.mem_cons, List.not_mem_nil, or_false] at h
  rcases h with h | rfl | rfl | rfl | rfl
  · simp [isNumeral, h]
  all_goals rfl

/-- A text of a numeral: there are characters, and all of them are those of numerals. -/
structure Spelt (cs : List Char) : Prop where
  ne_nil : cs ≠ []
  isNumeral : ∀ c ∈ cs, isNumeral c = true

theorem spelt_signed {negative : Bool} (hcs : Spelt cs) : Spelt (signed negative cs).toList := by
  rw [signed, String.toList_ofList]
  cases negative with
  | false => exact hcs
  | true => exact ⟨by simp, List.forall_mem_cons.mpr ⟨rfl, hcs.isNumeral⟩⟩

theorem spelt_of_token (h : j.token = .numeral) : Spelt (leafText j).toList := by
  cases j with
  | integer n =>
    exact spelt_signed
      ⟨Nat.toDigits_ne_nil, fun c hc => isNumeral_of_mem (.inl (isDigit_of_mem_digitChars hc))⟩
  | float x =>
    simp only [token] at h
    split at h
    · rename_i hx
      obtain ⟨b, hb⟩ := Number.exists_binary? hx
      obtain ⟨n, hn, -, htext, -⟩ := Number.exists_numeral hb
      rw [leafText, htext]
      exact spelt_signed ⟨by simp [Number.Numeral.text, hn.whole_ne_nil],
        fun c hc => isNumeral_of_mem (Number.Numeral.mem_text hn hc)⟩
    · cases h
  | _ => cases h

/-- A finite number shows that it is no integer. -/
theorem leafText_ne_integer {x : Float} (hx : x.isFinite = true) (n : Int) :
    leafText (.float x) ≠ leafText (.integer n) := by
  intro h
  obtain ⟨b, hb⟩ := Number.exists_binary? hx
  obtain ⟨m, hm, hmark, htext, -⟩ := Number.exists_numeral hb
  obtain ⟨-, hdigits⟩ := signed_inj
    (fun c hc => Number.ne_minus_of_isDigit (Number.Numeral.head_text hm c hc))
    (fun c hc => Number.ne_minus_of_isDigit (isDigit_of_mem_digitChars (List.mem_of_mem_head? hc)))
    (htext.symm.trans h)
  rcases Number.Numeral.mark_mem_text hmark with hmem | hmem
  all_goals
    rw [hdigits] at hmem
    exact absurd (isDigit_of_mem_digitChars hmem) (by decide)

/-- Integers and finite numbers are told apart by their texts. -/
theorem written_eq_of_numeral (h : j.token = .numeral) (h' : j'.token = .numeral)
    (htext : leafText j = leafText j') : j.written = j'.written := by
  have hfinite {x : Float} (hx : (float x).token = .numeral) : x.isFinite = true := by
    simp only [token] at hx
    split at hx
    · assumption
    · cases hx
  cases j with
  | integer n =>
    cases j' with
    | integer m =>
      have hminus {n : Int} : ∀ c ∈ (digitChars n.natAbs).head?, c ≠ '-' := fun c hc =>
        Number.ne_minus_of_isDigit (isDigit_of_mem_digitChars (List.mem_of_mem_head? hc))
      obtain ⟨hsign, hdigits⟩ := signed_inj hminus hminus htext
      have habs := digitChars_inj hdigits
      have hiff : n < 0 ↔ m < 0 := decide_eq_decide.mp hsign
      have heq : n = m := by omega
      rw [heq]
    | float x => exact absurd htext.symm (leafText_ne_integer (hfinite h') n)
    | _ => cases h'
  | float x =>
    cases j' with
    | integer m => exact absurd htext (leafText_ne_integer (hfinite h) m)
    | float y => rw [Number.jsonText_inj (hfinite h) (hfinite h') htext]
    | _ => cases h'
  | _ => cases h

/-! ### Texts of values -/

/-- What follows does not go on with a numeral. -/
def Delimits (rest : List Char) : Prop := ∀ c ∈ rest.head?, isNumeral c = false

theorem spell_array (level : Nat) (items : List Json) : spell .dense level (array items) =
    '[' :: (spellItems .dense (level + 1) items ++ [']']) := by
  cases items <;> simp [spell, spellItems, Layout.dense]

theorem spell_object (level : Nat) (fields : List (String × Json)) :
    spell .dense level (object fields) =
      '\x7b' :: (spellFields .dense (level + 1) fields ++ ['\x7d']) := by
  cases fields <;> simp [spell, spellFields, Layout.dense]

theorem Token.ofHead?_of_isNumeral {c : Char} (hc : isNumeral c = true) :
    Token.ofHead? c = some .numeral := by
  have hother {d : Char} (hd : isNumeral d = false) : c ≠ d := by
    rintro rfl
    rw [hc] at hd
    cases hd
  have ht : c ≠ 't' := hother rfl
  have hf : c ≠ 'f' := hother rfl
  rw [Token.ofHead?, if_neg (hother rfl), if_neg (by simp [ht, hf]), if_neg (hother rfl),
    if_neg (hother rfl), if_neg (hother rfl), if_pos hc]

/-- What a value is, and how it is written, if its text is of a kind. -/
def Shaped (level : Nat) (j : Json) : Token → Prop
  | .nothing => spell .dense level j = ['n', 'u', 'l', 'l'] ∧ j.written = null
  | .truth => ∃ b, j = bool b
  | .numeral => spell .dense level j = (leafText j).toList
  | .text => ∃ s, j = string s
  | .items => ∃ items, j = array items
  | .fields => ∃ fields, j = object fields

theorem shaped_of_token {kind : Token} (h : j.token = kind) (level : Nat) : Shaped level j kind := by
  subst h
  cases j with
  | null | unreadable => exact ⟨rfl, rfl⟩
  | integer n => rfl
  | bool b => exact ⟨b, rfl⟩
  | string s => exact ⟨s, rfl⟩
  | array items => exact ⟨items, rfl⟩
  | object fields => exact ⟨fields, rfl⟩
  | float x =>
    by_cases hx : x.isFinite = true
    · rw [token, if_pos hx]
      rfl
    · have htext : leafText (float x) = "null" :=
        Number.jsonText_of_not_finite (Bool.eq_false_iff.mpr hx)
      rw [token, if_neg hx]
      exact ⟨congrArg String.toList htext, if_neg hx⟩

/-- A text shows by its first character which kind of value it is of. -/
theorem head_spell (level : Nat) (j : Json) :
    ∃ c cs, spell .dense level j = c :: cs ∧ Token.ofHead? c = some j.token := by
  have hnumeral (hj : j.token = .numeral) (hleaf : spell .dense level j = (leafText j).toList) :
      ∃ c cs, spell .dense level j = c :: cs ∧ Token.ofHead? c = some j.token := by
    have hspelt := spelt_of_token hj
    obtain ⟨c, cs, hcs⟩ := List.exists_cons_of_ne_nil hspelt.ne_nil
    refine ⟨c, cs, hleaf.trans hcs, ?_⟩
    rw [hj, Token.ofHead?_of_isNumeral (hspelt.isNumeral c (hcs ▸ List.mem_cons_self))]
  cases j with
  | null | unreadable => exact ⟨_, _, rfl, rfl⟩
  | bool b => cases b <;> exact ⟨_, _, rfl, rfl⟩
  | integer n => exact hnumeral rfl rfl
  | float x =>
    by_cases hx : x.isFinite = true
    · exact hnumeral (if_pos hx) rfl
    · have hnothing : (float x).token = .nothing := if_neg hx
      exact ⟨_, _, (shaped_of_token hnothing level).1, congrArg some hnothing.symm⟩
  | string s =>
    refine ⟨'"', s.toList.flatMap escapeChar ++ ['"'], ?_, rfl⟩
    simp [spell, leafText, quote, quoteChars]
  | array items => exact ⟨_, _, spell_array level items, rfl⟩
  | object fields => exact ⟨_, _, spell_object level fields, rfl⟩

/-- Texts that begin alike are of values of one kind. -/
theorem token_eq {level : Nat} (h : spell .dense level j ++ r = spell .dense level j' ++ r') :
    j.token = j'.token := by
  obtain ⟨c, cs, hcs, hc⟩ := head_spell level j
  obtain ⟨c', cs', hcs', hc'⟩ := head_spell level j'
  rw [hcs, hcs', List.cons_append, List.cons_append] at h
  rw [(List.cons.inj h).1] at hc
  exact Option.some.inj (hc.symm.trans hc')

theorem quoteChars_append_inj (h : quoteChars cs ++ r = quoteChars ds ++ r') :
    cs = ds ∧ r = r' := by
  rw [quoteChars, quoteChars, List.cons_append, List.cons_append, List.append_assoc,
    List.append_assoc] at h
  have hread := congrArg pieces? (List.cons.inj h).2
  rw [List.singleton_append, List.singleton_append, pieces?_quoteChars, pieces?_quoteChars] at hread
  obtain ⟨hpieces, hrest⟩ := Prod.mk.inj (Option.some.inj hread)
  exact ⟨List.map_injective_iff.mpr (fun _ _ h => Piece.whole.inj h) hpieces, hrest⟩

/-- The text of a value without parts is divided in one way from what follows. -/
theorem leaf_append_inj {level : Nat} (hitems : j.token ≠ .items) (hfields : j.token ≠ .fields)
    (hr : Delimits r) (hr' : Delimits r')
    (h : spell .dense level j ++ r = spell .dense level j' ++ r') :
    j.written = j'.written ∧ r = r' := by
  obtain ⟨kind, hj⟩ : ∃ kind, j.token = kind := ⟨_, rfl⟩
  have hj' : j'.token = kind := (token_eq h).symm.trans hj
  cases kind with
  | items => exact absurd hj hitems
  | fields => exact absurd hj hfields
  | nothing =>
    obtain ⟨htext, hwritten⟩ := shaped_of_token hj level
    obtain ⟨htext', hwritten'⟩ := shaped_of_token hj' level
    rw [htext, htext'] at h
    exact ⟨hwritten.trans hwritten'.symm, List.append_cancel_left h⟩
  | truth =>
    obtain ⟨b, rfl⟩ := shaped_of_token hj level
    obtain ⟨b', rfl⟩ := shaped_of_token hj' level
    cases b <;> cases b'
    · exact ⟨rfl, List.append_cancel_left h⟩
    · exact absurd (List.cons.inj h).1 (by decide)
    · exact absurd (List.cons.inj h).1 (by decide)
    · exact ⟨rfl, List.append_cancel_left h⟩
  | numeral =>
    have htext : spell .dense level j = (leafText j).toList := shaped_of_token hj level
    have htext' : spell .dense level j' = (leafText j').toList := shaped_of_token hj' level
    rw [htext, htext'] at h
    obtain ⟨hleaf, hrest⟩ := append_inj_of_run (spelt_of_token hj).isNumeral
      (spelt_of_token hj').isNumeral hr hr' h
    exact ⟨written_eq_of_numeral hj hj' (String.toList_inj.mp hleaf), hrest⟩
  | text =>
    obtain ⟨s, rfl⟩ := shaped_of_token hj level
    obtain ⟨s', rfl⟩ := shaped_of_token hj' level
    simp only [spell, leafText, quote, String.toList_ofList] at h
    obtain ⟨hcs, hrest⟩ := quoteChars_append_inj h
    rw [String.toList_inj.mp hcs]
    exact ⟨rfl, hrest⟩

theorem delimits_cons {c : Char} (hc : isNumeral c = false) : Delimits (c :: r) := by
  intro d hd
  cases hd
  exact hc

/-- What follows an item: the closing bracket, or a comma and the other items. -/
def afterItem (level : Nat) (js : List Json) (r : List Char) : List Char :=
  match js with
  | [] => ']' :: r
  | _ => ',' :: (spellItems .dense level js ++ ']' :: r)

theorem spellItems_cons (level : Nat) (j : Json) (js : List Json) (r : List Char) :
    spellItems .dense level (j :: js) ++ ']' :: r =
      spell .dense level j ++ afterItem level js r := by
  cases js <;> simp [spellItems, afterItem, Layout.dense]

theorem delimits_afterItem (level : Nat) (js : List Json) (r : List Char) :
    Delimits (afterItem level js r) := by
  cases js <;> exact delimits_cons rfl

/-- What follows a field: the closing brace, or a comma and the other fields. -/
def afterField (level : Nat) (fs : List (String × Json)) (r : List Char) : List Char :=
  match fs with
  | [] => '\x7d' :: r
  | _ => ',' :: (spellFields .dense level fs ++ '\x7d' :: r)

theorem spellFields_cons (level : Nat) (key : String) (j : Json) (fs : List (String × Json))
    (r : List Char) :
    spellFields .dense level ((key, j) :: fs) ++ '\x7d' :: r =
      quoteChars key.toList ++ (':' :: (spell .dense level j ++ afterField level fs r)) := by
  cases fs <;> simp [spellFields, afterField, Layout.dense]

theorem delimits_afterField (level : Nat) (fs : List (String × Json)) (r : List Char) :
    Delimits (afterField level fs r) := by
  cases fs <;> exact delimits_cons rfl

/-- No item begins with a closing bracket. -/
theorem spell_append_ne_close (level : Nat) (j : Json) (cs r : List Char) :
    spell .dense level j ++ cs ≠ ']' :: r := by
  obtain ⟨c, ds, hds, hc⟩ := head_spell level j
  rw [hds, List.cons_append]
  intro h
  rw [(List.cons.inj h).1] at hc
  cases hc

mutual

/-- The text of a value is divided in one way from what follows it. -/
theorem spell_append_inj : ∀ (j j' : Json) (level : Nat) {r r' : List Char}, Delimits r →
    Delimits r' → spell .dense level j ++ r = spell .dense level j' ++ r' →
    j.written = j'.written ∧ r = r'
  | array items, j', level, r, r', _, _, h => by
    obtain ⟨items', rfl⟩ : ∃ items', j' = array items' :=
      shaped_of_token (token_eq h).symm level
    rw [spell_array, spell_array, List.cons_append, List.cons_append, List.append_assoc,
      List.append_assoc] at h
    obtain ⟨hitems, hrest⟩ := spellItems_append_inj items items' (level + 1) (List.cons.inj h).2
    exact ⟨congrArg array hitems, hrest⟩
  | object fields, j', level, r, r', _, _, h => by
    obtain ⟨fields', rfl⟩ : ∃ fields', j' = object fields' :=
      shaped_of_token (token_eq h).symm level
    rw [spell_object, spell_object, List.cons_append, List.cons_append, List.append_assoc,
      List.append_assoc] at h
    obtain ⟨hfields, hrest⟩ := spellFields_append_inj fields fields' (level + 1) (List.cons.inj h).2
    exact ⟨congrArg object hfields, hrest⟩
  | null, _, _, _, _, hr, hr', h => leaf_append_inj (by decide) (by decide) hr hr' h
  | bool _, _, _, _, _, hr, hr', h => leaf_append_inj (by simp [token]) (by simp [token]) hr hr' h
  | integer _, _, _, _, _, hr, hr', h =>
    leaf_append_inj (by simp [token]) (by simp [token]) hr hr' h
  | string _, _, _, _, _, hr, hr', h => leaf_append_inj (by simp [token]) (by simp [token]) hr hr' h
  | unreadable, _, _, _, _, hr, hr', h => leaf_append_inj (by decide) (by decide) hr hr' h
  | float x, _, _, _, _, hr, hr', h =>
    leaf_append_inj (by rw [token]; split <;> decide) (by rw [token]; split <;> decide) hr hr' h

/-- Items are divided in one way from what follows their closing bracket. -/
theorem spellItems_append_inj : ∀ (js js' : List Json) (level : Nat) {r r' : List Char},
    spellItems .dense level js ++ ']' :: r = spellItems .dense level js' ++ ']' :: r' →
    writtenItems js = writtenItems js' ∧ r = r'
  | [], [], _, _, _, h => ⟨rfl, (List.cons.inj h).2⟩
  | [], j' :: js', level, r, r', h => by
    rw [spellItems_cons] at h
    exact absurd h.symm (spell_append_ne_close level j' _ _)
  | j :: js, [], level, r, r', h => by
    rw [spellItems_cons] at h
    exact absurd h (spell_append_ne_close level j _ _)
  | j :: js, j' :: js', level, r, r', h => by
    rw [spellItems_cons, spellItems_cons] at h
    obtain ⟨hj, hafter⟩ := spell_append_inj j j' level (delimits_afterItem _ _ _)
      (delimits_afterItem _ _ _) h
    obtain ⟨hjs, hrest⟩ : writtenItems js = writtenItems js' ∧ r = r' := by
      cases js with
      | nil =>
        cases js' with
        | nil => exact ⟨rfl, (List.cons.inj hafter).2⟩
        | cons => exact absurd (List.cons.inj hafter).1 (by decide)
      | cons _ _ =>
        cases js' with
        | nil => exact absurd (List.cons.inj hafter).1 (by decide)
        | cons => exact spellItems_append_inj _ _ level (List.cons.inj hafter).2
    exact ⟨by rw [writtenItems, writtenItems, hj, hjs], hrest⟩

/-- Fields are divided in one way from what follows their closing brace. -/
theorem spellFields_append_inj : ∀ (fs fs' : List (String × Json)) (level : Nat) {r r' : List Char},
    spellFields .dense level fs ++ '\x7d' :: r = spellFields .dense level fs' ++ '\x7d' :: r' →
    writtenFields fs = writtenFields fs' ∧ r = r'
  | [], [], _, _, _, h => ⟨rfl, (List.cons.inj h).2⟩
  | [], (key', j') :: fs', level, r, r', h => by
    rw [spellFields_cons] at h
    exact absurd (List.cons.inj h).1 (by decide)
  | (key, j) :: fs, [], level, r, r', h => by
    rw [spellFields_cons] at h
    exact absurd (List.cons.inj h).1 (by decide)
  | (key, j) :: fs, (key', j') :: fs', level, r, r', h => by
    rw [spellFields_cons, spellFields_cons] at h
    obtain ⟨hkey, hcolon⟩ := quoteChars_append_inj h
    obtain ⟨hj, hafter⟩ := spell_append_inj j j' level (delimits_afterField _ _ _)
      (delimits_afterField _ _ _) (List.cons.inj hcolon).2
    obtain ⟨hfs, hrest⟩ : writtenFields fs = writtenFields fs' ∧ r = r' := by
      cases fs with
      | nil =>
        cases fs' with
        | nil => exact ⟨rfl, (List.cons.inj hafter).2⟩
        | cons => exact absurd (List.cons.inj hafter).1 (by decide)
      | cons _ _ =>
        cases fs' with
        | nil => exact absurd (List.cons.inj hafter).1 (by decide)
        | cons => exact spellFields_append_inj _ _ level (List.cons.inj hafter).2
    exact ⟨by rw [writtenFields, writtenFields, String.toList_inj.mp hkey, hj, hfs], hrest⟩

end

/-- Compact texts tell values apart, as far as they have a JSON form. -/
theorem compact_inj (h : j.compact = j'.compact) : j.written = j'.written := by
  have htexts := congrArg String.toList h
  rw [toList_compact j 0, toList_compact j' 0] at htexts
  have hnil : Delimits [] := fun c hc => by cases hc
  exact (spell_append_inj j j' 0 hnil hnil (congrArg (· ++ []) htexts)).1

/-- The text of an object is divided in one way from anything that follows it. -/
theorem object_append_inj {fields fields' : List (String × Json)}
    (h : (object fields).compact.toList ++ r = (object fields').compact.toList ++ r') :
    writtenFields fields = writtenFields fields' ∧ r = r' := by
  rw [toList_compact _ 0, toList_compact _ 0, spell_object, spell_object, List.cons_append,
    List.cons_append, List.append_assoc, List.append_assoc] at h
  exact spellFields_append_inj fields fields' 1 (List.cons.inj h).2

end ReactiveDoc.Json
