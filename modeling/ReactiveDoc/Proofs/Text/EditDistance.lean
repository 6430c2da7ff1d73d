import Mathlib.Order.Bounds.Basic
import ReactiveDoc.Text.EditDistance

namespace ReactiveDoc.Text

/-!
# The least number of edits

* `Edit`, `Edits` — one insertion, deletion or substitution anywhere in a text, and several of them
  one after the other.
* `leastCost` — the least cost of editing a text from its front on, by recursion on both texts;
  `edits_leastCost` and `leastCost_le` — it is the least number of edits in any order.
* `costs`, `lastRow_eq` — the rows of the distance table hold the least costs of the beginnings, read
  backwards.
* `editDistance_leastEdits` — the edit distance is the least number of edits, and a metric.
-/

/-! ### Edits -/

/-- One character is inserted, deleted or replaced, anywhere in the text. -/
inductive Edit : List Char → List Char → Prop
  | insert (front back : List Char) (c : Char) : Edit (front ++ back) (front ++ c :: back)
  | delete (front back : List Char) (c : Char) : Edit (front ++ c :: back) (front ++ back)
  | substitute (front back : List Char) (c d : Char) : Edit (front ++ c :: back) (front ++ d :: back)

/-- The second text is made from the first by so many edits, one after the other. -/
inductive Edits : Nat → List Char → List Char → Prop
  | none (a : List Char) : Edits 0 a a
  | more {n : Nat} {a b c : List Char} (h : Edits n a b) (he : Edit b c) : Edits (n + 1) a c

variable {a b c : List Char} {m n : Nat}

theorem Edit.symm (h : Edit a b) : Edit b a := by
  cases h with
  | insert front back c => exact .delete front back c
  | delete front back c => exact .insert front back c
  | substitute front back c d => exact .substitute front back d c

theorem Edit.cons (x : Char) (h : Edit a b) : Edit (x :: a) (x :: b) := by
  cases h with
  | insert front back c => exact .insert (x :: front) back c
  | delete front back c => exact .delete (x :: front) back c
  | substitute front back c d => exact .substitute (x :: front) back c d

theorem Edit.reverse (h : Edit a b) : Edit a.reverse b.reverse := by
  cases h with
  | insert front back c => simpa using Edit.insert back.reverse front.reverse c
  | delete front back c => simpa using Edit.delete back.reverse front.reverse c
  | substitute front back c d => simpa using Edit.substitute back.reverse front.reverse c d

namespace Edits

theorem single (h : Edit a b) : Edits 1 a b := .more (.none a) h

theorem trans (hab : Edits m a b) (hbc : Edits n b c) : Edits (m + n) a c := by
  induction hbc with
  | none => exact hab
  | more _ he ih => exact .more (ih hab) he

theorem symm (h : Edits n a b) : Edits n b a := by
  induction h with
  | none => exact .none _
  | more _ he ih => exact Nat.add_comm 1 _ ▸ (single he.symm).trans ih

theorem cons (x : Char) (h : Edits n a b) : Edits n (x :: a) (x :: b) := by
  induction h with
  | none => exact .none _
  | more _ he ih => exact .more ih (he.cons x)

theorem reverse (h : Edits n a b) : Edits n a.reverse b.reverse := by
  induction h with
  | none => exact .none _
  | more _ he ih => exact .more ih he.reverse

theorem reverse_iff : Edits n a.reverse b.reverse ↔ Edits n a b :=
  ⟨fun h => by simpa using h.reverse, reverse⟩

/-- A text is written character by character. -/
theorem of_nil (b : List Char) : Edits b.length [] b := by
  induction b with
  | nil => exact .none []
  | cons d b ih => exact .more ih (.insert [] b d)

/-- Of two ways the shorter one counts. -/
theorem least (hm : Edits m a b) (hn : Edits n a b) : Edits (min m n) a b := by
  rcases Nat.le_total m n with h | h
  · rwa [Nat.min_eq_left h]
  · rwa [Nat.min_eq_right h]

theorem eq_of_zero (h : Edits 0 a b) : a = b := by
  cases h
  rfl

end Edits

/-! ### The least cost -/

/-- The least cost of making the second text from the first: the first characters are deleted,
    inserted, or set against each other. -/
def leastCost : List Char → List Char → Nat
  | [], b => b.length
  | a, [] => a.length
  | c :: a, d :: b =>
      min (min (leastCost a (d :: b) + 1) (leastCost (c :: a) b + 1))
        (leastCost a b + if c = d then 0 else 1)
termination_by a b => a.length + b.length

theorem leastCost_nil_left (b : List Char) : leastCost [] b = b.length := by
  rw [leastCost]

theorem leastCost_nil_right (a : List Char) : leastCost a [] = a.length := by
  cases a <;> simp [leastCost]

theorem leastCost_cons_left_le (x : Char) (a b : List Char) :
    leastCost (x :: a) b ≤ leastCost a b + 1 := by
  cases b with
  | nil => simp [leastCost_nil_right]
  | cons d b =>
    rw [leastCost]
    omega

theorem leastCost_cons_right_le (a b : List Char) (x : Char) :
    leastCost a (x :: b) ≤ leastCost a b + 1 := by
  cases a with
  | nil => simp [leastCost_nil_left]
  | cons c a =>
    rw [leastCost]
    omega

/-- There are as many edits as the least cost says. -/
theorem edits_leastCost (a b : List Char) : Edits (leastCost a b) a b := by
  fun_induction leastCost a b with
  | case1 b => exact .of_nil b
  | case2 a => exact (Edits.of_nil a).symm
  | case3 c a d b ihDelete ihInsert ihBoth =>
    have hdelete : Edits (leastCost a (d :: b) + 1) (c :: a) (d :: b) :=
      Nat.add_comm 1 _ ▸ (Edits.single (.delete [] a c)).trans ihDelete
    have hinsert : Edits (leastCost (c :: a) b + 1) (c :: a) (d :: b) :=
      ihInsert.more (.insert [] b d)
    have hboth : Edits (leastCost a b + if c = d then 0 else 1) (c :: a) (d :: b) := by
      split
      next h => exact h ▸ ihBoth.cons c
      next => exact (ihBoth.cons c).more (.substitute [] b c d)
    exact (hdelete.least hinsert).least hboth

/-- Where an edit raises no cost by more than one, it does not behind a further character. -/
theorem leastCost_cons_cons_le {b b' : List Char} (x : Char)
    (h : ∀ a, leastCost a b' ≤ leastCost a b + 1) (a : List Char) :
    leastCost a (x :: b') ≤ leastCost a (x :: b) + 1 := by
  induction a with
  | nil =>
    have := h []
    simp only [leastCost_nil_left, List.length_cons] at this ⊢
    omega
  | cons c a ih =>
    have := h a
    have := h (c :: a)
    rw [leastCost, leastCost]
    omega

theorem leastCost_delete_le (d : Char) (b a : List Char) :
    leastCost a b ≤ leastCost a (d :: b) + 1 := by
  induction a with
  | nil =>
    simp only [leastCost_nil_left, List.length_cons]
    omega
  | cons c a ih =>
    have := leastCost_cons_left_le c a b
    rw [leastCost]
    omega

theorem leastCost_substitute_le (d x : Char) (b a : List Char) :
    leastCost a (x :: b) ≤ leastCost a (d :: b) + 1 := by
  induction a with
  | nil => simp [leastCost_nil_left]
  | cons c a ih =>
    rw [leastCost, leastCost]
    split <;> split <;> omega

/-- One more edit raises the least cost by one at most. -/
theorem leastCost_edit_le {b b' : List Char} (h : Edit b b') (a : List Char) :
    leastCost a b' ≤ leastCost a b + 1 := by
  -- The edit is behind its front, which is the same in both texts.
  cases h with
  | insert front back c =>
    induction front generalizing a with
    | nil => exact leastCost_cons_right_le a back c
    | cons x front ih => exact leastCost_cons_cons_le x ih a
  | delete front back c =>
    induction front generalizing a with
    | nil => exact leastCost_delete_le c back a
    | cons x front ih => exact leastCost_cons_cons_le x ih a
  | substitute front back c d =>
    induction front generalizing a with
    | nil => exact leastCost_substitute_le c d back a
    | cons x front ih => exact leastCost_cons_cons_le x ih a

theorem leastCost_self (a : List Char) : leastCost a a = 0 := by
  induction a with
  | nil => exact leastCost_nil_left []
  | cons c a ih =>
    rw [leastCost, if_pos rfl, ih]
    exact Nat.min_zero _

/-- Fewer edits than the least cost do not do. -/
theorem leastCost_le (h : Edits n a b) : leastCost a b ≤ n := by
  induction h with
  | none a => exact Nat.le_of_eq (leastCost_self a)
  | more _ he ih => exact (leastCost_edit_le he _).trans (Nat.succ_le_succ ih)

/-! ### The distance table -/

/-- The least costs of `a` against `b`, and against `b` with more and more characters of the third
    text put in front. -/
def costs (a b : List Char) : List Char → List Nat
  | [] => [leastCost a b]
  | d :: ds => leastCost a b :: costs a (d :: b) ds

theorem costs_eq_cons (a b ds : List Char) : costs a b ds = leastCost a b :: (costs a b ds).tail := by
  cases ds <;> rfl

theorem nextCells_costs (c : Char) (a b ds : List Char) :
    nextCells c ds (leastCost (c :: a) b) (costs a b ds) = (costs (c :: a) b ds).tail := by
  induction ds generalizing b with
  | nil => rfl
  | cons d ds ih =>
    have hcell : min (min (leastCost a (d :: b) + 1) (leastCost (c :: a) b + 1))
        (leastCost a b + if c = d then 0 else 1) = leastCost (c :: a) (d :: b) := by
      rw [leastCost]
    rw [costs, costs, costs_eq_cons a (d :: b), nextCells, hcell, ← costs_eq_cons, ih, List.tail_cons,
      ← costs_eq_cons]

/-- Reading one more character of the first text leads from row to row. -/
theorem nextRow_costs (c : Char) (a b : List Char) :
    nextRow c b (costs a [] b) = costs (c :: a) [] b := by
  have hfirst : (costs a [] b).headD 0 + 1 = leastCost (c :: a) [] := by
    rw [costs_eq_cons, List.headD_cons, leastCost_nil_right, leastCost_nil_right, List.length_cons]
  rw [nextRow, hfirst, nextCells_costs, ← costs_eq_cons]

theorem range_eq_costs (b ds : List Char) :
    List.range' b.length (ds.length + 1) = costs [] b ds := by
  induction ds generalizing b with
  | nil => rw [costs, leastCost_nil_left]; rfl
  | cons d ds ih => rw [costs, leastCost_nil_left, ← ih, List.length_cons, List.range'_succ]; rfl

theorem foldl_nextRow (a p b : List Char) :
    a.foldl (fun row c => nextRow c b row) (costs p [] b) = costs (a.reverse ++ p) [] b := by
  induction a generalizing p with
  | nil => rfl
  | cons c a ih =>
    rw [List.foldl_cons, nextRow_costs, ih, List.reverse_cons, List.append_assoc]
    rfl

theorem lastRow_eq (a b : List Char) : lastRow a b = costs a.reverse [] b := by
  rw [lastRow, List.range_eq_range', show 0 = ([] : List Char).length from rfl, range_eq_costs,
    foldl_nextRow, List.append_nil]

theorem getLastD_costs (a b ds : List Char) (x : Nat) :
    (costs a b ds).getLastD x = leastCost a (ds.reverse ++ b) := by
  induction ds generalizing b x with
  | nil => rfl
  | cons d ds ih => rw [costs, List.getLastD_cons, ih, List.reverse_cons, List.append_assoc]; rfl

theorem editDistanceChars_eq (a b : List Char) :
    editDistanceChars a b = leastCost a.reverse b.reverse := by
  rw [editDistanceChars, lastRow_eq, getLastD_costs, List.append_nil]

/-! ### The edit distance -/

theorem isLeast_editDistanceChars (a b : List Char) :
    IsLeast {n | Edits n a b} (editDistanceChars a b) := by
  rw [editDistanceChars_eq]
  constructor
  · exact Edits.reverse_iff.mp (edits_leastCost a.reverse b.reverse)
  · intro n h
    exact leastCost_le h.reverse

/-- The edit distance is the least number of edits that make one text of the other.  It does not
    depend on the direction, is zero only between equal texts, and a detour makes it no shorter. -/
theorem editDistance_leastEdits (a b : String) :
    IsLeast {n | Edits n a.toList b.toList} (editDistance a b) ∧
      editDistance a b = editDistance b a ∧ (editDistance a b = 0 ↔ a = b) ∧
      ∀ c, editDistance a c ≤ editDistance a b + editDistance b c := by
  have hleast (a b : String) : IsLeast {n | Edits n a.toList b.toList} (editDistance a b) :=
    isLeast_editDistanceChars a.toList b.toList
  have hreach (a b : String) : Edits (editDistance a b) a.toList b.toList := (hleast a b).1
  have hbound {a b : String} {n : Nat} (h : Edits n a.toList b.toList) : editDistance a b ≤ n :=
    (hleast a b).2 h
  refine ⟨hleast a b, Nat.le_antisymm (hbound (hreach b a).symm) (hbound (hreach a b).symm),
    ⟨fun h => ?_, fun h => ?_⟩, fun c => hbound ((hreach a b).trans (hreach b c))⟩
  · have hnone : Edits 0 a.toList b.toList := h ▸ hreach a b
    exact String.toList_inj.mp hnone.eq_of_zero
  · subst h
    exact Nat.le_zero.mp (hbound (.none a.toList))

end ReactiveDoc.Text
