import ReactiveDoc.Proofs.Number.Comparing
import ReactiveDoc.Ty.Lattice
import ReactiveDoc.Value.Basic
import Mathlib.Data.List.Forall2

namespace ReactiveDoc

/-!
# The values of a type

* `Ty.Contains` — the values that a type describes, given which literals agree: `Eq` for the very
  literal of a singleton, `Literal.Alike` for its contents.
* `Ty.contains_congr` — equal types have the same values.
-/

/-! ### Literals -/

namespace Literal

theorem same_iff {l m : Literal} :
    l.same m = true ↔ l = m ∨ ∃ x y, l = .number x ∧ m = .number y ∧ Number.same x y = true := by
  cases l <;> cases m <;> simp [same]
  rintro rfl
  simp

@[simp] theorem same_refl (l : Literal) : l.same l = true := by simp [same_iff]

theorem same_comm (l m : Literal) : l.same m = m.same l := by
  cases l <;> cases m <;> simp [same, Number.same_comm, Bool.beq_comm]

theorem same_trans {l m n : Literal} (h : l.same m = true) (h' : m.same n = true) :
    l.same n = true := by
  cases l <;> cases m <;> simp [same] at h <;> cases n <;> simp [same] at h' ⊢
  case boolean => exact h.trans h'
  case number => exact Number.same_trans h h'
  case string => exact h.trans h'

/-- The literals have the same contents. -/
def Alike (l m : Literal) : Prop := l.same m = true

theorem Alike.refl (l : Literal) : l.Alike l := same_refl l

theorem alike_congr {l m n : Literal} (h : m.same n = true) : l.Alike m ↔ l.Alike n :=
  ⟨fun hl => same_trans hl h, fun hl => same_trans hl ((same_comm n m).trans h)⟩

end Literal

namespace Value

/-- The coarse kind of a value. -/
def kind : Value → Ty.Kind
  | undefined => .undefined
  | null => .null
  | boolean _ => .boolean
  | number _ => .number
  | string _ => .string
  | _ => .object

theorem ofLiteral_inj {l m : Literal} (h : ofLiteral l = ofLiteral m) : l = m := by
  cases l <;> cases m <;> simp_all [ofLiteral]

end Value

/-! ### Inhabiting a type -/

namespace Ty

variable (agree : Literal → Literal → Prop)

mutual

/-- The value is one of those that the type describes.

    Primitives go by their kind and a singleton by the literals that agree with its own; tuples and
    arrays go item by item, and object and module types by the member of each field, which a value
    may lack where `undefined` will do.  Nothing is known of the insides of a function, and there
    are no sets, maps or labelled values among the values of documents. -/
def Contains : Ty → Value → Prop
  | never, _ => False
  | unknown, _ => True
  | undefined, v => v = .undefined
  | null, v => v = .null
  | boolean, v => ∃ b, v = .boolean b
  | number, v => ∃ x, v = .number x
  | string, v => ∃ s, v = .string s
  | tuple items, v => ∃ i vs, v = .array i vs ∧ ContainsEach items vs
  | array item, v => ∃ i vs, v = .array i vs ∧ ∀ w ∈ vs, Contains item w
  | set _, _ => False
  | map _ _, _ => False
  | labelled _ _, _ => False
  | function _ _, v => ∃ i body, v = .function i body
  | object fields, v => (∃ i entries, v = .object i entries) ∧ ContainsFields fields v
  | module exports, v => (∃ i entries, v = .object i entries) ∧ ContainsExports exports v
  | union arms, v => ContainsSome arms v
  | intersection arms, v => ContainsAll arms v
  | singleton _ value, v => ∃ l, agree l value ∧ v = Value.ofLiteral l
  | complement ty, v => ¬ Contains ty v
  | error _, _ => True

/-- Each value is one of the type in its place. -/
def ContainsEach : List Ty → List Value → Prop
  | [], vs => vs = []
  | t :: ts, vs => ∃ w ws, vs = w :: ws ∧ Contains t w ∧ ContainsEach ts ws

/-- The value is one of some type. -/
def ContainsSome : List Ty → Value → Prop
  | [], _ => False
  | t :: ts, v => Contains t v ∨ ContainsSome ts v

/-- The value is one of every type. -/
def ContainsAll : List Ty → Value → Prop
  | [], _ => True
  | t :: ts, v => Contains t v ∧ ContainsAll ts v

/-- The members of the value are of the types of the fields. -/
def ContainsFields : List (Field Ty) → Value → Prop
  | [], _ => True
  | ⟨name, t⟩ :: fs, v => Contains t (v.member name) ∧ ContainsFields fs v

/-- The members of the value are of the types of the exports. -/
def ContainsExports : List (Export Ty) → Value → Prop
  | [], _ => True
  | ⟨name, t, _⟩ :: es, v => Contains t (v.member name) ∧ ContainsExports es v

end

variable {agree : Literal → Literal → Prop} {v : Value}

theorem containsSome_iff {ts : List Ty} :
    ContainsSome agree ts v ↔ ∃ t ∈ ts, Contains agree t v := by
  induction ts <;> simp [ContainsSome, *]

theorem containsAll_iff {ts : List Ty} :
    ContainsAll agree ts v ↔ ∀ t ∈ ts, Contains agree t v := by
  induction ts <;> simp [ContainsAll, *]

theorem containsFields_iff {fs : List (Field Ty)} :
    ContainsFields agree fs v ↔ ∀ f ∈ fs, Contains agree f.ty (v.member f.name) := by
  induction fs <;> simp [ContainsFields, *]

theorem containsEach_iff {ts : List Ty} {vs : List Value} :
    ContainsEach agree ts vs ↔ List.Forall₂ (Contains agree) ts vs := by
  induction ts generalizing vs with
  | nil => simp [ContainsEach]
  | cons t ts ih =>
    simp only [ContainsEach, ih, List.forall₂_cons_left_iff]
    grind

theorem contains_union {arms : List Ty} :
    Contains agree (union arms) v ↔ ∃ t ∈ arms, Contains agree t v := by
  rw [Contains, containsSome_iff]

theorem contains_intersection {arms : List Ty} :
    Contains agree (intersection arms) v ↔ ∀ t ∈ arms, Contains agree t v := by
  rw [Contains, containsAll_iff]

theorem contains_tuple {items : List Ty} :
    Contains agree (tuple items) v ↔
      ∃ i vs, v = .array i vs ∧ List.Forall₂ (Contains agree) items vs := by
  simp only [Contains, containsEach_iff]

theorem contains_object {fields : List (Field Ty)} :
    Contains agree (object fields) v ↔
      (∃ i entries, v = .object i entries) ∧
        ∀ f ∈ fields, Contains agree f.ty (v.member f.name) := by
  rw [Contains, containsFields_iff]

/-- A literal has its type. -/
theorem contains_literal {l : Literal} (hl : agree l l) :
    Contains agree (literal l) (Value.ofLiteral l) := by
  rw [literal, Contains]
  exact ⟨l, hl, rfl⟩

/-! ### Equal types -/

/-- Equal types are made in the same way, of parts that are equal. -/
inductive SameBy : Ty → Ty → Prop
  | refl {a} : SameBy a a
  | tuple {xs ys} (h : sameList xs ys = true) : SameBy (tuple xs) (tuple ys)
  | array {x y} (h : same x y = true) : SameBy (array x) (array y)
  | set {x y} (h : same x y = true) : SameBy (set x) (set y)
  | map {k v k' v'} (hk : same k k' = true) (hv : same v v' = true) :
      SameBy (map k v) (map k' v')
  | labelled {label xs ys} (h : sameList xs ys = true) :
      SameBy (labelled label xs) (labelled label ys)
  | function {ps r ps' r'} (hp : sameList ps ps' = true) (hr : same r r' = true) :
      SameBy (function ps r) (function ps' r')
  | object {fs gs} (h : sameFields fs gs = true) : SameBy (object fs) (object gs)
  | module {es gs} (h : sameExports es gs = true) : SameBy (module es) (module gs)
  | union {xs ys} (h : sameList xs ys = true) : SameBy (union xs) (union ys)
  | intersection {xs ys} (h : sameList xs ys = true) :
      SameBy (intersection xs) (intersection ys)
  | singleton {base l base' m} (hb : same base base' = true) (h : l.same m = true) :
      SameBy (singleton base l) (singleton base' m)
  | complement {x y} (h : same x y = true) : SameBy (complement x) (complement y)

theorem same_cases {a b : Ty} (h : same a b = true) : SameBy a b := by
  rw [same.eq_def] at h
  split at h
  case h_1 | h_2 | h_3 | h_4 | h_5 | h_6 | h_7 => exact .refl
  case h_8 => exact .tuple h
  case h_9 => exact .array h
  case h_10 => exact .set h
  case h_11 =>
    rw [Bool.and_eq_true] at h
    exact .map h.1 h.2
  case h_12 =>
    rw [Bool.and_eq_true, beq_iff_eq] at h
    obtain ⟨rfl, h⟩ := h
    exact .labelled h
  case h_13 =>
    rw [Bool.and_eq_true] at h
    exact .function h.1 h.2
  case h_14 => exact .object h
  case h_15 => exact .module h
  case h_16 => exact .union h
  case h_17 => exact .intersection h
  case h_18 =>
    rw [Bool.and_eq_true] at h
    exact .singleton h.1 h.2
  case h_19 => exact .complement h
  case h_20 =>
    rw [beq_iff_eq] at h
    exact h ▸ .refl
  case h_21 => cases h

mutual

/-- Equal types have the same values. -/
theorem contains_congr : ∀ (a : Ty) {b : Ty} {v : Value},
    same a b = true → (Contains Literal.Alike a v ↔ Contains Literal.Alike b v)
  | never, b, v, h | unknown, b, v, h | undefined, b, v, h | null, b, v, h | boolean, b, v, h
  | number, b, v, h | string, b, v, h | error _, b, v, h | function _ _, b, v, h | set _, b, v, h
  | map _ _, b, v, h | labelled _ _, b, v, h => by cases same_cases h <;> exact Iff.rfl
  | tuple xs, b, v, h => by
    cases same_cases h with
    | refl => rfl
    | tuple hparts => simp only [Contains, containsEach_congr xs hparts]
  | array x, b, v, h => by
    cases same_cases h with
    | refl => rfl
    | array hparts => simp only [Contains, contains_congr x hparts]
  | object fs, b, v, h => by
    cases same_cases h with
    | refl => rfl
    | object hparts => simp only [Contains, containsFields_congr fs hparts]
  | module es, b, v, h => by
    cases same_cases h with
    | refl => rfl
    | module hparts => simp only [Contains, containsExports_congr es hparts]
  | union xs, b, v, h => by
    cases same_cases h with
    | refl => rfl
    | union hparts => simp only [Contains, containsSome_congr xs hparts]
  | intersection xs, b, v, h => by
    cases same_cases h with
    | refl => rfl
    | intersection hparts => simp only [Contains, containsAll_congr xs hparts]
  | complement x, b, v, h => by
    cases same_cases h with
    | refl => rfl
    | complement hparts => simp only [Contains, contains_congr x hparts]
  | singleton base l, b, v, h => by
    cases same_cases h with
    | refl => rfl
    | singleton _ hl => simp only [Contains, Literal.alike_congr hl]

theorem containsEach_congr : ∀ (ts : List Ty) {us : List Ty}
    {vs : List Value}, sameList ts us = true → (ContainsEach Literal.Alike ts vs ↔ ContainsEach Literal.Alike us vs)
  | [], us, vs, h => by cases us <;> simp_all [sameList]
  | t :: ts, us, vs, h => by
    cases us with
    | nil => simp [sameList] at h
    | cons u us =>
      simp only [sameList, Bool.and_eq_true] at h
      simp only [ContainsEach, contains_congr t h.1, containsEach_congr ts h.2]

theorem containsSome_congr : ∀ (ts : List Ty) {us : List Ty} {v : Value},
    sameList ts us = true → (ContainsSome Literal.Alike ts v ↔ ContainsSome Literal.Alike us v)
  | [], us, v, h => by cases us <;> simp_all [sameList]
  | t :: ts, us, v, h => by
    cases us with
    | nil => simp [sameList] at h
    | cons u us =>
      simp only [sameList, Bool.and_eq_true] at h
      simp only [ContainsSome, contains_congr t h.1, containsSome_congr ts h.2]

theorem containsAll_congr : ∀ (ts : List Ty) {us : List Ty} {v : Value},
    sameList ts us = true → (ContainsAll Literal.Alike ts v ↔ ContainsAll Literal.Alike us v)
  | [], us, v, h => by cases us <;> simp_all [sameList]
  | t :: ts, us, v, h => by
    cases us with
    | nil => simp [sameList] at h
    | cons u us =>
      simp only [sameList, Bool.and_eq_true] at h
      simp only [ContainsAll, contains_congr t h.1, containsAll_congr ts h.2]

theorem containsFields_congr : ∀ (fs : List (Field Ty))
    {gs : List (Field Ty)} {v : Value},
    sameFields fs gs = true → (ContainsFields Literal.Alike fs v ↔ ContainsFields Literal.Alike gs v)
  | [], gs, v, h => by cases gs <;> simp_all [sameFields]
  | ⟨name, t⟩ :: fs, gs, v, h => by
    cases gs with
    | nil => simp [sameFields] at h
    | cons g gs =>
      obtain ⟨_, u⟩ := g
      simp only [sameFields, Bool.and_eq_true, beq_iff_eq] at h
      obtain ⟨⟨rfl, ht⟩, hfs⟩ := h
      simp only [ContainsFields, contains_congr t ht, containsFields_congr fs hfs]

theorem containsExports_congr : ∀ (es : List (Export Ty))
    {gs : List (Export Ty)} {v : Value},
    sameExports es gs = true → (ContainsExports Literal.Alike es v ↔ ContainsExports Literal.Alike gs v)
  | [], gs, v, h => by cases gs <;> simp_all [sameExports]
  | ⟨name, t, d⟩ :: es, gs, v, h => by
    cases gs with
    | nil => simp [sameExports] at h
    | cons g gs =>
      obtain ⟨_, u, _⟩ := g
      simp only [sameExports, Bool.and_eq_true, beq_iff_eq] at h
      obtain ⟨⟨⟨rfl, ht⟩, -⟩, hes⟩ := h
      simp only [ContainsExports, contains_congr t ht, containsExports_congr es hes]

end

end Ty

end ReactiveDoc
