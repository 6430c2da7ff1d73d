import ReactiveDoc.Check.Operators
import ReactiveDoc.Proofs.Ty.Subtyping

namespace ReactiveDoc.Check

/-!
# Rules applied to every pair of union arms

* `Single` — a type that is not a union, to which a rule is applied as it is.
* `contains_distribute?` — a rule that is right about the values of single types is right about the
  values of unions.
-/

/-- The type is not a union. -/
def Single (t : Ty) : Prop := ∀ arms, t = .union arms → False

/-- A type is single or a union of arms. -/
theorem formed_arms_induction {optional : Bool} {P : (t : Ty) → t.Formed optional → Prop}
    (single : ∀ t (ht : t.Formed optional), Single t → P t ht)
    (union : ∀ arms (h : ∀ t ∈ arms, t.Formed optional), (∀ t (ht : t ∈ arms), P t (h t ht)) →
      P (.union arms) (.union h))
    (t : Ty) (ht : t.Formed optional) : P t ht := by
  induction ht with
  | union h ih => exact union _ h ih
  | _ => exact single _ _ nofun

variable {rule : Ty → Ty → Option Ty} {left right t : Ty}

theorem distribute?_single (hl : Single left) (hr : Single right) :
    distribute? rule left right = rule left right := by
  unfold distribute?
  split
  next arms => exact (hl arms rfl).elim
  next =>
    split
    next arms => exact (hr arms rfl).elim
    next => rfl

/-! ### Unions of results -/

section Results

variable {α : Type} {f : α → Option Ty} {xs : List α}

theorem regular_unionOf_mapM (hf : ∀ x u, f x = some u → u.Regular)
    (h : (xs.mapM f).map Ty.unionOf = some t) : t.Regular := by
  obtain ⟨ts, hts, rfl⟩ := Option.map_eq_some_iff.1 h
  refine Ty.formed_unionOf fun u hu => ?_
  obtain ⟨x, -, hx⟩ := exists_left_of_mem (forall₂_of_mapM_some hts) hu
  exact hf x u hx

theorem contains_unionOf_mapM {v : Value} (hf : ∀ x u, f x = some u → u.Regular)
    (h : (xs.mapM f).map Ty.unionOf = some t) {x : α} (hx : x ∈ xs)
    (hv : ∀ u, f x = some u → u.Contains Literal.Alike v) : t.Contains Literal.Alike v := by
  obtain ⟨ts, hts, rfl⟩ := Option.map_eq_some_iff.1 h
  have hall := forall₂_of_mapM_some hts
  obtain ⟨u, hu, hxu⟩ := exists_right_of_mem hall hx
  refine Ty.contains_unionOf (fun s hs => ?_) hu (hv u hxu)
  obtain ⟨y, -, hy⟩ := exists_left_of_mem hall hs
  exact hf y s hy

end Results

/-! ### Both operands -/

section Distribution

variable (good : Ty → Prop) (hopen : ∀ arms, good (.union arms) → ∀ arm ∈ arms, good arm)

include hopen

theorem regular_distribute?
    (hrule : ∀ l r u, good l → good r → rule l r = some u → u.Regular)
    (hl : good left) (hr : good right) (h : distribute? rule left right = some t) :
    t.Regular := by
  fun_induction distribute? rule left right generalizing t with
  | case1 right arms ih =>
    exact regular_unionOf_mapM (fun arm u hu => ih arm (hopen arms hl arm.1 arm.2) hr hu) h
  | case2 left hsl arms ih =>
    exact regular_unionOf_mapM (fun arm u hu => ih arm hl (hopen arms hr arm.1 arm.2) hu) h
  | case3 left hsl right hsr => exact hrule left right t hl hr h

/-- A rule that is right about the values of single types is right about the values of unions. -/
theorem contains_distribute? {agree : Literal → Literal → Prop} {v w result : Value}
    (hreg : ∀ l r u, good l → good r → rule l r = some u → u.Regular)
    (hrule : ∀ l r u, Single l → Single r → good l → good r → l.Contains agree v →
      r.Contains agree w → rule l r = some u → u.Contains Literal.Alike result)
    (hl : good left) (hr : good right) (hv : left.Contains agree v) (hw : right.Contains agree w)
    (h : distribute? rule left right = some t) : t.Contains Literal.Alike result := by
  fun_induction distribute? rule left right generalizing t with
  | case1 right arms ih =>
    obtain ⟨arm, ha, hav⟩ := Ty.contains_union.1 hv
    refine contains_unionOf_mapM (fun arm u hu => ?_) h (List.mem_attach arms ⟨arm, ha⟩)
      fun u hu => ih ⟨arm, ha⟩ (hopen arms hl arm ha) hr hav hw hu
    exact regular_distribute? good hopen hreg (hopen arms hl arm.1 arm.2) hr hu
  | case2 left hsl arms ih =>
    obtain ⟨arm, ha, haw⟩ := Ty.contains_union.1 hw
    refine contains_unionOf_mapM (fun arm u hu => ?_) h (List.mem_attach arms ⟨arm, ha⟩)
      fun u hu => ih ⟨arm, ha⟩ hl (hopen arms hr arm ha) hv haw hu
    exact regular_distribute? good hopen hreg hl (hopen arms hr arm.1 arm.2) hu
  | case3 left hsl right hsr => exact hrule left right t hsl hsr hl hr hv hw h

end Distribution

/-! ### Results of the rules -/

theorem regular_ofBool (b : Bool) : (Ty.ofBool b).Regular := .literal _

theorem regular_ofNumber (x : Float) : (Ty.ofNumber x).Regular := .literal _

theorem regular_ofString (s : String) : (Ty.ofString s).Regular := .literal _

theorem regular_foldNumber (f : Float → Float → Float) (left right : Ty) :
    (foldNumber f left right).Regular := by
  unfold foldNumber
  split
  · exact regular_ofNumber _
  · exact .number

theorem regular_concatType? (h : concatType? left right = some t) : t.Regular := by
  simp only [concatType?, Option.ite_none_right_eq_some, Option.some.injEq] at h
  obtain ⟨-, rfl⟩ := h
  split
  · exact regular_ofString _
  · exact .string

/-- The rule by which an operator on single operands is typed. -/
inductive ArmBy (op : BinaryOp) (l r : Ty) : Ty → Prop
  | gradual (h : isGradual l = true ∨ isGradual r = true) :
      ArmBy op l r (match op with
        | .add => .unknown
        | .sub | .mul | .div | .rem => .number
        | _ => .boolean)
  | numbers {f : Float → Float → Float} (hop : arithmetic? op = some f) (hl : l.isSubtype .number = true)
      (hr : r.isSubtype .number = true) : ArmBy op l r (foldNumber f l r)
  | texts {t : Ty} (hop : op = .add) (h : concatType? l r = some t) : ArmBy op l r t
  | order (hop : op = .lt ∨ op = .le ∨ op = .gt ∨ op = .ge)
      (h : bothBelow .number l r = true ∨ bothBelow .string l r = true) :
      ArmBy op l r (match compareLiterals? l r with
        | some o => Ty.ofBool (op.holdsOf o)
        | none => .boolean)
  | equality (hop : op.isEquality = true) :
      ArmBy op l r (match staticEquality? op.isLoose l r with
        | some e => Ty.ofBool (e != op.isNegated)
        | none => .boolean)

theorem binaryArm?_cases {op : BinaryOp} (h : binaryArm? op left right = some t) :
    ArmBy op left right t := by
  unfold binaryArm? at h
  split at h
  next hg =>
    cases h
    exact .gradual (by simpa using hg)
  next =>
    have hnum : bothBelow .number left right = true →
        left.isSubtype .number = true ∧ right.isSubtype .number = true := by simp [bothBelow]
    cases op with
    | add =>
      simp only [if_true] at h
      split at h
      next hb =>
        cases h
        exact .numbers rfl (hnum hb).1 (hnum hb).2
      next => exact .texts rfl h
    | sub | mul | div | rem =>
      simp only [reduceCtorEq, if_false, Option.ite_none_right_eq_some] at h
      obtain ⟨hb, h⟩ := h
      cases h
      exact .numbers rfl (hnum hb).1 (hnum hb).2
    | lt | le | gt | ge =>
      simp only [Option.ite_none_right_eq_some] at h
      obtain ⟨hb, h⟩ := h
      cases h
      exact .order (by simp) (by simpa using hb)
    | strictEq | strictNe | eq | ne =>
      cases h
      exact .equality rfl

/-- The results of operators are primitives or unknown. -/
theorem regular_binaryArm? {op : BinaryOp} (h : binaryArm? op left right = some t) :
    t.Regular := by
  cases binaryArm?_cases h with
  | gradual => cases op <;> constructor
  | numbers => exact regular_foldNumber _ left right
  | texts _ h => exact regular_concatType? h
  | order | equality =>
    split
    · exact regular_ofBool _
    · exact .boolean

theorem distribute?_of_binaryType {op : BinaryOp} (h : binaryType op left right = .ok t) :
    distribute? (binaryArm? op) left right = some t := by
  unfold binaryType at h
  split at h <;> simp_all

theorem regular_binaryType {op : BinaryOp} (h : binaryType op left right = .ok t) : t.Regular :=
  regular_distribute? (fun _ => True) (fun _ _ _ _ => trivial)
    (fun _ _ _ _ _ => regular_binaryArm?) trivial trivial (distribute?_of_binaryType h)

end ReactiveDoc.Check
