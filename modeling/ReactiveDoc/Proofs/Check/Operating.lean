import ReactiveDoc.Proofs.Check.Operands

namespace ReactiveDoc.Check

/-!
# Operators give values of their types

Results that are united stand for each other where one is a subtype of the other.  So the two zeros
are one, and an object type whose fields may be missing gives way to one without them.

* `Follows` — a value of a type, which is the very literal of a singleton unless results were united.
* `follows_binaryType`, `follows_unaryType` — the results of operators.
* `Merges` — what is found for the arms of unions can be united.
* `follows_memberType`, `follows_indexType` — the members and items of values.
* `operators_sound` — all of them together.
-/

variable {left right t u : Ty} {v w : Value}

/-! ### Single operands -/

/-- The values of a type below the numbers or the texts are such. -/
theorem contains_of_isSubtype_base {base : Ty} (hbase : base = .number ∨ base = .string)
    (ht : t.WellFormed) (h : t.isSubtype base = true) (hv : t.Contains Literal.Alike v) :
    base.Contains Literal.Alike v := by
  have hreg : base.Regular := by rcases hbase with rfl | rfl <;> constructor
  induction ht with
  | union _ ih =>
    obtain ⟨arm, ha, hav⟩ := Ty.contains_union.1 hv
    refine ih arm ha ?_ hav
    rcases hbase with rfl | rfl <;>
      · simp only [Ty.isSubtype, Ty.same, Bool.false_or, List.all_eq_true, List.mem_attach,
          true_imp_iff, Subtype.forall] at h
        exact h arm ha
  | tuple | array | function | object =>
    rcases hbase with rfl | rfl <;> simp [Ty.isSubtype, Ty.same] at h
  | literal l => exact Ty.contains_of_isSubtype (.literal l) hreg h hv
  | _ => exact Ty.contains_of_isSubtype (by constructor) hreg h hv

theorem eq_number_of_isSubtype (ht : t.WellFormed) (h : t.isSubtype .number = true)
    (hv : t.Contains Eq v) : ∃ x, v = .number x :=
  contains_of_isSubtype_base (.inl rfl) ht h (ht.contains_alike hv)

theorem eq_string_of_isSubtype (ht : t.WellFormed) (h : t.isSubtype .string = true)
    (hv : t.Contains Eq v) : ∃ s, v = .string s :=
  contains_of_isSubtype_base (.inr rfl) ht h (ht.contains_alike hv)

/-- A value of a singleton is its literal. -/
theorem eq_ofLiteral (hv : t.Contains Eq v) {l : Literal} (h : t.literal? = some l) :
    v = .ofLiteral l := by
  cases t <;> cases h
  obtain ⟨m, rfl, rfl⟩ := hv
  rfl

theorem eq_number (hv : t.Contains Eq v) {x : Float} (h : number? t = some x) :
    v = .number x := by
  unfold number? at h
  split at h <;> cases h
  next hl => exact eq_ofLiteral hv hl

theorem contains_ofNumber (x : Float) : (Ty.ofNumber x).Contains Eq (.number x) :=
  Ty.contains_literal rfl

theorem contains_ofString (s : String) : (Ty.ofString s).Contains Eq (.string s) :=
  Ty.contains_literal rfl

theorem contains_ofBool (b : Bool) : (Ty.ofBool b).Contains Eq (.boolean b) :=
  Ty.contains_literal rfl

theorem contains_foldNumber {f : Float → Float → Float} {x y : Float}
    (hv : left.Contains Eq (.number x)) (hw : right.Contains Eq (.number y)) :
    (foldNumber f left right).Contains Eq (.number (f x y)) := by
  unfold foldNumber
  split
  next x' y' hx hy =>
    cases eq_number hv hx
    cases eq_number hw hy
    exact contains_ofNumber _
  next => exact ⟨_, rfl⟩

theorem binary_of_arithmetic? {op : BinaryOp} {f : Float → Float → Float}
    (h : arithmetic? op = some f) (x y : Float) :
    Value.binary op (.number x) (.number y) = .number (f x y) := by
  cases op <;> cases h <;> rfl

theorem concatText?_eq_display (hv : t.Contains Eq v) {s : String} (h : concatText? t = some s) :
    v.display = s := by
  unfold concatText? at h
  split at h <;> cases h
  next hl =>
    rw [eq_ofLiteral hv hl]
    rfl
  next hl =>
    rw [eq_ofLiteral hv hl]
    rfl

theorem contains_concatType? (hl : left.WellFormed) (hr : right.WellFormed)
    (hv : left.Contains Eq v) (hw : right.Contains Eq w) (h : concatType? left right = some t) :
    t.Contains Eq (v.add w) := by
  simp only [concatType?, Option.ite_none_right_eq_some, Option.some.injEq, Bool.and_eq_true,
    Bool.or_eq_true] at h
  obtain ⟨⟨htext, -⟩, rfl⟩ := h
  have hadd : v.add w = .string (v.display ++ w.display) := by
    rcases htext with h | h
    · obtain ⟨s, rfl⟩ := eq_string_of_isSubtype hl h hv
      rfl
    · obtain ⟨s, rfl⟩ := eq_string_of_isSubtype hr h hw
      cases v <;> rfl
  rw [hadd]
  split
  next s t hs ht =>
    rw [concatText?_eq_display hv hs, concatText?_eq_display hw ht]
    exact contains_ofString _
  next => exact ⟨_, rfl⟩

theorem compare?_eq (hv : left.Contains Eq v) (hw : right.Contains Eq w) {o : Ordering}
    (h : compareLiterals? left right = some o) : v.compare? w = some o := by
  unfold compareLiterals? at h
  split at h
  next x y hx hy =>
    rw [eq_ofLiteral hv hx, eq_ofLiteral hw hy]
    exact h
  next s t hs ht =>
    rw [eq_ofLiteral hv hs, eq_ofLiteral hw ht]
    exact h
  next => cases h

/-- The result of an operator other than an equality is of the type of its rule. -/
theorem contains_binaryArm? {op : BinaryOp} (hop : op.isEquality = false) (hl : left.WellFormed)
    (hr : right.WellFormed) (hv : left.Contains Eq v) (hw : right.Contains Eq w)
    (h : binaryArm? op left right = some t) : t.Contains Eq (Value.binary op v w) := by
  cases binaryArm?_cases h with
  | gradual =>
    cases op with
    | add => trivial
    | _ => exact ⟨_, rfl⟩
  | numbers hf hsl hsr =>
    obtain ⟨x, rfl⟩ := eq_number_of_isSubtype hl hsl hv
    obtain ⟨y, rfl⟩ := eq_number_of_isSubtype hr hsr hw
    rw [binary_of_arithmetic? hf]
    exact contains_foldNumber hv hw
  | texts hadd hconcat =>
    subst hadd
    exact contains_concatType? hl hr hv hw hconcat
  | order hord =>
    have hbin : Value.binary op v w = .boolean ((v.compare? w).elim false op.holdsOf) := by
      rcases hord with rfl | rfl | rfl | rfl <;> rfl
    rw [hbin]
    split
    next o ho =>
      rw [compare?_eq hv hw ho]
      exact contains_ofBool _
    next => exact ⟨_, rfl⟩
  | equality heq =>
    rw [hop] at heq
    cases heq

/-! ### Results -/

/-- The value is of the type; where no union was opened, it is the very literal of a singleton. -/
structure Follows (united : Prop) (t : Ty) (v : Value) : Prop where
  contains : t.Contains Literal.Alike v
  exact_of_single : ¬ united → ∀ l, t.literal? = some l → v = .ofLiteral l

theorem Follows.of_exact {united : Prop} (ht : t.WellFormed) (hv : t.Contains Eq v) :
    Follows united t v :=
  ⟨ht.contains_alike hv, fun _ _ hl => eq_ofLiteral hv hl⟩

/-- Operands that are not unions have a result of the very type. -/
theorem contains_binaryType_single {op : BinaryOp} (hop : op.isEquality = false)
    (hl : left.WellFormed) (hr : right.WellFormed) (hsl : Single left) (hsr : Single right)
    (hv : left.Contains Eq v) (hw : right.Contains Eq w) (h : binaryType op left right = .ok t) :
    t.Contains Eq (Value.binary op v w) := by
  have hdist := distribute?_of_binaryType h
  rw [distribute?_single hsl hsr] at hdist
  exact contains_binaryArm? hop hl hr hv hw hdist

/-- The result of an operator other than an equality is of the type of the operation. -/
theorem follows_binaryType {op : BinaryOp} (hop : op.isEquality = false) (hl : left.WellFormed)
    (hr : right.WellFormed) (hv : left.Contains Eq v) (hw : right.Contains Eq w)
    (h : binaryType op left right = .ok t) :
    Follows (¬ (Single left ∧ Single right)) t (Value.binary op v w) := by
  constructor
  · refine contains_distribute? Ty.WellFormed (fun _ => Ty.Formed.of_union)
      (fun l r u _ _ => regular_binaryArm?) (fun l r u _ _ hl hr hv hw hu => ?_) hl hr hv hw
      (distribute?_of_binaryType h)
    exact (regular_binaryArm? hu).contains_alike (contains_binaryArm? hop hl hr hv hw hu)
  · intro hs l hlit
    obtain ⟨hsl, hsr⟩ := not_not.1 hs
    exact eq_ofLiteral (contains_binaryType_single hop hl hr hsl hsr hv hw h) hlit

/-! ### One operand -/

theorem eq_some_of_agreed {β : Type} [BEq β] [LawfulBEq β] {answers : List (Option β)} {b : β}
    (h : Ty.agreed answers = some b) : ∀ a ∈ answers, a = some b := by
  unfold Ty.agreed at h
  split at h
  · cases h
  · cases h
  · simp only [Option.ite_none_right_eq_some, List.all_eq_true, beq_iff_eq, Option.some.injEq] at h
    obtain ⟨h, rfl⟩ := h
    simpa using h

theorem truthinessList_eq_map (ts : List Ty) : Ty.truthinessList ts = ts.map Ty.truthiness := by
  induction ts <;> simp [Ty.truthinessList, *]

theorem typeofNames_eq_map (ts : List Ty) : Ty.typeofNames ts = ts.map Ty.typeofName := by
  induction ts <;> simp [Ty.typeofNames, *]

theorem isTruthy_ofLiteral (l : Literal) : (Value.ofLiteral l).isTruthy = l.truthy := by
  cases l <;> rfl

/-- Literals with the same contents have the same truth. -/
theorem truthy_eq_of_same {l m : Literal} (h : l.same m = true) : l.truthy = m.truthy := by
  obtain rfl | ⟨x, y, rfl, rfl, hxy⟩ := Literal.same_iff.1 h
  · rfl
  · -- Numbers with the same contents are the same but for the sign of zero.
    have hyx : Number.same y x = true := (Number.same_comm y x).trans hxy
    have hzero : (x == 0.0) = (y == 0.0) := by
      rw [Bool.eq_iff_iff, Number.beq_iff_same, Number.beq_iff_same]
      refine ⟨fun hx => ⟨Number.same_trans hyx hx.1, Bool.eq_false_iff.2 fun hy => ?_⟩,
        fun hy => ⟨Number.same_trans hxy hy.1, Bool.eq_false_iff.2 fun hx => ?_⟩⟩
      · exact Bool.eq_false_iff.1 hx.2 (Number.isNaN_of_same hyx hy)
      · exact Bool.eq_false_iff.1 hy.2 (Number.isNaN_of_same hxy hx)
    have hnan : x.isNaN = y.isNaN := by
      rw [Bool.eq_iff_iff]
      exact ⟨Number.isNaN_of_same hxy, Number.isNaN_of_same hyx⟩
    rw [Literal.truthy, Literal.truthy, hzero, hnan]

/-- The truth that a type tells is that of its values. -/
theorem isTruthy_of_truthiness (ht : t.WellFormed) (hv : t.Contains Literal.Alike v) {b : Bool}
    (h : t.truthiness = some b) : v.isTruthy = b := by
  induction ht with
  | never => exact hv.elim
  | unknown | boolean | number | string => simp [Ty.truthiness] at h
  | undefined | null =>
    cases hv
    cases h
    rfl
  | literal l =>
    obtain ⟨m, hm, rfl⟩ := hv
    cases h
    exact (isTruthy_ofLiteral m).trans (truthy_eq_of_same hm)
  | tuple | array =>
    obtain ⟨i, vs, rfl, -⟩ := hv
    cases h
    rfl
  | function =>
    obtain ⟨i, body, rfl⟩ := hv
    cases h
    rfl
  | object =>
    obtain ⟨⟨i, entries, rfl⟩, -⟩ := hv
    cases h
    rfl
  | union _ ih =>
    obtain ⟨arm, ha, hav⟩ := Ty.contains_union.1 hv
    rw [Ty.truthiness, truthinessList_eq_map] at h
    exact ih arm ha hav (eq_some_of_agreed h _ (List.mem_map_of_mem ha))

/-- What a type tells of `typeof` is what it says of its values. -/
theorem typeName_of_typeofName (ht : t.WellFormed) (hv : t.Contains Eq v) {kind : String}
    (h : t.typeofName = some kind) : v.typeName = kind := by
  induction ht with
  | never => exact hv.elim
  | unknown => simp [Ty.typeofName] at h
  | undefined | null =>
    cases hv
    cases h
    rfl
  | boolean | number | string =>
    obtain ⟨_, rfl⟩ := hv
    cases h
    rfl
  | literal l =>
    obtain ⟨m, rfl, rfl⟩ := hv
    cases m <;> cases h <;> rfl
  | tuple | array =>
    obtain ⟨i, vs, rfl, -⟩ := hv
    cases h
    rfl
  | function =>
    obtain ⟨i, body, rfl⟩ := hv
    cases h
    rfl
  | object =>
    obtain ⟨⟨i, entries, rfl⟩, -⟩ := hv
    cases h
    rfl
  | union _ ih =>
    obtain ⟨arm, ha, hav⟩ := Ty.contains_union.1 hv
    rw [Ty.typeofName, typeofNames_eq_map] at h
    exact ih arm ha hav (eq_some_of_agreed h _ (List.mem_map_of_mem ha))

theorem contains_signedType {negate : Bool} {x : Float} (hv : t.Contains Eq (.number x)) :
    (signedType negate t).Contains Eq (.number (if negate then -x else x)) := by
  unfold signedType
  split
  next y hy =>
    cases eq_number hv hy
    exact contains_ofNumber _
  next => exact ⟨_, rfl⟩

theorem regular_signedType (negate : Bool) (t : Ty) : (signedType negate t).Regular := by
  unfold signedType
  split
  · exact regular_ofNumber _
  · exact .number

theorem single_unknown : Single .unknown := fun _ h => by cases h

/-- The operators for the sign. -/
theorem follows_signedType {negate : Bool} {x : Float} (ht : t.WellFormed)
    (hv : t.Contains Eq (.number x))
    (h : distribute? (fun arm _ => some (signedType negate arm)) t .unknown = some u) :
    Follows (¬ Single t) u (.number (if negate then -x else x)) := by
  constructor
  · refine contains_distribute? Ty.WellFormed (w := .undefined)
      (fun _ => Ty.Formed.of_union)
      (fun l r u _ _ hu => ?_) (fun l r u _ _ hl _ hv _ hu => ?_) ht .unknown hv trivial h
    · cases hu
      exact regular_signedType _ _
    · cases hu
      exact (regular_signedType _ _).contains_alike (contains_signedType hv)
  · intro hs l hlit
    rw [distribute?_single (not_not.1 hs) single_unknown] at h
    cases h
    exact eq_ofLiteral (contains_signedType hv) hlit

/-- Both signs go by the arms of numbers. -/
theorem unaryType_sign (negate : Bool) (t : Ty) :
    unaryType (if negate then .neg else .plus) t =
      if isGradual t then .ok .number
      else if t.isSubtype .number then
        match distribute? (fun arm _ => some (signedType negate arm)) t .unknown with
        | some t => .ok t
        | none => .error (.typeMismatch .number t)
      else .error (.typeMismatch .number t) := by
  cases negate <;> rfl

/-- The sign of a value of any type is a number, and otherwise goes by the arms of its type. -/
theorem unaryType_sign_cases {negate : Bool}
    (h : unaryType (if negate then .neg else .plus) t = .ok u) :
    u = .number ∨ t.isSubtype .number = true ∧
      distribute? (fun arm _ => some (signedType negate arm)) t .unknown = some u := by
  rw [unaryType_sign] at h
  split at h
  next =>
    cases h
    exact .inl rfl
  next =>
    split at h
    next hsub =>
      split at h
      next hdist =>
        cases h
        exact .inr ⟨hsub, hdist⟩
      next => cases h
    next => cases h

theorem follows_sign (negate : Bool) (ht : t.WellFormed) (hv : t.Contains Eq v)
    (h : unaryType (if negate then .neg else .plus) t = .ok u) :
    Follows (¬ Single t) u (.number (if negate then -v.toNumber else v.toNumber)) := by
  obtain rfl | ⟨hsub, hdist⟩ := unaryType_sign_cases h
  · exact .of_exact .number ⟨_, rfl⟩
  · obtain ⟨x, rfl⟩ := eq_number_of_isSubtype ht hsub hv
    exact follows_signedType ht hv hdist

theorem contains_sign_single (negate : Bool) (ht : t.WellFormed) (hs : Single t)
    (hv : t.Contains Eq v) (h : unaryType (if negate then .neg else .plus) t = .ok u) :
    u.Contains Eq (.number (if negate then -v.toNumber else v.toNumber)) := by
  obtain rfl | ⟨hsub, hdist⟩ := unaryType_sign_cases h
  · exact ⟨_, rfl⟩
  · obtain ⟨x, rfl⟩ := eq_number_of_isSubtype ht hsub hv
    rw [distribute?_single hs single_unknown] at hdist
    cases hdist
    exact contains_signedType hv

theorem regular_unaryType {op : UnaryOp} (h : unaryType op t = .ok u) : u.Regular := by
  have hsign {negate : Bool} (h : unaryType (if negate then .neg else .plus) t = .ok u) :
      u.Regular := by
    obtain rfl | ⟨-, hdist⟩ := unaryType_sign_cases h
    · exact .number
    · refine regular_distribute? (fun _ => True) (fun _ _ _ _ => trivial)
        (fun l _ u _ _ hu => ?_) trivial trivial hdist
      cases hu
      exact regular_signedType negate l
  cases op with
  | not =>
    cases h
    split
    · exact regular_ofBool _
    · exact .boolean
  | typeof =>
    cases h
    split
    · exact regular_ofString _
    · exact .string
  | neg => exact @hsign true h
  | plus => exact @hsign false h

/-- An operand that is not a union has a result of the very type, and so have negation and `typeof`
    of any. -/
theorem contains_unaryType {op : UnaryOp} (ht : t.WellFormed)
    (hs : op = .neg ∨ op = .plus → Single t) (hv : t.Contains Eq v) (h : unaryType op t = .ok u) :
    u.Contains Eq (Value.unary op v) := by
  cases op with
  | not =>
    cases h
    split
    next b hb =>
      rw [Value.unary, isTruthy_of_truthiness ht (ht.contains_alike hv) hb]
      exact contains_ofBool _
    next => exact ⟨_, rfl⟩
  | typeof =>
    cases h
    split
    next kind hk =>
      rw [Value.unary, typeName_of_typeofName ht hv hk]
      exact contains_ofString _
    next => exact ⟨_, rfl⟩
  | neg => exact contains_sign_single true ht (hs (.inl rfl)) hv h
  | plus => exact contains_sign_single false ht (hs (.inr rfl)) hv h

/-- The result of an operator is of the type of the operation. -/
theorem follows_unaryType {op : UnaryOp} (ht : t.WellFormed) (hv : t.Contains Eq v)
    (h : unaryType op t = .ok u) : Follows (¬ Single t) u (Value.unary op v) := by
  cases op with
  | not | typeof =>
    exact .of_exact (regular_unaryType h).wellFormed (contains_unaryType ht (by simp) hv h)
  | neg => exact follows_sign true ht hv h
  | plus => exact follows_sign false ht hv h

/-! ### Members -/

theorem memberTypes_eq_some {name : String} {ts : List Ty} {as : List Access}
    (h : memberTypes name ts = some as) :
    List.Forall₂ (fun t a => memberType t name = .ok a) ts as := by
  induction ts generalizing as with
  | nil =>
    cases h
    exact .nil
  | cons t ts ih =>
    simp only [memberTypes] at h
    split at h
    next a ha =>
      obtain ⟨rest, hrest, rfl⟩ := Option.map_eq_some_iff.1 h
      exact .cons ha (ih hrest)
    next => cases h

theorem formed_plainMember? {optional : Bool} {name : String} {a : Access} (ht : t.Formed optional)
    (h : plainMember? t name = some a) : a.ty.Formed optional := by
  cases ht with
  | unknown =>
    cases h
    exact .unknown
  | string | array =>
    simp only [plainMember?, Option.ite_none_right_eq_some] at h
    obtain ⟨rfl, h⟩ := h
    cases h
    exact .number
  | tuple =>
    simp only [plainMember?, Option.ite_none_right_eq_some] at h
    obtain ⟨rfl, h⟩ := h
    cases h
    exact .literal _
  | literal l =>
    cases l with
    | boolean | number => cases h
    | string s =>
      simp only [Ty.literal, plainMember?, Option.ite_none_right_eq_some] at h
      obtain ⟨-, h⟩ := h
      cases h
      exact .literal _
  | object hreg =>
    obtain ⟨f, hf, rfl⟩ := Option.map_eq_some_iff.1 h
    exact hreg f (List.mem_of_find?_eq_some hf)
  | never | undefined | null | boolean | number | function | union => cases h

/-- A member of a value of a type that is not a union is of the type of the field. -/
theorem contains_plainMember? {name : String} {a : Access} (ht : t.WellFormed)
    (hv : t.Contains Eq v) (h : plainMember? t name = some a) :
    a.ty.Contains Eq (v.member name) := by
  cases ht with
  | unknown =>
    cases h
    trivial
  | string =>
    obtain ⟨s, rfl⟩ := hv
    simp only [plainMember?, Option.ite_none_right_eq_some] at h
    obtain ⟨rfl, h⟩ := h
    cases h
    exact ⟨_, rfl⟩
  | array =>
    obtain ⟨i, vs, rfl, -⟩ := hv
    simp only [plainMember?, Option.ite_none_right_eq_some] at h
    obtain ⟨rfl, h⟩ := h
    cases h
    exact ⟨_, rfl⟩
  | tuple =>
    obtain ⟨i, vs, rfl, hvs⟩ := Ty.contains_tuple.1 hv
    simp only [plainMember?, Option.ite_none_right_eq_some] at h
    obtain ⟨rfl, h⟩ := h
    cases h
    simp only [Value.member, if_true, hvs.length_eq]
    exact contains_ofNumber _
  | literal l =>
    obtain ⟨m, rfl, rfl⟩ := hv
    cases m with
    | boolean | number => cases h
    | string s =>
      simp only [Ty.literal, plainMember?, Option.ite_none_right_eq_some, Bool.and_eq_true,
        beq_iff_eq] at h
      obtain ⟨⟨-, rfl⟩, h⟩ := h
      cases h
      exact contains_ofNumber _
  | object hreg =>
    obtain ⟨-, hfs⟩ := Ty.contains_object.1 hv
    obtain ⟨f, hf, rfl⟩ := Option.map_eq_some_iff.1 h
    obtain rfl : f.name = name := by simpa using List.find?_some hf
    exact hfs f (List.mem_of_find?_eq_some hf)
  | never | undefined | null | boolean | number | function | union => cases h

theorem memberType_single {name : String} {a : Access} (ht : t.WellFormed) (hs : Single t)
    (h : memberType t name = .ok a) : plainMember? t name = some a := by
  cases ht with
  | union => exact (hs _ rfl).elim
  | _ =>
    simp only [memberType, Ty.literal] at h
    split at h <;> cases h
    assumption

theorem memberType_union {arms : List Ty} {name : String} {a : Access}
    (h : memberType (.union arms) name = .ok a) :
    ∃ as, List.Forall₂ (fun t a => memberType t name = .ok a) arms as ∧ a = uniteAccesses as := by
  rw [memberType] at h
  split at h
  next as has =>
    cases h
    exact ⟨as, memberTypes_eq_some has, rfl⟩
  next => cases h

theorem formed_memberType {optional : Bool} {name : String} {a : Access} (ht : t.Formed optional)
    (h : memberType t name = .ok a) : a.ty.Formed optional := by
  induction t, ht using formed_arms_induction generalizing a with
  | single t ht hs => exact formed_plainMember? ht (memberType_single ht.wellFormed hs h)
  | union arms _ ih =>
    obtain ⟨as, has, rfl⟩ := memberType_union h
    refine Ty.formed_unionOf (List.forall_mem_map.2 fun a ha => ?_)
    obtain ⟨t, ht, hta⟩ := exists_left_of_mem has ha
    exact ih t ht hta

/-- What `finds` relates to the arms of a union can be united, in the unions among the arms as well,
    and `own` holds of each single type. -/
inductive Merges (own : Ty → Prop) (finds : Ty → Ty → Prop) : Ty → Prop
  | single {t : Ty} (hs : Single t) (h : own t) : Merges own finds t
  | union {arms : List Ty} (harms : ∀ t ∈ arms, Merges own finds t)
      (h : ∀ us, List.Forall₂ finds arms us → Ty.Mergeable us) : Merges own finds (.union arms)

/-- What is found for regular types can be united if it is regular. -/
theorem merges_of_regular {own : Ty → Prop} {finds : Ty → Ty → Prop} (ht : t.Regular)
    (hown : ∀ t : Ty, t.Regular → own t)
    (hfinds : ∀ t u : Ty, t.Regular → finds t u → u.Regular) : Merges own finds t := by
  induction t, ht using formed_arms_induction with
  | single t ht hs => exact .single hs (hown t ht)
  | union arms hreg ih =>
    refine .union ih fun us hus => Ty.mergeable_of_regular fun u hu => ?_
    obtain ⟨t, hmem, htu⟩ := exists_left_of_mem hus hu
    exact hfinds t u (hreg t hmem) htu

/-- The type of the field `name` of the arms of unions can be united. -/
def MergesMembers (name : String) : Ty → Prop :=
  Merges (fun _ => True) fun t u => ∃ a, memberType t name = .ok a ∧ a.ty = u

theorem mergesMembers_of_regular (name : String) (ht : t.Regular) : MergesMembers name t := by
  refine merges_of_regular ht (fun _ _ => trivial) fun t u ht hu => ?_
  obtain ⟨a, ha, rfl⟩ := hu
  exact formed_memberType ht ha

/-- A member of a value is of the type of the field. -/
theorem follows_memberType {name : String} {a : Access} (ht : t.WellFormed)
    (hm : MergesMembers name t) (hv : t.Contains Eq v) (h : memberType t name = .ok a) :
    Follows (¬ Single t) a.ty (v.member name) := by
  induction hm generalizing a with
  | single hs =>
    have hplain := memberType_single ht hs h
    exact .of_exact (formed_plainMember? ht hplain) (contains_plainMember? ht hv hplain)
  | @union arms harms hmerge ih =>
    refine ⟨?_, fun hs => (hs fun h => h _ rfl).elim⟩
    obtain ⟨as, has, rfl⟩ := memberType_union h
    obtain ⟨t, hmem, htv⟩ := Ty.contains_union.1 hv
    obtain ⟨a, ha, hta⟩ := exists_right_of_mem has hmem
    have hus : List.Forall₂ (fun t u => ∃ a, memberType t name = .ok a ∧ a.ty = u) arms
        (as.map Access.ty) :=
      List.forall₂_map_right_iff.2 (has.imp fun _ a ha => ⟨a, ha, rfl⟩)
    exact (hmerge _ hus).contains_unionOf (List.mem_map_of_mem ha)
      (ih t hmem (ht.of_union t hmem) htv hta).contains

/-! ### Items -/

theorem indexTypes_eq_some {index : Ty} {ts us : List Ty} (h : indexTypes index ts = some us) :
    List.Forall₂ (fun t u => indexType t index = .ok u) ts us := by
  induction ts generalizing us with
  | nil =>
    cases h
    exact .nil
  | cons t ts ih =>
    simp only [indexTypes] at h
    split at h
    next a ha =>
      obtain ⟨rest, hrest, rfl⟩ := Option.map_eq_some_iff.1 h
      exact .cons ha (ih hrest)
    next => cases h

/-- A single type can be united with `undefined`. -/
theorem mergeable_undefined (ht : t.WellFormed) (hs : Single t) : Ty.Mergeable [.undefined, t] := by
  have hparts : ∀ s ∈ Ty.unionParts [.undefined, t], s = .undefined ∨ s = t := fun s hmem => by
    cases t with
    | union arms => exact (hs arms rfl).elim
    | never => exact .inl (by simpa [Ty.unionParts] using hmem)
    | _ => simpa [Ty.unionParts] using hmem
  -- Below `undefined` there is no type with fields.
  have hbelow (h : t.isSubtype .undefined = true) : t.Regular := by
    cases ht with
    | literal l => exact .literal l
    | union => exact (hs _ rfl).elim
    | tuple | array | function | object => simp [Ty.isSubtype, Ty.same] at h
    | _ => constructor
  intro s hmem s' hmem' h
  rw [Ty.isEquivalent, Bool.and_eq_true] at h
  rcases hparts s hmem with rfl | rfl <;> rcases hparts s' hmem' with rfl | rfl
  · exact .inl (Ty.same_refl _)
  · exact .inr ⟨.undefined, hbelow h.2⟩
  · exact .inr ⟨hbelow h.1, .undefined⟩
  · exact .inl (Ty.same_refl _)

theorem contains_orUndefined (hm : Ty.Mergeable [.undefined, t])
    (hv : v = .undefined ∨ t.Contains Literal.Alike v) :
    (Ty.orUndefined t).Contains Literal.Alike v := by
  rcases hv with rfl | hv
  · exact hm.contains_unionOf List.mem_cons_self rfl
  · exact hm.contains_unionOf (by simp) hv

theorem formed_orUndefined {optional : Bool} (ht : t.Formed optional) :
    (Ty.orUndefined t).Formed optional :=
  Ty.formed_unionOf (by simp [ht, Ty.Formed.undefined])

/-- A type that allows `undefined` is not a singleton. -/
theorem literal?_orUndefined (t : Ty) : (Ty.orUndefined t).literal? = none := by
  have hmem : Ty.undefined ∈ (Ty.unionParts [t]).foldl Ty.addArm [.undefined] :=
    Ty.mem_foldl_addArm_of_mem _ List.mem_cons_self
  have heq : Ty.orUndefined t = Ty.ofArms ((Ty.unionParts [t]).foldl Ty.addArm [.undefined]) := rfl
  rw [heq]
  generalize (Ty.unionParts [t]).foldl Ty.addArm [.undefined] = arms at hmem
  match arms with
  | [] => cases hmem
  | [s] =>
    cases List.mem_singleton.1 hmem
    rfl
  | _ :: _ :: _ => rfl

theorem follows_orUndefined (hm : Ty.Mergeable [.undefined, t])
    (hv : v = .undefined ∨ t.Contains Literal.Alike v) : Follows False (Ty.orUndefined t) v :=
  ⟨contains_orUndefined hm hv, fun _ l hl => by simp [literal?_orUndefined] at hl⟩

/-- Reading an array outside gives `undefined`. -/
theorem index_array (i : Identity) (vs : List Value) (x : Float) :
    (Value.array i vs).index (.number x) = .undefined ∨ (Value.array i vs).index (.number x) ∈ vs := by
  simp only [Value.index]
  cases hx : (Number.toWhole? x).bind (vs[·]?) with
  | none => exact .inl rfl
  | some w =>
    obtain ⟨n, -, hn⟩ := Option.bind_eq_some_iff.1 hx
    exact .inr (List.mem_of_getElem? hn)

theorem follows_tupleIndex {items : List Ty} {index : Ty} {i : Nat} {vs : List Value} {x : Float}
    (ht : ∀ t ∈ items, t.WellFormed)
    (hm : number? index = none → Ty.Mergeable items ∧ Ty.Mergeable [.undefined, Ty.unionOf items])
    (hvs : List.Forall₂ (Ty.Contains Eq) items vs) (hw : index.Contains Eq (.number x)) :
    Follows False (tupleIndex items index) ((Value.array i vs).index (.number x)) := by
  unfold tupleIndex
  split
  next y hy =>
    cases eq_number hw hy
    simp only [Value.index]
    cases Number.toWhole? x with
    | none => exact .of_exact .undefined rfl
    | some n =>
      simp only [Option.bind_some]
      cases hn : items[n]? with
      | none =>
        have : vs[n]? = none := by
          rw [List.getElem?_eq_none_iff, ← hvs.length_eq]
          exact List.getElem?_eq_none_iff.1 hn
        rw [this]
        exact .of_exact .undefined rfl
      | some t =>
        obtain ⟨w, hw, htw⟩ := getElem?_of_forall₂ hvs hn
        rw [hw]
        exact .of_exact (ht t (List.mem_of_getElem? hn)) htw
  next hi =>
    obtain ⟨hitems, hundefined⟩ := hm hi
    refine follows_orUndefined hundefined ((index_array i vs x).imp_right fun hmem => ?_)
    obtain ⟨t, hmem, htv⟩ := exists_left_of_mem hvs hmem
    exact hitems.contains_unionOf hmem ((ht t hmem).contains_alike htv)

/-- A character of a text is a text. -/
theorem index_string (s : String) (x : Float) :
    (Value.string s).index (.number x) = .undefined ∨
      ∃ c, (Value.string s).index (.number x) = .string c := by
  simp only [Value.index]
  cases (Number.toWhole? x).bind (s.toList[·]?) with
  | none => exact .inl rfl
  | some c => exact .inr ⟨_, rfl⟩

theorem follows_stringIndex {index : Ty} {s : String} (hi : index.WellFormed)
    (hw : index.Contains Eq w) (h : (if t.isSubtype .string && index.isSubtype .number then .ok (Ty.orUndefined .string)
      else .error (badIndex t index)) = Except.ok u) : Follows False u ((Value.string s).index w) := by
  split at h
  next hsub =>
    obtain ⟨x, rfl⟩ := eq_number_of_isSubtype hi (Bool.and_eq_true_iff.1 hsub).2 hw
    cases h
    exact follows_orUndefined (mergeable_undefined .string nofun) (index_string s x)
  next => cases h

theorem formed_tupleIndex {optional : Bool} {items : List Ty} (index : Ty)
    (ht : ∀ t ∈ items, t.Formed optional) : (tupleIndex items index).Formed optional := by
  unfold tupleIndex
  split
  · split
    next n _ =>
      cases hn : items[n]? with
      | none => exact .undefined
      | some t => exact ht t (List.mem_of_getElem? hn)
    next => exact .undefined
  · exact formed_orUndefined (Ty.formed_unionOf ht)

theorem formed_plainIndex {optional : Bool} {index : Ty} (ht : t.Formed optional)
    (h : plainIndex t index = .ok u) : u.Formed optional := by
  unfold plainIndex at h
  split at h
  · cases h
    exact ht
  · cases h
    exact ht
  · split at h
    · cases h
      exact .unknown
    split at h
    · split at h <;> cases h
      exact formed_tupleIndex index ht.of_tuple
    · split at h <;> cases h
      exact formed_orUndefined ht.of_array
    · split at h <;> cases h
      exact formed_orUndefined .string
    · split at h <;> cases h
      exact formed_orUndefined .string
    · split at h
      · rename_i name _
        cases hm : memberType _ name with
        | error e => rw [hm] at h; cases h
        | ok a =>
          rw [hm] at h
          cases h
          exact formed_memberType ht hm
      · cases h
    · cases ht
    · cases h

/-- The items of an array, or of a tuple at an index that is not a known number, can be united with
    each other and with `undefined`. -/
structure MergesOwnItems (index t : Ty) : Prop where
  array : ∀ item, t = .array item → Ty.Mergeable [.undefined, item]
  tuple : ∀ items, t = .tuple items → number? index = none →
    Ty.Mergeable items ∧ Ty.Mergeable [.undefined, Ty.unionOf items]

/-- An item of a value whose type is not a union is of the type of the index. -/
theorem follows_plainIndex {index : Ty} (ht : t.WellFormed)
    (hm : MergesOwnItems index t) (hi : index.WellFormed) (hs : Single t)
    (hv : t.Contains Eq v) (hw : index.Contains Eq w) (h : plainIndex t index = .ok u) :
    Follows False u (v.index w) := by
  cases ht with
  | union => exact (hs _ rfl).elim
  | unknown =>
    cases h
    exact .of_exact .unknown trivial
  | never => exact hv.elim
  | undefined | null | boolean | number | function =>
    simp only [plainIndex] at h
    split at h <;> cases h
    exact .of_exact .unknown trivial
  | tuple hitems =>
    obtain ⟨i, vs, rfl, hvs⟩ := Ty.contains_tuple.1 hv
    simp only [plainIndex] at h
    split at h
    · cases h
      exact .of_exact .unknown trivial
    split at h
    next hsub =>
      obtain ⟨x, rfl⟩ := eq_number_of_isSubtype hi hsub hw
      cases h
      exact follows_tupleIndex hitems (hm.tuple _ rfl) hvs hw
    next => cases h
  | array hitem =>
    obtain ⟨i, vs, rfl, hvs⟩ := hv
    simp only [plainIndex] at h
    split at h
    · cases h
      exact .of_exact .unknown trivial
    split at h
    next hsub =>
      obtain ⟨x, rfl⟩ := eq_number_of_isSubtype hi hsub hw
      cases h
      exact follows_orUndefined (hm.array _ rfl)
        ((index_array i vs x).imp_right fun hmem => hitem.contains_alike (hvs _ hmem))
    next => cases h
  | string =>
    obtain ⟨s, rfl⟩ := hv
    simp only [plainIndex] at h
    split at h
    · cases h
      exact .of_exact .unknown trivial
    exact follows_stringIndex hi hw h
  | literal l =>
    obtain ⟨m, rfl, rfl⟩ := hv
    simp only [plainIndex, Ty.literal] at h
    split at h
    · cases h
      exact .of_exact .unknown trivial
    cases m with
    | boolean | number => cases h
    | string s => exact follows_stringIndex hi hw h
  | @object fields hfields hu =>
    simp only [plainIndex] at h
    split at h
    · cases h
      exact .of_exact .unknown trivial
    split at h
    -- The index can only be this string, and such an item of an object is its member.
    next name hname =>
      cases eq_ofLiteral hw hname
      cases hmember : memberType (.object fields) name with
      | error e => rw [hmember] at h; cases h
      | ok a =>
        rw [hmember] at h
        cases h
        have hplain := memberType_single (.object hfields hu) (fun _ heq => by cases heq) hmember
        have hindex : v.index (.string name) = v.member name := by
          obtain ⟨⟨i, entries, rfl⟩, -⟩ := Ty.contains_object.1 hv
          rfl
        show Follows False a.ty (v.index (.string name))
        rw [hindex]
        exact .of_exact (formed_plainMember? (.object hfields hu) hplain)
          (contains_plainMember? (.object hfields hu) hv hplain)
    next => cases h

theorem indexType_single {index : Ty} (ht : t.WellFormed) (hs : Single t) :
    indexType t index = plainIndex t index := by
  cases ht with
  | union => exact (hs _ rfl).elim
  | _ => simp [indexType, Ty.literal]

theorem indexType_union {arms : List Ty} {index : Ty} (h : indexType (.union arms) index = .ok u) :
    u = .unknown ∨ ∃ us, List.Forall₂ (fun t u => indexType t index = .ok u) arms us ∧
      u = Ty.unionOf us := by
  rw [indexType] at h
  split at h
  next =>
    cases h
    exact .inl rfl
  next =>
    split at h
    next us hus =>
      cases h
      exact .inr ⟨us, indexTypes_eq_some hus, rfl⟩
    next => cases h

theorem formed_indexType {optional : Bool} {index : Ty} (ht : t.Formed optional)
    (h : indexType t index = .ok u) : u.Formed optional := by
  induction t, ht using formed_arms_induction generalizing u with
  | single t ht hs =>
    rw [indexType_single ht.wellFormed hs] at h
    exact formed_plainIndex ht h
  | union arms _ ih =>
    rcases indexType_union h with rfl | ⟨us, hus, rfl⟩
    · exact .unknown
    · refine Ty.formed_unionOf fun u hu => ?_
      obtain ⟨t, ht, htu⟩ := exists_left_of_mem hus hu
      exact ih t ht htu

/-- The types of the items at an index of the arms of unions can be united, and so can those that
    each arm has. -/
def MergesItems (index : Ty) : Ty → Prop :=
  Merges (MergesOwnItems index) fun t u => indexType t index = .ok u

theorem mergesItems_of_regular (index : Ty) (ht : t.Regular) : MergesItems index t := by
  refine merges_of_regular ht (fun t ht => ⟨?_, ?_⟩) fun t u ht hu => formed_indexType ht hu
  · rintro item rfl
    exact Ty.mergeable_of_regular (by simp [ht.of_array, Ty.Formed.undefined])
  · rintro items rfl -
    have hitems := ht.of_tuple
    exact ⟨Ty.mergeable_of_regular hitems,
      Ty.mergeable_of_regular (by simp [Ty.formed_unionOf hitems, Ty.Formed.undefined])⟩

/-- An item of a value is of the type of the index. -/
theorem follows_indexType {index : Ty} (ht : t.WellFormed) (hm : MergesItems index t)
    (hi : index.WellFormed) (hv : t.Contains Eq v) (hw : index.Contains Eq w)
    (h : indexType t index = .ok u) : Follows (¬ Single t) u (v.index w) := by
  induction hm generalizing u with
  | single hs hown =>
    rw [indexType_single ht hs] at h
    have hf := follows_plainIndex ht hown hi hs hv hw h
    exact ⟨hf.contains, fun _ => hf.exact_of_single id⟩
  | @union arms harms hmerge ih =>
    refine ⟨?_, fun hs => (hs fun h => h _ rfl).elim⟩
    rcases indexType_union h with rfl | ⟨us, hus, rfl⟩
    · trivial
    · obtain ⟨t, hmem, htv⟩ := Ty.contains_union.1 hv
      obtain ⟨u, hu, htu⟩ := exists_right_of_mem hus hmem
      exact (hmerge us hus).contains_unionOf hu (ih t hmem (ht.of_union t hmem) htv htu).contains

/-! ### All operators -/

/-- Operators, members and items give values of the types that the checker finds for them. -/
theorem operators_sound :
    (∀ {op : BinaryOp} {left right t : Ty} {v w : Value}, op.isEquality = false →
      left.WellFormed → right.WellFormed → left.Contains Eq v → right.Contains Eq w →
      binaryType op left right = .ok t →
      Follows (¬ (Single left ∧ Single right)) t (Value.binary op v w)) ∧
    (∀ {op : UnaryOp} {t u : Ty} {v : Value}, t.WellFormed → t.Contains Eq v →
      unaryType op t = .ok u → Follows (¬ Single t) u (Value.unary op v)) ∧
    (∀ {t : Ty} {name : String} {a : Access} {v : Value}, t.WellFormed →
      MergesMembers name t → t.Contains Eq v → memberType t name = .ok a →
      Follows (¬ Single t) a.ty (v.member name)) ∧
    (∀ {t index u : Ty} {v w : Value}, t.WellFormed → MergesItems index t →
      index.WellFormed → t.Contains Eq v → index.Contains Eq w → indexType t index = .ok u →
      Follows (¬ Single t) u (v.index w)) :=
  ⟨follows_binaryType, follows_unaryType, follows_memberType, follows_indexType⟩

/-- Pairs of a number and the text `b`. -/
def pairType : Ty := .tuple [.number, Ty.ofString "b"]

/-- The pair `[2, "b"]`. -/
def pair : Value := .array 0 [.number 2, .string "b"]

/-- An object with an optional number. -/
def optionalField : Ty := .object [⟨"c", .union [.undefined, .number]⟩]

/-- Objects with the tag `a`, that may have a number, and objects with the tag `b`. -/
def tagged : Ty :=
  .union [.object [⟨"tag", Ty.ofString "a"⟩, ⟨"v", .union [.undefined, .number]⟩],
    .object [⟨"tag", Ty.ofString "b"⟩]]

/-- What the operators make of the pair, of a tag, and of objects that may lack a field. -/
theorem operators_sound_pair :
    (binaryType .add (Ty.ofString "b") .number = .ok .string ∧
      Follows (¬ (Single (Ty.ofString "b") ∧ Single .number)) .string
        (Value.binary .add (.string "b") (.number 2))) ∧
    (unaryType .typeof pairType = .ok (Ty.ofString "object") ∧
      Follows (¬ Single pairType) (Ty.ofString "object") (Value.unary .typeof pair)) ∧
    (memberType pairType "length" = .ok { ty := Ty.ofNumber 2 } ∧
      Follows (¬ Single pairType) (Ty.ofNumber 2) (pair.member "length")) ∧
    (indexType pairType (Ty.ofNumber 1) = .ok (Ty.ofString "b") ∧
      Follows (¬ Single pairType) (Ty.ofString "b") (pair.index (.number 1))) ∧
    (memberType tagged "tag" = .ok { ty := .union [Ty.ofString "a", Ty.ofString "b"] } ∧
      Follows (¬ Single tagged) (.union [Ty.ofString "a", Ty.ofString "b"])
        ((Value.object 0 [("tag", .string "b")]).member "tag")) ∧
    (indexType (.array optionalField) .number = .ok (.union [.undefined, optionalField]) ∧
      Follows (¬ Single (.array optionalField)) (.union [.undefined, optionalField])
        ((Value.array 0 [.object 1 []]).index (.number 0))) := by
  have hreg : pairType.Regular := .tuple (by simp [Ty.Formed.number, regular_ofString])
  have hpairType := hreg.wellFormed
  have hpair : pairType.Contains Eq pair :=
    Ty.contains_tuple.2 ⟨0, _, rfl, .cons ⟨2, rfl⟩ (.cons (contains_ofString "b") .nil)⟩
  have hadd : binaryType .add (Ty.ofString "b") .number = .ok .string := by
    simp [binaryType, distribute?, binaryArm?, isGradual, bothBelow, Ty.isSubtype, Ty.ofString,
      Ty.literal, Ty.baseOf, Ty.same, concatType?, concatText?, Ty.literal?]
  have htypeof : unaryType .typeof pairType = .ok (Ty.ofString "object") := by
    simp [unaryType, pairType, Ty.typeofName]
  have hlength : memberType pairType "length" = .ok { ty := Ty.ofNumber 2 } := by
    have htwo : Float.ofNat 2 = 2 := by decide +kernel
    simp [memberType, pairType, plainMember?, htwo]
  have hindex : indexType pairType (Ty.ofNumber 1) = .ok (Ty.ofString "b") := by
    have hwhole : Number.toWhole? 1 = some 1 := by decide +kernel
    simp [indexType, pairType, plainIndex, isGradual, Ty.isSubtype, Ty.ofNumber, Ty.literal,
      Ty.baseOf, Ty.same, tupleIndex, number?, Ty.literal?, hwhole]
  have htag : memberType tagged "tag" =
      .ok { ty := .union [Ty.ofString "a", Ty.ofString "b"] } := by
    simp [tagged, memberType, memberTypes, plainMember?, uniteAccesses, Ty.unionOf, Ty.unionParts,
      Ty.addArm, Ty.ofArms, Ty.isEquivalent, Ty.isSubtype, Ty.same, Ty.ofString, Ty.literal,
      Ty.baseOf, Literal.same]
  have hitem : indexType (.array optionalField) .number =
      .ok (.union [.undefined, optionalField]) := by
    simp [optionalField, indexType, plainIndex, isGradual, Ty.orUndefined, Ty.unionOf,
      Ty.unionParts, Ty.addArm, Ty.ofArms, Ty.isEquivalent, Ty.isSubtype, Ty.same]
  have hobject {fields : List (Field Ty)} (h : ∀ f ∈ fields, f.ty.WellFormed) :
      (Ty.object fields).WellFormed := .object h fun h => by cases h
  have hoptional : optionalField.WellFormed :=
    hobject (by simp [Ty.Formed.union, Ty.Formed.undefined, Ty.Formed.number])
  have htagged : tagged.WellFormed := by
    refine .union (List.forall_mem_cons.2 ⟨hobject ?_, List.forall_mem_singleton.2 (hobject ?_)⟩)
    · simp [Ty.Formed.union, Ty.Formed.undefined, Ty.Formed.number,
        (regular_ofString _).wellFormed]
    · simp [(regular_ofString _).wellFormed]
  have hsingle (fields : List (Field Ty)) : Single (.object fields) := fun _ h => by cases h
  -- Only the tags are united, and none of them has fields.
  have hmembers : MergesMembers "tag" tagged := by
    refine .union (List.forall_mem_cons.2 ⟨.single (hsingle _) trivial,
      List.forall_mem_singleton.2 (.single (hsingle _) trivial)⟩) fun us hus => ?_
    obtain ⟨a, as, ha, has, rfl⟩ := List.forall₂_cons_left_iff.1 hus
    obtain ⟨b, bs, hb, hbs, rfl⟩ := List.forall₂_cons_left_iff.1 has
    obtain rfl := List.forall₂_nil_left_iff.1 hbs
    obtain ⟨_, ha, rfl⟩ := ha
    obtain ⟨_, hb, rfl⟩ := hb
    cases ha
    cases hb
    exact Ty.mergeable_of_regular (by simp [regular_ofString])
  have hitems : MergesItems .number (.array optionalField) := by
    refine .single (fun _ h => by cases h) ⟨fun item h => ?_, fun _ h => by cases h⟩
    cases h
    exact mergeable_undefined hoptional (hsingle _)
  have hb : tagged.Contains Eq (.object 0 [("tag", .string "b")]) :=
    Ty.contains_union.2 ⟨_, List.mem_cons_of_mem _ List.mem_cons_self,
      Ty.contains_object.2 ⟨⟨_, _, rfl⟩, List.forall_mem_singleton.2 (contains_ofString "b")⟩⟩
  have hlacks : (Ty.array optionalField).Contains Eq (.array 0 [.object 1 []]) :=
    ⟨_, _, rfl, List.forall_mem_singleton.2 (Ty.contains_object.2 ⟨⟨_, _, rfl⟩,
      List.forall_mem_singleton.2 (Ty.contains_union.2 ⟨_, List.mem_cons_self, rfl⟩)⟩)⟩
  exact ⟨⟨hadd, operators_sound.1 rfl (.literal _) .number (contains_ofString _) ⟨2, rfl⟩
      hadd⟩,
    ⟨htypeof, operators_sound.2.1 hpairType hpair htypeof⟩,
    ⟨hlength, operators_sound.2.2.1 hpairType (mergesMembers_of_regular _ hreg) hpair hlength⟩,
    ⟨hindex, operators_sound.2.2.2 hpairType (mergesItems_of_regular _ hreg) (.literal _) hpair
      (contains_ofNumber _) hindex⟩,
    ⟨htag, operators_sound.2.2.1 htagged hmembers hb htag⟩,
    ⟨hitem, operators_sound.2.2.2 (.array hoptional) hitems .number hlacks ⟨0, rfl⟩ hitem⟩⟩

/-- Either such an object or any object under the field `f`. -/
def mixedFields : Ty := .union [.object [⟨"f", optionalField⟩], .object [⟨"f", .object []⟩]]

/-- The object `{ c: "x" }` under the field `f`. -/
def textField : Value := .object 1 [("f", .object 0 [("c", .string "x")])]

/-- Where results are united, a type that may lack a field stands for all objects, and each of the
    two zeros for the other. -/
theorem united_loosely :
    (memberType mixedFields "f" = .ok { ty := optionalField } ∧ mixedFields.Contains Eq textField ∧
      ¬ optionalField.Contains Eq (textField.member "f")) ∧
    binaryType .mul (.union [Ty.ofNumber 1, Ty.ofNumber (-1)]) (Ty.ofNumber 0) =
        .ok (Ty.ofNumber 0) ∧
      Ty.Contains Eq (.union [Ty.ofNumber 1, Ty.ofNumber (-1)]) (.number (-1)) ∧
      ¬ (Ty.ofNumber 0).Contains Eq (Value.binary .mul (.number (-1)) (.number 0)) := by
  have hsame : Number.same 0 (-1 * 0) = true ∧ Number.same (-1 * 0) 0 = true := by decide +kernel
  have hone : (1 * 0 : Float) = 0 := by decide +kernel
  have hzero : (-1 * 0 : Float) ≠ 0 := by decide +kernel
  refine ⟨⟨?_, ?_, ?_⟩, ?_, ?_, ?_⟩
  · simp [mixedFields, memberType, memberTypes, plainMember?, uniteAccesses, Ty.unionOf,
      Ty.unionParts, Ty.addArm, Ty.ofArms, optionalField, Ty.isEquivalent, Ty.isSubtype, Ty.same,
      Ty.sameFields]
  · simp [mixedFields, textField, Ty.contains_union, Ty.contains_object, Value.member]
  · simp [optionalField, textField, Ty.contains_object, Ty.Contains, Ty.ContainsSome,
      Value.member]
  · simp [binaryType, distribute?, Ty.ofNumber, Ty.literal, Ty.baseOf, binaryArm?, isGradual,
      bothBelow, Ty.isSubtype, Ty.same, arithmetic?, foldNumber, number?, Ty.literal?, Ty.unionOf,
      Ty.unionParts, Ty.addArm, Ty.ofArms, Ty.isEquivalent, Literal.same, hsame, hone]
  · exact Ty.contains_union.2 ⟨_, by simp, contains_ofNumber _⟩
  · rintro ⟨l, rfl, h⟩
    simp [Value.binary, Value.toNumber, Value.ofLiteral, hzero] at h

end ReactiveDoc.Check
