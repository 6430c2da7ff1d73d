import ReactiveDoc.Proofs.Ty.Narrowing

namespace ReactiveDoc.Ty

/-!
# Widening

* `normal_widen` — types in normal form are widened to types in normal form.
* `widen_widen` — what has been widened is not widened further.
* `Rising` — types that widening makes wider at every depth: the keys of maps, against which maps
  vary, are wide already, and arms of a union that come together are firm.
* `isSubtype_widen` — such a type is part of what it is widened to.
-/

variable {t : Ty}

theorem widenList_eq_map (ts : List Ty) : widenList ts = ts.map widen := by
  induction ts with
  | nil => rfl
  | cons t ts ih => rw [widenList, ih, List.map_cons]

/-- A field with its type widened. -/
def widenField (f : Field Ty) : Field Ty := ⟨f.name, f.ty.widen⟩

theorem widenFields_eq_map (fs : List (Field Ty)) : widenFields fs = fs.map widenField := by
  induction fs with
  | nil => rfl
  | cons f fs ih => rw [widenFields, ih, List.map_cons, widenField]

@[simp]
theorem widen_undefined : widen undefined = undefined := rfl

@[simp]
theorem widen_number : widen number = number := rfl

@[simp]
theorem widen_string : widen string = string := rfl

@[simp]
theorem widen_literal (l : Literal) : (literal l).widen = baseOf l := rfl

@[simp]
theorem widen_tuple (items : List Ty) : (tuple items).widen = tuple (items.map widen) := by
  rw [widen, widenList_eq_map]

@[simp]
theorem widen_array (item : Ty) : (array item).widen = array item.widen := rfl

@[simp]
theorem widen_set (item : Ty) : (set item).widen = set item.widen := rfl

@[simp]
theorem widen_map (key value : Ty) : (map key value).widen = map key.widen value.widen := rfl

@[simp]
theorem widen_object (fields : List (Field Ty)) :
    (object fields).widen = object (fields.map widenField) := by
  rw [widen, widenFields_eq_map]

@[simp]
theorem widen_union (arms : List Ty) : (union arms).widen = unionOf (arms.map widen) := by
  rw [widen, widenList_eq_map]

@[simp]
theorem widen_baseOf (l : Literal) : (baseOf l).widen = baseOf l := by
  cases l <;> rfl

/-! ### Normal form -/

theorem normal_baseOf (l : Literal) : Normal (baseOf l) := by
  cases l <;> constructor

/-- Types in normal form are widened to types in normal form. -/
theorem normal_widen (h : Normal t) : Normal t.widen := by
  induction h with
  | literal l => exact normal_baseOf l
  | tuple _ ih => simpa using Normal.tuple (List.forall_mem_map.2 ih)
  | array _ ih => exact .array ih
  | set _ ih => exact .set ih
  | map _ _ ihk ihv => exact .map ihk ihv
  | @object fields _ hn ih =>
    rw [widen_object]
    refine .object (List.forall_mem_map.2 ih) ?_
    simpa [Function.comp_def, widenField] using hn
  | union _ _ _ _ ih => simpa using normal_unionOf (List.forall_mem_map.2 ih)
  | labelled h => exact .labelled h
  | function hp hr => exact .function hp hr
  | module h hn => exact .module h hn
  | intersection h hm hl hd => exact .intersection h hm hl hd
  | complement h => exact .complement h
  | error cause => exact .error cause
  | _ => constructor

/-- An arm of a union is widened to an arm of a union. -/
theorem unionArm_widen (hn : Normal t) (h : UnionArm t) : UnionArm t.widen := by
  cases hn with
  | never | union => exact h.elim
  | literal l => cases l <;> trivial
  | tuple | object => simp [UnionArm]
  | _ => trivial

/-! ### Widening twice -/

theorem foldl_addArm_eq_append {kept ts : List Ty} (h : (kept ++ ts).Pairwise Distinct) :
    ts.foldl addArm kept = kept ++ ts := by
  induction ts generalizing kept with
  | nil => simp
  | cons t ts ih =>
    have hnew : ∀ s ∈ kept, isEquivalent s t = false := fun s hs =>
      (List.pairwise_append.1 h).2.2 s hs t List.mem_cons_self
    have hadd : addArm kept t = kept ++ [t] := by
      rw [addArm, if_neg]
      simpa using hnew
    rw [List.foldl_cons, hadd, ih (by simpa using h)]
    simp

theorem unionParts_eq_self {ts : List Ty} (h : ∀ t ∈ ts, UnionArm t) : unionParts ts = ts := by
  fun_induction unionParts ts with
  | case1 => rfl
  | case2 | case3 => exact (h _ List.mem_cons_self).elim
  | case4 t ts _ _ ih => rw [ih fun u hu => h u (List.mem_cons_of_mem _ hu)]

/-- The union of the arms of a union is that union. -/
theorem unionOf_eq_ofArms {arms : List Ty} (h : ∀ t ∈ arms, UnionArm t)
    (hd : arms.Pairwise Distinct) : unionOf arms = ofArms arms := by
  rw [unionOf, unionParts_eq_self h, foldl_addArm_eq_append (by simpa using hd), List.nil_append]

/-- The arms of a widened union are arms of the union, each of them widened. -/
theorem widen_union_eq {arms : List Ty} (h : Normal (union arms)) :
    (union arms).widen = ofArms ((arms.map widen).foldl addArm []) ∧
      ∀ s ∈ arms.map widen, UnionArm s := by
  have harms : ∀ s ∈ arms.map widen, UnionArm s := List.forall_mem_map.2 fun arm hm =>
    unionArm_widen (h.of_union arm hm).1 (h.of_union arm hm).2
  rw [widen_union, unionOf, unionParts_eq_self harms]
  exact ⟨rfl, harms⟩

/-- What has been widened is not widened further. -/
theorem widen_widen (h : Normal t) : t.widen.widen = t.widen := by
  have hn := h
  induction h with
  | literal l => simp
  | tuple h ih => simpa using fun t ht => ih t ht (h t ht)
  | array h ih => simpa using ih h
  | set h ih => simpa using ih h
  | map hk hv ihk ihv => simpa using ⟨ihk hk, ihv hv⟩
  | object h _ ih => simpa [widenField] using fun f hf => ih f hf (h f hf)
  | @union arms harms _ _ _ ih =>
    obtain ⟨heq, hunion⟩ := widen_union_eq hn
    -- The arms that are kept are wide by induction, and a second union keeps all of them.
    have hdistinct : ((arms.map widen).foldl addArm []).Pairwise Distinct :=
      foldl_addArm_distinct _ List.Pairwise.nil
    have hkept : ∀ s ∈ (arms.map widen).foldl addArm [], UnionArm s ∧ s.widen = s := by
      intro s hs
      have hs := (mem_foldl_addArm hs).resolve_left List.not_mem_nil
      refine ⟨hunion s hs, ?_⟩
      obtain ⟨arm, hm, rfl⟩ := List.mem_map.1 hs
      exact ih arm hm (harms arm hm)
    rcases ofArms_cases ((arms.map widen).foldl addArm []) with ⟨-, hof⟩ | ⟨s, hs, hof⟩ | ⟨-, hof⟩
    · rw [heq, hof]
      rfl
    · rw [heq, hof]
      exact (hkept s (hs ▸ List.mem_singleton_self s)).2
    · have hfixed := List.map_congr_left (g := id) fun s hs => (hkept s hs).2
      rw [heq, hof, widen_union, hfixed, List.map_id,
        unionOf_eq_ofArms (fun s hs => (hkept s hs).1) hdistinct, hof]
  | _ => rfl

/-! ### Firm types -/

/-- A single type is part of a union of several types only if it is part of an arm. -/
theorem exists_isSubtype_of_unionOf {a : Ty} {ts : List Ty} (he : a.isError = false) (hw : Whole a)
    (h : isSubtype a (unionOf ts) = true) : isSubtype a never = true ∨
      ∃ s ∈ unionParts ts, isSubtype a s = true := by
  have hkept : ∀ s ∈ (unionParts ts).foldl addArm [], s ∈ unionParts ts := fun s hs =>
    (mem_foldl_addArm hs).resolve_left List.not_mem_nil
  rw [unionOf] at h
  rcases ofArms_cases ((unionParts ts).foldl addArm []) with ⟨-, heq⟩ | ⟨s, hs, heq⟩ | ⟨-, heq⟩
  · exact .inl (heq ▸ h)
  · exact .inr ⟨s, hkept s (hs ▸ List.mem_singleton_self s), heq ▸ h⟩
  · rw [heq] at h
    obtain ⟨s, hs, hle⟩ := exists_arm he hw h
    exact .inr ⟨s, hkept s hs, hle⟩

/-- A type that has no place for `undefined` has none when it is widened. -/
theorem isSubtype_undefined_of_widen (hf : Firm t) (hn : Normal t)
    (h : isSubtype undefined t.widen = true) : isSubtype undefined t = true := by
  induction hf with
  | literal l => cases l <;> simp [baseOf, isSubtype, same] at h
  | tuple => simp [isSubtype, same] at h
  | array | set | map => simp [isSubtype, same] at h
  | object => simp [isSubtype, same] at h
  | @union arms _ ih =>
    rw [widen_union] at h
    have hunion := (widen_union_eq hn).2
    have hw : Whole undefined := trivial
    rcases exists_isSubtype_of_unionOf rfl hw h with h | ⟨s, hs, h⟩
    · simp [isSubtype, same] at h
    · rw [unionParts_eq_self hunion] at hs
      obtain ⟨arm, hm, rfl⟩ := List.mem_map.1 hs
      exact isSubtype_union_of_mem hm (ih arm hm (hn.of_union arm hm).1 h)
  | _ => exact h

/-- Firm types are widened to firm types. -/
theorem firm_widen (hf : Firm t) (hn : Normal t) : Firm t.widen := by
  induction hf with
  | literal l => exact firm_baseOf l
  | tuple _ ih =>
    cases hn with
    | tuple hn => simpa using FirmIn.tuple (List.forall_mem_map.2 fun t ht => ih t ht (hn t ht))
  | array _ ih =>
    cases hn with
    | array hn => exact .array (ih hn)
  | set _ ih =>
    cases hn with
    | set hn => exact .set (ih hn)
  | map _ _ ihk ihv =>
    cases hn with
    | map hk hv => exact .map (ihk hk) (ihv hv)
  | @object fields hf hu ih =>
    have hfields := hn.of_object.1
    rw [widen_object]
    refine .object (List.forall_mem_map.2 fun f hm => ih f hm (hfields f hm))
      (List.forall_mem_map.2 fun f hm => ?_)
    rw [Bool.eq_false_iff]
    intro h
    cases (hu f hm).symm.trans (isSubtype_undefined_of_widen (hf f hm) (hfields f hm) h)
  | @union arms _ ih =>
    rw [widen_union]
    exact firmIn_unionOf (List.forall_mem_map.2 fun arm hm => ih arm hm (hn.of_union arm hm).1)
  | boolean hb => exact .boolean hb
  | labelled hl h => exact .labelled hl h
  | function hp hr => exact .function hp hr
  | module h hu => exact .module h hu
  | intersection h hw => exact .intersection h hw
  | _ => constructor

/-! ### Upper bound -/

/-- A type that widening makes wider at every depth.  The keys of its maps are as wide as they
    get, and arms of a union whose widened types stand for each other are widened to one type or
    are firm. -/
inductive Rising : Ty → Prop
  | fixed {t : Ty} (h : t.widen = t) : Rising t
  | literal (l : Literal) : Rising (literal l)
  | tuple {items : List Ty} (h : ∀ t ∈ items, Rising t) : Rising (tuple items)
  | array {item : Ty} (h : Rising item) : Rising (array item)
  | set {item : Ty} (h : Rising item) : Rising (set item)
  | map {key value : Ty} (hk : isSubtype key.widen key = true) (hv : Rising value) :
      Rising (map key value)
  | object {fields : List (Field Ty)} (h : ∀ f ∈ fields, Rising f.ty) : Rising (object fields)
  | union {arms : List Ty} (h : ∀ t ∈ arms, Rising t)
      (hw : ∀ s ∈ arms, ∀ t ∈ arms, isEquivalent s.widen t.widen = true →
        s.widen = t.widen ∨ (Firm s ∧ Firm t)) : Rising (union arms)

theorem isSubtypeList_map {ts : List Ty} {step : Ty → Ty}
    (h : ∀ t ∈ ts, isSubtype t (step t) = true) : isSubtypeList ts (ts.map step) = true := by
  induction ts with
  | nil => simp [isSubtypeList]
  | cons t ts ih =>
    rw [List.forall_mem_cons] at h
    rw [List.map_cons, isSubtypeList, h.1, ih h.2, Bool.and_self]

/-- An arm is part of the widened union, if it is part of the arm that it is widened to. -/
theorem isSubtype_widen_union {arms : List Ty} {arm : Ty} (hn : Normal (union arms))
    (hm : arm ∈ arms) (hle : isSubtype arm arm.widen = true)
    (hw : ∀ t ∈ arms, isEquivalent arm.widen t.widen = true →
      arm.widen = t.widen ∨ (Firm arm ∧ Firm t)) :
    isSubtype arm (union arms).widen = true := by
  obtain ⟨k, hk, hequiv⟩ : ∃ k ∈ (arms.map widen).foldl addArm [],
      isEquivalent k arm.widen = true :=
    exists_isEquivalent_foldl_addArm (List.mem_map_of_mem hm)
  rw [(widen_union_eq hn).1]
  refine isSubtype_ofArms hk ?_
  -- The widened arm may have been left out for an equivalent one, which came from another arm.
  obtain ⟨t, ht, rfl⟩ := List.mem_map.1 ((mem_foldl_addArm hk).resolve_left List.not_mem_nil)
  rw [isEquivalent, Bool.and_comm, ← isEquivalent] at hequiv
  rcases hw t ht hequiv with heq | ⟨hfirm, hfirm'⟩
  · exact heq ▸ hle
  · rw [isEquivalent, Bool.and_eq_true] at hequiv
    exact hfirm.trans (firm_widen hfirm (hn.of_union arm hm).1)
      (firm_widen hfirm' (hn.of_union t ht).1) hle hequiv.1

/-- A rising type in normal form is part of what it is widened to. -/
theorem Rising.isSubtype_widen (h : Rising t) (hn : Normal t) : isSubtype t t.widen = true := by
  induction h with
  | fixed h => exact h.symm ▸ isSubtype_refl _
  | literal l => exact isSubtype_literal (isSubtype_refl _)
  | tuple _ ih =>
    cases hn with
    | tuple hn =>
      rw [widen_tuple]
      exact (Core.tuple (isSubtypeList_map fun t ht => ih t ht (hn t ht))).isSubtype
  | array _ ih =>
    cases hn with
    | array hn => exact (Core.array (ih hn)).isSubtype
  | set _ ih =>
    cases hn with
    | set hn => exact (Core.set (ih hn)).isSubtype
  | map hk _ ih =>
    cases hn with
    | map _ hv => exact (Core.map hk (ih hv)).isSubtype
  | object _ ih =>
    obtain ⟨hf, hnames⟩ := hn.of_object
    rw [widen_object, isSubtype_object]
    refine .inr (List.forall_mem_map.2 fun f hm => ?_)
    rw [widenField, field?, find?_name_of_nodup hnames hm]
    exact ih f hm (hf f hm)
  | @union arms _ hw ih =>
    have hall := fun arm hm => isSubtype_widen_union hn hm (ih arm hm (hn.of_union arm hm).1)
      (hw arm hm)
    cases hn with
    | union _ _ hl hd =>
      have hle := ofArms_isSubtype hd hall
      rcases ofArms_cases arms with ⟨rfl, -⟩ | ⟨_, rfl, -⟩ | ⟨-, heq⟩
      · cases hl
      · simp at hl
      · rwa [heq] at hle

/-- Widening a type in normal form twice is widening it once, and a rising type is part of what it
    is widened to. -/
theorem widen_upperBound (hn : Normal t) :
    t.widen.widen = t.widen ∧ (Rising t → isSubtype t t.widen = true) :=
  ⟨widen_widen hn, fun h => h.isSubtype_widen hn⟩

/-- Objects whose `n`, if they have one, is the given number, of the given kind. -/
def numbered (x : Float) (kind : String) : Ty :=
  object [⟨"n", union [undefined, ofNumber x]⟩, ⟨"kind", ofString kind⟩]

/-- Pairs of a number and one of two such objects. -/
def numberedPair : Ty := tuple [ofNumber 1, union [numbered 2 "a", numbered 3 "b"]]

theorem normal_numbered (x : Float) (kind : String) : Normal (numbered x kind) := by
  have hd : Distinct undefined (ofNumber x) := by
    simp [Distinct, isEquivalent, isSubtype, same, ofNumber, literal]
  have hn : Normal (union [undefined, ofNumber x]) :=
    .union (by simpa using ⟨.undefined, .literal _⟩) (by simp [UnionArm, ofNumber, literal])
      (by simp) (by simpa using hd)
  exact .object (by simpa using ⟨hn, .literal _⟩) (by simp)

theorem rising_numbered (x : Float) (kind : String) : Rising (numbered x kind) := by
  have hn : Rising (union [undefined, ofNumber x]) :=
    .union (by simpa using ⟨.fixed rfl, .literal _⟩)
      (by simp [ofNumber, baseOf, isEquivalent, isSubtype, same])
  exact .object (by simpa using ⟨hn, .literal _⟩)

theorem widen_numbered (x : Float) (kind : String) :
    (numbered x kind).widen = object [⟨"n", union [undefined, number]⟩, ⟨"kind", string⟩] := by
  simp [numbered, widenField, ofString, ofNumber, baseOf, unionOf, unionParts, addArm, ofArms,
    isEquivalent, isSubtype, same]

/-- Both objects are widened to one type. -/
theorem widen_upperBound_numbered :
    Normal numberedPair ∧ Rising numberedPair ∧ numberedPair.widen.widen = numberedPair.widen ∧
      isSubtype numberedPair numberedPair.widen = true := by
  have hd : Distinct (numbered 2 "a") (numbered 3 "b") := by
    have hle : isSubtype (numbered 2 "a") (numbered 3 "b") = false := by
      rw [Bool.eq_false_iff, Ne, numbered, numbered, isSubtype_object]
      simp [sameFields, field?, same, isSubtype, ofString, literal, Literal.same]
    rw [Distinct, isEquivalent, hle, Bool.false_and]
  have hunion : Normal (union [numbered 2 "a", numbered 3 "b"]) :=
    .union (by simpa using ⟨normal_numbered _ _, normal_numbered _ _⟩)
      (by simp [UnionArm, numbered]) (by simp) (by simpa using hd)
  have hn : Normal numberedPair := .tuple (by simpa using ⟨.literal _, hunion⟩)
  have hrising : Rising (union [numbered 2 "a", numbered 3 "b"]) :=
    .union (by simpa using ⟨rising_numbered _ _, rising_numbered _ _⟩) (by simp [widen_numbered])
  have hr : Rising numberedPair := .tuple (by simpa using ⟨.literal _, hrising⟩)
  exact ⟨hn, hr, (widen_upperBound hn).1, (widen_upperBound hn).2 hr⟩

/-- A number under the key `k`. -/
def keyed : Ty := map (ofString "k") number

/-- Objects with one of the numbers `x`, and `c` that may be missing. -/
def point (x c : Ty) : Ty := object [⟨"x", x⟩, ⟨"c", union [undefined, c]⟩]

/-- Lists of points with a number. -/
def codedPoints : Ty := array (point number number)

/-- Lists of points with a text, or without anything. -/
def captionedPoints : Ty := array (union [object [⟨"x", ofNumber 2⟩], point (ofNumber 3) string])

theorem normal_point {x c : Ty} (hx : Normal x) (hc : c = number ∨ c = string) :
    Normal (point x c) := by
  have hmaybe : Normal (union [undefined, c]) := by
    rcases hc with rfl | rfl <;>
      exact .union (by simpa using ⟨.undefined, by constructor⟩) (by simp [UnionArm]) (by simp)
        (by simp [Distinct, isEquivalent, isSubtype, same])
  exact .object (by simpa using ⟨hx, hmaybe⟩) (by simp)

theorem widen_point {x c : Ty} (hc : c = number ∨ c = string) :
    (point x c).widen = point x.widen c := by
  rcases hc with rfl | rfl <;>
    simp [point, widenField, unionOf, unionParts, addArm, ofArms, isEquivalent, isSubtype, same]

/-- A point whose `c` may be missing stands for a point without it. -/
theorem isEquivalent_point (x c : Ty) : isEquivalent (object [⟨"x", x⟩]) (point x c) = true := by
  have hmissing : isSubtype undefined (union [undefined, c]) = true :=
    isSubtype_union_of_mem (by simp) (isSubtype_refl undefined)
  simp [point, isEquivalent, isSubtype_object, field?, isSubtype_refl, hmissing]

theorem normal_captionedPoints : Normal captionedPoints := by
  have hne : Number.same 2 3 = false := by decide +kernel
  have hle : isSubtype (object [⟨"x", ofNumber 2⟩]) (point (ofNumber 3) string) = false := by
    rw [Bool.eq_false_iff, Ne, point, isSubtype_object]
    simp [sameFields, field?, same, isSubtype, ofNumber, literal, Literal.same, hne]
  have hplain : Normal (object [⟨"x", ofNumber 2⟩]) := .object (by simpa using .literal _) (by simp)
  refine .array (.union (by simpa using ⟨hplain, normal_point (.literal _) (.inr rfl)⟩)
    (by simp [UnionArm, point]) (by simp) ?_)
  simp [Distinct, isEquivalent, hle]

/-- A text is none of the numbers that the first lists have under `c`. -/
theorem not_isSubtype_captionedPoints : isSubtype captionedPoints codedPoints = false := by
  rw [captionedPoints, codedPoints, isSubtype_array, Bool.eq_false_iff]
  intro h
  have harm := isSubtype_of_unionLeft h (t := point (ofNumber 3) string) (by simp)
  rw [point, point, isSubtype_object] at harm
  simp [sameFields, sameList, field?, same, isSubtype] at harm

theorem widen_captionedPoints : captionedPoints.widen = array (object [⟨"x", number⟩]) := by
  have hunion : unionOf [object [⟨"x", number⟩], point number string] = object [⟨"x", number⟩] := by
    have hequiv := isEquivalent_point number string
    rw [unionOf, unionParts_eq_self (by simp [UnionArm, point])]
    simp [addArm, ofArms, hequiv]
  simp [captionedPoints, widen_point, widenField, ofNumber, baseOf, hunion]

/-- Maps vary against their keys, and of types that stand for each other a union keeps one, which
    its other arms need not be part of. -/
theorem keyed_not_isSubtype_widen :
    (Normal keyed ∧ keyed.widen = map string number ∧ isSubtype keyed keyed.widen = false) ∧
      Normal (union [codedPoints, captionedPoints]) ∧
      (union [codedPoints, captionedPoints]).widen = codedPoints ∧
      isSubtype (union [codedPoints, captionedPoints]) codedPoints = false := by
  have hkeyed : isSubtype keyed (map string number) = false := by
    rw [Bool.eq_false_iff]
    intro h
    cases isSubtype_cases h with
    | same h => simp [keyed, same, ofString, literal] at h
    | map hk => simp [isSubtype, same, ofString, literal] at hk
  have hcoded : Normal codedPoints := .array (normal_point .number (.inl rfl))
  refine ⟨⟨.map (.literal _) .number, rfl, hkeyed⟩, ?_, ?_, ?_⟩
  · refine .union (by simpa using ⟨hcoded, normal_captionedPoints⟩)
      (by simp [UnionArm, codedPoints, captionedPoints]) (by simp) ?_
    simp [Distinct, isEquivalent, not_isSubtype_captionedPoints]
  · have hfixed : codedPoints.widen = codedPoints := by simp [codedPoints, widen_point]
    have hequiv : isEquivalent codedPoints (array (object [⟨"x", number⟩])) = true := by
      simpa [codedPoints, isEquivalent, isSubtype_array, Bool.and_comm] using
        isEquivalent_point number number
    rw [widen_union, unionOf, unionParts_eq_self (by simp [UnionArm, codedPoints, captionedPoints])]
    simp [hfixed, widen_captionedPoints, addArm, ofArms, hequiv]
  · rw [Bool.eq_false_iff]
    intro h
    cases (isSubtype_of_unionLeft h (by simp)).symm.trans not_isSubtype_captionedPoints

end ReactiveDoc.Ty
