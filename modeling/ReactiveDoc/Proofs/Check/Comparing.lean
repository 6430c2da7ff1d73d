import ReactiveDoc.Proofs.Check.Equality
import ReactiveDoc.Proofs.Check.Operating
import ReactiveDoc.Proofs.Check.Permitting
import ReactiveDoc.Proofs.Check.Refining
import ReactiveDoc.Proofs.Ty.Retaining

namespace ReactiveDoc.Ty

/-!
# Equality tests keep values in their types

* `Ty.nest`, `Ty.Along` — knowledge about the end of a chain of fields, and the types whose values
  all have the chain; `Ty.keeps_nest` — narrowing by such knowledge keeps what agrees with it.
* `Tree.Chain`, `Tree.Denotes` — names and chains of fields, and the values of operands.
* `Check.contains_of_equal`, `Check.not_contains_of_unequal` — what a comparison tells of a value.
* `Check.truthful_of_denotes` — the interface that an operand gets has its value.
* `Check.narrow_equality` — narrowing by a comparison keeps the values of all names.
-/

/-! ### Knowledge about places -/

/-- What is known at the end of a chain of fields, as knowledge about where the chain begins. -/
def nest : List String → Ty → Ty
  | [], known => known
  | name :: path, known => object [⟨name, nest path known⟩]

/-- All values of the type have the fields of the chain, one below the other. -/
inductive Along : List String → Ty → Prop
  | here {t} : Along [] t
  | object {name path fields} (hm : ∃ f ∈ fields, f.name = name)
      (h : ∀ f ∈ fields, f.name = name → Along path f.ty) : Along (name :: path) (object fields)
  | union {path arms} (h : ∀ t ∈ arms, Along path t) : Along path (union arms)
  | never {path} : Along path never

variable {path : List String} {a known : Ty} {v : Value}

theorem nest_concat (path : List String) (name : String) (known : Ty) :
    nest (path ++ [name]) known = nest path (object [⟨name, known⟩]) := by
  induction path with
  | nil => rfl
  | cons first path ih => rw [List.cons_append, nest, nest, ih]

theorem narrow_objects (fs gs : List (Field Ty)) :
    narrow (object fs) (object gs) = objectUnlessNever (fs.map (narrowField (object gs))) := by
  rw [narrow]
  refine congrArg objectUnlessNever (List.map_congr_left fun f _ => ?_)
  split
  next g hg => simp only [narrowField, knownField?, hg, Option.map_some]
  next hg => simp only [narrowField, knownField?, hg, Option.map_none]

theorem narrow_union_object (arms : List Ty) (gs : List (Field Ty)) :
    narrow (union arms) (object gs) = unionOf (arms.map fun arm => narrow arm (object gs)) := by
  rw [narrow]
  · simp
  all_goals simp

/-- Narrowing by what is known of a place keeps the values that agree with it, though a field that
    is known may be `undefined`. -/
theorem keeps_nest (ha : Definite a) (hp : Along path a) (hk : Definite known) :
    Keeps false a (nest path known) (narrow a (nest path known)) := by
  induction hp with
  | @here t => exact (narrowed t known).keeps ha hk
  | @object name path fields _ _ ih =>
    rw [nest, narrow_objects]
    refine keeps_fields ha fun f hf t ht => ?_
    simp only [knownField?, List.find?_singleton, Option.map_eq_some_iff] at ht
    obtain ⟨g, hg, rfl⟩ := ht
    split at hg
    next hname =>
      cases hg
      exact ih f hf (beq_iff_eq.1 hname).symm (ha.of_object f hf)
    next => cases hg
  | @union path arms _ ih =>
    cases path with
    | nil => exact (narrowed (union arms) known).keeps ha hk
    | cons name path =>
      rw [nest, narrow_union_object]
      exact keeps_unionLeft fun arm hm => ih arm hm (ha.of_union arm hm)
  | never =>
    rw [narrow]
    exact .refl _ .never

theorem contains_nest (hp : Along path a) (hv : Contains Literal.Alike a v)
    (hk : Contains Literal.Alike known (path.foldl Value.member v)) :
    Contains Literal.Alike (nest path known) v := by
  induction hp generalizing v with
  | here => exact hk
  | object hm _ ih =>
    obtain ⟨ho, hfs⟩ := contains_object.1 hv
    obtain ⟨f, hf, rfl⟩ := hm
    exact contains_object.2 ⟨ho, by simpa using ih f hf rfl (hfs f hf) hk⟩
  | union _ ih =>
    obtain ⟨arm, hm, harm⟩ := contains_union.1 hv
    exact ih arm hm harm hk
  | never => exact hv.elim

/-- Numbers with the same contents have the same types. -/
theorem Described.contains_number_iff {optional : Bool} {x y : Float}
    (ha : Described optional a) (hxy : Number.same x y = true) :
    Contains Literal.Alike a (.number x) ↔ Contains Literal.Alike a (.number y) := by
  induction ha with
  | never | unknown => rfl
  | undefined | null => exact ⟨nofun, nofun⟩
  | number => exact ⟨fun _ => ⟨y, rfl⟩, fun _ => ⟨x, rfl⟩⟩
  | boolean | string => exact ⟨nofun, nofun⟩
  | literal l =>
    have hstep : ∀ {x y : Float}, Number.same x y = true →
        Contains Literal.Alike (Ty.literal l) (.number x) →
          Contains Literal.Alike (Ty.literal l) (.number y) := by
      rintro x y hxy ⟨m, hm, hx⟩
      cases m with
      | number =>
        cases hx
        have hyx : (Literal.number y).same (.number x) = true := (Number.same_comm y x).trans hxy
        exact ⟨.number y, Literal.same_trans hyx hm, rfl⟩
      | _ => cases hx
    exact ⟨hstep hxy, hstep ((Number.same_comm y x).trans hxy)⟩
  | tuple | array | function => exact ⟨nofun, nofun⟩
  | object =>
    refine iff_of_false ?_ ?_ <;>
      rintro ⟨⟨_, _, hv⟩, -⟩ <;> cases hv
  | union _ ih =>
    rw [contains_union, contains_union]
    exact exists_congr fun t => and_congr_right fun ht => ih t ht
  | intersection _ ih =>
    rw [contains_intersection, contains_intersection]
    exact forall₂_congr fun t ht => ih t ht
  | complement _ ih => exact not_congr ih

theorem along_unionOf {ts : List Ty} (h : ∀ t ∈ ts, Along path t) : Along path (unionOf ts) := by
  refine unionOf_of_forall .never (fun _ => .union) (fun arms hu t ht => ?_) h
  cases hu with
  | here => exact .here
  | union harms => exact harms t ht

theorem Described.cell?_eq_none {optional : Bool} (ha : Described optional a) : cell? a = none := by
  cases ha <;> rfl

end ReactiveDoc.Ty

namespace ReactiveDoc.Tree

/-! ### Operands -/

/-- The name itself, or a chain of fields from it. -/
inductive Chain (t : Tree) (name : String) : NodeId → List String → Prop
  | identifier {x : NodeId} (hkind : t.kind x = .ok (.identifier name)) : Chain t name x []
  | member {x object : NodeId} {property : String} {path : List String}
      (hkind : t.kind x = .ok (.member object property)) (hobject : Chain t name object path) :
      Chain t name x (path ++ [property])

/-- The node is a name or a chain of fields from one. -/
def IsChain (t : Tree) (x : NodeId) : Prop := ∃ name path, t.Chain name x path

/-- The value of a name, a chain of fields, a literal or the `typeof` of such. -/
inductive Denotes (t : Tree) (values : ValueEnv) : NodeId → Value → Prop
  | chain {x : NodeId} {name : String} {path : List String} {root : Value}
      (hchain : t.Chain name x path) (hroot : values.get? name = some root) :
      Denotes t values x (path.foldl Value.member root)
  | undefined {x : NodeId} (hkind : t.kind x = .ok .undefined) : Denotes t values x .undefined
  | null {x : NodeId} (hkind : t.kind x = .ok .null) : Denotes t values x .null
  | literal {x : NodeId} {l : Literal} (hkind : t.kind x = .ok (.literal l)) :
      Denotes t values x (.ofLiteral l)
  | typeof {x operand : NodeId} {v : Value} (hkind : t.kind x = .ok (.unary .typeof operand))
      (hoperand : Denotes t values operand v) : Denotes t values x (.string v.typeName)

variable {t : Tree} {values : ValueEnv} {name : String} {x : NodeId} {path : List String}
  {v : Value}

theorem Chain.rootName (h : t.Chain name x path) : t.RootName name x := by
  induction h with
  | identifier hkind => exact .identifier hkind
  | member hkind _ ih => exact .member hkind ih

theorem Chain.unique {name' : String} {path' : List String} (h : t.Chain name x path)
    (h' : t.Chain name' x path') : name = name' ∧ path = path' := by
  induction h generalizing path' with
  | identifier hkind =>
    cases h' with
    | identifier hkind' =>
      cases hkind.symm.trans hkind'
      exact ⟨rfl, rfl⟩
    | member hkind' => cases hkind.symm.trans hkind'
  | member hkind _ ih =>
    cases h' with
    | identifier hkind' => cases hkind.symm.trans hkind'
    | member hkind' hobject' =>
      cases hkind.symm.trans hkind'
      obtain ⟨rfl, rfl⟩ := ih hobject'
      exact ⟨rfl, rfl⟩

theorem Chain.kind (h : t.Chain name x path) :
    (∃ name, t.kind x = .ok (.identifier name)) ∨
      ∃ object property, t.kind x = .ok (.member object property) := by
  cases h with
  | identifier hkind => exact .inl ⟨_, hkind⟩
  | member hkind => exact .inr ⟨_, _, hkind⟩

theorem Chain.denotes (h : t.Chain name x path) (hv : t.Denotes values x v) :
    ∃ root, values.get? name = some root ∧ v = path.foldl Value.member root := by
  cases hv with
  | chain hchain hroot =>
    obtain ⟨rfl, rfl⟩ := h.unique hchain
    exact ⟨_, hroot, rfl⟩
  | undefined hkind | null hkind | literal hkind | typeof hkind =>
    rcases h.kind with ⟨_, hkind'⟩ | ⟨_, _, hkind'⟩ <;> cases hkind.symm.trans hkind'

end ReactiveDoc.Tree

namespace ReactiveDoc.Check

variable {s : Setting} {m : InterfaceMap} {env : TypeEnv} {values : ValueEnv} {x : NodeId}
  {loose : Bool} {v w : Value} {known : Ty} {typing : Typing}

/-! ### Environments -/

/-- Names whose check has not failed stand for values of their types. -/
def Populated (env : TypeEnv) (values : ValueEnv) : Prop :=
  ∀ name typing, env.get? name = some (.ok typing) → Ty.Definite typing.ty ∧
    ∃ v, values.get? name = some v ∧ typing.ty.Contains Literal.Alike v

/-- The types of the names have the fields that the chain asks for. -/
def Fielded (t : Tree) (env : TypeEnv) (x : NodeId) : Prop :=
  ∀ name path typing, t.Chain name x path → env.get? name = some (.ok typing) →
    Ty.Along path typing.ty

theorem Populated.narrowName {name : String} {path : List String} {root : Value}
    (h : Populated env values)
    (hfielded : ∀ typing, env.get? name = some (.ok typing) → Ty.Along path typing.ty)
    (hk : Ty.Definite known) (hroot : values.get? name = some root)
    (hv : known.Contains Literal.Alike (path.foldl Value.member root)) :
    Populated (narrowName env name (Ty.nest path known)) values := by
  unfold Check.narrowName
  split
  next typing htyping =>
    split
    next =>
      intro x t hx
      rw [Env.get?_extend] at hx
      split at hx
      next heq =>
        subst heq
        cases hx
        obtain ⟨hd, v, hget, hcontains⟩ := h _ _ htyping
        cases hget.symm.trans hroot
        have halong := hfielded typing htyping
        have hkeeps := Ty.keeps_nest hd halong hk
        exact ⟨hkeeps.described, _, hroot,
          hkeeps.kept (.inl rfl) hcontains (Ty.contains_nest halong hcontains hv)⟩
      next => exact h x t hx
    next => exact h
  next => exact h

/-- The walk down a place narrows the name at its root by what is known nested in its fields. -/
theorem narrowPlace_chain (h : Synthesized s.tree m x) (env : TypeEnv) (known : Ty) :
    ∃ env', narrowPlace s env x known m = .ok (env', m) ∧
      (env' = env ∨ ∃ name path, s.tree.Chain name x path ∧
        env' = narrowName env name (Ty.nest path known)) := by
  refine h.within (P := fun depth x => ∀ known, ∃ env',
    narrowPlaceWithin s env depth x known m = .ok (env', m) ∧
      (env' = env ∨ ∃ name path, s.tree.Chain name x path ∧
        env' = narrowName env name (Ty.nest path known))) ?_ known
  intro depth x hx ih known
  obtain ⟨kind, hkind⟩ := Tree.exists_kind_of_lt hx.lt_size
  unfold narrowPlaceWithin
  rw [kindOf_bind hkind]
  cases kind with
  | identifier name => exact ⟨_, rfl, .inr ⟨name, [], .identifier hkind, rfl⟩⟩
  | member object property =>
    have hpart : Part s.tree x object :=
      ⟨_, hkind, rfl, List.mem_cons_self, fun _ heq => by cases heq⟩
    obtain ⟨env', hrun, hcases⟩ := ih object hpart (.object [⟨property, known⟩])
    refine ⟨env', hrun, hcases.imp_right ?_⟩
    rintro ⟨name, path, hchain, rfl⟩
    exact ⟨name, _, .member hkind hchain, by rw [Ty.nest_concat]⟩
  | _ => exact ⟨env, rfl, .inl rfl⟩

/-- Narrowing by what is so of the value of a place leaves all names values of their types. -/
theorem narrowPlace_populated (h : Synthesized s.tree m x) (hpop : Populated env values)
    (hv : s.tree.Denotes values x v) (hfielded : Fielded s.tree env x)
    (hknown : s.tree.IsChain x → Ty.Definite known ∧ known.Contains Literal.Alike v) :
    ∃ env', narrowPlace s env x known m = .ok (env', m) ∧ Populated env' values ∧
      ∀ name, ¬ s.tree.RootName name x → env'.get? name = env.get? name := by
  obtain ⟨env', hrun, rfl | ⟨name, path, hchain, rfl⟩⟩ := narrowPlace_chain h env known
  · exact ⟨_, hrun, hpop, fun _ _ => rfl⟩
  · obtain ⟨hd, hcontains⟩ := hknown ⟨name, path, hchain⟩
    obtain ⟨root, hroot, rfl⟩ := hchain.denotes hv
    refine ⟨_, hrun, hpop.narrowName (fun typing => hfielded name path typing hchain) hd hroot
      hcontains, fun other hother => (narrowName_refines env name _).frame other ?_⟩
    rintro rfl
    exact hother hchain.rootName

/-! ### What a comparison tells -/

theorem definite_of_mem_nullish : ∀ t ∈ [Ty.undefined, .null], Ty.Definite t := by
  simp [Ty.Described.undefined, Ty.Described.null]

theorem definite_nullish : Ty.Definite (Ty.unionOf [.undefined, .null]) :=
  Ty.described_unionOf definite_of_mem_nullish

theorem contains_nullish_iff :
    (Ty.unionOf [.undefined, .null]).Contains Literal.Alike v ↔ v = .undefined ∨ v = .null := by
  rw [Ty.contains_unionOf_iff definite_of_mem_nullish (.inl rfl)]
  simp [Ty.Contains]

/-- What an operand is compared with is the type of the other one, or both `undefined` and `null`
    if it is one of them and the comparison is loose. -/
theorem comparisonType_cases (loose : Bool) (typing : Typing) :
    (loose = true ∧ isNullish typing.ty = true ∧
        comparisonType loose (.ok typing) = Ty.unionOf [.undefined, .null]) ∨
      ¬ (loose = true ∧ isNullish typing.ty = true) ∧
        comparisonType loose (.ok typing) = typing.ty := by
  unfold comparisonType
  split
  next h => exact .inl ⟨rfl, by simp [show typing.ty = .undefined from h, isNullish], rfl⟩
  next h => exact .inl ⟨rfl, by simp [show typing.ty = .null from h, isNullish], rfl⟩
  next hu hn =>
    refine .inr ⟨?_, rfl⟩
    rintro ⟨hloose, hnull⟩
    subst hloose
    unfold isNullish at hnull
    split at hnull
    next h => exact hu rfl h
    next h => exact hn rfl h
    next => cases hnull

theorem definite_comparisonType (h : Ty.Definite typing.ty) :
    Ty.Definite (comparisonType loose (.ok typing)) := by
  rcases comparisonType_cases loose typing with ⟨-, -, heq⟩ | ⟨-, heq⟩ <;> rw [heq]
  · exact definite_nullish
  · exact h

theorem nullish_of_contains (hn : isNullish typing.ty = true)
    (hw : typing.ty.Contains Literal.Alike w) : w = .undefined ∨ w = .null := by
  unfold isNullish at hn
  split at hn
  next h => exact .inl (by rwa [h] at hw)
  next h => exact .inr (by rwa [h] at hw)
  next => cases hn

/-- Equal values of one kind are the same, or numbers of the same contents. -/
theorem eq_or_same_of_equal (hk : v.kind = w.kind) (he : equal loose v w = true)
    (hi : v.kind = .object → w.kind = .object → v = w) :
    v = w ∨ ∃ x y, v = .number x ∧ w = .number y ∧ Number.same x y = true := by
  cases v with
  | undefined | null => cases w <;> first | exact .inl rfl | cases hk
  | boolean a =>
    cases w with
    | boolean b =>
      have := toNumber_boolean_beq a b
      left
      cases loose <;> simp_all [equal, Value.strictEquals, Value.same, Value.looseEquals]
    | _ => cases hk
  | number x =>
    cases w with
    | number y =>
      refine .inr ⟨x, y, rfl, rfl, (Number.beq_iff_same.1 ?_).1⟩
      cases loose <;> exact he
    | _ => cases hk
  | string a =>
    cases w with
    | string b =>
      left
      cases loose <;> simp_all [equal, Value.strictEquals, Value.same, Value.looseEquals]
    | _ => cases hk
  | _ => exact .inl (hi rfl hk.symm)

/-- A value that equals the other operand is of its type. -/
theorem contains_of_equal (hd : Ty.Definite typing.ty) (hw : typing.ty.Contains Literal.Alike w)
    (he : equal loose v w = true) (hi : v.kind = .object → w.kind = .object → v = w)
    (hkind : v.kind ≠ w.kind → loose = true ∧ isNullish typing.ty = true) :
    (comparisonType loose (.ok typing)).Contains Literal.Alike v := by
  rcases comparisonType_cases loose typing with ⟨rfl, hn, heq⟩ | ⟨hne, heq⟩ <;> rw [heq]
  · rw [contains_nullish_iff]
    rcases nullish_of_contains hn hw with rfl | rfl <;>
      cases v <;> simp_all [equal, Value.looseEquals]
  · have hsame : v.kind = w.kind := not_imp_comm.1 hkind hne
    rcases eq_or_same_of_equal hsame he hi with rfl | ⟨x, y, rfl, rfl, hxy⟩
    · exact hw
    · exact (hd.contains_number_iff hxy).2 hw

/-- A value that does not equal the only one of a type is not of the type. -/
theorem not_contains_of_unequal (hd : Ty.Definite typing.ty)
    (hw : typing.ty.Contains Literal.Alike w) (he : equal loose v w = false)
    (hn : ∀ x, v = .number x → x.isNaN = false)
    (hunit : isUnit (comparisonType loose (.ok typing)) = true)
    (hone : ∀ arms, typing.ty ≠ .union arms) :
    ¬ (comparisonType loose (.ok typing)).Contains Literal.Alike v := by
  intro hv
  rcases comparisonType_cases loose typing with ⟨rfl, hn, heq⟩ | ⟨-, heq⟩ <;> rw [heq] at hv hunit
  · rw [contains_nullish_iff] at hv
    rcases nullish_of_contains hn hw with rfl | rfl <;> rcases hv with rfl | rfl <;> cases he
  · obtain ⟨ty, dynamic, mutable?⟩ := typing
    cases hd with
    | union => exact hone _ rfl
    | literal l =>
      obtain ⟨a, ha, rfl⟩ := hv
      obtain ⟨b, hb, rfl⟩ := hw
      have hbase : Ty.baseOf a = Ty.baseOf b :=
        (Ty.baseOf_eq_of_same ha).trans (Ty.baseOf_eq_of_same hb).symm
      have hk : (Value.ofLiteral a).kind = (Value.ofLiteral b).kind := by
        cases a <;> cases b <;> first | rfl | cases hbase
      have hm : ¬ Mistaken loose (.ofLiteral a) (.ofLiteral b) := by
        rintro (⟨x, _, hx, -, hnan, -⟩ | ⟨-, -, -, hne, -⟩)
        · cases hnan.symm.trans (hn x hx)
        · exact hne hk
      have hequal := (equal_ofLiteral ha hb hk).2 hm
      rw [he, Literal.same_refl] at hequal
      cases hequal
    | undefined | null =>
      cases hv
      cases hw
      cases loose <;> cases he
    | _ => cases hunit

/-- The type that an answer of `typeof` names has the values that give the answer. -/
theorem contains_ofTypeofName?_iff {kind : String} (h : Ty.ofTypeofName? kind = some known)
    (hobject : kind ≠ "object") :
    Ty.Definite known ∧ (known.Contains Literal.Alike v ↔ v.typeName = kind) := by
  unfold Ty.ofTypeofName? at h
  split_ifs at h with hu hb hn ht
  all_goals cases h
  · exact ⟨.undefined, by cases v <;> simp [Ty.Contains, Value.typeName, hu]⟩
  · exact ⟨.boolean, by cases v <;> simp [Ty.Contains, Value.typeName, hb]⟩
  · exact ⟨.number, by cases v <;> simp [Ty.Contains, Value.typeName, hn]⟩
  · exact ⟨.string, by cases v <;> simp [Ty.Contains, Value.typeName, ht]⟩

/-! ### Comparisons -/

/-- The type `other` of one operand tells its value `w` apart from the value `v` of the other
    operand, if that is to be narrowed.  Equal values are of one kind, or `other` has only what is
    loosely equal to `v`; where they are unequal `other` is no union, and `v` not not-a-number. -/
def Telling (t : Tree) (loose equal : Bool) (x : NodeId) (other : Ty) (v w : Value) : Prop :=
  t.IsChain x →
    (equal = true → v.kind ≠ w.kind → loose = true ∧ isNullish other = true) ∧
      (equal = false → (∀ arms, other ≠ .union arms) ∧ ∀ x, v = .number x → x.isNaN = false)

/-- The interface has failed, or its type says what it is and has the value. -/
def Truthful (i : Interface) (v : Value) : Prop :=
  ∀ typing, i = .ok typing → Ty.Definite typing.ty ∧ typing.ty.Contains Literal.Alike v

theorem narrowSide_populated {i : Interface} {equals : Bool} (h : Synthesized s.tree m x)
    (hpop : Populated env values) (hv : s.tree.Denotes values x v)
    (hfielded : Fielded s.tree env x) (htruthful : Truthful i w)
    (htelling : Telling s.tree loose equals x i.ty v w) (he : equal loose v w = equals)
    (hi : equals = true → v.kind = .object → w.kind = .object → v = w) :
    ∃ env', narrowSide s env x (comparisonType loose i) equals m = .ok (env', m) ∧
      Populated env' values ∧
        ∀ name, ¬ s.tree.RootName name x → env'.get? name = env.get? name := by
  unfold narrowSide
  cases i with
  | error e =>
    refine ⟨env, ?_, hpop, fun _ _ => rfl⟩
    have herror : (comparisonType loose (.error e)).isError = true := by cases loose <;> rfl
    rw [if_pos herror]
    rfl
  | ok typing =>
    obtain ⟨hd, hw⟩ := htruthful typing rfl
    split
    · exact ⟨env, rfl, hpop, fun _ _ => rfl⟩
    cases equals with
    | true =>
      refine narrowPlace_populated h hpop hv hfielded fun hchain => ?_
      exact ⟨definite_comparisonType hd,
        contains_of_equal hd hw he (hi rfl) ((htelling hchain).1 rfl)⟩
    | false =>
      rw [if_neg Bool.false_ne_true]
      split
      next hunit =>
        refine narrowPlace_populated h hpop hv hfielded fun hchain => ?_
        obtain ⟨hone, hnumber⟩ := (htelling hchain).2 rfl
        exact ⟨.complement (definite_comparisonType hd),
          not_contains_of_unequal hd hw he hnumber hunit hone⟩
      next => exact ⟨env, rfl, hpop, fun _ _ => rfl⟩

theorem equal_string (loose : Bool) (a b : String) :
    equal loose (.string a) (.string b) = (a == b) := by
  cases loose <;> rfl

theorem float_beq_comm (x y : Float) : (x == y) = (y == x) := by
  have hstep : ∀ {x y : Float}, (x == y) = true → (y == x) = true := by
    intro x y h
    obtain ⟨hxy, hx⟩ := Number.beq_iff_same.1 h
    have hyx := (Number.same_comm y x).trans hxy
    refine Number.beq_iff_same.2 ⟨hyx, Bool.eq_false_iff.2 fun hy => ?_⟩
    cases (Number.isNaN_of_same hyx hy).symm.trans hx
  exact Bool.eq_iff_iff.2 ⟨hstep, hstep⟩

theorem strictEquals_comm (v w : Value) : v.strictEquals w = w.strictEquals v := by
  cases v <;> cases w <;>
    simp only [Value.strictEquals, Value.same, BEq.comm]

theorem equal_comm (loose : Bool) (v w : Value) : equal loose v w = equal loose w v := by
  cases loose with
  | false => exact strictEquals_comm v w
  | true =>
    cases v <;> cases w <;>
      simp only [equal, if_true, Value.looseEquals, float_beq_comm, strictEquals_comm]

/-! ### Operands as they are checked -/

/-- What `typeof` is known to give for all values of a type is what it gives. -/
theorem typeName_of_typeofName_definite {t : Ty} (ht : Ty.Definite t)
    (hv : t.Contains Literal.Alike v) {kind : String} (h : t.typeofName = some kind) :
    v.typeName = kind := by
  induction ht with
  | never => exact hv.elim
  | unknown | intersection | complement => cases h
  | undefined | null =>
    cases hv
    cases h
    rfl
  | boolean | number | string =>
    obtain ⟨_, rfl⟩ := hv
    cases h
    rfl
  | literal l =>
    obtain ⟨n, hn, rfl⟩ := hv
    have hbase := Ty.baseOf_eq_of_same hn
    cases n <;> cases l <;> first | exact Option.some.inj h | cases hbase
  | tuple | array =>
    obtain ⟨_, _, rfl, -⟩ := hv
    cases h
    rfl
  | function =>
    obtain ⟨_, _, rfl⟩ := hv
    cases h
    rfl
  | object =>
    obtain ⟨⟨_, _, rfl⟩, -⟩ := hv
    cases h
    rfl
  | union _ ih =>
    obtain ⟨arm, ha, harm⟩ := Ty.contains_union.1 hv
    rw [Ty.typeofName, typeofNames_eq_map] at h
    exact ih arm ha harm (eq_some_of_agreed h _ (List.mem_map_of_mem ha))

/-- A field that all values of the type have is of the type that the check gives it. -/
theorem memberType_along {t : Ty} {name : String} {rest : List String} {a : Access}
    (hd : Ty.Definite t) (halong : Ty.Along (name :: rest) t) (h : memberType t name = .ok a) :
    Ty.Definite a.ty ∧ Ty.Along rest a.ty ∧
      ∀ v, t.Contains Literal.Alike v → a.ty.Contains Literal.Alike (v.member name) := by
  generalize hpath : name :: rest = path at halong
  induction halong generalizing a with
  | here => cases hpath
  | @object _ _ fields hm hall =>
    cases hpath
    simp only [memberType, plainMember?] at h
    split at h
    next access haccess =>
      cases h
      obtain ⟨f, hf, rfl⟩ := Option.map_eq_some_iff.1 haccess
      have hmem := List.mem_of_find?_eq_some hf
      obtain rfl : f.name = name := by simpa using List.find?_some hf
      exact ⟨hd.of_object f hmem, hall f hmem rfl, fun v hv => (Ty.contains_object.1 hv).2 f hmem⟩
    next => cases h
  | @union _ arms _ ih =>
    obtain ⟨as, has, rfl⟩ := memberType_union h
    -- Each arm has the field, and its values are among those of the union of what the arms give.
    have hparts : ∀ access ∈ as, ∃ arm ∈ arms, memberType arm name = .ok access ∧
        Ty.Definite access.ty ∧ Ty.Along rest access.ty ∧ ∀ v, arm.Contains Literal.Alike v →
          access.ty.Contains Literal.Alike (v.member name) := by
      intro access haccess
      obtain ⟨arm, harm, hrun⟩ := exists_left_of_mem has haccess
      exact ⟨arm, harm, hrun, ih arm harm (hd.of_union arm harm) hrun hpath⟩
    have hdefinite : ∀ u ∈ as.map Access.ty, Ty.Definite u := by
      refine List.forall_mem_map.2 fun access haccess => ?_
      obtain ⟨_, -, -, hdefinite, -⟩ := hparts access haccess
      exact hdefinite
    refine ⟨Ty.described_unionOf hdefinite, Ty.along_unionOf ?_, fun v hv => ?_⟩
    · refine List.forall_mem_map.2 fun access haccess => ?_
      obtain ⟨_, -, -, -, halong, -⟩ := hparts access haccess
      exact halong
    · obtain ⟨arm, harm, hav⟩ := Ty.contains_union.1 hv
      obtain ⟨access, haccess, hrun⟩ := exists_right_of_mem has harm
      obtain ⟨-, -, hcontains⟩ := ih arm harm (hd.of_union arm harm) hrun hpath
      exact (Ty.contains_unionOf_iff hdefinite (.inl rfl)).2
        ⟨_, List.mem_map_of_mem haccess, hcontains v hav⟩
  | never => cases h

section Operands

variable {M : InterfaceMap} {depth : Nat} {i : Interface} {D : NodeId → Prop}

/-- The interface of a fresh node is that of its form. -/
theorem Ran.form (ht : s.tree.TreeShaped) {form : CheckM Interface} {span : Span}
    (hspan : s.tree.span x = .ok span) (hform : synthForm s (rules s depth) x env = form)
    (hwithin : Within (s.tree.Below x) form)
    (hran : Ran M (s.tree.AtOrBelow x) ((rules s (depth + 1)).synth x env) i) :
    ∃ j, Ran M (s.tree.Below x) form j ∧ ∀ typing, i = .ok typing → j = .ok typing := by
  have hran : Ran M (s.tree.AtOrBelow x)
      (Check.heldOr x (do Check.record s x (← synthForm s (rules s depth) x env))) i := hran
  rw [hform] at hran
  obtain ⟨j, hj, hrecord⟩ := (hran.heldOr .refl).bind hwithin
    (fun j => within_record (D := (· = x)) rfl hspan j) atOrBelow_of_below atOrBelow_of_eq
    (not_below_of_eq ht)
  refine ⟨j, hj, fun typing hi => ?_⟩
  obtain ⟨hheld, -⟩ := hrecord.record hspan
  cases j with
  | ok typing' => exact hheld.symm.trans hi
  | error e => cases hheld.symm.trans hi

/-- A form without parts gives its interface. -/
theorem Ran.leaf (ht : s.tree.TreeShaped) {j : Interface} {span : Span}
    (hspan : s.tree.span x = .ok span)
    (hform : synthForm s (rules s depth) x env = pure j)
    (hran : Ran M (s.tree.AtOrBelow x) ((rules s (depth + 1)).synth x env) i) {typing : Typing}
    (hi : i = .ok typing) : j = .ok typing := by
  obtain ⟨j', ⟨_, _, -, hrun, -⟩, hj⟩ := hran.form ht hspan hform (within_pure j)
  cases hrun
  exact hj typing hi

/-- A form with one operand gives what it makes of the operand's interface. -/
theorem Ran.operand (ht : s.tree.TreeShaped) (hs : Comparable s s depth) {kind : NodeKind}
    {operand : NodeId} {f : Interface → Interface} {span : Span}
    (hspan : s.tree.span x = .ok span) (hkind : s.tree.kind x = .ok kind)
    (hmem : operand ∈ kind.children)
    (hcommon : Common s.tree s.tree (fun _ => True) depth (fun _ => True) operand)
    (hform : synthForm s (rules s depth) x env =
      (rules s depth).synth operand env >>= fun j => pure (f j))
    (hran : Ran M (s.tree.AtOrBelow x) ((rules s (depth + 1)).synth x env) i) :
    ∃ j, Ran M (s.tree.AtOrBelow operand) ((rules s depth).synth operand env) j ∧
      ∀ typing, i = .ok typing → f j = .ok typing := by
  have hbelow := below_of_child hkind hmem
  have hwithin : Within (s.tree.Below x)
      ((rules s depth).synth operand env >>= fun j => pure (f j)) :=
    ((synth_within hs hcommon env).mono hbelow).bind fun _ => within_pure _
  obtain ⟨j, hj, hi⟩ := hran.form ht hspan hform hwithin
  obtain ⟨k, hk, rfl⟩ := hj.of_bind_pure
  exact ⟨k, hk.mono hbelow, hi⟩

/-- The type of a chain of fields has the value at its end, and has the fields that follow. -/
theorem truthful_chain (ht : s.tree.TreeShaped) (hpop : Populated env values) {name : String}
    {path : List String} {root : Value} (hchain : s.tree.Chain name x path)
    (hroot : values.get? name = some root) {rest : List String}
    (hfielded : ∀ typing, env.get? name = some (.ok typing) → Ty.Along (path ++ rest) typing.ty)
    (hs : Comparable s s depth)
    (hcommon : Common s.tree s.tree (fun _ => True) depth (fun _ => True) x)
    (hran : Ran M (s.tree.AtOrBelow x) ((rules s depth).synth x env) i) {typing : Typing}
    (hi : i = .ok typing) :
    Ty.Definite typing.ty ∧ Ty.Along rest typing.ty ∧
      typing.ty.Contains Literal.Alike (path.foldl Value.member root) := by
  -- By the chain, from its name on: the fields still to come are asked of the type at each step.
  induction hchain generalizing depth rest i typing with
  | identifier hkind =>
    cases depth with
    | zero => exact hcommon.elim
    | succ depth =>
      obtain ⟨span, hspan, -⟩ := hcommon.span
      have hname := hran.leaf ht hspan (kindOf_bind hkind _) hi
      unfold nameInterface at hname
      split at hname
      next known hknown =>
        obtain ⟨hd, v, hget, hv⟩ := hpop name known hknown
        have hcontents : known.contents = known := by
          rw [Typing.contents, hd.cell?_eq_none]
        rw [hcontents] at hname
        cases hname
        cases hget.symm.trans hroot
        exact ⟨hd, hfielded _ hknown, hv⟩
      next => cases hname
      next => cases hname
  | @member x object property path hkind hobject ih =>
    cases depth with
    | zero => exact hcommon.elim
    | succ depth =>
      obtain ⟨span, hspan, -⟩ := hcommon.span
      obtain ⟨kind, hkind', -, hparts⟩ := hcommon.kind
      cases hkind.symm.trans hkind'
      have hpart := hparts object List.mem_cons_self
      obtain ⟨j, hj, hmember⟩ := hran.operand ht hs.of_succ hspan hkind List.mem_cons_self hpart
        (kindOf_bind hkind _)
      have hmember := hmember typing hi
      cases j with
      | error e => cases hmember
      | ok known =>
        have hfielded' : ∀ typing, env.get? name = some (.ok typing) →
            Ty.Along (path ++ (property :: rest)) typing.ty := by
          simpa using hfielded
        obtain ⟨hd, halong, hv⟩ := ih hfielded' hs.of_succ hpart hj rfl
        obtain ⟨_, hknown, hmember⟩ := Except.bind_eq_ok_iff.mp hmember
        cases hknown
        obtain ⟨access, haccess, htyping⟩ := Except.bind_eq_ok_iff.mp hmember
        cases htyping
        obtain ⟨hdefinite, hrest, hcontains⟩ := memberType_along hd halong haccess
        exact ⟨hdefinite, hrest, by rw [List.foldl_concat]; exact hcontains _ hv⟩

/-- The interface that an operand gets has its value. -/
theorem truthful_of_denotes (ht : s.tree.TreeShaped) (hpop : Populated env values)
    (hv : s.tree.Denotes values x v)
    (hfielded : ∀ y, s.tree.AtOrBelow x y → Fielded s.tree env y) (hs : Comparable s s depth)
    (hcommon : Common s.tree s.tree (fun _ => True) depth (fun _ => True) x)
    (hran : Ran M (s.tree.AtOrBelow x) ((rules s depth).synth x env) i) : Truthful i v := by
  intro typing hi
  -- The induction is on how the operand gets its value; each step down takes one level of depth.
  induction hv generalizing depth i typing with
  | @chain x name path root hchain hroot =>
    have hend : ∀ typing, env.get? name = some (.ok typing) →
        Ty.Along (path ++ []) typing.ty := by
      simpa using fun typing => hfielded x .refl name path typing hchain
    obtain ⟨hd, -, hv⟩ := truthful_chain ht hpop hchain hroot hend hs hcommon hran hi
    exact ⟨hd, hv⟩
  | undefined hkind | null hkind | @literal x l hkind =>
    cases depth with
    | zero => exact hcommon.elim
    | succ depth =>
      obtain ⟨span, hspan, -⟩ := hcommon.span
      cases hran.leaf ht hspan (kindOf_bind hkind _) hi
      first
        | exact ⟨.undefined, rfl⟩
        | exact ⟨.null, rfl⟩
        | exact ⟨.literal l, Ty.contains_literal (Literal.Alike.refl l)⟩
  | @typeof x operand v hkind _ ih =>
    cases depth with
    | zero => exact hcommon.elim
    | succ depth =>
      obtain ⟨span, hspan, -⟩ := hcommon.span
      obtain ⟨kind, hkind', -, hparts⟩ := hcommon.kind
      cases hkind.symm.trans hkind'
      have hpart := hparts operand List.mem_cons_self
      obtain ⟨j, hj, hunary⟩ := hran.operand ht hs.of_succ hspan hkind List.mem_cons_self hpart
        (kindOf_bind hkind _)
      cases hunary typing hi
      dsimp only
      split
      next kind hkind =>
        cases j with
        | error e => cases hkind
        | ok known =>
          obtain ⟨hd, hv⟩ := ih (fun y hy => hfielded y (.head ⟨_, ‹_›, List.mem_cons_self⟩ hy))
            hs.of_succ hpart hj known rfl
          rw [typeName_of_typeofName_definite hd hv hkind]
          exact ⟨.literal (.string kind), Ty.contains_literal (Literal.Alike.refl (.string kind))⟩
      next => exact ⟨.string, _, rfl⟩

end Operands

/-! ### Tests -/

section Tests

variable {test left right : NodeId} {op : BinaryOp} {i : Interface} {m₀ : InterfaceMap}
  {outcome equals : Bool}

theorem denotes_string {t : Tree} {kind : String} (hv : t.Denotes values x v)
    (hkind : t.kind x = .ok (.literal (.string kind))) : v = .string kind := by
  cases hv with
  | chain hchain =>
    rcases hchain.kind with ⟨_, hkind'⟩ | ⟨_, _, hkind'⟩ <;> cases hkind.symm.trans hkind'
  | literal hkind' =>
    cases hkind.symm.trans hkind'
    rfl
  | undefined hkind' | null hkind' | typeof hkind' => cases hkind.symm.trans hkind'

theorem denotes_typeof {t : Tree} {operand : NodeId} (hv : t.Denotes values x v)
    (hkind : t.kind x = .ok (.unary .typeof operand)) :
    ∃ w, t.Denotes values operand w ∧ v = .string w.typeName := by
  cases hv with
  | chain hchain =>
    rcases hchain.kind with ⟨_, hkind'⟩ | ⟨_, _, hkind'⟩ <;> cases hkind.symm.trans hkind'
  | typeof hkind' hoperand =>
    cases hkind.symm.trans hkind'
    exact ⟨_, hoperand, rfl⟩
  | undefined hkind' | null hkind' | literal hkind' => cases hkind.symm.trans hkind'

/-- The test asks whether `typeof` an operand is `"object"`. -/
def AsksObject (t : Tree) (left right : NodeId) : Prop :=
  ∃ leftKind rightKind operand, t.kind left = .ok leftKind ∧ t.kind right = .ok rightKind ∧
    typeofTest? leftKind rightKind = some (operand, "object")

/-- Knowing what `typeof` gives leaves all names values of their types. -/
theorem narrowTypeof_populated {side operand : NodeId} {kind : String}
    (h : Synthesized s.tree m side) (hkind : s.tree.kind side = .ok (.unary .typeof operand))
    (hpop : Populated env values) (hv : s.tree.Denotes values operand v)
    (hfielded : ∀ y, s.tree.AtOrBelow side y → Fielded s.tree env y)
    (hobject : kind ≠ "object") (he : (v.typeName == kind) = equals) :
    ∃ env', (match Ty.ofTypeofName? kind with
      | some t => narrowPlace s env operand (if equals then t else .complement t)
      | none => pure env : CheckM TypeEnv) m = .ok (env', m) ∧ Populated env' values := by
  have hpart : Part s.tree side operand :=
    ⟨_, hkind, rfl, List.mem_cons_self, fun _ heq => by cases heq⟩
  cases hname : Ty.ofTypeofName? kind with
  | none => exact ⟨env, rfl, hpop⟩
  | some t =>
    obtain ⟨hd, hiff⟩ := contains_ofTypeofName?_iff (v := v) hname hobject
    have hknown : Ty.Definite (if equals then t else .complement t) ∧
        (if equals then t else .complement t).Contains Literal.Alike v := by
      cases equals with
      | true => exact ⟨hd, hiff.2 (beq_iff_eq.1 he)⟩
      | false => exact ⟨.complement hd, fun hv => beq_eq_false_iff_ne.1 he (hiff.1 hv)⟩
    obtain ⟨env', hrun, hpop', -⟩ := narrowPlace_populated (h.part hpart) hpop hv
      (hfielded operand (.single hpart.childOf)) fun _ => hknown
    exact ⟨env', hrun, hpop'⟩

/-- The operands of a comparison, as they have been checked and as they are. -/
theorem narrowComparison_populated {r : Rules} {li ri : Interface}
    (hleft : Synthesized s.tree m left) (hright : Synthesized s.tree m right)
    (hsynthLeft : ∀ env, r.synth left env m = .ok (li, m))
    (hsynthRight : ∀ env, r.synth right env m = .ok (ri, m)) (hpop : Populated env values)
    (hfielded : ∀ y, s.tree.AtOrBelow left y ∨ s.tree.AtOrBelow right y → Fielded s.tree env y)
    (hv : s.tree.Denotes values left v) (hw : s.tree.Denotes values right w)
    (htrueLeft : Truthful li v) (htrueRight : Truthful ri w) (he : equal loose v w = equals)
    (hsame : equals = true → v.kind = .object → w.kind = .object → v = w)
    (htellsLeft : Telling s.tree loose equals left ri.ty v w)
    (htellsRight : Telling s.tree loose equals right li.ty w v)
    (hroots : ∀ name, s.tree.RootName name left → ¬ s.tree.RootName name right)
    (hobject : ¬ AsksObject s.tree left right) :
    ∃ env', narrowComparison s r env loose left right equals m = .ok (env', m) ∧
      Populated env' values := by
  obtain ⟨leftKind, hleftKind⟩ := Tree.exists_kind_of_lt hleft.lt_size
  obtain ⟨rightKind, hrightKind⟩ := Tree.exists_kind_of_lt hright.lt_size
  unfold narrowComparison
  rw [kindOf_bind hleftKind, kindOf_bind hrightKind]
  cases htypeof : typeofTest? leftKind rightKind with
  | some asked =>
    -- The `typeof` may stand on either side, and the other side is the text of a kind.
    obtain ⟨operand, kind⟩ := asked
    have hne : kind ≠ "object" := by
      rintro rfl
      exact hobject ⟨_, _, _, hleftKind, hrightKind, htypeof⟩
    rcases typeofTest?_cases htypeof with ⟨rfl, rfl⟩ | ⟨rfl, rfl⟩
    · obtain ⟨u, hu, rfl⟩ := denotes_typeof hv hleftKind
      obtain rfl := denotes_string hw hrightKind
      rw [equal_string] at he
      exact narrowTypeof_populated hleft hleftKind hpop hu (fun y hy => hfielded y (.inl hy)) hne he
    · obtain ⟨u, hu, rfl⟩ := denotes_typeof hw hrightKind
      obtain rfl := denotes_string hv hleftKind
      rw [equal_string, BEq.comm] at he
      exact narrowTypeof_populated hright hrightKind hpop hu (fun y hy => hfielded y (.inr hy)) hne
        he
  | none =>
    -- Each side is narrowed by the type that the other side had before either was.
    dsimp only
    rw [bind_run (hsynthLeft env), bind_run (hsynthRight env)]
    obtain ⟨env₁, hrun₁, hpop₁, hframe⟩ := narrowSide_populated hleft hpop hv
      (hfielded left (.inl .refl)) htrueRight htellsLeft he hsame
    -- The names below the right operand are as they were.
    have hfielded₁ : Fielded s.tree env₁ right := by
      intro name path typing hchain hget
      rw [hframe name fun hroot => hroots name hroot hchain.rootName] at hget
      exact hfielded right (.inr .refl) name path typing hchain hget
    obtain ⟨env₂, hrun₂, hpop₂, -⟩ := narrowSide_populated hright hpop₁ hw hfielded₁ htrueLeft
      htellsRight ((equal_comm loose w v).trans he) fun htrue hw hv => (hsame htrue hv hw).symm
    rw [bind_run hrun₁]
    exact ⟨env₂, hrun₂, hpop₂⟩

/-- The operands of a test that has been checked have interfaces that have their values. -/
theorem operands_truthful (ht : s.tree.TreeShaped) (htest : test < s.tree.size)
    (hfresh : Fresh (s.tree.AtOrBelow test) m₀) (hrun : synth s test env m₀ = .ok (i, m))
    (hkind : s.tree.kind test = .ok (.binary op left right)) (hpop : Populated env values)
    (hfielded : ∀ y, s.tree.AtOrBelow test y → Fielded s.tree env y)
    (hv : s.tree.Denotes values left v) (hw : s.tree.Denotes values right w) :
    ∃ li ri, m.get? left = some li ∧ m.get? right = some ri ∧ Truthful li v ∧ Truthful ri w := by
  have hs : Comparable s s (s.tree.size + 1) := ⟨rfl, Nat.le_refl _, Nat.le_refl _⟩
  have hcommon : Common s.tree s.tree (fun _ => True) (s.tree.size + 1) (fun _ => True) test :=
    (common_self ht htest).narrowed fun _ _ => trivial
  have hran : Ran m (s.tree.AtOrBelow test) ((rules s (s.tree.size + 1)).synth test env) i :=
    ⟨m₀, m, hfresh, hrun, .refl m⟩
  obtain ⟨span, hspan, -⟩ := hcommon.span
  obtain ⟨kind, hkind', -, hparts⟩ := hcommon.kind
  cases hkind.symm.trans hkind'
  have hleft : left ∈ [left, right] := List.mem_cons_self
  have hright : right ∈ [left, right] := List.mem_cons_of_mem _ List.mem_cons_self
  have hbelowLeft := below_of_child hkind hleft
  have hbelowRight := below_of_child hkind hright
  have hwithinLeft := synth_within hs.of_succ (hparts left hleft) env
  have hwithinRight := synth_within hs.of_succ (hparts right hright) env
  have hrest (l : Interface) : Within (s.tree.AtOrBelow right) (do
      return binaryInterface op l (← (rules s s.tree.size).synth right env)) :=
    hwithinRight.bind fun _ => within_pure _
  obtain ⟨j, hj, -⟩ := hran.form ht hspan (kindOf_bind hkind _)
    ((hwithinLeft.mono hbelowLeft).bind fun l => (hrest l).mono hbelowRight)
  have hapart : Apart s.tree.AtOrBelow left right :=
    (List.pairwise_cons.mp (children_apart ht hkind)).1 right List.mem_cons_self
  obtain ⟨li, hli, hri⟩ := hj.bind hwithinLeft hrest hbelowLeft hbelowRight hapart
  obtain ⟨ri, hri, -⟩ := hri.of_bind_pure
  refine ⟨li, ri, hli.held, hri.held, ?_, ?_⟩
  · exact truthful_of_denotes ht hpop hv (fun y hy => hfielded y (.head ⟨_, hkind, hleft⟩ hy))
      hs.of_succ (hparts left hleft) hli
  · exact truthful_of_denotes ht hpop hw (fun y hy => hfielded y (.head ⟨_, hkind, hright⟩ hy))
      hs.of_succ (hparts right hright) hri

/-- Narrowing by an equality test keeps the values of all names in their types, where the test has
    been checked and comes out as it does for these values.  It is taken for granted that the names
    have the fields that the test asks for, that values with one identity are one, that the types
    of the operands tell their values apart, and that the operands have different names at their
    roots. -/
theorem narrow_equality (ht : s.tree.TreeShaped) (htest : test < s.tree.size)
    (hfresh : Fresh (s.tree.AtOrBelow test) m₀) (hrun : synth s test env m₀ = .ok (i, m))
    (hkind : s.tree.kind test = .ok (.binary op left right)) (hop : op.isEquality = true)
    (hpop : Populated env values) (hfielded : ∀ y, s.tree.AtOrBelow test y → Fielded s.tree env y)
    (hv : s.tree.Denotes values left v) (hw : s.tree.Denotes values right w)
    (houtcome : Value.binary op v w = .boolean outcome)
    (hsame : (outcome != op.isNegated) = true → v.kind = .object → w.kind = .object → v = w)
    (htellsLeft : ∀ ri, m.get? right = some ri →
      Telling s.tree op.isLoose (outcome != op.isNegated) left ri.ty v w)
    (htellsRight : ∀ li, m.get? left = some li →
      Telling s.tree op.isLoose (outcome != op.isNegated) right li.ty w v)
    (hroots : ∀ name, s.tree.RootName name left → ¬ s.tree.RootName name right)
    (hobject : ¬ AsksObject s.tree left right) :
    ∃ env', narrow s env test outcome m = .ok (env', m) ∧ Populated env' values := by
  obtain ⟨li, ri, hli, hri, htrueLeft, htrueRight⟩ :=
    operands_truthful ht htest hfresh hrun hkind hpop hfielded hv hw
  have hsynthesized := synthesized_of_synth ht htest hfresh hrun
  have hpart (x : NodeId) (hx : x ∈ [left, right]) : Part s.tree test x :=
    ⟨_, hkind, rfl, hx, fun _ heq => by cases heq⟩
  have hleft := hpart left List.mem_cons_self
  have hright := hpart right (List.mem_cons_of_mem _ List.mem_cons_self)
  have he : equal op.isLoose v w = (outcome != op.isNegated) := by
    rw [binary_eq_equal hop, Value.boolean.injEq] at houtcome
    rw [← houtcome]
    cases op.isNegated <;> simp
  obtain ⟨depth, hdepth⟩ := Nat.exists_eq_succ_of_ne_zero (Nat.ne_zero_of_lt htest)
  obtain ⟨env', hnarrow, hpop'⟩ := narrowComparison_populated (r := rules s s.tree.size)
    (hsynthesized.part hleft) (hsynthesized.part hright)
    (fun env => hdepth ▸ synth_run_of_held hli depth env)
    (fun env => hdepth ▸ synth_run_of_held hri depth env) hpop
    (fun y hy => hfielded y (hy.elim (.head hleft.childOf) (.head hright.childOf))) hv hw htrueLeft
    htrueRight he hsame (htellsLeft ri hri) (htellsRight li hli) hroots hobject
  refine ⟨env', ?_, hpop'⟩
  show narrowTest s (rules s s.tree.size) env test outcome m = _
  unfold narrowTest
  rw [kindOf_bind hkind]
  dsimp only
  rw [if_pos hop]
  exact hnarrow

end Tests

end ReactiveDoc.Check
