import ReactiveDoc.Ty.Basic

namespace ReactiveDoc.Ty

/-!
# The lattice of types

* `isSubtype` — the subtype relation; fields that are missing read as `undefined`.
* `disjoint` — no value in common, judged by run-time kind and by the value of singletons.
* `union` — flat, without `never`, without an arm that is equivalent to an earlier one.
* `intersection` — flat, distributed over unions, `never` where two arms are disjoint.
-/

/-! ### Disjointness -/

/-- The coarse kind of a value at run time. -/
inductive Kind where
  | undefined
  | null
  | boolean
  | number
  | string
  | object
  deriving DecidableEq, Repr

/-- The kind of all values of a type, where they share one. -/
def kind? : Ty → Option Kind
  | undefined => some .undefined
  | null => some .null
  | boolean => some .boolean
  | number => some .number
  | string => some .string
  | singleton base _ => kind? base
  | tuple _ | array _ | set _ | map _ _ | object _ | module _ | function _ _ => some .object
  | _ => none

/-- Both kinds are known, and they differ. -/
def kindsDiffer (a b : Ty) : Bool :=
  match kind? a, kind? b with
  | some k, some l => k != l
  | _, _ => false

/-- No value is in both types, as far as kinds, singleton values and the fields that two object
    types share can tell. -/
def disjoint (a b : Ty) : Bool :=
  match a, b with
  | never, _ => true
  | _, never => true
  | union arms, b => arms.attach.all fun ⟨arm, _⟩ => disjoint arm b
  | a, union arms => arms.attach.all fun ⟨arm, _⟩ => disjoint arm a
  | singleton base v, singleton base' v' => !(same base base') || !(v.same v')
  | object fs, object gs =>
      fs.attach.any fun ⟨f, _⟩ => gs.attach.any fun ⟨g, _⟩ =>
        g.name == f.name && disjoint f.ty g.ty
  | a, b => kindsDiffer a b
termination_by a.size + b.size
decreasing_by
  all_goals simp only [size]
  · have := size_le_sizeList ‹_›; omega
  · have := size_le_sizeList ‹_›; omega
  · have := size_le_sizeFields ‹f ∈ fs›
    have := size_le_sizeFields ‹g ∈ gs›
    omega

/-! ### Subtyping -/

/-- The two arms of `boolean`. -/
def booleanArms : List Ty := [ofBool true, ofBool false]

mutual

/-- Every value of `a` may stand where a value of `b` is expected.

    Unions on the left and intersections on the right need every arm, unions on the right and
    intersections on the left need some arm; `boolean` stands in a union if both truth values do.
    Parameters of functions and keys of maps vary against the rest. -/
def isSubtype (a b : Ty) : Bool :=
  same a b ||
    match a, b with
    | never, _ => true
    | _, unknown => true
    | error _, _ => true
    | _, error _ => false
    | union arms, b => arms.attach.all fun ⟨arm, _⟩ => isSubtype arm b
    | a, intersection arms => arms.attach.all fun ⟨arm, _⟩ => isSubtype a arm
    | boolean, union arms =>
        (arms.attach.any fun ⟨arm, _⟩ => isSubtype (ofBool true) arm) &&
          arms.attach.any fun ⟨arm, _⟩ => isSubtype (ofBool false) arm
    | a, union arms => arms.attach.any fun ⟨arm, _⟩ => isSubtype a arm
    | intersection arms, b => arms.attach.any fun ⟨arm, _⟩ => isSubtype arm b
    | complement x, complement y => isSubtype y x
    | a, complement y => disjoint a y
    | complement _, _ => false
    | singleton base v, singleton base' v' => same base base' && v.same v'
    | singleton base _, b => isSubtype base b
    | array x, array y => isSubtype x y
    | set x, set y => isSubtype x y
    | map k v, map k' v' => isSubtype k' k && isSubtype v v'
    | tuple xs, tuple ys => isSubtypeList xs ys
    | tuple xs, array y => xs.attach.all fun ⟨x, _⟩ => isSubtype x y
    | object fs, object gs => gs.attach.all fun ⟨g, _⟩ =>
        match _h : fs.find? fun f => f.name == g.name with
        | some f => isSubtype f.ty g.ty
        | none => isSubtype undefined g.ty
    | module es, module gs => gs.attach.all fun ⟨g, _⟩ =>
        match _h : es.find? fun e => e.name == g.name with
        | some e => isSubtype e.ty g.ty
        | none => isSubtype undefined g.ty
    | module es, object gs => gs.attach.all fun ⟨g, _⟩ =>
        match _h : es.find? fun e => e.name == g.name with
        | some e => isSubtype e.ty g.ty
        | none => isSubtype undefined g.ty
    | function ps r, function ps' r' => isSubtypeList ps' ps && isSubtype r r'
    | labelled l xs, labelled l' ys => l == l' && isSubtypeList xs ys
    | _, _ => false
termination_by 2 * (a.size + b.size)
decreasing_by
  all_goals simp only [size, ofBool, literal, baseOf]
  all_goals first
    | omega
    | (have _h := size_le_sizeList ‹_ ∈ arms›; omega)
    | (have _h := size_le_sizeList ‹_ ∈ xs›; omega)
    | (have _h := size_le_sizeFields ‹g ∈ gs›
       have := size_le_sizeFields (List.mem_of_find?_eq_some ‹_›); omega)
    | (have _h := size_le_sizeExports ‹g ∈ gs›
       have := size_le_sizeExports (List.mem_of_find?_eq_some ‹_›); omega)
    | (have _h := size_le_sizeFields ‹g ∈ gs›
       have := size_le_sizeExports (List.mem_of_find?_eq_some ‹_›); omega)
    | (have _h := size_le_sizeFields ‹g ∈ gs›; omega)
    | (have _h := size_le_sizeExports ‹g ∈ gs›; omega)

/-- Lists of one length whose members are subtypes in order. -/
def isSubtypeList (as bs : List Ty) : Bool :=
  match as, bs with
  | [], [] => true
  | a :: as, b :: bs => isSubtype a b && isSubtypeList as bs
  | _, _ => false
termination_by 2 * (sizeList as + sizeList bs) + 1
decreasing_by
  all_goals
    simp only [sizeList]
    have := size_pos a
    omega

end

/-- Each is a subtype of the other. -/
def isEquivalent (a b : Ty) : Bool := isSubtype a b && isSubtype b a

/-! ### Unions -/

/-- The arms of several types, in which unions are opened once and `never` is dropped. -/
def unionParts : List Ty → List Ty
  | [] => []
  | union arms :: ts => arms ++ unionParts ts
  | never :: ts => unionParts ts
  | t :: ts => t :: unionParts ts

/-- Append `t` unless an earlier arm is equivalent to it. -/
def addArm (kept : List Ty) (t : Ty) : List Ty :=
  if kept.any fun s => isEquivalent s t then kept else kept ++ [t]

/-- The arms as one type: none are `never`, and a single arm stands for itself. -/
def ofArms : List Ty → Ty
  | [] => never
  | [t] => t
  | arms => union arms

/-- The union of several types. -/
def unionOf (ts : List Ty) : Ty := ofArms ((unionParts ts).foldl addArm [])

/-- The type with `undefined` added. -/
def orUndefined (t : Ty) : Ty := unionOf [undefined, t]

/-! ### Intersections -/

/-- The arms of several types, in which intersections are opened once and `unknown` is dropped. -/
def intersectionParts : List Ty → List Ty
  | [] => []
  | intersection arms :: ts => arms ++ intersectionParts ts
  | unknown :: ts => intersectionParts ts
  | t :: ts => t :: intersectionParts ts

theorem sizeList_intersectionParts_le (ts : List Ty) :
    sizeList (intersectionParts ts) ≤ sizeList ts := by
  fun_induction intersectionParts ts <;> simp only [sizeList, sizeList_append, size] <;> omega

/-- The first union among several types, as the arms of the union and the types without it. -/
def splitUnion? : List Ty → Option (List Ty × List Ty)
  | [] => none
  | union arms :: ts => some (arms, ts)
  | t :: ts => (splitUnion? ts).map fun (arms, rest) => (arms, t :: rest)

theorem sizeList_splitUnion? {ts arms rest : List Ty} (h : splitUnion? ts = some (arms, rest)) :
    sizeList rest + sizeList arms + 2 = sizeList ts := by
  fun_induction splitUnion? ts generalizing arms rest with
  | case1 => cases h
  | case2 arms' ts =>
    simp only [Option.some.injEq, Prod.mk.injEq] at h
    obtain ⟨rfl, rfl⟩ := h
    simp only [sizeList, size]
    omega
  | case3 t ts _ ih =>
    cases hs : splitUnion? ts with
    | none => simp [hs] at h
    | some p =>
      simp only [hs, Option.map_some, Option.some.injEq, Prod.mk.injEq] at h
      obtain ⟨rfl, rfl⟩ := h
      have := ih hs
      simp only [sizeList]
      omega

/-- Narrow a list of arms by one more type: nothing if an arm implies it, `none` if an arm is
    disjoint from it, and without the arms that it implies. -/
def meetArm? (kept : List Ty) (t : Ty) : Option (List Ty) :=
  if kept.any fun s => isSubtype s t then some kept
  else if kept.any fun s => disjoint s t then none
  else some ((kept.filter fun s => !(isSubtype t s)) ++ [t])

/-- The intersection of types none of which is a union. -/
def meetArms (ts : List Ty) : Ty :=
  match ts.foldlM meetArm? [] with
  | none => never
  | some [] => unknown
  | some [t] => t
  | some arms => intersection arms

/-- The intersection of several types.  An arm of a union joins behind the other types. -/
def intersectionOf (ts : List Ty) : Ty :=
  let parts := intersectionParts ts
  if parts.any isNever then never
  else
    match _h : splitUnion? parts with
    | some (arms, rest) => unionOf (arms.attach.map fun ⟨arm, _⟩ => intersectionOf (rest ++ [arm]))
    | none => meetArms parts
termination_by sizeList ts
decreasing_by
  have h₁ : sizeList rest + sizeList arms + 2 = sizeList (intersectionParts ts) :=
    sizeList_splitUnion? _h
  have h₂ := sizeList_intersectionParts_le ts
  have h₃ := size_le_sizeList ‹arm ∈ arms›
  simp only [sizeList_append, sizeList]
  omega

/-! ### Widening -/

mutual

/-- Singletons replaced by their base, through tuples, arrays, sets, maps, objects and unions. -/
def widen : Ty → Ty
  | singleton base _ => base
  | tuple items => tuple (widenList items)
  | array item => array item.widen
  | set item => set item.widen
  | map key value => map key.widen value.widen
  | object fields => object (widenFields fields)
  | union arms => unionOf (widenList arms)
  | t => t

/-- Several types, each widened. -/
def widenList : List Ty → List Ty
  | [] => []
  | t :: ts => t.widen :: widenList ts

/-- Fields with their types widened. -/
def widenFields : List (Field Ty) → List (Field Ty)
  | [] => []
  | ⟨name, ty⟩ :: fs => ⟨name, ty.widen⟩ :: widenFields fs

end

end ReactiveDoc.Ty
