import ReactiveDoc.Check.Setting
import ReactiveDoc.Ty.Narrow

namespace ReactiveDoc.Check

/-!
# Narrowing of environments by tests

* `narrowPlace` — refine the name at the root of an identifier or chain of fields.
* `narrowTest` — the rule of `Rules.narrow`: what a test's outcome says of the names in it.
-/

variable (s : Setting)

/-! ### Places -/

/-- Refine a name by what is known of its value.  Failed names and cells stay as they are. -/
def narrowName (env : TypeEnv) (name : String) (known : Ty) : TypeEnv :=
  match env.get? name with
  | some (.ok typing) =>
      if (cell? typing.ty).isNone then
        env.extend name (.ok { typing with ty := typing.ty.narrow known })
      else env
  | _ => env

/-- Refine the name at the root of `place` by what is known of the place's value; expressions
    that are neither names nor fields say nothing. -/
def narrowPlaceWithin (env : TypeEnv) : Nat → NodeId → Ty → CheckM TypeEnv
  | 0, _, _ => throw .endless
  | fuel + 1, place, known => do
      match ← kindOf s place with
      | .identifier name => pure (narrowName env name known)
      | .member object property => narrowPlaceWithin env fuel object (.object [⟨property, known⟩])
      | _ => pure env

/-- Refine the name at the root of `place` by what is known of the place's value. -/
def narrowPlace (env : TypeEnv) (place : NodeId) (known : Ty) : CheckM TypeEnv :=
  narrowPlaceWithin s env s.tree.depthLimit place known

/-! ### Comparisons -/

/-- Every arm has exactly one value, so not being equal to it excludes the type. -/
def isUnit : Ty → Bool
  | .singleton _ _ | .undefined | .null => true
  | .union arms => areUnits arms
  | _ => false
where
  /-- Every type of a list has exactly one value an arm. -/
  areUnits : List Ty → Bool
    | [] => true
    | t :: ts => isUnit t && areUnits ts

/-- The operand and the answer of a test such as `typeof e === "number"`, in either order. -/
def typeofTest? (left right : NodeKind) : Option (NodeId × String) :=
  match left, right with
  | .unary .typeof operand, .literal (.string kind) => some (operand, kind)
  | .literal (.string kind), .unary .typeof operand => some (operand, kind)
  | _, _ => none

/-- The type that an operand is compared with; loosely, `null` and `undefined` are one. -/
def comparisonType (loose : Bool) (interface : Interface) : Ty :=
  match loose, interface.ty with
  | true, .undefined | true, .null => Ty.unionOf [.undefined, .null]
  | _, t => t

/-- Refine one operand of a comparison by the type of the other. -/
def narrowSide (env : TypeEnv) (place : NodeId) (other : Ty) (equal : Bool) : CheckM TypeEnv :=
  if other.isError then pure env
  else if equal then narrowPlace s env place other
  else if isUnit other then narrowPlace s env place (.complement other)
  else pure env

/-- Refine both operands of a comparison whose outcome is `equal`. -/
def narrowComparison (r : Rules) (env : TypeEnv) (loose : Bool) (left right : NodeId)
    (equal : Bool) : CheckM TypeEnv := do
  match typeofTest? (← kindOf s left) (← kindOf s right) with
  | some (operand, kind) =>
      match Ty.ofTypeofName? kind with
      | some t => narrowPlace s env operand (if equal then t else .complement t)
      | none => pure env
  | none =>
      let leftTy := comparisonType loose (← r.synth left env)
      let rightTy := comparisonType loose (← r.synth right env)
      let env ← narrowSide s env left rightTy equal
      narrowSide s env right leftTy equal

/-- What is known where the test `test` has come out as `outcome`. -/
def narrowTest (r : Rules) (env : TypeEnv) (test : NodeId) (outcome : Bool) : CheckM TypeEnv := do
  let truth := narrowPlace s env test (if outcome then Ty.notFalsy else Ty.notTruthy)
  match ← kindOf s test with
  | .unary .not argument => r.narrow env argument !outcome
  | .logical .and left right =>
      if outcome then r.narrow (← r.narrow env left true) right true else truth
  | .logical .or left right =>
      if outcome then truth else r.narrow (← r.narrow env left false) right false
  | .binary op left right =>
      if op.isEquality then
        narrowComparison s r env op.isLoose left right (outcome != op.isNegated)
      else truth
  | _ => truth

end ReactiveDoc.Check
