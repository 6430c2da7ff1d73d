import ReactiveDoc.Proofs.Check.Comparing
import ReactiveDoc.Proofs.Eval.Undisturbed

namespace ReactiveDoc.Eval

/-!
# Equality tests that have come out

* `Static` — an expression that is checked without errors, does not change over time and has no
  signals for values.
* `Static.computed` — its operands evaluate to what they denote.
* `narrow_decided` — where a test has been evaluated, narrowing by its outcome keeps the values of
  all names in their types.
-/

open Check (Populated Fielded Telling AsksObject)
open Signal (World)

variable {σ : Type} {r : Rules σ} {p : Program} {values : ValueEnv} {x test left right : NodeId}
  {v w : Value} {op : BinaryOp}

/-! ### Evaluation -/

/-- What is below the node is checked without errors, does not change over time and does not stand
    for signals. -/
structure Static (p : Program) (values : ValueEnv) (x : NodeId) : Prop where
  steady {y : NodeId} (hy : p.tree.AtOrBelow x y) :
    ∃ typing, p.interfaces.get? y = some (.ok typing) ∧ typing.dynamic = false
  plain {y : NodeId} {v : Value} (hy : p.tree.AtOrBelow x y) (hv : p.tree.Denotes values y v) :
    v.Plain

theorem Static.child (h : Static p values x) {y : NodeId} (hchild : p.tree.ChildOf x y) :
    Static p values y where
  steady hy := h.steady (.head hchild hy)
  plain hy hv := h.plain (.head hchild hy) hv

theorem Static.still (h : Static p values x) (hv : p.tree.Denotes values x v) : Still p x v :=
  ⟨h.steady .refl, h.plain .refl hv⟩

theorem Static.computed_chain {name : String} {path : List String} {root : Value}
    (h : Static p values x) (hchain : p.tree.Chain name x path)
    (hroot : values.get? name = some root) :
    Computed p values x (path.foldl Value.member root) := by
  induction hchain with
  | identifier hkind => exact .name (h.still (.chain (.identifier hkind) hroot)) hkind hroot
  | @member x object property path hkind hobject ih =>
    have hstill := h.still (.chain (.member hkind hobject) hroot)
    rw [List.foldl_concat] at hstill ⊢
    exact .member hstill hkind (ih (h.child ⟨_, hkind, List.mem_cons_self⟩))

/-- An operand evaluates to what it denotes. -/
theorem Static.computed (h : Static p values x) (hv : p.tree.Denotes values x v) :
    Computed p values x v := by
  have hstill := h.still hv
  induction hv with
  | chain hchain hroot => exact h.computed_chain hchain hroot
  | undefined hkind => exact .undefined hstill hkind
  | null hkind => exact .null hstill hkind
  | literal hkind => exact .literal hstill hkind
  | @typeof x operand u hkind hoperand ih =>
    have hstatic := h.child ⟨_, hkind, List.mem_cons_self⟩
    exact .unary hstill hkind (ih hstatic (hstatic.still hoperand))

/-! ### Narrowing -/

/-- Narrowing by an equality test that has been evaluated keeps the values of all names in their
    types.  It is taken for granted that the names have the fields that the test asks for, that
    values with one identity are one, that the types of the operands tell their values apart, and
    that the operands have different names at their roots. -/
theorem narrow_decided {s : Check.Setting} {env : TypeEnv} {m m₀ : InterfaceMap} {i : Interface}
    {options : EvalOptions} {outcome : Bool} (ht : s.tree.TreeShaped) (htest : test < s.tree.size)
    (hfresh : Check.Fresh (s.tree.AtOrBelow test) m₀)
    (hcheck : Check.synth s test env m₀ = .ok (i, m))
    (hkind : s.tree.kind test = .ok (.binary op left right)) (hop : op.isEquality = true)
    (hstatic : Static ⟨s.tree, m, options⟩ values test) (hpop : Populated env values)
    (hfielded : ∀ y, s.tree.AtOrBelow test y → Fielded s.tree env y)
    (hv : s.tree.Denotes values left v) (hw : s.tree.Denotes values right w)
    (host : Host σ) (depth : Nat) {world world' : World Payload Step Choice σ}
    (hrun : (rules host depth).evaluate ⟨s.tree, m, options⟩ test values world =
      .ok (.ok (.boolean outcome), world'))
    (hsame : (outcome != op.isNegated) = true → v.kind = .object → w.kind = .object → v = w)
    (htellsLeft : ∀ ri, m.get? right = some ri →
      Telling s.tree op.isLoose (outcome != op.isNegated) left ri.ty v w)
    (htellsRight : ∀ li, m.get? left = some li →
      Telling s.tree op.isLoose (outcome != op.isNegated) right li.ty w v)
    (hroots : ∀ name, s.tree.RootName name left → ¬ s.tree.RootName name right)
    (hobject : ¬ AsksObject s.tree left right) :
    ∃ env', Check.narrow s env test outcome m = .ok (env', m) ∧ Populated env' values := by
  have hleft := hstatic.child ⟨_, hkind, List.mem_cons_self⟩
  have hright := hstatic.child ⟨_, hkind, List.mem_cons_of_mem _ List.mem_cons_self⟩
  have hcomputed : Computed ⟨s.tree, m, options⟩ values test (Value.binary op v w) :=
    .binary ⟨hstatic.steady .refl, plain_binary op v w⟩ hkind (hleft.computed hv)
      (hright.computed hw)
  -- The run did not stop, so what it gave is what the operator gives.
  have houtcome : Value.binary op v w = .boolean outcome := (hcomputed.eq_of_run hrun).symm
  exact Check.narrow_equality ht htest hfresh hcheck hkind hop hpop hfielded hv hw houtcome hsame
    htellsLeft htellsRight hroots hobject

/-- The test `o.kind !== "circle"`. -/
def circleTest : Tree :=
  ⟨#[⟨default, .identifier "o"⟩, ⟨default, .member 0 "kind"⟩,
    ⟨default, .literal (.string "circle")⟩, ⟨default, .binary .strictNe 1 2⟩]⟩

/-- The name `o` stands for a circle or a square. -/
def shapeNames : TypeEnv := Env.empty.extend "o" (.ok (.fixed Ty.shapes))

/-- The name `o` stands for a circle. -/
def shapeValues : ValueEnv :=
  Env.empty.extend "o" (.object 0 [("kind", .string "circle"), ("r", .number 1)])

theorem kind_circleTest {kind : NodeKind} {y : NodeId} (h : circleTest.kind y = .ok kind) :
    kind = .identifier "o" ∨ kind = .member 0 "kind" ∨ kind = .literal (.string "circle") ∨
      kind = .binary .strictNe 1 2 := by
  have hy : y < 4 := Tree.lt_size_of_kind h
  interval_cases y
  · exact .inl (Except.ok.inj h).symm
  · exact .inr (.inl (Except.ok.inj h).symm)
  · exact .inr (.inr (.inl (Except.ok.inj h).symm))
  · exact .inr (.inr (.inr (Except.ok.inj h).symm))

theorem chain_circleTest {name : String} {path : List String} {y : NodeId}
    (h : circleTest.Chain name y path) : name = "o" ∧ (path = [] ∨ path = ["kind"]) := by
  induction h with
  | identifier hkind =>
    rcases kind_circleTest hkind with h | h | h | h <;> cases h
    exact ⟨rfl, .inl rfl⟩
  | member hkind hobject ih =>
    rcases kind_circleTest hkind with h | h | h | h <;> cases h
    cases hobject with
    | identifier => exact ⟨ih.1, .inr rfl⟩
    | member hkind' => cases hkind'

theorem get?_shapeNames {name : String} {typing : Typing}
    (h : shapeNames.get? name = some (.ok typing)) : name = "o" ∧ typing = .fixed Ty.shapes := by
  rw [shapeNames, Env.get?_extend] at h
  split at h
  next heq =>
    cases h
    exact ⟨heq.symm, rfl⟩
  next => cases h

theorem populated_shapeNames : Populated shapeNames shapeValues := by
  have htext (s : String) : ¬ (Ty.ofString s).Contains Literal.Alike .undefined := by
    rintro ⟨l, -, hl⟩
    cases l <;> cases hl
  have hnumber : ¬ Ty.number.Contains Literal.Alike .undefined := by simp [Ty.Contains]
  have hcircle : Ty.Definite (.object [⟨"kind", .ofString "circle"⟩, ⟨"r", .number⟩]) :=
    .object (by simpa using ⟨.literal _, .number⟩) (by simpa using ⟨htext _, hnumber⟩)
  have hsquare : Ty.Definite (.object [⟨"kind", .ofString "square"⟩]) :=
    .object (by simpa using .literal _) (by simpa using htext _)
  have hkind : (Ty.ofString "circle").Contains Literal.Alike (.string "circle") :=
    Ty.contains_literal (Literal.Alike.refl (.string "circle"))
  intro name typing h
  obtain ⟨rfl, rfl⟩ := get?_shapeNames h
  refine ⟨.union (by simpa using ⟨hcircle, hsquare⟩), _, rfl, Ty.contains_union.2
    ⟨_, List.mem_cons_self, Ty.contains_object.2 ⟨⟨_, _, rfl⟩, ?_⟩⟩⟩
  simpa [Value.member, List.lookup] using ⟨hkind, 1, rfl⟩

theorem fielded_circleTest (y : NodeId) : Fielded circleTest shapeNames y := by
  intro name path typing hchain hget
  obtain ⟨rfl, hpath⟩ := chain_circleTest hchain
  obtain ⟨-, rfl⟩ := get?_shapeNames hget
  rcases hpath with rfl | rfl
  · exact .here
  · refine .union fun arm harm => ?_
    simp only [List.mem_cons, List.not_mem_nil, or_false] at harm
    rcases harm with rfl | rfl <;> exact .object ⟨_, List.mem_cons_self, rfl⟩ fun _ _ _ => .here

/-- The test is false of a circle, and whatever is known then is so of it. -/
theorem narrow_decided_circle :
    circleTest.TreeShaped ∧ ∃ i m world', Check.synth { tree := circleTest } 3 shapeNames
        (.ofSize 4) = .ok (i, m) ∧
      (rules bareHost 5).evaluate ⟨circleTest, m, {}⟩ 3 shapeValues ⟨{}, 0, ()⟩ =
        .ok (.ok (.boolean false), world') ∧
      ∃ env', Check.narrow { tree := circleTest } shapeNames 3 false m = .ok (env', m) ∧
        Populated env' shapeValues := by
  have ht : circleTest.TreeShaped := Tree.treeShaped_of_ascending rfl
  obtain ⟨i, m, world', hcheck, hrun, hsteady⟩ : ∃ i m world',
      Check.synth { tree := circleTest } 3 shapeNames (.ofSize 4) = .ok (i, m) ∧
      (rules bareHost 5).evaluate ⟨circleTest, m, {}⟩ 3 shapeValues ⟨{}, 0, ()⟩ =
        .ok (.ok (.boolean false), world') ∧
      ∀ y < 4, ∃ typing, m.get? y = some (.ok typing) ∧ typing.dynamic = false := by
    refine ⟨_, _, _, show _ = Except.ok (_, _) by cbv, by cbv, fun y hy => ?_⟩
    interval_cases y <;> exact ⟨_, rfl, rfl⟩
  have hstatic : Static ⟨circleTest, m, {}⟩ shapeValues 3 := by
    refine ⟨fun hy => hsteady _ (ht.lt_size (by decide) hy), fun _ hv => ?_⟩
    cases hv with
    | chain hchain hroot =>
      obtain ⟨rfl, rfl | rfl⟩ := chain_circleTest hchain <;> cases hroot <;>
        exact fun _ h => by cases h
    | literal hkind =>
      rcases kind_circleTest hkind with h | h | h | h <;> cases h
      exact fun _ h => by cases h
    | _ => exact fun _ h => by cases h
  have hkind : circleTest.kind 3 = .ok (.binary .strictNe 1 2) := rfl
  have hchain : circleTest.Chain "o" 1 ["kind"] := .member rfl (.identifier rfl)
  have hliteral {name : String} : ¬ circleTest.RootName name 2 := by
    rintro (hkind | hkind) <;> cases hkind
  refine ⟨ht, i, m, world', hcheck, hrun, narrow_decided ht (by decide)
    (fun y _ => InterfaceMap.get?_ofSize 4 y) hcheck hkind rfl hstatic populated_shapeNames
    (fun y _ => fielded_circleTest y) (.chain hchain rfl) (.literal rfl) bareHost 5 hrun
    (fun _ h => by cases h) ?_ ?_ (fun _ _ => hliteral) ?_⟩
  · exact fun _ _ _ => ⟨fun _ h => absurd rfl h, fun h => by cases h⟩
  · rintro _ _ ⟨_, _, hchain⟩
    exact absurd hchain.rootName hliteral
  · rintro ⟨_, _, _, hleft, hright, h⟩
    cases hleft
    cases hright
    cases h

/-- The test `x !== y`. -/
def differentCodes : Tree :=
  ⟨#[⟨default, .identifier "x"⟩, ⟨default, .identifier "y"⟩, ⟨default, .binary .strictNe 0 1⟩]⟩

/-- Both names stand for one of two texts. -/
def codeNames : TypeEnv :=
  let code : Ty := .union [.ofString "a", .ofString "b"]
  (Env.empty.extend "x" (.ok (.fixed code))).extend "y" (.ok (.fixed code))

/-- The names stand for different texts. -/
def codeValues : ValueEnv := (Env.empty.extend "x" (.string "a")).extend "y" (.string "b")

/-- A union of texts does not tell which of them another text differs from. -/
theorem narrow_differentCodes_loses :
    Populated codeNames codeValues ∧ ∃ i m world' env',
      Check.synth { tree := differentCodes } 2 codeNames (.ofSize 3) = .ok (i, m) ∧
      (rules bareHost 5).evaluate ⟨differentCodes, m, {}⟩ 2 codeValues ⟨{}, 0, ()⟩ =
        .ok (.ok (.boolean true), world') ∧
      Check.narrow { tree := differentCodes } codeNames 2 true m = .ok (env', m) ∧
      ¬ Populated env' codeValues := by
  have hcode : Ty.Definite (.union [.ofString "a", .ofString "b"]) :=
    .union (by simpa using ⟨.literal _, .literal _⟩)
  have htext (s : String) : (Ty.ofString s).Contains Literal.Alike (.string s) :=
    Ty.contains_literal (Literal.Alike.refl (.string s))
  refine ⟨fun name typing h => ?_, ?_⟩
  · rw [codeNames, Env.get?_extend, Env.get?_extend] at h
    split at h
    next heq =>
      subst heq
      cases h
      exact ⟨hcode, _, rfl, Ty.contains_union.2 ⟨_, by simp, htext "b"⟩⟩
    next =>
      split at h
      next heq =>
        subst heq
        cases h
        exact ⟨hcode, _, rfl, Ty.contains_union.2 ⟨_, by simp, htext "a"⟩⟩
      next => cases h
  · obtain ⟨i, m, world', env', hcheck, hrun, hnarrow, hnever⟩ : ∃ i m world' env',
        Check.synth { tree := differentCodes } 2 codeNames (.ofSize 3) = .ok (i, m) ∧
        (rules bareHost 5).evaluate ⟨differentCodes, m, {}⟩ 2 codeValues ⟨{}, 0, ()⟩ =
          .ok (.ok (.boolean true), world') ∧
        Check.narrow { tree := differentCodes } codeNames 2 true m = .ok (env', m) ∧
        env'.get? "x" = some (.ok (.fixed .never)) :=
      ⟨_, _, _, _, show _ = Except.ok (_, _) by cbv, by cbv,
        show _ = Except.ok (_, _) by cbv, by cbv⟩
    refine ⟨i, m, world', env', hcheck, hrun, hnarrow, fun hpop => ?_⟩
    obtain ⟨-, v, -, hv⟩ := hpop "x" _ hnever
    exact hv

end ReactiveDoc.Eval
