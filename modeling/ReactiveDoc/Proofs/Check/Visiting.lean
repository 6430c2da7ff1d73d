import ReactiveDoc.Proofs.Check.Keeping
import ReactiveDoc.Proofs.Syntax.Arena

namespace ReactiveDoc.Check

/-!
# Which nodes the checker visits

* `Misplaced` — statements that stand where expressions belong, and members of objects that are no
  properties.  Nothing below them is looked at.
* `visited_iff` — the nodes that are visited are those that are not `Hidden` below a misplaced one.
* `Noted` — what holds of a recorded interface: the parts of its node are recorded, its error has a
  place, and a misplaced node is reported as one.
-/

open InterfaceMap (Extends)

variable {t : Tree} {s : Setting} {root x y node : NodeId} {kind : NodeKind} {M m : InterfaceMap}
  {U : NodeId → String → Prop} {P : Prop} {env env' : TypeEnv} {interface : Interface}

/-! ### Nodes out of place -/

/-- The node is listed among the properties of an object at or below `root`, but is none. -/
def Stray (t : Tree) (root x : NodeId) : Prop :=
  ∃ object properties, t.AtOrBelow root object ∧ t.kind object = .ok (.object properties) ∧
    x ∈ properties ∧ ∀ key value, t.kind x ≠ .ok (.property key value)

/-- A statement that is not `proper`, or a member of an object that is no property. -/
def Misplaced (t : Tree) (root : NodeId) (proper : NodeId → Prop) (x : NodeId) : Prop :=
  (¬ proper x ∧ ∃ kind, t.kind x = .ok kind ∧ kind.isStatement = true) ∨ Stray t root x

/-- The node is below a misplaced one. -/
def Hidden (t : Tree) (root : NodeId) (proper : NodeId → Prop) (x : NodeId) : Prop :=
  ∃ y, t.AtOrBelow root y ∧ Misplaced t root proper y ∧ t.Below y x

/-- No statement is where it belongs. -/
abbrev noStatement : NodeId → Prop := fun _ => False

/-- The node is reached from `root` through expressions and properties. -/
inductive Entered (t : Tree) (root : NodeId) : NodeId → Prop
  | root : Entered t root root
  | child {x child : NodeId} {kind : NodeKind} (hx : Entered t root x) (hkind : t.kind x = .ok kind)
      (hexpression : kind.isStatement = false) (hchild : child ∈ kind.children)
      (hproperty : ∀ properties, kind = .object properties →
        ∃ key value, t.kind child = .ok (.property key value)) : Entered t root child

/-- The node is reached from `root`, or is listed in an object that is. -/
def Visited (t : Tree) (root x : NodeId) : Prop :=
  Entered t root x ∨
    ∃ object properties, Entered t root object ∧ t.kind object = .ok (.object properties) ∧
      x ∈ properties

namespace Entered

theorem atOrBelow (h : Entered t root x) : t.AtOrBelow root x := by
  induction h with
  | root => exact .refl
  | child _ hkind _ hchild _ ih => exact ih.tail ⟨_, hkind, hchild⟩

theorem not_stray (ht : t.TreeShaped) (h : Entered t root x) : ¬ Stray t root x := by
  rintro ⟨object, properties, hobject, hkind, hmem, hnone⟩
  have hchild : t.ChildOf object x := ⟨_, hkind, hmem⟩
  cases h with
  | root => exact ht.not_atOrBelow_of_childOf hchild hobject
  | child _ hkind' _ hchild' hproperty =>
    obtain rfl := ht.parent _ _ _ hchild ⟨_, hkind', hchild'⟩
    obtain rfl := Except.ok.inj (hkind.symm.trans hkind')
    obtain ⟨key, value, hx⟩ := hproperty properties rfl
    exact hnone key value hx

/-- A node that is reached and has parts is in its place. -/
theorem not_misplaced (ht : t.TreeShaped) (h : Entered t root x) (hkind : t.kind x = .ok kind)
    (hexpression : kind.isStatement = false) : ¬ Misplaced t root noStatement x := by
  rintro (⟨-, kind', hkind', hstatement⟩ | hstray)
  · obtain rfl := Except.ok.inj (hkind.symm.trans hkind')
    exact Bool.false_ne_true (hexpression.symm.trans hstatement)
  · exact h.not_stray ht hstray

theorem not_below_misplaced (ht : t.TreeShaped) (h : Entered t root x) (hy : t.AtOrBelow root y)
    (hmisplaced : Misplaced t root noStatement y) : ¬ t.Below y x := by
  induction h with
  | root => exact fun hbelow => ht.acyclic root (.trans_right hy hbelow)
  | child hx hkind hexpression hchild _ ih =>
    intro hbelow
    have habove := ht.atOrBelow_parent ⟨_, hkind, hchild⟩ hbelow
    rcases Relation.reflTransGen_iff_eq_or_transGen.mp habove with rfl | hbelow
    · exact hx.not_misplaced ht hkind hexpression hmisplaced
    · exact ih hbelow

end Entered

theorem Visited.atOrBelow (h : Visited t root x) : t.AtOrBelow root x := by
  rcases h with h | ⟨object, properties, hobject, hkind, hx⟩
  · exact h.atOrBelow
  · exact hobject.atOrBelow.tail ⟨_, hkind, hx⟩

/-- The nodes that are visited are those below no misplaced node. -/
theorem visited_iff (ht : t.TreeShaped) (hx : t.AtOrBelow root x) :
    Visited t root x ↔ ¬ Hidden t root noStatement x := by
  constructor
  · rintro (h | ⟨object, properties, hobject, hkind, hmem⟩) ⟨y, hy, hmisplaced, hbelow⟩
    · exact h.not_below_misplaced ht hy hmisplaced hbelow
    · have habove := ht.atOrBelow_parent ⟨_, hkind, hmem⟩ hbelow
      rcases Relation.reflTransGen_iff_eq_or_transGen.mp habove with rfl | hbelow
      · exact hobject.not_misplaced ht hkind rfl hmisplaced
      · exact hobject.not_below_misplaced ht hy hmisplaced hbelow
  · intro hnone
    induction hx with
    | refl => exact .inl .root
    | @tail parent child hparent hchild ih =>
      obtain ⟨kind, hkind, hmem⟩ := id hchild
      have hplaced : ¬ Misplaced t root noStatement parent :=
        fun hmisplaced => hnone ⟨parent, hparent, hmisplaced, .single hchild⟩
      have hparentVisited := ih fun ⟨y, hy, hmisplaced, hbelow⟩ =>
        hnone ⟨y, hy, hmisplaced, hbelow.tail hchild⟩
      have hexpression : kind.isStatement = false := by
        cases hstatement : kind.isStatement with
        | false => rfl
        | true => exact absurd (.inl ⟨id, kind, hkind, hstatement⟩) hplaced
      have hentered : Entered t root parent := by
        rcases hparentVisited with h | ⟨object, properties, hobject, hkindObject, hproperty⟩
        · exact h
        · refine .child hobject hkindObject rfl hproperty fun _ _ => ?_
          by_contra hnot
          push Not at hnot
          exact hplaced (.inr ⟨object, properties, hobject.atOrBelow, hkindObject, hproperty, hnot⟩)
      by_cases hobject : ∃ properties, kind = .object properties
      · obtain ⟨properties, rfl⟩ := hobject
        exact .inr ⟨parent, properties, hentered, hkind, hmem⟩
      · exact .inl (.child hentered hkind hexpression hmem fun properties heq =>
          absurd ⟨properties, heq⟩ hobject)

/-! ### Names that are not bound -/

/-- What `U` says of names at a node it says of them at the node above, unless an arrow stands
    between that binds them. -/
structure Inherited (t : Tree) (U : NodeId → String → Prop) : Prop where
  child : ∀ {x child name}, t.ChildOf x child → U child name → U x name
  body : ∀ {x params body name}, t.kind x = .ok (.arrow params body) → U body name →
    name ∉ params.map Param.name

/-- The names that `U` has at a node are not bound there. -/
def Scoped (U : NodeId → String → Prop) (node : NodeId) (env : TypeEnv) : Prop :=
  ∀ name, U node name → env.get? name = none

/-- Names that are not bound stay so. -/
def Narrows (env env' : TypeEnv) : Prop := ∀ name, env.get? name = none → env'.get? name = none

theorem Narrows.trans {env'' : TypeEnv} (h : Narrows env env') (h' : Narrows env' env'') :
    Narrows env env'' := fun name hname => h' name (h name hname)

theorem narrows_narrowName (env : TypeEnv) (name : String) (known : Ty) :
    Narrows env (narrowName env name known) := by
  intro x hx
  unfold narrowName
  split
  · rename_i hbound
    split
    · rw [Env.get?_extend, if_neg, hx]
      rintro rfl
      rw [hx] at hbound
      cases hbound
    · exact hx
  · exact hx

namespace Scoped

theorem child (hU : Inherited t U) (h : Scoped U x env) (hchild : t.ChildOf x y) : Scoped U y env :=
  fun name hname => h name (hU.child hchild hname)

theorem narrowed (h : Scoped U node env) (hnarrows : Narrows env env') : Scoped U node env' :=
  fun name hname => hnarrows name (h name hname)

theorem bodyEnv (hU : Inherited t U) (h : Scoped U x env) {params : List Param} {body : NodeId}
    (hkind : t.kind x = .ok (.arrow params body)) (types : List Ty) :
    Scoped U body (bodyEnv env params types) := by
  intro name hname
  have hnot := hU.body hkind hname
  unfold Check.bodyEnv
  rw [Env.get?_extendAll_of_not_mem, Env.get?_map, h name (hU.child ⟨_, hkind, List.mem_cons_self⟩ hname)]
  · rfl
  · rw [List.map_map]
    intro hmem
    obtain ⟨⟨param, ty⟩, hpair, rfl⟩ := List.mem_map.mp hmem
    exact hnot (List.mem_map_of_mem (List.of_mem_zip hpair).1)

end Scoped

/-! ### What is recorded -/

/-- The node has an interface in the end. -/
abbrev Recorded (M : InterfaceMap) (x : NodeId) : Prop := ∃ i, M.get? x = some i

/-- What holds of the interface of a node at or below `root`, in view of what is recorded in the
    end. -/
structure Noted (t : Tree) (root : NodeId) (U : NodeId → String → Prop) (M : InterfaceMap)
    (x : NodeId) (i : Interface) : Prop where
  visited : Visited t root x
  parts : Entered t root x → ∀ kind, t.kind x = .ok kind → kind.isStatement = false →
    ∀ child ∈ kind.children, Recorded M child
  placed : ∀ e, i = .error e → e.span.isSome
  misplaced : Misplaced t root noStatement x → ∃ span, t.span x = .ok span ∧
    i = .error { kind := .notAnExpression, span := some span }
  unbound : ∀ name, t.kind x = .ok (.identifier name) → U x name → ∃ e, i = .error e

/-- All that is recorded at and below `root` is as it should be. -/
def Notes (t : Tree) (root : NodeId) (U : NodeId → String → Prop) (M m : InterfaceMap) : Prop :=
  ∀ x i, t.AtOrBelow root x → m.get? x = some i → Noted t root U M x i

theorem Notes.insert (h : Notes t root U M m) (hget : m.get? node = none)
    (hnoted : Noted t root U M node interface) : Notes t root U M (m.insert node interface) := by
  intro x i hx hi
  rw [InterfaceMap.get?_insert_of_none hget] at hi
  split at hi
  · rename_i heq
    subst heq
    cases hi
    exact hnoted
  · exact h x i hx hi

/-- What the rule of a form finds out before it is recorded. -/
structure Formed (U : NodeId → String → Prop) (M : InterfaceMap) (node : NodeId) (kind : NodeKind)
    (i : Interface) : Prop where
  parts : kind.isStatement = false → ∀ child ∈ kind.children, Recorded M child
  statement : kind.isStatement = true → i = .error { kind := .notAnExpression }
  unbound : ∀ name, kind = .identifier name → U node name → ∃ e, i = .error e

theorem isSome_span_located (e : TypeError) (span : Span) : (e.located span).span.isSome := by
  unfold TypeError.located
  split
  · rfl
  · rename_i hspan
    cases h : e.span with
    | none => simp [h] at hspan
    | some _ => simp

theorem Formed.noted (ht : t.TreeShaped) (h : Formed U M node kind interface)
    (hnode : Entered t root node) (hkind : t.kind node = .ok kind) {span : Span}
    (hspan : t.span node = .ok span) :
    Noted t root U M node (interface.mapError fun e => e.located span) where
  visited := .inl hnode
  parts _ kind' hkind' := by
    obtain rfl := Except.ok.inj (hkind.symm.trans hkind')
    exact h.parts
  placed e he := by
    cases interface with
    | ok typing => cases he
    | error e' =>
      cases he
      exact isSome_span_located e' span
  misplaced hmisplaced := by
    rcases hmisplaced with ⟨-, kind', hkind', hstatement⟩ | hstray
    · obtain rfl := Except.ok.inj (hkind.symm.trans hkind')
      rw [h.statement hstatement]
      exact ⟨span, hspan, rfl⟩
    · exact absurd hstray (hnode.not_stray ht)
  unbound name hkind' hname := by
    obtain rfl := Except.ok.inj (hkind.symm.trans hkind')
    obtain ⟨e, rfl⟩ := h.unbound name rfl hname
    exact ⟨_, rfl⟩

end ReactiveDoc.Check
