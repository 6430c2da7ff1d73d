import ReactiveDoc.Check.Checker
import ReactiveDoc.Proofs.Env
import ReactiveDoc.Proofs.Traversal

namespace ReactiveDoc.Check

/-!
# Expressions that do not change over time

* `Steady` — the interface of a node is not dynamic.
* `SteadyParts` — which nodes below a node are steady then.
* `FromParts` — what operators, members and items make of the interfaces of their parts.
* `Explained` — an interface is made from the parts of its node, and is dynamic or these are steady.
* `steady_of_logical`, `steady_of_conditional` — what the rules of the forms make steady.
-/

/-- The node has an interface that is not dynamic.  A failed node's is not. -/
def Steady (m : InterfaceMap) (node : NodeId) : Prop :=
  ∃ interface, m.get? node = some interface ∧ interface.dynamic = false

/-- The truth of the values of a node, where the interface tells it. -/
def truthOf (m : InterfaceMap) (node : NodeId) : Option Bool :=
  (m.get? node).bind fun interface => (testOutcome interface).2

/-- Expressions that neither make nor call functions and do not write. -/
def isQuiet : NodeKind → Bool
  | .call .. | .arrow .. | .assignment .. => false
  | kind => !kind.isStatement

/-- What is steady below a steady node of a given form.  A branch that the type of the test rules
    out may change over time. -/
def SteadyParts (t : Tree) (m : InterfaceMap) (fixed : String → Prop) : NodeKind → Prop
  | .identifier name => fixed name
  | .object properties =>
      ∀ child ∈ properties, ∀ key value, t.kind child = .ok (.property key value) → Steady m child
  | .logical op left right =>
      Steady m left ∧ (truthOf m left = some (stopsAt op) ∨ Steady m right)
  | .conditional test consequent alternate =>
      Steady m test ∧ (truthOf m test ≠ some false → Steady m consequent) ∧
        (truthOf m test ≠ some true → Steady m alternate)
  | kind => ∀ child ∈ kind.children, Steady m child

/-- A typing of a node of a given form is the one of a literal, or what an operator, a member or an
    item makes of the interfaces of the parts. -/
def FromParts (m : InterfaceMap) : NodeKind → Typing → Prop
  | .undefined, typing => typing = .fixed .undefined
  | .null, typing => typing = .fixed .null
  | .literal value, typing => typing = .fixed (.literal value)
  | .unary op operand, typing =>
      ∃ i, m.get? operand = some i ∧ unaryInterface op i = .ok typing
  | .binary op left right, typing =>
      ∃ l r, m.get? left = some l ∧ m.get? right = some r ∧ binaryInterface op l r = .ok typing
  | .member object name, typing =>
      ∃ i, m.get? object = some i ∧ memberInterface i name = .ok typing
  | .index object index, typing =>
      ∃ l r, m.get? object = some l ∧ m.get? index = some r ∧ indexInterface l r = .ok typing
  | _, _ => True

/-- Below nodes in `D` there are only nodes in `D`, and all of them are quiet. -/
def QuietBelow (t : Tree) (D : NodeId → Prop) : Prop :=
  ∀ x, D x → ∀ kind, t.kind x = .ok kind → isQuiet kind = true ∧ ∀ child ∈ kind.children, D child

/-- The names that do not change over time are in `fixed`. -/
def Fixes (fixed : String → Prop) (env : TypeEnv) : Prop :=
  ∀ name typing, env.get? name = some (.ok typing) → typing.contents.dynamic = false → fixed name

/-- An interface of a node of the given form is made from its parts, and has steady parts if it is
    not dynamic. -/
structure Explained (t : Tree) (M : InterfaceMap) (fixed : String → Prop) (kind : NodeKind)
    (interface : Interface) : Prop where
  made : ∀ typing, interface = .ok typing → FromParts M kind typing
  steady : ∀ typing, interface = .ok typing → typing.dynamic = false → SteadyParts t M fixed kind

variable {t : Tree} {fixed : String → Prop} {M : InterfaceMap} {env : TypeEnv}
  {interface : Interface}

/-! ### Names -/

/-- What is known of a name's value does not make it change over time or stop it. -/
theorem Fixes.narrowName (h : Fixes fixed env) (name : String) (known : Ty) :
    Fixes fixed (narrowName env name known) := by
  unfold Check.narrowName
  cases hget : env.get? name with
  | none => exact h
  | some interface =>
    cases interface with
    | error e => exact h
    | ok typing =>
      simp only
      split
      · rename_i hcell
        intro x typing' hx hsteady
        rw [Env.get?_extend] at hx
        split at hx
        · rename_i heq
          subst heq
          cases hx
          refine h _ typing hget ?_
          -- A cell would make the narrowed type dynamic, and no other type changes the flag.
          unfold Typing.contents at hsteady ⊢
          rw [Option.isNone_iff_eq_none.mp hcell]
          split at hsteady
          · cases hsteady
          · exact hsteady
        · exact h x typing' hx hsteady
      · exact h

/-! ### Interfaces of forms -/

/-- An error that gets a place stays one, so what is placed is explained as it was. -/
theorem Explained.mapError {kind : NodeKind} {interface : Interface} {f : TypeError → TypeError}
    (h : Explained t M fixed kind interface) : Explained t M fixed kind (interface.mapError f) := by
  cases interface with
  | ok typing => exact h
  | error e => exact ⟨nofun, nofun⟩

theorem explained_error {kind : NodeKind} {e : TypeError} : Explained t M fixed kind (.error e) :=
  ⟨nofun, nofun⟩

section

variable {i l r test consequent alternate : Interface} {typing : Typing}

theorem dynamic_of_read (h : i.map Typing.read = .ok typing) : typing.dynamic = i.dynamic := by
  cases i with
  | error e => cases h
  | ok typing' =>
    cases h
    rfl

theorem dynamic_of_unary {op : UnaryOp} (h : unaryInterface op i = .ok typing) :
    typing.dynamic = i.dynamic := by
  unfold unaryInterface at h
  cases hty : unaryType op i.ty with
  | error e =>
    rw [hty] at h
    cases h
  | ok ty =>
    rw [hty] at h
    cases h
    rfl

theorem dynamic_of_binary {op : BinaryOp} (h : binaryInterface op l r = .ok typing) :
    typing.dynamic = (l.dynamic || r.dynamic) := by
  cases l with
  | error e =>
    cases r with
    | error e' => cases h
    | ok other =>
      cases h
      rfl
  | ok l =>
    cases r with
    | error e =>
      cases h
      exact (Bool.or_false _).symm
    | ok r =>
      have h : (binaryType op l.ty r.ty).map (fun ty => { ty, dynamic := l.dynamic || r.dynamic }) =
        .ok typing := h
      cases hty : binaryType op l.ty r.ty with
      | error e =>
        rw [hty] at h
        cases h
      | ok ty =>
        rw [hty] at h
        cases h
        rfl

/-- The type that an operation finds is the one of its interface. -/
theorem ty_of_map {e : Except TypeError Ty} {f : Ty → Typing} (hf : ∀ t, (f t).ty = t)
    (h : e.map f = .ok typing) : e = .ok typing.ty := by
  cases e with
  | error e => cases h
  | ok t =>
    cases h
    rw [hf]

theorem unaryType_of_interface {op : UnaryOp} {operand : Typing}
    (h : unaryInterface op (.ok operand) = .ok typing) : unaryType op operand.ty = .ok typing.ty :=
  ty_of_map (fun _ => rfl) h

theorem binaryType_of_interface {op : BinaryOp} {l r : Typing}
    (h : binaryInterface op (.ok l) (.ok r) = .ok typing) :
    binaryType op l.ty r.ty = .ok typing.ty :=
  ty_of_map (fun _ => rfl) h

theorem memberType_of_interface {object : Typing} {name : String}
    (h : memberInterface (.ok object) name = .ok typing) :
    ∃ access, memberType object.ty name = .ok access ∧ access.ty = typing.ty := by
  obtain ⟨_, hobject, h⟩ := Except.bind_eq_ok_iff.1 h
  cases hobject
  obtain ⟨access, haccess, h⟩ := Except.bind_eq_ok_iff.1 h
  cases h
  exact ⟨access, haccess, rfl⟩

theorem indexType_of_interface {l r : Typing}
    (h : indexInterface (.ok l) (.ok r) = .ok typing) : indexType l.ty r.ty = .ok typing.ty := by
  obtain ⟨_, hobject, h⟩ := Except.bind_eq_ok_iff.1 h
  cases hobject
  obtain ⟨_, hindex, h⟩ := Except.bind_eq_ok_iff.1 h
  cases hindex
  obtain ⟨ty, hty, h⟩ := Except.bind_eq_ok_iff.1 h
  cases h
  exact hty

/-- Where the left operand is known to stop the operation the right one may change over time. -/
theorem steady_of_logical {op : LogicalOp} (h : logicalInterface op l r = .ok typing)
    (hsteady : typing.dynamic = false) :
    l.dynamic = false ∧ ((testOutcome l).2 = some (stopsAt op) ∨ r.dynamic = false) := by
  cases l with
  | error e => exact ⟨rfl, .inr (dynamic_of_read h ▸ hsteady)⟩
  | ok left =>
    show left.dynamic = false ∧ (left.ty.truthiness = some (stopsAt op) ∨ r.dynamic = false)
    have hboth (h : (left.dynamic || r.dynamic) = false) : left.dynamic = false ∧
        (left.ty.truthiness = some (stopsAt op) ∨ r.dynamic = false) :=
      ⟨(Bool.or_eq_false_iff.mp h).1, .inr (Bool.or_eq_false_iff.mp h).2⟩
    unfold logicalInterface at h
    have hread : left.read.ty.truthiness = left.ty.truthiness := rfl
    cases htruth : left.ty.truthiness with
    | none =>
      simp only [hread, htruth] at h
      cases r with
      | error e =>
        cases h
        exact ⟨hsteady, .inr rfl⟩
      | ok right =>
        cases h
        exact htruth ▸ hboth hsteady
    | some truth =>
      simp only [hread, htruth] at h
      split at h
      · rename_i hstops
        cases h
        exact ⟨hsteady, .inl (congrArg some hstops)⟩
      · cases r with
        | error e =>
          cases h
          exact ⟨hsteady, .inr rfl⟩
        | ok right =>
          cases h
          exact htruth ▸ hboth hsteady

/-- A branch that the type of the test rules out may change over time. -/
theorem steady_of_conditional (h : conditionalInterface test consequent alternate = .ok typing)
    (hsteady : typing.dynamic = false) :
    test.dynamic = false ∧ ((testOutcome test).2 ≠ some false → consequent.dynamic = false) ∧
      ((testOutcome test).2 ≠ some true → alternate.dynamic = false) := by
  have htest : (testOutcome test).1 = test.dynamic := by cases test <;> rfl
  unfold conditionalInterface at h
  rw [← htest]
  generalize testOutcome test = outcome at h ⊢
  obtain ⟨dynamic, truth⟩ := outcome
  -- Without a known truth both branches count; with one, only the branch that is taken.
  cases truth with
  | none =>
    cases consequent with
    | error e =>
      cases alternate with
      | error e' => cases h
      | ok a =>
        cases h
        simpa [Interface.dynamic, and_comm] using hsteady
    | ok c =>
      cases alternate with
      | error e =>
        cases h
        simpa [Interface.dynamic, and_comm] using hsteady
      | ok a =>
        cases h
        simpa [Interface.dynamic, and_comm, and_assoc] using hsteady
  | some truth =>
    cases truth with
    | true =>
      cases consequent with
      | error e => cases h
      | ok c =>
        cases h
        simpa [Interface.dynamic, and_comm] using hsteady
    | false =>
      cases alternate with
      | error e => cases h
      | ok a =>
        cases h
        simpa [Interface.dynamic, and_comm] using hsteady

theorem steady_of_conditionalDynamic
    (h : conditionalDynamic test consequent alternate = false) :
    test.dynamic = false ∧ ((testOutcome test).2 ≠ some false → consequent.dynamic = false) ∧
      ((testOutcome test).2 ≠ some true → alternate.dynamic = false) := by
  have htest : (testOutcome test).1 = test.dynamic := by cases test <;> rfl
  unfold conditionalDynamic at h
  rw [← htest]
  generalize testOutcome test = outcome at h ⊢
  obtain ⟨dynamic, truth⟩ := outcome
  cases truth with
  | none => simpa using h
  | some truth => cases truth <;> simpa using h

theorem steady_of_member {name : String} (h : memberInterface i name = .ok typing)
    (hsteady : typing.dynamic = false) : i.dynamic = false := by
  obtain ⟨object, hobject, h⟩ := Except.bind_eq_ok_iff.mp h
  obtain ⟨access, -, h⟩ := Except.bind_eq_ok_iff.mp h
  cases h
  rw [hobject]
  exact (Bool.or_eq_false_iff.mp hsteady).1

theorem steady_of_index (h : indexInterface l r = .ok typing) (hsteady : typing.dynamic = false) :
    l.dynamic = false ∧ r.dynamic = false := by
  obtain ⟨object, hobject, h⟩ := Except.bind_eq_ok_iff.mp h
  obtain ⟨index, hindex, h⟩ := Except.bind_eq_ok_iff.mp h
  obtain ⟨ty, -, h⟩ := Except.bind_eq_ok_iff.mp h
  cases h
  rw [hobject, hindex]
  exact Bool.or_eq_false_iff.mp hsteady

/-- A property is steady as its value is. -/
theorem explained_property {key : String} {value : NodeId} (h : M.get? value = some i) :
    Explained t M fixed (.property key value) (i.map Typing.read) := by
  refine ⟨fun _ _ => trivial, fun typing hok hsteady child hchild => ?_⟩
  obtain rfl := List.mem_singleton.mp hchild
  exact ⟨i, h, dynamic_of_read hok ▸ hsteady⟩

/-- The truth of a test as its interface tells it. -/
theorem truthOf_eq {node : NodeId} (h : M.get? node = some i) : truthOf M node = (testOutcome i).2 := by
  unfold truthOf
  rw [h]
  rfl

/-- Where no interface is dynamic all nodes are steady. -/
theorem steady_of_any {nodes : List NodeId} {interfaces : List Interface}
    (h : List.Forall₂ (fun node i => M.get? node = some i) nodes interfaces)
    (hsteady : interfaces.any Interface.dynamic = false) : ∀ node ∈ nodes, Steady M node := by
  induction h with
  | nil => exact fun _ hnode => nomatch hnode
  | cons hget _ ih =>
    obtain ⟨hfirst, hrest⟩ := Bool.or_eq_false_iff.mp hsteady
    exact List.forall_mem_cons.mpr ⟨⟨_, hget, hfirst⟩, ih hrest⟩

/-- Where a type is expected of a form that is not taken apart, its flag stays. -/
theorem explained_expectType {kind : NodeKind} {expected : Ty}
    (h : Explained t M fixed kind interface) :
    Explained t M fixed kind (expectType interface expected) := by
  cases interface with
  | error e => exact h
  | ok typing =>
    unfold expectType
    dsimp only
    split
    · exact h
    · exact explained_error

end

end ReactiveDoc.Check
