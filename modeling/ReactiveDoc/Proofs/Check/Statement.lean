import ReactiveDoc.Proofs.Check.Locality
import ReactiveDoc.Proofs.Traversal
import ReactiveDoc.Syntax.Reference

namespace ReactiveDoc.Check

/-!
# What the check of a statement depends on, and what it binds

* `common_of_references` — a node whose uses can be found has everything below it in common with
  any tree that holds the same nodes.
* `statement_alike` — the check of a statement sees nothing else than that.
* `Binds` — what a statement binds is what was recorded for it, or comes from a module.
* `statement_binds` — the check of a statement binds its names so.
-/

variable {s s₀ : Setting} {D : NodeId → Prop} {N : String → Prop} {env env₀ : TypeEnv}
  {depth : Nat} {node : NodeId}

/-! ### Nodes in common -/

/-- `D` is closed under the nodes below, and the second tree has the same nodes there. -/
def SharedBelow (t t₀ : Tree) (D : NodeId → Prop) : Prop :=
  ∀ x, D x → ∀ node, t.node x = .ok node →
    t₀.node x = .ok node ∧ ∀ child ∈ node.kind.children, D child

theorem sharedBelow_self (t : Tree) : SharedBelow t t fun _ => True :=
  fun _ _ _ hnode => ⟨hnode, fun _ _ => trivial⟩

/-- A node with a form is there. -/
theorem node_eq_ok_of_kind {t : Tree} {kind : NodeKind} (h : t.kind node = .ok kind) :
    ∃ n, t.node node = .ok n ∧ n.kind = kind := by
  unfold Tree.kind at h
  cases hn : t.node node with
  | error fault =>
    rw [hn] at h
    cases h
  | ok n =>
    rw [hn] at h
    cases h
    exact ⟨n, rfl, rfl⟩

theorem span_eq_ok_of_kind {t : Tree} {kind : NodeKind} (h : t.kind node = .ok kind) :
    ∃ span, t.span node = .ok span := by
  obtain ⟨n, hn, -⟩ := node_eq_ok_of_kind h
  exact ⟨n.span, by simp [Tree.span, hn, Except.map]⟩

/-- The walk for uses visits what needs to be in common. -/
theorem common_of_references {t t₀ : Tree} (hshared : SharedBelow t t₀ D) {bound : List String}
    {deferred : Bool} {references : List Reference} (hnode : D node)
    (h : t.referencesWithin bound deferred depth node = .ok references)
    (hbound : ∀ x ∈ bound, N x) (hnames : ∀ reference ∈ references, N reference.name) :
    Common t t₀ D depth N node := by
  induction depth generalizing node bound deferred references N with
  | zero => cases h
  | succ depth ih =>
    obtain ⟨kind, hkind, h⟩ := Except.bind_eq_ok_iff.mp h
    obtain ⟨n, hn, rfl⟩ := node_eq_ok_of_kind hkind
    obtain ⟨hn₀, hchildren⟩ := hshared node hnode n hn
    refine ⟨hnode, n, hn, hn₀, ?_⟩
    -- All forms but names and arrows pass their parts on with the same names bound.
    have hparts (hmapM : (do
        let uses ← n.kind.children.mapM (t.referencesWithin bound deferred depth)
        pure uses.flatten) = Except.ok references) :
        ∀ child ∈ n.kind.children, Common t t₀ D depth N child := by
      intro child hchild
      obtain ⟨uses, huses, hflat⟩ := Except.bind_eq_ok_iff.mp hmapM
      cases hflat
      obtain ⟨i, hi⟩ := List.getElem?_of_mem hchild
      have hi' : i < uses.length := by
        rw [← length_of_mapM_ok huses]
        exact (List.getElem?_eq_some_iff.mp hi).1
      obtain ⟨x, hx, hok⟩ := (getElem?_of_mapM_ok huses).mp (List.getElem?_eq_getElem hi')
      obtain rfl : x = child := Option.some.inj (hx.symm.trans hi)
      refine ih (hchildren x hchild) hok hbound fun reference hreference => hnames reference ?_
      exact List.mem_flatten.mpr ⟨_, List.getElem_mem hi', hreference⟩
    cases hform : n.kind with
    | identifier name =>
      rw [hform] at h
      cases h
      show N name
      by_cases hmem : name ∈ bound
      · exact hbound name hmem
      · refine hnames ⟨name, node, deferred⟩ ?_
        simp [hmem]
    | arrow params body =>
      rw [hform] at h hchildren
      refine ih (hchildren body List.mem_cons_self) h (fun x hx => ?_) fun reference hmem => ?_
      · exact (List.mem_append.mp hx).imp id (hbound x)
      · exact .inr (hnames reference hmem)
    | _ =>
      rw [hform] at h hparts
      exact hparts h

/-! ### Statements -/

/-- Both environments get the same bindings, of these names. -/
def SameBindings (names : List String) (env env₀ next next₀ : TypeEnv) : Prop :=
  ∃ bindings : List (String × Interface), bindings.map Prod.fst = names ∧
    next = env.extendAll bindings ∧ next₀ = env₀.extendAll bindings

/-- The module that a statement imports is the same in both settings. -/
def SameImport (s s₀ : Setting) (kind : NodeKind) : Prop :=
  ∀ path specifiers, kind = .importing path specifiers →
    s.modules.lookup path = s₀.modules.lookup path

theorem names_importInterfaces (modules : ModuleTypes) (path : String) (span : Span)
    (specifiers : List ImportSpecifier) :
    (importInterfaces modules path span specifiers).2.map Prod.fst =
      specifiers.map ImportSpecifier.bound := by
  unfold importInterfaces
  split
  · exact List.map_map
  · exact List.map_map

/-- The check of a statement sees nothing but its nodes, the names used there, and the module that
    it imports. -/
theorem statement_alike {kind : NodeKind} (hs : Comparable s s₀ depth)
    (h : Common s.tree s₀.tree D depth N node) (henv : SameFor N env env₀)
    (hkind : s.tree.kind node = .ok kind) (himport : SameImport s s₀ kind) :
    Alike D (SameBindings kind.definedNames env env₀) (statement s node env)
      (statement s₀ node env₀) := by
  cases depth with
  | zero => exact h.elim
  | succ depth =>
    have hr : RulesAlike D (Common s.tree s₀.tree D (depth + 1)) (treeRules s) (treeRules s₀) :=
      rules_alike hs hs.le_limit hs.le_limit₀
    obtain ⟨kind', hkind', hkind₀, hparts⟩ := h.kind
    obtain rfl : kind' = kind := Except.ok.inj (hkind'.symm.trans hkind)
    -- An expression binds nothing, and a binding its one name.
    have hexpression : Alike D (SameBindings [] env env₀)
        (do let _ ← synth s node env; pure env) (do let _ ← synth s₀ node env₀; pure env₀) :=
      (hr.synth h henv).bind_eq fun _ => alike_pure ⟨[], rfl, rfl, rfl⟩
    have hbinding (name : String) {x x₀ : CheckM Interface} (hx : Alike D Eq x x₀) :
        Alike D (SameBindings [name] env env₀)
          (do let interface ← record s node (← x); pure (env.extend name interface))
          (do let interface ← record s₀ node (← x₀); pure (env₀.extend name interface)) :=
      hx.bind_eq fun interface => (h.record interface).bind_eq fun interface =>
        alike_pure ⟨[(name, interface)], rfl, rfl, rfl⟩
    unfold statement
    rw [kindOf_bind hkind, kindOf_bind hkind₀]
    cases kind' with
    | constBinding name written? value exported =>
      have hvalue := (hparts value List.mem_cons_self).mono (Nat.le_succ depth)
      refine hbinding name ?_
      cases written? with
      | some written => exact (hr.check _ hvalue henv).bind_eq fun _ => alike_pure rfl
      | none => exact (hr.synth hvalue henv).bind_eq fun _ => alike_pure rfl
    | letBinding name written? value mutability exported =>
      have hvalue := (hparts value List.mem_cons_self).mono (Nat.le_succ depth)
      refine hbinding name ?_
      cases written? with
      | some written => exact (hr.check _ hvalue henv).bind_eq fun _ => alike_pure rfl
      | none => exact (hr.synth hvalue henv).bind_eq fun _ => alike_pure rfl
    | importing path specifiers =>
      obtain ⟨span, hspan, hspan₀⟩ := h.span
      simp only
      rw [liftM_bind hspan, liftM_bind hspan₀]
      have hsame : importInterfaces s.modules path span specifiers =
          importInterfaces s₀.modules path span specifiers := by
        unfold importInterfaces
        rw [himport path specifiers rfl]
      rw [hsame]
      refine (h.mark _).bind_eq fun _ => alike_pure ⟨_, ?_, rfl, rfl⟩
      exact names_importInterfaces s₀.modules path span specifiers
    | _ => exact hexpression

/-! ### What a statement binds -/

/-- A statement at `node` makes the bindings: those of a `const` or `let` are what is recorded for
    it, and those of an import come from its module. -/
def Binds (s : Setting) (m : InterfaceMap) (node : NodeId) (bindings : List (String × Interface)) :
    NodeKind → Prop
  | .constBinding name .. | .letBinding name .. =>
      ∃ interface, m.get? node = some interface ∧ bindings = [(name, interface)]
  | .importing path specifiers =>
      ∃ span, s.tree.span node = .ok span ∧
        bindings = (importInterfaces s.modules path span specifiers).2
  | _ => bindings = []

theorem Binds.names {m : InterfaceMap} {bindings : List (String × Interface)} {kind : NodeKind}
    (h : Binds s m node bindings kind) : bindings.map Prod.fst = kind.definedNames := by
  cases kind with
  | constBinding | letBinding =>
    obtain ⟨interface, -, rfl⟩ := h
    rfl
  | importing path specifiers =>
    obtain ⟨span, -, rfl⟩ := h
    exact names_importInterfaces s.modules path span specifiers
  | _ =>
    obtain rfl : bindings = [] := h
    rfl

/-- A step that succeeds was preceded by one that did. -/
theorem bind_eq_ok {α β : Type} {x : CheckM α} {f : α → CheckM β} {m m'' : InterfaceMap} {b : β}
    (h : (x >>= f) m = .ok (b, m'')) : ∃ a m', x m = .ok (a, m') ∧ f a m' = .ok (b, m'') := by
  obtain ⟨⟨a, m'⟩, hx, hf⟩ := Except.bind_eq_ok_iff.mp h
  exact ⟨a, m', hx, hf⟩

/-- What recording answers is what is held afterwards. -/
theorem held_of_record {m m' : InterfaceMap} {interface held : Interface}
    (h : record s node interface m = .ok (held, m')) : m'.get? node = some held := by
  obtain ⟨placed, m₁, -, h⟩ := bind_eq_ok h
  have hrecord : m₁.record node placed = (held, m') := Except.ok.inj h
  unfold InterfaceMap.record at hrecord
  cases hget : m₁.get? node with
  | some kept =>
    rw [hget] at hrecord
    cases hrecord
    exact hget
  | none =>
    rw [hget] at hrecord
    cases hrecord
    rw [InterfaceMap.get?_insert_of_none hget, if_pos rfl]

theorem statement_binds {kind : NodeKind} (hkind : s.tree.kind node = .ok kind)
    {m m' : InterfaceMap} {next : TypeEnv} (h : statement s node env m = .ok (next, m')) :
    ∃ bindings, Binds s m' node bindings kind ∧ next = env.extendAll bindings := by
  unfold statement at h
  rw [kindOf_bind hkind] at h
  cases kind with
  | constBinding name written? value exported =>
    obtain ⟨interface, m₁, -, h⟩ := bind_eq_ok h
    obtain ⟨held, m₂, hrecord, h⟩ := bind_eq_ok h
    cases h
    exact ⟨_, ⟨held, held_of_record hrecord, rfl⟩, rfl⟩
  | letBinding name written? value mutability exported =>
    obtain ⟨interface, m₁, -, h⟩ := bind_eq_ok h
    obtain ⟨held, m₂, hrecord, h⟩ := bind_eq_ok h
    cases h
    exact ⟨_, ⟨held, held_of_record hrecord, rfl⟩, rfl⟩
  | importing path specifiers =>
    obtain ⟨span, m₁, hspan, h⟩ := bind_eq_ok h
    obtain ⟨-, m₂, -, h⟩ := bind_eq_ok h
    cases h
    refine ⟨_, ⟨span, ?_, rfl⟩, rfl⟩
    cases hok : s.tree.span node with
    | ok span' => rw [hok] at hspan; cases hspan; rfl
    | error fault => rw [hok] at hspan; cases hspan
  | _ =>
    obtain ⟨-, m₁, -, h⟩ := bind_eq_ok h
    cases h
    exact ⟨[], rfl, rfl⟩

end ReactiveDoc.Check
