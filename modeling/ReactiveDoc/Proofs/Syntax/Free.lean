import ReactiveDoc.Proofs.Traversal
import ReactiveDoc.Syntax.Reference

namespace ReactiveDoc.Tree

/-!
# Free uses of names

* `Tree.FreeAt`, `Tree.Free` — a name is used at or below a node, and no arrow on the way binds it.
* `Tree.Immediate` — a node stands at or below another one, outside arrows.
* `Tree.FreeUse` — a name is used freely, outside arrows or in the body of one.
* `Tree.exists_reference_iff` — `Tree.references` lists the free uses, and nothing else.
* `Tree.exists_deferred_iff` — those that are deferred stand in the body of an arrow.
-/

variable {t : Tree} {bound : List String} {deferred : Bool} {fuel : Nat} {x root : NodeId}
  {uses : List Reference} {name : String}

/-! ### Free names -/

/-- The node `use` is a name that stands at or below a node, and no arrow on the way binds it. -/
inductive FreeAt (t : Tree) (name : String) (use : NodeId) : NodeId → Prop
  | here (hkind : t.kind use = .ok (.identifier name)) : FreeAt t name use use
  | child {x child : NodeId} {kind : NodeKind} (hkind : t.kind x = .ok kind)
      (harrow : ∀ params body, kind ≠ .arrow params body) (hchild : child ∈ kind.children)
      (h : FreeAt t name use child) : FreeAt t name use x
  | body {x body : NodeId} {params : List Param} (hkind : t.kind x = .ok (.arrow params body))
      (hname : name ∉ params.map Param.name) (h : FreeAt t name use body) : FreeAt t name use x

/-- The name is used freely at or below a node. -/
def Free (t : Tree) (name : String) (x : NodeId) : Prop := ∃ use, t.FreeAt name use x

theorem Free.here (hkind : t.kind x = .ok (.identifier name)) : t.Free name x := ⟨x, .here hkind⟩

theorem Free.below {kind : NodeKind} {child : NodeId} (hkind : t.kind x = .ok kind)
    (harrow : ∀ params body, kind ≠ .arrow params body) (hchild : child ∈ kind.children)
    (h : t.Free name child) : t.Free name x := by
  obtain ⟨use, h⟩ := h
  exact ⟨use, .child hkind harrow hchild h⟩

theorem Free.body {params : List Param} {body : NodeId}
    (hkind : t.kind x = .ok (.arrow params body)) (hname : name ∉ params.map Param.name)
    (h : t.Free name body) : t.Free name x := by
  obtain ⟨use, h⟩ := h
  exact ⟨use, .body hkind hname h⟩

/-- A name uses itself only. -/
theorem Free.eq_of_identifier {name' : String} (h : t.Free name x)
    (hkind : t.kind x = .ok (.identifier name')) : name = name' := by
  obtain ⟨use, h⟩ := h
  cases h with
  | here hkind' =>
    cases Except.ok.inj (hkind.symm.trans hkind')
    rfl
  | child hkind' _ hchild _ =>
    obtain rfl := Except.ok.inj (hkind.symm.trans hkind')
    cases hchild
  | body hkind' _ _ => cases Except.ok.inj (hkind.symm.trans hkind')

/-- The node stands at or below another one, outside arrows. -/
inductive Immediate (t : Tree) (root : NodeId) : NodeId → Prop
  | root : Immediate t root root
  | child {x child : NodeId} {kind : NodeKind} (hx : Immediate t root x)
      (hkind : t.kind x = .ok kind) (harrow : ∀ params body, kind ≠ .arrow params body)
      (hchild : child ∈ kind.children) : Immediate t root child

theorem Immediate.trans {y : NodeId} (h : t.Immediate root x) (h' : t.Immediate x y) :
    t.Immediate root y := by
  induction h' with
  | root => exact h
  | child _ hkind harrow hchild ih => exact .child ih hkind harrow hchild

/-- What is free outside arrows is free. -/
theorem Immediate.freeAt {use : NodeId} (hx : t.Immediate root x) (h : t.FreeAt name use x) :
    t.FreeAt name use root := by
  induction hx with
  | root => exact h
  | child _ hkind harrow hchild ih => exact ih (.child hkind harrow hchild h)

/-- The name is used freely at or below a node: outside arrows, or else, where the use is deferred, in
    the body of an arrow. -/
def FreeUse (t : Tree) (name : String) (x : NodeId) : Bool → Prop
  | false => ∃ use, t.Immediate x use ∧ t.kind use = .ok (.identifier name)
  | true => ∃ arrow params body, t.Immediate x arrow ∧ t.kind arrow = .ok (.arrow params body) ∧
      name ∉ params.map Param.name ∧ t.Free name body

theorem FreeUse.free (h : t.FreeUse name x deferred) : t.Free name x := by
  cases deferred with
  | false =>
    obtain ⟨use, hx, hkind⟩ := h
    exact ⟨use, hx.freeAt (.here hkind)⟩
  | true =>
    obtain ⟨arrow, params, body, hx, hkind, hname, use, hfree⟩ := h
    exact ⟨use, hx.freeAt (.body hkind hname hfree)⟩

theorem FreeUse.of_immediate {y : NodeId} (hy : t.Immediate x y) (h : t.FreeUse name y deferred) :
    t.FreeUse name x deferred := by
  cases deferred with
  | false =>
    obtain ⟨use, huse, hkind⟩ := h
    exact ⟨use, hy.trans huse, hkind⟩
  | true =>
    obtain ⟨arrow, params, body, harrow, h⟩ := h
    exact ⟨arrow, params, body, hy.trans harrow, h⟩

/-! ### References -/

/-- The walk for uses takes a name, the body of an arrow, or else all nodes below. -/
theorem referencesWithin_cases
    (h : t.referencesWithin bound deferred (fuel + 1) x = .ok uses) :
    ∃ kind, t.kind x = .ok kind ∧
      ((∃ name, kind = .identifier name ∧
          uses = if name ∈ bound then [] else [⟨name, x, deferred⟩]) ∨
        (∃ params body, kind = .arrow params body ∧
          t.referencesWithin (params.map Param.name ++ bound) true fuel body = .ok uses) ∨
        ((∀ name, kind ≠ .identifier name) ∧ (∀ params body, kind ≠ .arrow params body) ∧
          ∃ parts, kind.children.mapM (t.referencesWithin bound deferred fuel) = .ok parts ∧
            uses = parts.flatten)) := by
  obtain ⟨kind, hkind, h⟩ := Except.bind_eq_ok_iff.mp h
  refine ⟨kind, hkind, ?_⟩
  cases kind with
  | identifier name =>
    cases h
    exact .inl ⟨name, rfl, by simp only [List.contains_iff_mem]⟩
  | arrow params body => exact .inr (.inl ⟨params, body, rfl, h⟩)
  | _ =>
    obtain ⟨parts, hparts, h⟩ := Except.bind_eq_ok_iff.mp h
    cases h
    exact .inr (.inr ⟨nofun, nofun, parts, hparts, rfl⟩)

/-- What is listed is used freely, and not bound around the node. -/
theorem freeAt_of_mem_referencesWithin
    (h : t.referencesWithin bound deferred fuel x = .ok uses) {use : Reference} (huse : use ∈ uses) :
    t.FreeAt use.name use.node x ∧ use.name ∉ bound := by
  induction fuel generalizing bound deferred x uses with
  | zero => cases h
  | succ fuel ih =>
    obtain ⟨kind, hkind, ⟨name, rfl, rfl⟩ | ⟨params, body, rfl, hbody⟩ |
      ⟨-, harrow, parts, hparts, rfl⟩⟩ := referencesWithin_cases h
    · split at huse
      · cases huse
      · rename_i hname
        rw [List.mem_singleton.mp huse]
        exact ⟨.here hkind, hname⟩
    · obtain ⟨hfree, hname⟩ := ih hbody huse
      rw [List.mem_append, not_or] at hname
      exact ⟨.body hkind hname.1 hfree, hname.2⟩
    · obtain ⟨part, hpart, huse⟩ := List.mem_flatten.mp huse
      obtain ⟨child, hchild, hok⟩ := exists_left_of_mem (mapM_eq_ok_iff.mp hparts) hpart
      obtain ⟨hfree, hname⟩ := ih hok huse
      exact ⟨.child hkind harrow hchild hfree, hname⟩

/-- A free use is listed, unless its name is bound around the node. -/
theorem exists_mem_referencesWithin_of_freeAt {node : NodeId} (hfree : t.FreeAt name node x)
    (hname : name ∉ bound) (h : t.referencesWithin bound deferred fuel x = .ok uses) :
    ∃ use ∈ uses, use.name = name ∧ use.node = node := by
  induction hfree generalizing bound deferred fuel uses with
  | here hkind =>
    cases fuel with
    | zero => cases h
    | succ fuel =>
      obtain ⟨kind, hkind', hcases⟩ := referencesWithin_cases h
      obtain rfl := Except.ok.inj (hkind'.symm.trans hkind)
      obtain ⟨name', heq, rfl⟩ | ⟨_, _, heq, -⟩ | ⟨hne, -⟩ := hcases
      · cases heq
        rw [if_neg hname]
        exact ⟨_, List.mem_singleton_self _, rfl, rfl⟩
      · cases heq
      · exact absurd rfl (hne name)
  | @child x child kind hkind harrow hchild _ ih =>
    cases fuel with
    | zero => cases h
    | succ fuel =>
      obtain ⟨kind', hkind', hcases⟩ := referencesWithin_cases h
      obtain rfl := Except.ok.inj (hkind'.symm.trans hkind)
      obtain ⟨name', rfl, -⟩ | ⟨params, body, heq, -⟩ | ⟨-, -, parts, hparts, rfl⟩ := hcases
      · cases hchild
      · exact absurd heq (harrow params body)
      · obtain ⟨part, hpart, hok⟩ := exists_right_of_mem (mapM_eq_ok_iff.mp hparts) hchild
        obtain ⟨use, huse, heq⟩ := ih hname hok
        exact ⟨use, List.mem_flatten.mpr ⟨part, hpart, huse⟩, heq⟩
  -- A parameter of another name binds nothing that matters here.
  | body hkind hparam _ ih =>
    cases fuel with
    | zero => cases h
    | succ fuel =>
      obtain ⟨kind', hkind', hcases⟩ := referencesWithin_cases h
      obtain rfl := Except.ok.inj (hkind'.symm.trans hkind)
      obtain ⟨_, heq, -⟩ | ⟨params, body, heq, hbody⟩ | ⟨-, hne, -⟩ := hcases
      · cases heq
      · cases heq
        exact ih (List.not_mem_append hparam hname) hbody
      · exact absurd rfl (hne _ _)

/-- The walk lists the free uses at and below a node, and nothing else. -/
theorem exists_reference_iff (h : t.references x = .ok uses) {node : NodeId} :
    (∃ use ∈ uses, use.name = name ∧ use.node = node) ↔ t.FreeAt name node x := by
  constructor
  · rintro ⟨use, huse, rfl, rfl⟩
    exact (freeAt_of_mem_referencesWithin h huse).1
  · exact fun hfree => exists_mem_referencesWithin_of_freeAt hfree List.not_mem_nil h

/-- What can be walked from a node can be walked from each node outside arrows below it; the same
    uses are found there. -/
theorem Immediate.exists_referencesWithin (hx : t.Immediate root x)
    (h : t.referencesWithin bound deferred fuel root = .ok uses) :
    ∃ fuel' part, t.referencesWithin bound deferred fuel' x = .ok part ∧
      ∀ use ∈ part, use ∈ uses := by
  induction hx with
  | root => exact ⟨fuel, uses, h, fun _ huse => huse⟩
  | child _ hkind harrow hchild ih =>
    obtain ⟨fuel', part, hpart, hsub⟩ := ih
    cases fuel' with
    | zero => cases hpart
    | succ fuel' =>
      obtain ⟨kind', hkind', hcases⟩ := referencesWithin_cases hpart
      obtain rfl := Except.ok.inj (hkind'.symm.trans hkind)
      obtain ⟨_, rfl, -⟩ | ⟨params, body, heq, -⟩ | ⟨-, -, parts, hparts, rfl⟩ := hcases
      · cases hchild
      · exact absurd heq (harrow params body)
      · obtain ⟨below, hbelow, hok⟩ := exists_right_of_mem (mapM_eq_ok_iff.mp hparts) hchild
        exact ⟨fuel', below, hok, fun use huse => hsub use (List.mem_flatten.mpr ⟨below, hbelow, huse⟩)⟩

/-- A name outside arrows is a use that is not deferred. -/
theorem mem_references_of_immediate (hx : t.Immediate root x)
    (hkind : t.kind x = .ok (.identifier name)) (h : t.references root = .ok uses) :
    ⟨name, x, false⟩ ∈ uses := by
  obtain ⟨fuel, part, hpart, hsub⟩ := hx.exists_referencesWithin h
  cases fuel with
  | zero => cases hpart
  | succ fuel =>
    obtain ⟨kind', hkind', hcases⟩ := referencesWithin_cases hpart
    obtain rfl := Except.ok.inj (hkind'.symm.trans hkind)
    obtain ⟨_, heq, rfl⟩ | ⟨_, _, heq, -⟩ | ⟨hne, -⟩ := hcases
    · cases heq
      exact hsub _ (List.mem_singleton_self _)
    · cases heq
    · exact absurd rfl (hne name)

/-- What is listed outside arrows is a use there, and what is listed below an arrow is deferred. -/
theorem freeUse_of_mem_referencesWithin
    (h : t.referencesWithin bound deferred fuel x = .ok uses) {use : Reference} (huse : use ∈ uses) :
    (use.deferred = deferred ∧ t.FreeUse use.name x false) ∨
      (use.deferred = true ∧ t.FreeUse use.name x true) := by
  induction fuel generalizing bound deferred x uses with
  | zero => cases h
  | succ fuel ih =>
    obtain ⟨kind, hkind, ⟨name, rfl, rfl⟩ | ⟨params, body, rfl, hbody⟩ |
      ⟨-, harrow, parts, hparts, rfl⟩⟩ := referencesWithin_cases h
    · split at huse
      · cases huse
      · rw [List.mem_singleton.mp huse]
        exact .inl ⟨rfl, x, .root, hkind⟩
    · obtain ⟨hfree, hname⟩ := freeAt_of_mem_referencesWithin hbody huse
      have hdeferred : use.deferred = true := (ih hbody huse).elim And.left And.left
      exact .inr ⟨hdeferred, x, params, body, .root, hkind,
        fun hmem => hname (List.mem_append_left _ hmem), use.node, hfree⟩
    · obtain ⟨part, hpart, huse⟩ := List.mem_flatten.mp huse
      obtain ⟨child, hchild, hok⟩ := exists_left_of_mem (mapM_eq_ok_iff.mp hparts) hpart
      have hbelow : t.Immediate x child := .child .root hkind harrow hchild
      exact (ih hok huse).imp (And.imp_right (.of_immediate hbelow))
        (And.imp_right (.of_immediate hbelow))

/-- The walk lists the free uses of a name, and tells which of them are in the body of an arrow. -/
theorem exists_deferred_iff (h : t.references x = .ok uses) :
    (∃ use ∈ uses, use.name = name ∧ use.deferred = deferred) ↔ t.FreeUse name x deferred := by
  constructor
  · rintro ⟨use, huse, rfl, rfl⟩
    rcases freeUse_of_mem_referencesWithin h huse with ⟨hdeferred, hfree⟩ | ⟨hdeferred, hfree⟩
    · exact hdeferred ▸ hfree
    · exact hdeferred ▸ hfree
  · intro hfree
    cases deferred with
    | false =>
      obtain ⟨use, hx, hkind⟩ := hfree
      exact ⟨_, mem_references_of_immediate hx hkind h, rfl, rfl⟩
    | true =>
      obtain ⟨arrow, params, body, hx, hkind, hname, use, hfree⟩ := hfree
      -- The walk of the arrow is part of the whole walk.
      obtain ⟨fuel, part, hpart, hsub⟩ := hx.exists_referencesWithin h
      obtain ⟨found, hfound, hname', -⟩ :=
        exists_mem_referencesWithin_of_freeAt (.body hkind hname hfree) List.not_mem_nil hpart
      cases fuel with
      | zero => cases hpart
      | succ fuel =>
        obtain ⟨kind', hkind', hcases⟩ := referencesWithin_cases hpart
        obtain rfl := Except.ok.inj (hkind'.symm.trans hkind)
        obtain ⟨_, heq, -⟩ | ⟨_, _, heq, hbody⟩ | ⟨-, hne, -⟩ := hcases
        · cases heq
        · cases heq
          exact ⟨found, hsub found hfound, hname',
            (freeUse_of_mem_referencesWithin hbody hfound).elim And.left And.left⟩
        · exact absurd rfl (hne params body)

end ReactiveDoc.Tree
