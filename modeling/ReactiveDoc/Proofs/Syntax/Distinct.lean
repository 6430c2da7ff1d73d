import Mathlib
import ReactiveDoc.Proofs.Syntax.Encoding
import ReactiveDoc.Proofs.Ty.Distinct

namespace ReactiveDoc

/-!
# Nodes are told apart by their JSON texts

* `WrittenType.blurred`, `NodeKind.blurred`, `Node.blurred` — one number in place of all that are not
  finite.
* `WrittenType.written_inj`, `WrittenType.toJson_blurred` — annotations are told apart as far as they
  differ when blurred.
* `Node.written_inj`, `Node.toJson_blurred` — so are nodes.
* `NodeKind.children_blurred` — the same nodes are below a blurred node.
-/

open Json (written writtenItems writtenFields)

/-! ### Annotations -/

namespace WrittenType

mutual

/-- The annotation with its numbers blurred. -/
def blurred : WrittenType → WrittenType
  | literal value => literal value.blurred
  | array item => array item.blurred
  | tuple items => tuple (blurredList items)
  | object fields => object (blurredFields fields)
  | function params result => function (blurredList params) result.blurred
  | union arms => union (blurredList arms)
  | intersection arms => intersection (blurredList arms)
  | reference label args => reference label (blurredList args)
  | a => a

/-- The annotations with their numbers blurred. -/
def blurredList : List WrittenType → List WrittenType
  | [] => []
  | a :: as => a.blurred :: blurredList as

/-- The fields with the numbers in their annotations blurred. -/
def blurredFields : List (WrittenField WrittenType) → List (WrittenField WrittenType)
  | [] => []
  | ⟨name, a, isOptional⟩ :: fs => ⟨name, a.blurred, isOptional⟩ :: blurredFields fs

end

mutual

/-- Annotations are told apart by their texts, as far as they differ when blurred. -/
theorem written_inj : ∀ a b : WrittenType,
    (a.toJson .plain).written = (b.toJson .plain).written → a.blurred = b.blurred
  | never, b, h | unknown, b, h | undefined, b, h | null, b, h | boolean, b, h | number, b, h
  | string, b, h => by
    cases b <;> simp [toJson, bare, withArgs, written, writtenFields] at h
    rfl
  | literal value, b, h => by
    cases b <;> simp [toJson, bare, withArgs, written, writtenFields] at h
    rw [blurred, blurred, Literal.written_inj h]
  | array a, b, h => by
    cases b <;> simp [toJson, bare, withArgs, written, writtenFields] at h
    rw [blurred, blurred, written_inj _ _ h]
  | tuple as, b, h | union as, b, h | intersection as, b, h => by
    cases b <;> simp [toJson, bare, withArgs, written, writtenFields] at h
    rw [blurred, blurred, writtenList_inj _ _ h]
  | object fs, b, h => by
    cases b <;> simp [toJson, bare, withArgs, written, writtenFields] at h
    rw [blurred, blurred, writtenFields_inj _ _ h]
  | function as a, b, h => by
    cases b <;> simp [toJson, bare, withArgs, written, writtenFields, writtenItems] at h
    rw [blurred, blurred, writtenList_inj _ _ h.1, written_inj _ _ h.2]
  | reference label as, b, h => by
    cases b <;> simp [toJson, bare, withArgs, written, writtenFields, writtenItems] at h
    rw [blurred, blurred, h.1, writtenList_inj _ _ h.2]

theorem writtenList_inj : ∀ as bs : List WrittenType,
    writtenItems (toJsonList .plain as) = writtenItems (toJsonList .plain bs) →
    blurredList as = blurredList bs
  | [], [], _ => rfl
  | [], b :: bs, h => by simp [toJsonList, writtenItems] at h
  | a :: as, [], h => by simp [toJsonList, writtenItems] at h
  | a :: as, b :: bs, h => by
    simp only [toJsonList, writtenItems, List.cons.injEq] at h
    rw [blurredList, blurredList, written_inj _ _ h.1, writtenList_inj _ _ h.2]

theorem writtenFields_inj : ∀ fs gs : List (WrittenField WrittenType),
    writtenItems (toJsonFields .plain fs) = writtenItems (toJsonFields .plain gs) →
    blurredFields fs = blurredFields gs
  | [], [], _ => rfl
  | [], ⟨_, _, _⟩ :: gs, h => by simp [toJsonFields, writtenItems] at h
  | ⟨_, _, _⟩ :: fs, [], h => by simp [toJsonFields, writtenItems] at h
  | ⟨name, a, isOptional⟩ :: fs, ⟨name', b, isOptional'⟩ :: gs, h => by
    simp [toJsonFields, writtenItems, written, writtenFields] at h
    rw [blurredFields, blurredFields, h.1.1, written_inj _ _ h.1.2.1, h.1.2.2,
      writtenFields_inj _ _ h.2]

end

mutual

/-- An annotation is written like the blurred one. -/
theorem toJson_blurred : ∀ a : WrittenType, a.blurred.toJson .plain = a.toJson .plain
  | never | unknown | undefined | null | boolean | number | string => rfl
  | literal value => by rw [blurred, toJson, toJson, value.toJson_blurred]
  | array a => by rw [blurred, toJson, toJson, toJson_blurred a]
  | tuple as | union as | intersection as => by
    rw [blurred, toJson, toJson, toJsonList_blurred as]
  | object fs => by rw [blurred, toJson, toJson, toJsonFields_blurred fs]
  | function as a => by rw [blurred, toJson, toJson, toJsonList_blurred as, toJson_blurred a]
  | reference label as => by rw [blurred, toJson, toJson, toJsonList_blurred as]

theorem toJsonList_blurred : ∀ as : List WrittenType,
    toJsonList .plain (blurredList as) = toJsonList .plain as
  | [] => rfl
  | a :: as => by rw [blurredList, toJsonList, toJsonList, toJson_blurred a, toJsonList_blurred as]

theorem toJsonFields_blurred : ∀ fs : List (WrittenField WrittenType),
    toJsonFields .plain (blurredFields fs) = toJsonFields .plain fs
  | [] => rfl
  | ⟨name, a, isOptional⟩ :: fs => by
    rw [blurredFields, toJsonFields, toJsonFields, toJson_blurred a, toJsonFields_blurred fs]

end

end WrittenType

/-! ### Names of operators -/

theorem UnaryOp.name_inj {op op' : UnaryOp} : op.name = op'.name ↔ op = op' :=
  ⟨fun h => Option.some.inj (by rw [← ofName?_name op, ← ofName?_name op', h]), congrArg name⟩

theorem BinaryOp.name_inj {op op' : BinaryOp} : op.name = op'.name ↔ op = op' :=
  ⟨fun h => Option.some.inj (by rw [← ofName?_name op, ← ofName?_name op', h]), congrArg name⟩

theorem LogicalOp.name_inj {op op' : LogicalOp} : op.name = op'.name ↔ op = op' :=
  ⟨fun h => Option.some.inj (by rw [← ofName?_name op, ← ofName?_name op', h]), congrArg name⟩

theorem Mutability.label_inj {m m' : Mutability} : m.label = m'.label ↔ m = m' :=
  ⟨fun h => Option.some.inj (by rw [← ofLabel?_label m, ← ofLabel?_label m', h]), congrArg label⟩

/-! ### Nodes -/

/-- The parameter with the numbers in its annotation blurred. -/
def Param.blurred (p : Param) : Param := { p with written? := p.written?.map WrittenType.blurred }

namespace NodeKind

/-- The form with its numbers blurred. -/
def blurred : NodeKind → NodeKind
  | literal value => literal value.blurred
  | arrow params body => arrow (params.map Param.blurred) body
  | ascription expression written => ascription expression written.blurred
  | constBinding name written? value exported =>
      constBinding name (written?.map WrittenType.blurred) value exported
  | letBinding name written? value mutability exported =>
      letBinding name (written?.map WrittenType.blurred) value mutability exported
  | kind => kind

@[simp] theorem children_blurred (kind : NodeKind) : kind.blurred.children = kind.children := by
  cases kind <;> rfl

theorem ofNat_inj {m n : Nat} : (Json.ofNat m).written = (Json.ofNat n).written ↔ m = n := by
  simp [Json.ofNat, written]

theorem nodes_inj {ids ids' : List NodeId} :
    (nodes ids).written = (nodes ids').written ↔ ids = ids' := by
  have hwritten (ids : List NodeId) : writtenItems (ids.map Json.ofNat) = ids.map Json.ofNat := by
    induction ids with
    | nil => rfl
    | cons id ids ih => rw [List.map_cons, writtenItems, ih]; rfl
  simp only [nodes, written, hwritten, Json.array.injEq]
  exact List.map_inj_right fun _ _ h => Int.ofNat.inj (Json.integer.inj h)

theorem writtenJson_inj {w w' : Option WrittenType}
    (h : (writtenJson .plain w).written = (writtenJson .plain w').written) :
    w.map WrittenType.blurred = w'.map WrittenType.blurred := by
  have hne (a : WrittenType) : (a.toJson .plain).written ≠ .null := by
    cases a <;> simp [WrittenType.toJson, WrittenType.bare, WrittenType.withArgs, written]
  cases w with
  | none =>
    cases w' with
    | none => rfl
    | some a' => exact absurd h.symm (hne a')
  | some a =>
    cases w' with
    | none => exact absurd h (hne a)
    | some a' => exact congrArg some (WrittenType.written_inj a a' h)

theorem params_inj : ∀ {ps ps' : List Param},
    writtenItems (ps.map (paramJson .plain)) = writtenItems (ps'.map (paramJson .plain)) →
    ps.map Param.blurred = ps'.map Param.blurred
  | [], [], _ => rfl
  | [], p' :: ps', h => by simp [writtenItems] at h
  | p :: ps, [], h => by simp [writtenItems] at h
  | ⟨name, w⟩ :: ps, ⟨name', w'⟩ :: ps', h => by
    simp only [List.map_cons, writtenItems, paramJson, written, writtenFields, List.cons.injEq,
      Json.object.injEq, Prod.mk.injEq, Json.string.injEq, true_and, and_true] at h
    rw [List.map_cons, List.map_cons, params_inj h.2, Param.blurred, Param.blurred, h.1.1,
      writtenJson_inj h.1.2]

theorem specifiers_inj : ∀ {ss ss' : List ImportSpecifier},
    writtenItems (ss.map specifierJson) = writtenItems (ss'.map specifierJson) → ss = ss'
  | [], [], _ => rfl
  | [], s' :: ss', h => by simp [writtenItems] at h
  | s :: ss, [], h => by simp [writtenItems] at h
  | ⟨imported, bound⟩ :: ss, ⟨imported', bound'⟩ :: ss', h => by
    simp only [List.map_cons, writtenItems, specifierJson, written, writtenFields, List.cons.injEq,
      Json.object.injEq, Prod.mk.injEq, Json.string.injEq, true_and, and_true] at h
    rw [specifiers_inj h.2, h.1.1, h.1.2]

theorem written_toJson (kind : NodeKind) : (kind.toJson .plain).written =
    .object (("node", .string (kind.parts .plain).1) :: writtenFields (kind.parts .plain).2) := by
  rw [toJson]
  simp only [written, writtenFields]

/-- Forms are told apart by their texts, as far as they differ when blurred. -/
theorem written_inj {kind kind' : NodeKind}
    (h : (kind.toJson .plain).written = (kind'.toJson .plain).written) :
    kind.blurred = kind'.blurred := by
  rw [written_toJson, written_toJson, Json.object.injEq, List.cons.injEq, Prod.mk.injEq,
    Json.string.injEq] at h
  obtain ⟨⟨-, hname⟩, h⟩ := h
  -- Two different forms have different names.
  cases kind <;> cases kind' <;> simp only [parts, String.reduceEq] at hname
  all_goals
    simp [parts, written, writtenFields, ofNat_inj, nodes_inj, UnaryOp.name_inj,
      BinaryOp.name_inj, LogicalOp.name_inj, Mutability.label_inj] at h
  case literal.literal => exact congrArg literal (Literal.written_inj h)
  case arrow.arrow => rw [blurred, blurred, params_inj h.1, h.2]
  case ascription.ascription => rw [blurred, blurred, h.1, WrittenType.written_inj _ _ h.2]
  case constBinding.constBinding =>
    rw [blurred, blurred, h.1, writtenJson_inj h.2.1, h.2.2.1, h.2.2.2]
  case letBinding.letBinding =>
    rw [blurred, blurred, h.1, writtenJson_inj h.2.1, h.2.2.1, h.2.2.2.1, h.2.2.2.2]
  case importing.importing => rw [h.1, specifiers_inj h.2]
  all_goals simp_all

theorem writtenJson_blurred (written? : Option WrittenType) :
    writtenJson .plain (written?.map WrittenType.blurred) = writtenJson .plain written? := by
  cases written? with
  | none => rfl
  | some a => exact a.toJson_blurred

theorem paramJson_blurred (p : Param) : paramJson .plain p.blurred = paramJson .plain p := by
  rw [paramJson, paramJson, Param.blurred, writtenJson_blurred]

/-- A form is written like the blurred one. -/
theorem toJson_blurred (kind : NodeKind) : kind.blurred.toJson .plain = kind.toJson .plain := by
  have hparts : kind.blurred.parts .plain = kind.parts .plain := by
    cases kind with
    | literal value => rw [blurred, parts, parts, value.toJson_blurred]
    | arrow params body =>
      have hparams : (params.map Param.blurred).map (paramJson .plain) =
          params.map (paramJson .plain) := by
        rw [List.map_map]
        exact List.map_congr_left fun p _ => paramJson_blurred p
      rw [blurred, parts, parts, hparams]
    | ascription expression written => rw [blurred, parts, parts, written.toJson_blurred]
    | constBinding | letBinding => rw [blurred, parts, parts, writtenJson_blurred]
    | _ => rfl
  rw [toJson, toJson, hparts]

end NodeKind

namespace Node

/-- The node with its numbers blurred. -/
def blurred (n : Node) : Node := { n with kind := n.kind.blurred }

theorem written_inj {n n' : Node} (h : (n.toJson .plain).written = (n'.toJson .plain).written) :
    n.blurred = n'.blurred := by
  obtain ⟨span, kind⟩ := n
  obtain ⟨span', kind'⟩ := n'
  simp only [toJson, written, writtenFields, Json.object.injEq, List.cons.injEq, Prod.mk.injEq,
    true_and, and_true] at h
  rw [blurred, blurred, Span.written_inj h.1, NodeKind.written_inj h.2]

theorem toJson_blurred (n : Node) : n.blurred.toJson .plain = n.toJson .plain := by
  rw [toJson, toJson, blurred, n.kind.toJson_blurred]

end Node

end ReactiveDoc
