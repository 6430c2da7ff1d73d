import ReactiveDoc.Proofs.Ty.Encoding
import ReactiveDoc.Syntax.Encoding

namespace ReactiveDoc

/-!
# Syntax trees read back from JSON

* `WrittenType.ofJson?_toJson` — an annotation is read from its encoding, in either manner.
* `NodeKind.ofJson?_toJson` — so is every form of node.
* `Tree.ofJson?_toJson` — and every tree.
-/

open Json (maxSize legible_ofNat)

/-! ### Annotations -/

namespace WrittenType

mutual

/-- Every number in the annotation is read back. -/
def Writable : WrittenType → Prop
  | literal value => value.Writable
  | array item => item.Writable
  | tuple items => WritableList items
  | object fields => WritableFields fields
  | function params result => WritableList params ∧ result.Writable
  | union arms => WritableList arms
  | intersection arms => WritableList arms
  | reference _ args => WritableList args
  | never | unknown | undefined | null | boolean | number | string => True

/-- Every number in the annotations is read back. -/
def WritableList : List WrittenType → Prop
  | [] => True
  | w :: ws => w.Writable ∧ WritableList ws

/-- Every number in the annotations of the fields is read back. -/
def WritableFields : List (WrittenField WrittenType) → Prop
  | [] => True
  | ⟨_, w, _⟩ :: fs => w.Writable ∧ WritableFields fs

end

theorem legible_withArgs {name : String} {args : Json} :
    (withArgs name args).Legible ↔ args.Legible := by
  simp [withArgs, Json.Legible, Json.LegibleFields]

theorem depth_withArgs (name : String) (args : Json) :
    (withArgs name args).depth = args.depth + 1 := by
  simp [withArgs, Json.depth, Json.depthOfFields]

mutual

/-- The encoding of a writable annotation survives being written as text. -/
theorem legible_toJson : ∀ {w : WrittenType}, w.Writable → (w.toJson .plain).Legible
  | never, _ | unknown, _ | undefined, _ | null, _ | boolean, _ | number, _ | string, _ =>
    ⟨trivial, trivial⟩
  | literal _, h => legible_withArgs.2 (Literal.legible_toJson h)
  | array _, h => legible_withArgs.2 (legible_toJson h)
  | tuple _, h | union _, h | intersection _, h => legible_withArgs.2 (legibleItems_toJsonList h)
  | object _, h => legible_withArgs.2 (legibleItems_toJsonFields h)
  | function _ _, h =>
    legible_withArgs.2 ⟨legibleItems_toJsonList h.1, legible_toJson h.2, trivial⟩
  | reference _ _, h => legible_withArgs.2 ⟨trivial, legibleItems_toJsonList h, trivial⟩

theorem legibleItems_toJsonList : ∀ {ws : List WrittenType},
    WritableList ws → Json.LegibleItems (toJsonList .plain ws)
  | [], _ => trivial
  | _ :: _, h => ⟨legible_toJson h.1, legibleItems_toJsonList h.2⟩

theorem legibleItems_toJsonFields : ∀ {fs : List (WrittenField WrittenType)},
    WritableFields fs → Json.LegibleItems (toJsonFields .plain fs)
  | [], _ => trivial
  | ⟨_, _, _⟩ :: _, h =>
    ⟨⟨trivial, legible_toJson h.1, trivial, trivial⟩, legibleItems_toJsonFields h.2⟩

end

theorem toJson_eq_object (w : WrittenType) (form : NumberForm) :
    ∃ fields, w.toJson form = .object fields := by
  cases w <;> exact ⟨_, rfl⟩

theorem adjacent?_withArgs (manner : Json.Manner) (name : String) (args : Json) :
    Json.adjacent? manner names "type" "of" (withArgs name args) =
      some (name, some (.loose, args)) := by
  simp [withArgs, Json.adjacent?, Json.lookup?, Json.name?, Json.variant?, Json.empty?]

theorem ofJsonWithin?_withArgs {form : NumberForm} {fuel : Nat} {manner : Json.Manner}
    {name : String} {args : Json} (h : ofBareName? name = none) :
    ofJsonWithin? form (fuel + 1) manner (withArgs name args) =
      ofArgs? form (ofJsonWithin? form fuel .loose) name args := by
  simp [ofJsonWithin?, adjacent?_withArgs, h]

mutual

/-- A writable annotation is read from its encoding with fuel for its depth. -/
theorem ofJsonWithin?_toJson : ∀ (w : WrittenType) (manner : Json.Manner) {fuel : Nat},
    w.Writable → (w.toJson .plain).depth < fuel →
    ofJsonWithin? .plain fuel manner (w.toJson .plain) = some w
  | _, _, 0, _, hf => absurd hf (Nat.not_lt_zero _)
  | never, manner, fuel + 1, _, _ | unknown, manner, fuel + 1, _, _
  | undefined, manner, fuel + 1, _, _ | null, manner, fuel + 1, _, _
  | boolean, manner, fuel + 1, _, _ | number, manner, fuel + 1, _, _
  | string, manner, fuel + 1, _, _ => by cases manner <;> rfl
  | literal value, manner, fuel + 1, h, _ => by
    rw [toJson, ofJsonWithin?_withArgs rfl]
    simp [ofArgs?, Literal.ofJson?_toJson h]
  | array item, manner, fuel + 1, h, hf => by
    simp only [toJson, depth_withArgs] at hf
    have hitem := ofJsonWithin?_toJson item .loose h (by omega : _ < fuel)
    rw [toJson, ofJsonWithin?_withArgs rfl]
    simp [ofArgs?, hitem]
  | tuple items, manner, fuel + 1, h, hf => by
    simp only [toJson, depth_withArgs, Json.depth] at hf
    have hitems := mapM_toJsonList items (by omega : _ < fuel) h
    rw [toJson, ofJsonWithin?_withArgs rfl]
    simp [ofArgs?, Json.list?, Json.array?, hitems]
  | object fields, manner, fuel + 1, h, hf => by
    simp only [toJson, depth_withArgs, Json.depth] at hf
    have hdepth : Json.depthOfItems (toJsonFields .plain fields) ≤ fuel := by omega
    have hfields := mapM_toJsonFields fields hdepth h
    rw [toJson, ofJsonWithin?_withArgs rfl]
    simp [ofArgs?, Json.list?, Json.array?, hfields]
  | function params result, manner, fuel + 1, h, hf => by
    simp only [toJson, depth_withArgs, Json.depth, Json.depthOfItems] at hf
    have hparams := mapM_toJsonList params (by omega : _ < fuel) h.1
    have hresult := ofJsonWithin?_toJson result .loose h.2 (by omega : _ < fuel)
    rw [toJson, ofJsonWithin?_withArgs rfl]
    simp [ofArgs?, Json.list?, Json.array?, hparams, hresult]
  | union arms, manner, fuel + 1, h, hf => by
    simp only [toJson, depth_withArgs, Json.depth] at hf
    have harms := mapM_toJsonList arms (by omega : _ < fuel) h
    rw [toJson, ofJsonWithin?_withArgs rfl]
    simp [ofArgs?, Json.list?, Json.array?, harms]
  | intersection arms, manner, fuel + 1, h, hf => by
    simp only [toJson, depth_withArgs, Json.depth] at hf
    have harms := mapM_toJsonList arms (by omega : _ < fuel) h
    rw [toJson, ofJsonWithin?_withArgs rfl]
    simp [ofArgs?, Json.list?, Json.array?, harms]
  | reference label args, manner, fuel + 1, h, hf => by
    simp only [toJson, depth_withArgs, Json.depth, Json.depthOfItems] at hf
    have hargs := mapM_toJsonList args (by omega : _ < fuel) h
    rw [toJson, ofJsonWithin?_withArgs rfl]
    simp [ofArgs?, Json.string?, Json.list?, Json.array?, hargs]

/-- Writable annotations are read from their encodings. -/
theorem mapM_toJsonList : ∀ (ws : List WrittenType) {fuel : Nat},
    Json.depthOfItems (toJsonList .plain ws) < fuel → WritableList ws →
    (toJsonList .plain ws).mapM (ofJsonWithin? .plain fuel .loose) = some ws
  | [], _, _, _ => rfl
  | w :: ws, fuel, hf, h => by
    simp only [toJsonList, Json.depthOfItems] at hf
    simp [toJsonList, List.mapM_cons, ofJsonWithin?_toJson w .loose h.1 (by omega : _ < fuel),
      mapM_toJsonList ws (by omega : _ < fuel) h.2]

/-- Fields with writable annotations are read from their records. -/
theorem mapM_toJsonFields : ∀ (fs : List (WrittenField WrittenType)) {fuel : Nat},
    Json.depthOfItems (toJsonFields .plain fs) ≤ fuel → WritableFields fs →
    (toJsonFields .plain fs).mapM (fieldOfJson? (ofJsonWithin? .plain fuel .loose)) = some fs
  | [], _, _, _ => rfl
  | ⟨name, w, isOptional⟩ :: fs, fuel, hf, h => by
    simp only [toJsonFields, Json.depthOfItems, Json.depth, Json.depthOfFields] at hf
    have hw := ofJsonWithin?_toJson w .loose h.1 (by omega : _ < fuel)
    simp [toJsonFields, List.mapM_cons, fieldOfJson?, Json.entries?, Json.lookup?, Json.string?,
      Json.entryOr, Json.bool?, hw, mapM_toJsonFields fs (by omega : _ ≤ fuel) h.2]

end

/-- A writable annotation is read from its encoding. -/
theorem ofJson?_toJson {w : WrittenType} (hw : w.Writable) (manner : Json.Manner) :
    ofJson? .plain manner (w.toJson .plain) = some w :=
  ofJsonWithin?_toJson w manner hw (Nat.lt_succ_self _)

end WrittenType

/-! ### Operators and mutability -/

theorem UnaryOp.ofName?_name (op : UnaryOp) : ofName? op.name = some op := by cases op <;> rfl

theorem BinaryOp.ofName?_name (op : BinaryOp) : ofName? op.name = some op := by cases op <;> rfl

theorem LogicalOp.ofName?_name (op : LogicalOp) : ofName? op.name = some op := by cases op <;> rfl

theorem Mutability.ofLabel?_label (m : Mutability) : ofLabel? m.label = some m := by
  cases m <;> rfl

/-! ### Nodes -/

namespace NodeKind

/-- The literal that a node consists of. -/
def literal? : NodeKind → Option Literal
  | literal value => some value
  | _ => none

/-- The annotations written at a node. -/
def annotations : NodeKind → List WrittenType
  | arrow params _ => params.filterMap Param.written?
  | ascription _ written => [written]
  | constBinding _ written? _ _ | letBinding _ written? _ _ _ => written?.toList
  | _ => []

/-- The nodes that a node refers to have ids of 32 bits, and every number in its literal and its
    annotations is read back. -/
structure Writable (kind : NodeKind) : Prop where
  children : ∀ id ∈ kind.children, id ≤ maxNodeId
  literal : ∀ l ∈ kind.literal?, l.Writable
  annotations : ∀ w ∈ kind.annotations, w.Writable

theorem maxNodeId_le_maxSize : maxNodeId ≤ maxSize := by decide

theorem legible_ofId {id : NodeId} (h : id ≤ maxNodeId) : (Json.ofNat id).Legible :=
  legible_ofNat (Nat.le_trans h maxNodeId_le_maxSize)

theorem legible_nodes {ids : List NodeId} (h : ∀ id ∈ ids, id ≤ maxNodeId) :
    (nodes ids).Legible :=
  Json.legible_array_map.2 fun id hid => legible_ofId (h id hid)

theorem legible_writtenJson {written? : Option WrittenType} (h : ∀ w ∈ written?, w.Writable) :
    (writtenJson .plain written?).Legible := by
  cases written? with
  | none => trivial
  | some w => exact WrittenType.legible_toJson (h w rfl)

theorem legible_paramJson {p : Param} (h : ∀ w ∈ p.written?, w.Writable) :
    (paramJson .plain p).Legible :=
  ⟨trivial, legible_writtenJson h, trivial⟩

/-- The encoding of a writable form survives being written as text. -/
theorem legible_toJson {kind : NodeKind} (h : kind.Writable) : (kind.toJson .plain).Legible := by
  obtain ⟨hc, hl, ha⟩ := h
  refine ⟨trivial, ?_⟩
  cases kind with
  | undefined | null | identifier => simp [Json.Legible, Json.LegibleFields]
  | literal value => exact ⟨Literal.legible_toJson (hl value rfl), trivial⟩
  | object | array | call | element | property | unary | member =>
    simp_all [children, Json.Legible, Json.LegibleFields, legible_ofId, legible_nodes]
  | binary | logical | index | assignment | conditional =>
    simp_all [children, Json.Legible, Json.LegibleFields, legible_ofId]
  | arrow params body =>
    refine ⟨Json.legible_array_map.2 fun p hp => legible_paramJson fun w hw => ?_,
      legible_ofId (hc body List.mem_cons_self), trivial⟩
    exact ha w (List.mem_filterMap.2 ⟨p, hp, hw⟩)
  | ascription expression written =>
    exact ⟨legible_ofId (hc expression List.mem_cons_self),
      WrittenType.legible_toJson (ha written List.mem_cons_self), trivial⟩
  | constBinding name written? value exported =>
    exact ⟨trivial, legible_writtenJson fun w hw => ha w (Option.mem_toList.2 hw),
      legible_ofId (hc value List.mem_cons_self), trivial, trivial⟩
  | letBinding name written? value mutability exported =>
    exact ⟨trivial, legible_writtenJson fun w hw => ha w (Option.mem_toList.2 hw),
      legible_ofId (hc value List.mem_cons_self), trivial, trivial, trivial⟩
  | importing module specifiers =>
    exact ⟨trivial, Json.legible_array_map.2 fun _ _ => ⟨trivial, trivial, trivial⟩, trivial⟩

/-- An id that fits is read back. -/
theorem node?_ofNat {id : NodeId} (h : id ≤ maxNodeId) : (Json.ofNat id).node? = some id :=
  Json.natural?_ofNat h

theorem list?_nodes {ids : List NodeId} (h : ∀ id ∈ ids, id ≤ maxNodeId) :
    (nodes ids).list? Json.node? = some ids :=
  Json.list?_map fun id hid => node?_ofNat (h id hid)

theorem optional?_writtenJson {written? : Option WrittenType} (h : ∀ w ∈ written?, w.Writable) :
    Json.optional? (writtenOfJson? .plain) (writtenJson .plain written?) = some written? := by
  cases written? with
  | none => rfl
  | some w =>
    obtain ⟨fields, hw⟩ := WrittenType.toJson_eq_object w .plain
    have hread : writtenOfJson? .plain (.object fields) = some w :=
      hw ▸ WrittenType.ofJson?_toJson (h w rfl) .loose
    rw [writtenJson, Json.ofOption, hw, Json.optional?, hread, Option.map_some]
    simp

theorem paramOfJson?_paramJson {p : Param} (h : ∀ w ∈ p.written?, w.Writable) :
    paramOfJson? .plain (paramJson .plain p) = some p := by
  simp [paramJson, paramOfJson?, Json.entries?, Json.lookup?, Json.string?, Json.entryOr,
    optional?_writtenJson h]

theorem specifierOfJson?_specifierJson (s : ImportSpecifier) :
    specifierOfJson? (specifierJson s) = some s := by
  simp [specifierJson, specifierOfJson?, Json.entries?, Json.lookup?, Json.string?]

variable {a b c : String}

theorem fields?_one (x : Json) : fields? [a] (.object [(a, x)]) = some [x] := by
  simp [fields?, Json.entries?, Json.lookup?]

theorem fields?_two (hab : a ≠ b) (x y : Json) :
    fields? [a, b] (.object [(a, x), (b, y)]) = some [x, y] := by
  simp [fields?, Json.entries?, Json.lookup?, hab, hab.symm]

theorem fields?_three (hab : a ≠ b) (hac : a ≠ c) (hbc : b ≠ c) (x y z : Json) :
    fields? [a, b, c] (.object [(a, x), (b, y), (c, z)]) = some [x, y, z] := by
  simp [fields?, Json.entries?, Json.lookup?, hab, hab.symm, hac, hac.symm, hbc, hbc.symm]

theorem name?_string (manner : Json.Manner) (name : String) :
    (Json.string name).name? manner = some name := rfl

/-- A writable form is read from its name and its fields. -/
theorem ofParts?_parts {kind : NodeKind} (h : kind.Writable) :
    ofParts? .plain (kind.parts .plain).1 (.object (kind.parts .plain).2) = some kind := by
  obtain ⟨hc, hl, ha⟩ := h
  -- The parts are written in the order in which they are read, each by an encoding that is read
  -- back.
  cases kind with
  | undefined | null => rfl
  | literal value => simp [parts, ofParts?, fields?_one, Literal.ofJson?_toJson (hl value rfl)]
  | identifier name => simp [parts, ofParts?, fields?_one, Json.string?]
  | object ids | array ids =>
    have hids : ∀ id ∈ ids, id ≤ maxNodeId := hc
    simp [parts, ofParts?, fields?_one, list?_nodes hids]
  | property key value =>
    have hvalue := hc value List.mem_cons_self
    simp [parts, ofParts?, fields?_two, Json.string?, node?_ofNat hvalue]
  | unary op argument =>
    have hargument := hc argument List.mem_cons_self
    simp [parts, ofParts?, fields?_two, name?_string, UnaryOp.ofName?_name, node?_ofNat hargument]
  | binary op left right =>
    simp only [children, List.forall_mem_cons] at hc
    simp [parts, ofParts?, fields?_three, name?_string, BinaryOp.ofName?_name, node?_ofNat hc.1,
      node?_ofNat hc.2.1]
  | logical op left right =>
    simp only [children, List.forall_mem_cons] at hc
    simp [parts, ofParts?, fields?_three, name?_string, LogicalOp.ofName?_name, node?_ofNat hc.1,
      node?_ofNat hc.2.1]
  | conditional test consequent alternate =>
    simp only [children, List.forall_mem_cons] at hc
    simp [parts, ofParts?, fields?_three, node?_ofNat hc.1, node?_ofNat hc.2.1,
      node?_ofNat hc.2.2.1]
  | member base name =>
    have hbase := hc base List.mem_cons_self
    simp [parts, ofParts?, fields?_two, Json.string?, node?_ofNat hbase]
  | index base position | assignment target value =>
    simp only [children, List.forall_mem_cons] at hc
    simp [parts, ofParts?, fields?_two, node?_ofNat hc.1, node?_ofNat hc.2.1]
  | call callee arguments =>
    simp only [children, List.forall_mem_cons] at hc
    simp [parts, ofParts?, fields?_two, node?_ofNat hc.1, list?_nodes hc.2]
  | arrow params body =>
    have hparams : (Json.array (params.map (paramJson .plain))).list? (paramOfJson? .plain) =
        some params :=
      Json.list?_map fun p hp => paramOfJson?_paramJson fun w hw =>
        ha w (List.mem_filterMap.2 ⟨p, hp, hw⟩)
    have hbody := hc body List.mem_cons_self
    simp [parts, ofParts?, fields?_two, hparams, node?_ofNat hbody]
  | element tag attributes children =>
    simp only [NodeKind.children, List.forall_mem_append] at hc
    simp [parts, ofParts?, fields?_three, Json.string?, list?_nodes hc.1, list?_nodes hc.2]
  | ascription expression written =>
    have hexpression := hc expression List.mem_cons_self
    have hwritten : writtenOfJson? .plain (written.toJson .plain) = some written :=
      WrittenType.ofJson?_toJson (ha written List.mem_cons_self) .loose
    simp [parts, ofParts?, fields?_two, hwritten, node?_ofNat hexpression]
  | constBinding name written? value exported =>
    have hvalue := hc value List.mem_cons_self
    have hwritten := optional?_writtenJson fun w hw => ha w (Option.mem_toList.2 hw)
    simp [parts, ofParts?, Json.entries?, Json.lookup?, Json.entryOr, Json.string?, Json.bool?,
      hwritten, node?_ofNat hvalue]
  | letBinding name written? value mutability exported =>
    have hvalue := hc value List.mem_cons_self
    have hwritten := optional?_writtenJson fun w hw => ha w (Option.mem_toList.2 hw)
    simp [parts, ofParts?, Json.entries?, Json.lookup?, Json.entryOr, Json.string?, Json.bool?,
      name?_string, Mutability.ofLabel?_label, hwritten, node?_ofNat hvalue]
  | importing module specifiers =>
    have hspecifiers : (Json.array (specifiers.map specifierJson)).list? specifierOfJson? =
        some specifiers := Json.list?_map fun s _ => specifierOfJson?_specifierJson s
    simp [parts, ofParts?, fields?_two, Json.string?, hspecifiers]

/-- A writable form is read from its encoding. -/
theorem ofJson?_toJson {kind : NodeKind} (h : kind.Writable) :
    ofJson? .plain (kind.toJson .plain) = some kind := by
  have htag : Json.tagged? "node" (kind.toJson .plain) =
      some ((kind.parts .plain).1, .object (kind.parts .plain).2) :=
    Json.tagged?_object (legible_toJson h) (by cases kind <;> simp)
  rw [ofJson?, htag]
  exact ofParts?_parts h

end NodeKind

/-! ### Trees -/

namespace Node

/-- The offsets, the ids and the numbers of the node are read back. -/
def Writable (n : Node) : Prop := n.span.Writable ∧ n.kind.Writable

variable {n : Node}

theorem legible_toJson (hn : n.Writable) : (n.toJson .plain).Legible :=
  ⟨Span.legible_toJson hn.1, NodeKind.legible_toJson hn.2, trivial⟩

theorem ofJson?_toJson (hn : n.Writable) : ofJson? .plain (n.toJson .plain) = some n := by
  simp [toJson, ofJson?, NodeKind.fields?_two, Span.ofJson?_toJson hn.1,
    NodeKind.ofJson?_toJson hn.2]

end Node

namespace Tree

/-- Every node is read back. -/
def Writable (t : Tree) : Prop := ∀ n ∈ t.nodes, n.Writable

variable {t : Tree}

theorem legible_toJson (ht : t.Writable) : (t.toJson .plain).Legible :=
  ⟨Json.legible_array_map.2 fun n hn => Node.legible_toJson (ht n (Array.mem_toList_iff.1 hn)),
    trivial⟩

/-- A writable tree is read from its encoding. -/
theorem ofJson?_toJson (ht : t.Writable) : ofJson? .plain (t.toJson .plain) = some t := by
  have hnodes : (Json.array (t.nodes.toList.map (Node.toJson .plain))).list?
      (Node.ofJson? .plain) = some t.nodes.toList :=
    Json.list?_map fun n hn => Node.ofJson?_toJson (ht n (Array.mem_toList_iff.1 hn))
  simp [toJson, ofJson?, NodeKind.fields?_one, hnodes]

end Tree

end ReactiveDoc
