import ReactiveDoc.Proofs.Json.Layout
import ReactiveDoc.Ty.Encoding

namespace ReactiveDoc

/-!
# Types read back from JSON

What is written is read back if the numbers in it are: its decimals are finite and their texts are
read as they were, its offsets and counts have 64 bits.

* `Ty.Writable` — the numbers of a type are of that kind.
* `Ty.legible_toJson` — then its encoding survives being written as text.
* `Ty.ofJson?_toJson` — and the type is read from its encoding.
* `Ty.ofJson?_text` — so a type is read from its JSON text.
-/

open Json (maxSize legible_ofNat size?_ofNat)

/-! ### Literals -/

/-- The number is finite, and its JSON text is read as that number. -/
def Json.ReadsBack (x : Float) : Prop :=
  x.isFinite = true ∧ number? (Number.jsonText x).toList = some (.float x, [])

namespace Literal

/-- A number among the literals is read back. -/
def Writable : Literal → Prop
  | number x => Json.ReadsBack x
  | boolean _ | string _ => True

variable {l : Literal}

theorem legible_toJson (hl : l.Writable) : (l.toJson .plain).Legible := by
  cases l with
  | boolean | string => simp [toJson, Json.Legible]
  | number x => simpa [toJson, NumberForm.plain, Json.ofFloat, hl.1, Json.Legible] using hl.2

theorem ofJson?_toJson (hl : l.Writable) : ofJson? .plain (l.toJson .plain) = some l := by
  cases l with
  | boolean | string => simp [toJson, ofJson?, Json.bool?, Json.string?]
  | number x => simp [toJson, ofJson?, NumberForm.plain, Json.ofFloat, hl.1, Json.float?]

end Literal

/-! ### Type errors -/

namespace Span

/-- The offsets have 64 bits. -/
def Writable (s : Span) : Prop := s.start ≤ maxSize ∧ s.stop ≤ maxSize

variable {s : Span}

theorem legible_toJson (hs : s.Writable) : s.toJson.Legible :=
  ⟨legible_ofNat hs.1, legible_ofNat hs.2, trivial⟩

theorem ofJson?_toJson (hs : s.Writable) : ofJson? s.toJson = some s := by
  simp [toJson, ofJson?, Json.entries?, Json.lookup?, size?_ofNat hs.1, size?_ofNat hs.2]

end Span

namespace Complaint

/-- The counts have 64 bits. -/
def Writable : Complaint → Prop
  | arityMismatch expected found | tupleLength expected found =>
      expected ≤ maxSize ∧ found ≤ maxSize
  | _ => True

variable {c : Complaint}

theorem legible_texts (name : String) (fields : List (String × String)) :
    (texts name fields).Legible := by
  rw [texts, Json.legible_variant, Json.Legible]
  induction fields with
  | nil => trivial
  | cons f fs ih => exact ⟨trivial, ih⟩

theorem legible_toJson (hc : c.Writable) : c.toJson.Legible := by
  cases c with
  | arityMismatch | tupleLength =>
    rw [toJson, counts, Json.legible_variant]
    exact ⟨legible_ofNat hc.1, legible_ofNat hc.2, trivial⟩
  | cyclicDefinition chain =>
    rw [toJson, Json.legible_variant]
    exact ⟨Json.legible_array_map.2 fun _ _ => trivial, trivial⟩
  | notAnExpression => trivial
  | _ => exact legible_texts _ _

theorem counts?_record {m n : Nat} (hm : m ≤ Json.maxSize) (hn : n ≤ Json.maxSize) :
    counts? (.object [("expected", .ofNat m), ("found", .ofNat n)]) = some (m, n) := by
  simp [counts?, Json.entries?, Json.lookup?, size?_ofNat hm, size?_ofNat hn]

theorem ofJson?_toJson (hc : c.Writable) : ofJson? c.toJson = some c := by
  cases c with
  | arityMismatch =>
    exact congrArg (Option.map fun p => arityMismatch p.1 p.2) (counts?_record hc.1 hc.2)
  | tupleLength =>
    exact congrArg (Option.map fun p => tupleLength p.1 p.2) (counts?_record hc.1 hc.2)
  | cyclicDefinition chain =>
    have hchain : (Json.array (chain.map .string)).list? Json.string? = some chain :=
      Json.list?_map fun _ _ => rfl
    exact congrArg (Option.bind · (some ∘ cyclicDefinition)) hchain
  | _ => rfl

end Complaint

namespace TypeError

/-- The counts and the offsets have 64 bits. -/
def Writable (e : TypeError) : Prop := e.kind.Writable ∧ ∀ s ∈ e.span, s.Writable

variable {e : TypeError}

theorem legible_toJson (he : e.Writable) : e.toJson.Legible := by
  refine ⟨Complaint.legible_toJson he.1, ?_, Json.legible_array_map.2 fun _ _ => trivial, trivial⟩
  cases hs : e.span with
  | none => trivial
  | some s => exact Span.legible_toJson (he.2 s hs)

theorem ofJson?_toJson (he : e.Writable) : ofJson? e.toJson = some e := by
  obtain ⟨kind, span, hints⟩ := e
  have hkind : Complaint.ofJson? kind.toJson = some kind := Complaint.ofJson?_toJson he.1
  have hspan : Json.optional? Span.ofJson? (Json.ofOption Span.toJson span) = some span := by
    cases span with
    | none => rfl
    | some s => exact congrArg (Option.map some) (Span.ofJson?_toJson (he.2 s rfl))
  have hhints : (Json.array (hints.map .string)).list? Json.string? = some hints :=
    Json.list?_map fun _ _ => rfl
  simp [toJson, ofJson?, Json.entries?, Json.lookup?, Json.entryOr, hkind, hspan, hhints]

end TypeError

/-! ### Types -/

namespace Ty

mutual

/-- Every number in the type is read back. -/
def Writable : Ty → Prop
  | tuple items => WritableList items
  | array item => item.Writable
  | set item => item.Writable
  | map key value => key.Writable ∧ value.Writable
  | labelled _ args => WritableList args
  | function params result => WritableList params ∧ result.Writable
  | object fields => WritableFields fields
  | module exports => WritableExports exports
  | union arms => WritableList arms
  | intersection arms => WritableList arms
  | singleton base value => base.Writable ∧ value.Writable
  | complement ty => ty.Writable
  | error cause => cause.Writable
  | never | unknown | undefined | null | boolean | number | string => True

/-- Every number in the types is read back. -/
def WritableList : List Ty → Prop
  | [] => True
  | t :: ts => t.Writable ∧ WritableList ts

/-- Every number in the types of the fields is read back. -/
def WritableFields : List (Field Ty) → Prop
  | [] => True
  | ⟨_, t⟩ :: fs => t.Writable ∧ WritableFields fs

/-- Every number in the types of the exports is read back. -/
def WritableExports : List (Export Ty) → Prop
  | [] => True
  | ⟨_, t, _⟩ :: es => t.Writable ∧ WritableExports es

end

mutual

/-- The encoding of a writable type survives being written as text. -/
theorem legible_toJson : ∀ {t : Ty}, t.Writable → (t.toJson .plain).Legible
  | never, _ | unknown, _ | undefined, _ | null, _ | boolean, _ | number, _ | string, _ => trivial
  | tuple _, h | union _, h | intersection _, h =>
    Json.legible_variant.2 (legibleItems_toJsonList h)
  | array _, h | set _, h | complement _, h => Json.legible_variant.2 (legible_toJson h)
  | map _ _, h => Json.legible_variant.2 ⟨legible_toJson h.1, legible_toJson h.2, trivial⟩
  | labelled _ _, h => Json.legible_variant.2 ⟨trivial, legibleItems_toJsonList h, trivial⟩
  | function _ _, h =>
    Json.legible_variant.2 ⟨legibleItems_toJsonList h.1, legible_toJson h.2, trivial⟩
  | object _, h => Json.legible_variant.2 (legibleItems_toJsonFields h)
  | module _, h => Json.legible_variant.2 (legibleItems_toJsonExports h)
  | singleton _ _, h =>
    Json.legible_variant.2 ⟨legible_toJson h.1, Literal.legible_toJson h.2, trivial⟩
  | error _, h => Json.legible_variant.2 (TypeError.legible_toJson h)

theorem legibleItems_toJsonList : ∀ {ts : List Ty},
    WritableList ts → Json.LegibleItems (toJsonList .plain ts)
  | [], _ => trivial
  | _ :: _, h => ⟨legible_toJson h.1, legibleItems_toJsonList h.2⟩

theorem legibleItems_toJsonFields : ∀ {fs : List (Field Ty)},
    WritableFields fs → Json.LegibleItems (toJsonFields .plain fs)
  | [], _ => trivial
  | ⟨_, _⟩ :: _, h => ⟨⟨trivial, legible_toJson h.1, trivial⟩, legibleItems_toJsonFields h.2⟩

theorem legibleItems_toJsonExports : ∀ {es : List (Export Ty)},
    WritableExports es → Json.LegibleItems (toJsonExports .plain es)
  | [], _ => trivial
  | ⟨_, _, _⟩ :: _, h =>
    ⟨⟨trivial, legible_toJson h.1, trivial, trivial⟩, legibleItems_toJsonExports h.2⟩

end

theorem ofJsonWithin?_variant {form : NumberForm} {fuel : Nat} {name : String} {contents : Json}
    (h : ofName? name = none) :
    ofJsonWithin? form (fuel + 1) (Json.variant name contents) =
      ofParts? form (ofJsonWithin? form fuel) name contents := by
  simp [ofJsonWithin?, h]

mutual

/-- A writable type is read from its encoding with fuel for its depth. -/
theorem ofJsonWithin?_toJson : ∀ (t : Ty) {fuel : Nat}, t.Writable →
    (t.toJson .plain).depth < fuel → ofJsonWithin? .plain fuel (t.toJson .plain) = some t
  | _, 0, _, hf => absurd hf (Nat.not_lt_zero _)
  | never, fuel + 1, _, _ | unknown, fuel + 1, _, _ | undefined, fuel + 1, _, _
  | null, fuel + 1, _, _ | boolean, fuel + 1, _, _ | number, fuel + 1, _, _
  | string, fuel + 1, _, _ => rfl
  | tuple items, fuel + 1, h, hf => by
    simp only [toJson, Json.depth_variant, Json.depth] at hf
    have hitems := mapM_toJsonList items (by omega : _ < fuel) h
    rw [toJson, ofJsonWithin?_variant rfl]
    simp [ofParts?, Json.list?, Json.array?, hitems]
  | array item, fuel + 1, h, hf => by
    simp only [toJson, Json.depth_variant] at hf
    have hitem := ofJsonWithin?_toJson item h (by omega : _ < fuel)
    rw [toJson, ofJsonWithin?_variant rfl]
    simp [ofParts?, hitem]
  | set item, fuel + 1, h, hf => by
    simp only [toJson, Json.depth_variant] at hf
    have hitem := ofJsonWithin?_toJson item h (by omega : _ < fuel)
    rw [toJson, ofJsonWithin?_variant rfl]
    simp [ofParts?, hitem]
  | map key value, fuel + 1, h, hf => by
    simp only [toJson, Json.depth_variant, Json.depth, Json.depthOfItems] at hf
    have hkey := ofJsonWithin?_toJson key h.1 (by omega : _ < fuel)
    have hvalue := ofJsonWithin?_toJson value h.2 (by omega : _ < fuel)
    rw [toJson, ofJsonWithin?_variant rfl]
    simp [ofParts?, hkey, hvalue]
  | labelled label args, fuel + 1, h, hf => by
    simp only [toJson, Json.depth_variant, Json.depth, Json.depthOfItems] at hf
    have hargs := mapM_toJsonList args (by omega : _ < fuel) h
    rw [toJson, ofJsonWithin?_variant rfl]
    simp [ofParts?, Json.string?, Json.list?, Json.array?, hargs]
  | function params result, fuel + 1, h, hf => by
    simp only [toJson, Json.depth_variant, Json.depth, Json.depthOfItems] at hf
    have hparams := mapM_toJsonList params (by omega : _ < fuel) h.1
    have hresult := ofJsonWithin?_toJson result h.2 (by omega : _ < fuel)
    rw [toJson, ofJsonWithin?_variant rfl]
    simp [ofParts?, Json.list?, Json.array?, hparams, hresult]
  | object fields, fuel + 1, h, hf => by
    simp only [toJson, Json.depth_variant, Json.depth] at hf
    have hdepth : Json.depthOfItems (toJsonFields .plain fields) ≤ fuel := by omega
    have hfields := mapM_toJsonFields fields hdepth h
    rw [toJson, ofJsonWithin?_variant rfl]
    simp [ofParts?, Json.list?, Json.array?, hfields]
  | module exports, fuel + 1, h, hf => by
    simp only [toJson, Json.depth_variant, Json.depth] at hf
    have hdepth : Json.depthOfItems (toJsonExports .plain exports) ≤ fuel := by omega
    have hexports := mapM_toJsonExports exports hdepth h
    rw [toJson, ofJsonWithin?_variant rfl]
    simp [ofParts?, Json.list?, Json.array?, hexports]
  | union arms, fuel + 1, h, hf => by
    simp only [toJson, Json.depth_variant, Json.depth] at hf
    have harms := mapM_toJsonList arms (by omega : _ < fuel) h
    rw [toJson, ofJsonWithin?_variant rfl]
    simp [ofParts?, Json.list?, Json.array?, harms]
  | intersection arms, fuel + 1, h, hf => by
    simp only [toJson, Json.depth_variant, Json.depth] at hf
    have harms := mapM_toJsonList arms (by omega : _ < fuel) h
    rw [toJson, ofJsonWithin?_variant rfl]
    simp [ofParts?, Json.list?, Json.array?, harms]
  | singleton base value, fuel + 1, h, hf => by
    simp only [toJson, Json.depth_variant, Json.depth, Json.depthOfItems] at hf
    have hbase := ofJsonWithin?_toJson base h.1 (by omega : _ < fuel)
    rw [toJson, ofJsonWithin?_variant rfl]
    simp [ofParts?, hbase, Literal.ofJson?_toJson h.2]
  | complement ty, fuel + 1, h, hf => by
    simp only [toJson, Json.depth_variant] at hf
    have hty := ofJsonWithin?_toJson ty h (by omega : _ < fuel)
    rw [toJson, ofJsonWithin?_variant rfl]
    simp [ofParts?, hty]
  | error cause, fuel + 1, h, _ => by
    rw [toJson, ofJsonWithin?_variant rfl]
    simp [ofParts?, TypeError.ofJson?_toJson h]

/-- Writable types are read from their encodings. -/
theorem mapM_toJsonList : ∀ (ts : List Ty) {fuel : Nat},
    Json.depthOfItems (toJsonList .plain ts) < fuel → WritableList ts →
    (toJsonList .plain ts).mapM (ofJsonWithin? .plain fuel) = some ts
  | [], _, _, _ => rfl
  | t :: ts, fuel, hf, h => by
    simp only [toJsonList, Json.depthOfItems] at hf
    simp [toJsonList, List.mapM_cons, ofJsonWithin?_toJson t h.1 (by omega : _ < fuel),
      mapM_toJsonList ts (by omega : _ < fuel) h.2]

/-- Fields of writable types are read from their records. -/
theorem mapM_toJsonFields : ∀ (fs : List (Field Ty)) {fuel : Nat},
    Json.depthOfItems (toJsonFields .plain fs) ≤ fuel → WritableFields fs →
    (toJsonFields .plain fs).mapM (fieldOfJson? (ofJsonWithin? .plain fuel)) = some fs
  | [], _, _, _ => rfl
  | ⟨name, t⟩ :: fs, fuel, hf, h => by
    simp only [toJsonFields, Json.depthOfItems, Json.depth, Json.depthOfFields] at hf
    have ht := ofJsonWithin?_toJson t h.1 (by omega : _ < fuel)
    simp [toJsonFields, List.mapM_cons, fieldOfJson?, Json.entries?, Json.lookup?, Json.string?,
      ht, mapM_toJsonFields fs (by omega : _ ≤ fuel) h.2]

/-- Exports of writable types are read from their records. -/
theorem mapM_toJsonExports : ∀ (es : List (Export Ty)) {fuel : Nat},
    Json.depthOfItems (toJsonExports .plain es) ≤ fuel → WritableExports es →
    (toJsonExports .plain es).mapM (exportOfJson? (ofJsonWithin? .plain fuel)) = some es
  | [], _, _, _ => rfl
  | ⟨name, t, dynamic⟩ :: es, fuel, hf, h => by
    simp only [toJsonExports, Json.depthOfItems, Json.depth, Json.depthOfFields] at hf
    have ht := ofJsonWithin?_toJson t h.1 (by omega : _ < fuel)
    simp [toJsonExports, List.mapM_cons, exportOfJson?, Json.entries?, Json.lookup?, Json.string?,
      Json.bool?, ht, mapM_toJsonExports es (by omega : _ ≤ fuel) h.2]

end

variable {t : Ty}

/-- A writable type is read from its encoding. -/
theorem ofJson?_toJson (ht : t.Writable) : ofJson? .plain (t.toJson .plain) = some t :=
  ofJsonWithin?_toJson t ht (Nat.lt_succ_self _)

/-- A writable type whose encoding does not nest too deeply is read from its JSON text. -/
theorem ofJson?_text (ht : t.Writable) (hd : (t.toJson .plain).depth ≤ Json.maxDepth) :
    (Json.parse? (t.toJson .plain).compact).bind (ofJson? .plain) = some t := by
  rw [Json.parse?_compact (legible_toJson ht), Json.cut_eq _ hd]
  exact ofJson?_toJson ht

end Ty

end ReactiveDoc
