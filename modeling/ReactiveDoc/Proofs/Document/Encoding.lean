import ReactiveDoc.Document.Basic
import ReactiveDoc.Proofs.Syntax.Encoding

namespace ReactiveDoc

/-!
# Documents read back from JSON

* `Document.parse?_print` — a document is read from the text that is written for it.
* `readsBack` — so are documents and types alike, unless they nest too deeply.
-/

namespace Document

/-- The nodes are read back, and the fragments have ids of 32 bits. -/
def Writable (d : Document) : Prop :=
  d.tree.Writable ∧ ∀ id ∈ d.fragments, id ≤ maxNodeId

variable {d : Document}

theorem legible_toJson (hd : d.Writable) : (d.toJson .plain).Legible :=
  ⟨Tree.legible_toJson hd.1, NodeKind.legible_nodes hd.2, trivial⟩

/-- A writable document is read from its encoding. -/
theorem ofJson?_toJson (hd : d.Writable) : ofJson? .plain (d.toJson .plain) = some d := by
  simp [toJson, ofJson?, NodeKind.fields?_two, Tree.ofJson?_toJson hd.1,
    NodeKind.list?_nodes hd.2]

/-- A writable document that does not nest too deeply is read from its text. -/
theorem parse?_print (hd : d.Writable) (hdepth : (d.toJson .plain).depth ≤ Json.maxDepth) :
    parse? d.print = some d := by
  rw [parse?, print, Json.parse?_pretty (legible_toJson hd), Json.cut_eq _ hdepth]
  exact ofJson?_toJson hd

end Document

/-! ### Round trip -/

/-- Documents and types are read from the texts that are written for them, if their numbers are
    read back and their encodings do not nest more deeply than the reader follows. -/
theorem readsBack :
    (∀ d : Document, d.Writable → (d.toJson .plain).depth ≤ Json.maxDepth →
      Document.parse? d.print = some d) ∧
    ∀ t : Ty, t.Writable → (t.toJson .plain).depth ≤ Json.maxDepth →
      (Json.parse? (t.toJson .plain).compact).bind (Ty.ofJson? .plain) = some t :=
  ⟨fun _ hd hdepth => Document.parse?_print hd hdepth, fun _ ht hdepth => Ty.ofJson?_text ht hdepth⟩

theorem Json.readsBack_half : Json.ReadsBack 1.5 := by
  have hfinite : (1.5 : Float).isFinite = true := by decide +kernel
  have htext : Number.jsonText 1.5 = "1.5" := by decide +kernel
  have hvalue : scaled 15 (-1) = 1.5 := by decide +kernel
  have hinf : (1.5 : Float).isInf = false := by decide +kernel
  have hread : number? ['1', '.', '5'] = some (decimal false (scaled 15 (-1)), []) := rfl
  refine ⟨hfinite, ?_⟩
  rw [htext]
  show number? ['1', '.', '5'] = _
  simp [hread, hvalue, decimal, hinf]

/-- The document `const n: 1.5 = 1.5`. -/
def Document.half : Document :=
  ⟨⟨#[⟨⟨15, 18⟩, .literal (.number 1.5)⟩,
      ⟨⟨0, 18⟩, .constBinding "n" (some (.literal (.number 1.5))) 0 false⟩]⟩, [1]⟩

theorem Document.writable_half : half.Writable := by
  refine ⟨fun n hn => ?_, by simp [half, maxNodeId]⟩
  simp only [half, List.mem_toArray, List.mem_cons, List.not_mem_nil, or_false] at hn
  rcases hn with rfl | rfl
  · refine ⟨⟨by decide, by decide⟩, by simp [NodeKind.children], ?_, by simp [NodeKind.annotations]⟩
    simp [NodeKind.literal?, Literal.Writable, Json.readsBack_half]
  · refine ⟨⟨by decide, by decide⟩, by simp [NodeKind.children], by simp [NodeKind.literal?], ?_⟩
    simp [NodeKind.annotations, WrittenType.Writable, Literal.Writable, Json.readsBack_half]

/-- `const n: 1.5 = 1.5` and `1.5 | number[]` are read back. -/
theorem readsBack_constant :
    Document.half.Writable ∧ Document.parse? Document.half.print = some Document.half ∧
      (Json.parse? ((Ty.union [.ofNumber 1.5, .array .number]).toJson .plain).compact).bind
        (Ty.ofJson? .plain) = some (.union [.ofNumber 1.5, .array .number]) := by
  have ht : (Ty.union [.ofNumber 1.5, .array .number]).Writable :=
    ⟨⟨trivial, Json.readsBack_half⟩, trivial, trivial⟩
  exact ⟨Document.writable_half, readsBack.1 _ Document.writable_half (by decide +kernel),
    readsBack.2 _ ht (by decide +kernel)⟩

/-! ### Values that nest too deeply -/

/-- The type of lists of lists of numbers, `depth` lists deep. -/
def Ty.nested : Nat → Ty
  | 0 => .number
  | depth + 1 => .array (nested depth)

theorem Ty.writable_nested : ∀ depth, (nested depth).Writable
  | 0 => trivial
  | depth + 1 => writable_nested depth

/-- What a reader finds of lists that nest too deeply is no type. -/
theorem Ty.ofJsonWithin?_cut_nested : ∀ (depth room fuel : Nat), room < depth →
    ofJsonWithin? .plain fuel (((nested depth).toJson .plain).cut room) = none
  | 0, _, _, h => absurd h (Nat.not_lt_zero _)
  | _, _, 0, _ => rfl
  | depth + 1, 0, fuel + 1, _ => rfl
  | depth + 1, room + 1, fuel + 1, h => by
    have hitem := ofJsonWithin?_cut_nested depth room fuel (Nat.lt_of_succ_lt_succ h)
    have hcut : ((nested (depth + 1)).toJson .plain).cut (room + 1) =
        Json.variant "Array" (((nested depth).toJson .plain).cut room) := rfl
    rw [hcut, ofJsonWithin?_variant rfl]
    simp [ofParts?, hitem]

/-- Lists that nest more deeply than the reader follows are not read back. -/
theorem Ty.unread_nested {depth : Nat} (h : Json.maxDepth < depth) :
    (Json.parse? ((nested depth).toJson .plain).compact).bind (ofJson? .plain) = none := by
  rw [Json.parse?_compact (legible_toJson (writable_nested depth)), Option.bind_some]
  exact ofJsonWithin?_cut_nested depth _ _ h

/-- Lists nested one level deeper than the reader follows have no numbers to lose, but they are
    written and not read back. -/
theorem nested_unread :
    (Ty.nested (Json.maxDepth + 1)).Writable ∧
      (Json.parse? ((Ty.nested (Json.maxDepth + 1)).toJson .plain).compact).bind
        (Ty.ofJson? .plain) = none :=
  ⟨Ty.writable_nested _, Ty.unread_nested (Nat.lt_succ_self _)⟩

end ReactiveDoc
