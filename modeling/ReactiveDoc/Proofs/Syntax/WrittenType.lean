import ReactiveDoc.Proofs.Ty.Widening
import ReactiveDoc.Syntax.WrittenType

namespace ReactiveDoc

/-!
# Annotations name types in normal form

* `Ty.mem_firstByName`, `Ty.nodup_firstByName` — the entries that remain of a list with repeated
  names.
* `WrittenType.normal_resolve` — an annotation names a type in normal form.
* `Ty.normal_operations` — all operations that build types keep to the normal form.
-/

namespace Ty

/-! ### Entries by name -/

variable {α : Type} {name : α → String}

/-- What one more entry leaves of the entries that were kept. -/
theorem foldl_firstByName {kept entries : List α} (hk : (kept.map name).Nodup) :
    let rest := entries.foldl
      (fun kept e => if kept.any fun k => name k == name e then kept else kept ++ [e]) kept
    (rest.map name).Nodup ∧ ∀ e ∈ rest, e ∈ kept ∨ e ∈ entries := by
  induction entries generalizing kept with
  | nil => exact ⟨hk, fun e he => .inl he⟩
  | cons e es ih =>
    rw [List.foldl_cons]
    split
    next =>
      obtain ⟨hn, hm⟩ := ih hk
      exact ⟨hn, fun f hf => (hm f hf).imp_right (List.mem_cons_of_mem _)⟩
    next hnew =>
      have hnodup : ((kept ++ [e]).map name).Nodup := by
        rw [List.map_append, List.nodup_append]
        refine ⟨hk, by simp, ?_⟩
        simpa using hnew
      obtain ⟨hn, hm⟩ := ih hnodup
      refine ⟨hn, fun f hf => ?_⟩
      rcases hm f hf with hf | hf
      · rcases List.mem_append.1 hf with hf | hf
        · exact .inl hf
        · exact .inr (List.mem_singleton.1 hf ▸ List.mem_cons_self)
      · exact .inr (List.mem_cons_of_mem _ hf)

theorem mem_firstByName {entries : List α} {e : α} (h : e ∈ firstByName name entries) :
    e ∈ entries := by
  have hnil : (([] : List α).map name).Nodup := List.nodup_nil
  exact ((foldl_firstByName hnil).2 e h).resolve_left List.not_mem_nil

theorem nodup_firstByName (entries : List α) : ((firstByName name entries).map name).Nodup := by
  have hnil : (([] : List α).map name).Nodup := List.nodup_nil
  exact (foldl_firstByName hnil).1

theorem normal_objectOf {fields : List (Field Ty)} (h : ∀ f ∈ fields, Normal f.ty) :
    Normal (objectOf fields) :=
  .object (fun f hf => h f (mem_firstByName hf)) (nodup_firstByName fields)

end Ty

namespace WrittenType

/-! ### Annotations -/

theorem normal_labelled {label : String} {args : List Ty} (h : ∀ t ∈ args, t.Normal) :
    (labelled label args).Normal := by
  unfold labelled
  split
  · exact .array (h _ (by simp))
  · exact .set (h _ (by simp))
  · exact .map (h _ (by simp)) (h _ (by simp))
  · exact .labelled h

mutual

/-- An annotation names a type in normal form. -/
theorem normal_resolve : ∀ w : WrittenType, w.resolve.Normal
  | never => .never
  | unknown => .unknown
  | undefined => .undefined
  | null => .null
  | boolean => .boolean
  | number => .number
  | string => .string
  | literal value => .literal value
  | array item => .array (normal_resolve item)
  | tuple items => .tuple (normal_resolveList items)
  | object fields => Ty.normal_objectOf (normal_resolveFields fields)
  | function params result => .function (normal_resolveList params) (normal_resolve result)
  | union arms => Ty.normal_unionOf (normal_resolveList arms)
  | intersection arms => Ty.normal_intersectionOf (normal_resolveList arms)
  | reference _ args => normal_labelled (normal_resolveList args)

theorem normal_resolveList : ∀ ws : List WrittenType, ∀ t ∈ resolveList ws, t.Normal
  | [] => by simp [resolveList]
  | w :: ws => by
    rw [resolveList, List.forall_mem_cons]
    exact ⟨normal_resolve w, normal_resolveList ws⟩

theorem normal_resolveFields :
    ∀ fs : List (WrittenField WrittenType), ∀ f ∈ resolveFields fs, f.ty.Normal
  | [] => by simp [resolveFields]
  | ⟨name, written, isOptional⟩ :: fs => by
    rw [resolveFields, List.forall_mem_cons]
    refine ⟨?_, normal_resolveFields fs⟩
    have hw := normal_resolve written
    cases isOptional with
    | false => exact hw
    | true => exact Ty.normal_unionOf (by simpa using ⟨.undefined, hw⟩)

end

end WrittenType

/-! ### Operations -/

/-- Unions, intersections, widening and narrowing lead from types in normal form to types in
    normal form, and annotations name nothing else. -/
theorem Ty.normal_operations :
    (∀ ts : List Ty, (∀ t ∈ ts, Normal t) → Normal (unionOf ts)) ∧
      (∀ ts : List Ty, (∀ t ∈ ts, Normal t) → Normal (intersectionOf ts)) ∧
      (∀ t : Ty, Normal t → Normal t.widen) ∧
      (∀ a b : Ty, Normal a → Normal b → Normal (narrow a b)) ∧
      ∀ w : WrittenType, Normal w.resolve :=
  ⟨fun _ => normal_unionOf, fun _ => normal_intersectionOf, fun _ => normal_widen,
    fun _ _ => normal_narrow, WrittenType.normal_resolve⟩

/-- A number or a text. -/
def Ty.numberOrText : Ty := union [number, string]

/-- Of a union that is joined, met and narrowed, and of an annotation that repeats a field. -/
theorem Ty.normal_operations_numberOrText :
    Normal numberOrText ∧ Normal (unionOf [numberOrText, ofNumber 1]) ∧
      Normal (intersectionOf [numberOrText, complement (ofString "x")]) ∧
      Normal numberOrText.widen ∧
      Normal (narrow numberOrText (complement string)) ∧
      Normal (WrittenType.object [⟨"x", .number, true⟩, ⟨"x", .string, false⟩]).resolve := by
  have hd : Distinct number string := by simp [Distinct, isEquivalent, isSubtype, same]
  have hn : Normal numberOrText :=
    .union (by simpa using ⟨.number, .string⟩) (by simp [UnionArm]) (by simp) (by simpa using hd)
  obtain ⟨hunion, hmeet, hwiden, hnarrow, hresolve⟩ := normal_operations
  exact ⟨hn, hunion _ (by simpa using ⟨hn, .literal _⟩),
    hmeet _ (by simpa using ⟨hn, .complement (.literal _)⟩), hwiden _ hn,
    hnarrow _ _ hn (.complement .string), hresolve _⟩

end ReactiveDoc
