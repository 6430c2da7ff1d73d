import Mathlib
import ReactiveDoc.Proofs.Json.Distinct
import ReactiveDoc.Ty.Encoding

namespace ReactiveDoc

/-!
# Types are told apart by their JSON texts

Numbers that are not finite have no JSON form and are all written alike.

* `Number.blurred`, `Literal.blurred`, `Ty.blurred` — one number in place of all of these.
* `TypeError.written_inj` — errors, which have no such numbers, are told apart.
* `Ty.written_inj`, `Ty.toJson_blurred` — types are told apart as far as they differ when blurred.
-/

open Json (written writtenItems writtenFields variant)

/-! ### One number for those that are not finite -/

/-- The number, or not-a-number in place of one that is not finite. -/
def Number.blurred (x : Float) : Float := if x.isFinite then x else 0.0 / 0.0

/-- The literal with its number blurred. -/
def Literal.blurred : Literal → Literal
  | number x => number (Number.blurred x)
  | l => l

namespace Ty

mutual

/-- The type with its numbers blurred. -/
def blurred : Ty → Ty
  | tuple items => tuple (blurredList items)
  | array item => array item.blurred
  | set item => set item.blurred
  | map key value => map key.blurred value.blurred
  | labelled label args => labelled label (blurredList args)
  | function params result => function (blurredList params) result.blurred
  | object fields => object (blurredFields fields)
  | module exports => module (blurredExports exports)
  | union arms => union (blurredList arms)
  | intersection arms => intersection (blurredList arms)
  | singleton base value => singleton base.blurred value.blurred
  | complement ty => complement ty.blurred
  | t => t

/-- The types with their numbers blurred. -/
def blurredList : List Ty → List Ty
  | [] => []
  | t :: ts => t.blurred :: blurredList ts

/-- The fields with the numbers in their types blurred. -/
def blurredFields : List (Field Ty) → List (Field Ty)
  | [] => []
  | ⟨name, t⟩ :: fs => ⟨name, t.blurred⟩ :: blurredFields fs

/-- The exports with the numbers in their types blurred. -/
def blurredExports : List (Export Ty) → List (Export Ty)
  | [] => []
  | ⟨name, t, dynamic⟩ :: es => ⟨name, t.blurred, dynamic⟩ :: blurredExports es

end

end Ty

/-! ### Literals -/

namespace Json

@[simp] theorem variant_inj {name name' : String} {contents contents' : Json} :
    variant name contents = variant name' contents' ↔ name = name' ∧ contents = contents' := by
  simp [variant]

@[simp] theorem variant_ne_string {name : String} {contents : Json} {s : String} :
    variant name contents ≠ string s := by
  simp [variant]

@[simp] theorem string_ne_variant {name : String} {contents : Json} {s : String} :
    string s ≠ variant name contents := by
  simp [variant]

end Json

theorem Number.blurred_eq {x y : Float} (h : (Json.ofFloat x).written = (Json.ofFloat y).written) :
    blurred x = blurred y := by
  by_cases hx : x.isFinite = true <;> by_cases hy : y.isFinite = true <;>
    simp_all [Json.ofFloat, written, blurred]

theorem Number.ofFloat_blurred (x : Float) : Json.ofFloat (blurred x) = Json.ofFloat x := by
  by_cases hx : x.isFinite = true
  · rw [blurred, if_pos hx]
  · rw [blurred, if_neg hx, Json.ofFloat, Json.ofFloat, if_neg hx, if_neg]
    decide +kernel

theorem Literal.written_inj {l l' : Literal}
    (h : (l.toJson .plain).written = (l'.toJson .plain).written) : l.blurred = l'.blurred := by
  cases l <;> cases l' <;> simp [toJson, written] at h
  · rw [h]
  · exact congrArg number (Number.blurred_eq h)
  · rw [h]

theorem Literal.toJson_blurred (l : Literal) : l.blurred.toJson .plain = l.toJson .plain := by
  cases l with
  | number x => exact congrArg (Json.variant "Number") (Number.ofFloat_blurred x)
  | _ => rfl

/-! ### Type errors -/

theorem Span.written_inj {s s' : Span} (h : s.toJson.written = s'.toJson.written) : s = s' := by
  obtain ⟨start, stop⟩ := s
  obtain ⟨start', stop'⟩ := s'
  simp only [toJson, Json.ofNat, written, writtenFields] at h
  simp_all

theorem Json.strings_inj {texts texts' : List String}
    (h : writtenItems (texts.map string) = writtenItems (texts'.map string)) : texts = texts' := by
  rw [writtenItems_strings, writtenItems_strings] at h
  exact List.map_injective_iff.mpr (fun _ _ h => string.inj h) h

theorem Complaint.written_inj {c c' : Complaint} (h : c.toJson.written = c'.toJson.written) :
    c = c' := by
  -- Of two different causes the names differ already.
  cases c <;> cases c' <;>
    simp [toJson, texts, counts, written, writtenFields, Json.ofNat] at h ⊢
  case cyclicDefinition.cyclicDefinition => exact Json.strings_inj h
  all_goals exact h

/-- Errors are told apart by their texts. -/
theorem TypeError.written_inj {e e' : TypeError} (h : e.toJson.written = e'.toJson.written) :
    e = e' := by
  obtain ⟨kind, span, hints⟩ := e
  obtain ⟨kind', span', hints'⟩ := e'
  simp only [toJson, written, writtenFields, Json.object.injEq, List.cons.injEq, Prod.mk.injEq,
    true_and, and_true, Json.array.injEq] at h
  obtain ⟨hkind, hspan, hhints⟩ := h
  obtain rfl := Complaint.written_inj hkind
  obtain rfl := Json.strings_inj hhints
  obtain rfl : span = span' := by
    cases span with
    | none =>
      cases span' with
      | none => rfl
      | some s => cases hspan
    | some s =>
      cases span' with
      | none => cases hspan
      | some s' => rw [Span.written_inj hspan]
  rfl

/-! ### Types -/

namespace Ty

mutual

/-- Types are told apart by their texts, as far as they differ when blurred. -/
theorem written_inj : ∀ (t u : Ty), (t.toJson .plain).written = (u.toJson .plain).written →
    t.blurred = u.blurred
  | never, u, h | unknown, u, h | undefined, u, h | null, u, h | boolean, u, h | number, u, h
  | string, u, h => by
    cases u <;> simp [toJson, written] at h
    rfl
  | tuple ts, u, h | union ts, u, h | intersection ts, u, h => by
    cases u <;> simp [toJson, written] at h
    rw [blurred, blurred, writtenList_inj _ _ h]
  | array t, u, h | set t, u, h | complement t, u, h => by
    cases u <;> simp [toJson, written] at h
    rw [blurred, blurred, written_inj _ _ h]
  | map k v, u, h => by
    cases u <;> simp [toJson, written, writtenItems] at h
    rw [blurred, blurred, written_inj _ _ h.1, written_inj _ _ h.2]
  | labelled label ts, u, h => by
    cases u <;> simp [toJson, written, writtenItems] at h
    rw [blurred, blurred, h.1, writtenList_inj _ _ h.2]
  | function ts t, u, h => by
    cases u <;> simp [toJson, written, writtenItems] at h
    rw [blurred, blurred, writtenList_inj _ _ h.1, written_inj _ _ h.2]
  | object fs, u, h => by
    cases u <;> simp [toJson, written] at h
    rw [blurred, blurred, writtenFields_inj _ _ h]
  | module es, u, h => by
    cases u <;> simp [toJson, written] at h
    rw [blurred, blurred, writtenExports_inj _ _ h]
  | singleton base value, u, h => by
    cases u <;> simp [toJson, written, writtenItems] at h
    rw [blurred, blurred, written_inj _ _ h.1, Literal.written_inj h.2]
  | error e, u, h => by
    cases u <;> simp [toJson, written] at h
    rw [TypeError.written_inj h]

theorem writtenList_inj : ∀ ts us : List Ty,
    writtenItems (toJsonList .plain ts) = writtenItems (toJsonList .plain us) →
    blurredList ts = blurredList us
  | [], [], _ => rfl
  | [], u :: us, h => by simp [toJsonList, writtenItems] at h
  | t :: ts, [], h => by simp [toJsonList, writtenItems] at h
  | t :: ts, u :: us, h => by
    simp only [toJsonList, writtenItems, List.cons.injEq] at h
    rw [blurredList, blurredList, written_inj _ _ h.1, writtenList_inj _ _ h.2]

theorem writtenFields_inj : ∀ fs gs : List (Field Ty),
    writtenItems (toJsonFields .plain fs) = writtenItems (toJsonFields .plain gs) →
    blurredFields fs = blurredFields gs
  | [], [], _ => rfl
  | [], ⟨_, _⟩ :: gs, h => by simp [toJsonFields, writtenItems] at h
  | ⟨_, _⟩ :: fs, [], h => by simp [toJsonFields, writtenItems] at h
  | ⟨name, t⟩ :: fs, ⟨name', u⟩ :: gs, h => by
    simp [toJsonFields, writtenItems, written, writtenFields] at h
    rw [blurredFields, blurredFields, h.1.1, written_inj _ _ h.1.2, writtenFields_inj _ _ h.2]

theorem writtenExports_inj : ∀ es es' : List (Export Ty),
    writtenItems (toJsonExports .plain es) = writtenItems (toJsonExports .plain es') →
    blurredExports es = blurredExports es'
  | [], [], _ => rfl
  | [], ⟨_, _, _⟩ :: es', h => by simp [toJsonExports, writtenItems] at h
  | ⟨_, _, _⟩ :: es, [], h => by simp [toJsonExports, writtenItems] at h
  | ⟨name, t, dynamic⟩ :: es, ⟨name', u, dynamic'⟩ :: es', h => by
    simp [toJsonExports, writtenItems, written, writtenFields] at h
    rw [blurredExports, blurredExports, h.1.1, written_inj _ _ h.1.2.1, h.1.2.2,
      writtenExports_inj _ _ h.2]

end

mutual

/-- A type is written like the blurred one. -/
theorem toJson_blurred : ∀ t : Ty, t.blurred.toJson .plain = t.toJson .plain
  | never | unknown | undefined | null | boolean | number | string | error _ => rfl
  | tuple ts | union ts | intersection ts => by
    rw [blurred, toJson, toJson, toJsonList_blurred ts]
  | array t | set t | complement t => by rw [blurred, toJson, toJson, toJson_blurred t]
  | map k v => by rw [blurred, toJson, toJson, toJson_blurred k, toJson_blurred v]
  | labelled label ts => by rw [blurred, toJson, toJson, toJsonList_blurred ts]
  | function ts t => by rw [blurred, toJson, toJson, toJsonList_blurred ts, toJson_blurred t]
  | object fs => by rw [blurred, toJson, toJson, toJsonFields_blurred fs]
  | module es => by rw [blurred, toJson, toJson, toJsonExports_blurred es]
  | singleton base value => by
    rw [blurred, toJson, toJson, toJson_blurred base, value.toJson_blurred]

theorem toJsonList_blurred : ∀ ts : List Ty, toJsonList .plain (blurredList ts) = toJsonList .plain ts
  | [] => rfl
  | t :: ts => by rw [blurredList, toJsonList, toJsonList, toJson_blurred t, toJsonList_blurred ts]

theorem toJsonFields_blurred : ∀ fs : List (Field Ty),
    toJsonFields .plain (blurredFields fs) = toJsonFields .plain fs
  | [] => rfl
  | ⟨name, t⟩ :: fs => by
    rw [blurredFields, toJsonFields, toJsonFields, toJson_blurred t, toJsonFields_blurred fs]

theorem toJsonExports_blurred : ∀ es : List (Export Ty),
    toJsonExports .plain (blurredExports es) = toJsonExports .plain es
  | [] => rfl
  | ⟨name, t, dynamic⟩ :: es => by
    rw [blurredExports, toJsonExports, toJsonExports, toJson_blurred t, toJsonExports_blurred es]

end

end Ty

end ReactiveDoc
