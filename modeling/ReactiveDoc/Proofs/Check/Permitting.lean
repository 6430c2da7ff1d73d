import ReactiveDoc.Proofs.Check.Covered
import ReactiveDoc.Proofs.Check.Replaying
import ReactiveDoc.Proofs.Check.Steady
import ReactiveDoc.Proofs.Ty.Uniting

namespace ReactiveDoc.Check

/-!
# Checking permits what can be synthesized

An expression whose own type fits what is expected is accepted where that is expected.

* `Asked` — what is expected of the parts of an expression, where it is taken apart.
* `PartsFit`, `Fits` — what the parts of a form need to satisfy besides having no errors, at one
  node and wherever a type is expected.
* `partsFit_array`, `partsFit_conditional` — they do where no type is lost in a union.
* `arrayForm_clean`, `objectForm_clean`, `arrowForm_clean`, `conditionalForm_clean` — the forms that
  are taken apart.
* `permits` — at every depth the judgement against a type permits what the other one does.
* `check_permits` — so it is of the whole expression.
* `fits_of_parts` — the parts of an expression fit one by one.
* `Refused`, `parts_refused` — what is not accepted where its parts do not fit.
-/

variable {s : Setting} {t : Tree} {D E : NodeId → Prop} {N : String → Prop} {depth : Nat}
  {x y : NodeId} {M m m' : InterfaceMap} {env env₀ : TypeEnv} {T : Ty} {typing : Typing}

/-! ### What is expected of the parts -/

/-- Where `T` is expected of the first node, a type is expected of the second one. -/
inductive Asked (t : Tree) : NodeId → Ty → NodeId → Ty → Prop
  | here {x : NodeId} {T : Ty} : Asked t x T x T
  | element {x e y : NodeId} {elements : List NodeId} {item u : Ty}
      (hkind : t.kind x = .ok (.array elements)) (he : e ∈ elements) (h : Asked t e item y u) :
      Asked t x (.array item) y u
  | field {x p value y : NodeId} {properties : List NodeId} {fields : List (Field Ty)}
      {key : String} {field : Field Ty} {u : Ty} (hkind : t.kind x = .ok (.object properties))
      (hp : p ∈ properties) (hproperty : t.kind p = .ok (.property key value))
      (hfield : fields.find? (fun f => f.name == key) = some field)
      (h : Asked t value field.ty y u) : Asked t x (.object fields) y u
  | body {x body y : NodeId} {params : List Param} {types : List Ty} {result u : Ty}
      (hkind : t.kind x = .ok (.arrow params body)) (h : Asked t body result y u) :
      Asked t x (.function types result) y u
  | consequent {x test consequent alternate y : NodeId} {T u : Ty}
      (hkind : t.kind x = .ok (.conditional test consequent alternate))
      (h : Asked t consequent T y u) : Asked t x T y u
  | alternate {x test consequent alternate y : NodeId} {T u : Ty}
      (hkind : t.kind x = .ok (.conditional test consequent alternate))
      (h : Asked t alternate T y u) : Asked t x T y u

/-- The type that is recorded for a node. -/
def typeAt (M : InterfaceMap) (x : NodeId) : Ty := ((M.get? x).map Interface.ty).getD .never

/-- What the parts of a form satisfy of which a type is expected.  Elements and branches fit if the
    type does in which they come together, parameters without annotation are expected to be of any
    type, and the branch that is not taken fits as well. -/
def PartsFit (M : InterfaceMap) : NodeKind → Ty → Prop
  | .array elements, .array item =>
      (Ty.unionOf (elements.map fun e => (typeAt M e).widen)).isSubtype item = true →
        ∀ e ∈ elements, (typeAt M e).isSubtype item = true
  | .arrow params _, .function types _ =>
      ∀ pair ∈ params.zip types, pair.1.written? = none → pair.2 = .unknown
  | .conditional test consequent alternate, T =>
      match truthOf M test with
      | some true => (typeAt M alternate).isSubtype T = true
      | some false => (typeAt M consequent).isSubtype T = true
      | none =>
          (Ty.unionOf [typeAt M consequent, typeAt M alternate]).isSubtype T = true →
            (typeAt M consequent).isSubtype T = true ∧ (typeAt M alternate).isSubtype T = true
  | _, _ => True

/-- Elements fit if widening loses nothing of their types and neither does the union. -/
theorem partsFit_array {elements : List NodeId} {item : Ty}
    (hlossless : ∀ e ∈ elements, (typeAt M e).Lossless)
    (hunites : Ty.Unites (elements.map fun e => (typeAt M e).widen) item) :
    PartsFit M (.array elements) (.array item) := fun hle e he =>
  (hlossless e he).sharesBounds.le item (hunites.isSubtype hle (List.mem_map_of_mem he))

/-- Branches of which either may be taken fit if the union loses nothing of their types. -/
theorem partsFit_conditional {test consequent alternate : NodeId} (htest : truthOf M test = none)
    (hunites : Ty.Unites [typeAt M consequent, typeAt M alternate] T) :
    PartsFit M (.conditional test consequent alternate) T := by
  rw [PartsFit, htest]
  exact fun hle => ⟨hunites.isSubtype hle (by simp), hunites.isSubtype hle (by simp)⟩

/-- Wherever a type is expected below, the parts fit. -/
def Fits (t : Tree) (M : InterfaceMap) (x : NodeId) (T : Ty) : Prop :=
  ∀ y u kind, Asked t x T y u → t.kind y = .ok kind → PartsFit M kind u

/-- The node has not failed. -/
abbrev Succeeds (i : Interface) : Prop := ∃ typing, i = .ok typing

/-! ### Places -/

/-- What a node has in common with itself is at and below it. -/
theorem Common.narrowed (h : Common t t D depth N x) (hE : ∀ y, t.AtOrBelow x y → E y) :
    Common t t E depth N x := by
  induction depth generalizing N x with
  | zero => exact h.elim
  | succ depth ih =>
    obtain ⟨-, n, hn, -, hparts⟩ := h
    have hkind : t.kind x = .ok n.kind := by simp [Tree.kind, hn, Except.map]
    refine ⟨hE x .refl, n, hn, hn, ?_⟩
    have hbelow {child : NodeId} (hchild : child ∈ n.kind.children) (y : NodeId)
        (hy : t.AtOrBelow child y) : E y := hE y (.head ⟨_, hkind, hchild⟩ hy)
    cases hform : n.kind with
    | identifier name =>
      rw [hform] at hparts
      exact hparts
    | arrow params body =>
      rw [hform] at hparts hbelow
      exact ih hparts (hbelow List.mem_cons_self)
    | _ =>
      rw [hform] at hparts hbelow
      exact fun child hchild => ih (hparts child hchild) (hbelow hchild)

/-- What is below one part of a node is not below another. -/
theorem children_apart (ht : t.TreeShaped) {kind : NodeKind} (hkind : t.kind x = .ok kind) :
    kind.children.Pairwise (Apart t.AtOrBelow) := by
  refine (ht.once x kind hkind).pairwise_of_forall_ne fun c hc d hd hne z hdz hcz => ?_
  have hapart {c d : NodeId} (hc : c ∈ kind.children) (hd : d ∈ kind.children) (hne : c ≠ d) :
      ¬ t.AtOrBelow c d := by
    intro hcd
    rcases Relation.reflTransGen_iff_eq_or_transGen.mp hcd with rfl | hbelow
    · exact hne rfl
    · exact ht.not_atOrBelow_of_childOf ⟨_, hkind, hc⟩ (ht.atOrBelow_parent ⟨_, hkind, hd⟩ hbelow)
  rcases ht.comparable hcz hdz with h | h
  · exact hapart hc hd hne h
  · exact hapart hd hc hne.symm h

theorem atOrBelow_of_below (z : NodeId) (hz : t.Below x z) : t.AtOrBelow x z := hz.to_reflTransGen

theorem atOrBelow_of_eq (z : NodeId) (hz : z = x) : t.AtOrBelow x z := hz ▸ .refl

theorem not_below_of_eq (ht : t.TreeShaped) (z : NodeId) (hz : z = x) : ¬ t.Below x z :=
  hz ▸ ht.acyclic x

theorem below_of_child {kind : NodeKind} (hkind : t.kind x = .ok kind) {c : NodeId}
    (hchild : c ∈ kind.children) (z : NodeId) (hz : t.AtOrBelow c z) : t.Below x z :=
  .head' ⟨_, hkind, hchild⟩ hz

/-! ### What has been recorded -/

theorem held_of_synth {i : Interface} (h : (rules s depth).synth x env m = .ok (i, m')) :
    m'.get? x = some i := by
  cases depth with
  | zero => cases h
  | succ depth =>
    have h : heldOr x (do record s x (← synthForm s (rules s depth) x env)) m = .ok (i, m') := h
    cases hget : m.get? x with
    | some held =>
      rw [heldOr_of_some hget] at h
      cases h
      exact hget
    | none =>
      rw [heldOr_of_none hget] at h
      obtain ⟨_, _, -, hrecord⟩ := bind_eq_ok h
      exact held_of_record hrecord

theorem Ran.held {i : Interface} (h : Ran M D ((rules s depth).synth x env) i) :
    M.get? x = some i := by
  obtain ⟨m, m', -, hrun, hM⟩ := h
  exact hM.held x i (held_of_synth hrun)

/-- Where there are no errors the node has a type. -/
theorem Ran.succeeds {i : Interface} (h : Ran M D ((rules s depth).synth x env) i)
    (hfree : ErrorFree D M) (hx : D x) : ∃ typing, i = .ok typing ∧ typeAt M x = typing.ty := by
  have hheld := h.held
  cases i with
  | error e => exact absurd hheld (hfree x e hx)
  | ok typing => exact ⟨typing, rfl, by rw [typeAt, hheld]; rfl⟩

/-! ### Forms that are taken apart -/

/-- What has a type without errors, and fits where the type is expected, is accepted there. -/
def Permits (s : Setting) (M : InterfaceMap) (depth : Nat) : Prop :=
  ∀ {N : String → Prop} {x : NodeId} {env env₀ : TypeEnv} {T : Ty} {typing : Typing},
    Common s.tree s.tree (fun _ => True) depth N x → SameFor N env env₀ →
    Ran M (s.tree.AtOrBelow x) ((rules s depth).synth x env) (.ok typing) →
    ErrorFree (s.tree.AtOrBelow x) M → typing.ty.isSubtype T = true → Fits s.tree M x T →
    Clean (s.tree.AtOrBelow x) ((rules s depth).check x env₀ T) Succeeds

section

variable (hs : Comparable s s depth)

include hs

/-- Environments that look the same make no difference to the judgements, wherever these look. -/
theorem rules_self : RulesAlike D (Common s.tree s.tree D depth) (rules s depth) (rules s depth) :=
  rules_alike hs (Nat.le_refl depth) (Nat.le_refl depth)

theorem synth_alike (h : Common s.tree s.tree (fun _ => True) depth N x)
    (henv : SameFor N env env₀) :
    Alike (s.tree.AtOrBelow x) Eq ((rules s depth).synth x env) ((rules s depth).synth x env₀) :=
  (rules_self hs).synth (h.narrowed fun _ => id) henv

theorem synth_within (h : Common s.tree s.tree (fun _ => True) depth N x) (env : TypeEnv) :
    Within (s.tree.AtOrBelow x) ((rules s depth).synth x env) :=
  (synth_alike hs h (.refl N env)).within

variable (ht : s.tree.TreeShaped) (hp : Permits s M depth) (henv : SameFor N env env₀)

include ht hp henv

/-! #### Arrays -/

theorem arrayForm_clean {elements : List NodeId} {item : Ty} {items : List Interface}
    (hkind : s.tree.kind x = .ok (.array elements))
    (hparts : ∀ e ∈ elements, Common s.tree s.tree (fun _ => True) depth N e)
    (hran : Ran M (s.tree.Below x) (elements.mapM fun e => (rules s depth).synth e env) items)
    (hfree : ErrorFree (s.tree.Below x) M)
    (hle : (arrayTyping items).ty.isSubtype (.array item) = true)
    (hfits : Fits s.tree M x (.array item)) :
    Clean (s.tree.Below x) (elements.mapM fun e => (rules s depth).check e env₀ item)
      fun _ => True := by
  have hbelow (e : NodeId) (he : e ∈ elements) := below_of_child hkind (c := e) he
  have hapart : elements.Pairwise (Apart s.tree.AtOrBelow) := children_apart ht hkind
  have heach := hran.mapM (fun e he => synth_within hs (hparts e he) env) hbelow hapart
  have hfit : PartsFit M (.array elements) (.array item) := hfits _ _ _ .here hkind
  have htype {e : NodeId} {i : Interface} (he : e ∈ elements)
      (h : Ran M (s.tree.AtOrBelow e) ((rules s depth).synth e env) i) :
      ∃ typing, i = .ok typing ∧ typeAt M e = typing.ty :=
    h.succeeds (hfree.mono (hbelow e he)) .refl
  have hitems : (elements.map fun e => (typeAt M e).widen) = items.map fun i => i.ty.widen := by
    rw [← List.forall₂_eq_eq_eq, List.forall₂_map_left_iff, List.forall₂_map_right_iff]
    refine forall₂_mono heach fun e he i h => ?_
    obtain ⟨typing, rfl, hty⟩ := htype he h
    rw [hty]
    rfl
  rw [arrayTyping, Ty.isSubtype_array, ← hitems] at hle
  refine Clean.mapM (Q := Succeeds) (fun e he => ?_) hbelow hapart
  obtain ⟨i, -, h⟩ := exists_right_of_mem heach he
  obtain ⟨typing, rfl, hty⟩ := htype he h
  exact hp (hparts e he) henv h (hfree.mono (hbelow e he)) (hty ▸ hfit hle e he)
    fun y u kind hasked => hfits y u kind (.element hkind he hasked)

/-! #### Objects -/

/-- A property whose value has the type of the field. -/
def PropertyRan (s : Setting) (M : InterfaceMap) (depth : Nat) (env : TypeEnv) (p : NodeId)
    (f : Field Ty) : Prop :=
  ∃ value typing, s.tree.kind p = .ok (.property f.name value) ∧ f.ty = typing.ty ∧
    Ran M (s.tree.AtOrBelow value) ((rules s depth).synth value env) (.ok typing)

omit ht hp henv in
/-- Without errors, a property adds a field whose name is new. -/
theorem addProperty_ran (ht : s.tree.TreeShaped) {p : NodeId} {parts parts' : ObjectParts}
    (hcommon : Common s.tree s.tree (fun _ => True) depth N p)
    (hran : Ran M (s.tree.AtOrBelow p) (addProperty s (rules s depth) env parts p) parts')
    (hfree : ErrorFree (s.tree.AtOrBelow p) M) :
    ∃ f, PropertyRan s M depth env p f ∧ f.name ∉ parts.fields.map Field.name ∧
      parts'.fields = parts.fields ++ [f] ∧ parts'.duplicate? = parts.duplicate? := by
  cases depth with
  | zero => exact hcommon.elim
  | succ depth =>
    obtain ⟨kind, hkind, -, hparts⟩ := hcommon.kind
    obtain ⟨span, hspan, -⟩ := hcommon.span
    have hno {e : TypeError} : M.get? p ≠ some (.error e) := hfree p e .refl
    unfold addProperty at hran
    rw [kindOf_bind hkind] at hran
    cases kind with
    | property key value =>
      have hvalue := (hparts value List.mem_cons_self).mono (Nat.le_succ depth)
      have hbelow := below_of_child hkind (c := value) List.mem_cons_self
      have hchild (z : NodeId) (hz : s.tree.AtOrBelow value z) : s.tree.AtOrBelow p z :=
        atOrBelow_of_below z (hbelow z hz)
      have hwithin (i : Interface) : Within (· = p) (record s p i) :=
        within_record (D := (· = p)) rfl hspan i
      obtain ⟨i, hi, hrest⟩ := hran.bind (F := (· = p)) (synth_within hs hvalue env) (fun i => by
          dsimp only
          split
          · rw [liftM_bind hspan]
            exact ((hwithin _).bind fun _ => within_pure _).bind fun _ => within_pure _
          · exact (hwithin _).bind fun _ => within_pure _)
        hchild atOrBelow_of_eq fun z hz hz' => not_below_of_eq ht z hz (hbelow z hz')
      obtain ⟨typing, rfl, -⟩ := hi.succeeds (hfree.mono hchild) .refl
      dsimp only at hrest
      split at hrest
      · -- A repeated key is an error at the property.
        rw [liftM_bind hspan] at hrest
        obtain ⟨e, he⟩ := hrest.mark_error hspan
        exact absurd he hno
      · rename_i hnew
        obtain ⟨held, hrecord, rfl⟩ := hrest.of_bind_pure
        obtain ⟨rfl, -⟩ := hrecord.record hspan
        refine ⟨⟨key, typing.ty⟩, ⟨value, typing, hkind, rfl, hi⟩, ?_, rfl, rfl⟩
        simpa using hnew
    | _ =>
      obtain ⟨e, he⟩ := (hran.mono atOrBelow_of_eq).mark_error hspan
      exact absurd he hno

omit ht hp henv in
/-- Without errors, an object has one field for each property. -/
theorem addProperties_ran (ht : s.tree.TreeShaped) {properties : List NodeId}
    {parts final : ObjectParts}
    (hparts : ∀ p ∈ properties, Common s.tree s.tree (fun _ => True) depth N p)
    (hran : Ran M D (properties.foldlM (addProperty s (rules s depth) env) parts) final)
    (hfree : ErrorFree D M) (hD : ∀ p ∈ properties, ∀ z, s.tree.AtOrBelow p z → D z)
    (hapart : properties.Pairwise (Apart s.tree.AtOrBelow))
    (hnodup : (parts.fields.map Field.name).Nodup) :
    ∃ fields, List.Forall₂ (PropertyRan s M depth env) properties fields ∧
      final.fields = parts.fields ++ fields ∧ (final.fields.map Field.name).Nodup ∧
      final.duplicate? = parts.duplicate? := by
  -- The properties that are left have nodes of their own, so `D` shrinks with them.
  induction properties generalizing parts D with
  | nil =>
    obtain ⟨m, m', -, hrun, -⟩ := hran
    cases hrun
    exact ⟨[], .nil, (List.append_nil _).symm, hnodup, rfl⟩
  | cons p ps ih =>
    rw [List.foldlM_cons] at hran
    rw [List.forall_mem_cons] at hparts hD
    obtain ⟨hfirst, hapart⟩ := List.pairwise_cons.mp hapart
    have hwithin {p : NodeId} (h : Common s.tree s.tree (fun _ => True) depth N p)
        (parts : ObjectParts) :
        Within (s.tree.AtOrBelow p) (addProperty s (rules s depth) env parts p) :=
      (addProperty_alike (rules_self hs) parts (h.narrowed fun _ => id) (.refl N env)).within
    obtain ⟨parts', hp, hrest⟩ := hran.bind (hwithin hparts.1 parts)
      (Within.foldlM fun parts q hq => (hwithin (hparts.2 q hq) parts).mono (ofSome_of_mem hq))
      hD.1 (of_ofSome hD.2) (not_of_ofSome hfirst)
    obtain ⟨f, hf, hnew, hfields, hduplicate⟩ :=
      addProperty_ran hs ht hparts.1 hp (hfree.mono hD.1)
    have hnodup' : (parts'.fields.map Field.name).Nodup := by
      rw [hfields, List.map_append]
      exact hnodup.append (List.nodup_singleton _) (by simpa using hnew)
    obtain ⟨fields, hran, hfinal, hnodup', hduplicate'⟩ := ih hparts.2 hrest
      (hfree.mono (of_ofSome hD.2)) (fun q hq => ofSome_of_mem hq) hapart hnodup'
    refine ⟨f :: fields, .cons hf hran, ?_, hnodup', hduplicate'.trans hduplicate⟩
    rw [hfinal, hfields, List.append_assoc, List.singleton_append]

/-- A property whose value fits its field is accepted. -/
theorem checkProperty_clean {p : NodeId} {f : Field Ty} {fields : List (Field Ty)}
    {seen : CheckedKeys} (hcommon : Common s.tree s.tree (fun _ => True) depth N p)
    (hran : PropertyRan s M depth env p f) (hfree : ErrorFree (s.tree.AtOrBelow p) M)
    (hnew : f.name ∉ seen.keys)
    (hfits : ∀ g, fields.find? (fun g => g.name == f.name) = some g →
      f.ty.isSubtype g.ty = true ∧
        ∀ value, s.tree.kind p = .ok (.property f.name value) → Fits s.tree M value g.ty) :
    Clean (s.tree.AtOrBelow p) (checkProperty s (rules s depth) env₀ fields seen p)
      fun out => out.duplicate? = seen.duplicate? ∧ out.keys = f.name :: seen.keys := by
  obtain ⟨value, typing, hkind, hty, hran⟩ := hran
  obtain ⟨name, ty⟩ := f
  cases hty
  cases depth with
  | zero => exact hcommon.elim
  | succ depth =>
    obtain ⟨kind, hkind', -, hparts⟩ := hcommon.kind
    obtain ⟨span, hspan, -⟩ := hcommon.span
    obtain rfl := Except.ok.inj (hkind'.symm.trans hkind)
    have hvalue := (hparts value List.mem_cons_self).mono (Nat.le_succ depth)
    have hbelow := below_of_child hkind (c := value) List.mem_cons_self
    have hchild (z : NodeId) (hz : s.tree.AtOrBelow value z) : s.tree.AtOrBelow p z :=
      atOrBelow_of_below z (hbelow z hz)
    -- However the value is checked, the property records what that gives.
    have hrecord {y : CheckM Interface} {f : Interface → CheckedKeys}
        (hy : Clean (s.tree.AtOrBelow value) y Succeeds)
        (hf : ∀ i, (f i).duplicate? = seen.duplicate? ∧ (f i).keys = name :: seen.keys) :
        Clean (s.tree.AtOrBelow p) (do
            let value ← y
            let value ← record s p (value.map Typing.read)
            pure (f value))
          fun out => out.duplicate? = seen.duplicate? ∧ out.keys = name :: seen.keys := by
      refine hy.bind (F := (· = p)) (fun i ⟨typing, hi⟩ => hi ▸ ?_) hchild atOrBelow_of_eq
        fun z hz hz' => not_below_of_eq ht z hz (hbelow z hz')
      exact (clean_record hspan typing.read).map fun i _ => hf i
    unfold checkProperty
    rw [kindOf_bind hkind]
    dsimp only
    rw [if_neg (by simpa using hnew)]
    split
    · rename_i g hg
      obtain ⟨hle, hfits⟩ := hfits g hg
      refine hrecord (hp hvalue henv hran (hfree.mono hchild) hle (hfits value hkind)) ?_
      exact fun _ => ⟨rfl, rfl⟩
    · refine hrecord ((hran.clean (hfree.mono hchild) (synth_alike hs hvalue henv)).imp ?_) ?_
      · exact fun i hi => ⟨typing, hi.symm⟩
      · exact fun _ => ⟨rfl, rfl⟩

/-- Properties whose values fit their fields are accepted. -/
theorem checkProperties_clean {properties : List NodeId} {added fields : List (Field Ty)}
    {seen : CheckedKeys}
    (hcommon : ∀ p ∈ properties, Common s.tree s.tree (fun _ => True) depth N p)
    (hran : List.Forall₂ (PropertyRan s M depth env) properties added) (hfree : ErrorFree D M)
    (hD : ∀ p ∈ properties, ∀ z, s.tree.AtOrBelow p z → D z)
    (hapart : properties.Pairwise (Apart s.tree.AtOrBelow))
    (hnodup : (added.map Field.name).Nodup) (hnew : ∀ f ∈ added, f.name ∉ seen.keys)
    (hfits : ∀ p ∈ properties, ∀ f ∈ added, ∀ g,
      fields.find? (fun g => g.name == f.name) = some g → f.ty.isSubtype g.ty = true ∧
        ∀ value, s.tree.kind p = .ok (.property f.name value) → Fits s.tree M value g.ty) :
    Clean D (properties.foldlM (checkProperty s (rules s depth) env₀ fields) seen) fun out =>
      out.duplicate? = seen.duplicate? ∧
        ∀ key, key ∈ out.keys ↔ key ∈ added.map Field.name ∨ key ∈ seen.keys := by
  induction hran generalizing seen D with
  | nil => exact clean_pure ⟨rfl, fun key => by simp⟩
  | @cons p f ps added hran _ ih =>
    rw [List.forall_mem_cons] at hcommon hD
    rw [List.forall_mem_cons] at hnew
    obtain ⟨hfirst, hapart⟩ := List.pairwise_cons.mp hapart
    obtain ⟨hname, hnodup⟩ := List.nodup_cons.mp hnodup
    rw [List.foldlM_cons]
    refine (checkProperty_clean hs ht hp henv hcommon.1 hran (hfree.mono hD.1) hnew.1
      fun g hg => hfits p List.mem_cons_self f List.mem_cons_self g hg).bind
        (F := OfSome s.tree.AtOrBelow ps) (fun seen' hseen' => ?_) hD.1 (of_ofSome hD.2)
        (not_of_ofSome hfirst)
    obtain ⟨hduplicate, hkeys⟩ := hseen'
    refine (ih hcommon.2 (hfree.mono (of_ofSome hD.2)) (fun q hq => ofSome_of_mem hq) hapart hnodup
      (fun g hg => ?_)
      fun q hq g hg => hfits q (List.mem_cons_of_mem p hq) g (List.mem_cons_of_mem f hg)).imp
        fun out hout => ?_
    · rw [hkeys, List.mem_cons, not_or]
      exact ⟨fun heq => hname (heq ▸ List.mem_map_of_mem hg), hnew.2 g hg⟩
    · refine ⟨hout.1.trans hduplicate, fun key => ?_⟩
      rw [hout.2 key, hkeys, List.map_cons, List.mem_cons, List.mem_cons]
      exact or_left_comm.trans or_assoc.symm

theorem objectForm_clean {properties : List NodeId} {fields : List (Field Ty)}
    (hkind : s.tree.kind x = .ok (.object properties))
    (hparts : ∀ p ∈ properties, Common s.tree s.tree (fun _ => True) depth N p)
    (hran : Ran M (s.tree.Below x) (synthObject s (rules s depth) properties env) (.ok typing))
    (hfree : ErrorFree (s.tree.Below x) M)
    (hle : typing.ty.isSubtype (.object fields) = true)
    (hfits : Fits s.tree M x (.object fields)) :
    Clean (s.tree.Below x) (checkObject s (rules s depth) properties env₀ fields) Succeeds := by
  have hbelow (p : NodeId) (hp : p ∈ properties) := below_of_child hkind (c := p) hp
  have hapart : properties.Pairwise (Apart s.tree.AtOrBelow) := children_apart ht hkind
  obtain ⟨final, hran, hfinal⟩ := hran.of_bind_pure
  obtain ⟨added, hadded, hfields, hnodup, hduplicate⟩ :=
    addProperties_ran hs ht hparts hran hfree hbelow hapart List.nodup_nil
  rw [List.nil_append] at hfields
  rw [hduplicate] at hfinal
  cases hfinal
  rw [hfields] at hle hnodup
  obtain ⟨hmembers, hmissing⟩ := Ty.forall_of_isSubtype_object hnodup hle
  refine (checkProperties_clean hs ht hp henv hparts hadded hfree hbelow hapart hnodup
    (fun _ _ => List.not_mem_nil) fun p hp f hf g hg => ⟨hmembers f hf g hg, ?_⟩).map
      fun out hout => ?_
  · exact fun value hproperty y u kind hasked =>
      hfits y u kind (.field hkind hp hproperty hg hasked)
  · obtain ⟨hduplicate, hkeys⟩ := hout
    have hnone : missingField? fields out.keys = none := by
      refine List.find?_eq_none.mpr fun g hg => ?_
      by_cases hkey : g.name ∈ added.map Field.name
      · simp [(hkeys g.name).mpr (.inl hkey)]
      · simp [hmissing g hg hkey]
    rw [hduplicate, hnone]
    exact ⟨_, rfl⟩

/-! #### Arrows -/

omit hs ht hp henv in
/-- What is expected of the parameters is part of what they are declared to be, and those that are
    not declared are expected to be of any type. -/
theorem parameters_fit {params : List Param} {types : List Ty}
    (hle : Ty.isSubtypeList types (params.map declaredType) = true)
    (hany : ∀ pair ∈ params.zip types, pair.1.written? = none → pair.2 = .unknown) :
    params.length = types.length ∧ parameterMismatch? params types = none ∧
      (params.zip types).map (fun (param, expected) => parameterType param expected) =
        params.map declaredType := by
  induction params generalizing types with
  | nil =>
    cases types with
    | nil => exact ⟨rfl, rfl, rfl⟩
    | cons u us => simp [Ty.isSubtypeList] at hle
  | cons param params ih =>
    cases types with
    | nil => simp [Ty.isSubtypeList] at hle
    | cons u us =>
      rw [List.map_cons, Ty.isSubtypeList, Bool.and_eq_true] at hle
      rw [List.zip_cons_cons, List.forall_mem_cons] at hany
      obtain ⟨hlength, hnone, htypes⟩ := ih hle.2 hany.2
      have htype : parameterType param u = declaredType param := by
        unfold parameterType declaredType
        cases hwritten : param.written? with
        | none => exact hany.1 hwritten
        | some written => rfl
      refine ⟨congrArg Nat.succ hlength, ?_, ?_⟩
      · unfold parameterMismatch? at hnone ⊢
        rw [List.zip_cons_cons, List.findSome?_cons]
        simpa [htype, hle.1] using hnone
      · rw [List.zip_cons_cons, List.map_cons, List.map_cons, htypes]
        exact congrArg (· :: params.map declaredType) htype

omit hs ht in
theorem arrowForm_clean {params : List Param} {body : NodeId} {types : List Ty} {result : Ty}
    (hkind : s.tree.kind x = .ok (.arrow params body))
    (hbody : Common s.tree s.tree (fun _ => True) depth
      (fun x => x ∈ params.map Param.name ∨ N x) body)
    (hran : Ran M (s.tree.Below x) (synthArrow s (rules s depth) params body env) (.ok typing))
    (hfree : ErrorFree (s.tree.Below x) M)
    (hle : typing.ty.isSubtype (.function types result) = true)
    (hfits : Fits s.tree M x (.function types result)) :
    Clean (s.tree.Below x) (checkArrow s (rules s depth) x params body env₀ types result)
      Succeeds := by
  have hbelow := below_of_child hkind (c := body) List.mem_cons_self
  obtain ⟨i, hran, hfinal⟩ := hran.of_bind_pure
  have hran := hran.mono hbelow
  obtain ⟨bodyTyping, rfl, -⟩ := hran.succeeds (hfree.mono hbelow) .refl
  have htyping : typing.ty = .function (params.map declaredType) bodyTyping.ty := by
    split at hfinal
    · cases hfinal
    · cases hfinal
      rfl
  obtain ⟨hparams, hresult⟩ := Ty.isSubtype_function (htyping ▸ hle)
  obtain ⟨hlength, hmismatch, htypes⟩ := parameters_fit hparams (hfits _ _ _ .here hkind)
  unfold checkArrow
  rw [if_pos hlength]
  simp only [htypes, hmismatch]
  have hsame : SameFor (fun x => x ∈ params.map Param.name ∨ N x)
      (bodyEnv env params (params.map declaredType))
      (bodyEnv env₀ params (params.map declaredType)) :=
    henv.bodyEnv (List.length_map declaredType).symm fun _ h => h
  have hclean := hp hbody hsame hran (hfree.mono hbelow) hresult fun y u kind hasked =>
    hfits y u kind (.body hkind hasked)
  exact (hclean.mono hbelow).map fun _ _ => ⟨_, rfl⟩

/-! #### Conditionals -/

/-- The interface of a test, and what is known where it comes out true and where false. -/
def testEnvs (r : Rules) (test : NodeId) (env : TypeEnv) :
    CheckM (Interface × TypeEnv × TypeEnv) := do
  let testInterface ← r.synth test env
  let whenTrue ← r.narrow env test true
  let whenFalse ← r.narrow env test false
  pure (testInterface, whenTrue, whenFalse)

/-- One interface, and environments that look the same in pairs. -/
def SameOutcome (N : String → Prop) (a b : Interface × TypeEnv × TypeEnv) : Prop :=
  a.1 = b.1 ∧ SameFor N a.2.1 b.2.1 ∧ SameFor N a.2.2 b.2.2

omit ht hp in
theorem testEnvs_alike {test : NodeId}
    (htest : Common s.tree s.tree (fun _ => True) depth N test) :
    Alike (s.tree.AtOrBelow test) (SameOutcome N) (testEnvs (rules s depth) test env)
      (testEnvs (rules s depth) test env₀) := by
  have hr := rules_self (D := s.tree.AtOrBelow test) hs
  have htest := htest.narrowed fun _ => id
  refine (hr.synth htest henv).bind_eq fun testInterface => ?_
  refine (hr.narrow true htest henv).bind fun _ _ hwhenTrue => ?_
  refine (hr.narrow false htest henv).bind fun _ _ hwhenFalse => ?_
  exact alike_pure ⟨rfl, hwhenTrue, hwhenFalse⟩

omit ht hp henv in
/-- What a test has been found to be is recorded. -/
theorem testEnvs_held {test : NodeId} {found : Interface × TypeEnv × TypeEnv}
    (htest : Common s.tree s.tree (fun _ => True) depth N test)
    (hran : Ran M (s.tree.AtOrBelow test) (testEnvs (rules s depth) test env) found) :
    M.get? test = some found.1 := by
  have hr := rules_self (D := s.tree.AtOrBelow test) hs
  have hnarrow (outcome : Bool) := (hr.narrow outcome (htest.narrowed fun _ => id)
    (.refl N env)).within
  obtain ⟨m, m', -, hrun, hM⟩ := hran
  obtain ⟨i, m₁, hi, hrun⟩ := bind_eq_ok hrun
  obtain ⟨_, m₂, hwhenTrue, hrun⟩ := bind_eq_ok hrun
  obtain ⟨_, m₃, hwhenFalse, hrun⟩ := bind_eq_ok hrun
  cases hrun
  have hheld := (hnarrow true _ _ _ hwhenTrue).held test i (held_of_synth hi)
  exact hM.held test i ((hnarrow false _ _ _ hwhenFalse).held test i hheld)

omit hs ht hp henv in
/-- The branches fit if the conditional does, which may not have the type of the one that is not
    taken. -/
theorem branches_fit {test : Interface} {consequent alternate : Typing}
    (hfinal : conditionalInterface test (.ok consequent) (.ok alternate) = .ok typing)
    (hle : typing.ty.isSubtype T = true)
    (hfit : match (testOutcome test).2 with
      | some true => alternate.ty.isSubtype T = true
      | some false => consequent.ty.isSubtype T = true
      | none =>
          (Ty.unionOf [consequent.ty, alternate.ty]).isSubtype T = true →
            consequent.ty.isSubtype T = true ∧ alternate.ty.isSubtype T = true) :
    consequent.ty.isSubtype T = true ∧ alternate.ty.isSubtype T = true := by
  unfold conditionalInterface at hfinal
  generalize testOutcome test = outcome at hfinal hfit
  obtain ⟨dynamic, truth⟩ := outcome
  cases truth with
  | none =>
    cases hfinal
    exact hfit hle
  | some truth =>
    cases truth with
    | true =>
      cases hfinal
      exact ⟨hle, hfit⟩
    | false =>
      cases hfinal
      exact ⟨hfit, hle⟩

theorem conditionalForm_clean {test consequent alternate : NodeId}
    (hkind : s.tree.kind x = .ok (.conditional test consequent alternate))
    (hparts : ∀ c ∈ [test, consequent, alternate],
      Common s.tree s.tree (fun _ => True) depth N c)
    (hran : Ran M (s.tree.Below x)
      (synthConditional (rules s depth) test consequent alternate env) (.ok typing))
    (hfree : ErrorFree (s.tree.Below x) M) (hle : typing.ty.isSubtype T = true)
    (hfits : Fits s.tree M x T) :
    Clean (s.tree.Below x) (checkConditional (rules s depth) test consequent alternate env₀ T)
      Succeeds := by
  obtain ⟨htest, hconsequent, halternate, -⟩ := by
    simpa only [List.forall_mem_cons] using hparts
  have hbelowTest := below_of_child hkind (c := test) (by simp [NodeKind.children])
  have hbelowConsequent := below_of_child hkind (c := consequent) (by simp [NodeKind.children])
  have hbelowAlternate := below_of_child hkind (c := alternate) (by simp [NodeKind.children])
  obtain ⟨⟨hapart, hapart'⟩, hapart''⟩ : (Apart s.tree.AtOrBelow test consequent ∧
      Apart s.tree.AtOrBelow test alternate) ∧ Apart s.tree.AtOrBelow consequent alternate := by
    simpa [NodeKind.children] using children_apart ht hkind
  -- The test and what it says of the branches are one step, the branches two others.
  let branches (z : NodeId) : Prop := s.tree.AtOrBelow consequent z ∨ s.tree.AtOrBelow alternate z
  have hbranches (z : NodeId) : branches z → s.tree.Below x z :=
    Or.rec (hbelowConsequent z) (hbelowAlternate z)
  have hdisj (z : NodeId) : branches z → ¬ s.tree.AtOrBelow test z :=
    Or.rec (hapart z) (hapart' z)
  have hran : Ran M (s.tree.Below x) (do
      let found ← testEnvs (rules s depth) test env
      let c ← (rules s depth).synth consequent found.2.1
      let a ← (rules s depth).synth alternate found.2.2
      pure (conditionalInterface found.1 c a)) (.ok typing) := by
    simpa only [synthConditional, testEnvs, bind_assoc, pure_bind] using hran
  obtain ⟨found, hfound, hran⟩ := hran.bind (F := branches)
    (testEnvs_alike hs (.refl N env) htest).within
    (fun found => ((synth_within hs hconsequent _).mono fun _ => .inl).bind fun _ =>
      ((synth_within hs halternate _).mono fun _ => .inr).bind fun _ => within_pure _)
    hbelowTest hbranches hdisj
  obtain ⟨i, hc, hran⟩ := hran.bind (synth_within hs hconsequent _)
    (fun _ => (synth_within hs halternate _).bind fun _ => within_pure _) (fun _ => .inl)
    (fun _ => .inr) hapart''
  obtain ⟨j, ha, hfinal⟩ := hran.of_bind_pure
  obtain ⟨c, rfl, hcty⟩ := hc.succeeds (hfree.mono hbelowConsequent) .refl
  obtain ⟨a, rfl, haty⟩ := ha.succeeds (hfree.mono hbelowAlternate) .refl
  have hfit : PartsFit M (.conditional test consequent alternate) T := hfits _ _ _ .here hkind
  rw [PartsFit, truthOf_eq (testEnvs_held hs htest hfound), hcty, haty] at hfit
  obtain ⟨hfitc, hfita⟩ := branches_fit hfinal.symm hle hfit
  have hclean : Clean (s.tree.Below x) (do
      let found ← testEnvs (rules s depth) test env₀
      let c ← (rules s depth).check consequent found.2.1 T
      let a ← (rules s depth).check alternate found.2.2 T
      pure (.ok { ty := T, dynamic := conditionalDynamic found.1 c a })) Succeeds := by
    refine (hfound.clean (hfree.mono hbelowTest) (testEnvs_alike hs henv htest)).bind
      (F := branches) (fun found₀ hfound₀ => ?_) hbelowTest hbranches hdisj
    obtain ⟨-, hwhenTrue, hwhenFalse⟩ := hfound₀
    refine (hp hconsequent hwhenTrue hc (hfree.mono hbelowConsequent) hfitc fun y u kind hasked =>
      hfits y u kind (.consequent hkind hasked)).bind (F := s.tree.AtOrBelow alternate)
        (fun i _ => ?_) (fun _ => .inl) (fun _ => .inr) hapart''
    refine (hp halternate hwhenFalse ha (hfree.mono hbelowAlternate) hfita fun y u kind hasked =>
      hfits y u kind (.alternate hkind hasked)).map fun j _ => ⟨_, rfl⟩
  simpa only [checkConditional, testEnvs, bind_assoc, pure_bind] using hclean

end

/-! ### All forms -/

/-- A type that fits is recorded where a type is expected as it is where none is. -/
theorem record_expectType {span : Span} (hspan : s.tree.span x = .ok span) {i : Interface}
    (hrun : record s x i m = .ok (.ok typing, m')) (hle : typing.ty.isSubtype T = true) :
    record s x (expectType i T) m = .ok (.ok typing, m') := by
  rw [record_run hspan] at hrun ⊢
  unfold InterfaceMap.record at hrun ⊢
  cases hget : m.get? x with
  | some held =>
    rw [hget] at hrun
    exact hrun
  | none =>
    rw [hget] at hrun
    cases i with
    | error e => cases hrun
    | ok typing' =>
      cases hrun
      rw [expectType, if_pos hle]
      rfl

/-- A form that is not taken apart is typed as where nothing is expected. -/
theorem wholeForm_clean {r : Rules} {span : Span} (hspan : s.tree.span x = .ok span) (hx : D x)
    (hform : Alike D Eq (synthForm s r x env) (synthForm s r x env₀))
    (hran : Ran M D (do record s x (← synthForm s r x env)) (.ok typing)) (hfree : ErrorFree D M)
    (hle : typing.ty.isSubtype T = true) :
    Clean D (do record s x (← (do return expectType (← synthForm s r x env₀) T))) Succeeds := by
  intro m hfresh
  have halike := hform.bind_eq fun i => record_alike hx hspan hspan i
  obtain ⟨_, m', hrun, hext, hfree', rfl⟩ := hran.clean hfree halike m hfresh
  obtain ⟨i, m₁, hi, hrecord⟩ := bind_eq_ok hrun
  have hexpected := record_expectType hspan hrecord hle
  exact ⟨.ok typing, m', (bind_run (bind_run hi)).trans hexpected, hext, hfree', typing, rfl⟩

/-- A form that is taken apart is recorded once its parts have been accepted. -/
theorem partedForm_clean (ht : s.tree.TreeShaped) {span : Span} (hspan : s.tree.span x = .ok span)
    {form form₀ : CheckM Interface} (hwithin : Within (s.tree.Below x) form)
    (hclean : Ran M (s.tree.Below x) form (.ok typing) →
      Clean (s.tree.Below x) form₀ Succeeds)
    (hran : Ran M (s.tree.AtOrBelow x) (do record s x (← form)) (.ok typing)) :
    Clean (s.tree.AtOrBelow x) (do record s x (← form₀)) Succeeds := by
  obtain ⟨i, hform, hrecord⟩ := hran.bind hwithin
    (fun i => within_record (D := (· = x)) rfl hspan i) atOrBelow_of_below atOrBelow_of_eq
    (not_below_of_eq ht)
  obtain ⟨hi, -⟩ := hrecord.record hspan
  cases i with
  | error e => cases hi
  | ok typing' =>
    cases hi
    refine (hclean hform).bind (F := (· = x)) (fun i ⟨typing, hi⟩ => hi ▸ ?_) atOrBelow_of_below
      atOrBelow_of_eq (not_below_of_eq ht)
    exact (clean_record hspan typing).imp fun i hi => ⟨typing, hi⟩

/-- At every depth the judgement against a type permits what the other one does. -/
theorem permits (ht : s.tree.TreeShaped) (hs : Comparable s s depth) : Permits s M depth := by
  induction depth with
  | zero => exact fun hcommon => hcommon.elim
  | succ depth ih =>
    intro N x env env₀ T typing hcommon henv hran hfree hle hfits
    have hp : Permits s M depth := ih hs.of_succ
    have hr {D : NodeId → Prop} :
        RulesAlike D (Common s.tree s.tree D depth) (rules s depth) (rules s depth) :=
      rules_self hs.of_succ
    obtain ⟨kind, hkind, -, hparts⟩ := hcommon.kind
    obtain ⟨span, hspan, -⟩ := hcommon.span
    have hran : Ran M (s.tree.AtOrBelow x)
        (heldOr x (do record s x (← synthForm s (rules s depth) x env))) (.ok typing) := hran
    have hran := hran.heldOr .refl
    have hfree' : ErrorFree (s.tree.Below x) M := hfree.mono atOrBelow_of_below
    -- A form is within the nodes below, since no part of it visits the node again.
    have hform {form form₀ : CheckM Interface} (hform : synthForm s (rules s depth) x env = form)
        (hwithin : Within (s.tree.Below x) form)
        (hclean : Ran M (s.tree.Below x) form (.ok typing) →
          Clean (s.tree.Below x) form₀ Succeeds) :
        Clean (s.tree.AtOrBelow x) (do record s x (← form₀)) Succeeds :=
      partedForm_clean ht hspan hwithin hclean (hform ▸ hran)
    have hsynth : synthForm s (rules s depth) x env = _ := kindOf_bind hkind _
    refine Clean.heldOr (D := s.tree.AtOrBelow x) .refl ?_
    unfold checkForm
    rw [kindOf_bind hkind]
    have hbelow {c : NodeId} (hc : c ∈ kind.children) {N : String → Prop}
        (h : Common s.tree s.tree (fun _ => True) depth N c) :
        Common s.tree s.tree (s.tree.Below x) depth N c := h.narrowed (below_of_child hkind hc)
    split
    case h_1 elements items =>
      refine hform hsynth ?_ fun hran => ?_
      · exact ((synthAll_alike hr (fun e he => hbelow he (hparts e he)) (.refl N env)).bind_eq
          fun _ => alike_pure rfl).within
      · -- The type of an array is never part of one that tells its items apart.
        obtain ⟨found, -, htyping⟩ := hran.of_bind_pure
        cases htyping
        cases Ty.isSubtype_cases hle with
        | same h => simp [arrayTyping, Ty.same] at h
    case h_2 elements item =>
      refine hform hsynth ?_ fun hran => ?_
      · exact ((synthAll_alike hr (fun e he => hbelow he (hparts e he)) (.refl N env)).bind_eq
          fun _ => alike_pure rfl).within
      · obtain ⟨found, hfound, htyping⟩ := hran.of_bind_pure
        cases htyping
        exact (arrayForm_clean hs.of_succ ht hp henv hkind hparts hfound hfree' hle hfits).map
          fun _ _ => ⟨_, rfl⟩
    case h_3 properties fields =>
      refine hform hsynth ?_ fun hran => ?_
      · exact (synthObject_alike hr (fun p hp => hbelow hp (hparts p hp)) (.refl N env)).within
      · exact objectForm_clean hs.of_succ ht hp henv hkind hparts hran hfree' hle hfits
    case h_4 params body types result =>
      refine hform hsynth ?_ fun hran => ?_
      · have hbody := hbelow List.mem_cons_self hparts
        exact (synthArrow_alike hs.of_succ hr hbody (.refl N env)).within
      · exact arrowForm_clean hp henv hkind hparts hran hfree' hle hfits
    case h_5 test consequent alternate =>
      have hpart (c : NodeId) (hc : c ∈ [test, consequent, alternate]) := hbelow hc (hparts c hc)
      refine hform hsynth ?_ fun hran => ?_
      · exact (synthConditional_alike hr (hpart test (by simp)) (hpart consequent (by simp))
          (hpart alternate (by simp)) (.refl N env)).within
      · exact conditionalForm_clean hs.of_succ ht hp henv hkind hparts hran hfree' hle hfits
    case h_6 =>
      have halike := synthForm_alike hr hs (hcommon.narrowed fun _ => id) henv
      exact wholeForm_clean hspan .refl halike hran hfree hle

/-! ### Expressions -/

/-- If an expression of which nothing is recorded is typed without errors below it, and its type is
    part of `T`, then it is accepted without errors where `T` is expected, provided that the parts
    fit wherever the expression is taken apart. -/
theorem check_permits {e : NodeId} {m₀ : InterfaceMap} (ht : s.tree.TreeShaped)
    (he : e < s.tree.size) (hm : Fresh (s.tree.AtOrBelow e) m)
    (hm₀ : Fresh (s.tree.AtOrBelow e) m₀) (hrun : synth s e env m = .ok (.ok typing, M))
    (hfree : ErrorFree (s.tree.AtOrBelow e) M) (hle : typing.ty.isSubtype T = true)
    (hfits : Fits s.tree M e T) :
    ∃ accepted m', check s e env T m₀ = .ok (.ok accepted, m') ∧
      ErrorFree (s.tree.AtOrBelow e) m' := by
  have hs : Comparable s s s.tree.depthLimit := ⟨rfl, Nat.le_refl _, Nat.le_refl _⟩
  have hcommon : Common s.tree s.tree (fun _ => True) s.tree.depthLimit (fun _ => True) e :=
    (common_self ht he).narrowed fun _ _ => trivial
  have hclean := permits ht hs hcommon (.refl _ env) ⟨m, M, hm, hrun, .refl M⟩ hfree hle hfits
  obtain ⟨_, m', hcheck, -, hfree', accepted, rfl⟩ := hclean m₀ hm₀
  exact ⟨accepted, m', hcheck, hfree'⟩

/-! ### An expression that is accepted -/

/-- What is expected of a node and below it fits, if it does at the node and below its parts. -/
theorem fits_of_parts (kind : NodeKind) (hkind : t.kind x = .ok kind) (hfit : PartsFit M kind T)
    (hparts : match kind, T with
      | .array elements, .array item => ∀ e ∈ elements, Fits t M e item
      | .object properties, .object fields => ∀ p ∈ properties, ∀ key value field,
          t.kind p = .ok (.property key value) →
            fields.find? (fun f => f.name == key) = some field → Fits t M value field.ty
      | .arrow _ body, .function _ result => Fits t M body result
      | .conditional _ consequent alternate, T => Fits t M consequent T ∧ Fits t M alternate T
      | _, _ => True) :
    Fits t M x T := by
  intro y u kind' hasked hkind'
  cases hasked with
  | here =>
    obtain rfl := Except.ok.inj (hkind.symm.trans hkind')
    exact hfit
  | element hkind₁ he h =>
    obtain rfl := Except.ok.inj (hkind.symm.trans hkind₁)
    exact hparts _ he y u kind' h hkind'
  | field hkind₁ hp hproperty hfield h =>
    obtain rfl := Except.ok.inj (hkind.symm.trans hkind₁)
    exact hparts _ hp _ _ _ hproperty hfield y u kind' h hkind'
  | body hkind₁ h =>
    obtain rfl := Except.ok.inj (hkind.symm.trans hkind₁)
    exact hparts y u kind' h hkind'
  | consequent hkind₁ h =>
    obtain rfl := Except.ok.inj (hkind.symm.trans hkind₁)
    exact hparts.1 y u kind' h hkind'
  | alternate hkind₁ h =>
    obtain rfl := Except.ok.inj (hkind.symm.trans hkind₁)
    exact hparts.2 y u kind' h hkind'

/-- `{ f: (x: number) => flag ? [1, x] : [] }` -/
def guardedList : Tree :=
  ⟨#[⟨default, .identifier "flag"⟩, ⟨default, .literal (.number 1)⟩, ⟨default, .identifier "x"⟩,
    ⟨default, .array [1, 2]⟩, ⟨default, .array []⟩, ⟨default, .conditional 0 3 4⟩,
    ⟨default, .arrow [⟨"x", some .number⟩] 5⟩, ⟨default, .property "f" 6⟩,
    ⟨default, .object [7]⟩]⟩

/-- In which `flag` is true or false. -/
def flagged : TypeEnv := Env.empty.extend "flag" (.ok (.fixed .boolean))

/-- Objects with a function `f` from numbers to lists of numbers. -/
def listMaker : Ty := .object [⟨"f", .function [.number] (.array .number)⟩]

theorem fits_guardedList (hflag : truthOf M 0 = none) (hone : typeAt M 1 = .ofNumber 1)
    (hx : typeAt M 2 = .number) (hlist : typeAt M 3 = .array .number)
    (hnil : typeAt M 4 = .array .never) : Fits guardedList M 8 listMaker := by
  have hapart : Ty.isSubtype .number .never = false := by simp [Ty.isSubtype, Ty.same]
  have hfull : Fits guardedList M 3 (.array .number) := by
    refine fits_of_parts (.array [1, 2]) rfl
      (partsFit_array ?_ (Ty.Congruent.unites (Ty.congruent_of_eq ?_) rfl)) ?_
    · simpa [hone, hx] using ⟨.literal _, .fixed rfl⟩
    · simp [hone, hx, Ty.ofNumber, Ty.baseOf, Ty.unionParts]
    · simpa using ⟨fits_of_parts (.literal (.number 1)) rfl trivial trivial,
        fits_of_parts (.identifier "x") rfl trivial trivial⟩
  have hempty : Fits guardedList M 4 (.array .number) :=
    fits_of_parts (.array []) rfl (fun _ => by simp) (by simp)
  have hbody : Fits guardedList M 5 (.array .number) := by
    refine fits_of_parts (.conditional 0 3 4) rfl ?_ ⟨hfull, hempty⟩
    refine partsFit_conditional hflag (Ty.Congruent.unites (Ty.congruent_of_eq ?_) rfl)
    rw [hlist, hnil]
    simp [Ty.unionParts, Ty.isEquivalent, Ty.isSubtype_array, hapart]
  refine fits_of_parts (.object [7]) rfl trivial ?_
  rintro p hp key value field hproperty hfield
  obtain rfl := List.mem_singleton.mp hp
  cases hproperty
  cases hfield
  exact fits_of_parts (.arrow [⟨"x", some .number⟩] 5) rfl (by simp [PartsFit]) hbody

/-- Each form that is taken apart is, and the branches of the conditional come together. -/
theorem check_permits_guardedList :
    guardedList.TreeShaped ∧ 8 < guardedList.size ∧
      (∀ D, Fresh D (.ofSize 9)) ∧ ∃ typing M,
        synth { tree := guardedList } 8 flagged (.ofSize 9) = .ok (.ok typing, M) ∧
        ErrorFree (guardedList.AtOrBelow 8) M ∧ typing.ty.isSubtype listMaker = true ∧
        Fits guardedList M 8 listMaker ∧ ∃ accepted m',
          check { tree := guardedList } 8 flagged listMaker (.ofSize 9) = .ok (.ok accepted, m') ∧
          ErrorFree (guardedList.AtOrBelow 8) m' := by
  have ht : guardedList.TreeShaped := Tree.treeShaped_of_ascending rfl
  have hfresh (D : NodeId → Prop) : Fresh D (.ofSize 9) := fun x _ => InterfaceMap.get?_ofSize 9 x
  obtain ⟨typing, M, hrun, herrors, hle, hflag, hone, hx, hlist, hnil⟩ : ∃ typing M,
      synth { tree := guardedList } 8 flagged (.ofSize 9) = .ok (.ok typing, M) ∧ M.errors = [] ∧
      typing.ty.isSubtype listMaker = true ∧ truthOf M 0 = none ∧ typeAt M 1 = .ofNumber 1 ∧
      typeAt M 2 = .number ∧ typeAt M 3 = .array .number ∧ typeAt M 4 = .array .never :=
    ⟨_, _, show _ = Except.ok (Except.ok _, _) by cbv, by cbv, by cbv, rfl, rfl, rfl, rfl, rfl⟩
  have hfree : ErrorFree (guardedList.AtOrBelow 8) M :=
    fun x e _ => InterfaceMap.get?_ne_error herrors
  have hfits := fits_guardedList hflag hone hx hlist hnil
  exact ⟨ht, by decide, hfresh, typing, M, hrun, hfree, hle, hfits,
    check_permits ht (by decide) (hfresh _) (hfresh _) hrun hfree hle hfits⟩

/-! ### Expressions that are not accepted -/

/-- The expression is typed without errors, its type is part of `T`, and there is an error below it
    where `T` is expected. -/
def Refused (s : Setting) (e : NodeId) (env : TypeEnv) (T : Ty) : Prop :=
  ∃ typing M i m' x cause,
    synth s e env (.ofSize s.tree.size) = .ok (.ok typing, M) ∧ M.errors = [] ∧
    typing.ty.isSubtype T = true ∧ check s e env T (.ofSize s.tree.size) = .ok (i, m') ∧
    s.tree.AtOrBelow e x ∧ m'.get? x = some (.error cause)

/-- `true ? 1 : "a"` -/
def textNotTaken : Tree :=
  ⟨#[⟨default, .literal (.boolean true)⟩, ⟨default, .literal (.number 1)⟩,
    ⟨default, .literal (.string "a")⟩, ⟨default, .conditional 0 1 2⟩]⟩

/-- `(x) => x.a` -/
def memberOfParameter : Tree :=
  ⟨#[⟨default, .identifier "x"⟩, ⟨default, .member 0 "a"⟩, ⟨default, .arrow [⟨"x", none⟩] 1⟩]⟩

/-- `{ a: o, b: o.c }`, in which `o` is one node, `{ c: 1 }`. -/
def sharedObject : Tree :=
  ⟨#[⟨default, .literal (.number 1)⟩, ⟨default, .property "c" 0⟩, ⟨default, .object [1]⟩,
    ⟨default, .property "a" 2⟩, ⟨default, .member 2 "c"⟩, ⟨default, .property "b" 4⟩,
    ⟨default, .object [3, 5]⟩]⟩

/-- `[p]` -/
def oneName : Tree := ⟨#[⟨default, .identifier "p"⟩, ⟨default, .array [0]⟩]⟩

/-- `[p, q]` -/
def twoNames : Tree :=
  ⟨#[⟨default, .identifier "p"⟩, ⟨default, .identifier "q"⟩, ⟨default, .array [0, 1]⟩]⟩

/-- The types of `p` and `q`. -/
def named (p q : Ty) : TypeEnv :=
  (Env.empty.extend "p" (.ok (.fixed p))).extend "q" (.ok (.fixed q))

/-- `Refused` with the error at the given node, computed. -/
def refusedAt (s : Setting) (e : NodeId) (env : TypeEnv) (T : Ty) (x : NodeId) : Bool :=
  match synth s e env (.ofSize s.tree.size), check s e env T (.ofSize s.tree.size) with
  | .ok (.ok typing, M), .ok (_, m') =>
      M.errors.isEmpty && typing.ty.isSubtype T && (m'.get? x).any (!·.isOk)
  | _, _ => false

theorem refused_of_refusedAt {T : Ty} (hx : s.tree.AtOrBelow e x)
    (h : refusedAt s e env T x = true) : Refused s e env T := by
  unfold refusedAt at h
  split at h
  case h_1 typing M i m' hsynth hcheck =>
    simp only [Bool.and_eq_true, List.isEmpty_iff, Option.any_eq_true] at h
    obtain ⟨⟨herrors, hle⟩, interface, hget, herror⟩ := h
    cases interface with
    | ok => cases herror
    | error cause => exact ⟨typing, M, i, m', x, cause, hsynth, herrors, hle, hcheck, hx, hget⟩
  case h_2 => cases h

/-- A branch that is not taken, a parameter without annotation, a node that is taken apart in one
    place and looked into in another, a type that stands for another which has more fields, and an
    error that stands for a union of errors. -/
theorem parts_refused :
    Refused { tree := textNotTaken } 3 .empty .number ∧
      Refused { tree := memberOfParameter, options := { allowUnannotatedParams := true } } 2 .empty
        (.function [.number] .unknown) ∧
      Refused { tree := sharedObject } 6 .empty (.object [⟨"a", .object []⟩]) ∧
      Refused { tree := twoNames } 2
        (named (.object [⟨"x", .number⟩]) (Ty.point .number .string)) Ty.codedPoints ∧
      Refused { tree := oneName } 1 (named Ty.twoErrors .number)
        (.array (.error { kind := .notAnExpression })) := by
  refine ⟨refused_of_refusedAt (x := 2) ?_ ?_, refused_of_refusedAt (x := 1) ?_ ?_,
    refused_of_refusedAt (x := 4) ?_ ?_, refused_of_refusedAt (x := 1) ?_ ?_,
    refused_of_refusedAt (x := 0) ?_ ?_⟩
  · exact .single ⟨.conditional 0 1 2, rfl, by simp [NodeKind.children]⟩
  · decide +kernel
  · exact .single ⟨.arrow _ 1, rfl, by simp [NodeKind.children]⟩
  · decide +kernel
  · exact .head (b := 5) ⟨.object [3, 5], rfl, by simp [NodeKind.children]⟩
      (.single ⟨.property "b" 4, rfl, by simp [NodeKind.children]⟩)
  · decide +kernel
  · exact .single ⟨.array [0, 1], rfl, by simp [NodeKind.children]⟩
  · decide +kernel
  · exact .single ⟨.array [0], rfl, by simp [NodeKind.children]⟩
  · decide +kernel

end ReactiveDoc.Check
