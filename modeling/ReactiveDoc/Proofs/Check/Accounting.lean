import ReactiveDoc.Proofs.Check.Statement
import ReactiveDoc.Proofs.Check.Steady

namespace ReactiveDoc.Check

/-!
# Recorded interfaces are explained by those of the parts

* `Finds` — a computation of the checker accounts for the interfaces that it records.
* `rules_find` — the judgements do so on expressions that neither make nor call functions.
* `explained_of_synth` — the interfaces in a checked expression are explained by each other.
-/

open InterfaceMap (Extends)

/-- All that is recorded for nodes in `D` is explained by what `M` holds. -/
def Accounted (t : Tree) (D : NodeId → Prop) (fixed : String → Prop) (M m : InterfaceMap) : Prop :=
  ∀ x kind interface, D x → t.kind x = .ok kind → m.get? x = some interface →
    Explained t M fixed kind interface

/-- The computation keeps what is recorded.  If `M` keeps what the computation has recorded, and
    `P` holds, then what is recorded stays accounted for, and the result satisfies `Q`. -/
def Finds (t : Tree) (D : NodeId → Prop) (fixed : String → Prop) (M : InterfaceMap) {α : Type}
    (P : Prop) (x : CheckM α) (Q : α → Prop) : Prop :=
  ∀ m a m', x m = .ok (a, m') → Extends (fun _ => True) m m' ∧
    (Extends (fun _ => True) m' M → P → Accounted t D fixed M m →
      Accounted t D fixed M m' ∧ Q a)

variable {t : Tree} {s : Setting} {D : NodeId → Prop} {fixed : String → Prop} {M : InterfaceMap}
  {α β γ : Type} {P : Prop} {node : NodeId} {env : TypeEnv} {interface : Interface}

/-! ### Sequences of steps -/

section

variable {Q : α → Prop} {R : β → Prop} {x : CheckM α}

theorem finds_pure {a : α} (h : P → Q a) : Finds t D fixed M P (pure a : CheckM α) Q := by
  intro m b m' hrun
  cases hrun
  exact ⟨.refl m, fun _ hP haccounted => ⟨haccounted, h hP⟩⟩

theorem finds_throw (fault : Fault) : Finds t D fixed M P (throw fault : CheckM α) Q :=
  fun _ _ _ hrun => nomatch hrun

theorem Finds.bind {f : α → CheckM β} (h : Finds t D fixed M P x Q)
    (hf : ∀ a, Finds t D fixed M (P ∧ Q a) (f a) R) : Finds t D fixed M P (x >>= f) R := by
  intro m b m'' hrun
  obtain ⟨a, m', hx, hfa⟩ := bind_eq_ok hrun
  obtain ⟨hgrows, hfirst⟩ := h m a m' hx
  obtain ⟨hgrows', hsecond⟩ := hf a m' b m'' hfa
  refine ⟨hgrows.trans hgrows', fun hM hP haccounted => ?_⟩
  obtain ⟨haccounted', hQ⟩ := hfirst (hgrows'.trans hM) hP haccounted
  exact hsecond hM ⟨hP, hQ⟩ haccounted'

/-- What is looked up outside of the map is passed on. -/
theorem finds_liftM_bind {e : Except Fault α} {f : α → CheckM β}
    (h : ∀ a, e = .ok a → Finds t D fixed M P (f a) R) :
    Finds t D fixed M P ((liftM e : CheckM α) >>= f) R := by
  cases e with
  | ok a => exact h a rfl
  | error fault => exact fun _ _ _ hrun => nomatch hrun

theorem Finds.mono {P' : Prop} {Q' : α → Prop} (h : Finds t D fixed M P x Q) (hP : P' → P)
    (hQ : ∀ a, P' → Q a → Q' a) : Finds t D fixed M P' x Q' := by
  intro m a m' hrun
  obtain ⟨hgrows, hrest⟩ := h m a m' hrun
  refine ⟨hgrows, fun hM hP' haccounted => ?_⟩
  obtain ⟨haccounted', hQa⟩ := hrest hM (hP hP') haccounted
  exact ⟨haccounted', hQ a hP' hQa⟩

theorem Finds.mapM {S : γ → α → Prop} {f : γ → CheckM α} {cs : List γ}
    (h : ∀ c ∈ cs, ∀ P' : Prop, (P' → P) → Finds t D fixed M P' (f c) (S c)) :
    Finds t D fixed M P (cs.mapM f) (List.Forall₂ S cs) := by
  induction cs generalizing P with
  | nil => exact finds_pure fun _ => .nil
  | cons c cs ih =>
    rw [List.mapM_cons]
    refine (h c List.mem_cons_self P id).bind fun a => ?_
    refine (ih fun c' hc' P' hP' => h c' (List.mem_cons_of_mem c hc') P' fun hP => (hP' hP).1).bind
      fun as => ?_
    exact finds_pure fun ⟨⟨_, ha⟩, has⟩ => .cons ha has

/-- If the result of a fold is good then so was what it started from, and each member. -/
theorem Finds.foldlM {good : α → Prop} {S : γ → Prop} {f : α → γ → CheckM α} {cs : List γ}
    (h : ∀ a, ∀ c ∈ cs, ∀ P' : Prop, (P' → P) →
      Finds t D fixed M P' (f a c) fun b => good b → good a ∧ S c) (a : α) :
    Finds t D fixed M P (cs.foldlM f a) fun b => good b → good a ∧ ∀ c ∈ cs, S c := by
  induction cs generalizing P a with
  | nil => exact finds_pure fun _ ha => ⟨ha, fun _ hc => nomatch hc⟩
  | cons c cs ih =>
    rw [List.foldlM_cons]
    refine (h a c List.mem_cons_self P id).bind fun b => ?_
    refine (ih (fun a c' hc' P' hP' => h a c' (List.mem_cons_of_mem c hc') P' fun hP =>
      (hP' hP).1) b).mono id ?_
    rintro d ⟨-, hfirst⟩ hrest hd
    obtain ⟨hb, hcs⟩ := hrest hd
    exact ⟨(hfirst hb).1, List.forall_mem_cons.mpr ⟨(hfirst hb).2, hcs⟩⟩

end

/-! ### Recording -/

/-- What is recorded is held from then on. -/
theorem finds_record {interface : Interface}
    (h : P → ∀ kind, s.tree.kind node = .ok kind → Explained s.tree M fixed kind interface) :
    Finds s.tree D fixed M P (record s node interface) fun i => M.get? node = some i := by
  intro m i m'' hrun
  have hheld := held_of_record hrun
  obtain ⟨placed, m', hplaced, hrecord⟩ := bind_eq_ok hrun
  obtain ⟨span, rfl, rfl⟩ : ∃ span, m' = m ∧ placed = interface.mapError fun e => e.located span := by
    unfold located at hplaced
    cases hspan : s.tree.span node with
    | ok span =>
      rw [liftM_bind hspan] at hplaced
      cases hplaced
      exact ⟨span, rfl, rfl⟩
    | error fault =>
      rw [hspan] at hplaced
      cases hplaced
  have hrecord : m'.record node (interface.mapError fun e => e.located span) = (i, m'') :=
    Except.ok.inj hrecord
  unfold InterfaceMap.record at hrecord
  cases hget : m'.get? node with
  | some kept =>
    rw [hget] at hrecord
    cases hrecord
    exact ⟨.refl _, fun hM _ haccounted => ⟨haccounted, hM.held node i hheld⟩⟩
  | none =>
    rw [hget] at hrecord
    cases hrecord
    refine ⟨.insert trivial _, fun hM hP haccounted => ⟨?_, hM.held node _ hheld⟩⟩
    intro x kind held hx hkind hgetx
    rw [InterfaceMap.get?_insert_of_none hget] at hgetx
    split at hgetx
    · rename_i heq
      subst heq
      cases hgetx
      exact (h hP kind hkind).mapError
    · exact haccounted x kind held hx hkind hgetx

theorem finds_mark {e : TypeError} :
    Finds s.tree D fixed M P (mark s node (.error e)) fun _ => True :=
  (finds_record fun _ _ _ => explained_error).bind fun _ => finds_pure fun _ => trivial

/-- A node that has an interface keeps it. -/
theorem finds_heldOr {z : CheckM Interface}
    (h : Finds t D fixed M P z fun i => M.get? node = some i) :
    Finds t D fixed M P
      (do match (← get).get? node with | some held => pure held | none => z)
      fun i => M.get? node = some i := by
  intro m i m' hrun
  have hrun : (match m.get? node with | some held => pure held | none => z : CheckM Interface) m =
      .ok (i, m') := hrun
  cases hget : m.get? node with
  | some held =>
    rw [hget] at hrun
    cases hrun
    exact ⟨.refl m, fun hM _ haccounted => ⟨haccounted, hM.held node i hget⟩⟩
  | none =>
    rw [hget] at hrun
    exact h m i m' hrun

/-! ### Judgements -/

/-- The judgements on nodes in `D` account for what they record. -/
structure RulesFind (t : Tree) (D : NodeId → Prop) (fixed : String → Prop) (M : InterfaceMap)
    (r : Rules) : Prop where
  synth : ∀ {P : Prop} {node env}, D node → (P → Fixes fixed env) →
    Finds t D fixed M P (r.synth node env) fun i => M.get? node = some i
  check : ∀ {P : Prop} {node env} (expected : Ty), D node → (P → Fixes fixed env) →
    Finds t D fixed M P (r.check node env expected) fun i => M.get? node = some i
  narrow : ∀ {P : Prop} {node env} (outcome : Bool), D node → (P → Fixes fixed env) →
    Finds t D fixed M P (r.narrow env node outcome) (Fixes fixed)

/-! ### Narrowing -/

theorem narrowPlaceWithin_finds (h : P → Fixes fixed env) (fuel : Nat) (place : NodeId)
    (known : Ty) :
    Finds t D fixed M P (narrowPlaceWithin s env fuel place known) (Fixes fixed) := by
  induction fuel generalizing place known with
  | zero => exact finds_throw _
  | succ fuel ih =>
    unfold narrowPlaceWithin
    refine finds_liftM_bind fun kind _ => ?_
    cases kind with
    | identifier name => exact finds_pure fun hP => (h hP).narrowName name known
    | member object property => exact ih object _
    | _ => exact finds_pure h

theorem narrowSide_finds (h : P → Fixes fixed env) (place : NodeId) (other : Ty) (equal : Bool) :
    Finds t D fixed M P (narrowSide s env place other equal) (Fixes fixed) := by
  unfold narrowSide
  split
  · exact finds_pure h
  · split
    · exact narrowPlaceWithin_finds h _ place _
    · split
      · exact narrowPlaceWithin_finds h _ place _
      · exact finds_pure h

section

variable {r : Rules} (hr : RulesFind s.tree D fixed M r)

include hr

theorem narrowComparison_finds {left right : NodeId} (hleft : D left) (hright : D right)
    (h : P → Fixes fixed env) (loose equal : Bool) :
    Finds s.tree D fixed M P (narrowComparison s r env loose left right equal) (Fixes fixed) := by
  unfold narrowComparison
  refine finds_liftM_bind fun leftKind _ => ?_
  refine finds_liftM_bind fun rightKind _ => ?_
  cases typeofTest? leftKind rightKind with
  | some found =>
    simp only
    split
    · exact narrowPlaceWithin_finds h _ _ _
    · exact finds_pure h
  | none =>
    refine (hr.synth hleft h).bind fun leftInterface => ?_
    refine (hr.synth hright fun hP => h hP.1).bind fun rightInterface => ?_
    refine (narrowSide_finds (fun hP => h hP.1.1) _ _ _).bind fun narrowed => ?_
    exact narrowSide_finds (fun hP => hP.2) _ _ _

theorem narrowTest_finds (hquiet : QuietBelow s.tree D) {test : NodeId} (htest : D test)
    (h : P → Fixes fixed env) (outcome : Bool) :
    Finds s.tree D fixed M P (narrowTest s r env test outcome) (Fixes fixed) := by
  have htruth (known : Ty) :
      Finds s.tree D fixed M P (narrowPlace s env test known) (Fixes fixed) :=
    narrowPlaceWithin_finds h _ _ _
  unfold narrowTest
  refine finds_liftM_bind fun kind hkind => ?_
  obtain ⟨-, hchildren⟩ := hquiet test htest kind hkind
  cases kind with
  | unary op argument =>
    cases op with
    | not => exact hr.narrow _ (hchildren _ List.mem_cons_self) h
    | _ => exact htruth _
  | logical op left right =>
    have hboth (outcome : Bool) : Finds s.tree D fixed M P
        (do r.narrow (← r.narrow env left outcome) right outcome) (Fixes fixed) :=
      (hr.narrow outcome (hchildren left List.mem_cons_self) h).bind fun narrowed =>
        hr.narrow outcome (hchildren right (List.mem_cons_of_mem _ List.mem_cons_self)) And.right
    cases op with
    | and =>
      cases outcome with
      | true => exact hboth true
      | false => exact htruth _
    | or =>
      cases outcome with
      | true => exact htruth _
      | false => exact hboth false
  | binary op left right =>
    simp only
    split
    · exact narrowComparison_finds hr (hchildren left List.mem_cons_self)
        (hchildren right (List.mem_cons_of_mem _ List.mem_cons_self)) h _ _
    · exact htruth _
  | _ => exact htruth _

/-! ### Objects -/

/-- A property that is fine in a list of properties is steady if it is one. -/
abbrev SteadyProperty (t : Tree) (M : InterfaceMap) (property : NodeId) : Prop :=
  ∀ key value, t.kind property = .ok (.property key value) → Steady M property

theorem addProperty_finds (hquiet : QuietBelow s.tree D) {property : NodeId} (hD : D property)
    (parts : ObjectParts) (h : P → Fixes fixed env) :
    Finds s.tree D fixed M P (addProperty s r env parts property) fun parts' =>
      parts'.duplicate? = none ∧ parts'.dynamic = false →
        (parts.duplicate? = none ∧ parts.dynamic = false) ∧ SteadyProperty s.tree M property := by
  unfold addProperty
  refine finds_liftM_bind fun kind hkind => ?_
  obtain ⟨-, hchildren⟩ := hquiet property hD kind hkind
  cases kind with
  | property key value =>
    refine (hr.synth (hchildren value List.mem_cons_self) h).bind fun interface => ?_
    dsimp only
    split
    · refine finds_liftM_bind fun span _ => finds_mark.bind fun _ => finds_pure ?_
      rintro - ⟨hnone, -⟩
      cases hduplicate : parts.duplicate? <;> simp [hduplicate] at hnone
    · refine (finds_record fun hP kind hkind' => ?_).bind fun held => finds_pure ?_
      · obtain rfl := Except.ok.inj (hkind.symm.trans hkind')
        exact explained_property hP.2
      · rintro ⟨-, hheld⟩ ⟨hnone, hsteady⟩
        obtain ⟨hparts, hproperty⟩ := Bool.or_eq_false_iff.mp hsteady
        exact ⟨⟨hnone, hparts⟩, fun _ _ _ => ⟨held, hheld, hproperty⟩⟩
  | _ =>
    refine finds_mark.bind fun _ => finds_pure fun _ hparts => ⟨hparts, fun _ _ hok => ?_⟩
    rw [hkind] at hok
    cases hok

theorem checkProperty_finds (hquiet : QuietBelow s.tree D) {property : NodeId} (hD : D property)
    (fields : List (Field Ty)) (seen : CheckedKeys) (h : P → Fixes fixed env) :
    Finds s.tree D fixed M P (checkProperty s r env fields seen property) fun seen' =>
      seen'.duplicate? = none ∧ seen'.dynamic = false →
        (seen.duplicate? = none ∧ seen.dynamic = false) ∧ SteadyProperty s.tree M property := by
  unfold checkProperty
  refine finds_liftM_bind fun kind hkind => ?_
  obtain ⟨-, hchildren⟩ := hquiet property hD kind hkind
  cases kind with
  | property key value =>
    have hvalue := hchildren value List.mem_cons_self
    dsimp only
    split
    · refine (hr.synth hvalue h).bind fun interface => ?_
      refine finds_liftM_bind fun span _ => finds_mark.bind fun _ => finds_pure ?_
      rintro - ⟨hnone, -⟩
      cases hduplicate : seen.duplicate? <;> simp [hduplicate] at hnone
    · have hrecord {z : CheckM Interface}
          (hz : Finds s.tree D fixed M P z fun i => M.get? value = some i) :
          Finds s.tree D fixed M P
            (do
              let value ← record s property ((← z).map Typing.read)
              pure { seen with keys := key :: seen.keys, dynamic := seen.dynamic || value.dynamic })
            fun seen' => seen'.duplicate? = none ∧ seen'.dynamic = false →
              (seen.duplicate? = none ∧ seen.dynamic = false) ∧
                SteadyProperty s.tree M property := by
        refine hz.bind fun interface => ?_
        refine (finds_record fun hP kind hkind' => ?_).bind fun held => finds_pure ?_
        · obtain rfl := Except.ok.inj (hkind.symm.trans hkind')
          exact explained_property hP.2
        · rintro ⟨-, hheld⟩ ⟨hnone, hsteady⟩
          obtain ⟨hseen, hproperty⟩ := Bool.or_eq_false_iff.mp hsteady
          exact ⟨⟨hnone, hseen⟩, fun _ _ _ => ⟨held, hheld, hproperty⟩⟩
      split
      · exact hrecord (hr.check _ hvalue h)
      · exact hrecord (hr.synth hvalue h)
  | _ =>
    refine finds_mark.bind fun _ => finds_pure fun _ hseen => ⟨hseen, fun _ _ hok => ?_⟩
    rw [hkind] at hok
    cases hok

section

variable (hquiet : QuietBelow s.tree D) (h : P → Fixes fixed env)

include hquiet h

theorem synthObject_finds {properties : List NodeId} (hD : ∀ p ∈ properties, D p) :
    Finds s.tree D fixed M P (synthObject s r properties env)
      (Explained s.tree M fixed (.object properties)) := by
  have hfold : Finds s.tree D fixed M P (properties.foldlM (addProperty s r env) {}) _ :=
    .foldlM (fun parts p hp P' hP' => addProperty_finds hr hquiet (hD p hp) parts (h ∘ hP')) {}
  refine hfold.bind fun parts => finds_pure ?_
  rintro ⟨-, hparts⟩
  refine ⟨fun _ _ => trivial, fun typing hok hsteady => ?_⟩
  cases hduplicate : parts.duplicate? with
  | some e =>
    rw [hduplicate] at hok
    cases hok
  | none =>
    rw [hduplicate] at hok
    cases hok
    exact (hparts ⟨hduplicate, hsteady⟩).2

theorem checkObject_finds {properties : List NodeId} (hD : ∀ p ∈ properties, D p)
    (fields : List (Field Ty)) :
    Finds s.tree D fixed M P (checkObject s r properties env fields)
      (Explained s.tree M fixed (.object properties)) := by
  have hfold : Finds s.tree D fixed M P (properties.foldlM (checkProperty s r env fields) {}) _ :=
    .foldlM (fun seen p hp P' hP' => checkProperty_finds hr hquiet (hD p hp) fields seen (h ∘ hP'))
      {}
  refine hfold.bind fun seen => finds_pure ?_
  rintro ⟨-, hseen⟩
  refine ⟨fun _ _ => trivial, fun typing hok hsteady => ?_⟩
  cases hduplicate : seen.duplicate? with
  | some e =>
    rw [hduplicate] at hok
    cases hok
  | none =>
    rw [hduplicate] at hok
    cases hmissing : missingField? fields seen.keys with
    | some field =>
      rw [hmissing] at hok
      cases hok
    | none =>
      rw [hmissing] at hok
      cases hok
      exact (hseen ⟨hduplicate, hsteady⟩).2

end

/-! ### Conditionals -/

section

variable (h : P → Fixes fixed env) {test consequent alternate : NodeId}
  (hchildren : ∀ child ∈ (NodeKind.conditional test consequent alternate).children, D child)

include h hchildren

/-- The branches are visited where the test has come out true and where it has come out false. -/
theorem branches_find {visit : NodeId → TypeEnv → CheckM Interface}
    {f : Interface → Interface → Interface → Interface}
    (hvisit : ∀ {P : Prop} {node env}, D node → (P → Fixes fixed env) →
      Finds s.tree D fixed M P (visit node env) fun i => M.get? node = some i)
    (hf : ∀ test consequent alternate typing, f test consequent alternate = .ok typing →
      typing.dynamic = false → test.dynamic = false ∧
        ((testOutcome test).2 ≠ some false → consequent.dynamic = false) ∧
        ((testOutcome test).2 ≠ some true → alternate.dynamic = false)) :
    Finds s.tree D fixed M P
      (do
        let testInterface ← r.synth test env
        let whenTrue ← r.narrow env test true
        let whenFalse ← r.narrow env test false
        let consequent ← visit consequent whenTrue
        let alternate ← visit alternate whenFalse
        pure (f testInterface consequent alternate))
      (Explained s.tree M fixed (.conditional test consequent alternate)) := by
  have htest := hchildren test (by simp [NodeKind.children])
  refine (hr.synth htest h).bind fun i => ?_
  refine (hr.narrow true htest fun hP => h hP.1).bind fun whenTrue => ?_
  refine (hr.narrow false htest fun hP => h hP.1.1).bind fun whenFalse => ?_
  refine (hvisit (hchildren consequent (by simp [NodeKind.children])) fun hP => hP.1.2).bind
    fun c => ?_
  refine (hvisit (hchildren alternate (by simp [NodeKind.children])) fun hP => hP.1.2).bind
    fun a => finds_pure ?_
  rintro ⟨⟨⟨⟨⟨-, hi⟩, -⟩, -⟩, hc⟩, ha⟩
  refine ⟨fun _ _ => trivial, fun typing hok hsteady => ?_⟩
  obtain ⟨hsteadyi, hsteadyc, hsteadya⟩ := hf i c a typing hok hsteady
  refine ⟨⟨i, hi, hsteadyi⟩, fun hnot => ⟨c, hc, hsteadyc ?_⟩, fun hnot => ⟨a, ha, hsteadya ?_⟩⟩
  · rwa [← truthOf_eq hi]
  · rwa [← truthOf_eq hi]

theorem synthConditional_finds :
    Finds s.tree D fixed M P (synthConditional r test consequent alternate env)
      (Explained s.tree M fixed (.conditional test consequent alternate)) :=
  branches_find hr h hchildren hr.synth fun _ _ _ _ => steady_of_conditional

theorem checkConditional_finds (expected : Ty) :
    Finds s.tree D fixed M P (checkConditional r test consequent alternate env expected)
      (Explained s.tree M fixed (.conditional test consequent alternate)) := by
  have hchecked : ∀ {P : Prop} {node env}, D node → (P → Fixes fixed env) →
      Finds s.tree D fixed M P (r.check node env expected) fun i => M.get? node = some i :=
    hr.check expected
  refine branches_find hr h hchildren hchecked fun test consequent alternate typing hok hsteady => ?_
  cases hok
  exact steady_of_conditionalDynamic hsteady

end

/-! ### Other forms -/

theorem synthForm_finds (hquiet : QuietBelow s.tree D) (hnode : D node) (h : P → Fixes fixed env)
    {kind : NodeKind} (hkind : s.tree.kind node = .ok kind) :
    Finds s.tree D fixed M P (synthForm s r node env) (Explained s.tree M fixed kind) := by
  unfold synthForm
  rw [kindOf_bind hkind]
  obtain ⟨hform, hchildren⟩ := hquiet node hnode kind hkind
  cases kind with
  | undefined | null | literal =>
    refine finds_pure fun _ => ⟨fun typing hok => ?_, fun _ _ _ _ hchild => by cases hchild⟩
    cases hok
    rfl
  | identifier name =>
    refine finds_pure fun hP => ⟨fun _ _ => trivial, fun typing hok hsteady => ?_⟩
    unfold nameInterface at hok
    cases hget : env.get? name with
    | none =>
      rw [hget] at hok
      cases hok
    | some interface =>
      rw [hget] at hok
      cases interface with
      | error e => cases hok
      | ok typing' =>
        cases hok
        exact h hP name typing' hget hsteady
  | object properties => exact synthObject_finds hr hquiet h hchildren
  | property key value =>
    exact (hr.synth (hchildren value List.mem_cons_self) h).bind fun i =>
      finds_pure fun hP => explained_property hP.2
  | array elements =>
    refine (Finds.mapM fun e he P' hP' => hr.synth (hchildren e he) (h ∘ hP')).bind fun items =>
      finds_pure ?_
    rintro ⟨-, hitems⟩
    refine ⟨fun _ _ => trivial, fun typing hok hsteady => ?_⟩
    cases hok
    exact steady_of_any hitems hsteady
  | unary op argument =>
    refine (hr.synth (hchildren argument List.mem_cons_self) h).bind fun i => finds_pure ?_
    rintro ⟨-, hi⟩
    refine ⟨fun typing hok => ⟨i, hi, hok⟩, fun typing hok hsteady => ?_⟩
    exact List.forall_mem_singleton.mpr ⟨i, hi, dynamic_of_unary hok ▸ hsteady⟩
  | binary op left right =>
    have hright := hchildren right (List.mem_cons_of_mem _ List.mem_cons_self)
    refine (hr.synth (hchildren left List.mem_cons_self) h).bind fun l => ?_
    refine (hr.synth hright fun hP => h hP.1).bind fun r => finds_pure ?_
    rintro ⟨⟨-, hl⟩, hr⟩
    refine ⟨fun typing hok => ⟨l, r, hl, hr, hok⟩, fun typing hok hsteady => ?_⟩
    obtain ⟨hsteadyl, hsteadyr⟩ := Bool.or_eq_false_iff.mp (dynamic_of_binary hok ▸ hsteady)
    exact List.forall_mem_cons.mpr ⟨⟨l, hl, hsteadyl⟩,
      List.forall_mem_singleton.mpr ⟨r, hr, hsteadyr⟩⟩
  | logical op left right =>
    have hleft := hchildren left List.mem_cons_self
    have hright := hchildren right (List.mem_cons_of_mem _ List.mem_cons_self)
    refine (hr.synth hleft h).bind fun l => ?_
    refine (hr.narrow _ hleft fun hP => h hP.1).bind fun narrowed => ?_
    refine (hr.synth hright And.right).bind fun r => finds_pure ?_
    rintro ⟨⟨⟨-, hl⟩, -⟩, hr⟩
    refine ⟨fun _ _ => trivial, fun typing hok hsteady => ?_⟩
    -- The right part may be unsteady where the truth of the left one leaves it out.
    obtain ⟨hsteadyl, hrest⟩ := steady_of_logical hok hsteady
    refine ⟨⟨l, hl, hsteadyl⟩, hrest.imp (truthOf_eq hl).trans fun hsteadyr => ⟨r, hr, hsteadyr⟩⟩
  | conditional test consequent alternate =>
    exact synthConditional_finds hr h hchildren
  | member object name =>
    refine (hr.synth (hchildren object List.mem_cons_self) h).bind fun i => finds_pure ?_
    rintro ⟨-, hi⟩
    refine ⟨fun typing hok => ⟨i, hi, hok⟩, fun typing hok hsteady => ?_⟩
    exact List.forall_mem_singleton.mpr ⟨i, hi, steady_of_member hok hsteady⟩
  | index object index =>
    have hindex := hchildren index (List.mem_cons_of_mem _ List.mem_cons_self)
    refine (hr.synth (hchildren object List.mem_cons_self) h).bind fun l => ?_
    refine (hr.synth hindex fun hP => h hP.1).bind fun r => finds_pure ?_
    rintro ⟨⟨-, hl⟩, hr⟩
    refine ⟨fun typing hok => ⟨l, r, hl, hr, hok⟩, fun typing hok hsteady => ?_⟩
    obtain ⟨hsteadyl, hsteadyr⟩ := steady_of_index hok hsteady
    exact List.forall_mem_cons.mpr ⟨⟨l, hl, hsteadyl⟩,
      List.forall_mem_singleton.mpr ⟨r, hr, hsteadyr⟩⟩
  | ascription expression written =>
    refine (hr.check _ (hchildren expression List.mem_cons_self) h).bind fun i => finds_pure ?_
    rintro ⟨-, hi⟩
    refine ⟨fun _ _ => trivial, fun typing hok hsteady => ?_⟩
    cases hok
    exact List.forall_mem_singleton.mpr ⟨i, hi, hsteady⟩
  | element tag attributes children =>
    refine (Finds.mapM fun e he P' hP' => hr.synth (hchildren e he) (h ∘ hP')).bind fun parts =>
      finds_pure ?_
    rintro ⟨-, hparts⟩
    refine ⟨fun _ _ => trivial, fun typing hok hsteady => ?_⟩
    cases hok
    exact steady_of_any hparts hsteady
  -- None of the remaining forms is quiet.
  | call | arrow | assignment => cases hform
  | constBinding | letBinding | importing => cases hform

theorem visitAll_finds {nodes : List NodeId} (hD : ∀ x ∈ nodes, D x) (h : P → Fixes fixed env) :
    Finds s.tree D fixed M P (visitAll r nodes env) fun _ => True := by
  induction nodes with
  | nil => exact finds_pure fun _ => trivial
  | cons x nodes ih =>
    refine Finds.bind (Q := fun _ => True) ?_ fun _ =>
      (ih fun y hy => hD y (List.mem_cons_of_mem x hy)).mono And.left fun _ _ => id
    exact (hr.synth (hD x List.mem_cons_self) h).bind fun _ => finds_pure fun _ => trivial

theorem checkTuple_finds {elements : List NodeId} (hD : ∀ e ∈ elements, D e)
    (h : P → Fixes fixed env) (items : List Ty) :
    Finds s.tree D fixed M P (checkTuple r elements env items)
      (Explained s.tree M fixed (.array elements)) := by
  unfold checkTuple
  split
  · rename_i hlength
    have helement {pair : NodeId × Ty} (hpair : pair ∈ elements.zip items) : D pair.1 :=
      hD _ (List.of_mem_zip hpair).1
    refine (Finds.mapM fun pair hpair P' hP' => hr.check pair.2 (helement hpair) (h ∘ hP')).bind
      fun checked => finds_pure ?_
    rintro ⟨-, hchecked⟩
    refine ⟨fun _ _ => trivial, fun typing hok hsteady => ?_⟩
    cases hok
    have hall : List.Forall₂ (fun e i => M.get? e = some i) elements checked := by
      rw [← List.map_fst_zip (Nat.le_of_eq hlength), List.forall₂_map_left_iff]
      exact hchecked
    exact steady_of_any hall hsteady
  · exact (visitAll_finds hr hD h).bind fun _ => finds_pure fun _ => explained_error

theorem checkForm_finds (hquiet : QuietBelow s.tree D) (hnode : D node) (h : P → Fixes fixed env)
    {kind : NodeKind} (hkind : s.tree.kind node = .ok kind) (expected : Ty) :
    Finds s.tree D fixed M P (checkForm s r node env expected)
      (Explained s.tree M fixed kind) := by
  have hform : Finds s.tree D fixed M P (return expectType (← synthForm s r node env) expected)
      (Explained s.tree M fixed kind) :=
    (synthForm_finds hr hquiet hnode h hkind).bind fun i =>
      finds_pure fun hP => explained_expectType hP.2
  unfold checkForm
  rw [kindOf_bind hkind]
  obtain ⟨hquietForm, hchildren⟩ := hquiet node hnode kind hkind
  cases kind with
  | array elements =>
    cases expected with
    | tuple items => exact checkTuple_finds hr hchildren h items
    | array item =>
      refine (Finds.mapM fun e he P' hP' => hr.check item (hchildren e he) (h ∘ hP')).bind
        fun checked => finds_pure ?_
      rintro ⟨-, hchecked⟩
      refine ⟨fun _ _ => trivial, fun typing hok hsteady => ?_⟩
      cases hok
      exact steady_of_any hchecked hsteady
    | _ => exact hform
  | object properties =>
    cases expected with
    | object fields => exact checkObject_finds hr hquiet h hchildren fields
    | _ => exact hform
  | conditional test consequent alternate => exact checkConditional_finds hr h hchildren expected
  | arrow => cases hquietForm
  | _ => exact hform

end

/-! ### All expressions -/

/-- At every depth the judgements account for what they record. -/
theorem rules_find (hquiet : QuietBelow s.tree D) (depth : Nat) :
    RulesFind s.tree D fixed M (rules s depth) := by
  induction depth with
  | zero => exact ⟨fun _ _ => finds_throw _, fun _ _ _ => finds_throw _, fun _ _ _ => finds_throw _⟩
  | succ depth ih =>
    have hrecord {P : Prop} {node : NodeId} {z : CheckM Interface}
        (hthrow : ∀ fault, s.tree.kind node = .error fault → z = throw fault)
        (hz : ∀ kind, s.tree.kind node = .ok kind →
          Finds s.tree D fixed M P z (Explained s.tree M fixed kind)) :
        Finds s.tree D fixed M P (do record s node (← z)) fun i => M.get? node = some i := by
      cases hkind : s.tree.kind node with
      | error fault =>
        rw [hthrow fault hkind]
        exact finds_throw fault
      | ok kind =>
        refine (hz kind hkind).bind fun i => finds_record fun hP kind' hkind' => ?_
        obtain rfl := Except.ok.inj (hkind.symm.trans hkind')
        exact hP.2
    refine ⟨fun hnode h => finds_heldOr ?_, fun expected hnode h => finds_heldOr ?_,
      fun outcome hnode h => narrowTest_finds ih hquiet hnode h outcome⟩
    · refine hrecord (fun fault hfault => ?_) fun kind hkind =>
        synthForm_finds ih hquiet hnode h hkind
      unfold synthForm kindOf
      rw [hfault]
      rfl
    · refine hrecord (fun fault hfault => ?_) fun kind hkind =>
        checkForm_finds ih hquiet hnode h hkind expected
      unfold checkForm kindOf
      rw [hfault]
      rfl

/-- After the check of an expression the interfaces below it are explained by each other. -/
theorem explained_of_synth {m : InterfaceMap} (hquiet : QuietBelow s.tree D) (hnode : D node)
    (hfixed : Fixes fixed env)
    (h : synth s node env (.ofSize s.tree.size) = .ok (interface, m)) :
    m.get? node = some interface ∧ Accounted s.tree D fixed m m := by
  have hrules : RulesFind s.tree D fixed m (treeRules s) := rules_find hquiet _
  have hfinds := (hrules.synth (P := True) hnode fun _ => hfixed) _ interface m h
  obtain ⟨haccounted, hget⟩ := hfinds.2 (.refl m) trivial fun x _ _ _ _ hget => by
    rw [InterfaceMap.get?_ofSize] at hget
    cases hget
  exact ⟨hget, haccounted⟩

end ReactiveDoc.Check
