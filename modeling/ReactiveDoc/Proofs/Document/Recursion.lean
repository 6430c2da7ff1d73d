import Mathlib
import ReactiveDoc.Document.Running
import ReactiveDoc.Proofs.Document.Reading
import ReactiveDoc.Proofs.Eval.Advancing
import ReactiveDoc.Proofs.Eval.Undisturbed

namespace ReactiveDoc

/-!
# Bindings that use each other are evaluated

The names of a legal cyclic group stand for references while its members are evaluated.  Legality
keeps uses in arrows; what it cannot see is whether these arrows are called too early.

* `Guarded` — nothing outside arrows calls, or captures, what the group has yet to bind.
* `Underway`, `evaluateMembers_advances` — what the names stand for while the members are evaluated.
* `evaluateGroup_advances` — a group leaves no reference waiting.
* `evaluate_advances` — a document does not read a waiting reference.
-/

open Eval
open Signal (Stage Tier)

variable {σ : Type} {t : Tree} {fragments : List NodeId} {members : List Nat}

/-! ### Guarded groups -/

/-- One of the members binds the name. -/
def BoundIn (t : Tree) (fragments : List NodeId) (members : List Nat) (name : String) : Prop :=
  ∃ position ∈ members, Defines t fragments name position

/-- The members of a group can be evaluated one after the other, although they use each other. -/
structure Guarded (t : Tree) (fragments : List NodeId) (m : InterfaceMap) (members : List Nat) :
    Prop where
  /-- A member that mentions a name of the group reads a binding of the group. -/
  own : ∀ user ∈ members, ∀ name deferred, Mentions t fragments user name deferred →
    BoundIn t fragments members name →
    ∃ definition ∈ members, Chosen (Defines t fragments name) user definition
  /-- Calls and assignments outside arrows mention no name of the group. -/
  uncalled : ∀ user ∈ members, ∀ node, fragments[user]? = some node → ∀ x kind,
    t.Immediate node x → t.kind x = .ok kind → Acts kind →
    ∀ name, BoundIn t fragments members name → ¬ t.Free name x
  /-- A name that the member itself or a later one binds does not change over time where the member
      uses it. -/
  fixed : ∀ front user back, members = front ++ user :: back → ∀ node,
    fragments[user]? = some node → ∀ name use, t.FreeAt name use node →
    BoundIn t fragments (user :: back) name → ¬ (m.get? use).any Interface.dynamic

/-- In a legal group a name of the group is mentioned in arrows only. -/
theorem Guarded.not_immediate {m : InterfaceMap} {groups : List Group} {g : Group}
    (h : Guarded t fragments m g.members) (hgroups : OrderedGroups t fragments groups)
    (hg : g ∈ groups) (hlegal : g.legal = true) {user : Nat} (huser : user ∈ g.members)
    {node x : NodeId} {name : String} (hnode : fragments[user]? = some node)
    (hx : t.Immediate node x) (hkind : t.kind x = .ok (.identifier name)) :
    ¬ BoundIn t fragments g.members name := by
  intro hbound
  have hmentions : Mentions t fragments user name false := ⟨node, hnode, x, hx, hkind⟩
  obtain ⟨definition, hdefinition, hchosen⟩ := h.own user huser name false hmentions hbound
  have hdeferred := ((hgroups.legal_iff g hg).mp hlegal).2.2 definition hdefinition user huser
    false ⟨name, hmentions, hchosen⟩
  cases hdeferred

/-! ### Declaring the names -/

/-- These are the references that wait for their targets, each listed once. -/
structure Waiting (s : Stage) (ids : List SignalId) : Prop where
  nodup : ids.Nodup
  mem_iff : ∀ id : SignalId, id ∈ ids ↔ s[id]? = some none

theorem waiting_nil {s : Stage} : Waiting s [] ↔ Complete s :=
  ⟨fun h id hid => absurd ((h.mem_iff id).mpr hid) List.not_mem_nil,
    fun h => ⟨.nil, fun id => ⟨nofun, fun hid => absurd hid (h id)⟩⟩⟩

theorem Waiting.append {s : Stage} {ids : List SignalId} (h : Waiting s ids) :
    Waiting (s ++ [none]) (ids ++ [s.length]) := by
  have hlt : ∀ id ∈ ids, id < s.length := fun id hid =>
    (List.getElem?_eq_some_iff.mp ((h.mem_iff id).mp hid)).1
  refine ⟨List.nodup_append.mpr ⟨h.nodup, List.nodup_singleton _, fun id hid id' hid' => ?_⟩,
    fun id => ?_⟩
  · rw [List.mem_singleton.mp hid']
    exact Nat.ne_of_lt (hlt id hid)
  · rw [List.mem_append, List.mem_singleton, h.mem_iff id]
    rcases Nat.lt_trichotomy id s.length with hid | rfl | hid
    · rw [List.getElem?_append_left hid, or_iff_left (Nat.ne_of_lt hid)]
    · simp
    · have hout : (s ++ [none])[id]? = none := by
        rw [List.getElem?_eq_none_iff, List.length_append]
        exact hid
      rw [hout, List.getElem?_eq_none (Nat.le_of_lt hid), or_iff_right nofun]
      exact ⟨fun h => absurd h (Nat.ne_of_gt hid), nofun⟩

/-- References are declared for names. -/
theorem declare_advances {M : Regime} (names : List String) {s : Stage} {ids : List SignalId}
    (h : Waiting s ids) :
    M.Advances s (names.mapM fun name => do
        pure (name, ← lift (Signal.create fun g => g.reference)) : EvalM σ _)
      fun s' references => Waiting s' (ids ++ references.map Prod.snd) ∧
        references.map Prod.fst = names := by
  induction names generalizing s ids with
  | nil => exact Regime.advances_pure ⟨by simpa using h, rfl⟩
  | cons name names ih =>
    rw [List.mapM_cons, bind_assoc]
    refine Regime.reference_advances.bind ?_
    rintro _ _ _ ⟨rfl, rfl⟩
    refine (ih h.append).bind fun s₂ _ references hreferences => Regime.advances_pure ⟨?_, ?_⟩
    · simpa using hreferences.1
    · rw [List.map_cons, hreferences.2]

theorem map_snd_owned (m : Nat) (references : List (String × SignalId)) :
    (references.map fun (_, id) => (m, id)).map Prod.snd = references.map Prod.snd := by
  rw [List.map_map]
  rfl

/-- The names that members bind stand for references. -/
theorem declareNames_advances {M : Regime} {d : Document} (positions : List (Nat × NodeId))
    {s : Stage} {env : ValueEnv} {ids : List SignalId} (h : Waiting s ids) :
    M.Advances s (CheckedDocument.declareNames d env positions : EvalM σ _) fun s' result =>
      Waiting s' (ids ++ result.2.map Prod.snd) ∧
      ∃ bindings : List (String × SignalId),
        result.1 = env.extendAll (bindings.map fun b => (b.1, .signal b.2)) ∧
        ∀ b ∈ bindings, b.2 ∈ result.2.map Prod.snd ∧ ∃ position ∈ positions, ∃ kind,
          d.tree.kind position.2 = .ok kind ∧ b.1 ∈ kind.definedNames := by
  induction positions generalizing s env ids with
  | nil => exact Regime.advances_pure ⟨by simpa using h, [], rfl, nofun⟩
  | cons position positions ih =>
    obtain ⟨m, node⟩ := position
    unfold CheckedDocument.declareNames
    refine Regime.Advances.lookUp_bind fun kind hkind => ?_
    refine (declare_advances kind.definedNames h).bind fun s₁ _ references hreferences => ?_
    refine (ih hreferences.1).bind fun s₂ _ others hothers => Regime.advances_pure ?_
    obtain ⟨hwaiting, bindings, henv, hbindings⟩ := hothers
    have hids := map_snd_owned m references
    refine ⟨?_, references ++ bindings, ?_, fun b hb => ?_⟩
    · rw [List.map_append, hids, ← List.append_assoc]
      exact hwaiting
    · rw [henv, List.map_append, Env.extendAll_append]
    · rw [List.map_append, hids, List.mem_append]
      rcases List.mem_append.mp hb with hb | hb
      · refine ⟨.inl (List.mem_map_of_mem hb), (m, node), List.mem_cons_self, kind, hkind, ?_⟩
        rw [← hreferences.2]
        exact List.mem_map_of_mem hb
      · obtain ⟨hid, position, hposition, hdefined⟩ := hbindings b hb
        exact ⟨.inr hid, position, List.mem_cons_of_mem _ hposition, hdefined⟩

/-! ### Evaluating the members -/

/-- What names stand for while the members of a group are evaluated.  Those of the group may stand
    for waiting references as long as they are pending; the others are settled. -/
structure Underway (s : Stage) (names pending : String → Prop)
    (progress : CheckedDocument.Progress) : Prop where
  known : ∀ name v, progress.1.get? name = some v → Settled s.Known v
  others : ∀ name v, ¬ names name → progress.1.get? name = some v →
    Settled (s.Readable .ready) v
  evaluated : ∀ name v, ¬ pending name → progress.1.get? name = some v →
    settling.Allows s .idle v
  values : ∀ v ∈ progress.2, settling.Allows s .idle v

section

variable {r : Rules σ} {p : Program} {modules : ModuleValues} {s s' : Stage}
  {progress : CheckedDocument.Progress}

theorem BoundIn.cons {user : Nat} {back : List Nat} {node : NodeId} {kind : NodeKind} {name : String}
    (hnode : fragments[user]? = some node) (hkind : t.kind node = .ok kind) :
    BoundIn t fragments (user :: back) name ↔
      name ∈ kind.definedNames ∨ BoundIn t fragments back name := by
  constructor
  · rintro ⟨position, hposition, hdefines⟩
    rcases List.mem_cons.mp hposition with rfl | hposition
    · obtain ⟨node', kind', hnode', hkind', hname⟩ := hdefines
      obtain rfl := Option.some.inj (hnode'.symm.trans hnode)
      obtain rfl := Except.ok.inj (hkind'.symm.trans hkind)
      exact .inl hname
    · exact .inr ⟨position, hposition, hdefines⟩
  · rintro (hname | ⟨position, hposition, hdefines⟩)
    · exact ⟨user, List.mem_cons_self, node, kind, hnode, hkind, hname⟩
    · exact ⟨position, List.mem_cons_of_mem user hposition, hdefines⟩

/-- The nodes below a guarded member call only what is settled. -/
theorem Underway.code {user : Nat} {front back : List Nat} {node x : NodeId} {kind : NodeKind}
    {references : List Reference}
    (h : Underway s (BoundIn p.tree fragments (front ++ user :: back))
      (BoundIn p.tree fragments (user :: back)) progress)
    (hguarded : Guarded p.tree fragments p.interfaces (front ++ user :: back))
    (hplain : ∀ x name, p.tree.Immediate node x → p.tree.kind x = .ok (.identifier name) →
      ¬ BoundIn p.tree fragments (front ++ user :: back) name)
    (hnode : fragments[user]? = some node) (hkind : p.tree.kind node = .ok kind)
    (hannotated : kind.isAnnotatedBinding = true)
    (hreferences : p.tree.references node = .ok references) (hx : x ∈ kind.children) :
    settling.code s .idle p x progress.1 := by
  have harrow : ∀ params body, kind ≠ .arrow params body := by
    rintro _ _ rfl
    cases hannotated
  have himmediate : p.tree.Immediate node x := .child .root hkind harrow hx
  obtain ⟨fuel, part, hwalk, -⟩ := himmediate.exists_referencesWithin hreferences
  have hread : ∀ name id, ¬ BoundIn p.tree fragments (user :: back) name →
      progress.1.get? name = some (.signal id) → s.Readable .idle id :=
    fun name id hpending hget => Value.within_signal.mp (h.evaluated name _ hpending hget)
  have huser : user ∈ front ++ user :: back := List.mem_append_right front List.mem_cons_self
  exact ⟨fun name v _ hget => h.known name v hget, fun _ =>
    calm_of_walk h.others hread hplain (hguarded.uncalled user huser node hnode)
      (hguarded.fixed front user back rfl node hnode) himmediate hwalk⟩

/-- The bindings that a member adds make its names pending no longer. -/
theorem Underway.adds {user : Nat} {back members : List Nat} {node : NodeId} {kind : NodeKind}
    {result : ValueEnv × Value}
    (h : Underway s (BoundIn t fragments members) (BoundIn t fragments (user :: back)) progress)
    (hs : s.Before s') (huser : user ∈ members) (hnode : fragments[user]? = some node)
    (hkind : t.kind node = .ok kind)
    (hresult : settling.Adds progress.1 kind.definedNames .idle s' result) :
    Underway s' (BoundIn t fragments members) (BoundIn t fragments back)
      (result.1, progress.2.set user result.2) := by
  obtain ⟨bindings, henv, hnames, hbindings, hvalue⟩ := hresult
  have hlater {v : Value} (hv : settling.Allows s .idle v) : settling.Allows s' .idle v :=
    hv.mono (hs.readable .idle) fun _ => settling.function_mono hs
  -- What a name stands for afterwards is new or was there before.
  have hcases {name : String} {v : Value} (hget : result.1.get? name = some v) :
      name ∈ kind.definedNames ∧ settling.Allows s' .idle v ∨
        name ∉ kind.definedNames ∧ progress.1.get? name = some v := by
    rw [henv] at hget
    rcases Env.mem_or_get?_of_extendAll hget with hmem | ⟨hname, hget⟩
    · exact .inl ⟨hnames ▸ List.mem_map_of_mem (f := Prod.fst) hmem, hbindings _ hmem⟩
    · exact .inr ⟨hnames ▸ hname, hget⟩
  refine ⟨fun name v hget => ?_, fun name v hname hget => ?_, fun name v hname hget => ?_,
    fun v hv => ?_⟩
  · rcases hcases hget with ⟨-, hv⟩ | ⟨-, hget⟩
    · exact settled_of_within hv
    · exact (h.known name v hget).mono fun _ hid => Nat.lt_of_lt_of_le hid hs.known
  · rcases hcases hget with ⟨hdefined, -⟩ | ⟨-, hget⟩
    · exact absurd ⟨user, huser, node, kind, hnode, hkind, hdefined⟩ hname
    · exact (h.others name v hname hget).mono (hs.readable .ready)
  · rcases hcases hget with ⟨-, hv⟩ | ⟨hnew, hget⟩
    · exact hv
    · refine hlater (h.evaluated name v (fun hpending => ?_) hget)
      exact ((BoundIn.cons hnode hkind).mp hpending).elim hnew hname
  · rcases List.mem_or_eq_of_mem_set hv with hv | rfl
    · exact hlater (h.values v hv)
    · exact hvalue

/-- A member is evaluated, and its own names are no longer pending. -/
theorem evaluateMember_admits (hr : settling.Governs r) {user : Nat} {front back : List Nat}
    {node : NodeId} {kind : NodeKind} {references : List Reference}
    (hguarded : Guarded p.tree fragments p.interfaces (front ++ user :: back))
    (hplain : ∀ x name, p.tree.Immediate node x → p.tree.kind x = .ok (.identifier name) →
      ¬ BoundIn p.tree fragments (front ++ user :: back) name)
    (hnode : fragments[user]? = some node) (hkind : p.tree.kind node = .ok kind)
    (hannotated : kind.isAnnotatedBinding = true)
    (hreferences : p.tree.references node = .ok references)
    (h : Underway s (BoundIn p.tree fragments (front ++ user :: back))
      (BoundIn p.tree fragments (user :: back)) progress) :
    settling.Admits s (CheckedDocument.evaluateMember r p modules progress (user, node))
      fun s' progress' => Underway s' (BoundIn p.tree fragments (front ++ user :: back))
        (BoundIn p.tree fragments back) progress' := by
  have hstatement : settling.Admits s (evaluateStatement r p modules node progress.1)
      (settling.Adds progress.1 kind.definedNames .idle) := by
    refine hr.evaluateStatement hkind (.inr fun h => by cases h) (fun _ _ _ x hx => ?_) (fun hexpression => ?_) ?_
    · exact h.code hguarded hplain hnode hkind hannotated hreferences hx
    · cases kind <;> first | cases hannotated | cases hexpression
    · rintro _ _ rfl
      cases hannotated
  refine hstatement.bind fun s' hs result hresult => Regime.admits_pure ?_
  exact h.adds hs.before (List.mem_append_right front List.mem_cons_self) hnode hkind hresult

/-- All members from one on are evaluated. -/
theorem evaluateMembers_admits (hr : settling.Governs r) {groups : List Group} {g : Group}
    (hgroups : OrderedGroups p.tree fragments groups) (hg : g ∈ groups) (hlegal : g.legal = true)
    (hguarded : Guarded p.tree fragments p.interfaces g.members)
    (hreferences : ∀ node ∈ fragments, ∃ references, p.tree.references node = .ok references)
    {front back : List Nat} (hmembers : g.members = front ++ back)
    (h : Underway s (BoundIn p.tree fragments g.members) (BoundIn p.tree fragments back) progress) :
    settling.Admits s
      ((back.filterMap fun m => fragments[m]?.map fun node => (m, node)).foldlM
        (CheckedDocument.evaluateMember r p modules) progress)
      fun s' progress' => Underway s' (BoundIn p.tree fragments g.members)
        (BoundIn p.tree fragments []) progress' := by
  induction back generalizing front s progress with
  | nil => exact Regime.admits_pure h
  | cons user back ih =>
    have huser : user ∈ g.members := hmembers ▸ List.mem_append_right front List.mem_cons_self
    obtain ⟨node, kind, hnode, hkind, hannotated⟩ :=
      ((hgroups.legal_iff g hg).mp hlegal).2.1 user huser
    obtain ⟨references, hwalk⟩ := hreferences node (List.mem_of_getElem? hnode)
    have hplain : ∀ x name, p.tree.Immediate node x → p.tree.kind x = .ok (.identifier name) →
        ¬ BoundIn p.tree fragments g.members name :=
      fun x name hx hname =>
        hguarded.not_immediate hgroups hg hlegal huser hnode hx hname
    have hfirst : (user :: back).filterMap (fun m => fragments[m]?.map fun node => (m, node)) =
        (user, node) :: back.filterMap fun m => fragments[m]?.map fun node => (m, node) := by
      rw [List.filterMap_cons, hnode]
      rfl
    rw [hfirst, List.foldlM_cons]
    rw [hmembers] at h hguarded hplain
    refine (evaluateMember_admits hr hguarded hplain hnode hkind hannotated hwalk h).bind
      fun s₁ _ progress₁ h₁ => ?_
    rw [← hmembers] at h₁
    exact ih (hmembers.trans (List.append_cons front user back)) h₁

end

/-! ### Giving the references their targets -/

theorem Waiting.later {s s' : Stage} {ids : List SignalId} (h : Waiting s ids) (hs : s.Grows s') :
    Waiting s' ids := by
  refine ⟨h.nodup, fun id => (h.mem_iff id).trans ⟨fun hid => hs.getElem? hid, fun hid => ?_⟩⟩
  obtain ⟨more, rfl⟩ := hs
  rcases Nat.lt_or_ge id s.length with hlt | hge
  · rw [List.getElem?_append_left hlt] at hid
    exact hid
  · rw [List.getElem?_append_right hge] at hid
    obtain ⟨t, -, ht⟩ := List.mem_map.mp (List.mem_of_getElem? hid)
    cases ht

theorem Waiting.resolved {s : Stage} {id : SignalId} {ids : List SignalId}
    (h : Waiting s (id :: ids)) : Waiting (s.set id (some .idle)) ids := by
  obtain ⟨hnew, hnodup⟩ := List.nodup_cons.mp h.nodup
  refine ⟨hnodup, fun other => ?_⟩
  have hiff := h.mem_iff other
  rw [List.mem_cons] at hiff
  by_cases heq : other = id
  · rw [heq, List.getElem?_set_self']
    refine ⟨fun hmem => absurd hmem hnew, fun hid => ?_⟩
    cases hget : s[id]? <;> rw [hget] at hid <;> cases hid
  · rw [List.getElem?_set_ne (Ne.symm heq), ← hiff]
    exact ⟨.inr, fun h => h.resolve_left heq⟩

theorem resolveTo_advances {s : Stage} {id : SignalId} {ids : List SignalId} {v : Value}
    (h : Waiting s (id :: ids)) (hv : settling.Allows s .idle v) :
    settling.Advances s (CheckedDocument.resolveTo id v : EvalM σ Unit)
      fun s' _ => Waiting s' ids := by
  unfold CheckedDocument.resolveTo
  have htarget : settling.Admits s (lift (asSignal (.ok v)) : EvalM σ SignalId)
      fun s' target => Waiting s' (id :: ids) ∧ s'.Readable .idle target :=
    Regime.Admits.mono (Regime.admits_lift (Regime.asSignal_preserves (M := settling) hv))
      fun s' hs target htarget => ⟨h.later hs, htarget⟩
  refine htarget.advances.bind fun s₁ _ target hstate => ?_
  obtain ⟨hwaiting, hreadable⟩ := hstate
  have hid := (hwaiting.mem_iff id).mp List.mem_cons_self
  refine (Regime.resolve_advances hid hreadable).bind ?_
  rintro _ _ _ ⟨rfl, rfl⟩
  exact Regime.advances_pure hwaiting.resolved

/-- Each reference is given one of the values. -/
theorem resolveAll_advances {s : Stage} {references : List (Nat × SignalId)} {values : List Value}
    (h : Waiting s (references.map Prod.snd)) (hvalues : ∀ v ∈ values, settling.Allows s .idle v) :
    settling.Advances s (references.forM fun (m, reference) =>
        CheckedDocument.resolveTo reference (values.getD m .undefined) : EvalM σ Unit)
      fun s' _ => Complete s' := by
  induction references generalizing s with
  | nil => exact Regime.advances_pure (waiting_nil.mp h)
  | cons reference references ih =>
    rw [List.forM]
    have hvalue : settling.Allows s .idle (values.getD reference.1 .undefined) :=
      Value.within_getD hvalues reference.1
    refine (resolveTo_advances h hvalue).bind fun s₁ hs₁ _ hwaiting => ih hwaiting fun v hv => ?_
    exact (hvalues v hv).mono (hs₁.readable .idle) fun _ => settling.function_mono hs₁

/-! ### Groups -/

/-- The values so far, and whatever modules provide, use no signals but known ones. -/
structure Available (modules : ModuleValues) (s : Stage) (progress : CheckedDocument.Progress) :
    Prop where
  modules : ∀ path specifiers, ∀ b ∈ importBindings modules path specifiers, Settled s.Known b.2
  names : ∀ name v, progress.1.get? name = some v → Settled s.Known v
  values : ∀ v ∈ progress.2, Settled s.Known v

section

variable {r : Rules σ} {p : Program} {modules : ModuleValues} {s s' : Stage}
  {progress : CheckedDocument.Progress}

theorem settled_known {v : Value} (h : Settled s.Known v) (hs : s.Before s') : Settled s'.Known v :=
  h.mono fun _ hid => Nat.lt_of_lt_of_le hid hs.known

theorem Available.later (h : Available modules s progress) (hs : s.Before s') :
    Available modules s' progress :=
  ⟨fun path specifiers b hb => settled_known (h.modules path specifiers b hb) hs,
    fun name v hget => settled_known (h.names name v hget) hs,
    fun v hv => settled_known (h.values v hv) hs⟩

/-- A fragment that does not use itself is evaluated without limits. -/
theorem evaluateAlone_advances (hr : settling.Governs r) (hs : Unlimited s)
    (h : Available modules s progress) (member : Nat × NodeId) :
    settling.Advances s (CheckedDocument.evaluateMember r p modules progress member)
      fun s' progress' => Unlimited s' ∧ Available modules s' progress' := by
  have hcode (x : NodeId) : settling.code s .ready p x progress.1 :=
    ⟨fun name v _ hget => (h.names name v hget).unlimited hs, fun h => by cases h⟩
  have hmember : settling.Admits s (CheckedDocument.evaluateMember r p modules progress member)
      fun s' progress' => Complete s' ∧ Available modules s' progress' := by
    unfold CheckedDocument.evaluateMember
    cases hkind : p.tree.kind member.2 with
    | error fault =>
      have hfault : settling.Admits s (evaluateStatement r p modules member.2 progress.1)
          fun _ _ => False := by
        unfold evaluateStatement
        refine Regime.Admits.require_bind (.inr fun h => by cases h) fun _ _ => ?_
        refine Regime.Admits.lookUp_bind fun kind hkind' => ?_
        cases hkind.symm.trans hkind'
      exact hfault.bind fun _ _ _ hfalse => hfalse.elim
    | ok kind =>
      have hstatement := hr.evaluateStatement (t := .ready) hkind (.inr fun h => by cases h)
        (fun _ _ _ x _ => hcode x) (fun _ => hcode member.2) fun path specifiers _ b hb =>
          settled_iff.mp ((h.modules path specifiers b hb).unlimited hs)
      refine hstatement.bind fun s₁ hs₁ result hresult => Regime.admits_pure ?_
      obtain ⟨bindings, henv, -, hbindings, hvalue⟩ := hresult
      have hlater := h.later hs₁.before
      refine ⟨hs.complete.later hs₁, hlater.modules, fun name v hget => ?_, fun v hv => ?_⟩
      · rw [henv] at hget
        rcases Env.mem_or_get?_of_extendAll hget with hmem | ⟨-, hget⟩
        · exact (settled_of_within (hbindings _ hmem)).mono fun _ hid => hid.known
        · exact hlater.names name v hget
      · rcases List.mem_or_eq_of_mem_set hv with hv | rfl
        · exact hlater.values v hv
        · exact (settled_of_within hvalue).mono fun _ hid => hid.known
  refine hmember.advances.opened (fun _ _ h => h.1) fun s' progress' h' => ⟨unlimited_opened s', ?_⟩
  exact h'.2.later (before_opened s')

/-- Declared names stand for waiting references, other names for what they stood for. -/
theorem Available.declared {d : Document} {group : Group} {ids : List SignalId}
    {bindings : List (String × SignalId)} (h : Available modules s progress)
    (hs : Unlimited s) (hs' : s.Before s') (hwaiting : Waiting s' ids)
    (hbindings : ∀ b ∈ bindings, b.2 ∈ ids ∧
      ∃ position ∈ CheckedDocument.membersOf d group, ∃ kind,
        d.tree.kind position.2 = .ok kind ∧ b.1 ∈ kind.definedNames) :
    Underway s' (BoundIn d.tree d.fragments group.members)
      (BoundIn d.tree d.fragments group.members)
      (progress.1.extendAll (bindings.map fun b => (b.1, .signal b.2)), progress.2) := by
  have hread {v : Value} (hv : Settled s.Known v) : Settled (s'.Readable .ready) v :=
    (hv.unlimited hs).mono (hs'.readable .ready)
  have hidle {v : Value} (hv : Settled s.Known v) : settling.Allows s' .idle v :=
    Regime.Allows.idle (settled_iff.mp (hread hv))
  -- A name of the group may stand for its reference; no other name does.
  have hcases {name : String} {v : Value}
      (hget : (progress.1.extendAll (bindings.map fun b => (b.1, .signal b.2))).get? name = some v) :
      (∃ id ∈ ids, v = .signal id) ∧ BoundIn d.tree d.fragments group.members name ∨
        progress.1.get? name = some v := by
    rcases Env.mem_or_get?_of_extendAll hget with hmem | ⟨-, hget⟩
    · obtain ⟨b, hb, heq⟩ := List.mem_map.mp hmem
      cases heq
      obtain ⟨hid, ⟨m, node⟩, hposition, kind, hkind, hname⟩ := hbindings b hb
      obtain ⟨m', hm, hnode⟩ := List.mem_filterMap.mp hposition
      obtain ⟨node', hnode, heq⟩ := Option.map_eq_some_iff.mp hnode
      cases heq
      exact .inl ⟨⟨_, hid, rfl⟩, m, hm, node, kind, hnode, hkind, hname⟩
    · exact .inr hget
  refine ⟨fun name v hget => ?_, fun name v hname hget => ?_, fun name v hname hget => ?_,
    fun v hv => hidle (h.values v hv)⟩
  · rcases hcases hget with ⟨⟨id, hid, rfl⟩, -⟩ | hget
    · refine settled_iff.mpr (Value.within_signal.mpr ?_)
      exact (List.getElem?_eq_some_iff.mp ((hwaiting.mem_iff id).mp hid)).1
    · exact settled_known (h.names name v hget) hs'
  · rcases hcases hget with ⟨-, hbound⟩ | hget
    · exact absurd hbound hname
    · exact hread (h.names name v hget)
  · rcases hcases hget with ⟨-, hbound⟩ | hget
    · exact absurd hbound hname
    · exact hidle (h.names name v hget)

/-- A group is evaluated, and no reference waits any longer. -/
theorem evaluateGroup_advances {d : Document} (hr : settling.Governs r) (hp : p.tree = d.tree)
    {groups : List Group} {g : Group} (hgroups : fragmentGroups d.tree d.fragments = .ok groups)
    (hg : g ∈ groups)
    (hguarded : g.legal = true → Guarded d.tree d.fragments p.interfaces g.members)
    (hs : Unlimited s) (h : Available modules s progress) :
    settling.Advances s (CheckedDocument.evaluateGroup r d p modules progress g)
      fun s' progress' => Unlimited s' ∧ Available modules s' progress' := by
  unfold CheckedDocument.evaluateGroup
  simp only
  split
  · rename_i hlegal
    have hwaiting : Waiting s [] := waiting_nil.mpr hs.complete
    refine (declareNames_advances _ hwaiting).bind fun s₁ hs₁ declared hdeclared => ?_
    obtain ⟨hwaiting₁, bindings, henv, hbindings⟩ := hdeclared
    have hunderway := h.declared hs hs₁ hwaiting₁ hbindings
    have hordered := ordered_of_fragmentGroups hgroups
    have hwalked := walked_of_fragmentGroups hgroups
    rw [← henv] at hunderway
    rw [← hp] at hguarded hordered hwalked hunderway
    have hmembers : settling.Admits s₁
        ((CheckedDocument.membersOf d g).foldlM (CheckedDocument.evaluateMember r p modules)
          (declared.1, progress.2)) fun s' progress' =>
        Waiting s' (declared.2.map Prod.snd) ∧
          Underway s' (BoundIn p.tree d.fragments g.members) (BoundIn p.tree d.fragments [])
            progress' :=
      (evaluateMembers_admits hr hordered hg hlegal.2 (hguarded hlegal.2) hwalked
        (List.nil_append _).symm hunderway).mono fun s' hs' _ h' => ⟨hwaiting₁.later hs', h'⟩
    refine (hmembers.advances.bind fun s₂ hs₂ progress₂ h₂ => ?_).opened
      (fun s' progress' (h' : Complete s' ∧ Available modules s' progress') => h'.1)
      fun s' progress' h' => ⟨unlimited_opened s', h'.2.later (before_opened s')⟩
    refine (resolveAll_advances h₂.1 h₂.2.values).bind fun s₃ hs₃ _ hcomplete => ?_
    refine Regime.advances_pure ⟨hcomplete, Available.later ?_ hs₃⟩
    exact ⟨(h.later (hs₁.trans hs₂)).modules, h₂.2.known,
      fun v hv => settled_of_within (h₂.2.values v hv)⟩
  · exact Regime.Advances.foldlM (fun _ _ _ h₁ member _ =>
      evaluateAlone_advances hr h₁.1 h₁.2 member) ⟨hs, h⟩

/-! ### Documents -/

/-- A document is evaluated without reading a reference that waits for its target. -/
theorem evaluate_advances {c : CheckedDocument} {d : Document} {options : EvalOptions}
    {prelude : Prelude} (hr : settling.Governs r)
    (hgroups : fragmentGroups d.tree d.fragments = .ok c.groups)
    (hguarded : ∀ g ∈ c.groups, g.legal = true →
      Guarded d.tree d.fragments c.interfaces g.members)
    (hs : Unlimited s) (hprelude : ∀ b ∈ prelude.values, Settled s.Known b.2)
    (hmodules : ∀ exports ∈ modules, ∀ b ∈ exports.2, Settled s.Known b.2) :
    settling.Advances s (c.evaluate r d options prelude modules) fun s' result =>
      Unlimited s' ∧ ∀ v ∈ result.values, Settled s'.Known v := by
  have hundefined : Settled s.Known .undefined := settled_iff.mpr Value.within_undefined
  have hstart : Available modules s
      (prelude.env, List.replicate d.fragments.length .undefined) := by
    refine ⟨fun path specifiers b hb => ?_, fun name v hget => ?_, fun v hv => ?_⟩
    · obtain ⟨specifier, -, rfl⟩ := List.mem_map.mp hb
      have hexports : ∀ f ∈ (modules.lookup path).getD [], Settled s.Known f.2 := by
        cases hlookup : modules.lookup path with
        | none => exact nofun
        | some exports => exact hmodules (path, exports) (mem_of_lookup hlookup)
      show Settled s.Known (Option.getD _ _)
      cases hvalue : ((modules.lookup path).getD []).lookup specifier.imported with
      | none => exact hundefined
      | some v => exact hexports (specifier.imported, v) (mem_of_lookup hvalue)
    · rcases Env.mem_or_get?_of_extendAll hget with hmem | ⟨-, hget⟩
      · exact hprelude _ hmem
      · cases hget
    · rw [List.eq_of_mem_replicate hv]
      exact hundefined
  unfold CheckedDocument.evaluate
  simp only
  refine (Regime.Advances.foldlM (R := fun s' progress' => Unlimited s' ∧
    Available modules s' progress') (fun _ _ _ h₁ g hg =>
      evaluateGroup_advances hr rfl hgroups hg (hguarded g hg) h₁.1 h₁.2)
    ⟨hs, hstart⟩).bind fun s₁ _ progress₁ h₁ => ?_
  refine Regime.Advances.lookUp_bind fun exports _ => Regime.advances_pure ?_
  exact ⟨h₁.1, h₁.2.values⟩

end

/-- Whatever errors a check finds, evaluation reads no waiting reference, if the legal groups are
    guarded.  All that is given to the document has to be ready, and the functions of the host may
    not read waiting references themselves. -/
theorem evaluate_ne_unresolvedRef {compiler : Compiler} {d : Document}
    {cache? cache?' : Option FragmentCache} {c : CheckedDocument}
    (hchecked : compiler.check d cache? = .ok (c, cache?'))
    (hguarded : ∀ g ∈ c.groups, g.legal = true →
      Guarded d.tree d.fragments c.interfaces g.members)
    {host : Host σ} (hhost : settling.Hosts host) {prelude : Prelude} {modules : ModuleValues}
    {w : Signal.World Payload Step Choice σ}
    (hgraph : w.graph.Obeys settling.discipline (List.replicate w.graph.size (some .ready)))
    (hprelude : ∀ b ∈ prelude.values, Settled (· < w.graph.size) b.2)
    (hmodules : ∀ exports ∈ modules, ∀ b ∈ exports.2, Settled (· < w.graph.size) b.2)
    (depth : Nat) (options : EvalOptions) :
    ∀ result w', (c.evaluate (rules host depth) d options prelude modules).run w =
      .ok (result, w') → result ≠ .error (.signal .unresolvedRef) := by
  rintro result w' hrun rfl
  have hgroups : fragmentGroups d.tree d.fragments = .ok c.groups := by
    obtain ⟨groups, hgroups, hrest⟩ := Except.bind_eq_ok_iff.mp hchecked
    obtain ⟨⟨⟨_, _⟩, interfaces⟩, -, hrest⟩ := Except.bind_eq_ok_iff.mp hrest
    obtain ⟨exports, -, hrest⟩ := Except.bind_eq_ok_iff.mp hrest
    cases hrest
    exact hgroups
  have hknown : ∀ id, id < w.graph.size →
      Stage.Known (List.replicate w.graph.size (some .ready)) id := by
    intro id hid
    unfold Stage.Known
    rwa [List.length_replicate]
  -- Nothing waits to begin with: all signals there are ready.
  have hs : Unlimited (List.replicate w.graph.size (some .ready)) := by
    intro id hid
    unfold Stage.Known at hid
    rw [List.length_replicate] at hid
    exact ⟨.ready, List.getElem?_replicate_of_lt hid, .inl rfl⟩
  exact evaluate_advances (Regime.governs_rules hhost depth) hgroups hguarded hs
    (fun b hb => (hprelude b hb).mono hknown)
    (fun exports hexports b hb => (hmodules exports hexports b hb).mono hknown) hgraph hrun rfl

/-! ### A function that calls itself -/

/-- `const answer = latch(false)` and then
    `const latch: (on: boolean) => boolean = (on) => on ? on : latch(true)`. -/
def latching : Document where
  tree := ⟨#[⟨default, .identifier "on"⟩, ⟨default, .identifier "on"⟩,
    ⟨default, .identifier "latch"⟩, ⟨default, .literal (.boolean true)⟩, ⟨default, .call 2 [3]⟩,
    ⟨default, .conditional 0 1 4⟩, ⟨default, .arrow [⟨"on", none⟩] 5⟩,
    ⟨default, .constBinding "latch" (some (.function [.boolean] .boolean)) 6 false⟩,
    ⟨default, .identifier "latch"⟩, ⟨default, .literal (.boolean false)⟩, ⟨default, .call 8 [9]⟩,
    ⟨default, .constBinding "answer" none 10 false⟩]⟩
  fragments := [11, 7]

theorem latching_guarded {m : InterfaceMap} (hm : (m.get? 2).any Interface.dynamic = false) :
    Guarded latching.tree latching.fragments m [1] := by
  have hreferences : latching.tree.references 7 = .ok [⟨"latch", 2, true⟩] := rfl
  have hposition {user : Nat} {node : NodeId} (huser : user ∈ [1])
      (hnode : latching.fragments[user]? = some node) : user = 1 ∧ node = 7 := by
    obtain rfl := List.mem_singleton.mp huser
    cases hnode
    exact ⟨rfl, rfl⟩
  refine ⟨fun user huser name deferred hmentions _ => ?_, fun user huser node hnode x kind hx => ?_,
    fun front user back hmembers node hnode name use hfree _ => ?_⟩
  · obtain ⟨node, hnode, hfree⟩ := hmentions
    obtain ⟨rfl, rfl⟩ := hposition huser hnode
    obtain ⟨reference, hmem, rfl, -⟩ := (Tree.exists_deferred_iff hreferences).mpr hfree
    obtain rfl := List.mem_singleton.mp hmem
    exact ⟨1, huser, .own ⟨7, _, rfl, rfl, List.mem_singleton_self _⟩⟩
  · obtain ⟨rfl, rfl⟩ := hposition huser hnode
    intro hkind hacts
    have hnodes : x = 7 ∨ x = 6 := by
      clear hkind hacts
      induction hx with
      | root => exact .inl rfl
      | child _ hkind harrow hchild ih =>
        obtain rfl | rfl := ih
        · cases hkind
          exact .inr (List.mem_singleton.mp hchild)
        · cases hkind
          exact absurd rfl (harrow _ _)
    obtain rfl | rfl := hnodes <;> cases hkind <;> exact hacts.elim
  · have huser : user ∈ [1] := hmembers ▸ List.mem_append_right front List.mem_cons_self
    obtain ⟨rfl, rfl⟩ := hposition huser hnode
    obtain ⟨reference, hmem, -, rfl⟩ := (Tree.exists_reference_iff hreferences).mpr hfree
    obtain rfl := List.mem_singleton.mp hmem
    rw [hm]
    exact Bool.false_ne_true

theorem bareHost_settling : settling.Hosts bareHost :=
  ⟨fun _ name _ _ => Regime.admits_throwException (.stated name), fun _ h => nomatch h⟩

/-- The first fragment has the value true. -/
def beginsTrue (evaluated : EvaluatedDocument) : Bool :=
  match evaluated.values.head? with
  | some (.boolean true) => true
  | _ => false

theorem head?_of_beginsTrue {evaluated : EvaluatedDocument} (h : beginsTrue evaluated = true) :
    evaluated.values.head? = some (.boolean true) := by
  unfold beginsTrue at h
  split at h
  case h_1 hhead => exact hhead
  case h_2 => cases h

/-- The function calls itself when it is called, and the call comes to an end. -/
theorem evaluate_ne_unresolvedRef_latch : ∃ c evaluated w',
    ({} : Compiler).check latching none = .ok (c, none) ∧
    (∀ g ∈ c.groups, g.legal = true →
      Guarded latching.tree latching.fragments c.interfaces g.members) ∧
    (c.evaluate (rules bareHost 12) latching {} {} []).run ⟨{}, 0, ()⟩ =
      .ok (.ok evaluated, w') ∧
    evaluated.values.head? = some (.boolean true) ∧
    Except.ok evaluated ≠ .error (EvalError.signal .unresolvedRef) := by
  obtain ⟨c, hchecked, hgroups, hsteady, hany⟩ : ∃ c,
      ({} : Compiler).check latching none = .ok (c, none) ∧
      c.groups = [⟨[1], true, true, ["latch", "latch"]⟩, ⟨[0], false, false, []⟩] ∧
      (c.interfaces.get? 2).any Interface.dynamic = false ∧
      ((c.evaluate (rules bareHost 12) latching {} {} []).run ⟨{}, 0, ()⟩).toOption.any
        (fun result => result.1.toOption.any beginsTrue) = true :=
    ⟨_, (show _ = Except.ok (_, none) by cbv), rfl, rfl, by decide +kernel⟩
  obtain ⟨⟨result, w'⟩, hrun, htrue⟩ := Except.exists_ok_of_any hany
  obtain ⟨evaluated, rfl, hbegins⟩ := Except.exists_ok_of_any htrue
  have hvalue := head?_of_beginsTrue hbegins
  have hguarded : ∀ g ∈ c.groups, g.legal = true →
      Guarded latching.tree latching.fragments c.interfaces g.members := by
    rw [hgroups]
    exact List.forall_mem_cons.mpr ⟨fun _ => latching_guarded hsteady,
      List.forall_mem_singleton.mpr fun hlegal => by cases hlegal⟩
  have hgraph : Signal.Graph.Obeys settling.discipline [] {} :=
    ⟨rfl, fun _ _ h => (by cases h), fun _ h => (by cases h)⟩
  have hprelude : ∀ b ∈ ({} : Prelude).values, Settled (· < 0) b.2 := fun _ h => by cases h
  have hmodules : ∀ exports ∈ ([] : ModuleValues), ∀ b ∈ exports.2, Settled (· < 0) b.2 :=
    fun _ h => by cases h
  exact ⟨c, evaluated, w', hchecked, hguarded, hrun, hvalue,
    evaluate_ne_unresolvedRef (w := ⟨{}, 0, ()⟩) hchecked hguarded bareHost_settling hgraph
      hprelude hmodules 12 {} _ _ hrun⟩

/-! ### Functions that are called too early -/

/-- Without errors and with legal groups only, evaluation of the document reads a waiting
    reference. -/
def ReadsEarly (d : Document) (prelude : Prelude) (g : Signal.Graph Payload Step Choice) : Prop :=
  ∃ c w', ({ host := prelude.types } : Compiler).check d none = .ok (c, none) ∧
    c.errors = [] ∧ c.dropped = 0 ∧ (∀ g ∈ c.groups, g.cyclic = true → g.legal = true) ∧
    (c.evaluate (rules bareHost 10) d {} prelude []).run ⟨g, 1, ()⟩ =
      .ok (.error (.signal .unresolvedRef), w')

/-- `ReadsEarly`, computed. -/
def readsEarly (d : Document) (prelude : Prelude) (g : Signal.Graph Payload Step Choice) : Bool :=
  match ({ host := prelude.types } : Compiler).check d none with
  | .ok (c, none) =>
      c.errors.isEmpty && c.dropped == 0 && (c.groups.all fun g => !g.cyclic || g.legal) &&
        match (c.evaluate (rules bareHost 10) d {} prelude []).run ⟨g, 1, ()⟩ with
        | .ok (.error (.signal .unresolvedRef), _) => true
        | _ => false
  | _ => false

theorem ReadsEarly.of_computed {d : Document} {prelude : Prelude}
    {g : Signal.Graph Payload Step Choice} (h : readsEarly d prelude g = true) :
    ReadsEarly d prelude g := by
  unfold readsEarly at h
  split at h
  case h_1 c hchecked =>
    rw [Bool.and_eq_true] at h
    obtain ⟨hclean, hrun⟩ := h
    simp only [Bool.and_eq_true, List.isEmpty_iff, beq_iff_eq, List.all_eq_true,
      Bool.or_eq_true, Bool.not_eq_true'] at hclean
    obtain ⟨⟨herrors, hdropped⟩, hlegal⟩ := hclean
    split at hrun
    case h_1 w' hevaluated =>
      refine ⟨c, w', hchecked, herrors, hdropped, fun g hg hcyclic => ?_, hevaluated⟩
      exact (hlegal g hg).resolve_left (by simp [hcyclic])
    case h_2 => cases hrun
  case h_2 => cases h

/-- `const b: boolean = (() => f(true))()` and then
    `const f: (x: boolean) => boolean = (x) => x ? x : b`. -/
def calledEarly : Document where
  tree := ⟨#[⟨default, .identifier "f"⟩, ⟨default, .literal (.boolean true)⟩,
    ⟨default, .call 0 [1]⟩, ⟨default, .arrow [] 2⟩, ⟨default, .call 3 []⟩,
    ⟨default, .constBinding "b" (some .boolean) 4 false⟩, ⟨default, .identifier "x"⟩,
    ⟨default, .identifier "x"⟩, ⟨default, .identifier "b"⟩, ⟨default, .conditional 6 7 8⟩,
    ⟨default, .arrow [⟨"x", none⟩] 9⟩,
    ⟨default, .constBinding "f" (some (.function [.boolean] .boolean)) 10 false⟩]⟩
  fragments := [5, 11]

/-- `let f: Code<Code<number>> = (() => f) && o.c` -/
def capturedEarly : Document where
  tree := ⟨#[⟨default, .identifier "f"⟩, ⟨default, .arrow [] 0⟩, ⟨default, .identifier "o"⟩,
    ⟨default, .member 2 "c"⟩, ⟨default, .logical .and 1 3⟩,
    ⟨default, .letBinding "f" (some (.reference "Code" [.reference "Code" [.number]])) 4 .code
      false⟩]⟩
  fragments := [5]

/-- The name `o` stands for an object with a cell, which holds a cell. -/
def cellInCell : Prelude :=
  ({} : Prelude).provideStatic "o" (.object [⟨"c", cellOf .code (cellOf .code .number)⟩])
    (.object 0 [("c", .signal 1)])

/-- The two cells. -/
def twoCells : Signal.Graph Payload Step Choice :=
  ((Signal.Graph.cell {} (.ok (.plain (.number 1)))).2.cell (.ok (.plain (.signal 0)))).2

/-- `const x: () => null = () => null` and then three bindings that use each other:
    `const y: Array<() => null> = [x, () => w()]`, `const x: () => null = () => [y] && null` and
    `const w: () => null = () => x()`. -/
def boundTwice : Document where
  tree := ⟨#[⟨default, .null⟩, ⟨default, .arrow [] 0⟩,
    ⟨default, .constBinding "x" (some (.function [] .null)) 1 false⟩,
    ⟨default, .identifier "x"⟩, ⟨default, .identifier "w"⟩, ⟨default, .call 4 []⟩,
    ⟨default, .arrow [] 5⟩, ⟨default, .array [3, 6]⟩,
    ⟨default, .constBinding "y" (some (.array (.function [] .null))) 7 false⟩,
    ⟨default, .identifier "y"⟩, ⟨default, .array [9]⟩, ⟨default, .null⟩,
    ⟨default, .logical .and 10 11⟩, ⟨default, .arrow [] 12⟩,
    ⟨default, .constBinding "x" (some (.function [] .null)) 13 false⟩,
    ⟨default, .identifier "x"⟩, ⟨default, .call 15 []⟩, ⟨default, .arrow [] 16⟩,
    ⟨default, .constBinding "w" (some (.function [] .null)) 17 false⟩]⟩
  fragments := [2, 8, 14, 18]

/-- A legal group may still call an arrow, capture a name that changes over time, or read another
    binding of one of its names before it is evaluated. -/
theorem legal_readsEarly : ReadsEarly calledEarly {} {} ∧
    ReadsEarly capturedEarly cellInCell twoCells ∧ ReadsEarly boundTwice {} {} :=
  -- The kernel does not compute how the conditional of the first document narrows.
  ⟨⟨_, _, (show _ = Except.ok (_, none) by cbv), rfl, rfl, by decide, rfl⟩,
    .of_computed (by decide +kernel), .of_computed (by decide +kernel)⟩

end ReactiveDoc
