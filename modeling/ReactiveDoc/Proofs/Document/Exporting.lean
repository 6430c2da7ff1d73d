import Mathlib
import ReactiveDoc.Document.Running
import ReactiveDoc.Proofs.Document.Grouping
import ReactiveDoc.Proofs.Keyed

namespace ReactiveDoc

/-!
# The types and the values of exports

The type of a document lists the exports in the order of the document, where an import takes the
first one of its name.  The values are put into a table, where the last one of a name stays.

* `Exports` — the fragment at a position exports a name.
* `TypedBy`, `ValuedBy` — the typing and the value that an import gets are those of a fragment.
* `exports_sources` — the first export of a name gives the typing and the last one the value, which
  is the same fragment where each name is exported once.
-/

open Check Eval

/-! ### What completed evaluations have done -/

namespace Eval

variable {σ α β : Type} {x : EvalM σ α} {Q : α → Prop} {R : β → Prop}

/-- Whatever it starts from, the evaluation ends with such a value if it ends with one. -/
def Delivers (x : EvalM σ α) (Q : α → Prop) : Prop := ∀ w a w', x.run w = .ok (.ok a, w') → Q a

theorem delivers_pure {a : α} (h : Q a) : Delivers (pure a : EvalM σ α) Q := by
  intro w a' w' hrun
  cases hrun
  exact h

theorem delivers_trivial (x : EvalM σ α) : Delivers x fun _ => True := fun _ _ _ _ => trivial

theorem Delivers.bind {f : α → EvalM σ β} (h : Delivers x Q) (hf : ∀ a, Q a → Delivers (f a) R) :
    Delivers (x >>= f) R := by
  intro w b w'' hrun
  obtain ⟨⟨result, w'⟩, hx, hrest⟩ := Except.bind_eq_ok_iff.mp hrun
  cases result with
  | ok a => exact hf a (h w a w' hx) w' b w'' hrest
  | error e => cases hrest

theorem Delivers.mono {Q' : α → Prop} (h : Delivers x Q) (hQ : ∀ a, Q a → Q' a) : Delivers x Q' :=
  fun w a w' hrun => hQ a (h w a w' hrun)

theorem delivers_lookUp (y : Except Fault α) : Delivers (lookUp y : EvalM σ α) fun a => y = .ok a := by
  intro w a w' hrun
  cases y with
  | ok a' =>
    cases hrun
    rfl
  | error fault => cases hrun

/-- Several steps: each of them leaves the invariant, and its own mark. -/
theorem delivers_foldlM {f : β → α → EvalM σ β} {invariant : β → Prop} {mark : α → Prop}
    {as : List α} (hstep : ∀ a ∈ as, ∀ b, invariant b → Delivers (f b a) fun b' => invariant b' ∧ mark a)
    {b : β} (hb : invariant b) :
    Delivers (as.foldlM f b) fun b' => invariant b' ∧ ∀ a ∈ as, mark a := by
  induction as generalizing b with
  | nil => exact delivers_pure ⟨hb, fun _ h => by cases h⟩
  | cons a rest ih =>
    rw [List.foldlM_cons]
    refine (hstep a List.mem_cons_self b hb).bind fun b' hb' => ?_
    refine (ih (fun a' ha' => hstep a' (List.mem_cons_of_mem a ha')) hb'.1).mono fun b'' hb'' => ?_
    exact ⟨hb''.1, List.forall_mem_cons.mpr ⟨hb'.2, hb''.2⟩⟩

/-- Only a node that was checked is evaluated. -/
theorem delivers_evaluateStatement (r : Rules σ) (p : Program) (modules : ModuleValues) (node : NodeId)
    (env : ValueEnv) :
    Delivers (evaluateStatement r p modules node env) fun _ => (p.interfaces.get? node).isSome := by
  have hrequire : Delivers (require p node : EvalM σ Interface)
      fun _ => (p.interfaces.get? node).isSome := by
    intro w a w' hrun
    unfold require InterfaceMap.require at hrun
    cases hget : p.interfaces.get? node with
    | some interface => rfl
    | none =>
      rw [hget] at hrun
      cases hrun
  unfold evaluateStatement
  refine hrequire.bind fun interface hinterface => ?_
  exact (delivers_trivial _).mono fun _ _ => hinterface

end Eval

/-! ### Documents -/

/-- The fragment at a position exports a name. -/
def Exports (d : Document) (name : String) (position : Nat) : Prop :=
  ∃ node kind, d.fragments[position]? = some node ∧ d.tree.kind node = .ok kind ∧
    kind.exportedName? = some name

/-- An import of the name gets the typing of the fragment. -/
def TypedBy (d : Document) (c : CheckedDocument) (name : String) (position : Nat) : Prop :=
  ∃ node kind interface field, d.fragments[position]? = some node ∧ d.tree.kind node = .ok kind ∧
    c.interfaces.get? node = some interface ∧ Compiler.exportOf? kind interface = some field ∧
    field.name = name ∧ importTyping? c.exports name = importTyping? (.module [field]) name

/-- An import of the name gets the value of the fragment. -/
def ValuedBy (e : EvaluatedDocument) (name : String) (position : Nat) : Prop :=
  ∃ v, e.values[position]? = some v ∧ e.exports.lookup name = some v

variable {d : Document} {c : Compiler} {checked : CheckedDocument} {m : InterfaceMap}
  {cache? cache?' : Option FragmentCache} {name : String} {p : Nat}

/-- An exported binding with an interface has a field, of its name. -/
theorem exportOf?_name (kind : NodeKind) (interface : Interface) :
    (Compiler.exportOf? kind interface).map Export.name = kind.exportedName? := by
  cases kind with
  | constBinding name written? value exported => cases exported <;> cases interface <;> rfl
  | letBinding name written? value mutability exported =>
    cases exported <;> cases interface <;> rfl
  | _ => cases interface <;> rfl

/-- What a check leaves in its groups and its type. -/
theorem exports_of_check (h : c.check d cache? = .ok (checked, cache?')) :
    fragmentGroups d.tree d.fragments = .ok checked.groups ∧
      Compiler.exportType d checked.interfaces = .ok checked.exports := by
  obtain ⟨groups, hgroups, h⟩ := Except.bind_eq_ok_iff.mp h
  obtain ⟨⟨⟨env, cache?''⟩, m⟩, hrun, h⟩ := Except.bind_eq_ok_iff.mp h
  obtain ⟨exports, hexports, h⟩ := Except.bind_eq_ok_iff.mp h
  cases h
  exact ⟨hgroups, hexports⟩

/-! ### Types -/

/-- The slots of the fragments: the field of each that is exported and has an interface. -/
theorem slots_of_exportType {ty : Ty} (h : Compiler.exportType d m = .ok ty) :
    ∃ slots : List (Option (Export Ty)), ty = .module (slots.filterMap id) ∧
      slots.length = d.fragments.length ∧
      ∀ (p : Nat) (slot : Option (Export Ty)), slots[p]? = some slot ↔ ∃ node kind, d.fragments[p]? = some node ∧
        d.tree.kind node = .ok kind ∧ (m.get? node).bind (Compiler.exportOf? kind) = slot := by
  obtain ⟨slots, hslots, h⟩ := Except.bind_eq_ok_iff.mp h
  cases h
  refine ⟨slots, rfl, (length_of_mapM_ok hslots).symm, fun p slot => ?_⟩
  rw [getElem?_of_mapM_ok hslots]
  constructor
  · rintro ⟨node, hnode, h⟩
    obtain ⟨kind, hkind, h⟩ := Except.bind_eq_ok_iff.mp h
    exact ⟨node, kind, hnode, hkind, Except.ok.inj h⟩
  · rintro ⟨node, kind, hnode, hkind, h⟩
    exact ⟨node, hnode, Except.bind_eq_ok_iff.mpr ⟨kind, hkind, congrArg Except.ok h⟩⟩

/-- All fragments have an interface. -/
def AllRecorded (d : Document) (m : InterfaceMap) : Prop :=
  ∀ node ∈ d.fragments, (m.get? node).isSome

theorem slot_name {p : Nat} {node : NodeId} {kind : NodeKind} {slot : Option (Export Ty)}
    (hrecorded : AllRecorded d m) (hnode : d.fragments[p]? = some node)
    (hslot : (m.get? node).bind (Compiler.exportOf? kind) = slot) :
    slot.map Export.name = kind.exportedName? := by
  obtain ⟨interface, hinterface⟩ :=
    Option.isSome_iff_exists.mp (hrecorded node (List.mem_of_getElem? hnode))
  rw [← hslot, hinterface, Option.bind_some]
  exact exportOf?_name kind interface

/-- An import gets the first field of its name. -/
theorem typedBy_of_first (hrecorded : AllRecorded d checked.interfaces)
    (h : Compiler.exportType d checked.interfaces = .ok checked.exports) (hp : Exports d name p)
    (hfirst : ∀ q < p, ¬ Exports d name q) : TypedBy d checked name p := by
  obtain ⟨slots, htype, hlength, hslots⟩ := slots_of_exportType h
  obtain ⟨node, kind, hnode, hkind, hname⟩ := hp
  obtain ⟨interface, hinterface⟩ :=
    Option.isSome_iff_exists.mp (hrecorded node (List.mem_of_getElem? hnode))
  obtain ⟨field, hfield, hfieldName⟩ : ∃ field, Compiler.exportOf? kind interface = some field ∧
      field.name = name := Option.map_eq_some_iff.mp ((exportOf?_name kind interface).trans hname)
  have hslot : slots[p]? = some (some field) :=
    (hslots p _).mpr ⟨node, kind, hnode, hkind, by rw [hinterface, Option.bind_some, hfield]⟩
  have hlt : p < slots.length := (List.getElem?_eq_some_iff.mp hslot).1
  have hfind : (slots.filterMap id).find? (fun e => e.name == name) = some field := by
    rw [List.find?_filterMap]
    have hsome : slots.find? (fun slot => (id slot).any fun e => e.name == name) =
        some (some field) := by
      refine List.find?_eq_some_iff_getElem.mpr ⟨by simp [hfieldName], p, hlt, ?_, fun q hq => ?_⟩
      · exact (List.getElem?_eq_some_iff.mp hslot).2
      · obtain ⟨node', kind', hnode', hkind', hslot'⟩ :=
          (hslots q _).mp (List.getElem?_eq_getElem (hq.trans hlt))
        have hother := slot_name hrecorded hnode' hslot'
        have hne : kind'.exportedName? ≠ some name := fun heq =>
          hfirst q hq ⟨node', kind', hnode', hkind', heq⟩
        rw [← hother] at hne
        cases hq' : slots[q] with
        | none => rfl
        | some e =>
          rw [hq'] at hne
          simpa using fun heq => hne (congrArg some heq)
    rw [hsome]
    rfl
  refine ⟨node, kind, interface, field, hnode, hkind, hinterface, hfield, hfieldName, ?_⟩
  have hone : [field].find? (fun e => e.name == name) = some field := by simp [hfieldName]
  rw [htype]
  unfold importTyping?
  simp only [hfind, hone]

theorem importTyping?_of_none (h : Compiler.exportType d m = .ok checked.exports)
    (hnone : ∀ p, ¬ Exports d name p) : importTyping? checked.exports name = none := by
  obtain ⟨slots, htype, hlength, hslots⟩ := slots_of_exportType h
  rw [htype]
  refine Option.map_eq_none_iff.mpr (List.find?_eq_none.mpr fun e he => ?_)
  obtain ⟨slot, hslot, rfl⟩ := List.mem_filterMap.mp he
  obtain ⟨q, hq⟩ := List.getElem?_of_mem hslot
  obtain ⟨node, kind, hnode, hkind, hbind⟩ := (hslots q _).mp hq
  obtain ⟨interface, hinterface, hfield⟩ := Option.bind_eq_some_iff.mp hbind
  intro heq
  have hname : e.name = name := by simpa using heq
  refine hnone q ⟨node, kind, hnode, hkind, ?_⟩
  rw [← exportOf?_name kind interface, hfield, ← hname]
  rfl

/-- No two fragments export the same name. -/
def ExportsApart (d : Document) : Prop :=
  ∀ name p q, Exports d name p → Exports d name q → p = q

/-- Then the type has no name twice. -/
theorem nodup_names (h : Compiler.exportType d m = .ok checked.exports) (hd : ExportsApart d) :
    ∃ fields, checked.exports = .module fields ∧ (fields.map Export.name).Nodup := by
  obtain ⟨slots, htype, hlength, hslots⟩ := slots_of_exportType h
  refine ⟨_, htype, ?_⟩
  have hexports (p : Nat) (field : Export Ty) (hp : slots[p]? = some (some field)) :
      Exports d field.name p := by
    obtain ⟨node, kind, hnode, hkind, hbind⟩ := (hslots p _).mp hp
    obtain ⟨interface, hinterface, hfield⟩ := Option.bind_eq_some_iff.mp hbind
    exact ⟨node, kind, hnode, hkind, by rw [← exportOf?_name kind interface, hfield]; rfl⟩
  refine List.pairwise_map.mpr (List.pairwise_filterMap.mpr ?_)
  refine List.pairwise_iff_getElem.mpr fun p q hp hq hlt field hfield field' hfield' heq => ?_
  have hleft := hexports p field (by rw [List.getElem?_eq_getElem hp]; exact congrArg some hfield)
  have hright := hexports q field'
    (by rw [List.getElem?_eq_getElem hq]; exact congrArg some hfield')
  rw [← heq] at hright
  exact absurd (hd _ p q hleft hright) (Nat.ne_of_lt hlt)

/-! ### Values -/

theorem names_of_exportValues {values : List Value} {exports : List (String × Value)}
    (h : CheckedDocument.exportValues d values = .ok exports) :
    ∃ names : List (Option String), exports = Keyed.ofEntries ((names.zip values).filterMap
        fun entry => entry.1.map fun name => (name, entry.2)) ∧
      names.length = d.fragments.length ∧
      ∀ (p : Nat) (name : String), names[p]? = some (some name) ↔ Exports d name p := by
  obtain ⟨names, hnames, h⟩ := Except.bind_eq_ok_iff.mp h
  cases h
  refine ⟨names, rfl, (length_of_mapM_ok hnames).symm, fun p name => ?_⟩
  rw [getElem?_of_mapM_ok hnames]
  refine exists_congr fun node => ⟨fun ⟨hnode, h⟩ => ?_, fun ⟨kind, hnode, hkind, hname⟩ => ?_⟩
  · cases hkind : d.tree.kind node with
    | error fault =>
      rw [hkind] at h
      cases h
    | ok kind =>
      rw [hkind] at h
      exact ⟨kind, hnode, rfl, Except.ok.inj h⟩
  · refine ⟨hnode, ?_⟩
    rw [hkind]
    exact congrArg Except.ok hname

/-- An import gets the last value of its name. -/
theorem valuedBy_of_last {e : EvaluatedDocument} (hlength : e.values.length = d.fragments.length)
    (h : CheckedDocument.exportValues d e.values = .ok e.exports) (hp : Exports d name p)
    (hlast : ∀ q > p, ¬ Exports d name q) : ValuedBy e name p := by
  obtain ⟨names, hexports, hnames, hiff⟩ := names_of_exportValues h
  have hname := (hiff p name).mpr hp
  have hlt : p < names.length := (List.getElem?_eq_some_iff.mp hname).1
  have hlt' : p < e.values.length := by omega
  have hzip : p < (names.zip e.values).length := by
    rw [List.length_zip]
    omega
  have hentry : (names.zip e.values)[p] = (some name, e.values[p]) := by
    rw [List.getElem_zip, (List.getElem?_eq_some_iff.mp hname).2]
  refine ⟨e.values[p], List.getElem?_eq_getElem hlt', ?_⟩
  -- The table is made of the entries before the fragment, its own, and those after it.
  rw [hexports, ← List.take_append_drop p (names.zip e.values), List.drop_eq_getElem_cons hzip, hentry,
    List.filterMap_append]
  refine Keyed.lookup_ofEntries_of_last fun entry hmem heq => ?_
  obtain ⟨⟨name?, v⟩, hmem, hsome⟩ := List.mem_filterMap.mp hmem
  obtain ⟨name', rfl, hentry'⟩ := Option.map_eq_some_iff.mp hsome
  obtain ⟨i, hi⟩ := List.getElem?_of_mem hmem
  rw [List.getElem?_drop, List.getElem?_zip_eq_some] at hi
  rw [← hentry'] at heq
  obtain rfl : name' = name := heq
  exact hlast _ (by omega) ((hiff _ name').mp hi.1)

theorem lookup_of_none {e : EvaluatedDocument}
    (h : CheckedDocument.exportValues d e.values = .ok e.exports)
    (hnone : ∀ p, ¬ Exports d name p) : e.exports.lookup name = none := by
  obtain ⟨names, hexports, -, hiff⟩ := names_of_exportValues h
  rw [hexports]
  refine Keyed.lookup_ofEntries_of_none fun entry hmem heq => ?_
  obtain ⟨⟨name?, v⟩, hmem, hsome⟩ := List.mem_filterMap.mp hmem
  obtain ⟨name', rfl, hentry⟩ := Option.map_eq_some_iff.mp hsome
  obtain ⟨i, hi⟩ := List.getElem?_of_mem hmem
  rw [← hentry] at heq
  obtain rfl : name' = name := heq
  exact hnone i ((hiff i name').mp (List.getElem?_zip_eq_some.mp hi).1)

/-! ### Evaluated documents -/

section

variable {σ : Type} {r : Rules σ} {program : Program} {modules : ModuleValues}
  {options : EvalOptions} {prelude : Prelude}

theorem delivers_evaluateMember (progress : CheckedDocument.Progress) (member : Nat × NodeId) :
    Delivers (CheckedDocument.evaluateMember r program modules progress member) fun progress' =>
      progress'.2.length = progress.2.length ∧ (program.interfaces.get? member.2).isSome := by
  unfold CheckedDocument.evaluateMember
  refine (delivers_evaluateStatement r program modules member.2 progress.1).bind fun result h => ?_
  exact delivers_pure ⟨List.length_set .., h⟩

/-- The members of a group were checked, and there are as many values as before. -/
theorem delivers_evaluateGroup (progress : CheckedDocument.Progress) (group : Group) :
    Delivers (CheckedDocument.evaluateGroup r d program modules progress group) fun progress' =>
      progress'.2.length = progress.2.length ∧
        ∀ member ∈ CheckedDocument.membersOf d group,
          (program.interfaces.get? member.2).isSome := by
  have hmembers (start : CheckedDocument.Progress) (hstart : start.2.length = progress.2.length) :
      Delivers ((CheckedDocument.membersOf d group).foldlM
          (CheckedDocument.evaluateMember r program modules) start) fun progress' =>
        progress'.2.length = progress.2.length ∧
          ∀ member ∈ CheckedDocument.membersOf d group,
            (program.interfaces.get? member.2).isSome :=
    delivers_foldlM (fun member _ other hother =>
      (delivers_evaluateMember other member).mono fun _ h => ⟨h.1.trans hother, h.2⟩) hstart
  unfold CheckedDocument.evaluateGroup
  dsimp only
  split
  · refine (delivers_trivial _).bind fun declared _ => ?_
    refine (hmembers (declared.1, progress.2) rfl).bind fun progress' hprogress' => ?_
    exact (delivers_trivial _).bind fun _ _ => delivers_pure hprogress'
  · exact hmembers progress rfl

/-- What an evaluated document is made of. -/
theorem delivers_evaluate (c : CheckedDocument) (d : Document) :
    Delivers (c.evaluate r d options prelude modules) fun evaluated =>
      evaluated.values.length = d.fragments.length ∧
      CheckedDocument.exportValues d evaluated.values = .ok evaluated.exports ∧
      ∀ group ∈ c.groups, ∀ member ∈ CheckedDocument.membersOf d group,
        (c.interfaces.get? member.2).isSome := by
  unfold CheckedDocument.evaluate
  refine Delivers.bind (Q := fun progress => progress.2.length = d.fragments.length ∧
      ∀ group ∈ c.groups, ∀ member ∈ CheckedDocument.membersOf d group,
        (c.interfaces.get? member.2).isSome) ?_ fun progress hprogress => ?_
  · refine delivers_foldlM (fun group _ progress hprogress => ?_) (List.length_replicate ..)
    exact (delivers_evaluateGroup progress group).mono fun _ h => ⟨h.1.trans hprogress, h.2⟩
  · refine (delivers_lookUp _).bind fun exports hexports => ?_
    exact delivers_pure ⟨hprogress.1, hexports, hprogress.2⟩

/-- A fragment is a member of some group. -/
theorem allRecorded_of_members {groups : List Group}
    (hgroups : fragmentGroups d.tree d.fragments = .ok groups)
    (h : ∀ group ∈ groups, ∀ member ∈ CheckedDocument.membersOf d group,
      (m.get? member.2).isSome) : AllRecorded d m := by
  intro node hnode
  obtain ⟨kinds, us, hkinds, hus, rfl⟩ := fragmentGroups_eq_ok_iff.mp hgroups
  have hordered := orderedGroups_of_uses hkinds hus
  obtain ⟨p, hp⟩ := List.getElem?_of_mem hnode
  obtain ⟨group, hgroup, hmem⟩ := List.mem_flatMap.mp (hordered.perm.mem_iff.mpr
    (List.mem_range.mpr (List.getElem?_eq_some_iff.mp hp).1))
  refine h group hgroup (p, node) ?_
  unfold CheckedDocument.membersOf Document.fragment?
  exact List.mem_filterMap.mpr ⟨p, hmem, by rw [hp]; rfl⟩

/-- An import of a name is checked against the first export of the name and gets the value of the
    last one.  They are the same where no two fragments export the same name, and then the type has
    no name twice. -/
theorem exports_sources (hcheck : c.check d cache? = .ok (checked, cache?'))
    {w w' : Signal.World Payload Step Choice σ} {evaluated : EvaluatedDocument}
    (heval : (checked.evaluate r d options prelude modules).run w = .ok (.ok evaluated, w')) :
    (∀ name p, Exports d name p → (∀ q < p, ¬ Exports d name q) → TypedBy d checked name p) ∧
    (∀ name p, Exports d name p → (∀ q > p, ¬ Exports d name q) → ValuedBy evaluated name p) ∧
    (∀ name, (∀ p, ¬ Exports d name p) →
      importTyping? checked.exports name = none ∧ evaluated.exports.lookup name = none) ∧
    (ExportsApart d →
      (∃ fields, checked.exports = .module fields ∧ (fields.map Export.name).Nodup) ∧
      ∀ name p, Exports d name p → TypedBy d checked name p ∧ ValuedBy evaluated name p) := by
  obtain ⟨hgroups, htype⟩ := exports_of_check hcheck
  obtain ⟨hlength, hvalues, hmembers⟩ := delivers_evaluate checked d w evaluated w' heval
  have hrecorded := allRecorded_of_members hgroups hmembers
  refine ⟨fun name p => typedBy_of_first hrecorded htype, fun name p => valuedBy_of_last hlength hvalues,
    fun name hnone => ⟨importTyping?_of_none htype hnone, lookup_of_none hvalues hnone⟩,
    fun hd => ⟨nodup_names htype hd, fun name p hp => ⟨?_, ?_⟩⟩⟩
  · exact typedBy_of_first hrecorded htype hp fun q hq hq' => Nat.ne_of_lt hq (hd name q p hq' hp)
  · exact valuedBy_of_last hlength hvalues hp fun q hq hq' => Nat.ne_of_gt hq (hd name q p hq' hp)

end

/-! ### Exports that meet, and exports that do not -/

/-- A host without functions. -/
def mute : Host Unit where
  native name _ := throwInternal (.unboundName name)

/-- `export const n = 1` and `export const k = "s"` -/
def twoExports : Document where
  tree := ⟨#[⟨default, .literal (.number 1)⟩, ⟨default, .constBinding "n" none 0 true⟩,
    ⟨default, .literal (.string "s")⟩, ⟨default, .constBinding "k" none 2 true⟩]⟩
  fragments := [1, 3]

theorem exports_twoExports (h : Exports twoExports name p) :
    name = "n" ∧ p = 0 ∨ name = "k" ∧ p = 1 := by
  obtain ⟨node, kind, hnode, hkind, hname⟩ := h
  rcases p with _ | _ | p
  · cases hnode
    cases hkind
    cases hname
    exact .inl ⟨rfl, rfl⟩
  · cases hnode
    cases hkind
    cases hname
    exact .inr ⟨rfl, rfl⟩
  · cases hnode

theorem exports_sources_twoExports : ∃ checked evaluated w',
    ({} : Compiler).check twoExports none = .ok (checked, none) ∧
    (checked.evaluate (rules mute 5) twoExports {} {} []).run ⟨{}, 0, ()⟩ = .ok (.ok evaluated, w') ∧
    (∃ fields, checked.exports = .module fields ∧ (fields.map Export.name).Nodup) ∧
    ∀ name p, Exports twoExports name p →
      TypedBy twoExports checked name p ∧ ValuedBy evaluated name p := by
  obtain ⟨checked, evaluated, w', hcheck, heval⟩ : ∃ checked evaluated w',
      ({} : Compiler).check twoExports none = .ok (checked, none) ∧
      (checked.evaluate (rules mute 5) twoExports {} {} []).run ⟨{}, 0, ()⟩ =
        .ok (.ok evaluated, w') :=
    ⟨_, _, _, rfl, rfl⟩
  refine ⟨checked, evaluated, w', hcheck, heval, (exports_sources hcheck heval).2.2.2 ?_⟩
  intro name p q hp hq
  rcases exports_twoExports hp with ⟨rfl, rfl⟩ | ⟨rfl, rfl⟩
  · rcases exports_twoExports hq with ⟨-, rfl⟩ | ⟨heq, -⟩
    · rfl
    · exact absurd heq (by decide)
  · rcases exports_twoExports hq with ⟨heq, -⟩ | ⟨-, rfl⟩
    · exact absurd heq (by decide)
    · rfl

/-- `export const n = 1` and `export const n = "s"` -/
def exportedTwice : Document where
  tree := ⟨#[⟨default, .literal (.number 1)⟩, ⟨default, .constBinding "n" none 0 true⟩,
    ⟨default, .literal (.string "s")⟩, ⟨default, .constBinding "n" none 2 true⟩]⟩
  fragments := [1, 3]

/-- The name is in the type twice.  An import is checked against the number and gets the text. -/
theorem exports_diverge : ∃ checked evaluated w' fields,
    ({} : Compiler).check exportedTwice none = .ok (checked, none) ∧
    (checked.evaluate (rules mute 5) exportedTwice {} {} []).run ⟨{}, 0, ()⟩ =
      .ok (.ok evaluated, w') ∧
    checked.exports = .module fields ∧ fields.map Export.name = ["n", "n"] ∧
    importTyping? checked.exports "n" = some (.fixed (.literal (.number 1))) ∧
    evaluated.exports.lookup "n" = some (.string "s") :=
  ⟨_, _, _, _, rfl, rfl, rfl, rfl, rfl, rfl⟩

end ReactiveDoc
