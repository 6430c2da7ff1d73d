import ReactiveDoc.Document.Group
import ReactiveDoc.Proofs.Syntax.Free

namespace ReactiveDoc

/-!
# Which definition a use reads

* `Chosen` — the definition that a use reads, of those that define its name.
* `resolveDefinition?_eq_some_iff` — that is the one that `resolveDefinition?` answers.
* `Defines`, `UsedBy` — what the fragments of a document define, and who reads it.
* `mem_uses_iff` — `uses` lists exactly these.
-/

/-! ### One definition of several -/

/-- The definition that a use in the fragment `user` reads, of the fragments with `defines`. -/
inductive Chosen (defines : Nat → Prop) (user : Nat) : Nat → Prop
  /-- The fragment's own. -/
  | own (h : defines user) : Chosen defines user user
  /-- The nearest one before it. -/
  | before {d : Nat} (hown : ¬ defines user) (h : defines d) (hlt : d < user)
      (hnearest : ∀ e, defines e → e < user → e ≤ d) : Chosen defines user d
  /-- The first one after it, if there is none before it. -/
  | after {d : Nat} (h : defines d) (hlt : user < d) (hfirst : ∀ e, defines e → d ≤ e) :
      Chosen defines user d

namespace Chosen

variable {P Q : Nat → Prop} {user d e : Nat}

theorem defines (h : Chosen P user d) : P d := by
  cases h <;> assumption

theorem congr (hPQ : ∀ x, P x ↔ Q x) (h : Chosen P user d) : Chosen Q user d := by
  obtain rfl : P = Q := funext fun x => propext (hPQ x)
  exact h

/-- Only one definition is chosen. -/
theorem unique (hd : Chosen P user d) (he : Chosen P user e) : d = e := by
  cases hd with
  | own h =>
    cases he with
    | own _ => rfl
    | before hown _ _ _ => exact absurd h hown
    | after _ hlt hfirst => have := hfirst _ h; omega
  | before hown h hlt hnearest =>
    cases he with
    | own h' => exact absurd h' hown
    | before _ h' hlt' hnearest' =>
      have := hnearest _ h' hlt'
      have := hnearest' _ h hlt
      omega
    | after _ hlt' hfirst => have := hfirst _ h; omega
  | after h hlt hfirst =>
    cases he with
    | own h' => have := hfirst _ h'; omega
    | before _ h' hlt' _ => have := hfirst _ h'; omega
    | after h' _ hfirst' =>
      have := hfirst _ h'
      have := hfirst' _ h
      omega

end Chosen

/-- In ascending order the last of the smaller members is the greatest of them. -/
theorem getLast?_filter_eq_some {defs : List Nat} (hsorted : defs.Pairwise (· < ·)) {user d : Nat}
    (h : (defs.filter (· < user)).getLast? = some d) :
    d ∈ defs ∧ d < user ∧ ∀ e ∈ defs, e < user → e ≤ d := by
  obtain ⟨front, hfront⟩ := List.getLast?_eq_some_iff.mp h
  have hmem : ∀ e, e ∈ front ++ [d] ↔ e ∈ defs ∧ e < user := fun e => by
    rw [← hfront, List.mem_filter, decide_eq_true_iff]
  obtain ⟨hd, hlt⟩ := (hmem d).mp (by simp)
  refine ⟨hd, hlt, fun e he helt => ?_⟩
  have hpairs : (front ++ [d]).Pairwise (· < ·) := hfront ▸ hsorted.filter _
  rcases List.mem_append.mp ((hmem e).mpr ⟨he, helt⟩) with hef | hed
  · exact Nat.le_of_lt ((List.pairwise_append.mp hpairs).2.2 e hef d (by simp))
  · exact Nat.le_of_eq (List.mem_singleton.mp hed)

/-- In ascending order the first of the greater members is the least of them. -/
theorem find?_eq_some {defs : List Nat} (hsorted : defs.Pairwise (· < ·)) {user d : Nat}
    (h : defs.find? (user < ·) = some d) :
    d ∈ defs ∧ user < d ∧ ∀ e ∈ defs, user < e → d ≤ e := by
  obtain ⟨hlt, front, rest, rfl, hfront⟩ := List.find?_eq_some_iff_append.mp h
  refine ⟨by simp, by simpa using hlt, fun e he helt => ?_⟩
  rcases List.mem_append.mp he with hef | her
  · exact absurd helt (by simpa using hfront e hef)
  · rcases List.mem_cons.mp her with rfl | her
    · exact Nat.le_refl _
    · have htail := (List.pairwise_append.mp hsorted).2.1
      exact Nat.le_of_lt ((List.pairwise_cons.mp htail).1 e her)

theorem chosen_of_resolveDefinition? {defs : List Nat} (hsorted : defs.Pairwise (· < ·))
    {user d : Nat} (h : resolveDefinition? defs user = some d) : Chosen (· ∈ defs) user d := by
  unfold resolveDefinition? at h
  split at h
  · rename_i hown
    cases h
    exact .own (List.contains_iff_mem.mp hown)
  · rename_i hown
    have hown : user ∉ defs := fun hmem => hown (List.contains_iff_mem.mpr hmem)
    cases hlast : (defs.filter (· < user)).getLast? with
    | some last =>
      rw [hlast] at h
      cases h
      obtain ⟨hd, hlt, hnearest⟩ := getLast?_filter_eq_some hsorted hlast
      exact .before hown hd hlt hnearest
    | none =>
      rw [hlast] at h
      obtain ⟨hd, hlt, hleast⟩ := find?_eq_some hsorted h
      have hnone : defs.filter (· < user) = [] := List.getLast?_eq_none_iff.mp hlast
      refine .after hd hlt fun e he => ?_
      have hge : ¬ e < user := by
        simpa using List.filter_eq_nil_iff.mp hnone e he
      have hne : e ≠ user := fun heq => hown (heq ▸ he)
      exact hleast e he (by omega)

/-- A name that some fragment defines has a chosen definition. -/
theorem isSome_resolveDefinition? {defs : List Nat} {user d : Nat} (hd : d ∈ defs) :
    (resolveDefinition? defs user).isSome := by
  unfold resolveDefinition?
  split
  · rfl
  · rename_i hown
    cases hlast : (defs.filter (· < user)).getLast? with
    | some last => rfl
    | none =>
      have hnone : defs.filter (· < user) = [] := List.getLast?_eq_none_iff.mp hlast
      have hge : ¬ d < user := by simpa using List.filter_eq_nil_iff.mp hnone d hd
      have hne : d ≠ user := fun heq => hown (List.contains_iff_mem.mpr (heq ▸ hd))
      exact List.find?_isSome.mpr ⟨d, hd, by simp only [decide_eq_true_eq]; omega⟩

/-- Among definitions in ascending order the chosen one is answered. -/
theorem resolveDefinition?_eq_some_iff {defs : List Nat} (hsorted : defs.Pairwise (· < ·))
    {user d : Nat} : resolveDefinition? defs user = some d ↔ Chosen (· ∈ defs) user d := by
  refine ⟨chosen_of_resolveDefinition? hsorted, fun h => ?_⟩
  obtain ⟨e, he⟩ : ∃ e, resolveDefinition? defs user = some e :=
    Option.isSome_iff_exists.mp (isSome_resolveDefinition? h.defines)
  rw [he, (chosen_of_resolveDefinition? hsorted he).unique h]

/-! ### What fragments define and use -/

/-- The fragment at a position defines a name. -/
def Defines (t : Tree) (fragments : List NodeId) (name : String) (position : Nat) : Prop :=
  ∃ node kind, fragments[position]? = some node ∧ t.kind node = .ok kind ∧
    name ∈ kind.definedNames

/-- The fragment `user` uses a name freely; inside an arrow only if the use is `deferred`. -/
def Mentions (t : Tree) (fragments : List NodeId) (user : Nat) (name : String)
    (deferred : Bool) : Prop :=
  ∃ node, fragments[user]? = some node ∧ t.FreeUse name node deferred

/-- A use in the fragment `user` reads the fragment `definition`. -/
def UsedBy (t : Tree) (fragments : List NodeId) (definition user : Nat) (deferred : Bool) : Prop :=
  ∃ name, Mentions t fragments user name deferred ∧ Chosen (Defines t fragments name) user definition

/-- The fragments whose forms define a name. -/
theorem mem_definitionsOf {kinds : List NodeKind} {name : String} {position : Nat} :
    position ∈ definitionsOf kinds name ↔
      ∃ kind, kinds[position]? = some kind ∧ name ∈ kind.definedNames := by
  unfold definitionsOf
  rw [List.mem_filterMap]
  constructor
  · rintro ⟨⟨kind, i⟩, hi, h⟩
    simp only [List.contains_iff_mem, Option.ite_none_right_eq_some, Option.some.injEq] at h
    obtain ⟨hname, rfl⟩ := h
    exact ⟨kind, List.mem_zipIdx_iff_getElem?.mp hi, hname⟩
  · rintro ⟨kind, hkind, hname⟩
    refine ⟨(kind, position), List.mem_zipIdx_iff_getElem?.mpr hkind, ?_⟩
    simp only [List.contains_iff_mem, hname, ↓reduceIte]

theorem definitionsOf_pairwise (kinds : List NodeKind) (name : String) :
    (definitionsOf kinds name).Pairwise (· < ·) := by
  unfold definitionsOf
  have hsorted : (kinds.zipIdx.map Prod.snd).Pairwise (· < ·) := by
    rw [List.zipIdx_map_snd]
    exact List.pairwise_lt_range'
  refine List.pairwise_filterMap.mpr ((List.pairwise_map.mp hsorted).imp fun hlt d hd e he => ?_)
  simp only [Option.ite_none_right_eq_some, Option.some.injEq] at hd he
  obtain ⟨-, rfl⟩ := hd
  obtain ⟨-, rfl⟩ := he
  exact hlt

section

variable {t : Tree} {fragments : List NodeId} {kinds : List NodeKind}

/-- The forms of the fragments, where all nodes exist. -/
theorem mem_definitionsOf_fragmentKinds (h : fragmentKinds t fragments = .ok kinds) {name : String}
    {position : Nat} : position ∈ definitionsOf kinds name ↔ Defines t fragments name position := by
  rw [mem_definitionsOf]
  constructor
  · rintro ⟨kind, hkind, hname⟩
    obtain ⟨node, hnode, hok⟩ := (getElem?_of_mapM_ok h).mp hkind
    exact ⟨node, kind, hnode, hok, hname⟩
  · rintro ⟨node, kind, hnode, hok, hname⟩
    exact ⟨kind, (getElem?_of_mapM_ok h).mpr ⟨node, hnode, hok⟩, hname⟩

theorem mem_usesBy {user : Nat} {references : List Reference} {u : Use} :
    u ∈ usesBy kinds user references ↔
      u.user = user ∧ ∃ reference ∈ references, reference.deferred = u.deferred ∧
        resolveDefinition? (definitionsOf kinds reference.name) user = some u.definition := by
  unfold usesBy
  simp only [List.mem_filterMap, Option.map_eq_some_iff]
  constructor
  · rintro ⟨reference, hmem, d, hd, rfl⟩
    exact ⟨rfl, reference, hmem, rfl, hd⟩
  · rintro ⟨rfl, reference, hmem, hdeferred, hd⟩
    exact ⟨reference, hmem, u.definition, hd, by rw [hdeferred]⟩

/-- `uses` finds every use of a fragment, and nothing else. -/
theorem mem_uses_iff {us : List Use} (h : uses t fragments = .ok us) {d user : Nat}
    {deferred : Bool} : ⟨d, user, deferred⟩ ∈ us ↔ UsedBy t fragments d user deferred := by
  obtain ⟨kinds, hkinds, h⟩ := Except.bind_eq_ok_iff.mp h
  obtain ⟨found, hfound, h⟩ := Except.bind_eq_ok_iff.mp h
  cases h
  have hdefines (name : String) (e : Nat) :
      e ∈ definitionsOf kinds name ↔ Defines t fragments name e :=
    mem_definitionsOf_fragmentKinds hkinds
  have hchosen (name : String) : resolveDefinition? (definitionsOf kinds name) user = some d ↔
      Chosen (Defines t fragments name) user d := by
    rw [resolveDefinition?_eq_some_iff (definitionsOf_pairwise kinds name)]
    exact ⟨.congr (hdefines name), .congr fun e => (hdefines name e).symm⟩
  simp only [List.mem_flatMap, Prod.exists, List.mem_zipIdx_iff_getElem?, mem_usesBy]
  constructor
  · rintro ⟨references, _, hget, rfl, reference, hmem, hdeferred, hd⟩
    obtain ⟨node, hnode, hok⟩ := (getElem?_of_mapM_ok hfound).mp hget
    exact ⟨reference.name,
      ⟨node, hnode, (Tree.exists_deferred_iff hok).mp ⟨reference, hmem, rfl, hdeferred⟩⟩,
      (hchosen reference.name).mp hd⟩
  · rintro ⟨name, ⟨node, hnode, hfree⟩, hd⟩
    have hnodeMem := List.mem_of_getElem? hnode
    obtain ⟨references, -, hok⟩ := exists_right_of_mem (mapM_eq_ok_iff.mp hfound) hnodeMem
    obtain ⟨reference, hmem, rfl, hdeferred⟩ := (Tree.exists_deferred_iff hok).mpr hfree
    exact ⟨references, user, (getElem?_of_mapM_ok hfound).mpr ⟨node, hnode, hok⟩, rfl, reference,
      hmem, hdeferred, (hchosen reference.name).mpr hd⟩

/-- Uses are between fragments of the document. -/
theorem UsedBy.lt_length {d user : Nat} {deferred : Bool} (h : UsedBy t fragments d user deferred) :
    d < fragments.length ∧ user < fragments.length := by
  obtain ⟨name, ⟨_, huser, _⟩, hchosen⟩ := h
  obtain ⟨_, _, hd, _⟩ := hchosen.defines
  exact ⟨(List.getElem?_eq_some_iff.mp hd).1, (List.getElem?_eq_some_iff.mp huser).1⟩

end

end ReactiveDoc
