import Mathlib.Data.List.Forall2
import ReactiveDoc.Proofs.Env
import ReactiveDoc.Proofs.Traversal

namespace ReactiveDoc.Env

/-!
# Environments in shared frames

Environments are kept as chains of frames, each of which knows the one around it, so that many
environments share the frames that they have in common.

* `mem_visible`, `pairwise_visible`, `names_map` — the visible bindings are those that a name stands
  for, innermost first, and an image has the same names in the same order.
* `Frame`, `getAt`, `listAt`, `Operation.runAt` — environments as places in one list of frames, and
  what is read and made there, by walking from frame to frame.
* `Lies`, `Lies.reads` — the frames from a place outwards are those of an environment, and reading
  them gives what the environment says.
* `Operation.lies_runAt`, `lies_share` — an operation makes the environment that it should and adds
  frames only, and so does a run of them.
* `environments_persist` — lookup, listing, images and persistence together.
-/

variable {α β : Type}

/-! ### Visible bindings in order -/

/-- The number of frames that are passed on the way to the innermost binding of a name. -/
def depth (env : Env α) (name : String) : Nat := env.frames.findIdx fun f => f.1 == name

theorem mem_firstOfEach {frames : List (String × α)} {b : String × α} :
    b ∈ firstOfEach frames ↔ frames.find? (fun f => f.1 == b.1) = some b := by
  induction frames with
  | nil => simp [firstOfEach]
  | cons f fs ih =>
    rw [firstOfEach, List.mem_cons, List.mem_filter, ih]
    by_cases h : f.1 = b.1
    · rw [List.find?_cons_of_pos (by simpa using h)]
      simp [h, eq_comm]
    · have hne : b ≠ f := fun heq => h (congrArg Prod.fst heq.symm)
      rw [List.find?_cons_of_neg (by simpa using h)]
      simp [hne, Ne.symm h]

/-- A name is listed with the value that it stands for. -/
theorem mem_visible {env : Env α} {name : String} {value : α} :
    (name, value) ∈ env.visible ↔ env.get? name = some value := by
  rw [visible, mem_firstOfEach, get?, Option.map_eq_some_iff]
  constructor
  · intro h
    exact ⟨_, h, rfl⟩
  · rintro ⟨b, hb, rfl⟩
    obtain rfl : b.1 = name := by simpa using List.find?_some hb
    exact hb

/-- Bindings further in are listed before those further out. -/
theorem pairwise_visible (env : Env α) :
    env.visible.Pairwise fun x y => env.depth x.1 < env.depth y.1 := by
  unfold visible depth
  induction env.frames with
  | nil => exact .nil
  | cons f fs ih =>
    have hdepth {b : String × α} (hb : b ∈ (firstOfEach fs).filter fun g => g.1 != f.1) :
        (f :: fs).findIdx (fun g => g.1 == b.1) = fs.findIdx (fun g => g.1 == b.1) + 1 := by
      have hne : b.1 ≠ f.1 := by simpa using (List.mem_filter.mp hb).2
      rw [List.findIdx_cons, beq_eq_false_iff_ne.mpr hne.symm]
      rfl
    rw [firstOfEach, List.pairwise_cons]
    constructor
    · intro b hb
      rw [hdepth hb, List.findIdx_cons, beq_self_eq_true]
      exact Nat.succ_pos _
    · refine (ih.sublist List.filter_sublist).imp_of_mem fun hx hy hlt => ?_
      rw [hdepth hx, hdepth hy]
      exact Nat.succ_lt_succ hlt

/-- Nothing is hidden where no name is bound twice. -/
theorem firstOfEach_eq_self {frames : List (String × α)} (h : (frames.map Prod.fst).Nodup) :
    firstOfEach frames = frames := by
  induction frames with
  | nil => rfl
  | cons f fs ih =>
    rw [List.map_cons, List.nodup_cons] at h
    rw [firstOfEach, ih h.2, List.filter_eq_self.mpr]
    intro g hg
    have hne : g.1 ≠ f.1 := fun heq => h.1 (heq ▸ List.mem_map_of_mem hg)
    simpa using hne

theorem names_map (f : String → α → β) (env : Env α) : (env.map f).names = env.names := by
  have hnames : (env.visible.map fun b => (b.1, f b.1 b.2)).map Prod.fst = env.names := by
    rw [List.map_map]
    rfl
  have hvisible : (env.map f).visible = env.visible.map fun b => (b.1, f b.1 b.2) :=
    firstOfEach_eq_self (hnames ▸ env.names_nodup)
  rw [names, hvisible, hnames]

/-- An image is a new environment into which the images of the values are put from outside in. -/
theorem map_eq_extendAll (f : String → α → β) (env : Env α) :
    env.map f = empty.extendAll (env.visible.map fun b => (b.1, f b.1 b.2)).reverse := by
  have hfold (env : Env β) (bs : List (String × β)) :
      env.extendAll bs.reverse = ⟨bs ++ env.frames⟩ := by
    induction bs with
    | nil => rfl
    | cons b bs ih =>
      rw [List.reverse_cons, extendAll_append, ih]
      rfl
  rw [hfold]
  exact congrArg Env.mk (List.append_nil _).symm

/-! ### Frames -/

/-- A binding, and the place of the frame around it. -/
structure Frame (α : Type) where
  name : String
  value : α
  around : Nat

/-- The bindings from a place outwards.

    Frames are listed from the newest to the oldest.  The place of a frame is the number of frames
    that were there when it had been made, so that the place of no frame is zero. -/
def chain : List (Frame α) → Nat → List (String × α)
  | [], _ => []
  | f :: older, place =>
      if place = older.length + 1 then (f.name, f.value) :: chain older f.around
      else chain older place

/-- What a name stands for at a place. -/
def getAt : List (Frame α) → Nat → String → Option α
  | [], _, _ => none
  | f :: older, place, name =>
      if place = older.length + 1 then
        if f.name = name then some f.value else getAt older f.around name
      else getAt older place name

/-- The bindings that are visible at a place, but for names that were seen on the way to it. -/
def listAt : List (Frame α) → Nat → List String → List (String × α)
  | [], _, _ => []
  | f :: older, place, seen =>
      if place = older.length + 1 then
        if f.name ∈ seen then listAt older f.around seen
        else (f.name, f.value) :: listAt older f.around (f.name :: seen)
      else listAt older place seen

/-- Make a frame inside the one at a place. -/
def extendAt (frames : List (Frame α)) (place : Nat) (name : String) (value : α) :
    List (Frame α) × Nat :=
  (⟨name, value, place⟩ :: frames, frames.length + 1)

/-- Make several frames, each inside the one before it. -/
def extendAllAt (frames : List (Frame α)) (place : Nat) (bindings : List (String × α)) :
    List (Frame α) × Nat :=
  bindings.foldl (fun made b => extendAt made.1 made.2 b.1 b.2) (frames, place)

/-- Make new frames for the images of what is visible at a place. -/
def mapAt (f : String → α → α) (frames : List (Frame α)) (place : Nat) : List (Frame α) × Nat :=
  extendAllAt frames 0 ((listAt frames place []).map fun b => (b.1, f b.1 b.2)).reverse

/-- The frames from a place outwards are those of the environment. -/
structure Lies (frames : List (Frame α)) (place : Nat) (env : Env α) : Prop where
  place_le : place ≤ frames.length
  chain_eq : chain frames place = env.frames

/-- What is read at a place is what the environment says. -/
structure Reads (frames : List (Frame α)) (place : Nat) (env : Env α) : Prop where
  get : ∀ name, getAt frames place name = env.get? name
  list : listAt frames place [] = env.visible

theorem getAt_eq (frames : List (Frame α)) (place : Nat) (name : String) :
    getAt frames place name =
      ((chain frames place).find? fun b => b.1 == name).map Prod.snd := by
  induction frames generalizing place with
  | nil => rfl
  | cons f older ih =>
    rw [getAt, chain]
    split
    · by_cases h : f.name = name
      · rw [if_pos h, List.find?_cons_of_pos (by simpa using h)]
        rfl
      · rw [if_neg h, List.find?_cons_of_neg (by simpa using h)]
        exact ih f.around
    · exact ih place

theorem listAt_eq (frames : List (Frame α)) (place : Nat) (seen : List String) :
    listAt frames place seen =
      (firstOfEach (chain frames place)).filter fun b => b.1 ∉ seen := by
  induction frames generalizing place seen with
  | nil => rfl
  | cons f older ih =>
    rw [listAt, chain]
    split
    · rw [firstOfEach]
      split
      next hseen =>
        -- What is hidden by this frame has been seen as well.
        rw [List.filter_cons_of_neg (by simpa using hseen), ih, List.filter_filter]
        refine List.filter_congr fun b _ => ?_
        by_cases hb : b.1 = f.name
        · simp [hb, hseen]
        · simp [hb]
      next hseen =>
        rw [List.filter_cons_of_pos (by simpa using hseen), ih, List.filter_filter]
        refine congrArg _ (List.filter_congr fun b _ => ?_)
        by_cases hb : b.1 = f.name <;> simp [hb]
    · exact ih place seen

namespace Lies

variable {frames : List (Frame α)} {place : Nat} {env : Env α}

theorem reads (h : Lies frames place env) : Reads frames place env where
  get name := by rw [getAt_eq, h.chain_eq, get?]
  list := by
    rw [listAt_eq, h.chain_eq, visible]
    simp

/-- No frame is the empty environment. -/
theorem outermost (frames : List (Frame α)) : Lies frames 0 empty where
  place_le := Nat.zero_le _
  chain_eq := by
    induction frames with
    | nil => rfl
    | cons f older ih => rw [chain, if_neg (Nat.succ_ne_zero _).symm, ih]

/-- Frames that are made later are not seen from a place. -/
theorem append (h : Lies frames place env) (made : List (Frame α)) :
    Lies (made ++ frames) place env := by
  induction made with
  | nil => exact h
  | cons f made ih =>
    have hle : place ≤ (made ++ frames).length := ih.place_le
    refine ⟨Nat.le_succ_of_le hle, ?_⟩
    rw [List.cons_append, chain, if_neg (by omega), ih.chain_eq]

end Lies

/-- The environment lies in the frames that were made, which were put to those that were there. -/
def Makes (frames : List (Frame α)) (env : Env α) (made : List (Frame α) × Nat) : Prop :=
  Lies made.1 made.2 env ∧ ∃ new, made.1 = new ++ frames

theorem makes_extendAt {frames : List (Frame α)} {place : Nat} {env : Env α}
    (h : Lies frames place env) (name : String) (value : α) :
    Makes frames (env.extend name value) (extendAt frames place name value) := by
  refine ⟨⟨Nat.le_refl _, ?_⟩, [⟨name, value, place⟩], rfl⟩
  rw [extendAt, chain, if_pos rfl, h.chain_eq]
  rfl

theorem makes_extendAllAt {frames : List (Frame α)} {place : Nat} {env : Env α}
    (h : Lies frames place env) (bindings : List (String × α)) :
    Makes frames (env.extendAll bindings) (extendAllAt frames place bindings) := by
  induction bindings generalizing frames place env with
  | nil => exact ⟨h, [], rfl⟩
  | cons b rest ih =>
    obtain ⟨hlies, new, hnew⟩ := makes_extendAt h b.1 b.2
    obtain ⟨hrest, newer, hnewer⟩ := ih hlies
    refine ⟨hrest, newer ++ new, ?_⟩
    rw [List.append_assoc, ← hnew, ← hnewer]
    rfl

theorem makes_mapAt {frames : List (Frame α)} {place : Nat} {env : Env α}
    (h : Lies frames place env) (f : String → α → α) :
    Makes frames (env.map f) (mapAt f frames place) := by
  rw [mapAt, h.reads.list, map_eq_extendAll]
  exact makes_extendAllAt (.outermost frames) _

/-! ### Runs -/

/-- What makes an environment from another one. -/
inductive Operation (α : Type) where
  | extend (name : String) (value : α)
  | extendAll (bindings : List (String × α))
  | map (f : String → α → α)

/-- The environment that an operation makes. -/
def Operation.run (env : Env α) : Operation α → Env α
  | extend name value => env.extend name value
  | extendAll bindings => env.extendAll bindings
  | map f => env.map f

/-- The frames that an operation on a place makes, and the new place. -/
def Operation.runAt (frames : List (Frame α)) (place : Nat) : Operation α → List (Frame α) × Nat
  | extend name value => extendAt frames place name value
  | extendAll bindings => extendAllAt frames place bindings
  | map f => mapAt f frames place

/-- An operation makes the environment that it should, and adds frames only. -/
theorem Operation.makes_runAt {frames : List (Frame α)} {place : Nat} {env : Env α}
    (h : Lies frames place env) (op : Operation α) :
    Makes frames (op.run env) (op.runAt frames place) := by
  cases op with
  | extend name value => exact makes_extendAt h name value
  | extendAll bindings => exact makes_extendAllAt h bindings
  | map f => exact makes_mapAt h f

/-- An operation, and which of the environments so far it is on. -/
structure Request (α : Type) where
  on : Nat
  operation : Operation α

/-- The environments so far with the one that is asked for. -/
def answer (envs : List (Env α)) (r : Request α) : List (Env α) :=
  envs ++ [r.operation.run (envs.getD r.on empty)]

/-- The environments that a run of requests makes, of which the first is empty. -/
def environments (requests : List (Request α)) : List (Env α) := requests.foldl answer [empty]

/-- Frames, and the places of the environments so far in them. -/
structure Shared (α : Type) where
  frames : List (Frame α) := []
  places : List Nat := [0]

/-- The frames and places after one more request. -/
def Shared.answer (s : Shared α) (r : Request α) : Shared α :=
  let made := r.operation.runAt s.frames (s.places.getD r.on 0)
  ⟨made.1, s.places ++ [made.2]⟩

/-- The frames and places after a run of requests. -/
def share (requests : List (Request α)) : Shared α := requests.foldl Shared.answer {}

/-- All the environments lie in the frames, each at its place. -/
def Shared.Holds (s : Shared α) (envs : List (Env α)) : Prop :=
  List.Forall₂ (fun env place => Lies s.frames place env) envs s.places

theorem Shared.Holds.getD {s : Shared α} {envs : List (Env α)} (h : s.Holds envs) (k : Nat) :
    Lies s.frames (s.places.getD k 0) (envs.getD k empty) := by
  rw [List.getD_eq_getElem?_getD, List.getD_eq_getElem?_getD]
  cases henv : envs[k]? with
  | none =>
    have hplace : s.places[k]? = none :=
      List.getElem?_eq_none (h.length_eq ▸ List.getElem?_eq_none_iff.mp henv)
    rw [hplace]
    exact .outermost s.frames
  | some env =>
    obtain ⟨place, hplace, hlies⟩ := getElem?_of_forall₂ h henv
    rw [hplace]
    exact hlies

/-- After one more request all the earlier environments lie where they did. -/
theorem Shared.Holds.answer {s : Shared α} {envs : List (Env α)} (h : s.Holds envs)
    (r : Request α) : (s.answer r).Holds (Env.answer envs r) := by
  obtain ⟨hnew, new, hframes⟩ := r.operation.makes_runAt (h.getD r.on)
  have hold : List.Forall₂ (fun env place => Lies (s.answer r).frames place env) envs s.places := by
    refine forall₂_mono h fun env _ place hlies => ?_
    have := hlies.append new
    rwa [← hframes] at this
  exact List.rel_append hold (.cons hnew .nil)

theorem Shared.Holds.run {s : Shared α} {envs : List (Env α)} (h : s.Holds envs)
    (requests : List (Request α)) :
    (requests.foldl Shared.answer s).Holds (requests.foldl Env.answer envs) := by
  induction requests generalizing s envs with
  | nil => exact h
  | cons r rest ih => exact ih (h.answer r)

theorem holds_share (requests : List (Request α)) :
    (share requests).Holds (environments requests) := by
  have h : Shared.Holds {} [(empty : Env α)] := .cons (.outermost []) .nil
  exact h.run requests

theorem prefix_foldl_answer (envs : List (Env α)) (requests : List (Request α)) :
    envs <+: requests.foldl answer envs := by
  induction requests generalizing envs with
  | nil => exact List.prefix_rfl
  | cons r rest ih => exact (List.prefix_append envs _).trans (ih (answer envs r))

theorem Shared.places_prefix (s : Shared α) (requests : List (Request α)) :
    s.places <+: (requests.foldl Shared.answer s).places := by
  induction requests generalizing s with
  | nil => exact List.prefix_rfl
  | cons r rest ih => exact (List.prefix_append s.places _).trans (ih (s.answer r))

theorem getElem?_of_prefix {xs ys : List β} (h : xs <+: ys) {k : Nat} {x : β}
    (hx : xs[k]? = some x) : ys[k]? = some x := by
  obtain ⟨more, rfl⟩ := h
  rw [List.getElem?_append_left (List.getElem?_eq_some_iff.mp hx).1, hx]

/-- In an environment that a run of extensions and images makes, each visible name is listed once,
    with the value that it stands for and innermost first.  An image has the same names in the same
    order, and they stand for the images of the values.  Where all environments share their frames
    the environment is found there, and after any further requests it is found at the same place and
    reads as before. -/
theorem environments_persist (requests later : List (Request α)) (f : String → α → β) {k : Nat}
    {env : Env α} (h : (environments requests)[k]? = some env) :
    (env.names.Nodup ∧
      (∀ name value, (name, value) ∈ env.visible ↔ env.get? name = some value) ∧
      env.visible.Pairwise fun x y => env.depth x.1 < env.depth y.1) ∧
    ((env.map f).names = env.names ∧
      ∀ name w, (env.map f).get? name = some w ↔ ∃ value, env.get? name = some value ∧ f name value = w) ∧
    (environments (requests ++ later))[k]? = some env ∧
    ∃ place, (share requests).places[k]? = some place ∧
      Reads (share requests).frames place env ∧
      (share (requests ++ later)).places[k]? = some place ∧
      Reads (share (requests ++ later)).frames place env := by
  -- Further requests append environments and places, and change none.
  have henvs : environments requests <+: environments (requests ++ later) := by
    rw [environments, environments, List.foldl_append]
    exact prefix_foldl_answer _ later
  have hplaces : (share requests).places <+: (share (requests ++ later)).places := by
    rw [share, share, List.foldl_append]
    exact Shared.places_prefix _ later
  obtain ⟨place, hplace, hlies⟩ := getElem?_of_forall₂ (holds_share requests) h
  have hlater : (environments (requests ++ later))[k]? = some env := getElem?_of_prefix henvs h
  have hplace' : (share (requests ++ later)).places[k]? = some place :=
    getElem?_of_prefix hplaces hplace
  obtain ⟨place', hsame, hlies'⟩ := getElem?_of_forall₂ (holds_share (requests ++ later)) hlater
  obtain rfl : place = place' := Option.some.inj (hplace'.symm.trans hsame)
  refine ⟨⟨env.names_nodup, fun _ _ => mem_visible, env.pairwise_visible⟩,
    ⟨names_map f env, fun name w => ?_⟩, hlater, place, hplace, hlies.reads, hplace', hlies'.reads⟩
  rw [get?_map, Option.map_eq_some_iff]

/-- The requests of a base environment, a child that hides a name of it, and the child doubled. -/
def shadowing : List (Request Nat) :=
  [⟨0, .extend "a" 1⟩, ⟨1, .extendAll [("b", 2), ("a", 3)]⟩, ⟨2, .map fun _ n => 2 * n⟩]

theorem environments_persist_shadowing :
    (environments shadowing)[2]? = some ⟨[("a", 3), ("b", 2), ("a", 1)]⟩ ∧
      ∃ place, (share shadowing).places[2]? = some place ∧
        getAt (share (shadowing ++ [⟨2, .extend "b" 9⟩])).frames place "b" = some 2 := by
  have h : (environments shadowing)[2]? = some ⟨[("a", 3), ("b", 2), ("a", 1)]⟩ := rfl
  obtain ⟨-, -, -, place, hplace, -, -, hreads⟩ :=
    environments_persist shadowing [⟨2, .extend "b" 9⟩] (fun _ n => 2 * n) h
  exact ⟨h, place, hplace, hreads.get "b"⟩

end ReactiveDoc.Env
