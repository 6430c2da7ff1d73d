import ReactiveDoc.Proofs.Env
import ReactiveDoc.Proofs.Eval.Regime
import ReactiveDoc.Proofs.Syntax.Free

namespace ReactiveDoc.Eval

/-!
# Code that reads no waiting reference

While bindings that use each other are evaluated, their names stand for references without a
target.  Code may run then if nothing that it reads, and nothing that a function it calls reads,
is such a reference.

* `Settled` — all signals that are in a value satisfy a property, and so do those that its functions
  use when they are called.
* `Calm` — code that calls only what is settled, and reads no waiting reference on the way.
* `settling` — the regime: what is called is settled, and no waiting reference is read.
-/

open Signal (Stage Tier)

/-! ### Settled values -/

/-- All signals in the value satisfy a property, and so do those in the values that its functions
    use, however deep. -/
inductive Settled (R : SignalId → Prop) : Value → Prop
  | intro {v : Value} (hsignals : ∀ id ∈ v.signals, R id)
      (hclosures : ∀ c ∈ v.closures, ∀ name v', c.program.tree.Free name c.body →
        name ∉ c.params → c.env.get? name = some v' → Settled R v') : Settled R v

/-- All values that code uses are settled. -/
def SettledCode (R : SignalId → Prop) (p : Program) (node : NodeId) (env : ValueEnv) : Prop :=
  ∀ name v, p.tree.Free name node → env.get? name = some v → Settled R v

/-- All values that a function uses, its parameters apart, are settled. -/
def SettledFunction (R : SignalId → Prop) (c : Closure) : Prop :=
  ∀ name v, c.program.tree.Free name c.body → name ∉ c.params → c.env.get? name = some v →
    Settled R v

/-- What is captured on the way through the uses was captured before or stands for one of them. -/
theorem mem_foldl_captured {p : Program} {uses : List Reference} {env : ValueEnv} {id : SignalId}
    {captured : List SignalId} (h : id ∈ uses.foldl (fun captured use =>
      match (p.interfaces.get? use.node).any Interface.dynamic, env.get? use.name with
      | true, some (.signal id) => if captured.contains id then captured else captured ++ [id]
      | _, _ => captured) captured) : id ∈ captured ∨ ∃ use ∈ uses,
        (p.interfaces.get? use.node).any Interface.dynamic = true ∧
          env.get? use.name = some (.signal id) := by
  induction uses generalizing captured with
  | nil => exact .inl h
  | cons use uses ih =>
    rcases ih h with h | ⟨use', huse', hget⟩
    · beta_reduce at h
      split at h
      · rename_i id' hdynamic hget
        split at h
        · exact .inl h
        · rcases List.mem_append.mp h with h | h
          · exact .inl h
          · rw [List.mem_singleton.mp h]
            exact .inr ⟨use, List.mem_cons_self, hdynamic, hget⟩
      · exact .inl h
    · exact .inr ⟨use', List.mem_cons_of_mem use huse', hget⟩

/-- A captured signal is what a name stands for that changes over time where it is used. -/
theorem mem_capturedSignals {p : Program} {uses : List Reference} {env : ValueEnv} {id : SignalId}
    (h : id ∈ capturedSignals p uses env) : ∃ use ∈ uses,
      (p.interfaces.get? use.node).any Interface.dynamic = true ∧
        env.get? use.name = some (.signal id) := by
  unfold capturedSignals at h
  exact (mem_foldl_captured h).resolve_left List.not_mem_nil

variable {R R' : SignalId → Prop} {p : Program} {node x : NodeId} {env : ValueEnv} {v : Value}

theorem settled_iff : Settled R v ↔ v.Within R (SettledFunction R) :=
  ⟨fun ⟨hsignals, hclosures⟩ => ⟨hsignals, hclosures⟩, fun h => ⟨h.signals, h.closures⟩⟩

theorem Settled.mono (h : Settled R v) (hR : ∀ id, R id → R' id) : Settled R' v := by
  induction h with
  | intro hsignals _ ih =>
    exact ⟨fun id hid => hR id (hsignals id hid), ih⟩

theorem SettledFunction.mono {c : Closure} (h : SettledFunction R c) (hR : ∀ id, R id → R' id) :
    SettledFunction R' c :=
  fun name v hfree hparam hget => (h name v hfree hparam hget).mono hR

namespace SettledCode

theorem mono (h : SettledCode R p node env) (hR : ∀ id, R id → R' id) :
    SettledCode R' p node env :=
  fun name v hfree hget => (h name v hfree hget).mono hR

/-- What is used below a node is used at it. -/
theorem below (h : SettledCode R p node env)
    (hx : ∀ name, p.tree.Free name x → p.tree.Free name node) : SettledCode R p x env :=
  fun name v hfree hget => h name v (hx name hfree) hget

/-- What an arrow makes uses what the arrow uses. -/
theorem function (h : SettledCode R p node env) {params : List Param} {body : NodeId}
    (hkind : p.tree.kind node = .ok (.arrow params body)) :
    SettledFunction R ⟨p, params.map Param.name, body, env⟩ :=
  fun name v hfree hparam hget => h name v (hfree.body hkind hparam) hget

theorem capturedSignals (h : SettledCode R p node env) {uses : List Reference}
    (huses : p.tree.references node = .ok uses) {id : SignalId}
    (hid : id ∈ capturedSignals p uses env) : R id := by
  obtain ⟨use, huse, -, hget⟩ := mem_capturedSignals hid
  have hfree := (Tree.freeAt_of_mem_referencesWithin huses huse).1
  obtain ⟨hsignals, -⟩ := h use.name _ ⟨use.node, hfree⟩ hget
  exact hsignals id (List.mem_singleton_self id)

end SettledCode

/-- A function that is called with settled values has a settled body. -/
theorem SettledFunction.call {c : Closure} {args : List Value} (hc : SettledFunction R c)
    (hargs : ∀ v ∈ args, Settled R v) :
    SettledCode R c.program c.body (c.env.extendAll (bindParams c.params args)) := by
  intro name v hfree hget
  have hnames : (bindParams c.params args).map Prod.fst = c.params := by
    unfold bindParams
    rw [List.map_map]
    exact List.zipIdx_map_fst 0 c.params
  rcases Env.mem_or_get?_of_extendAll hget with hmem | ⟨hparam, hget⟩
  · obtain ⟨⟨param, i⟩, -, heq⟩ := List.mem_map.mp hmem
    cases heq
    exact settled_iff.mpr (Value.within_getD (fun v hv => settled_iff.mp (hargs v hv)) i)
  · exact hc name v hfree (hnames ▸ hparam) hget

/-! ### Calm code -/

/-- Code that calls functions and writes signals only where all that it uses is settled.  A function
    that it makes captures only signals that may be read. -/
inductive Calm (s : Stage) (p : Program) (env : ValueEnv) : NodeId → Prop
  | settled {x : NodeId} (h : SettledCode (s.Readable .ready) p x env) : Calm s p env x
  | arrow {x body : NodeId} {params : List Param} (hkind : p.tree.kind x = .ok (.arrow params body))
      (hcaptured : ∀ uses, p.tree.references x = .ok uses →
        ∀ id ∈ capturedSignals p uses env, s.Readable .idle id) : Calm s p env x
  | parts {x : NodeId} {kind : NodeKind} (hkind : p.tree.kind x = .ok kind) (hacts : ¬ Acts kind)
      (hname : ∀ name, kind ≠ .identifier name) (harrow : ∀ params body, kind ≠ .arrow params body)
      (h : ∀ child ∈ kind.children, Calm s p env child) : Calm s p env x

variable {s s' : Stage} {kind : NodeKind}

namespace Calm

theorem mono (h : Calm s p env node) (hs : s.Before s') : Calm s' p env node := by
  induction h with
  | settled h => exact .settled (h.mono (hs.readable .ready))
  | arrow hkind hcaptured =>
    exact .arrow hkind fun uses huses id hid => hs.readable .idle id (hcaptured uses huses id hid)
  | parts hkind hacts hname harrow _ ih => exact .parts hkind hacts hname harrow ih

/-- The nodes below are calm as well, unless they are the body of an arrow. -/
theorem child (h : Calm s p env node) (hkind : p.tree.kind node = .ok kind)
    (harrow : ∀ params body, kind ≠ .arrow params body) (hx : x ∈ kind.children) :
    Calm s p env x := by
  cases h with
  | settled h => exact .settled (h.below fun _ => .below hkind harrow hx)
  | arrow hkind' _ => exact absurd (Except.ok.inj (hkind.symm.trans hkind')) (harrow _ _)
  | parts hkind' _ _ _ hparts =>
    obtain rfl := Except.ok.inj (hkind.symm.trans hkind')
    exact hparts x hx

theorem acts (h : Calm s p env node) (hkind : p.tree.kind node = .ok kind) (hacts : Acts kind) :
    SettledCode (s.Readable .ready) p node env := by
  cases h with
  | settled h => exact h
  | arrow hkind' _ =>
    obtain rfl := Except.ok.inj (hkind.symm.trans hkind')
    exact hacts.elim
  | parts hkind' hacts' _ _ _ =>
    obtain rfl := Except.ok.inj (hkind.symm.trans hkind')
    exact absurd hacts hacts'

theorem name {name : String} (h : Calm s p env node)
    (hkind : p.tree.kind node = .ok (.identifier name)) :
    SettledCode (s.Readable .ready) p node env := by
  cases h with
  | settled h => exact h
  | arrow hkind' _ => cases Except.ok.inj (hkind.symm.trans hkind')
  | parts hkind' _ hname _ _ => exact absurd (Except.ok.inj (hkind'.symm.trans hkind)) (hname name)

theorem captured {params : List Param} {body : NodeId} (h : Calm s p env node)
    (hkind : p.tree.kind node = .ok (.arrow params body)) {uses : List Reference}
    (huses : p.tree.references node = .ok uses) :
    ∀ id ∈ capturedSignals p uses env, s.Readable .idle id := by
  cases h with
  | settled h => exact fun id hid => (h.capturedSignals huses hid).idle
  | arrow _ hcaptured => exact hcaptured uses huses
  | parts hkind' _ _ harrow _ =>
    exact absurd (Except.ok.inj (hkind'.symm.trans hkind)) (harrow params body)

end Calm

/-- Code is calm if it mentions certain names in arrows only, calls and assigns nothing that
    mentions them, and captures nothing that such a name stands for.  Other names are settled, and
    of those that are no longer pending what they stand for may be read. -/
theorem calm_of_walk {names pending : String → Prop} {root : NodeId} {bound : List String}
    {deferred : Bool} {fuel : Nat} {uses : List Reference}
    (hsettled : ∀ name v, ¬ names name → env.get? name = some v → Settled (s.Readable .ready) v)
    (hread : ∀ name id, ¬ pending name → env.get? name = some (.signal id) → s.Readable .idle id)
    (hplain : ∀ x name, p.tree.Immediate root x → p.tree.kind x = .ok (.identifier name) →
      ¬ names name)
    (huncalled : ∀ x kind, p.tree.Immediate root x → p.tree.kind x = .ok kind → Acts kind →
      ∀ name, names name → ¬ p.tree.Free name x)
    (hfixed : ∀ name use, p.tree.FreeAt name use root → pending name →
      ¬ (p.interfaces.get? use).any Interface.dynamic)
    (hx : p.tree.Immediate root x)
    (hwalk : p.tree.referencesWithin bound deferred fuel x = .ok uses) : Calm s p env x := by
  induction fuel generalizing bound deferred uses x with
  | zero => cases hwalk
  | succ fuel ih =>
    obtain ⟨kind, hkind, ⟨name, rfl, -⟩ | ⟨params, body, rfl, -⟩ |
      ⟨hname, harrow, parts, hparts, -⟩⟩ := Tree.referencesWithin_cases hwalk
    · refine .settled fun name' v hfree hget => hsettled name' v ?_ hget
      rw [hfree.eq_of_identifier hkind]
      exact hplain x name hx hkind
    · refine .arrow hkind fun uses huses id hid => ?_
      obtain ⟨use, huse, hdynamic, hget⟩ := mem_capturedSignals hid
      have hfree := hx.freeAt (Tree.freeAt_of_mem_referencesWithin huses huse).1
      exact hread use.name id (fun hpending => hfixed _ _ hfree hpending hdynamic) hget
    · by_cases hacts : Acts kind
      · exact .settled fun name v hfree hget =>
          hsettled name v (fun hmem => huncalled x kind hx hkind hacts name hmem hfree) hget
      · refine .parts hkind hacts hname harrow fun child hchild => ?_
        obtain ⟨part, -, hok⟩ := exists_right_of_mem (mapM_eq_ok_iff.mp hparts) hchild
        exact ih (hx.child hkind harrow hchild) hok

/-! ### The regime -/

/-- The signals that functions of a tier may use when they are called.  Idle functions are not
    called, so that they may use any. -/
def Obtainable (s : Stage) : Tier → SignalId → Prop
  | .ready => s.Readable .ready
  | .idle => s.Known

theorem Obtainable.mono {t : Tier} {id : SignalId} (h : Obtainable s t id) (hs : s.Before s') :
    Obtainable s' t id := by
  cases t with
  | ready => exact hs.readable .ready id h
  | idle => exact Nat.lt_of_lt_of_le h hs.known

theorem obtainable_idle {id : SignalId} (h : s.Readable .ready id) : Obtainable s .idle id := h.known

/-- What may be had at a tier uses only what functions of this tier may use. -/
theorem settled_of_within {t : Tier} (h : v.Within (s.Readable t) (SettledFunction (Obtainable s t))) :
    Settled (Obtainable s t) v := by
  refine settled_iff.mpr (h.mono (fun id hid => ?_) fun _ hc => hc)
  cases t with
  | ready => exact hid
  | idle => exact hid.known

/-- The nodes that the evaluation of a node goes on with are below it. -/
theorem below_of_part {kind : NodeKind} {name : String} {t : Tree}
    (hkind : t.kind node = .ok kind) (hx : Part t kind x) (hfree : t.Free name x) :
    t.Free name node := by
  have hproperty {property : NodeId} {key : String}
      (hp : t.kind property = .ok (.property key x)) : t.Free name property :=
    .below hp nofun List.mem_cons_self hfree
  cases kind with
  | arrow params body => exact hx.elim
  | object properties =>
    obtain ⟨property, hmem, key, hp⟩ := hx
    exact .below hkind nofun hmem (hproperty hp)
  | element tag attributes children =>
    rcases hx with ⟨property, hmem, key, hp⟩ | hx
    · exact .below hkind nofun (List.mem_append_left _ hmem) (hproperty hp)
    · exact .below hkind nofun (List.mem_append_right _ hx) hfree
  | assignment target value =>
    obtain rfl : x = value := hx
    exact .below hkind nofun (List.mem_cons_of_mem _ List.mem_cons_self) hfree
  | _ => exact .below hkind nofun hx hfree

theorem Calm.part (h : Calm s p env node) (hkind : p.tree.kind node = .ok kind)
    (hx : Part p.tree kind x) : Calm s p env x := by
  have hproperty {property : NodeId} {key : String} (hcalm : Calm s p env property)
      (hp : p.tree.kind property = .ok (.property key x)) : Calm s p env x :=
    hcalm.child hp nofun List.mem_cons_self
  cases kind with
  | arrow params body => exact hx.elim
  | object properties =>
    obtain ⟨property, hmem, key, hp⟩ := hx
    exact hproperty (h.child hkind nofun hmem) hp
  | element tag attributes children =>
    rcases hx with ⟨property, hmem, key, hp⟩ | hx
    · exact hproperty (h.child hkind nofun (List.mem_append_left _ hmem)) hp
    · exact h.child hkind nofun (List.mem_append_right _ hx)
  | assignment target value =>
    obtain rfl : x = value := hx
    exact h.child hkind nofun (List.mem_cons_of_mem _ List.mem_cons_self)
  | _ => exact h.child hkind nofun hx

/-- What is on the place of an assignment is below its target. -/
theorem OnPlace.free {t : Tree} {target : NodeId} {name : String} (h : OnPlace t target x)
    (hfree : t.Free name x) : t.Free name target := by
  induction h with
  | target => exact hfree
  | member _ hkind ih => exact ih (.below hkind nofun List.mem_cons_self hfree)
  | index _ hkind ih => exact ih (.below hkind nofun List.mem_cons_self hfree)

/-- The target of an assignment, and what is on its place, is below the assignment. -/
theorem OnPlace.free_assignment {t : Tree} {target value : NodeId} {name : String}
    (h : OnPlace t target x) (hkind : t.kind node = .ok (.assignment target value))
    (hfree : t.Free name x) : t.Free name node :=
  .below hkind nofun List.mem_cons_self (h.free hfree)

/-- Functions are called, and signals written, where all that is used may be read.  Code that is
    idle is calm besides. -/
def settling : Regime where
  function s t c := SettledFunction (Obtainable s t) c
  code s t p node env := SettledCode (Obtainable s t) p node env ∧ (t = .idle → Calm s p env node)
  tolerates e := e ≠ .signal .unresolvedRef
  function_mono hs h := h.mono fun _ hid => hid.mono hs
  function_idle h := h.mono fun _ => obtainable_idle
  code_mono hs h := ⟨h.1.mono fun _ hid => hid.mono hs, fun ht => (h.2 ht).mono hs⟩
  runtime _ := nofun
  asSignal {e} h := by
    cases e with
    | signal cause => exact h
    | internal cause => exact nofun
    | runtime cause => exact nofun
  unreconciled := nofun
  readOnly _ := nofun
  notAPlace _ := nofun
  noCell := nofun
  call hc hargs := ⟨hc.call fun v hv => settled_of_within (hargs v hv), nofun⟩
  checked _ := .inr nofun
  part h _ hkind hx :=
    ⟨h.1.below fun _ => below_of_part hkind hx, fun ht => (h.2 ht).part hkind hx⟩
  name {s t p node env typing name} h _ hkind := by
    refine ⟨fun v hget => ?_, fun _ => nofun⟩
    cases t with
    | ready => exact settled_iff.mp (h.1 name v (.here hkind) hget)
    | idle =>
      have hsettled := (h.2 rfl).name hkind name v (.here hkind) hget
      exact (settled_iff.mp hsettled).mono (fun _ hid => hid.idle) fun _ hc =>
        hc.mono fun _ => obtainable_idle
  arrow {s t p node env typing params body} h _ hkind := by
    refine ⟨h.1.function hkind, fun _ uses huses => ?_⟩
    cases t with
    | ready => exact fun id hid => h.1.capturedSignals huses hid
    | idle => exact (h.2 rfl).captured hkind huses
  active {s t p node env typing kind} h _ hkind hacts := by
    cases t with
    | ready => exact h
    | idle => exact ⟨(h.2 rfl).acts hkind hacts, nofun⟩
  target _ _ _ := .inr nofun
  index {s p node env typing target value x object index} h _ hkind hx hindex := by
    refine ⟨h.1.below fun name hfree => hx.free_assignment hkind ?_, nofun⟩
    exact .below hindex nofun (List.mem_cons_of_mem _ List.mem_cons_self) hfree
  root {s p node env typing target value x name} h _ hkind hx hname :=
    ⟨fun v hget => settled_iff.mp (h.1 name v (hx.free_assignment hkind (.here hname)) hget),
      fun _ => nofun⟩
  statement _ _ _ _ := nofun

end ReactiveDoc.Eval
