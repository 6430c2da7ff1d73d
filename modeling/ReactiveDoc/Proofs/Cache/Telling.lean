import Mathlib
import ReactiveDoc.Cache.Key
import ReactiveDoc.Proofs.Json.Distinct
import ReactiveDoc.Proofs.Syntax.Arena
import ReactiveDoc.Proofs.Syntax.Distinct
import ReactiveDoc.Proofs.Syntax.Free

namespace ReactiveDoc

/-!
# What the keys of fragments tell

* `textBytes_eq` — the bytes of a text are those of its characters.
* `text_append_cases` — of two texts at the front of the same bytes one begins with the other.
* `object_bytes_inj` — the bytes of an object are divided in one way from what follows them.
* `wordBytes_inj` — eight bytes tell numbers of 64 bits apart.
* `Interface.blurred` — an interface with one number in place of all that are not finite.
* `Spells` — the bytes of several nodes, one after the other.
* `subtree_told` — the bytes of a subtree tell its nodes and where they end.
* `referencesWithin_eq` — trees whose nodes are told to be alike use the same names.
* `names_told`, `imported_told` — the bytes tell what the names and the imported module stand for.
* `LookAlike`, `fragmentKey_eq_iff` — fragments have one key if and only if they look alike to a
  check, up to numbers that are not finite.
* `infinity_mistaken` — which of these a name stands for is not told.
-/

open Json (object written writtenFields)

/-! ### Characters -/

/-- The bytes of a text, one character after the other. -/
theorem toList_eq (bytes : ByteArray) : bytes.toList = bytes.data.toList := by
  -- The loop has taken over the bytes in front of the index.
  have hloop (i : Nat) (taken : List UInt8) :
      ByteArray.toList.loop bytes i taken = taken.reverse ++ bytes.data.toList.drop i := by
    induction hn : bytes.size - i generalizing i taken with
    | zero =>
      have hle : bytes.data.toList.length ≤ i := by
        show bytes.size ≤ i
        omega
      rw [ByteArray.toList.loop, if_neg (by omega), List.drop_of_length_le hle, List.append_nil]
    | succ n ih =>
      have hlt : i < bytes.size := by omega
      have hget : bytes.get! i = bytes.data.toList[i] := getElem!_pos bytes.data i hlt
      rw [ByteArray.toList.loop, if_pos hlt, ih (i + 1) _ (by omega), List.reverse_cons,
        List.append_assoc, List.drop_eq_getElem_cons hlt, hget]
      rfl
  exact hloop 0 []

theorem textBytes_eq (s : String) : textBytes s = s.toList.flatMap String.utf8EncodeChar := by
  rw [textBytes, toList_eq, String.toUTF8, ← String.utf8Encode_toList, List.utf8Encode,
    List.toList_data_toByteArray]

/-- The bytes of a character are divided in one way from what follows. -/
theorem utf8EncodeChar_append_inj {c d : Char} {r r' : List UInt8}
    (h : String.utf8EncodeChar c ++ r = String.utf8EncodeChar d ++ r') : c = d ∧ r = r' := by
  have hread (c : Char) (r : List UInt8) :
      (String.utf8EncodeChar c ++ r).toByteArray.utf8DecodeChar? 0 = some c := by
    rw [List.toByteArray_append, ByteArray.utf8DecodeChar?_utf8EncodeChar_append]
  obtain rfl : c = d := Option.some.inj ((hread c r).symm.trans (h ▸ hread d r'))
  exact ⟨rfl, List.append_cancel_left h⟩

/-- Of two texts at the front of the same bytes one begins with the other. -/
theorem text_append_cases : ∀ {cs ds : List Char} {r r' : List UInt8},
    cs.flatMap String.utf8EncodeChar ++ r = ds.flatMap String.utf8EncodeChar ++ r' →
    (∃ more, ds = cs ++ more ∧ r = more.flatMap String.utf8EncodeChar ++ r') ∨
      ∃ more, cs = ds ++ more ∧ r' = more.flatMap String.utf8EncodeChar ++ r
  | [], ds, _, _, h => .inl ⟨ds, rfl, h⟩
  | c :: cs, [], _, _, h => .inr ⟨c :: cs, rfl, h.symm⟩
  | c :: cs, d :: ds, r, r', h => by
    rw [List.flatMap_cons, List.flatMap_cons, List.append_assoc, List.append_assoc] at h
    obtain ⟨rfl, hrest⟩ := utf8EncodeChar_append_inj h
    obtain ⟨more, rfl, hr⟩ | ⟨more, rfl, hr⟩ := text_append_cases hrest
    · exact .inl ⟨more, rfl, hr⟩
    · exact .inr ⟨more, rfl, hr⟩

/-! ### Objects -/

variable {fields fields' : List (String × Json)} {r r' : List UInt8}

/-- The bytes of an object are divided in one way from what follows them. -/
theorem object_bytes_inj (h : jsonBytes (object fields) ++ r = jsonBytes (object fields') ++ r') :
    writtenFields fields = writtenFields fields' ∧ r = r' := by
  rw [jsonBytes, jsonBytes, textBytes_eq, textBytes_eq] at h
  -- One of the texts begins with the other, but nothing follows an object in its text.
  obtain ⟨more, heq, hr⟩ | ⟨more, heq, hr⟩ := text_append_cases h
  · obtain ⟨hfields, hmore⟩ := Json.object_append_inj ((List.append_nil _).trans heq)
    rw [← hmore] at hr
    exact ⟨hfields.symm, hr⟩
  · obtain ⟨hfields, hmore⟩ := Json.object_append_inj ((List.append_nil _).trans heq)
    rw [← hmore] at hr
    exact ⟨hfields, hr.symm⟩

/-- Bytes of whole texts tell the texts apart. -/
theorem textBytes_inj {s s' : String} (h : textBytes s = textBytes s') : s = s' := by
  rw [textBytes, textBytes, toList_eq, toList_eq] at h
  exact String.toByteArray_inj.mp (ByteArray.ext (Array.toList_inj.mp h))

/-! ### Words -/

@[simp] theorem length_wordBytes (n : Nat) : (wordBytes n).length = 8 := by simp [wordBytes]

/-- The lowest bytes tell numbers apart that have no others. -/
theorem eq_of_bytes {k m n : Nat} (hm : m < 256 ^ k) (hn : n < 256 ^ k)
    (h : ∀ i < k, m / 256 ^ i % 256 = n / 256 ^ i % 256) : m = n := by
  induction k generalizing m n with
  | zero => omega
  | succ k ih =>
    have hlow : m % 256 = n % 256 := by simpa using h 0 (Nat.succ_pos k)
    have hhigh : m / 256 = n / 256 := by
      refine ih (Nat.div_lt_of_lt_mul (by rwa [← Nat.pow_succ']))
        (Nat.div_lt_of_lt_mul (by rwa [← Nat.pow_succ'])) fun i hi => ?_
      rw [Nat.div_div_eq_div_mul, Nat.div_div_eq_div_mul, ← Nat.pow_succ']
      exact h (i + 1) (Nat.succ_lt_succ hi)
    omega

/-- Eight bytes tell numbers of 64 bits apart. -/
theorem wordBytes_inj {m n : Nat} (hm : m < 2 ^ 64) (hn : n < 2 ^ 64)
    (h : wordBytes m = wordBytes n) : m = n := by
  refine eq_of_bytes (k := 8) hm hn fun i hi => ?_
  have hbyte := List.map_inj_left.mp h i (List.mem_range.mpr hi)
  rw [Nat.shiftRight_eq_div_pow, Nat.shiftRight_eq_div_pow, Nat.pow_mul] at hbyte
  exact congrArg UInt8.toNat hbyte

theorem wordBytes_append_inj {m n : Nat} (hm : m < 2 ^ 64) (hn : n < 2 ^ 64)
    (h : wordBytes m ++ r = wordBytes n ++ r') : m = n ∧ r = r' := by
  obtain ⟨hwords, hrest⟩ := List.append_inj h (by simp)
  exact ⟨wordBytes_inj hm hn hwords, hrest⟩

variable {t t' : Tree} {x x' : NodeId} {nodes nodes' ids : List NodeId}
  {bytes bytes' r r' : List UInt8}

/-! ### Interfaces -/

/-- What is written alike is told by a map that keeps it. -/
theorem map_eq_of_blurred {α β : Type} {write : α → β} {blur : α → α}
    (hwrite : ∀ a, write (blur a) = write a) {a? b? : Option α} (h : a?.map blur = b?.map blur) :
    a?.map write = b?.map write := by
  have hmap (o : Option α) : o.map write = (o.map blur).map write := by
    cases o with
    | none => rfl
    | some a => exact congrArg some (hwrite a).symm
  rw [hmap a?, hmap b?, h]

/-- The typing with the numbers in its type blurred. -/
def Typing.blurred (typing : Typing) : Typing := { typing with ty := typing.ty.blurred }

/-- The interface with the numbers in its type blurred. -/
def Interface.blurred : Interface → Interface
  | .ok typing => .ok typing.blurred
  | .error e => .error e

theorem Typing.written_inj {a b : Typing} (h : a.toJson.written = b.toJson.written) :
    a.blurred = b.blurred := by
  obtain ⟨ty, dynamic, mutable?⟩ := a
  obtain ⟨ty', dynamic', mutable?'⟩ := b
  have hlabels {m m' : Option Mutability}
      (h : Json.writtenFields (m.map fun m => ("mutable", Json.string m.label)).toList =
        Json.writtenFields (m'.map fun m => ("mutable", Json.string m.label)).toList) : m = m' := by
    cases m <;> cases m' <;> simp [Json.writtenFields, Json.written, Mutability.label_inj] at h ⊢
    exact h
  simp only [toJson, Json.written, Json.writtenFields, List.cons_append, List.nil_append,
    Json.object.injEq, List.cons.injEq, Prod.mk.injEq, true_and, Json.bool.injEq] at h
  rw [blurred, blurred, Ty.written_inj _ _ h.1, h.2.1, hlabels h.2.2]

theorem Interface.written_inj {a b : Interface} (h : a.toJson.written = b.toJson.written) :
    a.blurred = b.blurred := by
  cases a <;> cases b <;> simp [toJson] at h
  · rw [TypeError.written_inj h]
  · rw [blurred, blurred, Typing.written_inj h]

theorem Interface.toJson_blurred (i : Interface) : i.blurred.toJson = i.toJson := by
  cases i with
  | ok typing =>
    rw [blurred, toJson, toJson, Typing.toJson, Typing.toJson, Typing.blurred,
      typing.ty.toJson_blurred]
  | error e => rfl

/-- An interface is written as an object. -/
theorem Interface.exists_toJson (i : Interface) : ∃ fields, i.toJson = .object fields := by
  cases i <;> exact ⟨_, rfl⟩

theorem Interface.bytes_inj {a b : Interface}
    (h : jsonBytes a.toJson ++ r = jsonBytes b.toJson ++ r') : a.blurred = b.blurred ∧ r = r' := by
  obtain ⟨fields, hfields⟩ := a.exists_toJson
  obtain ⟨fields', hfields'⟩ := b.exists_toJson
  rw [hfields, hfields'] at h
  obtain ⟨hwritten, hrest⟩ := object_bytes_inj h
  refine ⟨Interface.written_inj ?_, hrest⟩
  rw [hfields, hfields', Json.written, Json.written, hwritten]

/-! ### Nodes -/

/-- The node is in both trees, with the same contents if blurred. -/
def Resembles (t t' : Tree) (x : NodeId) : Prop :=
  ∃ n n', t.node x = .ok n ∧ t'.node x = .ok n' ∧ n.blurred = n'.blurred

/-- Nodes that resemble each other are written alike. -/
theorem nodeBytes_eq (h : Resembles t t' x) : nodeBytes t x = nodeBytes t' x := by
  obtain ⟨n, n', hn, hn', heq⟩ := h
  have hjson : n.toJson .plain = n'.toJson .plain := by
    rw [← n.toJson_blurred, heq, n'.toJson_blurred]
  rw [nodeBytes, nodeBytes, hn, hn', Except.map, Except.map, hjson]

/-- The nodes with their ids are written as the bytes. -/
def Spells (t : Tree) (nodes : List NodeId) (bytes : List UInt8) : Prop :=
  ∃ parts, nodes.mapM (nodeBytes t) = .ok parts ∧ bytes = parts.flatten

theorem spells_nil (h : Spells t [] bytes) : bytes = [] := by
  obtain ⟨parts, hparts, rfl⟩ := h
  cases hparts
  rfl

theorem spells_cons (h : Spells t (x :: nodes) bytes) : ∃ n rest, t.node x = .ok n ∧
    Spells t nodes rest ∧ bytes = wordBytes x ++ (jsonBytes (n.toJson .plain) ++ rest) := by
  obtain ⟨parts, hparts, rfl⟩ := h
  obtain ⟨part, rest, hpart, hrest, rfl⟩ :=
    List.forall₂_cons_left_iff.mp (mapM_eq_ok_iff.mp hparts)
  cases hn : t.node x with
  | error fault =>
    rw [nodeBytes, hn] at hpart
    cases hpart
  | ok n =>
    rw [nodeBytes, hn] at hpart
    cases hpart
    exact ⟨n, rest.flatten, rfl, ⟨rest, mapM_eq_ok_iff.mpr hrest, rfl⟩, by simp⟩

theorem spells_append (h : Spells t (ids ++ nodes) bytes) :
    ∃ front back, Spells t ids front ∧ Spells t nodes back ∧ bytes = front ++ back := by
  obtain ⟨parts, hparts, rfl⟩ := h
  rw [List.mapM_append] at hparts
  obtain ⟨front, hfront, hparts⟩ := Except.bind_eq_ok_iff.mp hparts
  obtain ⟨back, hback, hparts⟩ := Except.bind_eq_ok_iff.mp hparts
  cases hparts
  exact ⟨_, _, ⟨front, hfront, rfl⟩, ⟨back, hback, rfl⟩, List.flatten_append⟩

theorem kind_of_node {n : Node} (h : t.node x = .ok n) : t.kind x = .ok n.kind := by
  rw [Tree.kind, h]
  rfl

/-- Forms of nodes that resemble each other are the same when blurred. -/
theorem Resembles.kind {kind kind' : NodeKind} (h : Resembles t t' x) (hkind : t.kind x = .ok kind)
    (hkind' : t'.kind x = .ok kind') : kind.blurred = kind'.blurred := by
  obtain ⟨n, n', hn, hn', heq⟩ := h
  obtain rfl : n.kind = kind := Except.ok.inj ((kind_of_node hn).symm.trans hkind)
  obtain rfl : n'.kind = kind' := Except.ok.inj ((kind_of_node hn').symm.trans hkind')
  exact congrArg Node.kind heq

theorem Resembles.children_eq (h : Resembles t t' x) : t.children x = t'.children x := by
  obtain ⟨n, n', hn, hn', heq⟩ := h
  have hkinds : n.kind.blurred = n'.kind.blurred := congrArg Node.kind heq
  rw [Tree.children_eq (kind_of_node hn), Tree.children_eq (kind_of_node hn'),
    ← NodeKind.children_blurred, hkinds, NodeKind.children_blurred]

section

variable (hsize : t.size ≤ UInt64.size) (hsize' : t'.size ≤ UInt64.size)

include hsize hsize'

/-- The bytes of a node tell its id and its contents, and where they end. -/
theorem node_told (h : Spells t (x :: nodes) bytes) (h' : Spells t' (x' :: nodes') bytes')
    (heq : bytes ++ r = bytes' ++ r') : x = x' ∧ Resembles t t' x ∧
      ∃ rest rest', Spells t nodes rest ∧ Spells t' nodes' rest' ∧ rest ++ r = rest' ++ r' := by
  obtain ⟨n, rest, hn, hrest, rfl⟩ := spells_cons h
  obtain ⟨n', rest', hn', hrest', rfl⟩ := spells_cons h'
  simp only [List.append_assoc] at heq
  obtain ⟨rfl, hnodes⟩ := wordBytes_append_inj
    (Nat.lt_of_lt_of_le (Tree.lt_size_of_kind (kind_of_node hn)) hsize)
    (Nat.lt_of_lt_of_le (Tree.lt_size_of_kind (kind_of_node hn')) hsize') heq
  obtain ⟨hwritten, hrest⟩ := object_bytes_inj hnodes
  refine ⟨rfl, ⟨n, n', hn, hn', Node.written_inj ?_⟩, rest, rest', ‹_›, ‹_›, hrest⟩
  rw [Node.toJson, Node.toJson, Json.written, Json.written, hwritten]

/-- The bytes of a subtree tell which nodes it has, what they are like, and where they end. -/
theorem subtree_told {fuel fuel' : Nat} (hsub : t.subtreeWithin fuel x = .ok nodes)
    (hsub' : t'.subtreeWithin fuel' x' = .ok nodes') (h : Spells t nodes bytes)
    (h' : Spells t' nodes' bytes') (heq : bytes ++ r = bytes' ++ r') :
    x = x' ∧ nodes = nodes' ∧ (∀ y ∈ nodes, Resembles t t' y) ∧ r = r' := by
  induction fuel generalizing fuel' x x' nodes nodes' bytes bytes' r r' with
  | zero => cases hsub
  | succ fuel ih =>
    cases fuel' with
    | zero => cases hsub'
    | succ fuel' =>
      obtain ⟨ids, hids, hsub⟩ := Except.bind_eq_ok_iff.mp hsub
      obtain ⟨below, hbelow, hsub⟩ := Except.bind_eq_ok_iff.mp hsub
      cases hsub
      obtain ⟨ids', hids', hsub'⟩ := Except.bind_eq_ok_iff.mp hsub'
      obtain ⟨below', hbelow', hsub'⟩ := Except.bind_eq_ok_iff.mp hsub'
      cases hsub'
      obtain ⟨rfl, hroot, rest, rest', hrest, hrest', hbytes⟩ := node_told hsize hsize' h h' heq
      -- The root is told first, and with it which nodes are below it.
      obtain rfl : ids = ids' :=
        Except.ok.inj (hids.symm.trans (hroot.children_eq.trans hids'))
      have hlist (ids : List NodeId) {below below' : List (List NodeId)} {bytes bytes' : List UInt8}
          (hbelow : ids.mapM (t.subtreeWithin fuel) = .ok below)
          (hbelow' : ids.mapM (t'.subtreeWithin fuel') = .ok below')
          (h : Spells t below.flatten bytes) (h' : Spells t' below'.flatten bytes')
          (heq : bytes ++ r = bytes' ++ r') :
          below.flatten = below'.flatten ∧ (∀ y ∈ below.flatten, Resembles t t' y) ∧ r = r' := by
        induction ids generalizing below below' bytes bytes' with
        | nil =>
          cases hbelow
          cases hbelow'
          rw [spells_nil h, spells_nil h'] at heq
          exact ⟨rfl, fun y hy => (List.not_mem_nil hy).elim, heq⟩
        | cons id ids ihids =>
          obtain ⟨part, rest, hpart, hrest, rfl⟩ :=
            List.forall₂_cons_left_iff.mp (mapM_eq_ok_iff.mp hbelow)
          obtain ⟨part', rest', hpart', hrest', rfl⟩ :=
            List.forall₂_cons_left_iff.mp (mapM_eq_ok_iff.mp hbelow')
          obtain ⟨front, back, hfront, hback, rfl⟩ := spells_append h
          obtain ⟨front', back', hfront', hback', rfl⟩ := spells_append h'
          simp only [List.append_assoc] at heq
          obtain ⟨-, rfl, hnodes, hrest⟩ := ih hpart hpart' hfront hfront' heq
          obtain ⟨hflat, hmore, hr⟩ := ihids (mapM_eq_ok_iff.mpr ‹_›) (mapM_eq_ok_iff.mpr ‹_›) hback
            hback' hrest
          refine ⟨by rw [List.flatten_cons, List.flatten_cons, hflat], fun y hy => ?_, hr⟩
          exact (List.mem_append.mp hy).elim (hnodes y) (hmore y)
      obtain ⟨hflat, hbelow, hr⟩ := hlist ids hbelow hbelow' hrest hrest' hbytes
      exact ⟨rfl, by rw [hflat], List.forall_mem_cons.mpr ⟨hroot, hbelow⟩, hr⟩

end

/-! ### Names -/

theorem eq_identifier {kind : NodeKind} {name : String}
    (h : (NodeKind.identifier name).blurred = kind.blurred) : kind = .identifier name := by
  cases kind <;> cases h
  rfl

theorem exists_arrow {kind : NodeKind} {params : List Param} {body : NodeId}
    (h : (NodeKind.arrow params body).blurred = kind.blurred) :
    ∃ params', kind = .arrow params' body ∧ params'.map Param.name = params.map Param.name := by
  cases kind with
  | arrow params' body' =>
    simp only [NodeKind.blurred, NodeKind.arrow.injEq] at h
    obtain ⟨hparams, rfl⟩ := h
    have hnames := congrArg (List.map Param.name) hparams
    simp only [List.map_map] at hnames
    exact ⟨params', rfl, hnames.symm⟩
  | _ => cases h

theorem eq_importing {kind : NodeKind} {path : String} {specifiers : List ImportSpecifier}
    (h : (NodeKind.importing path specifiers).blurred = kind.blurred) :
    kind = .importing path specifiers := by
  cases kind <;> cases h
  rfl

/-- Two computations that agree where both succeed map a list alike. -/
theorem eq_of_mapM_ok {α β ε : Type} {f g : α → Except ε β} {xs : List α} {ys zs : List β}
    (hf : xs.mapM f = .ok ys) (hg : xs.mapM g = .ok zs)
    (h : ∀ x ∈ xs, ∀ y z, f x = .ok y → g x = .ok z → y = z) : ys = zs := by
  rw [mapM_eq_ok_iff] at hf hg
  induction hf generalizing zs with
  | nil =>
    cases hg
    rfl
  | cons hy hrest ih =>
    cases hg with
    | cons hz hrest' =>
      rw [List.forall_mem_cons] at h
      rw [h.1 _ _ hy hz, ih hrest' h.2]

/-- Names are used at the same places of trees whose nodes resemble each other. -/
theorem referencesWithin_eq {bound : List String} {deferred : Bool} {fuel fuel' : Nat}
    {uses uses' : List Reference} (hnodes : ∀ y, t.AtOrBelow x y → Resembles t t' y)
    (h : t.referencesWithin bound deferred fuel x = .ok uses)
    (h' : t'.referencesWithin bound deferred fuel' x = .ok uses') : uses = uses' := by
  induction fuel generalizing fuel' bound deferred x uses uses' with
  | zero => cases h
  | succ fuel ih =>
    cases fuel' with
    | zero => cases h'
    | succ fuel' =>
      obtain ⟨kind, hkind, hcases⟩ := Tree.referencesWithin_cases h
      obtain ⟨kind', hkind', hcases'⟩ := Tree.referencesWithin_cases h'
      have hblurred := (hnodes x .refl).kind hkind hkind'
      have hbelow {child : NodeId} (hchild : child ∈ kind.children) (y : NodeId)
          (hy : t.AtOrBelow child y) : Resembles t t' y :=
        hnodes y (.head ((Tree.childOf_iff hkind).mpr hchild) hy)
      rcases hcases with ⟨name, rfl, rfl⟩ | ⟨params, body, rfl, hbody⟩ |
        ⟨hidentifier, harrow, parts, hparts, rfl⟩
      · obtain rfl := eq_identifier hblurred
        rcases hcases' with ⟨name', hname, rfl⟩ | ⟨_, _, hkind, -⟩ | ⟨hother, -⟩
        · cases hname
          rfl
        · cases hkind
        · exact absurd rfl (hother name)
      · obtain ⟨params', rfl, hparams⟩ := exists_arrow hblurred
        rcases hcases' with ⟨_, hkind, -⟩ | ⟨_, _, hkind, hbody'⟩ | ⟨-, hother, -⟩
        · cases hkind
        · cases hkind
          rw [hparams] at hbody'
          exact ih (hbelow List.mem_cons_self) hbody hbody'
        · exact absurd rfl (hother params' body)
      · rcases hcases' with ⟨name, rfl, -⟩ | ⟨params, body, rfl, -⟩ | ⟨-, -, parts', hparts', rfl⟩
        · exact absurd (eq_identifier hblurred.symm) (hidentifier name)
        · obtain ⟨params', hkind, -⟩ := exists_arrow hblurred.symm
          exact absurd hkind (harrow params' body)
        · have hchildren : kind.children = kind'.children := by
            rw [← NodeKind.children_blurred, hblurred, NodeKind.children_blurred]
          rw [← hchildren] at hparts'
          rw [eq_of_mapM_ok hparts hparts' fun child hchild _ _ => ih (hbelow hchild)]

/-- Two trees whose nodes at and below a node resemble each other use the same names there. -/
theorem freeIdentifiers_eq {names names' : List String}
    (hnodes : ∀ y, t.AtOrBelow x y → Resembles t t' y)
    (h : t.freeIdentifiers x = .ok names) (h' : t'.freeIdentifiers x = .ok names') :
    names = names' := by
  unfold Tree.freeIdentifiers at h h'
  cases huses : t.references x with
  | error fault =>
    rw [huses] at h
    cases h
  | ok uses =>
    cases huses' : t'.references x with
    | error fault =>
      rw [huses'] at h'
      cases h'
    | ok uses' =>
      rw [huses] at h
      rw [huses'] at h'
      cases h
      cases h'
      rw [referencesWithin_eq hnodes huses huses']

theorem jsonBytes_object (fields : List (String × Json)) :
    ∃ rest, jsonBytes (.object fields) = 0x7b :: rest := by
  rw [jsonBytes, textBytes_eq, Json.toList_compact _ 0, Json.spell_object, List.flatMap_cons]
  exact ⟨_, rfl⟩

variable {env env' : TypeEnv} {names : List String}

/-- No interface is written like the mark of a name that is not bound. -/
theorem interface_ne_unbound (i : Interface) :
    jsonBytes i.toJson ++ r ≠ textBytes "\x00unbound" ++ r' := by
  obtain ⟨fields, hfields⟩ := i.exists_toJson
  obtain ⟨rest, hrest⟩ := jsonBytes_object fields
  rw [hfields, hrest, textBytes_eq]
  exact fun h => absurd (List.cons.inj h).1 (by decide)

/-- The bytes of names tell what they stand for, and where they end. -/
theorem names_told (h : (names.map (nameBytes env)).flatten ++ r =
    (names.map (nameBytes env')).flatten ++ r') :
    (∀ name ∈ names, (env.get? name).map Interface.blurred = (env'.get? name).map Interface.blurred) ∧
      r = r' := by
  induction names with
  | nil => exact ⟨fun name hname => (List.not_mem_nil hname).elim, h⟩
  | cons name names ih =>
    simp only [List.map_cons, List.flatten_cons, nameBytes, List.append_assoc,
      List.append_cancel_left_eq] at h
    obtain ⟨hname, hrest⟩ : (env.get? name).map Interface.blurred =
        (env'.get? name).map Interface.blurred ∧
        (names.map (nameBytes env)).flatten ++ r = (names.map (nameBytes env')).flatten ++ r' := by
      cases hget : env.get? name with
      | none =>
        cases hget' : env'.get? name with
        | none =>
          simp only [hget, hget', List.append_cancel_left_eq] at h
          exact ⟨rfl, h⟩
        | some i' =>
          simp only [hget, hget'] at h
          exact absurd h.symm (interface_ne_unbound i')
      | some i =>
        cases hget' : env'.get? name with
        | none =>
          simp only [hget, hget'] at h
          exact absurd h (interface_ne_unbound i)
        | some i' =>
          simp only [hget, hget'] at h
          obtain ⟨hblurred, hrest⟩ := Interface.bytes_inj h
          exact ⟨congrArg some hblurred, hrest⟩
    obtain ⟨hnames, hr⟩ := ih hrest
    exact ⟨List.forall_mem_cons.mpr ⟨hname, hnames⟩, hr⟩

/-- Names that stand for the same, when blurred, are written alike. -/
theorem nameBytes_eq {name : String}
    (h : (env.get? name).map Interface.blurred = (env'.get? name).map Interface.blurred) :
    nameBytes env name = nameBytes env' name := by
  have hbytes (env : TypeEnv) : nameBytes env name = textBytes name ++
      ((env.get? name).map fun i => jsonBytes i.toJson).getD (textBytes "\x00unbound") := by
    rw [nameBytes]
    cases env.get? name <;> rfl
  rw [hbytes, hbytes, map_eq_of_blurred (fun i => by rw [i.toJson_blurred]) h]

theorem jsonBytes_ne_nil (j : Json) : jsonBytes j ≠ [] := by
  obtain ⟨c, cs, hcs, -⟩ := Json.head_spell 0 j
  rw [jsonBytes, textBytes_eq, Json.toList_compact j 0, hcs, List.flatMap_cons]
  exact List.append_ne_nil_of_left_ne_nil String.utf8EncodeChar_ne_nil _

/-- The bytes of an import tell the type of the module. -/
theorem imported_told {modules modules' : Check.ModuleTypes} {path : String}
    {specifiers : List ImportSpecifier}
    (h : importBytes modules (.importing path specifiers) =
      importBytes modules' (.importing path specifiers)) :
    (modules.lookup path).map Ty.blurred = (modules'.lookup path).map Ty.blurred := by
  simp only [importBytes, List.append_cancel_left_eq] at h
  cases hty : modules.lookup path with
  | none =>
    cases hty' : modules'.lookup path with
    | none => rfl
    | some ty' =>
      simp only [hty, hty'] at h
      exact absurd h.symm (jsonBytes_ne_nil _)
  | some ty =>
    cases hty' : modules'.lookup path with
    | none =>
      simp only [hty, hty'] at h
      exact absurd h (jsonBytes_ne_nil _)
    | some ty' =>
      simp only [hty, hty'] at h
      exact congrArg some (Ty.written_inj ty ty' (Json.compact_inj (textBytes_inj h)))

/-- Modules with the same type, when blurred, are written alike. -/
theorem importBytes_eq {modules modules' : Check.ModuleTypes} {kind kind' : NodeKind}
    (hkinds : kind.blurred = kind'.blurred)
    (h : ∀ path specifiers, kind = .importing path specifiers →
      (modules.lookup path).map Ty.blurred = (modules'.lookup path).map Ty.blurred) :
    importBytes modules kind = importBytes modules' kind' := by
  cases kind with
  | importing path specifiers =>
    obtain rfl := eq_importing hkinds
    rw [importBytes, importBytes,
      map_eq_of_blurred (fun ty => by rw [ty.toJson_blurred]) (h path specifiers rfl)]
  | _ =>
    cases kind' with
    | importing => cases hkinds
    | _ => rfl

/-! ### Keys -/

/-- Two fragments that look the same to a check, up to numbers that are not finite. -/
structure LookAlike (s s' : Check.Setting) (node node' : NodeId) (env env' : TypeEnv) : Prop where
  options_eq : s.options = s'.options
  node_eq : node = node'
  subtree_eq : s.tree.subtree node = s'.tree.subtree node'
  resembles : ∀ nodes, s.tree.subtree node = .ok nodes → ∀ x ∈ nodes, Resembles s.tree s'.tree x
  freeIdentifiers_eq : s.tree.freeIdentifiers node = s'.tree.freeIdentifiers node'
  interfaces : ∀ names, s.tree.freeIdentifiers node = .ok names → ∀ name ∈ names,
    (env.get? name).map Interface.blurred = (env'.get? name).map Interface.blurred
  imported : ∀ path specifiers, s.tree.kind node = .ok (.importing path specifiers) →
    (s.modules.lookup path).map Ty.blurred = (s'.modules.lookup path).map Ty.blurred

variable {s s' : Check.Setting} {p p' : Nat} {node node' : NodeId} {key : FragmentKey}

/-- What a key is put together from. -/
theorem fragmentKey_eq (h : fragmentKey s p node env = .ok key) : ∃ nodes bytes names kind,
    s.tree.subtree node = .ok nodes ∧ Spells s.tree nodes bytes ∧
    s.tree.freeIdentifiers node = .ok names ∧ s.tree.kind node = .ok kind ∧
    key = ⟨p, (if s.options.allowUnannotatedParams then 1 else 0) ::
      (bytes ++ ((names.map (nameBytes env)).flatten ++ importBytes s.modules kind))⟩ := by
  obtain ⟨nodes, hnodes, h⟩ := Except.bind_eq_ok_iff.mp h
  obtain ⟨parts, hparts, h⟩ := Except.bind_eq_ok_iff.mp h
  obtain ⟨names, hnames, h⟩ := Except.bind_eq_ok_iff.mp h
  obtain ⟨kind, hkind, h⟩ := Except.bind_eq_ok_iff.mp h
  cases h
  exact ⟨nodes, parts.flatten, names, kind, hnodes, ⟨parts, hparts, rfl⟩, hnames, hkind,
    by rw [List.append_assoc]⟩

theorem options_told {o o' : Check.Options}
    (h : (if o.allowUnannotatedParams then (1 : UInt8) else 0) =
      if o'.allowUnannotatedParams then 1 else 0) : o = o' := by
  obtain ⟨allow⟩ := o
  obtain ⟨allow'⟩ := o'
  cases allow <;> cases allow'
  · rfl
  · exact absurd h (by decide)
  · exact absurd h (by decide)
  · rfl

/-- Fragments with one key stand at one position and look alike to a check, up to numbers that are
    not finite. -/
theorem fragmentKey_tells (hsize : s.tree.size ≤ UInt64.size) (hsize' : s'.tree.size ≤ UInt64.size)
    (h : fragmentKey s p node env = .ok key) (h' : fragmentKey s' p' node' env' = .ok key) :
    p = p' ∧ LookAlike s s' node node' env env' := by
  obtain ⟨nodes, bytes, names, kind, hnodes, hbytes, hnames, hkind, rfl⟩ := fragmentKey_eq h
  obtain ⟨nodes', bytes', names', kind', hnodes', hbytes', hnames', hkind', hkey⟩ := fragmentKey_eq h'
  obtain ⟨rfl, hcontent⟩ := FragmentKey.mk.inj hkey
  obtain ⟨hoption, hcontent⟩ := List.cons.inj hcontent
  -- The nodes are told first, then with them the names, and then what these stand for.
  obtain ⟨rfl, rfl, hresembles, hrest⟩ :=
    subtree_told hsize hsize' hnodes hnodes' hbytes hbytes' hcontent
  have hbelow (y : NodeId) (hy : s.tree.AtOrBelow node y) : Resembles s.tree s'.tree y :=
    hresembles y ((Tree.mem_subtree_iff hnodes).mpr hy)
  obtain rfl := freeIdentifiers_eq hbelow hnames hnames'
  obtain ⟨hinterfaces, himport⟩ := names_told hrest
  refine ⟨rfl, options_told hoption, rfl, hnodes.trans hnodes'.symm, ?_,
    hnames.trans hnames'.symm, ?_, ?_⟩
  · intro found hfound
    obtain rfl : nodes = found := Except.ok.inj (hnodes.symm.trans hfound)
    exact hresembles
  · intro found hfound
    obtain rfl : names = found := Except.ok.inj (hnames.symm.trans hfound)
    exact hinterfaces
  · intro path specifiers himporting
    obtain rfl : kind = .importing path specifiers := Except.ok.inj (hkind.symm.trans himporting)
    have hkinds := (hbelow node .refl).kind hkind hkind'
    obtain rfl := eq_importing hkinds
    exact imported_told himport

/-- Two fragments have one key if and only if they stand at one position and look alike to a check,
    up to numbers that are not finite. -/
theorem fragmentKey_eq_iff {key' : FragmentKey} (hsize : s.tree.size ≤ UInt64.size)
    (hsize' : s'.tree.size ≤ UInt64.size) (h : fragmentKey s p node env = .ok key)
    (h' : fragmentKey s' p' node' env' = .ok key') :
    key = key' ↔ p = p' ∧ LookAlike s s' node node' env env' := by
  refine ⟨?_, ?_⟩
  · rintro rfl
    exact fragmentKey_tells hsize hsize' h h'
  · rintro ⟨rfl, halike⟩
    obtain rfl := halike.node_eq
    obtain ⟨nodes, bytes, names, kind, hnodes, ⟨parts, hparts, rfl⟩, hnames, hkind, rfl⟩ :=
      fragmentKey_eq h
    obtain ⟨nodes', bytes', names', kind', hnodes', ⟨parts', hparts', rfl⟩, hnames', hkind', rfl⟩ :=
      fragmentKey_eq h'
    obtain rfl : nodes = nodes' :=
      Except.ok.inj (hnodes.symm.trans (halike.subtree_eq.trans hnodes'))
    obtain rfl : names = names' :=
      Except.ok.inj (hnames.symm.trans (halike.freeIdentifiers_eq.trans hnames'))
    -- Both keys are made of the same nodes and names, each of which gives the same bytes.
    have hresembles := halike.resembles nodes hnodes
    obtain rfl : parts = parts' :=
      eq_of_mapM_ok hparts hparts' fun x hx y z hy hz =>
        Except.ok.inj (hy.symm.trans ((nodeBytes_eq (hresembles x hx)).trans hz))
    have hnameBytes : names.map (nameBytes env) = names.map (nameBytes env') :=
      List.map_congr_left fun name hname => nameBytes_eq (halike.interfaces names hnames name hname)
    have hroot : node ∈ nodes := (Tree.mem_subtree_iff hnodes).mpr .refl
    have himport : importBytes s.modules kind = importBytes s'.modules kind' :=
      importBytes_eq ((hresembles node hroot).kind hkind hkind') fun path specifiers heq =>
        halike.imported path specifiers (heq ▸ hkind)
    rw [halike.options_eq, hnameBytes, himport]

/-! ### A name for a number that is not finite -/

/-- The document `const x = y`. -/
def nameOnly : Check.Setting where
  tree := ⟨#[⟨⟨0, 1⟩, .identifier "y"⟩, ⟨⟨2, 3⟩, .constBinding "x" none 0 false⟩]⟩

/-- The environment in which `y` is one number. -/
def numbered (x : Float) : TypeEnv := ⟨[("y", .ok (.fixed (.ofNumber x)))]⟩

/-- A key does not tell which number that is not finite a name stands for. -/
theorem fragmentKey_numbered {x y : Float} (hx : x.isFinite = false) (hy : y.isFinite = false) :
    ∃ key, fragmentKey nameOnly 0 1 (numbered x) = .ok key ∧
      fragmentKey nameOnly 0 1 (numbered y) = .ok key := by
  obtain ⟨bytes, hkey⟩ : ∃ bytes, ∀ env, fragmentKey nameOnly 0 1 env =
      .ok ⟨0, 0 :: (bytes ++ (nameBytes env "y" ++ []) ++ [])⟩ := ⟨_, fun _ => rfl⟩
  have hnumber : Number.blurred x = Number.blurred y := by
    rw [Number.blurred, Number.blurred, if_neg (by simp [hx]), if_neg (by simp [hy])]
  have hblurred : ((numbered x).get? "y").map Interface.blurred =
      ((numbered y).get? "y").map Interface.blurred := by
    show some (Except.ok (Typing.fixed (.ofNumber (Number.blurred x)))) =
      some (Except.ok (Typing.fixed (.ofNumber (Number.blurred y))))
    rw [hnumber]
  refine ⟨_, hkey _, ?_⟩
  rw [hkey, nameBytes_eq hblurred]

theorem fragmentKey_eq_iff_numbered : ∃ key,
    fragmentKey nameOnly 0 1 (numbered (0.0 / 0.0)) = .ok key ∧
    fragmentKey nameOnly 0 1 (numbered (1.0 / 0.0)) = .ok key ∧
    LookAlike nameOnly nameOnly 1 1 (numbered (0.0 / 0.0)) (numbered (1.0 / 0.0)) := by
  obtain ⟨key, hkey, hkey'⟩ := fragmentKey_numbered (x := 0.0 / 0.0) (y := 1.0 / 0.0)
    (by decide +kernel) (by decide +kernel)
  have hsize : nameOnly.tree.size ≤ UInt64.size := by decide
  exact ⟨key, hkey, hkey', ((fragmentKey_eq_iff hsize hsize hkey hkey').mp rfl).2⟩

/-- Not-a-number and infinity are different types of a name that have one key. -/
theorem infinity_mistaken : ¬ ∀ (s s' : Check.Setting) (p p' : Nat) (node node' : NodeId)
    (env env' : TypeEnv) (key : FragmentKey), fragmentKey s p node env = .ok key →
    fragmentKey s' p' node' env' = .ok key → ∀ names, s.tree.freeIdentifiers node = .ok names →
    ∀ name ∈ names, env.get? name = env'.get? name := by
  intro h
  obtain ⟨key, hkey, hkey'⟩ := fragmentKey_numbered (x := 0.0 / 0.0) (y := 1.0 / 0.0)
    (by decide +kernel) (by decide +kernel)
  have heq := h _ _ _ _ _ _ _ _ key hkey hkey' ["y"] rfl "y" List.mem_cons_self
  have hnumber : (0.0 / 0.0 : Float) = 1.0 / 0.0 := by
    injection heq with heq
    injection heq with heq
    injection heq with hty
    injection hty with _ hliteral
    injection hliteral
  exact absurd hnumber (by decide +kernel)

end ReactiveDoc
