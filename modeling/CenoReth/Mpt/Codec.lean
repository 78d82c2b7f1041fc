/-
The codec round trip.

`decode_trie` reads back what `encode_trie` writes: the decoded arena holds the
same trie, with every reference already cached.  The proof is an induction over
the trie.  Each node finds its own encoding at the front of the input, and the
reference that its parent holds for it is the reference that the check computes.
-/
import CenoReth.Mpt.Binding
import CenoReth.Mpt.Decode
import CenoReth.Mpt.Partial

namespace CenoReth
namespace Mpt

open Patricia Patricia.Radix Trie Rlp

variable {E : Env}

/-! ## Items -/

theorem takeItem_of_decode {buf head payload rest : Bytes} {list : Bool}
    (hbuf : buf = head ++ payload ++ rest)
    (h : E.decodeHeader buf = .ok (⟨list, payload.length⟩, payload ++ rest)) :
    takeItem E buf = .ok ⟨list, payload, head ++ payload, rest⟩ := by
  unfold takeItem
  rw [h]
  simp only [List.length_append, Nat.le_add_right, if_true, List.take_left, List.drop_left]
  congr 2
  rw [hbuf, List.length_append, Nat.add_sub_cancel, List.take_left]

/-- The payload of an item. -/
def itemPayload : Item → Bytes
  | .str b => b
  | .list p => p

def itemIsList : Item → Bool
  | .str _ => false
  | .list _ => true

/-- An encoded item at the front of a buffer. -/
theorem takeItem_encode (hinv : Inverse E.decodeHeader) {a : Item} (ha : a.Fits) (rest : Bytes) :
    takeItem E (a.encode ++ rest) = .ok ⟨itemIsList a, itemPayload a, a.encode, rest⟩ := by
  cases a with
  | str b =>
    obtain ⟨head, hhead⟩ : ∃ head, encodeString b = head ++ b := by
      rcases encodeString_cases b with ⟨x, rfl, hx, _⟩ | ⟨hb, _⟩
      · exact ⟨[], hx⟩
      · exact ⟨_, hb⟩
    have h := takeItem_of_decode
      (show encodeString b ++ rest = head ++ b ++ rest by rw [hhead]) (hinv.string b rest ha)
    rw [← hhead] at h
    exact h
  | list p => exact takeItem_of_decode rfl (hinv.list p rest ha)

/-- A node as an item. -/
def nodeItem (E : Env) (t : Trie) : Item :=
  match t with
  | null => .str []
  | hole => .str []
  | digest d => .str d.bytes
  | t => .list (payload E t)

theorem nodeItem_encode (t : Trie) : (nodeItem E t).encode = rlp E t := by
  cases t <;> rfl

theorem nodeItem_payload (t : Trie) : itemPayload (nodeItem E t) = payload E t := by
  cases t <;> rfl

theorem nodeItem_isList {t : Trie} : itemIsList (nodeItem E t) = true ↔ isList t := by
  cases t <;> simp [nodeItem, itemIsList, isList]

/-! ## Well-formed tries -/

/-- The trie has an encoding that can be read back: lengths fit into a machine word, and
the slots of a branch do not point to null nodes. -/
def Encodable (E : Env) : Trie → Prop
  | leaf p v => (payload E (leaf p v)).length < 2 ^ 64
  | ext p c => (payload E (ext p c)).length < 2 ^ 64 ∧ Encodable E c
  | branch c => ∀ i, c i ≠ hole ∧ Encodable E (c i)
  | _ => True

theorem length_flatten_le {ι : Type} {f : ι → Bytes} {n : Nat} (l : List ι)
    (h : ∀ i ∈ l, (f i).length ≤ n) : (l.map f).flatten.length ≤ l.length * n := by
  induction l with
  | nil => simp
  | cons i l ih =>
    have h1 := h i (by simp)
    have h2 := ih fun j hj => h j (by simp [hj])
    simp only [List.map_cons, List.flatten_cons, List.length_append, List.length_cons]
    rw [Nat.add_mul]
    omega

theorem length_encodeRef_le (t : Trie) : (encodeRef (ref E t)).length ≤ 33 := by
  rcases ref_length (E := E) t with ⟨d, hr, hd⟩ | ⟨b, hr, hb⟩
  · simp [hr, encodeRef, hd]
  · simp only [hr, encodeRef]
    omega

theorem length_payload_branch_lt (c : Nibble → Trie) : (payload E (branch c)).length < 2 ^ 64 := by
  have hle := length_flatten_le (f := fun i => encodeRef (ref E (c i))) (n := 33)
    (List.finRange 16) fun i _ => length_encodeRef_le (c i)
  have hpay : (payload E (branch c)).length ≤ 16 * 33 + 1 := by
    rw [payload_branch, List.length_append]
    exact Nat.add_le_add_right hle 1
  exact Nat.lt_of_le_of_lt hpay (by decide)

theorem nodeItem_fits {t : Trie} (h : Encodable E t) : (nodeItem E t).Fits := by
  cases t with
  | null => simp [nodeItem, Item.Fits]
  | hole => simp [nodeItem, Item.Fits]
  | digest d => simp [nodeItem, Item.Fits, d.length_bytes]
  | leaf p v => exact h
  | ext p c => exact h.1
  | branch c => exact length_payload_branch_lt c

theorem takeItem_rlp (hinv : Inverse E.decodeHeader) {t : Trie} (h : Encodable E t) (rest : Bytes) :
    takeItem E (rlp E t ++ rest) =
      .ok ⟨itemIsList (nodeItem E t), payload E t, rlp E t, rest⟩ := by
  have hitem := takeItem_encode hinv (nodeItem_fits h) rest
  rwa [nodeItem_encode, nodeItem_payload] at hitem

/-! ## One node -/

theorem takePadding_padded (b rest : Bytes) :
    padded b ++ rest =
      b ++ (List.replicate ((minAlign - b.length % minAlign) % minAlign) 0 ++ rest) ∧
    takePadding b.length (List.replicate ((minAlign - b.length % minAlign) % minAlign) 0 ++ rest) =
      .ok rest := by
  constructor
  · simp [padded]
  · simp [takePadding]

/-- The check accepts a node under its own reference. -/
theorem checkRef_ref (t : Trie) (rest : Bytes) :
    checkRef E ⟨itemIsList (nodeItem E t), payload E t, rlp E t, rest⟩ (ref E t) =
      .ok (ref E t) := by
  unfold checkRef
  rcases node_cases t with rfl | rfl | ⟨d, rfl⟩ | hl
  · rfl
  · rfl
  · have hraw : rlp E (digest d) = encodeString d.bytes := rfl
    have hlen : ¬ (rlp E (digest d)).length < 32 := by
      rw [hraw, encodeString_word d.length_bytes]
      simp [d.length_bytes]
    simp only
    rw [if_neg hlen, if_pos ⟨by simp [payload, d.length_bytes], rfl⟩]
    exact if_pos rfl
  · have hlist := nodeItem_isList (E := E).mpr hl
    rw [ref_of_isList hl]
    by_cases hlen : (rlp E t).length < 32
    · simp [hlen, NodeRef.asSlice]
    · simp [hlen, hlist, NodeRef.asSlice]

/-- The reference of a child is read back from its slot. -/
theorem fromRlpSlice_encodeRef (t : Trie) : fromRlpSlice (encodeRef (ref E t)) = ref E t := by
  rcases ref_length (E := E) t with ⟨d, hr, hd⟩ | ⟨b, hr, hb⟩
  · rw [hr]
    simp [encodeRef, fromRlpSlice, hd]
  · rw [hr]
    have hne : b.length ≠ 33 := by omega
    simp [encodeRef, fromRlpSlice, hne]

theorem asSlice_eq_null {t : Trie} (hh : t ≠ hole) :
    (ref E t).asSlice = nullNodeRefSlice ↔ t = null := by
  constructor
  · intro h
    rcases ref_cases (E := E) t with ⟨d, hd⟩ | (rfl | rfl) | ⟨hl, _, hr⟩
    · rw [hd] at h
      have := congrArg List.length h
      simp [NodeRef.asSlice, d.length_bytes, nullNodeRefSlice] at this
    · rfl
    · exact absurd rfl hh
    · rw [hr] at h
      exact absurd h (rlp_ne_emptyString hl)
  · rintro rfl
    rfl

/-! ## Growing arenas -/

/-- Nodes were appended. -/
def Extends (m m' : Mpt) : Prop := m.cells <+: m'.cells

theorem Extends.cell {m m' : Mpt} (h : Extends m m') {id : NodeId} {c : Cell}
    (hc : m.cells[id]? = some c) : m'.cells[id]? = some c := by
  obtain ⟨l, hl⟩ := h
  rw [← hl, List.getElem?_append_left (lt_size hc)]
  exact hc

theorem extends_push (m : Mpt) (c : Cell) : Extends m (m.push c) := ⟨[c], rfl⟩

theorem Extends.size_le {m m' : Mpt} (h : Extends m m') : m.size ≤ m'.size := h.length_le

theorem Layout.extends {P : Option NodeRef → Trie → Prop} {m m' : Mpt} {t : Trie} {id : NodeId}
    (h : Layout P m t id) (he : Extends m m') : Layout P m' t id :=
  Layout.mono (fun _ _ r _ hc _ hp => ⟨r, he.cell hc, hp⟩) h

/-- The first node is null, as in every new arena. -/
def Based (m : Mpt) : Prop := m.cells[nullNodeId]? = some ⟨.null, none⟩

theorem Based.extends {m m' : Mpt} (h : Based m) (he : Extends m m') : Based m' := he.cell h

/-! ## Decoding an encoding -/

/-- `decode` reads the encoding of `t` under its reference. -/
def Decodes (E : Env) (decode : Bytes → NodeRef → TrieM (NodeId × Bytes)) (t : Trie) : Prop :=
  ∀ tail m, Based m → ∃ id m', decode (encoding E t ++ tail) (ref E t) m = (.ok (id, tail), m') ∧
    Reads E m' t id ∧ Extends m m' ∧ m.size + depth t ≤ m'.size + 1

/-- What a slot of a branch holds. -/
def SlotHolds (E : Env) (m : Mpt) (c : Trie) (o : Option NodeId) : Prop :=
  (o = none ∧ c = null) ∨ ∃ j, o = some j ∧ c ≠ null ∧ Reads E m c j

theorem SlotHolds.extends {m m' : Mpt} {c : Trie} {o : Option NodeId} (h : SlotHolds E m c o)
    (he : Extends m m') : SlotHolds E m' c o := by
  rcases h with hn | ⟨j, hj, hne, hr⟩
  · exact .inl hn
  · exact .inr ⟨j, hj, hne, hr.extends he⟩

/-- The encoding of a child: nothing for an empty slot. -/
def slotEncoding (E : Env) (c : Trie) : Bytes := if c.isNull then [] else encoding E c

theorem decodeSlot_spec {decode : Bytes → NodeRef → TrieM (NodeId × Bytes)} {c : Trie}
    (hdec : c ≠ null → Decodes E decode c) (hh : c ≠ hole) (tail : Bytes) {m : Mpt}
    (hb : Based m) :
    ∃ o m', decodeSlot decode (encodeRef (ref E c)) (slotEncoding E c ++ tail) m =
        (.ok (o, tail), m') ∧ SlotHolds E m' c o ∧ Extends m m' ∧
      (c ≠ null → m.size + depth c ≤ m'.size + 1) := by
  unfold decodeSlot
  rw [fromRlpSlice_encodeRef]
  by_cases hc : c = null
  · subst hc
    exact ⟨none, m, rfl, .inl ⟨rfl, rfl⟩, List.prefix_rfl, fun h => absurd rfl h⟩
  · simp only [if_neg (mt (asSlice_eq_null hh).mp hc), slotEncoding, isNull_eq_false.mpr hc]
    obtain ⟨id, m', hm', hr, he, hd⟩ := hdec hc tail m hb
    exact ⟨some id, m', Exec.bind_ok hm', .inr ⟨id, rfl, hc, hr⟩, he, fun _ => hd⟩

theorem decodeChildren_spec (hinv : Inverse E.decodeHeader)
    (decode : Bytes → NodeRef → TrieM (NodeId × Bytes)) (rest tail : Bytes) :
    ∀ (l : List Trie) (m : Mpt), Based m → (∀ c ∈ l, c ≠ hole) →
      (∀ c ∈ l, c ≠ null → Decodes E decode c) →
      ∃ os m', decodeChildren E decode l.length
          ((l.map fun c => encodeRef (ref E c)).flatten ++ rest)
          ((l.map (slotEncoding E)).flatten ++ tail) m = (.ok (os, rest, tail), m') ∧
        List.Forall₂ (SlotHolds E m') l os ∧ Extends m m' ∧
        ∀ c ∈ l, c ≠ null → m.size + depth c ≤ m'.size + 1
  | [], m, _, _, _ => ⟨[], m, rfl, .nil, List.prefix_rfl, by simp⟩
  | c :: l, m, hb, hh, hdec => by
    obtain ⟨o, m₁, h₁, hs₁, he₁, hd₁⟩ := decodeSlot_spec (hdec c (by simp)) (hh c (by simp))
      ((l.map (slotEncoding E)).flatten ++ tail) hb
    obtain ⟨os, m₂, h₂, hs₂, he₂, hd₂⟩ := decodeChildren_spec hinv decode rest tail l m₁ (hb.extends he₁)
      (fun x hx => hh x (by simp [hx])) fun x hx => hdec x (by simp [hx])
    refine ⟨o :: os, m₂, ?_, .cons (hs₁.extends he₂) hs₂, he₁.trans he₂, ?_⟩
    · have hitem := takeItem_encode hinv (refItem_fits (E := E) c)
        ((l.map fun c => encodeRef (ref E c)).flatten ++ rest)
      rw [← encodeRef_eq] at hitem
      simp only [List.map_cons, List.flatten_cons, List.append_assoc, List.length_cons,
        decodeChildren]
      rw [hitem]
      refine (Exec.bind_ok (Exec.ofExcept_apply _ m)).trans ?_
      exact (Exec.bind_ok h₁).trans (Exec.bind_ok h₂)
    · intro x hx hne
      have hle₁ := he₁.size_le
      have hle₂ := he₂.size_le
      rcases List.mem_cons.mp hx with rfl | hx'
      · have := hd₁ hne
        omega
      · have := hd₂ x hx' hne
        omega

/-- The slots of a branch, as the decoder collects them. -/
theorem reads_branch {m : Mpt} {id : NodeId} {c : Nibble → Trie} {os : List (Option NodeId)}
    {r : Option NodeRef} (hos : List.Forall₂ (SlotHolds E m) ((List.finRange 16).map c) os)
    (hr : Cached E r (branch c))
    (hc : m.cells[id]? = some ⟨.branch fun i => os[i.val]?.join, r⟩) :
    Reads E m (branch c) id := by
  refine ⟨_, _, hc, hr, fun i => ?_⟩
  have hlen := hos.length_eq
  simp only [List.length_map, List.length_finRange] at hlen
  have hi : i.val < os.length := by omega
  have h := (List.forall₂_iff_get.mp hos).2 i.val (by simp) hi
  simp only [List.get_eq_getElem, List.getElem_map, List.getElem_finRange] at h
  rw [List.getElem?_eq_getElem hi]
  exact h

/-- Every node, up to the point where its kind matters. -/
theorem decodeTrieInternal_node (hinv : Inverse E.decodeHeader) {fuel : Nat} {t : Trie}
    (h : Encodable E t) (rest : Bytes) (m : Mpt) :
    decodeTrieInternal E (fuel + 1) (padded (rlp E t) ++ rest) (ref E t) m = (
      if itemIsList (nodeItem E t) = false then
        if (payload E t).length = 0 then pure (nullNodeId, rest)
        else if (payload E t).length = 32 then do
          let id ← addNode (.digest (payload E t)) (some (.digest (payload E t)))
          pure (id, rest)
        else Exec.fail (.err (.rlpError .unexpectedLength))
      else decodeList E (decodeTrieInternal E fuel) (payload E t) rest (ref E t) :
        TrieM (NodeId × Bytes)) m := by
  obtain ⟨hpad, htake⟩ := takePadding_padded (rlp E t) rest
  rw [decodeTrieInternal, hpad, takeItem_rlp hinv h]
  refine (Exec.bind_ok (Exec.ofExcept_apply _ m)).trans ?_
  rw [htake]
  refine (Exec.bind_ok (Exec.ofExcept_apply _ m)).trans ?_
  rw [checkRef_ref]
  exact Exec.bind_ok (Exec.ofExcept_apply _ m)

theorem decodeTrieInternal_list (hinv : Inverse E.decodeHeader) {fuel : Nat} {t : Trie}
    (hl : isList t) (h : Encodable E t) (rest : Bytes) (m : Mpt) :
    decodeTrieInternal E (fuel + 1) (padded (rlp E t) ++ rest) (ref E t) m =
      decodeList E (decodeTrieInternal E fuel) (payload E t) rest (ref E t) m := by
  rw [decodeTrieInternal_node hinv h, nodeItem_isList (E := E).mpr hl]
  rfl

/-- A payload that starts with two items. -/
theorem decodeList_pair (hinv : Inverse E.decodeHeader)
    {decode : Bytes → NodeRef → TrieM (NodeId × Bytes)} {path : List Nibble} {isLeaf : Bool}
    {b : Item} (ha : (Hp.encode path isLeaf).length < 2 ^ 64) (hb : b.Fits) (bytes : Bytes)
    (nodeRef : NodeRef) (m : Mpt) :
    decodeList E decode (encodeString (Hp.encode path isLeaf) ++ b.encode) bytes nodeRef m = (do
      if isLeaf = false then
        let (child, bytes) ← decode bytes (fromRlpSlice b.encode)
        let id ← addNode (.extension (Hp.encode path isLeaf) child) (some nodeRef)
        pure (id, bytes)
      else
        let id ← addNode (.leaf (Hp.encode path isLeaf) (itemPayload b)) (some nodeRef)
        pure (id, bytes) : TrieM (NodeId × Bytes)) m := by
  have h0 := takeItem_encode hinv (a := .str (Hp.encode path isLeaf)) ha b.encode
  have h1 := takeItem_encode hinv hb []
  rw [List.append_nil] at h1
  obtain ⟨first, tl, hfirst, hflag⟩ := Hp.encode_eq_cons path isLeaf
  unfold decodeList
  rw [show encodeString (Hp.encode path isLeaf) = (Item.str (Hp.encode path isLeaf)).encode from rfl,
    h0]
  refine (Exec.bind_ok (Exec.ofExcept_apply _ m)).trans ?_
  simp only [itemPayload]
  rw [h1]
  refine (Exec.bind_ok (Exec.ofExcept_apply _ m)).trans ?_
  simp only [if_true, hfirst, List.head?_cons, orPanic_some]
  refine (Exec.bind_ok (Exec.pure_apply _ m)).trans ?_
  simp only [hflag]
  rfl

theorem length_le_encodeString (b : Bytes) : b.length ≤ (encodeString b).length := by
  rw [length_encodeString]
  unfold stringLength
  split
  · rename_i hs
    rcases hb : b with _ | ⟨a, _ | ⟨b, l⟩⟩ <;> simp_all [isSingle]
  · omega

theorem length_left_lt {a x : Bytes} (h : (encodeString a ++ x).length < 2 ^ 64) :
    a.length < 2 ^ 64 := by
  have hle := length_le_encodeString a
  rw [List.length_append] at h
  omega

theorem length_right_lt {a b : Bytes} (h : (encodeString a ++ encodeString b).length < 2 ^ 64) :
    b.length < 2 ^ 64 := by
  have hle := length_le_encodeString b
  rw [List.length_append] at h
  omega

/-- A payload of seventeen items, of which the last is empty. -/
theorem decodeList_branch (hinv : Inverse E.decodeHeader)
    {decode : Bytes → NodeRef → TrieM (NodeId × Bytes)} {c : Nibble → Trie} (tail : Bytes)
    {m : Mpt} (hb : Based m) (hh : ∀ i, c i ≠ hole)
    (hdec : ∀ i, c i ≠ null → Decodes E decode (c i)) (nodeRef : NodeRef) :
    ∃ os m', decodeList E decode (payload E (branch c))
        (((List.finRange 16).map fun i => slotEncoding E (c i)).flatten ++ tail) nodeRef m =
          (.ok (m'.size, tail), m'.push ⟨.branch fun i => os[i.val]?.join, some nodeRef⟩) ∧
      List.Forall₂ (SlotHolds E m') ((List.finRange 16).map c) os ∧ Extends m m' ∧
      ∀ i, c i ≠ null → m.size + depth (c i) ≤ m'.size + 1 := by
  -- the first two slots are read before the kind of the node is known
  obtain ⟨l, hl, hlen⟩ : ∃ l : List Nibble, List.finRange 16 = 0 :: 1 :: l ∧ l.length = 14 :=
    ⟨_, rfl, rfl⟩
  obtain ⟨o₀, m₀, h₀, hs₀, he₀, hd₀⟩ := decodeSlot_spec (hdec 0) (hh 0)
    (slotEncoding E (c 1) ++ (((l.map c).map (slotEncoding E)).flatten ++ tail)) hb
  obtain ⟨o₁, m₁, h₁, hs₁, he₁, hd₁⟩ := decodeSlot_spec (hdec 1) (hh 1)
    (((l.map c).map (slotEncoding E)).flatten ++ tail) (hb.extends he₀)
  obtain ⟨os, m₂, h₂, hs₂, he₂, hd₂⟩ := decodeChildren_spec hinv decode
    nullNodeRefSlice tail (l.map c) m₁ (hb.extends (he₀.trans he₁))
    (by simpa using fun i _ => hh i) (by simpa using fun i _ => hdec i)
  rw [List.length_map, hlen] at h₂
  refine ⟨o₀ :: o₁ :: os, m₂, ?_, ?_, (he₀.trans he₁).trans he₂, fun i hi => ?_⟩
  · have hpay : payload E (branch c) = (refItem E (c 0)).encode ++ ((refItem E (c 1)).encode ++
        (((l.map c).map fun c => encodeRef (ref E c)).flatten ++ nullNodeRefSlice)) := by
      rw [payload_branch, hl, ← encodeRef_eq, ← encodeRef_eq]
      simp [nullNodeRefSlice, Function.comp_def]
    have hne : ((l.map c).map fun c => encodeRef (ref E c)).flatten ++ nullNodeRefSlice ≠ [] := by
      simp [nullNodeRefSlice]
    unfold decodeList
    rw [hpay, takeItem_encode hinv (refItem_fits (c 0))]
    refine (Exec.bind_ok (Exec.ofExcept_apply _ m)).trans ?_
    simp only
    rw [takeItem_encode hinv (refItem_fits (c 1))]
    refine (Exec.bind_ok (Exec.ofExcept_apply _ m)).trans ?_
    simp only [if_neg hne, ← encodeRef_eq]
    rw [hl]
    simp only [List.map_cons, List.flatten_cons, List.append_assoc]
    simp only [List.map_map, Function.comp_def] at h₀ h₁ h₂ ⊢
    refine (Exec.bind_ok h₀).trans ((Exec.bind_ok h₁).trans ((Exec.bind_ok h₂).trans ?_))
    rfl
  · rw [hl]
    exact .cons ((hs₀.extends he₁).extends he₂) (.cons (hs₁.extends he₂) hs₂)
  · have hle₀ := he₀.size_le
    have hle₁ := he₁.size_le
    have hle₂ := he₂.size_le
    have hmem : i ∈ List.finRange 16 := List.mem_finRange i
    rw [hl] at hmem
    rcases List.mem_cons.mp hmem with rfl | hmem
    · have := hd₀ hi
      omega
    · rcases List.mem_cons.mp hmem with rfl | hmem
      · have := hd₁ hi
        omega
      · have := hd₂ (c i) (List.mem_map_of_mem hmem) hi
        omega

/-- The encoding of every encodable trie is read back. -/
theorem decodeTrieInternal_spec (hinv : Inverse E.decodeHeader) : ∀ {fuel : Nat} {t : Trie},
    depth t ≤ fuel → Encodable E t → Decodes E (decodeTrieInternal E fuel) t := by
  intro fuel
  induction fuel with
  | zero =>
    intro t ht
    exact absurd (depth_pos t) (by omega)
  | succ fuel ih =>
    intro t ht hw tail m hb
    cases t with
    | null =>
      exact ⟨nullNodeId, m, decodeTrieInternal_node hinv hw tail m, ⟨none, hb, .inl rfl⟩,
        List.prefix_rfl, by simp [depth]⟩
    | hole =>
      exact ⟨nullNodeId, m, decodeTrieInternal_node hinv hw tail m, ⟨none, hb, .inl rfl⟩,
        List.prefix_rfl, by simp [depth]⟩
    | digest d =>
      refine ⟨m.size, m.push ⟨.digest d.bytes, some (.digest d.bytes)⟩,
        (decodeTrieInternal_node hinv hw tail m).trans ?_,
        ⟨_, cells_push_self _ _, .inr rfl⟩, extends_push _ _, by simp [depth]⟩
      have hpay : (payload E (digest d)).length = 32 := d.length_bytes
      simp only [nodeItem, itemIsList, hpay, if_true]
      rfl
    | leaf p v =>
      refine ⟨m.size, m.push ⟨.leaf (Hp.encode p true) v, some (ref E (leaf p v))⟩,
        (decodeTrieInternal_list (t := leaf p v) hinv trivial hw tail m).trans ?_,
        ⟨_, cells_push_self _ _, .inr rfl⟩, extends_push _ _, by simp [depth]⟩
      exact decodeList_pair hinv (b := .str v) (length_left_lt hw) (length_right_lt hw) tail _ m
    | ext p c =>
      obtain ⟨id, m₁, h₁, hr₁, he₁, hd₁⟩ := ih (Nat.le_of_succ_le_succ ht) hw.2 tail m hb
      refine ⟨m₁.size, m₁.push ⟨.extension (Hp.encode p false) id, some (ref E (ext p c))⟩, ?_,
        ⟨_, id, cells_push_self _ _, .inr rfl, hr₁.extends (extends_push _ _)⟩,
        he₁.trans (extends_push _ _), ?_⟩
      · rw [encoding, List.append_assoc, decodeTrieInternal_list (t := ext p c) hinv trivial hw]
        have hpay : payload E (ext p c) =
            encodeString (Hp.encode p false) ++ (refItem E c).encode := by
          rw [payload_ext, encodeRef_eq]
        have hlen := hw.1
        rw [hpay] at hlen ⊢
        refine (decodeList_pair hinv (length_left_lt hlen) (refItem_fits c) _ _ m).trans ?_
        rw [← encodeRef_eq, fromRlpSlice_encodeRef]
        exact Exec.bind_ok h₁
      · simp only [depth, size_push]
        omega
    | branch c =>
      have hdec : ∀ i, c i ≠ null → Decodes E (decodeTrieInternal E fuel) (c i) := fun i hi =>
        ih (by have := depth_child_lt hi; omega) (hw i).2
      obtain ⟨os, m₁, h₁, hs₁, he₁, hd₁⟩ := decodeList_branch hinv tail hb (fun i => (hw i).1) hdec
        (ref E (branch c))
      refine ⟨m₁.size, m₁.push ⟨.branch fun i => os[i.val]?.join, some (ref E (branch c))⟩, ?_,
        reads_branch (hs₁.imp fun _ _ hs => hs.extends (extends_push _ _)) (.inr rfl)
          (cells_push_self _ _),
        he₁.trans (extends_push _ _), ?_⟩
      · rw [encoding, List.append_assoc, decodeTrieInternal_list (t := branch c) hinv trivial hw]
        exact h₁
      · have hle := he₁.size_le
        have hdepth := depth_branch_le (c := c) (n := m₁.size + 1 - m.size) fun i hi => by
          have := hd₁ i hi
          omega
        simp only [size_push]
        omega

/-! ## The whole input -/

/-- The arena reads as `t` from its root.  Nodes may be shared. -/
def Legible (E : Env) (m : Mpt) (t : Trie) : Prop := Reads E m t m.rootId ∧ depth t ≤ m.size

theorem Represents.legible {m : Mpt} {t : Trie} (h : Represents E m t) : Legible E m t :=
  ⟨Rep.reads h, h.depth_le⟩

theorem legible_new : Legible E new null := represents_new.legible

theorem Legible.get {m : Mpt} {t : Trie} (h : Legible E m t) (key : List Nibble) :
    getNibbles (key.map Nibble.toByte) m = ((t.get key).mapError halt, m) := by
  unfold getNibbles
  rw [Exec.bind_ok (Exec.read_apply _ m)]
  exact getInternal_spec h.2 key m.rootId h.1

theorem exists_rlp_append (t : Trie) : ∃ rest, encoding E t = rlp E t ++ rest := by
  cases t with
  | ext p c => exact ⟨_, List.append_assoc _ _ _⟩
  | branch c => exact ⟨_, List.append_assoc _ _ _⟩
  | _ => exact ⟨_, rfl⟩

theorem rlp_length_pos (t : Trie) : 0 < (rlp E t).length := by
  rw [← length_rlp]
  unfold Rlp.lengthOfLength
  split <;> omega

theorem slotEncoding_of_ne {c : Trie} (h : c ≠ null) : slotEncoding E c = encoding E c := by
  simp [slotEncoding, isNull_eq_false.mpr h]

/-- Every node takes at least one byte. -/
theorem depth_le_length_encoding (t : Trie) : depth t ≤ (encoding E t).length := by
  have hpos (t : Trie) : 0 < (padded (rlp E t)).length := by
    have := rlp_length_pos (E := E) t
    simp only [padded, List.length_append]
    omega
  induction t with
  | ext p c ih =>
    have := hpos (ext p c)
    simp only [depth, encoding, List.length_append]
    omega
  | branch c ih =>
    have hflat : ∀ i, c i ≠ null → depth (c i) ≤
        ((List.finRange 16).map fun i => slotEncoding E (c i)).flatten.length := by
      intro i hi
      refine (ih i).trans ?_
      rw [← slotEncoding_of_ne hi]
      exact (List.sublist_flatten_of_mem
        (List.mem_map_of_mem (f := fun i => slotEncoding E (c i)) (List.mem_finRange i))).length_le
    have hle := depth_branch_le hflat
    have := hpos (branch c)
    refine hle.trans ?_
    rw [encoding, List.length_append, Nat.add_comm]
    exact Nat.add_le_add_right this _
  | _ => exact hpos _

theorem rootRef_rlp (hinv : Inverse E.decodeHeader) {t : Trie} (hw : Encodable E t)
    (hn : t ≠ null ∧ t ≠ hole) (rest : Bytes) : rootRef E (rlp E t ++ rest) = .ok (ref E t) := by
  unfold rootRef
  rw [takeItem_rlp hinv hw]
  show (if (rlp E t).length < 32 then _ else _) = _
  rcases node_cases t with rfl | rfl | ⟨d, rfl⟩ | hl
  · exact absurd rfl hn.1
  · exact absurd rfl hn.2
  · have hlen : ¬ (rlp E (digest d)).length < 32 := by
      rw [show rlp E (digest d) = encodeString d.bytes from rfl, encodeString_word d.length_bytes]
      simp [d.length_bytes]
    rw [if_neg hlen]
    rfl
  · rw [ref_of_isList hl]
    by_cases hlen : (rlp E t).length < 32
    · simp [hlen]
    · simp [hlen, nodeItem_isList (E := E).mpr hl]

theorem encoding_ne_empty {t : Trie} (hn : t ≠ null ∧ t ≠ hole) (tail : Bytes) :
    encoding E t ++ tail ≠ [emptyStringCode, 0, 0, 0] := by
  have hne : ∀ rest, rlp E t ++ rest ≠ [emptyStringCode, 0, 0, 0] := by
    intro rest
    rcases node_cases t with rfl | rfl | ⟨d, rfl⟩ | hl
    · exact absurd rfl hn.1
    · exact absurd rfl hn.2
    · rw [show rlp E (digest d) = encodeString d.bytes from rfl, encodeString_word d.length_bytes]
      simp [emptyStringCode]
    · obtain ⟨x, l, hx, hle⟩ := encodeList_first (payload E t)
      rw [rlp_of_isList hl, hx]
      rintro heq
      obtain ⟨rfl, _⟩ := List.cons.inj heq
      revert hle
      decide
  obtain ⟨rest, hrest⟩ := exists_rlp_append (E := E) t
  rw [hrest, List.append_assoc]
  exact hne _

/-- `decode_trie` reads back what was written, and leaves what follows it. -/
theorem decodeTrie_encoding (hinv : Inverse E.decodeHeader) {t : Trie} (hw : Encodable E t)
    (hn : t ≠ null ∧ t ≠ hole) (tail : Bytes) (numNodes : Nat) :
    ∃ m', decodeTrie E (encoding E t ++ tail) numNodes = .ok (m', tail) ∧ Legible E m' t := by
  have hfuel : depth t ≤ (encoding E t ++ tail).length + 1 := by
    have := depth_le_length_encoding (E := E) t
    rw [List.length_append]
    omega
  obtain ⟨id, m', h, hr, he, hd⟩ := decodeTrieInternal_spec hinv hfuel hw tail new rfl
  have hroot : rootRef E (encoding E t ++ tail) = .ok (ref E t) := by
    obtain ⟨rest, hrest⟩ := exists_rlp_append (E := E) t
    rw [hrest, List.append_assoc]
    exact rootRef_rlp hinv hw hn _
  refine ⟨{ m' with rootId := id }, ?_, ?_, ?_⟩
  · unfold decodeTrie
    rw [if_neg (encoding_ne_empty hn tail), hroot]
    simp only [bind, Except.bind, h]
  · exact hr.extends (show Extends m' { m' with rootId := id } from List.prefix_rfl)
  · show depth t ≤ m'.size
    have : new.size = 1 := rfl
    omega

/-- The empty trie is written as one padded byte. -/
theorem decodeTrie_empty (numNodes : Nat) :
    decodeTrie E (encoding E null) numNodes = .ok (new, encoding E null) := rfl

/-- An empty arena, whichever node its root is, is decoded to a new one. -/
theorem decodeTrie_encodeTrie {t : Trie} (hinv : Inverse E.decodeHeader) (hw : Encodable E t)
    (numNodes : Nat) :
    ∃ m' rest, decodeTrie E (encoding E t) numNodes = .ok (m', rest) ∧
      ∃ t', Legible E m' t' ∧ encoding E t' = encoding E t ∧ Trie.hash E t' = Trie.hash E t ∧
        ∀ key, t'.get key = t.get key := by
  by_cases hn : t = null
  · subst hn
    exact ⟨new, _, decodeTrie_empty numNodes, null, legible_new, rfl, rfl, fun _ => rfl⟩
  · by_cases hh : t = hole
    · subst hh
      exact ⟨new, _, decodeTrie_empty numNodes, null, legible_new, rfl, rfl, fun _ => rfl⟩
    · obtain ⟨m', hm', hl⟩ := decodeTrie_encoding hinv hw ⟨hn, hh⟩ [] numNodes
      rw [List.append_nil] at hm'
      exact ⟨m', [], hm', t, hl, rfl, rfl, fun _ => rfl⟩

/-- The codec round trip: the decoded trie has the same hash, answers every lookup alike,
errors included, and is encoded to the same bytes. -/
theorem codec_round_trip {m : Mpt} {t : Trie} (hinv : Inverse E.decodeHeader)
    (hr : Represents E m t) (hw : Encodable E t) (numNodes : Nat) :
    ∃ bytes m' rest, (encodeTrie E m).1 = .ok bytes ∧
      decodeTrie E bytes numNodes = .ok (m', rest) ∧
      (∃ root, (hash E m').1 = .ok root ∧ (hash E m).1 = .ok root) ∧
      (∀ key, (get key m').1 = (get key m).1) ∧ (encodeTrie E m').1 = .ok bytes := by
  obtain ⟨m₁, h₁, _⟩ := encodeTrie_spec (Rep.reads hr) hr.depth_le
  obtain ⟨m₂, h₂, _⟩ := hash_spec (Rep.reads hr) hr.depth_le
  obtain ⟨m', rest, hm', t', hl, henc, hhash, hget⟩ := decodeTrie_encodeTrie hinv hw numNodes
  obtain ⟨m₃, h₃, _⟩ := encodeTrie_spec hl.1 hl.2
  obtain ⟨m₄, h₄, _⟩ := hash_spec hl.1 hl.2
  refine ⟨encoding E t, m', rest, by rw [h₁], hm', ⟨Trie.hash E t, ?_, by rw [h₂]⟩, ?_, ?_⟩
  · rw [h₄, hhash]
  · intro key
    have h := hl.get (Hp.keyNibs key)
    have h' := getNibbles_spec hr (Hp.keyNibs key)
    rw [Hp.map_toByte_keyNibs] at h h'
    show (getNibbles _ m').1 = (getNibbles _ m).1
    rw [h, h', hget]
  · rw [h₃, henc]

theorem encodable_samplePartial : Encodable sampleEnv samplePartial :=
  have hleaf : (payload sampleEnv (leaf [3] [5])).length < 2 ^ 64 := by decide
  fork_forall (Q := fun t => t ≠ hole ∧ Encodable sampleEnv t) (by simp [Encodable])
    (by simp [Encodable]) (u := leaf [3] [5]) ⟨by simp, hleaf⟩ 1 2

theorem codec_round_trip_sample :
    ∃ bytes m' rest, (encodeTrie sampleEnv (sampleArena (.digest sampleDigest.bytes))).1 = .ok bytes ∧
      decodeTrie sampleEnv bytes 3 = .ok (m', rest) ∧
      (∃ root, (hash sampleEnv m').1 = .ok root ∧
        (hash sampleEnv (sampleArena (.digest sampleDigest.bytes))).1 = .ok root) ∧
      (∀ key, (get key m').1 = (get key (sampleArena (.digest sampleDigest.bytes))).1) ∧
      (encodeTrie sampleEnv m').1 = .ok bytes :=
  codec_round_trip inverse_decodeHeader represents_samplePartial encodable_samplePartial 3

end Mpt
end CenoReth
