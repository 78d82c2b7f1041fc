/-
Nodes as they stand in the arena.

The nodes of a proof are read without a look at their paths, so they need not be
those of a `Trie`: the path of a leaf or an extension is any byte string.
`RawTrie` is the tree of such nodes.  In the arenas that parsing and resolution
build, every node comes after its children.  Such an arena is unfolded by
`treeAt`, and the encoder of `Mpt/Reference.lean` computes the encoding, the
reference and the hash of the tree.
-/
import CenoReth.Mpt.Codec

namespace CenoReth

/-- A tree of nodes with unchecked paths. -/
inductive RawTrie where
  | null
  | digest (d : B256)
  | leaf (path value : Bytes)
  | ext (path : Bytes) (child : RawTrie)
  | branch (children : Nibble → RawTrie)

namespace RawTrie

open Trie (encodeRef)

variable (E : Env)

def refOf : RawTrie → Bytes → NodeRef
  | null, _ => .bytes [Rlp.emptyStringCode]
  | digest d, _ => .digest d.bytes
  | _, rlp => if rlp.length < 32 then .bytes rlp else .digest (E.keccak256 rlp).bytes

def wrap : RawTrie → Bytes → Bytes
  | null, _ => [Rlp.emptyStringCode]
  | digest d, _ => Rlp.encodeString d.bytes
  | _, payload => Rlp.encodeList payload

def payload : RawTrie → Bytes
  | null => []
  | digest d => d.bytes
  | leaf path value => Rlp.encodeString path ++ Rlp.encodeString value
  | ext path c => Rlp.encodeString path ++ encodeRef (refOf E c (wrap c (payload c)))
  | branch c =>
    ((List.finRange 16).map fun i => encodeRef (refOf E (c i) (wrap (c i) (payload (c i))))).flatten
      ++ [Rlp.emptyStringCode]

/-- The encoding of the root node. -/
def rlp (t : RawTrie) : Bytes := wrap t (payload E t)

/-- The reference of the root node. -/
def ref (t : RawTrie) : NodeRef := refOf E t (rlp E t)

/-- The root hash. -/
def hash : RawTrie → B256
  | null => E.emptyRootHash
  | digest d => d
  | t => E.keccak256 (rlp E t)

/-- A leaf, an extension or a branch. -/
def isList : RawTrie → Prop
  | null => False
  | digest _ => False
  | _ => True

variable {E}

theorem node_cases (t : RawTrie) : t = null ∨ (∃ d, t = digest d) ∨ isList t := by
  cases t <;> simp [isList]

theorem payload_ext (path : Bytes) (c : RawTrie) :
    payload E (ext path c) = Rlp.encodeString path ++ encodeRef (ref E c) := rfl

theorem payload_branch (c : Nibble → RawTrie) :
    payload E (branch c) =
      ((List.finRange 16).map fun i => encodeRef (ref E (c i))).flatten ++
        [Rlp.emptyStringCode] := rfl

theorem ref_of_isList {t : RawTrie} (h : isList t) :
    ref E t = if (rlp E t).length < 32 then .bytes (rlp E t)
      else .digest (E.keccak256 (rlp E t)).bytes := by
  cases t <;> simp_all [isList, ref, refOf]

theorem rlp_of_isList {t : RawTrie} (h : isList t) : rlp E t = Rlp.encodeList (payload E t) := by
  cases t <;> simp_all [isList, rlp, wrap]

theorem hash_of_isList {t : RawTrie} (h : isList t) : hash E t = E.keccak256 (rlp E t) := by
  cases t <;> simp_all [isList, hash]

/-- A reference is 32 bytes of hash or fewer bytes of encoding. -/
theorem ref_length (t : RawTrie) :
    (∃ d, ref E t = .digest d ∧ d.length = 32) ∨ (∃ b, ref E t = .bytes b ∧ b.length < 32) := by
  rcases node_cases t with rfl | ⟨d, rfl⟩ | hl
  · exact .inr ⟨_, rfl, by simp⟩
  · exact .inl ⟨_, rfl, d.length_bytes⟩
  · rw [ref_of_isList hl]
    split
    · rename_i h
      exact .inr ⟨_, rfl, h⟩
    · exact .inl ⟨_, rfl, B256.length_bytes _⟩

/-! ## Encodings determine references -/

open Rlp

variable (E) in
/-- The reference of a node, as an item of its parent. -/
def refItem (t : RawTrie) : Item :=
  match t with
  | null => .str []
  | digest d => .str d.bytes
  | t => if (rlp E t).length < 32 then .list (payload E t) else .str (E.keccak256 (rlp E t)).bytes

theorem refItem_of_isList {t : RawTrie} (h : isList t) :
    refItem E t = if (rlp E t).length < 32 then .list (payload E t)
      else .str (E.keccak256 (rlp E t)).bytes := by
  cases t <;> simp_all [isList, refItem]

theorem encodeRef_eq (t : RawTrie) : encodeRef (ref E t) = (refItem E t).encode := by
  rcases node_cases t with rfl | ⟨d, rfl⟩ | hl
  · rfl
  · exact (encodeString_word d.length_bytes).symm
  · rw [ref_of_isList hl, refItem_of_isList hl]
    split
    · exact rlp_of_isList hl
    · exact (encodeString_word (B256.length_bytes _)).symm

theorem refItem_fits (t : RawTrie) : (refItem E t).Fits := by
  rcases node_cases t with rfl | ⟨d, rfl⟩ | hl
  · simp [refItem, Item.Fits]
  · simp [refItem, Item.Fits, d.length_bytes]
  · rw [refItem_of_isList hl]
    split
    · rename_i h
      rw [rlp_of_isList hl, length_encodeList] at h
      exact Nat.lt_of_le_of_lt (Nat.le_add_right _ _) (h.trans (by decide))
    · simp [Item.Fits, B256.length_bytes]

theorem length_encodeRef_le (t : RawTrie) : (encodeRef (ref E t)).length ≤ 33 := by
  rcases ref_length (E := E) t with ⟨d, hr, hd⟩ | ⟨b, hr, hb⟩
  · simp [hr, encodeRef, hd]
  · simp only [hr, encodeRef]
    omega

theorem ref_of_encodeRef {t u : RawTrie} (h : encodeRef (ref E t) = encodeRef (ref E u)) :
    ref E t = ref E u := by
  rcases ref_length (E := E) t with ⟨d, ht, hd⟩ | ⟨b, ht, hb⟩ <;>
    rcases ref_length (E := E) u with ⟨d', hu, hd'⟩ | ⟨b', hu, hb'⟩ <;>
    rw [ht, hu] at h ⊢ <;> simp only [encodeRef] at h
  · rw [(List.cons.inj h).2]
  · have hlen := congrArg List.length h
    simp only [List.length_cons] at hlen
    omega
  · have hlen := congrArg List.length h
    simp only [List.length_cons] at hlen
    omega
  · rw [h]

theorem encodeList_inj {a b : Bytes} (ha : a.length < 2 ^ 64) (hb : b.length < 2 ^ 64)
    (h : encodeList a = encodeList b) : a = b := by
  have hab := Item.encode_append_inj (a := .list a) (b := .list b) (x := []) (y := []) ha hb
    (by simpa [Item.encode] using h)
  exact Item.list.inj hab.1

theorem stringLength_le (b : Bytes) : stringLength b ≤ b.length + 9 := by
  have hle := length_beBytes_le b.length
  unfold stringLength lengthOfLength
  split
  · omega
  · split <;> omega

/-- Two extensions with one path and one encoding have children with one reference. -/
theorem rlp_ext_inj {path : Bytes} (hpath : path.length < 2 ^ 63) {c c' : RawTrie} :
    rlp E (ext path c) = rlp E (ext path c') ↔ ref E c = ref E c' := by
  have hfit : ∀ t, (payload E (ext path t)).length < 2 ^ 64 := by
    intro t
    have h1 := stringLength_le path
    have h2 := length_encodeRef_le (E := E) t
    rw [payload_ext, List.length_append, length_encodeString]
    omega
  rw [rlp_of_isList (t := ext path c) trivial, rlp_of_isList (t := ext path c') trivial]
  constructor
  · intro h
    have hpay := encodeList_inj (hfit c) (hfit c') h
    rw [payload_ext, payload_ext] at hpay
    exact ref_of_encodeRef (List.append_cancel_left hpay)
  · intro h
    rw [payload_ext, payload_ext, h]

/-- Two branches with one encoding have children with one reference in every slot. -/
theorem rlp_branch_inj {c c' : Nibble → RawTrie} :
    rlp E (branch c) = rlp E (branch c') ↔ ∀ i, ref E (c i) = ref E (c' i) := by
  have hfit : ∀ c : Nibble → RawTrie, (payload E (branch c)).length < 2 ^ 64 := by
    intro c
    have hle := Mpt.length_flatten_le (f := fun i => encodeRef (ref E (c i))) (n := 33)
      (List.finRange 16) fun i _ => length_encodeRef_le (c i)
    rw [List.length_finRange] at hle
    rw [payload_branch, List.length_append, List.length_singleton]
    omega
  rw [rlp_of_isList (t := branch c) trivial, rlp_of_isList (t := branch c') trivial]
  constructor
  · intro h i
    have hpay := encodeList_inj (hfit c) (hfit c') h
    rw [payload_branch, payload_branch] at hpay
    have hflat := List.append_cancel_right hpay
    have hitems : ∀ c : Nibble → RawTrie,
        ((List.finRange 16).map fun i => encodeRef (ref E (c i))).flatten =
          (((List.finRange 16).map fun i => refItem E (c i)).map Item.encode).flatten := by
      intro c
      simp only [encodeRef_eq, List.map_map, Function.comp_def]
    have hfits : ∀ c : Nibble → RawTrie,
        ∀ a ∈ (List.finRange 16).map fun i => refItem E (c i), a.Fits := by
      intro c a ha
      obtain ⟨i, _, rfl⟩ := List.mem_map.mp ha
      exact refItem_fits (c i)
    rw [hitems, hitems] at hflat
    have hmap := items_injective (hfits c) (hfits c') hflat
    have hi := List.map_inj_left.mp hmap i (List.mem_finRange i)
    exact ref_of_encodeRef (by rw [encodeRef_eq, encodeRef_eq, hi])
  · intro h
    simp only [payload_branch, h]

end RawTrie

namespace Mpt

open RawTrie
open Trie (encodeRef)

variable {E : Env}

/-! ## Unfolding an arena -/

/-- The nodes of the arena, without the cached references. -/
def dataAt (m : Mpt) (id : NodeId) : Option NodeData := m.cells[id]?.map Cell.data

/-- The tree of a node whose children are already unfolded. -/
def ofData (tree : NodeId → RawTrie) : NodeData → RawTrie
  | .null => .null
  | .branch ids => .branch fun i => (ids i).elim .null tree
  | .leaf path value => .leaf path value
  | .extension path j => .ext path (tree j)
  | .digest d => (B256.fromSlice d).elim .null .digest

def readTree (m : Mpt) : Nat → NodeId → RawTrie
  | 0, _ => .null
  | n + 1, id => (m.dataAt id).elim .null (ofData (readTree m n))

/-- The tree below an index. -/
def treeAt (m : Mpt) (id : NodeId) : RawTrie := readTree m (id + 1) id

/-- The tree of the whole arena. -/
def tree (m : Mpt) : RawTrie := treeAt m m.rootId

/-- What may stand at an index: the children come before it, and a digest is a hash.  A path
is a slice, which has fewer than 2^63 bytes. -/
def Precedes (id : NodeId) : NodeData → Prop
  | .branch ids => ∀ i j, ids i = some j → j < id
  | .extension path j => j < id ∧ path.length < 2 ^ 63
  | .digest d => d.length = 32
  | _ => True

def Ascending (m : Mpt) : Prop := ∀ id data, m.dataAt id = some data → Precedes id data

theorem ofData_congr {f g : NodeId → RawTrie} {id : NodeId} {data : NodeData}
    (hp : Precedes id data) (h : ∀ j, j < id → f j = g j) : ofData f data = ofData g data := by
  cases data with
  | branch ids =>
    have hi : ∀ i, (ids i).elim RawTrie.null f = (ids i).elim RawTrie.null g := by
      intro i
      cases hj : ids i with
      | none => rfl
      | some j => exact h j (hp i j hj)
    simp only [ofData, hi]
  | extension path j => simp only [ofData, h j hp.1]
  | _ => rfl

theorem dataAt_of_cell {m : Mpt} {id : NodeId} {c : Cell} (h : m.cells[id]? = some c) :
    m.dataAt id = some c.data := by simp [dataAt, h]

theorem cell_of_dataAt {m : Mpt} {id : NodeId} {data : NodeData} (h : m.dataAt id = some data) :
    ∃ r, m.cells[id]? = some ⟨data, r⟩ := by
  obtain ⟨c, hc, rfl⟩ := Option.map_eq_some_iff.mp h
  exact ⟨c.cachedReference, hc⟩

theorem exists_dataAt {m : Mpt} {id : NodeId} (h : id < m.size) : ∃ data, m.dataAt id = some data :=
  ⟨_, dataAt_of_cell (List.getElem?_eq_getElem h)⟩

theorem lt_size_of_dataAt {m : Mpt} {id : NodeId} {data : NodeData} (h : m.dataAt id = some data) :
    id < m.size := by
  obtain ⟨r, hc⟩ := cell_of_dataAt h
  exact lt_size hc

/-- Two arenas with the same nodes up to an index unfold to the same trees there. -/
theorem readTree_agree {m m' : Mpt} (hm : Ascending m) {N : Nat}
    (h : ∀ k, k < N → m'.dataAt k = m.dataAt k) :
    ∀ n n' id, id < n → id < n' → id < N → readTree m' n' id = readTree m n id := by
  intro n
  induction n with
  | zero =>
    intro n' id hn
    omega
  | succ n ih =>
    intro n' id hn hn' hN
    obtain ⟨n', rfl⟩ : ∃ k, n' = k + 1 := ⟨n' - 1, by omega⟩
    simp only [readTree, h id hN]
    cases hd : m.dataAt id with
    | none => rfl
    | some data =>
      exact ofData_congr (hm id data hd) fun j hj =>
        ih n' j (hj.trans_le (Nat.le_of_lt_succ hn)) (hj.trans_le (Nat.le_of_lt_succ hn'))
          (hj.trans hN)

theorem treeAt_agree {m m' : Mpt} (hm : Ascending m) {id : NodeId}
    (h : ∀ k, k < id + 1 → m'.dataAt k = m.dataAt k) : treeAt m' id = treeAt m id :=
  readTree_agree hm h (id + 1) (id + 1) id (Nat.lt_succ_self id) (Nat.lt_succ_self id)
    (Nat.lt_succ_self id)

/-- One node, and the trees of its children. -/
theorem treeAt_eq {m : Mpt} (hm : Ascending m) {id : NodeId} {data : NodeData}
    (hd : m.dataAt id = some data) : treeAt m id = ofData (treeAt m) data := by
  unfold treeAt
  rw [readTree, hd]
  exact ofData_congr (hm id data hd) fun j hj =>
    readTree_agree hm (fun _ _ => rfl) (j + 1) id j (Nat.lt_succ_self j) hj (Nat.lt_succ_self j)

/-- The children come before their parents, and a cached reference is the reference of its
node. -/
structure Ordered (E : Env) (m : Mpt) : Prop where
  ascending : Ascending m
  cached : ∀ id data r, m.cells[id]? = some ⟨data, some r⟩ → r = ref E (treeAt m id)

/-- Only cached references were written. -/
structure Recaches (E : Env) (m m' : Mpt) : Prop where
  rootId : m'.rootId = m.rootId
  data : ∀ id, m'.dataAt id = m.dataAt id
  ordered : Ordered E m → Ordered E m'

theorem Recaches.refl (m : Mpt) : Recaches E m m := ⟨rfl, fun _ => rfl, fun h => h⟩

theorem Recaches.trans {m m' m'' : Mpt} (h : Recaches E m m') (h' : Recaches E m' m'') :
    Recaches E m m'' :=
  ⟨h'.rootId.trans h.rootId, fun k => (h'.data k).trans (h.data k),
    fun hm => h'.ordered (h.ordered hm)⟩

theorem Recaches.treeAt {m m' : Mpt} (h : Recaches E m m') (hm : Ordered E m) (id : NodeId) :
    treeAt m' id = treeAt m id :=
  treeAt_agree hm.ascending fun k _ => h.data k

theorem Recaches.tree {m m' : Mpt} (h : Recaches E m m') (hm : Ordered E m) :
    m'.tree = m.tree := by
  unfold Mpt.tree
  rw [h.rootId, h.treeAt hm]

theorem Recaches.lt_size {m m' : Mpt} (h : Recaches E m m') {id : NodeId} (hid : id < m.size) :
    id < m'.size := by
  obtain ⟨data, hd⟩ := exists_dataAt hid
  exact lt_size_of_dataAt ((h.data id).trans hd)

/-- The reference of a node may be cached. -/
theorem recaches_setCell {m : Mpt} {id : NodeId} {data : NodeData} {r : Option NodeRef}
    (hc : m.cells[id]? = some ⟨data, r⟩) :
    Recaches E m (m.setCell id ⟨data, some (ref E (treeAt m id))⟩) := by
  have hdata : ∀ k, (m.setCell id ⟨data, some (ref E (treeAt m id))⟩).dataAt k = m.dataAt k := by
    intro k
    by_cases hk : k = id
    · subst hk
      simp [dataAt, hc, cells_setCell_self (lt_size hc)]
    · simp [dataAt, cells_setCell_ne hk]
  refine ⟨rfl, hdata, fun hm => ⟨fun k data' hd => hm.ascending k data' ((hdata k).symm.trans hd),
    fun k data' r' hk => ?_⟩⟩
  rw [treeAt_agree hm.ascending fun j _ => hdata j]
  by_cases hkid : k = id
  · subst hkid
    rw [cells_setCell_self (lt_size hc)] at hk
    simp only [Option.some.injEq, Cell.mk.injEq] at hk
    exact hk.2.symm
  · rw [cells_setCell_ne hkid] at hk
    exact hm.cached k data' r' hk

/-! ## The encoder -/

/-- `compute` returns the reference of the node at an index. -/
def Refers (E : Env) (compute : NodeId → TrieM NodeRef) (id : NodeId) : Prop :=
  ∀ m, Ordered E m → id < m.size →
    ∃ m', compute id m = (.ok (ref E (treeAt m id)), m') ∧ Recaches E m m'

section Encoder

variable {compute : NodeId → TrieM NodeRef}

theorem cachedReference_refers {id : NodeId} (h : Refers E compute id) :
    Refers E (cachedReference compute) id := by
  intro m hm hid
  obtain ⟨data, hd⟩ := exists_dataAt hid
  obtain ⟨r, hc⟩ := cell_of_dataAt hd
  unfold cachedReference
  rw [Exec.bind_ok (cacheAt_ok hc)]
  cases r with
  | some r =>
    rw [hm.cached id data r hc]
    exact ⟨m, rfl, Recaches.refl m⟩
  | none =>
    obtain ⟨m₁, h₁, hr₁⟩ := h m hm hid
    obtain ⟨r₁, hc₁⟩ := cell_of_dataAt ((hr₁.data id).trans hd)
    have hset := recaches_setCell (E := E) hc₁
    rw [hr₁.treeAt hm] at hset
    refine ⟨_, ?_, hr₁.trans hset⟩
    exact (Exec.bind_ok h₁).trans (Exec.bind_ok (setCache_ok hc₁ _))

theorem referenceLength_refers {id : NodeId} (h : Refers E compute id) {m : Mpt}
    (hm : Ordered E m) (hid : id < m.size) :
    ∃ m', referenceLength compute id m = (.ok (encodeRef (ref E (treeAt m id))).length, m') ∧
      Recaches E m m' := by
  obtain ⟨m', hm', hr⟩ := cachedReference_refers h m hm hid
  refine ⟨m', ?_, hr⟩
  unfold referenceLength
  rw [Exec.bind_ok hm']
  rcases ref_length (E := E) (treeAt m id) with ⟨d, he, hd⟩ | ⟨b, he, _⟩
  · rw [he]
    simp [encodeRef, hd]
  · rw [he]
    rfl

theorem referenceEncode_refers {id : NodeId} (h : Refers E compute id) {m : Mpt}
    (hm : Ordered E m) (hid : id < m.size) :
    ∃ m', referenceEncode compute id m = (.ok (encodeRef (ref E (treeAt m id))), m') ∧
      Recaches E m m' := by
  obtain ⟨m', hm', hr⟩ := cachedReference_refers h m hm hid
  refine ⟨m', ?_, hr⟩
  unfold referenceEncode
  rw [Exec.bind_ok hm']
  cases ref E (treeAt m id) <;> rfl

/-- The loop over the slots of a branch. -/
theorem collect_children {α : Type} {f : NodeId → TrieM α} {a : α} {g : RawTrie → α}
    (ha : a = g .null) {ids : Nibble → Option NodeId} {m : Mpt} (hm : Ordered E m)
    (hids : ∀ i j, ids i = some j → j < m.size)
    (hf : ∀ i j m', ids i = some j → Ordered E m' → j < m'.size →
      ∃ m'', f j m' = (.ok (g (treeAt m' j)), m'') ∧ Recaches E m' m'') :
    ∃ m', Exec.collect (fun i => match ids i with
        | some j => f j
        | none => pure a) (List.finRange 16) m =
      (.ok ((List.finRange 16).map fun i => g ((ids i).elim .null (treeAt m))), m') ∧
      Recaches E m m' := by
  refine Exec.collect_ok (R := Recaches E) Recaches.refl (fun _ _ _ => Recaches.trans) _ m ?_
  intro i _ m₁ hr₁
  cases hj : ids i with
  | none => exact ⟨m₁, by simp [ha], Recaches.refl m₁⟩
  | some j =>
    obtain ⟨m₂, h₂, hr₂⟩ := hf i j m₁ hj (hr₁.ordered hm) (hr₁.lt_size (hids i j hj))
    rw [hr₁.treeAt hm] at h₂
    exact ⟨m₂, h₂, hr₂⟩

variable {id : NodeId} (hcomp : ∀ j, j < id → Refers E compute j)

include hcomp

theorem payloadLength_refers {m : Mpt} (hm : Ordered E m) (hid : id < m.size) :
    ∃ m', payloadLength compute id m = (.ok (payload E (treeAt m id)).length, m') ∧
      Recaches E m m' := by
  obtain ⟨data, hd⟩ := exists_dataAt hid
  obtain ⟨r, hc⟩ := cell_of_dataAt hd
  have hp := hm.ascending id data hd
  rw [treeAt_eq hm.ascending hd]
  unfold payloadLength
  rw [Exec.bind_ok (nodeAt_ok hc)]
  cases data with
  | null => exact ⟨m, rfl, Recaches.refl m⟩
  | digest d =>
    have hlen : d.length = 32 := hp
    refine ⟨m, ?_, Recaches.refl m⟩
    simp [ofData, B256.fromSlice, hlen, payload]
  | leaf path value =>
    refine ⟨m, ?_, Recaches.refl m⟩
    simp only [ofData, payload, List.length_append, Rlp.length_encodeString]
    rfl
  | extension path j =>
    obtain ⟨m', hm', hr⟩ := referenceLength_refers (hcomp j hp.1) hm (hp.1.trans hid)
    refine ⟨m', ?_, hr⟩
    simp only [ofData, payload_ext, List.length_append, Rlp.length_encodeString]
    exact Exec.bind_ok hm'
  | branch ids =>
    obtain ⟨m', hm', hr⟩ := collect_children (f := referenceLength compute) (a := 1)
      (g := fun t => (encodeRef (ref E t)).length) rfl hm
      (fun i j hj => (hp i j hj).trans hid)
      (fun i j m' hj h hlt => referenceLength_refers (hcomp j (hp i j hj)) h hlt)
    refine ⟨m', ?_, hr⟩
    refine (Exec.bind_ok (.trans ?_ hm')).trans ?_
    · congr 2
      funext i
      cases ids i <;> rfl
    · simp [ofData, payload_branch, Nat.add_comm, Function.comp_def]

theorem encodeWithPayloadLen_refers {m : Mpt} (hm : Ordered E m) (hid : id < m.size) :
    ∃ m', encodeWithPayloadLen compute id (payload E (treeAt m id)).length m =
        (.ok (rlp E (treeAt m id)), m') ∧ Recaches E m m' := by
  obtain ⟨data, hd⟩ := exists_dataAt hid
  obtain ⟨r, hc⟩ := cell_of_dataAt hd
  have hp := hm.ascending id data hd
  rw [treeAt_eq hm.ascending hd]
  unfold encodeWithPayloadLen
  rw [Exec.bind_ok (nodeAt_ok hc)]
  cases data with
  | null => exact ⟨m, rfl, Recaches.refl m⟩
  | digest d =>
    have hlen : d.length = 32 := hp
    refine ⟨m, ?_, Recaches.refl m⟩
    simp [ofData, B256.fromSlice, hlen, rlp, wrap]
  | leaf path value =>
    refine ⟨m, ?_, Recaches.refl m⟩
    simp [ofData, rlp, wrap, Rlp.encodeList, payload]
  | extension path j =>
    obtain ⟨m', hm', hr⟩ := referenceEncode_refers (hcomp j hp.1) hm (hp.1.trans hid)
    refine ⟨m', ?_, hr⟩
    refine (Exec.bind_ok hm').trans ?_
    simp [ofData, rlp, wrap, Rlp.encodeList, payload_ext]
  | branch ids =>
    obtain ⟨m', hm', hr⟩ := collect_children (f := referenceEncode compute)
      (a := [Rlp.emptyStringCode]) (g := fun t => encodeRef (ref E t)) rfl hm
      (fun i j hj => (hp i j hj).trans hid)
      (fun i j m' hj h hlt => referenceEncode_refers (hcomp j (hp i j hj)) h hlt)
    refine ⟨m', (Exec.bind_ok hm').trans ?_, hr⟩
    simp [ofData, rlp, wrap, Rlp.encodeList, payload_branch]

end Encoder

/-- With enough stack, the reference of every node is computed. -/
theorem calcReference_refers : ∀ {fuel : Nat} {id : NodeId}, id < fuel →
    Refers E (calcReference E fuel) id := by
  intro fuel
  induction fuel with
  | zero =>
    intro id hid
    exact absurd hid (Nat.not_lt_zero id)
  | succ fuel ih =>
    intro id hlt m hm hid
    obtain ⟨data, hd⟩ := exists_dataAt hid
    obtain ⟨r, hc⟩ := cell_of_dataAt hd
    have hp := hm.ascending id data hd
    have hcomp : ∀ j, j < id → Refers E (calcReference E fuel) j := fun j hj =>
      ih (hj.trans_le (Nat.le_of_lt_succ hlt))
    obtain ⟨m₁, h₁, hr₁⟩ := payloadLength_refers hcomp hm hid
    obtain ⟨m₂, h₂, hr₂⟩ :=
      encodeWithPayloadLen_refers hcomp (hr₁.ordered hm) (hr₁.lt_size hid)
    rw [hr₁.treeAt hm] at h₂
    have hrest (hl : isList (treeAt m id)) :
        (payloadLength (calcReference E fuel) id >>= fun payloadLength => do
          let rlpLength := payloadLength + Rlp.lengthOfLength payloadLength
          let encoded ← encodeWithPayloadLen (calcReference E fuel) id payloadLength
          if rlpLength < 32 then pure (.bytes encoded)
          else pure (.digest (E.keccak256 encoded).bytes)) m = (.ok (ref E (treeAt m id)), m₂) := by
      refine (Exec.bind_ok h₁).trans ((Exec.bind_ok h₂).trans ?_)
      have hlen : (payload E (treeAt m id)).length +
          Rlp.lengthOfLength (payload E (treeAt m id)).length = (rlp E (treeAt m id)).length := by
        rw [rlp_of_isList hl, Rlp.length_encodeList]
      rw [hlen, ref_of_isList hl]
      split <;> rfl
    have htree := treeAt_eq hm.ascending hd
    unfold calcReference
    rw [Exec.bind_ok (nodeAt_ok hc)]
    cases data with
    | null => exact ⟨m, by rw [htree]; rfl, Recaches.refl m⟩
    | digest d =>
      have hlen : d.length = 32 := hp
      refine ⟨m, ?_, Recaches.refl m⟩
      rw [htree]
      simp [ofData, B256.fromSlice, hlen, ref, refOf]
    | _ => exact ⟨m₂, hrest (by rw [htree]; trivial), hr₁.trans hr₂⟩

/-- The hash of an arena is the hash of its tree. -/
theorem hash_tree {m : Mpt} (hm : Ordered E m) (hroot : m.rootId < m.size) :
    ∃ m', hash E m = (.ok (RawTrie.hash E m.tree), m') ∧ Recaches E m m' := by
  obtain ⟨data, hd⟩ := exists_dataAt hroot
  obtain ⟨r, hc⟩ := cell_of_dataAt hd
  have hp := hm.ascending m.rootId data hd
  have htree : m.tree = ofData (treeAt m) data := treeAt_eq hm.ascending hd
  obtain ⟨m', hm', hr⟩ := cachedReference_refers (calcReference_refers hroot) m hm hroot
  have hrest : (withStack (fun fuel => cachedReference (calcReference E fuel) m.rootId) >>=
      referenceHash E) m = referenceHash E (ref E m.tree) m' :=
    Exec.bind_ok ((withStack_apply _ m).trans hm')
  unfold hash
  rw [Exec.bind_ok (Exec.read_apply _ m), Exec.bind_ok (nodeAt_ok hc)]
  cases data with
  | null => exact ⟨m, by rw [htree]; rfl, Recaches.refl m⟩
  | digest d =>
    have hlen : d.length = 32 := hp
    refine ⟨m', hrest.trans ?_, hr⟩
    rw [htree]
    simp [ofData, B256.fromSlice, hlen, ref, refOf, referenceHash, RawTrie.hash]
  | _ =>
    have hl : isList m.tree := by rw [htree]; trivial
    refine ⟨m', hrest.trans ?_, hr⟩
    rw [ref_of_isList hl, hash_of_isList hl]
    split
    · rfl
    · simp [referenceHash]

end Mpt
end CenoReth
