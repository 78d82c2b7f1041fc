/-
Tries from proofs (`crates/mpt/src/from_proof.rs`, and `decode_from_proof_rlp` of
`crates/mpt/src/trie.rs`).

A proof is a list of encoded nodes, the root first.  Each node is parsed into an
arena of its own, the arenas are stored under their hashes, and the digests are
resolved through this store into a new arena.  An inlined child is part of the
node that contains it, and a node that is just a digest is accepted: it is stored
under the digest itself.
-/
import CenoReth.Mpt.Parse
import CenoReth.Mpt.ProofNode
import CenoReth.Mpt.Resolution
import Mathlib.Data.List.Find

namespace CenoReth
namespace Mpt

open Rlp

section Model

variable (E : Env)

/-! ## The model -/

/-- `Mpt::decode_from_proof_rlp_internal`. -/
def decodeFromProofRlpInternal : Nat → Bytes → TrieM NodeId
  | 0, _ => Exec.fail .stackOverflow
  | fuel + 1, bytes =>
    decodeNode E (decodeFromProofRlpInternal fuel)
      (fun item => addNode (.digest item) (some (.digest item))) bytes

/-- `Mpt::decode_from_proof_rlp`. -/
def decodeFromProofRlp (fuel : Nat) (bytes : Bytes) : Except Halt Mpt :=
  match decodeFromProofRlpInternal E fuel bytes new with
  | (.ok rootId, m) => .ok { m with rootId := rootId }
  | (.error h, _) => .error h

def parseProof (fuel : Nat) (proof : List Bytes) : Except Halt (List Mpt) :=
  proof.mapM (decodeFromProofRlp E fuel)

/-- `(node.hash(), node.clone())`. -/
def hashEntry (node : Mpt) : Except Halt (B256 × Mpt) :=
  match hash E node with
  | (.ok h, node) => .ok (h, node)
  | (.error h, _) => .error h

/-- The map collected from the entries.  Of two entries with one key the later one stays. -/
def collectStore (entries : List (B256 × Mpt)) (digest : B256) : Option Mpt :=
  (entries.reverse.find? fun entry => entry.1 = digest).map Prod.snd

/-- One node of `cur_trie`, copied with its digests resolved. -/
def resolveNode (nodeStore : B256 → Option Mpt) (resolve : Mpt → NodeId → TrieM NodeId)
    (curTrie : Mpt) : NodeData → TrieM NodeId
  | .null => addNode .null none
  | .leaf path value => addNode (.leaf path value) none
  | .branch childs => do
    let resolvedChildren ← Exec.collect
      (fun i => match childs i with
        | some childId => do
          let resolvedChildId ← resolve curTrie childId
          pure (some resolvedChildId)
        | none => pure none) (List.finRange 16)
    addNode (.branch fun i => resolvedChildren[i.val]?.join) none
  | .extension path childId => do
    let resolvedChildId ← resolve curTrie childId
    addNode (.extension path resolvedChildId) none
  | .digest digest => do
    match nodeStore (← orPanic (B256.fromSlice digest)) with
    | some trie => resolve trie trie.rootId
    | none => addNode (.digest digest) none

def resolveNodesInternal (nodeStore : B256 → Option Mpt) : Nat → Mpt → NodeId → TrieM NodeId
  | 0, _, _ => Exec.fail .stackOverflow
  | fuel + 1, curTrie, id => do
    let curData ← orPanic (curTrie.dataAt id)
    resolveNode nodeStore (resolveNodesInternal nodeStore fuel) curTrie curData

def resolveNodes (fuel : Nat) (root : Mpt) (nodeStore : B256 → Option Mpt) : Except Halt Mpt :=
  match resolveNodesInternal nodeStore fuel root root.rootId new with
  | (.ok rootId, m) => .ok { m with rootId := rootId }
  | (.error h, _) => .error h

def mptFromProof (fuel : Nat) (proofNodes : List Mpt) : Except Halt Mpt := do
  let entries ← proofNodes.mapM (hashEntry E)
  match entries with
  | [] => .ok new
  | (_, rootNode) :: _ => resolveNodes fuel rootNode (collectStore entries)

end Model

open RawTrie

variable {E : Env}

/-! ## Growing arenas -/

/-- Nodes were appended, and the order of the arena was kept. -/
structure Adds (E : Env) (m m' : Mpt) : Prop where
  ext : Extends m m'
  ordered : Ordered E m → Ordered E m'

theorem Adds.refl (m : Mpt) : Adds E m m := ⟨List.prefix_rfl, fun h => h⟩

theorem Adds.trans {m m' m'' : Mpt} (h : Adds E m m') (h' : Adds E m' m'') : Adds E m m'' :=
  ⟨h.ext.trans h'.ext, fun hm => h'.ordered (h.ordered hm)⟩

theorem Adds.lt_size {m m' : Mpt} (h : Adds E m m') {id : NodeId} (hid : id < m.size) :
    id < m'.size := hid.trans_le h.ext.size_le

theorem Extends.dataAt {m m' : Mpt} (h : Extends m m') {id : NodeId} (hid : id < m.size) :
    m'.dataAt id = m.dataAt id := by
  obtain ⟨data, hd⟩ := exists_dataAt hid
  obtain ⟨r, hc⟩ := cell_of_dataAt hd
  rw [hd, dataAt_of_cell (h.cell hc)]

theorem Extends.treeAt {m m' : Mpt} (h : Extends m m') (hm : Ordered E m) {id : NodeId}
    (hid : id < m.size) : treeAt m' id = treeAt m id :=
  treeAt_agree hm.ascending fun _ hk => h.dataAt ((Nat.le_of_lt_succ hk).trans_lt hid)

/-- A node is appended after its children. -/
theorem ordered_push {m : Mpt} (hm : Ordered E m) {data : NodeData} {r : Option NodeRef}
    (hp : Precedes m.size data) (hr : ∀ s, r = some s → s = ref E (ofData (treeAt m) data)) :
    Ordered E (m.push ⟨data, r⟩) ∧
      treeAt (m.push ⟨data, r⟩) m.size = ofData (treeAt m) data := by
  have hext := extends_push m ⟨data, r⟩
  have hself : (m.push ⟨data, r⟩).dataAt m.size = some data :=
    dataAt_of_cell (cells_push_self m _)
  have hcases : ∀ id data', (m.push ⟨data, r⟩).dataAt id = some data' →
      id < m.size ∨ (id = m.size ∧ data' = data) := by
    intro id data' hd
    have hlt := lt_size_of_dataAt hd
    rw [size_push] at hlt
    rcases Nat.lt_or_eq_of_le (Nat.le_of_lt_succ hlt) with hlt | rfl
    · exact .inl hlt
    · exact .inr ⟨rfl, Option.some.inj (hd.symm.trans hself)⟩
  have hasc : Ascending (m.push ⟨data, r⟩) := by
    intro id data' hd
    rcases hcases id data' hd with hlt | ⟨rfl, rfl⟩
    · exact hm.ascending id data' ((hext.dataAt hlt).symm.trans hd)
    · exact hp
  have htree : treeAt (m.push ⟨data, r⟩) m.size = ofData (treeAt m) data := by
    rw [treeAt_eq hasc hself]
    exact ofData_congr hp fun j hj => hext.treeAt hm hj
  refine ⟨⟨hasc, fun id data' s hc => ?_⟩, htree⟩
  rcases hcases id data' (dataAt_of_cell hc) with hlt | ⟨rfl, rfl⟩
  · rw [hext.treeAt hm hlt]
    rw [cells_push_lt hlt] at hc
    exact hm.cached id data' s hc
  · rw [htree]
    rw [cells_push_self] at hc
    exact hr s (by simpa using hc)

theorem ordered_new : Ordered E new := by
  refine ⟨fun id data hd => ?_, fun id data r hc => ?_⟩
  · obtain ⟨r, hc⟩ := cell_of_dataAt hd
    match id with
    | 0 =>
      simp only [new, List.getElem?_cons_zero, Option.some.injEq, Cell.mk.injEq] at hc
      rw [← hc.1]
      trivial
    | id + 1 => simp [new] at hc
  · match id with
    | 0 => simp [new] at hc
    | id + 1 => simp [new] at hc

/-! ## Parsing -/

/-- A step of the parser: it appends nodes in order and returns one of the arena. -/
def Parses (E : Env) (x : TrieM NodeId) : Prop :=
  ∀ m id m', Ordered E m → Based m → x m = (.ok id, m') → Adds E m m' ∧ id < m'.size

theorem addNode_adds {m : Mpt} {d : NodeData} {r : Option NodeRef} (hp : Precedes m.size d)
    (hr : ∀ s, r = some s → s = ref E (ofData (treeAt m) d)) :
    Adds E m (m.push ⟨d, r⟩) ∧ m.size < (m.push ⟨d, r⟩).size :=
  ⟨⟨extends_push m _, fun hm => (ordered_push hm hp hr).1⟩, by simp⟩

theorem of_addNode_ok {m m' : Mpt} {data : NodeData} {r : Option NodeRef} {id : NodeId}
    (h : addNode data r m = (.ok id, m')) : id = m.size ∧ m' = m.push ⟨data, r⟩ := by
  rw [addNode_ok, Prod.mk.injEq, Except.ok.injEq] at h
  exact ⟨h.1.symm, h.2.symm⟩

section Lengths

variable (hp : PrefixConsuming E.decodeHeader)

include hp

theorem takeItem_length {buf : Bytes} {t : Taken} (h : takeItem E buf = .ok t) :
    t.raw.length ≤ buf.length ∧ t.rest.length ≤ buf.length ∧ t.payload.length ≤ buf.length := by
  obtain ⟨hbuf, -, hpay⟩ := takeItem_ok hp h
  have hlen := congrArg List.length hbuf
  rw [List.length_append] at hlen
  omega

theorem splitItems_length : ∀ (n : Nat) {payload : Bytes} {items : List Bytes},
    splitItems E n payload = .ok items → ∀ b ∈ items, b.length ≤ payload.length := by
  intro n
  induction n with
  | zero =>
    intro payload items h
    cases payload with
    | nil =>
      obtain rfl : [] = items := Except.ok.inj h
      simp
    | cons x payload => cases h
  | succ n ih =>
    intro payload items h
    cases payload with
    | nil =>
      obtain rfl : [] = items := Except.ok.inj h
      simp
    | cons x payload =>
      rw [splitItems] at h
      obtain ⟨item, hitem, h⟩ := Exec.of_except_bind_ok h
      obtain ⟨items', hitems, h⟩ := Exec.of_except_bind_ok h
      obtain rfl := Except.ok.inj h
      obtain ⟨hraw, hrest, -⟩ := takeItem_length hp hitem
      intro b hb
      rcases List.mem_cons.mp hb with rfl | hb
      · exact hraw
      · exact (ih hitems b hb).trans hrest

theorem decodeRaw_length {buf : Bytes} {items : List Bytes}
    (h : decodeRaw E buf = .ok (.list items)) : ∀ b ∈ items, b.length ≤ buf.length := by
  unfold decodeRaw at h
  obtain ⟨item, hitem, h⟩ := Exec.of_except_bind_ok h
  split at h
  · obtain ⟨items', hitems, h⟩ := Exec.of_except_bind_ok h
    simp only [Except.ok.injEq, PayloadView.list.injEq] at h
    subst h
    exact fun b hb => (splitItems_length hp _ hitems b hb).trans (takeItem_length hp hitem).2.2
  · simp at h

theorem decodeBytes_length {buf b : Bytes} (h : decodeBytes E buf = .ok b) :
    b.length ≤ buf.length := by
  unfold decodeBytes at h
  obtain ⟨item, hitem, h⟩ := Exec.of_except_bind_ok h
  split at h
  · simp at h
  · obtain rfl := Except.ok.inj h
    exact (takeItem_length hp hitem).2.2

end Lengths

/-- The steps of `decode_from_proof_rlp_internal` on one node. -/
theorem decodeNode_parses (hp : PrefixConsuming E.decodeHeader) {child : Bytes → TrieM NodeId}
    {bytes : Bytes} (hlen : bytes.length < 2 ^ 63)
    (hchild : ∀ b, b.length < 2 ^ 63 → Parses E (child b)) :
    Parses E (decodeNode E child (fun item => addNode (.digest item) (some (.digest item)))
      bytes) := by
  intro m id m' hm hb h
  unfold decodeNode at h
  obtain ⟨view, m₁, h₁, h⟩ := Exec.of_bind_ok h
  obtain ⟨hview, rfl⟩ := Exec.of_ofExcept_ok h₁
  cases view with
  | string item =>
    simp only at h
    split at h
    · simp only [Exec.pure_apply, Prod.mk.injEq, Except.ok.injEq] at h
      obtain ⟨rfl, rfl⟩ := h
      exact ⟨Adds.refl _, lt_size hb⟩
    · split at h
      · rename_i hlen
        obtain ⟨rfl, rfl⟩ := of_addNode_ok h
        refine addNode_adds (d := .digest item) hlen fun s hs => ?_
        obtain rfl := Option.some.inj hs
        simp [ofData, B256.fromSlice, hlen, ref, refOf]
      · simp at h
  | list items =>
    have hitems : ∀ b ∈ items, b.length < 2 ^ 63 := fun b hb =>
      (decodeRaw_length hp hview b hb).trans_lt hlen
    have hget : ∀ k : Nat, (items[k]?.getD []).length < 2 ^ 63 := by
      intro k
      cases hk : items[k]? with
      | none => simp
      | some b => exact hitems b (List.mem_of_getElem? hk)
    simp only at h
    split at h
    · obtain ⟨path, m₂, h₂, hpre⟩ := Exec.of_bind_ok h
      obtain ⟨hpath, rfl⟩ := Exec.of_ofExcept_ok h₂
      obtain ⟨pre, m₃, h₃, hkind⟩ := Exec.of_bind_ok hpre
      obtain ⟨-, rfl⟩ := Exec.of_ofExcept_ok h₃
      have hshort := (decodeBytes_length hp hpath).trans_lt (hget 0)
      split at hkind
      · obtain ⟨j, m₄, h₄, hadd⟩ := Exec.of_bind_ok hkind
        obtain ⟨hadds, hj⟩ := hchild _ (hget 1) _ j m₄ hm hb h₄
        obtain ⟨rfl, rfl⟩ := of_addNode_ok hadd
        obtain ⟨hpush, hlt⟩ := addNode_adds (E := E) (m := m₄) (d := .extension path j)
          (r := none) ⟨hj, hshort⟩ (by simp)
        exact ⟨hadds.trans hpush, hlt⟩
      · obtain ⟨value, m₄, h₄, hadd⟩ := Exec.of_bind_ok hkind
        obtain ⟨-, rfl⟩ := Exec.of_ofExcept_ok h₄
        obtain ⟨rfl, rfl⟩ := of_addNode_ok hadd
        exact addNode_adds trivial (by simp)
    · split at h
      · split at h
        · simp at h
        · obtain ⟨ids, m₂, h₂, hadd⟩ := Exec.of_bind_ok h
          obtain ⟨hadds, hids⟩ := Exec.of_collect_ok (R := Adds E) Adds.refl
            (fun _ _ _ => Adds.trans) (Q := fun m _ j => j < m.size)
            (fun _ _ _ _ _ h hlt => h.lt_size hlt) _ (Adds.refl _)
            (fun b hmem s j s' hs hrun => hchild b (hitems b (List.mem_of_mem_take hmem)) s j s'
              (hs.ordered hm) (hb.extends hs.ext) hrun) h₂
          obtain ⟨rfl, rfl⟩ := of_addNode_ok hadd
          obtain ⟨hpush, hlt⟩ := addNode_adds (E := E) (m := m₂)
            (d := .branch fun i => (ids[i.val]?.map childId).join) (r := none)
            (fun i j hj => by
              obtain ⟨k, hk, hkj⟩ : ∃ k, ids[i.val]? = some k ∧ childId k = some j := by
                simpa [Option.join_eq_some_iff] using hj
              obtain rfl : k = j := by
                unfold childId at hkj
                split at hkj
                · simp at hkj
                · exact Option.some.inj hkj
              obtain ⟨_, _, hlt⟩ := Exec.exists_of_forall₂ hids (List.mem_of_getElem? hk)
              exact hlt) (by simp)
          exact ⟨hadds.trans hpush, hlt⟩
      · simp at h

theorem decodeFromProofRlpInternal_parses (hp : PrefixConsuming E.decodeHeader) :
    ∀ (fuel : Nat) (bytes : Bytes), bytes.length < 2 ^ 63 →
      Parses E (decodeFromProofRlpInternal E fuel bytes) := by
  intro fuel
  induction fuel with
  | zero =>
    intro bytes _ m id m' _ _ h
    simp [decodeFromProofRlpInternal] at h
  | succ fuel ih => exact fun bytes hlen => decodeNode_parses hp hlen ih

/-- What parsing returns: an ordered arena with a root. -/
structure Parsed (E : Env) (m : Mpt) : Prop where
  ordered : Ordered E m
  root : m.rootId < m.size

/-- The root index is not part of the tree. -/
theorem Ordered.setRoot {m : Mpt} (h : Ordered E m) (id : NodeId) :
    Ordered E { m with rootId := id } ∧ ∀ k, treeAt { m with rootId := id } k = treeAt m k := by
  have htree : ∀ k, treeAt { m with rootId := id } k = treeAt m k := fun k =>
    treeAt_agree h.ascending fun _ _ => rfl
  refine ⟨⟨h.ascending, fun k data r hc => ?_⟩, htree⟩
  rw [htree]
  exact h.cached k data r hc

theorem decodeFromProofRlp_parsed (hp : PrefixConsuming E.decodeHeader) {fuel : Nat} {bytes : Bytes}
    (hlen : bytes.length < 2 ^ 63) {m : Mpt} (h : decodeFromProofRlp E fuel bytes = .ok m) :
    Parsed E m := by
  unfold decodeFromProofRlp at h
  split at h
  · rename_i rootId m' hrun
    obtain rfl := Except.ok.inj h
    obtain ⟨hadds, hroot⟩ := decodeFromProofRlpInternal_parses hp fuel bytes hlen new rootId m'
      ordered_new rfl hrun
    exact ⟨((hadds.ordered ordered_new).setRoot rootId).1, hroot⟩
  · simp at h

theorem parseProof_parsed (hp : PrefixConsuming E.decodeHeader) {fuel : Nat} {proof : List Bytes}
    (hlen : ∀ bytes ∈ proof, bytes.length < 2 ^ 63) {nodes : List Mpt}
    (h : parseProof E fuel proof = .ok nodes) : ∀ node ∈ nodes, Parsed E node := by
  intro node hnode
  obtain ⟨bytes, hmem, hok⟩ := Exec.exists_of_forall₂ (Exec.of_mapM_ok h) hnode
  exact decodeFromProofRlp_parsed hp (hlen bytes hmem) hok

/-! ## Resolution -/

/-- The trees of the stored arenas. -/
def treeStore (nodeStore : B256 → Option Mpt) (d : B256) : Option RawTrie :=
  (nodeStore d).map tree

theorem treeAt_digest {m : Mpt} (hm : Ascending m) {id : NodeId} {b : Bytes}
    (hd : m.dataAt id = some (.digest b)) :
    ∃ d : B256, b = d.bytes ∧ treeAt m id = .digest d := by
  have hlen : b.length = 32 := hm id _ hd
  have hslice : B256.fromSlice b = some ⟨b, hlen⟩ := by simp [B256.fromSlice, hlen]
  refine ⟨⟨b, hlen⟩, rfl, ?_⟩
  rw [treeAt_eq hm hd, ofData, hslice]
  rfl

/-- The results of a loop over the slots of a branch. -/
theorem exists_slot {α : Type} {R : Nibble → α → Prop} {as : List α}
    (h : List.Forall₂ R (List.finRange 16) as) (i : Nibble) :
    ∃ a, as[i.val]? = some a ∧ R i a := by
  have hlen : i.val < as.length := by
    rw [← h.length_eq, List.length_finRange]
    exact i.isLt
  have hi := h.get (by simp : i.val < (List.finRange 16).length) hlen
  refine ⟨as.get ⟨i.val, hlen⟩, by simp, ?_⟩
  simpa using hi

/-- A resolved node is appended. -/
theorem resolved_push {f : B256 → Option RawTrie} {m : Mpt} (hm : Ordered E m)
    {d : NodeData} (hp : Precedes m.size d) {t : RawTrie}
    (h : Resolves f t (ofData (treeAt m) d)) :
    Adds E m (m.push ⟨d, none⟩) ∧ m.size < (m.push ⟨d, none⟩).size ∧
      Resolves f t (treeAt (m.push ⟨d, none⟩) m.size) := by
  obtain ⟨hadds, hlt⟩ := addNode_adds (E := E) (r := none) hp (by simp)
  rw [(ordered_push (E := E) hm (r := none) hp (by simp)).2]
  exact ⟨hadds, hlt, h⟩

section Resolution

variable {nodeStore : B256 → Option Mpt}

theorem resolveNodesInternal_succ {fuel : Nat} {cur : Mpt} {id : NodeId} {data : NodeData}
    (hd : cur.dataAt id = some data) (m : Mpt) :
    resolveNodesInternal nodeStore (fuel + 1) cur id m =
      resolveNode nodeStore (resolveNodesInternal nodeStore fuel) cur data m := by
  rw [resolveNodesInternal, hd, orPanic_some, Exec.bind_ok (Exec.pure_apply _ _)]

theorem resolveNode_digest {resolve : Mpt → NodeId → TrieM NodeId} (cur : Mpt) (d : B256) :
    resolveNode nodeStore resolve cur (.digest d.bytes) = (match nodeStore d with
      | some trie => resolve trie trie.rootId
      | none => addNode (.digest d.bytes) none) := by
  unfold resolveNode
  simp only [B256.fromSlice_bytes, orPanic_some]
  rfl

/-- A run of `resolve_nodes_internal` that returns has resolved the tree. -/
theorem of_resolveNodesInternal_ok (hstore : ∀ d m, nodeStore d = some m → Parsed E m) :
    ∀ (fuel : Nat) {cur : Mpt} {id : NodeId} {m : Mpt} {id' : NodeId} {m' : Mpt},
      Ordered E cur → id < cur.size → Ordered E m →
      resolveNodesInternal nodeStore fuel cur id m = (.ok id', m') →
      Adds E m m' ∧ id' < m'.size ∧
        Resolves (treeStore nodeStore) (treeAt cur id) (treeAt m' id') := by
  intro fuel
  induction fuel with
  | zero =>
    intro cur id m id' m' _ _ _ h
    simp [resolveNodesInternal] at h
  | succ fuel ih =>
    intro cur id m id' m' hcur hid hm h
    obtain ⟨data, hd⟩ := exists_dataAt hid
    have hp := hcur.ascending id data hd
    have htree := treeAt_eq hcur.ascending hd
    rw [resolveNodesInternal_succ hd] at h
    cases data with
    | null =>
      obtain ⟨rfl, rfl⟩ := of_addNode_ok h
      rw [htree]
      exact resolved_push hm (d := .null) trivial .null
    | leaf path value =>
      obtain ⟨rfl, rfl⟩ := of_addNode_ok h
      rw [htree]
      exact resolved_push hm (d := .leaf path value) trivial (.leaf path value)
    | extension path j =>
      obtain ⟨j', m₁, h₁, hadd⟩ := Exec.of_bind_ok h
      obtain ⟨hadds, hj', hres⟩ := ih hcur (hp.1.trans hid) hm h₁
      obtain ⟨rfl, rfl⟩ := of_addNode_ok hadd
      rw [htree]
      obtain ⟨hpush, hlt, hres'⟩ := resolved_push (hadds.ordered hm)
        (d := .extension path j') ⟨hj', hp.2⟩ (.ext path hres)
      exact ⟨hadds.trans hpush, hlt, hres'⟩
    | branch childs =>
      obtain ⟨os, m₁, h₁, hadd⟩ := Exec.of_bind_ok h
      obtain ⟨hadds, hos⟩ := Exec.of_collect_ok (R := Adds E) Adds.refl (fun _ _ _ => Adds.trans)
        (Q := fun m i o => (childs i = none ∧ o = none) ∨ ∃ j j', childs i = some j ∧
          o = some j' ∧ j' < m.size ∧
          Resolves (treeStore nodeStore) (treeAt cur j) (treeAt m j'))
        (fun s s' i o (hs : Adds E m s) hs' hq => by
          rcases hq with hnone | ⟨j, j', hj, ho, hlt, hres⟩
          · exact .inl hnone
          · refine .inr ⟨j, j', hj, ho, hs'.lt_size hlt, ?_⟩
            rw [hs'.ext.treeAt (hs.ordered hm) hlt]
            exact hres)
        _ (Adds.refl m)
        (fun i _ s o s' hs hrun => by
          cases hj : childs i with
          | none =>
            simp only [hj, Exec.pure_apply, Prod.mk.injEq, Except.ok.injEq] at hrun
            obtain ⟨rfl, rfl⟩ := hrun
            exact ⟨Adds.refl s, .inl ⟨rfl, rfl⟩⟩
          | some j =>
            simp only [hj] at hrun
            obtain ⟨j', s₁, hrun₁, hpure⟩ := Exec.of_bind_ok hrun
            simp only [Exec.pure_apply, Prod.mk.injEq, Except.ok.injEq] at hpure
            obtain ⟨rfl, rfl⟩ := hpure
            obtain ⟨hadds, hlt, hres⟩ := ih hcur ((hp i j hj).trans hid) (hs.ordered hm) hrun₁
            exact ⟨hadds, .inr ⟨j, j', rfl, rfl, hlt, hres⟩⟩) h₁
      obtain ⟨rfl, rfl⟩ := of_addNode_ok hadd
      have hslot : ∀ i, (childs i = none ∧ os[i.val]?.join = none) ∨ ∃ j j', childs i = some j ∧
          os[i.val]?.join = some j' ∧ j' < m₁.size ∧
          Resolves (treeStore nodeStore) (treeAt cur j) (treeAt m₁ j') := by
        intro i
        obtain ⟨o, ho, hq⟩ := exists_slot hos i
        simpa [ho] using hq
      rw [htree]
      obtain ⟨hpush, hlt, hres⟩ := resolved_push (hadds.ordered hm)
        (d := .branch fun i => os[i.val]?.join) (f := treeStore nodeStore)
        (t := ofData (treeAt cur) (.branch childs))
        (fun i k hk => by
          rcases hslot i with ⟨_, hnone⟩ | ⟨j, j', _, hj', hlt, _⟩
          · simp [hnone] at hk
          · obtain rfl := Option.some.inj (hj'.symm.trans hk)
            exact hlt)
        (.branch fun i => by
          rcases hslot i with ⟨hnone, hnone'⟩ | ⟨j, j', hj, hj', _, hres⟩
          · simp only [hnone, hnone', Option.elim_none]
            exact .null
          · simp only [hj, hj', Option.elim_some]
            exact hres)
      exact ⟨hadds.trans hpush, hlt, hres⟩
    | digest b =>
      obtain ⟨d, rfl, hdig⟩ := treeAt_digest hcur.ascending hd
      rw [resolveNode_digest] at h
      rw [hdig]
      cases hfind : nodeStore d with
      | none =>
        simp only [hfind] at h
        obtain ⟨rfl, rfl⟩ := of_addNode_ok h
        refine resolved_push hm (d := .digest d.bytes) d.length_bytes ?_
        simp only [ofData, B256.fromSlice_bytes, Option.elim_some]
        exact .kept (by simp [treeStore, hfind])
      | some trie =>
        simp only [hfind] at h
        have hparsed := hstore d trie hfind
        obtain ⟨hadds, hlt, hres⟩ := ih hparsed.ordered hparsed.root hm h
        exact ⟨hadds, hlt, .found (by simp [treeStore, hfind, tree]) hres⟩

/-- The node at the root of a tree. -/
def NodeOf (m : Mpt) (id : NodeId) : RawTrie → Prop
  | .null => m.dataAt id = some .null
  | .leaf path value => m.dataAt id = some (.leaf path value)
  | .digest d => m.dataAt id = some (.digest d.bytes)
  | .ext path c => ∃ j, m.dataAt id = some (.extension path j) ∧ j < id ∧ treeAt m j = c
  | .branch c => ∃ ids, m.dataAt id = some (.branch ids) ∧
      ∀ i, c i = (ids i).elim .null (treeAt m) ∧ ∀ j, ids i = some j → j < id

theorem nodeOf_treeAt {m : Mpt} (hm : Ascending m) {id : NodeId} (hid : id < m.size) :
    NodeOf m id (treeAt m id) := by
  obtain ⟨data, hd⟩ := exists_dataAt hid
  have hp := hm id data hd
  cases data with
  | digest b =>
    obtain ⟨d, rfl, htree⟩ := treeAt_digest hm hd
    rw [htree]
    exact hd
  | null =>
    rw [treeAt_eq hm hd]
    exact hd
  | leaf path value =>
    rw [treeAt_eq hm hd]
    exact hd
  | extension path j =>
    rw [treeAt_eq hm hd]
    exact ⟨j, hd, hp.1, rfl⟩
  | branch ids =>
    rw [treeAt_eq hm hd]
    exact ⟨ids, hd, fun i => ⟨rfl, hp i⟩⟩

/-- Where the tree has a resolution, the run returns with enough stack. -/
theorem resolveNodesInternal_returns (hstore : ∀ d m, nodeStore d = some m → Parsed E m)
    {t t' : RawTrie} (h : Resolves (treeStore nodeStore) t t') :
    ∃ n, ∀ fuel, n ≤ fuel → ∀ (cur : Mpt) (id : NodeId) (m : Mpt), Ordered E cur →
      id < cur.size → treeAt cur id = t →
      ∃ id' m', resolveNodesInternal nodeStore fuel cur id m = (.ok id', m') := by
  -- one more level of stack than the parts of the tree take
  suffices hsucc : ∃ n, ∀ fuel, n ≤ fuel → ∀ (cur : Mpt) (id : NodeId) (m : Mpt), Ordered E cur →
      id < cur.size → NodeOf cur id t →
      ∃ id' m', resolveNodesInternal nodeStore (fuel + 1) cur id m = (.ok id', m') by
    obtain ⟨n, hn⟩ := hsucc
    refine ⟨n + 1, fun fuel hfuel cur id m hcur hid htree => ?_⟩
    obtain ⟨fuel, rfl⟩ : ∃ k, fuel = k + 1 := ⟨fuel - 1, by omega⟩
    exact hn fuel (by omega) cur id m hcur hid (htree ▸ nodeOf_treeAt hcur.ascending hid)
  induction h with
  | null =>
    refine ⟨0, fun fuel _ cur id m hcur hid hnode => ?_⟩
    exact ⟨m.size, _, resolveNodesInternal_succ hnode m⟩
  | leaf path value =>
    refine ⟨0, fun fuel _ cur id m hcur hid hnode => ?_⟩
    exact ⟨m.size, _, resolveNodesInternal_succ hnode m⟩
  | @ext path c c' _ ih =>
    obtain ⟨n, hn⟩ := ih
    refine ⟨n + 1, fun fuel hfuel cur id m hcur hid ⟨j, hd, hj, htree⟩ => ?_⟩
    obtain ⟨fuel, rfl⟩ : ∃ k, fuel = k + 1 := ⟨fuel - 1, by omega⟩
    obtain ⟨j', m₁, h₁⟩ := hn fuel (by omega) cur j m hcur (hj.trans hid)
      (htree ▸ nodeOf_treeAt hcur.ascending (hj.trans hid))
    exact ⟨m₁.size, _, (resolveNodesInternal_succ hd m).trans (Exec.bind_ok h₁)⟩
  | @branch c c' _ ih =>
    choose n hn using ih
    refine ⟨Finset.univ.sup n + 1, fun fuel hfuel cur id m hcur hid ⟨ids, hd, hids⟩ => ?_⟩
    obtain ⟨fuel, rfl⟩ : ∃ k, fuel = k + 1 := ⟨fuel - 1, by omega⟩
    obtain ⟨os, m₁, h₁, -, -⟩ := Exec.collect_forall₂ (R := fun _ _ : Mpt => True)
      (fun _ => trivial) (fun _ _ _ _ _ => trivial) (Q := fun (_ : Nibble) (_ : Option NodeId) => True)
      (f := fun i => match ids i with
        | some childId => do
          let resolvedChildId ← resolveNodesInternal nodeStore (fuel + 1) cur childId
          pure (some resolvedChildId)
        | none => pure none) (List.finRange 16) m (fun i _ m' _ => by
          obtain ⟨hi, hlt⟩ := hids i
          cases hj : ids i with
          | none => exact ⟨none, m', rfl, trivial, trivial⟩
          | some j =>
            have hle : n i ≤ Finset.univ.sup n := Finset.le_sup (Finset.mem_univ i)
            have hj' := (hlt j hj).trans hid
            have hci : c i = treeAt cur j := by rw [hi, hj]; rfl
            obtain ⟨j', m₂, h₂⟩ := hn i fuel (by omega) cur j m' hcur hj'
              (hci ▸ nodeOf_treeAt hcur.ascending hj')
            exact ⟨some j', m₂, Exec.bind_ok h₂, trivial, trivial⟩)
    exact ⟨m₁.size, _, (resolveNodesInternal_succ hd m).trans (Exec.bind_ok h₁)⟩
  | @found d u u' hfind _ ih =>
    obtain ⟨n, hn⟩ := ih
    refine ⟨n + 1, fun fuel hfuel cur id m hcur hid hd => ?_⟩
    obtain ⟨fuel, rfl⟩ : ∃ k, fuel = k + 1 := ⟨fuel - 1, by omega⟩
    obtain ⟨trie, htrie, rfl⟩ := Option.map_eq_some_iff.mp hfind
    have hparsed := hstore d trie htrie
    obtain ⟨id', m', h'⟩ := hn fuel (by omega) trie trie.rootId m hparsed.ordered hparsed.root
      (nodeOf_treeAt hparsed.ordered.ascending hparsed.root)
    refine ⟨id', m', (resolveNodesInternal_succ hd m).trans ?_⟩
    rw [resolveNode_digest, htrie]
    exact h'
  | @kept d hfind =>
    refine ⟨0, fun fuel _ cur id m hcur hid hd => ?_⟩
    have hnone : nodeStore d = none := by simpa [treeStore] using hfind
    refine ⟨m.size, m.push ⟨.digest d.bytes, none⟩, (resolveNodesInternal_succ hd m).trans ?_⟩
    rw [resolveNode_digest, hnone]
    rfl

end Resolution

/-! ## Tries from proofs -/

section Proof

variable (E)

/-- The node that a proof holds for a digest: the last one with this hash. -/
def answer (nodes : List RawTrie) (d : B256) : Option RawTrie :=
  nodes.reverse.find? fun t => RawTrie.hash E t = d

/-- The list nodes that are visited from the first node of a proof, and what they are resolved
to. -/
def Involved (nodes : List RawTrie) (t : RawTrie) : Prop :=
  isList t ∧ ∃ first, nodes.head? = some first ∧ ∃ b x, 
    Visits (answer E nodes) (false, first) (b, x) ∧ (t = x ∨ Resolves (answer E nodes) x t)

/-- `mpt_from_proof` returns, given enough stack, and the trie has the hash of the first
node. -/
def KeepsRoot (nodes : List Mpt) : Prop :=
  ∃ n, ∀ fuel, n ≤ fuel → ∃ m, mptFromProof E fuel nodes = .ok m ∧
    ∀ first, nodes.head? = some first → (hash E m).1 = (hash E first).1

variable {E}

theorem answer_some {nodes : List RawTrie} {d : B256} {t : RawTrie} (h : answer E nodes d = some t) :
    RawTrie.hash E t = d ∧ t ∈ nodes :=
  ⟨by simpa using List.find?_some h, List.mem_reverse.mp (List.mem_of_find?_eq_some h)⟩

theorem hashEntry_parsed {m : Mpt} (h : Parsed E m) :
    ∃ entry, hashEntry E m = .ok entry ∧ entry.1 = RawTrie.hash E entry.2.tree ∧
      Parsed E entry.2 ∧ entry.2.tree = m.tree := by
  obtain ⟨m', hm', hr⟩ := hash_tree h.ordered h.root
  have htree := hr.tree h.ordered
  refine ⟨(RawTrie.hash E m.tree, m'), by rw [hashEntry, hm'], by rw [htree], ?_, htree⟩
  exact ⟨hr.ordered h.ordered, by rw [hr.rootId]; exact hr.lt_size h.root⟩

/-- The store of the code holds the answers of the proof. -/
theorem treeStore_collectStore {nodes : List Mpt} {entries : List (B256 × Mpt)}
    (h : List.Forall₂ (fun node entry => entry.1 = RawTrie.hash E entry.2.tree ∧
      Parsed E entry.2 ∧ entry.2.tree = node.tree) nodes entries) :
    treeStore (collectStore entries) = answer E (nodes.map tree) := by
  have htrees : entries.map (fun entry => entry.2.tree) = nodes.map tree := by
    induction h with
    | nil => rfl
    | cons hi _ ih => rw [List.map_cons, List.map_cons, ih, hi.2.2]
  funext d
  unfold treeStore collectStore answer
  rw [← htrees, ← List.map_reverse, List.find?_map, Option.map_map]
  congr 1
  refine List.find?_congr fun entry hentry => ?_
  obtain ⟨_, _, hi⟩ := Exec.exists_of_forall₂ h (List.mem_reverse.mp hentry)
  simp [hi.1]

theorem parsed_collectStore {nodes : List Mpt} {entries : List (B256 × Mpt)}
    (h : List.Forall₂ (fun node entry => entry.1 = RawTrie.hash E entry.2.tree ∧
      Parsed E entry.2 ∧ entry.2.tree = node.tree) nodes entries) (d : B256) (m : Mpt)
    (hm : collectStore entries d = some m) : Parsed E m := by
  obtain ⟨entry, hfind, rfl⟩ := Option.map_eq_some_iff.mp hm
  obtain ⟨_, _, hi⟩ :=
    Exec.exists_of_forall₂ h (List.mem_reverse.mp (List.mem_of_find?_eq_some hfind))
  exact hi.2.1

/-- The paths in an ordered arena are slices. -/
theorem pathsFit_treeAt {m : Mpt} (hm : Ascending m) :
    ∀ (n : Nat) (id : NodeId), id < n → id < m.size → PathsFit (treeAt m id) := by
  intro n
  induction n with
  | zero => exact fun id hid => absurd hid (Nat.not_lt_zero id)
  | succ n ih =>
    intro id hid hsize
    obtain ⟨data, hd⟩ := exists_dataAt hsize
    have hp := hm id data hd
    have hlt : ∀ j : Nat, j < id → PathsFit (treeAt m j) := fun j hj =>
      ih j (hj.trans_le (Nat.le_of_lt_succ hid)) (hj.trans hsize)
    cases data with
    | digest b =>
      obtain ⟨d, _, htree⟩ := treeAt_digest hm hd
      rw [htree]
      trivial
    | extension path j =>
      rw [treeAt_eq hm hd]
      exact ⟨hp.2, hlt j hp.1⟩
    | branch ids =>
      rw [treeAt_eq hm hd]
      intro i
      show PathsFit ((ids i).elim .null (treeAt m))
      cases hj : ids i with
      | none => trivial
      | some j => exact hlt j (hp i j hj)
    | _ =>
      rw [treeAt_eq hm hd]
      trivial

theorem Parsed.pathsFit {m : Mpt} (h : Parsed E m) : PathsFit m.tree :=
  pathsFit_treeAt h.ordered.ascending (m.rootId + 1) m.rootId (Nat.lt_succ_self _) h.root

/-- The runs of `resolve_nodes`: they return where the root has a resolution, and what they
return is the resolution. -/
theorem resolveNodes_spec {nodeStore : B256 → Option Mpt}
    (hstore : ∀ d m, nodeStore d = some m → Parsed E m) {root : Mpt} (hroot : Parsed E root) :
    ((∃ t', Resolves (treeStore nodeStore) root.tree t') →
      ∃ n, ∀ fuel, n ≤ fuel → ∃ m, resolveNodes fuel root nodeStore = .ok m) ∧
    ∀ fuel m, resolveNodes fuel root nodeStore = .ok m →
      Parsed E m ∧ Resolves (treeStore nodeStore) root.tree m.tree := by
  constructor
  · rintro ⟨t', h⟩
    obtain ⟨n, hn⟩ := resolveNodesInternal_returns hstore h
    refine ⟨n, fun fuel hfuel => ?_⟩
    obtain ⟨id', m', h'⟩ := hn fuel hfuel root root.rootId new hroot.ordered hroot.root rfl
    exact ⟨{ m' with rootId := id' }, by rw [resolveNodes, h']⟩
  · intro fuel m h
    unfold resolveNodes at h
    split at h
    · rename_i rootId m' hrun
      obtain rfl := Except.ok.inj h
      obtain ⟨hadds, hlt, hres⟩ := of_resolveNodesInternal_ok hstore fuel hroot.ordered
        hroot.root ordered_new hrun
      obtain ⟨hord, htree⟩ := (hadds.ordered ordered_new).setRoot rootId
      refine ⟨⟨hord, hlt⟩, ?_⟩
      have heq : tree { m' with rootId := rootId } = treeAt m' rootId := htree rootId
      rw [heq]
      exact hres
    · simp at h

/-- Among the nodes of the proof, and what they are resolved to, a hash has one encoding. -/
theorem distinguishes_of_injOn {nodes : List RawTrie} {first : RawTrie}
    (hfirst : nodes.head? = some first) (hfit : ∀ t ∈ nodes, PathsFit t)
    (hinj : Set.InjOn E.keccak256 {b | ∃ t, Involved E nodes t ∧ b = rlp E t}) :
    Distinguishes E (answer E nodes) (false, first) := by
  intro b t t' hv hl hres
  have hmem := List.mem_of_mem_head? (Option.mem_def.mpr hfirst)
  refine ⟨PathsFit.visits (fun d u hu => hfit u (answer_some hu).2) hv (hfit first hmem),
    fun heq => hinj ⟨t', ?_, rfl⟩ ⟨t, ?_, rfl⟩ heq⟩
  · exact ⟨isList_resolves hres hl, first, hfirst, b, t, hv, .inr hres⟩
  · exact ⟨hl, first, hfirst, b, t, hv, .inl rfl⟩

/-- `mpt_from_proof` terminates and keeps the root hash if and only if no digest on the way is
answered by a bare digest or, below the root, by a node with a short encoding. -/
theorem mptFromProof_keepsRoot_iff (hp : PrefixConsuming E.decodeHeader) {proof : List Bytes}
    (hlen : ∀ bytes ∈ proof, bytes.length < 2 ^ 63) {fuel : Nat} {nodes : List Mpt}
    (hparse : parseProof E fuel proof = .ok nodes) (hacyc : Acyclic E (nodes.map tree))
    (hinj : Set.InjOn E.keccak256 {b | ∃ t, Involved E (nodes.map tree) t ∧ b = rlp E t}) :
    KeepsRoot E nodes ↔ ∀ first, nodes.head? = some first →
      Settled E (answer E (nodes.map tree)) (false, first.tree) := by
  have hparsed := parseProof_parsed hp hlen hparse
  obtain ⟨entries, hentries, hall⟩ := Exec.mapM_forall₂ nodes fun node hnode =>
    hashEntry_parsed (hparsed node hnode)
  cases hall with
  | nil =>
    refine iff_of_true ⟨0, fun fuel _ => ⟨new, rfl, fun first h => by simp at h⟩⟩ fun first h => ?_
    simp at h
  | @cons node entry nodes entries hi hrest =>
    have hstore := treeStore_collectStore (.cons hi hrest)
    have hspec := resolveNodes_spec (parsed_collectStore (.cons hi hrest)) hi.2.1
    have hrun : ∀ fuel, mptFromProof E fuel (node :: nodes) =
        resolveNodes fuel entry.2 (collectStore (entry :: entries)) := by
      intro fuel
      unfold mptFromProof
      rw [hentries]
      rfl
    have hhead : ((node :: nodes).map tree).head? = some node.tree := rfl
    have hfit : ∀ t ∈ (node :: nodes).map tree, PathsFit t := by
      intro t ht
      obtain ⟨m, hm, rfl⟩ := List.mem_map.mp ht
      exact (hparsed m hm).pathsFit
    have hdist := distinguishes_of_injOn hhead hfit hinj
    rw [hstore, hi.2.2] at hspec
    have hkeep : ∀ m, Parsed E m → Resolves (answer E ((node :: nodes).map tree)) node.tree m.tree →
        ((hash E m).1 = (hash E node).1 ↔
          Settled E (answer E ((node :: nodes).map tree)) (false, node.tree)) := by
      intro m hm hres
      obtain ⟨_, hm', _⟩ := hash_tree hm.ordered hm.root
      have hnode := hparsed node (by simp)
      obtain ⟨_, hn', _⟩ := hash_tree hnode.ordered hnode.root
      rw [hm', hn', Except.ok.injEq]
      exact keeps_iff_settled (fun d t h => (answer_some h).1) hres false hdist
    simp only [KeepsRoot, hrun, List.head?_cons, Option.some.injEq, forall_eq']
    constructor
    · rintro ⟨n, hn⟩
      obtain ⟨m, hm, hhash⟩ := hn n le_rfl
      obtain ⟨hpm, hres⟩ := hspec.2 n m hm
      exact (hkeep m hpm hres).mp hhash
    · intro hset
      obtain ⟨n, hn⟩ := hspec.1 (exists_resolves hacyc (fun _ _ => answer_some) node.tree
        (by simp) false hset)
      refine ⟨n, fun fuel hfuel => ?_⟩
      obtain ⟨m, hm⟩ := hn fuel hfuel
      obtain ⟨hpm, hres⟩ := hspec.2 fuel m hm
      exact ⟨m, hm, (hkeep m hpm hres).mpr hset⟩

/-! ## Two proofs -/

theorem acyclic_of_not_cites {nodes : List RawTrie}
    (h : ∀ x ∈ nodes, (∀ y, ¬ Cites E nodes x y) ∨ ∀ y ∈ nodes, ¬ Cites E nodes y x) :
    Acyclic E nodes := by
  intro x hx hcycle
  rcases h x hx with hout | hin
  · obtain ⟨y, hy, _⟩ := Relation.TransGen.head'_iff.mp hcycle
    exact hout y hy
  · obtain ⟨y, hy, hxy⟩ := Relation.TransGen.tail'_iff.mp hcycle
    rcases hy.cases_tail with rfl | ⟨z, _, hzy⟩
    · exact hin _ hx hxy
    · exact hin y hzy.1 hxy

/-- `keccak256` of the nodes of the two proofs. -/
def proofEnv : Env := Env.ofTable
  [([0xe2, 0x32, 0xa0] ++ sampleValue, sampleDigest),
   ([0xe2, 0x16, 0xa0] ++ sampleDigest.bytes,
    B256.ofNat 0xff272caac7a71c8b406cd608a4e9fa48eda1aeeb9de6aaeec27949afe2f24376),
   (0xa0 :: sampleDigest.bytes,
    B256.ofNat 0xaa75876845932fdce3600b47b2ec13076fdc588189fe7c0443112b142cd1dac6)]

/-- The node that is parsed from a bare digest. -/
def bareNode : Mpt :=
  ⟨1, [⟨.null, none⟩, ⟨.digest sampleDigest.bytes, some (.digest sampleDigest.bytes)⟩]⟩

theorem tree_bareNode : tree bareNode = .digest sampleDigest := rfl

/-- A proof of one element, the string of 32 bytes that a branch holds for a child: its parsing
succeeds, and its resolution follows the digest for ever. -/
theorem mptFromProof_bare_digest :
    parseProof proofEnv 1 [0xa0 :: sampleDigest.bytes] = .ok [bareNode] ∧
      Acyclic proofEnv ([bareNode].map tree) ∧
      Set.InjOn proofEnv.keccak256
        {b | ∃ t, Involved proofEnv ([bareNode].map tree) t ∧ b = rlp proofEnv t} ∧
      (∀ fuel, mptFromProof proofEnv fuel [bareNode] = .error .stackOverflow) ∧
      ¬ KeepsRoot proofEnv [bareNode] := by
  have hanswer : answer proofEnv ([bareNode].map tree) sampleDigest = some (.digest sampleDigest) :=
    rfl
  have hrun : ∀ fuel m, resolveNodesInternal
      (collectStore [(sampleDigest, bareNode)]) fuel bareNode 1 m = (.error .stackOverflow, m) := by
    intro fuel
    induction fuel with
    | zero => exact fun m => rfl
    | succ fuel ih =>
      intro m
      have hdata : bareNode.dataAt 1 = some (.digest sampleDigest.bytes) := rfl
      have hfind : collectStore [(sampleDigest, bareNode)] sampleDigest = some bareNode := rfl
      rw [resolveNodesInternal_succ hdata, resolveNode_digest, hfind]
      exact ih m
  have hloop : ∀ fuel, mptFromProof proofEnv fuel [bareNode] = .error .stackOverflow := by
    intro fuel
    show resolveNodes fuel bareNode (collectStore [(sampleDigest, bareNode)]) = _
    unfold resolveNodes
    rw [show bareNode.rootId = 1 from rfl, hrun fuel new]
  refine ⟨rfl, ?_, ?_, hloop, ?_⟩
  · refine acyclic_of_not_cites fun x hx => .inl fun y hy => ?_
    obtain rfl : x = .digest sampleDigest := by simpa [tree_bareNode] using hx
    obtain ⟨hmem, hcont⟩ := hy
    obtain rfl : y = .digest sampleDigest := by simpa [tree_bareNode] using hmem
    have hne : sampleDigest ≠ proofEnv.keccak256 (rlp proofEnv (.digest sampleDigest)) := by decide
    exact hne hcont
  · rintro b ⟨t, ⟨hl, first, hfirst, below, x, hv, ht⟩, rfl⟩
    obtain rfl : tree bareNode = first := Option.some.inj hfirst
    have hx : (below, x) = (false, .digest sampleDigest) := by
      have hstay : ∀ y, Visits (answer proofEnv ([bareNode].map tree))
          (false, .digest sampleDigest) y → y = (false, .digest sampleDigest) := by
        intro y hy
        induction hy with
        | refl => rfl
        | tail _ hstep ih =>
          subst ih
          cases hstep with
          | digest _ hd =>
            obtain rfl := Option.some.inj (hanswer.symm.trans hd)
            rfl
      exact hstay _ hv
    obtain ⟨-, rfl⟩ := Prod.mk.inj hx
    rcases ht with rfl | hres
    · exact hl.elim
    · exact absurd rfl (not_resolves_self hanswer hres)
  · rintro ⟨n, hn⟩
    obtain ⟨m, hm, _⟩ := hn n le_rfl
    rw [hloop] at hm
    cases hm

/-- An extension that refers to its child by a hash, and the child. -/
def extNode : Mpt :=
  ⟨2, [⟨.null, none⟩, ⟨.digest sampleDigest.bytes, some (.digest sampleDigest.bytes)⟩,
    ⟨.extension [0x16] 1, none⟩]⟩

def leafNode : Mpt := ⟨1, [⟨.null, none⟩, ⟨.leaf [0x32] sampleValue, none⟩]⟩

theorem trees_extNode : [extNode, leafNode].map tree =
    [.ext [0x16] (.digest sampleDigest), .leaf [0x32] sampleValue] := rfl

theorem answer_sample : answer proofEnv ([extNode, leafNode].map tree) sampleDigest =
    some (.leaf [0x32] sampleValue) := rfl

theorem visits_extNode {y : Bool × RawTrie}
    (h : Visits (answer proofEnv ([extNode, leafNode].map tree)) (false, tree extNode) y) :
    y = (false, .ext [0x16] (.digest sampleDigest)) ∨ y = (true, .digest sampleDigest) ∨
      y = (true, .leaf [0x32] sampleValue) := by
  induction h with
  | refl => exact .inl rfl
  | tail _ hstep ih =>
    rcases ih with rfl | rfl | rfl
    · cases hstep
      exact .inr (.inl rfl)
    · cases hstep with
      | digest _ hd =>
        obtain rfl := Option.some.inj (answer_sample.symm.trans hd)
        exact .inr (.inr rfl)
    · cases hstep

/-- The encodings of the sample are those of its two nodes. -/
theorem rlp_involved {t : RawTrie}
    (h : Involved proofEnv ([extNode, leafNode].map tree) t) :
    rlp proofEnv t = [0xe2, 0x16, 0xa0] ++ sampleDigest.bytes ∨
      rlp proofEnv t = [0xe2, 0x32, 0xa0] ++ sampleValue := by
  have hleaf : rlp proofEnv (.leaf [0x32] sampleValue) = [0xe2, 0x32, 0xa0] ++ sampleValue := rfl
  have hext : rlp proofEnv (.ext [0x16] (.digest sampleDigest)) =
      [0xe2, 0x16, 0xa0] ++ sampleDigest.bytes := rfl
  have hext' : rlp proofEnv (.ext [0x16] (.leaf [0x32] sampleValue)) =
      [0xe2, 0x16, 0xa0] ++ sampleDigest.bytes := by decide
  have hdigest : ∀ u, Resolves (answer proofEnv ([extNode, leafNode].map tree))
      (.digest sampleDigest) u → u = .leaf [0x32] sampleValue := by
    intro u hu
    cases hu with
    | found hd hu =>
      obtain rfl := Option.some.inj (answer_sample.symm.trans hd)
      cases hu
      rfl
    | kept hd => cases answer_sample.symm.trans hd
  obtain ⟨hl, first, hfirst, b, x, hv, ht⟩ := h
  obtain rfl : tree extNode = first := Option.some.inj hfirst
  rcases visits_extNode hv with hx | hx | hx <;> obtain ⟨-, rfl⟩ := Prod.mk.inj hx <;>
    rcases ht with rfl | hres
  · exact .inl hext
  · cases hres with
    | ext _ hres =>
      rw [hdigest _ hres]
      exact .inl hext'
  · exact hl.elim
  · rw [hdigest _ hres]
    exact .inr hleaf
  · exact .inr hleaf
  · cases hres
    exact .inr hleaf

/-- A proof of two elements, from an extension to its leaf. -/
theorem mptFromProof_keepsRoot_sample : KeepsRoot proofEnv [extNode, leafNode] := by
  have hne : proofEnv.keccak256 ([0xe2, 0x16, 0xa0] ++ sampleDigest.bytes) ≠
      proofEnv.keccak256 ([0xe2, 0x32, 0xa0] ++ sampleValue) := by decide
  have hparse : parseProof proofEnv 2
      [[0xe2, 0x16, 0xa0] ++ sampleDigest.bytes, [0xe2, 0x32, 0xa0] ++ sampleValue] =
        .ok [extNode, leafNode] := rfl
  refine (mptFromProof_keepsRoot_iff prefixConsuming_decodeHeader (by decide) hparse ?_ ?_).mpr ?_
  · refine acyclic_of_not_cites fun x hx => ?_
    rw [trees_extNode] at hx ⊢
    rcases List.mem_pair.mp hx with rfl | rfl
    · refine .inr fun y hy hcite => ?_
      rcases List.mem_pair.mp hy with rfl | rfl
      · have hself : sampleDigest ≠
            proofEnv.keccak256 (rlp proofEnv (.ext [0x16] (.digest sampleDigest))) := by decide
        exact hself hcite.2
      · exact hcite.2
    · exact .inl fun y hcite => hcite.2
  · rintro b ⟨t, ht, rfl⟩ b' ⟨t', ht', rfl⟩ heq
    rcases rlp_involved ht with h | h <;> rcases rlp_involved ht' with h' | h' <;>
      rw [h, h'] at heq ⊢
    · exact absurd heq hne
    · exact absurd heq.symm hne
  · intro first hfirst y hy
    obtain rfl : extNode = first := Option.some.inj hfirst
    rcases visits_extNode hy with rfl | rfl | rfl
    · trivial
    · intro t ht
      obtain rfl := Option.some.inj (answer_sample.symm.trans ht)
      exact ⟨fun h => h, fun _ => by decide⟩
    · trivial

end Proof

end Mpt
end CenoReth
