/-
Partial tries from inclusion and exclusion proofs (`crates/mpt/src/from_proof.rs`).

The nodes of all proofs are put into one store, and the digests of the root are
resolved through it.  The proofs of the state before a block do not show every
node that the block needs: where a deletion leaves a branch with one child, this
child is merged with the branch, and it may be a node that is on no proved path.
It appears in the proof of the deleted key in the state after the block, with a
longer path.  `shorten_node_path` recovers it, together with nodes that do not
exist.
-/
import CenoReth.Mpt.Shown
import CenoReth.Mpt.Stranded

namespace CenoReth
namespace Mpt

open Patricia Patricia.Radix Trie Rlp

section Model

variable (E : Env)

/-- `MptOwned::set_node` on the root. -/
def setRootNode (trie : Mpt) (data : NodeData) : Except Halt Mpt :=
  match setNode trie.rootId data trie with
  | (.ok _, trie) => .ok trie
  | (.error h, _) => .error h

/-- The loop of `MptOwned::from_trie`, from the index `i`. -/
def copyNodes : Nat → List Cell → TrieM Unit
  | _, [] => pure ()
  | i, node :: nodes => do
    let len ← Exec.read size
    if i < len then setNode i node.data
    else
      let _ ← addNode node.data none
    copyNodes (i + 1) nodes

/-- `MptOwned::from_trie`. -/
def fromTrie (other : Mpt) : Except Halt Mpt :=
  match copyNodes 0 other.cells new with
  | (.ok _, trie) => .ok { trie with rootId := other.rootId }
  | (.error h, _) => .error h

def shortenNodePath (node : Mpt) : Except Halt (List Mpt) :=
  match node.dataAt node.rootId with
  | none => .error .panic
  | some (.leaf path value) =>
    let nibs := Hp.prefixToNibs path
    (List.range (nibs.length + 1)).mapM fun i =>
      setRootNode new (.leaf (Hp.toEncodedPath (nibs.drop i) true) value)
  | some (.extension path childId) =>
    let nibs := Hp.prefixToNibs path
    (List.range (nibs.length + 1)).mapM fun i => do
      let newNode ← fromTrie node
      setRootNode newNode (.extension (Hp.toEncodedPath (nibs.drop i) false) childId)
  | some _ => .ok []

/-- `node_store.insert(node.hash(), node)` for each of the nodes. -/
def insertNodes (nodeStore : B256 → Option Mpt) : List Mpt → Except Halt (B256 → Option Mpt)
  | [] => .ok nodeStore
  | node :: nodes => do
    let entry ← hashEntry E node
    insertNodes (Function.update nodeStore entry.1 (some entry.2)) nodes

def processProof (fuel : Nat) (proof : List Bytes) (nodeStore : B256 → Option Mpt) :
    Except Halt (Option Mpt × (B256 → Option Mpt)) := do
  let proofNodes ← parseProof E fuel proof
  let nodeStore ← insertNodes E nodeStore proofNodes
  .ok (proofNodes.head?, nodeStore)

def isNotIncluded (fuel : Nat) (key : Bytes) (proofNodes : List Mpt) : Except Halt Bool := do
  let proofTrie ← mptFromProof E fuel proofNodes
  let value ← (get key proofTrie).1
  .ok value.isNone

def addOrphanedLeafs (fuel : Nat) (key : Bytes) (proof : List Bytes)
    (nodeStore : B256 → Option Mpt) : Except Halt (B256 → Option Mpt) :=
  if proof = [] then .ok nodeStore
  else do
    let proofNodes ← parseProof E fuel proof
    let orphaned ← isNotIncluded E fuel (E.keccak256 key).bytes proofNodes
    if orphaned then
      match proofNodes.getLast? with
      | none => .error .panic
      | some node => do
        let nodes ← shortenNodePath node
        insertNodes E nodeStore nodes
    else .ok nodeStore

/-- `reth_trie::StorageProof`. -/
structure StorageProof where
  key : B256
  proof : List Bytes

/-- `reth_trie::AccountProof`. -/
structure AccountProof where
  proof : List Bytes
  storageRoot : B256
  storageProofs : List StorageProof

def nodeFromDigest (digest : B256) : Except Halt Mpt :=
  if digest = E.emptyRootHash ∨ digest = B256.ofNat 0 then .ok new
  else setRootNode new (.digest digest.bytes)

/-- The loop over the proofs before the block.  The root node of the last proof that has one is
kept. -/
def processProofs (fuel : Nat) : Mpt × (B256 → Option Mpt) → List (List Bytes) →
    Except Halt (Mpt × (B256 → Option Mpt))
  | state, [] => .ok state
  | state, proof :: proofs => do
    let r ← processProof E fuel proof state.2
    processProofs fuel (r.1.getD state.1, r.2) proofs

/-- The loop over the proofs after the block. -/
def addAllOrphanedLeafs (fuel : Nat) : (B256 → Option Mpt) → List StorageProof →
    Except Halt (B256 → Option Mpt)
  | nodeStore, [] => .ok nodeStore
  | nodeStore, storageProof :: storageProofs => do
    let nodeStore ← addOrphanedLeafs E fuel storageProof.key.bytes storageProof.proof nodeStore
    addAllOrphanedLeafs fuel nodeStore storageProofs

def buildStorageTrie (fuel : Nat) (proof finiProofs : AccountProof) : Except Halt Mpt :=
  if proof.storageProofs = [] then nodeFromDigest E proof.storageRoot
  else do
    let state ← processProofs E fuel (new, fun _ => none)
      (proof.storageProofs.map StorageProof.proof)
    let storageNodes ← addAllOrphanedLeafs E fuel state.2 finiProofs.storageProofs
    resolveNodes fuel state.1 storageNodes

end Model

variable {E : Env}

/-! ## Stores -/

/-- A node that has an encoding of its own. -/
structure Proper (E : Env) (t : Trie) : Prop where
  isList : isList t
  noHole : NoHole t
  resolved : t.Resolved
  encodable : Encodable E t

/-- The store has the nodes `N`, each under its hash and as its encoding shows it. -/
structure Stock (E : Env) (nodeStore : B256 → Option Mpt) (N : Set Trie) : Prop where
  knows : ∀ d, knows nodeStore d = true ↔ ∃ t ∈ N, Trie.hash E t = d
  shape : ∀ d m, nodeStore d = some m → ∃ t ∈ N, Trie.hash E t = d ∧ Shape m (face E t) m.rootId

theorem stock_empty : Stock E (fun _ => none) ∅ :=
  ⟨fun d => by simp [Mpt.knows], fun d m h => by cases h⟩

/-- Nodes with different encodings have different hashes: the store answers with the node. -/
theorem Stock.answers {nodeStore : B256 → Option Mpt} {N : Set Trie} (h : Stock E nodeStore N)
    (hN : ∀ t ∈ N, Proper E t) {t : Trie} (ht : Proper E t)
    (hinj : ∀ u ∈ N, E.keccak256 (rlp E u) = E.keccak256 (rlp E t) → rlp E u = rlp E t) :
    Answers E nodeStore t := by
  intro _ m hm
  obtain ⟨u, hu, hhash, hshape⟩ := h.shape _ m hm
  have hu' := hN u hu
  rw [hash_of_isList hu'.isList, hash_of_isList ht.isList] at hhash
  have hface := face_eq_of_rlp hu'.isList ht.isList hu'.noHole ht.noHole hu'.resolved ht.resolved
    hu'.encodable ht.encodable (hinj u hu hhash)
  rwa [hface] at hshape

theorem hashEntry_legible {m : Mpt} {t : Trie} (h : Legible E m (face E t)) :
    ∃ m', hashEntry E m = .ok (Trie.hash E t, m') ∧ Legible E m' (face E t) := by
  obtain ⟨m', hm', hf⟩ := hash_spec h.1 h.2
  refine ⟨m', ?_, ?_⟩
  · rw [hashEntry, hm', show Trie.hash E (face E t) = Trie.hash E t from (view_shown t).hash_eq]
  · rw [Legible, hf.size, hf.rootId]
    exact ⟨h.1.fills hf, h.2⟩

/-- The arenas show the nodes. -/
abbrev Shows₂ (E : Env) (nodes : List Trie) (arenas : List Mpt) : Prop :=
  List.Forall₂ (fun t m => Legible E m (face E t)) nodes arenas

theorem insertNodes_stock {nodes : List Trie} {arenas : List Mpt} (h : Shows₂ E nodes arenas) :
    ∀ {nodeStore : B256 → Option Mpt} {N : Set Trie}, Stock E nodeStore N →
      ∃ nodeStore', insertNodes E nodeStore arenas = .ok nodeStore' ∧
        Stock E nodeStore' (N ∪ {t | t ∈ nodes}) := by
  induction h with
  | nil =>
    intro nodeStore N hs
    exact ⟨nodeStore, rfl, by simpa using hs⟩
  | @cons t m nodes arenas hm _ ih =>
    intro nodeStore N hs
    obtain ⟨m', hentry, hm'⟩ := hashEntry_legible hm
    have hs' : Stock E (Function.update nodeStore (Trie.hash E t) (some m')) (N ∪ {t}) := by
      refine ⟨fun d => ?_, fun d x hx => ?_⟩
      · by_cases hd : d = Trie.hash E t
        · subst hd
          simp [Mpt.knows]
        · have := hs.knows d
          simp only [Mpt.knows, Function.update_of_ne hd] at this ⊢
          rw [this]
          constructor
          · rintro ⟨u, hu, hh⟩
            exact ⟨u, .inl hu, hh⟩
          · rintro ⟨u, hu | rfl, hh⟩
            · exact ⟨u, hu, hh⟩
            · exact absurd hh.symm hd
      · by_cases hd : d = Trie.hash E t
        · subst hd
          rw [Function.update_self] at hx
          obtain rfl := Option.some.inj hx
          exact ⟨t, .inr rfl, rfl, hm'.1.shape⟩
        · rw [Function.update_of_ne hd] at hx
          obtain ⟨u, hu, hh⟩ := hs.shape d x hx
          exact ⟨u, .inl hu, hh⟩
    obtain ⟨nodeStore', hrun, hstock⟩ := ih hs'
    refine ⟨nodeStore', ?_, ?_⟩
    · rw [insertNodes, hentry]
      exact hrun
    · have hset : N ∪ {u | u ∈ t :: nodes} = N ∪ {t} ∪ {u | u ∈ nodes} := by
        ext u
        simp only [Set.mem_union, Set.mem_ofPred_eq, List.mem_cons, Set.mem_singleton_iff, or_assoc]
      rwa [hset]

/-- The store of `mpt_from_proof`. -/
theorem stock_collectStore {nodes : List Trie} {entries : List (B256 × Mpt)}
    (h : List.Forall₂ (fun t entry => entry.1 = Trie.hash E t ∧ Legible E entry.2 (face E t))
      nodes entries) : Stock E (collectStore entries) {t | t ∈ nodes} := by
  have hfind : ∀ d m, collectStore entries d = some m → ∃ t ∈ nodes, Trie.hash E t = d ∧
      Shape m (face E t) m.rootId := by
    intro d m hm
    obtain ⟨entry, hentry, rfl⟩ := Option.map_eq_some_iff.mp hm
    have hmem := List.mem_reverse.mp (List.mem_of_find?_eq_some hentry)
    have hkey : entry.1 = d := by simpa using List.find?_some hentry
    obtain ⟨t, ht, hh, hl⟩ := Exec.exists_of_forall₂ h hmem
    exact ⟨t, ht, hh.symm.trans hkey, hl.1.shape⟩
  refine ⟨fun d => ?_, hfind⟩
  constructor
  · intro hk
    obtain ⟨m, hm⟩ := Option.isSome_iff_exists.mp hk
    obtain ⟨t, ht, hh, _⟩ := hfind d m hm
    exact ⟨t, ht, hh⟩
  · rintro ⟨t, ht, rfl⟩
    obtain ⟨entry, hentry, hh, _⟩ := Exec.exists_of_forall₂ h.flip ht
    unfold Mpt.knows collectStore
    rw [Option.isSome_map, List.find?_isSome]
    exact ⟨entry, List.mem_reverse.mpr hentry, by simp [hh]⟩

/-! ## Parsing -/

theorem parseProof_shows (hinv : Inverse E.decodeHeader) {nodes : List Trie} {fuel : Nat}
    (h : ∀ t ∈ nodes, Proper E t ∧ t.Normal ∧ depth t < fuel) :
    ∃ arenas, parseProof E fuel (nodes.map (rlp E)) = .ok arenas ∧ Shows₂ E nodes arenas := by
  unfold parseProof
  rw [List.mapM_map]
  refine Exec.mapM_forall₂ nodes fun t ht => ?_
  obtain ⟨hp, hn, hd⟩ := h t ht
  exact decodeFromProofRlp_legible hinv hp.isList hn hp.resolved hp.encodable hd

/-! ## Shortened nodes -/

/-- The nodes that are made from a leaf or an extension by dropping the start of its path. -/
def shortenings : Trie → List Trie
  | leaf p v => (List.range (p.length + 1)).map fun i => leaf (p.drop i) v
  | ext p c => (List.range (p.length + 1)).map fun i => ext (p.drop i) c
  | _ => []

theorem setRootNode_ok {m : Mpt} {c : Cell} (h : m.cells[m.rootId]? = some c) (data : NodeData) :
    setRootNode m data = .ok (m.setCell m.rootId ⟨data, c.cachedReference⟩) := by
  rw [setRootNode, setNode_ok h]

theorem copyNodes_append : ∀ (nodes : List Cell) (m : Mpt),
    ∃ m', copyNodes m.size nodes m = (.ok (), m') ∧
      m'.cells = m.cells ++ nodes.map fun c => { c with cachedReference := none }
  | [], m => ⟨m, rfl, by simp⟩
  | node :: nodes, m => by
    obtain ⟨m', hm', hcells⟩ := copyNodes_append nodes (m.push ⟨node.data, none⟩)
    refine ⟨m', ?_, ?_⟩
    · unfold copyNodes
      refine (Exec.bind_ok (Exec.read_apply _ m)).trans ?_
      rw [if_neg (Nat.lt_irrefl _)]
      refine (Exec.bind_ok (addNode_ok m node.data none)).trans ?_
      rw [← size_push m ⟨node.data, none⟩]
      exact hm'
    · rw [hcells]
      simp [push]

/-- A copy of an arena has no cached references. -/
theorem fromTrie_eq {m : Mpt} (h : m.cells ≠ []) : fromTrie m = .ok (clearCaches m) := by
  obtain ⟨first, rest, hcells⟩ := List.exists_cons_of_ne_nil h
  obtain ⟨m', hm', hcells'⟩ := copyNodes_append rest (new.setCell 0 ⟨first.data, none⟩)
  have hrun : copyNodes 0 m.cells new = (.ok (), m') := by
    rw [hcells, copyNodes]
    refine (Exec.bind_ok (Exec.read_apply _ new)).trans ?_
    rw [if_pos (show 0 < new.size from Nat.one_pos)]
    exact (Exec.bind_ok (setNode_ok (c := ⟨.null, none⟩) rfl first.data)).trans hm'
  rw [fromTrie, hrun]
  refine congrArg Except.ok ?_
  have hfirst : (new.setCell 0 ⟨first.data, none⟩).cells = [⟨first.data, none⟩] := rfl
  rw [hfirst] at hcells'
  show Mpt.mk m.rootId m'.cells = clearCaches m
  rw [hcells', clearCaches, hcells]
  rfl

/-- A node that is higher than the trie is not part of it. -/
theorem Reads.setCell_above {m : Mpt} {k : NodeId} (c : Cell) : ∀ {t : Trie} {id : NodeId},
    Reads E m t id → t.Normal → (∀ u, Shape m u k → u.Normal → depth t < depth u) →
    Reads E (m.setCell k c) t id := by
  intro t
  induction t with
  | hole => exact fun _ hn => hn.elim
  | ext p x ih =>
    intro id h hn hk
    have hid : id ≠ k := fun heq => (hk _ (heq ▸ h.shape) hn).ne rfl
    obtain ⟨r, j, hc, hr, hx⟩ := h
    refine ⟨r, j, by rw [cells_setCell_ne hid, hc], hr, ih hx hn.2.2 fun u hu hun => ?_⟩
    exact (Nat.lt_succ_self _).trans (hk u hu hun)
  | branch x ih =>
    intro id h hn hk
    have hid : id ≠ k := fun heq => (hk _ (heq ▸ h.shape) hn).ne rfl
    obtain ⟨r, ids, hc, hr, hx⟩ := h
    refine ⟨r, ids, by rw [cells_setCell_ne hid, hc], hr, fun i => ?_⟩
    rcases hx i with hnone | ⟨j, hj, hne, hi⟩
    · exact .inl hnone
    · refine .inr ⟨j, hj, hne, ih i hi (hn.2 i) fun u hu hun => ?_⟩
      exact (depth_child_lt hne).trans (hk u hu hun)
  | _ =>
    intro id h hn hk
    have hid : id ≠ k := fun heq => (hk _ (heq ▸ h.shape) hn).ne rfl
    obtain ⟨r, hc, hr⟩ := h
    exact ⟨r, by rw [cells_setCell_ne hid, hc], hr⟩

theorem toEncodedPath_drop (p : List Nibble) (isLeaf : Bool) (i : Nat) :
    Hp.toEncodedPath ((p.map Nibble.toByte).drop i) isLeaf = Hp.encode (p.drop i) isLeaf := by
  rw [← List.map_drop]
  rfl

theorem shortenNodePath_leaf {m : Mpt} {p : List Nibble} {v : Bytes}
    (h : m.dataAt m.rootId = some (.leaf (Hp.encode p true) v)) :
    shortenNodePath m = (List.range (p.length + 1)).mapM fun i =>
      setRootNode new (.leaf (Hp.encode (p.drop i) true) v) := by
  unfold shortenNodePath
  simp only [h, Hp.prefixToNibs_encode, List.length_map, toEncodedPath_drop]

theorem shortenNodePath_extension {m : Mpt} {p : List Nibble} {j : NodeId}
    (h : m.dataAt m.rootId = some (.extension (Hp.encode p false) j)) :
    shortenNodePath m = (List.range (p.length + 1)).mapM fun i =>
      fromTrie m >>= fun node => setRootNode node (.extension (Hp.encode (p.drop i) false) j) := by
  unfold shortenNodePath
  simp only [h, Hp.prefixToNibs_encode, List.length_map, toEncodedPath_drop]

/-- `shorten_node_path` on the node of a trie. -/
theorem shortenNodePath_shows {m : Mpt} {t : Trie} (h : Legible E m (face E t)) (hn : t.Normal) :
    ∃ arenas, shortenNodePath m = .ok arenas ∧ Shows₂ E (shortenings t) arenas := by
  obtain ⟨hread, hdepth⟩ := h
  cases t with
  | hole => exact hn.elim
  | leaf p v =>
    obtain ⟨r, hc, -⟩ := hread
    obtain ⟨arenas, hrun, hall⟩ := Exec.mapM_forall₂ (List.range (p.length + 1))
      (f := fun i => setRootNode new (.leaf (Hp.encode (p.drop i) true) v))
      (Q := fun i m => Legible E m (face E (leaf (p.drop i) v)))
      fun i _ => ⟨_, setRootNode_ok (c := ⟨.null, none⟩) rfl _,
        ⟨none, rfl, .inl rfl⟩, Nat.le_refl 1⟩
    exact ⟨arenas, (shortenNodePath_leaf (dataAt_of_cell hc)).trans hrun,
      List.forall₂_map_left_iff.mpr hall⟩
  | ext p c =>
    have hchild : (veil E (fun _ => false) c (face E c)).Normal :=
      (view_veil (view_shown c)).normal hn.2.2
    have hshape := hread.shape
    have hnorm : (face E (ext p c)).Normal := normal_shown hn
    obtain ⟨r, j, hc, -, hx⟩ := hread
    -- the child is not above itself
    have habove : ∀ u, Shape (clearCaches m) u m.rootId → u.Normal →
        depth (veil E (fun _ => false) c (face E c)) < depth u := by
      intro u hu hun
      have hclear : Shape (clearCaches m) (face E (ext p c)) m.rootId :=
        Layout.mono (fun k data r u hc _ _ => ⟨none, by simp [Mpt.clearCaches, hc], trivial⟩) hshape
      rw [Shape.unique hu hclear hun hnorm]
      exact Nat.lt_succ_self _
    have hcell : (clearCaches m).cells[m.rootId]? =
        some ⟨.extension (Hp.encode p false) j, none⟩ := by
      simp [clearCaches, hc]
    have hne : m.cells ≠ [] := fun h => by simp [h] at hc
    obtain ⟨arenas, hrun, hall⟩ := Exec.mapM_forall₂ (List.range (p.length + 1))
      (f := fun i => fromTrie m >>= fun node =>
        setRootNode node (.extension (Hp.encode (p.drop i) false) j))
      (Q := fun i m => Legible E m (face E (ext (p.drop i) c)))
      fun i _ => by
        rw [fromTrie_eq hne]
        refine ⟨_, setRootNode_ok hcell _,
          ⟨none, j, cells_setCell_self (lt_size hcell) _, .inl rfl, ?_⟩, ?_⟩
        · exact (Reads.clearCaches hx).setCell_above _ hchild habove
        · rw [size_setCell, size_clearCaches]
          exact hdepth
    exact ⟨arenas, (shortenNodePath_extension (dataAt_of_cell hc)).trans hrun,
      List.forall₂_map_left_iff.mpr hall⟩
  | branch c =>
    obtain ⟨r, ids, hc, -⟩ := hread
    refine ⟨[], ?_, .nil⟩
    unfold shortenNodePath
    rw [dataAt_of_cell hc]
  | _ =>
    obtain ⟨r, hc, -⟩ := hread
    refine ⟨[], ?_, .nil⟩
    unfold shortenNodePath
    rw [dataAt_of_cell hc]

end Mpt
end CenoReth
