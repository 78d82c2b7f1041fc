/-
Frontiers (`collect_frontier_boundaries`, `build_frontier_weighted` and
`replace_frontier_slot` of `crates/mpt/src/trie.rs`).

A frontier is a trie in which the subtrees that a block touches are replaced by
their digests.  The subtrees travel as chunks, each with the position of its slot
in the frontier.  After a chunk was updated, its new root goes into the slot.

The keys have weights, which are machine words.  Their sums overflow like any
other: with overflow checks the sum panics, and without them it wraps around.
-/
import CenoReth.Mpt.Decode
import CenoReth.Mpt.Update
import CenoReth.Usize
import Mathlib.Data.List.Sort

namespace CenoReth
namespace Mpt

open Hp

variable (E : Env)

/-! ## Data -/

/-- Limits on one chunk. -/
structure FrontierLimits where
  maxNodes : Nat
  maxBytes : Nat
  maxKeys : Nat

/-- One independently authenticated subtree. -/
structure FrontierChunk where
  /-- Absolute nibble prefix locating the subtree (or empty branch slot) in the frontier. -/
  prefixNibs : List UInt8
  expectedRoot : B256
  numNodes : Nat
  bytes : Bytes
  deriving DecidableEq

/-- Encoded digest frontier and its ordered subtree chunks. -/
structure MptFrontier where
  numNodes : Nat
  bytes : Bytes
  chunks : List FrontierChunk
  deriving DecidableEq

/-! ## Replacing a slot -/

/-- The node that stands for a chunk with the given root. -/
def frontierNode (newRoot : B256) : NodeData :=
  if newRoot = E.emptyRootHash then .null else .digest newRoot.bytes

/-- The empty slot of a branch. -/
def fillEmptySlot (id : NodeId) (children : Fin 16 → Option NodeId) (i : Fin 16)
    (newRoot : B256) : TrieM Unit :=
  if newRoot = E.emptyRootHash then pure ()
  else do
    let child ← addNode (.digest newRoot.bytes) none
    setNode id (.branch (Function.update children i (some child)))

def replaceFrontierSlotInternal : Nat → NodeId → List UInt8 → B256 → B256 → TrieM Unit
  | 0, _, _, _, _ => Exec.fail .stackOverflow
  | _ + 1, id, [], expectedRoot, newRoot => do
    let root ← subtreeHash E id
    if root = expectedRoot then
      setNode id (frontierNode E newRoot)
      invalidateRefCache id
    else Exec.fail (.err .nodeRefMismatch)
  | fuel + 1, id, head :: tail, expectedRoot, newRoot => do
    match ← nodeAt id with
    | .branch children =>
      let i ← slotIndex head
      match children i, tail with
      | none, [] =>
        if expectedRoot = E.emptyRootHash then
          fillEmptySlot E id children i newRoot
          invalidateRefCache id
        else Exec.fail (.err .nodeRefMismatch)
      | none, _ :: _ => Exec.fail (.err .invalidFrontierPrefix)
      | some child, tail =>
        replaceFrontierSlotInternal fuel child tail expectedRoot newRoot
        invalidateRefCache id
    | .extension path child =>
      match Patricia.stripPrefix (prefixToNibs path) (head :: tail) with
      | some tail =>
        replaceFrontierSlotInternal fuel child tail expectedRoot newRoot
        invalidateRefCache id
      | none => Exec.fail (.err .invalidFrontierPrefix)
    | _ => Exec.fail (.err .invalidFrontierPrefix)

/-- Replaces an authenticated digest/empty frontier slot after its chunk was updated. -/
def replaceFrontierSlot (prefixNibs : List UInt8) (expectedRoot newRoot : B256) : TrieM Unit := do
  let rootId ← Exec.read rootId
  withStack fun fuel => replaceFrontierSlotInternal E fuel rootId prefixNibs expectedRoot newRoot

/-! ## Boundaries -/

def subtreeNumNodes : Nat → NodeId → TrieM Nat
  | 0, _ => Exec.fail .stackOverflow
  | fuel + 1, id => do
    match ← nodeAt id with
    | .branch children =>
      let counts ← Exec.collect
        (fun i => match children i with
          | some child => subtreeNumNodes fuel child
          | none => pure 0) (List.finRange 16)
      pure (1 + counts.sum)
    | .extension _ child =>
      let count ← subtreeNumNodes fuel child
      pure (1 + count)
    | _ => pure 1

def encodedSubtrie (id : NodeId) : TrieM Bytes :=
  withStack fun fuel => encodeTrieInternal E fuel id

/-- `matches!(self.calc_reference(node_id), NodeRef::Digest(_))`. -/
def isHashAddressed (id : NodeId) : TrieM Bool := do
  match ← withStack fun fuel => calcReference E fuel id with
  | .digest _ => pure true
  | .bytes _ => pure false

/-- A boundary: the position of a chunk, and its root unless the slot is empty. -/
abbrev Boundary := List UInt8 × Option NodeId

/-- All chunks can be replaced by digests. -/
def allHashAddressed : List Boundary → TrieM Bool
  | [] => pure true
  | (_, none) :: out => allHashAddressed out
  | (_, some id) :: out => do
    if ← isHashAddressed E id then allHashAddressed out else pure false

/-- The boundaries below a node, or the node itself if there are none or if one of them is
inlined. -/
def boundariesOr (own : Boundary) (out : List Boundary) : TrieM (List Boundary) := do
  let digests ← allHashAddressed E out
  pure (if digests = true ∧ out ≠ [] then out else [own])

/-- A key as nibbles, with its weight. -/
abbrev WeightedKey := List UInt8 × UInt64

/-- The keys of a branch that continue with the given nibble. -/
def childKeys (keys : List WeightedKey) (depth : Nat) (nibble : Fin 16) : List WeightedKey :=
  keys.filter fun key => key.1[depth]? = some (Nibble.toByte nibble)

/-- An overflow that is checked is a panic. -/
def orOverflow : Option UInt64 → Except Halt UInt64
  | some n => .ok n
  | none => .error .panic

/-- `over_limit`.  The weights are only added if neither of the other limits is exceeded. -/
def overLimit (limits : FrontierLimits) (nodeCount encodedLen : Nat) (keys : List WeightedKey) :
    Except Halt Bool :=
  if limits.maxNodes < nodeCount ∨ limits.maxBytes < encodedLen then .ok true
  else do
    let weight ← orOverflow (sumUsize E.overflowChecks (keys.map Prod.snd))
    .ok (decide (limits.maxKeys < weight.toNat))

/-- What the source appends to `out` for one node.  It only looks at this part of `out`. -/
def collectFrontierBoundaries (limits : FrontierLimits) :
    Nat → NodeId → List UInt8 → List WeightedKey → TrieM (List Boundary)
  | 0, _, _, _ => Exec.fail .stackOverflow
  | fuel + 1, id, prefixNibs, keys => do
    let encoded ← encodedSubtrie E id
    let nodeCount ← withStack fun fuel => subtreeNumNodes fuel id
    if ← Exec.ofExcept (overLimit E limits nodeCount encoded.length keys) then
      match ← nodeAt id with
      | .branch children =>
        let outs ← Exec.collect
          (fun nibble =>
            let keys := childKeys keys prefixNibs.length nibble
            let prefixNibs := prefixNibs ++ [Nibble.toByte nibble]
            if keys = [] then pure []
            else
              match children nibble with
              | some child => collectFrontierBoundaries limits fuel child prefixNibs keys
              | none => pure [(prefixNibs, none)]) (List.finRange 16)
        boundariesOr E (prefixNibs, some id) outs.flatten
      | .extension path child =>
        let out ← collectFrontierBoundaries limits fuel child (prefixNibs ++ prefixToNibs path) keys
        boundariesOr E (prefixNibs, some id) out
      | _ => pure [(prefixNibs, some id)]
    else pure [(prefixNibs, some id)]

/-! ## Building a frontier -/

/-- `dedup_by`: the weight of a key is added to an equal neighbour before it. -/
def dedupKeys (last : WeightedKey) : List WeightedKey → Except Halt (List WeightedKey)
  | [] => .ok [last]
  | key :: keys =>
    if key.1 = last.1 then do
      let weight ← orOverflow (addUsize E.overflowChecks last.2 key.2)
      dedupKeys (last.1, weight) keys
    else do
      let merged ← dedupKeys key keys
      .ok (last :: merged)

/-- The keys as nibbles. -/
def nibbleKeys (keys : List (B256 × UInt64)) : List WeightedKey :=
  keys.map fun key => (toNibs key.1.bytes, key.2)

/-- The keys as nibbles, sorted, each once. -/
def sortedKeys (keys : List (B256 × UInt64)) : Except Halt (List WeightedKey) :=
  match (nibbleKeys keys).insertionSort fun a b => a.1 ≤ b.1 with
  | [] => .ok []
  | key :: keys => dedupKeys E key keys

/-- Run a method on another arena. -/
def onArena {α : Type} (other : Mpt) (x : TrieM α) : TrieM (α × Mpt) := fun m =>
  match x other with
  | (.ok a, other) => (.ok (a, other), m)
  | (.error h, _) => (.error h, m)

/-- The chunk of a boundary. -/
def frontierChunk (boundary : Boundary) : TrieM FrontierChunk :=
  match boundary with
  | (prefixNibs, some id) => do
    let digest ← isHashAddressed E id
    let rootId ← Exec.read rootId
    if digest = false ∧ id ≠ rootId then Exec.fail (.err .inlineFrontierChunk)
    else
      let expectedRoot ← subtreeHash E id
      let numNodes ← withStack fun fuel => subtreeNumNodes fuel id
      let bytes ← encodedSubtrie E id
      pure ⟨prefixNibs, expectedRoot, numNodes, bytes⟩
  | (prefixNibs, none) =>
    pure ⟨prefixNibs, E.emptyRootHash, 1, [Rlp.emptyStringCode, 0, 0, 0]⟩

/-- The chunks, and the frontier with their slots replaced. -/
def frontierChunks : List Boundary → Mpt → TrieM (List FrontierChunk × Mpt)
  | [], frontier => pure ([], frontier)
  | boundary :: boundaries, frontier => do
    let chunk ← frontierChunk E boundary
    let (_, frontier) ← onArena frontier
      (replaceFrontierSlot E chunk.prefixNibs chunk.expectedRoot chunk.expectedRoot)
    let (chunks, frontier) ← frontierChunks boundaries frontier
    pure (chunk :: chunks, frontier)

/-- `debug_assert_eq!(frontier.hash(), original_root)`. -/
def debugAssertRoot (originalRoot : B256) : TrieM Unit :=
  if E.debugAssertions then do
    let root ← hash E
    if root = originalRoot then pure () else Exec.fail .panic
  else pure ()

/-- Builds a frontier while bounding the sum of per-key update weights. -/
def buildFrontierWeighted (keys : List (B256 × UInt64)) (limits : FrontierLimits) :
    TrieM MptFrontier := do
  let keys ← Exec.ofExcept (sortedKeys E keys)
  if keys = [] then
    let numNodes ← Exec.read size
    let bytes ← encodeTrie E
    pure ⟨numNodes, bytes, []⟩
  else
    let rootId ← Exec.read rootId
    let boundaries ← withStack fun fuel =>
      collectFrontierBoundaries E limits fuel rootId [] keys
    let frontier ← Exec.read id
    let (chunks, frontier) ← frontierChunks E
      (boundaries.insertionSort fun a b => a.1 ≤ b.1) frontier
    let originalRoot ← hash E
    let (_, frontier) ← onArena frontier (debugAssertRoot E originalRoot)
    let ((numNodes, bytes), _) ← onArena frontier (do
      let numNodes ← withStack fun fuel => subtreeNumNodes fuel frontier.rootId
      let bytes ← encodeTrie E
      pure (numNodes, bytes))
    pure ⟨numNodes, bytes, chunks⟩

/-- Builds a digest frontier around the subtrees containing `keys`. -/
def buildFrontier (keys : List B256) (limits : FrontierLimits) : TrieM MptFrontier :=
  buildFrontierWeighted E (keys.map fun key => (key, 1)) limits

end Mpt
end CenoReth
