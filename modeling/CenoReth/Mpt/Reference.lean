/-
References and hashes of nodes (`calc_reference`, `encode_with_payload_len`,
`reference_encode`, `payload_length`, `reference_length`, `hash` and
`encode_trie` of `crates/mpt/src/trie.rs`).

The methods are mutually recursive through `calc_reference`, which fills the
cached references below a node before it encodes it.  They take the recursive
call as an argument `compute`, and `calcReference` ties the knot.
-/
import CenoReth.Mpt.Arena

namespace CenoReth
namespace Mpt

variable (E : Env)

/-- `OpenVM memory alignment word size`. -/
def minAlign : Nat := 4

/-- `NULL_NODE_REF_SLICE`. -/
def nullNodeRefSlice : Bytes := [Rlp.emptyStringCode]

/-- `cached_references[node_id].borrow_mut().get_or_insert_with(..)`. -/
def cachedReference (compute : NodeId → TrieM NodeRef) (id : NodeId) : TrieM NodeRef := do
  match ← cacheAt id with
  | some r => pure r
  | none =>
    let r ← compute id
    setCache id (some r)
    pure r

/-- The length of the encoded reference of a node. -/
def referenceLength (compute : NodeId → TrieM NodeRef) (id : NodeId) : TrieM Nat := do
  match ← cachedReference compute id with
  | .bytes bytes => pure bytes.length
  | .digest _ => pure (1 + 32)

/-- The encoded reference of a node. -/
def referenceEncode (compute : NodeId → TrieM NodeRef) (id : NodeId) : TrieM Bytes := do
  match ← cachedReference compute id with
  | .bytes bytes => pure bytes
  | .digest digest => pure ((Rlp.emptyStringCode + 32) :: digest)

/-- The length of the RLP payload of a node. -/
def payloadLength (compute : NodeId → TrieM NodeRef) (id : NodeId) : TrieM Nat := do
  match ← nodeAt id with
  | .null => pure 0
  | .branch nodes =>
    let lengths ← Exec.collect
      (fun i => match nodes i with
        | none => pure 1
        | some id => referenceLength compute id) (List.finRange 16)
    pure (1 + lengths.sum)
  | .leaf encodedPath value => pure (Rlp.stringLength encodedPath + Rlp.stringLength value)
  | .extension encodedPath child =>
    let length ← referenceLength compute child
    pure (Rlp.stringLength encodedPath + length)
  | .digest _ => pure 32

/-- The RLP encoding of a node.  The header is written from the given length. -/
def encodeWithPayloadLen (compute : NodeId → TrieM NodeRef) (id : NodeId) (payloadLength : Nat) :
    TrieM Bytes := do
  match ← nodeAt id with
  | .null => pure [Rlp.emptyStringCode]
  | .branch nodes =>
    let children ← Exec.collect
      (fun i => match nodes i with
        | some id => referenceEncode compute id
        | none => pure [Rlp.emptyStringCode]) (List.finRange 16)
    -- in the MPT reference, branches have values so always add empty value
    pure ((Rlp.Header.mk true payloadLength).encode ++ children.flatten ++ [Rlp.emptyStringCode])
  | .leaf encodedPath value =>
    pure ((Rlp.Header.mk true payloadLength).encode ++ Rlp.encodeString encodedPath ++
      Rlp.encodeString value)
  | .extension encodedPath child =>
    let reference ← referenceEncode compute child
    pure ((Rlp.Header.mk true payloadLength).encode ++ Rlp.encodeString encodedPath ++ reference)
  | .digest digest => pure (Rlp.encodeString digest)

/-- The reference of a node, from its data and the references of its children. -/
def calcReference : Nat → NodeId → TrieM NodeRef
  | 0, _ => Exec.fail .stackOverflow
  | fuel + 1, id => do
    match ← nodeAt id with
    | .null => pure (.bytes nullNodeRefSlice)
    | .digest digest => pure (.digest digest)
    | _ =>
      let payloadLength ← payloadLength (calcReference fuel) id
      let rlpLength := payloadLength + Rlp.lengthOfLength payloadLength
      let encoded ← encodeWithPayloadLen (calcReference fuel) id payloadLength
      if rlpLength < 32 then pure (.bytes encoded)
      else pure (.digest (E.keccak256 encoded).bytes)

/-- Run a recursive method with as much stack as the arena has nodes. -/
def withStack {α : Type} (x : Nat → TrieM α) : TrieM α := do
  let fuel ← Exec.read size
  x fuel

/-- `B256` of a reference: a digest, or the hash of an inlined node. -/
def referenceHash : NodeRef → TrieM B256
  | .digest digest => orPanic (B256.fromSlice digest)
  | .bytes bytes => pure (E.keccak256 bytes)

/-- The root hash. -/
def hash : TrieM B256 := do
  let rootId ← Exec.read rootId
  match ← nodeAt rootId with
  | .null => pure E.emptyRootHash
  | _ =>
    let r ← withStack fun fuel => cachedReference (calcReference E fuel) rootId
    referenceHash E r

/-- The hash of the subtree at a node. -/
def subtreeHash (id : NodeId) : TrieM B256 := do
  match ← nodeAt id with
  | .null => pure E.emptyRootHash
  | _ =>
    let r ← withStack fun fuel => calcReference E fuel id
    referenceHash E r

/-- Whether the root can escape its arena as a digest. -/
def rootIsHashAddressed : TrieM Bool := do
  let rootId ← Exec.read rootId
  match ← withStack fun fuel => calcReference E fuel rootId with
  | .digest _ => pure true
  | .bytes _ => pure false

/-- The encoding of a subtree: every node padded to the alignment, in pre-order. -/
def encodeTrieInternal : Nat → NodeId → TrieM Bytes
  | 0, _ => Exec.fail .stackOverflow
  | fuel + 1, id => do
    let payloadLength ← payloadLength (calcReference E fuel) id
    let node ← encodeWithPayloadLen (calcReference E fuel) id payloadLength
    let rlpLength := payloadLength + Rlp.lengthOfLength payloadLength
    let paddingLen := (minAlign - rlpLength % minAlign) % minAlign
    let padded := node ++ List.replicate paddingLen 0
    match ← nodeAt id with
    | .branch childs =>
      let children ← Exec.collect
        (fun i => match childs i with
          | some child => encodeTrieInternal fuel child
          | none => pure []) (List.finRange 16)
      pure (padded ++ children.flatten)
    | .extension _ child =>
      let rest ← encodeTrieInternal fuel child
      pure (padded ++ rest)
    | _ => pure padded

def encodeTrie : TrieM Bytes := do
  let rootId ← Exec.read rootId
  withStack fun fuel => encodeTrieInternal E fuel rootId

end Mpt
end CenoReth
