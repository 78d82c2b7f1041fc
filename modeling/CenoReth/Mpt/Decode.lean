/-
Reading a trie from bytes (`decode_trie` and `decode_trie_internal` of
`crates/mpt/src/trie.rs`, `NodeRef::from_rlp_slice` of `crates/mpt/src/node.rs`).

The input holds every node, padded, in pre-order.  Each node is checked against
the reference that its parent holds for it, and the kind of a list node is
inferred from the number of its items and from the leaf flag of its path.  The
input is adversarial: what the checks accept is the subject of
`Mpt/Authentic.lean`.
-/
import CenoReth.Mpt.Layout

namespace CenoReth
namespace Mpt

variable (E : Env)

/-- `NULL_NODE_ID`. -/
def nullNodeId : NodeId := 0

/-- An item at the front of a buffer: its payload, the bytes it takes, and what follows. -/
structure Taken where
  list : Bool
  payload : Bytes
  raw : Bytes
  rest : Bytes

/-- `Header::decode(&mut buf)?` followed by `advance_unchecked(&mut buf, payload_length)`,
which panics when the buffer is too short. -/
def takeItem (buf : Bytes) : Except Halt Taken :=
  match E.decodeHeader buf with
  | .error e => .error (.err (.rlpError e))
  | .ok (h, rest) =>
    if h.payloadLength ≤ rest.length then
      .ok { list := h.list
            payload := rest.take h.payloadLength
            raw := buf.take (buf.length - (rest.drop h.payloadLength).length)
            rest := rest.drop h.payloadLength }
    else .error .panic

/-- Skip the padding after a node. -/
def takePadding (rlpNodeLength : Nat) (bytes : Bytes) : Except Halt Bytes :=
  let paddingLen := (minAlign - rlpNodeLength % minAlign) % minAlign
  if paddingLen ≤ bytes.length then .ok (bytes.drop paddingLen) else .error .panic

/-- The reference of a node, which has to match the reference its parent holds. -/
def checkRef (node : Taken) (expected : NodeRef) : Except Halt NodeRef :=
  if node.raw.length < 32 then
    if node.raw = expected.asSlice then .ok (.bytes node.raw) else .error (.err .nodeRefMismatch)
  else if node.payload.length = 32 ∧ node.list = false then
    if node.payload = expected.asSlice then .ok expected else .error (.err .nodeRefMismatch)
  else if (E.keccak256 node.raw).bytes = expected.asSlice then .ok expected
  else .error (.err .nodeRefMismatch)

/-- `NodeRef::from_rlp_slice`. -/
def fromRlpSlice (slice : Bytes) : NodeRef :=
  if slice.length = 33 then .digest (slice.drop 1) else .bytes slice

/-- A child of a branch, if its slot is not empty. -/
def decodeSlot (decode : Bytes → NodeRef → TrieM (NodeId × Bytes)) (raw bytes : Bytes) :
    TrieM (Option NodeId × Bytes) :=
  let expected := fromRlpSlice raw
  if expected.asSlice = nullNodeRefSlice then pure (none, bytes)
  else do
    let (id, bytes) ← decode bytes expected
    pure (some id, bytes)

/-- The last `n` children of a branch: an item of the payload, then the child. -/
def decodeChildren (decode : Bytes → NodeRef → TrieM (NodeId × Bytes)) :
    Nat → Bytes → Bytes → TrieM (List (Option NodeId) × Bytes × Bytes)
  | 0, payload, bytes => pure ([], payload, bytes)
  | n + 1, payload, bytes => do
    let item ← Exec.ofExcept (takeItem E payload)
    let (child, bytes) ← decodeSlot decode item.raw bytes
    let (children, payload, bytes) ← decodeChildren decode n item.rest bytes
    pure (child :: children, payload, bytes)

/-- A node whose payload is a list.  Its kind is inferred from the number of items and
from the leaf flag of the path. -/
def decodeList (decode : Bytes → NodeRef → TrieM (NodeId × Bytes)) (payload bytes : Bytes)
    (nodeRef : NodeRef) : TrieM (NodeId × Bytes) := do
  let item0 ← Exec.ofExcept (takeItem E payload)
  let item1 ← Exec.ofExcept (takeItem E item0.rest)
  if item1.rest = [] then
    -- either an extension or leaf
    let pre ← orPanic item0.payload.head?
    if pre &&& Hp.hpFlagLeaf = 0 then
      let (child, bytes) ← decode bytes (fromRlpSlice item1.raw)
      let id ← addNode (.extension item0.payload child) (some nodeRef)
      pure (id, bytes)
    else
      let id ← addNode (.leaf item0.payload item1.payload) (some nodeRef)
      pure (id, bytes)
  else
    let (child0, bytes) ← decodeSlot decode item0.raw bytes
    let (child1, bytes) ← decodeSlot decode item1.raw bytes
    let (children, payload, bytes) ← decodeChildren E decode 14 item1.rest bytes
    if payload = nullNodeRefSlice then
      let childs := fun i : Fin 16 => (child0 :: child1 :: children)[i.val]?.join
      let id ← addNode (.branch childs) (some nodeRef)
      pure (id, bytes)
    else Exec.fail (.err .valueInBranch)

def decodeTrieInternal : Nat → Bytes → NodeRef → TrieM (NodeId × Bytes)
  | 0, _, _ => Exec.fail .stackOverflow
  | fuel + 1, bytes, expected => do
    let node ← Exec.ofExcept (takeItem E bytes)
    let bytes ← Exec.ofExcept (takePadding node.raw.length node.rest)
    let nodeRef ← Exec.ofExcept (checkRef E node expected)
    if node.list = false then
      if node.payload.length = 0 then pure (nullNodeId, bytes)
      else if node.payload.length = 32 then
        let id ← addNode (.digest node.payload) (some (.digest node.payload))
        pure (id, bytes)
      else Exec.fail (.err (.rlpError .unexpectedLength))
    else decodeList E (decodeTrieInternal fuel) node.payload bytes nodeRef

/-- The reference of the first node, which nobody holds. -/
def rootRef (bytes : Bytes) : Except Halt NodeRef := do
  let node ← takeItem E bytes
  if node.raw.length < 32 then .ok (.bytes node.raw)
  else if node.list = false then .ok (.digest node.payload)
  else .ok (.digest (E.keccak256 node.raw).bytes)

/-- `decode_trie`: a trie, and what follows it.  The number of nodes is only a hint for
the capacity of the arena.  The stack is as deep as the input is long. -/
def decodeTrie (bytes : Bytes) (_numNodes : Nat) : Except Halt (Mpt × Bytes) :=
  if bytes = [Rlp.emptyStringCode, 0, 0, 0] then .ok (new, bytes)
  else do
    let expected ← rootRef E bytes
    match decodeTrieInternal E (bytes.length + 1) bytes expected new with
    | (.ok (rootId, rest), m) => .ok ({ m with rootId := rootId }, rest)
    | (.error h, _) => .error h

end Mpt
end CenoReth
