/-
The node arena (`crates/mpt/src/node.rs` and the state of `crates/mpt/src/trie.rs`).

All nodes of a trie live in one vector and refer to each other by index.  Next
to each node the arena keeps the reference its parent would store, once it has
been computed.  The source has two vectors, `nodes` and `cached_references`, to
which every node is pushed at the same time.  Here they are one vector of cells.

A method on the trie is a computation on this state.  Indexing outside a vector
and the other panics of the source are the outcome `panic`.  Recursive methods
follow indices, so they take the depth of the stack as an argument, and
`stackOverflow` is what an arena with a cycle leads to.
-/
import CenoReth.Exec
import CenoReth.Hp
import Mathlib.Data.Fintype.Fin
import Mathlib.Order.Lattice.Nat

namespace CenoReth

/-- What the development takes from the libraries below it, and how it is built. -/
structure Env where
  /-- `keccak256`, an arbitrary function. -/
  keccak256 : Bytes → B256
  /-- `alloy_trie::EMPTY_ROOT_HASH`. -/
  emptyRootHash : B256
  /-- `alloy_rlp::Header::decode`: the header of the first item, and what follows it. -/
  decodeHeader : Bytes → Except Rlp.RlpError (Rlp.Header × Bytes)
  /-- Whether an integer overflow panics.  Otherwise the result wraps around. -/
  overflowChecks : Bool
  /-- Whether `debug_assert_eq!` is evaluated. -/
  debugAssertions : Bool

/-- The hash of the empty trie. -/
def emptyRoot : B256 :=
  B256.ofNat 0x56e81f171bcc55a6ff8345e692c0f86e5b48e01b996cadc001622fb5e363b421

/-- A release build whose hash function is known on finitely many inputs, the empty trie
among them. -/
def Env.ofTable (table : List (Bytes × B256)) : Env where
  keccak256 b := ((([Rlp.emptyStringCode], emptyRoot) :: table).lookup b).getD (B256.ofNat 0)
  emptyRootHash := emptyRoot
  decodeHeader := Rlp.decodeHeader
  overflowChecks := false
  debugAssertions := false

abbrev NodeId := Nat

inductive NodeData where
  | null
  | branch (children : Fin 16 → Option NodeId)
  | leaf (path value : Bytes)
  | extension (path : Bytes) (child : NodeId)
  | digest (digest : Bytes)
  deriving DecidableEq

/-- How a node is referred to in its parent. -/
inductive NodeRef where
  | bytes (bytes : Bytes)
  | digest (digest : Bytes)
  deriving DecidableEq, Repr

def NodeRef.asSlice : NodeRef → Bytes
  | .bytes slice => slice
  | .digest slice => slice

/-- The errors of the trie. -/
inductive Error where
  | nodeRefMismatch
  | nodeNotResolved (digest : B256)
  | rlpError (e : Rlp.RlpError)
  | valueInBranch
  | invalidFrontierPrefix
  | inlineFrontierChunk
  deriving DecidableEq

/-- How a method ends without a value: an `Err`, a panic, or no end at all. -/
inductive Halt where
  | err (e : Error)
  | panic
  | stackOverflow
  deriving DecidableEq

/-- One index of the arena. -/
structure Cell where
  data : NodeData
  cachedReference : Option NodeRef
  deriving DecidableEq

structure Mpt where
  rootId : NodeId
  cells : List Cell
  deriving DecidableEq

/-- A method that may write the arena. -/
abbrev TrieM := Exec Halt Mpt

namespace Mpt

/-- `Mpt::new`: one null node, which is the root. -/
def new : Mpt := { rootId := 0, cells := [⟨.null, none⟩] }

def size (m : Mpt) : Nat := m.cells.length

/-! ## Access to the arena -/

/-- An operation that panics when it has no result. -/
def orPanic {α : Type} (o : Option α) : TrieM α :=
  Exec.ofExcept (o.elim (.error .panic) .ok)

/-- `self.nodes[node_id]`. -/
def nodeAt (id : NodeId) : TrieM NodeData := do
  let cell ← orPanic (← Exec.read fun m => m.cells[id]?)
  pure cell.data

/-- `self.nodes[node_id] = data`. -/
def setNode (id : NodeId) (data : NodeData) : TrieM Unit := do
  let _ ← nodeAt id
  Exec.write fun m => { m with cells := m.cells.modify id fun c => { c with data := data } }

/-- `self.cached_references[node_id].borrow()`. -/
def cacheAt (id : NodeId) : TrieM (Option NodeRef) := do
  let cell ← orPanic (← Exec.read fun m => m.cells[id]?)
  pure cell.cachedReference

def setCache (id : NodeId) (r : Option NodeRef) : TrieM Unit := do
  let _ ← nodeAt id
  Exec.write fun m =>
    { m with cells := m.cells.modify id fun c => { c with cachedReference := r } }

/-- Appends a node to the arena and returns its index. -/
def addNode (data : NodeData) (nodeRef : Option NodeRef) : TrieM NodeId := do
  let id ← Exec.read size
  Exec.write fun m => { m with cells := m.cells ++ [⟨data, nodeRef⟩] }
  pure id

def invalidateRefCache (id : NodeId) : TrieM Unit := setCache id none

/-- The index of a nibble in a `[_; 16]`. -/
def slotIndex (i : UInt8) : TrieM (Fin 16) :=
  orPanic (if h : i.toNat < 16 then some ⟨i.toNat, h⟩ else none)

/-! ## How the accesses run -/

@[simp] theorem orPanic_some {α : Type} (a : α) : orPanic (some a) = pure a := rfl

theorem nodeAt_ok {m : Mpt} {id : NodeId} {c : Cell} (h : m.cells[id]? = some c) :
    nodeAt id m = (.ok c.data, m) := by
  unfold nodeAt
  rw [Exec.bind_ok (Exec.read_apply _ m), h, orPanic_some]
  rfl

theorem cacheAt_ok {m : Mpt} {id : NodeId} {c : Cell} (h : m.cells[id]? = some c) :
    cacheAt id m = (.ok c.cachedReference, m) := by
  unfold cacheAt
  rw [Exec.bind_ok (Exec.read_apply _ m), h, orPanic_some]
  rfl

/-- The arena with one cell replaced. -/
def setCell (m : Mpt) (id : NodeId) (c : Cell) : Mpt := { m with cells := m.cells.set id c }

/-- The arena with one more cell. -/
def push (m : Mpt) (c : Cell) : Mpt := { m with cells := m.cells ++ [c] }

theorem lt_size {m : Mpt} {id : NodeId} {c : Cell} (h : m.cells[id]? = some c) : id < m.size :=
  (List.getElem?_eq_some_iff.mp h).1

theorem cells_setCell_self {m : Mpt} {id : NodeId} (h : id < m.size) (c : Cell) :
    (m.setCell id c).cells[id]? = some c :=
  List.getElem?_set_self h

theorem cells_setCell_ne {m : Mpt} {id k : NodeId} (h : k ≠ id) (c : Cell) :
    (m.setCell id c).cells[k]? = m.cells[k]? := by
  simp [setCell, Ne.symm h]

@[simp] theorem size_setCell (m : Mpt) (id : NodeId) (c : Cell) : (m.setCell id c).size = m.size := by
  simp [setCell, size]

@[simp] theorem rootId_setCell (m : Mpt) (id : NodeId) (c : Cell) :
    (m.setCell id c).rootId = m.rootId := rfl

@[simp] theorem setCell_setCell (m : Mpt) (id : NodeId) (c c' : Cell) :
    (m.setCell id c).setCell id c' = m.setCell id c' := by
  simp [setCell]

theorem setCell_same {m : Mpt} {id : NodeId} {c : Cell} (h : m.cells[id]? = some c) :
    m.setCell id c = m := by
  obtain ⟨hlt, rfl⟩ := List.getElem?_eq_some_iff.mp h
  simp [setCell]

theorem cells_push_lt {m : Mpt} {k : NodeId} (h : k < m.size) (c : Cell) :
    (m.push c).cells[k]? = m.cells[k]? := List.getElem?_append_left h

@[simp] theorem cells_push_self (m : Mpt) (c : Cell) : (m.push c).cells[m.size]? = some c := by
  simp [push, size]

@[simp] theorem size_push (m : Mpt) (c : Cell) : (m.push c).size = m.size + 1 := by
  simp [push, size]

@[simp] theorem rootId_push (m : Mpt) (c : Cell) : (m.push c).rootId = m.rootId := rfl

theorem modify_eq_setCell {m : Mpt} {id : NodeId} {c : Cell} (h : m.cells[id]? = some c)
    (f : Cell → Cell) : { m with cells := m.cells.modify id f } = m.setCell id (f c) := by
  obtain ⟨hlt, rfl⟩ := List.getElem?_eq_some_iff.mp h
  simp [setCell, List.modify_eq_set_getElem?, hlt]

theorem setNode_ok {m : Mpt} {id : NodeId} {c : Cell} (h : m.cells[id]? = some c)
    (data : NodeData) :
    setNode id data m = (.ok (), m.setCell id ⟨data, c.cachedReference⟩) := by
  unfold setNode
  rw [Exec.bind_ok (nodeAt_ok h), Exec.write_apply, modify_eq_setCell h]

theorem setCache_ok {m : Mpt} {id : NodeId} {c : Cell} (h : m.cells[id]? = some c)
    (r : Option NodeRef) : setCache id r m = (.ok (), m.setCell id ⟨c.data, r⟩) := by
  unfold setCache
  rw [Exec.bind_ok (nodeAt_ok h), Exec.write_apply, modify_eq_setCell h]

theorem addNode_ok (m : Mpt) (data : NodeData) (r : Option NodeRef) :
    addNode data r m = (.ok m.size, m.push ⟨data, r⟩) := rfl

@[simp] theorem slotIndex_toByte (n : Nibble) : slotIndex n.toByte = pure n := by
  have hn : n.toByte.toNat = n.val := by
    revert n
    decide
  unfold slotIndex
  rw [dif_pos (by rw [hn]; exact n.isLt)]
  simp [hn]

end Mpt
end CenoReth
