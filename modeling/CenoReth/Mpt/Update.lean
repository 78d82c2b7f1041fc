/-
Lookup, insertion and deletion on the arena (`get_internal`, `insert_internal`
and `delete_internal` of `crates/mpt/src/trie.rs`).

Updates rewrite nodes in place, append new nodes to the arena, and forget the
cached reference of every node on the path once something below it changed.
-/
import CenoReth.Mpt.Reference

namespace CenoReth
namespace Mpt

open Hp

/-- `Err(Error::NodeNotResolved(B256::from_slice(digest)))`. -/
def notResolved {α : Type} (digest : Bytes) : TrieM α := do
  let d ← orPanic (B256.fromSlice digest)
  Exec.fail (.err (.nodeNotResolved d))

def getInternal : Nat → NodeId → List UInt8 → TrieM (Option Bytes)
  | 0, _, _ => Exec.fail .stackOverflow
  | fuel + 1, id, keyNibs => do
    match ← nodeAt id with
    | .null => pure none
    | .branch nodes =>
      match keyNibs with
      | i :: tail =>
        match nodes (← slotIndex i) with
        | some child => getInternal fuel child tail
        | none => pure none
      | [] => pure none
    | .leaf pathBytes value =>
      let same ← orPanic (encodedPathEqNibs pathBytes keyNibs)
      pure (if same then some value else none)
    | .extension pathBytes child =>
      match ← orPanic (encodedPathStripPrefix pathBytes keyNibs) with
      | some tail => getInternal fuel child tail
      | none => pure none
    | .digest digest => notResolved digest

/-- `if updated { self.invalidate_ref_cache(node_id) }`. -/
def finishUpdate (id : NodeId) (updated : Bool) : TrieM Bool := do
  if updated then invalidateRefCache id
  pure updated

/-- A branch over two new children, under an extension if they share a path. -/
def forkNode (selfNibs keyNibs : List UInt8) (commonLen : Nat) (self key : NodeId) :
    TrieM NodeData := do
  let i ← slotIndex (← orPanic selfNibs[commonLen]?)
  let j ← slotIndex (← orPanic keyNibs[commonLen]?)
  let children := Function.update (Function.update (fun _ => none) i (some self)) j (some key)
  if commonLen > 0 then
    let branchId ← addNode (.branch children) none
    pure (.extension (toEncodedPath (selfNibs.take commonLen) false) branchId)
  else pure (.branch children)

/-- Insertion at a leaf. -/
def insertAtLeaf (id : NodeId) (pre oldValue : Bytes) (keyNibs : List UInt8) (value : Bytes) :
    TrieM Bool := do
  let selfNibs := prefixToNibs pre
  let commonLen := lcp selfNibs keyNibs
  if commonLen = selfNibs.length ∧ commonLen = keyNibs.length then
    if oldValue = value then pure false
    else
      setNode id (.leaf pre value)
      pure true
  else if commonLen = selfNibs.length ∨ commonLen = keyNibs.length then
    Exec.fail (.err .valueInBranch)
  else
    -- otherwise, create a branch with two children
    let splitPoint := commonLen + 1
    let leaf1 ← addNode (.leaf (toEncodedPath (selfNibs.drop splitPoint) true) oldValue) none
    let leaf2 ← addNode (.leaf (toEncodedPath (keyNibs.drop splitPoint) true) value) none
    let newNode ← forkNode selfNibs keyNibs commonLen leaf1 leaf2
    setNode id newNode
    pure true

/-- What an extension leads to below the point where its path is split. -/
def splitChild (selfNibs : List UInt8) (splitPoint : Nat) (child : NodeId) : TrieM NodeId :=
  if splitPoint < selfNibs.length then
    addNode (.extension (toEncodedPath (selfNibs.drop splitPoint) false) child) none
  else pure child

/-- Insertion at an extension whose path parts from the key. -/
def splitExtension (id : NodeId) (selfNibs : List UInt8) (child : NodeId)
    (keyNibs : List UInt8) (commonLen : Nat) (value : Bytes) : TrieM Bool := do
  let splitPoint := commonLen + 1
  let self ← splitChild selfNibs splitPoint child
  let leaf ← addNode (.leaf (toEncodedPath (keyNibs.drop splitPoint) true) value) none
  let newNode ← forkNode selfNibs keyNibs commonLen self leaf
  setNode id newNode
  pure true

def insertInternal : Nat → NodeId → List UInt8 → Bytes → TrieM Bool
  | 0, _, _, _ => Exec.fail .stackOverflow
  | fuel + 1, id, keyNibs, value => do
    let data ← nodeAt id
    let updated ← (match data with
      | .null => do
        setNode id (.leaf (toEncodedPath keyNibs true) value)
        pure true
      | .branch children =>
        match keyNibs with
        | i :: tail => do
          let i ← slotIndex i
          match children i with
          | some child => insertInternal fuel child tail value
          | none => do
            let leaf ← addNode (.leaf (toEncodedPath tail true) value) none
            setNode id (.branch (Function.update children i (some leaf)))
            pure true
        | [] => Exec.fail (.err .valueInBranch)
      | .leaf pre oldValue => insertAtLeaf id pre oldValue keyNibs value
      | .extension pre child => do
        let selfNibs := prefixToNibs pre
        let commonLen := lcp selfNibs keyNibs
        if commonLen = selfNibs.length then
          insertInternal fuel child (keyNibs.drop commonLen) value
        else if commonLen = keyNibs.length then Exec.fail (.err .valueInBranch)
        else splitExtension id selfNibs child keyNibs commonLen value
      | .digest digest => notResolved digest : TrieM Bool)
    finishUpdate id updated

/-- The indices of the children a branch still has. -/
def remaining (children : Fin 16 → Option NodeId) : List (Fin 16) :=
  (List.finRange 16).filter fun i => (children i).isSome

/-- Replace a branch that has lost a child.  If only one child is left, the branch
is converted. -/
def convertBranch (id : NodeId) (children : Fin 16 → Option NodeId) : TrieM Unit := do
  match remaining children with
  -- there will always be at least one remaining node
  | [] => Exec.fail .panic
  | [index] =>
    let child ← orPanic (children index)
    let newNode ← (do
      match ← nodeAt child with
      | .leaf pre value =>
        pure (.leaf (toEncodedPath (Nibble.toByte index :: prefixToNibs pre) true) value)
      | .extension pre childChild =>
        pure (.extension (toEncodedPath (Nibble.toByte index :: prefixToNibs pre) false) childChild)
      | .branch _ => pure (.extension (toEncodedPath [Nibble.toByte index] false) child)
      | .digest _ => pure (.extension (toEncodedPath [Nibble.toByte index] false) child)
      | .null => Exec.fail .panic : TrieM NodeData)
    setNode id newNode
  | _ => setNode id (.branch children)

/-- Restore the form of an extension whose child changed. -/
def mergeExtension (id : NodeId) (pre : Bytes) (child : NodeId) : TrieM Unit := do
  let selfNibs := prefixToNibs pre
  match ← nodeAt child with
  -- if the child is empty, remove the extension
  | .null => setNode id .null
  -- for a leaf, replace the extension with the extended leaf
  | .leaf childPath value =>
    setNode id (.leaf (toEncodedPath (selfNibs ++ prefixToNibs childPath) true) value)
  -- for an extension, replace the extension with the extended extension
  | .extension childPath grandchild =>
    setNode id (.extension (toEncodedPath (selfNibs ++ prefixToNibs childPath) false) grandchild)
  -- for a branch or digest, the extension is still correct
  | .branch _ => setNode id (.extension pre child)
  | .digest _ => setNode id (.extension pre child)

def deleteInternal : Nat → NodeId → List UInt8 → TrieM Bool
  | 0, _, _ => Exec.fail .stackOverflow
  | fuel + 1, id, keyNibs => do
    let data ← nodeAt id
    let updated ← (match data with
      | .null => pure false
      | .branch children =>
        match keyNibs with
        | i :: tail => do
          let i ← slotIndex i
          match children i with
          | some child => do
            if ← deleteInternal fuel child tail then
              -- if the node is now empty, remove it
              let empty := (← nodeAt child) = .null
              convertBranch id (if empty then Function.update children i none else children)
              pure true
            else pure false
          | none => pure false
        | [] => Exec.fail (.err .valueInBranch)
      | .leaf pre _ => do
        if prefixToNibs pre = keyNibs then
          setNode id .null
          pure true
        else pure false
      | .extension pre child => do
        match Patricia.stripPrefix (prefixToNibs pre) keyNibs with
        | some tail =>
          if ← deleteInternal fuel child tail then
            mergeExtension id pre child
            pure true
          else pure false
        | none => pure false
      | .digest digest => notResolved digest : TrieM Bool)
    finishUpdate id updated

/-! ## Public methods -/

/-- `get_nibbles`. -/
def getNibbles (keyNibs : List UInt8) : TrieM (Option Bytes) := do
  let rootId ← Exec.read rootId
  withStack fun fuel => getInternal fuel rootId keyNibs

def get (key : Bytes) : TrieM (Option Bytes) := getNibbles (toNibs key)

/-- `insert_nibbles`. -/
def insertNibbles (keyNibs : List UInt8) (value : Bytes) : TrieM Bool := do
  let rootId ← Exec.read rootId
  withStack fun fuel => insertInternal fuel rootId keyNibs value

def insert (key value : Bytes) : TrieM Bool := insertNibbles (toNibs key) value

/-- `delete_nibbles`. -/
def deleteNibbles (keyNibs : List UInt8) : TrieM Bool := do
  let rootId ← Exec.read rootId
  withStack fun fuel => deleteInternal fuel rootId keyNibs

def delete (key : Bytes) : TrieM Bool := deleteNibbles (toNibs key)

def isEmpty : TrieM Bool := do
  let data ← nodeAt (← Exec.read rootId)
  pure (data = .null)

end Mpt
end CenoReth
