/-
The eager Ethereum state (`crates/mpt/src/state.rs`).

A state is the trie of the accounts and, under hashed addresses, the storage
tries that are known.  A bundle is what the execution of a block changed, in
the order in which its hash map is iterated.

The account and integer types of the source come from its libraries.  What is
read of them is kept, and their RLP encodings are parameters.
-/
import CenoReth.Mpt.Sealed

namespace CenoReth

abbrev U256 := Fin (2 ^ 256)

instance neZero_u256 : NeZero (2 ^ 256) := ⟨by decide⟩

/-- `to_be_bytes::<32>`. -/
def U256.toBeBytes (n : U256) : Bytes := (B256.ofNat n.val).bytes

structure Address where
  bytes : Bytes
  length_bytes : bytes.length = 20
  deriving DecidableEq

/-- `alloy_trie::TrieAccount`. -/
structure TrieAccount where
  nonce : UInt64
  balance : U256
  storageRoot : B256
  codeHash : B256
  deriving DecidableEq

/-- `revm::state::AccountInfo`. -/
structure AccountInfo where
  nonce : UInt64
  balance : U256
  codeHash : B256
  deriving DecidableEq

/-- `revm::database::BundleAccount`. -/
structure BundleAccount where
  info : Option AccountInfo
  /-- `status.was_destroyed()`. -/
  wasDestroyed : Bool
  /-- The slots, each with its `present_value`, in the order of iteration. -/
  storage : List (U256 × U256)
  deriving DecidableEq

/-- `BundleState::state`, in the order of iteration. -/
abbrev Bundle := List (Address × BundleAccount)

/-- The RLP codecs of the values of the tries. -/
structure StateEnv extends Env where
  encodeAccount : TrieAccount → Bytes
  decodeAccount : Bytes → Except Rlp.RlpError TrieAccount
  encodeU256 : U256 → Bytes
  decodeU256 : Bytes → Except Rlp.RlpError U256

structure EthereumState where
  stateTrie : Mpt
  storageTries : B256 → Option Mpt

namespace EthereumState

/-- A method on the state. -/
abbrev StateM := Exec Halt EthereumState

/-- Run a method of the state trie. -/
def onStateTrie {α : Type} (x : TrieM α) : StateM α := fun s =>
  let r := x s.stateTrie
  (r.1, { s with stateTrie := r.2 })

theorem onStateTrie_apply {α : Type} {x : TrieM α} {s : EthereumState} {r : Except Halt α} {m : Mpt}
    (h : x s.stateTrie = (r, m)) : onStateTrie x s = (r, { s with stateTrie := m }) := by
  simp [onStateTrie, h]

/-- Run a method of a storage trie. -/
def onStorageTrie {α : Type} (hashedAddress : B256) (x : TrieM α) : StateM α := fun s =>
  match s.storageTries hashedAddress with
  | none => (.error .panic, s)
  | some m =>
    let r := x m
    (r.1, { s with storageTries := Function.update s.storageTries hashedAddress (some r.2) })

theorem onStorageTrie_apply {α : Type} {a : B256} {x : TrieM α} {s : EthereumState} {m m' : Mpt}
    {r : Except Halt α} (ha : s.storageTries a = some m) (h : x m = (r, m')) :
    onStorageTrie a x s =
      (r, { s with storageTries := Function.update s.storageTries a (some m') }) := by
  simp [onStorageTrie, ha, h]

def setStorageTrie (hashedAddress : B256) (o : Option Mpt) : StateM Unit :=
  Exec.write fun s => { s with storageTries := Function.update s.storageTries hashedAddress o }

/-- `storage_tries.entry(hashed_address).or_insert(Mpt::new(..))`. -/
def orInsert (hashedAddress : B256) : StateM Unit := do
  match ← Exec.read fun s => s.storageTries hashedAddress with
  | some _ => pure ()
  | none => setStorageTrie hashedAddress (some Mpt.new)

/-- `Result::unwrap`: an error becomes a panic. -/
def unwrap {α : Type} (x : TrieM α) : TrieM α := fun m =>
  match x m with
  | (.error (.err _), m') => (.error .panic, m')
  | r => r

variable (C : StateEnv)

/-- One pass over the slots of an account. -/
def updateStorage : List (U256 × U256) → TrieM Unit
  | [] => pure ()
  | (slot, presentValue) :: storage => do
    let hashedSlot := C.keccak256 slot.toBeBytes
    if presentValue = 0 then
      let _ ← Mpt.delete hashedSlot.bytes
    else
      let _ ← Mpt.insert hashedSlot.bytes (C.encodeU256 presentValue)
    updateStorage storage

/-- `update_storage_trie` of `crates/executor/client/src/io.rs`, which `update_from_bundle_state`
writes out. -/
def updateStorageTrie (storage : List (U256 × U256)) : TrieM B256 := do
  updateStorage C storage
  Mpt.hash C.toEnv

/-- The storage trie of an account that exists after the block: the known one, or an empty one. -/
def openStorageTrie (hashedAddress : B256) (account : BundleAccount) : StateM Unit := do
  orInsert hashedAddress
  if account.wasDestroyed then setStorageTrie hashedAddress (some Mpt.new)

/-- One turn of the loop of `update_from_bundle_state`. -/
def updateAccount (hashedAddress : B256) (account : BundleAccount) : StateM Unit := do
  match account.info with
  | some info =>
    openStorageTrie hashedAddress account
    let storageRoot ← onStorageTrie hashedAddress (updateStorageTrie C account.storage)
    let stateAccount : TrieAccount :=
      { nonce := info.nonce
        balance := info.balance
        storageRoot := storageRoot
        codeHash := info.codeHash }
    onStateTrie do
      let _ ← Mpt.insert hashedAddress.bytes (C.encodeAccount stateAccount)
  | none =>
    onStateTrie (unwrap do
      let _ ← Mpt.delete hashedAddress.bytes)
    setStorageTrie hashedAddress none

def updateFromBundleState : Bundle → StateM Unit
  | [] => pure ()
  | (address, account) :: bundle => do
    updateAccount C (C.keccak256 address.bytes) account
    updateFromBundleState bundle

end EthereumState
end CenoReth
