/-
Inputs of the client and the witness stream (`crates/executor/client/src/io.rs`).

The host holds the whole parent state as bytes, and the guest receives it as a
stream: a header for every account, storage trie, bytecode and chunk of the state
trie that it needs, and the bytes of the tries as raw items between them.  Here
are the items of this stream, the errors of both sides, and how the host parses
and verifies its own input.

What the code formats into a message is an enumeration with the values that the
message shows.
-/
import CenoReth.Mpt.Frontier
import CenoReth.State.Eager

namespace CenoReth

/-- `revm::state::Bytecode`, as it is sent. -/
structure Bytecode where
  original : Bytes
  deriving DecidableEq

/-- What the client takes from the libraries below it. -/
structure ClientEnv extends StateEnv where
  /-- `Bytecode::hash_slow`. -/
  hashSlow : Bytecode → B256

/-! ## The stream -/

structure StateTrieHeader where
  version : UInt8
  numNodes : Nat
  chunkCount : Nat
  deriving DecidableEq

structure StateChunkHeader where
  /-- Absolute nibble prefix of this chunk in the state trie. -/
  prefixNibs : List UInt8
  expectedRoot : B256
  numNodes : Nat
  witnessCount : Nat
  deriving DecidableEq

structure StorageTrieHeader where
  hashedAddress : B256
  numNodes : Nat
  deriving DecidableEq

structure AccountInput where
  hashedAddress : B256
  account : Option TrieAccount
  deriving DecidableEq

inductive ClientWitnessInput where
  | account (input : AccountInput)
  | storageTrie (header : StorageTrieHeader)
  | bytecode (bytecode : Bytecode)
  | stateChunk (header : StateChunkHeader)
  deriving DecidableEq

/-- One item of the stream. -/
inductive StreamItem where
  | witness (input : ClientWitnessInput)
  | raw (bytes : Bytes)
  deriving DecidableEq

/-! ## Errors -/

/-- What an item is called in a message. -/
inductive WitnessKind where
  | account (hashedAddress : B256)
  | storageTrie (hashedAddress : B256)
  | bytecode
  | stateChunk
  deriving DecidableEq

def ClientWitnessInput.kind : ClientWitnessInput → WitnessKind
  | .account input => .account input.hashedAddress
  | .storageTrie header => .storageTrie header.hashedAddress
  | .bytecode _ => .bytecode
  | .stateChunk _ => .stateChunk

/-- The messages of `TrieWitnessError`. -/
inductive WitnessMessage where
  /-- `expected account for .., got ..` -/
  | expectedAccount (hashedAddress : B256) (got : WitnessKind)
  /-- `duplicate streamed account ..` -/
  | duplicateAccount (hashedAddress : B256)
  /-- `expected storage trie for .., got ..` -/
  | expectedStorageTrie (hashedAddress : B256) (got : WitnessKind)
  /-- `streamed storage trie hash mismatch: expected .., got ..` -/
  | storageTrieMismatch (expected got : B256)
  /-- `parent storage root mismatch for ..: actual .., expected ..` -/
  | storageRootMismatch (hashedAddress actual expected : B256)
  /-- An error of the trie, as text. -/
  | trieError (e : Error)
  /-- `expected bytecode for .., got ..` -/
  | expectedBytecode (hash : B256) (got : WitnessKind)
  /-- `streamed bytecode hash mismatch: expected .., got ..` -/
  | bytecodeMismatch (expected got : B256)
  /-- `unsupported state witness version ..` -/
  | unsupportedVersion (version : UInt8)
  /-- `expected state chunk header, got ..` -/
  | expectedStateChunk (got : ClientWitnessInput)
  /-- `state chunk root mismatch at ..: actual .., expected ..` -/
  | chunkRootMismatch (prefixNibs : List UInt8) (actual expected : B256)
  /-- `streamed account mismatch for ..: streamed .., trie ..` -/
  | accountMismatch (hashedAddress : B256) (streamed : Option (Option TrieAccount))
      (trie : Option TrieAccount)
  /-- `account witness .. is outside chunk ..` -/
  | accountOutsideChunk (hashedAddress : B256) (prefixNibs : List UInt8)
  /-- `post-update account witness mismatch for ..` -/
  | postAccountMismatch (hashedAddress : B256)
  /-- `invalid or duplicate storage witness .. in chunk ..` -/
  | invalidStorageWitness (hashedAddress : B256) (prefixNibs : List UInt8)
  /-- `unexpected chunk witness ..` -/
  | unexpectedChunkWitness (got : ClientWitnessInput)
  /-- `state chunk .. contains no bundle accounts` -/
  | noBundleAccounts (prefixNibs : List UInt8)
  /-- `missing storage trie for ..` -/
  | missingStorageTrie (hashedAddress : B256)
  /-- `unused storage witnesses in state chunk` -/
  | unusedStorageWitnesses
  /-- `state chunks consumed .. of .. bundle accounts` -/
  | leftoverBundleAccounts (consumed total : Nat)
  deriving DecidableEq

/-- `ClientExecutionError` and `ProviderError`, as far as the state is concerned. -/
inductive StateError where
  | mptError (e : Error)
  | parentStateRootMismatch (actual expected : B256)
  | parentStorageRootMismatch (hashedAccount actual expected : B256)
  | trieWitnessError (message : WitnessMessage)
  deriving DecidableEq

/-- How a method ends without a value. -/
inductive Stop where
  | err (e : StateError)
  | panic
  | stackOverflow
  /-- The panic of a `RefCell` that is borrowed a second time. -/
  | alreadyBorrowed
  deriving DecidableEq

/-- An error of the trie is passed on with `?`. -/
def Stop.ofHalt : Halt → Stop
  | .err e => .err (.mptError e)
  | .panic => .panic
  | .stackOverflow => .stackOverflow

/-- `Result::unwrap` and `Result::expect`. -/
def Stop.unwrapped : Halt → Stop
  | .stackOverflow => .stackOverflow
  | _ => .panic

def Stop.message (m : WitnessMessage) : Stop := .err (.trieWitnessError m)

/-! ## Reading tries -/

namespace Mpt

/-- `get_rlp_nibbles`. -/
def getRlpNibbles {α : Type} (decode : Bytes → Except Rlp.RlpError α) (keyNibs : List UInt8) :
    TrieM (Option α) := do
  match ← getNibbles keyNibs with
  | some bytes =>
    match decode bytes with
    | .ok a => pure (some a)
    | .error e => Exec.fail (.err (.rlpError e))
  | none => pure none

/-- `get_rlp`. -/
def getRlp {α : Type} (decode : Bytes → Except Rlp.RlpError α) (key : Bytes) : TrieM (Option α) :=
  getRlpNibbles decode (Hp.toNibs key)

end Mpt

/-- `account.map_or(EMPTY_ROOT_HASH, |a| a.storage_root)`. -/
def storageRootOf (E : Env) (account : Option TrieAccount) : B256 :=
  account.elim E.emptyRootHash TrieAccount.storageRoot

section Reading

variable (C : ClientEnv)

/-- `Mpt::decode_trie` and `hash`: the arena, and its root. -/
def decodeAndHash (bytes : Bytes) (numNodes : Nat) : Except Halt (Mpt × B256) := do
  let (m, _) ← Mpt.decodeTrie C.toEnv bytes numNodes
  match Mpt.hash C.toEnv m with
  | (.ok root, m) => .ok (m, root)
  | (.error h, _) => .error h

/-- The account of a hashed address. -/
def accountAt (m : Mpt) (hashedAddress : B256) : Except Halt (Option TrieAccount) :=
  (Mpt.getRlp C.decodeAccount hashedAddress.bytes m).1

/-- The value of a slot: zero where nothing is stored. -/
def slotAt (m : Mpt) (hashedSlot : B256) : Except Halt U256 :=
  ((Mpt.getRlp C.decodeU256 hashedSlot.bytes m).1).map fun o => o.getD 0

/-! ## The input of the host -/

/-- What is read of a block header. -/
structure BlockHeader where
  stateRoot : B256
  deriving DecidableEq

/-- `ClientExecutorInput`, without the block that is executed. -/
structure ClientExecutorInput where
  ancestorHeaders : List BlockHeader
  /-- The nodes and the bytes of the state trie. -/
  stateTrie : Nat × Bytes
  /-- The storage tries, under hashed addresses. -/
  storageTries : List (B256 × Nat × Bytes)
  bytecodes : List Bytecode

/-- The storage tries are decoded and compared with the accounts. -/
def buildStorageTries (stateTrie : Mpt) : List (B256 × Nat × Bytes) → (B256 → Option Mpt) →
    Except Stop (B256 → Option Mpt)
  | [], storageTries => .ok storageTries
  | (hashedAddress, numNodes, bytes) :: inputs, storageTries => do
    let account ← (accountAt C stateTrie hashedAddress).mapError Stop.ofHalt
    let expected := storageRootOf C.toEnv account
    let (storageTrie, actual) ← (decodeAndHash C bytes numNodes).mapError Stop.ofHalt
    if actual = expected then
      buildStorageTries stateTrie inputs
        (Function.update storageTries hashedAddress (some storageTrie))
    else .error (.err (.parentStorageRootMismatch hashedAddress actual expected))

/-- `ClientExecutorInputWithState::build`. -/
def build (input : ClientExecutorInput) : Except Stop EthereumState := do
  let (stateTrie, actual) ←
    (decodeAndHash C input.stateTrie.2 input.stateTrie.1).mapError Stop.ofHalt
  match input.ancestorHeaders.head? with
  | none => .error .panic
  | some parent =>
    if actual = parent.stateRoot then do
      let storageTries ← buildStorageTries C stateTrie input.storageTries fun _ => none
      .ok { stateTrie := stateTrie, storageTries := storageTries }
    else .error (.err (.parentStateRootMismatch actual parent.stateRoot))

end Reading
end CenoReth
