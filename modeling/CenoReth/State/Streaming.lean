/-
The streaming state of the guest (`StreamingEthereumState` of
`crates/executor/client/src/io.rs`).

During execution, accounts, storage tries and bytecodes are read from the stream
when they are first needed.  Accounts are used before they are authenticated:
they stay in a cache until the update, which reads the state trie as a frontier
with chunks below it.  A chunk is decoded, compared with its root, used to check
the cached accounts below its prefix, updated with the accounts of the bundle
that lie there, and put back into the frontier as a digest.

The caches that are iterated or counted are association lists, in some order of
iteration.

The reader is behind a `RefCell`.  A guard of it lives until the end of the statement
that borrows it, and only the match on a witness of a chunk borrows it again before
that.  So the flag of the cell is part of the state of a chunk.
-/
import CenoReth.State.Witness

namespace CenoReth

structure StreamingEthereumState where
  stateTrieHeader : StateTrieHeader
  parentStateRoot : B256
  stateTrie : Option Mpt
  accountCache : List (B256 × Option TrieAccount)
  storageTries : B256 → Option Mpt
  /-- What the reader has not read yet. -/
  input : List StreamItem

namespace StreamingEthereumState

/-- A method on the streaming state. -/
abbrev StreamM := Exec Stop StreamingEthereumState

/-- `build_streaming_state_from_input_reader`, after the header was read. -/
def new (header : StateTrieHeader) (parentStateRoot : B256) (input : List StreamItem) :
    StreamingEthereumState where
  stateTrieHeader := header
  parentStateRoot := parentStateRoot
  stateTrie := none
  accountCache := []
  storageTries := fun _ => none
  input := input

/-! ## Reading -/

def readItem : StreamM StreamItem := fun s =>
  match s.input with
  | [] => (.error .panic, s)
  | item :: input => (.ok item, { s with input := input })

/-- `read_witness_input`.  Bytes that are no such input cannot be deserialized. -/
def readWitnessInput : StreamM ClientWitnessInput := do
  match ← readItem with
  | .witness input => pure input
  | .raw _ => Exec.fail .panic

/-- `read_raw_bytes`. -/
def readRawBytes : StreamM Bytes := do
  match ← readItem with
  | .raw bytes => pure bytes
  | .witness _ => Exec.fail .panic

/-- The loop of `read_account` over what is left of the input. -/
def readAccountLoop (hashedAddress : B256) : List StreamItem → StreamM (Option TrieAccount)
  | [] => Exec.fail .panic
  | _ :: input => do
    match ← readWitnessInput with
    | .account accountInput =>
      let streamedAddress := accountInput.hashedAddress
      let cache ← Exec.read accountCache
      if (cache.lookup streamedAddress).isSome then
        Exec.fail (.message (.duplicateAccount streamedAddress))
      else
        Exec.write fun s =>
          { s with accountCache := s.accountCache ++ [(streamedAddress, accountInput.account)] }
        if streamedAddress = hashedAddress then pure accountInput.account
        else readAccountLoop hashedAddress input
    | other => Exec.fail (.message (.expectedAccount hashedAddress other.kind))

def readAccount (hashedAddress : B256) : StreamM (Option TrieAccount) := do
  match (← Exec.read accountCache).lookup hashedAddress with
  | some account => pure account
  | none => readAccountLoop hashedAddress (← Exec.read input)

section Model

variable (C : ClientEnv)

def expectedStorageRoot (hashedAddress : B256) : StreamM B256 := do
  let account ← readAccount hashedAddress
  pure (storageRootOf C.toEnv account)

/-- An error of the trie becomes a message of the provider. -/
def providerError : Halt → Stop
  | .err e => .message (.trieError e)
  | .panic => .panic
  | .stackOverflow => .stackOverflow

def loadStorageTrie (hashedAddress : B256) : StreamM Unit := do
  match ← Exec.read fun s => s.storageTries hashedAddress with
  | some _ => pure ()
  | none =>
    match ← readWitnessInput with
    | .storageTrie header =>
      if header.hashedAddress ≠ hashedAddress then
        Exec.fail (.message (.storageTrieMismatch hashedAddress header.hashedAddress))
      else
        let expected ← expectedStorageRoot C hashedAddress
        let bytes ← readRawBytes
        let (storageTrie, actual) ←
          Exec.ofExcept ((decodeAndHash C bytes header.numNodes).mapError providerError)
        if actual ≠ expected then
          Exec.fail (.message (.storageRootMismatch hashedAddress actual expected))
        else
          Exec.write fun s =>
            { s with
              storageTries := Function.update s.storageTries hashedAddress (some storageTrie) }
    | other => Exec.fail (.message (.expectedStorageTrie hashedAddress other.kind))

def readBytecode (hash : B256) : StreamM Bytecode := do
  match ← readWitnessInput with
  | .bytecode bytecode =>
    if C.hashSlow bytecode ≠ hash then
      Exec.fail (.message (.bytecodeMismatch hash (C.hashSlow bytecode)))
    else pure bytecode
  | other => Exec.fail (.message (.expectedBytecode hash other.kind))

/-! ## The state trie -/

def ensureStateTrieLoaded : StreamM Unit := do
  match ← Exec.read stateTrie with
  | some _ => pure ()
  | none =>
    let bytes ← readRawBytes
    let header ← Exec.read stateTrieHeader
    let (stateTrie, actual) ←
      Exec.ofExcept ((decodeAndHash C bytes header.numNodes).mapError Stop.ofHalt)
    let expected ← Exec.read parentStateRoot
    if actual ≠ expected then Exec.fail (.err (.parentStateRootMismatch actual expected))
    else Exec.write fun s => { s with stateTrie := some stateTrie }

/-- Run a method of the state trie, which is loaded. -/
def onStateTrie {α : Type} (x : TrieM α) : StreamM α := fun s =>
  match s.stateTrie with
  | none => (.error .panic, s)
  | some m =>
    let r := x m
    (r.1.mapError Stop.ofHalt, { s with stateTrie := some r.2 })

def stateRoot : StreamM B256 := onStateTrie (Mpt.hash C.toEnv)

def validateAccounts : List (B256 × Option TrieAccount) → StreamM Unit
  | [] => pure ()
  | (hashedAddress, streamed) :: accounts => do
    let account ← onStateTrie (Mpt.getRlp C.decodeAccount hashedAddress.bytes)
    if account ≠ streamed then
      Exec.fail (.message (.accountMismatch hashedAddress (some streamed) account))
    else validateAccounts accounts

def validateAccountCache : StreamM Unit := do
  validateAccounts C (← Exec.read accountCache)

end Model

/-! ## Chunks -/

/-- The state while a chunk is processed. -/
structure ChunkState where
  stream : StreamingEthereumState
  chunk : Mpt
  postStorageTries : List (B256 × Mpt)
  /-- Whether a guard of `input` is alive. -/
  inputBorrowed : Bool

abbrev ChunkM := Exec Stop ChunkState

/-- Run a method of the streaming state. -/
def onStream {α : Type} (x : StreamM α) : ChunkM α := fun s =>
  let r := x s.stream
  (r.1, { s with stream := r.2 })

/-- Run a method of the chunk. -/
def onChunk {α : Type} (x : TrieM α) : ChunkM α := fun s =>
  let r := x s.chunk
  (r.1.mapError Stop.ofHalt, { s with chunk := r.2 })

/-- Process a chunk.  It is dropped at the end. -/
def withChunk {α : Type} (chunk : Mpt) (x : ChunkM α) : StreamM α := fun s =>
  let r := x { stream := s, chunk := chunk, postStorageTries := [], inputBorrowed := false }
  (r.1, r.2.stream)

/-- `self.input.borrow_mut()`, with a guard that lives as long as `x` runs. -/
def borrowInput {α : Type} (x : ChunkM α) : ChunkM α := do
  if ← Exec.read ChunkState.inputBorrowed then Exec.fail .alreadyBorrowed
  else
    Exec.write fun s => { s with inputBorrowed := true }
    let a ← x
    Exec.write fun s => { s with inputBorrowed := false }
    pure a

/-- `b256_nibbles`. -/
def b256Nibbles (value : B256) : List UInt8 := Hp.toNibs value.bytes

/-- The key of an address in a chunk. -/
def suffix (prefixNibs : List UInt8) (hashedAddress : B256) : List UInt8 :=
  (b256Nibbles hashedAddress).drop prefixNibs.length

def inChunk (prefixNibs : List UInt8) (hashedAddress : B256) : Bool :=
  prefixNibs.isPrefixOf (b256Nibbles hashedAddress)

/-- `HashMap::remove`. -/
def removeKey {α : Type} (key : B256) (entries : List (B256 × α)) : List (B256 × α) :=
  entries.filter fun entry => entry.1 ≠ key

section Chunk

variable (C : ClientEnv)

def chunkAccount (prefixNibs : List UInt8) (hashedAddress : B256) :
    ChunkM (Option TrieAccount) :=
  onChunk (Mpt.getRlpNibbles C.decodeAccount (suffix prefixNibs hashedAddress))

/-- Authenticate and consume execution-time cached accounts before the chunk dies. -/
def consumeCached (prefixNibs : List UInt8) : List B256 → ChunkM Unit
  | [] => pure ()
  | hashedAddress :: cachedKeys => do
    let streamed := (← Exec.read fun s => s.stream.accountCache).lookup hashedAddress
    onStream (Exec.write fun s =>
      { s with accountCache := removeKey hashedAddress s.accountCache })
    let account ← chunkAccount C prefixNibs hashedAddress
    if streamed ≠ some account then
      Exec.fail (.message (.accountMismatch hashedAddress streamed account))
    else consumeCached prefixNibs cachedKeys

/-- One witness of the chunk: `match self.input.borrow_mut().read_witness_input() { .. }`.  The
guard lives until the end of the match, and the arm of a storage trie borrows the input again. -/
def readChunkWitness (prefixNibs : List UInt8) : ChunkM Unit := borrowInput do
  match ← onStream readWitnessInput with
  | .account accountInput =>
    if inChunk prefixNibs accountInput.hashedAddress = false then
      Exec.fail (.message (.accountOutsideChunk accountInput.hashedAddress prefixNibs))
    else
      let account ← chunkAccount C prefixNibs accountInput.hashedAddress
      if account ≠ accountInput.account then
        Exec.fail (.message (.postAccountMismatch accountInput.hashedAddress))
      else pure ()
  | .storageTrie header =>
    let post ← Exec.read ChunkState.postStorageTries
    if inChunk prefixNibs header.hashedAddress = false ∨
        (post.lookup header.hashedAddress).isSome then
      Exec.fail (.message (.invalidStorageWitness header.hashedAddress prefixNibs))
    else
      let account ← chunkAccount C prefixNibs header.hashedAddress
      let expected := storageRootOf C.toEnv account
      let bytes ← borrowInput (onStream readRawBytes)
      let (storage, actual) ←
        Exec.ofExcept ((decodeAndHash C bytes header.numNodes).mapError Stop.ofHalt)
      if actual ≠ expected then
        Exec.fail (.err (.parentStorageRootMismatch header.hashedAddress actual expected))
      else
        Exec.write fun s =>
          { s with postStorageTries := s.postStorageTries ++ [(header.hashedAddress, storage)] }
  | other => Exec.fail (.message (.unexpectedChunkWitness other))

def readChunkWitnesses (prefixNibs : List UInt8) : Nat → ChunkM Unit
  | 0 => pure ()
  | count + 1 => do
    readChunkWitness C prefixNibs
    readChunkWitnesses prefixNibs count

/-- `update_storage_trie` on a trie that is used once. -/
def updatedStorageRoot (storage : List (U256 × U256)) (m : Mpt) : Except Stop B256 :=
  (EthereumState.updateStorageTrie C.toStateEnv storage m).1.mapError Stop.ofHalt

/-- `self.storage_tries.borrow_mut().remove(hashed_address)`. -/
def takeStorageTrie (hashedAddress : B256) : ChunkM (Option Mpt) := do
  let storage ← Exec.read fun s => s.stream.storageTries hashedAddress
  onStream (Exec.write fun s =>
    { s with storageTries := Function.update s.storageTries hashedAddress none })
  pure storage

/-- `post_storage_tries.remove(hashed_address)`. -/
def takePostStorageTrie (hashedAddress : B256) : ChunkM (Option Mpt) := do
  let storage := (← Exec.read ChunkState.postStorageTries).lookup hashedAddress
  Exec.write fun s => { s with postStorageTries := removeKey hashedAddress s.postStorageTries }
  pure storage

/-- The storage root of an account whose storage changed or was destroyed. -/
def changedStorageRoot (hashedAddress : B256) (account : BundleAccount)
    (oldAccount : Option TrieAccount) : ChunkM B256 := do
  if account.wasDestroyed then
    Exec.ofExcept (updatedStorageRoot C account.storage Mpt.new)
  else
    match ← takeStorageTrie hashedAddress with
    | some storage => Exec.ofExcept (updatedStorageRoot C account.storage storage)
    | none =>
      match ← takePostStorageTrie hashedAddress with
      | some storage => Exec.ofExcept (updatedStorageRoot C account.storage storage)
      | none =>
        if storageRootOf C.toEnv oldAccount = C.emptyRootHash then
          Exec.ofExcept (updatedStorageRoot C account.storage Mpt.new)
        else Exec.fail (.message (.missingStorageTrie hashedAddress))

/-- The storage root of an account whose storage is untouched. -/
def keptStorageRoot (hashedAddress : B256) (oldAccount : Option TrieAccount) : ChunkM B256 := do
  let expected := storageRootOf C.toEnv oldAccount
  match ← takeStorageTrie hashedAddress with
  | some storage =>
    let actual ← Exec.ofExcept ((Mpt.hash C.toEnv storage).1.mapError Stop.ofHalt)
    if actual ≠ expected then
      Exec.fail (.err (.parentStorageRootMismatch hashedAddress actual expected))
    else pure expected
  | none => pure expected

/-- One account of the bundle. -/
def updateChunkAccount (prefixNibs : List UInt8) (hashedAddress : B256)
    (account : BundleAccount) : ChunkM Unit := do
  let oldAccount ← chunkAccount C prefixNibs hashedAddress
  match account.info with
  | some info =>
    let storageRoot ←
      if account.wasDestroyed ∨ account.storage ≠ [] then
        changedStorageRoot C hashedAddress account oldAccount
      else keptStorageRoot C hashedAddress oldAccount
    let stateAccount : TrieAccount :=
      { nonce := info.nonce
        balance := info.balance
        storageRoot := storageRoot
        codeHash := info.codeHash }
    onChunk do
      let _ ← Mpt.insertNibbles (suffix prefixNibs hashedAddress) (C.encodeAccount stateAccount)
  | none =>
    onChunk do
      let _ ← Mpt.deleteNibbles (suffix prefixNibs hashedAddress)
    let _ ← takeStorageTrie hashedAddress

def updateChunkAccounts (prefixNibs : List UInt8) : List (B256 × BundleAccount) → ChunkM Unit
  | [] => pure ()
  | (hashedAddress, account) :: accounts => do
    updateChunkAccount C prefixNibs hashedAddress account
    updateChunkAccounts prefixNibs accounts

/-- A chunk after it was decoded: the checks, the updates, and the new root. -/
def processChunk (header : StateChunkHeader) (accounts : List (B256 × BundleAccount)) :
    ChunkM B256 := do
  let cachedKeys ← Exec.read fun s =>
    (s.stream.accountCache.map Prod.fst).filter (inChunk header.prefixNibs)
  consumeCached C header.prefixNibs cachedKeys
  readChunkWitnesses C header.prefixNibs header.witnessCount
  if accounts = [] then Exec.fail (.message (.noBundleAccounts header.prefixNibs))
  else
    updateChunkAccounts C header.prefixNibs accounts
    if (← Exec.read ChunkState.postStorageTries) ≠ [] then
      Exec.fail (.message .unusedStorageWitnesses)
    else
      let newRoot ← onChunk (Mpt.hash C.toEnv)
      if header.prefixNibs ≠ [] ∧ newRoot ≠ C.emptyRootHash then
        if (← onChunk (Mpt.rootIsHashAddressed C.toEnv)) = false then
          Exec.fail (.err (.mptError .inlineFrontierChunk))
        else pure newRoot
      else pure newRoot

/-- One turn of the loop over the chunks.  Returns the accounts that are left. -/
def updateChunk (accounts : List (B256 × BundleAccount)) :
    StreamM (List (B256 × BundleAccount)) := do
  match ← readWitnessInput with
  | .stateChunk header =>
    let bytes ← readRawBytes
    let (chunk, actual) ←
      Exec.ofExcept ((decodeAndHash C bytes header.numNodes).mapError Stop.ofHalt)
    if actual ≠ header.expectedRoot then
      Exec.fail (.message (.chunkRootMismatch header.prefixNibs actual header.expectedRoot))
    else
      let newRoot ← withChunk chunk
        (processChunk C header (accounts.takeWhile fun a => inChunk header.prefixNibs a.1))
      onStateTrie (Mpt.replaceFrontierSlot C.toEnv header.prefixNibs header.expectedRoot newRoot)
      pure (accounts.dropWhile fun a => inChunk header.prefixNibs a.1)
  | other => Exec.fail (.message (.expectedStateChunk other))

def updateChunks : Nat → List (B256 × BundleAccount) → StreamM (List (B256 × BundleAccount))
  | 0, accounts => pure accounts
  | count + 1, accounts => do
    let rest ← updateChunk C accounts
    updateChunks count rest

/-- The accounts of the bundle under their hashed addresses, sorted. -/
def sortedAccounts (bundle : Bundle) : List (B256 × BundleAccount) :=
  (bundle.map fun entry => (C.keccak256 entry.1.bytes, entry.2)).insertionSort
    fun a b => a.1.bytes ≤ b.1.bytes

def updateFromBundleState (bundle : Bundle) : StreamM Unit := do
  ensureStateTrieLoaded C
  let header ← Exec.read stateTrieHeader
  if header.version ≠ 2 then Exec.fail (.message (.unsupportedVersion header.version))
  else
    let rest ← updateChunks C header.chunkCount (sortedAccounts C bundle)
    if rest ≠ [] then
      Exec.fail (.message (.leftoverBundleAccounts (bundle.length - rest.length) bundle.length))
    else
      validateAccountCache C
      Exec.write fun s => { s with storageTries := fun _ => none }

end Chunk

end StreamingEthereumState
end CenoReth
