/-
Recording the lookups of an execution, and replaying them
(`WitnessDb` of `crates/executor/client/src/io.rs` and
`write_ceno_client_input` of `crates/host-bench/src/lib.rs`).

The host executes the block on the eager state and records the order in which
accounts, storage tries and bytecodes are looked up.  The writer turns this order
into the items of the stream.  An account and a storage trie are recorded once,
and the guest keeps what it has read; a bytecode is recorded and read at every
lookup.  The two sides are kept in step by `InStep`: what the host has recorded
is what the guest has read.
-/
import CenoReth.State.Order
import CenoReth.State.Streaming

namespace CenoReth

/-! ## The database -/

inductive DbCall where
  | basic (address : Address)
  | codeByHash (hash : B256)
  | storage (address : Address) (index : U256)

inductive DbResult where
  | basic (info : Option AccountInfo)
  | codeByHash (bytecode : Bytecode)
  | storage (value : U256)
  deriving DecidableEq

inductive WitnessAccess where
  | account (hashedAddress : B256)
  | storageTrie (hashedAddress : B256)
  | bytecode (hash : B256)
  | stateTrie
  /-- Host-only marker used to partition all bundle entries into state chunks. -/
  | modifiedAccount (hashedAddress : B256) (storageSlots : Nat)
  deriving DecidableEq

structure Recording where
  accountLookupOrder : List B256
  bytecodeLookupOrder : List B256
  storageLookupOrder : List B256
  witnessOrder : List WitnessAccess

def Recording.empty : Recording := ⟨[], [], [], []⟩

/-- What `basic_ref` reports of an account. -/
def infoOf (account : TrieAccount) : AccountInfo :=
  { nonce := account.nonce
    balance := account.balance
    codeHash := account.codeHash }

section Model

variable (C : ClientEnv)

/-- The bytecodes by their hashes.  Of two with one hash the later one stays. -/
def bytecodeByHash (bytecodes : List Bytecode) (hash : B256) : Option Bytecode :=
  bytecodes.reverse.find? fun code => C.hashSlow code = hash

abbrev RecordM := Exec Stop Recording

/-- An account is recorded at its first lookup. -/
def recordAccount (hashedAddress : B256) : RecordM Unit :=
  Exec.write fun r =>
    if hashedAddress ∈ r.accountLookupOrder then r
    else { r with
      accountLookupOrder := r.accountLookupOrder ++ [hashedAddress]
      witnessOrder := r.witnessOrder ++ [.account hashedAddress] }

/-- A storage trie is recorded at its first lookup. -/
def recordStorageTrie (hashedAddress : B256) : RecordM Unit :=
  Exec.write fun r =>
    if hashedAddress ∈ r.storageLookupOrder then r
    else { r with
      storageLookupOrder := r.storageLookupOrder ++ [hashedAddress]
      witnessOrder := r.witnessOrder ++ [.storageTrie hashedAddress] }

/-- A bytecode is recorded at every lookup. -/
def recordBytecode (hash : B256) : RecordM Unit :=
  Exec.write fun r =>
    { r with
      bytecodeLookupOrder := r.bytecodeLookupOrder ++ [hash]
      witnessOrder := r.witnessOrder ++ [.bytecode hash] }

/-- The recording `WitnessDb` on the eager state. -/
def eagerCall (state : EthereumState) (bytecodes : List Bytecode) : DbCall → RecordM DbResult
  | .basic address => do
    let hashedAddress := C.keccak256 address.bytes
    recordAccount hashedAddress
    let account ← Exec.ofExcept ((accountAt C state.stateTrie hashedAddress).mapError Stop.unwrapped)
    pure (.basic (account.map infoOf))
  | .codeByHash hash => do
    recordBytecode hash
    match bytecodeByHash C bytecodes hash with
    | some code => pure (.codeByHash code)
    | none => Exec.fail .panic
  | .storage address index => do
    let hashedAddress := C.keccak256 address.bytes
    let hashedSlot := C.keccak256 index.toBeBytes
    recordAccount hashedAddress
    recordStorageTrie hashedAddress
    match state.storageTries hashedAddress with
    | some storageTrie =>
      let value ← Exec.ofExcept ((slotAt C storageTrie hashedSlot).mapError Stop.unwrapped)
      pure (.storage value)
    | none => Exec.fail .panic

/-- The `WitnessDb` on the streaming state. -/
def streamingCall : DbCall → StreamingEthereumState.StreamM DbResult
  | .basic address => do
    let account ← StreamingEthereumState.readAccount (C.keccak256 address.bytes)
    pure (.basic (account.map infoOf))
  | .codeByHash hash => do
    let code ← StreamingEthereumState.readBytecode C hash
    pure (.codeByHash code)
  | .storage address index => do
    let hashedAddress := C.keccak256 address.bytes
    let hashedSlot := C.keccak256 index.toBeBytes
    StreamingEthereumState.loadStorageTrie C hashedAddress
    match ← Exec.read fun s => s.storageTries hashedAddress with
    | some storageTrie =>
      let value ← Exec.ofExcept ((slotAt C storageTrie hashedSlot).mapError Stop.unwrapped)
      pure (.storage value)
    | none => Exec.fail .panic

/-! ## The writer -/

inductive HostError where
  | client (stop : Stop)
  /-- `state frontier changed parent root` -/
  | frontierRoot
  /-- `recorded witness order has no state trie marker` -/
  | noStateMarker
  /-- `missing account for recorded lookup hash ..` -/
  | missingAccount (hash : B256)
  /-- `missing storage trie for recorded lookup hash ..` -/
  | missingStorageTrie (hash : B256)
  /-- `missing bytecode for recorded lookup hash ..` -/
  | missingBytecode (hash : B256)
  | unreachable

/-- The limits of a chunk. -/
def frontierLimits : Mpt.FrontierLimits :=
  { maxNodes := 2048
    maxBytes := 256 * 1024
    maxKeys := 256 }

/-- The last storage trie of the input for a hashed address. -/
def storageTrieByHash (input : ClientExecutorInput) (hash : B256) : Option (B256 × Nat × Bytes) :=
  input.storageTries.reverse.find? fun entry => entry.1 = hash

def accessedAccount : WitnessAccess → Option B256
  | .account hash => some hash
  | _ => none

/-- The weight is a length and one, which fits into a word. -/
def modifiedAccount : WitnessAccess → Option (B256 × UInt64)
  | .modifiedAccount hash storageSlots => some (hash, UInt64.ofNat (1 + storageSlots))
  | _ => none

/-- The accounts that were accessed, as they stand in the state trie. -/
def accountByHash (state : EthereumState) (witnessOrder : List WitnessAccess) :
    Except HostError (List (B256 × Option TrieAccount)) :=
  (witnessOrder.filterMap accessedAccount).mapM fun hash =>
    ((accountAt C state.stateTrie hash).mapError fun h => .client (.ofHalt h)).map fun account =>
      (hash, account)

/-- The items of one access. -/
def writeAccess (input : ClientExecutorInput) (accounts : List (B256 × Option TrieAccount))
    (frontierBytes : Bytes) : WitnessAccess → Except HostError (List StreamItem)
  | .account hash =>
    match accounts.reverse.lookup hash with
    | some account => .ok [.witness (.account ⟨hash, account⟩)]
    | none => .error (.missingAccount hash)
  | .storageTrie hash =>
    match storageTrieByHash input hash with
    | some (hashedAddress, numNodes, bytes) =>
      .ok [.witness (.storageTrie ⟨hashedAddress, numNodes⟩), .raw bytes]
    | none => .error (.missingStorageTrie hash)
  | .bytecode hash =>
    match bytecodeByHash C input.bytecodes hash with
    | some code => .ok [.witness (.bytecode code)]
    | none => .error (.missingBytecode hash)
  | .stateTrie => .ok [.raw frontierBytes]
  | .modifiedAccount _ _ => .error .unreachable

def writeAccesses (write : WitnessAccess → Except HostError (List StreamItem)) :
    List WitnessAccess → Except HostError (List StreamItem)
  | [] => .ok []
  | access :: accesses => do
    let items ← write access
    let rest ← writeAccesses write accesses
    .ok (items ++ rest)

/-- The accesses of the update that fall into a chunk. -/
def chunkAccesses (postAccesses : List WitnessAccess) (prefixNibs : List UInt8) :
    List WitnessAccess :=
  postAccesses.filter fun
    | .account hash => StreamingEthereumState.inChunk prefixNibs hash
    | .storageTrie hash => StreamingEthereumState.inChunk prefixNibs hash
    | _ => false

def writeChunk (write : WitnessAccess → Except HostError (List StreamItem))
    (postAccesses : List WitnessAccess) (chunk : Mpt.FrontierChunk) :
    Except HostError (List StreamItem) := do
  let accesses := chunkAccesses postAccesses chunk.prefixNibs
  let header : StateChunkHeader :=
    { prefixNibs := chunk.prefixNibs
      expectedRoot := chunk.expectedRoot
      numNodes := chunk.numNodes
      witnessCount := accesses.length }
  let witnesses ← writeAccesses write accesses
  .ok (.witness (.stateChunk header) :: .raw chunk.bytes :: witnesses)

def writeChunks (write : WitnessAccess → Except HostError (List StreamItem))
    (postAccesses : List WitnessAccess) :
    List Mpt.FrontierChunk → Except HostError (List StreamItem)
  | [] => .ok []
  | chunk :: chunks => do
    let items ← writeChunk write postAccesses chunk
    let rest ← writeChunks write postAccesses chunks
    .ok (items ++ rest)

/-- The frontier of the state trie, which keeps the root. -/
def writtenFrontier (state : EthereumState) (witnessOrder : List WitnessAccess) :
    Except HostError Mpt.MptFrontier := do
  let built := Mpt.buildFrontierWeighted C.toEnv (witnessOrder.filterMap modifiedAccount)
    frontierLimits state.stateTrie
  let frontier ← built.1.mapError fun h => .client (.ofHalt h)
  let stateRoot ← (Mpt.hash C.toEnv built.2).1.mapError fun h => .client (.ofHalt h)
  let (_, frontierRoot) ←
    (decodeAndHash C frontier.bytes frontier.numNodes).mapError fun h => .client (.ofHalt h)
  if frontierRoot = stateRoot then .ok frontier else .error .frontierRoot

/-- `write_ceno_client_input`, for the order that was recorded: the header of the state trie
and the items after it. -/
def writeCenoClientInput (input : ClientExecutorInput) (witnessOrder : List WitnessAccess) :
    Except HostError (StateTrieHeader × List StreamItem) := do
  let state ← (build C input).mapError .client
  let frontier ← writtenFrontier C state witnessOrder
  if WitnessAccess.stateTrie ∉ witnessOrder then .error .noStateMarker
  else do
    let executed := witnessOrder.takeWhile (· ≠ .stateTrie)
    let postAccesses := (witnessOrder.dropWhile (· ≠ .stateTrie)).tail
    let accounts ← accountByHash C state witnessOrder
    let write := writeAccess C input accounts frontier.bytes
    let items ← writeAccesses write (executed ++ [.stateTrie])
    let chunkItems ← writeChunks write postAccesses frontier.chunks
    .ok (⟨2, frontier.numNodes, frontier.chunks.length⟩, items ++ chunkItems)

end Model

variable {C : ClientEnv}

/-! ## What was built -/

/-- A storage trie that is the last one of the input for its address, and has the root that the
account commits to. -/
def Supplied (C : ClientEnv) (inputs : List (B256 × Nat × Bytes)) (stateTrie : Mpt)
    (hashedAddress : B256) (m : Mpt) : Prop :=
  ∃ numNodes bytes root account,
    inputs.reverse.find? (fun entry => entry.1 = hashedAddress) =
      some (hashedAddress, numNodes, bytes) ∧
    decodeAndHash C bytes numNodes = .ok (m, root) ∧
    accountAt C stateTrie hashedAddress = .ok account ∧ root = storageRootOf C.toEnv account

theorem buildStorageTries_find {stateTrie : Mpt} : ∀ {inputs : List (B256 × Nat × Bytes)}
    {tries tries' : B256 → Option Mpt},
    buildStorageTries C stateTrie inputs tries = .ok tries' → ∀ a m, tries' a = some m →
      Supplied C inputs stateTrie a m ∨
      (inputs.reverse.find? (fun entry => entry.1 = a) = none ∧ tries a = some m)
  | [], tries, tries', h, a, m, hm => by
    obtain rfl := Except.ok.inj h
    exact .inr ⟨rfl, hm⟩
  | (address, numNodes, bytes) :: inputs, tries, tries', h, a, m, hm => by
    rw [buildStorageTries] at h
    obtain ⟨account, haccount, h⟩ := Exec.of_except_bind_ok h
    obtain ⟨⟨trie, root⟩, htrie, h⟩ := Exec.of_except_bind_ok h
    simp only at h
    split at h
    · rename_i hroot
      rw [List.reverse_cons, List.find?_append]
      rcases buildStorageTries_find h a m hm with ⟨n, b, r, acc, hfind, hrest⟩ | ⟨hfind, hold⟩
      · refine .inl ⟨n, b, r, acc, ?_, hrest⟩
        rw [List.reverse_cons, List.find?_append, hfind]
        rfl
      · rw [hfind]
        by_cases ha : address = a
        · subst ha
          rw [Function.update_self, Option.some.injEq] at hold
          subst hold
          refine .inl ⟨numNodes, bytes, root, account, ?_, Exec.of_mapError_ok htrie,
            Exec.of_mapError_ok haccount, hroot⟩
          rw [List.reverse_cons, List.find?_append, hfind]
          simp
        · rw [Function.update_of_ne (Ne.symm ha)] at hold
          exact .inr ⟨by simp [ha], hold⟩
    · simp at h

theorem of_build_ok {input : ClientExecutorInput} {state : EthereumState}
    (h : build C input = .ok state) :
    ∃ root parent, decodeAndHash C input.stateTrie.2 input.stateTrie.1 =
        .ok (state.stateTrie, root) ∧
      input.ancestorHeaders.head? = some parent ∧ root = parent.stateRoot ∧
      buildStorageTries C state.stateTrie input.storageTries (fun _ => none) =
        .ok state.storageTries := by
  unfold build at h
  obtain ⟨⟨trie, root⟩, htrie, h⟩ := Exec.of_except_bind_ok h
  simp only at h
  cases hparent : input.ancestorHeaders.head? with
  | none => simp [hparent] at h
  | some parent =>
    simp only [hparent] at h
    split at h
    · rename_i hroot
      obtain ⟨tries, htries, h⟩ := Exec.of_except_bind_ok h
      obtain rfl := Except.ok.inj h
      exact ⟨root, parent, Exec.of_mapError_ok htrie, rfl, hroot, htries⟩
    · simp at h

theorem supplied_of_build {input : ClientExecutorInput} {state : EthereumState}
    (h : build C input = .ok state) (a : B256) (m : Mpt) (hm : state.storageTries a = some m) :
    Supplied C input.storageTries state.stateTrie a m := by
  obtain ⟨_, _, _, _, _, htries⟩ := of_build_ok h
  rcases buildStorageTries_find htries a m hm with hs | ⟨_, hnone⟩
  · exact hs
  · simp at hnone

/-! ## Replay -/

/-- What the host has recorded is what the guest has read. -/
structure InStep (C : ClientEnv) (state : EthereumState) (r : Recording)
    (s : StreamingEthereumState) : Prop where
  read : ∀ h ∈ r.accountLookupOrder,
    ∃ account, accountAt C state.stateTrie h = .ok account ∧ s.accountCache.lookup h = some account
  unread : ∀ h, h ∉ r.accountLookupOrder → s.accountCache.lookup h = none
  loaded : ∀ h ∈ r.storageLookupOrder, s.storageTries h = state.storageTries h
  unloaded : ∀ h, h ∉ r.storageLookupOrder → s.storageTries h = none

theorem inStep_empty (state : EthereumState) (header : StateTrieHeader) (root : B256)
    (input : List StreamItem) :
    InStep C state .empty (StreamingEthereumState.new header root input) where
  read h hh := by simp [Recording.empty] at hh
  unread h _ := rfl
  loaded h hh := by simp [Recording.empty] at hh
  unloaded h _ := rfl

section Steps

open StreamingEthereumState

theorem readWitnessInput_cons {s : StreamingEthereumState} {w : ClientWitnessInput}
    {rest : List StreamItem} (h : s.input = .witness w :: rest) :
    readWitnessInput s = (.ok w, { s with input := rest }) := by
  have hitem : readItem s = (.ok (.witness w), { s with input := rest }) := by
    simp [readItem, h]
  unfold readWitnessInput
  rw [Exec.bind_ok hitem]
  rfl

theorem readRawBytes_cons {s : StreamingEthereumState} {bytes : Bytes}
    {rest : List StreamItem} (h : s.input = .raw bytes :: rest) :
    readRawBytes s = (.ok bytes, { s with input := rest }) := by
  have hitem : readItem s = (.ok (.raw bytes), { s with input := rest }) := by
    simp [readItem, h]
  unfold readRawBytes
  rw [Exec.bind_ok hitem]
  rfl

theorem readAccount_cached {s : StreamingEthereumState} {h : B256} {account : Option TrieAccount}
    (hc : s.accountCache.lookup h = some account) : readAccount h s = (.ok account, s) := by
  unfold readAccount
  rw [Exec.bind_ok (Exec.read_apply _ s), hc]
  rfl

theorem expectedStorageRoot_cached {s : StreamingEthereumState} {h : B256}
    {account : Option TrieAccount} (hc : s.accountCache.lookup h = some account) :
    expectedStorageRoot C h s = (.ok (storageRootOf C.toEnv account), s) := by
  unfold expectedStorageRoot
  rw [Exec.bind_ok (readAccount_cached hc)]
  rfl

/-- An account that was not read yet is the next item. -/
theorem readAccount_next {s : StreamingEthereumState} {h : B256} {account : Option TrieAccount}
    {rest : List StreamItem} (hc : s.accountCache.lookup h = none)
    (hin : s.input = .witness (.account ⟨h, account⟩) :: rest) :
    readAccount h s = (.ok account,
      { s with input := rest, accountCache := s.accountCache ++ [(h, account)] }) := by
  unfold readAccount
  rw [Exec.bind_ok (Exec.read_apply _ s), hc]
  refine (Exec.bind_ok (Exec.read_apply _ s)).trans ?_
  rw [hin, readAccountLoop, Exec.bind_ok (readWitnessInput_cons hin)]
  simp only
  rw [Exec.bind_ok (Exec.read_apply _ _), hc]
  refine (Exec.bind_ok (Exec.write_apply _ _)).trans ?_
  simp only [if_true]
  rfl

theorem lookup_pair {α : Type} (k h : B256) (a : α) :
    [(k, a)].lookup h = if h = k then some a else none := by
  by_cases hk : h = k
  · simp [hk]
  · have hne : (h == k) = false := by simpa using hk
    simp [List.lookup_cons, hk, hne]

/-- The items of the stream for what was recorded, given the accounts of the state. -/
structure Wrote (C : ClientEnv) (input : ClientExecutorInput) (state : EthereumState)
    (write : WitnessAccess → Except HostError (List StreamItem)) : Prop where
  account : ∀ h items, write (.account h) = .ok items → ∃ account,
    accountAt C state.stateTrie h = .ok account ∧ items = [.witness (.account ⟨h, account⟩)]
  storageTrie : ∀ h items, write (.storageTrie h) = .ok items → ∃ address numNodes bytes,
    storageTrieByHash input h = some (address, numNodes, bytes) ∧
    items = [.witness (.storageTrie ⟨address, numNodes⟩), .raw bytes]
  bytecode : ∀ h items, write (.bytecode h) = .ok items → ∃ code,
    bytecodeByHash C input.bytecodes h = some code ∧ items = [.witness (.bytecode code)]

/-- A step of the guest on the items of what the host recorded in the same step. -/
def Replays (C : ClientEnv) (state : EthereumState)
    (write : WitnessAccess → Except HostError (List StreamItem)) {α : Type} (x : StreamM α) (a : α)
    (r r' : Recording) : Prop :=
  ∃ δ, r'.witnessOrder = r.witnessOrder ++ δ ∧ ∀ items, writeAccesses write δ = .ok items →
    ∀ s rest, InStep C state r s → s.input = items ++ rest →
      ∃ s', x s = (.ok a, s') ∧ s'.input = rest ∧ InStep C state r' s'

variable {input : ClientExecutorInput} {state : EthereumState}
  {write : WitnessAccess → Except HostError (List StreamItem)}

theorem writeAccesses_append (δ δ' : List WitnessAccess) {items : List StreamItem}
    (h : writeAccesses write (δ ++ δ') = .ok items) :
    ∃ l l', writeAccesses write δ = .ok l ∧ writeAccesses write δ' = .ok l' ∧ items = l ++ l' := by
  induction δ generalizing items with
  | nil => exact ⟨[], items, rfl, h, rfl⟩
  | cons access δ ih =>
    obtain ⟨l, hl, h⟩ := Exec.of_except_bind_ok h
    obtain ⟨l', hl', h⟩ := Exec.of_except_bind_ok h
    obtain rfl := Except.ok.inj h
    obtain ⟨a, b, ha, hb, rfl⟩ := ih hl'
    refine ⟨l ++ a, b, ?_, hb, by rw [List.append_assoc]⟩
    rw [writeAccesses, hl, ha]
    rfl

theorem writeAccesses_singleton {access : WitnessAccess} {items : List StreamItem}
    (h : writeAccesses write [access] = .ok items) : write access = .ok items := by
  obtain ⟨l, hl, h⟩ := Exec.of_except_bind_ok h
  obtain rfl := Except.ok.inj h
  rw [hl, List.append_nil]

/-- Steps follow each other. -/
theorem Replays.bind {α β : Type} {x : StreamM α} {f : α → StreamM β} {a : α} {b : β}
    {r r' r'' : Recording} (h : Replays C state write x a r r')
    (h' : Replays C state write (f a) b r' r'') : Replays C state write (x >>= f) b r r'' := by
  obtain ⟨δ, hδ, hx⟩ := h
  obtain ⟨δ', hδ', hf⟩ := h'
  refine ⟨δ ++ δ', by rw [hδ', hδ, List.append_assoc], fun items hitems s rest hs hin => ?_⟩
  obtain ⟨l, l', hl, hl', rfl⟩ := writeAccesses_append δ δ' hitems
  rw [List.append_assoc] at hin
  obtain ⟨s', hs', hin', hst⟩ := hx l hl s (l' ++ rest) hs hin
  obtain ⟨s'', hs'', hin'', hst'⟩ := hf l' hl' s' rest hst hin'
  exact ⟨s'', by rw [Exec.bind_ok hs', hs''], hin'', hst'⟩

theorem replays_pure {α : Type} (a : α) (r : Recording) :
    Replays C state write (pure a) a r r := by
  refine ⟨[], by simp, fun items hitems s rest hs hin => ?_⟩
  obtain rfl : [] = items := Except.ok.inj hitems
  exact ⟨s, rfl, hin, hs⟩

/-- A read that gives the same value in every state that is in step. -/
theorem replays_read {α : Type} {f : StreamingEthereumState → α} {a : α} {r : Recording}
    (hf : ∀ s, InStep C state r s → f s = a) : Replays C state write (Exec.read f) a r r := by
  refine ⟨[], by simp, fun items hitems s rest hs hin => ?_⟩
  obtain rfl : [] = items := Except.ok.inj hitems
  exact ⟨s, by rw [Exec.read_apply, hf s hs], hin, hs⟩

/-- The guest reads the account that the host records. -/
theorem replays_readAccount (hw : Wrote C input state write) {h : B256}
    {account : Option TrieAccount} (ha : accountAt C state.stateTrie h = .ok account)
    {r r' : Recording} (hr : recordAccount h r = (.ok (), r')) :
    Replays C state write (readAccount h) account r r' := by
  rw [recordAccount, Exec.write_apply, Prod.mk.injEq] at hr
  obtain ⟨-, rfl⟩ := hr
  by_cases hmem : h ∈ r.accountLookupOrder
  · rw [if_pos hmem]
    refine ⟨[], by simp, fun items hitems s rest hs hin => ?_⟩
    obtain rfl : [] = items := Except.ok.inj hitems
    obtain ⟨account', ha', hc⟩ := hs.read h hmem
    obtain rfl : account = account' := Except.ok.inj (ha.symm.trans ha')
    exact ⟨s, readAccount_cached hc, hin, hs⟩
  · rw [if_neg hmem]
    refine ⟨[.account h], rfl, fun items hitems s rest hs hin => ?_⟩
    obtain ⟨account', ha', rfl⟩ := hw.account h items (writeAccesses_singleton hitems)
    obtain rfl : account = account' := Except.ok.inj (ha.symm.trans ha')
    refine ⟨_, readAccount_next (hs.unread h hmem) hin, rfl, ?_, ?_, hs.loaded, hs.unloaded⟩
    · intro k hk
      simp only [List.lookup_append, lookup_pair]
      rcases List.mem_append.mp hk with hk | hk
      · obtain ⟨b, hb, hc⟩ := hs.read k hk
        exact ⟨b, hb, by rw [hc]; rfl⟩
      · obtain rfl := List.mem_singleton.mp hk
        exact ⟨account, ha, by rw [hs.unread k hmem]; simp⟩
    · intro k hk
      simp only [List.mem_append, List.mem_singleton, not_or] at hk
      simp only [List.lookup_append, lookup_pair, hs.unread k hk.1, if_neg hk.2]
      rfl

/-- The guest loads the storage trie that the host records. -/
theorem replays_loadStorageTrie (hw : Wrote C input state write) {h : B256} {m : Mpt}
    (hm : state.storageTries h = some m)
    (hsup : Supplied C input.storageTries state.stateTrie h m) {r r' : Recording}
    (hmem : h ∈ r.accountLookupOrder) (hr : recordStorageTrie h r = (.ok (), r')) :
    Replays C state write (loadStorageTrie C h) () r r' ∧ h ∈ r'.storageLookupOrder := by
  rw [recordStorageTrie, Exec.write_apply, Prod.mk.injEq] at hr
  obtain ⟨-, rfl⟩ := hr
  by_cases hload : h ∈ r.storageLookupOrder
  · rw [if_pos hload]
    refine ⟨⟨[], by simp, fun items hitems s rest hs hin => ⟨s, ?_, ?_, hs⟩⟩, hload⟩
    · have htrie : s.storageTries h = some m := (hs.loaded h hload).trans hm
      unfold loadStorageTrie
      rw [Exec.bind_ok (Exec.read_apply _ s), htrie]
      rfl
    · obtain rfl : [] = items := Except.ok.inj hitems
      exact hin
  · rw [if_neg hload]
    refine ⟨⟨[.storageTrie h], rfl, fun items hitems s rest hs hin => ?_⟩, by simp⟩
    obtain ⟨address, numNodes, bytes, hfind, rfl⟩ :=
      hw.storageTrie h items (writeAccesses_singleton hitems)
    obtain ⟨n, b, root, account, hfind', hdec, hacc, hroot⟩ := hsup
    obtain ⟨rfl, rfl, rfl⟩ : address = h ∧ numNodes = n ∧ bytes = b := by
      have heq := hfind.symm.trans hfind'
      simpa using heq
    obtain ⟨account', hacc', hc⟩ := hs.read address hmem
    obtain rfl : account = account' := Except.ok.inj (hacc.symm.trans hacc')
    have hload' : loadStorageTrie C address s = (.ok (),
        { s with
          input := rest
          storageTries := Function.update s.storageTries address (some m) }) := by
      unfold loadStorageTrie
      rw [Exec.bind_ok (Exec.read_apply _ s), hs.unloaded address hload]
      refine (Exec.bind_ok (readWitnessInput_cons hin)).trans ?_
      simp only [ne_eq, not_true_eq_false, if_false]
      have hc' : ({ s with input := .raw bytes :: rest } : StreamingEthereumState).accountCache.lookup
          address = some account := hc
      refine (Exec.bind_ok (expectedStorageRoot_cached hc')).trans ?_
      refine (Exec.bind_ok (readRawBytes_cons rfl)).trans ?_
      rw [hdec]
      refine (Exec.bind_ok (Exec.ofExcept_apply _ _)).trans ?_
      simp only [hroot, not_true_eq_false, if_false]
      rfl
    refine ⟨_, hload', rfl, hs.read, hs.unread, ?_, ?_⟩
    · intro k hk
      by_cases hkh : k = address
      · subst hkh
        simp [hm]
      · rcases List.mem_append.mp hk with hk | hk
        · simp only [Function.update_of_ne hkh, hs.loaded k hk]
        · exact absurd (List.mem_singleton.mp hk) hkh
    · intro k hk
      simp only [List.mem_append, List.mem_singleton, not_or] at hk
      simp only [Function.update_of_ne hk.2, hs.unloaded k hk.1]

theorem hashSlow_of_bytecodeByHash {bytecodes : List Bytecode} {h : B256} {code : Bytecode}
    (hc : bytecodeByHash C bytecodes h = some code) : C.hashSlow code = h := by
  simpa using List.find?_some hc

/-- The guest reads the bytecode that the host records. -/
theorem replays_readBytecode (hw : Wrote C input state write) {h : B256} {code : Bytecode}
    (hc : bytecodeByHash C input.bytecodes h = some code) {r r' : Recording}
    (hr : recordBytecode h r = (.ok (), r')) :
    Replays C state write (readBytecode C h) code r r' := by
  rw [recordBytecode, Exec.write_apply, Prod.mk.injEq] at hr
  obtain ⟨-, rfl⟩ := hr
  refine ⟨[.bytecode h], rfl, fun items hitems s rest hs hin => ?_⟩
  obtain ⟨code', hc', rfl⟩ := hw.bytecode h items (writeAccesses_singleton hitems)
  obtain rfl : code = code' := Option.some.inj (hc.symm.trans hc')
  refine ⟨{ s with input := rest }, ?_, rfl, hs.read, hs.unread, hs.loaded, hs.unloaded⟩
  unfold readBytecode
  rw [Exec.bind_ok (readWitnessInput_cons hin)]
  simp only [hashSlow_of_bytecodeByHash hc, ne_eq, not_true_eq_false, if_false]
  rfl

/-! ## What a call of the host does -/

theorem of_eager_basic {bytecodes : List Bytecode} {address : Address} {result : DbResult}
    {r r' : Recording} (hrun : eagerCall C state bytecodes (.basic address) r = (.ok result, r')) :
    recordAccount (C.keccak256 address.bytes) r = (.ok (), r') ∧
    ∃ account, accountAt C state.stateTrie (C.keccak256 address.bytes) = .ok account ∧
      result = .basic (account.map infoOf) := by
  obtain ⟨_, r₁, hrec, h₁⟩ := Exec.of_bind_ok hrun
  obtain ⟨account, r₂, hacc, h₂⟩ := Exec.of_bind_ok h₁
  obtain ⟨hval, rfl⟩ := Exec.of_ofExcept_ok hacc
  simp only [Exec.pure_apply, Prod.mk.injEq, Except.ok.injEq] at h₂
  obtain ⟨rfl, rfl⟩ := h₂
  exact ⟨hrec, account, Exec.of_mapError_ok hval, rfl⟩

theorem of_eager_codeByHash {bytecodes : List Bytecode} {hash : B256} {result : DbResult}
    {r r' : Recording} (hrun : eagerCall C state bytecodes (.codeByHash hash) r = (.ok result, r')) :
    recordBytecode hash r = (.ok (), r') ∧
    ∃ code, bytecodeByHash C bytecodes hash = some code ∧ result = .codeByHash code := by
  obtain ⟨_, r₁, hrec, h₁⟩ := Exec.of_bind_ok hrun
  cases hcode : bytecodeByHash C bytecodes hash with
  | none => simp [hcode] at h₁
  | some code =>
    simp only [hcode, Exec.pure_apply, Prod.mk.injEq, Except.ok.injEq] at h₁
    obtain ⟨rfl, rfl⟩ := h₁
    exact ⟨hrec, code, rfl, rfl⟩

theorem of_eager_storage {bytecodes : List Bytecode} {address : Address} {index : U256}
    {result : DbResult} {r r' : Recording}
    (hrun : eagerCall C state bytecodes (.storage address index) r = (.ok result, r')) :
    ∃ r₁ m value, recordAccount (C.keccak256 address.bytes) r = (.ok (), r₁) ∧
      recordStorageTrie (C.keccak256 address.bytes) r₁ = (.ok (), r') ∧
      state.storageTries (C.keccak256 address.bytes) = some m ∧
      slotAt C m (C.keccak256 index.toBeBytes) = .ok value ∧ result = .storage value := by
  obtain ⟨_, r₁, hrec, h₁⟩ := Exec.of_bind_ok hrun
  obtain ⟨_, r₂, hload, h₂⟩ := Exec.of_bind_ok h₁
  cases htrie : state.storageTries (C.keccak256 address.bytes) with
  | none => simp [htrie] at h₂
  | some m =>
    simp only [htrie] at h₂
    obtain ⟨value, r₃, hval, h₃⟩ := Exec.of_bind_ok h₂
    obtain ⟨hslot, rfl⟩ := Exec.of_ofExcept_ok hval
    simp only [Exec.pure_apply, Prod.mk.injEq, Except.ok.injEq] at h₃
    obtain ⟨rfl, rfl⟩ := h₃
    exact ⟨r₁, m, value, hrec, hload, rfl, Exec.of_mapError_ok hslot, rfl⟩

/-- The hashed address that a call looks at. -/
def DbCall.hashedAddress (C : ClientEnv) : DbCall → Option B256
  | .basic address => some (C.keccak256 address.bytes)
  | .codeByHash _ => none
  | .storage address _ => some (C.keccak256 address.bytes)

/-- A storage trie is only recorded after its account. -/
def Recording.Nested (r : Recording) : Prop :=
  ∀ h ∈ r.storageLookupOrder, h ∈ r.accountLookupOrder

/-- What a step of the host may do to the recording: it adds to it, and of the accounts only the
given one. -/
structure Recorded (touched : Option B256) (r r' : Recording) : Prop where
  accounts : ∀ h, h ∈ r'.accountLookupOrder ↔ h ∈ r.accountLookupOrder ∨ touched = some h
  nested : r.Nested → r'.Nested
  order : ∃ δ, r'.witnessOrder = r.witnessOrder ++ δ ∧ .stateTrie ∉ δ

theorem recorded_account {h : B256} {u : Unit} {r r' : Recording}
    (hr : recordAccount h r = (.ok u, r')) : Recorded (some h) r r' := by
  rw [recordAccount, Exec.write_apply, Prod.mk.injEq] at hr
  obtain ⟨-, rfl⟩ := hr
  by_cases hmem : h ∈ r.accountLookupOrder
  · rw [if_pos hmem]
    refine ⟨fun k => ⟨.inl, ?_⟩, fun hn => hn, [], by simp, by simp⟩
    rintro (hk | hk)
    · exact hk
    · rwa [← Option.some.inj hk]
  · rw [if_neg hmem]
    refine ⟨fun k => ?_, fun hn k hk => ?_, [.account h], rfl, by simp⟩
    · simp [eq_comm]
    · exact List.mem_append_left _ (hn k hk)

/-- A storage trie is recorded, whose account is known. -/
theorem recorded_storageTrie {h : B256} {u : Unit} {r r' : Recording}
    (hmem : h ∈ r.accountLookupOrder) (hr : recordStorageTrie h r = (.ok u, r')) :
    Recorded none r r' := by
  rw [recordStorageTrie, Exec.write_apply, Prod.mk.injEq] at hr
  obtain ⟨-, rfl⟩ := hr
  by_cases hload : h ∈ r.storageLookupOrder
  · rw [if_pos hload]
    exact ⟨fun k => by simp, fun hn => hn, [], by simp, by simp⟩
  · rw [if_neg hload]
    refine ⟨fun k => by simp, fun hn k hk => ?_, [.storageTrie h], rfl, by simp⟩
    rcases List.mem_append.mp hk with hk | hk
    · exact hn k hk
    · rwa [List.mem_singleton.mp hk]

theorem recorded_bytecode {h : B256} {u : Unit} {r r' : Recording}
    (hr : recordBytecode h r = (.ok u, r')) : Recorded none r r' := by
  rw [recordBytecode, Exec.write_apply, Prod.mk.injEq] at hr
  obtain ⟨-, rfl⟩ := hr
  exact ⟨fun k => by simp, fun hn => hn, [.bytecode h], rfl, by simp⟩

/-- A call records the account it looks at. -/
theorem recorded_call {bytecodes : List Bytecode} {call : DbCall} {result : DbResult}
    {r r' : Recording} (hrun : eagerCall C state bytecodes call r = (.ok result, r')) :
    Recorded (call.hashedAddress C) r r' := by
  cases call with
  | basic address => exact recorded_account (of_eager_basic hrun).1
  | codeByHash hash => exact recorded_bytecode (of_eager_codeByHash hrun).1
  | storage address index =>
    obtain ⟨r₁, _, _, hrec, hload, _⟩ := of_eager_storage hrun
    have h₁ := recorded_account hrec
    have h₂ := recorded_storageTrie ((h₁.accounts _).mpr (.inr rfl)) hload
    obtain ⟨δ, hδ, hno⟩ := h₁.order
    obtain ⟨δ', hδ', hno'⟩ := h₂.order
    refine ⟨fun k => ?_, fun hn => h₂.nested (h₁.nested hn), δ ++ δ', ?_, ?_⟩
    · rw [h₂.accounts, h₁.accounts]
      simp [DbCall.hashedAddress]
    · rw [hδ', hδ, List.append_assoc]
    · simp [hno, hno']

/-- The accounts of a run are those that its calls look at. -/
theorem recorded_calls {bytecodes : List Bytecode} :
    ∀ {calls : List DbCall} {results : List DbResult} {r r' : Recording},
      Exec.collect (eagerCall C state bytecodes) calls r = (.ok results, r') →
      (∀ h, h ∈ r'.accountLookupOrder ↔
        h ∈ r.accountLookupOrder ∨ ∃ call ∈ calls, call.hashedAddress C = some h) ∧
      (r.Nested → r'.Nested) ∧ ∃ δ, r'.witnessOrder = r.witnessOrder ++ δ ∧ .stateTrie ∉ δ
  | [], results, r, r', hrun => by
    simp only [Exec.collect, Exec.pure_apply, Prod.mk.injEq] at hrun
    obtain ⟨-, rfl⟩ := hrun
    exact ⟨fun h => by simp, fun hn => hn, [], by simp, by simp⟩
  | call :: calls, results, r, r', hrun => by
    obtain ⟨result, r₁, h₁, hrest⟩ := Exec.of_bind_ok hrun
    obtain ⟨results', r₂, h₂, h₃⟩ := Exec.of_bind_ok hrest
    simp only [Exec.pure_apply, Prod.mk.injEq] at h₃
    obtain ⟨-, rfl⟩ := h₃
    have hcall := recorded_call h₁
    obtain ⟨hacc, hnest, δ', hδ', hno'⟩ := recorded_calls h₂
    obtain ⟨δ, hδ, hno⟩ := hcall.order
    refine ⟨fun h => ?_, fun hn => hnest (hcall.nested hn), δ ++ δ', ?_, ?_⟩
    · rw [hacc, hcall.accounts, or_assoc]
      simp
    · rw [hδ', hδ, List.append_assoc]
    · simp [hno, hno']

/-- The account of a storage call was looked up before. -/
def AccountKnown (C : ClientEnv) (r : Recording) : DbCall → Prop
  | .storage address _ => C.keccak256 address.bytes ∈ r.accountLookupOrder
  | _ => True

/-- An account that is known is not recorded again. -/
theorem recordAccount_known {h : B256} {r : Recording} (hmem : h ∈ r.accountLookupOrder) :
    recordAccount h r = (.ok (), r) := by
  rw [recordAccount, Exec.write_apply, if_pos hmem]

/-- A call is answered by the guest as by the host. -/
theorem replays_call (hb : build C input = .ok state) (hw : Wrote C input state write)
    {call : DbCall} {result : DbResult} {r r' : Recording} (hk : AccountKnown C r call)
    (hrun : eagerCall C state input.bytecodes call r = (.ok result, r')) :
    Replays C state write (streamingCall C call) result r r' := by
  cases call with
  | basic address =>
    obtain ⟨hrec, account, hacc, rfl⟩ := of_eager_basic hrun
    exact (replays_readAccount hw hacc hrec).bind (replays_pure _ _)
  | codeByHash hash =>
    obtain ⟨hrec, code, hcode, rfl⟩ := of_eager_codeByHash hrun
    exact (replays_readBytecode hw hcode hrec).bind (replays_pure _ _)
  | storage address index =>
    obtain ⟨r₁, m, value, hrec, hload, htrie, hslot, rfl⟩ := of_eager_storage hrun
    rw [recordAccount_known hk] at hrec
    obtain rfl : r = r₁ := congrArg Prod.snd hrec
    obtain ⟨hstep, hmem⟩ :=
      replays_loadStorageTrie hw htrie (supplied_of_build hb _ _ htrie) hk hload
    refine hstep.bind (Replays.bind (replays_read (a := some m) fun s hs => ?_) ?_)
    · rw [hs.loaded _ hmem, htrie]
    · simp only [hslot]
      exact replays_pure _ _

/-- Every storage call comes after a `basic` of its address. -/
def StorageAfterBasic (calls : List DbCall) : Prop :=
  ∀ before address index after, calls = before ++ .storage address index :: after →
    .basic address ∈ before

/-- A run is answered by the guest as by the host, and the guest reads exactly what the host
recorded.  `before` is what ran already. -/
theorem replays_calls (hb : build C input = .ok state) (hw : Wrote C input state write) :
    ∀ (calls before : List DbCall) {results : List DbResult} {r r' : Recording},
      StorageAfterBasic (before ++ calls) →
      (∀ address, .basic address ∈ before → C.keccak256 address.bytes ∈ r.accountLookupOrder) →
      Exec.collect (eagerCall C state input.bytecodes) calls r = (.ok results, r') →
      Replays C state write (Exec.collect (streamingCall C) calls) results r r'
  | [], before, results, r, r', _, _, hrun => by
    simp only [Exec.collect, Exec.pure_apply, Prod.mk.injEq, Except.ok.injEq] at hrun
    obtain ⟨rfl, rfl⟩ := hrun
    exact replays_pure _ _
  | call :: calls, before, results, r, r', hafter, hbefore, hrun => by
    obtain ⟨result, r₁, h₁, hrun⟩ := Exec.of_bind_ok hrun
    obtain ⟨results', r₂, h₂, h₃⟩ := Exec.of_bind_ok hrun
    simp only [Exec.pure_apply, Prod.mk.injEq, Except.ok.injEq] at h₃
    obtain ⟨rfl, rfl⟩ := h₃
    have hknown : AccountKnown C r call := by
      cases call with
      | storage address index => exact hbefore address (hafter before address index calls rfl)
      | basic address => trivial
      | codeByHash hash => trivial
    have hrec := recorded_call h₁
    have hrest := replays_calls hb hw calls (before ++ [call])
      (by rwa [List.append_assoc, List.singleton_append]) (fun address ha => by
        rcases List.mem_append.mp ha with ha | ha
        · exact (hrec.accounts _).mpr (.inl (hbefore address ha))
        · obtain rfl := List.mem_singleton.mp ha
          exact (hrec.accounts _).mpr (.inr rfl)) h₂
    exact (replays_call hb hw hknown h₁).bind (hrest.bind (replays_pure _ _))

/-! ## A storage lookup before its account -/

/-- A step of the guest stops on the items of what the host recorded in the same step. -/
def Derails (C : ClientEnv) (state : EthereumState)
    (write : WitnessAccess → Except HostError (List StreamItem)) {α : Type} (x : StreamM α)
    (r r' : Recording) : Prop :=
  ∃ δ, r'.witnessOrder = r.witnessOrder ++ δ ∧ ∀ items, writeAccesses write δ = .ok items →
    ∀ s rest, InStep C state r s → s.input = items ++ rest → ∃ e s', x s = (.error e, s')

theorem Derails.bind {α β : Type} {x : StreamM α} {f : α → StreamM β} {r r' r'' : Recording}
    (h : Derails C state write x r r') (hδ : ∃ δ, r''.witnessOrder = r'.witnessOrder ++ δ) :
    Derails C state write (x >>= f) r r'' := by
  obtain ⟨δ, hδ₁, hx⟩ := h
  obtain ⟨δ', hδ₂⟩ := hδ
  refine ⟨δ ++ δ', by rw [hδ₂, hδ₁, List.append_assoc], fun items hitems s rest hs hin => ?_⟩
  obtain ⟨l, l', hl, -, rfl⟩ := writeAccesses_append δ δ' hitems
  rw [List.append_assoc] at hin
  obtain ⟨e, s', hs'⟩ := hx l hl s (l' ++ rest) hs hin
  exact ⟨e, s', Exec.bind_error hs'⟩

theorem Replays.bind_derails {α β : Type} {x : StreamM α} {f : α → StreamM β} {a : α}
    {r r' r'' : Recording} (h : Replays C state write x a r r')
    (h' : Derails C state write (f a) r' r'') : Derails C state write (x >>= f) r r'' := by
  obtain ⟨δ, hδ, hx⟩ := h
  obtain ⟨δ', hδ', hf⟩ := h'
  refine ⟨δ ++ δ', by rw [hδ', hδ, List.append_assoc], fun items hitems s rest hs hin => ?_⟩
  obtain ⟨l, l', hl, hl', rfl⟩ := writeAccesses_append δ δ' hitems
  rw [List.append_assoc] at hin
  obtain ⟨s', hs', hin', hst⟩ := hx l hl s (l' ++ rest) hs hin
  obtain ⟨e, s'', hs''⟩ := hf l' hl' s' rest hst hin'
  exact ⟨e, s'', by rw [Exec.bind_ok hs', hs'']⟩

/-- The guest looks for the storage trie first, and finds the account that the host recorded
before it. -/
theorem derails_loadStorageTrie (hw : Wrote C input state write) {h : B256} {r r₁ r₂ : Recording}
    (hacc : h ∉ r.accountLookupOrder) (hsto : h ∉ r.storageLookupOrder)
    (hr₁ : recordAccount h r = (.ok (), r₁)) (hr₂ : recordStorageTrie h r₁ = (.ok (), r₂)) :
    Derails C state write (loadStorageTrie C h) r r₂ := by
  rw [recordAccount, Exec.write_apply, if_neg hacc, Prod.mk.injEq] at hr₁
  obtain ⟨-, rfl⟩ := hr₁
  rw [recordStorageTrie, Exec.write_apply, if_neg hsto, Prod.mk.injEq] at hr₂
  obtain ⟨-, rfl⟩ := hr₂
  refine ⟨[.account h, .storageTrie h], by simp, fun items hitems s rest hs hin => ?_⟩
  obtain ⟨l, l', hl, -, rfl⟩ := writeAccesses_append [.account h] [.storageTrie h] hitems
  obtain ⟨account, -, rfl⟩ := hw.account h l (writeAccesses_singleton hl)
  unfold loadStorageTrie
  rw [Exec.bind_ok (Exec.read_apply _ s), hs.unloaded h hsto]
  exact ⟨_, _, Exec.bind_ok (readWitnessInput_cons hin)⟩

/-- A storage lookup as the first access to its account. -/
theorem derails_call (hw : Wrote C input state write) {call : DbCall} {result : DbResult}
    {r r' : Recording} (hn : r.Nested) (hk : ¬ AccountKnown C r call)
    (hrun : eagerCall C state input.bytecodes call r = (.ok result, r')) :
    Derails C state write (streamingCall C call) r r' := by
  cases call with
  | basic address => exact absurd trivial hk
  | codeByHash hash => exact absurd trivial hk
  | storage address index =>
    obtain ⟨r₁, _, _, hrec, hload, _⟩ := of_eager_storage hrun
    have hsto : C.keccak256 address.bytes ∉ r.storageLookupOrder := fun h => hk (hn _ h)
    exact (derails_loadStorageTrie hw hk hsto hrec hload).bind ⟨[], by simp⟩

/-- A run in which some storage call comes before every other access to its account. -/
theorem derails_calls (hb : build C input = .ok state) (hw : Wrote C input state write) :
    ∀ (before : List DbCall) {address : Address} {index : U256} {results : List DbResult}
      {r r' : Recording}, r.Nested → C.keccak256 address.bytes ∉ r.accountLookupOrder →
      (∀ call ∈ before, call.hashedAddress C ≠ some (C.keccak256 address.bytes)) →
      Exec.collect (eagerCall C state input.bytecodes) (before ++ [.storage address index]) r =
        (.ok results, r') →
      Derails C state write (Exec.collect (streamingCall C) (before ++ [.storage address index]))
        r r'
  | [], address, index, results, r, r', hn, hnew, _, hrun => by
    obtain ⟨result, r₁, h₁, h₂⟩ := Exec.of_bind_ok hrun
    simp only [Exec.collect] at h₂
    obtain rfl : r₁ = r' := congrArg Prod.snd h₂
    have hk : ¬ AccountKnown C r (.storage address index) := hnew
    exact (derails_call hw hn hk h₁).bind ⟨[], by simp⟩
  | call :: before, address, index, results, r, r', hn, hnew, hbefore, hrun => by
    obtain ⟨result, r₁, h₁, hrest⟩ := Exec.of_bind_ok hrun
    obtain ⟨results', r₂, h₂, h₃⟩ := Exec.of_bind_ok hrest
    obtain rfl : r₂ = r' := congrArg Prod.snd h₃
    have hrec := recorded_call h₁
    by_cases hk : AccountKnown C r call
    · have hnew' : C.keccak256 address.bytes ∉ r₁.accountLookupOrder := by
        rw [hrec.accounts, not_or]
        exact ⟨hnew, hbefore call (by simp)⟩
      have ih := derails_calls hb hw before (hrec.nested hn) hnew'
        (fun c hc => hbefore c (by simp [hc])) h₂
      exact (replays_call hb hw hk h₁).bind_derails (ih.bind ⟨[], by simp⟩)
    · obtain ⟨_, _, δ, hδ, _⟩ := recorded_calls h₂
      exact (derails_call hw hn hk h₁).bind ⟨δ, hδ⟩

end Steps

/-! ## The stream of the host -/

/-- The accounts of the table are those of the state trie. -/
theorem accountByHash_lookup {state : EthereumState} {order : List WitnessAccess}
    {accounts : List (B256 × Option TrieAccount)} (h : accountByHash C state order = .ok accounts)
    {hash : B256} {account : Option TrieAccount}
    (hl : accounts.reverse.lookup hash = some account) :
    accountAt C state.stateTrie hash = .ok account := by
  obtain ⟨before, after, hsplit, -⟩ := List.lookup_eq_some_iff.mp hl
  have hmem : (hash, account) ∈ accounts := by
    rw [← List.mem_reverse, hsplit]
    simp
  obtain ⟨hash', -, hat⟩ := Exec.exists_of_forall₂ (Exec.of_mapM_ok h) hmem
  cases hacc : accountAt C state.stateTrie hash' with
  | error e => simp [hacc, Except.map, Except.mapError] at hat
  | ok account' =>
    simp only [hacc, Except.mapError, Except.map, Except.ok.injEq, Prod.mk.injEq] at hat
    obtain ⟨rfl, rfl⟩ := hat
    exact hacc

theorem wrote_writeAccess {input : ClientExecutorInput} {state : EthereumState}
    {order : List WitnessAccess} {accounts : List (B256 × Option TrieAccount)}
    (h : accountByHash C state order = .ok accounts) (frontierBytes : Bytes) :
    Wrote C input state (writeAccess C input accounts frontierBytes) where
  account hash items hw := by
    simp only [writeAccess] at hw
    cases hl : accounts.reverse.lookup hash with
    | none => simp [hl] at hw
    | some account =>
      simp only [hl, Except.ok.injEq] at hw
      exact ⟨account, accountByHash_lookup h hl, hw.symm⟩
  storageTrie hash items hw := by
    simp only [writeAccess] at hw
    cases hl : storageTrieByHash input hash with
    | none => simp [hl] at hw
    | some entry =>
      simp only [hl, Except.ok.injEq] at hw
      exact ⟨entry.1, entry.2.1, entry.2.2, rfl, hw.symm⟩
  bytecode hash items hw := by
    simp only [writeAccess] at hw
    cases hl : bytecodeByHash C input.bytecodes hash with
    | none => simp [hl] at hw
    | some code =>
      simp only [hl, Except.ok.injEq] at hw
      exact ⟨code, rfl, hw.symm⟩

/-- The marker of the state trie splits what was recorded. -/
theorem takeWhile_order {order : List WitnessAccess} (hno : .stateTrie ∉ order)
    (post : List WitnessAccess) :
    (order ++ .stateTrie :: post).takeWhile (· ≠ .stateTrie) = order ∧
      ((order ++ .stateTrie :: post).dropWhile (· ≠ .stateTrie)).tail = post := by
  have hne : ∀ a ∈ order, decide (a ≠ WitnessAccess.stateTrie) = true := fun a ha => by
    simpa using fun h : a = .stateTrie => hno (h ▸ ha)
  rw [List.takeWhile_append_of_pos hne, List.dropWhile_append_of_pos hne]
  simp

/-- What is written for an order: the items before the marker, the bytes of the frontier, and the
chunks. -/
theorem of_writeCenoClientInput {input : ClientExecutorInput} {state : EthereumState}
    (hb : build C input = .ok state) {order post : List WitnessAccess} (hno : .stateTrie ∉ order)
    {header : StateTrieHeader} {items : List StreamItem}
    (hw : writeCenoClientInput C input (order ++ .stateTrie :: post) = .ok (header, items)) :
    ∃ frontier accounts executed rest,
      writtenFrontier C state (order ++ .stateTrie :: post) = .ok frontier ∧
      accountByHash C state (order ++ .stateTrie :: post) = .ok accounts ∧
      writeAccesses (writeAccess C input accounts frontier.bytes) order = .ok executed ∧
      writeChunks (writeAccess C input accounts frontier.bytes) post frontier.chunks = .ok rest ∧
      header = ⟨2, frontier.numNodes, frontier.chunks.length⟩ ∧
      items = executed ++ .raw frontier.bytes :: rest := by
  obtain ⟨state', hb', hw⟩ := Exec.of_except_bind_ok hw
  obtain rfl : state = state' := Except.ok.inj (hb.symm.trans (Exec.of_mapError_ok hb'))
  obtain ⟨frontier, hf, hw⟩ := Exec.of_except_bind_ok hw
  rw [if_neg (by simp)] at hw
  obtain ⟨accounts, haccounts, hw⟩ := Exec.of_except_bind_ok hw
  obtain ⟨written, hwritten, hw⟩ := Exec.of_except_bind_ok hw
  obtain ⟨rest, hchunks, hw⟩ := Exec.of_except_bind_ok hw
  obtain ⟨rfl, rfl⟩ : _ = header ∧ written ++ rest = items := by
    simpa using Except.ok.inj hw
  obtain ⟨htake, hdrop⟩ := takeWhile_order hno post
  rw [htake] at hwritten
  rw [hdrop] at hchunks
  obtain ⟨executed, l, hl, hl', rfl⟩ := writeAccesses_append _ _ hwritten
  obtain rfl : [.raw frontier.bytes] = l := Except.ok.inj (writeAccesses_singleton hl')
  exact ⟨frontier, accounts, executed, rest, hf, haccounts, hl, hchunks, rfl,
    List.append_assoc ..⟩

/-- The guest answers every call of an execution as the host did, and has then read the items
of the recording and none after them: it is at the bytes of the state trie. -/
theorem streaming_replays {input : ClientExecutorInput} {state : EthereumState}
    {calls : List DbCall} {results : List DbResult} {recording : Recording}
    (hb : build C input = .ok state) (hafter : StorageAfterBasic calls)
    (hrun : Exec.collect (eagerCall C state input.bytecodes) calls .empty =
      (.ok results, recording))
    {post : List WitnessAccess} {header : StateTrieHeader} {items : List StreamItem}
    (hw : writeCenoClientInput C input (recording.witnessOrder ++ .stateTrie :: post) =
      .ok (header, items)) (parentStateRoot : B256) :
    ∃ frontier accounts executed rest s,
      writtenFrontier C state (recording.witnessOrder ++ .stateTrie :: post) = .ok frontier ∧
      accountByHash C state (recording.witnessOrder ++ .stateTrie :: post) = .ok accounts ∧
      writeAccesses (writeAccess C input accounts frontier.bytes) recording.witnessOrder =
        .ok executed ∧
      items = executed ++ .raw frontier.bytes :: rest ∧
      Exec.collect (streamingCall C) calls
        (StreamingEthereumState.new header parentStateRoot items) = (.ok results, s) ∧
      s.input = .raw frontier.bytes :: rest := by
  obtain ⟨-, -, δ, hδ, hno⟩ := recorded_calls hrun
  obtain rfl : recording.witnessOrder = δ := by simpa [Recording.empty] using hδ
  obtain ⟨frontier, accounts, executed, rest, hf, haccounts, hl, -, -, rfl⟩ :=
    of_writeCenoClientInput hb hno hw
  obtain ⟨δ, hδ', hreplay⟩ := replays_calls hb (wrote_writeAccess haccounts frontier.bytes)
    calls [] hafter (fun _ h => by simp at h) hrun
  obtain rfl : recording.witnessOrder = δ := by simpa [Recording.empty] using hδ'
  obtain ⟨s, hs, hin, -⟩ := hreplay executed hl _ (.raw frontier.bytes :: rest)
    (inStep_empty state header parentStateRoot _) rfl
  exact ⟨frontier, accounts, executed, rest, s, hf, haccounts, hl, rfl, hs, hin⟩

/-- A storage lookup that is the first access to its account stops the guest: the stream has the
account first, and the guest looks for the storage trie. -/
theorem first_touch_never_replays {input : ClientExecutorInput} {state : EthereumState}
    {before after : List DbCall} {address : Address} {index : U256} {results : List DbResult}
    {recording : Recording} (hb : build C input = .ok state)
    (hfirst : ∀ call ∈ before, call.hashedAddress C ≠ some (C.keccak256 address.bytes))
    (hrun : Exec.collect (eagerCall C state input.bytecodes)
      (before ++ .storage address index :: after) .empty = (.ok results, recording))
    {post : List WitnessAccess} {header : StateTrieHeader} {items : List StreamItem}
    (hw : writeCenoClientInput C input (recording.witnessOrder ++ .stateTrie :: post) =
      .ok (header, items)) (parentStateRoot : B256) :
    ∃ e s, Exec.collect (streamingCall C) (before ++ [.storage address index])
      (StreamingEthereumState.new header parentStateRoot items) = (.error e, s) := by
  obtain ⟨-, -, δ, hδ, hno⟩ := recorded_calls hrun
  obtain rfl : recording.witnessOrder = δ := by simpa [Recording.empty] using hδ
  obtain ⟨frontier, accounts, executed, rest, hf, haccounts, hl, -, -, rfl⟩ :=
    of_writeCenoClientInput hb hno hw
  rw [show before ++ .storage address index :: after =
    (before ++ [.storage address index]) ++ after by simp] at hrun
  obtain ⟨results₁, _, r₁, hrun₁, hrun₂, -⟩ := Exec.of_collect_append_ok hrun
  obtain ⟨-, -, δ₂, hδ₂, -⟩ := recorded_calls hrun₂
  obtain ⟨δ₁, hδ₁, hderail⟩ := derails_calls hb (wrote_writeAccess haccounts frontier.bytes) before
    (fun h hh => by simp [Recording.empty] at hh) (by simp [Recording.empty]) hfirst hrun₁
  -- the items of the run up to this call, and those of what follows it
  have horder : recording.witnessOrder = δ₁ ++ δ₂ := by
    rw [hδ₂, hδ₁]
    rfl
  rw [horder] at hl
  obtain ⟨l₁, l₂, hl₁, -, rfl⟩ := writeAccesses_append δ₁ δ₂ hl
  exact hderail l₁ hl₁ _ (l₂ ++ .raw frontier.bytes :: rest)
    (inStep_empty state header parentStateRoot _) (List.append_assoc ..)

/-! ## One account with one slot -/

section Sample

open EthereumState

/-- The hash of no code is a constant of the library. -/
def sampleClientEnv : ClientEnv where
  toStateEnv := sampleStateEnv
  hashSlow code := if code.original = [] then noCode else sampleStateEnv.keccak256 code.original

def sampleInput : ClientExecutorInput where
  ancestorHeaders :=
    [⟨B256.ofNat 0x9535065d9c8a2413d7110fffb46049746494f97244819594198e66543f2adb45⟩]
  stateTrie := (2, [0xf8, 0x6a, 0xa1, 0x20] ++ hashedOne.bytes ++
    [0xb8, 0x46, 0xf8, 0x44, 1, 7, 0xa0] ++ slotRoot.bytes ++ [0xa0] ++ noCode.bytes)
  storageTries := [(hashedOne, 2, [0xe3, 0xa1, 0x20] ++ slotOne.bytes ++ [5])]
  bytecodes := [⟨[]⟩]

/-- An account, its code, a slot that is set and one that is not, and an address without an
account. -/
def sampleCalls : List DbCall :=
  [.basic addressOne, .codeByHash noCode, .storage addressOne 1, .basic addressTwo,
   .storage addressOne 2, .codeByHash noCode]

def sampleResults : List DbResult :=
  [.basic (some ⟨1, 7, noCode⟩), .codeByHash ⟨[]⟩, .storage 5, .basic none, .storage 0,
   .codeByHash ⟨[]⟩]

/-- The state of the input. -/
def sampleBuilt : EthereumState := (build sampleClientEnv sampleInput).toOption.getD sampleState

def sampleRecording : Recording :=
  (Exec.collect (eagerCall sampleClientEnv sampleBuilt sampleInput.bytecodes) sampleCalls .empty).2

def sampleStream : StateTrieHeader × List StreamItem :=
  (writeCenoClientInput sampleClientEnv sampleInput
    (sampleRecording.witnessOrder ++ [.stateTrie])).toOption.getD (⟨0, 0, 0⟩, [])

theorem ok_getD {ε α : Type} {x : Except ε α} {a : α} (h : x.toOption.isSome = true) :
    x = .ok (x.toOption.getD a) := by
  cases x with
  | error e => simp [Except.toOption] at h
  | ok b => rfl

theorem build_sample : build sampleClientEnv sampleInput = .ok sampleBuilt :=
  ok_getD (by decide +kernel)

theorem storageAfterBasic_sample : StorageAfterBasic sampleCalls := by
  intro before address index after h
  rcases before with _ | ⟨_, _ | ⟨_, _ | ⟨_, _ | ⟨_, _ | ⟨_, _ | ⟨_, before⟩⟩⟩⟩⟩⟩ <;>
    simp [sampleCalls] at h
  · obtain ⟨rfl, rfl, ⟨rfl, -⟩, -⟩ := h
    simp
  · obtain ⟨rfl, rfl, rfl, rfl, ⟨rfl, -⟩, -⟩ := h
    simp

theorem streaming_replays_sample :
    (Exec.collect (eagerCall sampleClientEnv sampleBuilt sampleInput.bytecodes)
      sampleCalls .empty).1 = .ok sampleResults ∧ ∃ bytes rest s,
      Exec.collect (streamingCall sampleClientEnv) sampleCalls
        (StreamingEthereumState.new sampleStream.1 (B256.ofNat 0) sampleStream.2) =
        (.ok sampleResults, s) ∧ s.input = .raw bytes :: rest := by
  have hres : (Exec.collect (eagerCall sampleClientEnv sampleBuilt sampleInput.bytecodes)
      sampleCalls .empty).1 = .ok sampleResults := by decide +kernel
  have hrun : Exec.collect (eagerCall sampleClientEnv sampleBuilt sampleInput.bytecodes)
      sampleCalls .empty = (.ok sampleResults, sampleRecording) := by
    rw [← hres, sampleRecording]
  have hw : writeCenoClientInput sampleClientEnv sampleInput
      (sampleRecording.witnessOrder ++ [.stateTrie]) = .ok (sampleStream.1, sampleStream.2) := by
    rw [Prod.mk.eta]
    exact ok_getD (by decide +kernel)
  obtain ⟨frontier, _, _, rest, s, _, _, _, _, hs, hin⟩ := streaming_replays build_sample
    storageAfterBasic_sample hrun hw (B256.ofNat 0)
  exact ⟨hres, frontier.bytes, rest, s, hs, hin⟩

/-- A history of one call, a storage lookup. -/
def touchRecording : Recording :=
  (Exec.collect (eagerCall sampleClientEnv sampleBuilt sampleInput.bytecodes)
    [.storage addressOne 1] .empty).2

def touchStream : StateTrieHeader × List StreamItem :=
  (writeCenoClientInput sampleClientEnv sampleInput
    (touchRecording.witnessOrder ++ [.stateTrie])).toOption.getD (⟨0, 0, 0⟩, [])

/-- The host reads the slot, and the guest stops at the account that stands before its storage
trie. -/
theorem first_touch_stops :
    build sampleClientEnv sampleInput = .ok sampleBuilt ∧
    (Exec.collect (eagerCall sampleClientEnv sampleBuilt sampleInput.bytecodes)
      [.storage addressOne 1] .empty).1 = .ok [.storage 5] ∧
    writeCenoClientInput sampleClientEnv sampleInput
      (touchRecording.witnessOrder ++ [.stateTrie]) = .ok (touchStream.1, touchStream.2) ∧
    (Exec.collect (streamingCall sampleClientEnv) [.storage addressOne 1]
      (StreamingEthereumState.new touchStream.1 (B256.ofNat 0) touchStream.2)).1 =
      .error (.message (.expectedStorageTrie hashedOne (.account hashedOne))) := by
  refine ⟨build_sample, by decide +kernel, ?_, by decide +kernel⟩
  rw [Prod.mk.eta]
  exact ok_getD (by decide +kernel)

theorem first_touch_never_replays_sample :
    ∃ e s, Exec.collect (streamingCall sampleClientEnv) [.storage addressOne 1]
      (StreamingEthereumState.new touchStream.1 (B256.ofNat 0) touchStream.2) = (.error e, s) := by
  have hres : (Exec.collect (eagerCall sampleClientEnv sampleBuilt sampleInput.bytecodes)
      [.storage addressOne 1] .empty).1 = .ok [.storage 5] := by decide +kernel
  have hrun : Exec.collect (eagerCall sampleClientEnv sampleBuilt sampleInput.bytecodes)
      ([] ++ [.storage addressOne 1]) .empty = (.ok [.storage 5], touchRecording) := by
    rw [List.nil_append, ← hres, touchRecording]
  have hw : writeCenoClientInput sampleClientEnv sampleInput
      (touchRecording.witnessOrder ++ [.stateTrie]) = .ok (touchStream.1, touchStream.2) := by
    rw [Prod.mk.eta]
    exact ok_getD (by decide +kernel)
  exact first_touch_never_replays build_sample (fun call h => by simp at h) hrun hw (B256.ofNat 0)

end Sample

end CenoReth
