/-
The update, turn by turn.

One turn of the loop reads a chunk, uses it and replaces its slot in the frontier.
`Turn` names everything that a turn reads, checks and writes, and a turn that
returned is one.  At the beginning of the module is what the stream is compared
with: the complete parent state.
-/
import CenoReth.Mpt.Exchange
import CenoReth.State.Session

namespace CenoReth

open Patricia Patricia.Radix Trie

/-! ## The parent state -/

/-- A complete state: the state trie, and the storage trie of every account. -/
structure FullState where
  state : Trie
  storage : B256 → Trie

/-- A value of a trie, decoded. -/
def decodeWith {α : Type} (decode : Bytes → Except Rlp.RlpError α) :
    Option Bytes → Except Rlp.RlpError (Option α)
  | none => .ok none
  | some bytes => (decode bytes).map some

namespace FullState

/-- The account that is stored for a hashed address. -/
def Stores (C : ClientEnv) (S : FullState) (a : B256) (account : Option TrieAccount) : Prop :=
  ∃ o, S.state.get (Hp.keyNibs a.bytes) = .ok o ∧ decodeWith C.decodeAccount o = .ok account

/-- The value of a slot in the storage of an account. -/
def StoresSlot (C : ClientEnv) (S : FullState) (a k : B256) (value : U256) : Prop :=
  ∃ o v, (S.storage a).get (Hp.keyNibs k.bytes) = .ok o ∧ decodeWith C.decodeU256 o = .ok v ∧
    value = v.getD 0

/-- Canonical tries under the given state root, with a canonical storage trie behind every
storage root. -/
structure Sound (C : ClientEnv) (S : FullState) (root : B256) : Prop where
  state : IsTrie 64 S.state
  storage : ∀ a, IsTrie 64 (S.storage a)
  stateValues : AllValues (fun v => v.length < 2 ^ 63) S.state
  storageValues : ∀ a, AllValues (fun v => v.length < 2 ^ 63) (S.storage a)
  root : Trie.hash C.toEnv S.state = root
  storageRoot : ∀ a account, S.Stores C a account →
    Trie.hash C.toEnv (S.storage a) = storageRootOf C.toEnv account

end FullState

/-! ## Lookups -/

namespace Mpt

/-- Nothing was written. -/
def Still (m m' : Mpt) : Prop := m' = m

theorem Still.refl (m : Mpt) : Still m m := rfl

theorem Still.trans (m m' m'' : Mpt) (h : Still m m') (h' : Still m' m'') : Still m m'' :=
  Eq.trans h' h

theorem nodeAt_still (id : NodeId) : Exec.Moves Still (nodeAt id) :=
  (Exec.moves_read Still.refl _).bind Still.trans fun _ =>
    Exec.Moves.bind (Exec.moves_ofExcept Still.refl _) Still.trans fun _ =>
      Exec.moves_pure Still.refl _

theorem orPanic_still {α : Type} (o : Option α) : Exec.Moves Still (orPanic o) :=
  Exec.moves_ofExcept Still.refl _

/-- Lookups write nothing. -/
theorem getInternal_still : ∀ (fuel : Nat) (id : NodeId) (keyNibs : List UInt8),
    Exec.Moves Still (getInternal fuel id keyNibs) := by
  intro fuel
  induction fuel with
  | zero => exact fun _ _ => Exec.moves_fail Still.refl _
  | succ fuel ih =>
    intro id keyNibs
    refine (nodeAt_still id).bind Still.trans fun data => ?_
    cases data with
    | null => exact Exec.moves_pure Still.refl _
    | branch nodes =>
      cases keyNibs with
      | nil => exact Exec.moves_pure Still.refl _
      | cons i tail =>
        refine (orPanic_still _).bind Still.trans fun j => ?_
        cases hj : nodes j with
        | none => exact Exec.moves_pure Still.refl _
        | some child => exact ih child tail
    | leaf path value =>
      exact (orPanic_still _).bind Still.trans fun _ => Exec.moves_pure Still.refl _
    | extension path child =>
      refine (orPanic_still _).bind Still.trans fun o => ?_
      cases o with
      | none => exact Exec.moves_pure Still.refl _
      | some tail => exact ih child tail
    | digest d =>
      exact (orPanic_still _).bind Still.trans fun _ => Exec.moves_fail Still.refl _

theorem getNibbles_still (keyNibs : List UInt8) (m : Mpt) : (getNibbles keyNibs m).2 = m := by
  unfold getNibbles
  rw [Exec.bind_ok (Exec.read_apply _ m)]
  exact getInternal_still _ _ _ m

/-- A decoded value that was found. -/
theorem getRlpNibbles_eq {α : Type} {decode : Bytes → Except Rlp.RlpError α}
    {keyNibs : List UInt8} {m : Mpt} :
    (getRlpNibbles decode keyNibs m).2 = m ∧ ∀ o, (getRlpNibbles decode keyNibs m).1 = .ok o ↔
      ∃ bytes, (getNibbles keyNibs m).1 = .ok bytes ∧ decodeWith decode bytes = .ok o := by
  have hstill := getNibbles_still keyNibs m
  unfold getRlpNibbles
  rcases hg : getNibbles keyNibs m with ⟨e | bytes, m'⟩
  · rw [hg] at hstill
    rw [Exec.bind_error hg]
    exact ⟨hstill, by simp⟩
  · rw [hg] at hstill
    obtain rfl : m' = m := hstill
    rw [Exec.bind_ok hg]
    cases bytes with
    | none => exact ⟨rfl, fun o => by simp [decodeWith]⟩
    | some bytes =>
      dsimp only
      cases hd : decode bytes with
      | error e => exact ⟨rfl, fun o => by simp [decodeWith, hd, Except.map]⟩
      | ok a => exact ⟨rfl, fun o => by simp [decodeWith, hd, Except.map]⟩

end Mpt

namespace StreamingEthereumState

variable {C : ClientEnv}

/-! ## What a turn leaves alone -/

/-- Items were read and storage tries were used; nothing else changed. -/
structure Advances (s s' : StreamingEthereumState) : Prop where
  input : s'.input <:+ s.input
  rest : s' = { s with input := s'.input, storageTries := s'.storageTries }

theorem Advances.refl (s : StreamingEthereumState) : Advances s s := ⟨List.suffix_rfl, rfl⟩

theorem Advances.trans {s s' s'' : StreamingEthereumState} (h : Advances s s')
    (h' : Advances s' s'') : Advances s s'' := by
  refine ⟨h'.input.trans h.input, h'.rest.trans ?_⟩
  rw [h.rest]

/-- The same while a chunk is processed. -/
def Later (cs cs' : ChunkState) : Prop := Advances cs.stream cs'.stream

theorem Later.refl (cs : ChunkState) : Later cs cs := Advances.refl _

theorem Later.trans (cs cs' cs'' : ChunkState) (h : Later cs cs') (h' : Later cs' cs'') :
    Later cs cs'' := Advances.trans h h'

theorem advances_readItem : Exec.Moves Advances readItem := by
  intro s
  unfold readItem
  split
  · exact .refl s
  · rename_i item input heq
    refine ⟨?_, rfl⟩
    rw [heq]
    exact List.suffix_cons item input

theorem advances_readWitnessInput : Exec.Moves Advances readWitnessInput := by
  refine advances_readItem.bind (fun _ _ _ => Advances.trans) fun item => ?_
  cases item with
  | witness input => exact Exec.moves_pure Advances.refl input
  | raw bytes => exact Exec.moves_fail Advances.refl _

theorem advances_readRawBytes : Exec.Moves Advances readRawBytes := by
  refine advances_readItem.bind (fun _ _ _ => Advances.trans) fun item => ?_
  cases item with
  | witness input => exact Exec.moves_fail Advances.refl _
  | raw bytes => exact Exec.moves_pure Advances.refl bytes

theorem later_onStream {α : Type} {x : StreamM α} (h : Exec.Moves Advances x) :
    Exec.Moves Later (onStream x) := fun cs => h cs.stream

theorem later_onChunk {α : Type} (x : TrieM α) : Exec.Moves Later (onChunk x) :=
  fun cs => Advances.refl cs.stream

theorem later_borrowInput {α : Type} {x : ChunkM α} (h : Exec.Moves Later x) :
    Exec.Moves Later (borrowInput x) := by
  refine (Exec.moves_read Later.refl _).bind Later.trans fun held => ?_
  split
  · exact Exec.moves_fail Later.refl _
  · exact Exec.Moves.bind (fun cs => Later.refl cs) Later.trans fun _ => h.bind Later.trans
      fun _ => Exec.Moves.bind (fun cs => Later.refl cs) Later.trans fun _ =>
        Exec.moves_pure Later.refl _

theorem later_readChunkWitness (p : List UInt8) : Exec.Moves Later (readChunkWitness C p) := by
  refine later_borrowInput ?_
  refine (later_onStream advances_readWitnessInput).bind Later.trans fun witness => ?_
  cases witness with
  | account accountInput =>
    dsimp only
    split
    · exact Exec.moves_fail Later.refl _
    · refine (later_onChunk _).bind Later.trans fun account => ?_
      split
      · exact Exec.moves_fail Later.refl _
      · exact Exec.moves_pure Later.refl _
  | storageTrie header =>
    refine (Exec.moves_read Later.refl _).bind Later.trans fun post => ?_
    dsimp only
    split
    · exact Exec.moves_fail Later.refl _
    · refine (later_onChunk _).bind Later.trans fun account => ?_
      refine (later_borrowInput (later_onStream advances_readRawBytes)).bind Later.trans
        fun bytes => ?_
      refine (Exec.moves_ofExcept Later.refl _).bind Later.trans fun decoded => ?_
      obtain ⟨m, actual⟩ := decoded
      dsimp only
      split
      · exact Exec.moves_fail Later.refl _
      · exact fun cs => Later.refl cs
  | _ => exact Exec.moves_fail Later.refl _

theorem later_readChunkWitnesses (p : List UInt8) : ∀ count : Nat,
    Exec.Moves Later (readChunkWitnesses C p count)
  | 0 => Exec.moves_pure Later.refl _
  | count + 1 => (later_readChunkWitness p).bind Later.trans fun _ =>
      later_readChunkWitnesses p count

theorem later_takeStorageTrie (a : B256) : Exec.Moves Later (takeStorageTrie a) := by
  refine (Exec.moves_read Later.refl _).bind Later.trans fun storage => ?_
  refine Exec.Moves.bind (fun cs => ?_) Later.trans fun _ => Exec.moves_pure Later.refl _
  exact ⟨List.suffix_rfl, rfl⟩

theorem later_takePostStorageTrie (a : B256) : Exec.Moves Later (takePostStorageTrie a) := by
  refine (Exec.moves_read Later.refl _).bind Later.trans fun post => ?_
  exact Exec.Moves.bind (fun cs => Later.refl cs) Later.trans fun _ => Exec.moves_pure Later.refl _

theorem later_changedStorageRoot (a : B256) (account : BundleAccount)
    (old : Option TrieAccount) : Exec.Moves Later (changedStorageRoot C a account old) := by
  unfold changedStorageRoot
  split
  · exact Exec.moves_ofExcept Later.refl _
  · refine (later_takeStorageTrie a).bind Later.trans fun storage => ?_
    cases storage with
    | some m => exact Exec.moves_ofExcept Later.refl _
    | none =>
      refine (later_takePostStorageTrie a).bind Later.trans fun storage => ?_
      cases storage with
      | some m => exact Exec.moves_ofExcept Later.refl _
      | none =>
        dsimp only
        split
        · exact Exec.moves_ofExcept Later.refl _
        · exact Exec.moves_fail Later.refl _

theorem later_keptStorageRoot (a : B256) (old : Option TrieAccount) :
    Exec.Moves Later (keptStorageRoot C a old) := by
  refine (later_takeStorageTrie a).bind Later.trans fun storage => ?_
  cases storage with
  | none => exact Exec.moves_pure Later.refl _
  | some m =>
    refine (Exec.moves_ofExcept Later.refl _).bind Later.trans fun actual => ?_
    split
    · exact Exec.moves_fail Later.refl _
    · exact Exec.moves_pure Later.refl _

theorem later_updateChunkAccount (p : List UInt8) (a : B256) (account : BundleAccount) :
    Exec.Moves Later (updateChunkAccount C p a account) := by
  refine (later_onChunk _).bind Later.trans fun old => ?_
  cases account.info with
  | some info =>
    dsimp only
    split
    · exact (later_changedStorageRoot a account old).bind Later.trans fun _ => later_onChunk _
    · exact (later_keptStorageRoot a old).bind Later.trans fun _ => later_onChunk _
  | none =>
    exact (later_onChunk _).bind Later.trans fun _ =>
      (later_takeStorageTrie a).bind Later.trans fun _ => Exec.moves_pure Later.refl _

theorem later_updateChunkAccounts (p : List UInt8) : ∀ accounts : List (B256 × BundleAccount),
    Exec.Moves Later (updateChunkAccounts C p accounts)
  | [] => Exec.moves_pure Later.refl _
  | (a, account) :: accounts => (later_updateChunkAccount p a account).bind Later.trans fun _ =>
      later_updateChunkAccounts p accounts

/-! ## The guard of the input -/

/-- A borrow that returned. -/
theorem borrowInput_ok {α : Type} {x : ChunkM α} {cs cs' : ChunkState} {a : α}
    (h : borrowInput x cs = (.ok a, cs')) : ∃ cs₁,
      x { cs with inputBorrowed := true } = (.ok a, cs₁) ∧
        cs' = { cs₁ with inputBorrowed := false } := by
  unfold borrowInput at h
  rw [Exec.bind_ok (Exec.read_apply _ cs)] at h
  split at h
  · simp at h
  rw [Exec.bind_ok (Exec.write_apply _ cs)] at h
  obtain ⟨b, cs₁, h₁, h⟩ := Exec.of_bind_ok h
  rw [Exec.bind_ok (Exec.write_apply _ cs₁), Exec.pure_apply, Prod.mk.injEq,
    Except.ok.injEq] at h
  obtain ⟨rfl, rfl⟩ := h
  exact ⟨cs₁, h₁, rfl⟩

/-- A second borrow. -/
theorem borrowInput_held {α : Type} (x : ChunkM α) {cs : ChunkState}
    (h : cs.inputBorrowed = true) : borrowInput x cs = (.error .alreadyBorrowed, cs) := by
  unfold borrowInput
  rw [Exec.bind_ok (Exec.read_apply _ cs), if_pos h]
  rfl

/-! ## Cached accounts -/

theorem lookup_removeKey {α : Type} {a b : B256} {l : List (B256 × α)} :
    (removeKey a l).lookup b = if b = a then none else l.lookup b := by
  induction l with
  | nil => simp [removeKey]
  | cons entry l ih =>
    obtain ⟨k, x⟩ := entry
    unfold removeKey at ih ⊢
    by_cases hk : k = a
    · subst hk
      rw [List.filter_cons_of_neg (by simp), ih]
      by_cases hb : b = k
      · simp [hb]
      · have hne : (b == k) = false := by simpa using hb
        simp [hb, List.lookup_cons, hne]
    · rw [List.filter_cons_of_pos (by simpa using hk), List.lookup_cons, List.lookup_cons, ih]
      by_cases hb : b = k
      · subst hb
        simp [hk]
      · have hne : (b == k) = false := by simpa using hb
        simp [hne]

/-- The account that a chunk holds at the key of an address. -/
def ChunkHolds (C : ClientEnv) (p : List UInt8) (chunk : Mpt) (a : B256)
    (account : Option TrieAccount) : Prop :=
  (Mpt.getRlpNibbles C.decodeAccount (suffix p a) chunk).1 = .ok account

/-- A lookup in the chunk. -/
theorem chunkAccount_ok {p : List UInt8} {a : B256} {cs cs' : ChunkState}
    {account : Option TrieAccount} (h : chunkAccount C p a cs = (.ok account, cs')) :
    cs' = cs ∧ ChunkHolds C p cs.chunk a account := by
  simp only [chunkAccount, onChunk, Prod.mk.injEq] at h
  rw [Mpt.getRlpNibbles_eq.1] at h
  exact ⟨h.2.symm, Exec.of_mapError_ok h.1⟩

/-- The cached accounts below the chunk: each was compared with the chunk and removed. -/
theorem consumeCached_ok {p : List UInt8} : ∀ {keys : List B256} {cs cs' : ChunkState},
    consumeCached C p keys cs = (.ok (), cs') →
    (∃ cache, cs' = { cs with stream := { cs.stream with accountCache := cache } }) ∧
      (∀ a, a ∉ keys → cs'.stream.accountCache.lookup a = cs.stream.accountCache.lookup a) ∧
      (∀ a ∈ keys, cs'.stream.accountCache.lookup a = none) ∧
      ∀ a ∈ keys, ∃ account, cs.stream.accountCache.lookup a = some account ∧
        ChunkHolds C p cs.chunk a account
  | [], cs, cs', h => by
    simp only [consumeCached, Exec.pure_apply, Prod.mk.injEq, true_and] at h
    subst h
    exact ⟨⟨_, rfl⟩, fun _ _ => rfl, by simp, by simp⟩
  | a :: keys, cs, cs', h => by
    rw [consumeCached] at h
    obtain ⟨cache, cs₁, hread, h⟩ := Exec.of_bind_ok h
    simp only [Exec.read_apply, Prod.mk.injEq, Except.ok.injEq] at hread
    obtain ⟨rfl, rfl⟩ := hread
    obtain ⟨_, cs₂, hwrite, h⟩ := Exec.of_bind_ok h
    simp only [onStream, Exec.write_apply, Prod.mk.injEq, true_and] at hwrite
    obtain ⟨account, cs₃, hacc, hrest⟩ := Exec.of_bind_ok h
    obtain ⟨hcs₃, hholds⟩ := chunkAccount_ok hacc
    rw [hcs₃] at hrest
    split at hrest
    · simp at hrest
    rename_i heq
    have hlook : cs.stream.accountCache.lookup a = some account := not_not.mp heq
    obtain ⟨⟨cache', hcs'⟩, hkeep, hnone, hauth⟩ := consumeCached_ok hrest
    subst hwrite
    refine ⟨⟨cache', hcs'⟩, fun b hb => ?_, fun b hb => ?_, fun b hb => ?_⟩
    · simp only [List.mem_cons, not_or] at hb
      rw [hkeep b hb.2, lookup_removeKey, if_neg hb.1]
    · by_cases hmem : b ∈ keys
      · exact hnone b hmem
      · obtain rfl : b = a := (List.mem_cons.mp hb).resolve_right hmem
        rw [hkeep b hmem, lookup_removeKey, if_pos rfl]
    · by_cases hba : b = a
      · subst hba
        exact ⟨account, hlook, hholds⟩
      · obtain ⟨account', hl, hc⟩ := hauth b ((List.mem_cons.mp hb).resolve_left hba)
        rw [lookup_removeKey, if_neg hba] at hl
        exact ⟨account', hl, hc⟩

/-! ## Turns -/

/-- A chunk while it is processed, and what becomes of it. -/
structure ChunkRun where
  /-- After the cached accounts were compared. -/
  checked : ChunkState
  /-- After the witnesses were read. -/
  witnessed : ChunkState
  /-- After the accounts of the bundle were applied. -/
  applied : ChunkState

structure ChunkRun.Of (C : ClientEnv) (header : StateChunkHeader)
    (accounts : List (B256 × BundleAccount)) (cs : ChunkState) (newRoot : B256) (cs' : ChunkState)
    (run : ChunkRun) : Prop where
  consume : consumeCached C header.prefixNibs
    ((cs.stream.accountCache.map Prod.fst).filter (inChunk header.prefixNibs)) cs =
      (.ok (), run.checked)
  read : readChunkWitnesses C header.prefixNibs header.witnessCount run.checked =
    (.ok (), run.witnessed)
  nonempty : accounts ≠ []
  apply : updateChunkAccounts C header.prefixNibs accounts run.witnessed = (.ok (), run.applied)
  used : run.applied.postStorageTries = []
  hash : ∃ m, Mpt.hash C.toEnv run.applied.chunk = (.ok newRoot, m) ∧
    cs'.stream = run.applied.stream ∧
    ((header.prefixNibs ≠ [] ∧ newRoot ≠ C.emptyRootHash ∧
        Mpt.rootIsHashAddressed C.toEnv m = (.ok true, cs'.chunk)) ∨
      ((header.prefixNibs = [] ∨ newRoot = C.emptyRootHash) ∧ cs'.chunk = m))

theorem processChunk_ok {header : StateChunkHeader} {accounts : List (B256 × BundleAccount)}
    {cs cs' : ChunkState} {newRoot : B256}
    (h : processChunk C header accounts cs = (.ok newRoot, cs')) :
    ∃ run : ChunkRun, run.Of C header accounts cs newRoot cs' := by
  unfold processChunk at h
  obtain ⟨keys, cs₀, hread, h⟩ := Exec.of_bind_ok h
  simp only [Exec.read_apply, Prod.mk.injEq, Except.ok.injEq] at hread
  obtain ⟨rfl, rfl⟩ := hread
  obtain ⟨_, cs₁, h₁, h⟩ := Exec.of_bind_ok h
  obtain ⟨_, cs₂, h₂, h⟩ := Exec.of_bind_ok h
  split at h
  · simp at h
  rename_i hne
  obtain ⟨_, cs₃, h₃, h⟩ := Exec.of_bind_ok h
  obtain ⟨post, cs₃', hpost, h⟩ := Exec.of_bind_ok h
  simp only [Exec.read_apply, Prod.mk.injEq, Except.ok.injEq] at hpost
  obtain ⟨rfl, rfl⟩ := hpost
  split at h
  · simp at h
  rename_i hused
  obtain ⟨root, cs₄, h₄, h⟩ := Exec.of_bind_ok h
  simp only [onChunk, Prod.mk.injEq] at h₄
  obtain ⟨hroot, rfl⟩ := h₄
  have hhash : Mpt.hash C.toEnv cs₃.chunk = (.ok root, (Mpt.hash C.toEnv cs₃.chunk).2) :=
    Prod.ext (Exec.of_mapError_ok hroot) rfl
  split at h
  · rename_i hcond
    obtain ⟨b, cs₅, h₅, h⟩ := Exec.of_bind_ok h
    simp only [onChunk, Prod.mk.injEq] at h₅
    obtain ⟨hb, rfl⟩ := h₅
    split at h
    · simp at h
    rename_i htrue
    simp only [Exec.pure_apply, Prod.mk.injEq, Except.ok.injEq] at h
    obtain ⟨rfl, rfl⟩ := h
    obtain rfl : b = true := by simpa using htrue
    exact ⟨⟨cs₁, cs₂, cs₃⟩, h₁, h₂, hne, h₃, not_not.mp hused, _, hhash, rfl,
      .inl ⟨hcond.1, hcond.2, Prod.ext (Exec.of_mapError_ok hb) rfl⟩⟩
  · rename_i hcond
    simp only [Exec.pure_apply, Prod.mk.injEq, Except.ok.injEq] at h
    obtain ⟨rfl, rfl⟩ := h
    refine ⟨⟨cs₁, cs₂, cs₃⟩, h₁, h₂, hne, h₃, not_not.mp hused, _, hhash, rfl, .inr ⟨?_, rfl⟩⟩
    by_cases hp : header.prefixNibs = []
    · exact .inl hp
    · exact .inr (not_not.mp fun hr => hcond ⟨hp, hr⟩)

/-- After the cached accounts were compared, a turn only reads items and uses storage tries. -/
theorem ChunkRun.Of.advances {header : StateChunkHeader} {accounts : List (B256 × BundleAccount)}
    {cs cs' : ChunkState} {newRoot : B256} {run : ChunkRun}
    (h : run.Of C header accounts cs newRoot cs') :
    Advances run.checked.stream cs'.stream ∧
      ∃ cache, run.checked = { cs with stream := { cs.stream with accountCache := cache } } := by
  obtain ⟨m, _, hstream, _⟩ := h.hash
  have h₁ : Advances run.checked.stream run.witnessed.stream :=
    (later_readChunkWitnesses _ _).of_eq h.read
  have h₂ : Advances run.witnessed.stream run.applied.stream :=
    (later_updateChunkAccounts _ _).of_eq h.apply
  rw [hstream]
  exact ⟨h₁.trans h₂, (consumeCached_ok h.consume).1⟩

/-- One turn of the loop: what it reads, and what it writes. -/
structure Turn where
  header : StateChunkHeader
  bytes : Bytes
  /-- What follows the chunk in the stream. -/
  input : List StreamItem
  chunk : Mpt
  newRoot : B256
  /-- After the chunk was processed. -/
  after : ChunkState
  /-- The frontier before and after its slot is replaced. -/
  frontier : Mpt
  frontier' : Mpt

structure Turn.Of (C : ClientEnv) (accounts : List (B256 × BundleAccount))
    (s : StreamingEthereumState) (rest : List (B256 × BundleAccount)) (s' : StreamingEthereumState)
    (t : Turn) : Prop where
  input : s.input = .witness (.stateChunk t.header) :: .raw t.bytes :: t.input
  decoded : decodeAndHash C t.bytes t.header.numNodes = .ok (t.chunk, t.header.expectedRoot)
  process : processChunk C t.header (accounts.takeWhile fun a => inChunk t.header.prefixNibs a.1)
    ⟨{ s with input := t.input }, t.chunk, [], false⟩ = (.ok t.newRoot, t.after)
  loaded : t.after.stream.stateTrie = some t.frontier
  replace : Mpt.replaceFrontierSlot C.toEnv t.header.prefixNibs t.header.expectedRoot t.newRoot
    t.frontier = (.ok (), t.frontier')
  rest : rest = accounts.dropWhile fun a => inChunk t.header.prefixNibs a.1
  state : s' = { t.after.stream with stateTrie := some t.frontier' }

/-- Every turn that returned. -/
theorem updateChunk_ok {accounts rest : List (B256 × BundleAccount)}
    {s s' : StreamingEthereumState} (h : updateChunk C accounts s = (.ok rest, s')) :
    ∃ t : Turn, t.Of C accounts s rest s' := by
  unfold updateChunk at h
  obtain ⟨witness, s₁, h₁, h⟩ := Exec.of_bind_ok h
  cases witness with
  | stateChunk header =>
    obtain ⟨hin₁, hs₁⟩ := readWitnessInput_ok h₁
    obtain ⟨bytes, s₂, h₂, h⟩ := Exec.of_bind_ok h
    obtain ⟨hin₂, hs₂⟩ := readRawBytes_ok h₂
    obtain ⟨⟨chunk, actual⟩, s₃, h₃, h⟩ := Exec.of_bind_ok h
    simp only [Exec.ofExcept_apply, Prod.mk.injEq] at h₃
    obtain ⟨hdec, rfl⟩ := h₃
    dsimp only at h
    split at h
    · simp at h
    rename_i heq
    obtain ⟨newRoot, s₄, h₄, h⟩ := Exec.of_bind_ok h
    simp only [withChunk, Prod.mk.injEq] at h₄
    obtain ⟨hproc, rfl⟩ := h₄
    obtain ⟨_, s₅, h₅, h⟩ := Exec.of_bind_ok h
    simp only [Exec.pure_apply, Prod.mk.injEq, Except.ok.injEq] at h
    obtain ⟨rfl, rfl⟩ := h
    have hs : s₂ = { s with input := s₂.input } := by
      rw [hs₂, hs₁]
    set cs : ChunkState := ⟨s₂, chunk, [], false⟩ with hcs
    rcases hp : processChunk C header (accounts.takeWhile fun a => inChunk header.prefixNibs a.1)
      cs with ⟨r, cs'⟩
    rw [hp] at hproc h₅
    obtain rfl : r = .ok newRoot := hproc
    simp only [onStateTrie] at h₅
    cases hm : cs'.stream.stateTrie with
    | none => simp [hm] at h₅
    | some m =>
      simp only [hm, Prod.mk.injEq] at h₅
      obtain ⟨hrep, rfl⟩ := h₅
      refine ⟨⟨header, bytes, s₂.input, chunk, newRoot, cs', m, _⟩, ?_, ?_, ?_, hm,
        Prod.ext (Exec.of_mapError_ok hrep) rfl, rfl, rfl⟩
      · rw [hin₁, hin₂]
      · rw [Exec.of_mapError_ok hdec, not_not.mp heq]
      · rw [← hs]
        exact hp
  | _ => simp at h

/-- The last turn of a loop. -/
theorem updateChunks_snoc : ∀ {k : Nat} {accounts rest : List (B256 × BundleAccount)}
    {s s' : StreamingEthereumState}, updateChunks C (k + 1) accounts s = (.ok rest, s') →
    ∃ mid s₁, updateChunks C k accounts s = (.ok mid, s₁) ∧ updateChunk C mid s₁ = (.ok rest, s')
  | 0, accounts, rest, s, s', h => by
    obtain ⟨mid, s₁, h₁, h₂⟩ := Exec.of_bind_ok h
    simp only [updateChunks, Exec.pure_apply, Prod.mk.injEq, Except.ok.injEq] at h₂
    obtain ⟨rfl, rfl⟩ := h₂
    exact ⟨accounts, s, rfl, h₁⟩
  | k + 1, accounts, rest, s, s', h => by
    obtain ⟨mid, s₁, h₁, h₂⟩ := Exec.of_bind_ok h
    obtain ⟨mid', s₂, hk, hlast⟩ := updateChunks_snoc h₂
    exact ⟨mid', s₂, (Exec.bind_ok h₁).trans hk, hlast⟩

theorem Turn.Of.suffix {accounts rest : List (B256 × BundleAccount)}
    {s s' : StreamingEthereumState} {t : Turn} (h : t.Of C accounts s rest s') :
    s'.input <:+ t.input := by
  obtain ⟨run, hrun⟩ := processChunk_ok h.process
  obtain ⟨hadv, cache, hchecked⟩ := hrun.advances
  have hin := hadv.input
  rw [hchecked] at hin
  rw [h.state]
  exact hin

theorem Turn.Of.input_suffix {accounts rest : List (B256 × BundleAccount)}
    {s s' : StreamingEthereumState} {t : Turn} (h : t.Of C accounts s rest s') :
    s'.input <:+ s.input := by
  rw [h.input]
  exact h.suffix.trans ((List.suffix_cons _ _).trans (List.suffix_cons _ _))

/-- What holds when the loop begins and is kept by every turn holds at its end. -/
theorem updateChunks_induction
    (Inv : List (B256 × BundleAccount) → StreamingEthereumState → Prop)
    {accounts : List (B256 × BundleAccount)} {s : StreamingEthereumState} (h0 : Inv accounts s) :
    ∀ {count : Nat} {rest : List (B256 × BundleAccount)} {s' : StreamingEthereumState},
    updateChunks C count accounts s = (.ok rest, s') →
    (∀ k mid s₁ mid' s₂ t, k < count → updateChunks C k accounts s = (.ok mid, s₁) →
      Turn.Of C mid s₁ mid' s₂ t → s₁.input <:+ s.input → s'.input <:+ s₂.input → Inv mid s₁ →
      Inv mid' s₂) →
    Inv rest s' ∧ s'.input <:+ s.input
  | 0, rest, s', h, _ => by
    simp only [updateChunks, Exec.pure_apply, Prod.mk.injEq, Except.ok.injEq] at h
    obtain ⟨rfl, rfl⟩ := h
    exact ⟨h0, List.suffix_rfl⟩
  | count + 1, rest, s', h, hstep => by
    obtain ⟨mid, s₁, hk, hlast⟩ := updateChunks_snoc h
    obtain ⟨t, ht⟩ := updateChunk_ok hlast
    obtain ⟨hinv, hsuf⟩ := updateChunks_induction Inv h0 hk
      fun k mid' s₂ mid'' s₃ t' hlt hrun ht' hb ha =>
        hstep k mid' s₂ mid'' s₃ t' (by omega) hrun ht' hb (ht.input_suffix.trans ha)
    exact ⟨hstep count mid s₁ rest s' t (by omega) hk ht hsuf List.suffix_rfl hinv,
      ht.input_suffix.trans hsuf⟩

/-! ## The whole update -/

theorem ensureStateTrieLoaded_ok {s s' : StreamingEthereumState} (hs : s.stateTrie = none)
    (h : ensureStateTrieLoaded C s = (.ok (), s')) :
    ∃ bytes input m, s.input = .raw bytes :: input ∧
      decodeAndHash C bytes s.stateTrieHeader.numNodes = .ok (m, s.parentStateRoot) ∧
      s' = { s with input := input, stateTrie := some m } := by
  unfold ensureStateTrieLoaded at h
  obtain ⟨o, s₁, hread, h⟩ := Exec.of_bind_ok h
  simp only [Exec.read_apply, Prod.mk.injEq, Except.ok.injEq] at hread
  obtain ⟨rfl, rfl⟩ := hread
  simp only [hs] at h
  obtain ⟨bytes, s₁, h₁, h⟩ := Exec.of_bind_ok h
  obtain ⟨hin, hs₁⟩ := readRawBytes_ok h₁
  obtain ⟨header, s₂, hread, h⟩ := Exec.of_bind_ok h
  simp only [Exec.read_apply, Prod.mk.injEq, Except.ok.injEq] at hread
  obtain ⟨rfl, rfl⟩ := hread
  obtain ⟨⟨m, actual⟩, s₃, h₃, h⟩ := Exec.of_bind_ok h
  simp only [Exec.ofExcept_apply, Prod.mk.injEq] at h₃
  obtain ⟨hdec, rfl⟩ := h₃
  obtain ⟨expected, s₄, hread, h⟩ := Exec.of_bind_ok h
  simp only [Exec.read_apply, Prod.mk.injEq, Except.ok.injEq] at hread
  obtain ⟨rfl, rfl⟩ := hread
  split at h
  · simp at h
  rename_i heq
  simp only [Exec.write_apply, Prod.mk.injEq, true_and] at h
  have hheader : s₁.stateTrieHeader = s.stateTrieHeader := by rw [hs₁]
  have hroot : actual = s.parentStateRoot := by rw [show actual = _ from not_not.mp heq, hs₁]
  rw [hheader, hroot] at hdec
  exact ⟨bytes, s₁.input, m, hin, Exec.of_mapError_ok hdec, by rw [← h, hs₁]⟩

/-- The accounts that are left in the cache were compared with the frontier. -/
theorem validateAccounts_ok : ∀ {entries : List (B256 × Option TrieAccount)}
    {s s' : StreamingEthereumState} {m : Mpt}, s.stateTrie = some m →
    validateAccounts C entries s = (.ok (), s') →
    s' = s ∧ ∀ entry ∈ entries, (Mpt.getRlp C.decodeAccount entry.1.bytes m).1 = .ok entry.2
  | [], s, s', m, _, h => by
    simp only [validateAccounts, Exec.pure_apply, Prod.mk.injEq, true_and] at h
    exact ⟨h.symm, by simp⟩
  | (a, streamed) :: entries, s, s', m, hm, h => by
    rw [validateAccounts] at h
    obtain ⟨account, s₁, h₁, hrest⟩ := Exec.of_bind_ok h
    simp only [onStateTrie, hm, Prod.mk.injEq] at h₁
    rw [show (Mpt.getRlp C.decodeAccount a.bytes m).2 = m from Mpt.getRlpNibbles_eq.1, ← hm] at h₁
    obtain ⟨hacc, hs₁⟩ := h₁
    rw [← hs₁] at hrest
    split at hrest
    · simp at hrest
    rename_i heq
    obtain ⟨hs', hall⟩ := validateAccounts_ok hm hrest
    refine ⟨hs', fun entry hentry => ?_⟩
    rcases List.mem_cons.mp hentry with rfl | hentry
    · rw [Exec.of_mapError_ok hacc, not_not.mp heq]
    · exact hall entry hentry

/-- An update that returned: the state trie was loaded, the turns consumed all accounts of
the bundle, and the rest of the cache was checked. -/
theorem updateFromBundleState_ok {bundle : Bundle} {s s' : StreamingEthereumState}
    (h : updateFromBundleState C bundle s = (.ok (), s')) :
    ∃ s₁ s₂ s₃, ensureStateTrieLoaded C s = (.ok (), s₁) ∧
      updateChunks C s₁.stateTrieHeader.chunkCount (sortedAccounts C bundle) s₁ = (.ok [], s₂) ∧
      validateAccounts C s₂.accountCache s₂ = (.ok (), s₃) ∧
      s' = { s₃ with storageTries := fun _ => none } := by
  unfold updateFromBundleState at h
  obtain ⟨_, s₁, h₁, h⟩ := Exec.of_bind_ok h
  obtain ⟨header, s₁', hread, h⟩ := Exec.of_bind_ok h
  simp only [Exec.read_apply, Prod.mk.injEq, Except.ok.injEq] at hread
  obtain ⟨rfl, rfl⟩ := hread
  split at h
  · simp at h
  obtain ⟨rest, s₂, h₂, h⟩ := Exec.of_bind_ok h
  split at h
  · simp at h
  rename_i hrest
  obtain rfl : rest = [] := not_not.mp hrest
  obtain ⟨_, s₃, h₃, h⟩ := Exec.of_bind_ok h
  simp only [Exec.write_apply, Prod.mk.injEq, true_and] at h
  obtain ⟨cache, s₂', hread, h₃⟩ := Exec.of_bind_ok h₃
  simp only [Exec.read_apply, Prod.mk.injEq, Except.ok.injEq] at hread
  obtain ⟨rfl, rfl⟩ := hread
  exact ⟨s₁, s₂, s₃, h₁, h₂, h₃, h.symm⟩

end StreamingEthereumState
end CenoReth
