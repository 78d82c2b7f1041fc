/-
What the executor reads of a streaming state.

Before the update, the executor reads accounts, storage slots and bytecodes, in any
order, from a reader that nobody trusts.  A session is a list of such reads.  A read
may fail, and the executor may go on.  What a session leaves behind: every answer is
still in the caches, and every loaded storage trie was decoded from the stream under
the storage root of an account that is still in the cache.
-/
import CenoReth.State.Streaming

namespace CenoReth

/-! ## Reads -/

/-- A read of the executor. -/
inductive ReadCall where
  | readAccount (hashedAddress : B256)
  | loadStorageTrie (hashedAddress : B256)
  /-- A lookup in a loaded storage trie. -/
  | readSlot (hashedAddress hashedSlot : B256)
  | readBytecode (hash : B256)
  deriving DecidableEq

inductive ReadAnswer where
  | account (account : Option TrieAccount)
  | loaded
  | slot (value : U256)
  | bytecode (bytecode : Bytecode)
  deriving DecidableEq

namespace StreamingEthereumState

section Model

variable (C : ClientEnv)

/-- `storage_ref`, after the storage trie was loaded. -/
def readSlot (hashedAddress hashedSlot : B256) : StreamM U256 := do
  match ← Exec.read fun s => s.storageTries hashedAddress with
  | some storageTrie => Exec.ofExcept ((slotAt C storageTrie hashedSlot).mapError Stop.unwrapped)
  | none => Exec.fail .panic

def readCall : ReadCall → StreamM ReadAnswer
  | .readAccount hashedAddress => do return .account (← readAccount hashedAddress)
  | .loadStorageTrie hashedAddress => do
    loadStorageTrie C hashedAddress
    return .loaded
  | .readSlot hashedAddress hashedSlot => do return .slot (← readSlot C hashedAddress hashedSlot)
  | .readBytecode hash => do return .bytecode (← readBytecode C hash)

/-- The reads of an execution, with their answers. -/
def session : List ReadCall → StreamingEthereumState →
    List (ReadCall × Except Stop ReadAnswer) × StreamingEthereumState
  | [], s => ([], s)
  | call :: calls, s =>
    let r := readCall C call s
    let rest := session calls r.2
    ((call, r.1) :: rest.1, rest.2)

end Model

/-! ## Streams -/

/-- The item was read between the two inputs. -/
def Consumed (input input' : List StreamItem) (item : StreamItem) : Prop :=
  ∃ before after, input = before ++ item :: after ∧ input' <:+ after

theorem Consumed.right {input input' input'' : List StreamItem} {item : StreamItem}
    (h : Consumed input input' item) (hs : input'' <:+ input') : Consumed input input'' item := by
  obtain ⟨before, after, heq, hsuf⟩ := h
  exact ⟨before, after, heq, hs.trans hsuf⟩

theorem Consumed.left {input input' input'' : List StreamItem} {item : StreamItem}
    (h : Consumed input' input'' item) (hs : input' <:+ input) : Consumed input input'' item := by
  obtain ⟨before, after, rfl, hsuf⟩ := h
  obtain ⟨l, rfl⟩ := hs
  exact ⟨l ++ before, after, by simp, hsuf⟩

theorem readItem_ok {s s' : StreamingEthereumState} {item : StreamItem}
    (h : readItem s = (.ok item, s')) :
    s.input = item :: s'.input ∧ s' = { s with input := s'.input } := by
  unfold readItem at h
  split at h
  · simp at h
  · rename_i item' input heq
    simp only [Prod.mk.injEq, Except.ok.injEq] at h
    obtain ⟨rfl, rfl⟩ := h
    exact ⟨heq, rfl⟩

theorem readWitnessInput_ok {s s' : StreamingEthereumState} {input : ClientWitnessInput}
    (h : readWitnessInput s = (.ok input, s')) :
    s.input = .witness input :: s'.input ∧ s' = { s with input := s'.input } := by
  obtain ⟨item, s₁, h₁, h₂⟩ := Exec.of_bind_ok h
  cases item with
  | raw bytes => simp at h₂
  | witness input' =>
    simp only [Exec.pure_apply, Prod.mk.injEq, Except.ok.injEq] at h₂
    obtain ⟨rfl, rfl⟩ := h₂
    exact readItem_ok h₁

theorem readRawBytes_ok {s s' : StreamingEthereumState} {bytes : Bytes}
    (h : readRawBytes s = (.ok bytes, s')) :
    s.input = .raw bytes :: s'.input ∧ s' = { s with input := s'.input } := by
  obtain ⟨item, s₁, h₁, h₂⟩ := Exec.of_bind_ok h
  cases item with
  | witness input => simp at h₂
  | raw bytes' =>
    simp only [Exec.pure_apply, Prod.mk.injEq, Except.ok.injEq] at h₂
    obtain ⟨rfl, rfl⟩ := h₂
    exact readItem_ok h₁

/-! ## What a read leaves alone -/

/-- Nothing that was cached is lost, and the update has not begun. -/
structure Grows (s s' : StreamingEthereumState) : Prop where
  header : s'.stateTrieHeader = s.stateTrieHeader
  root : s'.parentStateRoot = s.parentStateRoot
  stateTrie : s'.stateTrie = s.stateTrie
  input : s'.input <:+ s.input
  cache : ∀ a account, s.accountCache.lookup a = some account →
    s'.accountCache.lookup a = some account
  storage : ∀ a m, s.storageTries a = some m → s'.storageTries a = some m

theorem Grows.refl (s : StreamingEthereumState) : Grows s s where
  header := rfl
  root := rfl
  stateTrie := rfl
  input := List.suffix_rfl
  cache _ _ h := h
  storage _ _ h := h

theorem Grows.trans {s s' s'' : StreamingEthereumState} (h : Grows s s') (h' : Grows s' s'') :
    Grows s s'' where
  header := h'.header.trans h.header
  root := h'.root.trans h.root
  stateTrie := h'.stateTrie.trans h.stateTrie
  input := h'.input.trans h.input
  cache a account ha := h'.cache a account (h.cache a account ha)
  storage a m ha := h'.storage a m (h.storage a m ha)

/-- The same, and no storage trie was loaded. -/
structure Quiet (s s' : StreamingEthereumState) : Prop where
  grows : Grows s s'
  storageTries : s'.storageTries = s.storageTries

theorem Quiet.refl (s : StreamingEthereumState) : Quiet s s := ⟨.refl s, rfl⟩

theorem Quiet.trans (s s' s'' : StreamingEthereumState) (h : Quiet s s') (h' : Quiet s' s'') :
    Quiet s s'' := ⟨h.grows.trans h'.grows, h'.storageTries.trans h.storageTries⟩

theorem quiet_readItem : Exec.Moves Quiet readItem := by
  intro s
  unfold readItem
  split
  · exact .refl s
  · rename_i item input heq
    refine ⟨⟨rfl, rfl, rfl, ?_, fun _ _ h => h, fun _ _ h => h⟩, rfl⟩
    rw [heq]
    exact List.suffix_cons item input

theorem quiet_readWitnessInput : Exec.Moves Quiet readWitnessInput := by
  refine quiet_readItem.bind Quiet.trans fun item => ?_
  cases item with
  | witness input => exact Exec.moves_pure .refl input
  | raw bytes => exact Exec.moves_fail .refl _

theorem quiet_readRawBytes : Exec.Moves Quiet readRawBytes := by
  refine quiet_readItem.bind Quiet.trans fun item => ?_
  cases item with
  | witness input => exact Exec.moves_fail .refl _
  | raw bytes => exact Exec.moves_pure .refl bytes

theorem quiet_cache (a : B256) (account : Option TrieAccount) :
    Exec.Moves Quiet (Exec.write fun s =>
      { s with accountCache := s.accountCache ++ [(a, account)] } : StreamM Unit) := by
  intro s
  refine ⟨⟨rfl, rfl, rfl, List.suffix_rfl, fun b x hb => ?_, fun _ _ h => h⟩, rfl⟩
  simp only [Exec.write_apply, List.lookup_append, hb, Option.some_or]

theorem quiet_readAccountLoop (hashedAddress : B256) : ∀ input : List StreamItem,
    Exec.Moves Quiet (readAccountLoop hashedAddress input)
  | [] => Exec.moves_fail .refl _
  | _ :: input => by
    rw [readAccountLoop]
    refine quiet_readWitnessInput.bind Quiet.trans fun witness => ?_
    cases witness with
    | account accountInput =>
      refine (Exec.moves_read Quiet.refl _).bind Quiet.trans fun cache => ?_
      split
      · exact Exec.moves_fail .refl _
      · refine (quiet_cache _ _).bind Quiet.trans fun _ => ?_
        split
        · exact Exec.moves_pure .refl _
        · exact quiet_readAccountLoop hashedAddress input
    | _ => exact Exec.moves_fail .refl _

theorem quiet_readAccount (hashedAddress : B256) : Exec.Moves Quiet (readAccount hashedAddress) := by
  refine (Exec.moves_read Quiet.refl _).bind Quiet.trans fun cache => ?_
  split
  · exact Exec.moves_pure .refl _
  · exact (Exec.moves_read Quiet.refl _).bind Quiet.trans fun input =>
      quiet_readAccountLoop hashedAddress input

/-- An account that was read is in the cache. -/
theorem readAccountLoop_ok {hashedAddress : B256} : ∀ {input : List StreamItem}
    {s s' : StreamingEthereumState} {account : Option TrieAccount},
    readAccountLoop hashedAddress input s = (.ok account, s') →
    s'.accountCache.lookup hashedAddress = some account
  | [], _, _, _, h => by simp [readAccountLoop] at h
  | _ :: input, s, s', account, h => by
    rw [readAccountLoop] at h
    obtain ⟨witness, s₁, _, h⟩ := Exec.of_bind_ok h
    cases witness with
    | account accountInput =>
      obtain ⟨cache, s₂, hread, h⟩ := Exec.of_bind_ok h
      simp only [Exec.read_apply, Prod.mk.injEq, Except.ok.injEq] at hread
      obtain ⟨rfl, rfl⟩ := hread
      split at h
      · simp at h
      · rename_i hnew
        obtain ⟨_, s₃, hwrite, h⟩ := Exec.of_bind_ok h
        simp only [Exec.write_apply, Prod.mk.injEq] at hwrite
        obtain ⟨-, rfl⟩ := hwrite
        split at h
        · rename_i heq
          simp only [Exec.pure_apply, Prod.mk.injEq, Except.ok.injEq] at h
          obtain ⟨rfl, rfl⟩ := h
          simp only [Bool.not_eq_true, Option.isSome_eq_false_iff, Option.isNone_iff_eq_none] at hnew
          simp [List.lookup_append, ← heq, hnew]
        · exact readAccountLoop_ok h
    | _ => simp at h

theorem readAccount_ok {hashedAddress : B256} {s s' : StreamingEthereumState}
    {account : Option TrieAccount} (h : readAccount hashedAddress s = (.ok account, s')) :
    s'.accountCache.lookup hashedAddress = some account := by
  obtain ⟨cache, s₁, hread, h⟩ := Exec.of_bind_ok h
  simp only [Exec.read_apply, Prod.mk.injEq, Except.ok.injEq] at hread
  obtain ⟨rfl, rfl⟩ := hread
  cases hlook : s.accountCache.lookup hashedAddress with
  | some account' =>
    simp only [hlook, Exec.pure_apply, Prod.mk.injEq, Except.ok.injEq] at h
    obtain ⟨rfl, rfl⟩ := h
    exact hlook
  | none =>
    simp only [hlook] at h
    obtain ⟨input, s₂, _, h⟩ := Exec.of_bind_ok h
    exact readAccountLoop_ok h

/-! ## Loaded storage tries -/

variable {C : ClientEnv}

/-- The arena was decoded from the stream, under the storage root of the cached account. -/
def Vouched (C : ClientEnv) (input : List StreamItem) (s : StreamingEthereumState) (a : B256)
    (m : Mpt) : Prop :=
  ∃ account bytes numNodes, s.accountCache.lookup a = some account ∧
    Consumed input s.input (.raw bytes) ∧
    decodeAndHash C bytes numNodes = .ok (m, storageRootOf C.toEnv account)

theorem Vouched.grows {input : List StreamItem} {s s' : StreamingEthereumState} {a : B256} {m : Mpt}
    (h : Vouched C input s a m) (hg : Grows s s') : Vouched C input s' a m := by
  obtain ⟨account, bytes, numNodes, hl, hc, hd⟩ := h
  exact ⟨account, bytes, numNodes, hg.cache a account hl, hc.right hg.input, hd⟩

/-- The state before the update, when the given input was there at the beginning. -/
structure Opened (C : ClientEnv) (input : List StreamItem) (s : StreamingEthereumState) : Prop where
  unloaded : s.stateTrie = none
  unread : s.input <:+ input
  stored : ∀ a m, s.storageTries a = some m → Vouched C input s a m

theorem opened_new (header : StateTrieHeader) (root : B256) (input : List StreamItem) :
    Opened C input (new header root input) where
  unloaded := rfl
  unread := List.suffix_rfl
  stored a m h := by simp [new] at h

theorem Opened.quiet {input : List StreamItem} {s s' : StreamingEthereumState}
    (h : Opened C input s) (hq : Quiet s s') : Opened C input s' where
  unloaded := hq.grows.stateTrie.trans h.unloaded
  unread := hq.grows.input.trans h.unread
  stored a m ha := by
    rw [hq.storageTries] at ha
    exact (h.stored a m ha).grows hq.grows

theorem quiet_readSlot (a k : B256) : Exec.Moves Quiet (readSlot C a k) := by
  refine (Exec.moves_read Quiet.refl _).bind Quiet.trans fun o => ?_
  cases o with
  | some m => exact Exec.moves_ofExcept Quiet.refl _
  | none => exact Exec.moves_fail Quiet.refl _

theorem quiet_readBytecode (hash : B256) : Exec.Moves Quiet (readBytecode C hash) := by
  refine quiet_readWitnessInput.bind Quiet.trans fun witness => ?_
  cases witness with
  | bytecode bytecode =>
    dsimp only
    split
    · exact Exec.moves_fail Quiet.refl _
    · exact Exec.moves_pure Quiet.refl _
  | _ => exact Exec.moves_fail Quiet.refl _

theorem quiet_expectedStorageRoot (a : B256) : Exec.Moves Quiet (expectedStorageRoot C a) :=
  (quiet_readAccount a).bind Quiet.trans fun _ => Exec.moves_pure Quiet.refl _

/-- How loading a storage trie ends: nothing was loaded, or a trie that is vouched for. -/
def LoadEnds (C : ClientEnv) (a : B256) (s : StreamingEthereumState)
    (r : Except Stop Unit × StreamingEthereumState) : Prop :=
  Quiet s r.2 ∨ ∃ s₁ m, Quiet s s₁ ∧ s.storageTries a = none ∧ Vouched C s.input s₁ a m ∧
    r = (.ok (), { s₁ with storageTries := Function.update s₁.storageTries a (some m) })

theorem loadStorageTrie_ends (a : B256) (s : StreamingEthereumState) :
    LoadEnds C a s (loadStorageTrie C a s) := by
  unfold loadStorageTrie
  rw [Exec.bind_ok (Exec.read_apply _ s)]
  cases hstored : s.storageTries a with
  | some m => exact .inl (.refl s)
  | none =>
    refine Exec.bind_cases (fun e s₁ h₁ => .inl (quiet_readWitnessInput.of_eq h₁))
      fun witness s₁ h₁ => ?_
    have hq₁ := quiet_readWitnessInput.of_eq h₁
    cases witness with
    | storageTrie header =>
      dsimp only
      split
      · exact .inl hq₁
      refine Exec.bind_cases
        (fun e s₂ h₂ => .inl (hq₁.trans _ _ _ ((quiet_expectedStorageRoot a).of_eq h₂)))
        fun expected s₂ h₂ => ?_
      have hq₂ := hq₁.trans _ _ _ ((quiet_expectedStorageRoot a).of_eq h₂)
      refine Exec.bind_cases
        (fun e s₃ h₃ => .inl (hq₂.trans _ _ _ (quiet_readRawBytes.of_eq h₃)))
        fun bytes s₃ h₃ => ?_
      have hq₃ := hq₂.trans _ _ _ (quiet_readRawBytes.of_eq h₃)
      refine Exec.bind_cases (fun e s₄ h₄ => ?_) fun decoded s₄ h₄ => ?_
      · rw [Exec.ofExcept_apply, Prod.mk.injEq] at h₄
        exact .inl (h₄.2 ▸ hq₃)
      rw [Exec.ofExcept_apply, Prod.mk.injEq] at h₄
      obtain ⟨hdec, rfl⟩ := h₄
      obtain ⟨m, actual⟩ := decoded
      dsimp only
      split
      · exact .inl hq₃
      rename_i heq
      refine .inr ⟨s₃, m, hq₃, hstored, ?_, rfl⟩
      -- the account that was read is still in the cache when the bytes are decoded
      obtain ⟨account, s₂', hacc, hroot⟩ := Exec.of_bind_ok h₂
      simp only [Exec.pure_apply, Prod.mk.injEq, Except.ok.injEq] at hroot
      obtain ⟨rfl, rfl⟩ := hroot
      obtain ⟨hin, -⟩ := readRawBytes_ok h₃
      refine ⟨account, bytes, header.numNodes,
        (quiet_readRawBytes.of_eq h₃).grows.cache a account (readAccount_ok hacc), ?_, ?_⟩
      · refine Consumed.left ⟨[], s₃.input, hin, List.suffix_rfl⟩ hq₂.grows.input
      · rw [Exec.of_mapError_ok hdec, not_not.mp heq]
    | _ => exact .inl hq₁

/-! ## Sessions -/

/-- The answer is still in the caches. -/
def Recorded (C : ClientEnv) (s : StreamingEthereumState) : ReadCall → ReadAnswer → Prop
  | .readAccount a, .account account => s.accountCache.lookup a = some account
  | .loadStorageTrie _, .loaded => True
  | .readSlot a k, .slot value => ∃ m, s.storageTries a = some m ∧ slotAt C m k = .ok value
  | .readBytecode hash, .bytecode bytecode => C.hashSlow bytecode = hash
  | _, _ => False

theorem Recorded.grows {s s' : StreamingEthereumState} {call : ReadCall} {answer : ReadAnswer}
    (h : Recorded C s call answer) (hg : Grows s s') : Recorded C s' call answer := by
  cases call <;> cases answer <;> try exact h
  · exact hg.cache _ _ h
  · obtain ⟨m, hm, hv⟩ := h
    exact ⟨m, hg.storage _ m hm, hv⟩

/-- One read. -/
theorem readCall_step {input : List StreamItem} {s s' : StreamingEthereumState} {call : ReadCall}
    {r : Except Stop ReadAnswer} (hs : Opened C input s) (h : readCall C call s = (r, s')) :
    Opened C input s' ∧ Grows s s' ∧ ∀ answer, r = .ok answer → Recorded C s' call answer := by
  cases call with
  | readAccount a =>
    have hq : Quiet s s' :=
      ((quiet_readAccount a).bind Quiet.trans fun _ => Exec.moves_pure Quiet.refl _).of_eq h
    refine ⟨hs.quiet hq, hq.grows, ?_⟩
    rintro answer rfl
    obtain ⟨account, s₁, h₁, h⟩ := Exec.of_bind_ok h
    simp only [Exec.pure_apply, Prod.mk.injEq, Except.ok.injEq] at h
    obtain ⟨rfl, rfl⟩ := h
    exact readAccount_ok h₁
  | readBytecode hash =>
    have hq : Quiet s s' :=
      ((quiet_readBytecode hash).bind Quiet.trans fun _ => Exec.moves_pure Quiet.refl _).of_eq h
    refine ⟨hs.quiet hq, hq.grows, ?_⟩
    rintro answer rfl
    obtain ⟨bytecode, s₁, h₁, h⟩ := Exec.of_bind_ok h
    simp only [Exec.pure_apply, Prod.mk.injEq, Except.ok.injEq] at h
    obtain ⟨rfl, rfl⟩ := h
    obtain ⟨witness, s₂, _, h₂⟩ := Exec.of_bind_ok h₁
    cases witness with
    | bytecode bytecode' =>
      dsimp only at h₂
      split at h₂
      · simp at h₂
      · rename_i heq
        simp only [Exec.pure_apply, Prod.mk.injEq, Except.ok.injEq] at h₂
        obtain ⟨rfl, rfl⟩ := h₂
        exact not_not.mp heq
    | _ => simp at h₂
  | readSlot a k =>
    have hq : Quiet s s' :=
      ((quiet_readSlot a k).bind Quiet.trans fun _ => Exec.moves_pure Quiet.refl _).of_eq h
    refine ⟨hs.quiet hq, hq.grows, ?_⟩
    rintro answer rfl
    obtain ⟨value, s₁, h₁, h⟩ := Exec.of_bind_ok h
    simp only [Exec.pure_apply, Prod.mk.injEq, Except.ok.injEq] at h
    obtain ⟨rfl, rfl⟩ := h
    obtain ⟨o, s₂, hread, h₁⟩ := Exec.of_bind_ok h₁
    simp only [Exec.read_apply, Prod.mk.injEq, Except.ok.injEq] at hread
    obtain ⟨rfl, rfl⟩ := hread
    cases hm : s.storageTries a with
    | none => simp [hm] at h₁
    | some m =>
      simp only [hm, Exec.ofExcept_apply, Prod.mk.injEq] at h₁
      obtain ⟨hv, rfl⟩ := h₁
      exact ⟨m, hm, Exec.of_mapError_ok hv⟩
  | loadStorageTrie a =>
    have hends := loadStorageTrie_ends (C := C) a s
    rcases hl : loadStorageTrie C a s with ⟨e | u, s₁⟩
    · rw [readCall, Exec.bind_error hl, Prod.mk.injEq] at h
      obtain ⟨rfl, rfl⟩ := h
      rw [hl] at hends
      rcases hends with hq | ⟨_, _, _, _, _, he⟩
      · exact ⟨hs.quiet hq, hq.grows, by simp⟩
      · simp at he
    · rw [readCall, Exec.bind_ok hl] at h
      obtain ⟨rfl, rfl⟩ := Prod.mk.inj h
      rw [hl] at hends
      rcases hends with hq | ⟨s₂, m, hq, hnone, hv, he⟩
      · refine ⟨hs.quiet hq, hq.grows, ?_⟩
        rintro answer ⟨⟩
        trivial
      · obtain ⟨_, rfl⟩ := Prod.mk.inj he
        have hg : Grows s { s₂ with storageTries := Function.update s₂.storageTries a (some m) } := by
          refine ⟨hq.grows.header, hq.grows.root, hq.grows.stateTrie, hq.grows.input,
            hq.grows.cache, fun b m' hb => ?_⟩
          have hne : b ≠ a := by
            rintro rfl
            rw [hnone] at hb
            cases hb
          rw [← hq.storageTries] at hb
          exact (Function.update_of_ne hne _ _).trans hb
        refine ⟨⟨hg.stateTrie.trans hs.unloaded, hg.input.trans hs.unread, fun b m' hb => ?_⟩, hg, ?_⟩
        · by_cases hba : b = a
          · subst hba
            obtain rfl : m = m' := by simpa using hb
            obtain ⟨account, bytes, numNodes, hlook, hcons, hdec⟩ := hv
            exact ⟨account, bytes, numNodes, hlook, hcons.left hs.unread, hdec⟩
          · have hb' : s₂.storageTries b = some m' := (Function.update_of_ne hba _ _).symm.trans hb
            rw [hq.storageTries] at hb'
            exact (hs.stored b m' hb').grows hg
        · rintro answer ⟨⟩
          trivial

/-- All reads: every answer is recorded in the state they leave behind. -/
theorem session_run {input : List StreamItem} : ∀ (calls : List ReadCall)
    {s : StreamingEthereumState}, Opened C input s →
    Opened C input (session C calls s).2 ∧ Grows s (session C calls s).2 ∧
      ∀ entry ∈ (session C calls s).1, ∀ answer, entry.2 = .ok answer →
        Recorded C (session C calls s).2 entry.1 answer
  | [], s, hs => ⟨hs, .refl s, by simp [session]⟩
  | call :: calls, s, hs => by
    obtain ⟨hs₁, hg₁, hr₁⟩ := readCall_step hs (Prod.mk.eta (p := readCall C call s)).symm
    obtain ⟨hs₂, hg₂, hr₂⟩ := session_run calls hs₁
    refine ⟨hs₂, hg₁.trans hg₂, fun entry hentry answer hok => ?_⟩
    rcases List.mem_cons.mp hentry with rfl | hentry
    · exact (hr₁ answer hok).grows hg₂
    · exact hr₂ entry hentry answer hok

end StreamingEthereumState
end CenoReth
