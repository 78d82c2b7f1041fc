/-
The second half of the recording (`ClientExecutor::execute_with_state` of
`crates/executor/client/src/lib.rs`).

After the block the host records a marker for the state trie, and for every
account of the bundle a marker with the number of its slots.  The update of the
guest reads storage tries that the execution did not read, and one condition of
the host decides which ones are sent.
-/
import CenoReth.State.Replay
import CenoReth.State.Session

namespace CenoReth

section Model

variable (C : ClientEnv)

/-- One account of the bundle: its marker, and its storage trie when the update is to read it. -/
def recordModified (state : EthereumState) (hashedAddress : B256) (account : BundleAccount) :
    RecordM Unit := do
  Exec.write fun r =>
    { r with
      witnessOrder := r.witnessOrder ++ [.modifiedAccount hashedAddress account.storage.length] }
  let storageOrder ← Exec.read Recording.storageLookupOrder
  if account.info.isSome ∧ account.storage ≠ [] ∧ hashedAddress ∉ storageOrder then
    match state.storageTries hashedAddress with
    | some storageTrie =>
      let root ← Exec.ofExcept ((Mpt.hash C.toEnv storageTrie).1.mapError Stop.ofHalt)
      if root ≠ C.emptyRootHash then
        recordAccount hashedAddress
        recordStorageTrie hashedAddress
      else pure ()
    | none => pure ()
  else pure ()

def recordModifiedAccounts (state : EthereumState) : Bundle → RecordM Unit
  | [] => pure ()
  | (address, account) :: bundle => do
    recordModified C state (C.keccak256 address.bytes) account
    recordModifiedAccounts state bundle

/-- What `execute_with_state` records after the block. -/
def recordUpdate (state : EthereumState) (bundle : Bundle) : RecordM Unit := do
  Exec.write fun r => { r with witnessOrder := r.witnessOrder ++ [.stateTrie] }
  recordModifiedAccounts C state bundle

end Model

variable {C : ClientEnv} {state : EthereumState}

/-! ## What is sent for the update -/

def accessedTrie : WitnessAccess → Option B256
  | .storageTrie hash => some hash
  | _ => none

theorem mem_accessedTrie {accesses : List WitnessAccess} {a : B256} :
    a ∈ accesses.filterMap accessedTrie ↔ .storageTrie a ∈ accesses := by
  rw [List.mem_filterMap]
  constructor
  · rintro ⟨access, hmem, hacc⟩
    cases access with
    | storageTrie hash =>
      obtain rfl : hash = a := Option.some.inj hacc
      exact hmem
    | _ => cases hacc
  · exact fun h => ⟨_, h, rfl⟩

/-- The condition of the recorder. -/
structure Sends (C : ClientEnv) (state : EthereumState) (looked : List B256) (hashedAddress : B256)
    (account : BundleAccount) : Prop where
  info : account.info ≠ none
  storage : account.storage ≠ []
  unread : hashedAddress ∉ looked
  supplied : ∃ m root, state.storageTries hashedAddress = some m ∧
    (Mpt.hash C.toEnv m).1 = .ok root ∧ root ≠ C.emptyRootHash

/-- The tries that one account adds to the recording. -/
structure Added (C : ClientEnv) (state : EthereumState) (hashedAddress : B256)
    (account : BundleAccount) (r r' : Recording) : Prop where
  kept : ¬ Sends C state r.storageLookupOrder hashedAddress account →
    r'.storageLookupOrder = r.storageLookupOrder
  sent : Sends C state r.storageLookupOrder hashedAddress account →
    r'.storageLookupOrder = r.storageLookupOrder ++ [hashedAddress]
  order : ∃ δ, r'.witnessOrder = r.witnessOrder ++ δ ∧ .stateTrie ∉ δ ∧
    r.storageLookupOrder ++ δ.filterMap accessedTrie = r'.storageLookupOrder

theorem recordModified_ok {a : B256} {account : BundleAccount} {r r' : Recording}
    (h : recordModified C state a account r = (.ok (), r')) : Added C state a account r r' := by
  unfold recordModified at h
  rw [Exec.bind_ok (Exec.write_apply _ r), Exec.bind_ok (Exec.read_apply _ _)] at h
  simp only at h
  have hnone (hn : ¬ Sends C state r.storageLookupOrder a account)
      (hr : r' = { r with
        witnessOrder := r.witnessOrder ++ [.modifiedAccount a account.storage.length] }) :
      Added C state a account r r' := by
    subst hr
    exact ⟨fun _ => rfl, fun hs => absurd hs hn, [_], rfl, by simp, by simp [accessedTrie]⟩
  split at h
  · rename_i hcond
    obtain ⟨hinfo, hstorage, hunread⟩ := hcond
    cases hm : state.storageTries a with
    | none =>
      simp only [hm, Exec.pure_apply, Prod.mk.injEq, true_and] at h
      exact hnone (fun hs => by
        obtain ⟨m, _, hm', _⟩ := hs.supplied
        rw [hm] at hm'
        cases hm') h.symm
    | some m =>
      simp only [hm] at h
      obtain ⟨root, r₁, h₁, h⟩ := Exec.of_bind_ok h
      obtain ⟨hroot, rfl⟩ := Exec.of_ofExcept_ok h₁
      have hhash := Exec.of_mapError_ok hroot
      split at h
      · rename_i hne
        have hs : Sends C state r.storageLookupOrder a account :=
          ⟨Option.isSome_iff_ne_none.mp hinfo, hstorage, hunread, m, root, hm, hhash, hne⟩
        obtain ⟨_, r₂, h₂, h₃⟩ := Exec.of_bind_ok h
        rw [recordAccount, Exec.write_apply, Prod.mk.injEq] at h₂
        obtain ⟨-, rfl⟩ := h₂
        rw [recordStorageTrie, Exec.write_apply, Prod.mk.injEq] at h₃
        obtain ⟨-, rfl⟩ := h₃
        by_cases hk : a ∈ r.accountLookupOrder
        · simp only [hk, if_true, hunread, if_false]
          exact ⟨fun hn => absurd hs hn, fun _ => rfl, [.modifiedAccount a account.storage.length,
            .storageTrie a], by simp, by simp, rfl⟩
        · simp only [hk, hunread, if_false]
          exact ⟨fun hn => absurd hs hn, fun _ => rfl, [.modifiedAccount a account.storage.length,
            .account a, .storageTrie a], by simp, by simp, rfl⟩
      · rename_i hempty
        simp only [Exec.pure_apply, Prod.mk.injEq, true_and] at h
        refine hnone (fun hs => ?_) h.symm
        obtain ⟨m', root', hm', hhash', hne⟩ := hs.supplied
        obtain rfl : m = m' := Option.some.inj (hm.symm.trans hm')
        obtain rfl : root = root' := Except.ok.inj (hhash.symm.trans hhash')
        exact hempty hne
  · rename_i hcond
    simp only [Exec.pure_apply, Prod.mk.injEq, true_and] at h
    exact hnone (fun hs => hcond ⟨Option.isSome_iff_ne_none.mpr hs.info, hs.storage, hs.unread⟩)
      h.symm

/-- The storage tries that are recorded for a bundle are those of the accounts that the condition
of the recorder holds of. -/
theorem recordModifiedAccounts_ok : ∀ {bundle : Bundle} {r r' : Recording},
    (bundle.map fun entry => C.keccak256 entry.1.bytes).Nodup →
    recordModifiedAccounts C state bundle r = (.ok (), r') →
    ∃ δ, r'.witnessOrder = r.witnessOrder ++ δ ∧ .stateTrie ∉ δ ∧
      ∀ a, .storageTrie a ∈ δ ↔ ∃ entry ∈ bundle, C.keccak256 entry.1.bytes = a ∧
        Sends C state r.storageLookupOrder a entry.2
  | [], r, r', _, h => by
    simp only [recordModifiedAccounts, Exec.pure_apply, Prod.mk.injEq, true_and] at h
    exact ⟨[], by simp [h], by simp, by simp⟩
  | (address, account) :: bundle, r, r', hnd, h => by
    rw [recordModifiedAccounts] at h
    obtain ⟨_, r₁, h₁, h₂⟩ := Exec.of_bind_ok h
    obtain ⟨hkept, hsent, δ₁, hδ₁, hno₁, horder⟩ := recordModified_ok h₁
    rw [List.map_cons, List.nodup_cons] at hnd
    obtain ⟨δ₂, hδ₂, hno₂, hmem₂⟩ := recordModifiedAccounts_ok hnd.2 h₂
    have hother : ∀ entry ∈ bundle, C.keccak256 entry.1.bytes ≠ C.keccak256 address.bytes :=
      fun entry he heq => hnd.1 (heq ▸ List.mem_map_of_mem he)
    -- which tries the first account adds does not change the condition for the others
    have hcongr : ∀ entry ∈ bundle, ∀ a, C.keccak256 entry.1.bytes = a →
        (Sends C state r₁.storageLookupOrder a entry.2 ↔
          Sends C state r.storageLookupOrder a entry.2) := by
      rintro entry he _ rfl
      have hiff : C.keccak256 entry.1.bytes ∈ r₁.storageLookupOrder ↔
          C.keccak256 entry.1.bytes ∈ r.storageLookupOrder := by
        by_cases hs : Sends C state r.storageLookupOrder (C.keccak256 address.bytes) account
        · rw [hsent hs, List.mem_append, List.mem_singleton, or_iff_left (hother entry he)]
        · rw [hkept hs]
      exact ⟨fun h => ⟨h.info, h.storage, hiff.not.mp h.unread, h.supplied⟩,
        fun h => ⟨h.info, h.storage, hiff.not.mpr h.unread, h.supplied⟩⟩
    have hfirst : δ₁.filterMap accessedTrie = [C.keccak256 address.bytes] ∧
          Sends C state r.storageLookupOrder (C.keccak256 address.bytes) account ∨
        δ₁.filterMap accessedTrie = [] ∧
          ¬ Sends C state r.storageLookupOrder (C.keccak256 address.bytes) account := by
      by_cases hs : Sends C state r.storageLookupOrder (C.keccak256 address.bytes) account
      · rw [hsent hs, List.append_cancel_left_eq] at horder
        exact .inl ⟨horder, hs⟩
      · rw [hkept hs, List.append_right_eq_self] at horder
        exact .inr ⟨horder, hs⟩
    have hmem₁ : ∀ a, .storageTrie a ∈ δ₁ ↔ a = C.keccak256 address.bytes ∧
        Sends C state r.storageLookupOrder a account := by
      intro a
      rw [← mem_accessedTrie]
      rcases hfirst with ⟨hl, hs⟩ | ⟨hl, hs⟩
      · rw [hl, List.mem_singleton]
        exact ⟨fun h => ⟨h, h ▸ hs⟩, fun h => h.1⟩
      · rw [hl]
        exact ⟨fun h => (List.not_mem_nil h).elim, fun h => absurd (h.1 ▸ h.2) hs⟩
    refine ⟨δ₁ ++ δ₂, by rw [hδ₂, hδ₁, List.append_assoc], by simp [hno₁, hno₂], fun a => ?_⟩
    rw [List.mem_append, hmem₁, hmem₂]
    constructor
    · rintro (⟨rfl, hs⟩ | ⟨entry, he, heq, hs⟩)
      · exact ⟨_, List.mem_cons_self, rfl, hs⟩
      · exact ⟨entry, List.mem_cons_of_mem _ he, heq, (hcongr entry he a heq).mp hs⟩
    · rintro ⟨entry, he, heq, hs⟩
      rcases List.mem_cons.mp he with rfl | he
      · exact .inl ⟨heq.symm, hs⟩
      · exact .inr ⟨entry, he, heq, (hcongr entry he a heq).mpr hs⟩

theorem recordUpdate_ok {bundle : Bundle} {r r' : Recording}
    (hnd : (bundle.map fun entry => C.keccak256 entry.1.bytes).Nodup)
    (h : recordUpdate C state bundle r = (.ok (), r')) :
    ∃ post, r'.witnessOrder = r.witnessOrder ++ .stateTrie :: post ∧
      ∀ a, .storageTrie a ∈ post ↔ ∃ entry ∈ bundle, C.keccak256 entry.1.bytes = a ∧
        Sends C state r.storageLookupOrder a entry.2 := by
  unfold recordUpdate at h
  rw [Exec.bind_ok (Exec.write_apply _ r)] at h
  obtain ⟨post, horder, -, hmem⟩ := recordModifiedAccounts_ok hnd h
  exact ⟨post, by rw [horder, List.append_assoc, List.singleton_append], hmem⟩

/-! ## The guest after the execution -/

section Execution

open StreamingEthereumState

variable {input : ClientExecutorInput} {write : WitnessAccess → Except HostError (List StreamItem)}

/-- A guest either answers a run as the host did, or stops in it. -/
theorem replays_or_derails (hb : build C input = .ok state) (hw : Wrote C input state write) :
    ∀ {calls : List DbCall} {results : List DbResult} {r r' : Recording}, r.Nested →
      Exec.collect (eagerCall C state input.bytecodes) calls r = (.ok results, r') →
      Replays C state write (Exec.collect (streamingCall C) calls) results r r' ∨
        Derails C state write (Exec.collect (streamingCall C) calls) r r'
  | [], results, r, r', _, hrun => by
    simp only [Exec.collect, Exec.pure_apply, Prod.mk.injEq, Except.ok.injEq] at hrun
    obtain ⟨rfl, rfl⟩ := hrun
    exact .inl (replays_pure _ _)
  | call :: calls, results, r, r', hn, hrun => by
    obtain ⟨result, r₁, h₁, hrun⟩ := Exec.of_bind_ok hrun
    obtain ⟨results', r₂, h₂, h₃⟩ := Exec.of_bind_ok hrun
    simp only [Exec.pure_apply, Prod.mk.injEq, Except.ok.injEq] at h₃
    obtain ⟨rfl, rfl⟩ := h₃
    obtain ⟨-, -, hδ⟩ := recorded_calls h₂
    have hδ' : ∃ δ, r₂.witnessOrder = r₁.witnessOrder ++ δ := hδ.imp fun _ h => h.1
    by_cases hk : AccountKnown C r call
    · have hcall := replays_call hb hw hk h₁
      rcases replays_or_derails hb hw ((recorded_call h₁).nested hn) h₂ with ih | ih
      · exact .inl (hcall.bind (ih.bind (replays_pure _ _)))
      · exact .inr (hcall.bind_derails (ih.bind ⟨[], by simp⟩))
    · exact .inr ((derails_call hw hn hk h₁).bind hδ')

/-- The storage tries that were looked up exist. -/
theorem supplied_of_looked {bytecodes : List Bytecode} :
    ∀ {calls : List DbCall} {results : List DbResult} {r r' : Recording},
      Exec.collect (eagerCall C state bytecodes) calls r = (.ok results, r') →
      (∀ a ∈ r.storageLookupOrder, (state.storageTries a).isSome) →
      ∀ a ∈ r'.storageLookupOrder, (state.storageTries a).isSome
  | [], results, r, r', hrun, hr => by
    simp only [Exec.collect, Exec.pure_apply, Prod.mk.injEq] at hrun
    exact hrun.2 ▸ hr
  | call :: calls, results, r, r', hrun, hr => by
    obtain ⟨result, r₁, h₁, hrun⟩ := Exec.of_bind_ok hrun
    obtain ⟨results', r₂, h₂, h₃⟩ := Exec.of_bind_ok hrun
    obtain rfl : r₂ = r' := congrArg Prod.snd h₃
    refine supplied_of_looked h₂ ?_
    have haccount {a : B256} {r r' : Recording} (h : recordAccount a r = (.ok (), r')) :
        r'.storageLookupOrder = r.storageLookupOrder := by
      rw [recordAccount, Exec.write_apply, Prod.mk.injEq] at h
      rw [← h.2]
      split <;> rfl
    cases call with
    | basic address => rwa [haccount (of_eager_basic h₁).1]
    | codeByHash hash =>
      obtain ⟨hrec, -⟩ := of_eager_codeByHash h₁
      rw [recordBytecode, Exec.write_apply, Prod.mk.injEq] at hrec
      rwa [← hrec.2]
    | storage address index =>
      obtain ⟨r₃, m, _, hacc, hsto, hm, -⟩ := of_eager_storage h₁
      rw [recordStorageTrie, Exec.write_apply, Prod.mk.injEq, haccount hacc] at hsto
      intro a ha
      rw [← hsto.2] at ha
      split at ha
      · rw [haccount hacc] at ha
        exact hr a ha
      · rcases List.mem_append.mp ha with ha | ha
        · exact hr a ha
        · rw [List.mem_singleton.mp ha, hm]
          rfl

/-- The state trie is not read during the execution. -/
def Held (s s' : StreamingEthereumState) : Prop :=
  s'.stateTrie = s.stateTrie ∧ s'.stateTrieHeader = s.stateTrieHeader ∧
    s'.parentStateRoot = s.parentStateRoot

theorem Held.refl (s : StreamingEthereumState) : Held s s := ⟨rfl, rfl, rfl⟩

theorem Held.trans (s s' s'' : StreamingEthereumState) (h : Held s s') (h' : Held s' s'') :
    Held s s'' :=
  ⟨h'.1.trans h.1, h'.2.1.trans h.2.1, h'.2.2.trans h.2.2⟩

theorem Quiet.held {s s' : StreamingEthereumState} (h : Quiet s s') : Held s s' :=
  ⟨h.grows.stateTrie, h.grows.header, h.grows.root⟩

theorem held_of_quiet {α : Type} {x : StreamM α} (h : Exec.Moves Quiet x) : Exec.Moves Held x :=
  fun s => Quiet.held (h s)

theorem held_loadStorageTrie (a : B256) : Exec.Moves Held (loadStorageTrie C a) := by
  unfold loadStorageTrie
  refine (Exec.moves_read Held.refl _).bind Held.trans fun o => ?_
  cases o with
  | some m => exact Exec.moves_pure Held.refl _
  | none =>
    refine (held_of_quiet quiet_readWitnessInput).bind Held.trans fun witness => ?_
    cases witness with
    | storageTrie header =>
      simp only
      split
      · exact Exec.moves_fail Held.refl _
      · refine (held_of_quiet (quiet_expectedStorageRoot a)).bind Held.trans fun expected => ?_
        refine (held_of_quiet quiet_readRawBytes).bind Held.trans fun bytes => ?_
        refine (Exec.moves_ofExcept Held.refl _).bind Held.trans fun decoded => ?_
        split
        · exact Exec.moves_fail Held.refl _
        · exact fun s => ⟨rfl, rfl, rfl⟩
    | _ => exact Exec.moves_fail Held.refl _

theorem held_streamingCall (call : DbCall) : Exec.Moves Held (streamingCall C call) := by
  cases call with
  | basic address =>
    exact (held_of_quiet (quiet_readAccount _)).bind Held.trans fun _ =>
      Exec.moves_pure Held.refl _
  | codeByHash hash =>
    exact (held_of_quiet (quiet_readBytecode hash)).bind Held.trans fun _ =>
      Exec.moves_pure Held.refl _
  | storage address index =>
    refine (held_loadStorageTrie _).bind Held.trans fun _ => ?_
    refine (Exec.moves_read Held.refl _).bind Held.trans fun o => ?_
    cases o with
    | none => exact Exec.moves_fail Held.refl _
    | some m => exact (Exec.moves_ofExcept Held.refl _).bind Held.trans fun _ =>
        Exec.moves_pure Held.refl _

theorem held_streamingCalls : ∀ calls : List DbCall,
    Exec.Moves Held (Exec.collect (streamingCall C) calls)
  | [] => Exec.moves_pure Held.refl _
  | call :: calls => (held_streamingCall call).bind Held.trans fun _ =>
      (held_streamingCalls calls).bind Held.trans fun _ => Exec.moves_pure Held.refl _

end Execution

end CenoReth
