/-
What was recorded can be written (`write_ceno_client_input` in
`crates/host-bench/src/lib.rs`).

The writer looks up every access of a recording among the accounts of the state,
the storage tries and the bytecodes of the input, and stops with a message of its
own where it finds nothing.  It never does so for a recording that was made on the
same input: the lookups of the host found everything before they were recorded.
-/
import CenoReth.State.Recorder

namespace CenoReth

/-- The messages about a recording that does not go with the input. -/
def HostError.ofRecording : HostError → Prop
  | .client _ => False
  | .frontierRoot => False
  | _ => True

/-- An access of the execution that the writer finds. -/
def Writable (C : ClientEnv) (state : EthereumState) (bytecodes : List Bytecode) :
    WitnessAccess → Prop
  | .account _ => True
  | .storageTrie hash => (state.storageTries hash).isSome
  | .bytecode hash => (bytecodeByHash C bytecodes hash).isSome
  | .stateTrie => False
  | .modifiedAccount _ _ => False

/-- An access of the update: its storage trie is there. -/
def Backed (state : EthereumState) (access : WitnessAccess) : Prop :=
  ∀ hash, accessedTrie access = some hash → (state.storageTries hash).isSome

/-! ## What a step of the host adds -/

/-- Only accesses with the property are added to the recording. -/
def Logs (P : WitnessAccess → Prop) (r r' : Recording) : Prop :=
  ∃ δ, r'.witnessOrder = r.witnessOrder ++ δ ∧ ∀ access ∈ δ, P access

section Logs

variable {P : WitnessAccess → Prop} {r r' : Recording} {u : Unit} {h : B256}

theorem Logs.refl (r : Recording) : Logs P r r := ⟨[], by simp, by simp⟩

theorem Logs.trans (r r' r'' : Recording) (h : Logs P r r') (h' : Logs P r' r'') :
    Logs P r r'' := by
  obtain ⟨δ, hδ, hP⟩ := h
  obtain ⟨δ', hδ', hP'⟩ := h'
  refine ⟨δ ++ δ', by rw [hδ', hδ, List.append_assoc], fun access hmem => ?_⟩
  exact (List.mem_append.mp hmem).elim (hP access) (hP' access)

theorem logs_account (hP : P (.account h)) (hr : recordAccount h r = (.ok u, r')) :
    Logs P r r' := by
  rw [recordAccount, Exec.write_apply, Prod.mk.injEq] at hr
  obtain ⟨-, rfl⟩ := hr
  split
  · exact Logs.refl r
  · exact ⟨[.account h], rfl, by simpa using hP⟩

theorem logs_storageTrie (hP : P (.storageTrie h)) (hr : recordStorageTrie h r = (.ok u, r')) :
    Logs P r r' := by
  rw [recordStorageTrie, Exec.write_apply, Prod.mk.injEq] at hr
  obtain ⟨-, rfl⟩ := hr
  split
  · exact Logs.refl r
  · exact ⟨[.storageTrie h], rfl, by simpa using hP⟩

theorem logs_bytecode (hP : P (.bytecode h)) (hr : recordBytecode h r = (.ok u, r')) :
    Logs P r r' := by
  rw [recordBytecode, Exec.write_apply, Prod.mk.injEq] at hr
  obtain ⟨-, rfl⟩ := hr
  exact ⟨[.bytecode h], rfl, by simpa using hP⟩

end Logs

section Writer

variable {C : ClientEnv} {input : ClientExecutorInput} {state : EthereumState}
  {bytecodes : List Bytecode} {r r' : Recording}

/-- A call that returned found what it recorded. -/
theorem logs_call {call : DbCall} {result : DbResult}
    (hrun : eagerCall C state bytecodes call r = (.ok result, r')) :
    Logs (Writable C state bytecodes) r r' := by
  cases call with
  | basic address => exact logs_account trivial (of_eager_basic hrun).1
  | codeByHash hash =>
    obtain ⟨hrec, code, hcode, -⟩ := of_eager_codeByHash hrun
    refine logs_bytecode ?_ hrec
    show (bytecodeByHash C bytecodes hash).isSome
    rw [hcode]
    rfl
  | storage address index =>
    obtain ⟨r₁, m, _, hacc, hsto, hm, -⟩ := of_eager_storage hrun
    refine Logs.trans _ r₁ _ (logs_account trivial hacc) (logs_storageTrie ?_ hsto)
    show (state.storageTries _).isSome
    rw [hm]
    rfl

theorem logs_calls {calls : List DbCall} {results : List DbResult}
    (hrun : Exec.collect (eagerCall C state bytecodes) calls r = (.ok results, r')) :
    Logs (Writable C state bytecodes) r r' :=
  (Exec.of_collect_ok Logs.refl Logs.trans (Q := fun _ _ _ => True) (fun _ _ _ _ _ _ h => h) calls
    (Logs.refl r) (fun _ _ _ _ _ _ h => ⟨logs_call h, trivial⟩) hrun).1

theorem logs_modified {a : B256} {account : BundleAccount}
    (h : recordModified C state a account r = (.ok (), r')) : Logs (Backed state) r r' := by
  obtain ⟨hkept, hsent, δ, hδ, -, horder⟩ := recordModified_ok h
  refine ⟨δ, hδ, fun access hmem hash hacc => ?_⟩
  have hin : hash ∈ δ.filterMap accessedTrie := List.mem_filterMap.mpr ⟨access, hmem, hacc⟩
  by_cases hs : Sends C state r.storageLookupOrder a account
  · rw [hsent hs, List.append_cancel_left_eq] at horder
    rw [horder, List.mem_singleton] at hin
    obtain ⟨m, _, hm, _⟩ := hs.supplied
    rw [hin, hm]
    rfl
  · rw [hkept hs, List.append_right_eq_self] at horder
    rw [horder] at hin
    cases hin

theorem logs_modifiedAccounts : ∀ {bundle : Bundle} {r r' : Recording},
    recordModifiedAccounts C state bundle r = (.ok (), r') → Logs (Backed state) r r'
  | [], r, r', h => by
    simp only [recordModifiedAccounts, Exec.pure_apply, Prod.mk.injEq, true_and] at h
    exact h ▸ Logs.refl r
  | (address, account) :: bundle, r, r', h => by
    obtain ⟨_, r₁, h₁, h₂⟩ := Exec.of_bind_ok h
    exact Logs.trans _ r₁ _ (logs_modified h₁) (logs_modifiedAccounts h₂)

theorem logs_update {bundle : Bundle} (h : recordUpdate C state bundle r = (.ok (), r')) :
    ∃ post, r'.witnessOrder = r.witnessOrder ++ .stateTrie :: post ∧
      ∀ access ∈ post, Backed state access := by
  unfold recordUpdate at h
  rw [Exec.bind_ok (Exec.write_apply _ r)] at h
  obtain ⟨post, horder, hbacked⟩ := logs_modifiedAccounts h
  exact ⟨post, by rw [horder, List.append_assoc, List.singleton_append], hbacked⟩

/-! ## How the writer fails -/

theorem not_ofRecording_of_mapError {ε α : Type} {x : Except ε α} {f : ε → Stop} {e : HostError}
    (h : (x.mapError fun e => HostError.client (f e)) = .error e) : ¬ e.ofRecording := by
  cases x with
  | ok a => cases h
  | error e' =>
    obtain rfl : HostError.client (f e') = e := Except.error.inj h
    exact id

theorem not_ofRecording_writtenFrontier {order : List WitnessAccess} {e : HostError}
    (h : writtenFrontier C state order = .error e) : ¬ e.ofRecording := by
  rcases Exec.of_except_bind_error h with h | ⟨frontier, -, h⟩
  · exact not_ofRecording_of_mapError h
  rcases Exec.of_except_bind_error h with h | ⟨stateRoot, -, h⟩
  · exact not_ofRecording_of_mapError h
  rcases Exec.of_except_bind_error h with h | ⟨⟨_, frontierRoot⟩, -, h⟩
  · exact not_ofRecording_of_mapError h
  simp only at h
  split at h
  · cases h
  · obtain rfl := Except.error.inj h
    exact id

theorem not_ofRecording_accountByHash {order : List WitnessAccess} {e : HostError}
    (h : accountByHash C state order = .error e) : ¬ e.ofRecording := by
  obtain ⟨hash, -, h⟩ := Exec.of_mapM_error h
  exact not_ofRecording_of_mapError (Exec.of_map_error h)

theorem of_writeAccesses_error {write : WitnessAccess → Except HostError (List StreamItem)}
    {e : HostError} : ∀ {accesses : List WitnessAccess},
    writeAccesses write accesses = .error e → ∃ access ∈ accesses, write access = .error e
  | [], h => by cases h
  | access :: accesses, h => by
    rcases Exec.of_except_bind_error h with h | ⟨items, -, h⟩
    · exact ⟨access, List.mem_cons_self, h⟩
    rcases Exec.of_except_bind_error h with h | ⟨rest, -, h⟩
    · obtain ⟨access', hmem, h⟩ := of_writeAccesses_error h
      exact ⟨access', List.mem_cons_of_mem _ hmem, h⟩
    · cases h

theorem of_writeChunks_error {write : WitnessAccess → Except HostError (List StreamItem)}
    {post : List WitnessAccess} {e : HostError} : ∀ {chunks : List Mpt.FrontierChunk},
    writeChunks write post chunks = .error e →
      ∃ chunk ∈ chunks, ∃ access ∈ chunkAccesses post chunk.prefixNibs, write access = .error e
  | [], h => by cases h
  | chunk :: chunks, h => by
    rcases Exec.of_except_bind_error h with h | ⟨items, -, h⟩
    · rcases Exec.of_except_bind_error h with h | ⟨witnesses, -, h⟩
      · exact ⟨chunk, List.mem_cons_self, of_writeAccesses_error h⟩
      · cases h
    rcases Exec.of_except_bind_error h with h | ⟨rest, -, h⟩
    · obtain ⟨chunk', hmem, h⟩ := of_writeChunks_error h
      exact ⟨chunk', List.mem_cons_of_mem _ hmem, h⟩
    · cases h

/-! ## What the writer finds -/

/-- An account of the recording is among those that were looked up. -/
theorem lookup_accountByHash {order : List WitnessAccess}
    {accounts : List (B256 × Option TrieAccount)} (h : accountByHash C state order = .ok accounts)
    {hash : B256} (hmem : .account hash ∈ order) :
    ∃ account, accounts.reverse.lookup hash = some account := by
  have hmem' : hash ∈ order.filterMap accessedAccount := List.mem_filterMap.mpr ⟨_, hmem, rfl⟩
  obtain ⟨⟨hash', account⟩, hin, hat⟩ :=
    Exec.exists_of_forall₂ (List.Forall₂.flip (Exec.of_mapM_ok h)) hmem'
  obtain ⟨account', -, heq⟩ := Exec.of_map_ok hat
  obtain rfl : hash = hash' := (Prod.mk.inj heq).1
  rw [← Option.isSome_iff_exists, ← Option.ne_none_iff_isSome]
  intro hnone
  have hne := List.lookup_eq_none_iff.mp hnone (hash, account) (List.mem_reverse.mpr hin)
  simp at hne

theorem exists_writeAccess (hb : build C input = .ok state) {order : List WitnessAccess}
    {accounts : List (B256 × Option TrieAccount)}
    (haccounts : accountByHash C state order = .ok accounts) (frontierBytes : Bytes)
    {access : WitnessAccess} (hmem : access ∈ order)
    (hw : Writable C state input.bytecodes access) :
    ∃ items, writeAccess C input accounts frontierBytes access = .ok items := by
  cases access with
  | account hash =>
    obtain ⟨account, hl⟩ := lookup_accountByHash haccounts hmem
    exact ⟨[.witness (.account ⟨hash, account⟩)], by simp only [writeAccess, hl]⟩
  | storageTrie hash =>
    obtain ⟨m, hm⟩ := Option.isSome_iff_exists.mp hw
    obtain ⟨numNodes, bytes, _, _, hfind, -⟩ := supplied_of_build hb hash m hm
    exact ⟨[.witness (.storageTrie ⟨hash, numNodes⟩), .raw bytes],
      by simp only [writeAccess, storageTrieByHash, hfind]⟩
  | bytecode hash =>
    obtain ⟨code, hcode⟩ := Option.isSome_iff_exists.mp hw
    exact ⟨[.witness (.bytecode code)], by simp only [writeAccess, hcode]⟩
  | stateTrie => cases hw
  | modifiedAccount hash slots => cases hw

/-- What stops the writer on a recording of its own input is an error of a trie, and never an
access that it does not find. -/
theorem write_finds_all {calls : List DbCall} {results : List DbResult} {bundle : Bundle}
    (hb : build C input = .ok state)
    (hrun : Exec.collect (eagerCall C state input.bytecodes) calls .empty = (.ok results, r))
    (hrecord : recordUpdate C state bundle r = (.ok (), r')) :
    ∀ e, writeCenoClientInput C input r'.witnessOrder = .error e → ¬ e.ofRecording := by
  intro e he
  obtain ⟨order, horder, hwritable⟩ := logs_calls hrun
  obtain ⟨post, hpost, hbacked⟩ := logs_update hrecord
  rw [horder, show Recording.empty.witnessOrder = [] from rfl, List.nil_append] at hpost
  have hno : .stateTrie ∉ order := fun hmem => hwritable _ hmem
  rw [hpost] at he
  rcases Exec.of_except_bind_error he with he | ⟨state', hb', he⟩
  · exact not_ofRecording_of_mapError (f := id) he
  obtain rfl : state = state' := Except.ok.inj (hb.symm.trans (Exec.of_mapError_ok hb'))
  rcases Exec.of_except_bind_error he with he | ⟨frontier, -, he⟩
  · exact not_ofRecording_writtenFrontier he
  rw [if_neg (by simp)] at he
  rcases Exec.of_except_bind_error he with he | ⟨accounts, haccounts, he⟩
  · exact not_ofRecording_accountByHash he
  obtain ⟨htake, hdrop⟩ := takeWhile_order hno post
  rw [htake, hdrop] at he
  rcases Exec.of_except_bind_error he with he | ⟨items, -, he⟩
  · obtain ⟨access, hmem, hfail⟩ := of_writeAccesses_error he
    rcases List.mem_append.mp hmem with hmem | hmem
    · obtain ⟨items, hok⟩ := exists_writeAccess hb haccounts frontier.bytes
        (List.mem_append_left _ hmem) (hwritable access hmem)
      rw [hok] at hfail
      cases hfail
    · rw [List.mem_singleton.mp hmem] at hfail
      cases hfail
  rcases Exec.of_except_bind_error he with he | ⟨chunkItems, -, he⟩
  · obtain ⟨chunk, -, access, hmem, hfail⟩ := of_writeChunks_error he
    obtain ⟨hin, hkind⟩ := List.mem_filter.mp hmem
    have hw : Writable C state input.bytecodes access := by
      cases access with
      | account hash => trivial
      | storageTrie hash => exact hbacked _ hin hash rfl
      | _ => cases hkind
    obtain ⟨items, hok⟩ := exists_writeAccess hb haccounts frontier.bytes
      (List.mem_append_right _ (List.mem_cons_of_mem _ hin)) hw
    rw [hok] at hfail
    cases hfail
  · cases he

end Writer

/-! ## An account, its code, and its storage trie for the update -/

section Sample

open EthereumState

def codeCalls : List DbCall := [.basic addressOne, .codeByHash noCode]

def codeRecording : Recording :=
  (Exec.collect (eagerCall sampleClientEnv sampleBuilt sampleInput.bytecodes) codeCalls .empty).2

def slotBundle : Bundle := [(addressOne, ⟨some ⟨2, 7, noCode⟩, false, [(1, 6)]⟩)]

def slotRecording : Recording :=
  (recordUpdate sampleClientEnv sampleBuilt slotBundle codeRecording).2

theorem write_finds_all_sample :
    slotRecording.witnessOrder = [.account hashedOne, .bytecode noCode, .stateTrie,
      .modifiedAccount hashedOne 1, .storageTrie hashedOne] ∧
    ∀ e, writeCenoClientInput sampleClientEnv sampleInput slotRecording.witnessOrder = .error e →
      ¬ e.ofRecording := by
  have hres : (Exec.collect (eagerCall sampleClientEnv sampleBuilt sampleInput.bytecodes)
      codeCalls .empty).1 = .ok [.basic (some ⟨1, 7, noCode⟩), .codeByHash ⟨[]⟩] := by
    decide +kernel
  have hrecord : (recordUpdate sampleClientEnv sampleBuilt slotBundle codeRecording).1 =
      .ok () := by decide +kernel
  exact ⟨by decide +kernel, write_finds_all build_sample (Exec.eq_of_fst hres)
    (Exec.eq_of_fst hrecord)⟩

end Sample

end CenoReth
