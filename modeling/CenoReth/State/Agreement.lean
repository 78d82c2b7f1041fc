/-
The two updates of a block agree.

The host updates tries that it holds, and the guest updates chunks that it reads.
For a bundle that only sets accounts and slots, both end with the root of the
parent state with the bundle written into it, so a block that the host accepts has
the same root for the guest.  The guest's side holds for every stream; here is the
host's side, and that an execution of the guest is a session of reads.
-/
import CenoReth.State.Demand

namespace CenoReth

open Patricia Patricia.Radix Trie

/-! ## The update of the host -/

section Host

open EthereumState
open StreamingEthereumState (Stored isTrie_null)

variable {C : ClientEnv} {S : FullState} {input : ClientExecutorInput} {parent : BlockHeader}
  {bundle : Bundle} {s s' : EthereumState} {a : B256} {account : BundleAccount} {info : AccountInfo}

/-- What the update of one account starts from: its storage trie, or none if there is no storage
to keep. -/
structure Ready (C : ClientEnv) (S : FullState) (s : EthereumState) (a : B256)
    (account : BundleAccount) : Prop where
  stored : ∀ m, s.storageTries a = some m → Stored C S a m
  bare : s.storageTries a = none → account.wasDestroyed = false → S.storage a = null

/-- The account is set, and so are its slots. -/
structure Sets (account : BundleAccount) : Prop where
  info : account.info ≠ none
  slots : ∀ slot ∈ account.storage, slot.2 ≠ 0

/-- The storage trie that the slots are written to. -/
theorem openStorageTrie_stored (h : Ready C S s a account) :
    ∃ m P, openStorageTrie a account s =
        (.ok (), { s with storageTries := Function.update s.storageTries a (some m) }) ∧
      Mpt.Represents C.toEnv m P ∧ Mpt.Stands C.toEnv P (S.storageBefore a account) := by
  have horInsert : ∃ m, orInsert a s =
        (.ok (), { s with storageTries := Function.update s.storageTries a (some m) }) ∧
      (account.wasDestroyed = false → Stored C S a m) := by
    unfold orInsert
    rw [Exec.bind_ok (Exec.read_apply _ s)]
    cases hm : s.storageTries a with
    | none =>
      refine ⟨Mpt.new, rfl, fun hkeep => ⟨null, Mpt.represents_new, ?_⟩⟩
      rw [h.bare hm hkeep]
      exact .inl .ofNull
    | some m =>
      have hself : Function.update s.storageTries a (some m) = s.storageTries := by
        rw [← hm, Function.update_eq_self]
      exact ⟨m, by rw [hself]; rfl, fun _ => h.stored m hm⟩
  obtain ⟨m, hm, hstored⟩ := horInsert
  unfold openStorageTrie FullState.storageBefore
  rw [Exec.bind_ok hm]
  cases hd : account.wasDestroyed with
  | false =>
    obtain ⟨P, hr, hs⟩ := hstored hd
    exact ⟨m, P, rfl, hr, hs⟩
  | true =>
    refine ⟨Mpt.new, null, ?_, Mpt.represents_new, .inl .ofNull⟩
    simp [setStorageTrie, Function.update_idem]

theorem isTrie_storageBefore (hS : S.Sound C parent.stateRoot) :
    IsTrie 64 (S.storageBefore a account) := by
  unfold FullState.storageBefore
  split
  · exact isTrie_null
  · exact hS.storage a

/-- One account: its record is the one it should have, and the other storage tries stay. -/
theorem updateAccount_stands {μ : List Nibble → Option Bytes} {P : Trie}
    (hS : S.Sound C parent.stateRoot) (hsets : Sets account) (hready : Ready C S s a account)
    (hr : Mpt.Represents C.toEnv s.stateTrie P) (hst : Mpt.Stands C.toEnv P (canonical 64 μ))
    (h : updateAccount C.toStateEnv a account s = (.ok (), s')) :
    (∃ P', Mpt.Represents C.toEnv s'.stateTrie P' ∧ Mpt.Stands C.toEnv P'
      (canonical 64 (Mpt.changeMap μ [S.accountChange C (a, account)]))) ∧
    ∀ b, b ≠ a → s'.storageTries b = s.storageTries b := by
  obtain ⟨info, hinfo⟩ := Option.ne_none_iff_exists'.mp hsets.info
  unfold updateAccount at h
  simp only [hinfo] at h
  obtain ⟨m, Q, hopen, hrQ, hsQ⟩ := openStorageTrie_stored hready
  rw [Exec.bind_ok hopen] at h
  obtain ⟨root, s₂, hroot, hset⟩ := Exec.of_bind_ok h
  rw [onStorageTrie_apply (Function.update_self a (some m) s.storageTries)
    (Prod.mk.eta (p := updateStorageTrie C.toStateEnv account.storage m)).symm, Prod.mk.injEq]
    at hroot
  obtain ⟨hroot, rfl⟩ := hroot
  rw [Mpt.eq_canonical_valueAt (isTrie_storageBefore hS)] at hsQ
  rw [updateStorageTrie_stands hsets.slots hrQ hsQ hroot] at hset
  have hchange : S.accountChange C (a, account) = (Hp.keyNibs a.bytes,
      .upsert (C.encodeAccount (S.accountAfter C a account info))) := by
    simp only [FullState.accountChange, hinfo]
  rw [hchange]
  simp only [onStateTrie, Prod.mk.injEq] at hset
  obtain ⟨hset, rfl⟩ := hset
  refine ⟨?_, fun b hb => ?_⟩
  · obtain ⟨b, m₁, hins, h₁⟩ := Exec.of_bind_ok (Exec.eq_of_fst hset)
    rw [Exec.pure_apply, Prod.mk.injEq] at h₁
    rw [← h₁.2]
    rw [Mpt.insert, ← Hp.map_toByte_keyNibs] at hins
    rcases hst with hv | hdigest
    · obtain ⟨P', -, hr', hv'⟩ := Mpt.insertNibbles_view hr hv (Mpt.length_keyNibs_b256 a) hins
      exact ⟨P', hr', .inl hv'⟩
    · rw [hdigest] at hr
      exact absurd hins (Mpt.insertNibbles_digest hr)
  · simp only
    rw [Function.update_of_ne hb, Function.update_of_ne hb]

/-- All accounts of a bundle. -/
theorem update_stands (hS : S.Sound C parent.stateRoot) :
    ∀ {bundle : Bundle} {μ : List Nibble → Option Bytes} {P : Trie} {s s' : EthereumState},
    (∀ entry ∈ bundle, Sets entry.2) →
    (bundle.map fun entry => C.keccak256 entry.1.bytes).Nodup →
    (∀ entry ∈ bundle, Ready C S s (C.keccak256 entry.1.bytes) entry.2) →
    Mpt.Represents C.toEnv s.stateTrie P → Mpt.Stands C.toEnv P (canonical 64 μ) →
    updateFromBundleState C.toStateEnv bundle s = (.ok (), s') →
    ∃ P', Mpt.Represents C.toEnv s'.stateTrie P' ∧ Mpt.Stands C.toEnv P' (canonical 64
      (Mpt.changeMap μ (bundle.map fun entry =>
        S.accountChange C (C.keccak256 entry.1.bytes, entry.2))))
  | [], μ, P, s, s', _, _, _, hr, hst, h => by
    simp only [updateFromBundleState, Exec.pure_apply, Prod.mk.injEq, true_and] at h
    exact ⟨P, h ▸ hr, hst⟩
  | (address, account) :: bundle, μ, P, s, s', hsets, hnd, hready, hr, hst, h => by
    obtain ⟨_, s₁, h₁, h₂⟩ := Exec.of_bind_ok h
    rw [List.map_cons, List.nodup_cons] at hnd
    obtain ⟨⟨P₁, hr₁, hst₁⟩, hkept⟩ := updateAccount_stands hS (hsets _ List.mem_cons_self)
      (hready _ List.mem_cons_self) hr hst h₁
    have hready₁ : ∀ entry ∈ bundle, Ready C S s₁ (C.keccak256 entry.1.bytes) entry.2 := by
      intro entry he
      have hold := hready entry (List.mem_cons_of_mem _ he)
      have hsame := hkept (C.keccak256 entry.1.bytes) fun heq =>
        hnd.1 (List.mem_map.mpr ⟨entry, he, heq⟩)
      exact ⟨fun m hm => hold.stored m (hsame.symm.trans hm),
        fun hnone => hold.bare (hsame.symm.trans hnone)⟩
    obtain ⟨P', hr', hst'⟩ := update_stands hS
      (fun entry he => hsets entry (List.mem_cons_of_mem _ he)) hnd.2 hready₁ hr₁ hst₁ h₂
    exact ⟨P', hr', hst'⟩

/-- The root that the host ends with. -/
theorem root_of_update (hE : Mpt.Faithful C.toEnv) (hb : build C input = .ok s)
    (hparent : input.ancestorHeaders.head? = some parent) (hS : S.Sound C parent.stateRoot)
    (haddr : (bundle.map Prod.fst).Nodup)
    (hinj : Set.InjOn C.keccak256 {b | HashedBefore C S input bundle b})
    (hsets : ∀ entry ∈ bundle, Sets entry.2)
    (hbare : ∀ entry ∈ bundle, s.storageTries (C.keccak256 entry.1.bytes) = none →
      entry.2.wasDestroyed = false → S.storage (C.keccak256 entry.1.bytes) = null)
    (h : updateFromBundleState C.toStateEnv bundle s = (.ok (), s')) :
    (Mpt.hash C.toEnv s'.stateTrie).1 = .ok (Trie.hash C.toEnv (S.stateAfter C bundle)) := by
  have hbefore : Set.InjOn C.keccak256 {b | HashedEagerly C S input []
      ⟨s.stateTrie, fun _ => none⟩ b} := hinj.mono fun _ h => hashedBefore_of_eagerly h
  obtain ⟨T, hT, hstands, hstorage⟩ := exists_tables hE hb hparent hS hbefore
  rw [Mpt.eq_canonical_valueAt hS.state] at hstands
  have hready : ∀ entry ∈ bundle, Ready C S s (C.keccak256 entry.1.bytes) entry.2 := by
    intro entry he
    refine ⟨fun m hm => ?_, hbare entry he⟩
    have hrel := hT.storage (C.keccak256 entry.1.bytes)
    rw [hm] at hrel
    cases ht : T.storage (C.keccak256 entry.1.bytes) with
    | none =>
      rw [ht] at hrel
      cases hrel
    | some t =>
      rw [ht] at hrel
      cases hrel with
      | some hr => exact ⟨_, hr, hstorage _ t ht⟩
  have hnd := nodup_hashes hinj haddr fun _ he => .address he
  obtain ⟨P, hr, hst⟩ := update_stands hS hsets hnd hready hT.state hstands h
  obtain ⟨m', hm', -⟩ := Mpt.hash_spec (Mpt.Rep.reads hr) hr.depth_le
  rw [hm', hst.hash_eq, FullState.stateAfter, FullState.writeAccounts, List.map_map]
  rfl

end Host

/-! ## The execution of the guest -/

section Guest

open StreamingEthereumState

variable {C : ClientEnv} {S : FullState} {input : ClientExecutorInput} {bundle : Bundle}

/-- The reads of a call. -/
def DbCall.reads (C : ClientEnv) : DbCall → List ReadCall
  | .basic address => [.readAccount (C.keccak256 address.bytes)]
  | .codeByHash code => [.readBytecode code]
  | .storage address index => [.loadStorageTrie (C.keccak256 address.bytes),
      .readSlot (C.keccak256 address.bytes) (C.keccak256 index.toBeBytes)]

theorem session_append : ∀ (calls calls' : List ReadCall) (s : StreamingEthereumState),
    (session C (calls ++ calls') s).2 = (session C calls' (session C calls s).2).2
  | [], _, _ => rfl
  | call :: calls, calls', s => session_append calls calls' (readCall C call s).2

theorem session_of_call {call : DbCall} {result : DbResult} {s s' : StreamingEthereumState}
    (h : streamingCall C call s = (.ok result, s')) : (session C (call.reads C) s).2 = s' := by
  cases call with
  | basic address =>
    obtain ⟨account, s₁, h₁, h₂⟩ := Exec.of_bind_ok h
    obtain rfl : s₁ = s' := congrArg Prod.snd h₂
    have hread : readCall C (.readAccount (C.keccak256 address.bytes)) s =
        (.ok (.account account), s₁) := Exec.bind_ok h₁
    simp only [DbCall.reads, session, hread]
  | codeByHash hash =>
    obtain ⟨code, s₁, h₁, h₂⟩ := Exec.of_bind_ok h
    obtain rfl : s₁ = s' := congrArg Prod.snd h₂
    have hread : readCall C (.readBytecode hash) s = (.ok (.bytecode code), s₁) :=
      Exec.bind_ok h₁
    simp only [DbCall.reads, session, hread]
  | storage address index =>
    obtain ⟨_, s₁, h₁, h₂⟩ := Exec.of_bind_ok h
    have hload : readCall C (.loadStorageTrie (C.keccak256 address.bytes)) s =
        (.ok .loaded, s₁) := Exec.bind_ok h₁
    rw [Exec.bind_ok (Exec.read_apply _ s₁)] at h₂
    cases hm : s₁.storageTries (C.keccak256 address.bytes) with
    | none => simp [hm] at h₂
    | some m =>
      simp only [hm] at h₂
      obtain ⟨value, s₂, hval, h₃⟩ := Exec.of_bind_ok h₂
      obtain ⟨hvalue, hs₂⟩ := Exec.of_ofExcept_ok hval
      have hs' : s₂ = s' := congrArg Prod.snd h₃
      have hslot : readSlot C (C.keccak256 address.bytes) (C.keccak256 index.toBeBytes) s₁ =
          (.ok value, s₁) := by
        unfold readSlot
        rw [Exec.bind_ok (Exec.read_apply _ s₁)]
        simp only [hm, Exec.ofExcept_apply, hvalue]
      have hread : readCall C (.readSlot (C.keccak256 address.bytes)
          (C.keccak256 index.toBeBytes)) s₁ = (.ok (.slot value), s₁) := Exec.bind_ok hslot
      simp only [DbCall.reads, session, hload, hread]
      exact hs₂.symm.trans hs'

/-- An execution that returned is a session of its reads. -/
theorem session_of_calls : ∀ {calls : List DbCall} {results : List DbResult}
    {s s' : StreamingEthereumState},
    Exec.collect (streamingCall C) calls s = (.ok results, s') →
    (session C (calls.flatMap (DbCall.reads C)) s).2 = s'
  | [], _, s, s', h => congrArg Prod.snd h
  | call :: calls, _, s, s', h => by
    obtain ⟨result, s₁, h₁, h⟩ := Exec.of_bind_ok h
    obtain ⟨results, s₂, h₂, h₃⟩ := Exec.of_bind_ok h
    obtain rfl : s₂ = s' := congrArg Prod.snd h₃
    rw [List.flatMap_cons, session_append, session_of_call h₁, session_of_calls h₂]

/-- The guest ends with the root of the host, for a bundle that only sets accounts and slots, if
the host has the storage tries of the accounts with storage. -/
theorem update_agrees (hE : Mpt.Faithful C.toEnv)
    (hshort : ∀ account, (C.encodeAccount account).length < 2 ^ 63)
    (X : Handover C input S bundle) (hroot : X.root = X.parent.stateRoot)
    (hinj : Set.InjOn C.keccak256 {b | HashedInRun C S X.items bundle X.guest b})
    (hsets : ∀ entry ∈ bundle, Sets entry.2)
    (hbare : ∀ entry ∈ bundle, X.state.storageTries (C.keccak256 entry.1.bytes) = none →
      entry.2.wasDestroyed = false → S.storage (C.keccak256 entry.1.bytes) = null)
    {t : EthereumState} {s' : StreamingEthereumState}
    (hhost : EthereumState.updateFromBundleState C.toStateEnv bundle X.state = (.ok (), t))
    (hguest : updateFromBundleState C bundle X.guest = (.ok (), s')) :
    (stateRoot C s').1 = .ok (Trie.hash C.toEnv (S.stateAfter C bundle)) ∧
      (Mpt.hash C.toEnv t.stateTrie).1 = .ok (Trie.hash C.toEnv (S.stateAfter C bundle)) := by
  refine ⟨?_, root_of_update hE X.built X.head X.sound X.addresses X.injOn hsets hbare hhost⟩
  obtain ⟨hopened, hgrows, -⟩ := session_run (C := C) (X.calls.flatMap (DbCall.reads C))
    (opened_new (C := C) X.header X.root X.items)
  rw [session_of_calls X.replay] at hopened hgrows
  have hparent : X.guest.parentStateRoot = X.parent.stateRoot := hgrows.root.trans hroot
  refine hopened.postRoot hE hshort (hparent ▸ X.sound) hinj X.addresses (fun entry hentry => ?_)
    hguest
  obtain ⟨e, he, rfl⟩ := mem_sortedAccounts.mp hentry
  exact ⟨(hsets e he).info, (hsets e he).slots⟩

end Guest

/-! ## One account with one slot, read and written -/

section Sample

open StreamingEthereumState

theorem oneTurn_code : OneTurn (guestFor codeReads) 1 where
  count := by decide +kernel
  loaded := by decide +kernel
  input := by decide +kernel
  decoded := by decide +kernel
  processed := by decide +kernel

theorem mem_readStream_of_raw {bytes : Bytes} (h : .raw bytes ∈ (streamFor codeReads).2) :
    .raw bytes ∈ readStream := by
  have hall : ∀ item ∈ (streamFor codeReads).2, item ∈ readStream ∨
      item = .witness (.stateChunk ⟨[], readRoot, 1, 0⟩) := by decide +kernel
  exact (hall _ h).resolve_right (by simp)

theorem injOn_guest : Set.InjOn readEnv.keccak256
    {b | HashedInRun readEnv readState codeHandover.items readBundle codeHandover.guest b} := by
  have hno : Mpt.NoCollision readEnv.toEnv readStrings := by decide
  have hmem : ∀ b, HashedInRun readEnv readState (streamFor codeReads).2 readBundle
      (guestFor codeReads) b → b ∈ readStrings := fun b h =>
    mem_readStrings oneTurn_code (fun _ hraw => mem_readStream_of_raw hraw) h
  simp only [codeHandover]
  exact fun x hx y hy => hno x (hmem x hx) y (hmem y hy)

theorem update_agrees_sample :
    (updateFromBundleState readEnv readBundle codeHandover.guest).1 = .ok () ∧
    (EthereumState.updateFromBundleState readEnv.toStateEnv readBundle
      codeHandover.state).1 = .ok () ∧
    (stateRoot readEnv (updateFromBundleState readEnv readBundle codeHandover.guest).2).1 =
      .ok (Trie.hash readEnv.toEnv (readState.stateAfter readEnv readBundle)) ∧
    (Mpt.hash readEnv.toEnv (EthereumState.updateFromBundleState readEnv.toStateEnv readBundle
      codeHandover.state).2.stateTrie).1 =
      .ok (Trie.hash readEnv.toEnv (readState.stateAfter readEnv readBundle)) := by
  have hguest : (updateFromBundleState readEnv readBundle codeHandover.guest).1 = .ok () := by
    decide +kernel
  have hshort : ∀ account, (readEnv.encodeAccount account).length < 2 ^ 63 := fun account =>
    (Rlp.length_encodeAccount_le account).trans_lt (by norm_num)
  have hup : ∀ entry ∈ readBundle, entry.2.info ≠ none ∧ ∀ slot ∈ entry.2.storage, slot.2 ≠ 0 := by
    simp [readBundle]
  have hsets : ∀ entry ∈ readBundle, Sets entry.2 := fun entry he =>
    ⟨(hup entry he).1, (hup entry he).2⟩
  have hhost : (EthereumState.updateFromBundleState readEnv.toStateEnv readBundle
      codeHandover.state).1 = .ok () := prepared_code.eager
  refine ⟨hguest, hhost, ?_⟩
  exact update_agrees faithful_readEnv hshort codeHandover rfl injOn_guest hsets
    (fun entry he hnone => by
      have hsome : (codeHandover.state.storageTries (readEnv.keccak256 entry.1.bytes)).isSome :=
        prepared_code.supplied entry he
      rw [hnone] at hsome
      cases hsome) (Exec.eq_of_fst hhost) (Exec.eq_of_fst hguest)

end Sample

end CenoReth
