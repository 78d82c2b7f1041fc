/-
The root after a streamed update.

The frontier is known in part, and so is every chunk.  While the chunks are
processed, the frontier shows the parent's state trie with the accounts that were
consumed so far written into it.  A chunk shows the part of this trie below its
prefix, since its root was compared with the slot, and it still shows it while
accounts are inserted: an insertion into a part of a trie stops or does what it
does to the whole.  The new root of the chunk is a digest of the updated part.
The accounts that are left are not written yet, so what a chunk holds for them is
what the parent holds.
-/
import CenoReth.State.After

namespace CenoReth

open Patricia Patricia.Radix Trie

variable {C : ClientEnv}

namespace StreamingEthereumState

/-! ## Witnesses of a chunk -/

theorem onStream_ok {α : Type} {x : StreamM α} {cs cs' : ChunkState} {a : α}
    (h : onStream x cs = (.ok a, cs')) :
    x cs.stream = (.ok a, cs'.stream) ∧ cs' = { cs with stream := cs'.stream } := by
  simp only [onStream, Prod.mk.injEq] at h
  obtain ⟨h₁, rfl⟩ := h
  exact ⟨Prod.ext h₁ rfl, rfl⟩

/-- One witness.  It is an account: for a storage trie the input is borrowed twice. -/
theorem readChunkWitness_ok {p : List UInt8} {cs cs' : ChunkState}
    (h : readChunkWitness C p cs = (.ok (), cs')) :
    cs'.chunk = cs.chunk ∧ cs'.stream.storageTries = cs.stream.storageTries ∧
      cs'.postStorageTries = cs.postStorageTries := by
  obtain ⟨cs₀, hmatch, rfl⟩ := borrowInput_ok h
  clear h
  obtain ⟨witness, cs₁, h₁, h⟩ := Exec.of_bind_ok hmatch
  obtain ⟨h₁, hcs₁⟩ := onStream_ok h₁
  obtain ⟨-, hs₁⟩ := readWitnessInput_ok h₁
  cases witness with
  | account accountInput =>
    dsimp only at h
    split at h
    · simp at h
    obtain ⟨account, cs₂, h₂, h⟩ := Exec.of_bind_ok h
    obtain ⟨hcs₂, -⟩ := chunkAccount_ok h₂
    split at h
    · simp at h
    simp only [Exec.pure_apply, Prod.mk.injEq, true_and] at h
    rw [← h, hcs₂]
    exact ⟨by rw [hcs₁], by rw [hs₁], by rw [hcs₁]⟩
  | storageTrie header =>
    obtain ⟨post, cs₂, hread, h⟩ := Exec.of_bind_ok h
    simp only [Exec.read_apply, Prod.mk.injEq, Except.ok.injEq] at hread
    obtain ⟨rfl, rfl⟩ := hread
    dsimp only at h
    split at h
    · simp at h
    obtain ⟨account, cs₂, h₂, h⟩ := Exec.of_bind_ok h
    obtain ⟨hcs₂, -⟩ := chunkAccount_ok h₂
    rw [Exec.bind_error (borrowInput_held _ (by rw [hcs₂, hcs₁]))] at h
    simp at h
  | _ => simp at h

/-- The witnesses of a chunk. -/
theorem readChunkWitnesses_ok {p : List UInt8} : ∀ {count : Nat} {cs cs' : ChunkState},
    readChunkWitnesses C p count cs = (.ok (), cs') →
    cs'.chunk = cs.chunk ∧ cs'.stream.storageTries = cs.stream.storageTries ∧
      cs'.postStorageTries = cs.postStorageTries
  | 0, cs, cs', h => by
    simp only [readChunkWitnesses, Exec.pure_apply, Prod.mk.injEq, true_and] at h
    subst h
    exact ⟨rfl, rfl, rfl⟩
  | count + 1, cs, cs', h => by
    rw [readChunkWitnesses] at h
    obtain ⟨_, cs₁, h₁, h₂⟩ := Exec.of_bind_ok h
    obtain ⟨hchunk₁, htries₁, hpost₁⟩ := readChunkWitness_ok h₁
    obtain ⟨hchunk₂, htries₂, hpost₂⟩ := readChunkWitnesses_ok h₂
    exact ⟨hchunk₂.trans hchunk₁, htries₂.trans htries₁, hpost₂.trans hpost₁⟩

/-! ## Storage roots -/

/-- The arena is part of the parent's storage trie of an account. -/
def Stored (C : ClientEnv) (S : FullState) (a : B256) (m : Mpt) : Prop :=
  ∃ P, Mpt.Represents C.toEnv m P ∧ Mpt.Stands C.toEnv P (S.storage a)

theorem isTrie_null : IsTrie 64 (null : Trie) := ⟨trivial, trivial, trivial⟩

theorem isList_of_isTrie {n : Nat} {t : Trie} (h : IsTrie n t) (hne : t ≠ null) : isList t := by
  rcases node_cases t with rfl | rfl | ⟨d, rfl⟩ | hl
  · exact absurd rfl hne
  · exact absurd rfl h.normal.ne_hole
  · exact h.resolved.elim
  · exact hl

/-- A storage trie with the parent's root. -/
theorem stored_of_decoded {H : Set Bytes} {S : FullState} {root : B256}
    (hE : Mpt.Faithful C.toEnv) (hinj : Set.InjOn C.keccak256 H) (h0 : [Rlp.emptyStringCode] ∈ H)
    (hS : S.Sound C root) {a : B256} (hnodes : Mpt.nodes C.toEnv (S.storage a) ⊆ H)
    {bytes rest : Bytes} {numNodes : Nat} {m : Mpt}
    (hd : Mpt.decodeTrie C.toEnv bytes numNodes = .ok (m, rest))
    (hhash : (Mpt.hash C.toEnv m).1 = .ok (Trie.hash C.toEnv (S.storage a)))
    (hb : ∀ b ∈ Mpt.hashedNodes C.toEnv bytes, b ∈ H) : Stored C S a m :=
  Mpt.decodeTrie_stands hE hinj h0 hd hhash
    (Mpt.small_of_sized (hS.storage a).sized (by omega) (hS.storageValues a))
    (hS.storage a).normal (hS.storage a).resolved hb hnodes

theorem updatedStorageRoot_ok {T P : Trie} {m : Mpt} {storage : List (U256 × U256)} {root : B256}
    (hT : IsTrie 64 T) (hne : ∀ slot ∈ storage, slot.2 ≠ 0) (hr : Mpt.Represents C.toEnv m P)
    (hs : Mpt.Stands C.toEnv P T) (h : updatedStorageRoot C storage m = .ok root) :
    root = Trie.hash C.toEnv
      (canonical 64 (Mpt.changeMap (Mpt.valueAt T) (storage.map (FullState.slotChange C)))) := by
  refine updateStorageTrie_stands hne hr ?_ (Exec.of_mapError_ok h)
  rw [← Mpt.eq_canonical_valueAt hT]
  exact hs

/-- Storage tries were taken; the chunk is as it was. -/
structure Taken (cs cs' : ChunkState) : Prop where
  chunk : cs'.chunk = cs.chunk
  stored : ∀ a m, cs'.stream.storageTries a = some m → cs.stream.storageTries a = some m
  post : cs.postStorageTries = [] → cs'.postStorageTries = []

theorem Taken.refl (cs : ChunkState) : Taken cs cs := ⟨rfl, fun _ _ h => h, id⟩

theorem Taken.trans (cs cs' cs'' : ChunkState) (h : Taken cs cs') (h' : Taken cs' cs'') :
    Taken cs cs'' where
  chunk := h'.chunk.trans h.chunk
  stored a m hm := h.stored a m (h'.stored a m hm)
  post hp := h'.post (h.post hp)

theorem takeStorageTrie_ok {a : B256} {cs cs' : ChunkState} {o : Option Mpt}
    (h : takeStorageTrie a cs = (.ok o, cs')) : o = cs.stream.storageTries a ∧ Taken cs cs' := by
  unfold takeStorageTrie at h
  obtain ⟨o', cs₁, hread, h⟩ := Exec.of_bind_ok h
  simp only [Exec.read_apply, Prod.mk.injEq, Except.ok.injEq] at hread
  obtain ⟨rfl, rfl⟩ := hread
  obtain ⟨_, cs₂, hwrite, h⟩ := Exec.of_bind_ok h
  simp only [onStream, Exec.write_apply, Prod.mk.injEq, true_and] at hwrite
  simp only [Exec.pure_apply, Prod.mk.injEq, Except.ok.injEq] at h
  obtain ⟨rfl, rfl⟩ := h
  subst hwrite
  refine ⟨rfl, rfl, fun b m hm => ?_, id⟩
  by_cases hb : b = a
  · subst hb
    simp at hm
  · simpa [Function.update_of_ne hb] using hm

theorem takePostStorageTrie_ok {a : B256} {cs cs' : ChunkState} {o : Option Mpt}
    (h : takePostStorageTrie a cs = (.ok o, cs')) :
    o = cs.postStorageTries.lookup a ∧ Taken cs cs' := by
  unfold takePostStorageTrie at h
  obtain ⟨o', cs₁, hread, h⟩ := Exec.of_bind_ok h
  simp only [Exec.read_apply, Prod.mk.injEq, Except.ok.injEq] at hread
  obtain ⟨rfl, rfl⟩ := hread
  obtain ⟨_, cs₂, hwrite, h⟩ := Exec.of_bind_ok h
  simp only [Exec.write_apply, Prod.mk.injEq, true_and] at hwrite
  simp only [Exec.pure_apply, Prod.mk.injEq, Except.ok.injEq] at h
  obtain ⟨rfl, rfl⟩ := h
  subst hwrite
  refine ⟨rfl, rfl, fun b m hm => hm, fun hp => ?_⟩
  rw [show cs.postStorageTries = [] from hp]
  rfl

section Roots

variable {H : Set Bytes} {S : FullState} {root : B256} {a : B256} {account : BundleAccount}
variable {old : Option TrieAccount} {cs cs' : ChunkState} {storageRoot : B256}

/-- A parent without storage. -/
theorem storage_eq_null (hE : Mpt.Faithful C.toEnv) (hinj : Set.InjOn C.keccak256 H)
    (h0 : [Rlp.emptyStringCode] ∈ H) (hS : S.Sound C root)
    (hnodes : Mpt.nodes C.toEnv (S.storage a) ⊆ H)
    (h : Trie.hash C.toEnv (S.storage a) = C.emptyRootHash) : S.storage a = null := by
  by_contra hne
  have hl := isList_of_isTrie (hS.storage a) hne
  exact Mpt.hash_ne_emptyRoot hinj hE.emptyRoot h0 hl (hnodes (.inl ⟨hl, rfl⟩)) h

/-- The storage root of an account whose storage changed. -/
theorem changedStorageRoot_ok (hE : Mpt.Faithful C.toEnv) (hinj : Set.InjOn C.keccak256 H)
    (h0 : [Rlp.emptyStringCode] ∈ H) (hS : S.Sound C root)
    (hnodes : Mpt.nodes C.toEnv (S.storage a) ⊆ H) (hold : S.Stores C a old)
    (hne : ∀ slot ∈ account.storage, slot.2 ≠ 0)
    (hstored : ∀ m, cs.stream.storageTries a = some m → Stored C S a m)
    (hpost : cs.postStorageTries = [])
    (h : changedStorageRoot C a account old cs = (.ok storageRoot, cs')) :
    storageRoot = Trie.hash C.toEnv (S.storageAfter C a account) ∧ Taken cs cs' := by
  unfold changedStorageRoot at h
  have hfresh : Mpt.Stands C.toEnv null null := .inl .ofNull
  unfold FullState.storageAfter FullState.storageBefore
  split at h
  · rename_i hdestroyed
    simp only [Exec.ofExcept_apply, Prod.mk.injEq] at h
    rw [if_pos hdestroyed]
    exact ⟨updatedStorageRoot_ok isTrie_null hne Mpt.represents_new hfresh h.1, h.2 ▸ .refl cs⟩
  · rename_i hdestroyed
    rw [if_neg hdestroyed]
    obtain ⟨o, cs₁, h₁, h⟩ := Exec.of_bind_ok h
    obtain ⟨ho, htaken₁⟩ := takeStorageTrie_ok h₁
    cases o with
    | some m =>
      simp only [Exec.ofExcept_apply, Prod.mk.injEq] at h
      obtain ⟨P, hr, hs⟩ := hstored m ho.symm
      exact ⟨updatedStorageRoot_ok (hS.storage a) hne hr hs h.1, h.2 ▸ htaken₁⟩
    | none =>
      obtain ⟨o', cs₂, h₂, h⟩ := Exec.of_bind_ok h
      obtain ⟨ho', htaken₂⟩ := takePostStorageTrie_ok h₂
      cases o' with
      | some m =>
        rw [htaken₁.post hpost] at ho'
        cases ho'
      | none =>
        dsimp only at h
        split at h
        · rename_i hempty
          simp only [Exec.ofExcept_apply, Prod.mk.injEq] at h
          rw [← hS.storageRoot a old hold] at hempty
          rw [storage_eq_null hE hinj h0 hS hnodes hempty]
          exact ⟨updatedStorageRoot_ok isTrie_null hne Mpt.represents_new hfresh h.1,
            h.2 ▸ htaken₁.trans _ _ _ htaken₂⟩
        · simp at h

/-- The storage root of an account whose storage is untouched. -/
theorem keptStorageRoot_ok (hS : S.Sound C root) (hold : S.Stores C a old)
    (hnone : account.storage = []) (hkeep : account.wasDestroyed = false)
    (h : keptStorageRoot C a old cs = (.ok storageRoot, cs')) :
    storageRoot = Trie.hash C.toEnv (S.storageAfter C a account) ∧ Taken cs cs' := by
  have hafter : S.storageAfter C a account = S.storage a := by
    unfold FullState.storageAfter FullState.storageBefore
    simp only [hkeep, Bool.false_eq_true, if_false, hnone, List.map_nil, Mpt.changeMap]
    exact (Mpt.eq_canonical_valueAt (hS.storage a)).symm
  rw [hafter, hS.storageRoot a old hold]
  unfold keptStorageRoot at h
  obtain ⟨o, cs₁, h₁, h⟩ := Exec.of_bind_ok h
  obtain ⟨-, htaken⟩ := takeStorageTrie_ok h₁
  cases o with
  | none =>
    simp only [Exec.pure_apply, Prod.mk.injEq, Except.ok.injEq] at h
    exact ⟨h.1.symm, h.2 ▸ htaken⟩
  | some m =>
    obtain ⟨actual, cs₂, h₂, h⟩ := Exec.of_bind_ok h
    simp only [Exec.ofExcept_apply, Prod.mk.injEq] at h₂
    split at h
    · simp at h
    simp only [Exec.pure_apply, Prod.mk.injEq, Except.ok.injEq] at h
    exact ⟨h.1.symm, h.2 ▸ h₂.2 ▸ htaken⟩

end Roots

/-! ## The accounts of a chunk -/

/-- One account that exists after the block. -/
theorem updateChunkAccount_ok {p : List UInt8} {a : B256} {account : BundleAccount}
    {info : AccountInfo} {cs cs' : ChunkState} (hinfo : account.info = some info)
    (h : updateChunkAccount C p a account cs = (.ok (), cs')) :
    ∃ old storageRoot cs₁ b, ChunkHolds C p cs.chunk a old ∧
      (((account.wasDestroyed = true ∨ account.storage ≠ []) ∧
          changedStorageRoot C a account old cs = (.ok storageRoot, cs₁)) ∨
        ((account.wasDestroyed = false ∧ account.storage = []) ∧
          keptStorageRoot C a old cs = (.ok storageRoot, cs₁))) ∧
      Mpt.insertNibbles (suffix p a)
        (C.encodeAccount ⟨info.nonce, info.balance, storageRoot, info.codeHash⟩) cs₁.chunk =
        (.ok b, cs'.chunk) ∧
      cs' = { cs₁ with chunk := cs'.chunk } := by
  unfold updateChunkAccount at h
  obtain ⟨old, cs₀, h₀, h⟩ := Exec.of_bind_ok h
  obtain ⟨hcs₀, hholds⟩ := chunkAccount_ok h₀
  rw [hcs₀] at h
  simp only [hinfo] at h
  have hinsert : ∀ {storageRoot : B256} {cs₁ : ChunkState},
      onChunk (do
        let _ ← Mpt.insertNibbles (suffix p a)
          (C.encodeAccount ⟨info.nonce, info.balance, storageRoot, info.codeHash⟩)) cs₁ =
        (.ok (), cs') →
      ∃ b, Mpt.insertNibbles (suffix p a)
        (C.encodeAccount ⟨info.nonce, info.balance, storageRoot, info.codeHash⟩) cs₁.chunk =
          (.ok b, cs'.chunk) ∧ cs' = { cs₁ with chunk := cs'.chunk } := by
    intro storageRoot cs₁ hi
    simp only [onChunk, Prod.mk.injEq] at hi
    obtain ⟨hi, rfl⟩ := hi
    obtain ⟨b, m, hb, hm⟩ := Exec.of_bind_ok (Prod.ext (Exec.of_mapError_ok hi) rfl)
    simp only [Exec.pure_apply, Prod.mk.injEq, true_and] at hm
    exact ⟨b, by rw [hb, hm], rfl⟩
  split at h
  · rename_i hcond
    obtain ⟨storageRoot, cs₁, h₁, h⟩ := Exec.of_bind_ok h
    obtain ⟨b, hb, hcs'⟩ := hinsert h
    exact ⟨old, storageRoot, cs₁, b, hholds, .inl ⟨hcond, h₁⟩, hb, hcs'⟩
  · rename_i hcond
    obtain ⟨storageRoot, cs₁, h₁, h⟩ := Exec.of_bind_ok h
    obtain ⟨b, hb, hcs'⟩ := hinsert h
    refine ⟨old, storageRoot, cs₁, b, hholds, .inr ⟨?_, h₁⟩, hb, hcs'⟩
    simpa using hcond

/-- A chunk while accounts are written into it: it shows the part below its prefix of the state
trie with the accounts written that were consumed so far. -/
structure Writing (C : ClientEnv) (H : Set Bytes) (S : FullState) (p : List Nibble) (X : Trie)
    (done : List (B256 × BundleAccount)) (cs : ChunkState) (Q x : Trie) : Prop where
  represents : Mpt.Represents C.toEnv cs.chunk Q
  view : View C.toEnv Q x
  backed : Mpt.Backed C.toEnv H Q x
  subtree : (S.writeAccounts C done).subtree p = some x
  patched : S.writeAccounts C done = X.patch (single p x)
  stored : ∀ a m, cs.stream.storageTries a = some m → Stored C S a m
  post : cs.postStorageTries = []

section Accounts

variable {H : Set Bytes} {S : FullState} {root : B256} {p : List Nibble} {X : Trie}
variable {done : List (B256 × BundleAccount)} {cs cs' : ChunkState} {Q x : Trie}

theorem get_writeAccounts (done : List (B256 × BundleAccount)) (a : B256) :
    (S.writeAccounts C done).get (Hp.keyNibs a.bytes) =
      .ok (Mpt.changeMap (Mpt.valueAt S.state) (done.map (S.accountChange C))
        (Hp.keyNibs a.bytes)) :=
  get_canonical _ (Mpt.length_keyNibs_b256 a)

/-- An account that was not written yet. -/
theorem get_unwritten (hS : S.Sound C root) {a : B256} (h : ∀ entry ∈ done, entry.1 ≠ a) :
    (S.writeAccounts C done).get (Hp.keyNibs a.bytes) = S.state.get (Hp.keyNibs a.bytes) := by
  rw [get_writeAccounts, Mpt.changeMap_of_not_mem]
  · conv_rhs => rw [Mpt.eq_canonical_valueAt hS.state]
    rw [get_canonical _ (Mpt.length_keyNibs_b256 a)]
  · intro change hc
    obtain ⟨entry, hentry, rfl⟩ := List.mem_map.mp hc
    exact fun heq => h entry hentry (B256.ext (Hp.keyNibs_injective heq))

/-- What a chunk holds for an account that was not written yet is the parent's. -/
theorem stores_of_unwritten {chunk : Mpt} (hS : S.Sound C root)
    (hrep : Mpt.Represents C.toEnv chunk Q) (hview : View C.toEnv Q x)
    (hsub : (S.writeAccounts C done).subtree p = some x) {a : B256}
    (hin : p <+: Hp.keyNibs a.bytes) (hnew : ∀ entry ∈ done, entry.1 ≠ a)
    {old : Option TrieAccount} (h : ChunkHolds C (p.map Nibble.toByte) chunk a old) :
    S.Stores C a old := by
  obtain ⟨r, hr⟩ := hin
  unfold ChunkHolds at h
  rw [suffix_eq hr.symm] at h
  obtain ⟨o, ho, hdec⟩ := (Mpt.getRlpNibbles_eq.2 old).mp h
  rw [Mpt.getNibbles_spec hrep] at ho
  have hget : x.get r = .ok o := by
    have hQ := Exec.of_mapError_ok ho
    rcases hview.get_cases r with ⟨d, hd⟩ | heq
    · rw [hd] at hQ
      cases hQ
    · rw [← heq, hQ]
  refine ⟨o, ?_, hdec⟩
  rw [← get_unwritten hS hnew, ← hr, get_subtree hsub, hget]

theorem free_single (p : List Nibble) (u : Trie) : Free (single p u) p := by
  intro q hq hne
  exact absurd (Function.update_of_ne hne _ _) hq

theorem patch_single_patch {x₀ u u' : Trie} (hX : X.subtree p = some x₀) :
    (X.patch (single p u)).patch (single p u') = X.patch (single p u') := by
  rw [patch_patch_single (free_single p u) hX]
  unfold single
  rw [Function.update_idem]

/-- One account. -/
theorem Writing.step (hE : Mpt.Faithful C.toEnv) (hinj : Set.InjOn C.keccak256 H)
    (h0 : [Rlp.emptyStringCode] ∈ H) (hS : S.Sound C root)
    (hnodes : ∀ a, Mpt.nodes C.toEnv (S.storage a) ⊆ H) {x₀ : Trie} (hX : X.subtree p = some x₀)
    {a : B256} {account : BundleAccount}
    (hin : p <+: Hp.keyNibs a.bytes) (hnew : ∀ entry ∈ done, entry.1 ≠ a)
    (hinfo : account.info ≠ none) (hne : ∀ slot ∈ account.storage, slot.2 ≠ 0)
    (hw : Writing C H S p X done cs Q x)
    (h : updateChunkAccount C (p.map Nibble.toByte) a account cs = (.ok (), cs')) :
    ∃ Q' x', Writing C H S p X (done ++ [(a, account)]) cs' Q' x' ∧ x' ≠ null := by
  obtain ⟨info, hinfo⟩ := Option.ne_none_iff_exists'.mp hinfo
  obtain ⟨old, storageRoot, cs₁, b, hholds, hroot, hins, hcs'⟩ := updateChunkAccount_ok hinfo h
  have hold := stores_of_unwritten hS hw.represents hw.view hw.subtree hin hnew hholds
  have hafter : storageRoot = Trie.hash C.toEnv (S.storageAfter C a account) ∧ Taken cs cs₁ := by
    rcases hroot with ⟨-, hc⟩ | ⟨⟨hkeep, hnone⟩, hk⟩
    · exact changedStorageRoot_ok hE hinj h0 hS (hnodes a) hold hne (hw.stored a) hw.post hc
    · exact keptStorageRoot_ok hS hold hnone hkeep hk
  obtain ⟨hstorage, htaken⟩ := hafter
  -- the insertion below the prefix is an insertion into the whole trie
  obtain ⟨r, hr⟩ := hin
  have haccount : (⟨info.nonce, info.balance, storageRoot, info.codeHash⟩ : TrieAccount) =
      S.accountAfter C a account info := by rw [hstorage]; rfl
  rw [suffix_eq hr.symm, htaken.chunk, haccount] at hins
  have hlen : (p ++ r).length = 64 := by rw [hr, Mpt.length_keyNibs_b256]
  have hrlen : r.length = 64 - p.length := by
    rw [List.length_append] at hlen
    omega
  have hx := Mpt.subtree_canonical hw.subtree
  have hview := hw.view
  rw [hx] at hview
  obtain ⟨Q', hQ', hrep', hview'⟩ := Mpt.insertNibbles_view hw.represents hview hrlen hins
  have hxins := insert_canonical (δ := B256) (below p
    (Mpt.changeMap (Mpt.valueAt S.state) (done.map (S.accountChange C)))) hrlen
      (C.encodeAccount (S.accountAfter C a account info))
  rw [← hx] at hxins
  have hsub := Mpt.insert_subtree hxins hw.subtree
  have hwhole := insert_canonical (δ := B256) (Mpt.changeMap (Mpt.valueAt S.state)
    (done.map (S.accountChange C))) hlen (C.encodeAccount (S.accountAfter C a account info))
  rw [← FullState.writeAccounts, hsub] at hwhole
  have hwrite : S.writeAccounts C (done ++ [(a, account)]) = canonical 64 (Function.update
      (Mpt.changeMap (Mpt.valueAt S.state) (done.map (S.accountChange C))) (p ++ r)
        (some (C.encodeAccount (S.accountAfter C a account info)))) := by
    rw [FullState.writeAccounts, List.map_append, Mpt.changeMap_append, hr]
    simp [FullState.accountChange, hinfo, Mpt.changeMap, Mpt.Change.value]
  rw [Except.ok.injEq, Prod.mk.injEq, ← hwrite] at hwhole
  have hpatch := hwhole.2.symm
  refine ⟨Q', _, ⟨hrep', hview', hw.backed.insert hw.view hQ' hxins, ?_, ?_, ?_, ?_⟩,
    insert_ne_null hxins⟩
  · rw [hpatch, subtree_patch (free_single _ _) hw.subtree]
    simp [single]
  · rw [hpatch, hw.patched, patch_single_patch hX]
  · intro b m hm
    rw [hcs'] at hm
    exact hw.stored b m (htaken.stored b m hm)
  · rw [hcs']
    exact htaken.post hw.post

/-- Accounts that exist after the block, with slots that are only set. -/
def Upserts (accounts : List (B256 × BundleAccount)) : Prop :=
  ∀ entry ∈ accounts, entry.2.info ≠ none ∧ ∀ slot ∈ entry.2.storage, slot.2 ≠ 0

/-- The accounts of a chunk. -/
theorem Writing.run (hE : Mpt.Faithful C.toEnv) (hinj : Set.InjOn C.keccak256 H)
    (h0 : [Rlp.emptyStringCode] ∈ H) (hS : S.Sound C root)
    (hnodes : ∀ a, Mpt.nodes C.toEnv (S.storage a) ⊆ H) {x₀ : Trie} (hX : X.subtree p = some x₀) :
    ∀ {accounts done : List (B256 × BundleAccount)} {cs : ChunkState} {Q x : Trie},
    (∀ entry ∈ accounts, p <+: Hp.keyNibs entry.1.bytes) → Upserts accounts →
    ((done ++ accounts).map Prod.fst).Nodup → Writing C H S p X done cs Q x →
    updateChunkAccounts C (p.map Nibble.toByte) accounts cs = (.ok (), cs') →
    ∃ Q' x', Writing C H S p X (done ++ accounts) cs' Q' x' ∧ (accounts = [] ∨ x' ≠ null)
  | [], done, cs, Q, x, _, _, _, hw, h => by
    simp only [updateChunkAccounts, Exec.pure_apply, Prod.mk.injEq, true_and] at h
    rw [List.append_nil]
    exact ⟨Q, x, h ▸ hw, .inl rfl⟩
  | (a, account) :: accounts, done, cs, Q, x, hmem, hup, hnodup, hw, h => by
    rw [updateChunkAccounts] at h
    obtain ⟨_, cs₁, h₁, h₂⟩ := Exec.of_bind_ok h
    have hin := hmem (a, account) (by simp)
    obtain ⟨hinfo, hne⟩ := hup (a, account) (by simp)
    have hnew : ∀ entry ∈ done, entry.1 ≠ a := by
      intro entry hentry heq
      rw [List.map_append, List.map_cons, List.nodup_append] at hnodup
      exact hnodup.2.2 entry.1 (List.mem_map_of_mem hentry) a (by simp) heq
    obtain ⟨Q₁, x₁, hw₁, hx₁⟩ := hw.step hE hinj h0 hS hnodes hX hin hnew hinfo hne h₁
    have happend : done ++ (a, account) :: accounts = (done ++ [(a, account)]) ++ accounts := by
      simp
    rw [happend] at hnodup ⊢
    obtain ⟨Q', x', hw', hx'⟩ := Writing.run hE hinj h0 hS hnodes hX
      (fun entry hentry => hmem entry (by simp [hentry]))
      (fun entry hentry => hup entry (by simp [hentry])) hnodup hw₁ h₂
    refine ⟨Q', x', hw', .inr ?_⟩
    rcases hx' with rfl | hx'
    · have hsub := hw'.subtree
      rw [List.append_nil, hw₁.subtree] at hsub
      exact Option.some.inj hsub ▸ hx₁
    · exact hx'

end Accounts

/-! ## Turns -/

theorem patch_single_self {t s : Trie} : ∀ {p : List Nibble}, t.subtree p = some s →
    t.patch (single p s) = t := by
  induction t with
  | branch c ih =>
    intro p hs
    cases p with
    | nil =>
      rw [patch_single_nil]
      exact (Option.some.inj hs).symm
    | cons i p =>
      rw [patch_single_branch]
      congr 1
      funext j
      by_cases hj : j = i
      · subst hj
        rw [Function.update_self]
        exact ih j hs
      · rw [Function.update_of_ne hj]
  | ext q c ih =>
    intro p hs
    by_cases hp : p = []
    · subst hp
      rw [patch_single_nil]
      exact (Option.some.inj hs).symm
    · obtain ⟨r, rfl, hr⟩ := subtree_ext hp hs
      rw [patch_single_ext _ _ hp, ih hr]
  | _ =>
    intro p hs
    cases p with
    | nil =>
      rw [patch_single_nil]
      exact (Option.some.inj hs).symm
    | cons i p => simp [Radix.subtree] at hs

theorem isTrie_writeAccounts (S : FullState) (done : List (B256 × BundleAccount)) :
    IsTrie 64 (S.writeAccounts C done) := by
  unfold FullState.writeAccounts
  exact isTrie_canonical 64 _

theorem allValues_canonical {R : Bytes → Prop} {n : Nat} {μ : List Nibble → Option Bytes}
    (h : ∀ key v, μ key = some v → R v) : AllValues R (canonical n μ) := by
  refine Mpt.allValues_of_get (isTrie_canonical n μ).sized fun key v hk hg => h key v ?_
  rw [get_canonical μ hk] at hg
  exact Except.ok.inj hg

/-- The values that are written are short enough. -/
theorem allValues_written {S : FullState} {root : B256} (hS : S.Sound C root)
    (hshort : ∀ account, (C.encodeAccount account).length < 2 ^ 63)
    {done : List (B256 × BundleAccount)} {p : List Nibble} {x : Trie}
    (hx : (S.writeAccounts C done).subtree p = some x) :
    AllValues (fun v => v.length < 2 ^ 63) x := by
  have hmap : ∀ (changes : List (List Nibble × Mpt.Change)) (μ : List Nibble → Option Bytes),
      (∀ key v, μ key = some v → v.length < 2 ^ 63) →
      (∀ change ∈ changes, ∀ v, change.2.value = some v → v.length < 2 ^ 63) →
      ∀ key v, Mpt.changeMap μ changes key = some v → v.length < 2 ^ 63 := by
    intro changes
    induction changes with
    | nil => exact fun μ hμ _ => hμ
    | cons change changes ih =>
      intro μ hμ hc
      refine ih _ (fun key v hv => ?_) fun c hmem => hc c (by simp [hmem])
      by_cases hkey : key = change.1
      · subst hkey
        rw [Function.update_self] at hv
        exact hc change (by simp) v hv
      · rw [Function.update_of_ne hkey] at hv
        exact hμ key v hv
  unfold FullState.writeAccounts at hx
  -- kept symbolic, or the whole trie is unfolded
  generalize (64 : Nat) = n at hx
  refine Mpt.allValues_subtree (allValues_canonical
    (hmap _ _ (fun key v hv => ?_) fun change hc v hv => ?_)) hx
  · unfold Mpt.valueAt at hv
    cases hget : S.state.get key with
    | error e => simp [hget] at hv
    | ok o =>
      rw [hget] at hv
      dsimp only at hv
      subst hv
      exact Mpt.allValues_get hS.stateValues hget
  · obtain ⟨entry, -, rfl⟩ := List.mem_map.mp hc
    unfold FullState.accountChange at hv
    dsimp only at hv
    cases hinfo : entry.2.info with
    | none => simp [hinfo, Mpt.Change.value] at hv
    | some info =>
      simp only [hinfo, Mpt.Change.value, Option.some.injEq] at hv
      rw [← hv]
      exact hshort _

/-- The frontier shows the state trie with the consumed accounts written. -/
structure Written (C : ClientEnv) (H : Set Bytes) (S : FullState)
    (done : List (B256 × BundleAccount)) (s : StreamingEthereumState) : Prop where
  known : ∃ m P, s.stateTrie = some m ∧ Mpt.Represents C.toEnv m P ∧
    Mpt.Known C.toEnv H P (S.writeAccounts C done)
  stored : ∀ a m, s.storageTries a = some m → Stored C S a m

section Turns

variable {H : Set Bytes} {S : FullState} {root : B256} {done accounts rest : List (B256 × BundleAccount)}
variable {s s' : StreamingEthereumState} {t : Turn} {p : List Nibble} {Q x : Trie}

/-- A chunk that is updated is not only a digest. -/
theorem view_of_updated {fresh : List (B256 × BundleAccount)} {cs cs' : ChunkState}
    (hne : fresh ≠ []) (hup : Upserts fresh) (hin : ∀ entry ∈ fresh, p <+: Hp.keyNibs entry.1.bytes)
    (hrep : Mpt.Represents C.toEnv cs.chunk Q) (hst : Mpt.Stands C.toEnv Q x)
    (h : updateChunkAccounts C (p.map Nibble.toByte) fresh cs = (.ok (), cs')) :
    View C.toEnv Q x := by
  rcases hst with hv | rfl
  · exact hv
  obtain ⟨⟨a, account⟩, l, rfl⟩ := List.exists_cons_of_ne_nil hne
  rw [updateChunkAccounts] at h
  obtain ⟨_, cs₁, h₁, _⟩ := Exec.of_bind_ok h
  obtain ⟨info, hinfo⟩ := Option.ne_none_iff_exists'.mp (hup (a, account) (by simp)).1
  obtain ⟨old, _, _, _, hholds, _⟩ := updateChunkAccount_ok hinfo h₁
  obtain ⟨r, hr⟩ := hin (a, account) (by simp)
  unfold ChunkHolds at hholds
  rw [suffix_eq hr.symm] at hholds
  obtain ⟨o, ho, _⟩ := (Mpt.getRlpNibbles_eq.2 old).mp hholds
  rw [Mpt.getNibbles_spec hrep] at ho
  cases ho

theorem ChunkRun.Of.apply_nibs {header : StateChunkHeader}
    {fresh : List (B256 × BundleAccount)} {cs cs' : ChunkState} {newRoot : B256} {run : ChunkRun}
    (h : run.Of C header fresh cs newRoot cs') (hp : header.prefixNibs = p.map Nibble.toByte) :
    updateChunkAccounts C (p.map Nibble.toByte) fresh run.witnessed = (.ok (), run.applied) := by
  rw [← hp]
  exact h.apply

/-- The part of the trie that a turn starts from. -/
theorem Turn.Of.writing (hE : Mpt.Faithful C.toEnv) (hinj : Set.InjOn C.keccak256 H)
    (h0 : [Rlp.emptyStringCode] ∈ H) (hS : S.Sound C root)
    (hshort : ∀ account, (C.encodeAccount account).length < 2 ^ 63) (h : t.Of C accounts s rest s')
    (hbytes : ∀ bytes, Consumed s.input s'.input (.raw bytes) →
      ∀ b ∈ Mpt.hashedNodes C.toEnv bytes, b ∈ H)
    (hstored : ∀ a m, s.storageTries a = some m → Stored C S a m) (hup : Upserts accounts)
    (hp : t.header.prefixNibs = p.map Nibble.toByte)
    (hx : (S.writeAccounts C done).subtree p = some x) (hxH : Mpt.nodes C.toEnv x ⊆ H)
    (hhash : (Mpt.hash C.toEnv t.chunk).1 = .ok (Trie.hash C.toEnv x)) {run : ChunkRun}
    (hrun : run.Of C t.header (accounts.takeWhile fun a => inChunk t.header.prefixNibs a.1)
      ⟨{ s with input := t.input }, t.chunk, [], false⟩ t.newRoot t.after) :
    ∃ Q, Writing C H S p (S.writeAccounts C done) done run.witnessed Q x := by
  obtain ⟨⟨_, hd⟩, -⟩ := decodeAndHash_ok hE h.decoded
  have hIs : IsTrie 64 (S.writeAccounts C done) := isTrie_writeAccounts S done
  have hIs := isTrie_subtree hIs hx
  have hvalues := allValues_written hS hshort hx
  have hlen : 64 - p.length < 2 ^ 60 := lt_of_le_of_lt (Nat.sub_le _ _) (by norm_num)
  obtain ⟨Q, hrep, hst⟩ := Mpt.decodeTrie_stands hE hinj h0 hd hhash
    (Mpt.small_of_sized hIs.sized hlen hvalues) hIs.normal hIs.resolved (hbytes t.bytes h.consumed) hxH
  obtain ⟨⟨cache, hchecked⟩, -⟩ := consumeCached_ok hrun.consume
  obtain ⟨hchunk, htries, hpost⟩ := readChunkWitnesses_ok hrun.read
  rw [hchecked] at hchunk htries hpost
  have hrep' : Mpt.Represents C.toEnv run.witnessed.chunk Q := hchunk ▸ hrep
  have hin : ∀ entry ∈ accounts.takeWhile fun a => inChunk t.header.prefixNibs a.1,
      p <+: Hp.keyNibs entry.1.bytes := by
    intro entry hentry
    have hin := List.all_eq_true.mp List.all_takeWhile entry hentry
    rw [hp] at hin
    exact inChunk_iff.mp hin
  have hup' : Upserts (accounts.takeWhile fun a => inChunk t.header.prefixNibs a.1) :=
    fun entry hentry => hup entry (List.takeWhile_subset _ hentry)
  have hview := view_of_updated hrun.nonempty hup' hin hrep' hst (hrun.apply_nibs hp)
  refine ⟨Q, hrep', hview, Mpt.backed_of_addressed fun b hb => hxH (.inr hb), hx,
    (patch_single_self hx).symm, fun a m hm => ?_, hpost⟩
  rw [htries] at hm
  exact hstored a m hm

/-- The new root of a chunk. -/
theorem ChunkRun.Of.root_ok {header : StateChunkHeader} {fresh : List (B256 × BundleAccount)}
    {cs cs' : ChunkState} {newRoot : B256} {run : ChunkRun}
    (h : run.Of C header fresh cs newRoot cs') (hrep : Mpt.Represents C.toEnv run.applied.chunk Q) :
    newRoot = Trie.hash C.toEnv Q ∧ Mpt.Represents C.toEnv cs'.chunk Q ∧
      cs'.stream = run.applied.stream ∧
      (header.prefixNibs = [] ∨ newRoot = C.emptyRootHash ∨ HashAddressed C.toEnv Q) := by
  obtain ⟨m₁, hm₁, hstream, hcase⟩ := h.hash
  obtain ⟨m₂, hm₂, hfills⟩ := Mpt.hash_spec (Mpt.Rep.reads hrep) hrep.depth_le
  rw [hm₁] at hm₂
  obtain ⟨hroot, rfl⟩ := Prod.mk.inj hm₂
  have hrep₁ := hrep.fills hfills
  refine ⟨Except.ok.inj hroot, ?_⟩
  rcases hcase with ⟨_, _, haddr⟩ | ⟨hor, hchunk⟩
  · obtain ⟨b, m₃, hm₃, hiff, hfills₃⟩ :=
      Mpt.rootIsHashAddressed_spec (Mpt.Rep.reads hrep₁) hrep₁.depth_le
    rw [haddr] at hm₃
    obtain ⟨hb, hchunk⟩ := Prod.mk.inj hm₃
    obtain rfl := Except.ok.inj hb
    rw [hchunk]
    exact ⟨hrep₁.fills hfills₃, hstream, .inr (.inr (hiff.mp rfl))⟩
  · rw [hchunk]
    exact ⟨hrep₁, hstream, hor.imp_right .inl⟩

theorem ref_of_hashAddressed {E : Env} {t : Trie} {d : Bytes} (hl : isList t)
    (h : ref E t = .digest d) : ref E t = .digest (Trie.hash E t).bytes := by
  rw [ref_of_isList hl] at h ⊢
  rw [hash_of_isList hl]
  split at h
  · cases h
  · rename_i hlen
    rw [if_neg hlen]

/-- What is put into the frontier for an updated chunk. -/
theorem known_digest {u : Trie} (hE : Mpt.Faithful C.toEnv) (hinj : Set.InjOn C.keccak256 H)
    (h0 : [Rlp.emptyStringCode] ∈ H) (hl : isList x) (hH : Mpt.nodes C.toEnv x ⊆ H) :
    Mpt.slotTrie C.toEnv u (Trie.hash C.toEnv x) = digest (Trie.hash C.toEnv x) ∧
      Mpt.Known C.toEnv H (digest (Trie.hash C.toEnv x)) x := by
  have hne := Mpt.hash_ne_emptyRoot hinj hE.emptyRoot h0 hl (hH (.inl ⟨hl, rfl⟩))
  exact ⟨if_neg hne, .inr ⟨rfl, hH⟩⟩

/-- One turn. -/
theorem Written.turn (hE : Mpt.Faithful C.toEnv) (hinj : Set.InjOn C.keccak256 H)
    (h0 : [Rlp.emptyStringCode] ∈ H) (hS : S.Sound C root)
    (hshort : ∀ account, (C.encodeAccount account).length < 2 ^ 63)
    (hnodes : ∀ a, Mpt.nodes C.toEnv (S.storage a) ⊆ H) (h : t.Of C accounts s rest s')
    (hH : t.strings C ⊆ H)
    (hbytes : ∀ bytes, Consumed s.input s'.input (.raw bytes) →
      ∀ b ∈ Mpt.hashedNodes C.toEnv bytes, b ∈ H)
    (hnodup : ((done ++ accounts).map Prod.fst).Nodup) (hup : Upserts accounts)
    (hw : Written C H S done s) :
    Written C H S (done ++ accounts.takeWhile fun a => inChunk t.header.prefixNibs a.1) s' := by
  obtain ⟨m, P, hm, hrep, hknown⟩ := hw.known
  obtain ⟨p, u, x, hp, hu, hx, hxH, hhash, hfrontier⟩ := h.exists_part hE hm hrep hknown hH
  obtain ⟨run, hrun⟩ := processChunk_ok h.process
  obtain ⟨Q, hwriting⟩ := h.writing hE hinj h0 hS hshort hbytes hw.stored hup hp hx hxH hhash hrun
  have hin : ∀ entry ∈ accounts.takeWhile fun a => inChunk t.header.prefixNibs a.1,
      p <+: Hp.keyNibs entry.1.bytes := by
    intro entry hentry
    have hin := List.all_eq_true.mp List.all_takeWhile entry hentry
    rw [hp] at hin
    exact inChunk_iff.mp hin
  have hsub : ((done ++ accounts.takeWhile fun a => inChunk t.header.prefixNibs a.1).map
      Prod.fst).Nodup :=
    hnodup.sublist (((List.Sublist.refl done).append (List.takeWhile_sublist _)).map Prod.fst)
  obtain ⟨Q', x', hw', hx'⟩ := hwriting.run hE hinj h0 hS hnodes hx hin
    (fun entry hentry => hup entry (List.takeWhile_subset _ hentry)) hsub (hrun.apply_nibs hp)
  have hx'ne := hx'.resolve_left hrun.nonempty
  obtain ⟨hroot, hrep', hstream, haddr⟩ := hrun.root_ok hw'.represents
  have hroot' : t.newRoot = Trie.hash C.toEnv x' := hroot.trans hw'.view.hash_eq
  have hx'H : Mpt.nodes C.toEnv x' ⊆ H := Mpt.View.nodes_subset hw'.view hw'.backed fun b hb =>
    hH (.inr ⟨Q', (Mpt.Rep.reads hrep').shape, hb⟩)
  have hx'list : isList x' := by
    have hIs : IsTrie 64 (S.writeAccounts C (done ++ accounts.takeWhile fun a =>
      inChunk t.header.prefixNibs a.1)) := isTrie_writeAccounts S _
    exact isList_of_isTrie (isTrie_subtree hIs hw'.subtree) hx'ne
  obtain ⟨hslot, hdigest⟩ := known_digest (u := u) hE hinj h0 hx'list hx'H
  refine ⟨⟨t.frontier', _, by rw [h.state], hfrontier, ?_⟩, fun a m hm => hw'.stored a m ?_⟩
  · rw [hw'.patched, hroot', hslot]
    refine hknown.patch_single hu hdigest fun hpne => ⟨?_, fun b hb => hx'H (.inr hb)⟩
    -- below a branch or an extension the new root is a digest reference
    have hempty : t.newRoot ≠ C.emptyRootHash := by
      rw [hroot']
      exact Mpt.hash_ne_emptyRoot hinj hE.emptyRoot h0 hx'list (hx'H (.inl ⟨hx'list, rfl⟩))
    rcases haddr with hnil | he | ⟨d, hd⟩
    · rw [hp] at hnil
      exact absurd (List.map_eq_nil_iff.mp hnil) hpne
    · exact absurd he hempty
    · rw [hw'.view.ref_eq] at hd
      exact .hidden (ref_of_hashAddressed hx'list hd)
  · rw [h.state, hstream] at hm
    exact hm

end Turns

/-! ## The whole update -/

theorem Perm.sortedAccounts (bundle : Bundle) : (sortedAccounts C bundle).Perm
    (bundle.map fun entry => (C.keccak256 entry.1.bytes, entry.2)) :=
  List.perm_insertionSort _ _

/-- Different addresses have different hashes. -/
theorem nodup_sortedAccounts {S : FullState} {input : List StreamItem} {bundle : Bundle}
    {s : StreamingEthereumState} (hnodup : (bundle.map Prod.fst).Nodup)
    (hinj : Set.InjOn C.keccak256 {b | HashedInRun C S input bundle s b}) :
    ((sortedAccounts C bundle).map Prod.fst).Nodup := by
  have hperm := (Perm.sortedAccounts (C := C) bundle).map Prod.fst
  rw [hperm.nodup_iff, List.map_map]
  exact nodup_hashes hinj hnodup fun _ he => .address he

/-- The order of the bundle does not matter. -/
theorem writeAccounts_sorted {S : FullState} {bundle : Bundle}
    (hnodup : ((sortedAccounts C bundle).map Prod.fst).Nodup) :
    S.writeAccounts C (sortedAccounts C bundle) = S.stateAfter C bundle := by
  have hkeys : (((sortedAccounts C bundle).map (S.accountChange C)).map Prod.fst).Nodup := by
    have heq : ((sortedAccounts C bundle).map (S.accountChange C)).map Prod.fst =
        ((sortedAccounts C bundle).map Prod.fst).map fun a => Hp.keyNibs a.bytes := by
      rw [List.map_map, List.map_map]
      rfl
    rw [heq]
    exact hnodup.map fun a b h => B256.ext (Hp.keyNibs_injective h)
  unfold FullState.stateAfter FullState.writeAccounts
  rw [Mpt.changeMap_perm ((Perm.sortedAccounts bundle).map _) hkeys]

section Root

variable {S : FullState} {input : List StreamItem} {bundle : Bundle}
variable {s s' : StreamingEthereumState}

/-- What is loaded before the first turn. -/
theorem written_loaded (hE : Mpt.Faithful C.toEnv) (hS : S.Sound C s.parentStateRoot)
    (hinj : Set.InjOn C.keccak256 {b | HashedInRun C S input bundle s b}) (hs : Opened C input s)
    (h : updateFromBundleState C bundle s = (.ok (), s')) {bytes : Bytes} {rest : List StreamItem}
    {m : Mpt} (hb : ∀ b ∈ Mpt.hashedNodes C.toEnv bytes, HashedInRun C S input bundle s b)
    (hdec : decodeAndHash C bytes s.stateTrieHeader.numNodes = .ok (m, s.parentStateRoot)) :
    Written C {b | HashedInRun C S input bundle s b} S []
      { s with input := rest, stateTrie := some m } := by
  obtain ⟨P, hrep, hknown⟩ :=
    known_loaded hE hinj (.empty) hS (fun b hb => .state hb) (fun b => hb b) hdec
  refine ⟨⟨m, P, rfl, hrep, ?_⟩, fun a m' hm' => ?_⟩
  · unfold FullState.writeAccounts
    rw [List.map_nil, Mpt.changeMap, ← Mpt.eq_canonical_valueAt hS.state]
    exact hknown
  · obtain ⟨bytes', numNodes, rest', hd, hhash, hb'⟩ := (hs.stored a m' hm').root_eq hE hS hinj hs h
    exact stored_of_decoded hE hinj .empty hS (fun b hb => .storage a hb) hd hhash hb'

theorem stateRoot_of_known {T : Trie} {H : Set Bytes} {m : Mpt} {P : Trie}
    (hm : s.stateTrie = some m) (hrep : Mpt.Represents C.toEnv m P)
    (hknown : Mpt.Known C.toEnv H P T) : (stateRoot C s).1 = .ok (Trie.hash C.toEnv T) := by
  obtain ⟨m', hm', -⟩ := Mpt.hash_spec (Mpt.Rep.reads hrep) hrep.depth_le
  rw [← hknown.hash_eq]
  simp [stateRoot, onStateTrie, hm, hm', Except.mapError]

/-- From every state that execution can leave. -/
theorem Opened.postRoot (hE : Mpt.Faithful C.toEnv)
    (hshort : ∀ account, (C.encodeAccount account).length < 2 ^ 63)
    (hS : S.Sound C s.parentStateRoot)
    (hinj : Set.InjOn C.keccak256 {b | HashedInRun C S input bundle s b}) (hs : Opened C input s)
    (haddr : (bundle.map Prod.fst).Nodup) (hup : Upserts (sortedAccounts C bundle))
    (h : updateFromBundleState C bundle s = (.ok (), s')) :
    (stateRoot C s').1 = .ok (Trie.hash C.toEnv (S.stateAfter C bundle)) := by
  have hnodup := nodup_sortedAccounts haddr hinj
  obtain ⟨s₂, m₂, ⟨done, hdone, hw⟩, hm₂, hs', -⟩ := update_induction
    (fun accounts r => ∃ done, done ++ accounts = sortedAccounts C bundle ∧
      Written C {b | HashedInRun C S input bundle s b} S done r)
    (fun _ hb => hb) hs.unread hs.unloaded h
    (fun bytes rest m hb hdec => ⟨[], rfl, written_loaded hE hS hinj hs h hb hdec⟩)
    (fun accounts r₁ rest r₂ t ht hstr hbytes hinv => by
      obtain ⟨done, hdone, hw⟩ := hinv
      refine ⟨_, ?_, hw.turn hE hinj .empty hS hshort (fun a b hb => .storage a hb) ht hstr hbytes
        (hdone ▸ hnodup) (fun entry hentry => hup entry (hdone ▸ List.mem_append_right _ hentry))⟩
      rw [ht.rest, List.append_assoc, List.takeWhile_append_dropWhile]
      exact hdone)
  rw [List.append_nil] at hdone
  obtain ⟨m, P, hm, hrep, hknown⟩ := hw.known
  rw [hdone, writeAccounts_sorted hnodup] at hknown
  refine stateRoot_of_known ?_ hrep hknown
  rw [hs']
  exact hm

end Root

/-- The root after a streamed update with a bundle that only sets accounts and slots: whatever the
stream, it is the root of the parent state with the bundle written into it. -/
theorem session_postRoot {S : FullState} {header : StateTrieHeader} {root : B256}
    {input : List StreamItem} {calls : List ReadCall} {bundle : Bundle}
    {log : List (ReadCall × Except Stop ReadAnswer)} {s s' : StreamingEthereumState}
    (hE : Mpt.Faithful C.toEnv) (hshort : ∀ account, (C.encodeAccount account).length < 2 ^ 63)
    (hS : S.Sound C root) (hrun : session C calls (new header root input) = (log, s))
    (hinj : Set.InjOn C.keccak256 {b | HashedInRun C S input bundle s b})
    (haddr : (bundle.map Prod.fst).Nodup)
    (hup : ∀ entry ∈ bundle, entry.2.info ≠ none ∧ ∀ slot ∈ entry.2.storage, slot.2 ≠ 0)
    (h : updateFromBundleState C bundle s = (.ok (), s')) :
    (stateRoot C s').1 = .ok (Trie.hash C.toEnv (S.stateAfter C bundle)) := by
  obtain ⟨hopened, hgrows, -⟩ := session_run calls (opened_new (C := C) header root input)
  rw [hrun] at hopened hgrows
  have hroot : s.parentStateRoot = root := hgrows.root
  refine hopened.postRoot hE hshort (hroot ▸ hS) hinj haddr (fun entry hentry => ?_) h
  obtain ⟨e, he, rfl⟩ := List.mem_map.mp ((Perm.sortedAccounts bundle).subset hentry)
  exact hup e he

theorem session_postRoot_sample :
    (updateFromBundleState readEnv readBundle readDone).1 = .ok () ∧
    (stateRoot readEnv (updateFromBundleState readEnv readBundle readDone).2).1 = .ok writtenRoot ∧
    (stateRoot readEnv (updateFromBundleState readEnv readBundle readDone).2).1 =
      .ok (Trie.hash readEnv.toEnv (readState.stateAfter readEnv readBundle)) := by
  have h := update_readBundle
  have hshort : ∀ account, (readEnv.encodeAccount account).length < 2 ^ 63 := fun account =>
    (Rlp.length_encodeAccount_le account).trans_lt (by norm_num)
  refine ⟨h, by decide +kernel, ?_⟩
  exact session_postRoot faithful_readEnv hshort sound_readState session_readLog injOn_readStrings
    (by decide) (by simp [readBundle]) (Exec.eq_of_fst h)

end StreamingEthereumState
end CenoReth
