/-
The state after a bundle.

A bundle changes a complete state: each of its accounts is written with the root
of its storage trie, and that trie is the parent's with the slots of the bundle
written into it, or the empty one if the account was destroyed.  This is the
state that both updates of the source are compared with.  A storage trie that is
known in part gives the root of the complete one, as long as its slots are only
set and not cleared.
-/
import CenoReth.Mpt.Chunked
import CenoReth.State.Reads

namespace CenoReth

open Patricia Patricia.Radix Trie

/-! ## Changes -/

namespace Mpt

theorem changeMap_append (changes changes' : List (List Nibble × Change))
    (μ : List Nibble → Option Bytes) :
    changeMap μ (changes ++ changes') = changeMap (changeMap μ changes) changes' := by
  induction changes generalizing μ with
  | nil => rfl
  | cons change changes ih => exact ih _

theorem changeMap_swap {c c' : List Nibble × Change} (h : c.1 ≠ c'.1)
    (changes : List (List Nibble × Change)) (μ : List Nibble → Option Bytes) :
    changeMap μ (c :: c' :: changes) = changeMap μ (c' :: c :: changes) := by
  simp only [changeMap]
  rw [Function.update_comm h]

/-- Changes of different keys may be made in any order. -/
theorem changeMap_perm {changes changes' : List (List Nibble × Change)}
    (h : changes.Perm changes') : (changes.map Prod.fst).Nodup →
    ∀ μ, changeMap μ changes = changeMap μ changes' := by
  induction h with
  | nil => exact fun _ _ => rfl
  | cons c _ ih => exact fun hd μ => ih (List.nodup_cons.mp hd).2 _
  | swap c c' l =>
    intro hd μ
    refine changeMap_swap (fun heq => ?_) l μ
    simp [heq] at hd
  | trans h₁ _ ih₁ ih₂ =>
    intro hd μ
    exact (ih₁ hd μ).trans (ih₂ ((h₁.map Prod.fst).nodup_iff.mp hd) μ)

/-- An insertion into a part of a trie that returned. -/
theorem insertNibbles_view {E : Env} {n : Nat} {μ : List Nibble → Option Bytes} {m m' : Mpt}
    {P : Trie} {key : List Nibble} {v : Bytes} {b : Bool} (hr : Represents E m P)
    (hv : View E P (canonical n μ)) (hk : key.length = n)
    (h : insertNibbles (key.map Nibble.toByte) v m = (.ok b, m')) :
    ∃ P', P.insert key v = .ok (b, P') ∧ Represents E m' P' ∧
      View E P' (canonical n (Function.update μ key (some v))) := by
  have hT := insert_canonical (δ := B256) μ hk v
  rcases hv.insert_cases key v with ⟨d, hd⟩ | hsame
  · rw [insertNibbles_error hr hd (by simp)] at h
    cases h
  · cases hP : P.insert key v with
    | error e =>
      rw [hP, hT] at hsame
      exact hsame.elim
    | ok r =>
      obtain ⟨b', P'⟩ := r
      rw [hP, hT] at hsame
      obtain ⟨m'', hm'', hr'⟩ := insertNibbles_spec hr hP
      rw [h] at hm''
      cases hm''
      exact ⟨P', rfl, hr', hsame.2⟩

/-- An insertion needs to know the root node. -/
theorem insertNibbles_digest {E : Env} {m m' : Mpt} {d : B256} {key : List Nibble} {v : Bytes}
    {b : Bool} (hr : Represents E m (digest d)) :
    insertNibbles (key.map Nibble.toByte) v m ≠ (.ok b, m') := by
  intro h
  rw [insertNibbles_error hr (f := .unresolved d) rfl (by simp)] at h
  cases h

end Mpt

/-! ## The complete state -/

namespace FullState

variable (C : ClientEnv) (S : FullState)

/-- A slot of a bundle.  A value of zero clears it. -/
def slotChange (slot : U256 × U256) : List Nibble × Mpt.Change :=
  (Hp.keyNibs (C.keccak256 slot.1.toBeBytes).bytes,
    if slot.2 = 0 then .delete else .upsert (C.encodeU256 slot.2))

/-- The storage of an account before its slots are written. -/
def storageBefore (a : B256) (account : BundleAccount) : Trie :=
  if account.wasDestroyed then null else S.storage a

/-- The storage of an account after the block. -/
def storageAfter (a : B256) (account : BundleAccount) : Trie :=
  canonical 64 (Mpt.changeMap (Mpt.valueAt (S.storageBefore a account))
    (account.storage.map (slotChange C)))

/-- An account after the block. -/
def accountAfter (a : B256) (account : BundleAccount) (info : AccountInfo) : TrieAccount where
  nonce := info.nonce
  balance := info.balance
  storageRoot := Trie.hash C.toEnv (S.storageAfter C a account)
  codeHash := info.codeHash

/-- An account of a bundle, under its hashed address. -/
def accountChange (entry : B256 × BundleAccount) : List Nibble × Mpt.Change :=
  (Hp.keyNibs entry.1.bytes,
    match entry.2.info with
    | some info => .upsert (C.encodeAccount (S.accountAfter C entry.1 entry.2 info))
    | none => .delete)

/-- The state trie after accounts were written, each under its hashed address. -/
def writeAccounts (entries : List (B256 × BundleAccount)) : Trie :=
  canonical 64 (Mpt.changeMap (Mpt.valueAt S.state) (entries.map (S.accountChange C)))

/-- The state trie after a bundle. -/
def stateAfter (bundle : Bundle) : Trie :=
  S.writeAccounts C (bundle.map fun entry => (C.keccak256 entry.1.bytes, entry.2))

end FullState

/-- The hashes of the addresses of a bundle differ. -/
theorem nodup_hashes {C : ClientEnv} {H : Set Bytes} (hinj : Set.InjOn C.keccak256 H)
    {bundle : Bundle} (haddr : (bundle.map Prod.fst).Nodup)
    (hmem : ∀ entry ∈ bundle, entry.1.bytes ∈ H) :
    (bundle.map fun entry => C.keccak256 entry.1.bytes).Nodup := by
  refine List.Nodup.map_on (fun x hx y hy hxy => ?_) (List.Nodup.of_map _ haddr)
  have hbytes : x.1.bytes = y.1.bytes := hinj (hmem x hx) (hmem y hy) hxy
  refine List.inj_on_of_nodup_map haddr hx hy ?_
  obtain ⟨⟨bytes, _⟩, _⟩ := x
  obtain ⟨⟨bytes', _⟩, _⟩ := y
  simpa using hbytes

/-! ## Storage tries that are known in part -/

section Storage

open EthereumState

variable {C : ClientEnv} {μ : List Nibble → Option Bytes}

theorem updateStorage_view : ∀ {storage : List (U256 × U256)} {μ : List Nibble → Option Bytes}
    {m m' : Mpt} {P : Trie}, (∀ slot ∈ storage, slot.2 ≠ 0) → Mpt.Represents C.toEnv m P →
    View C.toEnv P (canonical 64 μ) → updateStorage C.toStateEnv storage m = (.ok (), m') →
    ∃ P', Mpt.Represents C.toEnv m' P' ∧
      View C.toEnv P' (canonical 64 (Mpt.changeMap μ (storage.map (FullState.slotChange C))))
  | [], μ, m, m', P, _, hr, hv, h => by
    simp only [updateStorage, Exec.pure_apply, Prod.mk.injEq, true_and] at h
    exact ⟨P, h ▸ hr, hv⟩
  | (slot, value) :: storage, μ, m, m', P, hne, hr, hv, h => by
    have hvalue : value ≠ 0 := hne (slot, value) (by simp)
    rw [updateStorage, if_neg hvalue] at h
    obtain ⟨b, m₁, hins, h⟩ := Exec.of_bind_ok h
    rw [Mpt.insert, ← Hp.map_toByte_keyNibs] at hins
    obtain ⟨P', -, hr', hv'⟩ := Mpt.insertNibbles_view hr hv (Mpt.length_keyNibs_b256 _) hins
    obtain ⟨P'', hr'', hv''⟩ := updateStorage_view (fun s hs => hne s (by simp [hs])) hr' hv' h
    refine ⟨P'', hr'', ?_⟩
    simpa [FullState.slotChange, hvalue, Mpt.changeMap, Mpt.Change.value] using hv''

/-- The root of a storage trie that was known in part. -/
theorem updateStorageTrie_stands {storage : List (U256 × U256)} {m : Mpt} {P : Trie} {root : B256}
    (hne : ∀ slot ∈ storage, slot.2 ≠ 0) (hr : Mpt.Represents C.toEnv m P)
    (hs : Mpt.Stands C.toEnv P (canonical 64 μ))
    (h : (updateStorageTrie C.toStateEnv storage m).1 = .ok root) :
    root = Trie.hash C.toEnv
      (canonical 64 (Mpt.changeMap μ (storage.map (FullState.slotChange C)))) := by
  have hrun : updateStorageTrie C.toStateEnv storage m =
      (.ok root, (updateStorageTrie C.toStateEnv storage m).2) := Prod.ext h rfl
  unfold updateStorageTrie at hrun
  obtain ⟨_, m₁, h₁, h₂⟩ := Exec.of_bind_ok hrun
  -- a digest is hashed as it is, and nothing can be written below it
  have hcases : (∃ P', Mpt.Represents C.toEnv m₁ P' ∧ Trie.hash C.toEnv P' = Trie.hash C.toEnv
      (canonical 64 (Mpt.changeMap μ (storage.map (FullState.slotChange C))))) := by
    rcases hs with hv | rfl
    · obtain ⟨P', hr', hv'⟩ := updateStorage_view hne hr hv h₁
      exact ⟨P', hr', hv'.hash_eq⟩
    · cases storage with
      | nil =>
        simp only [updateStorage, Exec.pure_apply, Prod.mk.injEq, true_and] at h₁
        exact ⟨_, h₁ ▸ hr, Mpt.Stands.hash_eq (.inr rfl)⟩
      | cons slot storage =>
        rw [updateStorage, if_neg (hne slot (by simp))] at h₁
        obtain ⟨b, m₂, hins, _⟩ := Exec.of_bind_ok h₁
        rw [Mpt.insert, ← Hp.map_toByte_keyNibs] at hins
        exact absurd hins (Mpt.insertNibbles_digest hr)
  obtain ⟨P', hr', hhash⟩ := hcases
  obtain ⟨m', hm', _⟩ := Mpt.hash_spec (Mpt.Rep.reads hr') hr'.depth_le
  rw [hm'] at h₂
  cases h₂
  exact hhash

end Storage

end CenoReth
