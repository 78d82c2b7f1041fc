/-
The state that is built from proofs (`crates/mpt/src/from_proof.rs`).

The storage trie of an account is built from the proofs of the slots that a block
reads, in the state before the block, and of the slots that it writes, in the
state after it.  It has the root of the storage before the block and the values
of its slots, and the writes of the block, in whatever order, lead it to the root
of the storage after the block.
-/
import CenoReth.Mpt.Chunked
import CenoReth.Mpt.Complete
import CenoReth.State.Order

namespace CenoReth

open Patricia Patricia.Radix Trie

namespace Trie

/-- Writes to different keys can be made in any order. -/
theorem writeMap_perm {ops ops' : List (List Nibble × Option Bytes)} (h : ops.Perm ops')
    (hnodup : (ops.map Prod.fst).Nodup) (μ : List Nibble → Option Bytes) :
    writeMap μ ops = writeMap μ ops' := by
  refine h.foldl_eq' (fun x hx y hy ν => ?_) μ
  by_cases hxy : x.1 = y.1
  · rw [List.inj_on_of_nodup_map hnodup hx hy hxy]
  · exact Function.update_comm hxy _ _ _

end Trie

namespace Mpt

section Model

variable (E : Env)

/-- A slot is written or deleted. -/
def applyOp (op : B256 × Option Bytes) : TrieM Bool :=
  match op.2 with
  | some value => insert (E.keccak256 op.1.bytes).bytes value
  | none => delete (E.keccak256 op.1.bytes).bytes

def slotOp (op : B256 × Option Bytes) : List Nibble × Option Bytes := (slotNibs E op.1, op.2)

/-- The storage trie after the writes of a block. -/
def updated (T : Trie) (ops : List (B256 × Option Bytes)) : Trie :=
  canonical 64 (writeMap (valueAt T) (ops.map (slotOp E)))

end Model

variable {E : Env}

theorem applyOp_tracks {m : Mpt} {s : Table} (h : Tabulates E m s) (op : B256 × Option Bytes) :
    Tracks (fun _ => Tabulates E) (applyOp E op m) (s.write (slotNibs E op.1) op.2) := by
  obtain ⟨slot, _ | v⟩ := op
  · exact delete_tracks h _
  · exact insert_tracks h _ v

/-- All writes succeed on the arena if they do on the table. -/
theorem applyOps_tracks : ∀ {ops : List (B256 × Option Bytes)} {m : Mpt} {s s' : Table},
    Tabulates E m s → s.writeAll (ops.map (slotOp E)) = some s' →
    ∃ rets m', Exec.collect (applyOp E) ops m = (.ok rets, m') ∧ Tabulates E m' s'
  | [], m, s, s', h, hw => by
    obtain rfl : s = s' := by simpa [Sparse.writeAll] using hw
    exact ⟨[], m, rfl, h⟩
  | op :: ops, m, s, s', h, hw => by
    rw [List.map_cons, slotOp, Sparse.writeAll_cons] at hw
    obtain ⟨s₁, h₁, hw⟩ := Option.bind_eq_some_iff.mp hw
    have htrack := applyOp_tracks h op
    rw [h₁] at htrack
    obtain ⟨ret, m₁, hrun₁, hm₁⟩ := htrack
    obtain ⟨rets, m', hrun, hm'⟩ := applyOps_tracks hm₁ hw
    refine ⟨ret :: rets, m', ?_, hm'⟩
    rw [Exec.collect, Exec.bind_ok hrun₁, Exec.bind_ok hrun]
    rfl

/-! ## The storage trie of a block -/

theorem sliced_updated {T : Trie} (hT : Sliced 64 T) {ops : List (B256 × Option Bytes)}
    (hops : ∀ op ∈ ops, ∀ v, op.2 = some v → v.length < 2 ^ 63) : Sliced 64 (updated E T ops) := by
  refine sliced_canonical (writeMap_forall (fun k w hw => ?_) fun op hop => ?_)
  · unfold valueAt at hw
    cases hk : T.get k with
    | error e => simp [hk] at hw
    | ok o =>
      simp only [hk] at hw
      exact allValues_get hT.values (hw ▸ hk)
  · obtain ⟨x, hx, rfl⟩ := List.mem_map.mp hop
    exact hops x hx

/-- Every write of keys that are shown succeeds.  The writes lead to the root after them if what the
deletions bring up is known. -/
theorem writeAll_shown {T : Trie} (hT : IsTrie 64 T) {known : B256 → Bool} {t : Table}
    (ht : t.compress = shown E known T) {ops : List (List Nibble × Option Bytes)}
    (hlen : ∀ op ∈ ops, op.1.length = 64)
    (hseen : ∀ op ∈ ops, (shown E known T).get op.1 = T.get op.1)
    (horphans : ∀ op ∈ ops, ∀ s ∈ orphans E (canonical 64 (writeMap (valueAt T) ops)) op.1,
      known (Trie.hash E s) = true) :
    ∃ t', t.writeAll ops = some t' ∧
      Trie.hash E t'.compress = Trie.hash E (canonical 64 (writeMap (valueAt T) ops)) := by
  have hcanon := eq_canonical_valueAt hT
  have hget : ∀ op ∈ ops, ∃ o, (shown E known T).get op.1 = .ok o := by
    intro op hop
    rw [hseen op hop]
    exact get_of_resolved hT.resolved _
  have hsparse : ∀ op ∈ ops, op.1.length = 64 ∧ ∃ o, t.get op.1 = .ok o := by
    intro op hop
    obtain ⟨o, ho⟩ := hget op hop
    rw [← ht, Sparse.get_compress t (hlen op hop)] at ho
    exact ⟨hlen op hop, o, ho⟩
  obtain ⟨t', hw⟩ := Sparse.exists_writeAll hsparse
  refine ⟨t', hw, ?_⟩
  rw [hcanon] at ht hget
  refine hash_writeAll_shown ht hlen hw hget fun op hop hnone w hlast y hy => ?_
  refine horphans op hop y ?_
  have hgone : (canonical 64 (writeMap (valueAt T) ops) : Trie).get op.1 = .ok none :=
    (get_canonical _ (hlen op hop)).trans (congrArg Except.ok hnone)
  unfold orphans
  rw [hgone]
  show y ∈ (proofNodes E (canonical 64 (writeMap (valueAt T) ops)) op.1).getLast?.elim []
    shortenings
  rw [hlast]
  exact hy

/-- A trie that serves the updates from `T` to `T'`: it has the root of `T` and its values at the
keys that are proved before them, and writes of keys that are proved before and after them lead to
the root of `T'`. -/
structure Serves (E : Env) (T T' : Trie) (keys fini : List (List Nibble)) (t : Table) : Prop where
  hash_eq : Trie.hash E t.compress = Trie.hash E T
  get_eq : ∀ key ∈ keys, t.get key = T.get key
  writes : ∀ ops : List (List Nibble × Option Bytes), (∀ op ∈ ops, op.1 ∈ keys ∧ op.1 ∈ fini) →
    canonical 64 (writeMap (valueAt T) ops) = T' →
    ∃ t', t.writeAll ops = some t' ∧ Trie.hash E t'.compress = Trie.hash E T'

/-- The root is enough where no key is proved. -/
theorem serves_root {T T' : Trie} (hT : IsTrie 64 T) {t : Table}
    (h : Trie.hash E t.compress = Trie.hash E T) (fini : List (List Nibble)) :
    Serves E T T' [] fini t where
  hash_eq := h
  get_eq := by simp
  writes ops hops hT' := by
    obtain rfl : ops = [] := List.eq_nil_iff_forall_not_mem.mpr fun op hop => by
      simpa using (hops op hop).1
    refine ⟨t, rfl, h.trans ?_⟩
    rw [← hT']
    show _ = Trie.hash E (canonical 64 (valueAt T))
    rw [← eq_canonical_valueAt hT]

/-- What the proofs of the keys show. -/
theorem serves_shown {T T' : Trie} (hT : IsTrie 64 T) {keys fini : List (List Nibble)}
    (hlen : ∀ key ∈ keys, key.length = 64) {known : B256 → Bool} {t : Table}
    (ht : t.compress = shown E known T)
    (hseen : ∀ key ∈ keys, (shown E known T).get key = T.get key)
    (horphans : ∀ key ∈ fini, ∀ s ∈ orphans E T' key, known (Trie.hash E s) = true) :
    Serves E T T' keys fini t where
  hash_eq := by rw [ht, (view_shown T).hash_eq]
  get_eq key hkey := by
    rw [← Sparse.get_compress t (hlen key hkey), ht]
    exact hseen key hkey
  writes ops hops hT' := by
    subst hT'
    exact writeAll_shown hT ht (fun op hop => hlen op.1 (hops op hop).1)
      (fun op hop => hseen op.1 (hops op hop).1) fun op hop => horphans op.1 (hops op hop).2

theorem updated_perm {T : Trie} {ops ops' : List (B256 × Option Bytes)} (h : ops'.Perm ops)
    (hnodup : (ops.map fun op => E.keccak256 op.1.bytes).Nodup) :
    updated E T ops' = updated E T ops := by
  have hkeys : ((ops.map (slotOp E)).map Prod.fst).Nodup := by
    have := hnodup.map fun a b hab => B256.ext (Hp.keyNibs_injective hab)
    simpa [slotOp, Function.comp_def] using this
  unfold updated
  rw [writeMap_perm (h.symm.map (slotOp E)) hkeys]

theorem nodeFromDigest_tabulates {d : B256} (hd : d ≠ B256.ofNat 0) :
    ∃ m t, nodeFromDigest E d = .ok m ∧ Tabulates E m t ∧ Trie.hash E t.compress = d := by
  unfold nodeFromDigest
  by_cases h : d = E.emptyRootHash
  · refine ⟨new, EthereumState.emptyTable, if_pos (.inl h), EthereumState.tabulates_new E, ?_⟩
    rw [EthereumState.compress_emptyTable, h]
    rfl
  · rw [if_neg (not_or.mpr ⟨h, hd⟩)]
    refine ⟨_, .digest d, setRootNode_ok (c := ⟨.null, none⟩) rfl _, ?_, rfl⟩
    exact ⟨Finset.mem_range.mpr Nat.one_pos, none, rfl, .inl rfl⟩

/-- `build_storage_trie` builds a trie that serves the updates that the proofs are of. -/
theorem buildStorageTrie_serves (hinv : Rlp.Inverse E.decodeHeader) {T T' : Trie}
    (hT : Sliced 64 T) (hT' : Sliced 64 T') {slots fini : List B256}
    (hinj : NoCollision E (blockEncodings E T T' fini))
    (hzero : slots = [] → Trie.hash E T ≠ B256.ofNat 0) {before after : AccountProof}
    (hroot : before.storageRoot = Trie.hash E T)
    (hbefore : before.storageProofs = storageProofsOf E T slots)
    (hafter : after.storageProofs = storageProofsOf E T' fini) {fuel : Nat}
    (hfuel : 2 * (depth T + depth T') ≤ fuel) :
    ∃ m t, buildStorageTrie E fuel before after = .ok m ∧ Tabulates E m t ∧
      Serves E T T' (slots.map (slotNibs E)) (fini.map (slotNibs E)) t := by
  by_cases hempty : slots = []
  · -- no proofs: the root is all there is
    subst hempty
    obtain ⟨m, t, hm, ht, hhash⟩ := nodeFromDigest_tabulates (E := E) (hzero rfl)
    refine ⟨m, t, ?_, ht, serves_root hT.isTrie hhash _⟩
    rw [buildStorageTrie, if_pos (by rw [hbefore]; rfl), hroot]
    exact hm
  · obtain ⟨m, nodeStore, hrun, hrep, hstock⟩ := buildStorageTrie_shows hinv (by norm_num) hT hT'
      hempty hinj hfuel hbefore hafter
    have hview : View E (shown E (knows nodeStore) T) T := view_shown T
    obtain ⟨t, ht⟩ := exists_compress (shown E (knows nodeStore) T) (hview.normal hT.isTrie.normal)
      (hview.sized hT.isTrie.sized)
    refine ⟨m, t, hrun, by rwa [Tabulates, ht], serves_shown hT.isTrie (fun key hkey => ?_) ht
      (fun key hkey => ?_) fun key hkey s hs => ?_⟩
    all_goals obtain ⟨slot, hslot, rfl⟩ := List.mem_map.mp hkey
    · exact length_keyNibs_b256 _
    · exact get_shown_stock (hT.regular (by norm_num)) hstock fun s hs => .inl ⟨slot, hslot, hs⟩
    · exact (hstock.knows _).mpr ⟨s, .inr ⟨slot, hslot, hs⟩, rfl⟩

/-- The storage trie that is built from the proofs of a block is complete for the block. -/
theorem buildStorageTrie_complete (E : Env) (hinv : Rlp.Inverse E.decodeHeader) {T : Trie}
    (hT : IsTrie 64 T) (hvals : ∀ key v, T.get key = .ok (some v) → v.length < 2 ^ 63)
    {slots fini : List B256} {ops : List (B256 × Option Bytes)}
    (hslots : ∀ op ∈ ops, op.1 ∈ slots) (hfini : ∀ op ∈ ops, op.1 ∈ fini)
    (hnodup : (ops.map fun op => E.keccak256 op.1.bytes).Nodup)
    (hops : ∀ op ∈ ops, ∀ v, op.2 = some v → v.length < 2 ^ 63)
    (hinj : NoCollision E (blockEncodings E T (updated E T ops) fini))
    (hzero : slots = [] → Trie.hash E T ≠ B256.ofNat 0) {before after : AccountProof}
    (hroot : before.storageRoot = Trie.hash E T)
    (hbefore : before.storageProofs = storageProofsOf E T slots)
    (hafter : after.storageProofs = storageProofsOf E (updated E T ops) fini) :
    ∃ n, ∀ fuel, n ≤ fuel → ∃ m, buildStorageTrie E fuel before after = .ok m ∧
      (hash E m).1 = .ok (Trie.hash E T) ∧
      (∀ slot ∈ slots, ∃ o, T.get (slotNibs E slot) = .ok o ∧
        get (E.keccak256 slot.bytes).bytes m = (.ok o, m)) ∧
      ∀ ops', ops'.Perm ops → ∃ rets m', Exec.collect (applyOp E) ops' m = (.ok rets, m') ∧
        (hash E m').1 = .ok (Trie.hash E (updated E T ops)) := by
  have hsliced : Sliced 64 T := ⟨hT, allValues_of_get hT.sized fun key v _ => hvals key v⟩
  refine ⟨2 * (depth T + depth (updated E T ops)), fun fuel hfuel => ?_⟩
  obtain ⟨m, t, hrun, ht, hserves⟩ := buildStorageTrie_serves hinv hsliced
    (sliced_updated hsliced hops) hinj hzero hroot hbefore hafter hfuel
  refine ⟨m, hrun, ?_, fun slot hslot => ?_, fun ops' hperm => ?_⟩
  · rw [hash_tabulates ht, hserves.hash_eq]
  · obtain ⟨o, ho⟩ := get_of_resolved hT.resolved (slotNibs E slot)
    exact ⟨o, ho, get_tabulates ht ((hserves.get_eq _ (List.mem_map_of_mem hslot)).trans ho)⟩
  · have hproved : ∀ op ∈ ops'.map (slotOp E),
        op.1 ∈ slots.map (slotNibs E) ∧ op.1 ∈ fini.map (slotNibs E) := by
      intro op hop
      obtain ⟨x, hx, rfl⟩ := List.mem_map.mp hop
      have hx' := hperm.mem_iff.mp hx
      exact ⟨List.mem_map_of_mem (hslots x hx'), List.mem_map_of_mem (hfini x hx')⟩
    obtain ⟨t', hw, hhash⟩ := hserves.writes _ hproved (updated_perm hperm hnodup)
    obtain ⟨rets, m', hcollect, hm'⟩ := applyOps_tracks ht hw
    exact ⟨rets, m', hcollect, by rw [hash_tabulates hm', hhash]⟩

/-! ## A block that deletes two of four slots -/

def slotZero : B256 :=
  B256.ofNat 0x290decd9548b62a8d60345a988386fc84ba6bc95484008f6362f93160ef3e563

def slotOne : B256 :=
  B256.ofNat 0xb10e2d527612073b26eecdfd717e6a320cf44b4afac2b0732d9fcbe2b7fa0cf6

def slotTwo : B256 :=
  B256.ofNat 0x405787fa12a823e0f2b7631cc41b3ba8828b3321ca811111fa75cd3aa3bb5ace

/-- The hash of slot 24, which shares two nibbles with that of slot 1. -/
def slotNear : B256 :=
  B256.ofNat 0xb13d2d76d1f4b7be834882e410b3e3a8afaf69f83600ae24db354391d2378d2e

/-- What is left of the path of a hashed slot. -/
def slotPath (slot : B256) (above : Nat) : List Nibble := (Hp.keyNibs slot.bytes).drop above

theorem length_slotPath (slot : B256) (above : Nat) :
    (slotPath slot above).length = 64 - above := by
  rw [slotPath, List.length_drop, length_keyNibs_b256]

/-- The two slots that stay. -/
def keptSlots : Trie := fork 0 (leaf (slotPath slotOne 3) [6]) 3 (leaf (slotPath slotNear 3) [8])

/-- Slot 2 beside the slots that stay. -/
def threeSlots : Nibble → Trie :=
  Function.update (Function.update (fun _ => null) 4 (leaf (slotPath slotTwo 1) [7])) 11
    (ext [1] keptSlots)

def fourSlots : Trie := branch (Function.update threeSlots 2 (leaf (slotPath slotZero 1) [5]))

/-- Without slots 0 and 2 the root collapses onto the extension. -/
def mergedSlots : Trie := ext [11, 1] keptSlots

def leafZero : B256 :=
  B256.ofNat 0x9ae7808229da169d14e5bc2a4429fd27b491c217358e63b4d2546738a7e9e265

def leafOne : B256 :=
  B256.ofNat 0xaa0be2e72c0d0de0f6cb2ca34dddb282d39d8cac8f790351db0d100bb685a424

def leafTwo : B256 :=
  B256.ofNat 0xaeea411ec8f6c86ff8793f52f19a92238753cb25b280b7d2eaf17917402616d3

def leafNear : B256 :=
  B256.ofNat 0x9586c7b996ed337f171270eda6545c7cf55081c75f5aa7628cd3885ba3413db4

def keptHash : B256 :=
  B256.ofNat 0xc1ea5db02dabb07a6e5264141de491103346093dd789b3a7904abd6b6fe7b47d

def keptExtension : B256 :=
  B256.ofNat 0x29e000112af78936572b566cfffe7d67d6a75ea55180fb7fb177696cbf4ff361

def leafBytes (slot : B256) (value : UInt8) : Bytes :=
  [0xe2, 0xa0] ++ Hp.encode (slotPath slot 1) true ++ [value]

def keptLeafBytes (slot : B256) (value : UInt8) : Bytes :=
  [0xe1, 0x9f] ++ Hp.encode (slotPath slot 3) true ++ [value]

def keptBytes : Bytes :=
  [0xf8, 0x51, 0xa0] ++ leafOne.bytes ++ [0x80, 0x80, 0xa0] ++ leafNear.bytes ++
    List.replicate 13 0x80

def rootBytes : Bytes :=
  [0xf8, 0x71, 0x80, 0x80, 0xa0] ++ leafZero.bytes ++ [0x80, 0xa0] ++ leafTwo.bytes ++
    List.replicate 6 0x80 ++ [0xa0] ++ keptExtension.bytes ++ List.replicate 5 0x80

/-- The strings that are hashed for the block: the nodes before and after it, and the extension
after it with shorter paths. -/
def blockStrings : List Bytes :=
  [leafBytes slotZero 5, leafBytes slotTwo 7, keptLeafBytes slotOne 6, keptLeafBytes slotNear 8,
    keptBytes, [0xe2, 0x11, 0xa0] ++ keptHash.bytes, rootBytes,
    [0xe4, 0x82, 0x00, 0xb1, 0xa0] ++ keptHash.bytes, [0xe2, 0x00, 0xa0] ++ keptHash.bytes]

def fourRoot : B256 :=
  B256.ofNat 0x35268da38db0a9ea5dc8eecdc8a693b30d96fb402cb8902ca641e1e58a585232

def mergedRoot : B256 :=
  B256.ofNat 0x657df5cb8428efe2c50bf38b2a3926f6562079b075a9b9dfb8d26347b3ab9ea5

/-- The account whose storage it is, before and after the block. -/
def accountBefore : TrieAccount := ⟨1, 7, fourRoot, EthereumState.noCode⟩

def accountAfter : TrieAccount := ⟨2, 7, mergedRoot, EthereumState.noCode⟩

/-- The state trie with one account. -/
def accountBytes (account : TrieAccount) : Bytes :=
  [0xf8, 0x6a, 0xa1, 0x20] ++ EthereumState.hashedOne.bytes ++ [0xb8, 0x46] ++
    Rlp.encodeAccount account

/-- `keccak256` on the strings of the block, on the slots and on the address. -/
def blockTable : List (Bytes × B256) :=
  [((B256.ofNat 0).bytes, slotZero), ((B256.ofNat 2).bytes, slotTwo),
   (EthereumState.addressOne.bytes, EthereumState.hashedOne),
   (accountBytes accountBefore,
    B256.ofNat 0x504a55a5c7eeb7e22d4e748a5b23964baba8534793da36dd2956dfed1eeeb947),
   (accountBytes accountAfter,
    B256.ofNat 0x70a1806765cfd1b504e39c588b3a795a467df3bcce9fc6d128c153841c14c1a0),
   (leafBytes slotZero 5, leafZero), (leafBytes slotTwo 7, leafTwo),
   (keptLeafBytes slotOne 6, leafOne), (keptLeafBytes slotNear 8, leafNear),
   (keptBytes, keptHash), ([0xe2, 0x11, 0xa0] ++ keptHash.bytes, keptExtension),
   (rootBytes, fourRoot), ([0xe4, 0x82, 0x00, 0xb1, 0xa0] ++ keptHash.bytes, mergedRoot),
   ([0xe2, 0x00, 0xa0] ++ keptHash.bytes,
    B256.ofNat 0x83fec8bbcc0e4ac6ea5fde6868b8b42bee20d8aa9317bb63249654c4395121f5)]

def blockEnv : Env := Env.ofTable blockTable

theorem isTrie_leaf {n : Nat} {p : List Nibble} {v : Bytes} (h : p.length = n) :
    IsTrie n (leaf p v : Trie) := ⟨trivial, trivial, h⟩

theorem isTrie_branch {n : Nat} {c : Nibble → Trie} (h : 2 ≤ (occupied c).length)
    (hc : ∀ i, IsTrie n (c i)) : IsTrie (n + 1) (branch c) :=
  ⟨⟨h, fun i => (hc i).normal⟩, fun i => (hc i).resolved, Nat.succ_pos n, fun i => (hc i).sized⟩

theorem isTrie_keptSlots : IsTrie 62 keptSlots :=
  isTrie_branch (two_le_occupied (i := 0) (j := 3) (by decide) (by simp) (by simp))
    (fork_forall (Q := IsTrie 61) ⟨trivial, trivial, trivial⟩ (isTrie_leaf (length_slotPath _ 3))
      (isTrie_leaf (length_slotPath _ 3)) 0 3)

theorem isTrie_extSlots : IsTrie 63 (ext [1] keptSlots) :=
  ⟨⟨by simp, trivial, isTrie_keptSlots.normal⟩, isTrie_keptSlots.resolved, by decide,
    isTrie_keptSlots.sized⟩

theorem isTrie_threeSlots (i : Nibble) : IsTrie 63 (threeSlots i) :=
  fork_forall (Q := IsTrie 63) ⟨trivial, trivial, trivial⟩ (isTrie_leaf (length_slotPath _ 1))
    isTrie_extSlots 4 11 i

theorem two_le_threeSlots : 2 ≤ (occupied threeSlots).length :=
  two_le_occupied (i := 4) (j := 11) (by decide) (by simp [threeSlots]) (by simp [threeSlots])

theorem isTrie_fourSlots : IsTrie 64 fourSlots := by
  refine isTrie_branch (two_le_occupied_update two_le_threeSlots (by simp)) fun i => ?_
  by_cases h : i = 2
  · rw [h, Function.update_self]
    exact isTrie_leaf (length_slotPath _ 1)
  · rw [Function.update_of_ne h]
    exact isTrie_threeSlots i

def blockSlots : List B256 := [B256.ofNat 0, B256.ofNat 2]

def blockOps : List (B256 × Option Bytes) := [(B256.ofNat 0, none), (B256.ofNat 2, none)]

/-- Two slots are left after the first deletion, so the root stays a branch. -/
theorem delete_slotZero :
    fourSlots.delete (slotNibs blockEnv (B256.ofNat 0)) = .ok (true, branch threeSlots) := by
  have hkey : slotNibs blockEnv (B256.ofNat 0) = 2 :: slotPath slotZero 1 := by decide +kernel
  have hself : Function.update (Function.update threeSlots 2 (leaf (slotPath slotZero 1) [5])) 2
      null = threeSlots := by
    rw [Function.update_idem, Function.update_eq_self_iff]
    rfl
  rw [hkey, fourSlots, delete_branch isTrie_fourSlots.normal, Function.update_self, Radix.delete,
    if_pos rfl]
  show Except.ok (true, collapse _) = _
  rw [hself, collapse_many two_le_threeSlots]

/-- The second deletion collapses the root. -/
theorem delete_slotTwo : (branch threeSlots).delete (slotNibs blockEnv (B256.ofNat 2)) =
    .ok (true, mergedSlots) := by
  have hkey : slotNibs blockEnv (B256.ofNat 2) = 4 :: slotPath slotTwo 1 := by decide +kernel
  have hslot : threeSlots 4 = leaf (slotPath slotTwo 1) [7] := rfl
  have hlast : Function.update threeSlots 4 null 11 = ext [1] keptSlots := rfl
  have hnormal : (branch threeSlots).Normal :=
    ⟨two_le_threeSlots, fun i => (isTrie_threeSlots i).normal⟩
  rw [hkey, delete_branch hnormal, hslot, Radix.delete, if_pos rfl]
  show Except.ok (true, collapse _) = _
  rw [collapse_one (j := 11) (by rw [hlast]; simp) fun i hi => ?_, hlast]
  · rfl
  · by_cases h : i = 4
    · rw [h, Function.update_self]
    · rw [Function.update_of_ne h, threeSlots, Function.update_of_ne hi, Function.update_of_ne h]

theorem updated_fourSlots : updated blockEnv fourSlots blockOps = mergedSlots := by
  have hdelete : ∀ {n : Nat} {μ : List Nibble → Option Bytes} {key : List Nibble} {b : Bool}
      {T' : Trie}, key.length = n → (canonical n μ : Trie).delete key = .ok (b, T') →
      T' = canonical n (Function.update μ key none) := by
    intro n μ key b T' hk h
    rw [delete_canonical μ hk, Except.ok.injEq, Prod.mk.injEq] at h
    exact h.2.symm
  have h₁ := delete_slotZero
  rw [eq_canonical_valueAt isTrie_fourSlots] at h₁
  have h₂ := delete_slotTwo
  rw [hdelete (length_keyNibs_b256 _) h₁] at h₂
  exact (hdelete (length_keyNibs_b256 _) h₂).symm

def proofsBefore : AccountProof :=
  ⟨[], Trie.hash blockEnv fourSlots, storageProofsOf blockEnv fourSlots blockSlots⟩

def proofsAfter : AccountProof :=
  ⟨[], Trie.hash blockEnv mergedSlots, storageProofsOf blockEnv mergedSlots blockSlots⟩

theorem values_fourSlots : AllValues (fun v => v.length < 2 ^ 63) fourSlots := by
  have hshort : ∀ v : UInt8, ([v] : Bytes).length < 2 ^ 63 := fun v => by norm_num
  have hkept : AllValues (fun v => v.length < 2 ^ 63) keptSlots :=
    fork_forall (Q := AllValues fun v => v.length < 2 ^ 63) (t := leaf (slotPath slotOne 3) [6])
      (u := leaf (slotPath slotNear 3) [8]) trivial (hshort 6) (hshort 8) 0 3
  intro i
  by_cases h : i = 2
  · rw [h, Function.update_self]
    exact hshort 5
  · rw [Function.update_of_ne h]
    exact fork_forall (Q := AllValues fun v => v.length < 2 ^ 63)
      (t := leaf (slotPath slotTwo 1) [7]) (u := ext [1] keptSlots) trivial (hshort 7) hkept 4 11 i

theorem noCollision_blockSlots :
    NoCollision blockEnv (blockEncodings blockEnv fourSlots mergedSlots blockSlots) := by
  have hstrings : ∀ b ∈ blockEncodings blockEnv fourSlots mergedSlots blockSlots,
      b ∈ blockStrings := by
    decide +kernel
  have hno : NoCollision blockEnv blockStrings := by decide +kernel
  exact fun x hx y hy => hno x (hstrings x hx) y (hstrings y hy)

/-- Slots 0 and 2 are deleted.  The extension that stays is not on their paths before the block: it
is found as a shortening of the extension after it. -/
theorem buildStorageTrie_complete_sample :
    updated blockEnv fourSlots blockOps = mergedSlots ∧
    ∃ n, ∀ fuel, n ≤ fuel → ∃ m, buildStorageTrie blockEnv fuel proofsBefore proofsAfter = .ok m ∧
      (hash blockEnv m).1 = .ok (Trie.hash blockEnv fourSlots) ∧
      (∀ slot ∈ blockSlots, ∃ o, fourSlots.get (slotNibs blockEnv slot) = .ok o ∧
        get (blockEnv.keccak256 slot.bytes).bytes m = (.ok o, m)) ∧
      ∀ ops', ops'.Perm blockOps → ∃ rets m',
        Exec.collect (applyOp blockEnv) ops' m = (.ok rets, m') ∧
          (hash blockEnv m').1 =
            .ok (Trie.hash blockEnv (updated blockEnv fourSlots blockOps)) := by
  have hslots : ∀ op ∈ blockOps, op.1 ∈ blockSlots := by simp [blockOps, blockSlots]
  have hinj : NoCollision blockEnv
      (blockEncodings blockEnv fourSlots (updated blockEnv fourSlots blockOps) blockSlots) := by
    rw [updated_fourSlots]
    exact noCollision_blockSlots
  have hafter : proofsAfter.storageProofs =
      storageProofsOf blockEnv (updated blockEnv fourSlots blockOps) blockSlots := by
    rw [updated_fourSlots]
    rfl
  have hops : ∀ op ∈ blockOps, ∀ v, op.2 = some v → v.length < 2 ^ 63 := by
    simp [blockOps]
  have hzero : blockSlots = [] → Trie.hash blockEnv fourSlots ≠ B256.ofNat 0 := by
    simp [blockSlots]
  refine ⟨updated_fourSlots, buildStorageTrie_complete blockEnv Rlp.inverse_decodeHeader
    isTrie_fourSlots (fun key v => allValues_get values_fourSlots) hslots hslots
    (by decide +kernel) hops hinj hzero ?_ ?_ hafter⟩
  · simp only [proofsBefore]
  · simp only [proofsBefore]

end Mpt
end CenoReth
