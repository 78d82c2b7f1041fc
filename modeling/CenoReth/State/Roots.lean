/-
The storage roots of the eager update.

The eager update writes the slots of an account into the storage trie that was
supplied for it, or into an empty one.  The storage root it writes is compared
with the root of the parent's storage after the same slots.  They agree for a
trie that was supplied unless one of its digests is stranded, and without a trie
only if the slots cover the whole storage.
-/
import CenoReth.Mpt.Stranded
import CenoReth.State.After
import CenoReth.State.Replay

namespace CenoReth

open Patricia Patricia.Radix Trie

/-! ## Roots after writes -/

namespace Trie

variable {E : Env} {n : Nat} {H : Set Bytes}

/-- The root after all writes to a trie that is known in part. -/
theorem hash_writeAll_iff (hinj : Set.InjOn E.keccak256 H) (hn : n < 2 ^ 64)
    {s s' : Sparse 16 Bytes B256 n} {T : Trie} (hT : IsTrie n T) (hs : Mpt.Stands E s.compress T)
    {ops : List (List Nibble × Option Bytes)} (hlen : ∀ op ∈ ops, op.1.length = n)
    (hw : s.writeAll ops = some s')
    (hv : ∀ key v, writeMap (Mpt.valueAt T) ops key = some v → v.length < 2 ^ 64)
    (hP : hashed E s'.compress ⊆ H)
    (hT' : hashed E (canonical n (writeMap (Mpt.valueAt T) ops)) ⊆ H) :
    Trie.hash E s'.compress = Trie.hash E (canonical n (writeMap (Mpt.valueAt T) ops)) ↔
      ¬ Stranded s.compress T (canonical n (writeMap (Mpt.valueAt T) ops)) := by
  have hcanon := Mpt.eq_canonical_valueAt hT
  rcases hs with hview | hdigest
  · rw [hcanon] at hview
    have hcases := writeAll_view_or_slip hview hlen hw
    rw [← hcanon] at hcases
    rcases hcases with ⟨hns, hv'⟩ | ⟨hst, hslip⟩
    · exact iff_of_true hv'.hash_eq hns
    · refine iff_of_false (fun heq => hslip.not_view ?_) (not_not.mpr hst)
      have hm' := (masks_of_view s hview).writeAll hlen hw
      have hsized := Sparse.sized_compress s'
      refine view_of_hash hslip.isList.1 hslip.isList.2
        (Normal.noHole (Sparse.normal_compress s')) (resolved_canonical n _)
        (Normal.noHole (normal_canonical n _)) ?_ ?_ (hinj.mono (Set.union_subset hP hT')) heq
      · refine fits_of_sized hsized hn (Mpt.allValues_of_get hsized fun key v hk hg => hv key v ?_)
        rw [Sparse.get_compress s' hk] at hg
        exact (hm'.get_eq hk hg).symm
      · refine fits_of_sized (isTrie_canonical n _).sized hn
          (Mpt.allValues_of_get (isTrie_canonical n _).sized fun key v hk hg => hv key v ?_)
        exact (get_canonical_iff.mp hg).2
  · -- nothing can be written below a digest
    have hroot : s = .digest (Trie.hash E T) :=
      Sparse.digestAt_nil ((Sparse.subtree_compress s).mp ((subtree_nil _).trans
        (congrArg some hdigest)))
    subst hroot
    have hnot : ¬ Stranded (digest (Trie.hash E T)) T (canonical n (writeMap (Mpt.valueAt T) ops)) := by
      rintro ⟨p, i, x, t, hx, _⟩
      cases p <;> simp [Radix.subtree] at hx
    refine iff_of_true ?_ hnot
    cases ops with
    | nil =>
      obtain rfl : Sparse.digest (Trie.hash E T) = s' := by simpa [Sparse.writeAll] using hw
      show Trie.hash E T = Trie.hash E (canonical n (Mpt.valueAt T))
      rw [← hcanon]
    | cons op ops =>
      rw [show op = (op.1, op.2) from rfl, Sparse.writeAll_cons] at hw
      simp [Sparse.write, Sparse.get] at hw

/-- The root after writes to an empty trie is the root after the writes to another one exactly
when the writes cover that one. -/
theorem hash_covered_iff (hinj : Set.InjOn E.keccak256 H)
    (h0 : E.emptyRootHash = E.keccak256 [Rlp.emptyStringCode]) (hmem : [Rlp.emptyStringCode] ∈ H)
    (hn : n < 2 ^ 64) {μ : List Nibble → Option Bytes} {ops : List (List Nibble × Option Bytes)}
    (hv : ∀ ν : List Nibble → Option Bytes, ν = μ ∨ ν = (fun _ => none) →
      ∀ key v, writeMap ν ops key = some v → v.length < 2 ^ 64)
    (hP : hashed E (canonical n (writeMap (fun _ => none) ops)) ⊆ H)
    (hT : hashed E (canonical n (writeMap μ ops)) ⊆ H) :
    Trie.hash E (canonical n (writeMap (fun _ => none) ops)) =
        Trie.hash E (canonical n (writeMap μ ops)) ↔
      ∀ key v, key.length = n → μ key = some v → ∃ op ∈ ops, op.1 = key := by
  have hfits : ∀ ν : List Nibble → Option Bytes, ν = μ ∨ ν = (fun _ => none) →
      Fits (canonical n (writeMap ν ops)) := fun ν hν =>
    fits_of_sized (isTrie_canonical n _).sized hn
      (Mpt.allValues_of_get (isTrie_canonical n _).sized fun key v hk hg =>
        hv ν hν key v (get_canonical_iff.mp hg).2)
  constructor
  · intro heq key v hk hμ
    have htries := Mpt.eq_of_hash hinj h0 hmem (resolved_canonical n _)
      (Normal.noHole (normal_canonical n _)) (resolved_canonical n _)
      (Normal.noHole (normal_canonical n _)) (hfits _ (.inr rfl)) (hfits μ (.inl rfl)) hP hT heq
    by_contra hnot
    have hne : ∀ op ∈ ops, op.1 ≠ key := fun op hop h => hnot ⟨op, hop, h⟩
    have hget : (canonical n (writeMap μ ops) : Trie).get key = .ok (some v) :=
      get_canonical_iff.mpr ⟨hk, (writeMap_of_not_mem hne).trans hμ⟩
    rw [← htries] at hget
    have hnone := (get_canonical_iff.mp hget).2
    rw [writeMap_of_not_mem hne] at hnone
    cases hnone
  · intro hcover
    congr 1
    refine canonical_congr n fun key hk => ?_
    by_cases hmem : ∃ op ∈ ops, op.1 = key
    · exact writeMap_of_mem hmem
    · have hne : ∀ op ∈ ops, op.1 ≠ key := fun op hop h => hmem ⟨op, hop, h⟩
      rw [writeMap_of_not_mem hne, writeMap_of_not_mem hne]
      cases hμ : μ key with
      | none => rfl
      | some v => exact absurd (hcover key v hk hμ) hmem

end Trie

/-! ## What the eager update writes -/

namespace EthereumState

variable {C : ClientEnv}

/-- Changes are writes. -/
theorem changeMap_eq_writeMap : ∀ (changes : List (List Nibble × Mpt.Change))
    (μ : List Nibble → Option Bytes), Mpt.changeMap μ changes =
      writeMap μ (changes.map fun change => (change.1, change.2.value))
  | [], _ => rfl
  | change :: changes, μ => by
    rw [List.map_cons, writeMap_cons, Mpt.changeMap]
    exact changeMap_eq_writeMap changes _

/-- The slots of an account, as writes and as changes. -/
theorem changeMap_slots (C : ClientEnv) (storage : List (U256 × U256))
    (μ : List Nibble → Option Bytes) :
    Mpt.changeMap μ (storage.map (FullState.slotChange C)) =
      writeMap μ (storage.map (slotWrite C.toStateEnv)) := by
  have hslot : ∀ slot : U256 × U256, ((FullState.slotChange C slot).1,
      (FullState.slotChange C slot).2.value) = slotWrite C.toStateEnv slot := by
    intro slot
    by_cases hv : slot.2 = 0 <;> simp [FullState.slotChange, slotWrite, hv, Mpt.Change.value]
  rw [changeMap_eq_writeMap, List.map_map, Function.comp_def]
  simp only [hslot]

theorem storageAfter_eq (S : FullState) (a : B256) (account : BundleAccount) :
    S.storageAfter C a account = canonical 64 (writeMap (Mpt.valueAt (S.storageBefore a account))
      (account.storage.map (slotWrite C.toStateEnv))) := by
  rw [FullState.storageAfter, changeMap_slots]

theorem length_slotWrite {storage : List (U256 × U256)} :
    ∀ op ∈ storage.map (slotWrite C.toStateEnv), op.1.length = 64 := by
  intro op hop
  obtain ⟨slot, _, rfl⟩ := List.mem_map.mp hop
  exact Mpt.length_keyNibs_b256 _

/-- An update for other addresses. -/
theorem updateAll_other : ∀ {bundle : Bundle} {T T' : Tables}, T.updateAll C.toStateEnv bundle =
    some T' → ∀ {a : B256}, (∀ entry ∈ bundle, C.keccak256 entry.1.bytes ≠ a) →
    T'.storage a = T.storage a ∧
      T'.state.get (Hp.keyNibs a.bytes) = T.state.get (Hp.keyNibs a.bytes)
  | [], T, T', h, a, _ => by
    obtain rfl : T = T' := by simpa [Tables.updateAll] using h
    exact ⟨rfl, rfl⟩
  | first :: bundle, T, T', h, a, hne => by
    rw [Tables.updateAll_cons] at h
    obtain ⟨T₁, h₁, h⟩ := Option.bind_eq_some_iff.mp h
    rw [Tables.update_eq] at h₁
    obtain ⟨o, _, h₁⟩ := Option.bind_eq_some_iff.mp h₁
    obtain ⟨t₁, ht₁, rfl⟩ := Option.map_eq_some_iff.mp h₁
    obtain ⟨-, rfl⟩ := Sparse.of_write ht₁
    have hfirst := Ne.symm (hne first (by simp))
    obtain ⟨hstorage, hstate⟩ := updateAll_other h fun entry hentry => hne entry (by simp [hentry])
    refine ⟨hstorage.trans (Function.update_of_ne hfirst _ _), hstate.trans ?_⟩
    refine Sparse.get_set_ne T.state (Mpt.length_keyNibs_b256 _) (Mpt.length_keyNibs_b256 _) (fun heq => ?_) _
    exact hfirst (B256.ext (Hp.keyNibs_injective heq))

/-- What a whole update leaves for an account of the bundle: its storage, and its record. -/
theorem updateAll_entry : ∀ {bundle : Bundle} {T T' : Tables},
    (bundle.map fun entry => C.keccak256 entry.1.bytes).Nodup →
    T.updateAll C.toStateEnv bundle = some T' → ∀ entry ∈ bundle, ∀ info,
    entry.2.info = some info →
    ∃ t, (parentTable T (C.keccak256 entry.1.bytes) entry.2).writeAll
        (entry.2.storage.map (slotWrite C.toStateEnv)) = some t ∧
      T'.storage (C.keccak256 entry.1.bytes) = some t ∧
      T'.state.get (Hp.keyNibs (C.keccak256 entry.1.bytes).bytes) =
        .ok (some (C.encodeAccount (accountOf C.toStateEnv info t)))
  | [], _, _, _, _, entry, hentry, _, _ => by simp at hentry
  | first :: bundle, T, T', hnd, h, entry, hentry, info, hinfo => by
    rw [Tables.updateAll_cons] at h
    obtain ⟨T₁, h₁, h⟩ := Option.bind_eq_some_iff.mp h
    rw [Tables.update_eq] at h₁
    obtain ⟨o, ho, h₁⟩ := Option.bind_eq_some_iff.mp h₁
    obtain ⟨t₁, ht₁, rfl⟩ := Option.map_eq_some_iff.mp h₁
    rw [List.map_cons, List.nodup_cons] at hnd
    rcases List.mem_cons.mp hentry with rfl | hmem
    · -- the later turns are for other addresses
      obtain ⟨t, ht, rfl⟩ : ∃ t, (parentTable T (C.keccak256 entry.1.bytes) entry.2).writeAll
          (entry.2.storage.map (slotWrite C.toStateEnv)) = some t ∧ o = some t := by
        rw [Tables.storageAfter, hinfo] at ho
        obtain ⟨t, ht, rfl⟩ := Option.map_eq_some_iff.mp ho
        exact ⟨t, ht, rfl⟩
      have hkept := updateAll_other h (a := C.keccak256 entry.1.bytes) fun x hx heq =>
        hnd.1 (List.mem_map.mpr ⟨x, hx, heq⟩)
      obtain ⟨⟨o', ho'⟩, rfl⟩ := Sparse.of_write ht₁
      refine ⟨t, ht, hkept.1.trans (Function.update_self _ _ _), hkept.2.trans ?_⟩
      rw [Sparse.get_set_self T.state (Mpt.length_keyNibs_b256 _) ho']
      simp [record, hinfo]
    · obtain ⟨t, ht, hstorage, hstate⟩ := updateAll_entry hnd.2 h entry hmem info hinfo
      refine ⟨t, ?_, hstorage, hstate⟩
      have hne : C.keccak256 entry.1.bytes ≠ C.keccak256 first.1.bytes := fun heq =>
        hnd.1 (List.mem_map.mpr ⟨entry, hmem, heq⟩)
      rw [← ht]
      simp only [parentTable, Function.update_of_ne hne]

/-! ## What was built -/

theorem exists_table {E : Env} {P T : Trie} (hT : IsTrie 64 T) (h : Mpt.Stands E P T) :
    ∃ t : Table, t.compress = P := by
  rcases h with hv | rfl
  · exact exists_compress P (hv.normal hT.normal) (hv.sized hT.sized)
  · exact ⟨.digest (Trie.hash E T), rfl⟩

/-- The strings that are hashed: nodes of the parent state, of the input, and of the storage tries
that the update should leave and that it leaves. -/
inductive HashedEagerly (C : ClientEnv) (S : FullState) (input : ClientExecutorInput)
    (bundle : Bundle) (s' : EthereumState) : Bytes → Prop
  | empty : HashedEagerly C S input bundle s' [Rlp.emptyStringCode]
  | state {b : Bytes} (h : b ∈ Mpt.nodes C.toEnv S.state) : HashedEagerly C S input bundle s' b
  | storage {b : Bytes} (a : B256) (h : b ∈ Mpt.nodes C.toEnv (S.storage a)) :
      HashedEagerly C S input bundle s' b
  | stateInput {b : Bytes} (h : b ∈ Mpt.hashedNodes C.toEnv input.stateTrie.2) :
      HashedEagerly C S input bundle s' b
  | storageInput {b : Bytes} {entry : B256 × Nat × Bytes} (he : entry ∈ input.storageTries)
      (h : b ∈ Mpt.hashedNodes C.toEnv entry.2.2) : HashedEagerly C S input bundle s' b
  | address {entry : Address × BundleAccount} (h : entry ∈ bundle) :
      HashedEagerly C S input bundle s' entry.1.bytes
  | after {b : Bytes} {entry : Address × BundleAccount} (he : entry ∈ bundle)
      (h : b ∈ hashed C.toEnv (S.storageAfter C (C.keccak256 entry.1.bytes) entry.2)) :
      HashedEagerly C S input bundle s' b
  | written {b : Bytes} {a : B256} {m : Mpt} {P : Trie} (hm : s'.storageTries a = some m)
      (hP : Mpt.Represents C.toEnv m P) (h : b ∈ hashed C.toEnv P) :
      HashedEagerly C S input bundle s' b

section Built

variable {S : FullState} {input : ClientExecutorInput} {bundle : Bundle} {s s' : EthereumState}
  {parent : BlockHeader}

/-- The tables of an accepted input: each stands for the trie of the parent state. -/
theorem exists_tables (hE : Mpt.Faithful C.toEnv) (hb : build C input = .ok s)
    (hparent : input.ancestorHeaders.head? = some parent) (hS : S.Sound C parent.stateRoot)
    (hinj : Set.InjOn C.keccak256 {b | HashedEagerly C S input bundle s' b}) :
    ∃ T, Holds C.toEnv s T ∧ Mpt.Stands C.toEnv T.state.compress S.state ∧
      ∀ a t, T.storage a = some t → Mpt.Stands C.toEnv t.compress (S.storage a) := by
  obtain ⟨root, parent', hstate, hhead, hroot, -⟩ := of_build_ok hb
  obtain rfl : parent = parent' := Option.some.inj (hparent.symm.trans hhead)
  obtain ⟨⟨_, hdec⟩, hhash⟩ := decodeAndHash_ok hE hstate
  rw [hroot, ← hS.root] at hhash
  obtain ⟨P, hP, hstands⟩ := Mpt.decodeTrie_stands hE hinj .empty hdec hhash
    (Mpt.small_of_sized hS.state.sized (by omega) hS.stateValues) hS.state.normal
    hS.state.resolved (fun b hb => .stateInput hb) fun b hb => .state hb
  obtain ⟨state, rfl⟩ := exists_table hS.state hstands
  have hstorage : ∀ a, ∃ o, Option.Rel (Mpt.Tabulates C.toEnv) (s.storageTries a) o ∧
      ∀ t, o = some t → Mpt.Stands C.toEnv t.compress (S.storage a) := by
    intro a
    cases ha : s.storageTries a with
    | none => exact ⟨none, .none, by simp⟩
    | some m =>
      obtain ⟨numNodes, bytes, root', account, hfind, hdec', hacc, hroot'⟩ :=
        supplied_of_build hb a m ha
      obtain ⟨⟨_, hd⟩, hh⟩ := decodeAndHash_ok hE hdec'
      have hstores : S.Stores C a account := by
        obtain ⟨o, ho, hacc⟩ := (Mpt.getRlpNibbles_eq.2 account).mp hacc
        rw [← Hp.map_toByte_keyNibs, Mpt.getNibbles_spec hP] at ho
        exact ⟨o, (hstands.known (H := Set.univ) (Set.subset_univ _)).get_eq
          (Exec.of_mapError_ok ho), hacc⟩
      rw [hroot', ← hS.storageRoot a account hstores] at hh
      obtain ⟨Q, hQ, hstands'⟩ := Mpt.decodeTrie_stands hE hinj .empty hd hh
        (Mpt.small_of_sized (hS.storage a).sized (by omega) (hS.storageValues a))
        (hS.storage a).normal (hS.storage a).resolved
        (fun b hb => .storageInput (List.mem_reverse.mp (List.mem_of_find?_eq_some hfind)) hb)
        fun b hb => .storage a hb
      obtain ⟨t, rfl⟩ := exists_table (hS.storage a) hstands'
      exact ⟨some t, .some hQ, fun t' ht => Option.some.inj ht ▸ hstands'⟩
  choose storage hrel hst using hstorage
  exact ⟨⟨state, storage⟩, ⟨hP, hrel⟩, hstands, fun a t ht => hst a t ht⟩

/-- What the update of an account that was not destroyed needs: a storage trie with no digest that
the slots strand, or no storage trie and slots that cover the storage. -/
def Suffices (C : ClientEnv) (S : FullState) (s : EthereumState) (a : B256)
    (account : BundleAccount) : Prop :=
  match s.storageTries a with
  | none => ∀ key v, (S.storage a).get key = .ok (some v) →
      ∃ slot ∈ account.storage, key = Hp.keyNibs (C.keccak256 slot.1.toBeBytes).bytes
  | some m => ∀ P, Mpt.Represents C.toEnv m P → P.Normal →
      ¬ Stranded P (S.storage a) (S.storageAfter C a account)

/-- What is written to an empty table. -/
theorem writeAll_emptyTable {ops : List (List Nibble × Option Bytes)}
    (hlen : ∀ op ∈ ops, op.1.length = 64) {t : Table} (h : emptyTable.writeAll ops = some t) :
    t.compress = canonical 64 (writeMap (fun _ => none) ops) := by
  have hmap : ∀ {n : Nat} {ops : List (List Nibble × Option Bytes)}
      {μ : List Nibble → Option Bytes}, (∀ op ∈ ops, op.1.length = n) →
      (Sparse.ofMap n μ : Sparse 16 Bytes B256 n).writeAll ops =
        some (Sparse.ofMap n (writeMap μ ops)) := by
    intro n ops
    induction ops with
    | nil => exact fun _ => rfl
    | cons op ops ih =>
      intro μ hlen
      have hop := hlen op (by simp)
      rw [show op = (op.1, op.2) from rfl, Sparse.writeAll_cons,
        Sparse.write_of_get (Sparse.get_ofMap n μ hop), Option.bind_some,
        Sparse.set_ofMap n μ hop, ih fun op' hop' => hlen op' (by simp [hop'])]
      rfl
  unfold emptyTable at h
  rw [hmap hlen] at h
  exact congrArg Sparse.compress (Option.some.inj h).symm

/-- The values of a storage trie after the slots were written are short. -/
theorem length_storage_lt (hS : S.Sound C parent.stateRoot)
    (hshort : ∀ n, (C.encodeU256 n).length < 2 ^ 63) (a : B256) {μ : List Nibble → Option Bytes}
    (hμ : μ = Mpt.valueAt (S.storage a) ∨ μ = fun _ => none) (storage : List (U256 × U256)) :
    ∀ key v, writeMap μ (storage.map (slotWrite C.toStateEnv)) key = some v → v.length < 2 ^ 64 := by
  have hlt : (2 : Nat) ^ 63 < 2 ^ 64 := by norm_num
  refine writeMap_forall (fun key v hv => ?_) fun op hop v hv => ?_
  · rcases hμ with rfl | rfl
    · unfold Mpt.valueAt at hv
      cases hg : (S.storage a).get key with
      | error e => simp [hg] at hv
      | ok o =>
        simp only [hg] at hv
        exact (Mpt.allValues_get (hS.storageValues a) (hv ▸ hg)).trans hlt
    · cases hv
  · obtain ⟨slot, _, rfl⟩ := List.mem_map.mp hop
    simp only [slotWrite, Option.ite_none_left_eq_some] at hv
    rw [← Option.some.inj hv.2]
    exact (hshort _).trans hlt

/-- The root of the storage that the update leaves for an account is the one it should leave,
exactly when what it started from suffices. -/
theorem storageRoot_iff (hE : Mpt.Faithful C.toEnv) (hS : S.Sound C parent.stateRoot)
    (hshort : ∀ n, (C.encodeU256 n).length < 2 ^ 63)
    (hinj : Set.InjOn C.keccak256 {b | HashedEagerly C S input bundle s' b}) {T T' : Tables}
    (hT : Holds C.toEnv s T) (hT' : Holds C.toEnv s' T')
    (hst : ∀ a t, T.storage a = some t → Mpt.Stands C.toEnv t.compress (S.storage a))
    {entry : Address × BundleAccount} (hentry : entry ∈ bundle) {t : Table}
    (hw : (parentTable T (C.keccak256 entry.1.bytes) entry.2).writeAll
      (entry.2.storage.map (slotWrite C.toStateEnv)) = some t)
    (ht : T'.storage (C.keccak256 entry.1.bytes) = some t) :
    Trie.hash C.toEnv t.compress =
        Trie.hash C.toEnv (S.storageAfter C (C.keccak256 entry.1.bytes) entry.2) ↔
      (entry.2.wasDestroyed = false → Suffices C S s (C.keccak256 entry.1.bytes) entry.2) := by
  obtain ⟨address, account⟩ := entry
  dsimp only at hw ht ⊢
  have hafter : hashed C.toEnv (S.storageAfter C (C.keccak256 address.bytes) account) ⊆
      {b | HashedEagerly C S input bundle s' b} := fun b hb => .after hentry hb
  generalize C.keccak256 address.bytes = a at hw ht hafter ⊢
  have hwritten : hashed C.toEnv t.compress ⊆ {b | HashedEagerly C S input bundle s' b} := by
    have hrel := hT'.storage a
    rw [ht] at hrel
    cases hm : s'.storageTries a with
    | none =>
      rw [hm] at hrel
      cases hrel
    | some m =>
      rw [hm] at hrel
      cases hrel with
      | some hr => exact fun b hb => .written hm hr hb
  rw [storageAfter_eq] at hafter ⊢
  have hlen : ∀ op ∈ account.storage.map (slotWrite C.toStateEnv), op.1.length = 64 :=
    length_slotWrite
  by_cases hdes : account.wasDestroyed = true
  · rw [parentTable, if_pos hdes] at hw
    rw [writeAll_emptyTable hlen hw, FullState.storageBefore, if_pos hdes]
    exact iff_of_true rfl fun h => by simp [hdes] at h
  · have hbefore : S.storageBefore a account = S.storage a := by
      rw [FullState.storageBefore, if_neg hdes]
    rw [parentTable, if_neg hdes] at hw
    rw [hbefore] at hafter ⊢
    rw [Bool.not_eq_true] at hdes
    simp only [hdes, forall_const]
    have hrel := hT.storage a
    unfold Suffices
    cases hm : s.storageTries a with
    | none =>
      rw [hm] at hrel
      obtain h0 : T.storage a = none := by
        cases ho : T.storage a with
        | none => rfl
        | some t₀ =>
          rw [ho] at hrel
          cases hrel
      rw [h0] at hw
      have heq := writeAll_emptyTable hlen hw
      rw [heq] at hwritten ⊢
      rw [hash_covered_iff hinj hE.emptyRoot .empty (by norm_num)
        (fun ν hν => length_storage_lt hS hshort a hν account.storage) hwritten hafter]
      constructor
      · intro hcover key v hg
        obtain ⟨op, hop, rfl⟩ := hcover key v (length_of_get (hS.storage a).sized hg)
          (by simp [Mpt.valueAt, hg])
        obtain ⟨slot, hslot, rfl⟩ := List.mem_map.mp hop
        exact ⟨slot, hslot, rfl⟩
      · intro hcover key v hk hv
        have hg : (S.storage a).get key = .ok (some v) := by
          rw [Mpt.eq_canonical_valueAt (hS.storage a)]
          exact get_canonical_iff.mpr ⟨hk, hv⟩
        obtain ⟨slot, hslot, rfl⟩ := hcover key v hg
        exact ⟨_, List.mem_map_of_mem hslot, rfl⟩
    | some m =>
      rw [hm] at hrel
      obtain ⟨t₀, ho, hr⟩ : ∃ t₀, T.storage a = some t₀ ∧ Mpt.Tabulates C.toEnv m t₀ := by
        cases ho : T.storage a with
        | none =>
          rw [ho] at hrel
          cases hrel
        | some t₀ =>
          rw [ho] at hrel
          cases hrel with
          | some hr => exact ⟨t₀, rfl, hr⟩
      rw [ho] at hw
      rw [hash_writeAll_iff hinj (by norm_num) (hS.storage a) (hst a t₀ ho) hlen hw
        (length_storage_lt hS hshort a (.inl rfl) account.storage) hwritten hafter, storageAfter_eq,
        hbefore]
      constructor
      · intro h P hP hn
        rwa [Mpt.Represents.unique hP hr hn (Sparse.normal_compress t₀)]
      · exact fun h => h _ hr (Sparse.normal_compress t₀)

theorem accountAt_of_get {m : Mpt} {t : Table} (h : Mpt.Tabulates C.toEnv m t) {a : B256}
    {o : Option Bytes} {account : Option TrieAccount} (hg : t.get (Hp.keyNibs a.bytes) = .ok o)
    (hdec : decodeWith C.decodeAccount o = .ok account) : accountAt C m a = .ok account := by
  refine (Mpt.getRlpNibbles_eq.2 _).mpr ⟨o, ?_, hdec⟩
  rw [← Hp.map_toByte_keyNibs, Mpt.getNibbles_spec h,
    Sparse.get_compress t (Mpt.length_keyNibs_b256 a), hg]
  rfl

theorem accountAt_tabulated {m : Mpt} {t : Table} (h : Mpt.Tabulates C.toEnv m t)
    (hacc : ∀ account, C.decodeAccount (C.encodeAccount account) = .ok account) {a : B256}
    {account : TrieAccount}
    (hg : t.get (Hp.keyNibs a.bytes) = .ok (some (C.encodeAccount account))) :
    accountAt C m a = .ok (some account) := by
  refine accountAt_of_get h hg ?_
  rw [decodeWith, hacc]
  rfl

/-- After an eager update every account of the bundle that exists has the record it should have,
with the root of the parent's storage after its slots, exactly when what the update started from
suffices for every account that was not destroyed. -/
theorem update_keepsRoots_iff (hE : Mpt.Faithful C.toEnv)
    (hacc : ∀ account, C.decodeAccount (C.encodeAccount account) = .ok account)
    (hshort : ∀ n, (C.encodeU256 n).length < 2 ^ 63) (hb : build C input = .ok s)
    (hparent : input.ancestorHeaders.head? = some parent) (hS : S.Sound C parent.stateRoot)
    (haddr : (bundle.map Prod.fst).Nodup)
    (h : updateFromBundleState C.toStateEnv bundle s = (.ok (), s'))
    (hinj : Set.InjOn C.keccak256 {b | HashedEagerly C S input bundle s' b}) :
    (∀ entry ∈ bundle, ∀ info, entry.2.info = some info →
      accountAt C s'.stateTrie (C.keccak256 entry.1.bytes) =
        .ok (some (S.accountAfter C (C.keccak256 entry.1.bytes) entry.2 info))) ↔
    ∀ entry ∈ bundle, entry.2.info ≠ none → entry.2.wasDestroyed = false →
      Suffices C S s (C.keccak256 entry.1.bytes) entry.2 := by
  obtain ⟨T, hT, -, hst⟩ := exists_tables hE hb hparent hS hinj
  have htracks := updateFromBundleState_tracks (C := C.toStateEnv) bundle hT
  rw [h] at htracks
  cases hall : T.updateAll C.toStateEnv bundle with
  | none =>
    rw [hall] at htracks
    obtain ⟨_, _, he, _⟩ := htracks
    simp at he
  | some T' =>
    rw [hall] at htracks
    obtain ⟨_, s₁, he, hT'⟩ := htracks
    obtain rfl : s' = s₁ := (Prod.mk.inj he).2
    have hnd := nodup_hashes hinj haddr fun _ he => .address he
    have hone : ∀ entry ∈ bundle, ∀ info, entry.2.info = some info →
        (accountAt C s'.stateTrie (C.keccak256 entry.1.bytes) =
          .ok (some (S.accountAfter C (C.keccak256 entry.1.bytes) entry.2 info)) ↔
        (entry.2.wasDestroyed = false → Suffices C S s (C.keccak256 entry.1.bytes) entry.2)) := by
      intro entry hentry info hinfo
      obtain ⟨t, hw, hstorage, hrecord⟩ := updateAll_entry hnd hall entry hentry info hinfo
      rw [accountAt_tabulated hT'.state hacc hrecord,
        ← storageRoot_iff hE hS hshort hinj hT hT' hst hentry hw hstorage]
      simp [accountOf, FullState.accountAfter]
    constructor
    · intro hroots entry hentry hinfo
      obtain ⟨info, hinfo⟩ := Option.ne_none_iff_exists'.mp hinfo
      exact (hone entry hentry info hinfo).mp (hroots entry hentry info hinfo)
    · intro hsuff entry hentry info hinfo
      exact (hone entry hentry info hinfo).mpr (hsuff entry hentry (by simp [hinfo]))

end Built

/-! ## A touched account -/

section Sample

open StreamingEthereumState

/-- The nonce is increased, and no slot is written. -/
def touchBundle : Bundle := [(addressOne, ⟨some ⟨2, 7, noCode⟩, false, []⟩)]

/-- The state trie with one account, and the given storage tries. -/
def touchInput (storageTries : List (B256 × Nat × Bytes)) : ClientExecutorInput where
  ancestorHeaders := [⟨readRoot⟩]
  stateTrie := (2, accountLeaf 1 slotRoot)
  storageTries := storageTries
  bytecodes := []

/-- The state trie of the sample. -/
def touchTrie : Mpt :=
  ⟨1, [⟨.null, none⟩, ⟨.leaf (Hp.encode (Hp.keyNibs hashedOne.bytes) true)
    (Rlp.encodeAccount readAccountOne), some (.digest readRoot.bytes)⟩]⟩

def slotArena : Mpt :=
  ⟨1, [⟨.null, none⟩, ⟨.leaf (Hp.encode (Hp.keyNibs slotOne.bytes) true) [5],
    some (.digest slotRoot.bytes)⟩]⟩

theorem build_supplied : build readEnv (touchInput [(hashedOne, 2, slotLeaf 5)]) =
    .ok ⟨touchTrie, Function.update (fun _ => none) hashedOne (some slotArena)⟩ := by
  rfl

theorem build_bare : build readEnv (touchInput []) = .ok ⟨touchTrie, fun _ => none⟩ := by
  rfl

def bareState : EthereumState := ⟨touchTrie, fun _ => none⟩

def suppliedState : EthereumState :=
  ⟨touchTrie, Function.update (fun _ => none) hashedOne (some slotArena)⟩

theorem storageAfter_touch (entry : Address × BundleAccount) (h : entry ∈ touchBundle) :
    readState.storageAfter readEnv hashedOne entry.2 = leaf (Hp.keyNibs slotOne.bytes) [5] := by
  simp only [touchBundle, List.mem_singleton] at h
  subst h
  have hleaf : readState.storage hashedOne = leaf (Hp.keyNibs slotOne.bytes) [5] := rfl
  rw [storageAfter_eq, List.map_nil, FullState.storageBefore, if_neg (by simp), ← hleaf]
  exact (Mpt.eq_canonical_valueAt (sound_readState.storage hashedOne)).symm

theorem keccak_addressOne : readEnv.keccak256 addressOne.bytes = hashedOne := by
  decide

/-- Without its storage trie an account that exists loses its storage root. -/
theorem update_loses_root :
    build readEnv (touchInput []) = .ok bareState ∧ readState.Sound readEnv readRoot ∧
    (updateFromBundleState readEnv.toStateEnv touchBundle bareState).1 = .ok () ∧
    accountAt readEnv bareState.stateTrie hashedOne = .ok (some ⟨1, 7, slotRoot, noCode⟩) ∧
    accountAt readEnv (updateFromBundleState readEnv.toStateEnv touchBundle bareState).2.stateTrie
      hashedOne = .ok (some ⟨2, 7, readEnv.emptyRootHash, noCode⟩) ∧
    readEnv.emptyRootHash ≠ slotRoot ∧
    ¬ ∀ entry ∈ touchBundle, ∀ info, entry.2.info = some info →
      accountAt readEnv (updateFromBundleState readEnv.toStateEnv touchBundle bareState).2.stateTrie
          (readEnv.keccak256 entry.1.bytes) =
        .ok (some (readState.accountAfter readEnv (readEnv.keccak256 entry.1.bytes) entry.2 info)) := by
  have hwritten : accountAt readEnv
      (updateFromBundleState readEnv.toStateEnv touchBundle bareState).2.stateTrie hashedOne =
      .ok (some ⟨2, 7, readEnv.emptyRootHash, noCode⟩) := by decide
  have hne : readEnv.emptyRootHash ≠ slotRoot := by decide
  refine ⟨build_bare, sound_readState, by decide, by decide, hwritten, hne, fun h => hne ?_⟩
  have hone := h _ (List.mem_singleton_self _) ⟨2, 7, noCode⟩ rfl
  rw [keccak_addressOne, hwritten] at hone
  have hroot := congrArg TrieAccount.storageRoot (Option.some.inj (Except.ok.inj hone))
  rw [FullState.accountAfter, storageAfter_touch _ (List.mem_singleton_self _)] at hroot
  exact hroot.trans (by decide)

def touchStrings : List Bytes :=
  [[Rlp.emptyStringCode], addressOne.bytes, slotLeaf 5, accountLeaf 1 slotRoot]

/-- The storage trie is hashed and not written. -/
theorem update_suppliedState :
    (updateFromBundleState readEnv.toStateEnv touchBundle suppliedState).1 = .ok () ∧
    (updateFromBundleState readEnv.toStateEnv touchBundle suppliedState).2.storageTries =
      Function.update suppliedState.storageTries hashedOne (some slotArena) := by
  exact ⟨by decide, rfl⟩

theorem mem_hashed_leaf {E : Env} {p : List Nibble} {v b : Bytes}
    (h : b ∈ hashed E (leaf p v)) : b = rlp E (leaf p v) := by
  rcases h with h | h
  · exact h
  · exact h.1

theorem mem_touchStrings {b : Bytes} (h : HashedEagerly readEnv readState
    (touchInput [(hashedOne, 2, slotLeaf 5)]) touchBundle
    (updateFromBundleState readEnv.toStateEnv touchBundle suppliedState).2 b) :
    b ∈ touchStrings := by
  cases h with
  | empty => decide
  | state h =>
    have hb : b = rlp readEnv.toEnv readState.state := mem_nodes_leaf h
    rw [hb, rlp_readState]
    decide
  | storage a h =>
    simp only [readState] at h
    split at h
    · rw [mem_nodes_leaf h]
      decide
    · rcases h with ⟨h, -⟩ | h
      · exact h.elim
      · exact h.elim
  | stateInput h =>
    have hnodes : ∀ b ∈ Mpt.hashedNodes readEnv.toEnv (accountLeaf 1 slotRoot), b ∈ touchStrings := by
      decide
    exact hnodes b h
  | storageInput he h =>
    simp only [touchInput, List.mem_singleton] at he
    subst he
    have hnodes : ∀ b ∈ Mpt.hashedNodes readEnv.toEnv (slotLeaf 5), b ∈ touchStrings := by decide
    exact hnodes b h
  | address h =>
    simp only [touchBundle, List.mem_singleton] at h
    rw [h]
    decide
  | @after _ entry he h =>
    have haddr : readEnv.keccak256 entry.1.bytes = hashedOne := by
      simp only [touchBundle, List.mem_singleton] at he
      rw [he]
      exact keccak_addressOne
    rw [haddr, storageAfter_touch _ he] at h
    rw [mem_hashed_leaf h]
    decide
  | @written _ a m P hm hP h =>
    have harena : m = slotArena := by
      rw [update_suppliedState.2, suppliedState, Function.update_idem, Function.update_apply] at hm
      split at hm
      · exact (Option.some.inj hm).symm
      · cases hm
    subst harena
    have hleaf := shape_leaf (Mpt.Rep.reads hP).shape (p := Hp.keyNibs slotOne.bytes)
      (v := [5]) (r := some (.digest slotRoot.bytes)) (by decide)
    subst hleaf
    rw [mem_hashed_leaf h]
    decide

theorem update_keepsRoots_sample :
    build readEnv (touchInput [(hashedOne, 2, slotLeaf 5)]) = .ok suppliedState ∧
    (updateFromBundleState readEnv.toStateEnv touchBundle suppliedState).1 = .ok () ∧
    ((∀ entry ∈ touchBundle, ∀ info, entry.2.info = some info →
      accountAt readEnv
          (updateFromBundleState readEnv.toStateEnv touchBundle suppliedState).2.stateTrie
          (readEnv.keccak256 entry.1.bytes) =
        .ok (some (readState.accountAfter readEnv (readEnv.keccak256 entry.1.bytes) entry.2 info))) ↔
    ∀ entry ∈ touchBundle, entry.2.info ≠ none → entry.2.wasDestroyed = false →
      Suffices readEnv readState suppliedState (readEnv.keccak256 entry.1.bytes) entry.2) := by
  have h := update_suppliedState.1
  have hno : Mpt.NoCollision readEnv.toEnv touchStrings := by decide
  refine ⟨build_supplied, h, ?_⟩
  exact update_keepsRoots_iff faithful_readEnv Rlp.decodeAccount_encodeAccount
    (fun n => (Rlp.length_encodeUint_le n).trans_lt (by norm_num)) build_supplied
    (show (touchInput _).ancestorHeaders.head? = some ⟨readRoot⟩ from rfl) sound_readState
    (by decide) (Prod.ext h rfl)
    fun x hx y hy => hno x (mem_touchStrings hx) y (mem_touchStrings hy)

end Sample

end EthereumState

end CenoReth
