/-
The bytes of a state (`crates/mpt/src/state.rs`).

The host turns a state into bytes, trie by trie, and these bytes are the parent state
of the input that is built again before a block is executed.  As long as every storage
trie has the root of its account, what is built holds the same tables.
-/
import CenoReth.State.Demand

namespace CenoReth

open Patricia Patricia.Radix Trie

structure EthereumStateBytes where
  stateTrie : Nat × Bytes
  storageTries : List (B256 × Nat × Bytes)

namespace EthereumState

open StreamingEthereumState (readEnv readState readRoot sound_readState faithful_readEnv)

/-- The bytes of one storage trie. -/
def encodeStorageTrie (E : Env) (entry : B256 × Mpt) : Except Halt (B256 × Nat × Bytes) := do
  let bytes ← (Mpt.encodeTrie E entry.2).1
  .ok (entry.1, entry.2.size, bytes)

/-- The storage tries, in the order in which the map iterates over its addresses. -/
def storageEntries (state : EthereumState) (addresses : List B256) : List (B256 × Mpt) :=
  addresses.filterMap fun a => (state.storageTries a).map fun m => (a, m)

/-- `encode_to_state_bytes`. -/
def encodeToStateBytes (E : Env) (addresses : List B256) (state : EthereumState) :
    Except Halt EthereumStateBytes := do
  let stateBytes ← (Mpt.encodeTrie E state.stateTrie).1
  let storageBytes ← (state.storageEntries addresses).mapM (encodeStorageTrie E)
  .ok { stateTrie := (state.stateTrie.size, stateBytes)
        storageTries := storageBytes.insertionSort fun a b => a.1.bytes ≤ b.1.bytes }

section Bytes

variable {C : ClientEnv} {T : Tables} {s : EthereumState} {m m' : Mpt} {t : Table} {a : B256}

/-! ## One trie -/

theorem encodeTrie_tabulates {E : Env} (h : Mpt.Tabulates E m t) :
    (Mpt.encodeTrie E m).1 = .ok (Mpt.encoding E t.compress) := by
  obtain ⟨m', hm', -⟩ := Mpt.encodeTrie_spec (Mpt.Rep.reads h) h.depth_le
  rw [hm']

/-- The bytes of a trie are decoded to an arena of the same table. -/
theorem decodeAndHash_encoding (hE : Mpt.Faithful C.toEnv)
    (ht : Mpt.Encodable C.toEnv t.compress) (numNodes : Nat) :
    ∃ m, decodeAndHash C (Mpt.encoding C.toEnv t.compress) numNodes =
      .ok (m, Trie.hash C.toEnv t.compress) ∧ Mpt.Tabulates C.toEnv m t := by
  obtain ⟨m, rest, hdec, hr⟩ := Mpt.decodeTrie_represents hE.inverse hE.consuming ht
    ((em (t.compress = null)).imp id (Mpt.solid_of_normal (Sparse.normal_compress t))) numNodes
  obtain ⟨m', hhash, hfills⟩ := Mpt.hash_spec (Mpt.Rep.reads hr) hr.depth_le
  refine ⟨m', ?_, hr.fills hfills⟩
  unfold decodeAndHash
  rw [hdec]
  simp only [bind, Except.bind, hhash]

/-- An account does not depend on the arena that holds it. -/
theorem accountAt_tabulates {account : Option TrieAccount} (h : Mpt.Tabulates C.toEnv m t)
    (h' : Mpt.Tabulates C.toEnv m' t) (hacc : accountAt C m a = .ok account) :
    accountAt C m' a = .ok account := by
  obtain ⟨o, ho, hdec⟩ := (Mpt.getRlpNibbles_eq.2 account).mp hacc
  refine (Mpt.getRlpNibbles_eq.2 account).mpr ⟨o, ?_, hdec⟩
  rw [← Hp.map_toByte_keyNibs, Mpt.getNibbles_spec h] at ho
  rw [← Hp.map_toByte_keyNibs, Mpt.getNibbles_spec h']
  exact ho

/-! ## The whole state -/

/-- The storage trie of an address, encoded, with the root that its account commits to. -/
def Encodes (C : ClientEnv) (T : Tables) (stateTrie : Mpt) (entry : B256 × Nat × Bytes) : Prop :=
  ∃ t, T.storage entry.1 = some t ∧ Mpt.Encodable C.toEnv t.compress ∧
    entry.2.2 = Mpt.encoding C.toEnv t.compress ∧ ∃ account,
      accountAt C stateTrie entry.1 = .ok account ∧
      Trie.hash C.toEnv t.compress = storageRootOf C.toEnv account

/-- What was built so far holds tables of the state. -/
def Built (C : ClientEnv) (T : Tables) (tries : B256 → Option Mpt) : Prop :=
  ∀ a m, tries a = some m → ∃ t, T.storage a = some t ∧ Mpt.Tabulates C.toEnv m t

theorem buildStorageTries_encoded (hE : Mpt.Faithful C.toEnv) {stateTrie : Mpt} :
    ∀ {inputs : List (B256 × Nat × Bytes)} {tries : B256 → Option Mpt},
    (∀ entry ∈ inputs, Encodes C T stateTrie entry) → Built C T tries →
    ∃ tries', buildStorageTries C stateTrie inputs tries = .ok tries' ∧ Built C T tries' ∧
      ∀ a, ((tries a).isSome ∨ a ∈ inputs.map Prod.fst) → (tries' a).isSome
  | [], tries, _, hbuilt => ⟨tries, rfl, hbuilt, fun a h => h.resolve_right List.not_mem_nil⟩
  | (address, numNodes, bytes) :: inputs, tries, hin, hbuilt => by
    obtain ⟨t, ht, hencodable, hbytes, account, haccount, hroot⟩ := hin _ List.mem_cons_self
    obtain ⟨m, hdec, hm⟩ := decodeAndHash_encoding hE hencodable numNodes
    have hnext : Built C T (Function.update tries address (some m)) := by
      intro b m' hb
      rw [Function.update_apply] at hb
      split at hb
      · rename_i hab
        obtain rfl := Option.some.inj hb
        exact ⟨t, hab ▸ ht, hm⟩
      · exact hbuilt b m' hb
    obtain ⟨tries', hrun, hbuilt', hsome⟩ := buildStorageTries_encoded hE
      (fun entry he => hin entry (List.mem_cons_of_mem _ he)) hnext
    refine ⟨tries', ?_, hbuilt', fun b hb => hsome b ?_⟩
    · simp only at haccount hbytes
      rw [buildStorageTries, haccount, hbytes, hdec]
      simp only [bind, Except.bind, Except.mapError, if_pos hroot]
      exact hrun
    · by_cases hab : b = address
      · exact .inl (by rw [hab, Function.update_self]; rfl)
      · rw [Function.update_of_ne hab]
        refine hb.imp id fun hmem => ?_
        exact (List.mem_cons.mp hmem).resolve_left hab

/-- The bytes of a state whose storage tries have the roots of their accounts are built into a
state of the same tables. -/
theorem build_stateBytes (hE : Mpt.Faithful C.toEnv) (hT : Holds C.toEnv s T)
    {addresses : List B256} (haddresses : ∀ a, (s.storageTries a).isSome → a ∈ addresses)
    (hstate : Mpt.Encodable C.toEnv T.state.compress)
    (hstorage : ∀ a t, T.storage a = some t → Mpt.Encodable C.toEnv t.compress ∧ ∃ account,
      accountAt C s.stateTrie a = .ok account ∧
      Trie.hash C.toEnv t.compress = storageRootOf C.toEnv account)
    (headers : List BlockHeader) (bytecodes : List Bytecode) :
    ∃ b s', encodeToStateBytes C.toEnv addresses s = .ok b ∧
      build C ⟨⟨Trie.hash C.toEnv T.state.compress⟩ :: headers, b.stateTrie, b.storageTries,
        bytecodes⟩ = .ok s' ∧ Holds C.toEnv s' T := by
  have hentry : ∀ entry ∈ s.storageEntries addresses, ∃ encoded,
      encodeStorageTrie C.toEnv entry = .ok encoded ∧
        (encoded.1 = entry.1 ∧ Encodes C T s.stateTrie encoded) := by
    intro entry he
    obtain ⟨a, -, ha⟩ := List.mem_filterMap.mp he
    obtain ⟨m, hm, rfl⟩ := Option.map_eq_some_iff.mp ha
    have hrel := hT.storage a
    rw [hm] at hrel
    cases ht : T.storage a with
    | none =>
      rw [ht] at hrel
      cases hrel
    | some t =>
      rw [ht] at hrel
      cases hrel with
      | some hr =>
        refine ⟨(a, m.size, Mpt.encoding C.toEnv t.compress), ?_, rfl, t, ht, (hstorage a t ht).1,
          rfl, (hstorage a t ht).2⟩
        unfold encodeStorageTrie
        rw [encodeTrie_tabulates hr]
        rfl
  obtain ⟨encoded, hencoded, hall⟩ := Exec.mapM_forall₂ _ hentry
  obtain ⟨m, hdec, hm⟩ := decodeAndHash_encoding hE hstate s.stateTrie.size
  have hsorted : ∀ entry ∈ encoded.insertionSort fun a b => a.1.bytes ≤ b.1.bytes,
      Encodes C T m entry := by
    intro entry he
    obtain ⟨_, -, -, t, ht, hen, hbytes, account, hacc, hroot⟩ :=
      Exec.exists_of_forall₂ hall ((List.perm_insertionSort _ _).mem_iff.mp he)
    exact ⟨t, ht, hen, hbytes, account, accountAt_tabulates hT.state hm hacc, hroot⟩
  have hempty : Built C T fun _ => none := fun a m h => by cases h
  obtain ⟨tries, hrun, hbuilt, hsome⟩ := buildStorageTries_encoded hE hsorted hempty
  refine ⟨⟨(s.stateTrie.size, Mpt.encoding C.toEnv T.state.compress),
    encoded.insertionSort fun a b => a.1.bytes ≤ b.1.bytes⟩, ⟨m, tries⟩, ?_, ?_, hm, fun a => ?_⟩
  · unfold encodeToStateBytes
    rw [encodeTrie_tabulates hT.state, hencoded]
    rfl
  · simp [build, hdec, Except.mapError, hrun, bind, Except.bind]
  · show Option.Rel (Mpt.Tabulates C.toEnv) (tries a) (T.storage a)
    cases ht : T.storage a with
    | none =>
      cases hm' : tries a with
      | none => exact .none
      | some m' =>
        obtain ⟨t, hst, -⟩ := hbuilt a m' hm'
        rw [ht] at hst
        cases hst
    | some t =>
      have hrel := hT.storage a
      rw [ht] at hrel
      cases hs : s.storageTries a with
      | none =>
        rw [hs] at hrel
        cases hrel
      | some m₀ =>
        have hmem : (a, m₀) ∈ s.storageEntries addresses := List.mem_filterMap.mpr
          ⟨a, haddresses a (by rw [hs]; rfl), by rw [hs]; rfl⟩
        obtain ⟨entry, hin, heq, -⟩ := Exec.exists_of_forall₂ (List.Forall₂.flip hall) hmem
        have hkey : a ∈ (encoded.insertionSort fun a b => a.1.bytes ≤ b.1.bytes).map Prod.fst :=
          List.mem_map.mpr ⟨entry, (List.perm_insertionSort _ _).mem_iff.mpr hin, heq⟩
        obtain ⟨m', hm'⟩ := Option.isSome_iff_exists.mp (hsome a (.inr hkey))
        obtain ⟨t', hst, hr⟩ := hbuilt a m' hm'
        obtain rfl : t = t' := Option.some.inj (ht.symm.trans hst)
        rw [hm']
        exact .some hr

/-- The storage tries of an accepted input have the roots of their accounts. -/
theorem storage_of_build (hE : Mpt.Faithful C.toEnv) {input : ClientExecutorInput}
    {S : FullState} {root : B256} (hb : build C input = .ok s) (hS : S.Sound C root)
    (hT : Holds C.toEnv s T)
    (hst : ∀ a t, T.storage a = some t → Mpt.Stands C.toEnv t.compress (S.storage a)) (a : B256)
    (t : Table) (ht : T.storage a = some t) : Mpt.Encodable C.toEnv t.compress ∧ ∃ account,
      accountAt C s.stateTrie a = .ok account ∧
      Trie.hash C.toEnv t.compress = storageRootOf C.toEnv account := by
  have hrel := hT.storage a
  rw [ht] at hrel
  cases hm : s.storageTries a with
  | none =>
    rw [hm] at hrel
    cases hrel
  | some m =>
    rw [hm] at hrel
    cases hrel with
    | some hr =>
      obtain ⟨_, _, root, account, -, hdec, hacc, hroot⟩ := supplied_of_build hb a m hm
      obtain ⟨-, hhash⟩ := decodeAndHash_ok hE hdec
      obtain ⟨m', hm', -⟩ := Mpt.hash_spec (Mpt.Rep.reads hr) hr.depth_le
      rw [hm'] at hhash
      exact ⟨encodable_stands (hS.storage a) (hS.storageValues a) (hst a t ht), account, hacc,
        (Except.ok.inj hhash).trans hroot⟩

end Bytes

/-! ## One account with one slot -/

section Sample

theorem build_stateBytes_sample : ∃ b s', encodeToStateBytes readEnv.toEnv [hashedOne]
      suppliedState = .ok b ∧
    build readEnv ⟨[⟨readRoot⟩], b.stateTrie, b.storageTries, []⟩ = .ok s' := by
  have hinj : Set.InjOn readEnv.keccak256 {b | HashedEagerly readEnv readState codeInput []
      ⟨suppliedState.stateTrie, fun _ => none⟩ b} := by
    have hno : Mpt.NoCollision readEnv.toEnv touchStrings := by decide
    have hmem : ∀ b, HashedEagerly readEnv readState codeInput []
        ⟨suppliedState.stateTrie, fun _ => none⟩ b → b ∈ touchStrings := fun b hb =>
      mem_touchStrings_of_before (hashedBefore_of_eagerly hb)
    exact fun x hx y hy => hno x (hmem x hx) y (hmem y hy)
  obtain ⟨T, hT, hstands, hstorage⟩ := exists_tables faithful_readEnv prepared_code.built
    (show codeInput.ancestorHeaders.head? = some ⟨readRoot⟩ from rfl) sound_readState hinj
  have hroot : Trie.hash readEnv.toEnv T.state.compress = readRoot :=
    hstands.hash_eq.trans sound_readState.root
  have haddresses : ∀ a, (suppliedState.storageTries a).isSome → a ∈ [hashedOne] := by
    intro a ha
    simp only [suppliedState, Function.update_apply] at ha
    split at ha
    · rename_i h
      exact List.mem_singleton.mpr h
    · cases ha
  obtain ⟨b, s', hb, hbuild, -⟩ := build_stateBytes faithful_readEnv hT haddresses
    (encodable_stands sound_readState.state sound_readState.stateValues hstands)
    (storage_of_build faithful_readEnv prepared_code.built sound_readState hT hstorage) [] []
  exact ⟨b, s', hb, hroot ▸ hbuild⟩

end Sample

end EthereumState

end CenoReth
