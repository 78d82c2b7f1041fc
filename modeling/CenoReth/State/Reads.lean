/-
Streamed reads are authentic.

Accounts are used before they are authenticated.  Each of them is compared later:
with the first chunk whose prefix covers it, or with the frontier at the end.  The
chunk is compared with the slot of the frontier that it stands for, as earlier turns
left it.  The invariant of the loop is that the frontier is a view of a trie that
still has the parent's value for every account in the cache.  A turn overwrites
one slot of that trie, and the accounts below the slot leave the cache.
-/
import CenoReth.State.Order
import CenoReth.State.Turns

namespace CenoReth

open Patricia Patricia.Radix Trie

variable {C : ClientEnv}

/-! ## What is hashed -/

namespace StreamingEthereumState

/-- The strings that a turn hashes, apart from the chunk it decodes: the nodes of the slot
that the chunk is compared with, and the nodes of the updated chunk. -/
def Turn.strings (C : ClientEnv) (t : Turn) : Set Bytes :=
  {b | ∃ P p u, Mpt.Shape t.frontier P t.frontier.rootId ∧
    t.header.prefixNibs = p.map Nibble.toByte ∧ P.subtree p = some u ∧
    b ∈ Mpt.nodes C.toEnv u} ∪
  {b | ∃ Q, Mpt.Shape t.after.chunk Q t.after.chunk.rootId ∧ b ∈ Mpt.nodes C.toEnv Q}

/-- The strings that are hashed in a run and in the tries of the parent state.  The run
starts with the given input, and `s` is the state in which its update starts. -/
inductive HashedInRun (C : ClientEnv) (S : FullState) (input : List StreamItem) (bundle : Bundle)
    (s : StreamingEthereumState) : Bytes → Prop
  | empty : HashedInRun C S input bundle s [Rlp.emptyStringCode]
  | state {b : Bytes} (h : b ∈ Mpt.nodes C.toEnv S.state) : HashedInRun C S input bundle s b
  | storage {b : Bytes} (a : B256) (h : b ∈ Mpt.nodes C.toEnv (S.storage a)) :
      HashedInRun C S input bundle s b
  | streamed {b bytes : Bytes}
      (hc : Consumed input (updateFromBundleState C bundle s).2.input (.raw bytes))
      (h : b ∈ Mpt.hashedNodes C.toEnv bytes) : HashedInRun C S input bundle s b
  | turn {b : Bytes} {k : Nat} {accounts rest : List (B256 × BundleAccount)}
      {s₁ s₂ : StreamingEthereumState} {t : Turn} (hk : k < s.stateTrieHeader.chunkCount)
      (hrun : updateChunks C k (sortedAccounts C bundle) (ensureStateTrieLoaded C s).2 =
        (.ok accounts, s₁))
      (ht : t.Of C accounts s₁ rest s₂) (h : b ∈ t.strings C) : HashedInRun C S input bundle s b
  | address {entry : Address × BundleAccount} (h : entry ∈ bundle) :
      HashedInRun C S input bundle s entry.1.bytes
  | slot {entry : Address × BundleAccount} (h : entry ∈ bundle) {slot : U256 × U256}
      (hs : slot ∈ entry.2.storage) : HashedInRun C S input bundle s slot.1.toBeBytes

/-! ## Decoded tries -/

end StreamingEthereumState

theorem decodeAndHash_ok (hE : Mpt.Faithful C.toEnv) {bytes : Bytes} {numNodes : Nat} {m : Mpt}
    {root : B256} (h : decodeAndHash C bytes numNodes = .ok (m, root)) :
    (∃ rest, Mpt.decodeTrie C.toEnv bytes numNodes = .ok (m, rest)) ∧
      (Mpt.hash C.toEnv m).1 = .ok root := by
  unfold decodeAndHash at h
  cases hd : Mpt.decodeTrie C.toEnv bytes numNodes with
  | error e =>
    rw [hd] at h
    cases h
  | ok r =>
    obtain ⟨m₀, rest⟩ := r
    rw [hd] at h
    obtain ⟨D, _, expected, _, hchk, hl, _, hr⟩ := Mpt.decodeTrie_ok hE.consuming hE.null hd
    obtain ⟨root₀, hhash, _⟩ := Mpt.hash_of_laid hchk hl hr
    have heq : Except.ok (m₀, root₀) = Except.ok (ε := Halt) (m, root) := by
      simpa [bind, Except.bind, hhash] using h
    cases heq
    exact ⟨⟨rest, rfl⟩, by rw [hhash]⟩

/-- What replaces a slot. -/
theorem Mpt.slotTrie_cases {E : Env} (old : Trie) (newRoot : B256) :
    Mpt.slotTrie E old newRoot = null ∨ Mpt.slotTrie E old newRoot = hole ∨
      Mpt.slotTrie E old newRoot = digest newRoot := by
  unfold Mpt.slotTrie
  split
  · split
    · exact .inl rfl
    · exact .inr (.inl rfl)
  · exact .inr (.inr rfl)

namespace StreamingEthereumState

/-! ## Keys of a chunk -/

theorem b256Nibbles_eq (a : B256) : b256Nibbles a = (Hp.keyNibs a.bytes).map Nibble.toByte :=
  (Hp.map_toByte_keyNibs a.bytes).symm

theorem inChunk_iff {p : List Nibble} {a : B256} :
    inChunk (p.map Nibble.toByte) a = true ↔ p <+: Hp.keyNibs a.bytes := by
  rw [inChunk, List.isPrefixOf_iff_prefix, b256Nibbles_eq]
  constructor
  · rintro ⟨l, hl⟩
    obtain ⟨q, r, hqr, hq, -⟩ := List.map_eq_append_iff.mp hl.symm
    rw [hqr, List.map_injective_iff.mpr Nibble.toByte_injective hq]
    exact List.prefix_append p r
  · exact fun h => h.map Nibble.toByte

theorem suffix_eq {p rest : List Nibble} {a : B256} (h : Hp.keyNibs a.bytes = p ++ rest) :
    suffix (p.map Nibble.toByte) a = rest.map Nibble.toByte := by
  rw [suffix, b256Nibbles_eq, h, List.map_append, List.length_map, List.drop_left']
  simp

theorem mem_of_lookup {α : Type} {a : B256} {x : α} {l : List (B256 × α)}
    (h : l.lookup a = some x) : (a, x) ∈ l := by
  obtain ⟨l₁, l₂, rfl, _⟩ := List.lookup_eq_some_iff.mp h
  simp

/-! ## What a turn compares -/

section Turn

variable {accounts rest : List (B256 × BundleAccount)} {s s' : StreamingEthereumState} {t : Turn}

/-- The state of the stream after a turn, apart from the frontier. -/
theorem Turn.Of.stream (h : t.Of C accounts s rest s') : ∃ cache tries,
    t.after.stream = { s with
      accountCache := cache
      input := t.after.stream.input
      storageTries := tries } := by
  obtain ⟨run, hrun⟩ := processChunk_ok h.process
  obtain ⟨hadv, cache, hcache⟩ := hrun.advances
  refine ⟨cache, t.after.stream.storageTries, hadv.rest.trans ?_⟩
  rw [hcache]

theorem Turn.Of.stateTrie_eq (h : t.Of C accounts s rest s') : s.stateTrie = some t.frontier := by
  obtain ⟨cache, tries, heq⟩ := h.stream
  have hloaded := h.loaded
  rw [heq] at hloaded
  exact hloaded

/-- The cache after a turn is the cache after the comparisons of its chunk. -/
theorem Turn.Of.cache_eq (h : t.Of C accounts s rest s') : ∃ checked,
    consumeCached C t.header.prefixNibs
        ((s.accountCache.map Prod.fst).filter (inChunk t.header.prefixNibs))
        ⟨{ s with input := t.input }, t.chunk, [], false⟩ = (.ok (), checked) ∧
      s'.accountCache = checked.stream.accountCache := by
  obtain ⟨run, hrun⟩ := processChunk_ok h.process
  refine ⟨run.checked, hrun.consume, ?_⟩
  have hcache := congrArg accountCache hrun.advances.1.rest
  rw [h.state]
  exact hcache

/-- The accounts below the chunk are gone after the turn. -/
theorem Turn.Of.of_cached (h : t.Of C accounts s rest s') {a : B256} {account : Option TrieAccount}
    (hc : s'.accountCache.lookup a = some account) :
    s.accountCache.lookup a = some account ∧ inChunk t.header.prefixNibs a = false := by
  obtain ⟨checked, hconsume, hcache⟩ := h.cache_eq
  obtain ⟨-, hkeep, hnone, -⟩ := consumeCached_ok hconsume
  rw [hcache] at hc
  by_cases hmem : a ∈ (s.accountCache.map Prod.fst).filter (inChunk t.header.prefixNibs)
  · rw [hnone a hmem] at hc
    cases hc
  · rw [hkeep a hmem] at hc
    refine ⟨hc, Bool.eq_false_iff.mpr fun hin => hmem (List.mem_filter.mpr ⟨?_, hin⟩)⟩
    exact List.mem_map.mpr ⟨(a, account), mem_of_lookup hc, rfl⟩

/-- An account that leaves the cache was compared with the chunk. -/
theorem Turn.Of.cached (h : t.Of C accounts s rest s') {a : B256} {account : Option TrieAccount}
    (hc : s.accountCache.lookup a = some account) :
    s'.accountCache.lookup a = some account ∨
      (inChunk t.header.prefixNibs a = true ∧
        ChunkHolds C t.header.prefixNibs t.chunk a account) := by
  obtain ⟨checked, hconsume, hcache⟩ := h.cache_eq
  obtain ⟨-, hkeep, -, hauth⟩ := consumeCached_ok hconsume
  rw [hcache]
  by_cases hmem : a ∈ (s.accountCache.map Prod.fst).filter (inChunk t.header.prefixNibs)
  · obtain ⟨account', hl, hholds⟩ := hauth a hmem
    have heq : account' = account := Option.some.inj (hl.symm.trans hc)
    exact .inr ⟨(List.mem_filter.mp hmem).2, heq ▸ hholds⟩
  · exact .inl ((hkeep a hmem).trans hc)

end Turn

/-! ## The loop -/

/-- What is known of the frontier: it shows a trie that has the parent's value for every account
in the cache. -/
structure Shown (C : ClientEnv) (H : Set Bytes) (S : FullState) (s : StreamingEthereumState)
    (P X : Trie) : Prop where
  represents : ∃ m, s.stateTrie = some m ∧ Mpt.Represents C.toEnv m P
  known : Mpt.Known C.toEnv H P X
  sized : X.Sized 64
  values : AllValues (fun v => v.length < 2 ^ 63) X
  parent : ∀ a account, s.accountCache.lookup a = some account →
    X.get (Hp.keyNibs a.bytes) = S.state.get (Hp.keyNibs a.bytes)

section Loop

variable {H : Set Bytes} {S : FullState} {root : B256}
variable {accounts rest : List (B256 × BundleAccount)} {s s' : StreamingEthereumState} {t : Turn}

/-- The chunk of a turn has the root of a part of the trie that the frontier shows. -/
theorem Turn.Of.exists_part {P X : Trie} {m : Mpt} (hE : Mpt.Faithful C.toEnv)
    (h : t.Of C accounts s rest s') (hm : s.stateTrie = some m) (hrep : Mpt.Represents C.toEnv m P)
    (hknown : Mpt.Known C.toEnv H P X) (hH : t.strings C ⊆ H) :
    ∃ p u x, t.header.prefixNibs = p.map Nibble.toByte ∧ P.subtree p = some u ∧
      X.subtree p = some x ∧ Mpt.nodes C.toEnv x ⊆ H ∧
      (Mpt.hash C.toEnv t.chunk).1 = .ok (Trie.hash C.toEnv x) ∧
      Mpt.Represents C.toEnv t.frontier' (P.patch (single p (Mpt.slotTrie C.toEnv u t.newRoot))) := by
  obtain rfl : m = t.frontier := Option.some.inj (hm.symm.trans h.stateTrie_eq)
  rcases Mpt.replaceFrontierSlot_cases hrep t.header.prefixNibs t.header.expectedRoot t.newRoot with
    ⟨p, u, m', hp, hu, hroot, hm', hrep'⟩ | ⟨e, m', he, _⟩ | he
  · have hnodes : Mpt.nodes C.toEnv u ⊆ H := fun b hb =>
      hH (.inl ⟨P, p, u, (Mpt.Rep.reads hrep).shape, hp, hu, hb⟩)
    obtain ⟨x, hx, hhash, hxH⟩ := hknown.exists_subtree hu hnodes
    refine ⟨p, u, x, hp, hu, hx, hxH, ?_, ?_⟩
    · rw [hhash, hroot]
      exact (decodeAndHash_ok hE h.decoded).2
    · have heq := h.replace
      rw [hm'] at heq
      rw [← (Prod.mk.inj heq).2]
      exact hrep'
  · rw [h.replace] at he
    cases he
  · rw [h.replace] at he
    cases he

/-- A lookup in the chunk finds the value of the trie that the frontier shows. -/
theorem chunkHolds_get (hE : Mpt.Faithful C.toEnv) (hinj : Set.InjOn C.keccak256 H)
    (h0 : [Rlp.emptyStringCode] ∈ H) {X x : Trie} {p : List Nibble} {chunk : Mpt} {bytes : Bytes}
    {numNodes : Nat} {rest : Bytes} (hd : Mpt.decodeTrie C.toEnv bytes numNodes = .ok (chunk, rest))
    (hhash : (Mpt.hash C.toEnv chunk).1 = .ok (Trie.hash C.toEnv x))
    (hx : X.subtree p = some x) (hsized : X.Sized 64)
    (hvalues : AllValues (fun v => v.length < 2 ^ 63) X)
    (hD : ∀ b ∈ Mpt.hashedNodes C.toEnv bytes, b ∈ H) (hxH : Mpt.nodes C.toEnv x ⊆ H) {a : B256}
    {account : Option TrieAccount} (hin : p <+: Hp.keyNibs a.bytes)
    (hholds : ChunkHolds C (p.map Nibble.toByte) chunk a account) {o : Option Bytes}
    (ho : X.get (Hp.keyNibs a.bytes) = .ok o) : decodeWith C.decodeAccount o = .ok account := by
  obtain ⟨r, hr⟩ := hin
  unfold ChunkHolds at hholds
  rw [suffix_eq hr.symm] at hholds
  obtain ⟨value, hvalue, hdec⟩ := (Mpt.getRlpNibbles_eq.2 account).mp hholds
  rw [← hr, get_subtree hx] at ho
  have hsmall : Mpt.Small C.toEnv x :=
    Mpt.small_of_sized (sized_subtree hsized hx).1 (by omega) (Mpt.allValues_subtree hvalues hx)
  rw [← Mpt.decodeTrie_get_eq hE hinj h0 hd hhash hsmall hD hxH hvalue ho]
  exact hdec

/-- A replaced slot of a trie that the frontier shows. -/
theorem known_replaced {P X u : Trie} {p : List Nibble} (h : Mpt.Known C.toEnv H P X)
    (hu : P.subtree p = some u) (newRoot : B256) :
    Mpt.Known C.toEnv H (P.patch (single p (Mpt.slotTrie C.toEnv u newRoot)))
      (X.patch (single p (Mpt.slotTrie C.toEnv u newRoot))) := by
  have hself : View C.toEnv (Mpt.slotTrie C.toEnv u newRoot) (Mpt.slotTrie C.toEnv u newRoot) ∧
      Mpt.Backed C.toEnv H (Mpt.slotTrie C.toEnv u newRoot) (Mpt.slotTrie C.toEnv u newRoot) := by
    refine ⟨View.refl _, ?_⟩
    rcases Mpt.slotTrie_cases (E := C.toEnv) u newRoot with h | h | h
    · rw [h]
      trivial
    · rw [h]
      trivial
    · rw [h]
      exact Set.empty_subset H
  exact h.patch_single hu (.inl hself) fun _ => hself

theorem single_eq_some {q p : List Nibble} {u v : Trie} (h : single p u q = some v) :
    q = p ∧ v = u := by
  unfold single at h
  by_cases hq : q = p
  · subst hq
    rw [Function.update_self] at h
    exact ⟨rfl, (Option.some.inj h).symm⟩
  · rw [Function.update_of_ne hq] at h
    cases h

/-- One turn. -/
theorem Shown.turn {P X : Trie} (hE : Mpt.Faithful C.toEnv) (hs : Shown C H S s P X)
    (h : t.Of C accounts s rest s') (hH : t.strings C ⊆ H) : ∃ P' X', Shown C H S s' P' X' := by
  obtain ⟨m, hm, hrep⟩ := hs.represents
  obtain ⟨p, u, x, hp, hu, hx, hxH, hhash, hrep⟩ := h.exists_part hE hm hrep hs.known hH
  refine ⟨_, X.patch (single p (Mpt.slotTrie C.toEnv u t.newRoot)), ⟨_, ?_, hrep⟩,
    known_replaced hs.known hu t.newRoot, sized_patch hs.sized fun q v hv => ?_,
    Mpt.allValues_patch hs.values fun q v hv => ?_, fun a account ha => ?_⟩
  · rw [h.state]
  · obtain ⟨-, rfl⟩ := single_eq_some hv
    rcases Mpt.slotTrie_cases (E := C.toEnv) u t.newRoot with h | h | h <;> rw [h] <;> trivial
  · obtain ⟨-, rfl⟩ := single_eq_some hv
    rcases Mpt.slotTrie_cases (E := C.toEnv) u t.newRoot with h | h | h <;> rw [h] <;> trivial
  · obtain ⟨hold, hout⟩ := h.of_cached ha
    rw [← hs.parent a account hold]
    refine get_patch_of_not_prefix fun q hq hpre => ?_
    obtain ⟨v, hv⟩ := Option.ne_none_iff_exists'.mp hq
    obtain ⟨rfl, -⟩ := single_eq_some hv
    rw [hp, inChunk_iff.mpr hpre] at hout
    cases hout

/-- The accounts that a turn compares are the parent's. -/
theorem Shown.stores {P X : Trie} (hE : Mpt.Faithful C.toEnv) (hinj : Set.InjOn C.keccak256 H)
    (h0 : [Rlp.emptyStringCode] ∈ H) (hS : S.Sound C root) (hs : Shown C H S s P X)
    (h : t.Of C accounts s rest s') (hH : t.strings C ⊆ H)
    (hD : ∀ b ∈ Mpt.hashedNodes C.toEnv t.bytes, b ∈ H) {a : B256} {account : Option TrieAccount}
    (ha : s.accountCache.lookup a = some account) :
    s'.accountCache.lookup a = some account ∨ S.Stores C a account := by
  obtain ⟨m, hm, hrep⟩ := hs.represents
  obtain ⟨p, u, x, hp, hu, hx, hxH, hhash, -⟩ := h.exists_part hE hm hrep hs.known hH
  rcases h.cached ha with hc | ⟨hin, hholds⟩
  · exact .inl hc
  · rw [hp] at hin hholds
    obtain ⟨⟨_, hd⟩, -⟩ := decodeAndHash_ok hE h.decoded
    obtain ⟨o, ho⟩ := Mpt.get_of_resolved hS.state.resolved (Hp.keyNibs a.bytes)
    exact .inr ⟨o, ho, chunkHolds_get hE hinj h0 hd hhash hx hs.sized hs.values hD hxH
      (inChunk_iff.mp hin) hholds ((hs.parent a account ha).trans ho)⟩

/-- The frontier, as it was loaded. -/
theorem known_loaded (hE : Mpt.Faithful C.toEnv) (hinj : Set.InjOn C.keccak256 H)
    (h0 : [Rlp.emptyStringCode] ∈ H) (hS : S.Sound C root) (hnodes : Mpt.nodes C.toEnv S.state ⊆ H)
    {bytes : Bytes} {numNodes : Nat} {m : Mpt} (hb : ∀ b ∈ Mpt.hashedNodes C.toEnv bytes, b ∈ H)
    (h : decodeAndHash C bytes numNodes = .ok (m, root)) :
    ∃ P, Mpt.Represents C.toEnv m P ∧ Mpt.Known C.toEnv H P S.state := by
  obtain ⟨⟨_, hd⟩, hhash⟩ := decodeAndHash_ok hE h
  rw [← hS.root] at hhash
  obtain ⟨P, hrep, hst⟩ := Mpt.decodeTrie_stands hE hinj h0 hd hhash
    (Mpt.small_of_sized hS.state.sized (by omega) hS.stateValues) hS.state.normal
    hS.state.resolved hb hnodes
  exact ⟨P, hrep, hst.known hnodes⟩

/-- An account of the cache on its way: still in the cache, or compared. -/
def Pending (C : ClientEnv) (H : Set Bytes) (S : FullState) (a : B256)
    (account : Option TrieAccount) (s : StreamingEthereumState) : Prop :=
  (∃ P X, Shown C H S s P X) ∧ (s.accountCache.lookup a = some account ∨ S.Stores C a account)

end Loop

/-! ## The whole update -/

/-- What a turn reads from the stream. -/
theorem Turn.Of.consumed {accounts rest : List (B256 × BundleAccount)}
    {s s' : StreamingEthereumState} {t : Turn} (h : t.Of C accounts s rest s') :
    Consumed s.input s'.input (.raw t.bytes) := by
  exact ⟨[.witness (.stateChunk t.header)], t.input, h.input, h.suffix⟩

/-- An update that returned: the frontier was loaded, the turns were run, and what was left in the
cache was found in the frontier. -/
theorem update_ok {bundle : Bundle} {s s' : StreamingEthereumState} (hload : s.stateTrie = none)
    (h : updateFromBundleState C bundle s = (.ok (), s')) :
    ∃ bytes rest m s₂ m₂, s.input = .raw bytes :: rest ∧
      decodeAndHash C bytes s.stateTrieHeader.numNodes = .ok (m, s.parentStateRoot) ∧
      ensureStateTrieLoaded C s = (.ok (), { s with input := rest, stateTrie := some m }) ∧
      updateChunks C s.stateTrieHeader.chunkCount (sortedAccounts C bundle)
        { s with input := rest, stateTrie := some m } = (.ok [], s₂) ∧
      s₂.stateTrie = some m₂ ∧ s₂.input <:+ rest ∧
      (∀ entry ∈ s₂.accountCache,
        (Mpt.getRlp C.decodeAccount entry.1.bytes m₂).1 = .ok entry.2) ∧
      s' = { s₂ with storageTries := fun _ => none } := by
  obtain ⟨s₁, s₂, s₃, h₁, h₂, h₃, hs'⟩ := updateFromBundleState_ok h
  obtain ⟨bytes, rest, m, hinput, hdec, hs₁⟩ := ensureStateTrieLoaded_ok hload h₁
  subst hs₁
  obtain ⟨⟨m₂, hm₂⟩, hsuf⟩ := updateChunks_induction (fun _ s => ∃ m, s.stateTrie = some m)
    ⟨m, rfl⟩ h₂ fun _ _ _ _ _ t _ _ ht _ _ _ => ⟨t.frontier', by rw [ht.state]⟩
  obtain ⟨rfl, hval⟩ := validateAccounts_ok hm₂ h₃
  exact ⟨bytes, rest, m, s₃, m₂, hinput, hdec, h₁, h₂, hm₂, hsuf, hval, hs'⟩

/-- An update reads on. -/
theorem update_suffix {bundle : Bundle} {s s' : StreamingEthereumState}
    (hload : s.stateTrie = none) (h : updateFromBundleState C bundle s = (.ok (), s')) :
    s'.input <:+ s.input := by
  obtain ⟨bytes, rest, m, s₂, m₂, hinput, -, -, -, -, hsuf, -, hs'⟩ := update_ok hload h
  rw [hs', hinput]
  exact hsuf.trans (List.suffix_cons _ _)

/-- What holds of the loaded frontier and is kept by every turn holds when the rest of the cache
is compared. -/
theorem update_induction (Inv : List (B256 × BundleAccount) → StreamingEthereumState → Prop)
    {S : FullState} {input : List StreamItem} {bundle : Bundle} {s s' : StreamingEthereumState}
    {H : Set Bytes} (hH : ∀ b, HashedInRun C S input bundle s b → b ∈ H) (hin : s.input <:+ input)
    (hload : s.stateTrie = none) (h : updateFromBundleState C bundle s = (.ok (), s'))
    (h0 : ∀ bytes rest m, (∀ b ∈ Mpt.hashedNodes C.toEnv bytes, b ∈ H) →
      decodeAndHash C bytes s.stateTrieHeader.numNodes = .ok (m, s.parentStateRoot) →
      Inv (sortedAccounts C bundle) { s with input := rest, stateTrie := some m })
    (hstep : ∀ accounts s₁ rest s₂ t, Turn.Of C accounts s₁ rest s₂ t → t.strings C ⊆ H →
      (∀ bytes, Consumed s₁.input s₂.input (.raw bytes) →
        ∀ b ∈ Mpt.hashedNodes C.toEnv bytes, b ∈ H) → Inv accounts s₁ → Inv rest s₂) :
    ∃ s₂ m, Inv [] s₂ ∧ s₂.stateTrie = some m ∧ s' = { s₂ with storageTries := fun _ => none } ∧
      ∀ entry ∈ s₂.accountCache, (Mpt.getRlp C.decodeAccount entry.1.bytes m).1 = .ok entry.2 := by
  obtain ⟨bytes, rest, m, s₂, m₂, hinput, hdec, hens, hturns, hm₂, hsuf, hval, hs'⟩ :=
    update_ok hload h
  have hlast : s'.input = s₂.input := by rw [hs']
  have hrest : rest <:+ s.input := hinput ▸ List.suffix_cons _ rest
  -- what a part of the run consumes, the run consumes
  have hstreamed : ∀ {l l' : List StreamItem} {bytes : Bytes}, l <:+ s.input → s₂.input <:+ l' →
      Consumed l l' (.raw bytes) → ∀ b ∈ Mpt.hashedNodes C.toEnv bytes, b ∈ H := by
    intro l l' bytes hl hl' hc b hb
    refine hH b (.streamed ?_ hb)
    rw [h]
    exact (hc.left (hl.trans hin)).right (hlast ▸ hl')
  refine ⟨s₂, m₂, ?_, hm₂, hs', hval⟩
  refine (updateChunks_induction Inv ?_ hturns
    fun k mid r₁ mid' r₂ t hk hrun ht hpre hpost hinv => ?_).1
  · exact h0 bytes rest m (hstreamed List.suffix_rfl hsuf ⟨[], rest, hinput, List.suffix_rfl⟩) hdec
  · refine hstep mid r₁ mid' r₂ t ht (fun b hb => hH b ?_)
      (fun bytes hc => hstreamed (hpre.trans hrest) hpost hc) hinv
    refine .turn hk ?_ ht hb
    rw [hens]
    exact hrun

/-- The accounts that are in the cache when the update starts are the parent's. -/
theorem stores_of_cached {S : FullState} {input : List StreamItem} {bundle : Bundle}
    {s s' : StreamingEthereumState} (hE : Mpt.Faithful C.toEnv) (hS : S.Sound C s.parentStateRoot)
    (hinj : Set.InjOn C.keccak256 {b | HashedInRun C S input bundle s b})
    (hin : s.input <:+ input) (hload : s.stateTrie = none)
    (h : updateFromBundleState C bundle s = (.ok (), s')) {a : B256}
    {account : Option TrieAccount} (ha : s.accountCache.lookup a = some account) :
    S.Stores C a account := by
  have h0 : [Rlp.emptyStringCode] ∈ {b | HashedInRun C S input bundle s b} := .empty
  have hturn : ∀ accounts r₁ rest r₂ t, Turn.Of C accounts r₁ rest r₂ t →
      t.strings C ⊆ {b | HashedInRun C S input bundle s b} →
      (∀ bytes, Consumed r₁.input r₂.input (.raw bytes) →
        ∀ b ∈ Mpt.hashedNodes C.toEnv bytes, b ∈ {b | HashedInRun C S input bundle s b}) →
      Pending C {b | HashedInRun C S input bundle s b} S a account r₁ →
      Pending C {b | HashedInRun C S input bundle s b} S a account r₂ := by
    intro accounts r₁ rest r₂ t ht hstr hbytes hp
    obtain ⟨⟨P, X, hr⟩, hka⟩ := hp
    refine ⟨hr.turn hE ht hstr, ?_⟩
    rcases hka with hc | hst
    · exact hr.stores hE hinj h0 hS ht hstr (hbytes t.bytes ht.consumed) hc
    · exact .inr hst
  obtain ⟨s₂, m, ⟨⟨P, X, hshown⟩, hkeep⟩, hm, -, hval⟩ := update_induction
    (fun _ => Pending C {b | HashedInRun C S input bundle s b} S a account)
    (fun _ hb => hb) hin hload h (fun bytes rest m hb hdec => by
      obtain ⟨P, hrep, hknown⟩ := known_loaded hE hinj h0 hS (fun b hb => .state hb) hb hdec
      exact ⟨⟨P, S.state, ⟨m, rfl, hrep⟩, hknown, hS.state.sized, hS.stateValues,
        fun _ _ _ => rfl⟩, .inl ha⟩) hturn
  rcases hkeep with hc | hst
  · obtain ⟨m', hm', hrep⟩ := hshown.represents
    obtain rfl : m' = m := Option.some.inj (hm'.symm.trans hm)
    obtain ⟨o, ho, hdec⟩ := (Mpt.getRlpNibbles_eq.2 account).mp (hval _ (mem_of_lookup hc))
    rw [← Hp.map_toByte_keyNibs, Mpt.getNibbles_spec hrep] at ho
    refine ⟨o, ?_, hdec⟩
    rw [← hshown.parent a account hc]
    exact hshown.known.get_eq (Exec.of_mapError_ok ho)
  · exact hst

/-! ## Authentic answers -/

/-- The parent state has the answer. -/
def Authentic (C : ClientEnv) (S : FullState) : ReadCall → ReadAnswer → Prop
  | .readAccount a, .account account => S.Stores C a account
  | .loadStorageTrie _, .loaded => True
  | .readSlot a k, .slot value => S.StoresSlot C a k value
  | .readBytecode codeHash, .bytecode bytecode => C.hashSlow bytecode = codeHash
  | _, _ => False

section Reads

variable {S : FullState} {input : List StreamItem} {bundle : Bundle}
variable {s s' : StreamingEthereumState}

/-- A storage trie that was read during execution has the root of the parent's. -/
theorem Vouched.root_eq (hE : Mpt.Faithful C.toEnv) (hS : S.Sound C s.parentStateRoot)
    (hinj : Set.InjOn C.keccak256 {b | HashedInRun C S input bundle s b}) (hs : Opened C input s)
    (h : updateFromBundleState C bundle s = (.ok (), s')) {a : B256} {m : Mpt}
    (hv : Vouched C input s a m) : ∃ bytes numNodes rest,
      Mpt.decodeTrie C.toEnv bytes numNodes = .ok (m, rest) ∧
      (Mpt.hash C.toEnv m).1 = .ok (Trie.hash C.toEnv (S.storage a)) ∧
      ∀ b ∈ Mpt.hashedNodes C.toEnv bytes, HashedInRun C S input bundle s b := by
  obtain ⟨account, bytes, numNodes, hc, hcons, hdec⟩ := hv
  obtain ⟨⟨rest, hd⟩, hhash⟩ := decodeAndHash_ok hE hdec
  have hstores := stores_of_cached hE hS hinj hs.unread hs.unloaded h hc
  refine ⟨bytes, numNodes, rest, hd, ?_, fun b hb => .streamed ?_ hb⟩
  · rw [hhash, hS.storageRoot a account hstores]
  · rw [h]
    exact hcons.right (update_suffix hs.unloaded h)

theorem slotAt_ok {m : Mpt} {k : B256} {value : U256} (h : slotAt C m k = .ok value) :
    ∃ o v, (Mpt.getNibbles ((Hp.keyNibs k.bytes).map Nibble.toByte) m).1 = .ok o ∧
      decodeWith C.decodeU256 o = .ok v ∧ value = v.getD 0 := by
  unfold slotAt at h
  cases hg : (Mpt.getRlp C.decodeU256 k.bytes m).1 with
  | error e =>
    rw [hg] at h
    cases h
  | ok v =>
    rw [hg] at h
    obtain ⟨o, ho, hdec⟩ := (Mpt.getRlpNibbles_eq.2 v).mp hg
    rw [← Hp.map_toByte_keyNibs] at ho
    exact ⟨o, v, ho, hdec, (Except.ok.inj h).symm⟩

/-- Whatever was recorded during execution. -/
theorem Recorded.authentic (hE : Mpt.Faithful C.toEnv) (hS : S.Sound C s.parentStateRoot)
    (hinj : Set.InjOn C.keccak256 {b | HashedInRun C S input bundle s b}) (hs : Opened C input s)
    (h : updateFromBundleState C bundle s = (.ok (), s')) {call : ReadCall} {answer : ReadAnswer}
    (hr : Recorded C s call answer) : Authentic C S call answer := by
  cases call with
  | readAccount a =>
    cases answer with
    | account account => exact stores_of_cached hE hS hinj hs.unread hs.unloaded h hr
    | _ => exact hr
  | loadStorageTrie a => cases answer <;> exact hr
  | readSlot a k =>
    cases answer with
    | slot value =>
      obtain ⟨m, hm, hslot⟩ := hr
      obtain ⟨bytes, numNodes, rest, hd, hhash, hb⟩ :=
        (hs.stored a m hm).root_eq hE hS hinj hs h
      obtain ⟨o, v, ho, hdec, hval⟩ := slotAt_ok hslot
      obtain ⟨o', ho'⟩ := Mpt.get_of_resolved (hS.storage a).resolved (Hp.keyNibs k.bytes)
      have hsmall : Mpt.Small C.toEnv (S.storage a) :=
        Mpt.small_of_sized (hS.storage a).sized (by omega) (hS.storageValues a)
      have heq := Mpt.decodeTrie_get_eq hE hinj .empty hd hhash hsmall hb
        (fun b hb => .storage a hb) ho ho'
      exact ⟨o', v, ho', heq ▸ hdec, hval⟩
    | _ => exact hr
  | readBytecode hash => cases answer <;> exact hr

end Reads

/-- Streamed reads are authentic: whatever the stream, once the update has returned, every answer
that execution was given is the parent's. -/
theorem session_authentic {S : FullState} {header : StateTrieHeader} {root : B256}
    {input : List StreamItem} {calls : List ReadCall} {bundle : Bundle}
    {log : List (ReadCall × Except Stop ReadAnswer)} {s s' : StreamingEthereumState}
    (hE : Mpt.Faithful C.toEnv) (hS : S.Sound C root)
    (hrun : session C calls (new header root input) = (log, s))
    (hinj : Set.InjOn C.keccak256 {b | HashedInRun C S input bundle s b})
    (h : updateFromBundleState C bundle s = (.ok (), s')) :
    ∀ call answer, (call, Except.ok answer) ∈ log → Authentic C S call answer := by
  intro call answer hmem
  obtain ⟨hopened, hgrows, hlog⟩ := session_run calls (opened_new (C := C) header root input)
  rw [hrun] at hopened hgrows hlog
  have hroot : s.parentStateRoot = root := hgrows.root
  exact (hlog _ hmem answer rfl).authentic hE (hroot ▸ hS) hinj hopened h

/-! ## A run over one account -/

section Sample

open EthereumState

def readRoot : B256 :=
  B256.ofNat 0x9535065d9c8a2413d7110fffb46049746494f97244819594198e66543f2adb45

/-- The storage root after the slot was written. -/
def writtenSlotRoot : B256 :=
  B256.ofNat 0xc735afca4f515d00b526997c0afd701faebf13d77ffb7709570135b01701ad6d

def writtenRoot : B256 :=
  B256.ofNat 0x7068c83fda14552047db5df05994767f09a536f0cae6ba5b77beffa37493e5af

def slotLeaf (value : UInt8) : Bytes := [0xe3, 0xa1, 0x20] ++ slotOne.bytes ++ [value]

def accountLeaf (nonce : UInt8) (storageRoot : B256) : Bytes :=
  [0xf8, 0x6a, 0xa1, 0x20] ++ hashedOne.bytes ++ [0xb8, 0x46, 0xf8, 0x44, nonce, 7, 0xa0] ++
    storageRoot.bytes ++ [0xa0] ++ noCode.bytes

/-- What is hashed in the run. -/
def readTable : List (Bytes × B256) :=
  [(addressOne.bytes, hashedOne), (U256.toBeBytes 1, slotOne), (slotLeaf 5, slotRoot),
   (accountLeaf 1 slotRoot, readRoot), (slotLeaf 6, writtenSlotRoot),
   (accountLeaf 2 writtenSlotRoot, writtenRoot)]

def readEnv : ClientEnv where
  toStateEnv := StateEnv.ofTable readTable
  hashSlow code := if code.original = [] then noCode else B256.ofNat 0

theorem faithful_readEnv : Mpt.Faithful readEnv.toEnv where
  inverse := Rlp.inverse_decodeHeader
  consuming := Rlp.prefixConsuming_decodeHeader
  emptyRoot := by decide

def readAccountOne : TrieAccount := ⟨1, 7, slotRoot, noCode⟩

/-- One account with one slot. -/
def readState : FullState where
  state := leaf (Hp.keyNibs hashedOne.bytes) (Rlp.encodeAccount readAccountOne)
  storage a := if a = hashedOne then leaf (Hp.keyNibs slotOne.bytes) [5] else null

/-- The account, its storage and its code; then the frontier, and one chunk at its root. -/
def readStream : List StreamItem :=
  [.witness (.account ⟨hashedOne, some readAccountOne⟩),
   .witness (.storageTrie ⟨hashedOne, 2⟩), .raw (slotLeaf 5), .witness (.bytecode ⟨[]⟩),
   .raw ([0xa0] ++ readRoot.bytes ++ [0, 0, 0]), .witness (.stateChunk ⟨[], readRoot, 2, 0⟩),
   .raw (accountLeaf 1 slotRoot)]

def readCalls : List ReadCall :=
  [.readAccount hashedOne, .loadStorageTrie hashedOne, .readSlot hashedOne slotOne,
   .readBytecode noCode]

def readLog : List (ReadCall × Except Stop ReadAnswer) :=
  [(.readAccount hashedOne, .ok (.account (some readAccountOne))),
   (.loadStorageTrie hashedOne, .ok .loaded), (.readSlot hashedOne slotOne, .ok (.slot 5)),
   (.readBytecode noCode, .ok (.bytecode ⟨[]⟩))]

/-- The slot is written, and the nonce is increased. -/
def readBundle : Bundle := [(addressOne, ⟨some ⟨2, 7, noCode⟩, false, [(1, 6)]⟩)]

/-- The state after execution. -/
def readDone : StreamingEthereumState :=
  (session readEnv readCalls (new ⟨2, 2, 1⟩ readRoot readStream)).2

theorem session_readLog :
    session readEnv readCalls (new ⟨2, 2, 1⟩ readRoot readStream) = (readLog, readDone) := by
  have h : (session readEnv readCalls (new ⟨2, 2, 1⟩ readRoot readStream)).1 = readLog := by decide
  rw [← h, readDone]

theorem update_readBundle : (updateFromBundleState readEnv readBundle readDone).1 = .ok () := by
  decide +kernel

theorem isTrie_leaf {p : List Nibble} {v : Bytes} (h : p.length = 64) :
    IsTrie 64 (leaf p v : Trie) := ⟨trivial, trivial, h⟩

theorem sound_readState : readState.Sound readEnv readRoot where
  state := isTrie_leaf (by decide)
  storage a := by
    unfold readState
    by_cases h : a = hashedOne
    · simp only [h, if_true]
      exact isTrie_leaf (by decide)
    · simp only [h, if_false]
      exact ⟨trivial, trivial, trivial⟩
  stateValues := by
    change (Rlp.encodeAccount readAccountOne).length < 2 ^ 63
    decide
  storageValues a := by
    unfold readState
    by_cases h : a = hashedOne
    · simp only [h, if_true]
      change [(5 : UInt8)].length < 2 ^ 63
      decide
    · simp only [h, if_false]
      trivial
  root := by decide
  storageRoot a account h := by
    obtain ⟨o, ho, hdec⟩ := h
    by_cases ha : a = hashedOne
    · subst ha
      have hget : readState.state.get (Hp.keyNibs hashedOne.bytes) =
          .ok (some (Rlp.encodeAccount readAccountOne)) := by decide
      rw [hget] at ho
      cases ho
      have hacc : decodeWith readEnv.decodeAccount (some (Rlp.encodeAccount readAccountOne)) =
          .ok (some readAccountOne) := by decide
      rw [hacc] at hdec
      cases hdec
      decide
    · have hne : Hp.keyNibs a.bytes ≠ Hp.keyNibs hashedOne.bytes := fun h =>
        ha (B256.ext (Hp.keyNibs_injective h))
      have hget : readState.state.get (Hp.keyNibs a.bytes) = .ok none := by
        simp [readState, Radix.get, hne.symm]
      rw [hget] at ho
      cases ho
      cases hdec
      simp only [readState, ha, if_false, storageRootOf, Option.elim_none]
      rfl

theorem shape_leaf {m : Mpt} {P : Trie} {id : NodeId} {p : List Nibble} {v : Bytes}
    {r : Option NodeRef} (h : Mpt.Shape m P id)
    (hc : m.cells[id]? = some ⟨.leaf (Hp.encode p true) v, r⟩) : P = leaf p v := by
  cases P with
  | leaf q w =>
    obtain ⟨_, hc', _⟩ := h
    rw [hc] at hc'
    simp only [Option.some.injEq, Cell.mk.injEq, NodeData.leaf.injEq] at hc'
    rw [(Hp.encode_injective hc'.1.1).1, hc'.1.2]
  | _ =>
    obtain ⟨_, h⟩ := h
    simp [hc] at h

theorem shape_digest {m : Mpt} {P : Trie} {id : NodeId} {d : B256} {r : Option NodeRef}
    (h : Mpt.Shape m P id) (hc : m.cells[id]? = some ⟨.digest d.bytes, r⟩) : P = digest d := by
  cases P with
  | digest e =>
    obtain ⟨_, hc', _⟩ := h
    rw [hc] at hc'
    simp only [Option.some.injEq, Cell.mk.injEq, NodeData.digest.injEq] at hc'
    rw [B256.ext hc'.1]
  | _ =>
    obtain ⟨_, h⟩ := h
    simp [hc] at h

theorem mem_nodes_leaf {E : Env} {p : List Nibble} {v b : Bytes}
    (h : b ∈ Mpt.nodes E (leaf p v)) : b = rlp E (leaf p v) := by
  rcases h with ⟨-, h⟩ | h
  · exact h
  · exact h.1

/-- The strings of the run. -/
def readStrings : List Bytes := [Rlp.emptyStringCode] :: readTable.map Prod.fst

theorem rlp_readState : rlp readEnv.toEnv readState.state = accountLeaf 1 slotRoot := by
  rfl

/-- The frontier of the run, which is a digest. -/
def readFrontier : Mpt :=
  ⟨1, [⟨.null, none⟩, ⟨.digest readRoot.bytes, some (.digest readRoot.bytes)⟩]⟩

/-- The chunk of the run, before and after its account is written. -/
def readChunk : Mpt :=
  ⟨1, [⟨.null, none⟩, ⟨.leaf (Hp.encode (Hp.keyNibs hashedOne.bytes) true)
    (Rlp.encodeAccount readAccountOne), some (.digest readRoot.bytes)⟩]⟩

def readChunk' : Mpt :=
  ⟨1, [⟨.null, none⟩, ⟨.leaf (Hp.encode (Hp.keyNibs hashedOne.bytes) true)
    (Rlp.encodeAccount ⟨2, 7, writtenSlotRoot, noCode⟩), some (.digest writtenRoot.bytes)⟩]⟩

/-- A state whose update reads the frontier and the chunk of the sample, whatever number of nodes
the chunk announces. -/
structure OneTurn (s : StreamingEthereumState) (numNodes : Nat) : Prop where
  count : s.stateTrieHeader.chunkCount = 1
  loaded : (ensureStateTrieLoaded readEnv s).2.stateTrie = some readFrontier
  input : (ensureStateTrieLoaded readEnv s).2.input =
    [.witness (.stateChunk ⟨[], readRoot, numNodes, 0⟩), .raw (accountLeaf 1 slotRoot)]
  decoded : decodeAndHash readEnv (accountLeaf 1 slotRoot) numNodes = .ok (readChunk, readRoot)
  processed : (processChunk readEnv ⟨[], readRoot, numNodes, 0⟩
      ((sortedAccounts readEnv readBundle).takeWhile fun a => inChunk [] a.1)
      ⟨{ (ensureStateTrieLoaded readEnv s).2 with input := [] }, readChunk, [], false⟩).2.chunk =
    readChunk'

theorem oneTurn_readDone : OneTurn readDone 2 where
  count := by decide
  loaded := by decide
  input := by decide
  decoded := by decide
  processed := by decide

/-- The turn of the run: what it starts from, and the chunk that it leaves. -/
theorem strings_readTurn {s : StreamingEthereumState} {numNodes : Nat} (hs : OneTurn s numNodes)
    {rest : List (B256 × BundleAccount)} {s₂ : StreamingEthereumState} {t : Turn}
    (ht : t.Of readEnv (sortedAccounts readEnv readBundle) (ensureStateTrieLoaded readEnv s).2
      rest s₂) {b : Bytes} (hb : b ∈ t.strings readEnv) : b ∈ readStrings := by
  obtain ⟨hw, hin⟩ := List.cons.inj (hs.input.symm.trans ht.input)
  obtain ⟨hraw, hin⟩ := List.cons.inj hin
  have hheader : (⟨[], readRoot, numNodes, 0⟩ : StateChunkHeader) = t.header := by simpa using hw
  have hbytes : accountLeaf 1 slotRoot = t.bytes := by simpa using hraw
  have hfrontier : readFrontier = t.frontier :=
    Option.some.inj (hs.loaded.symm.trans ht.stateTrie_eq)
  rcases hb with ⟨P, p, u, hP, -, hu, hb⟩ | ⟨Q, hQ, hb⟩
  · rw [← hfrontier] at hP
    have hdig : P = digest readRoot := shape_digest hP (r := some (.digest readRoot.bytes)) (by decide)
    subst hdig
    cases p with
    | nil =>
      obtain rfl : digest readRoot = u := by simpa using hu
      rcases hb with ⟨hl, -⟩ | hb
      · exact hl.elim
      · exact hb.elim
    | cons i p => simp [Radix.subtree] at hu
  · have hchunk : readChunk = t.chunk := by
      have hdec := ht.decoded
      rw [← hheader, ← hbytes, hs.decoded] at hdec
      exact (Prod.mk.inj (Except.ok.inj hdec)).1
    have hafter := congrArg (fun r => r.2.chunk) ht.process
    rw [← hheader, ← hchunk, ← hin, hs.processed] at hafter
    rw [← show readChunk' = t.after.chunk from hafter] at hQ
    have hleaf := shape_leaf hQ (p := Hp.keyNibs hashedOne.bytes)
      (v := Rlp.encodeAccount ⟨2, 7, writtenSlotRoot, noCode⟩)
      (r := some (.digest writtenRoot.bytes)) (by decide)
    subst hleaf
    rw [mem_nodes_leaf hb]
    decide

theorem mem_readStrings {s : StreamingEthereumState} {numNodes : Nat} (hs : OneTurn s numNodes)
    {input : List StreamItem} (hin : ∀ bytes, .raw bytes ∈ input → .raw bytes ∈ readStream)
    {b : Bytes} (h : HashedInRun readEnv readState input readBundle s b) : b ∈ readStrings := by
  cases h with
  | empty => decide
  | state h =>
    have hb : b = rlp readEnv.toEnv readState.state := mem_nodes_leaf h
    rw [hb, rlp_readState]
    decide
  | storage a h =>
    simp only [readState] at h
    split at h
    · rw [mem_nodes_leaf h]
      decide
    · rcases h with ⟨h, -⟩ | h
      · exact h.elim
      · exact h.elim
  | @streamed _ bytes hc h =>
    obtain ⟨before, after, heq, -⟩ := hc
    have hmem : StreamItem.raw bytes ∈ readStream := hin bytes (by rw [heq]; simp)
    simp only [readStream, List.mem_cons, StreamItem.raw.injEq, List.not_mem_nil, reduceCtorEq,
      false_or, or_false] at hmem
    have hnodes : ∀ bytes ∈ [slotLeaf 5, [0xa0] ++ readRoot.bytes ++ [0, 0, 0],
        accountLeaf 1 slotRoot], ∀ b ∈ Mpt.hashedNodes readEnv.toEnv bytes, b ∈ readStrings := by
      decide
    exact hnodes bytes (by simpa using hmem) b h
  | @turn _ k accounts rest s₁ s₂ t hk hrun ht h =>
    obtain rfl : k = 0 := Nat.lt_one_iff.mp (hs.count ▸ hk)
    simp only [updateChunks, Exec.pure_apply, Prod.mk.injEq, Except.ok.injEq] at hrun
    obtain ⟨rfl, rfl⟩ := hrun
    exact strings_readTurn hs ht h
  | address h =>
    simp only [readBundle, List.mem_singleton] at h
    rw [h]
    decide
  | slot h hs =>
    simp only [readBundle, List.mem_singleton] at h
    subst h
    simp only [List.mem_singleton] at hs
    rw [hs]
    decide

theorem injOn_readStrings :
    Set.InjOn readEnv.keccak256 {b | HashedInRun readEnv readState readStream readBundle readDone b} := by
  have h : Mpt.NoCollision readEnv.toEnv readStrings := by decide
  exact fun x hx y hy => h x (mem_readStrings oneTurn_readDone (fun _ h => h) hx) y
    (mem_readStrings oneTurn_readDone (fun _ h => h) hy)

theorem session_authentic_sample :
    (updateFromBundleState readEnv readBundle readDone).1 = .ok () ∧
    ∀ call answer, (call, Except.ok answer) ∈ readLog → Authentic readEnv readState call answer := by
  have h := update_readBundle
  refine ⟨h, ?_⟩
  exact session_authentic faithful_readEnv sound_readState session_readLog injOn_readStrings
    (Exec.eq_of_fst h)

end Sample

end StreamingEthereumState
end CenoReth
