/-
The storage tries that the update reads (`update_from_bundle_state` of
`crates/executor/client/src/io.rs`, for what `execute_with_state` recorded and
`write_ceno_client_input` wrote).

The host sends a storage trie for an account when its condition holds.  The guest
reads it with the reader borrowed twice and panics, so a chunk that is read to its
end brought no storage trie.  The accounts that are left need none: they were
destroyed, or their tries were loaded during the execution, or they had no storage.
-/
import Mathlib.Data.List.TakeWhile
import CenoReth.State.PostRoot
import CenoReth.State.Recorder
import CenoReth.State.Roots

namespace CenoReth

open Patricia Patricia.Radix Trie StreamingEthereumState

/-! ## Stops about storage witnesses -/

/-- The messages of an update whose storage witnesses are not the ones that it needs. -/
def WitnessMessage.ofDemand : WitnessMessage → Prop
  | .missingStorageTrie _ => True
  | .unusedStorageWitnesses => True
  | .invalidStorageWitness _ _ => True
  | _ => False

def Stop.ofDemand : Stop → Prop
  | .err (.trieWitnessError message) => message.ofDemand
  | _ => False

/-- A message about storage witnesses, or else, if it may be one, the panic of a second borrow. -/
def Stop.Unmet (borrows : Prop) : Stop → Prop
  | .alreadyBorrowed => borrows
  | e => e.ofDemand

theorem Stop.unmet_of_ofDemand {borrows : Prop} {e : Stop} (h : e.ofDemand) : e.Unmet borrows := by
  cases e with
  | alreadyBorrowed => exact h.elim
  | _ => exact h

section Halts

variable {borrows : Prop}

theorem not_unmet_ofHalt (h : Halt) : ¬ (Stop.ofHalt h).Unmet borrows := by
  cases h <;> exact id

theorem not_unmet_of_mapError {α : Type} {x : Except Halt α} {e : Stop}
    (h : x.mapError Stop.ofHalt = .error e) : ¬ e.Unmet borrows := by
  cases x with
  | ok a => cases h
  | error halt =>
    obtain rfl : Stop.ofHalt halt = e := Except.error.inj h
    exact not_unmet_ofHalt halt

end Halts

theorem inChunk_of_mem_takeWhile {q : List UInt8} {accounts : List (B256 × BundleAccount)}
    {entry : B256 × BundleAccount} (h : entry ∈ accounts.takeWhile fun a => inChunk q a.1) :
    inChunk q entry.1 = true :=
  List.mem_takeWhile_imp (p := fun a : B256 × BundleAccount => inChunk q a.1) h

/-! ## The witnesses of a chunk -/

section Chunk

variable {C : ClientEnv} {input : ClientExecutorInput} {state : EthereumState}
  {write : WitnessAccess → Except HostError (List StreamItem)} {borrows : Prop}

theorem avoids_onChunk {α : Type} (x : TrieM α) (cs : ChunkState) :
    Exec.Avoids (Stop.Unmet borrows) (onChunk x) cs fun a cs' =>
      (x cs.chunk).1 = .ok a ∧ cs' = { cs with chunk := (x cs.chunk).2 } := by
  refine ⟨fun e cs' h => ?_, fun a cs' h => ?_⟩
  · obtain ⟨h, -⟩ := Prod.mk.inj h
    exact not_unmet_of_mapError h
  · obtain ⟨ha, rfl⟩ := Prod.mk.inj h
    exact ⟨Exec.of_mapError_ok ha, rfl⟩

/-- A write whose answer is dropped. -/
theorem avoids_chunkWrite (x : TrieM Bool) (cs : ChunkState) :
    Exec.Avoids (Stop.Unmet borrows) (onChunk (do let _ ← x)) cs fun _ cs' =>
      (∃ b, x cs.chunk = (.ok b, cs'.chunk)) ∧ cs' = { cs with chunk := cs'.chunk } := by
  refine (avoids_onChunk _ cs).imp ?_
  rintro _ _ ⟨h, rfl⟩
  obtain ⟨b, m, hb, hm⟩ := Exec.of_bind_ok (Prod.ext h rfl)
  simp only [Exec.pure_apply, Prod.mk.injEq, true_and] at hm
  exact ⟨⟨b, by rw [hb, hm]⟩, rfl⟩

theorem avoids_chunkAccount (p : List UInt8) (a : B256) (cs : ChunkState) :
    Exec.Avoids (Stop.Unmet borrows) (chunkAccount C p a) cs fun account cs' =>
      cs' = cs ∧ ChunkHolds C p cs.chunk a account :=
  ⟨(avoids_onChunk _ cs).1, fun _ _ h => chunkAccount_ok h⟩

/-- A hash that is computed on a trie that is used once. -/
theorem avoids_ofHalt {α : Type} (x : Except Halt α) (cs : ChunkState) :
    Exec.Avoids (Stop.Unmet borrows) (Exec.ofExcept (x.mapError Stop.ofHalt) : ChunkM α) cs
      fun a cs' => x = .ok a ∧ cs' = cs :=
  Exec.avoids_ofExcept (fun _ h => not_unmet_of_mapError h) fun _ h =>
    ⟨Exec.of_mapError_ok h, rfl⟩

theorem onStream_readWitnessInput {cs : ChunkState} {w : ClientWitnessInput}
    {rest : List StreamItem} (h : cs.stream.input = .witness w :: rest) :
    onStream readWitnessInput cs =
      (.ok w, { cs with stream := { cs.stream with input := rest } }) := by
  simp only [onStream, readWitnessInput_cons h]

/-- A borrow of the input that is free. -/
theorem avoids_borrowInput {α : Type} {x : ChunkM α} {cs : ChunkState}
    {Q : α → ChunkState → Prop} (hfree : cs.inputBorrowed = false)
    (h : Exec.Avoids (Stop.Unmet borrows) x { cs with inputBorrowed := true } fun a cs' =>
      Q a { cs' with inputBorrowed := false }) :
    Exec.Avoids (Stop.Unmet borrows) (borrowInput x) cs Q := by
  unfold borrowInput
  refine Exec.avoids_bind_of_ok (Exec.read_apply _ cs) ?_
  rw [if_neg (by simp [hfree])]
  refine Exec.avoids_bind_of_ok (Exec.write_apply _ cs) ?_
  refine h.bind fun a cs' hq => ?_
  exact Exec.avoids_bind_of_ok (Exec.write_apply _ cs') (Exec.avoids_pure hq)

/-- The witnesses of a chunk that have been read.  Nothing of them is kept. -/
structure Received (rest : List StreamItem) (cs cs' : ChunkState) : Prop where
  input : cs'.stream.input = rest
  storageTries : cs'.stream.storageTries = cs.stream.storageTries
  chunk : cs'.chunk = cs.chunk
  post : cs'.postStorageTries = []
  free : cs'.inputBorrowed = false

/-- A witness that the host wrote for the chunk.  If it is a storage trie, the guest panics. -/
theorem readChunkWitness_written (hw : Wrote C input state write) {p : List UInt8}
    {access : WitnessAccess} {items rest : List StreamItem} {cs : ChunkState}
    (hitems : write access = .ok items) (hin : cs.stream.input = items ++ rest)
    (hacc : ∃ a, (access = .account a ∨ access = .storageTrie a) ∧ inChunk p a = true)
    (hborrow : ∀ a, access = .storageTrie a → ¬ borrows) (hpost : cs.postStorageTries = [])
    (hfree : cs.inputBorrowed = false) :
    Exec.Avoids (Stop.Unmet borrows) (readChunkWitness C p) cs fun _ cs' =>
      Received rest cs cs' ∧ ∀ a, access ≠ .storageTrie a := by
  unfold readChunkWitness
  refine avoids_borrowInput hfree ?_
  obtain ⟨a, rfl | rfl, ha⟩ := hacc
  · obtain ⟨account, -, rfl⟩ := hw.account a items hitems
    refine Exec.avoids_bind_of_ok (onStream_readWitnessInput hin) ?_
    simp only [ha, Bool.true_eq_false, if_false]
    refine (avoids_chunkAccount p a _).bind ?_
    rintro found _ ⟨rfl, -⟩
    split
    · exact Exec.avoids_fail id
    · exact Exec.avoids_pure ⟨⟨rfl, rfl, rfl, hpost, rfl⟩, fun _ => nofun⟩
  · obtain ⟨address, numNodes, bytes, hfind, rfl⟩ := hw.storageTrie a items hitems
    obtain rfl : address = a := by simpa using List.find?_some hfind
    refine Exec.avoids_bind_of_ok (onStream_readWitnessInput hin) ?_
    refine Exec.avoids_bind_of_ok (Exec.read_apply _ _) ?_
    rw [if_neg (by simp [ha, hpost])]
    refine (avoids_chunkAccount p address _).bind ?_
    rintro found _ ⟨rfl, -⟩
    -- the guard of the match is alive
    exact Exec.avoids_bind_of_error (borrowInput_held _ rfl) (hborrow address rfl)

/-- All witnesses of a chunk are read if there is no storage trie among them. -/
theorem readChunkWitnesses_written (hw : Wrote C input state write) {p : List UInt8} :
    ∀ {accesses : List WitnessAccess} {items rest : List StreamItem} {cs : ChunkState},
    writeAccesses write accesses = .ok items → cs.stream.input = items ++ rest →
    (∀ access ∈ accesses, ∃ a, (access = .account a ∨ access = .storageTrie a) ∧
      inChunk p a = true) →
    (∀ a, .storageTrie a ∈ accesses → ¬ borrows) → cs.postStorageTries = [] →
    cs.inputBorrowed = false →
    Exec.Avoids (Stop.Unmet borrows) (readChunkWitnesses C p accesses.length) cs fun _ cs' =>
      Received rest cs cs' ∧ ∀ a, .storageTrie a ∉ accesses
  | [], items, rest, cs, hitems, hin, _, _, hpost, hfree => by
    obtain rfl : [] = items := Except.ok.inj hitems
    exact Exec.avoids_pure ⟨⟨hin, rfl, rfl, hpost, hfree⟩, fun _ => List.not_mem_nil⟩
  | access :: accesses, items, rest, cs, hitems, hin, hacc, hborrow, hpost, hfree => by
    obtain ⟨l, hl, hitems⟩ := Exec.of_except_bind_ok hitems
    obtain ⟨l', hl', hitems⟩ := Exec.of_except_bind_ok hitems
    obtain rfl := Except.ok.inj hitems
    rw [List.append_assoc] at hin
    rw [List.length_cons, readChunkWitnesses]
    refine (readChunkWitness_written hw hl hin (hacc access List.mem_cons_self)
      (fun a ha => hborrow a (ha ▸ List.mem_cons_self)) hpost hfree).bind ?_
    rintro _ cs₁ ⟨h₁, hnot⟩
    refine (readChunkWitnesses_written hw hl' h₁.input
      (fun a ha => hacc a (List.mem_cons_of_mem _ ha))
      (fun a ha => hborrow a (List.mem_cons_of_mem _ ha)) h₁.post h₁.free).imp ?_
    rintro _ cs₂ ⟨h₂, hnone⟩
    refine ⟨⟨h₂.input, h₂.storageTries.trans h₁.storageTries, h₂.chunk.trans h₁.chunk, h₂.post,
      h₂.free⟩, fun a ha => ?_⟩
    rcases List.mem_cons.mp ha with rfl | ha
    · exact hnot a rfl
    · exact hnone a ha

/-! ## One account -/

/-- What the host sends for the accounts of a bundle, and what it knows of them. -/
structure Shipment (C : ClientEnv) (input : ClientExecutorInput) (state : EthereumState)
    (T : Table) (looked : List B256) (accounts : List (B256 × BundleAccount))
    (post : List WitnessAccess) : Prop where
  built : build C input = .ok state
  table : Mpt.Tabulates C.toEnv state.stateTrie T
  sends : ∀ a, .storageTrie a ∈ post ↔
    ∃ entry ∈ accounts, entry.1 = a ∧ Sends C state looked a entry.2
  looked : ∀ a ∈ looked, (state.storageTries a).isSome
  supplied : ∀ entry ∈ accounts, ∀ account, accountAt C state.stateTrie entry.1 =
    .ok (some account) → (state.storageTries entry.1).isSome

section Account

variable {T : Table} {looked : List B256} {accounts : List (B256 × BundleAccount)}
  {post : List WitnessAccess}

/-- An account whose storage changes and whose storage trie was neither looked up nor sent has no
storage. -/
theorem Shipment.empty_of_unsent (hE : Mpt.Faithful C.toEnv)
    (h : Shipment C input state T looked accounts post) {entry : B256 × BundleAccount}
    (hentry : entry ∈ accounts) (hinfo : entry.2.info ≠ none) (hstorage : entry.2.storage ≠ [])
    (hunread : entry.1 ∉ looked) (hunsent : ¬ Sends C state looked entry.1 entry.2)
    {account : Option TrieAccount}
    (hacc : accountAt C state.stateTrie entry.1 = .ok account) :
    storageRootOf C.toEnv account = C.emptyRootHash := by
  by_contra hne
  cases account with
  | none => exact hne rfl
  | some account =>
    obtain ⟨m, hm⟩ := Option.isSome_iff_exists.mp (h.supplied entry hentry account hacc)
    obtain ⟨_, _, root, account', -, hdec, hacc', hroot⟩ := supplied_of_build h.built _ m hm
    obtain rfl : some account = account' := Except.ok.inj (hacc.symm.trans hacc')
    obtain ⟨-, hhash⟩ := decodeAndHash_ok hE hdec
    exact hunsent ⟨hinfo, hstorage, hunread, m, root, hm, hhash, hroot ▸ hne⟩

theorem insert_table {n : Nat} {t : Sparse 16 Bytes B256 n} {E : Env} {m m' : Mpt}
    (h : Mpt.Represents E m t.compress) {key : List Nibble} (hk : key.length = n) {v : Bytes}
    {b : Bool} (hi : Mpt.insertNibbles (key.map Nibble.toByte) v m = (.ok b, m')) :
    Mpt.Represents E m' (t.set key (some v)).compress := by
  have hins := Sparse.insert_compress t hk v
  cases hg : t.get key with
  | error f =>
    obtain ⟨d, rfl⟩ := Mpt.unresolved_of_get hg
    rw [Mpt.insertNibbles_error h (hins.trans (by rw [hg]; rfl)) (by simp)] at hi
    cases hi
  | ok o =>
    obtain ⟨m₁, hm₁, hr⟩ := Mpt.insertNibbles_spec h (hins.trans (by rw [hg]; rfl))
    rw [hm₁, Prod.mk.injEq] at hi
    exact hi.2 ▸ hr

theorem delete_table {n : Nat} {t : Sparse 16 Bytes B256 n} {E : Env} {m m' : Mpt}
    (h : Mpt.Represents E m t.compress) {key : List Nibble} (hk : key.length = n)
    {b : Bool} (hd : Mpt.deleteNibbles (key.map Nibble.toByte) m = (.ok b, m')) :
    Mpt.Represents E m' (t.set key none).compress := by
  have hdel := Sparse.delete_compress t hk
  cases hg : t.get key with
  | error f =>
    obtain ⟨d, rfl⟩ := Mpt.unresolved_of_get hg
    rw [Mpt.deleteNibbles_error h (hdel.trans (by rw [hg]; rfl)) (by simp)] at hd
    cases hd
  | ok o =>
    obtain ⟨m₁, hm₁, hr⟩ := Mpt.deleteNibbles_spec h (hdel.trans (by rw [hg]; rfl))
    rw [hm₁, Prod.mk.injEq] at hd
    exact hd.2 ▸ hr

/-- A chunk shows the accounts as they stand in the state trie. -/
def Mirrors (C : ClientEnv) (T : Table) (p : List Nibble) (todo : List (B256 × BundleAccount))
    (chunk : Mpt) : Prop :=
  ∃ (n : Nat) (t : Sparse 16 Bytes B256 n), Mpt.Represents C.toEnv chunk t.compress ∧
    ∀ entry ∈ todo, ∃ key, Hp.keyNibs entry.1.bytes = p ++ key ∧ key.length = n ∧
      t.get key = T.get (Hp.keyNibs entry.1.bytes)

/-- A lookup in the chunk is a lookup in the state trie. -/
theorem Mirrors.accountAt {p : List Nibble} {todo : List (B256 × BundleAccount)} {chunk m : Mpt}
    (h : Mirrors C T p todo chunk) (hm : Mpt.Tabulates C.toEnv m T)
    {entry : B256 × BundleAccount} (hentry : entry ∈ todo) {account : Option TrieAccount}
    (hholds : ChunkHolds C (p.map Nibble.toByte) chunk entry.1 account) :
    accountAt C m entry.1 = .ok account := by
  obtain ⟨n, t, hrep, hget⟩ := h
  obtain ⟨key, hkey, hlen, heq⟩ := hget entry hentry
  obtain ⟨o, ho, hdec⟩ := (Mpt.getRlpNibbles_eq.2 account).mp hholds
  refine (Mpt.getRlpNibbles_eq.2 account).mpr ⟨o, ?_, hdec⟩
  rw [suffix_eq hkey, Mpt.getNibbles_spec hrep, Sparse.get_compress t hlen, heq] at ho
  rwa [← Hp.map_toByte_keyNibs, Mpt.getNibbles_spec hm,
    Sparse.get_compress T (Mpt.length_keyNibs_b256 entry.1)]

/-- A write at one key keeps what the chunk shows of the others. -/
theorem Mirrors.written {p : List Nibble} {todo : List (B256 × BundleAccount)} {chunk chunk' : Mpt}
    {entry : B256 × BundleAccount} (h : Mirrors C T p (entry :: todo) chunk)
    (hnew : ∀ other ∈ todo, other.1 ≠ entry.1)
    (hw : ∀ {n : Nat} {t : Sparse 16 Bytes B256 n} {key : List Nibble}, key.length = n →
      suffix (p.map Nibble.toByte) entry.1 = key.map Nibble.toByte →
      Mpt.Represents C.toEnv chunk t.compress →
      ∃ o, Mpt.Represents C.toEnv chunk' (t.set key o).compress) :
    Mirrors C T p todo chunk' := by
  obtain ⟨n, t, hrep, hget⟩ := h
  obtain ⟨key, hkey, hlen, -⟩ := hget entry List.mem_cons_self
  obtain ⟨o, hrep'⟩ := hw hlen (suffix_eq hkey) hrep
  refine ⟨n, t.set key o, hrep', fun other hother => ?_⟩
  obtain ⟨key', hkey', hlen', heq⟩ := hget other (List.mem_cons_of_mem _ hother)
  refine ⟨key', hkey', hlen', ?_⟩
  have hne : key' ≠ key := by
    rintro rfl
    exact hnew other hother (B256.ext (Hp.keyNibs_injective (hkey'.trans hkey.symm)))
  rw [Sparse.get_set_ne t hlen hlen' hne, heq]

/-- What the root of one account takes: the storage trie at its address. -/
structure Took (a : B256) (cs cs' : ChunkState) : Prop where
  chunk : cs'.chunk = cs.chunk
  input : cs'.stream.input = cs.stream.input
  storageTries : ∀ b, b ≠ a → cs'.stream.storageTries b = cs.stream.storageTries b
  post : cs'.postStorageTries = []

theorem takeStorageTrie_eq (a : B256) (cs : ChunkState) :
    takeStorageTrie a cs = (.ok (cs.stream.storageTries a), { cs with
      stream := { cs.stream with
        storageTries := Function.update cs.stream.storageTries a none } }) := rfl

theorem takePostStorageTrie_eq (a : B256) (cs : ChunkState) :
    takePostStorageTrie a cs = (.ok (cs.postStorageTries.lookup a),
      { cs with postStorageTries := removeKey a cs.postStorageTries }) := rfl

/-- Only the storage trie of the address was dropped. -/
theorem took_stream {a : B256} {cs : ChunkState} {tries : List (B256 × Mpt)}
    (htries : tries = []) :
    Took a cs { cs with
      stream := { cs.stream with
        storageTries := Function.update cs.stream.storageTries a none }
      postStorageTries := tries } where
  chunk := rfl
  input := rfl
  storageTries _ hb := Function.update_of_ne hb _ _
  post := htries

/-- The root of an account whose storage changed is computed without a storage trie that is
missing, if none was sent for it. -/
theorem changedStorageRoot_took (hE : Mpt.Faithful C.toEnv)
    (h : Shipment C input state T looked accounts post) {entry : B256 × BundleAccount}
    (hentry : entry ∈ accounts) (hinfo : entry.2.info ≠ none)
    (hcond : entry.2.wasDestroyed = true ∨ entry.2.storage ≠ [])
    (hunsent : ¬ Sends C state looked entry.1 entry.2) {cs : ChunkState}
    (htries : cs.stream.storageTries entry.1 =
      if entry.1 ∈ looked then state.storageTries entry.1 else none)
    (hpost : cs.postStorageTries = [])
    {old : Option TrieAccount} (hold : accountAt C state.stateTrie entry.1 = .ok old) :
    Exec.Avoids (Stop.Unmet borrows) (changedStorageRoot C entry.1 entry.2 old) cs fun _ cs' =>
      Took entry.1 cs cs' := by
  unfold changedStorageRoot
  by_cases hd : entry.2.wasDestroyed = true
  · simp only [hd, if_true]
    refine (avoids_ofHalt _ cs).imp ?_
    rintro _ _ ⟨-, rfl⟩
    exact ⟨rfl, rfl, fun _ _ => rfl, hpost⟩
  · have hstorage : entry.2.storage ≠ [] := hcond.resolve_left hd
    simp only [hd, if_false, Bool.false_eq_true]
    refine Exec.avoids_bind_of_ok (takeStorageTrie_eq entry.1 cs) ?_
    cases hm : cs.stream.storageTries entry.1 with
    | some m =>
      refine (avoids_ofHalt _ _).imp ?_
      rintro _ _ ⟨-, rfl⟩
      exact took_stream hpost
    | none =>
      refine Exec.avoids_bind_of_ok (takePostStorageTrie_eq entry.1 _) ?_
      simp only [hpost, List.lookup_nil]
      have hunread : entry.1 ∉ looked := by
        intro hmem
        rw [if_pos hmem, hm] at htries
        have hsome := h.looked entry.1 hmem
        rw [← htries] at hsome
        cases hsome
      rw [if_pos (h.empty_of_unsent hE hentry hinfo hstorage hunread hunsent hold)]
      refine (avoids_ofHalt _ _).imp ?_
      rintro _ _ ⟨-, rfl⟩
      exact took_stream rfl

theorem keptStorageRoot_took {a : B256} {cs : ChunkState} (hpost : cs.postStorageTries = [])
    (old : Option TrieAccount) :
    Exec.Avoids (Stop.Unmet borrows) (keptStorageRoot C a old) cs fun _ cs' => Took a cs cs' := by
  unfold keptStorageRoot
  refine Exec.avoids_bind_of_ok (takeStorageTrie_eq a cs) ?_
  cases cs.stream.storageTries a with
  | none => exact Exec.avoids_pure (took_stream hpost)
  | some m =>
    refine (avoids_ofHalt _ _).bind ?_
    rintro actual _ ⟨-, rfl⟩
    split
    · exact Exec.avoids_fail id
    · exact Exec.avoids_pure (took_stream hpost)

/-- A chunk while the accounts of a block are written into it. -/
structure Serving (C : ClientEnv) (T : Table) (p : List Nibble) (rest : List StreamItem)
    (tries : B256 → Option Mpt) (done todo : List (B256 × BundleAccount)) (cs : ChunkState) :
    Prop where
  mirrors : Mirrors C T p todo cs.chunk
  input : cs.stream.input = rest
  untouched : ∀ a, (∀ entry ∈ done, entry.1 ≠ a) → cs.stream.storageTries a = tries a
  post : cs.postStorageTries = []

/-- What an account does to the chunk, after its storage root was found. -/
theorem Serving.next {p : List Nibble} {rest : List StreamItem} {tries : B256 → Option Mpt}
    {done todo : List (B256 × BundleAccount)} {entry : B256 × BundleAccount}
    {cs cs₁ cs' : ChunkState} (hs : Serving C T p rest tries done (entry :: todo) cs)
    (ht : Took entry.1 cs cs₁) (hmirrors : Mirrors C T p todo cs'.chunk)
    (hcs' : cs' = { cs₁ with chunk := cs'.chunk }) :
    Serving C T p rest tries (done ++ [entry]) todo cs' := by
  have hstream : cs'.stream = cs₁.stream := by rw [hcs']
  have hpost : cs'.postStorageTries = cs₁.postStorageTries := by rw [hcs']
  refine ⟨hmirrors, by rw [hstream, ht.input, hs.input], fun a ha => ?_, hpost.trans ht.post⟩
  have hne : a ≠ entry.1 := fun heq => ha entry (by simp) heq.symm
  rw [hstream, ht.storageTries a hne]
  exact hs.untouched a fun other hother => ha other (List.mem_append_left _ hother)

/-- One account of the block. -/
theorem Serving.step (hE : Mpt.Faithful C.toEnv)
    (h : Shipment C input state T looked accounts post) {p : List Nibble}
    {rest : List StreamItem} {tries : B256 → Option Mpt}
    {done todo : List (B256 × BundleAccount)} {entry : B256 × BundleAccount} {cs : ChunkState}
    (hentry : entry ∈ accounts) (hunsent : ¬ Sends C state looked entry.1 entry.2)
    (htries : tries entry.1 = if entry.1 ∈ looked then state.storageTries entry.1 else none)
    (hnd : ((done ++ entry :: todo).map Prod.fst).Nodup)
    (hs : Serving C T p rest tries done (entry :: todo) cs) :
    Exec.Avoids (Stop.Unmet borrows) (updateChunkAccount C (p.map Nibble.toByte) entry.1 entry.2)
      cs fun _ cs' => Serving C T p rest tries (done ++ [entry]) todo cs' := by
  rw [List.map_append, List.map_cons, List.nodup_append, List.nodup_cons] at hnd
  obtain ⟨-, ⟨hfresh, -⟩, hdisj⟩ := hnd
  have htodo : ∀ other ∈ todo, other.1 ≠ entry.1 := fun other hother heq =>
    hfresh (heq ▸ List.mem_map_of_mem hother)
  have hlooked : cs.stream.storageTries entry.1 =
      if entry.1 ∈ looked then state.storageTries entry.1 else none :=
    (hs.untouched entry.1 fun other hother =>
      hdisj _ (List.mem_map_of_mem hother) _ List.mem_cons_self).trans htries
  unfold updateChunkAccount
  refine (avoids_chunkAccount _ _ cs).bind ?_
  rintro old cs₀ ⟨hcs₀, hholds⟩
  rw [hcs₀]
  have hold := hs.mirrors.accountAt h.table List.mem_cons_self hholds
  cases hinfo : entry.2.info with
  | some info =>
    have hwrite : ∀ (root : B256) (cs₁ : ChunkState), Took entry.1 cs cs₁ →
        Exec.Avoids (Stop.Unmet borrows) (onChunk (do
          let _ ← Mpt.insertNibbles (suffix (p.map Nibble.toByte) entry.1)
            (C.encodeAccount ⟨info.nonce, info.balance, root, info.codeHash⟩))) cs₁
          fun _ cs' => Serving C T p rest tries (done ++ [entry]) todo cs' := by
      intro root cs₁ ht
      refine (avoids_chunkWrite _ cs₁).imp ?_
      rintro _ cs' ⟨⟨b, hb⟩, hcs'⟩
      refine hs.next ht (hs.mirrors.written htodo fun hlen hsuffix hrep => ?_) hcs'
      rw [hsuffix, ht.chunk] at hb
      exact ⟨_, insert_table hrep hlen hb⟩
    simp only
    split
    · rename_i hcond
      exact (changedStorageRoot_took hE h hentry (by simp [hinfo]) hcond hunsent hlooked hs.post
        hold).bind hwrite
    · exact (keptStorageRoot_took hs.post old).bind hwrite
  | none =>
    refine (avoids_chunkWrite _ cs).bind ?_
    rintro _ cs₁ ⟨⟨b, hb⟩, hcs₁⟩
    refine Exec.avoids_bind_of_ok (takeStorageTrie_eq entry.1 cs₁) (Exec.avoids_pure ?_)
    refine hs.next (took_stream hs.post)
      (hs.mirrors.written htodo fun hlen hsuffix hrep => ?_) ?_
    · rw [hsuffix] at hb
      exact ⟨_, delete_table hrep hlen hb⟩
    · rw [hcs₁]

/-- The accounts of a block. -/
theorem Serving.run (hE : Mpt.Faithful C.toEnv)
    (h : Shipment C input state T looked accounts post) {p : List Nibble}
    {rest : List StreamItem} {tries : B256 → Option Mpt} :
    ∀ {todo done : List (B256 × BundleAccount)} {cs : ChunkState},
    (∀ entry ∈ todo, (entry ∈ accounts ∧ ¬ Sends C state looked entry.1 entry.2) ∧
      tries entry.1 = if entry.1 ∈ looked then state.storageTries entry.1 else none) →
    ((done ++ todo).map Prod.fst).Nodup → Serving C T p rest tries done todo cs →
    Exec.Avoids (Stop.Unmet borrows) (updateChunkAccounts C (p.map Nibble.toByte) todo) cs
      fun _ cs' => Serving C T p rest tries (done ++ todo) [] cs'
  | [], done, cs, _, _, hs => by
    rw [List.append_nil]
    exact Exec.avoids_pure hs
  | entry :: todo, done, cs, htodo, hnd, hs => by
    obtain ⟨⟨hentry, hunsent⟩, htries⟩ := htodo entry List.mem_cons_self
    refine (Serving.step hE h hentry hunsent htries hnd hs).bind fun _ cs₁ hs₁ => ?_
    rw [List.append_cons] at hnd ⊢
    exact Serving.run hE h (fun other hother => htodo other (List.mem_cons_of_mem _ hother)) hnd
      hs₁

/-! ## One chunk -/

theorem avoids_consumeCached (p : List UInt8) : ∀ (keys : List B256) (cs : ChunkState),
    Exec.Avoids (Stop.Unmet borrows) (consumeCached C p keys) cs fun _ cs' =>
      ∃ cache, cs' = { cs with stream := { cs.stream with accountCache := cache } }
  | [], cs => Exec.avoids_pure ⟨_, rfl⟩
  | a :: keys, cs => by
    rw [consumeCached]
    refine Exec.avoids_bind_of_ok (Exec.read_apply _ cs) ?_
    have hdrop : onStream (Exec.write fun s =>
          { s with accountCache := removeKey a s.accountCache }) cs =
        (.ok (), { cs with stream := { cs.stream with
          accountCache := removeKey a cs.stream.accountCache } }) := rfl
    refine Exec.avoids_bind_of_ok hdrop ?_
    refine (avoids_chunkAccount p a _).bind ?_
    rintro account cs₁ ⟨hcs₁, -⟩
    rw [hcs₁]
    split
    · exact Exec.avoids_fail id
    · refine (avoids_consumeCached p keys _).imp ?_
      rintro _ _ ⟨cache, rfl⟩
      exact ⟨cache, rfl⟩

theorem mem_chunkAccesses {a : B256} {prefixNibs : List UInt8} :
    .storageTrie a ∈ chunkAccesses post prefixNibs ↔
      .storageTrie a ∈ post ∧ inChunk prefixNibs a = true := by
  rw [chunkAccesses, List.mem_filter]

/-- Whatever else stops it, a chunk does not stop for its storage witnesses, but for a borrow if
one of them is a storage trie; and then it does not end. -/
theorem processChunk_served (hE : Mpt.Faithful C.toEnv)
    (h : Shipment C input state T looked accounts post) (hw : Wrote C input state write)
    {p : List Nibble} {header : StateChunkHeader} (hp : header.prefixNibs = p.map Nibble.toByte)
    (hcount : header.witnessCount = (chunkAccesses post header.prefixNibs).length)
    {items rest : List StreamItem}
    (hitems : writeAccesses write (chunkAccesses post header.prefixNibs) = .ok items)
    {block : List (B256 × BundleAccount)} {s : StreamingEthereumState} {chunk : Mpt}
    (hin : s.input = items ++ rest) (hmirrors : Mirrors C T p block chunk)
    (hblock : ∀ entry ∈ block, entry ∈ accounts ∧
      s.storageTries entry.1 = if entry.1 ∈ looked then state.storageTries entry.1 else none)
    (hnd : (block.map Prod.fst).Nodup) :
    Exec.Avoids (Stop.Unmet (∀ entry ∈ accounts, ¬ Sends C state looked entry.1 entry.2))
      (processChunk C header block) ⟨s, chunk, [], false⟩ fun _ cs' =>
        cs'.stream.input = rest ∧
        (∀ a, (∀ entry ∈ block, entry.1 ≠ a) →
          cs'.stream.storageTries a = s.storageTries a) ∧
        ∀ entry ∈ block, ¬ Sends C state looked entry.1 entry.2 := by
  unfold processChunk
  refine Exec.avoids_bind_of_ok (Exec.read_apply _ _) ?_
  refine (avoids_consumeCached _ _ _).bind ?_
  rintro _ _ ⟨cache, rfl⟩
  rw [hcount]
  refine (readChunkWitnesses_written hw hitems hin ?_ ?_ rfl rfl).bind ?_
  · intro access hmem
    rw [chunkAccesses, List.mem_filter] at hmem
    cases access with
    | account a => exact ⟨a, .inl rfl, hmem.2⟩
    | storageTrie a => exact ⟨a, .inr rfl, hmem.2⟩
    | _ => cases hmem.2
  · intro a ha hnone
    obtain ⟨entry, hentry, rfl, hsend⟩ := (h.sends a).mp (mem_chunkAccesses.mp ha).1
    exact hnone entry hentry hsend
  rintro _ cs₁ ⟨hr, hnone⟩
  split
  · exact Exec.avoids_fail id
  have hunsent : ∀ entry ∈ block, ¬ Sends C state looked entry.1 entry.2 := by
    intro entry hentry hsend
    have hinside : inChunk header.prefixNibs entry.1 = true := by
      obtain ⟨_, _, _, hget⟩ := hmirrors
      obtain ⟨key, hkey, -⟩ := hget entry hentry
      rw [hp, inChunk_iff]
      exact ⟨key, hkey.symm⟩
    exact hnone entry.1 (mem_chunkAccesses.mpr
      ⟨(h.sends entry.1).mpr ⟨entry, (hblock entry hentry).1, rfl, hsend⟩, hinside⟩)
  have hserving : Serving C T p rest s.storageTries [] block cs₁ :=
    ⟨hr.chunk ▸ hmirrors, hr.input, fun a _ => by rw [hr.storageTries], hr.post⟩
  have hrun : Exec.Avoids (Stop.Unmet (∀ entry ∈ accounts, ¬ Sends C state looked entry.1 entry.2))
      (updateChunkAccounts C header.prefixNibs block) cs₁ fun _ cs' =>
        Serving C T p rest s.storageTries block [] cs' := by
    rw [hp, ← List.nil_append block]
    exact Serving.run hE h
      (fun entry he => ⟨⟨(hblock entry he).1, hunsent entry he⟩, (hblock entry he).2⟩)
      (by rwa [List.nil_append]) hserving
  refine hrun.bind ?_
  intro _ cs₂ hs
  refine Exec.avoids_bind_of_ok (Exec.read_apply _ cs₂) ?_
  rw [if_neg (not_not.mpr hs.post)]
  refine (avoids_onChunk _ cs₂).bind ?_
  rintro newRoot _ ⟨-, rfl⟩
  split
  · refine (avoids_onChunk _ _).bind ?_
    rintro addressed _ ⟨-, rfl⟩
    split
    · exact Exec.avoids_fail id
    · exact Exec.avoids_pure ⟨hs.input, hs.untouched, hunsent⟩
  · exact Exec.avoids_pure ⟨hs.input, hs.untouched, hunsent⟩

/-! ## One turn -/

theorem avoids_withChunk {α : Type} {bad : Stop → Prop} {x : ChunkM α} {chunk : Mpt}
    {s : StreamingEthereumState} {Q : α → ChunkState → Prop}
    (h : Exec.Avoids bad x ⟨s, chunk, [], false⟩ Q) :
    Exec.Avoids bad (withChunk chunk x) s fun a s' => ∃ cs', Q a cs' ∧ s' = cs'.stream := by
  refine ⟨fun e s' hx => ?_, fun a s' hx => ?_⟩
  · obtain ⟨he, -⟩ := Prod.mk.inj hx
    exact h.1 e (x ⟨s, chunk, [], false⟩).2 (Prod.ext he rfl)
  · obtain ⟨ha, rfl⟩ := Prod.mk.inj hx
    exact ⟨_, h.2 a (x ⟨s, chunk, [], false⟩).2 (Prod.ext ha rfl), rfl⟩

theorem avoids_onStateTrie {α : Type} (x : TrieM α) (s : StreamingEthereumState) :
    Exec.Avoids (Stop.Unmet borrows) (onStateTrie x) s fun _ s' =>
      ∃ trie, s' = { s with stateTrie := trie } := by
  cases ht : s.stateTrie with
  | none =>
    have hrun : onStateTrie x s = (.error .panic, s) := by simp only [onStateTrie, ht]
    refine ⟨fun e s' hx => ?_, fun a s' hx => ?_⟩
    · rw [hrun, Prod.mk.injEq, Except.error.injEq] at hx
      exact hx.1 ▸ id
    · rw [hrun] at hx
      cases hx
  | some m =>
    have hrun : onStateTrie x s =
        ((x m).1.mapError Stop.ofHalt, { s with stateTrie := some (x m).2 }) := by
      simp only [onStateTrie, ht]
    refine ⟨fun e s' hx => ?_, fun a s' hx => ?_⟩
    · rw [hrun] at hx
      exact not_unmet_of_mapError (Prod.mk.inj hx).1
    · rw [hrun] at hx
      exact ⟨_, (Prod.mk.inj hx).2.symm⟩

/-- The chunk that was cut out of the state trie at its prefix. -/
structure CutFrom (C : ClientEnv) (T : Table) (p : List Nibble) (u : Trie)
    (chunk : Mpt.FrontierChunk) : Prop where
  prefixNibs : chunk.prefixNibs = p.map Nibble.toByte
  subtree : T.compress.subtree p = some u
  bytes : chunk.bytes = Mpt.encoding C.toEnv u

/-- What is decoded of the bytes of a chunk shows the accounts below its prefix. -/
theorem CutFrom.mirrors (hE : Mpt.Faithful C.toEnv) (hT : Mpt.Encodable C.toEnv T.compress)
    {p : List Nibble} {u : Trie} {chunk : Mpt.FrontierChunk} (h : CutFrom C T p u chunk)
    {m : Mpt} {root : B256}
    (hdec : decodeAndHash C chunk.bytes chunk.numNodes = .ok (m, root))
    {block : List (B256 × BundleAccount)}
    (hblock : ∀ entry ∈ block, inChunk chunk.prefixNibs entry.1 = true) :
    Mirrors C T p block m := by
  have hnormal := normal_subtree (Sparse.normal_compress T) h.subtree
  obtain ⟨t, ht⟩ := exists_compress u hnormal (sized_subtree (Sparse.sized_compress T)
    h.subtree).1
  obtain ⟨⟨rest, hm⟩, -⟩ := decodeAndHash_ok hE hdec
  obtain ⟨m', rest', hm', hrep⟩ := Mpt.decodeTrie_represents hE.inverse hE.consuming
    (Mpt.encodable_subtree hT h.subtree)
    ((em (u = null)).imp id (Mpt.solid_of_normal hnormal)) chunk.numNodes
  rw [h.bytes, hm'] at hm
  obtain ⟨rfl, -⟩ := Prod.mk.inj (Except.ok.inj hm)
  refine ⟨_, t, ht ▸ hrep, fun entry hentry => ?_⟩
  have hin := hblock entry hentry
  rw [h.prefixNibs, inChunk_iff] at hin
  obtain ⟨key, hkey⟩ := hin
  have hlen : key.length = 64 - p.length := by
    have := congrArg List.length hkey
    rw [List.length_append, Mpt.length_keyNibs_b256] at this
    omega
  refine ⟨key, hkey.symm, hlen, ?_⟩
  rw [← Sparse.get_compress t hlen, ht, ← get_subtree h.subtree, hkey,
    Sparse.get_compress T (Mpt.length_keyNibs_b256 entry.1)]

/-- The frontier is cut from the state trie. -/
theorem cutFrom_of_written {order : List WitnessAccess}
    (hm : Mpt.Tabulates C.toEnv state.stateTrie T) {frontier : Mpt.MptFrontier}
    (h : writtenFrontier C state order = .ok frontier) :
    ∀ chunk ∈ frontier.chunks, ∃ p u, CutFrom C T p u chunk := by
  obtain ⟨frontier', hf, h⟩ := Exec.of_except_bind_ok h
  obtain ⟨_, _, h⟩ := Exec.of_except_bind_ok h
  obtain ⟨⟨_, _⟩, _, h⟩ := Exec.of_except_bind_ok h
  have hf' := Exec.of_mapError_ok hf
  obtain rfl : frontier' = frontier := by
    simp only at h
    split at h
    · exact Except.ok.inj h
    · cases h
  by_cases hk : order.filterMap modifiedAccount = []
  · obtain ⟨m', hm'⟩ := Mpt.buildFrontierWeighted_nil hm frontierLimits
    rw [hk, hm'] at hf'
    obtain rfl := Except.ok.inj hf'
    exact fun chunk hc => absurd hc List.not_mem_nil
  · obtain ⟨qs, hcut, -, hchunks, -⟩ := Mpt.of_buildFrontierWeighted hm
      (Sparse.normal_compress T) hk hf'
    intro chunk hc
    obtain ⟨q, hq, hof⟩ := Mpt.exists_mark_of_mem hchunks hc
    obtain ⟨u, hu, -⟩ := hcut.marks q hq
    exact ⟨q.1, u, hof.prefixNibs, hu, by rw [hof.bytes, Mpt.site_eq hu]⟩

/-- What one turn of the loop over the chunks leaves of the stream and of the accounts. -/
structure Served (C : ClientEnv) (state : EthereumState) (looked : List B256)
    (rest : List StreamItem) (block : List (B256 × BundleAccount))
    (s s' : StreamingEthereumState) : Prop where
  input : s'.input = rest
  storageTries : ∀ a, (∀ entry ∈ block, entry.1 ≠ a) → s'.storageTries a = s.storageTries a
  unsent : ∀ entry ∈ block, ¬ Sends C state looked entry.1 entry.2

theorem updateChunk_served (hE : Mpt.Faithful C.toEnv)
    (hT : Mpt.Encodable C.toEnv T.compress)
    (h : Shipment C input state T looked accounts post) (hw : Wrote C input state write)
    {p : List Nibble} {u : Trie} {chunk : Mpt.FrontierChunk} (hcut : CutFrom C T p u chunk)
    {items rest : List StreamItem} (hitems : writeChunk write post chunk = .ok items)
    {todo : List (B256 × BundleAccount)} {s : StreamingEthereumState}
    (hin : s.input = items ++ rest)
    (htodo : ∀ entry ∈ todo, entry ∈ accounts ∧
      s.storageTries entry.1 = if entry.1 ∈ looked then state.storageTries entry.1 else none)
    (hnd : (todo.map Prod.fst).Nodup) :
    Exec.Avoids (Stop.Unmet (∀ entry ∈ accounts, ¬ Sends C state looked entry.1 entry.2))
      (updateChunk C todo) s fun left s' =>
        left = (todo.dropWhile fun a => inChunk chunk.prefixNibs a.1) ∧
        Served C state looked rest (todo.takeWhile fun a => inChunk chunk.prefixNibs a.1) s s' := by
  obtain ⟨witnesses, hwitnesses, hitems⟩ := Exec.of_except_bind_ok hitems
  obtain rfl := Except.ok.inj hitems
  unfold updateChunk
  refine Exec.avoids_bind_of_ok (readWitnessInput_cons hin) ?_
  refine Exec.avoids_bind_of_ok (readRawBytes_cons rfl) ?_
  refine (Exec.avoids_ofExcept (Q := fun decoded s' =>
    decodeAndHash C chunk.bytes chunk.numNodes = .ok decoded ∧
      s' = { s with input := witnesses ++ rest })
    (fun e he => not_unmet_of_mapError he)
    fun decoded hd => ⟨Exec.of_mapError_ok hd, rfl⟩).bind ?_
  rintro ⟨m, actual⟩ _ ⟨hdec, rfl⟩
  simp only
  split
  · exact Exec.avoids_fail id
  have hblock : ∀ entry ∈ todo.takeWhile fun a => inChunk chunk.prefixNibs a.1,
      entry ∈ todo ∧ inChunk chunk.prefixNibs entry.1 = true := fun entry he =>
    ⟨(List.takeWhile_prefix _).subset he, inChunk_of_mem_takeWhile he⟩
  have hmirrors := hcut.mirrors hE hT hdec fun entry he => (hblock entry he).2
  let header : StateChunkHeader := ⟨chunk.prefixNibs, chunk.expectedRoot, chunk.numNodes,
    (chunkAccesses post chunk.prefixNibs).length⟩
  have hprefix : header.prefixNibs = p.map Nibble.toByte := hcut.prefixNibs
  refine (avoids_withChunk (processChunk_served (s := { s with input := witnesses ++ rest }) hE h
    hw hprefix rfl hwitnesses rfl hmirrors
    (fun entry he => htodo entry (hblock entry he).1)
    (hnd.sublist ((List.takeWhile_sublist _).map _)))).bind ?_
  rintro newRoot s₁ ⟨cs, ⟨hinput, htries, hunsent⟩, rfl⟩
  have hdone : Served C state looked rest
      (todo.takeWhile fun a => inChunk chunk.prefixNibs a.1) s cs.stream :=
    ⟨hinput, htries, hunsent⟩
  refine (avoids_onStateTrie _ _).bind ?_
  rintro _ _ ⟨trie, rfl⟩
  exact Exec.avoids_pure ⟨rfl, hdone.input, hdone.storageTries, hdone.unsent⟩

/-! ## The run -/

/-- All chunks are read, and no storage trie was sent for an account that was consumed. -/
theorem updateChunks_served (hE : Mpt.Faithful C.toEnv)
    (hT : Mpt.Encodable C.toEnv T.compress)
    (h : Shipment C input state T looked accounts post) (hw : Wrote C input state write) :
    ∀ {chunks : List Mpt.FrontierChunk} {items : List StreamItem}
      {todo : List (B256 × BundleAccount)} {s : StreamingEthereumState},
    writeChunks write post chunks = .ok items → s.input = items →
    (∀ chunk ∈ chunks, ∃ p u, CutFrom C T p u chunk) →
    (∀ entry ∈ todo, entry ∈ accounts ∧
      s.storageTries entry.1 = if entry.1 ∈ looked then state.storageTries entry.1 else none) →
    (todo.map Prod.fst).Nodup →
    Exec.Avoids (Stop.Unmet (∀ entry ∈ accounts, ¬ Sends C state looked entry.1 entry.2))
      (updateChunks C chunks.length todo) s fun left s' =>
        s'.input = [] ∧
          (left = [] → ∀ entry ∈ todo, ¬ Sends C state looked entry.1 entry.2)
  | [], items, todo, s, hitems, hin, _, _, _ => by
    obtain rfl : [] = items := Except.ok.inj hitems
    refine Exec.avoids_pure ⟨hin, fun hleft entry hentry => ?_⟩
    rw [hleft] at hentry
    cases hentry
  | chunk :: chunks, items, todo, s, hitems, hin, hcut, htodo, hnd => by
    obtain ⟨l, hl, hitems⟩ := Exec.of_except_bind_ok hitems
    obtain ⟨l', hl', hitems⟩ := Exec.of_except_bind_ok hitems
    obtain rfl := Except.ok.inj hitems
    obtain ⟨p, u, hfrom⟩ := hcut chunk List.mem_cons_self
    rw [List.length_cons, updateChunks]
    refine (updateChunk_served hE hT h hw hfrom hl hin htodo hnd).bind ?_
    rintro _ s₁ ⟨rfl, hs₁⟩
    have hsplit := List.takeWhile_append_dropWhile
      (p := fun a : B256 × BundleAccount => inChunk chunk.prefixNibs a.1) (l := todo)
    rw [← hsplit, List.map_append, List.nodup_append] at hnd
    obtain ⟨-, hndleft, hdisj⟩ := hnd
    refine (updateChunks_served hE hT h hw hl' hs₁.input
      (fun c hc => hcut c (List.mem_cons_of_mem _ hc)) (fun entry he => ?_) hndleft).imp ?_
    · obtain ⟨hmem, htries⟩ := htodo entry ((List.dropWhile_suffix _).subset he)
      refine ⟨hmem, (hs₁.storageTries entry.1 fun other hother heq => ?_).trans htries⟩
      exact hdisj _ (List.mem_map_of_mem hother) _ (List.mem_map_of_mem he) heq
    · rintro left s₂ ⟨hin₂, hleft⟩
      refine ⟨hin₂, fun hnil entry hentry => ?_⟩
      rw [← hsplit] at hentry
      rcases List.mem_append.mp hentry with hentry | hentry
      · exact hs₁.unsent entry hentry
      · exact hleft hnil entry hentry

theorem avoids_ensureStateTrieLoaded {s : StreamingEthereumState} {bytes : Bytes}
    {rest : List StreamItem} (hs : s.stateTrie = none) (hin : s.input = .raw bytes :: rest) :
    Exec.Avoids (Stop.Unmet borrows) (ensureStateTrieLoaded C) s fun _ s' =>
      s'.input = rest ∧ s'.storageTries = s.storageTries ∧
        s'.stateTrieHeader = s.stateTrieHeader := by
  unfold ensureStateTrieLoaded
  refine Exec.avoids_bind_of_ok (Exec.read_apply _ s) ?_
  simp only [hs]
  refine Exec.avoids_bind_of_ok (readRawBytes_cons hin) ?_
  refine Exec.avoids_bind_of_ok (Exec.read_apply _ _) ?_
  refine (Exec.avoids_ofExcept (Q := fun _ s' => s' = { s with input := rest })
    (fun e he => not_unmet_of_mapError he) fun _ _ => rfl).bind ?_
  rintro ⟨m, actual⟩ _ rfl
  refine Exec.avoids_bind_of_ok (Exec.read_apply _ _) ?_
  split
  · exact Exec.avoids_fail id
  · exact Exec.avoids_write ⟨rfl, rfl, rfl⟩

theorem avoids_validateAccounts : ∀ (entries : List (B256 × Option TrieAccount))
    (s : StreamingEthereumState),
    Exec.Avoids (Stop.Unmet borrows) (validateAccounts C entries) s fun _ s' => s'.input = s.input
  | [], s => Exec.avoids_pure rfl
  | (a, streamed) :: entries, s => by
    rw [validateAccounts]
    refine (avoids_onStateTrie _ s).bind ?_
    rintro account _ ⟨trie, rfl⟩
    split
    · exact Exec.avoids_fail id
    · exact avoids_validateAccounts entries _

/-- The whole update, for a guest that has read what the host recorded of the execution. -/
theorem updateFromBundleState_served (hE : Mpt.Faithful C.toEnv)
    (hT : Mpt.Encodable C.toEnv T.compress) {bundle : Bundle}
    (h : Shipment C input state T looked (sortedAccounts C bundle) post)
    (hw : Wrote C input state write) {chunks : List Mpt.FrontierChunk} {items : List StreamItem}
    (hitems : writeChunks write post chunks = .ok items)
    (hcut : ∀ chunk ∈ chunks, ∃ p u, CutFrom C T p u chunk) {s : StreamingEthereumState}
    {bytes : Bytes} (hs : s.stateTrie = none) (hin : s.input = .raw bytes :: items)
    (hheader : s.stateTrieHeader.chunkCount = chunks.length)
    (htries : ∀ a, s.storageTries a = if a ∈ looked then state.storageTries a else none)
    (hnd : ((sortedAccounts C bundle).map Prod.fst).Nodup) :
    Exec.Avoids
      (Stop.Unmet (∀ entry ∈ sortedAccounts C bundle, ¬ Sends C state looked entry.1 entry.2))
      (updateFromBundleState C bundle) s fun _ s' =>
        s'.input = [] ∧
          ∀ entry ∈ sortedAccounts C bundle, ¬ Sends C state looked entry.1 entry.2 := by
  unfold updateFromBundleState
  refine (avoids_ensureStateTrieLoaded hs hin).bind ?_
  rintro _ s₁ ⟨hin₁, htries₁, hheader₁⟩
  refine Exec.avoids_bind_of_ok (Exec.read_apply _ s₁) ?_
  split
  · exact Exec.avoids_fail id
  rw [hheader₁, hheader]
  refine (updateChunks_served hE hT h hw hitems hin₁ hcut
    (fun entry hentry => ⟨hentry, by rw [htries₁, htries]⟩) hnd).bind ?_
  rintro left s₂ ⟨hin₂, hleft⟩
  split
  · exact Exec.avoids_fail id
  · rename_i hnil
    unfold validateAccountCache
    refine Exec.Avoids.bind (Exec.avoids_bind_of_ok (Exec.read_apply _ s₂)
      (avoids_validateAccounts _ s₂)) ?_
    intro _ s₃ hin₃
    exact Exec.avoids_write ⟨hin₃.trans hin₂, hleft (not_not.mp hnil)⟩

end Account

end Chunk

/-! ## The update and the recorder -/

section Update

variable {C : ClientEnv} {input : ClientExecutorInput} {state : EthereumState} {S : FullState}
  {parent : BlockHeader} {bundle : Bundle}

theorem mem_sortedAccounts {entry : B256 × BundleAccount} : entry ∈ sortedAccounts C bundle ↔
    ∃ account ∈ bundle, (C.keccak256 account.1.bytes, account.2) = entry := by
  rw [(Perm.sortedAccounts bundle).mem_iff, List.mem_map]

theorem encodable_stands {X : Trie} {t : Table} (hX : IsTrie 64 X)
    (hv : AllValues (fun v => v.length < 2 ^ 63) X) (h : Mpt.Stands C.toEnv t.compress X) :
    Mpt.Encodable C.toEnv t.compress := by
  rcases h with hview | hdigest
  · exact Mpt.View.encodable hview (Mpt.encodable_of_sized hX.sized (by decide)
      (Trie.Normal.noHole hX.normal) hv)
  · rw [hdigest]
    trivial

/-- The strings that are hashed when an input is accepted: nodes of the parent state and of the
input, and the addresses of the bundle. -/
inductive HashedBefore (C : ClientEnv) (S : FullState) (input : ClientExecutorInput)
    (bundle : Bundle) : Bytes → Prop
  | empty : HashedBefore C S input bundle [Rlp.emptyStringCode]
  | state {b : Bytes} (h : b ∈ Mpt.nodes C.toEnv S.state) : HashedBefore C S input bundle b
  | storage {b : Bytes} (a : B256) (h : b ∈ Mpt.nodes C.toEnv (S.storage a)) :
      HashedBefore C S input bundle b
  | stateInput {b : Bytes} (h : b ∈ Mpt.hashedNodes C.toEnv input.stateTrie.2) :
      HashedBefore C S input bundle b
  | storageInput {b : Bytes} {entry : B256 × Nat × Bytes} (he : entry ∈ input.storageTries)
      (h : b ∈ Mpt.hashedNodes C.toEnv entry.2.2) : HashedBefore C S input bundle b
  | address {entry : Address × BundleAccount} (h : entry ∈ bundle) :
      HashedBefore C S input bundle entry.1.bytes

/-- Nothing else is hashed eagerly for a bundle without accounts. -/
theorem hashedBefore_of_eagerly {stateTrie : Mpt} {b : Bytes}
    (h : EthereumState.HashedEagerly C S input [] ⟨stateTrie, fun _ => none⟩ b) :
    HashedBefore C S input bundle b := by
  cases h with
  | empty => exact .empty
  | state h => exact .state h
  | storage a h => exact .storage a h
  | stateInput h => exact .stateInput h
  | storageInput he h => exact .storageInput he h
  | address h => cases h
  | after he _ => cases he
  | written hm _ _ => cases hm

/-- A guest that got through the execution has read what the host recorded of it. -/
theorem inStep_of_guest {calls : List DbCall} {results results' : List DbResult}
    {r : Recording} {write : WitnessAccess → Except HostError (List StreamItem)}
    {header : StateTrieHeader} {root : B256} {executed rest : List StreamItem}
    {s : StreamingEthereumState} (hb : build C input = .ok state)
    (hw : Wrote C input state write)
    (hrun : Exec.collect (eagerCall C state input.bytecodes) calls .empty = (.ok results, r))
    (hexecuted : writeAccesses write r.witnessOrder = .ok executed)
    (hguest : Exec.collect (streamingCall C) calls (new header root (executed ++ rest)) =
      (.ok results', s)) : InStep C state r s ∧ s.input = rest := by
  rcases replays_or_derails hb hw (fun h hh => by simp [Recording.empty] at hh) hrun with
    ⟨δ, hδ, hreplay⟩ | ⟨δ, hδ, hderail⟩
  · obtain rfl : r.witnessOrder = δ := by simpa [Recording.empty] using hδ
    obtain ⟨s', hs', hin, hstep⟩ := hreplay executed hexecuted _ rest
      (inStep_empty state header root _) rfl
    rw [hguest, Prod.mk.injEq] at hs'
    exact hs'.2 ▸ ⟨hstep, hin⟩
  · obtain rfl : r.witnessOrder = δ := by simpa [Recording.empty] using hδ
    obtain ⟨e, s', hs'⟩ := hderail executed hexecuted _ rest
      (inStep_empty state header root _) rfl
    rw [hguest] at hs'
    cases hs'

/-- A block that the host executed, recorded and wrote, and that the guest executed on what was
written. -/
structure Handover (C : ClientEnv) (input : ClientExecutorInput) (S : FullState)
    (bundle : Bundle) where
  state : EthereumState
  parent : BlockHeader
  calls : List DbCall
  results : List DbResult
  guestResults : List DbResult
  executed : Recording
  recorded : Recording
  header : StateTrieHeader
  items : List StreamItem
  root : B256
  guest : StreamingEthereumState
  built : build C input = .ok state
  head : input.ancestorHeaders.head? = some parent
  sound : S.Sound C parent.stateRoot
  addresses : (bundle.map Prod.fst).Nodup
  injOn : Set.InjOn C.keccak256 {b | HashedBefore C S input bundle b}
  run : Exec.collect (eagerCall C state input.bytecodes) calls .empty = (.ok results, executed)
  record : recordUpdate C state bundle executed = (.ok (), recorded)
  write : writeCenoClientInput C input recorded.witnessOrder = .ok (header, items)
  replay : Exec.collect (streamingCall C) calls (new header root items) =
    (.ok guestResults, guest)

/-- The host has a storage trie for every account of the bundle that exists. -/
def Handover.Supplied (X : Handover C input S bundle) : Prop :=
  ∀ entry ∈ bundle, ∀ account,
    accountAt C X.state.stateTrie (C.keccak256 entry.1.bytes) = .ok (some account) →
    (X.state.storageTries (C.keccak256 entry.1.bytes)).isSome

/-- What the host writes after the execution serves the update of the guest, if it sends no storage
trie; and otherwise the update does not succeed. -/
theorem Handover.served (hE : Mpt.Faithful C.toEnv) (X : Handover C input S bundle)
    (hsupplied : X.Supplied) :
    Exec.Avoids
      (Stop.Unmet (∀ entry ∈ sortedAccounts C bundle,
        ¬ Sends C X.state X.executed.storageLookupOrder entry.1 entry.2))
      (updateFromBundleState C bundle) X.guest fun _ s' =>
        s'.input = [] ∧ ∀ entry ∈ sortedAccounts C bundle,
          ¬ Sends C X.state X.executed.storageLookupOrder entry.1 entry.2 := by
  have hbefore : Set.InjOn C.keccak256 {b | EthereumState.HashedEagerly C S input []
      ⟨X.state.stateTrie, fun _ => none⟩ b} := X.injOn.mono fun _ h => hashedBefore_of_eagerly h
  obtain ⟨T, hT, hstands, -⟩ := EthereumState.exists_tables hE X.built X.head X.sound hbefore
  have hhashes := nodup_hashes X.injOn X.addresses fun _ he => .address he
  obtain ⟨post, horder, hsends⟩ := recordUpdate_ok hhashes X.record
  have hno : .stateTrie ∉ X.executed.witnessOrder := by
    obtain ⟨-, -, δ, hδ, hnot⟩ := recorded_calls X.run
    obtain rfl : X.executed.witnessOrder = δ := by simpa [Recording.empty] using hδ
    exact hnot
  have hwrite := X.write
  rw [horder] at hwrite
  obtain ⟨frontier, accounts, executed, rest, hf, haccounts, hexecuted, hchunks, hheader, hitems⟩ :=
    of_writeCenoClientInput X.built hno hwrite
  have hw : Wrote C input X.state (writeAccess C input accounts frontier.bytes) :=
    wrote_writeAccess haccounts frontier.bytes
  have hreplay := X.replay
  rw [hitems] at hreplay
  obtain ⟨hstep, hinput⟩ := inStep_of_guest X.built hw X.run hexecuted hreplay
  obtain ⟨hnone, hheld, -⟩ := (held_streamingCalls X.calls).of_eq hreplay
  have hship : Shipment C input X.state T.state X.executed.storageLookupOrder
      (sortedAccounts C bundle) post := by
    refine ⟨X.built, hT.state, fun a => ?_, ?_, fun entry hentry account hacc => ?_⟩
    · rw [hsends]
      constructor
      · rintro ⟨entry, hentry, heq, hs⟩
        exact ⟨(C.keccak256 entry.1.bytes, entry.2), mem_sortedAccounts.mpr ⟨entry, hentry, rfl⟩,
          heq, hs⟩
      · rintro ⟨_, hentry, heq, hs⟩
        obtain ⟨entry, hmem, rfl⟩ := mem_sortedAccounts.mp hentry
        exact ⟨entry, hmem, heq, hs⟩
    · exact supplied_of_looked X.run fun a ha => by simp [Recording.empty] at ha
    · obtain ⟨entry, hmem, rfl⟩ := mem_sortedAccounts.mp hentry
      exact hsupplied entry hmem account hacc
  refine updateFromBundleState_served hE
    (encodable_stands X.sound.state X.sound.stateValues hstands) hship hw hchunks
    (cutFrom_of_written hT.state hf) hnone hinput (by rw [hheld, hheader]; rfl) (fun a => ?_) ?_
  · by_cases ha : a ∈ X.executed.storageLookupOrder
    · rw [if_pos ha, hstep.loaded a ha]
    · rw [if_neg ha, hstep.unloaded a ha]
  · rw [((Perm.sortedAccounts bundle).map Prod.fst).nodup_iff, List.map_map]
    exact hhashes

/-- The update of the guest never stops with a message about storage witnesses.  It panics at the
first one that the host sent for it, and it can only succeed if there is none. -/
theorem update_demand {calls : List DbCall} {results results' : List DbResult}
    {r r' : Recording} {header : StateTrieHeader} {items : List StreamItem}
    {root : B256} {s : StreamingEthereumState}
    (hE : Mpt.Faithful C.toEnv) (hb : build C input = .ok state)
    (hparent : input.ancestorHeaders.head? = some parent) (hS : S.Sound C parent.stateRoot)
    (haddr : (bundle.map Prod.fst).Nodup)
    (hinj : Set.InjOn C.keccak256 {b | HashedBefore C S input bundle b})
    (hsupplied : ∀ entry ∈ bundle, ∀ account,
      accountAt C state.stateTrie (C.keccak256 entry.1.bytes) = .ok (some account) →
      (state.storageTries (C.keccak256 entry.1.bytes)).isSome)
    (hrun : Exec.collect (eagerCall C state input.bytecodes) calls .empty = (.ok results, r))
    (hrecord : recordUpdate C state bundle r = (.ok (), r'))
    (hwrite : writeCenoClientInput C input r'.witnessOrder = .ok (header, items))
    (hguest : Exec.collect (streamingCall C) calls (new header root items) = (.ok results', s)) :
    ((∀ entry ∈ bundle,
        ¬ Sends C state r.storageLookupOrder (C.keccak256 entry.1.bytes) entry.2) →
      ∀ e s', updateFromBundleState C bundle s = (.error e, s') →
        ¬ e.ofDemand ∧ e ≠ .alreadyBorrowed) ∧
    ((updateFromBundleState C bundle s).1 = .ok () → ∀ entry ∈ bundle,
      ¬ Sends C state r.storageLookupOrder (C.keccak256 entry.1.bytes) entry.2) ∧
    ∀ e s', updateFromBundleState C bundle s = (.error e, s') → ¬ e.ofDemand := by
  have hserved := Handover.served hE ⟨state, parent, calls, results, results', r, r', header, items,
    root, s, hb, hparent, hS, haddr, hinj, hrun, hrecord, hwrite, hguest⟩ hsupplied
  have hmessages : ∀ e s', updateFromBundleState C bundle s = (.error e, s') → ¬ e.ofDemand :=
    fun e s' he hdemand => hserved.1 e s' he (Stop.unmet_of_ofDemand hdemand)
  refine ⟨fun hunsent e s' he => ⟨hmessages e s' he, ?_⟩, fun hok entry hentry => ?_, hmessages⟩
  · rintro rfl
    refine hserved.1 _ s' he fun entry hentry => ?_
    obtain ⟨account, hmem, rfl⟩ := mem_sortedAccounts.mp hentry
    exact hunsent account hmem
  · exact (hserved.2 () _ (Prod.ext hok rfl)).2 _ (mem_sortedAccounts.mpr ⟨entry, hentry, rfl⟩)

/-- A guest that gets through the update has read all that the host wrote. -/
theorem update_reads_all (hE : Mpt.Faithful C.toEnv) (X : Handover C input S bundle)
    (hsupplied : X.Supplied) {s' : StreamingEthereumState}
    (hok : updateFromBundleState C bundle X.guest = (.ok (), s')) : s'.input = [] :=
  ((X.served hE hsupplied).2 () s' hok).1

end Update

/-! ## One account with one slot -/

section Sample

open EthereumState (addressOne hashedOne noCode touchInput suppliedState build_supplied
  mem_touchStrings)

/-- The account with its storage trie and its code. -/
def codeInput : ClientExecutorInput :=
  { touchInput [(hashedOne, 2, slotLeaf 5)] with bytecodes := [⟨[]⟩] }

/-- The account is looked up, and its storage is not. -/
def basicReads : List DbCall := [.basic addressOne]

def basicResults : List DbResult := [.basic (some ⟨1, 7, noCode⟩)]

/-- The storage and the code are read as well. -/
def codeReads : List DbCall := [.basic addressOne, .storage addressOne 1, .codeByHash noCode]

def codeResults : List DbResult :=
  [.basic (some ⟨1, 7, noCode⟩), .storage 5, .codeByHash ⟨[]⟩]

section Run

variable (calls : List DbCall)

def executedFor : Recording :=
  (Exec.collect (eagerCall readEnv suppliedState codeInput.bytecodes) calls .empty).2

def recordedFor : Recording := (recordUpdate readEnv suppliedState readBundle (executedFor calls)).2

def frontierFor : Mpt.MptFrontier :=
  (writtenFrontier readEnv suppliedState (recordedFor calls).witnessOrder).toOption.getD
    ⟨0, [], []⟩

def streamFor : StateTrieHeader × List StreamItem :=
  (writeCenoClientInput readEnv codeInput (recordedFor calls).witnessOrder).toOption.getD
    (⟨0, 0, 0⟩, [])

/-- The guest after the execution. -/
def guestFor : StreamingEthereumState :=
  (Exec.collect (streamingCall readEnv) calls
    (new (streamFor calls).1 readRoot (streamFor calls).2)).2

end Run

/-- The host gets to the end, and the guest gets through the execution. -/
structure Prepared (calls : List DbCall) (results : List DbResult) : Prop where
  built : build readEnv codeInput = .ok suppliedState
  eager : (EthereumState.updateFromBundleState readEnv.toStateEnv readBundle suppliedState).1 =
    .ok ()
  supplied : ∀ entry ∈ readBundle,
    (suppliedState.storageTries (readEnv.keccak256 entry.1.bytes)).isSome
  run : Exec.collect (eagerCall readEnv suppliedState codeInput.bytecodes) calls .empty =
    (.ok results, executedFor calls)
  recorded : recordUpdate readEnv suppliedState readBundle (executedFor calls) =
    (.ok (), recordedFor calls)
  written : writeCenoClientInput readEnv codeInput (recordedFor calls).witnessOrder =
    .ok ((streamFor calls).1, (streamFor calls).2)
  frontier : writtenFrontier readEnv suppliedState (recordedFor calls).witnessOrder =
    .ok (frontierFor calls)
  one : ∀ entry ∈ readBundle, ((frontierFor calls).chunks.filter fun chunk =>
    inChunk chunk.prefixNibs (readEnv.keccak256 entry.1.bytes)).length = 1
  guest : Exec.collect (streamingCall readEnv) calls
    (new (streamFor calls).1 readRoot (streamFor calls).2) = (.ok results, guestFor calls)

theorem prepared_basic : Prepared basicReads basicResults where
  built := build_supplied
  eager := by decide +kernel
  supplied := by decide +kernel
  run := Exec.eq_of_fst (by decide +kernel)
  recorded := Exec.eq_of_fst (by decide +kernel)
  written := by
    rw [Prod.mk.eta]
    exact ok_getD (by decide +kernel)
  frontier := ok_getD (by decide +kernel)
  one := by decide +kernel
  guest := Exec.eq_of_fst (by decide +kernel)

theorem prepared_code : Prepared codeReads codeResults where
  built := build_supplied
  eager := prepared_basic.eager
  supplied := prepared_basic.supplied
  run := Exec.eq_of_fst (by decide +kernel)
  recorded := Exec.eq_of_fst (by decide +kernel)
  written := by
    rw [Prod.mk.eta]
    exact ok_getD (by decide +kernel)
  frontier := ok_getD (by decide +kernel)
  one := by decide +kernel
  guest := Exec.eq_of_fst (by decide +kernel)

/-- The storage of the account is written and was not read, so its storage trie is sent. -/
theorem update_borrows_twice :
    readState.Sound readEnv readRoot ∧ Prepared basicReads basicResults ∧
    .storageTrie hashedOne ∈ (recordedFor basicReads).witnessOrder ∧
    (updateFromBundleState readEnv readBundle (guestFor basicReads)).1 = .error .alreadyBorrowed :=
  ⟨sound_readState, prepared_basic, by decide +kernel, by decide +kernel⟩

theorem mem_touchStrings_of_before {b : Bytes}
    (h : HashedBefore readEnv readState codeInput readBundle b) :
    b ∈ EthereumState.touchStrings := by
  cases h with
  | empty => exact mem_touchStrings .empty
  | state h => exact mem_touchStrings (.state h)
  | storage a h => exact mem_touchStrings (.storage a h)
  | stateInput h => exact mem_touchStrings (.stateInput h)
  | storageInput he h => exact mem_touchStrings (.storageInput he h)
  | address h =>
    simp only [readBundle, List.mem_singleton] at h
    rw [h]
    decide

theorem injOn_before :
    Set.InjOn readEnv.keccak256 {b | HashedBefore readEnv readState codeInput readBundle b} := by
  have hno : Mpt.NoCollision readEnv.toEnv EthereumState.touchStrings := by decide
  exact fun x hx y hy => hno x (mem_touchStrings_of_before hx) y (mem_touchStrings_of_before hy)

theorem nodup_readBundle : (readBundle.map Prod.fst).Nodup := List.nodup_singleton _

/-- The storage was read, so the guest has the storage trie before the update. -/
theorem update_demand_sample :
    (∀ entry ∈ readBundle, ¬ Sends readEnv suppliedState (executedFor codeReads).storageLookupOrder
      (readEnv.keccak256 entry.1.bytes) entry.2) ∧
    (updateFromBundleState readEnv readBundle (guestFor codeReads)).1 = .ok () := by
  have h := prepared_code
  have hok : (updateFromBundleState readEnv readBundle (guestFor codeReads)).1 = .ok () := by
    decide +kernel
  refine ⟨?_, hok⟩
  exact (update_demand faithful_readEnv h.built
    (show codeInput.ancestorHeaders.head? = some ⟨readRoot⟩ from rfl) sound_readState
    nodup_readBundle injOn_before (fun entry he _ _ => h.supplied entry he) h.run h.recorded
    h.written h.guest).2.1 hok

/-- The block with both sides of it. -/
def codeHandover : Handover readEnv codeInput readState readBundle where
  state := suppliedState
  parent := ⟨readRoot⟩
  calls := codeReads
  results := codeResults
  guestResults := codeResults
  executed := executedFor codeReads
  recorded := recordedFor codeReads
  header := (streamFor codeReads).1
  items := (streamFor codeReads).2
  root := readRoot
  guest := guestFor codeReads
  built := prepared_code.built
  head := rfl
  sound := sound_readState
  addresses := nodup_readBundle
  injOn := injOn_before
  run := prepared_code.run
  record := prepared_code.recorded
  write := prepared_code.written
  replay := prepared_code.guest

theorem supplied_code : codeHandover.Supplied := fun entry he _ _ =>
  prepared_code.supplied entry he

theorem update_reads_all_sample :
    (updateFromBundleState readEnv readBundle codeHandover.guest).1 = .ok () ∧
    (updateFromBundleState readEnv readBundle codeHandover.guest).2.input = [] := by
  have hok : (updateFromBundleState readEnv readBundle codeHandover.guest).1 = .ok () := by
    decide +kernel
  exact ⟨hok, update_reads_all faithful_readEnv codeHandover supplied_code (Exec.eq_of_fst hok)⟩

end Sample

end CenoReth
