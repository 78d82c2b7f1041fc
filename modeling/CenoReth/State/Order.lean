/-
The order of a bundle does not matter.

The tries of a state may have digests anywhere.  Each of them is the compressed
form of a sparse trie, and an update is a write at one position of it.  A turn
of the loop therefore writes one position of the state trie and one of the map
of storage tries, and it fails when a position is opaque.  Turns for different
hashed addresses commute, and so do writes to different slots.
-/
import CenoReth.Patricia.Commute
import CenoReth.State.Values

namespace CenoReth

open Patricia

/-- A trie over keys of 32 bytes, uncompressed. -/
abbrev Table := Sparse 16 Bytes B256 64

/-! ## Computations that follow a pure function -/

/-- The computation ended as the pure result says: with a value and a state that `R` relates to
it, or with an error or a panic. -/
def Tracks {σ τ α : Type} (R : α → σ → τ → Prop) (r : Except Halt α × σ) (o : Option τ) : Prop :=
  match o with
  | some t => ∃ a s, r = (.ok a, s) ∧ R a s t
  | none => ∃ e s, r = (.error e, s) ∧ e ≠ .stackOverflow

section Tracks

variable {σ τ τ' α β : Type} {R : α → σ → τ → Prop} {Q : β → σ → τ' → Prop}

theorem Tracks.bind {x : Exec Halt σ α} {f : α → Exec Halt σ β} {s : σ} {o : Option τ}
    {g : τ → Option τ'} (h : Tracks R (x s) o)
    (hf : ∀ a s' t, R a s' t → Tracks Q (f a s') (g t)) : Tracks Q ((x >>= f) s) (o.bind g) := by
  cases o with
  | none =>
    obtain ⟨e, s', hx, he⟩ := h
    exact ⟨e, s', Exec.bind_error hx, he⟩
  | some t =>
    obtain ⟨a, s', hx, hr⟩ := h
    rw [Exec.bind_ok hx]
    exact hf a s' t hr

/-- A second part that never fails. -/
theorem Tracks.bind_ok {x : Exec Halt σ α} {f : α → Exec Halt σ β} {s : σ} {o : Option τ}
    {g : τ → τ'} (h : Tracks R (x s) o)
    (hf : ∀ a s' t, R a s' t → ∃ b s'', f a s' = (.ok b, s'') ∧ Q b s'' (g t)) :
    Tracks Q ((x >>= f) s) (o.map g) := by
  rw [Option.map_eq_bind]
  exact h.bind hf

/-- The value is dropped. -/
theorem Tracks.drop {P : σ → τ → Prop} {x : Exec Halt σ α} {s : σ} {o : Option τ}
    (h : Tracks (fun _ => P) (x s) o) : Tracks (fun _ => P) ((do let _ ← x : Exec Halt σ Unit) s) o := by
  have hx := h.bind_ok (f := fun _ => pure ()) (g := id) (Q := fun _ => P)
    fun _ s t hr => ⟨(), s, rfl, hr⟩
  rwa [Option.map_id] at hx

end Tracks

/-! ## Writes to a trie -/

namespace Mpt

variable {E : Env}

/-- The arena holds the table. -/
abbrev Tabulates (E : Env) (m : Mpt) (s : Table) : Prop := Represents E m s.compress

theorem unresolved_of_get : {n : Nat} → {s : Sparse 16 Bytes B256 n} → {key : List Nibble} →
    {f : Fault B256} → s.get key = .error f → ∃ d, f = .unresolved d
  | _, .digest d, _, f, h => ⟨d, (Except.error.inj h).symm⟩
  | _, .value _, _, _, h => by simp [Sparse.get] at h
  | _, .node _, [], _, h => by simp [Sparse.get] at h
  | _, .node c, i :: key, f, h => @unresolved_of_get _ (c i) key f h

theorem length_keyNibs_b256 (key : B256) : (Hp.keyNibs key.bytes).length = 64 := by
  rw [Hp.length_keyNibs, key.length_bytes]

theorem insert_tracks {m : Mpt} {s : Table} (h : Tabulates E m s) (key : B256) (v : Bytes) :
    Tracks (fun _ => Tabulates E) (insert key.bytes v m) (s.write (Hp.keyNibs key.bytes) (some v)) := by
  have hins := Sparse.insert_compress s (length_keyNibs_b256 key) v
  unfold Sparse.write
  cases hg : s.get (Hp.keyNibs key.bytes) with
  | error f =>
    obtain ⟨d, rfl⟩ := unresolved_of_get hg
    have hm := insertNibbles_error h (hins.trans (by rw [hg]; rfl)) (by simp)
    rw [Hp.map_toByte_keyNibs] at hm
    exact ⟨_, m, hm, by simp [halt]⟩
  | ok o =>
    obtain ⟨m', hm, hr⟩ := insertNibbles_spec h (hins.trans (by rw [hg]; rfl))
    rw [Hp.map_toByte_keyNibs] at hm
    exact ⟨_, m', hm, hr⟩

theorem delete_tracks {m : Mpt} {s : Table} (h : Tabulates E m s) (key : B256) :
    Tracks (fun _ => Tabulates E) (delete key.bytes m) (s.write (Hp.keyNibs key.bytes) none) := by
  have hdel := Sparse.delete_compress s (length_keyNibs_b256 key)
  unfold Sparse.write
  cases hg : s.get (Hp.keyNibs key.bytes) with
  | error f =>
    obtain ⟨d, rfl⟩ := unresolved_of_get hg
    have hm := deleteNibbles_error h (hdel.trans (by rw [hg]; rfl)) (by simp)
    rw [Hp.map_toByte_keyNibs] at hm
    exact ⟨_, m, hm, by simp [halt]⟩
  | ok o =>
    obtain ⟨m', hm, hr⟩ := deleteNibbles_spec h (hdel.trans (by rw [hg]; rfl))
    rw [Hp.map_toByte_keyNibs] at hm
    exact ⟨_, m', hm, hr⟩

theorem hash_tabulates {m : Mpt} {t : Table} (h : Tabulates E m t) :
    (hash E m).1 = .ok (Trie.hash E t.compress) := by
  obtain ⟨m', hm', _⟩ := hash_represents h
  rw [hm']

theorem get_tabulates {m : Mpt} {t : Table} (h : Tabulates E m t) {key : B256} {o : Option Bytes}
    (hg : t.get (Hp.keyNibs key.bytes) = .ok o) : get key.bytes m = (.ok o, m) := by
  have hget := getNibbles_spec h (Hp.keyNibs key.bytes)
  rw [Sparse.get_compress t (length_keyNibs_b256 key), hg, Hp.map_toByte_keyNibs] at hget
  exact hget

end Mpt

namespace EthereumState

open Mpt

variable (C : StateEnv)

/-- The table without entries. -/
def emptyTable : Table := Sparse.ofMap 64 fun _ => none

theorem compress_emptyTable : emptyTable.compress = .null :=
  (canonical_eq_null 64).mpr fun _ _ => rfl

theorem tabulates_new (E : Env) : Tabulates E new emptyTable := by
  unfold Tabulates
  rw [compress_emptyTable]
  exact represents_new

-- unfolding the table visits all of its depth
attribute [irreducible] emptyTable

/-- The write that a slot stands for. -/
def slotWrite (entry : U256 × U256) : List Nibble × Option Bytes :=
  (Hp.keyNibs (C.keccak256 entry.1.toBeBytes).bytes,
    if entry.2 = 0 then none else some (C.encodeU256 entry.2))

theorem updateStorage_tracks : ∀ (storage : List (U256 × U256)) {m : Mpt} {s : Table},
    Tabulates C.toEnv m s →
    Tracks (fun _ => Tabulates C.toEnv) (updateStorage C storage m)
      (s.writeAll (storage.map (slotWrite C)))
  | [], m, s, h => ⟨(), m, rfl, h⟩
  | (slot, presentValue) :: storage, m, s, h => by
    rw [List.map_cons, slotWrite, Sparse.writeAll_cons, updateStorage]
    by_cases hv : presentValue = 0
    · simp only [hv, if_true]
      exact (delete_tracks h _).bind fun _ _ _ hr => updateStorage_tracks storage hr
    · simp only [hv, if_false]
      exact (insert_tracks h _ _).bind fun _ _ _ hr => updateStorage_tracks storage hr

theorem updateStorageTrie_tracks (storage : List (U256 × U256)) {m : Mpt} {s : Table}
    (h : Tabulates C.toEnv m s) :
    Tracks (fun root m t => root = Trie.hash C.toEnv t.compress ∧ Tabulates C.toEnv m t)
      (updateStorageTrie C storage m) (s.writeAll (storage.map (slotWrite C))) := by
  have hx := (updateStorage_tracks C storage h).bind_ok (f := fun _ => Mpt.hash C.toEnv) (g := id)
    (Q := fun root m t => root = Trie.hash C.toEnv t.compress ∧ Tabulates C.toEnv m t)
    fun _ m' t hr => by
      obtain ⟨m'', hm, hr'⟩ := hash_represents hr
      exact ⟨_, m'', hm, rfl, hr'⟩
  rwa [Option.map_id] at hx

/-! ## Turns of the loop -/

/-- The tables of a state. -/
structure Tables where
  state : Table
  storage : B256 → Option Table

/-- The tries of the state hold the tables. -/
structure Holds (E : Env) (s : EthereumState) (T : Tables) : Prop where
  state : Tabulates E s.stateTrie T.state
  storage : ∀ a, Option.Rel (Tabulates E) (s.storageTries a) (T.storage a)

/-- The record that is written for an account with the given storage. -/
def accountOf (info : AccountInfo) (storage : Table) : TrieAccount where
  nonce := info.nonce
  balance := info.balance
  storageRoot := Trie.hash C.toEnv storage.compress
  codeHash := info.codeHash

/-- The storage that the updates of an account start from. -/
def parentTable (T : Tables) (a : B256) (account : BundleAccount) : Table :=
  if account.wasDestroyed then emptyTable else (T.storage a).getD emptyTable

/-- One turn of the loop on tables. -/
def Tables.update (T : Tables) (a : B256) (account : BundleAccount) : Option Tables :=
  match account.info with
  | some info =>
    ((parentTable T a account).writeAll (account.storage.map (slotWrite C))).bind fun s =>
      (T.state.write (Hp.keyNibs a.bytes) (some (C.encodeAccount (accountOf C info s)))).map
        fun t => ⟨t, Function.update T.storage a (some s)⟩
  | none =>
    (T.state.write (Hp.keyNibs a.bytes) none).map
      fun t => ⟨t, Function.update T.storage a none⟩

variable {C}

theorem Holds.update_storage {E : Env} {s : EthereumState} {T : Tables} (h : Holds E s T) (a : B256)
    {o : Option Mpt} {o' : Option Table} (ho : Option.Rel (Tabulates E) o o') :
    Holds E { s with storageTries := Function.update s.storageTries a o }
      { T with storage := Function.update T.storage a o' } := by
  refine ⟨h.state, fun b => ?_⟩
  by_cases hb : b = a
  · subst hb
    simpa using ho
  · simpa [Function.update_of_ne hb] using h.storage b

theorem unwrap_tracks {α τ : Type} {R : α → Mpt → τ → Prop} {x : TrieM α} {m : Mpt} {o : Option τ}
    (h : Tracks R (x m) o) : Tracks R (unwrap x m) o := by
  unfold unwrap
  cases o with
  | none =>
    obtain ⟨e, m', hx, he⟩ := h
    rw [hx]
    cases e with
    | err e => exact ⟨.panic, m', rfl, by simp⟩
    | panic => exact ⟨.panic, m', rfl, by simp⟩
    | stackOverflow => exact absurd rfl he
  | some t =>
    obtain ⟨a, m', hx, hr⟩ := h
    rw [hx]
    exact ⟨a, m', rfl, hr⟩

/-- A write to the state trie. -/
theorem onStateTrie_tracks {α : Type} {E : Env} {s : EthereumState} {T : Tables} (h : Holds E s T)
    {x : TrieM α} {o : Option Table} (hx : Tracks (fun _ => Tabulates E) (x s.stateTrie) o) :
    Tracks (fun _ => Holds E) (onStateTrie x s) (o.map fun t => { T with state := t }) := by
  cases o with
  | none =>
    obtain ⟨e, m', hm, he⟩ := hx
    exact ⟨e, _, onStateTrie_apply hm, he⟩
  | some t =>
    obtain ⟨a, m', hm, hr⟩ := hx
    exact ⟨a, _, onStateTrie_apply hm, hr, h.storage⟩

/-- An update of a storage trie that is there. -/
theorem onStorageTrie_tracks {α : Type} {E : Env} {s : EthereumState} {T : Tables}
    {P : α → Table → Prop} (h : Holds E s T) {a : B256} {m : Mpt} (ha : s.storageTries a = some m)
    {x : TrieM α} {o : Option Table}
    (hx : Tracks (fun v m t => P v t ∧ Tabulates E m t) (x m) o) :
    Tracks (fun v s' t => P v t ∧
        Holds E s' { T with storage := Function.update T.storage a (some t) })
      (onStorageTrie a x s) o := by
  cases o with
  | none =>
    obtain ⟨e, m', hm, he⟩ := hx
    exact ⟨e, _, onStorageTrie_apply ha hm, he⟩
  | some t =>
    obtain ⟨v, m', hm, hp, hr⟩ := hx
    exact ⟨v, _, onStorageTrie_apply ha hm, hp, h.update_storage a (.some hr)⟩

/-- The entry of an account, after `or_insert`. -/
theorem orInsert_ok {E : Env} {s : EthereumState} {T : Tables} (h : Holds E s T) (a : B256) :
    ∃ m, orInsert a s =
        (.ok (), { s with storageTries := Function.update s.storageTries a (some m) }) ∧
      Tabulates E m ((T.storage a).getD emptyTable) := by
  have hrel := h.storage a
  unfold orInsert
  rw [Exec.bind_ok (Exec.read_apply _ s)]
  generalize T.storage a = o at hrel ⊢
  rcases hs : s.storageTries a with _ | m
  · rw [hs] at hrel
    cases hrel
    exact ⟨Mpt.new, rfl, tabulates_new E⟩
  · rw [hs] at hrel
    cases hrel with
    | some hr =>
      refine ⟨m, ?_, hr⟩
      rw [Function.update_eq_self_iff.mpr hs.symm]
      rfl

/-- The storage trie that the updates of an account start from. -/
theorem openStorageTrie_ok {E : Env} {s : EthereumState} {T : Tables} (h : Holds E s T) (a : B256)
    (account : BundleAccount) :
    ∃ m, openStorageTrie a account s =
        (.ok (), { s with storageTries := Function.update s.storageTries a (some m) }) ∧
      Tabulates E m (parentTable T a account) := by
  obtain ⟨m, hm, hr⟩ := orInsert_ok h a
  unfold openStorageTrie
  rw [Exec.bind_ok hm]
  unfold parentTable
  cases account.wasDestroyed with
  | false => exact ⟨m, rfl, hr⟩
  | true =>
    refine ⟨Mpt.new, ?_, tabulates_new E⟩
    simp [setStorageTrie, Function.update_idem]

/-- One turn of the loop. -/
theorem updateAccount_tracks {s : EthereumState} {T : Tables} (h : Holds C.toEnv s T) (a : B256)
    (account : BundleAccount) :
    Tracks (fun _ => Holds C.toEnv) (updateAccount C a account s) (T.update C a account) := by
  unfold updateAccount Tables.update
  cases hi : account.info with
  | none =>
    have hdel := unwrap_tracks (delete_tracks h.state a).drop
    have hrem := (onStateTrie_tracks h hdel).bind_ok (Q := fun _ => Holds C.toEnv)
      (f := fun _ => setStorageTrie a none)
      (g := fun T => { T with storage := Function.update T.storage a none })
      fun _ s' T' hr => ⟨(), _, rfl, hr.update_storage a .none⟩
    rw [Option.map_map] at hrem
    exact hrem
  | some info =>
    obtain ⟨m, hm, ht⟩ := openStorageTrie_ok h a account
    have h₁ : Holds C.toEnv { s with storageTries := Function.update s.storageTries a (some m) }
        { T with storage := Function.update T.storage a (some (parentTable T a account)) } :=
      h.update_storage a (.some ht)
    simp only
    rw [Exec.bind_ok hm]
    have hroot := onStorageTrie_tracks h₁ (Function.update_self ..)
      (updateStorageTrie_tracks C account.storage ht)
    refine hroot.bind fun root s' t hr => ?_
    obtain ⟨rfl, h₂⟩ := hr
    have hins := onStateTrie_tracks h₂ (insert_tracks h₂.state a (C.encodeAccount
      (accountOf C info t))).drop
    simp only [Function.update_idem] at hins
    exact hins

variable (C) in
/-- All turns of the loop on tables. -/
def Tables.updateAll (T : Tables) (bundle : Bundle) : Option Tables :=
  bundle.foldl (fun T entry => T.bind fun T => T.update C (C.keccak256 entry.1.bytes) entry.2)
    (some T)

theorem Tables.updateAll_cons (T : Tables) (entry : Address × BundleAccount) (bundle : Bundle) :
    T.updateAll C (entry :: bundle) =
      (T.update C (C.keccak256 entry.1.bytes) entry.2).bind fun T => T.updateAll C bundle := by
  unfold Tables.updateAll
  rw [List.foldl_cons, Option.bind_some]
  cases T.update C (C.keccak256 entry.1.bytes) entry.2 with
  | none =>
    exact Sparse.foldl_bind_none
      (fun T entry => Tables.update C T (C.keccak256 entry.1.bytes) entry.2) bundle
  | some T => rfl

theorem updateFromBundleState_tracks : ∀ (bundle : Bundle) {s : EthereumState} {T : Tables},
    Holds C.toEnv s T →
    Tracks (fun _ => Holds C.toEnv) (updateFromBundleState C bundle s) (T.updateAll C bundle)
  | [], s, T, h => ⟨(), s, rfl, h⟩
  | (address, account) :: bundle, s, T, h => by
    rw [Tables.updateAll_cons]
    exact (updateAccount_tracks h (C.keccak256 address.bytes) account).bind
      fun _ s' T' hr => updateFromBundleState_tracks bundle hr

/-! ## Turns commute -/

variable (C) in
/-- What a turn writes to the table of a storage trie, or that it removes the trie. -/
def Tables.storageAfter (T : Tables) (a : B256) (account : BundleAccount) : Option (Option Table) :=
  match account.info with
  | some _ =>
    ((parentTable T a account).writeAll (account.storage.map (slotWrite C))).map some
  | none => some none

variable (C) in
/-- What a turn writes to the state trie, given what it left of the storage. -/
def record (account : BundleAccount) (storage : Option Table) : Option Bytes :=
  match account.info, storage with
  | some info, some t => some (C.encodeAccount (accountOf C info t))
  | _, _ => none

/-- A turn writes the entry of the storage map and one position of the state trie. -/
theorem Tables.update_eq (T : Tables) (a : B256) (account : BundleAccount) :
    T.update C a account = (T.storageAfter C a account).bind fun o =>
      (T.state.write (Hp.keyNibs a.bytes) (record C account o)).map fun t =>
        ⟨t, Function.update T.storage a o⟩ := by
  unfold Tables.update Tables.storageAfter record
  cases account.info with
  | none => rfl
  | some info =>
    simp only
    cases (parentTable T a account).writeAll (account.storage.map (slotWrite C)) <;> rfl

/-- A turn for another address does not change what a turn reads of the storage. -/
theorem Tables.storageAfter_congr {T T' : Tables} {a : B256} (h : T'.storage a = T.storage a)
    (account : BundleAccount) : T'.storageAfter C a account = T.storageAfter C a account := by
  unfold Tables.storageAfter parentTable
  rw [h]

/-- Two turns for different addresses. -/
theorem Tables.update_bind (T : Tables) {a b : B256} (hab : a ≠ b) (x y : BundleAccount) :
    (T.update C a x).bind (fun T => T.update C b y) =
      (T.storageAfter C a x).bind fun o => (T.storageAfter C b y).bind fun o' =>
        ((T.state.write (Hp.keyNibs a.bytes) (record C x o)).bind fun t =>
          t.write (Hp.keyNibs b.bytes) (record C y o')).map fun t =>
            ⟨t, Function.update (Function.update T.storage a o) b o'⟩ := by
  rw [T.update_eq a x]
  cases T.storageAfter C a x with
  | none => rfl
  | some o =>
    rw [Option.bind_some, Option.bind_some]
    cases T.state.write (Hp.keyNibs a.bytes) (record C x o) with
    | none => cases T.storageAfter C b y <;> rfl
    | some t =>
      -- what the first turn wrote is not read by the second
      have hread : Tables.storageAfter C ⟨t, Function.update T.storage a o⟩ b y =
          T.storageAfter C b y :=
        storageAfter_congr (Function.update_of_ne (Ne.symm hab) _ _) y
      rw [Option.map_some, Option.bind_some, Tables.update_eq, hread]
      rfl

theorem Tables.update_comm (T : Tables) {a b : B256} (hab : a ≠ b) (x y : BundleAccount) :
    (T.update C a x).bind (fun T => T.update C b y) =
      (T.update C b y).bind fun T => T.update C a x := by
  have hkey : Hp.keyNibs a.bytes ≠ Hp.keyNibs b.bytes :=
    fun h => hab (B256.ext (Hp.keyNibs_injective h))
  rw [T.update_bind hab, T.update_bind (Ne.symm hab)]
  cases T.storageAfter C a x with
  | none => cases T.storageAfter C b y <;> rfl
  | some o =>
    cases T.storageAfter C b y with
    | none => rfl
    | some o' =>
      simp only [Option.bind_some]
      rw [Sparse.write_comm T.state (length_keyNibs_b256 a) (length_keyNibs_b256 b) hkey,
        Function.update_comm hab]

/-! ## Orders of iteration -/

/-- The same account with its slots in another order. -/
structure SameAccount (x y : Address × BundleAccount) : Prop where
  address : y.1 = x.1
  info : y.2.info = x.2.info
  wasDestroyed : y.2.wasDestroyed = x.2.wasDestroyed
  storage : y.2.storage.Perm x.2.storage

/-- The same bundle, with the accounts and the slots of each account in another order. -/
def Reordered (bundle bundle' : Bundle) : Prop :=
  ∃ mid, bundle.Perm mid ∧ List.Forall₂ SameAccount mid bundle'

variable (C) in
/-- No two accounts, and no two slots of an account, share a hashed key. -/
structure Distinct (bundle : Bundle) : Prop where
  addresses : (bundle.map fun entry => C.keccak256 entry.1.bytes).Nodup
  slots : ∀ entry ∈ bundle, (entry.2.storage.map fun slot => C.keccak256 slot.1.toBeBytes).Nodup

/-- The order of the slots of an account does not matter. -/
theorem Tables.update_sameAccount (T : Tables) {x y : Address × BundleAccount}
    (h : SameAccount x y)
    (hnd : (x.2.storage.map fun slot => C.keccak256 slot.1.toBeBytes).Nodup) :
    T.update C (C.keccak256 y.1.bytes) y.2 = T.update C (C.keccak256 x.1.bytes) x.2 := by
  obtain ⟨haddr, hinfo, hdes, hstorage⟩ := h
  have hwrites : ∀ t : Table, t.writeAll (y.2.storage.map (slotWrite C)) =
      t.writeAll (x.2.storage.map (slotWrite C)) := by
    intro t
    refine (Sparse.writeAll_perm t (hstorage.symm.map _) ?_ ?_).symm
    · intro op hop
      obtain ⟨entry, _, rfl⟩ := List.mem_map.mp hop
      exact length_keyNibs_b256 _
    · rw [List.map_map]
      have hinj : Function.Injective fun d : B256 => Hp.keyNibs d.bytes :=
        fun d d' he => B256.ext (Hp.keyNibs_injective he)
      have := hnd.map hinj
      rwa [List.map_map] at this
  unfold Tables.update parentTable
  rw [haddr, hinfo, hdes]
  cases x.2.info with
  | none => rfl
  | some info => rw [hwrites]

theorem foldl_sameAccount {mid bundle : Bundle} (h : List.Forall₂ SameAccount mid bundle)
    (hnd : ∀ entry ∈ mid, (entry.2.storage.map fun slot => C.keccak256 slot.1.toBeBytes).Nodup)
    (o : Option Tables) :
    bundle.foldl (fun T entry => T.bind fun T => T.update C (C.keccak256 entry.1.bytes) entry.2) o =
      mid.foldl (fun T entry => T.bind fun T => T.update C (C.keccak256 entry.1.bytes) entry.2) o := by
  induction h generalizing o with
  | nil => rfl
  | @cons x y mid bundle hxy _ ih =>
    rw [List.foldl_cons, List.foldl_cons]
    have hstep : (o.bind fun T => T.update C (C.keccak256 y.1.bytes) y.2) =
        o.bind fun T => T.update C (C.keccak256 x.1.bytes) x.2 := by
      cases o with
      | none => rfl
      | some T => exact T.update_sameAccount hxy (hnd x (by simp))
    rw [hstep]
    exact ih (fun entry he => hnd entry (by simp [he])) _

/-- The result on tables does not depend on the order. -/
theorem Tables.updateAll_reordered (T : Tables) {bundle bundle' : Bundle}
    (hd : Distinct C bundle) (h : Reordered bundle bundle') :
    T.updateAll C bundle' = T.updateAll C bundle := by
  obtain ⟨mid, hperm, hsame⟩ := h
  have hmid : ∀ entry ∈ mid,
      (entry.2.storage.map fun slot => C.keccak256 slot.1.toBeBytes).Nodup :=
    fun entry he => hd.slots entry (hperm.mem_iff.mpr he)
  unfold Tables.updateAll
  rw [foldl_sameAccount hsame hmid]
  refine (hperm.foldl_eq' (fun x hx y hy z => ?_) _).symm
  by_cases hxy : x = y
  · rw [hxy]
  · have haddr : C.keccak256 x.1.bytes ≠ C.keccak256 y.1.bytes :=
      fun he => hxy (List.inj_on_of_nodup_map hd.addresses hx hy he)
    cases z with
    | none => rfl
    | some T => exact T.update_comm haddr x.2 y.2

/-! ## States with digests -/

/-- The tries of the state are canonical up to digests. -/
structure Canonical (E : Env) (s : EthereumState) : Prop where
  state : ∃ t, Represents E s.stateTrie t ∧ t.Normal ∧ t.Sized 64
  storage : ∀ a m, s.storageTries a = some m → ∃ t, Represents E m t ∧ t.Normal ∧ t.Sized 64

theorem Canonical.exists_holds {E : Env} {s : EthereumState} (h : Canonical E s) :
    ∃ T, Holds E s T := by
  obtain ⟨t, ht, hn, hs⟩ := h.state
  obtain ⟨state, rfl⟩ := exists_compress t hn hs
  have hstorage : ∀ a, ∃ o, Option.Rel (Tabulates E) (s.storageTries a) o := by
    intro a
    rcases ha : s.storageTries a with _ | m
    · exact ⟨none, .none⟩
    · obtain ⟨t, ht, hn, hs⟩ := h.storage a m ha
      obtain ⟨table, rfl⟩ := exists_compress t hn hs
      exact ⟨some table, .some ht⟩
  choose storage hrel using hstorage
  exact ⟨⟨state, storage⟩, ht, hrel⟩

theorem Holds.hash_eq {E : Env} {s s' : EthereumState} {T : Tables} (h : Holds E s T)
    (h' : Holds E s' T) :
    (∃ root, (Mpt.hash E s.stateTrie).1 = .ok root ∧ (Mpt.hash E s'.stateTrie).1 = .ok root) ∧
    ∀ a, (s.storageTries a).map (fun m => (Mpt.hash E m).1) =
      (s'.storageTries a).map fun m => (Mpt.hash E m).1 := by
  refine ⟨⟨_, hash_tabulates h.state, hash_tabulates h'.state⟩, fun a => ?_⟩
  have ha := h.storage a
  have ha' := h'.storage a
  generalize T.storage a = o at ha ha'
  generalize s.storageTries a = x at ha ⊢
  generalize s'.storageTries a = y at ha' ⊢
  cases ha with
  | none => cases ha'; rfl
  | some hm =>
    cases ha' with
    | some hm' => simp [hash_tabulates hm, hash_tabulates hm']

/-- `Err`, or a panic. -/
def Fails {α : Type} (r : Except Halt α) : Prop := ∃ e, r = .error e ∧ e ≠ .stackOverflow

/-- A bundle can be applied in every order or in none, and with the same result. -/
theorem update_order_independent {s : EthereumState} (hs : Canonical C.toEnv s)
    {bundle bundle' : Bundle} (hd : Distinct C bundle) (h : Reordered bundle bundle') :
    (Fails (updateFromBundleState C bundle s).1 ∧ Fails (updateFromBundleState C bundle' s).1) ∨
    (∃ s₁ s₂, updateFromBundleState C bundle s = (.ok (), s₁) ∧
      updateFromBundleState C bundle' s = (.ok (), s₂) ∧
      (∃ root, (Mpt.hash C.toEnv s₁.stateTrie).1 = .ok root ∧
        (Mpt.hash C.toEnv s₂.stateTrie).1 = .ok root) ∧
      ∀ a, (s₁.storageTries a).map (fun m => (Mpt.hash C.toEnv m).1) =
        (s₂.storageTries a).map fun m => (Mpt.hash C.toEnv m).1) := by
  obtain ⟨T, hT⟩ := hs.exists_holds
  have h₁ := updateFromBundleState_tracks bundle hT
  have h₂ := updateFromBundleState_tracks bundle' hT
  rw [T.updateAll_reordered hd h] at h₂
  cases hu : T.updateAll C bundle with
  | none =>
    rw [hu] at h₁ h₂
    obtain ⟨e, s₁, hs₁, he⟩ := h₁
    obtain ⟨e', s₂, hs₂, he'⟩ := h₂
    exact .inl ⟨⟨e, by rw [hs₁], he⟩, ⟨e', by rw [hs₂], he'⟩⟩
  | some T' =>
    rw [hu] at h₁ h₂
    obtain ⟨_, s₁, hs₁, hT₁⟩ := h₁
    obtain ⟨_, s₂, hs₂, hT₂⟩ := h₂
    exact .inr ⟨s₁, s₂, hs₁, hs₂, hT₁.hash_eq hT₂⟩

/-! ## Two accounts in two orders -/

def addressOne : Address := ⟨List.replicate 19 0 ++ [1], by decide⟩

def addressTwo : Address := ⟨List.replicate 19 0 ++ [2], by decide⟩

def hashedOne : B256 :=
  B256.ofNat 0x1468288056310c82aa4c01a7e12a10f8111a0560e72b700555479031b86c357d

def hashedTwo : B256 :=
  B256.ofNat 0xd52688a8f926c816ca1e079067caba944f158e764817b83fc43594370ca9cf62

def slotOne : B256 :=
  B256.ofNat 0xb10e2d527612073b26eecdfd717e6a320cf44b4afac2b0732d9fcbe2b7fa0cf6

def slotTwo : B256 :=
  B256.ofNat 0x405787fa12a823e0f2b7631cc41b3ba8828b3321ca811111fa75cd3aa3bb5ace

def slotRoot : B256 :=
  B256.ofNat 0x507dc864c12c35fa19f6a8c824601ce2f1bedd1fdf454c2df2f2a7ce411a6d6f

/-- `keccak256` of no bytes, the code hash of an account without code. -/
def noCode : B256 :=
  B256.ofNat 0xc5d2460186f7233c927e7db2dcc703c0e500b653ca82273b7bfad8045d85a470

/-- The hash of the leaf of an account whose hashed address begins with the nibble 3. -/
def hiddenLeaf : B256 :=
  B256.ofNat 0x15501738a21d26cbf55035f6c23ed8368c850cbfba6da8804e014d733752d2dd

/-- The leaf of the first account below a branch. -/
def writtenLeaf : B256 :=
  B256.ofNat 0x176f2fa62981225c0369daa68708056204b37981d3e25e992bc0bd5d5a2576f8

/-- The encoding of the first account when it is written. -/
def writtenAccount : Bytes :=
  [0xf8, 0x44, 1, 7, 0xa0] ++ slotRoot.bytes ++ [0xa0] ++ noCode.bytes

/-- `keccak256` of the two addresses, of the two slots and of the nodes that are written. -/
def sampleStateEnv : StateEnv := StateEnv.ofTable
  [(addressOne.bytes, hashedOne), (addressTwo.bytes, hashedTwo),
   (U256.toBeBytes 1, slotOne), (U256.toBeBytes 2, slotTwo),
   ([0xe3, 0xa1, 0x20] ++ slotOne.bytes ++ [5], slotRoot),
   ([0xf8, 0x6a, 0xa1, 0x20] ++ hashedOne.bytes ++ [0xb8, 0x46] ++ writtenAccount,
    B256.ofNat 0x9535065d9c8a2413d7110fffb46049746494f97244819594198e66543f2adb45),
   ([0xf8, 0x69, 0xa0] ++ Hp.encode ((Hp.keyNibs hashedOne.bytes).drop 1) true ++ [0xb8, 0x46] ++
      writtenAccount, writtenLeaf),
   ([0xf8, 0x51, 0x80, 0xa0] ++ writtenLeaf.bytes ++ [0x80, 0xa0] ++ hiddenLeaf.bytes ++
      List.replicate 13 0x80,
    B256.ofNat 0xac868bdda9da9446b670625ca502b572de264cc00fa74533a21c9f50da16e6c8)]

/-- The path of the second account below the root. -/
def pathTwo : List Nibble := (Hp.keyNibs hashedTwo.bytes).drop 1

/-- A branch over a digest and the leaf of the second account. -/
def sampleState : EthereumState where
  stateTrie := ⟨3, [⟨.null, none⟩, ⟨.digest hiddenLeaf.bytes, none⟩,
    ⟨.leaf (Hp.encode pathTwo true) (Rlp.encodeAccount ⟨2, 9, emptyRoot, noCode⟩), none⟩,
    ⟨.branch (Mpt.forkSlots 3 1 13 2), none⟩]⟩
  storageTries := fun _ => none

/-- One account writes a slot and clears another, and a second account is deleted.  If it is deleted
first, the branch collapses, and the write splits the extension over the digest again. -/
def sampleBundle : Bundle :=
  [(addressOne, ⟨some ⟨1, 7, noCode⟩, false, [(1, 5), (2, 0)]⟩), (addressTwo, ⟨none, true, []⟩)]

def sampleBundle' : Bundle :=
  [(addressTwo, ⟨none, true, []⟩), (addressOne, ⟨some ⟨1, 7, noCode⟩, false, [(2, 0), (1, 5)]⟩)]

theorem canonical_sampleState : Canonical sampleStateEnv.toEnv sampleState where
  state := by
    have hpath : pathTwo.length = 63 := by
      rw [pathTwo, List.length_drop, Mpt.length_keyNibs_b256]
    refine ⟨Radix.fork 3 (.digest hiddenLeaf) 13
      (.leaf pathTwo (Rlp.encodeAccount ⟨2, 9, emptyRoot, noCode⟩)), ?_, ?_, ?_⟩
    · exact rep_fork (A := {1}) (B := {2}) rfl (by decide)
        ⟨Finset.mem_singleton_self _, none, rfl, .inl rfl⟩
        ⟨Finset.mem_singleton_self _, none, rfl, .inl rfl⟩ (by simp) (by simp) (by decide)
        (show 3 ∈ Finset.range 4 by decide) (show {1} ⊆ (Finset.range 4).erase 3 by decide)
        (show {2} ⊆ (Finset.range 4).erase 3 by decide)
    · exact ⟨Radix.two_le_occupied (i := 3) (j := 13) (by decide) (by simp) (by simp),
        Radix.fork_forall trivial trivial trivial 3 13⟩
    · exact ⟨by decide, Radix.fork_forall (Q := Radix.Sized 63) (t := .digest hiddenLeaf)
        (u := .leaf pathTwo (Rlp.encodeAccount ⟨2, 9, emptyRoot, noCode⟩)) trivial trivial hpath
        3 13⟩
  storage a m h := by simp [sampleState] at h

theorem reordered_sampleBundle : Reordered sampleBundle sampleBundle' :=
  ⟨_, List.Perm.swap .., .cons ⟨rfl, rfl, rfl, .refl _⟩
    (.cons ⟨rfl, rfl, rfl, List.Perm.swap ..⟩ .nil)⟩

theorem distinct_sampleBundle : Distinct sampleStateEnv sampleBundle where
  addresses := by decide
  slots := by decide

theorem update_order_independent_sample :
    (updateFromBundleState sampleStateEnv sampleBundle sampleState).1 = .ok () ∧
    ∃ s₁ s₂, updateFromBundleState sampleStateEnv sampleBundle sampleState = (.ok (), s₁) ∧
      updateFromBundleState sampleStateEnv sampleBundle' sampleState = (.ok (), s₂) ∧
      (∃ root, (Mpt.hash sampleStateEnv.toEnv s₁.stateTrie).1 = .ok root ∧
        (Mpt.hash sampleStateEnv.toEnv s₂.stateTrie).1 = .ok root) ∧
      ∀ a, (s₁.storageTries a).map (fun m => (Mpt.hash sampleStateEnv.toEnv m).1) =
        (s₂.storageTries a).map fun m => (Mpt.hash sampleStateEnv.toEnv m).1 := by
  have hok : (updateFromBundleState sampleStateEnv sampleBundle sampleState).1 = .ok () := by
    decide
  rcases update_order_independent canonical_sampleState distinct_sampleBundle
    reordered_sampleBundle with ⟨⟨e, he, _⟩, _⟩ | h
  · rw [hok] at he
    exact absurd he (by simp)
  · exact ⟨hok, h⟩

end EthereumState
end CenoReth
