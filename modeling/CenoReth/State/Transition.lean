/-
The parent state from the proofs of a block (`transition_proofs_to_tries`).

For each account that a block touches there are two answers of the node.  The one
before the block proves the account and the slots that are used or written, and
the one after it proves the account and the slots that are written.  The state
that is built from all answers has the root of the parent state and shows what
was asked for.  The update of the block succeeds on it, in whatever order its
bundle is iterated, and leads to the root of the state after the block.
-/
import CenoReth.State.FromProofs
import CenoReth.State.Roots

namespace CenoReth

open Patricia Patricia.Radix Trie

namespace EthereumState

open Mpt

section Model

variable (E : Env) (fuel : Nat)

/-- What the loop over the accounts has built. -/
structure Transition where
  storageTries : B256 → Option Mpt
  stateNodes : B256 → Option Mpt
  stateRootNode : Mpt

/-- One turn of the loop. -/
def transitionAccount (proofs : Address → Option AccountProof) (state : Transition)
    (address : Address) (proof : AccountProof) : Except Halt Transition := do
  let r ← processProof E fuel proof.proof state.stateNodes
  match proofs address with
  | none => .error .panic
  | some finiProofs => do
    let stateNodes ← addOrphanedLeafs E fuel address.bytes finiProofs.proof r.2
    let storageTrie ← buildStorageTrie E fuel proof finiProofs
    .ok { storageTries :=
            Function.update state.storageTries (E.keccak256 address.bytes) (some storageTrie)
          stateNodes := stateNodes
          stateRootNode := r.1.getD state.stateRootNode }

def transitionAccounts (proofs : Address → Option AccountProof) :
    Transition → List (Address × AccountProof) → Except Halt Transition
  | state, [] => .ok state
  | state, entry :: entries => do
    let state ← transitionAccount E fuel proofs state entry.1 entry.2
    transitionAccounts proofs state entries

/-- The proofs before the block come in the order in which their map is iterated. -/
def transitionProofsToTries (stateRoot : B256) (parentProofs : List (Address × AccountProof))
    (proofs : Address → Option AccountProof) : Except Halt EthereumState :=
  if parentProofs = [] then do
    let stateTrie ← nodeFromDigest E stateRoot
    .ok ⟨stateTrie, fun _ => none⟩
  else do
    let state ← transitionAccounts E fuel proofs ⟨fun _ => none, fun _ => none, new⟩ parentProofs
    let stateTrie ← resolveNodes fuel state.stateRootNode state.stateNodes
    .ok ⟨stateTrie, state.storageTries⟩

end Model

/-! ## The answers of the node -/

/-- An account that is asked for, with slots before and after the block. -/
structure Request where
  address : Address
  keys : List B256
  modifiedKeys : List B256

/-- The hashed address. -/
abbrev Request.hashed (E : Env) (r : Request) : B256 := E.keccak256 r.address.bytes

/-- The path of the account in the state trie. -/
abbrev Request.path (E : Env) (r : Request) : List Nibble := keyPath E r.address.bytes

/-- The answer of `eth_getProof` in a state, converted. -/
def getProof (E : Env) (S : FullState) (address : Address) (keys : List B256) : AccountProof where
  proof := proofOf E S.state (keyPath E address.bytes)
  storageRoot := Trie.hash E (S.storage (E.keccak256 address.bytes))
  storageProofs := storageProofsOf E (S.storage (E.keccak256 address.bytes)) keys

/-- The answers for the state before the block. -/
def parentProofsOf (E : Env) (S : FullState) (requests : List Request) :
    List (Address × AccountProof) :=
  requests.map fun r => (r.address, getProof E S r.address r.keys)

/-- Every account of the bundle is asked for, with all of its slots. -/
def Requested (requests : List Request) (bundle : Bundle) : Prop :=
  ∀ entry ∈ bundle, ∃ r ∈ requests, r.address = entry.1 ∧ ∀ slot ∈ entry.2.storage,
    B256.ofNat slot.1.val ∈ r.keys ∧ B256.ofNat slot.1.val ∈ r.modifiedKeys

/-- `S'` is the state after the bundle. -/
structure After (C : ClientEnv) (S S' : FullState) (bundle : Bundle) : Prop where
  state : S'.state = S.stateAfter C bundle
  storage : ∀ entry ∈ bundle, entry.2.info ≠ none →
    S'.storage (C.keccak256 entry.1.bytes) =
      S.storageAfter C (C.keccak256 entry.1.bytes) entry.2

/-- The encodings of the nodes of the state trie before and after the block, and of the shortened
nodes. -/
def stateEncodings (E : Env) (S S' : FullState) (requests : List Request) : List Bytes :=
  nodeEncodings E S.state ++ nodeEncodings E S'.state ++
    requests.flatMap fun r => (orphans E S'.state (r.path E)).map (rlp E)

/-- No two strings that are hashed have the same hash, and no root that stands for a whole trie is
zero. -/
structure Hashable (E : Env) (S S' : FullState) (requests : List Request) : Prop where
  addresses : (requests.map (Request.hashed E)).Nodup
  state : NoCollision E (stateEncodings E S S' requests)
  storage : ∀ r ∈ requests, NoCollision E
    (blockEncodings E (S.storage (r.hashed E)) (S'.storage (r.hashed E)) r.modifiedKeys)
  stateRoot : requests = [] → Trie.hash E S.state ≠ B256.ofNat 0
  storageRoot : ∀ r ∈ requests, r.keys = [] →
    Trie.hash E (S.storage (r.hashed E)) ≠ B256.ofNat 0

/-! ## The loop over the accounts -/

/-- What was built for the accounts so far. -/
structure Reached (E : Env) (S S' : FullState) (done : List Request) (state : Transition)
    (storage : B256 → Option Table) : Prop where
  stock : Stock E state.stateNodes {s | ∃ r ∈ done,
    s ∈ proofNodes E S.state (r.path E) ∨ s ∈ orphans E S'.state (r.path E)}
  root : S.state = null ∨ done ≠ [] →
    Shape state.stateRootNode (face E S.state) state.stateRootNode.rootId
  tabulates : ∀ a, Option.Rel (Tabulates E) (state.storageTries a) (storage a)
  serves : ∀ r ∈ done, ∃ t, storage (r.hashed E) = some t ∧
    Serves E (S.storage (r.hashed E)) (S'.storage (r.hashed E)) (r.keys.map (slotNibs E))
      (r.modifiedKeys.map (slotNibs E)) t

/-- The depth to which the tries are visited. -/
def Deep (E : Env) (S S' : FullState) (requests : List Request) (fuel : Nat) : Prop :=
  2 * (depth S.state + depth S'.state) ≤ fuel ∧ ∀ r ∈ requests,
    2 * (depth (S.storage (r.hashed E)) + depth (S'.storage (r.hashed E))) ≤ fuel

theorem exists_deep (E : Env) (S S' : FullState) : ∀ requests : List Request,
    ∃ n, ∀ fuel, n ≤ fuel → Deep E S S' requests fuel
  | [] => ⟨2 * (depth S.state + depth S'.state), fun _ hfuel => ⟨hfuel, by simp⟩⟩
  | r :: requests => by
    obtain ⟨n, hn⟩ := exists_deep E S S' requests
    refine ⟨max n (2 * (depth (S.storage (r.hashed E)) + depth (S'.storage (r.hashed E)))),
      fun fuel hfuel => ?_⟩
    obtain ⟨hstate, hstorage⟩ := hn fuel ((Nat.le_max_left ..).trans hfuel)
    exact ⟨hstate, List.forall_mem_cons.mpr ⟨(Nat.le_max_right ..).trans hfuel, hstorage⟩⟩

section Block

variable {C : ClientEnv} {S S' : FullState} {root root' : B256} {requests : List Request}
  {proofs : Address → Option AccountProof} {fuel : Nat}

theorem sliced_state (hS : S.Sound C root) : Sliced 64 S.state := ⟨hS.state, hS.stateValues⟩

theorem sliced_storage (hS : S.Sound C root) (a : B256) : Sliced 64 (S.storage a) :=
  ⟨hS.storage a, hS.storageValues a⟩

theorem reached_nil (E : Env) (S S' : FullState) :
    Reached E S S' [] ⟨fun _ => none, fun _ => none, new⟩ fun _ => none where
  stock := by simpa using stock_empty
  root h := by
    rw [h.resolve_right (by simp)]
    exact ⟨none, rfl, trivial⟩
  tabulates _ := .none
  serves := by simp

/-- One turn of the loop. -/
theorem transitionAccount_reached (hinv : Rlp.Inverse C.decodeHeader) (hS : S.Sound C root)
    (hS' : S'.Sound C root') (hno : Hashable C.toEnv S S' requests)
    (hdeep : Deep C.toEnv S S' requests fuel) {r : Request} (hr : r ∈ requests)
    (hproof : proofs r.address = some (getProof C.toEnv S' r.address r.modifiedKeys))
    {done : List Request} (hnew : ∀ x ∈ done, x.hashed C.toEnv ≠ r.hashed C.toEnv)
    {state : Transition} {storage : B256 → Option Table}
    (h : Reached C.toEnv S S' done state storage) :
    ∃ state' storage', transitionAccount C.toEnv fuel proofs state r.address
        (getProof C.toEnv S r.address r.keys) = .ok state' ∧
      Reached C.toEnv S S' (done ++ [r]) state' storage' := by
  have hfuel := hdeep.1
  have hpos := depth_pos S.state
  have hpos' := depth_pos S'.state
  have hread : depth S.state < fuel := by omega
  have hread' : 2 * depth S'.state ≤ fuel := by omega
  have hinj' : NoCollision C.toEnv (nodeEncodings C.toEnv S'.state) := fun x hx y hy =>
    hno.state x (List.mem_append_left _ (List.mem_append_right _ hx)) y
      (List.mem_append_left _ (List.mem_append_right _ hy))
  obtain ⟨rootNode, nodes₁, hrun₁, hs₁, hroot⟩ := processProof_stock hinv
    ((sliced_state hS).regular (by norm_num)) hread (r.path C.toEnv) h.stock
  obtain ⟨nodes₂, hrun₂, hs₂⟩ := addOrphanedLeafs_stock hinv
    ((sliced_state hS').regular (by norm_num)) hinj' hread' r.address.bytes hs₁
  have hbefore : (getProof C.toEnv S r.address r.keys).storageProofs =
      storageProofsOf C.toEnv (S.storage (r.hashed C.toEnv)) r.keys := rfl
  have hafter : (getProof C.toEnv S' r.address r.modifiedKeys).storageProofs =
      storageProofsOf C.toEnv (S'.storage (r.hashed C.toEnv)) r.modifiedKeys := rfl
  obtain ⟨m, t, hrun₃, hm, hserves⟩ := buildStorageTrie_serves hinv (sliced_storage hS _)
    (sliced_storage hS' _) (hno.storage r hr) (hno.storageRoot r hr) rfl hbefore hafter
    (hdeep.2 r hr)
  refine ⟨⟨Function.update state.storageTries (r.hashed C.toEnv) (some m), nodes₂,
    rootNode.getD state.stateRootNode⟩, Function.update storage (r.hashed C.toEnv) (some t),
    ?_, ?_, fun _ => ?_, fun a => ?_, fun x hx => ?_⟩
  · have hproof' : (getProof C.toEnv S r.address r.keys).proof =
        proofOf C.toEnv S.state (r.path C.toEnv) := rfl
    have hfini : (getProof C.toEnv S' r.address r.modifiedKeys).proof =
        proofOf C.toEnv S'.state (r.path C.toEnv) := rfl
    rw [transitionAccount, hproof', hrun₁]
    simp only [bind, Except.bind, hproof, hfini, hrun₂, hrun₃]
  · have hset : {s | ∃ x ∈ done ++ [r], s ∈ proofNodes C.toEnv S.state (x.path C.toEnv) ∨
          s ∈ orphans C.toEnv S'.state (x.path C.toEnv)} =
        {s | ∃ x ∈ done, s ∈ proofNodes C.toEnv S.state (x.path C.toEnv) ∨
            s ∈ orphans C.toEnv S'.state (x.path C.toEnv)} ∪
          {s | s ∈ proofNodes C.toEnv S.state (r.path C.toEnv)} ∪
          {s | s ∈ orphans C.toEnv S'.state (r.path C.toEnv)} := by
      ext s
      simp only [Set.mem_union, Set.mem_ofPred_eq, List.mem_append, List.mem_singleton,
        or_and_right, exists_or, exists_eq_left, or_assoc]
    rwa [hset]
  · rcases hroot with ⟨hnull, rfl⟩ | ⟨m', rfl, hm'⟩
    · exact h.root (.inl hnull)
    · exact hm'
  · by_cases ha : a = r.hashed C.toEnv
    · subst ha
      simpa using Option.Rel.some hm
    · simpa only [Function.update_of_ne ha] using h.tabulates a
  · rcases List.mem_append.mp hx with hx | hx
    · obtain ⟨t', ht', hserves'⟩ := h.serves x hx
      exact ⟨t', (Function.update_of_ne (hnew x hx) _ _).trans ht', hserves'⟩
    · obtain rfl := List.mem_singleton.mp hx
      exact ⟨t, Function.update_self _ _ _, hserves⟩

/-- The whole loop. -/
theorem transitionAccounts_reached (hinv : Rlp.Inverse C.decodeHeader) (hS : S.Sound C root)
    (hS' : S'.Sound C root') (hno : Hashable C.toEnv S S' requests)
    (hdeep : Deep C.toEnv S S' requests fuel)
    (hproofs : ∀ r ∈ requests,
      proofs r.address = some (getProof C.toEnv S' r.address r.modifiedKeys)) :
    ∀ {rest done : List Request}, done ++ rest = requests → ∀ {state : Transition}
      {storage : B256 → Option Table}, Reached C.toEnv S S' done state storage →
      ∃ state' storage', transitionAccounts C.toEnv fuel proofs state
          (parentProofsOf C.toEnv S rest) = .ok state' ∧
        Reached C.toEnv S S' requests state' storage'
  | [], done, hdone, state, storage, h => by
    rw [List.append_nil] at hdone
    exact ⟨state, storage, rfl, hdone ▸ h⟩
  | r :: rest, done, hdone, state, storage, h => by
    have hr : r ∈ requests := by simp [← hdone]
    have hnew : ∀ x ∈ done, x.hashed C.toEnv ≠ r.hashed C.toEnv := by
      intro x hx heq
      have hnodup := hno.addresses
      rw [← hdone, List.map_append, List.nodup_append] at hnodup
      exact hnodup.2.2 _ (List.mem_map_of_mem hx) _ (by simp) heq
    obtain ⟨state₁, storage₁, hrun₁, h₁⟩ :=
      transitionAccount_reached hinv hS hS' hno hdeep hr (hproofs r hr) hnew h
    have hdone' : done ++ [r] ++ rest = requests := by simpa using hdone
    obtain ⟨state', storage', hrun, h'⟩ :=
      transitionAccounts_reached hinv hS hS' hno hdeep hproofs hdone' h₁
    refine ⟨state', storage', ?_, h'⟩
    rw [parentProofsOf, List.map_cons, transitionAccounts, hrun₁]
    exact hrun

/-! ## The state -/

/-- The tables of the state that is built. -/
structure Supplied (E : Env) (S S' : FullState) (requests : List Request) (T : Tables) :
    Prop where
  state : Serves E S.state S'.state (requests.map (Request.path E))
    (requests.map (Request.path E)) T.state
  storage : ∀ r ∈ requests, ∃ t, T.storage (r.hashed E) = some t ∧
    Serves E (S.storage (r.hashed E)) (S'.storage (r.hashed E)) (r.keys.map (slotNibs E))
      (r.modifiedKeys.map (slotNibs E)) t

theorem transitionProofsToTries_supplied (hinv : Rlp.Inverse C.decodeHeader) (hS : S.Sound C root)
    (hS' : S'.Sound C root') (hno : Hashable C.toEnv S S' requests)
    (hdeep : Deep C.toEnv S S' requests fuel)
    (hproofs : ∀ r ∈ requests,
      proofs r.address = some (getProof C.toEnv S' r.address r.modifiedKeys)) :
    ∃ s T, transitionProofsToTries C.toEnv fuel root (parentProofsOf C.toEnv S requests) proofs =
        .ok s ∧ Holds C.toEnv s T ∧ Supplied C.toEnv S S' requests T := by
  by_cases hempty : requests = []
  · -- no account is touched: the state root is all there is
    subst hempty
    obtain ⟨m, t, hm, ht, hhash⟩ := nodeFromDigest_tabulates (E := C.toEnv) (d := root)
      (hS.root ▸ hno.stateRoot rfl)
    refine ⟨⟨m, fun _ => none⟩, ⟨t, fun _ => none⟩, ?_, ⟨ht, fun _ => .none⟩,
      serves_root hS.state (hhash.trans hS.root.symm) _, by simp⟩
    rw [transitionProofsToTries, parentProofsOf, List.map_nil, if_pos rfl, hm]
    rfl
  · obtain ⟨state, storage, hrun, hreached⟩ := transitionAccounts_reached hinv hS hS' hno hdeep
      hproofs (List.nil_append requests) (reached_nil C.toEnv S S')
    have hreg : Regular C.toEnv S.state := (sliced_state hS).regular (by norm_num)
    have hreg' : Regular C.toEnv S'.state := (sliced_state hS').regular (by norm_num)
    have hfuel : 2 * depth S.state ≤ fuel :=
      (Nat.mul_le_mul_left 2 (Nat.le_add_right _ _)).trans hdeep.1
    have hmem : ∀ b ∈ nodeEncodings C.toEnv S.state, b ∈ stateEncodings C.toEnv S S' requests :=
      fun b hb => List.mem_append_left _ (List.mem_append_left _ hb)
    obtain ⟨m, hm, hrep⟩ := resolveNodes_stock hreg hreached.stock
      (fun s hs => by
        obtain ⟨r, _, hs | hs⟩ := hs
        · exact (hreg.proofNodes hs).1
        · exact proper_orphans (by norm_num) (sliced_state hS') s hs)
      (fun s hs b hb => by
        refine hno.state _ ?_ b (hmem b hb)
        obtain ⟨r, hr, hs | hs⟩ := hs
        · exact hmem _ (hreg.proofNodes hs).2.2.2
        · exact List.mem_append_right _
            (List.mem_flatMap.mpr ⟨r, hr, List.mem_map_of_mem hs⟩))
      hfuel (hreached.root (.inr hempty))
    have hview : View C.toEnv (shown C.toEnv (knows state.stateNodes) S.state) S.state :=
      view_shown S.state
    obtain ⟨t, ht⟩ := exists_compress _ (hview.normal hS.state.normal)
      (hview.sized hS.state.sized)
    refine ⟨⟨m, state.storageTries⟩, ⟨t, storage⟩, ?_, ⟨?_, hreached.tabulates⟩, ?_,
      hreached.serves⟩
    · rw [transitionProofsToTries, if_neg (by simpa [parentProofsOf] using hempty), hrun]
      show (resolveNodes fuel state.stateRootNode state.stateNodes >>= _) = _
      rw [hm]
      rfl
    · rwa [Tabulates, ht]
    · refine serves_shown hS.state (fun key hkey => ?_) ht (fun key hkey => ?_)
        fun key hkey s hs => ?_
      all_goals obtain ⟨r, hr, rfl⟩ := List.mem_map.mp hkey
      · exact length_keyNibs_b256 _
      · exact get_shown_stock hreg hreached.stock fun s hs => ⟨r, hr, .inl hs⟩
      · exact (hreached.stock.knows _).mpr ⟨s, ⟨r, hr, .inr hs⟩, rfl⟩

/-- What the state shows of the parent state. -/
structure Restores (C : ClientEnv) (S : FullState) (requests : List Request)
    (s : EthereumState) : Prop where
  stateRoot : (Mpt.hash C.toEnv s.stateTrie).1 = .ok (Trie.hash C.toEnv S.state)
  account : ∀ r ∈ requests, ∀ account, S.Stores C (r.hashed C.toEnv) account →
    accountAt C s.stateTrie (r.hashed C.toEnv) = .ok account
  storage : ∀ r ∈ requests, ∃ m, s.storageTries (r.hashed C.toEnv) = some m ∧
    (Mpt.hash C.toEnv m).1 = .ok (Trie.hash C.toEnv (S.storage (r.hashed C.toEnv))) ∧
    ∀ key ∈ r.keys, ∃ o, (S.storage (r.hashed C.toEnv)).get (slotNibs C.toEnv key) = .ok o ∧
      get (C.keccak256 key.bytes).bytes m = (.ok o, m)

theorem restores_supplied (hS : S.Sound C root) {s : EthereumState} {T : Tables}
    (hT : Holds C.toEnv s T) (h : Supplied C.toEnv S S' requests T) :
    Restores C S requests s where
  stateRoot := by rw [hash_tabulates hT.state, h.state.hash_eq]
  account r hr account hstores := by
    obtain ⟨o, ho, hdec⟩ := hstores
    exact accountAt_of_get hT.state
      ((h.state.get_eq _ (List.mem_map_of_mem hr)).trans ho) hdec
  storage r hr := by
    obtain ⟨t, ht, hserves⟩ := h.storage r hr
    have hrel := hT.storage (r.hashed C.toEnv)
    rw [ht] at hrel
    cases hm : s.storageTries (r.hashed C.toEnv) with
    | none =>
      rw [hm] at hrel
      cases hrel
    | some m =>
      rw [hm] at hrel
      cases hrel with
      | some hmt =>
        refine ⟨m, rfl, by rw [hash_tabulates hmt, hserves.hash_eq], fun key hkey => ?_⟩
        obtain ⟨o, ho⟩ := get_of_resolved (hS.storage (r.hashed C.toEnv)).resolved
          (slotNibs C.toEnv key)
        exact ⟨o, ho, get_tabulates hmt ((hserves.get_eq _ (List.mem_map_of_mem hkey)).trans ho)⟩

/-! ## The update of the block -/

theorem get_emptyTable {key : List Nibble} (h : key.length = 64) :
    emptyTable.get key = .ok none := by
  unfold emptyTable
  exact Sparse.get_ofMap 64 _ h

/-- The slots of an account are written, and the storage has the root that it should have. -/
theorem writeAll_supplied {bundle : Bundle} (hafter : After C S S' bundle)
    (hreq : Requested requests bundle) {T : Tables} (hT : Supplied C.toEnv S S' requests T)
    {entry : Address × BundleAccount} (hentry : entry ∈ bundle) (hinfo : entry.2.info ≠ none) :
    ∃ t, (parentTable T (C.keccak256 entry.1.bytes) entry.2).writeAll
        (entry.2.storage.map (slotWrite C.toStateEnv)) = some t ∧
      Trie.hash C.toEnv t.compress =
        Trie.hash C.toEnv (S.storageAfter C (C.keccak256 entry.1.bytes) entry.2) := by
  have hlen : ∀ op ∈ entry.2.storage.map (slotWrite C.toStateEnv), op.1.length = 64 :=
    length_slotWrite
  by_cases hdes : entry.2.wasDestroyed = true
  · obtain ⟨t, hw⟩ := Sparse.exists_writeAll (s := emptyTable) fun op hop =>
      ⟨hlen op hop, none, get_emptyTable (hlen op hop)⟩
    refine ⟨t, ?_, ?_⟩
    · rw [parentTable, if_pos hdes]
      exact hw
    · rw [writeAll_emptyTable hlen hw, storageAfter_eq, FullState.storageBefore, if_pos hdes]
      rfl
  · obtain ⟨r, hr, haddr, hslots⟩ := hreq entry hentry
    obtain ⟨t₀, ht₀, hserves⟩ := hT.storage r hr
    have hhashed : r.hashed C.toEnv = C.keccak256 entry.1.bytes := by rw [Request.hashed, haddr]
    rw [hhashed] at ht₀ hserves
    have hproved : ∀ op ∈ entry.2.storage.map (slotWrite C.toStateEnv),
        op.1 ∈ r.keys.map (slotNibs C.toEnv) ∧ op.1 ∈ r.modifiedKeys.map (slotNibs C.toEnv) := by
      intro op hop
      obtain ⟨slot, hslot, rfl⟩ := List.mem_map.mp hop
      obtain ⟨hkey, hmodified⟩ := hslots slot hslot
      exact ⟨List.mem_map_of_mem hkey, List.mem_map_of_mem hmodified⟩
    have hstorage := hafter.storage entry hentry hinfo
    have htarget : canonical 64 (writeMap (valueAt (S.storage (C.keccak256 entry.1.bytes)))
        (entry.2.storage.map (slotWrite C.toStateEnv))) =
          S'.storage (C.keccak256 entry.1.bytes) := by
      rw [hstorage, storageAfter_eq, FullState.storageBefore, if_neg hdes]
    obtain ⟨t, hw, hhash⟩ := hserves.writes _ hproved htarget
    refine ⟨t, ?_, hhash.trans (by rw [hstorage])⟩
    rw [parentTable, if_neg hdes, ht₀]
    exact hw

/-- What is written to the state trie for an account. -/
theorem record_supplied {bundle : Bundle} (hafter : After C S S' bundle)
    (hreq : Requested requests bundle) {T : Tables} (hT : Supplied C.toEnv S S' requests T)
    {entry : Address × BundleAccount} (hentry : entry ∈ bundle) :
    ∃ o, T.storageAfter C.toStateEnv (C.keccak256 entry.1.bytes) entry.2 = some o ∧
      record C.toStateEnv entry.2 o =
        (S.accountChange C (C.keccak256 entry.1.bytes, entry.2)).2.value := by
  cases hinfo : entry.2.info with
  | none =>
    refine ⟨none, ?_, ?_⟩
    · simp only [Tables.storageAfter, hinfo]
    · simp [record, FullState.accountChange, hinfo, Change.value]
  | some info =>
    obtain ⟨t, hw, hhash⟩ := writeAll_supplied hafter hreq hT hentry (by simp [hinfo])
    refine ⟨some t, ?_, ?_⟩
    · simp only [Tables.storageAfter, hinfo, hw, Option.map_some]
    · simp [record, FullState.accountChange, hinfo, Change.value, accountOf,
        FullState.accountAfter, hhash]

/-- The turns write the records of their accounts, one after the other. -/
theorem updateAll_of_writes {values : Address × BundleAccount → Option Bytes} :
    ∀ {bundle : Bundle} {T : Tables} {t : Table},
    (bundle.map fun entry => C.keccak256 entry.1.bytes).Nodup →
    (∀ entry ∈ bundle, ∃ o,
      T.storageAfter C.toStateEnv (C.keccak256 entry.1.bytes) entry.2 = some o ∧
        record C.toStateEnv entry.2 o = values entry) →
    T.state.writeAll (bundle.map fun entry => (keyPath C.toEnv entry.1.bytes, values entry)) =
      some t →
    ∃ T', T.updateAll C.toStateEnv bundle = some T' ∧ T'.state = t
  | [], T, t, _, _, hw => ⟨T, rfl, by simpa [Sparse.writeAll] using hw⟩
  | entry :: bundle, T, t, hnd, hrecord, hw => by
    rw [List.map_cons, List.nodup_cons] at hnd
    rw [List.map_cons, Sparse.writeAll_cons] at hw
    obtain ⟨t₁, ht₁, hw⟩ := Option.bind_eq_some_iff.mp hw
    obtain ⟨o, ho, hvalue⟩ := hrecord entry List.mem_cons_self
    have hturn : T.update C.toStateEnv (C.keccak256 entry.1.bytes) entry.2 =
        some ⟨t₁, Function.update T.storage (C.keccak256 entry.1.bytes) o⟩ := by
      rw [Tables.update_eq, ho, Option.bind_some, hvalue, ht₁]
      rfl
    rw [Tables.updateAll_cons, hturn, Option.bind_some]
    refine updateAll_of_writes hnd.2 (fun x hx => ?_) hw
    -- the turn did not touch the storage of the others
    have hne : C.keccak256 x.1.bytes ≠ C.keccak256 entry.1.bytes := fun heq =>
      hnd.1 (List.mem_map.mpr ⟨x, hx, heq⟩)
    obtain ⟨o', ho', hvalue'⟩ := hrecord x (List.mem_cons_of_mem _ hx)
    exact ⟨o', (Tables.storageAfter_congr (Function.update_of_ne hne _ _) x.2).trans ho', hvalue'⟩

/-- The update succeeds on what is built and leads to the root after the block. -/
theorem updateAll_supplied {bundle : Bundle} (hafter : After C S S' bundle)
    (hreq : Requested requests bundle) (hd : Distinct C.toStateEnv bundle) {T : Tables}
    (hT : Supplied C.toEnv S S' requests T) :
    ∃ T', T.updateAll C.toStateEnv bundle = some T' ∧
      Trie.hash C.toEnv T'.state.compress = Trie.hash C.toEnv S'.state := by
  let written := fun entry : Address × BundleAccount =>
    (S.accountChange C (C.keccak256 entry.1.bytes, entry.2)).2.value
  have hproved : ∀ op ∈ bundle.map fun entry => (keyPath C.toEnv entry.1.bytes, written entry),
      op.1 ∈ requests.map (Request.path C.toEnv) ∧ op.1 ∈ requests.map (Request.path C.toEnv) := by
    intro op hop
    obtain ⟨entry, hentry, rfl⟩ := List.mem_map.mp hop
    obtain ⟨r, hr, haddr, _⟩ := hreq entry hentry
    have hpath : keyPath C.toEnv entry.1.bytes ∈ requests.map (Request.path C.toEnv) :=
      List.mem_map.mpr ⟨r, hr, by rw [Request.path, haddr]⟩
    exact ⟨hpath, hpath⟩
  have htarget : canonical 64 (writeMap (valueAt S.state)
      (bundle.map fun entry => (keyPath C.toEnv entry.1.bytes, written entry))) = S'.state := by
    rw [hafter.state, FullState.stateAfter, FullState.writeAccounts, changeMap_eq_writeMap,
      List.map_map, List.map_map]
    rfl
  obtain ⟨t, hw, hhash⟩ := hT.state.writes _ hproved htarget
  obtain ⟨T', hall, rfl⟩ := updateAll_of_writes hd.addresses
    (fun entry hentry => record_supplied hafter hreq hT hentry) hw
  exact ⟨T', hall, hhash⟩

/-- The state that is built from the proofs before and after a block shows the parent state, and
the update of the block, in every order, leads it to the root after the block. -/
theorem transition_complete (hinv : Rlp.Inverse C.decodeHeader) (hS : S.Sound C root)
    (hS' : S'.Sound C root') {bundle : Bundle} (hafter : After C S S' bundle)
    (hreq : Requested requests bundle) (hd : Distinct C.toStateEnv bundle)
    (hno : Hashable C.toEnv S S' requests)
    (hproofs : ∀ r ∈ requests,
      proofs r.address = some (getProof C.toEnv S' r.address r.modifiedKeys)) :
    ∃ n, ∀ fuel, n ≤ fuel → ∃ s, transitionProofsToTries C.toEnv fuel root
        (parentProofsOf C.toEnv S requests) proofs = .ok s ∧
      Restores C S requests s ∧
      ∀ bundle', Reordered bundle bundle' → ∃ s',
        updateFromBundleState C.toStateEnv bundle' s = (.ok (), s') ∧
        (Mpt.hash C.toEnv s'.stateTrie).1 = .ok root' := by
  obtain ⟨n, hn⟩ := exists_deep C.toEnv S S' requests
  refine ⟨n, fun fuel hfuel => ?_⟩
  obtain ⟨s, T, hrun, hT, hsupplied⟩ :=
    transitionProofsToTries_supplied hinv hS hS' hno (hn fuel hfuel) hproofs
  refine ⟨s, hrun, restores_supplied hS hT hsupplied, fun bundle' hperm => ?_⟩
  obtain ⟨T', hall, hhash⟩ := updateAll_supplied hafter hreq hd hsupplied
  have htracks := updateFromBundleState_tracks (C := C.toStateEnv) bundle' hT
  rw [T.updateAll_reordered hd hperm, hall] at htracks
  obtain ⟨_, s', hupdate, hT'⟩ := htracks
  exact ⟨s', hupdate, by rw [hash_tabulates hT'.state, hhash, hS'.root]⟩

end Block

/-! ## An account that loses two of its slots -/

section Sample

def blockClient : ClientEnv where
  toStateEnv := StateEnv.ofTable blockTable
  hashSlow _ := noCode

/-- A state of one account. -/
def oneAccount (account : TrieAccount) (storage : Trie) : FullState where
  state := leaf (Hp.keyNibs hashedOne.bytes) (Rlp.encodeAccount account)
  storage a := if a = hashedOne then storage else null

theorem sound_oneAccount {account : TrieAccount} {storage : Trie}
    (hacc : Rlp.decodeAccount (Rlp.encodeAccount account) = .ok account)
    (hlen : (Rlp.encodeAccount account).length < 2 ^ 63) (hstorage : Sliced 64 storage)
    (hroot : Trie.hash blockEnv storage = account.storageRoot) :
    (oneAccount account storage).Sound blockClient
      (Trie.hash blockEnv (oneAccount account storage).state) where
  state := isTrie_leaf (length_keyNibs_b256 _)
  storage a := by
    by_cases h : a = hashedOne
    · simp only [oneAccount, h, if_true]
      exact hstorage.isTrie
    · simp only [oneAccount, h, if_false]
      exact ⟨trivial, trivial, trivial⟩
  stateValues := hlen
  storageValues a := by
    by_cases h : a = hashedOne
    · simp only [oneAccount, h, if_true]
      exact hstorage.values
    · simp only [oneAccount, h, if_false]
      trivial
  root := rfl
  storageRoot a o h := by
    obtain ⟨v, hv, hdec⟩ := h
    by_cases ha : a = hashedOne
    · subst ha
      have hget : (oneAccount account storage).state.get (Hp.keyNibs hashedOne.bytes) =
          .ok (some (Rlp.encodeAccount account)) := by
        simp [oneAccount, Radix.get]
      rw [hget] at hv
      cases hv
      have hsome : decodeWith blockClient.decodeAccount (some (Rlp.encodeAccount account)) =
          .ok (some account) := congrArg (Except.map some) hacc
      rw [hsome] at hdec
      cases hdec
      simp only [oneAccount, if_true]
      exact hroot
    · have hne : Hp.keyNibs a.bytes ≠ Hp.keyNibs hashedOne.bytes := fun h =>
        ha (B256.ext (Hp.keyNibs_injective h))
      have hget : (oneAccount account storage).state.get (Hp.keyNibs a.bytes) = .ok none := by
        simp [oneAccount, Radix.get, hne.symm]
      rw [hget] at hv
      cases hv
      cases hdec
      simp only [oneAccount, ha, if_false]
      rfl

/-- Slots 0 and 2 are cleared. -/
def blockBundle : Bundle := [(addressOne, ⟨some ⟨2, 7, noCode⟩, false, [(0, 0), (2, 0)]⟩)]

def blockRequests : List Request := [⟨addressOne, blockSlots, blockSlots⟩]

theorem sliced_fourSlots : Sliced 64 fourSlots := ⟨isTrie_fourSlots, values_fourSlots⟩

theorem sliced_mergedSlots : Sliced 64 mergedSlots := by
  rw [← updated_fourSlots]
  exact sliced_updated sliced_fourSlots (by simp [blockOps])

theorem storage_oneAccount (account : TrieAccount) (storage : Trie) :
    (oneAccount account storage).storage hashedOne = storage := by
  simp [oneAccount]

theorem hash_addressOne : blockClient.keccak256 addressOne.bytes = hashedOne := by
  decide +kernel

theorem storageAfter_blockBundle : (oneAccount accountBefore fourSlots).storageAfter blockClient
    hashedOne ⟨some ⟨2, 7, noCode⟩, false, [(0, 0), (2, 0)]⟩ = mergedSlots := by
  have hops : [((0 : U256), (0 : U256)), (2, 0)].map (slotWrite blockClient.toStateEnv) =
      blockOps.map (slotOp blockEnv) := rfl
  rw [storageAfter_eq, FullState.storageBefore, if_neg (by simp), storage_oneAccount, hops]
  exact updated_fourSlots

theorem hash_fourSlots : Trie.hash blockEnv fourSlots = fourRoot := by
  decide +kernel

theorem hash_mergedSlots : Trie.hash blockEnv mergedSlots = mergedRoot := by
  decide +kernel

/-- The value of the one leaf is replaced. -/
theorem canonical_update_leaf {p : List Nibble} (hp : p.length = 64) (v v' : Bytes) :
    (canonical 64 (Function.update (valueAt (leaf p v)) p (some v')) : Trie) = leaf p v' := by
  rw [eq_canonical_valueAt (isTrie_leaf (v := v') hp)]
  refine canonical_congr 64 fun key _ => ?_
  by_cases hkey : key = p
  · subst hkey
    simp [valueAt, Radix.get]
  · simp [valueAt, Radix.get, hkey, Ne.symm hkey]

theorem after_blockBundle : After blockClient (oneAccount accountBefore fourSlots)
    (oneAccount Mpt.accountAfter mergedSlots) blockBundle where
  state := by
    have hchange : (oneAccount accountBefore fourSlots).accountAfter blockClient hashedOne
        ⟨some ⟨2, 7, noCode⟩, false, [(0, 0), (2, 0)]⟩ ⟨2, 7, noCode⟩ = Mpt.accountAfter := by
      rw [FullState.accountAfter, storageAfter_blockBundle]
      exact congrArg (fun root => TrieAccount.mk 2 7 root noCode) hash_mergedSlots
    rw [FullState.stateAfter, FullState.writeAccounts, blockBundle]
    simp only [List.map_cons, List.map_nil, hash_addressOne, FullState.accountChange, hchange,
      changeMap, Change.value]
    exact (canonical_update_leaf (length_keyNibs_b256 hashedOne) _ _).symm
  storage entry hentry _ := by
    obtain rfl := List.mem_singleton.mp hentry
    rw [hash_addressOne, storageAfter_blockBundle, storage_oneAccount]

theorem hashable_blockRequests : Hashable blockEnv (oneAccount accountBefore fourSlots)
    (oneAccount Mpt.accountAfter mergedSlots) blockRequests where
  addresses := by simp [blockRequests]
  state := by
    have hstrings : ∀ b ∈ stateEncodings blockEnv (oneAccount accountBefore fourSlots)
        (oneAccount Mpt.accountAfter mergedSlots) blockRequests,
        b ∈ [accountBytes accountBefore, accountBytes Mpt.accountAfter] := by
      decide +kernel
    have hno : NoCollision blockEnv
        [accountBytes accountBefore, accountBytes Mpt.accountAfter] := by
      decide +kernel
    exact fun x hx y hy => hno x (hstrings x hx) y (hstrings y hy)
  storage r hr := by
    obtain rfl := List.mem_singleton.mp hr
    rw [show Request.hashed blockEnv ⟨addressOne, blockSlots, blockSlots⟩ = hashedOne from
      hash_addressOne, storage_oneAccount, storage_oneAccount]
    exact noCollision_blockSlots
  stateRoot h := by simp [blockRequests] at h
  storageRoot r hr h := by
    obtain rfl := List.mem_singleton.mp hr
    simp [blockSlots] at h

/-- Slots 0 and 2 are cleared, in any order. -/
theorem transition_complete_sample :
    ∃ n, ∀ fuel, n ≤ fuel → ∃ s, transitionProofsToTries blockEnv fuel
        (Trie.hash blockEnv (oneAccount accountBefore fourSlots).state)
        (parentProofsOf blockEnv (oneAccount accountBefore fourSlots) blockRequests)
        (fun address => some
          (getProof blockEnv (oneAccount Mpt.accountAfter mergedSlots) address blockSlots)) =
          .ok s ∧
      Restores blockClient (oneAccount accountBefore fourSlots) blockRequests s ∧
      ∀ bundle', Reordered blockBundle bundle' → ∃ s',
        updateFromBundleState blockClient.toStateEnv bundle' s = (.ok (), s') ∧
        (Mpt.hash blockEnv s'.stateTrie).1 =
          .ok (Trie.hash blockEnv (oneAccount Mpt.accountAfter mergedSlots).state) := by
  have hS : (oneAccount accountBefore fourSlots).Sound blockClient
      (Trie.hash blockEnv (oneAccount accountBefore fourSlots).state) :=
    sound_oneAccount (by decide) (by decide) sliced_fourSlots hash_fourSlots
  have hS' : (oneAccount Mpt.accountAfter mergedSlots).Sound blockClient
      (Trie.hash blockEnv (oneAccount Mpt.accountAfter mergedSlots).state) :=
    sound_oneAccount (by decide) (by decide) sliced_mergedSlots hash_mergedSlots
  have hreq : Requested blockRequests blockBundle := by
    intro entry hentry
    obtain rfl := List.mem_singleton.mp hentry
    refine ⟨_, List.mem_singleton_self _, rfl, fun slot hslot => ?_⟩
    have hkey : B256.ofNat slot.1.val ∈ blockSlots := by
      simp only [List.mem_cons, List.not_mem_nil, or_false] at hslot
      rcases hslot with rfl | rfl
      · exact List.mem_cons_self
      · exact List.mem_cons_of_mem _ (List.mem_singleton_self _)
    exact ⟨hkey, hkey⟩
  have hd : Distinct blockClient.toStateEnv blockBundle :=
    ⟨by simp [blockBundle], by decide +kernel⟩
  exact transition_complete (C := blockClient) Rlp.inverse_decodeHeader hS hS' after_blockBundle
    hreq hd hashable_blockRequests fun r hr => by
      obtain rfl := List.mem_singleton.mp hr
      rfl

end Sample

end EthereumState
end CenoReth
