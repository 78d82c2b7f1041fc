/-
Updates by chunks.

The chunks of a frontier are updated one by one, and their new roots go into the
slots of the frontier.  The root of the frontier afterwards is the root of the
updated trie if and only if no node of the frontier has to go away: every branch
above a chunk, and every chunk directly below an extension, still branches.  A
slot whose chunk became empty is erased, but the branch above it is not
collapsed.
-/
import CenoReth.Mpt.Sealed

namespace CenoReth
namespace Mpt

open Patricia Patricia.Radix Trie Rlp

variable {E : Env}

/-! ## Changes -/

/-- What happens to a key. -/
inductive Change where
  | upsert (value : Bytes)
  | delete

/-- The value of the key afterwards. -/
def Change.value : Change → Option Bytes
  | .upsert value => some value
  | .delete => none

def Change.apply (keyNibs : List UInt8) : Change → TrieM Bool
  | .upsert value => insertNibbles keyNibs value
  | .delete => deleteNibbles keyNibs

def applyChanges : List (List UInt8 × Change) → TrieM Unit
  | [] => pure ()
  | (keyNibs, change) :: changes => do
    let _ ← change.apply keyNibs
    applyChanges changes

/-- The map after the changes. -/
def changeMap (μ : List Nibble → Option Bytes) :
    List (List Nibble × Change) → List Nibble → Option Bytes
  | [] => μ
  | (key, change) :: changes => changeMap (Function.update μ key change.value) changes

/-- Changes with their keys as bytes. -/
def asBytes (changes : List (List Nibble × Change)) : List (List UInt8 × Change) :=
  changes.map fun change => (change.1.map Nibble.toByte, change.2)

theorem applyChanges_spec {n : Nat} : ∀ (changes : List (List Nibble × Change))
    {μ : List Nibble → Option Bytes} {m : Mpt}, (∀ change ∈ changes, change.1.length = n) →
    Represents E m (canonical n μ) →
    ∃ m', applyChanges (asBytes changes) m = (.ok (), m') ∧
      Represents E m' (canonical n (changeMap μ changes))
  | [], μ, m, _, hr => ⟨m, rfl, hr⟩
  | (key, change) :: changes, μ, m, hlen, hr => by
    have hk : key.length = n := hlen (key, change) (by simp)
    obtain ⟨b, m₁, hm₁, hr₁⟩ : ∃ b m₁, change.apply (key.map Nibble.toByte) m = (.ok b, m₁) ∧
        Represents E m₁ (canonical n (Function.update μ key change.value)) := by
      cases change with
      | upsert v => exact ⟨_, insertNibbles_spec hr (insert_canonical μ hk v)⟩
      | delete => exact ⟨_, deleteNibbles_spec hr (delete_canonical μ hk)⟩
    obtain ⟨m', hm', hr'⟩ := applyChanges_spec changes
      (fun c hc => hlen c (by simp [hc])) hr₁
    exact ⟨m', (Exec.bind_ok hm₁).trans hm', hr'⟩

/-- The changes below a prefix. -/
def changesBelow (p : List Nibble) (changes : List (List Nibble × Change)) :
    List (List Nibble × Change) :=
  changes.filterMap fun change => (stripPrefix p change.1).map fun tail => (tail, change.2)

theorem below_changeMap (p : List Nibble) : ∀ (changes : List (List Nibble × Change))
    (μ : List Nibble → Option Bytes),
    below p (changeMap μ changes) = changeMap (below p μ) (changesBelow p changes)
  | [], _ => rfl
  | (key, change) :: changes, μ => by
    rw [changeMap, below_changeMap p changes]
    unfold changesBelow
    rw [List.filterMap_cons]
    cases hs : stripPrefix p key with
    | none =>
      congr 1
      funext x
      have hx : p ++ x ≠ key := fun h => by simp [← h] at hs
      simp [below, hx]
    | some tail =>
      obtain rfl := stripPrefix_eq_some.mp hs
      simp only [Option.map_some, changeMap]
      congr 1
      funext x
      by_cases hx : x = tail
      · subst hx
        simp [below]
      · simp [below, hx]

/-- The changes elsewhere do not matter. -/
theorem changeMap_of_not_mem : ∀ (changes : List (List Nibble × Change))
    (μ : List Nibble → Option Bytes) {key : List Nibble}, (∀ change ∈ changes, change.1 ≠ key) →
    changeMap μ changes key = μ key
  | [], _, _, _ => rfl
  | (key', change) :: changes, μ, key, h => by
    rw [changeMap, changeMap_of_not_mem changes _ fun c hc => h c (by simp [hc])]
    exact Function.update_of_ne (Ne.symm (h (key', change) (by simp))) _ _

/-! ## Running the chunks -/

/-- The changes of the keys that start with a prefix, with what follows it. -/
def chunkChanges (keys : List B256) (changes : B256 → Change) (prefixNibs : List UInt8) :
    List (List UInt8 × Change) :=
  keys.filterMap fun key =>
    (stripPrefix prefixNibs (Hp.toNibs key.bytes)).map fun tail => (tail, changes key)

/-- The arena that a method leaves behind. -/
def arenaAfter {α : Type} : Except Halt α × Mpt → Except Halt Mpt
  | (.ok _, m) => .ok m
  | (.error h, _) => .error h

/-- Decode a chunk and apply its changes. -/
def updateChunk (E : Env) (keys : List B256) (changes : B256 → Change) (chunk : FrontierChunk) :
    Except Halt Mpt :=
  (decodeTrie E chunk.bytes chunk.numNodes).bind fun decoded =>
    arenaAfter (applyChanges (chunkChanges keys changes chunk.prefixNibs) decoded.1)

/-- Update every chunk and put its root into the frontier. -/
def updateSlots (E : Env) (keys : List B256) (changes : B256 → Change) :
    List FrontierChunk → TrieM Unit
  | [] => pure ()
  | chunk :: chunks => do
    let m ← Exec.ofExcept (updateChunk E keys changes chunk)
    let (root, _) ← onArena m (hash E)
    replaceFrontierSlot E chunk.prefixNibs chunk.expectedRoot root
    updateSlots E keys changes chunks

/-- Decode the frontier and update it by chunks. -/
def chunkedUpdate (E : Env) (keys : List B256) (changes : B256 → Change) (frontier : MptFrontier) :
    Except Halt Mpt :=
  (decodeTrie E frontier.bytes frontier.numNodes).bind fun decoded =>
    arenaAfter (updateSlots E keys changes frontier.chunks decoded.1)

/-- The changes as a list. -/
def keyChanges (keys : List B256) (changes : B256 → Change) : List (List Nibble × Change) :=
  keys.map fun key => (Hp.keyNibs key.bytes, changes key)

theorem chunkChanges_eq (keys : List B256) (changes : B256 → Change) (p : List Nibble) :
    chunkChanges keys changes (p.map Nibble.toByte) =
      asBytes (changesBelow p (keyChanges keys changes)) := by
  unfold chunkChanges asBytes changesBelow keyChanges
  rw [List.filterMap_map, List.map_filterMap]
  congr 1
  funext key
  simp only [Function.comp_apply]
  rw [← Hp.map_toByte_keyNibs, Hp.stripPrefix_map]
  cases stripPrefix p (Hp.keyNibs key.bytes) <;> rfl

theorem length_keyChanges {keys : List B256} {changes : B256 → Change} :
    ∀ change ∈ keyChanges keys changes, change.1.length = 64 := by
  intro change hc
  obtain ⟨key, _, rfl⟩ := List.mem_map.mp hc
  simp [Hp.length_keyNibs, key.length_bytes]

theorem length_changesBelow {n : Nat} {p : List Nibble} {changes : List (List Nibble × Change)}
    (h : ∀ change ∈ changes, change.1.length = n) :
    ∀ change ∈ changesBelow p changes, change.1.length = n - p.length := by
  intro change hc
  obtain ⟨c, hc', hs⟩ := List.mem_filterMap.mp hc
  obtain ⟨tail, htail, rfl⟩ := Option.map_eq_some_iff.mp hs
  have hlen := h c hc'
  rw [stripPrefix_eq_some.mp htail, List.length_append] at hlen
  simp only
  omega

section Run

variable {n : Nat} {T : Trie} {μ : List Nibble → Option Bytes} {keys : List B256}
  {changes : B256 → Change}

/-- The subtrees of the trie of a map are the tries of the parts of the map. -/
theorem subtree_canonical {p : List Nibble} {s : Trie}
    (hs : (canonical n μ : Trie).subtree p = some s) :
    s = canonical (n - p.length) (below p μ) := by
  have hp := (sized_subtree (isTrie_canonical n μ).sized hs).2
  refine eq_of_get (isTrie_subtree (isTrie_canonical n μ) hs) (isTrie_canonical _ _) ?_
  intro key hk
  rw [← get_subtree hs, get_canonical μ (by rw [List.length_append]; omega), get_canonical _ hk]
  rfl

/-- The trie of a chunk after its changes. -/
def part (n : Nat) (μ : List Nibble → Option Bytes) (keys : List B256) (changes : B256 → Change)
    (p : List Nibble) : Trie :=
  canonical (n - p.length) (below p (changeMap μ (keyChanges keys changes)))

variable (keys changes) in
theorem isTrie_part (p : List Nibble) : IsTrie (n - p.length) (part n μ keys changes p) :=
  isTrie_canonical _ _

variable (keys changes) in
/-- A chunk that was built from the trie can be updated. -/
theorem updateChunk_spec (hinv : Inverse E.decodeHeader) (hpc : PrefixConsuming E.decodeHeader)
    (hn : n = 64) (hT : T = canonical n μ) {p : List Nibble} {chunk : FrontierChunk}
    (hchunk : ChunkOf E T p chunk) {s : Trie} (hs : T.subtree p = some s) (hw : Encodable E s) :
    ∃ m, updateChunk E keys changes chunk = .ok m ∧ Represents E m (part n μ keys changes p) := by
  have hnorm : s.Normal := normal_subtree (hT ▸ normal_canonical n μ) hs
  obtain ⟨m, rest, hm, hr⟩ := decodeTrie_represents hinv hpc hw
    ((em (s = null)).imp id (solid_of_normal hnorm)) chunk.numNodes
  have hsub : s = canonical (n - p.length) (below p μ) := subtree_canonical (hT ▸ hs)
  rw [hsub] at hr
  obtain ⟨m', hm', hr'⟩ := applyChanges_spec (changesBelow p (keyChanges keys changes))
    (length_changesBelow (hn ▸ length_keyChanges)) hr
  rw [← below_changeMap] at hr'
  refine ⟨m', ?_, hr'⟩
  unfold updateChunk
  rw [hchunk.bytes, site_eq hs, hm, hchunk.prefixNibs, chunkChanges_eq]
  show arenaAfter (applyChanges _ m) = _
  rw [hm']
  rfl

variable (E) in
/-- What stands for a chunk after its update. -/
def resealed (T : Trie) (f : List Nibble → Trie) (p : List Nibble) : Trie :=
  slotTrie E (sealed E T p) (Trie.hash E (f p))

variable (E) in
/-- The frontier with the chunks at some positions updated. -/
def refrontier (T : Trie) (f : List Nibble → Trie) (D done : List (List Nibble)) : Trie :=
  T.patch (assign done (resealed E T f) (assign D (sealed E T) fun _ => none))

theorem free_assign {D D' : List (List Nibble)} (h : Scattered D) {f g : List Nibble → Trie}
    (hD : ∀ p ∈ D', p ∈ D) {p : List Nibble} (hp : p ∈ D) :
    Free (assign D' f (assign D g fun _ => none)) p := by
  intro q hq hne
  have hmem : q ∈ D := by
    by_contra hn
    refine hq ?_
    rw [assign, if_neg fun hq' => hn (hD q hq'), assign, if_neg hn]
  exact ⟨fun hpre => hne (h q hmem p hp hpre), fun hpre => hne (h p hp q hmem hpre).symm⟩

/-- One chunk: its new root goes into its slot. -/
theorem updateSlot_spec {f : List Nibble → Trie} {D done : List (List Nibble)} (hD : Scattered D)
    (hdone : ∀ p ∈ done, p ∈ D) {p : List Nibble} {s : Trie} (hp : p ∈ D) (hnew : p ∉ done)
    (hs : T.subtree p = some s) {chunk : FrontierChunk} (hchunk : ChunkOf E T p chunk) {mf : Mpt}
    (hr : Represents E mf (refrontier E T f D done)) :
    ∃ mf', replaceFrontierSlot E chunk.prefixNibs chunk.expectedRoot (Trie.hash E (f p)) mf =
        (.ok (), mf') ∧ Represents E mf' (refrontier E T f D (p :: done)) := by
  have hA : assign done (resealed E T f) (assign D (sealed E T) fun _ => none) p =
      some (sealed E T p) := by
    rw [assign, if_neg hnew, assign, if_pos hp]
  obtain ⟨mf', hmf', hr'⟩ := replaceFrontierSlot_patch hr (free_assign hD hdone hp) hs
    (Trie.hash E (f p))
  rw [hA, Option.getD_some] at hmf' hr'
  have hroot : Trie.hash E (sealed E T p) = chunk.expectedRoot := by
    rw [sealed, hash_slotTrie, hchunk.expectedRoot]
  rw [hroot, ← hchunk.prefixNibs] at hmf'
  refine ⟨mf', hmf', ?_⟩
  rw [refrontier, ← update_assign]
  exact hr'

variable (keys changes) in
/-- The loop over the chunks. -/
theorem updateSlots_spec (hinv : Inverse E.decodeHeader) (hpc : PrefixConsuming E.decodeHeader)
    (hn : n = 64) (hT : T = canonical n μ) {D : List (List Nibble)} (hD : Scattered D)
    (hpos : ∀ p ∈ D, ∃ s, T.subtree p = some s ∧ Encodable E s) :
    ∀ (ps : List (List Nibble)) (chunks : List FrontierChunk) (done : List (List Nibble))
      (mf : Mpt), (∀ p ∈ ps, p ∈ D ∧ p ∉ done) → ps.Nodup → (∀ p ∈ done, p ∈ D) →
      List.Forall₂ (ChunkOf E T) ps chunks →
      Represents E mf (refrontier E T (part n μ keys changes) D done) →
      ∃ mf', updateSlots E keys changes chunks mf = (.ok (), mf') ∧
        Represents E mf' (refrontier E T (part n μ keys changes) D (ps.reverse ++ done))
  | [], _, done, mf, _, _, _, .nil, hr => ⟨mf, rfl, hr⟩
  | p :: ps, chunk :: chunks, done, mf, hps, hnd, hdone, .cons hchunk hchunks, hr => by
    obtain ⟨hp, hnew⟩ := hps p (by simp)
    obtain ⟨s, hs, hw⟩ := hpos p hp
    obtain ⟨m, hm, hrm⟩ := updateChunk_spec keys changes hinv hpc hn hT
      hchunk hs hw
    obtain ⟨m', hm', _⟩ := hash_represents hrm
    obtain ⟨mf₁, hmf₁, hr₁⟩ := updateSlot_spec hD hdone hp hnew hs hchunk hr
    obtain ⟨hnp, hnd'⟩ := List.nodup_cons.mp hnd
    obtain ⟨mf', hmf', hr'⟩ := updateSlots_spec hinv hpc hn hT hD hpos ps chunks (p :: done) mf₁
      (fun q hq => ⟨(hps q (by simp [hq])).1, fun hmem => (List.mem_cons.mp hmem).elim
        (fun h => hnp (h ▸ hq)) (hps q (by simp [hq])).2⟩) hnd'
      (fun q hq => (List.mem_cons.mp hq).elim (fun h => h ▸ hp) (hdone q)) hchunks hr₁
    refine ⟨mf', ?_, by simpa using hr'⟩
    have hread : Exec.ofExcept (updateChunk E keys changes chunk) mf = (.ok m, mf) := by
      rw [Exec.ofExcept_apply, hm]
    refine (Exec.bind_ok hread).trans ?_
    refine (Exec.bind_ok (onArena_ok hm' mf)).trans ?_
    exact (Exec.bind_ok hmf₁).trans hmf'

/-! ## The trie with its chunks in place -/

/-- The trie with the updated chunks in place. -/
def assembled (n : Nat) (T : Trie) (μ : List Nibble → Option Bytes) (keys : List B256)
    (changes : B256 → Change) (D : List (List Nibble)) : Trie :=
  T.patch (assign D (part n μ keys changes) fun _ => none)

variable (keys changes) in
/-- The chunks are parts of the trie. -/
theorem parts_assembled {D : List (List Nibble)} (hD : Scattered D)
    (hpos : ∀ p ∈ D, ∃ s, T.subtree p = some s) :
    Parts n T (assign D (part n μ keys changes) fun _ => none) where
  antichain := hD.antichain _
  isTrie q u hq := by
    rw [(assign_eq_some hq).2]
    exact isTrie_part keys changes q
  position q hq := hpos q (assign_ne_none.mp hq)

/-- The keys of the trie with the updated chunks in place. -/
theorem get_assembled (hT : T = canonical n μ) {D : List (List Nibble)} (hD : Scattered D)
    (hpos : ∀ p ∈ D, ∃ s, T.subtree p = some s)
    (hcover : ∀ change ∈ keyChanges keys changes, ∃ p ∈ D, p <+: change.1) {key : List Nibble}
    (hk : key.length = n) :
    (assembled n T μ keys changes D).get key =
      .ok (changeMap μ (keyChanges keys changes) key) := by
  by_cases hp : ∃ p ∈ D, p <+: key
  · obtain ⟨p, hp, tail, rfl⟩ := hp
    obtain ⟨s, hs⟩ := hpos p hp
    rw [assembled, get_patch_append ((hD.antichain _).free (assign_ne_none.mpr hp)) hs (if_pos hp),
      part, get_canonical _ (by rw [← hk, List.length_append]; omega)]
    rfl
  · rw [assembled, get_patch_of_not_prefix fun q hq hpre => hp ⟨q, assign_ne_none.mp hq, hpre⟩, hT,
      get_canonical _ hk, changeMap_of_not_mem]
    rintro change hc rfl
    exact hp (hcover change hc)

/-- The trie with the chunks in place is the updated trie if and only if it is in normal form. -/
theorem assembled_eq_iff (hT : T = canonical n μ) {D : List (List Nibble)} (hD : Scattered D)
    (hpos : ∀ p ∈ D, ∃ s, T.subtree p = some s)
    (hcover : ∀ change ∈ keyChanges keys changes, ∃ p ∈ D, p <+: change.1) :
    assembled n T μ keys changes D = canonical n (changeMap μ (keyChanges keys changes)) ↔
      Survives T (· ∈ D) fun key =>
        key.length = n ∧ changeMap μ (keyChanges keys changes) key ≠ none := by
  have hIs : IsTrie n T := hT ▸ isTrie_canonical n μ
  have hparts := parts_assembled keys changes (μ := μ) (n := n) hD hpos
  have hlive : Live n (assembled n T μ keys changes D) =
      fun key => key.length = n ∧ changeMap μ (keyChanges keys changes) key ≠ none := by
    funext key
    refine propext (and_congr_right fun hk => ?_)
    rw [get_assembled hT hD hpos hcover hk]
    simp [Option.ne_none_iff_exists']
  have htouch : (fun q => assign D (part n μ keys changes) (fun _ => none) q ≠ none) = (· ∈ D) :=
    funext fun q => propext assign_ne_none
  rw [← hlive, ← htouch]
  refine Iff.trans ⟨fun h => ?_, fun h => ?_⟩ (normal_patch_iff hIs hparts)
  · exact (congrArg Radix.Normal h).mpr (normal_canonical n _)
  · refine eq_of_get ⟨h, resolved_patch_of_parts hIs hparts, sized_patch_of_parts hIs hparts⟩
      (isTrie_canonical n _) fun key hk => ?_
    rw [get_canonical _ hk]
    exact get_assembled hT hD hpos hcover hk

/-! ## The root afterwards -/

/-- Every updated chunk is empty or hash-addressed, so that a digest can stand for it. -/
theorem ref_resealed {f : List Nibble → Trie} {p : List Nibble}
    (ha : f p = null ∨ HashAddressed E (f p))
    (h0 : f p ≠ null → Trie.hash E (f p) ≠ E.emptyRootHash) :
    ref E (resealed E T f p) = ref E (f p) := by
  by_cases hn : f p = null
  · have hroot : Trie.hash E (f p) = E.emptyRootHash := hn ▸ rfl
    rw [resealed, slotTrie, if_pos hroot, hn]
    split <;> rfl
  · rw [resealed, slotTrie, if_neg (h0 hn), ref_digest, ref_of_addressed (ha.resolve_left hn)]

theorem hash_refrontier {f : List Nibble → Trie} {D done : List (List Nibble)}
    (hdone : ∀ p, p ∈ done ↔ p ∈ D)
    (ha : ∀ p ∈ D, f p = null ∨ HashAddressed E (f p))
    (h0 : ∀ p ∈ D, f p ≠ null → Trie.hash E (f p) ≠ E.emptyRootHash) :
    Trie.hash E (refrontier E T f D done) = Trie.hash E (T.patch (assign D f fun _ => none)) := by
  by_cases hroot : [] ∈ D
  · rw [refrontier, patch_of_some (if_pos ((hdone []).mpr hroot)), patch_of_some (if_pos hroot),
      resealed, hash_slotTrie]
  · have hnil : [] ∉ done := mt (hdone []).mp hroot
    refine hash_patch_congr ?_ (if_neg hroot) fun p => ?_
    · rw [assign, if_neg hnil, assign, if_neg hroot]
    · by_cases hp : p ∈ D
      · rw [assign, if_pos ((hdone p).mpr hp), assign, if_pos hp]
        exact .some (ref_resealed (ha p hp) (h0 p hp))
      · rw [assign, if_neg (mt (hdone p).mp hp), assign, if_neg hp, assign, if_neg hp]
        exact .none

/-- Two tries with the same root, one of them in normal form. -/
theorem eq_of_hash {H : Set Bytes} (hinj : Set.InjOn E.keccak256 H)
    (h0 : E.emptyRootHash = E.keccak256 [emptyStringCode]) (hmem : [emptyStringCode] ∈ H)
    {t u : Trie} (ht : t.Resolved) (hth : NoHole t) (hu : u.Resolved) (huh : NoHole u)
    (htf : Fits t) (huf : Fits u) (htH : hashed E t ⊆ H) (huH : hashed E u ⊆ H)
    (h : Trie.hash E t = Trie.hash E u) : t = u := by
  have hlist : ∀ {t : Trie}, t.Resolved → NoHole t → t ≠ null → isList t := by
    intro t ht hth hn
    rcases node_cases t with rfl | rfl | ⟨d, rfl⟩ | hl
    · exact absurd rfl hn
    · exact hth.elim
    · exact ht.elim
    · exact hl
  have hne : ∀ {t : Trie}, t.Resolved → NoHole t → hashed E t ⊆ H → t ≠ null →
      Trie.hash E t ≠ E.emptyRootHash := fun ht hth htH hn =>
    hash_ne_emptyRoot hinj h0 hmem (hlist ht hth hn) (htH (.inl rfl))
  by_cases hnt : t = null
  · by_cases hnu : u = null
    · rw [hnt, hnu]
    · rw [hnt] at h
      exact absurd h.symm (hne hu huh huH hnu)
  · by_cases hnu : u = null
    · rw [hnu] at h
      exact absurd h (hne ht hth htH hnt)
    · have hview := view_of_hash (hlist ht hth hnt) (hlist hu huh hnu) hth hu huh htf huf
        (hinj.mono (Set.union_subset htH huH)) h
      exact View.eq_of_resolved hview ht

/-- The trie with the chunks in place has the root of the updated trie if and only if it is in
normal form. -/
theorem hash_assembled_iff {H : Set Bytes} (hinj : Set.InjOn E.keccak256 H)
    (h0 : E.emptyRootHash = E.keccak256 [emptyStringCode]) (hmem : [emptyStringCode] ∈ H)
    (hn : n < 2 ^ 64) (hT : T = canonical n μ) {D : List (List Nibble)} (hD : Scattered D)
    (hpos : ∀ p ∈ D, ∃ s, T.subtree p = some s)
    (hcover : ∀ change ∈ keyChanges keys changes, ∃ p ∈ D, p <+: change.1)
    (hv : ∀ key v, changeMap μ (keyChanges keys changes) key = some v → v.length < 2 ^ 64)
    (hH : hashed E (assembled n T μ keys changes D) ⊆ H)
    (hH' : hashed E (canonical n (changeMap μ (keyChanges keys changes))) ⊆ H) :
    Trie.hash E (assembled n T μ keys changes D) =
        Trie.hash E (canonical n (changeMap μ (keyChanges keys changes))) ↔
      Survives T (· ∈ D) fun key =>
        key.length = n ∧ changeMap μ (keyChanges keys changes) key ≠ none := by
  rw [← assembled_eq_iff hT hD hpos hcover]
  refine ⟨fun h => ?_, fun h => h ▸ rfl⟩
  have hIs : IsTrie n T := hT ▸ isTrie_canonical n μ
  have hparts := parts_assembled keys changes (μ := μ) (n := n) hD hpos
  have hfits : ∀ {t : Trie}, t.Sized n →
      (∀ key, key.length = n → t.get key = .ok (changeMap μ (keyChanges keys changes) key)) →
      Fits t := by
    intro t ht hget
    refine fits_of_sized ht hn (allValues_of_get ht fun key v hk hg => hv key v ?_)
    rw [hget key hk] at hg
    exact Except.ok.inj hg
  have hhole : NoHole (assembled n T μ keys changes D) := by
    refine noHole_patch (Normal.noHole hIs.normal) fun p u hp => ?_
    rw [(assign_eq_some hp).2]
    exact Normal.noHole (isTrie_part keys changes p).normal
  exact eq_of_hash hinj h0 hmem (resolved_patch_of_parts hIs hparts) hhole
    (isTrie_canonical n _).resolved (Normal.noHole (normal_canonical n _))
    (hfits (sized_patch_of_parts hIs hparts) fun key hk => get_assembled hT hD hpos hcover hk)
    (hfits (isTrie_canonical n _).sized fun key hk => get_canonical _ hk) hH hH' h

/-- Decoding the frontier and putting in the updated chunks gives the root of the trie with the
updated chunks in place. -/
theorem chunkedUpdate_spec (hinv : Inverse E.decodeHeader) (hpc : PrefixConsuming E.decodeHeader)
    (hn : n = 64) (hT : T = canonical n μ) (hw : ∀ p s, T.subtree p = some s → Encodable E s)
    {m : Mpt} {id : NodeId} {qs : List Mark} (hcut : Cuts E m T id qs)
    (h0 : ∀ p ∈ qs.map Prod.fst, ∀ s, T.subtree p = some s → s ≠ null →
      Trie.hash E s ≠ E.emptyRootHash)
    {fr : MptFrontier} (hbytes : fr.bytes = encoding E (frontierOf E T (qs.map Prod.fst)))
    (hchunks : List.Forall₂ (fun q chunk => ChunkOf E T q.1 chunk) qs fr.chunks)
    (ha : ∀ p ∈ qs.map Prod.fst,
      part n μ keys changes p = null ∨ HashAddressed E (part n μ keys changes p))
    (h0' : ∀ p ∈ qs.map Prod.fst, part n μ keys changes p ≠ null →
      Trie.hash E (part n μ keys changes p) ≠ E.emptyRootHash) :
    ∃ mf t, chunkedUpdate E keys changes fr = .ok mf ∧ Represents E mf t ∧
      Trie.hash E t = Trie.hash E (assembled n T μ keys changes (qs.map Prod.fst)) := by
  have hnorm : T.Normal := hT ▸ normal_canonical n μ
  obtain ⟨hfw, hfs, _⟩ := frontierOf_spec hcut hnorm (hw [] T (subtree_nil T)) h0
  obtain ⟨mf, rest, hmf, hrf⟩ := decodeTrie_represents hinv hpc hfw hfs fr.numNodes
  have hpos : ∀ p ∈ qs.map Prod.fst, ∃ s, T.subtree p = some s ∧ Encodable E s := by
    intro p hp
    obtain ⟨q, hq, rfl⟩ := List.mem_map.mp hp
    obtain ⟨s, hs, _⟩ := hcut.marks q hq
    exact ⟨s, hs, hw _ s hs⟩
  have hnd : (qs.map Prod.fst).Nodup := by
    refine List.pairwise_map.mpr (hcut.apart.imp fun hab heq => hab.1 ?_)
    rw [heq]
  have hnone : refrontier E T (part n μ keys changes) (qs.map Prod.fst) [] =
      frontierOf E T (qs.map Prod.fst) := by
    unfold refrontier frontierOf
    congr 1
  obtain ⟨mf', hmf', hrf'⟩ := updateSlots_spec keys changes hinv hpc hn hT
    hcut.scattered hpos (qs.map Prod.fst) fr.chunks [] mf (fun p hp => ⟨hp, by simp⟩) hnd (by simp)
    (by rw [List.forall₂_map_left_iff]; exact hchunks) (hnone ▸ hrf)
  refine ⟨mf', _, ?_, hrf', hash_refrontier (fun p => by simp) ha h0'⟩
  unfold chunkedUpdate
  rw [hbytes, hmf]
  show arenaAfter (updateSlots E keys changes fr.chunks mf) = _
  rw [hmf']
  rfl

end Run

/-! ## Chunked and direct updates -/

/-- The value of a key. -/
def valueAt (t : Trie) (key : List Nibble) : Option Bytes :=
  match t.get key with
  | .ok v => v
  | .error _ => none

/-- The positions of the chunks. -/
def positions (chunks : List FrontierChunk) : List (List Nibble) :=
  chunks.map fun chunk => chunk.prefixNibs.map fun b => Fin.ofNat 16 b.toNat

/-- The values after the changes. -/
def valueAfter (T : Trie) (keys : List B256) (changes : B256 → Change) :
    List Nibble → Option Bytes :=
  changeMap (valueAt T) (keyChanges keys changes)

/-- The strings that are hashed: the nodes of the trie, of the trie after the direct update, and
of the trie with the updated chunks in place. -/
def chunkHashed (E : Env) (T : Trie) (keys : List B256) (changes : B256 → Change)
    (chunks : List FrontierChunk) : Set Bytes :=
  {[emptyStringCode]} ∪ hashed E T ∪ hashed E (canonical 64 (valueAfter T keys changes)) ∪
    hashed E (assembled 64 T (valueAt T) keys changes (positions chunks))

theorem eq_canonical_valueAt {n : Nat} {T : Trie} (hT : IsTrie n T) :
    T = canonical n (valueAt T) := by
  refine eq_of_get hT (isTrie_canonical n _) fun key hk => ?_
  obtain ⟨μ, rfl⟩ := isTrie_iff.mp hT
  rw [get_canonical _ hk, get_canonical _ hk, valueAt, get_canonical _ hk]

theorem positions_eq {T : Trie} {qs : List Mark} {chunks : List FrontierChunk}
    (h : List.Forall₂ (fun q chunk => ChunkOf E T q.1 chunk) qs chunks) :
    positions chunks = qs.map Prod.fst := by
  induction h with
  | nil => rfl
  | @cons q chunk qs chunks hq _ ih =>
    have hp : ∀ p : List Nibble, (p.map Nibble.toByte).map (fun b => Fin.ofNat 16 b.toNat) = p := by
      intro p
      induction p with
      | nil => rfl
      | cons i p ihp =>
        rw [List.map_cons, List.map_cons, ihp]
        congr 1
        revert i
        decide
    unfold positions at ih ⊢
    rw [List.map_cons, List.map_cons, ih, hq.prefixNibs, hp]

theorem changeMap_cases : ∀ (changes : List (List Nibble × Change))
    (μ : List Nibble → Option Bytes) {key : List Nibble} {v : Bytes},
    changeMap μ changes key = some v → μ key = some v ∨ ∃ c ∈ changes, c.2 = .upsert v
  | [], _, _, _, h => .inl h
  | (key', change) :: changes, μ, key, v, h => by
    rcases changeMap_cases changes _ h with h | ⟨c, hc, hv⟩
    · by_cases hk : key = key'
      · subst hk
        rw [Function.update_self] at h
        cases change with
        | upsert w =>
          obtain rfl : w = v := Option.some.inj h
          exact .inr ⟨(key, .upsert w), by simp, rfl⟩
        | delete => cases h
      · rw [Function.update_of_ne hk] at h
        exact .inl h
    · exact .inr ⟨c, by simp [hc], hv⟩

/-- The values after the changes are values of the trie or new ones. -/
theorem length_valueAfter {T : Trie}
    (hv : AllValues (fun v => v.length < 2 ^ 63) T) {keys : List B256} {changes : B256 → Change}
    (hup : ∀ key ∈ keys, ∀ v, changes key = .upsert v → v.length < 2 ^ 63) {key : List Nibble}
    {v : Bytes} (h : valueAfter T keys changes key = some v) : v.length < 2 ^ 63 := by
  rcases changeMap_cases _ _ h with h | ⟨c, hc, hcv⟩
  · refine allValues_get hv (show T.get key = .ok (some v) from ?_)
    unfold valueAt at h
    split at h
    · rename_i hg
      rw [hg, h]
    · cases h
  · obtain ⟨key', hk, rfl⟩ := List.mem_map.mp hc
    exact hup key' hk v hcv

/-- The chunked update gives the root of the direct one if and only if every branch of the trie
above a chunk, and every chunk directly below an extension, still has keys below two digits. -/
theorem chunkedUpdate_iff (hinv : Inverse E.decodeHeader) (hpc : PrefixConsuming E.decodeHeader)
    (hempty : E.emptyRootHash = E.keccak256 [emptyStringCode]) {T : Trie} (hT : IsTrie 64 T)
    (hv : AllValues (fun v => v.length < 2 ^ 63) T) {m : Mpt} (hr : Represents E m T)
    {keys : List B256} (hk : keys ≠ []) {limits : FrontierLimits} {fr : MptFrontier}
    (hfr : (buildFrontier E keys limits m).1 = .ok fr)
    (hcover : ∀ key ∈ keys, ∃ chunk ∈ fr.chunks, chunk.prefixNibs <+: Hp.toNibs key.bytes)
    {changes : B256 → Change}
    (hup : ∀ key ∈ keys, ∀ v, changes key = .upsert v → v.length < 2 ^ 63)
    (haddr : ∀ chunk ∈ fr.chunks, ∀ mc, updateChunk E keys changes chunk = .ok mc →
      (isEmpty mc).1 = .ok true ∨ (rootIsHashAddressed E mc).1 = .ok true)
    (hinj : Set.InjOn E.keccak256 (chunkHashed E T keys changes fr.chunks)) :
    (∃ mf mT root, chunkedUpdate E keys changes fr = .ok mf ∧
      applyChanges (chunkChanges keys changes []) m = (.ok (), mT) ∧
      (hash E mf).1 = .ok root ∧ (hash E mT).1 = .ok root) ↔
    Survives T (· ∈ positions fr.chunks) fun key =>
      key.length = 64 ∧ valueAfter T keys changes key ≠ none := by
  obtain ⟨n, hn⟩ : ∃ n, n = 64 := ⟨64, rfl⟩
  unfold chunkHashed at hinj
  rw [← hn] at hT hinj ⊢
  have hcan := eq_canonical_valueAt hT
  obtain ⟨qs, hcut, hbytes, hchunks, _⟩ := of_buildFrontierWeighted hr hT.normal
    (show keys.map (fun key => (key, 1)) ≠ [] by simpa using hk) hfr
  have hpositions := positions_eq hchunks
  rw [hpositions] at hinj ⊢
  have hpos : ∀ p ∈ qs.map Prod.fst, ∃ s, T.subtree p = some s := by
    intro p hp
    obtain ⟨q, hq, rfl⟩ := List.mem_map.mp hp
    obtain ⟨s, hs, _⟩ := hcut.marks q hq
    exact ⟨s, hs⟩
  have hcover' : ∀ change ∈ keyChanges keys changes, ∃ p ∈ qs.map Prod.fst, p <+: change.1 := by
    intro change hc
    obtain ⟨key, hkey, rfl⟩ := List.mem_map.mp hc
    obtain ⟨chunk, hchunk, hpre⟩ := hcover key hkey
    obtain ⟨q, hq, hof⟩ := exists_mark_of_mem hchunks hchunk
    refine ⟨q.1, List.mem_map_of_mem hq, ?_⟩
    rw [hof.prefixNibs, ← Hp.map_toByte_keyNibs] at hpre
    exact (List.prefix_map_iff_of_injective Nibble.toByte_injective).mp hpre
  have hw : ∀ p s, T.subtree p = some s → Encodable E s := by
    intro p s hs
    have hp := sized_subtree hT.sized hs
    exact encodable_of_sized hp.1 (by omega) (Normal.noHole (normal_subtree hT.normal hs))
      (allValues_subtree hv hs)
  have h0 : ∀ p ∈ qs.map Prod.fst, ∀ s, T.subtree p = some s → s ≠ null →
      Trie.hash E s ≠ E.emptyRootHash := by
    intro p hp s hs hnull
    have hl := isList_of_normal (normal_subtree hT.normal hs) (resolved_subtree hT.resolved hs)
      hnull
    refine hash_ne_emptyRoot hinj hempty (by simp) hl (.inl (.inl (.inr ?_)))
    by_cases hroot : qs = [([], some m.rootId)]
    · obtain rfl : p = [] := by simpa [hroot] using hp
      obtain rfl : T = s := by simpa using hs
      exact .inl rfl
    · exact mem_hashed_of_addressed hs hl ((hcut.addressed hroot p hp s hs).resolve_left hnull)
  have ha : ∀ p ∈ qs.map Prod.fst, part n (valueAt T) keys changes p = null ∨
      HashAddressed E (part n (valueAt T) keys changes p) := by
    intro p hp
    obtain ⟨q, hq, rfl⟩ := List.mem_map.mp hp
    obtain ⟨s, hs⟩ := hpos _ hp
    obtain ⟨chunk, hchunk, hof⟩ := exists_chunk_of_mem hchunks hq
    obtain ⟨mc, hmc, hrc⟩ := updateChunk_spec keys changes hinv hpc hn hcan
      hof hs (hw _ s hs)
    rcases haddr chunk hchunk mc hmc with h | h
    · obtain ⟨b, hb, hiff⟩ := isEmpty_spec hrc
      rw [hb] at h
      rcases hiff.mp (Except.ok.inj h) with h | h
      · exact .inl h
      · have hnorm := (isTrie_part keys changes (n := n) (μ := valueAt T) q.1).normal
        rw [h] at hnorm
        exact hnorm.elim
    · obtain ⟨b, m₁, hb, hiff, _⟩ := rootIsHashAddressed_spec (Rep.reads hrc) hrc.depth_le
      rw [hb] at h
      exact .inr (hiff.mp (Except.ok.inj h))
  have h0' : ∀ p ∈ qs.map Prod.fst, part n (valueAt T) keys changes p ≠ null →
      Trie.hash E (part n (valueAt T) keys changes p) ≠ E.emptyRootHash := by
    intro p hp hnull
    obtain ⟨s, hs⟩ := hpos p hp
    have hpart : IsTrie _ (part n (valueAt T) keys changes p) := isTrie_part keys changes p
    have hl := isList_of_normal hpart.normal hpart.resolved hnull
    refine hash_ne_emptyRoot hinj hempty (by simp) hl (.inr ?_)
    refine mem_hashed_of_addressed (p := p) ?_ hl ((ha p hp).resolve_left hnull)
    have hsub := subtree_patch (A := assign (qs.map Prod.fst) (part n (valueAt T) keys changes)
      fun _ => none) ((hcut.scattered.antichain _).free (assign_ne_none.mpr hp)) hs
    rw [assign, if_pos hp] at hsub
    exact hsub
  obtain ⟨mf, t, hmf, hrt, hhash⟩ := chunkedUpdate_spec hinv hpc hn hcan hw hcut h0 hbytes hchunks
    ha h0'
  obtain ⟨mT, hmT, hrT⟩ := applyChanges_spec (keyChanges keys changes)
    (fun c hc => hn ▸ length_keyChanges c hc) (hcan ▸ hr)
  have hdirect : chunkChanges keys changes [] = asBytes (keyChanges keys changes) := by
    simp [chunkChanges, asBytes, keyChanges, Hp.map_toByte_keyNibs]
  obtain ⟨mf₁, hmf₁, _⟩ := hash_represents hrt
  obtain ⟨mT₁, hmT₁, _⟩ := hash_represents hrT
  have hroot := hash_assembled_iff hinj hempty (by simp) (by omega) hcan hcut.scattered hpos hcover'
    (fun key v h => lt_trans (length_valueAfter hv hup h) (by decide))
    Set.subset_union_right (fun b hb => .inl (.inr hb))
  rw [← hhash] at hroot
  rw [hdirect]
  refine Iff.trans ⟨?_, ?_⟩ hroot
  · rintro ⟨mf', mT', root, hmf', hmT', h, h'⟩
    obtain rfl : mf = mf' := Except.ok.inj (hmf.symm.trans hmf')
    obtain rfl : mT = mT' := congrArg Prod.snd (hmT.symm.trans hmT')
    rw [hmf₁] at h
    rw [hmT₁] at h'
    exact Except.ok.inj (h.trans h'.symm)
  · intro h
    exact ⟨mf, mT, _, hmf, hmT, by rw [hmf₁, h], by rw [hmT₁]⟩

/-! ## A chunk that becomes empty -/

/-- The path of a leaf below the first nibble. -/
def zeros : List Nibble := List.replicate 63 0

/-- Two keys that differ in their first nibble. -/
def pairTrie : Trie := fork 0 (leaf zeros [5]) 1 (leaf zeros [5])

def pairArena : Mpt where
  rootId := 0
  cells := [⟨.branch (forkSlots 0 1 1 2), none⟩, ⟨.leaf (Hp.encode zeros true) [5], none⟩,
    ⟨.leaf (Hp.encode zeros true) [5], none⟩]

def leafDigest : B256 := B256.ofNat 0xd620527fc0a7f7c8ea3cc1a2cac919dd5ff087c3de65f0efa1fd8213b8dd96c7

def otherDigest : B256 :=
  B256.ofNat 0xd3f73eba70b2f047425a004cb04634df0b15f399969f29769aed708316ce2539

/-- `keccak256` of the leaf, of a leaf with another value, and of the roots above them. -/
def pairEnv : Env := Env.ofTable
  [([0xe2, 0xa0, 0x30] ++ List.replicate 31 0 ++ [5], leafDigest),
   ([0xe2, 0xa0, 0x30] ++ List.replicate 31 0 ++ [6], otherDigest),
   ([0xf8, 0x51, 0xa0] ++ leafDigest.bytes ++ [0xa0] ++ leafDigest.bytes ++ List.replicate 15 0x80,
    B256.ofNat 0x9acbafba2667af2df9dddd06a1c893e6bb86443a08a35da58b2871d569a6ec5d),
   ([0xf8, 0x51, 0xa0] ++ otherDigest.bytes ++ [0xa0] ++ leafDigest.bytes ++ List.replicate 15 0x80,
    B256.ofNat 0x4b4d8f4c68e096b534cc074e80f010352d3acca4468b145969ac388cba200df5),
   ([0xf1, 0x80, 0xa0] ++ leafDigest.bytes ++ List.replicate 15 0x80,
    B256.ofNat 0xb56f1d3dd3a96fb3a16c3464b87a8107b7c00d9291ac57ad212fa8960a3e6b7e),
   ([0xe3, 0xa1, 0x20, 0x10] ++ List.replicate 31 0 ++ [5],
    B256.ofNat 0xfe796743ac7ffed273e911df52bbc9b45ef5c0f72006db539e0b6eaedb3223c2)]

/-- The frontier of the trie when no subtree fits into a chunk. -/
def pairFrontier : MptFrontier :=
  match (buildFrontier pairEnv [B256.ofNat 0] ⟨0, 0, 0⟩ pairArena).1 with
  | .ok fr => fr
  | .error _ => ⟨0, [], []⟩

/-- What is computed once for this trie: its frontier, where its only chunk is, and which key
falls into it. -/
theorem evaluate_pair :
    (buildFrontier pairEnv [B256.ofNat 0] ⟨0, 0, 0⟩ pairArena).1 = .ok pairFrontier ∧
    (∀ key ∈ [B256.ofNat 0], ∃ chunk ∈ pairFrontier.chunks,
      chunk.prefixNibs <+: Hp.toNibs key.bytes) ∧
    positions pairFrontier.chunks = [[0]] ∧
    Hp.keyNibs (B256.ofNat 0).bytes = 0 :: zeros ∧
    pairEnv.emptyRootHash = pairEnv.keccak256 [emptyStringCode] := by
  decide +kernel

theorem buildFrontier_pair :
    (buildFrontier pairEnv [B256.ofNat 0] ⟨0, 0, 0⟩ pairArena).1 = .ok pairFrontier :=
  evaluate_pair.1

theorem isTrie_pairTrie : IsTrie 64 pairTrie where
  normal := ⟨two_le_occupied (i := 0) (j := 1) (by decide) (by simp) (by simp),
    fork_forall trivial trivial trivial 0 1⟩
  resolved := fork_forall trivial trivial trivial 0 1
  sized := ⟨by decide, fork_forall (Q := Sized 63) (t := leaf zeros [5])
    (u := leaf zeros [5]) trivial rfl rfl 0 1⟩

theorem represents_pairTrie : Represents pairEnv pairArena pairTrie :=
  rep_fork (A := {1}) (B := {2}) rfl (by decide)
    ⟨Finset.mem_singleton_self _, none, rfl, .inl rfl⟩
    ⟨Finset.mem_singleton_self _, none, rfl, .inl rfl⟩ (by simp) (by simp) (by decide)
    (show 0 ∈ Finset.range 3 by decide) (show {1} ⊆ (Finset.range 3).erase 0 by decide)
    (show {2} ⊆ (Finset.range 3).erase 0 by decide)

theorem cover_pair : ∀ key ∈ [B256.ofNat 0], ∃ chunk ∈ pairFrontier.chunks,
    chunk.prefixNibs <+: Hp.toNibs key.bytes :=
  evaluate_pair.2.1

theorem keyNibs_pair : Hp.keyNibs (B256.ofNat 0).bytes = 0 :: zeros := evaluate_pair.2.2.2.1

theorem exists_of_any {α : Type} {x : Except Halt α} {f : α → Bool}
    (h : x.toOption.any f = true) : ∃ a, x = .ok a ∧ f a = true := by
  cases x with
  | error e => simp [Except.toOption] at h
  | ok a => exact ⟨a, rfl, by simpa [Except.toOption] using h⟩

/-- The first of two keys is deleted in its chunk: the branch keeps its place in the frontier
with one slot left, while the direct deletion leaves a leaf. -/
theorem chunkedUpdate_keeps_branch :
    IsTrie 64 pairTrie ∧ Represents pairEnv pairArena pairTrie ∧
    (buildFrontier pairEnv [B256.ofNat 0] ⟨0, 0, 0⟩ pairArena).1 = .ok pairFrontier ∧
    (∀ key ∈ [B256.ofNat 0], ∃ chunk ∈ pairFrontier.chunks,
      chunk.prefixNibs <+: Hp.toNibs key.bytes) ∧
    (∀ chunk ∈ pairFrontier.chunks,
      ∃ mc, updateChunk pairEnv [B256.ofNat 0] (fun _ => .delete) chunk = .ok mc ∧
        (isEmpty mc).1 = .ok true) ∧
    ∃ mf mT, chunkedUpdate pairEnv [B256.ofNat 0] (fun _ => .delete) pairFrontier = .ok mf ∧
      applyChanges (chunkChanges [B256.ofNat 0] (fun _ => .delete) []) pairArena = (.ok (), mT) ∧
      (hash pairEnv mf).1 ≠ (hash pairEnv mT).1 := by
  refine ⟨isTrie_pairTrie, represents_pairTrie, buildFrontier_pair, cover_pair, ?_, ?_⟩
  · intro chunk hc
    have hany : ∀ chunk ∈ pairFrontier.chunks,
        (updateChunk pairEnv [B256.ofNat 0] (fun _ => .delete) chunk).toOption.any
          (fun mc => (isEmpty mc).1 = .ok true) = true := by
      decide
    obtain ⟨mc, hmc, hempty⟩ := exists_of_any (hany chunk hc)
    exact ⟨mc, hmc, of_decide_eq_true hempty⟩
  · have hany : (chunkedUpdate pairEnv [B256.ofNat 0] (fun _ => .delete) pairFrontier).toOption.any
        (fun mf => (hash pairEnv mf).1 ≠ (hash pairEnv (applyChanges
          (chunkChanges [B256.ofNat 0] (fun _ => .delete) []) pairArena).2).1) = true := by
      decide +kernel
    obtain ⟨mf, hmf, hne⟩ := exists_of_any hany
    have hdirect : (applyChanges (chunkChanges [B256.ofNat 0] (fun _ => .delete) [])
        pairArena).1 = .ok () := by
      decide
    exact ⟨mf, _, hmf, Prod.ext hdirect rfl, of_decide_eq_true hne⟩

/-- Another value for the first key. -/
def upsertSix : B256 → Change := fun _ => .upsert [6]

def pairUpdated : Trie := branch (Function.update
  (Function.update (Function.update (fun _ => null) 0 (leaf zeros [5])) 1 (leaf zeros [5])) 0
  (leaf zeros [6]))

theorem eq_canonical_of_insert {n : Nat} {T T' : Trie} (hT : IsTrie n T) {key : List Nibble}
    (hk : key.length = n) {v : Bytes} {b : Bool} (h : T.insert key v = .ok (b, T')) :
    canonical n (Function.update (valueAt T) key (some v)) = T' := by
  have hins := insert_canonical (δ := B256) (valueAt T) hk v
  rw [← eq_canonical_valueAt hT, h] at hins
  exact (Prod.mk.inj (Except.ok.inj hins)).2.symm

theorem valueAfter_pair : valueAfter pairTrie [B256.ofNat 0] upsertSix =
    Function.update (valueAt pairTrie) (0 :: zeros) (some [6]) := by
  unfold valueAfter keyChanges
  rw [List.map_singleton, keyNibs_pair]
  rfl

/-- The trie after the change. -/
theorem canonical_pairUpdated :
    (canonical 64 (valueAfter pairTrie [B256.ofNat 0] upsertSix) : Trie) = pairUpdated := by
  have hins : pairTrie.insert (0 :: zeros) [6] = .ok (true, pairUpdated) := rfl
  rw [valueAfter_pair]
  exact eq_canonical_of_insert isTrie_pairTrie (by decide) hins

theorem positions_pair : positions pairFrontier.chunks = [[0]] := evaluate_pair.2.2.1

/-- Both keys are still there. -/
theorem survives_pair : Survives pairTrie (· ∈ positions pairFrontier.chunks) fun key =>
    key.length = 64 ∧ valueAfter pairTrie [B256.ofNat 0] upsertSix key ≠ none := by
  rw [positions_pair, valueAfter_pair]
  constructor
  · intro q i r c hq hs
    obtain ⟨rfl, rfl, rfl⟩ : q = [] ∧ i = 0 ∧ r = [] := by
      cases q with
      | nil => simpa using hq
      | cons j q => simp at hq
    refine ⟨0, 1, by decide, ⟨zeros, by decide, by simp⟩, zeros, by decide, ?_⟩
    rw [List.nil_append, Function.update_of_ne (by decide)]
    decide
  · intro q p c hq hs
    cases q with
    | nil => cases hs
    | cons j q =>
      obtain ⟨rfl, rfl, rfl⟩ : j = 0 ∧ q = [] ∧ p = [] := by
        simpa using hq
      cases hs

theorem assembled_pair : assembled 64 pairTrie (valueAt pairTrie) [B256.ofNat 0] upsertSix
    (positions pairFrontier.chunks) = pairUpdated := by
  rw [← canonical_pairUpdated]
  refine (assembled_eq_iff (eq_canonical_valueAt isTrie_pairTrie) ?_ ?_ ?_).mpr survives_pair
  · rw [positions_pair]
    intro p hp q hq _
    rw [List.mem_singleton.mp hp, List.mem_singleton.mp hq]
  · rw [positions_pair]
    intro p hp
    rw [List.mem_singleton.mp hp]
    exact ⟨leaf zeros [5], rfl⟩
  · rw [positions_pair]
    intro change hc
    obtain ⟨key, hkey, rfl⟩ := List.mem_map.mp hc
    rw [List.mem_singleton.mp hkey]
    refine ⟨[0], by simp, ?_⟩
    simp only [keyNibs_pair]
    exact ⟨zeros, rfl⟩

theorem noCollision_pair : NoCollision pairEnv ([emptyStringCode] :: rlp pairEnv pairTrie ::
    addressedNodes pairEnv pairTrie ++ rlp pairEnv pairUpdated ::
    addressedNodes pairEnv pairUpdated) := by
  decide

theorem injOn_pair_chunks : Set.InjOn pairEnv.keccak256
    (chunkHashed pairEnv pairTrie [B256.ofNat 0] upsertSix pairFrontier.chunks) := by
  have hmem : ∀ b ∈ chunkHashed pairEnv pairTrie [B256.ofNat 0] upsertSix pairFrontier.chunks,
      b ∈ [emptyStringCode] :: rlp pairEnv pairTrie :: addressedNodes pairEnv pairTrie ++
        rlp pairEnv pairUpdated :: addressedNodes pairEnv pairUpdated := by
    unfold chunkHashed hashed
    rw [canonical_pairUpdated, assembled_pair]
    intro b hb
    simp only [List.cons_append, List.mem_cons, List.mem_append, mem_addressedNodes]
    rcases hb with ((hb | hb | hb) | hb | hb) | hb | hb
    · exact .inl hb
    · exact .inr (.inl hb)
    · exact .inr (.inr (.inl hb))
    · exact .inr (.inr (.inr (.inl hb)))
    · exact .inr (.inr (.inr (.inr hb)))
    · exact .inr (.inr (.inr (.inl hb)))
    · exact .inr (.inr (.inr (.inr hb)))
  exact fun a ha b hb h => noCollision_pair a (hmem a ha) b (hmem b hb) h

theorem chunkedUpdate_iff_pair :
    (∃ mf mT root, chunkedUpdate pairEnv [B256.ofNat 0] upsertSix pairFrontier = .ok mf ∧
      applyChanges (chunkChanges [B256.ofNat 0] upsertSix []) pairArena = (.ok (), mT) ∧
      (hash pairEnv mf).1 = .ok root ∧ (hash pairEnv mT).1 = .ok root) ↔
    Survives pairTrie (· ∈ positions pairFrontier.chunks) fun key =>
      key.length = 64 ∧ valueAfter pairTrie [B256.ofNat 0] upsertSix key ≠ none := by
  have hany : ∀ chunk ∈ pairFrontier.chunks,
      (updateChunk pairEnv [B256.ofNat 0] upsertSix chunk).toOption.any
        (fun mc => (rootIsHashAddressed pairEnv mc).1 = .ok true) = true := by
    decide
  refine chunkedUpdate_iff (E := pairEnv) inverse_decodeHeader prefixConsuming_decodeHeader
    evaluate_pair.2.2.2.2 isTrie_pairTrie ?_ represents_pairTrie (by simp) buildFrontier_pair
    cover_pair ?_ ?_ injOn_pair_chunks
  · exact fork_forall (Q := AllValues fun v => v.length < 2 ^ 63) (t := leaf zeros [5])
      (u := leaf zeros [5]) trivial (show [5].length < 2 ^ 63 by decide)
      (show [5].length < 2 ^ 63 by decide) 0 1
  · intro key _ v hv
    obtain rfl : [6] = v := Change.upsert.inj hv
    decide
  · intro chunk hc mc hmc
    obtain ⟨mc', hmc', h⟩ := exists_of_any (hany chunk hc)
    obtain rfl : mc' = mc := Except.ok.inj (hmc'.symm.trans hmc)
    exact .inr (of_decide_eq_true h)

end Mpt
end CenoReth
