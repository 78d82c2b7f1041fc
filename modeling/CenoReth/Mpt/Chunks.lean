/-
The chunks of a frontier.

`build_frontier_weighted` returns a frontier for every well-formed trie, and
neither the frontier nor the chunks lose the root of what they stand for; with
overflow checks, weights that do not fit into a word are the only exception.  The
chunks partition the keys unless the trie is divided below an extension whose path
some key leaves: the recursion hands all keys through an extension without
comparing them with its path.
-/
import CenoReth.Mpt.Sealed

namespace CenoReth
namespace Mpt

open Patricia Patricia.Radix Trie Rlp

variable {E : Env}

/-! ## Totality -/

/-- No chunk looks like an empty one. -/
theorem WellFormed.hash_ne_emptyRoot {t : Trie} (ht : WellFormed E t)
    (hempty : E.emptyRootHash = E.keccak256 [emptyStringCode])
    (hinj : Set.InjOn E.keccak256 ({[emptyStringCode]} ∪ hashed E t)) {m : Mpt} {id : NodeId}
    {qs : List Mark} (hcut : Cuts E m t id qs) :
    ∀ p ∈ qs.map Prod.fst, ∀ s, t.subtree p = some s → s ≠ null →
      Trie.hash E s ≠ E.emptyRootHash := by
  intro p hp s hs hnull
  rcases node_cases s with rfl | rfl | ⟨d, rfl⟩ | hl
  · exact absurd rfl hnull
  · exact (normal_subtree ht.normal hs).elim
  · exact ht.digest p d hs
  · refine Mpt.hash_ne_emptyRoot hinj hempty (.inl rfl) hl (.inr ?_)
    by_cases hroot : qs = [([], some id)]
    · obtain rfl : p = [] := by simpa [hroot] using hp
      obtain rfl : t = s := by simpa using hs
      exact .inl rfl
    · exact mem_hashed_of_addressed hs hl ((hcut.addressed hroot p hp s hs).resolve_left hnull)

/-- A chunk can be decoded, and it has its root. -/
theorem decode_chunkOf (hinv : Inverse E.decodeHeader) (hpc : PrefixConsuming E.decodeHeader)
    {t s : Trie} (ht : WellFormed E t) {p : List Nibble} (hs : t.subtree p = some s)
    {chunk : FrontierChunk} (hchunk : ChunkOf E t p chunk) :
    ∃ mc rest, decodeTrie E chunk.bytes chunk.numNodes = .ok (mc, rest) ∧
      (hash E mc).1 = .ok chunk.expectedRoot := by
  obtain ⟨mc, rest, hmc, hrc⟩ := decodeTrie_represents hinv hpc (encodable_subtree ht.encodable hs)
    ((em (s = null)).imp id (solid_of_normal (normal_subtree ht.normal hs))) chunk.numNodes
  obtain ⟨mc', hmc', _⟩ := hash_represents hrc
  refine ⟨mc, rest, ?_, ?_⟩
  · rw [hchunk.bytes, site_eq hs, hmc]
  · rw [hmc', hchunk.expectedRoot, site_eq hs]

/-- Building a frontier keeps all roots, and only weights that overflow stop it. -/
theorem buildFrontierWeighted_total (hinv : Inverse E.decodeHeader)
    (hpc : PrefixConsuming E.decodeHeader)
    (hempty : E.emptyRootHash = E.keccak256 [emptyStringCode]) {t : Trie} (ht : WellFormed E t)
    {m : Mpt} (hr : Represents E m t)
    (hinj : Set.InjOn E.keccak256 ({[emptyStringCode]} ∪ hashed E t))
    (keys : List (B256 × UInt64)) (limits : FrontierLimits) :
    (∃ fr, (buildFrontierWeighted E keys limits m).1 = .ok fr ∧
      (∃ mf rest, decodeTrie E fr.bytes fr.numNodes = .ok (mf, rest) ∧
        (hash E mf).1 = (hash E m).1) ∧
      ∀ chunk ∈ fr.chunks, ∃ p s, chunk.prefixNibs = p.map Nibble.toByte ∧
        t.subtree p = some s ∧ chunk.expectedRoot = Trie.hash E s ∧
        ∃ mc rest, decodeTrie E chunk.bytes chunk.numNodes = .ok (mc, rest) ∧
          (hash E mc).1 = .ok chunk.expectedRoot) ∨
    (buildFrontierWeighted E keys limits m).1 = .error .panic ∧ E.overflowChecks = true ∧
      2 ^ 64 ≤ exactSum (keys.map Prod.snd) := by
  obtain ⟨m', hm', _⟩ := hash_represents hr
  by_cases hk : keys = []
  · subst hk
    obtain ⟨m₁, hm₁⟩ := buildFrontierWeighted_nil hr limits
    obtain ⟨mf, rest, hmf, hrf⟩ := decodeTrie_represents hinv hpc ht.encodable
      ((em (t = null)).imp id (solid_of_normal ht.normal)) m.size
    obtain ⟨mf', hmf', _⟩ := hash_represents hrf
    exact .inl ⟨_, by rw [hm₁], ⟨mf, rest, hmf, by rw [hmf', hm']⟩, by simp⟩
  · have hspec := buildFrontierWeighted_spec hr ht.normal hk limits
    have hframe := fun qs (hcut : Cuts E m t m.rootId qs) =>
      frontierOf_spec hcut ht.normal ht.encodable (ht.hash_ne_emptyRoot hempty hinj hcut)
    rcases hrun : buildFrontierWeighted E keys limits m with ⟨e | fr, m₁⟩
    · obtain ⟨rfl, ho⟩ := not_not.mp (hspec.1 e m₁ hrun)
      refine .inr ⟨rfl, ?_⟩
      rcases ho with ho | ⟨-, qs, hcut, hroot⟩
      · rwa [Overflows, weight_nibbleKeys] at ho
      · exact absurd (hframe qs hcut).2.2 hroot
    · obtain ⟨qs, h⟩ := hspec.2 fr m₁ hrun
      obtain ⟨hfw, hfs, hhash⟩ := hframe qs h.cuts
      obtain ⟨mf, rest, hmf, hrf⟩ := decodeTrie_represents hinv hpc hfw hfs fr.numNodes
      obtain ⟨mf', hmf', _⟩ := hash_represents hrf
      refine .inl ⟨fr, rfl, ⟨mf, rest, h.bytes ▸ hmf, by rw [hmf', hm', hhash]⟩, ?_⟩
      intro chunk hc
      obtain ⟨q, hq, hof⟩ := exists_mark_of_mem h.chunks hc
      obtain ⟨s, hs, _⟩ := h.cuts.marks q hq
      exact ⟨q.1, s, hof.prefixNibs, hs, by rw [hof.expectedRoot, site_eq hs],
        decode_chunkOf hinv hpc ht hs hof⟩

theorem wellFormed_samplePartial : WellFormed sampleEnv samplePartial where
  normal := view_samplePartial.normal isTrie_sampleTrie.normal
  encodable := encodable_samplePartial
  digest p d hs := by
    cases p with
    | nil => cases hs
    | cons i p =>
      refine fork_forall (Q := fun t : Trie => ∀ p d, t.subtree p = some (digest d) →
        d ≠ sampleEnv.emptyRootHash) (t := digest sampleDigest) (u := leaf [3] [5]) ?_ ?_ ?_ 1 2 i
        p d hs
      all_goals
        intro p d h
        cases p with
        | nil =>
          cases h
          all_goals decide
        | cons j p => simp [Radix.subtree] at h

theorem buildFrontierWeighted_total_sample :
    ∃ fr, (buildFrontierWeighted sampleEnv [(B256.ofNat 0, 1)] ⟨0, 0, 0⟩
        (sampleArena (.digest sampleDigest.bytes))).1 = .ok fr ∧
      ∃ mf rest, decodeTrie sampleEnv fr.bytes fr.numNodes = .ok (mf, rest) ∧
        (hash sampleEnv mf).1 = (hash sampleEnv (sampleArena (.digest sampleDigest.bytes))).1 := by
  have hinj : Set.InjOn sampleEnv.keccak256
      ({[emptyStringCode]} ∪ hashed sampleEnv samplePartial) := by
    have hno : NoCollision sampleEnv ([emptyStringCode] :: rlp sampleEnv samplePartial ::
        addressedNodes sampleEnv samplePartial) := by
      decide
    have hmem : ∀ b ∈ ({[emptyStringCode]} ∪ hashed sampleEnv samplePartial : Set Bytes),
        b ∈ [emptyStringCode] :: rlp sampleEnv samplePartial ::
          addressedNodes sampleEnv samplePartial := by
      intro b hb
      rw [List.mem_cons, List.mem_cons, mem_addressedNodes]
      exact hb
    exact fun a ha b hb h => hno a (hmem a ha) b (hmem b hb) h
  obtain ⟨fr, hfr, hroot, _⟩ := (buildFrontierWeighted_total (E := sampleEnv) inverse_decodeHeader
    prefixConsuming_decodeHeader (by decide) wellFormed_samplePartial
    represents_samplePartial hinj [(B256.ofNat 0, 1)] ⟨0, 0, 0⟩).resolve_right
      fun h => Bool.false_ne_true h.2.1
  exact ⟨fr, hfr, hroot⟩

/-- A build that checks overflow. -/
def checkedEnv : Env := { sampleEnv with overflowChecks := true }

/-- Two keys whose weights do not fit into a word stop such a build, even for the empty trie. -/
theorem buildFrontierWeighted_overflow :
    WellFormed checkedEnv null ∧ Represents checkedEnv Mpt.new null ∧
    (buildFrontierWeighted checkedEnv [(B256.ofNat 0, 0xffffffffffffffff), (B256.ofNat 1, 1)]
      ⟨1, 4, 5⟩ Mpt.new).1 = .error .panic := by
  refine ⟨⟨trivial, trivial, fun p d hs => ?_⟩, represents_new, by decide +kernel⟩
  cases p with
  | nil => cases hs
  | cons i p => cases hs

/-! ## Positions below a node -/

/-- The positions that the children of a node give. -/
def below (E : Env) (limits : FrontierLimits) (t : Trie) (depth : Nat) (keys : List WeightedKey) :
    List (List Nibble) :=
  match t with
  | branch c => (List.finRange 16).flatMap fun i =>
      if childKeys keys depth i = [] then []
      else (cut E limits (c i) (depth + 1) (childKeys keys depth i)).map (i :: ·)
  | ext p c => (cut E limits c (depth + p.length) keys).map (p ++ ·)
  | _ => []

theorem cut_eq (limits : FrontierLimits) (t : Trie) (depth : Nat) (keys : List WeightedKey) :
    cut E limits t depth keys =
      if OverLimit E limits t keys then cutOr E t (below E limits t depth keys) else [[]] := by
  cases t with
  | branch c => rfl
  | ext p c => rfl
  | _ => simp [cut, below, cutOr]

theorem cut_ne_nil (limits : FrontierLimits) (t : Trie) (depth : Nat) (keys : List WeightedKey) :
    cut E limits t depth keys ≠ [] := by
  rw [cut_eq]
  unfold cutOr
  split
  · split
    · rename_i h
      exact h.2
    · simp
  · simp

theorem mem_below_branch {limits : FrontierLimits} {c : Nibble → Trie} {depth : Nat}
    {keys : List WeightedKey} {q : List Nibble} :
    q ∈ below E limits (branch c) depth keys ↔ ∃ i r, q = i :: r ∧ childKeys keys depth i ≠ [] ∧
      r ∈ cut E limits (c i) (depth + 1) (childKeys keys depth i) := by
  rw [below, List.mem_flatMap]
  constructor
  · rintro ⟨i, _, hq⟩
    by_cases hk : childKeys keys depth i = []
    · rw [if_pos hk] at hq
      cases hq
    · rw [if_neg hk] at hq
      obtain ⟨r, hr, rfl⟩ := List.mem_map.mp hq
      exact ⟨i, r, rfl, hk, hr⟩
  · rintro ⟨i, r, rfl, hk, hr⟩
    refine ⟨i, List.mem_finRange i, ?_⟩
    rw [if_neg hk]
    exact List.mem_map_of_mem hr

/-! ## Divided nodes -/

/-- A digest can stand for the node, or there is none. -/
def Sealable (E : Env) (t : Trie) : Prop := t = null ∨ HashAddressed E t

/-- The node is divided: it exceeds a limit for the keys that reach it, some key goes on below it,
and every child that a key goes on to can be sealed or is divided itself. -/
def Divides (E : Env) (limits : FrontierLimits) : Trie → Nat → List WeightedKey → Prop
  | branch c, depth, keys =>
    OverLimit E limits (branch c) keys ∧ (∃ i, childKeys keys depth i ≠ []) ∧
      ∀ i, childKeys keys depth i ≠ [] → Sealable E (c i) ∨
        Divides E limits (c i) (depth + 1) (childKeys keys depth i)
  | ext p c, depth, keys =>
    OverLimit E limits (ext p c) keys ∧
      (Sealable E c ∨ Divides E limits c (depth + p.length) keys)
  | _, _, _ => False

theorem isSealable_nil {t : Trie} : isSealable E t [] = true ↔ Sealable E t := by
  by_cases hn : t = null
  · subst hn
    exact iff_of_true (isSealable_null (subtree_nil null)) (.inl rfl)
  · rw [isSealable_iff (subtree_nil t) hn, Sealable, or_iff_right hn]

theorem isSealable_congr {t s : Trie} {p q : List Nibble} (h : t.subtree p = s.subtree q) :
    isSealable E t p = isSealable E s q := by
  unfold isSealable
  rw [h]

/-- All positions of a node can be sealed if it can be sealed itself or is divided. -/
theorem sealable_cut_iff {limits : FrontierLimits} {t : Trie} {depth : Nat}
    {keys : List WeightedKey} (h : Divides E limits t depth keys ↔ OverLimit E limits t keys ∧
      (∀ p ∈ below E limits t depth keys, isSealable E t p = true) ∧
        below E limits t depth keys ≠ []) :
    (∀ p ∈ cut E limits t depth keys, isSealable E t p = true) ↔
      Sealable E t ∨ Divides E limits t depth keys := by
  rw [cut_eq]
  by_cases hd : Divides E limits t depth keys
  · obtain ⟨hover, hall⟩ := h.mp hd
    rw [if_pos hover, cutOr, if_pos hall]
    exact iff_of_true hall.1 (.inr hd)
  · have hown : (if OverLimit E limits t keys then cutOr E t (below E limits t depth keys)
        else [[]]) = [[]] := by
      split
      · rename_i hover
        rw [cutOr, if_neg fun hall => hd (h.mpr ⟨hover, hall⟩)]
      · rfl
    rw [hown, or_iff_left hd, ← isSealable_nil]
    exact List.forall_mem_singleton

/-- A node is divided exactly if its own position is given up for those of its children. -/
theorem divides_iff {limits : FrontierLimits} {t : Trie} (hn : t.Normal) {depth : Nat}
    {keys : List WeightedKey} :
    Divides E limits t depth keys ↔ OverLimit E limits t keys ∧
      (∀ p ∈ below E limits t depth keys, isSealable E t p = true) ∧
        below E limits t depth keys ≠ [] := by
  induction t generalizing depth keys with
  | branch c ih =>
    rw [Divides]
    refine and_congr_right fun _ => ?_
    rw [and_comm]
    refine and_congr ⟨fun h p hp => ?_, fun h i hi => ?_⟩ ⟨fun ⟨i, hi⟩ => ?_, fun h => ?_⟩
    · obtain ⟨i, r, rfl, hi, hr⟩ := mem_below_branch.mp hp
      rw [isSealable_congr (subtree_branch c i r)]
      exact (sealable_cut_iff (ih i (hn.2 i))).mpr (h i hi) r hr
    · refine (sealable_cut_iff (ih i (hn.2 i))).mp fun r hr => ?_
      rw [← isSealable_congr (subtree_branch c i r)]
      exact h _ (mem_below_branch.mpr ⟨i, r, rfl, hi, hr⟩)
    · obtain ⟨r, hr⟩ := List.exists_mem_of_ne_nil _
        (cut_ne_nil limits (c i) (depth + 1) (childKeys keys depth i))
      exact List.ne_nil_of_mem (mem_below_branch.mpr ⟨i, r, rfl, hi, hr⟩)
    · obtain ⟨q, hq⟩ := List.exists_mem_of_ne_nil _ h
      obtain ⟨i, _, _, hi, _⟩ := mem_below_branch.mp hq
      exact ⟨i, hi⟩
  | ext p c ih =>
    obtain ⟨hp, _, hnc⟩ := hn
    have hsub : ∀ q : List Nibble, (ext p c).subtree (p ++ q) = c.subtree q :=
      fun q => subtree_ext_append c (by simp [hp])
    rw [Divides, ← sealable_cut_iff (ih hnc), below]
    refine and_congr_right fun _ => ?_
    rw [and_iff_left (by simpa using cut_ne_nil limits c (depth + p.length) keys)]
    simp only [List.forall_mem_map, isSealable_congr (hsub _)]
  | _ => exact iff_of_false id fun h => h.2.2 rfl

theorem cut_of_divides {limits : FrontierLimits} {t : Trie} (hn : t.Normal) {depth : Nat}
    {keys : List WeightedKey} (h : Divides E limits t depth keys) :
    cut E limits t depth keys = below E limits t depth keys := by
  obtain ⟨hover, hall⟩ := (divides_iff hn).mp h
  rw [cut_eq, if_pos hover, cutOr, if_pos hall]

theorem cut_of_not_divides {limits : FrontierLimits} {t : Trie} (hn : t.Normal) {depth : Nat}
    {keys : List WeightedKey} (h : ¬ Divides E limits t depth keys) :
    cut E limits t depth keys = [[]] := by
  rw [cut_eq]
  split
  · rename_i hover
    rw [cutOr, if_neg fun hall => h ((divides_iff hn).mpr ⟨hover, hall⟩)]
  · rfl

/-! ## Keys and positions -/

/-- Wherever an extension is divided, the keys that reach it follow its path. -/
def Follows (E : Env) (limits : FrontierLimits) : Trie → Nat → List WeightedKey → Prop
  | branch c, depth, keys =>
    Divides E limits (branch c) depth keys → ∀ i, childKeys keys depth i ≠ [] →
      Follows E limits (c i) (depth + 1) (childKeys keys depth i)
  | ext p c, depth, keys =>
    Divides E limits (ext p c) depth keys →
      (∀ key ∈ keys, p.map Nibble.toByte <+: key.1.drop depth) ∧
        Follows E limits c (depth + p.length) keys
  | _, _, _ => True

/-- Keys of one length, made of nibbles. -/
def Uniform (n : Nat) (keys : List WeightedKey) : Prop :=
  ∀ key ∈ keys, ∃ nibs : List Nibble, key.1 = nibs.map Nibble.toByte ∧ nibs.length = n

theorem mem_childKeys {keys : List WeightedKey} {depth : Nat} {i : Nibble}
    {key : WeightedKey} :
    key ∈ childKeys keys depth i ↔ key ∈ keys ∧ key.1[depth]? = some (Nibble.toByte i) := by
  simp [childKeys]

theorem Uniform.childKeys {n : Nat} {keys : List WeightedKey} (h : Uniform n keys)
    (depth : Nat) (i : Nibble) : Uniform n (childKeys keys depth i) :=
  fun key hk => h key (mem_childKeys.mp hk).1

theorem drop_of_getElem? {l : List UInt8} {n : Nat} {b : UInt8} (h : l[n]? = some b) :
    l.drop n = b :: l.drop (n + 1) := by
  obtain ⟨hn, rfl⟩ := List.getElem?_eq_some_iff.mp h
  exact List.drop_eq_getElem_cons hn

/-- Every key reaches a position. -/
theorem exists_cut_of_follows {n : Nat} {limits : FrontierLimits} {t : Trie} {depth : Nat}
    {keys : List WeightedKey} (hn : t.Normal) (hu : Uniform n keys)
    (h : Follows E limits t depth keys) :
    ∀ key ∈ keys, ∃ p ∈ cut E limits t depth keys, p.map Nibble.toByte <+: key.1.drop depth := by
  induction t generalizing depth keys with
  | branch c ih =>
    intro key hkey
    by_cases hd : Divides E limits (branch c) depth keys
    swap
    · exact ⟨[], by simp [cut_of_not_divides hn hd], List.nil_prefix⟩
    · obtain ⟨j, hj⟩ := hd.2.1
      -- some key is longer than the path to the branch, and so are all
      obtain ⟨key', hkey'⟩ := List.exists_mem_of_ne_nil _ hj
      obtain ⟨hmem', hget'⟩ := mem_childKeys.mp hkey'
      obtain ⟨nibs', hnibs', hlen'⟩ := hu key' hmem'
      obtain ⟨nibs, hnibs, hlen⟩ := hu key hkey
      have hlt : depth < nibs.length := by
        have := (List.getElem?_eq_some_iff.mp hget').1
        rw [hnibs', List.length_map] at this
        omega
      have hget : key.1[depth]? = some (Nibble.toByte nibs[depth]) := by
        rw [hnibs]
        simp [hlt]
      have hchild : key ∈ childKeys keys depth nibs[depth] := mem_childKeys.mpr ⟨hkey, hget⟩
      have hne : childKeys keys depth nibs[depth] ≠ [] := List.ne_nil_of_mem hchild
      obtain ⟨p, hp, hpre⟩ := ih nibs[depth] (hn.2 _) (hu.childKeys depth _) (h hd _ hne) key
        hchild
      refine ⟨nibs[depth] :: p, ?_, ?_⟩
      · rw [cut_of_divides hn hd]
        exact mem_below_branch.mpr ⟨_, p, rfl, hne, hp⟩
      · rw [drop_of_getElem? hget, List.map_cons]
        exact List.cons_prefix_cons.mpr ⟨rfl, hpre⟩
  | ext q c ih =>
    intro key hkey
    by_cases hd : Divides E limits (ext q c) depth keys
    swap
    · exact ⟨[], by simp [cut_of_not_divides hn hd], List.nil_prefix⟩
    · obtain ⟨hpath, hbelow⟩ := h hd
      obtain ⟨p, hp, hpre⟩ := ih hn.2.2 hu hbelow key hkey
      obtain ⟨rest, hrest⟩ := hpath key hkey
      refine ⟨q ++ p, by rw [cut_of_divides hn hd]; exact List.mem_map_of_mem hp, ?_⟩
      have hlen : q.length = (q.map Nibble.toByte).length := by simp
      rw [← List.drop_drop, ← hrest, hlen, List.drop_left] at hpre
      rw [← hrest, List.map_append]
      exact (List.prefix_append_right_inj _).mpr hpre
  | _ => exact fun key _ => ⟨[], by simp [cut], List.nil_prefix⟩

/-- Every position is on the path of a key. -/
theorem exists_key_of_follows {limits : FrontierLimits} {t : Trie} {depth : Nat}
    {keys : List WeightedKey} (hn : t.Normal) (hk : keys ≠ []) (h : Follows E limits t depth keys) :
    ∀ p ∈ cut E limits t depth keys, ∃ key ∈ keys, p.map Nibble.toByte <+: key.1.drop depth := by
  obtain ⟨key₀, hkey₀⟩ := List.exists_mem_of_ne_nil _ hk
  induction t generalizing depth keys key₀ with
  | branch c ih =>
    intro p hp
    by_cases hd : Divides E limits (branch c) depth keys
    swap
    · obtain rfl : p = [] := by simpa [cut_of_not_divides hn hd] using hp
      exact ⟨key₀, hkey₀, List.nil_prefix⟩
    · rw [cut_of_divides hn hd] at hp
      obtain ⟨i, r, rfl, hne, hr⟩ := mem_below_branch.mp hp
      obtain ⟨key₁, hkey₁⟩ := List.exists_mem_of_ne_nil _ hne
      obtain ⟨key, hkey, hpre⟩ := ih i (hn.2 i) hne (h hd i hne) key₁ hkey₁ r hr
      obtain ⟨hmem, hget⟩ := mem_childKeys.mp hkey
      refine ⟨key, hmem, ?_⟩
      rw [drop_of_getElem? hget, List.map_cons]
      exact List.cons_prefix_cons.mpr ⟨rfl, hpre⟩
  | ext q c ih =>
    intro p hp
    by_cases hd : Divides E limits (ext q c) depth keys
    swap
    · obtain rfl : p = [] := by simpa [cut_of_not_divides hn hd] using hp
      exact ⟨key₀, hkey₀, List.nil_prefix⟩
    · obtain ⟨hpath, hbelow⟩ := h hd
      rw [cut_of_divides hn hd] at hp
      obtain ⟨r, hr, rfl⟩ := List.mem_map.mp hp
      obtain ⟨key, hkey, hpre⟩ := ih hn.2.2 hk hbelow key₀ hkey₀ r hr
      obtain ⟨rest, hrest⟩ := hpath key hkey
      have hlen : q.length = (q.map Nibble.toByte).length := by simp
      rw [← List.drop_drop, ← hrest, hlen, List.drop_left] at hpre
      refine ⟨key, hkey, ?_⟩
      rw [← hrest, List.map_append]
      exact (List.prefix_append_right_inj _).mpr hpre
  | _ =>
    intro p hp
    obtain rfl : p = [] := by simpa [cut] using hp
    exact ⟨key₀, hkey₀, List.nil_prefix⟩

/-- A key that leaves the path of an extension reaches no position. -/
theorem exists_key_of_not_follows {limits : FrontierLimits} {t : Trie} {depth : Nat}
    {keys : List WeightedKey} (hn : t.Normal) (h : ¬ Follows E limits t depth keys) :
    ∃ key ∈ keys, ∀ p ∈ cut E limits t depth keys,
      ¬ p.map Nibble.toByte <+: key.1.drop depth := by
  induction t generalizing depth keys with
  | branch c ih =>
    rw [Follows] at h
    push Not at h
    obtain ⟨hd, i, hne, hi⟩ := h
    obtain ⟨key, hkey, hout⟩ := ih i (hn.2 i) hi
    obtain ⟨hmem, hget⟩ := mem_childKeys.mp hkey
    rw [cut_of_divides hn hd]
    refine ⟨key, hmem, fun p hp hpre => ?_⟩
    obtain ⟨j, r, rfl, _, hr⟩ := mem_below_branch.mp hp
    rw [drop_of_getElem? hget, List.map_cons] at hpre
    obtain ⟨hij, hpre'⟩ := List.cons_prefix_cons.mp hpre
    obtain rfl := Nibble.toByte_injective hij
    exact hout r hr hpre'
  | ext q c ih =>
    rw [Follows, Classical.not_imp] at h
    obtain ⟨hd, hnot⟩ := h
    rw [cut_of_divides hn hd, below]
    by_cases hpath : ∀ key ∈ keys, q.map Nibble.toByte <+: key.1.drop depth
    · obtain ⟨key, hkey, hout⟩ := ih hn.2.2 fun hf => hnot ⟨hpath, hf⟩
      obtain ⟨rest, hrest⟩ := hpath key hkey
      refine ⟨key, hkey, fun p hp hpre => ?_⟩
      obtain ⟨r, hr, rfl⟩ := List.mem_map.mp hp
      have hlen : q.length = (q.map Nibble.toByte).length := by simp
      refine hout r hr ?_
      rw [← List.drop_drop, ← hrest, hlen, List.drop_left]
      rw [← hrest, List.map_append] at hpre
      exact (List.prefix_append_right_inj _).mp hpre
    · push Not at hpath
      obtain ⟨key, hkey, hleave⟩ := hpath
      refine ⟨key, hkey, fun p hp hpre => ?_⟩
      obtain ⟨r, _, rfl⟩ := List.mem_map.mp hp
      rw [List.map_append] at hpre
      exact hleave ((List.prefix_append _ _).trans hpre)
  | _ => exact absurd trivial h

/-! ## The partition -/

/-- The chunks partition the keys. -/
structure Partitions (keys : List (B256 × UInt64)) (chunks : List FrontierChunk) : Prop where
  sorted : chunks.Pairwise fun a b => a.prefixNibs ≤ b.prefixNibs
  apart : chunks.Pairwise fun a b =>
    ¬ a.prefixNibs <+: b.prefixNibs ∧ ¬ b.prefixNibs <+: a.prefixNibs
  cover : ∀ key ∈ keys, ∃! chunk, chunk ∈ chunks ∧ chunk.prefixNibs <+: Hp.toNibs key.1.bytes
  used : ∀ chunk ∈ chunks, ∃ key ∈ keys, chunk.prefixNibs <+: Hp.toNibs key.1.bytes

theorem uniform_nibbleKeys (keys : List (B256 × UInt64)) : Uniform 64 (nibbleKeys keys) := by
  intro key hkey
  obtain ⟨key', _, hn⟩ := mem_nibbleKeys.mp ⟨key.2, hkey⟩
  refine ⟨Hp.keyNibs key'.1.bytes, ?_, ?_⟩
  · rw [Hp.map_toByte_keyNibs, hn]
  · rw [Hp.length_keyNibs, key'.1.length_bytes]

theorem map_prefixNibs {t : Trie} {qs : List Mark} {chunks : List FrontierChunk}
    (h : List.Forall₂ (fun q chunk => ChunkOf E t q.1 chunk) qs chunks) :
    chunks.map FrontierChunk.prefixNibs = qs.map fun q => q.1.map Nibble.toByte := by
  induction h with
  | nil => rfl
  | cons hq _ ih => rw [List.map_cons, List.map_cons, hq.prefixNibs, ih]

/-- Whatever the keys are, the chunks are sorted and none is above another. -/
theorem chunks_sorted_apart {m : Mpt} {t : Trie} {id : NodeId} {qs : List Mark}
    (hcut : Cuts E m t id qs)
    (hsort : qs.Pairwise fun a b => a.1.map Nibble.toByte ≤ b.1.map Nibble.toByte)
    {chunks : List FrontierChunk}
    (h : List.Forall₂ (fun q chunk => ChunkOf E t q.1 chunk) qs chunks) :
    (chunks.Pairwise fun a b => a.prefixNibs ≤ b.prefixNibs) ∧ chunks.Pairwise fun a b =>
      ¬ a.prefixNibs <+: b.prefixNibs ∧ ¬ b.prefixNibs <+: a.prefixNibs := by
  have hmap := map_prefixNibs h
  constructor
  · rw [← List.pairwise_map (R := (· ≤ ·)) (f := FrontierChunk.prefixNibs), hmap,
      List.pairwise_map]
    exact hsort
  · rw [← List.pairwise_map (R := fun a b => ¬ a <+: b ∧ ¬ b <+: a)
      (f := FrontierChunk.prefixNibs), hmap, List.pairwise_map]
    refine hcut.apart.imp fun hab => ?_
    rw [List.prefix_map_iff_of_injective Nibble.toByte_injective,
      List.prefix_map_iff_of_injective Nibble.toByte_injective]
    exact hab

/-- The chunks partition the keys if and only if the keys follow every extension that is
divided. -/
theorem partitions_iff {m : Mpt} {t : Trie} (hr : Represents E m t) (hn : t.Normal)
    {keys : List (B256 × UInt64)} (hk : keys ≠ []) {limits : FrontierLimits} {fr : MptFrontier}
    (hfr : (buildFrontierWeighted E keys limits m).1 = .ok fr) :
    Partitions keys fr.chunks ↔ Follows E limits t 0 (nibbleKeys keys) := by
  obtain ⟨qs, hcut, _, hchunks, hperm, hsort⟩ := of_buildFrontierWeighted hr hn hk hfr
  obtain ⟨hsorted, hapart⟩ := chunks_sorted_apart hcut hsort hchunks
  have hchunk : ∀ p ∈ cut E limits t 0 (nibbleKeys keys), ∃ chunk ∈ fr.chunks,
      chunk.prefixNibs = p.map Nibble.toByte := by
    intro p hp
    obtain ⟨q, hq, rfl⟩ := List.mem_map.mp (hperm.mem_iff.mpr hp)
    obtain ⟨chunk, hc, hof⟩ := exists_chunk_of_mem hchunks hq
    exact ⟨chunk, hc, hof.prefixNibs⟩
  have hposition : ∀ chunk ∈ fr.chunks, ∃ p ∈ cut E limits t 0 (nibbleKeys keys),
      chunk.prefixNibs = p.map Nibble.toByte := by
    intro chunk hc
    obtain ⟨q, hq, hof⟩ := exists_mark_of_mem hchunks hc
    exact ⟨q.1, hperm.mem_iff.mp (List.mem_map_of_mem hq), hof.prefixNibs⟩
  constructor
  · intro h
    by_contra hnot
    obtain ⟨⟨nibs, w⟩, hkey, hout⟩ := exists_key_of_not_follows hn hnot
    obtain ⟨key, hmem, rfl⟩ := mem_nibbleKeys.mp ⟨w, hkey⟩
    obtain ⟨chunk, ⟨hc, hpre⟩, _⟩ := h.cover key hmem
    obtain ⟨p, hp, heq⟩ := hposition chunk hc
    exact hout p hp (heq ▸ hpre)
  · intro h
    refine ⟨hsorted, hapart, fun key hmem => ?_, fun chunk hc => ?_⟩
    · obtain ⟨w, hkey⟩ := mem_nibbleKeys.mpr ⟨key, hmem, rfl⟩
      obtain ⟨p, hp, hpre⟩ := exists_cut_of_follows hn (uniform_nibbleKeys keys) h _ hkey
      obtain ⟨chunk, hc, heq⟩ := hchunk p hp
      refine ⟨chunk, ⟨hc, heq ▸ hpre⟩, fun chunk' hc' => ?_⟩
      -- two prefixes of one key are comparable
      by_contra hne
      have : Std.Symm fun a b : FrontierChunk =>
          ¬ a.prefixNibs <+: b.prefixNibs ∧ ¬ b.prefixNibs <+: a.prefixNibs :=
        ⟨fun _ _ h => ⟨h.2, h.1⟩⟩
      have hboth := hapart.forall hc'.1 hc hne
      rcases List.prefix_or_prefix_of_prefix hc'.2 (heq ▸ hpre : chunk.prefixNibs <+: _) with h | h
      · exact hboth.1 h
      · exact hboth.2 h
    · obtain ⟨p, hp, heq⟩ := hposition chunk hc
      obtain ⟨⟨nibs, w⟩, hkey, hpre⟩ := exists_key_of_follows hn (mt nibbleKeys_eq_nil.mp hk) h p hp
      obtain ⟨key, hmem, rfl⟩ := mem_nibbleKeys.mp ⟨w, hkey⟩
      exact ⟨key, hmem, heq ▸ hpre⟩

/-! ## A key that leaves an extension -/

/-- The path of a leaf below the first two nibbles. -/
def zerosBelow : List Nibble := List.replicate 62 0

/-- Two keys that share their first nibble. -/
def sharedTrie : Trie := ext [1] (fork 0 (leaf zerosBelow [5]) 1 (leaf zerosBelow [5]))

def sharedArena : Mpt where
  rootId := 0
  cells := [⟨.extension (Hp.encode [1] false) 1, none⟩, ⟨.branch (forkSlots 0 2 1 3), none⟩,
    ⟨.leaf (Hp.encode zerosBelow true) [5], none⟩, ⟨.leaf (Hp.encode zerosBelow true) [5], none⟩]

def sharedLeaf : B256 :=
  B256.ofNat 0x589a78e33f84c8ee2457074b03c3abda733e53c782a49f9d6d98f568af88032a

def sharedBranch : B256 :=
  B256.ofNat 0xe0cbcfa2f777ae45ab49adadb7ade5f0e54f380af94977ff4135845956acb742

/-- `keccak256` of the leaf, the branch and the root. -/
def sharedEnv : Env := Env.ofTable
  [([0xe2, 0xa0, 0x20] ++ List.replicate 31 0 ++ [5], sharedLeaf),
   ([0xf8, 0x51, 0xa0] ++ sharedLeaf.bytes ++ [0xa0] ++ sharedLeaf.bytes ++ List.replicate 15 0x80,
    sharedBranch),
   ([0xe2, 0x11, 0xa0] ++ sharedBranch.bytes,
    B256.ofNat 0x623f7d06112a02178cfb786a14d74ff5b793106a3086fa25f87f8f93c8ead5d2)]

theorem isTrie_sharedTrie : IsTrie 64 sharedTrie where
  normal := ⟨by decide, trivial,
    two_le_occupied (i := 0) (j := 1) (by decide) (by simp) (by simp),
    fork_forall trivial trivial trivial 0 1⟩
  resolved := fork_forall trivial trivial trivial 0 1
  sized := ⟨by decide, by decide, fork_forall (Q := Sized 62) (t := leaf zerosBelow [5])
    (u := leaf zerosBelow [5]) trivial rfl rfl 0 1⟩

theorem represents_sharedTrie : Represents sharedEnv sharedArena sharedTrie := by
  refine ⟨show 0 ∈ Finset.range 4 by decide, none, 1, rfl, .inl rfl, by simp [fork], ?_⟩
  exact rep_fork (A := {2}) (B := {3}) rfl (by decide)
    ⟨Finset.mem_singleton_self _, none, rfl, .inl rfl⟩
    ⟨Finset.mem_singleton_self _, none, rfl, .inl rfl⟩ (by simp) (by simp) (by decide)
    (show 1 ∈ (Finset.range 4).erase 0 by decide)
    (show {2} ⊆ ((Finset.range 4).erase 0).erase 1 by decide)
    (show {3} ⊆ ((Finset.range 4).erase 0).erase 1 by decide)

/-- The frontier of the trie around a key that leaves the extension at the root. -/
def sharedFrontier (key : B256) : MptFrontier :=
  match (buildFrontierWeighted sharedEnv [(key, 1)] ⟨0, 0, 0⟩ sharedArena).1 with
  | .ok fr => fr
  | .error _ => ⟨0, [], []⟩

/-- The only chunk has the prefix `[1, 0]`, and the key starts with `0`. -/
theorem chunk_outside_key :
    IsTrie 64 sharedTrie ∧ Represents sharedEnv sharedArena sharedTrie ∧
    (buildFrontierWeighted sharedEnv [(B256.ofNat 0, 1)] ⟨0, 0, 0⟩ sharedArena).1 =
      .ok (sharedFrontier (B256.ofNat 0)) ∧
    ¬ Partitions [(B256.ofNat 0, 1)] (sharedFrontier (B256.ofNat 0)).chunks := by
  refine ⟨isTrie_sharedTrie, represents_sharedTrie, by decide +kernel, fun h => ?_⟩
  have hnone : ∀ chunk ∈ (sharedFrontier (B256.ofNat 0)).chunks,
      ¬ chunk.prefixNibs <+: Hp.toNibs (B256.ofNat 0).bytes := by
    decide
  obtain ⟨chunk, ⟨hc, hpre⟩, _⟩ := h.cover _ (List.mem_singleton_self _)
  exact hnone chunk hc hpre

theorem partitions_iff_shared :
    (buildFrontierWeighted sharedEnv [(B256.ofNat 0, 1)] ⟨0, 0, 0⟩ sharedArena).1 =
      .ok (sharedFrontier (B256.ofNat 0)) ∧
    (Partitions [(B256.ofNat 0, 1)] (sharedFrontier (B256.ofNat 0)).chunks ↔
      Follows sharedEnv ⟨0, 0, 0⟩ sharedTrie 0 (nibbleKeys [(B256.ofNat 0, 1)])) := by
  have hfr : (buildFrontierWeighted sharedEnv [(B256.ofNat 0, 1)] ⟨0, 0, 0⟩ sharedArena).1 =
      .ok (sharedFrontier (B256.ofNat 0)) := by
    decide +kernel
  exact ⟨hfr, partitions_iff represents_sharedTrie isTrie_sharedTrie.normal (by simp) hfr⟩

end Mpt
end CenoReth
