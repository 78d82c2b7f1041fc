/-
Building a frontier.

`build_frontier` returns the trie with the subtrees at the boundaries replaced by
their digests, and each chunk is the encoding of the subtree at its prefix.  On a
trie in normal form only two things stop it: weights that overflow, and the
assertion of a debug build that the frontier has the root of the trie.
-/
import CenoReth.Mpt.Cut

namespace CenoReth
namespace Mpt

open Patricia Patricia.Radix Trie

variable {E : Env}

/-! ## Assignments for a list of positions -/

/-- Put `f p` at every position `p` of the list, over an assignment. -/
def assign (D : List (List Nibble)) (f : List Nibble → Trie) (A : Assignment 16 Bytes B256) :
    Assignment 16 Bytes B256 :=
  fun p => if p ∈ D then some (f p) else A p

theorem update_assign (D : List (List Nibble)) (f : List Nibble → Trie)
    (A : Assignment 16 Bytes B256) (p : List Nibble) :
    Function.update (assign D f A) p (some (f p)) = assign (p :: D) f A := by
  funext q
  by_cases hq : q = p
  · subst hq
    simp [assign]
  · simp [assign, hq]

/-- The subtree at a position. -/
def site (t : Trie) (p : List Nibble) : Trie := (t.subtree p).getD null

theorem site_eq {t s : Trie} {p : List Nibble} (h : t.subtree p = some s) : site t p = s := by
  simp [site, h]

variable (E) in
/-- What stands for the subtree at a position in the frontier. -/
def sealed (t : Trie) (p : List Nibble) : Trie := slotTrie E (site t p) (Trie.hash E (site t p))

variable (E) in
/-- The frontier of a trie. -/
def frontierOf (t : Trie) (D : List (List Nibble)) : Trie :=
  t.patch (assign D (sealed E t) fun _ => none)

theorem hash_slotTrie (old : Trie) (newRoot : B256) :
    Trie.hash E (slotTrie E old newRoot) = newRoot := by
  unfold slotTrie
  split
  · rename_i h
    split <;> exact h.symm
  · rfl

/-- Positions none of which is above another. -/
def Scattered (D : List (List Nibble)) : Prop := ∀ p ∈ D, ∀ q ∈ D, p <+: q → p = q

theorem Scattered.free {D : List (List Nibble)} (h : Scattered D) {f : List Nibble → Trie}
    {D' : List (List Nibble)} (hD : ∀ p ∈ D', p ∈ D) {p : List Nibble} (hp : p ∈ D) :
    Free (assign D' f fun _ => none) p := by
  intro q hq hne
  have hmem : q ∈ D := by
    by_contra hn
    exact hq (if_neg fun hq' => hn (hD q hq'))
  exact ⟨fun hpre => hne (h q hmem p hp hpre), fun hpre => hne (h p hp q hmem hpre).symm⟩

theorem Cuts.scattered {m : Mpt} {t : Trie} {id : NodeId} {qs : List Mark} (h : Cuts E m t id qs) :
    Scattered (qs.map Prod.fst) := by
  intro p hp q hq hpre
  obtain ⟨a, ha, rfl⟩ := List.mem_map.mp hp
  obtain ⟨b, hb, rfl⟩ := List.mem_map.mp hq
  by_contra hne
  have hab : a ≠ b := fun h => hne (h ▸ rfl)
  exact (h.apart.forall ha hb hab).1 hpre

/-! ## Chunks -/

/-- A chunk carries the subtree at its prefix. -/
structure ChunkOf (E : Env) (t : Trie) (p : List Nibble) (chunk : FrontierChunk) : Prop where
  prefixNibs : chunk.prefixNibs = p.map Nibble.toByte
  expectedRoot : chunk.expectedRoot = Trie.hash E (site t p)
  bytes : chunk.bytes = encoding E (site t p)

theorem frontierChunk_spec {m₀ m : Mpt} {t : Trie} {q : Mark} (hd : depth t ≤ m₀.size)
    (hm : Marks E m₀ t q) (hdet : Detachable E t q ∨ q.2 = some m₀.rootId) (hf : Fills E m₀ m) :
    ∃ chunk m', frontierChunk E (q.1.map Nibble.toByte, q.2) m = (.ok chunk, m') ∧
      Fills E m m' ∧ ChunkOf E t q.1 chunk := by
  obtain ⟨p, o⟩ := q
  obtain ⟨s, hs, hmark⟩ := hm
  cases o with
  | none =>
    obtain rfl : s = null := hmark
    exact ⟨_, m, rfl, Fills.refl m, rfl, by rw [site_eq hs]; rfl, by rw [site_eq hs]; rfl⟩
  | some j =>
    have hds := depth_le_of_subtree hs hd
    obtain ⟨b, m₁, hm₁, hb, hf₁⟩ := isHashAddressed_spec hmark hds hf
    have hgo : ¬ (b = false ∧ j ≠ m₁.rootId) := by
      rintro ⟨rfl, hj⟩
      rcases hdet with hdet | hroot
      · exact absurd (hb.mpr (hdet s hs (by simp))) (by simp)
      · have hroot₁ : m₁.rootId = m₀.rootId := (hf.trans hf₁).rootId
        exact hj ((Option.some.inj hroot).trans hroot₁.symm)
    have hf01 := hf.trans hf₁
    obtain ⟨m₂, hm₂, hf₂⟩ := subtreeHash_spec (hmark.fills hf01) (hf01.size ▸ hds)
    have hf02 := hf01.trans hf₂
    have hn := subtreeNumNodes_spec (hf02.size ▸ hds) j m₂ hmark hf02
    obtain ⟨m₃, hm₃, hf₃⟩ := encodedSubtrie_spec hmark hds hf02
    refine ⟨⟨p.map Nibble.toByte, Trie.hash E s, nodeCount s, encoding E s⟩, m₃, ?_,
      (hf₁.trans hf₂).trans hf₃, rfl, by rw [site_eq hs], by rw [site_eq hs]⟩
    refine (Exec.bind_ok hm₁).trans ((Exec.bind_ok (Exec.read_apply _ m₁)).trans ?_)
    rw [if_neg hgo]
    have hcount : withStack (fun fuel => subtreeNumNodes fuel j) m₂ = (.ok (nodeCount s), m₂) :=
      (Exec.bind_ok (Exec.read_apply _ m₂)).trans hn
    exact (Exec.bind_ok hm₂).trans ((Exec.bind_ok hcount).trans (Exec.bind_ok hm₃))

theorem onArena_ok {α : Type} {other other' : Mpt} {x : TrieM α} {a : α}
    (h : x other = (.ok a, other')) (m : Mpt) : onArena other x m = (.ok (a, other'), m) := by
  unfold onArena
  rw [h]

/-- The loop over the boundaries. -/
theorem frontierChunks_spec {m₀ : Mpt} {t : Trie} {all : List Mark}
    (hd : depth t ≤ m₀.size) (hcut : Cuts E m₀ t m₀.rootId all) :
    ∀ (qs : List Mark) (D : List (List Nibble)) (m mf : Mpt), (∀ q ∈ qs, q ∈ all) →
      (∀ p ∈ D, p ∈ all.map Prod.fst) → (∀ q ∈ qs, q.1 ∉ D) → qs.Pairwise Apart →
      Fills E m₀ m → Represents E mf (frontierOf E t D) →
      ∃ chunks mf' m', frontierChunks E (boundaries [] qs) mf m = (.ok (chunks, mf'), m') ∧
        Fills E m m' ∧ List.Forall₂ (fun q chunk => ChunkOf E t q.1 chunk) qs chunks ∧
        Represents E mf' (frontierOf E t ((qs.map Prod.fst).reverse ++ D))
  | [], D, m, mf, _, _, _, _, _, hr => ⟨[], mf, m, rfl, Fills.refl m, .nil, hr⟩
  | q :: qs, D, m, mf, hall, hD, hnew, hp, hf, hr => by
    have hq := hall q (by simp)
    have hmark := hcut.marks q hq
    have hdet : Detachable E t q ∨ q.2 = some m₀.rootId := by
      rcases hcut.detachable with hone | hdet
      · rw [hone, List.mem_singleton] at hq
        exact .inr (by rw [hq])
      · exact .inl (hdet q hq)
    obtain ⟨chunk, m₁, hm₁, hf₁, hchunk⟩ := frontierChunk_spec hd hmark hdet hf
    have hmem : q.1 ∈ all.map Prod.fst := List.mem_map_of_mem hq
    obtain ⟨s, hs, _⟩ := hmark
    have hA : (assign D (sealed E t) fun _ => none) q.1 = none := if_neg (hnew q (by simp))
    obtain ⟨mf₁, hmf₁, hr₁⟩ := replaceFrontierSlot_patch hr (hcut.scattered.free hD hmem) hs
      chunk.expectedRoot
    rw [hA, Option.getD_none] at hmf₁ hr₁
    have hroot : chunk.expectedRoot = Trie.hash E s := by rw [hchunk.expectedRoot, site_eq hs]
    have hseal : slotTrie E s chunk.expectedRoot = sealed E t q.1 := by
      rw [sealed, site_eq hs, hroot]
    rw [hseal, update_assign] at hr₁
    rw [← hroot, ← hchunk.prefixNibs] at hmf₁
    obtain ⟨hapart, hp'⟩ := List.pairwise_cons.mp hp
    obtain ⟨chunks, mf', m', hm', hf', hchunks, hr'⟩ := frontierChunks_spec hd hcut qs
      (q.1 :: D) m₁ mf₁ (fun r hr => hall r (by simp [hr]))
      (fun p hp => (List.mem_cons.mp hp).elim (fun h => h ▸ hmem) (hD p))
      (fun r hr hmem' => (List.mem_cons.mp hmem').elim
        (fun h => (hapart r hr).1 (h ▸ List.prefix_rfl)) (hnew r (by simp [hr])))
      hp' (hf.trans hf₁) hr₁
    refine ⟨chunk :: chunks, mf', m', ?_, hf₁.trans hf', .cons hchunk hchunks, ?_⟩
    · refine (Exec.bind_ok (by simpa using hm₁)).trans ?_
      exact (Exec.bind_ok (onArena_ok hmf₁ m₁)).trans (Exec.bind_ok hm')
    · simpa using hr'

/-! ## The frontier -/

theorem exists_mark_of_mem {T : Trie} {qs : List Mark} {chunks : List FrontierChunk}
    (h : List.Forall₂ (fun q chunk => ChunkOf E T q.1 chunk) qs chunks) {chunk : FrontierChunk}
    (hmem : chunk ∈ chunks) : ∃ q ∈ qs, ChunkOf E T q.1 chunk := by
  induction h with
  | nil => simp at hmem
  | @cons q _ qs chunks hq _ ih =>
    rcases List.mem_cons.mp hmem with rfl | hmem
    · exact ⟨q, by simp, hq⟩
    · obtain ⟨q', hq', hof⟩ := ih hmem
      exact ⟨q', by simp [hq'], hof⟩

theorem exists_chunk_of_mem {T : Trie} {qs : List Mark} {chunks : List FrontierChunk}
    (h : List.Forall₂ (fun q chunk => ChunkOf E T q.1 chunk) qs chunks) {q : Mark}
    (hmem : q ∈ qs) : ∃ chunk ∈ chunks, ChunkOf E T q.1 chunk := by
  induction h with
  | nil => simp at hmem
  | @cons _ chunk qs chunks hq _ ih =>
    rcases List.mem_cons.mp hmem with rfl | hmem
    · exact ⟨chunk, by simp, hq⟩
    · obtain ⟨chunk', hc, hof⟩ := ih hmem
      exact ⟨chunk', by simp [hc], hof⟩

/-- The order of the boundaries does not matter. -/
theorem Cuts.perm {m : Mpt} {t : Trie} {id : NodeId} {qs qs' : List Mark} (h : Cuts E m t id qs)
    (hp : qs'.Perm qs) : Cuts E m t id qs' where
  marks q hq := h.marks q (hp.mem_iff.mp hq)
  apart := (hp.pairwise_iff fun h => ⟨h.2, h.1⟩).mpr h.apart
  detachable := by
    rcases h.detachable with rfl | hdet
    · exact .inl (List.perm_singleton.mp hp)
    · exact .inr fun q hq => hdet q (hp.mem_iff.mp hq)
  firm hn q hq := h.firm hn q (hp.mem_iff.mp hq)

/-- The order of the positions does not matter. -/
theorem frontierOf_congr {t : Trie} (D D' : List (List Nibble)) (h : ∀ p, p ∈ D ↔ p ∈ D') :
    frontierOf E t D = frontierOf E t D' := by
  unfold frontierOf assign
  simp only [h]

/-- A frontier around the keys, with a chunk for each position at which the trie is cut. -/
structure FrontierAround (E : Env) (limits : FrontierLimits) (m : Mpt) (t : Trie)
    (keys : List (B256 × UInt64)) (qs : List Mark) (frontier : MptFrontier) : Prop where
  cuts : Cuts E m t m.rootId qs
  bytes : frontier.bytes = encoding E (frontierOf E t (qs.map Prod.fst))
  chunks : List.Forall₂ (fun q chunk => ChunkOf E t q.1 chunk) qs frontier.chunks
  positions : (qs.map Prod.fst).Perm (cut E limits t 0 (nibbleKeys keys))
  sorted : qs.Pairwise fun a b => a.1.map Nibble.toByte ≤ b.1.map Nibble.toByte

/-- The frontier has another root than the trie. -/
def LosesRoot (E : Env) (m : Mpt) (t : Trie) : Prop :=
  ∃ qs, Cuts E m t m.rootId qs ∧
    Trie.hash E (frontierOf E t (qs.map Prod.fst)) ≠ Trie.hash E t

theorem avoids_onArena {α : Type} {bad : Halt → Prop} {x : TrieM α} {other : Mpt}
    {Q : α → Mpt → Prop} (h : Exec.Avoids bad x other Q) (m : Mpt) :
    Exec.Avoids bad (onArena other x) m fun r m' => Q r.1 r.2 ∧ m' = m := by
  unfold onArena
  rcases hx : x other with ⟨e | a, other'⟩
  · refine ⟨fun e' m' he => ?_, fun r m' hr => ?_⟩
    · obtain ⟨rfl, -⟩ : e = e' ∧ m = m' := by simpa [hx] using he
      exact h.1 e other' hx
    · simp at hr
  · refine ⟨fun e' m' he => ?_, fun r m' hr => ?_⟩
    · simp at he
    · obtain ⟨rfl, rfl⟩ : (a, other') = r ∧ m = m' := by simpa [hx] using hr
      exact ⟨h.2 a other' hx, rfl⟩

/-- The assertion fails only if the frontier lost the root. -/
theorem avoids_debugAssertRoot {mf : Mpt} {tf : Trie} (hr : Represents E mf tf) (root : B256) :
    Exec.Avoids (fun e => ¬ (e = .panic ∧ E.debugAssertions = true ∧ Trie.hash E tf ≠ root))
      (debugAssertRoot E root) mf fun _ mf' => Represents E mf' tf := by
  unfold debugAssertRoot
  split
  · rename_i hdebug
    obtain ⟨mf', hmf', hr'⟩ := hash_represents hr
    refine Exec.avoids_bind_of_ok hmf' ?_
    split
    · exact Exec.avoids_pure hr'
    · rename_i hne
      exact Exec.avoids_fail fun h => h ⟨rfl, hdebug, hne⟩
  · exact Exec.avoids_pure hr

/-- `build_frontier_weighted` on a trie in normal form. -/
theorem buildFrontierWeighted_spec {m : Mpt} {t : Trie} (hr : Represents E m t) (hn : t.Normal)
    {keys : List (B256 × UInt64)} (hk : keys ≠ []) (limits : FrontierLimits) :
    Exec.Avoids (fun e => ¬ (e = .panic ∧ (Overflows E (nibbleKeys keys) ∨
        E.debugAssertions = true ∧ LosesRoot E m t)))
      (buildFrontierWeighted E keys limits) m
      fun frontier _ => ∃ qs, FrontierAround E limits m t keys qs frontier := by
  obtain ⟨merged, hmerge⟩ := merges_sortedKeys E keys
  have hne : merged ≠ [] := fun h => hk (nibbleKeys_eq_nil.mp (hmerge.alike.eq_nil_iff.mp h))
  unfold buildFrontierWeighted
  rcases hmerge.result with hok | ⟨herr, ho⟩
  swap
  · rw [herr]
    exact ⟨fun e m' he hbad => hbad ⟨by simpa using (Prod.mk.inj he).1.symm, .inl ho⟩,
      fun _ _ ha => by cases (Prod.mk.inj ha).1⟩
  rw [hok]
  refine Exec.avoids_bind_of_ok (Exec.ofExcept_apply _ m) ?_
  rw [if_neg hne]
  refine Exec.avoids_bind_of_ok (Exec.read_apply _ m) ?_
  have hcollect := collectFrontierBoundaries_spec limits hr.depth_le hr.depth_le hn m.rootId []
    merged m (Rep.reads hr) (Fills.refl m)
  refine Exec.Avoids.bind (Exec.avoids_bind_of_ok (Exec.read_apply _ m) (hcollect.mono ?_)) ?_
  · exact fun e hbad ⟨hpanic, ho⟩ => hbad ⟨hpanic, .inl (ho.mono hmerge.weight_le)⟩
  rintro _ m₁ ⟨qs, rfl, hf₁, hcut, hpos⟩
  -- the boundaries are sorted by their prefix
  let qs' := qs.insertionSort fun a b => a.1.map Nibble.toByte ≤ b.1.map Nibble.toByte
  have hperm : qs'.Perm qs := List.perm_insertionSort _ _
  have hcut' := hcut.perm hperm
  have hsort : (boundaries [] qs).insertionSort (fun a b => a.1 ≤ b.1) = boundaries [] qs' :=
    (List.map_insertionSort _ _ _ _ fun a _ b _ => by simp).symm
  have hr₀ : Represents E m₁ (frontierOf E t []) := by
    have hnone : frontierOf E t [] = t := by
      unfold frontierOf assign
      simp
    rw [hnone]
    exact hr.fills hf₁
  obtain ⟨chunks, mf, m₂, hm₂, hf₂, hchunks, hrf⟩ := frontierChunks_spec hr.depth_le hcut' qs' []
    m₁ m₁ (fun _ h => h) (by simp) (by simp) hcut'.apart hf₁ hr₀
  rw [List.append_nil, frontierOf_congr _ (qs'.map Prod.fst) (by simp)] at hrf
  refine Exec.avoids_bind_of_ok (Exec.read_apply _ m₁) ?_
  rw [hsort]
  refine Exec.avoids_bind_of_ok hm₂ ?_
  obtain ⟨m₃, hm₃, -⟩ := hash_represents (hr.fills (hf₁.trans hf₂))
  refine Exec.avoids_bind_of_ok hm₃ ?_
  refine ((avoids_onArena (avoids_debugAssertRoot hrf _) m₃).mono ?_).bind ?_
  · exact fun e hbad ⟨hpanic, hdebug, hroot⟩ => hbad ⟨hpanic, .inr ⟨hdebug, qs', hcut', hroot⟩⟩
  rintro ⟨_, mf⟩ _ ⟨hrf, rfl⟩
  have hcount := subtreeNumNodes_spec hrf.depth_le mf.rootId mf (Rep.reads hrf) (Fills.refl mf)
  obtain ⟨mf', hmf', -⟩ := encodeTrie_spec (Rep.reads hrf) hrf.depth_le
  have hfinal : (do
      let numNodes ← withStack fun fuel => subtreeNumNodes fuel mf.rootId
      let bytes ← encodeTrie E
      pure (numNodes, bytes) : TrieM (Nat × Bytes)) mf =
        (.ok (nodeCount (frontierOf E t (qs'.map Prod.fst)),
          encoding E (frontierOf E t (qs'.map Prod.fst))), mf') :=
    (Exec.bind_ok ((Exec.bind_ok (Exec.read_apply _ mf)).trans hcount)).trans (Exec.bind_ok hmf')
  refine Exec.avoids_bind_of_ok (onArena_ok hfinal _)
    (Exec.avoids_pure ⟨qs', hcut', rfl, hchunks, ?_, List.pairwise_insertionSort _ _⟩)
  rw [← hmerge.alike.cut_eq, ← show [].length = 0 from rfl, ← hpos]
  exact hperm.map _

/-- The frontier that was returned. -/
theorem of_buildFrontierWeighted {m : Mpt} {t : Trie} (hr : Represents E m t) (hn : t.Normal)
    {keys : List (B256 × UInt64)} (hk : keys ≠ []) {limits : FrontierLimits} {fr : MptFrontier}
    (hfr : (buildFrontierWeighted E keys limits m).1 = .ok fr) :
    ∃ qs, FrontierAround E limits m t keys qs fr :=
  (buildFrontierWeighted_spec hr hn hk limits).2 fr _ (Exec.eq_of_fst hfr)

/-- `build_frontier_weighted` without keys: the whole trie, and no chunks. -/
theorem buildFrontierWeighted_nil {m : Mpt} {t : Trie} (hr : Represents E m t)
    (limits : FrontierLimits) :
    ∃ m', buildFrontierWeighted E [] limits m = (.ok ⟨m.size, encoding E t, []⟩, m') := by
  obtain ⟨m', hm', _⟩ := encodeTrie_spec (Rep.reads hr) hr.depth_le
  exact ⟨m', (Exec.bind_ok (Exec.read_apply _ m)).trans (Exec.bind_ok hm')⟩

end Mpt
end CenoReth
