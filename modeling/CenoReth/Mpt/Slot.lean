/-
Replacing a slot of a frontier.

`replace_frontier_slot` does to the arena what `patch` does to the trie: the
subtree at the position goes away, and a digest or nothing takes its place.  It
succeeds exactly when the position exists and the subtree there has the expected
hash.
-/
import CenoReth.Mpt.Frontier
import CenoReth.Mpt.Refine
import CenoReth.Patricia.Position

namespace CenoReth
namespace Mpt

open Patricia Patricia.Radix Trie

variable {E : Env}

variable (E) in
/-- What stands for a chunk with the given root.  A slot that was empty stays empty, and
the node of a chunk that became empty is erased. -/
def slotTrie (old : Trie) (newRoot : B256) : Trie :=
  if newRoot = E.emptyRootHash then (if old.isNull then null else hole) else digest newRoot

theorem Pending.invalidate {m m' : Mpt} {t' : Trie} {id : NodeId} {F : Finset NodeId}
    (h : Pending E m m' t' id F) (hid : id ∈ F) :
    ∃ m'', invalidateRefCache id m' = (.ok (), m'') ∧ Updated E m m'' t' id F := by
  obtain ⟨data, r, hc, ht, hrep⟩ := h
  exact ⟨m'.setCell id ⟨data, none⟩, setCache_ok hc none, ht.setCell hid _,
    by simpa [grown] using hrep⟩

/-- What the replacement has to do with the subtree at `id`.  The hash of the slot is
computed before anything is written, and a failure writes nothing but caches. -/
def Replaces (E : Env) (x : TrieM Unit) (t : Trie) (p : List Nibble) (expectedRoot newRoot : B256)
    (m : Mpt) (id : NodeId) (F : Finset NodeId) : Prop :=
  match t.subtree p with
  | none => ∃ m', x m = (.error (.err .invalidFrontierPrefix), m') ∧ Fills E m m'
  | some s =>
    if Trie.hash E s = expectedRoot then
      ∃ m₁ m', x m = (.ok (), m') ∧ Fills E m m₁ ∧
        Updated E m₁ m' (t.patch (single p (slotTrie E s newRoot))) id F
    else ∃ m', x m = (.error (.err .nodeRefMismatch), m') ∧ Fills E m m'

theorem Replaces.of_eq {x y : TrieM Unit} {t : Trie} {p : List Nibble} {expectedRoot newRoot : B256}
    {m : Mpt} {id : NodeId} {F : Finset NodeId} (h : Replaces E y t p expectedRoot newRoot m id F)
    (hxy : x m = y m) : Replaces E x t p expectedRoot newRoot m id F := by
  unfold Replaces at h ⊢
  rw [hxy]
  exact h

theorem patch_single_ne_null {t s u : Trie} {p : List Nibble} (hs : t.subtree p = some s)
    (ht : t ≠ null) (hu : u = null → p ≠ []) : t.patch (single p u) ≠ null := by
  cases p with
  | nil =>
    rw [patch_single_nil]
    exact fun h => hu h rfl
  | cons i p =>
    rcases subtree_cons_eq_some hs with ⟨c, rfl⟩ | ⟨q, c, rfl⟩
    · rw [patch_single_branch]
      simp
    · obtain ⟨r, hr, _⟩ := subtree_ext (by simp) hs
      rw [hr, patch_single_ext c u (by rw [← hr]; simp)]
      simp

theorem slotTrie_ne_null {s : Trie} (hs : s ≠ null) (newRoot : B256) :
    slotTrie E s newRoot ≠ null := by
  unfold slotTrie
  split
  · simp [isNull_eq_false.mpr hs]
  · simp

/-- The slot is below a child, and the parent stays in place. -/
theorem Replaces.parent {x : TrieM Unit} {t c : Trie} {p r : List Nibble}
    {expectedRoot newRoot : B256} {m : Mpt} {id j : NodeId} {F G : Finset NodeId}
    (h : Replaces E x c r expectedRoot newRoot m j G) (hid : id ∈ F) (hc : c ≠ null)
    (hsub : t.subtree p = c.subtree r)
    (hf : ∀ u m₁ m', Fills E m m₁ → c.patch (single r u) ≠ null →
      Updated E m₁ m' (c.patch (single r u)) j G → Pending E m₁ m' (t.patch (single p u)) id F) :
    Replaces E (do
      x
      invalidateRefCache id) t p expectedRoot newRoot m id F := by
  unfold Replaces at h ⊢
  rw [hsub]
  cases hs : c.subtree r with
  | none =>
    rw [hs] at h
    obtain ⟨m', hm', hf'⟩ := h
    exact ⟨m', Exec.bind_error hm', hf'⟩
  | some s =>
    simp only [hs] at h ⊢
    by_cases heq : Trie.hash E s = expectedRoot
    · rw [if_pos heq] at h ⊢
      obtain ⟨m₁, m', hm', hfill, hu⟩ := h
      have hne := patch_single_ne_null hs hc (u := slotTrie E s newRoot) fun hnull hr => by
        subst hr
        obtain rfl : c = s := by simpa using hs
        exact slotTrie_ne_null hc newRoot hnull
      obtain ⟨m'', hm'', hu'⟩ := (hf _ m₁ m' hfill hne hu).invalidate hid
      exact ⟨m₁, m'', (Exec.bind_ok hm').trans hm'', hfill, hu'⟩
    · rw [if_neg heq] at h ⊢
      obtain ⟨m', hm', hf'⟩ := h
      exact ⟨m', Exec.bind_error hm', hf'⟩

/-- The slot itself. -/
theorem replaceFrontierSlotInternal_nil {fuel : Nat} {t : Trie} {id : NodeId} {F : Finset NodeId}
    {m : Mpt} (hF : ∀ k ∈ F, k < m.size) (h : Rep E m t id F) (expectedRoot newRoot : B256) :
    Replaces E (replaceFrontierSlotInternal E (fuel + 1) id [] expectedRoot newRoot) t []
      expectedRoot newRoot m id F := by
  have hcard : F.card ≤ m.size := by
    have hle := Finset.card_le_card (fun k hk => Finset.mem_range.mpr (hF k hk) :
      F ⊆ Finset.range m.size)
    rwa [Finset.card_range] at hle
  obtain ⟨m₁, hm₁, hfill⟩ := subtreeHash_spec h.reads (h.depth_le.trans hcard)
  have hid := h.mem
  unfold Replaces
  simp only [subtree_nil, patch_single_nil]
  by_cases heq : Trie.hash E t = expectedRoot
  · simp only [if_pos heq]
    have hlt : id < m₁.size := hfill.size ▸ hF id hid
    obtain ⟨cell, hc⟩ : ∃ cell, m₁.cells[id]? = some cell := ⟨_, List.getElem?_eq_getElem hlt⟩
    have hrep : Rep E (m₁.setCell id ⟨frontierNode E newRoot, none⟩) (slotTrie E t newRoot) id
        (grown F m₁ m₁) := by
      have hmem : id ∈ grown F m₁ m₁ := Finset.mem_union_left _ hid
      have hcell := cells_setCell_self hlt ⟨frontierNode E newRoot, none⟩
      unfold slotTrie
      unfold frontierNode at hcell ⊢
      by_cases hnew : newRoot = E.emptyRootHash
      · simp only [if_pos hnew] at hcell ⊢
        split
        · exact ⟨hmem, none, hcell, .inl rfl⟩
        · exact ⟨hmem, none, hcell, .inl rfl⟩
      · simp only [if_neg hnew] at hcell ⊢
        exact ⟨hmem, none, hcell, .inl rfl⟩
    obtain ⟨m₂, hm₂, hpend⟩ := pending_setNode (Touches.refl m₁ F) hid hc hrep
    obtain ⟨m₃, hm₃, hu⟩ := hpend.invalidate hid
    refine ⟨m₁, m₃, (Exec.bind_ok hm₁).trans ?_, hfill, hu⟩
    rw [if_pos heq]
    exact (Exec.bind_ok hm₂).trans hm₃
  · simp only [if_neg heq]
    refine ⟨m₁, (Exec.bind_ok hm₁).trans ?_, hfill⟩
    rw [if_neg heq]
    rfl

theorem Slots.fills {m m' : Mpt} {c : Nibble → Trie} {ids : Nibble → Option NodeId}
    {G : Nibble → Finset NodeId} (h : Slots E m c ids G) (hf : Fills E m m') :
    Slots E m' c ids G := by
  intro i
  rcases h i with hnone | ⟨j, hj, hne, hij⟩
  · exact .inl hnone
  · exact .inr ⟨j, hj, hne, hij.fills hf⟩

/-- An empty slot of a branch. -/
theorem replaces_emptySlot {m : Mpt} {id : NodeId} {F : Finset NodeId} {c : Nibble → Trie}
    {ids : Nibble → Option NodeId} {r : Option NodeRef} {G : Nibble → Finset NodeId} {i : Nibble}
    (hF : ∀ k ∈ F, k < m.size) (hid : id ∈ F) (hc : m.cells[id]? = some ⟨.branch ids, r⟩)
    (hG : ∀ i, G i ⊆ F.erase id) (hdis : ∀ i j, i ≠ j → Disjoint (G i) (G j))
    (hl : Slots E m c ids G) (h0 : c i = null) (p : List Nibble) (expectedRoot newRoot : B256) :
    Replaces E (match p.map Nibble.toByte with
      | [] =>
        if expectedRoot = E.emptyRootHash then do
          fillEmptySlot E id ids i newRoot
          invalidateRefCache id
        else Exec.fail (.err .nodeRefMismatch)
      | _ :: _ => Exec.fail (.err .invalidFrontierPrefix)) (branch c) (i :: p) expectedRoot newRoot
      m id F := by
  have hlt := hF id hid
  unfold Replaces
  rw [subtree_branch, h0]
  cases p with
  | cons j p => exact ⟨m, rfl, Fills.refl m⟩
  | nil =>
    have hhash : Trie.hash E null = E.emptyRootHash := rfl
    simp only [subtree_nil, hhash, List.map_nil]
    by_cases heq : E.emptyRootHash = expectedRoot
    · rw [if_pos heq, if_pos heq.symm, patch_single_branch, patch_single_nil]
      by_cases hnew : newRoot = E.emptyRootHash
      · have hfill : fillEmptySlot E id ids i newRoot m = (.ok (), m) := by
          rw [fillEmptySlot, if_pos hnew]
          rfl
        have hslot : slotTrie E null newRoot = null := by simp [slotTrie, hnew, isNull]
        have hpend : Pending E m m (branch (Function.update c i (slotTrie E null newRoot))) id F := by
          rw [hslot, ← h0, Function.update_eq_self]
          refine ⟨_, _, hc, Touches.refl m F, Finset.mem_union_left _ hid, none, ids,
            cells_setCell_self hlt _, .inl rfl, G, fun i => (hG i).trans
              (Finset.erase_subset_erase id Finset.subset_union_left), hdis, ?_⟩
          exact hl.setCell (fun k hk => Finset.notMem_erase id F (hG k hk)) _
        obtain ⟨m', hm', hu⟩ := hpend.invalidate hid
        exact ⟨m, m', (Exec.bind_ok hfill).trans hm', Fills.refl m, hu⟩
      · have hslot : slotTrie E null newRoot = digest newRoot := by simp [slotTrie, hnew]
        have hu : Updated E m (m.push ⟨.digest newRoot.bytes, none⟩) (digest newRoot) m.size
            (G i) := by
          refine ⟨Touches.push m _ _, ?_, none, cells_push_self m _, .inl rfl⟩
          simp [grown]
        have hc' := (cells_push_lt hlt ⟨.digest newRoot.bytes, none⟩).trans hc
        have hrep := rep_branch_update hF hid hG hdis hl (lt_size hc') (by simp) hu
        obtain ⟨m₁, hm₁, hpend⟩ := pending_setNode (Touches.push m _ F) hid hc' hrep
        obtain ⟨m', hm', hu'⟩ := hpend.invalidate hid
        have hfill : fillEmptySlot E id ids i newRoot m = (.ok (), m₁) := by
          rw [fillEmptySlot, if_neg hnew]
          exact (Exec.bind_ok (addNode_ok m _ none)).trans hm₁
        rw [hslot]
        exact ⟨m, m', (Exec.bind_ok hfill).trans hm', Fills.refl m, hu'⟩
    · rw [if_neg heq, if_neg (Ne.symm heq)]
      exact ⟨m, rfl, Fills.refl m⟩

theorem replaceFrontierSlotInternal_spec : ∀ {fuel : Nat} {t : Trie}, depth t ≤ fuel →
    ∀ (p : List Nibble) (expectedRoot newRoot : B256) (id : NodeId) (F : Finset NodeId) (m : Mpt),
      (∀ k ∈ F, k < m.size) → Rep E m t id F →
      Replaces E (replaceFrontierSlotInternal E fuel id (p.map Nibble.toByte) expectedRoot newRoot)
        t p expectedRoot newRoot m id F := by
  intro fuel
  induction fuel with
  | zero =>
    intro t ht
    exact absurd (depth_pos t) (by omega)
  | succ fuel ih =>
    intro t ht p expectedRoot newRoot id F m hF h
    have hid := h.mem
    have hlt := hF id hid
    cases p with
    | nil => exact replaceFrontierSlotInternal_nil hF h expectedRoot newRoot
    | cons i p =>
      -- a node without children has no slots
      have hstop : ∀ {data : NodeData} {r : Option NodeRef}, m.cells[id]? = some ⟨data, r⟩ →
          (∀ c, data ≠ .branch c) → (∀ q c, data ≠ .extension q c) →
          t.subtree (i :: p) = none →
          Replaces E (replaceFrontierSlotInternal E (fuel + 1) id ((i :: p).map Nibble.toByte)
            expectedRoot newRoot) t (i :: p) expectedRoot newRoot m id F := by
        intro data r hc hb he hsub
        unfold Replaces
        rw [hsub]
        refine ⟨m, (Exec.bind_ok (nodeAt_ok hc)).trans ?_, Fills.refl m⟩
        cases data with
        | branch c => exact absurd rfl (hb c)
        | extension q c => exact absurd rfl (he q c)
        | _ => rfl
      cases t with
      | null =>
        obtain ⟨_, r, hc, _⟩ := h
        exact hstop hc (by simp) (by simp) rfl
      | hole =>
        obtain ⟨_, r, hc, _⟩ := h
        exact hstop hc (by simp) (by simp) rfl
      | digest d =>
        obtain ⟨_, r, hc, _⟩ := h
        exact hstop hc (by simp) (by simp) rfl
      | leaf q v =>
        obtain ⟨_, r, hc, _⟩ := h
        exact hstop hc (by simp) (by simp) rfl
      | ext q c =>
        obtain ⟨_, r, j, hc, _, hne, hl⟩ := h
        refine Replaces.of_eq ?_ (Exec.bind_ok (nodeAt_ok hc))
        simp only [Hp.prefixToNibs_encode]
        rw [← List.map_cons (f := Nibble.toByte), Hp.stripPrefix_map]
        cases hs : stripPrefix q (i :: p) with
        | none =>
          unfold Replaces
          simp only [subtree, hs, Option.map_none]
          exact ⟨m, rfl, Fills.refl m⟩
        | some tail =>
          have hp := stripPrefix_eq_some.mp hs
          have hpne : q ++ tail ≠ [] := by simp [← hp]
          simp only [Option.map_some]
          refine Replaces.parent (ih (Nat.le_of_succ_le_succ ht) tail expectedRoot newRoot j
            (F.erase id) m (fun k hk => hF k (Finset.mem_of_mem_erase hk)) hl) hid hne ?_ ?_
          · rw [hp, subtree_ext_append c hpne]
          · intro u m₁ m' hfill hune hu
            obtain ⟨r', hc'⟩ := hfill.exists_cell hc
            rw [hp, patch_single_ext c u hpne]
            exact pending_ext (fun k hk => hfill.size ▸ hF k hk) hid hc' hune hu
      | branch c =>
        have hrepb := h
        obtain ⟨_, r, ids, hc, _, G, hG, hdis, hl⟩ := h
        refine Replaces.of_eq ?_ (Exec.bind_ok (nodeAt_ok hc))
        simp only [slotIndex_toByte]
        refine Replaces.of_eq ?_ (Exec.bind_ok (Exec.pure_apply i m))
        rcases hl i with ⟨hn, h0⟩ | ⟨j, hj, hne, hij⟩
        · simp only [hn]
          refine (replaces_emptySlot hF hid hc hG hdis hl h0 p expectedRoot newRoot).of_eq ?_
          cases p <;> rfl
        · simp only [hj]
          refine Replaces.parent (ih (by have := depth_child_lt hne; omega) p expectedRoot newRoot j
            (G i) m (fun k hk => hF k (Finset.mem_of_mem_erase (hG i hk))) hij) hid hne rfl ?_
          intro u m₁ m' hfill hune hu
          have hF₁ : ∀ k ∈ F, k < m₁.size := fun k hk => hfill.size ▸ hF k hk
          obtain ⟨r', hc₁⟩ := hfill.exists_cell hc
          have hc' : m'.cells[id]? = some ⟨.branch ids, r'⟩ := (hu.1.frame id (hF₁ id hid)
            fun hmem => Finset.notMem_erase id F (hG i hmem)).trans hc₁
          have hrep := rep_branch_update hF₁ hid hG hdis (Slots.fills hl hfill) (lt_size hc') hune hu
          rw [← hj, Function.update_eq_self] at hrep
          rw [patch_single_branch]
          exact ⟨_, _, hc', hu.1.mono ((hG i).trans (Finset.erase_subset id F)), hrep⟩

/-! ## The public method -/

/-- The slot is there and has the expected hash. -/
theorem replaceFrontierSlot_ok {m : Mpt} {t s : Trie} {p : List Nibble} (h : Represents E m t)
    (hs : t.subtree p = some s) (newRoot : B256) :
    ∃ m', replaceFrontierSlot E (p.map Nibble.toByte) (Trie.hash E s) newRoot m = (.ok (), m') ∧
      Represents E m' (t.patch (single p (slotTrie E s newRoot))) := by
  have hspec := replaceFrontierSlotInternal_spec h.depth_le p (Trie.hash E s) newRoot m.rootId
    (Finset.range m.size) m (fun _ hk => Finset.mem_range.mp hk) h
  unfold Replaces at hspec
  simp only [hs, if_true] at hspec
  obtain ⟨m₁, m', hm', hf, hu⟩ := hspec
  refine ⟨m', (Exec.bind_ok (Exec.read_apply _ m)).trans hm', ?_⟩
  rw [← hf.rootId, ← hf.size] at hu
  exact Represents.updated hu

/-- A slot of a tree that was patched before. -/
theorem replaceFrontierSlot_patch {m : Mpt} {t s : Trie} {A : Assignment 16 Bytes B256}
    {p : List Nibble} (h : Represents E m (t.patch A)) (hf : Free A p)
    (hs : t.subtree p = some s) (newRoot : B256) :
    ∃ m', replaceFrontierSlot E (p.map Nibble.toByte) (Trie.hash E ((A p).getD s)) newRoot m =
        (.ok (), m') ∧
      Represents E m'
        (t.patch (Function.update A p (some (slotTrie E ((A p).getD s) newRoot)))) := by
  obtain ⟨m', hm', hr⟩ := replaceFrontierSlot_ok h (subtree_patch hf hs) newRoot
  rw [patch_patch_single hf hs] at hr
  exact ⟨m', hm', hr⟩

/-! ## Prefixes that are not nibbles -/

/-- A string of nibbles. -/
def IsNibs (l : List UInt8) : Prop := ∃ p : List Nibble, l = p.map Nibble.toByte

theorem isNibs_cons (i : Nibble) {l : List UInt8} (h : IsNibs l) : IsNibs (i.toByte :: l) := by
  obtain ⟨p, rfl⟩ := h
  exact ⟨i :: p, rfl⟩

theorem isNibs_append (q : List Nibble) {l : List UInt8} (h : IsNibs l) :
    IsNibs (q.map Nibble.toByte ++ l) := by
  obtain ⟨p, rfl⟩ := h
  exact ⟨q ++ p, by rw [List.map_append]⟩

theorem slotIndex_cases (b : UInt8) (m : Mpt) :
    (∃ i : Nibble, b = i.toByte ∧ slotIndex b m = (.ok i, m)) ∨ slotIndex b m = (.error .panic, m) := by
  by_cases hb : b.toNat < 16
  · refine .inl ⟨⟨b.toNat, hb⟩, ?_, ?_⟩
    · apply UInt8.toNat_inj.mp
      simp [Nibble.toByte]
    · simp [slotIndex, hb, orPanic]
  · exact .inr (by simp [slotIndex, hb, orPanic])

/-- Nothing is written. -/
theorem replaceFrontierSlotInternal_wild : ∀ {fuel : Nat} {t : Trie}, depth t ≤ fuel →
    ∀ (l : List UInt8) (expectedRoot newRoot : B256) (id : NodeId) (m : Mpt), ¬ IsNibs l →
      Reads E m t id →
      replaceFrontierSlotInternal E fuel id l expectedRoot newRoot m =
          (.error (.err .invalidFrontierPrefix), m) ∨
        replaceFrontierSlotInternal E fuel id l expectedRoot newRoot m = (.error .panic, m) := by
  intro fuel
  induction fuel with
  | zero =>
    intro t ht
    exact absurd (depth_pos t) (by omega)
  | succ fuel ih =>
    intro t ht l expectedRoot newRoot id m hl h
    cases l with
    | nil => exact absurd ⟨[], rfl⟩ hl
    | cons b l =>
      cases t with
      | branch c =>
        obtain ⟨r, ids, hc, _, hslots⟩ := h
        rw [replaceFrontierSlotInternal, Exec.bind_ok (nodeAt_ok hc)]
        rcases slotIndex_cases b m with ⟨i, rfl, hi⟩ | hi
        · have hl' : ¬ IsNibs l := fun h => hl (isNibs_cons i h)
          simp only [Exec.bind_ok hi]
          rcases hslots i with ⟨hn, _⟩ | ⟨j, hj, hne, hij⟩
          · rw [hn]
            cases l with
            | nil => exact absurd ⟨[], rfl⟩ hl'
            | cons b' l => exact .inl rfl
          · rw [hj]
            rcases ih (by have := depth_child_lt hne; omega) l expectedRoot newRoot j m hl' hij
              with h | h
            · exact .inl (Exec.bind_error h)
            · exact .inr (Exec.bind_error h)
        · exact .inr (Exec.bind_error hi)
      | ext q c =>
        obtain ⟨r, j, hc, _, hij⟩ := h
        rw [replaceFrontierSlotInternal, Exec.bind_ok (nodeAt_ok hc)]
        simp only [Hp.prefixToNibs_encode]
        cases hs : stripPrefix (q.map Nibble.toByte) (b :: l) with
        | none => exact .inl rfl
        | some tail =>
          have htail : ¬ IsNibs tail := by
            intro h
            rw [stripPrefix_eq_some.mp hs] at hl
            exact hl (isNibs_append q h)
          rcases ih (Nat.le_of_succ_le_succ ht) tail expectedRoot newRoot j m htail hij with h | h
          · exact .inl (Exec.bind_error h)
          · exact .inr (Exec.bind_error h)
      | _ =>
        obtain ⟨r, hc, _⟩ := h
        exact .inl (Exec.bind_ok (nodeAt_ok hc))

/-- Everything that a call of `replace_frontier_slot` can do. -/
theorem replaceFrontierSlot_cases {m : Mpt} {t : Trie} (h : Represents E m t)
    (prefixNibs : List UInt8) (expectedRoot newRoot : B256) :
    (∃ p s m', prefixNibs = p.map Nibble.toByte ∧ t.subtree p = some s ∧
      Trie.hash E s = expectedRoot ∧
      replaceFrontierSlot E prefixNibs expectedRoot newRoot m = (.ok (), m') ∧
      Represents E m' (t.patch (single p (slotTrie E s newRoot)))) ∨
    (∃ e m', replaceFrontierSlot E prefixNibs expectedRoot newRoot m = (.error (.err e), m') ∧
      Fills E m m') ∨
    replaceFrontierSlot E prefixNibs expectedRoot newRoot m = (.error .panic, m) := by
  have hroot : ∀ {y : Except Halt Unit × Mpt}, replaceFrontierSlotInternal E m.size m.rootId
      prefixNibs expectedRoot newRoot m = y →
      replaceFrontierSlot E prefixNibs expectedRoot newRoot m = y := fun hy =>
    (Exec.bind_ok (Exec.read_apply _ m)).trans hy
  by_cases hnibs : IsNibs prefixNibs
  · obtain ⟨p, rfl⟩ := hnibs
    have hspec := replaceFrontierSlotInternal_spec h.depth_le p expectedRoot newRoot m.rootId
      (Finset.range m.size) m (fun _ hk => Finset.mem_range.mp hk) h
    unfold Replaces at hspec
    cases hs : t.subtree p with
    | none =>
      rw [hs] at hspec
      obtain ⟨m', hm', hf⟩ := hspec
      exact .inr (.inl ⟨_, m', hroot hm', hf⟩)
    | some s =>
      simp only [hs] at hspec
      by_cases heq : Trie.hash E s = expectedRoot
      · subst heq
        obtain ⟨m', hm', hr⟩ := replaceFrontierSlot_ok h hs newRoot
        exact .inl ⟨p, s, m', rfl, hs, rfl, hm', hr⟩
      · rw [if_neg heq] at hspec
        obtain ⟨m', hm', hf⟩ := hspec
        exact .inr (.inl ⟨_, m', hroot hm', hf⟩)
  · rcases replaceFrontierSlotInternal_wild h.depth_le prefixNibs expectedRoot newRoot m.rootId m
      hnibs (Rep.reads h) with hx | hx
    · exact .inr (.inl ⟨_, m, hroot hx, Fills.refl m⟩)
    · exact .inr (.inr (hroot hx))

end Mpt
end CenoReth
