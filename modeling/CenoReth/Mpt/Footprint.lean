/-
Ownership of arena nodes.

Updates write the arena in place, so a reading of it survives an update only if
the update leaves its nodes alone.  `Rep E m t id F` is a reading of the trie `t`
at `id` together with a set `F` of indices that contains its nodes: different
children of a branch own disjoint parts of `F`, and no node is reachable from
itself.  Nodes of `F` that are no longer in use do no harm.

`Touches m m' F` is what an update that owns `F` may do: it writes inside `F` and
appends.
-/
import CenoReth.Mpt.Layout
import Mathlib.Data.Finset.Card
import Mathlib.Order.Interval.Finset.Nat

namespace CenoReth
namespace Mpt

open Patricia.Radix Trie

/-- The subtree at `id` is `t`, its nodes are in `F`, and it is a tree.  A null node
that something still points to is a hole. -/
def Rep (E : Env) (m : Mpt) : Trie → NodeId → Finset NodeId → Prop
  | ext p c, id, F => id ∈ F ∧ ∃ r j, m.cells[id]? = some ⟨.extension (Hp.encode p false) j, r⟩ ∧
      Cached E r (ext p c) ∧ c ≠ null ∧ Rep E m c j (F.erase id)
  | branch c, id, F => id ∈ F ∧ ∃ r ids, m.cells[id]? = some ⟨.branch ids, r⟩ ∧
      Cached E r (branch c) ∧ ∃ G : Nibble → Finset NodeId, (∀ i, G i ⊆ F.erase id) ∧
        (∀ i j, i ≠ j → Disjoint (G i) (G j)) ∧
        ∀ i, (ids i = none ∧ c i = null) ∨
          ∃ j, ids i = some j ∧ c i ≠ null ∧ Rep E m (c i) j (G i)
  | t, id, F => id ∈ F ∧ Reads E m t id

variable {E : Env}

theorem Rep.mem {m : Mpt} {t : Trie} {id : NodeId} {F : Finset NodeId} (h : Rep E m t id F) :
    id ∈ F := by
  cases t <;> exact h.1

theorem Rep.reads {m : Mpt} : ∀ {t : Trie} {id : NodeId} {F : Finset NodeId},
    Rep E m t id F → Reads E m t id := by
  intro t
  induction t with
  | ext p c ih =>
    rintro id F ⟨_, r, j, hc, hr, _, hl⟩
    exact ⟨r, j, hc, hr, ih hl⟩
  | branch c ih =>
    rintro id F ⟨_, r, ids, hc, hr, G, _, _, hl⟩
    refine ⟨r, ids, hc, hr, fun i => ?_⟩
    rcases hl i with hnone | ⟨j, hj, hne, hij⟩
    · exact .inl hnone
    · exact .inr ⟨j, hj, hne, ih i hij⟩
  | _ => exact fun h => h.2

theorem Rep.mono {m : Mpt} : ∀ {t : Trie} {id : NodeId} {F F' : Finset NodeId},
    Rep E m t id F → F ⊆ F' → Rep E m t id F' := by
  intro t
  induction t with
  | ext p c ih =>
    rintro id F F' ⟨hid, r, j, hc, hr, hne, hl⟩ hF
    exact ⟨hF hid, r, j, hc, hr, hne, ih hl (Finset.erase_subset_erase id hF)⟩
  | branch c ih =>
    rintro id F F' ⟨hid, r, ids, hc, hr, G, hG, hdis, hl⟩ hF
    exact ⟨hF hid, r, ids, hc, hr, G, fun i => (hG i).trans (Finset.erase_subset_erase id hF),
      hdis, hl⟩
  | _ => exact fun h hF => ⟨hF h.1, h.2⟩

/-- A reading depends on the nodes it owns. -/
theorem Rep.frame {m m' : Mpt} : ∀ {t : Trie} {id : NodeId} {F : Finset NodeId},
    Rep E m t id F → (∀ k ∈ F, m'.cells[k]? = m.cells[k]?) → Rep E m' t id F := by
  intro t
  induction t with
  | ext p c ih =>
    rintro id F ⟨hid, r, j, hc, hr, hne, hl⟩ heq
    exact ⟨hid, r, j, (heq id hid).trans hc, hr, hne,
      ih hl fun k hk => heq k (Finset.mem_of_mem_erase hk)⟩
  | branch c ih =>
    rintro id F ⟨hid, r, ids, hc, hr, G, hG, hdis, hl⟩ heq
    refine ⟨hid, r, ids, (heq id hid).trans hc, hr, G, hG, hdis, fun i => ?_⟩
    rcases hl i with hnone | ⟨j, hj, hne, hij⟩
    · exact .inl hnone
    · exact .inr ⟨j, hj, hne, ih i hij fun k hk => heq k (Finset.mem_of_mem_erase (hG i hk))⟩
  | _ =>
    rintro id F ⟨hid, r, hc, hr⟩ heq
    exact ⟨hid, r, (heq id hid).trans hc, hr⟩

/-- Filling cached references changes no ownership. -/
theorem Rep.fills {m m' : Mpt} (hf : Fills E m m') : ∀ {t : Trie} {id : NodeId}
    {F : Finset NodeId}, Rep E m t id F → Rep E m' t id F := by
  intro t
  induction t with
  | ext p c ih =>
    intro id F h
    obtain ⟨r', j', hc', hr', _⟩ := h.reads.fills hf
    obtain ⟨hid, r, j, hc, _, hne, hl⟩ := h
    obtain ⟨r'', hc''⟩ := hf.exists_cell hc
    rw [hc'] at hc''
    simp only [Option.some.injEq, Cell.mk.injEq, NodeData.extension.injEq] at hc''
    obtain ⟨⟨_, rfl⟩, _⟩ := hc''
    exact ⟨hid, r', j', hc', hr', hne, ih hl⟩
  | branch c ih =>
    intro id F h
    obtain ⟨r', ids', hc', hr', _⟩ := h.reads.fills hf
    obtain ⟨hid, r, ids, hc, _, G, hG, hdis, hl⟩ := h
    obtain ⟨r'', hc''⟩ := hf.exists_cell hc
    rw [hc'] at hc''
    simp only [Option.some.injEq, Cell.mk.injEq, NodeData.branch.injEq] at hc''
    obtain ⟨rfl, _⟩ := hc''
    refine ⟨hid, r', ids', hc', hr', G, hG, hdis, fun i => ?_⟩
    rcases hl i with hnone | ⟨j, hj, hne, hij⟩
    · exact .inl hnone
    · exact .inr ⟨j, hj, hne, ih i hij⟩
  | _ => exact fun h => ⟨h.1, h.2.fills hf⟩

/-- The nodes along a path are different, so a trie is no deeper than it is large. -/
theorem Rep.depth_le {m : Mpt} : ∀ {t : Trie} {id : NodeId} {F : Finset NodeId},
    Rep E m t id F → depth t ≤ F.card := by
  intro t
  induction t with
  | ext p c ih =>
    rintro id F ⟨hid, r, j, _, _, _, hl⟩
    have hcard := ih hl
    rw [Finset.card_erase_of_mem hid] at hcard
    have hpos := Finset.card_pos.mpr ⟨id, hid⟩
    simp only [depth]
    omega
  | branch c ih =>
    rintro id F ⟨hid, r, ids, _, _, G, hG, _, hl⟩
    have hpos := Finset.card_pos.mpr ⟨id, hid⟩
    have hchild : ∀ i, c i ≠ null → depth (c i) ≤ F.card - 1 := by
      intro i hne
      rcases hl i with ⟨_, h0⟩ | ⟨j, _, _, hij⟩
      · exact absurd h0 hne
      · rw [← Finset.card_erase_of_mem hid]
        exact (ih i hij).trans (Finset.card_le_card (hG i))
    have hle := depth_branch_le hchild
    omega
  | _ =>
    intro id F h
    exact Finset.card_pos.mpr ⟨id, h.1⟩

/-! ## What an update may do -/

/-- The arena grew, and outside `F` its nodes are as before. -/
structure Touches (m m' : Mpt) (F : Finset NodeId) : Prop where
  rootId : m'.rootId = m.rootId
  size_le : m.size ≤ m'.size
  frame : ∀ k < m.size, k ∉ F → m'.cells[k]? = m.cells[k]?

/-- The indices an update that owned `F` owns afterwards. -/
abbrev grown (F : Finset NodeId) (m m' : Mpt) : Finset NodeId := F ∪ Finset.Ico m.size m'.size

theorem Touches.refl (m : Mpt) (F : Finset NodeId) : Touches m m F :=
  ⟨rfl, le_rfl, fun _ _ _ => rfl⟩

theorem Touches.mono {m m' : Mpt} {F F' : Finset NodeId} (h : Touches m m' F) (hF : F ⊆ F') :
    Touches m m' F' :=
  ⟨h.rootId, h.size_le, fun k hk hk' => h.frame k hk fun hm => hk' (hF hm)⟩

theorem Touches.trans {m m' m'' : Mpt} {F : Finset NodeId} (h : Touches m m' F)
    (h' : Touches m' m'' (grown F m m')) : Touches m m'' F := by
  refine ⟨h'.rootId.trans h.rootId, h.size_le.trans h'.size_le, fun k hk hkF => ?_⟩
  refine (h'.frame k (hk.trans_le h.size_le) ?_).trans (h.frame k hk hkF)
  rw [Finset.mem_union, Finset.mem_Ico]
  rintro (hmem | ⟨hle, _⟩)
  · exact hkF hmem
  · exact absurd hk (Nat.not_lt.mpr hle)

theorem Touches.setCell {m m' : Mpt} {F : Finset NodeId} (h : Touches m m' F) {id : NodeId}
    (hid : id ∈ F) (c : Cell) : Touches m (m'.setCell id c) F := by
  refine ⟨h.rootId, by simpa using h.size_le, fun k hk hkF => ?_⟩
  rw [cells_setCell_ne (by rintro rfl; exact hkF hid), h.frame k hk hkF]

theorem Touches.push (m : Mpt) (c : Cell) (F : Finset NodeId) : Touches m (m.push c) F :=
  ⟨rfl, by simp, fun _ hk _ => cells_push_lt hk c⟩

/-- A reading next to the touched nodes stays. -/
theorem Rep.touches {m m' : Mpt} {t : Trie} {id : NodeId} {F G : Finset NodeId}
    (h : Rep E m t id G) (ht : Touches m m' F) (hG : ∀ k ∈ G, k < m.size) (hd : Disjoint G F) :
    Rep E m' t id G :=
  h.frame fun k hk => ht.frame k (hG k hk) (Finset.disjoint_left.mp hd hk)

theorem Rep.setCell {m : Mpt} {t : Trie} {id k : NodeId} {G : Finset NodeId} (h : Rep E m t id G)
    (hk : k ∉ G) (c : Cell) : Rep E (m.setCell k c) t id G :=
  h.frame fun j hj => cells_setCell_ne (by rintro rfl; exact hk hj) c

/-! ## The children of a branch -/

/-- The slots `ids` of a branch hold the children `c`, each in its own part. -/
def Slots (E : Env) (m : Mpt) (c : Nibble → Trie) (ids : Nibble → Option NodeId)
    (G : Nibble → Finset NodeId) : Prop :=
  ∀ i, (ids i = none ∧ c i = null) ∨ ∃ j, ids i = some j ∧ c i ≠ null ∧ Rep E m (c i) j (G i)

theorem Slots.setCell {m : Mpt} {c : Nibble → Trie} {ids : Nibble → Option NodeId}
    {G : Nibble → Finset NodeId} (h : Slots E m c ids G) {k : NodeId} (hk : ∀ i, k ∉ G i)
    (cell : Cell) : Slots E (m.setCell k cell) c ids G := by
  intro i
  rcases h i with hnone | ⟨j, hj, hne, hij⟩
  · exact .inl hnone
  · exact .inr ⟨j, hj, hne, hij.setCell (hk i) cell⟩

section Slots

variable {m m' : Mpt} {c : Nibble → Trie} {ids : Nibble → Option NodeId}
  {G : Nibble → Finset NodeId} {i : Nibble} {t' : Trie}

/-- An update of one child keeps the others. -/
theorem Slots.touches (h : Slots E m c ids G) (hG : ∀ i, ∀ k ∈ G i, k < m.size)
    (hdis : ∀ i j, i ≠ j → Disjoint (G i) (G j)) (ht : Touches m m' (G i)) {j : Nibble}
    (hji : j ≠ i) : (ids j = none ∧ c j = null) ∨
      ∃ k, ids j = some k ∧ c j ≠ null ∧ Rep E m' (c j) k (G j) := by
  rcases h j with hnone | ⟨k, hk, hne, hrep⟩
  · exact .inl hnone
  · exact .inr ⟨k, hk, hne, hrep.touches ht (hG j) (hdis j i hji)⟩

theorem Slots.update (h : Slots E m c ids G) (hG : ∀ i, ∀ k ∈ G i, k < m.size)
    (hdis : ∀ i j, i ≠ j → Disjoint (G i) (G j)) (ht : Touches m m' (G i)) {j : NodeId}
    (ht' : t' ≠ null) (hrep : Rep E m' t' j (grown (G i) m m')) :
    Slots E m' (Function.update c i t') (Function.update ids i (some j))
      (Function.update G i (grown (G i) m m')) := by
  intro k
  by_cases hk : k = i
  · subst hk
    exact .inr ⟨j, by simp, by simpa using ht', by simpa using hrep⟩
  · simpa [hk] using h.touches hG hdis ht hk

theorem Slots.clear (h : Slots E m c ids G) (hG : ∀ i, ∀ k ∈ G i, k < m.size)
    (hdis : ∀ i j, i ≠ j → Disjoint (G i) (G j)) (ht : Touches m m' (G i)) :
    Slots E m' (Function.update c i null) (Function.update ids i none) G := by
  intro k
  by_cases hk : k = i
  · subst hk
    exact .inl (by simp)
  · simpa [hk] using h.touches hG hdis ht hk

/-- The parts of the children stay disjoint when one of them grows. -/
theorem disjoint_update_grown (hG : ∀ i, ∀ k ∈ G i, k < m.size)
    (hdis : ∀ i j, i ≠ j → Disjoint (G i) (G j)) (i : Nibble) :
    ∀ j k, j ≠ k → Disjoint (Function.update G i (grown (G i) m m') j)
      (Function.update G i (grown (G i) m m') k) := by
  have hnew : ∀ j, j ≠ i → Disjoint (G j) (grown (G i) m m') := by
    intro j hj
    rw [Finset.disjoint_union_right]
    refine ⟨hdis j i hj, Finset.disjoint_left.mpr fun k hk hk' => ?_⟩
    exact absurd (hG j k hk) (Nat.not_lt.mpr (Finset.mem_Ico.mp hk').1)
  intro j k hjk
  by_cases hj : j = i
  · subst hj
    simpa [Ne.symm hjk] using (hnew k (Ne.symm hjk)).symm
  · by_cases hk : k = i
    · subst hk
      simpa [hj] using hnew j hj
    · simpa [hj, hk] using hdis j k hjk

end Slots

/-! ## Nodes that have just been written -/

/-- The node at `id` was rewritten and its cached reference is still to be forgotten. -/
def Pending (E : Env) (m m' : Mpt) (t' : Trie) (id : NodeId) (F : Finset NodeId) : Prop :=
  ∃ data r, m'.cells[id]? = some ⟨data, r⟩ ∧ Touches m m' F ∧
    Rep E (m'.setCell id ⟨data, none⟩) t' id (grown F m m')

/-- An update has succeeded. -/
def Updated (E : Env) (m m' : Mpt) (t' : Trie) (id : NodeId) (F : Finset NodeId) : Prop :=
  Touches m m' F ∧ Rep E m' t' id (grown F m m')

theorem finishUpdate_false (id : NodeId) (m : Mpt) : finishUpdate id false m = (.ok false, m) :=
  rfl

theorem Pending.finish {m m' : Mpt} {t' : Trie} {id : NodeId} {F : Finset NodeId}
    (h : Pending E m m' t' id F) (hid : id ∈ F) :
    ∃ m'', finishUpdate id true m' = (.ok true, m'') ∧ Updated E m m'' t' id F := by
  obtain ⟨data, r, hc, ht, hrep⟩ := h
  refine ⟨m'.setCell id ⟨data, none⟩, ?_, ht.setCell hid _, by simpa [grown] using hrep⟩
  exact Exec.bind_ok (setCache_ok hc none)

end Mpt
end CenoReth
