/-
Decoded arenas are trees.

The decoder appends the nodes of a subtree to one part of the arena, so a decoded
trie owns its nodes and can be updated.  The only node it shares is the null
node, which no trie in normal form refers to.
-/
import CenoReth.Mpt.Authentic

namespace CenoReth
namespace Mpt

open Patricia Patricia.Radix Trie Rlp

variable {E : Env}

/-- The tree has no null nodes; empty slots are not nodes. -/
def Solid : Trie → Prop
  | null => False
  | hole => False
  | ext _ c => Solid c
  | branch c => ∀ i, c i ≠ null → Solid (c i)
  | _ => True

theorem solid_of_normal {t : Trie} (h : t.Normal) (hn : t ≠ null) : Solid t := by
  induction t with
  | null => exact hn rfl
  | hole => exact h
  | leaf p v => trivial
  | digest d => trivial
  | ext p c ih =>
    refine ih h.2.2 ?_
    rintro rfl
    exact h.2.1
  | branch c ih => exact fun i hi => ih i (h.2 i) hi

/-- A node other than the null node is in the part of its tree. -/
theorem Laid.within {m : Mpt} {D : Decoded} {r : NodeRef} {id : NodeId} {lo hi : Nat}
    {data : NodeData} {o : Option NodeRef} (h : Laid m D r id lo hi)
    (hc : m.cells[id]? = some ⟨data, o⟩) (hn : data ≠ .null) : id ∈ Finset.Ico lo hi := by
  rw [Finset.mem_Ico]
  cases D with
  | absent => exact h.elim
  | null raw =>
    have hc' : m.cells[id]? = some ⟨.null, none⟩ := h
    rw [hc'] at hc
    simp only [Option.some.injEq, Cell.mk.injEq] at hc
    exact absurd hc.1.symm hn
  | digest raw d => exact h.1
  | leaf raw path value => exact h.1
  | ext raw path slot c => exact h.1
  | branch raw slots c => exact h.1

theorem Laid.of_extension {m : Mpt} {D : Decoded} {r : NodeRef} {id j : NodeId} {lo hi : Nat}
    {path : Bytes} {o : Option NodeRef} (h : Laid m D r id lo hi)
    (hc : m.cells[id]? = some ⟨.extension path j, o⟩) :
    ∃ c r', Laid m c r' j lo id := by
  cases D with
  | absent => exact h.elim
  | null raw => simp [show m.cells[id]? = some ⟨.null, none⟩ from h] at hc
  | digest raw d => simp [h.2] at hc
  | leaf raw path' value => simp [h.2] at hc
  | branch raw slots c =>
    obtain ⟨_, ids, hc', _⟩ := h
    simp [hc'] at hc
  | ext raw path' slot c =>
    obtain ⟨_, j', hc', hl⟩ := h
    obtain ⟨⟨_, rfl⟩, _⟩ : (path' = path ∧ j' = j) ∧ some (heldRef raw r) = o := by
      simpa [hc'] using hc
    exact ⟨c, _, hl⟩

theorem Laid.of_branch {m : Mpt} {D : Decoded} {r : NodeRef} {id : NodeId} {lo hi : Nat}
    {ids : Nibble → Option NodeId} {o : Option NodeRef} (h : Laid m D r id lo hi)
    (hc : m.cells[id]? = some ⟨.branch ids, o⟩) :
    ∃ b : Nat → Nat, Monotone b ∧ lo ≤ b 0 ∧ b 16 ≤ id ∧
      ∀ i j, ids i = some j → ∃ c r', Laid m c r' j (b i) (b (i + 1)) := by
  cases D with
  | absent => exact h.elim
  | null raw => simp [show m.cells[id]? = some ⟨.null, none⟩ from h] at hc
  | digest raw d => simp [h.2] at hc
  | leaf raw path' value => simp [h.2] at hc
  | ext raw path' slot c =>
    obtain ⟨_, j', hc', _⟩ := h
    simp [hc'] at hc
  | branch raw slots c =>
    obtain ⟨_, ids', hc', b, hb, hlo, hhi, hl⟩ := h
    obtain ⟨rfl, _⟩ : ids' = ids ∧ some (heldRef raw r) = o := by simpa [hc'] using hc
    refine ⟨b, hb, hlo, hhi, fun i j hj => ?_⟩
    rcases hl i with ⟨hn, _⟩ | ⟨j', hj', hij⟩
    · simp [hn] at hj
    · obtain rfl : j' = j := by simpa [hj'] using hj
      exact ⟨_, _, hij⟩

/-- A decoded tree owns the part of the arena it was decoded into. -/
theorem Laid.rep {m : Mpt} {t : Trie} : ∀ {D : Decoded} {r : NodeRef} {id : NodeId} {lo hi : Nat},
    Laid m D r id lo hi → Reads E m t id → Solid t → Rep E m t id (Finset.Ico lo hi) := by
  induction t with
  | null => exact fun _ _ hs => hs.elim
  | hole => exact fun _ _ hs => hs.elim
  | leaf p v =>
    intro D r id lo hi h hr _
    have hr' := hr
    obtain ⟨o, hc, _⟩ := hr
    exact ⟨h.within hc (by simp), hr'⟩
  | digest d =>
    intro D r id lo hi h hr _
    have hr' := hr
    obtain ⟨o, hc, _⟩ := hr
    exact ⟨h.within hc (by simp), hr'⟩
  | ext p c ih =>
    rintro D r id lo hi h ⟨o, j, hc, hcached, hl⟩ hs
    have hid := h.within hc (by simp)
    obtain ⟨D', r', hD'⟩ := h.of_extension hc
    have hne : c ≠ null := by
      rintro rfl
      exact hs
    refine ⟨hid, o, j, hc, hcached, hne, (ih hD' hl hs).mono fun k hk => ?_⟩
    rw [Finset.mem_Ico] at hid hk
    rw [Finset.mem_erase, Finset.mem_Ico]
    exact ⟨Nat.ne_of_lt hk.2, hk.1, Nat.lt_trans hk.2 hid.2⟩
  | branch c ih =>
    rintro D r id lo hi h ⟨o, ids, hc, hcached, hl⟩ hs
    have hid := h.within hc (by simp)
    obtain ⟨b, hb, hlo, hhi, hchild⟩ := h.of_branch hc
    rw [Finset.mem_Ico] at hid
    refine ⟨Finset.mem_Ico.mpr hid, o, ids, hc, hcached,
      fun i => Finset.Ico (b i) (b (i + 1)), fun i k hk => ?_, fun i j hij => ?_, fun i => ?_⟩
    · rw [Finset.mem_Ico] at hk
      rw [Finset.mem_erase, Finset.mem_Ico]
      have h₁ : b 0 ≤ b i := hb (Nat.zero_le _)
      have h₂ : b (i + 1) ≤ b 16 := hb i.isLt
      have hk2 : k < id := Nat.lt_of_lt_of_le hk.2 (h₂.trans hhi)
      exact ⟨Nat.ne_of_lt hk2, (hlo.trans h₁).trans hk.1, Nat.lt_trans hk2 hid.2⟩
    · refine Finset.disjoint_left.mpr fun k hk hk' => ?_
      rw [Finset.mem_Ico] at hk hk'
      rcases Nat.lt_or_gt_of_ne (Fin.val_ne_of_ne hij) with hlt | hlt
      · have : b (i + 1) ≤ b j := hb hlt
        exact absurd (Nat.lt_of_lt_of_le hk.2 (this.trans hk'.1)) (Nat.lt_irrefl k)
      · have : b (j + 1) ≤ b i := hb hlt
        exact absurd (Nat.lt_of_lt_of_le hk'.2 (this.trans hk.1)) (Nat.lt_irrefl k)
    · rcases hl i with hnone | ⟨j, hj, hne, hij⟩
      · exact .inl hnone
      · obtain ⟨D', r', hD'⟩ := hchild i j hj
        exact .inr ⟨j, hj, hne, ih i hD' hij (hs i hne)⟩

/-- A decoded trie that reads as a solid tree is a tree. -/
theorem represents_of_laid {m : Mpt} {D : Decoded} {r : NodeRef} {t : Trie}
    (h : Laid m D r m.rootId 1 m.size) (hr : Reads E m t m.rootId) (hs : Solid t) :
    Represents E m t := by
  refine (h.rep hr hs).mono fun k hk => ?_
  exact Finset.mem_range.mpr (Finset.mem_Ico.mp hk).2

/-- The decoder restores a trie that can be updated. -/
theorem decodeTrie_represents (hinv : Inverse E.decodeHeader) (hp : PrefixConsuming E.decodeHeader)
    {t : Trie} (hw : Encodable E t) (hs : t = null ∨ Solid t) (numNodes : Nat) :
    ∃ m rest, decodeTrie E (encoding E t) numNodes = .ok (m, rest) ∧ Represents E m t := by
  by_cases hn : t = null
  · subst hn
    exact ⟨new, _, decodeTrie_empty numNodes, represents_new⟩
  · have hsolid : Solid t := hs.resolve_left hn
    have hh : t ≠ hole := by
      rintro rfl
      exact hsolid
    obtain ⟨m, hm, hl⟩ := decodeTrie_encoding hinv hw ⟨hn, hh⟩ [] numNodes
    rw [List.append_nil] at hm
    obtain ⟨D, _, r, _, _, hlaid, _⟩ := decodeTrie_ok hp (fun rest => hinv.string [] rest (by simp)) hm
    exact ⟨m, [], hm, represents_of_laid hlaid hl.1 hsolid⟩

end Mpt
end CenoReth
