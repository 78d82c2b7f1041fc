/-
The arena operations refine the operations on tries.

On an arena that represents a trie, lookup, insertion and deletion return what
`Patricia.Radix.get`, `insert` and `delete` return, and the arena afterwards
represents the resulting trie.  A failed operation leaves the arena as it was.

The proofs follow the recursion of the source.  Each case first runs the code on
the arena and then accounts for the nodes that were written.
-/
import CenoReth.Mpt.Footprint

namespace CenoReth
namespace Mpt

open Patricia Patricia.Radix Trie

variable {E : Env}

/-- How the code reports that an operation cannot go on. -/
def halt : Fault B256 → Halt
  | .unresolved d => .err (.nodeNotResolved d)
  | .branchValue => .err .valueInBranch
  | .stuck => .panic

@[simp] theorem notResolved_apply {α : Type} (d : B256) (m : Mpt) :
    (notResolved d.bytes : TrieM α) m = (.error (.err (.nodeNotResolved d)), m) := by
  unfold notResolved
  simp only [B256.fromSlice_bytes, orPanic_some]
  rfl

/-! ## Lookup -/

theorem getInternal_spec {P : Option NodeRef → Trie → Prop} {m : Mpt} :
    ∀ {fuel : Nat} {t : Trie}, depth t ≤ fuel → ∀ (key : List Nibble) (id : NodeId),
      Layout P m t id →
      getInternal fuel id (key.map Nibble.toByte) m = ((t.get key).mapError halt, m) := by
  intro fuel
  induction fuel with
  | zero =>
    intro t ht
    exact absurd (depth_pos t) (by omega)
  | succ fuel ih =>
    intro t ht key id h
    unfold getInternal
    cases t with
    | null =>
      obtain ⟨r, hc, _⟩ := h
      rw [Exec.bind_ok (nodeAt_ok hc)]
      rfl
    | hole =>
      obtain ⟨r, hc, _⟩ := h
      rw [Exec.bind_ok (nodeAt_ok hc)]
      rfl
    | digest d =>
      obtain ⟨r, hc, _⟩ := h
      rw [Exec.bind_ok (nodeAt_ok hc)]
      exact notResolved_apply d m
    | leaf p v =>
      obtain ⟨r, hc, _⟩ := h
      rw [Exec.bind_ok (nodeAt_ok hc)]
      have heq : Hp.prefixToNibs (Hp.encode p true) = key.map Nibble.toByte ↔ p = key := by
        rw [Hp.prefixToNibs_encode]
        exact (List.map_injective_iff.mpr Nibble.toByte_injective).eq_iff
      simp only [Hp.encodedPathEqNibs_eq, orPanic_some, heq]
      refine (Exec.bind_ok (Exec.pure_apply _ m)).trans ?_
      simp only [Radix.get, decide_eq_true_eq]
      rfl
    | ext p c =>
      obtain ⟨r, j, hc, _, hl⟩ := h
      rw [Exec.bind_ok (nodeAt_ok hc)]
      simp only [Hp.encodedPathStripPrefix_eq, orPanic_some, Hp.prefixToNibs_encode,
        Hp.stripPrefix_map]
      rw [Radix.get]
      cases hs : stripPrefix p key with
      | none => rfl
      | some tail => exact ih (Nat.le_of_succ_le_succ ht) tail j hl
    | branch c =>
      obtain ⟨r, ids, hc, _, hl⟩ := h
      rw [Exec.bind_ok (nodeAt_ok hc)]
      cases key with
      | nil => rfl
      | cons i key =>
        simp only [List.map_cons, slotIndex_toByte]
        rw [Exec.bind_ok (Exec.pure_apply i m)]
        rcases hl i with ⟨hn, h0⟩ | ⟨j, hj, hne, hij⟩
        · simp only [hn, Radix.get, h0]
          rfl
        · simp only [hj, Radix.get]
          exact ih (by have := depth_child_lt hne; omega) key j hij

/-! ## Insertion -/

/-- An insertion that changes nothing returns its argument. -/
theorem insert_false {t t' : Trie} {key : List Nibble} {v : Bytes}
    (h : t.insert key v = .ok (false, t')) : t' = t := by
  induction t generalizing key t' with
  | null => simp [Radix.insert] at h
  | hole => simp [Radix.insert] at h
  | digest d => simp [Radix.insert] at h
  | leaf p old =>
    rw [Radix.insert] at h
    split at h
    · split at h <;> simp_all
    · simp at h
    · simp at h
  | ext p c ih =>
    rw [Radix.insert] at h
    split at h
    · rename_i q' _
      cases hc : c.insert q' v with
      | error f => simp [hc, Except.map] at h
      | ok r =>
        obtain ⟨b, c'⟩ := r
        simp only [hc, Except.map, Except.ok.injEq, Prod.mk.injEq] at h
        obtain ⟨rfl, rfl⟩ := h
        rw [ih hc]
    · simp at h
    · simp at h
  | branch c ih =>
    cases key with
    | nil => simp [Radix.insert] at h
    | cons i key =>
      rw [Radix.insert] at h
      cases hc : (c i).insert key v with
      | error f => simp [hc, Except.map] at h
      | ok r =>
        obtain ⟨b, c'⟩ := r
        simp only [hc, Except.map, Except.ok.injEq, Prod.mk.injEq] at h
        obtain ⟨rfl, rfl⟩ := h
        rw [ih i hc, Function.update_eq_self]

/-- What an update of the arena has to do: the code does to the subtree at `id` what
the operation `op` does to the trie. -/
def Refines (E : Env) (x : TrieM Bool) (op : Except (Fault B256) (Bool × Trie)) (m : Mpt)
    (id : NodeId) (F : Finset NodeId) : Prop :=
  match op with
  | .ok (true, t') => ∃ m', x m = (.ok true, m') ∧ Updated E m m' t' id F
  | .ok (false, _) => x m = (.ok false, m)
  | .error .stuck => ∃ m', x m = (.error .panic, m')
  | .error f => x m = (.error (halt f), m)

/-- A branch over two subtrees that own disjoint parts. -/
theorem rep_fork {m : Mpt} {id a b : NodeId} {i j : Nibble} {t u : Trie} {A B H : Finset NodeId}
    (hc : m.cells[id]? = some ⟨.branch
      (Function.update (Function.update (fun _ => none) i (some a)) j (some b)), none⟩)
    (hij : i ≠ j) (ha : Rep E m t a A) (hb : Rep E m u b B) (ht : t ≠ null) (hu : u ≠ null)
    (hdis : Disjoint A B) (hid : id ∈ H) (hA : A ⊆ H.erase id) (hB : B ⊆ H.erase id) :
    Rep E m (fork i t j u) id H := by
  refine ⟨hid, none, _, hc, .inl rfl,
    Function.update (Function.update (fun _ => ∅) i A) j B, ?_, ?_, ?_⟩
  · intro k
    by_cases hkj : k = j
    · subst hkj
      simpa using hB
    · by_cases hki : k = i
      · subst hki
        simpa [hkj] using hA
      · simp [hkj, hki]
  · intro k l hkl
    by_cases hkj : k = j
    · subst hkj
      by_cases hli : l = i
      · subst hli
        simpa [hij] using hdis.symm
      · simp [hli, Ne.symm hkl]
    · by_cases hki : k = i
      · subst hki
        by_cases hlj : l = j
        · subst hlj
          simpa [hkj] using hdis
        · simp [hlj, Ne.symm hkl]
      · simp [hkj, hki]
  · intro k
    by_cases hkj : k = j
    · subst hkj
      exact .inr ⟨b, by simp, by simpa using hu, by simpa using hb⟩
    · by_cases hki : k = i
      · subst hki
        exact .inr ⟨a, by simp [hkj], by simpa [hkj] using ht, by simpa [hkj] using ha⟩
      · exact .inl (by simp [hkj, hki])

/-- The slots of a branch with two children. -/
def forkSlots (i : Nibble) (a : NodeId) (j : Nibble) (b : NodeId) : Nibble → Option NodeId :=
  Function.update (Function.update (fun _ => none) i (some a)) j (some b)

theorem forkNode_apply (c p' q' : List Nibble) (i j : Nibble) (a b : NodeId) (m : Mpt) :
    forkNode ((c ++ i :: p').map Nibble.toByte) ((c ++ j :: q').map Nibble.toByte) c.length a b m =
      if c = [] then (.ok (.branch (forkSlots i a j b)), m)
      else (.ok (.extension (Hp.encode c false) m.size),
        m.push ⟨.branch (forkSlots i a j b), none⟩) := by
  have hi : ((c ++ i :: p').map Nibble.toByte)[c.length]? = some i.toByte := by simp
  have hj : ((c ++ j :: q').map Nibble.toByte)[c.length]? = some j.toByte := by simp
  have htake : ((c ++ i :: p').map Nibble.toByte).take c.length = c.map Nibble.toByte := by simp
  unfold forkNode
  rw [hi, hj, htake, orPanic_some, orPanic_some]
  refine (Exec.bind_ok (Exec.pure_apply _ m)).trans ?_
  rw [slotIndex_toByte]
  refine (Exec.bind_ok (Exec.pure_apply _ m)).trans
    ((Exec.bind_ok (Exec.pure_apply _ m)).trans ?_)
  rw [slotIndex_toByte]
  refine (Exec.bind_ok (Exec.pure_apply _ m)).trans ?_
  cases c <;> rfl

/-- The tail of both splits of `insert_internal`: `id` becomes a branch over the two
subtrees, under an extension if the paths have something in common. -/
theorem forkNode_spec {m₀ m : Mpt} {F : Finset NodeId} {id a b : NodeId} (c p' q' : List Nibble)
    {i j : Nibble} {t u : Trie} {A B : Finset NodeId} (hF : ∀ k ∈ F, k < m₀.size)
    (hm : Touches m₀ m F) (hid : id ∈ F) (hij : i ≠ j) (ha : Rep E m t a A) (hb : Rep E m u b B)
    (ht : t ≠ null) (hu : u ≠ null) (hdis : Disjoint A B) (hA : A ⊆ (grown F m₀ m).erase id)
    (hB : B ⊆ (grown F m₀ m).erase id) :
    ∃ m', (do
        let n ← forkNode ((c ++ i :: p').map Nibble.toByte) ((c ++ j :: q').map Nibble.toByte)
          c.length a b
        setNode id n
        pure true : TrieM Bool) m = (.ok true, m') ∧
      Pending E m₀ m' (graft c (fork i t j u)) id F := by
  have hlt : id < m.size := (hF id hid).trans_le hm.size_le
  obtain ⟨cell, hcell⟩ : ∃ cell, m.cells[id]? = some cell := ⟨_, List.getElem?_eq_getElem hlt⟩
  have hsize : ∀ k ∈ grown F m₀ m, k < m.size := by
    intro k hk
    rcases Finset.mem_union.mp hk with h | h
    · exact (hF k h).trans_le hm.size_le
    · exact (Finset.mem_Ico.mp h).2
  have hidA : id ∉ A := fun h => (Finset.mem_erase.mp (hA h)).1 rfl
  have hidB : id ∉ B := fun h => (Finset.mem_erase.mp (hB h)).1 rfl
  rcases eq_or_ne c [] with rfl | hne
  · refine ⟨m.setCell id ⟨.branch (forkSlots i a j b), cell.cachedReference⟩, ?_, ?_⟩
    · refine (Exec.bind_ok (forkNode_apply [] p' q' i j a b m)).trans ?_
      exact Exec.bind_ok (setNode_ok hcell _)
    · refine ⟨_, _, cells_setCell_self hlt _, hm.setCell hid _, ?_⟩
      rw [setCell_setCell]
      refine rep_fork (cells_setCell_self hlt _) hij (ha.setCell hidA _) (hb.setCell hidB _) ht hu
        hdis (Finset.mem_union_left _ hid) ?_ ?_
      · simpa [grown] using hA
      · simpa [grown] using hB
  · have hpush : m.size ≠ id := Nat.ne_of_gt hlt
    set m₁ := m.push ⟨.branch (forkSlots i a j b), none⟩ with hm₁
    have hsame : ∀ k ∈ grown F m₀ m, m₁.cells[k]? = m.cells[k]? :=
      fun k hk => cells_push_lt (hsize k hk) _
    have hcell₁ : m₁.cells[id]? = some cell := (cells_push_lt hlt _).trans hcell
    have hgrow : grown F m₀ m ⊆ grown F m₀ m₁ := by
      refine Finset.union_subset_union_right (Finset.Ico_subset_Ico_right ?_)
      simp [hm₁]
    have hmem : m.size ∈ grown F m₀ m₁ := by
      simp [grown, hm₁, hm.size_le]
    refine ⟨m₁.setCell id ⟨.extension (Hp.encode c false) m.size, cell.cachedReference⟩, ?_, ?_⟩
    · refine (Exec.bind_ok ((forkNode_apply c p' q' i j a b m).trans (if_neg hne))).trans ?_
      exact Exec.bind_ok (setNode_ok hcell₁ _)
    · have hm' : Touches m₀ m₁ F := hm.trans (Touches.push m _ _)
      refine ⟨_, _, cells_setCell_self (lt_size hcell₁) _, hm'.setCell hid _, ?_⟩
      rw [setCell_setCell]
      obtain ⟨x, c', rfl⟩ := List.exists_cons_of_ne_nil hne
      refine ⟨Finset.mem_union_left _ hid, none, m.size, cells_setCell_self (lt_size hcell₁) _,
        .inl rfl, by simp [fork], ?_⟩
      have hsub : ∀ {A : Finset NodeId}, A ⊆ (grown F m₀ m).erase id →
          A ⊆ ((grown F m₀ m₁).erase id).erase m.size := by
        intro A hA k hk
        have hk' := Finset.mem_erase.mp (hA hk)
        exact Finset.mem_erase.mpr ⟨Nat.ne_of_lt (hsize k hk'.2),
          Finset.mem_erase.mpr ⟨hk'.1, hgrow hk'.2⟩⟩
      have hframe : ∀ {A : Finset NodeId} {t : Trie} {a : NodeId},
          A ⊆ (grown F m₀ m).erase id → id ∉ A → Rep E m t a A → ∀ cell,
            Rep E (m₁.setCell id cell) t a A := by
        intro A t a hA hid h cell
        exact (h.frame fun k hk => hsame k (Finset.mem_of_mem_erase (hA hk))).setCell hid _
      refine rep_fork ?_ hij (hframe hA hidA ha _) (hframe hB hidB hb _) ht hu hdis
        (Finset.mem_erase.mpr ⟨hpush, by simpa [grown] using hmem⟩) ?_ ?_
      · rw [cells_setCell_ne hpush, hm₁, cells_push_self]
        rfl
      · simpa [grown] using hsub hA
      · simpa [grown] using hsub hB

/-- The remainders of two paths, as the code cuts them out of the nibble vectors. -/
theorem drop_split (c p' : List Nibble) (i : Nibble) :
    ((c ++ i :: p').map Nibble.toByte).drop (c.length + 1) = p'.map Nibble.toByte := by
  simp [List.drop_append]

theorem Refines.of_pending {x : TrieM Bool} {t' : Trie} {m : Mpt} {id : NodeId}
    {F : Finset NodeId} (hid : id ∈ F)
    (h : ∃ m', x m = (.ok true, m') ∧ Pending E m m' t' id F) :
    Refines E (x >>= finishUpdate id) (.ok (true, t')) m id F := by
  obtain ⟨m₁, h₁, hp⟩ := h
  obtain ⟨m₂, h₂, hu⟩ := hp.finish hid
  exact ⟨m₂, (Exec.bind_ok h₁).trans h₂, hu⟩

theorem lcp_split {p q c p' q' : List Nibble} (h : split p q = (c, p', q')) :
    Hp.lcp (p.map Nibble.toByte) (q.map Nibble.toByte) = c.length ∧
      p = c ++ p' ∧ q = c ++ q' := by
  have hs := split_eq p q
  rw [Hp.lcp_map, h]
  rw [h] at hs
  exact ⟨rfl, hs⟩

theorem insertAtLeaf_spec {m : Mpt} {id : NodeId} {F : Finset NodeId} {p : List Nibble}
    {old : Bytes} (hF : ∀ k ∈ F, k < m.size) (h : Rep E m (leaf p old) id F)
    (key : List Nibble) (v : Bytes) :
    Refines E (insertAtLeaf id (Hp.encode p true) old (key.map Nibble.toByte) v >>= finishUpdate id)
      ((leaf p old).insert key v) m id F := by
  obtain ⟨hid, r, hc, hr⟩ := h
  have hlt := hF id hid
  unfold insertAtLeaf
  rw [Radix.insert]
  simp only [Hp.prefixToNibs_encode]
  rcases hs : split p key with ⟨c, p', q'⟩
  obtain ⟨hlcp, rfl, rfl⟩ := lcp_split hs
  rw [hlcp]
  cases p' with
  | nil =>
    cases q' with
    | nil =>
      simp only [List.append_nil, List.length_map, and_self, if_true]
      by_cases hv : old = v
      · simp only [hv, if_true]
        rfl
      · simp only [hv, if_false]
        refine Refines.of_pending hid ⟨_, Exec.bind_ok (setNode_ok hc _), _, _,
          cells_setCell_self hlt _, (Touches.refl m F).setCell hid _, ?_⟩
        rw [setCell_setCell]
        exact ⟨Finset.mem_union_left _ hid, none, cells_setCell_self hlt _, .inl rfl⟩
    | cons j q' =>
      have hne : ¬ (c.length = ((c ++ []).map Nibble.toByte).length ∧
          c.length = ((c ++ j :: q').map Nibble.toByte).length) := by simp
      have heq : c.length = ((c ++ []).map Nibble.toByte).length ∨
          c.length = ((c ++ j :: q').map Nibble.toByte).length := by simp
      simp only [if_neg hne, if_pos heq]
      rfl
  | cons i p' =>
    cases q' with
    | nil =>
      have hne : ¬ (c.length = ((c ++ i :: p').map Nibble.toByte).length ∧
          c.length = ((c ++ []).map Nibble.toByte).length) := by simp
      have heq : c.length = ((c ++ i :: p').map Nibble.toByte).length ∨
          c.length = ((c ++ []).map Nibble.toByte).length := by simp
      simp only [if_neg hne, if_pos heq]
      rfl
    | cons j q' =>
      have hij := split_heads_ne hs
      have hne : ¬ (c.length = ((c ++ i :: p').map Nibble.toByte).length ∧
          c.length = ((c ++ j :: q').map Nibble.toByte).length) := by simp
      have hne' : ¬ (c.length = ((c ++ i :: p').map Nibble.toByte).length ∨
          c.length = ((c ++ j :: q').map Nibble.toByte).length) := by simp
      simp only [if_neg hne, if_neg hne', drop_split]
      set m₁ := m.push ⟨.leaf (Hp.encode p' true) old, none⟩ with hm₁
      set m₂ := m₁.push ⟨.leaf (Hp.encode q' true) v, none⟩ with hm₂
      have hs₁ : m₁.size = m.size + 1 := by simp [hm₁]
      have hs₂ : m₂.size = m.size + 2 := by simp [hm₂, hs₁]
      have ht : Touches m m₂ F := (Touches.push m _ _).trans (Touches.push m₁ _ _)
      have h₁ : Rep E m₂ (leaf p' old) m.size {m.size} := by
        refine ⟨Finset.mem_singleton_self _, none, ?_, .inl rfl⟩
        rw [hm₂, cells_push_lt (hs₁ ▸ Nat.lt_succ_self m.size), hm₁, cells_push_self]
      have h₂ : Rep E m₂ (leaf q' v) m₁.size {m₁.size} :=
        ⟨Finset.mem_singleton_self _, none, by rw [hm₂, cells_push_self], .inl rfl⟩
      have hown : ∀ k, m.size ≤ k → k < m.size + 2 → {k} ⊆ (grown F m m₂).erase id := by
        intro k hk hk'
        rw [Finset.singleton_subset_iff, Finset.mem_erase, Finset.mem_union, Finset.mem_Ico]
        exact ⟨Nat.ne_of_gt (Nat.lt_of_lt_of_le hlt hk), .inr ⟨hk, by omega⟩⟩
      obtain ⟨m₃, h₃, hp⟩ := forkNode_spec c p' q' hF ht hid hij h₁ h₂
        (by simp) (by simp) (by simp [hs₁]) (hown _ le_rfl (by omega))
        (hown _ (by omega) (by omega))
      exact Refines.of_pending hid ⟨m₃, h₃, hp⟩

theorem splitExtension_spec {m : Mpt} {id child : NodeId} {F : Finset NodeId} {t : Trie}
    {c p' q' : List Nibble} {i j : Nibble} (hF : ∀ k ∈ F, k < m.size) (hid : id ∈ F)
    (ht : t ≠ null) (h : Rep E m t child (F.erase id)) (hij : i ≠ j) (v : Bytes) :
    ∃ m', splitExtension id ((c ++ i :: p').map Nibble.toByte) child
        ((c ++ j :: q').map Nibble.toByte) c.length v m = (.ok true, m') ∧
      Pending E m m' (graft c (fork i (graft p' t) j (leaf q' v))) id F := by
  have hlt := hF id hid
  unfold splitExtension
  simp only [drop_split]
  -- the part of the path below the split keeps an extension of its own
  obtain ⟨m₁, self, hself, hm₁, A, hA, hrep⟩ : ∃ m₁ self,
      splitChild ((c ++ i :: p').map Nibble.toByte) (c.length + 1) child m = (.ok self, m₁) ∧
        Touches m m₁ F ∧ ∃ A, A ⊆ (grown F m m₁).erase id ∧ Rep E m₁ (graft p' t) self A := by
    unfold splitChild
    rw [drop_split]
    cases p' with
    | nil =>
      refine ⟨m, child, ?_, Touches.refl m F, F.erase id, ?_, h⟩
      · rw [if_neg (by simp)]
        rfl
      · exact Finset.erase_subset_erase id Finset.subset_union_left
    | cons x p' =>
      refine ⟨_, m.size, ?_, Touches.push m ⟨.extension (Hp.encode (x :: p') false) child, none⟩ F,
        Insert.insert m.size (F.erase id), ?_, ?_⟩
      · rw [if_pos (by simp)]
        rfl
      · refine Finset.insert_subset ?_ (Finset.erase_subset_erase id Finset.subset_union_left)
        rw [Finset.mem_erase, Finset.mem_union, Finset.mem_Ico, size_push]
        exact ⟨Nat.ne_of_gt hlt, .inr ⟨le_rfl, Nat.lt_succ_self _⟩⟩
      · refine ⟨Finset.mem_insert_self _ _, none, child, cells_push_self _ _, .inl rfl, ht, ?_⟩
        have hnot : m.size ∉ F.erase id := fun hmem =>
          absurd (hF m.size (Finset.mem_of_mem_erase hmem)) (Nat.lt_irrefl _)
        rw [Finset.erase_insert hnot]
        exact h.frame fun k hk => cells_push_lt (hF k (Finset.mem_of_mem_erase hk)) _
  set m₂ := m₁.push ⟨.leaf (Hp.encode q' true) v, none⟩ with hm₂
  have hm : Touches m m₂ F := hm₁.trans (Touches.push m₁ _ _)
  have hsize : ∀ k ∈ A, k < m₁.size := by
    intro k hk
    rcases Finset.mem_union.mp (Finset.mem_of_mem_erase (hA hk)) with hk' | hk'
    · exact (hF k hk').trans_le hm₁.size_le
    · exact (Finset.mem_Ico.mp hk').2
  have hA' : A ⊆ (grown F m m₂).erase id := by
    refine hA.trans (Finset.erase_subset_erase id
      (Finset.union_subset_union_right (Finset.Ico_subset_Ico_right ?_)))
    simp [hm₂]
  have hself' : Rep E m₂ (graft p' t) self A :=
    hrep.frame fun k hk => cells_push_lt (hsize k hk) _
  have hleaf : Rep E m₂ (leaf q' v) m₁.size {m₁.size} :=
    ⟨Finset.mem_singleton_self _, none, cells_push_self _ _, .inl rfl⟩
  have hB : {m₁.size} ⊆ (grown F m m₂).erase id := by
    rw [Finset.singleton_subset_iff, Finset.mem_erase, Finset.mem_union, Finset.mem_Ico]
    refine ⟨Nat.ne_of_gt (hlt.trans_le hm₁.size_le), .inr ⟨hm₁.size_le, ?_⟩⟩
    simp [hm₂]
  have hdis : Disjoint A {m₁.size} := by
    rw [Finset.disjoint_singleton_right]
    exact fun hk => absurd (hsize _ hk) (Nat.lt_irrefl _)
  obtain ⟨m₃, h₃, hp⟩ := forkNode_spec c p' q' hF hm hid hij hself' hleaf
    (graft_ne_null ht) (by simp) hdis hA' hB
  exact ⟨m₃, (Exec.bind_ok hself).trans h₃, hp⟩

/-- Only the run from `m` matters. -/
theorem Refines.of_eq {x y : TrieM Bool} {op : Except (Fault B256) (Bool × Trie)} {m : Mpt}
    {id : NodeId} {F : Finset NodeId} (h : Refines E y op m id F) (hxy : x m = y m) :
    Refines E x op m id F := by
  unfold Refines at h ⊢
  rw [hxy]
  exact h

/-- A subtree was updated, and its parent stays in place. -/
theorem Refines.parent {x : TrieM Bool} {op : Except (Fault B256) (Bool × Trie)} {m : Mpt}
    {id j : NodeId} {F G : Finset NodeId} {f : Trie → Trie} (h : Refines E x op m j G)
    (hid : id ∈ F) (hf : ∀ t' m', op = .ok (true, t') → Updated E m m' t' j G →
      Pending E m m' (f t') id F) :
    Refines E (x >>= finishUpdate id) (op.map fun r => (r.1, f r.2)) m id F := by
  rcases op with e | ⟨_ | _, t'⟩
  · cases e with
    | stuck =>
      obtain ⟨m', hm'⟩ := h
      exact ⟨m', Exec.bind_error hm'⟩
    | unresolved d => exact Exec.bind_error h
    | branchValue => exact Exec.bind_error h
  · exact (Exec.bind_ok h).trans (finishUpdate_false id m)
  · obtain ⟨m₁, h₁, hu⟩ := h
    exact Refines.of_pending hid ⟨m₁, h₁, hf t' m₁ rfl hu⟩

/-- The part of the arena that children own. -/
theorem grown_subset_erase {F G : Finset NodeId} {m : Mpt} (m' : Mpt) {id : NodeId}
    (hid : id < m.size)
    (hG : G ⊆ F.erase id) : grown G m m' ⊆ (grown F m m').erase id := by
  intro k hk
  rw [Finset.mem_erase]
  rcases Finset.mem_union.mp hk with hk' | hk'
  · have := Finset.mem_erase.mp (hG hk')
    exact ⟨this.1, Finset.mem_union_left _ this.2⟩
  · exact ⟨Nat.ne_of_gt (Nat.lt_of_lt_of_le hid (Finset.mem_Ico.mp hk').1),
      Finset.mem_union_right _ hk'⟩

/-- An extension whose child was updated. -/
theorem pending_ext {m m' : Mpt} {id j : NodeId} {F : Finset NodeId} {p : List Nibble} {t' : Trie}
    {r : Option NodeRef} (hF : ∀ k ∈ F, k < m.size) (hid : id ∈ F)
    (hc : m.cells[id]? = some ⟨.extension (Hp.encode p false) j, r⟩) (ht' : t' ≠ null)
    (hu : Updated E m m' t' j (F.erase id)) : Pending E m m' (ext p t') id F := by
  have hc' : m'.cells[id]? = some ⟨.extension (Hp.encode p false) j, r⟩ :=
    (hu.1.frame id (hF id hid) (Finset.notMem_erase id F)).trans hc
  have hsub := grown_subset_erase m' (hF id hid) (Finset.Subset.refl (F.erase id))
  refine ⟨_, _, hc', hu.1.mono (Finset.erase_subset id F), Finset.mem_union_left _ hid, none, j,
    cells_setCell_self (lt_size hc') _, .inl rfl, ht', ?_⟩
  exact (hu.2.mono hsub).setCell (Finset.notMem_erase id _) _

theorem update_grown_subset {m : Mpt} (m' : Mpt) {id : NodeId} {F : Finset NodeId}
    {G : Nibble → Finset NodeId} {i : Nibble} (hid : id < m.size) (hG : ∀ i, G i ⊆ F.erase id)
    (k : Nibble) : Function.update G i (grown (G i) m m') k ⊆ (grown F m m').erase id := by
  by_cases hk : k = i
  · subst hk
    simpa using grown_subset_erase m' hid (hG k)
  · simpa [hk] using (Finset.subset_union_left).trans (grown_subset_erase m' hid (hG k))

/-- A branch after one of its children was updated. -/
theorem rep_branch_update {m m' : Mpt} {id j : NodeId} {F : Finset NodeId} {c : Nibble → Trie}
    {ids : Nibble → Option NodeId} {G : Nibble → Finset NodeId} {i : Nibble} {t' : Trie}
    (hF : ∀ k ∈ F, k < m.size) (hid : id ∈ F) (hG : ∀ i, G i ⊆ F.erase id)
    (hdis : ∀ i j, i ≠ j → Disjoint (G i) (G j)) (hl : Slots E m c ids G)
    (hlt : id < m'.size) (ht' : t' ≠ null) (hu : Updated E m m' t' j (G i)) :
    Rep E (m'.setCell id ⟨.branch (Function.update ids i (some j)), none⟩)
      (branch (Function.update c i t')) id (grown F m m') := by
  have hsize : ∀ i, ∀ k ∈ G i, k < m.size :=
    fun i k hk => hF k (Finset.mem_of_mem_erase (hG i hk))
  have hnew := update_grown_subset m' (i := i) (hF id hid) hG
  refine ⟨Finset.mem_union_left _ hid, none, _, cells_setCell_self hlt _, .inl rfl,
    _, hnew, disjoint_update_grown hsize hdis i, ?_⟩
  exact (hl.update hsize hdis hu.1 ht' hu.2).setCell
    (fun k hk => Finset.notMem_erase id _ (hnew k hk)) _

theorem insertInternal_spec : ∀ {fuel : Nat} {t : Trie}, depth t ≤ fuel →
    ∀ (key : List Nibble) (v : Bytes) (id : NodeId) (F : Finset NodeId) (m : Mpt),
      (∀ k ∈ F, k < m.size) → Rep E m t id F →
      Refines E (insertInternal fuel id (key.map Nibble.toByte) v) (t.insert key v) m id F := by
  intro fuel
  induction fuel with
  | zero =>
    intro t ht
    exact absurd (depth_pos t) (by omega)
  | succ fuel ih =>
    intro t ht key v id F m hF h
    have hid := h.mem
    have hlt := hF id hid
    have hwrite : ∀ {r : Option NodeRef}, m.cells[id]? = some ⟨.null, r⟩ →
        Refines E (insertInternal (fuel + 1) id (key.map Nibble.toByte) v)
          (.ok (true, leaf key v)) m id F := by
      intro r hc
      refine Refines.of_eq (Refines.of_pending (x := do
          setNode id (.leaf (Hp.encode key true) v)
          pure true) hid ⟨_, Exec.bind_ok (setNode_ok hc _), _, _, cells_setCell_self hlt _,
        (Touches.refl m F).setCell hid _, ?_⟩) ?_
      · rw [setCell_setCell]
        exact ⟨Finset.mem_union_left _ hid, none, cells_setCell_self hlt _, .inl rfl⟩
      · rw [insertInternal, Exec.bind_ok (nodeAt_ok hc)]
        rfl
    cases t with
    | null =>
      obtain ⟨_, r, hc, _⟩ := h
      exact hwrite hc
    | hole =>
      obtain ⟨_, r, hc, _⟩ := h
      exact hwrite hc
    | digest d =>
      obtain ⟨_, r, hc, _⟩ := h
      rw [insertInternal]
      exact (Exec.bind_ok (nodeAt_ok hc)).trans (Exec.bind_error (notResolved_apply d m))
    | leaf p old =>
      have hspec := insertAtLeaf_spec hF h key v
      obtain ⟨_, r, hc, _⟩ := h
      rw [insertInternal]
      exact hspec.of_eq (Exec.bind_ok (nodeAt_ok hc))
    | ext p c =>
      obtain ⟨_, r, j, hc, _, hne, hl⟩ := h
      rw [insertInternal]
      refine Refines.of_eq ?_ (Exec.bind_ok (nodeAt_ok hc))
      simp only [Hp.prefixToNibs_encode]
      rw [Radix.insert]
      rcases hs : split p key with ⟨q, p', q'⟩
      obtain ⟨hlcp, hp, hkey⟩ := lcp_split hs
      rw [hlcp]
      cases p' with
      | nil =>
        have hlen : q.length = (p.map Nibble.toByte).length := by simp [hp]
        have hdrop : (key.map Nibble.toByte).drop q.length = q'.map Nibble.toByte := by simp [hkey]
        simp only [if_pos hlen, hdrop]
        refine Refines.parent (ih (Nat.le_of_succ_le_succ ht) q' v j (F.erase id) m
          (fun k hk => hF k (Finset.mem_of_mem_erase hk)) hl) hid ?_
        intro t' m' hop hu
        exact pending_ext hF hid hc (insert_ne_null hop) hu
      | cons i p' =>
        have hlen : ¬ q.length = (p.map Nibble.toByte).length := by simp [hp]
        cases q' with
        | nil =>
          have hlen' : q.length = (key.map Nibble.toByte).length := by simp [hkey]
          simp only [if_neg hlen, if_pos hlen']
          exact Exec.bind_error (Exec.fail_apply _ m)
        | cons k q' =>
          have hlen' : ¬ q.length = (key.map Nibble.toByte).length := by simp [hkey]
          simp only [if_neg hlen, if_neg hlen']
          subst hp hkey
          exact Refines.of_pending hid (splitExtension_spec hF hid hne hl (split_heads_ne hs) v)
    | branch c =>
      obtain ⟨_, r, ids, hc, _, G, hG, hdis, hl⟩ := h
      rw [insertInternal]
      refine Refines.of_eq ?_ (Exec.bind_ok (nodeAt_ok hc))
      cases key with
      | nil => exact Exec.bind_error (Exec.fail_apply _ m)
      | cons i key =>
        simp only [List.map_cons, slotIndex_toByte]
        rcases hl i with ⟨hn, h0⟩ | ⟨j, hj, hne, hij⟩
        · have hu : Updated E m (m.push ⟨.leaf (Hp.encode key true) v, none⟩) (leaf key v) m.size
              (G i) := by
            refine ⟨Touches.push m _ _, ?_, none, cells_push_self m _, .inl rfl⟩
            simp [grown]
          have hc' := (cells_push_lt hlt ⟨.leaf (Hp.encode key true) v, none⟩).trans hc
          have hrep := rep_branch_update hF hid hG hdis hl (lt_size hc') (by simp) hu
          rw [Radix.insert, h0]
          refine Refines.of_pending hid ⟨_, (Exec.bind_ok (Exec.pure_apply i m)).trans ?_, _, _,
            cells_setCell_self (lt_size hc') ⟨.branch (Function.update ids i (some m.size)), r⟩,
            (Touches.push m _ F).setCell hid _, ?_⟩
          · simp only [hn]
            exact (Exec.bind_ok (addNode_ok m _ none)).trans (Exec.bind_ok (setNode_ok hc' _))
          · rw [setCell_setCell]
            simpa [grown] using hrep
        · have hspec := ih (by have := depth_child_lt hne; omega) key v j (G i) m
            (fun k hk => hF k (Finset.mem_of_mem_erase (hG i hk))) hij
          rw [Radix.insert]
          refine Refines.parent (f := fun t' => branch (Function.update c i t'))
            (hspec.of_eq ((Exec.bind_ok (Exec.pure_apply i m)).trans ?_)) hid ?_
          · simp only [hj]
          intro t' m' hop hu
          have hc' : m'.cells[id]? = some ⟨.branch ids, r⟩ :=
            (hu.1.frame id hlt fun hmem => Finset.notMem_erase id F (hG i hmem)).trans hc
          have hrep := rep_branch_update hF hid hG hdis hl (lt_size hc') (insert_ne_null hop) hu
          rw [← hj, Function.update_eq_self] at hrep
          exact ⟨_, _, hc', hu.1.mono ((hG i).trans (Finset.erase_subset id F)), hrep⟩

/-! ## Deletion -/

theorem extend_ne_hole (p : List Nibble) (t : Trie) : extend p t ≠ hole := by
  cases t <;> simp [extend]

theorem shrink_ne_hole {c : Nibble → Trie} {b : Bool} {t' : Trie} (h : shrink c = .ok (b, t')) :
    t' ≠ hole := by
  unfold shrink at h
  split at h
  · simp at h
  · split at h
    · simp at h
    · simp only [Except.ok.injEq, Prod.mk.injEq] at h
      exact h.2 ▸ extend_ne_hole _ _
  · simp only [Except.ok.injEq, Prod.mk.injEq] at h
    simp [← h.2]

/-- A deletion that removed something leaves no erased node at its root. -/
theorem delete_ne_hole {t t' : Trie} {key : List Nibble} (h : t.delete key = .ok (true, t')) :
    t' ≠ hole := by
  cases t with
  | null => simp [Radix.delete] at h
  | hole => simp [Radix.delete] at h
  | digest d => simp [Radix.delete] at h
  | leaf p v =>
    rw [Radix.delete] at h
    split at h
    · simp only [Except.ok.injEq, Prod.mk.injEq] at h
      simp [← h.2]
    · simp at h
  | ext p c =>
    rw [Radix.delete] at h
    split at h
    · rename_i tail _
      cases hc : c.delete tail with
      | error f => simp [hc, Except.map] at h
      | ok r =>
        simp only [hc, Except.map, Except.ok.injEq] at h
        split at h
        · simp only [Prod.mk.injEq] at h
          exact h.2 ▸ extend_ne_hole _ _
        · simp at h
    · simp at h
  | branch c =>
    cases key with
    | nil => simp [Radix.delete] at h
    | cons i key =>
      rw [Radix.delete] at h
      cases hc : (c i).delete key with
      | error f => simp [hc, bind, Except.bind] at h
      | ok r =>
        simp only [hc, bind, Except.bind] at h
        split at h
        · exact shrink_ne_hole h
        · simp at h

/-- The remaining indices of the code are the occupied slots. -/
theorem Slots.remaining_eq {m : Mpt} {c : Nibble → Trie} {ids : Nibble → Option NodeId}
    {G : Nibble → Finset NodeId} (h : Slots E m c ids G) : remaining ids = occupied c := by
  unfold remaining occupied
  congr 1
  funext i
  rcases h i with ⟨hn, h0⟩ | ⟨j, hj, hne, _⟩
  · simp [hn, h0, isNull]
  · simp [hj, isNull_eq_false.mpr hne]

/-- A node that replaces the one at `id`. -/
theorem pending_setNode {m₀ m : Mpt} {F : Finset NodeId} {id : NodeId} {cell : Cell}
    {data : NodeData} {t : Trie} (hm : Touches m₀ m F) (hid : id ∈ F)
    (hc : m.cells[id]? = some cell)
    (h : Rep E (m.setCell id ⟨data, none⟩) t id (grown F m₀ m)) :
    ∃ m', setNode id data m = (.ok (), m') ∧ Pending E m₀ m' t id F := by
  refine ⟨_, setNode_ok hc data, _, _, cells_setCell_self (lt_size hc) _, hm.setCell hid _, ?_⟩
  rw [setCell_setCell]
  simpa [grown] using h

/-- `convert_branch` does to the arena what `shrink` does to the trie. -/
theorem convertBranch_spec {m₀ m : Mpt} {F : Finset NodeId} {id : NodeId} {cell : Cell}
    {c : Nibble → Trie} {ids : Nibble → Option NodeId} {G : Nibble → Finset NodeId}
    (hm : Touches m₀ m F) (hid : id ∈ F) (hc : m.cells[id]? = some cell)
    (hG : ∀ i, G i ⊆ (grown F m₀ m).erase id) (hdis : ∀ i j, i ≠ j → Disjoint (G i) (G j))
    (hl : Slots E m c ids G) :
    (∃ t', shrink c = .ok (true, t') ∧
      ∃ m', convertBranch id ids m = (.ok (), m') ∧ Pending E m₀ m' t' id F) ∨
    (shrink c = .error .stuck ∧ ∃ m', convertBranch id ids m = (.error .panic, m')) := by
  have hlt := lt_size hc
  have hidF : id ∈ grown F m₀ m := Finset.mem_union_left _ hid
  have hnot : ∀ i, id ∉ G i := fun i hi => Finset.notMem_erase id _ (hG i hi)
  unfold convertBranch shrink
  rw [hl.remaining_eq]
  rcases occupied_cases c with ⟨ho, _⟩ | ⟨x, ho, hx, _⟩ | ho
  · exact .inr ⟨by simp only [ho], m, by simp only [ho]; rfl⟩
  · simp only [ho]
    rcases hl x with ⟨_, h0⟩ | ⟨j, hj, _, hrep⟩
    · exact absurd h0 hx
    · rw [hj, orPanic_some]
      cases hcx : c x with
      | null => exact absurd hcx hx
      | hole =>
        rw [hcx] at hrep
        obtain ⟨_, r, hcj, _⟩ := hrep
        refine .inr ⟨rfl, m, ?_⟩
        refine (Exec.bind_ok (Exec.pure_apply j m)).trans (Exec.bind_error ?_)
        rw [Exec.bind_ok (nodeAt_ok hcj)]
        rfl
      | leaf q v =>
        rw [hcx] at hrep
        obtain ⟨_, r, hcj, _⟩ := hrep
        obtain ⟨m', hm', hp⟩ := pending_setNode (E := E) (t := leaf (x :: q) v) hm hid hc
          ⟨hidF, none, cells_setCell_self hlt _, .inl rfl⟩
        refine .inl ⟨_, rfl, m', ?_, hp⟩
        refine (Exec.bind_ok (Exec.pure_apply j m)).trans ((Exec.bind_ok ?_).trans hm')
        rw [Exec.bind_ok (nodeAt_ok hcj)]
        simp only [Hp.prefixToNibs_encode]
        rfl
      | ext q d =>
        rw [hcx] at hrep
        obtain ⟨_, r, k, hcj, _, hne, hk⟩ := hrep
        have hsub := (Finset.erase_subset j (G x)).trans (hG x)
        obtain ⟨m', hm', hp⟩ := pending_setNode (E := E) (t := ext (x :: q) d) hm hid hc
          ⟨hidF, none, k, cells_setCell_self hlt _, .inl rfl, hne,
            (hk.mono hsub).setCell (Finset.notMem_erase id _) _⟩
        refine .inl ⟨_, rfl, m', ?_, hp⟩
        refine (Exec.bind_ok (Exec.pure_apply j m)).trans ((Exec.bind_ok ?_).trans hm')
        rw [Exec.bind_ok (nodeAt_ok hcj)]
        simp only [Hp.prefixToNibs_encode]
        rfl
      | branch d =>
        rw [hcx] at hrep
        obtain ⟨m', hm', hp⟩ := pending_setNode (E := E) (t := ext [x] (branch d)) hm hid hc
          ⟨hidF, none, j, cells_setCell_self hlt _, .inl rfl, by simp,
            (hrep.mono (hG x)).setCell (Finset.notMem_erase id _) _⟩
        obtain ⟨_, r, _, hcj, _⟩ := hrep
        refine .inl ⟨_, rfl, m', ?_, hp⟩
        refine (Exec.bind_ok (Exec.pure_apply j m)).trans ((Exec.bind_ok ?_).trans hm')
        rw [Exec.bind_ok (nodeAt_ok hcj)]
        rfl
      | digest d =>
        rw [hcx] at hrep
        obtain ⟨m', hm', hp⟩ := pending_setNode (E := E) (t := ext [x] (digest d)) hm hid hc
          ⟨hidF, none, j, cells_setCell_self hlt _, .inl rfl, by simp,
            (hrep.mono (hG x)).setCell (Finset.notMem_erase id _) _⟩
        obtain ⟨_, r, hcj, _⟩ := hrep
        refine .inl ⟨_, rfl, m', ?_, hp⟩
        refine (Exec.bind_ok (Exec.pure_apply j m)).trans ((Exec.bind_ok ?_).trans hm')
        rw [Exec.bind_ok (nodeAt_ok hcj)]
        rfl
  · obtain ⟨x, y, rest, ho⟩ : ∃ x y rest, occupied c = x :: y :: rest := by
      rcases hl : occupied c with _ | ⟨x, _ | ⟨y, rest⟩⟩
      · simp [hl] at ho
      · simp [hl] at ho
      · exact ⟨x, y, rest, rfl⟩
    simp only [ho]
    obtain ⟨m', hm', hp⟩ := pending_setNode (E := E) (t := branch c) hm hid hc
      ⟨hidF, none, ids, cells_setCell_self hlt _, .inl rfl, G, hG, hdis, hl.setCell hnot _⟩
    exact .inl ⟨_, rfl, m', hm', hp⟩

/-- `extend` on the trie is what an extension makes of its updated child. -/
theorem mergeExtension_spec {m₀ m : Mpt} {F : Finset NodeId} {id j : NodeId} {p : List Nibble}
    {r : Option NodeRef} {t : Trie} (hm : Touches m₀ m F) (hid : id ∈ F)
    (hc : m.cells[id]? = some ⟨.extension (Hp.encode p false) j, r⟩)
    (h : Rep E m t j ((grown F m₀ m).erase id)) :
    ∃ m', mergeExtension id (Hp.encode p false) j m = (.ok (), m') ∧
      Pending E m₀ m' (extend p t) id F := by
  have hlt := lt_size hc
  have hidF : id ∈ grown F m₀ m := Finset.mem_union_left _ hid
  have hnot := Finset.notMem_erase id (grown F m₀ m)
  unfold mergeExtension
  simp only [Hp.prefixToNibs_encode]
  cases t with
  | null =>
    obtain ⟨_, s, hcj, _⟩ := h
    rw [Exec.bind_ok (nodeAt_ok hcj)]
    exact pending_setNode hm hid hc ⟨hidF, none, cells_setCell_self hlt _, .inl rfl⟩
  | hole =>
    obtain ⟨_, s, hcj, _⟩ := h
    rw [Exec.bind_ok (nodeAt_ok hcj)]
    exact pending_setNode hm hid hc ⟨hidF, none, cells_setCell_self hlt _, .inl rfl⟩
  | leaf q v =>
    obtain ⟨_, s, hcj, _⟩ := h
    rw [Exec.bind_ok (nodeAt_ok hcj)]
    simp only [Hp.prefixToNibs_encode, ← List.map_append]
    exact pending_setNode hm hid hc ⟨hidF, none, cells_setCell_self hlt _, .inl rfl⟩
  | ext q d =>
    obtain ⟨_, s, k, hcj, _, hne, hk⟩ := h
    rw [Exec.bind_ok (nodeAt_ok hcj)]
    simp only [Hp.prefixToNibs_encode, ← List.map_append]
    exact pending_setNode hm hid hc ⟨hidF, none, k, cells_setCell_self hlt _, .inl rfl, hne,
      (hk.mono (Finset.erase_subset j _)).setCell hnot _⟩
  | branch d =>
    have hj := h
    obtain ⟨_, s, _, hcj, _⟩ := h
    rw [Exec.bind_ok (nodeAt_ok hcj)]
    exact pending_setNode hm hid hc ⟨hidF, none, j, cells_setCell_self hlt _, .inl rfl, by simp,
      hj.setCell hnot _⟩
  | digest d =>
    have hj := h
    obtain ⟨_, s, hcj, _⟩ := h
    rw [Exec.bind_ok (nodeAt_ok hcj)]
    exact pending_setNode hm hid hc ⟨hidF, none, j, cells_setCell_self hlt _, .inl rfl, by simp,
      hj.setCell hnot _⟩

/-- A key was removed from a subtree, and its parent is rewritten. -/
theorem Refines.rewrite {x z : TrieM Bool} {op : Except (Fault B256) (Bool × Trie)} {m : Mpt}
    {id j : NodeId} {F G : Finset NodeId} {g : Trie → Except (Fault B256) (Bool × Trie)}
    {t : Trie} (h : Refines E x op m j G) (hid : id ∈ F)
    (hz : ∀ t' m', op = .ok (true, t') → Updated E m m' t' j G →
      (∃ t'', g t' = .ok (true, t'') ∧ ∃ m'', z m' = (.ok true, m'') ∧ Pending E m m'' t'' id F) ∨
      (g t' = .error .stuck ∧ ∃ m'', z m' = (.error .panic, m''))) :
    Refines E ((do if ← x then z else pure false) >>= finishUpdate id)
      (op.bind fun r => if r.1 then g r.2 else .ok (false, t)) m id F := by
  rcases op with e | ⟨_ | _, t'⟩
  · cases e with
    | stuck =>
      obtain ⟨m', hm'⟩ := h
      exact ⟨m', Exec.bind_error (Exec.bind_error hm')⟩
    | unresolved d => exact Exec.bind_error (Exec.bind_error h)
    | branchValue => exact Exec.bind_error (Exec.bind_error h)
  · have hx : (do if ← x then z else pure false : TrieM Bool) m = (.ok false, m) :=
      Exec.bind_ok h
    exact (Exec.bind_ok hx).trans (finishUpdate_false id m)
  · obtain ⟨m₁, h₁, hu⟩ := h
    rcases hz t' m₁ rfl hu with ⟨t'', hg, m₂, h₂, hp⟩ | ⟨hg, m₂, h₂⟩
    · simp only [Except.bind, if_true, hg]
      exact Refines.of_pending hid ⟨m₂, (Exec.bind_ok h₁).trans h₂, hp⟩
    · simp only [Except.bind, if_true, hg]
      exact ⟨m₂, Exec.bind_error ((Exec.bind_ok h₁).trans h₂)⟩

theorem deleteInternal_spec : ∀ {fuel : Nat} {t : Trie}, depth t ≤ fuel →
    ∀ (key : List Nibble) (id : NodeId) (F : Finset NodeId) (m : Mpt),
      (∀ k ∈ F, k < m.size) → Rep E m t id F →
      Refines E (deleteInternal fuel id (key.map Nibble.toByte)) (t.delete key) m id F := by
  intro fuel
  induction fuel with
  | zero =>
    intro t ht
    exact absurd (depth_pos t) (by omega)
  | succ fuel ih =>
    intro t ht key id F m hF h
    have hid := h.mem
    have hlt := hF id hid
    rw [deleteInternal]
    cases t with
    | null =>
      obtain ⟨_, r, hc, _⟩ := h
      exact (Exec.bind_ok (nodeAt_ok hc)).trans (finishUpdate_false id m)
    | hole =>
      obtain ⟨_, r, hc, _⟩ := h
      exact (Exec.bind_ok (nodeAt_ok hc)).trans (finishUpdate_false id m)
    | digest d =>
      obtain ⟨_, r, hc, _⟩ := h
      exact (Exec.bind_ok (nodeAt_ok hc)).trans (Exec.bind_error (notResolved_apply d m))
    | leaf p v =>
      obtain ⟨_, r, hc, _⟩ := h
      refine Refines.of_eq ?_ (Exec.bind_ok (nodeAt_ok hc))
      have heq : p.map Nibble.toByte = key.map Nibble.toByte ↔ p = key :=
        (List.map_injective_iff.mpr Nibble.toByte_injective).eq_iff
      simp only [Hp.prefixToNibs_encode, heq]
      rw [Radix.delete]
      by_cases hp : p = key
      · simp only [if_pos hp]
        obtain ⟨m', hm', hpend⟩ := pending_setNode (E := E) (t := null) (Touches.refl m F) hid hc
          ⟨Finset.mem_union_left _ hid, none, cells_setCell_self hlt _, .inl rfl⟩
        exact Refines.of_pending hid ⟨m', Exec.bind_ok hm', hpend⟩
      · simp only [if_neg hp]
        exact finishUpdate_false id m
    | ext p c =>
      obtain ⟨_, r, j, hc, _, hne, hl⟩ := h
      refine Refines.of_eq ?_ (Exec.bind_ok (nodeAt_ok hc))
      simp only [Hp.prefixToNibs_encode, Hp.stripPrefix_map]
      rw [Radix.delete]
      cases hs : stripPrefix p key with
      | none => exact finishUpdate_false id m
      | some tail =>
        simp only [Option.map_some]
        have hspec := ih (Nat.le_of_succ_le_succ ht) tail j (F.erase id) m
          (fun k hk => hF k (Finset.mem_of_mem_erase hk)) hl
        have hmap : ((c.delete tail).map fun r =>
            if r.1 then (true, extend p r.2) else (false, ext p c)) = (c.delete tail).bind
              fun r => if r.1 then .ok (true, extend p r.2) else .ok (false, ext p c) := by
          cases c.delete tail with
          | error f => rfl
          | ok r => cases hb : r.1 <;> simp [Except.map, Except.bind, hb]
        simp only [hmap]
        refine hspec.rewrite hid fun t' m' _ hu => .inl ⟨_, rfl, ?_⟩
        have hc' := (hu.1.frame id hlt (Finset.notMem_erase id F)).trans hc
        have hsub := grown_subset_erase m' hlt (Finset.Subset.refl (F.erase id))
        obtain ⟨m'', hm'', hp⟩ := mergeExtension_spec (hu.1.mono (Finset.erase_subset id F)) hid hc'
          (hu.2.mono hsub)
        exact ⟨m'', Exec.bind_ok hm'', hp⟩
    | branch c =>
      obtain ⟨_, r, ids, hc, _, G, hG, hdis, hl⟩ := h
      refine Refines.of_eq ?_ (Exec.bind_ok (nodeAt_ok hc))
      cases key with
      | nil => exact Exec.bind_error (Exec.fail_apply _ m)
      | cons i key =>
        simp only [List.map_cons, slotIndex_toByte]
        rw [Radix.delete]
        rcases hl i with ⟨hn, h0⟩ | ⟨j, hj, hne, hij⟩
        · rw [h0]
          refine (Exec.bind_ok ((Exec.bind_ok (Exec.pure_apply i m)).trans ?_)).trans
            (finishUpdate_false id m)
          simp only [hn]
          rfl
        · have hspec := ih (by have := depth_child_lt hne; omega) key j (G i) m
            (fun k hk => hF k (Finset.mem_of_mem_erase (hG i hk))) hij
          refine Refines.of_eq (hspec.rewrite (t := branch c)
            (g := fun t' => shrink (Function.update c i t')) (z := do
              let empty := (← nodeAt j) = .null
              convertBranch id (if empty then Function.update ids i none else ids)
              pure true) hid ?_) ?_
          · intro t' m' hop hu
            have hsize : ∀ i, ∀ k ∈ G i, k < m.size :=
              fun i k hk => hF k (Finset.mem_of_mem_erase (hG i hk))
            have hm : Touches m m' F := hu.1.mono ((hG i).trans (Finset.erase_subset id F))
            have hc' : m'.cells[id]? = some ⟨.branch ids, r⟩ :=
              (hu.1.frame id hlt fun hmem => Finset.notMem_erase id F (hG i hmem)).trans hc
            obtain ⟨data, s, hcj, _⟩ := hu.2.reads.exists_cell
            -- the slot is given up if and only if the child is gone
            obtain ⟨ids', G', hids', hG', hdis', hl'⟩ : ∃ ids' G',
                (if data = .null then Function.update ids i none else ids) = ids' ∧
                (∀ k, G' k ⊆ (grown F m m').erase id) ∧
                (∀ k l, k ≠ l → Disjoint (G' k) (G' l)) ∧
                Slots E m' (Function.update c i t') ids' G' := by
              by_cases ht' : t' = null
              · subst ht'
                refine ⟨_, G, if_pos ((hu.2.reads.data_eq_null hcj).mpr (.inl rfl)), fun k => ?_,
                  hdis, Slots.clear hl hsize hdis hu.1⟩
                exact Finset.subset_union_left.trans (grown_subset_erase m' hlt (hG k))
              · have hdata : data ≠ .null := fun hd =>
                  ((hu.2.reads.data_eq_null hcj).mp hd).elim ht' (delete_ne_hole hop)
                refine ⟨_, _, if_neg hdata, update_grown_subset m' hlt hG, disjoint_update_grown hsize
                  hdis i, ?_⟩
                have hupd := Slots.update hl hsize hdis hu.1 ht' hu.2
                rwa [← hj, Function.update_eq_self] at hupd
            have hrun : (do
                let empty := (← nodeAt j) = .null
                convertBranch id (if empty then Function.update ids i none else ids)
                pure true : TrieM Bool) m' = (do convertBranch id ids'; pure true : TrieM Bool) m' := by
              rw [← hids']
              exact Exec.bind_ok (nodeAt_ok hcj)
            rw [hrun]
            rcases convertBranch_spec hm hid hc' hG' hdis' hl' with
              ⟨t'', hsh, m'', hm'', hp⟩ | ⟨hsh, m'', hm''⟩
            · exact .inl ⟨t'', hsh, m'', Exec.bind_ok hm'', hp⟩
            · exact .inr ⟨hsh, m'', Exec.bind_error hm''⟩
          · refine Exec.bind_congr ((Exec.bind_ok (Exec.pure_apply i m)).trans ?_)
            simp only [hj]

/-- A deletion that removes nothing returns its argument. -/
theorem delete_false {t t' : Trie} {key : List Nibble} (h : t.delete key = .ok (false, t')) :
    t' = t := by
  cases t with
  | null => simpa [Radix.delete] using h.symm
  | hole => simpa [Radix.delete] using h.symm
  | digest d => simp [Radix.delete] at h
  | leaf p v =>
    rw [Radix.delete] at h
    split at h
    · simp at h
    · simpa using h.symm
  | ext p c =>
    rw [Radix.delete] at h
    split at h
    · rename_i tail _
      cases hc : c.delete tail with
      | error f => simp [hc, Except.map] at h
      | ok r =>
        simp only [hc, Except.map, Except.ok.injEq] at h
        split at h
        · simp at h
        · simpa using h.symm
    · simpa using h.symm
  | branch c =>
    cases key with
    | nil => simp [Radix.delete] at h
    | cons i key =>
      rw [Radix.delete] at h
      cases hc : (c i).delete key with
      | error f => simp [hc, bind, Except.bind] at h
      | ok r =>
        simp only [hc, bind, Except.bind] at h
        split at h
        · unfold shrink at h
          split at h
          · simp at h
          · split at h <;> simp at h
          · simp at h
        · simpa using h.symm

/-! ## Whole arenas -/

/-- The arena represents the trie `t`: it reads as `t` from its root, as a tree, and
no cached reference is stale. -/
def Represents (E : Env) (m : Mpt) (t : Trie) : Prop :=
  Rep E m t m.rootId (Finset.range m.size)

theorem represents_new : Represents E new null :=
  ⟨Finset.mem_range.mpr (by decide), none, rfl, .inl rfl⟩

theorem Represents.depth_le {m : Mpt} {t : Trie} (h : Represents E m t) : depth t ≤ m.size := by
  simpa using Rep.depth_le h

theorem Represents.fills {m m' : Mpt} {t : Trie} (h : Represents E m t) (hf : Fills E m m') :
    Represents E m' t := by
  have h' := Rep.fills hf h
  rwa [← hf.size, ← hf.rootId] at h'

theorem Represents.updated {m m' : Mpt} {t' : Trie}
    (h : Updated E m m' t' m.rootId (Finset.range m.size)) : Represents E m' t' := by
  have hsub : grown (Finset.range m.size) m m' ⊆ Finset.range m'.size := by
    refine Finset.union_subset (Finset.range_subset_range.mpr h.1.size_le) ?_
    intro k hk
    exact Finset.mem_range.mpr (Finset.mem_Ico.mp hk).2
  have h' := h.2.mono hsub
  rwa [← h.1.rootId] at h'

/-- A refined operation on the root: on success the arena represents the result, and
on failure nothing was written. -/
theorem Refines.root {x : TrieM Bool} {t : Trie} {op : Except (Fault B256) (Bool × Trie)} {m : Mpt}
    (hx : Refines E x op m m.rootId (Finset.range m.size)) (h : Represents E m t)
    (hfalse : ∀ t', op = .ok (false, t') → t' = t) :
    (∀ b t', op = .ok (b, t') → ∃ m', x m = (.ok b, m') ∧ Represents E m' t') ∧
      (∀ f, op = .error f → f ≠ .stuck → x m = (.error (halt f), m)) := by
  constructor
  · rintro b t' rfl
    cases b with
    | false => exact ⟨m, hx, (hfalse t' rfl) ▸ h⟩
    | true =>
      obtain ⟨m', hm', hu⟩ := hx
      exact ⟨m', hm', Represents.updated hu⟩
  · rintro f rfl hf
    cases f with
    | stuck => exact absurd rfl hf
    | unresolved d => exact hx
    | branchValue => exact hx

section Methods

variable {m : Mpt} {t : Trie}

theorem getNibbles_spec (h : Represents E m t) (key : List Nibble) :
    getNibbles (key.map Nibble.toByte) m = ((t.get key).mapError halt, m) := by
  unfold getNibbles
  rw [Exec.bind_ok (Exec.read_apply _ m)]
  exact getInternal_spec h.depth_le key m.rootId (Rep.reads h)

theorem insertNibbles_refines (h : Represents E m t) (key : List Nibble) (v : Bytes) :
    Refines E (insertNibbles (key.map Nibble.toByte) v) (t.insert key v) m m.rootId
      (Finset.range m.size) :=
  (insertInternal_spec h.depth_le key v m.rootId _ m (fun _ hk => Finset.mem_range.mp hk) h).of_eq
    (Exec.bind_ok (Exec.read_apply _ m))

theorem deleteNibbles_refines (h : Represents E m t) (key : List Nibble) :
    Refines E (deleteNibbles (key.map Nibble.toByte)) (t.delete key) m m.rootId
      (Finset.range m.size) :=
  (deleteInternal_spec h.depth_le key m.rootId _ m (fun _ hk => Finset.mem_range.mp hk) h).of_eq
    (Exec.bind_ok (Exec.read_apply _ m))

theorem insertNibbles_spec (h : Represents E m t) {key : List Nibble} {v : Bytes} {b : Bool}
    {t' : Trie} (hop : t.insert key v = .ok (b, t')) :
    ∃ m', insertNibbles (key.map Nibble.toByte) v m = (.ok b, m') ∧ Represents E m' t' :=
  ((insertNibbles_refines h key v).root h fun _ => insert_false).1 b t' hop

theorem insertNibbles_error (h : Represents E m t) {key : List Nibble} {v : Bytes}
    {f : Fault B256} (hop : t.insert key v = .error f) (hf : f ≠ .stuck) :
    insertNibbles (key.map Nibble.toByte) v m = (.error (halt f), m) :=
  ((insertNibbles_refines h key v).root h fun _ => insert_false).2 f hop hf

theorem deleteNibbles_spec (h : Represents E m t) {key : List Nibble} {b : Bool} {t' : Trie}
    (hop : t.delete key = .ok (b, t')) :
    ∃ m', deleteNibbles (key.map Nibble.toByte) m = (.ok b, m') ∧ Represents E m' t' :=
  ((deleteNibbles_refines h key).root h fun _ => delete_false).1 b t' hop

theorem deleteNibbles_error (h : Represents E m t) {key : List Nibble} {f : Fault B256}
    (hop : t.delete key = .error f) (hf : f ≠ .stuck) :
    deleteNibbles (key.map Nibble.toByte) m = (.error (halt f), m) :=
  ((deleteNibbles_refines h key).root h fun _ => delete_false).2 f hop hf

theorem hash_represents (h : Represents E m t) :
    ∃ m', hash E m = (.ok (Trie.hash E t), m') ∧ Represents E m' t := by
  obtain ⟨m', hm', hf⟩ := hash_spec (Rep.reads h) h.depth_le
  exact ⟨m', hm', h.fills hf⟩

theorem isEmpty_spec (h : Represents E m t) :
    ∃ b, isEmpty m = (.ok b, m) ∧ (b = true ↔ t = null ∨ t = hole) := by
  obtain ⟨data, r, hc, _⟩ := (Rep.reads h).exists_cell
  refine ⟨decide (data = .null), ?_, ?_⟩
  · unfold isEmpty
    rw [Exec.bind_ok (Exec.read_apply _ m), Exec.bind_ok (nodeAt_ok hc)]
    rfl
  · rw [decide_eq_true_iff]
    exact (Rep.reads h).data_eq_null hc

end Methods

end Mpt
end CenoReth
