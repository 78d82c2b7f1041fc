/-
Reading an arena as a trie.

`Layout P m t id` says that the nodes reachable from `id` in the arena `m` are
those of the trie `t`, and that every cached reference among them satisfies `P`.
`Reads E m t id` is the case in which a cached reference, if there is one, is the
reference of the node it belongs to.

Hashing and encoding write to the arena: they fill cached references.  `Fills`
is what such a run may do, and it keeps every reading of the arena, shared nodes
included.  Under `Reads` the encoder of `Mpt/Reference.lean` produces exactly the
encoding, the reference and the hash of `Mpt/Trie.lean`.
-/
import CenoReth.Mpt.Trie
import CenoReth.Mpt.Update

namespace CenoReth
namespace Mpt

open Patricia.Radix Trie

/-- The subtree at `id` is the trie `t`.  An empty slot is a null child, and a slot
that points to an erased node is a hole. -/
def Layout (P : Option NodeRef → Trie → Prop) (m : Mpt) : Trie → NodeId → Prop
  | null, id => ∃ r, m.cells[id]? = some ⟨.null, r⟩ ∧ P r null
  | hole, id => ∃ r, m.cells[id]? = some ⟨.null, r⟩ ∧ P r hole
  | leaf p v, id => ∃ r, m.cells[id]? = some ⟨.leaf (Hp.encode p true) v, r⟩ ∧ P r (leaf p v)
  | digest d, id => ∃ r, m.cells[id]? = some ⟨.digest d.bytes, r⟩ ∧ P r (digest d)
  | ext p c, id => ∃ r j, m.cells[id]? = some ⟨.extension (Hp.encode p false) j, r⟩ ∧
      P r (ext p c) ∧ Layout P m c j
  | branch c, id => ∃ r ids, m.cells[id]? = some ⟨.branch ids, r⟩ ∧ P r (branch c) ∧
      ∀ i, (ids i = none ∧ c i = null) ∨
        ∃ j, ids i = some j ∧ c i ≠ null ∧ Layout P m (c i) j

/-- A cached reference is absent or right. -/
def Cached (E : Env) (r : Option NodeRef) (t : Trie) : Prop := r = none ∨ r = some (t.ref E)

abbrev Reads (E : Env) : Mpt → Trie → NodeId → Prop := Layout (Cached E)

abbrev Shape : Mpt → Trie → NodeId → Prop := Layout fun _ _ => True

variable {E : Env}

/-- The condition on the cached references may be weakened, and the arena changed
where no node changes. -/
theorem Layout.mono {P Q : Option NodeRef → Trie → Prop} {m m' : Mpt}
    (h : ∀ id data r t, m.cells[id]? = some ⟨data, r⟩ → Layout P m t id → P r t →
      ∃ r', m'.cells[id]? = some ⟨data, r'⟩ ∧ Q r' t) :
    ∀ {t : Trie} {id : NodeId}, Layout P m t id → Layout Q m' t id := by
  intro t
  induction t with
  | null =>
    rintro id ⟨r, hc, hp⟩
    obtain ⟨r', hc', hq⟩ := h id _ r null hc ⟨r, hc, hp⟩ hp
    exact ⟨r', hc', hq⟩
  | hole =>
    rintro id ⟨r, hc, hp⟩
    obtain ⟨r', hc', hq⟩ := h id _ r hole hc ⟨r, hc, hp⟩ hp
    exact ⟨r', hc', hq⟩
  | leaf p v =>
    rintro id ⟨r, hc, hp⟩
    obtain ⟨r', hc', hq⟩ := h id _ r (leaf p v) hc ⟨r, hc, hp⟩ hp
    exact ⟨r', hc', hq⟩
  | digest d =>
    rintro id ⟨r, hc, hp⟩
    obtain ⟨r', hc', hq⟩ := h id _ r (digest d) hc ⟨r, hc, hp⟩ hp
    exact ⟨r', hc', hq⟩
  | ext p c ih =>
    rintro id ⟨r, j, hc, hp, hl⟩
    obtain ⟨r', hc', hq⟩ := h id _ r (ext p c) hc ⟨r, j, hc, hp, hl⟩ hp
    exact ⟨r', j, hc', hq, ih hl⟩
  | branch c ih =>
    rintro id ⟨r, ids, hc, hp, hl⟩
    obtain ⟨r', hc', hq⟩ := h id _ r (branch c) hc ⟨r, ids, hc, hp, hl⟩ hp
    refine ⟨r', ids, hc', hq, fun i => ?_⟩
    rcases hl i with hnone | ⟨j, hj, hne, hij⟩
    · exact .inl hnone
    · exact .inr ⟨j, hj, hne, ih i hij⟩

theorem Layout.shape {P : Option NodeRef → Trie → Prop} {m : Mpt} {t : Trie} {id : NodeId}
    (h : Layout P m t id) : Shape m t id :=
  Layout.mono (fun _ _ r _ hc _ _ => ⟨r, hc, trivial⟩) h

theorem Layout.exists_cell {P : Option NodeRef → Trie → Prop} {m : Mpt} {t : Trie} {id : NodeId}
    (h : Layout P m t id) : ∃ data r, m.cells[id]? = some ⟨data, r⟩ ∧ P r t := by
  cases t with
  | ext p c =>
    obtain ⟨r, j, hc, hp, _⟩ := h
    exact ⟨_, r, hc, hp⟩
  | branch c =>
    obtain ⟨r, ids, hc, hp, _⟩ := h
    exact ⟨_, r, hc, hp⟩
  | _ =>
    obtain ⟨r, hc, hp⟩ := h
    exact ⟨_, r, hc, hp⟩

/-- One index of the arena is read in one way, up to a null node under an
extension, which may be called a hole.  Its reference is the same. -/
theorem Shape.ref_unique {m : Mpt} :
    ∀ {t u : Trie} {id : NodeId}, Shape m t id → Shape m u id → t.ref E = u.ref E := by
  intro t
  induction t with
  | null =>
    rintro u id ⟨r, hc, -⟩ hu
    cases u <;> obtain ⟨_, hu⟩ := hu <;> simp_all
  | hole =>
    rintro u id ⟨r, hc, -⟩ hu
    cases u <;> obtain ⟨_, hu⟩ := hu <;> simp_all
  | leaf p v =>
    rintro u id ⟨r, hc, -⟩ hu
    cases u with
    | leaf q w =>
      obtain ⟨r', hc', -⟩ := hu
      rw [hc] at hc'
      simp only [Option.some.injEq, Cell.mk.injEq, NodeData.leaf.injEq] at hc'
      obtain ⟨⟨hp, rfl⟩, _⟩ := hc'
      rw [(Hp.encode_injective hp).1]
    | _ => obtain ⟨_, hu⟩ := hu; simp_all
  | digest d =>
    rintro u id ⟨r, hc, -⟩ hu
    cases u with
    | digest d' =>
      obtain ⟨r', hc', -⟩ := hu
      rw [hc] at hc'
      simp only [Option.some.injEq, Cell.mk.injEq, NodeData.digest.injEq] at hc'
      simp [hc'.1]
    | _ => obtain ⟨_, hu⟩ := hu; simp_all
  | ext p c ih =>
    rintro u id ⟨r, j, hc, -, hl⟩ hu
    cases u with
    | ext q c' =>
      obtain ⟨r', j', hc', -, hl'⟩ := hu
      rw [hc] at hc'
      simp only [Option.some.injEq, Cell.mk.injEq, NodeData.extension.injEq] at hc'
      obtain ⟨⟨hp, rfl⟩, _⟩ := hc'
      rw [(Hp.encode_injective hp).1]
      exact ref_ext_congr q (ih hl hl')
    | _ => obtain ⟨_, hu⟩ := hu; simp_all
  | branch c ih =>
    rintro u id ⟨r, ids, hc, -, hl⟩ hu
    cases u with
    | branch c' =>
      obtain ⟨r', ids', hc', -, hl'⟩ := hu
      rw [hc] at hc'
      simp only [Option.some.injEq, Cell.mk.injEq, NodeData.branch.injEq] at hc'
      obtain ⟨rfl, _⟩ := hc'
      refine ref_branch_congr fun i => ?_
      rcases hl i with ⟨hn, h0⟩ | ⟨j, hj, _, hij⟩
      · rcases hl' i with ⟨_, h0'⟩ | ⟨j', hj', _⟩
        · rw [h0, h0']
        · simp [hn] at hj'
      · rcases hl' i with ⟨hn', _⟩ | ⟨j', hj', _, hij'⟩
        · simp [hj] at hn'
        · obtain rfl : j = j' := by simpa [hj] using hj'
          exact ih i hij hij'
    | _ => obtain ⟨_, hu⟩ := hu; simp_all

/-! ## Filling cached references -/

/-- The nodes stay, and a cached reference that was absent may have become the
reference of its node. -/
structure Fills (E : Env) (m m' : Mpt) : Prop where
  rootId : m'.rootId = m.rootId
  cells : ∀ k : NodeId, m'.cells[k]? = m.cells[k]? ∨
    ∃ data u, m.cells[k]? = some ⟨data, none⟩ ∧ Shape m u k ∧
      m'.cells[k]? = some ⟨data, some (u.ref E)⟩

theorem Fills.refl (m : Mpt) : Fills E m m := ⟨rfl, fun _ => .inl rfl⟩

theorem Fills.exists_cell {m m' : Mpt} (h : Fills E m m') {k : NodeId} {data : NodeData}
    {r : Option NodeRef} (hc : m.cells[k]? = some ⟨data, r⟩) :
    ∃ r', m'.cells[k]? = some ⟨data, r'⟩ := by
  rcases h.cells k with heq | ⟨data', u, hd, _, hd'⟩
  · exact ⟨r, heq.trans hc⟩
  · rw [hc] at hd
    simp only [Option.some.injEq, Cell.mk.injEq] at hd
    exact ⟨_, hd.1 ▸ hd'⟩

theorem Fills.exists_cell_of {m m' : Mpt} (h : Fills E m m') {k : NodeId} {data : NodeData}
    {r : Option NodeRef} (hc : m'.cells[k]? = some ⟨data, r⟩) :
    ∃ r', m.cells[k]? = some ⟨data, r'⟩ := by
  rcases h.cells k with heq | ⟨data', u, hd, _, hd'⟩
  · exact ⟨r, heq.symm.trans hc⟩
  · rw [hc] at hd'
    simp only [Option.some.injEq, Cell.mk.injEq] at hd'
    exact ⟨_, hd'.1 ▸ hd⟩

theorem Fills.size {m m' : Mpt} (h : Fills E m m') : m'.size = m.size := by
  have hnone : ∀ k : NodeId, m'.cells[k]? = none ↔ m.cells[k]? = none := by
    intro k
    rcases h.cells k with heq | ⟨data, u, hd, _, hd'⟩
    · rw [heq]
    · simp [hd, hd']
  simp only [List.getElem?_eq_none_iff] at hnone
  have h1 := (hnone m.cells.length).mpr (Nat.le_refl _)
  have h2 := (hnone m'.cells.length).mp (Nat.le_refl _)
  exact Nat.le_antisymm h1 h2

theorem Fills.shape {m m' : Mpt} (h : Fills E m m') {t : Trie} {id : NodeId}
    (ht : Shape m t id) : Shape m' t id :=
  Layout.mono (fun _ _ _ _ hc _ _ => (h.exists_cell hc).imp fun _ hc' => ⟨hc', trivial⟩) ht

theorem Fills.shape_of {m m' : Mpt} (h : Fills E m m') {t : Trie} {id : NodeId}
    (ht : Shape m' t id) : Shape m t id :=
  Layout.mono (fun _ _ _ _ hc _ _ => (h.exists_cell_of hc).imp fun _ hc' => ⟨hc', trivial⟩) ht

theorem Fills.trans {m m' m'' : Mpt} (h : Fills E m m') (h' : Fills E m' m'') :
    Fills E m m'' := by
  refine ⟨h'.rootId.trans h.rootId, fun k => ?_⟩
  rcases h.cells k with heq | ⟨data, u, hd, hu, hd'⟩
  · rcases h'.cells k with heq' | ⟨data, u, hd, hu, hd'⟩
    · exact .inl (heq'.trans heq)
    · exact .inr ⟨data, u, heq ▸ hd, h.shape_of hu, hd'⟩
  · rcases h'.cells k with heq' | ⟨_, _, hd'', _⟩
    · exact .inr ⟨data, u, hd, hu, heq'.trans hd'⟩
    · simp [hd'] at hd''

/-- Filling cached references keeps every reading of the arena. -/
theorem Reads.fills {m m' : Mpt} {t : Trie} {id : NodeId} (h : Reads E m t id)
    (hf : Fills E m m') : Reads E m' t id := by
  refine Layout.mono (fun k data r u hc hl hr => ?_) h
  rcases hf.cells k with heq | ⟨data', u', hd, hu', hd'⟩
  · exact ⟨r, heq.trans hc, hr⟩
  · rw [hc] at hd
    simp only [Option.some.injEq, Cell.mk.injEq] at hd
    refine ⟨some (u'.ref E), hd.1 ▸ hd', .inr ?_⟩
    rw [Shape.ref_unique hu' hl.shape]

/-! ## The encoder -/

/-- `compute` returns the reference of every reading of `t`. -/
def Computes (E : Env) (compute : NodeId → TrieM NodeRef) (t : Trie) : Prop :=
  ∀ id m, Reads E m t id → ∃ m', compute id m = (.ok (t.ref E), m') ∧ Fills E m m'

theorem fills_setCell {m : Mpt} {id : NodeId} {data : NodeData} {t : Trie}
    (hc : m.cells[id]? = some ⟨data, none⟩) (hs : Shape m t id) :
    Fills E m (m.setCell id ⟨data, some (t.ref E)⟩) := by
  refine ⟨rfl, fun k => ?_⟩
  by_cases hk : k = id
  · subst hk
    exact .inr ⟨data, t, hc, hs, cells_setCell_self (lt_size hc) _⟩
  · exact .inl (cells_setCell_ne hk _)

/-- Taking a reference from the cache or computing it gives the same. -/
theorem cachedReference_spec {compute : NodeId → TrieM NodeRef} {t : Trie}
    (hcomp : Computes E compute t) : Computes E (cachedReference compute) t := by
  intro id m h
  obtain ⟨data, r, hc, hr⟩ := h.exists_cell
  unfold cachedReference
  rw [Exec.bind_ok (cacheAt_ok hc)]
  rcases hr with rfl | rfl
  · obtain ⟨m₁, h₁, hf₁⟩ := hcomp id m h
    obtain ⟨r₁, hc₁⟩ := hf₁.exists_cell hc
    refine ⟨m₁.setCell id ⟨data, some (t.ref E)⟩, ?_, ?_⟩
    · exact (Exec.bind_ok h₁).trans (Exec.bind_ok (setCache_ok hc₁ _))
    · rcases hf₁.cells id with heq | ⟨data', u, hd, hu, hd'⟩
      · exact hf₁.trans (fills_setCell (heq.trans hc) (hf₁.shape h.shape))
      · -- computing the reference has already cached it, and it is cached again
        obtain rfl : data' = data := by simp_all
        rw [Shape.ref_unique (E := E) h.shape hu, setCell_same hd']
        exact hf₁
  · exact ⟨m, rfl, Fills.refl m⟩

theorem referenceLength_spec {compute : NodeId → TrieM NodeRef} {t : Trie}
    (hcomp : Computes E compute t) {id : NodeId} {m : Mpt} (h : Reads E m t id) :
    ∃ m', referenceLength compute id m = (.ok (encodeRef (t.ref E)).length, m') ∧
      Fills E m m' := by
  obtain ⟨m', hm', hf⟩ := cachedReference_spec hcomp id m h
  refine ⟨m', ?_, hf⟩
  unfold referenceLength
  rw [Exec.bind_ok hm']
  rcases ref_length (E := E) t with ⟨d, hr, hd⟩ | ⟨b, hr, _⟩
  · rw [hr]
    simp [encodeRef, hd]
  · rw [hr]
    rfl

theorem referenceEncode_spec {compute : NodeId → TrieM NodeRef} {t : Trie}
    (hcomp : Computes E compute t) {id : NodeId} {m : Mpt} (h : Reads E m t id) :
    ∃ m', referenceEncode compute id m = (.ok (encodeRef (t.ref E)), m') ∧ Fills E m m' := by
  obtain ⟨m', hm', hf⟩ := cachedReference_spec hcomp id m h
  refine ⟨m', ?_, hf⟩
  unfold referenceEncode
  rw [Exec.bind_ok hm']
  cases hr : t.ref E <;> rfl

/-- A property of the direct subtrees of a node. -/
def Below (Q : Trie → Prop) : Trie → Prop
  | ext _ c => Q c
  | branch c => ∀ i, c i ≠ null → Q (c i)
  | _ => True

/-- The direct subtrees of a node need less stack. -/
theorem below_of_depth {Q : Trie → Prop} {fuel : Nat} (hQ : ∀ t, depth t ≤ fuel → Q t) {t : Trie}
    (h : depth t ≤ fuel + 1) : Below Q t := by
  cases t with
  | ext p c => exact hQ c (Nat.le_of_succ_le_succ h)
  | branch c =>
    intro i hne
    have hi := depth_child_lt hne
    exact hQ (c i) (by omega)
  | _ => trivial

/-- The loop over the slots of a branch: an empty slot gives the value `g null`, and
an occupied slot what `f` gives for the child. -/
theorem collect_slots {α : Type} {f : NodeId → TrieM α} {a : α} {g : Trie → α} (ha : a = g null)
    {c : Nibble → Trie} {ids : Nibble → Option NodeId} {m : Mpt}
    (hl : ∀ i, (ids i = none ∧ c i = null) ∨
      ∃ j, ids i = some j ∧ c i ≠ null ∧ Reads E m (c i) j)
    (hf : ∀ i j m', c i ≠ null → Reads E m' (c i) j → 
      ∃ m'', f j m' = (.ok (g (c i)), m'') ∧ Fills E m' m'') :
    ∃ m', Exec.collect (fun i => match ids i with
        | some j => f j
        | none => pure a) (List.finRange 16) m =
      (.ok ((List.finRange 16).map fun i => g (c i)), m') ∧ Fills E m m' := by
  refine Exec.collect_ok (R := Fills E) Fills.refl (fun _ _ _ => Fills.trans) _ m ?_
  intro i _ m₁ hf₁
  rcases hl i with ⟨hn, h0⟩ | ⟨j, hj, hne, hij⟩
  · exact ⟨m₁, by simp [hn, h0, ha], Fills.refl m₁⟩
  · obtain ⟨m₂, h₂, hf₂⟩ := hf i j m₁ hne (hij.fills hf₁)
    exact ⟨m₂, by simpa only [hj] using h₂, hf₂⟩

theorem payloadLength_spec {compute : NodeId → TrieM NodeRef} {t : Trie}
    (hcomp : Below (Computes E compute) t) {id : NodeId} {m : Mpt} (h : Reads E m t id) :
    ∃ m', payloadLength compute id m = (.ok (payload E t).length, m') ∧ Fills E m m' := by
  unfold payloadLength
  cases t with
  | null =>
    obtain ⟨r, hc, _⟩ := h
    exact ⟨m, by rw [Exec.bind_ok (nodeAt_ok hc)]; rfl, Fills.refl m⟩
  | hole =>
    obtain ⟨r, hc, _⟩ := h
    exact ⟨m, by rw [Exec.bind_ok (nodeAt_ok hc)]; rfl, Fills.refl m⟩
  | digest d =>
    obtain ⟨r, hc, _⟩ := h
    refine ⟨m, ?_, Fills.refl m⟩
    rw [Exec.bind_ok (nodeAt_ok hc), payload, d.length_bytes]
    rfl
  | leaf p v =>
    obtain ⟨r, hc, _⟩ := h
    refine ⟨m, ?_, Fills.refl m⟩
    rw [Exec.bind_ok (nodeAt_ok hc), payload, List.length_append, Rlp.length_encodeString,
      Rlp.length_encodeString]
    rfl
  | ext p c =>
    obtain ⟨r, j, hc, _, hl⟩ := h
    obtain ⟨m', hm', hf⟩ := referenceLength_spec hcomp hl
    refine ⟨m', ?_, hf⟩
    rw [Exec.bind_ok (nodeAt_ok hc), payload_ext, List.length_append, Rlp.length_encodeString]
    show (referenceLength compute j >>= _) m = _
    rw [Exec.bind_ok hm']
    rfl
  | branch c =>
    obtain ⟨r, ids, hc, _, hl⟩ := h
    obtain ⟨m', hm', hf⟩ := collect_slots (f := referenceLength compute) (a := 1)
      (g := fun t => (encodeRef (ref E t)).length) rfl hl
      (fun i j m' hne h' => referenceLength_spec (hcomp i hne) h')
    refine ⟨m', ?_, hf⟩
    rw [Exec.bind_ok (nodeAt_ok hc)]
    refine (Exec.bind_ok (.trans ?_ hm')).trans ?_
    · congr 2
      funext i
      cases ids i <;> rfl
    · rw [payload_branch]
      simp [Nat.add_comm, Function.comp_def]

theorem encodeWithPayloadLen_spec {compute : NodeId → TrieM NodeRef} {t : Trie}
    (hcomp : Below (Computes E compute) t) {id : NodeId} {m : Mpt} (h : Reads E m t id) :
    ∃ m', encodeWithPayloadLen compute id (payload E t).length m = (.ok (rlp E t), m') ∧
      Fills E m m' := by
  unfold encodeWithPayloadLen
  cases t with
  | null =>
    obtain ⟨r, hc, _⟩ := h
    exact ⟨m, by rw [Exec.bind_ok (nodeAt_ok hc)]; rfl, Fills.refl m⟩
  | hole =>
    obtain ⟨r, hc, _⟩ := h
    exact ⟨m, by rw [Exec.bind_ok (nodeAt_ok hc)]; rfl, Fills.refl m⟩
  | digest d =>
    obtain ⟨r, hc, _⟩ := h
    exact ⟨m, by rw [Exec.bind_ok (nodeAt_ok hc)]; rfl, Fills.refl m⟩
  | leaf p v =>
    obtain ⟨r, hc, _⟩ := h
    refine ⟨m, ?_, Fills.refl m⟩
    rw [Exec.bind_ok (nodeAt_ok hc), rlp_of_isList (t := leaf p v) trivial]
    simp [Rlp.encodeList, payload]
  | ext p c =>
    obtain ⟨r, j, hc, _, hl⟩ := h
    obtain ⟨m', hm', hf⟩ := referenceEncode_spec hcomp hl
    refine ⟨m', ?_, hf⟩
    rw [Exec.bind_ok (nodeAt_ok hc), rlp_of_isList (t := ext p c) trivial]
    show (referenceEncode compute j >>= _) m = _
    rw [Exec.bind_ok hm']
    simp [Rlp.encodeList, payload_ext]
  | branch c =>
    obtain ⟨r, ids, hc, _, hl⟩ := h
    obtain ⟨m', hm', hf⟩ := collect_slots (f := referenceEncode compute)
      (a := [Rlp.emptyStringCode]) (g := fun t => encodeRef (ref E t)) rfl hl
      (fun i j m' hne h' => referenceEncode_spec (hcomp i hne) h')
    refine ⟨m', ?_, hf⟩
    rw [Exec.bind_ok (nodeAt_ok hc), rlp_of_isList (t := branch c) trivial]
    refine (Exec.bind_ok hm').trans ?_
    simp [Rlp.encodeList, payload_branch]

/-- With enough stack, the reference of every reading is computed. -/
theorem calcReference_spec : ∀ {fuel : Nat} {t : Trie}, depth t ≤ fuel →
    Computes E (calcReference E fuel) t := by
  intro fuel
  induction fuel with
  | zero =>
    intro t ht
    exact absurd (depth_pos t) (by omega)
  | succ fuel ih =>
    intro t ht id m h
    have hcomp := below_of_depth (fun _ => ih) ht
    unfold calcReference
    rcases node_cases t with rfl | rfl | ⟨d, rfl⟩ | hl
    · obtain ⟨r, hc, _⟩ := h
      exact ⟨m, by rw [Exec.bind_ok (nodeAt_ok hc)]; rfl, Fills.refl m⟩
    · obtain ⟨r, hc, _⟩ := h
      exact ⟨m, by rw [Exec.bind_ok (nodeAt_ok hc)]; rfl, Fills.refl m⟩
    · obtain ⟨r, hc, _⟩ := h
      exact ⟨m, by rw [Exec.bind_ok (nodeAt_ok hc)]; rfl, Fills.refl m⟩
    · obtain ⟨m₁, h₁, hf₁⟩ := payloadLength_spec hcomp h
      obtain ⟨m₂, h₂, hf₂⟩ := encodeWithPayloadLen_spec hcomp (h.fills hf₁)
      refine ⟨m₂, ?_, hf₁.trans hf₂⟩
      have hlen : (payload E t).length + Rlp.lengthOfLength (payload E t).length =
          (rlp E t).length := by
        rw [rlp_of_isList hl, Rlp.length_encodeList]
      have hrest : (payloadLength (calcReference E fuel) id >>= fun payloadLength => do
          let rlpLength := payloadLength + Rlp.lengthOfLength payloadLength
          let encoded ← encodeWithPayloadLen (calcReference E fuel) id payloadLength
          if rlpLength < 32 then pure (.bytes encoded)
          else pure (.digest (E.keccak256 encoded).bytes)) m = (.ok (ref E t), m₂) := by
        refine (Exec.bind_ok h₁).trans ((Exec.bind_ok h₂).trans ?_)
        rw [hlen, ref_of_isList hl]
        split <;> rfl
      cases t with
      | leaf p v =>
        obtain ⟨r, hc, _⟩ := h
        rw [Exec.bind_ok (nodeAt_ok hc)]
        exact hrest
      | ext p c =>
        obtain ⟨r, j, hc, _⟩ := h
        rw [Exec.bind_ok (nodeAt_ok hc)]
        exact hrest
      | branch c =>
        obtain ⟨r, ids, hc, _⟩ := h
        rw [Exec.bind_ok (nodeAt_ok hc)]
        exact hrest
      | _ => exact hl.elim

/-! ## Hashes of readings -/

theorem withStack_apply {α : Type} (x : Nat → TrieM α) (m : Mpt) :
    withStack x m = x m.size m := rfl

/-- The hash of a node is read off its reference. -/
theorem referenceHash_spec {t : Trie} (hn : t ≠ null) (hh : t ≠ hole) (m : Mpt) :
    referenceHash E (ref E t) m = (.ok (Trie.hash E t), m) := by
  rcases hash_of_ref (E := E) hn hh with ⟨d, hr, hd⟩ | ⟨b, hr, hb⟩
  · rw [hr, hd]
    simp [referenceHash]
  · rw [hr, hb]
    rfl

/-- What a node that is not null matches: the last arm of `hash` and `subtree_hash`. -/
theorem Layout.data_ne_null {P : Option NodeRef → Trie → Prop} {m : Mpt} {t : Trie} {id : NodeId}
    (h : Layout P m t id) (hn : t ≠ null) (hh : t ≠ hole) :
    ∃ data r, m.cells[id]? = some ⟨data, r⟩ ∧ data ≠ .null := by
  cases t with
  | null => exact absurd rfl hn
  | hole => exact absurd rfl hh
  | leaf p v => exact h.imp' _ (fun r ⟨hc, _⟩ => ⟨r, hc, by simp⟩)
  | digest d => exact h.imp' _ (fun r ⟨hc, _⟩ => ⟨r, hc, by simp⟩)
  | ext p c =>
    obtain ⟨r, j, hc, _⟩ := h
    exact ⟨_, r, hc, by simp⟩
  | branch c =>
    obtain ⟨r, ids, hc, _⟩ := h
    exact ⟨_, r, hc, by simp⟩

/-- A null node is read as an empty trie. -/
theorem Layout.data_eq_null {P : Option NodeRef → Trie → Prop} {m : Mpt} {t : Trie} {id : NodeId}
    {data : NodeData} {r : Option NodeRef} (h : Layout P m t id)
    (hc : m.cells[id]? = some ⟨data, r⟩) : data = .null ↔ t = null ∨ t = hole := by
  constructor
  · rintro rfl
    by_contra hne
    rw [not_or] at hne
    obtain ⟨data', r', hc', hd⟩ := h.data_ne_null hne.1 hne.2
    simp_all
  · rintro (rfl | rfl)
    · obtain ⟨r', hc', _⟩ := h
      simp_all
    · obtain ⟨r', hc', _⟩ := h
      simp_all

theorem hash_spec {m : Mpt} {t : Trie} (h : Reads E m t m.rootId) (hd : depth t ≤ m.size) :
    ∃ m', hash E m = (.ok (Trie.hash E t), m') ∧ Fills E m m' := by
  unfold hash
  rw [Exec.bind_ok (Exec.read_apply _ m)]
  by_cases hnull : t = null ∨ t = hole
  · rcases hnull with rfl | rfl
    · obtain ⟨r, hc, _⟩ := h
      exact ⟨m, by rw [Exec.bind_ok (nodeAt_ok hc)]; rfl, Fills.refl m⟩
    · obtain ⟨r, hc, _⟩ := h
      exact ⟨m, by rw [Exec.bind_ok (nodeAt_ok hc)]; rfl, Fills.refl m⟩
  · rw [not_or] at hnull
    obtain ⟨data, r, hc, hne⟩ := h.data_ne_null hnull.1 hnull.2
    obtain ⟨m', hm', hf⟩ := cachedReference_spec (calcReference_spec hd) m.rootId m h
    refine ⟨m', ?_, hf⟩
    rw [Exec.bind_ok (nodeAt_ok hc)]
    cases data with
    | null => exact absurd rfl hne
    | _ => exact (Exec.bind_ok hm').trans (referenceHash_spec hnull.1 hnull.2 m')

theorem subtreeHash_spec {m : Mpt} {t : Trie} {id : NodeId} (h : Reads E m t id)
    (hd : depth t ≤ m.size) :
    ∃ m', subtreeHash E id m = (.ok (Trie.hash E t), m') ∧ Fills E m m' := by
  unfold subtreeHash
  by_cases hnull : t = null ∨ t = hole
  · rcases hnull with rfl | rfl
    · obtain ⟨r, hc, _⟩ := h
      exact ⟨m, by rw [Exec.bind_ok (nodeAt_ok hc)]; rfl, Fills.refl m⟩
    · obtain ⟨r, hc, _⟩ := h
      exact ⟨m, by rw [Exec.bind_ok (nodeAt_ok hc)]; rfl, Fills.refl m⟩
  · rw [not_or] at hnull
    obtain ⟨data, r, hc, hne⟩ := h.data_ne_null hnull.1 hnull.2
    obtain ⟨m', hm', hf⟩ := calcReference_spec hd id m h
    refine ⟨m', ?_, hf⟩
    rw [Exec.bind_ok (nodeAt_ok hc)]
    cases data with
    | null => exact absurd rfl hne
    | _ => exact (Exec.bind_ok hm').trans (referenceHash_spec hnull.1 hnull.2 m')

theorem rootIsHashAddressed_spec {m : Mpt} {t : Trie} (h : Reads E m t m.rootId)
    (hd : depth t ≤ m.size) :
    ∃ b m', rootIsHashAddressed E m = (.ok b, m') ∧ (b = true ↔ HashAddressed E t) ∧
      Fills E m m' := by
  obtain ⟨m', hm', hf⟩ := calcReference_spec hd m.rootId m h
  unfold rootIsHashAddressed
  rw [Exec.bind_ok (Exec.read_apply _ m)]
  cases hr : ref E t with
  | bytes b =>
    rw [hr] at hm'
    exact ⟨false, m', Exec.bind_ok hm', by simp [HashAddressed, hr], hf⟩
  | digest d =>
    rw [hr] at hm'
    exact ⟨true, m', Exec.bind_ok hm', by simp [HashAddressed, hr], hf⟩

/-! ## The encoding of a whole trie -/

/-- Zeros up to the next multiple of the alignment. -/
def padded (b : Bytes) : Bytes :=
  b ++ List.replicate ((minAlign - b.length % minAlign) % minAlign) 0

variable (E) in
/-- Every node, padded, in pre-order.  Inlined nodes appear a second time. -/
def encoding : Trie → Bytes
  | ext p c => padded (rlp E (ext p c)) ++ encoding c
  | branch c => padded (rlp E (branch c)) ++
      ((List.finRange 16).map fun i => if (c i).isNull then [] else encoding (c i)).flatten
  | t => padded (rlp E t)

/-- The length the encoder computes is that of the node it writes. -/
theorem length_rlp (t : Trie) :
    (payload E t).length + Rlp.lengthOfLength (payload E t).length = (rlp E t).length := by
  rcases node_cases t with rfl | rfl | ⟨d, rfl⟩ | hl
  · rfl
  · rfl
  · rw [rlp, wrap, payload, Rlp.encodeString_word d.length_bytes, d.length_bytes]
    simp [Rlp.lengthOfLength, d.length_bytes]
  · rw [rlp_of_isList hl, Rlp.length_encodeList]

theorem encodeTrieInternal_spec : ∀ {fuel : Nat} {t : Trie}, depth t ≤ fuel →
    ∀ id m, Reads E m t id →
      ∃ m', encodeTrieInternal E fuel id m = (.ok (encoding E t), m') ∧ Fills E m m' := by
  intro fuel
  induction fuel with
  | zero =>
    intro t ht
    exact absurd (depth_pos t) (by omega)
  | succ fuel ih =>
    intro t ht id m h
    have hcomp := below_of_depth (fun t => calcReference_spec (E := E) (t := t)) ht
    have hbelow := below_of_depth (fun t => ih (t := t)) ht
    obtain ⟨m₁, h₁, hf₁⟩ := payloadLength_spec hcomp h
    obtain ⟨m₂, h₂, hf₂⟩ := encodeWithPayloadLen_spec hcomp (h.fills hf₁)
    have hf := hf₁.trans hf₂
    have hread := h.fills hf
    -- the node itself is written in the same way whatever follows it
    unfold encodeTrieInternal
    rw [Exec.bind_ok h₁, Exec.bind_ok h₂, length_rlp]
    cases t with
    | branch c =>
      obtain ⟨r, ids, hc, _, hl⟩ := hread
      obtain ⟨m₃, h₃, hf₃⟩ := collect_slots (f := encodeTrieInternal E fuel) (a := [])
        (g := fun t => if t.isNull then [] else encoding E t) rfl hl (fun i j m' hne h' => by
          simp only [isNull_eq_false.mpr hne]
          exact hbelow i hne j m' h')
      refine ⟨m₃, ?_, hf.trans hf₃⟩
      rw [Exec.bind_ok (nodeAt_ok hc)]
      exact Exec.bind_ok h₃
    | ext p c =>
      obtain ⟨r, j, hc, _, hl⟩ := hread
      obtain ⟨m₃, h₃, hf₃⟩ := hbelow j m₂ hl
      refine ⟨m₃, ?_, hf.trans hf₃⟩
      rw [Exec.bind_ok (nodeAt_ok hc)]
      exact Exec.bind_ok h₃
    | _ =>
      obtain ⟨r, hc, _⟩ := hread
      exact ⟨m₂, by rw [Exec.bind_ok (nodeAt_ok hc)]; rfl, hf⟩

theorem encodeTrie_spec {m : Mpt} {t : Trie} (h : Reads E m t m.rootId) (hd : depth t ≤ m.size) :
    ∃ m', encodeTrie E m = (.ok (encoding E t), m') ∧ Fills E m m' := by
  unfold encodeTrie
  rw [Exec.bind_ok (Exec.read_apply _ m)]
  exact encodeTrieInternal_spec hd m.rootId m h

end Mpt
end CenoReth
