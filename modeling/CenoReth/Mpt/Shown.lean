/-
What a set of nodes shows of a trie.

The encoding of a node contains the children that are shorter than a hash, and
the hashes of the others.  `shown E known t` is the trie `t` as far as it is seen
from its root when the nodes with a hash in `known` are at hand.  A node read from
its encoding is `face E t`, where nothing else is known, and resolving its
digests through a store gives what the store shows.
-/
import CenoReth.Mpt.Exchange
import CenoReth.Mpt.FromProof
import CenoReth.Mpt.Resolver

namespace CenoReth
namespace Trie

open Patricia Patricia.Radix Rlp

section Model

variable (E : Env) (known : B256 → Bool)

/-- A child as it is seen from above: a digest if it has a hash that is not known. -/
def veil (t seen : Trie) : Trie :=
  match ref E t with
  | .bytes _ => seen
  | .digest _ => if known (hash E t) then seen else digest (hash E t)

/-- The part of a trie that is seen from its root. -/
def shown : Trie → Trie
  | ext p c => ext p (veil E known c (shown c))
  | branch c => branch fun i => veil E known (c i) (shown (c i))
  | t => t

/-- The part of a trie that is contained in the encoding of its root. -/
def face (t : Trie) : Trie := shown E (fun _ => false) t

end Model

variable {E : Env} {known : B256 → Bool}

/-! ## Views -/

theorem veil_cases (t seen : Trie) :
    veil E known t seen = seen ∨ ∃ d : B256, ref E t = .digest d.bytes ∧ known d = false ∧
      veil E known t seen = digest d := by
  rcases ref_cases (E := E) t with ⟨d, hd⟩ | (rfl | rfl) | ⟨_, _, hr⟩
  · unfold veil
    rw [hd, hash_of_digest hd]
    cases hk : known d with
    | true => exact .inl rfl
    | false => exact .inr ⟨d, rfl, hk, by simp⟩
  · exact .inl rfl
  · exact .inl rfl
  · unfold veil
    rw [hr]
    exact .inl rfl

theorem veil_of_known {t : Trie} (h : HashAddressed E t → known (hash E t) = true) (seen : Trie) :
    veil E known t seen = seen := by
  rcases @veil_cases E known t seen with h' | ⟨d, hd, hk, _⟩
  · exact h'
  · rw [hash_of_digest hd] at h
    exact absurd (h ⟨_, hd⟩) (by simp [hk])

theorem view_veil {t seen : Trie} (h : View E seen t) : View E (veil E known t seen) t := by
  rcases @veil_cases E known t seen with h' | ⟨d, hd, _, h'⟩
  · rw [h']
    exact h
  · rw [h']
    exact .hidden hd

theorem view_shown (t : Trie) : View E (shown E known t) t := by
  induction t with
  | ext p c ih => exact .ofExt p (view_veil ih)
  | branch c ih => exact .ofBranch fun i => view_veil (ih i)
  | null => exact .ofNull
  | hole => exact .ofHole
  | leaf p v => exact .ofLeaf p v
  | digest d => exact .hidden rfl

theorem isList_shown {t : Trie} (h : isList t) : isList (shown E known t) := by
  cases t <;> exact h

theorem rlp_shown {t : Trie} (h : isList t) : rlp E (shown E known t) = rlp E t :=
  Mpt.View.rlp_eq (view_shown t) (isList_shown h)

/-! ## Faces -/

theorem items_of_rlp {t u : Trie} (ht : isList t) (hu : isList u) (het : Mpt.Encodable E t)
    (heu : Mpt.Encodable E u) (h : rlp E t = rlp E u) : items E t = items E u := by
  rw [rlp_of_isList ht, rlp_of_isList hu] at h
  have hpay := encodeList_injective h
  rw [payload_eq_items ht, payload_eq_items hu] at hpay
  exact items_injective (Mpt.items_fit_of_encodable het) (Mpt.items_fit_of_encodable heu) hpay

/-- A reference says what is seen of a child. -/
theorem veil_eq_of_ref {t u : Trie} (ht : NoHole t) (hu : NoHole u) (hrt : t.Resolved)
    (hru : u.Resolved) (h : ref E t = ref E u)
    (hface : isList t → isList u → rlp E t = rlp E u → face E t = face E u) :
    veil E (fun _ => false) t (face E t) = veil E (fun _ => false) u (face E u) := by
  rcases ref_cases (E := E) t with ⟨d, hd⟩ | (rfl | rfl) | ⟨hl, hlen, hr⟩
  · unfold veil
    rw [← h, hd, hash_of_digest hd, hash_of_digest (h.symm.trans hd)]
    rfl
  · rw [eq_null_of_ref (fun h => by simp [h, NoHole] at hu) h]
  · exact ht.elim
  · have hlu := isList_of_ref hl hru hu h
    unfold veil
    rw [← h, hr]
    refine hface hl hlu ?_
    rw [hr, ref_of_isList hlu] at h
    split at h
    · exact NodeRef.bytes.inj h
    · cases h

/-- A node has one encoding, and an encoding says one thing. -/
theorem face_eq_of_rlp {t : Trie} : ∀ {u : Trie}, isList t → isList u → NoHole t → NoHole u →
    t.Resolved → u.Resolved → Mpt.Encodable E t → Mpt.Encodable E u → rlp E t = rlp E u →
    face E t = face E u := by
  induction t with
  | leaf p v =>
    intro u hl hlu _ _ _ _ het heu h
    rw [items_leaf hlu (items_of_rlp hl hlu het heu h)]
  | ext p c ih =>
    intro u hl hlu hnt hnu hrt hru het heu h
    obtain ⟨c', rfl, href⟩ := items_ext hlu (items_of_rlp hl hlu het heu h)
    exact congrArg (ext p) (veil_eq_of_ref hnt hnu hrt hru href
      fun hlc hlc' hc => ih hlc hlc' hnt hnu hrt hru het.2 heu.2 hc)
  | branch c ih =>
    intro u hl hlu hnt hnu hrt hru het heu h
    obtain ⟨c', rfl, href⟩ := items_branch hlu (items_of_rlp hl hlu het heu h)
    refine congrArg branch (funext fun i => ?_)
    exact veil_eq_of_ref (hnt i) (hnu i) (hrt i) (hru i) (href i)
      fun hlc hlc' hc => ih i hlc hlc' (hnt i) (hnu i) (hrt i) (hru i) (het i).2 (heu i).2 hc
  | _ => exact fun h => h.elim

end Trie

namespace Mpt

open Patricia Patricia.Radix Trie Rlp

variable {E : Env}

/-! ## Reading a node -/

theorem normal_shown {known : B256 → Bool} {t : Trie} (h : t.Normal) : (shown E known t).Normal :=
  (view_shown t).normal h

/-- A node is read as far as its encoding goes. -/
theorem decodeFromProofRlpInternal_builds (hinv : Inverse E.decodeHeader) : ∀ {t : Trie},
    t.Normal → t.Resolved → Encodable E t → ∀ {fuel : Nat}, depth t < fuel →
      Builds E (decodeFromProofRlpInternal E fuel (rlp E t)) (face E t) ∧
      Builds E (decodeFromProofRlpInternal E fuel (encodeRef (ref E t)))
        (veil E (fun _ => false) t (face E t)) := by
  intro t
  induction hd : depth t using Nat.strong_induction_on generalizing t with
  | _ n ih =>
    intro hn hr he fuel hfuel
    obtain ⟨fuel, rfl⟩ : ∃ k, fuel = k + 1 := ⟨fuel - 1, by omega⟩
    have hpos := depth_pos t
    have hself : Builds E (decodeFromProofRlpInternal E (fuel + 1) (rlp E t)) (face E t) := by
      have hrlp : rlp E (face E t) = rlp E t := by
        rcases node_cases t with rfl | rfl | ⟨d, rfl⟩ | hl
        · rfl
        · exact hn.elim
        · exact hr.elim
        · exact rlp_shown hl
      rw [← hrlp]
      refine decodeNode_builds hinv (normal_shown hn) (fun d h => ?_)
        (View.encodable (view_shown t) he) ?_ fun _ m => ?_
      · cases t with
        | digest d => exact hr
        | _ => cases h
      · cases t with
        | ext p c =>
          have hlt : depth c < n := by
            rw [← hd]
            exact Nat.lt_succ_self _
          show Builds E (decodeFromProofRlpInternal E fuel (encodeRef (ref E (veil E _ c _)))) _
          rw [(view_veil (view_shown c)).ref_eq]
          exact (ih (depth c) hlt rfl hn.2.2 hr he.2 (by omega)).2
        | branch c =>
          intro i hi
          have hne : c i ≠ null := fun h => hi ((view_veil (view_shown (c i))).null_iff.mpr h)
          have hlt : depth (c i) < n := hd ▸ depth_child_lt hne
          rw [(view_veil (view_shown (c i))).ref_eq]
          exact (ih (depth (c i)) hlt rfl (hn.2 i) (hr i) (he i).2 (by omega)).2
        | _ => trivial
      · obtain ⟨fuel, rfl⟩ : ∃ k, fuel = k + 1 := ⟨fuel - 1, by omega⟩
        exact decodeNode_null hinv m
    refine ⟨hself, ?_⟩
    rcases ref_cases (E := E) t with ⟨d, hd'⟩ | (rfl | rfl) | ⟨hl, _, hr'⟩
    · -- a child with a hash is a digest
      intro m hb
      have hveil : veil E (fun _ => false) t (face E t) = digest d := by
        unfold veil
        rw [hd', hash_of_digest hd']
        rfl
      rw [hveil, hd']
      refine ⟨m.size, m.push ⟨.digest d.bytes, some (.digest d.bytes)⟩, ?_, extends_push m _,
        .inr ⟨by simp, push_builds hb List.prefix_rfl,
          ⟨_, cells_push_self m _, .inr rfl⟩, by simp [depth]⟩⟩
      unfold decodeFromProofRlpInternal encodeRef
      rw [decodeNode_digest hinv]
      rfl
    · exact hself
    · exact hn.elim
    · unfold veil
      rw [hr']
      exact hself

/-- `decode_from_proof_rlp` on the encoding of a node. -/
theorem decodeFromProofRlp_legible (hinv : Inverse E.decodeHeader) {t : Trie} (hl : isList t)
    (hn : t.Normal) (hr : t.Resolved) (he : Encodable E t) {fuel : Nat} (hfuel : depth t < fuel) :
    ∃ m, decodeFromProofRlp E fuel (rlp E t) = .ok m ∧ Legible E m (face E t) := by
  obtain ⟨id, m, hm, _, hid⟩ := (decodeFromProofRlpInternal_builds hinv hn hr he hfuel).1 new rfl
  have hne : face E t ≠ null := fun h => by
    have hl' := @isList_shown E (fun _ => false) t hl
    rw [show shown E (fun _ => false) t = null from h] at hl'
    exact hl'
  obtain ⟨_, _, hread, hd⟩ := hid.resolve_left fun h => hne h.1
  have hroot : Extends m { m with rootId := id } := List.prefix_rfl
  refine ⟨{ m with rootId := id }, by rw [decodeFromProofRlp, hm], hread.extends hroot, ?_⟩
  have hsize : size new = 1 := rfl
  show _ ≤ m.size
  omega

/-! ## Resolving digests -/

/-- The trie is appended, in nodes of its own. -/
def Lays (E : Env) (read : TrieM NodeId) (t : Trie) : Prop :=
  ∀ m, ∃ id m', read m = (.ok id, m') ∧ Extends m m' ∧ Rep E m' t id (Finset.Ico m.size m'.size)

/-- A slot of a branch is appended. -/
def LaysSlot (E : Env) (read : TrieM (Option NodeId)) (t : Trie) : Prop :=
  ∀ m, ∃ o m', read m = (.ok o, m') ∧ Extends m m' ∧ ((o = none ∧ t = null) ∨
    ∃ id, o = some id ∧ t ≠ null ∧ Rep E m' t id (Finset.Ico m.size m'.size))

theorem Rep.extends {m m' : Mpt} {t : Trie} {id : NodeId} {F : Finset NodeId} (h : Rep E m t id F)
    (he : Extends m m') (hF : ∀ k ∈ F, k < m.size) : Rep E m' t id F := by
  refine h.frame fun k hk => ?_
  obtain ⟨c, hc⟩ : ∃ c, m.cells[k]? = some c := ⟨_, List.getElem?_eq_getElem (hF k hk)⟩
  rw [hc, he.cell hc]

theorem mem_push (m m' : Mpt) (h : Extends m m') (c : Cell) :
    m'.size ∈ Finset.Ico m.size (m'.push c).size := by
  have := h.size_le
  simp only [size_push, Finset.mem_Ico]
  omega

/-- A node without children. -/
theorem lays_addNode {t : Trie} {data : NodeData}
    (h : ∀ m : Mpt, Rep E (m.push ⟨data, none⟩) t m.size {m.size}) :
    Lays E (addNode data none) t := by
  refine fun m => ⟨m.size, _, addNode_ok m data none, extends_push m _, (h m).mono ?_⟩
  exact Finset.singleton_subset_iff.mpr (mem_push m m List.prefix_rfl _)

theorem collect_lays {f : Nibble → TrieM (Option NodeId)} {c : Nibble → Trie} :
    ∀ (l : List Nibble), l.Nodup → (∀ i ∈ l, LaysSlot E (f i) (c i)) → ∀ m,
      ∃ os m', Exec.collect f l m = (.ok os, m') ∧ Extends m m' ∧ ∃ G : Nibble → Finset NodeId,
        (∀ i ∈ l, G i ⊆ Finset.Ico m.size m'.size) ∧
        (∀ i ∈ l, ∀ j ∈ l, i ≠ j → Disjoint (G i) (G j)) ∧
        List.Forall₂ (fun i o => (o = none ∧ c i = null) ∨
          ∃ id, o = some id ∧ c i ≠ null ∧ Rep E m' (c i) id (G i)) l os
  | [], _, _, m => ⟨[], m, rfl, List.prefix_rfl, fun _ => ∅, by simp, by simp, .nil⟩
  | i :: l, hnd, hf, m => by
    obtain ⟨o, m₁, h₁, he₁, ho⟩ := hf i (by simp) m
    obtain ⟨os, m₂, h₂, he₂, G, hG, hdis, hos⟩ := collect_lays l (List.nodup_cons.mp hnd).2
      (fun j hj => hf j (by simp [hj])) m₁
    have hi : ∀ j ∈ l, j ≠ i := fun j hj h => (List.nodup_cons.mp hnd).1 (h ▸ hj)
    have hle₁ := he₁.size_le
    have hle₂ := he₂.size_le
    have hfirst : ∀ j ∈ l, Disjoint (Finset.Ico m.size m₁.size) (G j) := fun j hj =>
      (Finset.Ico_disjoint_Ico_consecutive _ _ _).mono_right (hG j hj)
    refine ⟨o :: os, m₂, ?_, he₁.trans he₂, Function.update G i (Finset.Ico m.size m₁.size),
      fun j hj => ?_, fun j hj k hk hjk => ?_,
      .cons ?_ (((List.forall₂_and_left l os).mpr ⟨hi, hos⟩).imp fun j o hjo => ?_)⟩
    · rw [Exec.collect, Exec.bind_ok h₁, Exec.bind_ok h₂]
      rfl
    · rcases List.mem_cons.mp hj with rfl | hj
      · rw [Function.update_self]
        exact Finset.Ico_subset_Ico_right hle₂
      · rw [Function.update_of_ne (hi j hj)]
        exact (hG j hj).trans (Finset.Ico_subset_Ico_left hle₁)
    · rcases List.mem_cons.mp hj with rfl | hj'
      · rcases List.mem_cons.mp hk with rfl | hk'
        · exact absurd rfl hjk
        · rw [Function.update_self, Function.update_of_ne (hi k hk')]
          exact hfirst k hk'
      · rw [Function.update_of_ne (hi j hj')]
        rcases List.mem_cons.mp hk with rfl | hk'
        · rw [Function.update_self]
          exact (hfirst j hj').symm
        · rw [Function.update_of_ne (hi k hk')]
          exact hdis j hj' k hk' hjk
    · rw [Function.update_self]
      rcases ho with hnone | ⟨id, hid, hne, hrep⟩
      · exact .inl hnone
      · exact .inr ⟨id, hid, hne, hrep.extends he₂ fun k hk => (Finset.mem_Ico.mp hk).2⟩
    · rw [Function.update_of_ne hjo.1]
      exact hjo.2

/-- An extension is appended after its child. -/
theorem lays_extension {read : TrieM NodeId} {p : List Nibble} {c : Trie} (hc : Lays E read c)
    (hne : c ≠ null) :
    Lays E (do let id ← read; addNode (.extension (Hp.encode p false) id) none) (ext p c) := by
  intro m
  obtain ⟨j, m₁, h₁, he₁, hrep⟩ := hc m
  refine ⟨m₁.size, _, (Exec.bind_ok h₁).trans (addNode_ok m₁ _ none),
    he₁.trans (extends_push m₁ _), mem_push m m₁ he₁ _, none, j, cells_push_self m₁ _, .inl rfl,
    hne, ?_⟩
  refine (hrep.extends (extends_push m₁ _) fun k hk => (Finset.mem_Ico.mp hk).2).mono fun k hk => ?_
  obtain ⟨hlo, hhi⟩ := Finset.mem_Ico.mp hk
  exact Finset.mem_erase.mpr ⟨hhi.ne, Finset.mem_Ico.mpr ⟨hlo, hhi.trans (by simp)⟩⟩

/-- A branch is appended after its children. -/
theorem lays_branch {f : Nibble → TrieM (Option NodeId)} {c : Nibble → Trie}
    (hc : ∀ i, LaysSlot E (f i) (c i)) :
    Lays E (do
      let ids ← Exec.collect f (List.finRange 16)
      addNode (.branch fun i => ids[i.val]?.join) none) (branch c) := by
  intro m
  obtain ⟨os, m₁, h₁, he₁, G, hG, hdis, hos⟩ :=
    collect_lays (List.finRange 16) (List.nodup_finRange 16) (fun i _ => hc i) m
  refine ⟨m₁.size, _, (Exec.bind_ok h₁).trans (addNode_ok m₁ _ none),
    he₁.trans (extends_push m₁ _), mem_push m m₁ he₁ _, none, _, cells_push_self m₁ _, .inl rfl,
    G, fun i k hk => ?_, fun i j => hdis i (List.mem_finRange i) j (List.mem_finRange j),
    fun i => ?_⟩
  · obtain ⟨hlo, hhi⟩ := Finset.mem_Ico.mp (hG i (List.mem_finRange i) hk)
    exact Finset.mem_erase.mpr ⟨hhi.ne, Finset.mem_Ico.mpr ⟨hlo, hhi.trans (by simp)⟩⟩
  · obtain ⟨o, ho, hslot⟩ := exists_slot hos i
    rw [ho]
    rcases hslot with hnone | ⟨id, rfl, hne, hrep⟩
    · exact .inl hnone
    · refine .inr ⟨id, rfl, hne, hrep.extends (extends_push m₁ _) fun k hk => ?_⟩
      exact (Finset.mem_Ico.mp (hG i (List.mem_finRange i) hk)).2

section Resolution

variable {nodeStore : B256 → Option Mpt}

/-- The hashes that a store has a node for. -/
def knows (nodeStore : B256 → Option Mpt) (d : B256) : Bool := (nodeStore d).isSome

/-- What the store holds for a node is the node as its encoding shows it. -/
def Answers (E : Env) (nodeStore : B256 → Option Mpt) (t : Trie) : Prop :=
  HashAddressed E t → ∀ m, nodeStore (Trie.hash E t) = some m → Shape m (face E t) m.rootId

/-- A child is taken from the node or from the store. -/
theorem resolve_veil {t : Trie} {fuel : Nat}
    (hface : ∀ k, fuel ≤ k → ∀ cur id, Shape cur (face E t) id →
      Lays E (resolveNodesInternal nodeStore k cur id) (shown E (knows nodeStore) t))
    (hentry : Answers E nodeStore t) {cur : Mpt} {id : NodeId}
    (h : Shape cur (veil E (fun _ => false) t (face E t)) id) :
    Lays E (resolveNodesInternal nodeStore (fuel + 1) cur id)
      (veil E (knows nodeStore) t (shown E (knows nodeStore) t)) := by
  rcases ref_cases (E := E) t with ⟨d, hd⟩ | (rfl | rfl) | ⟨_, _, hr⟩
  · have hhash := hash_of_digest hd
    have hveil : veil E (fun _ => false) t (face E t) = digest d := by
      unfold veil
      rw [hd, hhash]
      rfl
    rw [hveil] at h
    obtain ⟨r, hcell, -⟩ := h
    have hrun : resolveNodesInternal nodeStore (fuel + 1) cur id = _ := funext fun m =>
      resolveNodesInternal_succ (dataAt_of_cell hcell) m
    rw [hrun, resolveNode_digest]
    unfold veil
    rw [hd, hhash]
    cases hfind : nodeStore d with
    | none =>
      simp only [knows, hfind, Option.isSome_none, Bool.false_eq_true, if_false]
      exact lays_addNode fun m => ⟨by simp, none, cells_push_self m _, .inl rfl⟩
    | some trie =>
      simp only [knows, hfind, Option.isSome_some, if_true]
      exact hface fuel le_rfl trie trie.rootId (hentry ⟨_, hd⟩ trie (hhash ▸ hfind))
  · exact hface _ (Nat.le_succ fuel) cur id h
  · exact hface _ (Nat.le_succ fuel) cur id h
  · unfold veil at h ⊢
    rw [hr] at h ⊢
    exact hface _ (Nat.le_succ fuel) cur id h

/-- Resolution appends what the store shows of the trie. -/
theorem resolveNodesInternal_lays : ∀ {t : Trie}, t.Normal → t.Resolved →
    (∀ p c, p ≠ [] → t.subtree p = some c → Answers E nodeStore c) → ∀ {fuel : Nat},
      2 * depth t ≤ fuel → ∀ cur id, Shape cur (face E t) id →
        Lays E (resolveNodesInternal nodeStore fuel cur id) (shown E (knows nodeStore) t) := by
  intro t
  induction t with
  | hole => exact fun hn => hn.elim
  | digest d => exact fun _ hr => hr.elim
  | null =>
    rintro - - - fuel hfuel cur id ⟨r, hcell, -⟩
    obtain ⟨fuel, rfl⟩ : ∃ k, fuel = k + 1 := ⟨fuel - 1, by simp only [depth] at hfuel; omega⟩
    rw [show resolveNodesInternal nodeStore (fuel + 1) cur id = _ from
      funext fun m => resolveNodesInternal_succ (dataAt_of_cell hcell) m]
    exact lays_addNode fun m => ⟨by simp, none, cells_push_self m _, .inl rfl⟩
  | leaf p v =>
    rintro - - - fuel hfuel cur id ⟨r, hcell, -⟩
    obtain ⟨fuel, rfl⟩ : ∃ k, fuel = k + 1 := ⟨fuel - 1, by simp only [depth] at hfuel; omega⟩
    rw [show resolveNodesInternal nodeStore (fuel + 1) cur id = _ from
      funext fun m => resolveNodesInternal_succ (dataAt_of_cell hcell) m]
    exact lays_addNode fun m => ⟨by simp, none, cells_push_self m _, .inl rfl⟩
  | ext p c ih =>
    rintro hn hr hstore fuel hfuel cur id ⟨r, j, hcell, -, hshape⟩
    obtain ⟨fuel, rfl⟩ : ∃ k, fuel = k + 2 := ⟨fuel - 2, by simp only [depth] at hfuel; omega⟩
    rw [show resolveNodesInternal nodeStore (fuel + 2) cur id = _ from
      funext fun m => resolveNodesInternal_succ (dataAt_of_cell hcell) m]
    have hself : (ext p c).subtree p = some c := by
      have := subtree_ext_append (q := p) (r := []) c (by simpa using hn.1)
      simpa using this
    refine lays_extension (resolve_veil (fun k hk cur id => ih hn.2.2 hr (fun q x hq hx => ?_) ?_ cur
      id) (hstore p c hn.1 hself) hshape) fun h => ?_
    · refine hstore (p ++ q) x (by simp [hn.1]) ?_
      rw [subtree_ext_append c (by simp [hn.1])]
      exact hx
    · simp only [depth] at hfuel
      omega
    · have := (view_veil (view_shown c)).null_iff.mp h
      subst this
      exact hn.2.1
  | branch c ih =>
    rintro hn hr hstore fuel hfuel cur id ⟨r, ids, hcell, -, hslots⟩
    have hdepth := depth_pos (branch c)
    obtain ⟨fuel, rfl⟩ : ∃ k, fuel = k + 2 := ⟨fuel - 2, by omega⟩
    rw [show resolveNodesInternal nodeStore (fuel + 2) cur id = _ from
      funext fun m => resolveNodesInternal_succ (dataAt_of_cell hcell) m]
    refine lays_branch fun i m => ?_
    rcases hslots i with ⟨hnone, hnull⟩ | ⟨j, hj, hne, hshape⟩
    · have hci := (view_veil (view_shown (c i))).null_iff.mp hnull
      refine ⟨none, m, by rw [hnone]; rfl, List.prefix_rfl, .inl ⟨rfl, ?_⟩⟩
      exact (view_veil (view_shown (c i))).null_iff.mpr hci
    · have hci : c i ≠ null := fun h => hne ((view_veil (view_shown (c i))).null_iff.mpr h)
      have hlt := depth_child_lt hci
      have hlays : ∀ k, fuel ≤ k → ∀ cur id, Shape cur (face E (c i)) id →
          Lays E (resolveNodesInternal nodeStore k cur id) (shown E (knows nodeStore) (c i)) :=
        fun k hk cur id => ih i (hn.2 i) (hr i)
          (fun q x hq hx => hstore (i :: q) x (by simp) hx) (by omega) cur id
      obtain ⟨id', m', hrun, he, hrep⟩ :=
        resolve_veil hlays (hstore [i] (c i) (by simp) (by simp)) hshape m
      refine ⟨some id', m', by rw [hj]; exact Exec.bind_ok hrun, he, .inr ⟨id', rfl, fun h => ?_, hrep⟩⟩
      exact hci ((view_veil (view_shown (c i))).null_iff.mp h)

/-- `resolve_nodes` from the root of a trie. -/
theorem resolveNodes_represents {t : Trie} (hn : t.Normal) (hr : t.Resolved)
    (hstore : ∀ p c, p ≠ [] → t.subtree p = some c → Answers E nodeStore c) {fuel : Nat}
    (hfuel : 2 * depth t ≤ fuel) {root : Mpt} (hroot : Shape root (face E t) root.rootId) :
    ∃ m, resolveNodes fuel root nodeStore = .ok m ∧
      Represents E m (shown E (knows nodeStore) t) := by
  obtain ⟨id, m, hrun, he, hrep⟩ :=
    resolveNodesInternal_lays hn hr hstore hfuel root root.rootId hroot new
  refine ⟨{ m with rootId := id }, by rw [resolveNodes, hrun], ?_⟩
  refine Rep.mono (hrep.frame fun _ _ => rfl) fun k hk => ?_
  exact Finset.mem_range.mpr (Finset.mem_Ico.mp hk).2

end Resolution

end Mpt
end CenoReth
