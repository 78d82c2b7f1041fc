/-
A root hash binds the trie below it.

Node encodings can be taken apart in one way only, so two tries with the same
reference differ at most where one of them has a digest in place of a subtree,
unless the hash function collides on two of their nodes.
-/
import CenoReth.Mpt.View
import Mathlib.Data.Set.Function

namespace CenoReth
namespace Trie

open Patricia Patricia.Radix Rlp

variable (E : Env)

/-- The encodings that are hashed because they are too long to be inlined. -/
def addressed : Trie → Set Bytes
  | leaf p v => {b | b = rlp E (leaf p v) ∧ 32 ≤ b.length}
  | ext p c => {b | b = rlp E (ext p c) ∧ 32 ≤ b.length} ∪ addressed c
  | branch c => {b | b = rlp E (branch c) ∧ 32 ≤ b.length} ∪ {b | ∃ i, b ∈ addressed (c i)}
  | _ => ∅

/-- The encodings that are hashed on the way to the root hash. -/
def hashed (t : Trie) : Set Bytes := {b | b = rlp E t} ∪ addressed E t

/-- The addressed nodes, as a list. -/
def addressedNodes : Trie → List Bytes
  | leaf p v => if 32 ≤ (rlp E (leaf p v)).length then [rlp E (leaf p v)] else []
  | ext p c =>
    (if 32 ≤ (rlp E (ext p c)).length then [rlp E (ext p c)] else []) ++ addressedNodes c
  | branch c =>
    (if 32 ≤ (rlp E (branch c)).length then [rlp E (branch c)] else []) ++
      (List.finRange 16).flatMap fun i => addressedNodes (c i)
  | _ => []

variable {E} in
theorem mem_addressedNodes {b : Bytes} {t : Trie} : b ∈ addressedNodes E t ↔ b ∈ addressed E t := by
  have hself : ∀ r : Bytes, b ∈ (if 32 ≤ r.length then [r] else []) ↔ b = r ∧ 32 ≤ b.length := by
    intro r
    split <;> rename_i h
    · simp only [List.mem_singleton]
      exact ⟨fun hb => ⟨hb, hb ▸ h⟩, fun hb => hb.1⟩
    · simp only [List.not_mem_nil, false_iff]
      exact fun hb => h (hb.1 ▸ hb.2)
  induction t with
  | leaf p v => exact hself _
  | ext p c ih =>
    rw [addressedNodes, List.mem_append, hself]
    exact or_congr_right ih
  | branch c ih =>
    rw [addressedNodes, List.mem_append, hself, List.mem_flatMap]
    refine or_congr_right ⟨?_, ?_⟩
    · rintro ⟨i, _, hi⟩
      exact ⟨i, (ih i).mp hi⟩
    · rintro ⟨i, hi⟩
      exact ⟨i, List.mem_finRange i, (ih i).mpr hi⟩
  | _ => simp [addressedNodes, addressed]

/-- Paths and values are as long as machine words can say. -/
def Fits : Trie → Prop
  | leaf p v => (Hp.encode p true).length < 2 ^ 64 ∧ v.length < 2 ^ 64
  | ext p c => (Hp.encode p false).length < 2 ^ 64 ∧ Fits c
  | branch c => ∀ i, Fits (c i)
  | _ => True

/-- No slot points to an erased node. -/
def NoHole : Trie → Prop
  | hole => False
  | ext _ c => NoHole c
  | branch c => ∀ i, NoHole (c i)
  | _ => True

/-- A reference as an item of the parent. -/
def refItem (t : Trie) : Item :=
  match ref E t with
  | .digest d => .str d
  | .bytes b => if b = [emptyStringCode] then .str [] else .list (payload E t)

/-- The items of a list node. -/
def items : Trie → List Item
  | leaf p v => [.str (Hp.encode p true), .str v]
  | ext p c => [.str (Hp.encode p false), refItem E c]
  | branch c => ((List.finRange 16).map fun i => refItem E (c i)) ++ [.str []]
  | _ => []

variable {E}

theorem encodeList_ne_emptyString (payload : Bytes) : encodeList payload ≠ [emptyStringCode] := by
  obtain ⟨x, rest, h, hx⟩ := encodeList_first payload
  rw [h]
  rintro heq
  obtain ⟨rfl, _⟩ := List.cons.inj heq
  revert hx
  decide

theorem rlp_ne_emptyString {t : Trie} (h : isList t) : rlp E t ≠ [emptyStringCode] := by
  rw [rlp_of_isList h]
  exact encodeList_ne_emptyString _

theorem refItem_of_inline {t : Trie} (h : isList t) (hlen : (rlp E t).length < 32) :
    refItem E t = .list (payload E t) := by
  simp [refItem, ref_of_isList h, hlen, rlp_ne_emptyString h]

theorem refItem_of_digest {t : Trie} {d : Bytes} (h : ref E t = .digest d) :
    refItem E t = .str d := by
  simp [refItem, h]

/-- What a reference is. -/
theorem ref_cases (t : Trie) :
    (∃ d : B256, ref E t = .digest d.bytes) ∨ (t = null ∨ t = hole) ∨
      (isList t ∧ (rlp E t).length < 32 ∧ ref E t = .bytes (rlp E t)) := by
  rcases node_cases t with rfl | rfl | ⟨d, rfl⟩ | hl
  · exact .inr (.inl (.inl rfl))
  · exact .inr (.inl (.inr rfl))
  · exact .inl ⟨d, rfl⟩
  · by_cases hlen : (rlp E t).length < 32
    · exact .inr (.inr ⟨hl, hlen, by rw [ref_of_isList hl, if_pos hlen]⟩)
    · exact .inl ⟨_, by rw [ref_of_isList hl, if_neg hlen]⟩

theorem encodeRef_eq (t : Trie) : encodeRef (ref E t) = (refItem E t).encode := by
  rcases ref_cases (E := E) t with ⟨d, hd⟩ | (rfl | rfl) | ⟨hl, hlen, hr⟩
  · rw [refItem_of_digest hd, hd, Item.encode, encodeString_word d.length_bytes, encodeRef]
  · rfl
  · rfl
  · rw [refItem_of_inline hl hlen, hr, encodeRef, rlp_of_isList hl, Item.encode]

theorem refItem_fits (t : Trie) : (refItem E t).Fits := by
  rcases ref_cases (E := E) t with ⟨d, hd⟩ | (rfl | rfl) | ⟨hl, hlen, hr⟩
  · rw [refItem_of_digest hd]
    simp [Item.Fits, d.length_bytes]
  · simp [refItem, Item.Fits]
  · simp [refItem, Item.Fits]
  · rw [refItem_of_inline hl hlen]
    rw [rlp_of_isList hl, length_encodeList] at hlen
    simp only [Item.Fits]
    omega

theorem ref_of_refItem {t u : Trie} (h : refItem E t = refItem E u) : ref E t = ref E u := by
  have henc : encodeRef (ref E t) = encodeRef (ref E u) := by rw [encodeRef_eq, encodeRef_eq, h]
  rcases ref_length (E := E) t with ⟨d, ht, hd⟩ | ⟨b, ht, hb⟩ <;>
    rcases ref_length (E := E) u with ⟨d', hu, hd'⟩ | ⟨b', hu, hb'⟩ <;>
    rw [ht, hu] at henc ⊢
  · rw [(List.cons.inj henc).2]
  · have := congrArg List.length henc
    simp [encodeRef] at this
    omega
  · have := congrArg List.length henc
    simp [encodeRef] at this
    omega
  · exact congrArg _ henc

theorem payload_eq_items {t : Trie} (h : isList t) :
    payload E t = ((items E t).map Item.encode).flatten := by
  cases t with
  | leaf p v => simp [items, payload, Item.encode]
  | ext p c => simp [items, payload_ext, encodeRef_eq, Item.encode]
  | branch c =>
    simp only [items, payload_branch, encodeRef_eq, List.map_append, List.flatten_append,
      List.map_map]
    rfl
  | _ => exact h.elim

theorem items_fit {t : Trie} (h : Fits t) : ∀ a ∈ items E t, a.Fits := by
  cases t with
  | leaf p v =>
    simp only [items, List.mem_cons, List.not_mem_nil, or_false, forall_eq_or_imp, forall_eq]
    exact h
  | ext p c =>
    simp only [items, List.mem_cons, List.not_mem_nil, or_false, forall_eq_or_imp, forall_eq]
    exact ⟨h.1, refItem_fits c⟩
  | branch c =>
    intro a ha
    simp only [items, List.mem_append, List.mem_map, List.mem_singleton] at ha
    rcases ha with ⟨i, _, rfl⟩ | rfl
    · exact refItem_fits _
    · simp [Item.Fits]
  | _ => simp [items]

theorem mem_addressed_self {t : Trie} (h : isList t) (hlen : ¬ (rlp E t).length < 32) :
    rlp E t ∈ addressed E t := by
  have hle : 32 ≤ (rlp E t).length := by omega
  cases t with
  | leaf p v => exact ⟨rfl, hle⟩
  | ext p c => exact .inl ⟨rfl, hle⟩
  | branch c => exact .inl ⟨rfl, hle⟩
  | _ => exact h.elim

/-- List nodes with the same reference have the same encoding. -/
theorem rlp_of_ref {t u : Trie} (ht : isList t) (hu : isList u)
    (hinj : Set.InjOn E.keccak256 (addressed E t ∪ addressed E u)) (h : ref E t = ref E u) :
    rlp E t = rlp E u := by
  rw [ref_of_isList ht, ref_of_isList hu] at h
  by_cases hlt : (rlp E t).length < 32 <;> by_cases hlu : (rlp E u).length < 32
  · simpa [hlt, hlu] using h
  · simp [hlt, hlu] at h
  · simp [hlt, hlu] at h
  · rw [if_neg hlt, if_neg hlu, NodeRef.digest.injEq] at h
    exact hinj (.inl (mem_addressed_self ht hlt)) (.inr (mem_addressed_self hu hlu)) (B256.ext h)

theorem items_of_ref {t u : Trie} (ht : isList t) (hu : isList u) (hft : Fits t) (hfu : Fits u)
    (hinj : Set.InjOn E.keccak256 (addressed E t ∪ addressed E u)) (h : ref E t = ref E u) :
    items E t = items E u := by
  have hrlp := rlp_of_ref ht hu hinj h
  rw [rlp_of_isList ht, rlp_of_isList hu] at hrlp
  have hpay := encodeList_injective hrlp
  rw [payload_eq_items ht, payload_eq_items hu] at hpay
  exact items_injective (items_fit hft) (items_fit hfu) hpay

/-- What a node whose encoding is known looks like. -/
theorem items_leaf {t : Trie} {p : List Nibble} {v : Bytes} (ht : isList t)
    (h : items E (leaf p v) = items E t) : t = leaf p v := by
  cases t with
  | leaf q w =>
    simp only [items, List.cons.injEq, Item.str.injEq, and_true] at h
    rw [(Hp.encode_injective h.1).1, h.2]
  | ext q c =>
    simp only [items, List.cons.injEq, Item.str.injEq, and_true] at h
    exact absurd (Hp.encode_injective h.1).2 (by simp)
  | branch c =>
    have := congrArg List.length h
    simp [items] at this
  | _ => exact ht.elim

theorem items_ext {t c : Trie} {p : List Nibble} (ht : isList t)
    (h : items E (ext p c) = items E t) : ∃ c', t = ext p c' ∧ ref E c = ref E c' := by
  cases t with
  | leaf q w =>
    simp only [items, List.cons.injEq, Item.str.injEq, and_true] at h
    exact absurd (Hp.encode_injective h.1).2 (by simp)
  | ext q c' =>
    simp only [items, List.cons.injEq, Item.str.injEq, and_true] at h
    exact ⟨c', by rw [(Hp.encode_injective h.1).1], ref_of_refItem h.2⟩
  | branch c =>
    have := congrArg List.length h
    simp [items] at this
  | _ => exact ht.elim

theorem items_branch {t : Trie} {c : Nibble → Trie} (ht : isList t)
    (h : items E (branch c) = items E t) :
    ∃ c', t = branch c' ∧ ∀ i, ref E (c i) = ref E (c' i) := by
  cases t with
  | leaf q w =>
    have := congrArg List.length h
    simp [items] at this
  | ext q c' =>
    have := congrArg List.length h
    simp [items] at this
  | branch c' =>
    refine ⟨c', rfl, fun i => ref_of_refItem ?_⟩
    simp only [items] at h
    have hmap := List.append_cancel_right h
    exact List.map_inj_left.mp hmap i (List.mem_finRange i)
  | _ => exact ht.elim

/-- Only the empty trie has the reference of the empty trie. -/
theorem eq_null_of_ref {t : Trie} (hh : t ≠ hole) (h : ref E null = ref E t) : t = null := by
  rcases ref_cases (E := E) t with ⟨d, hd⟩ | (rfl | rfl) | ⟨hl, _, hr⟩
  · simp [hd] at h
  · rfl
  · exact absurd rfl hh
  · rw [hr] at h
    exact absurd (NodeRef.bytes.inj h).symm (rlp_ne_emptyString hl)

theorem isList_of_ref {P T : Trie} (hP : isList P) (hT : T.Resolved) (hTh : NoHole T)
    (h : ref E P = ref E T) : isList T := by
  rcases node_cases T with rfl | rfl | ⟨d, rfl⟩ | hl
  · have hnull : P = null := eq_null_of_ref (by rintro rfl; exact hP) h.symm
    subst hnull
    exact hP
  · exact hTh.elim
  · exact hT.elim
  · exact hl

/-- Two tries with the same reference, one of them resolved: the other is a partial view
of it. -/
theorem view_of_ref {P T : Trie} (hP : NoHole P) (hT : T.Resolved) (hTh : NoHole T)
    (hfP : Fits P) (hfT : Fits T)
    (hinj : Set.InjOn E.keccak256 (addressed E P ∪ addressed E T)) (h : ref E P = ref E T) :
    View E P T := by
  induction P generalizing T with
  | null =>
    rw [eq_null_of_ref (by rintro rfl; exact hTh) h]
    exact .ofNull
  | hole => exact hP.elim
  | digest d => exact .hidden h.symm
  | leaf p v =>
    have hl := isList_of_ref (P := leaf p v) trivial hT hTh h
    have hitems := items_of_ref (t := leaf p v) trivial hl hfP hfT hinj h
    rw [items_leaf hl hitems]
    exact .ofLeaf p v
  | ext p c ih =>
    have hl := isList_of_ref (P := ext p c) trivial hT hTh h
    have hitems := items_of_ref (t := ext p c) trivial hl hfP hfT hinj h
    obtain ⟨c', rfl, href⟩ := items_ext hl hitems
    refine .ofExt p (ih hP hT hTh hfP.2 hfT.2 (hinj.mono ?_) href)
    exact Set.union_subset_union Set.subset_union_right Set.subset_union_right
  | branch c ih =>
    have hl := isList_of_ref (P := branch c) trivial hT hTh h
    have hitems := items_of_ref (t := branch c) trivial hl hfP hfT hinj h
    obtain ⟨c', rfl, href⟩ := items_branch hl hitems
    refine .ofBranch fun i => ih i (hP i) (hT i) (hTh i) (hfP i) (hfT i) (hinj.mono ?_) (href i)
    exact Set.union_subset_union (fun b hb => .inr ⟨i, hb⟩) fun b hb => .inr ⟨i, hb⟩

/-- Two list nodes with the same hash. -/
theorem view_of_hash {P T : Trie} (hlP : isList P) (hlT : isList T) (hP : NoHole P)
    (hT : T.Resolved) (hTh : NoHole T) (hfP : Fits P) (hfT : Fits T)
    (hinj : Set.InjOn E.keccak256 (hashed E P ∪ hashed E T)) (h : hash E P = hash E T) :
    View E P T := by
  rw [hash_of_isList hlP, hash_of_isList hlT] at h
  have hrlp : rlp E P = rlp E T := hinj (.inl (.inl rfl)) (.inr (.inl rfl)) h
  have href : ref E P = ref E T := by rw [ref_of_isList hlP, ref_of_isList hlT, hrlp]
  refine view_of_ref hP hT hTh hfP hfT (hinj.mono ?_) href
  exact Set.union_subset_union Set.subset_union_right Set.subset_union_right

end Trie
end CenoReth
