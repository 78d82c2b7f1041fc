/-
Proofs are enough for the updates of a block.

For every key that a block changes there is a proof in the trie before the block
and one in the trie after it.  The trie that is built from these proofs is a view
of the trie before the block, and every update of the block succeeds on it and
leads to the root after the block.

A digest of the view would have to be stranded for the root to be missed.  Its
siblings were deleted, and the proof of a deleted key after the block ends in the
node that took in the hidden one.  One of the shortened forms of that node is the
hidden node, so it is in the store and is no digest of the view.
-/
import CenoReth.Mpt.Proof

namespace CenoReth
namespace Trie

open Patricia Patricia.Radix Rlp

/-! ## Proofs -/

section Model

variable (E : Env)

/-- The nodes on the path of a key, the root first. -/
def pathNodes : Trie → List Nibble → List Trie
  | null, _ => []
  | hole, _ => []
  | ext p c, key => ext p c :: ((stripPrefix p key).elim [] fun tail => pathNodes c tail)
  | branch c, [] => [branch c]
  | branch c, i :: key => branch c :: pathNodes (c i) key
  | t, _ => [t]

/-- The nodes of the proof of a key, as `eth_getProof` returns it: the root, and the nodes on the
path that have a hash. -/
def proofNodes (t : Trie) (key : List Nibble) : List Trie :=
  (pathNodes t key).take 1 ++
    ((pathNodes t key).drop 1).filter fun s => 32 ≤ (rlp E s).length

def proofOf (t : Trie) (key : List Nibble) : List Bytes := (proofNodes E t key).map (rlp E)

end Model

variable {E : Env} {known : B256 → Bool}

theorem mem_pathNodes_self {t : Trie} (h : isList t) (key : List Nibble) :
    t ∈ pathNodes t key := by
  cases t with
  | leaf p v => simp [pathNodes]
  | ext p c => simp [pathNodes]
  | branch c => cases key <;> simp [pathNodes]
  | _ => exact h.elim

theorem hashAddressed_iff {t : Trie} (h : isList t) :
    HashAddressed E t ↔ 32 ≤ (rlp E t).length := by
  unfold HashAddressed
  rw [ref_of_isList h]
  split
  · simp only [reduceCtorEq, exists_false, false_iff]
    omega
  · simp only [NodeRef.digest.injEq, exists_eq', true_iff]
    omega

/-- A list node of the path with a hash is in the proof. -/
theorem mem_proofNodes {t s : Trie} {key : List Nibble} (h : s ∈ (pathNodes t key).drop 1)
    (hlen : 32 ≤ (rlp E s).length) : s ∈ proofNodes E t key :=
  List.mem_append_right _ (List.mem_filter.mpr ⟨h, by simpa using hlen⟩)

/-! ## Lookups in what is shown -/

theorem isList_of_hashAddressed {t : Trie} (hr : t.Resolved) (h : HashAddressed E t) :
    isList t := by
  obtain ⟨d, hd⟩ := h
  cases t with
  | null => simp at hd
  | hole => simp at hd
  | digest d => exact hr.elim
  | _ => trivial

/-- A key is found where all hashes on its path are known. -/
theorem get_shown {t : Trie} : ∀ {key : List Nibble}, t.Resolved →
    (∀ s ∈ (pathNodes t key).drop 1, HashAddressed E s → known (hash E s) = true) →
    (shown E known t).get key = t.get key := by
  induction t with
  | ext p c ih =>
    intro key hr h
    show (ext p (veil E known c (shown E known c)) : Trie).get key = (ext p c : Trie).get key
    rw [Radix.get, Radix.get]
    cases htail : stripPrefix p key with
    | none => rfl
    | some tail =>
      have hpath : (pathNodes (ext p c) key).drop 1 = pathNodes c tail := by
        simp [pathNodes, htail]
      rw [hpath] at h
      have hrc : c.Resolved := hr
      rw [veil_of_known fun ha => h c (mem_pathNodes_self (isList_of_hashAddressed hrc ha) tail) ha]
      exact ih hrc fun s hs => h s (List.mem_of_mem_drop hs)
  | branch c ih =>
    intro key hr h
    cases key with
    | nil => rfl
    | cons i key =>
      have hpath : (pathNodes (branch c) (i :: key)).drop 1 = pathNodes (c i) key := rfl
      rw [hpath] at h
      show (veil E known (c i) (shown E known (c i))).get key = (c i).get key
      rw [veil_of_known fun ha =>
        h (c i) (mem_pathNodes_self (isList_of_hashAddressed (hr i) ha) key) ha]
      exact ih i (hr i) fun s hs => h s (List.mem_of_mem_drop hs)
  | _ => exact fun _ _ => rfl

/-- A digest stands for a node whose hash is not known. -/
theorem subtree_shown_digest {t : Trie} : ∀ {p : List Nibble} {d : B256}, t.Resolved → p ≠ [] →
    (shown E known t).subtree p = some (digest d) →
    ∃ s, t.subtree p = some s ∧ ref E s = .digest d.bytes ∧ known d = false := by
  have hstep : ∀ {c : Trie} {p : List Nibble} {d : B256}, c.Resolved →
      (p ≠ [] → (shown E known c).subtree p = some (digest d) →
        ∃ s, c.subtree p = some s ∧ ref E s = .digest d.bytes ∧ known d = false) →
      (veil E known c (shown E known c)).subtree p = some (digest d) →
      ∃ s, c.subtree p = some s ∧ ref E s = .digest d.bytes ∧ known d = false := by
    intro c p d hr ih h
    rcases @veil_cases E known c (shown E known c) with hv | ⟨d', hd', hk, hv⟩
    · rw [hv] at h
      by_cases hp : p = []
      · subst hp
        rw [subtree_nil, Option.some.injEq] at h
        cases c with
        | digest d => exact hr.elim
        | _ => cases h
      · exact ih hp h
    · rw [hv] at h
      cases p with
      | nil =>
        rw [subtree_nil, Option.some.injEq, digest.injEq] at h
        exact ⟨c, subtree_nil c, h ▸ hd', h ▸ hk⟩
      | cons i p => simp [Radix.subtree] at h
  induction t with
  | ext q c ih =>
    intro p d hr hp h
    obtain ⟨r, rfl, hc⟩ := subtree_ext hp h
    rw [subtree_ext_append c hp]
    exact hstep hr (ih hr) hc
  | branch c ih =>
    intro p d hr hp h
    obtain ⟨i, p, rfl⟩ := List.exists_cons_of_ne_nil hp
    rw [subtree_branch]
    exact hstep (hr i) (ih i (hr i)) h
  | _ =>
    intro p d _ hp h
    obtain ⟨i, p, rfl⟩ := List.exists_cons_of_ne_nil hp
    simp [shown, Radix.subtree] at h

/-! ## The node that took in another one -/

/-- A leaf or an extension. -/
def HasPath : Trie → Prop
  | leaf _ _ => True
  | ext _ _ => True
  | _ => False

theorem hasPath_of_hidesPath {P T : Trie} (h : HidesPath P T) : HasPath T := by
  obtain ⟨d, rfl⟩ := hidesPath_digest h
  cases T <;> exact h

/-- The path of the root of a trie gets longer.  The other nodes stay. -/
theorem last_extend {a : Nibble} {t w : Trie} {key : List Nibble} (hn : t.Normal)
    (h : (pathNodes t key).getLast? = some w) :
    (pathNodes (extend [a] t) (a :: key)).getLast? = some w ∨
      t = w ∧ (pathNodes (extend [a] t) (a :: key)).getLast? = some (extend [a] t) := by
  cases t with
  | null => simp [pathNodes] at h
  | hole => exact hn.elim
  | leaf q v =>
    refine .inr ⟨?_, rfl⟩
    simpa [pathNodes] using h
  | ext q c =>
    simp only [pathNodes, List.getLast?_cons, Option.some.injEq, extend_ext, List.singleton_append,
      stripPrefix_cons_self] at h ⊢
    cases hlast : ((stripPrefix q key).elim [] fun tail => pathNodes c tail).getLast? with
    | none =>
      rw [hlast] at h
      exact .inr ⟨h, rfl⟩
    | some x =>
      rw [hlast] at h
      exact .inl h
  | branch c =>
    refine .inl ?_
    simp only [extend_branch, pathNodes, stripPrefix_cons_self, stripPrefix_nil, Option.elim_some,
      List.getLast?_cons, h, Option.getD_some]
  | digest d =>
    refine .inl ?_
    simpa [pathNodes, extend_digest] using h

/-- The path of a key that leaves a trie beside `x`, where nothing else is left, ends in a node
that took in `x`. -/
theorem last_pathNodes {x : Trie} (hx : HasPath x) {i j : Nibble} (hij : j ≠ i)
    {rest : List Nibble} : ∀ (p : List Nibble) {n : Nat} {μ : List Nibble → Option Bytes},
    (p ++ j :: rest).length = n → canonical (n - p.length) (below p μ) = extend [i] x →
    ∃ r, r ≠ [] ∧ (pathNodes (canonical n μ) (p ++ j :: rest)).getLast? = some (extend r x)
  | [], n, μ, _, h => by
    refine ⟨[i], by simp, ?_⟩
    rw [show canonical n μ = extend [i] x from h]
    cases x with
    | leaf q v => rfl
    | ext q c =>
      simp only [List.nil_append, extend_ext, List.singleton_append, pathNodes,
        stripPrefix_cons_ne (Ne.symm hij), Option.elim_none, List.getLast?_singleton]
    | _ => exact hx.elim
  | a :: p, n, μ, hlen, h => by
    obtain ⟨n, rfl⟩ : ∃ k, n = k + 1 := ⟨(p ++ j :: rest).length, by rw [← hlen]; rfl⟩
    have hlen' : (p ++ j :: rest).length = n := by simpa using hlen
    have hbelow : canonical (n - p.length) (below p (below [a] μ)) = extend [i] x := by
      rw [below_append]
      simpa using h
    obtain ⟨r, hr, hlast⟩ := last_pathNodes hx hij p hlen' hbelow
    have hne : (canonical n (below [a] μ) : Trie) ≠ null := fun hnull => by
      rw [hnull] at hlast
      simp [pathNodes] at hlast
    rw [canonical_succ]
    rcases occupied_cases fun b => (canonical n (below [b] μ) : Trie) with
      ⟨_, hc⟩ | ⟨b, _, hb, hc⟩ | hc
    · exact absurd (hc a) hne
    · obtain rfl : a = b := by
        by_contra hab
        exact hne (hc a hab)
      rw [collapse_one hb hc]
      rcases @last_extend a _ _ _ (normal_canonical n _) hlast with hl | ⟨heq, hl⟩
      · exact ⟨r, hr, hl⟩
      · refine ⟨[a] ++ r, by simp, hl.trans ?_⟩
        rw [heq, extend_extend]
    · rw [collapse_many hc]
      refine ⟨r, hr, ?_⟩
      simp only [List.cons_append, pathNodes, List.getLast?_cons, hlast, Option.getD_some]

theorem getLast_proofNodes {t w : Trie} {key : List Nibble}
    (h : (pathNodes t key).getLast? = some w) (hlen : 32 ≤ (rlp E w).length) :
    (proofNodes E t key).getLast? = some w := by
  unfold proofNodes
  cases hpath : pathNodes t key with
  | nil => simp [hpath] at h
  | cons root nodes =>
    rw [hpath] at h
    simp only [List.take_succ_cons, List.take_zero, List.drop_succ_cons, List.drop_zero,
      List.singleton_append]
    rcases List.eq_nil_or_concat nodes with rfl | ⟨init, last, rfl⟩
    · exact h
    · obtain rfl : last = w := by simpa [List.getLast?_cons] using h
      simp [List.getLast?_cons, List.filter_append, hlen]

/-! ## Longer paths, longer encodings -/

theorem isSingle_encode {p : List Nibble} (h : p.length ≤ 1) (isLeaf : Bool) :
    isSingle (Hp.encode p isLeaf) = true := by
  rcases p with _ | ⟨a, _ | ⟨b, p⟩⟩
  · cases isLeaf <;> rfl
  · revert a
    cases isLeaf <;> decide
  · simp at h

theorem length_encodeString_short {b : Bytes} (h : b.length < 56) :
    (encodeString b).length ≤ b.length + 1 := by
  rw [length_encodeString, stringLength, lengthOfLength, if_pos h]
  split <;> omega

/-- A longer path has a longer encoding, or one that does not fit into a reference. -/
theorem length_encode_append (r q : List Nibble) (isLeaf : Bool) :
    (encodeString (Hp.encode q isLeaf)).length ≤
        (encodeString (Hp.encode (r ++ q) isLeaf)).length ∨
      32 ≤ (encodeString (Hp.encode (r ++ q) isLeaf)).length := by
  have hq := Hp.length_encode q isLeaf
  have hrq := Hp.length_encode (r ++ q) isLeaf
  rw [List.length_append] at hrq
  by_cases hone : (r ++ q).length ≤ 1
  · left
    have hone' : q.length ≤ 1 := by
      rw [List.length_append] at hone
      omega
    rw [length_encodeString, length_encodeString, stringLength, stringLength,
      isSingle_encode hone, isSingle_encode hone', if_pos rfl, if_pos rfl]
  · have hlong : (encodeString (Hp.encode (r ++ q) isLeaf)).length =
        (Hp.encode (r ++ q) isLeaf).length +
          lengthOfLength (Hp.encode (r ++ q) isLeaf).length := by
      rw [List.length_append] at hone
      rw [length_encodeString, stringLength, isSingle_eq_false (by omega)]
      rfl
    have hpos := lengthOfLength_pos (Hp.encode (r ++ q) isLeaf).length
    by_cases hshort : (Hp.encode (r ++ q) isLeaf).length < 32
    · left
      have := length_encodeString_short (b := Hp.encode q isLeaf) (by omega)
      omega
    · right
      omega

theorem length_rlp_iff {t : Trie} (h : isList t) :
    32 ≤ (rlp E t).length ↔ 31 ≤ (payload E t).length := by
  rw [rlp_of_isList h, length_encodeList]
  have hpos := lengthOfLength_pos (payload E t).length
  constructor
  · intro hle
    by_contra hlt
    rw [lengthOfLength, if_pos (by omega)] at hle
    omega
  · intro hle
    omega

/-- A node that took in a node with a hash has a hash. -/
theorem length_rlp_extend {x : Trie} (hx : HasPath x) (r : List Nibble)
    (h : 32 ≤ (rlp E x).length) : 32 ≤ (rlp E (extend r x)).length := by
  cases x with
  | leaf q v =>
    rw [length_rlp_iff (t := leaf q v) trivial] at h
    rw [extend_leaf, length_rlp_iff (t := leaf (r ++ q) v) trivial]
    simp only [payload, List.length_append] at h ⊢
    rcases length_encode_append r q true with hle | hle <;> omega
  | ext q c =>
    rw [length_rlp_iff (t := ext q c) trivial] at h
    rw [extend_ext, length_rlp_iff (t := ext (r ++ q) c) trivial]
    simp only [payload_ext, List.length_append] at h ⊢
    rcases length_encode_append r q false with hle | hle <;> omega
  | _ => exact hx.elim

/-- A node is a shortened form of what it is taken into. -/
theorem mem_shortenings {x : Trie} (hx : HasPath x) (r : List Nibble) :
    x ∈ Mpt.shortenings (extend r x) := by
  cases x with
  | leaf q v =>
    refine List.mem_map.mpr ⟨r.length, List.mem_range.mpr (by rw [List.length_append]; omega), ?_⟩
    rw [List.drop_left]
  | ext q c =>
    refine List.mem_map.mpr ⟨r.length, List.mem_range.mpr (by rw [List.length_append]; omega), ?_⟩
    rw [List.drop_left]
  | _ => exact hx.elim

/-! ## No digest is stranded -/

/-- A leaf or an extension is the child of a branch, or the root. -/
theorem exists_branch_above {t s : Trie} (hs : HasPath s) : ∀ {p : List Nibble} {i : Nibble},
    t.Normal → t.subtree (p ++ [i]) = some s →
    ∃ c, t.subtree p = some (branch c) ∧ c i = s := by
  induction t with
  | branch c ih =>
    intro p i hn h
    cases p with
    | nil => exact ⟨c, rfl, by simpa using h⟩
    | cons a p => exact ih a (hn.2 a) h
  | ext q c ih =>
    intro p i hn h
    obtain ⟨r, hr, hc⟩ := subtree_ext (by simp) h
    rcases List.eq_nil_or_concat r with rfl | ⟨r, j, rfl⟩
    · -- the child of an extension is a branch
      rw [subtree_nil, Option.some.injEq] at hc
      subst hc
      cases c with
      | leaf q v => exact absurd hn.2.1 id
      | ext q c => exact absurd hn.2.1 id
      | _ => exact hs.elim
    · rw [List.concat_eq_append] at hr hc
      rw [← List.append_assoc, List.append_singleton_inj] at hr
      obtain ⟨rfl, rfl⟩ := hr
      obtain ⟨c', hc', hi⟩ := ih hn.2.2 hc
      refine ⟨c', ?_, hi⟩
      rw [subtree_ext_append c (by simp [hn.1])]
      exact hc'
  | _ =>
    intro p i _ h
    cases p <;> simp [Radix.subtree] at h

/-- A key that goes on to a digest cannot be looked up. -/
theorem not_prefix_of_get {P : Trie} {p : List Nibble} {d : B256}
    (hs : P.subtree p = some (digest d)) {key : List Nibble} {o : Option Bytes}
    (hg : P.get key = .ok o) : ¬ p <+: key := by
  rintro ⟨tail, rfl⟩
  rw [get_subtree hs] at hg
  cases hg

section Stranded

variable {n : Nat} {μ : List Nibble → Option Bytes} {ops : List (List Nibble × Option Bytes)}
  {p : List Nibble} {i : Nibble} {x : Trie}

/-- Beside a leaf or an extension there was another key.  If it is gone, it was deleted. -/
theorem exists_deleted (hx : HasPath x)
    (ht : (canonical n μ : Trie).subtree (p ++ [i]) = some x)
    (honly : ∀ key v, (canonical n (writeMap μ ops) : Trie).get key = .ok (some v) → p <+: key →
      p ++ [i] <+: key) :
    ∃ j rest, j ≠ i ∧ (p ++ j :: rest).length = n ∧ writeMap μ ops (p ++ j :: rest) = none ∧
      ∃ op ∈ ops, op.1 = p ++ j :: rest := by
  have hT := isTrie_canonical (δ := B256) n μ
  obtain ⟨c, hc, hi⟩ := exists_branch_above hx hT.normal ht
  obtain ⟨j, hj, hne⟩ := exists_other_child (normal_subtree hT.normal hc).1 i
  obtain ⟨rest, _, v, hv⟩ := exists_live (isTrie_child (isTrie_subtree hT hc) j) hne
  obtain ⟨hlen, hμ⟩ := get_canonical_iff.mp ((get_subtree hc (j :: rest)).trans hv)
  have hgone : writeMap μ ops (p ++ j :: rest) = none := by
    by_contra hsome
    obtain ⟨w, hw⟩ := Option.ne_none_iff_exists'.mp hsome
    have hpre := honly _ w (get_canonical_iff.mpr ⟨hlen, hw⟩) (List.prefix_append _ _)
    rw [List.prefix_append_right_inj] at hpre
    exact hj (List.cons_prefix_cons.mp hpre).1.symm
  refine ⟨j, rest, hj, hlen, hgone, ?_⟩
  by_contra hnot
  have hkept := @writeMap_of_not_mem ops μ (p ++ j :: rest) fun op hop heq => hnot ⟨op, hop, heq⟩
  rw [hgone, hμ] at hkept
  cases hkept

/-- Where one child is left, the node is merged with it. -/
theorem canonical_merged (hx : HasPath x) (hp : p.length + 1 ≤ n)
    (hkept : canonical (n - (p.length + 1)) (below (p ++ [i]) (writeMap μ ops)) = x)
    (honly : ∀ key v, (canonical n (writeMap μ ops) : Trie).get key = .ok (some v) → p <+: key →
      p ++ [i] <+: key) :
    canonical (n - p.length) (below p (writeMap μ ops)) = extend [i] x := by
  obtain ⟨k, hk⟩ : ∃ k, n - p.length = k + 1 := ⟨n - (p.length + 1), by omega⟩
  have hk' : n - (p.length + 1) = k := by omega
  rw [hk'] at hkept
  have hself : (canonical k (below [i] (below p (writeMap μ ops))) : Trie) = x := by
    rw [below_append]
    exact hkept
  rw [hk, canonical_succ, collapse_one (j := i)]
  · rw [hself]
  · rw [hself]
    rintro rfl
    exact hx
  · intro a ha
    refine (canonical_eq_null k).mpr fun key hkey => ?_
    by_contra hsome
    obtain ⟨v, hv⟩ := Option.ne_none_iff_exists'.mp hsome
    rw [below_append, below_apply] at hv
    have hpre := honly _ v (get_canonical_iff.mpr ⟨by
      simp only [List.length_append, List.length_singleton]
      omega, hv⟩) (by rw [List.append_assoc]; exact List.prefix_append _ _)
    rw [List.append_assoc, List.prefix_append_right_inj] at hpre
    exact ha (List.cons_prefix_cons.mp hpre).1.symm

/-- No digest is stranded if the shortened forms of the last nodes are known. -/
theorem not_stranded (hseen : ∀ op ∈ ops, ∃ o, (shown E known (canonical n μ)).get op.1 = .ok o)
    (horphans : ∀ op ∈ ops, writeMap μ ops op.1 = none → ∀ w,
      (proofNodes E (canonical n (writeMap μ ops)) op.1).getLast? = some w →
      ∀ y ∈ Mpt.shortenings w, known (hash E y) = true) :
    ¬ Stranded (shown E known (canonical n μ)) (canonical n μ) (canonical n (writeMap μ ops)) := by
  rintro ⟨p, i, s, x, hs, ht, hhides, honly⟩
  obtain ⟨d, rfl⟩ := hidesPath_digest hhides
  have hx := hasPath_of_hidesPath hhides
  have hT := isTrie_canonical (δ := B256) n μ
  obtain ⟨x', hx', href, hunknown⟩ := subtree_shown_digest hT.resolved (by simp) hs
  obtain rfl := Option.some.inj (ht.symm.trans hx')
  obtain ⟨j, rest, hj, hlen, hgone, op, hop, hkey⟩ := exists_deleted hx ht honly
  -- nothing was written behind the digest
  have hkept : below (p ++ [i]) (writeMap μ ops) = below (p ++ [i]) μ := by
    funext tail
    refine writeMap_of_not_mem fun op' hop' heq => ?_
    obtain ⟨o, ho⟩ := hseen op' hop'
    exact not_prefix_of_get hs ho ⟨tail, heq.symm⟩
  have hpos := (sized_subtree hT.sized ht).2
  have hmerged := canonical_merged hx (by simpa using hpos)
    (by rw [hkept]; simpa using (subtree_canonical ht).symm) honly
  obtain ⟨r, _, hlast⟩ := last_pathNodes hx hj p hlen hmerged
  have hlist : isList x := isList_of_hashAddressed (resolved_subtree hT.resolved ht) ⟨_, href⟩
  have hsize := length_rlp_extend hx r ((hashAddressed_iff (E := E) hlist).mp ⟨_, href⟩)
  have hknown := horphans op hop (hkey ▸ hgone) _ (hkey ▸ getLast_proofNodes hlast hsize) x
    (mem_shortenings hx r)
  rw [hash_of_digest href, hunknown] at hknown
  cases hknown

/-- The root after all writes to what is shown. -/
theorem hash_writeAll_shown {s s' : Sparse 16 Bytes B256 n}
    (hs : s.compress = shown E known (canonical n μ)) (hlen : ∀ op ∈ ops, op.1.length = n)
    (hw : s.writeAll ops = some s')
    (hseen : ∀ op ∈ ops, ∃ o, (shown E known (canonical n μ)).get op.1 = .ok o)
    (horphans : ∀ op ∈ ops, writeMap μ ops op.1 = none → ∀ w,
      (proofNodes E (canonical n (writeMap μ ops)) op.1).getLast? = some w →
      ∀ y ∈ Mpt.shortenings w, known (hash E y) = true) :
    hash E s'.compress = hash E (canonical n (writeMap μ ops)) := by
  have hv : View E s.compress (canonical n μ) := hs ▸ view_shown _
  rcases writeAll_view_or_slip hv hlen hw with ⟨_, hview⟩ | ⟨hst, _⟩
  · exact hview.hash_eq
  · exact absurd (hs ▸ hst) (not_stranded hseen horphans)

end Stranded

end Trie

namespace Mpt

open Patricia Patricia.Radix Trie Rlp

variable {E : Env}

/-! ## The nodes of a trie -/

/-- A trie all of whose nodes can be encoded. -/
structure Regular (E : Env) (t : Trie) : Prop where
  normal : t.Normal
  resolved : t.Resolved
  encodable : Encodable E t

theorem Regular.proper {t s : Trie} (h : Regular E t) {p : List Nibble} (hs : t.subtree p = some s)
    (hl : isList s) : Proper E s :=
  ⟨hl, Normal.noHole (normal_subtree h.normal hs), resolved_subtree h.resolved hs,
    encodable_subtree h.encodable hs⟩

theorem subtree_of_mem_pathNodes {t s : Trie} : ∀ {key : List Nibble}, t.Normal → t.Resolved →
    s ∈ pathNodes t key → isList s ∧ ∃ p, t.subtree p = some s := by
  induction t with
  | null => exact fun _ _ h => absurd h (by simp [pathNodes])
  | hole => exact fun hn => hn.elim
  | digest d => exact fun _ hr => hr.elim
  | leaf q v =>
    intro key _ _ h
    obtain rfl : s = leaf q v := by simpa [pathNodes] using h
    exact ⟨trivial, [], rfl⟩
  | ext q c ih =>
    intro key hn hr h
    rcases List.mem_cons.mp h with rfl | h
    · exact ⟨trivial, [], rfl⟩
    · cases htail : stripPrefix q key with
      | none => simp [htail] at h
      | some tail =>
        rw [htail, Option.elim_some] at h
        obtain ⟨hl, p, hp⟩ := ih hn.2.2 hr h
        refine ⟨hl, q ++ p, ?_⟩
        rw [subtree_ext_append c (by simp [hn.1])]
        exact hp
  | branch c ih =>
    intro key hn hr h
    cases key with
    | nil =>
      obtain rfl : s = branch c := by simpa [pathNodes] using h
      exact ⟨trivial, [], rfl⟩
    | cons i key =>
      rcases List.mem_cons.mp h with rfl | h
      · exact ⟨trivial, [], rfl⟩
      · obtain ⟨hl, p, hp⟩ := ih i (hn.2 i) (hr i) h
        exact ⟨hl, i :: p, hp⟩

theorem proofNodes_subset {t : Trie} {key : List Nibble} :
    ∀ s ∈ proofNodes E t key, s ∈ pathNodes t key := by
  intro s hs
  rcases List.mem_append.mp hs with h | h
  · exact List.mem_of_mem_take h
  · exact List.mem_of_mem_drop (List.mem_of_mem_filter h)

theorem rlp_mem_nodeEncodings {t s : Trie} : ∀ {p : List Nibble}, t.subtree p = some s → s ≠ null →
    rlp E s ∈ nodeEncodings E t := by
  induction t with
  | ext q c ih =>
    intro p h hs
    by_cases hp : p = []
    · subst hp
      obtain rfl := Option.some.inj h
      exact mem_nodeEncodings_self _
    · obtain ⟨r, _, hr⟩ := subtree_ext hp h
      exact List.mem_cons_of_mem _ (ih hr hs)
  | branch c ih =>
    intro p h hs
    cases p with
    | nil =>
      obtain rfl := Option.some.inj h
      exact mem_nodeEncodings_self _
    | cons i p =>
      refine nodeEncodings_child (fun hnull => ?_) _ (ih i h hs)
      rw [subtree_branch, hnull] at h
      cases p with
      | nil => exact hs (Option.some.inj h).symm
      | cons j p => simp [Radix.subtree] at h
  | _ =>
    intro p h hs
    cases p with
    | nil =>
      obtain rfl := Option.some.inj h
      exact mem_nodeEncodings_self _
    | cons i p => simp [Radix.subtree] at h

/-- The nodes of a proof can be read. -/
theorem Regular.proofNodes {t : Trie} (h : Regular E t) {key : List Nibble} {s : Trie}
    (hs : s ∈ proofNodes E t key) :
    Proper E s ∧ s.Normal ∧ depth s ≤ depth t ∧ rlp E s ∈ nodeEncodings E t := by
  obtain ⟨hl, p, hp⟩ := subtree_of_mem_pathNodes h.normal h.resolved (proofNodes_subset s hs)
  have hne : s ≠ null := by
    rintro rfl
    exact hl
  exact ⟨h.proper hp hl, normal_subtree h.normal hp, depth_subtree_le hp hne,
    rlp_mem_nodeEncodings hp hne⟩

theorem head_proofNodes {t : Trie} (h : isList t) (key : List Nibble) :
    ∃ rest, Trie.proofNodes E t key = t :: rest := by
  unfold Trie.proofNodes
  cases t with
  | leaf q v => exact ⟨_, rfl⟩
  | ext q c => exact ⟨_, rfl⟩
  | branch c => cases key <;> exact ⟨_, rfl⟩
  | _ => exact h.elim

/-! ## Resolving through a stock of nodes -/

section Stocked

variable {t : Trie} {nodeStore : B256 → Option Mpt} {N : Set Trie} (hreg : Regular E t)
  (hstock : Stock E nodeStore N) (hN : ∀ s ∈ N, Proper E s)
  (hinj : ∀ s ∈ N, ∀ b ∈ nodeEncodings E t, E.keccak256 (rlp E s) = E.keccak256 b → rlp E s = b)

include hreg hstock hN hinj

theorem resolveNodes_stock {fuel : Nat} (hfuel : 2 * depth t ≤ fuel) {root : Mpt}
    (hroot : Shape root (face E t) root.rootId) :
    ∃ m, resolveNodes fuel root nodeStore = .ok m ∧
      Represents E m (shown E (knows nodeStore) t) := by
  refine resolveNodes_represents hreg.normal hreg.resolved (fun p c _ hc ha => ?_) hfuel hroot
  have hl := isList_of_hashAddressed (resolved_subtree hreg.resolved hc) ha
  have hne : c ≠ null := by
    rintro rfl
    exact hl
  exact hstock.answers hN (hreg.proper hc hl)
    (fun s hs => hinj s hs _ (rlp_mem_nodeEncodings hc hne)) ha

omit hinj hN in
theorem get_shown_stock {key : List Nibble} (hsub : ∀ s ∈ proofNodes E t key, s ∈ N) :
    (shown E (knows nodeStore) t).get key = t.get key := by
  refine get_shown hreg.resolved fun s hs ha => (hstock.knows _).mpr ⟨s, hsub s ?_, rfl⟩
  obtain ⟨hl, _⟩ := subtree_of_mem_pathNodes hreg.normal hreg.resolved (List.mem_of_mem_drop hs)
  exact mem_proofNodes hs ((hashAddressed_iff hl).mp ha)

end Stocked

/-! ## Proofs before the block -/

theorem parseProof_proofOf (hinv : Inverse E.decodeHeader) {t : Trie} (hreg : Regular E t)
    {fuel : Nat} (hfuel : depth t < fuel) (key : List Nibble) :
    ∃ arenas, parseProof E fuel (proofOf E t key) = .ok arenas ∧
      Shows₂ E (proofNodes E t key) arenas := by
  refine parseProof_shows hinv fun s hs => ?_
  obtain ⟨hp, hn, hd, _⟩ := hreg.proofNodes hs
  exact ⟨hp, hn, hd.trans_lt hfuel⟩

theorem processProof_stock (hinv : Inverse E.decodeHeader) {t : Trie} (hreg : Regular E t)
    {fuel : Nat} (hfuel : depth t < fuel) (key : List Nibble) {nodeStore : B256 → Option Mpt}
    {N : Set Trie} (hs : Stock E nodeStore N) :
    ∃ root nodeStore', processProof E fuel (proofOf E t key) nodeStore = .ok (root, nodeStore') ∧
      Stock E nodeStore' (N ∪ {s | s ∈ proofNodes E t key}) ∧
      ((t = null ∧ root = none) ∨ ∃ m, root = some m ∧ Shape m (face E t) m.rootId) := by
  obtain ⟨arenas, hparse, hshows⟩ := parseProof_proofOf hinv hreg hfuel key
  obtain ⟨nodeStore', hins, hstock⟩ := insertNodes_stock hshows hs
  refine ⟨arenas.head?, nodeStore', ?_, hstock, ?_⟩
  · rw [processProof, hparse]
    show (insertNodes E nodeStore arenas >>= _) = _
    rw [hins]
    rfl
  · rcases node_cases t with rfl | rfl | ⟨d, rfl⟩ | hl
    · refine .inl ⟨rfl, ?_⟩
      rw [List.forall₂_nil_left_iff.mp hshows]
      rfl
    · exact hreg.normal.elim
    · exact hreg.resolved.elim
    · obtain ⟨rest, hrest⟩ := head_proofNodes (E := E) hl key
      rw [hrest] at hshows
      cases hshows with
      | cons hm _ => exact .inr ⟨_, rfl, hm.1.shape⟩

/-- The loop over the proofs before the block. -/
theorem processProofs_stock (hinv : Inverse E.decodeHeader) {t : Trie} (hreg : Regular E t)
    {fuel : Nat} (hfuel : depth t < fuel) : ∀ (keys : List (List Nibble)) {root : Mpt}
    {nodeStore : B256 → Option Mpt} {N : Set Trie}, Stock E nodeStore N →
    (t = null ∨ keys = [] → Shape root (face E t) root.rootId) →
    ∃ root' nodeStore',
      processProofs E fuel (root, nodeStore) (keys.map (proofOf E t)) = .ok (root', nodeStore') ∧
      Stock E nodeStore' (N ∪ {s | ∃ key ∈ keys, s ∈ proofNodes E t key}) ∧
      Shape root' (face E t) root'.rootId
  | [], root, nodeStore, N, hs, hroot =>
    ⟨root, nodeStore, rfl, by simpa using hs, hroot (.inr rfl)⟩
  | key :: keys, root, nodeStore, N, hs, hroot => by
    obtain ⟨r, store₁, h₁, hs₁, hr⟩ := processProof_stock hinv hreg hfuel key hs
    have hroot₁ : Shape (r.getD root) (face E t) (r.getD root).rootId := by
      rcases hr with ⟨hnull, rfl⟩ | ⟨m, rfl, hm⟩
      · exact hroot (.inl hnull)
      · exact hm
    obtain ⟨root', nodeStore', h₂, hs₂, hroot'⟩ :=
      processProofs_stock hinv hreg hfuel keys hs₁ fun _ => hroot₁
    refine ⟨root', nodeStore', ?_, ?_, hroot'⟩
    · rw [List.map_cons, processProofs, h₁]
      exact h₂
    · have hset : N ∪ {s | ∃ k ∈ key :: keys, s ∈ proofNodes E t k} =
          N ∪ {s | s ∈ proofNodes E t key} ∪ {s | ∃ k ∈ keys, s ∈ proofNodes E t k} := by
        ext s
        simp only [Set.mem_union, Set.mem_ofPred_eq, List.mem_cons, exists_eq_or_imp, or_assoc]
      rwa [hset]

/-! ## Proofs after the block -/

/-- A proof shows whether its key is in the trie. -/
theorem isNotIncluded_spec {t : Trie} (hreg : Regular E t) (hne : t ≠ null)
    (hinj : NoCollision E (nodeEncodings E t)) {fuel : Nat} (hfuel : 2 * depth t ≤ fuel)
    {key : Bytes} {arenas : List Mpt} (hshows : Shows₂ E (proofNodes E t (Hp.keyNibs key)) arenas) :
    ∃ o, t.get (Hp.keyNibs key) = .ok o ∧ isNotIncluded E fuel key arenas = .ok o.isNone := by
  obtain ⟨o, ho⟩ := get_of_resolved hreg.resolved (Hp.keyNibs key)
  refine ⟨o, ho, ?_⟩
  obtain ⟨entries, hentries, hrel⟩ : ∃ entries, arenas.mapM (hashEntry E) = .ok entries ∧
      List.Forall₂ (fun t entry => entry.1 = Trie.hash E t ∧ Legible E entry.2 (face E t))
        (proofNodes E t (Hp.keyNibs key)) entries := by
    generalize proofNodes E t (Hp.keyNibs key) = nodes at hshows
    induction hshows with
    | nil => exact ⟨[], rfl, .nil⟩
    | @cons s _ _ _ hm _ ih =>
      obtain ⟨m', hentry, hm'⟩ := hashEntry_legible hm
      obtain ⟨entries, hentries, hrel⟩ := ih
      refine ⟨(Trie.hash E s, m') :: entries, ?_, .cons ⟨rfl, hm'⟩ hrel⟩
      rw [List.mapM_cons, hentry, hentries]
      rfl
  have hl : isList t := by
    rcases node_cases t with rfl | rfl | ⟨d, rfl⟩ | hl
    · exact absurd rfl hne
    · exact hreg.normal.elim
    · exact hreg.resolved.elim
    · exact hl
  have hstock := stock_collectStore hrel
  obtain ⟨rest, hrest⟩ := head_proofNodes (E := E) hl (Hp.keyNibs key)
  rw [hrest] at hrel
  cases hrel with
  | @cons _ entry _ entries' hentry hrel =>
    obtain ⟨m, hm, hrep⟩ := resolveNodes_stock hreg hstock (fun s hs => (hreg.proofNodes hs).1)
      (fun s hs b hb => hinj _ (hreg.proofNodes hs).2.2.2 b hb) hfuel hentry.2.1.shape
    have hmpt : mptFromProof E fuel arenas = .ok m := by
      rw [mptFromProof, hentries]
      exact hm
    have hget : (get key m).1 = .ok o := by
      have h := getNibbles_spec hrep (Hp.keyNibs key)
      rw [get_shown_stock hreg hstock fun s hs => hs, ho, Hp.map_toByte_keyNibs] at h
      unfold get
      rw [h]
      rfl
    rw [isNotIncluded, hmpt]
    show ((get key m).1 >>= _) = _
    rw [hget]
    rfl

theorem getLast_forall₂ {α β : Type} {R : α → β → Prop} {l : List α} {l' : List β}
    (h : List.Forall₂ R l l') {a : α} (ha : l.getLast? = some a) :
    ∃ b, l'.getLast? = some b ∧ R a b := by
  have hrev := List.forall₂_reverse_iff.mpr h
  rw [← List.head?_reverse] at ha
  simp only [← List.head?_reverse]
  generalize l.reverse = r at hrev ha
  generalize l'.reverse = r' at hrev
  cases hrev with
  | nil => cases ha
  | cons hab _ =>
    obtain rfl := Option.some.inj ha
    exact ⟨_, rfl, hab⟩

/-- The nodes that the proof of a key adds after the block. -/
def orphans (E : Env) (t : Trie) (key : List Nibble) : List Trie :=
  match t.get key with
  | .ok none => (proofNodes E t key).getLast?.elim [] shortenings
  | _ => []

/-- The path of a key that is hashed: of an address in the state trie, of a slot in a storage
trie. -/
abbrev keyPath (E : Env) (key : Bytes) : List Nibble := Hp.keyNibs (E.keccak256 key).bytes

/-- The path of a slot in a storage trie. -/
abbrev slotNibs (E : Env) (slot : B256) : List Nibble := Hp.keyNibs (E.keccak256 slot.bytes).bytes

theorem addOrphanedLeafs_stock (hinv : Inverse E.decodeHeader) {t : Trie} (hreg : Regular E t)
    (hinj : NoCollision E (nodeEncodings E t)) {fuel : Nat} (hfuel : 2 * depth t ≤ fuel)
    (key : Bytes) {nodeStore : B256 → Option Mpt} {N : Set Trie} (hs : Stock E nodeStore N) :
    ∃ nodeStore', addOrphanedLeafs E fuel key (proofOf E t (keyPath E key)) nodeStore =
        .ok nodeStore' ∧
      Stock E nodeStore' (N ∪ {s | s ∈ orphans E t (keyPath E key)}) := by
  have hpos := depth_pos t
  have hread : depth t < fuel := by omega
  obtain ⟨arenas, hparse, hshows⟩ := parseProof_proofOf hinv hreg hread (keyPath E key)
  unfold addOrphanedLeafs orphans
  by_cases hnull : t = null
  · subst hnull
    refine ⟨nodeStore, if_pos rfl, ?_⟩
    simpa [Radix.get, proofNodes, pathNodes] using hs
  · obtain ⟨o, ho, hincl⟩ := isNotIncluded_spec hreg hnull hinj hfuel hshows
    have hl : isList t := by
      rcases node_cases t with rfl | rfl | ⟨d, rfl⟩ | hl
      · exact absurd rfl hnull
      · exact hreg.normal.elim
      · exact hreg.resolved.elim
      · exact hl
    obtain ⟨rest, hrest⟩ := head_proofNodes (E := E) hl (keyPath E key)
    have hproof : proofOf E t (keyPath E key) ≠ [] := by
      simp [proofOf, hrest]
    rw [if_neg hproof, hparse]
    show ∃ s', (isNotIncluded E fuel (E.keccak256 key).bytes arenas >>= _) = .ok s' ∧ _
    rw [hincl, ho]
    cases o with
    | some v =>
      refine ⟨nodeStore, rfl, ?_⟩
      simpa using hs
    | none =>
      obtain ⟨w, hw⟩ : ∃ w, (proofNodes E t (keyPath E key)).getLast? = some w := by
        rw [hrest]
        exact ⟨_, List.getLast?_cons⟩
      obtain ⟨m, hm, hlegible⟩ := getLast_forall₂ hshows hw
      obtain ⟨shorter, hshort, hshows'⟩ := shortenNodePath_shows hlegible
        (hreg.proofNodes (List.mem_of_getLast? hw)).2.1
      obtain ⟨nodeStore', hins, hstock⟩ := insertNodes_stock hshows' hs
      refine ⟨nodeStore', ?_, ?_⟩
      · simp only [bind, Except.bind, Option.isNone_none, if_true, hm, hshort]
        exact hins
      · simpa [hw] using hstock

/-- The storage part of an answer of `eth_getProof`. -/
def storageProofsOf (E : Env) (t : Trie) (slots : List B256) : List StorageProof :=
  slots.map fun slot => ⟨slot, proofOf E t (slotNibs E slot)⟩

/-- The loop over the proofs after the block. -/
theorem addAllOrphanedLeafs_stock (hinv : Inverse E.decodeHeader) {t : Trie} (hreg : Regular E t)
    (hinj : NoCollision E (nodeEncodings E t)) {fuel : Nat} (hfuel : 2 * depth t ≤ fuel) :
    ∀ (slots : List B256) {nodeStore : B256 → Option Mpt} {N : Set Trie}, Stock E nodeStore N →
      ∃ nodeStore', addAllOrphanedLeafs E fuel nodeStore (storageProofsOf E t slots) =
          .ok nodeStore' ∧
        Stock E nodeStore' (N ∪ {s | ∃ slot ∈ slots, s ∈ orphans E t (slotNibs E slot)})
  | [], nodeStore, N, hs => ⟨nodeStore, rfl, by simpa using hs⟩
  | slot :: slots, nodeStore, N, hs => by
    obtain ⟨store₁, h₁, hs₁⟩ := addOrphanedLeafs_stock hinv hreg hinj hfuel slot.bytes hs
    obtain ⟨nodeStore', h₂, hs₂⟩ := addAllOrphanedLeafs_stock hinv hreg hinj hfuel slots hs₁
    refine ⟨nodeStore', ?_, ?_⟩
    · rw [storageProofsOf, List.map_cons, addAllOrphanedLeafs, h₁]
      exact h₂
    · have hset : N ∪ {s | ∃ k ∈ slot :: slots, s ∈ orphans E t (slotNibs E k)} =
          N ∪ {s | s ∈ orphans E t (slotNibs E slot)} ∪
            {s | ∃ k ∈ slots, s ∈ orphans E t (slotNibs E k)} := by
        ext s
        simp only [Set.mem_union, Set.mem_ofPred_eq, List.mem_cons, exists_eq_or_imp, or_assoc]
      rwa [hset]

/-! ## The storage trie -/

/-- A trie over keys of one length whose values are slices. -/
structure Sliced (n : Nat) (t : Trie) : Prop where
  isTrie : IsTrie n t
  values : AllValues (fun v => v.length < 2 ^ 63) t

theorem sliced_canonical {n : Nat} {μ : List Nibble → Option Bytes}
    (h : ∀ key v, μ key = some v → v.length < 2 ^ 63) : Sliced n (canonical n μ) :=
  ⟨isTrie_canonical n μ, allValues_of_get (isTrie_canonical n μ).sized fun key v _ hg =>
    h key v (get_canonical_iff.mp hg).2⟩

theorem Sliced.regular {n : Nat} {t : Trie} (h : Sliced n t) (hn : n < 2 ^ 60) : Regular E t :=
  ⟨h.isTrie.normal, h.isTrie.resolved,
    encodable_of_sized h.isTrie.sized hn (Normal.noHole h.isTrie.normal) h.values⟩

theorem proper_shortenings {n : Nat} {t : Trie} (hn : n < 2 ^ 60) (hnorm : t.Normal)
    (hr : t.Resolved) (hs : t.Sized n) (hv : AllValues (fun v => v.length < 2 ^ 63) t) :
    ∀ s ∈ shortenings t, Proper E s := by
  intro s hs'
  cases t with
  | leaf p v =>
    obtain ⟨i, _, rfl⟩ := List.mem_map.mp hs'
    have hp : p.length = n := hs
    have hlen : (p.drop i).length < 2 ^ 60 := by
      rw [List.length_drop]
      omega
    exact ⟨trivial, trivial, trivial,
      encodable_of_sized (t := leaf (p.drop i) v) (n := (p.drop i).length) rfl hlen trivial hv⟩
  | ext p c =>
    obtain ⟨i, _, rfl⟩ := List.mem_map.mp hs'
    have hh : NoHole c := Normal.noHole hnorm.2.2
    have hp := hs.1
    have hsized : (ext (p.drop i) c : Trie).Sized (n - p.length + (p.drop i).length) := by
      refine ⟨Nat.le_add_left _ _, ?_⟩
      rw [Nat.add_sub_cancel]
      exact hs.2
    have hlen : n - p.length + (p.drop i).length < 2 ^ 60 := by
      rw [List.length_drop]
      omega
    exact ⟨trivial, hh, hr, encodable_of_sized hsized hlen hh hv⟩
  | _ => simp [shortenings] at hs'

theorem proper_orphans {n : Nat} (hn : n < 2 ^ 60) {t : Trie} (h : Sliced n t) {key : List Nibble} :
    ∀ s ∈ orphans E t key, Proper E s := by
  intro s hs
  unfold orphans at hs
  split at hs
  · cases hlast : (proofNodes E t key).getLast? with
    | none => simp [hlast] at hs
    | some w =>
      rw [hlast, Option.elim_some] at hs
      obtain ⟨_, p, hp⟩ := subtree_of_mem_pathNodes h.isTrie.normal h.isTrie.resolved
        (proofNodes_subset w (List.mem_of_getLast? hlast))
      have hlt : n - p.length < 2 ^ 60 := lt_of_le_of_lt (Nat.sub_le _ _) hn
      exact proper_shortenings hlt (normal_subtree h.isTrie.normal hp)
        (resolved_subtree h.isTrie.resolved hp) (sized_subtree h.isTrie.sized hp).1
        (allValues_subtree h.values hp) s hs
  · simp at hs

/-- The encodings of the nodes of the two tries and of the shortened nodes. -/
def blockEncodings (E : Env) (t t' : Trie) (slots : List B256) : List Bytes :=
  nodeEncodings E t ++ nodeEncodings E t' ++
    slots.flatMap fun slot => (orphans E t' (slotNibs E slot)).map (rlp E)

/-- `build_storage_trie` builds what the proofs show. -/
theorem buildStorageTrie_shows (hinv : Inverse E.decodeHeader) {t t' : Trie} {n : Nat}
    (hn : n < 2 ^ 60) (ht : Sliced n t) (ht' : Sliced n t') {slots fini : List B256}
    (hslots : slots ≠ []) (hinj : NoCollision E (blockEncodings E t t' fini)) {fuel : Nat}
    (hfuel : 2 * (depth t + depth t') ≤ fuel) {before after : AccountProof}
    (hbefore : before.storageProofs = storageProofsOf E t slots)
    (hafter : after.storageProofs = storageProofsOf E t' fini) :
    ∃ m nodeStore, buildStorageTrie E fuel before after = .ok m ∧
      Represents E m (shown E (knows nodeStore) t) ∧
      Stock E nodeStore ({s | ∃ slot ∈ slots, s ∈ proofNodes E t (slotNibs E slot)} ∪
        {s | ∃ slot ∈ fini, s ∈ orphans E t' (slotNibs E slot)}) := by
  have hreg : Regular E t := ht.regular hn
  have hreg' : Regular E t' := ht'.regular hn
  have hpos := depth_pos t
  have hpos' := depth_pos t'
  have hmem : ∀ b, b ∈ nodeEncodings E t → b ∈ blockEncodings E t t' fini := fun b hb =>
    List.mem_append_left _ (List.mem_append_left _ hb)
  have hread : depth t < fuel := by omega
  have hfuel₁ : 2 * depth t ≤ fuel := by omega
  have hfuel₂ : 2 * depth t' ≤ fuel := by omega
  have hnew : t = null ∨ slots.map (slotNibs E) = [] → Shape new (face E t) new.rootId := by
    rintro (rfl | h)
    · exact ⟨none, rfl, trivial⟩
    · exact absurd (List.map_eq_nil_iff.mp h) hslots
  obtain ⟨root, store₁, h₁, hs₁, hroot⟩ :=
    processProofs_stock hinv hreg hread (slots.map (slotNibs E)) stock_empty hnew
  obtain ⟨nodeStore, h₂, hs₂⟩ := addAllOrphanedLeafs_stock hinv hreg'
    (fun x hx y hy => hinj x (List.mem_append_left _ (List.mem_append_right _ hx)) y
      (List.mem_append_left _ (List.mem_append_right _ hy))) hfuel₂ fini hs₁
  rw [Set.empty_union] at hs₂
  simp only [List.mem_map, exists_exists_and_eq_and] at hs₂
  obtain ⟨m, h₃, hrep⟩ := resolveNodes_stock hreg hs₂
    (fun s hs => by
      rcases hs with ⟨slot, _, hs⟩ | ⟨slot, _, hs⟩
      · exact (hreg.proofNodes hs).1
      · exact proper_orphans hn ht' s hs)
    (fun s hs b hb => by
      refine hinj _ ?_ b (hmem b hb)
      rcases hs with ⟨slot, _, hs⟩ | ⟨slot, hslot, hs⟩
      · exact hmem _ (hreg.proofNodes hs).2.2.2
      · exact List.mem_append_right _
          (List.mem_flatMap.mpr ⟨slot, hslot, List.mem_map_of_mem hs⟩))
    hfuel₁ hroot
  refine ⟨m, nodeStore, ?_, hrep, hs₂⟩
  have hproofs : before.storageProofs ≠ [] := by
    rw [hbefore]
    simpa [storageProofsOf] using hslots
  have hmap : before.storageProofs.map StorageProof.proof =
      (slots.map (slotNibs E)).map (proofOf E t) := by
    rw [hbefore]
    simp [storageProofsOf]
  rw [buildStorageTrie, if_neg hproofs, hmap, h₁]
  show (addAllOrphanedLeafs E fuel store₁ after.storageProofs >>= _) = _
  rw [hafter, h₂]
  exact h₃

end Mpt
end CenoReth
