/-
Following digests through a store of nodes.

A store answers some digests with a tree that has this digest as its hash.
Resolution replaces a digest by its answer, and then resolves the answer.
Nothing stops it on an answer that is a digest itself: that digest is the one
that was looked up.  An answer with a short encoding is a second kind of defect:
its hash is the digest, and below the root its reference is not.

`Settled` excludes both for the digests that resolution comes across.  Where it
holds, and no node contains its own hash through other nodes, resolution ends
and keeps the reference of every node.  Where resolution ends and the root hash
is kept, it holds.
-/
import CenoReth.Mpt.Raw
import Mathlib.Data.Fintype.EquivFin
import Mathlib.Data.Set.Finite.List
import Mathlib.Logic.Relation
import Mathlib.Order.WellFounded

namespace CenoReth
namespace RawTrie

open Relation

variable (E : Env) (store : B256 → Option RawTrie)

/-! ## Resolution -/

/-- A tree and the tree with its digests resolved. -/
inductive Resolves : RawTrie → RawTrie → Prop
  | null : Resolves null null
  | leaf (path value : Bytes) : Resolves (leaf path value) (leaf path value)
  | ext (path : Bytes) {c c' : RawTrie} (h : Resolves c c') : Resolves (ext path c) (ext path c')
  | branch {c c' : Nibble → RawTrie} (h : ∀ i, Resolves (c i) (c' i)) :
    Resolves (branch c) (branch c')
  | found {d : B256} {t t' : RawTrie} (hd : store d = some t) (h : Resolves t t') :
    Resolves (digest d) t'
  | kept {d : B256} (hd : store d = none) : Resolves (digest d) (digest d)

/-- A step of resolution.  The flag says whether the node stands below another one, which
refers to it. -/
inductive Follows : Bool × RawTrie → Bool × RawTrie → Prop
  | ext (below : Bool) (path : Bytes) (c : RawTrie) : Follows (below, ext path c) (true, c)
  | branch (below : Bool) (c : Nibble → RawTrie) (i : Nibble) :
    Follows (below, branch c) (true, c i)
  | digest (below : Bool) {d : B256} {t : RawTrie} (hd : store d = some t) :
    Follows (below, digest d) (below, t)

/-- Resolution from one node comes across another one. -/
abbrev Visits : Bool × RawTrie → Bool × RawTrie → Prop := ReflTransGen (Follows store)

def isDigest : RawTrie → Prop
  | digest _ => True
  | _ => False

/-- The answer can stand for the digest: it is a node, and below another node it is one that
is referred to by its hash. -/
def Proper : Bool × RawTrie → Prop
  | (below, digest d) => ∀ t, store d = some t →
    ¬ isDigest t ∧ (below = true → 32 ≤ (rlp E t).length)
  | _ => True

/-- Every digest that resolution comes across has a proper answer, if any. -/
def Settled (x : Bool × RawTrie) : Prop := ∀ y, Visits store x y → Proper E store y

/-- What is kept of a node: its reference, or at the root only its hash. -/
def Keeps : Bool → RawTrie → RawTrie → Prop
  | true, t, t' => ref E t' = ref E t
  | false, t, t' => hash E t' = hash E t

variable {E store}

theorem settled_iff {x : Bool × RawTrie} :
    Settled E store x ↔ Proper E store x ∧ ∀ y, Follows store x y → Settled E store y := by
  constructor
  · exact fun h => ⟨h x .refl, fun y hxy z hyz => h z (hyz.head hxy)⟩
  · rintro ⟨hx, hnext⟩ y hy
    rcases hy.cases_head with rfl | ⟨z, hz, hzy⟩
    · exact hx
    · exact hnext z hz y hzy

theorem settled_null (b : Bool) : Settled E store (b, null) :=
  settled_iff.mpr ⟨trivial, fun _ h => nomatch h⟩

theorem settled_leaf (b : Bool) (path value : Bytes) : Settled E store (b, leaf path value) :=
  settled_iff.mpr ⟨trivial, fun _ h => nomatch h⟩

theorem settled_ext {b : Bool} {path : Bytes} {c : RawTrie} :
    Settled E store (b, ext path c) ↔ Settled E store (true, c) := by
  rw [settled_iff]
  constructor
  · exact fun h => h.2 _ (.ext b path c)
  · refine fun h => ⟨trivial, fun y hy => ?_⟩
    cases hy
    exact h

theorem settled_branch {b : Bool} {c : Nibble → RawTrie} :
    Settled E store (b, branch c) ↔ ∀ i, Settled E store (true, c i) := by
  rw [settled_iff]
  constructor
  · exact fun h i => h.2 _ (.branch b c i)
  · refine fun h => ⟨trivial, fun y hy => ?_⟩
    cases hy with
    | branch _ _ i => exact h i

theorem settled_digest_none {b : Bool} {d : B256} (hd : store d = none) :
    Settled E store (b, digest d) := by
  refine settled_iff.mpr ⟨fun t ht => ?_, fun y hy => ?_⟩
  · simp [hd] at ht
  · cases hy with
    | digest _ ht => simp [hd] at ht

theorem settled_digest {b : Bool} {d : B256} {t : RawTrie} (hd : store d = some t) :
    Settled E store (b, digest d) ↔
      (¬ isDigest t ∧ (b = true → 32 ≤ (rlp E t).length)) ∧ Settled E store (b, t) := by
  rw [settled_iff]
  constructor
  · exact fun h => ⟨h.1 t hd, h.2 _ (.digest b hd)⟩
  · refine fun h => ⟨fun t' ht' => ?_, fun y hy => ?_⟩
    · obtain rfl : t = t' := Option.some.inj (hd.symm.trans ht')
      exact h.1
    · cases hy with
      | digest _ ht' =>
        obtain rfl := Option.some.inj (hd.symm.trans ht')
        exact h.2

/-! ## What is kept -/

theorem isList_resolves {t t' : RawTrie} (h : Resolves store t t') (hl : isList t) :
    isList t' := by
  cases h <;> first | exact hl | exact hl.elim

/-- A digest that is its own answer is followed for ever. -/
theorem not_resolves_self {d : B256} (hd : store d = some (digest d)) {t t' : RawTrie}
    (h : Resolves store t t') : t ≠ digest d := by
  induction h with
  | @found e u u' he _ ih =>
    intro heq
    cases heq
    exact ih (Option.some.inj (he.symm.trans hd))
  | @kept e he =>
    intro heq
    cases heq
    simp [hd] at he
  | _ => exact fun heq => nomatch heq

/-- For a list node, keeping the reference or the hash means keeping the encoding. -/
theorem keeps_iff_rlp {b : Bool} {t u : RawTrie} (hl : isList t) (hl' : isList u)
    (hinj : E.keccak256 (rlp E u) = E.keccak256 (rlp E t) → rlp E u = rlp E t) :
    Keeps E b t u ↔ rlp E u = rlp E t := by
  cases b with
  | false =>
    simp only [Keeps, hash_of_isList hl, hash_of_isList hl']
    exact ⟨hinj, fun h => by rw [h]⟩
  | true =>
    simp only [Keeps, ref_of_isList hl, ref_of_isList hl']
    constructor
    · intro h
      by_cases h1 : (rlp E u).length < 32 <;> by_cases h2 : (rlp E t).length < 32 <;>
        simp only [h1, h2, if_true, if_false, NodeRef.bytes.injEq, NodeRef.digest.injEq,
          reduceCtorEq] at h
      · exact h
      · exact hinj (B256.ext h)
    · intro h
      rw [h]

/-- The paths of extensions are slices, which have fewer than 2^63 bytes. -/
def PathsFit : RawTrie → Prop
  | ext path c => path.length < 2 ^ 63 ∧ PathsFit c
  | branch c => ∀ i, PathsFit (c i)
  | _ => True

theorem PathsFit.visits (hstore : ∀ d t, store d = some t → PathsFit t) {x y : Bool × RawTrie}
    (h : Visits store x y) (hx : PathsFit x.2) : PathsFit y.2 := by
  induction h with
  | refl => exact hx
  | tail _ hstep ih =>
    cases hstep with
    | ext b path c => exact ih.2
    | branch b c i => exact ih i
    | digest b hd => exact hstore _ _ hd

/-- A list node and its resolution have one encoding if they have one hash. -/
def Distinguishes (E : Env) (store : B256 → Option RawTrie) (x : Bool × RawTrie) : Prop :=
  ∀ b t t', Visits store x (b, t) → isList t → Resolves store t t' →
    PathsFit t ∧ (E.keccak256 (rlp E t') = E.keccak256 (rlp E t) → rlp E t' = rlp E t)

theorem Distinguishes.follows {x y : Bool × RawTrie} (h : Distinguishes E store x)
    (hxy : Follows store x y) : Distinguishes E store y :=
  fun b t t' hv => h b t t' (hv.head hxy)

/-- The answer of a digest keeps what the digest stands for. -/
theorem keeps_found {b : Bool} {d : B256} {t t' : RawTrie} (ht : hash E t = d)
    (hnd : ¬ isDigest t) (h : Resolves store t t')
    (hinj : isList t → E.keccak256 (rlp E t') = E.keccak256 (rlp E t) → rlp E t' = rlp E t) :
    Keeps E b (digest d) t' ↔ (b = true → 32 ≤ (rlp E t).length) ∧ Keeps E b t t' := by
  cases b with
  | false =>
    have hdig : hash E (digest d) = d := rfl
    simp [Keeps, ht, hdig]
  | true =>
    rcases node_cases t with rfl | ⟨e, rfl⟩ | hl
    · cases h
      simp [Keeps, ref, refOf, rlp, wrap]
    · exact absurd trivial hnd
    · have hl' := isList_resolves h hl
      have hd : E.keccak256 (rlp E t) = d := by rw [← hash_of_isList hl, ht]
      have href : 32 ≤ (rlp E t).length → ref E t = .digest d.bytes := by
        intro hlen
        rw [ref_of_isList hl, if_neg (by omega), hd]
      have hdig : ref E (digest d) = .digest d.bytes := rfl
      simp only [Keeps, hdig, forall_const]
      constructor
      · intro hk
        -- the hash of the answer is the digest, so a short answer would be kept, and be short
        have hrlp : rlp E t' = rlp E t := by
          rw [ref_of_isList hl'] at hk
          split at hk
          · simp at hk
          · exact hinj hl (by rw [B256.ext (NodeRef.digest.inj hk), hd])
        have hlen : 32 ≤ (rlp E t).length := by
          rw [ref_of_isList hl', hrlp] at hk
          split at hk
          · simp at hk
          · omega
        exact ⟨hlen, by rw [hk, href hlen]⟩
      · rintro ⟨hlen, hk⟩
        rw [hk, href hlen]

/-- Resolution that ends keeps a node if and only if the digests on the way have proper
answers. -/
theorem keeps_iff_settled (hstore : ∀ d t, store d = some t → hash E t = d) {t t' : RawTrie}
    (h : Resolves store t t') : ∀ b, Distinguishes E store (b, t) →
      (Keeps E b t t' ↔ Settled E store (b, t)) := by
  induction h with
  | null =>
    intro b _
    exact iff_of_true (by cases b <;> rfl) (settled_null b)
  | leaf path value =>
    intro b _
    exact iff_of_true (by cases b <;> rfl) (settled_leaf b path value)
  | kept hd =>
    intro b _
    exact iff_of_true (by cases b <;> rfl) (settled_digest_none hd)
  | @ext path c c' hc ih =>
    intro b hdist
    obtain ⟨⟨hpath, -⟩, hinj⟩ := hdist b _ _ .refl trivial (.ext path hc)
    rw [keeps_iff_rlp (t := ext path c) (u := ext path c') trivial trivial hinj,
      rlp_ext_inj hpath, settled_ext]
    exact ih true (hdist.follows (.ext b path c))
  | @branch c c' hc ih =>
    intro b hdist
    obtain ⟨-, hinj⟩ := hdist b _ _ .refl trivial (.branch hc)
    rw [keeps_iff_rlp (t := branch c) (u := branch c') trivial trivial hinj, rlp_branch_inj,
      settled_branch]
    exact forall_congr' fun i => ih i true (hdist.follows (.branch b c i))
  | @found d t t' hd ht ih =>
    intro b hdist
    have hdist' := hdist.follows (.digest b hd)
    have hnd : ¬ isDigest t := by
      intro hdig
      obtain ⟨e, rfl⟩ : ∃ e, t = digest e := by
        cases t <;> first | exact ⟨_, rfl⟩ | exact hdig.elim
      obtain rfl : e = d := hstore d _ hd
      exact not_resolves_self hd ht rfl
    rw [keeps_found (hstore d t hd) hnd ht fun hl => (hdist' b t t' .refl hl ht).2,
      settled_digest hd, ih b hdist']
    simp [hnd]

/-! ## Termination -/

/-- The encoding of the tree contains a digest. -/
def Contains (d : B256) : RawTrie → Prop
  | digest e => e = d
  | ext _ c => Contains d c
  | branch c => ∃ i, Contains d (c i)
  | _ => False

/-- A tree contains the keccak of the encoding of a node. -/
def Cites (E : Env) (nodes : List RawTrie) (x y : RawTrie) : Prop :=
  y ∈ nodes ∧ Contains (E.keccak256 (rlp E y)) x

/-- No node contains, through any chain of digests, the keccak of its own encoding. -/
def Acyclic (E : Env) (nodes : List RawTrie) : Prop :=
  ∀ x ∈ nodes, ¬ TransGen (Cites E nodes) x x

/-- In finitely many nodes without a cycle, every chain of citations ends. -/
theorem Acyclic.induction {nodes : List RawTrie} (h : Acyclic E nodes) {P : RawTrie → Prop}
    (hstep : ∀ x ∈ nodes, (∀ y, Cites E nodes x y → P y) → P x) : ∀ x ∈ nodes, P x := by
  let r : {x // x ∈ nodes} → {x // x ∈ nodes} → Prop := fun y x => TransGen (Cites E nodes) x y
  have : Finite {x // x ∈ nodes} := List.finite_toSet nodes
  have : IsTrans _ r := ⟨fun _ _ _ hab hbc => hbc.trans hab⟩
  have : Std.Irrefl r := ⟨fun x hx => h x.1 x.2 hx⟩
  have hwf : WellFounded r := Finite.wellFounded_of_trans_of_irrefl r
  intro x hx
  refine hwf.induction (C := fun x => P x.1) ⟨x, hx⟩ fun x ih => ?_
  exact hstep x.1 x.2 fun y hy => ih ⟨y, hy.1⟩ (.single hy)

/-- Where the digests have proper answers among the nodes, resolution ends. -/
theorem exists_resolves {nodes : List RawTrie} (hacyc : Acyclic E nodes)
    (hstore : ∀ d t, store d = some t → hash E t = d ∧ t ∈ nodes) :
    ∀ x ∈ nodes, ∀ b, Settled E store (b, x) → ∃ x', Resolves store x x' := by
  refine hacyc.induction (P := fun x => ∀ b, Settled E store (b, x) → ∃ x', Resolves store x x')
    fun x hx ih => ?_
  -- below `x`, only the digests that `x` contains are followed
  suffices hsub : ∀ t b, (∀ d, Contains d t → Contains d x) → Settled E store (b, t) →
      ∃ t', Resolves store t t' by
    exact fun b => hsub x b fun _ hd => hd
  intro t
  induction t with
  | null => exact fun _ _ _ => ⟨_, .null⟩
  | leaf path value => exact fun _ _ _ => ⟨_, .leaf path value⟩
  | ext path c ihc =>
    intro b hsub hset
    obtain ⟨c', hc'⟩ := ihc true hsub (settled_ext.mp hset)
    exact ⟨_, .ext path hc'⟩
  | branch c ihc =>
    intro b hsub hset
    choose c' hc' using fun i =>
      ihc i true (fun d hd => hsub d ⟨i, hd⟩) (settled_branch.mp hset i)
    exact ⟨_, .branch hc'⟩
  | digest d =>
    intro b hsub hset
    cases hd : store d with
    | none => exact ⟨_, .kept hd⟩
    | some u =>
      obtain ⟨⟨hnd, -⟩, hu⟩ := (settled_digest hd).mp hset
      obtain ⟨hhash, hmem⟩ := hstore d u hd
      rcases node_cases u with rfl | ⟨e, rfl⟩ | hl
      · exact ⟨_, .found hd .null⟩
      · exact absurd trivial hnd
      · have hcites : Cites E nodes x u :=
          ⟨hmem, hsub _ (by rw [← hash_of_isList hl, hhash]; rfl)⟩
        obtain ⟨u', hu'⟩ := ih u hcites b hu
        exact ⟨_, .found hd hu'⟩

end RawTrie
end CenoReth
