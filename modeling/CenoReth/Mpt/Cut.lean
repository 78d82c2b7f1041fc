/-
The boundaries of a frontier.

`collect_frontier_boundaries` cuts a trie at positions none of which is above
another.  Whatever the limits are, each boundary is the position of a subtree or
of an empty slot, and unless the whole trie is one chunk, the subtrees are
hash-addressed.  The positions are a function of the trie, the keys and the
limits (`cut`).
-/
import CenoReth.Mpt.Restore
import CenoReth.Mpt.Slot
import CenoReth.Mpt.Weights

namespace CenoReth
namespace Mpt

open Patricia Patricia.Radix Trie

variable {E : Env}

/-! ## Positions of the boundaries -/

def nodeCount : Trie → Nat
  | branch c =>
    1 + ((List.finRange 16).map fun i => if (c i).isNull then 0 else nodeCount (c i)).sum
  | ext _ c => 1 + nodeCount c
  | _ => 1

/-- The subtree exceeds a limit for the keys that reach it.  Weights that do not fit wrap around. -/
def OverLimit (E : Env) (limits : FrontierLimits) (t : Trie) (keys : List WeightedKey) : Prop :=
  limits.maxNodes < nodeCount t ∨ limits.maxBytes < (encoding E t).length ∨
    limits.maxKeys < weight keys % 2 ^ 64

instance (limits : FrontierLimits) (t : Trie) (keys : List WeightedKey) :
    Decidable (OverLimit E limits t keys) := by
  unfold OverLimit
  infer_instance

/-- An empty slot, or a subtree that a digest can stand for. -/
def isSealable (E : Env) (t : Trie) (p : List Nibble) : Bool :=
  match t.subtree p with
  | some s =>
    s.isNull || match ref E s with
      | .digest _ => true
      | .bytes _ => false
  | none => true

/-- The positions below a node, or the node itself if there are none or if one of them is
inlined. -/
def cutOr (E : Env) (t : Trie) (out : List (List Nibble)) : List (List Nibble) :=
  if (∀ p ∈ out, isSealable E t p = true) ∧ out ≠ [] then out else [[]]

/-- The positions at which a trie is cut.  The keys are those that reach it, and `depth` is the
length of the path to it. -/
def cut (E : Env) (limits : FrontierLimits) : Trie → Nat → List WeightedKey → List (List Nibble)
  | branch c, depth, keys =>
    if OverLimit E limits (branch c) keys then
      cutOr E (branch c) ((List.finRange 16).flatMap fun i =>
        if childKeys keys depth i = [] then []
        else (cut E limits (c i) (depth + 1) (childKeys keys depth i)).map (i :: ·))
    else [[]]
  | ext p c, depth, keys =>
    if OverLimit E limits (ext p c) keys then
      cutOr E (ext p c) ((cut E limits c (depth + p.length) keys).map (p ++ ·))
    else [[]]
  | _, _, _ => [[]]

theorem Alike.overLimit_iff {keys keys' : List WeightedKey} (h : Alike keys keys')
    (limits : FrontierLimits) (t : Trie) :
    OverLimit E limits t keys ↔ OverLimit E limits t keys' := by
  unfold OverLimit
  rw [h.weight_eq]

/-- Merging equal keys does not move the positions. -/
theorem Alike.cut_eq {limits : FrontierLimits} {t : Trie} {depth : Nat}
    {keys keys' : List WeightedKey} (h : Alike keys keys') :
    cut E limits t depth keys = cut E limits t depth keys' := by
  induction t generalizing depth keys keys' with
  | branch c ih =>
    simp only [cut, h.overLimit_iff, (h.childKeys _ _).eq_nil_iff, ih _ (h.childKeys depth _)]
  | ext p c ih => simp only [cut, h.overLimit_iff, ih h]
  | _ => rfl

/-! ## Marks -/

/-- A position, and the node there. -/
abbrev Mark := List Nibble × Option NodeId

/-- Boundaries, with the position of their root in front. -/
def boundaries (pre : List Nibble) (qs : List Mark) : List Boundary :=
  qs.map fun q => ((pre ++ q.1).map Nibble.toByte, q.2)

/-- A boundary is a subtree, at its node, or an empty slot. -/
def Marks (E : Env) (m : Mpt) (t : Trie) (q : Mark) : Prop :=
  ∃ s, t.subtree q.1 = some s ∧ match q.2 with
    | none => s = null
    | some j => Reads E m s j

/-- Neither position is above the other. -/
def Apart (q r : Mark) : Prop := ¬ q.1 <+: r.1 ∧ ¬ r.1 <+: q.1

instance : Std.Symm Apart := ⟨fun _ _ h => ⟨h.2, h.1⟩⟩

/-- A subtree that can be replaced by its digest, or an empty slot. -/
def Detachable (E : Env) (t : Trie) (q : Mark) : Prop :=
  ∀ s, t.subtree q.1 = some s → q.2 ≠ none → HashAddressed E s

/-- Only the root of an empty trie is a null node with an index. -/
def Firm (t : Trie) (qs : List Mark) : Prop :=
  t ≠ null → ∀ q ∈ qs, q.2 ≠ none → t.subtree q.1 ≠ some null

structure Cuts (E : Env) (m : Mpt) (t : Trie) (id : NodeId) (qs : List Mark) : Prop where
  marks : ∀ q ∈ qs, Marks E m t q
  apart : qs.Pairwise Apart
  detachable : qs = [([], some id)] ∨ ∀ q ∈ qs, Detachable E t q
  firm : Firm t qs

theorem cuts_own {m : Mpt} {t : Trie} {id : NodeId} (h : Reads E m t id) :
    Cuts E m t id [([], some id)] where
  marks q hq := by
    obtain rfl := List.mem_singleton.mp hq
    exact ⟨t, subtree_nil t, h⟩
  apart := List.pairwise_singleton _ _
  detachable := .inl rfl
  firm hn q hq _ hs := by
    obtain rfl := List.mem_singleton.mp hq
    rw [subtree_nil] at hs
    exact hn (Option.some.inj hs)

/-- Marks that were collected below a node: they are apart, and none with an index is empty. -/
structure Collected (E : Env) (m : Mpt) (t : Trie) (qs : List Mark) : Prop where
  marks : ∀ q ∈ qs, Marks E m t q
  apart : qs.Pairwise Apart
  firm : ∀ q ∈ qs, q.2 ≠ none → t.subtree q.1 ≠ some null

theorem collected_nil {m : Mpt} {t : Trie} : Collected E m t [] := ⟨by simp, .nil, by simp⟩

/-- The mark of an empty slot. -/
theorem collected_empty {m : Mpt} : Collected E m null [([], none)] where
  marks q hq := by
    obtain rfl := List.mem_singleton.mp hq
    exact ⟨null, rfl, rfl⟩
  apart := List.pairwise_singleton _ _
  firm := by simp

theorem Cuts.collected {m : Mpt} {t : Trie} {id : NodeId} {qs : List Mark} (h : Cuts E m t id qs)
    (hne : t ≠ null) : Collected E m t qs := ⟨h.marks, h.apart, h.firm hne⟩

theorem Collected.below_ext {m : Mpt} {p : List Nibble} {c : Trie} {qs : List Mark}
    (h : Collected E m c qs) (hp : p ≠ []) :
    Collected E m (ext p c) (qs.map fun q => (p ++ q.1, q.2)) := by
  have hsub : ∀ q : List Nibble, (ext p c : Trie).subtree (p ++ q) = c.subtree q :=
    fun q => subtree_ext_append c (by simp [hp])
  refine ⟨fun q hq => ?_, ?_, fun q hq ho => ?_⟩
  · obtain ⟨q', hq', rfl⟩ := List.mem_map.mp hq
    obtain ⟨s, hs, hmark⟩ := h.marks q' hq'
    exact ⟨s, (hsub q'.1).trans hs, hmark⟩
  · refine List.pairwise_map.mpr (h.apart.imp fun hapart => ?_)
    exact ⟨fun hpre => hapart.1 ((List.prefix_append_right_inj p).mp hpre),
      fun hpre => hapart.2 ((List.prefix_append_right_inj p).mp hpre)⟩
  · obtain ⟨q', hq', rfl⟩ := List.mem_map.mp hq
    rw [hsub q'.1]
    exact h.firm q' hq' ho

/-! ## Reading the arena -/

theorem subtreeNumNodes_spec {m₀ : Mpt} : ∀ {fuel : Nat} {t : Trie}, depth t ≤ fuel →
    ∀ id m, Reads E m₀ t id → Fills E m₀ m →
      subtreeNumNodes fuel id m = (.ok (nodeCount t), m) := by
  intro fuel
  induction fuel with
  | zero =>
    intro t ht
    exact absurd (depth_pos t) (by omega)
  | succ fuel ih =>
    intro t ht id m h hf
    have hread := h.fills hf
    cases t with
    | branch c =>
      obtain ⟨r, ids, hc, _, _⟩ := hread
      obtain ⟨r₀, ids₀, hc₀, _, hl⟩ := h
      obtain ⟨r', hc'⟩ := hf.exists_cell hc₀
      obtain ⟨rfl, _⟩ : ids₀ = ids ∧ r' = r := by simpa [hc'] using hc
      obtain ⟨m', hm', rfl⟩ := Exec.collect_ok (R := fun s s' => s = s')
        (fun _ => rfl) (fun _ _ _ h h' => h.trans h')
        (f := fun i => (ids₀ i).elim (pure 0) (subtreeNumNodes fuel))
        (g := fun i => if (c i).isNull then 0 else nodeCount (c i))
        (List.finRange 16) m fun i _ s' hs' => by
            subst hs'
            rcases hl i with ⟨hn, h0⟩ | ⟨j, hj, hne, hij⟩
            · exact ⟨m, by simp [hn, h0], rfl⟩
            · have hn := ih (by have := depth_child_lt hne; omega) j m hij hf
              exact ⟨m, by simp [hj, hn, isNull_eq_false.mpr hne], rfl⟩
      refine (Exec.bind_ok (nodeAt_ok hc)).trans (Exec.bind_ok (.trans ?_ hm'))
      congr 2
      funext i
      cases ids₀ i <;> rfl
    | ext p c =>
      obtain ⟨r₀, j, hc₀, _, hl⟩ := h
      obtain ⟨r', hc'⟩ := hf.exists_cell hc₀
      have hn := ih (Nat.le_of_succ_le_succ ht) j m hl hf
      exact (Exec.bind_ok (nodeAt_ok hc')).trans (Exec.bind_ok hn)
    | _ =>
      obtain ⟨r, hc, _⟩ := hread
      exact Exec.bind_ok (nodeAt_ok hc)

theorem encodedSubtrie_spec {m₀ m : Mpt} {t : Trie} {id : NodeId} (h : Reads E m₀ t id)
    (hd : depth t ≤ m₀.size) (hf : Fills E m₀ m) :
    ∃ m', encodedSubtrie E id m = (.ok (encoding E t), m') ∧ Fills E m m' :=
  encodeTrieInternal_spec (hf.size ▸ hd) id m (h.fills hf)

theorem isHashAddressed_spec {m₀ m : Mpt} {t : Trie} {id : NodeId} (h : Reads E m₀ t id)
    (hd : depth t ≤ m₀.size) (hf : Fills E m₀ m) :
    ∃ b m', isHashAddressed E id m = (.ok b, m') ∧ (b = true ↔ HashAddressed E t) ∧
      Fills E m m' := by
  obtain ⟨m', hm', hf'⟩ := calcReference_spec (hf.size ▸ hd) id m (h.fills hf)
  unfold isHashAddressed
  cases hr : ref E t with
  | bytes b =>
    rw [hr] at hm'
    exact ⟨false, m', Exec.bind_ok hm', by simp [HashAddressed, hr], hf'⟩
  | digest d =>
    rw [hr] at hm'
    exact ⟨true, m', Exec.bind_ok hm', by simp [HashAddressed, hr], hf'⟩

theorem depth_subtree_le {t s : Trie} {p : List Nibble} (hs : t.subtree p = some s)
    (hn : s ≠ null) : depth s ≤ depth t := by
  induction t generalizing p with
  | branch c ih =>
    cases p with
    | nil =>
      obtain rfl := Option.some.inj hs
      exact le_rfl
    | cons i p =>
      have hi : c i ≠ null := by
        intro hnull
        rw [subtree_branch, hnull] at hs
        cases p with
        | nil => exact hn (Option.some.inj hs).symm
        | cons j p => simp [subtree] at hs
      exact (ih i hs).trans (depth_child_lt hi).le
  | ext q c ih =>
    by_cases hp : p = []
    · subst hp
      obtain rfl := Option.some.inj hs
      exact le_rfl
    · obtain ⟨r, rfl, hr⟩ := subtree_ext hp hs
      exact (ih hr).trans (Nat.le_succ _)
  | _ =>
    cases p with
    | nil =>
      obtain rfl := Option.some.inj hs
      exact le_rfl
    | cons i p => simp [subtree] at hs

theorem depth_le_of_subtree {t s : Trie} {p : List Nibble} {n : Nat} (hs : t.subtree p = some s)
    (hd : depth t ≤ n) : depth s ≤ n := by
  by_cases hn : s = null
  · subst hn
    exact (depth_pos t).trans_le hd
  · exact (depth_subtree_le hs hn).trans hd

theorem isSealable_null {t : Trie} {p : List Nibble} (hs : t.subtree p = some null) :
    isSealable E t p = true := by
  simp [isSealable, hs]

theorem isSealable_iff {t s : Trie} {p : List Nibble} (hs : t.subtree p = some s) (hn : s ≠ null) :
    isSealable E t p = true ↔ HashAddressed E s := by
  unfold isSealable HashAddressed
  rw [hs]
  simp only [isNull_eq_false.mpr hn, Bool.false_or]
  cases ref E s <;> simp

/-- The check that all boundaries can be detached. -/
theorem allHashAddressed_spec {m₀ : Mpt} {t : Trie} (hd : depth t ≤ m₀.size) (pre : List Nibble) :
    ∀ (qs : List Mark) (m : Mpt), (∀ q ∈ qs, Marks E m₀ t q) →
      (∀ q ∈ qs, q.2 ≠ none → t.subtree q.1 ≠ some null) → Fills E m₀ m →
      ∃ b m', allHashAddressed E (boundaries pre qs) m = (.ok b, m') ∧
        (b = true ↔ ∀ q ∈ qs, isSealable E t q.1 = true) ∧ Fills E m m'
  | [], m, _, _, _ => ⟨true, m, rfl, by simp, Fills.refl m⟩
  | (q, none) :: qs, m, hm, hne, hf => by
    obtain ⟨b, m', hm', hb, hf'⟩ := allHashAddressed_spec hd pre qs m
      (fun r hr => hm r (by simp [hr])) (fun r hr => hne r (by simp [hr])) hf
    obtain ⟨s, hs, hnull⟩ := hm (q, none) (by simp)
    obtain rfl : s = null := hnull
    refine ⟨b, m', hm', hb.trans ?_, hf'⟩
    simp [isSealable_null hs]
  | (q, some j) :: qs, m, hm, hne, hf => by
    obtain ⟨s, hs, hread⟩ := hm (q, some j) (by simp)
    have hns : s ≠ null := by
      rintro rfl
      exact hne (q, some j) (by simp) (by simp) hs
    obtain ⟨b₁, m₁, hm₁, hb₁, hf₁⟩ := isHashAddressed_spec hread
      (depth_le_of_subtree hs hd) hf
    rw [← isSealable_iff hs hns] at hb₁
    cases b₁ with
    | false => exact ⟨false, m₁, Exec.bind_ok hm₁, by simp [← hb₁], hf₁⟩
    | true =>
      obtain ⟨b, m', hm', hb, hf'⟩ := allHashAddressed_spec hd pre qs m₁
        (fun r hr => hm r (by simp [hr])) (fun r hr => hne r (by simp [hr])) (hf.trans hf₁)
      refine ⟨b, m', (Exec.bind_ok hm₁).trans hm', hb.trans ?_, hf₁.trans hf'⟩
      simp [← hb₁]

theorem boundaries_eq_nil {pre : List Nibble} {qs : List Mark} :
    boundaries pre qs = [] ↔ qs = [] := by
  simp [boundaries]

/-- The boundaries below a node, or the node itself. -/
theorem boundariesOr_spec {m₀ m : Mpt} {t : Trie} {id : NodeId} (h : Reads E m₀ t id)
    (hd : depth t ≤ m₀.size) (pre : List Nibble) {qs : List Mark} (hc : Collected E m₀ t qs)
    (hf : Fills E m₀ m) :
    ∃ qs' m', boundariesOr E (pre.map Nibble.toByte, some id) (boundaries pre qs) m =
        (.ok (boundaries pre qs'), m') ∧ Fills E m m' ∧ Cuts E m₀ t id qs' ∧
      qs'.map Prod.fst = cutOr E t (qs.map Prod.fst) := by
  obtain ⟨b, m', hm', hb, hf'⟩ := allHashAddressed_spec hd pre qs m hc.marks hc.firm hf
  have hown : [(pre.map Nibble.toByte, some id)] = boundaries pre [([], some id)] := by
    simp [boundaries]
  have hiff : (b = true ∧ qs ≠ []) ↔
      (∀ p ∈ qs.map Prod.fst, isSealable E t p = true) ∧ qs.map Prod.fst ≠ [] := by
    rw [hb]
    simp
  by_cases hall : b = true ∧ qs ≠ []
  · have hdet : ∀ q ∈ qs, Detachable E t q := by
      intro q hq s hs ho
      refine (isSealable_iff hs ?_).mp (hb.mp hall.1 q hq)
      rintro rfl
      exact hc.firm q hq ho hs
    refine ⟨qs, m', (Exec.bind_ok hm').trans ?_, hf',
      ⟨hc.marks, hc.apart, .inr hdet, fun _ => hc.firm⟩, ?_⟩
    · rw [if_pos (by rwa [Ne, boundaries_eq_nil])]
      rfl
    · rw [cutOr, if_pos (hiff.mp hall)]
  · refine ⟨_, m', (Exec.bind_ok hm').trans ?_, hf', cuts_own h, ?_⟩
    · rw [if_neg (by rwa [Ne, boundaries_eq_nil]), hown]
      rfl
    · rw [cutOr, if_neg (mt hiff.mpr hall)]
      rfl

/-! ## Collecting boundaries -/

/-- The boundaries below the children of a branch. -/
theorem boundaries_flatten {m₀ : Mpt} {c : Nibble → Trie} {pre : List Nibble}
    {f : Nibble → List (List Nibble)} :
    ∀ {l : List Nibble} {outs : List (List Boundary)}, l.Nodup →
      List.Forall₂ (fun i out => ∃ qs, out = boundaries (pre ++ [i]) qs ∧
        Collected E m₀ (c i) qs ∧ qs.map Prod.fst = f i) l outs →
      ∃ qs, outs.flatten = boundaries pre qs ∧ Collected E m₀ (branch c) qs ∧
        (∀ q ∈ qs, ∃ i ∈ l, ∃ r, q.1 = i :: r) ∧
        qs.map Prod.fst = l.flatMap fun i => (f i).map (i :: ·)
  | [], _, _, .nil => ⟨[], rfl, collected_nil, by simp, rfl⟩
  | i :: l, out :: outs, hnd, .cons ⟨qs₁, hout, hc₁, hf₁⟩ hrest => by
    obtain ⟨hi, hnd'⟩ := List.nodup_cons.mp hnd
    obtain ⟨qs₂, hflat, hc₂, hhead, hf₂⟩ := boundaries_flatten hnd' hrest
    refine ⟨qs₁.map (fun q => (i :: q.1, q.2)) ++ qs₂, ?_, ⟨?_, ?_, ?_⟩, ?_, ?_⟩
    · simp [List.flatten_cons, hout, hflat, boundaries]
    · intro q hq
      rcases List.mem_append.mp hq with hq | hq
      · obtain ⟨q', hq', rfl⟩ := List.mem_map.mp hq
        exact hc₁.marks q' hq'
      · exact hc₂.marks q hq
    · refine List.pairwise_append.mpr ⟨?_, hc₂.apart, ?_⟩
      · refine List.pairwise_map.mpr (hc₁.apart.imp fun h => ?_)
        exact ⟨fun hpre => h.1 (List.cons_prefix_cons.mp hpre).2,
          fun hpre => h.2 (List.cons_prefix_cons.mp hpre).2⟩
      · intro a ha b hb
        obtain ⟨q', _, rfl⟩ := List.mem_map.mp ha
        obtain ⟨j, hj, r, hr⟩ := hhead b hb
        have hij : i ≠ j := by
          rintro rfl
          exact hi hj
        unfold Apart
        rw [hr]
        exact ⟨fun hpre => hij (List.cons_prefix_cons.mp hpre).1,
          fun hpre => hij (List.cons_prefix_cons.mp hpre).1.symm⟩
    · intro q hq
      rcases List.mem_append.mp hq with hq | hq
      · obtain ⟨q', hq', rfl⟩ := List.mem_map.mp hq
        exact hc₁.firm q' hq'
      · exact hc₂.firm q hq
    · intro q hq
      rcases List.mem_append.mp hq with hq | hq
      · obtain ⟨q', _, rfl⟩ := List.mem_map.mp hq
        exact ⟨i, by simp, q'.1, rfl⟩
      · obtain ⟨j, hj, r, hr⟩ := hhead q hq
        exact ⟨j, by simp [hj], r, hr⟩
    · rw [List.map_append, hf₂, List.flatMap_cons, ← hf₁]
      simp

/-- The decision whether to go below a node. -/
theorem avoids_overLimit (limits : FrontierLimits) (t : Trie) (keys : List WeightedKey) (m : Mpt) :
    Exec.Avoids (Unexpected E keys)
      (Exec.ofExcept (overLimit E limits (nodeCount t) (encoding E t).length keys)) m
      fun b m' => b = decide (OverLimit E limits t keys) ∧ m' = m := by
  unfold overLimit
  split
  · rename_i hlarge
    refine Exec.avoids_pure ⟨(decide_eq_true ?_).symm, rfl⟩
    exact hlarge.imp_right .inl
  · rename_i hsmall
    rw [not_or] at hsmall
    rcases sumWeights_cases E keys with ⟨sum, hok, hsum⟩ | ⟨herr, ho⟩
    · rw [hok]
      refine Exec.avoids_pure ⟨?_, rfl⟩
      simp only [OverLimit, hsmall.1, hsmall.2, false_or, hsum]
    · rw [herr]
      exact Exec.avoids_fail fun hu => hu ⟨rfl, ho⟩

/-- The boundaries that were returned are those of `cut`. -/
def IsCut (E : Env) (limits : FrontierLimits) (m₀ : Mpt) (t : Trie) (id : NodeId)
    (pre : List Nibble) (keys : List WeightedKey) (m : Mpt) (out : List Boundary) (m' : Mpt) :
    Prop :=
  ∃ qs, out = boundaries pre qs ∧ Fills E m m' ∧ Cuts E m₀ t id qs ∧
    qs.map Prod.fst = cut E limits t pre.length keys

section Arms

variable {limits : FrontierLimits} {m₀ m m₁ : Mpt} {t : Trie} {id : NodeId} {pre : List Nibble}
  {keys : List WeightedKey}

theorem IsCut.fills {out : List Boundary} {m' : Mpt} (h : IsCut E limits m₀ t id pre keys m₁ out m')
    (hf : Fills E m m₁) : IsCut E limits m₀ t id pre keys m out m' := by
  obtain ⟨qs, hout, hf', hcut, hpos⟩ := h
  exact ⟨qs, hout, hf.trans hf', hcut, hpos⟩

theorem IsCut.grows {out : List Boundary} (h : IsCut E limits m₀ t id pre keys m out m₁) :
    Fills E m m₁ := by
  obtain ⟨_, _, hf, _⟩ := h
  exact hf

/-- A node that is not divided. -/
theorem isCut_own (h : Reads E m₀ t id) (hcut : cut E limits t pre.length keys = [[]]) :
    IsCut E limits m₀ t id pre keys m [(pre.map Nibble.toByte, some id)] m :=
  ⟨[([], some id)], by simp [boundaries], Fills.refl m, cuts_own h, hcut.symm⟩

/-- A branch whose children were gone into. -/
theorem boundariesOr_branch {c : Nibble → Trie} (h : Reads E m₀ (branch c) id)
    (hd : depth (branch c) ≤ m₀.size) (hover : OverLimit E limits (branch c) keys)
    (hf : Fills E m₀ m) {outs : List (List Boundary)}
    (houts : List.Forall₂ (fun i out => ∃ qs, out = boundaries (pre ++ [i]) qs ∧
      Collected E m₀ (c i) qs ∧ qs.map Prod.fst = if childKeys keys pre.length i = [] then []
        else cut E limits (c i) (pre.length + 1) (childKeys keys pre.length i))
      (List.finRange 16) outs) :
    ∃ out m', boundariesOr E (pre.map Nibble.toByte, some id) outs.flatten m = (.ok out, m') ∧
      IsCut E limits m₀ (branch c) id pre keys m out m' := by
  obtain ⟨qs, hflat, hc, _, hpos⟩ := boundaries_flatten (List.nodup_finRange 16) houts
  obtain ⟨qs', m', hm', hf', hcut, hpos'⟩ := boundariesOr_spec h hd pre hc hf
  refine ⟨_, m', hflat ▸ hm', qs', rfl, hf', hcut, ?_⟩
  rw [hpos', hpos, cut, if_pos hover]
  congr 2
  funext i
  split <;> rfl

/-- An extension whose child was gone into. -/
theorem boundariesOr_ext {p : List Nibble} {c : Trie} {j : NodeId}
    (h : Reads E m₀ (ext p c) id) (hd : depth (ext p c) ≤ m₀.size) (hn : (ext p c : Trie).Normal)
    (hover : OverLimit E limits (ext p c) keys) (hf : Fills E m₀ m₁) {out : List Boundary}
    (hchild : IsCut E limits m₀ c j (pre ++ p) keys m out m₁) :
    ∃ out' m', boundariesOr E (pre.map Nibble.toByte, some id) out m₁ = (.ok out', m') ∧
      IsCut E limits m₀ (ext p c) id pre keys m out' m' := by
  obtain ⟨hp, hbranch, -⟩ := hn
  have hne : c ≠ null := by
    rintro rfl
    exact hbranch
  obtain ⟨qs, rfl, hf₁, hcut, hpos⟩ := hchild
  have hflat : boundaries (pre ++ p) qs = boundaries pre (qs.map fun q => (p ++ q.1, q.2)) := by
    simp [boundaries]
  obtain ⟨qs', m', hm', hf', hcut', hpos'⟩ :=
    boundariesOr_spec h hd pre ((hcut.collected hne).below_ext hp) hf
  refine ⟨_, m', hflat ▸ hm', qs', rfl, hf₁.trans hf', hcut', ?_⟩
  have hmap : (qs.map fun q => (p ++ q.1, q.2)).map Prod.fst = (qs.map Prod.fst).map (p ++ ·) := by
    simp
  rw [hpos', hmap, hpos, cut, if_pos hover, List.length_append]

end Arms

theorem collectFrontierBoundaries_spec (limits : FrontierLimits) {m₀ : Mpt} :
    ∀ {fuel : Nat} {t : Trie}, depth t ≤ fuel → depth t ≤ m₀.size → t.Normal →
    ∀ id (pre : List Nibble) keys m, Reads E m₀ t id → Fills E m₀ m →
      Exec.Avoids (Unexpected E keys)
        (collectFrontierBoundaries E limits fuel id (pre.map Nibble.toByte) keys) m
        (IsCut E limits m₀ t id pre keys m) := by
  intro fuel
  induction fuel with
  | zero =>
    intro t ht
    exact absurd (depth_pos t) (by omega)
  | succ fuel ih =>
    intro t ht hd hn id pre keys m h hf
    obtain ⟨m₁, hm₁, hf₁⟩ := encodedSubtrie_spec h hd hf
    have hf01 := hf.trans hf₁
    have hcount := subtreeNumNodes_spec (hf01.size ▸ hd) id m₁ h hf01
    have hstack : (withStack fun fuel => subtreeNumNodes fuel id) m₁ = (.ok (nodeCount t), m₁) :=
      (Exec.bind_ok (Exec.read_apply _ m₁)).trans hcount
    rw [collectFrontierBoundaries]
    refine Exec.avoids_bind_of_ok hm₁ (Exec.avoids_bind_of_ok hstack ?_)
    refine (avoids_overLimit limits t keys m₁).bind ?_
    rintro _ _ ⟨rfl, rfl⟩
    split
    · rename_i hover
      replace hover : OverLimit E limits t keys := of_decide_eq_true hover
      cases t with
      | branch c =>
        obtain ⟨r, ids, hc, hcached, hl⟩ := h
        obtain ⟨r', hc'⟩ := hf01.exists_cell hc
        refine Exec.avoids_bind_of_ok (nodeAt_ok hc') ?_
        refine (Exec.avoids_collect (R := Fills E)
          (Q := fun i out => ∃ qs, out = boundaries (pre ++ [i]) qs ∧ Collected E m₀ (c i) qs ∧
            qs.map Prod.fst = if childKeys keys pre.length i = [] then []
              else cut E limits (c i) (pre.length + 1) (childKeys keys pre.length i))
          (Fills.refl) (fun _ _ _ h h' => h.trans h') (List.finRange 16) _
          fun i _ s' hs' => ?_).bind ?_
        · have hpre : pre.map Nibble.toByte ++ [Nibble.toByte i] =
            (pre ++ [i]).map Nibble.toByte := by simp
          simp only [List.length_map]
          by_cases hk : childKeys keys pre.length i = []
          · simp only [if_pos hk]
            exact Exec.avoids_pure ⟨Fills.refl s', [], rfl, collected_nil, rfl⟩
          · simp only [if_neg hk]
            rcases hl i with ⟨hnone, h0⟩ | ⟨j, hj, hne, hij⟩
            · simp only [hnone, h0]
              exact Exec.avoids_pure ⟨Fills.refl s', [([], none)], by simp [boundaries],
                collected_empty, rfl⟩
            · simp only [hj, hpre]
              have hchild := ih (by have := depth_child_lt hne; omega)
                ((depth_child_lt hne).le.trans hd) (hn.2 i) j (pre ++ [i])
                (childKeys keys pre.length i) s' hij (hf01.trans hs')
              refine (hchild.mono fun e he => he.mono
                (weight_le_of_sublist List.filter_sublist)).imp ?_
              rintro out m' ⟨qs, hout, hf', hcut, hpos⟩
              refine ⟨hf', qs, hout, hcut.collected hne, ?_⟩
              rw [hpos, List.length_append]
              rfl
        · rintro outs m₂ ⟨hf₂, houts⟩
          obtain ⟨out, m₃, hm₃, hcut⟩ := boundariesOr_branch
            (show Reads E m₀ (branch c) id from ⟨r, ids, hc, hcached, hl⟩) hd hover
            (hf01.trans hf₂) houts
          exact Exec.avoids_of_ok hm₃ (hcut.fills (hf₁.trans hf₂))
      | ext p c =>
        obtain ⟨r, j, hc, hcached, hl⟩ := h
        obtain ⟨r', hc'⟩ := hf01.exists_cell hc
        refine Exec.avoids_bind_of_ok (nodeAt_ok hc') ?_
        have hpre : pre.map Nibble.toByte ++ Hp.prefixToNibs (Hp.encode p false) =
            (pre ++ p).map Nibble.toByte := by simp
        simp only [hpre]
        refine (ih (Nat.le_of_succ_le_succ ht) ((Nat.le_succ _).trans hd) hn.2.2 j (pre ++ p) keys
          _ hl hf01).bind ?_
        intro out m₂ hchild
        obtain ⟨out', m₃, hm₃, hcut⟩ := boundariesOr_ext
          (show Reads E m₀ (ext p c) id from ⟨r, j, hc, hcached, hl⟩) hd hn hover
          (hf01.trans hchild.grows) hchild
        exact Exec.avoids_of_ok hm₃ (hcut.fills hf₁)
      | _ =>
        have hown := h
        obtain ⟨r, hc, _⟩ := h
        obtain ⟨r', hc'⟩ := hf01.exists_cell hc
        exact Exec.avoids_bind_of_ok (nodeAt_ok hc')
          (Exec.avoids_pure ((isCut_own hown rfl).fills hf₁))
    · rename_i hover
      replace hover : ¬ OverLimit E limits t keys := of_decide_eq_false (by simpa using hover)
      refine Exec.avoids_pure ((isCut_own h ?_).fills hf₁)
      cases t with
      | branch c => rw [cut, if_neg hover]
      | ext p c => rw [cut, if_neg hover]
      | _ => rfl

end Mpt
end CenoReth
