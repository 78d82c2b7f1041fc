/-
Digests in the place of subtrees.

A hash-addressed subtree can be replaced by its digest without any effect on the
root: the frontier of a trie is a partial view of it.  So it can be encoded and
decoded, and it has the root of the trie.
-/
import CenoReth.Mpt.Build
import CenoReth.Mpt.PartialDelete

namespace CenoReth
namespace Mpt

open Patricia Patricia.Radix Trie Rlp

variable {E : Env}

/-! ## The frontier as a partial view -/

theorem View.patch {t : Trie} {A : Assignment 16 Bytes B256}
    (h : ∀ p u s, A p = some u → t.subtree p = some s → View E u s) : View E (t.patch A) t := by
  induction t generalizing A with
  | branch c ih =>
    cases hA : A [] with
    | some u => exact patch_of_some hA ▸ h [] u _ hA rfl
    | none =>
      rw [patch_branch hA]
      exact .ofBranch fun i => ih i fun p u s hp hs => h (i :: p) u s hp hs
  | ext q c ih =>
    cases hA : A [] with
    | some u => exact patch_of_some hA ▸ h [] u _ hA rfl
    | none =>
      rw [patch_ext hA]
      refine .ofExt q (ih fun p u s hp hs => ?_)
      by_cases hq : q ++ p = []
      · rw [hq, hA] at hp
        simp at hp
      · exact h (q ++ p) u s hp (by rw [subtree_ext_append c hq]; exact hs)
  | _ =>
    cases hA : A [] with
    | some u => exact patch_of_some hA ▸ h [] u _ hA rfl
    | none =>
      simp only [Radix.patch, hA, Option.getD_none]
      exact .refl _

theorem View.encodable {P T : Trie} (h : View E P T) (hT : Encodable E T) : Encodable E P := by
  induction h with
  | ofExt p hc ih =>
    refine ⟨?_, ih hT.2⟩
    rw [payload_ext, hc.ref_eq, ← payload_ext]
    exact hT.1
  | ofBranch hc ih => exact fun i => ⟨fun hh => (hT i).1 ((hc i).hole_iff.mp hh), ih i (hT i).2⟩
  | hidden _ => trivial
  | _ => exact hT

/-- References do not see what is below a digest. -/
theorem ref_patch_congr {t : Trie} {A B : Assignment 16 Bytes B256}
    (h : ∀ p, Option.Rel (fun u v => ref E u = ref E v) (A p) (B p)) :
    ref E (t.patch A) = ref E (t.patch B) := by
  have hsplit : ∀ {A B : Assignment 16 Bytes B256},
      (∀ p, Option.Rel (fun u v => ref E u = ref E v) (A p) (B p)) →
      (∃ u v, A [] = some u ∧ B [] = some v ∧ ref E u = ref E v) ∨ (A [] = none ∧ B [] = none) := by
    intro A B h
    rcases hA : A [] with _ | u <;> rcases hB : B [] with _ | v <;> have hnil := h [] <;>
      rw [hA, hB] at hnil
    · exact .inr ⟨rfl, rfl⟩
    · cases hnil
    · cases hnil
    · cases hnil with
      | some huv => exact .inl ⟨u, v, rfl, rfl, huv⟩
  induction t generalizing A B with
  | branch c ih =>
    rcases hsplit h with ⟨u, v, hA, hB, huv⟩ | ⟨hA, hB⟩
    · rw [patch_of_some hA, patch_of_some hB, huv]
    · rw [patch_branch hA, patch_branch hB]
      exact ref_branch_congr fun i => ih i fun p => h (i :: p)
  | ext q c ih =>
    rcases hsplit h with ⟨u, v, hA, hB, huv⟩ | ⟨hA, hB⟩
    · rw [patch_of_some hA, patch_of_some hB, huv]
    · rw [patch_ext hA, patch_ext hB]
      exact ref_ext_congr q (ih fun p => h (q ++ p))
  | _ =>
    rcases hsplit h with ⟨u, v, hA, hB, huv⟩ | ⟨hA, hB⟩
    · rw [patch_of_some hA, patch_of_some hB, huv]
    · simp [Radix.patch, hA, hB]

/-! ## Lengths -/

theorem length_encodeString_le (b : Bytes) : (encodeString b).length ≤ b.length + 9 := by
  have hbe := length_beBytes_le b.length
  rw [length_encodeString]
  unfold stringLength lengthOfLength
  split
  · omega
  · split <;> omega

/-- Lengths fit into a machine word. -/
def Small (E : Env) : Trie → Prop
  | leaf p v => (payload E (leaf p v)).length < 2 ^ 64
  | ext p c => (payload E (ext p c)).length < 2 ^ 64 ∧ Small E c
  | branch c => ∀ i, Small E (c i)
  | _ => True

theorem Small.encodable {t : Trie} (h : Small E t) (hh : NoHole t) : Encodable E t := by
  induction t with
  | leaf p v => exact h
  | ext p c ih => exact ⟨h.1, ih h.2 hh⟩
  | branch c ih =>
    refine fun i => ⟨fun hi => ?_, ih i (h i) (hh i)⟩
    have := hh i
    rw [hi] at this
    exact this
  | _ => trivial

theorem small_of_sized {n : Nat} {t : Trie} (hs : t.Sized n) (hn : n < 2 ^ 60)
    (hv : AllValues (fun v => v.length < 2 ^ 63) t) : Small E t := by
  have hpath : ∀ (p : List Nibble) (b : Bool), p.length ≤ n →
      (encodeString (Hp.encode p b)).length < 2 ^ 61 := by
    intro p b hp
    have hlen := Hp.length_encode p b
    have hle := length_encodeString_le (Hp.encode p b)
    rw [hlen] at hle
    omega
  induction t generalizing n with
  | leaf p v =>
    have hp : p.length = n := hs
    have hv' : v.length < 2 ^ 63 := hv
    have h₁ := hpath p true hp.le
    have h₂ := length_encodeString_le v
    show (encodeString (Hp.encode p true) ++ encodeString v).length < 2 ^ 64
    rw [List.length_append]
    omega
  | ext p c ih =>
    have h₁ := hpath p false hs.1
    have h₂ := length_encodeRef_le (E := E) c
    refine ⟨?_, ih hs.2 (by omega) hv fun p' b hp' => hpath p' b (by omega)⟩
    rw [payload_ext, List.length_append]
    omega
  | branch c ih =>
    exact fun i => ih i (hs.2 i) (by omega) (hv i) fun p' b hp' => hpath p' b (by omega)
  | _ => trivial

theorem encodable_of_sized {n : Nat} {t : Trie} (hs : t.Sized n) (hn : n < 2 ^ 60)
    (hh : NoHole t) (hv : AllValues (fun v => v.length < 2 ^ 63) t) : Encodable E t :=
  (small_of_sized hs hn hv).encodable hh

theorem allValues_get {Q : Bytes → Prop} {t : Trie} (h : AllValues Q t) {key : List Nibble}
    {v : Bytes} (hg : t.get key = .ok (some v)) : Q v := by
  induction t generalizing key with
  | leaf p w =>
    rw [Radix.get] at hg
    split at hg
    · obtain rfl : w = v := by simpa using hg
      exact h
    · simp at hg
  | ext p c ih =>
    rw [Radix.get] at hg
    split at hg
    · exact ih h hg
    · simp at hg
  | branch c ih =>
    cases key with
    | nil => simp [Radix.get] at hg
    | cons i key => exact ih i (h i) hg
  | _ => simp [Radix.get] at hg

theorem allValues_subtree {Q : Bytes → Prop} {t s : Trie} (h : AllValues Q t) {p : List Nibble}
    (hs : t.subtree p = some s) : AllValues Q s := by
  induction t generalizing p with
  | branch c ih =>
    cases p with
    | nil => exact (Option.some.inj hs) ▸ h
    | cons i p => exact ih i (h i) hs
  | ext q c ih =>
    by_cases hp : p = []
    · subst hp
      exact (Option.some.inj hs) ▸ h
    · obtain ⟨r, _, hr⟩ := subtree_ext hp hs
      exact ih h hr
  | _ =>
    cases p with
    | nil => exact (Option.some.inj hs) ▸ h
    | cons i p => simp [Radix.subtree] at hs

theorem allValues_patch {Q : Bytes → Prop} {t : Trie} {A : Assignment 16 Bytes B256}
    (h : AllValues Q t) (hA : ∀ q u, A q = some u → AllValues Q u) : AllValues Q (t.patch A) := by
  induction t generalizing A with
  | branch c ih =>
    cases hn : A [] with
    | some u => exact patch_of_some hn ▸ hA [] u hn
    | none =>
      rw [patch_branch hn]
      exact fun i => ih i (h i) fun q u hq => hA (i :: q) u hq
  | ext q c ih =>
    cases hn : A [] with
    | some u => exact patch_of_some hn ▸ hA [] u hn
    | none =>
      rw [patch_ext hn]
      exact ih h fun r u hr => hA (q ++ r) u hr
  | _ =>
    cases hn : A [] with
    | some u => exact patch_of_some hn ▸ hA [] u hn
    | none => simpa [patch, hn] using h

/-- The values of a trie are the values of its keys. -/
theorem allValues_of_get {Q : Bytes → Prop} {n : Nat} {t : Trie} (hs : t.Sized n)
    (h : ∀ key v, key.length = n → t.get key = .ok (some v) → Q v) : AllValues Q t := by
  induction t generalizing n with
  | leaf p v => exact h p v hs (by simp [Radix.get])
  | ext p c ih =>
    refine ih hs.2 fun key v hk hg => h (p ++ key) v ?_ ?_
    · rw [List.length_append, hk]
      have := hs.1
      omega
    · rw [Radix.get, stripPrefix_append]
      exact hg
  | branch c ih =>
    refine fun i => ih i (hs.2 i) fun key v hk hg => h (i :: key) v ?_ hg
    rw [List.length_cons, hk]
    have := hs.1
    omega
  | _ => trivial

/-! ## Well-formed tries -/

/-- A trie in normal form whose digests stand for something. -/
structure WellFormed (E : Env) (t : Trie) : Prop where
  normal : t.Normal
  encodable : Encodable E t
  digest : ∀ p d, t.subtree p = some (digest d) → d ≠ E.emptyRootHash

theorem encodable_subtree {t s : Trie} {p : List Nibble} (h : Encodable E t)
    (hs : t.subtree p = some s) : Encodable E s := by
  induction t generalizing p with
  | branch c ih =>
    cases p with
    | nil => exact (Option.some.inj hs) ▸ h
    | cons i p => exact ih i (h i).2 hs
  | ext q c ih =>
    by_cases hp : p = []
    · subst hp
      exact (Option.some.inj hs) ▸ h
    · obtain ⟨r, _, hr⟩ := subtree_ext hp hs
      exact ih h.2 hr
  | _ =>
    cases p with
    | nil => exact (Option.some.inj hs) ▸ h
    | cons i p => simp [Radix.subtree] at hs

/-! ## Digests stand for what they hash -/

theorem View.eq_of_resolved {P T : Trie} (h : View E P T) (hP : P.Resolved) : P = T := by
  induction h with
  | ofNull => rfl
  | ofHole => rfl
  | ofLeaf p v => rfl
  | ofExt p _ ih => rw [ih hP]
  | ofBranch _ ih => exact congrArg branch (funext fun i => ih i (hP i))
  | hidden _ => exact hP.elim

theorem View.solid {P T : Trie} (h : View E P T) (hT : T.Normal) (hn : T ≠ null) : Solid P :=
  solid_of_normal (h.normal hT) (mt h.null_iff.mp hn)

theorem addressed_subtree {t s : Trie} {p : List Nibble} (hs : t.subtree p = some s) :
    addressed E s ⊆ addressed E t := by
  induction t generalizing p with
  | branch c ih =>
    cases p with
    | nil => exact (Option.some.inj hs) ▸ subset_rfl
    | cons i p => exact fun b hb => .inr ⟨i, ih i hs hb⟩
  | ext q c ih =>
    by_cases hp : p = []
    · subst hp
      exact (Option.some.inj hs) ▸ subset_rfl
    · obtain ⟨r, _, hr⟩ := subtree_ext hp hs
      exact fun b hb => .inr (ih hr hb)
  | _ =>
    cases p with
    | nil => exact (Option.some.inj hs) ▸ subset_rfl
    | cons i p => simp [Radix.subtree] at hs

theorem isList_of_normal {t : Trie} (hn : t.Normal) (hr : t.Resolved) (h0 : t ≠ null) :
    isList t := by
  cases t with
  | null => exact h0 rfl
  | hole => exact hn.elim
  | digest d => exact hr.elim
  | _ => trivial

/-- Only the empty trie has the root of the empty trie. -/
theorem hash_ne_emptyRoot {H : Set Bytes} (hinj : Set.InjOn E.keccak256 H)
    (h0 : E.emptyRootHash = E.keccak256 [emptyStringCode]) (hmem : [emptyStringCode] ∈ H)
    {t : Trie} (ht : isList t) (hrlp : rlp E t ∈ H) : Trie.hash E t ≠ E.emptyRootHash := by
  rw [hash_of_isList ht, h0]
  exact fun heq => rlp_ne_emptyString ht (hinj hrlp hmem heq)

theorem hash_patch_congr {t : Trie} {A B : Assignment 16 Bytes B256} (hA : A [] = none)
    (hB : B [] = none) (h : ∀ p, Option.Rel (fun u v => ref E u = ref E v) (A p) (B p)) :
    Trie.hash E (t.patch A) = Trie.hash E (t.patch B) := by
  have href := ref_patch_congr (E := E) (t := t) h
  cases t with
  | branch c =>
    rw [patch_branch hA, patch_branch hB] at href ⊢
    exact hash_eq_of_ref (by simp) (by simp) href
  | ext q c =>
    rw [patch_ext hA, patch_ext hB] at href ⊢
    exact hash_eq_of_ref (by simp) (by simp) href
  | _ => simp [Radix.patch, hA, hB]

theorem noHole_patch {t : Trie} {A : Assignment 16 Bytes B256} (ht : NoHole t)
    (hA : ∀ p u, A p = some u → NoHole u) : NoHole (t.patch A) := by
  induction t generalizing A with
  | branch c ih =>
    cases hn : A [] with
    | some u => exact patch_of_some hn ▸ hA [] u hn
    | none => exact patch_branch hn ▸ fun i => ih i (ht i) fun p u => hA (i :: p) u
  | ext q c ih =>
    cases hn : A [] with
    | some u => exact patch_of_some hn ▸ hA [] u hn
    | none => exact patch_ext hn ▸ ih ht fun p u => hA (q ++ p) u
  | _ =>
    cases hn : A [] with
    | some u => exact patch_of_some hn ▸ hA [] u hn
    | none =>
      simp only [Radix.patch, hn, Option.getD_none]
      exact ht

theorem mem_hashed_of_addressed {s t : Trie} {p : List Nibble} (hs : t.subtree p = some s)
    (hl : isList s) (ha : HashAddressed E s) : rlp E s ∈ hashed E t := by
  refine .inr (addressed_subtree hs (mem_addressed_self hl fun hlt => ?_))
  obtain ⟨d, hd⟩ := ha
  rw [ref_of_isList hl, if_pos hlt] at hd
  cases hd

theorem ref_of_addressed {s : Trie} (h : HashAddressed E s) :
    ref E s = .digest (Trie.hash E s).bytes := by
  obtain ⟨d, hd⟩ := h
  rcases ref_cases (E := E) s with ⟨d', hd'⟩ | (h | h) | ⟨_, _, h⟩
  · rw [hash_of_digest hd', hd']
  · rw [h, ref_null] at hd
    cases hd
  · rw [h, ref_hole] at hd
    cases hd
  · rw [h] at hd
    cases hd

/-- A subtree that can be replaced by its digest is seen through the digest. -/
theorem view_sealed {T : Trie} {p : List Nibble} {s : Trie} (hs : T.subtree p = some s)
    (ha : s = null ∨ HashAddressed E s)
    (h0 : s ≠ null → Trie.hash E s ≠ E.emptyRootHash) : View E (sealed E T p) s := by
  by_cases hn : s = null
  · subst hn
    have hnull : sealed E T p = null := by
      have hroot : Trie.hash E null = E.emptyRootHash := rfl
      rw [sealed, site_eq hs, slotTrie, if_pos hroot]
      rfl
    rw [hnull]
    exact .ofNull
  · rw [sealed, site_eq hs, slotTrie, if_neg (h0 hn)]
    exact .hidden (ref_of_addressed (ha.resolve_left hn))

/-! ## The frontier of a trie -/

theorem assign_eq_some {D : List (List Nibble)} {f : List Nibble → Trie} {p : List Nibble}
    {u : Trie} (h : assign D f (fun _ => none) p = some u) : p ∈ D ∧ u = f p := by
  unfold assign at h
  split at h
  · rename_i hp
    exact ⟨hp, (Option.some.inj h).symm⟩
  · simp at h

theorem assign_ne_none {D : List (List Nibble)} {f : List Nibble → Trie} {p : List Nibble} :
    assign D f (fun _ => none) p ≠ none ↔ p ∈ D := by
  simp [assign]

theorem Scattered.antichain {D : List (List Nibble)} (h : Scattered D) (f : List Nibble → Trie) :
    Antichain (assign D f fun _ => none) :=
  fun q r hq hr => h q (assign_ne_none.mp hq) r (assign_ne_none.mp hr)

/-- The subtrees that were cut off, each empty or hash-addressed. -/
theorem frontierOf_view {T : Trie} {D : List (List Nibble)}
    (ha : ∀ p ∈ D, ∀ s, T.subtree p = some s → s = null ∨ HashAddressed E s)
    (h0 : ∀ p ∈ D, ∀ s, T.subtree p = some s → s ≠ null → Trie.hash E s ≠ E.emptyRootHash) :
    View E (frontierOf E T D) T := by
  refine View.patch fun p u s hp hs => ?_
  obtain ⟨hmem, rfl⟩ := assign_eq_some hp
  exact view_sealed hs (ha p hmem s hs) (h0 p hmem s hs)

/-- The whole trie as one chunk. -/
theorem frontierOf_root {T : Trie} (h0 : T ≠ null → Trie.hash E T ≠ E.emptyRootHash) :
    T = null ∧ frontierOf E T [[]] = null ∨ frontierOf E T [[]] = digest (Trie.hash E T) := by
  have hsite : site T [] = T := site_eq (subtree_nil T)
  rw [frontierOf, patch_of_some (if_pos (by simp)), sealed, hsite]
  by_cases hn : T = null
  · subst hn
    exact .inl ⟨rfl, if_pos rfl⟩
  · exact .inr (if_neg (h0 hn))

theorem Cuts.addressed {m : Mpt} {T : Trie} {id : NodeId} {qs : List Mark} (h : Cuts E m T id qs)
    (hroot : qs ≠ [([], some id)]) :
    ∀ p ∈ qs.map Prod.fst, ∀ s, T.subtree p = some s → s = null ∨ HashAddressed E s := by
  intro p hp s hs
  obtain ⟨⟨q, o⟩, hq, rfl⟩ := List.mem_map.mp hp
  obtain ⟨s', hs', hmark⟩ := h.marks _ hq
  obtain rfl : s' = s := by simpa [hs] using hs'.symm
  cases o with
  | none => exact .inl hmark
  | some j => exact .inr ((h.detachable.resolve_left hroot) _ hq s' hs (by simp))

/-- The frontier has the root of the trie, and it can be written down. -/
theorem frontierOf_spec {m : Mpt} {T : Trie} {id : NodeId} {qs : List Mark}
    (hcut : Cuts E m T id qs) (hn : T.Normal) (hw : Encodable E T)
    (h0 : ∀ p ∈ qs.map Prod.fst, ∀ s, T.subtree p = some s → s ≠ null →
      Trie.hash E s ≠ E.emptyRootHash) :
    Encodable E (frontierOf E T (qs.map Prod.fst)) ∧
      (frontierOf E T (qs.map Prod.fst) = null ∨ Solid (frontierOf E T (qs.map Prod.fst))) ∧
      Trie.hash E (frontierOf E T (qs.map Prod.fst)) = Trie.hash E T := by
  by_cases hroot : qs = [([], some id)]
  · have hone : qs.map Prod.fst = [[]] := by simp [hroot]
    rw [hone] at h0 ⊢
    rcases frontierOf_root (h0 [] (by simp) T (subtree_nil T)) with ⟨hnull, hfr⟩ | hfr
    · rw [hfr, hnull]
      exact ⟨trivial, .inl rfl, rfl⟩
    · rw [hfr]
      exact ⟨trivial, .inr trivial, rfl⟩
  · have hview := frontierOf_view (hcut.addressed hroot) h0
    refine ⟨View.encodable hview hw, ?_, hview.hash_eq⟩
    by_cases hnull : T = null
    · exact .inl (hview.null_iff.mpr hnull)
    · exact .inr (View.solid hview hn hnull)

end Mpt
end CenoReth
