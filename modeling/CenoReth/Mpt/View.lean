/-
Partial views of a trie.

A witness holds a part of a trie: subtrees that are referred to by their hash may
be replaced by that hash.  `View E P T` says that `P` is such a part of `T`.  The
two have the same references and hashes.  Lookup and insertion on `P` stop at a
missing subtree or do what they do on `T`.
-/
import CenoReth.Mpt.Run

namespace CenoReth
namespace Trie

open Patricia Patricia.Radix

/-- `P` is `T` with some hash-addressed subtrees replaced by their digests. -/
inductive View (E : Env) : Trie → Trie → Prop
  | ofNull : View E null null
  | ofHole : View E hole hole
  | ofLeaf (p : List Nibble) (v : Bytes) : View E (leaf p v) (leaf p v)
  | ofExt (p : List Nibble) {c c' : Trie} (h : View E c c') : View E (ext p c) (ext p c')
  | ofBranch {c c' : Nibble → Trie} (h : ∀ i, View E (c i) (c' i)) : View E (branch c) (branch c')
  | hidden {t : Trie} {d : B256} (h : ref E t = .digest d.bytes) : View E (digest d) t

variable {E : Env}

theorem View.refl (t : Trie) : View E t t := by
  induction t with
  | null => exact .ofNull
  | hole => exact .ofHole
  | leaf p v => exact .ofLeaf p v
  | ext p c ih => exact .ofExt p ih
  | branch c ih => exact .ofBranch ih
  | digest d => exact .hidden rfl

/-! ## Hashes -/

theorem View.ref_eq {P T : Trie} (h : View E P T) : ref E P = ref E T := by
  induction h with
  | ofNull => rfl
  | ofHole => rfl
  | ofLeaf p v => rfl
  | hidden h => exact h.symm
  | ofExt p _ ih => exact ref_ext_congr p ih
  | ofBranch _ ih => exact ref_branch_congr ih

/-- A digest reference is the hash of its node. -/
theorem hash_of_digest {t : Trie} {d : B256} (h : ref E t = .digest d.bytes) : hash E t = d := by
  rcases node_cases t with rfl | rfl | ⟨d', rfl⟩ | hl
  · simp at h
  · simp at h
  · simp only [ref_digest, NodeRef.digest.injEq] at h
    exact B256.ext h
  · rw [ref_of_isList hl] at h
    split at h
    · simp at h
    · rw [hash_of_isList hl]
      exact B256.ext (NodeRef.digest.inj h)

/-- Tries with the same reference have the same hash. -/
theorem hash_eq_of_ref {t u : Trie} (ht : t ≠ null ∧ t ≠ hole) (hu : u ≠ null ∧ u ≠ hole)
    (h : ref E t = ref E u) : hash E t = hash E u := by
  rcases hash_of_ref (E := E) ht.1 ht.2 with ⟨d, hr, hd⟩ | ⟨b, hr, hb⟩
  · rw [hd, hash_of_digest (h.symm.trans hr)]
  · rcases hash_of_ref (E := E) hu.1 hu.2 with ⟨d, hr', hd⟩ | ⟨b', hr', hb'⟩
    · rw [hr, hr'] at h
      simp at h
    · rw [hr, hr'] at h
      rw [hb, hb', NodeRef.bytes.inj h]

theorem View.null_iff {P T : Trie} (h : View E P T) : P = null ↔ T = null := by
  cases h with
  | hidden h =>
    constructor
    · simp
    · rintro rfl
      simp at h
  | _ => simp

theorem View.hole_iff {P T : Trie} (h : View E P T) : P = hole ↔ T = hole := by
  cases h with
  | hidden h =>
    constructor
    · simp
    · rintro rfl
      simp at h
  | _ => simp

/-- A partial view has the hash of the trie. -/
theorem View.hash_eq {P T : Trie} (h : View E P T) : hash E P = hash E T := by
  by_cases hn : P = null
  · rw [hn, h.null_iff.mp hn]
  · by_cases hh : P = hole
    · rw [hh, h.hole_iff.mp hh]
    · exact hash_eq_of_ref ⟨hn, hh⟩ ⟨fun e => hn (h.null_iff.mpr e), fun e => hh (h.hole_iff.mpr e)⟩
        h.ref_eq

/-! ## Lookup -/

/-- Lookup on a partial view stops at a missing subtree or agrees with the trie. -/
theorem View.get_cases {P T : Trie} (h : View E P T) (key : List Nibble) :
    (∃ d, P.get key = .error (.unresolved d)) ∨ P.get key = T.get key := by
  induction h generalizing key with
  | ofNull => exact .inr rfl
  | ofHole => exact .inr rfl
  | ofLeaf p v => exact .inr rfl
  | hidden h => exact .inl ⟨_, rfl⟩
  | ofExt p _ ih =>
    rw [Radix.get, Radix.get]
    cases stripPrefix p key with
    | none => exact .inr rfl
    | some tail => exact ih tail
  | ofBranch _ ih =>
    cases key with
    | nil => exact .inr rfl
    | cons i key => exact ih i key

/-! ## Insertion -/

/-- Two updates end in the same way, and their results are again a view and its trie. -/
def SameUpdate (E : Env) : Except (Fault B256) (Bool × Trie) →
    Except (Fault B256) (Bool × Trie) → Prop
  | .ok (b, P'), .ok (b', T') => b = b' ∧ View E P' T'
  | .error f, .error f' => f = f'
  | _, _ => False

/-- A node that keeps its place above the updated subtree. -/
theorem SameUpdate.map {x y : Except (Fault B256) (Bool × Trie)} {f g : Trie → Trie}
    (h : SameUpdate E x y) (hfg : ∀ P' T', View E P' T' → View E (f P') (g T')) :
    SameUpdate E (x.map fun r => (r.1, f r.2)) (y.map fun r => (r.1, g r.2)) := by
  rcases x with e | ⟨b, P'⟩ <;> rcases y with e' | ⟨b', T'⟩
  · exact h
  · exact h.elim
  · exact h.elim
  · exact ⟨h.1, hfg P' T' h.2⟩

theorem View.graft_congr {P T : Trie} (h : View E P T) (p : List Nibble) :
    View E (graft p P) (graft p T) := by
  cases p with
  | nil => exact h
  | cons i p => exact .ofExt _ h

theorem View.update_congr {c c' : Nibble → Trie} (h : ∀ i, View E (c i) (c' i)) {P T : Trie}
    (hPT : View E P T) (i j : Nibble) :
    View E (Function.update c i P j) (Function.update c' i T j) := by
  by_cases hj : j = i
  · subst hj
    simpa using hPT
  · simpa [hj] using h j

theorem View.fork_congr {P T Q U : Trie} (h : View E P T) (h' : View E Q U) (i j : Nibble) :
    View E (fork i P j Q) (fork i T j U) :=
  .ofBranch (View.update_congr (View.update_congr (fun _ => .ofNull) h i) h' j)

theorem unresolved_map {x : Except (Fault B256) (Bool × Trie)} {d : B256}
    {f : Bool × Trie → Bool × Trie} (h : x = .error (.unresolved d)) : x.map f = .error (.unresolved d) := by
  rw [h]
  rfl

/-- Insertion on a partial view stops at a missing subtree or does what it does on the
trie, and the results are again a view and its trie. -/
theorem View.insert_cases {P T : Trie} (h : View E P T) (key : List Nibble) (v : Bytes) :
    (∃ d, P.insert key v = .error (.unresolved d)) ∨
      SameUpdate E (P.insert key v) (T.insert key v) := by
  induction h generalizing key with
  | ofNull => exact .inr ⟨rfl, .ofLeaf key v⟩
  | ofHole => exact .inr ⟨rfl, .ofLeaf key v⟩
  | hidden h => exact .inl ⟨_, rfl⟩
  | ofLeaf p old =>
    refine .inr ?_
    rw [Radix.insert]
    split
    · split
      · exact ⟨rfl, .ofLeaf p old⟩
      · exact ⟨rfl, .ofLeaf p v⟩
    · exact ⟨rfl, ((View.ofLeaf _ _).fork_congr (View.ofLeaf _ _) _ _).graft_congr _⟩
    · rfl
  | ofExt p hc ih =>
    rw [Radix.insert, Radix.insert]
    split
    · rename_i q' _
      rcases ih q' with ⟨d, hd⟩ | hsame
      · exact .inl ⟨d, unresolved_map hd⟩
      · exact .inr (hsame.map fun _ _ h => .ofExt p h)
    · exact .inr rfl
    · exact .inr ⟨rfl, ((hc.graft_congr _).fork_congr (View.ofLeaf _ _) _ _).graft_congr _⟩
  | ofBranch hc ih =>
    cases key with
    | nil => exact .inr rfl
    | cons i key =>
      rw [Radix.insert, Radix.insert]
      rcases ih i key with ⟨d, hd⟩ | hsame
      · exact .inl ⟨d, unresolved_map hd⟩
      · exact .inr (hsame.map fun _ _ h => .ofBranch (View.update_congr hc h i))

end Trie
end CenoReth
