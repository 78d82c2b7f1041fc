/-
The map a compressed trie stores.

A `Sparse n` is the uncompressed trie of depth `n`: every inner node has all of
its `k` children, and any subtree may be opaque.  Its operations change one
position and look at nothing else.  `compress` removes the runs without a
choice, and the theorems of this file say that lookup, insertion and deletion
of `Patricia/Radix.lean` on a compressed trie are the operations of the sparse
trie, compressed.  The whole case analysis of splitting and merging paths is in
`insert_collapse` and `delete_collapse`, one digit at a time.
-/
import CenoReth.Patricia.Radix

namespace CenoReth
namespace Patricia

/-- An uncompressed trie over keys of `n` digits. -/
inductive Sparse (k : Nat) (β δ : Type) : Nat → Type where
  | digest {n : Nat} (d : δ) : Sparse k β δ n
  | value (v : Option β) : Sparse k β δ 0
  | node {n : Nat} (children : Fin k → Sparse k β δ n) : Sparse k β δ (n + 1)

namespace Radix

variable {k : Nat} {β δ : Type}

/-- The compressed form of a node with the given compressed children. -/
def collapse (c : Fin k → Radix k β δ) : Radix k β δ :=
  match occupied c with
  | [] => null
  | [j] => extend [j] (c j)
  | _ => branch c

theorem collapse_none {c : Fin k → Radix k β δ} (h : ∀ i, c i = null) : collapse c = null := by
  simp [collapse, occupied_eq_nil.mpr h]

theorem collapse_one {c : Fin k → Radix k β δ} {j : Fin k} (hj : c j ≠ null)
    (h : ∀ i, i ≠ j → c i = null) : collapse c = extend [j] (c j) := by
  simp [collapse, occupied_eq_singleton.mpr ⟨hj, h⟩]

theorem collapse_many {c : Fin k → Radix k β δ} (h : 2 ≤ (occupied c).length) :
    collapse c = branch c := by
  unfold collapse
  rcases hl : occupied c with _ | ⟨i, _ | ⟨j, rest⟩⟩
  · simp [hl] at h
  · simp [hl] at h
  · rfl

theorem two_le_occupied_update {c : Fin k → Radix k β δ} {i : Fin k} {t : Radix k β δ}
    (h : 2 ≤ (occupied c).length) (ht : t ≠ null) :
    2 ≤ (occupied (Function.update c i t)).length := by
  obtain ⟨a, b, hab, ha, hb⟩ := exists_two_of_le h
  refine two_le_occupied hab ?_ ?_
  · by_cases hai : a = i
    · subst hai
      simpa using ht
    · rwa [Function.update_of_ne hai]
  · by_cases hbi : b = i
    · subst hbi
      simpa using ht
    · rwa [Function.update_of_ne hbi]

theorem extend_ne_null {p : List (Fin k)} {t : Radix k β δ} (hn : t.Normal) (ht : t ≠ null) :
    extend p t ≠ null := by
  cases t <;> simp_all [extend, Normal]

theorem Normal.ne_hole {t : Radix k β δ} (h : t.Normal) : t ≠ hole := by
  rintro rfl
  exact h

theorem normal_extend {j : Fin k} {t : Radix k β δ} (h : t.Normal) : (extend [j] t).Normal := by
  cases t <;> simp_all [extend, Radix.Normal, isBranching]

theorem normal_collapse {c : Fin k → Radix k β δ} (h : ∀ i, (c i).Normal) :
    (collapse c).Normal := by
  rcases occupied_cases c with ⟨_, hc⟩ | ⟨j, _, hj, hc⟩ | hc
  · rw [collapse_none hc]
    trivial
  · rw [collapse_one hj hc]
    exact normal_extend (h j)
  · rw [collapse_many hc]
    exact ⟨hc, h⟩

theorem collapse_ne_digest (c : Fin k → Radix k β δ) (d : δ) : collapse c ≠ digest d := by
  unfold collapse
  split
  · simp
  · rename_i j _
    cases c j <;> simp [extend]
  · simp

/-! ## Lookup -/

theorem get_extend {j i : Fin k} {t : Radix k β δ} (hn : t.Normal) (key : List (Fin k)) :
    (extend [j] t).get (i :: key) = if j = i then t.get key else .ok none := by
  by_cases hji : j = i
  · subst hji
    cases t <;> simp_all [extend, get, Normal]
  · cases t <;> simp_all [extend, get, Normal, stripPrefix_cons_ne]

/-- Lookup follows one digit of the sparse node. -/
theorem get_collapse {c : Fin k → Radix k β δ} (hn : ∀ i, (c i).Normal) (i : Fin k)
    (key : List (Fin k)) : (collapse c).get (i :: key) = (c i).get key := by
  rcases occupied_cases c with ⟨_, hc⟩ | ⟨j, _, hj, hc⟩ | hc
  · rw [collapse_none hc, hc i]
    rfl
  · rw [collapse_one hj hc, get_extend (hn j)]
    by_cases hji : j = i
    · rw [if_pos hji, hji]
    · rw [if_neg hji, hc i (Ne.symm hji)]
      rfl
  · rw [collapse_many hc]
    rfl

/-! ## Insertion -/

/-- A property of all children of a fork. -/
theorem fork_forall {Q : Radix k β δ → Prop} {t u : Radix k β δ} (h₀ : Q null) (ht : Q t)
    (hu : Q u) (i j a : Fin k) :
    Q (Function.update (Function.update (fun _ => null) i t) j u a) := by
  by_cases hj : a = j
  · subst hj
    simpa using hu
  · by_cases hi : a = i
    · subst hi
      simpa [hj] using ht
    · simpa [hj, hi] using h₀

theorem graft_ne_null {p : List (Fin k)} {t : Radix k β δ} (h : t ≠ null) : graft p t ≠ null := by
  cases p
  · exact h
  · simp [graft]

theorem extend_graft (j : Fin k) (p : List (Fin k)) (c : Fin k → Radix k β δ) :
    extend [j] (graft p (branch c)) = graft (j :: p) (branch c) := by
  cases p <;> rfl

section Insert

variable [DecidableEq β]

/-- Insertion never produces the empty tree. -/
theorem insert_ne_null {t t' : Radix k β δ} {key : List (Fin k)} {v : β} {b : Bool}
    (h : t.insert key v = .ok (b, t')) : t' ≠ null := by
  cases t with
  | null => simp only [insert, Except.ok.injEq, Prod.mk.injEq] at h; simp [← h.2]
  | hole => simp only [insert, Except.ok.injEq, Prod.mk.injEq] at h; simp [← h.2]
  | leaf p old =>
    simp only [insert] at h
    split at h
    · split at h <;> simp only [Except.ok.injEq, Prod.mk.injEq] at h <;> simp [← h.2]
    · simp only [Except.ok.injEq, Prod.mk.injEq] at h
      rw [← h.2]
      exact graft_ne_null (by simp [fork])
    · simp at h
  | ext p t =>
    simp only [insert] at h
    split at h
    · rename_i q' _
      cases ht : t.insert q' v with
      | error e => simp [ht, Except.map] at h
      | ok r =>
        simp only [ht, Except.map, Except.ok.injEq, Prod.mk.injEq] at h
        simp [← h.2]
    · simp at h
    · simp only [Except.ok.injEq, Prod.mk.injEq] at h
      rw [← h.2]
      exact graft_ne_null (by simp [fork])
  | branch c =>
    cases key with
    | nil => simp [insert] at h
    | cons i key =>
      cases ht : (c i).insert key v with
      | error e => simp [insert, ht, Except.map] at h
      | ok r =>
        simp only [insert, ht, Except.map, Except.ok.injEq, Prod.mk.injEq] at h
        simp [← h.2]
  | digest d => simp [insert] at h

/-- Insertion below the only child of a node: the path in front is kept. -/
theorem insert_extend_self {j : Fin k} {t : Radix k β δ} (hn : t.Normal) (ht : t ≠ null)
    (key : List (Fin k)) (v : β) :
    (extend [j] t).insert (j :: key) v =
      (t.insert key v).map fun r => (r.1, extend [j] r.2) := by
  cases t with
  | null => exact absurd rfl ht
  | hole => exact absurd rfl hn.ne_hole
  | leaf p old =>
    simp only [extend_leaf, List.cons_append, List.nil_append, insert, split_cons_self]
    rcases hs : split p key with ⟨c, p', q'⟩
    cases p' with
    | nil =>
      cases q' with
      | nil =>
        by_cases hv : old = v <;> simp [hv, Except.map]
      | cons j' q' => simp [Except.map]
    | cons i' p' =>
      cases q' with
      | nil => simp [Except.map]
      | cons j' q' => simp [Except.map, fork, extend_graft]
  | ext p t =>
    simp only [extend_ext, List.cons_append, List.nil_append, insert, split_cons_self]
    rcases hs : split p key with ⟨c, p', q'⟩
    cases p' with
    | nil => cases h : t.insert q' v <;> simp [h, Except.map]
    | cons i' p' =>
      cases q' with
      | nil => simp [Except.map]
      | cons j' q' => simp [Except.map, fork, extend_graft]
  | branch c =>
    simp only [extend_branch, insert, split_cons_self, split_nil_left]
    cases key with
    | nil => simp [insert, Except.map]
    | cons i key => cases h : (c i).insert key v <;> simp [insert, h, Except.map]
  | digest d =>
    simp [insert, Except.map]

/-- Insertion beside the only child of a node makes a branch of two. -/
theorem insert_extend_ne {j i : Fin k} (hji : j ≠ i) {t : Radix k β δ} (hn : t.Normal)
    (ht : t ≠ null) (key : List (Fin k)) (v : β) :
    (extend [j] t).insert (i :: key) v = .ok (true, fork j t i (leaf key v)) := by
  cases t with
  | null => exact absurd rfl ht
  | hole => exact absurd rfl hn.ne_hole
  | leaf p old => simp [insert, split_cons_ne hji, graft]
  | ext p t =>
    obtain ⟨hp, _, _⟩ := hn
    cases p with
    | nil => exact absurd rfl hp
    | cons a p => simp [insert, split_cons_ne hji, graft]
  | branch c => simp [insert, split_cons_ne hji, graft]
  | digest d => simp [insert, split_cons_ne hji, graft]

/-- Insertion changes one child of the sparse node. -/
theorem insert_collapse {c : Fin k → Radix k β δ} (hn : ∀ i, (c i).Normal) (i : Fin k)
    (key : List (Fin k)) (v : β) :
    (collapse c).insert (i :: key) v =
      ((c i).insert key v).map fun r => (r.1, collapse (Function.update c i r.2)) := by
  rcases occupied_cases c with ⟨_, hc⟩ | ⟨j, _, hj, hc⟩ | hc
  · -- the first key below this node
    have hu : ∀ a, a ≠ i → Function.update c i (leaf key v) a = null := by
      intro a ha
      rw [Function.update_of_ne ha, hc a]
    rw [collapse_none hc, hc i]
    simp only [insert, Except.map]
    rw [collapse_one (by simp) hu]
    simp [extend]
  · by_cases hji : j = i
    · -- the path through the only child
      subst hji
      rw [collapse_one hj hc, insert_extend_self (hn j) hj]
      cases hr : (c j).insert key v with
      | error e => rfl
      | ok r =>
        have hr' : r.2 ≠ null := insert_ne_null (b := r.1) hr
        have hu : ∀ a, a ≠ j → Function.update c j r.2 a = null := by
          intro a ha
          rw [Function.update_of_ne ha, hc a ha]
        simp only [Except.map]
        rw [collapse_one (by simpa using hr') hu]
        simp
    · -- a second child appears
      have hci : c i = null := hc i (Ne.symm hji)
      have hc' : c = Function.update (fun _ => null) j (c j) := by
        funext a
        by_cases ha : a = j
        · subst ha
          simp
        · rw [Function.update_of_ne ha, hc a ha]
      have htwo : 2 ≤ (occupied (Function.update c i (leaf key v))).length := by
        refine two_le_occupied hji ?_ (by simp)
        rwa [Function.update_of_ne hji]
      rw [collapse_one hj hc, insert_extend_ne hji (hn j) hj, hci]
      simp only [insert, Except.map]
      rw [collapse_many htwo, fork, ← hc']
  · rw [collapse_many hc]
    simp only [insert]
    cases hr : (c i).insert key v with
    | error e => rfl
    | ok r =>
      have hr' : r.2 ≠ null := insert_ne_null (b := r.1) hr
      simp only [Except.map]
      rw [collapse_many (two_le_occupied_update hc hr')]

end Insert

/-! ## Deletion -/

/-- Deletion below the only child of a node. -/
theorem delete_extend_self {j : Fin k} {t : Radix k β δ} (hn : t.Normal) (key : List (Fin k)) :
    (extend [j] t).delete (j :: key) =
      (t.delete key).map fun r => if r.1 then (true, extend [j] r.2) else (false, extend [j] t) := by
  cases t with
  | null => simp [delete, Except.map]
  | hole => exact absurd rfl hn.ne_hole
  | leaf p v => by_cases hp : p = key <;> simp [delete, hp, Except.map]
  | ext p c =>
    simp only [extend_ext, List.cons_append, List.nil_append, delete, stripPrefix_cons_self]
    cases stripPrefix p key with
    | none => simp [Except.map]
    | some tail =>
      rcases hr : c.delete tail with e | ⟨b, t'⟩
      · simp [hr, Except.map]
      · cases b <;> simp [hr, Except.map, extend_extend]
  | branch c =>
    simp only [extend_branch, delete, stripPrefix_cons_self, stripPrefix_nil]
  | digest d => simp [delete, Except.map]

/-- Deletion beside the only child of a node finds nothing. -/
theorem delete_extend_ne {j i : Fin k} (hji : j ≠ i) {t : Radix k β δ} (hn : t.Normal)
    (key : List (Fin k)) : (extend [j] t).delete (i :: key) = .ok (false, extend [j] t) := by
  cases t with
  | null => simp [delete]
  | hole => exact absurd rfl hn.ne_hole
  | leaf p v => simp [delete, hji]
  | ext p c => simp [delete, stripPrefix_cons_ne hji]
  | branch c => simp [delete, stripPrefix_cons_ne hji]
  | digest d => simp [delete, stripPrefix_cons_ne hji]

/-- A normal branch that loses at most one child can always be replaced. -/
theorem shrink_eq_collapse {c : Fin k → Radix k β δ} (hn : ∀ i, (c i).Normal)
    (hc : 2 ≤ (occupied c).length) (i : Fin k) (t : Radix k β δ) :
    shrink (Function.update c i t) = .ok (true, collapse (Function.update c i t)) := by
  obtain ⟨a, ha, hac⟩ : ∃ a, a ≠ i ∧ c a ≠ null := by
    obtain ⟨a, b, hab, ha, hb⟩ := exists_two_of_le hc
    by_cases hai : a = i
    · exact ⟨b, fun hbi => hab (hai.trans hbi.symm), hb⟩
    · exact ⟨a, hai, ha⟩
  have hua : Function.update c i t a ≠ null := by rwa [Function.update_of_ne ha]
  rcases occupied_cases (Function.update c i t) with ⟨_, hu⟩ | ⟨j, hl, hj, hu⟩ | hl
  · exact absurd (hu a) hua
  · -- the child that remains is not the one that was written
    have hja : a = j := by_contra fun h => hua (hu a h)
    subst hja
    have hne : Function.update c i t a ≠ hole := by
      rw [Function.update_of_ne ha]
      exact (hn a).ne_hole
    simp only [shrink, collapse, hl]
  · rw [collapse_many hl]
    unfold shrink
    rcases h : occupied (Function.update c i t) with _ | ⟨x, _ | ⟨y, rest⟩⟩
    · simp [h] at hl
    · simp [h] at hl
    · rfl

/-- Deletion changes one child of the sparse node. -/
theorem delete_collapse {c : Fin k → Radix k β δ} (hn : ∀ i, (c i).Normal) (i : Fin k)
    (key : List (Fin k)) :
    (collapse c).delete (i :: key) =
      ((c i).delete key).map fun r =>
        if r.1 then (true, collapse (Function.update c i r.2)) else (false, collapse c) := by
  rcases occupied_cases c with ⟨_, hc⟩ | ⟨j, _, hj, hc⟩ | hc
  · rw [collapse_none hc, hc i]
    rfl
  · rw [collapse_one hj hc]
    by_cases hji : j = i
    · subst hji
      rw [delete_extend_self (hn j)]
      rcases (c j).delete key with e | ⟨b, t⟩
      · rfl
      · cases b with
        | false => rfl
        | true =>
          have hu : ∀ a, a ≠ j → Function.update c j t a = null := by
            intro a ha
            rw [Function.update_of_ne ha, hc a ha]
          simp only [Except.map, if_true]
          by_cases ht : t = null
          · subst ht
            rw [collapse_none]
            · rfl
            · intro a
              by_cases ha : a = j
              · subst ha
                simp
              · exact hu a ha
          · rw [collapse_one (by simpa using ht) hu]
            simp
    · rw [delete_extend_ne hji (hn j), hc i (Ne.symm hji)]
      rfl
  · rw [collapse_many hc]
    simp only [delete]
    rcases (c i).delete key with e | ⟨b, t⟩
    · rfl
    · cases b with
      | false => rfl
      | true => exact shrink_eq_collapse hn hc i t

end Radix

/-! ## Sparse tries -/

namespace Sparse

open Radix

variable {k : Nat} {β δ : Type}

/-- Remove the runs without a choice. -/
def compress : {n : Nat} → Sparse k β δ n → Radix k β δ
  | _, digest d => .digest d
  | _, value none => .null
  | _, value (some v) => .leaf [] v
  | _, node c => collapse fun i => compress (c i)

/-- The value at a position, unless the position is inside an opaque subtree. -/
def get : {n : Nat} → Sparse k β δ n → List (Fin k) → Except (Fault δ) (Option β)
  | _, digest d, _ => .error (.unresolved d)
  | _, value v, _ => .ok v
  | _, node _, [] => .ok none
  | _, node c, i :: key => (c i).get key

/-- Write one position.  Opaque subtrees stay as they are. -/
def set : {n : Nat} → Sparse k β δ n → List (Fin k) → Option β → Sparse k β δ n
  | _, digest d, _, _ => digest d
  | _, value _, _, o => value o
  | _, node c, [], _ => node c
  | _, node c, i :: key, o => node (Function.update c i ((c i).set key o))

theorem normal_compress : {n : Nat} → (s : Sparse k β δ n) → s.compress.Normal
  | _, digest _ => trivial
  | _, value none => trivial
  | _, value (some _) => trivial
  | _, node c => normal_collapse fun i => normal_compress (c i)

theorem compress_update {n : Nat} (c : Fin k → Sparse k β δ n) (i : Fin k) (s : Sparse k β δ n) :
    (fun j => (Function.update c i s j).compress) =
      Function.update (fun j => (c j).compress) i s.compress := by
  funext j
  by_cases hj : j = i
  · subst hj
    simp
  · simp [Function.update_of_ne hj]

/-- Writing back what is stored changes nothing. -/
theorem set_of_get : {n : Nat} → {s : Sparse k β δ n} → {key : List (Fin k)} → {o : Option β} →
    s.get key = .ok o → s.set key o = s
  | _, digest d, _, _, _ => rfl
  | _, value v, _, o, h => by
    simp only [get, Except.ok.injEq] at h
    simp [set, h]
  | _, node c, [], _, _ => rfl
  | _, node c, i :: key, o, h => by
    simp [set, set_of_get (s := c i) h]

theorem get_compress : {n : Nat} → (s : Sparse k β δ n) → {key : List (Fin k)} →
    key.length = n → s.compress.get key = s.get key
  | _, digest _, _, _ => rfl
  | _, value none, _, _ => rfl
  | _, value (some v), [], _ => rfl
  | _, node c, i :: key, h => by
    simp only [compress, get_collapse (fun i => normal_compress (c i)), get]
    exact get_compress (c i) (by simpa using h)

/-- Insertion into a compressed trie writes one position of the map. -/
theorem insert_compress [DecidableEq β] : {n : Nat} → (s : Sparse k β δ n) →
    {key : List (Fin k)} → key.length = n → (v : β) →
    s.compress.insert key v =
      (s.get key).map fun o => (decide (o ≠ some v), (s.set key (some v)).compress)
  | _, digest d, _, _, v => rfl
  | _, value none, [], _, v => by simp [compress, get, set, Radix.insert, Except.map]
  | _, value (some w), [], _, v => by
    by_cases hw : w = v <;> simp [compress, get, set, Radix.insert, Except.map, hw]
  | _, node c, i :: key, h, v => by
    have ih := insert_compress (c i) (show key.length = _ by simpa using h) v
    simp only [compress, insert_collapse (fun i => normal_compress (c i)), get, set,
      compress_update, ih]
    cases (c i).get key <;> rfl

/-- Deletion from a compressed trie clears one position of the map. -/
theorem delete_compress : {n : Nat} → (s : Sparse k β δ n) → {key : List (Fin k)} →
    key.length = n →
    s.compress.delete key = (s.get key).map fun o => (o.isSome, (s.set key none).compress)
  | _, digest d, _, _ => rfl
  | _, value none, [], _ => by simp [compress, get, set, delete, Except.map]
  | _, value (some w), [], _ => by simp [compress, get, set, delete, Except.map]
  | _, node c, i :: key, h => by
    have ih := delete_compress (c i) (show key.length = _ by simpa using h)
    simp only [compress, delete_collapse (fun i => normal_compress (c i)), get, set,
      compress_update, ih]
    rcases ho : (c i).get key with e | o
    · rfl
    · cases o with
      | none => simp [Except.map, set_of_get ho]
      | some w => rfl

end Sparse
end Patricia
end CenoReth
