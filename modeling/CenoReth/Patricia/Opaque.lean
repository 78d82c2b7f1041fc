/-
Opaque positions of a sparse trie.

The digests of a sparse trie stay where they are while the trie is written.  Here
is where they stand, which keys they hide, what a write leaves alone, and how the
positions are found again in the compressed form.
-/
import CenoReth.Patricia.Commute
import CenoReth.Patricia.Position

namespace CenoReth
namespace Patricia

open Radix

/-! ## Digests below a collapsed node -/

namespace Radix

variable {k : Nat} {β δ : Type}

theorem subtree_extend_self {i : Fin k} {t : Radix k β δ} {p : List (Fin k)} {d : δ}
    (hn : t.Normal) :
    (extend [i] t).subtree (i :: p) = some (digest d) ↔ t.subtree p = some (digest d) := by
  cases t with
  | null => cases p <;> simp [subtree]
  | hole => exact absurd hn id
  | leaf q v => cases p <;> simp [subtree]
  | branch c => simp [extend, subtree, stripPrefix]
  | digest d' => simp [extend, subtree, stripPrefix]
  | ext q c =>
    have hq := hn.1
    cases p with
    | nil => cases q <;> simp_all [subtree, stripPrefix]
    | cons j p => simp [subtree, stripPrefix]

theorem subtree_extend_ne {i j : Fin k} (hij : j ≠ i) (t : Radix k β δ) (p : List (Fin k)) (d : δ) :
    (extend [j] t).subtree (i :: p) ≠ some (digest d) := by
  cases t <;> simp [extend, subtree, stripPrefix, hij]

/-- A digest is found below a collapsed node where it is found below the node. -/
theorem subtree_collapse {c : Fin k → Radix k β δ} (hn : ∀ i, (c i).Normal) {i : Fin k}
    {p : List (Fin k)} {d : δ} :
    (collapse c).subtree (i :: p) = some (digest d) ↔ (c i).subtree p = some (digest d) := by
  have hnull : (null : Radix k β δ).subtree p ≠ some (digest d) := by cases p <;> simp [subtree]
  rcases occupied_cases c with ⟨_, hc⟩ | ⟨j, _, hj, hc⟩ | hc
  · rw [collapse_none hc, hc i]
    simp [subtree, hnull]
  · rw [collapse_one hj hc]
    by_cases hij : i = j
    · subst hij
      exact subtree_extend_self (hn i)
    · rw [hc i hij]
      exact iff_of_false (subtree_extend_ne (Ne.symm hij) _ _ _) hnull
  · rw [collapse_many hc, subtree_branch]

end Radix

namespace Sparse

variable {k : Nat} {β δ : Type}

/-! ## Where the digests stand -/

/-- The digest at a position. -/
def digestAt : {n : Nat} → Sparse k β δ n → List (Fin k) → Option δ
  | _, digest d, [] => some d
  | _, node c, i :: p => (c i).digestAt p
  | _, _, _ => none

theorem subtree_compress : {n : Nat} → (s : Sparse k β δ n) → {p : List (Fin k)} → {d : δ} →
    (s.compress.subtree p = some (.digest d) ↔ s.digestAt p = some d)
  | _, digest d', p, d => by cases p <;> simp [compress, digestAt, subtree]
  | _, value none, p, d => by cases p <;> simp [compress, digestAt, subtree]
  | _, value (some v), p, d => by cases p <;> simp [compress, digestAt, subtree]
  | _, node c, [], d => by
    simp only [compress, subtree_nil, digestAt, Option.some.injEq, reduceCtorEq, iff_false]
    exact collapse_ne_digest _ d
  | _, node c, i :: p, d => by
    simp only [compress, digestAt]
    rw [subtree_collapse fun i => normal_compress (c i)]
    exact subtree_compress (c i)

theorem digestAt_nil {n : Nat} {s : Sparse k β δ n} {d : δ} (h : s.digestAt [] = some d) :
    s = digest d := by
  cases s <;> simp_all [digestAt]

/-- Keys through a digest are hidden. -/
theorem get_of_digestAt : {n : Nat} → {s : Sparse k β δ n} → {p : List (Fin k)} → {d : δ} →
    s.digestAt p = some d → ∀ key, s.get (p ++ key) = .error (.unresolved d)
  | _, digest d', [], d, h, key => by simp_all [digestAt, get]
  | _, digest d', _ :: _, d, h, _ => by simp [digestAt] at h
  | _, value v, p, d, h, _ => by cases p <;> simp [digestAt] at h
  | _, node c, [], d, h, _ => by simp [digestAt] at h
  | _, node c, i :: p, d, h, key => get_of_digestAt (s := c i) h key

/-! ## Writing -/

theorem digestAt_set : {n : Nat} → (s : Sparse k β δ n) → (key : List (Fin k)) → (o : Option β) →
    (p : List (Fin k)) → (s.set key o).digestAt p = s.digestAt p
  | _, digest _, _, _, _ => rfl
  | _, value _, _, _, p => by cases p <;> rfl
  | _, node _, [], _, _ => rfl
  | _, node _, _ :: _, _, [] => rfl
  | _, node c, i :: key, o, j :: p => by
    simp only [set, digestAt]
    by_cases hj : j = i
    · subst hj
      rw [Function.update_self, digestAt_set]
    · rw [Function.update_of_ne hj]

theorem get_set_ne : {n : Nat} → (s : Sparse k β δ n) → {key key' : List (Fin k)} →
    key.length = n → key'.length = n → key' ≠ key → (o : Option β) →
    (s.set key o).get key' = s.get key'
  | _, digest _, _, _, _, _, _, _ => rfl
  | _, value _, [], [], _, _, hne, _ => absurd rfl hne
  | _, node c, i :: key, j :: key', hk, hk', hne, o => by
    simp only [set, get]
    by_cases hj : j = i
    · subst hj
      rw [Function.update_self]
      exact get_set_ne (c j) (by simpa using hk) (by simpa using hk') (by simpa using hne) o
    · rw [Function.update_of_ne hj]

theorem get_set_self : {n : Nat} → (s : Sparse k β δ n) → {key : List (Fin k)} →
    key.length = n → {o' : Option β} → s.get key = .ok o' → (o : Option β) →
    (s.set key o).get key = .ok o
  | _, value _, _, _, _, _, _ => rfl
  | _, node c, i :: key, hk, o', h, o => by
    simp only [set, get, Function.update_self] at h ⊢
    exact get_set_self (c i) (by simpa using hk) h o

theorem write_of_get {n : Nat} {s : Sparse k β δ n} {key : List (Fin k)} {o' : Option β}
    (h : s.get key = .ok o') (o : Option β) : s.write key o = some (s.set key o) := by
  simp [write, h]

theorem of_write {n : Nat} {s s' : Sparse k β δ n} {key : List (Fin k)} {o : Option β}
    (h : s.write key o = some s') : (∃ o', s.get key = .ok o') ∧ s' = s.set key o := by
  unfold write at h
  split at h
  · rename_i o' ho'
    exact ⟨⟨o', ho'⟩, (Option.some.inj h).symm⟩
  · cases h

/-- What holds of a sparse trie and is kept by every write that is not opaque. -/
theorem writeAll_induction {n : Nat} (Inv : Sparse k β δ n → List (List (Fin k) × Option β) → Prop)
    (hstep : ∀ s key o ops o', Inv s ((key, o) :: ops) → s.get key = .ok o' →
      Inv (s.set key o) ops) :
    ∀ {ops : List (List (Fin k) × Option β)} {s s' : Sparse k β δ n}, Inv s ops →
      s.writeAll ops = some s' → Inv s' []
  | [], s, s', hs, h => by
    obtain rfl : s = s' := by simpa [writeAll] using h
    exact hs
  | (key, o) :: ops, s, s', hs, h => by
    rw [writeAll_cons] at h
    obtain ⟨s₁, h₁, h⟩ := Option.bind_eq_some_iff.mp h
    obtain ⟨⟨o', ho'⟩, rfl⟩ := of_write h₁
    exact writeAll_induction Inv hstep (hstep s key o ops o' hs ho') h

theorem digestAt_writeAll {n : Nat} {s s' : Sparse k β δ n}
    {ops : List (List (Fin k) × Option β)} (h : s.writeAll ops = some s') (p : List (Fin k)) :
    s'.digestAt p = s.digestAt p :=
  writeAll_induction (fun x _ => x.digestAt p = s.digestAt p)
    (fun x key o _ _ hx _ => (digestAt_set x key o p).trans hx) rfl h

/-- All writes of visible keys can be made. -/
theorem exists_writeAll {n : Nat} : ∀ {ops : List (List (Fin k) × Option β)} {s : Sparse k β δ n},
    (∀ op ∈ ops, op.1.length = n ∧ ∃ o, s.get op.1 = .ok o) → ∃ s', s.writeAll ops = some s'
  | [], s, _ => ⟨s, rfl⟩
  | (key, o) :: ops, s, h => by
    obtain ⟨hk, o', ho'⟩ := h (key, o) (by simp)
    rw [writeAll_cons, write_of_get ho' o]
    refine exists_writeAll fun op hop => ?_
    obtain ⟨hlen, o'', ho''⟩ := h op (by simp [hop])
    refine ⟨hlen, ?_⟩
    by_cases heq : op.1 = key
    · exact ⟨o, heq ▸ get_set_self s hk ho' o⟩
    · exact ⟨o'', (get_set_ne s hk hlen heq o).trans ho''⟩

end Sparse
end Patricia
end CenoReth
