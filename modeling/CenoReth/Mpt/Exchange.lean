/-
Exchanging a subtree of a partial view.

A frontier is a partial view of a trie.  When a slot of the frontier is replaced,
the same slot of the trie is replaced with it, and the two are again a view and its
trie.  `Backed` keeps account of what a view does not show: the nodes below its
digests are among given strings.  Insertion at a position of the trie is insertion
into the subtree there.
-/
import CenoReth.Mpt.Committed
import CenoReth.Patricia.Mixed

namespace CenoReth
namespace Mpt

open Patricia Patricia.Radix Trie Rlp

variable {E : Env}

/-! ## Positions of a view -/

theorem View.exists_subtree {P T : Trie} (h : View E P T) : ∀ {p : List Nibble} {s : Trie},
    P.subtree p = some s → ∃ t, T.subtree p = some t ∧ View E s t := by
  induction h with
  | ofExt q hc ih =>
    intro p s hs
    cases p with
    | nil =>
      obtain rfl : _ = s := by simpa using hs
      exact ⟨_, subtree_nil _, .ofExt q hc⟩
    | cons i p =>
      obtain ⟨r, hr, hs'⟩ := subtree_ext (by simp) hs
      obtain ⟨t, ht, hv⟩ := ih hs'
      exact ⟨t, by rw [hr, subtree_ext_append _ (by simp [← hr]), ht], hv⟩
  | ofBranch hc ih =>
    intro p s hs
    cases p with
    | nil =>
      obtain rfl : _ = s := by simpa using hs
      exact ⟨_, subtree_nil _, .ofBranch hc⟩
    | cons i p => exact ih i hs
  | _ =>
    intro p s hs
    cases p with
    | nil =>
      obtain rfl : _ = s := by simpa using hs
      exact ⟨_, subtree_nil _, by constructor <;> assumption⟩
    | cons i p => simp [subtree] at hs

/-- The same position of a view and its trie is replaced. -/
theorem View.patch_single {P T : Trie} (h : View E P T) {u u' : Trie} (hu : View E u u') :
    ∀ {p : List Nibble} {s : Trie}, P.subtree p = some s →
      View E (P.patch (single p u)) (T.patch (single p u')) := by
  induction h with
  | @ofExt q c c' hc ih =>
    intro p s hs
    cases p with
    | nil => simpa using hu
    | cons i p =>
      obtain ⟨r, hr, hs'⟩ := subtree_ext (by simp) hs
      rw [hr, patch_single_ext _ _ (by simp [← hr]), patch_single_ext _ _ (by simp [← hr])]
      exact .ofExt q (ih hs')
  | @ofBranch c c' hc ih =>
    intro p s hs
    cases p with
    | nil => simpa using hu
    | cons i p =>
      rw [patch_single_branch, patch_single_branch]
      exact .ofBranch (View.update_congr hc (ih i hs) i)
  | _ =>
    intro p s hs
    cases p with
    | nil => simpa using hu
    | cons i p => simp [subtree] at hs

/-! ## What a view does not show -/

/-- The nodes of the trie below the digests of the view are among the given strings. -/
def Backed (E : Env) (H : Set Bytes) : Trie → Trie → Prop
  | digest _, t => addressed E t ⊆ H
  | ext _ c, ext _ c' => Backed E H c c'
  | branch c, branch c' => ∀ i, Backed E H (c i) (c' i)
  | _, _ => True

variable {H : Set Bytes}

theorem backed_of_resolved {P : Trie} (h : P.Resolved) (T : Trie) : Backed E H P T := by
  induction P generalizing T with
  | digest d => exact h.elim
  | ext p c ih => cases T <;> first | exact ih h _ | trivial
  | branch c ih => cases T <;> first | exact fun i => ih i (h i) _ | trivial
  | _ => trivial

theorem backed_of_addressed {P T : Trie} (h : addressed E T ⊆ H) : Backed E H P T := by
  induction P generalizing T with
  | digest d => exact h
  | ext p c ih => cases T <;> first | exact ih fun b hb => h (.inr hb) | trivial
  | branch c ih => cases T <;> first | exact fun i => ih i fun b hb => h (.inr ⟨i, hb⟩) | trivial
  | _ => trivial

/-- A list node of a view has the encoding of its node in the trie. -/
theorem View.rlp_eq {P T : Trie} (h : View E P T) (hl : isList P) : rlp E P = rlp E T := by
  cases h with
  | ofExt p hc =>
    rename_i c c'
    rw [rlp_of_isList (t := ext p c) trivial, rlp_of_isList (t := ext p c') trivial, payload_ext,
      payload_ext, hc.ref_eq]
  | ofBranch hc =>
    rename_i c c'
    rw [rlp_of_isList (t := branch c) trivial, rlp_of_isList (t := branch c') trivial,
      payload_branch, payload_branch]
    simp only [(hc _).ref_eq]
  | hidden _ => exact hl.elim
  | _ => rfl

/-- Every node of the trie is a node of the view, or one that the view does not show. -/
theorem View.addressed_subset {P T : Trie} (h : View E P T) (hb : Backed E H P T) :
    addressed E T ⊆ addressed E P ∪ H := by
  induction h with
  | hidden h => exact fun b hx => .inr (hb hx)
  | @ofExt p c c' hc ih =>
    rintro b (⟨hx, hlen⟩ | hx)
    · exact .inl (.inl ⟨hx.trans (View.rlp_eq (.ofExt p hc) trivial).symm, hlen⟩)
    · exact (ih hb hx).imp_left .inr
  | @ofBranch c c' hc ih =>
    rintro b (⟨hx, hlen⟩ | ⟨i, hx⟩)
    · exact .inl (.inl ⟨hx.trans (View.rlp_eq (.ofBranch hc) trivial).symm, hlen⟩)
    · exact (ih i (hb i) hx).imp_left fun hx => .inr ⟨i, hx⟩
  | _ => exact fun b hx => .inl hx

theorem Backed.subtree {P T : Trie} (h : Backed E H P T) : ∀ {p : List Nibble} {s t : Trie},
    View E P T → P.subtree p = some s → T.subtree p = some t → Backed E H s t := by
  intro p s t hv
  induction hv generalizing p with
  | @ofExt q c c' hc ih =>
    intro hs ht
    cases p with
    | nil =>
      obtain rfl : _ = s := by simpa using hs
      obtain rfl : _ = t := by simpa using ht
      exact h
    | cons i p =>
      obtain ⟨r, hr, hs'⟩ := subtree_ext (by simp) hs
      rw [hr, subtree_ext_append _ (by simp [← hr])] at ht
      exact ih h hs' ht
  | ofBranch hc ih =>
    intro hs ht
    cases p with
    | nil =>
      obtain rfl : _ = s := by simpa using hs
      obtain rfl : _ = t := by simpa using ht
      exact h
    | cons i p => exact ih i (h i) hs ht
  | _ =>
    intro hs ht
    cases p with
    | nil =>
      obtain rfl : _ = s := by simpa using hs
      obtain rfl : _ = t := by simpa using ht
      exact h
    | cons i p => simp [Radix.subtree] at hs

theorem Backed.update {c c' : Nibble → Trie} (h : ∀ i, Backed E H (c i) (c' i)) {u u' : Trie}
    (hu : Backed E H u u') (i j : Nibble) :
    Backed E H (Function.update c i u j) (Function.update c' i u' j) := by
  by_cases hj : j = i
  · subst hj
    simpa using hu
  · simpa [hj] using h j

theorem Backed.patch_single {P T : Trie} (h : Backed E H P T) {u u' : Trie}
    (hu : Backed E H u u') : ∀ {p : List Nibble} {s : Trie}, View E P T → P.subtree p = some s →
      Backed E H (P.patch (single p u)) (T.patch (single p u')) := by
  intro p s hv
  induction hv generalizing p with
  | @ofExt q c c' hc ih =>
    intro hs
    cases p with
    | nil => simpa using hu
    | cons i p =>
      obtain ⟨r, hr, hs'⟩ := subtree_ext (by simp) hs
      rw [hr, patch_single_ext _ _ (by simp [← hr]), patch_single_ext _ _ (by simp [← hr])]
      exact ih h hs'
  | @ofBranch c c' hc ih =>
    intro hs
    cases p with
    | nil => simpa using hu
    | cons i p =>
      rw [patch_single_branch, patch_single_branch]
      exact Backed.update h (ih i (h i) hs) i
  | _ =>
    intro hs
    cases p with
    | nil => simpa using hu
    | cons i p => simp [Radix.subtree] at hs

theorem Backed.graft {P T : Trie} (h : Backed E H P T) (p : List Nibble) :
    Backed E H (graft p P) (graft p T) := by
  cases p with
  | nil => exact h
  | cons i p => exact h

/-- Insertion leaves what the view does not show where it is. -/
theorem Backed.insert {P T : Trie} (hv : View E P T) (h : Backed E H P T) {key : List Nibble}
    {v : Bytes} {b b' : Bool} {P' T' : Trie} (hP : P.insert key v = .ok (b, P'))
    (hT : T.insert key v = .ok (b', T')) : Backed E H P' T' := by
  induction hv generalizing key b b' P' T' with
  | ofNull => exact backed_of_resolved ((inserted_of_ok hP).resolved trivial) T'
  | ofHole => exact backed_of_resolved ((inserted_of_ok hP).resolved trivial) T'
  | ofLeaf p old => exact backed_of_resolved ((inserted_of_ok hP).resolved trivial) T'
  | hidden _ => simp [Radix.insert] at hP
  | @ofExt p c c' hc ih =>
    rw [Radix.insert] at hP hT
    rcases hsp : split p key with ⟨q, p', q'⟩
    rw [hsp] at hP hT
    cases p' with
    | nil =>
      obtain ⟨⟨b₁, c₁⟩, hc₁, he⟩ := Exec.of_map_ok hP
      obtain ⟨⟨b₂, c₂⟩, hc₂, he'⟩ := Exec.of_map_ok hT
      obtain ⟨_, rfl⟩ := Prod.mk.inj he
      obtain ⟨_, rfl⟩ := Prod.mk.inj he'
      show Backed E H c₁ c₂
      exact ih h hc₁ hc₂
    | cons i p' =>
      cases q' with
      | nil => simp at hP
      | cons j q' =>
        obtain ⟨_, rfl⟩ := Prod.mk.inj (Except.ok.inj hP)
        obtain ⟨_, rfl⟩ := Prod.mk.inj (Except.ok.inj hT)
        have hchild : Backed E H c c' := h
        have hnull : ∀ _ : Nibble, Backed E H null null := fun _ => trivial
        have hleaf : Backed E H (leaf q' v) (leaf q' v) := trivial
        have hfork : Backed E H (fork i (Radix.graft p' c) j (leaf q' v))
            (fork i (Radix.graft p' c') j (leaf q' v)) := fun a =>
          Backed.update (Backed.update hnull (hchild.graft p') i) hleaf j a
        exact hfork.graft q
  | @ofBranch c c' hc ih =>
    cases key with
    | nil => simp [Radix.insert] at hP
    | cons i key =>
      rw [Radix.insert] at hP hT
      obtain ⟨⟨b₁, c₁⟩, hc₁, he⟩ := Exec.of_map_ok hP
      obtain ⟨⟨b₂, c₂⟩, hc₂, he'⟩ := Exec.of_map_ok hT
      obtain ⟨_, rfl⟩ := Prod.mk.inj he
      obtain ⟨_, rfl⟩ := Prod.mk.inj he'
      exact Backed.update h (ih i (h i) hc₁ hc₂) i

/-! ## Insertion at a position -/

/-- Insertion below a position is insertion into the subtree there. -/
theorem insert_subtree {t s s' : Trie} {key : List Nibble} {v : Bytes} {b : Bool}
    (h : s.insert key v = .ok (b, s')) : ∀ {p : List Nibble}, t.subtree p = some s →
      t.insert (p ++ key) v = .ok (b, t.patch (single p s')) := by
  induction t with
  | branch c ih =>
    intro p hs
    cases p with
    | nil =>
      obtain rfl : _ = s := by simpa using hs
      simpa using h
    | cons i p =>
      rw [List.cons_append, Radix.insert, ih i hs, patch_single_branch]
      rfl
  | ext q c ih =>
    intro p hs
    cases p with
    | nil =>
      obtain rfl : _ = s := by simpa using hs
      simpa using h
    | cons i p =>
      obtain ⟨r, hr, hs'⟩ := subtree_ext (by simp) hs
      rw [hr, List.append_assoc, Radix.insert, split_append_left,
        patch_single_ext _ _ (by simp [← hr])]
      simp only [ih hs']
      rfl
  | _ =>
    intro p hs
    cases p with
    | nil =>
      obtain rfl : _ = s := by simpa using hs
      simpa using h
    | cons i p => simp [Radix.subtree] at hs

/-! ## What an arena is known to stand for -/

/-- A partial view of the trie, or only its root hash; what is not shown is among the given
strings. -/
def Known (E : Env) (H : Set Bytes) (P T : Trie) : Prop :=
  (View E P T ∧ Backed E H P T) ∨ (P = digest (Trie.hash E T) ∧ nodes E T ⊆ H)

theorem Stands.known {P T : Trie} (h : Stands E P T) (hT : nodes E T ⊆ H) : Known E H P T := by
  rcases h with hv | rfl
  · exact .inl ⟨hv, backed_of_addressed fun b hb => hT (.inr hb)⟩
  · exact .inr ⟨rfl, hT⟩

theorem Known.hash_eq {P T : Trie} (h : Known E H P T) : Trie.hash E P = Trie.hash E T := by
  rcases h with ⟨hv, _⟩ | ⟨rfl, _⟩
  · exact hv.hash_eq
  · rfl

theorem Known.get_eq {P T : Trie} (h : Known E H P T) {key : List Nibble} {o : Option Bytes}
    (hg : P.get key = .ok o) : T.get key = .ok o := by
  rcases h with ⟨hv, _⟩ | ⟨rfl, _⟩
  · rcases hv.get_cases key with ⟨d, hd⟩ | heq
    · rw [hd] at hg
      cases hg
    · rw [← heq, hg]
  · cases hg

/-- The nodes of the trie are known where those of the view are. -/
theorem View.nodes_subset {P T : Trie} (h : View E P T) (hb : Backed E H P T)
    (hP : nodes E P ⊆ H) : nodes E T ⊆ H := by
  have haddr : addressed E T ⊆ H := fun b hx =>
    (View.addressed_subset h hb hx).elim (fun hx => hP (.inr hx)) id
  rintro b (⟨hl, rfl⟩ | hx)
  · by_cases hlP : isList P
    · exact hP (.inl ⟨hlP, (View.rlp_eq h hlP).symm⟩)
    · refine haddr (mem_addressed_self hl fun hlen => ?_)
      have href := h.ref_eq
      rw [ref_of_isList hl, if_pos hlen] at href
      cases h with
      | hidden _ => cases href
      | ofNull => exact hl
      | ofHole => exact hl
      | ofLeaf p v => exact hlP trivial
      | ofExt p hc => exact hlP trivial
      | ofBranch hc => exact hlP trivial
  · exact haddr hx

/-- What stands at a position of the arena is known, if its nodes are. -/
theorem Known.exists_subtree {P T : Trie} (h : Known E H P T) {p : List Nibble} {s : Trie}
    (hs : P.subtree p = some s) (hH : nodes E s ⊆ H) :
    ∃ t, T.subtree p = some t ∧ Trie.hash E t = Trie.hash E s ∧ nodes E t ⊆ H := by
  rcases h with ⟨hv, hb⟩ | ⟨rfl, hT⟩
  · obtain ⟨t, ht, hvt⟩ := View.exists_subtree hv hs
    exact ⟨t, ht, hvt.hash_eq.symm, View.nodes_subset hvt (hb.subtree hv hs ht) hH⟩
  · cases p with
    | nil =>
      obtain rfl : _ = s := by simpa using hs
      exact ⟨T, subtree_nil T, rfl, hT⟩
    | cons i p => simp [Radix.subtree] at hs

/-- The same position of the arena and of the trie is replaced. -/
theorem Known.patch_single {P T : Trie} (h : Known E H P T) {p : List Nibble} {s u u' : Trie}
    (hs : P.subtree p = some s) (hu : Known E H u u')
    (hp : p ≠ [] → View E u u' ∧ Backed E H u u') :
    Known E H (P.patch (single p u)) (T.patch (single p u')) := by
  by_cases hnil : p = []
  · subst hnil
    simpa using hu
  · obtain ⟨hvu, hbu⟩ := hp hnil
    rcases h with ⟨hv, hb⟩ | ⟨rfl, _⟩
    · exact .inl ⟨View.patch_single hv hvu hs, hb.patch_single hbu hv hs⟩
    · obtain ⟨i, q, rfl⟩ := List.exists_cons_of_ne_nil hnil
      simp [Radix.subtree] at hs

end Mpt
end CenoReth
