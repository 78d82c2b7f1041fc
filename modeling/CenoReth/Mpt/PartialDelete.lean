/-
Deletion on a partial trie.

A branch that is left with one child is replaced by that child under a longer
path.  If the child is missing, its kind is unknown, and the code treats it as a
branch.  `Blind` says when that is wrong: the other child of the branch above the
deleted leaf is missing, and it is a leaf or an extension.
-/
import CenoReth.Mpt.Binding
import CenoReth.Mpt.Partial

namespace CenoReth
namespace Trie

open Patricia Patricia.Radix

variable {E : Env}

/-- A missing node that a path would have to be merged with. -/
def HidesPath : Trie → Trie → Prop
  | digest _, leaf _ _ => True
  | digest _, ext _ _ => True
  | _, _ => False

/-- Deleting `key` from the partial view `P` of `T` leaves a branch with one child, which
is missing in `P` and is not a branch in `T`. -/
def Blind : Trie → Trie → List Nibble → Prop
  | branch c, branch c', i :: key =>
    Blind (c i) (c' i) key ∨
      (∃ v, c i = leaf key v) ∧
        ∃ j, j ≠ i ∧ (∀ l, l ≠ i → l ≠ j → c l = null) ∧ HidesPath (c j) (c' j)
  | ext p c, ext _ c', key => ∃ tail, key = p ++ tail ∧ Blind c c' tail
  | _, _, _ => False

/-- The two results of a blind deletion: the path of one ends too early. -/
inductive Slip (E : Env) : Trie → Trie → Prop
  | onLeaf (q p : List Nibble) (d : B256) (v : Bytes) :
      Slip E (ext q (digest d)) (leaf (q ++ p) v)
  | onExt (q : List Nibble) {p : List Nibble} (hp : p ≠ []) (d : B256) (c : Trie) :
      Slip E (ext q (digest d)) (ext (q ++ p) c)
  | under (p : List Nibble) {c c' : Trie} (h : Slip E c c') : Slip E (ext p c) (ext p c')
  | child {c c' : Nibble → Trie} (i : Nibble) (h : Slip E (c i) (c' i)) :
      Slip E (branch c) (branch c')

theorem Slip.not_view {P T : Trie} (h : Slip E P T) : ¬ View E P T := by
  induction h with
  | onLeaf q p d v => rintro ⟨⟩
  | @onExt q p hp d c =>
    intro hv
    generalize hq : q ++ p = r at hv
    cases hv with
    | ofExt _ _ => exact hp (List.append_right_eq_self.mp hq)
  | under p _ ih =>
    intro hv
    cases hv with
    | ofExt _ hc => exact ih hc
  | child i _ ih =>
    intro hv
    cases hv with
    | ofBranch hc => exact ih (hc i)

theorem Slip.extend_extend {P T : Trie} (h : Slip E P T) (p : List Nibble) :
    Slip E (extend p P) (extend p T) := by
  cases h with
  | onLeaf q p' d v =>
    simp only [extend_ext, extend_leaf, ← List.append_assoc]
    exact .onLeaf _ _ d v
  | onExt q hp d c =>
    simp only [extend_ext, ← List.append_assoc]
    exact .onExt _ hp d c
  | under q h => exact .under _ h
  | child i h => exact .under p (.child i h)

/-! ## Collapsing a view -/

/-- A view of a normal trie is normal. -/
theorem View.normal {P T : Trie} (h : View E P T) (hT : T.Normal) : P.Normal := by
  induction h with
  | ofNull => trivial
  | ofHole => exact hT
  | ofLeaf p v => trivial
  | hidden h => trivial
  | ofExt p hc ih =>
    refine ⟨hT.1, ?_, ih hT.2.2⟩
    have hb := hT.2.1
    cases hc with
    | hidden h => trivial
    | _ => exact hb
  | @ofBranch c c' hc ih =>
    refine ⟨?_, fun i => ih i (hT.2 i)⟩
    obtain ⟨a, b, hab, ha, hb⟩ := exists_two_of_le hT.1
    exact two_le_occupied hab (fun e => ha ((hc a).null_iff.mp e)) fun e => hb ((hc b).null_iff.mp e)

theorem View.extend_congr {P T : Trie} (h : View E P T) (hh : ¬ HidesPath P T)
    (p : List Nibble) : View E (extend p P) (extend p T) := by
  cases h with
  | ofNull => exact .ofNull
  | ofHole => exact .ofNull
  | ofLeaf q v => exact .ofLeaf _ v
  | ofExt q hc => exact .ofExt _ hc
  | ofBranch hc => exact .ofExt p (.ofBranch hc)
  | @hidden T d h =>
    cases T with
    | null => simp at h
    | hole => simp at h
    | leaf q v => exact absurd trivial hh
    | ext q c => exact absurd trivial hh
    | branch c => exact .ofExt p (.hidden h)
    | digest d' => exact .ofExt p (.hidden h)

theorem slip_of_hidesPath {P T : Trie} (h : HidesPath P T) (hT : T.Normal) (j : Nibble) :
    Slip E (extend [j] P) (extend [j] T) := by
  cases P with
  | digest d =>
    cases T with
    | leaf q v => exact .onLeaf [j] q d v
    | ext q c => exact .onExt [j] hT.1 d c
    | _ => exact h.elim
  | _ => cases T <;> exact h.elim

theorem HidesPath.ne_null {P T : Trie} (h : HidesPath P T) : P ≠ null := by
  rintro rfl
  cases T <;> exact h

/-- All children but one are gone, and the one that is left is hidden. -/
def Hidden (c c' : Nibble → Trie) : Prop :=
  ∃ j, (∀ l, l ≠ j → c l = null) ∧ HidesPath (c j) (c' j)

theorem occupied_eq_of_view {c c' : Nibble → Trie} (h : ∀ i, View E (c i) (c' i)) :
    occupied c = occupied c' := by
  unfold occupied
  congr 1
  funext i
  rw [Bool.not_eq_eq_eq_not, Bool.not_not, Bool.eq_iff_iff, isNull_iff, isNull_iff, (h i).null_iff]

/-- Collapsing a node keeps the view unless the last child is hidden. -/
theorem collapse_view {c c' : Nibble → Trie} (h : ∀ i, View E (c i) (c' i))
    (hn : ∀ i, (c' i).Normal) :
    (¬ Hidden c c' ∧ View E (collapse c) (collapse c')) ∨
      (Hidden c c' ∧ Slip E (collapse c) (collapse c')) := by
  have hocc := occupied_eq_of_view h
  rcases occupied_cases c with ⟨_, hc⟩ | ⟨j, _, hj, hc⟩ | hc
  · refine .inl ⟨fun ⟨j, _, hj⟩ => hj.ne_null (hc j), ?_⟩
    rw [collapse_none hc, collapse_none fun i => (h i).null_iff.mp (hc i)]
    exact .ofNull
  · have hj' : c' j ≠ null := fun e => hj ((h j).null_iff.mpr e)
    rw [collapse_one hj hc, collapse_one hj' fun i hi => (h i).null_iff.mp (hc i hi)]
    by_cases hh : HidesPath (c j) (c' j)
    · exact .inr ⟨⟨j, hc, hh⟩, slip_of_hidesPath hh (hn j) j⟩
    · refine .inl ⟨fun ⟨l, hl, hhl⟩ => ?_, (h j).extend_congr hh [j]⟩
      by_cases hlj : l = j
      · exact hh (hlj ▸ hhl)
      · exact hhl.ne_null (hc l hlj)
  · refine .inl ⟨fun ⟨j, hj, _⟩ => ?_, ?_⟩
    · obtain ⟨a, b, hab, ha, hb⟩ := exists_two_of_le hc
      by_cases haj : a = j
      · exact hb (hj b fun e => hab (haj.trans e.symm))
      · exact ha (hj a haj)
    · rw [collapse_many hc, collapse_many (hocc ▸ hc)]
      exact .ofBranch h

/-! ## Deletion from a normal trie -/

theorem delete_branch {c : Nibble → Trie} (hn : (branch c).Normal) (i : Nibble)
    (key : List Nibble) : (branch c).delete (i :: key) = ((c i).delete key).map fun r =>
      if r.1 then (true, collapse (Function.update c i r.2)) else (false, branch c) := by
  rw [← collapse_many hn.1]
  exact delete_collapse hn.2 i key

/-- What deletion from an extension returns. -/
theorem delete_ext {p : List Nibble} {c t' : Trie} {key : List Nibble} {b : Bool}
    (h : (ext p c).delete key = .ok (b, t')) :
    (b = false ∧ t' = ext p c) ∨
      b = true ∧ ∃ tail r, key = p ++ tail ∧ c.delete tail = .ok (true, r) ∧ t' = extend p r := by
  rw [Radix.delete] at h
  cases hs : stripPrefix p key with
  | none =>
    simp only [hs, Except.ok.injEq, Prod.mk.injEq] at h
    exact .inl ⟨h.1.symm, h.2.symm⟩
  | some tail =>
    rcases hc : c.delete tail with e | ⟨_ | _, r⟩
    · simp [hs, hc, Except.map] at h
    · simp only [hs, hc, Except.map, Except.ok.injEq, Bool.false_eq_true, if_false,
        Prod.mk.injEq] at h
      exact .inl ⟨h.1.symm, h.2.symm⟩
    · simp only [hs, hc, Except.map, Except.ok.injEq, if_true, Prod.mk.injEq] at h
      exact .inr ⟨h.1.symm, tail, r, stripPrefix_eq_some.mp hs, hc, h.2.symm⟩

/-- What deletion from a normal branch returns. -/
theorem delete_branch_ok {c : Nibble → Trie} (hn : (branch c).Normal) {i : Nibble}
    {key : List Nibble} {b : Bool} {t' : Trie} (h : (branch c).delete (i :: key) = .ok (b, t')) :
    (b = false ∧ t' = branch c) ∨
      b = true ∧ ∃ r, (c i).delete key = .ok (true, r) ∧ t' = collapse (Function.update c i r) := by
  rw [delete_branch hn] at h
  rcases hc : (c i).delete key with e | ⟨_ | _, r⟩
  · simp [hc, Except.map] at h
  · simp only [hc, Except.map, Except.ok.injEq, Bool.false_eq_true, if_false, Prod.mk.injEq] at h
    exact .inl ⟨h.1.symm, h.2.symm⟩
  · simp only [hc, Except.map, Except.ok.injEq, if_true, Prod.mk.injEq] at h
    exact .inr ⟨h.1.symm, r, rfl, h.2.symm⟩

theorem normal_extend_of_ne {p : List Nibble} (hp : p ≠ []) {t : Trie} (h : t.Normal) :
    (extend p t).Normal := by
  cases t <;> simp_all [extend, Radix.Normal, isBranching]

/-- Deletion keeps the normal form. -/
theorem normal_delete {t t' : Trie} {key : List Nibble} {b : Bool} (hn : t.Normal)
    (h : t.delete key = .ok (b, t')) : t'.Normal := by
  induction t generalizing key b t' with
  | null =>
    simp only [Radix.delete, Except.ok.injEq, Prod.mk.injEq] at h
    exact h.2 ▸ hn
  | hole => exact absurd rfl hn.ne_hole
  | digest d => simp [Radix.delete] at h
  | leaf p v =>
    rw [Radix.delete] at h
    split at h <;> simp only [Except.ok.injEq, Prod.mk.injEq] at h <;> rw [← h.2] <;> trivial
  | ext p c ih =>
    rcases delete_ext h with ⟨_, rfl⟩ | ⟨_, tail, r, _, hr, rfl⟩
    · exact hn
    · exact normal_extend_of_ne hn.1 (ih hn.2.2 hr)
  | branch c ih =>
    cases key with
    | nil => simp [Radix.delete] at h
    | cons i key =>
      rcases delete_branch_ok hn h with ⟨_, rfl⟩ | ⟨_, r, hr, rfl⟩
      · exact hn
      · refine normal_collapse fun j => ?_
        by_cases hj : j = i
        · subst hj
          simpa using ih j (hn.2 j) hr
        · simpa [hj] using hn.2 j

/-- Deletion leaves no digest at the root. -/
theorem delete_ne_digest {t t' : Trie} {key : List Nibble} (hn : t.Normal)
    (h : t.delete key = .ok (true, t')) (d : B256) : t' ≠ digest d := by
  cases t with
  | null => simp [Radix.delete] at h
  | hole => exact absurd rfl hn.ne_hole
  | digest d => simp [Radix.delete] at h
  | leaf p v =>
    rw [Radix.delete] at h
    split at h <;> simp only [Except.ok.injEq, Prod.mk.injEq] at h
    · simp [← h.2]
    · simp at h
  | ext p c =>
    rcases delete_ext h with ⟨hb, _⟩ | ⟨_, tail, r, _, _, rfl⟩
    · simp at hb
    · cases r <;> simp [extend]
  | branch c =>
    cases key with
    | nil => simp [Radix.delete] at h
    | cons i key =>
      rcases delete_branch_ok hn h with ⟨hb, _⟩ | ⟨_, r, _, rfl⟩
      · simp at hb
      · exact collapse_ne_digest _ d

/-- A branch keeps a child. -/
theorem exists_other_child {c : Nibble → Trie} (h : 2 ≤ (occupied c).length) (i : Nibble) :
    ∃ a, a ≠ i ∧ c a ≠ null := by
  obtain ⟨a, b, hab, ha, hb⟩ := exists_two_of_le h
  by_cases hai : a = i
  · exact ⟨b, fun hbi => hab (hai.trans hbi.symm), hb⟩
  · exact ⟨a, hai, ha⟩

theorem normal_update {c : Nibble → Trie} {i : Nibble} {t : Trie} (hc : ∀ i, (c i).Normal)
    (ht : t.Normal) (j : Nibble) : (Function.update c i t j).Normal := by
  by_cases hj : j = i
  · subst hj
    simpa using ht
  · simpa [hj] using hc j

theorem delete_branch_ne_null {c : Nibble → Trie} (hn : (branch c).Normal) {key : List Nibble} :
    (branch c).delete key ≠ .ok (true, null) := by
  intro h
  cases key with
  | nil => simp [Radix.delete] at h
  | cons i key =>
    rcases delete_branch_ok hn h with ⟨hb, _⟩ | ⟨_, r, hr, heq⟩
    · simp at hb
    · obtain ⟨a, ha, hac⟩ := exists_other_child hn.1 i
      exact collapse_ne_null (normal_update hn.2 (normal_delete (hn.2 i) hr)) (i := a)
        (by simpa [ha] using hac) heq.symm

/-- Only the deletion of the last key empties a trie. -/
theorem delete_eq_null {t : Trie} {key : List Nibble} (hn : t.Normal)
    (h : t.delete key = .ok (true, null)) : ∃ v, t = leaf key v := by
  cases t with
  | null => simp [Radix.delete] at h
  | hole => exact absurd rfl hn.ne_hole
  | digest d => simp [Radix.delete] at h
  | leaf p v =>
    rw [Radix.delete] at h
    split at h
    · rename_i hp
      exact ⟨v, by rw [hp]⟩
    · simp at h
  | ext p c =>
    rcases delete_ext h with ⟨hb, _⟩ | ⟨_, tail, r, _, hr, heq⟩
    · simp at hb
    · have hrn := normal_delete hn.2.2 hr
      have hr0 : r = null := by_contra fun hne => extend_ne_null hrn hne heq.symm
      subst hr0
      have hb := hn.2.1
      cases c with
      | branch c => exact absurd hr (delete_branch_ne_null hn.2.2)
      | digest d => simp [Radix.delete] at hr
      | _ => exact hb.elim
  | branch c => exact absurd h (delete_branch_ne_null hn)

/-! ## Deletion from a view -/

/-- How deletion from a view compares with deletion from the trie. -/
inductive DeleteCases (E : Env) (P T : Trie) (key : List Nibble) : Prop
  | missing (d : B256) (hP : P.delete key = .error (.unresolved d)) (hb : ¬ Blind P T key)
  | short (hP : P.delete key = .error .branchValue) (hT : T.delete key = .error .branchValue)
      (hb : ¬ Blind P T key)
  | absent (hP : P.delete key = .ok (false, P)) (hT : T.delete key = .ok (false, T))
      (hb : ¬ Blind P T key)
  | seen {P' T' : Trie} (hP : P.delete key = .ok (true, P')) (hT : T.delete key = .ok (true, T'))
      (hb : ¬ Blind P T key) (hv : View E P' T')
  | blind {P' T' : Trie} (hP : P.delete key = .ok (true, P')) (hT : T.delete key = .ok (true, T'))
      (hb : Blind P T key) (hs : Slip E P' T')

theorem delete_ext_append (p tail : List Nibble) (c : Trie) :
    (ext p c).delete (p ++ tail) = (c.delete tail).map fun r =>
      if r.1 then (true, extend p r.2) else (false, ext p c) := by
  rw [Radix.delete, stripPrefix_append]

theorem blind_ext {p tail : List Nibble} {c c' : Trie} :
    Blind (ext p c) (ext p c') (p ++ tail) ↔ Blind c c' tail := by
  constructor
  · rintro ⟨tail', ht, hb⟩
    rwa [List.append_cancel_left ht]
  · exact fun hb => ⟨tail, rfl, hb⟩

/-- A deletion that finds nothing is not blind at its own branch. -/
theorem not_blind_branch {c c' : Nibble → Trie} {i : Nibble} {key : List Nibble}
    (hb : ¬ Blind (c i) (c' i) key) (h : ∀ t', (c i).delete key ≠ .ok (true, t')) :
    ¬ Blind (branch c) (branch c') (i :: key) := by
  rintro (hb' | ⟨⟨v, hv⟩, _⟩)
  · exact hb hb'
  · exact h null (by simp [hv, Radix.delete])

/-- Blindness at a branch, seen from the children that are left. -/
theorem hidden_update_iff {c c' : Nibble → Trie} (hn : (branch c).Normal) {i : Nibble}
    {key : List Nibble} {r r' : Trie} (hr : (c i).delete key = .ok (true, r)) :
    Hidden (Function.update c i r) (Function.update c' i r') ↔
      (∃ v, c i = leaf key v) ∧
        ∃ j, j ≠ i ∧ (∀ l, l ≠ i → l ≠ j → c l = null) ∧ HidesPath (c j) (c' j) := by
  constructor
  · rintro ⟨j, hl, hh⟩
    have hji : j ≠ i := by
      rintro rfl
      simp only [Function.update_self] at hh
      cases r with
      | digest d => exact delete_ne_digest (hn.2 j) hr d rfl
      | _ => cases r' <;> exact hh.elim
    have hr0 : r = null := by simpa using hl i hji.symm
    refine ⟨delete_eq_null (hn.2 i) (hr0 ▸ hr), j, hji, fun l hli hlj => ?_, ?_⟩
    · simpa [hli] using hl l hlj
    · simpa [hji] using hh
  · rintro ⟨⟨v, hv⟩, j, hji, hl, hh⟩
    have hr0 : r = null := by
      rw [hv, Radix.delete, if_pos rfl] at hr
      simpa using hr.symm
    refine ⟨j, fun l hlj => ?_, by simpa [hji] using hh⟩
    by_cases hli : l = i
    · subst hli
      simpa using hr0
    · simpa [hli] using hl l hli hlj

theorem View.delete_cases {P T : Trie} (h : View E P T) (hn : T.Normal) (key : List Nibble) :
    DeleteCases E P T key := by
  induction h generalizing key with
  | ofNull => exact .absent rfl rfl id
  | ofHole => exact .absent rfl rfl id
  | hidden h => exact .missing _ rfl (by simp [Blind])
  | ofLeaf p v =>
    by_cases hp : p = key
    · have hdel : (leaf p v : Trie).delete key = .ok (true, null) := by simp [Radix.delete, hp]
      exact .seen hdel hdel (by simp [Blind]) .ofNull
    · exact .absent (by simp [Radix.delete, hp]) (by simp [Radix.delete, hp]) (by simp [Blind])
  | @ofExt p c c' hc ih =>
    cases hs : stripPrefix p key with
    | none =>
      refine .absent (by simp [Radix.delete, hs]) (by simp [Radix.delete, hs]) ?_
      rintro ⟨tail, rfl, _⟩
      simp at hs
    | some tail =>
      obtain rfl := stripPrefix_eq_some.mp hs
      cases ih hn.2.2 tail with
      | missing d hP hb =>
        exact .missing d (by rw [delete_ext_append, hP]; rfl) fun h => hb (blind_ext.mp h)
      | short hP hT hb =>
        exact .short (by rw [delete_ext_append, hP]; rfl) (by rw [delete_ext_append, hT]; rfl)
          fun h => hb (blind_ext.mp h)
      | absent hP hT hb =>
        exact .absent (by rw [delete_ext_append, hP]; rfl) (by rw [delete_ext_append, hT]; rfl)
          fun h => hb (blind_ext.mp h)
      | @seen P' T' hP hT hb hv =>
        refine .seen (by rw [delete_ext_append, hP]; rfl) (by rw [delete_ext_append, hT]; rfl)
          (fun h => hb (blind_ext.mp h)) (hv.extend_congr ?_ p)
        have hd := delete_ne_digest (hc.normal hn.2.2) hP
        cases P' with
        | digest d => exact absurd rfl (hd d)
        | _ => cases T' <;> exact id
      | blind hP hT hb hs =>
        exact .blind (by rw [delete_ext_append, hP]; rfl) (by rw [delete_ext_append, hT]; rfl)
          (blind_ext.mpr hb) (hs.extend_extend p)
  | @ofBranch c c' hc ih =>
    have hnP : (branch c).Normal := (View.ofBranch hc).normal hn
    cases key with
    | nil => exact .short rfl rfl id
    | cons i key =>
      cases ih i (hn.2 i) key with
      | missing d hP hb =>
        exact .missing d (by rw [delete_branch hnP, hP]; rfl)
          (not_blind_branch hb (by simp [hP]))
      | short hP hT hb =>
        exact .short (by rw [delete_branch hnP, hP]; rfl) (by rw [delete_branch hn, hT]; rfl)
          (not_blind_branch hb (by simp [hP]))
      | absent hP hT hb =>
        exact .absent (by rw [delete_branch hnP, hP]; rfl) (by rw [delete_branch hn, hT]; rfl)
          (not_blind_branch hb (by simp [hP]))
      | @seen P' T' hP hT hb hv =>
        have hcv := collapse_view (View.update_congr hc hv i)
          (normal_update hn.2 (normal_delete (hn.2 i) hT))
        rw [hidden_update_iff hnP hP] at hcv
        rcases hcv with ⟨hh, hview⟩ | ⟨hh, hslip⟩
        · exact .seen (by rw [delete_branch hnP, hP]; rfl) (by rw [delete_branch hn, hT]; rfl)
            (fun h => h.elim hb hh) hview
        · exact .blind (by rw [delete_branch hnP, hP]; rfl) (by rw [delete_branch hn, hT]; rfl)
            (.inr hh) hslip
      | @blind P' T' hP hT hb hs =>
        have hP0 : P' ≠ null := by rintro rfl; cases hs
        have hT0 : T' ≠ null := by rintro rfl; cases hs
        refine .blind (by rw [delete_branch hnP, hP]; rfl) (by rw [delete_branch hn, hT]; rfl)
          (.inl hb) ?_
        simp only
        rw [collapse_many (two_le_occupied_update hnP.1 hP0),
          collapse_many (two_le_occupied_update hn.1 hT0)]
        exact .child i (by simpa using hs)

/-! ## What deletion keeps -/

theorem Slip.isList {P T : Trie} (h : Slip E P T) : isList P ∧ isList T := by
  cases h <;> exact ⟨trivial, trivial⟩

theorem Normal.noHole {t : Trie} (h : t.Normal) : NoHole t := by
  induction t with
  | hole => exact h
  | ext p c ih => exact ih h.2.2
  | branch c ih => exact fun i => ih i (h.2 i)
  | _ => trivial

theorem View.sized {P T : Trie} (h : View E P T) {n : Nat} (hT : T.Sized n) : P.Sized n := by
  induction h generalizing n with
  | ofExt p _ ih => exact ⟨hT.1, ih hT.2⟩
  | ofBranch _ ih => exact ⟨hT.1, fun i => ih i (hT.2 i)⟩
  | hidden h => trivial
  | _ => exact hT

/-- Every stored value has the property. -/
def AllValues (Q : Bytes → Prop) : Trie → Prop
  | leaf _ v => Q v
  | ext _ c => AllValues Q c
  | branch c => ∀ i, AllValues Q (c i)
  | _ => True

theorem View.allValues {Q : Bytes → Prop} {P T : Trie} (h : View E P T) (hT : AllValues Q T) :
    AllValues Q P := by
  induction h with
  | ofExt p _ ih => exact ih hT
  | ofBranch _ ih => exact fun i => ih i (hT i)
  | hidden h => trivial
  | _ => exact hT

theorem allValues_extend {Q : Bytes → Prop} {t : Trie} (h : AllValues Q t) (p : List Nibble) :
    AllValues Q (extend p t) := by
  cases t <;> exact h

theorem allValues_collapse {Q : Bytes → Prop} {c : Nibble → Trie} (h : ∀ i, AllValues Q (c i)) :
    AllValues Q (collapse c) := by
  rcases occupied_cases c with ⟨_, hc⟩ | ⟨j, _, hj, hc⟩ | hc
  · rw [collapse_none hc]
    trivial
  · rw [collapse_one hj hc]
    exact allValues_extend (h j) [j]
  · rw [collapse_many hc]
    exact h

theorem allValues_delete {Q : Bytes → Prop} {t t' : Trie} {key : List Nibble} {b : Bool}
    (hn : t.Normal) (hq : AllValues Q t) (h : t.delete key = .ok (b, t')) : AllValues Q t' := by
  induction t generalizing key b t' with
  | null =>
    simp only [Radix.delete, Except.ok.injEq, Prod.mk.injEq] at h
    exact h.2 ▸ hq
  | hole => exact absurd rfl hn.ne_hole
  | digest d => simp [Radix.delete] at h
  | leaf p v =>
    rw [Radix.delete] at h
    split at h <;> simp only [Except.ok.injEq, Prod.mk.injEq] at h <;> rw [← h.2]
    · trivial
    · exact hq
  | ext p c ih =>
    rcases delete_ext h with ⟨_, rfl⟩ | ⟨_, tail, r, _, hr, rfl⟩
    · exact hq
    · exact allValues_extend (ih hn.2.2 hq hr) p
  | branch c ih =>
    cases key with
    | nil => simp [Radix.delete] at h
    | cons i key =>
      rcases delete_branch_ok hn h with ⟨_, rfl⟩ | ⟨_, r, hr, rfl⟩
      · exact hq
      · refine allValues_collapse fun j => ?_
        by_cases hj : j = i
        · subst hj
          simpa using ih j (hn.2 j) (hq j) hr
        · simpa [hj] using hq j

theorem sized_delete {n : Nat} {t t' : Trie} {key : List Nibble} {b : Bool} (hn : t.Normal)
    (hs : t.Sized n) (hk : key.length = n) (h : t.delete key = .ok (b, t')) : t'.Sized n := by
  obtain ⟨s, rfl⟩ := exists_compress t hn hs
  rw [Sparse.delete_compress s hk] at h
  cases hg : s.get key with
  | error e => simp [hg, Except.map] at h
  | ok o =>
    simp only [hg, Except.map, Except.ok.injEq, Prod.mk.injEq] at h
    rw [← h.2]
    exact Sparse.sized_compress _

/-- Short keys and short values make short strings. -/
theorem fits_of_sized {n : Nat} {t : Trie} (hs : t.Sized n) (hn : n < 2 ^ 64)
    (hv : AllValues (fun v => v.length < 2 ^ 64) t) : Fits t := by
  induction t generalizing n with
  | leaf p v =>
    have hp : p.length = n := hs
    refine ⟨?_, hv⟩
    rw [Hp.length_encode]
    omega
  | ext p c ih =>
    have hp := hs.1
    refine ⟨?_, ih hs.2 (by omega) hv⟩
    rw [Hp.length_encode]
    omega
  | branch c ih => exact fun i => ih i (hs.2 i) (by omega) (hv i)
  | _ => trivial

/-- Only a key of the right length can be deleted blindly. -/
theorem length_of_blind {P T : Trie} {key : List Nibble} {n : Nat} (h : Blind P T key)
    (hs : P.Sized n) : key.length = n := by
  induction P generalizing T key n with
  | branch c ih =>
    cases T with
    | branch c' =>
      cases key with
      | nil => exact h.elim
      | cons i key =>
        have hpos := hs.1
        rcases h with hb | ⟨⟨v, hv⟩, _⟩
        · have := ih i hb (hs.2 i)
          simp only [List.length_cons]
          omega
        · have hi := hs.2 i
          rw [hv] at hi
          have hlen : key.length = n - 1 := hi
          simp only [List.length_cons]
          omega
    | _ => cases key <;> exact h.elim
  | ext p c ih =>
    cases T with
    | ext q c' =>
      obtain ⟨tail, rfl, hb⟩ := h
      have := ih hb hs.2
      have hle := hs.1
      rw [List.length_append]
      omega
    | _ => exact h.elim
  | _ => exact h.elim

end Trie

namespace Mpt

open Patricia Patricia.Radix Trie

variable {E : Env}

theorem resolved_delete {n : Nat} {t t' : Trie} (h : IsTrie n t) {key : List Nibble}
    (hk : key.length = n) {b : Bool} (hd : t.delete key = .ok (b, t')) : t'.Resolved := by
  obtain ⟨s, rfl⟩ := isTrie_iff.mp h
  rw [delete_canonical s hk] at hd
  simp only [Except.ok.injEq, Prod.mk.injEq] at hd
  rw [← hd.2]
  exact resolved_canonical n _

theorem delete_of_view {t t' : Trie} {m m' : Mpt} {key : Bytes} {b b' : Bool}
    (hr : Represents E m t) (ht : t.delete (Hp.keyNibs key) = .ok (b, t'))
    (hm : delete key m = (.ok b', m')) : b' = b ∧ Represents E m' t' := by
  obtain ⟨m₁, h₁, hr₁⟩ := deleteNibbles_spec hr ht
  rw [Hp.map_toByte_keyNibs] at h₁
  obtain ⟨rfl, rfl⟩ : b = b' ∧ m₁ = m' := by simpa [delete, h₁] using hm
  exact ⟨rfl, hr₁⟩

/-- Deletion on a partial trie agrees with deletion on the full trie exactly when it is not
blind.  The hash function is assumed not to collide on the nodes of the two results. -/
theorem delete_partial_iff (E : Env) {n : Nat} {P T : Trie} {mP mT : Mpt} (hn : n < 2 ^ 63)
    (hT : IsTrie (2 * n) T) (hvals : AllValues (fun v => v.length < 2 ^ 64) T)
    (hv : View E P T) (hrP : Represents E mP P) (hrT : Represents E mT T) (key : Bytes)
    (hinj : ∀ P' T', P.delete (Hp.keyNibs key) = .ok (true, P') →
      T.delete (Hp.keyNibs key) = .ok (true, T') →
      Set.InjOn E.keccak256 (hashed E P' ∪ hashed E T')) :
    (∀ b mP', delete key mP = (.ok b, mP') →
      ∃ mT', delete key mT = (.ok b, mT') ∧ (hash E mP').1 = (hash E mT').1) ↔
      ¬ Blind P T (Hp.keyNibs key) := by
  have hcase := hv.delete_cases hT.normal (Hp.keyNibs key)
  constructor
  · intro h hb
    have hsP := hv.sized hT.sized
    have hnP := hv.normal hT.normal
    have hk := length_of_blind hb hsP
    cases hcase with
    | @blind P' T' hdP hdT _ hs =>
      obtain ⟨mP', hmP', hrP'⟩ := deleteNibbles_spec hrP hdP
      rw [Hp.map_toByte_keyNibs] at hmP'
      obtain ⟨mT', hmT', hhash⟩ := h true mP' hmP'
      obtain ⟨_, hrT'⟩ := delete_of_view hrT hdT hmT'
      obtain ⟨_, hhP, _⟩ := hash_represents hrP'
      obtain ⟨_, hhT, _⟩ := hash_represents hrT'
      have heq : Trie.hash E P' = Trie.hash E T' := by simpa [hhP, hhT] using hhash
      have hfP := fits_of_sized (sized_delete hnP hsP hk hdP) (by omega)
        (allValues_delete hnP (hv.allValues hvals) hdP)
      have hfT := fits_of_sized (sized_delete hT.normal hT.sized hk hdT) (by omega)
        (allValues_delete hT.normal hvals hdT)
      exact hs.not_view (view_of_hash hs.isList.1 hs.isList.2
        (Normal.noHole (normal_delete hnP hdP)) (resolved_delete hT hk hdT)
        (Normal.noHole (normal_delete hT.normal hdT)) hfP hfT (hinj P' T' hdP hdT) heq)
    | missing _ _ hb' => exact hb' hb
    | short _ _ hb' => exact hb' hb
    | absent _ _ hb' => exact hb' hb
    | seen _ _ hb' _ => exact hb' hb
  · intro hb b mP' hmP'
    have herr : ∀ f, P.delete (Hp.keyNibs key) = .error f → f ≠ .stuck → False := by
      intro f hf hne
      have := deleteNibbles_error hrP hf hne
      rw [Hp.map_toByte_keyNibs] at this
      simp [delete, this] at hmP'
    cases hcase with
    | missing d hP _ => exact (herr _ hP (by simp)).elim
    | short hP _ _ => exact (herr _ hP (by simp)).elim
    | absent hdP hdT _ =>
      obtain ⟨rfl, hrP'⟩ := delete_of_view hrP hdP hmP'
      obtain ⟨mT', hmT', hrT'⟩ := deleteNibbles_spec hrT hdT
      rw [Hp.map_toByte_keyNibs] at hmT'
      exact ⟨mT', hmT', hash_of_view hv hrP' hrT'⟩
    | seen hdP hdT _ hv' =>
      obtain ⟨rfl, hrP'⟩ := delete_of_view hrP hdP hmP'
      obtain ⟨mT', hmT', hrT'⟩ := deleteNibbles_spec hrT hdT
      rw [Hp.map_toByte_keyNibs] at hmT'
      exact ⟨mT', hmT', hash_of_view hv' hrP' hrT'⟩
    | blind _ _ hb' _ => exact absurd hb' hb

/-- The second leaf of the sample is deleted while the first one is missing: the partial
trie ends with an extension, the full trie with a leaf. -/
theorem delete_partial_sample :
    IsTrie 2 sampleTrie ∧ View sampleEnv samplePartial sampleTrie ∧
    Represents sampleEnv (sampleArena (.digest sampleDigest.bytes)) samplePartial ∧
    Represents sampleEnv (sampleArena (.leaf (Hp.encode [2] true) sampleValue)) sampleTrie ∧
    ∃ mP', delete [0x23] (sampleArena (.digest sampleDigest.bytes)) = (.ok true, mP') ∧
      ¬ ∃ mT', delete [0x23] (sampleArena (.leaf (Hp.encode [2] true) sampleValue)) =
          (.ok true, mT') ∧ (hash sampleEnv mP').1 = (hash sampleEnv mT').1 := by
  refine ⟨isTrie_sampleTrie, view_samplePartial, represents_samplePartial, represents_sampleTrie,
    (delete [0x23] (sampleArena (.digest sampleDigest.bytes))).2, ?_, ?_⟩
  · exact Prod.ext (by decide) rfl
  · rintro ⟨mT', hmT', hhash⟩
    have hT : mT' = (delete [0x23] (sampleArena (.leaf (Hp.encode [2] true) sampleValue))).2 := by
      rw [hmT']
    subst hT
    revert hhash
    decide

theorem delete_samplePartial :
    samplePartial.delete (Hp.keyNibs [0x23]) = .ok (true, ext [1] (digest sampleDigest)) := by
  rfl

theorem delete_sampleTrie :
    sampleTrie.delete (Hp.keyNibs [0x23]) = .ok (true, leaf [1, 2] sampleValue) := by
  rfl

/-- Two nodes without hash-addressed children. -/
theorem injOn_pair {E : Env} {t u : Trie} (ht : ∀ b ∈ addressed E t, b = rlp E t)
    (hu : ∀ b ∈ addressed E u, b = rlp E u) (hne : E.keccak256 (rlp E t) ≠ E.keccak256 (rlp E u)) :
    Set.InjOn E.keccak256 (hashed E t ∪ hashed E u) := by
  have hmem : ∀ b ∈ hashed E t ∪ hashed E u, b = rlp E t ∨ b = rlp E u := by
    rintro b ((h | h) | (h | h))
    · exact .inl h
    · exact .inl (ht b h)
    · exact .inr h
    · exact .inr (hu b h)
  intro a ha b hb hab
  rcases hmem a ha with rfl | rfl <;> rcases hmem b hb with rfl | rfl
  · rfl
  · exact absurd hab hne
  · exact absurd hab.symm hne
  · rfl

theorem sample_injOn (P' T' : Trie)
    (hP : samplePartial.delete (Hp.keyNibs [0x23]) = .ok (true, P'))
    (hT : sampleTrie.delete (Hp.keyNibs [0x23]) = .ok (true, T')) :
    Set.InjOn sampleEnv.keccak256 (hashed sampleEnv P' ∪ hashed sampleEnv T') := by
  obtain rfl : ext [1] (digest sampleDigest) = P' := by simpa [delete_samplePartial] using hP
  obtain rfl : leaf [1, 2] sampleValue = T' := by simpa [delete_sampleTrie] using hT
  refine injOn_pair ?_ ?_ (by decide)
  · rintro b (h | h)
    · exact h.1
    · exact h.elim
  · exact fun b h => h.1

theorem delete_partial_iff_sample :
    (∀ b mP', delete [0x23] (sampleArena (.digest sampleDigest.bytes)) = (.ok b, mP') →
      ∃ mT', delete [0x23] (sampleArena (.leaf (Hp.encode [2] true) sampleValue)) = (.ok b, mT') ∧
        (hash sampleEnv mP').1 = (hash sampleEnv mT').1) ↔
      ¬ Blind samplePartial sampleTrie (Hp.keyNibs [0x23]) :=
  delete_partial_iff sampleEnv (n := 1) (by decide) isTrie_sampleTrie
    (fork_forall (Q := AllValues fun v => v.length < 2 ^ 64) (t := leaf [2] sampleValue)
      (u := leaf [3] [5]) trivial (show sampleValue.length < 2 ^ 64 by decide)
      (show [5].length < 2 ^ 64 by decide) 1 2)
    view_samplePartial represents_samplePartial represents_sampleTrie [0x23] sample_injOn

end Mpt
end CenoReth
