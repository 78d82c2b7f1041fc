/-
Keys of mixed lengths.

A trie without values in its branches cannot hold two keys of which one is a
prefix of the other.  On normal trees without opaque subtrees this is the only
reason for which an insertion fails: `insert_error_iff` says that it fails
exactly for the keys that clash with a bound one.
-/
import CenoReth.Patricia.Canonical

namespace CenoReth
namespace Patricia
namespace Radix

variable {k : Nat} {β δ : Type}

/-! ## Bound keys -/

def Binds (t : Radix k β δ) (key : List (Fin k)) (v : β) : Prop := t.get key = .ok (some v)

theorem not_binds_null (key : List (Fin k)) (v : β) : ¬ Binds (null : Radix k β δ) key v := by
  simp [Binds, get]

@[simp] theorem binds_leaf {p key : List (Fin k)} {w v : β} :
    Binds (leaf p w : Radix k β δ) key v ↔ p = key ∧ w = v := by
  by_cases h : p = key <;> simp [Binds, get, h]

@[simp] theorem binds_branch {c : Fin k → Radix k β δ} {key : List (Fin k)} {v : β} :
    Binds (branch c) key v ↔ ∃ i tail, key = i :: tail ∧ Binds (c i) tail v := by
  cases key with
  | nil => simp [Binds, get]
  | cons i tail => simp [Binds, get]

@[simp] theorem binds_ext {p key : List (Fin k)} {c : Radix k β δ} {v : β} :
    Binds (ext p c) key v ↔ ∃ tail, key = p ++ tail ∧ Binds c tail v := by
  unfold Binds
  rw [get]
  cases h : stripPrefix p key with
  | none =>
    constructor
    · intro hv
      simp at hv
    · rintro ⟨tail, rfl, _⟩
      simp at h
  | some tail =>
    obtain rfl := stripPrefix_eq_some.mp h
    simp

theorem binds_graft {p key : List (Fin k)} {t : Radix k β δ} {v : β} :
    Binds (graft p t) key v ↔ ∃ tail, key = p ++ tail ∧ Binds t tail v := by
  cases p with
  | nil => simp [graft]
  | cons i p => rw [graft, binds_ext]

theorem binds_fork {i j : Fin k} {t u : Radix k β δ} {key : List (Fin k)} {v : β}
    (h : Binds (fork i t j u) key v) :
    (∃ tail, key = i :: tail ∧ Binds t tail v) ∨ ∃ tail, key = j :: tail ∧ Binds u tail v := by
  obtain ⟨a, tail, rfl, hb⟩ := binds_branch.mp h
  by_cases haj : a = j
  · subst haj
    exact .inr ⟨tail, rfl, by simpa using hb⟩
  · rw [Function.update_of_ne haj] at hb
    by_cases hai : a = i
    · subst hai
      exact .inl ⟨tail, rfl, by simpa using hb⟩
    · rw [Function.update_of_ne hai] at hb
      exact absurd hb (not_binds_null tail v)

theorem binds_extend {p key : List (Fin k)} {t : Radix k β δ} {v : β}
    (h : Binds (extend p t) key v) : ∃ tail, key = p ++ tail ∧ Binds t tail v := by
  cases t with
  | null => exact absurd h (not_binds_null key v)
  | hole => exact absurd h (not_binds_null key v)
  | leaf q w =>
    obtain ⟨rfl, rfl⟩ := binds_leaf.mp h
    exact ⟨q, rfl, binds_leaf.mpr ⟨rfl, rfl⟩⟩
  | ext q c =>
    obtain ⟨tail, rfl, hb⟩ := binds_ext.mp h
    exact ⟨q ++ tail, by simp, binds_ext.mpr ⟨tail, rfl, hb⟩⟩
  | branch c => exact binds_ext.mp h
  | digest d => exact binds_ext.mp h

theorem binds_collapse {c : Fin k → Radix k β δ} {key : List (Fin k)} {v : β}
    (h : Binds (collapse c) key v) : ∃ i tail, key = i :: tail ∧ Binds (c i) tail v := by
  rcases occupied_cases c with ⟨_, hc⟩ | ⟨j, _, hj, hc⟩ | hc
  · rw [collapse_none hc] at h
    exact absurd h (not_binds_null key v)
  · rw [collapse_one hj hc] at h
    obtain ⟨tail, rfl, hb⟩ := binds_extend h
    exact ⟨j, tail, rfl, hb⟩
  · rw [collapse_many hc] at h
    exact binds_branch.mp h

/-- A tree in which nothing is hidden binds a key, unless it is empty. -/
theorem exists_binds {t : Radix k β δ} (hn : t.Normal) (hr : t.Resolved) (h0 : t ≠ null) :
    ∃ key v, Binds t key v := by
  induction t with
  | null => exact absurd rfl h0
  | hole => exact hn.elim
  | leaf p v => exact ⟨p, v, binds_leaf.mpr ⟨rfl, rfl⟩⟩
  | digest d => exact hr.elim
  | ext p c ih =>
    have hc : c ≠ null := by
      rintro rfl
      exact hn.2.1
    obtain ⟨key, v, hb⟩ := ih hn.2.2 hr hc
    exact ⟨p ++ key, v, binds_ext.mpr ⟨key, rfl, hb⟩⟩
  | branch c ih =>
    obtain ⟨i, _, _, hi, _⟩ := exists_two_of_le hn.1
    obtain ⟨key, v, hb⟩ := ih i (hn.2 i) (hr i) hi
    exact ⟨i :: key, v, binds_branch.mpr ⟨i, key, rfl, hb⟩⟩

/-! ## Clashes -/

/-- A bound key is a proper prefix of `key`, or `key` is one of it. -/
def Clash (t : Radix k β δ) (key : List (Fin k)) : Prop :=
  ∃ bound v, Binds t bound v ∧ bound ≠ key ∧ (bound <+: key ∨ key <+: bound)

theorem clash_ext {p tail : List (Fin k)} {c : Radix k β δ} :
    Clash (ext p c) (p ++ tail) ↔ Clash c tail := by
  constructor
  · rintro ⟨bound, v, hb, hne, hpre⟩
    obtain ⟨rest, rfl, hrest⟩ := binds_ext.mp hb
    refine ⟨rest, v, hrest, fun h => hne (by rw [h]), ?_⟩
    simpa [List.prefix_append_right_inj] using hpre
  · rintro ⟨rest, v, hb, hne, hpre⟩
    refine ⟨p ++ rest, v, binds_ext.mpr ⟨rest, rfl, hb⟩, by simpa using hne, ?_⟩
    simpa [List.prefix_append_right_inj] using hpre

theorem clash_branch {c : Fin k → Radix k β δ} {i : Fin k} {key : List (Fin k)} :
    Clash (branch c) (i :: key) ↔ Clash (c i) key := by
  constructor
  · rintro ⟨bound, v, hb, hne, hpre⟩
    obtain ⟨j, rest, rfl, hrest⟩ := binds_branch.mp hb
    have hji : j = i := by
      rcases hpre with hpre | hpre
      · exact (List.cons_prefix_cons.mp hpre).1
      · exact (List.cons_prefix_cons.mp hpre).1.symm
    subst hji
    refine ⟨rest, v, hrest, fun h => hne (by rw [h]), ?_⟩
    simpa [List.cons_prefix_cons] using hpre
  · rintro ⟨rest, v, hb, hne, hpre⟩
    refine ⟨i :: rest, v, binds_branch.mpr ⟨i, rest, rfl, hb⟩, by simpa using hne, ?_⟩
    simpa [List.cons_prefix_cons] using hpre

/-- Strings that part at a digit are not comparable. -/
theorem not_prefix_of_heads {c p q : List (Fin k)} {i j : Fin k} (h : i ≠ j) :
    ¬ (c ++ i :: p <+: c ++ j :: q ∨ c ++ j :: q <+: c ++ i :: p) := by
  rw [List.prefix_append_right_inj, List.prefix_append_right_inj, List.cons_prefix_cons,
    List.cons_prefix_cons]
  rintro (⟨hij, _⟩ | ⟨hji, _⟩)
  · exact h hij
  · exact h hji.symm

/-! ## Insertion -/

variable [DecidableEq β]

/-- An insertion into a tree in which nothing is hidden fails exactly on a clash. -/
theorem insert_error_iff {t : Radix k β δ} (hn : t.Normal) (hr : t.Resolved)
    (key : List (Fin k)) (v : β) :
    (t.insert key v = .error .branchValue ∧ Clash t key) ∨
      ((∃ r, t.insert key v = .ok r) ∧ ¬ Clash t key) := by
  induction t generalizing key with
  | null => exact .inr ⟨⟨_, rfl⟩, fun ⟨_, _, hb, _⟩ => not_binds_null _ _ hb⟩
  | hole => exact hn.elim
  | digest d => exact hr.elim
  | leaf p old =>
    obtain ⟨hp, hkey⟩ := split_eq p key
    rcases hs : split p key with ⟨c, _ | ⟨i, p'⟩, _ | ⟨j, q'⟩⟩
    · rw [hs] at hp hkey
      refine .inr ⟨⟨if old = v then (false, leaf p old) else (true, leaf p v), ?_⟩, ?_⟩
      · simp only [insert, hs]
      · rintro ⟨bound, w, hb, hne, _⟩
        exact hne ((binds_leaf.mp hb).1.symm.trans (hp.trans hkey.symm))
    · rw [hs] at hp hkey
      refine .inl ⟨by simp only [insert, hs], p, old, binds_leaf.mpr ⟨rfl, rfl⟩, ?_, .inl ?_⟩
      · rw [hp, hkey]
        simp
      · rw [hp, hkey]
        simp
    · rw [hs] at hp hkey
      refine .inl ⟨by simp only [insert, hs], p, old, binds_leaf.mpr ⟨rfl, rfl⟩, ?_, .inr ?_⟩
      · rw [hp, hkey]
        simp
      · rw [hp, hkey]
        simp
    · rw [hs] at hp hkey
      refine .inr ⟨⟨_, by simp only [insert, hs]; rfl⟩, ?_⟩
      rintro ⟨bound, w, hb, _, hpre⟩
      rw [← (binds_leaf.mp hb).1, hp, hkey] at hpre
      exact not_prefix_of_heads (split_heads_ne hs) hpre
  | ext p c ih =>
    obtain ⟨hp, hkey⟩ := split_eq p key
    rcases hs : split p key with ⟨cs, _ | ⟨i, p'⟩, q'⟩
    · rw [hs] at hp hkey
      simp only [List.append_nil] at hp hkey
      subst hp hkey
      have hins : (ext p c).insert (p ++ q') v = (c.insert q' v).map fun r => (r.1, ext p r.2) := by
        simp only [insert, hs]
      rw [hins, clash_ext]
      rcases ih hn.2.2 hr q' with ⟨he, hc⟩ | ⟨⟨r, he⟩, hc⟩
      · exact .inl ⟨by rw [he]; rfl, hc⟩
      · exact .inr ⟨⟨_, by rw [he]; rfl⟩, hc⟩
    · cases q' with
      | nil =>
        -- the key ends inside the path, and something is bound below
        rw [hs] at hp hkey
        simp only [List.append_nil] at hp hkey
        obtain ⟨bound, w, hb⟩ := exists_binds (t := ext p c) hn hr (by simp)
        obtain ⟨tail, rfl, _⟩ := binds_ext.mp hb
        refine .inl ⟨by simp only [insert, hs], _, w, hb, ?_, .inr ?_⟩
        · rw [hp, hkey]
          simp
        · rw [hp, hkey]
          simp
      | cons j q' =>
        rw [hs] at hp hkey
        refine .inr ⟨⟨_, by simp only [insert, hs]; rfl⟩, ?_⟩
        rintro ⟨bound, w, hb, _, hpre⟩
        obtain ⟨tail, rfl, _⟩ := binds_ext.mp hb
        rw [hp, hkey, List.append_assoc, List.cons_append] at hpre
        exact not_prefix_of_heads (split_heads_ne hs) hpre
  | branch c ih =>
    cases key with
    | nil =>
      obtain ⟨bound, w, hb⟩ := exists_binds (t := branch c) hn hr (by simp)
      obtain ⟨i, tail, rfl, _⟩ := binds_branch.mp hb
      exact .inl ⟨rfl, _, w, hb, by simp, .inr (by simp)⟩
    | cons i key =>
      rw [clash_branch]
      rcases ih i (hn.2 i) (hr i) key with ⟨he, hc⟩ | ⟨⟨r, he⟩, hc⟩
      · exact .inl ⟨by simp only [insert, he]; rfl, hc⟩
      · exact .inr ⟨⟨_, by simp only [insert, he]; rfl⟩, hc⟩

/-- What an insertion that succeeds does to the tree. -/
inductive Inserted (v : β) : Radix k β δ → List (Fin k) → Radix k β δ → Prop
  | null (key : List (Fin k)) : Inserted v null key (leaf key v)
  | hole (key : List (Fin k)) : Inserted v hole key (leaf key v)
  | leaf (key : List (Fin k)) (old : β) : Inserted v (leaf key old) key (leaf key v)
  | splitLeaf {i j : Fin k} (hij : i ≠ j) (c p q : List (Fin k)) (old : β) :
    Inserted v (leaf (c ++ i :: p) old) (c ++ j :: q)
      (graft c (fork i (leaf p old) j (leaf q v)))
  | ext {t t' : Radix k β δ} {key : List (Fin k)} (p : List (Fin k)) (h : Inserted v t key t') :
    Inserted v (ext p t) (p ++ key) (ext p t')
  | splitExt {i j : Fin k} (hij : i ≠ j) (c p q : List (Fin k)) (t : Radix k β δ) :
    Inserted v (ext (c ++ i :: p) t) (c ++ j :: q) (graft c (fork i (graft p t) j (leaf q v)))
  | branch {c : Fin k → Radix k β δ} {i : Fin k} {key : List (Fin k)} {t' : Radix k β δ}
    (h : Inserted v (c i) key t') :
    Inserted v (branch c) (i :: key) (branch (Function.update c i t'))

theorem inserted_of_ok {t t' : Radix k β δ} {key : List (Fin k)} {v : β} {b : Bool}
    (h : t.insert key v = .ok (b, t')) : Inserted v t key t' := by
  induction t generalizing key b t' with
  | null =>
    simp only [insert, Except.ok.injEq, Prod.mk.injEq] at h
    exact h.2 ▸ .null key
  | hole =>
    simp only [insert, Except.ok.injEq, Prod.mk.injEq] at h
    exact h.2 ▸ .hole key
  | digest d => simp [insert] at h
  | leaf p old =>
    obtain ⟨hp, hkey⟩ := split_eq p key
    rcases hs : split p key with ⟨c, _ | ⟨i, p'⟩, _ | ⟨j, q'⟩⟩
    · rw [hs] at hp hkey
      obtain rfl : p = key := hp.trans hkey.symm
      simp only [insert, hs, Except.ok.injEq] at h
      split at h
      · rename_i hv
        rw [← (Prod.mk.inj h).2, hv]
        exact .leaf p v
      · rw [← (Prod.mk.inj h).2]
        exact .leaf p old
    · simp [insert, hs] at h
    · simp [insert, hs] at h
    · rw [hs] at hp hkey
      simp only [insert, hs, Except.ok.injEq, Prod.mk.injEq] at h
      rw [← h.2, hp, hkey]
      exact .splitLeaf (split_heads_ne hs) c p' q' old
  | ext p c ih =>
    obtain ⟨hp, hkey⟩ := split_eq p key
    rcases hs : split p key with ⟨cs, _ | ⟨i, p'⟩, q'⟩
    · rw [hs] at hp hkey
      simp only [List.append_nil] at hp hkey
      subst hp hkey
      simp only [insert, hs] at h
      cases hi : c.insert q' v with
      | error e => simp [hi, Except.map] at h
      | ok r =>
        simp only [hi, Except.map, Except.ok.injEq, Prod.mk.injEq] at h
        rw [← h.2]
        obtain ⟨b, t₁⟩ := r
        exact .ext p (ih hi)
    · cases q' with
      | nil => simp [insert, hs] at h
      | cons j q' =>
        rw [hs] at hp hkey
        simp only [insert, hs, Except.ok.injEq, Prod.mk.injEq] at h
        rw [← h.2, hp, hkey]
        exact .splitExt (split_heads_ne hs) cs p' q' c
  | branch c ih =>
    cases key with
    | nil => simp [insert] at h
    | cons i key =>
      cases hi : (c i).insert key v with
      | error e => simp [insert, hi, Except.map] at h
      | ok r =>
        simp only [insert, hi, Except.map, Except.ok.injEq, Prod.mk.injEq] at h
        rw [← h.2]
        obtain ⟨b, t₁⟩ := r
        exact .branch (ih i hi)

omit [DecidableEq β]

/-- Only the inserted key is bound anew. -/
theorem Inserted.binds {t t' : Radix k β δ} {key bound : List (Fin k)} {v w : β}
    (h : Inserted v t key t') (hb : Binds t' bound w) : bound = key ∨ Binds t bound w := by
  induction h generalizing bound with
  | null key => exact .inl (binds_leaf.mp hb).1.symm
  | hole key => exact .inl (binds_leaf.mp hb).1.symm
  | leaf key old => exact .inl (binds_leaf.mp hb).1.symm
  | splitLeaf hij c p q old =>
    obtain ⟨tail, rfl, hin⟩ := binds_graft.mp hb
    rcases binds_fork hin with ⟨rest, rfl, hr⟩ | ⟨rest, rfl, hr⟩
    · obtain ⟨rfl, rfl⟩ := binds_leaf.mp hr
      exact .inr (binds_leaf.mpr ⟨rfl, rfl⟩)
    · obtain ⟨rfl, rfl⟩ := binds_leaf.mp hr
      exact .inl rfl
  | ext p _ ih =>
    obtain ⟨tail, rfl, hin⟩ := binds_ext.mp hb
    rcases ih hin with rfl | hold
    · exact .inl rfl
    · exact .inr (binds_ext.mpr ⟨tail, rfl, hold⟩)
  | splitExt hij c p q t =>
    obtain ⟨tail, rfl, hin⟩ := binds_graft.mp hb
    rcases binds_fork hin with ⟨rest, rfl, hr⟩ | ⟨rest, rfl, hr⟩
    · obtain ⟨rest', rfl, hc⟩ := binds_graft.mp hr
      exact .inr (binds_ext.mpr ⟨rest', by simp, hc⟩)
    · obtain ⟨rfl, rfl⟩ := binds_leaf.mp hr
      exact .inl rfl
  | @branch c i key t' _ ih =>
    obtain ⟨j, tail, rfl, hin⟩ := binds_branch.mp hb
    by_cases hj : j = i
    · subst hj
      rw [Function.update_self] at hin
      rcases ih hin with rfl | hold
      · exact .inl rfl
      · exact .inr (binds_branch.mpr ⟨j, tail, rfl, hold⟩)
    · rw [Function.update_of_ne hj] at hin
      exact .inr (binds_branch.mpr ⟨j, tail, rfl, hin⟩)

theorem normal_fork {i j : Fin k} {t u : Radix k β δ} (hij : i ≠ j) (ht : t.Normal) (hu : u.Normal)
    (ht0 : t ≠ null) (hu0 : u ≠ null) : (fork i t j u).Normal := by
  refine ⟨two_le_occupied hij ?_ ?_, fork_forall trivial ht hu i j⟩
  · rw [Function.update_of_ne hij]
    simpa using ht0
  · simpa using hu0

theorem normal_graft {p : List (Fin k)} {t : Radix k β δ} (h : t.Normal) (hb : t.isBranching) :
    (graft p t).Normal := by
  cases p with
  | nil => exact h
  | cons i p => exact ⟨by simp, hb, h⟩

theorem Inserted.ne_null {t t' : Radix k β δ} {key : List (Fin k)} {v : β}
    (h : Inserted v t key t') : t' ≠ .null := by
  cases h with
  | splitLeaf hij c p q old => exact graft_ne_null (by simp [fork])
  | splitExt hij c p q t => exact graft_ne_null (by simp [fork])
  | _ => simp

theorem Inserted.isBranching {t t' : Radix k β δ} {key : List (Fin k)} {v : β}
    (h : Inserted v t key t') (hb : t.isBranching) : t'.isBranching := by
  cases h with
  | branch _ => trivial
  | _ => exact hb.elim

theorem Inserted.normal {t t' : Radix k β δ} {key : List (Fin k)} {v : β}
    (h : Inserted v t key t') (hn : t.Normal) : t'.Normal := by
  induction h with
  | null key => trivial
  | hole key => trivial
  | leaf key old => trivial
  | splitLeaf hij c p q old =>
    exact normal_graft (normal_fork hij trivial trivial (by simp) (by simp)) trivial
  | ext p h ih => exact ⟨hn.1, h.isBranching hn.2.1, ih hn.2.2⟩
  | splitExt hij c p q t =>
    have ht : t ≠ .null := by
      rintro rfl
      exact hn.2.1
    exact normal_graft (normal_fork hij (normal_graft hn.2.2 hn.2.1) trivial (graft_ne_null ht)
      (by simp)) trivial
  | @branch c i key t' h ih =>
    refine ⟨two_le_occupied_update hn.1 h.ne_null, fun j => ?_⟩
    by_cases hj : j = i
    · subst hj
      rw [Function.update_self]
      exact ih (hn.2 j)
    · rw [Function.update_of_ne hj]
      exact hn.2 j

theorem resolved_graft {p : List (Fin k)} {t : Radix k β δ} (h : t.Resolved) :
    (graft p t).Resolved := by
  cases p <;> exact h

theorem resolved_fork {i j : Fin k} {t u : Radix k β δ} (ht : t.Resolved) (hu : u.Resolved) :
    (fork i t j u).Resolved :=
  fork_forall (Q := Resolved) trivial ht hu i j

theorem Inserted.resolved {t t' : Radix k β δ} {key : List (Fin k)} {v : β}
    (h : Inserted v t key t') (hr : t.Resolved) : t'.Resolved := by
  induction h with
  | null key => trivial
  | hole key => trivial
  | leaf key old => trivial
  | splitLeaf hij c p q old =>
    exact resolved_graft (resolved_fork trivial trivial)
  | ext p _ ih => exact ih hr
  | splitExt hij c p q t =>
    exact resolved_graft (resolved_fork (resolved_graft hr) trivial)
  | @branch c i key t' _ ih =>
    intro j
    by_cases hj : j = i
    · subst hj
      rw [Function.update_self]
      exact ih (hr j)
    · rw [Function.update_of_ne hj]
      exact hr j

/-! ## Deletion -/

theorem resolved_collapse {c : Fin k → Radix k β δ} (h : ∀ i, (c i).Resolved) :
    (collapse c).Resolved := by
  rcases occupied_cases c with ⟨_, hc⟩ | ⟨j, _, hj, hc⟩ | hc
  · rw [collapse_none hc]
    trivial
  · rw [collapse_one hj hc]
    exact resolved_extend (h j)
  · rw [collapse_many hc]
    exact h

/-- A deletion that succeeds binds nothing anew and hides nothing. -/
theorem delete_shrinks {t t' : Radix k β δ} {key : List (Fin k)} {b : Bool} (hn : t.Normal)
    (h : t.delete key = .ok (b, t')) :
    (∀ bound w, Binds t' bound w → Binds t bound w) ∧ (t.Resolved → t'.Resolved) := by
  induction t generalizing key b t' with
  | null =>
    simp only [delete, Except.ok.injEq, Prod.mk.injEq] at h
    rw [← h.2]
    exact ⟨fun _ _ => id, id⟩
  | hole => exact hn.elim
  | digest d => simp [delete] at h
  | leaf p old =>
    simp only [delete, Except.ok.injEq] at h
    split at h
    · rw [← (Prod.mk.inj h).2]
      exact ⟨fun _ _ hb => absurd hb (not_binds_null _ _), id⟩
    · rw [← (Prod.mk.inj h).2]
      exact ⟨fun _ _ => id, id⟩
  | ext p c ih =>
    simp only [delete] at h
    cases hs : stripPrefix p key with
    | none =>
      simp only [hs, Except.ok.injEq, Prod.mk.injEq] at h
      rw [← h.2]
      exact ⟨fun _ _ => id, id⟩
    | some tail =>
      rw [hs] at h
      cases hd : c.delete tail with
      | error e => simp [hd, Except.map] at h
      | ok r =>
        simp only [hd, Except.map, Except.ok.injEq] at h
        obtain ⟨b, t₁⟩ := r
        obtain ⟨hbinds, hres⟩ := ih hn.2.2 hd
        split at h
        · rw [← (Prod.mk.inj h).2]
          refine ⟨fun bound w hb => ?_, fun hr => resolved_extend (hres hr)⟩
          obtain ⟨rest, rfl, hin⟩ := binds_extend hb
          exact binds_ext.mpr ⟨rest, rfl, hbinds rest w hin⟩
        · rw [← (Prod.mk.inj h).2]
          exact ⟨fun _ _ => id, id⟩
  | branch c ih =>
    cases key with
    | nil => simp [delete] at h
    | cons i key =>
      rw [← collapse_many hn.1, delete_collapse hn.2] at h
      cases hd : (c i).delete key with
      | error e => simp [hd, Except.map] at h
      | ok r =>
        simp only [hd, Except.map, Except.ok.injEq] at h
        obtain ⟨b, t₁⟩ := r
        obtain ⟨hbinds, hres⟩ := ih i (hn.2 i) hd
        split at h
        · rw [← (Prod.mk.inj h).2]
          constructor
          · intro bound w hb
            obtain ⟨j, rest, rfl, hin⟩ := binds_collapse hb
            by_cases hj : j = i
            · subst hj
              rw [Function.update_self] at hin
              exact binds_branch.mpr ⟨j, rest, rfl, hbinds rest w hin⟩
            · rw [Function.update_of_ne hj] at hin
              exact binds_branch.mpr ⟨j, rest, rfl, hin⟩
          · intro hr
            refine resolved_collapse fun j => ?_
            by_cases hj : j = i
            · subst hj
              rw [Function.update_self]
              exact hres (hr j)
            · rw [Function.update_of_ne hj]
              exact hr j
        · rw [← (Prod.mk.inj h).2, collapse_many hn.1]
          exact ⟨fun _ _ => id, id⟩

end Radix
end Patricia
end CenoReth
