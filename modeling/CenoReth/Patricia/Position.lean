/-
Positions in a trie, and replacement of subtrees.

A position is the string of digits that leads to a node.  `patch t A` replaces
several subtrees at once: `A` says what to put at which position.  Positions
that do not occur in the tree are ignored.  The last part says when the result
is again in normal form, if all the parts are.
-/
import CenoReth.Patricia.Canonical

namespace CenoReth
namespace Patricia
namespace Radix

variable {k : Nat} {β δ : Type}

/-! ## Positions -/

/-- The subtree at a position.  An empty slot of a branch is the position of `null`. -/
def subtree : Radix k β δ → List (Fin k) → Option (Radix k β δ)
  | t, [] => some t
  | branch c, i :: p => (c i).subtree p
  | ext q c, i :: p =>
    match stripPrefix q (i :: p) with
    | some r => c.subtree r
    | none => none
  | _, _ :: _ => none

@[simp] theorem subtree_nil (t : Radix k β δ) : t.subtree [] = some t := by
  cases t <;> rfl

@[simp] theorem subtree_branch (c : Fin k → Radix k β δ) (i : Fin k) (p : List (Fin k)) :
    (branch c).subtree (i :: p) = (c i).subtree p := rfl

theorem subtree_ext_append {q r : List (Fin k)} (c : Radix k β δ) (h : q ++ r ≠ []) :
    (ext q c).subtree (q ++ r) = c.subtree r := by
  cases hqr : q ++ r with
  | nil => exact absurd hqr h
  | cons i p =>
    show (match stripPrefix q (i :: p) with
      | some r => c.subtree r
      | none => none) = _
    rw [← hqr, stripPrefix_append]

/-- A position below an extension goes along its path. -/
theorem subtree_ext {q p : List (Fin k)} {c s : Radix k β δ} (hp : p ≠ [])
    (h : (ext q c).subtree p = some s) : ∃ r, p = q ++ r ∧ c.subtree r = some s := by
  cases p with
  | nil => exact absurd rfl hp
  | cons i p =>
    have h' : (match stripPrefix q (i :: p) with
      | some r => c.subtree r
      | none => none) = some s := h
    cases hs : stripPrefix q (i :: p) with
    | none => simp [hs] at h'
    | some r =>
      rw [hs] at h'
      exact ⟨r, stripPrefix_eq_some.mp hs, h'⟩

theorem subtree_cons_eq_some {t s : Radix k β δ} {i : Fin k} {p : List (Fin k)}
    (h : t.subtree (i :: p) = some s) : (∃ c, t = branch c) ∨ ∃ q c, t = ext q c := by
  cases t with
  | branch c => exact .inl ⟨c, rfl⟩
  | ext q c => exact .inr ⟨q, c, rfl⟩
  | _ => simp [subtree] at h

theorem sized_subtree {n : Nat} {t s : Radix k β δ} {p : List (Fin k)} (h : t.Sized n)
    (hs : t.subtree p = some s) : s.Sized (n - p.length) ∧ p.length ≤ n := by
  induction t generalizing n p with
  | branch c ih =>
    cases p with
    | nil =>
      obtain rfl : branch c = s := by simpa using hs
      exact ⟨h, Nat.zero_le _⟩
    | cons i p =>
      obtain ⟨hsz, hle⟩ := ih i (h.2 i) hs
      rw [List.length_cons, show n - (p.length + 1) = n - 1 - p.length by omega]
      have := h.1
      exact ⟨hsz, by omega⟩
  | ext q c ih =>
    by_cases hp : p = []
    · subst hp
      obtain rfl : ext q c = s := by simpa using hs
      exact ⟨h, Nat.zero_le _⟩
    · obtain ⟨r, rfl, hr⟩ := subtree_ext hp hs
      obtain ⟨hsz, hle⟩ := ih h.2 hr
      have hq := h.1
      rw [List.length_append, show n - (q.length + r.length) = n - q.length - r.length by omega]
      exact ⟨hsz, by omega⟩
  | _ =>
    cases p with
    | nil =>
      obtain rfl := Option.some.inj hs
      exact ⟨h, Nat.zero_le _⟩
    | cons i p => simp [subtree] at hs

theorem normal_subtree {t s : Radix k β δ} {p : List (Fin k)} (h : t.Normal)
    (hs : t.subtree p = some s) : s.Normal := by
  induction t generalizing p with
  | branch c ih =>
    cases p with
    | nil => exact Option.some.inj hs ▸ h
    | cons i p => exact ih i (h.2 i) hs
  | ext q c ih =>
    by_cases hp : p = []
    · subst hp
      exact Option.some.inj hs ▸ h
    · obtain ⟨r, rfl, hr⟩ := subtree_ext hp hs
      exact ih h.2.2 hr
  | _ =>
    cases p with
    | nil => exact Option.some.inj hs ▸ h
    | cons i p => simp [subtree] at hs

theorem resolved_subtree {t s : Radix k β δ} {p : List (Fin k)} (h : t.Resolved)
    (hs : t.subtree p = some s) : s.Resolved := by
  induction t generalizing p with
  | branch c ih =>
    cases p with
    | nil => exact Option.some.inj hs ▸ h
    | cons i p => exact ih i (h i) hs
  | ext q c ih =>
    by_cases hp : p = []
    · subst hp
      exact Option.some.inj hs ▸ h
    · obtain ⟨r, rfl, hr⟩ := subtree_ext hp hs
      exact ih h hr
  | _ =>
    cases p with
    | nil => exact Option.some.inj hs ▸ h
    | cons i p => simp [subtree] at hs

/-- The subtrees of a trie are tries. -/
theorem isTrie_subtree {n : Nat} {t s : Radix k β δ} {p : List (Fin k)} (h : IsTrie n t)
    (hs : t.subtree p = some s) : IsTrie (n - p.length) s :=
  ⟨normal_subtree h.normal hs, resolved_subtree h.resolved hs, (sized_subtree h.sized hs).1⟩

theorem get_subtree {t s : Radix k β δ} {p : List (Fin k)} (hs : t.subtree p = some s)
    (key : List (Fin k)) : t.get (p ++ key) = s.get key := by
  induction t generalizing p with
  | branch c ih =>
    cases p with
    | nil => exact Option.some.inj hs ▸ rfl
    | cons i p => exact ih i hs
  | ext q c ih =>
    by_cases hp : p = []
    · subst hp
      exact Option.some.inj hs ▸ rfl
    · obtain ⟨r, rfl, hr⟩ := subtree_ext hp hs
      rw [Radix.get, List.append_assoc, stripPrefix_append]
      exact ih hr
  | _ =>
    cases p with
    | nil => exact Option.some.inj hs ▸ rfl
    | cons i p => simp [subtree] at hs

/-! ## Replacement -/

/-- What to put where. -/
abbrev Assignment (k : Nat) (β δ : Type) := List (Fin k) → Option (Radix k β δ)

/-- One replacement. -/
def single (p : List (Fin k)) (u : Radix k β δ) : Assignment k β δ :=
  Function.update (fun _ => none) p (some u)

/-- The tree with subtrees replaced. -/
def patch : Radix k β δ → Assignment k β δ → Radix k β δ
  | branch c, A => (A []).getD (branch fun i => (c i).patch fun q => A (i :: q))
  | ext q c, A => (A []).getD (ext q (c.patch fun r => A (q ++ r)))
  | t, A => (A []).getD t

theorem patch_of_some {t u : Radix k β δ} {A : Assignment k β δ} (h : A [] = some u) :
    t.patch A = u := by
  cases t <;> simp [patch, h]

theorem patch_branch {c : Fin k → Radix k β δ} {A : Assignment k β δ} (h : A [] = none) :
    (branch c).patch A = branch fun i => (c i).patch fun q => A (i :: q) := by
  simp [patch, h]

theorem patch_ext {q : List (Fin k)} {c : Radix k β δ} {A : Assignment k β δ} (h : A [] = none) :
    (ext q c).patch A = ext q (c.patch fun r => A (q ++ r)) := by
  simp [patch, h]

@[simp] theorem patch_none (t : Radix k β δ) : t.patch (fun _ => none) = t := by
  induction t with
  | branch c ih =>
    rw [patch_branch rfl]
    congr 1
    funext i
    exact ih i
  | ext q c ih => rw [patch_ext rfl, ih]
  | _ => rfl

/-- The other replacements neither contain the position nor lie below it. -/
def Free (A : Assignment k β δ) (p : List (Fin k)) : Prop :=
  ∀ q, A q ≠ none → q ≠ p → ¬ q <+: p ∧ ¬ p <+: q

theorem Free.cons {A : Assignment k β δ} {i : Fin k} {p : List (Fin k)} (h : Free A (i :: p)) :
    Free (fun q => A (i :: q)) p := by
  intro q hq hne
  obtain ⟨h₁, h₂⟩ := h (i :: q) hq (by simpa using hne)
  exact ⟨fun hp => h₁ (List.cons_prefix_cons.mpr ⟨rfl, hp⟩),
    fun hp => h₂ (List.cons_prefix_cons.mpr ⟨rfl, hp⟩)⟩

theorem Free.append {A : Assignment k β δ} {q p : List (Fin k)} (h : Free A (q ++ p)) :
    Free (fun r => A (q ++ r)) p := by
  intro r hr hne
  obtain ⟨h₁, h₂⟩ := h (q ++ r) hr (by simpa using hne)
  exact ⟨fun hp => h₁ ((List.prefix_append_right_inj q).mpr hp),
    fun hp => h₂ ((List.prefix_append_right_inj q).mpr hp)⟩

theorem Free.nil {A : Assignment k β δ} {p : List (Fin k)} (h : Free A p) (hp : p ≠ []) :
    A [] = none := by
  by_contra hne
  exact (h [] hne (Ne.symm hp)).1 (List.nil_prefix)

theorem Free.eq_none {A : Assignment k β δ} (h : Free A []) (hA : A [] = none) :
    A = fun _ => none := by
  funext q
  by_contra hq
  by_cases hqe : q = []
  · exact hq (hqe ▸ hA)
  · exact (h q hq hqe).2 List.nil_prefix

/-- A position that no other replacement touches. -/
theorem subtree_patch {A : Assignment k β δ} {t s : Radix k β δ} {p : List (Fin k)}
    (hf : Free A p) (hs : t.subtree p = some s) : (t.patch A).subtree p = some ((A p).getD s) := by
  induction t generalizing p A with
  | branch c ih =>
    cases p with
    | nil =>
      obtain rfl := Option.some.inj hs
      cases hA : A [] with
      | some u => simp [patch_of_some hA]
      | none =>
        rw [hf.eq_none hA, patch_none]
        rfl
    | cons i p =>
      rw [patch_branch (hf.nil (by simp))]
      exact ih i hf.cons hs
  | ext q c ih =>
    by_cases hp : p = []
    · subst hp
      obtain rfl := Option.some.inj hs
      cases hA : A [] with
      | some u => simp [patch_of_some hA]
      | none =>
        rw [hf.eq_none hA, patch_none]
        rfl
    · obtain ⟨r, rfl, hr⟩ := subtree_ext hp hs
      rw [patch_ext (hf.nil hp), subtree_ext_append _ hp]
      exact ih hf.append hr
  | _ =>
    cases p with
    | nil =>
      obtain rfl := Option.some.inj hs
      cases hA : A [] <;> simp [patch, hA]
    | cons i p => simp [subtree] at hs

theorem single_cons (i : Fin k) (p : List (Fin k)) (u : Radix k β δ) :
    (fun q => single (i :: p) u (i :: q)) = single p u := by
  funext q
  by_cases hq : q = p
  · subst hq
    simp [single]
  · simp [single, hq]

theorem single_cons_ne {i j : Fin k} (hij : j ≠ i) (p : List (Fin k)) (u : Radix k β δ) :
    (fun q => single (i :: p) u (j :: q)) = fun _ => none := by
  funext q
  simp [single, hij]

theorem single_append (q p : List (Fin k)) (u : Radix k β δ) :
    (fun r => single (q ++ p) u (q ++ r)) = single p u := by
  funext r
  by_cases hr : r = p
  · subst hr
    simp [single]
  · simp [single, hr]

@[simp] theorem patch_single_nil (t u : Radix k β δ) : t.patch (single [] u) = u :=
  patch_of_some (by simp [single])

theorem patch_single_branch (c : Fin k → Radix k β δ) (i : Fin k) (p : List (Fin k))
    (u : Radix k β δ) :
    (branch c).patch (single (i :: p) u) =
      branch (Function.update c i ((c i).patch (single p u))) := by
  rw [patch_branch (by simp [single])]
  congr 1
  funext j
  by_cases hj : j = i
  · subst hj
    rw [single_cons, Function.update_self]
  · rw [single_cons_ne hj, patch_none, Function.update_of_ne hj]

theorem patch_single_ext {q p : List (Fin k)} (c u : Radix k β δ) (h : q ++ p ≠ []) :
    (ext q c).patch (single (q ++ p) u) = ext q (c.patch (single p u)) := by
  rw [patch_ext (by simp [single, Ne.symm h]), single_append]

/-- Replacements one after the other. -/
theorem patch_patch_single {A : Assignment k β δ} {t s : Radix k β δ} {p : List (Fin k)}
    (hf : Free A p) (hs : t.subtree p = some s) (u : Radix k β δ) :
    (t.patch A).patch (single p u) = t.patch (Function.update A p (some u)) := by
  induction t generalizing p A with
  | branch c ih =>
    cases p with
    | nil => exact (patch_single_nil _ u).trans (patch_of_some (by simp)).symm
    | cons i p =>
      have hA := hf.nil (by simp)
      rw [patch_branch hA, patch_single_branch, patch_branch (by simpa using hA)]
      congr 1
      funext j
      by_cases hj : j = i
      · subst hj
        rw [Function.update_self, ih j hf.cons hs]
        congr 1
        funext q
        by_cases hq : q = p
        · subst hq
          simp
        · simp [hq]
      · rw [Function.update_of_ne hj]
        congr 1
        funext q
        simp [hj]
  | ext q c ih =>
    by_cases hp : p = []
    · subst hp
      exact (patch_single_nil _ u).trans (patch_of_some (by simp)).symm
    · obtain ⟨r, rfl, hr⟩ := subtree_ext hp hs
      have hA := hf.nil hp
      rw [patch_ext hA, patch_single_ext _ _ hp, ih hf.append hr,
        patch_ext (by simpa [Ne.symm hp] using hA)]
      congr 2
      funext x
      by_cases hx : x = r
      · subst hx
        simp
      · simp [hx]
  | _ =>
    cases p with
    | nil => exact (patch_single_nil _ u).trans (patch_of_some (by simp)).symm
    | cons i p => simp [subtree] at hs

/-! ## Lookup -/

/-- Keys outside of all replaced subtrees. -/
theorem get_patch_of_not_prefix {A : Assignment k β δ} {t : Radix k β δ} {key : List (Fin k)}
    (h : ∀ q, A q ≠ none → ¬ q <+: key) : (t.patch A).get key = t.get key := by
  have hnil : ∀ {A : Assignment k β δ} {key : List (Fin k)},
      (∀ q, A q ≠ none → ¬ q <+: key) → A [] = none := fun h => by
    by_contra hne
    exact h [] hne List.nil_prefix
  induction t generalizing A key with
  | branch c ih =>
    rw [patch_branch (hnil h)]
    cases key with
    | nil => rfl
    | cons i key =>
      exact ih i fun q hq hpre => h (i :: q) hq (List.cons_prefix_cons.mpr ⟨rfl, hpre⟩)
  | ext q c ih =>
    rw [patch_ext (hnil h), Radix.get, Radix.get]
    cases hs : stripPrefix q key with
    | none => rfl
    | some tail =>
      obtain rfl := stripPrefix_eq_some.mp hs
      exact ih fun r hr hpre => h (q ++ r) hr ((List.prefix_append_right_inj q).mpr hpre)
  | _ => simp [patch, hnil h]

/-- Keys inside of a replaced subtree. -/
theorem get_patch_append {A : Assignment k β δ} {t s u : Radix k β δ} {p : List (Fin k)}
    (hf : Free A p) (hs : t.subtree p = some s) (hu : A p = some u) (key : List (Fin k)) :
    (t.patch A).get (p ++ key) = u.get key := by
  have h := subtree_patch hf hs
  rw [hu] at h
  exact get_subtree h key

/-! ## Shape -/

theorem resolved_patch {A : Assignment k β δ} {t : Radix k β δ} (h : t.Resolved)
    (hA : ∀ q u, A q = some u → u.Resolved) : (t.patch A).Resolved := by
  induction t generalizing A with
  | branch c ih =>
    cases hn : A [] with
    | some u => exact patch_of_some hn ▸ hA [] u hn
    | none =>
      rw [patch_branch hn]
      exact fun i => ih i (h i) fun q u hq => hA (i :: q) u hq
  | ext q c ih =>
    cases hn : A [] with
    | some u => exact patch_of_some hn ▸ hA [] u hn
    | none =>
      rw [patch_ext hn]
      exact ih h fun r u hr => hA (q ++ r) u hr
  | _ =>
    cases hn : A [] with
    | some u => exact patch_of_some hn ▸ hA [] u hn
    | none => simpa [patch, hn] using h

theorem sized_patch {n : Nat} {A : Assignment k β δ} {t : Radix k β δ} (h : t.Sized n)
    (hA : ∀ q u, A q = some u → u.Sized (n - q.length)) : (t.patch A).Sized n := by
  induction t generalizing A n with
  | branch c ih =>
    cases hn : A [] with
    | some u => exact patch_of_some hn ▸ hA [] u hn
    | none =>
      rw [patch_branch hn]
      refine ⟨h.1, fun i => ih i (h.2 i) fun q u hq => ?_⟩
      have := hA (i :: q) u hq
      rwa [List.length_cons, show n - (q.length + 1) = n - 1 - q.length by omega] at this
  | ext q c ih =>
    cases hn : A [] with
    | some u => exact patch_of_some hn ▸ hA [] u hn
    | none =>
      rw [patch_ext hn]
      refine ⟨h.1, ih h.2 fun r u hr => ?_⟩
      have := hA (q ++ r) u hr
      rwa [List.length_append, show n - (q.length + r.length) = n - q.length - r.length by omega]
        at this
  | _ =>
    cases hn : A [] with
    | some u => exact patch_of_some hn ▸ hA [] u hn
    | none => simpa [patch, hn] using h

/-- A map with keys below two digits at a position. -/
def Forks (live : List (Fin k) → Prop) (q : List (Fin k)) : Prop :=
  ∃ i j, i ≠ j ∧ (∃ r, live (q ++ i :: r)) ∧ ∃ r, live (q ++ j :: r)

/-- Every branch above a replaced position, and every replaced position directly below an
extension, still has keys below two digits. -/
structure Survives (t : Radix k β δ) (touched : List (Fin k) → Prop) (live : List (Fin k) → Prop) :
    Prop where
  branch : ∀ q i r c, touched (q ++ i :: r) → t.subtree q = some (branch c) → Forks live q
  ext : ∀ q p c, touched (q ++ p) → t.subtree q = some (ext p c) → Forks live (q ++ p)

/-- The keys of a tree. -/
def Live (n : Nat) (t : Radix k β δ) (key : List (Fin k)) : Prop :=
  key.length = n ∧ ∃ v, t.get key = .ok (some v)

/-- A trie that is not empty has a key. -/
theorem exists_live {n : Nat} {t : Radix k β δ} (h : IsTrie n t) (hn : t ≠ null) :
    ∃ key, Live n t key := by
  obtain ⟨m, rfl⟩ := isTrie_iff.mp h
  have hkey := mt (canonical_eq_null (δ := δ) n (m := m)).mpr hn
  push Not at hkey
  obtain ⟨key, hlen, hm⟩ := hkey
  obtain ⟨v, hv⟩ := Option.ne_none_iff_exists'.mp hm
  exact ⟨key, hlen, v, by rw [get_canonical m hlen, hv]⟩

theorem forks_of_branch {n : Nat} {c : Fin k → Radix k β δ} (hn : 2 ≤ (occupied c).length)
    (hc : ∀ i, IsTrie n (c i)) : Forks (Live (n + 1) (branch c)) [] := by
  obtain ⟨i, j, hij, hi, hj⟩ := exists_two_of_le hn
  obtain ⟨ki, hki, hgi⟩ := exists_live (hc i) hi
  obtain ⟨kj, hkj, hgj⟩ := exists_live (hc j) hj
  exact ⟨i, j, hij, ⟨ki, by simp [hki], hgi⟩, kj, by simp [hkj], hgj⟩

theorem live_cons {n : Nat} {c : Fin k → Radix k β δ} {i : Fin k} {key : List (Fin k)} :
    Live (n + 1) (branch c) (i :: key) ↔ Live n (c i) key := by
  simp [Live, Radix.get]

theorem live_append {n : Nat} {q key : List (Fin k)} {c : Radix k β δ} (h : q.length ≤ n) :
    Live n (ext q c) (q ++ key) ↔ Live (n - q.length) c key := by
  unfold Live
  rw [Radix.get, stripPrefix_append, List.length_append]
  constructor
  · rintro ⟨hlen, hv⟩
    exact ⟨by omega, hv⟩
  · rintro ⟨hlen, hv⟩
    exact ⟨by omega, hv⟩

/-- A trie with keys below two digits is a branch. -/
theorem exists_branch_of_forks {n : Nat} {t : Radix k β δ} (h : IsTrie n t)
    (hf : Forks (Live n t) []) : ∃ c, t = branch c := by
  obtain ⟨i, j, hij, ⟨ki, _, vi, hgi⟩, kj, _, vj, hgj⟩ := hf
  cases t with
  | branch c => exact ⟨c, rfl⟩
  | null => simp [Radix.get] at hgi
  | hole => exact h.normal.elim
  | digest d => exact h.resolved.elim
  | leaf p v =>
    simp only [Radix.get, List.nil_append, Except.ok.injEq, Option.ite_none_right_eq_some] at hgi hgj
    obtain ⟨rfl, _⟩ := hgi
    exact absurd (List.cons.inj hgj.1).1 hij
  | ext p c =>
    obtain ⟨hp, _⟩ := h.normal
    cases p with
    | nil => exact absurd rfl hp
    | cons a p =>
      have hhead : ∀ (x : Fin k) (r : List (Fin k)) v,
          (ext (a :: p) c).get (x :: r) = .ok (some v) → x = a := by
        intro x r v hg
        by_contra hx
        simp [Radix.get, stripPrefix_cons_ne (Ne.symm hx)] at hg
      rw [List.nil_append] at hgi hgj
      exact absurd ((hhead i ki vi hgi).trans (hhead j kj vj hgj).symm) hij

/-- No replacement lies below another one. -/
def Antichain (A : Assignment k β δ) : Prop := ∀ q r, A q ≠ none → A r ≠ none → q <+: r → q = r

theorem Antichain.cons {A : Assignment k β δ} (h : Antichain A) (i : Fin k) :
    Antichain fun q => A (i :: q) := by
  intro q r hq hr hpre
  exact (List.cons.inj (h _ _ hq hr (List.cons_prefix_cons.mpr ⟨rfl, hpre⟩))).2

theorem Antichain.append {A : Assignment k β δ} (h : Antichain A) (p : List (Fin k)) :
    Antichain fun q => A (p ++ q) := by
  intro q r hq hr hpre
  exact List.append_cancel_left (h _ _ hq hr ((List.prefix_append_right_inj p).mpr hpre))

theorem Antichain.free {A : Assignment k β δ} (h : Antichain A) {p : List (Fin k)}
    (hp : A p ≠ none) : Free A p := fun q hq hne =>
  ⟨fun hpre => hne (h q p hq hp hpre), fun hpre => hne (h p q hp hq hpre).symm⟩

section Normal

variable {n : Nat} {A : Assignment k β δ}

/-- The parts that are put into a trie: tries, at positions of the trie. -/
structure Parts (n : Nat) (t : Radix k β δ) (A : Assignment k β δ) : Prop where
  antichain : Antichain A
  isTrie : ∀ q u, A q = some u → IsTrie (n - q.length) u
  position : ∀ q, A q ≠ none → ∃ s, t.subtree q = some s

theorem Parts.cons {c : Fin k → Radix k β δ} (h : Parts n (branch c) A) (i : Fin k) :
    Parts (n - 1) (c i) fun q => A (i :: q) where
  antichain := h.antichain.cons i
  isTrie q u hq := by
    have := h.isTrie (i :: q) u hq
    rwa [List.length_cons, show n - (q.length + 1) = n - 1 - q.length by omega] at this
  position q hq := h.position (i :: q) hq

theorem Parts.append {p : List (Fin k)} {c : Radix k β δ} (h : Parts n (ext p c) A) (hp : p ≠ []) :
    Parts (n - p.length) c fun q => A (p ++ q) where
  antichain := h.antichain.append p
  isTrie q u hq := by
    have := h.isTrie (p ++ q) u hq
    rwa [List.length_append, show n - (p.length + q.length) = n - p.length - q.length by omega]
      at this
  position q hq := by
    obtain ⟨s, hs⟩ := h.position (p ++ q) hq
    rw [subtree_ext_append c (by simp [hp])] at hs
    exact ⟨s, hs⟩

theorem resolved_patch_of_parts {t : Radix k β δ} (ht : IsTrie n t) (h : Parts n t A) :
    (t.patch A).Resolved :=
  resolved_patch ht.resolved fun q u hq => (h.isTrie q u hq).resolved

theorem sized_patch_of_parts {t : Radix k β δ} (ht : IsTrie n t) (h : Parts n t A) :
    (t.patch A).Sized n :=
  sized_patch ht.sized fun q u hq => (h.isTrie q u hq).sized

/-- The trie below a digit of a trie. -/
theorem isTrie_child {c : Fin k → Radix k β δ} (h : IsTrie n (branch c)) (i : Fin k) :
    IsTrie (n - 1) (c i) :=
  ⟨h.normal.2 i, h.resolved i, h.sized.2 i⟩

theorem isTrie_below {p : List (Fin k)} {c : Radix k β δ} (h : IsTrie n (ext p c)) :
    IsTrie (n - p.length) c :=
  ⟨h.normal.2.2, h.resolved, h.sized.2⟩

theorem Survives.cons {c : Fin k → Radix k β δ} {touched live : List (Fin k) → Prop}
    (h : Survives (Radix.branch c) touched live) (i : Fin k) :
    Survives (c i) (fun q => touched (i :: q)) (fun q => live (i :: q)) where
  branch q j r c' hq hs := h.branch (i :: q) j r c' hq hs
  ext q p c' hq hs := h.ext (i :: q) p c' hq hs

theorem Survives.append {p : List (Fin k)} {c : Radix k β δ} {touched live : List (Fin k) → Prop}
    (h : Survives (Radix.ext p c) touched live) (hp : p ≠ []) :
    Survives c (fun q => touched (p ++ q)) (fun q => live (p ++ q)) where
  branch q j r c' hq hs := by
    have := h.branch (p ++ q) j r c' (by simpa using hq)
      (by rw [subtree_ext_append c (by simp [hp])]; exact hs)
    simpa [Forks] using this
  ext q p' c' hq hs := by
    have := h.ext (p ++ q) p' c' (by simpa using hq)
      (by rw [subtree_ext_append c (by simp [hp])]; exact hs)
    simpa [Forks] using this

/-- A replacement at the root leaves nothing of the tree. -/
theorem survives_of_root {t : Radix k β δ} (ht : t.Normal) (h : Antichain A) (hA : A [] ≠ none)
    (live : List (Fin k) → Prop) : Survives t (fun q => A q ≠ none) live where
  branch q i r c hq _ := by
    have := h [] _ hA hq List.nil_prefix
    simp at this
  ext q p c hq hs := by
    have hnil := h [] _ hA hq List.nil_prefix
    obtain ⟨rfl, rfl⟩ := List.append_eq_nil_iff.mp hnil.symm
    exact absurd rfl (normal_subtree ht hs).1

theorem survives_branch {c : Fin k → Radix k β δ} {touched live : List (Fin k) → Prop}
    (hroot : (∃ i r, touched (i :: r)) → Forks live [])
    (h : ∀ i, Survives (c i) (fun q => touched (i :: q)) (fun q => live (i :: q))) :
    Survives (Radix.branch c) touched live where
  branch q j r c' hq hs := by
    cases q with
    | nil => exact hroot ⟨j, r, hq⟩
    | cons i q => exact (h i).branch q j r c' hq hs
  ext q p c' hq hs := by
    cases q with
    | nil => simp at hs
    | cons i q => exact (h i).ext q p c' hq hs

theorem survives_ext {p : List (Fin k)} {c : Radix k β δ} {touched live : List (Fin k) → Prop}
    (hroot : touched p → Forks live p)
    (h : Survives c (fun q => touched (p ++ q)) (fun q => live (p ++ q))) :
    Survives (Radix.ext p c) touched live where
  branch q j r c' hq hs := by
    by_cases hne : q = []
    · subst hne
      simp at hs
    · obtain ⟨r', rfl, hr⟩ := subtree_ext hne hs
      have := h.branch r' j r c' (by simpa using hq) hr
      simpa [Forks] using this
  ext q p' c' hq hs := by
    by_cases hne : q = []
    · subst hne
      obtain ⟨rfl, rfl⟩ : p = p' ∧ c = c' := by simpa using hs
      exact hroot hq
    · obtain ⟨r', rfl, hr⟩ := subtree_ext hne hs
      have := h.ext r' p' c' (by simpa using hq) hr
      simpa [Forks] using this

/-- Tries put into a trie give a trie if and only if enough keys survive above them. -/
theorem normal_patch_iff {t : Radix k β δ} (ht : IsTrie n t) (h : Parts n t A) :
    (t.patch A).Normal ↔ Survives t (fun q => A q ≠ none) (Live n (t.patch A)) := by
  induction t generalizing n A with
  | branch c ih =>
    cases hA : A [] with
    | some u =>
      have hu := h.isTrie [] u hA
      rw [patch_of_some hA]
      exact ⟨fun _ => survives_of_root ht.normal h.antichain (by simp [hA]) _, fun _ => hu.normal⟩
    | none =>
      obtain ⟨n, rfl⟩ : ∃ n', n = n' + 1 := ⟨n - 1, by have := ht.sized.1; omega⟩
      have hlive : ∀ i, (fun q => Live (n + 1) ((Radix.branch c).patch A) (i :: q)) =
          Live n ((c i).patch fun q => A (i :: q)) := by
        intro i
        funext q
        rw [patch_branch hA]
        exact propext live_cons
      have hchild := fun i => ih i (isTrie_child ht i) (h.cons i)
      simp only [Nat.add_sub_cancel] at hchild
      constructor
      · intro hn
        rw [patch_branch hA] at hn
        refine survives_branch (fun _ => ?_) fun i => ?_
        · rw [patch_branch hA]
          exact forks_of_branch hn.1 fun i => ⟨hn.2 i,
            resolved_patch_of_parts (isTrie_child ht i) (h.cons i),
            sized_patch_of_parts (isTrie_child ht i) (h.cons i)⟩
        · rw [hlive i]
          exact (hchild i).mp (hn.2 i)
      · intro hs
        have hnorm : ∀ i, ((c i).patch fun q => A (i :: q)).Normal := fun i =>
          (hchild i).mpr (hlive i ▸ hs.cons i)
        by_cases htouch : ∃ i r, A (i :: r) ≠ none
        · obtain ⟨i, r, hir⟩ := htouch
          have hforks := hs.branch [] i r c hir rfl
          rw [patch_branch hA] at hforks ⊢
          obtain ⟨a, b, hab, ⟨ra, hra⟩, rb, hrb⟩ := hforks
          have hne : ∀ x r, Live (n + 1) (Radix.branch fun i => (c i).patch fun q => A (i :: q))
              (x :: r) → ((c x).patch fun q => A (x :: q)) ≠ null := by
            intro x r hlv hnull
            obtain ⟨_, v, hv⟩ := live_cons.mp hlv
            simp [hnull, Radix.get] at hv
          exact ⟨two_le_occupied hab (hne a ra hra) (hne b rb hrb), hnorm⟩
        · have hnone : A = fun _ => none := by
            funext q
            cases q with
            | nil => exact hA
            | cons i r =>
              by_contra hir
              exact htouch ⟨i, r, hir⟩
          rw [hnone, patch_none]
          exact ht.normal
  | ext p c ih =>
    cases hA : A [] with
    | some u =>
      have hu := h.isTrie [] u hA
      rw [patch_of_some hA]
      exact ⟨fun _ => survives_of_root ht.normal h.antichain (by simp [hA]) _, fun _ => hu.normal⟩
    | none =>
      obtain ⟨hp, hbr, _⟩ := ht.normal
      have hlen : p.length ≤ n := ht.sized.1
      have hlive : (fun q => Live n ((Radix.ext p c).patch A) (p ++ q)) =
          Live (n - p.length) (c.patch fun q => A (p ++ q)) := by
        funext q
        rw [patch_ext hA]
        exact propext (live_append hlen)
      have hchild := ih (isTrie_below ht) (h.append hp)
      have htrie : (c.patch fun q => A (p ++ q)).Normal →
          IsTrie (n - p.length) (c.patch fun q => A (p ++ q)) := fun hn =>
        ⟨hn, resolved_patch_of_parts (isTrie_below ht) (h.append hp),
          sized_patch_of_parts (isTrie_below ht) (h.append hp)⟩
      -- keys below two digits of the child
      have hforks : Forks (Live n ((Radix.ext p c).patch A)) p ↔
          Forks (Live (n - p.length) (c.patch fun q => A (p ++ q))) [] := by
        rw [← hlive]
        simp [Forks]
      constructor
      · intro hn
        rw [patch_ext hA] at hn
        refine survives_ext (fun _ => ?_) (hlive ▸ hchild.mp hn.2.2)
        rw [hforks]
        have ht' := htrie hn.2.2
        rcases hc : (c.patch fun q => A (p ++ q)) with _ | _ | _ | _ | c' | d
        all_goals rw [hc] at hn ht'
        · exact hn.2.1.elim
        · exact hn.2.1.elim
        · exact hn.2.1.elim
        · exact hn.2.1.elim
        · obtain ⟨n', hn'⟩ : ∃ n', n - p.length = n' + 1 :=
            ⟨n - p.length - 1, by have := ht'.sized.1; omega⟩
          rw [hn'] at ht' ⊢
          exact forks_of_branch ht'.normal.1 fun i => isTrie_child ht' i
        · exact ht'.resolved.elim
      · intro hs
        have hn := hchild.mpr (hlive ▸ hs.append hp)
        rw [patch_ext hA]
        refine ⟨hp, ?_, hn⟩
        by_cases hAp : A p = none
        · -- the child is the branch it was
          cases c with
          | branch c' =>
            rw [patch_branch (by simpa using hAp)]
            trivial
          | digest d => exact ht.resolved.elim
          | _ => exact hbr.elim
        · have := hs.ext [] p c (by simpa using hAp) rfl
          rw [List.nil_append, hforks] at this
          obtain ⟨c', hc'⟩ := exists_branch_of_forks (htrie hn) this
          rw [hc']
          trivial
  | _ =>
    cases hA : A [] with
    | some u =>
      have hu := h.isTrie [] u hA
      rw [patch_of_some hA]
      exact ⟨fun _ => survives_of_root ht.normal h.antichain (by simp [hA]) _, fun _ => hu.normal⟩
    | none =>
      refine ⟨fun _ => ⟨fun q i r c _ hs => ?_, fun q p c _ hs => ?_⟩, fun _ => ?_⟩
      · cases q <;> simp [subtree] at hs
      · cases q <;> simp [subtree] at hs
      · simpa [patch, hA] using ht.normal

end Normal

end Radix
end Patricia
end CenoReth
