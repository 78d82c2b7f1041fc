/-
Path-compressed tries over an alphabet of `k` digits.

A `Radix` stores a finite map from digit strings to values.  Runs of digits
without a choice are compressed into the path of a leaf or of an extension, and
a subtree may be replaced by an opaque `digest` that answers no question about
its contents.  Lookup, insertion and deletion are the textbook operations, and
they fail when they meet a digest.

No operation here assumes a normal form.  `Normal` states it, and
`Patricia/Sparse.lean` shows that on normal trees the operations are the
pointwise operations of the map they store.
-/
import Mathlib.Algebra.GroupWithZero.Nat
import Mathlib.Logic.Function.Basic
import Mathlib.Data.List.FinRange
import Mathlib.Data.List.Nodup

namespace CenoReth
namespace Patricia

/-- A compressed trie.  `null` is the absence of a node, both as a whole tree
and in the slot of a branch.  `hole` is a slot that still points to an erased
node: it reads like `null`, and a branch counts it as occupied. -/
inductive Radix (k : Nat) (β δ : Type) where
  | null
  | hole
  | leaf (path : List (Fin k)) (value : β)
  | ext (path : List (Fin k)) (child : Radix k β δ)
  | branch (children : Fin k → Radix k β δ)
  | digest (d : δ)

/-- Why an operation stops without a result. -/
inductive Fault (δ : Type) where
  /-- The path leads into an opaque subtree. -/
  | unresolved (d : δ)
  /-- The key would end inside a branch. -/
  | branchValue
  /-- The tree has a shape the operation does not expect. -/
  | stuck
  deriving DecidableEq, Repr

/-! ## Common prefixes -/

/-- The longest common prefix of two strings, and what each has left. -/
def split {ι : Type} [DecidableEq ι] : List ι → List ι → List ι × List ι × List ι
  | i :: p, j :: q =>
    if i = j then
      let r := split p q
      (i :: r.1, r.2.1, r.2.2)
    else ([], i :: p, j :: q)
  | p, q => ([], p, q)

/-- What remains of `key` after `p`, if `p` is a prefix of it. -/
def stripPrefix {ι : Type} [DecidableEq ι] : List ι → List ι → Option (List ι)
  | [], key => some key
  | _ :: _, [] => none
  | i :: p, j :: key => if i = j then stripPrefix p key else none

section Prefixes

variable {ι : Type} [DecidableEq ι]

@[simp] theorem split_nil_left (q : List ι) : split [] q = ([], [], q) := by
  cases q <;> rfl

@[simp] theorem split_nil_right (p : List ι) : split p [] = ([], p, []) := by
  cases p <;> rfl

@[simp] theorem split_cons_self (i : ι) (p q : List ι) :
    split (i :: p) (i :: q) = (i :: (split p q).1, (split p q).2.1, (split p q).2.2) := by
  simp [split]

theorem split_cons_ne {i j : ι} (h : i ≠ j) (p q : List ι) :
    split (i :: p) (j :: q) = ([], i :: p, j :: q) := by
  simp [split, h]

@[simp] theorem split_append_left (p q : List ι) : split p (p ++ q) = (p, [], q) := by
  induction p with
  | nil => simp
  | cons i p ih => simp [ih]

/-- The two strings are the common prefix followed by their remainders. -/
theorem split_eq : ∀ p q : List ι,
    p = (split p q).1 ++ (split p q).2.1 ∧ q = (split p q).1 ++ (split p q).2.2
  | [], q => by simp
  | p, [] => by simp
  | i :: p, j :: q => by
    by_cases h : i = j
    · subst h
      have ih := split_eq p q
      simp only [split_cons_self, List.cons_append, List.cons.injEq, true_and]
      exact ih
    · simp [split_cons_ne h]

/-- The remainders differ in their first digit. -/
theorem split_heads_ne : ∀ {p q c p' q' : List ι} {i j : ι},
    split p q = (c, i :: p', j :: q') → i ≠ j
  | [], q, c, p', q', i, j, h => by simp at h
  | a :: p, [], c, p', q', i, j, h => by simp at h
  | a :: p, b :: q, c, p', q', i, j, h => by
    by_cases hab : a = b
    · subst hab
      simp only [split_cons_self, Prod.mk.injEq] at h
      exact split_heads_ne (Prod.ext rfl (Prod.ext h.2.1 h.2.2))
    · rw [split_cons_ne hab] at h
      simp only [Prod.mk.injEq, List.cons.injEq] at h
      obtain ⟨_, ⟨rfl, _⟩, rfl, _⟩ := h
      exact hab

@[simp] theorem stripPrefix_nil (key : List ι) : stripPrefix [] key = some key := rfl

@[simp] theorem stripPrefix_cons_self (i : ι) (p key : List ι) :
    stripPrefix (i :: p) (i :: key) = stripPrefix p key := by
  simp [stripPrefix]

theorem stripPrefix_cons_ne {i j : ι} (h : i ≠ j) (p key : List ι) :
    stripPrefix (i :: p) (j :: key) = none := by
  simp [stripPrefix, h]

theorem stripPrefix_eq_some {p key tail : List ι} :
    stripPrefix p key = some tail ↔ key = p ++ tail := by
  induction p generalizing key with
  | nil => simp
  | cons i p ih =>
    cases key with
    | nil => simp [stripPrefix]
    | cons j key =>
      by_cases h : i = j
      · subst h
        simp [ih]
      · simp [stripPrefix_cons_ne h, Ne.symm h]

@[simp] theorem stripPrefix_append (p tail : List ι) : stripPrefix p (p ++ tail) = some tail :=
  stripPrefix_eq_some.mpr rfl

end Prefixes

/-! ## Children of a branch -/

namespace Radix

variable {k : Nat} {β δ : Type}

def isNull : Radix k β δ → Bool
  | null => true
  | _ => false

@[simp] theorem isNull_iff {t : Radix k β δ} : t.isNull = true ↔ t = null := by
  cases t <;> simp [isNull]

@[simp] theorem isNull_eq_false {t : Radix k β δ} : t.isNull = false ↔ t ≠ null := by
  cases t <;> simp [isNull]

/-- The digits whose slot holds a node, in increasing order. -/
def occupied (c : Fin k → Radix k β δ) : List (Fin k) :=
  (List.finRange k).filter fun i => !(c i).isNull

@[simp] theorem mem_occupied {c : Fin k → Radix k β δ} {i : Fin k} :
    i ∈ occupied c ↔ c i ≠ null := by
  simp [occupied]

theorem nodup_occupied (c : Fin k → Radix k β δ) : (occupied c).Nodup :=
  (List.nodup_finRange k).filter _

theorem occupied_eq_nil {c : Fin k → Radix k β δ} : occupied c = [] ↔ ∀ i, c i = null := by
  rw [List.eq_nil_iff_forall_not_mem]
  simp

theorem occupied_eq_singleton {c : Fin k → Radix k β δ} {j : Fin k} :
    occupied c = [j] ↔ c j ≠ null ∧ ∀ i, i ≠ j → c i = null := by
  constructor
  · intro h
    have hm : ∀ i, c i ≠ null ↔ i = j := by
      intro i
      rw [← mem_occupied, h, List.mem_singleton]
    exact ⟨(hm j).mpr rfl, fun i hi => by_contra fun hc => hi ((hm i).mp hc)⟩
  · rintro ⟨hj, hrest⟩
    have hm : ∀ i, i ∈ occupied c ↔ i = j := by
      intro i
      rw [mem_occupied]
      exact ⟨fun hc => by_contra fun hi => hc (hrest i hi), fun hi => hi ▸ hj⟩
    have hperm : (occupied c).Perm [j] := by
      rw [List.perm_ext_iff_of_nodup (nodup_occupied c) (List.nodup_singleton j)]
      simpa using hm
    exact List.perm_singleton.mp hperm

/-- A branch with two different occupied digits has at least two. -/
theorem two_le_occupied {c : Fin k → Radix k β δ} {i j : Fin k} (hij : i ≠ j)
    (hi : c i ≠ null) (hj : c j ≠ null) : 2 ≤ (occupied c).length := by
  have hsub : [i, j] ⊆ occupied c := by
    intro x hx
    simp only [List.mem_cons, List.not_mem_nil, or_false] at hx
    rcases hx with rfl | rfl
    · exact mem_occupied.mpr hi
    · exact mem_occupied.mpr hj
  exact (List.subperm_of_subset (by simp [hij]) hsub).length_le

theorem exists_two_of_le {c : Fin k → Radix k β δ} (h : 2 ≤ (occupied c).length) :
    ∃ i j, i ≠ j ∧ c i ≠ null ∧ c j ≠ null := by
  rcases hl : occupied c with _ | ⟨i, _ | ⟨j, rest⟩⟩
  · simp [hl] at h
  · simp [hl] at h
  · have hnd := nodup_occupied c
    rw [hl] at hnd
    refine ⟨i, j, ?_, ?_, ?_⟩
    · intro hij
      subst hij
      simp at hnd
    · exact mem_occupied.mp (by simp [hl])
    · exact mem_occupied.mp (by simp [hl])

/-- A branch has no child, one child, or two. -/
theorem occupied_cases (c : Fin k → Radix k β δ) :
    (occupied c = [] ∧ ∀ i, c i = null) ∨
      (∃ j, occupied c = [j] ∧ c j ≠ null ∧ ∀ i, i ≠ j → c i = null) ∨
      2 ≤ (occupied c).length := by
  rcases hl : occupied c with _ | ⟨i, _ | ⟨j, rest⟩⟩
  · exact .inl ⟨rfl, occupied_eq_nil.mp hl⟩
  · exact .inr (.inl ⟨i, rfl, occupied_eq_singleton.mp hl⟩)
  · exact .inr (.inr (by simp))

/-! ## Operations -/

/-- Put a path in front of a tree.  The paths of a leaf and of an extension
absorb it, so that no extension points to either. -/
def extend (p : List (Fin k)) : Radix k β δ → Radix k β δ
  | null => null
  | hole => null
  | leaf q v => leaf (p ++ q) v
  | ext q c => ext (p ++ q) c
  | branch c => ext p (branch c)
  | digest d => ext p (digest d)

@[simp] theorem extend_null (p : List (Fin k)) : extend p (null : Radix k β δ) = null := rfl

@[simp] theorem extend_leaf (p q : List (Fin k)) (v : β) :
    extend p (leaf q v : Radix k β δ) = leaf (p ++ q) v := rfl

@[simp] theorem extend_ext (p q : List (Fin k)) (c : Radix k β δ) :
    extend p (ext q c) = ext (p ++ q) c := rfl

@[simp] theorem extend_branch (p : List (Fin k)) (c : Fin k → Radix k β δ) :
    extend p (branch c) = ext p (branch c) := rfl

@[simp] theorem extend_digest (p : List (Fin k)) (d : δ) :
    extend p (digest d : Radix k β δ) = ext p (digest d) := rfl

theorem extend_extend (p q : List (Fin k)) (t : Radix k β δ) :
    extend p (extend q t) = extend (p ++ q) t := by
  cases t <;> simp [extend]

/-- Put a path in front of a tree that is not merged with it. -/
def graft : List (Fin k) → Radix k β δ → Radix k β δ
  | [], t => t
  | i :: p, t => ext (i :: p) t

/-- A branch with two children. -/
def fork (i : Fin k) (t : Radix k β δ) (j : Fin k) (u : Radix k β δ) : Radix k β δ :=
  branch (Function.update (Function.update (fun _ => null) i t) j u)

def get : Radix k β δ → List (Fin k) → Except (Fault δ) (Option β)
  | null, _ => .ok none
  | hole, _ => .ok none
  | branch _, [] => .ok none
  | branch c, i :: key => (c i).get key
  | leaf p v, key => .ok (if p = key then some v else none)
  | ext p c, key =>
    match stripPrefix p key with
    | some tail => c.get tail
    | none => .ok none
  | digest d, _ => .error (.unresolved d)

/-- Bind a key.  The flag says whether the stored value changed. -/
def insert [DecidableEq β] : Radix k β δ → List (Fin k) → β → Except (Fault δ) (Bool × Radix k β δ)
  | null, key, v => .ok (true, leaf key v)
  | hole, key, v => .ok (true, leaf key v)
  | branch _, [], _ => .error .branchValue
  | branch c, i :: key, v =>
    ((c i).insert key v).map fun r => (r.1, branch (Function.update c i r.2))
  | leaf p old, key, v =>
    match split p key with
    | (_, [], []) => .ok (if old = v then (false, leaf p old) else (true, leaf p v))
    | (c, i :: p', j :: q') => .ok (true, graft c (fork i (leaf p' old) j (leaf q' v)))
    | _ => .error .branchValue
  | ext p t, key, v =>
    match split p key with
    | (_, [], q') => (t.insert q' v).map fun r => (r.1, ext p r.2)
    | (_, _ :: _, []) => .error .branchValue
    | (c, i :: p', j :: q') => .ok (true, graft c (fork i (graft p' t) j (leaf q' v)))
  | digest d, _, _ => .error (.unresolved d)

/-- Replace a branch that has lost a child.  A branch left with one child
becomes that child under a longer path. -/
def shrink (c : Fin k → Radix k β δ) : Except (Fault δ) (Bool × Radix k β δ) :=
  match occupied c with
  | [] => .error .stuck
  | [j] =>
    match c j with
    | hole => .error .stuck
    | t => .ok (true, extend [j] t)
  | _ => .ok (true, branch c)

/-- Unbind a key.  The flag says whether the key was bound. -/
def delete : Radix k β δ → List (Fin k) → Except (Fault δ) (Bool × Radix k β δ)
  | null, _ => .ok (false, null)
  | hole, _ => .ok (false, hole)
  | branch _, [] => .error .branchValue
  | branch c, i :: key => do
    let r ← (c i).delete key
    if r.1 then shrink (Function.update c i r.2) else .ok (false, branch c)
  | leaf p v, key => .ok (if p = key then (true, null) else (false, leaf p v))
  | ext p t, key =>
    match stripPrefix p key with
    | some tail => (t.delete tail).map fun r =>
        if r.1 then (true, extend p r.2) else (false, ext p t)
    | none => .ok (false, ext p t)
  | digest d, _ => .error (.unresolved d)

/-! ## Normal form -/

/-- An extension points to a branch, or to something that cannot be seen. -/
def isBranching : Radix k β δ → Prop
  | branch _ => True
  | digest _ => True
  | _ => False

/-- Nothing is left to compress: no branch has fewer than two children, no
extension has an empty path or points to a leaf or an extension, and no slot
holds an erased node. -/
def Normal : Radix k β δ → Prop
  | null => True
  | hole => False
  | leaf _ _ => True
  | ext p c => p ≠ [] ∧ c.isBranching ∧ c.Normal
  | branch c => 2 ≤ (occupied c).length ∧ ∀ i, (c i).Normal
  | digest _ => True

/-- No subtree is opaque. -/
def Resolved : Radix k β δ → Prop
  | ext _ c => c.Resolved
  | branch c => ∀ i, (c i).Resolved
  | digest _ => False
  | _ => True

/-- Every key stored in the tree has `n` digits left. -/
def Sized : Nat → Radix k β δ → Prop
  | n, leaf p _ => p.length = n
  | n, ext p c => p.length ≤ n ∧ c.Sized (n - p.length)
  | n, branch c => 0 < n ∧ ∀ i, (c i).Sized (n - 1)
  | _, _ => True

end Radix
end Patricia
end CenoReth
