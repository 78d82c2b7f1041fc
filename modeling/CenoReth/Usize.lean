/-
Sums of machine words.

An addition whose result does not fit wraps around, or there is no result where
overflow is checked.  Which of the two is a setting of the build.  `sumUsize_eq`
has the sum of a list in both builds.
-/
import Mathlib.Algebra.Order.Group.Nat
import Mathlib.Data.List.Basic

namespace CenoReth

/-- `a + b`. -/
def addUsize (overflowChecks : Bool) (a b : UInt64) : Option UInt64 :=
  if overflowChecks = true ∧ 2 ^ 64 ≤ a.toNat + b.toNat then none else some (a + b)

/-- `Iterator::sum`. -/
def sumUsize (overflowChecks : Bool) (l : List UInt64) : Option UInt64 :=
  l.foldlM (addUsize overflowChecks) 0

/-- The sum in unbounded numbers. -/
def exactSum : List UInt64 → Nat
  | [] => 0
  | a :: l => a.toNat + exactSum l

@[simp] theorem exactSum_nil : exactSum [] = 0 := rfl

@[simp] theorem exactSum_cons (a : UInt64) (l : List UInt64) :
    exactSum (a :: l) = a.toNat + exactSum l := rfl

/-- A part of a list has no greater sum. -/
theorem exactSum_le_of_sublist {l l' : List UInt64} (h : l.Sublist l') :
    exactSum l ≤ exactSum l' := by
  induction h with
  | slnil => exact Nat.le_refl _
  | cons a _ ih => exact Nat.le_trans ih (Nat.le_add_left _ a.toNat)
  | cons_cons a _ ih => exact Nat.add_le_add_left ih a.toNat

theorem exactSum_perm {l l' : List UInt64} (h : l.Perm l') : exactSum l = exactSum l' := by
  induction h with
  | nil => rfl
  | cons a _ ih => exact congrArg (a.toNat + ·) ih
  | swap a b l => exact Nat.add_left_comm b.toNat a.toNat (exactSum l)
  | trans _ _ ih ih' => exact ih.trans ih'

/-- The sum wraps around, or it is missing if it does not fit and overflow is checked. -/
theorem foldlM_addUsize (overflowChecks : Bool) : ∀ (l : List UInt64) (a : UInt64),
    l.foldlM (addUsize overflowChecks) a =
      if overflowChecks = true ∧ 2 ^ 64 ≤ a.toNat + exactSum l then none
      else some (UInt64.ofNat (a.toNat + exactSum l))
  | [], a => by
    rw [if_neg fun h => absurd h.2 (not_le_of_gt a.toNat_lt)]
    simp
  | b :: l, a => by
    rw [List.foldlM_cons, addUsize, exactSum_cons, ← Nat.add_assoc]
    by_cases hab : overflowChecks = true ∧ 2 ^ 64 ≤ a.toNat + b.toNat
    · rw [if_pos hab, if_pos ⟨hab.1, hab.2.trans (Nat.le_add_right _ _)⟩]
      rfl
    · rw [if_neg hab]
      refine (foldlM_addUsize overflowChecks l (a + b)).trans ?_
      have hsum : UInt64.ofNat ((a + b).toNat + exactSum l) =
          UInt64.ofNat (a.toNat + b.toNat + exactSum l) := by
        rw [UInt64.ofNat_add, UInt64.ofNat_add _ (exactSum l), UInt64.ofNat_toNat,
          UInt64.ofNat_add, UInt64.ofNat_toNat, UInt64.ofNat_toNat]
      rw [hsum]
      cases overflowChecks with
      | false => simp
      | true =>
        -- the first two words fit, so their sum does not wrap
        have hfit : a.toNat + b.toNat < 2 ^ 64 := by simpa using hab
        rw [UInt64.toNat_add, Nat.mod_eq_of_lt hfit]

theorem sumUsize_eq (overflowChecks : Bool) (l : List UInt64) :
    sumUsize overflowChecks l =
      if overflowChecks = true ∧ 2 ^ 64 ≤ exactSum l then none
      else some (UInt64.ofNat (exactSum l)) := by
  have h := foldlM_addUsize overflowChecks l 0
  rwa [UInt64.toNat_zero, Nat.zero_add] at h

end CenoReth
