/-
Writes at different positions commute.

A write of a sparse trie fails when its position is inside an opaque subtree,
and it never makes a position opaque or visible.  So a list of writes at
different positions has one result, or none, in whatever order it is applied.
-/
import CenoReth.Patricia.Canonical
import Mathlib.Data.List.Perm.Basic

namespace CenoReth
namespace Patricia
namespace Sparse

variable {k : Nat} {β δ : Type}

/-- Write one position, unless it is opaque. -/
def write {n : Nat} (s : Sparse k β δ n) (key : List (Fin k)) (o : Option β) :
    Option (Sparse k β δ n) :=
  match s.get key with
  | .ok _ => some (s.set key o)
  | .error _ => none

theorem write_node {n : Nat} (c : Fin k → Sparse k β δ n) (i : Fin k) (key : List (Fin k))
    (o : Option β) :
    (node c).write (i :: key) o =
      ((c i).write key o).map fun s => node (Function.update c i s) := by
  unfold write
  rw [get, set]
  cases (c i).get key <;> rfl

/-- Two writes below one child. -/
theorem write_node_bind {n : Nat} (c : Fin k → Sparse k β δ n) (i : Fin k)
    (key key' : List (Fin k)) (o o' : Option β) :
    ((node c).write (i :: key) o).bind (fun s => s.write (i :: key') o') =
      (((c i).write key o).bind fun s => s.write key' o').map
        fun s => node (Function.update c i s) := by
  rw [write_node]
  cases (c i).write key o with
  | none => rfl
  | some s =>
    simp only [Option.map_some, Option.bind_some]
    rw [write_node]
    simp [Function.update_idem]

/-- Two writes below different children. -/
theorem write_node_bind_ne {n : Nat} (c : Fin k → Sparse k β δ n) {i j : Fin k} (hij : i ≠ j)
    (key key' : List (Fin k)) (o o' : Option β) :
    ((node c).write (i :: key) o).bind (fun s => s.write (j :: key') o') =
      ((c i).write key o).bind fun s => ((c j).write key' o').map
        fun s' => node (Function.update (Function.update c i s) j s') := by
  rw [write_node]
  cases (c i).write key o with
  | none => rfl
  | some s =>
    simp only [Option.map_some, Option.bind_some]
    rw [write_node, Function.update_of_ne (Ne.symm hij)]

theorem write_comm : {n : Nat} → (s : Sparse k β δ n) → {key key' : List (Fin k)} →
    key.length = n → key'.length = n → key ≠ key' → (o o' : Option β) →
    (s.write key o).bind (fun s => s.write key' o') =
      (s.write key' o').bind fun s => s.write key o
  | _, digest d, _, _, _, _, _, _, _ => rfl
  | _, value v, [], [], _, _, hne, _, _ => absurd rfl hne
  | _, node c, i :: key, j :: key', h, h', hne, o, o' => by
    by_cases hij : i = j
    · subst hij
      have hkey : key ≠ key' := fun he => hne (by rw [he])
      rw [write_node_bind, write_node_bind, write_comm (c i) (by simpa using h)
        (by simpa using h') hkey o o']
    · rw [write_node_bind_ne c hij, write_node_bind_ne c (Ne.symm hij)]
      cases (c i).write key o with
      | none =>
        cases (c j).write key' o' <;> rfl
      | some s =>
        cases (c j).write key' o' with
        | none => rfl
        | some s' => simp [Function.update_comm (Ne.symm hij)]

/-! ## Lists of writes -/

/-- The result of all writes of a list, if none of them is opaque. -/
def writeAll {n : Nat} (s : Sparse k β δ n) (ops : List (List (Fin k) × Option β)) :
    Option (Sparse k β δ n) :=
  ops.foldl (fun s op => s.bind fun s => s.write op.1 op.2) (some s)

theorem foldl_bind_none {σ ι : Type} (f : σ → ι → Option σ) (l : List ι) :
    l.foldl (fun s i => s.bind fun s => f s i) none = none := by
  induction l with
  | nil => rfl
  | cons i l ih => exact ih

theorem writeAll_cons {n : Nat} (s : Sparse k β δ n) (key : List (Fin k)) (o : Option β)
    (ops : List (List (Fin k) × Option β)) :
    s.writeAll ((key, o) :: ops) = (s.write key o).bind fun s => s.writeAll ops := by
  unfold writeAll
  rw [List.foldl_cons, Option.bind_some]
  cases s.write key o with
  | none => exact foldl_bind_none (fun s op => write s op.1 op.2) ops
  | some s => rfl

/-- The result does not depend on the order. -/
theorem writeAll_perm {n : Nat} (s : Sparse k β δ n) {ops ops' : List (List (Fin k) × Option β)}
    (h : ops.Perm ops') (hlen : ∀ op ∈ ops, op.1.length = n) (hnd : (ops.map Prod.fst).Nodup) :
    s.writeAll ops = s.writeAll ops' := by
  refine h.foldl_eq' (fun x hx y hy z => ?_) _
  by_cases hxy : x = y
  · rw [hxy]
  · have hkey : x.1 ≠ y.1 := fun he => hxy (List.inj_on_of_nodup_map hnd hx hy he)
    cases z with
    | none => rfl
    | some s => exact write_comm s (hlen x hx) (hlen y hy) hkey x.2 y.2

end Sparse
end Patricia
end CenoReth
