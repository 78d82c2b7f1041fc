/-
The weights of the keys that a frontier is built for.

`build_frontier_weighted` sorts the keys and merges equal ones, and at every node
it adds the weights of the keys that get there.  Merging keeps what the recursion
looks at: which keys there are, and the weight of those that meet a condition, as
far as it fits into a word (`Alike`).  Where overflow is checked, a sum that does
not fit is the only way to stop.
-/
import CenoReth.Mpt.Frontier

namespace CenoReth
namespace Mpt

variable {E : Env}

/-- The weight of all keys. -/
def weight (keys : List WeightedKey) : Nat := exactSum (keys.map Prod.snd)

@[simp] theorem weight_nil : weight [] = 0 := rfl

@[simp] theorem weight_cons (key : WeightedKey) (keys : List WeightedKey) :
    weight (key :: keys) = key.2.toNat + weight keys := rfl

theorem weight_le_of_sublist {keys keys' : List WeightedKey} (h : keys.Sublist keys') :
    weight keys ≤ weight keys' :=
  exactSum_le_of_sublist (h.map Prod.snd)

theorem weight_perm {keys keys' : List WeightedKey} (h : keys.Perm keys') :
    weight keys = weight keys' :=
  exactSum_perm (h.map Prod.snd)

/-- The weights do not fit into a word, and overflow is checked. -/
def Overflows (E : Env) (keys : List WeightedKey) : Prop :=
  E.overflowChecks = true ∧ 2 ^ 64 ≤ weight keys

theorem Overflows.mono {keys keys' : List WeightedKey} (h : Overflows E keys)
    (hle : weight keys ≤ weight keys') : Overflows E keys' :=
  ⟨h.1, h.2.trans hle⟩

/-- Every way to stop but an overflow of the weights. -/
def Unexpected (E : Env) (keys : List WeightedKey) (h : Halt) : Prop :=
  ¬ (h = .panic ∧ Overflows E keys)

theorem Unexpected.mono {keys keys' : List WeightedKey} {h : Halt} (hu : Unexpected E keys' h)
    (hle : weight keys ≤ weight keys') : Unexpected E keys h :=
  fun ⟨hpanic, ho⟩ => hu ⟨hpanic, ho.mono hle⟩

/-- The sum of the weights up to `2 ^ 64`, or a panic where they overflow. -/
theorem sumWeights_cases (E : Env) (keys : List WeightedKey) :
    (∃ sum, orOverflow (sumUsize E.overflowChecks (keys.map Prod.snd)) = .ok sum ∧
      sum.toNat = weight keys % 2 ^ 64) ∨
    orOverflow (sumUsize E.overflowChecks (keys.map Prod.snd)) = .error .panic ∧
      Overflows E keys := by
  rw [sumUsize_eq]
  split
  · rename_i hover
    exact .inr ⟨rfl, hover⟩
  · exact .inl ⟨_, rfl, UInt64.toNat_ofNat'⟩

/-! ## Merged keys -/

/-- The same keys, and the same weight of those that meet a condition. -/
structure Alike (keys keys' : List WeightedKey) : Prop where
  weights : ∀ f : List UInt8 → Bool, weight (keys.filter fun key => f key.1) % 2 ^ 64 =
    weight (keys'.filter fun key => f key.1) % 2 ^ 64
  keys : ∀ nibs, (∃ w, (nibs, w) ∈ keys) ↔ ∃ w, (nibs, w) ∈ keys'

section Alike

variable {keys keys' keys'' : List WeightedKey}

theorem Alike.refl (keys : List WeightedKey) : Alike keys keys := ⟨fun _ => rfl, fun _ => Iff.rfl⟩

theorem Alike.trans (h : Alike keys keys') (h' : Alike keys' keys'') : Alike keys keys'' :=
  ⟨fun f => (h.weights f).trans (h'.weights f), fun nibs => (h.keys nibs).trans (h'.keys nibs)⟩

theorem Alike.of_perm (h : keys.Perm keys') : Alike keys keys' :=
  ⟨fun _ => by rw [weight_perm (h.filter _)], fun nibs => by simp only [h.mem_iff]⟩

theorem Alike.cons (key : WeightedKey) (h : Alike keys keys') :
    Alike (key :: keys) (key :: keys') := by
  refine ⟨fun f => ?_, fun nibs => ?_⟩
  · have hf := h.weights f
    rw [List.filter_cons, List.filter_cons]
    split
    · rw [weight_cons, weight_cons, Nat.add_mod, hf, ← Nat.add_mod]
    · exact hf
  · simp only [List.mem_cons, exists_or, h.keys nibs]

/-- Two equal keys, and one with both weights. -/
theorem alike_merge (nibs : List UInt8) (v w : UInt64) (keys : List WeightedKey) :
    Alike ((nibs, v + w) :: keys) ((nibs, v) :: (nibs, w) :: keys) := by
  refine ⟨fun f => ?_, fun nibs' => ?_⟩
  · simp only [List.filter_cons]
    split
    · simp only [weight_cons, UInt64.toNat_add]
      omega
    · rfl
  · simp only [List.mem_cons, exists_or, Prod.mk.injEq, exists_and_left, exists_eq, and_true]
    tauto

theorem Alike.childKeys (h : Alike keys keys') (depth : Nat) (i : Fin 16) :
    Alike (childKeys keys depth i) (childKeys keys' depth i) := by
  unfold Mpt.childKeys
  refine ⟨fun f => ?_, fun nibs => ?_⟩
  · rw [List.filter_filter, List.filter_filter]
    exact h.weights fun nibs => f nibs && decide (nibs[depth]? = some (Nibble.toByte i))
  · simp only [List.mem_filter, decide_eq_true_eq, exists_and_right, h.keys nibs]

theorem Alike.eq_nil_iff (h : Alike keys keys') : keys = [] ↔ keys' = [] := by
  simp only [List.eq_nil_iff_forall_not_mem, Prod.forall]
  have hkeys : ∀ nibs, (∀ w, (nibs, w) ∉ keys) ↔ ∀ w, (nibs, w) ∉ keys' := by
    intro nibs
    rw [← not_exists, ← not_exists, h.keys nibs]
  exact forall_congr' hkeys

theorem Alike.weight_eq (h : Alike keys keys') : weight keys % 2 ^ 64 = weight keys' % 2 ^ 64 := by
  have hall := h.weights fun _ => true
  rwa [List.filter_true, List.filter_true] at hall

end Alike

/-- What merging leads to: keys that are alike, unless a weight overflows. -/
structure Merges (E : Env) (keys : List WeightedKey) (r : Except Halt (List WeightedKey))
    (merged : List WeightedKey) : Prop where
  alike : Alike merged keys
  weight_le : weight merged ≤ weight keys
  result : r = .ok merged ∨ r = .error .panic ∧ Overflows E keys

theorem merges_dedupKeys : ∀ (keys : List WeightedKey) (last : WeightedKey),
    ∃ merged, Merges E (last :: keys) (dedupKeys E last keys) merged
  | [], last => ⟨[last], .refl _, le_rfl, .inl rfl⟩
  | key :: keys, last => by
    rw [dedupKeys]
    split
    · rename_i heq
      obtain ⟨merged, h⟩ := merges_dedupKeys keys (last.1, last.2 + key.2)
      have hle : weight ((last.1, last.2 + key.2) :: keys) ≤ weight (last :: key :: keys) := by
        have := Nat.mod_le (last.2.toNat + key.2.toNat) (2 ^ 64)
        simp only [weight_cons, UInt64.toNat_add]
        omega
      have hkey : key = (last.1, key.2) := Prod.ext heq rfl
      refine ⟨merged, h.alike.trans ?_, h.weight_le.trans hle, ?_⟩
      · rw [hkey]
        exact alike_merge last.1 last.2 key.2 keys
      · unfold addUsize
        split
        · rename_i hover
          refine .inr ⟨rfl, hover.1, ?_⟩
          simp only [weight_cons]
          omega
        · rcases h.result with hok | ⟨herr, ho⟩
          · exact .inl hok
          · exact .inr ⟨herr, ho.mono hle⟩
    · obtain ⟨merged, h⟩ := merges_dedupKeys keys key
      refine ⟨last :: merged, h.alike.cons last, Nat.add_le_add_left h.weight_le _, ?_⟩
      rcases h.result with hok | ⟨herr, ho⟩
      · rw [hok]
        exact .inl rfl
      · rw [herr]
        exact .inr ⟨rfl, ho.mono (Nat.le_add_left _ _)⟩

/-- The sorted keys are the given ones. -/
theorem merges_sortedKeys (E : Env) (keys : List (B256 × UInt64)) :
    ∃ merged, Merges E (nibbleKeys keys) (sortedKeys E keys) merged := by
  have hperm := List.perm_insertionSort
    (fun a b : WeightedKey => a.1 ≤ b.1) (nibbleKeys keys)
  unfold sortedKeys
  split
  · rename_i hsort
    rw [hsort] at hperm
    exact ⟨[], .of_perm hperm, Nat.zero_le _, .inl rfl⟩
  · rename_i key rest hsort
    rw [hsort] at hperm
    obtain ⟨merged, h⟩ := merges_dedupKeys (E := E) rest key
    have hweight := weight_perm hperm
    refine ⟨merged, h.alike.trans (.of_perm hperm), hweight ▸ h.weight_le, ?_⟩
    exact h.result.imp_right fun ⟨herr, ho⟩ => ⟨herr, ho.mono hweight.le⟩

theorem nibbleKeys_eq_nil {keys : List (B256 × UInt64)} : nibbleKeys keys = [] ↔ keys = [] :=
  List.map_eq_nil_iff

theorem weight_nibbleKeys (keys : List (B256 × UInt64)) :
    weight (nibbleKeys keys) = exactSum (keys.map Prod.snd) := by
  rw [weight, nibbleKeys, List.map_map]
  rfl

theorem mem_nibbleKeys {keys : List (B256 × UInt64)} {nibs : List UInt8} :
    (∃ w, (nibs, w) ∈ nibbleKeys keys) ↔ ∃ key ∈ keys, Hp.toNibs key.1.bytes = nibs := by
  simp only [nibbleKeys, List.mem_map, Prod.mk.injEq]
  constructor
  · rintro ⟨w, key, hkey, hn, _⟩
    exact ⟨key, hkey, hn⟩
  · rintro ⟨key, hkey, hn⟩
    exact ⟨key.2, key, hkey, hn, rfl⟩

end Mpt
end CenoReth
