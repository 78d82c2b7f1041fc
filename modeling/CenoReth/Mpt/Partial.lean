/-
Runs on a partial trie.

An arena that holds a partial view of a trie answers lookups and performs
insertions like an arena that holds the whole trie, as long as it does not meet a
missing subtree.
-/
import CenoReth.Mpt.View

namespace CenoReth
namespace Mpt

open Patricia Patricia.Radix Trie

variable {E : Env}

/-! ## Faults of the full trie -/

/-- Nothing is missing in a resolved trie. -/
theorem get_of_resolved {t : Trie} (h : t.Resolved) (key : List Nibble) :
    ∃ o, t.get key = .ok o := by
  induction t generalizing key with
  | null => exact ⟨_, rfl⟩
  | hole => exact ⟨_, rfl⟩
  | leaf p v => exact ⟨_, rfl⟩
  | digest d => exact h.elim
  | ext p c ih =>
    rw [Radix.get]
    cases stripPrefix p key with
    | none => exact ⟨_, rfl⟩
    | some tail => exact ih h tail
  | branch c ih =>
    cases key with
    | nil => exact ⟨_, rfl⟩
    | cons i key => exact ih i (h i) key

/-- The faults of an insertion. -/
theorem insert_error {t : Trie} {key : List Nibble} {v : Bytes} {f : Fault B256}
    (h : t.insert key v = .error f) : f = .branchValue ∨ ((∃ d, f = .unresolved d) ∧ ¬ t.Resolved) := by
  induction t generalizing key with
  | null => simp [Radix.insert] at h
  | hole => simp [Radix.insert] at h
  | digest d =>
    simp only [Radix.insert, Except.error.injEq] at h
    exact .inr ⟨⟨d, h.symm⟩, id⟩
  | leaf p old =>
    rw [Radix.insert] at h
    split at h
    · simp at h
    · simp at h
    · simp only [Except.error.injEq] at h
      exact .inl h.symm
  | ext p c ih =>
    rw [Radix.insert] at h
    split at h
    · rename_i q' _
      cases hc : c.insert q' v with
      | error e =>
        simp only [hc, Except.map, Except.error.injEq] at h
        exact ih (h ▸ hc)
      | ok r => simp [hc, Except.map] at h
    · simp only [Except.error.injEq] at h
      exact .inl h.symm
    · simp at h
  | branch c ih =>
    cases key with
    | nil =>
      simp only [Radix.insert, Except.error.injEq] at h
      exact .inl h.symm
    | cons i key =>
      rw [Radix.insert] at h
      cases hc : (c i).insert key v with
      | error e =>
        simp only [hc, Except.map, Except.error.injEq] at h
        exact (ih i (h ▸ hc)).imp id fun hr => ⟨hr.1, fun hall => hr.2 (hall i)⟩
      | ok r => simp [hc, Except.map] at h

/-- Insertion of a key of the right length into a canonical trie. -/
theorem insert_isTrie {n : Nat} {t : Trie} (h : IsTrie n t) {key : List Nibble}
    (hk : key.length = n) (v : Bytes) : ∃ b t', t.insert key v = .ok (b, t') ∧ IsTrie n t' := by
  obtain ⟨s, rfl⟩ := isTrie_iff.mp h
  exact ⟨_, _, insert_canonical s hk v, isTrie_canonical n _⟩

/-! ## One call -/

/-- `mP` holds a partial view of the canonical trie that `mT` holds. -/
def PartialOf (E : Env) (n : Nat) (mP mT : Mpt) : Prop :=
  ∃ P T, IsTrie (2 * n) T ∧ View E P T ∧ Represents E mP P ∧ Represents E mT T

theorem hash_of_view {P T : Trie} {mP mT : Mpt} (hv : View E P T) (hP : Represents E mP P)
    (hT : Represents E mT T) : (hash E mP).1 = (hash E mT).1 := by
  obtain ⟨mP', hP', _⟩ := hash_represents hP
  obtain ⟨mT', hT', _⟩ := hash_represents hT
  rw [hP', hT', hv.hash_eq]

theorem get_of_view {P T : Trie} {mP mT : Mpt} (hr : T.Resolved) (hv : View E P T)
    (hP : Represents E mP P) (hT : Represents E mT T) (key : Bytes) :
    (∃ d, get key mP = (.error (.err (.nodeNotResolved d)), mP)) ∨
      ∃ o, get key mP = (.ok o, mP) ∧ get key mT = (.ok o, mT) := by
  have hgP := getNibbles_spec hP (Hp.keyNibs key)
  have hgT := getNibbles_spec hT (Hp.keyNibs key)
  rw [Hp.map_toByte_keyNibs] at hgP hgT
  rcases hv.get_cases (Hp.keyNibs key) with ⟨d, hd⟩ | hsame
  · rw [hd] at hgP
    exact .inl ⟨d, hgP⟩
  · obtain ⟨o, ho⟩ := get_of_resolved hr (Hp.keyNibs key)
    rw [hsame, ho] at hgP
    rw [ho] at hgT
    exact .inr ⟨o, hgP, hgT⟩

theorem insert_of_view {P T : Trie} {mP mT : Mpt} (hr : T.Resolved) (hv : View E P T)
    (hP : Represents E mP P) (hT : Represents E mT T) (key v : Bytes) :
    (∃ d, insert key v mP = (.error (.err (.nodeNotResolved d)), mP)) ∨
      (∃ b mP' mT' P' T', insert key v mP = (.ok b, mP') ∧ insert key v mT = (.ok b, mT') ∧
        T.insert (Hp.keyNibs key) v = .ok (b, T') ∧ View E P' T' ∧ Represents E mP' P' ∧
        Represents E mT' T') ∨
      (T.insert (Hp.keyNibs key) v = .error .branchValue ∧
        insert key v mP = (.error (.err .valueInBranch), mP) ∧
        insert key v mT = (.error (.err .valueInBranch), mT)) := by
  unfold insert
  rw [← Hp.map_toByte_keyNibs]
  rcases hv.insert_cases (Hp.keyNibs key) v with ⟨d, hd⟩ | hsame
  · exact .inl ⟨d, insertNibbles_error hP hd (by simp)⟩
  · cases hiP : P.insert (Hp.keyNibs key) v with
    | error f =>
      cases hiT : T.insert (Hp.keyNibs key) v with
      | error f' =>
        rw [hiP, hiT] at hsame
        obtain rfl : f = f' := hsame
        rcases insert_error hiT with rfl | ⟨_, hn⟩
        · exact .inr (.inr ⟨rfl, insertNibbles_error hP hiP (by simp),
            insertNibbles_error hT hiT (by simp)⟩)
        · exact absurd hr hn
      | ok r =>
        rw [hiP, hiT] at hsame
        exact hsame.elim
    | ok r =>
      obtain ⟨b, P'⟩ := r
      cases hiT : T.insert (Hp.keyNibs key) v with
      | error f' =>
        rw [hiP, hiT] at hsame
        exact hsame.elim
      | ok r' =>
        obtain ⟨b', T'⟩ := r'
        rw [hiP, hiT] at hsame
        obtain ⟨rfl, hv'⟩ := hsame
        obtain ⟨mP', hmP', hrP'⟩ := insertNibbles_spec hP hiP
        obtain ⟨mT', hmT', hrT'⟩ := insertNibbles_spec hT hiT
        exact .inr (.inl ⟨b, mP', mT', P', T', hmP', hmT', rfl, hv', hrP', hrT'⟩)

/-! ## Runs -/

/-- A call that removes nothing. -/
def Op.Keeps : Op → Prop
  | .delete _ => False
  | _ => True

/-- One call that succeeds on the partial trie. -/
theorem PartialOf.step {n : Nat} {mP mT mP' : Mpt} {op : Op} {ret : Ret} (h : PartialOf E n mP mT)
    (hop : KeyLength n op) (hk : op.Keeps) (hrun : op.run E mP = (.ok ret, mP')) :
    ∃ mT', op.run E mT = (.ok ret, mT') ∧ PartialOf E n mP' mT' := by
  obtain ⟨P, T, hT, hv, hrP, hrT⟩ := h
  cases op with
  | delete key => exact hk.elim
  | get key =>
    rcases get_of_view hT.resolved hv hrP hrT key with ⟨d, hd⟩ | ⟨o, hoP, hoT⟩
    · rw [Op.run, Exec.bind_error hd] at hrun
      simp at hrun
    · rw [Op.run, Exec.bind_ok hoP] at hrun
      obtain ⟨rfl, rfl⟩ : Ret.value o = ret ∧ mP = mP' := by simpa using hrun
      exact ⟨mT, Exec.bind_ok hoT, P, T, hT, hv, hrP, hrT⟩
  | insert key v =>
    have hlen : (Hp.keyNibs key).length = 2 * n := by rw [Hp.length_keyNibs, hop key rfl]
    obtain ⟨b', T₁, hT₁, htrie⟩ := insert_isTrie hT hlen v
    rcases insert_of_view hT.resolved hv hrP hrT key v with
      ⟨d, hd⟩ | ⟨b, mP₁, mT₁, P', T', hP₁, hmT₁, hT', hv', hrP', hrT'⟩ | ⟨herr, _⟩
    · rw [Op.run, Exec.bind_error hd] at hrun
      simp at hrun
    · rw [Op.run, Exec.bind_ok hP₁] at hrun
      obtain ⟨rfl, rfl⟩ : Ret.flag b = ret ∧ mP₁ = mP' := by simpa using hrun
      obtain ⟨rfl, rfl⟩ : b' = b ∧ T₁ = T' := by simpa [hT₁] using hT'
      exact ⟨mT₁, Exec.bind_ok hmT₁, P', T₁, htrie, hv', hrP', hrT'⟩
    · simp [hT₁] at herr
  | hash =>
    obtain ⟨mP₁, hP₁, hrP₁⟩ := hash_represents hrP
    obtain ⟨mT₁, hT₁, hrT₁⟩ := hash_represents hrT
    rw [Op.run, Exec.bind_ok hP₁] at hrun
    obtain ⟨rfl, rfl⟩ : Ret.root (Trie.hash E P) = ret ∧ mP₁ = mP' := by simpa using hrun
    refine ⟨mT₁, ?_, P, T, hT, hv, hrP₁, hrT₁⟩
    rw [hv.hash_eq]
    exact Exec.bind_ok hT₁
  | isEmpty =>
    obtain ⟨bP, hP, hiffP⟩ := isEmpty_spec hrP
    obtain ⟨bT, hmT, hiffT⟩ := isEmpty_spec hrT
    rw [Op.run, Exec.bind_ok hP] at hrun
    obtain ⟨rfl, rfl⟩ : Ret.flag bP = ret ∧ mP = mP' := by simpa using hrun
    have hb : bP = bT := by
      rw [Bool.eq_iff_iff, hiffP, hiffT, hv.null_iff, hv.hole_iff]
    exact ⟨mT, hb ▸ Exec.bind_ok hmT, P, T, hT, hv, hrP, hrT⟩

/-- A run that succeeds on the partial trie. -/
theorem PartialOf.run {n : Nat} : ∀ {ops : List Op} {mP mT mP' : Mpt} {rets : List Ret},
    PartialOf E n mP mT → (∀ op ∈ ops, KeyLength n op ∧ op.Keeps) →
    Exec.collect (Op.run E) ops mP = (.ok rets, mP') →
    ∃ mT', Exec.collect (Op.run E) ops mT = (.ok rets, mT') ∧ PartialOf E n mP' mT'
  | [], mP, mT, mP', rets, h, _, hrun => by
    obtain ⟨rfl, rfl⟩ : [] = rets ∧ mP = mP' := by simpa [Exec.collect] using hrun
    exact ⟨mT, rfl, h⟩
  | op :: ops, mP, mT, mP', rets, h, hops, hrun => by
    obtain ⟨ret, mP₁, h₁, hrun₁⟩ := Exec.of_bind_ok hrun
    obtain ⟨rets', mP₂, h₂, hrun₂⟩ := Exec.of_bind_ok hrun₁
    obtain ⟨rfl, rfl⟩ : ret :: rets' = rets ∧ mP₂ = mP' := by simpa using hrun₂
    obtain ⟨mT₁, hT₁, hp₁⟩ := h.step (hops op (by simp)).1 (hops op (by simp)).2 h₁
    obtain ⟨mT₂, hT₂, hp₂⟩ := hp₁.run (fun o ho => hops o (by simp [ho])) h₂
    refine ⟨mT₂, ?_, hp₂⟩
    rw [Exec.collect, Exec.bind_ok hT₁, Exec.bind_ok hT₂]
    rfl

/-- Lookup and insertion on a partial trie stop at a missing node or do what they do
on the full trie, and a run of them that succeeds on the partial trie returns the same
values and ends with the same root on the full trie. -/
theorem partial_simulates_full (E : Env) {n : Nat} {P T : Trie} {mP mT : Mpt}
    (hT : IsTrie (2 * n) T) (hv : View E P T) (hrP : Represents E mP P)
    (hrT : Represents E mT T) :
    (∀ key, (∃ d, get key mP = (.error (.err (.nodeNotResolved d)), mP)) ∨
      ∃ o, get key mP = (.ok o, mP) ∧ get key mT = (.ok o, mT)) ∧
    (∀ key v, (∃ d, insert key v mP = (.error (.err (.nodeNotResolved d)), mP)) ∨
      (∃ b mP' mT' P' T', insert key v mP = (.ok b, mP') ∧ insert key v mT = (.ok b, mT') ∧
        View E P' T' ∧ Represents E mP' P' ∧ Represents E mT' T' ∧
        (hash E mP').1 = (hash E mT').1 ∧ (key.length = n → IsTrie (2 * n) T')) ∨
      (key.length ≠ n ∧ insert key v mP = (.error (.err .valueInBranch), mP) ∧
        insert key v mT = (.error (.err .valueInBranch), mT))) ∧
    (∀ ops rets mP', (∀ op ∈ ops, KeyLength n op ∧ op.Keeps) →
      Exec.collect (Op.run E) ops mP = (.ok rets, mP') →
      ∃ mT', Exec.collect (Op.run E) ops mT = (.ok rets, mT') ∧
        (hash E mP').1 = (hash E mT').1) := by
  refine ⟨get_of_view hT.resolved hv hrP hrT, fun key v => ?_, fun ops rets mP' hops hrun => ?_⟩
  · have hfit : key.length = n → ∃ b T', T.insert (Hp.keyNibs key) v = .ok (b, T') ∧
        IsTrie (2 * n) T' := fun hk => insert_isTrie hT (by rw [Hp.length_keyNibs, hk]) v
    rcases insert_of_view hT.resolved hv hrP hrT key v with
      hd | ⟨b, mP', mT', P', T', hmP', hmT', hT', hv', hrP', hrT'⟩ | ⟨herr, hPerr, hTerr⟩
    · exact .inl hd
    · refine .inr (.inl ⟨b, mP', mT', P', T', hmP', hmT', hv', hrP', hrT',
        hash_of_view hv' hrP' hrT', fun hk => ?_⟩)
      obtain ⟨b₁, T₁, hT₁, htrie⟩ := hfit hk
      obtain ⟨_, rfl⟩ : b₁ = b ∧ T₁ = T' := by simpa [hT₁] using hT'
      exact htrie
    · refine .inr (.inr ⟨fun hk => ?_, hPerr, hTerr⟩)
      obtain ⟨b₁, T₁, hT₁, _⟩ := hfit hk
      simp [hT₁] at herr
  · have hpart : PartialOf E n mP mT := ⟨P, T, hT, hv, hrP, hrT⟩
    obtain ⟨mT', hmT', P', T', _, hv', hrP', hrT'⟩ := hpart.run hops hrun
    exact ⟨mT', hmT', hash_of_view hv' hrP' hrT'⟩

/-! ## A partial trie -/

/-- A value that is too long to be inlined. -/
def sampleValue : Bytes := List.replicate 32 0x11

/-- The hash of the leaf that holds `sampleValue`. -/
def sampleDigest : B256 := B256.ofNat 0xb7064a73795958b3444a2dbb9a418b673e72f970d75935797937df48b55150f5

/-- `keccak256` of the leaf, of the root above it, of the root with a third leaf, and of the roots
that a deletion of the other leaf leaves behind. -/
def sampleEnv : Env := Env.ofTable
  [([0xe2, 0x32, 0xa0] ++ sampleValue, sampleDigest),
   ([0xf3, 0x80, 0xa0] ++ sampleDigest.bytes ++ [0xc2, 0x33, 0x05] ++ List.replicate 14 0x80,
    B256.ofNat 0x31980b9445b2c3d2e25427ed0bbd4e1e9b697fe883d24e81347b92cf68bec01d),
   ([0xf5, 0x80, 0xa0] ++ sampleDigest.bytes ++ [0xc2, 0x33, 0x05, 0xc2, 0x33, 0x07] ++
      List.replicate 13 0x80,
    B256.ofNat 0x24b76a1807d2703264af099a084b44349891b560b9422c77ecbb03ba94a38c7a),
   ([0xe4, 0x82, 0x20, 0x12, 0xa0] ++ sampleValue,
    B256.ofNat 0xc644feeaaa5d0d8557e44652c9d493f65418c7926a1df540ca14f7a2bc3c4a70),
   ([0xe2, 0x11, 0xa0] ++ sampleDigest.bytes,
    B256.ofNat 0x7fe5ea3790e14c8cdd03a461038307c97873220ef4dd12d76d66e07769144dec)]

/-- Two keys of one byte. -/
def sampleTrie : Trie := fork 1 (leaf [2] sampleValue) 2 (leaf [3] [5])

/-- The same with the first leaf left out. -/
def samplePartial : Trie := fork 1 (digest sampleDigest) 2 (leaf [3] [5])

def sampleArena (first : NodeData) : Mpt where
  rootId := 0
  cells := [⟨.branch (forkSlots 1 1 2 2), none⟩, ⟨first, none⟩,
    ⟨.leaf (Hp.encode [3] true) [5], none⟩]

theorem isTrie_sampleTrie : IsTrie 2 sampleTrie where
  normal := ⟨two_le_occupied (i := 1) (j := 2) (by decide) (by simp) (by simp),
    fork_forall trivial trivial trivial 1 2⟩
  resolved := fork_forall trivial trivial trivial 1 2
  sized := ⟨by decide, fork_forall (Q := Sized 1) (t := leaf [2] sampleValue)
    (u := leaf [3] [5]) trivial rfl rfl 1 2⟩

theorem ref_sampleLeaf : ref sampleEnv (leaf [2] sampleValue) = .digest sampleDigest.bytes := by
  decide

theorem view_samplePartial : View sampleEnv samplePartial sampleTrie :=
  (View.hidden ref_sampleLeaf).fork_congr (.refl _) 1 2

theorem represents_sampleArena {E : Env} {t : Trie} {first : NodeData} (hn : t ≠ null)
    (h : Rep E (sampleArena first) t 1 {1}) :
    Represents E (sampleArena first) (fork 1 t 2 (leaf [3] [5])) :=
  rep_fork (A := {1}) (B := {2}) rfl (by decide) h
    ⟨Finset.mem_singleton_self _, none, rfl, .inl rfl⟩ hn (by simp) (by decide)
    (show 0 ∈ Finset.range 3 by decide) (show {1} ⊆ (Finset.range 3).erase 0 by decide)
    (show {2} ⊆ (Finset.range 3).erase 0 by decide)

theorem represents_sampleTrie : Represents sampleEnv
    (sampleArena (.leaf (Hp.encode [2] true) sampleValue)) sampleTrie :=
  represents_sampleArena (by simp) ⟨Finset.mem_singleton_self _, none, rfl, .inl rfl⟩

theorem represents_samplePartial : Represents sampleEnv
    (sampleArena (.digest sampleDigest.bytes)) samplePartial :=
  represents_sampleArena (by simp) ⟨Finset.mem_singleton_self _, none, rfl, .inl rfl⟩

/-- Two lookups, with an insertion between them, and the root. -/
def sampleOps : List Op := [.get [0x23], .insert [0x33] [7], .get [0x33], .hash]

theorem partial_simulates_full_sample :
    (∃ d, get [0x12] (sampleArena (.digest sampleDigest.bytes)) =
      (.error (.err (.nodeNotResolved d)), sampleArena (.digest sampleDigest.bytes))) ∧
    (∃ b mP' mT', insert [0x33] [7] (sampleArena (.digest sampleDigest.bytes)) = (.ok b, mP') ∧
      insert [0x33] [7] (sampleArena (.leaf (Hp.encode [2] true) sampleValue)) = (.ok b, mT') ∧
      (hash sampleEnv mP').1 = (hash sampleEnv mT').1) ∧
    ∃ rets mP' mT', Exec.collect (Op.run sampleEnv) sampleOps
        (sampleArena (.digest sampleDigest.bytes)) = (.ok rets, mP') ∧
      Exec.collect (Op.run sampleEnv) sampleOps
        (sampleArena (.leaf (Hp.encode [2] true) sampleValue)) = (.ok rets, mT') ∧
      (hash sampleEnv mP').1 = (hash sampleEnv mT').1 := by
  have h := partial_simulates_full sampleEnv (n := 1) isTrie_sampleTrie view_samplePartial
    represents_samplePartial represents_sampleTrie
  refine ⟨⟨sampleDigest, by decide⟩, ?_, ?_⟩
  · have hins : (insert [0x33] [7] (sampleArena (.digest sampleDigest.bytes))).1 = .ok true := by
      decide
    rcases h.2.1 [0x33] [7] with
      ⟨d, hd⟩ | ⟨b, mP', mT', _, _, hP, hT, _, _, _, hroot, _⟩ | ⟨hlen, _⟩
    · rw [hd] at hins
      cases hins
    · exact ⟨b, mP', mT', hP, hT, hroot⟩
    · exact absurd rfl hlen
  · have hrun : ∃ rets, (Exec.collect (Op.run sampleEnv) sampleOps
        (sampleArena (.digest sampleDigest.bytes))).1 = .ok rets := ⟨_, rfl⟩
    obtain ⟨rets, hrun⟩ := hrun
    obtain ⟨mT', hT, hroot⟩ := h.2.2 sampleOps rets _
      (by simp [sampleOps, KeyLength, Op.key, Op.Keeps]) (Exec.eq_of_fst hrun)
    exact ⟨rets, _, mT', Exec.eq_of_fst hrun, hT, hroot⟩

end Mpt
end CenoReth
