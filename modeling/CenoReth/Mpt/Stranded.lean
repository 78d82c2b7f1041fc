/-
Updates of a partial trie, all at once.

A partial trie is a sparse trie that masks a map: where it has a digest, the map
has a subtree with that reference.  Updates of visible keys keep this, whatever
their order.  The compressed form of the result is a view of the updated trie
unless a digest is stranded: it hides a leaf or an extension, and all other
children of the branch above it are gone.
-/
import CenoReth.Mpt.Exchange
import CenoReth.Patricia.Opaque

namespace CenoReth
namespace Trie

open Patricia Patricia.Radix

variable {E : Env}

/-! ## Views of collapsed nodes -/

theorem view_extend {i j : Nibble} {P T : Trie} (hP : P.Normal) (hT : T.Normal) (hr : T.Resolved)
    (hP0 : P ≠ null) (hT0 : T ≠ null) (h : View E (extend [i] P) (extend [j] T)) :
    i = j ∧ View E P T := by
  cases P with
  | null => exact absurd rfl hP0
  | hole => exact absurd hP id
  | leaf p v =>
    cases T with
    | leaf q w =>
      cases h
      exact ⟨rfl, .ofLeaf _ _⟩
    | null => exact absurd rfl hT0
    | hole => exact absurd hT id
    | digest d => exact absurd hr id
    | _ => cases h
  | ext p c =>
    cases T with
    | ext q c' =>
      cases h with
      | ofExt _ hc => exact ⟨rfl, .ofExt _ hc⟩
    | branch c' =>
      simp only [extend, List.cons_append, List.nil_append] at h
      cases h with
      | ofExt _ hc => exact absurd rfl hP.1
    | null => exact absurd rfl hT0
    | hole => exact absurd hT id
    | digest d => exact absurd hr id
    | leaf q v => cases h
  | branch c =>
    cases T with
    | ext q c' =>
      simp only [extend, List.cons_append, List.nil_append] at h
      cases h with
      | ofExt _ hc => exact absurd rfl hT.1
    | branch c' =>
      cases h with
      | ofExt _ hc => exact ⟨rfl, hc⟩
    | null => exact absurd rfl hT0
    | hole => exact absurd hT id
    | digest d => exact absurd hr id
    | leaf q v => cases h
  | digest d =>
    cases T with
    | ext q c' =>
      simp only [extend, List.cons_append, List.nil_append] at h
      cases h with
      | ofExt _ hc => exact absurd rfl hT.1
    | branch c' =>
      cases h with
      | ofExt _ hc => exact ⟨rfl, hc⟩
    | null => exact absurd rfl hT0
    | hole => exact absurd hT id
    | digest d' => exact absurd hr id
    | leaf q v => cases h

/-- The children of a collapsed node are seen where the node is. -/
theorem view_of_collapse {c c' : Nibble → Trie} (hn : ∀ i, (c i).Normal) (hn' : ∀ i, (c' i).Normal)
    (hr : ∀ i, (c' i).Resolved) (h : View E (collapse c) (collapse c')) (i : Nibble) :
    View E (c i) (c' i) := by
  have hnull : (∀ i, c i = null) ↔ ∀ i, c' i = null := by
    constructor
    · intro hc j
      rw [collapse_none hc] at h
      by_contra hj
      exact collapse_ne_null hn' hj (h.null_iff.mp rfl)
    · intro hc j
      rw [collapse_none hc] at h
      by_contra hj
      exact collapse_ne_null hn hj (h.null_iff.mpr rfl)
  have hext : ∀ {j : Nibble} {t : Trie} {d : Nibble → Trie}, t.Normal →
      ¬ View E (extend [j] t) (branch d) ∧ ¬ View E (branch d) (extend [j] t) := by
    intro j t d ht
    cases t <;> simp only [extend] <;> constructor <;> rintro ⟨⟩
  rcases occupied_cases c with ⟨_, hc⟩ | ⟨j, _, hj, hc⟩ | hc
  · rw [hc i, hnull.mp hc i]
    exact .ofNull
  · rcases occupied_cases c' with ⟨_, hc'⟩ | ⟨j', _, hj', hc'⟩ | hc'
    · exact absurd (hnull.mpr hc' j) hj
    · rw [collapse_one hj hc, collapse_one hj' hc'] at h
      obtain ⟨rfl, hv⟩ := view_extend (hn j) (hn' j') (hr j') hj hj' h
      by_cases hi : i = j
      · subst hi
        exact hv
      · rw [hc i hi, hc' i hi]
        exact .ofNull
    · rw [collapse_one hj hc, collapse_many hc'] at h
      exact absurd h (hext (hn j)).1
  · rcases occupied_cases c' with ⟨_, hc'⟩ | ⟨j', _, hj', hc'⟩ | hc'
    · obtain ⟨a, _, _, ha, _⟩ := exists_two_of_le hc
      exact absurd (hnull.mpr hc' a) ha
    · rw [collapse_many hc, collapse_one hj' hc'] at h
      exact absurd h (hext (hn' j')).2
    · rw [collapse_many hc, collapse_many hc'] at h
      cases h with
      | ofBranch hv => exact hv i

/-! ## Masked maps -/

/-- The sparse trie has the map, up to digests that the parts behind them have as references. -/
def Masks (E : Env) : {n : Nat} → Sparse 16 Bytes B256 n → (List Nibble → Option Bytes) → Prop
  | n, .digest d, μ => ref E (canonical n μ) = .digest d.bytes
  | _, .value v, μ => μ [] = v
  | _, .node c, μ => ∀ i, Masks E (c i) (below [i] μ)

theorem masks_of_view : {n : Nat} → (s : Sparse 16 Bytes B256 n) → {μ : List Nibble → Option Bytes} →
    View E s.compress (canonical n μ) → Masks E s μ
  | n, .digest d, μ, h => by
    have hr := resolved_canonical (δ := B256) n μ
    simp only [Sparse.compress] at h
    generalize hT : canonical n μ = T at h hr
    cases h with
    | hidden href =>
      show ref E (canonical n μ) = _
      rw [hT]
      exact href
  | _, .value none, μ, h => (canonical_eq_null 0).mp (h.null_iff.mp rfl) [] rfl
  | _, .value (some v), μ, h => by
    have hg := get_canonical (δ := B256) μ (show ([] : List Nibble).length = 0 from rfl)
    simp only [Sparse.compress] at h
    generalize canonical 0 μ = T at h hg
    cases h with
    | ofLeaf _ _ =>
      show μ [] = some v
      simpa [Radix.get] using hg.symm
  | n + 1, .node c, μ, h => by
    intro i
    rw [canonical_succ] at h
    exact masks_of_view (c i) (view_of_collapse (fun i => Sparse.normal_compress (c i))
      (fun i => normal_canonical n _) (fun i => resolved_canonical n _) h i)

theorem Masks.get_eq : {n : Nat} → {s : Sparse 16 Bytes B256 n} → {μ : List Nibble → Option Bytes} →
    Masks E s μ → {key : List Nibble} → key.length = n → {o : Option Bytes} →
    s.get key = .ok o → o = μ key
  | _, .value v, μ, h, [], _, o, hg => by
    obtain rfl : v = o := by simpa [Sparse.get] using hg
    exact h.symm
  | n + 1, .node c, μ, h, i :: key, hk, o, hg =>
    (h i).get_eq (show key.length = n by simpa using hk) hg

theorem Masks.set : {n : Nat} → {s : Sparse 16 Bytes B256 n} → {μ : List Nibble → Option Bytes} →
    Masks E s μ → {key : List Nibble} → key.length = n → {o' : Option Bytes} →
    s.get key = .ok o' → (o : Option Bytes) → Masks E (s.set key o) (Function.update μ key o)
  | _, .value v, μ, _, [], _, _, _, o => by simp [Masks, Sparse.set]
  | n + 1, .node c, μ, h, i :: key, hk, o', hg, o => by
    intro j
    by_cases hj : j = i
    · subst hj
      rw [Function.update_self, below_update_self]
      exact (h j).set (by simpa using hk) hg o
    · rw [Function.update_of_ne hj, below_update_ne hj]
      exact h j

/-- The map after the writes. -/
def writeMap (μ : List Nibble → Option Bytes) (ops : List (List Nibble × Option Bytes)) :
    List Nibble → Option Bytes :=
  ops.foldl (fun μ op => Function.update μ op.1 op.2) μ

theorem writeMap_cons (μ : List Nibble → Option Bytes) (op : List Nibble × Option Bytes)
    (ops : List (List Nibble × Option Bytes)) :
    writeMap μ (op :: ops) = writeMap (Function.update μ op.1 op.2) ops := rfl

theorem writeMap_of_not_mem : ∀ {ops : List (List Nibble × Option Bytes)}
    {μ : List Nibble → Option Bytes} {key : List Nibble}, (∀ op ∈ ops, op.1 ≠ key) →
    writeMap μ ops key = μ key
  | [], _, _, _ => rfl
  | op :: ops, μ, key, h => by
    rw [writeMap_cons, writeMap_of_not_mem fun op' hop => h op' (by simp [hop])]
    exact Function.update_of_ne (Ne.symm (h op (by simp))) _ _

/-- A key that is written has the last value that was written to it. -/
theorem writeMap_of_mem : ∀ {ops : List (List Nibble × Option Bytes)}
    {μ ν : List Nibble → Option Bytes} {key : List Nibble}, (∃ op ∈ ops, op.1 = key) →
    writeMap μ ops key = writeMap ν ops key
  | [], _, _, _, h => by simp at h
  | op :: ops, μ, ν, key, h => by
    rw [writeMap_cons, writeMap_cons]
    by_cases hmem : ∃ op' ∈ ops, op'.1 = key
    · exact writeMap_of_mem hmem
    · have hnot : ∀ op' ∈ ops, op'.1 ≠ key := fun op' hop heq => hmem ⟨op', hop, heq⟩
      obtain rfl : op.1 = key := by
        obtain ⟨op', hop, heq⟩ := h
        rcases List.mem_cons.mp hop with rfl | hop
        · exact heq
        · exact absurd heq (hnot op' hop)
      rw [writeMap_of_not_mem hnot, writeMap_of_not_mem hnot, Function.update_self,
        Function.update_self]

theorem writeMap_forall {Q : Bytes → Prop} : ∀ {ops : List (List Nibble × Option Bytes)}
    {μ : List Nibble → Option Bytes}, (∀ key v, μ key = some v → Q v) →
    (∀ op ∈ ops, ∀ v, op.2 = some v → Q v) → ∀ key v, writeMap μ ops key = some v → Q v
  | [], _, hμ, _ => hμ
  | op :: ops, μ, hμ, hops => by
    rw [writeMap_cons]
    refine writeMap_forall (fun key v hv => ?_) fun op' hop => hops op' (by simp [hop])
    by_cases hkey : key = op.1
    · subst hkey
      rw [Function.update_self] at hv
      exact hops op (by simp) v hv
    · rw [Function.update_of_ne hkey] at hv
      exact hμ key v hv

theorem Masks.writeAll {n : Nat} {s s' : Sparse 16 Bytes B256 n} {μ : List Nibble → Option Bytes}
    (h : Masks E s μ) {ops : List (List Nibble × Option Bytes)} (hlen : ∀ op ∈ ops, op.1.length = n)
    (hw : s.writeAll ops = some s') : Masks E s' (writeMap μ ops) := by
  obtain ⟨μ', hμ', hs'⟩ := Sparse.writeAll_induction
    (fun x rest => (∀ op ∈ rest, op.1.length = n) ∧
      ∃ μ', writeMap μ' rest = writeMap μ ops ∧ Masks E x μ')
    (fun x key o rest o' ⟨hl, μ', hμ', hx⟩ hg =>
      ⟨fun op hop => hl op (by simp [hop]), Function.update μ' key o, hμ',
        hx.set (hl (key, o) (by simp)) hg o⟩)
    ⟨hlen, μ, rfl, h⟩ hw |>.2
  exact hμ' ▸ hs'

/-! ## Stranded digests -/

/-- A digest of the sparse trie is the only child of its node, and it hides a leaf or an
extension. -/
def StrandedIn : {n : Nat} → Sparse 16 Bytes B256 n → (List Nibble → Option Bytes) → Prop
  | _, .digest _, _ => False
  | _, .value _, _ => False
  | n + 1, .node c, μ =>
    Hidden (fun i => (c i).compress) (fun i => canonical n (below [i] μ)) ∨
      ∃ i, StrandedIn (c i) (below [i] μ)

theorem Slip.ne_null {P T : Trie} (h : Slip E P T) : P ≠ null ∧ T ≠ null := by
  cases h <;> simp

/-- One child slips: so does the node. -/
theorem slip_collapse {c c' : Nibble → Trie} {i : Nibble} (h : ∀ j, c j = null ↔ c' j = null)
    (hi : Slip E (c i) (c' i)) : Slip E (collapse c) (collapse c') := by
  obtain ⟨h0, h0'⟩ := hi.ne_null
  rcases occupied_cases c with ⟨_, hc⟩ | ⟨j, _, hj, hc⟩ | hc
  · exact absurd (hc i) h0
  · obtain rfl : i = j := by
      by_contra hij
      exact h0 (hc i hij)
    rw [collapse_one h0 hc, collapse_one h0' fun l hl => (h l).mp (hc l hl)]
    exact hi.extend_extend [i]
  · have hc' : 2 ≤ (occupied c').length := by
      obtain ⟨a, b, hab, ha, hb⟩ := exists_two_of_le hc
      exact two_le_occupied hab (fun e => ha ((h a).mpr e)) fun e => hb ((h b).mpr e)
    rw [collapse_many hc, collapse_many hc']
    exact .child i hi

/-- What a masking trie is compressed to: a view of the trie of the map, unless a digest is
stranded. -/
theorem Masks.view_or_slip : {n : Nat} → {s : Sparse 16 Bytes B256 n} →
    {μ : List Nibble → Option Bytes} → Masks E s μ →
    (¬ StrandedIn s μ ∧ View E s.compress (canonical n μ)) ∨
      (StrandedIn s μ ∧ Slip E s.compress (canonical n μ))
  | _, .digest d, μ, h => .inl ⟨id, .hidden h⟩
  | _, .value v, μ, h => by
    refine .inl ⟨id, ?_⟩
    obtain rfl : μ [] = v := h
    exact View.refl _
  | n + 1, .node c, μ, h => by
    have ih := fun i => (h i).view_or_slip
    rw [canonical_succ]
    by_cases hs : ∃ i, StrandedIn (c i) (below [i] μ)
    · obtain ⟨i, hi⟩ := hs
      refine .inr ⟨.inr ⟨i, hi⟩, slip_collapse (fun j => ?_) ((ih i).resolve_left fun h => h.1 hi).2⟩
      rcases ih j with ⟨_, hv⟩ | ⟨_, hslip⟩
      · exact hv.null_iff
      · exact iff_of_false hslip.ne_null.1 hslip.ne_null.2
    · have hviews := fun i => ((ih i).resolve_right fun h => hs ⟨i, h.1⟩).2
      rcases collapse_view hviews (fun i => normal_canonical n _) with ⟨hh, hv⟩ | ⟨hh, hslip⟩
      · exact .inl ⟨fun h => h.elim hh hs, hv⟩
      · exact .inr ⟨.inl hh, hslip⟩

theorem Masks.compress_null {n : Nat} {s : Sparse 16 Bytes B256 n} {μ : List Nibble → Option Bytes}
    (h : Masks E s μ) : s.compress = null ↔ ∀ key, key.length = n → μ key = none := by
  rw [← canonical_eq_null (δ := B256)]
  rcases h.view_or_slip with ⟨_, hv⟩ | ⟨_, hslip⟩
  · exact hv.null_iff
  · exact iff_of_false hslip.ne_null.1 hslip.ne_null.2

/-- Every key of the map that starts with the path goes on with the digit. -/
def OnlyDigit (n : Nat) (μ : List Nibble → Option Bytes) (p : List Nibble) (i : Nibble) : Prop :=
  ∀ key, key.length = n → μ key ≠ none → p <+: key → p ++ [i] <+: key

theorem onlyDigit_cons {n : Nat} {μ : List Nibble → Option Bytes} {j : Nibble} {p : List Nibble}
    {i : Nibble} : OnlyDigit (n + 1) μ (j :: p) i ↔ OnlyDigit n (below [j] μ) p i := by
  constructor
  · intro h key hk hμ hp
    simpa using h (j :: key) (by simpa using hk) hμ (by simpa using hp)
  · intro h key hk hμ hp
    obtain ⟨rest, rfl⟩ := hp
    simpa using h (p ++ rest) (by simpa using hk) hμ (List.prefix_append p rest)

theorem hidesPath_digest {P T : Trie} (h : HidesPath P T) : ∃ d, P = digest d := by
  cases P with
  | digest d => exact ⟨d, rfl⟩
  | _ => cases T <;> exact h.elim

/-- Where a stranded digest stands. -/
theorem Masks.strandedIn_iff : {n : Nat} → {s : Sparse 16 Bytes B256 n} →
    {μ : List Nibble → Option Bytes} → Masks E s μ →
    (StrandedIn s μ ↔ ∃ p i d, s.digestAt (p ++ [i]) = some d ∧
      HidesPath (digest d) (canonical (n - (p.length + 1)) (below (p ++ [i]) μ)) ∧
      OnlyDigit n μ p i)
  | _, .digest d, μ, _ => by
    refine iff_of_false id ?_
    rintro ⟨p, i, d, hd, _⟩
    cases p <;> simp [Sparse.digestAt] at hd
  | _, .value v, μ, _ => by
    refine iff_of_false id ?_
    rintro ⟨p, i, d, hd, _⟩
    cases p <;> simp [Sparse.digestAt] at hd
  | n + 1, .node c, μ, h => by
    constructor
    · rintro (⟨j, hnull, hhides⟩ | ⟨j, hj⟩)
      · obtain ⟨d, hd⟩ := hidesPath_digest hhides
        have hat : (c j).digestAt [] = some d := 
          (Sparse.subtree_compress (c j)).mp ((subtree_nil _).trans (congrArg some hd))
        refine ⟨[], j, d, hat, hd ▸ hhides, ?_⟩
        rintro (_ | ⟨l, key⟩) hk hμ -
        · simp at hk
        · by_cases hl : l = j
          · simp [hl]
          · exact absurd (((h l).compress_null.mp (hnull l hl)) key (by simpa using hk)) hμ
      · obtain ⟨p, i, d, hd, hhides, honly⟩ := (h j).strandedIn_iff.mp hj
        refine ⟨j :: p, i, d, hd, ?_, onlyDigit_cons.mpr honly⟩
        rw [below_append] at hhides
        simpa using hhides
    · rintro ⟨_ | ⟨j, p⟩, i, d, hd, hhides, honly⟩
      · have hci : c i = .digest d := Sparse.digestAt_nil hd
        refine .inl ⟨i, fun l hl => (h l).compress_null.mpr fun key hk => ?_, ?_⟩
        · by_contra hμ
          have := honly (l :: key) (by simpa using hk) hμ List.nil_prefix
          simp [Ne.symm hl] at this
        · simpa [hci, Sparse.compress] using hhides
      · refine .inr ⟨j, (h j).strandedIn_iff.mpr ⟨p, i, d, hd, ?_, onlyDigit_cons.mp honly⟩⟩
        rw [below_append]
        simpa using hhides

/-! ## All updates of a view -/

/-- A key that is stored has the length of the keys. -/
theorem length_of_get : {t : Trie} → {n : Nat} → t.Sized n → {key : List Nibble} → {v : Bytes} →
    t.get key = .ok (some v) → key.length = n := by
  intro t
  induction t with
  | leaf p w =>
    intro n hs key v h
    simp only [Radix.get, Except.ok.injEq, Option.ite_none_right_eq_some] at h
    rw [← h.1]
    exact hs
  | ext p c ih =>
    intro n hs key v h
    rw [Radix.get] at h
    split at h
    · rename_i tail htail
      obtain rfl := stripPrefix_eq_some.mp htail
      have hlen := ih hs.2 h
      have hp := hs.1
      rw [List.length_append, hlen]
      omega
    · simp at h
  | branch c ih =>
    intro n hs key v h
    cases key with
    | nil => simp [Radix.get] at h
    | cons i key =>
      have hlen := ih i (hs.2 i) h
      have hpos := hs.1
      rw [List.length_cons, hlen]
      omega
  | _ =>
    intro n _ key v h
    simp [Radix.get] at h

theorem get_canonical_iff {n : Nat} {μ : List Nibble → Option Bytes} {key : List Nibble}
    {v : Bytes} :
    (canonical n μ : Trie).get key = .ok (some v) ↔ key.length = n ∧ μ key = some v := by
  constructor
  · intro h
    have hk := length_of_get (isTrie_canonical n μ).sized h
    rw [get_canonical μ hk] at h
    exact ⟨hk, by simpa using h⟩
  · rintro ⟨hk, hv⟩
    rw [get_canonical μ hk, hv]

/-- A digest of the view `P` of `T` hides a leaf or an extension, and every key of `T'` that comes
to the branch above it goes on to the digest. -/
def Stranded (P T T' : Trie) : Prop :=
  ∃ p i s t, P.subtree (p ++ [i]) = some s ∧ T.subtree (p ++ [i]) = some t ∧ HidesPath s t ∧
    ∀ key v, T'.get key = .ok (some v) → p <+: key → p ++ [i] <+: key

theorem subtree_canonical {n : Nat} {μ : List Nibble → Option Bytes} {p : List Nibble} {t : Trie}
    (h : (canonical n μ : Trie).subtree p = some t) :
    t = canonical (n - p.length) (below p μ) := by
  have hlen := (sized_subtree (isTrie_canonical n μ).sized h).2
  refine eq_of_get (isTrie_subtree (isTrie_canonical n μ) h) (isTrie_canonical _ _) fun key hk => ?_
  rw [← get_subtree h, get_canonical μ (by rw [List.length_append]; omega), get_canonical _ hk]
  rfl

/-- Writes that succeed are not made behind a digest. -/
theorem below_writeMap {n : Nat} {s s' : Sparse 16 Bytes B256 n} {p : List Nibble} {d : B256}
    (hd : s.digestAt p = some d) {ops : List (List Nibble × Option Bytes)}
    (hw : s.writeAll ops = some s') (μ : List Nibble → Option Bytes) :
    below p (writeMap μ ops) = below p μ := by
  obtain ⟨-, μ', hμ', hbelow⟩ := Sparse.writeAll_induction
    (fun x rest => x.digestAt p = some d ∧
      ∃ μ', writeMap μ' rest = writeMap μ ops ∧ below p μ' = below p μ)
    (fun x key o rest o' ⟨hx, μ', hμ', hbelow⟩ hg => by
      refine ⟨(Sparse.digestAt_set x key o p).trans hx, Function.update μ' key o, hμ', ?_⟩
      rw [← hbelow]
      funext tail
      refine Function.update_of_ne (fun heq => ?_) _ _
      rw [← heq, Sparse.get_of_digestAt hx] at hg
      cases hg)
    ⟨hd, μ, rfl, rfl⟩ hw
  rw [← hbelow, ← hμ']
  rfl

/-- All updates of a view: the result is a view of the updated trie, unless a digest is
stranded. -/
theorem writeAll_view_or_slip {n : Nat} {s s' : Sparse 16 Bytes B256 n}
    {μ : List Nibble → Option Bytes} {ops : List (List Nibble × Option Bytes)}
    (hv : View E s.compress (canonical n μ)) (hlen : ∀ op ∈ ops, op.1.length = n)
    (hw : s.writeAll ops = some s') :
    (¬ Stranded s.compress (canonical n μ) (canonical n (writeMap μ ops)) ∧
      View E s'.compress (canonical n (writeMap μ ops))) ∨
    (Stranded s.compress (canonical n μ) (canonical n (writeMap μ ops)) ∧
      Slip E s'.compress (canonical n (writeMap μ ops))) := by
  have hm := masks_of_view s hv
  have hm' := hm.writeAll hlen hw
  have hiff : StrandedIn s' (writeMap μ ops) ↔
      Stranded s.compress (canonical n μ) (canonical n (writeMap μ ops)) := by
    rw [hm'.strandedIn_iff]
    constructor
    · rintro ⟨p, i, d, hd, hhides, honly⟩
      rw [Sparse.digestAt_writeAll hw] at hd
      have hs := (Sparse.subtree_compress s).mpr hd
      obtain ⟨t, ht, _⟩ := Mpt.View.exists_subtree hv hs
      refine ⟨p, i, _, t, hs, ht, ?_, fun key v hkey hp => ?_⟩
      · rw [subtree_canonical ht]
        rw [below_writeMap hd hw] at hhides
        simpa using hhides
      · obtain ⟨hk, hv⟩ := get_canonical_iff.mp hkey
        exact honly key hk (by simp [hv]) hp
    · rintro ⟨p, i, x, t, hs, ht, hhides, honly⟩
      obtain ⟨d, rfl⟩ := hidesPath_digest hhides
      have hd := (Sparse.subtree_compress s).mp hs
      refine ⟨p, i, d, (Sparse.digestAt_writeAll hw _).trans hd, ?_, fun key hk hμ hp => ?_⟩
      · rw [below_writeMap hd hw]
        rw [subtree_canonical ht] at hhides
        simpa using hhides
      · obtain ⟨v, hv⟩ := Option.ne_none_iff_exists'.mp hμ
        exact honly key v (get_canonical_iff.mpr ⟨hk, hv⟩) hp
  rw [← hiff]
  exact hm'.view_or_slip

end Trie

/-! ## Tries of an arena -/

namespace Mpt

open Patricia Patricia.Radix Trie

variable {E : Env}

/-- A node of an arena is one trie in normal form. -/
theorem Shape.unique {m : Mpt} : ∀ {t u : Trie} {id : NodeId}, Shape m t id → Shape m u id →
    t.Normal → u.Normal → t = u := by
  intro t
  induction t with
  | hole => exact fun _ _ hn => hn.elim
  | null =>
    rintro u id ⟨r, hc, -⟩ hu - hn
    cases u with
    | null => rfl
    | hole => exact hn.elim
    | _ => obtain ⟨_, hu⟩ := hu; simp_all
  | leaf p v =>
    rintro u id ⟨r, hc, -⟩ hu - -
    cases u with
    | leaf q w =>
      obtain ⟨r', hc', -⟩ := hu
      rw [hc] at hc'
      simp only [Option.some.injEq, Cell.mk.injEq, NodeData.leaf.injEq] at hc'
      obtain ⟨⟨hp, rfl⟩, _⟩ := hc'
      rw [(Hp.encode_injective hp).1]
    | _ => obtain ⟨_, hu⟩ := hu; simp_all
  | digest d =>
    rintro u id ⟨r, hc, -⟩ hu - -
    cases u with
    | digest d' =>
      obtain ⟨r', hc', -⟩ := hu
      rw [hc] at hc'
      simp only [Option.some.injEq, Cell.mk.injEq, NodeData.digest.injEq] at hc'
      rw [B256.ext hc'.1]
    | _ => obtain ⟨_, hu⟩ := hu; simp_all
  | ext p c ih =>
    rintro u id ⟨r, j, hc, -, hl⟩ hu hn hn'
    cases u with
    | ext q c' =>
      obtain ⟨r', j', hc', -, hl'⟩ := hu
      rw [hc] at hc'
      simp only [Option.some.injEq, Cell.mk.injEq, NodeData.extension.injEq] at hc'
      obtain ⟨⟨hp, rfl⟩, _⟩ := hc'
      rw [(Hp.encode_injective hp).1, ih hl hl' hn.2.2 hn'.2.2]
    | _ => obtain ⟨_, hu⟩ := hu; simp_all
  | branch c ih =>
    rintro u id ⟨r, ids, hc, -, hl⟩ hu hn hn'
    cases u with
    | branch c' =>
      obtain ⟨r', ids', hc', -, hl'⟩ := hu
      rw [hc] at hc'
      simp only [Option.some.injEq, Cell.mk.injEq, NodeData.branch.injEq] at hc'
      obtain ⟨rfl, _⟩ := hc'
      congr 1
      funext i
      rcases hl i with ⟨hnone, h0⟩ | ⟨j, hj, _, hij⟩
      · rcases hl' i with ⟨_, h0'⟩ | ⟨j', hj', _⟩
        · rw [h0, h0']
        · simp [hnone] at hj'
      · rcases hl' i with ⟨hnone', _⟩ | ⟨j', hj', _, hij'⟩
        · simp [hj] at hnone'
        · obtain rfl : j = j' := by simpa [hj] using hj'
          exact ih i hij hij' (hn.2 i) (hn'.2 i)
    | _ => obtain ⟨_, hu⟩ := hu; simp_all

theorem Represents.unique {m : Mpt} {t u : Trie} (ht : Represents E m t) (hu : Represents E m u)
    (hn : t.Normal) (hn' : u.Normal) : t = u :=
  Shape.unique (Rep.reads ht).shape (Rep.reads hu).shape hn hn'

end Mpt
end CenoReth
