/-
Authenticated decoding.

Two inputs that `decode_trie` accepts and that have the same root hash answer
every lookup alike, as far as they answer it: whoever supplies the input chooses
which nodes to leave out, and nothing else.  A node is bound by the reference in
its parent, which is the node itself or its hash, so the two syntax trees are
compared from the root downwards.
-/
import CenoReth.Mpt.Parse

namespace CenoReth
namespace Mpt

open Patricia Patricia.Radix Trie Rlp

variable {E : Env}

/-! ## Lookup in a syntax tree -/

/-- The panics of an access that returns nothing else. -/
def okOr {α : Type} : Option α → Except Halt α
  | none => .error .panic
  | some a => .ok a

def Decoded.get : Decoded → List UInt8 → Except Halt (Option Bytes)
  | .absent, _ => .ok none
  | .null _, _ => .ok none
  | .digest _ d, _ => (okOr (B256.fromSlice d)).bind fun d => .error (.err (.nodeNotResolved d))
  | .leaf _ path value, key =>
    (okOr (Hp.encodedPathEqNibs path key)).map fun same => if same then some value else none
  | .ext _ path _ c, key =>
    (okOr (Hp.encodedPathStripPrefix path key)).bind fun
      | some tail => c.get tail
      | none => .ok none
  | .branch _ _ _, [] => .ok none
  | .branch _ _ c, i :: tail => if h : i.toNat < 16 then (c ⟨i.toNat, h⟩).get tail else .error .panic

/-- Lookup in the arena is lookup in the tree. -/
theorem getInternal_laid {m : Mpt} {D : Decoded} : ∀ {fuel : Nat} {r : NodeRef} {id : NodeId}
    {lo hi : Nat} (key : List UInt8), Laid m D r id lo hi → hi - lo + 1 ≤ fuel →
    getInternal fuel id key m = (D.get key, m) := by
  induction D with
  | absent => exact fun _ h => h.elim
  | null raw =>
    intro fuel r id lo hi key h hf
    obtain ⟨fuel, rfl⟩ : ∃ n, fuel = n + 1 := ⟨fuel - 1, by omega⟩
    exact Exec.bind_ok (nodeAt_ok h)
  | digest raw d =>
    intro fuel r id lo hi key h hf
    obtain ⟨fuel, rfl⟩ : ∃ n, fuel = n + 1 := ⟨fuel - 1, by omega⟩
    refine (Exec.bind_ok (nodeAt_ok h.2)).trans ?_
    simp only [notResolved, Decoded.get]
    cases hd : B256.fromSlice d with
    | none => rfl
    | some d => rfl
  | leaf raw path value =>
    intro fuel r id lo hi key h hf
    obtain ⟨fuel, rfl⟩ : ∃ n, fuel = n + 1 := ⟨fuel - 1, by omega⟩
    refine (Exec.bind_ok (nodeAt_ok h.2)).trans ?_
    simp only [Decoded.get]
    cases Hp.encodedPathEqNibs path key with
    | none => rfl
    | some same => rfl
  | ext raw path slot c ih =>
    rintro fuel r id lo hi key ⟨hid, j, hc, hl⟩ hf
    obtain ⟨fuel, rfl⟩ : ∃ n, fuel = n + 1 := ⟨fuel - 1, by omega⟩
    refine (Exec.bind_ok (nodeAt_ok hc)).trans ?_
    simp only [Decoded.get]
    cases Hp.encodedPathStripPrefix path key with
    | none => rfl
    | some o =>
      cases o with
      | none => rfl
      | some tail =>
        exact ih tail hl (by unfold Within at hid; omega)
  | branch raw slots c ih =>
    rintro fuel r id lo hi key ⟨hid, ids, hc, b, hmono, hb0, hb16, hl⟩ hf
    obtain ⟨fuel, rfl⟩ : ∃ n, fuel = n + 1 := ⟨fuel - 1, by omega⟩
    refine (Exec.bind_ok (nodeAt_ok hc)).trans ?_
    cases key with
    | nil => rfl
    | cons i tail =>
      simp only [Decoded.get, slotIndex]
      by_cases hi16 : i.toNat < 16
      · simp only [dif_pos hi16, orPanic_some]
        refine (Exec.bind_ok (Exec.pure_apply _ m)).trans ?_
        rcases hl ⟨i.toNat, hi16⟩ with ⟨hnone, habs⟩ | ⟨j, hj, hij⟩
        · simp only [hnone, habs]
          rfl
        · simp only [hj]
          refine ih _ tail hij ?_
          have hle : b (i.toNat + 1) ≤ b 16 := hmono hi16
          have hge : b 0 ≤ b i.toNat := hmono (Nat.zero_le _)
          show b (i.toNat + 1) - b i.toNat + 1 ≤ fuel
          unfold Within at hid
          omega
      · simp only [dif_neg hi16]
        rfl

/-! ## What is hashed -/

/-- The encoding of a node that is hashed because it is too long to be inlined. -/
def longRaw (raw : Bytes) : List Bytes := if 32 ≤ raw.length then [raw] else []

/-- The encodings that are compared by their hashes. -/
def Decoded.addressed : Decoded → List Bytes
  | .absent => []
  | .null raw => longRaw raw
  | .digest _ _ => []
  | .leaf raw _ _ => longRaw raw
  | .ext raw _ _ c => longRaw raw ++ c.addressed
  | .branch raw _ c => longRaw raw ++ ((List.finRange 16).map fun i => (c i).addressed).flatten

def Decoded.raw : Decoded → Bytes
  | .absent => []
  | .null raw => raw
  | .digest raw _ => raw
  | .leaf raw _ _ => raw
  | .ext raw _ _ _ => raw
  | .branch raw _ _ => raw

/-- All that is hashed while the tree is decoded and its root hash is computed. -/
def Decoded.hashed (D : Decoded) : List Bytes :=
  match D with
  | .absent => []
  | .null raw => longRaw raw
  | .digest _ _ => []
  | D => D.raw :: D.addressed

variable (E) in
/-- The node encodings that `decode_trie` and `hash` hash for an input. -/
def hashedNodes (bytes : Bytes) : List Bytes :=
  match parseNode E (bytes.length + 1) bytes with
  | .ok (D, _) => D.hashed
  | .error _ => []

variable (E) in
/-- The hash function does not collide on the given inputs. -/
def NoCollision (inputs : List Bytes) : Prop :=
  ∀ x ∈ inputs, ∀ y ∈ inputs, E.keccak256 x = E.keccak256 y → x = y

instance (inputs : List Bytes) : Decidable (NoCollision E inputs) :=
  inferInstanceAs (Decidable (∀ x ∈ inputs, ∀ y ∈ inputs, E.keccak256 x = E.keccak256 y → x = y))

theorem NoCollision.mono {l l' : List Bytes} (h : NoCollision E l) (hsub : ∀ x ∈ l', x ∈ l) :
    NoCollision E l' :=
  fun x hx y hy => h x (hsub x hx) y (hsub y hy)

/-! ## Binding -/

/-- What a list node says is determined by its encoding. -/
theorem Says.unique {raw : Bytes} {body body' : Body} (h : Says E raw body)
    (h' : Says E raw body') : body = body' := by
  obtain ⟨payload, hitem, hbody⟩ := h
  obtain ⟨payload', hitem', hbody'⟩ := h'
  rw [hitem] at hitem'
  simp only [Except.ok.injEq, Taken.mk.injEq, true_and, and_true] at hitem'
  rw [← hitem', hbody] at hbody'
  exact Except.ok.inj hbody'

theorem Says.not_null {raw : Bytes} {body : Body} (h : Says E raw body) :
    takeItem E raw ≠ .ok ⟨false, [], raw, []⟩ := by
  obtain ⟨payload, hitem, _⟩ := h
  rw [hitem]
  simp

theorem Matches.raw_eq {raw raw' : Bytes} {r r' : NodeRef} (h : Matches E raw r)
    (h' : Matches E raw' r') (hr : r.asSlice = r'.asSlice)
    (hinj : NoCollision E (longRaw raw ++ longRaw raw')) : raw = raw' := by
  unfold Matches at h h'
  by_cases hlen : raw.length < 32 <;> by_cases hlen' : raw'.length < 32
  · rw [if_pos hlen] at h
    rw [if_pos hlen'] at h'
    rw [h, h', hr]
  · rw [if_pos hlen] at h
    rw [if_neg hlen', ← hr, ← h] at h'
    rw [← h', B256.length_bytes] at hlen
    omega
  · rw [if_neg hlen] at h
    rw [if_pos hlen', ← hr, ← h] at h'
    rw [h', B256.length_bytes] at hlen'
    omega
  · rw [if_neg hlen] at h
    rw [if_neg hlen', ← hr, ← h] at h'
    refine hinj raw ?_ raw' ?_ (B256.ext h'.symm)
    · simp [longRaw, Nat.not_lt.mp hlen]
    · simp [longRaw, Nat.not_lt.mp hlen']

/-- A node that answers a lookup is no digest. -/
theorem Decoded.get_digest {raw d : Bytes} {key : List UInt8} {o : Option Bytes} :
    (Decoded.digest raw d).get key ≠ .ok o := by
  rw [Decoded.get]
  cases B256.fromSlice d <;> simp [okOr, Except.bind]

theorem longRaw_subset (D : Decoded) (h : ∀ raw d, D ≠ .digest raw d) :
    ∀ x ∈ longRaw D.raw, x ∈ D.addressed := by
  intro x hx
  cases D with
  | absent => simp [longRaw, Decoded.raw] at hx
  | digest raw d => exact absurd rfl (h raw d)
  | null raw => exact hx
  | leaf raw path value => exact hx
  | ext raw path slot c => exact List.mem_append_left _ hx
  | branch raw slots c => exact List.mem_append_left _ hx

theorem Checked.matches {D : Decoded} {r : NodeRef} (h : Checked E D r)
    (hd : ∀ raw d, D ≠ .digest raw d) : Matches E D.raw r := by
  cases D with
  | absent => exact h.elim
  | digest raw d => exact absurd rfl (hd raw d)
  | null raw => exact h.2
  | leaf raw path value => exact h.2
  | ext raw path slot c => exact h.2.1
  | branch raw slots c => exact h.2.1

theorem ne_digest_of_get {D : Decoded} {key : List UInt8} {o : Option Bytes}
    (h : D.get key = .ok o) : ∀ raw d, D ≠ .digest raw d := by
  rintro raw d rfl
  exact Decoded.get_digest h

/-- Nodes under the same reference that answer a lookup have the same encoding. -/
theorem raw_eq_of_checked {D D' : Decoded} {r r' : NodeRef} {key : List UInt8}
    {o o' : Option Bytes} (h : Checked E D r) (h' : Checked E D' r')
    (hr : r.asSlice = r'.asSlice) (hg : D.get key = .ok o) (hg' : D'.get key = .ok o')
    (hinj : NoCollision E (D.addressed ++ D'.addressed)) : D.raw = D'.raw := by
  have hd := ne_digest_of_get hg
  have hd' := ne_digest_of_get hg'
  refine (h.matches hd).raw_eq (h'.matches hd') hr (hinj.mono fun x hx => ?_)
  rcases List.mem_append.mp hx with hx | hx
  · exact List.mem_append_left _ (longRaw_subset D hd x hx)
  · exact List.mem_append_right _ (longRaw_subset D' hd' x hx)

/-- Trees whose roots have the same encoding answer lookups alike. -/
theorem get_eq_of_raw {D D' : Decoded} {r r' : NodeRef} {key : List UInt8} {o o' : Option Bytes}
    (h : Checked E D r) (h' : Checked E D' r') (hraw : D.raw = D'.raw)
    (hinj : NoCollision E (D.addressed ++ D'.addressed)) (hg : D.get key = .ok o)
    (hg' : D'.get key = .ok o') : o = o' := by
  induction D generalizing D' r r' key o o' with
  | absent => exact h.elim
  | digest raw d => exact absurd hg Decoded.get_digest
  | null raw =>
    obtain rfl : none = o := by simpa [Decoded.get] using hg
    cases D' with
    | absent => exact h'.elim
    | digest raw' d' => exact absurd hg' Decoded.get_digest
    | null raw' => simpa [Decoded.get] using hg'
    | leaf raw' path' value' => exact absurd h.1 ((show raw = raw' from hraw) ▸ h'.1.not_null)
    | ext raw' path' slot' c' => exact absurd h.1 ((show raw = raw' from hraw) ▸ h'.1.not_null)
    | branch raw' slots' c' => exact absurd h.1 ((show raw = raw' from hraw) ▸ h'.1.not_null)
  | leaf raw path value =>
    cases D' with
    | absent => exact h'.elim
    | digest raw' d' => exact absurd hg' Decoded.get_digest
    | null raw' => exact absurd h'.1 ((show raw = raw' from hraw) ▸ h.1.not_null)
    | leaf raw' path' value' =>
      obtain rfl : raw = raw' := hraw
      obtain ⟨rfl, rfl⟩ := Body.leaf.inj (h.1.unique h'.1)
      rw [Decoded.get] at hg hg'
      rw [hg] at hg'
      exact Except.ok.inj hg'
    | ext raw' path' slot' c' =>
      obtain rfl : raw = raw' := hraw
      cases h.1.unique h'.1
    | branch raw' slots' c' =>
      obtain rfl : raw = raw' := hraw
      cases h.1.unique h'.1
  | ext raw path slot c ih =>
    cases D' with
    | absent => exact h'.elim
    | digest raw' d' => exact absurd hg' Decoded.get_digest
    | null raw' => exact absurd h'.1 ((show raw = raw' from hraw) ▸ h.1.not_null)
    | leaf raw' path' value' =>
      obtain rfl : raw = raw' := hraw
      cases h.1.unique h'.1
    | branch raw' slots' c' =>
      obtain rfl : raw = raw' := hraw
      cases h.1.unique h'.1
    | ext raw' path' slot' c' =>
      obtain rfl : raw = raw' := hraw
      obtain ⟨rfl, rfl⟩ := Body.ext.inj (h.1.unique h'.1)
      rw [Decoded.get] at hg hg'
      cases hstrip : Hp.encodedPathStripPrefix path key with
      | none => simp [hstrip, okOr, Except.bind] at hg
      | some t =>
        cases t with
        | none =>
          simp only [hstrip, okOr, Except.bind, Except.ok.injEq] at hg hg'
          rw [← hg, ← hg']
        | some tail =>
          simp only [hstrip, okOr, Except.bind] at hg hg'
          have hsub : NoCollision E (c.addressed ++ c'.addressed) := hinj.mono fun x hx => by
            simp only [Decoded.addressed, List.mem_append] at hx ⊢
            tauto
          exact ih h.2.2 h'.2.2 (raw_eq_of_checked h.2.2 h'.2.2 rfl hg hg' hsub) hsub hg hg'
  | branch raw slots c ih =>
    cases D' with
    | absent => exact h'.elim
    | digest raw' d' => exact absurd hg' Decoded.get_digest
    | null raw' => exact absurd h'.1 ((show raw = raw' from hraw) ▸ h.1.not_null)
    | leaf raw' path' value' =>
      obtain rfl : raw = raw' := hraw
      cases h.1.unique h'.1
    | ext raw' path' slot' c' =>
      obtain rfl : raw = raw' := hraw
      cases h.1.unique h'.1
    | branch raw' slots' c' =>
      obtain rfl : raw = raw' := hraw
      obtain rfl := Body.branch.inj (h.1.unique h'.1)
      cases key with
      | nil =>
        simp only [Decoded.get, Except.ok.injEq] at hg hg'
        rw [← hg, ← hg']
      | cons i tail =>
        rw [Decoded.get] at hg hg'
        by_cases hi : i.toNat < 16
        · rw [dif_pos hi] at hg hg'
          rcases h.2.2 ⟨i.toNat, hi⟩ with ⟨hs, hc⟩ | ⟨hs, hc⟩
          · rcases h'.2.2 ⟨i.toNat, hi⟩ with ⟨_, hc'⟩ | ⟨hs', _⟩
            · rw [hc] at hg
              rw [hc'] at hg'
              rw [hg] at hg'
              exact Except.ok.inj hg'
            · simp [hs] at hs'
          · rcases h'.2.2 ⟨i.toNat, hi⟩ with ⟨hs', _⟩ | ⟨_, hc'⟩
            · simp [hs] at hs'
            · have hmem (c : Nibble → Decoded) : ∀ x ∈ (c ⟨i.toNat, hi⟩).addressed,
                  x ∈ ((List.finRange 16).map fun i => (c i).addressed).flatten := fun x hx =>
                List.mem_flatten.mpr ⟨_, List.mem_map_of_mem (List.mem_finRange _), hx⟩
              have hsub : NoCollision E
                  ((c ⟨i.toNat, hi⟩).addressed ++ (c' ⟨i.toNat, hi⟩).addressed) := by
                refine hinj.mono fun x hx => ?_
                rcases List.mem_append.mp hx with hx | hx
                · exact List.mem_append_left _ (List.mem_append_right _ (hmem c x hx))
                · exact List.mem_append_right _ (List.mem_append_right _ (hmem c' x hx))
              exact ih _ hc hc' (raw_eq_of_checked hc hc' rfl hg hg' hsub) hsub hg hg'
        · simp [hi] at hg

/-! ## Whole inputs -/

variable (E) in
/-- The root hash, as the decoded arena computes it. -/
def Decoded.rootHash : Decoded → Option B256
  | .absent => none
  | .null _ => some E.emptyRootHash
  | .digest _ d => B256.fromSlice d
  | D => some (E.keccak256 D.raw)

theorem rootRef_ok {bytes : Bytes} {r : NodeRef} (h : rootRef E bytes = .ok r) :
    (∃ b, r = .bytes b ∧ b.length < 32) ∨ ∃ d, r = .digest d := by
  unfold rootRef at h
  cases hitem : takeItem E bytes with
  | error e =>
    rw [hitem] at h
    cases h
  | ok node =>
    rw [hitem] at h
    replace h : (if node.raw.length < 32 then .ok (.bytes node.raw)
      else if node.list = false then .ok (.digest node.payload)
      else .ok (.digest (E.keccak256 node.raw).bytes)) = Except.ok (ε := Halt) r := h
    by_cases hlen : node.raw.length < 32
    · rw [if_pos hlen, Except.ok.injEq] at h
      exact .inl ⟨_, h.symm, hlen⟩
    · rw [if_neg hlen] at h
      by_cases hlist : node.list = false
      · rw [if_pos hlist, Except.ok.injEq] at h
        exact .inr ⟨_, h.symm⟩
      · rw [if_neg hlist, Except.ok.injEq] at h
        exact .inr ⟨_, h.symm⟩

/-- The hash of a node other than the null node, from its cached reference. -/
theorem hash_of_cached {m : Mpt} {data : NodeData} {r : NodeRef}
    (h : m.cells[m.rootId]? = some ⟨data, some r⟩) (hn : data ≠ .null) :
    hash E m = referenceHash E r m := by
  have hcached : cachedReference (calcReference E m.size) m.rootId m = (.ok r, m) :=
    Exec.bind_ok (cacheAt_ok h)
  have hstack : (withStack fun fuel => cachedReference (calcReference E fuel) m.rootId) m =
      (.ok r, m) := (Exec.bind_ok (Exec.read_apply _ m)).trans hcached
  unfold hash
  refine (Exec.bind_ok (Exec.read_apply _ m)).trans ((Exec.bind_ok (nodeAt_ok h)).trans ?_)
  cases data with
  | null => exact absurd rfl hn
  | branch c => exact Exec.bind_ok hstack
  | leaf p v => exact Exec.bind_ok hstack
  | extension p c => exact Exec.bind_ok hstack
  | digest d => exact Exec.bind_ok hstack

/-- The reference of a list node at the root hashes its encoding. -/
theorem referenceHash_heldRef {raw : Bytes} {r : NodeRef}
    (hr : (∃ b, r = .bytes b ∧ b.length < 32) ∨ ∃ d, r = .digest d) (hm : Matches E raw r)
    (m : Mpt) : referenceHash E (heldRef raw r) m = (.ok (E.keccak256 raw), m) := by
  unfold heldRef
  unfold Matches at hm
  by_cases hlen : raw.length < 32
  · rw [if_pos hlen]
    rfl
  · rw [if_neg hlen] at hm ⊢
    rcases hr with ⟨b, rfl, hb⟩ | ⟨d, rfl⟩
    · have := congrArg List.length hm
      simp only [NodeRef.asSlice, B256.length_bytes] at this
      omega
    · simp only [NodeRef.asSlice] at hm
      rw [referenceHash, ← hm, B256.fromSlice_bytes]
      rfl

theorem hash_of_laid {m : Mpt} {D : Decoded} {r : NodeRef} {lo hi : Nat} (h : Checked E D r)
    (hl : Laid m D r m.rootId lo hi)
    (hr : (∃ b, r = .bytes b ∧ b.length < 32) ∨ ∃ d, r = .digest d) :
    ∃ root, hash E m = (.ok root, m) ∧ D.rootHash E = some root := by
  cases D with
  | absent => exact h.elim
  | null raw =>
    refine ⟨E.emptyRootHash, ?_, rfl⟩
    unfold hash
    exact (Exec.bind_ok (Exec.read_apply _ m)).trans (Exec.bind_ok (nodeAt_ok hl))
  | digest raw d =>
    refine ⟨⟨d, h.2.1⟩, (hash_of_cached hl.2 (by simp)).trans ?_, ?_⟩
    · simp only [referenceHash, B256.fromSlice, dif_pos h.2.1]
      rfl
    · simp only [Decoded.rootHash, B256.fromSlice, dif_pos h.2.1]
  | leaf raw path value =>
    exact ⟨_, (hash_of_cached hl.2 (by simp)).trans (referenceHash_heldRef hr h.2 m), rfl⟩
  | ext raw path slot c =>
    obtain ⟨_, j, hc, _⟩ := hl
    exact ⟨_, (hash_of_cached hc (by simp)).trans (referenceHash_heldRef hr h.2.1 m), rfl⟩
  | branch raw slots c =>
    obtain ⟨_, ids, hc, _⟩ := hl
    exact ⟨_, (hash_of_cached hc (by simp)).trans (referenceHash_heldRef hr h.2.1 m), rfl⟩

/-- The encoding of the empty trie is one item. -/
theorem takeItem_emptyString (hnull : ∀ rest, E.decodeHeader (emptyStringCode :: rest) =
    .ok (⟨false, 0⟩, rest)) (rest : Bytes) :
    takeItem E (emptyStringCode :: rest) = .ok ⟨false, [], [emptyStringCode], rest⟩ :=
  takeItem_of_decode (show emptyStringCode :: rest = [emptyStringCode] ++ [] ++ rest from rfl)
    (hnull rest)

/-- What `decode_trie` returns is a checked tree in an arena. -/
theorem decodeTrie_ok (hp : PrefixConsuming E.decodeHeader)
    (hnull : ∀ rest, E.decodeHeader (emptyStringCode :: rest) = .ok (⟨false, 0⟩, rest))
    {bytes rest : Bytes} {numNodes : Nat} {m : Mpt}
    (h : decodeTrie E bytes numNodes = .ok (m, rest)) :
    ∃ D rest' expected, parseNode E (bytes.length + 1) bytes = .ok (D, rest') ∧
      Checked E D expected ∧ Laid m D expected m.rootId 1 m.size ∧ 0 < m.size ∧
      ((∃ b, expected = .bytes b ∧ b.length < 32) ∨ ∃ d, expected = .digest d) := by
  unfold decodeTrie at h
  by_cases hempty : bytes = [emptyStringCode, 0, 0, 0]
  · simp only [if_pos hempty, Except.ok.injEq, Prod.mk.injEq] at h
    obtain ⟨rfl, _⟩ := h
    subst hempty
    refine ⟨.null [emptyStringCode], [], .bytes [emptyStringCode], ?_,
      ⟨takeItem_emptyString hnull [], rfl⟩, rfl, by decide, .inl ⟨_, rfl, by decide⟩⟩
    show parseNode E 5 _ = _
    rw [parseNode, takeItem_emptyString hnull]
    rfl
  · rw [if_neg hempty] at h
    cases hroot : rootRef E bytes with
    | error e =>
      rw [hroot] at h
      cases h
    | ok expected =>
      rw [hroot] at h
      simp only [bind, Except.bind] at h
      rcases hdec : decodeTrieInternal E (bytes.length + 1) bytes expected new with
        ⟨_ | ⟨id, rest'⟩, m'⟩
      · simp [hdec] at h
      · simp only [hdec, Except.ok.injEq, Prod.mk.injEq] at h
        obtain ⟨rfl, rfl⟩ := h
        obtain ⟨D, hparse, hchk, hl, he⟩ := decodeTrieInternal_ok hp _ _ _ _ _ _ _
          (show Based new from rfl) hdec
        exact ⟨D, rest', expected, hparse, hchk,
          Laid.extends (show Extends m' { m' with rootId := id } from List.prefix_rfl) hl, he.size_le,
          rootRef_ok hroot⟩

theorem getNibbles_laid {m : Mpt} {D : Decoded} {r : NodeRef} (h : Laid m D r m.rootId 1 m.size)
    (hm : 0 < m.size) (key : List UInt8) : getNibbles key m = (D.get key, m) := by
  unfold getNibbles
  rw [Exec.bind_ok (Exec.read_apply _ m)]
  exact getInternal_laid key h (by omega)

/-- A node that is no digest: the null node, or a list node. -/
theorem Checked.null_or_says {D : Decoded} {r : NodeRef} (h : Checked E D r)
    (hd : ∀ raw d, D ≠ .digest raw d) : (∃ raw, D = .null raw) ∨
      ((∃ body, Says E D.raw body) ∧ D.rootHash E = some (E.keccak256 D.raw) ∧
        D.hashed = D.raw :: D.addressed) := by
  cases D with
  | absent => exact h.elim
  | digest raw d => exact absurd rfl (hd raw d)
  | null raw => exact .inl ⟨raw, rfl⟩
  | leaf raw path value => exact .inr ⟨⟨_, h.1⟩, rfl, rfl⟩
  | ext raw path slot c => exact .inr ⟨⟨_, h.1⟩, rfl, rfl⟩
  | branch raw slots c => exact .inr ⟨⟨_, h.1⟩, rfl, rfl⟩

/-- No list node has the hash of the empty trie. -/
theorem Says.ne_emptyRoot
    (hnull : ∀ rest, E.decodeHeader (emptyStringCode :: rest) = .ok (⟨false, 0⟩, rest))
    (hempty : E.emptyRootHash = E.keccak256 [emptyStringCode]) {raw : Bytes} {body : Body}
    (h : Says E raw body) {l : List Bytes} (hl : raw ∈ l)
    (hinj : NoCollision E (l ++ [[emptyStringCode]])) : E.keccak256 raw ≠ E.emptyRootHash := by
  rw [hempty]
  intro heq
  have hraw : raw = [emptyStringCode] := hinj _ (by simp [hl]) _ (by simp) heq
  subst hraw
  exact h.not_null (takeItem_emptyString hnull [])

/-- Authenticated decoding is binding: two accepted inputs with the same root hash do not
give two different answers to a lookup. -/
theorem decode_binding (hp : PrefixConsuming E.decodeHeader)
    (hnull : ∀ rest, E.decodeHeader (emptyStringCode :: rest) = .ok (⟨false, 0⟩, rest))
    (hempty : E.emptyRootHash = E.keccak256 [emptyStringCode])
    {bytes₁ bytes₂ rest₁ rest₂ : Bytes} {n₁ n₂ : Nat} {m₁ m₂ : Mpt}
    (h₁ : decodeTrie E bytes₁ n₁ = .ok (m₁, rest₁)) (h₂ : decodeTrie E bytes₂ n₂ = .ok (m₂, rest₂))
    (hinj : NoCollision E (hashedNodes E bytes₁ ++ hashedNodes E bytes₂ ++ [[emptyStringCode]]))
    (hhash : (hash E m₁).1 = (hash E m₂).1) (key : List UInt8) {o₁ o₂ : Option Bytes}
    (hg₁ : (getNibbles key m₁).1 = .ok o₁) (hg₂ : (getNibbles key m₂).1 = .ok o₂) : o₁ = o₂ := by
  obtain ⟨D₁, r₁, e₁, hparse₁, hchk₁, hl₁, hm₁, he₁⟩ := decodeTrie_ok hp hnull h₁
  obtain ⟨D₂, r₂, e₂, hparse₂, hchk₂, hl₂, hm₂, he₂⟩ := decodeTrie_ok hp hnull h₂
  have hnodes₁ : hashedNodes E bytes₁ = D₁.hashed := by rw [hashedNodes, hparse₁]
  have hnodes₂ : hashedNodes E bytes₂ = D₂.hashed := by rw [hashedNodes, hparse₂]
  rw [hnodes₁, hnodes₂] at hinj
  obtain ⟨root₁, hroot₁, hD₁⟩ := hash_of_laid hchk₁ hl₁ he₁
  obtain ⟨root₂, hroot₂, hD₂⟩ := hash_of_laid hchk₂ hl₂ he₂
  obtain rfl : root₁ = root₂ := by simpa [hroot₁, hroot₂] using hhash
  rw [getNibbles_laid hl₁ hm₁] at hg₁
  rw [getNibbles_laid hl₂ hm₂] at hg₂
  rcases hchk₁.null_or_says (ne_digest_of_get hg₁) with ⟨raw₁, rfl⟩ | ⟨⟨b₁, hs₁⟩, hh₁, ha₁⟩
  · rcases hchk₂.null_or_says (ne_digest_of_get hg₂) with ⟨raw₂, rfl⟩ | ⟨⟨b₂, hs₂⟩, hh₂, ha₂⟩
    · simp only [Decoded.get, Except.ok.injEq] at hg₁ hg₂
      rw [← hg₁, ← hg₂]
    · simp only [Decoded.rootHash, Option.some.injEq] at hD₁
      rw [hh₂, Option.some.injEq, ← hD₁] at hD₂
      exact absurd hD₂ (hs₂.ne_emptyRoot hnull hempty (by simp [ha₂]) hinj)
  · rcases hchk₂.null_or_says (ne_digest_of_get hg₂) with ⟨raw₂, rfl⟩ | ⟨⟨b₂, hs₂⟩, hh₂, ha₂⟩
    · simp only [Decoded.rootHash, Option.some.injEq] at hD₂
      rw [hh₁, Option.some.injEq, ← hD₂] at hD₁
      exact absurd hD₁ (hs₁.ne_emptyRoot hnull hempty (by simp [ha₁]) hinj)
    · rw [hh₁, Option.some.injEq] at hD₁
      rw [hh₂, Option.some.injEq] at hD₂
      have hraw : D₁.raw = D₂.raw := hinj _ (by simp [ha₁]) _ (by simp [ha₂]) (hD₁.trans hD₂.symm)
      refine get_eq_of_raw hchk₁ hchk₂ hraw (hinj.mono fun x hx => ?_) hg₁ hg₂
      rw [ha₁, ha₂]
      rcases List.mem_append.mp hx with hx | hx <;> simp [hx]

theorem encodable_sampleTrie : Encodable sampleEnv sampleTrie :=
  have hleaf : (payload sampleEnv (leaf [3] [5])).length < 2 ^ 64 := by decide
  have hlong : (payload sampleEnv (leaf [2] sampleValue)).length < 2 ^ 64 := by decide
  fork_forall (Q := fun t => t ≠ hole ∧ Encodable sampleEnv t) (by simp [Encodable])
    (t := leaf [2] sampleValue) (u := leaf [3] [5]) ⟨by simp, hlong⟩ ⟨by simp, hleaf⟩ 1 2

/-- The whole trie and a part of it, as inputs with the same root. -/
theorem decode_binding_sample :
    ∃ m₁ m₂, decodeTrie sampleEnv (encoding sampleEnv sampleTrie) 3 = .ok (m₁, []) ∧
      decodeTrie sampleEnv (encoding sampleEnv samplePartial) 3 = .ok (m₂, []) ∧
      (getNibbles [2, 3] m₁).1 = .ok (some [5]) ∧ (getNibbles [2, 3] m₂).1 = .ok (some [5]) ∧
      ∀ key o₁ o₂, (getNibbles key m₁).1 = .ok o₁ → (getNibbles key m₂).1 = .ok o₂ → o₁ = o₂ := by
  obtain ⟨m₁, h₁, hl₁⟩ := decodeTrie_encoding (E := sampleEnv) inverse_decodeHeader
    encodable_sampleTrie ⟨by simp [sampleTrie, fork], by simp [sampleTrie, fork]⟩ [] 3
  obtain ⟨m₂, h₂, hl₂⟩ := decodeTrie_encoding (E := sampleEnv) inverse_decodeHeader
    encodable_samplePartial ⟨by simp [samplePartial, fork], by simp [samplePartial, fork]⟩ [] 3
  rw [List.append_nil] at h₁ h₂
  refine ⟨m₁, m₂, h₁, h₂, ?_, ?_, fun key o₁ o₂ hg₁ hg₂ => ?_⟩
  · have hget : sampleTrie.get [2, 3] = .ok (some [5]) := by decide
    have h := hl₁.get [2, 3]
    rw [hget] at h
    exact congrArg Prod.fst h
  · have hget : samplePartial.get [2, 3] = .ok (some [5]) := by decide
    have h := hl₂.get [2, 3]
    rw [hget] at h
    exact congrArg Prod.fst h
  · obtain ⟨_, hh₁, _⟩ := hash_spec hl₁.1 hl₁.2
    obtain ⟨_, hh₂, _⟩ := hash_spec hl₂.1 hl₂.2
    have hdec : sampleEnv.decodeHeader = decodeHeader := rfl
    refine decode_binding (E := sampleEnv) prefixConsuming_decodeHeader ?_ (by decide)
      h₁ h₂ (by decide) ?_ key hg₁ hg₂
    · rw [hdec]
      exact decodeHeader_emptyString
    · rw [hh₁, hh₂, view_samplePartial.hash_eq]

end Mpt
end CenoReth
