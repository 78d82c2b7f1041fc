/-
What an accepted input shows of a trie.

An input that is accepted under the root hash of a trie repeats the nodes of that
trie as far as it goes, unless the hash function collides: node by node, the
encoding that was read is the encoding the trie has there, and an encoding says one
thing only.  So a decoded trie answers like the trie its root commits to, and when
that trie is complete, the decoded one is a partial view of it.

The trie may itself have digests.  Nothing is said about what the input shows below
them.
-/
import CenoReth.Mpt.Sealed

namespace CenoReth
namespace Mpt

open Patricia Patricia.Radix Trie Rlp

variable {E : Env}

/-! ## What an encoding says -/

theorem Small.fits {t : Trie} (h : Small E t) (hl : isList t) : (nodeItem E t).Fits := by
  cases t with
  | leaf p v => exact h
  | ext p c => exact h.1
  | branch c => exact length_payload_branch_lt c
  | _ => exact hl.elim

/-- A payload of two items. -/
theorem bodyOf_pair (hinv : Inverse E.decodeHeader) {path : List Nibble} {isLeaf : Bool}
    {b : Item} (ha : (Hp.encode path isLeaf).length < 2 ^ 64) (hb : b.Fits) :
    bodyOf E (encodeString (Hp.encode path isLeaf) ++ b.encode) =
      .ok (if isLeaf = false then .ext (Hp.encode path isLeaf) b.encode
        else .leaf (Hp.encode path isLeaf) (itemPayload b)) := by
  have h0 := takeItem_encode hinv (a := .str (Hp.encode path isLeaf)) ha b.encode
  have h1 := takeItem_encode hinv hb []
  rw [List.append_nil] at h1
  obtain ⟨first, tl, hfirst, hflag⟩ := Hp.encode_eq_cons path isLeaf
  unfold bodyOf
  rw [show encodeString (Hp.encode path isLeaf) = (Item.str (Hp.encode path isLeaf)).encode from rfl,
    h0]
  show (do
    let item1 ← takeItem E b.encode
    _ : Except Halt Body) = _
  rw [h1]
  simp only [itemPayload, hfirst]
  show (if (first &&& Hp.hpFlagLeaf) = 0 then _ else _) = _
  simp only [hflag]
  split <;> rfl

/-- The slots of a branch, one after the other. -/
theorem takeSlots_encode (hinv : Inverse E.decodeHeader) (rest : Bytes) : ∀ l : List Trie,
    takeSlots E l.length ((l.map fun c => encodeRef (ref E c)).flatten ++ rest) =
      .ok (l.map fun c => encodeRef (ref E c), rest)
  | [] => rfl
  | c :: l => by
    have hitem := takeItem_encode hinv (refItem_fits (E := E) c)
      ((l.map fun c => encodeRef (ref E c)).flatten ++ rest)
    rw [← encodeRef_eq] at hitem
    simp only [List.map_cons, List.flatten_cons, List.append_assoc, List.length_cons, takeSlots]
    rw [hitem]
    show (do
      let taken ← takeSlots E l.length _
      _ : Except Halt (List Bytes × Bytes)) = _
    rw [takeSlots_encode hinv rest l]
    rfl

theorem slotsOf_map (f : Nibble → Bytes) : slotsOf ((List.finRange 16).map f) = f := by
  funext i
  simp [slotsOf]

theorem bodyOf_branch (hinv : Inverse E.decodeHeader) (c : Nibble → Trie) :
    bodyOf E (payload E (branch c)) = .ok (.branch fun i => encodeRef (ref E (c i))) := by
  obtain ⟨l, hl, hlen⟩ : ∃ l : List Nibble, List.finRange 16 = 0 :: 1 :: l ∧ l.length = 14 :=
    ⟨_, rfl, rfl⟩
  have hpay : payload E (branch c) = (refItem E (c 0)).encode ++ ((refItem E (c 1)).encode ++
      (((l.map c).map fun c => encodeRef (ref E c)).flatten ++ nullNodeRefSlice)) := by
    rw [payload_branch, hl, ← encodeRef_eq, ← encodeRef_eq]
    simp [nullNodeRefSlice, Function.comp_def]
  have hslots := takeSlots_encode hinv nullNodeRefSlice (l.map c)
  rw [List.length_map, hlen] at hslots
  have hne : ((l.map c).map fun c => encodeRef (ref E c)).flatten ++ nullNodeRefSlice ≠ [] := by
    simp [nullNodeRefSlice]
  unfold bodyOf
  rw [hpay, takeItem_encode hinv (refItem_fits (c 0))]
  show (do
    let item1 ← takeItem E _
    _ : Except Halt Body) = _
  rw [takeItem_encode hinv (refItem_fits (c 1))]
  show (if _ = [] then _ else _) = _
  rw [if_neg hne]
  show (do
    let taken ← takeSlots E 14 _
    _ : Except Halt Body) = _
  rw [hslots]
  show Except.ok (Body.branch (slotsOf ((refItem E (c 0)).encode :: (refItem E (c 1)).encode ::
    (l.map c).map fun c => encodeRef (ref E c)))) = _
  rw [← encodeRef_eq, ← encodeRef_eq, List.map_map]
  congr 2
  rw [← slotsOf_map fun i => encodeRef (ref E (c i)), hl]
  rfl

/-- The encoding of a list node is one item. -/
theorem takeItem_node (hinv : Inverse E.decodeHeader) {t : Trie} (hs : Small E t) (hl : isList t) :
    takeItem E (rlp E t) = .ok ⟨true, payload E t, rlp E t, []⟩ := by
  have h := takeItem_encode hinv (hs.fits hl) []
  rwa [List.append_nil, nodeItem_encode, nodeItem_payload, nodeItem_isList.mpr hl] at h

theorem says_leaf (hinv : Inverse E.decodeHeader) {p : List Nibble} {v : Bytes}
    (hs : Small E (leaf p v)) : Says E (rlp E (leaf p v)) (.leaf (Hp.encode p true) v) :=
  ⟨_, takeItem_node hinv hs trivial, bodyOf_pair hinv (b := .str v) (length_left_lt hs)
    (length_right_lt hs)⟩

theorem says_ext (hinv : Inverse E.decodeHeader) {p : List Nibble} {c : Trie}
    (hs : Small E (ext p c)) :
    Says E (rlp E (ext p c)) (.ext (Hp.encode p false) (encodeRef (ref E c))) := by
  have hlen := hs.1
  have hpay : payload E (ext p c) =
      encodeString (Hp.encode p false) ++ (refItem E c).encode := by
    rw [payload_ext, encodeRef_eq]
  rw [hpay] at hlen
  refine ⟨_, takeItem_node hinv hs trivial, ?_⟩
  rw [hpay, bodyOf_pair hinv (length_left_lt hlen) (refItem_fits c), encodeRef_eq]
  rfl

theorem says_branch (hinv : Inverse E.decodeHeader) {c : Nibble → Trie}
    (hs : Small E (branch c)) :
    Says E (rlp E (branch c)) (.branch fun i => encodeRef (ref E (c i))) :=
  ⟨_, takeItem_node hinv hs trivial, bodyOf_branch hinv c⟩

/-! ## Trees below a committed trie -/

/-- The tree shows part of the trie: it repeats the nodes of the trie down to digests of
its own, or to digests of the trie. -/
inductive Shows (E : Env) : Decoded → Trie → Prop
  | unseen {raw d : Bytes} {t : Trie} (h : ref E t = .digest d) : Shows E (.digest raw d) t
  | behind {D : Decoded} {d : B256} : Shows E D (digest d)
  | ofNull {raw : Bytes} {t : Trie} (h : t = null ∨ t = hole) : Shows E (.null raw) t
  | ofAbsent {t : Trie} (h : t = null ∨ t = hole) : Shows E .absent t
  | ofLeaf (p : List Nibble) (v : Bytes) :
      Shows E (.leaf (rlp E (leaf p v)) (Hp.encode p true) v) (leaf p v)
  | ofExt (p : List Nibble) {D : Decoded} {c : Trie} (h : Shows E D c) :
      Shows E (.ext (rlp E (ext p c)) (Hp.encode p false) (encodeRef (ref E c)) D) (ext p c)
  | ofBranch {D : Nibble → Decoded} {c : Nibble → Trie} (h : ∀ i, Shows E (D i) (c i))
      (h0 : ∀ i, c i = null → D i = .absent) :
      Shows E (.branch (rlp E (branch c)) (fun i => encodeRef (ref E (c i))) D) (branch c)

theorem matches_ref {t : Trie} (hl : isList t) : Matches E (rlp E t) (ref E t) := by
  rw [Matches, ref_of_isList hl]
  by_cases hlen : (rlp E t).length < 32
  · rw [if_pos hlen, if_pos hlen]
    rfl
  · rw [if_neg hlen, if_neg hlen]
    rfl

/-- No collision among the nodes of an input and of a trie. -/
theorem noCollision_of_injOn {H : Set Bytes} (hinj : Set.InjOn E.keccak256 H) {l : List Bytes}
    (h : ∀ b ∈ l, b ∈ H) : NoCollision E l :=
  fun _ hx _ hy he => hinj (h _ hx) (h _ hy) he

section Shows

variable {H : Set Bytes} (hinj : Set.InjOn E.keccak256 H)

include hinj in
/-- A node under the reference of a list node has its encoding. -/
theorem Matches.eq_rlp {raw : Bytes} {t : Trie} (h : Matches E raw (ref E t)) (hl : isList t)
    (hraw : ∀ b ∈ longRaw raw, b ∈ H) (ht : addressed E t ⊆ H) : raw = rlp E t := by
  refine h.raw_eq (matches_ref hl) rfl (noCollision_of_injOn hinj fun b hb => ?_)
  rcases List.mem_append.mp hb with hb | hb
  · exact hraw b hb
  · unfold longRaw at hb
    split at hb
    · rename_i hlen
      rw [List.mem_singleton] at hb
      subst hb
      exact ht (mem_addressed_self hl (Nat.not_lt.mpr hlen))
    · simp at hb

/-- A list node does not match the reference of an empty slot. -/
theorem Says.not_empty (hnull : ∀ rest, E.decodeHeader (emptyStringCode :: rest) =
    .ok (⟨false, 0⟩, rest)) {raw : Bytes} {body : Body} (h : Says E raw body) {t : Trie}
    (ht : t = null ∨ t = hole) : ¬ Matches E raw (ref E t) := by
  intro hm
  have href : ref E t = .bytes [emptyStringCode] := by
    rcases ht with rfl | rfl <;> rfl
  rw [Matches, href] at hm
  by_cases hlen : raw.length < 32
  · rw [if_pos hlen] at hm
    obtain rfl : raw = [emptyStringCode] := hm
    exact h.not_null (takeItem_emptyString hnull [])
  · rw [if_neg hlen] at hm
    have := congrArg List.length hm
    simp [NodeRef.asSlice, B256.length_bytes] at this

include hinj in
/-- A list node under the reference of a trie that is no digest. -/
theorem Says.isList (hnull : ∀ rest, E.decodeHeader (emptyStringCode :: rest) =
    .ok (⟨false, 0⟩, rest)) {raw : Bytes} {body : Body} (h : Says E raw body) {t : Trie}
    (hm : Matches E raw (ref E t)) (hraw : ∀ b ∈ longRaw raw, b ∈ H) (ht : addressed E t ⊆ H) :
    (∃ d, t = digest d) ∨ (isList t ∧ raw = rlp E t) := by
  rcases node_cases t with rfl | rfl | hd | hl
  · exact absurd hm (h.not_empty hnull (.inl rfl))
  · exact absurd hm (h.not_empty hnull (.inr rfl))
  · exact .inl hd
  · exact .inr ⟨hl, hm.eq_rlp hinj hl hraw ht⟩

theorem isEmptySlot_encodeRef (t : Trie) :
    isEmptySlot (encodeRef (ref E t)) = true ↔ t = null ∨ t = hole := by
  unfold isEmptySlot
  rw [fromRlpSlice_encodeRef, decide_eq_true_eq]
  by_cases hh : t = hole
  · subst hh
    exact ⟨fun _ => .inr rfl, fun _ => rfl⟩
  · rw [asSlice_eq_null hh]
    simp [hh]

include hinj in
/-- A checked tree under the reference of a trie shows part of that trie. -/
theorem shows_of_checked (hinv : Inverse E.decodeHeader) {D : Decoded} : ∀ {t : Trie},
    Checked E D (ref E t) → Small E t → (∀ b ∈ D.addressed, b ∈ H) → addressed E t ⊆ H →
    Shows E D t := by
  have hnull : ∀ rest, E.decodeHeader (emptyStringCode :: rest) = .ok (⟨false, 0⟩, rest) :=
    fun rest => hinv.string [] rest (by simp)
  induction D with
  | absent => exact fun h => h.elim
  | null raw =>
    intro t h hs hD ht
    rcases node_cases t with rfl | rfl | ⟨d, rfl⟩ | hl
    · exact .ofNull (.inl rfl)
    · exact .ofNull (.inr rfl)
    · exact .behind
    · have hraw := h.2.eq_rlp hinj hl hD ht
      have hitem := h.1
      rw [hraw, takeItem_node hinv hs hl] at hitem
      simp at hitem
  | digest raw d =>
    rintro t ⟨_, hlen, hd⟩ _ _ _
    rcases ref_length (E := E) t with ⟨d', hr, _⟩ | ⟨b, hr, hb⟩
    · rw [hr] at hd
      obtain rfl : d = d' := hd
      exact .unseen hr
    · rw [hr] at hd
      obtain rfl : d = b := hd
      omega
  | leaf raw path value =>
    intro t h hs hD ht
    rcases h.1.isList hinj hnull h.2 hD ht with ⟨d, rfl⟩ | ⟨hl, rfl⟩
    · exact .behind
    · cases t with
      | leaf p v =>
        obtain ⟨rfl, rfl⟩ := Body.leaf.inj (h.1.unique (says_leaf hinv hs))
        exact .ofLeaf p _
      | ext p c => cases h.1.unique (says_ext hinv hs)
      | branch c => cases h.1.unique (says_branch hinv hs)
      | _ => exact hl.elim
  | ext raw path slot D ih =>
    rintro t ⟨hsaid, hm, hchk⟩ hs hD ht
    have hraw : ∀ b ∈ longRaw raw, b ∈ H := fun b hb => hD b (List.mem_append_left _ hb)
    rcases hsaid.isList hinj hnull hm hraw ht with ⟨d, rfl⟩ | ⟨hl, rfl⟩
    · exact .behind
    · cases t with
      | ext p c =>
        obtain ⟨rfl, rfl⟩ := Body.ext.inj (hsaid.unique (says_ext hinv hs))
        rw [fromRlpSlice_encodeRef] at hchk
        exact .ofExt p (ih hchk hs.2 (fun b hb => hD b (List.mem_append_right _ hb))
          fun b hb => ht (.inr hb))
      | leaf p v => cases hsaid.unique (says_leaf hinv hs)
      | branch c => cases hsaid.unique (says_branch hinv hs)
      | _ => exact hl.elim
  | branch raw slots D ih =>
    rintro t ⟨hsaid, hm, hchk⟩ hs hD ht
    have hraw : ∀ b ∈ longRaw raw, b ∈ H := fun b hb => hD b (List.mem_append_left _ hb)
    rcases hsaid.isList hinj hnull hm hraw ht with ⟨d, rfl⟩ | ⟨hl, rfl⟩
    · exact .behind
    · cases t with
      | branch c =>
        obtain rfl := Body.branch.inj (hsaid.unique (says_branch hinv hs))
        refine .ofBranch (fun i => ?_) fun i hi => ?_
        · rcases hchk i with ⟨hempty, habs⟩ | ⟨_, hi⟩
          · rw [habs]
            exact .ofAbsent ((isEmptySlot_encodeRef _).mp hempty)
          · rw [fromRlpSlice_encodeRef] at hi
            refine ih i hi (hs i) (fun b hb => hD b (List.mem_append_right _ ?_))
              fun b hb => ht (.inr ⟨i, hb⟩)
            exact List.mem_flatten.mpr ⟨_, List.mem_map_of_mem (List.mem_finRange i), hb⟩
        · rcases hchk i with ⟨_, habs⟩ | ⟨hempty, _⟩
          · exact habs
          · rw [(isEmptySlot_encodeRef (E := E) (c i)).mpr (.inl hi)] at hempty
            cases hempty
      | leaf p v => cases hsaid.unique (says_leaf hinv hs)
      | ext p c => cases hsaid.unique (says_ext hinv hs)
      | _ => exact hl.elim

end Shows

/-! ## Lookup -/

/-- Where both answer, the tree answers like the trie. -/
theorem Shows.get_eq {D : Decoded} {t : Trie} (h : Shows E D t) :
    ∀ {key : List Nibble} {o o' : Option Bytes}, D.get (key.map Nibble.toByte) = .ok o →
      t.get key = .ok o' → o = o' := by
  induction h with
  | unseen h => exact fun hg _ => absurd hg Decoded.get_digest
  | behind =>
    intro key o o' _ hg'
    simp [Radix.get] at hg'
  | ofNull h =>
    intro key o o' hg hg'
    rcases h with rfl | rfl <;> simp_all [Decoded.get, Radix.get]
  | ofAbsent h =>
    intro key o o' hg hg'
    rcases h with rfl | rfl <;> simp_all [Decoded.get, Radix.get]
  | ofLeaf p v =>
    intro key o o' hg hg'
    have heq : Hp.prefixToNibs (Hp.encode p true) = key.map Nibble.toByte ↔ p = key := by
      rw [Hp.prefixToNibs_encode]
      exact (List.map_injective_iff.mpr Nibble.toByte_injective).eq_iff
    simp only [Decoded.get, Hp.encodedPathEqNibs_eq, okOr, heq, Except.map, decide_eq_true_eq,
      Except.ok.injEq] at hg
    simp only [Radix.get, Except.ok.injEq] at hg'
    rw [← hg, ← hg']
  | ofExt p _ ih =>
    intro key o o' hg hg'
    simp only [Decoded.get, Hp.encodedPathStripPrefix_eq, okOr, Hp.prefixToNibs_encode,
      Hp.stripPrefix_map] at hg
    rw [Radix.get] at hg'
    cases hs : stripPrefix p key with
    | none =>
      simp only [hs, Option.map_none, Except.bind, Except.ok.injEq] at hg hg'
      rw [← hg, ← hg']
    | some tail =>
      simp only [hs, Option.map_some, Except.bind] at hg hg'
      exact ih hg hg'
  | ofBranch _ _ ih =>
    intro key o o' hg hg'
    cases key with
    | nil =>
      simp only [List.map_nil, Decoded.get, Radix.get, Except.ok.injEq] at hg hg'
      rw [← hg, ← hg']
    | cons i key =>
      have hi : i.toByte.toNat < 16 := by simp [Nibble.toByte]; omega
      have hfin : (⟨i.toByte.toNat, hi⟩ : Nibble) = i := by
        ext
        simp [Nibble.toByte]
        omega
      rw [List.map_cons, Decoded.get, dif_pos hi, hfin] at hg
      exact ih i hg hg'

/-! ## Views -/

theorem heldRef_ref {t : Trie} (hl : isList t) : heldRef (rlp E t) (ref E t) = ref E t := by
  rw [heldRef, ref_of_isList hl]
  by_cases hlen : (rlp E t).length < 32
  · rw [if_pos hlen, if_pos hlen]
  · rw [if_neg hlen]

theorem Shows.of_absent {t : Trie} (h : Shows E .absent t) :
    t = null ∨ t = hole ∨ ∃ d, t = digest d := by
  cases h with
  | behind => exact .inr (.inr ⟨_, rfl⟩)
  | ofAbsent h => exact h.imp_right .inl

/-- In the arena, a tree that shows part of a complete trie is a partial view of it. -/
theorem Shows.exists_view {m : Mpt} {D : Decoded} {t : Trie} (h : Shows E D t) :
    ∀ {r : NodeRef} {id : NodeId} {lo hi : Nat}, Laid m D r id lo hi → t.Resolved → NoHole t →
      (isList t → heldRef (rlp E t) r = ref E t) → ∃ P, Reads E m P id ∧ View E P t := by
  induction h with
  | @unseen raw d t h =>
    intro r id lo hi hl _ _ _
    obtain ⟨d', hd'⟩ : ∃ d' : B256, d = d'.bytes := by
      rcases ref_length (E := E) t with ⟨d', hr, hlen⟩ | ⟨b, hr, _⟩
      · rw [hr] at h
        obtain rfl : d' = d := NodeRef.digest.inj h
        exact ⟨⟨d', hlen⟩, rfl⟩
      · rw [hr] at h
        cases h
    subst hd'
    exact ⟨digest d', ⟨_, hl.2, .inr rfl⟩, .hidden h⟩
  | behind => exact fun _ hr => hr.elim
  | ofNull h =>
    intro r id lo hi hl _ hn _
    rcases h with rfl | rfl
    · exact ⟨null, ⟨none, hl, .inl rfl⟩, .ofNull⟩
    · exact hn.elim
  | ofAbsent h => exact fun hl => hl.elim
  | ofLeaf p v =>
    intro r id lo hi hl _ _ hr
    have hc := hl.2
    rw [hr trivial] at hc
    exact ⟨leaf p v, ⟨_, hc, .inr rfl⟩, .ofLeaf p v⟩
  | @ofExt p D c hD ih =>
    rintro r id lo hi ⟨_, j, hc, hl⟩ hres hn hr
    rw [hr trivial] at hc
    rw [fromRlpSlice_encodeRef] at hl
    obtain ⟨P, hP, hv⟩ := ih hl hres hn heldRef_ref
    have hv' := View.ofExt p hv
    rw [← hv'.ref_eq] at hc
    exact ⟨ext p P, ⟨_, j, hc, .inr rfl, hP⟩, hv'⟩
  | @ofBranch D c hD h0 ih =>
    rintro r id lo hi ⟨_, ids, hc, b, _, _, _, hl⟩ hres hn hr
    rw [hr trivial] at hc
    have hchild (i : Nibble) : ∃ P, ((ids i = none ∧ P = null) ∨
        ∃ j, ids i = some j ∧ P ≠ null ∧ Reads E m P j) ∧ View E P (c i) := by
      rcases hl i with ⟨hnone, habs⟩ | ⟨j, hj, hij⟩
      · refine ⟨null, .inl ⟨hnone, rfl⟩, ?_⟩
        have hi := hD i
        rw [habs] at hi
        rcases hi.of_absent with hci | hci | ⟨d, hci⟩
        · rw [hci]
          exact .ofNull
        · exact absurd (hn i) (by simp [hci, NoHole])
        · exact absurd (hres i) (by simp [hci, Resolved])
      · rw [fromRlpSlice_encodeRef] at hij
        obtain ⟨P, hP, hv⟩ := ih i hij (hres i) (hn i) heldRef_ref
        refine ⟨P, .inr ⟨j, hj, fun he => ?_, hP⟩, hv⟩
        rw [h0 i (hv.null_iff.mp he)] at hij
        exact hij
    choose P hP hv using hchild
    have hv' := View.ofBranch hv
    rw [← hv'.ref_eq] at hc
    exact ⟨branch P, ⟨_, ids, hc, .inr rfl, hP⟩, hv'⟩

/-! ## Roots -/

/-- What is relied on of the encoding library. -/
structure Faithful (E : Env) : Prop where
  inverse : Inverse E.decodeHeader
  consuming : PrefixConsuming E.decodeHeader
  emptyRoot : E.emptyRootHash = E.keccak256 [emptyStringCode]

theorem Faithful.null (hE : Faithful E) (rest : Bytes) :
    E.decodeHeader (emptyStringCode :: rest) = .ok (⟨false, 0⟩, rest) :=
  hE.inverse.string [] rest (by simp)

/-- The tree under another reference that its root matches. -/
theorem Checked.rebase {D : Decoded} {r r' : NodeRef} (h : Checked E D r)
    (hd : ∀ raw d, D ≠ .digest raw d) (hm : Matches E D.raw r') : Checked E D r' := by
  cases D with
  | absent => exact h
  | digest raw d => exact absurd rfl (hd raw d)
  | null raw => exact ⟨h.1, hm⟩
  | leaf raw path value => exact ⟨h.1, hm⟩
  | ext raw path slot c => exact ⟨h.1, hm, h.2.2⟩
  | branch raw slots c => exact ⟨h.1, hm, h.2.2⟩

/-- The reference that is cached for a list node at the root. -/
theorem heldRef_root {t : Trie} (hl : isList t) {r : NodeRef} (hm : Matches E (rlp E t) r)
    (hr : (∃ b, r = .bytes b ∧ b.length < 32) ∨ ∃ d, r = .digest d) :
    heldRef (rlp E t) r = ref E t := by
  rw [Matches] at hm
  rw [heldRef, ref_of_isList hl]
  by_cases hlen : (rlp E t).length < 32
  · rw [if_pos hlen, if_pos hlen]
  · rw [if_neg hlen] at hm
    rw [if_neg hlen, if_neg hlen]
    rcases hr with ⟨b, rfl, hb⟩ | ⟨d, rfl⟩
    · have := congrArg List.length hm
      simp only [NodeRef.asSlice, B256.length_bytes] at this
      omega
    · exact congrArg NodeRef.digest hm.symm

/-- The encodings of the nodes that are hashed on the way to the root hash. -/
def nodes (E : Env) (t : Trie) : Set Bytes := {b | isList t ∧ b = rlp E t} ∪ addressed E t

section Roots

variable {H : Set Bytes} (hE : Faithful E) (hinj : Set.InjOn E.keccak256 H)
  (h0 : [emptyStringCode] ∈ H)

include hE hinj h0 in
/-- A tree with the root hash of a trie is a digest, or shows part of the trie. -/
theorem shows_of_rootHash {D : Decoded} {r : NodeRef} {t : Trie} (hchk : Checked E D r)
    (hhash : D.rootHash E = some (Trie.hash E t)) (hs : Small E t)
    (hD : ∀ b ∈ D.hashed, b ∈ H) (ht : nodes E t ⊆ H) :
    (∃ raw, D = .digest raw (Trie.hash E t).bytes) ∨
      (Shows E D t ∧ ((∀ raw, D ≠ .null raw) → isList t → Matches E (rlp E t) r)) := by
  by_cases hd : ∃ raw d, D = .digest raw d
  · obtain ⟨raw, d, rfl⟩ := hd
    refine .inl ⟨raw, ?_⟩
    simp only [Decoded.rootHash, B256.fromSlice, dif_pos hchk.2.1, Option.some.injEq] at hhash
    rw [← hhash]
  · replace hd : ∀ raw d, D ≠ .digest raw d := fun raw d he => hd ⟨raw, d, he⟩
    refine .inr ?_
    rcases hchk.null_or_says hd with ⟨raw, rfl⟩ | ⟨⟨body, hsaid⟩, hroot, hall⟩
    · refine ⟨?_, fun h => absurd rfl (h raw)⟩
      have hempty : Trie.hash E t = E.emptyRootHash := (Option.some.inj hhash).symm
      rcases node_cases t with rfl | rfl | ⟨d, rfl⟩ | hl
      · exact .ofNull (.inl rfl)
      · exact .ofNull (.inr rfl)
      · exact .behind
      · exact absurd hempty (hash_ne_emptyRoot hinj hE.emptyRoot h0 hl (ht (.inl ⟨hl, rfl⟩)))
    · rw [hall] at hD
      have hmem : D.raw ∈ H := hD _ (List.mem_cons_self ..)
      have hkeccak : E.keccak256 D.raw = Trie.hash E t := Option.some.inj (hroot.symm.trans hhash)
      have hne : Trie.hash E t ≠ E.emptyRootHash := by
        rw [← hkeccak]
        refine hsaid.ne_emptyRoot hE.null hE.emptyRoot (List.mem_singleton_self D.raw) ?_
        refine noCollision_of_injOn hinj fun b hb => ?_
        simp only [List.cons_append, List.nil_append, List.mem_cons, List.not_mem_nil,
          or_false] at hb
        rcases hb with rfl | rfl
        · exact hmem
        · exact h0
      rcases node_cases t with rfl | rfl | ⟨d, rfl⟩ | hl
      · exact absurd rfl hne
      · exact absurd rfl hne
      · exact ⟨.behind, fun _ h => h.elim⟩
      · rw [hash_of_isList hl] at hkeccak
        have hraw : D.raw = rlp E t := hinj hmem (ht (.inl ⟨hl, rfl⟩)) hkeccak
        refine ⟨?_, fun _ _ => hraw ▸ hchk.matches hd⟩
        refine shows_of_checked hinj hE.inverse (hchk.rebase hd ?_) hs
          (fun b hb => hD b (List.mem_cons_of_mem _ hb)) fun b hb => ht (.inr hb)
        rw [hraw]
        exact matches_ref hl

include hE hinj h0 in
/-- An accepted input with the root hash of a trie. -/
theorem decodeTrie_shows {bytes rest : Bytes} {numNodes : Nat} {m : Mpt} {t : Trie}
    (h : decodeTrie E bytes numNodes = .ok (m, rest))
    (hhash : (hash E m).1 = .ok (Trie.hash E t)) (hs : Small E t)
    (hD : ∀ b ∈ hashedNodes E bytes, b ∈ H) (ht : nodes E t ⊆ H) :
    ∃ D r, Laid m D r m.rootId 1 m.size ∧ 0 < m.size ∧
      ((∃ raw, D = .digest raw (Trie.hash E t).bytes) ∨
        (Shows E D t ∧ (isList t → (∃ raw, D = .null raw) ∨ heldRef (rlp E t) r = ref E t))) := by
  obtain ⟨D, rest', r, hparse, hchk, hl, hm, hr⟩ := decodeTrie_ok hE.consuming hE.null h
  obtain ⟨root, hroot, hDroot⟩ := hash_of_laid hchk hl hr
  have hrt : root = Trie.hash E t := by simpa [hroot] using hhash
  rw [hrt] at hDroot
  have hnodes : hashedNodes E bytes = D.hashed := by rw [hashedNodes, hparse]
  rw [hnodes] at hD
  refine ⟨D, r, hl, hm, ?_⟩
  rcases shows_of_rootHash hE hinj h0 hchk hDroot hs hD ht with hd | ⟨hshows, hmatch⟩
  · exact .inl hd
  · refine .inr ⟨hshows, fun hlist => ?_⟩
    by_cases hn : ∃ raw, D = .null raw
    · exact .inl hn
    · exact .inr (heldRef_root hlist (hmatch (fun raw he => hn ⟨raw, he⟩) hlist) hr)

include hE hinj h0 in
/-- Where both answer, an accepted input with the root hash of a trie answers like the trie. -/
theorem decodeTrie_get_eq {bytes rest : Bytes} {numNodes : Nat} {m : Mpt} {t : Trie}
    (h : decodeTrie E bytes numNodes = .ok (m, rest))
    (hhash : (hash E m).1 = .ok (Trie.hash E t)) (hs : Small E t)
    (hD : ∀ b ∈ hashedNodes E bytes, b ∈ H) (ht : nodes E t ⊆ H) {key : List Nibble}
    {o o' : Option Bytes} (hg : (getNibbles (key.map Nibble.toByte) m).1 = .ok o)
    (hg' : t.get key = .ok o') : o = o' := by
  obtain ⟨D, r, hl, hm, hD | ⟨hshows, _⟩⟩ := decodeTrie_shows hE hinj h0 h hhash hs hD ht
  · rw [getNibbles_laid hl hm] at hg
    obtain ⟨raw, he⟩ := hD
    exact absurd he (ne_digest_of_get hg raw _)
  · rw [getNibbles_laid hl hm] at hg
    exact hshows.get_eq hg hg'

/-- What a decoded arena stands for: a partial view of the trie, or only its root hash. -/
def Stands (E : Env) (P t : Trie) : Prop := View E P t ∨ P = digest (Trie.hash E t)

theorem Stands.hash_eq {P t : Trie} (h : Stands E P t) : Trie.hash E P = Trie.hash E t := by
  rcases h with h | rfl
  · exact h.hash_eq
  · rfl

include hE hinj h0 in
/-- An accepted input with the root hash of a complete trie stands for that trie. -/
theorem decodeTrie_stands {bytes rest : Bytes} {numNodes : Nat} {m : Mpt} {t : Trie}
    (h : decodeTrie E bytes numNodes = .ok (m, rest))
    (hhash : (hash E m).1 = .ok (Trie.hash E t)) (hs : Small E t) (hn : t.Normal)
    (hres : t.Resolved) (hD : ∀ b ∈ hashedNodes E bytes, b ∈ H) (ht : nodes E t ⊆ H) :
    ∃ P, Represents E m P ∧ Stands E P t := by
  obtain ⟨D, r, hl, hm, hD | ⟨hshows, hheld⟩⟩ := decodeTrie_shows hE hinj h0 h hhash hs hD ht
  · obtain ⟨raw, rfl⟩ := hD
    have hreads : Reads E m (digest (Trie.hash E t)) m.rootId := ⟨_, hl.2, .inr rfl⟩
    exact ⟨_, represents_of_laid hl hreads trivial, .inr rfl⟩
  · by_cases hnull : t = null
    · subst hnull
      cases hshows with
      | ofNull _ => exact ⟨null, ⟨Finset.mem_range.mpr (lt_size hl), none, hl, .inl rfl⟩, .inl .ofNull⟩
      | unseen h => simp at h
      | ofAbsent _ => exact hl.elim
    · have hlist := isList_of_normal hn hres hnull
      have hne : ¬ ∃ raw, D = .null raw := by
        rintro ⟨raw, rfl⟩
        cases hshows with
        | behind => exact hlist
        | ofNull h => rcases h with rfl | rfl <;> exact hlist
      obtain ⟨P, hP, hv⟩ := hshows.exists_view hl hres (Normal.noHole hn)
        fun hlist => (hheld hlist).resolve_left hne
      exact ⟨P, represents_of_laid hl hP (View.solid hv hn hnull), .inl hv⟩

end Roots

end Mpt
end CenoReth
