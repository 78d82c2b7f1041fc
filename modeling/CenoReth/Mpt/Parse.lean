/-
What the decoder accepts.

`Decoded` is the syntax tree of an input: every node with the bytes it was read
from, and with the slices in which it refers to its children.  `parseNode` reads
such a tree and checks nothing.  A run of `decode_trie_internal` that succeeds
read the tree that `parseNode` reads; the checks it made are `Checked`, and what
it appended to the arena is `Laid`.  The input is arbitrary: paths need not be
well formed, items need not be encoded canonically, and padding is not looked at.
-/
import CenoReth.Mpt.Codec

namespace CenoReth
namespace Mpt

open Rlp

variable (E : Env)

/-! ## Syntax trees -/

/-- A parsed node.  `raw` is the encoding of the node itself. -/
inductive Decoded where
  | absent
  | null (raw : Bytes)
  | digest (raw digest : Bytes)
  | leaf (raw path value : Bytes)
  | ext (raw path slot : Bytes) (child : Decoded)
  | branch (raw : Bytes) (slots : Nibble → Bytes) (children : Nibble → Decoded)

/-- What the payload of a list node says. -/
inductive Body where
  | leaf (path value : Bytes)
  | ext (path slot : Bytes)
  | branch (slots : Nibble → Bytes)

/-- The next `n` items. -/
def takeSlots : Nat → Bytes → Except Halt (List Bytes × Bytes)
  | 0, payload => .ok ([], payload)
  | n + 1, payload => do
    let item ← takeItem E payload
    let (slots, payload) ← takeSlots n item.rest
    .ok (item.raw :: slots, payload)

/-- The slots of a branch, as they are found in the payload. -/
def slotsOf (slots : List Bytes) : Nibble → Bytes := fun i => slots[i.val]?.getD []

def bodyOf (payload : Bytes) : Except Halt Body := do
  let item0 ← takeItem E payload
  let item1 ← takeItem E item0.rest
  if item1.rest = [] then
    match item0.payload.head? with
    | none => .error .panic
    | some pre =>
      if pre &&& Hp.hpFlagLeaf = 0 then .ok (.ext item0.payload item1.raw)
      else .ok (.leaf item0.payload item1.payload)
  else do
    let (slots, payload) ← takeSlots E 14 item1.rest
    if payload = nullNodeRefSlice then .ok (.branch (slotsOf (item0.raw :: item1.raw :: slots)))
    else .error (.err .valueInBranch)

/-- A slot that refers to nothing. -/
def isEmptySlot (slot : Bytes) : Bool := (fromRlpSlice slot).asSlice = nullNodeRefSlice

/-- The children of a branch, from left to right. -/
def parseRow (parse : Bytes → Except Halt (Decoded × Bytes)) :
    List Bytes → Bytes → Except Halt (List Decoded × Bytes)
  | [], bytes => .ok ([], bytes)
  | slot :: slots, bytes =>
    if isEmptySlot slot then do
      let (children, bytes) ← parseRow parse slots bytes
      .ok (.absent :: children, bytes)
    else do
      let (child, bytes) ← parse bytes
      let (children, bytes) ← parseRow parse slots bytes
      .ok (child :: children, bytes)

def childrenOf (children : List Decoded) : Nibble → Decoded :=
  fun i => children[i.val]?.getD .absent

/-- Read one node and everything below it. -/
def parseNode : Nat → Bytes → Except Halt (Decoded × Bytes)
  | 0, _ => .error .stackOverflow
  | fuel + 1, bytes => do
    let node ← takeItem E bytes
    let bytes ← takePadding node.raw.length node.rest
    if node.list = false then
      if node.payload.length = 0 then .ok (.null node.raw, bytes)
      else if node.payload.length = 32 then .ok (.digest node.raw node.payload, bytes)
      else .error (.err (.rlpError .unexpectedLength))
    else do
      match ← bodyOf E node.payload with
      | .leaf path value => .ok (.leaf node.raw path value, bytes)
      | .ext path slot =>
        let (child, bytes) ← parseNode fuel bytes
        .ok (.ext node.raw path slot child, bytes)
      | .branch slots =>
        let (children, bytes) ← parseRow (parseNode fuel) ((List.finRange 16).map slots) bytes
        .ok (.branch node.raw slots (childrenOf children), bytes)

/-! ## Checks -/

/-- The encoding of a node matches a reference. -/
def Matches (raw : Bytes) (r : NodeRef) : Prop :=
  if raw.length < 32 then raw = r.asSlice else (E.keccak256 raw).bytes = r.asSlice

/-- The encoding of a list node, and what it says. -/
def Says (raw : Bytes) (body : Body) : Prop :=
  ∃ payload, takeItem E raw = .ok ⟨true, payload, raw, []⟩ ∧ bodyOf E payload = .ok body

/-- Every node was found in the encoding of its parent, and matches its reference there. -/
def Checked : Decoded → NodeRef → Prop
  | .absent, _ => False
  | .null raw, r => takeItem E raw = .ok ⟨false, [], raw, []⟩ ∧ Matches E raw r
  | .digest raw d, r => takeItem E raw = .ok ⟨false, d, raw, []⟩ ∧ d.length = 32 ∧ d = r.asSlice
  | .leaf raw path value, r => Says E raw (.leaf path value) ∧ Matches E raw r
  | .ext raw path slot c, r =>
    Says E raw (.ext path slot) ∧ Matches E raw r ∧ Checked c (fromRlpSlice slot)
  | .branch raw slots c, r => Says E raw (.branch slots) ∧ Matches E raw r ∧
    ∀ i, (isEmptySlot (slots i) = true ∧ c i = .absent) ∨
      (isEmptySlot (slots i) = false ∧ Checked (c i) (fromRlpSlice (slots i)))

/-! ## Arenas -/

/-- The reference that is cached for a node. -/
def heldRef (raw : Bytes) (r : NodeRef) : NodeRef := if raw.length < 32 then .bytes raw else r

/-- An index of the part of the arena between `lo` and `hi`. -/
def Within (lo hi id : Nat) : Prop := lo ≤ id ∧ id < hi

/-- The tree is in the arena, at indices between `lo` and `hi`: children come before
their parent, and in their order.  Null nodes are all the same node. -/
def Laid (m : Mpt) : Decoded → NodeRef → NodeId → Nat → Nat → Prop
  | .absent, _, _, _, _ => False
  | .null _, _, id, _, _ => m.cells[id]? = some ⟨.null, none⟩
  | .digest _ d, _, id, lo, hi => Within lo hi id ∧
    m.cells[id]? = some ⟨.digest d, some (.digest d)⟩
  | .leaf raw path value, r, id, lo, hi => Within lo hi id ∧
    m.cells[id]? = some ⟨.leaf path value, some (heldRef raw r)⟩
  | .ext raw path slot c, r, id, lo, hi => Within lo hi id ∧
    ∃ j, m.cells[id]? = some ⟨.extension path j, some (heldRef raw r)⟩ ∧
      Laid m c (fromRlpSlice slot) j lo id
  | .branch raw slots c, r, id, lo, hi => Within lo hi id ∧
    ∃ ids, m.cells[id]? = some ⟨.branch ids, some (heldRef raw r)⟩ ∧
      ∃ b : Nat → Nat, Monotone b ∧ lo ≤ b 0 ∧ b 16 ≤ id ∧
        ∀ i, (ids i = none ∧ c i = .absent) ∨
          ∃ j, ids i = some j ∧ Laid m (c i) (fromRlpSlice (slots i)) j (b i) (b (i + 1))

variable {E}

theorem Laid.extends {m m' : Mpt} (he : Extends m m') {D : Decoded} : ∀ {r : NodeRef} {id : NodeId}
    {lo hi : Nat}, Laid m D r id lo hi → Laid m' D r id lo hi := by
  induction D with
  | absent => exact fun h => h
  | null raw => exact fun h => he.cell h
  | digest raw d => exact fun h => ⟨h.1, he.cell h.2⟩
  | leaf raw path value => exact fun h => ⟨h.1, he.cell h.2⟩
  | ext raw path slot c ih =>
    rintro r id lo hi ⟨hid, j, hc, hl⟩
    exact ⟨hid, j, he.cell hc, ih hl⟩
  | branch raw slots c ih =>
    rintro r id lo hi ⟨hid, ids, hc, b, hb, hlo, hhi, hl⟩
    refine ⟨hid, ids, he.cell hc, b, hb, hlo, hhi, fun i => ?_⟩
    rcases hl i with hnone | ⟨j, hj, hij⟩
    · exact .inl hnone
    · exact .inr ⟨j, hj, ih i hij⟩

/-! ## Items -/

/-- An item that was read is read again from its own bytes. -/
theorem takeItem_ok (hp : PrefixConsuming E.decodeHeader) {buf : Bytes} {t : Taken}
    (h : takeItem E buf = .ok t) :
    buf = t.raw ++ t.rest ∧ takeItem E t.raw = .ok ⟨t.list, t.payload, t.raw, []⟩ ∧
      t.payload.length ≤ t.raw.length := by
  unfold takeItem at h
  rcases hd : E.decodeHeader buf with _ | ⟨⟨list, len⟩, rest⟩
  · simp [hd] at h
  · obtain ⟨hle, head, rfl, hagain⟩ := hp buf _ _ hd
    simp only [hd, if_pos hle, Except.ok.injEq] at h
    replace hle : len ≤ rest.length := hle
    have hsplit : head ++ rest = (head ++ rest.take len) ++ rest.drop len := by
      rw [List.append_assoc, List.take_append_drop]
    have hraw : (head ++ rest).take ((head ++ rest).length - (rest.drop len).length) =
        head ++ rest.take len := by
      rw [hsplit, List.length_append, Nat.add_sub_cancel, List.take_left]
    rw [hraw] at h
    subst h
    refine ⟨hsplit, ?_, by simp only [List.length_append]; omega⟩
    have hagain := hagain []
    have hlen : (rest.take len).length = len := by rw [List.length_take]; omega
    have hitem := takeItem_of_decode (E := E)
      (rfl : head ++ rest.take len ++ [] = _) (by rw [hlen]; simpa using hagain)
    simpa using hitem

/-- The check of a node, read off its success. -/
theorem checkRef_ok {node : Taken} {expected nodeRef : NodeRef}
    (h : checkRef E node expected = .ok nodeRef) :
    (node.list = false ∧ node.payload.length = 32 ∧ 32 ≤ node.raw.length ∧
        node.payload = expected.asSlice) ∨
      ((node.list = true ∨ node.payload.length ≠ 32 ∨ node.raw.length < 32) ∧
        Matches E node.raw expected ∧ nodeRef = heldRef node.raw expected) := by
  unfold checkRef at h
  by_cases hlen : node.raw.length < 32
  · simp only [if_pos hlen] at h
    by_cases heq : node.raw = expected.asSlice
    · rw [if_pos heq, Except.ok.injEq] at h
      exact .inr ⟨.inr (.inr hlen), by rw [Matches, if_pos hlen]; exact heq,
        by rw [heldRef, if_pos hlen, h]⟩
    · simp [heq] at h
  · simp only [if_neg hlen] at h
    by_cases hdig : node.payload.length = 32 ∧ node.list = false
    · rw [if_pos hdig] at h
      by_cases heq : node.payload = expected.asSlice
      · exact .inl ⟨hdig.2, hdig.1, by omega, heq⟩
      · simp [heq] at h
    · rw [if_neg hdig] at h
      by_cases heq : (E.keccak256 node.raw).bytes = expected.asSlice
      · rw [if_pos heq, Except.ok.injEq] at h
        refine .inr ⟨?_, by rw [Matches, if_neg hlen]; exact heq, by rw [heldRef, if_neg hlen, h]⟩
        by_cases hlist : node.list = true
        · exact .inl hlist
        · exact .inr (.inl fun hpay => hdig ⟨hpay, by simpa using hlist⟩)
      · simp [heq] at h

/-! ## Decoding succeeds -/

/-- A slot of a branch after it was decoded. -/
def SlotLaid (E : Env) (m : Mpt) (slot : Bytes) (D : Decoded) (o : Option NodeId) (lo hi : Nat) :
    Prop :=
  (isEmptySlot slot = true ∧ D = .absent ∧ o = none) ∨
    (isEmptySlot slot = false ∧ Checked E D (fromRlpSlice slot) ∧
      ∃ j, o = some j ∧ Laid m D (fromRlpSlice slot) j lo hi)

theorem SlotLaid.extends {m m' : Mpt} {slot : Bytes} {D : Decoded} {o : Option NodeId}
    {lo hi : Nat} (h : SlotLaid E m slot D o lo hi) (he : Extends m m') :
    SlotLaid E m' slot D o lo hi := by
  rcases h with hnone | ⟨hs, hc, j, hj, hl⟩
  · exact .inl hnone
  · exact .inr ⟨hs, hc, j, hj, hl.extends he⟩

/-- Consecutive slots, with consecutive parts of the arena. -/
inductive Row (E : Env) (m : Mpt) :
    Nat → List Bytes → List Decoded → List (Option NodeId) → Nat → Prop
  | nil (lo : Nat) : Row E m lo [] [] [] lo
  | cons {lo mid hi : Nat} {slot : Bytes} {D : Decoded} {o : Option NodeId} {slots : List Bytes}
    {Ds : List Decoded} {os : List (Option NodeId)} (h : SlotLaid E m slot D o lo mid)
    (hle : lo ≤ mid) (hrow : Row E m mid slots Ds os hi) :
    Row E m lo (slot :: slots) (D :: Ds) (o :: os) hi

theorem Row.bounds {m : Mpt} {lo hi : Nat} {slots : List Bytes} {Ds : List Decoded}
    {os : List (Option NodeId)} (h : Row E m lo slots Ds os hi) :
    ∃ b : Nat → Nat, Monotone b ∧ b 0 = lo ∧ b slots.length = hi ∧ ∀ k, k < slots.length →
      SlotLaid E m (slots[k]?.getD []) (Ds[k]?.getD .absent) os[k]?.join (b k) (b (k + 1)) := by
  induction h with
  | nil lo => exact ⟨fun _ => lo, monotone_const, rfl, rfl, by simp⟩
  | @cons lo mid hi slot D o slots Ds os hs hle _ ih =>
    obtain ⟨b, hb, hb0, hbn, hk⟩ := ih
    refine ⟨fun k => k.casesOn lo b, monotone_nat_of_le_succ fun k => ?_, rfl, hbn, fun k hlt => ?_⟩
    · cases k with
      | zero =>
        show lo ≤ b 0
        omega
      | succ k => exact hb (Nat.le_succ k)
    · cases k with
      | zero =>
        rw [← hb0] at hs
        simpa using hs
      | succ k =>
        simp only [List.length_cons, Nat.add_lt_add_iff_right] at hlt
        simpa using hk k hlt

/-- A successful run of `decode` read the tree that `parse` reads. -/
def Sound (E : Env) (decode : Bytes → NodeRef → TrieM (NodeId × Bytes))
    (parse : Bytes → Except Halt (Decoded × Bytes)) : Prop :=
  ∀ bytes expected m id rest m', Based m → decode bytes expected m = (.ok (id, rest), m') →
    ∃ D, parse bytes = .ok (D, rest) ∧ Checked E D expected ∧
      Laid m' D expected id m.size m'.size ∧ Extends m m'

section Sound

variable {decode : Bytes → NodeRef → TrieM (NodeId × Bytes)}
  {parse : Bytes → Except Halt (Decoded × Bytes)}

/-- One slot. -/
theorem decodeSlot_ok (hs : Sound E decode parse) {slot bytes rest : Bytes} {o : Option NodeId}
    {m m' : Mpt} (hb : Based m) (h : decodeSlot decode slot bytes m = (.ok (o, rest), m')) :
    ∃ D, (∀ slots, parseRow parse (slot :: slots) bytes = (do
        let (children, bytes) ← parseRow parse slots rest
        .ok (D :: children, bytes))) ∧
      SlotLaid E m' slot D o m.size m'.size ∧ Extends m m' := by
  unfold decodeSlot at h
  by_cases hnull : (fromRlpSlice slot).asSlice = nullNodeRefSlice
  · simp only [if_pos hnull, Exec.pure_apply, Prod.mk.injEq, Except.ok.injEq] at h
    obtain ⟨⟨rfl, rfl⟩, rfl⟩ := h
    refine ⟨.absent, fun slots => ?_, .inl ⟨by simpa [isEmptySlot] using hnull, rfl, rfl⟩,
      List.prefix_rfl⟩
    rw [parseRow, if_pos (by simpa [isEmptySlot] using hnull)]
  · simp only [if_neg hnull] at h
    obtain ⟨⟨id, bytes'⟩, m₁, h₁, h₂⟩ := Exec.of_bind_ok h
    simp only [Exec.pure_apply, Prod.mk.injEq, Except.ok.injEq] at h₂
    obtain ⟨⟨rfl, rfl⟩, rfl⟩ := h₂
    obtain ⟨D, hparse, hchk, hl, he⟩ := hs _ _ _ _ _ _ hb h₁
    have hslot : isEmptySlot slot = false := by simpa [isEmptySlot] using hnull
    refine ⟨D, fun slots => ?_, .inr ⟨hslot, hchk, id, rfl, hl⟩, he⟩
    rw [parseRow, if_neg (by simp [hslot]), hparse]
    rfl

theorem decodeChildren_ok (hs : Sound E decode parse) : ∀ (n : Nat) (payload bytes : Bytes)
    {os : List (Option NodeId)} {payload' bytes' : Bytes} {m m' : Mpt}, Based m →
    decodeChildren E decode n payload bytes m = (.ok (os, payload', bytes'), m') →
    ∃ slots Ds, takeSlots E n payload = .ok (slots, payload') ∧ slots.length = n ∧
      parseRow parse slots bytes = .ok (Ds, bytes') ∧ Row E m' m.size slots Ds os m'.size ∧
      Extends m m'
  | 0, payload, bytes, os, payload', bytes', m, m', _, h => by
    simp only [decodeChildren, Exec.pure_apply, Prod.mk.injEq, Except.ok.injEq] at h
    obtain ⟨⟨rfl, rfl, rfl⟩, rfl⟩ := h
    exact ⟨[], [], rfl, rfl, rfl, .nil _, List.prefix_rfl⟩
  | n + 1, payload, bytes, os, payload', bytes', m, m', hb, h => by
    obtain ⟨item, m₀, h₀, h⟩ := Exec.of_bind_ok h
    obtain ⟨hitem, rfl⟩ : takeItem E payload = .ok item ∧ m = m₀ := by simpa using h₀
    obtain ⟨⟨o, bytes₁⟩, m₁, h₁, h⟩ := Exec.of_bind_ok h
    obtain ⟨⟨os', payload₂, bytes₂⟩, m₂, h₂, h⟩ := Exec.of_bind_ok h
    simp only [Exec.pure_apply, Prod.mk.injEq, Except.ok.injEq] at h
    obtain ⟨⟨rfl, rfl, rfl⟩, rfl⟩ := h
    obtain ⟨D, hD, hslot, he₁⟩ := decodeSlot_ok hs hb h₁
    obtain ⟨slots, Ds, hslots, hlen, hrow, hR, he₂⟩ := decodeChildren_ok hs n item.rest bytes₁
      (hb.extends he₁) h₂
    refine ⟨item.raw :: slots, D :: Ds, ?_, by simp [hlen], ?_,
      .cons (hslot.extends he₂) he₁.size_le hR, he₁.trans he₂⟩
    · rw [takeSlots, hitem]
      show (takeSlots E n item.rest >>= _) = _
      rw [hslots]
      rfl
    · rw [hD, hrow]
      rfl

theorem map_slotsOf {l : List Bytes} (h : l.length = 16) :
    (List.finRange 16).map (slotsOf l) = l := by
  refine List.ext_getElem (by simp [h]) fun k h₁ h₂ => ?_
  simp [slotsOf, h₂]

/-- What a successful run says about the payload, and about the children. -/
def BodyLaid (E : Env) (parse : Bytes → Except Halt (Decoded × Bytes)) (bytes : Bytes)
    (nodeRef : NodeRef) (m : Mpt) (id : NodeId) (rest : Bytes) (m' : Mpt) : Body → Prop
  | .leaf path value => id = m.size ∧ rest = bytes ∧ m' = m.push ⟨.leaf path value, some nodeRef⟩
  | .ext path slot => ∃ j m₁ D, parse bytes = .ok (D, rest) ∧ Checked E D (fromRlpSlice slot) ∧
    Laid m₁ D (fromRlpSlice slot) j m.size m₁.size ∧ Extends m m₁ ∧ id = m₁.size ∧
    m' = m₁.push ⟨.extension path j, some nodeRef⟩
  | .branch slots => ∃ Ds os m₁,
    parseRow parse ((List.finRange 16).map slots) bytes = .ok (Ds, rest) ∧
    Row E m₁ m.size ((List.finRange 16).map slots) Ds os m₁.size ∧ Extends m m₁ ∧ id = m₁.size ∧
    m' = m₁.push ⟨.branch fun i => os[i.val]?.join, some nodeRef⟩

theorem decodeList_ok (hs : Sound E decode parse) {payload bytes rest : Bytes} {nodeRef : NodeRef}
    {id : NodeId} {m m' : Mpt} (hb : Based m)
    (h : decodeList E decode payload bytes nodeRef m = (.ok (id, rest), m')) :
    ∃ body, bodyOf E payload = .ok body ∧ BodyLaid E parse bytes nodeRef m id rest m' body := by
  obtain ⟨item0, m₀, h₀, h⟩ := Exec.of_bind_ok h
  obtain ⟨hitem0, rfl⟩ : takeItem E payload = .ok item0 ∧ m = m₀ := by simpa using h₀
  obtain ⟨item1, m₁, h₁, h⟩ := Exec.of_bind_ok h
  obtain ⟨hitem1, rfl⟩ : takeItem E item0.rest = .ok item1 ∧ m = m₁ := by simpa using h₁
  have hbody : bodyOf E payload = (if item1.rest = [] then
      match item0.payload.head? with
      | none => .error .panic
      | some pre =>
        if pre &&& Hp.hpFlagLeaf = 0 then .ok (.ext item0.payload item1.raw)
        else .ok (.leaf item0.payload item1.payload)
    else do
      let (slots, payload) ← takeSlots E 14 item1.rest
      if payload = nullNodeRefSlice then .ok (.branch (slotsOf (item0.raw :: item1.raw :: slots)))
      else .error (.err .valueInBranch)) := by
    rw [bodyOf, hitem0]
    show (takeItem E item0.rest >>= _) = _
    rw [hitem1]
    rfl
  rw [hbody]
  by_cases hpair : item1.rest = []
  · simp only [if_pos hpair] at h ⊢
    obtain ⟨pre, m₂, h₂, h⟩ := Exec.of_bind_ok h
    cases hhead : item0.payload.head? with
    | none => simp [orPanic, hhead] at h₂
    | some pre' =>
      obtain ⟨rfl, rfl⟩ : pre' = pre ∧ m = m₂ := by simpa [orPanic, hhead] using h₂
      by_cases hext : pre' &&& Hp.hpFlagLeaf = 0
      · simp only [if_pos hext] at h ⊢
        obtain ⟨⟨j, bytes₁⟩, m₃, h₃, h⟩ := Exec.of_bind_ok h
        obtain ⟨D, hparse, hchk, hl, he⟩ := hs _ _ _ _ _ _ hb h₃
        obtain ⟨id', m₄, h₄, h⟩ := Exec.of_bind_ok h
        simp only [addNode_ok, Prod.mk.injEq, Except.ok.injEq] at h₄
        obtain ⟨rfl, rfl⟩ := h₄
        simp only [Exec.pure_apply, Prod.mk.injEq, Except.ok.injEq] at h
        obtain ⟨⟨rfl, rfl⟩, rfl⟩ := h
        exact ⟨_, rfl, j, m₃, D, hparse, hchk, hl, he, rfl, rfl⟩
      · simp only [if_neg hext] at h ⊢
        obtain ⟨id', m₄, h₄, h⟩ := Exec.of_bind_ok h
        simp only [addNode_ok, Prod.mk.injEq, Except.ok.injEq] at h₄
        obtain ⟨rfl, rfl⟩ := h₄
        simp only [Exec.pure_apply, Prod.mk.injEq, Except.ok.injEq] at h
        obtain ⟨⟨rfl, rfl⟩, rfl⟩ := h
        exact ⟨_, rfl, rfl, rfl, rfl⟩
  · simp only [if_neg hpair] at h ⊢
    obtain ⟨⟨o₀, bytes₀⟩, m₂, h₂, h⟩ := Exec.of_bind_ok h
    obtain ⟨⟨o₁, bytes₁⟩, m₃, h₃, h⟩ := Exec.of_bind_ok h
    obtain ⟨⟨os, payload', bytes₂⟩, m₄, h₄, h⟩ := Exec.of_bind_ok h
    obtain ⟨D₀, hD₀, hl₀, he₀⟩ := decodeSlot_ok hs hb h₂
    obtain ⟨D₁, hD₁, hl₁, he₁⟩ := decodeSlot_ok hs (hb.extends he₀) h₃
    obtain ⟨slots, Ds, hslots, hlen, hrow, hR, he₂⟩ := decodeChildren_ok hs 14 item1.rest bytes₁
      ((hb.extends he₀).extends he₁) h₄
    by_cases hvalue : payload' = nullNodeRefSlice
    · simp only [if_pos hvalue] at h
      obtain ⟨id', m₅, h₅, h⟩ := Exec.of_bind_ok h
      simp only [addNode_ok, Prod.mk.injEq, Except.ok.injEq] at h₅
      obtain ⟨rfl, rfl⟩ := h₅
      simp only [Exec.pure_apply, Prod.mk.injEq, Except.ok.injEq] at h
      obtain ⟨⟨rfl, rfl⟩, rfl⟩ := h
      have hmap := map_slotsOf (l := item0.raw :: item1.raw :: slots) (by simp [hlen])
      refine ⟨.branch (slotsOf (item0.raw :: item1.raw :: slots)), ?_, D₀ :: D₁ :: Ds,
        o₀ :: o₁ :: os, m₄, ?_, ?_, (he₀.trans he₁).trans he₂, rfl, rfl⟩
      · rw [hslots]
        exact if_pos hvalue
      · rw [hmap, hD₀, hD₁, hrow]
        rfl
      · rw [hmap]
        exact .cons ((hl₀.extends he₁).extends he₂) he₀.size_le
          (.cons (hl₁.extends he₂) he₁.size_le hR)
    · simp [hvalue] at h

end Sound

/-- Every success of the decoder. -/
theorem decodeTrieInternal_ok (hp : PrefixConsuming E.decodeHeader) (fuel : Nat) :
    Sound E (decodeTrieInternal E fuel) (parseNode E fuel) := by
  induction fuel with
  | zero =>
    intro bytes expected m id rest m' _ h
    simp [decodeTrieInternal] at h
  | succ fuel ih =>
    intro bytes expected m id rest m' hb h
    obtain ⟨node, m₀, h₀, h⟩ := Exec.of_bind_ok h
    obtain ⟨hnode, rfl⟩ : takeItem E bytes = .ok node ∧ m = m₀ := by simpa using h₀
    obtain ⟨bytes₁, m₁, h₁, h⟩ := Exec.of_bind_ok h
    obtain ⟨hpad, rfl⟩ : takePadding node.raw.length node.rest = .ok bytes₁ ∧ m = m₁ := by
      simpa using h₁
    obtain ⟨nodeRef, m₂, h₂, h⟩ := Exec.of_bind_ok h
    obtain ⟨href, rfl⟩ : checkRef E node expected = .ok nodeRef ∧ m = m₂ := by simpa using h₂
    obtain ⟨_, hagain, hlen⟩ := takeItem_ok hp hnode
    have hparse : parseNode E (fuel + 1) bytes = (if node.list = false then
        if node.payload.length = 0 then .ok (.null node.raw, bytes₁)
        else if node.payload.length = 32 then .ok (.digest node.raw node.payload, bytes₁)
        else .error (.err (.rlpError .unexpectedLength))
      else do
        match ← bodyOf E node.payload with
        | .leaf path value => .ok (.leaf node.raw path value, bytes₁)
        | .ext path slot =>
          let (child, bytes) ← parseNode E fuel bytes₁
          .ok (.ext node.raw path slot child, bytes)
        | .branch slots =>
          let (children, bytes) ← parseRow (parseNode E fuel) ((List.finRange 16).map slots) bytes₁
          .ok (.branch node.raw slots (childrenOf children), bytes)) := by
      rw [parseNode, hnode]
      show (takePadding node.raw.length node.rest >>= _) = _
      rw [hpad]
      rfl
    rw [hparse]
    have hself : m.size ≤ m.size ∧ m.size < m.size + 1 := by omega
    by_cases hlist : node.list = false
    · -- a string: nothing, or a digest
      simp only [if_pos hlist] at h ⊢
      rw [hlist] at hagain
      by_cases hnull : node.payload.length = 0
      · simp only [if_pos hnull, Exec.pure_apply, Prod.mk.injEq, Except.ok.injEq] at h ⊢
        obtain ⟨⟨rfl, rfl⟩, rfl⟩ := h
        rcases checkRef_ok href with ⟨_, hlen', _⟩ | ⟨_, hmatch, _⟩
        · omega
        · rw [List.length_eq_zero_iff.mp hnull] at hagain
          exact ⟨_, ⟨rfl, rfl⟩, ⟨hagain, hmatch⟩, hb, List.prefix_rfl⟩
      · by_cases hdig : node.payload.length = 32
        · simp only [if_neg hnull, if_pos hdig] at h ⊢
          obtain ⟨id', m₃, h₃, h⟩ := Exec.of_bind_ok h
          simp only [addNode_ok, Prod.mk.injEq, Except.ok.injEq] at h₃
          obtain ⟨rfl, rfl⟩ := h₃
          simp only [Exec.pure_apply, Prod.mk.injEq, Except.ok.injEq] at h
          obtain ⟨⟨rfl, rfl⟩, rfl⟩ := h
          rcases checkRef_ok href with ⟨_, _, _, heq⟩ | ⟨hne | hne | hne, _⟩
          · refine ⟨_, rfl, ⟨hagain, hdig, heq⟩, ⟨?_, cells_push_self _ _⟩, extends_push _ _⟩
            rw [size_push]
            exact hself
          · simp [hlist] at hne
          · exact absurd hdig hne
          · omega
        · simp [hnull, hdig] at h
    · simp only [if_neg hlist] at h ⊢
      have htrue : node.list = true := by simpa using hlist
      rw [htrue] at hagain
      obtain ⟨body, hbody, hlaid⟩ := decodeList_ok ih hb h
      have hsaid : Says E node.raw body := ⟨_, hagain, hbody⟩
      rcases checkRef_ok href with ⟨hne, _⟩ | ⟨_, hmatch, rfl⟩
      · exact absurd hne hlist
      rw [hbody]
      cases body with
      | leaf path value =>
        obtain ⟨rfl, rfl, rfl⟩ := hlaid
        refine ⟨.leaf node.raw path value, rfl, ⟨hsaid, hmatch⟩, ⟨?_, cells_push_self _ _⟩,
          extends_push _ _⟩
        rw [size_push]
        exact hself
      | ext path slot =>
        obtain ⟨j, m₃, D, hD, hchk, hl, he, rfl, rfl⟩ := hlaid
        refine ⟨.ext node.raw path slot D, ?_, ⟨hsaid, hmatch, hchk⟩,
          ⟨⟨he.size_le, by simp⟩, j, cells_push_self _ _, hl.extends (extends_push _ _)⟩,
          he.trans (extends_push _ _)⟩
        show (parseNode E fuel bytes₁ >>= _) = _
        rw [hD]
        rfl
      | branch slots =>
        obtain ⟨Ds, os, m₃, hD, hrow, he, rfl, rfl⟩ := hlaid
        obtain ⟨b, hmono, hb0, hb16, hk⟩ := hrow.bounds
        have hslot : ∀ i : Nibble, SlotLaid E m₃ (slots i) (childrenOf Ds i) os[i.val]?.join
            (b i) (b (i + 1)) := by
          intro i
          have h := hk i.val (by simp)
          simpa [childrenOf] using h
        refine ⟨.branch node.raw slots (childrenOf Ds), ?_, ⟨hsaid, hmatch, fun i => ?_⟩,
          ⟨⟨he.size_le, by simp⟩, _, cells_push_self _ _, b, hmono, hb0.ge, ?_, fun i => ?_⟩,
          he.trans (extends_push _ _)⟩
        · show (parseRow (parseNode E fuel) _ bytes₁ >>= _) = _
          rw [hD]
          rfl
        · rcases hslot i with ⟨hs, hD, _⟩ | ⟨hs, hchk, _⟩
          · exact .inl ⟨hs, hD⟩
          · exact .inr ⟨hs, hchk⟩
        · rw [List.length_map, List.length_finRange] at hb16
          exact hb16.le
        · rcases hslot i with ⟨_, hD, ho⟩ | ⟨_, _, j, hj, hl⟩
          · exact .inl ⟨ho, hD⟩
          · exact .inr ⟨j, hj, hl.extends (extends_push _ _)⟩

end Mpt
end CenoReth
