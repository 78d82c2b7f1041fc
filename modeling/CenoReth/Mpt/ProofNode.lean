/-
Reading a single node (`resolve_internal` of `crates/mpt/src/resolver.rs` and
`decode_from_proof_rlp_internal` of `crates/mpt/src/trie.rs`).

The two functions of the source split the payload of a node into its items and
build the node bottom up.  Children that are inlined are read in place.  They
differ only in what they do with a digest, so `decodeNode` takes that as an
argument, next to the recursive call.
-/
import CenoReth.Mpt.Sealed

namespace CenoReth
namespace Mpt

open Patricia Patricia.Radix Trie Rlp

section Model

variable (E : Env)

/-- `alloy_rlp::PayloadView`. -/
inductive PayloadView where
  | string (payload : Bytes)
  | list (items : List Bytes)
  deriving DecidableEq

/-- The items of a list, each with its header. -/
def splitItems : Nat → Bytes → Except Halt (List Bytes)
  | _, [] => .ok []
  | 0, _ :: _ => .error .stackOverflow
  | n + 1, b :: payload => do
    let item ← takeItem E (b :: payload)
    let items ← splitItems n item.rest
    .ok (item.raw :: items)

/-- `alloy_rlp::Header::decode_raw`.  A list of `n` bytes has at most `n` items. -/
def decodeRaw (buf : Bytes) : Except Halt PayloadView := do
  let item ← takeItem E buf
  if item.list then
    let items ← splitItems E item.payload.length item.payload
    .ok (.list items)
  else .ok (.string item.payload)

/-- `alloy_rlp::Header::decode_bytes(.., false)`. -/
def decodeBytes (buf : Bytes) : Except Halt Bytes := do
  let item ← takeItem E buf
  if item.list then .error (.err (.rlpError .unexpectedList)) else .ok item.payload

/-- The child of a branch.  The null node is no child. -/
def childId (id : NodeId) : Option NodeId := if id = nullNodeId then none else some id

/-- A node from its bytes, given how a child and how a digest are read. -/
def decodeNode (child : Bytes → TrieM NodeId) (digest : Bytes → TrieM NodeId) (bytes : Bytes) :
    TrieM NodeId := do
  match ← Exec.ofExcept (decodeRaw E bytes) with
  | .string item =>
    if item.length = 0 then pure nullNodeId
    else if item.length = 32 then digest item
    else Exec.fail (.err (.rlpError .unexpectedLength))
  | .list items =>
    if items.length = 2 then
      let path ← Exec.ofExcept (decodeBytes E (items[0]?.getD []))
      let pre ← orPanic path.head?
      if pre &&& Hp.hpFlagLeaf = 0 then
        let id ← child (items[1]?.getD [])
        addNode (.extension path id) none
      else
        let value ← Exec.ofExcept (decodeBytes E (items[1]?.getD []))
        addNode (.leaf path value) none
    else if items.length = 17 then
      if items[16]?.getD [] ≠ nullNodeRefSlice then Exec.fail (.err .valueInBranch)
      else
        let ids ← Exec.collect child (items.take 16)
        addNode (.branch fun i => (ids[i.val]?.map childId).join) none
    else Exec.fail (.err (.rlpError .unexpectedLength))

end Model

variable {E : Env}

/-! ## The items of a node -/

theorem splitItems_encode (hinv : Inverse E.decodeHeader) : ∀ (l : List Item),
    (∀ a ∈ l, a.Fits) → ∀ n, (l.map Item.encode).flatten.length ≤ n →
    splitItems E n (l.map Item.encode).flatten = .ok (l.map Item.encode)
  | [], _, n, _ => by cases n <;> rfl
  | a :: l, hfit, n, hn => by
    obtain ⟨x, rest, hx⟩ := List.exists_cons_of_ne_nil a.encode_ne_nil
    have hpos : 0 < a.encode.length := by simp [hx]
    simp only [List.map_cons, List.flatten_cons, List.length_append] at hn ⊢
    cases n with
    | zero => omega
    | succ n =>
      have hrest := splitItems_encode hinv l (fun b hb => hfit b (by simp [hb])) n (by omega)
      have hcons : a.encode ++ (l.map Item.encode).flatten =
          x :: (rest ++ (l.map Item.encode).flatten) := by rw [hx]; rfl
      rw [hcons, splitItems, ← hcons, takeItem_encode hinv (hfit a (by simp))]
      show (splitItems E n (l.map Item.encode).flatten >>= _) = _
      rw [hrest]
      rfl

/-- The parts of a node fit into their headers. -/
theorem items_fit_of_encodable {t : Trie} (h : Encodable E t) : ∀ a ∈ items E t, a.Fits := by
  cases t with
  | leaf p v =>
    have hp : (encodeString (Hp.encode p true) ++ encodeString v).length < 2 ^ 64 := h
    simp only [items, List.mem_cons, List.not_mem_nil, or_false, forall_eq_or_imp, forall_eq]
    exact ⟨length_left_lt hp, length_right_lt hp⟩
  | ext p c =>
    have hp := h.1
    rw [payload_ext] at hp
    simp only [items, List.mem_cons, List.not_mem_nil, or_false, forall_eq_or_imp, forall_eq]
    exact ⟨length_left_lt hp, refItem_fits c⟩
  | branch c =>
    intro a ha
    simp only [items, List.mem_append, List.mem_map, List.mem_singleton] at ha
    rcases ha with ⟨i, _, rfl⟩ | rfl
    · exact refItem_fits (c i)
    · simp [Item.Fits]
  | _ => simp [items]

theorem decodeRaw_rlp (hinv : Inverse E.decodeHeader) {t : Trie} (hl : isList t)
    (h : Encodable E t) : decodeRaw E (rlp E t) = .ok (.list ((items E t).map Item.encode)) := by
  have hitem := takeItem_rlp hinv h []
  rw [List.append_nil] at hitem
  have hlist := nodeItem_isList (E := E).mpr hl
  unfold decodeRaw
  rw [hitem, payload_eq_items hl]
  show (if itemIsList (nodeItem E t) = true then _ else _) = _
  rw [if_pos hlist]
  show (splitItems E _ ((items E t).map Item.encode).flatten >>= _) = _
  rw [splitItems_encode hinv (items E t) (items_fit_of_encodable h) _ (Nat.le_refl _)]
  rfl

theorem decodeRaw_string (hinv : Inverse E.decodeHeader) {b : Bytes} (hb : b.length < 2 ^ 64) :
    decodeRaw E (encodeString b) = .ok (.string b) := by
  have hitem := takeItem_encode hinv (a := .str b) hb []
  rw [List.append_nil] at hitem
  unfold decodeRaw
  rw [show encodeString b = (Item.str b).encode from rfl, hitem]
  rfl

theorem decodeBytes_encode (hinv : Inverse E.decodeHeader) {b : Bytes} (hb : b.length < 2 ^ 64) :
    decodeBytes E (encodeString b) = .ok b := by
  have hitem := takeItem_encode hinv (a := .str b) hb []
  rw [List.append_nil] at hitem
  unfold decodeBytes
  rw [show encodeString b = (Item.str b).encode from rfl, hitem]
  rfl

/-! ## Nodes of a trie -/

section Nodes

variable {child digest : Bytes → TrieM NodeId}

theorem decodeNode_leaf (hinv : Inverse E.decodeHeader) {p : List Nibble} {v : Bytes}
    (h : Encodable E (leaf p v)) (m : Mpt) :
    decodeNode E child digest (rlp E (leaf p v)) m =
      (.ok m.size, m.push ⟨.leaf (Hp.encode p true) v, none⟩) := by
  obtain ⟨first, rest, hfirst, hflag⟩ := Hp.encode_eq_cons p true
  have hfit := items_fit_of_encodable h
  simp only [items, List.mem_cons, List.not_mem_nil, or_false, forall_eq_or_imp, forall_eq] at hfit
  have hraw := decodeRaw_rlp hinv (t := leaf p v) trivial h
  unfold decodeNode
  rw [hraw]
  refine (Exec.bind_ok (Exec.ofExcept_apply _ m)).trans ?_
  have hpath := decodeBytes_encode (E := E) hinv hfit.1
  have hvalue := decodeBytes_encode (E := E) hinv hfit.2
  simp only [items, List.map_cons, List.map_nil, List.length_cons, List.length_nil, Nat.zero_add,
    Nat.reduceAdd, if_true, List.getElem?_cons_zero, List.getElem?_cons_succ, Option.getD_some,
    Item.encode]
  rw [hpath]
  refine (Exec.bind_ok (Exec.ofExcept_apply _ m)).trans ?_
  simp only [hfirst, List.head?_cons, orPanic_some]
  refine (Exec.bind_ok (Exec.pure_apply _ m)).trans ?_
  rw [if_neg (by simp [hflag]), hvalue]
  refine (Exec.bind_ok (Exec.ofExcept_apply _ m)).trans ?_
  rfl

theorem decodeNode_ext (hinv : Inverse E.decodeHeader) {p : List Nibble} {c : Trie}
    (h : Encodable E (ext p c)) {m m' : Mpt} {id : NodeId}
    (hc : child (encodeRef (ref E c)) m = (.ok id, m')) :
    decodeNode E child digest (rlp E (ext p c)) m =
      (.ok m'.size, m'.push ⟨.extension (Hp.encode p false) id, none⟩) := by
  obtain ⟨first, rest, hfirst, hflag⟩ := Hp.encode_eq_cons p false
  have hfit := items_fit_of_encodable h
  simp only [items, List.mem_cons, List.not_mem_nil, or_false, forall_eq_or_imp, forall_eq] at hfit
  have hraw := decodeRaw_rlp hinv (t := ext p c) trivial h
  unfold decodeNode
  rw [hraw]
  refine (Exec.bind_ok (Exec.ofExcept_apply _ m)).trans ?_
  have hpath := decodeBytes_encode (E := E) hinv hfit.1
  simp only [items, List.map_cons, List.map_nil, List.length_cons, List.length_nil, Nat.zero_add,
    Nat.reduceAdd, if_true, List.getElem?_cons_zero, List.getElem?_cons_succ, Option.getD_some,
    ← encodeRef_eq]
  simp only [Item.encode]
  rw [hpath]
  refine (Exec.bind_ok (Exec.ofExcept_apply _ m)).trans ?_
  simp only [hfirst, List.head?_cons, orPanic_some]
  refine (Exec.bind_ok (Exec.pure_apply _ m)).trans ?_
  rw [if_pos (by simp [hflag])]
  exact (Exec.bind_ok hc).trans rfl

theorem decodeNode_branch (hinv : Inverse E.decodeHeader) {c : Nibble → Trie}
    (h : Encodable E (branch c)) {m m' : Mpt} {ids : List NodeId}
    (hc : Exec.collect child ((List.finRange 16).map fun i => encodeRef (ref E (c i))) m =
      (.ok ids, m')) :
    decodeNode E child digest (rlp E (branch c)) m =
      (.ok m'.size, m'.push ⟨.branch fun i => (ids[i.val]?.map childId).join, none⟩) := by
  have hraw := decodeRaw_rlp hinv (t := branch c) trivial h
  have hitems : (items E (branch c)).map Item.encode =
      (List.finRange 16).map (fun i => encodeRef (ref E (c i))) ++ [nullNodeRefSlice] := by
    simp only [items, List.map_append, List.map_map, List.map_cons, List.map_nil, encodeRef_eq]
    rfl
  unfold decodeNode
  rw [hraw, hitems]
  refine (Exec.bind_ok (Exec.ofExcept_apply _ m)).trans ?_
  have hlen : ((List.finRange 16).map fun i => encodeRef (ref E (c i))).length = 16 := by simp
  have hlast : ((List.finRange 16).map (fun i => encodeRef (ref E (c i))) ++
      [nullNodeRefSlice])[16]?.getD [] = nullNodeRefSlice := by
    rw [List.getElem?_append_right (by rw [hlen]), hlen]
    rfl
  have htake : ((List.finRange 16).map (fun i => encodeRef (ref E (c i))) ++
      [nullNodeRefSlice]).take 16 = (List.finRange 16).map fun i => encodeRef (ref E (c i)) := by
    rw [List.take_left' hlen]
  simp only [List.length_append, hlen, List.length_singleton]
  rw [if_neg (by decide), if_pos (by decide), if_neg (fun h => h hlast), htake]
  exact (Exec.bind_ok hc).trans rfl

theorem decodeNode_null (hinv : Inverse E.decodeHeader) (m : Mpt) :
    decodeNode E child digest [emptyStringCode] m = (.ok nullNodeId, m) := by
  have hraw := decodeRaw_string (E := E) hinv (b := []) (by decide)
  unfold decodeNode
  rw [show [emptyStringCode] = encodeString [] from rfl, hraw]
  exact (Exec.bind_ok (Exec.ofExcept_apply _ m)).trans rfl

theorem decodeNode_digest (hinv : Inverse E.decodeHeader) (d : B256) (m : Mpt) :
    decodeNode E child digest ((emptyStringCode + 32) :: d.bytes) m = digest d.bytes m := by
  have hlen := d.length_bytes
  have hraw := decodeRaw_string (E := E) hinv (b := d.bytes) (by omega)
  unfold decodeNode
  rw [← encodeString_word hlen, hraw]
  refine (Exec.bind_ok (Exec.ofExcept_apply _ m)).trans ?_
  simp only
  rw [if_neg (by omega), if_pos hlen]

end Nodes

end Mpt
end CenoReth
