/-
Borrows while references are computed (`calc_reference`, `encode_with_payload_len`,
`reference_encode`, `payload_length`, `reference_length`, `hash`, `encode_trie` and
`payloads` of `crates/mpt/src/trie.rs`).

The cached references and the scratch buffer of a trie are `RefCell`s.  A second
mutable borrow of one of them panics.  Here every cell has a flag, which is set as
long as the guard of a borrow lives, and the methods are those of `Mpt.Reference`
and `Mpt.Resolver` with their borrows.  A method encodes into the scratch buffer
while it holds it, and it may compute references below a node while it holds the
cell of that node.  Neither leads to a second borrow: `payload_length` has filled
the cells of the children when the buffer is taken, and a child is never above its
parent.
-/
import CenoReth.Mpt.Resolver

namespace CenoReth
namespace Mpt
namespace Borrow

/-! ## The model -/

/-- A trie with the flags of its cells: whether they are mutably borrowed. -/
structure RefCells where
  trie : Mpt
  /-- `rlp_scratch` -/
  scratch : Bool
  /-- `cached_references` -/
  references : NodeId → Bool

/-- How a method ends without a value: as before, or with a second borrow of a cell. -/
inductive Stop where
  | halt (h : Halt)
  | alreadyBorrowed

/-- A method that may borrow the cells of the trie. -/
abbrev BorrowM := Exec Stop RefCells

/-- Run a method that borrows nothing. -/
def onTrie {α : Type} (x : TrieM α) : BorrowM α := fun s =>
  match x s.trie with
  | (.ok a, m) => (.ok a, { s with trie := m })
  | (.error h, m) => (.error (.halt h), { s with trie := m })

/-- `borrow_mut` of a cell, given its flag and how it is set. -/
def borrowMut (flag : RefCells → Bool) (set : RefCells → RefCells) : BorrowM Unit := do
  if ← Exec.read flag then Exec.fail .alreadyBorrowed
  else Exec.write set

/-- `self.cached_references[node_id].borrow_mut()`. -/
def borrowReference (id : NodeId) : BorrowM Unit :=
  borrowMut (fun s => s.references id) fun s =>
    { s with references := Function.update s.references id true }

/-- The end of that borrow. -/
def releaseReference (id : NodeId) : BorrowM Unit :=
  Exec.write fun s => { s with references := Function.update s.references id false }

/-- `self.rlp_scratch.borrow_mut()`. -/
def borrowScratch : BorrowM Unit :=
  borrowMut (fun s => s.scratch) fun s => { s with scratch := true }

/-- The end of that borrow. -/
def releaseScratch : BorrowM Unit := Exec.write fun s => { s with scratch := false }

/-- `get_or_insert_with(|| self.calc_reference(node_id))`, on the content of a borrowed cell. -/
def getOrInsertWith (compute : NodeId → BorrowM NodeRef) (id : NodeId) :
    Option NodeRef → BorrowM NodeRef
  | some r => pure r
  | none => do
    let r ← compute id
    onTrie (setCache id (some r))
    pure r

/-- `match self.cached_references[node_id].borrow_mut().get_or_insert_with(..) { .. }`.  The
guard lives until the end of the match. -/
def withReference {α : Type} (compute : NodeId → BorrowM NodeRef) (id : NodeId)
    (body : NodeRef → BorrowM α) : BorrowM α := do
  let cached ← onTrie (cacheAt id)
  borrowReference id
  let r ← getOrInsertWith compute id cached
  let a ← body r
  releaseReference id
  pure a

def referenceLength (compute : NodeId → BorrowM NodeRef) (id : NodeId) : BorrowM Nat :=
  withReference compute id fun
    | .bytes bytes => pure bytes.length
    | .digest _ => pure (1 + 32)

def referenceEncode (compute : NodeId → BorrowM NodeRef) (id : NodeId) : BorrowM Bytes :=
  withReference compute id fun
    | .bytes bytes => pure bytes
    | .digest digest => pure ((Rlp.emptyStringCode + 32) :: digest)

def payloadLength (compute : NodeId → BorrowM NodeRef) (id : NodeId) : BorrowM Nat := do
  match ← onTrie (nodeAt id) with
  | .null => pure 0
  | .branch nodes =>
    let lengths ← Exec.collect
      (fun i => match nodes i with
        | none => pure 1
        | some id => referenceLength compute id) (List.finRange 16)
    pure (1 + lengths.sum)
  | .leaf encodedPath value => pure (Rlp.stringLength encodedPath + Rlp.stringLength value)
  | .extension encodedPath child =>
    let length ← referenceLength compute child
    pure (Rlp.stringLength encodedPath + length)
  | .digest _ => pure 32

def encodeWithPayloadLen (compute : NodeId → BorrowM NodeRef) (id : NodeId)
    (payloadLength : Nat) : BorrowM Bytes := do
  match ← onTrie (nodeAt id) with
  | .null => pure [Rlp.emptyStringCode]
  | .branch nodes =>
    let children ← Exec.collect
      (fun i => match nodes i with
        | some id => referenceEncode compute id
        | none => pure [Rlp.emptyStringCode]) (List.finRange 16)
    pure ((Rlp.Header.mk true payloadLength).encode ++ children.flatten ++ [Rlp.emptyStringCode])
  | .leaf encodedPath value =>
    pure ((Rlp.Header.mk true payloadLength).encode ++ Rlp.encodeString encodedPath ++
      Rlp.encodeString value)
  | .extension encodedPath child =>
    let reference ← referenceEncode compute child
    pure ((Rlp.Header.mk true payloadLength).encode ++ Rlp.encodeString encodedPath ++ reference)
  | .digest digest => pure (Rlp.encodeString digest)

section Model

variable (E : Env)

def calcReference : Nat → NodeId → BorrowM NodeRef
  | 0, _ => Exec.fail (.halt .stackOverflow)
  | fuel + 1, id => do
    match ← onTrie (nodeAt id) with
    | .null => pure (.bytes nullNodeRefSlice)
    | .digest digest => pure (.digest digest)
    | _ =>
      let payloadLength ← payloadLength (calcReference fuel) id
      let rlpLength := payloadLength + Rlp.lengthOfLength payloadLength
      if rlpLength < 32 then
        let encoded ← encodeWithPayloadLen (calcReference fuel) id payloadLength
        pure (.bytes encoded)
      else
        borrowScratch
        let encoded ← encodeWithPayloadLen (calcReference fuel) id payloadLength
        releaseScratch
        pure (.digest (E.keccak256 encoded).bytes)

/-- Run a recursive method with as much stack as the arena has nodes. -/
def withStack {α : Type} (x : Nat → BorrowM α) : BorrowM α := do
  let fuel ← Exec.read fun s => s.trie.size
  x fuel

def hash : BorrowM B256 := do
  let rootId ← Exec.read fun s => s.trie.rootId
  match ← onTrie (nodeAt rootId) with
  | .null => pure E.emptyRootHash
  | _ => withStack fun fuel =>
      withReference (calcReference E fuel) rootId fun r => onTrie (referenceHash E r)

/-- What `encode_trie_internal` and `payloads_internal` have in common: the nodes of a subtree
in pre-order, each with its payload length and its encoding. -/
def walk {β : Type} (visit : Nat → Bytes → List β) : Nat → NodeId → BorrowM (List β)
  | 0, _ => Exec.fail (.halt .stackOverflow)
  | fuel + 1, id => do
    let payloadLength ← payloadLength (calcReference E fuel) id
    let node ← encodeWithPayloadLen (calcReference E fuel) id payloadLength
    match ← onTrie (nodeAt id) with
    | .branch childs =>
      let children ← Exec.collect
        (fun i => match childs i with
          | some child => walk visit fuel child
          | none => pure []) (List.finRange 16)
      pure (visit payloadLength node ++ children.flatten)
    | .extension _ child =>
      let rest ← walk visit fuel child
      pure (visit payloadLength node ++ rest)
    | _ => pure (visit payloadLength node)

def encodeTrieInternal : Nat → NodeId → BorrowM Bytes :=
  walk E fun payloadLength node =>
    let rlpLength := payloadLength + Rlp.lengthOfLength payloadLength
    let paddingLen := (minAlign - rlpLength % minAlign) % minAlign
    node ++ List.replicate paddingLen 0

def encodeTrie : BorrowM Bytes := do
  let rootId ← Exec.read fun s => s.trie.rootId
  withStack fun fuel => encodeTrieInternal E fuel rootId

def payloadsInternal : Nat → NodeId → BorrowM (List Bytes) :=
  walk E fun _ buffer => [buffer]

def payloads : BorrowM (List Bytes) := do
  let rootId ← Exec.read fun s => s.trie.rootId
  withStack fun fuel => payloadsInternal E fuel rootId

end Model

/-! ## The model without the cells

A method that returns has done what the method of the same name does without the flags.
-/

/-- If the first method returns, the second returns the same value and leaves the same trie. -/
def Erases {α : Type} (x : BorrowM α) (y : TrieM α) : Prop :=
  ∀ ⦃s a s'⦄, x s = (.ok a, s') → y s.trie = (.ok a, s'.trie)

namespace Erases

variable {α β : Type} {compute : NodeId → BorrowM NodeRef} {plain : NodeId → TrieM NodeRef}

protected theorem pure (a : α) : Erases (pure a) (pure a) := by
  rintro s b s' h
  simp only [Exec.pure_apply, Prod.mk.injEq] at h
  obtain ⟨h, rfl⟩ := h
  rw [Exec.pure_apply, Except.ok.inj h]

protected theorem read (f : Mpt → α) : Erases (Exec.read fun s => f s.trie) (Exec.read f) := by
  rintro s b s' h
  simp only [Exec.read_apply, Prod.mk.injEq] at h
  obtain ⟨h, rfl⟩ := h
  rw [Exec.read_apply, Except.ok.inj h]

protected theorem fail {h : Stop} {y : TrieM α} : Erases (Exec.fail h) y := by
  rintro s a s' h
  simp at h

protected theorem onTrie (x : TrieM α) : Erases (onTrie x) x := by
  rintro s a s' h
  unfold Borrow.onTrie at h
  rcases hx : x s.trie with ⟨_ | b, m⟩
  · simp [hx] at h
  · simp only [hx, Prod.mk.injEq] at h
    obtain ⟨h, rfl⟩ := h
    rw [Except.ok.inj h]

protected theorem bind {x : BorrowM α} {y : TrieM α} {f : α → BorrowM β} {g : α → TrieM β}
    (hx : Erases x y) (hf : ∀ a, Erases (f a) (g a)) : Erases (x >>= f) (y >>= g) := by
  intro s b s' h
  obtain ⟨a, s₁, h₁, h₂⟩ := Exec.of_bind_ok h
  rw [Exec.bind_ok (hx h₁)]
  exact hf a h₂

protected theorem collect {ι : Type} {f : ι → BorrowM α} {g : ι → TrieM α}
    (hf : ∀ i, Erases (f i) (g i)) : ∀ l, Erases (Exec.collect f l) (Exec.collect g l)
  | [] => .pure []
  | i :: l => (hf i).bind fun _ => (Erases.collect hf l).bind fun _ => .pure _

/-- A step that only sets a flag has no counterpart. -/
theorem flag {x : BorrowM Unit} {f : BorrowM β} {g : TrieM β}
    (hx : Erases x (pure ())) (hf : Erases f g) : Erases (x >>= fun _ => f) g := by
  intro s b s' h
  obtain ⟨a, s₁, h₁, h₂⟩ := Exec.of_bind_ok h
  have hs := hx h₁
  simp only [Exec.pure_apply, Prod.mk.injEq] at hs
  rw [hs.2]
  exact hf h₂

theorem flag_after {x : BorrowM α} {y : TrieM α} {z : BorrowM Unit} (hx : Erases x y)
    (hz : Erases z (pure ())) : Erases (do let a ← x; z; pure a) y := by
  intro s b s' h
  obtain ⟨a, s₁, h₁, h⟩ := Exec.of_bind_ok h
  rw [hx h₁]
  exact flag hz (.pure a) h

theorem write {f : RefCells → RefCells} (hf : ∀ s, (f s).trie = s.trie) :
    Erases (Exec.write f) (pure ()) := by
  rintro s a s' h
  simp only [Exec.write_apply, Prod.mk.injEq] at h
  rw [← h.2, hf]
  rfl

theorem borrowMut {flag : RefCells → Bool} {set : RefCells → RefCells}
    (hs : ∀ s, (set s).trie = s.trie) : Erases (borrowMut flag set) (pure ()) := by
  rintro s a s' h
  obtain ⟨b, s₁, h₁, h₂⟩ := Exec.of_bind_ok h
  simp only [Exec.read_apply, Prod.mk.injEq] at h₁
  obtain ⟨-, rfl⟩ := h₁
  cases b with
  | true => simp at h₂
  | false => exact write hs h₂

theorem getOrInsertWith (hc : ∀ id, Erases (compute id) (plain id)) (id : NodeId)
    (cached : Option NodeRef) : Erases (getOrInsertWith compute id cached) (do
      match cached with
      | some r => pure r
      | none =>
        let r ← plain id
        setCache id (some r)
        pure r) := by
  cases cached with
  | some r => exact .pure r
  | none => exact (hc id).bind fun r => (Erases.onTrie _).bind fun _ => .pure r

theorem withReference (hc : ∀ id, Erases (compute id) (plain id)) (id : NodeId)
    {body : NodeRef → BorrowM α} {f : NodeRef → TrieM α} (hb : ∀ r, Erases (body r) (f r)) :
    Erases (withReference compute id body) (cachedReference plain id >>= f) := by
  unfold cachedReference
  rw [Exec.bind_assoc]
  refine (Erases.onTrie _).bind fun cached => ?_
  refine flag (borrowMut fun _ => rfl) ?_
  exact (getOrInsertWith hc id cached).bind fun r => (hb r).flag_after (write fun _ => rfl)

theorem referenceLength (hc : ∀ id, Erases (compute id) (plain id)) (id : NodeId) :
    Erases (referenceLength compute id) (Mpt.referenceLength plain id) :=
  withReference hc id fun r => by cases r <;> exact .pure _

theorem referenceEncode (hc : ∀ id, Erases (compute id) (plain id)) (id : NodeId) :
    Erases (referenceEncode compute id) (Mpt.referenceEncode plain id) :=
  withReference hc id fun r => by cases r <;> exact .pure _

theorem payloadLength (hc : ∀ id, Erases (compute id) (plain id)) (id : NodeId) :
    Erases (payloadLength compute id) (Mpt.payloadLength plain id) := by
  refine (Erases.onTrie _).bind fun data => ?_
  cases data with
  | branch nodes =>
    refine (Erases.collect (fun i => ?_) _).bind fun _ => .pure _
    cases nodes i with
    | none => exact .pure _
    | some child => exact referenceLength hc child
  | extension path child => exact (referenceLength hc child).bind fun _ => .pure _
  | _ => exact .pure _

theorem encodeWithPayloadLen (hc : ∀ id, Erases (compute id) (plain id)) (id : NodeId)
    (n : Nat) :
    Erases (encodeWithPayloadLen compute id n) (Mpt.encodeWithPayloadLen plain id n) := by
  refine (Erases.onTrie _).bind fun data => ?_
  cases data with
  | branch nodes =>
    refine (Erases.collect (fun i => ?_) _).bind fun _ => .pure _
    cases nodes i with
    | none => exact .pure _
    | some child => exact referenceEncode hc child
  | extension path child => exact (referenceEncode hc child).bind fun _ => .pure _
  | _ => exact .pure _

variable (E : Env)

theorem calcReference : ∀ fuel id, Erases (calcReference E fuel id) (Mpt.calcReference E fuel id)
  | 0, _ => .fail
  | fuel + 1, id => by
    refine (Erases.onTrie _).bind fun data => ?_
    cases data with
    | null => exact .pure _
    | digest d => exact .pure _
    | _ =>
      refine (payloadLength (calcReference fuel) id).bind fun n => ?_
      have hencode := encodeWithPayloadLen (calcReference fuel) id n
      by_cases hn : n + Rlp.lengthOfLength n < 32
      · simp only [hn, if_true]
        exact hencode.bind fun _ => .pure _
      · simp only [hn, if_false]
        refine flag (borrowMut fun _ => rfl) (hencode.bind fun _ => ?_)
        exact flag (write fun _ => rfl) (.pure _)

theorem hash : Erases (hash E) (Mpt.hash E) := by
  refine (Erases.read _).bind fun rootId => (Erases.onTrie _).bind fun data => ?_
  cases data with
  | null => exact .pure _
  | _ =>
    unfold Mpt.withStack
    rw [Exec.bind_assoc]
    refine (Erases.read _).bind fun fuel => ?_
    exact withReference (calcReference E fuel) rootId fun r => Erases.onTrie _

theorem walk {visit : Nat → Bytes → List β} {plain : Nat → NodeId → TrieM (List β)}
    (hplain : ∀ fuel id, plain (fuel + 1) id = do
      let payloadLength ← Mpt.payloadLength (Mpt.calcReference E fuel) id
      let node ← Mpt.encodeWithPayloadLen (Mpt.calcReference E fuel) id payloadLength
      match ← nodeAt id with
      | .branch childs =>
        let children ← Exec.collect
          (fun i => match childs i with
            | some child => plain fuel child
            | none => pure []) (List.finRange 16)
        pure (visit payloadLength node ++ children.flatten)
      | .extension _ child =>
        let rest ← plain fuel child
        pure (visit payloadLength node ++ rest)
      | _ => pure (visit payloadLength node)) :
    ∀ fuel id, Erases (walk E visit fuel id) (plain fuel id)
  | 0, _ => .fail
  | fuel + 1, id => by
    rw [hplain]
    refine (payloadLength (calcReference E fuel) id).bind fun n => ?_
    refine (encodeWithPayloadLen (calcReference E fuel) id n).bind fun node => ?_
    refine (Erases.onTrie _).bind fun data => ?_
    cases data with
    | branch childs =>
      refine (Erases.collect (fun i => ?_) _).bind fun _ => .pure _
      cases childs i with
      | none => exact .pure _
      | some child => exact walk hplain fuel child
    | extension path child => exact (walk hplain fuel child).bind fun _ => .pure _
    | _ => exact .pure _

theorem encodeTrie : Erases (encodeTrie E) (Mpt.encodeTrie E) := by
  refine (Erases.read _).bind fun rootId => (Erases.read _).bind fun fuel => ?_
  exact walk E (fun _ _ => rfl) fuel rootId

theorem payloads : Erases (payloads E) (Mpt.payloads E) := by
  refine (Erases.read _).bind fun rootId => (Erases.read _).bind fun fuel => ?_
  exact walk E (fun _ _ => rfl) fuel rootId

end Erases

/-! ## Tree-shaped arenas -/

/-- The nodes a node refers to. -/
def children : NodeData → List NodeId
  | .branch nodes => (List.finRange 16).filterMap nodes
  | .extension _ child => [child]
  | _ => []

theorem mem_children_branch {nodes : Fin 16 → Option NodeId} {i : Fin 16} {k : NodeId}
    (h : nodes i = some k) : k ∈ children (.branch nodes) :=
  List.mem_filterMap.mpr ⟨i, List.mem_finRange i, h⟩

/-- A digest has the length of a hash. -/
def HashSized : NodeRef → Prop
  | .bytes _ => True
  | .digest digest => digest.length = 32

/-- A set of nodes with all their children, in which every child is below its parent.  The
cached references are arbitrary, up to the length of a digest. -/
structure Tree (m : Mpt) (nodes : Set NodeId) (rank : NodeId → Nat) : Prop where
  cell : ∀ id ∈ nodes, ∃ c, m.cells[id]? = some c
  child : ∀ id ∈ nodes, ∀ c, m.cells[id]? = some c → ∀ k ∈ children c.data,
    k ∈ nodes ∧ rank k < rank id
  digest : ∀ id ∈ nodes, ∀ c, m.cells[id]? = some c → ∀ d, c.data = .digest d → d.length = 32
  cached : ∀ id ∈ nodes, ∀ c, m.cells[id]? = some c → ∀ r, c.cachedReference = some r →
    HashSized r

/-- The arena is tree-shaped at the given nodes, the root among them. -/
structure TreeShaped (m : Mpt) (nodes : Set NodeId) : Prop where
  root : m.rootId ∈ nodes
  tree : ∃ rank, Tree m nodes rank

/-- The rank of a node can be bounded by the size of the arena: count the nodes below it. -/
theorem Tree.bounded {m : Mpt} {nodes : Set NodeId} {rank : NodeId → Nat}
    (h : Tree m nodes rank) :
    ∃ rank', Tree m nodes rank' ∧ ∀ id ∈ nodes, rank' id < m.size := by
  let below : NodeId → Finset NodeId := fun id =>
    (Finset.range m.size).filter fun k => rank k < rank id
  have hsize : ∀ id ∈ nodes, id < m.size := fun id hid =>
    lt_size (h.cell id hid).choose_spec
  refine ⟨fun id => (below id).card, ⟨h.cell, ?_, h.digest, h.cached⟩, ?_⟩
  · intro id hid c hc k hk
    obtain ⟨hk', hlt⟩ := h.child id hid c hc k hk
    refine ⟨hk', Finset.card_lt_card (Finset.ssubset_iff_of_subset ?_ |>.mpr ⟨k, ?_, ?_⟩)⟩
    · intro j hj
      simp only [below, Finset.mem_filter] at hj ⊢
      exact ⟨hj.1, by omega⟩
    · simpa [below, hlt] using hsize k hk'
    · simp [below]
  · intro id hid
    have hsub : below id ⊂ Finset.range m.size :=
      Finset.ssubset_iff_of_subset (Finset.filter_subset _ _) |>.mpr
        ⟨id, by simpa using hsize id hid, by simp⟩
    simpa using Finset.card_lt_card hsub

/-- The node has a reference in its cell. -/
def Holds (m : Mpt) (id : NodeId) (r : NodeRef) : Prop :=
  ∃ data, m.cells[id]? = some ⟨data, some r⟩

/-- What a method may do to the arena: fill empty cells. -/
structure Grows (m m' : Mpt) : Prop where
  root : m'.rootId = m.rootId
  size : m'.size = m.size
  data : ∀ {id : NodeId} {c : Cell}, m.cells[id]? = some c →
    ∃ r, m'.cells[id]? = some ⟨c.data, r⟩
  holds : ∀ {id : NodeId} {r : NodeRef}, Holds m id r → Holds m' id r

theorem Grows.refl (m : Mpt) : Grows m m := ⟨rfl, rfl, fun {_ c} h => ⟨c.cachedReference, h⟩, id⟩

theorem Grows.trans {m m' m'' : Mpt} (h : Grows m m') (h' : Grows m' m'') : Grows m m'' where
  root := h'.root.trans h.root
  size := h'.size.trans h.size
  data {_ c} hc := by
    obtain ⟨r, hc'⟩ := h.data hc
    exact h'.data (c := ⟨c.data, r⟩) hc'
  holds hr := h'.holds (h.holds hr)

theorem Grows.fill {m : Mpt} {id : NodeId} {c : Cell} (hc : m.cells[id]? = some c)
    (hnone : c.cachedReference = none) (r : NodeRef) :
    Grows m (m.setCell id ⟨c.data, some r⟩) where
  root := rfl
  size := size_setCell m id _
  data {k c'} hk := by
    by_cases hne : k = id
    · subst hne
      obtain rfl := Option.some.inj (hc.symm.trans hk)
      exact ⟨some r, cells_setCell_self (lt_size hc) _⟩
    · exact ⟨c'.cachedReference, (cells_setCell_ne hne _).trans hk⟩
  holds {k r'} hk := by
    obtain ⟨data, hk⟩ := hk
    by_cases hne : k = id
    · subst hne
      obtain rfl := Option.some.inj (hc.symm.trans hk)
      cases hnone
    · exact ⟨data, (cells_setCell_ne hne _).trans hk⟩

theorem Tree.fill {m : Mpt} {nodes : Set NodeId} {rank : NodeId → Nat} (h : Tree m nodes rank)
    {id : NodeId} {c : Cell} (hc : m.cells[id]? = some c) {r : NodeRef} (hr : HashSized r) :
    Tree (m.setCell id ⟨c.data, some r⟩) nodes rank := by
  have hcell : ∀ {k : NodeId} {c' : Cell}, (m.setCell id ⟨c.data, some r⟩).cells[k]? = some c' →
      ∃ c'' : Cell, m.cells[k]? = some c'' ∧ c'.data = c''.data ∧
        (c'.cachedReference = some r ∨ c' = c'') := by
    intro k c' hk
    by_cases hne : k = id
    · subst hne
      rw [cells_setCell_self (lt_size hc)] at hk
      obtain rfl := Option.some.inj hk
      exact ⟨c, hc, rfl, .inl rfl⟩
    · rw [cells_setCell_ne hne] at hk
      exact ⟨c', hk, rfl, .inr rfl⟩
  refine ⟨fun k hk => ?_, fun k hk c' hc' => ?_, fun k hk c' hc' => ?_,
    fun k hk c' hc' r' hr' => ?_⟩
  · obtain ⟨c', hc'⟩ := h.cell k hk
    by_cases hne : k = id
    · subst hne
      exact ⟨_, cells_setCell_self (lt_size hc) _⟩
    · exact ⟨c', (cells_setCell_ne hne _).trans hc'⟩
  · obtain ⟨c'', hc'', hd, -⟩ := hcell hc'
    rw [hd]
    exact h.child k hk c'' hc''
  · obtain ⟨c'', hc'', hd, -⟩ := hcell hc'
    rw [hd]
    exact h.digest k hk c'' hc''
  · obtain ⟨c'', hc'', -, hc' | rfl⟩ := hcell hc'
    · obtain rfl := Option.some.inj (hc'.symm.trans hr')
      exact hr
    · exact h.cached k hk c' hc'' r' hr'

/-! ## Borrows in a tree -/

section Safety

variable {nodes : Set NodeId} {rank : NodeId → Nat}

variable (nodes rank) in
/-- What a method that returned has done: it filled cells that were not borrowed, and released
what it borrowed. -/
structure Keeps (s s' : RefCells) : Prop where
  grows : Grows s.trie s'.trie
  tree : Tree s.trie nodes rank → Tree s'.trie nodes rank
  scratch : s'.scratch = s.scratch
  references : s'.references = s.references
  borrowed : ∀ id, s.references id = true → s'.trie.cells[id]? = s.trie.cells[id]?

theorem Keeps.refl (s : RefCells) : Keeps nodes rank s s :=
  ⟨.refl _, id, rfl, rfl, fun _ _ => rfl⟩

theorem Keeps.trans {s s' s'' : RefCells} (h : Keeps nodes rank s s')
    (h' : Keeps nodes rank s' s'') : Keeps nodes rank s s'' where
  grows := h.grows.trans h'.grows
  tree ht := h'.tree (h.tree ht)
  scratch := h'.scratch.trans h.scratch
  references := h'.references.trans h.references
  borrowed id hid := (h'.borrowed id (by rw [h.references]; exact hid)).trans (h.borrowed id hid)

variable (nodes rank) in
/-- The buffer is free, and so are the cells of the nodes below the given rank. -/
structure Ready (n : Nat) (s : RefCells) : Prop where
  tree : Tree s.trie nodes rank
  scratch : s.scratch = false
  free : ∀ k ∈ nodes, rank k < n → s.references k = false

theorem Ready.keeps {n : Nat} {s s' : RefCells} (h : Ready nodes rank n s)
    (hk : Keeps nodes rank s s') : Ready nodes rank n s' where
  tree := hk.tree h.tree
  scratch := hk.scratch.trans h.scratch
  free k hk' hlt := by
    rw [hk.references]
    exact h.free k hk' hlt

theorem Ready.mono {n n' : Nat} {s : RefCells} (h : Ready nodes rank n s) (hle : n' ≤ n) :
    Ready nodes rank n' s :=
  ⟨h.tree, h.scratch, fun k hk hlt => h.free k hk (by omega)⟩

variable (nodes rank) in
/-- References are computed without a second borrow, up to the given rank. -/
def Safe (n : Nat) (compute : NodeId → BorrowM NodeRef) : Prop :=
  ∀ id ∈ nodes, rank id < n → ∀ s, Ready nodes rank (rank id) s →
    ∃ r s', compute id s = (.ok r, s') ∧ Keeps nodes rank s s' ∧ HashSized r

theorem onTrie_ok {α : Type} {x : TrieM α} {s : RefCells} {a : α} {m : Mpt}
    (h : x s.trie = (.ok a, m)) : onTrie x s = (.ok a, { s with trie := m }) := by
  unfold onTrie
  rw [h]

theorem nodeAt_onTrie {s : RefCells} {id : NodeId} {c : Cell} (h : s.trie.cells[id]? = some c) :
    onTrie (nodeAt id) s = (.ok c.data, s) := onTrie_ok (nodeAt_ok h)

theorem borrowMut_ok {flag : RefCells → Bool} {set : RefCells → RefCells} {s : RefCells}
    (h : flag s = false) : borrowMut flag set s = (.ok (), set s) := by
  unfold borrowMut
  rw [Exec.bind_ok (Exec.read_apply flag s), h]
  rfl

/-- The state in which the cell of a node is borrowed. -/
def borrowed (id : NodeId) (s : RefCells) : RefCells :=
  { s with references := Function.update s.references id true }

theorem releaseReference_borrowed {id : NodeId} {s : RefCells} (h : s.references id = false) :
    releaseReference id (borrowed id s) = (.ok (), s) := by
  unfold releaseReference borrowed
  rw [Exec.write_apply, Function.update_idem, ← h, Function.update_eq_self]

theorem releaseScratch_borrowed {s : RefCells} (h : s.scratch = false) :
    releaseScratch { s with scratch := true } = (.ok (), s) := by
  unfold releaseScratch
  rw [Exec.write_apply, ← h]

section Access

variable {α : Type} {compute : NodeId → BorrowM NodeRef} {id : NodeId} {s s' : RefCells}
  {g : NodeRef → BorrowM α} {f : NodeRef → α} {r : NodeRef}

/-- The match on a cell borrows it, and releases it at the end. -/
theorem withReference_run {c : Cell} (hc : s.trie.cells[id]? = some c)
    (hfree : s.references id = false)
    (hget : getOrInsertWith compute id c.cachedReference (borrowed id s) =
      (.ok r, borrowed id s'))
    (hfree' : s'.references id = false) (hb : ∀ s, g r s = (.ok (f r), s)) :
    withReference compute id g s = (.ok (f r), s') := by
  have hcache : onTrie (cacheAt id) s = (.ok c.cachedReference, s) := onTrie_ok (cacheAt_ok hc)
  have hborrow : borrowReference id s = (.ok (), borrowed id s) := borrowMut_ok hfree
  unfold withReference
  rw [Exec.bind_ok hcache, Exec.bind_ok hborrow, Exec.bind_ok hget, Exec.bind_ok (hb _),
    Exec.bind_ok (releaseReference_borrowed hfree')]
  rfl

/-- A filled cell is read, whatever else is borrowed. -/
theorem withReference_holds (hr : Holds s.trie id r) (hfree : s.references id = false)
    (hb : ∀ s, g r s = (.ok (f r), s)) :
    withReference compute id g s = (.ok (f r), s) := by
  obtain ⟨data, hc⟩ := hr
  exact withReference_run hc hfree rfl hfree hb

/-- An empty cell is filled while it is borrowed. -/
theorem withReference_ok {n : Nat} (hsafe : Safe nodes rank n compute) (hid : id ∈ nodes)
    (hn : rank id < n) (hs : Ready nodes rank (rank id + 1) s)
    (hb : ∀ r s, HashSized r → g r s = (.ok (f r), s)) :
    ∃ r s', withReference compute id g s = (.ok (f r), s') ∧ Keeps nodes rank s s' ∧
      Holds s'.trie id r := by
  have hfree := hs.free id hid (by omega)
  obtain ⟨⟨data, cached⟩, hc⟩ := hs.tree.cell id hid
  cases cached with
  | some r =>
    have hr := hs.tree.cached id hid _ hc r rfl
    exact ⟨r, s, withReference_holds ⟨data, hc⟩ hfree fun s => hb r s hr, .refl s, data, hc⟩
  | none =>
    have hready : Ready nodes rank (rank id) (borrowed id s) := by
      refine ⟨hs.tree, hs.scratch, fun k hk hlt => ?_⟩
      have hne : k ≠ id := by
        rintro rfl
        omega
      simpa [borrowed, hne] using hs.free k hk (by omega)
    obtain ⟨r, s₁, h₁, hk, hr⟩ := hsafe id hid hn _ hready
    -- nobody else writes a borrowed cell
    have hc₁ : s₁.trie.cells[id]? = some ⟨data, none⟩ :=
      (hk.borrowed id (by simp [borrowed])).trans hc
    let s' : RefCells := ⟨s₁.trie.setCell id ⟨data, some r⟩, s₁.scratch, s.references⟩
    have hget : getOrInsertWith compute id none (borrowed id s) = (.ok r, borrowed id s') := by
      refine (Exec.bind_ok h₁).trans ((Exec.bind_ok (onTrie_ok (setCache_ok hc₁ _))).trans ?_)
      rw [Exec.pure_apply, hk.references]
      rfl
    refine ⟨r, s', withReference_run hc hfree hget hfree fun s => hb r s hr, ?_, data,
      cells_setCell_self (lt_size hc₁) _⟩
    refine ⟨hk.grows.trans (.fill hc₁ rfl r), fun ht => (hk.tree ht).fill hc₁ hr, hk.scratch, rfl,
      fun k hk' => ?_⟩
    have hne : k ≠ id := by
      rintro rfl
      rw [hfree] at hk'
      cases hk'
    rw [cells_setCell_ne hne]
    exact hk.borrowed k (by simpa [borrowed, hne] using hk')

end Access

/-! ## Lengths -/

/-- The length of a reference in its parent. -/
def encodedLength : NodeRef → Nat
  | .bytes bytes => bytes.length
  | .digest _ => 1 + 32

/-- A reference as it stands in its parent. -/
def encoded : NodeRef → Bytes
  | .bytes bytes => bytes
  | .digest digest => (Rlp.emptyStringCode + 32) :: digest

theorem length_encoded {r : NodeRef} (h : HashSized r) : (encoded r).length = encodedLength r := by
  cases r with
  | bytes bytes => rfl
  | digest digest =>
    rw [encoded, List.length_cons, h]
    rfl

/-- What the cell of a node holds, once it is filled. -/
def refOf (m : Mpt) (id : NodeId) : NodeRef :=
  (m.cells[id]?.bind Cell.cachedReference).getD (.bytes [])

theorem Holds.refOf_eq {m : Mpt} {id : NodeId} {r : NodeRef} (h : Holds m id r) :
    refOf m id = r := by
  obtain ⟨data, hc⟩ := h
  simp [refOf, hc]

/-- A slot of a branch: its length, its encoding, and that both are read from a filled cell. -/
def slotLength (m : Mpt) (slot : Option NodeId) : Nat :=
  slot.elim 1 fun k => encodedLength (refOf m k)

def slotEncoded (m : Mpt) (slot : Option NodeId) : Bytes :=
  slot.elim [Rlp.emptyStringCode] fun k => encoded (refOf m k)

def SlotFilled (m : Mpt) (slot : Option NodeId) : Prop :=
  ∀ k, slot = some k → Holds m k (refOf m k)

theorem SlotFilled.grows {m m' : Mpt} {slot : Option NodeId} (h : SlotFilled m slot)
    (hg : Grows m m') : SlotFilled m' slot ∧ slotLength m' slot = slotLength m slot := by
  cases slot with
  | none => exact ⟨fun k hk => (by cases hk), rfl⟩
  | some k =>
    have hr := hg.holds (h k rfl)
    have href := hr.refOf_eq
    refine ⟨?_, congrArg encodedLength href⟩
    intro k' hk'
    obtain rfl := Option.some.inj hk'
    rw [href]
    exact hr

/-- The payload length of a node, from what the cells of its children hold. -/
def payloadOf (m : Mpt) : NodeData → Nat
  | .null => 0
  | .branch nodes =>
    1 + ((List.finRange 16).map fun i => slotLength m (nodes i)).sum
  | .leaf encodedPath value => Rlp.stringLength encodedPath + Rlp.stringLength value
  | .extension encodedPath child => Rlp.stringLength encodedPath + encodedLength (refOf m child)
  | .digest _ => 32

/-- The cells of the children are filled. -/
def ChildrenFilled (m : Mpt) (data : NodeData) : Prop :=
  ∀ k ∈ children data, Holds m k (refOf m k)

section Length

variable {compute : NodeId → BorrowM NodeRef} {id : NodeId} {s : RefCells} {n : Nat} {c : Cell}

theorem referenceLength_ok (hsafe : Safe nodes rank n compute) (hid : id ∈ nodes)
    (hn : rank id < n) (hs : Ready nodes rank (rank id + 1) s) :
    ∃ s', referenceLength compute id s = (.ok (encodedLength (refOf s'.trie id)), s') ∧
      Keeps nodes rank s s' ∧ Holds s'.trie id (refOf s'.trie id) := by
  have hrun : ∃ r s', referenceLength compute id s = (.ok (encodedLength r), s') ∧
      Keeps nodes rank s s' ∧ Holds s'.trie id r :=
    withReference_ok hsafe hid hn hs fun r _ _ => by cases r <;> rfl
  obtain ⟨r, s', h, hk, hr⟩ := hrun
  have href := hr.refOf_eq
  subst href
  exact ⟨s', h, hk, hr⟩

theorem referenceEncode_holds {r : NodeRef} (hr : Holds s.trie id r)
    (hfree : s.references id = false) : referenceEncode compute id s = (.ok (encoded r), s) :=
  withReference_holds hr hfree fun _ => by cases r <;> rfl

theorem slotLength_ok {slot : Option NodeId} {top : Nat} (hsafe : Safe nodes rank n compute)
    (hslot : ∀ k, slot = some k → k ∈ nodes ∧ rank k < top) (hn : top ≤ n)
    (hs : Ready nodes rank top s) :
    ∃ a s', (match slot with
        | none => pure 1
        | some k => referenceLength compute k : BorrowM Nat) s = (.ok a, s') ∧
      Keeps nodes rank s s' ∧ SlotFilled s'.trie slot ∧ a = slotLength s'.trie slot := by
  cases slot with
  | none => exact ⟨1, s, rfl, .refl s, fun k hk => (by cases hk), rfl⟩
  | some k =>
    obtain ⟨hmem, hlt⟩ := hslot k rfl
    obtain ⟨s', h, hk, hr⟩ := referenceLength_ok hsafe hmem (by omega) (hs.mono (by omega))
    refine ⟨_, s', h, hk, ?_, rfl⟩
    intro k' hk'
    obtain rfl := Option.some.inj hk'
    exact hr

/-- The length of the payload is computed, and then the cells of the children are filled. -/
theorem payloadLength_ok (hc : s.trie.cells[id]? = some c)
    (hsafe : Safe nodes rank n compute) (hid : id ∈ nodes) (hn : rank id ≤ n)
    (hs : Ready nodes rank (rank id) s) :
    ∃ s', payloadLength compute id s = (.ok (payloadOf s'.trie c.data), s') ∧
      Keeps nodes rank s s' ∧ ChildrenFilled s'.trie c.data := by
  have hchild := hs.tree.child id hid c hc
  unfold payloadLength
  rw [Exec.bind_ok (nodeAt_onTrie hc)]
  cases hdata : c.data with
  | branch slots =>
    rw [hdata] at hchild
    obtain ⟨lengths, s', h, hk, hl⟩ := Exec.collect_kept (R := Keeps nodes rank)
      (Q := fun s i a => SlotFilled s.trie (slots i) ∧ a = slotLength s.trie (slots i))
      Keeps.refl (fun _ _ _ => Keeps.trans)
      (fun s₁ s₂ i a hk hq => ⟨(hq.1.grows hk.grows).1, hq.2.trans (hq.1.grows hk.grows).2.symm⟩)
      (List.finRange 16) s fun i _ s₁ hk =>
        slotLength_ok hsafe (fun k hki => hchild k (mem_children_branch hki)) hn (hs.keeps hk)
    obtain ⟨hfilled, heq⟩ := (List.forall₂_and_left _ _).mp hl
    have hmap : (List.finRange 16).map (fun i => slotLength s'.trie (slots i)) = lengths := by
      rw [← List.forall₂_eq_eq_eq, List.forall₂_map_left_iff]
      exact heq.imp fun _ _ h => h.symm
    refine ⟨s', ?_, hk, ?_⟩
    · rw [payloadOf, hmap]
      exact Exec.bind_ok h
    · intro k hk'
      obtain ⟨i, hi, hki⟩ := List.mem_filterMap.mp hk'
      exact hfilled i hi k hki
  | extension path child =>
    rw [hdata] at hchild
    obtain ⟨hmem, hlt⟩ := hchild child (by simp [children])
    obtain ⟨s', h, hk, hr⟩ := referenceLength_ok hsafe hmem (by omega) (hs.mono (by omega))
    refine ⟨s', (Exec.bind_ok h).trans rfl, hk, ?_⟩
    intro k hk'
    obtain rfl := List.mem_singleton.mp hk'
    exact hr
  | _ => exact ⟨s, rfl, .refl s, fun k hk => by simp [children] at hk⟩

/-- The encoding reads filled cells, and has the length that was computed from them. -/
theorem encodeWithPayloadLen_ok (hc : s.trie.cells[id]? = some c) (hid : id ∈ nodes)
    (htree : Tree s.trie nodes rank) (hfree : ∀ k ∈ children c.data, s.references k = false)
    (hfilled : ChildrenFilled s.trie c.data) :
    ∃ bytes, encodeWithPayloadLen compute id (payloadOf s.trie c.data) s = (.ok bytes, s) ∧
      bytes.length = payloadOf s.trie c.data + Rlp.lengthOfLength (payloadOf s.trie c.data) := by
  have hlen : ∀ k ∈ children c.data,
      (encoded (refOf s.trie k)).length = encodedLength (refOf s.trie k) := by
    intro k hk
    obtain ⟨data, hr⟩ := hfilled k hk
    exact length_encoded (htree.cached k (htree.child id hid c hc k hk).1 _ hr _ rfl)
  have hdigest := htree.digest id hid c hc
  unfold encodeWithPayloadLen
  rw [Exec.bind_ok (nodeAt_onTrie hc)]
  cases hdata : c.data with
  | null => exact ⟨_, rfl, rfl⟩
  | branch slots =>
    rw [hdata] at hfree hfilled hlen
    have hslot : ∀ i, (match slots i with
          | some k => referenceEncode compute k
          | none => pure [Rlp.emptyStringCode]) s = (.ok (slotEncoded s.trie (slots i)), s) ∧
        (slotEncoded s.trie (slots i)).length = slotLength s.trie (slots i) := by
      intro i
      cases hi : slots i with
      | none => exact ⟨rfl, rfl⟩
      | some k =>
        have hmem := mem_children_branch hi
        exact ⟨referenceEncode_holds (hfilled k hmem) (hfree k hmem), hlen k hmem⟩
    obtain ⟨s', h, rfl⟩ := Exec.collect_ok (R := fun s s' : RefCells => s = s')
      (f := fun i => match slots i with
        | some k => referenceEncode compute k
        | none => pure [Rlp.emptyStringCode])
      (g := fun i => slotEncoded s.trie (slots i)) (fun _ => rfl) (fun _ _ _ => Eq.trans)
      (List.finRange 16) s fun i _ s' hs' => by
        subst hs'
        exact ⟨s, (hslot i).1, rfl⟩
    refine ⟨_, Exec.bind_ok h, ?_⟩
    simp only [List.length_append, Rlp.length_encode, List.length_flatten, List.map_map, payloadOf,
      Function.comp_def, (hslot _).2, List.length_singleton]
    omega
  | leaf path value =>
    refine ⟨_, rfl, ?_⟩
    simp only [List.length_append, Rlp.length_encode, Rlp.length_encodeString, payloadOf]
    omega
  | extension path child =>
    rw [hdata] at hfree hfilled hlen
    have hmem : child ∈ children (.extension path child) := by simp [children]
    refine ⟨_, Exec.bind_ok (referenceEncode_holds (hfilled child hmem) (hfree child hmem)), ?_⟩
    simp only [List.length_append, Rlp.length_encode, Rlp.length_encodeString, payloadOf,
      hlen child hmem]
    omega
  | digest d =>
    refine ⟨_, rfl, ?_⟩
    rw [Rlp.length_encodeString, Rlp.stringLength, Rlp.isSingle_eq_false (by rw [hdigest d hdata]; decide),
      hdigest d hdata]
    rfl

/-- A node is measured and then encoded.  The buffer may be borrowed in between. -/
theorem measure_encode (hc : s.trie.cells[id]? = some c) (hsafe : Safe nodes rank n compute)
    (hid : id ∈ nodes) (hn : rank id ≤ n) (hs : Ready nodes rank (rank id) s) :
    ∃ length s', payloadLength compute id s = (.ok length, s') ∧ Keeps nodes rank s s' ∧
      (∀ k ∈ children c.data, ∃ r, Holds s'.trie k r) ∧
      ∀ b, ∃ bytes, encodeWithPayloadLen compute id length { s' with scratch := b } =
        (.ok bytes, { s' with scratch := b }) ∧
        bytes.length = length + Rlp.lengthOfLength length := by
  obtain ⟨s', h, hk, hfilled⟩ := payloadLength_ok hc hsafe hid hn hs
  obtain ⟨r, hc'⟩ := hk.grows.data hc
  refine ⟨_, s', h, hk, fun k hk' => ⟨_, hfilled k hk'⟩, fun b => ?_⟩
  refine encodeWithPayloadLen_ok (c := ⟨c.data, r⟩) hc' hid (hk.tree hs.tree) ?_ hfilled
  intro k hk'
  obtain ⟨hmem, hlt⟩ := hs.tree.child id hid c hc k hk'
  exact (hs.keeps hk).free k hmem hlt

end Length

variable (E : Env)

theorem calcReference_safe : ∀ n, Safe nodes rank n (calcReference E n)
  | 0, _, _, hn, _, _ => absurd hn (Nat.not_lt_zero _)
  | n + 1, id, hid, hn, s, hs => by
    obtain ⟨c, hc⟩ := hs.tree.cell id hid
    unfold calcReference
    rw [Exec.bind_ok (nodeAt_onTrie hc)]
    obtain ⟨length, s', h, hk, -, hencode⟩ :=
      measure_encode hc (calcReference_safe n) hid (by omega) hs
    cases hdata : c.data with
    | null => exact ⟨_, s, rfl, .refl s, trivial⟩
    | digest d => exact ⟨_, s, rfl, .refl s, hs.tree.digest id hid c hc d hdata⟩
    | _ =>
      by_cases hlt : length + Rlp.lengthOfLength length < 32
      · obtain ⟨bytes, hb, -⟩ := hencode s'.scratch
        refine ⟨.bytes bytes, s', ?_, hk, trivial⟩
        refine (Exec.bind_ok h).trans ?_
        simp only [hlt, if_true]
        exact Exec.bind_ok hb
      · obtain ⟨bytes, hb, -⟩ := hencode true
        refine ⟨.digest (E.keccak256 bytes).bytes, s', ?_, hk, (E.keccak256 bytes).length_bytes⟩
        refine (Exec.bind_ok h).trans ?_
        have hfree : s'.scratch = false := (hs.keeps hk).scratch
        simp only [hlt, if_false]
        refine (Exec.bind_ok (borrowMut_ok hfree)).trans ((Exec.bind_ok hb).trans ?_)
        exact Exec.bind_ok (releaseScratch_borrowed hfree)

/-- A subtree is written without a second borrow when nothing is borrowed. -/
theorem walk_ok {β : Type} (visit : Nat → Bytes → List β) : ∀ (n : Nat) {id : NodeId},
    id ∈ nodes → rank id < n → ∀ s, Ready nodes rank n s →
      ∃ out s', walk E visit n id s = (.ok out, s') ∧ Keeps nodes rank s s'
  | 0, _, _, hn, _, _ => absurd hn (Nat.not_lt_zero _)
  | n + 1, id, hid, hn, s, hs => by
    obtain ⟨c, hc⟩ := hs.tree.cell id hid
    have hchild := hs.tree.child id hid c hc
    obtain ⟨length, s₁, h₁, hk₁, -, hencode⟩ :=
      measure_encode hc (calcReference_safe E n) hid (by omega) (hs.mono (by omega))
    obtain ⟨node, h₂, -⟩ := hencode s₁.scratch
    obtain ⟨r, hc₁⟩ := hk₁.grows.data hc
    have hs₁ : Ready nodes rank n s₁ := (hs.keeps hk₁).mono (by omega)
    unfold walk
    rw [Exec.bind_ok h₁, Exec.bind_ok h₂, Exec.bind_ok (nodeAt_onTrie hc₁)]
    cases hdata : c.data with
    | branch slots =>
      rw [hdata] at hchild
      have hslot : ∀ i s', Keeps nodes rank s₁ s' → ∃ out s'', (match slots i with
          | some child => walk E visit n child
          | none => pure []) s' = (.ok out, s'') ∧ Keeps nodes rank s' s'' ∧ True := by
        intro i s' hk'
        cases hi : slots i with
        | none => exact ⟨[], s', rfl, .refl s', trivial⟩
        | some child =>
          obtain ⟨hmem, hlt⟩ := hchild child (mem_children_branch hi)
          obtain ⟨out, s'', h, hk⟩ := walk_ok visit n hmem (by omega) s' (hs₁.keeps hk')
          exact ⟨out, s'', h, hk, trivial⟩
      obtain ⟨outs, s₂, h, hk₂, -⟩ := Exec.collect_forall₂ (Q := fun _ _ => True) Keeps.refl
        (fun _ _ _ => Keeps.trans) (List.finRange 16) s₁ fun i _ => hslot i
      exact ⟨_, s₂, Exec.bind_ok h, hk₁.trans hk₂⟩
    | extension path child =>
      rw [hdata] at hchild
      obtain ⟨hmem, hlt⟩ := hchild child (by simp [children])
      obtain ⟨out, s₂, h, hk₂⟩ := walk_ok visit n hmem (by omega) s₁ hs₁
      exact ⟨_, s₂, Exec.bind_ok h, hk₁.trans hk₂⟩
    | _ => exact ⟨_, s₁, rfl, hk₁⟩

end Safety

/-! ## No second borrow -/

/-- A trie of which nothing is borrowed. -/
def free (m : Mpt) : RefCells := ⟨m, false, fun _ => false⟩

theorem Keeps.eq_free {m : Mpt} {nodes : Set NodeId} {rank : NodeId → Nat} {s : RefCells}
    (h : Keeps nodes rank (free m) s) : s = free s.trie := by
  obtain ⟨m', scratch, references⟩ := s
  obtain rfl := h.scratch
  obtain rfl := h.references
  rfl

/-- The first method returns, without a second borrow and with everything free again.  It does
what the second method does. -/
def Returns {α : Type} (nodes : Set NodeId) (m : Mpt) (x : BorrowM α) (y : TrieM α) : Prop :=
  ∃ a m', x (free m) = (.ok a, free m') ∧ y m = (.ok a, m') ∧ TreeShaped m' nodes

section Methods

variable {m : Mpt} {nodes : Set NodeId} {rank : NodeId → Nat}

theorem Keeps.returns {α : Type} {x : BorrowM α} {y : TrieM α} {a : α} {s : RefCells}
    (hk : Keeps nodes rank (free m) s) (h : TreeShaped m nodes) (ht : Tree m nodes rank)
    (hx : x (free m) = (.ok a, s)) (he : Erases x y) : Returns nodes m x y := by
  refine ⟨a, s.trie, by rw [hx, ← hk.eq_free], he hx, ?_, rank, hk.tree ht⟩
  rw [hk.grows.root]
  exact h.root

theorem ready_free (ht : Tree m nodes rank) (n : Nat) : Ready nodes rank n (free m) :=
  ⟨ht, rfl, fun _ _ _ => rfl⟩

variable (E : Env)

theorem referenceHash_ok {r : NodeRef} (hr : HashSized r) :
    ∃ d, ∀ m, referenceHash E r m = (.ok d, m) := by
  cases r with
  | bytes bytes => exact ⟨E.keccak256 bytes, fun _ => rfl⟩
  | digest d =>
    have hd : B256.fromSlice d = some ⟨d, hr⟩ := dif_pos hr
    refine ⟨⟨d, hr⟩, fun m => ?_⟩
    rw [referenceHash, hd, orPanic_some]
    rfl

theorem hash_returns (h : TreeShaped m nodes) (ht : Tree m nodes rank)
    (hb : ∀ id ∈ nodes, rank id < m.size) : Returns nodes m (hash E) (Mpt.hash E) := by
  obtain ⟨c, hc⟩ := ht.cell m.rootId h.root
  have hnode : onTrie (nodeAt (free m).trie.rootId) (free m) = (.ok c.data, free m) :=
    nodeAt_onTrie hc
  have hrun : ∃ d s, hash E (free m) = (.ok d, s) ∧ Keeps nodes rank (free m) s := by
    unfold hash
    rw [Exec.bind_ok (Exec.read_apply _ _), Exec.bind_ok hnode]
    cases c.data with
    | null => exact ⟨_, _, rfl, .refl _⟩
    | _ =>
      obtain ⟨r, s, hr, hk, -⟩ := withReference_ok
        (f := fun r => (referenceHash E r m).1.toOption.getD E.emptyRootHash)
        (g := fun r => onTrie (referenceHash E r)) (calcReference_safe E m.size) h.root
        (hb _ h.root) (ready_free ht _) fun r s hr => by
          obtain ⟨d, hd⟩ := referenceHash_ok E hr
          rw [onTrie_ok (hd _), hd]
          rfl
      exact ⟨_, s, hr, hk⟩
  obtain ⟨d, s, hd, hk⟩ := hrun
  exact hk.returns h ht hd (Erases.hash E)

theorem walk_returns {β : Type} {visit : Nat → Bytes → List β} {y : TrieM (List β)}
    (h : TreeShaped m nodes) (ht : Tree m nodes rank) (hb : ∀ id ∈ nodes, rank id < m.size)
    (he : Erases (do
      let rootId ← Exec.read fun s => s.trie.rootId
      withStack fun fuel => walk E visit fuel rootId) y) :
    Returns nodes m (do
      let rootId ← Exec.read fun s => s.trie.rootId
      withStack fun fuel => walk E visit fuel rootId) y := by
  obtain ⟨out, s, hs, hk⟩ :=
    walk_ok E visit m.size h.root (hb _ h.root) (free m) (ready_free ht _)
  exact hk.returns h ht hs he

/-- Every node of a tree-shaped arena is encoded in as many bytes as `payload_length` says, and
by then the cells of its children are filled.  No method borrows a cell that is borrowed. -/
theorem lengths_match_borrows_free (h : TreeShaped m nodes) :
    (∀ id ∈ nodes, ∃ length bytes m₁,
      payloadLength (calcReference E m.size) id (free m) = (.ok length, free m₁) ∧
      (∀ c, m.cells[id]? = some c → ∀ k ∈ children c.data, ∃ r, Holds m₁ k r) ∧
      encodeWithPayloadLen (calcReference E m.size) id length (free m₁) = (.ok bytes, free m₁) ∧
      bytes.length = length + Rlp.lengthOfLength length) ∧
    (∀ id ∈ nodes,
      Returns nodes m (calcReference E m.size id) (Mpt.calcReference E m.size id)) ∧
    Returns nodes m (hash E) (Mpt.hash E) ∧
    Returns nodes m (encodeTrie E) (Mpt.encodeTrie E) ∧
    Returns nodes m (payloads E) (Mpt.payloads E) := by
  obtain ⟨rank₀, ht₀⟩ := h.tree
  obtain ⟨rank, ht, hb⟩ := ht₀.bounded
  refine ⟨fun id hid => ?_, fun id hid => ?_, hash_returns E h ht hb,
    walk_returns E h ht hb (Erases.encodeTrie E), walk_returns E h ht hb (Erases.payloads E)⟩
  · obtain ⟨c, hc⟩ := ht.cell id hid
    obtain ⟨length, s, hs, hk, hfilled, hencode⟩ := measure_encode hc
      (calcReference_safe E m.size) hid (hb id hid).le (ready_free ht _)
    obtain ⟨bytes, hbytes, hlen⟩ := hencode s.scratch
    refine ⟨length, bytes, s.trie, ?_, fun c' hc' => ?_, ?_, hlen⟩
    · rw [hs, ← hk.eq_free]
    · obtain rfl := Option.some.inj (hc.symm.trans hc')
      exact hfilled
    · rw [← hk.eq_free]
      exact hbytes
  · obtain ⟨r, s, hs, hk, -⟩ := calcReference_safe E m.size id hid (hb id hid) (free m)
      (ready_free ht _)
    exact hk.returns h ht hs (Erases.calcReference E m.size id)

end Methods

/-- A branch above a digest and a leaf. -/
theorem treeShaped_sampleArena :
    TreeShaped (sampleArena (.digest sampleDigest.bytes)) {id | id < 3} := by
  have hcells : ∀ id < 3, ∀ c, (sampleArena (.digest sampleDigest.bytes)).cells[id]? = some c →
      (c.data = .branch (forkSlots 1 1 2 2) ∧ id = 0 ∨ children c.data = []) ∧
        (∀ d, c.data = .digest d → d.length = 32) ∧ c.cachedReference = none := by
    intro id hid c hc
    rcases id with _ | _ | _ | id
    · obtain rfl := Option.some.inj hc
      exact ⟨.inl ⟨rfl, rfl⟩, by simp, rfl⟩
    · obtain rfl := Option.some.inj hc
      exact ⟨.inr rfl, by simp [sampleDigest.length_bytes], rfl⟩
    · obtain rfl := Option.some.inj hc
      exact ⟨.inr rfl, by simp, rfl⟩
    · omega
  refine ⟨by decide, fun id => if id = 0 then 1 else 0, ?_, ?_, ?_, ?_⟩
  · intro id hid
    exact ⟨_, List.getElem?_eq_getElem hid⟩
  · intro id hid c hc k hk
    obtain ⟨⟨hdata, rfl⟩ | hnil, -⟩ := hcells id hid c hc
    · rw [hdata, show children (.branch (forkSlots 1 1 2 2)) = [1, 2] by decide] at hk
      rcases List.mem_pair.mp hk with rfl | rfl <;> decide
    · rw [hnil] at hk
      cases hk
  · intro id hid c hc
    exact (hcells id hid c hc).2.1
  · intro id hid c hc r hr
    rw [(hcells id hid c hc).2.2] at hr
    cases hr

theorem lengths_match_borrows_free_sample :
    Returns {id | id < 3} (sampleArena (.digest sampleDigest.bytes)) (hash sampleEnv)
      (Mpt.hash sampleEnv) :=
  (lengths_match_borrows_free sampleEnv treeShaped_sampleArena).2.2.1

end Borrow
end Mpt
end CenoReth
