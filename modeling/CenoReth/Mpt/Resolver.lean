/-
Resolving a trie from a store of its nodes (`crates/mpt/src/resolver.rs`, and
`payloads` of `crates/mpt/src/trie.rs`).

The store maps the hash of every node to its encoding, inlined nodes included.
Resolution starts from a root hash and follows every digest through the store.
A value of 32 bytes looks like a digest but stands in a leaf, where it is not
followed.  The recursion is bounded by the trie whose nodes the store holds.
-/
import CenoReth.Mpt.Calls
import CenoReth.Mpt.ProofNode

namespace CenoReth
namespace Mpt

open Patricia Patricia.Radix Trie Rlp

section Model

variable (E : Env)

/-! ## The model -/

/-- The encodings of all nodes of a subtree, in pre-order. -/
def payloadsInternal : Nat → NodeId → TrieM (List Bytes)
  | 0, _ => Exec.fail .stackOverflow
  | fuel + 1, id => do
    let payloadLength ← payloadLength (calcReference E fuel) id
    let buffer ← encodeWithPayloadLen (calcReference E fuel) id payloadLength
    match ← nodeAt id with
    | .branch nodes =>
      let children ← Exec.collect
        (fun i => match nodes i with
          | some child => payloadsInternal fuel child
          | none => pure []) (List.finRange 16)
      pure (buffer :: children.flatten)
    | .extension _ child =>
      let rest ← payloadsInternal fuel child
      pure (buffer :: rest)
    | _ => pure [buffer]

def payloads : TrieM (List Bytes) := do
  let rootId ← Exec.read rootId
  withStack fun fuel => payloadsInternal E fuel rootId

/-- `MptResolver::from_iter` on the hashes and the payloads.  Of two entries with one key the
later one stays. -/
def nodeStore (payloads : List Bytes) (hash : B256) : Option Bytes :=
  payloads.reverse.find? fun payload => E.keccak256 payload = hash

/-- `MptResolver::resolve_internal`. -/
def resolveInternal (nodeStore : B256 → Option Bytes) : Nat → Bytes → TrieM NodeId
  | 0, _ => Exec.fail .stackOverflow
  | fuel + 1, nodeBytes =>
    decodeNode E (resolveInternal nodeStore fuel) (fun item => do
      match nodeStore (← orPanic (B256.fromSlice item)) with
      | some resolvedNodeBytes => resolveInternal nodeStore fuel resolvedNodeBytes
      | none => addNode (.digest item) none) nodeBytes

/-- `MptResolver::resolve`. -/
def resolve (nodeStore : B256 → Option Bytes) (fuel : Nat) (root : B256) : Except Halt Mpt :=
  match resolveInternal E nodeStore fuel ((emptyStringCode + 32) :: root.bytes) new with
  | (.ok rootId, m) => .ok { m with rootId := rootId }
  | (.error h, _) => .error h

end Model

variable {E : Env}

/-! ## Payloads -/

variable (E) in
/-- The encodings of the nodes of a trie, in pre-order. -/
def nodeEncodings : Trie → List Bytes
  | ext p c => rlp E (ext p c) :: nodeEncodings c
  | branch c => rlp E (branch c) ::
      ((List.finRange 16).map fun i => if (c i).isNull then [] else nodeEncodings (c i)).flatten
  | t => [rlp E t]

theorem mem_nodeEncodings_self (t : Trie) : rlp E t ∈ nodeEncodings E t := by
  cases t <;> simp [nodeEncodings]

/-- The encoding of a child is one of the encodings. -/
theorem nodeEncodings_child {c : Nibble → Trie} {i : Nibble} (hi : c i ≠ null) :
    ∀ b ∈ nodeEncodings E (c i), b ∈ nodeEncodings E (branch c) := by
  intro b hb
  refine List.mem_cons_of_mem _ (List.mem_flatten.mpr ⟨nodeEncodings E (c i), ?_, hb⟩)
  refine List.mem_map.mpr ⟨i, List.mem_finRange i, ?_⟩
  rw [isNull_eq_false.mpr hi]
  rfl

theorem payloadsInternal_spec : ∀ {fuel : Nat} {t : Trie}, depth t ≤ fuel →
    ∀ id m, Reads E m t id →
      ∃ m', payloadsInternal E fuel id m = (.ok (nodeEncodings E t), m') ∧ Fills E m m' := by
  intro fuel
  induction fuel with
  | zero =>
    intro t ht
    exact absurd (depth_pos t) (by omega)
  | succ fuel ih =>
    intro t ht id m h
    have hcomp := below_of_depth (fun t => calcReference_spec (E := E) (t := t)) ht
    have hbelow := below_of_depth (fun t => ih (t := t)) ht
    obtain ⟨m₁, h₁, hf₁⟩ := payloadLength_spec hcomp h
    obtain ⟨m₂, h₂, hf₂⟩ := encodeWithPayloadLen_spec hcomp (h.fills hf₁)
    have hf := hf₁.trans hf₂
    have hread := h.fills hf
    suffices hrest : ∃ m', (do
        match ← nodeAt id with
        | .branch nodes =>
          let children ← Exec.collect
            (fun i => match nodes i with
              | some child => payloadsInternal E fuel child
              | none => pure []) (List.finRange 16)
          pure (rlp E t :: children.flatten)
        | .extension _ child =>
          let rest ← payloadsInternal E fuel child
          pure (rlp E t :: rest)
        | _ => pure [rlp E t] : TrieM (List Bytes)) m₂ = (.ok (nodeEncodings E t), m') ∧
          Fills E m₂ m' by
      obtain ⟨m₃, h₃, hf₃⟩ := hrest
      refine ⟨m₃, ?_, hf.trans hf₃⟩
      unfold payloadsInternal
      exact (Exec.bind_ok h₁).trans ((Exec.bind_ok h₂).trans h₃)
    cases t with
    | branch c =>
      obtain ⟨r, ids, hc, _, hl⟩ := hread
      obtain ⟨m₃, h₃, hf₃⟩ := collect_slots (f := payloadsInternal E fuel) (a := [])
        (g := fun t => if t.isNull then [] else nodeEncodings E t) rfl hl (fun i j m' hne h' => by
          simp only [isNull_eq_false.mpr hne]
          exact hbelow i hne j m' h')
      refine ⟨m₃, ?_, hf₃⟩
      rw [Exec.bind_ok (nodeAt_ok hc)]
      exact Exec.bind_ok h₃
    | ext p c =>
      obtain ⟨r, j, hc, _, hl⟩ := hread
      obtain ⟨m₃, h₃, hf₃⟩ := hbelow j m₂ hl
      refine ⟨m₃, ?_, hf₃⟩
      rw [Exec.bind_ok (nodeAt_ok hc)]
      exact Exec.bind_ok h₃
    | _ =>
      obtain ⟨r, hc, _⟩ := hread
      exact ⟨m₂, by rw [Exec.bind_ok (nodeAt_ok hc)]; rfl, Fills.refl m₂⟩

theorem payloads_spec {m : Mpt} {t : Trie} (h : Represents E m t) :
    (payloads E m).1 = .ok (nodeEncodings E t) := by
  obtain ⟨m', hm', _⟩ := payloadsInternal_spec h.depth_le m.rootId m (Rep.reads h)
  unfold payloads
  rw [Exec.bind_ok (Exec.read_apply _ m), withStack_apply, hm']

/-! ## The store -/

theorem nodeStore_eq {payloads : List Bytes} (h : NoCollision E payloads) {b : Bytes}
    (hb : b ∈ payloads) : nodeStore E payloads (E.keccak256 b) = some b := by
  unfold nodeStore
  cases hf : payloads.reverse.find? fun payload => E.keccak256 payload = E.keccak256 b with
  | none =>
    have := List.find?_eq_none.mp hf b (by simpa using hb)
    simp at this
  | some b' =>
    have hmem := List.mem_of_find?_eq_some hf
    have hkey := List.find?_some hf
    simp only [decide_eq_true_eq] at hkey
    rw [h b' (by simpa using hmem) b hb hkey]

/-! ## Resolution -/

/-- The store has every node of the trie. -/
def Covers (E : Env) (store : B256 → Option Bytes) (t : Trie) : Prop :=
  ∀ b ∈ nodeEncodings E t, store (E.keccak256 b) = some b

/-- `read` builds the trie, and returns the null node for the empty one. -/
def Builds (E : Env) (read : TrieM NodeId) (t : Trie) : Prop :=
  ∀ m, Based m → ∃ id m', read m = (.ok id, m') ∧ Extends m m' ∧
    ((t = null ∧ id = nullNodeId) ∨
      t ≠ null ∧ id ≠ nullNodeId ∧ Reads E m' t id ∧ m.size + depth t ≤ m'.size)

theorem based_size {m : Mpt} (h : Based m) : 0 < m.size := lt_size h

/-- The children of a branch. -/
theorem collect_builds {child : Bytes → TrieM NodeId} : ∀ (l : List Trie) (m : Mpt), Based m →
    (∀ c ∈ l, Builds E (child (encodeRef (ref E c))) c) →
    ∃ ids m', Exec.collect child (l.map fun c => encodeRef (ref E c)) m = (.ok ids, m') ∧
      Extends m m' ∧ List.Forall₂ (SlotHolds E m') l (ids.map childId) ∧
      ∀ c ∈ l, c ≠ null → m.size + depth c ≤ m'.size
  | [], m, _, _ => ⟨[], m, rfl, List.prefix_rfl, .nil, by simp⟩
  | c :: l, m, hb, h => by
    obtain ⟨id, m₁, h₁, he₁, hid⟩ := h c (by simp) m hb
    obtain ⟨ids, m₂, h₂, he₂, hs, hd⟩ := collect_builds l m₁ (hb.extends he₁)
      fun x hx => h x (by simp [hx])
    refine ⟨id :: ids, m₂, ?_, he₁.trans he₂, .cons ?_ hs, fun x hx hne => ?_⟩
    · rw [List.map_cons, Exec.collect, Exec.bind_ok h₁, Exec.bind_ok h₂]
      rfl
    · rcases hid with ⟨hn, rfl⟩ | ⟨hn, hid, hr, _⟩
      · exact .inl ⟨rfl, hn⟩
      · exact .inr ⟨id, by simp [childId, hid], hn, hr.extends he₂⟩
    · have hle₁ := he₁.size_le
      have hle₂ := he₂.size_le
      rcases List.mem_cons.mp hx with rfl | hx'
      · rcases hid with ⟨hn, _⟩ | ⟨_, _, _, hd'⟩
        · exact absurd hn hne
        · omega
      · have := hd x hx' hne
        omega

/-- A pushed node has an index of its own. -/
theorem push_builds {m m' : Mpt} (hb : Based m) (he : Extends m m') : m'.size ≠ nullNodeId := by
  have := based_size (hb.extends he)
  exact Nat.ne_of_gt this

/-- One node, with its children read by `child`. -/
theorem decodeNode_builds (hinv : Inverse E.decodeHeader) {child digest : Bytes → TrieM NodeId}
    {t : Trie} (hn : t.Normal) (hr : ∀ d, t ≠ Radix.digest d) (he : Encodable E t)
    (hchild : Below (fun c => Builds E (child (encodeRef (ref E c))) c) t)
    (hnull : 2 ≤ depth t → ∀ m, child (encodeRef (ref E null)) m = (.ok nullNodeId, m)) :
    Builds E (decodeNode E child digest (rlp E t)) t := by
  intro m hb
  cases t with
  | null => exact ⟨nullNodeId, m, decodeNode_null hinv m, List.prefix_rfl, .inl ⟨rfl, rfl⟩⟩
  | hole => exact hn.elim
  | digest d => exact absurd rfl (hr d)
  | leaf p v =>
    refine ⟨m.size, _, decodeNode_leaf hinv he m, extends_push m _,
      .inr ⟨by simp, push_builds hb List.prefix_rfl, ⟨none, cells_push_self m _, .inl rfl⟩, ?_⟩⟩
    simp [depth]
  | ext p c =>
    have hc : c ≠ null := by
      rintro rfl
      exact hn.2.1
    obtain ⟨id, m₁, h₁, he₁, hid⟩ := hchild m hb
    obtain ⟨_, hid, hread, hd⟩ := hid.resolve_left fun h => hc h.1
    refine ⟨m₁.size, _, decodeNode_ext hinv he h₁, he₁.trans (extends_push m₁ _),
      .inr ⟨by simp, push_builds hb he₁,
        ⟨none, id, cells_push_self m₁ _, .inl rfl, hread.extends (extends_push m₁ _)⟩, ?_⟩⟩
    simp only [depth, size_push]
    omega
  | branch c =>
    have hdeep : 2 ≤ depth (branch c) := by
      obtain ⟨i, _, _, hi, _⟩ := exists_two_of_le hn.1
      have hlt := depth_child_lt hi
      have hpos := depth_pos (c i)
      omega
    have hall : ∀ x ∈ (List.finRange 16).map c, Builds E (child (encodeRef (ref E x))) x := by
      intro x hx
      obtain ⟨i, _, rfl⟩ := List.mem_map.mp hx
      by_cases hi : c i = null
      · rw [hi]
        exact fun m' _ => ⟨nullNodeId, m', hnull hdeep m', List.prefix_rfl, .inl ⟨rfl, rfl⟩⟩
      · exact hchild i hi
    obtain ⟨ids, m₁, h₁, he₁, hs, hd⟩ := collect_builds ((List.finRange 16).map c) m hb hall
    rw [List.map_map] at h₁
    have hrun := @decodeNode_branch E _ digest hinv c he m m₁ ids h₁
    refine ⟨m₁.size, _, hrun, he₁.trans (extends_push m₁ _),
      .inr ⟨by simp, push_builds hb he₁, ?_, ?_⟩⟩
    · refine @reads_branch E _ _ c (ids.map childId) none
        (hs.imp fun _ _ hs => hs.extends (extends_push m₁ _)) (.inl rfl) ?_
      simp only [List.getElem?_map]
      exact cells_push_self m₁ _
    · have hdepth := depth_branch_le (c := c) (n := m₁.size - m.size) fun i hi => by
        have := hd (c i) (List.mem_map_of_mem (List.mem_finRange i)) hi
        omega
      have hle := he₁.size_le
      rw [size_push]
      omega

/-- A node is found under its reference, or under its digest. -/
theorem resolveInternal_builds (hinv : Inverse E.decodeHeader) {store : B256 → Option Bytes} :
    ∀ {t : Trie}, t.Normal → t.Resolved → Encodable E t → Covers E store t → ∀ {fuel : Nat},
      (2 * depth t ≤ fuel + 1 → Builds E (resolveInternal E store fuel (rlp E t)) t) ∧
      (2 * depth t ≤ fuel → Builds E (resolveInternal E store fuel (encodeRef (ref E t))) t) := by
  intro t
  induction hd : depth t using Nat.strong_induction_on generalizing t with
  | _ n ih =>
    intro hn hr he hs
    have hpos := depth_pos t
    -- the node itself, with its children by induction
    have hself : ∀ {fuel : Nat}, 2 * n ≤ fuel + 1 →
        Builds E (resolveInternal E store fuel (rlp E t)) t := by
      intro fuel hfuel
      cases fuel with
      | zero => omega
      | succ fuel =>
        unfold resolveInternal
        refine decodeNode_builds hinv hn (fun d h => by rw [h] at hr; exact hr) he ?_ ?_
        · cases t with
          | ext p c =>
            have hlt : depth c < n := by
              rw [← hd]
              exact Nat.lt_succ_self _
            exact (ih (depth c) hlt rfl hn.2.2 hr he.2
              fun b hb => hs b (List.mem_cons_of_mem _ hb)).2 (by omega)
          | branch c =>
            intro i hi
            have hlt : depth (c i) < n := hd ▸ depth_child_lt hi
            exact (ih (depth (c i)) hlt rfl (hn.2 i) (hr i) (he i).2
              fun b hb => hs b (nodeEncodings_child hi b hb)).2 (by omega)
          | _ => trivial
        · intro hdeep m
          cases fuel with
          | zero => omega
          | succ fuel => exact decodeNode_null hinv m
    intro fuel
    refine ⟨hself, fun hfuel => ?_⟩
    rcases ref_cases (E := E) t with ⟨d, hd'⟩ | (rfl | rfl) | ⟨hl, _, hr'⟩
    · -- a digest: one step through the store
      have hl : isList t := by
        rcases node_cases t with rfl | rfl | ⟨d', rfl⟩ | hl
        · simp at hd'
        · simp at hd'
        · exact hr.elim
        · exact hl
      have hkey : store d = some (rlp E t) := by
        have hlong : ¬ (rlp E t).length < 32 := by
          intro hlt
          rw [ref_of_isList hl, if_pos hlt] at hd'
          simp at hd'
        rw [ref_of_isList hl, if_neg hlong] at hd'
        rw [← B256.ext (NodeRef.digest.inj hd')]
        exact hs _ (mem_nodeEncodings_self t)
      cases fuel with
      | zero => omega
      | succ fuel =>
        intro m hb
        rw [hd']
        unfold resolveInternal encodeRef
        rw [decodeNode_digest hinv, B256.fromSlice_bytes, orPanic_some]
        refine (Exec.bind_ok (Exec.pure_apply d m)) ▸ ?_
        rw [hkey]
        exact hself (by omega) m hb
    · exact hself (by omega)
    · exact hn.elim
    · rw [hr']
      exact hself (by omega)

theorem hash_eq_keccak (hempty : E.emptyRootHash = E.keccak256 [emptyStringCode]) {t : Trie}
    (hn : t.Normal) (hr : t.Resolved) : Trie.hash E t = E.keccak256 (rlp E t) := by
  rcases node_cases t with rfl | rfl | ⟨d, rfl⟩ | hl
  · exact hempty
  · exact hn.elim
  · exact hr.elim
  · exact hash_of_isList hl

/-- From the root hash the whole trie is built. -/
theorem resolve_legible (hinv : Inverse E.decodeHeader)
    (hempty : E.emptyRootHash = E.keccak256 [emptyStringCode]) {store : B256 → Option Bytes}
    {t : Trie} (hn : t.Normal) (hr : t.Resolved) (he : Encodable E t) (hs : Covers E store t)
    {fuel : Nat} (hfuel : 2 * depth t ≤ fuel) :
    ∃ m', resolve E store fuel (Trie.hash E t) = .ok m' ∧ Legible E m' t := by
  have hroot : store (Trie.hash E t) = some (rlp E t) := by
    rw [hash_eq_keccak hempty hn hr]
    exact hs _ (mem_nodeEncodings_self t)
  have hpos := depth_pos t
  obtain ⟨fuel, rfl⟩ : ∃ k, fuel = k + 1 := ⟨fuel - 1, by omega⟩
  obtain ⟨id, m', hm', hext, hid⟩ := (@resolveInternal_builds E hinv store t hn hr he hs fuel).1
    (by omega) new rfl
  have hrun : resolveInternal E store (fuel + 1)
      ((emptyStringCode + 32) :: (Trie.hash E t).bytes) new = (.ok id, m') := by
    unfold resolveInternal
    rw [decodeNode_digest hinv, B256.fromSlice_bytes, orPanic_some]
    refine (Exec.bind_ok (Exec.pure_apply (Trie.hash E t) new)).trans ?_
    rw [hroot]
    exact hm'
  have hkeep : Extends m' { m' with rootId := id } := List.prefix_rfl
  refine ⟨{ m' with rootId := id }, by unfold resolve; rw [hrun], ?_, ?_⟩
  · rcases hid with ⟨rfl, rfl⟩ | ⟨_, _, hread, _⟩
    · exact ⟨none, hext.cell rfl, .inl rfl⟩
    · exact hread.extends hkeep
  · show depth t ≤ m'.size
    rcases hid with ⟨rfl, _⟩ | ⟨_, _, _, hd⟩
    · exact hext.size_le
    · omega

/-- A trie is resolved from the store of its own payloads. -/
theorem resolve_payloads (hinv : Inverse E.decodeHeader)
    (hempty : E.emptyRootHash = E.keccak256 [emptyStringCode]) {m : Mpt} {t : Trie}
    (h : Represents E m t) (hn : t.Normal) (hr : t.Resolved) (he : Encodable E t)
    (hinj : ∀ ps, (payloads E m).1 = .ok ps → NoCollision E ps) :
    ∃ ps root, (payloads E m).1 = .ok ps ∧ (hash E m).1 = .ok root ∧
      ∃ n, ∀ fuel, n ≤ fuel → ∃ m', resolve E (nodeStore E ps) fuel root = .ok m' ∧
        (hash E m').1 = .ok root ∧
        (∀ id d r, Linked m' id → m'.cells[id]? ≠ some ⟨.digest d, r⟩) ∧
        ∀ key, (get key m').1 = (get key m).1 := by
  have hps := payloads_spec h
  obtain ⟨m₁, hroot, _⟩ := hash_represents h
  refine ⟨nodeEncodings E t, Trie.hash E t, hps, by rw [hroot], 2 * depth t, fun fuel hfuel => ?_⟩
  have hcovers : Covers E (nodeStore E (nodeEncodings E t)) t :=
    fun b hb => nodeStore_eq (hinj _ hps) hb
  obtain ⟨m', hm', hleg⟩ := resolve_legible hinv hempty hn hr he hcovers hfuel
  refine ⟨m', hm', ?_, fun id d r hlink hc => ?_, fun key => ?_⟩
  · obtain ⟨m₂, h₂, _⟩ := hash_spec hleg.1 hleg.2
    rw [h₂]
  · obtain ⟨s, hs, _, hres⟩ := hlink.reads hleg.1
    -- a digest node is read as a digest, and the trie has none
    cases s with
    | digest d' => exact hres hr
    | ext p c =>
      obtain ⟨r', j, hc', _⟩ := hs
      simp [hc] at hc'
    | branch c =>
      obtain ⟨r', ids, hc', _⟩ := hs
      simp [hc] at hc'
    | _ =>
      obtain ⟨r', hc', _⟩ := hs
      simp [hc] at hc'
  · have hget := hleg.get (Hp.keyNibs key)
    have hget' := h.legible.get (Hp.keyNibs key)
    rw [Hp.map_toByte_keyNibs] at hget hget'
    show (getNibbles (Hp.toNibs key) m').1 = (getNibbles (Hp.toNibs key) m).1
    rw [hget, hget']

/-- `keccak256` of the three nodes of `sampleTrie`, the inlined one included. -/
def storeEnv : Env := Env.ofTable
  [([0xe2, 0x32, 0xa0] ++ sampleValue, sampleDigest),
   ([0xc2, 0x33, 0x05],
    B256.ofNat 0xf68c7de3fb904a700d378d9aecaf23b883e8a27273fa034aae8a7470575c47e1),
   ([0xf3, 0x80, 0xa0] ++ sampleDigest.bytes ++ [0xc2, 0x33, 0x05] ++ List.replicate 14 0x80,
    B256.ofNat 0x31980b9445b2c3d2e25427ed0bbd4e1e9b697fe883d24e81347b92cf68bec01d)]

/-- A trie with an inlined leaf and with a value of 32 bytes. -/
theorem resolve_payloads_sample :
    ∃ ps root, (payloads storeEnv (sampleArena (.leaf (Hp.encode [2] true) sampleValue))).1 =
        .ok ps ∧
      (hash storeEnv (sampleArena (.leaf (Hp.encode [2] true) sampleValue))).1 = .ok root ∧
      ∃ n, ∀ fuel, n ≤ fuel → ∃ m', resolve storeEnv (nodeStore storeEnv ps) fuel root = .ok m' ∧
        (hash storeEnv m').1 = .ok root ∧
        (∀ id d r, Linked m' id → m'.cells[id]? ≠ some ⟨.digest d, r⟩) ∧
        ∀ key, (get key m').1 =
          (get key (sampleArena (.leaf (Hp.encode [2] true) sampleValue))).1 := by
  have hleaf : (payload storeEnv (leaf [3] [5])).length < 2 ^ 64 := by decide
  have hlong : (payload storeEnv (leaf [2] sampleValue)).length < 2 ^ 64 := by decide
  have hencodable : Encodable storeEnv sampleTrie :=
    fork_forall (Q := fun t => t ≠ hole ∧ Encodable storeEnv t) (by simp [Encodable])
      (t := leaf [2] sampleValue) (u := leaf [3] [5]) ⟨by simp, hlong⟩ ⟨by simp, hleaf⟩ 1 2
  have hrep : Represents storeEnv (sampleArena (.leaf (Hp.encode [2] true) sampleValue))
      sampleTrie :=
    represents_sampleArena (by simp) ⟨Finset.mem_singleton_self _, none, rfl, .inl rfl⟩
  refine resolve_payloads (E := storeEnv) inverse_decodeHeader (by decide) hrep
    isTrie_sampleTrie.normal isTrie_sampleTrie.resolved hencodable fun ps hps => ?_
  have hlist : (payloads storeEnv (sampleArena (.leaf (Hp.encode [2] true) sampleValue))).1 =
      .ok [[0xf3, 0x80, 0xa0] ++ sampleDigest.bytes ++ [0xc2, 0x33, 0x05] ++ List.replicate 14 0x80,
        [0xe2, 0x32, 0xa0] ++ sampleValue, [0xc2, 0x33, 0x05]] := by
    decide
  obtain rfl := Except.ok.inj (hlist.symm.trans hps)
  decide

end Mpt
end CenoReth
