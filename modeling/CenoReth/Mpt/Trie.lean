/-
The Merkle-Patricia commitment of a trie.

`Trie` is the compressed trie over sixteen digits whose opaque subtrees are
32-byte digests.  `rlp` is the encoding of its root node: a leaf is the pair of
its path and value, an extension the pair of its path and the reference of its
child, a branch the list of sixteen references and an empty value.  The
reference of a node is its encoding if that is shorter than 32 bytes, and the
keccak hash of it otherwise.  Nothing here depends on the arena.
-/
import CenoReth.Mpt.Arena
import CenoReth.Patricia.Canonical

namespace CenoReth

abbrev Trie := Patricia.Radix 16 Bytes B256

namespace Trie

open Patricia.Radix

variable (E : Env)

/-- The reference of a node with the given encoding. -/
def refOf : Trie → Bytes → NodeRef
  | null, _ => .bytes [Rlp.emptyStringCode]
  | hole, _ => .bytes [Rlp.emptyStringCode]
  | digest d, _ => .digest d.bytes
  | _, rlp => if rlp.length < 32 then .bytes rlp else .digest (E.keccak256 rlp).bytes

/-- The encoding of a node with the given payload. -/
def wrap : Trie → Bytes → Bytes
  | null, _ => [Rlp.emptyStringCode]
  | hole, _ => [Rlp.emptyStringCode]
  | digest d, _ => Rlp.encodeString d.bytes
  | _, payload => Rlp.encodeList payload

/-- How a reference is written into the parent. -/
def encodeRef : NodeRef → Bytes
  | .bytes b => b
  | .digest d => (Rlp.emptyStringCode + 32) :: d

/-- The items of a node, encoded and concatenated. -/
def payload : Trie → Bytes
  | null => []
  | hole => []
  | digest d => d.bytes
  | leaf p v => Rlp.encodeString (Hp.encode p true) ++ Rlp.encodeString v
  | ext p c => Rlp.encodeString (Hp.encode p false) ++ encodeRef (refOf E c (wrap c (payload c)))
  | branch c =>
    ((List.finRange 16).map fun i => encodeRef (refOf E (c i) (wrap (c i) (payload (c i))))).flatten
      ++ [Rlp.emptyStringCode]

/-- The encoding of the root node. -/
def rlp (t : Trie) : Bytes := wrap t (payload E t)

/-- The reference of the root node. -/
def ref (t : Trie) : NodeRef := refOf E t (rlp E t)

/-- The root hash. -/
def hash : Trie → B256
  | null => E.emptyRootHash
  | hole => E.emptyRootHash
  | digest d => d
  | t => E.keccak256 (rlp E t)

/-- The reference of a node is a digest. -/
def HashAddressed (t : Trie) : Prop := ∃ d, ref E t = .digest d

/-- The number of nodes on a longest path. -/
def depth : Trie → Nat
  | ext _ c => depth c + 1
  | branch c => (Finset.univ.sup fun i => if (c i).isNull then 0 else depth (c i)) + 1
  | _ => 1

variable {E}

@[simp] theorem ref_null : ref E null = .bytes [Rlp.emptyStringCode] := rfl

@[simp] theorem ref_hole : ref E hole = .bytes [Rlp.emptyStringCode] := rfl

@[simp] theorem ref_digest (d : B256) : ref E (digest d) = .digest d.bytes := rfl

theorem payload_ext (p : List Nibble) (c : Trie) :
    payload E (ext p c) = Rlp.encodeString (Hp.encode p false) ++ encodeRef (ref E c) := rfl

theorem payload_branch (c : Nibble → Trie) :
    payload E (branch c) =
      ((List.finRange 16).map fun i => encodeRef (ref E (c i))).flatten ++
        [Rlp.emptyStringCode] := rfl

/-- A list node: a leaf, an extension or a branch. -/
def isList : Trie → Prop
  | leaf _ _ => True
  | ext _ _ => True
  | branch _ => True
  | _ => False

theorem node_cases (t : Trie) : t = null ∨ t = hole ∨ (∃ d, t = digest d) ∨ isList t := by
  cases t <;> simp [isList]

theorem ref_of_isList {t : Trie} (h : isList t) :
    ref E t = if (rlp E t).length < 32 then .bytes (rlp E t)
      else .digest (E.keccak256 (rlp E t)).bytes := by
  cases t <;> simp_all [isList, ref, refOf]

theorem rlp_of_isList {t : Trie} (h : isList t) : rlp E t = Rlp.encodeList (payload E t) := by
  cases t <;> simp_all [isList, rlp, wrap]

theorem hash_of_isList {t : Trie} (h : isList t) : hash E t = E.keccak256 (rlp E t) := by
  cases t <;> simp_all [isList, hash]

/-- References of nodes depend on the references of their children. -/
theorem ref_ext_congr {c c' : Trie} (p : List Nibble) (h : ref E c = ref E c') :
    ref E (ext p c) = ref E (ext p c') := by
  simp only [ref_of_isList (t := ext p _) trivial, rlp_of_isList (t := ext p _) trivial,
    payload_ext, h]

theorem ref_branch_congr {c c' : Nibble → Trie} (h : ∀ i, ref E (c i) = ref E (c' i)) :
    ref E (branch c) = ref E (branch c') := by
  simp only [ref_of_isList (t := branch _) trivial, rlp_of_isList (t := branch _) trivial,
    payload_branch, h]

/-- The hash of a node, read off its reference. -/
theorem hash_of_ref {t : Trie} (hn : t ≠ null) (hh : t ≠ hole) :
    (∃ d : B256, ref E t = .digest d.bytes ∧ hash E t = d) ∨
      (∃ b, ref E t = .bytes b ∧ hash E t = E.keccak256 b) := by
  rcases node_cases t with rfl | rfl | ⟨d, rfl⟩ | hl
  · exact absurd rfl hn
  · exact absurd rfl hh
  · exact .inl ⟨d, rfl, rfl⟩
  · rw [ref_of_isList hl, hash_of_isList hl]
    split
    · exact .inr ⟨_, rfl, rfl⟩
    · exact .inl ⟨_, rfl, rfl⟩

/-- A reference is 32 bytes of hash or fewer bytes of encoding. -/
theorem ref_length (t : Trie) :
    (∃ d, ref E t = .digest d ∧ d.length = 32) ∨ (∃ b, ref E t = .bytes b ∧ b.length < 32) := by
  rcases node_cases t with rfl | rfl | ⟨d, rfl⟩ | hl
  · exact .inr ⟨_, rfl, by simp⟩
  · exact .inr ⟨_, rfl, by simp⟩
  · exact .inl ⟨_, rfl, d.length_bytes⟩
  · rw [ref_of_isList hl]
    split
    · rename_i h
      exact .inr ⟨_, rfl, h⟩
    · exact .inl ⟨_, rfl, B256.length_bytes _⟩

theorem depth_pos (t : Trie) : 0 < depth t := by
  cases t <;> simp [depth]

theorem depth_child_lt {c : Nibble → Trie} {i : Nibble} (h : c i ≠ null) :
    depth (c i) < depth (branch c) := by
  have hle := Finset.le_sup (f := fun i => if (c i).isNull then 0 else depth (c i))
    (Finset.mem_univ i)
  simp only [isNull_eq_false.mpr h, Bool.false_eq_true, if_false] at hle
  exact Nat.lt_succ_of_le hle

theorem depth_branch_le {c : Nibble → Trie} {n : Nat} (h : ∀ i, c i ≠ null → depth (c i) ≤ n) :
    depth (branch c) ≤ n + 1 := by
  refine Nat.succ_le_succ (Finset.sup_le fun i _ => ?_)
  by_cases hi : c i = null
  · simp [hi, isNull]
  · simp only [isNull_eq_false.mpr hi, Bool.false_eq_true, if_false]
    exact h i hi

end Trie
end CenoReth
