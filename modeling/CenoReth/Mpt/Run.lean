/-
Runs of operations on a trie.

A run is a list of calls made on one trie, starting from the empty one.  The
trie is meant to store the map that the insertions and deletions of the run
describe, and its root hash is meant to be a function of that map.  `stored` is
the map, read off the calls, and `root` is the Merkle-Patricia root, defined
from the map alone.
-/
import CenoReth.Mpt.Refine

namespace CenoReth
namespace Mpt

open Patricia Patricia.Radix

/-- A call on a trie. -/
inductive Op where
  | insert (key value : Bytes)
  | delete (key : Bytes)
  | get (key : Bytes)
  | hash
  | isEmpty

/-- What a call returns. -/
inductive Ret where
  | flag (b : Bool)
  | value (o : Option Bytes)
  | root (h : B256)

variable (E : Env)

def Op.run : Op → TrieM Ret
  | .insert key value => do return .flag (← Mpt.insert key value)
  | .delete key => do return .flag (← Mpt.delete key)
  | .get key => do return .value (← Mpt.get key)
  | .hash => do return .root (← Mpt.hash E)
  | .isEmpty => do return .flag (← Mpt.isEmpty)

/-- The key a call is about. -/
def Op.key : Op → Option Bytes
  | .insert key _ => some key
  | .delete key => some key
  | .get key => some key
  | _ => none

/-- What a call writes under a key: a value, nothing, or no change. -/
def Op.writes (key : Bytes) : Op → Option (Option Bytes)
  | .insert k v => if k = key then some (some v) else none
  | .delete k => if k = key then some none else none
  | _ => none

/-- The value of the last insertion under `key` that no deletion of `key` follows. -/
def stored (past : List Op) (key : Bytes) : Option Bytes :=
  (past.reverse.findSome? (Op.writes key)).getD none

/-- What a call has to return after the calls `past`.  The root hash is the subject of
`root`. -/
def Expected (past : List Op) : Op → Ret → Prop
  | .insert key v, .flag b => b = true ↔ stored past key ≠ some v
  | .delete key, .flag b => b = true ↔ stored past key ≠ none
  | .get key, .value o => o = stored past key
  | .hash, .root _ => True
  | .isEmpty, .flag b => b = true ↔ ∀ key, stored past key = none
  | _, _ => False

/-- Every key of the run has `n` bytes. -/
def KeyLength (n : Nat) (op : Op) : Prop := ∀ key, op.key = some key → key.length = n

/-- A map on byte strings as a map on their digits. -/
def onNibs (s : Bytes → Option Bytes) (nibs : List Nibble) : Option Bytes := s (Hp.bytesOf nibs)

/-- The Merkle-Patricia root of a map with keys of `n` bytes. -/
noncomputable def root (n : Nat) (s : Bytes → Option Bytes) : B256 :=
  Trie.hash E (yellowPaper (2 * n) (onNibs s))

/-! ## The map of a run -/

@[simp] theorem stored_nil (key : Bytes) : stored [] key = none := rfl

theorem stored_append (past : List Op) (op : Op) (key : Bytes) :
    stored (past ++ [op]) key = (op.writes key).getD (stored past key) := by
  unfold stored
  rw [List.reverse_append, List.reverse_singleton, List.singleton_append, List.findSome?_cons]
  cases op.writes key <;> rfl

theorem stored_insert (past : List Op) (key v : Bytes) :
    stored (past ++ [.insert key v]) = Function.update (stored past) key (some v) := by
  funext k
  rw [stored_append]
  by_cases h : key = k
  · subst h
    simp [Op.writes]
  · simp [Op.writes, h, Function.update_of_ne (Ne.symm h)]

theorem stored_delete (past : List Op) (key : Bytes) :
    stored (past ++ [.delete key]) = Function.update (stored past) key none := by
  funext k
  rw [stored_append]
  by_cases h : key = k
  · subst h
    simp [Op.writes]
  · simp [Op.writes, h, Function.update_of_ne (Ne.symm h)]

/-- Keys of another length are never stored. -/
theorem stored_eq_none {n : Nat} {past : List Op} (h : ∀ op ∈ past, KeyLength n op) {key : Bytes}
    (hk : key.length ≠ n) : stored past key = none := by
  induction past using List.reverseRecOn with
  | nil => rfl
  | append_singleton past op ih =>
    rw [stored_append, ih fun o ho => h o (by simp [ho])]
    have hop := h op (by simp)
    cases op with
    | insert k v =>
      have hne : k ≠ key := fun e => hk (e ▸ hop k rfl)
      simp [Op.writes, hne]
    | delete k =>
      have hne : k ≠ key := fun e => hk (e ▸ hop k rfl)
      simp [Op.writes, hne]
    | _ => rfl

/-- Binding a key of the map binds its digits. -/
theorem canonical_onNibs_update {n : Nat} (s : Bytes → Option Bytes) {key : Bytes}
    (o : Option Bytes) :
    (canonical (2 * n) (Function.update (onNibs s) (Hp.keyNibs key) o) : Trie) =
      canonical (2 * n) (onNibs (Function.update s key o)) := by
  refine canonical_congr _ fun nibs hn => ?_
  by_cases h : nibs = Hp.keyNibs key
  · subst h
    simp [onNibs]
  · have hne : Hp.bytesOf nibs ≠ key := by
      rintro rfl
      exact h (Hp.keyNibs_bytesOf (by omega)).symm
    simp [onNibs, Function.update_of_ne h, Function.update_of_ne hne]

/-! ## The invariant of a run -/

variable {E}

/-- The arena represents the canonical trie of the map the run describes. -/
def Holds (E : Env) (n : Nat) (past : List Op) (m : Mpt) : Prop :=
  Represents E m (canonical (2 * n) (onNibs (stored past)))

theorem holds_new (n : Nat) : Holds E n [] new := by
  have hnull : (canonical (2 * n) (onNibs (stored [])) : Trie) = null :=
    (canonical_eq_null _).mpr fun _ _ => rfl
  rw [Holds, hnull]
  exact represents_new

/-- Calls that write nothing keep the map. -/
theorem stored_read {past : List Op} {op : Op} (h : ∀ key, op.writes key = none) :
    stored (past ++ [op]) = stored past := by
  funext key
  rw [stored_append, h key]
  rfl

/-- One call: it returns what the map says, and the invariant is kept. -/
theorem Holds.step {n : Nat} {past : List Op} {m : Mpt} (h : Holds E n past m)
    (hpast : ∀ op ∈ past, KeyLength n op) {op : Op} (hop : KeyLength n op) :
    ∃ ret m', op.run E m = (.ok ret, m') ∧ Expected past op ret ∧ Holds E n (past ++ [op]) m' := by
  unfold Holds at h ⊢
  cases op with
  | insert key v =>
    have hlen : (Hp.keyNibs key).length = 2 * n := by rw [Hp.length_keyNibs, hop key rfl]
    obtain ⟨m', hm', hr⟩ := insertNibbles_spec h (insert_canonical (onNibs (stored past)) hlen v)
    rw [Hp.map_toByte_keyNibs] at hm'
    refine ⟨_, m', Exec.bind_ok hm', ?_, ?_⟩
    · simp [Expected, onNibs]
    · rw [stored_insert, ← canonical_onNibs_update]
      exact hr
  | delete key =>
    have hlen : (Hp.keyNibs key).length = 2 * n := by rw [Hp.length_keyNibs, hop key rfl]
    obtain ⟨m', hm', hr⟩ := deleteNibbles_spec h (delete_canonical (onNibs (stored past)) hlen)
    rw [Hp.map_toByte_keyNibs] at hm'
    refine ⟨_, m', Exec.bind_ok hm', ?_, ?_⟩
    · simp [Expected, onNibs, Option.isSome_iff_ne_none]
    · rw [stored_delete, ← canonical_onNibs_update]
      exact hr
  | get key =>
    have hlen : (Hp.keyNibs key).length = 2 * n := by rw [Hp.length_keyNibs, hop key rfl]
    have hget := getNibbles_spec h (Hp.keyNibs key)
    rw [Hp.map_toByte_keyNibs, get_canonical _ hlen] at hget
    refine ⟨_, m, Exec.bind_ok hget, ?_, ?_⟩
    · simp [Expected, onNibs]
    · rw [stored_read fun _ => rfl]
      exact h
  | hash =>
    obtain ⟨m', hm', hr⟩ := hash_represents h
    refine ⟨_, m', Exec.bind_ok hm', trivial, ?_⟩
    rw [stored_read fun _ => rfl]
    exact hr
  | isEmpty =>
    obtain ⟨b, hb, hiff⟩ := isEmpty_spec h
    refine ⟨_, m, Exec.bind_ok hb, ?_, ?_⟩
    · have hne : (canonical (2 * n) (onNibs (stored past)) : Trie) ≠ hole :=
        (normal_canonical _ _).ne_hole
      rw [Expected, hiff, or_iff_left hne, canonical_eq_null]
      constructor
      · intro hall key
        by_cases hk : key.length = n
        · simpa [onNibs] using hall (Hp.keyNibs key) (by simp [hk])
        · exact stored_eq_none hpast hk
      · exact fun hall nibs _ => hall _
    · rw [stored_read fun _ => rfl]
      exact h

/-- A whole run. -/
theorem Holds.run {n : Nat} : ∀ (ops : List Op) {past : List Op} {m : Mpt}, Holds E n past m →
    (∀ op ∈ past ++ ops, KeyLength n op) →
    ∃ rets m', Exec.collect (Op.run E) ops m = (.ok rets, m') ∧ Holds E n (past ++ ops) m'
  | [], past, m, h, _ => ⟨[], m, rfl, by simpa using h⟩
  | op :: ops, past, m, h, hlen => by
    obtain ⟨ret, m₁, h₁, _, hs₁⟩ := h.step (fun o ho => hlen o (by simp [ho]))
      (hlen op (by simp))
    obtain ⟨rets, m₂, h₂, hs₂⟩ := run ops hs₁ (by simpa using hlen)
    refine ⟨ret :: rets, m₂, ?_, by simpa using hs₂⟩
    rw [Exec.collect, Exec.bind_ok h₁, Exec.bind_ok h₂]
    rfl

/-- The calls `ops` on the empty trie all return, and the arena is `m` afterwards. -/
def Reaches (E : Env) (ops : List Op) (m : Mpt) : Prop :=
  ∃ rets, Exec.collect (Op.run E) ops new = (.ok rets, m)

theorem exists_reaches {n : Nat} {ops : List Op} (h : ∀ op ∈ ops, KeyLength n op) :
    ∃ m, Reaches E ops m ∧ Holds E n ops m := by
  obtain ⟨rets, m, hm, hs⟩ := (holds_new (E := E) n).run ops (by simpa using h)
  exact ⟨m, ⟨rets, hm⟩, by simpa using hs⟩

theorem Reaches.unique {ops : List Op} {m m' : Mpt} (h : Reaches E ops m) (h' : Reaches E ops m') :
    m = m' := by
  obtain ⟨rets, hm⟩ := h
  obtain ⟨rets', hm'⟩ := h'
  exact (Prod.ext_iff.mp (hm.symm.trans hm')).2

/-- The trie is a map.  After any calls with keys of one length, the next call returns
without an error what the map of the calls so far says, and the value of every other
key is as before. -/
theorem call_after_run (E : Env) {n : Nat} {past : List Op} (h : ∀ op ∈ past, KeyLength n op) :
    ∃ m, Reaches E past m ∧ ∀ op, KeyLength n op →
      ∃ ret m', op.run E m = (.ok ret, m') ∧ Expected past op ret ∧
        ∀ key, key.length = n → op.key ≠ some key →
          ∃ o, get key m = (.ok o, m) ∧ get key m' = (.ok o, m') := by
  obtain ⟨m, hm, hs⟩ := exists_reaches (E := E) h
  have hget : ∀ {past : List Op} {m : Mpt}, Holds E n past m → ∀ key : Bytes, key.length = n →
      get key m = (.ok (stored past key), m) := by
    intro past m hs key hk
    have hlen : (Hp.keyNibs key).length = 2 * n := by rw [Hp.length_keyNibs, hk]
    have hget := getNibbles_spec hs (Hp.keyNibs key)
    rw [Hp.map_toByte_keyNibs, get_canonical _ hlen, onNibs, Hp.bytesOf_keyNibs] at hget
    exact hget
  refine ⟨m, hm, fun op hop => ?_⟩
  obtain ⟨ret, m', hm', hret, hs'⟩ := hs.step h hop
  refine ⟨ret, m', hm', hret, fun key hk hne => ⟨stored past key, hget hs key hk, ?_⟩⟩
  have hwrites : op.writes key = none := by
    cases op with
    | insert k v =>
      have hkey : k ≠ key := fun e => hne (e ▸ rfl)
      simp [Op.writes, hkey]
    | delete k =>
      have hkey : k ≠ key := fun e => hne (e ▸ rfl)
      simp [Op.writes, hkey]
    | _ => rfl
  rw [hget hs' key hk, stored_append, hwrites]
  rfl

/-- A branch under an extension is built and taken down again. -/
def sampleRun : List Op :=
  [.insert [0x12] [1], .insert [0x13] [2], .hash, .delete [0x12], .get [0x13]]

/-- `keccak256` of the two root nodes of `sampleRun`. -/
def sampleRunEnv : Env := Env.ofTable
  [([0xd7, 0x11, 0xd5, 0x80, 0x80, 0xc2, 0x20, 0x01, 0xc2, 0x20, 0x02, 0x80, 0x80, 0x80, 0x80, 0x80,
      0x80, 0x80, 0x80, 0x80, 0x80, 0x80, 0x80, 0x80],
    B256.ofNat 0xdae54de006ac7a884c1ad28048d777274aba1e1e8f23b313a2b1b6305a3b1d74),
   ([0xc4, 0x82, 0x20, 0x13, 0x02],
    B256.ofNat 0x3b05c1f7147825098d732512dcdbac1e12524aa62f70981b8a9388f5728ed3f1)]

theorem sampleRun_keyLength : ∀ op ∈ sampleRun, KeyLength 1 op := by
  simp [sampleRun, KeyLength, Op.key]

theorem call_after_sampleRun : (∀ op ∈ sampleRun, KeyLength 1 op) ∧
    ∃ m, Reaches sampleRunEnv sampleRun m ∧ ∀ op, KeyLength 1 op →
      ∃ ret m', op.run sampleRunEnv m = (.ok ret, m') ∧ Expected sampleRun op ret ∧
        ∀ key, key.length = 1 → op.key ≠ some key →
          ∃ o, get key m = (.ok o, m) ∧ get key m' = (.ok o, m') :=
  ⟨sampleRun_keyLength, call_after_run sampleRunEnv sampleRun_keyLength⟩

/-- The root hash is a function of the map: after any calls with keys of one length it
is the Merkle-Patricia root of the map they describe. -/
theorem hash_after_run (E : Env) {n : Nat} {past : List Op} (h : ∀ op ∈ past, KeyLength n op) :
    (∃ m m', Reaches E past m ∧ hash E m = (.ok (root E n (stored past)), m')) ∧
      ∀ past', (∀ op ∈ past', KeyLength n op) → stored past' = stored past →
        ∀ m m', Reaches E past m → Reaches E past' m' → (hash E m).1 = (hash E m').1 := by
  have hroot : ∀ {past : List Op}, (∀ op ∈ past, KeyLength n op) →
      ∃ m m', Reaches E past m ∧ hash E m = (.ok (root E n (stored past)), m') := by
    intro past h
    obtain ⟨m, hm, hs⟩ := exists_reaches (E := E) h
    obtain ⟨m', hm', _⟩ := hash_represents hs
    refine ⟨m, m', hm, ?_⟩
    rw [root, yellowPaper_eq]
    exact hm'
  refine ⟨hroot h, fun past' h' hsame m m' hm hm' => ?_⟩
  obtain ⟨m₁, m₁', hr₁, hh₁⟩ := hroot h
  obtain ⟨m₂, m₂', hr₂, hh₂⟩ := hroot h'
  rw [hm.unique hr₁, hm'.unique hr₂, hh₁, hh₂, hsame]

theorem hash_after_sampleRun : (∀ op ∈ sampleRun, KeyLength 1 op) ∧
    (∃ m m', Reaches sampleRunEnv sampleRun m ∧
      hash sampleRunEnv m = (.ok (root sampleRunEnv 1 (stored sampleRun)), m')) ∧
    ∀ past', (∀ op ∈ past', KeyLength 1 op) → stored past' = stored sampleRun →
      ∀ m m', Reaches sampleRunEnv sampleRun m → Reaches sampleRunEnv past' m' →
        (hash sampleRunEnv m).1 = (hash sampleRunEnv m').1 :=
  ⟨sampleRun_keyLength, hash_after_run sampleRunEnv sampleRun_keyLength⟩

end Mpt
end CenoReth
