/-
RLP of integers and accounts.

Integers are written without leading zeros, and an account is the list of its
nonce, its balance, its storage root and its code hash.  `StateEnv.ofTable` has
these codecs, and a hash function that is known on finitely many inputs.
-/
import CenoReth.State.Eager
import Mathlib.Tactic.NormNum
import Mathlib.Tactic.Ring

namespace CenoReth
namespace Rlp

/-! ## Integers -/

theorem foldl_be (acc : Nat) (b : Bytes) :
    b.foldl (fun acc x => acc * 256 + x.toNat) acc = acc * 256 ^ b.length + fromBe b := by
  induction b generalizing acc with
  | nil => simp [fromBe]
  | cons y b ih =>
    have hcons : fromBe (y :: b) = (0 * 256 + y.toNat) * 256 ^ b.length + fromBe b := ih _
    rw [List.foldl_cons, ih, hcons, List.length_cons]
    ring

theorem fromBe_cons (x : UInt8) (b : Bytes) :
    fromBe (x :: b) = x.toNat * 256 ^ b.length + fromBe b := by
  have hcons : fromBe (x :: b) = (0 * 256 + x.toNat) * 256 ^ b.length + fromBe b := foldl_be _ b
  rw [hcons, Nat.zero_mul, Nat.zero_add]

/-- The last `k` digits of a number. -/
theorem fromBe_digits (n k : Nat) :
    fromBe ((List.range k).map fun i => UInt8.ofNat (n / 256 ^ (k - 1 - i))) = n % 256 ^ k := by
  induction k with
  | zero => simp [fromBe, Nat.mod_one]
  | succ k ih =>
    have htail : ((List.range (k + 1)).map fun i => UInt8.ofNat (n / 256 ^ (k + 1 - 1 - i))) =
        UInt8.ofNat (n / 256 ^ k) ::
          (List.range k).map fun i => UInt8.ofNat (n / 256 ^ (k - 1 - i)) := by
      rw [List.range_succ_eq_map, List.map_cons, List.map_map]
      congr 1
      refine List.map_congr_left fun i _ => ?_
      simp only [Function.comp_apply]
      rw [show k + 1 - 1 - Nat.succ i = k - 1 - i by omega]
    rw [htail, fromBe_cons, ih, Nat.pow_succ, Nat.mod_mul, List.length_map, List.length_range]
    simp only [UInt8.toNat_ofNat']
    rw [Nat.add_comm, Nat.mul_comm]

/-- The digits of an integer without leading zeros. -/
def uintBytes (n : Nat) : Bytes := (B256.ofNat n).bytes.dropWhile (· == 0)

theorem fromBe_uintBytes {n : Nat} (h : n < 2 ^ 256) : fromBe (uintBytes n) = n := by
  rw [uintBytes, fromBe_dropWhile]
  have hdigits := fromBe_digits n 32
  rw [Nat.mod_eq_of_lt (by rw [show 256 ^ 32 = 2 ^ 256 by norm_num]; exact h)] at hdigits
  exact hdigits

theorem length_uintBytes_le (n : Nat) : (uintBytes n).length ≤ 32 := by
  have h := (List.dropWhile_suffix (fun b : UInt8 => b == 0) (l := (B256.ofNat n).bytes)).length_le
  rwa [(B256.ofNat n).length_bytes] at h

theorem uintBytes_head (n : Nat) : (uintBytes n).head? ≠ some 0 := by
  intro h
  have hnot := List.head?_dropWhile_not (fun b : UInt8 => b == 0) (B256.ofNat n).bytes
  rw [← uintBytes, h] at hnot
  simp at hnot

/-- A string item, and what follows it. -/
def takeString (buf : Bytes) : Except RlpError (Bytes × Bytes) := do
  let (h, rest) ← decodeHeader buf
  if h.list then .error .unexpectedList
  else .ok (rest.take h.payloadLength, rest.drop h.payloadLength)

theorem takeString_encode {b : Bytes} (h : b.length < 2 ^ 64) (rest : Bytes) :
    takeString (encodeString b ++ rest) = .ok (b, rest) := by
  unfold takeString
  rw [inverse_decodeHeader.string b rest h]
  simp [Bind.bind, Except.bind]

/-- An integer below the given bound. -/
def takeUint (bound : Nat) (buf : Bytes) : Except RlpError (Nat × Bytes) := do
  let (b, rest) ← takeString buf
  if b.head? = some 0 then .error .leadingZero
  else if fromBe b < bound then .ok (fromBe b, rest)
  else .error .overflow

theorem takeUint_encode {n bound : Nat} (hn : n < 2 ^ 256) (hb : n < bound) (rest : Bytes) :
    takeUint bound (encodeString (uintBytes n) ++ rest) = .ok (n, rest) := by
  have hlen := length_uintBytes_le n
  unfold takeUint
  rw [takeString_encode (by omega) rest]
  simp [Bind.bind, Except.bind, uintBytes_head, fromBe_uintBytes hn, hb]

def takeWord (buf : Bytes) : Except RlpError (B256 × Bytes) := do
  let (b, rest) ← takeString buf
  match B256.fromSlice b with
  | some d => .ok (d, rest)
  | none => .error .unexpectedLength

theorem takeWord_encode (d : B256) (rest : Bytes) :
    takeWord (encodeString d.bytes ++ rest) = .ok (d, rest) := by
  have hlen := d.length_bytes
  unfold takeWord
  rw [takeString_encode (by omega) rest]
  simp [Bind.bind, Except.bind]

/-! ## Accounts -/

def encodeUint (n : U256) : Bytes := encodeString (uintBytes n.val)

def decodeUint (buf : Bytes) : Except RlpError U256 := do
  let (n, _) ← takeUint (2 ^ 256) buf
  .ok (Fin.ofNat _ n)

def encodeAccount (a : TrieAccount) : Bytes :=
  encodeList (encodeString (uintBytes a.nonce.toNat) ++ (encodeString (uintBytes a.balance.val) ++
    (encodeString a.storageRoot.bytes ++ (encodeString a.codeHash.bytes ++ []))))

def decodeAccount (buf : Bytes) : Except RlpError TrieAccount := do
  let (h, rest) ← decodeHeader buf
  if !h.list then .error .unexpectedString
  else
    let (nonce, rest) ← takeUint (2 ^ 64) (rest.take h.payloadLength)
    let (balance, rest) ← takeUint (2 ^ 256) rest
    let (storageRoot, rest) ← takeWord rest
    let (codeHash, rest) ← takeWord rest
    if rest = [] then
      .ok { nonce := UInt64.ofNat nonce
            balance := Fin.ofNat _ balance
            storageRoot := storageRoot
            codeHash := codeHash }
    else .error (.listLengthMismatch h.payloadLength (h.payloadLength - rest.length))

theorem length_encodeString_le (b : Bytes) : (encodeString b).length ≤ b.length + 9 := by
  have hb := length_beBytes_le b.length
  rw [length_encodeString, stringLength, lengthOfLength]
  split
  · omega
  · split <;> omega

/-- Four words with their headers. -/
theorem length_encodeUint_le (n : U256) : (encodeUint n).length ≤ 41 := by
  have h := length_encodeString_le (uintBytes n.val)
  have hn := length_uintBytes_le n.val
  unfold encodeUint
  omega

theorem length_accountFields_le (a : TrieAccount) :
    (encodeString (uintBytes a.nonce.toNat) ++ (encodeString (uintBytes a.balance.val) ++
      (encodeString a.storageRoot.bytes ++ (encodeString a.codeHash.bytes ++ [])))).length ≤ 164 := by
  have h₁ := length_encodeString_le (uintBytes a.nonce.toNat)
  have h₂ := length_encodeString_le (uintBytes a.balance.val)
  have h₃ := length_encodeString_le a.storageRoot.bytes
  have h₄ := length_encodeString_le a.codeHash.bytes
  have hn := length_uintBytes_le a.nonce.toNat
  have hb := length_uintBytes_le a.balance.val
  rw [a.storageRoot.length_bytes] at h₃
  rw [a.codeHash.length_bytes] at h₄
  simp only [List.length_append, List.length_nil]
  omega

theorem length_encodeAccount_le (a : TrieAccount) : (encodeAccount a).length ≤ 173 := by
  have hfields := length_accountFields_le a
  unfold encodeAccount
  rw [length_encodeList, lengthOfLength]
  have hb := length_beBytes_le (encodeString (uintBytes a.nonce.toNat) ++
    (encodeString (uintBytes a.balance.val) ++
      (encodeString a.storageRoot.bytes ++ (encodeString a.codeHash.bytes ++ [])))).length
  split <;> omega

theorem decodeAccount_encodeAccount (a : TrieAccount) :
    decodeAccount (encodeAccount a) = .ok a := by
  have hnonce : a.nonce.toNat < 2 ^ 64 := a.nonce.toNat_lt
  have hlen := (length_accountFields_le a).trans_lt (by norm_num : 164 < 2 ^ 64)
  unfold decodeAccount encodeAccount
  rw [← List.append_nil (encodeList _), inverse_decodeHeader.list _ _ hlen]
  simp only [Bind.bind, Except.bind, List.take_left, Bool.not_true, Bool.false_eq_true, if_false,
    takeUint_encode (hnonce.trans (by norm_num)) hnonce,
    takeUint_encode a.balance.isLt a.balance.isLt, takeWord_encode, if_true]
  simp

end Rlp

/-- An environment with the codecs of accounts and integers, whose hash function is known on
finitely many inputs. -/
def StateEnv.ofTable (table : List (Bytes × B256)) : StateEnv where
  toEnv := Env.ofTable table
  encodeAccount := Rlp.encodeAccount
  decodeAccount := Rlp.decodeAccount
  encodeU256 := Rlp.encodeUint
  decodeU256 := Rlp.decodeUint

end CenoReth
