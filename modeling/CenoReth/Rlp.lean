/-
Recursive length prefix encoding.

The encoder half is the standard encoding of strings and lists, as
`alloy_rlp::Header::encode`, `Encodable for [u8]` and `length_of_length` produce
it.  Lengths are those of a 64-bit target: a length takes at most eight bytes.
The decoder half is a parameter of the development, see `Mpt/Codec.lean`.
-/
import Mathlib.Algebra.GroupWithZero.Nat
import Mathlib.Data.List.Basic

namespace CenoReth

abbrev Bytes := List UInt8

/-- A 32-byte word. -/
structure B256 where
  bytes : Bytes
  length_bytes : bytes.length = 32
  deriving DecidableEq

theorem B256.ext {a b : B256} (h : a.bytes = b.bytes) : a = b := by
  cases a
  cases b
  cases h
  rfl

/-- `B256::from_slice`, which panics on a slice of another length. -/
def B256.fromSlice (b : Bytes) : Option B256 :=
  if h : b.length = 32 then some ⟨b, h⟩ else none

@[simp] theorem B256.fromSlice_bytes (d : B256) : B256.fromSlice d.bytes = some d := by
  simp [B256.fromSlice, d.length_bytes]

/-- The big-endian bytes of a number below `2 ^ 256`. -/
def B256.ofNat (n : Nat) : B256 where
  bytes := (List.range 32).map fun i => UInt8.ofNat (n / 256 ^ (31 - i))
  length_bytes := by simp

namespace Rlp

/-- `alloy_rlp::EMPTY_STRING_CODE`. -/
def emptyStringCode : UInt8 := 0x80

/-- `alloy_rlp::Header`. -/
structure Header where
  list : Bool
  payloadLength : Nat
  deriving DecidableEq, Repr

/-- The big-endian bytes of a length, without leading zeros. -/
def beBytes (n : Nat) : Bytes :=
  ((List.range 8).map fun i => UInt8.ofNat (n / 256 ^ (7 - i))).dropWhile (· == 0)

def Header.encode (h : Header) : Bytes :=
  if h.payloadLength < 56 then
    [(if h.list then 0xc0 else 0x80) + UInt8.ofNat h.payloadLength]
  else
    ((if h.list then 0xf7 else 0xb7) + UInt8.ofNat (beBytes h.payloadLength).length) ::
      beBytes h.payloadLength

/-- `alloy_rlp::length_of_length`: the size of a header. -/
def lengthOfLength (payloadLength : Nat) : Nat :=
  if payloadLength < 56 then 1 else 1 + (beBytes payloadLength).length

/-- A single byte below `0x80` is its own encoding. -/
def isSingle : Bytes → Bool
  | [b] => b < 0x80
  | _ => false

/-- `<[u8] as Encodable>::encode`. -/
def encodeString (b : Bytes) : Bytes :=
  if isSingle b then b else (Header.mk false b.length).encode ++ b

/-- `<[u8] as Encodable>::length`. -/
def stringLength (b : Bytes) : Nat :=
  if isSingle b then 1 else b.length + lengthOfLength b.length

/-- The encoding of a list whose items encode to `payload`. -/
def encodeList (payload : Bytes) : Bytes :=
  (Header.mk true payload.length).encode ++ payload

@[simp] theorem length_encode (h : Header) : h.encode.length = lengthOfLength h.payloadLength := by
  unfold Header.encode lengthOfLength
  split
  · rfl
  · rw [List.length_cons, Nat.add_comm]

theorem lengthOfLength_pos (n : Nat) : 0 < lengthOfLength n := by
  unfold lengthOfLength
  split <;> omega

theorem length_encodeString (b : Bytes) : (encodeString b).length = stringLength b := by
  unfold encodeString stringLength
  split
  · rename_i h
    rcases b with _ | ⟨x, _ | ⟨y, b⟩⟩ <;> simp_all [isSingle]
  · simp [Nat.add_comm]

theorem length_encodeList (payload : Bytes) :
    (encodeList payload).length = payload.length + lengthOfLength payload.length := by
  simp [encodeList, Nat.add_comm]

theorem isSingle_eq_false {b : Bytes} (h : b.length ≠ 1) : isSingle b = false := by
  rcases b with _ | ⟨x, _ | ⟨y, b⟩⟩ <;> simp_all [isSingle]

/-- A 32-byte word is encoded under a one-byte header. -/
theorem encodeString_word {b : Bytes} (h : b.length = 32) :
    encodeString b = (emptyStringCode + 32) :: b := by
  rw [encodeString, isSingle_eq_false (by omega), Header.encode]
  simp [h, emptyStringCode]

/-! ## Headers determine what follows -/

theorem length_beBytes_le (n : Nat) : (beBytes n).length ≤ 8 := by
  have h := (List.dropWhile_suffix (fun b : UInt8 => b == 0)
    (l := (List.range 8).map fun i => UInt8.ofNat (n / 256 ^ (7 - i)))).length_le
  simpa [beBytes] using h

/-- The number written by big-endian bytes. -/
def fromBe (b : Bytes) : Nat := b.foldl (fun acc x => acc * 256 + x.toNat) 0

theorem fromBe_dropWhile (b : Bytes) : fromBe (b.dropWhile (· == 0)) = fromBe b := by
  induction b with
  | nil => rfl
  | cons x b ih =>
    by_cases hx : x = 0
    · subst hx
      simpa [fromBe] using ih
    · simp [hx]

theorem fromBe_beBytes {n : Nat} (h : n < 2 ^ 64) : fromBe (beBytes n) = n := by
  rw [beBytes, fromBe_dropWhile]
  simp [fromBe, List.range, List.range.loop]
  omega

theorem beBytes_injective {n m : Nat} (hn : n < 2 ^ 64) (hm : m < 2 ^ 64)
    (h : beBytes n = beBytes m) : n = m := by
  rw [← fromBe_beBytes hn, h, fromBe_beBytes hm]

/-- The two forms of a header, with the value of its first byte. -/
theorem encode_cases (h : Header) :
    (∃ b, h.encode = [b] ∧ h.payloadLength < 56 ∧
      b.toNat = (if h.list then 0xc0 else 0x80) + h.payloadLength) ∨
    (∃ b, h.encode = b :: beBytes h.payloadLength ∧ 56 ≤ h.payloadLength ∧
      b.toNat = (if h.list then 0xf7 else 0xb7) + (beBytes h.payloadLength).length) := by
  have hlen := length_beBytes_le h.payloadLength
  unfold Header.encode
  by_cases hs : h.payloadLength < 56
  · refine .inl ⟨_, if_pos hs, hs, ?_⟩
    cases h.list <;> simp <;> omega
  · refine .inr ⟨_, if_neg hs, by omega, ?_⟩
    cases h.list <;> simp <;> omega

/-- The first byte tells where a header ends. -/
theorem encode_append_inj (h h' : Header) (hl : h.list = h'.list) {x y : Bytes}
    (heq : h.encode ++ x = h'.encode ++ y) : h.encode = h'.encode ∧ x = y := by
  have hlen : h.encode.length = h'.encode.length := by
    rcases encode_cases h with ⟨b, hb, hs, hv⟩ | ⟨b, hb, hs, hv⟩ <;>
      rcases encode_cases h' with ⟨b', hb', hs', hv'⟩ | ⟨b', hb', hs', hv'⟩ <;>
      rw [hb, hb', List.cons_append, List.cons_append] at heq <;>
      obtain ⟨rfl, _⟩ := List.cons.inj heq <;>
      rw [hl, hv'] at hv <;> rw [hb, hb'] <;> simp only [List.length_cons, List.length_nil]
    · split at hv <;> omega
    · split at hv <;> omega
    · split at hv <;> omega
  exact List.append_inj heq hlen

theorem encode_injective (h h' : Header) (hl : h.list = h'.list) (hs : h.payloadLength < 2 ^ 64)
    (hs' : h'.payloadLength < 2 ^ 64) (heq : h.encode = h'.encode) :
    h.payloadLength = h'.payloadLength := by
  have hnil : beBytes h.payloadLength = [] → h.payloadLength = 0 := by
    intro e
    rw [← fromBe_beBytes hs, e]
    rfl
  have hnil' : beBytes h'.payloadLength = [] → h'.payloadLength = 0 := by
    intro e
    rw [← fromBe_beBytes hs', e]
    rfl
  rcases encode_cases h with ⟨b, hb, hv, hn⟩ | ⟨b, hb, hv, hn⟩ <;>
    rcases encode_cases h' with ⟨b', hb', hv', hn'⟩ | ⟨b', hb', hv', hn'⟩ <;>
    rw [hb, hb'] at heq <;> obtain ⟨rfl, hrest⟩ := List.cons.inj heq
  · rw [hl] at hn
    omega
  · have := hnil' hrest.symm
    omega
  · have := hnil hrest
    omega
  · exact beBytes_injective hs hs' hrest

theorem encodeList_injective {a b : Bytes} (h : encodeList a = encodeList b) : a = b :=
  (encode_append_inj ⟨true, a.length⟩ ⟨true, b.length⟩ rfl h).2

/-- The first byte of a string tells a single byte from a header. -/
theorem encodeString_cases (a : Bytes) :
    (∃ x : UInt8, a = [x] ∧ encodeString a = [x] ∧ x.toNat < 0x80) ∨
      (encodeString a = (Header.mk false a.length).encode ++ a ∧ isSingle a = false) := by
  by_cases hs : isSingle a = true
  · rcases a with _ | ⟨x, _ | ⟨y, a⟩⟩
    · simp [isSingle] at hs
    · simp only [isSingle, decide_eq_true_eq] at hs
      exact .inl ⟨x, rfl, by simp [encodeString, isSingle, hs], hs⟩
    · simp [isSingle] at hs
  · exact .inr ⟨by simp [encodeString, hs], by simpa using hs⟩

theorem header_first_ge {h : Header} {x : UInt8} {rest a : Bytes} (hl : h.list = false)
    (heq : [x] ++ a = h.encode ++ rest) : 0x80 ≤ x.toNat := by
  rcases encode_cases h with ⟨b, hb, _, hv⟩ | ⟨b, hb, _, hv⟩ <;>
    rw [hb, List.cons_append, List.cons_append] at heq <;>
    obtain ⟨rfl, _⟩ := List.cons.inj heq <;> simp [hl] at hv <;> omega

/-- A string followed by anything determines the string. -/
theorem encodeString_append_inj {a b x y : Bytes} (ha : a.length < 2 ^ 64) (hb : b.length < 2 ^ 64)
    (h : encodeString a ++ x = encodeString b ++ y) : a = b ∧ x = y := by
  rcases encodeString_cases a with ⟨u, rfl, hu, hlt⟩ | ⟨ha', _⟩ <;>
    rcases encodeString_cases b with ⟨w, rfl, hw, hlt'⟩ | ⟨hb', _⟩
  · rw [hu, hw] at h
    simpa using h
  · rw [hu, hb', List.append_assoc] at h
    have := header_first_ge rfl h
    omega
  · rw [ha', hw, List.append_assoc] at h
    have := header_first_ge rfl h.symm
    omega
  · rw [ha', hb', List.append_assoc, List.append_assoc] at h
    obtain ⟨heq, hrest⟩ :=
      encode_append_inj ⟨false, a.length⟩ ⟨false, b.length⟩ rfl h
    exact List.append_inj hrest
      (encode_injective ⟨false, a.length⟩ ⟨false, b.length⟩ rfl ha hb heq)

/-! ## Items -/

/-- An encoded item: a string, or a list given by its payload. -/
inductive Item where
  | str (b : Bytes)
  | list (payload : Bytes)

def Item.encode : Item → Bytes
  | .str b => encodeString b
  | .list payload => encodeList payload

/-- The length fits into a machine word. -/
def Item.Fits : Item → Prop
  | .str b => b.length < 2 ^ 64
  | .list payload => payload.length < 2 ^ 64

theorem encodeString_first {b : Bytes} {x : UInt8} {rest : Bytes}
    (h : encodeString b = x :: rest) : x.toNat < 0xc0 := by
  rcases encodeString_cases b with ⟨u, rfl, hu, hlt⟩ | ⟨hb, _⟩
  · obtain ⟨rfl, _⟩ := List.cons.inj (hu.symm.trans h)
    omega
  · have hle := length_beBytes_le b.length
    rw [hb] at h
    rcases encode_cases ⟨false, b.length⟩ with ⟨y, hy, hs, hv⟩ | ⟨y, hy, hs, hv⟩ <;>
      rw [hy, List.cons_append] at h <;> obtain ⟨rfl, _⟩ := List.cons.inj h <;>
      simp at hv hs <;> omega

theorem encodeList_first (payload : Bytes) :
    ∃ x rest, encodeList payload = x :: rest ∧ 0xc0 ≤ x.toNat := by
  unfold encodeList
  rcases encode_cases ⟨true, payload.length⟩ with ⟨y, hy, hs, hv⟩ | ⟨y, hy, hs, hv⟩
  · exact ⟨y, payload, by rw [hy]; rfl, by simp at hv; omega⟩
  · exact ⟨y, _, by rw [hy, List.cons_append], by simp at hv; omega⟩

theorem encodeString_ne_nil (b : Bytes) : encodeString b ≠ [] := by
  rcases encodeString_cases b with ⟨u, rfl, hu, _⟩ | ⟨hb, _⟩
  · simp [hu]
  · rw [hb]
    rcases encode_cases ⟨false, b.length⟩ with ⟨y, hy, _⟩ | ⟨y, hy, _⟩ <;> simp [hy]

theorem Item.encode_ne_nil (a : Item) : a.encode ≠ [] := by
  cases a with
  | str b => exact encodeString_ne_nil b
  | list payload =>
    obtain ⟨x, rest, h, _⟩ := encodeList_first payload
    simp [Item.encode, h]

/-- A string and a list do not start with the same byte. -/
theorem encodeString_append_ne {b payload x y : Bytes} :
    encodeString b ++ x ≠ encodeList payload ++ y := by
  intro h
  obtain ⟨u, rest, hu⟩ := List.exists_cons_of_ne_nil (encodeString_ne_nil b)
  obtain ⟨w, rest', hw, hge⟩ := encodeList_first payload
  have hlt := encodeString_first hu
  rw [hu, hw, List.cons_append, List.cons_append] at h
  obtain ⟨rfl, _⟩ := List.cons.inj h
  omega

theorem Item.encode_append_inj {a b : Item} {x y : Bytes} (ha : a.Fits) (hb : b.Fits)
    (h : a.encode ++ x = b.encode ++ y) : a = b ∧ x = y := by
  cases a with
  | str a =>
    cases b with
    | str b =>
      obtain ⟨rfl, hxy⟩ := encodeString_append_inj ha hb h
      exact ⟨rfl, hxy⟩
    | list b => exact absurd h encodeString_append_ne
  | list a =>
    cases b with
    | str b => exact absurd h.symm encodeString_append_ne
    | list b =>
      simp only [Item.encode, encodeList, List.append_assoc] at h
      obtain ⟨heq, hrest⟩ :=
        Rlp.encode_append_inj ⟨true, a.length⟩ ⟨true, b.length⟩ rfl h
      have hlen := encode_injective ⟨true, a.length⟩ ⟨true, b.length⟩ rfl ha hb heq
      obtain ⟨rfl, hxy⟩ := List.append_inj hrest hlen
      exact ⟨rfl, hxy⟩

/-- The items of a list are determined by its payload. -/
theorem items_injective : ∀ {l l' : List Item}, (∀ a ∈ l, a.Fits) → (∀ a ∈ l', a.Fits) →
    (l.map Item.encode).flatten = (l'.map Item.encode).flatten → l = l'
  | [], [], _, _, _ => rfl
  | [], b :: l', _, _, h => by
    have := Item.encode_ne_nil b
    simp_all
  | a :: l, [], _, _, h => by
    have := Item.encode_ne_nil a
    simp_all
  | a :: l, b :: l', hl, hl', h => by
    simp only [List.map_cons, List.flatten_cons] at h
    obtain ⟨rfl, hrest⟩ := Item.encode_append_inj (hl a (by simp)) (hl' b (by simp)) h
    rw [items_injective (fun x hx => hl x (by simp [hx])) (fun x hx => hl' x (by simp [hx])) hrest]

/-! ## Reading headers -/

/-- The errors of `alloy_rlp`. -/
inductive RlpError where
  | overflow
  | leadingZero
  | inputTooShort
  | nonCanonicalSingleByte
  | nonCanonicalSize
  | unexpectedLength
  | unexpectedString
  | unexpectedList
  | listLengthMismatch (expected got : Nat)
  | custom (message : String)
  deriving DecidableEq, Repr

/-- The item has to be complete. -/
def finishHeader (h : Header) (rest : Bytes) : Except RlpError (Header × Bytes) :=
  if rest.length < h.payloadLength then .error .inputTooShort else .ok (h, rest)

/-- A header whose length is written in `n` bytes. -/
def longHeader (list : Bool) (n : Nat) (rest : Bytes) : Except RlpError (Header × Bytes) :=
  if rest.length < n then .error .inputTooShort
  else if (rest.take n).head? = some 0 then .error .leadingZero
  else if fromBe (rest.take n) < 56 then .error .nonCanonicalSize
  else finishHeader ⟨list, fromBe (rest.take n)⟩ (rest.drop n)

/-- The header of the first item, and what follows it.  A single byte is its own item and
has no header. -/
def decodeHeader : Bytes → Except RlpError (Header × Bytes)
  | [] => .error .inputTooShort
  | b :: rest =>
    if b.toNat < 0x80 then finishHeader ⟨false, 1⟩ (b :: rest)
    else if b.toNat < 0xb8 then
      if b.toNat = 0x81 ∧ (rest.head?.any fun x => x.toNat < 0x80) then
        .error .nonCanonicalSingleByte
      else finishHeader ⟨false, b.toNat - 0x80⟩ rest
    else if b.toNat < 0xc0 then longHeader false (b.toNat - 0xb7) rest
    else if b.toNat < 0xf8 then finishHeader ⟨true, b.toNat - 0xc0⟩ rest
    else longHeader true (b.toNat - 0xf7) rest

/-- Reading a header consumes it from the front, the item is complete, and what follows the
item is not looked at. -/
def PrefixConsuming (decode : Bytes → Except RlpError (Header × Bytes)) : Prop :=
  ∀ buf h rest, decode buf = .ok (h, rest) → h.payloadLength ≤ rest.length ∧
    ∃ head, buf = head ++ rest ∧ ∀ tail,
      decode (head ++ rest.take h.payloadLength ++ tail) =
        .ok (h, rest.take h.payloadLength ++ tail)

/-- Encoded items are read back. -/
structure Inverse (decode : Bytes → Except RlpError (Header × Bytes)) : Prop where
  string : ∀ b rest, b.length < 2 ^ 64 →
    decode (encodeString b ++ rest) = .ok (⟨false, b.length⟩, b ++ rest)
  list : ∀ payload rest, payload.length < 2 ^ 64 →
    decode (encodeList payload ++ rest) = .ok (⟨true, payload.length⟩, payload ++ rest)

theorem beBytes_head {n : Nat} : (beBytes n).head? ≠ some 0 := by
  intro h
  have hnot := List.head?_dropWhile_not (fun b : UInt8 => b == 0)
    ((List.range 8).map fun i => UInt8.ofNat (n / 256 ^ (7 - i)))
  rw [← beBytes, h] at hnot
  simp at hnot

theorem finishHeader_ok {h : Header} {rest : Bytes} (hlen : h.payloadLength ≤ rest.length) :
    finishHeader h rest = .ok (h, rest) := if_neg (by omega)

theorem longHeader_ok {list : Bool} {n : Nat} {rest : Bytes} (hn : n < 2 ^ 64) (hge : 56 ≤ n)
    (hlen : n ≤ rest.length) :
    longHeader list (beBytes n).length (beBytes n ++ rest) = .ok (⟨list, n⟩, rest) := by
  unfold longHeader
  rw [if_neg (by simp), List.take_left, List.drop_left, if_neg beBytes_head, fromBe_beBytes hn,
    if_neg (by omega), finishHeader_ok hlen]

theorem decodeHeader_header (h : Header) (rest : Bytes) (hs : h.payloadLength < 2 ^ 64)
    (hlen : h.payloadLength ≤ rest.length)
    (hone : h.list = false → h.payloadLength = 1 → ∀ x, rest.head? = some x → 0x80 ≤ x.toNat) :
    decodeHeader (h.encode ++ rest) = .ok (h, rest) := by
  rcases encode_cases h with ⟨b, hb, hv, hn⟩ | ⟨b, hb, hv, hn⟩
  · rw [hb, List.singleton_append, decodeHeader]
    obtain ⟨list, len⟩ := h
    cases list with
    | false =>
      simp only [Bool.false_eq_true, if_false] at hn hv hlen hone
      have hsingle : ¬ (b.toNat = 0x81 ∧ (rest.head?.any fun x => x.toNat < 0x80)) := by
        rintro ⟨h1, h2⟩
        cases hr : rest.head? with
        | none => simp [hr] at h2
        | some x =>
          have hx := hone trivial (by omega) x hr
          simp only [hr, Option.any_some, decide_eq_true_eq] at h2
          omega
      rw [if_neg (by omega), if_pos (by omega), if_neg hsingle, hn, Nat.add_sub_cancel_left,
        finishHeader_ok hlen]
    | true =>
      simp only [if_true] at hn hv hlen
      rw [if_neg (by omega), if_neg (by omega), if_neg (by omega), if_pos (by omega), hn,
        Nat.add_sub_cancel_left, finishHeader_ok hlen]
  · have hle := length_beBytes_le h.payloadLength
    have hpos : 0 < (beBytes h.payloadLength).length := by
      rw [List.length_pos_iff]
      intro e
      have := fromBe_beBytes hs
      rw [e] at this
      simp only [fromBe, List.foldl_nil] at this
      omega
    rw [hb, List.cons_append, decodeHeader]
    obtain ⟨list, len⟩ := h
    cases list with
    | false =>
      simp only [Bool.false_eq_true, if_false] at hn hv hlen hs hle hpos
      rw [if_neg (by omega), if_neg (by omega), if_pos (by omega), hn, Nat.add_sub_cancel_left,
        longHeader_ok hs hv hlen]
    | true =>
      simp only [if_true] at hn hv hlen hs hle hpos
      rw [if_neg (by omega), if_neg (by omega), if_neg (by omega), if_neg (by omega), hn,
        Nat.add_sub_cancel_left, longHeader_ok hs hv hlen]

theorem inverse_decodeHeader : Inverse decodeHeader where
  string b rest hb := by
    rcases encodeString_cases b with ⟨x, rfl, hx, hlt⟩ | ⟨hb', hs⟩
    · rw [hx, List.singleton_append, decodeHeader, if_pos (by omega)]
      exact finishHeader_ok (by simp)
    · rw [hb', List.append_assoc]
      refine decodeHeader_header ⟨false, b.length⟩ _ hb (by simp) fun _ h1 x hx => ?_
      obtain ⟨y, rfl⟩ := List.length_eq_one_iff.mp h1
      obtain rfl : y = x := by simpa using hx
      simp only [isSingle, decide_eq_false_iff_not] at hs
      exact Nat.le_of_not_lt hs
  list payload rest hb := by
    unfold encodeList
    rw [List.append_assoc]
    exact decodeHeader_header ⟨true, payload.length⟩ _ hb (by simp) (by simp)

theorem finishHeader_prefix {h h' : Header} {rest rest' : Bytes}
    (hf : finishHeader h rest = .ok (h', rest')) :
    h' = h ∧ rest' = rest ∧ h.payloadLength ≤ rest.length := by
  unfold finishHeader at hf
  split at hf
  · simp at hf
  · rename_i hlt
    simp only [Except.ok.injEq, Prod.mk.injEq] at hf
    exact ⟨hf.1.symm, hf.2.symm, by omega⟩

theorem longHeader_prefix {list : Bool} {n : Nat} {buf rest : Bytes} {h : Header}
    (hf : longHeader list n buf = .ok (h, rest)) :
    buf = buf.take n ++ rest ∧ h.payloadLength ≤ rest.length ∧
      ∀ rest', h.payloadLength ≤ rest'.length →
        longHeader list n (buf.take n ++ rest') = .ok (h, rest') := by
  unfold longHeader at hf
  split at hf
  · simp at hf
  · rename_i hn
    split at hf
    · simp at hf
    · rename_i hz
      split at hf
      · simp at hf
      · rename_i hsize
        obtain ⟨rfl, rfl, hlen⟩ := finishHeader_prefix hf
        refine ⟨(List.take_append_drop n buf).symm, hlen, fun rest' hlen' => ?_⟩
        have htake : (buf.take n ++ rest').take n = buf.take n := by
          rw [List.take_append_of_le_length (by simp; omega), List.take_take, Nat.min_self]
        have hdrop : (buf.take n ++ rest').drop n = rest' := by
          rw [List.drop_append_of_le_length (by simp; omega)]
          simp
        unfold longHeader
        rw [if_neg (by simp; omega), htake, hdrop, if_neg hz, if_neg hsize, finishHeader_ok hlen']

theorem length_take_append {n : Nat} {rest : Bytes} (h : n ≤ rest.length) (tail : Bytes) :
    n ≤ (rest.take n ++ tail).length := by
  rw [List.length_append, List.length_take]
  omega

theorem decodeHeader_emptyString (rest : Bytes) :
    decodeHeader (emptyStringCode :: rest) = .ok (⟨false, 0⟩, rest) :=
  inverse_decodeHeader.string [] rest (by simp)

theorem prefixConsuming_decodeHeader : PrefixConsuming decodeHeader := by
  intro buf h rest hd
  cases buf with
  | nil => simp [decodeHeader] at hd
  | cons b buf =>
    rw [decodeHeader] at hd
    by_cases h1 : b.toNat < 0x80
    · rw [if_pos h1] at hd
      obtain ⟨rfl, rfl, hlen⟩ := finishHeader_prefix hd
      refine ⟨hlen, [], rfl, fun tail => ?_⟩
      simp only [List.take_succ_cons, List.take_zero, List.nil_append, List.cons_append]
      rw [decodeHeader, if_pos h1]
      exact finishHeader_ok (by simp)
    · rw [if_neg h1] at hd
      by_cases h2 : b.toNat < 0xb8
      · rw [if_pos h2] at hd
        split at hd
        · simp at hd
        · rename_i hone
          obtain ⟨rfl, rfl, hlen⟩ := finishHeader_prefix hd
          refine ⟨hlen, [b], rfl, fun tail => ?_⟩
          simp only [List.cons_append, List.nil_append]
          rw [decodeHeader, if_neg h1, if_pos h2, if_neg ?_]
          · exact finishHeader_ok (length_take_append hlen tail)
          · rintro ⟨he, hany⟩
            refine hone ⟨he, ?_⟩
            simp only [he] at hany hlen
            cases rest with
            | nil => simp at hlen
            | cons x rest => simpa using hany
      · rw [if_neg h2] at hd
        by_cases h3 : b.toNat < 0xc0
        · rw [if_pos h3] at hd
          obtain ⟨hbuf, hlen, hlong⟩ := longHeader_prefix hd
          refine ⟨hlen, b :: buf.take (b.toNat - 0xb7), by rw [List.cons_append, ← hbuf],
            fun tail => ?_⟩
          rw [List.append_assoc, List.cons_append, decodeHeader, if_neg h1, if_neg h2, if_pos h3]
          exact hlong _ (length_take_append hlen tail)
        · rw [if_neg h3] at hd
          by_cases h4 : b.toNat < 0xf8
          · rw [if_pos h4] at hd
            obtain ⟨rfl, rfl, hlen⟩ := finishHeader_prefix hd
            refine ⟨hlen, [b], rfl, fun tail => ?_⟩
            simp only [List.cons_append, List.nil_append]
            rw [decodeHeader, if_neg h1, if_neg h2, if_neg h3, if_pos h4]
            exact finishHeader_ok (length_take_append hlen tail)
          · rw [if_neg h4] at hd
            obtain ⟨hbuf, hlen, hlong⟩ := longHeader_prefix hd
            refine ⟨hlen, b :: buf.take (b.toNat - 0xf7), by rw [List.cons_append, ← hbuf],
              fun tail => ?_⟩
            rw [List.append_assoc, List.cons_append, decodeHeader, if_neg h1, if_neg h2, if_neg h3,
              if_neg h4]
            exact hlong _ (length_take_append hlen tail)

end Rlp
end CenoReth
