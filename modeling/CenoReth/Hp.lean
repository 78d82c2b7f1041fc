/-
Hex-prefix paths and nibbles (`crates/mpt/src/hp.rs`).

Nibbles are bytes in the source, and every function here takes and returns
bytes.  Lookups compare an encoded path with the key in place, two indices at a
time, while updates decode the path first.  `matchNibs_eq` shows that the
in-place loop computes a comparison with the decoded path and never leaves its
slices, which is what makes the two agree.

The trie above works with digits `Fin 16`.  `toByte` embeds them, and every
decoded path is an image of it.
-/
import CenoReth.Rlp
import CenoReth.Patricia.Radix

namespace CenoReth

abbrev Nibble := Fin 16

/-- Numerals of nibbles have one instance everywhere. -/
instance neZero_sixteen : NeZero 16 := ⟨by decide⟩

def Nibble.toByte (n : Nibble) : UInt8 := UInt8.ofNat n.val

theorem Nibble.toByte_injective : Function.Injective Nibble.toByte := by
  intro a b
  revert a b
  decide

namespace Hp

/-- `HP_FLAG_ODD`: the path has an odd number of nibbles. -/
def hpFlagOdd : UInt8 := 0x10

/-- `HP_FLAG_LEAF`: the node is a leaf. -/
def hpFlagLeaf : UInt8 := 0x20

/-- The length of the common prefix of two slices. -/
def lcp : List UInt8 → List UInt8 → Nat
  | x :: a, y :: b => if x ≠ y then 0 else lcp a b + 1
  | _, _ => 0

/-- The nibbles of a byte slice, high nibble first. -/
def toNibs (slice : Bytes) : List UInt8 :=
  slice.flatMap fun byte : UInt8 => [byte >>> 4, byte &&& 0x0f]

def isOdd (firstByte : UInt8) : Bool := firstByte &&& hpFlagOdd ≠ 0

/-- The nibbles of an encoded path. -/
def prefixToNibs : Bytes → List UInt8
  | [] => []
  | firstByte :: rest =>
    (if isOdd firstByte then [firstByte &&& 0x0f] else []) ++ toNibs rest

/-- The number of nibbles of an encoded path. -/
def encodedPathNibbleCount : Bytes → Nat
  | [] => 0
  | firstByte :: rest => 2 * rest.length + if isOdd firstByte then 1 else 0

/-- The comparison loop of `encoded_path_eq_nibs` and `encoded_path_strip_prefix`:
`i` indexes the nibbles and `j` the encoded path.  The outer `none` is an index
out of bounds, the inner one a mismatch.  The index `i` grows by two, so `bound`
rounds are enough. -/
def matchLoop (encodedPath nibs : List UInt8) (bound : Nat) :
    Nat → Nat → Nat → Option (Option (Nat × Nat))
  | 0, i, j => some (some (i, j))
  | fuel + 1, i, j =>
    if i + 1 < bound then do
      let b ← encodedPath[j]?
      if (← nibs[i]?) ≠ b >>> 4 then return none
      if (← nibs[i + 1]?) ≠ b &&& 0x0f then return none
      matchLoop encodedPath nibs bound fuel (i + 2) (j + 1)
    else some (some (i, j))

/-- Compare `bound` nibbles of the encoded path with `nibs` and return the index
reached. -/
def matchNibs (encodedPath nibs : List UInt8) (bound : Nat) : Option (Option Nat) := do
  let first ← encodedPath[0]?
  let start ← if isOdd first then
      (do if (← nibs[0]?) ≠ first &&& 0x0f then return none
          return some 1)
    else some (some 0)
  match start with
  | none => return none
  | some i =>
    match ← matchLoop encodedPath nibs bound bound i 1 with
    | none => return none
    | some (i, j) =>
      if i < bound then
        -- one last high nibble remains
        let b ← encodedPath[j]?
        if (← nibs[i]?) ≠ b >>> 4 then return none
        return some (i + 1)
      else return some i

/-- Compare an encoded path with a nibble slice without decoding it. -/
def encodedPathEqNibs (encodedPath nibs : List UInt8) : Option Bool :=
  let nibCount := encodedPathNibbleCount encodedPath
  if nibCount ≠ nibs.length then some false
  else if nibCount = 0 then some true
  else (matchNibs encodedPath nibs nibs.length).map Option.isSome

/-- The tail of `nibs` after an encoded path, if the path is a prefix of it. -/
def encodedPathStripPrefix (encodedPath nibs : List UInt8) : Option (Option (List UInt8)) :=
  let nibCount := encodedPathNibbleCount encodedPath
  if nibs.length < nibCount then some none
  else if nibCount = 0 then some (some nibs)
  else (matchNibs encodedPath nibs nibCount).map (Option.map fun i => nibs.drop i)

/-- Two nibbles to the byte.  The number of nibbles is even. -/
def packNibs : List UInt8 → Bytes
  | high :: low :: nibs => (high <<< 4 ||| low) :: packNibs nibs
  | _ => []

/-- The hex-prefix encoding of a path (`to_encoded_path` and
`to_encoded_path_with_bump`, which differ in where they allocate).  The loops of both, index by
index, are `packLoop` below. -/
def toEncodedPath (nibs : List UInt8) (isLeaf : Bool) : Bytes :=
  let pre : UInt8 := if isLeaf then 0x20 else 0x00
  if nibs.length % 2 = 1 then
    match nibs with
    | [] => []
    | first :: rest => ((pre ||| 0x10) ||| first) :: packNibs rest
  else pre :: packNibs nibs

/-- The loop `for i in (i..nibs.len()).step_by(2)` of both encoders.  `none` is an index out of
bounds.  The index grows by two, so `nibs.length` rounds are enough. -/
def packLoop (nibs : List UInt8) : Nat → Nat → Bytes → Option Bytes
  | 0, _, encoded => some encoded
  | fuel + 1, i, encoded =>
    if i < nibs.length then do
      let high ← nibs[i]?
      let low ← nibs[i + 1]?
      packLoop nibs fuel (i + 2) (encoded ++ [high <<< 4 ||| low])
    else some encoded

/-- What both encoders write into their buffer. -/
def writeEncodedPath (nibs : List UInt8) (isLeaf : Bool) : Option Bytes :=
  let pre : UInt8 := if isLeaf then 0x20 else 0x00
  if nibs.length % 2 ≠ 0 then do
    let first ← nibs[0]?
    packLoop nibs nibs.length 1 [(pre ||| 0x10) ||| first]
  else packLoop nibs nibs.length 0 [pre]

/-- `to_encoded_path_with_bump`: the buffer is in the arena. -/
def toEncodedPathWithBump (nibs : List UInt8) (isLeaf : Bool) : Option Bytes :=
  writeEncodedPath nibs isLeaf

/-- `to_encoded_path`: the buffer is a vector of its own. -/
def toEncodedPathVec (nibs : List UInt8) (isLeaf : Bool) : Option Bytes :=
  writeEncodedPath nibs isLeaf

/-! ## The comparison loop -/

@[simp] theorem toNibs_nil : toNibs [] = [] := rfl

@[simp] theorem toNibs_cons (b : UInt8) (bytes : Bytes) :
    toNibs (b :: bytes) = (b >>> 4) :: (b &&& 0x0f) :: toNibs bytes := rfl

@[simp] theorem length_toNibs (bytes : Bytes) : (toNibs bytes).length = 2 * bytes.length := by
  induction bytes with
  | nil => rfl
  | cons b bytes ih => simp [ih]; omega

theorem length_prefixToNibs (p : Bytes) :
    (prefixToNibs p).length = encodedPathNibbleCount p := by
  cases p with
  | nil => rfl
  | cons b rest =>
    simp only [prefixToNibs, encodedPathNibbleCount]
    split <;> simp [Nat.add_comm]

/-- From index `j` on, the loop compares the remaining bytes with the nibbles from
index `i` on. -/
theorem matchLoop_eq {p nibs : List UInt8} {bound : Nat} (hb : bound ≤ nibs.length) :
    ∀ (rest : Bytes) (fuel i j : Nat), p.drop j = rest → i + 2 * rest.length = bound →
      rest.length ≤ fuel →
      matchLoop p nibs bound fuel i j =
        some (if toNibs rest <+: nibs.drop i then some (bound, j + rest.length) else none)
  | [], fuel, i, j, _, hi, _ => by
    have hib : i = bound := by simpa using hi
    subst hib
    cases fuel with
    | zero => simp [matchLoop]
    | succ fuel => simp [matchLoop]
  | b :: rest, 0, i, j, _, _, hf => by simp at hf
  | b :: rest, fuel + 1, i, j, hd, hi, hf => by
    have hlt : i + 1 < bound := by
      simp only [List.length_cons] at hi
      omega
    have hp : p[j]? = some b := by
      rw [← List.head?_drop, hd]
      rfl
    have hd' : p.drop (j + 1) = rest := by
      rw [← List.tail_drop, hd]
      rfl
    obtain ⟨x, hx⟩ : ∃ x, nibs[i]? = some x := ⟨_, List.getElem?_eq_getElem (by omega)⟩
    obtain ⟨y, hy⟩ : ∃ y, nibs[i + 1]? = some y := ⟨_, List.getElem?_eq_getElem (by omega)⟩
    have hdrop : nibs.drop i = x :: y :: nibs.drop (i + 2) := by
      obtain ⟨hi₁, rfl⟩ := List.getElem?_eq_some_iff.mp hx
      obtain ⟨hi₂, rfl⟩ := List.getElem?_eq_some_iff.mp hy
      rw [List.drop_eq_getElem_cons hi₁, List.drop_eq_getElem_cons hi₂]
    have ih := matchLoop_eq hb rest fuel (i + 2) (j + 1) hd'
      (by simp only [List.length_cons] at hi; omega) (by simpa using hf)
    simp only [matchLoop, hlt, if_true, hp, hx, hy, Option.bind_eq_bind, Option.bind_some,
      toNibs_cons, hdrop, List.cons_prefix_cons]
    by_cases h1 : x = b >>> 4
    · by_cases h2 : y = b &&& 0x0f
      · rw [if_neg (by simpa using h1), if_neg (by simpa using h2), ih]
        have hj : j + 1 + rest.length = j + (b :: rest).length := by
          rw [List.length_cons]
          omega
        rw [hj]
        simp [h1, h2]
      · simp [h1, h2, Ne.symm h2]
    · simp [h1, Ne.symm h1]

/-- The in-place comparison is a comparison with the decoded path. -/
theorem matchNibs_eq {p nibs : List UInt8} (hp : p ≠ [])
    (hb : encodedPathNibbleCount p ≤ nibs.length) :
    matchNibs p nibs (encodedPathNibbleCount p) =
      some (if prefixToNibs p <+: nibs then some (encodedPathNibbleCount p) else none) := by
  obtain ⟨first, rest, rfl⟩ := List.exists_cons_of_ne_nil hp
  by_cases ho : isOdd first
  · have hcount : encodedPathNibbleCount (first :: rest) = 1 + 2 * rest.length := by
      simp [encodedPathNibbleCount, ho, Nat.add_comm]
    rw [hcount] at hb ⊢
    obtain ⟨x, nibs', rfl⟩ : ∃ x nibs', nibs = x :: nibs' := by
      cases nibs with
      | nil => simp at hb
      | cons x nibs' => exact ⟨x, nibs', rfl⟩
    have hloop := matchLoop_eq (p := first :: rest) hb rest (1 + 2 * rest.length) 1 1 rfl rfl
      (by omega)
    simp only [matchNibs, List.getElem?_cons_zero, Option.bind_eq_bind, Option.bind_some, ho,
      if_true, prefixToNibs, List.singleton_append, List.cons_prefix_cons]
    by_cases hx : x = first &&& 0x0f
    · subst hx
      rw [if_neg (by simp)]
      simp only [Option.bind_some, Option.pure_def, hloop, List.drop_one, List.tail_cons, true_and]
      by_cases hpre : toNibs rest <+: nibs' <;> simp [hpre]
    · simp [hx, Ne.symm hx]
  · have hcount : encodedPathNibbleCount (first :: rest) = 0 + 2 * rest.length := by
      simp [encodedPathNibbleCount, ho]
    rw [hcount] at hb ⊢
    have hloop := matchLoop_eq (p := first :: rest) hb rest (0 + 2 * rest.length) 0 1 rfl rfl
      (by omega)
    simp only [matchNibs, List.getElem?_cons_zero, Option.bind_eq_bind, Option.bind_some, ho,
      prefixToNibs, List.nil_append, Bool.false_eq_true, if_false, hloop, List.drop_zero]
    by_cases hpre : toNibs rest <+: nibs <;> simp [hpre]

theorem encodedPathEqNibs_eq (p nibs : List UInt8) :
    encodedPathEqNibs p nibs = some (decide (prefixToNibs p = nibs)) := by
  have hlen := length_prefixToNibs p
  by_cases hc : encodedPathNibbleCount p = nibs.length
  · by_cases hz : encodedPathNibbleCount p = 0
    · have hp : prefixToNibs p = [] := List.eq_nil_of_length_eq_zero (hlen.trans hz)
      have hn : nibs = [] := List.eq_nil_of_length_eq_zero (hc.symm.trans hz)
      simp [encodedPathEqNibs, hp, hn, hz]
    · have hne : p ≠ [] := by
        rintro rfl
        exact hz rfl
      have hmatch := matchNibs_eq hne (Nat.le_of_eq hc)
      rw [hc] at hmatch
      have hiff : prefixToNibs p <+: nibs ↔ prefixToNibs p = nibs :=
        ⟨fun h => h.eq_of_length (hlen.trans hc), fun h => h ▸ List.prefix_rfl⟩
      simp only [encodedPathEqNibs, hc, hmatch, hiff, ne_eq, not_true, if_false]
      rw [if_neg (by rwa [← hc])]
      split <;> simp_all
  · have hne : prefixToNibs p ≠ nibs := by
      rintro rfl
      exact hc hlen.symm
    simp [encodedPathEqNibs, hc, hne]

theorem encodedPathStripPrefix_eq (p nibs : List UInt8) :
    encodedPathStripPrefix p nibs = some (Patricia.stripPrefix (prefixToNibs p) nibs) := by
  have hlen := length_prefixToNibs p
  by_cases hle : encodedPathNibbleCount p ≤ nibs.length
  · by_cases hz : encodedPathNibbleCount p = 0
    · have hp : prefixToNibs p = [] := List.eq_nil_of_length_eq_zero (hlen.trans hz)
      simp [encodedPathStripPrefix, hp, hz]
    · have hne : p ≠ [] := by
        rintro rfl
        exact hz rfl
      simp only [encodedPathStripPrefix, Nat.not_lt.mpr hle, hz, matchNibs_eq hne hle, if_false,
        Option.map_some, Option.some.injEq]
      split
      · rename_i h
        obtain ⟨tail, rfl⟩ := h
        simp [← hlen]
      · rename_i h
        cases hs : Patricia.stripPrefix (prefixToNibs p) nibs with
        | none => rfl
        | some tail =>
          exact absurd ⟨tail, (Patricia.stripPrefix_eq_some.mp hs).symm⟩ h
  · cases hs : Patricia.stripPrefix (prefixToNibs p) nibs with
    | none => simp [encodedPathStripPrefix, Nat.not_le.mp hle]
    | some tail =>
      have := congrArg List.length (Patricia.stripPrefix_eq_some.mp hs)
      rw [List.length_append, hlen] at this
      omega

/-! ## Digits -/

/-- The nibbles of an encoded path as digits. -/
def pathNibs (p : Bytes) : List Nibble := (prefixToNibs p).map fun b => Fin.ofNat 16 b.toNat

/-- A path of digits, encoded. -/
def encode (path : List Nibble) (isLeaf : Bool) : Bytes :=
  toEncodedPath (path.map Nibble.toByte) isLeaf

/-- The digits of a byte key. -/
def keyNibs (key : Bytes) : List Nibble := (toNibs key).map fun b => Fin.ofNat 16 b.toNat

/-- A property of bytes that holds of all 256 of them. -/
theorem forall_byte {P : UInt8 → Prop} (h : ∀ n : Fin 256, P (UInt8.ofNat n)) (b : UInt8) :
    P b := by
  simpa using h ⟨b.toNat, b.toNat_lt⟩

/-- The two halves of a byte are digits, and make up the byte. -/
theorem byte_halves (b : UInt8) :
    Nibble.toByte (Fin.ofNat 16 (b >>> 4).toNat) = b >>> 4 ∧
    Nibble.toByte (Fin.ofNat 16 (b &&& 0x0f).toNat) = b &&& 0x0f ∧
    b = (b >>> 4) <<< 4 ||| (b &&& 0x0f) :=
  forall_byte (P := fun b => Nibble.toByte (Fin.ofNat 16 (b >>> 4).toNat) = b >>> 4 ∧
    Nibble.toByte (Fin.ofNat 16 (b &&& 0x0f).toNat) = b &&& 0x0f ∧
    b = (b >>> 4) <<< 4 ||| (b &&& 0x0f)) (by decide +kernel) b

theorem toByte_shift (b : UInt8) : Nibble.toByte (Fin.ofNat 16 (b >>> 4).toNat) = b >>> 4 :=
  (byte_halves b).1

theorem toByte_mask (b : UInt8) : Nibble.toByte (Fin.ofNat 16 (b &&& 0x0f).toNat) = b &&& 0x0f :=
  (byte_halves b).2.1

theorem byte_eq_pack (b : UInt8) : b = (b >>> 4) <<< 4 ||| (b &&& 0x0f) := (byte_halves b).2.2

theorem map_toByte_toNibs (bytes : Bytes) :
    ((toNibs bytes).map fun b => (Fin.ofNat 16 b.toNat : Nibble)).map Nibble.toByte =
      toNibs bytes := by
  induction bytes with
  | nil => rfl
  | cons b bytes ih =>
    simp only [toNibs_cons, List.map_cons, toByte_shift, toByte_mask, ih]

@[simp] theorem map_toByte_keyNibs (key : Bytes) :
    (keyNibs key).map Nibble.toByte = toNibs key :=
  map_toByte_toNibs key

@[simp] theorem length_keyNibs (key : Bytes) : (keyNibs key).length = 2 * key.length := by
  simp [keyNibs]

/-- Every decoded path consists of nibbles. -/
theorem map_toByte_pathNibs (p : Bytes) : (pathNibs p).map Nibble.toByte = prefixToNibs p := by
  cases p with
  | nil => rfl
  | cons b rest =>
    simp only [pathNibs, prefixToNibs]
    split
    · simp only [List.singleton_append, List.map_cons, toByte_mask, map_toByte_toNibs]
    · simp only [List.nil_append, map_toByte_toNibs]

/-- Two digits are read back from the byte that they make up. -/
theorem halves_pack : ∀ a b : Nibble, (a.toByte <<< 4 ||| b.toByte) >>> 4 = a.toByte ∧
    (a.toByte <<< 4 ||| b.toByte) &&& 0x0f = b.toByte := by
  decide

theorem shift_pack (a b : Nibble) : (a.toByte <<< 4 ||| b.toByte) >>> 4 = a.toByte :=
  (halves_pack a b).1

theorem mask_pack (a b : Nibble) : (a.toByte <<< 4 ||| b.toByte) &&& 0x0f = b.toByte :=
  (halves_pack a b).2

theorem toNibs_packNibs : ∀ path : List Nibble, path.length % 2 = 0 →
    toNibs (packNibs (path.map Nibble.toByte)) = path.map Nibble.toByte
  | [], _ => rfl
  | [_], h => by simp at h
  | a :: b :: path, h => by
    have ih := toNibs_packNibs path (by simp only [List.length_cons] at h; omega)
    simp only [List.map_cons, packNibs, toNibs_cons, shift_pack, mask_pack, ih]

theorem odd_first : ∀ (isLeaf : Bool) (n : Nibble),
    isOdd (((if isLeaf then (0x20 : UInt8) else 0x00) ||| 0x10) ||| n.toByte) = true ∧
      (((if isLeaf then (0x20 : UInt8) else 0x00) ||| 0x10) ||| n.toByte) &&& 0x0f = n.toByte := by
  decide

theorem even_first : ∀ isLeaf : Bool, isOdd (if isLeaf then (0x20 : UInt8) else 0x00) = false := by
  decide

theorem encode_odd (n : Nibble) {path : List Nibble} (h : path.length % 2 = 0) (isLeaf : Bool) :
    encode (n :: path) isLeaf =
      (((if isLeaf then (0x20 : UInt8) else 0x00) ||| 0x10) ||| n.toByte) ::
        packNibs (path.map Nibble.toByte) := by
  have hodd : ((n :: path).map Nibble.toByte).length % 2 = 1 := by
    simp only [List.length_map, List.length_cons]
    omega
  simp only [encode, toEncodedPath]
  rw [if_pos hodd]
  rfl

theorem encode_even {path : List Nibble} (h : path.length % 2 = 0) (isLeaf : Bool) :
    encode path isLeaf =
      (if isLeaf then (0x20 : UInt8) else 0x00) :: packNibs (path.map Nibble.toByte) := by
  have heven : ¬ (path.map Nibble.toByte).length % 2 = 1 := by
    rw [List.length_map]
    omega
  simp only [encode, toEncodedPath]
  rw [if_neg heven]

/-- A path has an even number of nibbles, or a first nibble and an even number. -/
theorem parity_cases (path : List Nibble) :
    path.length % 2 = 0 ∨ ∃ n rest, path = n :: rest ∧ rest.length % 2 = 0 := by
  cases path with
  | nil => exact .inl rfl
  | cons n rest =>
    rcases Nat.mod_two_eq_zero_or_one rest.length with h | h
    · exact .inr ⟨n, rest, rfl, h⟩
    · refine .inl ?_
      rw [List.length_cons]
      omega

/-- Decoding an encoded path gives the path back. -/
@[simp] theorem prefixToNibs_encode (path : List Nibble) (isLeaf : Bool) :
    prefixToNibs (encode path isLeaf) = path.map Nibble.toByte := by
  rcases parity_cases path with h | ⟨n, rest, rfl, h⟩
  · rw [encode_even h]
    simp [prefixToNibs, even_first, toNibs_packNibs path h]
  · rw [encode_odd n h]
    obtain ⟨h1, h2⟩ := odd_first isLeaf n
    simp only [prefixToNibs, h1, h2, if_true, toNibs_packNibs rest h, List.singleton_append,
      List.map_cons]

@[simp] theorem pathNibs_encode (path : List Nibble) (isLeaf : Bool) :
    pathNibs (encode path isLeaf) = path := by
  apply List.map_injective_iff.mpr Nibble.toByte_injective
  rw [map_toByte_pathNibs, prefixToNibs_encode]

theorem length_packNibs : ∀ nibs : List UInt8, (packNibs nibs).length = nibs.length / 2
  | [] => rfl
  | [_] => by simp [packNibs]
  | _ :: _ :: nibs => by
    simp only [packNibs, List.length_cons, length_packNibs nibs]
    omega

@[simp] theorem length_encode (path : List Nibble) (isLeaf : Bool) :
    (encode path isLeaf).length = path.length / 2 + 1 := by
  rcases parity_cases path with h | ⟨n, rest, rfl, h⟩
  · rw [encode_even h, List.length_cons, length_packNibs, List.length_map]
  · rw [encode_odd n h, List.length_cons, length_packNibs, List.length_map, List.length_cons]
    omega

theorem odd_leaf_flag : ∀ (isLeaf : Bool) (n : Nibble),
    ((((if isLeaf then (0x20 : UInt8) else 0x00) ||| 0x10) ||| n.toByte) &&& hpFlagLeaf = 0) ↔
      isLeaf = false := by
  decide

theorem even_leaf_flag : ∀ isLeaf : Bool,
    ((if isLeaf then (0x20 : UInt8) else 0x00) &&& hpFlagLeaf = 0) ↔ isLeaf = false := by
  decide

/-- The first byte carries the leaf flag. -/
theorem encode_eq_cons (path : List Nibble) (isLeaf : Bool) :
    ∃ first rest, encode path isLeaf = first :: rest ∧
      (first &&& hpFlagLeaf = 0 ↔ isLeaf = false) := by
  rcases parity_cases path with h | ⟨n, rest, rfl, h⟩
  · exact ⟨_, _, encode_even h isLeaf, even_leaf_flag isLeaf⟩
  · exact ⟨_, _, encode_odd n h isLeaf, odd_leaf_flag isLeaf n⟩

theorem encode_injective {path path' : List Nibble} {isLeaf isLeaf' : Bool}
    (h : encode path isLeaf = encode path' isLeaf') : path = path' ∧ isLeaf = isLeaf' := by
  constructor
  · rw [← pathNibs_encode path isLeaf, h, pathNibs_encode]
  · obtain ⟨a, r, ha, hl⟩ := encode_eq_cons path isLeaf
    obtain ⟨a', r', ha', hl'⟩ := encode_eq_cons path' isLeaf'
    rw [h, ha'] at ha
    obtain ⟨rfl, _⟩ := List.cons.inj ha
    have := hl.symm.trans hl'
    cases isLeaf <;> cases isLeaf' <;> simp_all

/-! ## The encoding loop -/

/-- From index `i` on, an even number of nibbles is packed. -/
theorem packLoop_eq (nibs : List UInt8) :
    ∀ (fuel i : Nat) (encoded : Bytes), (nibs.drop i).length % 2 = 0 →
      (nibs.drop i).length ≤ 2 * fuel →
      packLoop nibs fuel i encoded = some (encoded ++ packNibs (nibs.drop i)) := by
  intro fuel
  induction fuel with
  | zero =>
    intro i encoded _ hle
    have hnil : nibs.drop i = [] := List.eq_nil_of_length_eq_zero (by omega)
    simp [packLoop, hnil, packNibs]
  | succ fuel ih =>
    intro i encoded heven hle
    unfold packLoop
    by_cases hi : i < nibs.length
    · rw [List.length_drop] at heven hle
      have hi' : i + 1 < nibs.length := by omega
      have hdrop : nibs.drop i = nibs[i] :: nibs[i + 1] :: nibs.drop (i + 2) := by
        rw [List.drop_eq_getElem_cons hi, List.drop_eq_getElem_cons hi']
      rw [if_pos hi, List.getElem?_eq_getElem hi, List.getElem?_eq_getElem hi', hdrop]
      have hrest := ih (i + 2) (encoded ++ [nibs[i] <<< 4 ||| nibs[i + 1]])
        (by rw [List.length_drop]; omega) (by rw [List.length_drop]; omega)
      simp only [Option.bind_eq_bind, Option.bind_some, hrest, packNibs, List.append_assoc,
        List.singleton_append]
    · have hnil : nibs.drop i = [] := List.drop_eq_nil_of_le (by omega)
      rw [if_neg hi, hnil]
      simp [packNibs]

/-- The encoders stay inside their slice. -/
theorem writeEncodedPath_eq (nibs : List UInt8) (isLeaf : Bool) :
    writeEncodedPath nibs isLeaf = some (toEncodedPath nibs isLeaf) := by
  unfold writeEncodedPath toEncodedPath
  by_cases hodd : nibs.length % 2 = 1
  · cases nibs with
    | nil => simp at hodd
    | cons first rest =>
      have hloop := packLoop_eq (first :: rest) (first :: rest).length 1
        [((if isLeaf then (0x20 : UInt8) else 0x00) ||| 0x10) ||| first]
        (by simp only [List.drop_one, List.tail_cons]; rw [List.length_cons] at hodd; omega)
        (by simp only [List.drop_one, List.tail_cons, List.length_cons]; omega)
      simp only [hodd, ne_eq, Nat.one_ne_zero, not_false_eq_true, if_true, List.getElem?_cons_zero,
        Option.bind_eq_bind, Option.bind_some, hloop, List.drop_one, List.tail_cons,
        List.singleton_append]
  · have heven : nibs.length % 2 = 0 := by omega
    have hloop := packLoop_eq nibs nibs.length 0
      [if isLeaf then (0x20 : UInt8) else 0x00] heven (by rw [List.length_drop]; omega)
    simp only [heven, ne_eq, not_true_eq_false, if_false, hloop, List.drop_zero,
      List.singleton_append]
    rfl

/-- The helpers that work on an encoded path in place agree with decoding it, and both encoders
agree with each other and with the decoder.  No index is out of bounds. -/
theorem encoded_path_helpers_agree (p n : List UInt8) (path : List Nibble) (isLeaf : Bool) :
    encodedPathNibbleCount p = (prefixToNibs p).length ∧
    (∃ b, encodedPathEqNibs p n = some b ∧ (b = true ↔ prefixToNibs p = n)) ∧
    (∃ o, encodedPathStripPrefix p n = some o ∧ ∀ t, o = some t ↔ n = prefixToNibs p ++ t) ∧
    ∃ first rest, toEncodedPathVec (path.map Nibble.toByte) isLeaf = some (first :: rest) ∧
      toEncodedPathWithBump (path.map Nibble.toByte) isLeaf = some (first :: rest) ∧
      prefixToNibs (first :: rest) = path.map Nibble.toByte ∧
      (first &&& hpFlagLeaf ≠ 0 ↔ isLeaf = true) := by
  refine ⟨(length_prefixToNibs p).symm, ⟨_, encodedPathEqNibs_eq p n, by simp⟩,
    ⟨_, encodedPathStripPrefix_eq p n, fun t => Patricia.stripPrefix_eq_some⟩, ?_⟩
  obtain ⟨first, rest, henc, hflag⟩ := encode_eq_cons path isLeaf
  have hwrite : writeEncodedPath (path.map Nibble.toByte) isLeaf = some (first :: rest) := by
    rw [writeEncodedPath_eq, ← henc]
    rfl
  refine ⟨first, rest, hwrite, hwrite, ?_, ?_⟩
  · rw [← henc, prefixToNibs_encode]
  · rw [ne_eq, hflag]
    simp

/-! ## Bytes and digits -/

theorem stripPrefix_map (p key : List Nibble) :
    Patricia.stripPrefix (p.map Nibble.toByte) (key.map Nibble.toByte) =
      (Patricia.stripPrefix p key).map (List.map Nibble.toByte) := by
  induction p generalizing key with
  | nil => simp
  | cons i p ih =>
    cases key with
    | nil => rfl
    | cons j key =>
      by_cases h : i = j
      · subst h
        simp [ih]
      · have h' : i.toByte ≠ j.toByte := fun e => h (Nibble.toByte_injective e)
        simp [Patricia.stripPrefix_cons_ne h, Patricia.stripPrefix_cons_ne h']

/-- The length computed by `lcp` splits both paths where they part. -/
theorem lcp_map : ∀ p q : List Nibble,
    lcp (p.map Nibble.toByte) (q.map Nibble.toByte) = (Patricia.split p q).1.length
  | [], q => by simp [lcp]
  | p, [] => by cases p <;> simp [lcp]
  | i :: p, j :: q => by
    by_cases h : i = j
    · subst h
      simp [lcp, lcp_map p q]
    · have h' : i.toByte ≠ j.toByte := fun e => h (Nibble.toByte_injective e)
      simp [lcp, h', Patricia.split_cons_ne h]

theorem toNibs_injective : Function.Injective toNibs := by
  intro a
  induction a with
  | nil =>
    intro b h
    cases b with
    | nil => rfl
    | cons y b => simp at h
  | cons x a ih =>
    intro b h
    cases b with
    | nil => simp at h
    | cons y b =>
      simp only [toNibs_cons, List.cons.injEq] at h
      rw [byte_eq_pack x, byte_eq_pack y, h.1, h.2.1, ih h.2.2]

theorem keyNibs_injective : Function.Injective keyNibs := by
  intro a b h
  exact toNibs_injective (by rw [← map_toByte_keyNibs, h, map_toByte_keyNibs])

/-- The byte string with the given digits, two to the byte. -/
def bytesOf (nibs : List Nibble) : Bytes := packNibs (nibs.map Nibble.toByte)

theorem keyNibs_bytesOf {nibs : List Nibble} (h : nibs.length % 2 = 0) :
    keyNibs (bytesOf nibs) = nibs := by
  refine List.map_injective_iff.mpr Nibble.toByte_injective ?_
  rw [map_toByte_keyNibs, bytesOf, toNibs_packNibs nibs h]

@[simp] theorem bytesOf_keyNibs (key : Bytes) : bytesOf (keyNibs key) = key :=
  keyNibs_injective (keyNibs_bytesOf (by simp))

theorem keyNibs_append (a b : Bytes) : keyNibs (a ++ b) = keyNibs a ++ keyNibs b := by
  simp [keyNibs, toNibs]

/-- A byte string is a prefix of another exactly when its digits are. -/
theorem keyNibs_prefix {a b : Bytes} : keyNibs a <+: keyNibs b ↔ a <+: b := by
  constructor
  · rintro ⟨rest, hrest⟩
    have hlen := congrArg List.length hrest
    rw [List.length_append, length_keyNibs, length_keyNibs] at hlen
    refine ⟨bytesOf rest, keyNibs_injective ?_⟩
    rw [keyNibs_append, keyNibs_bytesOf (by omega), hrest]
  · rintro ⟨rest, rfl⟩
    exact ⟨keyNibs rest, (keyNibs_append a rest).symm⟩

end Hp
end CenoReth
