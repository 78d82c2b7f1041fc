/-
The table of block hashes (`build_block_hashes` and `block_hash_ref` of
`crates/executor/client/src/io.rs`).

The headers come with the current block first, and every header is compared with
the next one, its parent.  The table then has the hashes of all ancestors.  The
number of the parent is compared with `child.number - 1`, which is below zero for
a block with number zero.  There a build with overflow checks panics, and a build
without them goes on with 2^64 - 1.
-/
import CenoReth.Mpt.Arena
import Mathlib.Data.List.Chain
import Mathlib.Logic.Function.Basic

namespace CenoReth

/-- What is read of a header, and the encodings of its other fields, which are hashed with it. -/
structure Header where
  number : UInt64
  parentHash : B256
  other : Bytes
  deriving DecidableEq

/-- How `build_block_hashes` ends without a table. -/
inductive HeaderStop where
  /-- `ClientExecutionError::NonConsecutiveBlockHeaders`. -/
  | nonConsecutiveBlockHeaders (parentBlockNumber childBlockNumber : UInt64)
  /-- `ClientExecutionError::ParentBlockHashMismatch`. -/
  | parentBlockHashMismatch (parentBlockNumber : UInt64) (expected actual : B256)
  /-- `attempt to subtract with overflow`. -/
  | overflow
  deriving DecidableEq

/-- `block_hashes`, a hash map. -/
abbrev BlockHashes := UInt64 → Option B256

namespace BlockHashes

/-- `number - 1`.  Without overflow checks the result wraps around. -/
def numberBefore (overflowChecks : Bool) (number : UInt64) : Except HeaderStop UInt64 :=
  if overflowChecks = true ∧ number = 0 then .error .overflow else .ok (number - 1)

variable (hashSlow : Header → B256)

/-- The loop over the pairs of neighbours. -/
def buildFrom (overflowChecks : Bool) : List Header → BlockHashes → Except HeaderStop BlockHashes
  | child :: parent :: headers, blockHashes => do
    let expected ← numberBefore overflowChecks child.number
    if parent.number ≠ expected then
      .error (.nonConsecutiveBlockHeaders parent.number child.number)
    else if hashSlow parent ≠ child.parentHash then
      .error (.parentBlockHashMismatch parent.number (hashSlow parent) child.parentHash)
    else
      buildFrom overflowChecks (parent :: headers)
        (Function.update blockHashes parent.number (some child.parentHash))
  | _, blockHashes => .ok blockHashes

def buildBlockHashes (overflowChecks : Bool) (headers : List Header) :
    Except HeaderStop BlockHashes :=
  buildFrom hashSlow overflowChecks headers fun _ => none

/-- `block_hash_ref`: `none` is a panic. -/
def blockHashRef (blockHashes : BlockHashes) (number : UInt64) : Option B256 := blockHashes number

/-! ## What the table should be -/

/-- A header and its parent. -/
def Linked (child parent : Header) : Prop :=
  child.number.toNat = parent.number.toNat + 1 ∧ child.parentHash = hashSlow parent

/-- Every header is followed by its parent. -/
abbrev Consecutive (headers : List Header) : Prop := headers.IsChain (Linked hashSlow)

/-- The numbers from the oldest header up to the parent of the current one, each with the hash of
the only listed header that has it. -/
structure TableOf (headers : List Header) (blockHashes : BlockHashes) : Prop where
  domain : ∀ current oldest, headers.head? = some current → headers.getLast? = some oldest →
    ∀ n, (blockHashRef blockHashes n).isSome = true ↔
      oldest.number.toNat ≤ n.toNat ∧ n.toNat < current.number.toNat
  hashes : ∀ n d, blockHashRef blockHashes n = some d → ∃ i header,
    headers[i]? = some header ∧ header.number = n ∧ hashSlow header = d ∧
    ∀ (j : Nat) (header' : Header), headers[j]? = some header' → header'.number = n → j = i

/-- The table is returned exactly for consecutive headers, it is right, and no subtraction goes
below zero, which a build with overflow checks would report. -/
structure Exact (headers : List Header) : Prop where
  accepts : ∀ checks, (∃ m, buildBlockHashes hashSlow checks headers = .ok m) ↔
    Consecutive hashSlow headers
  tabulates : ∀ checks m, buildBlockHashes hashSlow checks headers = .ok m →
    TableOf hashSlow headers m
  noUnderflow : buildBlockHashes hashSlow true headers ≠ .error .overflow

/-- A block with number zero comes before another header, and every header before it is followed
by its parent. -/
def PassesGenesis (headers : List Header) : Prop :=
  ∃ before child parent after, headers = before ++ child :: parent :: after ∧
    child.number = 0 ∧ Consecutive hashSlow (before ++ [child])

variable {hashSlow : Header → B256}

/-! ## The numbers of a chain -/

/-- The numbers go down by one from header to header. -/
theorem Consecutive.number_add {current : Header} {headers : List Header}
    (h : Consecutive hashSlow (current :: headers)) :
    ∀ {i : Nat} {header : Header}, (current :: headers)[i]? = some header →
      header.number.toNat + i = current.number.toNat := by
  induction headers generalizing current with
  | nil =>
    intro i header hi
    cases i with
    | zero =>
      obtain rfl := Option.some.inj hi
      rfl
    | succ i => simp at hi
  | cons parent headers ih =>
    intro i header hi
    obtain ⟨⟨hnum, -⟩, hrest⟩ := List.isChain_cons_cons.mp h
    cases i with
    | zero =>
      obtain rfl := Option.some.inj hi
      rfl
    | succ i =>
      have hih := ih hrest hi
      omega

theorem number_sub_one {n : UInt64} (hn : n ≠ 0) : (n - 1).toNat + 1 = n.toNat := by
  have hpos : n.toNat ≠ 0 := fun h => hn (UInt64.toNat_inj.mp h)
  have hle : (1 : UInt64) ≤ n := by
    rw [UInt64.le_iff_toNat_le]
    show 1 ≤ n.toNat
    omega
  rw [UInt64.toNat_sub_of_le n 1 hle]
  show n.toNat - 1 + 1 = n.toNat
  omega

/-- Above zero, the comparison is the one of natural numbers. -/
theorem number_eq_sub_one {n k : UInt64} (hn : n ≠ 0) : k = n - 1 ↔ n.toNat = k.toNat + 1 := by
  have hsub := number_sub_one hn
  constructor
  · rintro rfl
    omega
  · intro h
    exact UInt64.toNat_inj.mp (by omega)

/-- Block zero further down is also passed from the header above. -/
theorem PassesGenesis.cons {child parent : Header} {headers : List Header}
    (hlink : Linked hashSlow child parent) (h : PassesGenesis hashSlow (parent :: headers)) :
    PassesGenesis hashSlow (child :: parent :: headers) := by
  obtain ⟨before, c, p, after, heq, h0, hchain⟩ := h
  refine ⟨child :: before, c, p, after, by rw [heq]; rfl, h0, ?_⟩
  cases before with
  | nil =>
    obtain ⟨rfl, -⟩ := List.cons.inj heq
    exact List.isChain_cons_cons.mpr ⟨hlink, hchain⟩
  | cons b before =>
    obtain ⟨rfl, -⟩ := List.cons.inj heq
    exact List.isChain_cons_cons.mpr ⟨hlink, hchain⟩

/-! ## The loop -/

/-- One pair of neighbours, the first of which is not block zero. -/
theorem buildFrom_cons {checks : Bool} {child parent : Header} {headers : List Header}
    {m : BlockHashes} (hn : child.number ≠ 0) (h : Linked hashSlow child parent) :
    buildFrom hashSlow checks (child :: parent :: headers) m =
      buildFrom hashSlow checks (parent :: headers)
        (Function.update m parent.number (some (hashSlow parent))) := by
  have hnum : numberBefore checks child.number = .ok parent.number := by
    rw [numberBefore, if_neg (fun hc => hn hc.2), (number_eq_sub_one hn).mpr h.1]
  rw [buildFrom, hnum, h.2]
  simp [Bind.bind, Except.bind]

/-- A pair that is not linked ends the loop with an error, which is not an overflow. -/
theorem buildFrom_unlinked {checks : Bool} {child parent : Header} {headers : List Header}
    {m : BlockHashes} (hn : child.number ≠ 0) (h : ¬ Linked hashSlow child parent) :
    ∃ e, buildFrom hashSlow checks (child :: parent :: headers) m = .error e ∧ e ≠ .overflow := by
  have hnum : numberBefore checks child.number = .ok (child.number - 1) := by
    rw [numberBefore, if_neg (fun hc => hn hc.2)]
  rw [buildFrom, hnum]
  simp only [Bind.bind, Except.bind]
  by_cases hp : parent.number = child.number - 1
  · have hhash : hashSlow parent ≠ child.parentHash := fun he =>
      h ⟨(number_eq_sub_one hn).mp hp, he.symm⟩
    rw [if_neg (by simpa using hp), if_pos hhash]
    exact ⟨_, rfl, by simp⟩
  · rw [if_pos hp]
    exact ⟨_, rfl, by simp⟩

/-- The loop over consecutive headers, the last of which alone may be block zero: the parents are
added to the table, and nothing else is changed. -/
theorem buildFrom_consecutive (checks : Bool) :
    ∀ {headers : List Header} (m : BlockHashes), Consecutive hashSlow headers →
      ∃ m', buildFrom hashSlow checks headers m = .ok m' ∧
        (∀ i header, headers[i + 1]? = some header → m' header.number = some (hashSlow header)) ∧
        ∀ n, (∀ i header, headers[i + 1]? = some header → header.number ≠ n) → m' n = m n
  | [], m, _ => ⟨m, rfl, by simp, fun _ _ => rfl⟩
  | [_], m, _ => ⟨m, rfl, by simp, fun _ _ => rfl⟩
  | child :: parent :: headers, m, h => by
    obtain ⟨hlink, hrest⟩ := List.isChain_cons_cons.mp h
    have hn : child.number ≠ 0 := by
      intro h0
      have hnum := hlink.1
      rw [h0] at hnum
      exact absurd hnum (by simp)
    obtain ⟨m', hm', hset, hkeep⟩ := buildFrom_consecutive checks
      (Function.update m parent.number (some (hashSlow parent))) hrest
    refine ⟨m', (buildFrom_cons hn hlink).trans hm', fun i header hi => ?_, fun n hne => ?_⟩
    · cases i with
      | zero =>
        obtain rfl : parent = header := Option.some.inj hi
        -- the numbers further down are smaller, so the entry stays
        rw [hkeep parent.number fun j header' hj heq => ?_, Function.update_self]
        have hadd := Consecutive.number_add hrest hj
        rw [heq] at hadd
        omega
      | succ i => exact hset i header hi
    · rw [hkeep n fun i header hi => hne (i + 1) header hi,
        Function.update_of_ne (hne 0 parent rfl).symm]

/-- Whatever the headers are, the loop returns a table only for consecutive ones, unless it passes
block zero. -/
theorem consecutive_of_buildFrom {checks : Bool} :
    ∀ {headers : List Header} {m m' : BlockHashes}, ¬ PassesGenesis hashSlow headers →
      buildFrom hashSlow checks headers m = .ok m' → Consecutive hashSlow headers
  | [], _, _, _, _ => List.isChain_nil
  | [_], _, _, _, _ => List.isChain_singleton _
  | child :: parent :: headers, m, m', hg, h => by
    have hn : child.number ≠ 0 := fun h0 =>
      hg ⟨[], child, parent, headers, rfl, h0, List.isChain_singleton _⟩
    by_cases hlink : Linked hashSlow child parent
    · rw [buildFrom_cons hn hlink] at h
      refine List.isChain_cons_cons.mpr ⟨hlink, consecutive_of_buildFrom ?_ h⟩
      exact fun hrest => hg (hrest.cons hlink)
    · obtain ⟨e, he, -⟩ := buildFrom_unlinked hn hlink
      rw [he] at h
      cases h

/-- With overflow checks, passing block zero is a panic. -/
theorem buildFrom_passesGenesis :
    ∀ (before : List Header) {child parent : Header} {after : List Header} (m : BlockHashes),
      child.number = 0 → Consecutive hashSlow (before ++ [child]) →
      buildFrom hashSlow true (before ++ child :: parent :: after) m = .error .overflow
  | [], child, parent, after, m, h0, _ => by
    have hnum : numberBefore true child.number = .error .overflow := by
      rw [numberBefore, if_pos ⟨rfl, h0⟩]
    rw [List.nil_append, buildFrom, hnum]
    rfl
  | [first], child, parent, after, m, h0, hchain => by
    obtain ⟨hlink, hrest⟩ := List.isChain_cons_cons.mp hchain
    have hn : first.number ≠ 0 := fun h => by
      have hnum := hlink.1
      rw [h] at hnum
      exact absurd hnum (by simp)
    exact (buildFrom_cons hn hlink).trans (buildFrom_passesGenesis [] _ h0 hrest)
  | first :: second :: before, child, parent, after, m, h0, hchain => by
    obtain ⟨hlink, hrest⟩ := List.isChain_cons_cons.mp hchain
    have hn : first.number ≠ 0 := fun h => by
      have hnum := hlink.1
      rw [h] at hnum
      exact absurd hnum (by simp)
    exact (buildFrom_cons hn hlink).trans
      (buildFrom_passesGenesis (second :: before) _ h0 hrest)

/-- Otherwise it never panics. -/
theorem buildFrom_ne_overflow {checks : Bool} :
    ∀ {headers : List Header} {m : BlockHashes}, ¬ PassesGenesis hashSlow headers →
      buildFrom hashSlow checks headers m ≠ .error .overflow
  | [], _, _ => by simp [buildFrom]
  | [_], _, _ => by simp [buildFrom]
  | child :: parent :: headers, m, hg => by
    have hn : child.number ≠ 0 := fun h0 =>
      hg ⟨[], child, parent, headers, rfl, h0, List.isChain_singleton _⟩
    by_cases hlink : Linked hashSlow child parent
    · rw [buildFrom_cons hn hlink]
      exact buildFrom_ne_overflow fun hrest => hg (hrest.cons hlink)
    · obtain ⟨e, he, hne⟩ := buildFrom_unlinked hn hlink
      rw [he]
      exact fun h => hne (Except.error.inj h)

/-- The table of consecutive headers. -/
theorem tableOf_consecutive {checks : Bool} {headers : List Header} {m : BlockHashes}
    (hchain : Consecutive hashSlow headers) (h : buildBlockHashes hashSlow checks headers = .ok m) :
    TableOf hashSlow headers m := by
  obtain ⟨m', hm', hset, hkeep⟩ := buildFrom_consecutive checks (fun _ => none) hchain
  obtain rfl : m' = m := Except.ok.inj (hm'.symm.trans h)
  cases headers with
  | nil =>
    refine ⟨fun _ _ hc => by simp at hc, fun n d hd => ?_⟩
    rw [blockHashRef, hkeep n (by simp)] at hd
    cases hd
  | cons current headers =>
    -- a number is in the table if a header after the first one has it
    have hmem : ∀ n, (m' n).isSome = true ↔
        ∃ i header, (current :: headers)[i + 1]? = some header ∧ header.number = n := by
      intro n
      by_cases hex : ∃ i header, (current :: headers)[i + 1]? = some header ∧ header.number = n
      · obtain ⟨i, header, hi, rfl⟩ := hex
        simp only [hset i header hi, Option.isSome_some, true_iff]
        exact ⟨i, header, hi, rfl⟩
      · have hnone : m' n = none :=
          hkeep n fun i header hi heq => hex ⟨i, header, hi, heq⟩
        rw [hnone]
        exact iff_of_false (by simp) hex
    refine ⟨fun c oldest hc ho n => ?_, fun n d hd => ?_⟩
    · obtain rfl : current = c := Option.some.inj hc
      have hlast : (current :: headers)[headers.length]? = some oldest := by
        rw [← ho, List.getLast?_eq_getElem?]
        simp
      have hold := Consecutive.number_add hchain hlast
      rw [blockHashRef, hmem]
      constructor
      · rintro ⟨i, header, hi, rfl⟩
        have hadd := Consecutive.number_add hchain hi
        have hlt := (List.getElem?_eq_some_iff.mp hi).1
        rw [List.length_cons] at hlt
        omega
      · rintro ⟨hle, hlt⟩
        obtain ⟨header, hi⟩ : ∃ header,
            (current :: headers)[current.number.toNat - n.toNat - 1 + 1]? = some header :=
          ⟨_, List.getElem?_eq_getElem (by rw [List.length_cons]; omega)⟩
        have hadd := Consecutive.number_add hchain hi
        exact ⟨_, header, hi, UInt64.toNat_inj.mp (by omega)⟩
    · have hsome : (m' n).isSome = true := by
        rw [blockHashRef] at hd
        rw [hd]
        rfl
      obtain ⟨i, header, hi, rfl⟩ := (hmem n).mp hsome
      refine ⟨i + 1, header, hi, rfl, ?_, fun j header' hj heq => ?_⟩
      · exact Option.some.inj ((hset i header hi).symm.trans hd)
      · have hadd := Consecutive.number_add hchain hi
        have hadd' := Consecutive.number_add hchain hj
        rw [heq] at hadd'
        omega

/-- The table is exact unless the walk over the headers passes block zero. -/
theorem exact_iff (hashSlow : Header → B256) (headers : List Header) :
    Exact hashSlow headers ↔ ¬ PassesGenesis hashSlow headers := by
  constructor
  · rintro hexact ⟨before, child, parent, after, rfl, h0, hchain⟩
    exact hexact.noUnderflow (buildFrom_passesGenesis before _ h0 hchain)
  · intro hg
    refine ⟨fun checks => ⟨?_, fun hchain => ?_⟩, fun checks m h => ?_, buildFrom_ne_overflow hg⟩
    · rintro ⟨m, hm⟩
      exact consecutive_of_buildFrom hg hm
    · obtain ⟨m', hm', -⟩ := buildFrom_consecutive checks (fun _ => none) hchain
      exact ⟨m', hm'⟩
    · exact tableOf_consecutive (consecutive_of_buildFrom hg h) h

/-! ## Block zero with a parent -/

/-- An empty block with the last number of all. -/
def lastHeader : Header where
  number := 0xffffffffffffffff
  parentHash := B256.ofNat 0
  other :=
    (0xa0 :: (B256.ofNat 0x1dcc4de8dec75d7aab85b567b6ccd41ad312451b948a7413f0a142fd40d49347).bytes)
    ++ (0x94 :: List.replicate 20 0) ++ (0xa0 :: emptyRoot.bytes) ++ (0xa0 :: emptyRoot.bytes) ++
    (0xa0 :: emptyRoot.bytes) ++ ([0xb9, 0x01, 0x00] ++ List.replicate 256 0) ++
    [0x80, 0x80, 0x80, 0x80, 0x80] ++ (0xa0 :: List.replicate 32 0) ++ (0x88 :: List.replicate 8 0)

/-- `hash_slow` of that header. -/
def lastHash : B256 :=
  B256.ofNat 0x8732a73e7c0de4f223ada3430e1475c65597716d9c8c50ac0212b335eaef7fde

def sampleHash (header : Header) : B256 := if header = lastHeader then lastHash else B256.ofNat 0

def zeroHeader : Header := { lastHeader with number := 0, parentHash := lastHash }

/-- Block zero with a parent: the two numbers are not consecutive, and still a build without
overflow checks returns a table, with the parent under its own number.  A build with them
panics. -/
theorem genesis_with_parent :
    ¬ Consecutive sampleHash [zeroHeader, lastHeader] ∧
    (buildBlockHashes sampleHash false [zeroHeader, lastHeader]).toOption.map
      (fun m => blockHashRef m 0xffffffffffffffff) = some (some lastHash) ∧
    buildBlockHashes sampleHash true [zeroHeader, lastHeader] = .error .overflow := by
  refine ⟨fun h => ?_, by decide +kernel, ?_⟩
  · have hlink := (List.isChain_cons_cons.mp h).1.1
    exact absurd hlink (by decide)
  · exact buildFrom_passesGenesis [] _ rfl (List.isChain_singleton _)

end BlockHashes
end CenoReth
