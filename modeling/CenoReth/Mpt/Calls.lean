/-
Calls in any order.

A run is any sequence of calls on one arena.  A call may return a value or an
error, and the run goes on; only a panic ends it.  Whatever was called, the
arena stays a tree whose cached references are the references of its nodes, so
that the root hash is the one that an arena without caches would compute.
-/
import CenoReth.Mpt.Sealed
import CenoReth.Patricia.Mixed

namespace CenoReth
namespace Mpt

open Patricia Patricia.Radix Trie Rlp

variable {E : Env}

/-! ## Runs -/

inductive Call where
  | insert (key value : Bytes)
  | delete (key : Bytes)
  | replaceFrontierSlot (prefixNibs : List UInt8) (expectedRoot newRoot : B256)
  | get (key : Bytes)
  | hash
  | rootIsHashAddressed

/-- The effect of a call.  What it returns is dropped. -/
def Call.run (E : Env) : Call → TrieM Unit
  | .insert key value => do
    let _ ← Mpt.insert key value
  | .delete key => do
    let _ ← Mpt.delete key
  | .replaceFrontierSlot prefixNibs expectedRoot newRoot =>
    Mpt.replaceFrontierSlot E prefixNibs expectedRoot newRoot
  | .get key => do
    let _ ← Mpt.get key
  | .hash => do
    let _ ← Mpt.hash E
  | .rootIsHashAddressed => do
    let _ ← Mpt.rootIsHashAddressed E

/-- The call returns, with `Ok` or with `Err`. -/
def Returns (E : Env) (call : Call) (m m' : Mpt) : Prop :=
  call.run E m = (.ok (), m') ∨ ∃ e, call.run E m = (.error (.err e), m')

/-- The calls of a run all satisfy `P`. -/
inductive Runs (E : Env) (P : Call → Prop) (m : Mpt) : Mpt → Prop
  | refl : Runs E P m m
  | step {m₁ m₂ : Mpt} (call : Call) (hp : P call) (h : Runs E P m m₁)
    (hr : Returns E call m₁ m₂) : Runs E P m m₂

/-- An invariant of the calls is an invariant of the runs. -/
theorem Runs.invariant {P : Call → Prop} {I : Mpt → Prop} {m m' : Mpt} (h : Runs E P m m')
    (h0 : I m) (hstep : ∀ call m₁ m₂, P call → I m₁ → Returns E call m₁ m₂ → I m₂) : I m' := by
  induction h with
  | refl => exact h0
  | step call hp _ hr ih => exact hstep call _ _ hp ih hr

/-! ## What a call does -/

/-- The trie after a call that returned `Ok`. -/
def Call.Yields (E : Env) (t t' : Trie) : Call → Prop
  | .insert key value => ∃ b, t.insert (Hp.keyNibs key) value = .ok (b, t')
  | .delete key => ∃ b, t.delete (Hp.keyNibs key) = .ok (b, t')
  | .replaceFrontierSlot prefixNibs expectedRoot newRoot =>
    ∃ p s, prefixNibs = p.map Nibble.toByte ∧ t.subtree p = some s ∧
      Trie.hash E s = expectedRoot ∧ t' = t.patch (single p (slotTrie E s newRoot))
  | _ => t' = t

/-- How a call can end: it returned and did what it is for, or it failed and wrote nothing but
caches, or it panicked. -/
inductive Ends (E : Env) (m : Mpt) (t : Trie) (call : Call) : Prop
  | ok {m' : Mpt} {t' : Trie} (h : call.run E m = (.ok (), m')) (hr : Represents E m' t')
    (hy : call.Yields E t t')
  | err {m' : Mpt} {e : Error} (h : call.run E m = (.error (.err e), m')) (hf : Fills E m m')
  | panic {m' : Mpt} (h : call.run E m = (.error .panic, m'))

/-- An update that refines an operation on the trie. -/
theorem ends_of_refines {m : Mpt} {t : Trie} {call : Call} {x : TrieM Bool}
    {op : Except (Fault B256) (Bool × Trie)} (h : Represents E m t)
    (hx : Refines E x op m m.rootId (Finset.range m.size))
    (hfalse : ∀ t', op = .ok (false, t') → t' = t)
    (hrun : call.run E = do let _ ← x) (hy : ∀ b t', op = .ok (b, t') → call.Yields E t t') :
    Ends E m t call := by
  rcases hop : op with f | ⟨b, t'⟩
  · by_cases hf : f = .stuck
    · subst hf
      rw [hop] at hx
      obtain ⟨m', hm'⟩ := hx
      have hstop : call.run E m = (.error .panic, m') := by
        rw [hrun]
        exact Exec.bind_error hm'
      exact .panic hstop
    · have hm := (hx.root h hfalse).2 f hop hf
      obtain ⟨e, he⟩ : ∃ e, halt f = .err e := by
        cases f with
        | unresolved d => exact ⟨_, rfl⟩
        | branchValue => exact ⟨_, rfl⟩
        | stuck => exact absurd rfl hf
      rw [he] at hm
      exact .err (by rw [hrun]; exact Exec.bind_error hm) (Fills.refl m)
  · obtain ⟨m', hm', hr⟩ := (hx.root h hfalse).1 b t' hop
    exact .ok (by rw [hrun]; exact Exec.bind_ok hm') hr (hy b t' hop)

/-- Everything that a call can do. -/
theorem Represents.ends {m : Mpt} {t : Trie} (h : Represents E m t) (call : Call) :
    Ends E m t call := by
  cases call with
  | insert key value =>
    have hx := insertNibbles_refines h (Hp.keyNibs key) value
    rw [Hp.map_toByte_keyNibs] at hx
    exact ends_of_refines h hx (fun _ => insert_false) rfl fun b t' hop => ⟨b, hop⟩
  | delete key =>
    have hx := deleteNibbles_refines h (Hp.keyNibs key)
    rw [Hp.map_toByte_keyNibs] at hx
    exact ends_of_refines h hx (fun _ => delete_false) rfl fun b t' hop => ⟨b, hop⟩
  | replaceFrontierSlot prefixNibs expectedRoot newRoot =>
    rcases replaceFrontierSlot_cases h prefixNibs expectedRoot newRoot with
      ⟨p, s, m', hp, hs, hhash, hm', hr⟩ | ⟨e, m', hm', hf⟩ | hm
    · exact .ok hm' hr ⟨p, s, hp, hs, hhash, rfl⟩
    · exact .err hm' hf
    · exact .panic hm
  | get key =>
    have hget := getNibbles_spec h (Hp.keyNibs key)
    rw [Hp.map_toByte_keyNibs] at hget
    cases hg : t.get (Hp.keyNibs key) with
    | ok o =>
      rw [hg] at hget
      exact .ok (Exec.bind_ok hget) h rfl
    | error f =>
      rw [hg] at hget
      cases f with
      | unresolved d => exact .err (Exec.bind_error hget) (Fills.refl m)
      | branchValue => exact .err (Exec.bind_error hget) (Fills.refl m)
      | stuck => exact .panic (Exec.bind_error hget)
  | hash =>
    obtain ⟨m', hm', hr⟩ := hash_represents h
    exact .ok (Exec.bind_ok hm') hr rfl
  | rootIsHashAddressed =>
    obtain ⟨b, m', hm', _, hf⟩ := rootIsHashAddressed_spec (Rep.reads h) h.depth_le
    exact .ok (Exec.bind_ok hm') (h.fills hf) rfl

/-- A call that returns leaves a tree behind. -/
theorem Represents.returns {m m' : Mpt} {t : Trie} (h : Represents E m t) {call : Call}
    (hr : Returns E call m m') :
    Fills E m m' ∨ ∃ t', Represents E m' t' ∧ call.Yields E t t' := by
  rcases h.ends call with ⟨hx, hrep, hy⟩ | ⟨hx, hf⟩ | hx
  · rcases hr with hr | ⟨e, hr⟩
    · obtain rfl := congrArg Prod.snd (hx.symm.trans hr)
      exact .inr ⟨_, hrep, hy⟩
    · exact absurd (hx.symm.trans hr) (by simp)
  · rcases hr with hr | ⟨e, hr⟩
    · exact absurd (hx.symm.trans hr) (by simp)
    · obtain rfl := congrArg Prod.snd (hx.symm.trans hr)
      exact .inl hf
  · rcases hr with hr | ⟨e, hr⟩
    · exact absurd (hx.symm.trans hr) (by simp)
    · exact absurd (hx.symm.trans hr) (by simp)

/-- Every arena of a run is a tree with sound caches. -/
theorem Runs.represents {P : Call → Prop} {m m' : Mpt} (h : Runs E P m m')
    (h0 : ∃ t, Represents E m t) : ∃ t, Represents E m' t := by
  refine h.invariant (I := fun m => ∃ t, Represents E m t) h0 fun call m₁ m₂ _ ⟨t, ht⟩ hr => ?_
  rcases ht.returns hr with hf | ⟨t', ht', _⟩
  · exact ⟨t, ht.fills hf⟩
  · exact ⟨t', ht'⟩

/-! ## Caches -/

/-- The arena with all caches empty. -/
def clearCaches (m : Mpt) : Mpt :=
  { m with cells := m.cells.map fun c => { c with cachedReference := none } }

/-- A node that is reached from the root. -/
inductive Linked (m : Mpt) : NodeId → Prop
  | root : Linked m m.rootId
  | extension {id child : NodeId} {path : Bytes} {r : Option NodeRef} (h : Linked m id)
    (hc : m.cells[id]? = some ⟨.extension path child, r⟩) : Linked m child
  | branch {id child : NodeId} {children : Fin 16 → Option NodeId} {r : Option NodeRef} {i : Fin 16}
    (h : Linked m id) (hc : m.cells[id]? = some ⟨.branch children, r⟩)
    (hi : children i = some child) : Linked m child

/-- A run starts with an empty trie, or with the decoding of a well-formed one. -/
inductive Begins (E : Env) : Mpt → Prop
  | new : Begins E new
  | decoded {source m : Mpt} {t : Trie} {bytes rest : Bytes} {numNodes : Nat}
    (h : Represents E source t) (hn : t.Normal) (hw : Encodable E t)
    (he : (encodeTrie E source).1 = .ok bytes)
    (hd : decodeTrie E bytes numNodes = .ok (m, rest)) : Begins E m

theorem Begins.represents (hinv : Inverse E.decodeHeader) (hpc : PrefixConsuming E.decodeHeader)
    {m : Mpt} (h : Begins E m) : ∃ t, Represents E m t := by
  cases h with
  | new => exact ⟨null, represents_new⟩
  | @decoded source m t bytes rest numNodes hs hn hw he hd =>
    obtain ⟨_, hm', _⟩ := encodeTrie_spec (Rep.reads hs) hs.depth_le
    obtain rfl : encoding E t = bytes := by
      rw [hm'] at he
      exact Except.ok.inj he
    have hsolid : t = null ∨ Solid t := by
      by_cases h0 : t = null
      · exact .inl h0
      · exact .inr (solid_of_normal hn h0)
    obtain ⟨m₁, rest₁, hd₁, hr⟩ := decodeTrie_represents hinv hpc hw hsolid numNodes
    obtain ⟨rfl, _⟩ : m₁ = m ∧ rest₁ = rest := by
      simpa using hd₁.symm.trans hd
    exact ⟨t, hr⟩

/-- A linked node is read as a part of the tree. -/
theorem Linked.reads {m : Mpt} {t : Trie} (ht : Reads E m t m.rootId) {id : NodeId}
    (h : Linked m id) :
    ∃ s, Reads E m s id ∧ depth s ≤ depth t ∧ (t.Resolved → s.Resolved) := by
  induction h with
  | root => exact ⟨t, ht, Nat.le_refl _, fun hr => hr⟩
  | extension _ hc ih =>
    obtain ⟨s, hs, hle, hres⟩ := ih
    cases s with
    | ext p c =>
      obtain ⟨r', j, hc', _, hl⟩ := hs
      rw [hc] at hc'
      simp only [Option.some.injEq, Cell.mk.injEq, NodeData.extension.injEq] at hc'
      obtain ⟨⟨_, rfl⟩, _⟩ := hc'
      exact ⟨c, hl, (Nat.le_succ _).trans hle, hres⟩
    | branch c =>
      obtain ⟨r', ids, hc', _⟩ := hs
      simp [hc] at hc'
    | _ =>
      obtain ⟨r', hc', _⟩ := hs
      simp [hc] at hc'
  | @branch id child children r i _ hc hi ih =>
    obtain ⟨s, hs, hle, hres⟩ := ih
    cases s with
    | branch c =>
      obtain ⟨r', ids, hc', _, hl⟩ := hs
      rw [hc] at hc'
      simp only [Option.some.injEq, Cell.mk.injEq, NodeData.branch.injEq] at hc'
      obtain ⟨rfl, _⟩ := hc'
      rcases hl i with ⟨hn, _⟩ | ⟨j, hj, hne, hij⟩
      · simp [hn] at hi
      · obtain rfl : j = child := by simpa [hj] using hi
        have hlt := depth_child_lt hne
        exact ⟨c i, hij, by omega, fun ht => hres ht i⟩
    | ext p c =>
      obtain ⟨r', j, hc', _⟩ := hs
      simp [hc] at hc'
    | _ =>
      obtain ⟨r', hc', _⟩ := hs
      simp [hc] at hc'

@[simp] theorem size_clearCaches (m : Mpt) : (clearCaches m).size = m.size := by
  simp [clearCaches, size]

/-- Without its caches the arena is the same tree. -/
theorem Reads.clearCaches {m : Mpt} {t : Trie} {id : NodeId} (h : Reads E m t id) :
    Reads E (clearCaches m) t id := by
  refine Layout.mono (fun k data r u hc _ _ => ⟨none, ?_, .inl rfl⟩) h
  simp [Mpt.clearCaches, hc]

/-- Every cached reference that can be reached is the one computed from the nodes alone, and
so is the root hash. -/
theorem caches_fresh (hinv : Inverse E.decodeHeader) (hpc : PrefixConsuming E.decodeHeader)
    {m₀ m : Mpt} (h0 : Begins E m₀) (h : Runs E (fun _ => True) m₀ m) :
    (∀ id data r, Linked m id → m.cells[id]? = some ⟨data, some r⟩ →
      (withStack (fun fuel => calcReference E fuel id) (clearCaches m)).1 = .ok r) ∧
    ∃ root, (hash E m).1 = .ok root ∧ (hash E (clearCaches m)).1 = .ok root := by
  obtain ⟨t, ht⟩ := h.represents (h0.represents hinv hpc)
  have hroot : Reads E m t m.rootId := Rep.reads ht
  refine ⟨fun id data r hl hc => ?_, Trie.hash E t, ?_, ?_⟩
  · obtain ⟨s, hs, hle, _⟩ := hl.reads hroot
    obtain ⟨data', r', hc', hr'⟩ := hs.exists_cell
    have hr : r = s.ref E := by
      rcases hr' with rfl | rfl
      · simp [hc] at hc'
      · simp only [hc, Option.some.injEq, Cell.mk.injEq] at hc'
        exact hc'.2
    have hdepth : depth s ≤ (clearCaches m).size := by
      rw [size_clearCaches]
      exact hle.trans ht.depth_le
    obtain ⟨m', hm', _⟩ := calcReference_spec hdepth id (clearCaches m) hs.clearCaches
    rw [withStack_apply, hm', hr]
  · obtain ⟨m', hm', _⟩ := hash_spec hroot ht.depth_le
    rw [hm']
  · obtain ⟨m', hm', _⟩ := hash_spec (m := clearCaches m) hroot.clearCaches
      (by rw [size_clearCaches]; exact ht.depth_le)
    rw [hm']

theorem Runs.ok {P : Call → Prop} {m m₁ : Mpt} (h : Runs E P m m₁) {call : Call} (hp : P call)
    (hok : (call.run E m₁).1 = .ok ()) : Runs E P m (call.run E m₁).2 :=
  h.step call hp (.inl (Prod.ext hok rfl))

/-- Two keys are inserted, with the root hashed after each. -/
def hashedPair : Mpt :=
  let m₁ := ((Call.insert [0x12] [5]).run sampleEnv new).2
  let m₂ := (Call.hash.run sampleEnv m₁).2
  let m₃ := ((Call.insert [0x23] [5]).run sampleEnv m₂).2
  (Call.hash.run sampleEnv m₃).2

theorem runs_hashedPair {P : Call → Prop} (hp : ∀ key value, P (.insert key value))
    (hh : P .hash) : Runs sampleEnv P new hashedPair :=
  (((Runs.refl.ok (hp [0x12] [5]) (by decide)).ok hh (by decide)).ok
    (hp [0x23] [5]) (by decide)).ok hh (by decide)

theorem caches_fresh_pair :
    hashedPair.cells[1]? = some ⟨.leaf [0x32] [5], some (.bytes [0xc2, 0x32, 5])⟩ ∧
    (withStack (fun fuel => calcReference sampleEnv fuel 1) (clearCaches hashedPair)).1 =
      .ok (.bytes [0xc2, 0x32, 5]) ∧
    ∃ root, (hash sampleEnv hashedPair).1 = .ok root ∧
      (hash sampleEnv (clearCaches hashedPair)).1 = .ok root := by
  have hcell : hashedPair.cells[1]? =
      some ⟨.leaf [0x32] [5], some (.bytes [0xc2, 0x32, 5])⟩ := by
    decide
  have hroot : ∃ ids r, hashedPair.cells[hashedPair.rootId]? = some ⟨.branch ids, r⟩ ∧
      ids 1 = some 1 :=
    ⟨_, _, rfl, by decide⟩
  obtain ⟨ids, r, hc, hi⟩ := hroot
  have h := caches_fresh (E := sampleEnv) inverse_decodeHeader prefixConsuming_decodeHeader .new
    (runs_hashedPair (fun _ _ => trivial) trivial)
  exact ⟨hcell, h.1 1 _ _ (Linked.root.branch hc hi) hcell, h.2⟩

/-! ## Failed updates -/

/-- The calls that build a trie without digests. -/
def Call.Plain : Call → Prop
  | .replaceFrontierSlot _ _ _ => False
  | _ => True

/-- A canonical trie of byte strings, of any lengths, with nothing hidden. -/
structure Full (t : Trie) : Prop where
  normal : t.Normal
  resolved : t.Resolved
  keys : ∀ nibs v, Binds t nibs v → ∃ key, nibs = Hp.keyNibs key

theorem full_null : Full null := ⟨trivial, trivial, fun _ _ h => absurd h (not_binds_null _ _)⟩

/-- The calls keep the trie canonical. -/
theorem Full.yields {t t' : Trie} (h : Full t) {call : Call} (hp : call.Plain)
    (hy : call.Yields E t t') : Full t' := by
  cases call with
  | insert key value =>
    obtain ⟨b, hins⟩ := hy
    have hi := inserted_of_ok hins
    refine ⟨hi.normal h.normal, hi.resolved h.resolved, fun nibs v hb => ?_⟩
    rcases hi.binds hb with rfl | hold
    · exact ⟨key, rfl⟩
    · exact h.keys nibs v hold
  | delete key =>
    obtain ⟨b, hdel⟩ := hy
    obtain ⟨hbinds, hres⟩ := delete_shrinks h.normal hdel
    exact ⟨normal_delete h.normal hdel, hres h.resolved,
      fun nibs v hb => h.keys nibs v (hbinds nibs v hb)⟩
  | replaceFrontierSlot prefixNibs expectedRoot newRoot => exact hp.elim
  | get key => exact (show t' = t from hy) ▸ h
  | hash => exact (show t' = t from hy) ▸ h
  | rootIsHashAddressed => exact (show t' = t from hy) ▸ h

/-- What is reached from the empty trie is canonical. -/
theorem Runs.full {m : Mpt} (h : Runs E Call.Plain new m) : ∃ t, Represents E m t ∧ Full t := by
  refine h.invariant (I := fun m => ∃ t, Represents E m t ∧ Full t) ⟨null, represents_new, full_null⟩
    fun call m₁ m₂ hp ⟨t, ht, hfull⟩ hr => ?_
  rcases ht.returns hr with hf | ⟨t', ht', hy⟩
  · exact ⟨t, ht.fills hf, hfull⟩
  · exact ⟨t', ht', hfull.yields hp hy⟩

/-- A key is stored in an arena. -/
def Stored (m : Mpt) (key : Bytes) : Prop := ∃ v, (get key m).1 = .ok (some v)

theorem stored_iff {m : Mpt} {t : Trie} (h : Represents E m t) (key : Bytes) :
    Stored m key ↔ ∃ v, Binds t (Hp.keyNibs key) v := by
  have hget := getNibbles_spec h (Hp.keyNibs key)
  rw [Hp.map_toByte_keyNibs] at hget
  unfold Stored Binds Mpt.get
  rw [hget]
  cases hg : t.get (Hp.keyNibs key) with
  | ok o => simp [Except.mapError]
  | error f => simp [Except.mapError]

theorem clash_iff {m : Mpt} {t : Trie} (h : Represents E m t) (hfull : Full t) (key : Bytes) :
    Clash t (Hp.keyNibs key) ↔
      ∃ key', Stored m key' ∧ key' ≠ key ∧ (key' <+: key ∨ key <+: key') := by
  constructor
  · rintro ⟨bound, v, hb, hne, hpre⟩
    obtain ⟨key', rfl⟩ := hfull.keys bound v hb
    refine ⟨key', (stored_iff h key').mpr ⟨v, hb⟩, fun he => hne (by rw [he]), ?_⟩
    rwa [Hp.keyNibs_prefix, Hp.keyNibs_prefix] at hpre
  · rintro ⟨key', hs, hne, hpre⟩
    obtain ⟨v, hb⟩ := (stored_iff h key').mp hs
    refine ⟨_, v, hb, fun he => hne (Hp.keyNibs_injective he), ?_⟩
    rwa [Hp.keyNibs_prefix, Hp.keyNibs_prefix]

/-- The insertion of a key into a canonical trie fails exactly when it clashes with a stored
key. -/
theorem insert_full {m : Mpt} {t : Trie} (h : Represents E m t) (hfull : Full t)
    (key value : Bytes) :
    ((insert key value m).1 = .error (.err .valueInBranch) ∧
      ∃ key', Stored m key' ∧ key' ≠ key ∧ (key' <+: key ∨ key <+: key')) ∨
    ((∃ b, (insert key value m).1 = .ok b) ∧
      ¬ ∃ key', Stored m key' ∧ key' ≠ key ∧ (key' <+: key ∨ key <+: key')) := by
  rw [← clash_iff h hfull]
  have hx := insertNibbles_refines h (Hp.keyNibs key) value
  rw [Hp.map_toByte_keyNibs] at hx
  rcases insert_error_iff hfull.normal hfull.resolved (Hp.keyNibs key) value with
    ⟨hop, hc⟩ | ⟨⟨⟨b, t'⟩, hop⟩, hc⟩
  · refine .inl ⟨?_, hc⟩
    have hm := (hx.root h fun _ => insert_false).2 _ hop (by simp)
    exact congrArg Prod.fst hm
  · refine .inr ⟨⟨b, ?_⟩, hc⟩
    obtain ⟨m', hm', _⟩ := (hx.root h fun _ => insert_false).1 b t' hop
    exact congrArg Prod.fst hm'

/-- A call that fails leaves the nodes and the root hash as they were. -/
theorem Represents.atomic {m m' : Mpt} {t : Trie} (h : Represents E m t) {call : Call} {e : Error}
    (hm : call.run E m = (.error (.err e), m')) :
    m'.rootId = m.rootId ∧ m'.cells.map Cell.data = m.cells.map Cell.data ∧
      (hash E m').1 = (hash E m).1 := by
  have hf : Fills E m m' := by
    rcases h.ends call with ⟨hx, _, _⟩ | ⟨hx, hf⟩ | hx
    · exact absurd (hx.symm.trans hm) (by simp)
    · obtain rfl := congrArg Prod.snd (hx.symm.trans hm)
      exact hf
    · exact absurd (hx.symm.trans hm) (by simp)
  refine ⟨hf.rootId, ?_, ?_⟩
  · refine List.ext_getElem? fun k => ?_
    rw [List.getElem?_map, List.getElem?_map]
    rcases hf.cells k with heq | ⟨data, u, hd, _, hd'⟩
    · rw [heq]
    · rw [hd, hd']
      rfl
  · obtain ⟨m₁, h₁, _⟩ := hash_represents h
    obtain ⟨m₂, h₂, _⟩ := hash_represents (h.fills hf)
    rw [h₁, h₂]

/-- Updates fail exactly when they have to, and a failed update is no update.  The first part
says which tries the second part is about. -/
theorem failed_update (E : Env) :
    (∀ m, Runs E Call.Plain new m → ∃ t, Represents E m t ∧ Full t) ∧
    (∀ m t, Represents E m t → Full t → ∀ key value,
      ((insert key value m).1 = .error (.err .valueInBranch) ↔
        ∃ key', Stored m key' ∧ key' ≠ key ∧ (key' <+: key ∨ key <+: key')) ∧
      ((¬ ∃ key', Stored m key' ∧ key' ≠ key ∧ (key' <+: key ∨ key <+: key')) →
        ∃ b, (insert key value m).1 = .ok b)) ∧
    (∀ m t, Represents E m t → ∀ call e m', Call.run E call m = (.error (.err e), m') →
      m'.rootId = m.rootId ∧ m'.cells.map Cell.data = m.cells.map Cell.data ∧
        (hash E m').1 = (hash E m).1) := by
  refine ⟨fun m h => h.full, fun m t h hfull key value => ?_, fun m t h call e m' => h.atomic⟩
  rcases insert_full h hfull key value with ⟨he, hc⟩ | ⟨⟨b, hb⟩, hc⟩
  · exact ⟨⟨fun _ => hc, fun _ => he⟩, fun hn => absurd hc hn⟩
  · refine ⟨⟨fun he => ?_, fun h => absurd h hc⟩, fun _ => ⟨b, hb⟩⟩
    rw [hb] at he
    exact absurd he (by simp)

/-- The key `0x1234` meets the stored key `0x12`. -/
theorem failed_update_pair :
    (insert [0x12, 0x34] [7] hashedPair).1 = .error (.err .valueInBranch) ∧
    ((Call.insert [0x12, 0x34] [7]).run sampleEnv hashedPair).2.cells.map Cell.data =
      hashedPair.cells.map Cell.data := by
  obtain ⟨hruns, hexact, hatomic⟩ := failed_update sampleEnv
  obtain ⟨t, ht, hfull⟩ := hruns hashedPair
    (runs_hashedPair (P := Call.Plain) (fun _ _ => trivial) trivial)
  have hstored : Stored hashedPair [0x12] := ⟨[5], by decide⟩
  have hm : (insert [0x12, 0x34] [7] hashedPair).1 = .error (.err .valueInBranch) :=
    (hexact hashedPair t ht hfull [0x12, 0x34] [7]).1.mpr
      ⟨[0x12], hstored, by decide, .inl (by decide)⟩
  have hrun : ((Call.insert [0x12, 0x34] [7]).run sampleEnv hashedPair).1 =
      .error (.err .valueInBranch) := by
    decide
  exact ⟨hm, (hatomic hashedPair t ht _ _ _ (Prod.ext hrun rfl)).2.1⟩

end Mpt
end CenoReth
