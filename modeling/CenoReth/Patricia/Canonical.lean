/-
The trie of a map.

`canonical n m` is the compressed trie of the map `m` on keys of `n` digits.
Lookup, insertion and deletion on it are the operations of the map, so whatever
a sequence of them does, the tree depends on the map alone.

`yellowPaper n m` builds a tree from the map top down, as the Ethereum
specification does: nothing for no key, a leaf for one key, an extension for the
longest common prefix of several keys, a branch where they part.  It is the same
tree.
-/
import CenoReth.Patricia.Sparse

namespace CenoReth
namespace Patricia

open Radix

variable {k : Nat} {β δ : Type}

/-- The part of a map below a prefix. -/
def below (p : List (Fin k)) (m : List (Fin k) → Option β) : List (Fin k) → Option β :=
  fun key => m (p ++ key)

@[simp] theorem below_apply (p key : List (Fin k)) (m : List (Fin k) → Option β) :
    below p m key = m (p ++ key) := rfl

theorem below_append (p q : List (Fin k)) (m : List (Fin k) → Option β) :
    below q (below p m) = below (p ++ q) m := by
  funext key
  simp

/-- The sparse trie of a map. -/
def Sparse.ofMap : (n : Nat) → (List (Fin k) → Option β) → Sparse k β δ n
  | 0, m => .value (m [])
  | n + 1, m => .node fun i => Sparse.ofMap n (below [i] m)

/-- The compressed trie of a map. -/
def canonical (n : Nat) (m : List (Fin k) → Option β) : Radix k β δ :=
  (Sparse.ofMap n m : Sparse k β δ n).compress

theorem canonical_succ (n : Nat) (m : List (Fin k) → Option β) :
    (canonical (n + 1) m : Radix k β δ) = collapse fun i => canonical n (below [i] m) := rfl

theorem normal_canonical (n : Nat) (m : List (Fin k) → Option β) :
    (canonical n m : Radix k β δ).Normal :=
  Sparse.normal_compress _

/-! ## Map operations -/

theorem below_update_self (i : Fin k) (key : List (Fin k)) (o : Option β)
    (m : List (Fin k) → Option β) :
    below [i] (Function.update m (i :: key) o) = Function.update (below [i] m) key o := by
  funext x
  by_cases hx : x = key
  · subst hx
    simp
  · simp [hx]

theorem below_update_ne {i j : Fin k} (hij : j ≠ i) (key : List (Fin k)) (o : Option β)
    (m : List (Fin k) → Option β) :
    below [j] (Function.update m (i :: key) o) = below [j] m := by
  funext x
  simp [hij]

theorem Sparse.get_ofMap : (n : Nat) → (m : List (Fin k) → Option β) → {key : List (Fin k)} →
    key.length = n → (Sparse.ofMap n m : Sparse k β δ n).get key = .ok (m key)
  | 0, m, [], _ => rfl
  | n + 1, m, i :: key, h => by
    simpa [Sparse.ofMap, Sparse.get] using
      Sparse.get_ofMap n (below [i] m) (show key.length = n by simpa using h)

theorem Sparse.set_ofMap : (n : Nat) → (m : List (Fin k) → Option β) → {key : List (Fin k)} →
    key.length = n → (o : Option β) →
    (Sparse.ofMap n m : Sparse k β δ n).set key o = Sparse.ofMap n (Function.update m key o)
  | 0, m, [], _, o => by simp [Sparse.ofMap, Sparse.set]
  | n + 1, m, i :: key, h, o => by
    have ih := Sparse.set_ofMap n (below [i] m) (show key.length = n by simpa using h) o
    simp only [Sparse.ofMap, Sparse.set, ih, Sparse.node.injEq]
    funext j
    by_cases hj : j = i
    · subst hj
      simp [below_update_self]
    · simp [Function.update_of_ne hj, below_update_ne hj]

theorem get_canonical {n : Nat} (m : List (Fin k) → Option β) {key : List (Fin k)}
    (h : key.length = n) : (canonical n m : Radix k β δ).get key = .ok (m key) := by
  rw [canonical, Sparse.get_compress _ h, Sparse.get_ofMap n m h]

theorem insert_canonical [DecidableEq β] {n : Nat} (m : List (Fin k) → Option β)
    {key : List (Fin k)} (h : key.length = n) (v : β) :
    (canonical n m : Radix k β δ).insert key v =
      .ok (decide (m key ≠ some v), canonical n (Function.update m key (some v))) := by
  rw [canonical, Sparse.insert_compress _ h, Sparse.get_ofMap n m h, Sparse.set_ofMap n m h]
  rfl

theorem delete_canonical {n : Nat} (m : List (Fin k) → Option β) {key : List (Fin k)}
    (h : key.length = n) :
    (canonical n m : Radix k β δ).delete key =
      .ok ((m key).isSome, canonical n (Function.update m key none)) := by
  rw [canonical, Sparse.delete_compress _ h, Sparse.get_ofMap n m h, Sparse.set_ofMap n m h]
  rfl

/-- Only the keys of the right length matter. -/
theorem canonical_congr : (n : Nat) → {m m' : List (Fin k) → Option β} →
    (∀ key, key.length = n → m key = m' key) →
    (canonical n m : Radix k β δ) = canonical n m'
  | 0, m, m', h => by simp [canonical, Sparse.ofMap, h [] rfl]
  | n + 1, m, m', h => by
    rw [canonical_succ, canonical_succ]
    congr 1
    funext i
    exact canonical_congr n fun key hk => h ([i] ++ key) (by simp [hk])

/-! ## Shape of the trie -/

theorem collapse_ne_null {c : Fin k → Radix k β δ} (hn : ∀ i, (c i).Normal) {i : Fin k}
    (hi : c i ≠ null) : collapse c ≠ null := by
  rcases occupied_cases c with ⟨_, hc⟩ | ⟨j, _, hj, hc⟩ | hc
  · exact absurd (hc i) hi
  · rw [collapse_one hj hc]
    exact extend_ne_null (hn j) hj
  · simp [collapse_many hc]

/-- The trie is empty exactly when the map is. -/
theorem canonical_eq_null : (n : Nat) → {m : List (Fin k) → Option β} →
    ((canonical n m : Radix k β δ) = null ↔ ∀ key, key.length = n → m key = none)
  | 0, m => by
    constructor
    · intro h key hk
      rw [List.eq_nil_of_length_eq_zero hk]
      simp only [canonical, Sparse.ofMap] at h
      cases hm : m [] with
      | none => rfl
      | some v => simp [hm, Sparse.compress] at h
    · intro h
      simp [canonical, Sparse.ofMap, h [] rfl, Sparse.compress]
  | n + 1, m => by
    rw [canonical_succ]
    constructor
    · rintro h (_ | ⟨i, key⟩) hk
      · simp at hk
      · have hi : (canonical n (below [i] m) : Radix k β δ) = null := by
          by_contra hne
          exact collapse_ne_null (fun i => normal_canonical n (below [i] m)) hne h
        exact (canonical_eq_null n).mp hi key (by simpa using hk)
    · intro h
      exact collapse_none fun i =>
        (canonical_eq_null n).mpr fun key hk => h ([i] ++ key) (by simp [hk])

theorem resolved_extend {p : List (Fin k)} {t : Radix k β δ} (h : t.Resolved) :
    (extend p t).Resolved := by
  cases t <;> simp_all [extend, Resolved]

/-- The trie of a map has no opaque part. -/
theorem resolved_canonical : (n : Nat) → (m : List (Fin k) → Option β) →
    (canonical n m : Radix k β δ).Resolved
  | 0, m => by
    cases hm : m [] <;> simp [canonical, Sparse.ofMap, hm, Sparse.compress, Resolved]
  | n + 1, m => by
    have ih := fun i => resolved_canonical n (below [i] m)
    rw [canonical_succ]
    rcases occupied_cases fun i => (canonical n (below [i] m) : Radix k β δ) with
      ⟨_, hc⟩ | ⟨j, _, hj, hc⟩ | hc
    · rw [collapse_none hc]
      trivial
    · rw [collapse_one hj hc]
      exact resolved_extend (ih j)
    · rw [collapse_many hc]
      exact ih

theorem sized_extend {n : Nat} {j : Fin k} {t : Radix k β δ} (h : t.Sized n) :
    (extend [j] t).Sized (n + 1) := by
  cases t with
  | leaf p v =>
    have hp : p.length = n := h
    show (j :: p).length = n + 1
    simp [hp]
  | ext p c =>
    obtain ⟨hp, hc⟩ := h
    refine ⟨by simpa using hp, ?_⟩
    simpa using hc
  | branch c => exact ⟨by simp, by simpa using h⟩
  | digest d => exact ⟨by simp, trivial⟩
  | null => trivial
  | hole => trivial

/-- A compressed trie stores keys of one length. -/
theorem Sparse.sized_compress : {n : Nat} → (s : Sparse k β δ n) → s.compress.Sized n
  | _, .digest _ => trivial
  | _, .value none => trivial
  | _, .value (some _) => rfl
  | n + 1, .node c => by
    have ih := fun i => Sparse.sized_compress (c i)
    simp only [Sparse.compress]
    rcases occupied_cases fun i => (c i).compress with ⟨_, hc⟩ | ⟨j, _, hj, hc⟩ | hc
    · rw [collapse_none hc]
      trivial
    · rw [collapse_one hj hc]
      exact sized_extend (ih j)
    · rw [collapse_many hc]
      exact ⟨Nat.succ_pos n, ih⟩

/-! ## Every normal tree is the trie of a map -/

/-- A node with one child. -/
def Sparse.single {n : Nat} (i : Fin k) (s : Sparse k β δ n) : Sparse k β δ (n + 1) :=
  .node (Function.update (fun _ => Sparse.ofMap n fun _ => none) i s)

theorem Sparse.compress_single {n : Nat} (i : Fin k) {s : Sparse k β δ n}
    (hs : s.compress ≠ null) : (Sparse.single i s).compress = extend [i] s.compress := by
  have hempty : ∀ j, j ≠ i → (Function.update (fun _ => Sparse.ofMap n fun _ => none) i s j).compress
      = (null : Radix k β δ) := by
    intro j hj
    rw [Function.update_of_ne hj]
    exact (canonical_eq_null n).mpr fun _ _ => rfl
  simp only [Sparse.single, Sparse.compress]
  rw [collapse_one (j := i) (by simpa using hs) hempty]
  simp

/-- A path in front of a compressed trie is the trie of a longer map. -/
theorem exists_compress_extend : (p : List (Fin k)) → p ≠ [] → {n n' : Nat} →
    n' = p.length + n → (s : Sparse k β δ n) → s.compress ≠ null →
    ∃ s' : Sparse k β δ n', s'.compress = extend p s.compress
  | [i], _, n, n', hlen, s, hs => by
    obtain rfl : n' = n + 1 := by
      simp only [List.length_singleton] at hlen
      omega
    exact ⟨Sparse.single i s, Sparse.compress_single i hs⟩
  | i :: j :: p, _, n, n', hlen, s, hs => by
    obtain rfl : n' = (j :: p).length + n + 1 := by
      simp only [List.length_cons] at hlen ⊢
      omega
    obtain ⟨s', h'⟩ := exists_compress_extend (j :: p) (by simp) rfl s hs
    have hne : s'.compress ≠ null := by
      rw [h']
      exact extend_ne_null (Sparse.normal_compress s) hs
    refine ⟨Sparse.single i s', ?_⟩
    rw [Sparse.compress_single i hne, h', extend_extend, List.singleton_append]

/-- Every normal tree over keys of `n` digits is a compressed trie. -/
theorem exists_compress : (t : Radix k β δ) → {n : Nat} → t.Normal → t.Sized n →
    ∃ s : Sparse k β δ n, s.compress = t
  | .null, n, _, _ => ⟨Sparse.ofMap n fun _ => none, (canonical_eq_null n).mpr fun _ _ => rfl⟩
  | .hole, _, h, _ => absurd h id
  | .digest d, _, _, _ => ⟨.digest d, rfl⟩
  | .leaf [] v, n, _, hs => by
    have hn : n = 0 := hs.symm
    subst hn
    exact ⟨.value (some v), rfl⟩
  | .leaf (i :: p) v, n, _, hs => by
    have hlen : n = (i :: p).length + 0 := hs.symm
    obtain ⟨s, h⟩ := exists_compress_extend (i :: p) (by simp) hlen
      (.value (some v) : Sparse k β δ 0) (by simp [Sparse.compress])
    exact ⟨s, by simpa [Sparse.compress] using h⟩
  | .ext p c, n, ⟨hp, hb, hc⟩, ⟨hlen, hs⟩ => by
    obtain ⟨s, h⟩ := exists_compress c hc hs
    have hne : s.compress ≠ null := by
      rw [h]
      rintro rfl
      exact hb
    obtain ⟨s', h'⟩ := exists_compress_extend p hp
      (show n = p.length + (n - p.length) by omega) s hne
    refine ⟨s', ?_⟩
    rw [h', h]
    cases c <;> simp_all [isBranching]
  | .branch c, 0, _, ⟨hpos, _⟩ => absurd hpos (Nat.lt_irrefl 0)
  | .branch c, n + 1, ⟨htwo, hn⟩, ⟨_, hs⟩ => by
    choose f hf using fun i => exists_compress (c i) (hn i) (hs i)
    refine ⟨.node f, ?_⟩
    have hc : (fun i => (f i).compress) = c := funext hf
    simp only [Sparse.compress, hc]
    exact collapse_many htwo

theorem resolved_of_extend {p : List (Fin k)} {t : Radix k β δ} (hn : t.Normal)
    (h : (extend p t).Resolved) : t.Resolved := by
  cases t <;> simp_all [extend, Resolved, Radix.Normal]

theorem resolved_of_collapse {c : Fin k → Radix k β δ} (hn : ∀ i, (c i).Normal)
    (h : (collapse c).Resolved) (i : Fin k) : (c i).Resolved := by
  rcases occupied_cases c with ⟨_, hc⟩ | ⟨j, _, hj, hc⟩ | hc
  · rw [hc i]
    trivial
  · rw [collapse_one hj hc] at h
    by_cases hij : i = j
    · subst hij
      exact resolved_of_extend (hn i) h
    · rw [hc i hij]
      trivial
  · rw [collapse_many hc] at h
    exact h i

theorem Sparse.exists_ofMap : {n : Nat} → (s : Sparse k β δ n) → s.compress.Resolved →
    ∃ m, s = Sparse.ofMap n m
  | _, .digest _, h => absurd h id
  | _, .value v, _ => ⟨fun _ => v, rfl⟩
  | n + 1, .node c, h => by
    choose f hf using fun i =>
      Sparse.exists_ofMap (c i) (resolved_of_collapse (fun i => Sparse.normal_compress (c i)) h i)
    refine ⟨fun key => key.head?.bind fun i => f i key.tail, ?_⟩
    simp only [Sparse.ofMap, Sparse.node.injEq]
    funext i
    rw [hf i]
    congr 1

/-- A tree is the trie of a map on keys of `n` digits: it is normal, nothing in
it is opaque, and its keys have `n` digits. -/
structure IsTrie (n : Nat) (t : Radix k β δ) : Prop where
  normal : t.Normal
  resolved : t.Resolved
  sized : t.Sized n

theorem isTrie_canonical (n : Nat) (m : List (Fin k) → Option β) :
    IsTrie n (canonical n m : Radix k β δ) :=
  ⟨normal_canonical n m, resolved_canonical n m, Sparse.sized_compress _⟩

/-- The description by shape and the description by map agree. -/
theorem isTrie_iff {n : Nat} {t : Radix k β δ} : IsTrie n t ↔ ∃ m, t = canonical n m := by
  constructor
  · intro h
    obtain ⟨s, rfl⟩ := exists_compress t h.normal h.sized
    obtain ⟨m, rfl⟩ := Sparse.exists_ofMap s h.resolved
    exact ⟨m, rfl⟩
  · rintro ⟨m, rfl⟩
    exact isTrie_canonical n m

/-- A trie is determined by its answers. -/
theorem eq_of_get {n : Nat} {t u : Radix k β δ} (ht : IsTrie n t) (hu : IsTrie n u)
    (h : ∀ key, key.length = n → t.get key = u.get key) : t = u := by
  obtain ⟨m, rfl⟩ := isTrie_iff.mp ht
  obtain ⟨m', rfl⟩ := isTrie_iff.mp hu
  refine canonical_congr n fun key hk => ?_
  have hget := h key hk
  rw [get_canonical m hk, get_canonical m' hk] at hget
  exact Except.ok.inj hget

/-! ## The trie built from the map -/

/-- The keys of `n` digits that the map binds. -/
def Keys (n : Nat) (m : List (Fin k) → Option β) (key : List (Fin k)) : Prop :=
  key.length = n ∧ m key ≠ none

open Classical in
/-- The longest prefix that all keys share. -/
noncomputable def commonPrefix : Nat → (List (Fin k) → Option β) → List (Fin k)
  | 0, _ => []
  | n + 1, m =>
    if h : ∃ i, ∀ key, Keys (n + 1) m key → key.head? = some i then
      h.choose :: commonPrefix n (below [h.choose] m)
    else []

/-- The map binds one key. -/
def OneKey (n : Nat) (m : List (Fin k) → Option β) : Prop :=
  ∃ kv : List (Fin k) × β, m kv.1 = some kv.2 ∧ ∀ key, Keys n m key ↔ key = kv.1

open Classical in
/-- The tree of a map, from the map alone. -/
noncomputable def yellowPaper : Nat → (List (Fin k) → Option β) → Radix k β δ
  | 0, m => (m []).elim null (leaf [])
  | n + 1, m =>
    if ∀ key, ¬ Keys (n + 1) m key then null
    else if h : OneKey (n + 1) m then leaf h.choose.1 h.choose.2
    else if h : commonPrefix (n + 1) m = [] then branch fun i => yellowPaper n (below [i] m)
    else ext (commonPrefix (n + 1) m)
      (yellowPaper (n + 1 - (commonPrefix (n + 1) m).length) (below (commonPrefix (n + 1) m) m))
termination_by n => n
decreasing_by
  · omega
  · have := List.length_pos_iff.mpr h
    omega

theorem keys_below {n : Nat} {i : Fin k} {key : List (Fin k)} {m : List (Fin k) → Option β} :
    Keys n (below [i] m) key ↔ Keys (n + 1) m (i :: key) := by
  simp [Keys]

/-- All keys start with one digit: the trie is the trie below it. -/
theorem canonical_one_digit {n : Nat} {m : List (Fin k) → Option β} {i : Fin k}
    (hi : ∀ key, Keys (n + 1) m key → key.head? = some i) (hne : ∃ key, Keys (n + 1) m key) :
    (canonical (n + 1) m : Radix k β δ) = extend [i] (canonical n (below [i] m)) := by
  rw [canonical_succ]
  refine collapse_one ?_ ?_
  · intro hnull
    obtain ⟨_ | ⟨j, key⟩, hkey⟩ := hne
    · simp [Keys] at hkey
    · obtain rfl : j = i := by simpa using hi _ hkey
      exact (keys_below.mpr hkey).2 ((canonical_eq_null n).mp hnull key (keys_below.mpr hkey).1)
  · intro j hj
    refine (canonical_eq_null n).mpr fun key hk => ?_
    by_contra hne'
    have := hi (j :: key) (keys_below.mp ⟨hk, hne'⟩)
    exact hj (by simpa using this)

/-- Two keys part at the first digit: the trie is a branch. -/
theorem canonical_branch {n : Nat} {m : List (Fin k) → Option β}
    (h : ¬ ∃ i, ∀ key, Keys (n + 1) m key → key.head? = some i)
    (hne : ∃ key, Keys (n + 1) m key) :
    (canonical (n + 1) m : Radix k β δ) = branch fun i => canonical n (below [i] m) := by
  rw [canonical_succ]
  refine collapse_many ?_
  have hocc : ∀ i key, Keys (n + 1) m (i :: key) →
      (canonical n (below [i] m) : Radix k β δ) ≠ null := by
    intro i key hk hnull
    exact (keys_below.mpr hk).2 ((canonical_eq_null n).mp hnull key (keys_below.mpr hk).1)
  obtain ⟨_ | ⟨i, key⟩, hkey⟩ := hne
  · simp [Keys] at hkey
  · push Not at h
    obtain ⟨_ | ⟨j, key'⟩, hkey', hij⟩ := h i
    · simp [Keys] at hkey'
    · exact two_le_occupied (fun e => hij (by simp [e])) (hocc i key hkey) (hocc j key' hkey')

/-- The trie of a map with one key is a leaf. -/
theorem canonical_leaf : (n : Nat) → {m : List (Fin k) → Option β} → {key : List (Fin k)} →
    {v : β} → m key = some v → (∀ x, Keys n m x ↔ x = key) →
    (canonical n m : Radix k β δ) = leaf key v
  | 0, m, key, v, hv, hk => by
    have hlen : key.length = 0 := ((hk key).mpr rfl).1
    obtain rfl := List.eq_nil_of_length_eq_zero hlen
    simp [canonical, Sparse.ofMap, hv, Sparse.compress]
  | n + 1, m, key, v, hv, hk => by
    have hkey := (hk key).mpr rfl
    obtain ⟨i, tail, rfl⟩ : ∃ i tail, key = i :: tail := by
      cases key with
      | nil => simp [Keys] at hkey
      | cons i tail => exact ⟨i, tail, rfl⟩
    rw [canonical_one_digit (i := i) (fun x hx => by simp [(hk x).mp hx]) ⟨_, hkey⟩,
      canonical_leaf n (show below [i] m tail = some v from hv) fun x => by
        rw [keys_below, hk]; simp]
    rfl

theorem commonPrefix_succ {n : Nat} {m : List (Fin k) → Option β} {i : Fin k}
    (hi : ∀ key, Keys (n + 1) m key → key.head? = some i) (hne : ∃ key, Keys (n + 1) m key) :
    commonPrefix (n + 1) m = i :: commonPrefix n (below [i] m) := by
  have h : ∃ i, ∀ key, Keys (n + 1) m key → key.head? = some i := ⟨i, hi⟩
  have hchoose : h.choose = i := by
    obtain ⟨key, hkey⟩ := hne
    have h1 := h.choose_spec key hkey
    rw [hi key hkey] at h1
    exact (Option.some.inj h1).symm
  rw [commonPrefix, dif_pos h, hchoose]

theorem commonPrefix_eq_nil {n : Nat} {m : List (Fin k) → Option β}
    (h : ¬ ∃ i, ∀ key, Keys (n + 1) m key → key.head? = some i) :
    commonPrefix (n + 1) m = [] := by
  rw [commonPrefix, dif_neg h]

theorem yellowPaper_eq_branch {n : Nat} {m : List (Fin k) → Option β}
    (hsome : ∃ key, Keys (n + 1) m key) (hmany : ¬ OneKey (n + 1) m)
    (hp : commonPrefix (n + 1) m = []) :
    (yellowPaper (n + 1) m : Radix k β δ) = branch fun i => yellowPaper n (below [i] m) := by
  rw [yellowPaper, if_neg (by push Not; exact hsome), dif_neg hmany, dif_pos hp]

theorem yellowPaper_eq_ext {n : Nat} {m : List (Fin k) → Option β}
    (hsome : ∃ key, Keys (n + 1) m key) (hmany : ¬ OneKey (n + 1) m)
    (hp : commonPrefix (n + 1) m ≠ []) :
    (yellowPaper (n + 1) m : Radix k β δ) = ext (commonPrefix (n + 1) m)
      (yellowPaper (n + 1 - (commonPrefix (n + 1) m).length)
        (below (commonPrefix (n + 1) m) m)) := by
  rw [yellowPaper, if_neg (by push Not; exact hsome), dif_neg hmany, dif_neg hp]

/-- Keys of no digits: there is at most one. -/
theorem oneKey_zero {m : List (Fin k) → Option β} (h : ∃ key, Keys 0 m key) : OneKey 0 m := by
  obtain ⟨key, hlen, hkey⟩ := h
  obtain ⟨v, hv⟩ := Option.ne_none_iff_exists'.mp hkey
  obtain rfl := List.eq_nil_of_length_eq_zero hlen
  exact ⟨([], v), hv, fun x => ⟨fun hx => List.eq_nil_of_length_eq_zero hx.1,
    fun hx => hx ▸ ⟨rfl, hkey⟩⟩⟩

/-- A map whose keys share a digit has as many keys below it. -/
theorem oneKey_of_below {n : Nat} {m : List (Fin k) → Option β} {i : Fin k}
    (hi : ∀ key, Keys (n + 1) m key → key.head? = some i) (h : OneKey n (below [i] m)) :
    OneKey (n + 1) m := by
  obtain ⟨⟨key, v⟩, hv, hall⟩ := h
  refine ⟨(i :: key, v), hv, ?_⟩
  rintro (_ | ⟨j, x⟩)
  · simp [Keys]
  · constructor
    · intro hx
      obtain rfl : j = i := by simpa using hi _ hx
      rw [(hall x).mp (keys_below.mpr hx)]
    · intro hx
      obtain ⟨rfl, rfl⟩ := List.cons.inj hx
      exact keys_below.mp ((hall x).mpr rfl)

/-- Building the tree from the map gives the compressed trie of the map. -/
theorem yellowPaper_eq (n : Nat) (m : List (Fin k) → Option β) :
    (yellowPaper n m : Radix k β δ) = canonical n m := by
  induction n using Nat.strong_induction_on generalizing m with
  | _ n ih =>
  obtain _ | n := n
  · cases hm : m [] <;> simp [yellowPaper, canonical, Sparse.ofMap, Sparse.compress, hm]
  by_cases hsome : ∃ key, Keys (n + 1) m key
  · by_cases hone : OneKey (n + 1) m
    · rw [yellowPaper, if_neg (by push Not; exact hsome), dif_pos hone]
      exact (canonical_leaf (n + 1) hone.choose_spec.1 hone.choose_spec.2).symm
    · by_cases hdigit : ∃ i, ∀ key, Keys (n + 1) m key → key.head? = some i
      · -- peel off the shared digit, which the path of the extension absorbs
        obtain ⟨i, hi⟩ := hdigit
        have hp := commonPrefix_succ hi hsome
        rw [yellowPaper_eq_ext hsome hone (by simp [hp]), canonical_one_digit hi hsome, hp]
        have hsome' : ∃ key, Keys n (below [i] m) key := by
          obtain ⟨_ | ⟨j, key⟩, hkey⟩ := hsome
          · simp [Keys] at hkey
          · obtain rfl : j = i := by simpa using hi _ hkey
            exact ⟨key, keys_below.mpr hkey⟩
        have hone' : ¬ OneKey n (below [i] m) := fun h => hone (oneKey_of_below hi h)
        obtain _ | n := n
        · exact absurd (oneKey_zero hsome') hone'
        rw [← ih (n + 1) (by omega) (below [i] m)]
        by_cases hq : commonPrefix (n + 1) (below [i] m) = []
        · rw [hq, List.length_singleton, Nat.add_sub_cancel,
            yellowPaper_eq_branch hsome' hone' hq, extend_branch]
        · rw [yellowPaper_eq_ext hsome' hone' hq, extend_ext, List.singleton_append,
            below_append, List.singleton_append, List.length_cons, Nat.add_sub_add_right]
      · rw [yellowPaper_eq_branch hsome hone (commonPrefix_eq_nil hdigit),
          canonical_branch hdigit hsome]
        congr 1
        funext i
        exact ih n (by omega) (below [i] m)
  · push Not at hsome
    rw [yellowPaper, if_pos hsome]
    refine ((canonical_eq_null (n + 1)).mpr fun key hk => ?_).symm
    by_contra hne
    exact hsome key ⟨hk, hne⟩

end Patricia
end CenoReth
