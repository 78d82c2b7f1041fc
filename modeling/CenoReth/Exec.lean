/-
Computations with a state that survives a failure.

`Exec ε σ α` is how a method on a mutable receiver runs: it reads and writes the
receiver, and it returns a value or stops with an error.  What it wrote before
the error stays written.  The rules at the end run such computations forward
from known results of their parts.
-/
import Mathlib.Algebra.GroupWithZero.Nat
import Mathlib.Data.List.Forall2

namespace CenoReth

def Exec (ε σ α : Type) : Type := σ → Except ε α × σ

namespace Exec

variable {ε σ α β ι : Type}

instance : Monad (Exec ε σ) where
  pure a := fun s => (.ok a, s)
  bind x f := fun s =>
    match x s with
    | (.ok a, s') => f a s'
    | (.error e, s') => (.error e, s')

/-- Stop with an error. -/
def fail (e : ε) : Exec ε σ α := fun s => (.error e, s)

/-- Read the state. -/
def read (f : σ → α) : Exec ε σ α := fun s => (.ok (f s), s)

/-- Write the state. -/
def write (f : σ → σ) : Exec ε σ Unit := fun s => (.ok (), f s)

/-- Run a computation that has no state. -/
def ofExcept (x : Except ε α) : Exec ε σ α := fun s => (x, s)

/-- Run a computation for every element of a list, from left to right. -/
def collect (f : ι → Exec ε σ α) : List ι → Exec ε σ (List α)
  | [] => pure []
  | i :: l => do
    let a ← f i
    let as ← collect f l
    pure (a :: as)

@[simp] theorem pure_apply (a : α) (s : σ) : (pure a : Exec ε σ α) s = (.ok a, s) := rfl

@[simp] theorem fail_apply (e : ε) (s : σ) : (fail e : Exec ε σ α) s = (.error e, s) := rfl

@[simp] theorem read_apply (f : σ → α) (s : σ) : (read f : Exec ε σ α) s = (.ok (f s), s) := rfl

@[simp] theorem write_apply (f : σ → σ) (s : σ) : (write f : Exec ε σ Unit) s = (.ok (), f s) :=
  rfl

@[simp] theorem ofExcept_apply (x : Except ε α) (s : σ) : (ofExcept x : Exec ε σ α) s = (x, s) :=
  rfl

/-- A result, with the state that it leaves. -/
theorem eq_of_fst {p : α × β} {a : α} (h : p.1 = a) : p = (a, p.2) := Prod.ext h rfl

/-- The first part returns, and the second part runs on its result. -/
theorem bind_ok {x : Exec ε σ α} {f : α → Exec ε σ β} {s s' : σ} {a : α}
    (h : x s = (.ok a, s')) : (x >>= f) s = f a s' := by
  show (match x s with
    | (.ok a, s') => f a s'
    | (.error e, s') => (.error e, s')) = _
  rw [h]

/-- The first part stops, and so does the whole. -/
theorem bind_error {x : Exec ε σ α} {f : α → Exec ε σ β} {s s' : σ} {e : ε}
    (h : x s = (.error e, s')) : (x >>= f) s = (.error e, s') := by
  show (match x s with
    | (.ok a, s') => f a s'
    | (.error e, s') => (.error e, s')) = _
  rw [h]

/-- How a sequence ends: its first part stops, or its second part runs on the result. -/
theorem bind_cases {x : Exec ε σ α} {f : α → Exec ε σ β} {s : σ} {P : Except ε β × σ → Prop}
    (herror : ∀ e s', x s = (.error e, s') → P (.error e, s'))
    (hok : ∀ a s', x s = (.ok a, s') → P (f a s')) : P ((x >>= f) s) := by
  rcases h : x s with ⟨e | a, s'⟩
  · rw [bind_error h]
    exact herror e s' h
  · rw [bind_ok h]
    exact hok a s' h

/-- Only the run from the given state matters. -/
theorem bind_congr {x y : Exec ε σ α} {f : α → Exec ε σ β} {s : σ} (h : x s = y s) :
    (x >>= f) s = (y >>= f) s := by
  rcases hy : y s with ⟨_ | a, s'⟩
  · rw [bind_error hy, bind_error (h.trans hy)]
  · rw [bind_ok hy, bind_ok (h.trans hy)]

theorem bind_assoc {γ : Type} (x : Exec ε σ α) (f : α → Exec ε σ β) (g : β → Exec ε σ γ) :
    (x >>= f) >>= g = x >>= fun a => f a >>= g := by
  funext s
  rcases hx : x s with ⟨_ | a, s'⟩
  · rw [bind_error hx, bind_error (bind_error hx)]
  · rw [bind_ok hx, bind_congr (y := fun _ => f a s') (bind_ok hx)]
    rfl

/-- A sequence that returned: its first part returned, and its second part did. -/
theorem of_bind_ok {x : Exec ε σ α} {f : α → Exec ε σ β} {s s'' : σ} {b : β}
    (h : (x >>= f) s = (.ok b, s'')) : ∃ a s', x s = (.ok a, s') ∧ f a s' = (.ok b, s'') := by
  rcases hx : x s with ⟨_ | a, s'⟩
  · rw [bind_error hx] at h
    simp at h
  · rw [bind_ok hx] at h
    exact ⟨a, s', rfl, h⟩

/-- The same for computations without a state. -/
theorem of_except_bind_ok {x : Except ε α} {f : α → Except ε β} {b : β}
    (h : (x >>= f) = .ok b) : ∃ a, x = .ok a ∧ f a = .ok b := by
  cases x with
  | error e => cases h
  | ok a => exact ⟨a, rfl, h⟩

/-- The same for a chain that fails: one of its parts fails. -/
theorem of_except_bind_error {x : Except ε α} {f : α → Except ε β} {e : ε}
    (h : (x >>= f) = .error e) : x = .error e ∨ ∃ a, x = .ok a ∧ f a = .error e := by
  cases x with
  | error e' => exact .inl (congrArg Except.error (Except.error.inj h))
  | ok a => exact .inr ⟨a, rfl, h⟩

theorem of_mapError_ok {ε' : Type} {x : Except ε α} {f : ε → ε'} {a : α}
    (h : x.mapError f = .ok a) : x = .ok a := by
  cases x with
  | error e => cases h
  | ok b => exact congrArg Except.ok (Except.ok.inj h)

theorem of_map_ok {x : Except ε α} {f : α → β} {b : β} (h : x.map f = .ok b) :
    ∃ a, x = .ok a ∧ f a = b := by
  cases x with
  | error e => cases h
  | ok a => exact ⟨a, rfl, Except.ok.inj h⟩

theorem of_map_error {x : Except ε α} {f : α → β} {e : ε} (h : x.map f = .error e) :
    x = .error e := by
  cases x with
  | error e' => exact congrArg Except.error (Except.error.inj h)
  | ok a => cases h

theorem of_mapM_ok {f : ι → Except ε α} :
    ∀ {l : List ι} {as : List α}, l.mapM f = .ok as → List.Forall₂ (fun i a => f i = .ok a) l as
  | [], as, h => by
    obtain rfl : [] = as := Except.ok.inj h
    exact .nil
  | i :: l, as, h => by
    rw [List.mapM_cons] at h
    obtain ⟨a, ha, h⟩ := of_except_bind_ok h
    obtain ⟨as', has, h⟩ := of_except_bind_ok h
    obtain rfl := Except.ok.inj h
    exact .cons ha (of_mapM_ok has)

theorem of_mapM_error {f : ι → Except ε α} {e : ε} :
    ∀ {l : List ι}, l.mapM f = .error e → ∃ i ∈ l, f i = .error e
  | [], h => by cases h
  | i :: l, h => by
    rw [List.mapM_cons] at h
    rcases of_except_bind_error h with h | ⟨a, -, h⟩
    · exact ⟨i, List.mem_cons_self, h⟩
    rcases of_except_bind_error h with h | ⟨as, -, h⟩
    · obtain ⟨j, hj, h⟩ := of_mapM_error h
      exact ⟨j, List.mem_cons_of_mem _ hj, h⟩
    · cases h

theorem mapM_forall₂ {f : ι → Except ε α} {Q : ι → α → Prop} :
    ∀ (l : List ι), (∀ i ∈ l, ∃ a, f i = .ok a ∧ Q i a) →
      ∃ as, l.mapM f = .ok as ∧ List.Forall₂ Q l as
  | [], _ => ⟨[], rfl, .nil⟩
  | i :: l, h => by
    obtain ⟨a, ha, hq⟩ := h i (by simp)
    obtain ⟨as, has, hqs⟩ := mapM_forall₂ l fun j hj => h j (by simp [hj])
    refine ⟨a :: as, ?_, .cons hq hqs⟩
    rw [List.mapM_cons, ha, has]
    rfl

/-- Every result of a loop has an element it comes from. -/
theorem exists_of_forall₂ {R : ι → α → Prop} {l : List ι} {as : List α} (h : List.Forall₂ R l as)
    {a : α} (ha : a ∈ as) : ∃ i ∈ l, R i a := by
  induction h with
  | nil => cases ha
  | @cons i a' l as hi _ ih =>
    rcases List.mem_cons.mp ha with rfl | ha
    · exact ⟨i, by simp, hi⟩
    · obtain ⟨j, hj, hr⟩ := ih ha
      exact ⟨j, by simp [hj], hr⟩

theorem of_ofExcept_ok {x : Except ε α} {s s' : σ} {a : α}
    (h : ofExcept x s = (.ok a, s')) : x = .ok a ∧ s' = s := by
  simp only [ofExcept_apply, Prod.mk.injEq] at h
  exact ⟨h.1, h.2.symm⟩

/-- A loop that returned: what holds of each result after its step, and is kept by later
steps, holds of all results at the end. -/
theorem of_collect_ok {R : σ → σ → Prop} (hrefl : ∀ s, R s s)
    (htrans : ∀ s s' s'', R s s' → R s' s'' → R s s'') {f : ι → Exec ε σ α}
    {Q : σ → ι → α → Prop} {s₀ : σ}
    (hkeep : ∀ s s' i a, R s₀ s → R s s' → Q s i a → Q s' i a) :
    ∀ (l : List ι) {s s' : σ} {as : List α}, R s₀ s →
      (∀ i ∈ l, ∀ s a s', R s₀ s → f i s = (.ok a, s') → R s s' ∧ Q s' i a) →
      collect f l s = (.ok as, s') → R s s' ∧ List.Forall₂ (Q s') l as
  | [], s, s', as, _, _, h => by
    simp only [collect, pure_apply, Prod.mk.injEq, Except.ok.injEq] at h
    obtain ⟨rfl, rfl⟩ := h
    exact ⟨hrefl s, .nil⟩
  | i :: l, s, s', as, hs, hstep, h => by
    obtain ⟨a, s₁, h₁, h⟩ := of_bind_ok h
    obtain ⟨as', s₂, h₂, h⟩ := of_bind_ok h
    simp only [pure_apply, Prod.mk.injEq, Except.ok.injEq] at h
    obtain ⟨rfl, rfl⟩ := h
    obtain ⟨hr₁, hq₁⟩ := hstep i (by simp) s a s₁ hs h₁
    have hs₁ := htrans _ _ _ hs hr₁
    obtain ⟨hr₂, hq₂⟩ := of_collect_ok hrefl htrans hkeep l hs₁
      (fun j hj => hstep j (by simp [hj])) h₂
    exact ⟨htrans _ _ _ hr₁ hr₂, .cons (hkeep _ _ _ _ hs₁ hr₂ hq₁) hq₂⟩

/-- A loop over two lists that returned ran over the first and then over the second. -/
theorem of_collect_append_ok {f : ι → Exec ε σ α} {l' : List ι} :
    ∀ {l : List ι} {s s'' : σ} {as : List α}, collect f (l ++ l') s = (.ok as, s'') →
      ∃ as₁ as₂ s', collect f l s = (.ok as₁, s') ∧ collect f l' s' = (.ok as₂, s'') ∧
        as = as₁ ++ as₂
  | [], s, s'', as, h => ⟨[], as, s, rfl, h, rfl⟩
  | i :: l, s, s'', as, h => by
    obtain ⟨a, s₁, h₁, h⟩ := of_bind_ok h
    obtain ⟨as', s₂, h₂, h⟩ := of_bind_ok h
    simp only [pure_apply, Prod.mk.injEq, Except.ok.injEq] at h
    obtain ⟨rfl, rfl⟩ := h
    obtain ⟨as₁, as₂, s', hl, hl', rfl⟩ := of_collect_append_ok h₂
    refine ⟨a :: as₁, as₂, s', ?_, hl', rfl⟩
    rw [collect, bind_ok h₁, bind_ok hl]
    rfl

/-- A loop whose every step returns the value `g` foresees.  The relation `R`
carries what the steps may do to the state. -/
theorem collect_ok {R : σ → σ → Prop} (hrefl : ∀ s, R s s)
    (htrans : ∀ s s' s'', R s s' → R s' s'' → R s s'') {f : ι → Exec ε σ α} {g : ι → α} :
    ∀ (l : List ι) (s : σ),
      (∀ i ∈ l, ∀ s', R s s' → ∃ s'', f i s' = (.ok (g i), s'') ∧ R s' s'') →
      ∃ s', collect f l s = (.ok (l.map g), s') ∧ R s s'
  | [], s, _ => ⟨s, rfl, hrefl s⟩
  | i :: l, s, h => by
    obtain ⟨s₁, h₁, hr₁⟩ := h i (by simp) s (hrefl s)
    obtain ⟨s₂, h₂, hr₂⟩ := collect_ok hrefl htrans l s₁ fun j hj s' hs' =>
      h j (by simp [hj]) s' (htrans _ _ _ hr₁ hs')
    refine ⟨s₂, ?_, htrans _ _ _ hr₁ hr₂⟩
    rw [collect, bind_ok h₁, bind_ok h₂]
    rfl

/-- A loop whose every step returns a value with a property that later steps keep. -/
theorem collect_kept {R : σ → σ → Prop} (hrefl : ∀ s, R s s)
    (htrans : ∀ s s' s'', R s s' → R s' s'' → R s s'') {f : ι → Exec ε σ α}
    {Q : σ → ι → α → Prop} (hkeep : ∀ s s' i a, R s s' → Q s i a → Q s' i a) :
    ∀ (l : List ι) (s : σ),
      (∀ i ∈ l, ∀ s', R s s' → ∃ a s'', f i s' = (.ok a, s'') ∧ R s' s'' ∧ Q s'' i a) →
      ∃ as s', collect f l s = (.ok as, s') ∧ R s s' ∧ List.Forall₂ (Q s') l as
  | [], s, _ => ⟨[], s, rfl, hrefl s, .nil⟩
  | i :: l, s, h => by
    obtain ⟨a, s₁, h₁, hr₁, hq₁⟩ := h i (by simp) s (hrefl s)
    obtain ⟨as, s₂, h₂, hr₂, hq₂⟩ := collect_kept hrefl htrans hkeep l s₁ fun j hj s' hs' =>
      h j (by simp [hj]) s' (htrans _ _ _ hr₁ hs')
    refine ⟨a :: as, s₂, ?_, htrans _ _ _ hr₁ hr₂, .cons (hkeep _ _ _ _ hr₂ hq₁) hq₂⟩
    rw [collect, bind_ok h₁, bind_ok h₂]
    rfl

/-- A loop whose every step returns a value with the property `Q`. -/
theorem collect_forall₂ {R : σ → σ → Prop} (hrefl : ∀ s, R s s)
    (htrans : ∀ s s' s'', R s s' → R s' s'' → R s s'') {f : ι → Exec ε σ α} {Q : ι → α → Prop}
    (l : List ι) (s : σ)
    (h : ∀ i ∈ l, ∀ s', R s s' → ∃ a s'', f i s' = (.ok a, s'') ∧ R s' s'' ∧ Q i a) :
    ∃ as s', collect f l s = (.ok as, s') ∧ R s s' ∧ List.Forall₂ Q l as :=
  collect_kept hrefl htrans (fun _ _ _ _ _ hq => hq) l s h

/-! ## What a run keeps -/

/-- However the computation ends, the state before and the state after are related. -/
def Moves (R : σ → σ → Prop) (x : Exec ε σ α) : Prop := ∀ s, R s (x s).2

theorem Moves.of_eq {R : σ → σ → Prop} {x : Exec ε σ α} (h : Moves R x) {s s' : σ}
    {r : Except ε α} (hx : x s = (r, s')) : R s s' := by
  have hs := h s
  rwa [hx] at hs

theorem Moves.bind {R : σ → σ → Prop} {x : Exec ε σ α} {f : α → Exec ε σ β} (hx : Moves R x)
    (htrans : ∀ s s' s'', R s s' → R s' s'' → R s s'') (hf : ∀ a, Moves R (f a)) :
    Moves R (x >>= f) := by
  intro s
  rcases h : x s with ⟨_ | a, s'⟩
  · rw [bind_error h]
    exact hx.of_eq h
  · rw [bind_ok h]
    exact htrans _ _ _ (hx.of_eq h) (hf a s')

section Still

variable {R : σ → σ → Prop} (hrefl : ∀ s, R s s)

include hrefl

theorem moves_pure (a : α) : Moves R (pure a : Exec ε σ α) := fun s => hrefl s

theorem moves_fail (e : ε) : Moves R (fail e : Exec ε σ α) := fun s => hrefl s

theorem moves_read (f : σ → α) : Moves R (read f : Exec ε σ α) := fun s => hrefl s

theorem moves_ofExcept (x : Except ε α) : Moves R (ofExcept x : Exec ε σ α) := fun s => hrefl s

end Still

/-! ## Errors that do not occur -/

/-- The computation does not stop with a bad error, and what it returns has the property `Q`. -/
def Avoids (bad : ε → Prop) (x : Exec ε σ α) (s : σ) (Q : α → σ → Prop) : Prop :=
  (∀ e s', x s = (.error e, s') → ¬ bad e) ∧ ∀ a s', x s = (.ok a, s') → Q a s'

section Avoids

variable {bad : ε → Prop} {s : σ} {Q Q' : α → σ → Prop}

theorem Avoids.mono {bad' : ε → Prop} {x : Exec ε σ α} (h : Avoids bad x s Q)
    (hbad : ∀ e, bad' e → bad e) : Avoids bad' x s Q :=
  ⟨fun e s' hx hb => h.1 e s' hx (hbad e hb), h.2⟩

theorem Avoids.imp {x : Exec ε σ α} (h : Avoids bad x s Q) (hQ : ∀ a s', Q a s' → Q' a s') :
    Avoids bad x s Q' :=
  ⟨h.1, fun a s' hx => hQ a s' (h.2 a s' hx)⟩

/-- The second part starts where the first one ended. -/
theorem Avoids.bind {x : Exec ε σ α} {f : α → Exec ε σ β} {R : β → σ → Prop}
    (h : Avoids bad x s Q) (hf : ∀ a s', Q a s' → Avoids bad (f a) s' R) :
    Avoids bad (x >>= f) s R := by
  refine ⟨fun e s'' hx => ?_, fun b s'' hx => ?_⟩
  · rcases hs : x s with ⟨_ | a, s'⟩
    · rename_i e'
      rw [bind_error hs] at hx
      obtain ⟨rfl, rfl⟩ : e' = e ∧ s' = s'' := by simpa using hx
      exact h.1 _ _ hs
    · rw [bind_ok hs] at hx
      exact (hf a s' (h.2 a s' hs)).1 e s'' hx
  · obtain ⟨a, s', ha, hb⟩ := of_bind_ok hx
    exact (hf a s' (h.2 a s' ha)).2 b s'' hb

/-- A part whose outcome is known. -/
theorem avoids_of_ok {x : Exec ε σ α} {s' : σ} {a : α} (h : x s = (.ok a, s')) (hQ : Q a s') :
    Avoids bad x s Q := by
  refine ⟨fun e s'' hx => ?_, fun b s'' hx => ?_⟩
  · rw [h] at hx
    simp at hx
  · rw [h] at hx
    obtain ⟨rfl, rfl⟩ : a = b ∧ s' = s'' := by simpa using hx
    exact hQ

/-- A first part whose outcome is known. -/
theorem avoids_bind_of_ok {x : Exec ε σ α} {f : α → Exec ε σ β} {s' : σ} {a : α}
    {R : β → σ → Prop} (h : x s = (.ok a, s')) (hf : Avoids bad (f a) s' R) :
    Avoids bad (x >>= f) s R := by
  unfold Avoids
  rwa [bind_ok h]

/-- A first part that is known to stop. -/
theorem avoids_bind_of_error {x : Exec ε σ α} {f : α → Exec ε σ β} {s' : σ} {e : ε}
    {R : β → σ → Prop} (h : x s = (.error e, s')) (hbad : ¬ bad e) :
    Avoids bad (x >>= f) s R := by
  refine ⟨fun e' s'' hx => ?_, fun b s'' hx => ?_⟩
  · rw [bind_error h] at hx
    obtain ⟨rfl, -⟩ : e = e' ∧ s' = s'' := by simpa using hx
    exact hbad
  · rw [bind_error h] at hx
    simp at hx

theorem avoids_pure {a : α} (h : Q a s) : Avoids bad (pure a : Exec ε σ α) s Q :=
  avoids_of_ok (pure_apply a s) h

theorem avoids_write {f : σ → σ} {Q : Unit → σ → Prop} (h : Q () (f s)) :
    Avoids bad (write f : Exec ε σ Unit) s Q :=
  avoids_of_ok (write_apply f s) h

theorem avoids_fail {e : ε} (h : ¬ bad e) : Avoids bad (fail e : Exec ε σ α) s Q := by
  refine ⟨fun e' s' hx => ?_, fun a s' hx => by simp at hx⟩
  obtain ⟨rfl, -⟩ : e = e' ∧ s = s' := by simpa using hx
  exact h

theorem avoids_ofExcept {x : Except ε α} (he : ∀ e, x = .error e → ¬ bad e)
    (ha : ∀ a, x = .ok a → Q a s) : Avoids bad (ofExcept x : Exec ε σ α) s Q := by
  refine ⟨fun e s' hx => ?_, fun a s' hx => ?_⟩
  · obtain ⟨hx, -⟩ : x = .error e ∧ s = s' := by simpa using hx
    exact he e hx
  · obtain ⟨heq, rfl⟩ := of_ofExcept_ok hx
    exact ha a heq

/-- A loop whose every step avoids the bad errors and returns a value with the property `Q`. -/
theorem avoids_collect {R : σ → σ → Prop} (hrefl : ∀ s, R s s)
    (htrans : ∀ s s' s'', R s s' → R s' s'' → R s s'') {f : ι → Exec ε σ α} {Q : ι → α → Prop} :
    ∀ (l : List ι) (s : σ),
      (∀ i ∈ l, ∀ s', R s s' → Avoids bad (f i) s' fun a s'' => R s' s'' ∧ Q i a) →
      Avoids bad (collect f l) s fun as s' => R s s' ∧ List.Forall₂ Q l as
  | [], s, _ => avoids_pure ⟨hrefl s, .nil⟩
  | i :: l, s, h => by
    refine (h i List.mem_cons_self s (hrefl s)).bind fun a s₁ ⟨hr₁, hq⟩ => ?_
    refine (avoids_collect hrefl htrans l s₁ fun j hj s' hs' =>
      h j (List.mem_cons_of_mem i hj) s' (htrans _ _ _ hr₁ hs')).bind fun as s₂ ⟨hr₂, hqs⟩ => ?_
    exact avoids_pure ⟨htrans _ _ _ hr₁ hr₂, .cons hq hqs⟩

end Avoids

end Exec
end CenoReth
