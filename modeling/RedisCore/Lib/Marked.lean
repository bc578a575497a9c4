/-
# `RedisCore.Lib.Marked` — stateful functions that fail, with marks

A function changes a state and gives a value, or it fails.  On its way it may be marked:
the mark is not part of what it computes and no function can read it, it only tells an
observer that something has happened, also of a function that fails later.

`wp X E m Q` is the precondition of such a function: with `m` run in this state, a value and
a state satisfy `Q`, a failure satisfies `E`, and if there was a mark nothing is said but
`X`.  So `X := True` is for statements about runs without marks, and `X := False` says in
addition that there is none.  `yields E m Q` is the same without a look at the marks.
-/
import Mathlib.Logic.Basic

namespace Marked

variable {σ ε α β : Type} {X : Prop} {E : ε → Prop} {s s' : σ}

/-- A function with a state that can fail and be marked. -/
def Prog (σ ε α : Type) : Type := σ → Except ε (α × σ) × Bool

/-- The function that does nothing. -/
def ret (a : α) : Prog σ ε α := fun s => (.ok (a, s), false)

/-- One function after the other. -/
def andThen (m : Prog σ ε α) (f : α → Prog σ ε β) : Prog σ ε β := fun s =>
  match m s with
  | (.ok (a, s'), marked) => ((f a s').1, marked || (f a s').2)
  | (.error e, marked) => (.error e, marked)

instance : Monad (Prog σ ε) where
  pure := ret
  bind := andThen

/-- The state. -/
def get : Prog σ ε σ := fun s => (.ok (s, s), false)

/-- Another state. -/
def set (s' : σ) : Prog σ ε Unit := fun _ => (.ok ((), s'), false)

/-- A changed state. -/
def modify (f : σ → σ) : Prog σ ε Unit := fun s => (.ok ((), f s), false)

/-- A failure. -/
def fail (e : ε) : Prog σ ε α := fun _ => (.error e, false)

/-- A mark, if the condition holds. -/
def mark (b : Bool) : Prog σ ε Unit := fun s => (.ok ((), s), b)

/-- A value that may be missing, where it is missing a failure. -/
def orFail (e : ε) : Option α → Prog σ ε α
  | some a => ret a
  | none => fail e

/-- A function run on a state of its own; the state here is as before. -/
def runOn (s' : σ) (m : Prog σ ε α) : Prog σ ε (α × σ) := fun s =>
  match m s' with
  | (.ok r, marked) => (.ok (r, s), marked)
  | (.error e, marked) => (.error e, marked)

/-- A function on a part of the state. -/
def zoom {τ : Type} (part : τ → σ) (put : τ → σ → τ) (m : Prog σ ε α) : Prog τ ε α := fun t =>
  match m (part t) with
  | (.ok (a, s'), marked) => (.ok (a, put t s'), marked)
  | (.error e, marked) => (.error e, marked)

/-- The precondition of a function. -/
def wp (X : Prop) (E : ε → Prop) (m : Prog σ ε α) (Q : α → σ → Prop) (s : σ) : Prop :=
  if (m s).2 then X
  else
    match (m s).1 with
    | .ok (a, s') => Q a s'
    | .error e => E e

variable {Q Q' : α → σ → Prop} {R : β → σ → Prop} {m : Prog σ ε α} {f : α → Prog σ ε β}

@[simp] theorem wp_pure {a : α} : wp X E (pure a : Prog σ ε α) Q s ↔ Q a s := Iff.rfl

@[simp] theorem wp_ret {a : α} : wp X E (ret a) Q s ↔ Q a s := Iff.rfl

@[simp] theorem wp_bind : wp X E (m >>= f) R s ↔
    wp X E m (fun a s' => wp X E (f a) R s') s := by
  have hbind : (m >>= f) s = andThen m f s := rfl
  unfold wp
  rw [hbind, andThen]
  rcases h : m s with ⟨r, _ | _⟩
  · cases r with
    | ok p => simp
    | error e => simp
  · cases r with
    | ok p => simp
    | error e => simp

@[simp] theorem wp_get {Q : σ → σ → Prop} : wp X E get Q s ↔ Q s s := Iff.rfl

@[simp] theorem wp_set {Q : Unit → σ → Prop} : wp X E (set s') Q s ↔ Q () s' := Iff.rfl

@[simp] theorem wp_modify {Q : Unit → σ → Prop} {g : σ → σ} :
    wp X E (modify g) Q s ↔ Q () (g s) := Iff.rfl

@[simp] theorem wp_fail {e : ε} : wp X E (fail e) Q s ↔ E e := Iff.rfl

@[simp] theorem wp_mark {Q : Unit → σ → Prop} {b : Bool} :
    wp X E (mark b) Q s ↔ if b then X else Q () s := Iff.rfl

@[simp] theorem wp_orFail {e : ε} {o : Option α} :
    wp X E (orFail e o) Q s ↔ (∀ a, o = some a → Q a s) ∧ (o = none → E e) := by
  cases o with
  | none => simp [orFail]
  | some a => simp [orFail]

@[simp] theorem wp_ite {c : Prop} [Decidable c] {n : Prog σ ε α} :
    wp X E (if c then m else n) Q s ↔ if c then wp X E m Q s else wp X E n Q s := by
  split <;> rfl

@[simp] theorem wp_runOn {Q : α × σ → σ → Prop} :
    wp X E (runOn s' m) Q s ↔ wp X E m (fun a s'' => Q (a, s'') s) s' := by
  unfold wp runOn
  rcases m s' with ⟨r, marked⟩
  cases r <;> rfl

@[simp] theorem wp_zoom {τ : Type} {part : τ → σ} {put : τ → σ → τ} {Q : α → τ → Prop}
    {t : τ} : wp X E (zoom part put m) Q t ↔ wp X E m (fun a s' => Q a (put t s')) (part t) := by
  unfold wp zoom
  rcases m (part t) with ⟨r, marked⟩
  cases r <;> rfl

/-- A weaker postcondition. -/
theorem wp_mono (h : wp X E m Q s) (hQ : ∀ a s', Q a s' → Q' a s') : wp X E m Q' s := by
  unfold wp at h ⊢
  split
  · next hmark =>
      rw [if_pos hmark] at h
      exact h
  · next hmark =>
      rw [if_neg hmark] at h
      rcases hr : (m s).1 with e | ⟨a, s'⟩
      · rw [hr] at h
        exact h
      · rw [hr] at h
        exact hQ a s' h

/-- Two postconditions. -/
theorem wp_and (h : wp X E m Q s) (h' : wp X E m Q' s) :
    wp X E m (fun a s' => Q a s' ∧ Q' a s') s := by
  unfold wp at h h' ⊢
  split
  · next hmark =>
      rw [if_pos hmark] at h
      exact h
  · next hmark =>
      rw [if_neg hmark] at h h'
      rcases hr : (m s).1 with e | ⟨a, s'⟩
      · rw [hr] at h
        exact h
      · rw [hr] at h h'
        exact ⟨h, h'⟩

/-! ## Without the marks -/

/-- The precondition of a function, whatever is marked. -/
def yields (E : ε → Prop) (m : Prog σ ε α) (Q : α → σ → Prop) (s : σ) : Prop :=
  match (m s).1 with
  | .ok (a, s') => Q a s'
  | .error e => E e

@[simp] theorem yields_pure {a : α} : yields E (pure a : Prog σ ε α) Q s ↔ Q a s := Iff.rfl

@[simp] theorem yields_bind : yields E (m >>= f) R s ↔
    yields E m (fun a s' => yields E (f a) R s') s := by
  have hbind : (m >>= f) s = andThen m f s := rfl
  unfold yields
  rw [hbind, andThen]
  rcases m s with ⟨e | p, marked⟩
  · simp
  · simp

@[simp] theorem yields_get {Q : σ → σ → Prop} : yields E get Q s ↔ Q s s := Iff.rfl

@[simp] theorem yields_set {Q : Unit → σ → Prop} : yields E (set s') Q s ↔ Q () s' := Iff.rfl

@[simp] theorem yields_modify {Q : Unit → σ → Prop} {g : σ → σ} :
    yields E (modify g) Q s ↔ Q () (g s) := Iff.rfl

@[simp] theorem yields_fail {e : ε} : yields E (fail e) Q s ↔ E e := Iff.rfl

@[simp] theorem yields_mark {Q : Unit → σ → Prop} {b : Bool} : yields E (mark b) Q s ↔ Q () s :=
  Iff.rfl

@[simp] theorem yields_orFail {e : ε} {a : α} : yields E (orFail e (some a)) Q s ↔ Q a s := Iff.rfl

@[simp] theorem yields_ite {c : Prop} [Decidable c] {n : Prog σ ε α} :
    yields E (if c then m else n) Q s ↔ if c then yields E m Q s else yields E n Q s := by
  split <;> rfl

@[simp] theorem yields_runOn {Q : α × σ → σ → Prop} :
    yields E (runOn s' m) Q s ↔ yields E m (fun a s'' => Q (a, s'') s) s' := by
  unfold yields runOn
  rcases m s' with ⟨e | r, marked⟩ <;> rfl

/-- Where there is no mark, there is nothing to look at. -/
theorem yields_of_wp (h : wp False E m Q s) : yields E m Q s := by
  unfold wp at h
  split at h
  · exact h.elim
  · exact h

theorem yields_mono (h : yields E m Q s) (hQ : ∀ a s', Q a s' → Q' a s') : yields E m Q' s := by
  unfold yields at h ⊢
  rcases hr : (m s).1 with e | ⟨a, s'⟩
  · rw [hr] at h
    exact h
  · rw [hr] at h
    exact hQ a s' h

/-- Other failures allowed. -/
theorem yields_weaken {E' : ε → Prop} (h : yields E m Q s) (hE : ∀ e, E e → E' e) : yields E' m Q s := by
  unfold yields at h ⊢
  rcases hr : (m s).1 with e | ⟨a, s'⟩
  · rw [hr] at h
    exact hE e h
  · rw [hr] at h
    exact h

/-- What is known of the outcome of a function, if there is one, is known of it. -/
theorem yields_and_of_ok (h : yields E m Q s) (h' : yields (fun _ => True) m Q' s) :
    yields E m (fun a s' => Q a s' ∧ Q' a s') s := by
  unfold yields at h h' ⊢
  rcases hr : (m s).1 with e | ⟨a, s'⟩
  · rw [hr] at h
    exact h
  · rw [hr] at h h'
    exact ⟨h, h'⟩

/-- A function has one outcome. -/
theorem yields_and (h : yields E m Q s) (h' : yields E m Q' s) :
    yields E m (fun a s' => Q a s' ∧ Q' a s') s :=
  yields_and_of_ok h (yields_weaken h' fun _ _ => trivial)

/-- A function that does not fail has an outcome. -/
theorem exists_of_yields (h : yields (fun _ => False) m Q s) : ∃ a s', Q a s' := by
  unfold yields at h
  rcases hr : (m s).1 with e | ⟨a, s'⟩
  · rw [hr] at h
    exact h.elim
  · rw [hr] at h
    exact ⟨a, s', h⟩

end Marked
