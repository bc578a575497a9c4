/-
# `RedisCore.Lib.Sampled` — a condition that is only looked at now and then

A system takes steps; a condition holds in some of its states.  Someone looks at the
condition at some of the steps and keeps the time at which it was first found to hold, to
tell later for how long it has held.

The history of a run is the list of its states, the newest first.  The time that was kept
is right as long as the condition does not come back behind the back of whoever keeps it:
then the condition has held ever since that time.
-/
import Mathlib.Data.List.Basic

namespace Sampled

variable {S : Type}

/-- The states of a run, the newest first. -/
inductive History (step : S → S → Prop) (start : S → Prop) : List S → Prop
  | init {s : S} : start s → History step start [s]
  | next {s s' : S} {past : List S} : History step start (s :: past) → step s s' →
      History step start (s' :: s :: past)

/-- The condition has held from the state `x` of the history up to now. -/
def HeldFrom (P : S → Prop) (h : List S) (x : S) : Prop :=
  ∃ recent older, h = recent ++ x :: older ∧ P x ∧ ∀ y ∈ recent, P y

theorem heldFrom_self {P : S → Prop} {x : S} (hx : P x) (past : List S) :
    HeldFrom P (x :: past) x :=
  ⟨[], past, rfl, hx, fun _ hy => absurd hy List.not_mem_nil⟩

theorem HeldFrom.cons {P : S → Prop} {h : List S} {x y : S} (hx : HeldFrom P h x) (hy : P y) :
    HeldFrom P (y :: h) x := by
  obtain ⟨recent, older, rfl, hP, hrecent⟩ := hx
  refine ⟨y :: recent, older, rfl, hP, fun z hz => ?_⟩
  rcases List.mem_cons.mp hz with rfl | hz
  · exact hy
  · exact hrecent z hz

/-- How the time is kept: a step leaves it, clears it, or sets it to the present where the
condition holds. -/
def Keeps (P : S → Prop) (now stamp : S → Int) (s s' : S) : Prop :=
  stamp s' = stamp s ∨ stamp s' = 0 ∨ (stamp s' = now s' ∧ P s')

/-- The condition does not come back while an earlier time is kept. -/
def Steady (P : S → Prop) (now stamp : S → Int) (s s' : S) : Prop :=
  P s' → P s ∨ stamp s = 0 ∨ stamp s = now s'

/-- **The time that is kept is right**: the condition has held since. -/
theorem held_since {P : S → Prop} {now stamp : S → Int} {step : S → S → Prop} {start : S → Prop}
    (hkeeps : ∀ s s', step s s' → Keeps P now stamp s s')
    (hsteady : ∀ s s', step s s' → Steady P now stamp s s')
    (hstart : ∀ s, start s → stamp s = 0) {h : List S} (hh : History step start h) :
    ∀ s past, h = s :: past → stamp s ≠ 0 → P s → ∃ x, HeldFrom P h x ∧ now x = stamp s := by
  induction hh with
  | init hs =>
      intro s past heq hset _
      cases heq
      exact absurd (hstart _ hs) hset
  | @next s s' past _ hstep ih =>
      intro t past' heq hset hP
      cases heq
      rcases hkeeps s s' hstep with hsame | hzero | ⟨hnow, _⟩
      · rcases hsteady s s' hstep hP with hbefore | hnone | hlate
        · obtain ⟨x, hx, htime⟩ := ih s past rfl (hsame ▸ hset) hbefore
          exact ⟨x, hx.cons hP, htime.trans hsame.symm⟩
        · exact absurd (hsame.trans hnone) hset
        · exact ⟨s', heldFrom_self hP _, (hsame.trans hlate).symm⟩
      · exact absurd hzero hset
      · exact ⟨s', heldFrom_self hP _, hnow.symm⟩

end Sampled
