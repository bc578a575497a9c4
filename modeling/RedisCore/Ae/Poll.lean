/-
# `RedisCore.Ae.Poll` — how long the event loop sleeps (ae.c)

Before it polls, `aeProcessEvents` looks for the time event that is next and sleeps until then,
or for ever when there is none.  Times are in seconds and milliseconds.  As long as the clock
gives less than a thousand of the latter, and no delay is negative, so do all events, and the
sleep ends just when the first of them is due.
-/
import RedisCore.Ae.Served

namespace RedisCore

namespace Ae

open Linked

variable {el el' : EventLoop} {s s' : State} {st : Step} {x te : Nat} {ev ev' : TimeEvent}
  {now later : Int × Int}

/-! ## The functions -/

/-- An event is before the nearest one so far. -/
def TimeEvent.nearer (ev : TimeEvent) : Option TimeEvent → Bool
  | none => true
  | some nearest => ev.whenSec < nearest.whenSec ||
      (ev.whenSec == nearest.whenSec && ev.whenMs < nearest.whenMs)

/-- The loop of `aeSearchNearestTimer`. -/
def nearestLoop (el : EventLoop) : Nat → Option Nat → Option TimeEvent → Option (Option TimeEvent)
  | _, none, nearest => some nearest
  | 0, some _, _ => none
  | fuel + 1, some te, nearest =>
      match el.event te with
      | none => none
      | some ev => nearestLoop el fuel ev.next (if ev.nearer nearest then some ev else nearest)

/-- `aeSearchNearestTimer`; it fails if it reads an event that was freed. -/
def aeSearchNearestTimer (el : EventLoop) : Option (Option TimeEvent) :=
  nearestLoop el el.timeEventNextId el.timeEventHead none

/-- `struct timeval`. -/
structure Timeval where
  sec : Int
  usec : Int
  deriving DecidableEq

/-- The `tvp` of `aeProcessEvents`; without one it sleeps until something happens. -/
def timeoutOf (shortest : Option TimeEvent) (dontWait : Bool) (now : Int × Int) : Option Timeval :=
  match shortest with
  | some ev =>
      let ms := (ev.whenSec - now.1) * 1000 + ev.whenMs - now.2
      if ms > 0 then some ⟨ms.tdiv 1000, ms.tmod 1000 * 1000⟩ else some ⟨0, 0⟩
  | none => if dontWait then some ⟨0, 0⟩ else none

/-- What `aeProcessEvents` gives to `aeApiPoll`, for its two flags on time and when the clock is at
`now`. -/
def pollTimeout (el : EventLoop) (timeEvents dontWait : Bool) (now : Int × Int) :
    Option (Option Timeval) :=
  (if timeEvents && !dontWait then aeSearchNearestTimer el else some none).map
    (timeoutOf · dontWait now)

/-! ## The times of events -/

/-- Less than a second of milliseconds. -/
def Proper (now : Int × Int) : Prop := 0 ≤ now.2 ∧ now.2 < 1000

/-- The clock is proper, and no delay is negative. -/
def Step.Timely : Step → Prop
  | .create now milliseconds _ => Proper now ∧ 0 ≤ milliseconds
  | .back retval now => Proper now ∧ (retval = AE_NOMORE ∨ 0 ≤ retval)
  | _ => True

/-- All events have proper times. -/
def Timed (el : EventLoop) : Prop :=
  ∀ x ev, el.event x = some ev → Proper (ev.whenSec, ev.whenMs)

theorem proper_add {milliseconds : Int} (hnow : Proper now) (hms : 0 ≤ milliseconds) :
    Proper (aeAddMillisecondsToNow now milliseconds) := by
  obtain ⟨hlow, hhigh⟩ := hnow
  have hmod := Int.tmod_nonneg 1000 hms
  have hlt := Int.tmod_lt_of_pos milliseconds (show (0 : Int) < 1000 by decide)
  unfold aeAddMillisecondsToNow
  dsimp only
  split
  · constructor <;> dsimp only <;> omega
  · constructor <;> dsimp only <;> omega

theorem Timed.put (h : Timed el) (hev : Proper (ev.whenSec, ev.whenMs)) :
    Timed (el.put te (some ev)) := by
  intro x ev' hx
  rw [event_put] at hx
  split at hx
  · cases hx
    exact hev
  · exact h x ev' hx

theorem Timed.free (h : Timed el) (hfree : el.free te = some el') : Timed el' := by
  obtain ⟨-, -, rfl⟩ := Option.map_eq_some_iff.mp hfree
  intro x ev hx
  rw [event_put] at hx
  split at hx
  · cases hx
  · exact h x ev hx

theorem Timed.deleteLoop (h : Timed el) {id : Int} {r : EventLoop × Bool} {fuel : Nat} :
    ∀ {p : Option Nat}, Ae.deleteLoop el id fuel p = some r → Timed r.1 := by
  induction fuel with
  | zero =>
      intro p hr
      cases p with
      | none =>
          cases hr
          exact h
      | some te => cases hr
  | succ fuel ih =>
      intro p hr
      cases p with
      | none =>
          cases hr
          exact h
      | some te =>
          rw [Ae.deleteLoop] at hr
          split at hr
          · cases hr
          · next ev hev =>
              split at hr
              · cases hr
                exact h.put (h te ev hev)
              · exact ih hr

theorem Timed.skewLoop {fuel : Nat} : ∀ {p : Option Nat} {el : EventLoop}, Timed el →
    Ae.skewLoop fuel p el = some el' → Timed el' := by
  induction fuel with
  | zero =>
      intro p el h hr
      cases p with
      | none =>
          cases hr
          exact h
      | some te => cases hr
  | succ fuel ih =>
      intro p el h hr
      cases p with
      | none =>
          cases hr
          exact h
      | some te =>
          rw [Ae.skewLoop] at hr
          split at hr
          · cases hr
          · next ev hev =>
              refine ih (h.put ?_) hr
              exact h te ev hev

theorem Timed.detectSkew {t : Int} (h : Timed el) (hr : Ae.detectSkew el t = some el') :
    Timed el' := by
  obtain ⟨el₁, hloop, rfl⟩ := Option.map_eq_some_iff.mp hr
  have h₁ : Timed el₁ := by
    split at hloop
    · exact h.skewLoop hloop
    · cases hloop
      exact h
  exact h₁

theorem Timed.unlink {prev next : Option Nat} (h : Timed el)
    (hr : Ae.unlink el prev next = some el') : Timed el' := by
  cases prev with
  | none =>
      cases hr
      exact h
  | some p =>
      obtain ⟨ev, hev, rfl⟩ := Option.map_eq_some_iff.mp hr
      exact h.put (h p ev hev)

theorem Timed.pass {prev te : Option Nat} {maxId : Int} {processed : Nat} (h : Timed s.el)
    (hstep : loopPass s prev te maxId processed now = some s') : Timed s'.el := by
  cases te with
  | none =>
      cases hstep
      exact h
  | some te =>
      rw [loopPass] at hstep
      split at hstep
      · cases hstep
      · next ev hev =>
          split at hstep
          · obtain ⟨el₁, hunlink, hstep⟩ := Option.bind_eq_some_iff.mp hstep
            split at hstep
            · cases hstep
              exact h.unlink hunlink
            · obtain ⟨el₂, hfree, rfl⟩ := Option.map_eq_some_iff.mp hstep
              exact (h.unlink hunlink).free hfree
          · split at hstep
            · cases hstep
              exact h
            · split at hstep <;> cases hstep <;> exact h

/-- **A step** keeps all times proper. -/
theorem Timed.step (h : Timed s.el) (hst : st.Timely) (hstep : Ae.step s st = some s') :
    Timed s'.el := by
  cases st with
  | create now ms handler =>
      rw [Ae.step] at hstep
      split at hstep
      · cases hstep
        exact h.put (proper_add hst.1 hst.2)
      · cases hstep
  | delete id =>
      rw [Ae.step] at hstep
      split at hstep
      · obtain ⟨r, hdel, rfl⟩ := Option.map_eq_some_iff.mp hstep
        exact h.deleteLoop hdel
      · cases hstep
  | begin t =>
      cases hpc : s.pc with
      | outside =>
          rw [Ae.step, hpc] at hstep
          obtain ⟨el, hskew, rfl⟩ := Option.map_eq_some_iff.mp hstep
          exact h.detectSkew hskew
      | loop prev te maxId processed => simp [Ae.step, hpc] at hstep
      | timeProc te id maxId processed => simp [Ae.step, hpc] at hstep
      | finalizerProc prev next te maxId processed => simp [Ae.step, hpc] at hstep
  | pass now =>
      cases hpc : s.pc with
      | loop prev te maxId processed =>
          rw [Ae.step, hpc] at hstep
          exact h.pass hstep
      | outside => simp [Ae.step, hpc] at hstep
      | timeProc te id maxId processed => simp [Ae.step, hpc] at hstep
      | finalizerProc prev next te maxId processed => simp [Ae.step, hpc] at hstep
  | back retval now =>
      cases hpc : s.pc with
      | outside => simp [Ae.step, hpc] at hstep
      | loop prev te maxId processed => simp [Ae.step, hpc] at hstep
      | timeProc te id maxId processed =>
          rw [Ae.step, hpc] at hstep
          dsimp only at hstep
          rw [timeProcBack] at hstep
          split at hstep
          · cases hstep
          · next ev hev =>
              dsimp only at hstep
              split at hstep
              · next hmore =>
                  cases hstep
                  exact h.put (proper_add hst.1 (hst.2.resolve_left hmore))
              · cases hstep
                exact h.put (h te ev hev)
      | finalizerProc prev next te maxId processed =>
          rw [Ae.step, hpc] at hstep
          obtain ⟨el, hfree, rfl⟩ := Option.map_eq_some_iff.mp hstep
          exact h.free hfree

/-- **A run** keeps all times proper. -/
theorem Timed.run {sts : List Step} : ∀ {s : State}, Timed s.el → (∀ st ∈ sts, st.Timely) →
    Ae.run s sts = some s' → Timed s'.el := by
  induction sts with
  | nil =>
      intro s h _ hrun
      cases hrun
      exact h
  | cons st sts ih =>
      intro s h hsts hrun
      obtain ⟨s₁, hstep, hrun⟩ := Option.bind_eq_some_iff.mp hrun
      exact ih (h.step (hsts st List.mem_cons_self) hstep)
        (fun st' hst' => hsts st' (List.mem_cons_of_mem st hst')) hrun

/-! ## The nearest event -/

/-- The time of an event, in milliseconds. -/
def TimeEvent.millis (ev : TimeEvent) : Int := ev.whenSec * 1000 + ev.whenMs

theorem nearer_iff (hev : Proper (ev.whenSec, ev.whenMs))
    (hev' : Proper (ev'.whenSec, ev'.whenMs)) :
    ev.nearer (some ev') = true ↔ ev.millis < ev'.millis := by
  obtain ⟨hlow, hhigh⟩ := hev
  obtain ⟨hlow', hhigh'⟩ := hev'
  unfold TimeEvent.nearer TimeEvent.millis
  simp only [Bool.or_eq_true, Bool.and_eq_true, beq_iff_eq, decide_eq_true_eq]
  dsimp only at hlow hhigh hlow' hhigh'
  omega

theorem due_iff (hev : Proper (ev.whenSec, ev.whenMs)) (hnow : Proper now) :
    ev.Due now ↔ ev.millis ≤ now.1 * 1000 + now.2 := by
  obtain ⟨hlow, hhigh⟩ := hev
  obtain ⟨hlow', hhigh'⟩ := hnow
  unfold TimeEvent.Due TimeEvent.millis
  dsimp only at hlow hhigh hlow' hhigh'
  omega

/-- The nearest of some events: one of them, with none before it. -/
structure Nearest (el : EventLoop) (xs : List Nat) (nearest found : Option TimeEvent) : Prop where
  among : ∀ ev, found = some ev → nearest = some ev ∨ ∃ x ∈ xs, el.event x = some ev
  least : ∀ ev, (nearest = some ev ∨ ∃ x ∈ xs, el.event x = some ev) →
    ∃ f, found = some f ∧ f.millis ≤ ev.millis

/-- **The loop** finds the nearest event. -/
theorem nearestLoop_spec (ht : Timed el) {xs : List Nat} : ∀ {fuel : Nat} {p : Option Nat}
    {nearest : Option TimeEvent}, Chain el.next p xs none → xs.length ≤ fuel →
    (∀ ev, nearest = some ev → Proper (ev.whenSec, ev.whenMs)) →
    ∃ found, nearestLoop el fuel p nearest = some found ∧ Nearest el xs nearest found := by
  induction xs with
  | nil =>
      rintro fuel p nearest rfl - -
      refine ⟨nearest, by cases fuel <;> rfl, fun ev hev => .inl hev, ?_⟩
      rintro ev (hev | ⟨x, hx, -⟩)
      · exact ⟨ev, hev, Int.le_refl _⟩
      · exact absurd hx List.not_mem_nil
  | cons x xs ih =>
      rintro fuel p nearest ⟨rfl, n, hn, hrest⟩ hfuel hproper
      obtain ⟨ev, hev, rfl⟩ := Option.map_eq_some_iff.mp hn
      cases fuel with
      | zero => exact absurd hfuel (by simp)
      | succ fuel =>
          have hevProper := ht x ev hev
          rw [nearestLoop, hev]
          dsimp only
          obtain ⟨best, hbest⟩ : ∃ best, best = if ev.nearer nearest then some ev else nearest :=
            ⟨_, rfl⟩
          rw [← hbest]
          -- the better one of the event and the nearest so far
          have hamong : ∀ f, best = some f → f = ev ∨ nearest = some f := by
            intro f hf
            rw [hbest] at hf
            split at hf
            · exact .inl (Option.some.inj hf).symm
            · exact .inr hf
          have hleast : (∃ f, best = some f ∧ f.millis ≤ ev.millis) ∧
              ∀ m, nearest = some m → ∃ f, best = some f ∧ f.millis ≤ m.millis := by
            cases nearest with
            | none =>
                rw [hbest]
                exact ⟨⟨ev, rfl, Int.le_refl _⟩, fun m hm => by cases hm⟩
            | some m =>
                have hiff := nearer_iff hevProper (hproper m rfl)
                rw [hbest]
                split
                · next hnear =>
                    refine ⟨⟨ev, rfl, Int.le_refl _⟩, fun m' hm' => ?_⟩
                    cases hm'
                    exact ⟨ev, rfl, Int.le_of_lt (hiff.mp hnear)⟩
                · next hfar =>
                    have hle := Int.not_lt.mp fun hlt => hfar (hiff.mpr hlt)
                    refine ⟨⟨m, rfl, hle⟩, fun m' hm' => ?_⟩
                    cases hm'
                    exact ⟨m, rfl, Int.le_refl _⟩
          have hbestProper : ∀ f, best = some f → Proper (f.whenSec, f.whenMs) := by
            intro f hf
            rcases hamong f hf with rfl | hf
            · exact hevProper
            · exact hproper f hf
          obtain ⟨found, hloop, hfound⟩ := ih hrest (Nat.le_of_succ_le_succ hfuel) hbestProper
          refine ⟨found, hloop, ?_, ?_⟩
          · intro f hf
            rcases hfound.among f hf with hbest' | ⟨y, hy, hf⟩
            · rcases hamong f hbest' with rfl | hnearest
              · exact .inr ⟨x, List.mem_cons_self, hev⟩
              · exact .inl hnearest
            · exact .inr ⟨y, List.mem_cons_of_mem x hy, hf⟩
          · intro ev' hev'
            have hstill : ∀ m : TimeEvent, (∃ f, best = some f ∧ f.millis ≤ m.millis) →
                ∃ f, found = some f ∧ f.millis ≤ m.millis := by
              rintro m ⟨f, hf, hle⟩
              obtain ⟨g, hg, hle'⟩ := hfound.least f (.inl hf)
              exact ⟨g, hg, Int.le_trans hle' hle⟩
            rcases hev' with hnearest | ⟨y, hy, hy'⟩
            · exact hstill ev' (hleast.2 ev' hnearest)
            · rcases List.mem_cons.mp hy with rfl | hy
              · rw [hev] at hy'
                cases hy'
                exact hstill ev hleast.1
              · exact hfound.least ev' (.inr ⟨y, hy, hy'⟩)

/-! ## The sleep -/

/-- Microseconds. -/
def Timeval.micros (t : Timeval) : Int := t.sec * 1000000 + t.usec

/-- The microseconds between two readings of the clock. -/
def elapsed (now later : Int × Int) : Int := ((later.1 - now.1) * 1000 + (later.2 - now.2)) * 1000

/-- The time to an event is rounded nowhere. -/
theorem timeoutOf_spec (ev : TimeEvent) (dontWait : Bool) (now : Int × Int) :
    ∃ t, timeoutOf (some ev) dontWait now = some t ∧ 0 ≤ t.sec ∧ 0 ≤ t.usec ∧ t.usec < 1000000 ∧
      t.micros = max 0 ((ev.millis - (now.1 * 1000 + now.2)) * 1000) := by
  obtain ⟨ms, hms⟩ : ∃ ms, ms = (ev.whenSec - now.1) * 1000 + ev.whenMs - now.2 := ⟨_, rfl⟩
  have hmillis : ev.millis - (now.1 * 1000 + now.2) = ms := by
    unfold TimeEvent.millis
    omega
  rw [hmillis]
  unfold timeoutOf
  dsimp only
  rw [← hms]
  split
  · next hpos =>
      have hdiv := Int.mul_tdiv_add_tmod ms 1000
      have hmod := Int.tmod_nonneg 1000 (Int.le_of_lt hpos)
      have hlt := Int.tmod_lt_of_pos ms (show (0 : Int) < 1000 by decide)
      refine ⟨_, rfl, ?_, ?_, ?_, ?_⟩
      · show 0 ≤ ms.tdiv 1000
        omega
      · show 0 ≤ ms.tmod 1000 * 1000
        omega
      · show ms.tmod 1000 * 1000 < 1000000
        omega
      · show ms.tdiv 1000 * 1000000 + ms.tmod 1000 * 1000 = _
        omega
  · next hpos =>
      refine ⟨_, rfl, by decide, by decide, by decide, ?_⟩
      show (0 : Int) = _
      omega

/-- **The sleep.**  In every run in which the clock is proper and no delay is negative, and no step
unlinks new events with an old one: `aeProcessEvents` sleeps for ever only if there is no time
event; else no event becomes due before the sleep has ended, and when it has, one is. -/
theorem poll_in_time (start : Int) (sts : List Step) {s : State}
    (hs : run (initial start) sts = some s) (htimely : ∀ st ∈ sts, st.Timely)
    (hp : ∀ pre s', pre <+: sts → run (initial start) pre = some s' → s'.prompt = true)
    (now : Int × Int) : ∃ timeout, pollTimeout s.el true false now = some timeout ∧
      (timeout = none ↔ s.el.timeEvents = []) ∧
      ∀ t, timeout = some t → 0 ≤ t.sec ∧ 0 ≤ t.usec ∧ t.usec < 1000000 ∧
        (∀ later, Proper later → 0 ≤ elapsed now later → elapsed now later < t.micros →
          ∀ id ∈ s.el.timeEvents, ∀ ev, s.el.event id = some ev → ¬ ev.Due later) ∧
        ∃ id ∈ s.el.timeEvents, ∃ ev, s.el.event id = some ev ∧
          ∀ later, Proper later → t.micros ≤ elapsed now later → ev.Due later := by
  have htimed : Timed s.el := by
    refine Timed.run (fun x ev hx => ?_) htimely hs
    cases hx
  obtain ⟨l, hl, -⟩ := run_inv start sts s hs hp
  rw [hl.timeEvents]
  have hnone : ∀ ev : TimeEvent, none = some ev → Proper (ev.whenSec, ev.whenMs) :=
    fun ev hev => by cases hev
  obtain ⟨found, hloop, hfound⟩ := nearestLoop_spec htimed hl.chain hl.length_le hnone
  refine ⟨timeoutOf found false now, ?_, ?_, ?_⟩
  · have hsearch : aeSearchNearestTimer s.el = some found := hloop
    show (aeSearchNearestTimer s.el).map _ = _
    rw [hsearch, Option.map_some]
  · cases found with
    | none =>
        refine ⟨fun _ => List.eq_nil_iff_forall_not_mem.mpr fun x hx => ?_, fun _ => rfl⟩
        obtain ⟨ev, hev⟩ := hl.listed x hx
        obtain ⟨f, hf, -⟩ := hfound.least ev (.inr ⟨x, hx, hev.event⟩)
        cases hf
    | some f =>
        obtain ⟨t, ht, -⟩ := timeoutOf_spec f false now
        rw [ht]
        refine ⟨fun h => absurd h (Option.some_ne_none t), ?_⟩
        rintro rfl
        rcases hfound.among f rfl with h | ⟨x, hx, -⟩
        · cases h
        · exact absurd hx List.not_mem_nil
  · intro t ht
    cases found with
    | none => cases ht
    | some f =>
        obtain ⟨t', ht', hsec, husec, hlt, hmicros⟩ := timeoutOf_spec f false now
        rw [ht'] at ht
        cases ht
        refine ⟨hsec, husec, hlt, ?_, ?_⟩
        · intro later hlater hpos hbefore id hid ev hev hdue
          obtain ⟨f', hf', hle⟩ := hfound.least ev (.inr ⟨id, hid, hev⟩)
          cases hf'
          rw [due_iff (htimed id ev hev) hlater] at hdue
          unfold elapsed at hpos hbefore
          omega
        · rcases hfound.among f rfl with h | ⟨id, hid, hev⟩
          · cases h
          · refine ⟨id, hid, f, hev, fun later hlater hafter => ?_⟩
            rw [due_iff (htimed id f hev) hlater]
            unfold elapsed at hafter
            omega

/-- Five milliseconds are left of the nearer event, less the one that has passed. -/
theorem poll_in_time_two : ∃ s, run (initial 0) twoTimers = some s ∧
    pollTimeout s.el true false (0, 1) = some (some ⟨0, 4000⟩) ∧
    ∃ timeout, pollTimeout s.el true false (0, 1) = some timeout ∧
      (timeout = none ↔ s.el.timeEvents = []) := by
  refine ⟨_, rfl, by decide, ?_⟩
  obtain ⟨timeout, htimeout, hnone, -⟩ := poll_in_time 0 twoTimers rfl
    (by simp [twoTimers, Step.Timely, Proper]) (prompt_of_inits (by decide)) (0, 1)
  exact ⟨timeout, htimeout, hnone⟩

end Ae

end RedisCore
