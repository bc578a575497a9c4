/-
# `RedisCore.Ae.FileEvents` — the file events of the event loop (ae.c)

The event loop has one slot for each descriptor below `setsize`; the mask in it says for what
the descriptor is registered, and `maxfd` is the greatest descriptor that is.  The memory of
the slots has a value at each index below its size, and a function that reads or writes
outside of it has the result `none`.  What the polling backend answers, and what `zrealloc`
leaves in new slots, are arguments.

`Consistent` is what the registry should be after some calls; `consistent_iff` says in which
runs it is that in every state.
-/
import Mathlib.Logic.Function.Basic
import Mathlib.Tactic.Common

namespace RedisCore

namespace AeFile

/-- The events a descriptor is registered for, an `int`. -/
abbrev Mask := BitVec 32

def AE_NONE : Mask := 0
def AE_READABLE : Mask := 1
def AE_WRITABLE : Mask := 2

/-- `aeFileEvent`; functions and data by their addresses. -/
structure FileEvent where
  mask : Mask
  rfileProc : Nat
  wfileProc : Nat
  clientData : Nat
  deriving DecidableEq

/-- What `aeEventLoop` has on file events. -/
structure FileEvents where
  maxfd : Int
  setsize : Int
  events : Nat → Option FileEvent

inductive Errno where
  | ERANGE
  deriving DecidableEq

/-- What is returned: `AE_OK`, or `AE_ERR` and what the function sets `errno` to itself. -/
inductive Answer where
  | ok
  | err (errno : Option Errno)
  deriving DecidableEq

/-! ## The code -/

/-- `&eventLoop->events[fd]`, read. -/
def FileEvents.slot (el : FileEvents) (fd : Int) : Option FileEvent :=
  if fd < 0 then none else el.events fd.toNat

/-- A slot is written. -/
def FileEvents.put (el : FileEvents) (fd : Int) (fe : FileEvent) : FileEvents :=
  { el with events := Function.update el.events fd.toNat (some fe) }

/-- `aeCreateEventLoop`; `junk` is what is in the memory that `zmalloc` returns. -/
def aeCreateEventLoop (setsize : Nat) (junk : Nat → FileEvent) : FileEvents :=
  { maxfd := -1
    setsize := setsize
    events := fun i => if i < setsize then some { junk i with mask := AE_NONE } else none }

def aeGetSetSize (el : FileEvents) : Int := el.setsize

/-- `zrealloc` of the slots. -/
def realloc (events : Nat → Option FileEvent) (setsize : Int) (junk : Nat → FileEvent) :
    Nat → Option FileEvent :=
  fun i => if (i : Int) < setsize then some ((events i).getD (junk i)) else none

/-- `events[i].mask = AE_NONE` for so many slots from `i` on. -/
def clearLoop : Nat → Nat → (Nat → Option FileEvent) → Option (Nat → Option FileEvent)
  | 0, _, events => some events
  | n + 1, i, events => do
    let fe ← events i
    clearLoop n (i + 1) (Function.update events i (some { fe with mask := AE_NONE }))

/-- `aeResizeSetSize`; `resized`: whether `aeApiResize` succeeds. -/
def aeResizeSetSize (el : FileEvents) (setsize : Int) (resized : Bool) (junk : Nat → FileEvent) :
    Option (FileEvents × Answer) :=
  if setsize = el.setsize then some (el, .ok)
  else if el.maxfd ≥ setsize then some (el, .err none)
  else if !resized then some (el, .err none)
  else do
    let events := realloc el.events setsize junk
    let events ← clearLoop (setsize - (el.maxfd + 1)).toNat (el.maxfd + 1).toNat events
    some ({ el with events := events, setsize := setsize }, .ok)

/-- `aeCreateFileEvent`; `added`: whether `aeApiAddEvent` succeeds. -/
def aeCreateFileEvent (el : FileEvents) (fd : Int) (mask : Mask) (proc clientData : Nat)
    (added : Bool) : Option (FileEvents × Answer) :=
  if fd ≥ el.setsize then some (el, .err (some .ERANGE))
  else do
    let fe ← el.slot fd
    if !added then some (el, .err none)
    else
      let fe := { fe with
        mask := fe.mask ||| mask
        rfileProc := if mask &&& AE_READABLE ≠ 0 then proc else fe.rfileProc
        wfileProc := if mask &&& AE_WRITABLE ≠ 0 then proc else fe.wfileProc
        clientData := clientData }
      let el := el.put fd fe
      some (if fd > el.maxfd then { el with maxfd := fd } else el, .ok)

/-- The greatest index below `j` with a mask that is not empty, or -1. -/
def scanLoop (events : Nat → Option FileEvent) : Nat → Option Int
  | 0 => some (-1)
  | j + 1 => do
    let fe ← events j
    if fe.mask ≠ AE_NONE then some (j : Int) else scanLoop events j

def aeDeleteFileEvent (el : FileEvents) (fd : Int) (mask : Mask) : Option FileEvents :=
  if fd ≥ el.setsize then some el
  else do
    let fe ← el.slot fd
    if fe.mask = AE_NONE then some el
    else
      let fe := { fe with mask := fe.mask &&& ~~~mask }
      let el := el.put fd fe
      if fd = el.maxfd ∧ fe.mask = AE_NONE then do
        let maxfd ← scanLoop el.events el.maxfd.toNat
        some { el with maxfd := maxfd }
      else some el

def aeGetFileEvents (el : FileEvents) (fd : Int) : Option Mask :=
  if fd ≥ el.setsize then some AE_NONE else (el.slot fd).map FileEvent.mask

/-! ## Runs -/

/-- A call, with what the backend answers to it and what is in new memory. -/
inductive Call where
  | create (fd : Int) (mask : Mask) (proc clientData : Nat) (added : Bool)
  | delete (fd : Int) (mask : Mask)
  | resize (setsize : Int) (resized : Bool) (junk : Nat → FileEvent)

def FileEvents.step (el : FileEvents) : Call → Option (FileEvents × Answer)
  | .create fd mask proc clientData added => aeCreateFileEvent el fd mask proc clientData added
  | .delete fd mask => (aeDeleteFileEvent el fd mask).map (·, .ok)
  | .resize setsize resized junk => aeResizeSetSize el setsize resized junk

/-- What each descriptor is registered for after a call, by what was asked and what was
answered: the bits registered before and now, without those deleted. -/
def Call.wanted (want : Nat → Mask) : Call → Answer → Nat → Mask
  | .create fd mask _ _ _, .ok =>
    Function.update want fd.toNat (want fd.toNat ||| mask)
  | .delete fd mask, .ok =>
    Function.update want fd.toNat (want fd.toNat &&& ~~~mask)
  | _, _ => want

/-- `m` is the greatest descriptor that is registered for something, or -1. -/
structure Greatest (want : Nat → Mask) (m : Int) : Prop where
  least : -1 ≤ m
  above : ∀ i : Nat, m < i → want i = AE_NONE
  itself : ∀ i : Nat, m = i → want i ≠ AE_NONE

/-- The registry has what is wanted: each descriptor its mask, `maxfd` the greatest registered
one, the slots above that empty, and no registered descriptor outside of the slots. -/
structure Consistent (el : FileEvents) (want : Nat → Mask) : Prop where
  size : 0 ≤ el.setsize
  slots : ∀ i : Nat, (el.events i).isSome ↔ (i : Int) < el.setsize
  masks : ∀ i : Nat, aeGetFileEvents el i = some (want i)
  maxfd : Greatest want el.maxfd
  empty : ∀ (i : Nat) (fe : FileEvent), el.maxfd < i → el.events i = some fe → fe.mask = AE_NONE
  below : ∀ i : Nat, want i ≠ AE_NONE → (i : Int) < el.setsize

/-- In every state of a run the registry has what is wanted, and calls that fail leave it as
it was. -/
def Always : FileEvents → (Nat → Mask) → List Call → Prop
  | el, want, [] => Consistent el want
  | el, want, c :: cs => Consistent el want ∧ ∃ el' answer, el.step c = some (el', answer) ∧
      (answer ≠ .ok → el' = el) ∧ Always el' (c.wanted want answer) cs

/-- The call is for a descriptor, and does not register the empty mask for one above `maxfd`
that the backend takes. -/
def Call.Sane (el : FileEvents) : Call → Prop
  | .create fd mask _ _ added =>
    0 ≤ fd ∧ (el.maxfd < fd → fd < el.setsize → added = true → mask ≠ AE_NONE)
  | .delete fd _ => 0 ≤ fd
  | .resize _ _ _ => True

/-- All calls of a run are so. -/
def AllSane : FileEvents → List Call → Prop
  | _, [] => True
  | el, c :: cs => c.Sane el ∧ ∀ el' answer, el.step c = some (el', answer) → AllSane el' cs

/-! ## What each call does -/

variable {el el' : FileEvents} {want : Nat → Mask}

theorem FileEvents.slot_ofNat (el : FileEvents) (i : Nat) : el.slot i = el.events i := by
  rw [FileEvents.slot, if_neg (by omega), Int.toNat_natCast]

@[simp] theorem FileEvents.put_maxfd (el : FileEvents) (fd : Int) (fe : FileEvent) :
    (el.put fd fe).maxfd = el.maxfd := rfl

/-- The registry from the masks in its slots. -/
theorem Consistent.of_slots (hsize : 0 ≤ el.setsize)
    (hslots : ∀ i : Nat, (el.events i).isSome ↔ (i : Int) < el.setsize)
    (hmasks : ∀ (i : Nat) (fe : FileEvent), el.events i = some fe → fe.mask = want i)
    (hmax : Greatest want el.maxfd) (hbelow : ∀ i : Nat, want i ≠ AE_NONE → (i : Int) < el.setsize) :
    Consistent el want := by
  refine ⟨hsize, hslots, ?_, hmax, ?_, hbelow⟩
  · intro i
    rw [aeGetFileEvents, FileEvents.slot_ofNat]
    by_cases hi : (i : Int) < el.setsize
    · obtain ⟨fe, hfe⟩ := Option.isSome_iff_exists.mp ((hslots i).mpr hi)
      rw [if_neg (by omega), hfe, Option.map_some, hmasks i fe hfe]
    · rw [if_pos (by omega), not_imp_comm.mp (hbelow i) hi]
  · intro i fe hi hfe
    rw [hmasks i fe hfe, hmax.above i hi]

theorem Consistent.mask (hc : Consistent el want) {i : Nat} {fe : FileEvent}
    (hfe : el.events i = some fe) : fe.mask = want i := by
  have hi : (i : Int) < el.setsize := (hc.slots i).mp (by rw [hfe]; rfl)
  have hget := hc.masks i
  rw [aeGetFileEvents, if_neg (by omega), FileEvents.slot_ofNat, hfe] at hget
  exact Option.some.inj hget

theorem Consistent.get (hc : Consistent el want) {i : Nat} (hi : (i : Int) < el.setsize) :
    ∃ fe, el.events i = some fe ∧ fe.mask = want i := by
  obtain ⟨fe, hfe⟩ := Option.isSome_iff_exists.mp ((hc.slots i).mpr hi)
  exact ⟨fe, hfe, hc.mask hfe⟩

/-- `maxfd` is one of the slots. -/
theorem Consistent.maxfd_lt (hc : Consistent el want) {i : Nat} (hi : el.maxfd = i) :
    el.maxfd < el.setsize := by
  rw [hi]
  exact hc.below i (hc.maxfd.itself i hi)

theorem aeCreateEventLoop_consistent (setsize : Nat) (junk : Nat → FileEvent) :
    Consistent (aeCreateEventLoop setsize junk) (fun _ => AE_NONE) := by
  refine Consistent.of_slots (Int.natCast_nonneg _) ?_ ?_ ⟨Int.le_refl _, fun _ _ => rfl, ?_⟩ ?_
  · intro i
    simp only [aeCreateEventLoop, Int.ofNat_lt]
    split <;> simp [*]
  · intro i fe hfe
    simp only [aeCreateEventLoop] at hfe
    split at hfe
    · cases hfe
      rfl
    · exact nomatch hfe
  · intro i hi
    have hmax : (-1 : Int) = i := hi
    omega
  · intro i hi
    exact absurd rfl hi

/-- A slot with a new mask. -/
theorem Consistent.put (hc : Consistent el want) {i : Nat} (hi : (i : Int) < el.setsize)
    (fe : FileEvent) {m : Int} (hm : Greatest (Function.update want i fe.mask) m) :
    Consistent { el.put i fe with maxfd := m } (Function.update want i fe.mask) := by
  refine Consistent.of_slots hc.size ?_ ?_ hm ?_
  · intro j
    show (Function.update el.events i (some fe) j).isSome ↔ _
    by_cases hj : j = i
    · subst hj
      rw [Function.update_self]
      exact ⟨fun _ => hi, fun _ => rfl⟩
    · rw [Function.update_of_ne hj]
      exact hc.slots j
  · intro j fe' hfe'
    have hput : Function.update el.events i (some fe) j = some fe' := hfe'
    by_cases hj : j = i
    · subst hj
      rw [Function.update_self] at hput ⊢
      cases hput
      rfl
    · rw [Function.update_of_ne hj] at hput ⊢
      exact hc.mask hput
  · intro j hj
    by_cases hji : j = i
    · subst hji
      exact hi
    · rw [Function.update_of_ne hji] at hj
      exact hc.below j hj

theorem or_ne_none {a b : Mask} (h : a ≠ AE_NONE ∨ b ≠ AE_NONE) : a ||| b ≠ AE_NONE := by
  intro he
  obtain ⟨ha, hb⟩ := BitVec.or_eq_zero_iff.mp he
  exact h.elim (· ha) (· hb)

/-- The greatest registered descriptor once another one is registered for more. -/
theorem Greatest.register {m : Int} (hg : Greatest want m) {i : Nat} (mask : Mask)
    (hbare : m < i → mask ≠ AE_NONE) :
    Greatest (Function.update want i (want i ||| mask)) (if (i : Int) > m then (i : Int) else m) := by
  by_cases hi : (i : Int) > m
  · rw [if_pos hi]
    refine ⟨by omega, fun j hj => ?_, fun j hj => ?_⟩
    · rw [Function.update_of_ne (by omega)]
      exact hg.above j (by omega)
    · obtain rfl : j = i := by omega
      rw [Function.update_self]
      exact or_ne_none (.inr (hbare hi))
  · rw [if_neg hi]
    refine ⟨hg.least, fun j hj => ?_, fun j hj => ?_⟩
    · rw [Function.update_of_ne (by omega)]
      exact hg.above j hj
    · by_cases hji : j = i
      · subst hji
        rw [Function.update_self]
        exact or_ne_none (.inl (hg.itself j hj))
      · rw [Function.update_of_ne hji]
        exact hg.itself j hj

theorem aeCreateFileEvent_consistent (hc : Consistent el want) {fd : Int} {mask : Mask}
    {proc clientData : Nat} {added : Bool}
    (hs : (Call.create fd mask proc clientData added).Sane el) :
    ∃ el' answer, aeCreateFileEvent el fd mask proc clientData added = some (el', answer) ∧
      (answer ≠ .ok → el' = el) ∧
      Consistent el' ((Call.create fd mask proc clientData added).wanted want answer) := by
  obtain ⟨hfd, hbare⟩ := hs
  obtain ⟨i, rfl⟩ : ∃ i : Nat, fd = i := ⟨fd.toNat, by omega⟩
  rw [aeCreateFileEvent]
  by_cases hsize : (i : Int) ≥ el.setsize
  · rw [if_pos hsize]
    exact ⟨el, _, rfl, fun _ => rfl, hc⟩
  obtain ⟨fe, hfe, hmask⟩ := hc.get (i := i) (by omega)
  rw [if_neg hsize, FileEvents.slot_ofNat, hfe]
  cases added with
  | false => exact ⟨el, _, rfl, fun _ => rfl, hc⟩
  | true =>
      have hg := hc.maxfd.register (i := i) mask (fun hlt => hbare hlt (by omega) rfl)
      rw [← hmask] at hg
      refine ⟨_, _, rfl, fun hne => absurd rfl hne, ?_⟩
      have hput := hc.put (by omega) { fe with
        mask := fe.mask ||| mask
        rfileProc := if mask &&& AE_READABLE ≠ 0 then proc else fe.rfileProc
        wfileProc := if mask &&& AE_WRITABLE ≠ 0 then proc else fe.wfileProc
        clientData := clientData } hg
      show Consistent _ (Function.update want (Int.toNat i) (want (Int.toNat i) ||| mask))
      rw [Int.toNat_natCast, ← hmask]
      by_cases hi : (i : Int) > el.maxfd
      · rw [if_pos hi] at hput
        rw [if_pos (by exact hi)]
        exact hput
      · rw [if_neg hi] at hput
        rw [if_neg (by exact hi)]
        exact hput

/-- The scan finds the greatest registered descriptor below `n`. -/
theorem scanLoop_spec {events : Nat → Option FileEvent} (n : Nat)
    (hslots : ∀ i < n, ∃ fe, events i = some fe ∧ fe.mask = want i) :
    ∃ m, scanLoop events n = some m ∧ -1 ≤ m ∧ m < n ∧
      (∀ i : Nat, m < i → i < n → want i = AE_NONE) ∧ (∀ i : Nat, m = i → want i ≠ AE_NONE) := by
  induction n with
  | zero =>
      refine ⟨-1, rfl, Int.le_refl _, by decide, ?_, ?_⟩
      · intro i _ hi
        exact absurd hi (Nat.not_lt_zero i)
      · intro i hi
        omega
  | succ n ih =>
      obtain ⟨fe, hfe, hmask⟩ := hslots n (Nat.lt_succ_self n)
      rw [scanLoop, hfe]
      simp only [Option.bind_eq_bind, Option.bind_some]
      by_cases hne : fe.mask ≠ AE_NONE
      · rw [if_pos hne]
        refine ⟨n, rfl, by omega, by omega, fun i hlo hhi => by omega, fun i hi => ?_⟩
        obtain rfl : n = i := by omega
        exact hmask ▸ hne
      · rw [if_neg hne]
        obtain ⟨m, hm, hleast, hlt, habove, hitself⟩ := ih (fun i hi => hslots i (by omega))
        refine ⟨m, hm, hleast, by omega, fun i hlo hhi => ?_, hitself⟩
        by_cases hin : i = n
        · rw [hin, ← hmask]
          exact not_not.mp hne
        · exact habove i hlo (by omega)

theorem and_ne_none {a b : Mask} (h : a &&& b ≠ AE_NONE) : a ≠ AE_NONE := by
  rintro rfl
  exact h (BitVec.zero_and)

/-- Where the mask is not the last of the greatest descriptor, that stays the greatest one. -/
theorem Greatest.unregister {m : Int} (hg : Greatest want m) {i : Nat} {mask : Mask}
    (hstay : m = i → mask ≠ AE_NONE) (hempty : want i = AE_NONE → mask = AE_NONE) :
    Greatest (Function.update want i mask) m := by
  refine ⟨hg.least, fun j hj => ?_, fun j hj => ?_⟩
  · by_cases hji : j = i
    · subst hji
      rw [Function.update_self]
      exact hempty (hg.above j hj)
    · rw [Function.update_of_ne hji]
      exact hg.above j hj
  · by_cases hji : j = i
    · subst hji
      rw [Function.update_self]
      exact hstay hj
    · rw [Function.update_of_ne hji]
      exact hg.itself j hj

theorem aeDeleteFileEvent_consistent (hc : Consistent el want) {fd : Int} (mask : Mask)
    (hfd : 0 ≤ fd) :
    ∃ el', aeDeleteFileEvent el fd mask = some el' ∧
      Consistent el' ((Call.delete fd mask).wanted want .ok) := by
  obtain ⟨i, rfl⟩ : ∃ i : Nat, fd = i := ⟨fd.toNat, by omega⟩
  show ∃ el', _ ∧ Consistent el' (Function.update want (Int.toNat i) (want (Int.toNat i) &&& ~~~mask))
  rw [aeDeleteFileEvent, Int.toNat_natCast]
  have hsame (hnone : want i = AE_NONE) :
      Function.update want i (want i &&& ~~~mask) = want := by
    have hz : want i &&& ~~~mask = want i := by
      rw [hnone]
      exact BitVec.zero_and
    rw [hz, Function.update_eq_self]
  by_cases hsize : (i : Int) ≥ el.setsize
  · have hnone : want i = AE_NONE := not_imp_comm.mp (hc.below i) (by omega)
    rw [if_pos hsize, hsame hnone]
    exact ⟨el, rfl, hc⟩
  obtain ⟨fe, hfe, hmask⟩ := hc.get (i := i) (by omega)
  rw [if_neg hsize, FileEvents.slot_ofNat, hfe]
  simp only [Option.bind_eq_bind, Option.bind_some]
  by_cases hnone : fe.mask = AE_NONE
  · rw [if_pos hnone, hsame (hmask ▸ hnone)]
    exact ⟨el, rfl, hc⟩
  rw [if_neg hnone, ← hmask]
  rw [FileEvents.put_maxfd]
  by_cases hlast : (i : Int) = el.maxfd ∧ fe.mask &&& ~~~mask = AE_NONE
  · rw [if_pos hlast]
    obtain ⟨hmax, hmaskn⟩ := hlast
    have hbelow : ∀ j < i, ∃ fe', (el.put i { fe with mask := fe.mask &&& ~~~mask }).events j =
        some fe' ∧ fe'.mask = want j := by
      intro j hj
      obtain ⟨fe', hfe', hmask'⟩ := hc.get (i := j) (by omega)
      refine ⟨fe', ?_, hmask'⟩
      exact (Function.update_of_ne (by simp; omega) _ _).trans hfe'
    obtain ⟨m, hm, hleast, hlt, habove, hitself⟩ := scanLoop_spec i hbelow
    rw [← hmax, Int.toNat_natCast, hm]
    refine ⟨_, rfl, hc.put (by omega) { fe with mask := fe.mask &&& ~~~mask } ?_⟩
    refine ⟨hleast, fun j hj => ?_, fun j hj => ?_⟩
    · by_cases hji : j = i
      · rw [hji, Function.update_self]
        exact hmaskn
      · rw [Function.update_of_ne hji]
        by_cases hlo : j < i
        · exact habove j hj hlo
        · exact hc.maxfd.above j (by omega)
    · rw [Function.update_of_ne (by omega)]
      exact hitself j hj
  · rw [if_neg hlast]
    refine ⟨_, rfl, hc.put (by omega) { fe with mask := fe.mask &&& ~~~mask } ?_⟩
    refine hc.maxfd.unregister (fun hm => ?_) (fun hw => ?_)
    · exact fun he => hlast ⟨hm.symm, he⟩
    · exact absurd (hmask.trans hw) hnone

/-- The cleared slots, and the others as they were. -/
theorem clearLoop_spec (events : Nat → Option FileEvent) (n i : Nat)
    (hslots : ∀ j, i ≤ j → j < i + n → (events j).isSome) :
    ∃ events', clearLoop n i events = some events' ∧
      (∀ j, (j < i ∨ i + n ≤ j) → events' j = events j) ∧
      ∀ j, i ≤ j → j < i + n → ∃ fe, events' j = some fe ∧ fe.mask = AE_NONE := by
  induction n generalizing i events with
  | zero => exact ⟨events, rfl, fun _ _ => rfl, fun j hlo hhi => absurd hlo (by omega)⟩
  | succ n ih =>
      obtain ⟨fe, hfe⟩ := Option.isSome_iff_exists.mp (hslots i (Nat.le_refl i) (by omega))
      obtain ⟨events', hrun, hkept, hclear⟩ := ih
        (Function.update events i (some { fe with mask := AE_NONE })) (i + 1) (by
          intro j hlo hhi
          rw [Function.update_of_ne (by omega)]
          exact hslots j (by omega) (by omega))
      refine ⟨events', ?_, fun j hj => ?_, fun j hlo hhi => ?_⟩
      · rw [clearLoop, hfe]
        exact hrun
      · rw [hkept j (by omega), Function.update_of_ne (by omega)]
      · by_cases hji : j = i
        · rw [hji, hkept i (by omega), Function.update_self]
          exact ⟨_, rfl, rfl⟩
        · exact hclear j (by omega) (by omega)

theorem aeResizeSetSize_consistent (hc : Consistent el want) (setsize : Int) (resized : Bool)
    (junk : Nat → FileEvent) :
    ∃ el' answer, aeResizeSetSize el setsize resized junk = some (el', answer) ∧
      (answer ≠ .ok → el' = el) ∧ Consistent el' want := by
  rw [aeResizeSetSize]
  by_cases hsame : setsize = el.setsize
  · rw [if_pos hsame]
    exact ⟨el, _, rfl, fun _ => rfl, hc⟩
  rw [if_neg hsame]
  by_cases hused : el.maxfd ≥ setsize
  · rw [if_pos hused]
    exact ⟨el, _, rfl, fun _ => rfl, hc⟩
  rw [if_neg hused]
  cases resized with
  | false => exact ⟨el, _, rfl, fun _ => rfl, hc⟩
  | true =>
      have hleast := hc.maxfd.least
      obtain ⟨first, hfirst⟩ : ∃ first : Nat, el.maxfd + 1 = first :=
        ⟨(el.maxfd + 1).toNat, by omega⟩
      obtain ⟨events, hrun, hkept, hclear⟩ :=
        clearLoop_spec (realloc el.events setsize junk) (setsize - first).toNat first (by
          intro j hlo hhi
          rw [realloc, if_pos (by omega)]
          rfl)
      rw [hfirst, Int.toNat_natCast]
      simp only [Bool.not_true, Bool.false_eq_true, if_false, hrun, Option.bind_eq_bind,
        Option.bind_some]
      refine ⟨_, _, rfl, fun hne => absurd rfl hne, Consistent.of_slots ?_ ?_ ?_ hc.maxfd ?_⟩
      · show 0 ≤ setsize
        omega
      · intro j
        show (events j).isSome ↔ (j : Int) < setsize
        by_cases hin : first ≤ j ∧ (j : Int) < setsize
        · obtain ⟨fe, hfe, -⟩ := hclear j hin.1 (by omega)
          rw [hfe]
          exact ⟨fun _ => hin.2, fun _ => rfl⟩
        · rw [hkept j (by omega), realloc]
          by_cases hlt : (j : Int) < setsize
          · rw [if_pos hlt]
            exact ⟨fun _ => hlt, fun _ => rfl⟩
          · rw [if_neg hlt]
            exact ⟨fun h => (nomatch h), fun h => absurd h hlt⟩
      · intro j fe hfe
        have hfe' : events j = some fe := hfe
        by_cases hin : first ≤ j ∧ (j : Int) < setsize
        · obtain ⟨fe', hfe'', hnone⟩ := hclear j hin.1 (by omega)
          rw [hfe'] at hfe''
          cases hfe''
          rw [hnone, hc.maxfd.above j (by omega)]
        · rw [hkept j (by omega), realloc] at hfe'
          by_cases hlt : (j : Int) < setsize
          · -- a slot that was there before, up to `maxfd`
            have hold : (j : Int) ≤ el.maxfd := by omega
            obtain ⟨k, hk⟩ : ∃ k : Nat, el.maxfd = k := ⟨el.maxfd.toNat, by omega⟩
            have hsize := hc.maxfd_lt hk
            obtain ⟨fe', hget, hmask⟩ := hc.get (i := j) (by omega)
            rw [if_pos hlt, hget, Option.getD_some] at hfe'
            cases hfe'
            exact hmask
          · rw [if_neg hlt] at hfe'
            exact nomatch hfe'
      · intro j hj
        show (j : Int) < setsize
        have hle : ¬ el.maxfd < j := fun hlt => hj (hc.maxfd.above j hlt)
        omega

/-! ## Whole runs -/

theorem step_consistent (hc : Consistent el want) {c : Call} (hs : c.Sane el) :
    ∃ el' answer, el.step c = some (el', answer) ∧ (answer ≠ .ok → el' = el) ∧
      Consistent el' (c.wanted want answer) := by
  cases c with
  | create fd mask proc clientData added => exact aeCreateFileEvent_consistent hc hs
  | delete fd mask =>
      obtain ⟨el', hrun, hc'⟩ := aeDeleteFileEvent_consistent hc mask hs
      exact ⟨el', .ok, by rw [FileEvents.step, hrun]; rfl, fun hne => absurd rfl hne, hc'⟩
  | resize setsize resized junk =>
      obtain ⟨el', answer, hrun, hsame, hc'⟩ := aeResizeSetSize_consistent hc setsize resized junk
      refine ⟨el', answer, hrun, hsame, ?_⟩
      cases answer <;> exact hc'

/-- A call that is not for a descriptor, or registers nothing above `maxfd`, breaks the
registry. -/
theorem not_sane_breaks (hc : Consistent el want) {c : Call} (hs : ¬ c.Sane el) :
    ∀ el' answer, el.step c = some (el', answer) → ¬ Consistent el' (c.wanted want answer) := by
  have hsize := hc.size
  have hneg : ∀ {fd : Int}, fd < 0 → el.slot fd = none := fun h => if_pos h
  intro el' answer hstep hc'
  cases c with
  | resize setsize resized junk => exact hs trivial
  | delete fd mask =>
      have hfd : fd < 0 := Int.not_le.mp hs
      rw [FileEvents.step, aeDeleteFileEvent, if_neg (by omega), hneg hfd] at hstep
      exact nomatch hstep
  | create fd mask proc clientData added =>
      rw [FileEvents.step, aeCreateFileEvent] at hstep
      by_cases hfd : fd < 0
      · rw [if_neg (by omega), hneg hfd] at hstep
        exact nomatch hstep
      obtain ⟨i, rfl⟩ : ∃ i : Nat, fd = i := ⟨fd.toNat, by omega⟩
      simp only [Call.Sane] at hs
      push Not at hs
      obtain ⟨habove, hlt, rfl, rfl⟩ := hs (by omega)
      obtain ⟨fe, hfe, -⟩ := hc.get hlt
      rw [if_neg (by omega), FileEvents.slot_ofNat, hfe] at hstep
      simp only [Option.bind_eq_bind, Option.bind_some, Bool.not_true, Bool.false_eq_true,
        if_false] at hstep
      rw [FileEvents.put_maxfd, if_pos habove] at hstep
      cases hstep
      refine hc'.maxfd.itself i rfl ?_
      show Function.update want (Int.toNat i) (want (Int.toNat i) ||| AE_NONE) i = AE_NONE
      rw [Int.toNat_natCast, Function.update_self, hc.maxfd.above i habove]
      rfl

theorem always_consistent {cs : List Call} (h : Always el want cs) : Consistent el want := by
  cases cs with
  | nil => exact h
  | cons c cs => exact h.1

theorem always_iff (hc : Consistent el want) (cs : List Call) :
    Always el want cs ↔ AllSane el cs := by
  induction cs generalizing el want with
  | nil => exact iff_of_true hc trivial
  | cons c cs ih =>
      constructor
      · rintro ⟨-, el', answer, hstep, -, hrest⟩
        have hs : c.Sane el := by
          by_contra hs
          exact not_sane_breaks hc hs el' answer hstep (always_consistent hrest)
        refine ⟨hs, fun el₂ answer₂ hstep₂ => ?_⟩
        rw [hstep] at hstep₂
        cases hstep₂
        exact (ih (always_consistent hrest)).mp hrest
      · rintro ⟨hs, hall⟩
        obtain ⟨el', answer, hstep, hsame, hc'⟩ := step_consistent hc hs
        exact ⟨hc, el', answer, hstep, hsame, (ih hc').mpr (hall el' answer hstep)⟩

/-- From the start the registry is what it should be, and failing calls leave it alone, in just
those runs in which each call is for a descriptor and none registers the empty mask above
`maxfd`. -/
theorem consistent_iff (setsize : Nat) (junk : Nat → FileEvent) (cs : List Call) :
    Always (aeCreateEventLoop setsize junk) (fun _ => AE_NONE) cs ↔
      AllSane (aeCreateEventLoop setsize junk) cs :=
  always_iff (aeCreateEventLoop_consistent setsize junk) cs

/-- A descriptor is registered for nothing: `maxfd` is set to it, although its mask is empty. -/
theorem registry_broken : ¬ Always (aeCreateEventLoop 8 fun _ => ⟨0, 0, 0, 0⟩) (fun _ => AE_NONE)
    [.create 5 AE_NONE 1 2 true] := by
  rintro ⟨-, el', answer, hstep, -, hc⟩
  cases hstep
  exact hc.maxfd.itself 5 rfl rfl

end AeFile

end RedisCore
