/-
# `RedisCore.Ae.Events` — the time events of the event loop (ae.c)

Time events are on a singly linked list in memory; a new one goes to its head.  Deleting
an event only marks it.  `processTimeEvents` walks over the list with the event before
(`prev`), unlinks those that are marked, and calls `timeProc` of those that are due.

The callbacks are any code, and may create and delete events.  So `processTimeEvents` is a
machine here: it stops where it calls one, the calls that the callback makes are steps of
their own, and so is its return.  What the clock says, what a callback does and what it
returns are in the steps, hence all runs together cover all callbacks.

An address is a number.  An event is put at the one that is its id; addresses are not
used twice, and reading an event that has been freed makes a step fail.  What happens is
written to a trace.
-/
import RedisCore.Lib.Chain

namespace RedisCore

namespace Ae

/-- `AE_NOMORE`. -/
def AE_NOMORE : Int := -1

/-- `AE_DELETED_EVENT_ID`. -/
def AE_DELETED_EVENT_ID : Int := -1

/-- The callbacks of an event and their argument, all by their address. -/
structure Handler where
  timeProc : Nat
  finalizerProc : Option Nat
  clientData : Nat
  deriving DecidableEq

/-- `aeTimeEvent`. -/
structure TimeEvent where
  id : Int
  whenSec : Int
  whenMs : Int
  handler : Handler
  next : Option Nat
  deriving DecidableEq

/-- What `aeEventLoop` has on time events, with the memory they are in. -/
structure EventLoop where
  timeEventNextId : Nat
  lastTime : Int
  timeEventHead : Option Nat
  event : Nat → Option TimeEvent

/-- What can be seen of the time events. -/
inductive Seen where
  /-- `aeCreateTimeEvent` returned this id. -/
  | created (id : Nat) (handler : Handler)
  /-- `aeDeleteTimeEvent` found this id. -/
  | deleted (id : Int)
  /-- `processTimeEvents` was called. -/
  | began
  /-- `timeProc` was called with this id. -/
  | fired (id : Int) (handler : Handler)
  /-- `timeProc` returned `AE_NOMORE`. -/
  | finished (id : Int)
  /-- `finalizerProc` of the event with this address was called. -/
  | finalized (te : Nat) (handler : Handler)
  deriving DecidableEq

/-- Write to the memory of an event. -/
def EventLoop.put (el : EventLoop) (te : Nat) (ev : Option TimeEvent) : EventLoop :=
  { el with event := Function.update el.event te ev }

/-- `zfree` of an event. -/
def EventLoop.free (el : EventLoop) (te : Nat) : Option EventLoop :=
  (el.event te).map (fun _ => el.put te none)

/-- `next` of an event. -/
def EventLoop.next (el : EventLoop) (te : Nat) : Option (Option Nat) :=
  (el.event te).map TimeEvent.next

/-- The events that are reached from `timeEventHead`. -/
def EventLoop.timeEvents (el : EventLoop) : List Nat :=
  Linked.walk el.next el.timeEventNextId el.timeEventHead

/-! ## The functions -/

/-- The time events of `aeCreateEventLoop`. -/
def aeCreateEventLoop (now : Int) : EventLoop := ⟨0, now, none, fun _ => none⟩

/-- `aeAddMillisecondsToNow`, when the clock is at `now`. -/
def aeAddMillisecondsToNow (now : Int × Int) (milliseconds : Int) : Int × Int :=
  let whenSec := now.1 + milliseconds.tdiv 1000
  let whenMs := now.2 + milliseconds.tmod 1000
  if whenMs ≥ 1000 then (whenSec + 1, whenMs - 1000) else (whenSec, whenMs)

/-- `aeCreateTimeEvent`, with the id it returns. -/
def aeCreateTimeEvent (el : EventLoop) (now : Int × Int) (milliseconds : Int) (handler : Handler) :
    EventLoop × Nat :=
  let id := el.timeEventNextId
  let when := aeAddMillisecondsToNow now milliseconds
  let el := el.put id (some ⟨id, when.1, when.2, handler, el.timeEventHead⟩)
  ({ el with timeEventNextId := id + 1, timeEventHead := some id }, id)

/-- The loop of `aeDeleteTimeEvent`, and whether it found the id. -/
def deleteLoop (el : EventLoop) (id : Int) : Nat → Option Nat → Option (EventLoop × Bool)
  | _, none => some (el, false)
  | 0, some _ => none
  | fuel + 1, some te =>
      match el.event te with
      | none => none
      | some ev =>
          if ev.id = id then some (el.put te (some { ev with id := AE_DELETED_EVENT_ID }), true)
          else deleteLoop el id fuel ev.next

/-- `aeDeleteTimeEvent`, and whether it found the id. -/
def aeDeleteTimeEvent (el : EventLoop) (id : Int) : Option (EventLoop × Bool) :=
  deleteLoop el id el.timeEventNextId el.timeEventHead

/-- The first loop of `processTimeEvents`, which makes all events due. -/
def skewLoop : Nat → Option Nat → EventLoop → Option EventLoop
  | _, none, el => some el
  | 0, some _, _ => none
  | fuel + 1, some te, el =>
      match el.event te with
      | none => none
      | some ev => skewLoop fuel ev.next (el.put te (some { ev with whenSec := 0 }))

/-- `processTimeEvents` up to its second loop. -/
def detectSkew (el : EventLoop) (now : Int) : Option EventLoop :=
  (if now < el.lastTime then skewLoop el.timeEventNextId el.timeEventHead el else some el).map
    (fun el => { el with lastTime := now })

/-- Take an event off the list whose `next` is given. -/
def unlink (el : EventLoop) (prev next : Option Nat) : Option EventLoop :=
  match prev with
  | none => some { el with timeEventHead := next }
  | some p => (el.event p).map (fun ev => el.put p (some { ev with next := next }))

/-! ## The machine -/

/-- Where the code is. -/
inductive Pc where
  | outside
  /-- At the head of the second loop of `processTimeEvents`. -/
  | loop (prev te : Option Nat) (maxId : Int) (processed : Nat)
  /-- Within `timeProc` of an event. -/
  | timeProc (te : Nat) (id : Int) (maxId : Int) (processed : Nat)
  /-- Within `finalizerProc` of an event that is off the list. -/
  | finalizerProc (prev next : Option Nat) (te : Nat) (maxId : Int) (processed : Nat)
  deriving DecidableEq

structure State where
  el : EventLoop
  pc : Pc
  trace : List Seen

/-- What happens next. -/
inductive Step where
  /-- `aeCreateTimeEvent` is called, by a callback or from elsewhere. -/
  | create (now : Int × Int) (milliseconds : Int) (handler : Handler)
  /-- `aeDeleteTimeEvent` is called. -/
  | delete (id : Int)
  /-- `processTimeEvents` is called, when `time` gives `now`. -/
  | begin (now : Int)
  /-- A pass of its loop, when `aeGetTime` gives `now`. -/
  | pass (now : Int × Int)
  /-- The callback returns. -/
  | back (retval : Int) (now : Int × Int)

def initial (now : Int) : State := ⟨aeCreateEventLoop now, .outside, []⟩

/-- Code other than `processTimeEvents` itself is running. -/
def Pc.atCaller : Pc → Bool
  | .loop .. => false
  | _ => true

/-- One pass of the second loop, up to the callback if there is one. -/
def loopPass (s : State) (prev te : Option Nat) (maxId : Int) (processed : Nat)
    (now : Int × Int) : Option State :=
  match te with
  | none => some { s with pc := .outside }
  | some te =>
      match s.el.event te with
      | none => none
      | some ev =>
          if ev.id = AE_DELETED_EVENT_ID then
            (unlink s.el prev ev.next).bind (fun el =>
              if ev.handler.finalizerProc.isSome then
                some ⟨el, .finalizerProc prev ev.next te maxId processed,
                  .finalized te ev.handler :: s.trace⟩
              else (el.free te).map (⟨·, .loop prev ev.next maxId processed, s.trace⟩))
          else if ev.id > maxId then some { s with pc := .loop prev ev.next maxId processed }
          else if now.1 > ev.whenSec ∨ (now.1 = ev.whenSec ∧ now.2 ≥ ev.whenMs) then
            some ⟨s.el, .timeProc te ev.id maxId processed, .fired ev.id ev.handler :: s.trace⟩
          else some { s with pc := .loop (some te) ev.next maxId processed }

/-- What `processTimeEvents` does when `timeProc` has returned. -/
def timeProcBack (s : State) (te : Nat) (id maxId : Int) (processed : Nat) (retval : Int)
    (now : Int × Int) : Option State :=
  match s.el.event te with
  | none => none
  | some ev =>
      let pc := Pc.loop (some te) ev.next maxId (processed + 1)
      if retval ≠ AE_NOMORE then
        let when := aeAddMillisecondsToNow now retval
        some ⟨s.el.put te (some { ev with whenSec := when.1, whenMs := when.2 }), pc, s.trace⟩
      else
        some ⟨s.el.put te (some { ev with id := AE_DELETED_EVENT_ID }), pc, .finished id :: s.trace⟩

/-- The steps that there are at a place in the code. -/
def Step.fits : Step → Pc → Bool
  | .create .., pc => pc.atCaller
  | .delete _, pc => pc.atCaller
  | .begin _, .outside => true
  | .pass _, .loop .. => true
  | .back .., .timeProc .. => true
  | .back .., .finalizerProc .. => true
  | _, _ => false

def step (s : State) : Step → Option State
  | .create now milliseconds handler =>
      if s.pc.atCaller then
        let r := aeCreateTimeEvent s.el now milliseconds handler
        some { s with el := r.1, trace := .created r.2 handler :: s.trace }
      else none
  | .delete id =>
      if s.pc.atCaller then
        (aeDeleteTimeEvent s.el id).map (fun r =>
          { s with el := r.1, trace := if r.2 then .deleted id :: s.trace else s.trace })
      else none
  | .begin now =>
      match s.pc with
      | .outside =>
          (detectSkew s.el now).map (fun el =>
            ⟨el, .loop none el.timeEventHead (el.timeEventNextId - 1) 0, .began :: s.trace⟩)
      | _ => none
  | .pass now =>
      match s.pc with
      | .loop prev te maxId processed => loopPass s prev te maxId processed now
      | _ => none
  | .back retval now =>
      match s.pc with
      | .timeProc te id maxId processed => timeProcBack s te id maxId processed retval now
      | .finalizerProc prev next te maxId processed =>
          (s.el.free te).map (⟨·, .loop prev next maxId processed, s.trace⟩)
      | _ => none

def run (s : State) : List Step → Option State
  | [] => some s
  | st :: sts => (step s st).bind (run · sts)

/-! ## What is promised -/

/-- The event was deleted, or returned `AE_NOMORE`. -/
def Ended (trace : List Seen) (id : Int) : Prop := .deleted id ∈ trace ∨ .finished id ∈ trace

/-- What happened since `processTimeEvents` was called, of a trace with the newest first. -/
def sinceBegan (trace : List Seen) : List Seen := trace.takeWhile (· ≠ .began)

/-- What callers rely on, said of a state and of what happened before. -/
structure Kept (s : State) : Prop where
  /-- No live event is lost. -/
  reachable : ∀ (id : Nat) h, .created id h ∈ s.trace → ¬ Ended s.trace id → id ∈ s.el.timeEvents
  /-- No event fires that has ended. -/
  quiet : ∀ id h older, .fired id h :: older <:+ s.trace → ¬ Ended older id
  /-- No event fires in the call in which it was created. -/
  later : ∀ (id : Nat) h h' older, .fired id h :: older <:+ s.trace →
    .created id h' ∉ sinceBegan older
  /-- The finalizer of an event is called once when it is off the list, and not before. -/
  once : ∀ (id : Nat) h, .created id h ∈ s.trace → s.trace.count (.finalized id h) =
    if id ∈ s.el.timeEvents ∨ h.finalizerProc = none then 0 else 1
  /-- A finalizer is called with its own argument, and only for an event that has ended. -/
  proper : ∀ (id : Nat) h, .finalized id h ∈ s.trace → .created id h ∈ s.trace ∧ Ended s.trace id

end Ae

end RedisCore
