/-
# `RedisCore.Ae.Served` — what one call of `processTimeEvents` serves

The walk goes on through the events that were on the list when it began, whatever the callbacks
put before them.  So each event that was on it and is due is served in this call, unless it ends
before, in the order of the list and once.
-/
import RedisCore.Ae.Runs

namespace RedisCore

namespace Ae

open Linked

variable {el el' : EventLoop} {s s' s₁ : State} {tr newer : List Seen} {st : Step} {sts : List Step}
  {front rest : List Nat} {x te : Nat} {ev : TimeEvent} {now : Int × Int}

/-- The event that the walk goes to next. -/
def State.ahead (s : State) : Option Nat :=
  match s.pc with
  | .outside => none
  | .loop _ te _ _ => te
  | .timeProc te _ _ _ => (s.el.next te).getD none
  | .finalizerProc _ next _ _ _ => next

/-- The events that the walk has still to visit. -/
def State.toCome (s : State) : List Nat :=
  Linked.walk s.el.next s.el.timeEventNextId s.ahead

/-- The clock has come to the time of an event. -/
def TimeEvent.Due (ev : TimeEvent) (now : Int × Int) : Prop :=
  now.1 > ev.whenSec ∨ (now.1 = ev.whenSec ∧ now.2 ≥ ev.whenMs)

def Seen.firedId : Seen → Option Int
  | .fired id _ => some id
  | _ => none

/-- The events that fired since `processTimeEvents` was called, in their order. -/
def firedSince (tr : List Seen) : List Int := (sinceBegan tr).reverse.filterMap Seen.firedId

/-! ## The trace -/

/-- Entries that no call of `timeProc` writes, nor one of `processTimeEvents`. -/
def Calm (newer : List Seen) : Prop := ∀ e ∈ newer, e ≠ .began ∧ e.firedId = none

theorem sinceBegan_append (h : ∀ e ∈ newer, e ≠ .began) :
    sinceBegan (newer ++ tr) = newer ++ sinceBegan tr := by
  unfold sinceBegan
  exact List.takeWhile_append_of_pos fun e he => decide_eq_true (h e he)

theorem firedSince_calm (h : Calm newer) : firedSince (newer ++ tr) = firedSince tr := by
  unfold firedSince
  rw [sinceBegan_append fun e he => (h e he).1, List.reverse_append, List.filterMap_append,
    List.filterMap_eq_nil_iff.mpr fun e he => (h e (List.mem_reverse.mp he)).2, List.append_nil]

theorem firedSince_fired (id : Int) (h : Handler) :
    firedSince (.fired id h :: tr) = firedSince tr ++ [id] := by
  unfold firedSince
  rw [← List.singleton_append, sinceBegan_append (by simp), List.reverse_append,
    List.filterMap_append]
  rfl

theorem Ended.append {id : Int} (h : Ended tr id) (newer : List Seen) : Ended (newer ++ tr) id :=
  h.imp (List.mem_append_right newer) (List.mem_append_right newer)

/-! ## What is still to come -/

/-- An event has the same place and time in another state of the memory. -/
def Alike (el el' : EventLoop) (x : Nat) : Prop :=
  ∀ ev, el.event x = some ev → ∃ ev', el'.event x = some ev' ∧ ev'.next = ev.next ∧
    ev'.whenSec = ev.whenSec ∧ ev'.whenMs = ev.whenMs

theorem Alike.of_event (h : el'.event x = el.event x) : Alike el el' x :=
  fun ev hev => ⟨ev, by rw [h, hev], rfl, rfl, rfl⟩

theorem Alike.next {n : Option Nat} (h : Alike el el' x) (hn : el.next x = some n) :
    el'.next x = some n := by
  obtain ⟨ev, hev, rfl⟩ := Option.map_eq_some_iff.mp hn
  obtain ⟨ev', hev', hnext, -⟩ := h ev hev
  rw [EventLoop.next, hev', Option.map_some, hnext]

/-- The walk, between the events that it has left behind and those that are to come. -/
structure Turn (s : State) (front rest : List Nat) : Prop where
  holds : Holds s.el s.trace (front ++ rest)
  chain : Chain s.el.next s.ahead rest none
  loop : ∀ prev te maxId processed, s.pc = .loop prev te maxId processed →
    (∀ p, prev = some p → p ∈ front) ∧ ∀ x ∈ rest, (x : Int) ≤ maxId
  called : ∀ te id maxId processed, s.pc = .timeProc te id maxId processed → te ∈ front
  freed : ∀ prev next te maxId processed, s.pc = .finalizerProc prev next te maxId processed →
    te ∉ front ++ rest

/-- A chain of the list is what is to come. -/
theorem toCome_eq (hl : Holds el tr (front ++ rest))
    (hid : el.timeEventNextId ≤ s'.el.timeEventNextId)
    (hchain : Chain s'.el.next s'.ahead rest none) : s'.toCome = rest := by
  have hlen := hl.length_le
  rw [List.length_append] at hlen
  exact hchain.walk (by omega)

theorem rest_chain {xs : List Nat} (hl : Holds el tr (xs ++ rest)) :
    Chain el.next rest.head? rest none := by
  obtain ⟨q, -, hrest⟩ := chain_append.mp hl.chain
  rw [hrest.head] at hrest
  exact hrest

theorem Inv.turn (hi : Inv s) : ∃ front, Turn s front s.toCome := by
  obtain ⟨l, hl, hat⟩ := hi
  cases hpc : s.pc with
  | outside =>
      have hnil : Chain s.el.next s.ahead [] none := by
        rw [State.ahead, hpc]
        rfl
      have hl' : Holds s.el s.trace (l ++ []) := by rwa [List.append_nil]
      have hcome := toCome_eq hl' (Nat.le_refl _) hnil
      rw [hcome]
      exact ⟨l, hl', hnil, by simp [hpc], by simp [hpc], by simp [hpc]⟩
  | loop prev te maxId processed =>
      rw [hpc] at hat
      obtain ⟨-, rest, ⟨new, done, rfl, rfl, hle⟩, rfl⟩ := hat
      have hchain : Chain s.el.next s.ahead rest none := by
        rw [State.ahead, hpc]
        exact rest_chain hl
      have hcome := toCome_eq hl (Nat.le_refl _) hchain
      rw [hcome]
      refine ⟨new ++ done, hl, hchain, ?_, by simp [hpc], by simp [hpc]⟩
      intro prev te maxId' processed' heq
      rw [hpc] at heq
      cases heq
      exact ⟨fun p hp => List.mem_append_right new (List.mem_of_getLast? hp), hle⟩
  | timeProc te id maxId processed =>
      rw [hpc] at hat
      obtain ⟨-, -, prev, rest, new, done, rfl, -, -⟩ := hat
      have hchain : Chain s.el.next s.ahead rest none := by
        rw [State.ahead, hpc]
        dsimp only
        rw [hl.chain.next_eq, Option.getD_some]
        refine @rest_chain _ s.trace _ (new ++ done ++ [te]) ?_
        rwa [List.append_assoc (new ++ done), List.singleton_append]
      have hl' : Holds s.el s.trace (new ++ done ++ [te] ++ rest) := by
        rwa [List.append_assoc (new ++ done), List.singleton_append]
      have hcome := toCome_eq hl' (Nat.le_refl _) hchain
      rw [hcome]
      refine ⟨new ++ done ++ [te], hl', hchain, by simp [hpc], ?_, by simp [hpc]⟩
      intro te' id' maxId' processed' heq
      rw [hpc] at heq
      cases heq
      exact List.mem_append_right _ List.mem_cons_self
  | finalizerProc prev next te maxId processed =>
      rw [hpc] at hat
      obtain ⟨-, hte, -, -, rest, ⟨new, done, rfl, rfl, hle⟩, rfl⟩ := hat
      have hchain : Chain s.el.next s.ahead rest none := by
        rw [State.ahead, hpc]
        exact rest_chain hl
      have hcome := toCome_eq hl (Nat.le_refl _) hchain
      rw [hcome]
      refine ⟨new ++ done, hl, hchain, by simp [hpc], by simp [hpc], ?_⟩
      intro prev' next' te' maxId' processed' heq
      rw [hpc] at heq
      cases heq
      exact hte

/-- After a step the walk has so many events to visit, at the times that they had. -/
structure Moved (s s' : State) (rest : List Nat) : Prop where
  toCome : s'.toCome = rest
  alike : ∀ x ∈ rest, Alike s.el s'.el x

theorem Moved.of_chain (hl : Holds s.el s.trace (front ++ rest))
    (hchain : Chain s.el.next s'.ahead rest none)
    (hid : s.el.timeEventNextId ≤ s'.el.timeEventNextId) (halike : ∀ x ∈ rest, Alike s.el s'.el x) :
    Moved s s' rest := by
  refine ⟨toCome_eq hl hid (hchain.congr fun x hx => ?_), halike⟩
  obtain ⟨n, hn⟩ := hchain.isSome hx
  rw [hn, (halike x hx).next hn]

/-! ## The steps -/

theorem Turn.ne (ht : Turn s front rest) (hx : x ∈ rest) (hte : te ∈ front) : x ≠ te := by
  have hnodup := ht.holds.nodup
  rintro rfl
  exact (List.nodup_append.mp hnodup).2.2 x hte x hx rfl

/-- A step that stays at its place in the code. -/
theorem Turn.still (ht : Turn s front rest) (hpc : s'.pc = s.pc)
    (hid : s.el.timeEventNextId ≤ s'.el.timeEventNextId)
    (halike : ∀ x ∈ front ++ rest, Alike s.el s'.el x) : Moved s s' rest := by
  have hahead : s'.ahead = s.ahead := by
    unfold State.ahead
    rw [hpc]
    cases hcase : s.pc with
    | timeProc te id maxId processed =>
        have hte := List.mem_append_left rest (ht.called te id maxId processed hcase)
        obtain ⟨ev, hev⟩ := ht.holds.listed te hte
        have hnext : s.el.next te = some ev.next := by
          rw [EventLoop.next, hev.event, Option.map_some]
        dsimp only
        rw [hnext, (halike te hte).next hnext]
    | outside => rfl
    | loop prev te maxId processed => rfl
    | finalizerProc prev next te maxId processed => rfl
  have hchain := ht.chain
  rw [← hahead] at hchain
  exact .of_chain ht.holds hchain hid fun x hx => halike x (List.mem_append_right front hx)

/-- `aeDeleteTimeEvent` leaves all events at their places and times. -/
theorem delete_alike {l : List Nat} {id : Int} {r : EventLoop × Bool} (hl : Holds el tr l)
    (hdel : aeDeleteTimeEvent el id = some r) :
    r.1.timeEventNextId = el.timeEventNextId ∧ ∀ x, Alike el r.1 x := by
  unfold aeDeleteTimeEvent at hdel
  rcases deleteLoop_spec id hl.chain hl.length_le with h | ⟨te, ev, -, hev, -, h⟩
  · rw [h] at hdel
    cases hdel
    exact ⟨rfl, fun x => .of_event rfl⟩
  · rw [h] at hdel
    cases hdel
    refine ⟨rfl, fun x => ?_⟩
    by_cases hx : x = te
    · subst hx
      intro ev' hev'
      rw [hev] at hev'
      cases hev'
      exact ⟨{ ev with id := AE_DELETED_EVENT_ID }, by rw [event_put, if_pos rfl], rfl, rfl, rfl⟩
    · exact .of_event (by rw [event_put, if_neg hx])

/-- **What is not a pass** moves nothing that is to come, and calls no `timeProc`. -/
theorem Turn.calm_step (ht : Turn s front rest) (hstep : step s st = some s')
    (hbegin : ∀ t, st ≠ .begin t) (hpass : ∀ now, st ≠ .pass now) :
    Moved s s' rest ∧ ∃ newer, s'.trace = newer ++ s.trace ∧ Calm newer := by
  cases st with
  | create now ms h =>
      simp only [step] at hstep
      split at hstep
      · cases hstep
        refine ⟨ht.still rfl (Nat.le_succ _) fun x hx => .of_event ?_, [_], rfl, ?_⟩
        · have hne : x ≠ s.el.timeEventNextId := Nat.ne_of_lt (ht.holds.lt hx)
          show (s.el.put s.el.timeEventNextId _).event x = s.el.event x
          rw [event_put, if_neg hne]
        · simp [Calm, Seen.firedId]
      · cases hstep
  | delete id =>
      simp only [step] at hstep
      split at hstep
      · obtain ⟨r, hdel, rfl⟩ := Option.map_eq_some_iff.mp hstep
        obtain ⟨hid, halike⟩ := delete_alike ht.holds hdel
        refine ⟨ht.still rfl (Nat.le_of_eq hid.symm) fun x _ => halike x, ?_⟩
        dsimp only
        split
        · exact ⟨[_], rfl, by simp [Calm, Seen.firedId]⟩
        · exact ⟨[], rfl, by simp [Calm]⟩
      · cases hstep
  | begin t => exact absurd rfl (hbegin t)
  | pass now => exact absurd rfl (hpass now)
  | back retval now =>
      cases hpc : s.pc with
      | outside => simp [step, hpc] at hstep
      | loop prev te maxId processed => simp [step, hpc] at hstep
      | timeProc te id maxId processed =>
          have hte := ht.called te id maxId processed hpc
          obtain ⟨ev, hev⟩ := ht.holds.listed te (List.mem_append_left rest hte)
          have hchain := ht.chain
          rw [State.ahead, hpc] at hchain
          dsimp only at hchain
          rw [EventLoop.next, hev.event, Option.map_some, Option.getD_some] at hchain
          rw [step, hpc] at hstep
          simp only [timeProcBack, hev.event] at hstep
          split at hstep <;> cases hstep
          · refine ⟨.of_chain ht.holds hchain (Nat.le_refl _) fun x hx => .of_event ?_, [], rfl, ?_⟩
            · rw [event_put, if_neg (ht.ne hx hte)]
            · simp [Calm]
          · refine ⟨.of_chain ht.holds hchain (Nat.le_refl _) fun x hx => .of_event ?_,
              [_], rfl, ?_⟩
            · rw [event_put, if_neg (ht.ne hx hte)]
            · simp [Calm, Seen.firedId]
      | finalizerProc prev next te maxId processed =>
          have hte := ht.freed prev next te maxId processed hpc
          have hchain := ht.chain
          rw [State.ahead, hpc] at hchain
          rw [step, hpc] at hstep
          obtain ⟨el', hfree, rfl⟩ := Option.map_eq_some_iff.mp hstep
          obtain ⟨ev, -, rfl⟩ := Option.map_eq_some_iff.mp hfree
          refine ⟨.of_chain ht.holds hchain (Nat.le_refl _) fun x hx => .of_event ?_, [], rfl, ?_⟩
          · have hne : x ≠ te := fun heq => hte (heq ▸ List.mem_append_right front hx)
            rw [event_put, if_neg hne]
          · simp [Calm]

/-- Taking an event off the list writes to the event before it only. -/
theorem unlink_event {prev next : Option Nat} (h : unlink el prev next = some el') :
    el'.timeEventNextId = el.timeEventNextId ∧ ∀ x, prev ≠ some x → el'.event x = el.event x := by
  cases prev with
  | none =>
      cases h
      exact ⟨rfl, fun _ _ => rfl⟩
  | some p =>
      obtain ⟨ev, -, rfl⟩ := Option.map_eq_some_iff.mp h
      refine ⟨rfl, fun x hx => ?_⟩
      rw [event_put, if_neg fun heq => hx (by rw [heq])]

/-- **A pass** visits the next event: it has ended, it is not due, or it fires. -/
theorem Turn.pass_step (ht : Turn s front rest) (hstep : step s (.pass now) = some s') :
    (rest = [] ∧ Moved s s' [] ∧ s'.trace = s.trace) ∨
      ∃ x later ev, rest = x :: later ∧ s.el.event x = some ev ∧ Moved s s' later ∧
        ((Ended s.trace x ∧ ∃ newer, s'.trace = newer ++ s.trace ∧ Calm newer) ∨
          (¬ ev.Due now ∧ s'.trace = s.trace) ∨
            ev.Due now ∧ ∃ h, s'.trace = .fired x h :: s.trace) := by
  cases hpc : s.pc with
  | outside => simp [step, hpc] at hstep
  | timeProc te id maxId processed => simp [step, hpc] at hstep
  | finalizerProc prev next te maxId processed => simp [step, hpc] at hstep
  | loop prev te maxId processed =>
      obtain ⟨hprev, hle⟩ := ht.loop prev te maxId processed hpc
      have hhead : te = rest.head? := by
        have := ht.chain.head
        rwa [State.ahead, hpc] at this
      rw [step, hpc] at hstep
      dsimp only at hstep
      cases rest with
      | nil =>
          left
          rw [hhead, List.head?_nil] at hstep
          cases hstep
          refine ⟨rfl, ⟨?_, by simp⟩, rfl⟩
          exact Chain.walk (show Chain _ none [] none from rfl) (Nat.zero_le _)
      | cons x later =>
          right
          obtain ⟨ev, hev⟩ := ht.holds.listed x (List.mem_append_right front List.mem_cons_self)
          refine ⟨x, later, ev, rfl, hev.event, ?_⟩
          have hholds : Holds s.el s.trace ((front ++ [x]) ++ later) := by
            rw [List.append_assoc, List.singleton_append]
            exact ht.holds
          have hnext : s.el.next x = some later.head? := ht.holds.chain.next_eq
          have hevnext : ev.next = later.head? := by
            rw [EventLoop.next, hev.event, Option.map_some] at hnext
            exact Option.some.inj hnext
          have hchain : Chain s.el.next ev.next later none := by
            rw [hevnext]
            exact rest_chain hholds
          have hother : ∀ y ∈ later, y ≠ x ∧ prev ≠ some y := by
            intro y hy
            have hnodup := (List.nodup_append.mp hholds.nodup).2.2
            refine ⟨fun heq => ?_, fun heq => ?_⟩
            · exact hnodup x (List.mem_append_right _ List.mem_cons_self) y hy heq.symm
            · exact hnodup y (List.mem_append_left _ (hprev y heq)) y hy rfl
          rw [hhead, List.head?_cons, loopPass] at hstep
          simp only [hev.event] at hstep
          split at hstep
          · next hdel =>
              -- it is taken off the list
              have hend : Ended s.trace x := by
                rcases hev.live with ⟨hlive, -⟩ | ⟨-, hend⟩
                · rw [hdel] at hlive
                  unfold AE_DELETED_EVENT_ID at hlive
                  omega
                · exact hend
              obtain ⟨el', hunlink, hstep⟩ := Option.bind_eq_some_iff.mp hstep
              obtain ⟨hid, hevent⟩ := unlink_event hunlink
              split at hstep
              · cases hstep
                refine ⟨.of_chain hholds hchain (Nat.le_of_eq hid.symm) fun y hy =>
                  .of_event (hevent y (hother y hy).2), .inl ⟨hend, [_], rfl, ?_⟩⟩
                simp [Calm, Seen.firedId]
              · obtain ⟨el'', hfree, rfl⟩ := Option.map_eq_some_iff.mp hstep
                obtain ⟨ev', -, rfl⟩ := Option.map_eq_some_iff.mp hfree
                refine ⟨.of_chain hholds hchain (Nat.le_of_eq hid.symm) fun y hy =>
                  .of_event ?_, .inl ⟨hend, [], rfl, by simp [Calm]⟩⟩
                rw [event_put, if_neg (hother y hy).1, hevent y (hother y hy).2]
          · next hdel =>
              have hlive : ev.id = x := by
                rcases hev.live with ⟨hlive, -⟩ | ⟨hid, -⟩
                · exact hlive
                · exact absurd hid hdel
              rw [if_neg (by rw [hlive]; exact Int.not_lt.mpr (hle x List.mem_cons_self))] at hstep
              split at hstep
              · next hdue =>
                  cases hstep
                  refine ⟨.of_chain hholds ?_ (Nat.le_refl _) fun y hy => .of_event rfl,
                    .inr (.inr ⟨hdue, ev.handler, by rw [hlive]⟩)⟩
                  show Chain s.el.next ((s.el.next x).getD none) later none
                  rw [hnext, Option.getD_some, ← hevnext]
                  exact hchain
              · next hdue =>
                  cases hstep
                  exact ⟨.of_chain hholds hchain (Nat.le_refl _) fun y hy => .of_event rfl,
                    .inr (.inl ⟨hdue, rfl⟩)⟩

/-! ## The call -/

/-- What was served since the call began, with the passes that are in `sts`: of the events of then,
those that fired and those that are to come are in the order of the list; what fired was due, and
none that is always due is left behind. -/
structure Serving (s₁ : State) (sts : List Step) (s : State) : Prop where
  order : (firedSince s.trace ++ s.toCome.map Nat.cast).Sublist (s₁.toCome.map Nat.cast)
  served : ∀ x ∈ s₁.toCome, ∀ ev, s₁.el.event x = some ev → (∀ now, .pass now ∈ sts → ev.Due now) →
    Ended s.trace x ∨ (x : Int) ∈ firedSince s.trace ∨ x ∈ s.toCome
  due : ∀ x : Nat, (x : Int) ∈ firedSince s.trace → ∃ ev now, s₁.el.event x = some ev ∧
    .pass now ∈ sts ∧ ev.Due now
  times : ∀ x ∈ s.toCome, ∃ ev ev', s₁.el.event x = some ev ∧ s.el.event x = some ev' ∧
    ev'.whenSec = ev.whenSec ∧ ev'.whenMs = ev.whenMs

/-- The times of what is to come stay. -/
theorem Serving.times_moved (h : Serving s₁ sts s) (hm : Moved s s' rest) (hsub : rest ⊆ s.toCome) :
    ∀ x ∈ s'.toCome, ∃ ev ev', s₁.el.event x = some ev ∧ s'.el.event x = some ev' ∧
      ev'.whenSec = ev.whenSec ∧ ev'.whenMs = ev.whenMs := by
  intro x hx
  rw [hm.toCome] at hx
  obtain ⟨ev, ev', hev, hev', hsec, hms⟩ := h.times x (hsub hx)
  obtain ⟨ev'', hev'', -, hsec', hms'⟩ := hm.alike x hx ev' hev'
  exact ⟨ev, ev'', hev, hev'', hsec'.trans hsec, hms'.trans hms⟩

theorem Serving.calm (h : Serving s₁ sts s) (hm : Moved s s' s.toCome)
    (htrace : ∃ newer, s'.trace = newer ++ s.trace ∧ Calm newer) : Serving s₁ sts s' := by
  obtain ⟨newer, htrace, hcalm⟩ := htrace
  refine ⟨?_, ?_, ?_, h.times_moved hm fun x hx => hx⟩
  · rw [htrace, firedSince_calm hcalm, hm.toCome]
    exact h.order
  · intro x hx ev hev hdue
    rw [htrace, firedSince_calm hcalm, hm.toCome]
    exact (h.served x hx ev hev hdue).imp_left fun hend => hend.append newer
  · rw [htrace, firedSince_calm hcalm]
    exact h.due

/-- What is always due is served, if the event that is visited is. -/
theorem Serving.served_visit (h : Serving s₁ sts s) (hcome : s.toCome = x :: rest)
    (hrest : s'.toCome = rest) (hended : ∀ id, Ended s.trace id → Ended s'.trace id)
    (hfired : firedSince s.trace ⊆ firedSince s'.trace)
    (hx : ∀ ev, s₁.el.event x = some ev → (∀ now, .pass now ∈ sts → ev.Due now) →
      Ended s'.trace x ∨ (x : Int) ∈ firedSince s'.trace) :
    ∀ y ∈ s₁.toCome, ∀ ev, s₁.el.event y = some ev → (∀ now, .pass now ∈ sts → ev.Due now) →
      Ended s'.trace y ∨ (y : Int) ∈ firedSince s'.trace ∨ y ∈ s'.toCome := by
  intro y hy ev hev halways
  rcases h.served y hy ev hev halways with hy | hy | hy
  · exact .inl (hended y hy)
  · exact .inr (.inl (hfired hy))
  · rw [hcome] at hy
    rcases List.mem_cons.mp hy with rfl | hy
    · exact (hx ev hev halways).imp_right .inl
    · exact .inr (.inr (by rwa [hrest]))

/-- **A pass** keeps the order, fires only what is due, and leaves nothing behind that is. -/
theorem Serving.pass (h : Serving s₁ sts s) (ht : Turn s front s.toCome)
    (hstep : step s (.pass now) = some s') (hmem : .pass now ∈ sts) : Serving s₁ sts s' := by
  rcases ht.pass_step hstep with ⟨hnil, hm, htrace⟩ | ⟨x, later, ev, hcome, hev, hm, hcases⟩
  · rw [← hnil] at hm
    exact h.calm hm ⟨[], htrace, by simp [Calm]⟩
  · have htimes := h.times_moved hm (by rw [hcome]; exact List.subset_cons_self x later)
    have horder := h.order
    rw [hcome, List.map_cons] at horder
    have hskip := ((List.sublist_cons_self (x : Int) (later.map Nat.cast)).append_left
      (firedSince s.trace)).trans horder
    -- the time that the visited event had when the call began
    obtain ⟨ev₁, ev₂, hev₁, hev₂, hsec, hms⟩ := h.times x (by rw [hcome]; exact List.mem_cons_self)
    rw [hev] at hev₂
    cases hev₂
    have hdue_iff : ev.Due now ↔ ev₁.Due now := by
      unfold TimeEvent.Due
      rw [hsec, hms]
    rcases hcases with ⟨hend, newer, htrace, hcalm⟩ | ⟨hdue, htrace⟩ | ⟨hdue, handler, htrace⟩
    · have hsame : firedSince s'.trace = firedSince s.trace := by rw [htrace, firedSince_calm hcalm]
      refine ⟨by rw [hsame, hm.toCome]; exact hskip, ?_, by rw [hsame]; exact h.due, htimes⟩
      refine h.served_visit hcome hm.toCome ?_ ?_ ?_
      · rw [htrace]
        exact fun id hid => hid.append newer
      · rw [hsame]
        exact fun id hid => hid
      · rw [htrace]
        exact fun _ _ _ => .inl (hend.append newer)
    · refine ⟨by rw [htrace, hm.toCome]; exact hskip, ?_, by rw [htrace]; exact h.due, htimes⟩
      refine h.served_visit hcome hm.toCome ?_ ?_ ?_
      · rw [htrace]
        exact fun id hid => hid
      · rw [htrace]
        exact fun id hid => hid
      · intro ev' hev' halways
        rw [hev₁] at hev'
        cases hev'
        exact absurd (hdue_iff.mpr (halways now hmem)) hdue
    · have hmore : firedSince s'.trace = firedSince s.trace ++ [(x : Int)] := by
        rw [htrace, firedSince_fired]
      refine ⟨?_, h.served_visit hcome hm.toCome ?_ ?_ ?_, ?_, htimes⟩
      · rw [hmore, hm.toCome, List.append_assoc, List.singleton_append]
        exact horder
      · rw [htrace]
        exact fun id hid => hid.cons _
      · rw [hmore]
        exact List.subset_append_left _ _
      · rw [hmore]
        exact fun _ _ _ => .inr (List.mem_append_right _ List.mem_cons_self)
      · intro y hy
        rw [hmore] at hy
        rcases List.mem_append.mp hy with hy | hy
        · exact h.due y hy
        · obtain rfl : y = x := Int.ofNat_inj.mp (List.mem_singleton.mp hy)
          exact ⟨ev₁, now, hev₁, hmem, hdue_iff.mp hdue⟩

/-- **One step** of the call. -/
theorem Serving.step (h : Serving s₁ sts s) (hi : Inv s) (hstep : Ae.step s st = some s')
    (hmem : st ∈ sts) (hbegin : ∀ t, st ≠ .begin t) : Serving s₁ sts s' := by
  obtain ⟨front, ht⟩ := hi.turn
  by_cases hpass : ∃ now, st = .pass now
  · obtain ⟨now, rfl⟩ := hpass
    exact h.pass ht hstep hmem
  · obtain ⟨hm, htrace⟩ := ht.calm_step hstep hbegin fun now heq => hpass ⟨now, heq⟩
    exact h.calm hm htrace

/-- **The steps** of the call. -/
theorem Serving.run {during : List Step} {s' : State} : ∀ {s : State}, Serving s₁ sts s → Inv s →
    during ⊆ sts → (∀ t, .begin t ∉ during) →
    (∀ pre s'', pre <+: during → Ae.run s pre = some s'' → s''.prompt = true) →
    Ae.run s during = some s' → Serving s₁ sts s' := by
  induction during with
  | nil =>
      intro s h _ _ _ _ hrun
      cases hrun
      exact h
  | cons st during ih =>
      intro s h hi hsub hbegin hp hrun
      obtain ⟨s₂, hstep, hrun⟩ := Option.bind_eq_some_iff.mp hrun
      obtain ⟨hst, hsub⟩ := List.cons_subset.mp hsub
      obtain ⟨s₂', hstep', hi₂⟩ := hi.step (hp [] s List.nil_prefix rfl) (fits_of_step hstep)
      rw [hstep] at hstep'
      cases hstep'
      have h₂ := h.step hi hstep hst fun t heq => hbegin t (heq ▸ List.mem_cons_self)
      refine ih h₂ hi₂ hsub (fun t ht => hbegin t (List.mem_cons_of_mem st ht)) ?_ hrun
      intro pre s'' hpre hrun'
      refine hp (st :: pre) s'' ((List.prefix_cons_inj st).mpr hpre) ?_
      rw [Ae.run, hstep, Option.bind_some, hrun']

/-- What the walk has to visit when it begins. -/
theorem toCome_begin {s₀ : State} {t : Int} (hstep : Ae.step s₀ (.begin t) = some s₁) :
    s₁.toCome = s₁.el.timeEvents ∧ firedSince s₁.trace = [] := by
  cases hpc : s₀.pc with
  | outside =>
      rw [Ae.step, hpc] at hstep
      obtain ⟨el, -, rfl⟩ := Option.map_eq_some_iff.mp hstep
      exact ⟨rfl, rfl⟩
  | loop prev te maxId processed => simp [Ae.step, hpc] at hstep
  | timeProc te id maxId processed => simp [Ae.step, hpc] at hstep
  | finalizerProc prev next te maxId processed => simp [Ae.step, hpc] at hstep

/-- **One call of `processTimeEvents`.**  In every run, with callbacks that do anything, of which no
step unlinks new events with an old one: what fires in a call was on the list when it began and was
due when the clock was read, and it fires in the order of the list and once; and each event that was
on the list and is due whenever the clock is read in the call has fired when it returns, unless it
was deleted or returned `AE_NOMORE`. -/
theorem processTimeEvents_serves (start : Int) (before : List Step) (t : Int) (during : List Step)
    {s₀ s₁ s : State} (hbefore : run (initial start) before = some s₀)
    (hbegin : step s₀ (.begin t) = some s₁) (hduring : run s₁ during = some s)
    (hcall : ∀ t', .begin t' ∉ during) (hend : s.pc = .outside)
    (hp : ∀ pre s', pre <+: before ++ .begin t :: during →
      run (initial start) pre = some s' → s'.prompt = true) :
    (firedSince s.trace).Sublist (s₁.el.timeEvents.map Nat.cast) ∧
      s₁.el.timeEvents.Nodup ∧
      (∀ id : Nat, (id : Int) ∈ firedSince s.trace → ∃ ev now, s₁.el.event id = some ev ∧
        .pass now ∈ during ∧ ev.Due now) ∧
      ∀ id ∈ s₁.el.timeEvents, ∀ ev, s₁.el.event id = some ev →
        (∀ now, .pass now ∈ during → ev.Due now) →
        Ended s.trace id ∨ (id : Int) ∈ firedSince s.trace := by
  have hrun_append : ∀ pre : List Step,
      run (initial start) (before ++ .begin t :: pre) = run s₁ pre := by
    intro pre
    rw [← List.singleton_append, ← List.append_assoc]
    induction pre using List.reverseRecOn with
    | nil => rw [List.append_nil, run_append, hbefore, Option.bind_some, hbegin]; rfl
    | append_singleton pre st ih => rw [← List.append_assoc, run_append, run_append, ih]
  have hprefix₁ : before ++ [.begin t] <+: before ++ .begin t :: during :=
    (List.prefix_append_right_inj before).mpr ⟨during, rfl⟩
  have hinv₁ : Inv s₁ := by
    refine run_inv start (before ++ [.begin t]) s₁ (hrun_append []) ?_
    exact fun pre s' hpre => hp pre s' (hpre.trans hprefix₁)
  obtain ⟨hcome, hfired⟩ := toCome_begin hbegin
  obtain ⟨front, ht₁⟩ := hinv₁.turn
  have hserving₁ : Serving s₁ during s₁ := by
    refine ⟨by rw [hfired, List.nil_append], fun x hx _ _ _ => .inr (.inr hx), ?_, fun x hx => ?_⟩
    · rw [hfired]
      exact fun x hx => absurd hx List.not_mem_nil
    obtain ⟨ev, hev⟩ := ht₁.holds.listed x (List.mem_append_right front hx)
    exact ⟨ev, ev, hev.event, hev.event, rfl, rfl⟩
  have hserving : Serving s₁ during s := by
    refine hserving₁.run hinv₁ (fun st hst => hst) hcall (fun pre s' hpre hrun => ?_) hduring
    refine hp (before ++ .begin t :: pre) s' ((List.prefix_append_right_inj before).mpr ?_) ?_
    · exact (List.prefix_cons_inj _).mpr hpre
    · rw [hrun_append, hrun]
  have hnone : s.toCome = [] := by
    rw [State.toCome, State.ahead, hend]
    exact Chain.walk (show Chain s.el.next none [] none from rfl) (Nat.zero_le _)
  rw [← hcome]
  refine ⟨?_, (List.nodup_append.mp ht₁.holds.nodup).2.1, hserving.due, ?_⟩
  · have horder := hserving.order
    rwa [hnone, List.map_nil, List.append_nil] at horder
  · intro id hid ev hev hdue
    rcases hserving.served id hid ev hev hdue with h | h | h
    · exact .inl h
    · exact .inr h
    · rw [hnone] at h
      exact absurd h List.not_mem_nil

/-- Two events, of which the older one is due. -/
def twoTimers : List Step := [.create (0, 0) 5 ⟨1, none, 0⟩, .create (0, 0) 2000 ⟨2, none, 0⟩]

/-- A call that fires the older one, whose callback creates a third. -/
def oneCall : List Step :=
  [.pass (1, 0), .pass (1, 0), .create (1, 0) 0 ⟨3, none, 0⟩, .back 7 (1, 0), .pass (1, 0)]

/-- The due event of two fires, and neither the other one nor the one that its callback creates. -/
theorem processTimeEvents_serves_one : ∃ s₀ s₁ s, run (initial 0) twoTimers = some s₀ ∧
    step s₀ (.begin 1) = some s₁ ∧ run s₁ oneCall = some s ∧ firedSince s.trace = [0] ∧
    (Ended s.trace 0 ∨ ((0 : Nat) : Int) ∈ firedSince s.trace) := by
  refine ⟨_, _, _, rfl, rfl, rfl, rfl, ?_⟩
  refine (processTimeEvents_serves 0 twoTimers 1 oneCall rfl rfl rfl (by simp [oneCall]) rfl
    (prompt_of_inits (by decide))).2.2.2 0 (by decide) ⟨0, 0, 5, ⟨1, none, 0⟩, none⟩ rfl ?_
  intro now hnow
  obtain rfl : now = (1, 0) := by
    revert hnow
    simp [oneCall]
  exact .inl (by decide)

end Ae

end RedisCore
