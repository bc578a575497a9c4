/-
# `RedisCore.Ae.Runs` — what becomes of time events

While `processTimeEvents` walks, the list is three parts: events that callbacks have put
before those it has kept, the kept ones, and those it has still to visit.  `prev` is the
last one that was kept.  When there is none and there are new ones, unlinking an event
takes all new ones off the list with it, so that is where events get lost; in runs in
which this does not happen the list has exactly the events that were not finalized.
-/
import RedisCore.Ae.Events
import Mathlib.Data.List.Perm.Subperm
import Mathlib.Data.List.Count
import Mathlib.Data.List.Infix
import Mathlib.Data.List.Range

namespace RedisCore

namespace Ae

open Linked

variable {el el' : EventLoop} {tr tr' : List Seen} {l : List Nat} {te : Nat}
  {ev ev' : TimeEvent} {h h' : Handler} {id : Int}

/-! ## The trace -/

/-- No entry of a trace contradicts the ones before it. -/
def History : List Seen → Prop
  | [] => True
  | .fired id _ :: tr =>
      (¬ Ended tr id ∧ ∀ (te : Nat) h, (te : Int) = id → .created te h ∉ sinceBegan tr) ∧
        History tr
  | .finalized te h :: tr =>
      (.created te h ∈ tr ∧ Ended tr te ∧ h.finalizerProc ≠ none ∧
        ∀ h', .finalized te h' ∉ tr) ∧ History tr
  | _ :: tr => History tr

theorem Ended.cons (h : Ended tr id) (e : Seen) : Ended (e :: tr) id :=
  h.imp (List.mem_cons_of_mem e) (List.mem_cons_of_mem e)

theorem History.tail {e : Seen} (hh : History (e :: tr)) : History tr := by
  cases e with
  | fired id h => exact hh.2
  | finalized te h => exact hh.2
  | created id h => exact hh
  | deleted id => exact hh
  | began => exact hh
  | finished id => exact hh

theorem History.suffix (hh : History tr) (hs : tr' <:+ tr) : History tr' := by
  obtain ⟨newer, rfl⟩ := hs
  induction newer with
  | nil => exact hh
  | cons e newer ih => exact ih hh.tail

theorem History.proper (hh : History tr) (hf : .finalized te h ∈ tr) :
    .created te h ∈ tr ∧ Ended tr te ∧ h.finalizerProc ≠ none := by
  induction tr with
  | nil => exact absurd hf List.not_mem_nil
  | cons e tr ih =>
      rcases List.mem_cons.mp hf with rfl | hf
      · exact ⟨List.mem_cons_of_mem _ hh.1.1, hh.1.2.1.cons _, hh.1.2.2.1⟩
      · obtain ⟨hc, he, hn⟩ := ih hh.tail hf
        exact ⟨List.mem_cons_of_mem _ hc, he.cons e, hn⟩

/-- No finalizer is called twice. -/
theorem History.count_le (hh : History tr) (te : Nat) (h : Handler) :
    tr.count (.finalized te h) ≤ 1 := by
  induction tr with
  | nil => exact Nat.zero_le 1
  | cons e tr ih =>
      rw [List.count_cons]
      split
      · next heq =>
          rw [beq_iff_eq] at heq
          subst heq
          rw [List.count_eq_zero_of_not_mem (hh.1.2.2.2 h)]
      · exact ih hh.tail

/-! ## Writing an event -/

theorem event_put (el : EventLoop) (te : Nat) (ev : Option TimeEvent) (x : Nat) :
    (el.put te ev).event x = if x = te then ev else el.event x := by
  unfold EventLoop.put
  by_cases hx : x = te
  · subst hx
    rw [if_pos rfl]
    exact Function.update_self ..
  · rw [if_neg hx]
    exact Function.update_of_ne hx ..

theorem next_put (el : EventLoop) (te : Nat) (ev : Option TimeEvent) :
    (el.put te ev).next = Function.update el.next te (ev.map TimeEvent.next) := by
  funext x
  rw [EventLoop.next, event_put]
  by_cases hx : x = te
  · subst hx
    rw [if_pos rfl, Function.update_self]
  · rw [if_neg hx, Function.update_of_ne hx, EventLoop.next]

/-- Writing an event without its `next` moves no pointer. -/
theorem next_put_of_next (hev : el.event te = some ev) (hnext : ev'.next = ev.next) :
    (el.put te (some ev')).next = el.next := by
  rw [next_put, Option.map_some, hnext]
  exact Function.update_eq_self_iff.mpr (by rw [EventLoop.next, hev, Option.map_some])

/-! ## The list -/

/-- An event that is on the list. -/
structure Listed (el : EventLoop) (tr : List Seen) (te : Nat) (ev : TimeEvent) : Prop where
  event : el.event te = some ev
  created : .created te ev.handler ∈ tr
  live : ev.id = te ∧ ¬ Ended tr te ∨ ev.id = AE_DELETED_EVENT_ID ∧ Ended tr te
  notFinalized : ∀ h, .finalized te h ∉ tr

/-- The list has all events but those that are done with. -/
structure Holds (el : EventLoop) (tr : List Seen) (l : List Nat) : Prop where
  chain : Chain el.next el.timeEventHead l none
  nodup : l.Nodup
  listed : ∀ te ∈ l, ∃ ev, Listed el tr te ev
  gone : ∀ te h, .created te h ∈ tr → te ∉ l →
    Ended tr te ∧ (h.finalizerProc ≠ none → .finalized te h ∈ tr)
  bound : ∀ te h, .created te h ∈ tr → te < el.timeEventNextId
  unique : ∀ te h h', .created te h ∈ tr → .created te h' ∈ tr → h = h'
  ends : ∀ id, Ended tr id → id < el.timeEventNextId
  history : History tr

theorem Holds.lt (hl : Holds el tr l) (hte : te ∈ l) : te < el.timeEventNextId := by
  obtain ⟨ev, hev⟩ := hl.listed te hte
  exact hl.bound te ev.handler hev.created

/-- An event of the list as an event is: by its address. -/
theorem Holds.get (hl : Holds el tr l) (hte : te ∈ l) (hev : el.event te = some ev) :
    Listed el tr te ev := by
  obtain ⟨ev', hlisted⟩ := hl.listed te hte
  rw [hlisted.event] at hev
  cases hev
  exact hlisted

theorem Holds.length_le (hl : Holds el tr l) : l.length ≤ el.timeEventNextId := by
  have hsub : l ⊆ List.range el.timeEventNextId := fun x hx => List.mem_range.mpr (hl.lt hx)
  have := (hl.nodup.subperm hsub).length_le
  rwa [List.length_range] at this

theorem Holds.timeEvents (hl : Holds el tr l) : el.timeEvents = l := hl.chain.walk hl.length_le

/-- What the list has and what has happened are what callers rely on. -/
theorem Holds.kept {s : State} (hl : Holds s.el s.trace l) : Kept s where
  reachable id h hc he := by
    rw [hl.timeEvents]
    by_contra hn
    exact he (hl.gone id h hc hn).1
  quiet id h older hs := (hl.history.suffix hs).1.1
  later id h h' older hs := (hl.history.suffix hs).1.2 id h' rfl
  once id h hc := by
    rw [hl.timeEvents]
    by_cases hmem : id ∈ l
    · obtain ⟨ev, hev⟩ := hl.listed id hmem
      rw [if_pos (Or.inl hmem), List.count_eq_zero_of_not_mem (hev.notFinalized h)]
    · by_cases hn : h.finalizerProc = none
      · rw [if_pos (Or.inr hn), List.count_eq_zero_of_not_mem]
        exact fun hf => (hl.history.proper hf).2.2 hn
      · rw [if_neg (not_or.mpr ⟨hmem, hn⟩)]
        have hpos := List.count_pos_iff.mpr ((hl.gone id h hc hmem).2 hn)
        have hle := hl.history.count_le id h
        omega
  proper id h hf := ⟨(hl.history.proper hf).1, (hl.history.proper hf).2.1⟩

/-! ## What the functions do to the list -/

/-- An entry that creates, ends or finalizes nothing. -/
theorem Holds.note (hl : Holds el tr l) {e : Seen} (hc : ∀ te h, e ≠ .created te h)
    (he : ∀ id, e ≠ .deleted id ∧ e ≠ .finished id) (hf : ∀ te h, e ≠ .finalized te h)
    (hh : History (e :: tr)) : Holds el (e :: tr) l := by
  have hmem : ∀ x : Seen, (x ≠ e) → (x ∈ e :: tr ↔ x ∈ tr) := by
    intro x hx
    rw [List.mem_cons, or_iff_right hx]
  have hended : ∀ id, Ended (e :: tr) id ↔ Ended tr id := by
    intro id
    unfold Ended
    rw [hmem _ (he id).1.symm, hmem _ (he id).2.symm]
  refine ⟨hl.chain, hl.nodup, ?_, ?_, ?_, ?_, ?_, hh⟩
  · intro te hte
    obtain ⟨ev, hev⟩ := hl.listed te hte
    refine ⟨ev, hev.event, List.mem_cons_of_mem e hev.created, ?_, ?_⟩
    · rw [hended]
      exact hev.live
    · intro h hfin
      rw [hmem _ (hf te h).symm] at hfin
      exact hev.notFinalized h hfin
  · intro te h hcr hn
    rw [hmem _ (hc te h).symm] at hcr
    rw [hended]
    obtain ⟨hend, hfin⟩ := hl.gone te h hcr hn
    exact ⟨hend, fun hne => List.mem_cons_of_mem e (hfin hne)⟩
  · intro te h hcr
    rw [hmem _ (hc te h).symm] at hcr
    exact hl.bound te h hcr
  · intro te h h' hcr hcr'
    rw [hmem _ (hc te h).symm] at hcr
    rw [hmem _ (hc te h').symm] at hcr'
    exact hl.unique te h h' hcr hcr'
  · intro id hend
    rw [hended] at hend
    exact hl.ends id hend

/-- Writing the time of an event. -/
theorem Holds.touch (hl : Holds el tr l) (hte : te ∈ l) (hev : el.event te = some ev)
    (hid : ev'.id = ev.id) (hhandler : ev'.handler = ev.handler) (hnext : ev'.next = ev.next) :
    Holds (el.put te (some ev')) tr l := by
  refine ⟨?_, hl.nodup, ?_, hl.gone, hl.bound, hl.unique, hl.ends,
    hl.history⟩
  · rw [next_put_of_next hev hnext]
    exact hl.chain
  · intro x hx
    by_cases hxe : x = te
    · subst hxe
      have hlisted := hl.get hte hev
      refine ⟨ev', by rw [event_put, if_pos rfl], ?_, ?_, hlisted.notFinalized⟩
      · rw [hhandler]
        exact hlisted.created
      · rw [hid]
        exact hlisted.live
    · obtain ⟨e, he⟩ := hl.listed x hx
      exact ⟨e, by rw [event_put, if_neg hxe]; exact he.event, he.created, he.live,
        he.notFinalized⟩

/-- Marking an event as deleted, for either reason. -/
theorem Holds.mark (hl : Holds el tr l) (hte : te ∈ l) (hev : el.event te = some ev) {e : Seen}
    (he : e = .deleted id ∨ e = .finished id)
    (hid : id = te ∨ id = AE_DELETED_EVENT_ID ∧ ev.id = AE_DELETED_EVENT_ID) :
    Holds (el.put te (some { ev with id := AE_DELETED_EVENT_ID })) (e :: tr) l := by
  have hended : ∀ i, Ended (e :: tr) i ↔ Ended tr i ∨ i = id := by
    intro i
    unfold Ended
    rcases he with rfl | rfl
    · simp only [List.mem_cons, Seen.deleted.injEq, reduceCtorEq, false_or]
      tauto
    · simp only [List.mem_cons, Seen.finished.injEq, reduceCtorEq, false_or]
      tauto
  have hcreated : ∀ x h, .created x h ∈ e :: tr ↔ .created x h ∈ tr := by
    intro x h
    rcases he with rfl | rfl <;> simp
  have hfinal : ∀ x h, .finalized x h ∈ e :: tr ↔ .finalized x h ∈ tr := by
    intro x h
    rcases he with rfl | rfl <;> simp
  have hlisted := hl.get hte hev
  have hlt := hl.lt hte
  refine ⟨?_, hl.nodup, ?_, ?_, ?_, ?_, ?_, ?_⟩
  · rw [@next_put_of_next _ _ _ { ev with id := AE_DELETED_EVENT_ID } hev rfl]
    exact hl.chain
  · intro x hx
    by_cases hxe : x = te
    · subst hxe
      refine ⟨{ ev with id := AE_DELETED_EVENT_ID }, by rw [event_put, if_pos rfl], ?_, ?_, ?_⟩
      · rw [hcreated]
        exact hlisted.created
      · refine Or.inr ⟨rfl, (hended x).mpr ?_⟩
        rcases hid with rfl | ⟨-, hid⟩
        · exact Or.inr rfl
        · rcases hlisted.live with ⟨hlive, -⟩ | ⟨-, hend⟩
          · rw [hid] at hlive
            unfold AE_DELETED_EVENT_ID at hlive
            omega
          · exact Or.inl hend
      · intro h hf
        exact hlisted.notFinalized h ((hfinal x h).mp hf)
    · obtain ⟨e', he'⟩ := hl.listed x hx
      refine ⟨e', by rw [event_put, if_neg hxe]; exact he'.event, ?_, ?_, ?_⟩
      · rw [hcreated]
        exact he'.created
      · rw [hended]
        rcases he'.live with ⟨hlive, hend⟩ | ⟨hdel, hend⟩
        · refine Or.inl ⟨hlive, not_or.mpr ⟨hend, ?_⟩⟩
          unfold AE_DELETED_EVENT_ID at hid
          omega
        · exact Or.inr ⟨hdel, Or.inl hend⟩
      · intro h hf
        exact he'.notFinalized h ((hfinal x h).mp hf)
  · intro x h hc hn
    rw [hcreated] at hc
    obtain ⟨hend, hfin⟩ := hl.gone x h hc hn
    exact ⟨(hended x).mpr (Or.inl hend), fun hne => (hfinal x h).mpr (hfin hne)⟩
  · intro x h hc
    exact hl.bound x h ((hcreated x h).mp hc)
  · intro x h h' hc hc'
    exact hl.unique x h h' ((hcreated x h).mp hc) ((hcreated x h').mp hc')
  · intro i hend
    rcases (hended i).mp hend with hend | rfl
    · exact hl.ends i hend
    · show i < (el.timeEventNextId : Int)
      unfold AE_DELETED_EVENT_ID at hid
      omega
  · rcases he with rfl | rfl <;> exact hl.history

/-- **`aeCreateTimeEvent`** puts a new event before all others. -/
theorem Holds.create (hl : Holds el tr l) (now : Int × Int) (ms : Int) (h : Handler) :
    Holds (aeCreateTimeEvent el now ms h).1 (.created el.timeEventNextId h :: tr)
      (el.timeEventNextId :: l) := by
  obtain ⟨new, hnew⟩ : ∃ new, new = el.timeEventNextId := ⟨_, rfl⟩
  obtain ⟨ev, hhandler, hevid, hnext, hel⟩ : ∃ ev : TimeEvent, ev.handler = h ∧ ev.id = new ∧
      ev.next = el.timeEventHead ∧ (aeCreateTimeEvent el now ms h).1 =
        { el.put new (some ev) with timeEventNextId := new + 1, timeEventHead := some new } := by
    subst hnew
    exact ⟨_, rfl, rfl, rfl, rfl⟩
  have hfresh : new ∉ l := fun hmem => Nat.lt_irrefl new (by
    have := hl.lt hmem
    omega)
  have hevent : ∀ x, (aeCreateTimeEvent el now ms h).1.event x =
      if x = new then some ev else el.event x := by
    intro x
    rw [hel]
    exact event_put el new (some ev) x
  have hnextId : (aeCreateTimeEvent el now ms h).1.timeEventNextId = new + 1 := by rw [hel]
  have hended : ∀ i, Ended (.created new h :: tr) i ↔ Ended tr i := by
    intro i
    unfold Ended
    simp
  have hfinal : ∀ x h', .finalized x h' ∈ .created new h :: tr ↔ .finalized x h' ∈ tr := by
    intro x h'
    simp
  have hcreated : ∀ x h', .created x h' ∈ .created new h :: tr →
      x = new ∧ h' = h ∨ x < new ∧ .created x h' ∈ tr := by
    intro x h' hc
    rcases List.mem_cons.mp hc with heq | hc
    · cases heq
      exact Or.inl ⟨rfl, rfl⟩
    · exact Or.inr ⟨by have := hl.bound x h' hc; omega, hc⟩
  rw [← hnew]
  refine ⟨?_, List.nodup_cons.mpr ⟨hfresh, hl.nodup⟩, ?_, ?_, ?_, ?_, ?_, hl.history⟩
  · have hhead : (aeCreateTimeEvent el now ms h).1.timeEventHead = some new := by rw [hel]
    refine ⟨hhead, el.timeEventHead, ?_, ?_⟩
    · rw [EventLoop.next, hevent, if_pos rfl, Option.map_some, hnext]
    · refine hl.chain.congr (fun x hx => ?_)
      have hne : x ≠ new := fun he => hfresh (he ▸ hx)
      rw [EventLoop.next, hevent, if_neg hne, EventLoop.next]
  · intro x hx
    rcases List.mem_cons.mp hx with rfl | hx
    · refine ⟨ev, by rw [hevent, if_pos rfl], ?_, Or.inl ⟨hevid, ?_⟩, ?_⟩
      · rw [hhandler]
        exact List.mem_cons_self
      · rw [hended]
        intro hend
        have := hl.ends x hend
        omega
      · intro h' hf
        have := hl.bound x h' (hl.history.proper ((hfinal x h').mp hf)).1
        omega
    · obtain ⟨e, he⟩ := hl.listed x hx
      have hne : x ≠ new := fun heq => hfresh (heq ▸ hx)
      refine ⟨e, by rw [hevent, if_neg hne]; exact he.event, List.mem_cons_of_mem _ he.created,
        ?_, ?_⟩
      · rw [hended]
        exact he.live
      · intro h' hf
        exact he.notFinalized h' ((hfinal x h').mp hf)
  · intro x h' hc hn
    rw [List.mem_cons, not_or] at hn
    rcases hcreated x h' hc with ⟨hx, -⟩ | ⟨-, hc⟩
    · exact absurd hx hn.1
    · obtain ⟨hend, hfin⟩ := hl.gone x h' hc hn.2
      exact ⟨(hended x).mpr hend, fun hne => (hfinal x h').mpr (hfin hne)⟩
  · intro x h' hc
    rw [hnextId]
    rcases hcreated x h' hc with ⟨rfl, -⟩ | ⟨hlt, -⟩
    · exact Nat.lt_succ_self x
    · exact Nat.lt_succ_of_lt hlt
  · intro x h₁ h₂ hc₁ hc₂
    rcases hcreated x h₁ hc₁ with ⟨hx₁, rfl⟩ | ⟨hlt₁, hc₁⟩ <;>
      rcases hcreated x h₂ hc₂ with ⟨hx₂, rfl⟩ | ⟨hlt₂, hc₂⟩
    · rfl
    · omega
    · omega
    · exact hl.unique x h₁ h₂ hc₁ hc₂
  · intro i hend
    rw [hnextId]
    have := hl.ends i ((hended i).mp hend)
    omega

/-- **The loop of `aeDeleteTimeEvent`** finds the first event with the id. -/
theorem deleteLoop_spec (id : Int) : ∀ {fuel : Nat} {p : Option Nat} {l : List Nat},
    Chain el.next p l none → l.length ≤ fuel →
    (deleteLoop el id fuel p = some (el, false)) ∨
      ∃ te ev, te ∈ l ∧ el.event te = some ev ∧ ev.id = id ∧ deleteLoop el id fuel p =
        some (el.put te (some { ev with id := AE_DELETED_EVENT_ID }), true) := by
  intro fuel p l
  induction l generalizing fuel p with
  | nil =>
      rintro rfl -
      left
      cases fuel <;> rfl
  | cons x l ih =>
      rintro ⟨rfl, n, hn, hrest⟩ hfuel
      obtain ⟨ev, hev, rfl⟩ := Option.map_eq_some_iff.mp hn
      cases fuel with
      | zero => exact absurd hfuel (by simp)
      | succ fuel =>
          rw [deleteLoop, hev]
          simp only
          by_cases hid : ev.id = id
          · rw [if_pos hid]
            exact Or.inr ⟨x, ev, List.mem_cons_self, hev, hid, rfl⟩
          · rw [if_neg hid]
            rcases ih hrest (Nat.le_of_succ_le_succ hfuel) with h | ⟨te, ev', hte, h⟩
            · exact Or.inl h
            · exact Or.inr ⟨te, ev', List.mem_cons_of_mem x hte, h⟩

/-- **`aeDeleteTimeEvent`** marks an event, or changes nothing. -/
theorem Holds.delete (hl : Holds el tr l) (id : Int) :
    ∃ r, aeDeleteTimeEvent el id = some r ∧ r.1.timeEventNextId = el.timeEventNextId ∧
      (∀ x, x ∉ l → r.1.event x = el.event x) ∧
      Holds r.1 (if r.2 then .deleted id :: tr else tr) l := by
  unfold aeDeleteTimeEvent
  rcases deleteLoop_spec id hl.chain hl.length_le with h | ⟨te, ev, hte, hev, hid, h⟩
  · exact ⟨_, h, rfl, fun _ _ => rfl, hl⟩
  · refine ⟨_, h, rfl, ?_, ?_⟩
    · intro x hx
      have hne : x ≠ te := fun he => hx (he ▸ hte)
      rw [event_put, if_neg hne]
    · refine hl.mark hte hev (Or.inl rfl) ?_
      rcases (hl.get hte hev).live with ⟨hlive, -⟩ | ⟨hdel, -⟩
      · exact Or.inl (by rw [← hid, hlive])
      · exact Or.inr ⟨by rw [← hid, hdel], hdel⟩

/-- The first loop of `processTimeEvents` writes times only. -/
theorem Holds.skew {xs rest : List Nat} (hsplit : l = xs ++ rest) :
    ∀ {fuel : Nat} {el : EventLoop}, Holds el tr l → rest.length ≤ fuel →
    ∃ el', skewLoop fuel rest.head? el = some el' ∧ Holds el' tr l ∧
      el'.timeEventNextId = el.timeEventNextId := by
  induction rest generalizing xs with
  | nil =>
      intro fuel el hl _
      refine ⟨el, ?_, hl, rfl⟩
      cases fuel <;> rfl
  | cons x rest ih =>
      intro fuel el hl hfuel
      cases fuel with
      | zero => exact absurd hfuel (by simp)
      | succ fuel =>
          have hx : x ∈ l := by
            rw [hsplit]
            exact List.mem_append_right _ List.mem_cons_self
          obtain ⟨ev, hev⟩ := hl.listed x hx
          have hnext : ev.next = rest.head? := by
            have hc := hl.chain
            rw [hsplit] at hc
            have := hc.next_eq
            rw [EventLoop.next, hev.event, Option.map_some] at this
            exact Option.some.inj this
          rw [List.head?_cons, skewLoop, hev.event]
          simp only
          have htouch : Holds (el.put x (some { ev with whenSec := 0 })) tr l :=
            hl.touch hx hev.event rfl rfl rfl
          have hsplit' : l = (xs ++ [x]) ++ rest := by
            rw [hsplit, List.append_assoc, List.singleton_append]
          obtain ⟨el', hloop, hl', hid⟩ := ih hsplit' htouch (Nat.le_of_succ_le_succ hfuel)
          rw [← hnext] at hloop
          exact ⟨el', hloop, hl', hid⟩

theorem Holds.detectSkew (hl : Holds el tr l) (now : Int) :
    ∃ el', detectSkew el now = some el' ∧ Holds el' tr l ∧
      el'.timeEventNextId = el.timeEventNextId := by
  obtain ⟨el₁, heq, hl₁, hid⟩ : ∃ el₁, (if now < el.lastTime then
      skewLoop el.timeEventNextId el.timeEventHead el else some el) = some el₁ ∧
      Holds el₁ tr l ∧ el₁.timeEventNextId = el.timeEventNextId := by
    split
    · rw [hl.chain.head]
      exact Holds.skew (List.nil_append l).symm hl hl.length_le
    · exact ⟨el, rfl, hl, rfl⟩
  refine ⟨{ el₁ with lastTime := now }, ?_, ?_, hid⟩
  · rw [Ae.detectSkew, heq]
    rfl
  · refine ⟨hl₁.chain, hl₁.nodup, ?_, hl₁.gone, hl₁.bound, hl₁.unique, hl₁.ends,
      hl₁.history⟩
    intro te hte
    obtain ⟨ev, hev⟩ := hl₁.listed te hte
    exact ⟨ev, hev.event, hev.created, hev.live, hev.notFinalized⟩

/-- The chain when an event is off the list. -/
theorem unlink_chain {xs done rest : List Nat} {el : EventLoop}
    (hchain : Chain el.next el.timeEventHead (xs ++ done ++ te :: rest) none)
    (hnodup : (xs ++ done ++ te :: rest).Nodup) (hnew : done = [] → xs = [])
    (hevents : ∀ x ∈ xs ++ done ++ te :: rest, ∃ ev, el.event x = some ev) :
    ∃ el', unlink el done.getLast? rest.head? = some el' ∧
      Chain el'.next el'.timeEventHead (xs ++ done ++ rest) none ∧
      el'.timeEventNextId = el.timeEventNextId ∧ el'.event te = el.event te ∧
      ∀ x ev', el.event x = some ev' → ∃ next, el'.event x = some { ev' with next := next } := by
  rcases List.eq_nil_or_concat' done with rfl | ⟨done, p, rfl⟩
  · cases hnew rfl
    refine ⟨{ el with timeEventHead := rest.head? }, rfl, ?_, rfl, rfl, fun x ev' h => ⟨ev'.next, h⟩⟩
    obtain ⟨-, n, hn, hrest⟩ := hchain
    rw [hrest.head] at hrest
    exact hrest
  · obtain ⟨pev, hpev⟩ := hevents p (by simp)
    have hpte : te ≠ p := by
      rintro rfl
      simp [List.nodup_append] at hnodup
    refine ⟨el.put p (some { pev with next := rest.head? }), ?_, ?_, rfl, ?_, ?_⟩
    · rw [List.getLast?_concat, unlink, hpev]
      rfl
    · rw [next_put, Option.map_some]
      have hassoc : xs ++ (done ++ [p]) ++ te :: rest = (xs ++ done) ++ p :: te :: rest := by simp
      rw [hassoc] at hchain hnodup
      rw [show xs ++ (done ++ [p]) ++ rest = (xs ++ done) ++ p :: rest by simp]
      exact hchain.remove hnodup
    · rw [event_put, if_neg hpte]
    · intro x ev' hx
      rw [event_put]
      by_cases hxp : x = p
      · subst hxp
        rw [hpev] at hx
        cases hx
        exact ⟨rest.head?, if_pos rfl⟩
      · exact ⟨ev'.next, by rw [if_neg hxp]; exact hx⟩

/-- **Unlinking** a deleted event, when no new ones are lost with it; `tr'` says that its
finalizer is called, if it has one. -/
theorem Holds.unlink {xs done rest : List Nat} (hl : Holds el tr (xs ++ done ++ te :: rest))
    (hev : el.event te = some ev) (hdel : ev.id = AE_DELETED_EVENT_ID)
    (hnew : done = [] → xs = [])
    (htr : tr' = tr ∧ ev.handler.finalizerProc = none ∨
      tr' = .finalized te ev.handler :: tr ∧ ev.handler.finalizerProc ≠ none) :
    ∃ el', unlink el done.getLast? ev.next = some el' ∧ ev.next = rest.head? ∧
      el'.event te = some ev ∧ el'.timeEventNextId = el.timeEventNextId ∧
      Holds el' tr' (xs ++ done ++ rest) := by
  have hmem : te ∈ xs ++ done ++ te :: rest := List.mem_append_right _ List.mem_cons_self
  have hlisted := hl.get hmem hev
  have hend : Ended tr te := by
    rcases hlisted.live with ⟨hlive, -⟩ | ⟨-, hend⟩
    · rw [hdel] at hlive
      unfold AE_DELETED_EVENT_ID at hlive
      omega
    · exact hend
  have hnext : ev.next = rest.head? := by
    have := hl.chain.next_eq
    rw [EventLoop.next, hev, Option.map_some] at this
    exact Option.some.inj this
  have hsub : (xs ++ done ++ rest).Sublist (xs ++ done ++ te :: rest) :=
    (List.sublist_cons_self te rest).append_left _
  have hout : te ∉ xs ++ done ++ rest :=
    (List.nodup_cons.mp (List.perm_middle.nodup_iff.mp hl.nodup)).1
  obtain ⟨el', hunlink, hchain, hid, hevent, hothers⟩ := unlink_chain hl.chain hl.nodup hnew
    (fun x hx => by
      obtain ⟨e, he⟩ := hl.listed x hx
      exact ⟨e, he.event⟩)
  rw [hnext]
  refine ⟨el', hunlink, rfl, by rw [hevent, hev], hid, ?_⟩
  have hended : ∀ i, Ended tr' i ↔ Ended tr i := by
    intro i
    rcases htr with ⟨rfl, -⟩ | ⟨rfl, -⟩
    · exact Iff.rfl
    · unfold Ended
      simp
  have hcreated : ∀ x h, .created x h ∈ tr' ↔ .created x h ∈ tr := by
    intro x h
    rcases htr with ⟨rfl, -⟩ | ⟨rfl, -⟩
    · exact Iff.rfl
    · simp
  have hfinal : ∀ x h, x ≠ te → (.finalized x h ∈ tr' ↔ .finalized x h ∈ tr) := by
    intro x h hx
    rcases htr with ⟨rfl, -⟩ | ⟨rfl, -⟩
    · exact Iff.rfl
    · simp [hx]
  refine ⟨hchain, hl.nodup.sublist hsub, ?_, ?_, ?_, ?_, ?_, ?_⟩
  · intro x hx
    have hne : x ≠ te := fun heq => hout (heq ▸ hx)
    obtain ⟨e, he⟩ := hl.listed x (hsub.subset hx)
    obtain ⟨next, he'⟩ := hothers x e he.event
    refine ⟨{ e with next := next }, he', ?_, ?_, ?_⟩
    · rw [hcreated]
      exact he.created
    · rw [hended]
      exact he.live
    · intro h hf
      exact he.notFinalized h ((hfinal x h hne).mp hf)
  · intro x h hc hn
    rw [hcreated] at hc
    by_cases hx : x = te
    · subst hx
      have hh : h = ev.handler := hl.unique x h ev.handler hc hlisted.created
      refine ⟨(hended x).mpr hend, fun hne => ?_⟩
      rcases htr with ⟨-, hnone⟩ | ⟨rfl, -⟩
      · rw [hh] at hne
        exact absurd hnone hne
      · rw [hh]
        exact List.mem_cons_self
    · have hn' : x ∉ xs ++ done ++ te :: rest := by
        rw [List.perm_middle.mem_iff, List.mem_cons]
        exact not_or.mpr ⟨hx, hn⟩
      obtain ⟨hend', hfin⟩ := hl.gone x h hc hn'
      exact ⟨(hended x).mpr hend', fun hne => (hfinal x h hx).mpr (hfin hne)⟩
  · intro x h hc
    rw [hid]
    exact hl.bound x h ((hcreated x h).mp hc)
  · intro x h h' hc hc'
    exact hl.unique x h h' ((hcreated x h).mp hc) ((hcreated x h').mp hc')
  · intro i hi
    rw [hid]
    exact hl.ends i ((hended i).mp hi)
  · rcases htr with ⟨rfl, -⟩ | ⟨rfl, hne⟩
    · exact hl.history
    · exact ⟨⟨hlisted.created, hend, hne, hlisted.notFinalized⟩, hl.history⟩

/-- Freeing an event that is off the list. -/
theorem Holds.free (hl : Holds el tr l) (hte : te ∉ l) (hev : el.event te = some ev) :
    ∃ el', el.free te = some el' ∧ el'.timeEventNextId = el.timeEventNextId ∧ Holds el' tr l := by
  have hne : ∀ x ∈ l, x ≠ te := fun x hx heq => hte (heq ▸ hx)
  refine ⟨el.put te none, by rw [EventLoop.free, hev]; rfl, rfl, ?_, hl.nodup, ?_, hl.gone,
    hl.bound, hl.unique, hl.ends, hl.history⟩
  · rw [next_put]
    exact hl.chain.congr (fun x hx => Function.update_of_ne (hne x hx) _ _)
  · intro x hx
    obtain ⟨e, he⟩ := hl.listed x hx
    exact ⟨e, by rw [event_put, if_neg (hne x hx)]; exact he.event, he.created, he.live,
      he.notFinalized⟩

/-! ## The walk -/

/-- What the walk has on what was created since it began. -/
structure Recent (el : EventLoop) (tr : List Seen) (maxId : Int) : Prop where
  lt : maxId < el.timeEventNextId
  created : ∀ (te : Nat) h, .created te h ∈ sinceBegan tr → maxId < te

/-- The walk has come to `rest`; `prev` is the last event that it has kept. -/
def Walked (l : List Nat) (prev : Option Nat) (rest : List Nat) (maxId : Int) : Prop :=
  ∃ new done, l = new ++ done ++ rest ∧ prev = done.getLast? ∧ ∀ x ∈ rest, (x : Int) ≤ maxId

/-- Where the walk is. -/
def At (el : EventLoop) (tr : List Seen) (l : List Nat) : Pc → Prop
  | .outside => True
  | .loop prev te maxId _ =>
      Recent el tr maxId ∧ ∃ rest, Walked l prev rest maxId ∧ te = rest.head?
  | .timeProc te id maxId _ =>
      Recent el tr maxId ∧ id = te ∧ ∃ prev rest, Walked l prev (te :: rest) maxId
  | .finalizerProc prev next te maxId _ =>
      Recent el tr maxId ∧ te ∉ l ∧ te < el.timeEventNextId ∧ (∃ ev, el.event te = some ev) ∧
        ∃ rest, Walked l prev rest maxId ∧ next = rest.head?

/-- **The invariant.** -/
def Inv (s : State) : Prop := ∃ l, Holds s.el s.trace l ∧ At s.el s.trace l s.pc

/-- An event that is going to be unlinked while nothing was kept is the head of the list. -/
def State.prompt (s : State) : Bool :=
  match s.pc with
  | .loop none (some te) _ _ =>
      (s.el.event te).map TimeEvent.id != some AE_DELETED_EVENT_ID ||
        s.el.timeEventHead == some te
  | _ => true

theorem Recent.note {maxId : Int} {e : Seen} (hr : Recent el tr maxId)
    (hc : ∀ te h, e ≠ .created te h) : Recent el (e :: tr) maxId := by
  refine ⟨hr.lt, fun te h hmem => ?_⟩
  unfold sinceBegan at hmem
  rw [List.takeWhile_cons] at hmem
  split at hmem
  · rcases List.mem_cons.mp hmem with rfl | hmem
    · exact absurd rfl (hc te h)
    · exact hr.created te h hmem
  · exact absurd hmem List.not_mem_nil

theorem Recent.of_nextId {maxId : Int} (hr : Recent el tr maxId)
    (heq : el'.timeEventNextId = el.timeEventNextId) : Recent el' tr maxId :=
  ⟨by rw [heq]; exact hr.lt, hr.created⟩

theorem Walked.new {prev : Option Nat} {rest : List Nat} {maxId : Int}
    (hw : Walked l prev rest maxId) (x : Nat) : Walked (x :: l) prev rest maxId := by
  obtain ⟨new, done, rfl, hprev, hle⟩ := hw
  exact ⟨x :: new, done, rfl, hprev, hle⟩

/-- Going on, with the event kept. -/
theorem Walked.keep {prev : Option Nat} {rest : List Nat} {maxId : Int}
    (hw : Walked l prev (te :: rest) maxId) : Walked l (some te) rest maxId := by
  obtain ⟨new, done, rfl, -, hle⟩ := hw
  exact ⟨new, done ++ [te], by simp, by simp, fun x hx => hle x (List.mem_cons_of_mem te hx)⟩

/-! ## The steps -/

variable {s : State}

theorem Inv.create (hi : Inv s) (hpc : s.pc.atCaller = true) (now : Int × Int) (ms : Int)
    (h : Handler) : ∃ s', step s (.create now ms h) = some s' ∧ Inv s' := by
  obtain ⟨l, hl, hat⟩ := hi
  have hcreate := hl.create now ms h
  obtain ⟨new, hnew⟩ : ∃ new, new = s.el.timeEventNextId := ⟨_, rfl⟩
  have hnext : (aeCreateTimeEvent s.el now ms h).1.timeEventNextId = new + 1 := by
    rw [hnew]
    rfl
  have hrecent : ∀ maxId, Recent s.el s.trace maxId →
      Recent (aeCreateTimeEvent s.el now ms h).1 (.created new h :: s.trace) maxId := by
    intro maxId hr
    have hlt := hr.lt
    refine ⟨by rw [hnext]; omega, fun x h' hmem => ?_⟩
    unfold sinceBegan at hmem
    rw [List.takeWhile_cons_of_pos (by simp)] at hmem
    rcases List.mem_cons.mp hmem with heq | hmem
    · cases heq
      omega
    · exact hr.created x h' hmem
  refine ⟨_, if_pos hpc, new :: l, ?_, ?_⟩
  · rw [hnew]
    exact hcreate
  · show At _ (.created s.el.timeEventNextId h :: s.trace) (new :: l) s.pc
    rw [← hnew]
    cases hcase : s.pc with
    | outside => trivial
    | loop prev te maxId processed => rw [hcase] at hpc; exact absurd hpc Bool.false_ne_true
    | timeProc te id maxId processed =>
        rw [hcase] at hat
        obtain ⟨hr, hid, prev, rest, hw⟩ := hat
        exact ⟨hrecent maxId hr, hid, prev, rest, hw.new new⟩
    | finalizerProc prev next te maxId processed =>
        rw [hcase] at hat
        obtain ⟨hr, hte, hlt, ⟨ev, hev⟩, rest, hw, hhead⟩ := hat
        have hne : te ≠ s.el.timeEventNextId := Nat.ne_of_lt hlt
        refine ⟨hrecent maxId hr, ?_, by rw [hnext]; omega, ⟨ev, ?_⟩, rest, hw.new new, hhead⟩
        · rw [List.mem_cons, not_or, hnew]
          exact ⟨hne, hte⟩
        · show (s.el.put s.el.timeEventNextId _).event te = some ev
          rw [event_put, if_neg hne, hev]

theorem Inv.delete (hi : Inv s) (hpc : s.pc.atCaller = true) (id : Int) :
    ∃ s', step s (.delete id) = some s' ∧ Inv s' := by
  obtain ⟨l, hl, hat⟩ := hi
  obtain ⟨r, hr, hnext, hevent, hl'⟩ := hl.delete id
  refine ⟨_, by rw [step, if_pos hpc, hr, Option.map_some], l, hl', ?_⟩
  have hrecent : ∀ maxId, Recent s.el s.trace maxId →
      Recent r.1 (if r.2 then .deleted id :: s.trace else s.trace) maxId := by
    intro maxId hrec
    split
    · exact (hrec.note (by simp)).of_nextId hnext
    · exact hrec.of_nextId hnext
  show At r.1 _ l s.pc
  cases hcase : s.pc with
  | outside => trivial
  | loop prev te maxId processed => rw [hcase] at hpc; exact absurd hpc Bool.false_ne_true
  | timeProc te id maxId processed =>
      rw [hcase] at hat
      exact ⟨hrecent maxId hat.1, hat.2⟩
  | finalizerProc prev next te maxId processed =>
      rw [hcase] at hat
      obtain ⟨hrec, hte, hlt, ⟨ev, hev⟩, hrest⟩ := hat
      exact ⟨hrecent maxId hrec, hte, by rw [hnext]; exact hlt, ⟨ev, by rw [hevent te hte, hev]⟩,
        hrest⟩

theorem Inv.begin (hi : Inv s) (hpc : s.pc = .outside) (now : Int) :
    ∃ s', step s (.begin now) = some s' ∧ Inv s' := by
  obtain ⟨l, hl, -⟩ := hi
  obtain ⟨el, hel, hl', hnext⟩ := hl.detectSkew now
  refine ⟨⟨el, .loop none el.timeEventHead (el.timeEventNextId - 1) 0, .began :: s.trace⟩, ?_, l,
    hl'.note (by simp) (by simp) (by simp) hl'.history, ⟨Int.sub_one_lt_of_le (Int.le_refl _), ?_⟩, l,
    ⟨[], [], rfl, rfl, ?_⟩, hl'.chain.head⟩
  · rw [step, hpc]
    simp only
    rw [hel, Option.map_some]
  · intro te h hmem
    exact absurd hmem List.not_mem_nil
  · intro x hx
    have := hl'.lt hx
    omega

theorem Inv.pass (hi : Inv s) (hp : s.prompt = true) {prev te : Option Nat} {maxId : Int}
    {processed : Nat} (hpc : s.pc = .loop prev te maxId processed) (now : Int × Int) :
    ∃ s', step s (.pass now) = some s' ∧ Inv s' := by
  obtain ⟨l, hl, hat⟩ := hi
  rw [hpc] at hat
  obtain ⟨hr, rest, hw, hte⟩ := hat
  have hstep : step s (.pass now) = loopPass s prev te maxId processed now := by
    rw [step, hpc]
  rw [hstep]
  cases rest with
  | nil =>
      subst hte
      exact ⟨{ s with pc := .outside }, rfl, l, hl, trivial⟩
  | cons x rest =>
      subst hte
      have hx : x ∈ l := by
        obtain ⟨new, done, rfl, -⟩ := hw
        exact List.mem_append_right _ List.mem_cons_self
      have hle : (x : Int) ≤ maxId := by
        obtain ⟨new, done, -, -, hle⟩ := hw
        exact hle x List.mem_cons_self
      obtain ⟨ev, hev⟩ := hl.listed x hx
      have hnext : ev.next = rest.head? := by
        obtain ⟨new, done, rfl, -⟩ := hw
        have := hl.chain.next_eq
        rw [EventLoop.next, hev.event, Option.map_some] at this
        exact Option.some.inj this
      rw [List.head?_cons, loopPass]
      simp only [hev.event]
      by_cases hdel : ev.id = AE_DELETED_EVENT_ID
      · -- the event is taken off the list
        rw [if_pos hdel]
        obtain ⟨new, done, rfl, rfl, hrest⟩ := hw
        have hnew : done = [] → new = [] := by
          rintro rfl
          have hhead := hp
          unfold State.prompt at hhead
          rw [hpc] at hhead
          simp only [List.getLast?_nil, List.head?_cons, hev.event, Option.map_some, hdel,
            bne_self_eq_false, Bool.false_or, beq_iff_eq] at hhead
          rw [hl.chain.head] at hhead
          rcases new with _ | ⟨y, new⟩
          · rfl
          · have hyx : y = x := Option.some.inj hhead
            have hnodup := hl.nodup
            rw [hyx] at hnodup
            exact absurd (List.mem_append_right _ List.mem_cons_self)
              (List.nodup_cons.mp hnodup).1
        have hrest' : ∀ y ∈ rest, (y : Int) ≤ maxId :=
          fun y hy => hrest y (List.mem_cons_of_mem x hy)
        have hout : x ∉ new ++ done ++ rest :=
          (List.nodup_cons.mp (List.perm_middle.nodup_iff.mp hl.nodup)).1
        by_cases hfin : ev.handler.finalizerProc = none
        · obtain ⟨el', hunlink, -, hevent, hid, hl'⟩ :=
            hl.unlink hev.event hdel hnew (Or.inl ⟨rfl, hfin⟩)
          obtain ⟨el'', hfree, hid', hl''⟩ := hl'.free hout hevent
          refine ⟨⟨el'', .loop done.getLast? ev.next maxId processed, s.trace⟩, ?_, _, hl'',
            (hr.of_nextId hid).of_nextId hid', rest, ⟨new, done, rfl, rfl, hrest'⟩, hnext⟩
          rw [hunlink, Option.bind_some, hfin, hfree]
          rfl
        · obtain ⟨el', hunlink, -, hevent, hid, hl'⟩ :=
            hl.unlink hev.event hdel hnew (Or.inr ⟨rfl, hfin⟩)
          refine ⟨⟨el', .finalizerProc done.getLast? ev.next x maxId processed, _⟩, ?_, _, hl',
            (hr.note (by simp)).of_nextId hid, hout, ?_, ⟨ev, hevent⟩, rest,
            ⟨new, done, rfl, rfl, hrest'⟩, hnext⟩
          · rw [hunlink, Option.bind_some, if_pos (Option.isSome_iff_ne_none.mpr hfin)]
          · show x < el'.timeEventNextId
            rw [hid]
            exact hl.lt hx
      · rw [if_neg hdel]
        obtain ⟨hid, hend⟩ : ev.id = x ∧ ¬ Ended s.trace x := by
          rcases hev.live with hlive | ⟨hid, -⟩
          · exact hlive
          · exact absurd hid hdel
        rw [if_neg (by rw [hid]; exact Int.not_lt.mpr hle)]
        split
        · refine ⟨_, rfl, l, ?_, hr.note (by simp), hid, prev, rest, hw⟩
          refine hl.note (by simp) (by simp) (by simp) ⟨⟨?_, ?_⟩, hl.history⟩
          · rw [hid]
            exact hend
          · intro y h hy hmem
            have := hr.created y h hmem
            omega
        · exact ⟨_, rfl, l, hl, hr, rest, hw.keep, hnext⟩

theorem Inv.backTimeProc (hi : Inv s) {te : Nat} {id maxId : Int} {processed : Nat}
    (hpc : s.pc = .timeProc te id maxId processed) (retval : Int) (now : Int × Int) :
    ∃ s', step s (.back retval now) = some s' ∧ Inv s' := by
  obtain ⟨l, hl, hat⟩ := hi
  rw [hpc] at hat
  obtain ⟨hr, rfl, prev, rest, hw⟩ := hat
  have hstep : step s (.back retval now) = timeProcBack s te te maxId processed retval now := by
    rw [step, hpc]
  have hte : te ∈ l := by
    obtain ⟨new, done, rfl, -⟩ := hw
    exact List.mem_append_right _ List.mem_cons_self
  obtain ⟨ev, hev⟩ := hl.listed te hte
  have hnext : ev.next = rest.head? := by
    obtain ⟨new, done, rfl, -⟩ := hw
    have := hl.chain.next_eq
    rw [EventLoop.next, hev.event, Option.map_some] at this
    exact Option.some.inj this
  rw [hstep, timeProcBack]
  simp only [hev.event]
  split
  · exact ⟨_, rfl, l, hl.touch hte hev.event rfl rfl rfl, hr.of_nextId rfl, rest, hw.keep, hnext⟩
  · exact ⟨_, rfl, l, hl.mark hte hev.event (Or.inr rfl) (Or.inl rfl),
      (hr.note (by simp)).of_nextId rfl, rest, hw.keep, hnext⟩

theorem Inv.backFinalizerProc (hi : Inv s) {prev next : Option Nat} {te : Nat} {maxId : Int}
    {processed : Nat} (hpc : s.pc = .finalizerProc prev next te maxId processed) (retval : Int)
    (now : Int × Int) : ∃ s', step s (.back retval now) = some s' ∧ Inv s' := by
  obtain ⟨l, hl, hat⟩ := hi
  rw [hpc] at hat
  obtain ⟨hr, hte, -, ⟨ev, hev⟩, hrest⟩ := hat
  obtain ⟨el', hfree, hid, hl'⟩ := hl.free hte hev
  refine ⟨⟨el', .loop prev next maxId processed, s.trace⟩, ?_, l, hl', hr.of_nextId hid, hrest⟩
  rw [step, hpc]
  simp only
  rw [hfree, Option.map_some]

/-- **One step** keeps the invariant, and can be made. -/
theorem Inv.step (hi : Inv s) (hp : s.prompt = true) {st : Step} (hfits : st.fits s.pc = true) :
    ∃ s', step s st = some s' ∧ Inv s' := by
  cases st with
  | create now ms h => exact hi.create hfits now ms h
  | delete id => exact hi.delete hfits id
  | begin now =>
      cases hpc : s.pc with
      | outside => exact hi.begin hpc now
      | _ => rw [hpc] at hfits; exact absurd hfits (by simp [Step.fits])
  | pass now =>
      cases hpc : s.pc with
      | loop prev te maxId processed => exact hi.pass hp hpc now
      | _ => rw [hpc] at hfits; exact absurd hfits (by simp [Step.fits])
  | back retval now =>
      cases hpc : s.pc with
      | timeProc te id maxId processed => exact hi.backTimeProc hpc retval now
      | finalizerProc prev next te maxId processed => exact hi.backFinalizerProc hpc retval now
      | _ => rw [hpc] at hfits; exact absurd hfits (by simp [Step.fits])

/-- A step that is made is one that there is. -/
theorem fits_of_step {s' : State} {st : Step} (h : Ae.step s st = some s') :
    st.fits s.pc = true := by
  cases st with
  | create now ms h' =>
      by_contra hn
      unfold Step.fits at hn
      rw [Ae.step, if_neg hn] at h
      exact absurd h (by simp)
  | delete id =>
      by_contra hn
      unfold Step.fits at hn
      rw [Ae.step, if_neg hn] at h
      exact absurd h (by simp)
  | begin now => cases hpc : s.pc <;> simp_all [Ae.step, Step.fits]
  | pass now => cases hpc : s.pc <;> simp_all [Ae.step, Step.fits]
  | back retval now => cases hpc : s.pc <;> simp_all [Ae.step, Step.fits]

/-! ## Runs -/

theorem inv_initial (now : Int) : Inv (initial now) := by
  refine ⟨[], ⟨rfl, List.nodup_nil, ?_, ?_, ?_, ?_, ?_, trivial⟩, trivial⟩
  · intro te hte
    exact absurd hte List.not_mem_nil
  · intro te h hc
    exact absurd hc List.not_mem_nil
  · intro te h hc
    exact absurd hc List.not_mem_nil
  · intro te h h' hc
    exact absurd hc List.not_mem_nil
  · rintro id (hd | hf)
    · exact absurd hd List.not_mem_nil
    · exact absurd hf List.not_mem_nil

theorem run_append (s : State) (sts : List Step) (st : Step) :
    run s (sts ++ [st]) = (run s sts).bind (Ae.step · st) := by
  induction sts generalizing s with
  | nil => simp [run]
  | cons st' sts ih =>
      rw [List.cons_append, run, run, Option.bind_assoc]
      congr 1
      funext s'
      exact ih s'

/-- **A run** in which no new event is unlinked with an old one keeps the invariant. -/
theorem run_inv (now : Int) (sts : List Step) :
    ∀ s, run (initial now) sts = some s →
      (∀ pre s', pre <+: sts → run (initial now) pre = some s' → s'.prompt = true) → Inv s := by
  induction sts using List.reverseRecOn with
  | nil =>
      intro s hs _
      cases hs
      exact inv_initial now
  | append_singleton sts st ih =>
      intro s hs hp
      rw [run_append] at hs
      obtain ⟨s', hs', hst⟩ := Option.bind_eq_some_iff.mp hs
      have hinv := ih s' hs' (fun pre s'' hpre => hp pre s'' (hpre.trans (List.prefix_append _ _)))
      obtain ⟨s'', hs'', hinv'⟩ := hinv.step (hp sts s' (List.prefix_append _ _) hs')
        (fits_of_step hst)
      rw [hst] at hs''
      cases hs''
      exact hinv'

/-- **Time events.**  In every run, with callbacks that do anything, in which no event is
unlinked while nothing was kept unless it is the head of the list: no live event is lost, no
event fires that has ended or in the call that created it, each finalizer is called once, and
no step goes wrong. -/
theorem timeEvents_kept (now : Int) (sts : List Step) {s : State}
    (hs : run (initial now) sts = some s)
    (hp : ∀ pre s', pre <+: sts → run (initial now) pre = some s' → s'.prompt = true) :
    Kept s ∧ ∀ st : Step, st.fits s.pc = true → ∃ s', Ae.step s st = some s' := by
  have hinv := run_inv now sts s hs hp
  constructor
  · obtain ⟨l, hl, -⟩ := hinv
    exact hl.kept
  · intro st hfits
    obtain ⟨s', hs', -⟩ := hinv.step (hp sts s (List.prefix_refl _) hs) hfits
    exact ⟨s', hs'⟩

/-- The condition of a run, to be evaluated. -/
theorem prompt_of_inits {now : Int} {sts : List Step}
    (h : sts.inits.all (fun pre => (run (initial now) pre).all State.prompt) = true) :
    ∀ pre s', pre <+: sts → run (initial now) pre = some s' → s'.prompt = true := by
  intro pre s' hpre hs'
  have := List.all_eq_true.mp h pre ((List.mem_inits pre sts).mpr hpre)
  rw [hs'] at this
  exact this

/-- An event with a finalizer that deletes itself, and creates another one. -/
theorem timeEvents_kept_self :
    ∃ s, run (initial 0) [.create (0, 0) 5 ⟨1, some 2, 0⟩, .begin 1, .pass (1, 0), .delete 0,
        .create (1, 0) 5 ⟨1, none, 0⟩, .back 7 (1, 0), .pass (1, 0), .begin 1, .pass (1, 0),
        .pass (1, 0), .back 0 (1, 0), .pass (1, 0)] = some s ∧ Kept s :=
  ⟨_, rfl, (timeEvents_kept 0 [.create (0, 0) 5 ⟨1, some 2, 0⟩, .begin 1, .pass (1, 0), .delete 0,
    .create (1, 0) 5 ⟨1, none, 0⟩, .back 7 (1, 0), .pass (1, 0), .begin 1, .pass (1, 0),
    .pass (1, 0), .back 0 (1, 0), .pass (1, 0)] rfl (prompt_of_inits (by decide))).1⟩

/-- Two events are deleted, and the finalizer of the first one creates an event: it is lost
when the second one is unlinked. -/
theorem timeEvent_lost :
    ∃ s, run (initial 0) [.create (0, 0) 5 ⟨1, none, 0⟩, .create (0, 0) 5 ⟨1, some 2, 0⟩,
        .delete 0, .delete 1, .begin 1, .pass (1, 0), .create (1, 0) 5 ⟨3, none, 0⟩,
        .back 0 (0, 0), .pass (1, 0), .pass (1, 0)] = some s ∧ ¬ Kept s := by
  refine ⟨_, rfl, fun hkept => ?_⟩
  have hmem := hkept.reachable 2 ⟨3, none, 0⟩ (by decide) (by unfold Ended; decide)
  exact absurd hmem (by decide)

end Ae

end RedisCore
