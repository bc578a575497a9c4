/-
# `RedisCore.Networking.Unblocked` — the queue of unblocked clients (networking.c)

A client whose input is to be processed again is put on `server.unblocked_clients`, and
`CLIENT_UNBLOCKED` says that it is there.  `unlinkClient` takes one node of the client off the
queue, which is enough as long as there is only one.

At the end of a pause `clientsArePaused` puts every client on the queue that is neither a slave
nor blocked, without a look at the flag.  `Queued` is what should hold of the queue, and
`queued_iff` says in which runs it does.

The clients and their lists are those of `Networking.Clients`, and so is everything else that
can happen to them in a run.
-/
import RedisCore.Networking.PendingWrites

namespace RedisCore

namespace Unblocked

open Clients Tracked

/-! ## Pauses -/

/-- The clients, and the end of the pause. -/
structure State where
  srv : Clients.Server
  clientsPauseEndTime : Int

/-- `pauseClients`. -/
def pauseClients (s : State) (stop : Int) : State where
  srv := { s.srv with clientsPaused := true }
  clientsPauseEndTime :=
    if !s.srv.clientsPaused || stop > s.clientsPauseEndTime then stop else s.clientsPauseEndTime

/-- `clientsArePaused`, at the time `server.mstime`, and its answer. -/
def clientsArePaused (s : State) (mstime : Int) : Option (State × Bool) :=
  (Clients.clientsArePaused s.srv (decide (s.clientsPauseEndTime < mstime))).map
    (fun srv => ({ s with srv := srv }, srv.clientsPaused))

/-- `unlinkClient`. -/
def unlinkClient (s : State) (c : ClientId) : Option State :=
  match s.srv.conn c with
  | none => none
  | some k => (Clients.unlinkClient s.srv c k).map (fun p => { s with srv := p.1.setConn c p.2 })

/-- `freeClient`. -/
def freeClient (s : State) (c : ClientId) : Option State :=
  (Clients.freeClient s.srv c).map (fun srv => { s with srv := srv })

/-- What has to do with pauses, and so with the time. -/
def isPause : Action → Bool
  | .pauseClients => true
  | .clientsArePaused _ => true
  | _ => false

/-- A call; `other` is for what else can happen to clients. -/
inductive Call where
  | pauseClients (stop : Int)
  | clientsArePaused (mstime : Int)
  | unlinkClient (c : ClientId)
  | freeClient (c : ClientId)
  | other (a : Action) (h : isPause a = false)

/-- One call; `none` for a failed assertion, or an access to a client that is not there. -/
def step (s : State) : Call → Option State
  | .pauseClients stop => some (pauseClients s stop)
  | .clientsArePaused mstime => (clientsArePaused s mstime).map Prod.fst
  | .unlinkClient c => unlinkClient s c
  | .freeClient c => freeClient s c
  | .other a _ => (act s.srv a).map (fun srv => { s with srv := srv })

/-- The server after `initServer`. -/
def start (dbnum : Nat) : State := ⟨init dbnum, 0⟩

/-! ## What should hold -/

/-- Every client is on the queue at most once, and exactly when it has the flag. -/
def Queued (srv : Clients.Server) : Prop :=
  Tracks srv.conn (fun k => k.flags.unblocked) srv.unblockedClients

/-- The call goes through for a client that is there, and leaves no reference on the queue. -/
def Removes (s : State) (call : Call) (c : ClientId) : Prop :=
  (s.srv.conn c).isSome → ∃ s', step s call = some s' ∧ c ∉ s'.srv.unblockedClients

/-- `Removes`, for the calls that take clients off the queue. -/
def Unlinks (s : State) : Call → Prop
  | .unlinkClient c => Removes s (.unlinkClient c) c
  | .freeClient c => Removes s (.freeClient c) c
  | _ => True

/-- The queue is right in every state of a run. -/
def Always : State → List Call → Prop
  | s, [] => Queued s.srv
  | s, call :: calls => Queued s.srv ∧ Unlinks s call ∧ ∀ s', step s call = some s' → Always s' calls

/-- A client that the end of a pause puts on the queue. -/
def idle (k : Conn) : Bool := !(k.flags.slave || k.flags.blocked)

/-- If the call ends a pause, no client that it puts on the queue has the flag. -/
def Sane (s : State) : Call → Prop
  | .clientsArePaused mstime =>
      s.srv.clientsPaused = true → s.clientsPauseEndTime < mstime →
        ∀ c k, c ∈ s.srv.clients → s.srv.conn c = some k → idle k = true → k.flags.unblocked = false
  | _ => True

/-- All calls of a run are sane. -/
def AllSane : State → List Call → Prop
  | _, [] => True
  | s, call :: calls => Sane s call ∧ ∀ s', step s call = some s' → AllSane s' calls

variable {s s' : Clients.Server} {c : ClientId} {cs : List ClientId} {k k' : Conn}

/-! ## The end of a pause -/

/-- A client that has the flag. -/
def woken (k : Conn) : Conn := { k with flags := { k.flags with unblocked := true } }

/-- What the loop makes of a client, given the clients that it goes through. -/
def unpaused (cs : List ClientId) (c : ClientId) (k : Conn) : Conn :=
  if c ∈ cs ∧ idle k = true then woken k else k

@[simp] theorem idle_woken (k : Conn) : idle (woken k) = idle k := rfl

@[simp] theorem woken_woken (k : Conn) : woken (woken k) = woken k := rfl

@[simp] theorem idle_unpaused (cs : List ClientId) (c : ClientId) (k : Conn) :
    idle (unpaused cs c k) = idle k := by
  unfold unpaused
  split
  · rfl
  · rfl

theorem unpaused_of_not_mem (h : c ∉ cs) : unpaused cs c k = k := if_neg (fun hand => h hand.1)

theorem unpaused_of_not_idle (h : idle k = false) : unpaused cs c k = k :=
  if_neg (fun hand => Bool.false_ne_true (h.symm.trans hand.2))

theorem unpaused_of_idle (hmem : c ∈ cs) (h : idle k = true) : unpaused cs c k = woken k :=
  if_pos ⟨hmem, h⟩

theorem unblocked_unpaused : (unpaused cs c k).flags.unblocked = true ↔
    k.flags.unblocked = true ∨ c ∈ cs ∧ idle k = true := by
  unfold unpaused
  split
  · next h => exact ⟨fun _ => .inr h, fun _ => rfl⟩
  · next h => exact ⟨.inl, fun hor => hor.resolve_right h⟩

/-- First one client, then the others. -/
theorem unpaused_cons (c x : ClientId) (cs : List ClientId) (k : Conn) :
    unpaused cs x (unpaused [c] x k) = unpaused (c :: cs) x k := by
  cases hidle : idle k with
  | false =>
      rw [unpaused_of_not_idle hidle, unpaused_of_not_idle hidle, unpaused_of_not_idle hidle]
  | true =>
      by_cases hx : x = c
      · rw [hx, unpaused_of_idle List.mem_cons_self hidle, unpaused_of_idle List.mem_cons_self hidle]
        unfold unpaused
        split
        · rfl
        · rfl
      · rw [unpaused_of_not_mem (fun h => hx (List.mem_singleton.mp h))]
        by_cases hmem : x ∈ cs
        · rw [unpaused_of_idle hmem hidle, unpaused_of_idle (List.mem_cons_of_mem c hmem) hidle]
        · rw [unpaused_of_not_mem hmem,
            unpaused_of_not_mem (fun h => (List.mem_cons.mp h).elim hx hmem)]

/-- The clients that the loop puts on the queue. -/
def woke (s : Clients.Server) (cs : List ClientId) : List ClientId :=
  cs.filter (fun c => (s.conn c).any idle)

/-- One turn of the loop. -/
theorem unpauseClient_spec (hk : s.conn c = some k) :
    ∃ s', Clients.unpauseClient s c = some s' ∧
      s'.unblockedClients = s.unblockedClients ++ woke s [c] ∧
      ∀ x, s'.conn x = (s.conn x).map (unpaused [c] x) := by
  have hwoke : woke s [c] = if idle k then [c] else [] := by
    rw [woke, List.filter_cons, hk]
    rfl
  -- the other clients are as they were
  have hother : ∀ x, x ≠ c → s.conn x = (s.conn x).map (unpaused [c] x) := by
    intro x hx
    have hid : unpaused [c] x = id := funext fun k =>
      unpaused_of_not_mem fun h => hx (List.mem_singleton.mp h)
    rw [hid, Option.map_id]
    rfl
  unfold Clients.unpauseClient
  rw [hk]
  dsimp only
  cases hgoes : idle k with
  | false =>
      have hstays : (k.flags.slave || k.flags.blocked) = true := Bool.not_eq_false' .. |>.mp hgoes
      rw [if_pos hstays]
      refine ⟨s, rfl, ?_, fun x => ?_⟩
      · rw [hwoke, hgoes, if_neg Bool.false_ne_true, List.append_nil]
      · by_cases hx : x = c
        · rw [hx, hk, Option.map_some, unpaused_of_not_idle hgoes]
        · exact hother x hx
  | true =>
      have hstays : ¬ (k.flags.slave || k.flags.blocked) = true :=
        Bool.eq_false_iff.mp (Bool.not_eq_true' .. |>.mp hgoes)
      rw [if_neg hstays]
      refine ⟨_, rfl, ?_, fun x => ?_⟩
      · rw [hwoke, hgoes, if_pos rfl]
        rfl
      · show (s.setConn c (woken k)).conn x = _
        rw [setConn_eq]
        by_cases hx : x = c
        · rw [if_pos hx, hx, hk, Option.map_some, unpaused_of_idle List.mem_cons_self hgoes]
        · rw [if_neg hx]
          exact hother x hx

/-- **The loop of `clientsArePaused`**: the clients that are idle go to the end of the queue, and
have the flag. -/
theorem unpauseAll_spec (cs : List ClientId) : ∀ {s : Clients.Server},
    (∀ c ∈ cs, (s.conn c).isSome) → ∃ s', cs.foldlM Clients.unpauseClient s = some s' ∧
      s'.unblockedClients = s.unblockedClients ++ woke s cs ∧
      ∀ x, s'.conn x = (s.conn x).map (unpaused cs x) := by
  induction cs with
  | nil =>
      intro s _
      refine ⟨s, rfl, (List.append_nil _).symm, fun x => ?_⟩
      have hid : unpaused [] x = id := funext fun k => unpaused_of_not_mem List.not_mem_nil
      rw [hid, Option.map_id]
      rfl
  | cons c cs ih =>
      intro s hlive
      obtain ⟨k, hk⟩ := Option.isSome_iff_exists.mp (hlive c List.mem_cons_self)
      obtain ⟨s₁, hs₁, hqueue, hconn⟩ := unpauseClient_spec hk
      -- who is idle does not change
      have hwoke : woke s₁ cs = woke s cs := by
        refine List.filter_congr fun x _ => ?_
        rw [hconn]
        cases s.conn x with
        | none => rfl
        | some k => exact idle_unpaused [c] x k
      obtain ⟨s', hrun, hlist, hflags⟩ := @ih s₁ fun x hx => by
        rw [hconn, Option.isSome_map]
        exact hlive x (List.mem_cons_of_mem c hx)
      refine ⟨s', ?_, ?_, fun x => ?_⟩
      · rw [List.foldlM_cons, hs₁]
        exact hrun
      · rw [hlist, hqueue, hwoke, List.append_assoc, woke, woke, ← List.filter_append]
        rfl
      · rw [hflags, hconn, Option.map_map]
        exact congrArg (fun f => (s.conn x).map f) (funext fun k => unpaused_cons c x cs k)

theorem mem_woke : c ∈ woke s cs ↔ c ∈ cs ∧ ∃ k, s.conn c = some k ∧ idle k = true := by
  unfold woke
  rw [List.mem_filter]
  cases s.conn c with
  | none => simp
  | some k => simp

/-- The end of a pause leaves the queue right exactly if none of the clients that it puts there
is there already. -/
theorem endPause_queued_iff (h : Clients.Inv s) (hq : Queued s) (hpaused : s.clientsPaused = true) :
    ∃ s', Clients.clientsArePaused s true = some s' ∧ (Queued s' ↔ ∀ c k, c ∈ s.clients →
      s.conn c = some k → idle k = true → k.flags.unblocked = false) := by
  have hlive : ∀ c ∈ s.clients, (s.conn c).isSome := by
    intro c hc
    obtain ⟨k, hk, -⟩ := (h.clients.2 c).mp hc
    exact Option.isSome_iff_exists.mpr ⟨k, hk⟩
  obtain ⟨s', hrun, hlist, hconn⟩ :=
    @unpauseAll_spec s.clients { s with clientsPaused := false } hlive
  refine ⟨s', ?_, ?_⟩
  · unfold Clients.clientsArePaused
    rw [hpaused]
    exact hrun
  constructor
  · intro hq' c k hc hk hidle
    have hnd := hq'.1
    rw [hlist] at hnd
    have hmem : c ∈ woke s s.clients := mem_woke.mpr ⟨hc, k, hk, hidle⟩
    have hout : c ∉ s.unblockedClients := fun hin => (List.nodup_append.mp hnd).2.2 c hin c hmem rfl
    exact Bool.eq_false_iff.mpr fun hflag => hout ((hq.mem hk).mpr hflag)
  · intro hsane
    have hdisjoint : ∀ c ∈ s.unblockedClients, ∀ x ∈ woke s s.clients, c ≠ x := by
      rintro c hin x hx rfl
      obtain ⟨hc, k, hk, hidle⟩ := mem_woke.mp hx
      have hflag := (hq.mem hk).mp hin
      rw [hsane c k hc hk hidle] at hflag
      exact Bool.false_ne_true hflag
    refine ⟨?_, fun x => ?_⟩
    · rw [hlist]
      exact List.nodup_append.mpr ⟨hq.1, h.clients.1.filter _, hdisjoint⟩
    · rw [hlist, hconn, List.mem_append]
      show x ∈ s.unblockedClients ∨ x ∈ woke s s.clients ↔ _
      rw [mem_woke]
      cases hk : s.conn x with
      | none =>
          have hout := hq.not_mem hk
          simp [hout]
      | some k =>
          rw [hq.mem hk]
          simp [unblocked_unpaused]

/-! ## Taking a client off -/

/-- The invariant of the lists, and the queue. -/
structure Kept (s : Clients.Server) : Prop where
  inv : Clients.Inv s
  queued : Queued s

/-- Where the flag is right, the queue loses the client in any case. -/
theorem Queued.erase_eq (hq : Queued s) (hk : s.conn c = some k) :
    (if k.flags.unblocked then s.unblockedClients.erase c else s.unblockedClients) =
      s.unblockedClients.erase c := by
  cases hflag : k.flags.unblocked with
  | true => rfl
  | false =>
      have hout : c ∉ s.unblockedClients := fun hin =>
        Bool.false_ne_true (hflag.symm.trans ((hq.mem hk).mp hin))
      rw [List.erase_of_not_mem hout]
      rfl

/-- A client without the flag, or none at all, is not on the queue. -/
theorem Queued.not_mem_of (hq : Queued s)
    (h : ∀ k, s.conn c = some k → k.flags.unblocked = false) : c ∉ s.unblockedClients := by
  intro hin
  obtain ⟨k, hk, hflag⟩ := (hq.2 c).mp hin
  exact Bool.false_ne_true ((h k hk).symm.trans hflag)

theorem Queued.afterFree (hq : Queued s) (hk : s.conn c = some k) (tx : Multi.Server) :
    Queued (afterFree s tx c k) := by
  show Tracks (Function.update s.conn c none) _
    (if k.flags.unblocked then s.unblockedClients.erase c else s.unblockedClients)
  rw [hq.erase_eq hk]
  exact hq.free

theorem Kept.freeClient (h : Kept s) (heq : Clients.freeClient s c = some s') : Kept s' := by
  refine ⟨h.inv.freeClient heq, ?_⟩
  cases hk : s.conn c with
  | none =>
      rw [Clients.freeClient, hk] at heq
      cases heq
  | some k =>
      obtain ⟨tx, -, hfree, -⟩ := freeClient_spec h.inv hk
      rw [hfree] at heq
      cases heq
      exact h.queued.afterFree hk tx

/-- The parts of `unlinkClient` before the last one have nothing to do with the queue. -/
theorem unlinkSocket_unblocked {p : Clients.Server × Conn} (heq : unlinkSocket s c k = some p) :
    p.1.unblockedClients = s.unblockedClients ∧ p.2.flags.unblocked = k.flags.unblocked := by
  unfold unlinkSocket at heq
  split at heq
  · cases heq
    exact ⟨rfl, rfl⟩
  · obtain ⟨l, -, rfl⟩ := Option.map_eq_some_iff.mp heq
    exact ⟨rfl, rfl⟩

theorem unlinkPendingWrite_unblocked {p : Clients.Server × Conn}
    (heq : unlinkPendingWrite s c k = some p) :
    p.1.unblockedClients = s.unblockedClients ∧ p.2.flags.unblocked = k.flags.unblocked := by
  unfold unlinkPendingWrite at heq
  split at heq
  · obtain ⟨l, -, rfl⟩ := Option.map_eq_some_iff.mp heq
    exact ⟨rfl, rfl⟩
  · cases heq
    exact ⟨rfl, rfl⟩

/-- The queue after `unlinkClient`. -/
theorem unlinkClient_unblocked {p : Clients.Server × Conn} (heq : Clients.unlinkClient s c k = some p) :
    p.1.unblockedClients =
      if k.flags.unblocked then s.unblockedClients.erase c else s.unblockedClients := by
  unfold Clients.unlinkClient at heq
  obtain ⟨p₁, h₁, heq⟩ := Option.bind_eq_some_iff.mp heq
  obtain ⟨p₂, h₂, h₃⟩ := Option.bind_eq_some_iff.mp heq
  obtain ⟨hlist₁, hflag₁⟩ := unlinkSocket_unblocked h₁
  obtain ⟨hlist₂, hflag₂⟩ := unlinkPendingWrite_unblocked h₂
  have hstart : (if s.currentClient = some c then { s with currentClient := none }
      else s).unblockedClients = s.unblockedClients := by
    split
    · rfl
    · rfl
  rw [← hstart, ← hlist₁, ← hlist₂, ← hflag₁, ← hflag₂]
  unfold unlinkUnblocked at h₃
  split at h₃
  · next hflag =>
      obtain ⟨l, hdel, rfl⟩ := Option.map_eq_some_iff.mp h₃
      unfold searchDel at hdel
      split at hdel
      · cases hdel
        rw [if_pos hflag]
      · exact nomatch hdel
  · next hflag =>
      cases h₃
      rw [if_neg hflag]

/-- `unlinkClient` goes through. -/
theorem Kept.unlinkClient (h : Kept s) (hk : s.conn c = some k) :
    ∃ p, Clients.unlinkClient s c k = some p ∧ p.2.flags.unblocked = false ∧
      Kept (p.1.setConn c p.2) := by
  obtain ⟨p, heq, hp, hconn, hinv⟩ := PendingWrites.unlinkClient_spec h.inv hk
  have hlist := unlinkClient_unblocked heq
  rw [h.queued.erase_eq hk] at hlist
  refine ⟨p, heq, by rw [hp]; rfl, hinv, ?_⟩
  show Tracks (Function.update p.1.conn c (some p.2)) _ p.1.unblockedClients
  rw [hlist, hconn, hp]
  exact h.queued.clear rfl

/-! ## The other steps -/

theorem Kept.createClient (h : Kept s) {fd : Int} (heq : Clients.createClient s c fd = some s') :
    Kept s' := by
  refine ⟨h.inv.createClient heq, ?_⟩
  unfold Clients.createClient at heq
  split at heq
  · cases heq
  · next hnone =>
      cases heq
      split
      · exact h.queued.alloc hnone rfl
      · exact h.queued.alloc hnone rfl

theorem Kept.freeClientAsync (h : Kept s) (heq : Clients.freeClientAsync s c = some s') :
    Kept s' := by
  refine ⟨h.inv.freeClientAsync heq, ?_⟩
  unfold Clients.freeClientAsync at heq
  split at heq
  · cases heq
  · next k hk =>
      split at heq
      · cases heq
        exact h.queued
      · cases heq
        exact h.queued.keep hk rfl

theorem Kept.freeClientsInAsyncFreeQueue (fuel : Nat) : ∀ {s s' : Clients.Server}, Kept s →
    Clients.freeClientsInAsyncFreeQueue fuel s = some s' → Kept s' := by
  induction fuel with
  | zero =>
      intro s s' h heq
      rw [Clients.freeClientsInAsyncFreeQueue] at heq
      split at heq
      · cases heq
        exact h
      · cases heq
  | succ fuel ih =>
      intro s s' h heq
      rw [Clients.freeClientsInAsyncFreeQueue] at heq
      split at heq
      · cases heq
        exact h
      · next c rest hclose =>
          obtain ⟨tx, k, -, hk, hfree, hinv⟩ := freeQueued_spec h.inv hclose
          rw [hfree] at heq
          exact ih ⟨hinv, h.queued.afterFree hk tx⟩ heq

theorem Kept.prepareClientToWrite (h : Kept s) {pending : Bool} {r : Clients.Server × Bool}
    (heq : Clients.prepareClientToWrite s c pending = some r) : Kept r.1 := by
  refine ⟨h.inv.prepareClientToWrite heq, ?_⟩
  unfold Clients.prepareClientToWrite at heq
  split at heq
  · cases heq
  · next k hk =>
      split at heq
      · cases heq
        exact h.queued
      split at heq
      · cases heq
        exact h.queued
      split at heq
      · cases heq
        exact h.queued.keep hk rfl
      · cases heq
        exact h.queued

/-- A loop over clients keeps what its body keeps. -/
theorem Kept.foldlM {f : Clients.Server → ClientId → Option Clients.Server}
    (hf : ∀ s c s', Kept s → f s c = some s' → Kept s') (cs : List ClientId) :
    ∀ {s s' : Clients.Server}, Kept s → cs.foldlM f s = some s' → Kept s' := by
  induction cs with
  | nil =>
      intro s s' h heq
      cases heq
      exact h
  | cons c cs ih =>
      intro s s' h heq
      rw [List.foldlM_cons] at heq
      obtain ⟨s₁, h₁, heq⟩ := Option.bind_eq_some_iff.mp heq
      exact ih (hf s c s₁ h h₁) heq

theorem Kept.handlePendingWrite (h : Kept s) {outcome : ClientId → WriteOutcome}
    (heq : Clients.handlePendingWrite outcome s c = some s') : Kept s' := by
  unfold Clients.handlePendingWrite at heq
  split at heq
  · cases heq
  · next k hk =>
      have hkept : Kept { s.setConn c { k with flags := { k.flags with pendingWrite := false } } with
          clientsPendingWrite := s.clientsPendingWrite.erase c } :=
        ⟨h.inv.clearPending hk rfl, h.queued.keep hk rfl⟩
      dsimp only at heq
      split at heq
      · exact hkept.freeClient heq
      · cases heq
        exact hkept
      · exact hkept.freeClientAsync heq

theorem Kept.syncCommand (h : Kept s) {outcome : SyncOutcome}
    (heq : Clients.syncCommand s c outcome = some s') : Kept s' := by
  unfold Clients.syncCommand at heq
  split at heq
  · cases heq
  · next k hk =>
      have hadd : ∀ (online : Bool) (state : ReplState),
          Kept (addSlave s c { k with replPutOnlineOnAck := online } state) := fun online state =>
        ⟨@Inv.addSlave s c k { k with replPutOnlineOnAck := online } h.inv hk ⟨rfl, rfl⟩ state,
          h.queued.keep hk rfl⟩
      split at heq
      · cases heq
        exact h
      split at heq
      · cases heq
        exact h
      · cases heq
        exact hadd false .online
      · exact (hadd false .online).freeClientAsync heq
      · cases heq
        exact hadd k.replPutOnlineOnAck .waitBgsaveStart

theorem Kept.dropSlave (h : Kept s) (heq : Clients.dropSlave s c = some s') : Kept s' := by
  refine ⟨h.inv.dropSlave heq, ?_⟩
  unfold Clients.dropSlave at heq
  split at heq
  · cases heq
  · next k hk =>
      split at heq
      · cases heq
        exact h.queued.keep hk rfl
      · cases heq
        exact h.queued

theorem Kept.waitCommand (h : Kept s) {enough blocked : Bool}
    (heq : Clients.waitCommand s c enough blocked = some s') : Kept s' := by
  refine ⟨h.inv.waitCommand heq, ?_⟩
  unfold Clients.waitCommand at heq
  split at heq
  · cases heq
  · next k hk =>
      split at heq
      · cases heq
        exact h.queued
      · cases heq
        exact h.queued.keep hk rfl

theorem Kept.replicationCreateMasterClient (h : Kept s) {fd : Int}
    (heq : Clients.replicationCreateMasterClient s c fd = some s') : Kept s' := by
  refine ⟨h.inv.replicationCreateMasterClient heq, ?_⟩
  obtain ⟨s₁, h₁, rfl⟩ := Option.map_eq_some_iff.mp heq
  exact (h.createClient h₁).queued.keep (createClient_conn h₁) rfl

theorem Kept.markClient (h : Kept s) {m : Marks} (heq : Clients.markClient s c m = some s') :
    Kept s' := by
  refine ⟨h.inv.markClient heq, ?_⟩
  unfold Clients.markClient at heq
  split at heq
  · cases heq
  · next k hk =>
      cases heq
      exact h.queued.keep hk rfl

/-- What has nothing to do with a pause keeps the queue. -/
theorem Kept.act (h : Kept s) {a : Action} (ha : isPause a = false)
    (heq : Clients.act s a = some s') : Kept s' := by
  cases a with
  | createClient c fd => exact h.createClient heq
  | freeClient c => exact h.freeClient heq
  | freeClientAsync c => exact h.freeClientAsync heq
  | freeClientsInAsyncFreeQueue => exact Kept.freeClientsInAsyncFreeQueue _ h heq
  | prepareClientToWrite c pending =>
      obtain ⟨r, hr, rfl⟩ := Option.map_eq_some_iff.mp heq
      exact h.prepareClientToWrite hr
  | handleClientsWithPendingWrites outcome =>
      exact Kept.foldlM (fun _ _ _ h heq => h.handlePendingWrite heq) _ h heq
  | pauseClients => cases ha
  | clientsArePaused ended => cases ha
  | syncCommand c outcome => exact h.syncCommand heq
  | startBgsaveForReplication => exact Kept.foldlM (fun _ _ _ h heq => h.dropSlave heq) _ h heq
  | waitCommand c enough blocked => exact h.waitCommand heq
  | replicationCreateMasterClient c fd => exact h.replicationCreateMasterClient heq
  | markClient c m => exact h.markClient heq
  | startInput c =>
      refine ⟨h.inv.act heq, ?_⟩
      obtain ⟨k, hk, rfl⟩ := Option.map_eq_some_iff.mp heq
      exact h.queued
  | endInput =>
      refine ⟨h.inv.act heq, ?_⟩
      cases heq
      exact h.queued
  | watchForKey c key =>
      refine ⟨h.inv.act heq, ?_⟩
      obtain ⟨k, hk, rfl⟩ := Option.map_eq_some_iff.mp heq
      exact h.queued
  | unwatchAllKeys c =>
      refine ⟨h.inv.act heq, ?_⟩
      obtain ⟨k, hk, heq⟩ := Option.bind_eq_some_iff.mp heq
      obtain ⟨tx, htx, rfl⟩ := Option.map_eq_some_iff.mp heq
      exact h.queued
  | selectDb c id =>
      refine ⟨h.inv.act heq, ?_⟩
      obtain ⟨k, hk, rfl⟩ := Option.map_eq_some_iff.mp heq
      exact h.queued
  | writeData dbs =>
      refine ⟨h.inv.act heq, ?_⟩
      cases heq
      exact h.queued

/-! ## Runs -/

variable {st st' : State} {call : Call} {calls : List Call}

/-- `unlinkClient` and `freeClient` take the client off the queue. -/
theorem unlinks (h : Kept st.srv) (call : Call) : Unlinks st call := by
  cases call with
  | unlinkClient c =>
      intro hlive
      obtain ⟨k, hk⟩ := Option.isSome_iff_exists.mp hlive
      obtain ⟨p, heq, hflag, hkept⟩ := h.unlinkClient hk
      refine ⟨{ st with srv := p.1.setConn c p.2 }, ?_, hkept.queued.not_mem_of fun k' hk' => ?_⟩
      · show unlinkClient st c = _
        rw [unlinkClient, hk]
        dsimp only
        rw [heq]
        rfl
      · have hself := (setConn_eq p.1 c c p.2).trans (if_pos rfl)
        rw [← Option.some.inj (hself.symm.trans hk')]
        exact hflag
  | freeClient c =>
      intro hlive
      obtain ⟨k, hk⟩ := Option.isSome_iff_exists.mp hlive
      obtain ⟨tx, -, hfree, -⟩ := freeClient_spec h.inv hk
      have hkept := h.freeClient hfree
      refine ⟨{ st with srv := afterFree st.srv tx c k }, ?_, hkept.queued.not_mem_of fun k' hk' => ?_⟩
      · show freeClient st c = _
        rw [freeClient, hfree]
        rfl
      · have hself := (afterFree_conn st.srv tx c c k).trans (if_pos rfl)
        cases hself.symm.trans hk'
  | pauseClients stop => exact trivial
  | clientsArePaused mstime => exact trivial
  | other a ha => exact trivial

/-- Nothing happens where no pause ends. -/
theorem clientsArePaused_noop {mstime : Int}
    (hend : ¬ (st.srv.clientsPaused = true ∧ st.clientsPauseEndTime < mstime)) :
    Clients.clientsArePaused st.srv (decide (st.clientsPauseEndTime < mstime)) = some st.srv := by
  unfold Clients.clientsArePaused
  refine if_neg (fun hand => hend ?_)
  rw [Bool.and_eq_true, decide_eq_true_eq] at hand
  exact hand

/-- **One call**: a sane one keeps the queue right. -/
theorem step_kept (h : Kept st.srv) (hs : Sane st call) (heq : step st call = some st') :
    Kept st'.srv := by
  cases call with
  | pauseClients stop =>
      cases heq
      exact ⟨h.inv.act (a := .pauseClients) rfl, h.queued⟩
  | clientsArePaused mstime =>
      obtain ⟨p, hp, rfl⟩ := Option.map_eq_some_iff.mp heq
      obtain ⟨srv, hrun, rfl⟩ := Option.map_eq_some_iff.mp hp
      refine ⟨h.inv.clientsArePaused hrun, ?_⟩
      by_cases hend : st.srv.clientsPaused = true ∧ st.clientsPauseEndTime < mstime
      · obtain ⟨srv', hrun', hiff⟩ := endPause_queued_iff h.inv h.queued hend.1
        rw [decide_eq_true hend.2, hrun'] at hrun
        cases hrun
        exact hiff.mpr (hs hend.1 hend.2)
      · rw [clientsArePaused_noop hend] at hrun
        cases hrun
        exact h.queued
  | unlinkClient c =>
      cases hk : st.srv.conn c with
      | none =>
          have heq' : unlinkClient st c = some st' := heq
          rw [unlinkClient, hk] at heq'
          cases heq'
      | some k =>
          obtain ⟨p, hp, -, hkept⟩ := h.unlinkClient hk
          have heq' : unlinkClient st c = some st' := heq
          rw [unlinkClient, hk] at heq'
          dsimp only at heq'
          rw [hp] at heq'
          cases heq'
          exact hkept
  | freeClient c =>
      obtain ⟨srv, hrun, rfl⟩ := Option.map_eq_some_iff.mp heq
      exact h.freeClient hrun
  | other a ha =>
      obtain ⟨srv, hrun, rfl⟩ := Option.map_eq_some_iff.mp heq
      exact h.act ha hrun

/-- A call that is not sane leaves a queue that is not right. -/
theorem not_sane_breaks (h : Kept st.srv) (hs : ¬ Sane st call) :
    ∃ st', step st call = some st' ∧ ¬ Queued st'.srv := by
  cases call with
  | clientsArePaused mstime =>
      simp only [Sane, Classical.not_imp] at hs
      obtain ⟨hpaused, hend, hnot⟩ := hs
      obtain ⟨srv, hrun, hiff⟩ := endPause_queued_iff h.inv h.queued hpaused
      refine ⟨{ st with srv := srv }, ?_, fun hq => hnot (hiff.mp hq)⟩
      show (clientsArePaused st mstime).map Prod.fst = _
      rw [clientsArePaused, decide_eq_true hend, hrun]
      rfl
  | pauseClients stop => exact (hs trivial).elim
  | unlinkClient c => exact (hs trivial).elim
  | freeClient c => exact (hs trivial).elim
  | other a ha => exact (hs trivial).elim

theorem always_queued {calls : List Call} (h : Always st calls) : Queued st.srv := by
  cases calls with
  | nil => exact h
  | cons call calls => exact h.1

/-- The queue is right all the time exactly if all calls are sane. -/
theorem always_iff (calls : List Call) : ∀ {st : State}, Kept st.srv →
    (Always st calls ↔ AllSane st calls) := by
  induction calls with
  | nil => exact fun h => ⟨fun _ => trivial, fun _ => h.queued⟩
  | cons call calls ih =>
      intro st h
      constructor
      · intro ⟨_, _, hrest⟩
        have hs : Sane st call := by
          by_contra hs
          obtain ⟨st', heq, hbroken⟩ := not_sane_breaks h hs
          exact hbroken (always_queued (hrest st' heq))
        exact ⟨hs, fun st' heq => (ih (step_kept h hs heq)).mp (hrest st' heq)⟩
      · intro ⟨hs, hrest⟩
        exact ⟨h.queued, unlinks h call,
          fun st' heq => (ih (step_kept h hs heq)).mpr (hrest st' heq)⟩

/-- **The queue of unblocked clients**: in a run every client is on the queue at most once, and
exactly when it has `CLIENT_UNBLOCKED`, and unlinking a client takes it off, if and only if no
pause ends while a client that is then put on the queue is still there. -/
theorem queued_iff (dbnum : Nat) (calls : List Call) :
    Always (start dbnum) calls ↔ AllSane (start dbnum) calls :=
  always_iff calls ⟨init_inv dbnum, tracks_nil⟩

/-- Two pauses, with one client. -/
theorem queued_twice : ¬ Always (start 16) [.other (.createClient 1 7) rfl, .pauseClients 10,
    .clientsArePaused 11, .pauseClients 20, .clientsArePaused 21] := by
  intro h
  have h₅ := ((((h.2.2 _ rfl).2.2 _ rfl).2.2 _ rfl).2.2 _ rfl).2.2 _ rfl
  have hnd : [1, 1].Nodup := h₅.1
  exact absurd hnd (by decide)

end Unblocked

end RedisCore
