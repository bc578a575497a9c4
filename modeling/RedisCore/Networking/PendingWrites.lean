/-
# `RedisCore.Networking.PendingWrites` — who writes the replies (networking.c, ae.c)

A reply is only put into the output of its client.  `prepareClientToWrite` puts the client on
`clients_pending_write`, but only if it had no output before: then somebody is to take care of
it already.  `handleClientsWithPendingWrites` writes what it can and installs a handler for the
rest; the handler goes away when everything is written.

Here the output is lengths: of the static buffer, and of the objects on the reply list.  What
the socket takes is an argument, and so is what the system says to a new event.  File events are
kept for each descriptor.  The clients and their lists are those of `Networking.Clients`.

`Scheduled` is the invariant: whoever has output is on the list or has the handler, unless it
is to be closed.
-/
import RedisCore.Networking.Output

namespace RedisCore

namespace PendingWrites

open Clients Tracked
open Output (PROTO_REPLY_CHUNK_BYTES NET_MAX_WRITES_PER_EVENT)

/-- An object on the reply list: its length, `none` for a `NULL` pointer, and whether its
encoding is RAW. -/
structure Obj where
  len : Option Nat
  raw : Bool
  deriving DecidableEq

/-- The output of a client. -/
structure Output where
  bufpos : Nat
  sentlen : Nat
  reply : List Obj
  deriving DecidableEq

/-- `aeFileEvent`; the procedures are `readQueryFromClient` and `sendReplyToClient`. -/
structure FileEvent where
  readable : Bool
  writable : Bool
  clientData : Option ClientId
  deriving DecidableEq

/-- The clients, their output, and the event loop. -/
structure State where
  srv : Clients.Server
  out : ClientId → Output
  setsize : Int
  events : Int → FileEvent

def State.setOut (s : State) (c : ClientId) (o : Output) : State :=
  { s with out := Function.update s.out c o }

def State.setEvent (s : State) (fd : Int) (e : FileEvent) : State :=
  { s with events := Function.update s.events fd e }

/-! ## File events -/

inductive Mask where
  | readable
  | writable

def FileEvent.add (e : FileEvent) (c : ClientId) : Mask → FileEvent
  | .readable => { e with readable := true, clientData := some c }
  | .writable => { e with writable := true, clientData := some c }

def FileEvent.del (e : FileEvent) : Mask → FileEvent
  | .readable => { e with readable := false }
  | .writable => { e with writable := false }

/-- `aeCreateFileEvent`, and whether it returned `AE_OK`; `added` is what `aeApiAddEvent` does. -/
def aeCreateFileEvent (s : State) (fd : Int) (mask : Mask) (c : ClientId) (added : Bool) :
    State × Bool :=
  if fd ≥ s.setsize then (s, false)
  else if !added then (s, false)
  else (s.setEvent fd ((s.events fd).add c mask), true)

/-- `aeDeleteFileEvent`. -/
def aeDeleteFileEvent (s : State) (fd : Int) (mask : Mask) : State :=
  if fd ≥ s.setsize then s else s.setEvent fd ((s.events fd).del mask)

/-! ## Creating and freeing a client -/

def Output.empty : Output := ⟨0, 0, []⟩

/-- The event of a new client, which only a client with a socket has. -/
def registerRead (s : State) (c : ClientId) (fd : Int) (added : Bool) : State × Bool :=
  if fd ≠ -1 then aeCreateFileEvent s fd .readable c added else (s, true)

/-- `createClient`; without its event there is no client. -/
def createClient (s : State) (c : ClientId) (fd : Int) (added : Bool) : Option State :=
  let r := registerRead s c fd added
  if r.2 then (Clients.createClient s.srv c fd).map (fun srv => { r.1.setOut c .empty with srv := srv })
  else some s

/-- What `unlinkClient` does to the events of a client. -/
def unregister (s : State) (fd : Int) : State :=
  if fd = -1 then s else aeDeleteFileEvent (aeDeleteFileEvent s fd .readable) fd .writable

/-- `unlinkClient`. -/
def unlinkClient (s : State) (c : ClientId) : Option State :=
  match s.srv.conn c with
  | none => none
  | some k =>
      (Clients.unlinkClient s.srv c k).map (fun p =>
        { unregister s k.fd with srv := p.1.setConn c p.2 })

/-- `freeClient`. -/
def freeClient (s : State) (c : ClientId) : Option State :=
  match s.srv.conn c with
  | none => none
  | some k => (Clients.freeClient s.srv c).map (fun srv => { unregister s k.fd with srv := srv })

/-- `freeClientAsync`. -/
def freeClientAsync (s : State) (c : ClientId) : Option State :=
  (Clients.freeClientAsync s.srv c).map (fun srv => { s with srv := srv })

/-- One round of `freeClientsInAsyncFreeQueue`. -/
def freeQueued (s : State) (c : ClientId) : Option State :=
  match s.srv.conn c with
  | none => none
  | some k => (Clients.freeQueued s.srv c).map (fun srv => { unregister s k.fd with srv := srv })

/-- `freeClientsInAsyncFreeQueue`, for at most `fuel` rounds. -/
def freeClientsInAsyncFreeQueue : Nat → State → Option State
  | 0, s => if s.srv.clientsToClose = [] then some s else none
  | fuel + 1, s =>
      match s.srv.clientsToClose with
      | [] => some s
      | c :: _ => (freeQueued s c).bind (freeClientsInAsyncFreeQueue fuel)

/-! ## Adding to the output -/

/-- `clientHasPendingReplies`. -/
def clientHasPendingReplies (o : Output) : Bool := o.bufpos ≠ 0 || o.reply ≠ []

/-- `_addReplyToBuffer`, and whether it returned `C_OK`. -/
def addReplyToBuffer (k : Conn) (o : Output) (len : Nat) : Output × Bool :=
  if k.flags.closeAfterReply then (o, true)
  else if o.reply ≠ [] then (o, false)
  else if len > PROTO_REPLY_CHUNK_BYTES - o.bufpos then (o, false)
  else ({ o with bufpos := o.bufpos + len }, true)

/-- The three functions `_addReply…ToList`; `raw` is the encoding of a new object. -/
def addReplyToList (o : Output) (len : Nat) (raw : Bool) : Output :=
  let node : Output := { o with reply := o.reply ++ [⟨some len, raw⟩] }
  match o.reply.getLast? with
  | some ⟨some n, true⟩ =>
      if n + len ≤ PROTO_REPLY_CHUNK_BYTES then
        { o with reply := o.reply.dropLast ++ [⟨some (n + len), true⟩] }
      else node
  | _ => node

/-- `asyncCloseClientOnOutputBufferLimitReached`; `overLimit` says that the limit is reached. -/
def asyncCloseClient (s : State) (c : ClientId) (overLimit : Bool) : Option State :=
  if overLimit then freeClientAsync s c else some s

/-- The functions that produce replies, each with what it produces: `addReply`,
`addReplySds` and `addReplyString`, `addDeferredMultiBulkLength`, and
`setDeferredMultiBulkLength` of the object at an index. -/
inductive ReplyCall where
  | add (len : Nat) (raw : Bool)
  | deferred
  | setDeferred (node : Nat) (len : Nat)

/-- What `addReply` does after `prepareClientToWrite`. -/
def addReply (s : State) (c : ClientId) (k : Conn) (len : Nat) (raw overLimit : Bool) :
    Option State :=
  let r := addReplyToBuffer k (s.out c) len
  if r.2 then some (s.setOut c r.1)
  else asyncCloseClient (s.setOut c (addReplyToList (s.out c) len raw)) c overLimit

/-- What `setDeferredMultiBulkLength` makes of the reply list. -/
def glueDeferred (reply : List Obj) (node len : Nat) : Option (List Obj) :=
  match reply.drop node with
  | [] => none
  | _ :: ⟨some n, _⟩ :: rest => some (reply.take node ++ ⟨some (len + n), true⟩ :: rest)
  | _ :: rest => some (reply.take node ++ ⟨some len, true⟩ :: rest)

/-- A reply. -/
def reply (s : State) (c : ClientId) (overLimit : Bool) : ReplyCall → Option State
  | .add len raw =>
      (prepareClientToWrite s.srv c (clientHasPendingReplies (s.out c))).bind (fun r =>
        let s := { s with srv := r.1 }
        match r.2, s.srv.conn c with
        | true, some k => addReply s c k len raw overLimit
        | _, _ => some s)
  | .deferred =>
      (prepareClientToWrite s.srv c (clientHasPendingReplies (s.out c))).map (fun r =>
        let s := { s with srv := r.1 }
        if r.2 then s.setOut c { s.out c with reply := (s.out c).reply ++ [⟨none, true⟩] } else s)
  | .setDeferred node len =>
      match s.srv.conn c with
      | none => none
      | some _ =>
          (glueDeferred (s.out c).reply node len).bind (fun l =>
            asyncCloseClient (s.setOut c { s.out c with reply := l }) c overLimit)

/-! ## Writing to the socket -/

/-- What a `write` does: it takes up to so many bytes, it answers `EAGAIN`, or it fails.
After each, whether the memory in use is over `maxmemory`. -/
inductive WriteResult where
  | took (room : Nat) (overMemory : Bool)
  | again
  | error

/-- Rounds of the loop that delete an empty object. -/
def deleteEmptyHeads : List Obj → Option (List Obj)
  | [] => some []
  | ⟨none, _⟩ :: _ => none
  | ⟨some 0, _⟩ :: rest => deleteEmptyHeads rest
  | o :: rest => some (o :: rest)

/-- The length of what is written from. -/
def Output.headLen (o : Output) : Nat :=
  if o.bufpos > 0 then o.bufpos else (o.reply.head?.bind Obj.len).getD 0

/-- `n` bytes have been written. -/
def Output.advance (o : Output) (n : Nat) : Output :=
  let sentlen := o.sentlen + n
  if sentlen = o.headLen then
    if o.bufpos > 0 then { o with bufpos := 0, sentlen := 0 }
    else { o with reply := o.reply.tail, sentlen := 0 }
  else { o with sentlen := sentlen }

/-- What the loop does before it writes. -/
def Output.front (o : Output) : Option Output :=
  if o.bufpos = 0 then (deleteEmptyHeads o.reply).map (fun l => { o with reply := l }) else some o

/-- The loop of `writeToClient`, and whether a write failed.  When the list of results ends,
the socket is full. -/
def writeLoop : List WriteResult → Nat → Output → Option (Output × Bool)
  | results, totwritten, o =>
      match o.front with
      | none => none
      | some o =>
          if clientHasPendingReplies o = false then some (o, false)
          else
            match results with
            | [] | .again :: _ => some (o, false)
            | .error :: _ => some (o, true)
            | .took room overMemory :: results =>
                let n := min room (o.headLen - o.sentlen)
                if n = 0 then some (o, false)
                else if totwritten + n > NET_MAX_WRITES_PER_EVENT ∧ overMemory = false then
                  some (o.advance n, false)
                else writeLoop results (totwritten + n) (o.advance n)

/-- `writeToClient`, and whether it returned `C_OK`. -/
def writeToClient (s : State) (c : ClientId) (results : List WriteResult)
    (handlerInstalled : Bool) : Option (State × Bool) :=
  match s.srv.conn c with
  | none => none
  | some k =>
      match writeLoop results 0 (s.out c) with
      | none => none
      | some (o, true) => (freeClient (s.setOut c o) c).map (fun s => (s, false))
      | some (o, false) =>
          if clientHasPendingReplies o then some (s.setOut c o, true)
          else
            let s := s.setOut c { o with sentlen := 0 }
            let s := if handlerInstalled then aeDeleteFileEvent s k.fd .writable else s
            if k.flags.closeAfterReply then (freeClient s c).map (fun s => (s, false))
            else some (s, true)

/-- Take a client off the list of pending writes, at the head of a round of
`handleClientsWithPendingWrites`. -/
def takePending (s : State) (c : ClientId) (k : Conn) : State :=
  { s with srv := { s.srv.setConn c { k with flags := { k.flags with pendingWrite := false } } with
      clientsPendingWrite := s.srv.clientsPendingWrite.erase c } }

/-- Install the handler if something is left. -/
def installHandler (s : State) (c : ClientId) (added : Bool) : Option State :=
  match s.srv.conn c with
  | none => none
  | some k =>
      if clientHasPendingReplies (s.out c) then
        let r := aeCreateFileEvent s k.fd .writable c added
        if r.2 then some r.1 else freeClientAsync r.1 c
      else some s

/-- A round of `handleClientsWithPendingWrites`. -/
def handlePendingWrite (results : ClientId → List WriteResult) (added : ClientId → Bool)
    (s : State) (c : ClientId) : Option State :=
  match s.srv.conn c with
  | none => none
  | some k =>
      (writeToClient (takePending s c k) c (results c) false).bind (fun r =>
        if r.2 then installHandler r.1 c (added c) else some r.1)

/-- `handleClientsWithPendingWrites`. -/
def handleClientsWithPendingWrites (results : ClientId → List WriteResult)
    (added : ClientId → Bool) (s : State) : Option State :=
  s.srv.clientsPendingWrite.foldlM (handlePendingWrite results added) s

/-- The writable event of a descriptor: `sendReplyToClient`. -/
def writableEvent (s : State) (fd : Int) (results : List WriteResult) : Option State :=
  if (s.events fd).writable then
    match (s.events fd).clientData with
    | none => none
    | some c => (writeToClient s c results true).map Prod.fst
  else some s

/-! ## Runs -/

/-- Change a client as CLIENT REPLY, REPLCONF or SYNC do.  Only clients without a socket are
LUA clients, and nothing but `createClient` sets `replstate` to `REPL_STATE_NONE`. -/
def markClient (s : State) (c : ClientId) (m : Marks) : Option State :=
  match s.srv.conn c with
  | none => none
  | some k =>
      if (m.lua = true ∧ k.fd ≠ -1) ∨ (m.replstate = .none ∧ k.replstate ≠ .none) then none
      else (Clients.markClient s.srv c m).map (fun srv => { s with srv := srv })

inductive Step where
  | createClient (c : ClientId) (fd : Int) (added : Bool)
  | mark (c : ClientId) (m : Marks)
  | reply (c : ClientId) (call : ReplyCall) (overLimit : Bool)
  | handleClientsWithPendingWrites (results : ClientId → List WriteResult) (added : ClientId → Bool)
  | writeToClient (c : ClientId) (results : List WriteResult) (handlerInstalled : Bool)
  | writable (fd : Int) (results : List WriteResult)
  | unlinkClient (c : ClientId)
  | freeClient (c : ClientId)
  | freeClientAsync (c : ClientId)
  | freeClientsInAsyncFreeQueue

/-- No client has this descriptor: what the system promises of a new one. -/
def State.FdUnused (s : State) (fd : Int) : Prop :=
  fd ≠ -1 → ∀ c k, s.srv.conn c = some k → k.fd ≠ fd

def act (s : State) : Step → Option State
  | .createClient c fd added => createClient s c fd added
  | .mark c m => markClient s c m
  | .reply c call overLimit => reply s c overLimit call
  | .handleClientsWithPendingWrites results added =>
      handleClientsWithPendingWrites results added s
  | .writeToClient c results handlerInstalled =>
      (writeToClient s c results handlerInstalled).map Prod.fst
  | .writable fd results => writableEvent s fd results
  | .unlinkClient c => unlinkClient s c
  | .freeClient c => freeClient s c
  | .freeClientAsync c => freeClientAsync s c
  | .freeClientsInAsyncFreeQueue => freeClientsInAsyncFreeQueue s.srv.clientsToClose.length s

/-- A step that the system can make. -/
def Allowed (s : State) : Step → Prop
  | .createClient _ fd _ => s.FdUnused fd
  | _ => True

/-- The state before the first client. -/
def init (dbnum : Nat) (setsize : Int) : State where
  srv := Clients.init dbnum
  out _ := .empty
  setsize := setsize
  events _ := ⟨false, false, none⟩

/-- `Reaches s steps s'`: the steps lead from `s` to `s'`. -/
def Reaches (s : State) : List Step → State → Prop
  | [], s' => s' = s
  | a :: rest, s' => Allowed s a ∧ ∃ s₁, act s a = some s₁ ∧ Reaches s₁ rest s'

/-! ## The invariant -/

variable {s s' : State} {c : ClientId} {k k' : Conn} {x x' : Option ClientId}

/-- The write handler of a client is installed. -/
def Handled (s : State) (c : ClientId) (k : Conn) : Prop :=
  (s.events k.fd).writable = true ∧ (s.events k.fd).clientData = some c

/-- Somebody takes care of the output of an ordinary client. -/
def Served (s : State) (c : ClientId) (k : Conn) : Prop :=
  k.fd ≠ -1 → k.replstate = .none → k.flags.closeAsap = false →
    clientHasPendingReplies (s.out c) = true → k.flags.pendingWrite = true ∨ Handled s c k

/-- What holds between two steps; within a step it can be that nobody takes care of the
client `x`. -/
structure ScheduledBut (x : Option ClientId) (s : State) : Prop where
  inv : Clients.Inv s.srv
  fds : ∀ c c' k k', s.srv.conn c = some k → s.srv.conn c' = some k' → k.fd = k'.fd →
    k.fd ≠ -1 → c = c'
  lua : ∀ c k, s.srv.conn c = some k → k.flags.lua = true → k.fd = -1
  served : ∀ c k, x ≠ some c → s.srv.conn c = some k → Served s c k

abbrev Scheduled (s : State) : Prop := ScheduledBut none s

/-- A change of one client and of the events of one descriptor, which no other client has. -/
theorem ScheduledBut.change (h : ScheduledBut x s) (hinv : Clients.Inv s'.srv) (c : ClientId)
    (fd : Int)
    (hconn : ∀ y, y ≠ c → s'.srv.conn y = s.srv.conn y)
    (hout : ∀ y, y ≠ c → s'.out y = s.out y)
    (hev : ∀ f, f ≠ fd → s'.events f = s.events f)
    (hfd : ∀ y k, y ≠ c → s.srv.conn y = some k → k.fd ≠ -1 → k.fd ≠ fd)
    (hx : ∀ y, y ≠ c → x' ≠ some y → x ≠ some y)
    (hself : ∀ k', s'.srv.conn c = some k' → (k'.fd = -1 ∨ k'.fd = fd) ∧
      (k'.flags.lua = true → k'.fd = -1) ∧ (x' ≠ some c → Served s' c k')) :
    ScheduledBut x' s' := by
  refine ⟨hinv, ?_, ?_, ?_⟩
  · intro y y' k k' hk hk' hsame hne
    by_cases hy : y = c
    · by_cases hy' : y' = c
      · rw [hy, hy']
      · subst hy
        rw [hconn y' hy'] at hk'
        have heq := ((hself k hk).1.resolve_left hne)
        exact (hfd y' k' hy' hk' (hsame ▸ hne) (hsame ▸ heq)).elim
    · rw [hconn y hy] at hk
      by_cases hy' : y' = c
      · subst hy'
        have heq := ((hself k' hk').1.resolve_left (hsame ▸ hne))
        exact (hfd y k hy hk hne (hsame.trans heq)).elim
      · rw [hconn y' hy'] at hk'
        exact h.fds y y' k k' hk hk' hsame hne
  · intro y k hk hlua
    by_cases hy : y = c
    · subst hy
      exact (hself k hk).2.1 hlua
    · rw [hconn y hy] at hk
      exact h.lua y k hk hlua
  · intro y k hxy hk
    by_cases hy : y = c
    · subst hy
      exact (hself k hk).2.2 hxy
    · rw [hconn y hy] at hk
      intro hne hnone hopen hpend
      rw [hout y hy] at hpend
      have hserved := h.served y k (hx y hy hxy) hk hne hnone hopen hpend
      unfold Handled at hserved ⊢
      rw [hev k.fd (hfd y k hy hk hne)]
      exact hserved

/-- A change of a client that is there, and of its events. -/
theorem ScheduledBut.update (h : ScheduledBut x s) (hk : s.srv.conn c = some k)
    (hinv : Clients.Inv s'.srv)
    (hconn : ∀ y, y ≠ c → s'.srv.conn y = s.srv.conn y)
    (hout : ∀ y, y ≠ c → s'.out y = s.out y)
    (hev : ∀ f, f ≠ k.fd → s'.events f = s.events f)
    (hx : ∀ y, y ≠ c → x' ≠ some y → x ≠ some y)
    (hself : ∀ k', s'.srv.conn c = some k' → (k'.fd = -1 ∨ k'.fd = k.fd) ∧
      (k'.flags.lua = true → k'.fd = -1) ∧ (x' ≠ some c → Served s' c k')) :
    ScheduledBut x' s' :=
  h.change hinv c k.fd hconn hout hev
    (fun y k' hy hk' hne hsame => hy (h.fds y c k' k hk' hk hsame hne)) hx hself

theorem init_scheduled (dbnum : Nat) (setsize : Int) : Scheduled (init dbnum setsize) where
  inv := init_inv dbnum
  fds _ _ _ _ hk := by cases hk
  lua _ _ hk := by cases hk
  served _ _ _ hk := by cases hk

/-! ## Events and output -/

theorem aeDeleteFileEvent_srv (s : State) (fd : Int) (m : Mask) :
    (aeDeleteFileEvent s fd m).srv = s.srv ∧ (aeDeleteFileEvent s fd m).out = s.out := by
  unfold aeDeleteFileEvent
  split <;> exact ⟨rfl, rfl⟩

theorem unregister_out (s : State) (fd : Int) : (unregister s fd).out = s.out := by
  unfold unregister
  split
  · rfl
  · rw [(aeDeleteFileEvent_srv _ _ _).2, (aeDeleteFileEvent_srv _ _ _).2]

theorem aeDeleteFileEvent_events (s : State) (fd : Int) (m : Mask) {f : Int} (hf : f ≠ fd) :
    (aeDeleteFileEvent s fd m).events f = s.events f := by
  unfold aeDeleteFileEvent
  split
  · rfl
  · exact Function.update_of_ne hf _ _

theorem unregister_events (s : State) (fd : Int) {f : Int} (hf : f ≠ fd) :
    (unregister s fd).events f = s.events f := by
  unfold unregister
  split
  · rfl
  · rw [aeDeleteFileEvent_events _ _ _ hf, aeDeleteFileEvent_events _ _ _ hf]

theorem deleteEmptyHeads_ne : ∀ {l l' : List Obj}, deleteEmptyHeads l = some l' → l' ≠ [] → l ≠ []
  | [], l', h, hne => by
      cases h
      exact (hne rfl).elim
  | _ :: _, _, _, _ => List.cons_ne_nil _ _

theorem front_pending {o o' : Output} (h : o.front = some o')
    (hp : clientHasPendingReplies o' = true) : clientHasPendingReplies o = true := by
  unfold Output.front at h
  split at h
  · next hzero =>
      obtain ⟨l, hl, rfl⟩ := Option.map_eq_some_iff.mp h
      have hne : l ≠ [] := by simpa [clientHasPendingReplies, hzero] using hp
      simp [clientHasPendingReplies, deleteEmptyHeads_ne hl hne]
  · cases h
    exact hp

/-- Nobody but the reply functions makes output. -/
theorem writeLoop_pending {results : List WriteResult} {n : Nat} {o : Output} {r : Output × Bool}
    (h : writeLoop results n o = some r) (hp : clientHasPendingReplies r.1 = true) :
    clientHasPendingReplies o = true := by
  unfold writeLoop at h
  split at h
  · cases h
  · next o' hfront =>
      refine front_pending hfront ?_
      split at h
      · cases h
        exact hp
      · next hsome => exact Bool.of_not_eq_false hsome

/-! ## Freeing -/

/-- `freeClient` goes through, and is the end of the client. -/
theorem freeClient_scheduled (h : ScheduledBut x s) (hx : x = none ∨ x = some c)
    (heq : freeClient s c = some s') : Scheduled s' := by
  unfold freeClient at heq
  split at heq
  · cases heq
  · next k hk =>
      obtain ⟨tx, -, hfree, hinv⟩ := freeClient_spec h.inv hk
      rw [hfree] at heq
      cases heq
      refine h.update hk hinv ?_ ?_ ?_ ?_ ?_
      · intro y hy
        exact (afterFree_conn _ _ _ _ _).trans (if_neg hy)
      · intro y _
        exact congrFun (unregister_out s k.fd) y
      · intro f hf
        exact unregister_events s k.fd hf
      · rintro y hy -
        rcases hx with rfl | rfl
        · simp
        · simpa using fun h => hy h.symm
      · intro k' hk'
        rw [show (({ unregister s k.fd with srv := afterFree s.srv tx c k } : State).srv.conn c) =
          none from (afterFree_conn _ _ _ _ _).trans (if_pos rfl)] at hk'
        cases hk'

theorem freeQueued_scheduled (h : Scheduled s) {rest : List ClientId}
    (hq : s.srv.clientsToClose = c :: rest) :
    ∃ s', freeQueued s c = some s' ∧ Scheduled s' ∧ s'.srv.clientsToClose = rest := by
  obtain ⟨tx, k, -, hk, hfree, hinv⟩ := freeQueued_spec h.inv hq
  refine ⟨{ unregister s k.fd with srv := afterFree s.srv tx c k }, ?_, ?_, ?_⟩
  · unfold freeQueued
    rw [hk, hfree]
    rfl
  · refine h.update hk hinv ?_ ?_ ?_ (fun _ _ h => h) ?_
    · intro y hy
      exact (afterFree_conn _ _ _ _ _).trans (if_neg hy)
    · intro y _
      exact congrFun (unregister_out s k.fd) y
    · intro f hf
      exact unregister_events s k.fd hf
    · intro k' hk'
      rw [show (({ unregister s k.fd with srv := afterFree s.srv tx c k } : State).srv.conn c) =
        none from (afterFree_conn _ _ _ _ _).trans (if_pos rfl)] at hk'
      cases hk'
  · show (afterFree s.srv tx c k).clientsToClose = rest
    simp only [afterFree, hq, List.erase_cons_head]

theorem freeQueue_scheduled : ∀ (q : List ClientId) {s : State}, Scheduled s →
    s.srv.clientsToClose = q →
    ∃ s', freeClientsInAsyncFreeQueue q.length s = some s' ∧ Scheduled s' := by
  intro q
  induction q with
  | nil =>
      intro s h hq
      exact ⟨s, by simp [freeClientsInAsyncFreeQueue, hq], h⟩
  | cons c q ih =>
      intro s h hq
      obtain ⟨s₁, heq, h₁, hrest⟩ := freeQueued_scheduled h hq
      obtain ⟨s', hrun, h'⟩ := ih h₁ hrest
      refine ⟨s', ?_, h'⟩
      simp only [List.length_cons, freeClientsInAsyncFreeQueue, hq, heq, Option.bind_some, hrun]

/-- A client that is to be closed need not be taken care of. -/
theorem freeClientAsync_scheduled (h : ScheduledBut x s) (hx : x = none ∨ x = some c)
    (heq : freeClientAsync s c = some s') : Scheduled s' := by
  obtain ⟨srv, hasync, rfl⟩ := Option.map_eq_some_iff.mp heq
  have hinv := h.inv.freeClientAsync hasync
  unfold Clients.freeClientAsync at hasync
  split at hasync
  · cases hasync
  · next k hk =>
      have hother : ∀ y, y ≠ c → none ≠ some y → x ≠ some y := by
        rintro y hy -
        rcases hx with rfl | rfl
        · simp
        · simpa using fun h => hy h.symm
      split at hasync
      · next hflags =>
          cases hasync
          refine h.update hk hinv (fun _ _ => rfl) (fun _ _ => rfl) (fun _ _ => rfl) hother ?_
          intro k' hk'
          have hsame : k' = k := Option.some.inj (hk'.symm.trans hk)
          subst hsame
          refine ⟨.inr rfl, h.lua c k' hk, ?_⟩
          rintro - hne - hopen -
          rcases Bool.or_eq_true_iff.mp hflags with hclose | hlua
          · rw [hclose] at hopen
            cases hopen
          · exact (hne (h.lua c k' hk hlua)).elim
      · cases hasync
        refine h.update hk hinv ?_ (fun _ _ => rfl) (fun _ _ => rfl) hother ?_
        · intro y hy
          exact Function.update_of_ne hy _ _
        · intro k' hk'
          have hsame := Option.some.inj (hk'.symm.trans (Function.update_self _ _ _))
          subst hsame
          refine ⟨.inr rfl, h.lua c k hk, ?_⟩
          rintro - - - hopen -
          cases hopen

/-- The client after `unlinkClient`. -/
def unlinked (k : Conn) : Conn :=
  { k with fd := -1, flags := { k.flags with pendingWrite := false, unblocked := false } }

/-- `unlinkClient` goes through; the client is on no list and has no socket. -/
theorem unlinkClient_spec {srv : Clients.Server} (h : Clients.Inv srv) (hk : srv.conn c = some k) :
    ∃ p, Clients.unlinkClient srv c k = some p ∧ p.2 = unlinked k ∧ p.1.conn = srv.conn ∧
      Clients.Inv (p.1.setConn c p.2) := by
  -- the server with the client off its lists
  obtain ⟨s₁, hs₁⟩ : ∃ s₁ : Clients.Server, s₁ = { srv with
    clients := srv.clients.erase c
    clientsPendingWrite := srv.clientsPendingWrite.erase c
    unblockedClients := if k.flags.unblocked then srv.unblockedClients.erase c
      else srv.unblockedClients } := ⟨_, rfl⟩
  have hinv : Clients.Inv (s₁.setConn c (unlinked k)) := by
    refine ⟨by rw [hs₁]; exact h.indexed, by rw [hs₁]; exact h.clients.clear (by simp [unlinked]),
      by rw [hs₁]; exact h.pending.clear rfl, by rw [hs₁]; exact h.toClose.keep hk rfl,
      ?_, ?_, ?_, by rw [hs₁]; exact h.monitors⟩
    · intro y k' hk' hu
      rw [setConn_eq] at hk'
      split at hk'
      · cases hk'
        cases hu
      · next hy =>
          rw [hs₁] at hk' ⊢
          have hmem := h.unblocked y k' hk' hu
          show y ∈ if k.flags.unblocked then srv.unblockedClients.erase c else srv.unblockedClients
          split
          · exact (List.mem_erase_of_ne hy).mpr hmem
          · exact hmem
    · intro y hy
      rw [setConn_eq] at hy
      split at hy
      · cases hy
      · rw [hs₁] at hy ⊢
        exact h.watched y hy
    · intro y hy
      rw [setConn_eq] at hy
      split at hy
      · cases hy
      · rw [hs₁] at hy ⊢
        exact h.current y hy
  refine ⟨({ s₁ with
    currentClient := if srv.currentClient = some c then none else srv.currentClient },
      unlinked k), ?_, rfl,
    by rw [hs₁], ?_⟩
  · obtain ⟨s₂, hs₂⟩ : ∃ s₂ : Clients.Server, s₂ = { srv with
      currentClient := if srv.currentClient = some c then none else srv.currentClient } := ⟨_, rfl⟩
    have hstart : Clients.unlinkClient srv c k = (unlinkSocket s₂ c k).bind (fun p =>
        (unlinkPendingWrite p.1 c p.2).bind (fun q => unlinkUnblocked q.1 c q.2)) := by
      rw [hs₂]
      unfold Clients.unlinkClient
      dsimp only
      split <;> rfl
    have hpend := h.pending.mem hk
    have hunblocked : k.flags.unblocked = true → c ∈ srv.unblockedClients := h.unblocked c k hk
    have h₁ : unlinkSocket s₂ c k = _ := unlinkSocket_eq (by rw [hs₂]; exact h.mem_clients hk)
    rw [hstart, h₁, Option.bind_some, unlinkPendingWrite_eq (by rw [hs₂]; exact hpend),
      Option.bind_some, unlinkUnblocked_eq (by rw [hs₂]; exact hunblocked), hs₁, hs₂]
    rfl
  · refine ⟨hinv.indexed, hinv.clients, hinv.pending, hinv.toClose, hinv.unblocked, hinv.watched,
      ?_, hinv.monitors⟩
    intro y hy
    show (if srv.currentClient = some c then none else srv.currentClient) ≠ some y
    split
    · simp
    · have hcur := hinv.current y hy
      rw [hs₁] at hcur
      exact hcur

theorem unlinkClient_scheduled (h : Scheduled s) (heq : unlinkClient s c = some s') :
    Scheduled s' := by
  unfold unlinkClient at heq
  split at heq
  · cases heq
  · next k hk =>
      obtain ⟨p, hp, hp₂, hconn, hinv⟩ := unlinkClient_spec h.inv hk
      rw [hp] at heq
      cases heq
      refine h.update hk hinv ?_ ?_ ?_ (fun _ _ h => h) ?_
      · intro y hy
        exact (setConn_eq _ _ _ _).trans ((if_neg hy).trans (congrFun hconn y))
      · intro y _
        exact congrFun (unregister_out s k.fd) y
      · intro f hf
        exact unregister_events s k.fd hf
      · intro k' hk'
        have hsame := Option.some.inj
          (hk'.symm.trans ((setConn_eq p.1 c c p.2).trans (if_pos rfl)))
        rw [hsame, hp₂]
        exact ⟨.inl rfl, fun _ => rfl, fun _ hne => (hne rfl).elim⟩

/-! ## Creating a client, and its flags -/

theorem aeCreateFileEvent_srv (s : State) (fd : Int) (m : Mask) (c : ClientId) (added : Bool) :
    (aeCreateFileEvent s fd m c added).1.srv = s.srv ∧
      (aeCreateFileEvent s fd m c added).1.out = s.out := by
  unfold aeCreateFileEvent
  split
  · exact ⟨rfl, rfl⟩
  · split <;> exact ⟨rfl, rfl⟩

theorem aeCreateFileEvent_events (s : State) (fd : Int) (m : Mask) (c : ClientId) (added : Bool)
    {f : Int} (hf : f ≠ fd) : (aeCreateFileEvent s fd m c added).1.events f = s.events f := by
  unfold aeCreateFileEvent
  split
  · rfl
  · split
    · rfl
    · exact Function.update_of_ne hf _ _

theorem registerRead_out (s : State) (c : ClientId) (fd : Int) (added : Bool) :
    (registerRead s c fd added).1.out = s.out := by
  unfold registerRead
  split
  · exact (aeCreateFileEvent_srv _ _ _ _ _).2
  · rfl

theorem registerRead_events (s : State) (c : ClientId) (fd : Int) (added : Bool) {f : Int}
    (hf : f ≠ fd) : (registerRead s c fd added).1.events f = s.events f := by
  unfold registerRead
  split
  · exact aeCreateFileEvent_events _ _ _ _ _ hf
  · rfl

theorem createClient_scheduled (h : Scheduled s) {fd : Int} {added : Bool}
    (hfd : s.FdUnused fd) (heq : createClient s c fd added = some s') : Scheduled s' := by
  unfold createClient at heq
  dsimp only at heq
  split at heq
  · obtain ⟨srv, hcreate, rfl⟩ := Option.map_eq_some_iff.mp heq
    have hnone : s.srv.conn c = none := by
      unfold Clients.createClient at hcreate
      split at hcreate
      · cases hcreate
      · assumption
    refine h.change (h.inv.createClient hcreate) c fd ?_ ?_ ?_ ?_ (fun _ _ h => h) ?_
    · intro y hy
      unfold Clients.createClient at hcreate
      rw [hnone] at hcreate
      cases hcreate
      dsimp only
      split <;> exact Function.update_of_ne hy _ _
    · intro y hy
      exact (Function.update_of_ne hy _ _).trans (congrFun (registerRead_out s c fd added) y)
    · intro f hf
      exact registerRead_events s c fd added hf
    · intro y k _ hk hne hsame
      exact hfd (hsame ▸ hne) y k hk hsame
    · intro k' hk'
      have hsame := Option.some.inj (hk'.symm.trans (createClient_conn hcreate))
      rw [hsame]
      refine ⟨.inr rfl, (fun hlua => by cases hlua), ?_⟩
      rintro - - - - hpend
      have hempty : clientHasPendingReplies (Function.update (registerRead s c fd added).1.out c
          Output.empty c) = true := hpend
      rw [Function.update_self] at hempty
      cases hempty
  · cases heq
    exact h

theorem markClient_scheduled (h : Scheduled s) {m : Marks}
    (heq : markClient s c m = some s') : Scheduled s' := by
  unfold markClient at heq
  split at heq
  · cases heq
  · next k hk =>
      split at heq
      · cases heq
      · next hguard =>
          obtain ⟨srv, hmark, rfl⟩ := Option.map_eq_some_iff.mp heq
          have hinv := h.inv.markClient hmark
          unfold Clients.markClient at hmark
          rw [hk] at hmark
          cases hmark
          refine h.update hk hinv ?_ (fun _ _ => rfl) (fun _ _ => rfl) (fun _ _ h => h) ?_
          · intro y hy
            exact (setConn_eq _ _ _ _).trans (if_neg hy)
          · intro k' hk'
            have hsame := Option.some.inj
              (hk'.symm.trans ((setConn_eq _ _ _ _).trans (if_pos rfl)))
            rw [hsame]
            refine ⟨.inr rfl, ?_, ?_⟩
            · intro hlua
              by_contra hne
              exact hguard (.inl ⟨hlua, hne⟩)
            · intro hx hne hnone hopen hpend
              refine h.served c k hx hk hne ?_ hopen hpend
              by_contra hsome
              exact hguard (.inr ⟨hnone, hsome⟩)

/-! ## Replies -/

/-- What `prepareClientToWrite` does: when it accepts for an ordinary client without output,
the client is on the list. -/
theorem prepare_scheduled (h : Scheduled s) {r : Clients.Server × Bool}
    (heq : prepareClientToWrite s.srv c (clientHasPendingReplies (s.out c)) = some r) :
    Scheduled { s with srv := r.1 } ∧ ∃ k, r.1.conn c = some k ∧
      (r.2 = true → k.fd ≠ -1 → k.replstate = .none → k.flags.closeAsap = false →
        k.flags.pendingWrite = true ∨ Handled s c k) := by
  have hinv := h.inv.prepareClientToWrite heq
  unfold Clients.prepareClientToWrite at heq
  split at heq
  · cases heq
  · next k hk =>
      split at heq
      · next hlua =>
          cases heq
          exact ⟨h, k, hk, fun _ hne => (hne (h.lua c k hk hlua)).elim⟩
      split at heq
      · cases heq
        exact ⟨h, k, hk, fun hno => by cases hno⟩
      split at heq
      · cases heq
        refine ⟨h.update hk hinv ?_ (fun _ _ => rfl) (fun _ _ => rfl) (fun _ _ h => h) ?_,
          _, Function.update_self _ _ _, fun _ _ _ _ => .inl rfl⟩
        · intro y hy
          exact Function.update_of_ne hy _ _
        · intro k' hk'
          have hsame := Option.some.inj (hk'.symm.trans (Function.update_self _ _ _))
          rw [hsame]
          exact ⟨.inr rfl, h.lua c k hk, fun _ _ _ _ _ => .inl rfl⟩
      · next hno =>
          cases heq
          refine ⟨h, k, hk, fun _ hne hnone hopen => ?_⟩
          rcases hpend : clientHasPendingReplies (s.out c)
          · refine .inl ?_
            by_contra hflag
            rw [Bool.not_eq_true] at hflag
            exact hno (by simp [hpend, hflag, hnone])
          · exact h.served c k (by simp) hk hne hnone hopen hpend

/-- New output of a client of which somebody takes care. -/
theorem setOut_scheduled (h : Scheduled s) (hk : s.srv.conn c = some k)
    (hself : k.fd ≠ -1 → k.replstate = .none → k.flags.closeAsap = false →
      k.flags.pendingWrite = true ∨ Handled s c k) (o : Output) : Scheduled (s.setOut c o) := by
  refine h.update hk h.inv (fun _ _ => rfl) ?_ (fun _ _ => rfl) (fun _ _ h => h) ?_
  · intro y hy
    exact Function.update_of_ne hy _ _
  · intro k' hk'
    have hsame := Option.some.inj (hk'.symm.trans hk)
    subst hsame
    exact ⟨.inr rfl, h.lua c k' hk, fun _ hne hnone hopen _ => hself hne hnone hopen⟩

theorem asyncClose_scheduled (h : Scheduled s) {overLimit : Bool}
    (heq : asyncCloseClient s c overLimit = some s') : Scheduled s' := by
  unfold asyncCloseClient at heq
  split at heq
  · exact freeClientAsync_scheduled h (.inl rfl) heq
  · cases heq
    exact h

theorem glueDeferred_ne {l l' : List Obj} {node len : Nat}
    (h : glueDeferred l node len = some l') : l ≠ [] := by
  rintro rfl
  unfold glueDeferred at h
  rw [List.drop_nil] at h
  cases h

theorem reply_scheduled (h : Scheduled s) {call : ReplyCall} {overLimit : Bool}
    (heq : reply s c overLimit call = some s') : Scheduled s' := by
  rcases call with ⟨len, raw⟩ | _ | ⟨node, len⟩
  · obtain ⟨r, hr, heq⟩ := Option.bind_eq_some_iff.mp heq
    obtain ⟨h₁, k, hk, hcare⟩ := prepare_scheduled h hr
    dsimp only at heq
    rw [hk] at heq
    cases hok : r.2 with
    | false =>
        rw [hok] at heq
        cases heq
        exact h₁
    | true =>
        rw [hok] at heq
        dsimp only [addReply] at heq
        split at heq
        · cases heq
          exact setOut_scheduled h₁ hk (hcare hok) _
        · exact asyncClose_scheduled (setOut_scheduled h₁ hk (hcare hok) _) heq
  · obtain ⟨r, hr, rfl⟩ := Option.map_eq_some_iff.mp heq
    obtain ⟨h₁, k, hk, hcare⟩ := prepare_scheduled h hr
    dsimp only
    split
    · next hok => exact setOut_scheduled h₁ hk (hcare hok) _
    · exact h₁
  · unfold reply at heq
    dsimp only at heq
    split at heq
    · cases heq
    · next k hk =>
        obtain ⟨l, hl, heq⟩ := Option.bind_eq_some_iff.mp heq
        have hpend : clientHasPendingReplies (s.out c) = true := by
          simp [clientHasPendingReplies, glueDeferred_ne hl]
        exact asyncClose_scheduled (setOut_scheduled h hk
          (fun hne hnone hopen => h.served c k (by simp) hk hne hnone hopen hpend) _) heq

/-! ## Writing -/

/-- New output that only goes on what was there. -/
theorem writeOut_scheduled (h : ScheduledBut x s) (hk : s.srv.conn c = some k) {o : Output}
    (hpend : clientHasPendingReplies o = true → clientHasPendingReplies (s.out c) = true) :
    ScheduledBut x (s.setOut c o) := by
  refine h.update hk h.inv (fun _ _ => rfl) ?_ (fun _ _ => rfl) (fun _ _ h => h) ?_
  · intro y hy
    exact Function.update_of_ne hy _ _
  · intro k' hk'
    have hsame := Option.some.inj (hk'.symm.trans hk)
    subst hsame
    refine ⟨.inr rfl, h.lua c k' hk, fun hx hne hnone hopen hp => ?_⟩
    refine h.served c k' hx hk hne hnone hopen (hpend ?_)
    rwa [show (s.setOut c o).out c = o from Function.update_self _ _ _] at hp

/-- A client without output needs no handler. -/
theorem deleteHandler_scheduled (h : ScheduledBut x s) (hk : s.srv.conn c = some k)
    (hempty : clientHasPendingReplies (s.out c) = false) (m : Mask) :
    ScheduledBut x (aeDeleteFileEvent s k.fd m) := by
  obtain ⟨hsrv, hout⟩ := aeDeleteFileEvent_srv s k.fd m
  refine h.update hk (by rw [hsrv]; exact h.inv) (fun y _ => by rw [hsrv])
    (fun y _ => by rw [hout]) (fun f hf => aeDeleteFileEvent_events _ _ _ hf) (fun _ _ h => h) ?_
  intro k' hk'
  rw [hsrv] at hk'
  have hsame := Option.some.inj (hk'.symm.trans hk)
  subst hsame
  refine ⟨.inr rfl, h.lua c k' hk, fun _ _ _ _ hp => ?_⟩
  rw [hout, hempty] at hp
  cases hp

theorem writeToClient_scheduled (h : ScheduledBut x s) (hx : x = none ∨ x = some c)
    {results : List WriteResult} {handlerInstalled : Bool} {r : State × Bool}
    (heq : writeToClient s c results handlerInstalled = some r) :
    if r.2 then ScheduledBut x r.1 else Scheduled r.1 := by
  unfold writeToClient at heq
  split at heq
  · cases heq
  · next k hk =>
      split at heq
      · cases heq
      · next o hloop =>
          obtain ⟨s₁, hfree, rfl⟩ := Option.map_eq_some_iff.mp heq
          exact freeClient_scheduled (writeOut_scheduled h hk (writeLoop_pending hloop)) hx hfree
      · next o hloop =>
          split at heq
          · cases heq
            exact writeOut_scheduled h hk (writeLoop_pending hloop)
          · next hempty =>
              rw [Bool.not_eq_true] at hempty
              -- everything is written
              have h₁ : ScheduledBut x (s.setOut c { o with sentlen := 0 }) :=
                writeOut_scheduled h hk (fun hp => by
                  rw [show clientHasPendingReplies { o with sentlen := 0 } =
                    clientHasPendingReplies o from rfl, hempty] at hp
                  cases hp)
              have h₂ : ScheduledBut x (if handlerInstalled then
                  aeDeleteFileEvent (s.setOut c { o with sentlen := 0 }) k.fd .writable
                  else s.setOut c { o with sentlen := 0 }) := by
                split
                · refine deleteHandler_scheduled h₁ hk ?_ .writable
                  rw [show (s.setOut c { o with sentlen := 0 }).out c = { o with sentlen := 0 } from
                    Function.update_self _ _ _]
                  exact hempty
                · exact h₁
              dsimp only at heq
              split at heq
              · obtain ⟨s₁, hfree, rfl⟩ := Option.map_eq_some_iff.mp heq
                exact freeClient_scheduled h₂ hx hfree
              · cases heq
                exact h₂

theorem aeCreateFileEvent_ok {added : Bool} {fd : Int}
    (hok : (aeCreateFileEvent s fd .writable c added).2 = true) :
    ((aeCreateFileEvent s fd .writable c added).1.events fd).writable = true ∧
      ((aeCreateFileEvent s fd .writable c added).1.events fd).clientData = some c := by
  unfold aeCreateFileEvent at hok ⊢
  split at hok
  · cases hok
  · next hfd =>
      split at hok
      · cases hok
      · next hadded =>
          rw [if_neg hfd, if_neg hadded]
          simp only [State.setEvent, Function.update_self, FileEvent.add, and_self]

theorem aeCreateFileEvent_err {added : Bool} {fd : Int} {m : Mask}
    (herr : ¬ (aeCreateFileEvent s fd m c added).2 = true) :
    (aeCreateFileEvent s fd m c added).1 = s := by
  unfold aeCreateFileEvent at herr ⊢
  split
  · rfl
  · next hfd =>
      split
      · rfl
      · next hadded =>
          rw [if_neg hfd, if_neg hadded] at herr
          exact (herr rfl).elim

/-- With the handler, somebody takes care of the client again. -/
theorem installHandler_scheduled (h : ScheduledBut (some c) s) {added : Bool}
    (heq : installHandler s c added = some s') : Scheduled s' := by
  unfold installHandler at heq
  split at heq
  · cases heq
  · next k hk =>
      split at heq
      · dsimp only at heq
        obtain ⟨hsrv, hout⟩ := aeCreateFileEvent_srv s k.fd .writable c added
        split at heq
        · next hok =>
            cases heq
            refine h.update hk (by rw [hsrv]; exact h.inv) (fun y _ => by rw [hsrv])
              (fun y _ => by rw [hout]) (fun f hf => aeCreateFileEvent_events _ _ _ _ _ hf) ?_ ?_
            · intro y hy _ hsame
              exact hy (Option.some.inj hsame).symm
            · intro k' hk'
              rw [hsrv] at hk'
              have hsame := Option.some.inj (hk'.symm.trans hk)
              subst hsame
              refine ⟨.inr rfl, h.lua c k' hk, fun _ _ _ _ _ => .inr ?_⟩
              exact aeCreateFileEvent_ok hok
        · next hfail =>
            rw [aeCreateFileEvent_err hfail] at heq
            exact freeClientAsync_scheduled h (.inr rfl) heq
      · next hempty =>
          cases heq
          refine ⟨h.inv, h.fds, h.lua, fun y k' _ hk' => ?_⟩
          by_cases hy : y = c
          · subst hy
            intro _ _ _ hp
            exact (hempty hp).elim
          · exact h.served y k' (fun hsame => hy (Option.some.inj hsame).symm) hk'

theorem takePending_scheduled (h : Scheduled s) (hk : s.srv.conn c = some k) :
    ScheduledBut (some c) (takePending s c k) := by
  have hinv : Clients.Inv (takePending s c k).srv :=
    h.inv.put rfl h.inv.indexed (h.inv.clients.keep hk rfl) (h.inv.pending.clear rfl)
      (h.inv.toClose.keep hk rfl) (fun _ hx => hx) (fun hu => h.inv.unblocked c k hk hu)
      (fun _ _ => rfl) rfl rfl
  refine h.update hk hinv ?_ (fun _ _ => rfl) (fun _ _ => rfl) (fun _ _ _ => by simp) ?_
  · intro y hy
    exact Function.update_of_ne hy _ _
  · intro k' hk'
    have hsame := Option.some.inj (hk'.symm.trans (Function.update_self _ _ _))
    rw [hsame]
    exact ⟨.inr rfl, h.lua c k hk, fun hx => (hx rfl).elim⟩

theorem handlePendingWrite_scheduled (h : Scheduled s) {results : ClientId → List WriteResult}
    {added : ClientId → Bool} (heq : handlePendingWrite results added s c = some s') :
    Scheduled s' := by
  unfold handlePendingWrite at heq
  split at heq
  · cases heq
  · next k hk =>
      obtain ⟨r, hwrite, heq⟩ := Option.bind_eq_some_iff.mp heq
      have hafter := writeToClient_scheduled (takePending_scheduled h hk) (.inr rfl) hwrite
      cases hok : r.2 with
      | true =>
          rw [hok, if_pos rfl] at hafter heq
          exact installHandler_scheduled hafter heq
      | false =>
          rw [hok] at hafter heq
          cases heq
          exact hafter

theorem handlePending_scheduled {results : ClientId → List WriteResult}
    {added : ClientId → Bool} : ∀ (l : List ClientId) {s : State}, Scheduled s →
    l.foldlM (handlePendingWrite results added) s = some s' → Scheduled s' := by
  intro l
  induction l with
  | nil =>
      intro s h heq
      cases heq
      exact h
  | cons c rest ih =>
      intro s h heq
      rw [List.foldlM_cons] at heq
      obtain ⟨s₁, h₁, heq⟩ := Option.bind_eq_some_iff.mp heq
      exact ih (handlePendingWrite_scheduled h h₁) heq

/-! ## Runs keep the invariant -/

/-- A call of `writeToClient` between two steps. -/
theorem write_scheduled (h : Scheduled s) {results : List WriteResult} {handlerInstalled : Bool}
    (heq : (writeToClient s c results handlerInstalled).map Prod.fst = some s') : Scheduled s' := by
  obtain ⟨r, hwrite, rfl⟩ := Option.map_eq_some_iff.mp heq
  have hafter := writeToClient_scheduled h (.inl rfl) hwrite
  split at hafter <;> exact hafter

theorem act_scheduled (h : Scheduled s) {a : Step} (hallowed : Allowed s a)
    (heq : act s a = some s') : Scheduled s' := by
  cases a with
  | createClient c fd added => exact createClient_scheduled h hallowed heq
  | mark c m => exact markClient_scheduled h heq
  | reply c call overLimit => exact reply_scheduled h heq
  | handleClientsWithPendingWrites results added => exact handlePending_scheduled _ h heq
  | writeToClient c results handlerInstalled => exact write_scheduled h heq
  | writable fd results =>
      unfold act writableEvent at heq
      dsimp only at heq
      split at heq
      · split at heq
        · cases heq
        · exact write_scheduled h heq
      · cases heq
        exact h
  | unlinkClient c => exact unlinkClient_scheduled h heq
  | freeClient c => exact freeClient_scheduled h (.inl rfl) heq
  | freeClientAsync c => exact freeClientAsync_scheduled h (.inl rfl) heq
  | freeClientsInAsyncFreeQueue =>
      obtain ⟨s₁, hrun, h₁⟩ := freeQueue_scheduled _ h rfl
      have hsame := Option.some.inj (heq.symm.trans hrun)
      rw [hsame]
      exact h₁

theorem Reaches.scheduled : ∀ (steps : List Step) {s : State}, Scheduled s →
    Reaches s steps s' → Scheduled s' := by
  intro steps
  induction steps with
  | nil =>
      intro s h heq
      rw [show s' = s from heq]
      exact h
  | cons a rest ih =>
      rintro s h ⟨hallowed, s₁, heq, hrest⟩
      exact ih (act_scheduled h hallowed heq) hrest

/-- **Pending writes.**  In every state that is reached, a client is on the list of pending
writes exactly once if it has the flag, and else not at all; and an ordinary client with
output is on the list or has the write handler. -/
theorem pending_writes_scheduled (dbnum : Nat) (setsize : Int) (steps : List Step) (s : State)
    (h : Reaches (init dbnum setsize) steps s) :
    (∀ c, s.srv.clientsPendingWrite.count c =
      if ∃ k, s.srv.conn c = some k ∧ k.flags.pendingWrite = true then 1 else 0) ∧
    ∀ c k, s.srv.conn c = some k → k.fd ≠ -1 → k.replstate = .none → k.flags.closeAsap = false →
      clientHasPendingReplies (s.out c) = true →
      c ∈ s.srv.clientsPendingWrite ∨ Handled s c k := by
  have hs := Reaches.scheduled steps (init_scheduled dbnum setsize) h
  obtain ⟨hnodup, hmem⟩ := hs.inv.pending
  constructor
  · intro c
    split
    · next hflag => exact List.count_eq_one_of_mem hnodup ((hmem c).mpr hflag)
    · next hflag => exact List.count_eq_zero_of_not_mem fun hc => hflag ((hmem c).mp hc)
  · intro c k hk hne hnone hopen hpend
    rcases hs.served c k (by simp) hk hne hnone hopen hpend with hflag | hhandled
    · exact .inl ((hmem c).mpr ⟨k, hk, hflag⟩)
    · exact .inr hhandled

/-- A reply that the socket takes only in part. -/
def partlyWritten : List Step :=
  [.createClient 1 5 true, .reply 1 (.add 10 false) false,
    .handleClientsWithPendingWrites (fun _ => [.took 4 false]) (fun _ => true)]

theorem pending_writes_scheduled_partly :
    ∃ s k, Reaches (init 1 100) partlyWritten s ∧ s.srv.conn 1 = some k ∧
      (1 ∈ s.srv.clientsPendingWrite ∨ Handled s 1 k) := by
  have hrun : Reaches (init 1 100) partlyWritten _ :=
    ⟨(fun _ _ _ hk => by cases hk), _, rfl, trivial, _, rfl, trivial, _, rfl, rfl⟩
  exact ⟨_, _, hrun, rfl, (pending_writes_scheduled 1 100 partlyWritten _ hrun).2 1 _ rfl
    (by decide) rfl rfl rfl⟩

end PendingWrites

end RedisCore
