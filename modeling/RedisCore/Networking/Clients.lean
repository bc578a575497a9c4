/-
# `RedisCore.Networking.Clients` — the lists a client is on (networking.c, replication.c)

A client is created, put on lists, and freed.  `freeClient` takes it off the list of
clients, off the lists that a flag of the client announces (pending writes, unblocked
clients, clients to close) and out of the WATCH index.  What would take it off the
lists of slaves and of clients waiting for acknowledgements, and out of
`server.master`, is commented out, in `freeClient` and in `unblockClient`.

Memory is explicit: `conn` is `none` where no client lives, an access to a client that
is not there makes the step fail, and `createClient` may be given any address that is
not in use, also one a freed client had.  `freed` records the calls of `zfree`.

The replication code is modelled by the procedures of replication.c that put a client
on a list.  Where a branch depends on data that no list depends on (whether output is
pending, whether the link with the master is up, whether the time is up), the step
takes the answer as an argument.
-/
import RedisCore.Multi
import RedisCore.Lib.Tracked

namespace RedisCore

namespace Clients

open Tracked

/-- `replstate` of a client. -/
inductive ReplState where
  | none
  | waitBgsaveStart
  | waitBgsaveEnd
  | sendBulk
  | online
  deriving DecidableEq

/-- The flags of a client, each under the name of its `CLIENT_` constant. -/
structure Flags where
  slave : Bool
  master : Bool
  monitor : Bool
  blocked : Bool
  unblocked : Bool
  closeAsap : Bool
  closeAfterReply : Bool
  pendingWrite : Bool
  lua : Bool
  masterForceReply : Bool
  replyOff : Bool
  replySkip : Bool
  deriving DecidableEq

/-- The fields of a `client` that decide which lists it is on. -/
structure Conn where
  fd : Int
  flags : Flags
  replstate : ReplState
  replPutOnlineOnAck : Bool
  deriving DecidableEq

/-- The lists of `server`, the clients in memory, and what transactions need. -/
structure Server where
  conn : ClientId → Option Conn
  clients : List ClientId
  clientsPendingWrite : List ClientId
  unblockedClients : List ClientId
  clientsToClose : List ClientId
  clientsWaitingAcks : List ClientId
  slaves : List ClientId
  monitors : List ClientId
  master : Option ClientId
  currentClient : Option ClientId
  clientsPaused : Bool
  tx : Multi.Server
  freed : List ClientId

/-- Overwrite the fields of a client. -/
def Server.setConn (s : Server) (c : ClientId) (k : Conn) : Server :=
  { s with conn := Function.update s.conn c (some k) }

/-- `listSearchKey`, the assertion that there is a node, and `listDelNode`. -/
def searchDel (l : List ClientId) (c : ClientId) : Option (List ClientId) :=
  if c ∈ l then some (l.erase c) else none

/-! ## Creating and freeing a client -/

def Flags.fresh : Flags :=
  ⟨false, false, false, false, false, false, false, false, false, false, false, false⟩

/-- `createClient` at an address that is not in use; `fd = -1` makes a fake client. -/
def createClient (s : Server) (c : ClientId) (fd : Int) : Option Server :=
  match s.conn c with
  | some _ => none
  | none =>
      let s := s.setConn c ⟨fd, Flags.fresh, .none, false⟩
      let s := { s with tx := s.tx.setClient c ⟨0, [], false, false, false, []⟩ }
      some (if fd ≠ -1 then { s with clients := s.clients ++ [c] } else s)

/-- The part of `unlinkClient` for a client with a socket. -/
def unlinkSocket (s : Server) (c : ClientId) (k : Conn) : Option (Server × Conn) :=
  if k.fd = -1 then some (s, k)
  else (searchDel s.clients c).map (fun l => ({ s with clients := l }, { k with fd := -1 }))

/-- The part of `unlinkClient` for pending writes. -/
def unlinkPendingWrite (s : Server) (c : ClientId) (k : Conn) : Option (Server × Conn) :=
  if k.flags.pendingWrite then
    (searchDel s.clientsPendingWrite c).map (fun l =>
      ({ s with clientsPendingWrite := l }, { k with flags := { k.flags with pendingWrite := false } }))
  else some (s, k)

/-- The part of `unlinkClient` for unblocked clients. -/
def unlinkUnblocked (s : Server) (c : ClientId) (k : Conn) : Option (Server × Conn) :=
  if k.flags.unblocked then
    (searchDel s.unblockedClients c).map (fun l =>
      ({ s with unblockedClients := l }, { k with flags := { k.flags with unblocked := false } }))
  else some (s, k)

/-- `unlinkClient`, of a client whose fields are `k`. -/
def unlinkClient (s : Server) (c : ClientId) (k : Conn) : Option (Server × Conn) :=
  let s := if s.currentClient = some c then { s with currentClient := none } else s
  (unlinkSocket s c k).bind (fun p =>
    (unlinkPendingWrite p.1 c p.2).bind (fun q => unlinkUnblocked q.1 c q.2))

/-- `unblockClient`, whose body is commented out. -/
def unblockClient (s : Server) (_c : ClientId) : Server := s

/-- The end of `freeClient`: the queue of clients to close, and `zfree`. -/
def releaseClient (s : Server) (c : ClientId) (k : Conn) : Option Server :=
  (if k.flags.closeAsap then searchDel s.clientsToClose c else some s.clientsToClose).map (fun l =>
    { s with clientsToClose := l, conn := Function.update s.conn c none, freed := s.freed ++ [c] })

/-- `freeClient`. -/
def freeClient (s : Server) (c : ClientId) : Option Server :=
  match s.conn c with
  | none => none
  | some k =>
      let s := if k.flags.blocked then unblockClient s c else s
      (Multi.unwatchAllKeys s.tx c).bind (fun tx =>
        (unlinkClient { s with tx := tx } c k).bind (fun p => releaseClient p.1 c p.2))

/-- `freeClientAsync`. -/
def freeClientAsync (s : Server) (c : ClientId) : Option Server :=
  match s.conn c with
  | none => none
  | some k =>
      if k.flags.closeAsap || k.flags.lua then some s
      else
        let s := s.setConn c { k with flags := { k.flags with closeAsap := true } }
        some { s with clientsToClose := s.clientsToClose ++ [c] }

/-- One round of `freeClientsInAsyncFreeQueue`, on the head of the queue. -/
def freeQueued (s : Server) (c : ClientId) : Option Server :=
  match s.conn c with
  | none => none
  | some k =>
      (freeClient (s.setConn c { k with flags := { k.flags with closeAsap := false } }) c).map
        (fun s => { s with clientsToClose := s.clientsToClose.tail })

/-- `freeClientsInAsyncFreeQueue`, for at most `fuel` rounds. -/
def freeClientsInAsyncFreeQueue : Nat → Server → Option Server
  | 0, s => if s.clientsToClose = [] then some s else none
  | fuel + 1, s =>
      match s.clientsToClose with
      | [] => some s
      | c :: _ => (freeQueued s c).bind (freeClientsInAsyncFreeQueue fuel)

/-- `disconnectSlaves`, for at most `fuel` rounds. -/
def disconnectSlaves : Nat → Server → Option Server
  | 0, s => if s.slaves = [] then some s else none
  | fuel + 1, s =>
      match s.slaves with
      | [] => some s
      | c :: _ => (freeClient s c).bind (disconnectSlaves fuel)

/-! ## What puts a client on a list -/

/-- The first half of `prepareClientToWrite`: the client takes no replies. -/
def Conn.refusesReplies (k : Conn) : Bool :=
  !k.flags.lua && (k.flags.replyOff || k.flags.replySkip ||
    (k.flags.master && !k.flags.masterForceReply) || decide (k.fd ≤ 0))

/-- What `prepareClientToWrite` answers. -/
def Conn.accepts (k : Conn) : Bool := k.flags.lua || !k.refusesReplies

/-- `prepareClientToWrite`: whether the caller may add to the output of the client.
`pending` is `clientHasPendingReplies`. -/
def prepareClientToWrite (s : Server) (c : ClientId) (pending : Bool) : Option (Server × Bool) :=
  match s.conn c with
  | none => none
  | some k =>
      if k.flags.lua then some (s, true)
      else if k.refusesReplies then some (s, false)
      else if !pending && !k.flags.pendingWrite && (k.replstate == .none ||
          (k.replstate == .online && !k.replPutOnlineOnAck)) then
        let s := s.setConn c { k with flags := { k.flags with pendingWrite := true } }
        some ({ s with clientsPendingWrite := c :: s.clientsPendingWrite }, true)
      else some (s, true)

/-- How an attempt to write the output of a client can end: the client is freed, it
stays, or it stays and installing the write handler fails. -/
inductive WriteOutcome where
  | freed
  | kept
  | handlerFailed

/-- The body of the loop of `handleClientsWithPendingWrites`. -/
def handlePendingWrite (outcome : ClientId → WriteOutcome) (s : Server) (c : ClientId) :
    Option Server :=
  match s.conn c with
  | none => none
  | some k =>
      let s := s.setConn c { k with flags := { k.flags with pendingWrite := false } }
      let s := { s with clientsPendingWrite := s.clientsPendingWrite.erase c }
      match outcome c with
      | .freed => freeClient s c
      | .kept => some s
      | .handlerFailed => freeClientAsync s c

/-- `handleClientsWithPendingWrites`. -/
def handleClientsWithPendingWrites (s : Server) (outcome : ClientId → WriteOutcome) :
    Option Server :=
  s.clientsPendingWrite.foldlM (handlePendingWrite outcome) s

/-- What `clientsArePaused` does with one client at the end of the pause. -/
def unpauseClient (s : Server) (c : ClientId) : Option Server :=
  match s.conn c with
  | none => none
  | some k =>
      if k.flags.slave || k.flags.blocked then some s
      else
        let s := s.setConn c { k with flags := { k.flags with unblocked := true } }
        some { s with unblockedClients := s.unblockedClients ++ [c] }

/-- `clientsArePaused`; `ended` says that the end of the pause has passed. -/
def clientsArePaused (s : Server) (ended : Bool) : Option Server :=
  if s.clientsPaused && ended then s.clients.foldlM unpauseClient { s with clientsPaused := false }
  else some s

/-- Make a client a slave, as `syncCommand` and `masterTryPartialResynchronization` do. -/
def addSlave (s : Server) (c : ClientId) (k : Conn) (state : ReplState) : Server :=
  let s := s.setConn c { k with flags := { k.flags with slave := true }, replstate := state }
  { s with slaves := s.slaves ++ [c] }

/-- How `syncCommand` can go on for a client that is no slave yet: it is refused, it
can resynchronise partially (and the first write can fail), or it is to get everything. -/
inductive SyncOutcome where
  | refused
  | partialResync (written : Bool)
  | fullResync

/-- `syncCommand`. -/
def syncCommand (s : Server) (c : ClientId) (outcome : SyncOutcome) : Option Server :=
  match s.conn c with
  | none => none
  | some k =>
      if k.flags.slave then some s
      else
        match outcome with
        | .refused => some s
        | .partialResync true =>
            some (addSlave s c { k with replPutOnlineOnAck := false } .online)
        | .partialResync false =>
            freeClientAsync (addSlave s c { k with replPutOnlineOnAck := false } .online) c
        | .fullResync => some (addSlave s c k .waitBgsaveStart)

/-- What a failed `startBgsaveForReplication` does with one slave. -/
def dropSlave (s : Server) (c : ClientId) : Option Server :=
  match s.conn c with
  | none => none
  | some k =>
      if k.replstate = .waitBgsaveStart then
        let s := s.setConn c { k with flags := { k.flags with slave := false } }
        some { s with slaves := s.slaves.erase c }
      else some s

/-- `startBgsaveForReplication` when the BGSAVE fails. -/
def startBgsaveForReplication (s : Server) : Option Server := s.slaves.foldlM dropSlave s

/-- `waitCommand`; `enough` says that it answers at once.  `blocked` is what
`blockClient`, which server.h declares, makes of `CLIENT_BLOCKED`. -/
def waitCommand (s : Server) (c : ClientId) (enough blocked : Bool) : Option Server :=
  match s.conn c with
  | none => none
  | some k =>
      if enough then some s
      else
        let s := s.setConn c { k with flags := { k.flags with blocked := blocked } }
        some { s with clientsWaitingAcks := s.clientsWaitingAcks ++ [c] }

/-- `replicationCreateMasterClient`. -/
def replicationCreateMasterClient (s : Server) (c : ClientId) (fd : Int) : Option Server :=
  (createClient s c fd).map (fun s =>
    { s.setConn c ⟨fd, { Flags.fresh with master := true }, .none, false⟩ with master := some c })

/-- The flags and states that no list depends on. -/
structure Marks where
  closeAfterReply : Bool
  lua : Bool
  masterForceReply : Bool
  replyOff : Bool
  replySkip : Bool
  replstate : ReplState
  replPutOnlineOnAck : Bool

/-- Change what no list depends on, as CLIENT REPLY or REPLCONF do. -/
def markClient (s : Server) (c : ClientId) (m : Marks) : Option Server :=
  match s.conn c with
  | none => none
  | some k =>
      let flags := { k.flags with
        closeAfterReply := m.closeAfterReply, lua := m.lua, masterForceReply := m.masterForceReply,
        replyOff := m.replyOff, replySkip := m.replySkip }
      some (s.setConn c ⟨k.fd, flags, m.replstate, m.replPutOnlineOnAck⟩)

/-! ## Runs -/

/-- What can happen to the clients. -/
inductive Action where
  | createClient (c : ClientId) (fd : Int)
  | freeClient (c : ClientId)
  | freeClientAsync (c : ClientId)
  | freeClientsInAsyncFreeQueue
  | prepareClientToWrite (c : ClientId) (pending : Bool)
  | handleClientsWithPendingWrites (outcome : ClientId → WriteOutcome)
  | pauseClients
  | clientsArePaused (ended : Bool)
  | startInput (c : ClientId)
  | endInput
  | syncCommand (c : ClientId) (outcome : SyncOutcome)
  | startBgsaveForReplication
  | waitCommand (c : ClientId) (enough blocked : Bool)
  | replicationCreateMasterClient (c : ClientId) (fd : Int)
  | markClient (c : ClientId) (m : Marks)
  | watchForKey (c : ClientId) (key : Bytes)
  | unwatchAllKeys (c : ClientId)
  | selectDb (c : ClientId) (id : Int)
  | writeData (dbs : Nat → RedisDb)

/-- One step.  `startInput` and `endInput` are the two assignments to `current_client`
in `processInputBuffer`; `writeData` stands for any command on the data, which leaves
the WATCH index alone. -/
def act (s : Server) : Action → Option Server
  | .createClient c fd => createClient s c fd
  | .freeClient c => freeClient s c
  | .freeClientAsync c => freeClientAsync s c
  | .freeClientsInAsyncFreeQueue => freeClientsInAsyncFreeQueue s.clientsToClose.length s
  | .prepareClientToWrite c pending => (prepareClientToWrite s c pending).map Prod.fst
  | .handleClientsWithPendingWrites outcome => handleClientsWithPendingWrites s outcome
  | .pauseClients => some { s with clientsPaused := true }
  | .clientsArePaused ended => clientsArePaused s ended
  | .startInput c => (s.conn c).map (fun _ => { s with currentClient := some c })
  | .endInput => some { s with currentClient := none }
  | .syncCommand c outcome => syncCommand s c outcome
  | .startBgsaveForReplication => startBgsaveForReplication s
  | .waitCommand c enough blocked => waitCommand s c enough blocked
  | .replicationCreateMasterClient c fd => replicationCreateMasterClient s c fd
  | .markClient c m => markClient s c m
  | .watchForKey c key => (s.conn c).map (fun _ => { s with tx := Multi.watchForKey s.tx c key })
  | .unwatchAllKeys c =>
      (s.conn c).bind (fun _ => (Multi.unwatchAllKeys s.tx c).map (fun tx => { s with tx := tx }))
  | .selectDb c id => (s.conn c).map (fun _ => { s with tx := Multi.selectDb s.tx c id })
  | .writeData dbs =>
      let index := fun d => (s.tx.dbs d).watchedKeys
      some { s with tx := { s.tx with dbs := fun d => { dbs d with watchedKeys := index d } } }

/-- The server after `initServer`. -/
def init (dbnum : Nat) : Server where
  conn := fun _ => none
  clients := []
  clientsPendingWrite := []
  unblockedClients := []
  clientsToClose := []
  clientsWaitingAcks := []
  slaves := []
  monitors := []
  master := none
  currentClient := none
  clientsPaused := false
  tx := Multi.init dbnum
  freed := []

/-- A run from the start. -/
def Reaches (dbnum : Nat) (actions : List Action) (s : Server) : Prop :=
  actions.foldlM act (init dbnum) = some s

/-! ## The lists and the flags agree -/

variable {s s' : Server} {c : ClientId} {k k' : Conn}

/-- What holds between two steps. -/
structure Inv (s : Server) : Prop where
  indexed : Multi.Indexed s.tx
  clients : Tracks s.conn (fun k => decide (k.fd ≠ -1)) s.clients
  pending : Tracks s.conn (fun k => k.flags.pendingWrite) s.clientsPendingWrite
  toClose : Tracks s.conn (fun k => k.flags.closeAsap) s.clientsToClose
  unblocked : ∀ c k, s.conn c = some k → k.flags.unblocked = true → c ∈ s.unblockedClients
  watched : ∀ c, s.conn c = none → (s.tx.clients c).watchedKeys = []
  current : ∀ c, s.conn c = none → s.currentClient ≠ some c
  monitors : s.monitors = []

theorem init_inv (dbnum : Nat) : Inv (init dbnum) where
  indexed := (Multi.init_good dbnum).indexed
  clients := tracks_nil
  pending := tracks_nil
  toClose := tracks_nil
  unblocked := fun _ _ hk => absurd hk (by simp [init])
  watched := fun _ _ => rfl
  current := fun _ _ => by simp [init]
  monitors := rfl

theorem setConn_eq (s : Server) (c x : ClientId) (k : Conn) :
    (s.setConn c k).conn x = if x = c then some k else s.conn x := by
  simp only [Server.setConn, Function.update_apply]

/-- A step that writes the fields of one client, and perhaps enlists it. -/
theorem Inv.put (h : Inv s) (hconn : s'.conn = Function.update s.conn c (some k'))
    (hi : Multi.Indexed s'.tx) (hcl : Tracks s'.conn (fun k => decide (k.fd ≠ -1)) s'.clients)
    (hp : Tracks s'.conn (fun k => k.flags.pendingWrite) s'.clientsPendingWrite)
    (hq : Tracks s'.conn (fun k => k.flags.closeAsap) s'.clientsToClose)
    (hu : ∀ x ∈ s.unblockedClients, x ∈ s'.unblockedClients)
    (huc : k'.flags.unblocked = true → c ∈ s'.unblockedClients)
    (hw : ∀ x, x ≠ c → s'.tx.clients x = s.tx.clients x)
    (hcur : s'.currentClient = s.currentClient) (hm : s'.monitors = s.monitors) : Inv s' := by
  have hother : ∀ x, x ≠ c → s'.conn x = s.conn x := fun x hx => by
    rw [hconn, Function.update_of_ne hx]
  have hself : s'.conn c = some k' := by rw [hconn, Function.update_self]
  have hne : ∀ x, s'.conn x = none → x ≠ c := by
    rintro x hx rfl
    rw [hself] at hx
    exact absurd hx (by simp)
  refine ⟨hi, hcl, hp, hq, fun x kx hx hux => ?_, fun x hx => ?_, fun x hx => ?_,
    hm.trans h.monitors⟩
  · by_cases hxc : x = c
    · rw [hxc] at hx ⊢
      rw [hself] at hx
      cases hx
      exact huc hux
    · rw [hother x hxc] at hx
      exact hu x (h.unblocked x kx hx hux)
  · rw [hw x (hne x hx)]
    exact h.watched x (by rw [← hother x (hne x hx)]; exact hx)
  · rw [hcur]
    exact h.current x (by rw [← hother x (hne x hx)]; exact hx)

/-- Change a client without touching the flags of the lists. -/
theorem Inv.setConn (h : Inv s) (hk : s.conn c = some k) (hfd : k'.fd = k.fd)
    (hp : k'.flags.pendingWrite = k.flags.pendingWrite)
    (hq : k'.flags.closeAsap = k.flags.closeAsap)
    (hu : k'.flags.unblocked = k.flags.unblocked) : Inv (s.setConn c k') :=
  h.put rfl h.indexed (h.clients.keep hk (by rw [hfd])) (h.pending.keep hk hp)
    (h.toClose.keep hk hq) (fun _ hx => hx) (fun huc => h.unblocked c k hk (hu ▸ huc))
    (fun _ _ => rfl) rfl rfl

/-! ## Freeing a client -/

/-- The server without the client: the lists that a flag announces have lost it. -/
def afterFree (s : Server) (tx : Multi.Server) (c : ClientId) (k : Conn) : Server :=
  { s with
    conn := Function.update s.conn c none
    clients := s.clients.erase c
    clientsPendingWrite := s.clientsPendingWrite.erase c
    unblockedClients :=
      if k.flags.unblocked then s.unblockedClients.erase c else s.unblockedClients
    clientsToClose := s.clientsToClose.erase c
    currentClient := if s.currentClient = some c then none else s.currentClient
    tx := tx
    freed := s.freed ++ [c] }

theorem unlinkSocket_eq (hcl : c ∈ s.clients ↔ k.fd ≠ -1) :
    unlinkSocket s c k = some ({ s with clients := s.clients.erase c }, { k with fd := -1 }) := by
  unfold unlinkSocket searchDel
  by_cases hfd : k.fd = -1
  · have hout : c ∉ s.clients := fun hin => hcl.mp hin hfd
    rw [if_pos hfd, List.erase_of_not_mem hout, ← hfd]
  · rw [if_neg hfd, if_pos (hcl.mpr hfd)]
    rfl

theorem unlinkPendingWrite_eq (hp : c ∈ s.clientsPendingWrite ↔ k.flags.pendingWrite = true) :
    unlinkPendingWrite s c k = some ({ s with clientsPendingWrite := s.clientsPendingWrite.erase c },
      { k with flags := { k.flags with pendingWrite := false } }) := by
  unfold unlinkPendingWrite searchDel
  cases hflag : k.flags.pendingWrite with
  | false =>
      have hout : c ∉ s.clientsPendingWrite := fun hin => by simp [hp.mp hin] at hflag
      have hsame : { k with flags := { k.flags with pendingWrite := false } } = k := by rw [← hflag]
      rw [List.erase_of_not_mem hout, hsame]
      rfl
  | true =>
      rw [if_pos rfl, if_pos (hp.mpr hflag)]
      rfl

theorem unlinkUnblocked_eq (hu : k.flags.unblocked = true → c ∈ s.unblockedClients) :
    unlinkUnblocked s c k = some ({ s with unblockedClients :=
        if k.flags.unblocked then s.unblockedClients.erase c else s.unblockedClients },
      { k with flags := { k.flags with unblocked := false } }) := by
  unfold unlinkUnblocked searchDel
  cases hflag : k.flags.unblocked with
  | false =>
      have hsame : { k with flags := { k.flags with unblocked := false } } = k := by rw [← hflag]
      rw [hsame]
      rfl
  | true =>
      rw [if_pos rfl, if_pos (hu hflag)]
      rfl

/-- What `freeClient` needs of the state, and what it comes to. -/
theorem freeClient_eq (hi : Multi.Indexed s.tx) (hk : s.conn c = some k)
    (hcl : c ∈ s.clients ↔ k.fd ≠ -1)
    (hp : c ∈ s.clientsPendingWrite ↔ k.flags.pendingWrite = true)
    (hu : k.flags.unblocked = true → c ∈ s.unblockedClients)
    (hq : k.flags.closeAsap = true → c ∈ s.clientsToClose) :
    ∃ tx, Multi.unwatchAllKeys s.tx c = some tx ∧ freeClient s c = some { afterFree s tx c k with
      clientsToClose := if k.flags.closeAsap then s.clientsToClose.erase c else s.clientsToClose } := by
  obtain ⟨tx, htx, _⟩ := Multi.unwatchAllKeys_spec hi c
  refine ⟨tx, htx, ?_⟩
  obtain ⟨s₁, hs₁⟩ : ∃ s₁ : Server, s₁ = { s with
    tx := tx
    currentClient := if s.currentClient = some c then none else s.currentClient } := ⟨_, rfl⟩
  have hstart : freeClient s c = (unlinkSocket s₁ c k).bind (fun p =>
      ((unlinkPendingWrite p.1 c p.2).bind (fun q => unlinkUnblocked q.1 c q.2)).bind
        (fun p => releaseClient p.1 c p.2)) := by
    rw [hs₁]
    simp only [freeClient, hk, unblockClient, ite_self, htx, Option.bind_some, unlinkClient,
      Option.bind_assoc]
    split <;> rfl
  have h₁ : unlinkSocket s₁ c k = _ := unlinkSocket_eq (by rw [hs₁]; exact hcl)
  rw [hstart, h₁, Option.bind_some, unlinkPendingWrite_eq (by rw [hs₁]; exact hp),
    Option.bind_some, unlinkUnblocked_eq (by rw [hs₁]; exact hu), Option.bind_some, hs₁]
  cases hflag : k.flags.closeAsap with
  | false => simp only [releaseClient, hflag]; rfl
  | true =>
      simp only [releaseClient, hflag, searchDel, if_pos (hq hflag)]
      rfl

theorem afterFree_conn (s : Server) (tx : Multi.Server) (c x : ClientId) (k : Conn) :
    (afterFree s tx c k).conn x = if x = c then none else s.conn x := by
  simp only [afterFree, Function.update_apply]

theorem Inv.mem_clients (h : Inv s) (hk : s.conn c = some k) : c ∈ s.clients ↔ k.fd ≠ -1 := by
  rw [h.clients.mem hk]
  simp

theorem Inv.afterFree (h : Inv s) {tx : Multi.Server} (htx : Multi.unwatchAllKeys s.tx c = some tx)
    (k : Conn) : Inv (afterFree s tx c k) := by
  obtain ⟨tx', htx', hi, _, _, hempty⟩ := Multi.unwatchAllKeys_spec h.indexed c
  rw [htx] at htx'
  cases htx'
  refine ⟨hi, h.clients.free, h.pending.free, h.toClose.free, fun x kx hx hu => ?_, fun x hx => ?_,
    fun x hx => ?_, h.monitors⟩
  · have hxc : x ≠ c := by
      intro hxc
      rw [afterFree_conn, if_pos hxc] at hx
      exact absurd hx (by simp)
    have hmem := h.unblocked x kx (by rwa [afterFree_conn, if_neg hxc] at hx) hu
    simp only [Clients.afterFree]
    split
    · exact (List.mem_erase_of_ne hxc).mpr hmem
    · exact hmem
  · by_cases hxc : x = c
    · rw [hxc]
      exact hempty
    · show (tx.clients x).watchedKeys = []
      rw [Multi.unwatchAllKeys_others htx hxc]
      exact h.watched x (by rwa [afterFree_conn, if_neg hxc] at hx)
  · simp only [Clients.afterFree]
    by_cases hcur : s.currentClient = some c
    · rw [if_pos hcur]
      simp
    · rw [if_neg hcur]
      by_cases hxc : x = c
      · rw [hxc]
        exact hcur
      · exact h.current x (by rwa [afterFree_conn, if_neg hxc] at hx)

/-- **`freeClient`** goes through, and takes the client off what a flag announces. -/
theorem freeClient_spec (h : Inv s) (hk : s.conn c = some k) :
    ∃ tx, Multi.unwatchAllKeys s.tx c = some tx ∧ freeClient s c = some (afterFree s tx c k) ∧
      Inv (afterFree s tx c k) := by
  obtain ⟨tx, htx, heq⟩ := freeClient_eq h.indexed hk (h.mem_clients hk) (h.pending.mem hk)
    (h.unblocked c k hk) (h.toClose.mem hk).mpr
  refine ⟨tx, htx, ?_, h.afterFree htx k⟩
  rw [heq]
  cases hflag : k.flags.closeAsap with
  | true => rfl
  | false =>
      have hout : c ∉ s.clientsToClose := fun hin => by simp [(h.toClose.mem hk).mp hin] at hflag
      simp only [Clients.afterFree, List.erase_of_not_mem hout]
      rfl

/-- A round of `freeClientsInAsyncFreeQueue` frees the head of the queue. -/
theorem freeQueued_spec (h : Inv s) {rest : List ClientId} (hq : s.clientsToClose = c :: rest) :
    ∃ tx k, Multi.unwatchAllKeys s.tx c = some tx ∧ s.conn c = some k ∧
      freeQueued s c = some (afterFree s tx c k) ∧ Inv (afterFree s tx c k) := by
  obtain ⟨k, hk, _⟩ := (h.toClose.2 c).mp (by rw [hq]; exact List.mem_cons_self)
  obtain ⟨k', hk'⟩ : ∃ k', k' = { k with flags := { k.flags with closeAsap := false } } := ⟨_, rfl⟩
  have hfd : k'.fd = k.fd := by rw [hk']
  have hp : k'.flags.pendingWrite = k.flags.pendingWrite := by rw [hk']
  have hu : k'.flags.unblocked = k.flags.unblocked := by rw [hk']
  have hclose : k'.flags.closeAsap = false := by rw [hk']
  have hconn : (s.setConn c k').conn c = some k' := by rw [setConn_eq, if_pos rfl]
  obtain ⟨tx, htx, heq⟩ := @freeClient_eq (s.setConn c k') c k' h.indexed hconn
    (by rw [hfd]; exact h.mem_clients hk) (by rw [hp]; exact h.pending.mem hk)
    (by rw [hu]; exact h.unblocked c k hk) (by rw [hclose]; simp)
  refine ⟨tx, k, htx, hk, ?_, h.afterFree htx k⟩
  simp only [freeQueued, hk, ← hk', heq, Option.map_some, hclose]
  congr 1
  simp only [Clients.afterFree, Server.setConn, Function.update_idem, hu, hq, List.erase_cons_head]
  rfl

/-- **The queue of clients to close** is worked off: each client on it is there, is
freed once, and in the order of the queue. -/
theorem freeClientsInAsyncFreeQueue_spec : ∀ (q : List ClientId) {s : Server}, Inv s →
    s.clientsToClose = q → ∃ s', freeClientsInAsyncFreeQueue q.length s = some s' ∧ Inv s' ∧
      s'.clientsToClose = [] ∧ s'.freed = s.freed ++ q := by
  intro q
  induction q with
  | nil =>
      intro s h hq
      exact ⟨s, by simp [freeClientsInAsyncFreeQueue, hq], h, hq, by simp⟩
  | cons c q ih =>
      intro s h hq
      obtain ⟨tx, k, _, _, heq, hinv⟩ := freeQueued_spec h hq
      have hrest : (afterFree s tx c k).clientsToClose = q := by
        simp only [Clients.afterFree, hq, List.erase_cons_head]
      obtain ⟨s', hrun, hinv', hempty, hfreed⟩ := ih hinv hrest
      refine ⟨s', ?_, hinv', hempty, ?_⟩
      · simp only [List.length_cons, freeClientsInAsyncFreeQueue, hq, heq, Option.bind_some, hrun]
      · rw [hfreed]
        simp [Clients.afterFree]

theorem unlinkClient_slaves {p : Server × Conn} (heq : unlinkClient s c k = some p) :
    p.1.slaves = s.slaves := by
  simp only [unlinkClient] at heq
  obtain ⟨p₁, h₁, heq⟩ := Option.bind_eq_some_iff.mp heq
  obtain ⟨p₂, h₂, h₃⟩ := Option.bind_eq_some_iff.mp heq
  have e₁ : p₁.1.slaves = s.slaves := by
    unfold unlinkSocket at h₁
    split at h₁
    · cases h₁; split <;> rfl
    · obtain ⟨l, _, rfl⟩ := Option.map_eq_some_iff.mp h₁
      show (if s.currentClient = some c then _ else s : Server).slaves = s.slaves
      split <;> rfl
  have e₂ : p₂.1.slaves = p₁.1.slaves := by
    unfold unlinkPendingWrite at h₂
    split at h₂
    · obtain ⟨l, _, rfl⟩ := Option.map_eq_some_iff.mp h₂; rfl
    · cases h₂; rfl
  have e₃ : p.1.slaves = p₂.1.slaves := by
    unfold unlinkUnblocked at h₃
    split at h₃
    · obtain ⟨l, _, rfl⟩ := Option.map_eq_some_iff.mp h₃; rfl
    · cases h₃; rfl
  rw [e₃, e₂, e₁]

/-- In any state at all, `freeClient` leaves the list of slaves as it is. -/
theorem freeClient_slaves (heq : freeClient s c = some s') : s'.slaves = s.slaves := by
  unfold freeClient at heq
  split at heq
  · exact absurd heq (by simp)
  · simp only [unblockClient, ite_self] at heq
    obtain ⟨tx, _, heq⟩ := Option.bind_eq_some_iff.mp heq
    obtain ⟨p, hp, heq⟩ := Option.bind_eq_some_iff.mp heq
    obtain ⟨l, _, rfl⟩ := Option.map_eq_some_iff.mp heq
    have hsl := unlinkClient_slaves hp
    exact hsl

/-- `disconnectSlaves` does not come back if there is a slave. -/
theorem disconnectSlaves_eq_none : ∀ (fuel : Nat) {s : Server}, s.slaves ≠ [] →
    disconnectSlaves fuel s = none := by
  intro fuel
  induction fuel with
  | zero => intro s hs; exact if_neg hs
  | succ fuel ih =>
      intro s hs
      simp only [disconnectSlaves]
      split
      · next hnil => exact absurd hnil hs
      · cases hfree : freeClient s _ with
        | none => rfl
        | some s' =>
            rw [Option.bind_some]
            exact ih (by rw [freeClient_slaves hfree]; exact hs)

/-! ## The other steps -/

theorem Inv.createClient (h : Inv s) {fd : Int} (heq : createClient s c fd = some s') : Inv s' := by
  unfold Clients.createClient at heq
  split at heq
  · exact absurd heq (by simp)
  · next hnone =>
      have hi : Multi.Indexed (s.tx.setClient c ⟨0, [], false, false, false, []⟩) :=
        h.indexed.setClient c (h.watched c hnone).symm
      have hw : ∀ x, x ≠ c → (s.tx.setClient c ⟨0, [], false, false, false, []⟩).clients x
          = s.tx.clients x := fun x hx => Multi.setClient_of_ne _ hx _
      by_cases hfd : fd = -1
      · simp only [if_neg (not_not.mpr hfd)] at heq
        cases heq
        exact h.put rfl hi (h.clients.alloc hnone (by simpa using hfd)) (h.pending.alloc hnone rfl)
          (h.toClose.alloc hnone rfl) (fun _ hx => hx) (fun hu => absurd hu (by simp [Flags.fresh]))
          hw rfl rfl
      · simp only [if_pos hfd] at heq
        cases heq
        exact h.put rfl hi (h.clients.append (h.clients.not_mem hnone) (by simpa using hfd))
          (h.pending.alloc hnone rfl) (h.toClose.alloc hnone rfl) (fun _ hx => hx)
          (fun hu => absurd hu (by simp [Flags.fresh])) hw rfl rfl

theorem Inv.freeClientAsync (h : Inv s) (heq : freeClientAsync s c = some s') : Inv s' := by
  unfold Clients.freeClientAsync at heq
  split at heq
  · exact absurd heq (by simp)
  · next k hk =>
      split at heq
      · cases heq; exact h
      · next hno =>
          have hclose : k.flags.closeAsap = false := by
            cases hf : k.flags.closeAsap with
            | false => rfl
            | true => simp [hf] at hno
          have hout : c ∉ s.clientsToClose := by rw [h.toClose.mem hk, hclose]; simp
          cases heq
          exact h.put rfl h.indexed (h.clients.keep hk rfl) (h.pending.keep hk rfl)
            (h.toClose.append hout rfl) (fun _ hx => hx) (fun hu => h.unblocked c k hk hu)
            (fun _ _ => rfl) rfl rfl

theorem Inv.freeClient (h : Inv s) (heq : freeClient s c = some s') : Inv s' := by
  cases hk : s.conn c with
  | none => simp [Clients.freeClient, hk] at heq
  | some k =>
      obtain ⟨tx, _, hfree, hinv⟩ := freeClient_spec h hk
      rw [hfree] at heq
      cases heq
      exact hinv

theorem Inv.prepareClientToWrite (h : Inv s) {pending : Bool} {r : Server × Bool}
    (heq : prepareClientToWrite s c pending = some r) : Inv r.1 := by
  unfold Clients.prepareClientToWrite at heq
  split at heq
  · exact absurd heq (by simp)
  · next k hk =>
      split at heq
      · cases heq; exact h
      split at heq
      · cases heq; exact h
      split at heq
      · next hgo =>
          have hpend : k.flags.pendingWrite = false := by
            cases hf : k.flags.pendingWrite with
            | false => rfl
            | true => simp [hf] at hgo
          have hout : c ∉ s.clientsPendingWrite := by rw [h.pending.mem hk, hpend]; simp
          cases heq
          exact h.put rfl h.indexed (h.clients.keep hk rfl) (h.pending.cons hout rfl)
            (h.toClose.keep hk rfl) (fun _ hx => hx) (fun hu => h.unblocked c k hk hu)
            (fun _ _ => rfl) rfl rfl
      · cases heq; exact h

/-- The answer of `prepareClientToWrite` depends on the client alone. -/
theorem prepareClientToWrite_accepts {pending : Bool} {r : Server × Bool}
    (hk : s.conn c = some k) (heq : prepareClientToWrite s c pending = some r) :
    r.2 = k.accepts := by
  unfold Clients.prepareClientToWrite at heq
  simp only [hk] at heq
  cases hl : k.flags.lua with
  | true =>
      rw [if_pos hl] at heq
      cases heq
      rw [Conn.accepts, hl]
      rfl
  | false =>
      rw [hl] at heq
      cases hr : k.refusesReplies with
      | true =>
          rw [hr] at heq
          cases heq
          rw [Conn.accepts, hl, hr]
          rfl
      | false =>
          rw [hr] at heq
          rw [Conn.accepts, hl, hr]
          simp only [Bool.false_eq_true, if_false] at heq
          split at heq <;> (cases heq; rfl)

/-- A client taken off the list of pending writes. -/
theorem Inv.clearPending (h : Inv s) (hk : s.conn c = some k)
    (hk' : k' = { k with flags := { k.flags with pendingWrite := false } }) :
    Inv { s.setConn c k' with clientsPendingWrite := s.clientsPendingWrite.erase c } :=
  h.put rfl h.indexed (h.clients.keep hk (by rw [hk'])) (h.pending.clear (by rw [hk']))
    (h.toClose.keep hk (by rw [hk'])) (fun _ hx => hx)
    (fun hu => h.unblocked c k hk (by rwa [hk'] at hu)) (fun _ _ => rfl) rfl rfl

theorem Inv.handlePendingWrite (h : Inv s) {outcome : ClientId → WriteOutcome}
    (heq : handlePendingWrite outcome s c = some s') : Inv s' := by
  unfold Clients.handlePendingWrite at heq
  split at heq
  · exact absurd heq (by simp)
  · next k hk =>
      have hinv := h.clearPending hk rfl
      cases hout : outcome c with
      | freed => simp only [hout] at heq; exact hinv.freeClient heq
      | kept => simp only [hout] at heq; cases heq; exact hinv
      | handlerFailed => simp only [hout] at heq; exact hinv.freeClientAsync heq

theorem Inv.unpauseClient (h : Inv s) (heq : unpauseClient s c = some s') : Inv s' := by
  unfold Clients.unpauseClient at heq
  split at heq
  · exact absurd heq (by simp)
  · next k hk =>
      split at heq
      · cases heq; exact h
      · cases heq
        exact h.put rfl h.indexed (h.clients.keep hk rfl) (h.pending.keep hk rfl)
          (h.toClose.keep hk rfl) (fun x hx => List.mem_append_left _ hx)
          (fun _ => List.mem_append_right _ (List.mem_singleton.mpr rfl)) (fun _ _ => rfl) rfl rfl

theorem Inv.addSlave (h : Inv s) (hk : s.conn c = some k) (hsame : k'.fd = k.fd ∧
    k'.flags = k.flags) (state : ReplState) : Inv (addSlave s c k' state) :=
  h.put rfl h.indexed (h.clients.keep hk (by rw [hsame.1]))
    (h.pending.keep hk (by rw [hsame.2])) (h.toClose.keep hk (by rw [hsame.2])) (fun _ hx => hx)
    (fun hu => h.unblocked c k hk (by rwa [hsame.2] at hu)) (fun _ _ => rfl) rfl rfl

theorem Inv.syncCommand (h : Inv s) {outcome : SyncOutcome}
    (heq : syncCommand s c outcome = some s') : Inv s' := by
  unfold Clients.syncCommand at heq
  split at heq
  · exact absurd heq (by simp)
  · next k hk =>
      split at heq
      · cases heq; exact h
      cases outcome with
      | refused => cases heq; exact h
      | partialResync written =>
          have hinv : Inv (Clients.addSlave s c { k with replPutOnlineOnAck := false } .online) :=
            @Inv.addSlave s c k { k with replPutOnlineOnAck := false } h hk ⟨rfl, rfl⟩ .online
          cases written with
          | true => cases heq; exact hinv
          | false => exact hinv.freeClientAsync heq
      | fullResync => cases heq; exact h.addSlave hk ⟨rfl, rfl⟩ _

theorem Inv.dropSlave (h : Inv s) (heq : dropSlave s c = some s') : Inv s' := by
  unfold Clients.dropSlave at heq
  split at heq
  · exact absurd heq (by simp)
  · next k hk =>
      split at heq
      · cases heq
        exact h.put rfl h.indexed (h.clients.keep hk rfl) (h.pending.keep hk rfl)
          (h.toClose.keep hk rfl) (fun _ hx => hx) (fun hu => h.unblocked c k hk hu)
          (fun _ _ => rfl) rfl rfl
      · cases heq; exact h

/-- A loop over a list of clients keeps the invariant if its body does. -/
theorem Inv.foldlM {f : Server → ClientId → Option Server}
    (hf : ∀ s c s', Inv s → f s c = some s' → Inv s') : ∀ (cs : List ClientId) {s s' : Server},
    Inv s → cs.foldlM f s = some s' → Inv s' := by
  intro cs
  induction cs with
  | nil => intro s s' h heq; cases heq; exact h
  | cons c cs ih =>
      intro s s' h heq
      rw [List.foldlM_cons] at heq
      obtain ⟨s₁, h₁, heq⟩ := Option.bind_eq_some_iff.mp heq
      exact ih (hf s c s₁ h h₁) heq

theorem Inv.clientsArePaused (h : Inv s) {ended : Bool} (heq : clientsArePaused s ended = some s') :
    Inv s' := by
  unfold Clients.clientsArePaused at heq
  split at heq
  · have hinv : Inv { s with clientsPaused := false } :=
      ⟨h.1, h.2, h.3, h.4, h.5, h.6, h.7, h.8⟩
    exact Inv.foldlM (fun _ _ _ h heq => h.unpauseClient heq) _ hinv heq
  · cases heq; exact h

theorem Inv.waitCommand (h : Inv s) {enough blocked : Bool}
    (heq : waitCommand s c enough blocked = some s') : Inv s' := by
  unfold Clients.waitCommand at heq
  split at heq
  · exact absurd heq (by simp)
  · next k hk =>
      split at heq
      · cases heq; exact h
      · cases heq
        exact h.put rfl h.indexed (h.clients.keep hk rfl) (h.pending.keep hk rfl)
          (h.toClose.keep hk rfl) (fun _ hx => hx) (fun hu => h.unblocked c k hk hu)
          (fun _ _ => rfl) rfl rfl

theorem createClient_conn {fd : Int} (heq : createClient s c fd = some s') :
    s'.conn c = some ⟨fd, Flags.fresh, .none, false⟩ := by
  unfold createClient at heq
  split at heq
  · exact absurd heq (by simp)
  · cases heq
    split <;> exact Function.update_self _ _ _

theorem Inv.replicationCreateMasterClient (h : Inv s) {fd : Int}
    (heq : replicationCreateMasterClient s c fd = some s') : Inv s' := by
  obtain ⟨s₁, h₁, rfl⟩ := Option.map_eq_some_iff.mp heq
  have hinv := h.createClient h₁
  have hk := createClient_conn h₁
  exact hinv.put rfl hinv.indexed (hinv.clients.keep hk rfl) (hinv.pending.keep hk rfl)
    (hinv.toClose.keep hk rfl) (fun _ hx => hx)
    (fun hu => absurd hu (by simp [Flags.fresh])) (fun _ _ => rfl) rfl rfl

theorem Inv.markClient (h : Inv s) {m : Marks} (heq : markClient s c m = some s') : Inv s' := by
  unfold Clients.markClient at heq
  split at heq
  · exact absurd heq (by simp)
  · next k hk =>
      cases heq
      exact h.setConn hk rfl rfl rfl rfl

/-- A step of a client that is there on the databases and the WATCH lists. -/
theorem Inv.setTx (h : Inv s) {tx : Multi.Server} (hi : Multi.Indexed tx)
    (hw : ∀ x, s.conn x = none → tx.clients x = s.tx.clients x) : Inv { s with tx := tx } :=
  ⟨hi, h.clients, h.pending, h.toClose, h.unblocked,
    fun x hx => by rw [hw x hx]; exact h.watched x hx, h.current, h.monitors⟩

/-- **One step** keeps the invariant. -/
theorem Inv.act (h : Inv s) {a : Action} (heq : act s a = some s') : Inv s' := by
  -- a client that is not there is none that acts
  have hne : ∀ {c x k}, s.conn c = some k → s.conn x = none → x ≠ c := by
    rintro c x k hk hx rfl
    rw [hk] at hx
    exact absurd hx (by simp)
  cases a with
  | createClient c fd => exact h.createClient heq
  | freeClient c => exact h.freeClient heq
  | freeClientAsync c => exact h.freeClientAsync heq
  | freeClientsInAsyncFreeQueue =>
      obtain ⟨s₁, hrun, hinv, _⟩ := freeClientsInAsyncFreeQueue_spec s.clientsToClose h rfl
      have heq' : freeClientsInAsyncFreeQueue s.clientsToClose.length s = some s' := heq
      rw [hrun] at heq'
      cases heq'
      exact hinv
  | prepareClientToWrite c pending =>
      obtain ⟨r, hr, rfl⟩ := Option.map_eq_some_iff.mp heq
      exact h.prepareClientToWrite hr
  | handleClientsWithPendingWrites outcome =>
      exact Inv.foldlM (fun _ _ _ h heq => h.handlePendingWrite heq) _ h heq
  | pauseClients => cases heq; exact ⟨h.1, h.2, h.3, h.4, h.5, h.6, h.7, h.8⟩
  | clientsArePaused ended => exact h.clientsArePaused heq
  | startInput c =>
      obtain ⟨k, hk, rfl⟩ := Option.map_eq_some_iff.mp heq
      refine ⟨h.1, h.2, h.3, h.4, h.5, h.6, fun x hx hcur => ?_, h.8⟩
      exact hne hk hx (Option.some.inj hcur).symm
  | endInput =>
      cases heq
      exact ⟨h.1, h.2, h.3, h.4, h.5, h.6, fun x _ => by simp, h.8⟩
  | syncCommand c outcome => exact h.syncCommand heq
  | startBgsaveForReplication => exact Inv.foldlM (fun _ _ _ h heq => h.dropSlave heq) _ h heq
  | waitCommand c enough blocked => exact h.waitCommand heq
  | replicationCreateMasterClient c fd => exact h.replicationCreateMasterClient heq
  | markClient c m => exact h.markClient heq
  | watchForKey c key =>
      obtain ⟨k, hk, rfl⟩ := Option.map_eq_some_iff.mp heq
      exact h.setTx (Multi.watchForKey_spec h.indexed c key).1
        (fun x hx => Multi.watchForKey_others _ key (hne hk hx))
  | unwatchAllKeys c =>
      obtain ⟨k, hk, heq⟩ := Option.bind_eq_some_iff.mp heq
      obtain ⟨tx, htx, rfl⟩ := Option.map_eq_some_iff.mp heq
      obtain ⟨tx', htx', hi, _⟩ := Multi.unwatchAllKeys_spec h.indexed c
      rw [htx] at htx'
      cases htx'
      exact h.setTx hi (fun x hx => Multi.unwatchAllKeys_others htx (hne hk hx))
  | selectDb c id =>
      obtain ⟨k, hk, rfl⟩ := Option.map_eq_some_iff.mp heq
      refine h.setTx ?_ (fun x hx => Multi.selectDb_others _ id (hne hk hx))
      unfold Multi.selectDb
      split
      · exact h.indexed
      · exact h.indexed.setClient c rfl
  | writeData dbs =>
      cases heq
      exact h.setTx ⟨h.indexed.index, h.indexed.nodupIndex, h.indexed.nodupOwn⟩ (fun _ _ => rfl)

/-- **Every run** keeps the invariant. -/
theorem Reaches.inv {dbnum : Nat} {actions : List Action} (hr : Reaches dbnum actions s) : Inv s := by
  have hrun : ∀ (actions : List Action) {s s' : Server}, Inv s →
      actions.foldlM act s = some s' → Inv s' := by
    intro actions
    induction actions with
    | nil => intro s s' h heq; cases heq; exact h
    | cons a actions ih =>
        intro s s' h heq
        rw [List.foldlM_cons] at heq
        obtain ⟨s₁, h₁, heq⟩ := Option.bind_eq_some_iff.mp heq
        exact ih (h.act h₁) heq
  exact hrun actions (init_inv dbnum) hr

/-! ## Where a freed client is still named -/

/-- No list and no variable of the server names the client. -/
structure Unreferenced (s : Server) (c : ClientId) : Prop where
  clients : c ∉ s.clients
  pending : c ∉ s.clientsPendingWrite
  unblocked : c ∉ s.unblockedClients
  toClose : c ∉ s.clientsToClose
  waiting : c ∉ s.clientsWaitingAcks
  slaves : c ∉ s.slaves
  monitors : c ∉ s.monitors
  watched : ∀ d key, c ∉ s.tx.watchers d key
  master : s.master ≠ some c
  current : s.currentClient ≠ some c

/-- The client plays no part whose cleanup is commented out, and the end of a pause has
not queued it as unblocked more often than `unlinkClient` takes back. -/
structure Ordinary (s : Server) (c : ClientId) (k : Conn) : Prop where
  noSlave : c ∉ s.slaves
  noWait : c ∉ s.clientsWaitingAcks
  noMaster : s.master ≠ some c
  queuedOnce : s.unblockedClients.count c ≤ if k.flags.unblocked then 1 else 0

theorem unreferenced_afterFree (h : Inv s) {tx : Multi.Server}
    (htx : Multi.unwatchAllKeys s.tx c = some tx) (k : Conn) :
    Unreferenced (afterFree s tx c k) c ↔ Ordinary s c k := by
  have hunblocked : c ∉ (afterFree s tx c k).unblockedClients ↔
      s.unblockedClients.count c ≤ if k.flags.unblocked then 1 else 0 := by
    simp only [afterFree]
    split
    · rw [← List.count_eq_zero, List.count_erase_self]
      omega
    · rw [← List.count_eq_zero]
      omega
  constructor
  · intro hu
    exact ⟨hu.slaves, hu.waiting, hu.master, hunblocked.mp hu.unblocked⟩
  · intro ho
    obtain ⟨tx', htx', hi, _, _, hempty⟩ := Multi.unwatchAllKeys_spec h.indexed c
    rw [htx] at htx'
    cases htx'
    refine ⟨h.clients.1.not_mem_erase, h.pending.1.not_mem_erase, hunblocked.mpr ho.queuedOnce,
      h.toClose.1.not_mem_erase, ho.noWait, ho.noSlave, ?_, fun d key hin => ?_, ho.noMaster, ?_⟩
    · simp only [afterFree, h.monitors, List.not_mem_nil, not_false_eq_true]
    · have hmem := (hi.index d key c).mp hin
      rw [hempty] at hmem
      exact absurd hmem (by simp)
    · simp only [afterFree]
      split
      · simp
      · assumption

/-- **What `freeClient` leaves behind**, in every state a run reaches: nothing exactly
if the client is ordinary.  `disconnectSlaves` comes back exactly if there is no slave.
The queue of clients to close is always worked off, each client on it freed once. -/
theorem freeClient_unreferenced_iff {dbnum : Nat} {actions : List Action}
    (hr : Reaches dbnum actions s) :
    (∀ c k, s.conn c = some k →
      ∃ s', freeClient s c = some s' ∧ s'.conn c = none ∧
        (Unreferenced s' c ↔ Ordinary s c k)) ∧
    ((∃ fuel s', disconnectSlaves fuel s = some s' ∧ s'.slaves = []) ↔ s.slaves = []) ∧
    (∃ s', freeClientsInAsyncFreeQueue s.clientsToClose.length s = some s' ∧
      s'.clientsToClose = [] ∧ s'.freed = s.freed ++ s.clientsToClose ∧
      s.clientsToClose.Nodup ∧ ∀ c ∈ s.clientsToClose, (s.conn c).isSome) := by
  have h := hr.inv
  refine ⟨fun c k hk => ?_, ⟨?_, fun hnil => ?_⟩, ?_⟩
  · obtain ⟨tx, htx, heq, _⟩ := freeClient_spec h hk
    exact ⟨_, heq, by rw [afterFree_conn, if_pos rfl], unreferenced_afterFree h htx k⟩
  · rintro ⟨fuel, s', heq, _⟩
    by_contra hs
    rw [disconnectSlaves_eq_none fuel hs] at heq
    exact absurd heq (by simp)
  · exact ⟨0, s, by simp [disconnectSlaves, hnil], hnil⟩
  · obtain ⟨s', heq, _, hempty, hfreed⟩ := freeClientsInAsyncFreeQueue_spec s.clientsToClose h rfl
    refine ⟨s', heq, hempty, hfreed, h.toClose.1, fun c hc => ?_⟩
    obtain ⟨k, hk, _⟩ := (h.toClose.2 c).mp hc
    rw [hk]
    rfl

/-- A client connects and asks to be a slave: freed, it stays on the list of slaves. -/
theorem freeClient_leaves_slave : ¬ ∀ (actions : List Action) (s s' : Server) (c : ClientId),
    Reaches 16 actions s → freeClient s c = some s' → Unreferenced s' c := by
  intro hall
  have hu := hall [.createClient 1 7, .syncCommand 1 .fullResync] _ _ 1 rfl rfl
  exact hu.slaves (List.mem_singleton.mpr rfl)

/-- A client that watches a key and is to be closed: freed, it is nowhere. -/
theorem freeClient_unreferenced_watcher :
    ∃ s s', Reaches 16 [.createClient 1 7, .watchForKey 1 (cstr "k"), .freeClientAsync 1] s ∧
      freeClient s 1 = some s' ∧ Unreferenced s' 1 := by
  obtain ⟨s, hs⟩ : ∃ s, Reaches 16
      [.createClient 1 7, .watchForKey 1 (cstr "k"), .freeClientAsync 1] s := ⟨_, rfl⟩
  obtain ⟨s', heq, _, hu⟩ := (freeClient_unreferenced_iff hs).1 1
    ⟨7, { Flags.fresh with closeAsap := true }, .none, false⟩ (by cases hs; rfl)
  refine ⟨s, s', hs, heq, hu.mpr ?_⟩
  cases hs
  exact ⟨List.not_mem_nil, List.not_mem_nil, by simp [Multi.init, init, Server.setConn],
    Nat.le_refl 0⟩

end Clients

end RedisCore
