/-
# `RedisCore.Replication.Handshake` — how a replica connects to its master (replication.c)

`syncWithMaster` is called whenever the socket to the master can be read or written.  Its
blocks are the states of the handshake: each looks whether it is its turn, and either
returns to the event loop, gives up, or falls through to the next block.  `Flow` is how a
block ends.

What the master sends is any string, and every call to the system may fail.  The payload
of a transfer is not modelled, only how `readSyncBulkPayload` ends.

Client structures are addresses.  As in the source `freeClient` does not touch
`server.master`, and `replicationCacheMaster`, which it would call, is a step of its own.
Writing through a null pointer is taken to have no effect, so that the states behind it
can be seen.
-/
import RedisCore.Db
import Mathlib.Logic.Function.Basic

namespace RedisCore

namespace Handshake

open CInt

/-- `repl_state`. -/
inductive ReplState where
  | none | connect | connecting | receivePong | sendAuth | receiveAuth | sendPort | receivePort
  | sendIp | receiveIp | sendCapa | receiveCapa | sendPsync | receivePsync | transfer | connected
  deriving DecidableEq, Repr

/-- The number of a `REPL_STATE`. -/
def ReplState.code : ReplState → Nat
  | .none => 0 | .connect => 1 | .connecting => 2 | .receivePong => 3 | .sendAuth => 4
  | .receiveAuth => 5 | .sendPort => 6 | .receivePort => 7 | .sendIp => 8 | .receiveIp => 9
  | .sendCapa => 10 | .receiveCapa => 11 | .sendPsync => 12 | .receivePsync => 13
  | .transfer => 14 | .connected => 15

/-- The file events of the handshake. -/
inductive FileProc where
  | syncWithMaster | readSyncBulkPayload
  deriving DecidableEq, Repr

def CONFIG_RUN_ID_SIZE : Nat := 40

/-- The fields of `server` for the side of a replica, which clients there are, and the
file events that are registered.  A file name is `none` where it is null or freed. -/
structure State where
  masterhost : Option Bytes
  masterport : Int
  masterauth : Option Bytes
  slaveAnnounceIp : Option Bytes
  clusterEnabled : Bool
  master : Option ClientId
  cachedMaster : Option ClientId
  live : ClientId → Bool
  replState : ReplState
  replTransferS : Int
  replTransferFd : Int
  replTransferTmpfile : Option Bytes
  replMasterRunid : Bytes
  replMasterInitialOffset : Int
  readable : Int → Option FileProc
  writable : Int → Option FileProc

/-! ## Files and clients -/

/-- `aeDeleteFileEvent` with `AE_READABLE`. -/
def State.deleteReadable (s : State) (fd : Int) : State :=
  { s with readable := Function.update s.readable fd .none }

/-- `aeDeleteFileEvent` with `AE_WRITABLE`. -/
def State.deleteWritable (s : State) (fd : Int) : State :=
  { s with writable := Function.update s.writable fd .none }

/-- `freeClient`. -/
def freeClient (s : State) (c : ClientId) : State :=
  { s with live := Function.update s.live c false }

/-- `freeClient` of the master, if there is one. -/
def freeMaster (s : State) : State :=
  match s.master with
  | .none => s
  | some c => freeClient s c

/-! ## The cached master -/

/-- `replicationHandleMasterDisconnection`. -/
def replicationHandleMasterDisconnection (s : State) : State :=
  { s with master := .none, replState := .connect }

/-- `replicationCacheMaster`; its assertion is `none`. -/
def replicationCacheMaster (s : State) : Option State :=
  if s.master ≠ .none ∧ s.cachedMaster = .none then
    some (replicationHandleMasterDisconnection { s with cachedMaster := s.master })
  else .none

/-- `replicationDiscardCachedMaster`. -/
def replicationDiscardCachedMaster (s : State) : State :=
  match s.cachedMaster with
  | .none => s
  | some c => { freeClient s c with cachedMaster := .none }

/-- `replicationResurrectCachedMaster`. -/
def replicationResurrectCachedMaster (s : State) : State :=
  { s with master := s.cachedMaster, cachedMaster := .none, replState := .connected }

/-- `replicationCreateMasterClient`, when `createClient` returns `c`. -/
def replicationCreateMasterClient (s : State) (c : Option ClientId) : State :=
  { s with
    master := c
    live := match c with
      | .none => s.live
      | some c => Function.update s.live c true
    replState := .connected }

/-! ## Giving up -/

/-- `slaveIsInHandshakeState`. -/
def slaveIsInHandshakeState (s : State) : Bool :=
  s.replState.code ≥ ReplState.receivePong.code && s.replState.code ≤ ReplState.receivePsync.code

/-- `undoConnectWithMaster`. -/
def undoConnectWithMaster (s : State) : State :=
  { (s.deleteReadable s.replTransferS).deleteWritable s.replTransferS with replTransferS := -1 }

/-- `replicationAbortSyncTransfer`. -/
def replicationAbortSyncTransfer (s : State) : State :=
  { undoConnectWithMaster s with replTransferTmpfile := .none }

/-- `cancelReplicationHandshake`, and whether there was one. -/
def cancelReplicationHandshake (s : State) : State × Bool :=
  if s.replState = .transfer then
    ({ replicationAbortSyncTransfer s with replState := .connect }, true)
  else if s.replState = .connecting ∨ slaveIsInHandshakeState s then
    ({ undoConnectWithMaster s with replState := .connect }, true)
  else (s, false)

/-! ## SLAVEOF -/

/-- `replicationSetMaster`. -/
def replicationSetMaster (s : State) (ip : Bytes) (port : Int) : State :=
  let s := { s with masterhost := some ip, masterport := port }
  let s := replicationDiscardCachedMaster (freeMaster s)
  { (cancelReplicationHandshake s).1 with replState := .connect }

/-- `replicationUnsetMaster`. -/
def replicationUnsetMaster (s : State) : State :=
  if s.masterhost = .none then s
  else
    let s := { s with masterhost := .none }
    let s := replicationDiscardCachedMaster (freeMaster s)
    { (cancelReplicationHandshake s).1 with replState := .none }

/-- `slaveofCommand` on the two arguments. -/
def slaveofCommand (s : State) (host port : Bytes) : State :=
  if s.clusterEnabled then s
  else if strcaseEq host (cstr "no") && strcaseEq port (cstr "one") then
    if s.masterhost.isSome then replicationUnsetMaster s else s
  else
    match getLongLongFromObject (createStringObject port) with
    | .none => s
    | some p =>
        if s.masterhost.any (strcaseEq · host) && s.masterport = p then s
        else replicationSetMaster s host (toInt p)

/-! ## The replies of the master -/

/-- What `syncReadLine` does: it leaves a line in the buffer, or fails with an error. -/
inductive Line where
  | read (buf : Bytes)
  | error (strerror : Bytes)

/-- `sendSynchronousCommand` with `SYNC_CMD_READ`. -/
def sendSynchronousRead : Line → Bytes
  | .read buf => buf.takeWhile (· ≠ 0)
  | .error strerror => cstr "-Reading from master: " ++ strerror

/-- `strncmp` finds the text at the start of the reply. -/
def startsWith (reply : Bytes) (text : String) : Bool := (cstr text).isPrefixOf reply

/-- The run id and the offset of a `+FULLRESYNC` reply. -/
def fullresyncArgs (reply : Bytes) : Option (Bytes × Bytes) :=
  match reply.dropWhile (· ≠ 32) with
  | [] => .none
  | _ :: runid =>
      match runid.dropWhile (· ≠ 32) with
      | [] => .none
      | _ :: offset => some (runid.takeWhile (· ≠ 32), offset)

/-- `strtoll` to the base 10. -/
def strtoll (s : Bytes) : Int :=
  let s := s.dropWhile (fun b => b = 32 || (9 ≤ b && b ≤ 13))
  let digits (s : Bytes) : Int :=
    ((s.takeWhile (fun b => 48 ≤ b && b ≤ 57)).foldl (fun n b => n * 10 + (b.toNat - 48)) 0 : Nat)
  let v :=
    match s with
    | 45 :: s => -(digits s)
    | 43 :: s => digits s
    | s => digits s
  if v < LONG_MIN then LONG_MIN else if v > LONG_MAX then LONG_MAX else v

/-- What `slaveTryPartialResynchronization` returns. -/
inductive PsyncResult where
  | writeError | waitReply | continue | fullresync | notSupported
  deriving DecidableEq, Repr

/-- The writing half of `slaveTryPartialResynchronization`. -/
def sendPsync (s : State) (fd : Int) (writeOk : Bool) : State × PsyncResult :=
  let s := { s with replMasterInitialOffset := -1 }
  if writeOk then (s, .waitReply) else (s.deleteReadable fd, .writeError)

/-- The reading half of `slaveTryPartialResynchronization`. -/
def readPsync (s : State) (fd : Int) (reply : Bytes) : State × PsyncResult :=
  if reply.length = 0 then (s, .waitReply)
  else
    let s := s.deleteReadable fd
    if startsWith reply "+FULLRESYNC" then
      let s :=
        match fullresyncArgs reply with
        | .none => { s with replMasterRunid := List.replicate (CONFIG_RUN_ID_SIZE + 1) 0 }
        | some (runid, offset) =>
            if runid.length ≠ CONFIG_RUN_ID_SIZE then
              { s with replMasterRunid := List.replicate (CONFIG_RUN_ID_SIZE + 1) 0 }
            else
              { s with
                replMasterRunid := runid ++ [0]
                replMasterInitialOffset := strtoll offset }
      (replicationDiscardCachedMaster s, .fullresync)
    else if startsWith reply "+CONTINUE" then (replicationResurrectCachedMaster s, .continue)
    else (replicationDiscardCachedMaster s, .notSupported)

/-! ## syncWithMaster -/

/-- What a call of `syncWithMaster` meets: whether the socket has an error, the line it
reads, whether it can write a command and `SYNC`, the temp file it opens (-1 if it cannot)
with its name, and whether it can register the file event for the transfer. -/
structure SyncEnv where
  sockerr : Bool
  line : Line
  writeOk : Bool
  syncOk : Bool
  dfd : Int
  tmpfile : Bytes
  eventOk : Bool

/-- How a block of `syncWithMaster` ends. -/
inductive Flow where
  | returned (s : State)
  | error (s : State)
  | next (s : State)

/-- Fall through to the next block. -/
def Flow.andThen : Flow → (State → Flow) → Flow
  | .next s, f => f s
  | r, _ => r

/-- A block that writes a command and waits for its reply. -/
def sendBlock (state wait : ReplState) (env : SyncEnv) (s : State) : Flow :=
  if s.replState = state then
    if env.writeOk then .returned { s with replState := wait } else .error s
  else .next s

/-- A block that reads the reply to a command; `bad` is when it gives up. -/
def receiveBlock (state goOn : ReplState) (bad : Bytes → Bool) (env : SyncEnv) (s : State) : Flow :=
  if s.replState = state then
    if bad (sendSynchronousRead env.line) then .error s else .next { s with replState := goOn }
  else .next s

/-- Send a PING; the writable event is not needed any more. -/
def connectingBlock (fd : Int) (env : SyncEnv) (s : State) : Flow :=
  if s.replState = .connecting then
    let s := { s.deleteWritable fd with replState := .receivePong }
    if env.writeOk then .returned s else .error s
  else .next s

def receivePong : SyncEnv → State → Flow :=
  receiveBlock .receivePong .sendAuth (fun err =>
    err.head? ≠ some 43 && !startsWith err "-NOAUTH" &&
      !startsWith err "-ERR operation not permitted")

/-- AUTH with the master if required. -/
def sendAuth (env : SyncEnv) (s : State) : Flow :=
  if s.replState = .sendAuth ∧ s.masterauth = .none then .next { s with replState := .sendPort }
  else sendBlock .sendAuth .receiveAuth env s

def receiveAuth : SyncEnv → State → Flow :=
  receiveBlock .receiveAuth .sendPort (fun err => err.head? = some 45)

def sendPort : SyncEnv → State → Flow := sendBlock .sendPort .receivePort

def receivePort : SyncEnv → State → Flow := receiveBlock .receivePort .sendIp (fun _ => false)

/-- Skip REPLCONF ip-address if there is no slave-announce-ip option set. -/
def skipIp (s : State) : Flow :=
  if s.replState = .sendIp ∧ s.slaveAnnounceIp = .none then .next { s with replState := .sendCapa }
  else .next s

def sendIp : SyncEnv → State → Flow := sendBlock .sendIp .receiveIp

def receiveIp : SyncEnv → State → Flow := receiveBlock .receiveIp .sendCapa (fun _ => false)

def sendCapa : SyncEnv → State → Flow := sendBlock .sendCapa .receiveCapa

def receiveCapa : SyncEnv → State → Flow := receiveBlock .receiveCapa .sendPsync (fun _ => false)

/-- Try a partial resynchronization. -/
def sendPsyncBlock (fd : Int) (env : SyncEnv) (s : State) : Flow :=
  if s.replState = .sendPsync then
    match sendPsync s fd env.writeOk with
    | (s, .writeError) => .error s
    | (s, _) => .returned { s with replState := .receivePsync }
  else .next s

/-- The last block: the reply to PSYNC, and the start of a transfer. -/
def receivePsync (fd : Int) (env : SyncEnv) (s : State) : Flow :=
  if s.replState ≠ .receivePsync then .error s
  else
    match readPsync s fd (sendSynchronousRead env.line) with
    | (s, .waitReply) => .returned s
    | (s, .continue) => .returned s
    | (s, result) =>
        if result = .notSupported ∧ env.syncOk = false then .error s
        else if env.dfd = -1 then .error s
        else if env.eventOk = false then .error s
        else
          .returned { s with
            readable := Function.update s.readable fd (some .readSyncBulkPayload)
            replState := .transfer
            replTransferFd := env.dfd
            replTransferTmpfile := some env.tmpfile }

/-- The blocks one after the other. -/
def syncBlocks (fd : Int) (env : SyncEnv) (s : State) : Flow :=
  ((((((((((((connectingBlock fd env s).andThen (receivePong env)).andThen (sendAuth env)).andThen
    (receiveAuth env)).andThen (sendPort env)).andThen (receivePort env)).andThen skipIp).andThen
    (sendIp env)).andThen (receiveIp env)).andThen (sendCapa env)).andThen (receiveCapa env)).andThen
    (sendPsyncBlock fd env)).andThen (receivePsync fd env)

/-- The label `error` of `syncWithMaster`. -/
def syncError (s : State) (fd : Int) : State :=
  { (s.deleteReadable fd).deleteWritable fd with replTransferS := -1, replState := .connect }

/-- `syncWithMaster`, and whether it gave up. -/
def syncWithMaster (s : State) (fd : Int) (env : SyncEnv) : State × Bool :=
  if s.replState = .none then (s, false)
  else if env.sockerr then (syncError s fd, true)
  else
    match syncBlocks fd env s with
    | .returned s => (s, false)
    | .next s => (s, false)
    | .error s => (syncError s fd, true)

/-! ## The transfer and the cron function -/

/-- How a call of `readSyncBulkPayload` ends: it waits for more, it fails, or the data set
is loaded and `createClient` returns the client of the master, or null. -/
inductive Payload where
  | more
  | failed
  | done (c : Option ClientId)

/-- `readSyncBulkPayload`, and whether it gave up. -/
def readSyncBulkPayload (s : State) : Payload → State × Bool
  | .more => (s, false)
  | .failed => cancelReplicationHandshake s
  | .done c =>
      let s := s.deleteReadable s.replTransferS
      (replicationCreateMasterClient { s with replTransferTmpfile := .none } c, false)

/-- `connectWithMaster`, when it gets the socket `fd` (-1 if it gets none). -/
def connectWithMaster (s : State) (fd : Int) (eventOk : Bool) : State :=
  if fd = -1 then s
  else if eventOk = false then s
  else
    { s with
      readable := Function.update s.readable fd (some .syncWithMaster)
      writable := Function.update s.writable fd (some .syncWithMaster)
      replTransferS := fd
      replState := .connecting }

/-- The timeouts of a connection attempt in `replicationCron`, when the last I/O was too
long ago, and whether it gave up. -/
def cronTransferTimeout (s : State) : State × Bool :=
  let r₁ := if s.masterhost.isSome ∧ (s.replState = .connecting ∨ slaveIsInHandshakeState s) then
    cancelReplicationHandshake s else (s, false)
  let r₂ := if r₁.1.masterhost.isSome ∧ r₁.1.replState = .transfer then
    cancelReplicationHandshake r₁.1 else (r₁.1, false)
  (r₂.1, r₁.2 || r₂.2)

/-- The timeout of a connected master in `replicationCron`. -/
def cronMasterTimeout (s : State) : State :=
  if s.masterhost.isSome ∧ s.replState = .connected then freeMaster s else s

/-- The connection attempt of `replicationCron`. -/
def cronConnect (s : State) (fd : Int) (eventOk : Bool) : State :=
  if s.replState = .connect then connectWithMaster s fd eventOk else s

/-! ## Runs -/

/-- What happens next.  `replicationCron` makes its three steps one after the other. -/
inductive Step where
  | slaveof (host port : Bytes)
  | sync (fd : Int) (env : SyncEnv)
  | bulk (fd : Int) (payload : Payload)
  | transferTimeout
  | masterTimeout
  | connect (fd : Int) (eventOk : Bool)
  /-- `freeClient` of the master, as when its connection is lost. -/
  | masterLost
  /-- `replicationCacheMaster` instead of it. -/
  | masterCached

/-- A file event is fired when it is registered; a new client has an address of its own,
and only a client that is there is cached. -/
def Step.fits (s : State) : Step → Bool
  | .sync fd _ => s.readable fd = some .syncWithMaster || s.writable fd = some .syncWithMaster
  | .bulk fd payload => s.readable fd = some .readSyncBulkPayload &&
      match payload with
      | .done (some c) => !s.live c
      | _ => true
  | .masterCached => s.master.any s.live
  | _ => true

/-- One step, and whether it is one on which the code gave up an attempt. -/
def step (s : State) (st : Step) : Option (State × Bool) :=
  if st.fits s then
    match st with
    | .slaveof host port => some (slaveofCommand s host port, false)
    | .sync fd env => some (syncWithMaster s fd env)
    | .bulk _ payload => some (readSyncBulkPayload s payload)
    | .transferTimeout => some (cronTransferTimeout s)
    | .masterTimeout => some (cronMasterTimeout s, false)
    | .connect fd eventOk => some (cronConnect s fd eventOk, false)
    | .masterLost => some (freeMaster s, false)
    | .masterCached => (replicationCacheMaster s).map (·, false)
  else .none

def run (s : State) : List Step → Option State
  | [] => some s
  | st :: sts => (step s st).bind (fun r => run r.1 sts)

/-- A server that is no replica yet; the options are any, and so is what the fields hold
that are set when they are needed. -/
structure Initial (s : State) : Prop where
  masterhost : s.masterhost = .none
  master : s.master = .none
  cachedMaster : s.cachedMaster = .none
  replState : s.replState = .none
  readable : ∀ fd, s.readable fd = .none
  writable : ∀ fd, s.writable fd = .none

end Handshake

end RedisCore
