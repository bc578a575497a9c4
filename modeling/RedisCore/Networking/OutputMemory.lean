/-
# `RedisCore.Networking.OutputMemory` — the memory of the output buffer (networking.c)

`reply_bytes` is what the server believes the objects of a reply list to cost.  It is
kept by hand: each function adds what it puts on the list and takes off what it sends,
under two formulas, as a RAW string has a block of its own and an EMBSTR string lies in
the block of its object.

The functions are those of `RedisCore.Networking.Output`, on the same heap and the same
list, with the counter beside them.  An object has a block, the one its characters lie
in, and the allocator reports a size for it.  A subtraction that would take the counter
below zero is a fault of its own.

The counter decides when a client has too much output.  The soft limit is only held
against a client that has been over it for some time.
-/
import RedisCore.Networking.ReplyRuns

namespace RedisCore

namespace OutputMemory

open Output Clients

/-- Where a run ends: at memory that is not there, at a counter below zero, or at one that
is too large for its type or for the assertion on it. -/
inductive Fault where
  | crash
  | underflow
  | tooLarge
deriving DecidableEq

/-- `sizeof(robj)`. -/
def sizeofRobj : Nat := 16

/-- `sizeof(listNode)`. -/
def sizeofListNode : Nat := 24

/-- `sizeof(struct sdshdr8)`. -/
def sizeofSdshdr8 : Nat := 3

/-- `SIZE_MAX`. -/
def SIZE_MAX : Nat := 2 ^ 64 - 1

/-- `zmalloc` and `zmalloc_size`: the size of the block handed out as number `k`, where
`n` bytes are asked for. -/
structure Allocator where
  size : Nat → Nat → Nat
  le_size : ∀ k n, n ≤ size k n

/-- What the log says of a client over its limits: when, and because of which limit. -/
structure Report where
  time : Int
  soft : Bool
  hard : Bool
deriving DecidableEq

/-- `clientBufferLimitsConfig`. -/
structure ClientBufferLimitsConfig where
  hardLimitBytes : Nat
  softLimitBytes : Nat
  softLimitSeconds : Int

/-- The classes of clients that have limits. -/
inductive ClientType where
  | normal
  | slave
  | pubsub
  | master
deriving DecidableEq

/-- The output of a client with its accounts.  `block` is the size of the block that holds
the characters of an object, `unixtime` the clock of the server. -/
structure Client where
  out : Out
  block : ObjId → Nat
  blocks : Nat
  replyBytes : Nat
  pubsub : Bool
  obufSoftLimitReachedTime : Int
  unixtime : Int
  reports : List Report

/-! ## Memory -/

/-- Characters of an object get a block, or another one, of at least `n` bytes. -/
def Client.allocate (mem : Allocator) (c : Client) (o : ObjId) (n : Nat) : Client :=
  { c with block := Function.update c.block o (mem.size c.blocks n), blocks := c.blocks + 1 }

/-- What is asked for with a new string object. -/
def request : Robj → Nat
  | .raw b => b.length + 1
  | .embstr b => sizeofRobj + sizeofSdshdr8 + b.length + 1
  | _ => 0

/-- `createObject`, and `createStringObject` with the object it makes. -/
def Client.createObject (mem : Allocator) (c : Client) (r : Robj) : Client × ObjId :=
  let new := Output.createObject c.out (some r)
  (Client.allocate mem { c with out := new.1 } new.2 (request r), new.2)

/-- `sdscatlen`.  When it does not have to move the string, the block is the one there was. -/
def Client.sdscatlen (mem : Allocator) (c : Client) (o : ObjId) (b : Bytes) : Except Fault Client :=
  match c.out.heap o with
  | some ⟨n, some (.raw t)⟩ =>
      .ok (Client.allocate mem { c with out := c.out.setCell o (some ⟨n, some (.raw (t ++ b))⟩) } o
        ((t ++ b).length + 1))
  | _ => .error .crash

/-- `sdsZmallocSize` of the string of a RAW object. -/
def Client.sdsZmallocSize (c : Client) (o : ObjId) : Nat := c.block o

/-- `getStringObjectSdsUsedMemory`; a placeholder, on which it is not called, has no string. -/
def Client.getStringObjectSdsUsedMemory (c : Client) (o : ObjId) : Nat :=
  match c.out.heap o with
  | some ⟨_, some (.raw _)⟩ => c.sdsZmallocSize o
  | some ⟨_, some (.embstr _)⟩ => c.block o - sizeofRobj
  | _ => 0

/-- `reply_bytes +=`. -/
def Client.charge (c : Client) (n : Nat) : Except Fault Client :=
  if c.replyBytes + n ≤ SIZE_MAX then .ok { c with replyBytes := c.replyBytes + n }
  else .error .tooLarge

/-- `reply_bytes -=`. -/
def Client.discharge (c : Client) (n : Nat) : Except Fault Client :=
  if n ≤ c.replyBytes then .ok { c with replyBytes := c.replyBytes - n } else .error .underflow

/-- A step on the heap and the list. -/
def Client.onOut (c : Client) : Option Out → Except Fault Client
  | none => .error .crash
  | some s => .ok { c with out := s }

/-! ## The limits -/

/-- `getClientOutputBufferMemoryUsage`. -/
def getClientOutputBufferMemoryUsage (c : Client) : Nat :=
  (c.replyBytes + (sizeofListNode + sizeofRobj) * c.out.reply.length) % 2 ^ 64

/-- `getClientType`. -/
def getClientType (c : Client) : ClientType :=
  if c.out.conn.flags.master then .master
  else if c.out.conn.flags.slave && !c.out.conn.flags.monitor then .slave
  else if c.pubsub then .pubsub
  else .normal

/-- The limits of a client; a master is treated like a normal client. -/
def limitsOf (limits : ClientType → ClientBufferLimitsConfig) (c : Client) :
    ClientBufferLimitsConfig :=
  limits (if getClientType c = .master then .normal else getClientType c)

/-- `checkClientOutputBufferLimits`, with the two limits told apart. -/
def checkClientOutputBufferLimits (limits : ClientType → ClientBufferLimitsConfig) (c : Client) :
    Client × Bool × Bool :=
  let used := getClientOutputBufferMemoryUsage c
  let l := limitsOf limits c
  let hard := decide (l.hardLimitBytes ≠ 0 ∧ l.hardLimitBytes ≤ used)
  if l.softLimitBytes ≠ 0 ∧ l.softLimitBytes ≤ used then
    if c.obufSoftLimitReachedTime = 0 then
      ({ c with obufSoftLimitReachedTime := c.unixtime }, false, hard)
    else
      let elapsed := c.unixtime - c.obufSoftLimitReachedTime
      (c, decide (¬ elapsed ≤ l.softLimitSeconds), hard)
  else ({ c with obufSoftLimitReachedTime := 0 }, false, hard)

/-- `freeClientAsync`, as far as the client itself is concerned. -/
def freeClientAsync (c : Client) : Client :=
  if c.out.conn.flags.closeAsap ∨ c.out.conn.flags.lua then c
  else
    { c with out := { c.out with conn :=
      { c.out.conn with flags := { c.out.conn.flags with closeAsap := true } } } }

/-- `asyncCloseClientOnOutputBufferLimitReached`. -/
def asyncCloseClientOnOutputBufferLimitReached (limits : ClientType → ClientBufferLimitsConfig)
    (c : Client) : Except Fault Client :=
  if c.replyBytes < SIZE_MAX - 1024 * 64 then
    if c.replyBytes = 0 ∨ c.out.conn.flags.closeAsap then .ok c
    else
      match checkClientOutputBufferLimits limits c with
      | (c, soft, hard) =>
          if soft || hard then
            .ok { freeClientAsync c with reports := c.reports ++ [⟨c.unixtime, soft, hard⟩] }
          else .ok c
  else .error .tooLarge

section

variable (mem : Allocator) (limits : ClientType → ClientBufferLimitsConfig)

/-! ## Adding to the list -/

/-- Append to the last object.  The size of a copy is first asked for when `sdscatlen` has
settled it. -/
def appendToLast (c : Client) (ln : Node) (b : Bytes) : Except Fault Client :=
  (c.discharge (c.sdsZmallocSize ln.value)).bind (fun c =>
    match dupLastObjectIfNeeded c.out with
    | none => .error .crash
    | some (s, tail) =>
        (Client.sdscatlen mem { c with out := s } tail b).bind (fun c =>
          c.charge (c.sdsZmallocSize tail)))

/-- Append to the last object when possible, else make a new node. -/
def appendOrNew (c : Client) (b : Bytes) (newNode : Client → Except Fault Client) :
    Except Fault Client :=
  match c.out.reply.getLast? with
  | none => newNode c
  | some ln =>
      match c.out.heap ln.value with
      | none => .error .crash
      | some ⟨_, some (.raw t)⟩ =>
          if t.length + b.length ≤ PROTO_REPLY_CHUNK_BYTES then appendToLast mem c ln b
          else newNode c
      | some _ => newNode c

/-- What the three functions `_addReply…ToList` share. -/
def addToList (c : Client) (b : Bytes) (newNode : Client → Except Fault Client) :
    Except Fault Client :=
  if c.out.conn.flags.closeAfterReply then .ok c
  else
    (appendOrNew mem c b newNode).bind (asyncCloseClientOnOutputBufferLimitReached limits)

/-- An object of someone else on the list. -/
def addShared (o : ObjId) (c : Client) : Except Fault Client :=
  (c.onOut ((incrRefCount c.out o).map (fun s => listAddNodeTail s o))).bind (fun c =>
    c.charge (c.getStringObjectSdsUsedMemory o))

/-- A new object on the list; of a RAW one `getStringObjectSdsUsedMemory` is the
`sdsZmallocSize` of its string. -/
def addNew (r : Robj) (c : Client) : Except Fault Client :=
  let new := c.createObject mem r
  let c := { new.1 with out := listAddNodeTail new.1.out new.2 }
  c.charge (c.getStringObjectSdsUsedMemory new.2)

/-- `_addReplyObjectToList`, of an object with a string. -/
def addReplyObjectToList (c : Client) (o : ObjId) : Except Fault Client :=
  match c.out.heap o with
  | some ⟨_, some obj⟩ =>
      match obj.sds? with
      | none => .error .crash
      | some b => addToList mem limits c b (addShared o)
  | _ => .error .crash

/-- `_addReplySdsToList`. -/
def addReplySdsToList (c : Client) (b : Bytes) : Except Fault Client :=
  addToList mem limits c b (addNew mem (.raw b))

/-- `_addReplyStringToList`. -/
def addReplyStringToList (c : Client) (b : Bytes) : Except Fault Client :=
  addToList mem limits c b (addNew mem (createStringObject b))

/-- `addDeferredMultiBulkLength`; the node is charged when it is set. -/
def addDeferredMultiBulkLength (c : Client) : Client × Option Nat :=
  let r := Output.addDeferredMultiBulkLength c.out
  ({ c with out := r.1 }, r.2)

/-- The string of an object becomes `t`. -/
def setString (c : Client) (o : ObjId) (cell : Cell) (t : Bytes) : Client :=
  Client.allocate mem
    { c with out := c.out.setCell o (some { cell with obj := some (.raw t) }) } o (t.length + 1)

/-- The end of `setDeferredMultiBulkLength`: glue the text to the node behind it. -/
def glueNext (c : Client) (before : List Node) (ln : Node) (cell : Cell) (text : Bytes) :
    List Node → Except Fault Client
  | [] => .ok c
  | next :: after =>
      match c.out.heap next.value with
      | none => .error .crash
      | some ⟨_, none⟩ => .ok c
      | some ⟨_, some obj⟩ =>
          match obj.sds? with
          | none => .error .crash
          | some b =>
              (c.discharge (c.sdsZmallocSize ln.value)).bind (fun c =>
                (c.discharge (c.getStringObjectSdsUsedMemory next.value)).bind (fun c =>
                  let c := setString mem c ln.value cell (text ++ b)
                  (c.charge (c.sdsZmallocSize ln.value)).bind (fun c =>
                    c.onOut (decrRefCount { c.out with reply := before ++ ln :: after }
                      next.value))))

/-- The length object of the node is populated, and glued to the next chunk. -/
def populateLength (c : Client) (id : Nat) (length : Int) : Except Fault Client :=
  match c.out.reply.span (fun (ln : Node) => ln.id ≠ id) with
  | (_, []) => .error .crash
  | (before, ln :: after) =>
      match c.out.heap ln.value with
      | none => .error .crash
      | some cell =>
          let c := setString mem c ln.value cell (mbulkLen length)
          (c.charge (c.sdsZmallocSize ln.value)).bind (fun c =>
            glueNext mem c before ln cell (mbulkLen length) after)

/-- `setDeferredMultiBulkLength`. -/
def setDeferredMultiBulkLength (c : Client) (node : Option Nat) (length : Int) :
    Except Fault Client :=
  match node with
  | none => .ok c
  | some id =>
      (populateLength mem c id length).bind (asyncCloseClientOnOutputBufferLimitReached limits)

end

/-! ## Writing to the socket -/

/-- Delete the head of the reply list, and take off what it was charged. -/
def deleteHead (c : Client) : Except Fault Client :=
  match c.out.reply with
  | [] => .error .crash
  | ln :: _ =>
      let objmem := c.getStringObjectSdsUsedMemory ln.value
      (c.onOut (Output.deleteHead c.out)).bind (fun c => c.discharge objmem)

/-- Rounds of the loop that delete an empty head. -/
def deleteEmptyHeads : List Node → Client → Except Fault Client
  | [], c => .ok c
  | ln :: rest, c =>
      match headString c.out ln with
      | none => .error .crash
      | some b => if b = [] then (deleteHead c).bind (deleteEmptyHeads rest) else .ok c

/-- A round of the loop that writes from the head of the list, given the count. -/
def writeHead (c : Client) (b : Bytes) (n : Nat) : Except Fault Client :=
  let sentlen := c.out.sentlen + n
  let c := { c with out := { c.out with
    socket := c.out.socket ++ (b.drop c.out.sentlen).take n, sentlen := sentlen } }
  if sentlen = b.length then
    (deleteHead c).map (fun c => { c with out := { c.out with sentlen := 0 } })
  else .ok c

/-- The loop of `writeToClient`; the socket is full when the list of tries ends. -/
def writeLoop : List WriteTry → Nat → Client → Except Fault Client
  | tries, totwritten, c =>
      (if c.out.buf = [] then deleteEmptyHeads c.out.reply c else .ok c).bind (fun c =>
        match tries with
        | [] => .ok c
        | t :: tries =>
            match c.out.buf, c.out.reply with
            | [], [] => .ok c
            | [], ln :: _ =>
                match headString c.out ln, t.room with
                | none, _ => .error .crash
                | some _, none => .ok c
                | some b, some room =>
                    let n := min room (b.length - c.out.sentlen)
                    if n = 0 then .ok c
                    else
                      (writeHead c b n).bind (fun c =>
                        if totwritten + n > NET_MAX_WRITES_PER_EVENT ∧ t.overMemory = false then
                          .ok c
                        else writeLoop tries (totwritten + n) c)
            | _ :: _, _ =>
                match t.room with
                | none => .ok c
                | some room =>
                    let n := min room (c.out.buf.length - c.out.sentlen)
                    if n = 0 then .ok c
                    else
                      let c := { c with out := writeBuffer c.out n }
                      if totwritten + n > NET_MAX_WRITES_PER_EVENT ∧ t.overMemory = false then
                        .ok c
                      else writeLoop tries (totwritten + n) c)

/-- `writeToClient`; `none` if the client is freed, all of its output being sent. -/
def writeToClient (c : Client) (tries : List WriteTry) : Except Fault (Option Client) :=
  (writeLoop tries 0 c).map (fun c =>
    if clientHasPendingReplies c.out then some c
    else if c.out.conn.flags.closeAfterReply then none
    else some { c with out := { c.out with sentlen := 0 } })

/-! ## Runs -/

/-- What can happen to the output of a client: the calls, the clock, and what the rest of
the server does with the objects it holds and with the flags of the client. -/
inductive Action where
  | addReplyToBuffer (b : Bytes)
  | addReplyObjectToList (o : ObjId)
  | addReplySdsToList (b : Bytes)
  | addReplyStringToList (b : Bytes)
  | addDeferredMultiBulkLength
  | setDeferredMultiBulkLength (node : Option Nat) (length : Int)
  | writeToClient (tries : List WriteTry)
  | createObject (r : Robj)
  | incrRefCount (o : ObjId)
  | decrRefCount (o : ObjId)
  | setFlags (flags : Flags) (pubsub : Bool)
  | setTime (unixtime : Int)

/-- One step; `none` if the client is freed in it. -/
def act (mem : Allocator) (limits : ClientType → ClientBufferLimitsConfig) (c : Client) :
    Action → Except Fault (Option Client)
  | .addReplyToBuffer b => .ok (some { c with out := (addReplyToBuffer c.out b).1 })
  | .addReplyObjectToList o => (addReplyObjectToList mem limits c o).map some
  | .addReplySdsToList b => (addReplySdsToList mem limits c b).map some
  | .addReplyStringToList b => (addReplyStringToList mem limits c b).map some
  | .addDeferredMultiBulkLength => .ok (some (addDeferredMultiBulkLength c).1)
  | .setDeferredMultiBulkLength node length =>
      (setDeferredMultiBulkLength mem limits c node length).map some
  | .writeToClient tries => writeToClient c tries
  | .createObject r => .ok (some (c.createObject mem r).1)
  | .incrRefCount o => (c.onOut (incrRefCount c.out o)).map some
  | .decrRefCount o => (c.onOut (decrRefCount c.out o)).map some
  | .setFlags flags pubsub =>
      .ok (some { c with
        out := { c.out with conn := { c.out.conn with flags := flags } }, pubsub := pubsub })
  | .setTime unixtime => .ok (some { c with unixtime := unixtime })

/-- How the calls are used: an object that its caller holds and that has a string, a
deferred length set once, and before the client is written to; the clock does not go
back. -/
def Proper (c : Client) : Action → Prop
  | .addReplyObjectToList o =>
      ∃ n r, c.out.heap o = some ⟨n, some r⟩ ∧ refs c.out.reply o < n ∧ r.sds?.isSome = true
  | .setDeferredMultiBulkLength (some id) _ => OpenNode c.out id
  | .writeToClient _ => AllSet c.out
  | .incrRefCount o | .decrRefCount o =>
      ∃ cell, c.out.heap o = some cell ∧ refs c.out.reply o < cell.refcount
  | .setTime unixtime => c.unixtime ≤ unixtime
  | _ => True

section

variable (mem : Allocator) (limits : ClientType → ClientBufferLimitsConfig)

/-- A run; it ends where the client is freed. -/
def run : Client → List Action → Except Fault (Option Client)
  | c, [] => .ok (some c)
  | c, a :: rest =>
      (act mem limits c a).bind (fun r =>
        match r with
        | none => .ok none
        | some c => run c rest)

/-- Every step of the run is proper. -/
def ProperRun : Client → List Action → Prop
  | _, [] => True
  | c, a :: rest => Proper c a ∧ ∀ c', act mem limits c a = .ok (some c') → ProperRun c' rest

end

/-- A client that has just been created. -/
structure Connected (c : Client) : Prop where
  out : Output.Fresh c.out
  replyBytes : c.replyBytes = 0
  obufSoftLimitReachedTime : c.obufSoftLimitReachedTime = 0
  reports : c.reports = []

end OutputMemory

end RedisCore
