/-
# `RedisCore.Networking.Output` — the reply stream of a client (networking.c)

A reply goes to the static buffer of the client while nothing is on the reply list and
there is room.  Else it is appended to the last object of the list, or becomes a node
of its own.  The list holds references to objects, and an object can be referenced
from elsewhere (a shared reply, a value in a database): `dupLastObjectIfNeeded` copies
such an object before it is appended to.  A node whose `ptr` is `NULL` is the place of
a multibulk length that is set later, and is then glued to the node behind it.

The objects are on an explicit heap with reference counts.  What the heap comes to is
`chunks`, the contents of the nodes in order; each function has a lemma that says what
it does to the chunks, and the laws of the stream are laws about chunks.
-/
import RedisCore.Networking.Clients
import RedisCore.Networking.Replies
import RedisCore.Lib.HoleStream

namespace RedisCore

namespace Output

open HoleStream Clients CInt Decimal

/-- `PROTO_REPLY_CHUNK_BYTES`, also the size of the static buffer. -/
def PROTO_REPLY_CHUNK_BYTES : Nat := 16 * 1024

/-- `NET_MAX_WRITES_PER_EVENT`. -/
def NET_MAX_WRITES_PER_EVENT : Nat := 1024 * 64

/-- An object, by its address. -/
abbrev ObjId := Nat

/-- What is at the address of an object: its reference count, and the object, or `none`
for a string object with a `NULL` pointer. -/
structure Cell where
  refcount : Nat
  obj : Option Robj

/-- A node of the reply list, with its address. -/
structure Node where
  id : Nat
  value : ObjId

/-- The client as far as its output is concerned, the heap, and what the socket has
taken.  `buf` is the static buffer up to `bufpos`. -/
structure Out where
  conn : Conn
  buf : Bytes
  sentlen : Nat
  reply : List Node
  heap : ObjId → Option Cell
  nextObj : Nat
  nextNode : Nat
  socket : Bytes

/-! ## Objects and nodes -/

def Out.setCell (s : Out) (o : ObjId) (cell : Option Cell) : Out :=
  { s with heap := Function.update s.heap o cell }

/-- `createObject`. -/
def createObject (s : Out) (obj : Option Robj) : Out × ObjId :=
  ({ s.setCell s.nextObj (some ⟨1, obj⟩) with nextObj := s.nextObj + 1 }, s.nextObj)

/-- `incrRefCount`. -/
def incrRefCount (s : Out) (o : ObjId) : Option Out :=
  match s.heap o with
  | none => none
  | some cell => some (s.setCell o (some { cell with refcount := cell.refcount + 1 }))

/-- `decrRefCount`. -/
def decrRefCount (s : Out) (o : ObjId) : Option Out :=
  match s.heap o with
  | none => none
  | some cell =>
      if cell.refcount = 0 then none
      else if cell.refcount = 1 then some (s.setCell o none)
      else some (s.setCell o (some { cell with refcount := cell.refcount - 1 }))

/-- `listAddNodeTail` on the reply list. -/
def listAddNodeTail (s : Out) (o : ObjId) : Out :=
  { s with reply := s.reply ++ [⟨s.nextNode, o⟩], nextNode := s.nextNode + 1 }

/-- `sdscatlen` on the string of an object. -/
def catObject (s : Out) (o : ObjId) (b : Bytes) : Option Out :=
  match s.heap o with
  | some ⟨n, some (.raw t)⟩ => some (s.setCell o (some ⟨n, some (.raw (t ++ b))⟩))
  | _ => none

/-- `dupLastObjectIfNeeded`. -/
def dupLastObjectIfNeeded (s : Out) : Option (Out × ObjId) :=
  match s.reply.getLast? with
  | none => none
  | some ln =>
      match s.heap ln.value with
      | none => none
      | some cur =>
          if cur.refcount > 1 then
            let new := createObject s cur.obj
            (decrRefCount new.1 ln.value).map (fun s =>
              ({ s with reply := s.reply.dropLast ++ [{ ln with value := new.2 }] }, new.2))
          else some (s, ln.value)

/-! ## Adding to the output -/

/-- `_addReplyToBuffer`, and whether it returned `C_OK`. -/
def addReplyToBuffer (s : Out) (b : Bytes) : Out × Bool :=
  if s.conn.flags.closeAfterReply then (s, true)
  else if s.reply ≠ [] then (s, false)
  else if b.length > PROTO_REPLY_CHUNK_BYTES - s.buf.length then (s, false)
  else ({ s with buf := s.buf ++ b }, true)

/-- What the three functions `_addReply…ToList` share: append to the last object when
possible, else make a new node. -/
def addToList (s : Out) (b : Bytes) (newNode : Out → Option Out) : Option Out :=
  if s.conn.flags.closeAfterReply then some s
  else
    match s.reply.getLast? with
    | none => newNode s
    | some ln =>
        match s.heap ln.value with
        | none => none
        | some ⟨_, some (.raw t)⟩ =>
            if t.length + b.length ≤ PROTO_REPLY_CHUNK_BYTES then
              (dupLastObjectIfNeeded s).bind (fun p => catObject p.1 p.2 b)
            else newNode s
        | some _ => newNode s

/-- `_addReplyObjectToList`, of an object that spells `b`. -/
def addReplyObjectToList (s : Out) (o : ObjId) (b : Bytes) : Option Out :=
  addToList s b (fun s => (incrRefCount s o).map (fun s => listAddNodeTail s o))

/-- A new object on the reply list. -/
def addNewObject (obj : Robj) (s : Out) : Option Out :=
  let new := createObject s (some obj)
  some (listAddNodeTail new.1 new.2)

/-- `_addReplySdsToList`. -/
def addReplySdsToList (s : Out) (b : Bytes) : Option Out := addToList s b (addNewObject (.raw b))

/-- `_addReplyStringToList`. -/
def addReplyStringToList (s : Out) (b : Bytes) : Option Out :=
  addToList s b (addNewObject (createStringObject b))

/-- `addReply` of an object that spells `b`, as the two ends of the function have it. -/
def addReplyEncoded (s : Out) (o : ObjId) (b : Bytes) : Option Out :=
  let r := addReplyToBuffer s b
  if r.2 then some r.1 else addReplyObjectToList r.1 o b

/-- `addReply` of an INT object that has to be decoded. -/
def addReplyDecoded (s : Out) (value : Int) : Option Out :=
  let new := createObject s (some (createStringObject (ll2str value)))
  (addReplyEncoded new.1 new.2 (ll2str value)).bind (fun s => decrRefCount s new.2)

/-- `addReply`. -/
def addReply (s : Out) (o : ObjId) : Option Out :=
  if !s.conn.accepts then some s
  else
    match s.heap o with
    | some ⟨_, some (.raw b)⟩ | some ⟨_, some (.embstr b)⟩ => addReplyEncoded s o b
    | some ⟨_, some (.int value)⟩ =>
        if s.reply = [] ∧ PROTO_REPLY_CHUNK_BYTES - s.buf.length ≥ 32 then
          let r := addReplyToBuffer s (ll2str value)
          if r.2 then some r.1 else addReplyDecoded r.1 value
        else addReplyDecoded s value
    | _ => none

/-- `addReplySds`. -/
def addReplySds (s : Out) (b : Bytes) : Option Out :=
  if !s.conn.accepts then some s
  else
    let r := addReplyToBuffer s b
    if r.2 then some r.1 else addReplySdsToList r.1 b

/-- `addReplyString`. -/
def addReplyString (s : Out) (b : Bytes) : Option Out :=
  if !s.conn.accepts then some s
  else
    let r := addReplyToBuffer s b
    if r.2 then some r.1 else addReplyStringToList r.1 b

/-- `addDeferredMultiBulkLength`, and the node it returns. -/
def addDeferredMultiBulkLength (s : Out) : Out × Option Nat :=
  if !s.conn.accepts then (s, none)
  else
    let new := createObject s none
    (listAddNodeTail new.1 new.2, some s.nextNode)

/-- The text of a multibulk length. -/
def mbulkLen (length : Int) : Bytes := cstr "*" ++ decInt length ++ cstr "\r\n"

/-- The end of `setDeferredMultiBulkLength`: the object of the node `ln` has become
`text`, and is glued to the node behind it where that is set. -/
def glueNext (s : Out) (before : List Node) (ln : Node) (cell : Cell) (text : Bytes) :
    List Node → Option Out
  | [] => some s
  | next :: after =>
      match s.heap next.value with
      | none => none
      | some ⟨_, none⟩ => some s
      | some ⟨_, some obj⟩ =>
          match obj.sds? with
          | none => none
          | some b =>
              let s := s.setCell ln.value (some { cell with obj := some (.raw (text ++ b)) })
              decrRefCount { s with reply := before ++ ln :: after } next.value

/-- `setDeferredMultiBulkLength`. -/
def setDeferredMultiBulkLength (s : Out) (node : Option Nat) (length : Int) : Option Out :=
  match node with
  | none => some s
  | some id =>
      match s.reply.span (fun ln => ln.id ≠ id) with
      | (_, []) => none
      | (before, ln :: after) =>
          match s.heap ln.value with
          | none => none
          | some cell =>
              let text := mbulkLen length
              glueNext (s.setCell ln.value (some { cell with obj := some (.raw text) }))
                before ln cell text after

/-! ## Writing to the socket -/

/-- What a round of the loop of `writeToClient` finds: how many bytes the socket has
room for, `none` being `EAGAIN`, and whether the memory in use is over `maxmemory`. -/
structure WriteTry where
  room : Option Nat
  overMemory : Bool

/-- Delete the head of the reply list. -/
def deleteHead (s : Out) : Option Out :=
  match s.reply with
  | [] => none
  | ln :: rest => decrRefCount { s with reply := rest } ln.value

/-- The string at the head of the reply list; `none` if there is none to measure. -/
def headString (s : Out) (ln : Node) : Option Bytes :=
  match s.heap ln.value with
  | some ⟨_, some obj⟩ => obj.sds?
  | _ => none

/-- Rounds of the loop that delete an empty head. -/
def deleteEmptyHeads : List Node → Out → Option Out
  | [], s => some s
  | ln :: rest, s =>
      match headString s ln with
      | none => none
      | some b => if b = [] then (deleteHead s).bind (deleteEmptyHeads rest) else some s

/-- A round of the loop that writes from the static buffer, given the count. -/
def writeBuffer (s : Out) (n : Nat) : Out :=
  let sentlen := s.sentlen + n
  let s := { s with socket := s.socket ++ (s.buf.drop s.sentlen).take n, sentlen := sentlen }
  if sentlen = s.buf.length then { s with buf := [], sentlen := 0 } else s

/-- A round of the loop that writes from the head of the list, given the count. -/
def writeHead (s : Out) (b : Bytes) (n : Nat) : Option Out :=
  let sentlen := s.sentlen + n
  let s := { s with socket := s.socket ++ (b.drop s.sentlen).take n, sentlen := sentlen }
  if sentlen = b.length then (deleteHead s).map (fun s => { s with sentlen := 0 }) else some s

/-- The loop of `writeToClient`; the socket is full when the list of tries ends. -/
def writeLoop : List WriteTry → Nat → Out → Option Out
  | tries, totwritten, s =>
      match (if s.buf = [] then deleteEmptyHeads s.reply s else some s) with
      | none => none
      | some s =>
          match tries with
          | [] => some s
          | t :: tries =>
              match s.buf, s.reply with
              | [], [] => some s
              | [], ln :: _ =>
                  match headString s ln, t.room with
                  | none, _ => none
                  | some _, none => some s
                  | some b, some room =>
                      let n := min room (b.length - s.sentlen)
                      if n = 0 then some s
                      else
                        (writeHead s b n).bind (fun s =>
                          if totwritten + n > NET_MAX_WRITES_PER_EVENT ∧ t.overMemory = false then
                            some s
                          else writeLoop tries (totwritten + n) s)
              | _ :: _, _ =>
                  match t.room with
                  | none => some s
                  | some room =>
                      let n := min room (s.buf.length - s.sentlen)
                      if n = 0 then some s
                      else
                        let s := writeBuffer s n
                        if totwritten + n > NET_MAX_WRITES_PER_EVENT ∧ t.overMemory = false then
                          some s
                        else writeLoop tries (totwritten + n) s

/-- `clientHasPendingReplies`. -/
def clientHasPendingReplies (s : Out) : Bool := s.buf ≠ [] || s.reply ≠ []

/-- `writeToClient`, for a client that is not to be closed after the reply. -/
def writeToClient (s : Out) (tries : List WriteTry) : Option Out :=
  (writeLoop tries 0 s).map (fun s =>
    if clientHasPendingReplies s then s else { s with sentlen := 0 })

end Output

end RedisCore
