/-
# `RedisCore.Quicklist.Code` — lists of ziplists (quicklist.c)

A quicklist is a doubly linked list of nodes, each with a ziplist.  With a compress depth,
nodes away from both ends are kept compressed, and a node is decompressed to be used.

The links are the list of the nodes from head to tail.  A ziplist function that is applied to
a compressed node fails with `lzf`; the other failures are a null pointer, a node that was
freed, memory outside of a block, and a list whose links are lost because the counter `len`
says that it is empty.  The compressed form is that of a codec of which only the inverse is
known, and `mem` is what `zrealloc` finds in the memory that it adds.
-/
import Mathlib.Data.List.Basic
import RedisCore.Lib.Marked
import RedisCore.Ziplist.Code

namespace RedisCore

namespace Quicklist

open CInt Marked Ziplist

/-- The parts that are not in this file: the codec and the memory. -/
structure Platform where
  mem : Nat → UInt8
  /-- `lzf_compress`; it may refuse. -/
  lzfCompress : Bytes → Option Bytes
  /-- `lzf_decompress` into as many bytes. -/
  lzfDecompress : Bytes → Nat → Option Bytes
  inverse : ∀ {data c : Bytes}, lzfCompress data = some c → lzfDecompress c data.length = some data

/-- What `zl` of a node points to, which `encoding` tells: a ziplist or a compressed one. -/
inductive Blob
  | raw (zl : Bytes)
  | lzf (compressed : Bytes)
  deriving DecidableEq

/-- `quicklistNode` without its links. -/
structure QuicklistNode where
  zl : Blob
  sz : Nat
  count : Nat
  recompress : Bool
  deriving DecidableEq

/-- `quicklist`; `nodes` are the nodes from head to tail, `fresh` the next one to be
allocated. -/
structure QuickList where
  nodes : List Nat
  node : Nat → QuicklistNode
  fresh : Nat
  count : Nat
  len : Nat
  fill : Int
  compress : Nat

/-- How an operation can fail. -/
inductive Fault
  | lzf
  | null
  | freed
  | memory
  | detached
  deriving DecidableEq

/-- A function on a quicklist. -/
abbrev M := Prog QuickList Fault

namespace QuickList

variable (ql : QuickList)

def head : Option Nat := ql.nodes.head?
def tail : Option Nat := ql.nodes.getLast?

/-- `node->next`. -/
def next (p : Nat) : Option Nat := ql.nodes[ql.nodes.idxOf p + 1]?

/-- `node->prev`. -/
def prev (p : Nat) : Option Nat :=
  if ql.nodes.idxOf p = 0 then none else ql.nodes[ql.nodes.idxOf p - 1]?

/-- Another node at an address. -/
def setNode (p : Nat) (node : QuicklistNode) : QuickList :=
  { ql with node := fun q => if q = p then node else ql.node q }

/-- A node that has to stay open: one at an end, or any while the list is too short for
compression. -/
def Exposed (p : Nat) : Prop :=
  ql.compress = 0 ∨ ql.nodes.length < ql.compress * 2 ∨ ql.head = some p ∨ ql.tail = some p

instance (p : Nat) : Decidable (ql.Exposed p) := inferInstanceAs (Decidable (_ ∨ _))

end QuickList

/-! ## Lists and nodes -/

def COMPRESS_MAX : Int := 2 ^ 16
def FILL_MAX : Int := 2 ^ 15

/-- `quicklistSetCompressDepth`; the field has 16 bits. -/
def quicklistSetCompressDepth (ql : QuickList) (compress : Int) : QuickList :=
  let compress := if compress > COMPRESS_MAX then COMPRESS_MAX
    else if compress < 0 then 0 else compress
  { ql with compress := (compress % 2 ^ 16).toNat }

/-- `quicklistSetFill`; the field has 16 bits and a sign. -/
def quicklistSetFill (ql : QuickList) (fill : Int) : QuickList :=
  let fill := if fill > FILL_MAX then FILL_MAX else if fill < -5 then -5 else fill
  { ql with fill := Int.bmod fill (2 ^ 16) }

/-- `quicklistCreateNode`, with a ziplist given to it. -/
def quicklistCreateNode (zl : Bytes) : QuicklistNode := ⟨.raw zl, 0, 0, false⟩

/-- `quicklistCreate`. -/
def quicklistCreate : QuickList where
  nodes := []
  node _ := quicklistCreateNode []
  fresh := 0
  count := 0
  len := 0
  fill := -2
  compress := 0

/-- `quicklistSetOptions`. -/
def quicklistSetOptions (ql : QuickList) (fill depth : Int) : QuickList :=
  quicklistSetCompressDepth (quicklistSetFill ql fill) depth

/-- `quicklistNew`, with `quicklistSetOptions` written out. -/
def quicklistNew (fill compress : Int) : QuickList :=
  quicklistSetCompressDepth (quicklistSetFill quicklistCreate fill) compress

/-- A node that is pointed to. -/
def nodeAt (p : Nat) : M QuicklistNode := do
  let ql ← get
  if p ∈ ql.nodes then return ql.node p else fail .freed

def setNode (p : Nat) (node : QuicklistNode) : M Unit := modify fun ql => ql.setNode p node

/-- The ziplist that a ziplist function is given: the node has to be raw. -/
def rawAt (p : Nat) : M Bytes := do
  match (← nodeAt p).zl with
  | .raw zl => return zl
  | .lzf _ => fail .lzf

/-- `node->zl = zl`. -/
def setZl (p : Nat) (zl : Bytes) : M Unit := do
  let node ← nodeAt p
  setNode p { node with zl := .raw zl }

/-- `node->count = n`, a field of 16 bits. -/
def setCount (p : Nat) (n : Int) : M Unit := do
  let node ← nodeAt p
  setNode p { node with count := (n % 2 ^ 16).toNat }

/-- `quicklistNodeUpdateSz`. -/
def quicklistNodeUpdateSz (p : Nat) : M Unit := do
  let sz ← orFail .memory (ziplistBlobLen (← rawAt p))
  let node ← nodeAt p
  setNode p { node with sz := sz }

/-- A pointer that is read. -/
def deref : Option Nat → M Nat := orFail .null

/-- `node->next` and `node->prev` of a pointer that may be null. -/
def nextOf : Option Nat → M (Option Nat)
  | none => fail .null
  | some p => do
      let _ ← nodeAt p
      return (← get).next p

def prevOf : Option Nat → M (Option Nat)
  | none => fail .null
  | some p => do
      let _ ← nodeAt p
      return (← get).prev p

/-- `quicklist->count` changed. -/
def addCount (n : Int) : M Unit := modify fun ql => { ql with count := toULong (ql.count + n) }

/-! ## Compression -/

def MIN_COMPRESS_BYTES : Nat := 48
def MIN_COMPRESS_IMPROVE : Nat := 8

variable (pf : Platform)

/-- What `__quicklistCompressNode` makes of the bytes of a ziplist. -/
def squeeze (data : Bytes) : Option Bytes :=
  match pf.lzfCompress data with
  | none => none
  | some c => if c.length + MIN_COMPRESS_IMPROVE ≥ data.length then none else some c

/-- Whether `quicklistCompressNode` compresses a node. -/
def Compressible (node : QuicklistNode) : Prop :=
  match node.zl with
  | .lzf _ => False
  | .raw zl =>
      MIN_COMPRESS_BYTES ≤ node.sz ∧ ((readAt zl 0 node.sz).bind (squeeze pf)).isSome

instance (node : QuicklistNode) : Decidable (Compressible pf node) := by
  unfold Compressible
  cases node.zl <;> infer_instance

/-- `quicklistCompressNode` of a node. -/
def compressNode (p : Nat) : M Unit := do
  let node ← nodeAt p
  match node.zl with
  | .lzf _ => return ()
  | .raw zl =>
      if node.sz < MIN_COMPRESS_BYTES then return ()
      else
        let data ← orFail .memory (readAt zl 0 node.sz)
        match squeeze pf data with
        | none => return ()
        | some c => setNode p { node with zl := .lzf c, recompress := false }

/-- `quicklistCompressNode`. -/
def quicklistCompressNode : Option Nat → M Unit
  | none => return ()
  | some p => compressNode pf p

/-- `quicklistDecompressNode` of a node. -/
def decompressNode (p : Nat) : M Unit := do
  let node ← nodeAt p
  match node.zl with
  | .raw _ => return ()
  | .lzf c =>
      match pf.lzfDecompress c node.sz with
      | none => return ()
      | some zl => setNode p { node with zl := .raw zl }

/-- `quicklistDecompressNode`. -/
def quicklistDecompressNode : Option Nat → M Unit
  | none => return ()
  | some p => decompressNode pf p

/-- `quicklistDecompressNodeForUse`. -/
def quicklistDecompressNodeForUse (p : Nat) : M Unit := do
  match (← nodeAt p).zl with
  | .raw _ => return ()
  | .lzf _ =>
      decompressNode pf p
      let node ← nodeAt p
      setNode p { node with recompress := true }

/-- The loop of `__quicklistCompress`: where the two cursors are in the end and whether the
node was met, or nothing if they met each other. -/
def compressLoop (node : Option Nat) :
    Nat → Option Nat → Option Nat → Bool → M (Option (Option Nat × Option Nat × Bool))
  | 0, forward, reverse, inDepth => return some (forward, reverse, inDepth)
  | depth + 1, forward, reverse, inDepth => do
      quicklistDecompressNode pf forward
      quicklistDecompressNode pf reverse
      let inDepth := inDepth || decide (forward = node ∨ reverse = node)
      if forward = reverse then return none
      else
        let forward ← nextOf forward
        let reverse ← prevOf reverse
        compressLoop node depth forward reverse inDepth

/-- `__quicklistCompress`. -/
def quicklistCompressTo (node : Option Nat) : M Unit := do
  let ql ← get
  if ql.compress = 0 ∨ ql.len < ql.compress * 2 then return ()
  else
    match ← compressLoop pf node ql.compress ql.head ql.tail false with
    | none => return ()
    | some (forward, reverse, inDepth) =>
        (if inDepth then pure () else quicklistCompressNode pf node)
        if ql.compress + 1 > 2 then
          quicklistCompressNode pf forward
          quicklistCompressNode pf reverse
        else return ()

/-- A node is closed because of its flag.  The mark says that it gets compressed though it
has to stay open. -/
def recompress (p : Nat) : M Unit := do
  let ql ← get
  mark (decide (ql.Exposed p ∧ Compressible pf (ql.node p)))
  quicklistCompressNode pf (some p)

/-- `quicklistCompress`. -/
def quicklistCompress (p : Nat) : M Unit := do
  if (← nodeAt p).recompress then recompress pf p else quicklistCompressTo pf (some p)

/-- `quicklistRecompressOnly`. -/
def quicklistRecompressOnly (p : Nat) : M Unit := do
  if (← nodeAt p).recompress then recompress pf p else return ()

/-! ## Linking and unlinking nodes -/

/-- A new node beside one that is linked. -/
def insertBeside (nodes : List Nat) (old new : Nat) (after : Bool) : List Nat :=
  nodes.insertIdx (if after then nodes.idxOf old + 1 else nodes.idxOf old) new

/-- `quicklist->len++`.  The mark says that the counter wraps around. -/
def incrLen : M Unit := do
  let ql ← get
  mark (decide (ql.len + 1 = 2 ^ 32))
  modify fun ql => { ql with len := toUInt (ql.len + 1 : Nat) }

/-- The new node linked. -/
def linkNode (ql : QuickList) (nodes : List Nat) (newNode : QuicklistNode) : QuickList :=
  { ql with nodes := nodes, fresh := ql.fresh + 1 }.setNode ql.fresh newNode

/-- `__quicklistInsertNode`: the address of the new node. -/
def quicklistInsertNode (oldNode : Option Nat) (newNode : QuicklistNode) (after : Bool) :
    M Nat := do
  let ql ← get
  match oldNode with
  | none =>
      -- without a node beside it the new one is only linked as head and tail
      if ql.len = 0 ∧ ql.nodes = [] then
        set (linkNode ql [ql.fresh] newNode)
        incrLen
        return ql.fresh
      else fail .detached
  | some old =>
      let _ ← nodeAt old
      -- head and tail would be set to the new node alone
      if ql.len = 0 then fail .detached
      else
        set (linkNode ql (insertBeside ql.nodes old ql.fresh after) newNode)
        quicklistCompress pf old
        incrLen
        return ql.fresh

/-- `__quicklistDelNode`. -/
def quicklistDelNode (p : Nat) : M Unit := do
  let node ← nodeAt p
  modify fun ql => { ql with nodes := ql.nodes.erase p }
  quicklistCompressTo pf none
  addCount (-node.count)
  modify fun ql => { ql with len := toUInt ((ql.len : Int) - 1) }

/-! ## How full nodes may get -/

def SIZE_SAFETY_LIMIT : Nat := 8192
def optimizationLevel : List Nat := [4096, 8192, 16384, 32768, 65536]

/-- `_quicklistNodeSizeMeetsOptimizationRequirement`. -/
def meetsOptimizationRequirement (sz : Nat) (fill : Int) : Bool :=
  if fill ≥ 0 then false
  else
    match optimizationLevel[(-fill - 1).toNat]? with
    | some level => sz ≤ level
    | none => false

/-- `_quicklistNodeAllowInsert`. -/
def quicklistNodeAllowInsert (node : Option QuicklistNode) (fill : Int) (sz : Nat) : Bool :=
  match node with
  | none => false
  | some node =>
      let ziplistOverhead := (if sz < 254 then 1 else 5) +
        (if sz < 64 then 1 else if sz < 16384 then 2 else 5)
      let newSz := toUInt (node.sz + sz + ziplistOverhead : Nat)
      if meetsOptimizationRequirement newSz fill then true
      else if newSz > SIZE_SAFETY_LIMIT then false
      else (node.count : Int) < fill

/-- `_quicklistNodeAllowMerge`. -/
def quicklistNodeAllowMerge (a b : Option QuicklistNode) (fill : Int) : Bool :=
  match a, b with
  | some a, some b =>
      let mergeSz := toUInt ((a.sz + b.sz : Nat) - 11 : Int)
      if meetsOptimizationRequirement mergeSz fill then true
      else if mergeSz > SIZE_SAFETY_LIMIT then false
      else ((a.count + b.count : Nat) : Int) ≤ fill
  | _, _ => false

/-! ## Pushing -/

/-- A value as a ziplist function gets it, its length in an `unsigned int`. -/
def cut (value : Bytes) : Bytes := value.take (toUInt value.length)

/-- A new node with one value. -/
def nodeWith (value : Bytes) (whr : Where) : M QuicklistNode := do
  let zl ← orFail .memory (ziplistPush pf.mem ziplistNew (cut value) whr)
  let sz ← orFail .memory (ziplistBlobLen zl)
  return { quicklistCreateNode zl with sz := sz }

/-- The end of a quicklist. -/
def QuickList.endOf (ql : QuickList) : Where → Option Nat
  | .HEAD => ql.head
  | .TAIL => ql.tail

/-- `ziplistPush` on a node. -/
def pushInto (p : Option Nat) (whr : Where) (value copied : Bytes) : M Unit := do
  let p ← deref p
  let zl ← rawAt p
  setZl p (← orFail .memory (ziplistPushCopying pf.mem zl (cut value) (cut copied) whr))
  quicklistNodeUpdateSz p

/-- `quicklistPushHead` and `quicklistPushTail`, which differ in the end alone, of a value
that may lie in the node at that end: `copied` is what it is when it is copied. -/
def quicklistPushCopying (whr : Where) (value copied : Bytes) : M Bool := do
  let ql ← get
  let orig := ql.endOf whr
  (if quicklistNodeAllowInsert (orig.map ql.node) ql.fill value.length then
    pushInto pf orig whr value copied
  else do
    let node ← nodeWith pf value whr
    let _ ← quicklistInsertNode pf orig node (decide (whr = .TAIL)))
  addCount 1
  let p ← deref ((← get).endOf whr)
  setCount p ((← nodeAt p).count + 1 : Nat)
  return decide (orig ≠ some p)

/-- `quicklistPushHead`. -/
def quicklistPushHead (value : Bytes) : M Bool := quicklistPushCopying pf .HEAD value value

/-- `quicklistPushTail`. -/
def quicklistPushTail (value : Bytes) : M Bool := quicklistPushCopying pf .TAIL value value

/-- `quicklistPush`. -/
def quicklistPush (value : Bytes) : Where → M Bool
  | .HEAD => quicklistPushHead pf value
  | .TAIL => quicklistPushTail pf value

/-- `quicklistAppendZiplist`. -/
def quicklistAppendZiplist (zl : Bytes) : M Unit := do
  let (count, zl) ← orFail .memory (ziplistLen zl)
  let sz ← orFail .memory (ziplistBlobLen zl)
  let node := { quicklistCreateNode zl with count := count % 2 ^ 16, sz := sz }
  let _ ← quicklistInsertNode pf (← get).tail node true
  addCount node.count

/-- The bytes of a value: an integer is printed. -/
def valueBytes : Value → Bytes
  | .str s => s
  | .int v => ll2str v

/-- The loop of `quicklistAppendValuesFromZiplist`. -/
def appendValues (zl : Bytes) : Nat → Option Nat → M Unit
  | 0, _ => return ()
  | fuel + 1, p => do
      match ← orFail .memory (ziplistGet zl p), p with
      | some value, some p =>
          let _ ← quicklistPushTail pf (valueBytes value)
          appendValues zl fuel (← orFail .memory (ziplistNext zl p))
      | _, _ => return ()

/-- `quicklistAppendValuesFromZiplist`. -/
def quicklistAppendValuesFromZiplist (zl : Bytes) : M Unit := do
  appendValues pf zl (zl.length + 1) (← orFail .memory (ziplistIndex zl 0))

/-! ## Finding entries -/

/-- `quicklistEntry`. -/
structure QuicklistEntry where
  node : Option Nat
  zi : Option Nat
  value : Option Value
  offset : Int
  deriving DecidableEq

/-- `initEntry`. -/
def initEntry : QuicklistEntry := ⟨none, none, none, 123456789⟩

/-- The loop of `quicklistIndex`: the node and the number of entries before it. -/
def findNode (ql : QuickList) (index : Nat) : List Nat → Nat → Option (Nat × Nat)
  | [], _ => none
  | p :: rest, accum =>
      if accum + (ql.node p).count > index then some (p, accum)
      else findNode ql index rest (accum + (ql.node p).count)

/-- `quicklistIndex`; the index is a `long long`. -/
def quicklistIndex (idx : Int) : M (Option QuicklistEntry) := do
  let ql ← get
  let forward := decide (0 ≤ idx)
  let index := if forward then idx.toNat else toULong (-idx - 1)
  if index ≥ ql.count then return none
  else
    match findNode ql index (if forward then ql.nodes else ql.nodes.reverse) 0 with
    | none => return none
    | some (p, accum) =>
        let offset := if forward then toInt (index - accum : Int)
          else toInt (-(index : Int) - 1 + accum)
        quicklistDecompressNodeForUse pf p
        let zl ← rawAt p
        let zi ← orFail .memory (ziplistIndex zl offset)
        let value ← orFail .memory (ziplistGet zl zi)
        return some ⟨some p, zi, value, offset⟩

/-! ## Deleting and replacing -/

/-- `quicklistDelIndex`: whether the node is gone. -/
def quicklistDelIndex (p zi : Nat) : M Bool := do
  let zl ← rawAt p
  setZl p (← orFail .memory (ziplistDelete pf.mem zl zi))
  setCount p ((← nodeAt p).count - 1 : Int)
  let gone := decide ((← nodeAt p).count = 0)
  (if gone then quicklistDelNode pf p else quicklistNodeUpdateSz p)
  addCount (-1)
  return gone

/-- `quicklistReplaceAtIndex`. -/
def quicklistReplaceAtIndex (index : Int) (data : Bytes) : M Bool := do
  match ← quicklistIndex pf index with
  | none => return false
  | some entry =>
      let p ← deref entry.node
      let zi ← deref entry.zi
      setZl p (← orFail .memory (ziplistDelete pf.mem (← rawAt p) zi))
      setZl p (← orFail .memory (ziplistInsert pf.mem (← rawAt p) zi (cut data)))
      quicklistNodeUpdateSz p
      quicklistCompress pf p
      return true

/-- `quicklistPopCustom` and `quicklistPop`: what is popped, if anything. -/
def quicklistPop (whr : Where) : M (Option Value) := do
  let ql ← get
  if ql.count = 0 then return none
  else
    match ql.endOf whr with
    | none => return none
    | some p =>
        let zl ← rawAt p
        let zi ← orFail .memory (ziplistIndex zl (if whr = .HEAD then 0 else -1))
        match ← orFail .memory (ziplistGet zl zi) with
        | none => return none
        | some value =>
            let _ ← quicklistDelIndex pf p (← deref zi)
            return some value

/-- `quicklistRotate`.  If there is one node, the value to insert lies in the ziplist that is
moved to make room for it; `late` is what is found in its place then. -/
def quicklistRotate (late : Nat → UInt8) : M Unit := do
  let ql ← get
  if ql.count ≤ 1 then return ()
  else
    let tail ← deref ql.tail
    let zl ← rawAt tail
    let zi ← orFail .memory (ziplistIndex zl (-1))
    -- without an entry the value would be that of an unset variable
    let value ← orFail .memory (← orFail .memory (ziplistGet zl zi))
    let copied :=
      match value with
      | .str s => if ql.head = ql.tail then (List.range s.length).map late else s
      | .int v => ll2str v
    let _ ← quicklistPushCopying pf .HEAD (valueBytes value) copied
    let ql ← get
    let tail ← deref ql.tail
    let zi ← (if ql.len = 1 then do orFail .memory (ziplistIndex (← rawAt tail) (-1))
      else pure zi)
    let _ ← quicklistDelIndex pf tail (← deref zi)

/-- `quicklistDelRange` on a node of which entries stay. -/
def delFromNode (p : Nat) (offset : Int) (del : Nat) : M Unit := do
  quicklistDecompressNodeForUse pf p
  setZl p (← orFail .memory (ziplistDeleteRange pf.mem (← rawAt p) offset (toUInt del)))
  quicklistNodeUpdateSz p
  setCount p ((← nodeAt p).count - del : Int)
  addCount (-del)
  if (← nodeAt p).count = 0 then quicklistDelNode pf p else quicklistRecompressOnly pf p

/-- The loop of `quicklistDelRange`; the offset is that of the entry in the node. -/
def delRangeLoop : Nat → Nat → Int → Option Nat → M Unit
  | 0, _, _, _ => fail .null
  | fuel + 1, extent, offset, p => do
      if extent = 0 then return ()
      else
        let p ← deref p
        let next ← nextOf (some p)
        let node ← nodeAt p
        if offset = 0 ∧ extent ≥ node.count then
          quicklistDelNode pf p
          delRangeLoop fuel (extent - node.count) 0 next
        else
          let del :=
            if offset ≥ 0 ∧ extent ≥ node.count then toULong (node.count - offset)
            else if offset < 0 then
              if toULong (-offset) > extent then extent else toULong (-offset)
            else extent
          delFromNode pf p offset del
          delRangeLoop fuel (toULong (extent - del : Int)) 0 next

/-- `quicklistDelRange`. -/
def quicklistDelRange (start count : Int) : M Bool := do
  if count ≤ 0 then return false
  else
    let ql ← get
    let extent := toULong count
    let extent :=
      if start ≥ 0 ∧ extent > toULong (ql.count - start) then toULong (ql.count - start)
      else if start < 0 ∧ extent > toULong (-start) then toULong (-start)
      else extent
    match ← quicklistIndex pf start with
    | none => return false
    | some entry =>
        delRangeLoop pf ((← get).nodes.length + 1) extent entry.offset entry.node
        return true

/-! ## Inserting -/

/-- A node that may be null. -/
def nodeOpt : Option Nat → M (Option QuicklistNode)
  | none => return none
  | some p => do return some (← nodeAt p)

/-- `_quicklistZiplistMerge`; the merge itself is always possible. -/
def quicklistZiplistMerge (a b : Nat) : M Nat := do
  quicklistDecompressNode pf (some a)
  quicklistDecompressNode pf (some b)
  let (zl, append) ← orFail .memory (ziplistMerge pf.mem (← rawAt a) (← rawAt b))
  let keep := if append then a else b
  let nokeep := if append then b else a
  let (count, zl) ← orFail .memory (ziplistLen zl)
  setZl keep zl
  setCount keep count
  quicklistNodeUpdateSz keep
  setCount nokeep 0
  quicklistDelNode pf nokeep
  quicklistCompress pf keep
  return keep

/-- `_quicklistNodeAllowMerge` of nodes that may be null. -/
def mergeAllowed (a b : Option Nat) : M Bool := do
  let fill := (← get).fill
  return quicklistNodeAllowMerge (← nodeOpt a) (← nodeOpt b) fill

/-- Two neighbours merged if the test allows it. -/
def tryMerge (a b : Option Nat) (left right : Option Nat) : M (Option Nat) := do
  let allowed ← mergeAllowed a b
  if allowed then return some (← quicklistZiplistMerge pf (← deref left) (← deref right))
  else return none

/-- A link of a node that may be null. -/
def linkOf (link : Option Nat → M (Option Nat)) : Option Nat → M (Option Nat)
  | none => return none
  | some p => link (some p)

/-- `_quicklistMergeNodes`. -/
def quicklistMergeNodes (center : Nat) : M Unit := do
  let prev ← prevOf (some center)
  let prevPrev ← linkOf prevOf prev
  let next ← nextOf (some center)
  let nextNext ← linkOf nextOf next
  let _ ← tryMerge pf prev prevPrev prevPrev prev
  let _ ← tryMerge pf next nextNext next nextNext
  let prev ← prevOf (some center)
  let merged ← tryMerge pf (some center) prev prev (some center)
  let target := merged.getD center
  let next ← nextOf (some target)
  let _ ← tryMerge pf (some target) next (some target) next

/-- `_quicklistSplitNode`: the ziplist of the new node and its count. -/
def quicklistSplitNode (p : Nat) (offset : Int) (after : Bool) : M (Bytes × Nat) := do
  let zl ← rawAt p
  let copy ← orFail .memory (readAt zl 0 (← nodeAt p).sz)
  let origStart := if after then offset + 1 else 0
  let origExtent := if after then -1 else offset
  let newStart := if after then 0 else offset
  let newExtent := if after then offset + 1 else -1
  let zl ← orFail .memory (ziplistDeleteRange pf.mem zl (toInt origStart) (toUInt origExtent))
  let (count, zl) ← orFail .memory (ziplistLen zl)
  setZl p zl
  setCount p count
  quicklistNodeUpdateSz p
  let zl ← orFail .memory (ziplistDeleteRange pf.mem copy (toInt newStart) (toUInt newExtent))
  let (count, zl) ← orFail .memory (ziplistLen zl)
  return (zl, count % 2 ^ 16)

/-- `_quicklistInsert` into a node that has room: it is opened, changed and closed. -/
def insertInto (p : Nat) (edit : Bytes → Option Bytes) : M Unit := do
  quicklistDecompressNodeForUse pf p
  setZl p (← orFail .memory (edit (← rawAt p)))
  setCount p ((← nodeAt p).count + 1 : Nat)
  quicklistNodeUpdateSz p
  quicklistRecompressOnly pf p

/-- `ziplistInsert` behind an entry, as `_quicklistInsert` does it. -/
def insertBehind (zl : Bytes) (zi : Nat) (value : Bytes) : Option Bytes := do
  match ← ziplistNext zl zi with
  | none => ziplistPush pf.mem zl value .TAIL
  | some next => ziplistInsert pf.mem zl next value

/-- `_quicklistInsert` into an empty quicklist. -/
def insertFirst (value : Bytes) (after : Bool) : M Unit := do
  let zl ← orFail .memory (ziplistPush pf.mem ziplistNew (cut value) .HEAD)
  let new ← quicklistInsertNode pf none (quicklistCreateNode zl) after
  setCount new ((← nodeAt new).count + 1 : Nat)
  addCount 1

/-- `_quicklistInsert` where the node has to be split. -/
def insertSplitting (p : Nat) (offset : Int) (value : Bytes) (after : Bool) : M Unit := do
  quicklistDecompressNodeForUse pf p
  let (zl, count) ← quicklistSplitNode pf p offset after
  let zl ← orFail .memory (ziplistPush pf.mem zl (cut value) (if after then .HEAD else .TAIL))
  let sz ← orFail .memory (ziplistBlobLen zl)
  let new := { quicklistCreateNode zl with count := (count + 1) % 2 ^ 16, sz := sz }
  let _ ← quicklistInsertNode pf (some p) new after
  quicklistMergeNodes pf p

/-- `_quicklistInsert`. -/
def quicklistInsert (entry : QuicklistEntry) (value : Bytes) (after : Bool) : M Unit := do
  let fill := (← get).fill
  let sz := value.length
  match entry.node with
  | none => insertFirst pf value after
  | some p =>
      let node ← nodeAt p
      let full := !quicklistNodeAllowInsert (some node) fill sz
      let atTail := after && decide (entry.offset = node.count)
      let next ← nextOf (some p)
      let fullNext := atTail && !quicklistNodeAllowInsert (← nodeOpt next) fill sz
      let atHead := !after && decide (entry.offset = 0)
      let prev ← prevOf (some p)
      let fullPrev := atHead && !quicklistNodeAllowInsert (← nodeOpt prev) fill sz
      (if !full && after then do
        let zi ← deref entry.zi
        insertInto pf p (fun zl => insertBehind pf zl zi (cut value))
      else if !full && !after then do
        let zi ← deref entry.zi
        insertInto pf p (fun zl => ziplistInsert pf.mem zl zi (cut value))
      else if full && atTail && next.isSome && !fullNext && after then do
        insertInto pf (← deref next) (fun zl => ziplistPush pf.mem zl (cut value) .HEAD)
      else if full && atHead && prev.isSome && !fullPrev && !after then do
        insertInto pf (← deref prev) (fun zl => ziplistPush pf.mem zl (cut value) .TAIL)
      else if full && ((atTail && next.isSome && fullNext && after) ||
          (atHead && prev.isSome && fullPrev && !after)) then do
        let new ← nodeWith pf value .HEAD
        let _ ← quicklistInsertNode pf (some p) { new with count := 1 } after
      else insertSplitting pf p entry.offset value after)
      addCount 1

/-! ## Iterators -/

/-- `AL_START_HEAD` and `AL_START_TAIL`. -/
inductive Direction
  | AL_START_HEAD
  | AL_START_TAIL
  deriving DecidableEq

/-- `quicklistIter`. -/
structure QuicklistIter where
  current : Option Nat
  zi : Option Nat
  offset : Int
  direction : Direction
  deriving DecidableEq

/-- `quicklistGetIterator`. -/
def quicklistGetIterator (ql : QuickList) : Direction → QuicklistIter
  | .AL_START_HEAD => ⟨ql.head, none, 0, .AL_START_HEAD⟩
  | .AL_START_TAIL => ⟨ql.tail, none, -1, .AL_START_TAIL⟩

/-- `quicklistGetIteratorAtIdx`. -/
def quicklistGetIteratorAtIdx (direction : Direction) (idx : Int) : M (Option QuicklistIter) := do
  match ← quicklistIndex pf idx with
  | none => return none
  | some entry => return some ⟨entry.node, none, entry.offset, direction⟩

/-- `quicklistReleaseIterator`. -/
def quicklistReleaseIterator (iter : QuicklistIter) : M Unit :=
  match iter.current with
  | none => return ()
  | some p => quicklistCompress pf p

/-- The place in the current node that `quicklistNext` moves to. -/
def advance (p : Nat) (iter : QuicklistIter) : M QuicklistIter :=
  match iter.zi with
  | none => do
      quicklistDecompressNodeForUse pf p
      let zi ← orFail .memory (ziplistIndex (← rawAt p) (toInt iter.offset))
      return { iter with zi := zi }
  | some zi => do
      let zl ← rawAt p
      match iter.direction with
      | .AL_START_HEAD =>
          let zi ← orFail .memory (ziplistNext zl zi)
          return { iter with zi := zi, offset := iter.offset + 1 }
      | .AL_START_TAIL =>
          let zi ← orFail .memory (ziplistPrev zl zi)
          return { iter with zi := zi, offset := iter.offset - 1 }

/-- The node that `quicklistNext` goes on with. -/
def jump (p : Nat) (iter : QuicklistIter) : M QuicklistIter :=
  match iter.direction with
  | .AL_START_HEAD => do
      let next ← nextOf (some p)
      return { iter with current := next, offset := 0, zi := none }
  | .AL_START_TAIL => do
      let prev ← prevOf (some p)
      return { iter with current := prev, offset := -1, zi := none }

/-- `quicklistNext`: the iterator and the entry after it, and whether there is one. -/
def quicklistNextLoop : Nat → QuicklistIter → M (QuicklistIter × QuicklistEntry × Bool)
  | 0, _ => fail .null
  | fuel + 1, iter => do
      match iter.current with
      | none => return (iter, initEntry, false)
      | some p =>
          let iter ← advance pf p iter
          match iter.zi with
          | some zi =>
              let value ← orFail .memory (ziplistGet (← rawAt p) (some zi))
              return (iter, ⟨some p, some zi, value, toInt iter.offset⟩, true)
          | none =>
              quicklistCompress pf p
              let iter ← jump p iter
              quicklistNextLoop fuel iter

/-- `quicklistNext`. -/
def quicklistNext (iter : QuicklistIter) : M (QuicklistIter × QuicklistEntry × Bool) := do
  quicklistNextLoop pf ((← get).nodes.length + 1) iter

/-- `quicklistDelEntry`. -/
def quicklistDelEntry (iter : QuicklistIter) (entry : QuicklistEntry) : M QuicklistIter := do
  let p ← deref entry.node
  let prev ← prevOf (some p)
  let next ← nextOf (some p)
  let deletedNode ← quicklistDelIndex pf p (← deref entry.zi)
  let iter := { iter with zi := none }
  if deletedNode then
    match iter.direction with
    | .AL_START_HEAD => return { iter with current := next, offset := 0 }
    | .AL_START_TAIL => return { iter with current := prev, offset := -1 }
  else return iter

/-! ## Copying -/

/-- A node of `quicklistDup`.  The new node is raw when its encoding is looked at, so as many
bytes are copied as the ziplist has; of a compressed node these are its bytes and what is
behind them in memory. -/
def dupNode (node : QuicklistNode) : M QuicklistNode := do
  match node.zl with
  | .raw zl =>
      let copy ← orFail .memory (readAt zl 0 node.sz)
      return ⟨.raw copy, node.sz, node.count, false⟩
  | .lzf c => return ⟨.lzf c, node.sz, node.count, false⟩

/-- The loop of `quicklistDup`. -/
def dupLoop (orig : QuickList) : List Nat → M Unit
  | [] => return ()
  | p :: rest => do
      let node ← dupNode (orig.node p)
      addCount node.count
      let _ ← quicklistInsertNode pf (← get).tail node true
      dupLoop orig rest

/-- `quicklistDup`. -/
def quicklistDup : M QuickList := do
  let orig ← get
  let ((), copy) ← runOn (quicklistNew orig.fill orig.compress) (dupLoop pf orig orig.nodes)
  return copy

end Quicklist

end RedisCore
