/-
# `RedisCore.Adlist.Code` — the doubly linked list (`adlist.c`)

The nodes of all lists are in one memory, at addresses that `zmalloc` hands out; a `list` has
the addresses of its ends, its length and its methods.  A function that follows a pointer to
no node has the result `none`.  What `zmalloc` returns, an address or NULL, is an argument of
each function that calls it.  `zfree` takes the node out of the memory, so that its address
may be handed out again; the values that the `free` method of a list was called on are kept in
the order of the calls.

A list never has as many nodes as there are addresses, so `len` does not wrap around.
-/
import RedisCore.Lib.TwoWay

namespace RedisCore.Adlist

open TwoWay

/-- `listNode` -/
abbrev ListNode (V : Type) := Cell Nat V

/-- `list` -/
structure Alist (V : Type) where
  head : Option Nat
  tail : Option Nat
  /-- `dup`, which returns NULL where it fails -/
  dup : Option (V → Option V)
  /-- whether there is a `free` method -/
  free : Bool
  /-- `match`, of a value and a key -/
  matchMethod : Option (V → V → Bool)
  len : Nat

/-- The memory: the nodes, and the values that were freed. -/
structure Heap (V : Type) where
  node : Cells Nat V
  freed : List V

inductive Direction where
  | startHead  -- AL_START_HEAD
  | startTail  -- AL_START_TAIL
deriving DecidableEq, Repr

/-- `listIter` -/
structure ListIter where
  next : Option Nat
  direction : Direction
deriving DecidableEq, Repr

variable {V : Type}

/-- What `listCreate` puts into a new list. -/
def listCreate : Alist V :=
  { head := none, tail := none, dup := none, free := false, matchMethod := none, len := 0 }

/-- `list->free`, where it is set, on a value. -/
def callFree (h : Heap V) (list : Alist V) (value : V) : Heap V :=
  if list.free then { h with freed := h.freed ++ [value] } else h

/-- `zfree` of a node. -/
def zfree (h : Heap V) (node : Nat) : Heap V :=
  { h with node := Function.update h.node node none }

/-! ## Adding and deleting nodes

The functions return the list, and whether the pointer they return is not NULL. -/

def listAddNodeHead (h : Heap V) (list : Alist V) (value : V) :
    Option Nat → Option (Heap V × Alist V × Bool)
  | none => some (h, list, false)
  | some node =>
    if list.len = 0 then
      some ({ h with node := Function.update h.node node (some ⟨none, none, value⟩) },
        { list with head := some node, tail := some node, len := list.len + 1 }, true)
    else do
      let m := Function.update h.node node (some ⟨none, list.head, value⟩)
      let head ← list.head
      let m ← setPrev m head (some node)
      some ({ h with node := m }, { list with head := some node, len := list.len + 1 }, true)

def listAddNodeTail (h : Heap V) (list : Alist V) (value : V) :
    Option Nat → Option (Heap V × Alist V × Bool)
  | none => some (h, list, false)
  | some node =>
    if list.len = 0 then
      some ({ h with node := Function.update h.node node (some ⟨none, none, value⟩) },
        { list with head := some node, tail := some node, len := list.len + 1 }, true)
    else do
      let m := Function.update h.node node (some ⟨list.tail, none, value⟩)
      let tail ← list.tail
      let m ← setNext m tail (some node)
      some ({ h with node := m }, { list with tail := some node, len := list.len + 1 }, true)

def listInsertNode (h : Heap V) (list : Alist V) (old_node : Nat) (value : V) (after : Bool) :
    Option Nat → Option (Heap V × Alist V × Bool)
  | none => some (h, list, false)
  | some node => do
    let old ← h.node old_node
    let new : ListNode V :=
      if after then ⟨some old_node, old.next, value⟩ else ⟨old.prev, some old_node, value⟩
    let list :=
      if after then
        if list.tail = some old_node then { list with tail := some node } else list
      else
        if list.head = some old_node then { list with head := some node } else list
    let m ← relinkNext (Function.update h.node node (some new)) new.prev (some node)
    let m ← relinkPrev m new.next (some node)
    some ({ h with node := m }, { list with len := list.len + 1 }, true)

def listDelNode (h : Heap V) (list : Alist V) (node : Nat) : Option (Heap V × Alist V) := do
  let n ← h.node node
  let m ← relinkNext h.node n.prev n.next
  let list := if n.prev = none then { list with head := n.next } else list
  let n ← m node
  let m ← relinkPrev m n.next n.prev
  let list := if n.next = none then { list with tail := n.prev } else list
  let n ← m node
  let h := zfree (callFree { h with node := m } list n.value) node
  some (h, { list with len := list.len - 1 })

/-- Remove the tail node and insert it at the head. -/
def listRotate (h : Heap V) (list : Alist V) : Option (Heap V × Alist V) :=
  if list.len ≤ 1 then some (h, list)
  else do
    let tail ← list.tail
    let n ← h.node tail
    -- detach the tail: the one before it is the last now
    let newTail ← n.prev
    let m ← setNext h.node newTail none
    let head ← list.head
    let m ← setPrev m head (some tail)
    let m ← setPrev m tail none
    let m ← setNext m tail (some head)
    some ({ h with node := m }, { list with tail := some newTail, head := some tail })

/-! ## Iterators -/

def listGetIterator (list : Alist V) (direction : Direction) : ListIter :=
  { next := if direction = .startHead then list.head else list.tail, direction := direction }

def listRewind (list : Alist V) : ListIter := { next := list.head, direction := .startHead }

def listRewindTail (list : Alist V) : ListIter := { next := list.tail, direction := .startTail }

/-- The node an iterator stands at; it goes on to the one after that. -/
def listNext (h : Heap V) (iter : ListIter) : Option (Option Nat × ListIter) :=
  match iter.next with
  | none => some (none, iter)
  | some current => do
    let n ← h.node current
    let next := if iter.direction = .startHead then n.next else n.prev
    some (some current, { iter with next := next })

/-! ## Whole lists -/

/-- `while(len--)` of `listRelease`. -/
def releaseLoop (list : Alist V) : Nat → Heap V → Option Nat → Option (Heap V)
  | 0, h, _ => some h
  | len + 1, h, current => do
    let current ← current
    let n ← h.node current
    releaseLoop list len (zfree (callFree h list n.value) current) n.next

def listRelease (h : Heap V) (list : Alist V) : Option (Heap V) :=
  releaseLoop list list.len h list.head

/-- The value `listDup` gives the copy of a node; `none` where `dup` fails. -/
def dupValue (dup : Option (V → Option V)) (value : V) : Option V :=
  match dup with
  | some dup => dup value
  | none => some value

/-- `while((node = listNext(&iter)) != NULL)` of `listDup`; `nodes` are the addresses `zmalloc`
returns before it fails.  The original is walked through for at most so many nodes. -/
def dupLoop : Nat → Heap V → Alist V → ListIter → List Nat →
    Option (Heap V × Option (Alist V))
  | 0, _, _, _, _ => none
  | fuel + 1, h, copy, iter, nodes => do
    let (node, iter) ← listNext h iter
    match node with
    | none => some (h, some copy)
    | some node =>
      let n ← h.node node
      match dupValue copy.dup n.value with
      | none => (listRelease h copy).map (·, none)
      | some value =>
        let (h, copy, added) ← listAddNodeTail h copy value nodes.head?
        if added then dupLoop fuel h copy iter nodes.tail
        else (listRelease h copy).map (·, none)

/-- `listDup`; `room`: whether there is memory for the list itself.  A list without a cycle is
walked through in `len + 1` calls of `listNext`. -/
def listDup (h : Heap V) (orig : Alist V) (room : Bool) (nodes : List Nat) :
    Option (Heap V × Option (Alist V)) :=
  if room then
    let copy : Alist V :=
      { (listCreate : Alist V) with dup := orig.dup, free := orig.free, matchMethod := orig.matchMethod }
    dupLoop (orig.len + 1) h copy (listRewind orig) nodes
  else
    some (h, none)

/-- `while((node = listNext(&iter)) != NULL)` of `listSearchKey`. -/
def searchLoop [DecidableEq V] (h : Heap V) (list : Alist V) (key : V) :
    Nat → ListIter → Option (Option Nat)
  | 0, _ => none
  | fuel + 1, iter => do
    let (node, iter) ← listNext h iter
    match node with
    | none => some none
    | some node =>
      let n ← h.node node
      let found := match list.matchMethod with
        | some same => same n.value key
        | none => decide (key = n.value)
      if found then some (some node) else searchLoop h list key fuel iter

def listSearchKey [DecidableEq V] (h : Heap V) (list : Alist V) (key : V) : Option (Option Nat) :=
  searchLoop h list key (list.len + 1) (listRewind list)

/-- `while(index-- && n)` of `listIndex`. -/
def indexLoop (next : Nat → Option (Option Nat)) : Nat → Option Nat → Option (Option Nat)
  | 0, n => some n
  | _ + 1, none => some none
  | index + 1, some n => do indexLoop next index (← next n)

/-- The node at an index from the head, or from the tail where it is negative. -/
def listIndex (h : Heap V) (list : Alist V) (index : Int) : Option (Option Nat) :=
  if index < 0 then
    indexLoop (fun a => (h.node a).map Cell.prev) (-index - 1).toNat list.tail
  else
    indexLoop (fun a => (h.node a).map Cell.next) index.toNat list.head

end RedisCore.Adlist
