/-
# `RedisCore.Dict.Iterator` — dictNext and the callers of a safe iterator (dict.c)

An iterator keeps pointers to entries while its caller changes the dict.  The entries of
`Dict.Table` have no addresses, so here the key object of an entry carries one: a number
that the hash and the comparison do not see.  It is given when the entry is allocated, stays
with the entry, and is not given again.

`dictNext` reads `next` of the entry it is about to return.  Where that entry has been freed
there is no such field, and the answer is `none`.

Between two calls of `dictNext` the caller may delete the entry that was returned last, look
up keys, and add or replace keys; `step` is one such call.
-/
import RedisCore.Dict.Inv
import RedisCore.Lib.ChainWalk

namespace RedisCore

variable {α β : Type}

/-- The callbacks on key objects: the address does not matter. -/
def DictType.addressed (t : DictType α) : DictType (α × Nat) where
  hashFunction k := t.hashFunction k.1
  keyCompare a b := t.keyCompare a.1 b.1

/-- The address of an entry. -/
def DictEntry.addr (e : DictEntry (α × Nat) β) : Nat := e.key.2

/-- The chains of a table, as the addresses of their entries. -/
def Dictht.addrs (ht : Dictht (α × Nat) β) : List (List Nat) :=
  ht.table.map (List.map DictEntry.addr)

/-- The addresses of all entries. -/
def Dict.addrs (d : Dict (α × Nat) β) : List Nat := d.entries.map DictEntry.addr

/-- `dictIterator`; `d` is passed along.  The fingerprint of an unsafe iterator is not kept,
since nothing reads it. -/
structure DictIterator where
  table : Bool
  index : Int
  safe : Bool
  entry : Option Nat
  nextEntry : Option Nat
deriving DecidableEq, Repr

/-- `dictGetIterator`. -/
def dictGetIterator : DictIterator := ⟨false, -1, false, none, none⟩

/-- `dictGetSafeIterator`. -/
def dictGetSafeIterator : DictIterator := { dictGetIterator with safe := true }

/-- `ht->table[index]`. -/
def headAddr (ht : Dictht (α × Nat) β) (index : Nat) : Option Nat :=
  (ht.chain index).head?.map DictEntry.addr

/-- `entry->next`; `none` where there is no such entry. -/
def entryNext (d : Dict (α × Nat) β) (entry : Nat) : Option (Option Nat) :=
  ChainWalk.follow (d.ht0.addrs ++ d.ht1.addrs) entry

/-- The entry that an iterator turns to next, and whether the loop is left instead. -/
def dictNextTurn (d : Dict (α × Nat) β) (iter : DictIterator) :
    Dict (α × Nat) β × DictIterator × Bool :=
  match iter.entry with
  | none =>
      let d :=
        if iter.index = -1 ∧ iter.table = false then
          if iter.safe then { d with iterators := d.iterators + 1 } else d
        else d
      let iter := { iter with index := iter.index + 1 }
      let ht := if iter.table then d.ht1 else d.ht0
      if iter.index ≥ ht.size then
        if dictIsRehashing d = true ∧ iter.table = false then
          (d, { iter with table := true, index := 0, entry := headAddr d.ht1 0 }, false)
        else (d, iter, true)
      else (d, { iter with entry := headAddr ht iter.index.toNat }, false)
  | some _ => (d, { iter with entry := iter.nextEntry }, false)

/-- The loop of `dictNext`. -/
def dictNextLoop : Nat → Dict (α × Nat) β → DictIterator →
    Option (Dict (α × Nat) β × DictIterator × Option Nat)
  | 0, _, _ => none
  | fuel + 1, d, iter =>
      match dictNextTurn d iter with
      | (d, iter, true) => some (d, iter, none)
      | (d, iter, false) =>
          match iter.entry with
          | some entry =>
              (entryNext d entry).map
                (fun next => (d, { iter with nextEntry := next }, some entry))
          | none => dictNextLoop fuel d iter

/-- `dictNext`.  A turn enters a bucket, leaves a chain or ends the loop, so that the buckets
of both tables are fuel enough. -/
def dictNext (d : Dict (α × Nat) β) (iter : DictIterator) :
    Option (Dict (α × Nat) β × DictIterator × Option Nat) :=
  dictNextLoop (d.ht0.size + d.ht1.size + 3) d iter

/-- `dictReleaseIterator`. -/
def dictReleaseIterator (d : Dict (α × Nat) β) (iter : DictIterator) : Dict (α × Nat) β :=
  if ¬ (iter.index = -1 ∧ iter.table = false) then
    if iter.safe then { d with iterators := d.iterators - 1 } else d
  else d

/-! ## An iteration -/

/-- The calls of an iteration. -/
inductive IterOp (α β : Type) where
  | next
  /-- Delete the entry that was returned last. -/
  | delete
  | find (key : α)
  | fetchValue (key : α)
  | add (canResize : Bool) (key : α) (val junk : β)
  | addRaw (canResize : Bool) (key : α) (junk : β)
  | replace (canResize : Bool) (key : α) (val junk : β)
  | replaceRaw (canResize : Bool) (key : α) (junk : β)

/-- A dict under iteration: the iterator, the address the next entry gets, the key of the
entry that was returned last, and all entries that were returned. -/
structure IterState (α β : Type) where
  d : Dict (α × Nat) β
  iter : DictIterator
  fresh : Nat
  current : Option α
  returned : List Nat

/-- The tables can be allocated; `zcalloc` ends the process otherwise. -/
def allocated (d : Dict (α × Nat) β) : Bool := d.ht0.size < 2 ^ 61 && d.ht1.size < 2 ^ 61

/-- What the caller does to the dict; `k` is the key that was returned last. -/
def callerOp (t : DictType α) (d : Dict (α × Nat) β) (fresh : Nat) (k : α) :
    IterOp α β → Dict (α × Nat) β
  | .next => d
  | .delete => (dictDelete t.addressed d (k, fresh)).1
  | .find key => (dictFind t.addressed d (key, fresh)).1
  | .fetchValue key => (dictFetchValue t.addressed d (key, fresh)).1
  | .add canResize key val junk => (dictAdd t.addressed canResize d (key, fresh) val junk).1
  | .addRaw canResize key junk => (dictAddRaw t.addressed canResize d (key, fresh) junk).1
  | .replace canResize key val junk =>
      (dictReplace t.addressed canResize d (key, fresh) val junk).1
  | .replaceRaw canResize key junk =>
      (dictReplaceRaw t.addressed canResize d (key, fresh) junk).1

/-- The key object of an entry. -/
def keyAt (d : Dict (α × Nat) β) (entry : Nat) : Option α :=
  (d.entries.find? (fun e => e.addr = entry)).map (·.key.1)

/-- One call of `dictNext`, with what it answers recorded. -/
def nextStep (s : IterState α β) : Option (IterState α β) :=
  (dictNext s.d s.iter).map fun (d, iter, r) =>
    { s with
      d := d
      iter := iter
      current := r.bind (keyAt d)
      returned := s.returned ++ r.toList }

/-- The iteration has neither begun nor is it at an entry: it has ended. -/
def IterState.ended (s : IterState α β) : Bool := s.iter.entry.isNone && decide (s.iter.index ≠ -1)

/-- One call.  After its end `dictNext` is not called again, and the caller's calls come
between two calls of it. -/
def iterStep (t : DictType α) (s : IterState α β) : IterOp α β → Option (IterState α β)
  | .next => if s.ended then none else nextStep s
  | op =>
      s.current.bind fun k =>
        let d := callerOp t s.d s.fresh k op
        if allocated d then some { s with d := d, fresh := s.fresh + 1 } else none

def iterRun (t : DictType α) (s : IterState α β) : List (IterOp α β) → Option (IterState α β)
  | [] => some s
  | op :: ops => (iterStep t s op).bind (iterRun t · ops)

/-- The iteration of a dict with a safe iterator. -/
def startIteration (d : Dict (α × Nat) β) (fresh : Nat) : IterState α β :=
  ⟨d, dictGetSafeIterator, fresh, none, []⟩

end RedisCore
