/-
# `RedisCore.Quicklist.Session` — runs of the quicklist interface

A session is a quicklist with at most one open iterator and the entry that it gave last.
While an iterator is open the list is changed through it alone, for positions in the
ziplists would no longer be right; reading the list and copying it goes on.  An entry is
inserted beside at once, before anything else is done to the list.
-/
import RedisCore.Quicklist.Code

namespace RedisCore

namespace Quicklist

open Marked Ziplist

/-- A quicklist in use. -/
structure Session where
  ql : QuickList
  iter : Option QuicklistIter
  entry : Option QuicklistEntry

/-- The calls of the interface. -/
inductive Op
  | push (value : Bytes) (whr : Where)
  | pop (whr : Where)
  | rotate (late : Nat → UInt8)
  | index (idx : Int)
  | insert (idx : Int) (value : Bytes) (after : Bool)
  | replaceAtIndex (idx : Int) (data : Bytes)
  | delRange (start count : Int)
  | appendZiplist (zl : Bytes)
  | appendValuesFromZiplist (zl : Bytes)
  | getIterator (direction : Direction)
  | getIteratorAtIdx (direction : Direction) (idx : Int)
  | next
  | delEntry
  | releaseIterator
  | dup (useCopy : Bool)

/-- A function on the list of a session. -/
def onList {α : Type} (m : M α) : Prog Session Fault α :=
  zoom Session.ql (fun s ql => { s with ql := ql }) m

variable (pf : Platform)

/-- A value is inserted beside the entry of an index, or into an empty list. -/
def insertAtIndex (idx : Int) (value : Bytes) (after : Bool) : M Unit := do
  match ← quicklistIndex pf idx with
  | some entry => quicklistInsert pf entry value after
  | none => do
      let ql ← get
      if ql.count = 0 then quicklistInsert pf initEntry value after else return ()

/-- A call that changes the list, without an iterator. -/
def changeList : Op → M Unit
  | .push value whr => do
      let _ ← quicklistPush pf value whr
  | .pop whr => do
      let _ ← quicklistPop pf whr
  | .rotate late => quicklistRotate pf late
  | .insert idx value after => insertAtIndex pf idx value after
  | .replaceAtIndex idx data => do
      let _ ← quicklistReplaceAtIndex pf idx data
  | .delRange start count => do
      let _ ← quicklistDelRange pf start count
  | .appendZiplist zl => quicklistAppendZiplist pf zl
  | .appendValuesFromZiplist zl => quicklistAppendValuesFromZiplist pf zl
  | _ => return ()

/-- A call. -/
def step (op : Op) : Prog Session Fault Unit := do
  let s ← get
  match op, s.iter with
  | .index idx, _ => do
      let _ ← onList (quicklistIndex pf idx)
  | .dup useCopy, none => do
      let copy ← onList (quicklistDup pf)
      if useCopy then set { s with ql := copy } else return ()
  | .dup _, some _ => do
      let _ ← onList (quicklistDup pf)
  | .getIterator direction, none =>
      set { s with iter := some (quicklistGetIterator s.ql direction), entry := none }
  | .getIteratorAtIdx direction idx, none => do
      let iter ← onList (quicklistGetIteratorAtIdx pf direction idx)
      modify fun s => { s with iter := iter, entry := none }
  | .next, some iter => do
      let (iter, entry, found) ← onList (quicklistNext pf iter)
      modify fun s => { s with iter := some iter, entry := if found then some entry else none }
  | .delEntry, some iter =>
      match s.entry with
      | none => return ()
      | some entry => do
          let iter ← onList (quicklistDelEntry pf iter entry)
          modify fun s => { s with iter := some iter, entry := none }
  | .releaseIterator, some iter => do
      onList (quicklistReleaseIterator pf iter)
      modify fun s => { s with iter := none, entry := none }
  | _, some _ => return ()
  | op, none => onList (changeList pf op)

/-- Calls one after the other. -/
def run : List Op → Prog Session Fault Unit
  | [] => return ()
  | op :: ops => do
      step pf op
      run ops

/-- The session with a new quicklist. -/
def newSession (fill compress : Int) : Session := ⟨quicklistNew fill compress, none, none⟩

end Quicklist

end RedisCore
