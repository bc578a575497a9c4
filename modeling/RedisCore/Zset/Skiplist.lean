/-
# `RedisCore.Zset.Skiplist` — the skip list of a sorted set (t_zset.c)

Nodes are on an explicit heap and refer to each other by address.  A node has as many
levels as `zslRandomLevel` said when it was created, each with the next node that is at
least as tall and with the number of nodes from here to there.  The header is a node of
full height without an element.

`zslInsert` and `zslDelete` first walk down the levels and note, for each, the last node
before the place in question (`update`) and, for an insertion, its rank.  A read or write
of something that is not there makes the operation fail.  A span is an `unsigned int`.
-/
import RedisCore.Compare
import RedisCore.Lib.Lanes
import Mathlib.Data.Prod.Lex
import Mathlib.Logic.Function.Basic

namespace RedisCore

namespace Skiplist

/-- `ZSKIPLIST_MAXLEVEL`. -/
def ZSKIPLIST_MAXLEVEL : Nat := 32

/-- A node, by its address. -/
abbrev NodeId := Nat

/-- `struct zskiplistLevel`. -/
structure ZskiplistLevel where
  forward : Option NodeId
  span : UInt32
  deriving DecidableEq

variable {σ : Type}

/-- `zskiplistNode`; only the header has no object. -/
structure ZskiplistNode (σ : Type) where
  obj : Option StringObj
  score : σ
  backward : Option NodeId
  level : List ZskiplistLevel

/-- `zskiplist`, with the memory its nodes are in. -/
structure Zskiplist (σ : Type) where
  node : NodeId → Option (ZskiplistNode σ)
  header : NodeId
  tail : Option NodeId
  length : Nat
  level : Nat

/-- `zslCreateNode`, with the levels and `backward` as they are set later on. -/
def zslCreateNode (level : Nat) (score : σ) (obj : Option StringObj) : ZskiplistNode σ :=
  ⟨obj, score, none, List.replicate level ⟨none, 0⟩⟩

/-- `zslCreate`; the header is put at the given address. -/
def zslCreate [Zero σ] (header : NodeId) : Zskiplist σ where
  node := Function.update (fun _ => none) header (some (zslCreateNode ZSKIPLIST_MAXLEVEL 0 none))
  header := header
  tail := none
  length := 0
  level := 1

/-! ## Access to the nodes -/

/-- `x->level[i]`. -/
def Zskiplist.lev (z : Zskiplist σ) (x : NodeId) (i : Nat) : Option ZskiplistLevel :=
  (z.node x).bind (fun n => n.level[i]?)

/-- Write a node. -/
def Zskiplist.setNode (z : Zskiplist σ) (x : NodeId) (n : Option (ZskiplistNode σ)) :
    Zskiplist σ := { z with node := Function.update z.node x n }

/-- Write `x->level[i]`. -/
def Zskiplist.setLev (z : Zskiplist σ) (x : NodeId) (i : Nat) (l : ZskiplistLevel) :
    Option (Zskiplist σ) :=
  match z.node x with
  | none => none
  | some n =>
      if i < n.level.length then some (z.setNode x (some { n with level := n.level.set i l }))
      else none

/-- Write `x->backward`. -/
def Zskiplist.setBackward (z : Zskiplist σ) (x : NodeId) (b : Option NodeId) :
    Option (Zskiplist σ) :=
  match z.node x with
  | none => none
  | some n => some (z.setNode x (some { n with backward := b }))

/-! ## Searching -/

variable [LinearOrder σ]

/-- The test with which a search goes on behind a node. -/
def ZskiplistNode.before (n : ZskiplistNode σ) (score : σ) (obj : StringObj) : Bool :=
  n.score < score || (n.score = score &&
    n.obj.any (fun o => compareStringObjects o.val obj.val < 0))

/-- The inner loop of a search: go forward on level `i`, adding up the spans. -/
def advance (z : Zskiplist σ) (score : σ) (obj : StringObj) (i : Nat) :
    Nat → NodeId → UInt32 → Option (NodeId × UInt32)
  | 0, _, _ => none
  | fuel + 1, x, rank =>
      match z.lev x i with
      | none => none
      | some l =>
          match l.forward with
          | none => some (x, rank)
          | some y =>
              match z.node y with
              | none => none
              | some n =>
                  if n.before score obj then advance z score obj i fuel y (rank + l.span)
                  else some (x, rank)

/-- The outer loop, from the level below the given one down: `update` and `rank`. -/
def search (z : Zskiplist σ) (score : σ) (obj : StringObj) :
    Nat → NodeId → UInt32 → Option (List (NodeId × UInt32))
  | 0, _, _ => some []
  | i + 1, x, rank =>
      match advance z score obj i (z.length + 1) x rank with
      | none => none
      | some (x, rank) => (search z score obj i x rank).map (· ++ [(x, rank)])

/-! ## Insertion -/

/-- A loop over the levels from `i` on, with what `update` has for each. -/
def forLevels {α : Type} (step : Nat → α → Zskiplist σ → Option (Zskiplist σ)) :
    Nat → List α → Zskiplist σ → Option (Zskiplist σ)
  | _, [], z => some z
  | i, a :: update, z => (step i a z).bind (forLevels step (i + 1) update)

/-- A level that comes into use: `update[i]->level[i].span = zsl->length`. -/
def raiseLevel (i : Nat) (p : NodeId × UInt32) (z : Zskiplist σ) : Option (Zskiplist σ) :=
  match z.lev p.1 i with
  | none => none
  | some l => z.setLev p.1 i { l with span := UInt32.ofNat z.length }

/-- Link the new node `x` into a level. -/
def linkLevel (x : NodeId) (rank0 : UInt32) (i : Nat) (p : NodeId × UInt32) (z : Zskiplist σ) :
    Option (Zskiplist σ) :=
  match z.lev p.1 i with
  | none => none
  | some l =>
      (z.setLev x i ⟨l.forward, l.span - (rank0 - p.2)⟩).bind (fun z =>
        z.setLev p.1 i ⟨some x, (rank0 - p.2) + 1⟩)

/-- A level the new node does not have. -/
def widenLevel (i : Nat) (p : NodeId × UInt32) (z : Zskiplist σ) : Option (Zskiplist σ) :=
  match z.lev p.1 i with
  | none => none
  | some l => z.setLev p.1 i { l with span := l.span + 1 }

/-- The end of `zslInsert`: `backward` of the new node and of the one behind it. -/
def linkBackward (z : Zskiplist σ) (x y : NodeId) : Option (Zskiplist σ) :=
  (z.setBackward x (if y = z.header then none else some y)).bind (fun z =>
    match z.lev x 0 with
    | none => none
    | some l =>
        match l.forward with
        | some next => z.setBackward next (some x)
        | none => some { z with tail := some x })

/-- `zslInsert`, given what `zslRandomLevel` returns and the address of the new node. -/
def zslInsert (z : Zskiplist σ) (score : σ) (obj : StringObj) (level : Nat) (x : NodeId) :
    Option (Zskiplist σ) :=
  match search z score obj z.level z.header 0 with
  | none => none
  | some update =>
      let update := update ++ List.replicate (level - z.level) (z.header, 0)
      (forLevels raiseLevel z.level (update.drop z.level) z).bind (fun z =>
        let z := { z with level := if level > z.level then level else z.level }
        let z := z.setNode x (some (zslCreateNode level score (some obj)))
        match update with
        | [] => none
        | (y, rank0) :: _ =>
            (forLevels (linkLevel x rank0) 0 (update.take level) z).bind (fun z =>
              (forLevels widenLevel level (update.drop level) z).bind (fun z =>
                (linkBackward z x y).map (fun z => { z with length := z.length + 1 }))))

/-! ## Deletion -/

/-- Take the node `x` out of a level, or shorten the span it is in. -/
def unlinkLevel (x : NodeId) (i : Nat) (y : NodeId) (z : Zskiplist σ) : Option (Zskiplist σ) :=
  match z.lev y i with
  | none => none
  | some l =>
      if l.forward = some x then
        match z.lev x i with
        | none => none
        | some lx => z.setLev y i ⟨lx.forward, l.span + (lx.span - 1)⟩
      else z.setLev y i { l with span := l.span - 1 }

/-- `while(zsl->level > 1 && zsl->header->level[zsl->level-1].forward == NULL)`. -/
def lowerLevel (z : Zskiplist σ) : Nat → Option Nat
  | 0 => some 0
  | level + 1 =>
      if level + 1 > 1 then
        match z.lev z.header level with
        | none => none
        | some l => if l.forward = none then lowerLevel z level else some (level + 1)
      else some (level + 1)

/-- `backward` of the node behind a node that is deleted, or the tail. -/
def unlinkBackward (z : Zskiplist σ) (backward : Option NodeId) :
    Option NodeId → Option (Zskiplist σ)
  | some next => z.setBackward next backward
  | none => some { z with tail := backward }

/-- `zslDeleteNode`. -/
def zslDeleteNode (z : Zskiplist σ) (x : NodeId) (update : List NodeId) : Option (Zskiplist σ) :=
  (forLevels (unlinkLevel x) 0 update z).bind (fun z =>
    match z.node x, z.lev x 0 with
    | some n, some l =>
        (unlinkBackward z n.backward l.forward).bind (fun z =>
          (lowerLevel z z.level).map (fun level =>
            { z with level := level, length := z.length - 1 }))
    | _, _ => none)

/-- `zslDelete`, and what it returns. -/
def zslDelete (z : Zskiplist σ) (score : σ) (obj : StringObj) : Option (Zskiplist σ × Bool) :=
  match search z score obj z.level z.header 0 with
  | none => none
  | some update =>
      match update with
      | [] => none
      | (y, _) :: _ =>
          match z.lev y 0 with
          | none => none
          | some l =>
              match l.forward with
              | none => some (z, false)
              | some x =>
                  match z.node x with
                  | none => none
                  | some n =>
                      if score = n.score &&
                          n.obj.any (fun o => equalStringObjects o.val obj.val) then
                        (zslDeleteNode z x (update.map Prod.fst)).map (fun z =>
                          (z.setNode x none, true))
                      else some (z, false)

end Skiplist

end RedisCore
