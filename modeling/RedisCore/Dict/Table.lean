/-
# `RedisCore.Dict.Table` — the hash table of dict.c

The chained, incrementally rehashed hash table, function by function.

    dictht     table of chains, with size, sizemask and used as the source keeps them
    dict       ht[0], ht[1], rehashidx, iterators

A chain is the list of its entries from the head, so `next` is the tail of the
list.  `rehashidx` is `none` where the source has `-1`.  A `dictEntry *` is a
`Ref`: which table, which bucket, how far down the chain.

Two conversions of the source are kept because they lose information: the bucket
index comes back from `_dictKeyIndex` as an `int`, and `dictResize` copies `used`
into one.  Every `dictType` of the server leaves `keyDup` and `valDup` null, so an
entry holds the very key and value it was given.
-/
import RedisCore.Lib.CInt

namespace RedisCore

/-- `DICT_HT_INITIAL_SIZE`. -/
def DICT_HT_INITIAL_SIZE : Nat := 4

/-- The two callbacks of `dictType` the table's behaviour depends on. -/
structure DictType (α : Type) where
  hashFunction : α → Nat
  keyCompare : α → α → Bool

/-- `dictEntry`, less its `next`. -/
structure DictEntry (α β : Type) where
  key : α
  val : β
deriving DecidableEq, Repr

/-- `dictht`.  `table` is empty where the source has a null pointer. -/
structure Dictht (α β : Type) where
  table : List (List (DictEntry α β))
  size : Nat
  sizemask : Nat
  used : Nat
deriving Repr

/-- `dict`. -/
structure Dict (α β : Type) where
  ht0 : Dictht α β
  ht1 : Dictht α β
  rehashidx : Option Nat
  iterators : Int
deriving Repr

/-- A pointer to an entry. -/
structure Ref where
  second : Bool
  bucket : Nat
  depth : Nat
deriving DecidableEq, Repr

variable {α β : Type} (t : DictType α)

/-- `_dictReset`. -/
def dictReset : Dictht α β := ⟨[], 0, 0, 0⟩

/-- `dictCreate`, with `_dictInit`. -/
def dictCreate : Dict α β := ⟨dictReset, dictReset, none, 0⟩

def dictIsRehashing (d : Dict α β) : Bool := d.rehashidx.isSome

def dictSize (d : Dict α β) : Nat := d.ht0.used + d.ht1.used

/-- The chain at an index. -/
def Dictht.chain (ht : Dictht α β) (i : Nat) : List (DictEntry α β) := ht.table.getD i []

def Dictht.setChain (ht : Dictht α β) (i : Nat) (c : List (DictEntry α β)) : Dictht α β :=
  { ht with table := ht.table.set i c }

/-- The bucket index of a key in a table: `h & sizemask`. -/
def Dictht.index (ht : Dictht α β) (key : α) : Nat := t.hashFunction key &&& ht.sizemask

/-! ## Growing -/

/-- The doubling loop of `_dictNextPower`; `LONG_MAX` is reached in 62 doublings. -/
def nextPowerLoop (size : Nat) : Nat → Nat → Nat
  | 0, i => i
  | fuel + 1, i => if i ≥ size then i else nextPowerLoop size fuel (i * 2)

/-- `_dictNextPower`. -/
def dictNextPower (size : Nat) : Nat :=
  if size ≥ CInt.LONG_MAX.toNat then CInt.LONG_MAX.toNat else nextPowerLoop size 62 DICT_HT_INITIAL_SIZE

/-- `dictExpand`; `none` is `DICT_ERR`, which leaves the dict as it was. -/
def dictExpand (d : Dict α β) (size : Nat) : Option (Dict α β) :=
  let realsize := dictNextPower size
  if dictIsRehashing d || decide (d.ht0.used > size) then none
  else if realsize = d.ht0.size then none
  else
    let n : Dictht α β := ⟨List.replicate realsize [], realsize, realsize - 1, 0⟩
    -- the first initialisation is not a rehashing
    if d.ht0.table.isEmpty then some { d with ht0 := n }
    else some { d with ht1 := n, rehashidx := some 0 }

/-- `dictResize`; `minimal` is an `int`. -/
def dictResize (canResize : Bool) (d : Dict α β) : Option (Dict α β) :=
  if !canResize || dictIsRehashing d then none
  else
    let minimal := CInt.toInt d.ht0.used
    let minimal := if minimal < DICT_HT_INITIAL_SIZE then DICT_HT_INITIAL_SIZE else minimal.toNat
    dictExpand d minimal

/-- `dict_force_resize_ratio`. -/
def dictForceResizeRatio : Nat := 5

/-- `_dictExpandIfNeeded`; `none` is `DICT_ERR`. -/
def dictExpandIfNeeded (canResize : Bool) (d : Dict α β) : Option (Dict α β) :=
  if dictIsRehashing d then some d
  else if d.ht0.size = 0 then dictExpand d DICT_HT_INITIAL_SIZE
  else if d.ht0.used ≥ d.ht0.size ∧
      (canResize ∨ d.ht0.used / d.ht0.size > dictForceResizeRatio) then
    dictExpand d (d.ht0.used * 2)
  else some d

/-! ## Rehashing -/

/-- The inner `while` of `dictRehash` over the buckets from `idx` on: either the
visits run out at an index, or a non-empty bucket is found. -/
def skipEmpty : List (List (DictEntry α β)) → Nat → Int → Nat ⊕ (Nat × Int)
  | [], idx, _ => .inl idx
  | [] :: rest, idx, visits =>
      if visits - 1 = 0 then .inl (idx + 1) else skipEmpty rest (idx + 1) (visits - 1)
  | (_ :: _) :: _, idx, visits => .inr (idx, visits)

/-- Push one entry on the chain its hash selects in the new table. -/
def pushRehashed (ht : Dictht α β) (e : DictEntry α β) : Dictht α β :=
  let h := ht.index t e.key
  { ht.setChain h (e :: ht.chain h) with used := ht.used + 1 }

/-- Move the chain at `idx` from the old to the new table, and step over it. -/
def moveBucket (d : Dict α β) (idx : Nat) : Dict α β :=
  let chain := d.ht0.chain idx
  { d with
    ht0 := { d.ht0.setChain idx [] with used := d.ht0.used - chain.length }
    ht1 := chain.foldl (pushRehashed t) d.ht1
    rehashidx := some (idx + 1) }

/-- The check after the loop: a drained `ht[0]` is replaced by `ht[1]`. -/
def rehashFinish (d : Dict α β) : Dict α β × Bool :=
  if d.ht0.used = 0 then
    ({ d with ht0 := d.ht1, ht1 := dictReset, rehashidx := none }, false)
  else (d, true)

/-- The outer loop of `dictRehash`.  Each turn steps over at least one bucket of
`ht[0]`, so its size is enough fuel. -/
def rehashLoop : Nat → Dict α β → Nat → Int → Int → Dict α β × Bool
  | 0, d, _, _, _ => rehashFinish d
  | fuel + 1, d, idx, n, visits =>
      if n ≠ 0 ∧ d.ht0.used ≠ 0 then
        match skipEmpty (d.ht0.table.drop idx) idx visits with
        | .inl idx' => ({ d with rehashidx := some idx' }, true)
        | .inr (idx', visits') =>
            rehashLoop fuel (moveBucket t d idx') (idx' + 1) (n - 1) visits'
      else rehashFinish d

/-- `dictRehash`; the flag says whether there is more to move. -/
def dictRehash (d : Dict α β) (n : Int) : Dict α β × Bool :=
  match d.rehashidx with
  | none => (d, false)
  | some idx => rehashLoop t (d.ht0.size + 1) d idx n (n * 10)

/-- `_dictRehashStep`: blocked while safe iterators run. -/
def dictRehashStep (d : Dict α β) : Dict α β :=
  if d.iterators = 0 then (dictRehash t d 1).1 else d

/-- `if (dictIsRehashing(d)) _dictRehashStep(d);` -/
def rehashStepIfNeeded (d : Dict α β) : Dict α β :=
  if dictIsRehashing d then dictRehashStep t d else d

/-! ## Lookup, insertion, deletion -/

/-- Walk a chain to the entry of a key.  Identical key pointers compare equal, so
`key==he->key` adds nothing to `keyCompare` here. -/
def chainFind (key : α) (c : List (DictEntry α β)) : Option Nat :=
  c.findIdx? (fun he => t.keyCompare key he.key)

/-- `dictFind`. -/
def dictFind (d : Dict α β) (key : α) : Dict α β × Option Ref :=
  if d.ht0.used + d.ht1.used = 0 then (d, none)
  else
    let d := rehashStepIfNeeded t d
    let idx := d.ht0.index t key
    match chainFind t key (d.ht0.chain idx) with
    | some p => (d, some ⟨false, idx, p⟩)
    | none =>
        if dictIsRehashing d then
          let idx := d.ht1.index t key
          match chainFind t key (d.ht1.chain idx) with
          | some p => (d, some ⟨true, idx, p⟩)
          | none => (d, none)
        else (d, none)

/-- The entry behind a pointer. -/
def entryAt (d : Dict α β) (r : Ref) : Option (DictEntry α β) :=
  ((if r.second then d.ht1 else d.ht0).chain r.bucket)[r.depth]?

/-- `dictGetVal`. -/
def dictGetVal (d : Dict α β) (r : Ref) : Option β := (entryAt d r).map (·.val)

/-- `dictFetchValue`. -/
def dictFetchValue (d : Dict α β) (key : α) : Dict α β × Option β :=
  let (d, r) := dictFind t d key
  (d, r.bind (dictGetVal d))

def Dictht.setValAt (ht : Dictht α β) (bucket depth : Nat) (val : β) : Dictht α β :=
  ht.setChain bucket ((ht.chain bucket).modify depth (fun e => { e with val := val }))

/-- `dictSetVal`. -/
def dictSetVal (d : Dict α β) (r : Ref) (val : β) : Dict α β :=
  if r.second then { d with ht1 := d.ht1.setValAt r.bucket r.depth val }
  else { d with ht0 := d.ht0.setValAt r.bucket r.depth val }

/-- `_dictKeyIndex`: `-1` where the key exists (or the expansion failed), and the
index as an `int` otherwise. -/
def dictKeyIndex (canResize : Bool) (d : Dict α β) (key : α) : Dict α β × Int :=
  match dictExpandIfNeeded canResize d with
  | none => (d, -1)
  | some d =>
      let idx := d.ht0.index t key
      if (chainFind t key (d.ht0.chain idx)).isSome then (d, -1)
      else if dictIsRehashing d then
        let idx := d.ht1.index t key
        if (chainFind t key (d.ht1.chain idx)).isSome then (d, -1) else (d, CInt.toInt idx)
      else (d, CInt.toInt idx)

/-- Push a new entry in front of a chain. -/
def Dictht.insertTop (ht : Dictht α β) (idx : Nat) (e : DictEntry α β) : Dictht α β :=
  { ht.setChain idx (e :: ht.chain idx) with used := ht.used + 1 }

/-- `dictAddRaw`.  The value field of the new entry is whatever `zmalloc` left in
it, here `junk`.  An index that came back negative is outside the table. -/
def dictAddRaw (canResize : Bool) (d : Dict α β) (key : α) (junk : β) :
    Dict α β × Option Ref :=
  let d := rehashStepIfNeeded t d
  match dictKeyIndex t canResize d key with
  | (d, .ofNat index) =>
      if dictIsRehashing d then
        ({ d with ht1 := d.ht1.insertTop index ⟨key, junk⟩ }, some ⟨true, index, 0⟩)
      else
        ({ d with ht0 := d.ht0.insertTop index ⟨key, junk⟩ }, some ⟨false, index, 0⟩)
  | (d, .negSucc _) => (d, none)

/-- `dictAdd`; `true` is `DICT_OK`. -/
def dictAdd (canResize : Bool) (d : Dict α β) (key : α) (val junk : β) : Dict α β × Bool :=
  match dictAddRaw t canResize d key junk with
  | (d, none) => (d, false)
  | (d, some entry) => (dictSetVal d entry val, true)

/-- `dictReplace`; `true` where the key was added from scratch. -/
def dictReplace (canResize : Bool) (d : Dict α β) (key : α) (val junk : β) : Dict α β × Bool :=
  match dictAdd t canResize d key val junk with
  | (d, true) => (d, true)
  | (d, false) =>
      match dictFind t d key with
      | (d, some entry) => (dictSetVal d entry val, false)
      | (d, none) => (d, false)

/-- `dictReplaceRaw`. -/
def dictReplaceRaw (canResize : Bool) (d : Dict α β) (key : α) (junk : β) :
    Dict α β × Option Ref :=
  match dictFind t d key with
  | (d, some entry) => (d, some entry)
  | (d, none) => dictAddRaw t canResize d key junk

/-- Unlink the entry at a depth of a chain. -/
def Dictht.unlink (ht : Dictht α β) (idx depth : Nat) : Dictht α β :=
  { ht.setChain idx ((ht.chain idx).eraseIdx depth) with used := ht.used - 1 }

/-- `dictGenericDelete`; `true` is `DICT_OK`.  `nofree` only decides who frees the
key and the value. -/
def dictGenericDelete (d : Dict α β) (key : α) : Dict α β × Bool :=
  if d.ht0.size = 0 then (d, false)
  else
    let d := rehashStepIfNeeded t d
    let idx := d.ht0.index t key
    match chainFind t key (d.ht0.chain idx) with
    | some p => ({ d with ht0 := d.ht0.unlink idx p }, true)
    | none =>
        if dictIsRehashing d then
          let idx := d.ht1.index t key
          match chainFind t key (d.ht1.chain idx) with
          | some p => ({ d with ht1 := d.ht1.unlink idx p }, true)
          | none => (d, false)
        else (d, false)

def dictDelete (d : Dict α β) (key : α) : Dict α β × Bool := dictGenericDelete t d key

def dictDeleteNoFree (d : Dict α β) (key : α) : Dict α β × Bool := dictGenericDelete t d key

/-- The first `dictNext` of a safe iterator. -/
def iteratorStart (d : Dict α β) : Dict α β := { d with iterators := d.iterators + 1 }

/-- `dictReleaseIterator` of a safe iterator that was started. -/
def iteratorRelease (d : Dict α β) : Dict α β := { d with iterators := d.iterators - 1 }

end RedisCore
