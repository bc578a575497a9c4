/-
# `RedisCore.Ziplist.Code` — lists in one piece of memory (ziplist.c)

A ziplist is a header with the size in bytes, the place of the last entry and the number of
entries, then the entries, then a byte 255.  An entry is the length of the entry before it
in one byte or five, an encoding with the length of its payload, and the payload, which is
a string or an integer.

The functions here are those of the source on the bytes that are allocated; pointers are
offsets in them, and what reads or writes outside of them fails.  `mem` is what the memory
holds that `zrealloc` adds.
-/
import RedisCore.Lib.CInt
import RedisCore.Lib.LittleEndian
import RedisCore.Util

namespace RedisCore

namespace Ziplist

open CInt LittleEndian Splice

/-! ## Memory -/

/-- The `n` bytes at `p`. -/
def readAt (zl : Bytes) (p n : Nat) : Option Bytes :=
  if p + n ≤ zl.length then some (slice zl p n) else none

/-- Bytes written at `p`. -/
def writeAt (zl : Bytes) (p : Nat) (chunk : Bytes) : Option Bytes :=
  if p + chunk.length ≤ zl.length then some (overwrite zl p chunk) else none

/-- `p[0]`. -/
def byteAt (zl : Bytes) (p : Nat) : Option Nat := zl[p]?.map UInt8.toNat

/-- An unsigned field of `n` bytes. -/
def loadAt (zl : Bytes) (p n : Nat) : Option Nat := (readAt zl p n).map decodeNat

/-- A field of `n` bytes; a value that does not fit is cut. -/
def storeAt (zl : Bytes) (p n : Nat) (v : Int) : Option Bytes := writeAt zl p (encode n v)

/-- A `size_t` or a pointer; nothing has a size or an offset that wrapped around. -/
def sizeT (n : Int) : Option Nat := if 0 ≤ n then some n.toNat else none

/-- `memmove` inside of a ziplist. -/
def memmove (zl : Bytes) (dst src : Nat) (n : Int) : Option Bytes := do
  let chunk ← readAt zl src (← sizeT n)
  writeAt zl dst chunk

/-! ## The encoding of entries -/

def ZIP_END : Nat := 255
def ZIP_BIGLEN : Nat := 254

def ZIP_STR_MASK : Nat := 0xc0
def ZIP_STR_06B : Nat := 0x00
def ZIP_STR_14B : Nat := 0x40
def ZIP_STR_32B : Nat := 0x80
def ZIP_INT_16B : Nat := 0xc0
def ZIP_INT_32B : Nat := 0xd0
def ZIP_INT_64B : Nat := 0xe0
def ZIP_INT_24B : Nat := 0xf0
def ZIP_INT_8B : Nat := 0xfe
def ZIP_INT_IMM_MASK : Nat := 0x0f
def ZIP_INT_IMM_MIN : Nat := 0xf1
def ZIP_INT_IMM_MAX : Nat := 0xfd

/-- `ZIP_IS_STR`. -/
def zipIsStr (enc : Nat) : Prop := enc &&& ZIP_STR_MASK < ZIP_STR_MASK

instance (enc : Nat) : Decidable (zipIsStr enc) := inferInstanceAs (Decidable (_ < _))

/-- `ZIP_ENTRY_ENCODING`. -/
def zipEntryEncoding (first : Nat) : Nat :=
  if first < ZIP_STR_MASK then first &&& ZIP_STR_MASK else first

/-- `zipEncodeLength`: the bytes that it writes; it returns how many, also where it
writes none. -/
def zipEncodeLength (encoding rawlen : Nat) : Bytes :=
  if zipIsStr encoding then
    if rawlen ≤ 0x3f then [UInt8.ofNat (ZIP_STR_06B ||| rawlen)]
    else if rawlen ≤ 0x3fff then
      [UInt8.ofNat (ZIP_STR_14B ||| (rawlen >>> 8 &&& 0x3f)), UInt8.ofNat (rawlen &&& 0xff)]
    else
      [UInt8.ofNat ZIP_STR_32B, UInt8.ofNat (rawlen >>> 24 &&& 0xff),
        UInt8.ofNat (rawlen >>> 16 &&& 0xff), UInt8.ofNat (rawlen >>> 8 &&& 0xff),
        UInt8.ofNat (rawlen &&& 0xff)]
  else [UInt8.ofNat encoding]

/-- `zipIntSize`. -/
def zipIntSize (encoding : Nat) : Nat :=
  if encoding = ZIP_INT_8B then 1
  else if encoding = ZIP_INT_16B then 2
  else if encoding = ZIP_INT_24B then 3
  else if encoding = ZIP_INT_32B then 4
  else if encoding = ZIP_INT_64B then 8
  else 0

/-- `ZIP_DECODE_LENGTH`: the encoding, the size of the length and the length. -/
def zipDecodeLength (zl : Bytes) (p : Nat) : Option (Nat × Nat × Nat) := do
  let first ← byteAt zl p
  let encoding := zipEntryEncoding first
  if encoding < ZIP_STR_MASK then
    if encoding = ZIP_STR_06B then return (encoding, 1, first &&& 0x3f)
    else if encoding = ZIP_STR_14B then
      return (encoding, 2, (first &&& 0x3f) <<< 8 ||| (← byteAt zl (p + 1)))
    else
      let b₁ ← byteAt zl (p + 1)
      let b₂ ← byteAt zl (p + 2)
      let b₃ ← byteAt zl (p + 3)
      let b₄ ← byteAt zl (p + 4)
      return (encoding, 5, b₁ <<< 24 ||| b₂ <<< 16 ||| b₃ <<< 8 ||| b₄)
  else return (encoding, 1, zipIntSize encoding)

/-- `zipPrevEncodeLength`: the bytes that it writes; it returns how many, also where it
writes none. -/
def zipPrevEncodeLength (len : Nat) : Bytes :=
  if len < ZIP_BIGLEN then [UInt8.ofNat len]
  else UInt8.ofNat ZIP_BIGLEN :: encodeNat 4 len

/-- `zipPrevEncodeLengthForceLarge`. -/
def zipPrevEncodeLengthForceLarge (len : Nat) : Bytes :=
  UInt8.ofNat ZIP_BIGLEN :: encodeNat 4 len

/-- `ZIP_DECODE_PREVLENSIZE`. -/
def zipDecodePrevlensize (zl : Bytes) (p : Nat) : Option Nat := do
  return if (← byteAt zl p) < ZIP_BIGLEN then 1 else 5

/-- `ZIP_DECODE_PREVLEN`: the size of the field and its value. -/
def zipDecodePrevlen (zl : Bytes) (p : Nat) : Option (Nat × Nat) := do
  let prevlensize ← zipDecodePrevlensize zl p
  if prevlensize = 1 then return (1, ← byteAt zl p)
  else return (5, ← loadAt zl (p + 1) 4)

/-- `zipPrevLenByteDiff`. -/
def zipPrevLenByteDiff (zl : Bytes) (p len : Nat) : Option Int := do
  let prevlensize ← zipDecodePrevlensize zl p
  return ((zipPrevEncodeLength len).length : Int) - prevlensize

/-- `zipRawEntryLength`. -/
def zipRawEntryLength (zl : Bytes) (p : Nat) : Option Nat := do
  let prevlensize ← zipDecodePrevlensize zl p
  let (_, lensize, len) ← zipDecodeLength zl (p + prevlensize)
  return toUInt (prevlensize + lensize + len : Nat)

/-- `zipTryEncoding`: the value and its encoding. -/
def zipTryEncoding (entry : Bytes) : Option (Int × Nat) :=
  if entry.length ≥ 32 ∨ entry.length = 0 then none
  else
    match string2ll entry with
    | none => none
    | some value =>
        some (value,
          if 0 ≤ value ∧ value ≤ 12 then ZIP_INT_IMM_MIN + value.toNat
          else if -(2 ^ 7) ≤ value ∧ value ≤ 2 ^ 7 - 1 then ZIP_INT_8B
          else if -(2 ^ 15) ≤ value ∧ value ≤ 2 ^ 15 - 1 then ZIP_INT_16B
          else if -(2 ^ 23) ≤ value ∧ value ≤ 2 ^ 23 - 1 then ZIP_INT_24B
          else if -(2 ^ 31) ≤ value ∧ value ≤ 2 ^ 31 - 1 then ZIP_INT_32B
          else ZIP_INT_64B)

/-- `zipSaveInteger`: the bytes that it writes. -/
def zipSaveInteger (value : Int) (encoding : Nat) : Bytes :=
  if encoding = ZIP_INT_8B then encode 1 value
  else if encoding = ZIP_INT_16B then encode 2 value
  else if encoding = ZIP_INT_24B then (encode 4 (value <<< (8 : Nat))).drop 1
  else if encoding = ZIP_INT_32B then encode 4 value
  else if encoding = ZIP_INT_64B then encode 8 value
  else []

/-- `zipLoadInteger`. -/
def zipLoadInteger (zl : Bytes) (p encoding : Nat) : Option Int :=
  if encoding = ZIP_INT_8B then (readAt zl p 1).map decode
  else if encoding = ZIP_INT_16B then (readAt zl p 2).map decode
  else if encoding = ZIP_INT_32B then (readAt zl p 4).map decode
  else if encoding = ZIP_INT_24B then (readAt zl p 3).map (fun bs => decode (0 :: bs) >>> (8 : Nat))
  else if encoding = ZIP_INT_64B then (readAt zl p 8).map decode
  else if ZIP_INT_IMM_MIN ≤ encoding ∧ encoding ≤ ZIP_INT_IMM_MAX then
    some (((encoding &&& ZIP_INT_IMM_MASK : Nat) : Int) - 1)
  else some 0

/-- `zlentry`. -/
structure ZlEntry where
  prevrawlensize : Nat
  prevrawlen : Nat
  lensize : Nat
  len : Nat
  headersize : Nat
  encoding : Nat
  p : Nat
  deriving DecidableEq

/-- `zipEntry`. -/
def zipEntry (zl : Bytes) (p : Nat) : Option ZlEntry := do
  let (prevrawlensize, prevrawlen) ← zipDecodePrevlen zl p
  let (encoding, lensize, len) ← zipDecodeLength zl (p + prevrawlensize)
  return ⟨prevrawlensize, prevrawlen, lensize, len, prevrawlensize + lensize, encoding, p⟩

/-! ## The header -/

def ZIPLIST_HEADER_SIZE : Nat := 10
def ZIPLIST_END_SIZE : Nat := 1
def UINT16_MAX : Nat := 65535

/-- `ZIPLIST_BYTES`. -/
def zlBytes (zl : Bytes) : Option Nat := loadAt zl 0 4

/-- `ZIPLIST_TAIL_OFFSET`. -/
def zlTailOffset (zl : Bytes) : Option Nat := loadAt zl 4 4

/-- `ZIPLIST_LENGTH`. -/
def zlLength (zl : Bytes) : Option Nat := loadAt zl 8 2

def setBytes (zl : Bytes) (n : Int) : Option Bytes := storeAt zl 0 4 n
def setTailOffset (zl : Bytes) (n : Int) : Option Bytes := storeAt zl 4 4 n

/-- `ZIPLIST_TAIL_OFFSET` increased. -/
def addTailOffset (zl : Bytes) (n : Int) : Option Bytes := do
  setTailOffset zl ((← zlTailOffset zl : Nat) + n)

def setLength (zl : Bytes) (n : Int) : Option Bytes := storeAt zl 8 2 n

/-- `ZIPLIST_ENTRY_END`. -/
def ziplistEntryEnd (zl : Bytes) : Option Nat := do sizeT ((← zlBytes zl : Nat) - 1 : Int)

/-- `ZIPLIST_INCR_LENGTH`. -/
def ziplistIncrLength (zl : Bytes) (incr : Int) : Option Bytes := do
  let length ← zlLength zl
  if length < UINT16_MAX then setLength zl (length + incr) else return zl

/-- `ziplistNew`. -/
def ziplistNew : Bytes :=
  encodeNat 4 (ZIPLIST_HEADER_SIZE + 1) ++ encodeNat 4 ZIPLIST_HEADER_SIZE ++ encodeNat 2 0 ++
    [UInt8.ofNat ZIP_END]

/-- `ziplistBlobLen`. -/
def ziplistBlobLen (zl : Bytes) : Option Nat := zlBytes zl

variable (mem : Nat → UInt8)

/-- `zrealloc`. -/
def zrealloc (zl : Bytes) (len : Nat) : Bytes :=
  zl.take len ++ (List.range (len - zl.length)).map mem

/-- `ziplistResize`; the length is an `unsigned int`. -/
def ziplistResize (zl : Bytes) (len : Int) : Option Bytes := do
  let len := toUInt len
  let zl := zrealloc mem zl len
  let zl ← setBytes zl len
  writeAt zl (← sizeT (len - 1)) [UInt8.ofNat ZIP_END]

/-! ## Editing -/

/-- The loop of `__ziplistCascadeUpdate`. -/
def cascadeLoop : Nat → Bytes → Nat → Nat → Option Bytes
  | 0, _, _, _ => none
  | fuel + 1, zl, curlen, p => do
      if (← byteAt zl p) = ZIP_END then return zl
      let cur ← zipEntry zl p
      let rawlen := toUInt (cur.headersize + cur.len : Nat)
      let rawlensize := (zipPrevEncodeLength rawlen).length
      if (← byteAt zl (p + rawlen)) = ZIP_END then return zl
      let next ← zipEntry zl (p + rawlen)
      if next.prevrawlen = rawlen then return zl
      if next.prevrawlensize < rawlensize then
        let extra := rawlensize - next.prevrawlensize
        let zl ← ziplistResize mem zl (curlen + extra : Nat)
        let np := p + rawlen
        let tail ← zlTailOffset zl
        let zl ← (if tail ≠ np then addTailOffset zl extra else some zl)
        let zl ← memmove zl (np + rawlensize) (np + next.prevrawlensize)
          (curlen - np - next.prevrawlensize - 1)
        let zl ← writeAt zl np (zipPrevEncodeLength rawlen)
        cascadeLoop fuel zl (curlen + extra) np
      else if next.prevrawlensize > rawlensize then
        writeAt zl (p + rawlen) (zipPrevEncodeLengthForceLarge rawlen)
      else writeAt zl (p + rawlen) (zipPrevEncodeLength rawlen)

/-- `__ziplistCascadeUpdate`. -/
def ziplistCascadeUpdate (zl : Bytes) (p : Nat) : Option Bytes := do
  cascadeLoop mem (zl.length + 1) zl (← zlBytes zl) p

/-- The loop of `__ziplistDelete`: where it ends and how many entries it passed. -/
def skipEntries (zl : Bytes) : Nat → Nat → Option (Nat × Nat)
  | 0, p => some (p, 0)
  | num + 1, p => do
      if (← byteAt zl p) = ZIP_END then return (p, 0)
      let (q, deleted) ← skipEntries zl num (p + (← zipRawEntryLength zl p))
      return (q, deleted + 1)

/-- `__ziplistDelete` with an entry left behind the deleted ones: the list with the gap
closed, but not cut, and the growth of that entry. -/
def closeGap (zl : Bytes) (first : ZlEntry) (p totlen : Nat) : Option (Bytes × Int) := do
  let nextdiff ← zipPrevLenByteDiff zl p first.prevrawlen
  let p ← sizeT (p - nextdiff)
  let zl ← writeAt zl p (zipPrevEncodeLength first.prevrawlen)
  let zl ← addTailOffset zl (-totlen)
  let tail ← zipEntry zl p
  let after ← byteAt zl (p + toUInt (tail.headersize + tail.len : Nat))
  let zl ← (if after ≠ ZIP_END then addTailOffset zl nextdiff else some zl)
  let zl ← memmove zl first.p p ((← zlBytes zl : Nat) - p - 1 : Int)
  return (zl, nextdiff)

/-- `__ziplistDelete`; `num` is an `unsigned int`. -/
def ziplistDeleteAt (zl : Bytes) (p num : Nat) : Option Bytes := do
  let first ← zipEntry zl p
  let (p, deleted) ← skipEntries zl num p
  let totlen := p - first.p
  if totlen > 0 then
    let behind ← byteAt zl p
    let (zl, nextdiff) ← (if behind ≠ ZIP_END then closeGap zl first p totlen
      else (setTailOffset zl ((first.p : Int) - first.prevrawlen)).map (fun zl => (zl, 0)))
    let zl ← ziplistResize mem zl ((← zlBytes zl : Nat) - totlen + nextdiff)
    let zl ← ziplistIncrLength zl (-deleted)
    if nextdiff ≠ 0 then ziplistCascadeUpdate mem zl first.p else return zl
  else return zl

/-- `__ziplistInsert` with an entry at the position: the list with a gap for the new entry,
whose length this entry knows. -/
def openGap (zl : Bytes) (curlen p reqlen : Nat) (nextdiff : Int) (forcelarge : Bool) :
    Option Bytes := do
  let zl ← memmove zl (p + reqlen) (← sizeT (p - nextdiff)) (curlen - p - 1 + nextdiff)
  let zl ← writeAt zl (p + reqlen)
    (if forcelarge then zipPrevEncodeLengthForceLarge (toUInt reqlen)
      else zipPrevEncodeLength (toUInt reqlen))
  let zl ← addTailOffset zl reqlen
  let tail ← zipEntry zl (p + reqlen)
  let after ← byteAt zl (p + reqlen + toUInt (tail.headersize + tail.len : Nat))
  if after ≠ ZIP_END then addTailOffset zl nextdiff else return zl

/-- What `__ziplistInsert` finds out about the entry before a position: its length. -/
def prevlenAt (zl : Bytes) (p : Nat) : Option Nat := do
  if (← byteAt zl p) ≠ ZIP_END then return (← zipDecodePrevlen zl p).2
  let ptail ← zlTailOffset zl
  if (← byteAt zl ptail) ≠ ZIP_END then zipRawEntryLength zl ptail else return 0

/-- `__ziplistInsert`.  The string is read twice: `s` is what it is when the encoding is
chosen, `copied` what it is when its bytes are copied.  They differ only if it lies in the
list itself. -/
def ziplistInsertAt (zl : Bytes) (p : Nat) (s copied : Bytes) : Option Bytes := do
  let curlen ← zlBytes zl
  let prevlen ← prevlenAt zl p
  let encoding := ((zipTryEncoding s).map Prod.snd).getD 0
  let payload :=
    match zipTryEncoding s with
    | some (value, encoding) => zipSaveInteger value encoding
    | none => copied.take s.length
  let reqlen := (match zipTryEncoding s with
    | some (_, encoding) => zipIntSize encoding
    | none => s.length) +
    (zipPrevEncodeLength prevlen).length + (zipEncodeLength encoding s.length).length
  let atEnd := decide ((← byteAt zl p) = ZIP_END)
  let diff ← (if atEnd then some 0 else zipPrevLenByteDiff zl p (toUInt reqlen))
  let forcelarge := decide (diff = -4 ∧ reqlen < 4)
  let nextdiff := if forcelarge then 0 else diff
  let zl ← ziplistResize mem zl (curlen + reqlen + nextdiff)
  let zl ← (if atEnd then setTailOffset zl p
    else openGap zl curlen p reqlen nextdiff forcelarge)
  let zl ← (if nextdiff ≠ 0 then ziplistCascadeUpdate mem zl (p + reqlen) else some zl)
  let zl ← writeAt zl p
    (zipPrevEncodeLength prevlen ++ zipEncodeLength encoding s.length ++ payload)
  ziplistIncrLength zl 1

/-- `ZIPLIST_HEAD` and `ZIPLIST_TAIL`, and the two ends of a quicklist. -/
inductive Where
  | HEAD
  | TAIL
  deriving DecidableEq

/-- `ziplistPush`, of a string that may lie in the list itself. -/
def ziplistPushCopying (zl s copied : Bytes) (whr : Where) : Option Bytes := do
  match whr with
  | .HEAD => ziplistInsertAt mem zl ZIPLIST_HEADER_SIZE s copied
  | .TAIL => ziplistInsertAt mem zl (← ziplistEntryEnd zl) s copied

/-- `ziplistPush`. -/
def ziplistPush (zl s : Bytes) (whr : Where) : Option Bytes := ziplistPushCopying mem zl s s whr

/-- `ziplistInsert`. -/
def ziplistInsert (zl : Bytes) (p : Nat) (s : Bytes) : Option Bytes := ziplistInsertAt mem zl p s s

/-- `ziplistDelete`; the pointer that it stores is to the same offset. -/
def ziplistDelete (zl : Bytes) (p : Nat) : Option Bytes := ziplistDeleteAt mem zl p 1

/-! ## Finding and reading entries -/

/-- The loop of `ziplistIndex` from the tail: where it ends and the index then. -/
def indexBackward (zl : Bytes) : Nat → Nat → Nat → Int → Option (Nat × Int)
  | 0, _, _, _ => none
  | fuel + 1, p, prevlen, index => do
      if prevlen = 0 then return (p, index)
      if index = 0 then return (p, index - 1)
      let p ← sizeT (p - prevlen)
      let (_, prevlen) ← zipDecodePrevlen zl p
      indexBackward zl fuel p prevlen (index - 1)

/-- The loop of `ziplistIndex` from the head. -/
def indexForward (zl : Bytes) : Nat → Nat → Int → Option (Nat × Int)
  | 0, _, _ => none
  | fuel + 1, p, index => do
      if (← byteAt zl p) = ZIP_END then return (p, index)
      if index = 0 then return (p, index - 1)
      indexForward zl fuel (p + (← zipRawEntryLength zl p)) (index - 1)

/-- `ziplistIndex` from the tail. -/
def indexTail (zl : Bytes) (index : Int) : Option (Nat × Int) := do
  let p ← zlTailOffset zl
  if (← byteAt zl p) = ZIP_END then return (p, index)
  let (_, prevlen) ← zipDecodePrevlen zl p
  indexBackward zl (zl.length + 1) p prevlen index

/-- `ziplistIndex`; the index is an `int`. -/
def ziplistIndex (zl : Bytes) (index : Int) : Option (Option Nat) := do
  let (p, index) ← (if index < 0 then indexTail zl (toInt (toInt (-index) - 1))
    else indexForward zl (zl.length + 1) ZIPLIST_HEADER_SIZE index)
  return if (← byteAt zl p) = ZIP_END ∨ index > 0 then none else some p

/-- `ziplistNext`. -/
def ziplistNext (zl : Bytes) (p : Nat) : Option (Option Nat) := do
  if (← byteAt zl p) = ZIP_END then return none
  let p := p + (← zipRawEntryLength zl p)
  if (← byteAt zl p) = ZIP_END then return none
  return some p

/-- `ziplistPrev`. -/
def ziplistPrev (zl : Bytes) (p : Nat) : Option (Option Nat) := do
  if (← byteAt zl p) = ZIP_END then
    let p ← zlTailOffset zl
    if (← byteAt zl p) = ZIP_END then return none else return some p
  else if p = ZIPLIST_HEADER_SIZE then return none
  else
    let (_, prevlen) ← zipDecodePrevlen zl p
    return some (← sizeT (p - prevlen))

/-- What `ziplistGet` stores: a string or an integer. -/
inductive Value
  | str (s : Bytes)
  | int (v : Int)
  deriving DecidableEq

/-- `ziplistGet`; it returns 0 where there is no value. -/
def ziplistGet (zl : Bytes) (p : Option Nat) : Option (Option Value) :=
  match p with
  | none => some none
  | some p => do
      if (← byteAt zl p) = ZIP_END then return none
      let entry ← zipEntry zl p
      if zipIsStr entry.encoding then
        return some (.str (← readAt zl (p + entry.headersize) entry.len))
      else return some (.int (← zipLoadInteger zl (p + entry.headersize) entry.encoding))

/-- `ziplistCompare`: whether it returns 1. -/
def ziplistCompare (zl : Bytes) (p : Nat) (sstr : Bytes) : Option Bool := do
  if (← byteAt zl p) = ZIP_END then return false
  let entry ← zipEntry zl p
  if zipIsStr entry.encoding then
    if entry.len = sstr.length then
      return decide ((← readAt zl (p + entry.headersize) sstr.length) = sstr)
    else return false
  else
    match zipTryEncoding sstr with
    | some (sval, _) =>
        return decide ((← zipLoadInteger zl (p + entry.headersize) entry.encoding) = sval)
    | none => return false

def UCHAR_MAX : Nat := 255

/-- What `ziplistFind` knows of the string as an integer: `vencoding` is zero before it has
tried, and `UCHAR_MAX` if the string is none. -/
structure FindCache where
  vencoding : Nat
  vll : Int
  deriving DecidableEq

/-- `ziplistFind` tries to encode the string, once. -/
def FindCache.tried (vstr : Bytes) (cache : FindCache) : FindCache :=
  if cache.vencoding = 0 then
    match zipTryEncoding vstr with
    | some (vll, vencoding) => ⟨vencoding, vll⟩
    | none => { cache with vencoding := UCHAR_MAX }
  else cache

/-- The comparison of `ziplistFind` with the payload at `q`. -/
def findCompare (zl vstr : Bytes) (q encoding len : Nat) (cache : FindCache) :
    Option (Bool × FindCache) := do
  if zipIsStr encoding then
    if len = vstr.length then return (decide ((← readAt zl q vstr.length) = vstr), cache)
    else return (false, cache)
  else
    let cache := cache.tried vstr
    if cache.vencoding ≠ UCHAR_MAX then
      return (decide ((← zipLoadInteger zl q encoding) = cache.vll), cache)
    else return (false, cache)

/-- The loop of `ziplistFind`; `skipcnt` is an `int`. -/
def findLoop (zl vstr : Bytes) (skip : Nat) : Nat → Nat → Int → FindCache → Option (Option Nat)
  | 0, _, _, _ => none
  | fuel + 1, p, skipcnt, cache => do
      if (← byteAt zl p) = ZIP_END then return none
      let prevlensize ← zipDecodePrevlensize zl p
      let (encoding, lensize, len) ← zipDecodeLength zl (p + prevlensize)
      let q := p + prevlensize + lensize
      if skipcnt = 0 then
        let (equal, cache) ← findCompare zl vstr q encoding len cache
        if equal then return some p
        else findLoop zl vstr skip fuel (q + len) (toInt skip) cache
      else findLoop zl vstr skip fuel (q + len) (toInt (skipcnt - 1)) cache

/-- `ziplistFind`. -/
def ziplistFind (zl : Bytes) (p : Nat) (vstr : Bytes) (skip : Nat) : Option (Option Nat) :=
  findLoop zl vstr skip (zl.length + 1) p 0 ⟨0, 0⟩

/-- `ziplistDeleteRange`. -/
def ziplistDeleteRange (zl : Bytes) (index : Int) (num : Nat) : Option Bytes := do
  match ← ziplistIndex zl index with
  | none => return zl
  | some p => ziplistDeleteAt mem zl p num

/-- The loop of `ziplistLen`. -/
def countEntries (zl : Bytes) : Nat → Nat → Option Nat
  | 0, _ => none
  | fuel + 1, p => do
      if (← byteAt zl p) = ZIP_END then return 0
      return (← countEntries zl fuel (p + (← zipRawEntryLength zl p))) + 1

/-- `ziplistLen`; it may store the number in the list. -/
def ziplistLen (zl : Bytes) : Option (Nat × Bytes) := do
  let length ← zlLength zl
  if length < UINT16_MAX then return (length, zl)
  else
    let len ← countEntries zl (zl.length + 1) ZIPLIST_HEADER_SIZE
    let zl ← (if len < UINT16_MAX then setLength zl len else some zl)
    return (len, zl)

/-! ## Merging -/

/-- The bytes of two ziplists in one piece of memory, as `ziplistMerge` puts them into the
one with more entries. -/
def joinBytes (first second : Bytes) (append : Bool) (firstBytes secondBytes : Nat) :
    Option Bytes := do
  let zlbytes ← sizeT (firstBytes + secondBytes - ZIPLIST_HEADER_SIZE - ZIPLIST_END_SIZE)
  if append then
    let tail ← readAt second ZIPLIST_HEADER_SIZE (← sizeT (secondBytes - ZIPLIST_HEADER_SIZE))
    writeAt (zrealloc mem first zlbytes) (← sizeT (firstBytes - ZIPLIST_END_SIZE)) tail
  else
    let zl ← memmove (zrealloc mem second zlbytes) (← sizeT (firstBytes - ZIPLIST_END_SIZE))
      ZIPLIST_HEADER_SIZE (secondBytes - ZIPLIST_HEADER_SIZE)
    writeAt zl 0 (← readAt first 0 (← sizeT (firstBytes - ZIPLIST_END_SIZE)))

/-- `ziplistMerge` of two different lists: the list, and whether it is in the place of the
first one. -/
def ziplistMerge (first second : Bytes) : Option (Bytes × Bool) := do
  let firstBytes ← zlBytes first
  let firstLen ← zlLength first
  let secondBytes ← zlBytes second
  let secondLen ← zlLength second
  let append := decide (firstLen ≥ secondLen)
  let zllength := if firstLen + secondLen < UINT16_MAX then firstLen + secondLen else UINT16_MAX
  let firstOffset ← zlTailOffset first
  let secondOffset ← zlTailOffset second
  let zl ← joinBytes mem first second append firstBytes secondBytes
  let zl ← setBytes zl (firstBytes + secondBytes - ZIPLIST_HEADER_SIZE - ZIPLIST_END_SIZE : Int)
  let zl ← setLength zl zllength
  let zl ← setTailOffset zl
    ((firstBytes - ZIPLIST_END_SIZE : Int) + (secondOffset - ZIPLIST_HEADER_SIZE))
  let zl ← ziplistCascadeUpdate mem zl firstOffset
  return (zl, append)

/-- What the two arguments of `ziplistMerge` point to afterwards: the one that was not used is
freed and set to `NULL`. -/
def ziplistMergeArgs (first second : Bytes) : Option (Option Bytes × Option Bytes) := do
  let (target, append) ← ziplistMerge mem first second
  return if append then (some target, none) else (none, some target)

end Ziplist

end RedisCore
