/-
# `RedisCore.Sds.Header` — dynamic strings with their headers (sds.h, sds.c)

A string is one block of memory: a header, the bytes of the string, a NUL and the free space.
The header is one of five, and its fields for the length and the allocated size are as wide as
its type says; the smallest has the length in five bits beside the type and no field for the
size.  What does not fit into a field is cut off.

Memory is read and written inside of a block only: an access that is not has the result `none`.
`zmalloc` does not return NULL, and what is in the memory that it returns is an argument.
-/
import RedisCore.Lib.Splice
import RedisCore.Util

namespace RedisCore

open Splice

inductive SdsType where
  | SDS_TYPE_5 | SDS_TYPE_8 | SDS_TYPE_16 | SDS_TYPE_32 | SDS_TYPE_64
  deriving DecidableEq, Repr

open SdsType

/-- How many bits the fields of a header have. -/
def SdsType.bits : SdsType → Nat
  | SDS_TYPE_5 => 5
  | SDS_TYPE_8 => 8
  | SDS_TYPE_16 => 16
  | SDS_TYPE_32 => 32
  | SDS_TYPE_64 => 64

def sdsHdrSize : SdsType → Nat
  | SDS_TYPE_5 => 1
  | SDS_TYPE_8 => 3
  | SDS_TYPE_16 => 5
  | SDS_TYPE_32 => 9
  | SDS_TYPE_64 => 17

def sdsReqType (string_size : Nat) : SdsType :=
  if string_size < 2 ^ 5 then SDS_TYPE_5
  else if string_size < 2 ^ 8 then SDS_TYPE_8
  else if string_size < 2 ^ 16 then SDS_TYPE_16
  else if string_size < 2 ^ 32 then SDS_TYPE_32
  else SDS_TYPE_64

/-- A string: the fields of its header, and its block from the first byte of the string on.
The field `alloc` is not used where the type is `SDS_TYPE_5`. -/
structure Sdshdr where
  type : SdsType
  len : Nat
  alloc : Nat
  buf : Bytes
  deriving DecidableEq

namespace Sdshdr

/-! ## The header -/

def sdslen (s : Sdshdr) : Nat := s.len

/-- `alloc` is never less than `len`. -/
def sdsavail (s : Sdshdr) : Nat :=
  match s.type with
  | SDS_TYPE_5 => 0
  | _ => s.alloc - s.len

def sdsalloc (s : Sdshdr) : Nat :=
  match s.type with
  | SDS_TYPE_5 => s.len
  | _ => s.alloc

def sdssetlen (s : Sdshdr) (newlen : Nat) : Sdshdr := { s with len := newlen % 2 ^ s.type.bits }

def sdsinclen (s : Sdshdr) (inc : Nat) : Sdshdr :=
  { s with len := (s.len + inc) % 2 ^ s.type.bits }

def sdssetalloc (s : Sdshdr) (newlen : Nat) : Sdshdr :=
  match s.type with
  | SDS_TYPE_5 => s
  | _ => { s with alloc := newlen % 2 ^ s.type.bits }

/-! ## Memory -/

/-- A `size_t`. -/
def size_t (n : Nat) : Nat := n % 2 ^ 64

/-- `memcpy(s+i, bytes, …)`. -/
def store (s : Sdshdr) (i : Nat) (bytes : Bytes) : Option Sdshdr :=
  if i + bytes.length ≤ s.buf.length then some { s with buf := overwrite s.buf i bytes } else none

/-- `n` bytes from `s+i` on. -/
def load (s : Sdshdr) (i n : Nat) : Option Bytes :=
  if i + n ≤ s.buf.length then some (slice s.buf i n) else none

/-- New memory. -/
def s_malloc (size : Nat) (junk : Nat → UInt8) : Bytes := (List.range size).map junk

/-- `s_realloc`: the memory keeps what it has, as far as it reaches. -/
def s_realloc (block : Bytes) (size : Nat) (junk : Nat → UInt8) : Bytes :=
  block.take size ++ s_malloc (size - block.length) junk

/-! ## Making strings -/

/-- `memcpy(s, init, initlen)`, if there is `init`. -/
def copyInit (s : Sdshdr) (init : Option Bytes) (initlen : Nat) : Option Sdshdr :=
  match init with
  | some init => if initlen ≤ init.length then s.store 0 (init.take initlen) else none
  | none => some s

/-- `sdsnewlen`; without `init` the memory is cleared. -/
def sdsnewlen (init : Option Bytes) (initlen : Nat) (junk : Nat → UInt8) : Option Sdshdr := do
  -- empty strings are usually made to append to
  let type := if sdsReqType initlen = SDS_TYPE_5 ∧ initlen = 0 then SDS_TYPE_8
    else sdsReqType initlen
  let hdrlen := sdsHdrSize type
  let sh := s_malloc (size_t (hdrlen + initlen + 1)) (if init.isSome then junk else fun _ => 0)
  let s : Sdshdr := { type := type, len := 0, alloc := 0, buf := sh.drop hdrlen }
  let s := (s.sdssetlen initlen).sdssetalloc initlen
  let s ← s.copyInit init initlen
  s.store initlen [0]

def sdsempty (junk : Nat → UInt8) : Option Sdshdr := sdsnewlen (some []) 0 junk

def sdsdup (s : Sdshdr) (junk : Nat → UInt8) : Option Sdshdr :=
  sdsnewlen (some s.buf) s.sdslen junk

def sdsclear (s : Sdshdr) : Option Sdshdr := (s.sdssetlen 0).store 0 [0]

/-! ## Making room -/

def SDS_MAX_PREALLOC : Nat := 1024 * 1024

/-- The second half of `sdsMakeRoomFor` and `sdsRemoveFreeSpace`: a block for `newlen` bytes
behind a header of this type. -/
def sdsResize (s : Sdshdr) (type : SdsType) (newlen : Nat) (junk : Nat → UInt8) :
    Option Sdshdr := do
  let len := s.sdslen
  let hdrlen := sdsHdrSize type
  let size := size_t (hdrlen + newlen + 1)
  let s ←
    if s.type = type then
      some { s with buf := s_realloc s.buf (size - hdrlen) junk }
    else do
      -- the header has another size, so the string has to move
      let bytes ← s.load 0 (len + 1)
      let new : Sdshdr :=
        { type := type, len := 0, alloc := 0, buf := (s_malloc size junk).drop hdrlen }
      let new ← new.store 0 bytes
      some (new.sdssetlen len)
  some (s.sdssetalloc newlen)

def sdsMakeRoomFor (s : Sdshdr) (addlen : Nat) (junk : Nat → UInt8) : Option Sdshdr :=
  if s.sdsavail ≥ addlen then some s
  else
    let newlen := size_t (s.sdslen + addlen)
    let newlen :=
      if newlen < SDS_MAX_PREALLOC then newlen * 2 else size_t (newlen + SDS_MAX_PREALLOC)
    -- type 5 cannot remember free space
    let type := if sdsReqType newlen = SDS_TYPE_5 then SDS_TYPE_8 else sdsReqType newlen
    s.sdsResize type newlen junk

def sdsRemoveFreeSpace (s : Sdshdr) (junk : Nat → UInt8) : Option Sdshdr :=
  s.sdsResize (sdsReqType s.sdslen) s.sdslen junk

/-! ## Changing the contents -/

/-- The `assert` of `sdsIncrLen` for each type; a decrement is turned around as an `int`, which
goes to 64 bits with its sign. -/
def incrAllowed (s : Sdshdr) (incr : Int) : Bool :=
  let decr := CInt.toInt (-incr)
  match s.type with
  | SDS_TYPE_5 => (0 < incr ∧ s.len + incr < 32) ∨ (incr < 0 ∧ s.len ≥ CInt.toUInt decr)
  | SDS_TYPE_64 =>
    (0 ≤ incr ∧ s.alloc - s.len ≥ CInt.toULong incr) ∨ (incr < 0 ∧ s.len ≥ CInt.toULong decr)
  | _ => (0 ≤ incr ∧ s.alloc - s.len ≥ CInt.toUInt incr) ∨ (incr < 0 ∧ s.len ≥ CInt.toUInt decr)

/-- `sdsIncrLen`, with an `int`; `none` also where the `assert` stops the program. -/
def sdsIncrLen (s : Sdshdr) (incr : Int) : Option Sdshdr :=
  if s.incrAllowed incr then
    let len := ((s.len + incr) % 2 ^ s.type.bits).toNat
    { s with len := len }.store len [0]
  else none

def sdsgrowzero (s : Sdshdr) (len : Nat) (junk : Nat → UInt8) : Option Sdshdr :=
  let curlen := s.sdslen
  if len ≤ curlen then some s
  else do
    let s ← s.sdsMakeRoomFor (len - curlen) junk
    let s ← s.store curlen (List.replicate (len - curlen + 1) 0)
    some (s.sdssetlen len)

def sdscatlen (s : Sdshdr) (t : Bytes) (junk : Nat → UInt8) : Option Sdshdr := do
  let curlen := s.sdslen
  let s ← s.sdsMakeRoomFor t.length junk
  let s ← s.store curlen t
  (s.sdssetlen (size_t (curlen + t.length))).store (size_t (curlen + t.length)) [0]

/-- `sdscatsds`, of a string with these bytes. -/
def sdscatsds (s : Sdshdr) (t : Bytes) (junk : Nat → UInt8) : Option Sdshdr := s.sdscatlen t junk

def sdscpylen (s : Sdshdr) (t : Bytes) (junk : Nat → UInt8) : Option Sdshdr := do
  let s ← (if s.sdsalloc < t.length then s.sdsMakeRoomFor (t.length - s.sdslen) junk else some s :
    Option Sdshdr)
  let s ← s.store 0 t
  let s ← s.store t.length [0]
  some (s.sdssetlen t.length)

end Sdshdr

end RedisCore
