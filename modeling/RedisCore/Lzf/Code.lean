/-
# `RedisCore.Lzf.Code` — compression of nodes (lzf_c.c, lzf_d.c)

The compressed form is a list of literal runs, each behind a byte with its length, and of back
references of two or three bytes.  The compressor looks the last three bytes up in a hash table
of places and compares what is there; the table is not set to anything before.  The header byte
of a literal run is written when the run ends: `op` is behind the run, of which there are `lit`
bytes so far.

Pointers are offsets from the start of their buffer, and an access outside of a buffer stops
the function with `memory`.  The options are those of lzfP.h for a machine with 64 bits: a table
of 2^16 offsets that is not initialised, `VERY_FAST`, and `CHECK_INPUT`.
-/
import RedisCore.Lib.CInt
import RedisCore.Util

namespace RedisCore

namespace Lzf

open CInt

/-- How a function ends early: on memory outside of its buffers, or with a zero, in the
decompressor with an `errno`. -/
inductive Stop
  | memory
  | zero
  | E2BIG
  | EINVAL
  deriving DecidableEq

abbrev M := Except Stop

/-- `p[i]`. -/
def byteAt (data : Bytes) (i : Nat) : M UInt8 :=
  match data[i]? with
  | some b => .ok b
  | none => .error .memory

/-- `p[i] = b`. -/
def poke (out : Bytes) (i : Nat) (b : UInt8) : M Bytes :=
  if i < out.length then .ok (out.set i b) else .error .memory

/-! ## lzf_compress -/

def MAX_LIT : Nat := 1 <<< 5
def MAX_OFF : Nat := 1 <<< 13
def MAX_REF : Nat := (1 <<< 8) + (1 <<< 3)

/-- The local variables of `lzf_compress`, its buffer among them. -/
structure Enc where
  ip : Nat
  op : Nat
  lit : Nat
  hval : UInt32
  out : Bytes
  htab : UInt32 → UInt32

variable (data : Bytes)

/-- `FRST (p)`. -/
def FRST (p : Nat) : M UInt32 := do
  let a ← byteAt data p
  let b ← byteAt data (p + 1)
  return (a.toUInt32 <<< 8) ||| b.toUInt32

/-- `NEXT (v, p)`. -/
def NEXT (v : UInt32) (p : Nat) : M UInt32 := do
  let b ← byteAt data (p + 2)
  return (v <<< 8) ||| b.toUInt32

/-- `IDX (h)`. -/
def IDX (h : UInt32) : UInt32 := ((h >>> 8) - h * 5) &&& 0xffff

/-- `htab[IDX (hval)] = p`. -/
def Enc.remember (s : Enc) (p : Nat) : Enc :=
  { s with htab := fun i => if i = IDX s.hval then UInt32.ofNat p else s.htab i }

/-- `*op++ = b`. -/
def Enc.emit (s : Enc) (b : UInt8) : M Enc := do
  let out ← poke s.out s.op b
  return { s with out := out, op := s.op + 1 }

/-- `lit = 0; op++`. -/
def Enc.startRun (s : Enc) : Enc := { s with lit := 0, op := s.op + 1 }

/-- `op [- lit - 1] = lit - 1`. -/
def Enc.endRun (s : Enc) : M Enc :=
  if s.lit + 1 ≤ s.op then do
    let out ← poke s.out (s.op - s.lit - 1) (UInt8.ofNat (s.lit + 255))
    return { s with out := out }
  else .error .memory

/-- `op -= !lit`. -/
def Enc.undoRun (s : Enc) : Enc := { s with op := s.op - if s.lit = 0 then 1 else 0 }

/-- One more literal byte. -/
def literal (s : Enc) : M Enc := do
  let b ← byteAt data s.ip
  let s ← { s with lit := s.lit + 1 }.emit b
  let s := { s with ip := s.ip + 1 }
  if s.lit = MAX_LIT then do
    let s ← s.endRun
    return s.startRun
  else return s

/-- The test for a match at `ref`, behind the one for its offset. -/
def isMatch (ref ip off : Nat) : M Bool :=
  if off < MAX_OFF ∧ 0 < ref then do
    let ref₂ ← byteAt data (ref + 2)
    let ip₂ ← byteAt data (ip + 2)
    if ref₂ = ip₂ then
      let ref₀ ← byteAt data ref
      let ref₁ ← byteAt data (ref + 1)
      let ip₀ ← byteAt data ip
      let ip₁ ← byteAt data (ip + 1)
      return decide (ref₀ = ip₀ ∧ ref₁ = ip₁)
    else return false
  else return false

/-- The comparisons that are written out sixteen times: the length, and whether it is final. -/
def matchSome (ref ip : Nat) : Nat → Nat → M (Nat × Bool)
  | 0, len => return (len, false)
  | n + 1, len => do
      let len := len + 1
      let a ← byteAt data (ref + len)
      let b ← byteAt data (ip + len)
      if a ≠ b then return (len, true) else matchSome ref ip n len

/-- The comparisons up to the greatest length. -/
def matchRest (ref ip maxlen : Nat) : Nat → Nat → M Nat
  | 0, _ => .error .memory
  | fuel + 1, len =>
      let len := len + 1
      if len < maxlen then do
        let a ← byteAt data (ref + len)
        let b ← byteAt data (ip + len)
        if a = b then matchRest ref ip maxlen fuel len else return len
      else return len

/-- The length of a match. -/
def matchLength (ref ip : Nat) : M Nat := do
  let maxlen := toUInt (data.length - ip - 2 : Int)
  let maxlen := if maxlen > MAX_REF then MAX_REF else maxlen
  let (len, final) ← (if maxlen > 16 then matchSome data ref ip 16 2 else pure (2, false))
  if final then return len else matchRest data ref ip maxlen (maxlen + 1) len

/-- A match of `len` bytes and two is written. -/
def Enc.emitRef (s : Enc) (len off : Nat) : M Enc := do
  let s ← (if len < 7 then s.emit (UInt8.ofNat ((off >>> 8) + (len <<< 5)))
    else do
      let s ← s.emit (UInt8.ofNat ((off >>> 8) + (7 <<< 5)))
      s.emit (UInt8.ofNat (len - 7)))
  s.emit (UInt8.ofNat off)

/-- The table after a match: the last two places in it. -/
def Enc.rehash (s : Enc) : M Enc := do
  let ip := s.ip - 2
  let hval ← FRST data ip
  let hval ← NEXT data hval ip
  let s := { s with hval := hval }.remember ip
  let hval ← NEXT data s.hval (ip + 1)
  return { s with hval := hval }.remember (ip + 1)

/-- A match that was found. -/
def Enc.match (s : Enc) (ref off : Nat) : M Enc :=
  -- the first test is the faster one
  if s.op + 3 + 1 ≥ s.out.length ∧ s.undoRun.op + 3 + 1 ≥ s.out.length then .error .zero
  else do
    let s := (← s.endRun).undoRun
    let len := (← matchLength data ref s.ip) - 2
    let s ← { s with ip := s.ip + 1 }.emitRef len off
    let s := s.startRun
    return { s with ip := s.ip + len + 1 }

/-- An iteration of the main loop with the place from the table, and whether it is the last. -/
def tryMatch (s : Enc) (ref : Nat) : M (Enc × Bool) := do
  let off := toULong (s.ip - ref - 1 : Int)
  let found ← isMatch data ref s.ip off
  if found then
    let s ← s.match data ref off
    if s.ip + 2 ≥ data.length then return (s, true)
    else
      let s ← s.rehash data
      return (s, false)
  else if s.op ≥ s.out.length then .error .zero
  else
    let s ← literal data s
    return (s, false)

/-- The main loop of `lzf_compress`. -/
def compressLoop : Nat → Enc → M Enc
  | 0, _ => .error .memory
  | fuel + 1, s =>
      if s.ip + 2 < data.length then do
        let hval ← NEXT data s.hval s.ip
        let ref := s.htab (IDX hval)
        let (s, final) ← tryMatch data ({ s with hval := hval }.remember s.ip) ref.toNat
        if final then return s else compressLoop fuel s
      else return s

/-- The bytes that are left behind the main loop. -/
def literals : Nat → Enc → M Enc
  | 0, _ => .error .memory
  | fuel + 1, s =>
      if s.ip < data.length then do
        let s ← literal data s
        literals fuel s
      else return s

/-- `lzf_compress` into a buffer: how many bytes of it are used. -/
def lzfCompress (htab : UInt32 → UInt32) (out : Bytes) : M (Nat × Bytes) :=
  if data.length = 0 ∨ out.length = 0 then .error .zero
  else do
    let hval ← FRST data 0
    let s : Enc := ⟨0, 0, 0, hval, out, htab⟩
    let s ← compressLoop data (data.length + 1) s.startRun
    if s.op + 3 > s.out.length then .error .zero
    else
      let s ← literals data (data.length + 1) s
      let s := (← s.endRun).undoRun
      return (s.op, s.out)

/-! ## lzf_decompress -/

/-- `*op++ = b`, `op` being the end of what is written so far. -/
def push (outLen : Nat) (out : Bytes) (b : UInt8) : M Bytes :=
  if out.length < outLen then .ok (out ++ [b]) else .error .memory

/-- `*op++ = *ip++`, so many times. -/
def copyRun (outLen : Nat) : Nat → Nat → Bytes → M Bytes
  | 0, _, out => return out
  | n + 1, ip, out => do
      let b ← byteAt data ip
      let out ← push outLen out b
      copyRun outLen n (ip + 1) out

/-- `*op++ = *ref++`, so many times. -/
def copyRef (outLen : Nat) : Nat → Nat → Bytes → M Bytes
  | 0, _, out => return out
  | n + 1, ref, out => do
      let b ← byteAt out ref
      let out ← push outLen out b
      copyRef outLen n (ref + 1) out

/-- `memcpy (op, ref, len)` of bytes that do not overlap. -/
def copyBlock (outLen ref len : Nat) (out : Bytes) : M Bytes :=
  if ref + len ≤ out.length ∧ out.length + len ≤ outLen then
    .ok (out ++ (out.drop ref).take len)
  else .error .memory

/-- A literal run. -/
def literalRun (outLen ctrl ip : Nat) (out : Bytes) : M (Nat × Bytes) :=
  let ctrl := ctrl + 1
  if out.length + ctrl > outLen then .error .E2BIG
  else if ip + ctrl > data.length then .error .EINVAL
  else do
    let out ← copyRun data outLen ctrl ip out
    return (ip + ctrl, out)

/-- The length of a back reference, of which a seven is continued in the next byte. -/
def refLength (len ip : Nat) : M (Nat × Nat) :=
  if len = 7 then do
    let b ← byteAt data ip
    if ip + 1 ≥ data.length then .error .EINVAL else return (len + b.toNat, ip + 1)
  else return (len, ip)

/-- A back reference. -/
def backRef (outLen ctrl ip : Nat) (out : Bytes) : M (Nat × Bytes) :=
  let ref : Int := out.length - ((ctrl &&& 0x1f) <<< 8 : Nat) - 1
  if ip ≥ data.length then .error .EINVAL
  else do
    let (len, ip) ← refLength data (ctrl >>> 5) ip
    let b ← byteAt data ip
    let ref := ref - b.toNat
    if out.length + len + 2 > outLen then .error .E2BIG
    else if ref < 0 then .error .EINVAL
    else
      let out ← (if len > 9 ∧ out.length ≥ ref.toNat + (len + 2) then
          copyBlock outLen ref.toNat (len + 2) out
        else copyRef outLen (len + 2) ref.toNat out)
      return (ip + 1, out)

/-- The loop of `lzf_decompress`. -/
def decompressLoop (outLen : Nat) : Nat → Nat → Bytes → M Bytes
  | 0, _, _ => .error .memory
  | fuel + 1, ip, out => do
      let b ← byteAt data ip
      let (ip, out) ← (if b.toNat < 1 <<< 5 then literalRun data outLen b.toNat (ip + 1) out
        else backRef data outLen b.toNat (ip + 1) out)
      if ip < data.length then decompressLoop outLen fuel ip out else return out

/-- `lzf_decompress`: what is written. -/
def lzfDecompress (outLen : Nat) : M Bytes := decompressLoop data outLen data.length 0 []

end Lzf

end RedisCore
