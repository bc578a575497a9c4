/-
# `RedisCore.Networking.Replies` — what the reply helpers hand on (networking.c)

The helpers around the reply stream end in calls of `addReply`, `addReplySds` and
`addReplyString`.  A helper is modelled by the list of these calls; what becomes of
the calls is the business of the output buffers.
-/
import RedisCore.Object

namespace RedisCore

open CInt Decimal

/-- `OBJ_SHARED_BULKHDR_LEN`. -/
def OBJ_SHARED_BULKHDR_LEN : Int := 32

/-- A call of one of the three entry points of the output buffers. -/
inductive ReplyCall where
  | addReply (o : Robj)
  | addReplySds (s : Bytes)
  | addReplyString (s : Bytes)
deriving DecidableEq, Repr

/-- The bytes a call stands for. -/
def ReplyCall.bytes : ReplyCall → Bytes
  | .addReply o => o.bytes
  | .addReplySds s | .addReplyString s => s

/-- The bytes of a reply. -/
def replyBytes (calls : List ReplyCall) : Bytes := calls.flatMap ReplyCall.bytes

namespace Shared

/-- The shared objects, as `createSharedObjects` makes them. -/
def crlf : Robj := .raw (cstr "\r\n")
def ok : Robj := .raw (cstr "+OK\r\n")
def czero : Robj := .raw (cstr ":0\r\n")
def cone : Robj := .raw (cstr ":1\r\n")
def nullbulk : Robj := .raw (cstr "$-1\r\n")
def wrongtypeerr : Robj :=
  .raw (cstr "-WRONGTYPE Operation against a key holding the wrong kind of value\r\n")
def syntaxerr : Robj := .raw (cstr "-ERR syntax error\r\n")

/-- `shared.mbulkhdr[j]` and `shared.bulkhdr[j]`, printed with `%d`. -/
def mbulkhdr (j : Int) : Robj := .raw (cstr "*" ++ decInt j ++ cstr "\r\n")
def bulkhdr (j : Int) : Robj := .raw (cstr "$" ++ decInt j ++ cstr "\r\n")

end Shared

/-- `addReplyErrorLength`. -/
def addReplyErrorLength (s : Bytes) : List ReplyCall :=
  [.addReplyString (cstr "-ERR "), .addReplyString s, .addReplyString (cstr "\r\n")]

/-- `addReplyError`. -/
def addReplyError (err : String) : List ReplyCall := addReplyErrorLength (cstr err)

/-- `addReplyErrorFormat`, after the formatting: line breaks become spaces. -/
def addReplyErrorFormat (s : Bytes) : List ReplyCall :=
  addReplyErrorLength (s.map (fun c => if c = 13 ∨ c = 10 then 32 else c))

/-- `addReplyLongLongWithPrefix`; the buffer holds 128 bytes, one of them the prefix. -/
def addReplyLongLongWithPrefix (ll : Int) (pre : UInt8) : List ReplyCall :=
  if pre = 42 ∧ ll < OBJ_SHARED_BULKHDR_LEN ∧ ll ≥ 0 then [.addReply (Shared.mbulkhdr ll)]
  else if pre = 36 ∧ ll < OBJ_SHARED_BULKHDR_LEN ∧ ll ≥ 0 then [.addReply (Shared.bulkhdr ll)]
  else
    let buf := ll2string (List.replicate 127 0) ll
    [.addReplyString (pre :: (buf.1.take buf.2 ++ [13, 10]))]

/-- `addReplyLongLong`. -/
def addReplyLongLong (ll : Int) : List ReplyCall :=
  if ll = 0 then [.addReply Shared.czero]
  else if ll = 1 then [.addReply Shared.cone]
  else addReplyLongLongWithPrefix ll 58

/-- `addReplyMultiBulkLen`; a shared header is looked up without a look at the sign. -/
def addReplyMultiBulkLen (length : Int) : List ReplyCall :=
  if length < OBJ_SHARED_BULKHDR_LEN then [.addReply (Shared.mbulkhdr length)]
  else addReplyLongLongWithPrefix length 42

/-- The digit count of `addReplyBulkLen`; `n` is a `long`, division truncates. -/
def radix10Loop : Nat → Int → Nat → Nat
  | 0, _, len => len
  | fuel + 1, n, len =>
      let n := n.tdiv 10
      if n ≠ 0 then radix10Loop fuel n (len + 1) else len

/-- `addReplyBulkLen`. -/
def addReplyBulkLen (obj : Robj) : List ReplyCall :=
  let len : Nat :=
    match obj with
    | .raw s | .embstr s => s.length
    | .int n => radix10Loop 20 (if n < 0 then toLong (-n) else n) (if n < 0 then 2 else 1)
    | .other _ => 0
  if (len : Int) < OBJ_SHARED_BULKHDR_LEN then [.addReply (Shared.bulkhdr len)]
  else addReplyLongLongWithPrefix len 36

/-- `addReplyBulk`. -/
def addReplyBulk (obj : Robj) : List ReplyCall :=
  addReplyBulkLen obj ++ [.addReply obj, .addReply Shared.crlf]

/-! ## What the helpers spell -/

/-- A bulk string of RESP. -/
def respBulk (s : Bytes) : Bytes := cstr "$" ++ decInt s.length ++ cstr "\r\n" ++ s ++ cstr "\r\n"

/-- An array of bulk strings of RESP, as a command is sent. -/
def respArray (args : List Bytes) : Bytes :=
  cstr "*" ++ decInt args.length ++ cstr "\r\n" ++ args.flatMap respBulk

/-- An integer of RESP. -/
def respInt (n : Int) : Bytes := cstr ":" ++ decInt n ++ cstr "\r\n"

/-- The loop counts the digits that follow the first. -/
theorem radix10Loop_spec : ∀ (fuel n len : Nat), n < 10 ^ (fuel + 1) →
    radix10Loop fuel n len + 1 = len + (decNat n).length := by
  intro fuel
  induction fuel with
  | zero => intro n len h; rw [decNat_of_lt (by simpa using h)]; rfl
  | succ fuel ih =>
      intro n len h
      have hdiv : (n : Int).tdiv 10 = ((n / 10 : Nat) : Int) := rfl
      simp only [radix10Loop, hdiv]
      by_cases hn : n < 10
      · have : n / 10 = 0 := by omega
        simp [this, decNat_of_lt hn]
      · have hne : ((n / 10 : Nat) : Int) ≠ 0 := by omega
        have hlt : n / 10 < 10 ^ (fuel + 1) := by
          apply Nat.div_lt_of_lt_mul
          rw [Nat.mul_comm, ← Nat.pow_succ]
          exact h
        rw [if_pos hne, ih _ _ hlt]
        conv_rhs => rw [decNat, if_neg hn, List.length_append]
        simp only [List.length_singleton]
        omega

/-- Where `n` is `LONG_MIN` the negation wraps around and the loop runs on negative
numbers; it counts the same digits. -/
theorem radix10Loop_long_min : radix10Loop 20 (toLong (-LONG_MIN)) 2 = 20 := by decide

theorem bulkLen_int {n : Int} (h₁ : LONG_MIN ≤ n) (h₂ : n ≤ LONG_MAX) :
    radix10Loop 20 (if n < 0 then toLong (-n) else n) (if n < 0 then 2 else 1)
      = (decInt n).length := by
  have hmin : LONG_MIN = -(2 ^ 63) := rfl
  have hmax : LONG_MAX = 2 ^ 63 - 1 := rfl
  by_cases hlm : n = LONG_MIN
  · subst hlm
    rw [if_pos (by decide), if_pos (by decide), radix10Loop_long_min]
    have habs : LONG_MIN.natAbs = 2 ^ 63 := by decide
    rw [decInt, if_pos (by decide), habs, List.length_cons,
      length_decNat_of (k := 18) (by decide) (by decide)]
  have hspec := fun len => radix10Loop_spec 20 n.natAbs len
    (Nat.lt_trans (by omega : n.natAbs < 2 ^ 64) (by decide))
  by_cases hneg : n < 0
  · have habs : toLong (-n) = (n.natAbs : Int) := by
      rw [toLong_eq (by omega) (by omega)]
      omega
    have := hspec 2
    rw [if_pos hneg, if_pos hneg, habs, decInt, if_pos hneg, List.length_cons]
    omega
  · have habs : n = (n.natAbs : Int) := by omega
    have := hspec 1
    rw [if_neg hneg, if_neg hneg, decInt, if_neg hneg]
    rw [← habs] at this
    omega

theorem replyBytes_longLongWithPrefix {ll : Int} (h₁ : LONG_MIN ≤ ll) (h₂ : ll ≤ LONG_MAX)
    (pre : UInt8) :
    replyBytes (addReplyLongLongWithPrefix ll pre) = pre :: (decInt ll ++ cstr "\r\n") := by
  unfold addReplyLongLongWithPrefix
  split
  · next h => rw [h.1]; simp [replyBytes, ReplyCall.bytes, Shared.mbulkhdr, Robj.bytes, cstr]
  split
  · next h => rw [h.1]; simp [replyBytes, ReplyCall.bytes, Shared.bulkhdr, Robj.bytes, cstr]
  have hlen := length_decInt_le h₁ h₂
  obtain ⟨h, htake, _⟩ := @ll2string_spec ll h₁ h₂ (List.replicate 127 0)
    (by rw [List.length_replicate]; omega)
  simp only [h, htake]
  simp [replyBytes, ReplyCall.bytes, cstr]

theorem replyBytes_multiBulkLen {length : Int} (h₁ : 0 ≤ length) (h₂ : length ≤ LONG_MAX) :
    replyBytes (addReplyMultiBulkLen length) = cstr "*" ++ decInt length ++ cstr "\r\n" := by
  unfold addReplyMultiBulkLen
  split
  · simp [replyBytes, ReplyCall.bytes, Shared.mbulkhdr, Robj.bytes]
  · rw [replyBytes_longLongWithPrefix (Int.le_trans (by decide) h₁) h₂]
    simp [cstr]

/-- An integer reply is the RESP integer. -/
theorem replyBytes_longLong {ll : Int} (h₁ : LONG_MIN ≤ ll) (h₂ : ll ≤ LONG_MAX) :
    replyBytes (addReplyLongLong ll) = respInt ll := by
  unfold addReplyLongLong
  split
  · next h => subst h; simp [replyBytes, ReplyCall.bytes, Shared.czero, Robj.bytes, respInt,
      decInt, decNat_of_lt, digit, cstr]
  split
  · next h => subst h; simp [replyBytes, ReplyCall.bytes, Shared.cone, Robj.bytes, respInt,
      decInt, decNat_of_lt, digit, cstr]
  · rw [replyBytes_longLongWithPrefix h₁ h₂]
    simp [respInt, cstr]

/-- A bulk reply is the RESP bulk of the object's bytes, for every encoding. -/
theorem replyBytes_bulk {obj : Robj} (hok : obj.Ok) (hs : obj.isString = true)
    (hlen : (obj.bytes.length : Int) ≤ LONG_MAX) :
    replyBytes (addReplyBulk obj) = respBulk obj.bytes := by
  have hhdr : replyBytes (addReplyBulkLen obj)
      = cstr "$" ++ decInt obj.bytes.length ++ cstr "\r\n" := by
    have hl : ∀ len : Nat, (len : Int) ≤ LONG_MAX →
        replyBytes (if (len : Int) < OBJ_SHARED_BULKHDR_LEN then [.addReply (Shared.bulkhdr len)]
          else addReplyLongLongWithPrefix len 36) = cstr "$" ++ decInt len ++ cstr "\r\n" := by
      intro len hle
      split
      · simp [replyBytes, ReplyCall.bytes, Shared.bulkhdr, Robj.bytes]
      · rw [replyBytes_longLongWithPrefix (Int.le_trans (by decide) (Int.natCast_nonneg len)) hle]
        simp [cstr]
    cases obj with
    | raw s => exact hl _ hlen
    | embstr s => exact hl _ hlen
    | int n =>
        have hb : (Robj.int n).bytes = decInt n := ll2str_eq hok.1 hok.2
        rw [hb] at hlen ⊢
        simp only [addReplyBulkLen, bulkLen_int hok.1 hok.2]
        exact hl _ hlen
    | other type => exact absurd hs (by simp [Robj.isString])
  have happ : replyBytes (addReplyBulk obj) = replyBytes (addReplyBulkLen obj) ++ obj.bytes
      ++ cstr "\r\n" := by
    simp [replyBytes, addReplyBulk, ReplyCall.bytes, Shared.crlf, Robj.bytes]
  rw [happ, hhdr, respBulk]

end RedisCore
