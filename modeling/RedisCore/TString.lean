/-
# `RedisCore.TString` — SET, GET and DEL (t_string.c, db.c)

The three commands as functions of the database state, each with the reply calls it
makes.  Arguments are string objects as the request parser creates them.
-/
import RedisCore.Db
import RedisCore.Networking.Replies

namespace RedisCore

open CInt

/-- An argument of a request: its bytes, whether the object is EMBSTR or RAW, and its
reference count.  Its length is a `size_t`. -/
structure Arg where
  s : Bytes
  embstr : Bool
  refcount : Nat
  len_lt : (s.length : Int) ≤ LONG_MAX

def Arg.obj (a : Arg) : Robj := if a.embstr then .embstr a.s else .raw a.s

/-- The character at an index of an argument; at its end there is the zero that
terminates every sds. -/
def Arg.char (a : Arg) (i : Nat) : UInt8 := a.s.getD i 0

/-- The option flags of SET. -/
structure SetFlags where
  nx : Bool
  xx : Bool
  ex : Bool
  px : Bool
deriving DecidableEq, Repr

def OBJ_SET_NO_FLAGS : SetFlags := ⟨false, false, false, false⟩

/-- `UNIT_SECONDS` and `UNIT_MILLISECONDS`. -/
inductive TimeUnit where
  | seconds | milliseconds
deriving DecidableEq, Repr

/-- The letters of a two-letter option in either case, then the terminator. -/
def Arg.isOption (a : Arg) (lo₀ up₀ lo₁ up₁ : UInt8) : Bool :=
  (a.char 0 = lo₀ || a.char 0 = up₀) && (a.char 1 = lo₁ || a.char 1 = up₁) && a.char 2 = 0

/-- The options loop of `setCommand`; `none` is the syntax error. -/
def setOptions : List Arg → SetFlags → Option Arg → TimeUnit →
    Option (SetFlags × Option Arg × TimeUnit)
  | [], flags, expire, unit => some (flags, expire, unit)
  | a :: rest, flags, expire, unit =>
      if a.isOption 110 78 120 88 && !flags.xx then
        setOptions rest { flags with nx := true } expire unit
      else if a.isOption 120 88 120 88 && !flags.nx then
        setOptions rest { flags with xx := true } expire unit
      else
        match rest with
        | next :: rest' =>
            if a.isOption 101 69 120 88 && !flags.px then
              setOptions rest' { flags with ex := true } (some next) .seconds
            else if a.isOption 112 80 120 88 && !flags.ex then
              setOptions rest' { flags with px := true } (some next) .milliseconds
            else none
        | [] => none

/-- What the check of the expire argument comes to: no expire time, the milliseconds,
or an error reply. -/
def setMilliseconds (expire : Option Arg) (unit : TimeUnit) :
    Except (List ReplyCall) (Option Int) :=
  match expire with
  | none => .ok none
  | some arg =>
      match getLongLongFromObject arg.obj with
      | none => .error (addReplyError "value is not an integer or out of range")
      | some ms =>
          if ms ≤ 0 then .error (addReplyErrorFormat (cstr "invalid expire time in set"))
          else .ok (some (match unit with
            | .seconds => toLong (ms * 1000)
            | .milliseconds => ms))

/-- The NX and XX conditions of `setGenericCommand`: whether one of them refuses. -/
def setRefused (env : Env) (st : DbState) (flags : SetFlags) (key : Bytes) :
    Option (DbState × Bool) :=
  match (if flags.nx then (lookupKeyWrite env st key).map (fun r => (r.1, r.2.isSome))
    else some (st, false)) with
  | none => none
  | some (st, true) => some (st, true)
  | some (st, false) =>
      if flags.xx then (lookupKeyWrite env st key).map (fun r => (r.1, r.2.isNone))
      else some (st, false)

/-- `setGenericCommand`, as `setCommand` calls it. -/
def setGenericCommand (env : Env) (st : DbState) (flags : SetFlags) (key : Bytes) (val : Robj)
    (expire : Option Arg) (unit : TimeUnit) : Option (DbState × List ReplyCall) :=
  match setMilliseconds expire unit with
  | .error reply => some (st, reply)
  | .ok milliseconds =>
      match setRefused env st flags key with
      | none => none
      | some (st, true) => some (st, [.addReply Shared.nullbulk])
      | some (st, false) =>
          match setKey env st key val with
          | none => none
          | some st =>
              match milliseconds with
              | none => some (st, [.addReply Shared.ok])
              | some ms =>
                  let (now, st) := mstime env st
                  match setExpire st.db key (toLong (now + ms)) with
                  | none => none
                  | some db => some ({ st with db := db }, [.addReply Shared.ok])

/-- `setCommand`: key, value and the arguments from the third on. -/
def setCommand (env : Env) (st : DbState) (key : Bytes) (val : Arg) (opts : List Arg) :
    Option (DbState × List ReplyCall) :=
  match setOptions opts OBJ_SET_NO_FLAGS none .seconds with
  | none => some (st, [.addReply Shared.syntaxerr])
  | some (flags, expire, unit) =>
      setGenericCommand env st flags key (tryObjectEncoding val.refcount val.obj) expire unit

/-- `getCommand`. -/
def getCommand (env : Env) (st : DbState) (key : Bytes) : Option (DbState × List ReplyCall) :=
  match lookupKeyRead env st key with
  | none => none
  | some (st, none) => some (st, [.addReply Shared.nullbulk])
  | some (st, some o) =>
      if !o.isString then some (st, [.addReply Shared.wrongtypeerr])
      else some (st, addReplyBulk o)

/-- The loop of `delCommand` over its keys, with the number deleted. -/
def delLoop (env : Env) : DbState → List Bytes → Nat → Option (DbState × Nat)
  | st, [], deleted => some (st, deleted)
  | st, key :: keys, deleted =>
      match expireIfNeeded env st key with
      | none => none
      | some (st, _) =>
          let (db, found) := dbDelete st.db key
          if found then delLoop env { st with db := signalModifiedKey db key } keys (deleted + 1)
          else delLoop env { st with db := db } keys deleted

/-- `delCommand`. -/
def delCommand (env : Env) (st : DbState) (keys : List Bytes) :
    Option (DbState × List ReplyCall) :=
  match delLoop env st keys 0 with
  | none => none
  | some (st, deleted) => some (st, addReplyLongLong deleted)

/-- A request.  `argc` is an `int`, so there are fewer than `2 ^ 31` keys. -/
inductive Command where
  | set (key : Bytes) (val : Arg) (opts : List Arg)
  | get (key : Bytes)
  | del (keys : List Bytes) (fits : keys.length < 2 ^ 31)

/-- The command procedure of a request. -/
def execCmd (env : Env) (st : DbState) : Command → Option (DbState × List ReplyCall)
  | .set key val opts => setCommand env st key val opts
  | .get key => getCommand env st key
  | .del keys _ => delCommand env st keys

/-- A run, with the reply of every request. -/
def execRun (env : Env) (st : DbState) : List Command → Option (DbState × List (List ReplyCall))
  | [] => some (st, [])
  | c :: cs =>
      match execCmd env st c with
      | none => none
      | some (st, reply) =>
          match execRun env st cs with
          | none => none
          | some (st, replies) => some (st, reply :: replies)

end RedisCore
