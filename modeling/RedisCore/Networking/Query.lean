/-
# `RedisCore.Networking.Query` — from the query buffer to commands (networking.c, sds.c)

A client's bytes are collected in its query buffer.  `processInputBuffer` takes requests off
its front, a line of words or a counted list of counted strings, and hands each vector of
arguments to `processCommand`.  A request may stop at any byte: the client then keeps what is
parsed of it, and the buffer is cut in front of what is not.

Positions and lengths are C's: a `size_t` or a `long` that goes through an `int` is converted.
What a command does is a parameter; a read outside of the buffer, an object stored outside of
`argv` and a failed assertion are faults.
-/
import RedisCore.Networking.Replies

namespace RedisCore

namespace Query

open CInt Decimal

def PROTO_MAX_QUERYBUF_LEN : Nat := 1024 * 1024 * 1024
def PROTO_IOBUF_LEN : Int := 1024 * 16
def PROTO_INLINE_MAX_SIZE : Nat := 1024 * 64
def PROTO_MBULK_BIG_ARG : Int := 1024 * 32

inductive Fault
  | assertion
  | bounds
  | slots
  | fuel
  deriving DecidableEq, Repr

/-- A computation that starts with a value. -/
theorem ok_bind {α β : Type} (a : α) (f : α → Except Fault β) : (Except.ok a >>= f) = f a := rfl

/-! ## Strings -/

/-- `strchr`, as an offset. -/
def strchr (s : Bytes) (c : UInt8) : Option Nat := (cstring s).findIdx? (· = c)

/-- `strchr` from `pos` on, as an offset from the front. -/
def strchrFrom (s : Bytes) (pos : Int) (c : UInt8) : Except Fault (Option Nat) :=
  if 0 ≤ pos ∧ pos ≤ s.length then
    .ok ((strchr (s.drop pos.toNat) c).map (· + pos.toNat))
  else .error .bounds

/-- `s[i]`. -/
def byteAt (s : Bytes) (i : Int) : Except Fault UInt8 :=
  if 0 ≤ i ∧ i < s.length then .ok (s.getD i.toNat 0) else .error .bounds

/-- The `len` bytes at `s + i`. -/
def bytesAt (s : Bytes) (i len : Int) : Except Fault Bytes :=
  if 0 ≤ i ∧ 0 ≤ len ∧ i + len ≤ s.length then .ok ((s.drop i.toNat).take len.toNat)
  else .error .bounds

/-- `sdsrange`. -/
def sdsrange (s : Bytes) (start stop : Int) : Bytes :=
  let len := s.length
  if len = 0 then s
  else
    let start := if start < 0 then max (toInt (len + start)) 0 else start
    let stop := if stop < 0 then max (toInt (len + stop)) 0 else stop
    if start > stop then []
    else if start ≥ toInt len then []
    else
      let stop := if stop ≥ toInt len then toInt (len - 1) else stop
      (s.drop start.toNat).take (stop - start + 1).toNat

/-- On a buffer that is not too long, `sdsrange` to the end drops the bytes in front. -/
theorem sdsrange_from {s : Bytes} (hs : s.length ≤ PROTO_MAX_QUERYBUF_LEN) (n : Nat) :
    sdsrange s n (-1) = s.drop n := by
  have hmax : PROTO_MAX_QUERYBUF_LEN = 2 ^ 30 := rfl
  by_cases h0 : s.length = 0
  · have hnil : s = [] := List.eq_nil_of_length_eq_zero h0
    subst hnil
    rw [List.drop_nil]
    rfl
  have hlen : toInt s.length = s.length := toInt_eq (by omega) (by omega)
  have hlast : toInt (s.length + -1) = s.length - 1 := toInt_eq (by omega) (by omega)
  have hstop : max (toInt (s.length + -1)) 0 = (s.length : Int) - 1 := by rw [hlast]; omega
  simp only [sdsrange, if_neg h0, if_neg (show ¬ (n : Int) < 0 by omega),
    if_pos (show (-1 : Int) < 0 by decide), hstop, hlen]
  by_cases hn : (n : Int) > s.length - 1
  · rw [if_pos hn, List.drop_of_length_le (by omega)]
  · rw [if_neg hn, if_neg (by omega), if_neg (by omega), Int.toNat_natCast]
    apply List.take_of_length_le
    rw [List.length_drop]
    omega

theorem strchr_none {s : Bytes} {c : UInt8} (h : c ∉ s) : strchr s c = none := by
  refine List.findIdx?_eq_none_iff.mpr ?_
  intro x hx
  have hs : x ∈ s := (List.takeWhile_sublist _).mem hx
  have hne : x ≠ c := fun heq => h (heq ▸ hs)
  simp [hne]

/-- The first line break is found behind a line without zero bytes. -/
theorem strchr_append {h t : Bytes} {c : UInt8} (hc : c ≠ 0) (hh : c ∉ h) (h0 : 0 ∉ h) :
    strchr (h ++ c :: t) c = some h.length := by
  have hstr : cstring (h ++ c :: t) = h ++ c :: cstring t := by
    unfold cstring
    rw [List.takeWhile_append_of_pos, List.takeWhile_cons_of_pos]
    · simpa using hc
    · intro x hx
      have : x ≠ 0 := fun heq => h0 (heq ▸ hx)
      simpa using this
  have hnone : List.findIdx? (fun x => decide (x = c)) h = none := by
    refine List.findIdx?_eq_none_iff.mpr ?_
    intro x hx
    have hne : x ≠ c := fun heq => hh (heq ▸ hx)
    simp [hne]
  rw [strchr, hstr, List.findIdx?_append, hnone]
  simp [List.findIdx?_cons]

theorem strchr_some {s : Bytes} {c : UInt8} {i : Nat} (hi : strchr s c = some i) :
    ∃ h t, s = h ++ c :: t ∧ h.length = i ∧ c ∉ h ∧ 0 ∉ h := by
  have hpre : cstring s <+: s := List.takeWhile_prefix _
  obtain ⟨rest, hrest⟩ := hpre
  obtain ⟨hlt, hat, hbefore⟩ := List.findIdx?_eq_some_iff_getElem.mp hi
  have hat : (cstring s)[i] = c := by simpa using hat
  have hcut : cstring s = (cstring s).take i ++ c :: (cstring s).drop (i + 1) := by
    rw [← hat, List.getElem_cons_drop, List.take_append_drop]
  refine ⟨(cstring s).take i, (cstring s).drop (i + 1) ++ rest, ?_, ?_, ?_, ?_⟩
  · rw [← List.cons_append, ← List.append_assoc, ← hcut, hrest]
  · rw [List.length_take]
    omega
  · intro hmem
    obtain ⟨j, hj, hjc⟩ := List.getElem_of_mem hmem
    rw [List.length_take] at hj
    rw [List.getElem_take] at hjc
    have := hbefore j (by omega)
    simp [hjc] at this
  · intro hmem
    have hz : (0 : UInt8) ∈ cstring s := List.mem_of_mem_take hmem
    have hall : (cstring s).all (· ≠ 0) = true := List.all_takeWhile
    have := List.all_eq_true.mp hall 0 hz
    simp at this

theorem strchrFrom_eq {s : Bytes} {pos : Nat} (hp : pos ≤ s.length) (c : UInt8) :
    strchrFrom s pos c = .ok ((strchr (s.drop pos) c).map (· + pos)) := by
  rw [strchrFrom, if_pos ⟨by omega, by omega⟩, Int.toNat_natCast]

theorem byteAt_eq {s : Bytes} {i : Nat} (hi : i < s.length) : byteAt s i = .ok s[i] := by
  rw [byteAt, if_pos ⟨by omega, by omega⟩, Int.toNat_natCast, List.getD_eq_getElem?_getD,
    List.getElem?_eq_getElem hi, Option.getD_some]

theorem bytesAt_eq {s : Bytes} {i n : Nat} (h : i + n ≤ s.length) :
    bytesAt s i n = .ok ((s.drop i).take n) := by
  rw [bytesAt, if_pos ⟨by omega, by omega, by omega⟩, Int.toNat_natCast, Int.toNat_natCast]

/-- `is_hex_digit`. -/
def isHexDigit (c : UInt8) : Bool :=
  (48 ≤ c && c ≤ 57) || (97 ≤ c && c ≤ 102) || (65 ≤ c && c ≤ 70)

/-- `hex_digit_to_int`. -/
def hexDigitToInt (c : UInt8) : UInt8 :=
  if 48 ≤ c ∧ c ≤ 57 then c - 48
  else if 97 ≤ c ∧ c ≤ 102 then c - 97 + 10
  else if 65 ≤ c ∧ c ≤ 70 then c - 65 + 10
  else 0

/-- What a letter stands for behind a backslash. -/
def escaped (c : UInt8) : UInt8 :=
  if c = 110 then 10
  else if c = 114 then 13
  else if c = 116 then 9
  else if c = 98 then 8
  else if c = 97 then 7
  else c

/-- `inq` and `insq`. -/
inductive Quote
  | plain
  | double
  | single
  deriving DecidableEq, Repr

/-- A closing quote stands before a blank or at the end. -/
def closes : Bytes → Bool
  | [] => true
  | c :: _ => isspace c

/-- A token of `sdssplitargs`, and what is left behind it. -/
def splitToken : Quote → Bytes → Bytes → Option (Bytes × Bytes)
  | .plain, current, [] => some (current, [])
  | .plain, current, c :: p =>
      if c = 32 ∨ c = 10 ∨ c = 13 ∨ c = 9 then some (current, p)
      else if c = 34 then splitToken .double current p
      else if c = 39 then splitToken .single current p
      else splitToken .plain (current ++ [c]) p
  | .double, _, [] => none
  | .double, current, c :: p =>
      if c = 92 then
        match p with
        | [] => splitToken .double (current ++ [c]) []
        | e :: q =>
            if e = 120 then
              match q with
              | h :: l :: r =>
                  if isHexDigit h && isHexDigit l then
                    splitToken .double (current ++ [hexDigitToInt h * 16 + hexDigitToInt l]) r
                  else splitToken .double (current ++ [escaped e]) (h :: l :: r)
              | [h] => splitToken .double (current ++ [escaped e]) [h]
              | [] => splitToken .double (current ++ [escaped e]) []
            else splitToken .double (current ++ [escaped e]) q
      else if c = 34 then if closes p then some (current, p) else none
      else splitToken .double (current ++ [c]) p
  | .single, _, [] => none
  | .single, current, c :: p =>
      if c = 92 then
        match p with
        | [] => splitToken .single (current ++ [c]) []
        | e :: q =>
            if e = 39 then splitToken .single (current ++ [39]) q
            else splitToken .single (current ++ [c]) (e :: q)
      else if c = 39 then if closes p then some (current, p) else none
      else splitToken .single (current ++ [c]) p

/-- The loop of `sdssplitargs`. -/
def splitLoop : Nat → Bytes → Except Fault (Option (List Bytes))
  | 0, _ => .error .fuel
  | fuel + 1, p =>
      match p.dropWhile isspace with
      | [] => .ok (some [])
      | c :: p =>
          match splitToken .plain [] (c :: p) with
          | none => .ok none
          | some (current, p) => do
              let vector ← splitLoop fuel p
              return vector.map (current :: ·)

/-- `sdssplitargs`: the tokens, or nothing where the quotes are unbalanced. -/
def sdssplitargs (line : Bytes) : Except Fault (Option (List Bytes)) :=
  splitLoop (line.length + 1) (cstring line)

/-! ## Clients -/

inductive ReqType
  | unknown
  | inline
  | multibulk
  deriving DecidableEq, Repr

/-- The flags that `processInputBuffer` looks at. -/
structure Flags where
  slave : Bool
  blocked : Bool
  closeAfterReply : Bool
  closeAsap : Bool
  deriving DecidableEq, Repr

/-- `client`, as far as its requests go: `argv` are the objects stored, `slots` the room that
was allocated for them, `errors` the replies of the parser. -/
structure Client where
  querybuf : Bytes
  reqtype : ReqType
  multibulklen : Nat
  bulklen : Int
  argv : List Bytes
  slots : Nat
  flags : Flags
  errors : List ReplyCall
  deriving DecidableEq, Repr

/-- `createClient`. -/
def Client.fresh : Client where
  querybuf := []
  reqtype := .unknown
  multibulklen := 0
  bulklen := -1
  argv := []
  slots := 0
  flags := { slave := false, blocked := false, closeAfterReply := false, closeAsap := false }
  errors := []

/-- `resetClient`; `freeClientArgv` keeps the array. -/
def resetClient (c : Client) : Client :=
  { c with argv := [], reqtype := .unknown, multibulklen := 0, bulklen := -1 }

/-- `c->argv[c->argc++] = o`. -/
def storeArg (c : Client) (o : Bytes) : Except Fault Client :=
  if c.argv.length < c.slots then .ok { c with argv := c.argv ++ [o] } else .error .slots

/-- The reply of an error. -/
def Client.complain (c : Client) (reply : List ReplyCall) : Client :=
  { c with errors := c.errors ++ reply }

/-- `setProtocolError`. -/
def setProtocolError (c : Client) (pos : Int) : Client :=
  { c with
    flags := { c.flags with closeAfterReply := true }
    querybuf := sdsrange c.querybuf pos (-1) }

/-! ## Inline requests -/

/-- The objects of the arguments that are not empty. -/
def storeArgs : List Bytes → Client → Except Fault Client
  | [], c => .ok c
  | a :: argv, c => do
      let c ← if a.length ≠ 0 then storeArg c a else .ok c
      storeArgs argv c

/-- The length of a line whose line feed is at `newline`. -/
def lineEnd (s : Bytes) (newline : Nat) : Except Fault Nat :=
  if newline ≠ 0 then do
    let back ← byteAt s (newline - 1)
    return if back = 13 then newline - 1 else newline
  else .ok newline

/-- `processInlineBuffer`, and whether it returns `C_OK`. -/
def processInlineBuffer (c : Client) : Except Fault (Client × Bool) :=
  match strchr c.querybuf 10 with
  | none =>
      if c.querybuf.length > PROTO_INLINE_MAX_SIZE then
        .ok (setProtocolError
          (c.complain (addReplyError "Protocol error: too big inline request")) 0, false)
      else .ok (c, false)
  | some newline => do
      let querylen ← lineEnd c.querybuf newline
      let aux ← bytesAt c.querybuf 0 querylen
      match ← sdssplitargs aux with
      | none =>
          return (setProtocolError
            (c.complain (addReplyError "Protocol error: unbalanced quotes in request")) 0, false)
      | some argv =>
          let c ← storeArgs argv { c with
            querybuf := sdsrange c.querybuf (toInt (querylen + 2)) (-1)
            slots := if argv.length ≠ 0 then argv.length else c.slots
            argv := [] }
          return (c, true)

/-! ## Multibulk requests -/

/-- How a part of `processMultibulkBuffer` ends: it returns, it leaves the loop, or it goes on
at `pos`. -/
inductive Next
  | ret (c : Client) (ok : Bool)
  | leave (c : Client) (pos : Int)
  | go (c : Client) (pos : Int)

/-- A protocol error: the reply, the cut of the buffer and `C_ERR`. -/
def Client.refuse (c : Client) (reply : List ReplyCall) (pos : Int) : Next :=
  .ret (setProtocolError (c.complain reply) pos) false

/-- The number of arguments. -/
def readMultibulkLen (c : Client) : Except Fault Next :=
  if c.argv ≠ [] then .error .assertion
  else
    match strchr c.querybuf 13 with
    | none =>
        if c.querybuf.length > PROTO_INLINE_MAX_SIZE then
          .ok (c.refuse (addReplyError "Protocol error: too big mbulk count string") 0)
        else .ok (.ret c false)
    | some newline =>
        if (newline : Int) > toInt c.querybuf.length - 2 then .ok (.ret c false)
        else do
          let first ← byteAt c.querybuf 0
          if first ≠ 42 then .error .assertion
          else
            let digits ← bytesAt c.querybuf 1 (newline - 1)
            match string2ll digits with
            | none => return c.refuse (addReplyError "Protocol error: invalid multibulk length") 0
            | some ll =>
                if ll > 1024 * 1024 then
                  return c.refuse (addReplyError "Protocol error: invalid multibulk length") 0
                else
                  let pos := toInt (newline + 2)
                  if ll ≤ 0 then
                    return .ret { c with querybuf := sdsrange c.querybuf pos (-1) } true
                  else return .go { c with multibulklen := ll.toNat, slots := ll.toNat } pos

/-- The length of an argument. -/
def readBulkLen (c : Client) (pos : Int) : Except Fault Next :=
  if c.bulklen ≠ -1 then .ok (.go c pos)
  else do
    match ← strchrFrom c.querybuf pos 13 with
    | none =>
        if c.querybuf.length > PROTO_INLINE_MAX_SIZE then
          return c.refuse (addReplyError "Protocol error: too big bulk count string") 0
        else return .leave c pos
    | some newline =>
        if (newline : Int) > toInt c.querybuf.length - 2 then return .leave c pos
        else
          let first ← byteAt c.querybuf pos
          if first ≠ 36 then
            return c.refuse (addReplyErrorFormat
              (cstr "Protocol error: expected '$', got '" ++ [first] ++ cstr "'")) pos
          else
            let digits ← bytesAt c.querybuf (pos + 1) (newline - (pos + 1))
            match string2ll digits with
            | none => return c.refuse (addReplyError "Protocol error: invalid bulk length") pos
            | some ll =>
                if ll < 0 ∨ ll > 512 * 1024 * 1024 then
                  return c.refuse (addReplyError "Protocol error: invalid bulk length") pos
                else
                  let pos := toInt (pos + ((newline - pos) + 2))
                  if ll ≥ PROTO_MBULK_BIG_ARG then
                    return .go { c with querybuf := sdsrange c.querybuf pos (-1), bulklen := ll } 0
                  else return .go { c with bulklen := ll } pos

/-- An argument. -/
def readBulk (c : Client) (pos : Int) : Except Fault Next :=
  if toULong (c.querybuf.length - pos) < toUInt (c.bulklen + 2) then .ok (.leave c pos)
  else if pos = 0 ∧ c.bulklen ≥ PROTO_MBULK_BIG_ARG ∧ toInt c.querybuf.length = c.bulklen + 2 then do
    -- the buffer itself becomes the argument
    let o ← bytesAt c.querybuf 0 (c.querybuf.length - 2)
    let c ← storeArg c o
    return .go { c with querybuf := [], bulklen := -1, multibulklen := c.multibulklen - 1 } 0
  else do
    let o ← bytesAt c.querybuf pos c.bulklen
    let c ← storeArg c o
    return .go { c with bulklen := -1, multibulklen := c.multibulklen - 1 }
      (toInt (pos + (c.bulklen + 2)))

/-- `while (c->multibulklen)`, by the value of the counter. -/
def bulkLoop : Nat → Client → Int → Except Fault Next
  | 0, c, pos => .ok (.leave c pos)
  | n + 1, c, pos => do
      match ← readBulkLen c pos with
      | .go c pos =>
          match ← readBulk c pos with
          | .go c pos => bulkLoop n c pos
          | next => return next
      | next => return next

/-- `processMultibulkBuffer` from the loop on. -/
def readBulks (c : Client) (pos : Int) : Except Fault (Client × Bool) :=
  if c.multibulklen = 0 then .error .assertion
  else do
    match ← bulkLoop c.multibulklen c pos with
    | .ret c ok => return (c, ok)
    | .leave c pos | .go c pos =>
        let c := if pos ≠ 0 then { c with querybuf := sdsrange c.querybuf pos (-1) } else c
        return (c, decide (c.multibulklen = 0))

/-- `processMultibulkBuffer`, and whether it returns `C_OK`. -/
def processMultibulkBuffer (c : Client) : Except Fault (Client × Bool) :=
  if c.multibulklen = 0 then do
    match ← readMultibulkLen c with
    | .ret c ok => return (c, ok)
    | .leave c pos | .go c pos => readBulks c pos
  else readBulks c 0

/-! ## The loop -/

/-- The server, as far as the loop looks at it; `data` is everything else. -/
structure Server (σ : Type) where
  data : σ
  clientsPaused : Bool
  clientsPauseEndTime : Int
  mstime : Int

/-- What a command leaves: the flags of its client, and whether that is still there. -/
structure Effect (σ : Type) where
  server : Server σ
  flags : Flags
  freed : Bool

/-- `processCommand` behind the test for QUIT. -/
abbrev Execute (σ : Type) := Server σ → Flags → List Bytes → Effect σ

/-- The state of `processInputBuffer`; `handed` are the vectors that went to
`processCommand`, and `freed` tells that `current_client` is null. -/
structure State (σ : Type) where
  server : Server σ
  client : Client
  handed : List (List Bytes)
  freed : Bool

/-- `clientsArePaused`. -/
def clientsArePaused (s : Server σ) : Server σ × Bool :=
  let s :=
    if s.clientsPaused && decide (s.clientsPauseEndTime < s.mstime) then
      { s with clientsPaused := false }
    else s
  (s, s.clientsPaused)

/-- `!strcasecmp(argv[0], "quit")`. -/
def isQuit (argv : List Bytes) : Bool := (cstring (argv.headD [])).map lower = cstr "quit"

/-- Flags after a command; nothing takes the two closing flags away. -/
def Flags.after (f g : Flags) : Flags :=
  { g with
    closeAfterReply := f.closeAfterReply || g.closeAfterReply
    closeAsap := f.closeAsap || g.closeAsap }

/-- `processCommand`, and whether it returns `C_OK`. -/
def processCommand (execute : Execute σ) (s : State σ) : State σ × Bool :=
  let c := s.client
  let s := { s with handed := s.handed ++ [c.argv] }
  if isQuit c.argv then
    ({ s with client := { c with flags := { c.flags with closeAfterReply := true } } }, false)
  else
    let e := execute s.server c.flags c.argv
    ({ s with
       server := e.server
       client := { c with flags := c.flags.after e.flags }
       freed := e.freed }, true)

/-- The type of a request that is not known yet. -/
def requestType (c : Client) : Except Fault Client :=
  if c.reqtype = .unknown then do
    let first ← byteAt c.querybuf 0
    return { c with reqtype := if first = 42 then .multibulk else .inline }
  else .ok c

/-- The request at the front of the buffer. -/
def parse (c : Client) : Except Fault (Client × Bool) := do
  let c ← requestType c
  match c.reqtype with
  | .inline => processInlineBuffer c
  | .multibulk => processMultibulkBuffer c
  | .unknown => .error .assertion

/-- What is done with a request: the state, and whether the loop goes on. -/
def dispatch (execute : Execute σ) (s : State σ) : State σ × Bool :=
  if s.client.argv.length = 0 then ({ s with client := resetClient s.client }, true)
  else
    let (s, ok) := processCommand execute s
    let s := if ok then { s with client := resetClient s.client } else s
    (s, !s.freed)

/-- One turn of the loop of `processInputBuffer`: the state, and whether the loop goes on. -/
def turn (execute : Execute σ) (s : State σ) : Except Fault (State σ × Bool) :=
  let (server, paused) :=
    if s.client.flags.slave then (s.server, false) else clientsArePaused s.server
  let s := { s with server := server }
  let flags := s.client.flags
  if paused || flags.blocked || flags.closeAfterReply || flags.closeAsap then .ok (s, false)
  else do
    let (c, ok) ← parse s.client
    let s := { s with client := c }
    return if ok then dispatch execute s else (s, false)

/-- `while (sdslen(c->querybuf))`. -/
def inputLoop (execute : Execute σ) : Nat → State σ → Except Fault (State σ)
  | 0, s => if s.client.querybuf.length = 0 then .ok s else .error .fuel
  | fuel + 1, s =>
      if s.client.querybuf.length = 0 then .ok s
      else do
        let (s, again) ← turn execute s
        if again then inputLoop execute fuel s else return s

/-- `processInputBuffer`; no turn of the loop leaves the buffer as long as it was. -/
def processInputBuffer (execute : Execute σ) (s : State σ) : Except Fault (State σ) :=
  inputLoop execute s.client.querybuf.length s

/-! ## Reads -/

/-- `readlen` of `readQueryFromClient`. -/
def readlen (c : Client) : Int :=
  if c.reqtype = .multibulk ∧ c.multibulklen ≠ 0 ∧ c.bulklen ≠ -1
      ∧ c.bulklen ≥ PROTO_MBULK_BIG_ARG then
    let remaining := toInt (toULong (toUInt (c.bulklen + 2) - c.querybuf.length))
    if remaining < PROTO_IOBUF_LEN then remaining else PROTO_IOBUF_LEN
  else PROTO_IOBUF_LEN

/-- What `read` returns: an error, of which only `EAGAIN` leaves the client alone, or the
bytes that it has put into the buffer. -/
inductive ReadResult
  | again
  | failed
  | data (b : Bytes)

/-- `freeClient`. -/
def freeClient (s : State σ) : State σ := { s with freed := true }

/-- `readQueryFromClient`. -/
def readQueryFromClient (execute : Execute σ) (s : State σ) : ReadResult → Except Fault (State σ)
  | .again => .ok s
  | .failed => .ok (freeClient s)
  | .data b =>
      if b.length = 0 then .ok (freeClient s)
      else
        let s := { s with client := { s.client with querybuf := s.client.querybuf ++ b } }
        if s.client.querybuf.length > PROTO_MAX_QUERYBUF_LEN then .ok (freeClient s)
        else processInputBuffer execute s

end Query

end RedisCore
