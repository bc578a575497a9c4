/-
# `RedisCore.Replication.BulkTransfer` — a full resynchronisation from a file (replication.c)

A slave waits for the RDB file, and its master writes a newline to it from time to time.  Then
`sendBulkToSlave` writes a line with the length of the file, and the file; only after that the
commands are written that were fed to the slave since the file was begun.  The slave reads from
the same connection with `readSyncBulkPayload`, and what is behind the file with the client it
makes for its master.

A link is the record of the slave at the master, the bytes on the connection and the transfer at
the slave.  Its events are the calls of both sides in any order, with what the sockets and files
answer; a write takes as many bytes as it likes, and a read gives as many of those that have
come.  `syncReadLine` is not in the repository: it is a parameter.
-/
import RedisCore.Replication.Transfer
import RedisCore.Networking.Clients

namespace RedisCore

namespace BulkTransfer

open CInt Decimal
open Handshake (Payload)
open Clients (ReplState)

/-! ## The master -/

/-- The `char buf` of `sendBulkToSlave`. -/
def PROTO_IOBUF_LEN : Nat := 1024 * 16

/-- A slave at its master: the fields of its client that the transfer uses, the file behind
`repldbfd`, and what its output buffers hold. -/
structure Slave where
  replstate : ReplState
  replpreamble : Option Bytes
  repldbfd : Option Bytes
  repldboff : Nat
  repldbsize : Nat
  reply : Bytes

/-- What `write` answers: how many bytes it takes, `EAGAIN` or another error. -/
inductive Written
  | bytes (n : Nat)
  | again
  | failed

/-- What the system answers to `sendBulkToSlave`; `none` is a failure. -/
structure Answers where
  preamble : Option Nat
  read : Option Nat
  data : Written
  /-- whether `aeCreateFileEvent` succeeds -/
  installs : Bool

/-- `putSlaveOnline`; without an event the client is freed. -/
def putSlaveOnline (slave : Slave) (installs : Bool) : Option Slave :=
  if installs then some { slave with replstate := .online } else none

/-- The second half of `sendBulkToSlave`: a piece of the file. -/
def sendBulkData (slave : Slave) (answers : Answers) : Option Slave × Bytes :=
  match answers.read with
  | none => (none, [])
  | some n =>
      let left := (slave.repldbfd.getD []).drop slave.repldboff
      let buf := left.take (min n PROTO_IOBUF_LEN)
      if buf = [] then (none, [])
      else
        match answers.data with
        | .failed => (none, [])
        | .again => (some slave, [])
        | .bytes n =>
            let slave := { slave with repldboff := slave.repldboff + (buf.take n).length }
            if slave.repldboff = slave.repldbsize then
              (putSlaveOnline { slave with repldbfd := none } answers.installs, buf.take n)
            else (some slave, buf.take n)

/-- `sendBulkToSlave`: the client, if it is not freed, and the bytes that are written. -/
def sendBulkToSlave (slave : Slave) (answers : Answers) : Option Slave × Bytes :=
  match slave.replpreamble with
  | none => sendBulkData slave answers
  | some preamble =>
      match answers.preamble with
      | none => (none, [])
      | some n =>
          if preamble.drop n = [] then
            let r := sendBulkData { slave with replpreamble := none } answers
            (r.1, preamble.take n ++ r.2)
          else (some { slave with replpreamble := some (preamble.drop n) }, preamble.take n)

/-- The preamble: `"$%lld\r\n"`. -/
def preambleOf (rdb : Bytes) : Bytes := 36 :: (decNat rdb.length ++ [13, 10])

/-- `updateSlavesWaitingBgsave` for one slave, after a child that wrote a file: `rdb` is the file
that is opened. -/
def updateSlaveWaitingBgsave (slave : Slave) (ok : Bool) (rdb : Option Bytes) (installs : Bool) :
    Option Slave :=
  if slave.replstate = .waitBgsaveEnd then
    match ok, rdb with
    | true, some rdb =>
        if installs then
          some { slave with
            repldbfd := some rdb
            repldboff := 0
            repldbsize := rdb.length
            replstate := .sendBulk
            replpreamble := some (preambleOf rdb) }
        else none
    | _, _ => none
  else some slave

/-- What `replicationCron` writes to a slave that waits for a file. -/
def pingOf (slave : Slave) : Bytes :=
  if slave.replstate = .waitBgsaveStart ∨ slave.replstate = .waitBgsaveEnd then [10] else []

/-! ## The link -/

/-- The slave: it reads the payload, it gave up, it has loaded the file, or it read more than its
buffer holds. -/
inductive Phase
  | receiving
  | failed
  | loaded
  | overrun
  deriving DecidableEq

/-- A master and a slave: the client at the master, if it is not freed, what was written and not
yet read, the transfer, and what the slave has read behind the file. -/
structure Link where
  slave : Option Slave
  wire : Bytes
  transfer : Transfer.State
  phase : Phase
  received : Bytes

/-- What can happen. -/
inductive Event
  /-- `replicationCron`, and whether its newline is written -/
  | ping (sent : Bool)
  /-- the child has ended -/
  | bgsaveDone (ok opens installs : Bool)
  /-- `sendBulkToSlave` -/
  | writable (answers : Answers)
  /-- a command for the slaves, in the output buffers of the slave -/
  | feed (bytes : Bytes)
  /-- `writeToClient` for the slave that is online, of so many bytes -/
  | sendReply (n : Nat)
  /-- the master frees the client -/
  | freeClient
  /-- `readSyncBulkPayload`, and how many bytes a `read` gives -/
  | readable (n : Option Nat) (call : Transfer.Call)
  /-- the slave gives up -/
  | cancel
  /-- `readQueryFromClient` of the client for the master, of so many bytes -/
  | query (n : Nat)

/-- What an event feeds to the slave. -/
def Event.fed : Event → Bytes
  | .feed bytes => bytes
  | _ => []

namespace Link

/-- The client after a call of the master, with what is written. -/
def wrote (l : Link) (r : Option Slave × Bytes) : Link :=
  { l with slave := r.1, wire := l.wire ++ r.2 }

/-- The transfer after a call of the slave, with what is left to read. -/
def took (l : Link) (wire : Bytes) (r : Option (Transfer.State × Payload)) : Link :=
  match r with
  | none => { l with wire := wire, phase := .overrun }
  | some (transfer, .more) => { l with wire := wire, transfer := transfer }
  | some (transfer, .failed) => { l with wire := wire, transfer := transfer, phase := .failed }
  | some (transfer, .done _) => { l with wire := wire, transfer := transfer, phase := .loaded }

variable (readLine : Bytes → Option (Bytes × Bytes))

/-- `readSyncBulkPayload` on what has come: a line, or as many bytes as it asks for at most. -/
def readable (l : Link) (n : Option Nat) (call : Transfer.Call) : Link :=
  if l.transfer.replTransferSize = -1 then
    let r := readLine l.wire
    l.took (r.elim l.wire Prod.snd)
      (Transfer.readSyncBulkPayload l.transfer { call with line := r.map Prod.fst })
  else
    let readlen := Transfer.readlen l.transfer
    let m := n.map (fun n => if readlen < 0 then n else min n readlen.toNat)
    l.took (l.wire.drop (m.getD 0))
      (Transfer.readSyncBulkPayload l.transfer { call with input := m.map l.wire.take })

/-- An event; one that cannot happen changes nothing. -/
def step (rdb : Bytes) (l : Link) (e : Event) : Link :=
  match e, l.slave with
  | .ping sent, some slave => if sent then { l with wire := l.wire ++ pingOf slave } else l
  | .bgsaveDone ok opens installs, some slave =>
      { l with slave := updateSlaveWaitingBgsave slave ok (if opens then some rdb else none) installs }
  | .writable answers, some slave =>
      if slave.replstate = .sendBulk then l.wrote (sendBulkToSlave slave answers) else l
  | .feed bytes, some slave => { l with slave := some { slave with reply := slave.reply ++ bytes } }
  | .sendReply n, some slave =>
      if slave.replstate = .online then
        l.wrote (some { slave with reply := slave.reply.drop n }, slave.reply.take n)
      else l
  | .freeClient, _ => { l with slave := none }
  | .readable n call, _ => if l.phase = .receiving then l.readable readLine n call else l
  | .cancel, _ => if l.phase = .receiving then { l with phase := .failed } else l
  | .query n, _ =>
      if l.phase = .loaded then { l with wire := l.wire.drop n, received := l.received ++ l.wire.take n }
      else l
  | _, none => l

/-- A run: what was fed to the slave, and the link. -/
def run (rdb : Bytes) (l : Link) (es : List Event) : Link := es.foldl (step readLine rdb) l

end Link

/-- A slave that waits for the file, and a transfer that begins. -/
def startLink (transfer : Transfer.State) (unixtime : Int) : Link where
  slave := some ⟨.waitBgsaveEnd, none, none, 0, 0, []⟩
  wire := []
  transfer := Transfer.startTransfer transfer unixtime
  phase := .receiving
  received := []

/-- `syncReadLine` with 1024 bytes of room: of a line that is there it gives what is in front of the
newline, and of a carriage return before that; where there is none it gives up in the end. -/
structure ReadsLines (readLine : Bytes → Option (Bytes × Bytes)) : Prop where
  line : ∀ s rest, 10 ∉ s → s.length < 1023 → readLine (s ++ 10 :: rest) =
    some (if s.getLast? = some 13 then s.dropLast else s, rest)
  none : ∀ s, 10 ∉ s → s.length < 1023 → readLine s = none

/-! ## The first line -/

variable {readLine : Bytes → Option (Bytes × Bytes)} {rdb fed rest coming : Bytes} {slave : Slave}
  {transfer : Transfer.State} {call : Transfer.Call}

theorem not_space_of_isDigit {c : UInt8} (h : IsDigit c) : isspace c = false := by
  obtain ⟨hlow, hhigh⟩ := h
  unfold isspace
  rw [Bool.eq_false_iff]
  intro hspace
  rcases Bool.or_eq_true_iff.mp hspace with hspace | hspace
  · have hle := (Bool.and_eq_true_iff.mp hspace).2
    have hle : c ≤ 13 := of_decide_eq_true hle
    have hle : c.toNat ≤ 13 := hle
    omega
  · have heq : c = 32 := of_decide_eq_true hspace
    rw [heq] at hlow
    exact absurd hlow (by decide)

theorem fold_decNat (n : Nat) : fold 0 (decNat n) = n := by
  rcases Nat.eq_zero_or_pos n with rfl | hn
  · rw [decNat_of_lt (by decide)]
    rfl
  · obtain ⟨c, cs, heq, -, -, -, hfold⟩ := decNat_reads hn
    rw [heq, fold_cons, Nat.mul_zero, Nat.zero_add, hfold]

/-- `strtol` reads a numeral back. -/
theorem strtol_decNat {n : Nat} (hn : n < 2 ^ 63) : strtol (decNat n) = n := by
  have hdigits := @isDigit_of_mem n
  have hne := decNat_ne_nil n
  have hfold := fold_decNat n
  generalize decNat n = cs at hdigits hne hfold
  obtain ⟨c, cs, rfl⟩ := List.exists_cons_of_ne_nil hne
  have hc := hdigits List.mem_cons_self
  have hdrop : (c :: cs).dropWhile isspace = c :: cs := by
    rw [List.dropWhile_cons_of_neg]
    rw [not_space_of_isDigit hc]
    exact Bool.false_ne_true
  have htake : (c :: cs).takeWhile (fun c => 48 ≤ c && c ≤ 57) = c :: cs := by
    refine List.takeWhile_eq_self_iff.mpr fun d hd => ?_
    obtain ⟨hlow, hhigh⟩ := hdigits hd
    exact Bool.and_eq_true_iff.mpr ⟨decide_eq_true hlow, decide_eq_true hhigh⟩
  have hminus : c ≠ 45 := by
    rintro rfl
    exact absurd hc.1 (by decide)
  have hplus : c ≠ 43 := by
    rintro rfl
    exact absurd hc.1 (by decide)
  unfold strtol
  dsimp only
  rw [hdrop]
  split
  · next heq => exact absurd (List.cons.inj heq).1 hminus
  · next heq => exact absurd (List.cons.inj heq).1 hplus
  · rw [htake, hfold]
    dsimp only [Bool.false_eq_true]
    rw [if_neg Bool.false_ne_true]
    unfold LONG_MAX
    omega

/-- The preamble without its end of line. -/
def lineOf (rdb : Bytes) : Bytes := 36 :: decNat rdb.length

theorem preambleOf_eq (rdb : Bytes) : preambleOf rdb = (lineOf rdb ++ [13]) ++ [10] := by
  unfold preambleOf lineOf
  simp

theorem not_mem_lineOf {c : UInt8} (hc : c = 0 ∨ c = 10) : c ∉ lineOf rdb := by
  intro hmem
  rcases List.mem_cons.mp hmem with rfl | hmem
  · exact absurd hc (by decide)
  · have hdigit := (isDigit_of_mem hmem).1
    rcases hc with rfl | rfl
    · exact absurd hdigit (by decide)
    · exact absurd hdigit (by decide)

theorem newline_not_mem_line : 10 ∉ lineOf rdb ++ [13] := by
  intro hmem
  rcases List.mem_append.mp hmem with hmem | hmem
  · exact not_mem_lineOf (.inr rfl) hmem
  · exact absurd (List.mem_singleton.mp hmem) (by decide)

theorem length_lineOf (hsize : rdb.length < 2 ^ 63) : (lineOf rdb ++ [13]).length < 1023 := by
  have hlen := @length_decNat_le 18 rdb.length (by omega)
  unfold lineOf
  rw [List.length_append, List.length_cons, List.length_singleton]
  omega

/-- The line with the length makes the transfer ready for so many bytes. -/
theorem readHeader_lineOf (hsize : rdb.length < 2 ^ 63) (hline : call.line = some (lineOf rdb)) :
    Transfer.readHeader transfer call =
      ({ transfer with usemark := false, replTransferSize := rdb.length }, .more) := by
  have hcstring : cstring (lineOf rdb) = lineOf rdb := by
    refine List.takeWhile_eq_self_iff.mpr fun c hc => ?_
    exact decide_eq_true fun hzero => not_mem_lineOf (.inl hzero) hc
  have heof : ¬ ((decNat rdb.length).take 4 = cstr "EOF:" ∧
      ((decNat rdb.length).drop 4).length ≥ Handshake.CONFIG_RUN_ID_SIZE) := by
    rintro ⟨htake, -⟩
    have hmem : (69 : UInt8) ∈ (decNat rdb.length).take 4 := by
      rw [htake]
      decide
    exact absurd (isDigit_of_mem (List.mem_of_mem_take hmem)).2 (by decide)
  unfold Transfer.readHeader
  rw [hline, Option.map_some, hcstring]
  unfold lineOf
  dsimp only
  rw [if_neg (by decide), if_neg (by decide), if_neg heof, strtol_decNat hsize]

/-! ## What is still to come -/

/-- What a master that has not freed its slave is going to write. -/
inductive Sending (rdb fed : Bytes) (slave : Slave) : Bytes → Prop
  | waiting (hstate : slave.replstate = .waitBgsaveEnd) (hreply : slave.reply = fed) :
      Sending rdb fed slave (preambleOf rdb ++ (rdb ++ fed))
  | bulk (hstate : slave.replstate = .sendBulk) (hfile : slave.repldbfd = some rdb)
      (hsize : slave.repldbsize = rdb.length) (hoff : slave.repldboff < rdb.length ∨ rdb = [])
      (hreply : slave.reply = fed) :
      Sending rdb fed slave (slave.replpreamble.getD [] ++ (rdb.drop slave.repldboff ++ fed))
  | online (hstate : slave.replstate = .online) (hrdb : rdb ≠ []) (hreply : slave.reply <:+ fed) :
      Sending rdb fed slave slave.reply

/-- What a slave has made of what it was sent, and what it is sent from now on. -/
inductive Getting (rdb fed : Bytes) (transfer : Transfer.State) (received rest : Bytes) : Phase → Prop
  | line (k : Nat) (hsize : transfer.replTransferSize = -1) (hread : transfer.replTransferRead = 0)
      (hfile : transfer.file = []) (hreceived : received = [])
      (hrest : rest = List.replicate k 10 ++ (preambleOf rdb ++ (rdb ++ fed))) :
      Getting rdb fed transfer received rest .receiving
  | payload (hmark : transfer.usemark = false) (hsize : transfer.replTransferSize = rdb.length)
      (hread : transfer.replTransferRead = transfer.file.length)
      (hless : transfer.file.length < rdb.length ∨ rdb = [] ∧ transfer.file = [])
      (hreceived : received = [])
      (hfile : transfer.file ++ rest = rdb ++ fed) :
      Getting rdb fed transfer received rest .receiving
  | loaded (hfile : transfer.file = rdb) (hrdb : rdb ≠ []) (hall : received ++ rest = fed) :
      Getting rdb fed transfer received rest .loaded
  | failed (hfile : transfer.file <+: rdb) : Getting rdb fed transfer received rest .failed

/-- The invariant: what a freed client would have been sent is lost. -/
def Inv (rdb fed : Bytes) (l : Link) : Prop :=
  ∃ coming, (∀ slave, l.slave = some slave → Sending rdb fed slave coming) ∧
    Getting rdb fed l.transfer l.received (l.wire ++ coming) l.phase

/-! ## The master's side -/

/-- A call has written what was to come first. -/
def Sent (rdb fed coming : Bytes) (r : Option Slave × Bytes) : Prop :=
  ∃ coming', coming = r.2 ++ coming' ∧ ∀ slave, r.1 = some slave → Sending rdb fed slave coming'

theorem sent_freed : Sent rdb fed coming (none, []) :=
  ⟨coming, rfl, fun _ hsome => by cases hsome⟩

theorem sendBulkData_sent (answers : Answers) (hstate : slave.replstate = .sendBulk)
    (hfile : slave.repldbfd = some rdb) (hsize : slave.repldbsize = rdb.length)
    (hoff : slave.repldboff < rdb.length ∨ rdb = []) (hreply : slave.reply = fed)
    (hpreamble : slave.replpreamble = none) :
    Sent rdb fed (rdb.drop slave.repldboff ++ fed) (sendBulkData slave answers) := by
  have hnone : slave.replpreamble.getD [] = [] := by rw [hpreamble]; rfl
  unfold sendBulkData
  rw [hfile]
  rcases answers.read with _ | n
  · exact sent_freed
  dsimp only [Option.getD_some]
  split
  · exact sent_freed
  · next hsome =>
      rcases answers.data with m | _ | _
      · -- some bytes of the file are written
        dsimp only
        obtain ⟨sent, hsent⟩ : ∃ sent, sent =
            ((rdb.drop slave.repldboff).take (min n PROTO_IOBUF_LEN)).take m := ⟨_, rfl⟩
        have hleft : rdb.drop slave.repldboff ≠ [] := by
          intro hnil
          rw [hnil] at hsome
          exact hsome List.take_nil
        have hrdb : rdb ≠ [] := by
          rintro rfl
          exact hleft List.drop_nil
        rw [← hsent]
        have hbegin : sent <+: rdb.drop slave.repldboff := by
          rw [hsent]
          exact (List.take_prefix _ _).trans (List.take_prefix _ _)
        obtain ⟨tail, htail⟩ := hbegin
        have hdrop : rdb.drop (slave.repldboff + sent.length) = tail := by
          rw [← List.drop_drop, ← htail, List.drop_left]
        have hlen := congrArg List.length htail
        rw [List.length_append, List.length_drop] at hlen
        have hoff := hoff.resolve_right hrdb
        rw [← htail, List.append_assoc]
        split
        · next hend =>
            rw [hsize] at hend
            have hnil : tail = [] := List.length_eq_zero_iff.mp (by omega)
            refine ⟨tail ++ fed, rfl, fun slave' hslave' => ?_⟩
            unfold putSlaveOnline at hslave'
            split at hslave'
            · cases hslave'
              rw [hnil, List.nil_append, ← hreply]
              exact .online rfl hrdb (List.suffix_refl _)
            · cases hslave'
        · next hmore =>
            refine ⟨tail ++ fed, rfl, fun slave' hslave' => ?_⟩
            cases hslave'
            have hbulk : Sending rdb fed { slave with repldboff := slave.repldboff + sent.length }
                (slave.replpreamble.getD [] ++ (rdb.drop (slave.repldboff + sent.length) ++ fed)) := by
              refine .bulk hstate hfile hsize (.inl ?_) hreply
              rw [hsize] at hmore
              dsimp only
              omega
            rw [hnone, hdrop, hfile, List.nil_append] at hbulk
            exact hbulk
      · refine ⟨_, rfl, fun slave' hslave' => ?_⟩
        cases hslave'
        have hbulk : Sending rdb fed slave
            (slave.replpreamble.getD [] ++ (rdb.drop slave.repldboff ++ fed)) :=
          .bulk hstate hfile hsize hoff hreply
        rwa [hnone, List.nil_append] at hbulk
      · exact sent_freed

/-- `sendBulkToSlave` writes the preamble and the file in order. -/
theorem sendBulkToSlave_sent (answers : Answers) (hstate : slave.replstate = .sendBulk)
    (h : Sending rdb fed slave coming) : Sent rdb fed coming (sendBulkToSlave slave answers) := by
  cases h with
  | waiting hother =>
      rw [hother] at hstate
      cases hstate
  | online hother =>
      rw [hother] at hstate
      cases hstate
  | bulk _ hfile hsize hoff hreply =>
      unfold sendBulkToSlave
      rcases hpreamble : slave.replpreamble with _ | preamble
      · exact sendBulkData_sent answers hstate hfile hsize hoff hreply hpreamble
      dsimp only [Option.getD_some]
      rcases answers.preamble with _ | n
      · exact sent_freed
      dsimp only
      split
      · next hall =>
          obtain ⟨coming', hcoming, hnext⟩ := @sendBulkData_sent rdb fed
            { slave with replpreamble := none } answers hstate hfile hsize hoff hreply rfl
          have htake : preamble.take n = preamble := by
            have hparts := List.take_append_drop n preamble
            rwa [hall, List.append_nil] at hparts
          dsimp only at hcoming
          refine ⟨coming', ?_, hnext⟩
          dsimp only
          rw [htake, hcoming, List.append_assoc]
      · refine ⟨preamble.drop n ++ (rdb.drop slave.repldboff ++ fed), ?_, fun slave' hslave' => ?_⟩
        · rw [← List.append_assoc (preamble.take n), List.take_append_drop]
        · cases hslave'
          exact @Sending.bulk rdb fed { slave with replpreamble := some (preamble.drop n) } hstate
            hfile hsize hoff hreply

/-! ## The slave's side -/

theorem Getting.file_begins {phase : Phase} {received : Bytes}
    (h : Getting rdb fed transfer received rest phase) : transfer.file <+: rdb := by
  cases h with
  | line _ _ _ hfile =>
      rw [hfile]
      exact List.nil_prefix
  | payload _ _ _ hless _ hfile =>
      refine List.prefix_of_prefix_length_le ⟨rest, hfile⟩ (List.prefix_append rdb fed) ?_
      rcases hless with hless | ⟨-, hnil⟩
      · exact Nat.le_of_lt hless
      · rw [hnil]
        exact Nat.zero_le _
  | loaded hfile => exact hfile ▸ List.prefix_refl _
  | failed hfile => exact hfile

/-- Of a line that is to come, there is all or a part without its end. -/
theorem wire_line {wire s tail : Bytes} (hlines : ReadsLines readLine) (hs : 10 ∉ s)
    (hlen : s.length < 1023) (h : wire ++ coming = s ++ 10 :: tail) :
    readLine wire = none ∨ ∃ wire', wire' ++ coming = tail ∧ readLine wire =
      some (if s.getLast? = some 13 then s.dropLast else s, wire') := by
  rcases List.append_eq_append_iff.mp h with ⟨as, hs', -⟩ | ⟨bs, hwire, hbs⟩
  · refine .inl (hlines.none wire (fun hmem => hs ?_) ?_)
    · rw [hs']
      exact List.mem_append_left _ hmem
    · rw [hs', List.length_append] at hlen
      omega
  · rcases bs with _ | ⟨b, bs⟩
    · rw [List.append_nil] at hwire
      exact .inl (hwire ▸ hlines.none s hs hlen)
    · obtain ⟨rfl, htail⟩ := List.cons.inj hbs
      exact .inr ⟨bs, htail.symm, hwire ▸ hlines.line s bs hs hlen⟩

/-- What the slave gets holds of a link. -/
def Gets (rdb fed coming : Bytes) (l : Link) : Prop :=
  Getting rdb fed l.transfer l.received (l.wire ++ coming) l.phase

/-- A slave that waits for the line reads one, or it gives up. -/
theorem readable_line {l : Link} {k : Nat} (hlines : ReadsLines readLine)
    (hbound : rdb.length < 2 ^ 63) (n : Option Nat) (call : Transfer.Call)
    (hphase : l.phase = .receiving) (hsize : l.transfer.replTransferSize = -1)
    (hread : l.transfer.replTransferRead = 0) (hfile : l.transfer.file = [])
    (hreceived : l.received = [])
    (hrest : l.wire ++ coming = List.replicate k 10 ++ (preambleOf rdb ++ (rdb ++ fed))) :
    Gets rdb fed coming (l.readable readLine n call) := by
  unfold Link.readable Transfer.readSyncBulkPayload
  rw [if_pos hsize]
  dsimp only
  rw [if_pos hsize]
  have hgiveUp : readLine l.wire = none → Gets rdb fed coming
      (l.took ((readLine l.wire).elim l.wire Prod.snd) (some (Transfer.readHeader l.transfer
        { call with line := (readLine l.wire).map Prod.fst }))) := by
    intro hnone
    rw [hnone]
    exact .failed (hfile ▸ List.nil_prefix)
  cases k with
  | zero =>
      rw [List.replicate_zero, List.nil_append, preambleOf_eq, List.append_assoc,
        List.singleton_append] at hrest
      rcases wire_line hlines newline_not_mem_line (length_lineOf hbound) hrest with
        hnone | ⟨wire', hwire', hline⟩
      · exact hgiveUp hnone
      · rw [List.getLast?_concat, if_pos rfl, List.dropLast_concat] at hline
        rw [hline, Option.map_some, readHeader_lineOf hbound rfl]
        show Getting rdb fed
          { l.transfer with usemark := false, replTransferSize := rdb.length } l.received
          (wire' ++ coming) l.phase
        rw [hphase]
        refine .payload rfl rfl ?_ ?_ hreceived ?_
        · dsimp only
          rw [hread, hfile]
          rfl
        · dsimp only
          rw [hfile]
          rcases List.eq_nil_or_concat rdb with hnil | ⟨_, _, hconcat⟩
          · exact .inr ⟨hnil, rfl⟩
          · refine .inl ?_
            rw [hconcat, List.concat_eq_append, List.length_append]
            exact Nat.succ_pos _
        · dsimp only
          rw [hfile, hwire', List.nil_append]
  | succ k =>
      rw [List.replicate_succ, List.cons_append] at hrest
      rcases @wire_line _ _ _ [] _ hlines List.not_mem_nil (by decide) hrest with
        hnone | ⟨wire', hwire', hline⟩
      · exact hgiveUp hnone
      · rw [if_neg (by decide)] at hline
        rw [hline, Option.map_some]
        show Getting rdb fed { l.transfer with replTransferLastio := call.unixtime } l.received
          (wire' ++ coming) l.phase
        rw [hphase]
        exact .line k hsize hread hfile hreceived hwire'

/-- Syncing keeps what the end of the file is found by. -/
theorem syncFile_keeps (transfer : Transfer.State) :
    (Transfer.syncFile transfer).file = transfer.file ∧
      (Transfer.syncFile transfer).usemark = transfer.usemark ∧
      (Transfer.syncFile transfer).replTransferSize = transfer.replTransferSize ∧
      (Transfer.syncFile transfer).replTransferRead = transfer.replTransferRead := by
  unfold Transfer.syncFile
  split
  · exact ⟨rfl, rfl, rfl, rfl⟩
  · exact ⟨rfl, rfl, rfl, rfl⟩

/-- Without a mark, bytes of the file are the last ones exactly when they fill it up. -/
theorem takeBulk_unmarked {buf : Bytes} (call : Transfer.Call) (hmark : transfer.usemark = false) :
    ∃ transfer' ending, Transfer.takeBulk transfer call buf = (transfer', ending) ∧
      ((ending = .failed ∧ transfer'.file <+: transfer.file ++ buf) ∨
        (transfer'.usemark = false ∧ transfer'.file = transfer.file ++ buf ∧
          transfer'.replTransferSize = transfer.replTransferSize ∧
          transfer'.replTransferRead = transfer.replTransferRead + buf.length ∧
          ending = if transfer'.replTransferRead = transfer.replTransferSize
            then Transfer.finish call else .more)) := by
  unfold Transfer.takeBulk Transfer.updateMark
  rw [if_neg (hmark ▸ Bool.false_ne_true)]
  dsimp only
  split
  · refine ⟨_, _, rfl, .inl ⟨rfl, ?_⟩⟩
    exact (List.prefix_append_right_inj _).mpr (List.take_prefix _ _)
  · next hall =>
      have hall := not_not.mp hall
      rw [hmark, Bool.false_and, if_neg Bool.false_ne_true]
      refine ⟨_, _, rfl, .inr ?_⟩
      obtain ⟨hfile, huse, hsize, hread⟩ := syncFile_keeps { transfer with
        usemark := false
        replTransferLastio := call.unixtime
        file := transfer.file ++ buf.take (call.short.getD buf.length)
        replTransferRead := transfer.replTransferRead + buf.length }
      dsimp only at hfile huse hsize hread
      rw [huse, hfile, hsize, hread, hall, List.take_length]
      refine ⟨rfl, rfl, rfl, rfl, ?_⟩
      by_cases hend : transfer.replTransferRead + buf.length = transfer.replTransferSize
      · rw [if_pos hend, if_pos]
        simpa using hend
      · rw [if_neg hend, if_neg]
        simpa using hend

/-- A slave that reads the file reads more of it, all of it, or it gives up. -/
theorem readable_payload {l : Link} (n : Option Nat) (call : Transfer.Call)
    (hphase : l.phase = .receiving) (hmark : l.transfer.usemark = false)
    (hsize : l.transfer.replTransferSize = rdb.length)
    (hread : l.transfer.replTransferRead = l.transfer.file.length)
    (hless : l.transfer.file.length < rdb.length ∨ rdb = [] ∧ l.transfer.file = [])
    (hreceived : l.received = []) (hall : l.transfer.file ++ (l.wire ++ coming) = rdb ++ fed) :
    Gets rdb fed coming (l.readable readLine n call) := by
  have hbegin := (@Getting.payload rdb fed l.transfer l.received (l.wire ++ coming) hmark hsize hread
    hless hreceived hall).file_begins
  have hsome : l.transfer.replTransferSize ≠ -1 := by omega
  unfold Link.readable Transfer.readSyncBulkPayload
  rw [if_neg hsome]
  dsimp only
  rw [if_neg hsome]
  rcases n with _ | n
  · exact .failed hbegin
  have hleft : Transfer.readlen l.transfer ≤ 4096 ∧ 0 ≤ Transfer.readlen l.transfer ∧
      l.transfer.file.length + Transfer.readlen l.transfer ≤ rdb.length := by
    unfold Transfer.readlen
    rw [hmark, if_neg Bool.false_ne_true, hsize, hread]
    have hle : l.transfer.file.length ≤ rdb.length := hbegin.length_le
    dsimp only
    split <;> omega
  obtain ⟨readlen, hreadlen⟩ : ∃ readlen : Nat, Transfer.readlen l.transfer = readlen :=
    ⟨_, (Int.toNat_of_nonneg hleft.2.1).symm⟩
  rw [hreadlen] at hleft ⊢
  have hpos : ¬ (readlen : Int) < 0 := by omega
  dsimp only [Option.map_some, Option.getD_some]
  rw [if_neg hpos, if_neg hpos, Int.toNat_natCast, List.take_take, Nat.min_eq_right
    (Nat.min_le_right n readlen)]
  have hm : min n readlen ≤ readlen := Nat.min_le_right n readlen
  generalize min n readlen = m at hm
  have hbuf : (l.wire.take m).length ≤ m := List.length_take_le m l.wire
  have hsplit : l.wire = l.wire.take m ++ l.wire.drop m := (List.take_append_drop m l.wire).symm
  generalize l.wire.take m = buf at hbuf hsplit ⊢
  generalize l.wire.drop m = wire at hsplit ⊢
  rw [if_neg (show ¬ buf.length > 4096 by omega)]
  split
  · exact .failed hbegin
  next hbytes =>
  rw [hsplit, List.append_assoc, ← List.append_assoc] at hall
  have hnext : l.transfer.file ++ buf <+: rdb := by
    refine List.prefix_of_prefix_length_le ⟨_, hall⟩ (List.prefix_append rdb fed) ?_
    rw [List.length_append]
    omega
  obtain ⟨transfer', ending, htake, hcases⟩ := @takeBulk_unmarked l.transfer buf
    { call with input := some buf } hmark
  rw [htake]
  rcases hcases with ⟨rfl, hfile⟩ | ⟨hmark', hfile', hsize', hread', hending⟩
  · exact .failed (hfile.trans hnext)
  rw [hread, ← Int.natCast_add, ← List.length_append, ← hfile'] at hread'
  rw [hread', hsize] at hending
  rw [← hfile'] at hall hnext
  split at hending
  · next hend =>
      have hfull : transfer'.file = rdb := hnext.eq_of_length (Int.ofNat_inj.mp hend)
      unfold Transfer.finish at hending
      split at hending
      · cases hending
        exact .failed hnext
      · split at hending
        · cases hending
          exact .failed hnext
        · cases hending
          refine .loaded hfull ?_ ?_
          · rintro rfl
            rw [hfile'] at hfull
            exact hbytes (List.append_eq_nil_iff.mp hfull).2
          · rw [hfull] at hall
            show l.received ++ (wire ++ coming) = fed
            rw [hreceived]
            exact List.append_cancel_left hall
  · next hmore =>
      cases hending
      show Getting rdb fed transfer' l.received (wire ++ coming) l.phase
      rw [hphase]
      refine .payload hmark' (hsize'.trans hsize) hread' (.inl ?_) hreceived hall
      have hle : transfer'.file.length ≤ rdb.length := hnext.length_le
      omega

/-! ## One event -/

theorem preambleOf_ne_nil : preambleOf rdb ≠ [] := List.cons_ne_nil _ _

/-- Where the preamble is to come, the slave waits for the line or gave up. -/
theorem Getting.of_waiting {phase : Phase} {received wire : Bytes}
    (h : Getting rdb fed transfer received (wire ++ (preambleOf rdb ++ (rdb ++ fed))) phase) :
    (phase = .failed ∧ transfer.file <+: rdb) ∨
      (phase = .receiving ∧ transfer.replTransferSize = -1 ∧ transfer.replTransferRead = 0 ∧
        transfer.file = [] ∧ received = [] ∧ ∃ k, wire = List.replicate k 10) := by
  have hpos := List.length_pos_of_ne_nil (@preambleOf_ne_nil rdb)
  generalize hrest : wire ++ (preambleOf rdb ++ (rdb ++ fed)) = rest at h
  have hlen := congrArg List.length hrest
  rw [List.length_append, List.length_append, List.length_append] at hlen
  cases h with
  | line k hsize hread hfile hreceived hline =>
      exact .inr ⟨rfl, hsize, hread, hfile, hreceived, k, List.append_cancel_right (hrest.trans hline)⟩
  | payload _ _ _ _ _ hall =>
      have hall := congrArg List.length hall
      rw [List.length_append, List.length_append] at hall
      omega
  | loaded _ _ hall =>
      have hall := congrArg List.length hall
      rw [List.length_append] at hall
      omega
  | failed hfile => exact .inl ⟨rfl, hfile⟩

/-- A newline in front of the preamble. -/
theorem Getting.ping {phase : Phase} {received wire : Bytes}
    (h : Getting rdb fed transfer received (wire ++ (preambleOf rdb ++ (rdb ++ fed))) phase) :
    Getting rdb fed transfer received ((wire ++ [10]) ++ (preambleOf rdb ++ (rdb ++ fed))) phase := by
  rcases h.of_waiting with ⟨rfl, hfile⟩ | ⟨rfl, hsize, hread, hfile, hreceived, k, rfl⟩
  · exact .failed hfile
  · refine .line (k + 1) hsize hread hfile hreceived ?_
    rw [List.replicate_succ']

/-- More is fed to the slave. -/
theorem Getting.feed {phase : Phase} {received : Bytes} (bytes : Bytes)
    (h : Getting rdb fed transfer received rest phase) :
    Getting rdb (fed ++ bytes) transfer received (rest ++ bytes) phase := by
  cases h with
  | line k hsize hread hfile hreceived hrest =>
      refine .line k hsize hread hfile hreceived ?_
      rw [hrest]
      simp only [List.append_assoc]
  | payload hmark hsize hread hless hreceived hfile =>
      refine .payload hmark hsize hread hless hreceived ?_
      rw [← List.append_assoc, hfile, List.append_assoc]
  | loaded hfile hrdb hall =>
      refine .loaded hfile hrdb ?_
      rw [← List.append_assoc, hall]
  | failed hfile => exact .failed hfile

theorem Sending.feed (bytes : Bytes) (h : Sending rdb fed slave coming) :
    Sending rdb (fed ++ bytes) { slave with reply := slave.reply ++ bytes } (coming ++ bytes) := by
  cases h with
  | waiting hstate hreply =>
      have hmore : Sending rdb (fed ++ bytes) { slave with reply := slave.reply ++ bytes } _ :=
        .waiting hstate (by rw [hreply])
      rwa [← List.append_assoc rdb, ← List.append_assoc (preambleOf rdb)] at hmore
  | bulk hstate hfile hsize hoff hreply =>
      have hmore : Sending rdb (fed ++ bytes) { slave with reply := slave.reply ++ bytes } _ :=
        .bulk hstate hfile hsize hoff (by rw [hreply])
      rwa [← List.append_assoc (rdb.drop _), ← List.append_assoc (slave.replpreamble.getD [])] at hmore
  | online hstate hrdb hreply =>
      obtain ⟨sent, hsent⟩ := hreply
      have hsuffix : slave.reply ++ bytes <:+ fed ++ bytes := ⟨sent, by rw [← hsent, List.append_assoc]⟩
      exact @Sending.online rdb (fed ++ bytes) { slave with reply := slave.reply ++ bytes } hstate hrdb
        hsuffix

/-- `updateSlavesWaitingBgsave` decides nothing about what is to come. -/
theorem Sending.bgsaveDone {slave' : Slave} (ok opens installs : Bool)
    (h : Sending rdb fed slave coming) (hsome : updateSlaveWaitingBgsave slave ok
      (if opens then some rdb else none) installs = some slave') : Sending rdb fed slave' coming := by
  unfold updateSlaveWaitingBgsave at hsome
  cases h with
  | waiting hstate hreply =>
      rw [if_pos hstate] at hsome
      split at hsome
      · next file _ hopens =>
          split at hsome
          · split at hopens
            · cases hopens
              cases hsome
              refine @Sending.bulk rdb fed { slave with
                repldbfd := some rdb
                repldboff := 0
                repldbsize := rdb.length
                replstate := .sendBulk
                replpreamble := some (preambleOf rdb) } rfl rfl rfl ?_ hreply
              rcases rdb with _ | ⟨b, rdb⟩
              · exact .inr rfl
              · exact .inl (Nat.succ_pos _)
            · cases hopens
          · cases hsome
      · cases hsome
  | bulk hstate hfile hsize hoff hreply =>
      rw [if_neg (by rw [hstate]; decide)] at hsome
      cases hsome
      exact .bulk hstate hfile hsize hoff hreply
  | online hstate hrdb hreply =>
      rw [if_neg (by rw [hstate]; decide)] at hsome
      cases hsome
      exact .online hstate hrdb hreply

/-- `replicationCron` writes its newline only in front of the preamble. -/
theorem ping_cases (h : Sending rdb fed slave coming) :
    (pingOf slave = [10] ∧ coming = preambleOf rdb ++ (rdb ++ fed)) ∨ pingOf slave = [] := by
  unfold pingOf
  cases h with
  | waiting hstate =>
      rw [if_pos (.inr hstate)]
      exact .inl ⟨rfl, rfl⟩
  | bulk hstate =>
      rw [hstate, if_neg (by decide)]
      exact .inr rfl
  | online hstate =>
      rw [hstate, if_neg (by decide)]
      exact .inr rfl

theorem took_slave (l : Link) (wire : Bytes) (r : Option (Transfer.State × Payload)) :
    (l.took wire r).slave = l.slave := by
  rcases r with _ | ⟨transfer, ending⟩
  · rfl
  · cases ending with
    | more => rfl
    | failed => rfl
    | done client => rfl

theorem readable_slave (l : Link) (n : Option Nat) (call : Transfer.Call) :
    (l.readable readLine n call).slave = l.slave := by
  unfold Link.readable
  split
  · exact took_slave l _ _
  · exact took_slave l _ _

/-- A read of the slave. -/
theorem readable_gets {l : Link} (hlines : ReadsLines readLine) (hbound : rdb.length < 2 ^ 63)
    (n : Option Nat) (call : Transfer.Call) (hphase : l.phase = .receiving)
    (h : Gets rdb fed coming l) : Gets rdb fed coming (l.readable readLine n call) := by
  obtain ⟨phase, hsame⟩ : ∃ phase, l.phase = phase := ⟨_, rfl⟩
  unfold Gets at h
  rw [hsame] at h
  cases h with
  | line k hsize hread hfile hreceived hrest =>
      exact readable_line hlines hbound n call hphase hsize hread hfile hreceived hrest
  | payload hmark hsize hread hless hreceived hfile =>
      exact readable_payload n call hphase hmark hsize hread hless hreceived hfile
  | loaded => exact absurd (hphase.symm.trans hsame) (by decide)
  | failed => exact absurd (hphase.symm.trans hsame) (by decide)

/-- A freed client is sent nothing more. -/
theorem inv_freed {l : Link} (hslave : l.slave = none) (hget : Gets rdb fed coming l) :
    Inv rdb fed l := by
  refine ⟨coming, fun slave hsome => ?_, hget⟩
  rw [hslave] at hsome
  cases hsome

/-- What the master writes was to come. -/
theorem Sent.inv {l : Link} {r : Option Slave × Bytes} (hsent : Sent rdb fed coming r)
    (hget : Gets rdb fed coming l) : Inv rdb fed (l.wrote r) := by
  obtain ⟨coming', rfl, hnext⟩ := hsent
  refine ⟨coming', hnext, ?_⟩
  show Getting rdb fed l.transfer l.received ((l.wire ++ r.2) ++ coming') l.phase
  rwa [List.append_assoc]

/-- Every event keeps the invariant. -/
theorem step_inv {l : Link} (hlines : ReadsLines readLine) (hbound : rdb.length < 2 ^ 63) (e : Event)
    (h : Inv rdb fed l) : Inv rdb (fed ++ e.fed) (l.step readLine rdb e) := by
  obtain ⟨coming, hsend, hget⟩ := h
  have hkeep : Inv rdb fed l := ⟨coming, hsend, hget⟩
  rcases l with ⟨slave, wire, transfer, phase, received⟩
  cases e with
  | ping sent =>
      show Inv rdb (fed ++ []) _
      rw [List.append_nil]
      rcases slave with _ | slave
      · exact hkeep
      cases sent with
      | false => exact hkeep
      | true =>
          refine ⟨coming, hsend, ?_⟩
          rcases ping_cases (hsend slave rfl) with ⟨hping, rfl⟩ | hping
          · show Getting rdb fed transfer received ((wire ++ pingOf slave) ++ _) phase
            rw [hping]
            exact Getting.ping hget
          · show Getting rdb fed transfer received ((wire ++ pingOf slave) ++ _) phase
            rw [hping, List.append_nil]
            exact hget
  | bgsaveDone ok opens installs =>
      show Inv rdb (fed ++ []) _
      rw [List.append_nil]
      rcases slave with _ | slave
      · exact hkeep
      · exact ⟨coming, fun slave' hslave' => (hsend slave rfl).bgsaveDone ok opens installs hslave', hget⟩
  | writable answers =>
      show Inv rdb (fed ++ []) _
      rw [List.append_nil]
      rcases slave with _ | slave
      · exact hkeep
      unfold Link.step
      dsimp only
      split
      · next hstate => exact (sendBulkToSlave_sent answers hstate (hsend slave rfl)).inv hget
      · exact hkeep
  | feed bytes =>
      have hmore := Getting.feed bytes hget
      rw [List.append_assoc] at hmore
      rcases slave with _ | slave
      · exact inv_freed rfl hmore
      · refine ⟨coming ++ bytes, fun slave' hslave' => ?_, hmore⟩
        cases hslave'
        exact (hsend slave rfl).feed bytes
  | sendReply n =>
      show Inv rdb (fed ++ []) _
      rw [List.append_nil]
      rcases slave with _ | slave
      · exact hkeep
      unfold Link.step
      dsimp only
      split
      · next hstate =>
          refine Sent.inv ?_ hget
          cases hsend slave rfl with
          | waiting hother =>
              rw [hother] at hstate
              cases hstate
          | bulk hother =>
              rw [hother] at hstate
              cases hstate
          | online _ hrdb hreply =>
              refine ⟨slave.reply.drop n, (List.take_append_drop n _).symm, fun slave' hslave' => ?_⟩
              cases hslave'
              exact @Sending.online rdb fed { slave with reply := slave.reply.drop n } hstate hrdb
                ((List.drop_suffix n _).trans hreply)
      · exact hkeep
  | freeClient =>
      show Inv rdb (fed ++ []) _
      rw [List.append_nil]
      exact inv_freed rfl hget
  | readable n call =>
      show Inv rdb (fed ++ []) _
      rw [List.append_nil]
      unfold Link.step
      dsimp only
      split
      · next hphase =>
          refine ⟨coming, fun slave' hslave' => hsend slave' ?_,
            readable_gets hlines hbound n call hphase hget⟩
          rwa [readable_slave] at hslave'
      · exact hkeep
  | cancel =>
      show Inv rdb (fed ++ []) _
      rw [List.append_nil]
      unfold Link.step
      dsimp only
      split
      · exact ⟨coming, hsend, .failed hget.file_begins⟩
      · exact hkeep
  | query n =>
      show Inv rdb (fed ++ []) _
      rw [List.append_nil]
      unfold Link.step
      dsimp only
      split
      · next hphase =>
          cases hphase
          cases hget with
          | loaded hfile hrdb hall =>
              refine ⟨coming, hsend, .loaded hfile hrdb ?_⟩
              rw [List.append_assoc, ← List.append_assoc (wire.take n), List.take_append_drop]
              exact hall
      · exact hkeep

/-! ## Every run -/

theorem run_inv (hlines : ReadsLines readLine) (hbound : rdb.length < 2 ^ 63) (es : List Event) {l : Link}
    (h : Inv rdb fed l) : Inv rdb (fed ++ (es.map Event.fed).flatten) (l.run readLine rdb es) := by
  induction es generalizing l fed with
  | nil =>
      rw [List.map_nil, List.flatten_nil, List.append_nil]
      exact h
  | cons e es ih =>
      rw [List.map_cons, List.flatten_cons, ← List.append_assoc]
      exact ih (step_inv hlines hbound e h)

theorem startLink_inv (rdb : Bytes) (transfer : Transfer.State) (unixtime : Int) :
    Inv rdb [] (startLink transfer unixtime) := by
  refine ⟨preambleOf rdb ++ (rdb ++ []), fun slave hslave => ?_, .line 0 rfl rfl rfl rfl rfl⟩
  cases hslave
  exact .waiting rfl rfl

/-- **A full resynchronisation**, in any order of what both sides do and with whatever the sockets
and the files answer: the slave never reads more than its buffer holds, its file is always a
beginning of the one of the master, and it loads nothing but all of it.  What it reads after that
is what it was fed since the file was begun, each byte once and in order, and as long as its client
is not freed the rest is on its way.  A slave that is online at its master and still receives has
something to read. -/
theorem bulk_sync (hlines : ReadsLines readLine) (hbound : rdb.length < 2 ^ 63)
    (transfer : Transfer.State) (unixtime : Int) (es : List Event) (fed : Bytes)
    (hfed : fed = (es.map Event.fed).flatten) (l : Link)
    (hrun : (startLink transfer unixtime).run readLine rdb es = l) :
    l.phase ≠ .overrun ∧ l.transfer.file <+: rdb ∧
      (l.phase = .loaded → l.transfer.file = rdb ∧ l.received <+: fed ∧
        ∀ slave, l.slave = some slave →
          slave.replstate = .online ∧ l.received ++ (l.wire ++ slave.reply) = fed) ∧
      (l.phase = .receiving → ∀ slave, l.slave = some slave → slave.replstate = .online →
        l.wire ≠ []) := by
  obtain ⟨coming, hsend, hget⟩ := run_inv hlines hbound es (startLink_inv rdb transfer unixtime)
  rw [hrun, List.nil_append, ← hfed] at hsend hget
  clear hfed hrun
  refine ⟨?_, hget.file_begins, ?_, ?_⟩
  · intro hphase
    rw [hphase] at hget
    cases hget
  · intro hphase
    rw [hphase] at hget
    cases hget with
    | loaded hfile hrdb hall =>
        refine ⟨hfile, ⟨_, hall⟩, fun slave hslave => ?_⟩
        have hlen := congrArg List.length hall
        rw [List.length_append, List.length_append] at hlen
        cases hsend slave hslave with
        | waiting =>
            have hpos := List.length_pos_of_ne_nil (@preambleOf_ne_nil rdb)
            rw [List.length_append, List.length_append] at hlen
            omega
        | bulk _ _ _ hoff =>
            have hoff := hoff.resolve_right hrdb
            rw [List.length_append, List.length_append, List.length_drop] at hlen
            omega
        | online hstate => exact ⟨hstate, hall⟩
  · intro hphase slave hslave hstate hwire
    rw [hphase, hwire, List.nil_append] at hget
    cases hsend slave hslave with
    | waiting hother =>
        rw [hother] at hstate
        cases hstate
    | bulk hother =>
        rw [hother] at hstate
        cases hstate
    | online _ hrdb hreply =>
        have hle := hreply.length_le
        cases hget with
        | line k _ _ _ _ hrest =>
            have hpos := List.length_pos_of_ne_nil (@preambleOf_ne_nil rdb)
            have hlen := congrArg List.length hrest
            rw [List.length_append, List.length_append, List.length_append] at hlen
            omega
        | payload _ _ _ hless _ hall =>
            have hless := hless.resolve_right fun hnil => hrdb hnil.1
            have hlen := congrArg List.length hall
            rw [List.length_append, List.length_append] at hlen
            omega

/-- `syncReadLine` without a limit. -/
def readWholeLine (bytes : Bytes) : Option (Bytes × Bytes) :=
  if 10 ∈ bytes then
    let s := bytes.takeWhile (· != 10)
    some (if s.getLast? = some 13 then s.dropLast else s, bytes.drop (s.length + 1))
  else none

theorem takeWhile_line {s rest : Bytes} (hs : 10 ∉ s) : (s ++ 10 :: rest).takeWhile (· != 10) = s := by
  rw [List.takeWhile_append_of_pos, List.takeWhile_cons_of_neg (by decide), List.append_nil]
  intro c hc
  exact bne_iff_ne.mpr fun hline => hs (hline ▸ hc)

theorem readWholeLine_reads : ReadsLines readWholeLine where
  line := by
    intro s rest hs _
    unfold readWholeLine
    rw [if_pos (List.mem_append_right _ List.mem_cons_self), takeWhile_line hs]
    dsimp only
    rw [← List.drop_drop, List.drop_left]
    rfl
  none := by
    intro s hs _
    exact if_neg hs

/-- A file of two bytes, sent in two pieces, and a command that is fed between them. -/
def pieces : List Event :=
  [.ping true, .readable none ⟨0, none, none, none, true, true, true, none⟩, .bgsaveDone true true true,
    .writable ⟨some 9, some 1, .bytes 1, true⟩, .feed [7],
    .readable none ⟨1, none, none, none, true, true, true, none⟩,
    .readable (some 9) ⟨2, none, none, none, true, true, true, none⟩,
    .writable ⟨some 9, some 9, .bytes 9, true⟩, .sendReply 1,
    .readable (some 9) ⟨3, none, none, none, true, true, true, none⟩, .query 9]

theorem bulk_sync_pieces : ∃ l, (startLink ⟨0, 0, 0, 0, [], false, [], []⟩ 0).run readWholeLine [1, 2]
    pieces = l ∧ l.phase = .loaded ∧ l.transfer.file = [1, 2] ∧ l.received = [7] ∧
      l.received <+: [7] := by
  refine ⟨_, rfl, by decide +kernel, ?_⟩
  have h := @bulk_sync readWholeLine [1, 2] readWholeLine_reads (by decide)
    ⟨0, 0, 0, 0, [], false, [], []⟩ 0 pieces [7] rfl _ rfl
  obtain ⟨hfile, hreceived, -⟩ := h.2.2.1 (by decide +kernel)
  exact ⟨hfile, by decide +kernel, hreceived⟩

end BulkTransfer

end RedisCore
