/-
# `RedisCore.Replication.Feed` — a command for the slaves and the backlog (replication.c)

`replicationFeedSlaves` writes a command twice: to the backlog with headers it makes itself,
and to the slaves with the helpers that make replies.  A slave that comes back is sent the
backlog's bytes where it would have been sent the others, so the two encodings have to be
the same, byte by byte.

A slave is modelled by the calls that are made for it; what they come to is the business of
its output buffers.
-/
import RedisCore.Replication.Backlog
import RedisCore.Networking.Bulk

namespace RedisCore

namespace Replication

open CInt Decimal

/-- `PROTO_SHARED_SELECT_CMDS`. -/
def PROTO_SHARED_SELECT_CMDS : Int := 10

/-- `LONG_STR_SIZE`. -/
def LONG_STR_SIZE : Nat := 21

/-- A client in `server.slaves`. -/
structure Slave where
  id : ClientId
  replstate : Clients.ReplState

/-- The fields of `server` that `replicationFeedSlaves` works on; a slave is on the list
once. -/
structure Feeding where
  backlog : Backlog
  slaveseldb : Int
  slaves : List Slave
  once : (slaves.map Slave.id).Nodup

/-- `feedReplicationBacklogWithObject`. -/
def feedReplicationBacklogWithObject (s : Backlog) (o : Robj) : Option Backlog :=
  match o with
  | .int value =>
      let llstr := ll2string (List.replicate LONG_STR_SIZE 0) value
      feedReplicationBacklog s (llstr.1.take llstr.2)
  | .raw b | .embstr b => feedReplicationBacklog s b
  | .other _ => none

/-- A SELECT command, for which the number is written to a buffer of `room` bytes. -/
def selectText (room : Nat) (dictid : Int) : Bytes :=
  let (buf, len) := ll2string (List.replicate room 0) dictid
  cstr "*2\r\n$6\r\nSELECT\r\n$" ++ decInt len ++ cstr "\r\n" ++ cstring buf ++ cstr "\r\n"

/-- `shared.select[j]`. -/
def sharedSelect (j : Int) : Robj := .raw (selectText 64 j)

/-- `selectcmd`: a shared object, or a new one. -/
def selectcmd (dictid : Int) : Robj :=
  if dictid ≥ 0 ∧ dictid < PROTO_SHARED_SELECT_CMDS then sharedSelect dictid
  else .raw (selectText LONG_STR_SIZE dictid)

/-- Calls for each slave on a list that is not waiting for a BGSAVE to start. -/
def callsFor (slaves : List Slave) (calls : List ReplyCall) : List (ClientId × ReplyCall) :=
  slaves.flatMap (fun slave =>
    if slave.replstate = .waitBgsaveStart then [] else calls.map (slave.id, ·))

/-- A header in `aux`: the letter, the number and the end of the line. -/
def auxHeader (letter : UInt8) (n : Int) : Bytes :=
  let buf := ll2string (List.replicate (LONG_STR_SIZE + 2) 0) n
  letter :: (buf.1.take buf.2 ++ [13, 10])

/-- An argument for the backlog: a header, the object and the end of the line. -/
def feedArgument (s : Backlog) (o : Robj) : Option Backlog :=
  (stringObjectLen o).bind (fun objlen =>
    (feedReplicationBacklog s (auxHeader 36 (toLong objlen))).bind (fun s =>
      (feedReplicationBacklogWithObject s o).bind (fun s => feedReplicationBacklog s [13, 10])))

/-- The arguments for the backlog. -/
def feedArguments : Backlog → List Robj → Option Backlog
  | s, [] => some s
  | s, o :: argv => (feedArgument s o).bind (feedArguments · argv)

/-- The SELECT command for the backlog, if there is one. -/
def feedSelect (s : Backlog) (dictid : Int) : Option Backlog :=
  if s.replBacklog.isSome then feedReplicationBacklogWithObject s (selectcmd dictid) else some s

/-- The command for the backlog, if there is one. -/
def feedCommand (s : Backlog) (argv : List Robj) : Option Backlog :=
  if s.replBacklog.isSome then
    (feedReplicationBacklog s (auxHeader 42 argv.length)).bind (feedArguments · argv)
  else some s

/-- The command for a slave. -/
def commandCalls (argv : List Robj) : List ReplyCall :=
  addReplyMultiBulkLen argv.length ++ argv.flatMap addReplyBulk

/-- `replicationFeedSlaves`, with the calls it makes for the slaves.  The SELECT command
goes to the list it is given, the command itself to `server.slaves`. -/
def replicationFeedSlaves (s : Feeding) (slaves : List Slave) (dictid : Int) (argv : List Robj) :
    Option (Feeding × List (ClientId × ReplyCall)) :=
  if s.backlog.replBacklog.isNone ∧ slaves = [] then some (s, [])
  else if slaves ≠ [] ∧ s.backlog.replBacklog.isNone then none
  else if s.slaveseldb ≠ dictid then do
    let backlog ← feedSelect s.backlog dictid
    let backlog ← feedCommand backlog argv
    return ({ s with backlog := backlog, slaveseldb := dictid },
      callsFor slaves [.addReply (selectcmd dictid)] ++ callsFor s.slaves (commandCalls argv))
  else do
    let backlog ← feedCommand s.backlog argv
    return ({ s with backlog := backlog, slaveseldb := dictid },
      callsFor s.slaves (commandCalls argv))

/-! ## What the backlog is fed -/

variable {s s' : Backlog} {history : List (Option UInt8)}

/-- There is a backlog, and it has this history. -/
structure Carries (s : Backlog) (history : List (Option UInt8)) : Prop where
  inv : BacklogInv s history
  some : s.replBacklog ≠ none

theorem feedReplicationBacklog_carries (h : Carries s history) (p : Bytes) :
    ∃ s', feedReplicationBacklog s p = .some s' ∧ Carries s' (history ++ p.map .some) := by
  obtain ⟨s', heq, hinv⟩ := @actBacklog_inv s history h.inv (.feed p) h.some
  obtain ⟨buf, hbuf⟩ := Option.ne_none_iff_exists'.mp h.some
  obtain ⟨before, bytes, _, hkept⟩ := h.inv.kept buf hbuf
  obtain ⟨s₂, buf₂, heq₂, hbuf₂, _⟩ := feedReplicationBacklog_spec hkept hbuf p
  have hsame : s' = s₂ := Option.some.inj (heq.symm.trans heq₂)
  exact ⟨s', heq, hinv, by rw [hsame, hbuf₂]; simp⟩

/-- The number and the text of a `long` in a buffer of at least `LONG_STR_SIZE` bytes. -/
theorem ll2string_room {v : Int} (h₁ : LONG_MIN ≤ v) (h₂ : v ≤ LONG_MAX) {room : Nat}
    (hroom : LONG_STR_SIZE ≤ room) :
    (ll2string (List.replicate room 0) v).1.take (ll2string (List.replicate room 0) v).2 = decInt v ∧
      (ll2string (List.replicate room 0) v).2 = (decInt v).length ∧
      cstring (ll2string (List.replicate room 0) v).1 = decInt v := by
  have hlen := length_decInt_le h₁ h₂
  have hsize : LONG_STR_SIZE = 21 := rfl
  rw [ll2string_eq h₁ h₂ (by rw [List.length_replicate]; omega)]
  exact ⟨List.take_left, rfl, cstring_decInt _ _⟩

theorem auxHeader_eq (letter : UInt8) {n : Int} (h₁ : LONG_MIN ≤ n) (h₂ : n ≤ LONG_MAX) :
    auxHeader letter n = letter :: (decInt n ++ cstr "\r\n") := by
  have hcrlf : cstr "\r\n" = [13, 10] := by decide
  rw [hcrlf, auxHeader, (ll2string_room h₁ h₂ (Nat.le_add_right _ _)).1]

theorem feedObject_carries (h : Carries s history) {o : Robj} (hs : o.isString = true) (hok : o.Ok) :
    ∃ s', feedReplicationBacklogWithObject s o = .some s' ∧
      Carries s' (history ++ o.bytes.map .some) := by
  cases o with
  | raw b => exact feedReplicationBacklog_carries h b
  | embstr b => exact feedReplicationBacklog_carries h b
  | int value =>
      have htext := (ll2string_room hok.1 hok.2 (Nat.le_refl _)).1
      rw [feedReplicationBacklogWithObject, htext,
        show (Robj.int value).bytes = decInt value from ll2str_eq hok.1 hok.2]
      exact feedReplicationBacklog_carries h _
  | other type => exact absurd hs (by simp [Robj.isString])

/-- An argument of a command: a string object of which the length is a `long`. -/
structure Argument (o : Robj) : Prop where
  isString : o.isString = true
  ok : o.Ok
  length : (o.bytes.length : Int) ≤ LONG_MAX

theorem Argument.toLong {o : Robj} (h : Argument o) :
    toLong (o.bytes.length : Int) = o.bytes.length := by
  have hmax : LONG_MAX = 2 ^ 63 - 1 := rfl
  have hlen := h.length
  generalize o.bytes.length = n at hlen ⊢
  exact toLong_eq (by omega) (by omega)

/-- An argument is fed as a bulk string. -/
theorem feedArgument_carries (h : Carries s history) {o : Robj} (ho : Argument o) :
    ∃ s', feedArgument s o = .some s' ∧ Carries s' (history ++ (respBulk o.bytes).map .some) := by
  have hmin : LONG_MIN ≤ (o.bytes.length : Int) :=
    Int.le_trans (by decide) (Int.natCast_nonneg _)
  obtain ⟨s₁, heq₁, h₁⟩ := feedReplicationBacklog_carries h (auxHeader 36 (toLong o.bytes.length))
  obtain ⟨s₂, heq₂, h₂⟩ := feedObject_carries h₁ ho.isString ho.ok
  obtain ⟨s', heq', h'⟩ := feedReplicationBacklog_carries h₂ [13, 10]
  refine ⟨s', ?_, ?_⟩
  · rw [feedArgument, stringObjectLen_spec ho.isString ho.ok, Option.bind_some, heq₁,
      Option.bind_some, heq₂, Option.bind_some, heq']
  · rw [ho.toLong, auxHeader_eq 36 hmin ho.length] at h'
    simpa [respBulk, cstr] using h'

/-- The arguments are fed one after the other. -/
theorem feedArguments_carries : ∀ (argv : List Robj) {s : Backlog} {history : List (Option UInt8)},
    Carries s history → (∀ o ∈ argv, Argument o) →
    ∃ s', feedArguments s argv = .some s' ∧
      Carries s' (history ++ ((argv.map Robj.bytes).flatMap respBulk).map .some) := by
  intro argv
  induction argv with
  | nil =>
      intro s history h _
      exact ⟨s, rfl, by simpa using h⟩
  | cons o argv ih =>
      intro s history h hargv
      obtain ⟨s₁, heq₁, h₁⟩ := feedArgument_carries h (hargv o List.mem_cons_self)
      obtain ⟨s', heq', h'⟩ := ih h₁ (fun o' ho' => hargv o' (List.mem_cons_of_mem _ ho'))
      refine ⟨s', ?_, ?_⟩
      · rw [feedArguments, heq₁, Option.bind_some, heq']
      · simpa using h'

/-- The command is fed as an array of bulk strings. -/
theorem feedCommand_carries (h : Carries s history) {argv : List Robj}
    (hargv : ∀ o ∈ argv, Argument o) (hargc : argv.length < 2 ^ 31) :
    ∃ s', feedCommand s argv = .some s' ∧
      Carries s' (history ++ (respArray (argv.map Robj.bytes)).map .some) := by
  have hmax : LONG_MAX = 2 ^ 63 - 1 := rfl
  have hmin : LONG_MIN ≤ (argv.length : Int) := Int.le_trans (by decide) (Int.natCast_nonneg _)
  obtain ⟨s₁, heq₁, h₁⟩ := feedReplicationBacklog_carries h (auxHeader 42 argv.length)
  obtain ⟨s', heq', h'⟩ := feedArguments_carries argv h₁ hargv
  refine ⟨s', ?_, ?_⟩
  · rw [feedCommand, if_pos (Option.isSome_iff_ne_none.mpr h.some), heq₁]
    exact heq'
  · rw [auxHeader_eq 42 hmin (by omega)] at h'
    simpa [respArray, cstr] using h'

theorem selectText_eq {room : Nat} (hroom : LONG_STR_SIZE ≤ room) {dictid : Int}
    (h₁ : LONG_MIN ≤ dictid) (h₂ : dictid ≤ LONG_MAX) :
    selectText room dictid = respArray [cstr "SELECT", decInt dictid] := by
  obtain ⟨_, hlen, htext⟩ := ll2string_room h₁ h₂ hroom
  have htwo : decInt 2 = cstr "2" := by simp [decInt, decNat_of_lt, digit, cstr]
  have hsix : decInt 6 = cstr "6" := by simp [decInt, decNat_of_lt, digit, cstr]
  simp only [selectText, hlen, htext]
  simp [respArray, respBulk, htwo, hsix, cstr]

/-- The SELECT command is a request like any other. -/
theorem selectcmd_spec {dictid : Int} (h₁ : LONG_MIN ≤ dictid) (h₂ : dictid ≤ LONG_MAX) :
    selectcmd dictid = .raw (respArray [cstr "SELECT", decInt dictid]) := by
  unfold selectcmd sharedSelect
  split
  · rw [selectText_eq (by decide) h₁ h₂]
  · rw [selectText_eq (Nat.le_refl _) h₁ h₂]

/-! ## What the slaves get -/

/-- The calls for one client. -/
def callsTo (id : ClientId) (calls : List (ClientId × ReplyCall)) : List ReplyCall :=
  calls.filterMap (fun c => if c.1 = id then some c.2 else none)

theorem callsTo_append (id : ClientId) (cs ds : List (ClientId × ReplyCall)) :
    callsTo id (cs ++ ds) = callsTo id cs ++ callsTo id ds := List.filterMap_append

theorem callsTo_own (id : ClientId) (calls : List ReplyCall) :
    callsTo id (calls.map (id, ·)) = calls := by
  simp [callsTo]

theorem callsTo_other {id id' : ClientId} (h : id' ≠ id) (calls : List ReplyCall) :
    callsTo id (calls.map (id', ·)) = [] := by
  simp [callsTo, h]

/-- A client that is not on the list gets nothing. -/
theorem callsTo_absent {id : ClientId} {slaves : List Slave} (h : id ∉ slaves.map Slave.id)
    (calls : List ReplyCall) : callsTo id (callsFor slaves calls) = [] := by
  induction slaves with
  | nil => rfl
  | cons slave slaves ih =>
      rw [List.map_cons, List.mem_cons, not_or] at h
      rw [callsFor, List.flatMap_cons, callsTo_append]
      have hrest : callsTo id (slaves.flatMap _) = [] := ih h.2
      rw [hrest, List.append_nil]
      split
      · rfl
      · exact callsTo_other (Ne.symm h.1) calls

/-- A slave on the list gets the calls, unless it waits for a BGSAVE to start. -/
theorem callsTo_slave {slave : Slave} {slaves : List Slave} (hmem : slave ∈ slaves)
    (honce : (slaves.map Slave.id).Nodup) (calls : List ReplyCall) :
    callsTo slave.id (callsFor slaves calls) =
      if slave.replstate = .waitBgsaveStart then [] else calls := by
  induction slaves with
  | nil => exact absurd hmem List.not_mem_nil
  | cons slave' slaves ih =>
      rw [List.map_cons, List.nodup_cons] at honce
      rw [callsFor, List.flatMap_cons, callsTo_append]
      rcases List.mem_cons.mp hmem with rfl | hmem
      · have hrest : callsTo slave.id (slaves.flatMap _) = [] := callsTo_absent honce.1 calls
        rw [hrest, List.append_nil]
        split
        · rfl
        · exact callsTo_own _ calls
      · have hne : slave'.id ≠ slave.id := by
          intro heq
          rw [heq] at honce
          exact honce.1 (List.mem_map_of_mem hmem)
        have hfirst : callsTo slave.id
            (if slave'.replstate = .waitBgsaveStart then [] else calls.map (slave'.id, ·)) = [] := by
          split
          · rfl
          · exact callsTo_other hne calls
        rw [hfirst, List.nil_append]
        exact ih hmem honce.2

/-- The calls for a command spell the command. -/
theorem replyBytes_command {argv : List Robj} (hargv : ∀ o ∈ argv, Argument o)
    (hargc : argv.length < 2 ^ 31) :
    replyBytes (commandCalls argv) = respArray (argv.map Robj.bytes) := by
  have hbulks : ∀ argv : List Robj, (∀ o ∈ argv, Argument o) →
      replyBytes (argv.flatMap addReplyBulk) = (argv.map Robj.bytes).flatMap respBulk := by
    intro argv
    induction argv with
    | nil => intro _; rfl
    | cons o argv ih =>
        intro h
        have ho := h o List.mem_cons_self
        rw [List.flatMap_cons, replyBytes_append, replyBytes_bulk ho.ok ho.isString ho.length,
          ih (fun o' ho' => h o' (List.mem_cons_of_mem _ ho'))]
        rfl
  have hmax : LONG_MAX = 2 ^ 63 - 1 := rfl
  rw [commandCalls, replyBytes_append, replyBytes_multiBulkLen (Int.natCast_nonneg _) (by omega),
    hbulks argv hargv, respArray, List.length_map]

/-- What is fed for a command: SELECT if the database is another one, then the command. -/
def fedBytes (slaveseldb dictid : Int) (argv : List Robj) : Bytes :=
  (if slaveseldb = dictid then [] else respArray [cstr "SELECT", decInt dictid]) ++
    respArray (argv.map Robj.bytes)

/-- **The two encodings are the same.**  What the backlog is fed for a command is the RESP
encoding of SELECT, if the database changed, and the command; and the calls for a slave that
does not wait for a BGSAVE to start add the same bytes to its stream, if it takes replies.
Without a backlog there are no slaves, and nothing is fed. -/
theorem replicationFeedSlaves_agrees (s : Feeding) {history : List (Option UInt8)}
    (h : BacklogInv s.backlog history) {dictid : Int} (hdictid : LONG_MIN ≤ dictid ∧ dictid ≤ LONG_MAX)
    {argv : List Robj} (hargv : ∀ o ∈ argv, Argument o) (hargc : argv.length < 2 ^ 31) :
    (s.backlog.replBacklog = none → s.slaves = [] →
      replicationFeedSlaves s s.slaves dictid argv = some (s, [])) ∧
    (s.backlog.replBacklog ≠ none →
      ∃ s' calls, replicationFeedSlaves s s.slaves dictid argv = some (s', calls) ∧
        s'.slaveseldb = dictid ∧
        BacklogInv s'.backlog (history ++ (fedBytes s.slaveseldb dictid argv).map some) ∧
        ∀ slave ∈ s.slaves, slave.replstate ≠ .waitBgsaveStart →
          ∀ out out', Output.Settled out → Output.Takes out.conn = true →
            Output.Served out (callsTo slave.id calls) out' →
            Output.stream out' =
              Output.stream out ++ HoleStream.syms (fedBytes s.slaveseldb dictid argv)) := by
  constructor
  · intro hnone hslaves
    exact if_pos ⟨by rw [hnone]; rfl, hslaves⟩
  · intro hsome
    have hisNone : s.backlog.replBacklog.isNone = false := by
      rw [Option.isNone_eq_false_iff, Option.isSome_iff_ne_none]
      exact hsome
    have hcarries : Carries s.backlog history := ⟨h, hsome⟩
    have hcommand := replyBytes_command hargv hargc
    -- it is enough to know what the calls for a slave spell
    have hstream : ∀ {calls : List (ClientId × ReplyCall)} {slave : Slave},
        replyBytes (callsTo slave.id calls) = fedBytes s.slaveseldb dictid argv →
        ∀ out out', Output.Settled out → Output.Takes out.conn = true →
          Output.Served out (callsTo slave.id calls) out' → Output.stream out' =
            Output.stream out ++ HoleStream.syms (fedBytes s.slaveseldb dictid argv) := by
      intro calls slave hbytes out out' hset htakes hserved
      rw [(hserved.stream_eq hset).2.2, htakes, if_pos rfl, hbytes]
    by_cases hdb : s.slaveseldb = dictid
    · obtain ⟨backlog, heq, hcar⟩ := feedCommand_carries hcarries hargv hargc
      have hfed : fedBytes s.slaveseldb dictid argv = respArray (argv.map Robj.bytes) := by
        rw [fedBytes, if_pos hdb, List.nil_append]
      refine ⟨{ s with backlog := backlog, slaveseldb := dictid },
        callsFor s.slaves (commandCalls argv), ?_, rfl, by rw [hfed]; exact hcar.inv, ?_⟩
      · simp [replicationFeedSlaves, hisNone, hdb, heq]
      · intro slave hmem hwait
        refine hstream ?_
        rw [callsTo_slave hmem s.once, if_neg hwait, hcommand, hfed]
    · have hselect := selectcmd_spec hdictid.1 hdictid.2
      obtain ⟨b₁, heq₁, hcar₁⟩ := feedReplicationBacklog_carries hcarries
        (respArray [cstr "SELECT", decInt dictid])
      have hfeed : feedSelect s.backlog dictid = some b₁ := by
        rw [feedSelect, if_pos (Option.isSome_iff_ne_none.mpr hsome), hselect]
        exact heq₁
      obtain ⟨b₂, heq₂, hcar₂⟩ := feedCommand_carries hcar₁ hargv hargc
      have hfed : fedBytes s.slaveseldb dictid argv =
          respArray [cstr "SELECT", decInt dictid] ++ respArray (argv.map Robj.bytes) := by
        rw [fedBytes, if_neg hdb]
      refine ⟨{ s with backlog := b₂, slaveseldb := dictid },
        callsFor s.slaves [.addReply (selectcmd dictid)] ++ callsFor s.slaves (commandCalls argv),
        ?_, rfl, ?_, ?_⟩
      · simp [replicationFeedSlaves, hisNone, hdb, hfeed, heq₂]
      · rw [hfed, List.map_append, ← List.append_assoc]
        exact hcar₂.inv
      · intro slave hmem hwait
        refine hstream ?_
        rw [callsTo_append, callsTo_slave hmem s.once, callsTo_slave hmem s.once, if_neg hwait,
          if_neg hwait, replyBytes_append, hcommand, hfed, hselect]
        simp [replyBytes, ReplyCall.bytes, Robj.bytes]

/-- A new backlog of 32 bytes, and a slave that is online. -/
def feedingOne : Feeding where
  backlog := ⟨some (zmalloc (fun _ => 0) 32), 32, 0, 0, 2, 1⟩
  slaveseldb := -1
  slaves := [⟨1, .online⟩]
  once := by decide

theorem feedingOne_inv : BacklogInv feedingOne.backlog [none] := by
  obtain ⟨s', heq, hinv⟩ := createReplicationBacklog_inv (@initBacklog_inv 32 (by decide))
    rfl (fun _ => 0)
  cases heq
  exact hinv

/-- The first command, with an argument that is a number. -/
theorem replicationFeedSlaves_agrees_lpush :
    ∃ s' calls, replicationFeedSlaves feedingOne feedingOne.slaves 3
        [.embstr (cstr "LPUSH"), .raw (cstr "k"), .int (-7)] = some (s', calls) ∧
      s'.slaveseldb = 3 ∧ BacklogInv s'.backlog ([none] ++
        (fedBytes (-1) 3 [.embstr (cstr "LPUSH"), .raw (cstr "k"), .int (-7)]).map some) := by
  have hagrees := (@replicationFeedSlaves_agrees feedingOne [none] feedingOne_inv 3
    ⟨by decide, by decide⟩ [.embstr (cstr "LPUSH"), .raw (cstr "k"), .int (-7)]
    (by
      intro o ho
      rcases List.mem_cons.mp ho with rfl | ho
      · exact ⟨rfl, True.intro, by decide⟩
      rcases List.mem_cons.mp ho with rfl | ho
      · exact ⟨rfl, True.intro, by decide⟩
      rcases List.mem_cons.mp ho with rfl | ho
      · exact ⟨rfl, ⟨by decide, by decide⟩, by decide +kernel⟩
      · exact absurd ho List.not_mem_nil)
    (by decide)).2 (by simp [feedingOne])
  obtain ⟨s', calls, heq, hdb, hinv, _⟩ := hagrees
  exact ⟨s', calls, heq, hdb, hinv⟩

end Replication

end RedisCore
