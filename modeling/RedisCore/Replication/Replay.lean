/-
# `RedisCore.Replication.Replay` — from the master's commands to the slave's (replication.c)

The master feeds its slaves one command after the other, and a SELECT in front of a command for
another database than the last one.  The bytes go through the output buffers of the slave's client
at the master, a connection, and the query buffer of the master's client at the slave.  What the
slave hands to `processCommand` is what the master has fed, whatever the sizes of the reads.
-/
import RedisCore.Replication.Feed
import RedisCore.Networking.Deliveries

namespace RedisCore

namespace Replication

open CInt Decimal
open Query (request bulk requestLine Valid Delivery)

/-- A command that is fed: the database and the arguments. -/
structure Fed where
  dictid : Int
  argv : List Robj

/-- One `replicationFeedSlaves` after the other. -/
def feedAll : Feeding → List Fed → Option (Feeding × List (ClientId × ReplyCall))
  | s, [] => some (s, [])
  | s, c :: cs =>
      (replicationFeedSlaves s s.slaves c.dictid c.argv).bind (fun r =>
        (feedAll r.1 cs).map (fun rs => (rs.1, r.2 ++ rs.2)))

/-- What the slaves are to execute. -/
def requests : Int → List Fed → List (List Bytes)
  | _, [] => []
  | slaveseldb, c :: cs =>
      (if slaveseldb = c.dictid then [] else [[cstr "SELECT", decInt c.dictid]]) ++
        c.argv.map Robj.bytes :: requests c.dictid cs

/-- The commands of a vector of requests, each with what the last SELECT in front of it says. -/
def played : Bytes → List (List Bytes) → List (Bytes × List Bytes)
  | _, [] => []
  | db, cmd :: cmds =>
      if cmd.head? = some (cstr "SELECT") then played (cmd.getD 1 []) cmds
      else (db, cmd) :: played db cmds

/-- A command that the master feeds: not SELECT, within the limits of the protocol. -/
structure Fed.Fine (c : Fed) : Prop where
  dictid : 0 ≤ c.dictid ∧ c.dictid ≤ LONG_MAX
  args : ∀ o ∈ c.argv, Argument o
  valid : Valid (c.argv.map Robj.bytes)
  name : (c.argv.map Robj.bytes).head? ≠ some (cstr "SELECT")

variable {s s' : Feeding} {slave : Slave} {calls : List (ClientId × ReplyCall)} {cs : List Fed}

/-! ## At the master -/

theorem request_eq_respArray (cmd : List Bytes) : request cmd = respArray cmd := by
  have hdec : decInt (cmd.length : Int) = decNat cmd.length := by
    rw [decInt, if_neg (by omega), Int.natAbs_natCast]
  have hbulk : bulk = respBulk := funext Query.bulk_eq_respBulk
  rw [request, requestLine, respArray, hdec, hbulk]
  simp [cstr]

theorem Fed.Fine.argc {c : Fed} (h : c.Fine) : c.argv.length < 2 ^ 31 := by
  have hcount := h.valid.count
  rw [List.length_map] at hcount
  omega

/-- The calls for a slave spell what is fed. -/
theorem feed_slave {c : Fed} (hc : c.Fine) (hmem : slave ∈ s.slaves)
    (hwait : slave.replstate ≠ .waitBgsaveStart)
    (hfeed : replicationFeedSlaves s s.slaves c.dictid c.argv = some (s', calls)) :
    s'.slaves = s.slaves ∧ s'.slaveseldb = c.dictid ∧
      replyBytes (callsTo slave.id calls) = fedBytes s.slaveseldb c.dictid c.argv := by
  have hne : s.slaves ≠ [] := List.ne_nil_of_mem hmem
  have hcommand := replyBytes_command hc.args hc.argc
  have hmin : LONG_MIN = -2 ^ 63 := rfl
  have hselect := @selectcmd_spec c.dictid (by have := hc.dictid.1; omega) hc.dictid.2
  unfold replicationFeedSlaves at hfeed
  rw [if_neg (fun h => hne h.2)] at hfeed
  split at hfeed
  · cases hfeed
  split at hfeed
  · next hdb =>
      obtain ⟨b₁, -, hfeed⟩ := Option.bind_eq_some_iff.mp hfeed
      obtain ⟨b₂, -, hfeed⟩ := Option.bind_eq_some_iff.mp hfeed
      cases hfeed
      refine ⟨rfl, rfl, ?_⟩
      rw [callsTo_append, callsTo_slave hmem s.once, callsTo_slave hmem s.once, if_neg hwait,
        if_neg hwait, replyBytes_append, hcommand, hselect, fedBytes, if_neg hdb]
      simp [replyBytes, ReplyCall.bytes, Robj.bytes]
  · next hdb =>
      obtain ⟨b, -, hfeed⟩ := Option.bind_eq_some_iff.mp hfeed
      cases hfeed
      refine ⟨rfl, rfl, ?_⟩
      rw [callsTo_slave hmem s.once, if_neg hwait, hcommand, fedBytes, if_pos (not_not.mp hdb),
        List.nil_append]

/-- All calls for a slave spell the requests. -/
theorem feedAll_slave (hcs : ∀ c ∈ cs, c.Fine) (hmem : slave ∈ s.slaves)
    (hwait : slave.replstate ≠ .waitBgsaveStart) (hfeed : feedAll s cs = some (s', calls)) :
    replyBytes (callsTo slave.id calls) = (requests s.slaveseldb cs).flatMap request := by
  induction cs generalizing s calls with
  | nil =>
      cases hfeed
      rfl
  | cons c cs ih =>
      obtain ⟨r, hfirst, hfeed⟩ := Option.bind_eq_some_iff.mp hfeed
      obtain ⟨rs, hmore, hfeed⟩ := Option.map_eq_some_iff.mp hfeed
      cases hfeed
      obtain ⟨hslaves, hdb, hbytes⟩ := @feed_slave _ r.1 _ r.2 c (hcs c List.mem_cons_self)
        hmem hwait hfirst
      have hrest := ih (fun d hd => hcs d (List.mem_cons_of_mem c hd)) (hslaves ▸ hmem) hmore
      rw [callsTo_append, replyBytes_append, hbytes, hrest, hdb, requests, List.flatMap_append,
        List.flatMap_cons, request_eq_respArray, fedBytes, List.append_assoc]
      split
      · rfl
      · rw [List.flatMap_singleton, request_eq_respArray]

/-! ## At the slave -/

theorem valid_select {dictid : Int} (h : 0 ≤ dictid ∧ dictid ≤ LONG_MAX) :
    Valid [cstr "SELECT", decInt dictid] := by
  have hmin : LONG_MIN = -2 ^ 63 := rfl
  have hlen := length_decInt_le (v := dictid) (by have := h.1; omega) h.2
  refine ⟨List.cons_ne_nil _ _, show 2 ≤ 1024 * 1024 by decide, fun a ha => ?_⟩
  rcases List.mem_cons.mp ha with rfl | ha
  · decide
  · rw [List.mem_singleton] at ha
    subst ha
    omega

theorem valid_requests (hcs : ∀ c ∈ cs, c.Fine) : ∀ slaveseldb, ∀ cmd ∈ requests slaveseldb cs, Valid cmd := by
  induction cs with
  | nil =>
      intro _ cmd hcmd
      exact absurd hcmd List.not_mem_nil
  | cons c cs ih =>
      intro slaveseldb cmd hcmd
      have hc := hcs c List.mem_cons_self
      rcases List.mem_append.mp hcmd with hcmd | hcmd
      · split at hcmd
        · exact absurd hcmd List.not_mem_nil
        · rw [List.mem_singleton] at hcmd
          subst hcmd
          exact valid_select hc.dictid
      · rcases List.mem_cons.mp hcmd with rfl | hcmd
        · exact hc.valid
        · exact ih (fun d hd => hcs d (List.mem_cons_of_mem c hd)) c.dictid cmd hcmd

/-- A command, and its database as a SELECT names it. -/
def Fed.played (c : Fed) : Bytes × List Bytes := (decInt c.dictid, c.argv.map Robj.bytes)

/-- The requests are the commands, each for its database, if the slave's is the one the master
means or the master means none. -/
theorem played_requests (hcs : ∀ c ∈ cs, c.Fine) : ∀ (slaveseldb : Int) (db : Bytes),
    slaveseldb < 0 ∨ db = decInt slaveseldb →
      played db (requests slaveseldb cs) = cs.map Fed.played := by
  induction cs with
  | nil => exact fun _ _ _ => rfl
  | cons c cs ih =>
      intro slaveseldb db hdb
      have hc := hcs c List.mem_cons_self
      have hrest := ih (fun d hd => hcs d (List.mem_cons_of_mem c hd)) c.dictid (decInt c.dictid)
        (.inr rfl)
      have hcommand : played (decInt c.dictid) (c.argv.map Robj.bytes :: requests c.dictid cs) =
          (c :: cs).map Fed.played := by
        rw [played, if_neg hc.name, hrest]
        rfl
      rw [requests]
      split
      · next hsame =>
          have hpos := hc.dictid.1
          rw [hdb.resolve_left (by omega), hsame, List.nil_append]
          exact hcommand
      · exact hcommand

/-- What is played of a part of the requests is a part of what is played. -/
theorem played_prefix (first more : List (List Bytes)) : ∀ db,
    played db first <+: played db (first ++ more) := by
  induction first with
  | nil => exact fun _ => List.nil_prefix
  | cons cmd first ih =>
      intro db
      rw [List.cons_append, played, played]
      split
      · exact ih _
      · exact (List.prefix_cons_inj _).mpr (ih db)

/-- **A slave plays what its master feeds.**  From a full resynchronisation on, where `slaveseldb` is
set to -1, the stream of a slave's client grows by the requests, whatever is done with its output
buffers; and in whatever reads the client of the master at the slave takes the bytes of these
requests, it reports no error, and what was handed to `processCommand` is a beginning of the
commands, in order, each behind a SELECT of its database.  When all bytes are read it is all of
them. -/
theorem slave_plays (hcs : ∀ c ∈ cs, c.Fine) (hsel : s.slaveseldb = -1) (hmem : slave ∈ s.slaves)
    (hwait : slave.replstate ≠ .waitBgsaveStart) (hfeed : feedAll s cs = some (s', calls)) :
    (∀ out out', Output.Settled out → Output.Takes out.conn = true →
      Output.Served out (callsTo slave.id calls) out' → Output.stream out' =
        Output.stream out ++ HoleStream.syms ((requests (-1) cs).flatMap request)) ∧
    ∀ (σ : Type) (execute : Query.Execute σ) (st : Query.State σ) (t db : Bytes),
      Delivery execute (requests (-1) cs) st t →
        st.client.errors = [] ∧ played db st.handed <+: cs.map Fed.played ∧
          (t = [] → played db st.handed = cs.map Fed.played) := by
  constructor
  · intro out out' hset htakes hserved
    rw [(hserved.stream_eq hset).2.2, htakes, if_pos rfl, feedAll_slave hcs hmem hwait hfeed, hsel]
  · intro σ execute st t db hdelivery
    have hvalid := valid_requests hcs (-1)
    have hplayed := played_requests hcs (-1) db (.inl (by decide))
    obtain ⟨todo, hd⟩ := hdelivery.delivering hvalid
    have hbegin := played_prefix st.handed todo db
    rw [← hd.split, hplayed] at hbegin
    refine ⟨hd.errors, hbegin, ?_⟩
    rintro rfl
    cases todo with
    | nil =>
        have hall := hd.split
        rw [List.append_nil] at hall
        rw [← hall, hplayed]
    | cons cmd later => exact (hd.waits cmd later rfl).not_nil.elim

/-- Two commands for one database and one for another. -/
def threeFed : List Fed := [⟨3, [.raw (cstr "GET"), .raw (cstr "k")]⟩, ⟨3, [.raw (cstr "PING")]⟩,
  ⟨12, [.raw (cstr "DEL"), .int (-7)]⟩]

theorem threeFed_fine : ∀ c ∈ threeFed, c.Fine := by
  have hraw : ∀ b : Bytes, b.length < 2 ^ 31 → Argument (.raw b) := by
    intro b hb
    have hmax : LONG_MAX = 2 ^ 63 - 1 := rfl
    refine ⟨rfl, True.intro, ?_⟩
    show (b.length : Int) ≤ LONG_MAX
    omega
  have hint : Argument (.int (-7)) := ⟨rfl, ⟨by decide, by decide⟩, by decide +kernel⟩
  intro c hc
  rcases List.mem_cons.mp hc with rfl | hc
  · refine ⟨⟨by decide, by decide⟩, ?_, ⟨by decide, by decide, by decide⟩, by decide⟩
    intro o ho
    rcases List.mem_cons.mp ho with rfl | ho
    · exact hraw _ (by decide)
    · rw [List.mem_singleton.mp ho]
      exact hraw _ (by decide)
  rcases List.mem_cons.mp hc with rfl | hc
  · refine ⟨⟨by decide, by decide⟩, ?_, ⟨by decide, by decide, by decide⟩, by decide⟩
    intro o ho
    rw [List.mem_singleton.mp ho]
    exact hraw _ (by decide)
  · rw [List.mem_singleton.mp hc]
    refine ⟨⟨by decide, by decide⟩, ?_, ⟨by decide, by decide, by decide +kernel⟩, by decide⟩
    intro o ho
    rcases List.mem_cons.mp ho with rfl | ho
    · exact hraw _ (by decide)
    · rw [List.mem_singleton.mp ho]
      exact hint

theorem slave_plays_three : ∃ s' calls, feedAll feedingOne threeFed = some (s', calls) ∧
    ∃ st, Delivery Query.plainExecute (requests (-1) threeFed) st [] ∧
      played [] st.handed = threeFed.map Fed.played := by
  obtain ⟨r, hr⟩ := Option.isSome_iff_exists.mp
    (show (feedAll feedingOne threeFed).isSome = true by decide +kernel)
  obtain ⟨b, hb⟩ : ∃ b, b = (requests (-1) threeFed).flatMap request := ⟨_, rfl⟩
  have hstart := @Delivery.fresh _ Query.plainExecute (requests (-1) threeFed) Query.plainServer rfl
  rw [← hb, ← List.append_nil b] at hstart
  have hne : b ≠ [] := by
    rw [hb]
    decide +kernel
  have hopen : (Query.readQueryFromClient Query.plainExecute (Query.arrived Query.plainServer [])
      (.data b)).toOption.map (fun s => s.service.isOpen) = some true := by
    rw [hb]
    decide +kernel
  obtain ⟨st, hst, hin⟩ := Option.map_eq_some_iff.mp hopen
  have hread : Query.readQueryFromClient Query.plainExecute (Query.arrived Query.plainServer [])
      (.data b) = .ok st := by
    cases hcases : Query.readQueryFromClient Query.plainExecute
        (Query.arrived Query.plainServer []) (.data b) with
    | error e =>
        rw [hcases] at hst
        cases hst
    | ok st' =>
        rw [hcases] at hst
        cases hst
        rfl
  have hlen : (b.length : Int) ≤ Query.readlen (Query.arrived Query.plainServer []).client := by
    rw [hb]
    decide +kernel
  have hend := Delivery.read hstart hne hlen hread (.inl hin)
  refine ⟨r.1, r.2, hr, st, hend, ?_⟩
  exact ((@slave_plays _ _ ⟨1, .online⟩ _ _ threeFed_fine rfl List.mem_cons_self (by decide) hr).2
    Unit Query.plainExecute st [] [] hend).2.2 rfl

end Replication

end RedisCore
