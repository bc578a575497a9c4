/-
# `RedisCore.Session.Serve` — the command table, and what one command of a client does

The data of the server and what `processCommand` does to it with the three commands of the table.
All clients share the database, and `log` is every command of every client in the order in which
the server came to them, with the reply.

The abstract side is one keyspace and the commands one after the other: `Serial` says that each
command of a log was answered as the keyspace demanded at its turn, or was refused with an error and
changed nothing.
-/
import RedisCore.Commands
import RedisCore.Gate
import RedisCore.Keyspace
import RedisCore.Networking.Executed

namespace RedisCore

namespace Session

open CInt
open Gate (RedisCommand)
open Query (Modest isQuit PROTO_MAX_QUERYBUF_LEN)

/-! ## The table of commands -/

/-- An entry of `redisCommandTable`: the name, the place of the procedure, the arity, and the letters
of the flags, of which `w` is CMD_WRITE and `l` is CMD_LOADING. -/
def tableEntry (name : String) (j : Nat) (arity : Int) (sflags : String) : RedisCommand :=
  ⟨cstr name, .other j, arity, (cstr sflags).contains 119, (cstr sflags).contains 108⟩

/-- `redisCommandTable`. -/
def commandTable : List RedisCommand :=
  [tableEntry "get" 0 2 "rF", tableEntry "set" 1 (-3) "wm", tableEntry "del" 2 (-2) "w"]

/-- `lookupCommand`, by the place in the table. -/
def lookup (seed : UInt32) (commands : Dict ShortSds Nat) (name : Bytes) :
    Dict ShortSds Nat × Option RedisCommand :=
  if h : name.length < 2 ^ 31 then
    let r := lookupCommand seed commands ⟨name, h⟩
    (r.1, r.2.bind (fun j => commandTable[j]?))
  else (commands, none)

/-- An argument as the parser creates it. -/
def argOf (s : Bytes) : Option Arg :=
  if h : (s.length : Int) ≤ LONG_MAX then
    some ⟨s, decide (s.length ≤ OBJ_ENCODING_EMBSTR_SIZE_LIMIT), 1, h⟩
  else none

def argsOf : List Bytes → Option (List Arg)
  | [] => some []
  | s :: argv => (argOf s).bind (fun a => (argsOf argv).map (a :: ·))

/-- What the procedure of an entry finds in `argv`. -/
def commandOf (cmd : RedisCommand) (argv : List Bytes) : Option Command :=
  match cmd.proc with
  | .other 0 => some (.get (argv.getD 1 []))
  | .other 1 =>
      (argOf (argv.getD 2 [])).bind (fun val =>
        (argsOf (argv.drop 3)).map (fun opts => .set (argv.getD 1 []) val opts))
  | .other 2 =>
      if h : (argv.drop 1).length < 2 ^ 31 then some (.del (argv.drop 1) h) else none
  | _ => none

/-- The procedures of the table; a failed assertion stops the server. -/
def procs (env : Env) : Gate.Procs (Option DbState) := fun cmd argv db =>
  match db.bind (fun st => (commandOf cmd argv).bind (execCmd env st)) with
  | some (st, reply) => (some st, reply)
  | none => (none, [])

/-! ## The data of the server -/

/-- A command and what became of it: the client, the fields of the server, `argv`, `c->cmd`, and the
reply. -/
structure Entry where
  id : Nat
  server : Gate.Server
  argv : List Bytes
  cmd : Option RedisCommand
  reply : List ReplyCall

structure Shared where
  server : Gate.Server
  commands : Dict ShortSds Nat
  clients : Nat → Gate.Client
  db : Option DbState
  log : List Entry

/-- `processCommand`, of the client `id`. -/
def serve (env : Env) (seed : UInt32) (id : Nat) (w : Shared) (argv : List Bytes) : Shared :=
  let found := lookup seed w.commands (argv.headD [])
  let r := Gate.processCommand (fun name => (lookup seed w.commands name).2) (procs env) w.server
    (w.clients id) w.db argv
  { w with
    commands := found.1
    clients := Function.update w.clients id r.1
    db := r.2.1
    log := w.log ++ [⟨id, w.server, argv, found.2, r.2.2.1⟩] }

/-! ## One command after the other -/

/-- A command is looked up by its name in any case, and found in the table by one without a NUL
byte. -/
structure Found (name : Bytes) (cmd : Option RedisCommand) : Prop where
  named : ∀ c, cmd = some c → c ∈ commandTable ∧ strcaseEq (cstring name) c.name = true
  known : 0 ∉ name → ∀ c ∈ commandTable, strcaseEq name c.name = true → cmd = some c

/-- The server takes a command: the number of arguments is right, no password is wanted, the disk is
in order and the dataset is loaded. -/
def Takes (server : Gate.Server) (cmd : RedisCommand) (argc : Nat) : Bool :=
  !cmd.wrongArity argc && server.requirepass.isNone && !server.misconf cmd && !server.loading

/-- The request of an entry, if the server takes it. -/
def Entry.request (e : Entry) : Option Command :=
  e.cmd.bind (fun cmd => if Takes e.server cmd e.argv.length then commandOf cmd e.argv else none)

/-- An error, in one line. -/
def Refusal (reply : List ReplyCall) : Prop :=
  ∃ msg, replyBytes reply = cstr "-" ++ msg ++ cstr "\r\n" ∧ 13 ∉ msg ∧ 10 ∉ msg

/-- **The specification**: the entries of a log one after the other, from an empty database. -/
inductive Serial (env : Env) : List Entry → DbState → Keyspace → Prop
  | start : Serial env [] DbState.init (fun _ => none)
  | refused {log : List Entry} {st : DbState} {ks : Keyspace} {e : Entry} (h : Serial env log st ks)
      (found : Found (e.argv.headD []) e.cmd) (none_ : e.request = none) (reply : Refusal e.reply) :
      Serial env (log ++ [e]) st ks
  | answered {log : List Entry} {st st' : DbState} {ks : Keyspace} {e : Entry} {c : Command}
      (h : Serial env log st ks) (found : Found (e.argv.headD []) e.cmd) (some_ : e.request = some c)
      (exec : execCmd env st c = some (st', e.reply)) (reply : Answers env ks st st' e.reply c) :
      Serial env (log ++ [e]) st' (absStep env st.ticks st'.ticks ks c)

/-- The deadline that an entry asks for is a `long long`, whenever it is executed. -/
def Entry.Fits (env : Env) (e : Entry) : Prop :=
  ∀ key val opts flags ttl, e.request = some (.set key val opts) →
    setRequest opts = some (flags, some ttl) → ∀ n, env.clock n + ttl ≤ LONG_MAX

/-- The text of an error of the AOF is one line. -/
def OneLine (server : Gate.Server) : Prop :=
  ∀ text, server.aofLastWriteErrno = some text → 13 ∉ text ∧ 10 ∉ text

/-- What holds of the data of a master. -/
structure Inv (env : Env) (seed : UInt32) (w : Shared) : Prop where
  commands : CommandTable seed redisCommandTable.zipIdx w.commands
  clients : ∀ id, (w.clients id).authenticated = false ∧ (w.clients id).multi = false
  server : w.server.masterhost = false ∧ OneLine w.server
  serial : ∃ st ks, w.db = some st ∧ Represents env st ks ∧ Serial env w.log st ks

variable {env : Env} {seed : UInt32} {id : Nat} {w : Shared} {argv : List Bytes}

/-! ## Lookups -/

/-- The places of the names in `server.commands` are those of the entries. -/
theorem commandTable_names :
    commandTable.map RedisCommand.name = redisCommandTable.map Subtype.val := rfl

theorem registered_iff {name : ShortSds} {j : Nat} : (name, j) ∈ redisCommandTable.zipIdx ↔
    ∃ c, commandTable[j]? = some c ∧ c.name = name.val := by
  have hat : commandTable[j]?.map RedisCommand.name = redisCommandTable[j]?.map Subtype.val := by
    rw [← List.getElem?_map, ← List.getElem?_map, commandTable_names]
  rw [List.mem_zipIdx_iff_getElem?]
  constructor
  · intro h
    rw [h] at hat
    exact Option.map_eq_some_iff.mp hat
  · rintro ⟨c, hc, hname⟩
    rw [hc, Option.map_some, hname] at hat
    obtain ⟨name', hname', hval⟩ := Option.map_eq_some_iff.mp hat.symm
    rw [hname', Subtype.val_injective hval]

/-- A lookup in the table of the server. -/
theorem lookup_found {commands : Dict ShortSds Nat}
    (h : CommandTable seed redisCommandTable.zipIdx commands) {name : Bytes}
    (hlen : name.length < 2 ^ 31) :
    CommandTable seed redisCommandTable.zipIdx (lookup seed commands name).1 ∧
      Found name (lookup seed commands name).2 := by
  rw [lookup, dif_pos hlen]
  refine ⟨?_, fun c hc => ?_, fun hplain c hc hsame => ?_⟩
  · -- the dict makes a step of rehashing, if it is not empty
    show CommandTable seed _ (dictFind (commandTableDictType seed) commands ⟨name, hlen⟩).1
    by_cases hu : commands.ht0.used + commands.ht1.used = 0
    · rw [dictFind, if_pos hu]
      exact h
    · rw [dictFind_eq hu]
      exact h.step
  · obtain ⟨j, hj, hc⟩ := Option.bind_eq_some_iff.mp hc
    refine ⟨List.mem_of_getElem? hc, ?_⟩
    rw [lookupCommand_eq h] at hj
    obtain ⟨r, hr, hval⟩ := Option.bind_eq_some_iff.mp hj
    have hmeets := locate_meets (commandTableDictType seed)
      (rehashStepIfNeeded (commandTableDictType seed) commands) ⟨name, hlen⟩
    rw [hr] at hmeets
    obtain ⟨e, he, hin, hcmp⟩ := hmeets
    rw [dictGetVal, he, Option.map_some, Option.some.injEq] at hval
    have hmem := h.step.mem.mpr (mem_entries_of_meets hin)
    obtain ⟨c', hc', hname⟩ := registered_iff.mp hmem
    rw [hval, hc, Option.some.injEq] at hc'
    rw [keyCompare_plain seed (h.step.plain e (mem_entries_of_meets hin)), ← hname, ← hc'] at hcmp
    exact hcmp
  · obtain ⟨j, hj⟩ := List.getElem?_of_mem hc
    have hshort : c.name.length < 2 ^ 31 := by
      have hall : ∀ c ∈ commandTable, c.name.length < 2 ^ 31 := by decide
      exact hall c hc
    refine Option.bind_eq_some_iff.mpr ⟨j, ?_, hj⟩
    rw [lookupCommand_plain h hplain]
    exact ⟨(⟨c.name, hshort⟩, j), registered_iff.mpr ⟨c, hj, rfl⟩, hsame, rfl⟩

/-! ## Requests -/

theorem argsOf_some {argv : List Bytes} (h : ∀ a ∈ argv, a.length ≤ PROTO_MAX_QUERYBUF_LEN) :
    ∃ args, argsOf argv = some args := by
  have hmax : PROTO_MAX_QUERYBUF_LEN = 2 ^ 30 := rfl
  have hlong : LONG_MAX = 2 ^ 63 - 1 := rfl
  induction argv with
  | nil => exact ⟨[], rfl⟩
  | cons s argv ih =>
      obtain ⟨args, hargs⟩ := ih fun a ha => h a (List.mem_cons_of_mem s ha)
      have hs := h s List.mem_cons_self
      rw [argsOf, argOf, dif_pos (by omega), hargs]
      exact ⟨_, rfl⟩

/-- Every command of the table finds its arguments. -/
theorem commandOf_some {cmd : RedisCommand} (hcmd : cmd ∈ commandTable) (hargv : Modest argv) :
    ∃ c, commandOf cmd argv = some c := by
  have hmax : PROTO_MAX_QUERYBUF_LEN = 2 ^ 30 := rfl
  have hlong : LONG_MAX = 2 ^ 63 - 1 := rfl
  rcases List.mem_cons.mp hcmd with rfl | hcmd
  · exact ⟨_, rfl⟩
  rcases List.mem_cons.mp hcmd with rfl | hcmd
  · have hval : ((argv.getD 2 []).length : Int) ≤ LONG_MAX := by
      by_cases h2 : 2 < argv.length
      · rw [List.getD_eq_getElem?_getD, List.getElem?_eq_getElem h2, Option.getD_some]
        have := hargv.2 _ (List.getElem_mem h2)
        omega
      · rw [List.getD_eq_getElem?_getD, List.getElem?_eq_none (by omega), Option.getD_none]
        exact (by decide : ((([] : Bytes).length : Nat) : Int) ≤ LONG_MAX)
    obtain ⟨opts, hopts⟩ := argsOf_some fun a ha => hargv.2 a (List.mem_of_mem_drop ha)
    have heq : commandOf (tableEntry "set" 1 (-3) "wm") argv =
        (argOf (argv.getD 2 [])).bind (fun val =>
          (argsOf (argv.drop 3)).map (fun opts => Command.set (argv.getD 1 []) val opts)) := rfl
    rw [heq, argOf, dif_pos hval, hopts]
    exact ⟨_, rfl⟩
  · rw [List.mem_singleton.mp hcmd]
    have hcount := hargv.1
    have heq : commandOf (tableEntry "del" 2 (-2) "w") argv =
        if h : (argv.drop 1).length < 2 ^ 31 then some (Command.del (argv.drop 1) h) else none := rfl
    rw [heq, dif_pos (by rw [List.length_drop]; omega)]
    exact ⟨_, rfl⟩

/-- What all commands of the table have in common. -/
theorem commandTable_plain {cmd : RedisCommand} (hcmd : cmd ∈ commandTable) :
    (∃ j, cmd.proc = .other j) ∧ cmd.loading = false := by
  rcases List.mem_cons.mp hcmd with rfl | hcmd
  · exact ⟨⟨0, rfl⟩, rfl⟩
  rcases List.mem_cons.mp hcmd with rfl | hcmd
  · exact ⟨⟨1, rfl⟩, rfl⟩
  · rw [List.mem_singleton.mp hcmd]
    exact ⟨⟨2, rfl⟩, rfl⟩

/-! ## Refusals -/

theorem refusal_of_text {s : Bytes} (h13 : 13 ∉ s) (h10 : 10 ∉ s) :
    Refusal (addReplyErrorLength s) := by
  refine ⟨cstr "ERR " ++ s, ?_, ?_, ?_⟩
  · simp [replyBytes, addReplyErrorLength, ReplyCall.bytes, cstr]
  · rw [List.mem_append, not_or]
    exact ⟨by decide, h13⟩
  · rw [List.mem_append, not_or]
    exact ⟨by decide, h10⟩

/-- A formatted error has no line break. -/
theorem refusal_of_format (s : Bytes) : Refusal (addReplyErrorFormat s) := by
  have hno : ∀ b : UInt8, b = 13 ∨ b = 10 →
      b ∉ s.map (fun c => if c = 13 ∨ c = 10 then (32 : UInt8) else c) := by
    intro b hb hmem
    obtain ⟨c, -, hc⟩ := List.mem_map.mp hmem
    split at hc
    · subst hc
      rcases hb with hb | hb <;> exact absurd hb (by decide)
    · next hc' =>
        subst hc
        exact hc' hb
  exact refusal_of_text (hno 13 (.inl rfl)) (hno 10 (.inr rfl))

theorem refusal_of_shared {o : Robj} {msg : Bytes} (ho : o = .raw (cstr "-" ++ msg ++ cstr "\r\n"))
    (h13 : 13 ∉ msg) (h10 : 10 ∉ msg) : Refusal [.addReply o] := by
  refine ⟨msg, ?_, h13, h10⟩
  rw [ho]
  simp [replyBytes, ReplyCall.bytes, Robj.bytes]

theorem refusal_noautherr : Refusal [.addReply Gate.Shared.noautherr] :=
  @refusal_of_shared _ (cstr "NOAUTH Authentication required.") rfl (by decide) (by decide)

theorem refusal_loadingerr : Refusal [.addReply Gate.Shared.loadingerr] :=
  @refusal_of_shared _ (cstr "LOADING Redis is loading the dataset in memory") rfl (by decide)
    (by decide)

theorem refusal_bgsaveerr : Refusal [.addReply Gate.Shared.bgsaveerr] :=
  @refusal_of_shared _ (cstr "MISCONF Redis is configured to save RDB snapshots, but is " ++
    cstr "currently not able to persist on disk. Commands that may modify the data set are disabled. " ++
    cstr "Please check Redis logs for details about the error.") (by decide +kernel)
    (by decide +kernel) (by decide +kernel)

theorem refusal_aof {text : Bytes} (h : 13 ∉ text ∧ 10 ∉ text) :
    Refusal [.addReplySds (cstr "-MISCONF Errors writing to the AOF file: " ++ text ++ cstr "\r\n")] := by
  refine ⟨cstr "MISCONF Errors writing to the AOF file: " ++ text, ?_, ?_, ?_⟩
  · simp [replyBytes, ReplyCall.bytes, cstr]
  · rw [List.mem_append, not_or]
    exact ⟨by decide, h.1⟩
  · rw [List.mem_append, not_or]
    exact ⟨by decide, h.2⟩

/-! ## One command -/

/-- What `processCommand` does for a client that has neither given a password nor begun a
transaction: it refuses the command, or calls the procedure of the entry. -/
theorem processCommand_serves {find : Bytes → Option RedisCommand} {server : Gate.Server}
    {c : Gate.Client} (hfound : Found (argv.headD []) (find (argv.headD []))) (hone : OneLine server)
    (hquit : isQuit argv = false) (hargv : Modest argv) (hauth : c.authenticated = false)
    (hmulti : c.multi = false) (db : Option DbState) :
    (∃ reply outcome, Gate.processCommand find (procs env) server c db argv = (c, db, reply, outcome) ∧
      Entry.request ⟨id, server, argv, find (argv.headD []), reply⟩ = none ∧ Refusal reply) ∨
    ∃ cmd req outcome, find (argv.headD []) = some cmd ∧ commandOf cmd argv = some req ∧
      (∀ reply, Entry.request ⟨id, server, argv, some cmd, reply⟩ = some req) ∧
      Gate.processCommand find (procs env) server c db argv =
        (c, (procs env cmd argv db).1, (procs env cmd argv db).2, outcome) := by
  have hflag : Gate.flagTransaction c = c := by
    rw [Gate.flagTransaction, hmulti, if_neg Bool.false_ne_true]
  have hnoquit : ¬ strcaseEq (cstring (argv.headD [])) (cstr "quit") = true := by
    intro h
    have hlower : (cstr "quit").map lower = cstr "quit" := by decide
    rw [strcaseEq, hlower] at h
    rw [isQuit, h] at hquit
    cases hquit
  unfold Gate.processCommand
  dsimp only
  rw [hflag, if_neg hnoquit]
  cases hfind : find (argv.headD []) with
  | none => exact .inl ⟨_, _, rfl, rfl, refusal_of_format _⟩
  | some cmd =>
      obtain ⟨hmem, -⟩ := hfound.named cmd hfind
      obtain ⟨⟨j, hproc⟩, hloading⟩ := commandTable_plain hmem
      obtain ⟨req, hreq⟩ := commandOf_some hmem hargv
      have hrequest : ∀ reply, Entry.request ⟨id, server, argv, some cmd, reply⟩ =
          if Takes server cmd argv.length then some req else none := by
        intro reply
        rw [← hreq]
        rfl
      have hrefused : ∀ reply (outcome : Gate.Outcome), Takes server cmd argv.length = false →
          Refusal reply →
          ∃ reply' outcome', (c, db, reply, outcome) = (c, db, reply', outcome') ∧
            Entry.request ⟨id, server, argv, some cmd, reply'⟩ = none ∧ Refusal reply' := by
        intro reply outcome htakes hreply
        exact ⟨reply, outcome, rfl, by rw [hrequest, htakes, if_neg Bool.false_ne_true], hreply⟩
      dsimp only
      split
      · next harity =>
          exact .inl (hrefused _ _ (by simp [Takes, harity]) (refusal_of_format _))
      next harity =>
      split
      · next hpass =>
          rw [Bool.and_eq_true, Bool.and_eq_true] at hpass
          refine .inl (hrefused _ _ ?_ refusal_noautherr)
          have hsome : server.requirepass.isNone = false := by
            rw [← Option.not_isSome, hpass.1.1]
            rfl
          rw [Takes, hsome, Bool.and_false, Bool.false_and, Bool.false_and]
      next hpass =>
      split
      · next hdisk =>
          refine .inl (hrefused _ _ (by simp [Takes, hdisk]) ?_)
          cases htext : server.aofLastWriteErrno with
          | none => exact refusal_bgsaveerr
          | some text => exact refusal_aof (hone text htext)
      next hdisk =>
      split
      · next hload =>
          rw [Bool.and_eq_true] at hload
          exact .inl (hrefused _ _ (by simp [Takes, hload.1]) refusal_loadingerr)
      next hload =>
      rw [hmulti, Bool.false_and, if_neg Bool.false_ne_true]
      refine .inr ⟨cmd, req, .called cmd, rfl, hreq, fun reply => ?_, ?_⟩
      · rw [hrequest, if_pos]
        have hnone : server.requirepass.isNone = true := by
          rw [hauth, hproc] at hpass
          cases hp : server.requirepass with
          | none => rfl
          | some p =>
              rw [hp] at hpass
              exact absurd rfl hpass
        rw [hloading, Bool.not_false, Bool.and_true] at hload
        rw [Takes, hnone, Bool.eq_false_iff.mpr harity, Bool.eq_false_iff.mpr hdisk,
          Bool.eq_false_iff.mpr hload]
        rfl
      · rw [Gate.call, hproc]

/-- **One command** of a client keeps what holds of the data of a master. -/
theorem serve_inv (hm : env.Master) (h : Inv env seed w) (hargv : Modest argv)
    (hquit : isQuit argv = false) (hfits : ∀ e ∈ (serve env seed id w argv).log, e.Fits env) :
    Inv env seed (serve env seed id w argv) := by
  have hname : (argv.headD []).length < 2 ^ 31 := by
    have hmax : PROTO_MAX_QUERYBUF_LEN = 2 ^ 30 := rfl
    cases argv with
    | nil => exact Nat.two_pow_pos 31
    | cons a argv =>
        have := hargv.2 a List.mem_cons_self
        rw [List.headD_cons]
        omega
  obtain ⟨hcommands, hfound⟩ := lookup_found h.commands hname
  obtain ⟨hauth, hmulti⟩ := h.clients id
  obtain ⟨st, ks, hdb, hrep, hserial⟩ := h.serial
  have hsame : Function.update w.clients id (w.clients id) = w.clients := Function.update_eq_self id w.clients
  rcases @processCommand_serves env id argv (fun name => (lookup seed w.commands name).2) w.server
      (w.clients id) hfound h.server.2 hquit hargv hauth hmulti w.db with
    ⟨reply, outcome, hprocess, hrequest, hreply⟩ | ⟨cmd, req, outcome, hfind, hreq, hrequest, hprocess⟩
  · have heq : serve env seed id w argv = { w with
        commands := (lookup seed w.commands (argv.headD [])).1
        log := w.log ++ [⟨id, w.server, argv, (lookup seed w.commands (argv.headD [])).2, reply⟩] } := by
      unfold serve
      dsimp only
      rw [hprocess]
      dsimp only
      rw [hsame]
    rw [heq]
    exact ⟨hcommands, h.clients, h.server, st, ks, hdb, hrep, hserial.refused hfound hrequest hreply⟩
  · have hprocs : procs env cmd argv w.db = match execCmd env st req with
        | some (st', reply) => (some st', reply)
        | none => (none, []) := by
      unfold procs
      rw [hdb, Option.bind_some, hreq, Option.bind_some]
    have hlog : (serve env seed id w argv).log = w.log ++
        [⟨id, w.server, argv, some cmd, (procs env cmd argv w.db).2⟩] := by
      unfold serve
      dsimp only
      rw [hprocess, ← hfind]
    have hrepresentable : Representable env st req := by
      cases req with
      | set key val opts =>
          intro flags ttl st' hset _
          refine hfits ⟨id, w.server, argv, some cmd, (procs env cmd argv w.db).2⟩ ?_ key val opts
            flags ttl (hrequest _) hset _
          rw [hlog]
          exact List.mem_append_right _ (List.mem_singleton_self _)
      | get key => exact True.intro
      | del keys fits => exact True.intro
    obtain ⟨st', reply, hexec, hrep', hans⟩ := execCmd_spec hm hrep req hrepresentable
    rw [hexec] at hprocs
    have heq : serve env seed id w argv = { w with
        commands := (lookup seed w.commands (argv.headD [])).1
        db := some st'
        log := w.log ++ [⟨id, w.server, argv, some cmd, reply⟩] } := by
      unfold serve
      dsimp only
      rw [hprocess, hprocs, ← hfind]
      dsimp only
      rw [hsame]
    rw [heq]
    refine ⟨hcommands, h.clients, h.server, st', _, rfl, hrep', ?_⟩
    refine hserial.answered ?_ (hrequest reply) hexec hans
    rw [← hfind]
    exact hfound

end Session

end RedisCore
