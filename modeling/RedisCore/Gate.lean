/-
# `RedisCore.Gate` — what stands in front of a command (server.c, multi.c)

`processCommand` looks a command up, checks the number of its arguments and whether the client
has given the password, and refuses it if the server cannot take it; only then it is executed, or
queued in a transaction.  A refusal inside a transaction is marked, except the one of a server that
is still loading.

A command that is executed changes the keyspace, which is a parameter here; AUTH, MULTI, DISCARD
and WATCH change the client.
-/
import RedisCore.Networking.Replies

namespace RedisCore

namespace Gate

/-- The procedures that `processCommand` tells apart, and all others. -/
inductive Proc
  | authCommand
  | execCommand
  | discardCommand
  | multiCommand
  | watchCommand
  | pingCommand
  | other (j : Nat)
  deriving DecidableEq

/-- `struct redisCommand`: the fields that `processCommand` reads. -/
structure RedisCommand where
  name : Bytes
  proc : Proc
  arity : Int
  /-- `CMD_WRITE` -/
  write : Bool
  /-- `CMD_LOADING` -/
  loading : Bool

/-- The fields of `server` that `processCommand` reads; `aofLastWriteErrno` is the text of an
error of the last write to the AOF. -/
structure Server where
  requirepass : Option Bytes
  stopWritesOnBgsaveErr : Bool
  saveparamslen : Nat
  lastbgsaveErr : Bool
  aofLastWriteErrno : Option Bytes
  masterhost : Bool
  loading : Bool

/-- The fields of a client: `authenticated`, the flags of transactions, and the queue. -/
structure Client where
  authenticated : Bool
  multi : Bool
  dirtyCas : Bool
  dirtyExec : Bool
  mstate : List (RedisCommand × List Bytes)

/-- What becomes of a command. -/
inductive Outcome
  | quit
  | refused
  | loading
  | queued (cmd : RedisCommand)
  | called (cmd : RedisCommand)

namespace Shared

def noautherr : Robj := .raw (cstr "-NOAUTH Authentication required.\r\n")
def bgsaveerr : Robj := .raw (cstr "-MISCONF Redis is configured to save RDB snapshots, but is " ++
  cstr "currently not able to persist on disk. Commands that may modify the data set are disabled. " ++
  cstr "Please check Redis logs for details about the error.\r\n")
def loadingerr : Robj := .raw (cstr "-LOADING Redis is loading the dataset in memory\r\n")
def queued : Robj := .raw (cstr "+QUEUED\r\n")

end Shared

/-! ## Passwords -/

def CONFIG_AUTHPASS_MAX_LEN : Nat := 512

/-- A buffer of zeros with a string copied to its front. -/
def passBuffer (s : Bytes) : Bytes := s ++ List.replicate (CONFIG_AUTHPASS_MAX_LEN - s.length) 0

/-- `time_independent_strcmp`; a `char` is signed. -/
def timeIndependentStrcmp (a b : Bytes) : BitVec 32 :=
  let a := cstring a
  let b := cstring b
  if a.length > CONFIG_AUTHPASS_MAX_LEN ∨ b.length > CONFIG_AUTHPASS_MAX_LEN then 1#32
  else
    let diff := (List.range CONFIG_AUTHPASS_MAX_LEN).foldl (fun diff j =>
      diff ||| (((passBuffer a).getD j 0).toBitVec ^^^ ((passBuffer b).getD j 0).toBitVec).signExtend 32) 0#32
    diff ||| (BitVec.ofNat 32 a.length ^^^ BitVec.ofNat 32 b.length)

/-! ## Commands -/

/-- `flagTransaction`. -/
def flagTransaction (c : Client) : Client := if c.multi then { c with dirtyExec := true } else c

/-- `authCommand`. -/
def authCommand (server : Server) (c : Client) (argv : List Bytes) : Client × List ReplyCall :=
  match server.requirepass with
  | none => (c, addReplyError "Client sent AUTH, but no password is set")
  | some pass =>
      if timeIndependentStrcmp (argv.getD 1 []) pass = 0#32 then
        ({ c with authenticated := true }, [.addReply RedisCore.Shared.ok])
      else ({ c with authenticated := false }, addReplyError "invalid password")

/-- `multiCommand`. -/
def multiCommand (c : Client) : Client × List ReplyCall :=
  if c.multi then (c, addReplyError "MULTI calls can not be nested")
  else ({ c with multi := true }, [.addReply RedisCore.Shared.ok])

/-- `discardCommand`, but for the keys that are watched. -/
def discardCommand (c : Client) : Client × List ReplyCall :=
  if c.multi then
    ({ c with mstate := [], multi := false, dirtyCas := false, dirtyExec := false },
      [.addReply RedisCore.Shared.ok])
  else (c, addReplyError "DISCARD without MULTI")

/-- `watchCommand`, but for the keys that are watched. -/
def watchCommand (c : Client) : Client × List ReplyCall :=
  if c.multi then (c, addReplyError "WATCH inside MULTI is not allowed")
  else (c, [.addReply RedisCore.Shared.ok])

variable {σ : Type}

/-- What all other procedures do to the keyspace, and what they reply. -/
abbrev Procs (σ : Type) := RedisCommand → List Bytes → σ → σ × List ReplyCall

/-- `call`; the body of `execCommand` is commented out. -/
def call (procs : Procs σ) (server : Server) (c : Client) (data : σ) (cmd : RedisCommand)
    (argv : List Bytes) : Client × σ × List ReplyCall :=
  match cmd.proc with
  | .authCommand => let r := authCommand server c argv; (r.1, data, r.2)
  | .multiCommand => let r := multiCommand c; (r.1, data, r.2)
  | .discardCommand => let r := discardCommand c; (r.1, data, r.2)
  | .watchCommand => let r := watchCommand c; (r.1, data, r.2)
  | .execCommand => (c, data, [])
  | .pingCommand | .other _ => let r := procs cmd argv data; (c, r.1, r.2)

/-- The commands that a transaction does not queue. -/
def Proc.immediate : Proc → Bool
  | .execCommand | .discardCommand | .multiCommand | .watchCommand => true
  | _ => false

/-- The number of arguments is wrong. -/
def RedisCommand.wrongArity (cmd : RedisCommand) (argc : Nat) : Bool :=
  (cmd.arity > 0 && cmd.arity ≠ argc) || argc < -cmd.arity

/-- The disk is in trouble and the command needs it. -/
def Server.misconf (server : Server) (cmd : RedisCommand) : Bool :=
  ((server.stopWritesOnBgsaveErr && server.saveparamslen > 0 && server.lastbgsaveErr) ||
    server.aofLastWriteErrno.isSome) && !server.masterhost &&
    (cmd.write || cmd.proc = .pingCommand)

/-- `processCommand`: the client, the keyspace, the reply and what became of the command. -/
def processCommand (lookup : Bytes → Option RedisCommand) (procs : Procs σ) (server : Server)
    (c : Client) (data : σ) (argv : List Bytes) : Client × σ × List ReplyCall × Outcome :=
  let name := argv.headD []
  if strcaseEq (cstring name) (cstr "quit") then (c, data, [.addReply RedisCore.Shared.ok], .quit)
  else
    match lookup name with
    | none =>
        (flagTransaction c, data,
          addReplyErrorFormat (cstr "unknown command '" ++ cstring name ++ cstr "'"), .refused)
    | some cmd =>
        if cmd.wrongArity argv.length then
          (flagTransaction c, data, addReplyErrorFormat
            (cstr "wrong number of arguments for '" ++ cmd.name ++ cstr "' command"), .refused)
        else if server.requirepass.isSome && !c.authenticated && cmd.proc ≠ .authCommand then
          (flagTransaction c, data, [.addReply Shared.noautherr], .refused)
        else if server.misconf cmd then
          (flagTransaction c, data,
            (match server.aofLastWriteErrno with
            | none => [.addReply Shared.bgsaveerr]
            | some text =>
                [.addReplySds (cstr "-MISCONF Errors writing to the AOF file: " ++ text ++ cstr "\r\n")]),
            .refused)
        else if server.loading && !cmd.loading then
          (c, data, [.addReply Shared.loadingerr], .loading)
        else if c.multi && !cmd.proc.immediate then
          ({ c with mstate := c.mstate ++ [(cmd, argv)] }, data, [.addReply Shared.queued], .queued cmd)
        else
          let r := call procs server c data cmd argv
          (r.1, r.2.1, r.2.2, .called cmd)

/-! ## The comparison -/

theorem signExtend_eq_zero : ∀ x : BitVec 8, x.signExtend 32 = 0#32 → x = 0#8 := by decide

theorem foldl_or_eq_zero {f : Nat → BitVec 32} (js : List Nat) (d : BitVec 32) :
    js.foldl (fun diff j => diff ||| f j) d = 0#32 ↔ d = 0#32 ∧ ∀ j ∈ js, f j = 0#32 := by
  induction js generalizing d with
  | nil => simp
  | cons j js ih =>
      rw [List.foldl_cons, ih, BitVec.or_eq_zero_iff, List.forall_mem_cons, and_assoc]

theorem passBuffer_left {s : Bytes} {j : Nat} (h : j < s.length) :
    (passBuffer s).getD j 0 = s.getD j 0 := by
  rw [passBuffer, List.getD_eq_getElem?_getD, List.getElem?_append_left h,
    ← List.getD_eq_getElem?_getD]

/-- **The comparison** finds two strings the same exactly if they are, and not too long. -/
theorem timeIndependentStrcmp_iff (a b : Bytes) :
    timeIndependentStrcmp a b = 0#32 ↔
      cstring a = cstring b ∧ (cstring a).length ≤ CONFIG_AUTHPASS_MAX_LEN := by
  have hmax : CONFIG_AUTHPASS_MAX_LEN = 512 := rfl
  unfold timeIndependentStrcmp
  dsimp only
  generalize cstring a = a
  generalize cstring b = b
  split
  · next hlong =>
      constructor
      · intro h
        exact absurd h (by decide)
      · rintro ⟨rfl, hle⟩
        omega
  · next hshort =>
      rw [BitVec.or_eq_zero_iff, foldl_or_eq_zero, BitVec.xor_eq_zero_iff]
      constructor
      · rintro ⟨⟨-, hsame⟩, hcount⟩
        have hcount := congrArg BitVec.toNat hcount
        rw [BitVec.toNat_ofNat, BitVec.toNat_ofNat, Nat.mod_eq_of_lt (by omega),
          Nat.mod_eq_of_lt (by omega)] at hcount
        refine ⟨List.ext_getElem hcount fun j hj hj' => ?_, by omega⟩
        have hbyte := signExtend_eq_zero _ (hsame j (List.mem_range.mpr (by omega)))
        rw [BitVec.xor_eq_zero_iff, passBuffer_left hj, passBuffer_left hj', List.getD_eq_getElem?_getD,
          List.getD_eq_getElem?_getD, List.getElem?_eq_getElem hj, List.getElem?_eq_getElem hj'] at hbyte
        exact UInt8.toBitVec_inj.mp hbyte
      · rintro ⟨rfl, -⟩
        refine ⟨⟨rfl, fun j _ => ?_⟩, rfl⟩
        rw [BitVec.xor_self]
        rfl

/-! ## Runs -/

/-- The clients, the keyspace, and what has become of every command so far, with the client that
sent it. -/
structure State (σ : Type) where
  clients : Nat → Client
  data : σ
  history : List (Nat × List Bytes × Outcome)

/-- What can happen to a client. -/
inductive Event
  /-- a command, at a time when the server is like this -/
  | command (id : Nat) (server : Server) (argv : List Bytes)
  /-- `touchWatchedKey` -/
  | touched (id : Nat)

def step (lookup : Bytes → Option RedisCommand) (procs : Procs σ) (s : State σ) : Event → State σ
  | .command id server argv =>
      let r := processCommand lookup procs server (s.clients id) s.data argv
      ⟨Function.update s.clients id r.1, r.2.1, s.history ++ [(id, argv, r.2.2.2)]⟩
  | .touched id =>
      { s with clients := Function.update s.clients id { s.clients id with dirtyCas := true } }

def run (lookup : Bytes → Option RedisCommand) (procs : Procs σ) (s : State σ) (es : List Event) :
    State σ := es.foldl (step lookup procs) s

/-- Clients as they connect; nothing initialises their queues. -/
def connected (mstate : Nat → List (RedisCommand × List Bytes)) (data : σ) : State σ :=
  ⟨fun id => ⟨false, false, false, false, mstate id⟩, data, []⟩

/-- An argument of AUTH is the password, as C reads them. -/
def Opens (pass : Bytes) (argv : List Bytes) : Prop :=
  cstring (argv.getD 1 []) = cstring pass ∧
    (cstring (argv.getD 1 [])).length ≤ CONFIG_AUTHPASS_MAX_LEN

instance (pass : Bytes) (argv : List Bytes) : Decidable (Opens pass argv) := by
  unfold Opens
  infer_instance

/-- Whether the password is known after one more command. -/
def knows (pass : Bytes) (known : Bool) (argv : List Bytes) : Outcome → Bool
  | .called cmd => if cmd.proc = .authCommand then decide (Opens pass argv) else known
  | _ => known

/-- The last AUTH of a client that was executed gave the password. -/
def Knows (pass : Bytes) (id : Nat) (history : List (Nat × List Bytes × Outcome)) : Bool :=
  history.foldl (fun known h => if h.1 = id then knows pass known h.2.1 h.2.2 else known) false

/-- In a transaction, and whether a command was refused in it, after one more command. -/
def spoil (t : Bool × Bool) : Outcome → Bool × Bool
  | .refused => if t.1 then (true, true) else t
  | .called cmd =>
      match cmd.proc with
      | .multiCommand => if t.1 then t else (true, t.2)
      | .discardCommand => if t.1 then (false, false) else t
      | _ => t
  | _ => t

/-- A client is in a transaction, and whether a command was refused in it. -/
def Transaction (id : Nat) (history : List (Nat × List Bytes × Outcome)) : Bool × Bool :=
  history.foldl (fun t h => if h.1 = id then spoil t h.2.2 else t) (false, false)

/-- What a command makes of the keyspace if it was executed. -/
def play (procs : Procs σ) (data : σ) (argv : List Bytes) : Outcome → σ
  | .called cmd =>
      match cmd.proc with
      | .pingCommand | .other _ => (procs cmd argv data).1
      | _ => data
  | _ => data

/-- What the commands of all clients that were executed make of the keyspace. -/
def Played (procs : Procs σ) (data : σ) (history : List (Nat × List Bytes × Outcome)) : σ :=
  history.foldl (fun data h => play procs data h.2.1 h.2.2) data

/-- A command that has come through: it is in the table, with as many arguments as it takes, and
the client had given the password or it is AUTH. -/
def Passes (lookup : Bytes → Option RedisCommand) (known : Bool) (argv : List Bytes)
    (cmd : RedisCommand) : Prop :=
  lookup (argv.headD []) = some cmd ∧ cmd.wrongArity argv.length = false ∧
    (cmd.proc = .authCommand ∨ known = true)

/-- Every command of a history that was executed or queued has come through. -/
def Guarded (lookup : Bytes → Option RedisCommand) (pass : Bytes)
    (history : List (Nat × List Bytes × Outcome)) : Prop :=
  ∀ before id argv outcome after, history = before ++ (id, argv, outcome) :: after →
    ∀ cmd, outcome = .called cmd ∨ outcome = .queued cmd →
      Passes lookup (Knows pass id before) argv cmd

/-- What holds of the clients of a server that has a password. -/
structure Inv (lookup : Bytes → Option RedisCommand) (procs : Procs σ) (pass : Bytes) (data : σ)
    (s : State σ) : Prop where
  authenticated : ∀ id, (s.clients id).authenticated = Knows pass id s.history
  transaction : ∀ id, ((s.clients id).multi, (s.clients id).dirtyExec) = Transaction id s.history
  data : s.data = Played procs data s.history
  guarded : Guarded lookup pass s.history

variable {lookup : Bytes → Option RedisCommand} {procs : Procs σ} {pass : Bytes} {data : σ}
  {s : State σ} {server : Server} {c c' : Client} {id : Nat} {argv : List Bytes} {outcome : Outcome}
  {history : List (Nat × List Bytes × Outcome)}

theorem Knows_snoc (id id' : Nat) : Knows pass id (history ++ [(id', argv, outcome)]) =
    if id' = id then knows pass (Knows pass id history) argv outcome else Knows pass id history := by
  rw [Knows, List.foldl_append]
  rfl

theorem Transaction_snoc (id id' : Nat) : Transaction id (history ++ [(id', argv, outcome)]) =
    if id' = id then spoil (Transaction id history) outcome else Transaction id history := by
  rw [Transaction, List.foldl_append]
  rfl

theorem Played_snoc : Played procs data (history ++ [(id, argv, outcome)]) =
    play procs (Played procs data history) argv outcome := by
  rw [Played, List.foldl_append]
  rfl

/-- AUTH lets the client in exactly with the password. -/
theorem authCommand_authenticated (hpass : server.requirepass = some pass) (c : Client)
    (argv : List Bytes) : (authCommand server c argv).1.authenticated = decide (Opens pass argv) ∧
      (authCommand server c argv).1.multi = c.multi ∧
      (authCommand server c argv).1.dirtyExec = c.dirtyExec := by
  unfold authCommand
  rw [hpass]
  dsimp only
  by_cases hopens : Opens pass argv
  · rw [if_pos ((timeIndependentStrcmp_iff _ _).mpr hopens), decide_eq_true hopens]
    exact ⟨rfl, rfl, rfl⟩
  · rw [if_neg (fun h => hopens ((timeIndependentStrcmp_iff _ _).mp h)), decide_eq_false hopens]
    exact ⟨rfl, rfl, rfl⟩

/-- What one command has done, by what became of it. -/
structure Done (lookup : Bytes → Option RedisCommand) (procs : Procs σ) (pass : Bytes) (c : Client)
    (data : σ) (argv : List Bytes) (c' : Client) (data' : σ) (outcome : Outcome) : Prop where
  authenticated : c'.authenticated = knows pass c.authenticated argv outcome
  transaction : (c'.multi, c'.dirtyExec) = spoil (c.multi, c.dirtyExec) outcome
  data : data' = play procs data argv outcome
  passes : ∀ cmd, outcome = .called cmd ∨ outcome = .queued cmd →
    Passes lookup c.authenticated argv cmd

/-- What `call` does, by the procedure. -/
theorem call_spec (hpass : server.requirepass = some pass) (c : Client) (data : σ)
    (cmd : RedisCommand) (argv : List Bytes) :
    (call procs server c data cmd argv).1.authenticated =
        knows pass c.authenticated argv (.called cmd) ∧
      ((call procs server c data cmd argv).1.multi, (call procs server c data cmd argv).1.dirtyExec) =
        spoil (c.multi, c.dirtyExec) (.called cmd) ∧
      (call procs server c data cmd argv).2.1 = play procs data argv (.called cmd) := by
  unfold call knows spoil play
  dsimp only
  cases hproc : cmd.proc with
  | authCommand =>
      obtain ⟨hauth, hmulti, hdirty⟩ := authCommand_authenticated hpass c argv
      refine ⟨?_, ?_, rfl⟩
      · rw [if_pos rfl]
        exact hauth
      · rw [← hmulti, ← hdirty]
  | multiCommand =>
      unfold multiCommand
      cases hmulti : c.multi <;> exact ⟨rfl, by simp [hmulti], rfl⟩
  | discardCommand =>
      unfold discardCommand
      cases hmulti : c.multi <;> exact ⟨rfl, by simp [hmulti], rfl⟩
  | watchCommand =>
      unfold watchCommand
      cases hmulti : c.multi <;> exact ⟨rfl, by simp [hmulti], rfl⟩
  | execCommand => exact ⟨rfl, rfl, rfl⟩
  | pingCommand => exact ⟨rfl, rfl, rfl⟩
  | other j => exact ⟨rfl, rfl, rfl⟩

/-- A command that is refused marks a transaction and does nothing else. -/
theorem done_refused : Done lookup procs pass c data argv (flagTransaction c) data .refused := by
  refine ⟨?_, ?_, rfl, ?_⟩
  · unfold flagTransaction
    split <;> rfl
  · unfold flagTransaction spoil
    dsimp only
    split
    · next h => rw [h]
    · rfl
  · rintro cmd (h | h) <;> cases h

/-- **One command**: what `processCommand` does to the client and the keyspace. -/
theorem processCommand_done (hpass : server.requirepass = some pass) (c : Client) (data : σ)
    (argv : List Bytes) : ∃ c' data' reply outcome,
      processCommand lookup procs server c data argv = (c', data', reply, outcome) ∧
      Done lookup procs pass c data argv c' data' outcome := by
  unfold processCommand
  dsimp only
  split
  · refine ⟨_, _, _, _, rfl, rfl, rfl, rfl, ?_⟩
    rintro cmd (h | h) <;> cases h
  split
  · exact ⟨_, _, _, _, rfl, done_refused⟩
  next cmd hlookup =>
  split
  · exact ⟨_, _, _, _, rfl, done_refused⟩
  next harity =>
  split
  · exact ⟨_, _, _, _, rfl, done_refused⟩
  next hauth =>
  split
  · exact ⟨_, _, _, _, rfl, done_refused⟩
  split
  · refine ⟨_, _, _, _, rfl, rfl, rfl, rfl, ?_⟩
    rintro cmd (h | h) <;> cases h
  have hpasses : Passes lookup c.authenticated argv cmd := by
    refine ⟨hlookup, Bool.eq_false_iff.mpr harity, ?_⟩
    rw [hpass, Option.isSome_some, Bool.true_and, Bool.and_eq_true, not_and_or] at hauth
    rcases hauth with hauth | hauth
    · exact .inr (by simpa using hauth)
    · exact .inl (by simpa using hauth)
  split
  · refine ⟨_, _, _, _, rfl, rfl, rfl, rfl, ?_⟩
    rintro cmd' (h | h)
    · cases h
    · cases h
      exact hpasses
  · obtain ⟨hauth, htransaction, hdata⟩ := @call_spec _ procs pass server hpass c data cmd argv
    refine ⟨_, _, _, _, rfl, hauth, htransaction, hdata, ?_⟩
    rintro cmd' (h | h)
    · cases h
      exact hpasses
    · cases h

/-- A longer history is guarded if what is new has come through. -/
theorem Guarded.snoc (h : Guarded lookup pass history)
    (hlast : ∀ cmd, outcome = .called cmd ∨ outcome = .queued cmd →
      Passes lookup (Knows pass id history) argv cmd) :
    Guarded lookup pass (history ++ [(id, argv, outcome)]) := by
  intro before id' argv' outcome' after heq cmd hcmd
  rcases List.eq_nil_or_concat after with rfl | ⟨init, last, rfl⟩
  · obtain ⟨rfl, hsame⟩ := List.append_inj' heq rfl
    cases hsame
    exact hlast cmd hcmd
  · rw [List.concat_eq_append, ← List.cons_append, ← List.append_assoc] at heq
    obtain ⟨hinit, -⟩ := List.append_inj' heq rfl
    exact h before id' argv' outcome' init hinit cmd hcmd

/-- Every event keeps the invariant. -/
theorem step_inv (h : Inv lookup procs pass data s) (e : Event)
    (he : ∀ id server argv, e = .command id server argv → server.requirepass = some pass) :
    Inv lookup procs pass data (step lookup procs s e) := by
  cases e with
  | touched id =>
      refine ⟨fun id' => ?_, fun id' => ?_, h.data, h.guarded⟩
      · show (Function.update s.clients id _ id').authenticated = Knows pass id' s.history
        rw [← h.authenticated id', Function.update_apply]
        split
        · next heq => rw [heq]
        · rfl
      · show ((Function.update s.clients id _ id').multi,
          (Function.update s.clients id _ id').dirtyExec) = Transaction id' s.history
        rw [← h.transaction id', Function.update_apply]
        split
        · next heq => rw [heq]
        · rfl
  | command id server argv =>
      obtain ⟨c', data', reply, outcome, heq, hdone⟩ := @processCommand_done _ lookup procs pass server
        (he id server argv rfl) (s.clients id) s.data argv
      have hstep : step lookup procs s (.command id server argv) =
          ⟨Function.update s.clients id c', data', s.history ++ [(id, argv, outcome)]⟩ := by
        unfold step
        dsimp only
        rw [heq]
      rw [hstep]
      refine ⟨fun id' => ?_, fun id' => ?_, ?_, ?_⟩
      · show (Function.update s.clients id c' id').authenticated = _
        rw [Knows_snoc, ← h.authenticated id', Function.update_apply]
        split
        · next hid => rw [hid, if_pos rfl, hdone.authenticated]
        · next hid => rw [if_neg (Ne.symm hid)]
      · show ((Function.update s.clients id c' id').multi,
          (Function.update s.clients id c' id').dirtyExec) = _
        rw [Transaction_snoc, ← h.transaction id', Function.update_apply]
        split
        · next hid => rw [hid, if_pos rfl, hdone.transaction]
        · next hid => rw [if_neg (Ne.symm hid)]
      · show data' = _
        rw [Played_snoc, ← h.data]
        exact hdone.data
      · have hpasses := hdone.passes
        rw [h.authenticated id] at hpasses
        exact h.guarded.snoc hpasses

theorem run_inv (es : List Event)
    (hes : ∀ id server argv, .command id server argv ∈ es → server.requirepass = some pass)
    (h : Inv lookup procs pass data s) : Inv lookup procs pass data (run lookup procs s es) := by
  induction es generalizing s with
  | nil => exact h
  | cons e es ih =>
      refine ih (fun id server argv hmem => hes id server argv (List.mem_cons_of_mem e hmem))
        (step_inv h e fun id server argv heq => ?_)
      subst heq
      exact hes id server argv List.mem_cons_self

/-- AUTH, MULTI and SET, as their entries read; SET keeps what it was given. -/
def smallTable (name : Bytes) : Option RedisCommand :=
  if strcaseEq name (cstr "auth") then some ⟨cstr "auth", .authCommand, 2, false, true⟩
  else if strcaseEq name (cstr "multi") then some ⟨cstr "multi", .multiCommand, 1, false, false⟩
  else if strcaseEq name (cstr "set") then some ⟨cstr "set", .other 0, -3, true, false⟩
  else none

def keeping : Procs (List (List Bytes)) := fun _ argv data => (data ++ [argv], [])

def smallServer : Server := ⟨some (cstr "pw"), true, 0, false, none, false, false⟩

/-- Two clients: one never finds the password, the other one sets a key and then begins a
transaction, in which a command has too few arguments. -/
def smallRun : List Event :=
  [.command 0 smallServer [cstr "AUTH", cstr "px"],
    .command 1 smallServer [cstr "AUTH", cstr "pw"],
    .command 0 smallServer [cstr "SET", cstr "k", cstr "0"],
    .command 1 smallServer [cstr "SET", cstr "k", cstr "1"],
    .touched 0,
    .command 1 smallServer [cstr "MULTI"],
    .command 1 smallServer [cstr "SET", cstr "k"]]

/-- AUTH comes through to its procedure. -/
theorem small_auth {s : State (List (List Bytes))} {id : Nat} {word : Bytes}
    (hmulti : (s.clients id).multi = false) :
    step smallTable keeping s (.command id smallServer [cstr "AUTH", word]) =
      ⟨Function.update s.clients id (authCommand smallServer (s.clients id) [cstr "AUTH", word]).1,
        s.data, s.history ++
          [(id, [cstr "AUTH", word], .called ⟨cstr "auth", .authCommand, 2, false, true⟩)]⟩ := by
  have hquit : strcaseEq (cstring (cstr "AUTH")) (cstr "quit") = false := by decide
  have hlookup : smallTable (cstr "AUTH") = some ⟨cstr "auth", .authCommand, 2, false, true⟩ := rfl
  simp [step, processCommand, hquit, hlookup, RedisCommand.wrongArity, Server.misconf, smallServer,
    hmulti, call]

/-- The clients have sent their AUTH. -/
def authsSent : State (List (List Bytes)) :=
  ⟨fun id => ⟨id = 1, false, false, false, []⟩, [],
    [(0, [cstr "AUTH", cstr "px"], .called ⟨cstr "auth", .authCommand, 2, false, true⟩),
      (1, [cstr "AUTH", cstr "pw"], .called ⟨cstr "auth", .authCommand, 2, false, true⟩)]⟩

/-- The two comparisons are made by the lemma about them, not by evaluation. -/
theorem smallRun_auths : run smallTable keeping (connected (fun _ => []) []) smallRun =
    run smallTable keeping authsSent (smallRun.drop 2) := by
  have hwrong : timeIndependentStrcmp (cstr "px") (cstr "pw") ≠ 0#32 := by
    rw [Ne, timeIndependentStrcmp_iff]
    decide
  have hright : timeIndependentStrcmp (cstr "pw") (cstr "pw") = 0#32 := by
    rw [timeIndependentStrcmp_iff]
    decide
  have hpass : smallServer.requirepass = some (cstr "pw") := rfl
  have hno : ∀ c : Client, (authCommand smallServer c [cstr "AUTH", cstr "px"]).1 =
      { c with authenticated := false } := by
    intro c
    rw [authCommand, hpass]
    simp only [List.getD_cons_succ, List.getD_cons_zero, if_neg hwrong]
  have hyes : ∀ c : Client, (authCommand smallServer c [cstr "AUTH", cstr "pw"]).1 =
      { c with authenticated := true } := by
    intro c
    rw [authCommand, hpass]
    simp only [List.getD_cons_succ, List.getD_cons_zero, if_pos hright]
  have hfirst : ∀ s : State (List (List Bytes)), run smallTable keeping s smallRun =
      run smallTable keeping (step smallTable keeping (step smallTable keeping s
        (.command 0 smallServer [cstr "AUTH", cstr "px"]))
        (.command 1 smallServer [cstr "AUTH", cstr "pw"])) (smallRun.drop 2) := by
    intro s
    simp only [run, smallRun, List.foldl_cons, List.drop_succ_cons, List.drop_zero]
  rw [hfirst, @small_auth _ 0 _ rfl, hno, @small_auth _ 1 _ rfl, hyes]
  unfold authsSent
  congr 2
  funext id
  rcases id with _ | _ | id
  · rfl
  · rfl
  · simp [Function.update, connected]

end Gate

end RedisCore
