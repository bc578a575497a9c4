/-
# `RedisCore.Session.Runs` — the server and all of its clients

Any number of clients send bytes, whatever they are, and the server reads them in any order and in
pieces of any size.  Each read goes through the query buffer of its client and executes what is
complete; all commands go through `processCommand` to the one database.

What comes of it is one order of all commands (`Serial`), in which the commands of a client are in
the order in which it sent them.  Bytes that another client sends, and when, make no difference to
what a client's own commands are.
-/
import RedisCore.Session.Serve

namespace RedisCore

namespace Session

open Gate (RedisCommand)
open Query (Modest isQuit Limited Sound Delivering Valid Waits Executes changing changed
  readQueryFromClient readlen request)

/-- What the server keeps of a client: its requests, the vectors of arguments that went to
`processCommand`, and whether the client is freed. -/
structure Conn where
  client : Query.Client
  handed : List (List Bytes)
  freed : Bool

structure World where
  server : Query.Server Shared
  conns : Nat → Conn

/-- The server and one client. -/
def World.state (w : World) (id : Nat) : Query.State Shared :=
  ⟨w.server, (w.conns id).client, (w.conns id).handed, (w.conns id).freed⟩

def World.put (w : World) (id : Nat) (s : Query.State Shared) : World :=
  ⟨s.server, Function.update w.conns id ⟨s.client, s.handed, s.freed⟩⟩

/-- `createClient`. -/
def Conn.fresh : Conn := ⟨Query.Client.fresh, [], false⟩

/-- The fields of the server that change by themselves: `gate` is what `processCommand` reads. -/
def World.config (w : World) (gate : Gate.Server) (now : Int) : World :=
  { w with server := { w.server with data := { w.server.data with server := gate }, mstime := now } }

/-- A server that has just started; nothing initialises the queues of transactions. -/
def World.init (gate : Gate.Server) (commands : Dict ShortSds Nat)
    (mstate : Nat → List (RedisCommand × List Bytes)) (pauseEnd now : Int) : World :=
  ⟨⟨⟨gate, commands, fun id => ⟨false, false, false, false, mstate id⟩, some DbState.init, []⟩, false,
    pauseEnd, now⟩, fun _ => .fresh⟩

/-- A master; the texts of errors are in one line. -/
def Master (gate : Gate.Server) : Prop := gate.masterhost = false ∧ OneLine gate

/-- The states of a server, with the bytes that it has read from each client. -/
inductive Reach (env : Env) (seed : UInt32) : World → (Nat → Bytes) → Prop
  | start {junk : Nat} {commands : Dict ShortSds Nat} (gate : Gate.Server)
      (mstate : Nat → List (RedisCommand × List Bytes)) (pauseEnd now : Int)
      (populated : populateCommandTable seed junk = some commands) (master : Master gate) :
      Reach env seed (World.init gate commands mstate pauseEnd now) (fun _ => [])
  | read {w : World} {sent : Nat → Bytes} {id : Nat} {b : Bytes} {s' : Query.State Shared}
      (h : Reach env seed w sent) (live : (w.conns id).freed = false) (some_ : b ≠ [])
      (fits : (b.length : Int) ≤ readlen (w.conns id).client)
      (read : readQueryFromClient (changing (serve env seed id)) (w.state id) (.data b) = .ok s') :
      Reach env seed (w.put id s') (Function.update sent id (sent id ++ b))
  | closed {w : World} {sent : Nat → Bytes} (h : Reach env seed w sent) (id : Nat) :
      Reach env seed { w with conns := Function.update w.conns id { w.conns id with freed := true } } sent
  | config {w : World} {sent : Nat → Bytes} (h : Reach env seed w sent) (gate : Gate.Server) (now : Int)
      (master : Master gate) : Reach env seed (w.config gate now) sent

/-- The commands of a client in a log. -/
def commandsOf (id : Nat) (log : List Entry) : List (List Bytes) :=
  (log.filter (fun e => e.id = id)).map Entry.argv

/-- What holds of the clients of a server. -/
structure Holds (w : World) : Prop where
  unpaused : w.server.clientsPaused = false
  clients : ∀ id, (w.conns id).freed = false → Sound (w.conns id).client ∧ Limited (w.conns id).client
  order : ∀ id, commandsOf id w.server.data.log =
    (w.conns id).handed.filter (fun argv => isQuit argv = false)

variable {env : Env} {seed : UInt32} {w : World} {sent : Nat → Bytes} {id : Nat}

/-! ## Reads -/

theorem commandsOf_append (log log' : List Entry) :
    commandsOf id (log ++ log') = commandsOf id log ++ commandsOf id log' := by
  rw [commandsOf, List.filter_append, List.map_append]
  rfl

/-- The entries that a read adds to the log. -/
theorem serve_log (cmds : List (List Bytes)) (d : Shared) : ∃ new,
    (cmds.foldl (changed (serve env seed id)) d).log = d.log ++ new ∧ (∀ e ∈ new, e.id = id) ∧
      new.map Entry.argv = cmds.filter (fun argv => isQuit argv = false) ∧
      (cmds.foldl (changed (serve env seed id)) d).server = d.server := by
  induction cmds generalizing d with
  | nil => exact ⟨[], (List.append_nil _).symm, fun e he => absurd he List.not_mem_nil, rfl, rfl⟩
  | cons argv cmds ih =>
      rw [List.foldl_cons]
      cases hquit : isQuit argv with
      | true =>
          have hsame : changed (serve env seed id) d argv = d := by rw [changed, if_pos hquit]
          rw [hsame, List.filter_cons_of_neg (by rw [hquit]; decide)]
          exact ih d
      | false =>
          have hstep : changed (serve env seed id) d argv = serve env seed id d argv := by
            rw [changed, if_neg (by rw [hquit]; exact Bool.false_ne_true)]
          obtain ⟨new, hlog, hid, hargv, hserver⟩ := ih (serve env seed id d argv)
          rw [hstep, List.filter_cons_of_pos (by rw [hquit]; rfl)]
          obtain ⟨e, he, heid, heargv⟩ : ∃ e, (serve env seed id d argv).log = d.log ++ [e] ∧
              e.id = id ∧ e.argv = argv := ⟨_, rfl, rfl, rfl⟩
          refine ⟨e :: new, ?_, ?_, ?_, hserver⟩
          · rw [hlog, he, List.append_assoc]
            rfl
          · intro e' he'
            rcases List.mem_cons.mp he' with rfl | he'
            · exact heid
            · exact hid e' he'
          · rw [List.map_cons, hargv, heargv]

/-- **The commands of a read** keep what holds of the data. -/
theorem serveAll_inv (hm : env.Master) {cmds : List (List Bytes)} {d : Shared} (h : Inv env seed d)
    (hcmds : ∀ cmd ∈ cmds, Modest cmd)
    (hfits : ∀ e ∈ (cmds.foldl (changed (serve env seed id)) d).log, e.Fits env) :
    Inv env seed (cmds.foldl (changed (serve env seed id)) d) := by
  induction cmds generalizing d with
  | nil => exact h
  | cons argv cmds ih =>
      rw [List.foldl_cons] at hfits ⊢
      refine ih ?_ (fun cmd hcmd => hcmds cmd (List.mem_cons_of_mem argv hcmd)) hfits
      cases hquit : isQuit argv with
      | true =>
          rw [changed, if_pos hquit]
          exact h
      | false =>
          have hstep : changed (serve env seed id) d argv = serve env seed id d argv := by
            rw [changed, if_neg (by rw [hquit]; exact Bool.false_ne_true)]
          rw [hstep] at hfits ⊢
          refine serve_inv hm h (hcmds argv List.mem_cons_self) hquit fun e he => hfits e ?_
          obtain ⟨new, hlog, -⟩ := @serve_log env seed id cmds (serve env seed id d argv)
          rw [hlog]
          exact List.mem_append_left _ he

/-- The client after a read is sound. -/
theorem read_sound {s s' : Query.State Shared} {b : Bytes} (hsound : Sound s.client) (hb : b ≠ [])
    (hfree : s.freed = false) (hlen : (b.length : Int) ≤ readlen s.client)
    (hread : readQueryFromClient (changing (serve env seed id)) s (.data b) = .ok s')
    (hfree' : s'.freed = false) : Sound s'.client := by
  have hblen : ¬ b.length = 0 := fun h => hb (List.eq_nil_of_length_eq_zero h)
  unfold readQueryFromClient at hread
  dsimp only at hread
  rw [if_neg hblen] at hread
  split at hread
  · cases hread
    cases hfree'
  · next hfit =>
      have hstep : Query.Step (changing (serve env seed id)) s (s.received b) :=
        .arrive hfree hb hlen (Nat.not_lt.mp hfit)
      obtain ⟨s'', hloop, hsteps⟩ := Query.inputLoop_any (changing (serve env seed id)) _ (s.received b)
        (hsound.step hstep) (Nat.le_refl _)
      have hsame : s' = s'' := Except.ok.inj (hread.symm.trans hloop)
      rw [hsame]
      exact hsteps.sound (hsound.step hstep)

/-- A read of a sound client returns. -/
theorem read_returns {s : Query.State Shared} {b : Bytes} (hsound : Sound s.client)
    (hfree : s.freed = false) (hlen : (b.length : Int) ≤ readlen s.client) :
    ∃ s', readQueryFromClient (changing (serve env seed id)) s (.data b) = .ok s' := by
  unfold readQueryFromClient
  dsimp only
  split
  · exact ⟨_, rfl⟩
  next hblen =>
  split
  · exact ⟨_, rfl⟩
  next hfit =>
  have hstep : Query.Step (changing (serve env seed id)) s (s.received b) :=
    .arrive hfree (fun h => hblen (congrArg List.length h)) hlen (Nat.not_lt.mp hfit)
  obtain ⟨s', hloop, -⟩ := Query.inputLoop_any (changing (serve env seed id)) _ (s.received b)
    (hsound.step hstep) (Nat.le_refl _)
  exact ⟨s', hloop⟩

/-- **A read** keeps what holds of the clients. -/
theorem Holds.read (h : Holds w) {b : Bytes} {s' : Query.State Shared}
    (hlive : (w.conns id).freed = false) (hb : b ≠ [])
    (hlen : (b.length : Int) ≤ readlen (w.conns id).client)
    (hread : readQueryFromClient (changing (serve env seed id)) (w.state id) (.data b) = .ok s') :
    Holds (w.put id s') := by
  obtain ⟨hsound, hlim⟩ := h.clients id hlive
  have hother : ∀ id', id' ≠ id → (w.put id s').conns id' = w.conns id' := fun id' hne =>
    Function.update_of_ne hne _ _
  have hself : (w.put id s').conns id = ⟨s'.client, s'.handed, s'.freed⟩ := Function.update_self _ _ _
  rcases Query.read_executes (s := w.state id) h.unpaused hlive hlim hread with
    ⟨hfreed, hserver, hhanded, -⟩ | ⟨cmds, hexec⟩
  · refine ⟨?_, fun id' hfree => ?_, fun id' => ?_⟩
    · show s'.server.clientsPaused = false
      rw [hserver]
      exact h.unpaused
    · by_cases hid : id' = id
      · rw [hid, hself, hfreed] at hfree
        cases hfree
      · rw [hother id' hid] at hfree ⊢
        exact h.clients id' hfree
    · show commandsOf id' s'.server.data.log = _
      rw [hserver]
      by_cases hid : id' = id
      · rw [hid, hself, hhanded]
        exact h.order id
      · rw [hother id' hid]
        exact h.order id'
  · have hdata : s'.server.data = cmds.foldl (changed (serve env seed id)) w.server.data := by
      rw [hexec.server]
      rfl
    obtain ⟨new, hlog, hids, hargvs, -⟩ := @serve_log env seed id cmds w.server.data
    refine ⟨?_, fun id' hfree => ?_, fun id' => ?_⟩
    · show s'.server.clientsPaused = false
      rw [hexec.server]
      exact h.unpaused
    · by_cases hid : id' = id
      · rw [hid, hself] at hfree ⊢
        exact ⟨read_sound hsound hb hlive hlen hread hfree, (hexec.limits hlim).1⟩
      · rw [hother id' hid] at hfree ⊢
        exact h.clients id' hfree
    · show commandsOf id' s'.server.data.log = _
      rw [hdata, hlog, commandsOf_append, h.order id']
      by_cases hid : id' = id
      · have hall : commandsOf id new = cmds.filter (fun argv => isQuit argv = false) := by
          rw [commandsOf, List.filter_eq_self.mpr (fun e he => by simpa using hids e he), hargvs]
        rw [hid, hself, hall, hexec.handed, List.filter_append]
        rfl
      · have hnone : commandsOf id' new = [] := by
          rw [commandsOf, List.filter_eq_nil_iff.mpr (fun e he => by
            rw [decide_eq_true_eq, hids e he]
            exact Ne.symm hid)]
          rfl
        rw [hother id' hid, hnone, List.append_nil]

/-- A read appends to the log, and keeps what holds of the data. -/
theorem read_inv (hm : env.Master) (h : Holds w) {b : Bytes} {s' : Query.State Shared}
    (hlive : (w.conns id).freed = false)
    (hread : readQueryFromClient (changing (serve env seed id)) (w.state id) (.data b) = .ok s') :
    w.server.data.log <+: s'.server.data.log ∧
      (Inv env seed w.server.data → (∀ e ∈ s'.server.data.log, e.Fits env) →
        Inv env seed s'.server.data) := by
  have hlim := (h.clients id hlive).2
  rcases Query.read_executes (s := w.state id) h.unpaused hlive hlim hread with
    ⟨-, hserver, -⟩ | ⟨cmds, hexec⟩
  · rw [hserver]
    exact ⟨List.prefix_refl _, fun hinv _ => hinv⟩
  · have hdata : s'.server.data = cmds.foldl (changed (serve env seed id)) w.server.data := by
      rw [hexec.server]
      rfl
    obtain ⟨new, hlog, -⟩ := @serve_log env seed id cmds w.server.data
    rw [hdata]
    exact ⟨⟨new, hlog.symm⟩, fun hinv hfits =>
      serveAll_inv hm hinv (fun cmd hcmd => ((hexec.limits hlim).2 cmd hcmd).1) hfits⟩

/-! ## Runs -/

theorem Reach.holds (h : Reach env seed w sent) : Holds w := by
  induction h with
  | start gate mstate pauseEnd now populated master =>
      refine ⟨rfl, fun id _ => ⟨Query.sound_fresh (⟨(), false, 0, 0⟩ : Query.Server Unit), ?_⟩,
        fun id => rfl⟩
      exact ⟨Nat.zero_le _, fun a ha => absurd ha List.not_mem_nil, Nat.zero_le _, Nat.zero_le _⟩
  | read _ live some_ fits read ih => exact ih.read live some_ fits read
  | @closed w sent _ id ih =>
      have hhanded : ∀ id', (Function.update w.conns id { w.conns id with freed := true } id').handed =
          (w.conns id').handed := by
        intro id'
        by_cases hid : id' = id
        · rw [hid, Function.update_self]
        · rw [Function.update_of_ne hid]
      refine ⟨ih.unpaused, fun id' hfree => ?_, fun id' => ?_⟩
      · by_cases hid : id' = id
        · have hfreed : (Function.update w.conns id { w.conns id with freed := true } id).freed = true := by
            rw [Function.update_self]
          rw [hid] at hfree
          exact absurd (hfreed.symm.trans hfree) (by decide)
        · have hsame : Function.update w.conns id { w.conns id with freed := true } id' = w.conns id' :=
            Function.update_of_ne hid _ _
          dsimp only at hfree ⊢
          rw [hsame] at hfree ⊢
          exact ih.clients id' hfree
      · show _ = ((Function.update w.conns id { w.conns id with freed := true } id').handed).filter _
        rw [hhanded]
        exact ih.order id'
  | config _ gate now master ih => exact ⟨ih.unpaused, ih.clients, ih.order⟩

/-- **The data** of every reachable state. -/
theorem Reach.inv (hm : env.Master) (h : Reach env seed w sent)
    (hfits : ∀ e ∈ w.server.data.log, e.Fits env) : Inv env seed w.server.data := by
  induction h with
  | @start junk commands gate mstate pauseEnd now populated master =>
      obtain ⟨commands', hpop, htable⟩ := populateCommandTable_spec seed junk
      have hsame : commands' = commands := Option.some.inj (hpop.symm.trans populated)
      rw [hsame] at htable
      exact ⟨htable, fun id => ⟨rfl, rfl⟩, master, _, _, rfl, represents_init, .start⟩
  | read h live some_ fits read ih =>
      obtain ⟨hlog, hkeep⟩ := read_inv hm h.holds live read
      exact hkeep (ih fun e he => hfits e (hlog.subset he)) hfits
  | closed _ id ih => exact ih hfits
  | config _ gate now master ih =>
      have hinv := ih hfits
      exact ⟨hinv.commands, hinv.clients, master, hinv.serial⟩

/-! ## A client that sends requests -/

theorem put_state (w : World) (id : Nat) (s : Query.State Shared) : (w.put id s).state id = s := by
  have hself : (w.put id s).conns id = ⟨s.client, s.handed, s.freed⟩ := Function.update_self _ _ _
  rw [World.state, hself]
  rfl

/-- Between two reads: the client was handed the first of its commands and waits for the next, in
service. -/
structure Served (cmds : List (List Bytes)) (w : World) (id : Nat) (t : Bytes)
    (todo : List (List Bytes)) : Prop where
  delivering : Delivering cmds (w.state id) t todo
  isOpen : (w.state id).service.isOpen = true

/-- What others do makes no difference. -/
theorem Served.other {cmds todo : List (List Bytes)} {t : Bytes} (h : Served cmds w id t todo)
    {w' : World} (hconn : w'.conns id = w.conns id) (hpause : w.server.clientsPaused = false)
    (hpause' : w'.server.clientsPaused = false) : Served cmds w' id t todo := by
  have hopen : (w'.state id).service.isOpen = true := by
    have hopen := h.isOpen
    rw [Query.isOpen_of_unpaused hpause] at hopen
    rw [Query.isOpen_of_unpaused hpause', ← hopen]
    simp only [World.state, Query.State.service, hconn]
  have hclient : (w'.state id).client = (w.state id).client := congrArg Conn.client hconn
  have hhanded : (w'.state id).handed = (w.state id).handed := congrArg Conn.handed hconn
  refine ⟨⟨?_, ?_, .inl hopen, ?_, ?_⟩, hopen⟩
  · rw [hhanded]
    exact h.delivering.split
  · rw [hclient]
    exact h.delivering.errors
  · rw [hclient]
    exact h.delivering.done
  · rw [hclient]
    exact h.delivering.waits

/-- A client that sends requests is served as long as it is connected. -/
theorem Reach.served (h : Reach env seed w sent) {cmds : List (List Bytes)}
    (hvalid : ∀ cmd ∈ cmds, Valid cmd) (hquit : ∀ cmd ∈ cmds, isQuit cmd = false) (id : Nat)
    {t : Bytes} (hsent : sent id ++ t = cmds.flatMap request) :
    (w.conns id).handed <+: cmds ∧
      ((w.conns id).freed = false → ∃ todo, Served cmds w id t todo) := by
  induction h generalizing t with
  | start gate mstate pauseEnd now populated master =>
      refine ⟨List.nil_prefix, fun _ => ?_⟩
      rw [List.nil_append] at hsent
      subst hsent
      obtain ⟨todo, hdelivering⟩ := (@Query.Delivery.fresh _ (changing (serve env seed id)) cmds
        (World.init gate _ mstate pauseEnd now).server rfl).delivering hvalid
      exact ⟨todo, hdelivering, rfl⟩
  | @read w sent id' b s' h live some_ fits read ih =>
      have hholds := h.holds
      have hholds' := hholds.read live some_ fits read
      by_cases hid : id = id'
      · subst hid
        rw [Function.update_self, List.append_assoc] at hsent
        obtain ⟨todo, hserved⟩ := (ih hsent).2 live
        have hdel := hserved.delivering
        cases todo with
        | nil => exact absurd (List.append_eq_nil_iff.mp (hdel.done rfl).1).1 some_
        | cons cmd later =>
            have hmem : ∀ x ∈ cmd :: later, x ∈ cmds := fun x hx => by
              rw [hdel.split]
              exact List.mem_append_right _ hx
            have hopen := Query.read_stays_open (hdel.waits cmd later rfl) hserved.isOpen hholds.unpaused
              (hholds.clients id live).2 (fun x hx => hvalid x (hmem x hx))
              (fun x hx => hquit x (hmem x hx)) some_ fits read
            obtain ⟨todo', hdel'⟩ := hdel.read hvalid some_ fits read (.inl hopen)
            have hstate : (w.put id s').conns id = ⟨s'.client, s'.handed, s'.freed⟩ :=
              Function.update_self _ _ _
            rw [hstate]
            refine ⟨⟨todo', hdel'.split.symm⟩, fun _ => ⟨todo', ?_, ?_⟩⟩
            · rw [put_state]
              exact hdel'
            · rw [put_state]
              exact hopen
      · have hconn : (w.put id' s').conns id = w.conns id := Function.update_of_ne hid _ _
        rw [Function.update_of_ne hid] at hsent
        obtain ⟨hbegin, hlater⟩ := ih hsent
        rw [hconn]
        refine ⟨hbegin, fun hfree => ?_⟩
        obtain ⟨todo, hserved⟩ := hlater hfree
        exact ⟨todo, hserved.other hconn hholds.unpaused hholds'.unpaused⟩
  | @closed w sent h id' ih =>
      obtain ⟨hbegin, hlater⟩ := ih hsent
      by_cases hid : id = id'
      · subst hid
        dsimp only
        rw [Function.update_self]
        exact ⟨hbegin, fun hfree => by cases hfree⟩
      · have hconn : Function.update w.conns id' { w.conns id' with freed := true } id = w.conns id :=
          Function.update_of_ne hid _ _
        dsimp only
        rw [hconn]
        refine ⟨hbegin, fun hfree => ?_⟩
        obtain ⟨todo, hserved⟩ := hlater hfree
        exact ⟨todo, hserved.other hconn h.holds.unpaused h.holds.unpaused⟩
  | config h gate now master ih =>
      obtain ⟨hbegin, hlater⟩ := ih hsent
      refine ⟨hbegin, fun hfree => ?_⟩
      obtain ⟨todo, hserved⟩ := hlater hfree
      exact ⟨todo, hserved.other rfl h.holds.unpaused h.holds.unpaused⟩

/-- A read, if the client is there and asks for that many bytes. -/
def World.read (env : Env) (seed : UInt32) (w : World) (id : Nat) (b : Bytes) : Option World :=
  if (w.conns id).freed = false ∧ b ≠ [] ∧ (b.length : Int) ≤ readlen (w.conns id).client then
    (readQueryFromClient (changing (serve env seed id)) (w.state id) (.data b)).toOption.map (w.put id)
  else none

/-- Reads one after the other. -/
def World.reads (env : Env) (seed : UInt32) : World → List (Nat × Bytes) → Option World
  | w, [] => some w
  | w, (id, b) :: more => (w.read env seed id b).bind (fun w => w.reads env seed more)

theorem Reach.reads {w w' : World} {more : List (Nat × Bytes)} {sent : Nat → Bytes}
    (h : Reach env seed w sent) (hreads : w.reads env seed more = some w') :
    ∃ sent', Reach env seed w' sent' := by
  induction more generalizing w sent with
  | nil =>
      cases hreads
      exact ⟨sent, h⟩
  | cons r more ih =>
      obtain ⟨id, b⟩ := r
      obtain ⟨w₁, hread, hreads⟩ := Option.bind_eq_some_iff.mp hreads
      unfold World.read at hread
      split at hread
      · next hok =>
          obtain ⟨hlive, hb, hlen⟩ := hok
          obtain ⟨s', hs', rfl⟩ := Option.map_eq_some_iff.mp hread
          cases hrun : readQueryFromClient (changing (serve env seed id)) (w.state id) (.data b) with
          | error e =>
              rw [hrun] at hs'
              cases hs'
          | ok s =>
              rw [hrun] at hs'
              cases hs'
              exact ih (h.read hlive hb hlen hrun) hreads
      · cases hread

/-- A command without options asks for no deadline. -/
theorem fits_of_short {e : Entry} (h : e.argv.length ≤ 3) : e.Fits env := by
  intro key val opts flags ttl hreq hset n
  exfalso
  obtain ⟨cmd, -, hreq⟩ := Option.bind_eq_some_iff.mp hreq
  split at hreq
  · unfold commandOf at hreq
    split at hreq
    · cases hreq
    · obtain ⟨val', -, hreq⟩ := Option.bind_eq_some_iff.mp hreq
      obtain ⟨opts', hopts, hreq⟩ := Option.map_eq_some_iff.mp hreq
      rw [List.drop_eq_nil_iff.mpr h] at hopts
      cases hopts
      cases hreq
      cases hset
    · split at hreq <;> cases hreq
    · cases hreq
  · cases hreq

/-- A server without a password, with its data loaded and its disk in order. -/
def quietGate : Gate.Server := ⟨none, true, 3, false, none, false, false⟩

def quietWorld : World :=
  .init quietGate ((populateCommandTable 5381 0).getD dictCreate) (fun _ => []) 0 0

/-- One client sets a key in two pieces; another one asks for it before and after the second; a
third one sends nonsense. -/
def smallReads : List (Nat × Bytes) :=
  [(0, cstr "*3\r\n$3\r\nSET\r\n$1\r\nk"), (1, cstr "GET k\r\n"), (0, cstr "\r\n$1\r\nv\r\n"),
    (1, cstr "get k\r\n"), (2, cstr "nonsense\r\n")]

theorem smallReads_reach : ∃ w sent, Reach steadyEnv 5381 w sent ∧
    w.server.data.log.map (fun e => (e.id, replyBytes e.reply)) =
      [(1, cstr "$-1\r\n"), (0, cstr "+OK\r\n"), (1, cstr "$1\r\nv\r\n"),
        (2, cstr "-ERR unknown command 'nonsense'\r\n")] ∧
    ∀ e ∈ w.server.data.log, e.Fits steadyEnv := by
  have hpop : populateCommandTable 5381 0 = some ((populateCommandTable 5381 0).getD dictCreate) := by
    obtain ⟨commands, hpop, -⟩ := populateCommandTable_spec 5381 0
    rw [hpop]
    rfl
  have hstart : Reach steadyEnv 5381 quietWorld (fun _ => []) :=
    .start quietGate (fun _ => []) 0 0 hpop ⟨rfl, fun _ h => by cases h⟩
  have hlog : (quietWorld.reads steadyEnv 5381 smallReads).map (fun w =>
      (w.server.data.log.map (fun e => (e.id, replyBytes e.reply)),
        w.server.data.log.all (fun e => e.argv.length ≤ 3))) =
      some ([(1, cstr "$-1\r\n"), (0, cstr "+OK\r\n"), (1, cstr "$1\r\nv\r\n"),
        (2, cstr "-ERR unknown command 'nonsense'\r\n")], true) := by
    decide +kernel
  obtain ⟨w, hw, hboth⟩ := Option.map_eq_some_iff.mp hlog
  obtain ⟨hreplies, hshort⟩ := Prod.mk.inj hboth
  obtain ⟨sent, hreach⟩ := hstart.reads hw
  exact ⟨w, sent, hreach, hreplies, fun e he =>
    fits_of_short (of_decide_eq_true (List.all_eq_true.mp hshort e he))⟩

end Session

end RedisCore
