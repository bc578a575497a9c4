/-
# `RedisCore.Multi` — WATCH, UNWATCH, MULTI and DISCARD (multi.c)

A client keeps the list of the keys it watches, and every database the dict from a
key to the clients that watch it.  `Indexed` says that the two agree; it holds in
every state a run reaches, so the assertion of `unwatchAllKeys` never fails and
`touchWatchedKey` would flag exactly the clients that watch the key.

Nothing calls `touchWatchedKey`: the body of `signalModifiedKey` is commented out.
The second half of the file says what that costs.  `owed` keeps the books: which
clients have had a watched key modified under them since they last let go of their
keys.  The flag is right in every state of a run exactly if no step of the run
modifies a key that is being watched.
-/
import RedisCore.Modifies
import Mathlib.Data.List.Induction

namespace RedisCore

namespace Multi

/-- What a client can ask for here.  `select` stands for a call of `selectDb`. -/
inductive Request where
  | watch (keys : List Bytes)
  | unwatch
  | multi
  | discard
  | select (id : Int)
  | data (c : Command)

/-- The fields of a `client` that transactions use: the database, `watched_keys`, the
flags `CLIENT_MULTI`, `CLIENT_DIRTY_CAS` and `CLIENT_DIRTY_EXEC`, and the queue. -/
structure Client where
  db : Nat
  watchedKeys : List (Nat × Bytes)
  multi : Bool
  dirtyCas : Bool
  dirtyExec : Bool
  mstate : List Request

/-- The databases, the clock readings so far, and the clients. -/
structure Server where
  dbnum : Nat
  dbs : Nat → RedisDb
  ticks : Nat
  clients : ClientId → Client

def Server.setClient (s : Server) (c : ClientId) (cl : Client) : Server :=
  { s with clients := Function.update s.clients c cl }

def Server.setDb (s : Server) (d : Nat) (db : RedisDb) : Server :=
  { s with dbs := Function.update s.dbs d db }

/-- The clients that the index of a database names for a key. -/
def Server.watchers (s : Server) (d : Nat) (key : Bytes) : List ClientId :=
  ((s.dbs d).watchedKeys.lookup key).getD []

/-! ## The functions of multi.c -/

/-- Replace the list of clients of a key in the index of a database. -/
def Server.setWatchers (s : Server) (d : Nat) (key : Bytes) (clients : List ClientId) : Server :=
  s.setDb d { s.dbs d with watchedKeys :=
    if clients = [] then (s.dbs d).watchedKeys.erase key
    else (s.dbs d).watchedKeys.insert key clients }

/-- `watchForKey`. -/
def watchForKey (s : Server) (c : ClientId) (key : Bytes) : Server :=
  let cl := s.clients c
  if (cl.db, key) ∈ cl.watchedKeys then s
  else
    let clients := s.watchers cl.db key
    let s := s.setWatchers cl.db key (clients ++ [c])
    s.setClient c { cl with watchedKeys := cl.watchedKeys ++ [(cl.db, key)] }

/-- The loop of `unwatchAllKeys`; `none` where there is no list, or the client is not
on it. -/
def unwatchLoop (c : ClientId) : Server → List (Nat × Bytes) → Option Server
  | s, [] => some s
  | s, (d, key) :: rest =>
      match (s.dbs d).watchedKeys.lookup key with
      | none => none
      | some clients =>
          if c ∈ clients then unwatchLoop c (s.setWatchers d key (clients.erase c)) rest else none

/-- `unwatchAllKeys`. -/
def unwatchAllKeys (s : Server) (c : ClientId) : Option Server :=
  (unwatchLoop c s (s.clients c).watchedKeys).map
    (fun s => s.setClient c { s.clients c with watchedKeys := [] })

/-- `touchWatchedKey`. -/
def touchWatchedKey (s : Server) (d : Nat) (key : Bytes) : Server :=
  (s.watchers d key).foldl (fun s c => s.setClient c { s.clients c with dirtyCas := true }) s

/-- `discardTransaction`. -/
def discardTransaction (s : Server) (c : ClientId) : Option Server :=
  unwatchAllKeys (s.setClient c
    { s.clients c with mstate := [], multi := false, dirtyCas := false, dirtyExec := false }) c

/-- `selectDb`. -/
def selectDb (s : Server) (c : ClientId) (id : Int) : Server :=
  if id < 0 ∨ id ≥ s.dbnum then s else s.setClient c { s.clients c with db := id.toNat }

/-- A command on the database of the client. -/
def dataCommand (env : Env) (s : Server) (c : ClientId) (cmd : Command) :
    Option (Server × List ReplyCall) :=
  let d := (s.clients c).db
  match execCmd env ⟨s.dbs d, s.ticks⟩ cmd with
  | none => none
  | some (st, reply) => some ({ s.setDb d st.db with ticks := st.ticks }, reply)

/-- What inside a transaction is queued: all but MULTI, DISCARD and WATCH. -/
def Request.queues : Request → Bool
  | .unwatch | .data _ => true
  | _ => false

/-- One request of a client, as `processCommand` and the command procedures treat it. -/
def step (env : Env) (s : Server) (c : ClientId) (r : Request) :
    Option (Server × List ReplyCall) :=
  let cl := s.clients c
  if cl.multi && r.queues then
    some (s.setClient c { cl with mstate := cl.mstate ++ [r] }, [.addReply (.raw (cstr "+QUEUED\r\n"))])
  else
    match r with
    | .watch keys =>
        if cl.multi then some (s, addReplyError "WATCH inside MULTI is not allowed")
        else some (keys.foldl (fun s key => watchForKey s c key) s, [.addReply Shared.ok])
    | .unwatch =>
        (unwatchAllKeys s c).map (fun s =>
          (s.setClient c { s.clients c with dirtyCas := false }, [.addReply Shared.ok]))
    | .multi =>
        if cl.multi then some (s, addReplyError "MULTI calls can not be nested")
        else some (s.setClient c { cl with multi := true }, [.addReply Shared.ok])
    | .discard =>
        if !cl.multi then some (s, addReplyError "DISCARD without MULTI")
        else (discardTransaction s c).map (fun s => (s, [.addReply Shared.ok]))
    | .select id => some (selectDb s c id, [])
    | .data cmd => dataCommand env s c cmd

/-! ## The index -/

/-- The index and the clients' own lists agree. -/
structure Indexed (s : Server) : Prop where
  index : ∀ d key c, c ∈ s.watchers d key ↔ (d, key) ∈ (s.clients c).watchedKeys
  nodupIndex : ∀ d key, (s.watchers d key).Nodup
  nodupOwn : ∀ c, (s.clients c).watchedKeys.Nodup

@[simp] theorem setClient_same (s : Server) (c : ClientId) (cl : Client) :
    (s.setClient c cl).clients c = cl := Function.update_self _ _ _

theorem setClient_of_ne (s : Server) {c x : ClientId} (h : x ≠ c) (cl : Client) :
    (s.setClient c cl).clients x = s.clients x := Function.update_of_ne h _ _

@[simp] theorem setClient_dbs (s : Server) (c : ClientId) (cl : Client) :
    (s.setClient c cl).dbs = s.dbs := rfl

@[simp] theorem watchers_setClient (s : Server) (c : ClientId) (cl : Client) (d : Nat)
    (key : Bytes) : (s.setClient c cl).watchers d key = s.watchers d key := rfl

@[simp] theorem setWatchers_clients (s : Server) (d : Nat) (key : Bytes) (cs : List ClientId) :
    (s.setWatchers d key cs).clients = s.clients := rfl

theorem watchers_setWatchers (s : Server) (d d' : Nat) (key key' : Bytes) (cs : List ClientId) :
    (s.setWatchers d key cs).watchers d' key' = if d' = d ∧ key' = key then cs
      else s.watchers d' key' := by
  unfold Server.watchers Server.setWatchers Server.setDb
  by_cases hd : d' = d
  · subst hd
    simp only [Function.update_self, true_and]
    by_cases hk : key' = key
    · subst hk
      simp only [if_true]
      split
      · next h => rw [h, AList.lookup_erase]; rfl
      · rw [AList.lookup_insert]; rfl
    · simp only [hk, if_false]
      split
      · rw [AList.lookup_erase_ne hk]
      · rw [AList.lookup_insert_ne hk]
  · simp only [hd, false_and, if_false, Function.update_of_ne hd]

/-- The data of every database, which the index is no part of. -/
def SameData (s s' : Server) : Prop :=
  ∀ d, (s'.dbs d).dict = (s.dbs d).dict ∧ (s'.dbs d).expires = (s.dbs d).expires

theorem SameData.refl (s : Server) : SameData s s := fun _ => ⟨rfl, rfl⟩

theorem SameData.trans {a b c : Server} (h₁ : SameData a b) (h₂ : SameData b c) : SameData a c :=
  fun d => ⟨(h₂ d).1.trans (h₁ d).1, (h₂ d).2.trans (h₁ d).2⟩

theorem sameData_setWatchers (s : Server) (d : Nat) (key : Bytes) (cs : List ClientId) :
    SameData s (s.setWatchers d key cs) := by
  intro d'
  unfold Server.setWatchers Server.setDb
  by_cases hd : d' = d
  · subst hd; simp
  · simp [Function.update_of_ne hd]

/-- `watchForKey` adds the client to the index and the key to the client. -/
theorem watchForKey_spec {s : Server} (h : Indexed s) (c : ClientId) (key : Bytes) :
    Indexed (watchForKey s c key) ∧ SameData s (watchForKey s c key) ∧
      ∀ x, ((watchForKey s c key).clients x).dirtyCas = (s.clients x).dirtyCas := by
  simp only [watchForKey]
  split
  · exact ⟨h, SameData.refl s, fun _ => rfl⟩
  · next hnew =>
      have hout : c ∉ s.watchers (s.clients c).db key := fun hin => hnew ((h.index _ _ _).mp hin)
      refine ⟨⟨fun d k x => ?_, fun d k => ?_, fun x => ?_⟩, ?_, fun x => ?_⟩
      · rw [watchers_setClient, watchers_setWatchers]
        by_cases hx : x = c
        · subst hx
          rw [setClient_same]
          simp only [List.mem_append, List.mem_singleton, Prod.mk.injEq]
          by_cases hdk : d = (s.clients x).db ∧ k = key
          · simp [hdk]
          · rw [if_neg hdk]
            simp [hdk, h.index]
        · rw [setClient_of_ne _ hx, setWatchers_clients]
          by_cases hdk : d = (s.clients c).db ∧ k = key
          · rw [if_pos hdk, hdk.1, hdk.2]
            simp [hx, h.index]
          · rw [if_neg hdk]
            exact h.index d k x
      · rw [watchers_setClient, watchers_setWatchers]
        split
        · exact List.nodup_append.mpr ⟨h.nodupIndex _ _, List.nodup_singleton c,
            fun a ha b hb hab => hout ((hab.trans (List.mem_singleton.mp hb)) ▸ ha)⟩
        · exact h.nodupIndex d k
      · by_cases hx : x = c
        · subst hx
          rw [setClient_same]
          exact List.nodup_append.mpr ⟨h.nodupOwn x, List.nodup_singleton _,
            fun a ha b hb hab => hnew ((hab.trans (List.mem_singleton.mp hb)) ▸ ha)⟩
        · rw [setClient_of_ne _ hx, setWatchers_clients]
          exact h.nodupOwn x
      · exact sameData_setWatchers s _ _ _
      · by_cases hx : x = c
        · subst hx; rw [setClient_same]
        · rw [setClient_of_ne _ hx, setWatchers_clients]

/-- The loop of `unwatchAllKeys`, while the keys `ws` are still to be done. -/
theorem unwatchLoop_spec (c : ClientId) : ∀ (ws : List (Nat × Bytes)) {s : Server}, ws.Nodup →
    (∀ d key, c ∈ s.watchers d key ↔ (d, key) ∈ ws) →
    (∀ d key x, x ≠ c → (x ∈ s.watchers d key ↔ (d, key) ∈ (s.clients x).watchedKeys)) →
    (∀ d key, (s.watchers d key).Nodup) →
    ∃ s', unwatchLoop c s ws = some s' ∧ s'.clients = s.clients ∧ SameData s s' ∧
      (∀ d key, c ∉ s'.watchers d key) ∧
      (∀ d key x, x ≠ c → (x ∈ s'.watchers d key ↔ (d, key) ∈ (s'.clients x).watchedKeys)) ∧
      (∀ d key, (s'.watchers d key).Nodup) := by
  intro ws
  induction ws with
  | nil =>
      intro s _ hc hx hnd
      exact ⟨s, rfl, rfl, SameData.refl s, fun d key hin => by simpa using (hc d key).mp hin, hx, hnd⟩
  | cons w ws ih =>
      obtain ⟨d, key⟩ := w
      intro s hws hc hx hnd
      obtain ⟨hw, hws'⟩ := List.nodup_cons.mp hws
      have hin : c ∈ s.watchers d key := (hc d key).mpr List.mem_cons_self
      obtain ⟨cs, hcs⟩ : ∃ cs, (s.dbs d).watchedKeys.lookup key = some cs := by
        unfold Server.watchers at hin
        cases hl : (s.dbs d).watchedKeys.lookup key with
        | none => rw [hl] at hin; exact absurd hin (by simp)
        | some cs => exact ⟨cs, rfl⟩
      have hcs' : s.watchers d key = cs := by rw [Server.watchers, hcs]; rfl
      rw [hcs'] at hin
      have hndcs : cs.Nodup := hcs' ▸ hnd d key
      have hc' : ∀ d' k', c ∈ (s.setWatchers d key (cs.erase c)).watchers d' k' ↔ (d', k') ∈ ws := by
        intro d' k'
        rw [watchers_setWatchers]
        by_cases hdk : d' = d ∧ k' = key
        · rw [if_pos hdk, hdk.1, hdk.2]
          simp only [hndcs.not_mem_erase, false_iff]
          exact hw
        · rw [if_neg hdk, hc]
          simp [hdk]
      have hx' : ∀ d' k' x, x ≠ c → (x ∈ (s.setWatchers d key (cs.erase c)).watchers d' k' ↔
          (d', k') ∈ (s.clients x).watchedKeys) := by
        intro d' k' x hxc
        rw [watchers_setWatchers]
        by_cases hdk : d' = d ∧ k' = key
        · rw [if_pos hdk, hdk.1, hdk.2, List.mem_erase_of_ne hxc, ← hcs']
          exact hx d key x hxc
        · rw [if_neg hdk]
          exact hx d' k' x hxc
      have hnd' : ∀ d' k', ((s.setWatchers d key (cs.erase c)).watchers d' k').Nodup := by
        intro d' k'
        rw [watchers_setWatchers]
        split
        · exact hndcs.erase c
        · exact hnd d' k'
      obtain ⟨s', heq, hcl, hdata, h1, h2, h3⟩ := ih hws' hc' hx' hnd'
      exact ⟨s', by simp only [unwatchLoop, hcs, hin, if_true, heq], hcl,
        (sameData_setWatchers s _ _ _).trans hdata, h1, h2, h3⟩

/-- `unwatchAllKeys` never fails, and leaves the client nowhere in the index. -/
theorem unwatchAllKeys_spec {s : Server} (h : Indexed s) (c : ClientId) :
    ∃ s', unwatchAllKeys s c = some s' ∧ Indexed s' ∧ SameData s s' ∧
      (∀ x, (s'.clients x).dirtyCas = (s.clients x).dirtyCas) ∧
      (s'.clients c).watchedKeys = [] := by
  obtain ⟨s', heq, hcl, hdata, hc, hx, hnd⟩ := unwatchLoop_spec c (s.clients c).watchedKeys
    (h.nodupOwn c) (fun d key => h.index d key c) (fun d key x _ => h.index d key x) h.nodupIndex
  refine ⟨s'.setClient c { s'.clients c with watchedKeys := [] },
    by simp only [unwatchAllKeys, heq, Option.map_some], ⟨fun d key x => ?_, hnd, fun x => ?_⟩, hdata,
    fun x => ?_, by rw [setClient_same]⟩
  · rw [watchers_setClient]
    by_cases hxc : x = c
    · subst hxc
      rw [setClient_same]
      simp [hc d key]
    · rw [setClient_of_ne _ hxc]
      exact hx d key x hxc
  · by_cases hxc : x = c
    · subst hxc; rw [setClient_same]; exact List.nodup_nil
    · rw [setClient_of_ne _ hxc, hcl]; exact h.nodupOwn x
  · by_cases hxc : x = c
    · subst hxc; rw [setClient_same, hcl]
    · rw [setClient_of_ne _ hxc, hcl]

theorem unwatchLoop_clients (c : ClientId) : ∀ (ws : List (Nat × Bytes)) {s s' : Server},
    unwatchLoop c s ws = some s' → s'.clients = s.clients := by
  intro ws
  induction ws with
  | nil => intro s s' heq; cases heq; rfl
  | cons w ws ih =>
      intro s s' heq
      simp only [unwatchLoop] at heq
      split at heq
      · exact absurd heq (by simp)
      · split at heq
        · exact (ih heq).trans (setWatchers_clients _ _ _ _)
        · exact absurd heq (by simp)

/-- The other clients keep everything. -/
theorem unwatchAllKeys_others {s s' : Server} {c x : ClientId} (heq : unwatchAllKeys s c = some s')
    (hx : x ≠ c) : s'.clients x = s.clients x := by
  obtain ⟨s₁, hloop, rfl⟩ := Option.map_eq_some_iff.mp heq
  rw [setClient_of_ne _ hx, unwatchLoop_clients c _ hloop]

theorem watchForKey_others (s : Server) {c x : ClientId} (key : Bytes) (hx : x ≠ c) :
    (watchForKey s c key).clients x = s.clients x := by
  simp only [watchForKey]
  split
  · rfl
  · rw [setClient_of_ne _ hx, setWatchers_clients]

theorem selectDb_others (s : Server) {c x : ClientId} (id : Int) (hx : x ≠ c) :
    (selectDb s c id).clients x = s.clients x := by
  simp only [selectDb]
  split
  · rfl
  · rw [setClient_of_ne _ hx]

/-- What `touchWatchedKey` is for: it flags the clients that watch the key and no
others. -/
theorem touchWatchedKey_spec {s : Server} (h : Indexed s) (d : Nat) (key : Bytes) (x : ClientId) :
    ((touchWatchedKey s d key).clients x).dirtyCas
      = ((s.clients x).dirtyCas || decide ((d, key) ∈ (s.clients x).watchedKeys)) := by
  have hfold : ∀ (cs : List ClientId) (s : Server),
      ((cs.foldl (fun s c => s.setClient c { s.clients c with dirtyCas := true }) s).clients
        x).dirtyCas = ((s.clients x).dirtyCas || decide (x ∈ cs)) := by
    intro cs
    induction cs with
    | nil => intro s; simp
    | cons c cs ih =>
        intro s
        rw [List.foldl_cons, ih]
        by_cases hx : x = c
        · subst hx; simp
        · rw [setClient_of_ne _ hx]; simp [hx]
  rw [touchWatchedKey, hfold]
  simp only [h.index]

/-! ## One request -/

variable {env : Env}

/-- What every reachable state satisfies. -/
structure Good (s : Server) : Prop where
  indexed : Indexed s
  sub : ∀ d, (s.dbs d).ExpiresSub

theorem Good.sameData {s s' : Server} (h : Good s) (hi : Indexed s') (hd : SameData s s') :
    Good s' := by
  refine ⟨hi, fun d key hkey => ?_⟩
  rw [(hd d).1]
  rw [(hd d).2] at hkey
  exact h.sub d key hkey

/-- Changing flags of a client. -/
theorem Indexed.setClient {s : Server} (h : Indexed s) (c : ClientId) {cl : Client}
    (hw : cl.watchedKeys = (s.clients c).watchedKeys) : Indexed (s.setClient c cl) := by
  have hown : ∀ x, ((s.setClient c cl).clients x).watchedKeys = (s.clients x).watchedKeys := by
    intro x
    by_cases hx : x = c
    · subst hx; rw [setClient_same, hw]
    · rw [setClient_of_ne _ hx]
  exact ⟨fun d key x => by rw [watchers_setClient, hown]; exact h.index d key x, h.nodupIndex,
    fun x => by rw [hown]; exact h.nodupOwn x⟩

/-- A key of a database that a step has changed, seen afterwards: a successful SET of
it, or a removal. -/
def ModifiedKey (s s' : Server) (c : ClientId) (r : Request) (reply : List ReplyCall) (d : Nat)
    (k : Bytes) : Prop :=
  (∃ val opts, r = .data (.set k val opts) ∧ d = (s.clients c).db ∧
    reply = [.addReply Shared.ok]) ∨ (k ∈ (s.dbs d).dict ∧ k ∉ (s'.dbs d).dict)

/-- A key of a database that a request is going to change, seen beforehand. -/
def TouchesKey (env : Env) (s : Server) (c : ClientId) (r : Request) (d : Nat) (k : Bytes) :
    Prop :=
  ∃ cmd, r = .data cmd ∧ (s.clients c).multi = false ∧ d = (s.clients c).db ∧
    Touches env ⟨s.dbs d, s.ticks⟩ cmd k

/-- What a step is known to do. -/
structure StepSpec (env : Env) (s s' : Server) (c : ClientId) (r : Request)
    (reply : List ReplyCall) : Prop where
  good : Good s'
  flag : ∀ x, (s'.clients x).dirtyCas = true → (s.clients x).dirtyCas = true
  modified : ∀ d k, ModifiedKey s s' c r reply d k ↔ TouchesKey env s c r d k

/-- A step that leaves the data alone and does not answer a SET with OK. -/
theorem StepSpec.ofSameData {s s' : Server} {c : ClientId} {r : Request} {reply : List ReplyCall}
    (h : Good s) (hi : Indexed s') (hd : SameData s s')
    (hf : ∀ x, (s'.clients x).dirtyCas = true → (s.clients x).dirtyCas = true)
    (hr : (∀ cmd, r ≠ .data cmd) ∨ ((s.clients c).multi = true ∧ reply ≠ [.addReply Shared.ok])) :
    StepSpec env s s' c r reply := by
  refine ⟨h.sameData hi hd, hf, fun d k => ?_⟩
  constructor
  · rintro (⟨val, opts, hcmd, _, hok⟩ | ⟨hin, hout⟩)
    · rcases hr with hr | ⟨_, hr⟩
      · exact absurd hcmd (hr _)
      · exact absurd hok hr
    · rw [(hd d).1] at hout
      exact absurd hin hout
  · rintro ⟨cmd, hcmd, hm, _, _⟩
    rcases hr with hr | ⟨hr, _⟩
    · exact absurd hcmd (hr _)
    · rw [hr] at hm
      exact absurd hm (by simp)

theorem watchLoop_spec (c : ClientId) : ∀ (keys : List Bytes) {s : Server}, Indexed s →
    Indexed (keys.foldl (fun s key => watchForKey s c key) s) ∧
      SameData s (keys.foldl (fun s key => watchForKey s c key) s) ∧
      ∀ x, ((keys.foldl (fun s key => watchForKey s c key) s).clients x).dirtyCas
        = (s.clients x).dirtyCas := by
  intro keys
  induction keys with
  | nil => intro s h; exact ⟨h, SameData.refl s, fun _ => rfl⟩
  | cons key keys ih =>
      intro s h
      obtain ⟨h1, hd1, hf1⟩ := watchForKey_spec h c key
      obtain ⟨h2, hd2, hf2⟩ := ih h1
      exact ⟨h2, hd1.trans hd2, fun x => (hf2 x).trans (hf1 x)⟩

theorem dataCommand_spec (hm : env.Master) {s : Server} (h : Good s) (c : ClientId)
    (cmd : Command) (hmulti : (s.clients c).multi = false) :
    ∃ s' reply, dataCommand env s c cmd = some (s', reply) ∧
      StepSpec env s s' c (.data cmd) reply := by
  obtain ⟨st, reply, heq, heff⟩ :=
    @execCmd_effect _ ⟨s.dbs (s.clients c).db, s.ticks⟩ hm (h.sub _) cmd
  obtain ⟨d₀, hd₀⟩ : ∃ d₀, d₀ = (s.clients c).db := ⟨_, rfl⟩
  rw [← hd₀] at heq heff
  have hdb : ∀ d, ({ s.setDb d₀ st.db with ticks := st.ticks } : Server).dbs d
      = if d = d₀ then st.db else s.dbs d := by
    intro d
    by_cases hd : d = d₀
    · subst hd; rw [if_pos rfl]; exact Function.update_self _ _ _
    · rw [if_neg hd]; exact Function.update_of_ne hd _ _
  have hwatch : ∀ d, (({ s.setDb d₀ st.db with ticks := st.ticks } : Server).dbs d).watchedKeys
      = (s.dbs d).watchedKeys := by
    intro d
    rw [hdb]
    split
    · next hd => rw [hd]; exact heff.watched
    · rfl
  refine ⟨{ s.setDb d₀ st.db with ticks := st.ticks }, reply,
    by simp only [dataCommand, ← hd₀, heq], ⟨⟨?_, ?_⟩, fun _ hx => hx, fun d k => ?_⟩⟩
  · have hw : ∀ d key, ({ s.setDb d₀ st.db with ticks := st.ticks } : Server).watchers d key
        = s.watchers d key := by
      intro d key
      rw [Server.watchers, hwatch]
      rfl
    exact ⟨fun d key x => by rw [hw]; exact h.indexed.index d key x,
      fun d key => by rw [hw]; exact h.indexed.nodupIndex d key, h.indexed.nodupOwn⟩
  · intro d
    rw [hdb]
    split
    · exact heff.sub
    · exact h.sub d
  · rw [ModifiedKey, hdb, ← hd₀]
    by_cases hd : d = d₀
    · subst hd
      rw [if_pos rfl]
      have hmod := heff.modified k
      constructor
      · intro hk
        refine ⟨cmd, rfl, hmulti, hd₀, hmod.mp ?_⟩
        rcases hk with ⟨val, opts, hcmd, _, hok⟩ | hk
        · cases hcmd
          exact Or.inl ⟨val, opts, rfl, hok⟩
        · exact Or.inr hk
      · rintro ⟨cmd', hcmd, _, _, ht⟩
        cases hcmd
        rcases hmod.mpr ht with ⟨val, opts, hcmd', hok⟩ | hk
        · exact Or.inl ⟨val, opts, by rw [hcmd'], rfl, hok⟩
        · exact Or.inr hk
    · rw [if_neg hd]
      constructor
      · rintro (⟨_, _, _, hd', _⟩ | ⟨hin, hout⟩)
        · exact absurd hd' hd
        · exact absurd hin hout
      · rintro ⟨_, _, _, hd', _⟩
        exact absurd (hd'.trans hd₀.symm) hd

/-- `discardTransaction` takes the flag of the client away and nobody else's. -/
theorem discardTransaction_spec {s : Server} (h : Indexed s) (c : ClientId) :
    ∃ s', discardTransaction s c = some s' ∧ Indexed s' ∧ SameData s s' ∧
      ∀ x, (s'.clients x).dirtyCas = if x = c then false else (s.clients x).dirtyCas := by
  obtain ⟨cl, hcl⟩ : ∃ cl : Client, cl = Client.mk (s.clients c).db (s.clients c).watchedKeys
    false false false [] := ⟨_, rfl⟩
  have hclear : Indexed (s.setClient c cl) := h.setClient c (by rw [hcl])
  obtain ⟨s', heq, hi, hd, hf, _⟩ := unwatchAllKeys_spec hclear c
  refine ⟨s', by rw [discardTransaction, ← heq, hcl], hi, fun d => hd d, fun x => ?_⟩
  rw [hf]
  by_cases hx : x = c
  · subst hx; rw [setClient_same, if_pos rfl, hcl]
  · rw [setClient_of_ne _ hx, if_neg hx]

/-- **One request.**  It does not fail, keeps the state good, sets no client's
`CLIENT_DIRTY_CAS`, and changes exactly the keys it touches. -/
theorem step_spec (hm : env.Master) {s : Server} (h : Good s) (c : ClientId) (r : Request) :
    ∃ s' reply, step env s c r = some (s', reply) ∧ StepSpec env s s' c r reply := by
  -- a new record for the client with the same keys and no new flag
  have hset : ∀ (cl : Client) (reply : List ReplyCall),
      cl.watchedKeys = (s.clients c).watchedKeys → (cl.dirtyCas = true →
        (s.clients c).dirtyCas = true) →
      ((∀ cmd, r ≠ .data cmd) ∨ ((s.clients c).multi = true ∧ reply ≠ [.addReply Shared.ok])) →
      StepSpec env s (s.setClient c cl) c r reply := by
    intro cl reply hw hf hr
    refine StepSpec.ofSameData h (h.indexed.setClient c hw) (SameData.refl s) (fun x hx => ?_) hr
    by_cases hxc : x = c
    · subst hxc
      rw [setClient_same] at hx
      exact hf hx
    · rwa [setClient_of_ne _ hxc] at hx
  have hself : ∀ reply, (∀ cmd, r ≠ .data cmd) → StepSpec env s s c r reply := fun reply hr =>
    StepSpec.ofSameData h h.indexed (SameData.refl s) (fun _ hx => hx) (Or.inl hr)
  have hdb : ∀ id, (∀ cmd, r ≠ .data cmd) → StepSpec env s (selectDb s c id) c r [] := by
    intro id hr
    unfold selectDb
    split
    · exact hself _ hr
    · exact hset _ _ rfl (fun hd => hd) (Or.inl hr)
  cases hmulti : (s.clients c).multi with
  | true =>
      cases r with
      | unwatch =>
          refine ⟨_, _, by simp only [step, hmulti, Request.queues, Bool.and_self, if_true]; rfl, ?_⟩
          exact hset _ _ rfl id (Or.inl (by simp))
      | data cmd =>
          refine ⟨_, _, by simp only [step, hmulti, Request.queues, Bool.and_self, if_true]; rfl, ?_⟩
          exact hset _ _ rfl id (Or.inr ⟨hmulti, by decide⟩)
      | watch keys =>
          exact ⟨s, _, by simp [step, hmulti, Request.queues]; rfl, hself _ (by simp)⟩
      | multi => exact ⟨s, _, by simp [step, hmulti, Request.queues]; rfl, hself _ (by simp)⟩
      | select id =>
          exact ⟨_, _, by simp only [step, hmulti, Request.queues, Bool.and_false]; rfl,
            hdb id (by simp)⟩
      | discard =>
          obtain ⟨s', heq, hi, hd, hf⟩ := discardTransaction_spec h.indexed c
          refine ⟨s', _, by simp only [step, hmulti, Request.queues, Bool.and_false,
            Bool.not_true, heq]; rfl, ?_⟩
          refine StepSpec.ofSameData h hi hd (fun x hx => ?_) (Or.inl (by simp))
          rw [hf] at hx
          by_cases hxc : x = c
          · rw [if_pos hxc] at hx; exact absurd hx (by simp)
          · rwa [if_neg hxc] at hx
  | false =>
      cases r with
      | unwatch =>
          obtain ⟨s', heq, hi, hd, hf, _⟩ := unwatchAllKeys_spec h.indexed c
          refine ⟨_, _, by simp only [step, hmulti, Bool.false_and, heq]; rfl, ?_⟩
          refine StepSpec.ofSameData h (hi.setClient c rfl) (fun d => hd d) (fun x hx => ?_)
            (Or.inl (by simp))
          by_cases hxc : x = c
          · subst hxc; rw [setClient_same] at hx; exact absurd hx (by simp)
          · rwa [setClient_of_ne _ hxc, hf] at hx
      | data cmd =>
          obtain ⟨s', reply, heq, hspec⟩ := dataCommand_spec hm h c cmd hmulti
          exact ⟨s', reply, by simpa [step, hmulti] using heq, hspec⟩
      | watch keys =>
          obtain ⟨hi, hd, hf⟩ := watchLoop_spec c keys h.indexed
          refine ⟨_, _, by simp only [step, hmulti, Bool.false_and]; rfl, ?_⟩
          exact StepSpec.ofSameData h hi hd (fun x hx => (hf x) ▸ hx) (Or.inl (by simp))
      | multi =>
          obtain ⟨cl, hcl⟩ : ∃ cl : Client, cl = { s.clients c with multi := true } := ⟨_, rfl⟩
          refine ⟨s.setClient c cl, [.addReply Shared.ok], by simp [step, hmulti, hcl],
            hset cl _ (by rw [hcl]) (fun hd => ?_) (Or.inl (by simp))⟩
          rwa [hcl] at hd
      | select id => exact ⟨_, _, by simp only [step, hmulti, Bool.false_and]; rfl, hdb id (by simp)⟩
      | discard =>
          exact ⟨s, _, by simp only [step, hmulti, Bool.false_and]; rfl, hself _ (by simp)⟩

/-! ## Runs, and what the clients are owed -/

/-- A server with empty databases whose clients have just connected. -/
def init (dbnum : Nat) : Server where
  dbnum := dbnum
  dbs := fun _ => RedisDb.empty
  ticks := 0
  clients := fun _ => ⟨0, [], false, false, false, []⟩

/-- A client lets go of its keys: UNWATCH, or DISCARD of a transaction. -/
def Releases (s : Server) (c : ClientId) (r : Request) (x : ClientId) : Prop :=
  x = c ∧ ((r = .unwatch ∧ (s.clients c).multi = false) ∨
    (r = .discard ∧ (s.clients c).multi = true))

/-- Who is owed the flag after a step: who was and has not let go, and everyone who was
watching a key the step has modified. -/
def owedAfter (s s' : Server) (c : ClientId) (r : Request) (reply : List ReplyCall)
    (owed : ClientId → Prop) (x : ClientId) : Prop :=
  (owed x ∧ ¬ Releases s c r x) ∨
    ∃ d k, (d, k) ∈ (s.clients x).watchedKeys ∧ ModifiedKey s s' c r reply d k

/-- A run of requests, with the books. -/
def serverRun (env : Env) : Server → (ClientId → Prop) → List (ClientId × Request) →
    Option (Server × (ClientId → Prop))
  | s, owed, [] => some (s, owed)
  | s, owed, (c, r) :: rest =>
      match step env s c r with
      | none => none
      | some (s', reply) => serverRun env s' (owedAfter s s' c r reply owed) rest

theorem serverRun_snoc (c : ClientId) (r : Request) : ∀ (reqs : List (ClientId × Request))
    (s : Server) (owed : ClientId → Prop),
    serverRun env s owed (reqs ++ [(c, r)]) = (serverRun env s owed reqs).bind (fun p =>
      (step env p.1 c r).map (fun q => (q.1, owedAfter p.1 q.1 c r q.2 p.2))) := by
  intro reqs
  induction reqs with
  | nil =>
      intro s owed
      simp only [List.nil_append, serverRun, Option.bind_some]
      cases step env s c r with
      | none => rfl
      | some q => rfl
  | cons cr reqs ih =>
      intro s owed
      simp only [List.cons_append, serverRun]
      cases step env s cr.1 cr.2 with
      | none => rfl
      | some q => exact ih _ _

theorem init_good (dbnum : Nat) : Good (init dbnum) := by
  refine ⟨⟨fun d key c => ?_, fun d key => ?_, fun c => List.nodup_nil⟩, fun d key hkey => ?_⟩
  · simp [Server.watchers, init, RedisDb.empty]
  · simp [Server.watchers, init, RedisDb.empty]
  · exact absurd hkey (by simp [init, RedisDb.empty])

/-- **Every run.**  It does not fail, and at its end no client has the flag. -/
theorem serverRun_spec (hm : env.Master) (dbnum : Nat) (owed : ClientId → Prop)
    (reqs : List (ClientId × Request)) :
    ∃ s owed', serverRun env (init dbnum) owed reqs = some (s, owed') ∧ Good s ∧
      ∀ x, (s.clients x).dirtyCas = false := by
  induction reqs using List.reverseRecOn with
  | nil => exact ⟨init dbnum, owed, rfl, init_good dbnum, fun _ => rfl⟩
  | append_singleton reqs cr ih =>
      obtain ⟨c, r⟩ := cr
      obtain ⟨s, owed', heq, hgood, hflag⟩ := ih
      obtain ⟨s', reply, hstep, hspec⟩ := step_spec hm hgood c r
      refine ⟨s', owedAfter s s' c r reply owed', ?_, hspec.good, fun x => ?_⟩
      · rw [serverRun_snoc, heq, Option.bind_some, hstep]
        rfl
      · cases hx : (s'.clients x).dirtyCas with
        | false => rfl
        | true =>
            have hold := hspec.flag x hx
            rw [hflag x] at hold
            exact absurd hold (by simp)

/-- The flags say in every state of the run who is owed one. -/
def FlagsRight (env : Env) (dbnum : Nat) (reqs : List (ClientId × Request)) : Prop :=
  ∀ pre, pre <+: reqs → ∃ s owed, serverRun env (init dbnum) (fun _ => False) pre = some (s, owed) ∧
    ∀ x, (s.clients x).dirtyCas = true ↔ owed x

/-- No step of the run is about to modify a key that a client is watching. -/
def WatchedUntouched (env : Env) (dbnum : Nat) (reqs : List (ClientId × Request)) : Prop :=
  ∀ pre c r, pre ++ [(c, r)] <+: reqs → ∀ s owed,
    serverRun env (init dbnum) (fun _ => False) pre = some (s, owed) →
    ∀ d k, TouchesKey env s c r d k → ∀ x, (d, k) ∉ (s.clients x).watchedKeys

theorem watchedUntouched_of_flagsRight (hm : env.Master) {dbnum : Nat}
    {reqs : List (ClientId × Request)} (hflags : FlagsRight env dbnum reqs) :
    WatchedUntouched env dbnum reqs := by
  intro pre c r hpre s owed heq d k htouch x hwatch
  obtain ⟨s₁, owed₁, heq₁, hgood, _⟩ := serverRun_spec hm dbnum (fun _ => False) pre
  rw [heq] at heq₁
  cases heq₁
  obtain ⟨s', reply, hstep, hspec⟩ := step_spec hm hgood c r
  have hnext : serverRun env (init dbnum) (fun _ => False) (pre ++ [(c, r)])
      = some (s', owedAfter s s' c r reply owed) := by
    rw [serverRun_snoc, heq, Option.bind_some, hstep]
    rfl
  obtain ⟨s₂, owed₂, heq₂, hright⟩ := hflags _ hpre
  rw [hnext] at heq₂
  cases heq₂
  have hset := (hright x).mpr (Or.inr ⟨d, k, hwatch, (hspec.modified d k).mpr htouch⟩)
  -- but no run sets a flag
  obtain ⟨s₃, owed₃, heq₃, _, hnone⟩ := serverRun_spec hm dbnum (fun _ => False) (pre ++ [(c, r)])
  rw [hnext] at heq₃
  cases heq₃
  rw [hnone x] at hset
  exact absurd hset (by simp)

theorem flagsRight_of_watchedUntouched (hm : env.Master) {dbnum : Nat}
    {reqs : List (ClientId × Request)} (huntouched : WatchedUntouched env dbnum reqs) :
    FlagsRight env dbnum reqs := by
  intro pre
  induction pre using List.reverseRecOn with
  | nil => intro _; exact ⟨init dbnum, _, rfl, fun x => by simp [init]⟩
  | append_singleton pre cr ih =>
      obtain ⟨c, r⟩ := cr
      intro hpre
      obtain ⟨s, owed, heq, hright⟩ := ih ((List.prefix_append _ _).trans hpre)
      obtain ⟨s₁, owed₁, heq₁, hgood, hnone⟩ := serverRun_spec hm dbnum (fun _ => False) pre
      rw [heq] at heq₁
      cases heq₁
      obtain ⟨s', reply, hstep, hspec⟩ := step_spec hm hgood c r
      refine ⟨s', owedAfter s s' c r reply owed, ?_, fun x => ⟨fun hx => ?_, ?_⟩⟩
      · rw [serverRun_snoc, heq, Option.bind_some, hstep]
        rfl
      · have hold := hspec.flag x hx
        rw [hnone x] at hold
        exact absurd hold (by simp)
      · rintro (⟨howed, _⟩ | ⟨d, k, hwatch, hmod⟩)
        · have hold := (hright x).mpr howed
          rw [hnone x] at hold
          exact absurd hold (by simp)
        · exact absurd hwatch
            (huntouched pre c r hpre s owed heq d k ((hspec.modified d k).mp hmod) x)

/-- **WATCH is safe** in exactly the runs that leave every watched key alone. -/
theorem flagsRight_iff (hm : env.Master) (dbnum : Nat) (reqs : List (ClientId × Request)) :
    FlagsRight env dbnum reqs ↔ WatchedUntouched env dbnum reqs :=
  ⟨watchedUntouched_of_flagsRight hm, flagsRight_of_watchedUntouched hm⟩

/-- Client 1 watches `k`, and client 2 sets the key `a`. -/
def watchAndSet (k a : Bytes) : List (ClientId × Request) :=
  [(1, .watch [k]), (2, .data (.set a (mkArg "v" (by decide)) []))]

theorem serverRun_watch (k : Bytes) :
    ∃ owed, serverRun env (init 16) (fun _ => False) [(1, .watch [k])]
      = some (watchForKey (init 16) 1 k, owed) :=
  ⟨_, rfl⟩

theorem watchForKey_init (k : Bytes) (x : ClientId) :
    ((watchForKey (init 16) 1 k).clients x).watchedKeys = if x = 1 then [(0, k)] else [] := by
  by_cases hx : x = 1
  · subst hx; rfl
  · rw [if_neg hx]
    simp only [watchForKey, init, List.not_mem_nil, if_false]
    rw [setClient_of_ne _ hx]
    rfl

/-- Setting the very key: client 1 is owed the flag and does not get it. -/
theorem watch_misses_set : ¬ FlagsRight steadyEnv 16 (watchAndSet (cstr "k") (cstr "k")) := by
  intro hflags
  obtain ⟨owed, hrun⟩ := @serverRun_watch steadyEnv (cstr "k")
  refine watchedUntouched_of_flagsRight steadyEnv_master hflags [(1, .watch [cstr "k"])] 2 _
    (List.prefix_refl _) _ owed hrun 0 (cstr "k") ⟨_, rfl, rfl, rfl, rfl, ⟨_, none, rfl, ?_⟩⟩ 1 ?_
  · exact Or.inl ⟨fun hnx => absurd hnx (by decide), fun hxx => absurd hxx (by decide)⟩
  · rw [watchForKey_init]
    exact List.mem_singleton.mpr rfl

/-- Setting another key is harmless. -/
theorem flagsRight_other_key :
    FlagsRight steadyEnv 16 (watchAndSet (cstr "k") (cstr "a")) := by
  refine (flagsRight_iff steadyEnv_master 16 _).mpr ?_
  intro pre c r hpre s owed heq d k htouch x hwatch
  obtain ⟨cmd, rfl, _, _, ht⟩ := htouch
  match pre, hpre with
  | [], hpre => simp [watchAndSet] at hpre
  | [a], hpre =>
      have hpre' := List.cons_prefix_cons.mp hpre
      obtain ⟨rfl, hpre'⟩ := hpre'
      obtain ⟨owed', hrun⟩ := @serverRun_watch steadyEnv (cstr "k")
      rw [heq] at hrun
      cases hrun
      rw [watchForKey_init] at hwatch
      have hcmd := (List.cons_prefix_cons.mp hpre').1
      cases hcmd
      have hk : k = cstr "a" := ht.1
      rw [hk] at hwatch
      split at hwatch
      · have hkey : cstr "a" = cstr "k" := congrArg Prod.snd (List.mem_singleton.mp hwatch)
        exact absurd hkey (by decide)
      · exact absurd hwatch (by simp)
  | a :: b :: rest, hpre => simp [watchAndSet, List.prefix_iff_eq_take] at hpre

end Multi

end RedisCore
