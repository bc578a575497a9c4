/-
# `RedisCore.Watch` — the index of watched keys (multi.c)

The dict `watched_keys` of a database leads from a key to the clients that watch it, the
list `watched_keys` of a client to what it watches.  A key is an object: the dict compares
the strings of two keys (`dictObjKeyCompare`), the scan of a client's list the objects
(`equalStringObjects`).  The dict takes only objects that are not encoded as integers, as
arguments of commands are.  The contents of a dict are a list of its entries; a value is a
pointer to a list, so that changing the list changes the entry.

Clients come and go: using one that is not there makes an operation fail, and so does the
assertion of `unwatchAllKeys`.  Taking a key as its bytes, this is the index of `Multi`.
-/
import RedisCore.Compare
import RedisCore.Multi

namespace RedisCore

namespace Watch

open CInt

/-- A string object that is not encoded as an integer, with what it spells; the length is
one for which the difference of two is an `int`. -/
structure KeyObj where
  val : Robj
  bytes : Bytes
  sds : val.sds? = some bytes
  short : bytes.length < 2 ^ 31

/-- `watchedKey`. -/
structure WatchedKey where
  key : KeyObj
  db : Nat

/-- The fields of a `client` that WATCH and DISCARD use. -/
structure Client where
  db : Nat
  watchedKeys : List WatchedKey
  multi : Bool
  dirtyCas : Bool
  dirtyExec : Bool
  mstate : List Multi.Request

/-- The clients that there are, and `watched_keys` of each database. -/
structure State where
  dbnum : Nat
  client : ClientId → Option Client
  watchedKeys : Nat → List (KeyObj × List ClientId)

def State.setClient (s : State) (c : ClientId) (cl : Option Client) : State :=
  { s with client := Function.update s.client c cl }

def State.setDict (s : State) (d : Nat) (dict : List (KeyObj × List ClientId)) : State :=
  { s with watchedKeys := Function.update s.watchedKeys d dict }

/-! ## The dict -/

/-- `dictSdsKeyCompare`. -/
def dictSdsKeyCompare (key1 key2 : Bytes) : Bool :=
  if toInt key1.length ≠ toInt key2.length then false else memcmp key1 key2 key1.length = 0

/-- `dictObjKeyCompare`. -/
def dictObjKeyCompare (key1 key2 : KeyObj) : Bool := dictSdsKeyCompare key1.bytes key2.bytes

/-- `dictFetchValue`. -/
def dictFetchValue (dict : List (KeyObj × List ClientId)) (key : KeyObj) : Option (List ClientId) :=
  (dict.find? (fun e => dictObjKeyCompare key e.1)).map Prod.snd

/-- `dictAdd`, which does nothing for a key that is there. -/
def dictAdd (dict : List (KeyObj × List ClientId)) (key : KeyObj) (val : List ClientId) :
    List (KeyObj × List ClientId) :=
  if (dictFetchValue dict key).isSome then dict else (key, val) :: dict

/-- `dictDelete`. -/
def dictDelete (dict : List (KeyObj × List ClientId)) (key : KeyObj) :
    List (KeyObj × List ClientId) :=
  dict.eraseP (fun e => dictObjKeyCompare key e.1)

/-- The dict when the list that the value of a key points to is changed. -/
def onList (dict : List (KeyObj × List ClientId)) (key : KeyObj)
    (f : List ClientId → List ClientId) : List (KeyObj × List ClientId) :=
  dict.map (fun e => if dictObjKeyCompare key e.1 then (e.1, f e.2) else e)

/-! ## The functions -/

/-- `createClient`, as far as these fields go. -/
def createClient (s : State) (c : ClientId) : State :=
  s.setClient c (some ⟨0, [], false, false, false, []⟩)

/-- `selectDb`. -/
def selectDb (s : State) (c : ClientId) (id : Int) : Option State :=
  (s.client c).map (fun cl =>
    if id < 0 ∨ id ≥ s.dbnum then s else s.setClient c (some { cl with db := id.toNat }))

/-- `watchForKey`. -/
def watchForKey (s : State) (c : ClientId) (key : KeyObj) : Option State :=
  (s.client c).map (fun cl =>
    if cl.watchedKeys.any (fun wk => wk.db = cl.db && equalStringObjects key.val wk.key.val) then s
    else
      let dict := s.watchedKeys cl.db
      let dict := if (dictFetchValue dict key).isNone then dictAdd dict key [] else dict
      let s := s.setDict cl.db (onList dict key (· ++ [c]))
      s.setClient c (some { cl with watchedKeys := cl.watchedKeys ++ [⟨key, cl.db⟩] }))

/-- The loop of `unwatchAllKeys`; it fails where there is no list of clients, which is the
assertion, or the client is not on it. -/
def unwatchLoop (c : ClientId) : List WatchedKey → State → Option State
  | [], s => some s
  | wk :: rest, s =>
      match dictFetchValue (s.watchedKeys wk.db) wk.key with
      | none => none
      | some clients =>
          if c ∈ clients then
            let dict := onList (s.watchedKeys wk.db) wk.key (·.erase c)
            let dict := if (clients.erase c).length = 0 then dictDelete dict wk.key else dict
            let s := s.setDict wk.db dict
            unwatchLoop c rest
              (s.setClient c ((s.client c).map (fun cl => { cl with watchedKeys := rest })))
          else none

/-- `unwatchAllKeys`. -/
def unwatchAllKeys (s : State) (c : ClientId) : Option State :=
  (s.client c).bind (fun cl =>
    if cl.watchedKeys.length = 0 then some s else unwatchLoop c cl.watchedKeys s)

/-- The loop of `touchWatchedKey`. -/
def touchLoop : List ClientId → State → Option State
  | [], s => some s
  | c :: clients, s =>
      match s.client c with
      | none => none
      | some cl => touchLoop clients (s.setClient c (some { cl with dirtyCas := true }))

/-- `touchWatchedKey`. -/
def touchWatchedKey (s : State) (d : Nat) (key : KeyObj) : Option State :=
  if (s.watchedKeys d).length = 0 then some s
  else
    match dictFetchValue (s.watchedKeys d) key with
    | none => some s
    | some clients => touchLoop clients s

/-- `discardTransaction`. -/
def discardTransaction (s : State) (c : ClientId) : Option State :=
  (s.client c).bind (fun cl => unwatchAllKeys (s.setClient c (some
    { cl with mstate := [], multi := false, dirtyCas := false, dirtyExec := false })) c)

/-- `freeClient`, as far as these fields go. -/
def freeClient (s : State) (c : ClientId) : Option State :=
  (unwatchAllKeys s c).map (fun s => s.setClient c none)

/-- A call. -/
inductive Op where
  | createClient (c : ClientId)
  | selectDb (c : ClientId) (id : Int)
  | watchForKey (c : ClientId) (key : KeyObj)
  | unwatchAllKeys (c : ClientId)
  | discardTransaction (c : ClientId)
  | freeClient (c : ClientId)
  | touchWatchedKey (d : Nat) (key : KeyObj)

/-- A client is created where there is none, and only a client that is there is used. -/
def Op.fits (s : State) : Op → Bool
  | .createClient c => (s.client c).isNone
  | .selectDb c _ | .watchForKey c _ | .unwatchAllKeys c | .discardTransaction c
  | .freeClient c => (s.client c).isSome
  | .touchWatchedKey .. => true

def step (s : State) (op : Op) : Option State :=
  if op.fits s then
    match op with
    | .createClient c => some (createClient s c)
    | .selectDb c id => selectDb s c id
    | .watchForKey c key => watchForKey s c key
    | .unwatchAllKeys c => unwatchAllKeys s c
    | .discardTransaction c => discardTransaction s c
    | .freeClient c => freeClient s c
    | .touchWatchedKey d key => touchWatchedKey s d key
  else none

def run (s : State) : List Op → Option State
  | [] => some s
  | op :: ops => (step s op).bind (run · ops)

def init (dbnum : Nat) : State := ⟨dbnum, fun _ => none, fun _ => []⟩

/-! ## Keys -/

variable {dict : List (KeyObj × List ClientId)} {key k : KeyObj}

theorem memcmp_eq_zero_iff : ∀ {s t : Bytes}, s.length = t.length →
    (memcmp s t s.length = 0 ↔ s = t) := by
  intro s t hlen
  obtain ⟨-, -, h⟩ := memcmp_spec s t
  rw [hlen, Nat.min_self] at h
  constructor
  · intro hcmp
    exact (h (hlen ▸ hcmp)).2.2 rfl
  · rintro rfl
    clear h hlen
    induction s with
    | nil => rfl
    | cons x s ih => rw [List.length_cons, memcmp, if_pos rfl, ih]

/-- **`dictObjKeyCompare`** compares what the keys spell. -/
theorem dictObjKeyCompare_iff : dictObjKeyCompare key k = true ↔ key.bytes = k.bytes := by
  have h₁ := key.short
  have h₂ := k.short
  unfold dictObjKeyCompare dictSdsKeyCompare
  rw [toInt_eq (by omega) (by omega), toInt_eq (by omega) (by omega)]
  by_cases hlen : key.bytes.length = k.bytes.length
  · rw [if_neg (by omega), decide_eq_true_eq, memcmp_eq_zero_iff hlen]
  · rw [if_pos (by omega)]
    exact ⟨fun h => absurd h (by simp), fun h => absurd (congrArg List.length h) hlen⟩

theorem KeyObj.val_bytes (key : KeyObj) : key.val.bytes = key.bytes := Robj.bytes_of_sds? key.sds

theorem KeyObj.ok (key : KeyObj) : key.val.Ok := by
  have h := key.sds
  cases hval : key.val with
  | int value => rw [hval] at h; exact absurd h (by simp [Robj.sds?])
  | raw s => trivial
  | embstr s => trivial
  | other type => trivial

/-- **`equalStringObjects`** compares what the keys spell. -/
theorem equalKeys_iff : equalStringObjects key.val k.val = true ↔ key.bytes = k.bytes := by
  rw [equalStringObjects_iff (by rw [key.val_bytes]; exact key.short)
    (by rw [k.val_bytes]; exact k.short) key.ok k.ok, key.val_bytes, k.val_bytes]

/-! ## The dict as a map from bytes -/

/-- The entries of a dict as those of a map, with one entry a key. -/
structure Denotes (dict : List (KeyObj × List ClientId)) (m : AList (fun _ : Bytes => List ClientId)) :
    Prop where
  lookup : ∀ key, dictFetchValue dict key = m.lookup key.bytes
  distinct : (dict.map (fun e => e.1.bytes)).Nodup

theorem dictObjKeyCompare_of_ne (h : key.bytes ≠ k.bytes) : dictObjKeyCompare key k = false :=
  Bool.eq_false_iff.mpr (fun hc => h (dictObjKeyCompare_iff.mp hc))

/-- A search among entries by a test of the key. -/
theorem find_entry_cons (compare : KeyObj → Bool) (e : KeyObj × List ClientId) :
    ((e :: dict).find? (fun e => compare e.1)).map Prod.snd =
      if compare e.1 then some e.2 else (dict.find? (fun e => compare e.1)).map Prod.snd := by
  cases h : compare e.1 <;> simp [h]

theorem dictFetchValue_cons (e : KeyObj × List ClientId) :
    dictFetchValue (e :: dict) k = if k.bytes = e.1.bytes then some e.2 else dictFetchValue dict k := by
  rw [dictFetchValue, find_entry_cons (dictObjKeyCompare k) e, ← dictFetchValue]
  by_cases h : k.bytes = e.1.bytes
  · rw [if_pos h, if_pos (dictObjKeyCompare_iff.mpr h)]
  · rw [if_neg h, if_neg (fun hc => h (dictObjKeyCompare_iff.mp hc))]

theorem dictFetchValue_eq_none :
    dictFetchValue dict k = none ↔ k.bytes ∉ dict.map (fun e => e.1.bytes) := by
  induction dict with
  | nil => simp [dictFetchValue]
  | cons e dict ih =>
      rw [dictFetchValue_cons, List.map_cons, List.mem_cons, not_or, ← ih]
      by_cases h : k.bytes = e.1.bytes
      · simp [h]
      · simp [h]

/-- A changed list of clients. -/
theorem dictFetchValue_onList (f : List ClientId → List ClientId) :
    dictFetchValue (onList dict key f) k =
      if k.bytes = key.bytes then (dictFetchValue dict k).map f else dictFetchValue dict k := by
  induction dict with
  | nil => simp [onList, dictFetchValue]
  | cons e dict ih =>
      rw [onList, List.map_cons, ← onList, dictFetchValue_cons, dictFetchValue_cons, ih]
      by_cases he : key.bytes = e.1.bytes
      · rw [if_pos (dictObjKeyCompare_iff.mpr he)]
        by_cases hk : k.bytes = key.bytes
        · simp [hk, he]
        · simp [hk, he ▸ hk]
      · rw [if_neg (fun hc => he (dictObjKeyCompare_iff.mp hc))]
        by_cases hk : k.bytes = key.bytes
        · simp [hk, he]
        · simp [hk]

theorem keys_map_values (compare : KeyObj → Bool) (f : List ClientId → List ClientId) :
    (dict.map (fun e => if compare e.1 then (e.1, f e.2) else e)).map (fun e => e.1.bytes) =
      dict.map (fun e => e.1.bytes) := by
  rw [List.map_map]
  refine List.map_congr_left (fun e _ => ?_)
  rw [Function.comp_apply]
  split <;> rfl

theorem keys_onList (f : List ClientId → List ClientId) :
    (onList dict key f).map (fun e => e.1.bytes) = dict.map (fun e => e.1.bytes) :=
  keys_map_values (dictObjKeyCompare key) f

theorem dictFetchValue_dictDelete (hd : (dict.map (fun e => e.1.bytes)).Nodup) :
    dictFetchValue (dictDelete dict key) k =
      if k.bytes = key.bytes then none else dictFetchValue dict k := by
  induction dict with
  | nil => simp [dictDelete, dictFetchValue]
  | cons e dict ih =>
      obtain ⟨hout, hd'⟩ := List.nodup_cons.mp hd
      by_cases he : key.bytes = e.1.bytes
      · rw [dictDelete, List.eraseP_cons, dictObjKeyCompare_iff.mpr he, cond_true,
          dictFetchValue_cons]
        by_cases hk : k.bytes = key.bytes
        · rw [if_pos hk, dictFetchValue_eq_none, hk, he]
          exact hout
        · rw [if_neg hk, if_neg (he ▸ hk)]
      · rw [dictDelete, List.eraseP_cons, dictObjKeyCompare_of_ne he, cond_false, ← dictDelete,
          dictFetchValue_cons, dictFetchValue_cons, ih hd']
        by_cases hk : k.bytes = key.bytes
        · simp only [hk, he, if_true, if_false]
        · simp only [hk, if_false]

variable {m : AList (fun _ : Bytes => List ClientId)} {c : ClientId} {clients : List ClientId}

/-- What `watchForKey` does to the dict. -/
theorem Denotes.watch (h : Denotes dict m) (key : KeyObj) (c : ClientId) :
    Denotes (onList (if (dictFetchValue dict key).isNone then dictAdd dict key [] else dict) key
      (· ++ [c])) (m.insert key.bytes ((m.lookup key.bytes).getD [] ++ [c])) := by
  constructor
  · intro k
    rw [dictFetchValue_onList]
    by_cases hk : k.bytes = key.bytes
    · rw [if_pos hk, hk, AList.lookup_insert, ← h.lookup key]
      cases hf : dictFetchValue dict key with
      | none =>
          rw [Option.isNone_none, if_pos rfl, dictAdd, hf, Option.isSome_none,
            if_neg Bool.false_ne_true, dictFetchValue_cons, if_pos hk]
          rfl
      | some clients =>
          rw [Option.isNone_some, if_neg Bool.false_ne_true, h.lookup k, hk, ← h.lookup key, hf]
          rfl
    · rw [if_neg hk, AList.lookup_insert_ne hk, ← h.lookup k]
      split
      · next hf =>
          rw [dictAdd, if_neg (by simpa using hf), dictFetchValue_cons, if_neg hk]
      · rfl
  · rw [keys_onList]
    split
    · next hf =>
        have hf := Option.isNone_iff_eq_none.mp hf
        rw [dictAdd, hf, Option.isSome_none, if_neg Bool.false_ne_true, List.map_cons]
        exact List.nodup_cons.mpr ⟨dictFetchValue_eq_none.mp hf, h.distinct⟩
    · exact h.distinct

/-- What `unwatchAllKeys` does to the dict for one key. -/
theorem Denotes.unwatch (h : Denotes dict m) (key : KeyObj) (c : ClientId)
    (hf : dictFetchValue dict key = some clients) :
    Denotes (if (clients.erase c).length = 0 then dictDelete (onList dict key (·.erase c)) key
      else onList dict key (·.erase c))
      (if clients.erase c = [] then m.erase key.bytes
        else m.insert key.bytes (clients.erase c)) := by
  have hd : ((onList dict key (·.erase c)).map (fun e => e.1.bytes)).Nodup := by
    rw [keys_onList]
    exact h.distinct
  by_cases hnil : clients.erase c = []
  · rw [if_pos (by rw [hnil]; rfl), if_pos hnil]
    constructor
    · intro k
      rw [dictFetchValue_dictDelete hd, dictFetchValue_onList]
      by_cases hk : k.bytes = key.bytes
      · rw [if_pos hk, hk, AList.lookup_erase]
      · rw [if_neg hk, if_neg hk, AList.lookup_erase_ne hk, h.lookup]
    · exact hd.sublist ((List.eraseP_sublist ..).map _)
  · rw [if_neg (fun hl => hnil (List.length_eq_zero_iff.mp hl)), if_neg hnil]
    constructor
    · intro k
      rw [dictFetchValue_onList]
      by_cases hk : k.bytes = key.bytes
      · rw [if_pos hk, hk, AList.lookup_insert, h.lookup, hk, ← h.lookup, hf]
        rfl
      · rw [if_neg hk, AList.lookup_insert_ne hk, h.lookup]
    · exact hd

/-! ## The index as that of `Multi` -/

/-- A watched key as its bytes. -/
def WatchedKey.pair (wk : WatchedKey) : Nat × Bytes := (wk.db, wk.key.bytes)

/-- A client as `Multi` has it. -/
def Client.toMulti (cl : Client) : Multi.Client :=
  ⟨cl.db, cl.watchedKeys.map WatchedKey.pair, cl.multi, cl.dirtyCas, cl.dirtyExec, cl.mstate⟩

variable {s s' : State} {t t' : Multi.Server} {cl : Client} {x : ClientId}

/-- A state and the server of `Multi` that it is. -/
structure Sim (s : State) (t : Multi.Server) : Prop where
  dbnum : t.dbnum = s.dbnum
  clients : ∀ c cl, s.client c = some cl → t.clients c = cl.toMulti
  freed : ∀ c, s.client c = none → (t.clients c).watchedKeys = []
  dicts : ∀ d, Denotes (s.watchedKeys d) (t.dbs d).watchedKeys

theorem client_setClient (s : State) (c x : ClientId) (cl : Option Client) :
    (s.setClient c cl).client x = if x = c then cl else s.client x := by
  unfold State.setClient
  by_cases h : x = c
  · subst h
    rw [if_pos rfl]
    exact Function.update_self ..
  · rw [if_neg h]
    exact Function.update_of_ne h ..

theorem watchedKeys_setDict (s : State) (d d' : Nat) (dict : List (KeyObj × List ClientId)) :
    (s.setDict d dict).watchedKeys d' = if d' = d then dict else s.watchedKeys d' := by
  unfold State.setDict
  by_cases h : d' = d
  · subst h
    rw [if_pos rfl]
    exact Function.update_self ..
  · rw [if_neg h]
    exact Function.update_of_ne h ..

theorem Sim.setClient (h : Sim s t) (c : ClientId) (cl : Client) :
    Sim (s.setClient c (some cl)) (t.setClient c cl.toMulti) := by
  refine ⟨h.dbnum, fun x cl' hx => ?_, fun x hx => ?_, h.dicts⟩
  · rw [client_setClient] at hx
    by_cases hxc : x = c
    · subst hxc
      rw [if_pos rfl] at hx
      cases hx
      exact Multi.setClient_same ..
    · rw [if_neg hxc] at hx
      rw [Multi.setClient_of_ne _ hxc]
      exact h.clients x cl' hx
  · rw [client_setClient] at hx
    by_cases hxc : x = c
    · rw [if_pos hxc] at hx
      exact absurd hx (by simp)
    · rw [if_neg hxc] at hx
      rw [Multi.setClient_of_ne _ hxc]
      exact h.freed x hx

theorem watchedKeys_setWatchers (t : Multi.Server) (d d' : Nat) (key : Bytes)
    (clients : List ClientId) : ((t.setWatchers d key clients).dbs d').watchedKeys =
      if d' = d then
        if clients = [] then (t.dbs d).watchedKeys.erase key
        else (t.dbs d).watchedKeys.insert key clients
      else (t.dbs d').watchedKeys := by
  unfold Multi.Server.setWatchers Multi.Server.setDb
  by_cases h : d' = d
  · subst h
    simp only [Function.update_self, if_true]
  · simp only [Function.update_of_ne h, h, if_false]

/-- Writing the dict of one database. -/
theorem dicts_set {clients : List ClientId} (h : ∀ d, Denotes (s.watchedKeys d) (t.dbs d).watchedKeys)
    {d : Nat} {key : Bytes} (hd : Denotes dict (if clients = [] then (t.dbs d).watchedKeys.erase key
      else (t.dbs d).watchedKeys.insert key clients)) (d' : Nat) :
    Denotes ((s.setDict d dict).watchedKeys d')
      ((t.setWatchers d key clients).dbs d').watchedKeys := by
  rw [watchedKeys_setDict, watchedKeys_setWatchers]
  by_cases hdd : d' = d
  · rw [if_pos hdd, if_pos hdd]
    exact hd
  · rw [if_neg hdd, if_neg hdd]
    exact h d'

/-- **`watchForKey`** is that of `Multi`. -/
theorem Sim.watchForKey (h : Sim s t) (hc : s.client c = some cl) (key : KeyObj) :
    ∃ s', watchForKey s c key = some s' ∧ Sim s' (Multi.watchForKey t c key.bytes) := by
  have hcl := h.clients c cl hc
  have hwatched : cl.watchedKeys.any
      (fun wk => wk.db = cl.db && equalStringObjects key.val wk.key.val) = true ↔
      (cl.toMulti.db, key.bytes) ∈ cl.toMulti.watchedKeys := by
    rw [List.any_eq_true]
    show _ ↔ (cl.db, key.bytes) ∈ cl.watchedKeys.map WatchedKey.pair
    rw [List.mem_map]
    constructor
    · rintro ⟨wk, hwk, htest⟩
      obtain ⟨hdb, heq⟩ := Bool.and_eq_true_iff.mp htest
      exact ⟨wk, hwk, Prod.ext (of_decide_eq_true hdb) (equalKeys_iff.mp heq).symm⟩
    · rintro ⟨wk, hwk, hpair⟩
      obtain ⟨hdb, heq⟩ := Prod.mk.inj hpair
      exact ⟨wk, hwk, Bool.and_eq_true_iff.mpr ⟨decide_eq_true hdb, equalKeys_iff.mpr heq.symm⟩⟩
  unfold Watch.watchForKey Multi.watchForKey
  rw [hc, Option.map_some, hcl]
  by_cases hw : cl.watchedKeys.any
      (fun wk => wk.db = cl.db && equalStringObjects key.val wk.key.val) = true
  · rw [if_pos hw]
    simp only
    rw [if_pos (hwatched.mp hw)]
    exact ⟨s, rfl, h⟩
  · rw [if_neg hw]
    simp only
    rw [if_neg (fun hmem => hw (hwatched.mpr hmem))]
    have hdicts := @dicts_set (onList
        (if (dictFetchValue (s.watchedKeys cl.db) key).isNone then
          dictAdd (s.watchedKeys cl.db) key [] else s.watchedKeys cl.db) key (· ++ [c]))
      s t (t.watchers cl.db key.bytes ++ [c]) h.dicts cl.db key.bytes (by
        rw [if_neg (List.append_ne_nil_of_right_ne_nil _ (List.cons_ne_nil c []))]
        exact (h.dicts cl.db).watch key c)
    have hsim : Sim (s.setDict cl.db (onList
        (if (dictFetchValue (s.watchedKeys cl.db) key).isNone then
          dictAdd (s.watchedKeys cl.db) key [] else s.watchedKeys cl.db) key (· ++ [c])))
        (t.setWatchers cl.db key.bytes (t.watchers cl.db key.bytes ++ [c])) :=
      ⟨h.dbnum, h.clients, h.freed, hdicts⟩
    refine ⟨_, rfl, ?_⟩
    have := hsim.setClient c { cl with watchedKeys := cl.watchedKeys ++ [⟨key, cl.db⟩] }
    unfold Client.toMulti at this
    rw [List.map_append] at this
    exact this

/-- The loop of **`unwatchAllKeys`** is that of `Multi`. -/
theorem unwatchLoop_sim (c : ClientId) : ∀ (wks : List WatchedKey) {s : State} {t t' : Multi.Server},
    (∀ d, Denotes (s.watchedKeys d) (t.dbs d).watchedKeys) →
    (s.client c).map Client.watchedKeys = some wks →
    Multi.unwatchLoop c t (wks.map WatchedKey.pair) = some t' →
    ∃ s', unwatchLoop c wks s = some s' ∧
      (∀ d, Denotes (s'.watchedKeys d) (t'.dbs d).watchedKeys) ∧ s'.dbnum = s.dbnum ∧
      t'.dbnum = t.dbnum ∧ (∀ x, x ≠ c → s'.client x = s.client x) ∧
      s'.client c = (s.client c).map (fun cl => { cl with watchedKeys := [] }) := by
  intro wks
  induction wks with
  | nil =>
      intro s t t' hd hc hloop
      cases hloop
      obtain ⟨cl, hcl, hnil⟩ := Option.map_eq_some_iff.mp hc
      refine ⟨s, rfl, hd, rfl, rfl, fun _ _ => rfl, ?_⟩
      rw [hcl, Option.map_some, ← hnil]
  | cons wk wks ih =>
      intro s t t' hd hc hloop
      obtain ⟨cl, hcl, -⟩ := Option.map_eq_some_iff.mp hc
      rw [List.map_cons, WatchedKey.pair, Multi.unwatchLoop, ← (hd wk.db).lookup wk.key] at hloop
      cases hf : dictFetchValue (s.watchedKeys wk.db) wk.key with
      | none => rw [hf] at hloop; exact absurd hloop (by simp)
      | some clients =>
          rw [hf] at hloop
          simp only at hloop
          by_cases hmem : c ∈ clients
          · rw [if_pos hmem] at hloop
            rw [unwatchLoop, hf]
            simp only
            rw [if_pos hmem]
            obtain ⟨s', hs', hd', hn, hn', hothers, hown⟩ := ih (s := (s.setDict wk.db
              (if (clients.erase c).length = 0 then
                dictDelete (onList (s.watchedKeys wk.db) wk.key (·.erase c)) wk.key
              else onList (s.watchedKeys wk.db) wk.key (·.erase c))).setClient c
                ((s.client c).map (fun cl => { cl with watchedKeys := wks })))
              (dicts_set hd ((hd wk.db).unwatch wk.key c hf))
              (by rw [client_setClient, if_pos rfl, hcl]; rfl) hloop
            refine ⟨s', hs', hd', hn, hn', fun x hx => ?_, ?_⟩
            · rw [hothers x hx, client_setClient, if_neg hx]
              rfl
            · rw [hown, client_setClient, if_pos rfl, hcl]
              rfl
          · rw [if_neg hmem] at hloop
            exact absurd hloop (by simp)

/-- **`unwatchAllKeys`** is that of `Multi`. -/
theorem Sim.unwatchAllKeys (h : Sim s t) (hc : s.client c = some cl)
    (ht : Multi.unwatchAllKeys t c = some t') :
    ∃ s', unwatchAllKeys s c = some s' ∧ Sim s' t' := by
  have hcl := h.clients c cl hc
  obtain ⟨t₁, hloop, rfl⟩ := Option.map_eq_some_iff.mp ht
  have ht₁ := Multi.unwatchLoop_clients c _ hloop
  rw [hcl] at hloop
  obtain ⟨s', hs', hd, hn, hn', hothers, hown⟩ :=
    unwatchLoop_sim c cl.watchedKeys h.dicts (by rw [hc]; rfl) hloop
  refine ⟨s', ?_, hn'.trans (h.dbnum.trans hn.symm), fun x cl' hx => ?_, fun x hx => ?_, hd⟩
  · rw [Watch.unwatchAllKeys, hc, Option.bind_some]
    split
    · next hz =>
        rw [List.length_eq_zero_iff.mp hz] at hs'
        exact hs'
    · exact hs'
  · by_cases hxc : x = c
    · subst hxc
      rw [hown, hc] at hx
      cases hx
      rw [Multi.setClient_same, ht₁, hcl]
      rfl
    · rw [hothers x hxc] at hx
      rw [Multi.setClient_of_ne _ hxc, ht₁]
      exact h.clients x cl' hx
  · have hxc : x ≠ c := by
      rintro rfl
      rw [hown, hc] at hx
      exact absurd hx (by simp)
    rw [hothers x hxc] at hx
    rw [Multi.setClient_of_ne _ hxc, ht₁]
    exact h.freed x hx

/-- The loop of **`touchWatchedKey`** flags the clients of the list. -/
theorem touchLoop_spec : ∀ (clients : List ClientId) {s : State},
    (∀ c ∈ clients, (s.client c).isSome = true) →
    ∃ s', touchLoop clients s = some s' ∧ s'.dbnum = s.dbnum ∧ s'.watchedKeys = s.watchedKeys ∧
      ∀ x, s'.client x = (s.client x).map
        (fun cl => { cl with dirtyCas := cl.dirtyCas || decide (x ∈ clients) }) := by
  intro clients
  induction clients with
  | nil =>
      intro s _
      refine ⟨s, rfl, rfl, rfl, fun x => ?_⟩
      cases s.client x <;> simp
  | cons c clients ih =>
      intro s halive
      obtain ⟨cl, hcl⟩ := Option.isSome_iff_exists.mp (halive c List.mem_cons_self)
      obtain ⟨s', hs', hn, hd, hx⟩ := ih (s := s.setClient c (some { cl with dirtyCas := true }))
        (fun y hy => by
          rw [client_setClient]
          split
          · rfl
          · exact halive y (List.mem_cons_of_mem c hy))
      refine ⟨s', by rw [touchLoop, hcl]; exact hs', hn, hd, fun x => ?_⟩
      rw [hx, client_setClient]
      by_cases hxc : x = c
      · subst hxc
        simp [hcl]
      · simp [hxc]

/-! ## The invariant -/

/-- No list of clients in the index is empty. -/
def Full (t : Multi.Server) : Prop := ∀ d key, (t.dbs d).watchedKeys.lookup key ≠ some []

theorem full_setWatchers (h : Full t) (d : Nat) (key : Bytes) (clients : List ClientId) :
    Full (t.setWatchers d key clients) := by
  intro d' key'
  rw [watchedKeys_setWatchers]
  by_cases hd : d' = d
  · rw [if_pos hd]
    by_cases hnil : clients = []
    · rw [if_pos hnil]
      by_cases hk : key' = key
      · rw [hk, AList.lookup_erase]
        exact (Option.some_ne_none []).symm
      · rw [AList.lookup_erase_ne hk]
        exact h d key'
    · rw [if_neg hnil]
      by_cases hk : key' = key
      · rw [hk, AList.lookup_insert]
        exact fun heq => hnil (Option.some.inj heq)
      · rw [AList.lookup_insert_ne hk]
        exact h d key'
  · rw [if_neg hd]
    exact h d' key'

theorem full_watchForKey (h : Full t) (c : ClientId) (key : Bytes) :
    Full (Multi.watchForKey t c key) := by
  simp only [Multi.watchForKey]
  split
  · exact h
  · exact full_setWatchers h _ _ _

theorem full_unwatchAllKeys (h : Full t) (ht : Multi.unwatchAllKeys t c = some t') : Full t' := by
  have hloop : ∀ (ws : List (Nat × Bytes)) {t t' : Multi.Server}, Full t →
      Multi.unwatchLoop c t ws = some t' → Full t' := by
    intro ws
    induction ws with
    | nil => intro t t' h heq; cases heq; exact h
    | cons w ws ih =>
        intro t t' h heq
        simp only [Multi.unwatchLoop] at heq
        split at heq
        · exact absurd heq (by simp)
        · split at heq
          · exact ih (full_setWatchers h _ _ _) heq
          · exact absurd heq (by simp)
  obtain ⟨t₁, hl, rfl⟩ := Option.map_eq_some_iff.mp ht
  have hfull : Full t₁ := hloop _ h hl
  exact hfull

/-- **The invariant**: the state is a server of `Multi` whose index is right. -/
def Inv (s : State) : Prop := ∃ t, Sim s t ∧ Multi.Indexed t ∧ Full t

/-- The clients that the index has for a key. -/
def State.watchers (s : State) (d : Nat) (key : KeyObj) : List ClientId :=
  (dictFetchValue (s.watchedKeys d) key).getD []

/-- A client watches a key. -/
def Client.watches (cl : Client) (d : Nat) (key : KeyObj) : Prop :=
  ∃ wk ∈ cl.watchedKeys, wk.db = d ∧ wk.key.bytes = key.bytes

/-- What is promised of the index. -/
structure Consistent (s : State) : Prop where
  /-- The two directions agree. -/
  agree : ∀ c d key, c ∈ s.watchers d key ↔ ∃ cl, s.client c = some cl ∧ cl.watches d key
  /-- A client is on the list of a key at most once. -/
  once : ∀ d key, (s.watchers d key).Nodup
  /-- A key is on the list of a client at most once. -/
  own : ∀ c cl, s.client c = some cl → (cl.watchedKeys.map WatchedKey.pair).Nodup
  /-- A key is in the dict of a database at most once. -/
  entry : ∀ d, ((s.watchedKeys d).map (fun e => e.1.bytes)).Nodup
  /-- No list of clients is empty. -/
  full : ∀ d, ∀ e ∈ s.watchedKeys d, e.2 ≠ []
  /-- `touchWatchedKey` flags the clients that watch the key, and nothing else. -/
  touch : ∀ d key, ∃ s', touchWatchedKey s d key = some s' ∧ s'.dbnum = s.dbnum ∧
    s'.watchedKeys = s.watchedKeys ∧ (∀ c, s.client c = none → s'.client c = none) ∧
    ∀ c cl, s.client c = some cl → ∃ flag, s'.client c = some { cl with dirtyCas := flag } ∧
      (flag = true ↔ cl.dirtyCas = true ∨ cl.watches d key)

theorem dictFetchValue_of_mem (hd : (dict.map (fun e => e.1.bytes)).Nodup)
    {e : KeyObj × List ClientId} (he : e ∈ dict) : dictFetchValue dict e.1 = some e.2 := by
  induction dict with
  | nil => exact absurd he List.not_mem_nil
  | cons e' dict ih =>
      obtain ⟨hout, hd'⟩ := List.nodup_cons.mp hd
      rw [dictFetchValue_cons]
      rcases List.mem_cons.mp he with rfl | he
      · rw [if_pos rfl]
      · rw [if_neg (fun heq => hout (List.mem_map.mpr ⟨e, he, heq⟩)), ih hd' he]

theorem Sim.watchers (h : Sim s t) (d : Nat) (key : KeyObj) :
    s.watchers d key = t.watchers d key.bytes := by
  rw [State.watchers, (h.dicts d).lookup, Multi.Server.watchers]

theorem watches_iff {d : Nat} {key : KeyObj} :
    cl.watches d key ↔ (d, key.bytes) ∈ cl.toMulti.watchedKeys := by
  show _ ↔ (d, key.bytes) ∈ cl.watchedKeys.map WatchedKey.pair
  rw [List.mem_map]
  constructor
  · rintro ⟨wk, hwk, rfl, hkey⟩
    exact ⟨wk, hwk, Prod.ext rfl hkey⟩
  · rintro ⟨wk, hwk, hpair⟩
    exact ⟨wk, hwk, (Prod.mk.inj hpair).1, (Prod.mk.inj hpair).2⟩

theorem Sim.agree (h : Sim s t) (hi : Multi.Indexed t) (c : ClientId) (d : Nat) (key : KeyObj) :
    c ∈ s.watchers d key ↔ ∃ cl, s.client c = some cl ∧ cl.watches d key := by
  rw [h.watchers, hi.index]
  cases hc : s.client c with
  | none => simp [h.freed c hc]
  | some cl => simp [h.clients c cl hc, watches_iff]

/-- `touchWatchedKey` goes over the clients that watch the key. -/
theorem touchWatchedKey_eq (s : State) (d : Nat) (key : KeyObj) :
    touchWatchedKey s d key = touchLoop (s.watchers d key) s := by
  unfold touchWatchedKey State.watchers
  by_cases hz : (s.watchedKeys d).length = 0
  · rw [if_pos hz, List.length_eq_zero_iff.mp hz]
    rfl
  · rw [if_neg hz]
    cases dictFetchValue (s.watchedKeys d) key <;> rfl

theorem Inv.consistent (hi : Inv s) : Consistent s := by
  obtain ⟨t, h, hindexed, hfull⟩ := hi
  refine ⟨h.agree hindexed, fun d key => ?_, fun c cl hc => ?_, fun d => (h.dicts d).distinct,
    fun d e he hnil => ?_, fun d key => ?_⟩
  · rw [h.watchers]
    exact hindexed.nodupIndex d key.bytes
  · have := hindexed.nodupOwn c
    rw [h.clients c cl hc] at this
    exact this
  · have hf := dictFetchValue_of_mem (h.dicts d).distinct he
    rw [(h.dicts d).lookup, hnil] at hf
    exact hfull d e.1.bytes hf
  · obtain ⟨s', hs', hn, hd, hx⟩ := touchLoop_spec (s.watchers d key) (s := s) (fun c hc => by
      obtain ⟨cl, hcl, -⟩ := (h.agree hindexed c d key).mp hc
      rw [hcl]
      rfl)
    refine ⟨s', by rw [touchWatchedKey_eq, hs'], hn, hd, fun c hc => by rw [hx, hc]; rfl,
      fun c cl hc => ⟨_, by rw [hx, hc]; rfl, ?_⟩⟩
    rw [Bool.or_eq_true, decide_eq_true_eq, h.agree hindexed]
    simp [hc]

/-! ## Runs -/

theorem inv_setClient (h : Sim s t) (hi : Multi.Indexed t) (hf : Full t) (c : ClientId) {cl : Client}
    (hw : cl.toMulti.watchedKeys = (t.clients c).watchedKeys) : Inv (s.setClient c (some cl)) :=
  ⟨_, h.setClient c cl, hi.setClient c hw, hf⟩

theorem inv_unwatchAllKeys (h : Sim s t) (hi : Multi.Indexed t) (hf : Full t)
    (hc : s.client c = some cl) : ∃ s' t', unwatchAllKeys s c = some s' ∧ Sim s' t' ∧
      Multi.Indexed t' ∧ Full t' ∧ (t'.clients c).watchedKeys = [] := by
  obtain ⟨t', ht', hi', -, -, hnil⟩ := Multi.unwatchAllKeys_spec hi c
  obtain ⟨s', hs', h'⟩ := h.unwatchAllKeys hc ht'
  exact ⟨s', t', hs', h', hi', full_unwatchAllKeys hf ht', hnil⟩

theorem inv_touchLoop : ∀ (clients : List ClientId) {s s' : State} {t : Multi.Server}, Sim s t →
    Multi.Indexed t → Full t → touchLoop clients s = some s' → Inv s' := by
  intro clients
  induction clients with
  | nil => intro s s' t h hi hf hs'; cases hs'; exact ⟨t, h, hi, hf⟩
  | cons c clients ih =>
      intro s s' t h hi hf hs'
      rw [touchLoop] at hs'
      cases hc : s.client c with
      | none => rw [hc] at hs'; exact absurd hs' (by simp)
      | some cl =>
          rw [hc] at hs'
          refine ih (h.setClient c { cl with dirtyCas := true }) (hi.setClient c ?_) hf hs'
          rw [h.clients c cl hc]
          rfl

/-- **One call** keeps the invariant, and succeeds. -/
theorem Inv.step (hi : Inv s) {op : Op} (hfits : op.fits s = true) :
    ∃ s', step s op = some s' ∧ Inv s' := by
  have hconsistent := hi.consistent
  obtain ⟨t, h, hindexed, hfull⟩ := hi
  unfold Watch.step
  rw [if_pos hfits]
  cases op with
  | createClient c =>
      refine ⟨_, rfl, inv_setClient h hindexed hfull c ?_⟩
      rw [h.freed c (Option.isNone_iff_eq_none.mp hfits)]
      rfl
  | selectDb c id =>
      obtain ⟨cl, hc⟩ := Option.isSome_iff_exists.mp hfits
      simp only [Watch.selectDb, hc, Option.map_some]
      split
      · exact ⟨s, rfl, t, h, hindexed, hfull⟩
      · refine ⟨_, rfl, inv_setClient h hindexed hfull c ?_⟩
        rw [h.clients c cl hc]
        rfl
  | watchForKey c key =>
      obtain ⟨cl, hc⟩ := Option.isSome_iff_exists.mp hfits
      obtain ⟨s', hs', h'⟩ := h.watchForKey hc key
      exact ⟨s', hs', _, h', (Multi.watchForKey_spec hindexed c key.bytes).1,
        full_watchForKey hfull c key.bytes⟩
  | unwatchAllKeys c =>
      obtain ⟨cl, hc⟩ := Option.isSome_iff_exists.mp hfits
      obtain ⟨s', t', hs', h', hi', hf', -⟩ := inv_unwatchAllKeys h hindexed hfull hc
      exact ⟨s', hs', t', h', hi', hf'⟩
  | discardTransaction c =>
      obtain ⟨cl, hc⟩ := Option.isSome_iff_exists.mp hfits
      obtain ⟨cl', hcl'⟩ : ∃ cl' : Client, cl' =
        { cl with mstate := [], multi := false, dirtyCas := false, dirtyExec := false } := ⟨_, rfl⟩
      have hw : cl'.toMulti.watchedKeys = (t.clients c).watchedKeys := by
        rw [h.clients c cl hc, hcl']
        rfl
      obtain ⟨s', t', hs', h', hi', hf', -⟩ := inv_unwatchAllKeys (h.setClient c cl')
        (hindexed.setClient c hw) hfull (by rw [client_setClient, if_pos rfl])
      refine ⟨s', ?_, t', h', hi', hf'⟩
      simp only [Watch.discardTransaction, hc, Option.bind_some]
      rw [← hcl', hs']
  | freeClient c =>
      obtain ⟨cl, hc⟩ := Option.isSome_iff_exists.mp hfits
      obtain ⟨s', t', hs', h', hi', hf', hnil⟩ := inv_unwatchAllKeys h hindexed hfull hc
      refine ⟨s'.setClient c none, by simp only [Watch.freeClient, hs', Option.map_some], t',
        ⟨h'.dbnum, fun x cl' hx => ?_, fun x hx => ?_, h'.dicts⟩, hi', hf'⟩
      · rw [client_setClient] at hx
        split at hx
        · exact absurd hx (by simp)
        · exact h'.clients x cl' hx
      · rw [client_setClient] at hx
        by_cases hxc : x = c
        · rw [hxc, hnil]
        · rw [if_neg hxc] at hx
          exact h'.freed x hx
  | touchWatchedKey d key =>
      obtain ⟨s', hs', -⟩ := hconsistent.touch d key
      refine ⟨s', hs', ?_⟩
      rw [touchWatchedKey_eq] at hs'
      exact inv_touchLoop _ h hindexed hfull hs'

theorem inv_init (dbnum : Nat) : Inv (init dbnum) := by
  refine ⟨Multi.init dbnum, ⟨rfl, fun c cl hc => absurd hc (by simp [init]), fun c _ => rfl,
    fun d => ⟨fun key => rfl, List.nodup_nil⟩⟩, (Multi.init_good dbnum).indexed, ?_⟩
  intro d key heq
  exact absurd heq (Option.some_ne_none []).symm

theorem run_inv (ops : List Op) : ∀ {s s' : State}, Inv s → run s ops = some s' → Inv s' := by
  induction ops with
  | nil => intro s s' hi hs; cases hs; exact hi
  | cons op ops ih =>
      intro s s' hi hs
      obtain ⟨s₁, hs₁, hrun⟩ := Option.bind_eq_some_iff.mp hs
      have hfits : op.fits s = true := by
        by_contra hn
        unfold Watch.step at hs₁
        rw [if_neg hn] at hs₁
        exact absurd hs₁ (by simp)
      obtain ⟨s₂, hs₂, hi₂⟩ := hi.step hfits
      rw [hs₁] at hs₂
      cases hs₂
      exact ih hi₂ hrun

/-- **The index of watched keys.**  In every state that calls reach, by any clients over any
keys and databases, the index and the lists of the clients agree, with each client and each
key once; `touchWatchedKey` flags the clients that watch a key and changes nothing else; and
no call on a client that is there fails, so no assertion does. -/
theorem watched_consistent (dbnum : Nat) (ops : List Op) {s : State}
    (hs : run (init dbnum) ops = some s) :
    Consistent s ∧ ∀ op : Op, op.fits s = true → ∃ s', Watch.step s op = some s' := by
  have hi := run_inv ops (inv_init dbnum) hs
  refine ⟨hi.consistent, fun op hfits => ?_⟩
  obtain ⟨s', hs', -⟩ := hi.step hfits
  exact ⟨s', hs'⟩

/-- The key `k`, in either encoding. -/
def rawKey : KeyObj := ⟨.raw [107], [107], rfl, by decide⟩

def embstrKey : KeyObj := ⟨.embstr [107], [107], rfl, by decide⟩

/-- Two clients watch one key, one of them twice and in two databases, and is freed. -/
theorem watched_consistent_freed :
    ∃ s, run (init 16) [.createClient 0, .createClient 1, .watchForKey 0 rawKey,
      .watchForKey 1 embstrKey, .watchForKey 1 rawKey, .selectDb 1 3, .watchForKey 1 rawKey,
      .touchWatchedKey 3 embstrKey, .freeClient 1, .discardTransaction 0] = some s ∧
      Consistent s :=
  ⟨_, rfl, (watched_consistent 16 [.createClient 0, .createClient 1, .watchForKey 0 rawKey,
    .watchForKey 1 embstrKey, .watchForKey 1 rawKey, .selectDb 1 3, .watchForKey 1 rawKey,
    .touchWatchedKey 3 embstrKey, .freeClient 1, .discardTransaction 0] rfl).1⟩

end Watch

end RedisCore
