/-
# `RedisCore.Db` — a database and its expiry (db.c)

The functions of db.c over the contents of the dicts of one database.  That
dict.c keeps these contents as a finite map keeps its bindings is the subject of
`Dict.Refine`; here `dictAdd`, `dictDelete`, `dictReplace` and `dictFind` are the
operations of the map.

Two things are explicit.  The clock is a stream of readings, and every call of
`mstime` takes the next one, so a command may see several times.  A failed
`serverAssert` is `none`.
-/
import RedisCore.Object
import Mathlib.Data.List.AList

namespace RedisCore

/-- A client, by its address. -/
abbrev ClientId := Nat

/-- The dicts of a `redisDb` that strings, expiry and WATCH use. -/
structure RedisDb where
  dict : AList (fun _ : Bytes => Robj)
  expires : AList (fun _ : Bytes => Int)
  watchedKeys : AList (fun _ : Bytes => List ClientId)

def RedisDb.empty : RedisDb := ⟨∅, ∅, ∅⟩

/-- The fields of `server` the functions read: the clock, `masterhost != NULL`,
`loading`, `lua_time_start` while a script runs, and whether the current client is
not the master and runs a read-only command. -/
structure Env where
  clock : Nat → Int
  masterhost : Bool
  loading : Bool
  luaCaller : Option Int
  readonlyCaller : Bool

/-- A database, and how often the clock has been read. -/
structure DbState where
  db : RedisDb
  ticks : Nat

/-- `mstime`. -/
def mstime (env : Env) (st : DbState) : Int × DbState :=
  (env.clock st.ticks, { st with ticks := st.ticks + 1 })

/-- `signalModifiedKey`, whose body is commented out. -/
def signalModifiedKey (db : RedisDb) (_key : Bytes) : RedisDb := db

/-- `dbDelete`. -/
def dbDelete (db : RedisDb) (key : Bytes) : RedisDb × Bool :=
  let db := if db.expires.entries.length > 0 then { db with expires := db.expires.erase key } else db
  if key ∈ db.dict then ({ db with dict := db.dict.erase key }, true) else (db, false)

/-- `getExpire`: the expire time, or -1. -/
def getExpire (db : RedisDb) (key : Bytes) : Option Int :=
  if db.expires.entries.length = 0 then some (-1)
  else
    match db.expires.lookup key with
    | none => some (-1)
    -- the key has to be in the main dict too
    | some when_ => if key ∈ db.dict then some when_ else none

/-- `expireIfNeeded`; the flag is its return value. -/
def expireIfNeeded (env : Env) (st : DbState) (key : Bytes) : Option (DbState × Bool) :=
  match getExpire st.db key with
  | none => none
  | some when_ =>
      if when_ < 0 then some (st, false)
      else if env.loading then some (st, false)
      else
        let (now, st) :=
          match env.luaCaller with
          | some start => (start, st)
          | none => mstime env st
        if env.masterhost then some (st, decide (now > when_))
        else if now ≤ when_ then some (st, false)
        else
          let (db, deleted) := dbDelete st.db key
          some ({ st with db := db }, deleted)

/-- `lookupKey`. -/
def lookupKey (db : RedisDb) (key : Bytes) : Option Robj := db.dict.lookup key

/-- `lookupKeyReadWithFlags` and `lookupKeyRead`; the flags only concern the access
time. -/
def lookupKeyRead (env : Env) (st : DbState) (key : Bytes) : Option (DbState × Option Robj) :=
  match expireIfNeeded env st key with
  | none => none
  | some (st, expired) =>
      if expired && (!env.masterhost || env.readonlyCaller) then some (st, none)
      else some (st, lookupKey st.db key)

/-- `lookupKeyWrite`. -/
def lookupKeyWrite (env : Env) (st : DbState) (key : Bytes) : Option (DbState × Option Robj) :=
  match expireIfNeeded env st key with
  | none => none
  | some (st, _) => some (st, lookupKey st.db key)

/-- `dbAdd`. -/
def dbAdd (db : RedisDb) (key : Bytes) (val : Robj) : Option RedisDb :=
  if key ∈ db.dict then none else some { db with dict := db.dict.insert key val }

/-- `dbOverwrite`. -/
def dbOverwrite (db : RedisDb) (key : Bytes) (val : Robj) : Option RedisDb :=
  if key ∈ db.dict then some { db with dict := db.dict.insert key val } else none

/-- `removeExpire`. -/
def removeExpire (db : RedisDb) (key : Bytes) : Option RedisDb :=
  if key ∈ db.dict then some { db with expires := db.expires.erase key } else none

/-- `setExpire`. -/
def setExpire (db : RedisDb) (key : Bytes) (when_ : Int) : Option RedisDb :=
  if key ∈ db.dict then some { db with expires := db.expires.insert key when_ } else none

/-- The two ways of `setKey` to store. -/
def storeKey (db : RedisDb) (key : Bytes) (val : Robj) : Option Robj → Option RedisDb
  | none => dbAdd db key val
  | some _ => dbOverwrite db key val

/-- `setKey`. -/
def setKey (env : Env) (st : DbState) (key : Bytes) (val : Robj) : Option DbState :=
  match lookupKeyWrite env st key with
  | none => none
  | some (st, found) =>
      match storeKey st.db key val found with
      | none => none
      | some db =>
          match removeExpire db key with
          | none => none
          | some db => some { st with db := signalModifiedKey db key }

/-! ## Deleting a key -/

/-- What a database binds to a key: the value and the expire time. -/
def RedisDb.binding (db : RedisDb) (key : Bytes) : Option Robj × Option Int :=
  (db.dict.lookup key, db.expires.lookup key)

/-- Keys with an expire time are keys of the database. -/
def RedisDb.ExpiresSub (db : RedisDb) : Prop := ∀ key, key ∈ db.expires → key ∈ db.dict

theorem lookup_of_entries_nil {β : Type} {m : AList (fun _ : Bytes => β)}
    (h : ¬ m.entries.length > 0) (key : Bytes) : m.lookup key = none := by
  have hnil : m.entries = [] := List.eq_nil_of_length_eq_zero (by omega)
  rw [AList.lookup_eq_none]
  intro hmem
  have : key ∈ m.entries.keys := hmem
  rw [hnil] at this
  exact absurd this List.not_mem_nil

theorem dbDelete_dict (db : RedisDb) (key k : Bytes) :
    (dbDelete db key).1.dict.lookup k = if k = key then none else db.dict.lookup k := by
  unfold dbDelete
  by_cases hk : k = key
  · subst hk
    rw [if_pos rfl]
    simp only
    split <;> split
    · exact AList.lookup_erase k _
    · next h => exact AList.lookup_eq_none.mpr h
    · exact AList.lookup_erase k _
    · next h => exact AList.lookup_eq_none.mpr h
  · rw [if_neg hk]
    simp only
    split <;> split
    · exact AList.lookup_erase_ne hk
    · rfl
    · exact AList.lookup_erase_ne hk
    · rfl

theorem dbDelete_expires (db : RedisDb) (key k : Bytes) :
    (dbDelete db key).1.expires.lookup k = if k = key then none else db.expires.lookup k := by
  have hexp : (dbDelete db key).1.expires
      = if db.expires.entries.length > 0 then db.expires.erase key else db.expires := by
    unfold dbDelete
    simp only
    split <;> split <;> rfl
  rw [hexp]
  split
  · split
    · next hk => rw [hk]; exact AList.lookup_erase key _
    · next hk => exact AList.lookup_erase_ne hk
  · next hlen =>
      split
      · exact lookup_of_entries_nil hlen k
      · rfl

theorem dbDelete_binding (db : RedisDb) (key k : Bytes) :
    (dbDelete db key).1.binding k = if k = key then (none, none) else db.binding k := by
  rw [RedisDb.binding, dbDelete_dict, dbDelete_expires]
  split <;> rfl

theorem dbDelete_status (db : RedisDb) (key : Bytes) :
    (dbDelete db key).2 = decide (key ∈ db.dict) := by
  unfold dbDelete
  simp only
  split <;> split <;> next h => simpa using h

theorem dbDelete_watchedKeys (db : RedisDb) (key : Bytes) :
    (dbDelete db key).1.watchedKeys = db.watchedKeys := by
  unfold dbDelete
  simp only
  split <;> split <;> rfl

theorem expiresSub_iff (db : RedisDb) :
    db.ExpiresSub ↔ ∀ key w, db.expires.lookup key = some w → ∃ o, db.dict.lookup key = some o := by
  constructor
  · intro h key w hw
    have : key ∈ db.expires := by
      rw [← AList.lookup_isSome, hw]; rfl
    exact Option.isSome_iff_exists.mp (AList.lookup_isSome.mpr (h key this))
  · intro h key hkey
    obtain ⟨w, hw⟩ := Option.isSome_iff_exists.mp (AList.lookup_isSome.mpr hkey)
    obtain ⟨o, ho⟩ := h key w hw
    rw [← AList.lookup_isSome, ho]
    rfl

end RedisCore
