/-
# `RedisCore.Keyspace` — what SET, GET and DEL mean over a history

The abstract side is a keyspace without lazy deletion: a key is bound to the bytes
and the deadline of its last SET until a DEL or another SET, and it is live while the
deadline has not passed.  `Represents` relates it to the two dicts, where a key whose
deadline has passed may or may not have been removed yet.

Readings of the clock are counted, so that "now" is the reading a command takes:
`clock n` for the command that finds the count at `n`.
-/
import RedisCore.TString

namespace RedisCore

open CInt

/-- The abstract keyspace: bytes and deadline. -/
abbrev Keyspace := Bytes → Option (Bytes × Option Int)

/-- The value of a key at a time. -/
def live (ks : Keyspace) (key : Bytes) (now : Int) : Option Bytes :=
  match ks key with
  | none => none
  | some (s, none) => some s
  | some (s, some deadline) => if now ≤ deadline then some s else none

/-- A master outside a script, with a millisecond clock that does not go back. -/
structure Env.Master (env : Env) : Prop where
  masterhost : env.masterhost = false
  loading : env.loading = false
  luaCaller : env.luaCaller = none
  nonneg : 0 ≤ env.clock 0
  mono : ∀ m n, m ≤ n → env.clock m ≤ env.clock n

/-- The relation between the dicts and the keyspace, after `st.ticks` readings. -/
structure Represents (env : Env) (st : DbState) (ks : Keyspace) : Prop where
  sub : st.db.ExpiresSub
  obj : ∀ key o, st.db.dict.lookup key = some o →
    o.Ok ∧ o.isString = true ∧ (o.bytes.length : Int) ≤ LONG_MAX
  pos : ∀ key w, st.db.expires.lookup key = some w → 0 ≤ w
  bound : ∀ key s dl, ks key = some (s, dl) →
    (∃ o, st.db.dict.lookup key = some o ∧ o.bytes = s ∧ st.db.expires.lookup key = dl) ∨
    (st.db.binding key = (none, none) ∧ ∃ w n, dl = some w ∧ n < st.ticks ∧ w < env.clock n)
  free : ∀ key, ks key = none → st.db.binding key = (none, none)

/-- The only thing that has happened to the database is that keys whose deadline had
passed, by a reading in between, are gone. -/
structure Lazily (env : Env) (st st' : DbState) : Prop where
  ticks : st.ticks ≤ st'.ticks
  binding : ∀ key, st'.db.binding key = st.db.binding key ∨
    (st'.db.binding key = (none, none) ∧ ∃ w n, st.db.expires.lookup key = some w ∧
      st.ticks ≤ n ∧ n < st'.ticks ∧ w < env.clock n)
  watched : st'.db.watchedKeys = st.db.watchedKeys

variable {env : Env} {st st' st'' : DbState} {ks : Keyspace}

theorem Lazily.refl (st : DbState) : Lazily env st st :=
  ⟨Nat.le_refl _, fun _ => Or.inl rfl, rfl⟩

theorem Lazily.trans (h₁ : Lazily env st st') (h₂ : Lazily env st' st'') : Lazily env st st'' := by
  refine ⟨Nat.le_trans h₁.ticks h₂.ticks, fun key => ?_, h₂.watched.trans h₁.watched⟩
  rcases h₂.binding key with h | ⟨h, w, n, hw, hn, hn', hlt⟩
  · rw [h]
    rcases h₁.binding key with h' | ⟨h', w, n, hw, hn, hn', hlt⟩
    · exact Or.inl h'
    · exact Or.inr ⟨h', w, n, hw, hn, Nat.lt_of_lt_of_le hn' h₂.ticks, hlt⟩
  · rcases h₁.binding key with h' | ⟨h', _, _, _, _, _, _⟩
    · have : st.db.expires.lookup key = st'.db.expires.lookup key :=
        (congrArg Prod.snd h').symm
      exact Or.inr ⟨h, w, n, this.trans hw, Nat.le_trans h₁.ticks hn, hn', hlt⟩
    · have : st'.db.expires.lookup key = none := congrArg Prod.snd h'
      rw [this] at hw
      exact absurd hw (by simp)

/-! ## Reading and expiring -/

theorem Represents.later (h : Represents env st ks) {n : Nat} (hn : st.ticks ≤ n) :
    Represents env { st with ticks := n } ks := by
  refine ⟨h.sub, h.obj, h.pos, fun key s dl hk => ?_, h.free⟩
  rcases h.bound key s dl hk with hl | ⟨hb, w, m, hdl, hm, hlt⟩
  · exact Or.inl hl
  · exact Or.inr ⟨hb, w, m, hdl, Nat.lt_of_lt_of_le hm hn, hlt⟩

/-- `getExpire` never fails its assertion. -/
theorem getExpire_eq (h : st.db.ExpiresSub) (key : Bytes) :
    getExpire st.db key = some ((st.db.expires.lookup key).getD (-1)) := by
  unfold getExpire
  split
  · next hlen =>
      rw [lookup_of_entries_nil (by omega) key]
      rfl
  · cases hw : st.db.expires.lookup key with
    | none => rfl
    | some w =>
        obtain ⟨o, ho⟩ := (expiresSub_iff st.db).mp h key w hw
        have hmem : key ∈ st.db.dict := AList.lookup_isSome.mp (by rw [ho]; rfl)
        simp [hmem]

/-- Deleting a key, where the keyspace loses it or its deadline has passed. -/
theorem Represents.remove (h : Represents env st ks) {key : Bytes} {ks' : Keyspace} {n : Nat}
    (hn : st.ticks ≤ n) (hoff : ∀ k, k ≠ key → ks' k = ks k)
    (hkey : ks' key = none ∨
      ∃ s w m, ks' key = some (s, some w) ∧ m < n ∧ w < env.clock m) :
    Represents env ⟨(dbDelete st.db key).1, n⟩ ks' := by
  have hdict := dbDelete_dict st.db key
  have hexp := dbDelete_expires st.db key
  refine ⟨?_, ?_, ?_, ?_, ?_⟩
  · rw [expiresSub_iff]
    intro k v hv
    rw [hexp] at hv
    rw [hdict]
    by_cases hk : k = key
    · rw [if_pos hk] at hv; exact absurd hv (by simp)
    · rw [if_neg hk] at hv ⊢
      exact (expiresSub_iff st.db).mp h.sub k v hv
  · intro k o ho
    rw [hdict] at ho
    by_cases hk : k = key
    · rw [if_pos hk] at ho; exact absurd ho (by simp)
    · rw [if_neg hk] at ho; exact h.obj k o ho
  · intro k v hv
    rw [hexp] at hv
    by_cases hk : k = key
    · rw [if_pos hk] at hv; exact absurd hv (by simp)
    · rw [if_neg hk] at hv; exact h.pos k v hv
  · intro k s dl hks
    show (∃ o, (dbDelete st.db key).1.dict.lookup k = some o ∧ _ ∧
      (dbDelete st.db key).1.expires.lookup k = dl) ∨ ((dbDelete st.db key).1.binding k = _ ∧ _)
    rw [hdict, hexp, dbDelete_binding]
    by_cases hk : k = key
    · rw [if_pos hk, if_pos hk, if_pos hk]
      rw [hk] at hks
      rcases hkey with hnone | ⟨s', w, m, hsome, hm, hlt⟩
      · rw [hnone] at hks; exact absurd hks (by simp)
      · rw [hsome] at hks
        cases hks
        exact Or.inr ⟨rfl, w, m, rfl, hm, hlt⟩
    · rw [if_neg hk, if_neg hk, if_neg hk]
      rw [hoff k hk] at hks
      rcases h.bound k s dl hks with hl | ⟨hnone, v, m, hdl, hm, hlt'⟩
      · exact Or.inl hl
      · exact Or.inr ⟨hnone, v, m, hdl, Nat.lt_of_lt_of_le hm hn, hlt'⟩
  · intro k hks
    show (dbDelete st.db key).1.binding k = (none, none)
    rw [dbDelete_binding]
    split
    · rfl
    · next hk => exact h.free k ((hoff k hk).symm.trans hks)

/-- A key with an expire time is bound with it. -/
theorem Represents.expire_bound (h : Represents env st ks) {key : Bytes} {w : Int}
    (hw : st.db.expires.lookup key = some w) : ∃ s, ks key = some (s, some w) := by
  cases hks : ks key with
  | none =>
      have : st.db.expires.lookup key = none := congrArg Prod.snd (h.free key hks)
      rw [this] at hw
      exact absurd hw (by simp)
  | some b =>
      obtain ⟨s, dl⟩ := b
      rcases h.bound key s dl hks with ⟨_, _, _, hdl⟩ | ⟨hnone, _⟩
      · exact ⟨s, by rw [← hdl, hw]⟩
      · have : st.db.expires.lookup key = none := congrArg Prod.snd hnone
        rw [this] at hw
        exact absurd hw (by simp)

/-- What the database holds for a key once it has been checked for expiry. -/
def Shows (st : DbState) (ks : Keyspace) (key : Bytes) (now : Int) : Prop :=
  (st.db.dict.lookup key).map Robj.bytes = live ks key now

theorem Represents.shows (hm : env.Master) (h : Represents env st ks) {key : Bytes} {n : Nat}
    (hn : st.ticks ≤ n)
    (hlive : ∀ w, st.db.expires.lookup key = some w → env.clock n ≤ w) :
    Shows st ks key (env.clock n) := by
  unfold Shows live
  cases hks : ks key with
  | none =>
      have : st.db.dict.lookup key = none := congrArg Prod.fst (h.free key hks)
      rw [this]
      rfl
  | some b =>
      obtain ⟨s, dl⟩ := b
      rcases h.bound key s dl hks with ⟨o, ho, hs, hdl⟩ | ⟨hnone, w, m, hdl, hm', hlt⟩
      · rw [ho]
        cases dl with
        | none => simp [hs]
        | some w => simp [hs, hlive w hdl]
      · have hlk : st.db.dict.lookup key = none := congrArg Prod.fst hnone
        have hmono := hm.mono m n (Nat.le_trans (Nat.le_of_lt hm') hn)
        rw [hlk, hdl]
        simp only [Option.map_none]
        rw [if_neg (by omega)]

theorem Represents.live_expired (h : Represents env st ks) {key : Bytes} {w now : Int}
    (hw : st.db.expires.lookup key = some w) (hlt : w < now) : live ks key now = none := by
  obtain ⟨s, hks⟩ := h.expire_bound hw
  unfold live
  rw [hks]
  simp only
  rw [if_neg (by omega)]

/-- **Lazy expiry.**  After the check the database shows exactly what the keyspace has
at the reading the check takes. -/
theorem expireIfNeeded_spec (hm : env.Master) (h : Represents env st ks) (key : Bytes) :
    ∃ st' r, expireIfNeeded env st key = some (st', r) ∧ Represents env st' ks ∧
      Lazily env st st' ∧ Shows st' ks key (env.clock st.ticks) ∧
      (r = true → st'.db.dict.lookup key = none) := by
  unfold expireIfNeeded
  rw [getExpire_eq h.sub]
  cases hw : st.db.expires.lookup key with
  | none =>
      refine ⟨st, false, by simp, h, Lazily.refl st, ?_, by simp⟩
      exact h.shows hm (Nat.le_refl _) (fun w hw' => by rw [hw] at hw'; exact absurd hw' (by simp))
  | some w =>
      have hpos := h.pos key w hw
      by_cases hnow : env.clock st.ticks ≤ w
      · refine ⟨{ st with ticks := st.ticks + 1 }, false, ?_, h.later (Nat.le_succ _), ?_, ?_,
          by simp⟩
        · simp [hm.loading, hm.luaCaller, hm.masterhost, mstime, hnow, Int.not_lt.mpr hpos]
        · exact ⟨Nat.le_succ _, fun _ => Or.inl rfl, rfl⟩
        · exact h.shows hm (Nat.le_refl _) (fun w' hw' => by rw [hw] at hw'; cases hw'; exact hnow)
      · have hlt : w < env.clock st.ticks := by omega
        obtain ⟨s, hks⟩ := h.expire_bound hw
        have hrep : Represents env ⟨(dbDelete st.db key).1, st.ticks + 1⟩ ks :=
          h.remove (Nat.le_succ st.ticks) (fun _ _ => rfl)
            (Or.inr ⟨s, w, st.ticks, hks, Nat.lt_succ_self _, hlt⟩)
        have hnone : (dbDelete st.db key).1.dict.lookup key = none := by
          rw [dbDelete_dict, if_pos rfl]
        refine ⟨⟨(dbDelete st.db key).1, st.ticks + 1⟩, (dbDelete st.db key).2, ?_, hrep, ?_, ?_,
          fun _ => hnone⟩
        · simp [hm.loading, hm.luaCaller, hm.masterhost, mstime, hnow, Int.not_lt.mpr hpos]
        · refine ⟨Nat.le_succ _, fun k => ?_, dbDelete_watchedKeys st.db key⟩
          show (dbDelete st.db key).1.binding k = _ ∨ ((dbDelete st.db key).1.binding k = _ ∧ _)
          rw [dbDelete_binding]
          by_cases hk : k = key
          · rw [if_pos hk]
            exact Or.inr ⟨rfl, w, st.ticks, hk ▸ hw, Nat.le_refl _, Nat.lt_succ_self _, hlt⟩
          · rw [if_neg hk]; exact Or.inl rfl
        · show ((dbDelete st.db key).1.dict.lookup key).map Robj.bytes = _
          rw [hnone, h.live_expired hw hlt]
          rfl

theorem lookupKeyWrite_spec (hm : env.Master) (h : Represents env st ks) (key : Bytes) :
    ∃ st', lookupKeyWrite env st key = some (st', st'.db.dict.lookup key) ∧
      Represents env st' ks ∧ Lazily env st st' ∧ Shows st' ks key (env.clock st.ticks) := by
  obtain ⟨st', r, heq, hrep, hlazy, hshow, _⟩ := expireIfNeeded_spec hm h key
  exact ⟨st', by simp [lookupKeyWrite, heq, lookupKey], hrep, hlazy, hshow⟩

theorem lookupKeyRead_spec (hm : env.Master) (h : Represents env st ks) (key : Bytes) :
    ∃ st', lookupKeyRead env st key = some (st', st'.db.dict.lookup key) ∧
      Represents env st' ks ∧ Lazily env st st' ∧ Shows st' ks key (env.clock st.ticks) := by
  obtain ⟨st', r, heq, hrep, hlazy, hshow, hr⟩ := expireIfNeeded_spec hm h key
  refine ⟨st', ?_, hrep, hlazy, hshow⟩
  cases r with
  | false => simp [lookupKeyRead, heq, lookupKey]
  | true => simp [lookupKeyRead, heq, hm.masterhost, hr rfl]

/-! ## Storing -/

/-- Binding a key in both dicts. -/
theorem Represents.store (h : Represents env st ks) {key : Bytes} {val : Robj} {dl : Option Int}
    {db : RedisDb} {n : Nat} (hn : st.ticks ≤ n)
    (hok : val.Ok ∧ val.isString = true ∧ (val.bytes.length : Int) ≤ LONG_MAX)
    (hdl : ∀ w, dl = some w → 0 ≤ w)
    (hdict : ∀ k, db.dict.lookup k = if k = key then some val else st.db.dict.lookup k)
    (hexp : ∀ k, db.expires.lookup k = if k = key then dl else st.db.expires.lookup k) :
    Represents env ⟨db, n⟩ (Function.update ks key (some (val.bytes, dl))) := by
  refine ⟨?_, ?_, ?_, ?_, ?_⟩
  · rw [expiresSub_iff]
    intro k w hw
    have hw' : db.expires.lookup k = some w := hw
    show ∃ o, db.dict.lookup k = some o
    rw [hdict]
    by_cases hk : k = key
    · exact ⟨val, by rw [if_pos hk]⟩
    · rw [if_neg hk]
      rw [hexp, if_neg hk] at hw'
      exact (expiresSub_iff st.db).mp h.sub k w hw'
  · intro k o ho
    have ho' : db.dict.lookup k = some o := ho
    rw [hdict] at ho'
    by_cases hk : k = key
    · rw [if_pos hk] at ho'; cases ho'; exact hok
    · rw [if_neg hk] at ho'; exact h.obj k o ho'
  · intro k w hw
    have hw' : db.expires.lookup k = some w := hw
    rw [hexp] at hw'
    by_cases hk : k = key
    · rw [if_pos hk] at hw'; exact hdl w hw'
    · rw [if_neg hk] at hw'; exact h.pos k w hw'
  · intro k s d hks
    show (∃ o, db.dict.lookup k = some o ∧ o.bytes = s ∧ db.expires.lookup k = d) ∨
      ((db.dict.lookup k, db.expires.lookup k) = _ ∧ _)
    rw [hdict, hexp]
    by_cases hk : k = key
    · subst hk
      rw [Function.update_self] at hks
      cases hks
      exact Or.inl ⟨val, by rw [if_pos rfl], rfl, by rw [if_pos rfl]⟩
    · rw [Function.update_of_ne hk] at hks
      rw [if_neg hk, if_neg hk]
      rcases h.bound k s d hks with hl | ⟨hnone, w, m, hd, hm, hlt⟩
      · exact Or.inl hl
      · exact Or.inr ⟨hnone, w, m, hd, Nat.lt_of_lt_of_le hm hn, hlt⟩
  · intro k hks
    show (db.dict.lookup k, db.expires.lookup k) = _
    by_cases hk : k = key
    · subst hk
      rw [Function.update_self] at hks
      exact absurd hks (by simp)
    · rw [Function.update_of_ne hk] at hks
      rw [hdict, hexp, if_neg hk, if_neg hk]
      exact h.free k hks

/-- Storing overwrites what is found. -/
theorem storeKey_lookup (db : RedisDb) (key : Bytes) (val : Robj) :
    storeKey db key val (db.dict.lookup key)
      = some { db with dict := db.dict.insert key val } := by
  cases hl : db.dict.lookup key with
  | none => simp [storeKey, dbAdd, AList.lookup_eq_none.mp hl]
  | some o =>
      have hmem : key ∈ db.dict := AList.lookup_isSome.mp (by rw [hl]; rfl)
      simp [storeKey, dbOverwrite, hmem]

/-- `setKey` binds the value and clears the expire time. -/
theorem setKey_spec (hm : env.Master) (h : Represents env st ks) (key : Bytes) {val : Robj}
    (hok : val.Ok ∧ val.isString = true ∧ (val.bytes.length : Int) ≤ LONG_MAX) :
    ∃ st', setKey env st key val = some st' ∧ st.ticks ≤ st'.ticks ∧
      st'.db.dict.lookup key = some val ∧
      st'.db.watchedKeys = st.db.watchedKeys ∧
      Represents env st' (Function.update ks key (some (val.bytes, none))) := by
  obtain ⟨st', heq, hrep, hlazy, _⟩ := lookupKeyWrite_spec hm h key
  have hmem : key ∈ st'.db.dict.insert key val := (AList.mem_insert _).mpr (Or.inl rfl)
  refine ⟨⟨{ st'.db with
      dict := st'.db.dict.insert key val
      expires := st'.db.expires.erase key }, st'.ticks⟩, ?_, hlazy.ticks, AList.lookup_insert _,
    hlazy.watched, ?_⟩
  · simp only [setKey, heq, storeKey_lookup, removeExpire, hmem, if_true, signalModifiedKey]
  · refine hrep.store (Nat.le_refl _) hok (by simp) (fun k => ?_) (fun k => ?_)
    · show (st'.db.dict.insert key val).lookup k = _
      by_cases hk : k = key
      · rw [if_pos hk, hk]; exact AList.lookup_insert _
      · rw [if_neg hk]; exact AList.lookup_insert_ne hk
    · show (st'.db.expires.erase key).lookup k = _
      by_cases hk : k = key
      · rw [if_pos hk, hk]; exact AList.lookup_erase key _
      · rw [if_neg hk]; exact AList.lookup_erase_ne hk

/-! ## What the requests mean -/

/-- What a SET asks for, if its options and its expire argument are in order: the flags
and the time to live in milliseconds. -/
def setRequest (opts : List Arg) : Option (SetFlags × Option Int) :=
  match setOptions opts OBJ_SET_NO_FLAGS none .seconds with
  | none => none
  | some (flags, none, _) => some (flags, none)
  | some (flags, some arg, unit) =>
      match string2ll arg.s with
      | none => none
      | some n =>
          if n ≤ 0 then none
          else some (flags, some (match unit with | .seconds => n * 1000 | .milliseconds => n))

/-- NX wants no live value, XX wants one. -/
def Admits (ks : Keyspace) (key : Bytes) (now : Int) (flags : SetFlags) : Prop :=
  (flags.nx = true → live ks key now = none) ∧ (flags.xx = true → live ks key now ≠ none)

instance (ks : Keyspace) (key : Bytes) (now : Int) (flags : SetFlags) :
    Decidable (Admits ks key now flags) :=
  inferInstanceAs (Decidable (_ ∧ _))

/-- What a request does to the keyspace, given the count of clock readings before and
after it: the conditions are judged by the first reading, the deadline counts from
the last. -/
def absStep (env : Env) (before after : Nat) (ks : Keyspace) : Command → Keyspace
  | .set key val opts =>
      match setRequest opts with
      | none => ks
      | some (flags, ttl) =>
          if Admits ks key (env.clock before) flags then
            Function.update ks key (some (val.s, ttl.map (fun ms => env.clock (after - 1) + ms)))
          else ks
  | .get _ => ks
  | .del keys _ => fun key => if key ∈ keys then none else ks key

/-- How many keys a DEL removes that are live when it comes to them; each key comes
with the reading by which it is judged. -/
def delCount (env : Env) : Keyspace → List (Bytes × Nat) → Nat
  | _, [] => 0
  | ks, (key, n) :: rest =>
      (if live ks key (env.clock n) = none then 0 else 1)
        + delCount env (Function.update ks key none) rest

/-- The reply to a request, and what it leaves alone. -/
def Answers (env : Env) (ks : Keyspace) (st st' : DbState) (reply : List ReplyCall) :
    Command → Prop
  | .set key _ opts =>
      match setRequest opts with
      | none => (∃ msg, replyBytes reply = cstr "-ERR " ++ msg ++ cstr "\r\n") ∧ Lazily env st st'
      | some (flags, _) =>
          if Admits ks key (env.clock st.ticks) flags then replyBytes reply = cstr "+OK\r\n"
          else replyBytes reply = cstr "$-1\r\n" ∧ Lazily env st st'
  | .get key =>
      (match live ks key (env.clock st.ticks) with
      | some s => replyBytes reply = respBulk s
      | none => replyBytes reply = cstr "$-1\r\n") ∧ Lazily env st st'
  | .del keys _ => ∃ ns : List Nat, ns.length = keys.length ∧
      (∀ n ∈ ns, st.ticks ≤ n ∧ n ≤ st'.ticks) ∧
      replyBytes reply = respInt (delCount env ks (keys.zip ns))

/-- The deadline a SET asks for is a `long long`. -/
def Representable (env : Env) (st : DbState) : Command → Prop
  | .set key val opts => ∀ flags ttl st', setRequest opts = some (flags, some ttl) →
      execCmd env st (.set key val opts) = some (st', [.addReply Shared.ok]) →
      env.clock (st'.ticks - 1) + ttl ≤ LONG_MAX
  | _ => True

/-! ## SET -/

/-- The options never ask for NX and XX at once. -/
theorem setOptions_exclusive (opts : List Arg) (flags : SetFlags) (expire : Option Arg)
    (unit : TimeUnit) : ¬ (flags.nx = true ∧ flags.xx = true) →
    ∀ r, setOptions opts flags expire unit = some r → ¬ (r.1.nx = true ∧ r.1.xx = true) := by
  induction opts, flags, expire, unit using setOptions.induct with
  | case1 flags expire unit =>
      intro h r hr
      simp only [setOptions, Option.some.injEq] at hr
      rw [← hr]
      exact h
  | case2 flags expire unit a rest hnx ih =>
      intro h r hr
      rw [setOptions.eq_def] at hr
      simp only [hnx, if_true] at hr
      refine ih ?_ r hr
      simp only [Bool.and_eq_true, Bool.not_eq_true'] at hnx
      simp [hnx.2]
  | case3 flags expire unit a rest hnx hxx ih =>
      intro h r hr
      rw [setOptions.eq_def] at hr
      simp only [hnx, hxx, if_true] at hr
      refine ih ?_ r hr
      simp only [Bool.and_eq_true, Bool.not_eq_true'] at hxx
      simp [hxx.2]
  | case4 flags expire unit a hnx hxx next rest' hex ih =>
      intro h r hr
      rw [setOptions.eq_def] at hr
      simp only [hnx, hxx, hex, if_true] at hr
      exact ih h r hr
  | case5 flags expire unit a hnx hxx next rest' hex hpx ih =>
      intro h r hr
      rw [setOptions.eq_def] at hr
      simp only [hnx, hxx, hex, hpx, if_true] at hr
      exact ih h r hr
  | case6 flags expire unit a hnx hxx next rest' hex hpx =>
      intro h r hr
      rw [setOptions.eq_def] at hr
      simp [hnx, hxx, hex, hpx] at hr
  | case7 flags expire unit a hnx hxx =>
      intro h r hr
      rw [setOptions.eq_def] at hr
      simp [hnx, hxx] at hr

theorem setRefused_spec (hm : env.Master) (h : Represents env st ks) (key : Bytes)
    {flags : SetFlags} (hex : ¬ (flags.nx = true ∧ flags.xx = true)) :
    ∃ st' r, setRefused env st flags key = some (st', r) ∧ Represents env st' ks ∧
      Lazily env st st' ∧ (r = false ↔ Admits ks key (env.clock st.ticks) flags) := by
  obtain ⟨st', heq, hrep, hlazy, hshow⟩ := lookupKeyWrite_spec hm h key
  have hnone : live ks key (env.clock st.ticks) = none ↔ st'.db.dict.lookup key = none := by
    rw [← hshow, Option.map_eq_none_iff]
  cases hnx : flags.nx with
  | true =>
      have hxx : flags.xx = false := by
        cases hxx : flags.xx with
        | false => rfl
        | true => exact absurd ⟨hnx, hxx⟩ hex
      cases hl : st'.db.dict.lookup key with
      | none =>
          refine ⟨st', false, by simp [setRefused, hnx, hxx, heq, hl], hrep, hlazy, ?_⟩
          simp [Admits, hnx, hxx, hnone, hl]
      | some o =>
          refine ⟨st', true, by simp [setRefused, hnx, heq, hl], hrep, hlazy, ?_⟩
          simp [Admits, hnx, hxx, hnone, hl]
  | false =>
      cases hxx : flags.xx with
      | true =>
          refine ⟨st', (st'.db.dict.lookup key).isNone, by simp [setRefused, hnx, hxx, heq], hrep,
            hlazy, ?_⟩
          simp [Admits, hnx, hxx, hnone, Option.isNone_iff_eq_none, ← Bool.not_eq_true]
      | false =>
          refine ⟨st, false, by simp [setRefused, hnx, hxx], h, Lazily.refl st, ?_⟩
          simp [Admits, hnx, hxx]

theorem getLongLong_arg (a : Arg) : getLongLongFromObject a.obj = string2ll a.s := by
  unfold Arg.obj
  split <;> rfl

/-- The check of the expire argument agrees with `setRequest`. -/
theorem setMilliseconds_spec {opts : List Arg} {flags : SetFlags} {expire : Option Arg}
    {unit : TimeUnit} (ho : setOptions opts OBJ_SET_NO_FLAGS none .seconds
      = some (flags, expire, unit)) :
    (∃ msg calls, setRequest opts = none ∧ setMilliseconds expire unit = .error calls ∧
      replyBytes calls = cstr "-ERR " ++ msg ++ cstr "\r\n") ∨
    (∃ ttl milliseconds, setRequest opts = some (flags, ttl) ∧
      setMilliseconds expire unit = .ok milliseconds ∧
      ((ttl = none ∧ milliseconds = none) ∨
        ∃ n ms, ttl = some n ∧ milliseconds = some ms ∧ 0 < n ∧ ms = toLong n)) := by
  have herr : ∀ s, replyBytes (addReplyErrorLength s) = cstr "-ERR " ++ s ++ cstr "\r\n" := by
    intro s
    simp [replyBytes, addReplyErrorLength, ReplyCall.bytes]
  cases expire with
  | none => exact Or.inr ⟨none, none, by simp [setRequest, ho], rfl, Or.inl ⟨rfl, rfl⟩⟩
  | some arg =>
      simp only [setMilliseconds, getLongLong_arg]
      cases hn : string2ll arg.s with
      | none => exact Or.inl ⟨_, _, by simp [setRequest, ho, hn], rfl, herr _⟩
      | some n =>
          obtain ⟨h₁, h₂, _⟩ := string2ll_sound hn
          by_cases hpos : n ≤ 0
          · exact Or.inl ⟨_, _, by simp [setRequest, ho, hn, hpos], by simp [hpos]; rfl, herr _⟩
          · have hmax : LONG_MAX = 2 ^ 63 - 1 := rfl
            cases unit with
            | seconds =>
                refine Or.inr ⟨some (n * 1000), some (toLong (n * 1000)),
                  by simp [setRequest, ho, hn, hpos], by simp [hpos],
                  Or.inr ⟨_, _, rfl, rfl, by omega, rfl⟩⟩
            | milliseconds =>
                exact Or.inr ⟨some n, some n, by simp [setRequest, ho, hn, hpos], by simp [hpos],
                  Or.inr ⟨_, _, rfl, rfl, by omega, (toLong_eq (by omega) (by omega)).symm⟩⟩

/-- What an argument is stored as. -/
theorem storedArg_ok (val : Arg) :
    (tryObjectEncoding val.refcount val.obj).Ok ∧
      (tryObjectEncoding val.refcount val.obj).isString = true ∧
      (tryObjectEncoding val.refcount val.obj).bytes = val.s := by
  have hobj : val.obj.Ok ∧ val.obj.isString = true ∧ val.obj.bytes = val.s := by
    unfold Arg.obj
    split <;> exact ⟨True.intro, rfl, rfl⟩
  refine ⟨tryObjectEncoding_ok _ hobj.1, ?_, ?_⟩
  · rw [isString_tryObjectEncoding, hobj.2.1]
  · rw [bytes_tryObjectEncoding, hobj.2.2]

theorem setCommand_spec (hm : env.Master) (h : Represents env st ks) (key : Bytes) (val : Arg)
    (opts : List Arg) (hrep : Representable env st (.set key val opts)) :
    ∃ st' reply, setCommand env st key val opts = some (st', reply) ∧
      Represents env st' (absStep env st.ticks st'.ticks ks (.set key val opts)) ∧
      st.ticks ≤ st'.ticks ∧ Answers env ks st st' reply (.set key val opts) := by
  have hok : replyBytes [.addReply Shared.ok] = cstr "+OK\r\n" := by
    simp [replyBytes, ReplyCall.bytes, Shared.ok, Robj.bytes]
  have hnil : replyBytes [.addReply Shared.nullbulk] = cstr "$-1\r\n" := by
    simp [replyBytes, ReplyCall.bytes, Shared.nullbulk, Robj.bytes]
  have hsyn : replyBytes [.addReply Shared.syntaxerr]
      = cstr "-ERR " ++ cstr "syntax error" ++ cstr "\r\n" := by
    simp [replyBytes, ReplyCall.bytes, Shared.syntaxerr, Robj.bytes, cstr]
  cases ho : setOptions opts OBJ_SET_NO_FLAGS none .seconds with
  | none =>
      have hreq : setRequest opts = none := by simp [setRequest, ho]
      refine ⟨st, [.addReply Shared.syntaxerr], by simp only [setCommand, ho], ?_,
        Nat.le_refl _, ?_⟩
      · simpa only [absStep, hreq] using h
      · simp only [Answers, hreq]
        exact ⟨⟨_, hsyn⟩, Lazily.refl st⟩
  | some r =>
      obtain ⟨flags, expire, unit⟩ := r
      rcases setMilliseconds_spec ho with ⟨msg, calls, hreq, hms, hcalls⟩ |
        ⟨ttl, milliseconds, hreq, hms, hrel⟩
      · -- the expire argument is refused
        refine ⟨st, calls, by simp only [setCommand, ho, setGenericCommand, hms], ?_,
          Nat.le_refl _, ?_⟩
        · simpa only [absStep, hreq] using h
        · simp only [Answers, hreq]
          exact ⟨⟨msg, hcalls⟩, Lazily.refl st⟩
      have hexcl : ¬ (flags.nx = true ∧ flags.xx = true) :=
        setOptions_exclusive opts _ _ _ (by decide) _ ho
      obtain ⟨st₁, refused, hrefEq, hrep₁, hlazy, hadm⟩ := setRefused_spec hm h key hexcl
      cases refused with
      | true =>
          have hno : ¬ Admits ks key (env.clock st.ticks) flags :=
            fun ha => absurd (hadm.mpr ha) (by simp)
          refine ⟨st₁, [.addReply Shared.nullbulk],
            by simp only [setCommand, ho, setGenericCommand, hms, hrefEq], ?_, hlazy.ticks, ?_⟩
          · simpa only [absStep, hreq, hno, if_false] using hrep₁
          · simp only [Answers, hreq, hno, if_false]
            exact ⟨hnil, hlazy⟩
      | false =>
          have hyes := hadm.mp rfl
          obtain ⟨hvok, hvstr, hvb⟩ := storedArg_ok val
          have hvlen : ((tryObjectEncoding val.refcount val.obj).bytes.length : Int) ≤ LONG_MAX := by
            rw [hvb]; exact val.len_lt
          obtain ⟨st₂, hset, ht₂, hlk₂, _, hrep₂⟩ := setKey_spec hm hrep₁ key ⟨hvok, hvstr, hvlen⟩
          have hle := Nat.le_trans hlazy.ticks ht₂
          rcases hrel with ⟨rfl, rfl⟩ | ⟨n, ms, rfl, rfl, hpos, hfit⟩
          · -- no expire argument
            refine ⟨st₂, [.addReply Shared.ok],
              by simp only [setCommand, ho, setGenericCommand, hms, hrefEq, hset], ?_, hle, ?_⟩
            · rw [hvb] at hrep₂
              simpa only [absStep, hreq, hyes, if_true, Option.map_none] using hrep₂
            · simp only [Answers, hreq, hyes, if_true]
              exact hok
          · -- a time to live, counted from one more reading
            have hmem₂ : key ∈ st₂.db.dict := AList.lookup_isSome.mp (by rw [hlk₂]; rfl)
            have heq : setCommand env st key val opts = some
                (⟨{ st₂.db with
                    expires := st₂.db.expires.insert key (toLong (env.clock st₂.ticks + ms)) },
                  st₂.ticks + 1⟩, [.addReply Shared.ok]) := by
              simp only [setCommand, ho, setGenericCommand, hms, hrefEq, hset, mstime, setExpire,
                hmem₂, if_true]
            have hclock : 0 ≤ env.clock st₂.ticks :=
              Int.le_trans hm.nonneg (hm.mono 0 _ (Nat.zero_le _))
            have hsum : env.clock st₂.ticks + n ≤ LONG_MAX := hrep flags n _ hreq heq
            have hwhen : toLong (env.clock st₂.ticks + ms) = env.clock st₂.ticks + n := by
              have hmax : LONG_MAX = 2 ^ 63 - 1 := rfl
              have hms : ms = n := hfit.trans (toLong_eq (by omega) (by omega))
              rw [hms, toLong_eq (by omega) (by omega)]
            rw [hwhen] at heq
            refine ⟨_, _, heq, ?_, Nat.le_succ_of_le hle, ?_⟩
            · simp only [absStep, hreq, hyes, if_true, Option.map_some, Nat.add_sub_cancel]
              have hstore := @Represents.store _ _ _ hrep₂ key
                (tryObjectEncoding val.refcount val.obj) (some (env.clock st₂.ticks + n))
                ({ st₂.db with expires := st₂.db.expires.insert key (env.clock st₂.ticks + n) })
                _ (Nat.le_succ st₂.ticks) ⟨hvok, hvstr, hvlen⟩ (fun w hw => by cases hw; omega)
                (fun k => ?_) (fun k => ?_)
              · rw [Function.update_idem, hvb] at hstore
                exact hstore
              · show st₂.db.dict.lookup k = _
                split
                · next hk => rw [hk]; exact hlk₂
                · rfl
              · show (st₂.db.expires.insert key _).lookup k = _
                split
                · next hk => rw [hk]; exact AList.lookup_insert _
                · next hk => exact AList.lookup_insert_ne hk
            · simp only [Answers, hreq, hyes, if_true]
              exact hok

/-! ## GET and DEL -/

theorem getCommand_spec (hm : env.Master) (h : Represents env st ks) (key : Bytes) :
    ∃ st' reply, getCommand env st key = some (st', reply) ∧ Represents env st' ks ∧
      st.ticks ≤ st'.ticks ∧ Answers env ks st st' reply (.get key) := by
  obtain ⟨st', heq, hrep, hlazy, hshow⟩ := lookupKeyRead_spec hm h key
  cases hl : st'.db.dict.lookup key with
  | none =>
      rw [hl] at heq
      refine ⟨st', [.addReply Shared.nullbulk], by simp only [getCommand, heq], hrep, hlazy.ticks,
        ?_, hlazy⟩
      rw [← hshow, hl]
      simp [replyBytes, ReplyCall.bytes, Shared.nullbulk, Robj.bytes]
  | some o =>
      rw [hl] at heq
      obtain ⟨hok, hstr, hlen⟩ := hrep.obj key o hl
      refine ⟨st', addReplyBulk o, by simp [getCommand, heq, hstr], hrep, hlazy.ticks, ?_, hlazy⟩
      rw [← hshow, hl]
      exact replyBytes_bulk hok hstr hlen

/-- One key of a DEL. -/
theorem delKey_spec (hm : env.Master) (h : Represents env st ks) (key : Bytes) :
    ∃ st', expireIfNeeded env st key = some st' ∧ st.ticks ≤ st'.1.ticks ∧
      (dbDelete st'.1.db key).2 = decide (live ks key (env.clock st.ticks) ≠ none) ∧
      Represents env { st'.1 with db := (dbDelete st'.1.db key).1 }
        (Function.update ks key none) := by
  obtain ⟨st', r, heq, hrep, hlazy, hshow, _⟩ := expireIfNeeded_spec hm h key
  refine ⟨(st', r), heq, hlazy.ticks, ?_, ?_⟩
  · rw [dbDelete_status]
    have hmem : key ∈ st'.db.dict ↔ live ks key (env.clock st.ticks) ≠ none := by
      rw [← hshow, ne_eq, Option.map_eq_none_iff, AList.lookup_eq_none, not_not]
    simp [hmem]
  · exact hrep.remove (Nat.le_refl _) (fun k hk => Function.update_of_ne hk _ _)
      (Or.inl (Function.update_self _ _ _))

/-- Removing a key and then more keys. -/
theorem update_none_keys (ks : Keyspace) (key : Bytes) (keys : List Bytes) :
    (fun k => if k ∈ keys then none else Function.update ks key none k)
      = fun k => if k ∈ key :: keys then none else ks k := by
  funext k
  by_cases hk : k = key
  · subst hk
    simp
  · simp [hk]

theorem delLoop_spec (hm : env.Master) : ∀ (keys : List Bytes) {st : DbState} {ks : Keyspace}
    (deleted : Nat), Represents env st ks →
    ∃ st' ns, delLoop env st keys deleted = some (st', deleted + delCount env ks (keys.zip ns)) ∧
      Represents env st' (fun key => if key ∈ keys then none else ks key) ∧
      st.ticks ≤ st'.ticks ∧ ns.length = keys.length ∧
      ∀ n ∈ ns, st.ticks ≤ n ∧ n ≤ st'.ticks := by
  intro keys
  induction keys with
  | nil =>
      intro st ks deleted h
      exact ⟨st, [], rfl, by simpa using h, Nat.le_refl _, rfl, by simp⟩
  | cons key keys ih =>
      intro st ks deleted h
      obtain ⟨st₁, heq, hle, hfound, hrep⟩ := delKey_spec hm h key
      obtain ⟨st', ns, hloop, hrep', hle', hlen, hns⟩ :=
        ih (deleted + if live ks key (env.clock st.ticks) = none then 0 else 1) hrep
      refine ⟨st', st.ticks :: ns, ?_, ?_, Nat.le_trans hle hle', by simp [hlen], ?_⟩
      · rw [List.zip_cons_cons, delCount, ← Nat.add_assoc, ← hloop]
        simp only [delLoop, heq, hfound, signalModifiedKey]
        by_cases hlive : live ks key (env.clock st.ticks) = none
        · simp [hlive]
        · simp [hlive]
      · rw [← update_none_keys]
        exact hrep'
      · intro n hn
        rcases List.mem_cons.mp hn with rfl | hn
        · exact ⟨Nat.le_refl _, Nat.le_trans hle hle'⟩
        · obtain ⟨h1, h2⟩ := hns n hn
          exact ⟨Nat.le_trans hle h1, h2⟩

theorem delCount_le : ∀ (l : List (Bytes × Nat)) (ks : Keyspace), delCount env ks l ≤ l.length := by
  intro l
  induction l with
  | nil => intro ks; exact Nat.le_refl 0
  | cons b l ih =>
      intro ks
      have := ih (Function.update ks b.1 none)
      simp only [delCount, List.length_cons]
      split <;> omega

theorem delCommand_spec (hm : env.Master) (h : Represents env st ks) (keys : List Bytes)
    (fits : keys.length < 2 ^ 31) :
    ∃ st' reply, delCommand env st keys = some (st', reply) ∧
      Represents env st' (fun key => if key ∈ keys then none else ks key) ∧
      st.ticks ≤ st'.ticks ∧ Answers env ks st st' reply (.del keys fits) := by
  obtain ⟨st', ns, hloop, hrep, hle, hlen, hns⟩ := delLoop_spec hm keys 0 h
  rw [Nat.zero_add] at hloop
  refine ⟨st', addReplyLongLong (delCount env ks (keys.zip ns)), by simp only [delCommand, hloop],
    hrep, hle, ns, hlen, hns, ?_⟩
  have hmin : LONG_MIN = -(2 ^ 63) := rfl
  have hmax : LONG_MAX = 2 ^ 63 - 1 := rfl
  have hcount : delCount env ks (keys.zip ns) ≤ (keys.zip ns).length := delCount_le _ ks
  rw [List.length_zip] at hcount
  exact replyBytes_longLong (by omega) (by omega)

/-! ## Runs -/

/-- One request. -/
theorem execCmd_spec (hm : env.Master) (h : Represents env st ks) (c : Command)
    (hrep : Representable env st c) :
    ∃ st' reply, execCmd env st c = some (st', reply) ∧
      Represents env st' (absStep env st.ticks st'.ticks ks c) ∧
      Answers env ks st st' reply c := by
  cases c with
  | set key val opts =>
      obtain ⟨st', reply, heq, hr, _, ha⟩ := setCommand_spec hm h key val opts hrep
      exact ⟨st', reply, heq, hr, ha⟩
  | get key =>
      obtain ⟨st', reply, heq, hr, _, ha⟩ := getCommand_spec hm h key
      exact ⟨st', reply, heq, hr, ha⟩
  | del keys fits =>
      obtain ⟨st', reply, heq, hr, _, ha⟩ := delCommand_spec hm h keys fits
      exact ⟨st', reply, heq, hr, ha⟩

/-- The keyspace a history of requests leaves: for every key its last successful SET
that no DEL has followed. -/
def history (env : Env) (st : DbState) (ks : Keyspace) : List Command → Keyspace
  | [] => ks
  | c :: cs =>
      match execCmd env st c with
      | none => ks
      | some (st', _) => history env st' (absStep env st.ticks st'.ticks ks c) cs

/-- Every deadline a run asks for is a `long long`. -/
def RepresentableRun (env : Env) (st : DbState) : List Command → Prop
  | [] => True
  | c :: cs => Representable env st c ∧
      ∀ st' reply, execCmd env st c = some (st', reply) → RepresentableRun env st' cs

theorem execRun_spec (hm : env.Master) : ∀ (cs : List Command) {st : DbState} {ks : Keyspace},
    Represents env st ks → RepresentableRun env st cs →
    ∃ st' replies, execRun env st cs = some (st', replies) ∧
      Represents env st' (history env st ks cs) := by
  intro cs
  induction cs with
  | nil => intro st ks h _; exact ⟨st, [], rfl, h⟩
  | cons c cs ih =>
      intro st ks h hrep
      obtain ⟨st₁, reply, heq, hr, _⟩ := execCmd_spec hm h c hrep.1
      obtain ⟨st', replies, heq', hr'⟩ := ih hr (hrep.2 st₁ reply heq)
      refine ⟨st', reply :: replies, by simp only [execRun, heq, heq'], ?_⟩
      simpa only [history, heq] using hr'

/-- The state of a server that has just started. -/
def DbState.init : DbState := ⟨RedisDb.empty, 0⟩

theorem represents_init : Represents env DbState.init (fun _ => none) where
  sub := fun key hkey => absurd hkey (AList.notMem_empty key)
  obj := fun key o ho => absurd ho (by simp [DbState.init, RedisDb.empty])
  pos := fun key w hw => absurd hw (by simp [DbState.init, RedisDb.empty])
  bound := fun key s dl h => absurd h (by simp)
  free := fun key _ => by simp [DbState.init, RedisDb.empty, RedisDb.binding]

/-- **The keyspace.**  After any run from an empty database no assertion has failed,
keys with an expire time are keys of the database, and any further request answers as
the history of SETs and DELs demands, leaving alone what it has to leave alone. -/
theorem keyspace_semantics (hm : env.Master) (cs : List Command)
    (hrep : RepresentableRun env DbState.init cs) :
    ∃ st replies, execRun env DbState.init cs = some (st, replies) ∧ st.db.ExpiresSub ∧
      ∀ c, Representable env st c → ∃ st' reply, execCmd env st c = some (st', reply) ∧
        Answers env (history env DbState.init (fun _ => none) cs) st st' reply c := by
  obtain ⟨st, replies, heq, hr⟩ := execRun_spec hm cs represents_init hrep
  refine ⟨st, replies, heq, hr.sub, fun c hc => ?_⟩
  obtain ⟨st', reply, heq', _, ha⟩ := execCmd_spec hm hr c hc
  exact ⟨st', reply, heq', ha⟩

/-- A master whose clock is read every 7 ms for a while. -/
def steadyEnv : Env := ⟨fun n => 1000 + 7 * (min n 100 : Nat), false, false, none, false⟩

theorem steadyEnv_master : steadyEnv.Master where
  masterhost := rfl
  loading := rfl
  luaCaller := rfl
  nonneg := by simp [steadyEnv]
  mono := fun m n h => by simp only [steadyEnv]; omega

/-- An argument as the parser creates it. -/
def mkArg (s : String) (h : ((cstr s).length : Int) ≤ LONG_MAX) : Arg :=
  ⟨cstr s, decide ((cstr s).length ≤ OBJ_ENCODING_EMBSTR_SIZE_LIMIT), 1, h⟩

/-- `SET a 5 PX 10`, `GET a` and `DEL a b`. -/
def shortRun : List Command :=
  [.set (cstr "a") (mkArg "5" (by decide)) [mkArg "PX" (by decide), mkArg "10" (by decide)],
   .get (cstr "a"), .del [cstr "a", cstr "b"] (by decide)]

theorem keyspace_semantics_short :
    ∃ st replies, execRun steadyEnv DbState.init shortRun = some (st, replies) ∧
      st.db.ExpiresSub := by
  have hrep : RepresentableRun steadyEnv DbState.init shortRun := by
    refine ⟨?_, fun _ _ _ => ⟨True.intro, fun _ _ _ => ⟨True.intro, fun _ _ _ => True.intro⟩⟩⟩
    intro flags ttl st' hreq _
    have hset : setRequest [mkArg "PX" (by decide), mkArg "10" (by decide)]
        = some (⟨false, false, false, true⟩, some 10) := by decide
    rw [hset] at hreq
    cases hreq
    have hmax : LONG_MAX = 2 ^ 63 - 1 := rfl
    simp only [steadyEnv]
    omega
  obtain ⟨st, replies, heq, hsub, _⟩ := keyspace_semantics steadyEnv_master shortRun hrep
  exact ⟨st, replies, heq, hsub⟩

end RedisCore
