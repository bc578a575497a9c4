/-
# `RedisCore.Modifies` — which keys a request changes

`Touches` names the keys a request is going to change, from the request and the state
before it: a SET that is carried out, a key a DEL finds, a key a lookup finds expired.
`Modified` is the same thing seen afterwards.  The two agree, for every expire time a
database can hold, also one that wrapped around to a negative number and therefore
never passes.
-/
import RedisCore.Keyspace

namespace RedisCore

variable {env : Env} {st st' : DbState}

/-- The expire time of a key has passed at the next reading. -/
def Expired (env : Env) (st : DbState) (key : Bytes) : Prop :=
  ∃ w, st.db.expires.lookup key = some w ∧ 0 ≤ w ∧ w < env.clock st.ticks

/-- The key is there, and a lookup would find it. -/
def Alive (env : Env) (st : DbState) (key : Bytes) : Prop :=
  key ∈ st.db.dict ∧ ¬ Expired env st key

/-- The keys a request is going to change. -/
def Touches (env : Env) (st : DbState) : Command → Bytes → Prop
  | .set key _ opts, k => k = key ∧ ∃ flags ttl, setRequest opts = some (flags, ttl) ∧
      (((flags.nx = true → ¬ Alive env st key) ∧ (flags.xx = true → Alive env st key)) ∨
        Expired env st key)
  | .get key, k => k = key ∧ Expired env st key
  | .del keys _, k => k ∈ keys ∧ k ∈ st.db.dict

/-- The keys a request has changed: a successful SET, or a removal. -/
def Modified (st st' : DbState) (reply : List ReplyCall) (c : Command) (k : Bytes) : Prop :=
  (∃ val opts, c = .set k val opts ∧ reply = [.addReply Shared.ok]) ∨
    (k ∈ st.db.dict ∧ k ∉ st'.db.dict)

/-! ## The check for expiry -/

theorem expireIfNeeded_cases (hm : env.Master) (h : st.db.ExpiresSub) (key : Bytes) :
    ∃ st' r, expireIfNeeded env st key = some (st', r) ∧ st.ticks ≤ st'.ticks ∧
      ((¬ Expired env st key ∧ st'.db = st.db ∧ r = false) ∨
        (Expired env st key ∧ st'.db = (dbDelete st.db key).1 ∧ r = true)) := by
  unfold expireIfNeeded
  rw [getExpire_eq h]
  cases hw : st.db.expires.lookup key with
  | none =>
      refine ⟨st, false, by simp, Nat.le_refl _, Or.inl ⟨?_, rfl, rfl⟩⟩
      rintro ⟨w, hw', _⟩
      rw [hw] at hw'
      exact absurd hw' (by simp)
  | some w =>
      by_cases hneg : w < 0
      · refine ⟨st, false, by simp [hneg], Nat.le_refl _, Or.inl ⟨?_, rfl, rfl⟩⟩
        rintro ⟨w', hw', hpos, _⟩
        rw [hw] at hw'
        cases hw'
        omega
      · by_cases hnow : env.clock st.ticks ≤ w
        · refine ⟨{ st with ticks := st.ticks + 1 }, false, ?_, Nat.le_succ _,
            Or.inl ⟨?_, rfl, rfl⟩⟩
          · simp [hm.loading, hm.luaCaller, hm.masterhost, mstime, hnow, hneg]
          · rintro ⟨w', hw', _, hlt⟩
            rw [hw] at hw'
            cases hw'
            omega
        · obtain ⟨o, ho⟩ := (expiresSub_iff st.db).mp h key w hw
          have hmem : key ∈ st.db.dict := AList.lookup_isSome.mp (by rw [ho]; rfl)
          refine ⟨⟨(dbDelete st.db key).1, st.ticks + 1⟩, (dbDelete st.db key).2, ?_, Nat.le_succ _,
            Or.inr ⟨⟨w, hw, by omega, by omega⟩, rfl, ?_⟩⟩
          · simp [hm.loading, hm.luaCaller, hm.masterhost, mstime, hnow, hneg]
          · rw [dbDelete_status]
            simpa using hmem

theorem dbDelete_sub {db : RedisDb} (h : db.ExpiresSub) (key : Bytes) :
    (dbDelete db key).1.ExpiresSub := by
  rw [expiresSub_iff] at h ⊢
  intro k w hw
  rw [dbDelete_expires] at hw
  rw [dbDelete_dict]
  by_cases hk : k = key
  · rw [if_pos hk] at hw; exact absurd hw (by simp)
  · rw [if_neg hk] at hw ⊢; exact h k w hw

theorem mem_dbDelete {db : RedisDb} {key k : Bytes} :
    k ∈ (dbDelete db key).1.dict ↔ k ≠ key ∧ k ∈ db.dict := by
  rw [← AList.lookup_isSome, ← AList.lookup_isSome, dbDelete_dict]
  by_cases hk : k = key
  · simp [hk]
  · simp [hk]

/-- What is left after the check: everything, less the key if it has expired. -/
structure Checked (env : Env) (st st' : DbState) (key : Bytes) : Prop where
  sub : st'.db.ExpiresSub
  mem : ∀ k, k ∈ st'.db.dict ↔ k ∈ st.db.dict ∧ ¬ (k = key ∧ Expired env st key)
  watched : st'.db.watchedKeys = st.db.watchedKeys

theorem expireIfNeeded_checked (hm : env.Master) (h : st.db.ExpiresSub) (key : Bytes) :
    ∃ st' r, expireIfNeeded env st key = some (st', r) ∧ Checked env st st' key := by
  obtain ⟨st', r, heq, _, ⟨hex, hdb, _⟩ | ⟨hex, hdb, _⟩⟩ := expireIfNeeded_cases hm h key
  · refine ⟨st', r, heq, ⟨hdb ▸ h, fun k => ?_, by rw [hdb]⟩⟩
    rw [hdb]
    simp [hex]
  · refine ⟨st', r, heq, ⟨hdb ▸ dbDelete_sub h key, fun k => ?_, ?_⟩⟩
    · rw [hdb, mem_dbDelete]
      simp [hex, and_comm]
    · rw [hdb, dbDelete_watchedKeys]

/-- A lookup for writing answers whether the key is alive. -/
theorem lookupKeyWrite_checked (hm : env.Master) (h : st.db.ExpiresSub) (key : Bytes) :
    ∃ st' o, lookupKeyWrite env st key = some (st', o) ∧ Checked env st st' key ∧
      o = st'.db.dict.lookup key ∧ (o = none ↔ ¬ Alive env st key) := by
  obtain ⟨st', r, heq, hc⟩ := expireIfNeeded_checked hm h key
  refine ⟨st', st'.db.dict.lookup key, by simp [lookupKeyWrite, heq, lookupKey], hc, rfl, ?_⟩
  rw [AList.lookup_eq_none, hc.mem, Alive]
  simp

/-! ## One request -/

/-- What a request comes to, as far as the keys are concerned. -/
structure Effect (env : Env) (st st' : DbState) (reply : List ReplyCall) (c : Command) : Prop where
  sub : st'.db.ExpiresSub
  watched : st'.db.watchedKeys = st.db.watchedKeys
  modified : ∀ k, Modified st st' reply c k ↔ Touches env st c k

theorem expired_mem (h : st.db.ExpiresSub) {key : Bytes} (he : Expired env st key) :
    key ∈ st.db.dict := by
  obtain ⟨w, hw, _⟩ := he
  exact h key (AList.lookup_isSome.mp (by rw [hw]; rfl))

/-- A key goes missing in the check exactly if it was there and has expired. -/
theorem Checked.lost {key : Bytes} (hc : Checked env st st' key) (h : st.db.ExpiresSub) (k : Bytes) :
    (k ∈ st.db.dict ∧ k ∉ st'.db.dict) ↔ k = key ∧ Expired env st key := by
  rw [hc.mem]
  constructor
  · rintro ⟨hmem, hno⟩
    by_contra hne
    exact hno ⟨hmem, hne⟩
  · rintro ⟨rfl, he⟩
    exact ⟨expired_mem h he, fun hno => hno.2 ⟨rfl, he⟩⟩

theorem setRefused_checked (hm : env.Master) (h : st.db.ExpiresSub) (key : Bytes)
    {flags : SetFlags} (hex : ¬ (flags.nx = true ∧ flags.xx = true)) :
    ∃ st' r, setRefused env st flags key = some (st', r) ∧
      (r = false ↔ (flags.nx = true → ¬ Alive env st key) ∧ (flags.xx = true → Alive env st key)) ∧
      (Checked env st st' key ∨ (st' = st ∧ flags.nx = false ∧ flags.xx = false)) := by
  obtain ⟨st', o, heq, hc, _, ho⟩ := lookupKeyWrite_checked hm h key
  cases hnx : flags.nx with
  | true =>
      have hxx : flags.xx = false := by
        cases hxx : flags.xx with
        | false => rfl
        | true => exact absurd ⟨hnx, hxx⟩ hex
      cases o with
      | none =>
          exact ⟨st', false, by simp [setRefused, hnx, hxx, heq],
            by simpa [hxx] using ho, Or.inl hc⟩
      | some o =>
          exact ⟨st', true, by simp [setRefused, hnx, heq],
            by simpa [hxx] using ho, Or.inl hc⟩
  | false =>
      cases hxx : flags.xx with
      | true =>
          refine ⟨st', o.isNone, by simp [setRefused, hnx, hxx, heq], ?_, Or.inl hc⟩
          cases o with
          | none => simpa using ho
          | some o => simpa using ho
      | false => exact ⟨st, false, by simp [setRefused, hnx, hxx], by simp, Or.inr ⟨rfl, rfl, rfl⟩⟩

theorem setKey_checked (hm : env.Master) (h : st.db.ExpiresSub) (key : Bytes) (val : Robj) :
    ∃ st', setKey env st key val = some st' ∧ st'.db.ExpiresSub ∧
      st'.db.watchedKeys = st.db.watchedKeys ∧
      ∀ k, k ∈ st'.db.dict ↔ k = key ∨ k ∈ st.db.dict := by
  obtain ⟨st₁, o, heq, hc, ho, _⟩ := lookupKeyWrite_checked hm h key
  have hstore : storeKey st₁.db key val o
      = some { st₁.db with dict := st₁.db.dict.insert key val } := by
    rw [ho]
    cases hl : st₁.db.dict.lookup key with
    | none => simp [storeKey, dbAdd, AList.lookup_eq_none.mp hl]
    | some o =>
        have hmem : key ∈ st₁.db.dict := AList.lookup_isSome.mp (by rw [hl]; rfl)
        simp [storeKey, dbOverwrite, hmem]
  have hmem : key ∈ st₁.db.dict.insert key val := (AList.mem_insert _).mpr (Or.inl rfl)
  refine ⟨⟨{ st₁.db with
      dict := st₁.db.dict.insert key val
      expires := st₁.db.expires.erase key }, st₁.ticks⟩, ?_, ?_, hc.watched, fun k => ?_⟩
  · simp only [setKey, heq, hstore, removeExpire, hmem, if_true, signalModifiedKey]
  · intro k hk
    rw [AList.mem_erase] at hk
    exact (AList.mem_insert _).mpr (Or.inr (hc.sub k hk.2))
  · rw [AList.mem_insert, hc.mem]
    by_cases hk : k = key
    · simp [hk]
    · simp [hk]

theorem setCommand_effect (hm : env.Master) (h : st.db.ExpiresSub) (key : Bytes) (val : Arg)
    (opts : List Arg) :
    ∃ st' reply, setCommand env st key val opts = some (st', reply) ∧
      Effect env st st' reply (.set key val opts) := by
  -- a request that is turned down at once changes nothing
  have hkept : ∀ reply : List ReplyCall, reply ≠ [.addReply Shared.ok] → setRequest opts = none →
      Effect env st st reply (.set key val opts) := by
    intro reply hne hreq
    refine ⟨h, rfl, fun k => ?_⟩
    constructor
    · rintro (⟨_, _, _, hok⟩ | ⟨hin, hout⟩)
      · exact absurd hok hne
      · exact absurd hin hout
    · rintro ⟨_, flags, ttl, hsome, _⟩
      rw [hreq] at hsome
      exact absurd hsome (by simp)
  cases ho : setOptions opts OBJ_SET_NO_FLAGS none .seconds with
  | none =>
      exact ⟨st, [.addReply Shared.syntaxerr], by simp only [setCommand, ho],
        hkept _ (by decide) (by simp [setRequest, ho])⟩
  | some r =>
      obtain ⟨flags, expire, unit⟩ := r
      rcases setMilliseconds_spec ho with ⟨msg, calls, hreq, hms, hcalls⟩ |
        ⟨ttl, milliseconds, hreq, hms, _⟩
      · refine ⟨st, calls, by simp only [setCommand, ho, setGenericCommand, hms],
          hkept _ ?_ hreq⟩
        rintro rfl
        have hc := congrArg (fun b : Bytes => b.take 1) hcalls
        exact absurd hc (by simp [replyBytes, ReplyCall.bytes, Shared.ok, Robj.bytes, cstr])
      have hexcl : ¬ (flags.nx = true ∧ flags.xx = true) :=
        setOptions_exclusive opts _ _ _ (by decide) _ ho
      obtain ⟨st₁, refused, hrefEq, hadm, hst₁⟩ := setRefused_checked hm h key hexcl
      have hsub₁ : st₁.db.ExpiresSub := by
        rcases hst₁ with hc | ⟨rfl, _⟩
        · exact hc.sub
        · exact h
      have hw₁ : st₁.db.watchedKeys = st.db.watchedKeys := by
        rcases hst₁ with hc | ⟨rfl, _⟩
        · exact hc.watched
        · rfl
      cases refused with
      | true =>
          refine ⟨st₁, [.addReply Shared.nullbulk],
            by simp only [setCommand, ho, setGenericCommand, hms, hrefEq], hsub₁, hw₁, fun k => ?_⟩
          have hno : ¬ ((flags.nx = true → ¬ Alive env st key) ∧
              (flags.xx = true → Alive env st key)) := fun ha => absurd (hadm.mpr ha) (by simp)
          have hc : Checked env st st₁ key := by
            rcases hst₁ with hc | ⟨_, hnx, hxx⟩
            · exact hc
            · exact absurd ⟨by simp [hnx], by simp [hxx]⟩ hno
          have hne : ([.addReply Shared.nullbulk] : List ReplyCall) ≠ [.addReply Shared.ok] := by
            decide
          rw [Modified, hc.lost h]
          constructor
          · rintro (⟨_, _, _, hok⟩ | ⟨rfl, he⟩)
            · exact absurd hok hne
            · exact ⟨rfl, flags, ttl, hreq, Or.inr he⟩
          · rintro ⟨rfl, flags', ttl', hreq', ha | he⟩
            · rw [hreq] at hreq'
              cases hreq'
              exact absurd ha hno
            · exact Or.inr ⟨rfl, he⟩
      | false =>
          have hyes := hadm.mp rfl
          obtain ⟨st₂, hset, hsub₂, hw₂, hmem₂⟩ :=
            setKey_checked hm hsub₁ key (tryObjectEncoding val.refcount val.obj)
          -- only the key itself can have been lost on the way
          have hkeep : ∀ k, k ∈ st.db.dict → k ∈ st₂.db.dict := by
            intro k hk
            rw [hmem₂]
            by_cases hkk : k = key
            · exact Or.inl hkk
            · refine Or.inr ?_
              rcases hst₁ with hc | ⟨rfl, _⟩
              · rw [hc.mem]
                exact ⟨hk, fun hx => hkk hx.1⟩
              · exact hk
          have heff : ∀ st' : DbState, (∀ k, k ∈ st'.db.dict ↔ k ∈ st₂.db.dict) →
              st'.db.ExpiresSub → st'.db.watchedKeys = st₂.db.watchedKeys →
              Effect env st st' [.addReply Shared.ok] (.set key val opts) := by
            intro st' hmem' hsub' hw'
            refine ⟨hsub', hw'.trans (hw₂.trans hw₁), fun k => ?_⟩
            constructor
            · rintro (⟨v, o, hcmd, _⟩ | ⟨hin, hout⟩)
              · cases hcmd
                exact ⟨rfl, flags, ttl, hreq, Or.inl hyes⟩
              · exact absurd ((hmem' k).mpr (hkeep k hin)) hout
            · rintro ⟨rfl, _⟩
              exact Or.inl ⟨val, opts, rfl, rfl⟩
          cases milliseconds with
          | none =>
              exact ⟨st₂, [.addReply Shared.ok],
                by simp only [setCommand, ho, setGenericCommand, hms, hrefEq, hset],
                heff st₂ (fun _ => Iff.rfl) hsub₂ rfl⟩
          | some ms =>
              have hkey : key ∈ st₂.db.dict := (hmem₂ key).mpr (Or.inl rfl)
              let w := CInt.toLong (env.clock st₂.ticks + ms)
              refine ⟨⟨{ st₂.db with expires := st₂.db.expires.insert key w }, st₂.ticks + 1⟩,
                [.addReply Shared.ok], ?_, heff _ (fun _ => Iff.rfl) ?_ rfl⟩
              · simp only [setCommand, ho, setGenericCommand, hms, hrefEq, hset, mstime, setExpire,
                  hkey, if_true, w]
              · intro k hk
                rcases (AList.mem_insert _).mp hk with rfl | hk
                · exact hkey
                · exact hsub₂ k hk

theorem getCommand_effect (hm : env.Master) (h : st.db.ExpiresSub) (key : Bytes) :
    ∃ st' reply, getCommand env st key = some (st', reply) ∧
      Effect env st st' reply (.get key) := by
  obtain ⟨st', r, heq, hc⟩ := expireIfNeeded_checked hm h key
  have hread : ∃ o, lookupKeyRead env st key = some (st', o) := by
    unfold lookupKeyRead
    rw [heq]
    simp only
    split <;> exact ⟨_, rfl⟩
  obtain ⟨o, hread⟩ := hread
  have hget : ∃ reply, getCommand env st key = some (st', reply) := by
    unfold getCommand
    rw [hread]
    cases o with
    | none => exact ⟨_, rfl⟩
    | some o =>
        simp only
        split <;> exact ⟨_, rfl⟩
  obtain ⟨reply, hget⟩ := hget
  refine ⟨st', reply, hget, hc.sub, hc.watched, fun k => ?_⟩
  rw [Modified, hc.lost h]
  constructor
  · rintro (⟨_, _, hcmd, _⟩ | hk)
    · exact absurd hcmd (by simp)
    · exact hk
  · exact Or.inr

theorem delLoop_effect (hm : env.Master) : ∀ (keys : List Bytes) {st : DbState} (deleted : Nat),
    st.db.ExpiresSub → ∃ st' n, delLoop env st keys deleted = some (st', n) ∧
      st'.db.ExpiresSub ∧ st'.db.watchedKeys = st.db.watchedKeys ∧
      ∀ k, k ∈ st'.db.dict ↔ k ∈ st.db.dict ∧ k ∉ keys := by
  intro keys
  induction keys with
  | nil => intro st deleted h; exact ⟨st, deleted, rfl, h, rfl, by simp⟩
  | cons key keys ih =>
      intro st deleted h
      obtain ⟨st₁, r, heq, hc⟩ := expireIfNeeded_checked hm h key
      obtain ⟨st', n, hloop, hsub, hw, hmem⟩ :=
        @ih { st₁ with db := (dbDelete st₁.db key).1 }
          (if (dbDelete st₁.db key).2 then deleted + 1 else deleted) (dbDelete_sub hc.sub key)
      refine ⟨st', n, ?_, hsub, ?_, fun k => ?_⟩
      · rw [← hloop]
        simp only [delLoop, heq, signalModifiedKey]
        split <;> rfl
      · rw [hw]
        exact (dbDelete_watchedKeys st₁.db key).trans hc.watched
      · rw [hmem]
        show k ∈ (dbDelete st₁.db key).1.dict ∧ k ∉ keys ↔ _
        rw [mem_dbDelete, hc.mem, List.mem_cons]
        constructor
        · rintro ⟨⟨hne, hin, _⟩, hout⟩
          exact ⟨hin, by rintro (h' | h'); exact hne h'; exact hout h'⟩
        · rintro ⟨hin, hout⟩
          exact ⟨⟨fun hk => hout (Or.inl hk), hin, fun hx => hout (Or.inl hx.1)⟩,
            fun hk => hout (Or.inr hk)⟩

theorem delCommand_effect (hm : env.Master) (h : st.db.ExpiresSub) (keys : List Bytes)
    (fits : keys.length < 2 ^ 31) :
    ∃ st' reply, delCommand env st keys = some (st', reply) ∧
      Effect env st st' reply (.del keys fits) := by
  obtain ⟨st', n, hloop, hsub, hw, hmem⟩ := delLoop_effect hm keys 0 h
  refine ⟨st', addReplyLongLong n, by simp only [delCommand, hloop], hsub, hw, fun k => ?_⟩
  rw [Modified, hmem]
  constructor
  · rintro (⟨_, _, hcmd, _⟩ | ⟨hin, hout⟩)
    · exact absurd hcmd (by simp)
    · exact ⟨by by_contra hk; exact hout ⟨hin, hk⟩, hin⟩
  · rintro ⟨hk, hin⟩
    exact Or.inr ⟨hin, fun hx => hx.2 hk⟩

/-- A request changes exactly the keys it touches, and no assertion fails. -/
theorem execCmd_effect (hm : env.Master) (h : st.db.ExpiresSub) (c : Command) :
    ∃ st' reply, execCmd env st c = some (st', reply) ∧ Effect env st st' reply c := by
  cases c with
  | set key val opts => exact setCommand_effect hm h key val opts
  | get key => exact getCommand_effect hm h key
  | del keys fits => exact delCommand_effect hm h keys fits

end RedisCore
