/-
# `RedisCore.Networking.Bulk` — bulk replies on the wire (networking.c)

A bulk reply is a header with the length, the bytes and a line end, handed on in two or
three calls.  Four functions make one: from a string object, from memory, from a dynamic
string and from a number.  They count the length in different ways and hand the bytes on
through different entry points of the output buffers.

What the calls come to on the wire is settled once, for any list of calls: a client that
takes replies gets the bytes of the calls in order, behind whatever it is owed already.
-/
import RedisCore.Networking.ReplyRuns
import RedisCore.Compare
import RedisCore.Sds

namespace RedisCore

open CInt Decimal

/-- `addReplyBulkCBuffer`. -/
def addReplyBulkCBuffer (p : Bytes) : List ReplyCall :=
  addReplyLongLongWithPrefix p.length 36 ++ [.addReplyString p, .addReply Shared.crlf]

/-- `addReplyBulkSds`. -/
def addReplyBulkSds (s : Bytes) : Option (List ReplyCall) :=
  (sdscatfmt [] (cstr "$%u\r\n") [.num s.length]).map (fun header =>
    [.addReplySds header, .addReplySds s, .addReply Shared.crlf])

/-- `addReplyBulkLongLong`. -/
def addReplyBulkLongLong (ll : Int) : List ReplyCall :=
  let buf := ll2string (List.replicate 64 0) ll
  addReplyBulkCBuffer (buf.1.take buf.2)

/-! ## What the calls spell -/

theorem replyBytes_append (cs ds : List ReplyCall) :
    replyBytes (cs ++ ds) = replyBytes cs ++ replyBytes ds := List.flatMap_append

theorem replyBytes_bulkCBuffer {p : Bytes} (h : (p.length : Int) ≤ LONG_MAX) :
    replyBytes (addReplyBulkCBuffer p) = respBulk p := by
  rw [addReplyBulkCBuffer, replyBytes_append,
    replyBytes_longLongWithPrefix (Int.le_trans (by decide) (Int.natCast_nonneg _)) h]
  simp [replyBytes, ReplyCall.bytes, respBulk, Shared.crlf, Robj.bytes, cstr]

theorem addReplyBulkSds_eq {s : Bytes} (h : s.length < 2 ^ 32) :
    addReplyBulkSds s = some [.addReplySds (cstr "$" ++ decInt s.length ++ cstr "\r\n"),
      .addReplySds s, .addReply Shared.crlf] := by
  have hfmt : cstr "$%u\r\n" = [36, 37, 117, 13, 10] := by decide
  have huint : toUInt (s.length : Int) = s.length := by
    unfold toUInt
    omega
  have hnum : decInt (s.length : Int) = sdsull2str s.length := by
    rw [sdsull2str_eq (by omega), decInt, if_neg (by omega), Int.natAbs_natCast]
  rw [addReplyBulkSds, hfmt, hnum]
  simp [sdscatfmt, sdsConversion, huint, cstr]

theorem addReplyBulkLongLong_eq {ll : Int} (h₁ : LONG_MIN ≤ ll) (h₂ : ll ≤ LONG_MAX) :
    addReplyBulkLongLong ll = addReplyBulkCBuffer (decInt ll) := by
  have hlen := length_decInt_le h₁ h₂
  have hroom : (decInt ll).length < (List.replicate 64 (0 : UInt8)).length := by
    rw [List.length_replicate]
    omega
  rw [addReplyBulkLongLong, ll2string_eq h₁ h₂ hroom, List.take_left]

namespace Output

open HoleStream Clients

variable {s s' : Out} {calls : List ReplyCall} {acts : List Action}

/-! ## Any list of calls -/

/-- The client takes replies: it is not refused them, and not about to be closed. -/
def Takes (k : Conn) : Bool := k.accepts && !k.flags.closeAfterReply

/-- A client between two calls, whether or not it is to be closed after the reply. -/
structure Settled (s : Out) : Prop where
  ok : s.Ok
  sent : SentOk s.buf s.sentlen (chunks s)

/-- An action makes a call: an object that is handed on is a string object, and the
caller holds a reference to it. -/
inductive Makes (s : Out) : ReplyCall → Action → Prop
  | object {r : Robj} {o : ObjId} {n : Nat} (hr : r.isString = true)
      (ho : s.heap o = some ⟨n, some r⟩) (hheld : refs s.reply o < n) :
      Makes s (.addReply r) (.addReply o)
  | sds (b : Bytes) : Makes s (.addReplySds b) (.addReplySds b)
  | string (b : Bytes) : Makes s (.addReplyString b) (.addReplyString b)

/-- The actions one after the other. -/
def actAll (s : Out) (acts : List Action) : Option Out := acts.foldlM act s

/-- What a call does to the stream. -/
structure Sends (s s' : Out) (b : Bytes) : Prop where
  settled : Settled s'
  conn : s'.conn = s.conn
  kept : Kept s s'
  stream : stream s' = stream s ++ syms (if Takes s.conn then b else [])

theorem Settled.good (h : Settled s) (hopen : s.conn.flags.closeAfterReply = false) : Good s :=
  ⟨h.ok, hopen, h.sent⟩

theorem Good.settled (h : Good s) : Settled s := ⟨h.ok, h.sent⟩

/-- A call for a client that takes no replies leaves the stream as it is, but may have used
up an address. -/
theorem sends_nothing (h : Settled s) (htakes : Takes s.conn = false) {k : Nat}
    (hk : s.nextObj ≤ k) (b : Bytes) : Sends s { s with nextObj := k } b := by
  refine ⟨⟨⟨h.ok.cells, fun o ho => h.ok.fresh o (Nat.le_trans hk ho), h.ok.ids, h.ok.idLt⟩,
    h.sent⟩, rfl, kept_refl s, ?_⟩
  rw [htakes]
  exact (List.append_nil _).symm

/-- An object that is created and given up at once leaves the heap as it was. -/
theorem addReplyDecoded_closing (h : s.Ok) (hclose : s.conn.flags.closeAfterReply = true)
    (value : Int) : addReplyDecoded s value = some { s with nextObj := s.nextObj + 1 } := by
  have hnew : s.heap s.nextObj = none := h.fresh _ (Nat.le_refl _)
  have hheap : ∀ c, Function.update (Function.update s.heap s.nextObj c) s.nextObj none = s.heap := by
    intro c
    rw [Function.update_idem, ← hnew, Function.update_eq_self]
  simp [addReplyDecoded, addReplyEncoded, addReplyToBuffer, createObject, decrRefCount, Out.setCell,
    hclose, hheap]

/-- **One call** for a client that is to be closed after the reply. -/
theorem call_closing (h : Settled s) (hclose : s.conn.flags.closeAfterReply = true)
    {c : ReplyCall} {a : Action} (hm : Makes s c a) : ∃ s', act s a = some s' ∧ Sends s s' c.bytes := by
  have htakes : Takes s.conn = false := by rw [Takes, hclose]; simp
  have hsame : ∃ k, s.nextObj ≤ k ∧ act s a = some { s with nextObj := k } := by
    cases hm with
    | sds b =>
        exact ⟨_, Nat.le_refl _, by simp [act, addReplySds, addReplyToBuffer, hclose]⟩
    | string b =>
        exact ⟨_, Nat.le_refl _, by simp [act, addReplyString, addReplyToBuffer, hclose]⟩
    | @object r o n hr ho hheld =>
        have hdec := addReplyDecoded_closing h.ok hclose
        cases r with
        | raw b =>
            exact ⟨_, Nat.le_refl _, by simp [act, addReply, ho, addReplyEncoded,
              addReplyToBuffer, hclose]⟩
        | embstr b =>
            exact ⟨_, Nat.le_refl _, by simp [act, addReply, ho, addReplyEncoded,
              addReplyToBuffer, hclose]⟩
        | int value =>
            by_cases hacc : s.conn.accepts = true
            · by_cases hroom : s.reply = [] ∧ PROTO_REPLY_CHUNK_BYTES - s.buf.length ≥ 32
              · refine ⟨s.nextObj, Nat.le_refl _, ?_⟩
                simp only [act, addReply, ho, hacc, Bool.not_true, Bool.false_eq_true, if_false]
                rw [if_pos hroom]
                simp only [addReplyToBuffer, hclose, if_true]
              · exact ⟨_, Nat.le_succ _, by simp only [act, addReply, ho, hacc, hroom, hdec,
                  Bool.not_true, Bool.false_eq_true, if_false]⟩
            · exact ⟨_, Nat.le_refl _, by simp [act, addReply, hacc]⟩
        | other type => exact absurd hr (by simp [Robj.isString])
  obtain ⟨k, hk, heq⟩ := hsame
  exact ⟨_, heq, sends_nothing h htakes hk _⟩

theorem Adds.sends {b : Bytes} (h : Adds s s' (if s.conn.accepts then b else []))
    (hopen : s.conn.flags.closeAfterReply = false) (hkept : Kept s s') : Sends s s' b := by
  refine ⟨h.good.settled, h.conn, hkept, ?_⟩
  rw [h.stream, Takes, hopen]
  simp

/-- **One call.** -/
theorem call_spec (h : Settled s) {c : ReplyCall} {a : Action} (hm : Makes s c a) :
    ∃ s', act s a = some s' ∧ Sends s s' c.bytes := by
  cases hclose : s.conn.flags.closeAfterReply with
  | true => exact call_closing h hclose hm
  | false =>
      have hgood := h.good hclose
      cases hm with
      | object hr ho hheld =>
          obtain ⟨s', heq, hadds, hkept⟩ := addReply_spec hgood ho hr
          exact ⟨s', heq, hadds.sends hclose hkept⟩
      | sds b =>
          obtain ⟨s', heq, hadds, hkept⟩ := addReplySds_spec hgood b
          exact ⟨s', heq, hadds.sends hclose hkept⟩
      | string b =>
          obtain ⟨s', heq, hadds, hkept⟩ := addReplyString_spec hgood b
          exact ⟨s', heq, hadds.sends hclose hkept⟩

/-- What the caller holds it still holds after a call. -/
theorem Makes.kept (hkept : Kept s s') {c : ReplyCall} {a : Action} (hm : Makes s c a) :
    Makes s' c a := by
  cases hm with
  | object hr ho hheld =>
      obtain ⟨⟨n, obj⟩, ho', hobj, hcount⟩ := hkept _ _ ho hheld
      simp only at hobj hcount
      subst hobj
      exact .object hr ho' (by omega)
  | sds b => exact .sds b
  | string b => exact .string b

/-- **All calls**: the stream grows by their bytes, in order. -/
theorem calls_spec (calls : List ReplyCall) : ∀ {s : Out} {acts : List Action}, Settled s →
    List.Forall₂ (Makes s) calls acts → ∃ s', actAll s acts = some s' ∧ Sends s s' (replyBytes calls) := by
  induction calls with
  | nil =>
      intro s acts h hm
      cases hm
      refine ⟨s, rfl, h, rfl, kept_refl s, ?_⟩
      show stream s = stream s ++ syms (if Takes s.conn then [] else [])
      rw [ite_self, syms_nil, List.append_nil]
  | cons c calls ih =>
      intro s acts h hm
      cases hm with
      | cons hc hrest =>
          obtain ⟨s₁, heq, hsends⟩ := call_spec h hc
          obtain ⟨s', hall, hsends'⟩ := ih hsends.settled
            (hrest.imp (fun _ _ hm => hm.kept hsends.kept))
          refine ⟨s', ?_, hsends'.settled, hsends'.conn.trans hsends.conn,
            kept_trans hsends.kept hsends'.kept, ?_⟩
          · rw [actAll, List.foldlM_cons, heq]
            exact hall
          · rw [hsends'.stream, hsends.stream, hsends.conn, List.append_assoc, ← syms_append]
            cases Takes s.conn <;> rfl

/-- Calls for a client, in order, while the rest of the server does as it likes with the
heap and the sockets: what it does in between leaves what this client is owed. -/
inductive Served : Out → List ReplyCall → Out → Prop
  | done (s : Out) : Served s [] s
  | call {s s₁ s' : Out} {c : ReplyCall} {a : Action} {calls : List ReplyCall} :
      Makes s c a → act s a = some s₁ → Served s₁ calls s' → Served s (c :: calls) s'
  | other {s s₁ s' : Out} {calls : List ReplyCall} :
      Settled s₁ → s₁.conn = s.conn → Output.stream s₁ = Output.stream s →
      Served s₁ calls s' → Served s calls s'

/-- **Calls with a server around them**: the stream grows by their bytes, in order. -/
theorem Served.stream_eq (h : Served s calls s') (hs : Settled s) :
    Settled s' ∧ s'.conn = s.conn ∧
      Output.stream s' = Output.stream s ++ syms (if Takes s.conn then replyBytes calls else []) := by
  induction h with
  | done s =>
      refine ⟨hs, rfl, ?_⟩
      show Output.stream s = Output.stream s ++ syms (if Takes s.conn then [] else [])
      rw [ite_self, syms_nil, List.append_nil]
  | call hm heq _ ih =>
      obtain ⟨s₂, heq₂, hsends⟩ := call_spec hs hm
      rw [heq] at heq₂
      cases heq₂
      obtain ⟨hs', hconn, hstream⟩ := ih hsends.settled
      refine ⟨hs', hconn.trans hsends.conn, ?_⟩
      rw [hstream, hsends.stream, hsends.conn, List.append_assoc, ← syms_append]
      cases Takes _ <;> rfl
  | other hs₁ hconn₁ hstream₁ _ ih =>
      obtain ⟨hs', hconn, hstream⟩ := ih hs₁
      exact ⟨hs', hconn.trans hconn₁, by rw [hstream, hstream₁, hconn₁]⟩

/-! ## The four functions -/

/-- However the calls are made, the client is owed `reply` more, or nothing more if it takes
no replies. -/
def Appends (s : Out) (calls : List ReplyCall) (reply : Bytes) : Prop :=
  ∀ acts, List.Forall₂ (Makes s) calls acts →
    ∃ s', actAll s acts = some s' ∧ Settled s' ∧
      stream s' = stream s ++ syms (if Takes s.conn then reply else [])

theorem Settled.appends (h : Settled s) {calls : List ReplyCall} {reply : Bytes}
    (hreply : replyBytes calls = reply) : Appends s calls reply := by
  intro acts hm
  obtain ⟨s', heq, hsends⟩ := calls_spec calls h hm
  exact ⟨s', heq, hsends.settled, by rw [hsends.stream, hreply]⟩

/-- **Bulk replies are well framed.**  Whatever the client is owed, a bulk reply of a string
object in any encoding adds its length, its bytes and the line ends, and the three other
functions add the same for the same bytes. -/
theorem bulk_reply_framed (h : Settled s) (obj : StringObj) :
    let reply := cstr "$" ++ decInt obj.bytes.length ++ cstr "\r\n" ++ obj.bytes ++ cstr "\r\n"
    Appends s (addReplyBulk obj.val) reply ∧
    Appends s (addReplyBulkCBuffer obj.bytes) reply ∧
    (∃ calls, addReplyBulkSds obj.bytes = some calls ∧ Appends s calls reply) ∧
    ∀ ll, LONG_MIN ≤ ll → ll ≤ LONG_MAX → obj.bytes = ll2str ll →
      Appends s (addReplyBulkLongLong ll) reply := by
  intro reply
  have hlen : (obj.bytes.length : Int) ≤ LONG_MAX := by
    have hshort : obj.bytes.length < 2 ^ 31 := obj.short
    have hmax : LONG_MAX = 2 ^ 63 - 1 := rfl
    omega
  refine ⟨h.appends (replyBytes_bulk obj.ok obj.isString hlen),
    h.appends (replyBytes_bulkCBuffer hlen),
    ⟨_, addReplyBulkSds_eq (Nat.lt_trans obj.short (by decide)), h.appends ?_⟩, ?_⟩
  · simp [reply, replyBytes, ReplyCall.bytes, Shared.crlf, Robj.bytes]
  · intro ll h₁ h₂ hll
    rw [addReplyBulkLongLong_eq h₁ h₂, ← ll2str_eq h₁ h₂, ← hll]
    exact h.appends (replyBytes_bulkCBuffer hlen)

/-- A client that has just connected, on a heap of these objects. -/
def holding (objs : List Robj) : Out where
  conn := ⟨7, Flags.fresh, .none, false⟩
  buf := []
  sentlen := 0
  reply := []
  heap := fun o => objs[o]?.map (fun r => ⟨1, some r⟩)
  nextObj := objs.length
  nextNode := 0
  socket := []

theorem holding_fresh (objs : List Robj) : Fresh (holding objs) := by
  refine ⟨rfl, rfl, rfl, rfl, rfl, fun o cell ho => ?_, fun o ho => ?_⟩
  · obtain ⟨r, _, rfl⟩ := Option.map_eq_some_iff.mp ho
    exact ⟨Nat.one_pos, by simp⟩
  · show objs[o]?.map _ = none
    rw [List.getElem?_eq_none ho]
    rfl

/-- The least `long` as an INT object. -/
theorem bulk_reply_framed_min : ∃ s',
    actAll (holding [.int LONG_MIN, Shared.bulkhdr 20, Shared.crlf])
      [.addReply 1, .addReply 0, .addReply 2] = some s' ∧ Settled s' ∧
      stream s' = syms (cstr "$20\r\n-9223372036854775808\r\n") := by
  have hmin : (Robj.int LONG_MIN).bytes = cstr "-9223372036854775808" := by decide +kernel
  have hlen : decInt (cstr "-9223372036854775808").length = cstr "20" := by
    rw [← ll2str_eq (by decide) (by decide)]
    decide +kernel
  have hcalls : addReplyBulk (.int LONG_MIN) =
      [.addReply (Shared.bulkhdr 20), .addReply (.int LONG_MIN), .addReply Shared.crlf] := by
    have hneg : LONG_MIN < 0 := by decide
    have hlt : (20 : Int) < OBJ_SHARED_BULKHDR_LEN := by decide
    simp [addReplyBulk, addReplyBulkLen, if_pos hneg, radix10Loop_long_min, hlt]
  have hframed := (bulk_reply_framed
    (holding_fresh [.int LONG_MIN, Shared.bulkhdr 20, Shared.crlf]).good.settled
    ⟨.int LONG_MIN, rfl, ⟨by decide, by decide⟩, by rw [hmin]; decide⟩).1
  simp only [StringObj.bytes, hmin, hlen, hcalls] at hframed
  exact hframed [.addReply 1, .addReply 0, .addReply 2]
    (.cons (.object rfl rfl Nat.one_pos) (.cons (.object rfl rfl Nat.one_pos)
      (.cons (.object rfl rfl Nat.one_pos) .nil)))

end Output

end RedisCore
