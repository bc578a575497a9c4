/-
# `RedisCore.Networking.ReplyRuns` — writing to the socket, and whole runs

`writeToClient` moves bytes from the front of what is pending to the socket, so the
stream stays what it is; that is an invariant of its loop, whatever the socket takes in
each round.  With the lemmas for the calls that add to the output this gives the law
for runs: the stream is what the client is owed.

The books of a run say what the client is owed: the replies made while
`prepareClientToWrite` accepts them, in logical order.
-/
import RedisCore.Networking.ReplyStream

namespace RedisCore

namespace Output

open HoleStream Clients CInt Decimal

variable {s s' : Out} {o : ObjId} {b : Bytes} {n : Nat} {cs : List (Nat × Option Bytes)}

/-- Every multibulk length on the list is set. -/
def AllSet (s : Out) : Prop := ∀ c ∈ chunks s, c.2 ≠ none

theorem headString_eq (h : s.Ok) {ln : Node} (hln : ln ∈ s.reply)
    (hc : content s.heap ln.value = some b) : headString s ln = some b := by
  have hcell := h.cells ln.value
  have hpos := refs_pos hln
  cases ho : s.heap ln.value with
  | none => simp [content, ho] at hc
  | some cell =>
      obtain ⟨m, obj⟩ := cell
      cases obj with
      | none => simp [content, ho] at hc
      | some r =>
          rw [ho] at hcell
          obtain ⟨b', hb'⟩ := Option.isSome_iff_exists.mp (hcell.2.2 hpos)
          rw [content_of_heap ho, Robj.bytes_of_sds? hb'] at hc
          simp only [headString, ho, hb']
          exact hc

/-- The head of the list, when it is set. -/
theorem head_chunk (h : s.Ok) (hset : AllSet s) {ln : Node} {rest : List Node}
    (hl : s.reply = ln :: rest) :
    ∃ b, headString s ln = some b ∧ chunks s = (ln.id, some b) :: view s.heap rest := by
  have hchunks : chunks s = (ln.id, content s.heap ln.value) :: view s.heap rest := by
    rw [chunks, hl, view_cons]
  cases hc : content s.heap ln.value with
  | none =>
      rw [hc] at hchunks
      exact absurd rfl (hset (ln.id, none) (by rw [hchunks]; exact List.mem_cons_self))
  | some b =>
      rw [hc] at hchunks
      exact ⟨b, headString_eq h (by rw [hl]; exact List.mem_cons_self) hc, hchunks⟩

/-- A part of `writeToClient`: the stream stays, and nothing else of note changes. -/
structure Writes (s s' : Out) : Prop where
  good : Good s'
  conn : s'.conn = s.conn
  stream : stream s' = stream s
  allSet : AllSet s'

theorem writes_refl (h : Good s) (hset : AllSet s) : Writes s s := ⟨h, rfl, rfl, hset⟩

theorem Writes.trans {s₁ s₂ s₃ : Out} (h₁ : Writes s₁ s₂) (h₂ : Writes s₂ s₃) : Writes s₁ s₃ :=
  ⟨h₂.good, h₂.conn.trans h₁.conn, h₂.stream.trans h₁.stream, h₂.allSet⟩

/-- The head of the list has gone to the socket up to its end. -/
theorem deleteHead_writes (h : Good s) (hset : AllSet s) (hbuf : s.buf = []) {ln : Node}
    {rest : List Node} (hl : s.reply = ln :: rest) {out : Bytes} (m : Nat)
    (hb : headString s ln = some b) (hout : out = s.socket ++ b.drop s.sentlen) :
    ∃ s', deleteHead { s with socket := out, sentlen := m } = some s' ∧
      Writes s { s' with sentlen := 0 } ∧ s'.buf = [] ∧ s'.reply = rest ∧ s'.sentlen = m := by
  obtain ⟨b', hb', hchunks⟩ := head_chunk h.ok hset hl
  rw [hb] at hb'
  cases hb'
  have hok : Out.Ok { s with socket := out, sentlen := m } := h.ok
  obtain ⟨s', heq, hstep, hrest⟩ := deleteHead_spec hok hl
  have hle : s.sentlen ≤ b.length := by
    rcases h.sent with hz | ⟨hne, _⟩ | ⟨_, _, _, _, hcs, hlt⟩
    · omega
    · exact absurd hbuf hne
    · rw [hchunks] at hcs
      cases hcs
      exact Nat.le_of_lt hlt
  have hclosed : s'.conn.flags.closeAfterReply = false := by
    rw [hstep.conn]
    exact h.notClosing
  refine ⟨s', heq, ⟨⟨hstep.ok, hclosed, Or.inl rfl⟩, hstep.conn, ?_, ?_⟩, hstep.buf.trans hbuf, hrest,
    hstep.sentlen⟩
  · show syms s'.socket ++ pendingAtoms s'.buf 0 (chunks s') = _
    rw [hstep.socket, hstep.buf, hstep.chunks, stream, hbuf, hchunks, hout]
    simp only [pendingAtoms, if_true, List.drop_zero, List.flatMap_cons, syms_append]
    rw [List.drop_append_of_le_length (by simpa [chunkAtoms] using hle), List.append_assoc]
    congr 1
    show _ = (syms b).drop s.sentlen ++ _
    rw [drop_syms]
  · intro c hc
    rw [show chunks { s' with sentlen := 0 } = chunks s' from rfl, hstep.chunks] at hc
    exact hset c (by rw [hchunks]; exact List.mem_cons_of_mem _ hc)

/-- The rounds that delete empty heads. -/
theorem deleteEmptyHeads_spec : ∀ (l : List Node) {s : Out}, Good s → AllSet s → s.buf = [] →
    s.reply = l → ∃ s', deleteEmptyHeads l s = some s' ∧ Writes s s' ∧ s'.buf = [] ∧
      ∀ ln rest, s'.reply = ln :: rest → ∀ b, headString s' ln = some b → b ≠ [] := by
  intro l
  induction l with
  | nil =>
      intro s h hset hbuf hl
      refine ⟨s, rfl, writes_refl h hset, hbuf, fun ln rest hl' => ?_⟩
      rw [hl] at hl'
      exact absurd hl' (by simp)
  | cons ln rest ih =>
      intro s h hset hbuf hl
      obtain ⟨b, hb, hchunks⟩ := head_chunk h.ok hset hl
      simp only [deleteEmptyHeads, hb]
      by_cases hempty : b = []
      · have hsent : s.sentlen = 0 := by
          rcases h.sent with hz | ⟨hne, _⟩ | ⟨_, _, _, _, hcs, hlt⟩
          · exact hz
          · exact absurd hbuf hne
          · rw [hchunks] at hcs
            cases hcs
            rw [hempty] at hlt
            exact absurd hlt (Nat.not_lt_zero _)
        obtain ⟨s₁, heq, hw, hbuf₁, hl₁, hsent₁⟩ :=
          @deleteHead_writes s b h hset hbuf ln rest hl s.socket s.sentlen hb (by simp [hempty])
        have hs₁ : { s₁ with sentlen := 0 } = s₁ := by rw [← hsent, ← hsent₁]
        rw [hs₁] at hw
        obtain ⟨s', heq', hw', hbuf', hhead⟩ := ih hw.good hw.allSet hbuf₁ hl₁
        refine ⟨s', ?_, hw.trans hw', hbuf', hhead⟩
        rw [if_pos hempty]
        exact (congrArg (Option.bind · _) heq).trans heq'
      · refine ⟨s, by rw [if_neg hempty], writes_refl h hset, hbuf, fun ln' rest' hl' b' hb' => ?_⟩
        rw [hl] at hl'
        cases hl'
        rw [hb] at hb'
        cases hb'
        exact hempty

/-- A round that writes from the static buffer. -/
theorem writeBuffer_spec (h : Good s) (hset : AllSet s) (hbuf : s.buf ≠ [])
    (hn : n ≤ s.buf.length - s.sentlen) : Writes s (writeBuffer s n) := by
  have hlt : s.sentlen ≤ s.buf.length := by
    rcases h.sent with hz | ⟨_, hlt⟩ | ⟨he, _⟩
    · omega
    · exact Nat.le_of_lt hlt
    · exact absurd he hbuf
  unfold writeBuffer
  simp only
  split
  · next hall =>
      have htake : (s.buf.drop s.sentlen).take n = s.buf.drop s.sentlen :=
        List.take_of_length_le (by rw [List.length_drop]; omega)
      refine ⟨⟨h.ok, h.notClosing, Or.inl rfl⟩, rfl, ?_, hset⟩
      show syms (s.socket ++ _) ++ pendingAtoms [] 0 (chunks s) = _
      rw [stream, htake, syms_append, List.append_assoc]
      simp only [pendingAtoms, if_true, if_neg hbuf, List.drop_zero]
  · next hsome =>
      refine ⟨⟨h.ok, h.notClosing, Or.inr (Or.inl ⟨hbuf, by simp only; omega⟩)⟩, rfl, ?_, hset⟩
      show syms (s.socket ++ _) ++ pendingAtoms s.buf (s.sentlen + n) (chunks s) = _
      rw [stream, syms_append, List.append_assoc]
      simp only [pendingAtoms, if_neg hbuf]
      congr 1
      rw [← List.append_assoc, ← syms_append, ← List.drop_drop, List.take_append_drop]

/-- A round that writes from the head of the list. -/
theorem writeHead_spec (h : Good s) (hset : AllSet s) (hbuf : s.buf = []) {ln : Node}
    {rest : List Node} (hl : s.reply = ln :: rest) (hb : headString s ln = some b)
    (hn : n ≤ b.length - s.sentlen) : ∃ s', writeHead s b n = some s' ∧ Writes s s' := by
  obtain ⟨b', hb', hchunks⟩ := head_chunk h.ok hset hl
  rw [hb] at hb'
  cases hb'
  have hle : s.sentlen ≤ b.length := by
    rcases h.sent with hz | ⟨hne, _⟩ | ⟨_, _, _, _, hcs, hlt⟩
    · omega
    · exact absurd hbuf hne
    · rw [hchunks] at hcs
      cases hcs
      exact Nat.le_of_lt hlt
  unfold writeHead
  simp only
  split
  · next hall =>
      have htake : (b.drop s.sentlen).take n = b.drop s.sentlen :=
        List.take_of_length_le (by rw [List.length_drop]; omega)
      obtain ⟨s', heq, hw, _⟩ := @deleteHead_writes s b h hset hbuf ln rest hl
        (s.socket ++ (b.drop s.sentlen).take n) (s.sentlen + n) hb (by rw [htake])
      exact ⟨_, by rw [heq]; rfl, hw⟩
  · next hsome =>
      refine ⟨_, rfl, ⟨h.ok, h.notClosing, Or.inr (Or.inr ⟨hbuf, ln.id, b, _, hchunks, ?_⟩)⟩, rfl,
        ?_, hset⟩
      · simp only
        omega
      · show syms (s.socket ++ _) ++ pendingAtoms s.buf (s.sentlen + n) (chunks s) = _
        rw [stream, syms_append, List.append_assoc, hbuf, hchunks]
        simp only [pendingAtoms, if_true, List.flatMap_cons]
        rw [List.drop_append_of_le_length (by simp only [chunkAtoms, length_syms]; omega),
          List.drop_append_of_le_length (by simpa [chunkAtoms] using hle)]
        show _ ++ (_ ++ ((syms b).drop (s.sentlen + n) ++ _))
          = syms s.socket ++ ((syms b).drop s.sentlen ++ _)
        rw [drop_syms, drop_syms, ← List.append_assoc (syms ((b.drop s.sentlen).take n)),
          ← syms_append, ← List.drop_drop, List.take_append_drop]

/-- **The loop of `writeToClient`** keeps the stream, whatever the socket takes. -/
theorem writeLoop_spec : ∀ (tries : List WriteTry) (totwritten : Nat) {s : Out}, Good s → AllSet s →
    ∃ s', writeLoop tries totwritten s = some s' ∧ Writes s s' := by
  intro tries
  induction tries with
  | nil =>
      intro tot s h hset
      by_cases hbuf : s.buf = []
      · obtain ⟨s₁, heq, hw, _⟩ := deleteEmptyHeads_spec s.reply h hset hbuf rfl
        exact ⟨s₁, by rw [writeLoop, if_pos hbuf, heq], hw⟩
      · exact ⟨s, by rw [writeLoop, if_neg hbuf], writes_refl h hset⟩
  | cons t tries ih =>
      intro tot s h hset
      by_cases hbuf : s.buf = []
      · obtain ⟨s₁, heq, hw, hbuf₁, _⟩ := deleteEmptyHeads_spec s.reply h hset hbuf rfl
        rw [writeLoop, if_pos hbuf, heq]
        simp only [hbuf₁]
        cases hl : s₁.reply with
        | nil => exact ⟨s₁, rfl, hw⟩
        | cons ln rest =>
            obtain ⟨b, hb, _⟩ := head_chunk hw.good.ok hw.allSet hl
            cases hroom : t.room with
            | none => exact ⟨s₁, by simp only [hb], hw⟩
            | some room =>
                simp only [hb]
                split
                · exact ⟨s₁, rfl, hw⟩
                · obtain ⟨s₂, heq₂, hw₂⟩ := writeHead_spec hw.good hw.allSet hbuf₁ hl hb
                    (Nat.min_le_right room _)
                  rw [heq₂, Option.bind_some]
                  split
                  · exact ⟨s₂, rfl, hw.trans hw₂⟩
                  · obtain ⟨s', heq', hw'⟩ := ih _ hw₂.good hw₂.allSet
                    exact ⟨s', heq', (hw.trans hw₂).trans hw'⟩
      · obtain ⟨x, xs, hcons⟩ := List.exists_cons_of_ne_nil hbuf
        rw [writeLoop, if_neg hbuf]
        simp only [hcons]
        cases hroom : t.room with
        | none => exact ⟨s, rfl, writes_refl h hset⟩
        | some room =>
            simp only
            split
            · exact ⟨s, rfl, writes_refl h hset⟩
            · rw [← hcons]
              have hw := writeBuffer_spec h hset hbuf (Nat.min_le_right room _)
              split
              · exact ⟨_, rfl, hw⟩
              · obtain ⟨s', heq', hw'⟩ := ih _ hw.good hw.allSet
                exact ⟨s', heq', hw.trans hw'⟩

/-- **`writeToClient`** -/
theorem writeToClient_spec (h : Good s) (hset : AllSet s) (tries : List WriteTry) :
    ∃ s', writeToClient s tries = some s' ∧ Writes s s' := by
  obtain ⟨s₁, heq, hw⟩ := writeLoop_spec tries 0 h hset
  cases hpend : clientHasPendingReplies s₁ with
  | true => exact ⟨s₁, by simp only [writeToClient, heq, Option.map_some, hpend, if_true], hw⟩
  | false =>
      refine ⟨{ s₁ with sentlen := 0 }, by
        simp only [writeToClient, heq, Option.map_some, hpend]; rfl, hw.trans ?_⟩
      simp only [clientHasPendingReplies, Bool.or_eq_false_iff, decide_eq_false_iff_not,
        not_not] at hpend
      have hcs : chunks s₁ = [] := by simp [chunks, view, hpend.2]
      have hz : s₁.sentlen = 0 := by
        have hs := hw.good.sent
        rw [hpend.1, hcs] at hs
        exact hs.zero_of_nil
      have hsame : { s₁ with sentlen := 0 } = s₁ := by rw [← hz]
      rw [hsame]
      exact writes_refl hw.good hw.allSet

/-! ## Runs -/

/-- What can happen to the output of a client: the calls, and what the rest of the server
does with the objects it holds and with the flags of the client. -/
inductive Action where
  | addReply (o : ObjId)
  | addReplySds (b : Bytes)
  | addReplyString (b : Bytes)
  | addDeferredMultiBulkLength
  | setDeferredMultiBulkLength (node : Option Nat) (length : Int)
  | writeToClient (tries : List WriteTry)
  | createObject (r : Robj)
  | incrRefCount (o : ObjId)
  | decrRefCount (o : ObjId)
  | setConn (k : Conn)

/-- One step. -/
def act (s : Out) : Action → Option Out
  | .addReply o => addReply s o
  | .addReplySds b => addReplySds s b
  | .addReplyString b => addReplyString s b
  | .addDeferredMultiBulkLength => some (addDeferredMultiBulkLength s).1
  | .setDeferredMultiBulkLength node length => setDeferredMultiBulkLength s node length
  | .writeToClient tries => writeToClient s tries
  | .createObject r => some (createObject s (some r)).1
  | .incrRefCount o => incrRefCount s o
  | .decrRefCount o => decrRefCount s o
  | .setConn k => some { s with conn := k }

/-- What the client is owed after a step; `counts` says when a reply counts. -/
def owedAfter (counts : Conn → Bool) (s : Out) (a : Action) (owed : List (Atom UInt8 Nat)) :
    List (Atom UInt8 Nat) :=
  match a with
  | .addReply o => if counts s.conn then owed ++ syms ((content s.heap o).getD []) else owed
  | .addReplySds b | .addReplyString b => if counts s.conn then owed ++ syms b else owed
  | .addDeferredMultiBulkLength => if counts s.conn then owed ++ [.hole s.nextNode] else owed
  | .setDeferredMultiBulkLength (some id) length => fill id (mbulkLen length) owed
  | _ => owed

/-- How the calls are used: `addReply` on a string object the caller holds, a deferred
length set once, and before the client is written to. -/
def Proper (s : Out) : Action → Prop
  | .addReply o => ∃ n r, s.heap o = some ⟨n, some r⟩ ∧ refs s.reply o < n ∧ r.isString = true
  | .setDeferredMultiBulkLength (some id) _ => OpenNode s id
  | .writeToClient _ => AllSet s
  | .incrRefCount o | .decrRefCount o =>
      ∃ cell, s.heap o = some cell ∧ refs s.reply o < cell.refcount
  | .setConn k => k.flags.closeAfterReply = false
  | _ => True

/-- A run, with the books. -/
def run (counts : Conn → Bool) : Out → List (Atom UInt8 Nat) → List Action →
    Option (Out × List (Atom UInt8 Nat))
  | s, owed, [] => some (s, owed)
  | s, owed, a :: rest =>
      match act s a with
      | none => none
      | some s' => run counts s' (owedAfter counts s a owed) rest

/-- Every step of the run is proper. -/
def ProperRun : Out → List Action → Prop
  | _, [] => True
  | s, a :: rest => Proper s a ∧ ∀ s', act s a = some s' → ProperRun s' rest

/-- A client that has just connected, on a heap of objects the rest of the server holds. -/
structure Fresh (s : Out) : Prop where
  buf : s.buf = []
  sentlen : s.sentlen = 0
  reply : s.reply = []
  socket : s.socket = []
  notClosing : s.conn.flags.closeAfterReply = false
  held : ∀ o cell, s.heap o = some cell → 0 < cell.refcount ∧ cell.obj ≠ none
  fresh : ∀ o, s.nextObj ≤ o → s.heap o = none

theorem Fresh.good (h : Fresh s) : Good s := by
  refine ⟨⟨fun o => ?_, h.fresh, ?_, ?_⟩, h.notClosing, Or.inl h.sentlen⟩
  · rw [h.reply, refs_nil]
    cases ho : s.heap o with
    | none => rfl
    | some cell =>
        obtain ⟨hpos, hobj⟩ := h.held o cell ho
        obtain ⟨m, obj⟩ := cell
        cases obj with
        | none => exact absurd rfl hobj
        | some r => exact ⟨hpos, Nat.zero_le _, fun hk => absurd hk (Nat.lt_irrefl 0)⟩
  · rw [h.reply]
    exact List.nodup_nil
  · rw [h.reply]
    exact fun _ hln => absurd hln List.not_mem_nil

theorem incrRefCount_eq {cell : Cell} (ho : s.heap o = some cell) :
    incrRefCount s o = some (s.setCell o (some { cell with refcount := cell.refcount + 1 })) := by
  simp only [incrRefCount, ho]

/-- The heap after someone who holds a reference takes another one. -/
theorem retain_ok (h : s.Ok) {cell : Cell} (ho : s.heap o = some cell)
    (hlt : refs s.reply o < cell.refcount) :
    Out.Ok (s.setCell o (some { cell with refcount := cell.refcount + 1 })) := by
  have hc := h.cells o
  rw [ho] at hc
  refine HeapOk.setCell h (h.lt ho) ?_
  obtain ⟨m, obj⟩ := cell
  cases obj with
  | none =>
      obtain ⟨hm, hk⟩ := hc
      simp only at hlt
      omega
  | some r => exact ⟨Nat.succ_pos m, Nat.le_succ_of_le hc.2.1, hc.2.2⟩

/-- Someone who holds a reference takes another one. -/
theorem incrRefCount_spec (h : Good s) {cell : Cell} (ho : s.heap o = some cell)
    (hlt : refs s.reply o < cell.refcount) :
    ∃ s', incrRefCount s o = some s' ∧ Adds s s' [] := by
  obtain ⟨m, obj⟩ := cell
  have hsame : content (Function.update s.heap o (some ⟨m + 1, obj⟩)) o = content s.heap o := by
    simp only [content, Function.update_self, ho]
    cases obj <;> rfl
  have hview : view (Function.update s.heap o (some ⟨m + 1, obj⟩)) s.reply = view s.heap s.reply :=
    view_update_same _ hsame
  refine ⟨_, incrRefCount_eq ho, ⟨⟨retain_ok h.ok ho hlt, h.notClosing, ?_⟩, rfl, ?_⟩⟩
  · show SentOk s.buf s.sentlen (view _ s.reply)
    exact hview ▸ h.sent
  · show syms s.socket ++ pendingAtoms s.buf s.sentlen (view _ s.reply) = _
    rw [show (s.setCell o (some ⟨m + 1, obj⟩)).heap
      = Function.update s.heap o (some ⟨m + 1, obj⟩) from rfl, hview, syms_nil, List.append_nil]
    rfl

/-- **One step** keeps the books. -/
theorem act_spec (h : Good s) {a : Action} (hp : Proper s a) :
    ∃ s', act s a = some s' ∧ Good s' ∧ stream s' = owedAfter Conn.accepts s a (stream s) := by
  cases a with
  | addReply o =>
      obtain ⟨m, r, ho, _, hr⟩ := hp
      obtain ⟨s', heq, hadds, _⟩ := addReply_spec h ho hr
      refine ⟨s', heq, hadds.good, ?_⟩
      rw [hadds.stream, owedAfter, content_of_heap ho]
      cases s.conn.accepts <;> simp
  | addReplySds b =>
      obtain ⟨s', heq, hadds, _⟩ := addReplySds_spec h b
      refine ⟨s', heq, hadds.good, ?_⟩
      rw [hadds.stream, owedAfter]
      cases s.conn.accepts <;> simp
  | addReplyString b =>
      obtain ⟨s', heq, hadds, _⟩ := addReplyString_spec h b
      refine ⟨s', heq, hadds.good, ?_⟩
      rw [hadds.stream, owedAfter]
      cases s.conn.accepts <;> simp
  | addDeferredMultiBulkLength =>
      cases hacc : s.conn.accepts with
      | true =>
          obtain ⟨hgood, _, _, hstream⟩ := addDeferred_spec h hacc
          exact ⟨_, rfl, hgood, by rw [hstream, owedAfter, hacc]; rfl⟩
      | false =>
          have hskip : (addDeferredMultiBulkLength s).1 = s := by
            simp [addDeferredMultiBulkLength, hacc]
          refine ⟨s, by rw [act, hskip], h, ?_⟩
          rw [owedAfter, hacc]
          rfl
  | setDeferredMultiBulkLength node length =>
      cases node with
      | none => exact ⟨s, rfl, h, rfl⟩
      | some id =>
          obtain ⟨s', heq, hgood, _, hstream⟩ := setDeferred_fills h hp length
          exact ⟨s', heq, hgood, hstream⟩
  | writeToClient tries =>
      obtain ⟨s', heq, hw⟩ := writeToClient_spec h hp tries
      exact ⟨s', heq, hw.good, hw.stream⟩
  | createObject r =>
      obtain ⟨hadds, _⟩ := createObject_good h r
      exact ⟨_, rfl, hadds.good, by rw [hadds.stream]; simp [owedAfter]⟩
  | incrRefCount o =>
      obtain ⟨cell, ho, hlt⟩ := hp
      obtain ⟨s', heq, hadds⟩ := incrRefCount_spec h ho hlt
      exact ⟨s', heq, hadds.good, by rw [hadds.stream]; simp [owedAfter]⟩
  | decrRefCount o =>
      obtain ⟨cell, ho, hlt⟩ := hp
      obtain ⟨s', heq, hadds⟩ := release_spec h ho hlt
      exact ⟨s', heq, hadds.good, by rw [hadds.stream]; simp [owedAfter]⟩
  | setConn k => exact ⟨_, rfl, ⟨h.ok, hp, h.sent⟩, rfl⟩

/-- **Every run** keeps the books. -/
theorem run_spec : ∀ (actions : List Action) {s : Out}, Good s → ProperRun s actions →
    ∃ s' owed, run Conn.accepts s (stream s) actions = some (s', owed) ∧ Good s' ∧
      stream s' = owed := by
  intro actions
  induction actions with
  | nil => intro s h _; exact ⟨s, _, rfl, h, rfl⟩
  | cons a actions ih =>
      intro s h hp
      obtain ⟨s₁, heq, hgood, hstream⟩ := act_spec h hp.1
      obtain ⟨s', owed, hrun, hgood', hend⟩ := ih hgood (hp.2 s₁ heq)
      refine ⟨s', owed, ?_, hgood', hend⟩
      rw [hstream] at hrun
      simp only [run, heq, hrun]

/-- What is still pending: the static buffer from `sentlen` and then the reply list, or
the reply list, its first chunk from `sentlen`. -/
def pending (s : Out) : Bytes :=
  if s.buf = [] then
    match chunks s with
    | [] => []
    | c :: rest => (c.2.getD []).drop s.sentlen ++ rest.flatMap (fun c => c.2.getD [])
  else s.buf.drop s.sentlen ++ (chunks s).flatMap (fun c => c.2.getD [])

theorem flat_chunks : ∀ cs : List (Nat × Option Bytes),
    flat (cs.flatMap chunkAtoms) = cs.flatMap (fun c => c.2.getD []) := by
  intro cs
  induction cs with
  | nil => rfl
  | cons c cs ih =>
      rw [List.flatMap_cons, flat_append, ih, List.flatMap_cons]
      congr 1
      obtain ⟨i, ob⟩ := c
      cases ob with
      | none => rfl
      | some b => exact flat_syms b

theorem flat_stream (h : Good s) : flat (stream s) = s.socket ++ pending s := by
  rw [stream, flat_append, flat_syms]
  congr 1
  unfold pendingAtoms pending
  split
  · next hbuf =>
      cases hcs : chunks s with
      | nil => simp [flat]
      | cons c rest =>
          rcases h.sent with hz | ⟨hne, _⟩ | ⟨_, id, b, rest', heq, hlt⟩
          · rw [hz, List.drop_zero, flat_chunks]
            simp only [List.drop_zero, List.flatMap_cons]
          · exact absurd hbuf hne
          · rw [hcs] at heq
            cases heq
            rw [List.flatMap_cons,
              List.drop_append_of_le_length (by simp only [chunkAtoms, length_syms]; omega),
              flat_append, flat_chunks]
            congr 1
            show flat ((syms b).drop s.sentlen) = b.drop s.sentlen
            rw [drop_syms, flat_syms]
  · rw [flat_append, flat_syms, flat_chunks]

/-- **The reply stream is exact.**  In every run, what the socket has taken followed by
what is pending is what the client is owed, and `sentlen` is 0 or points into a chunk. -/
theorem reply_stream_exact (hf : Fresh s) (actions : List Action) (hp : ProperRun s actions) :
    ∃ s' owed, run Conn.accepts s [] actions = some (s', owed) ∧
      s'.socket ++ pending s' = flat owed ∧ SentOk s'.buf s'.sentlen (chunks s') := by
  have hstart : stream s = [] := by
    simp [stream, hf.socket, pendingAtoms, hf.buf, chunks, view, hf.reply]
  obtain ⟨s', owed, hrun, hgood, hend⟩ := run_spec actions hf.good hp
  rw [hstart] at hrun
  exact ⟨s', owed, hrun, by rw [← flat_stream hgood, hend], hgood.sent⟩

/-- A fresh client with these flags, and a shared reply at address 0. -/
def connected (flags : Flags) : Out where
  conn := ⟨7, flags, .none, false⟩
  buf := []
  sentlen := 0
  reply := []
  heap := fun o => if o = 0 then some ⟨1, some Shared.ok⟩ else none
  nextObj := 1
  nextNode := 0
  socket := []

theorem connected_fresh {flags : Flags} (hf : flags.closeAfterReply = false) :
    Fresh (connected flags) := by
  refine ⟨rfl, rfl, rfl, rfl, hf, fun o cell ho => ?_, fun o ho => ?_⟩
  · simp only [connected] at ho
    split at ho
    · cases ho
      exact ⟨Nat.one_pos, by simp⟩
    · exact absurd ho (by simp)
  · exact if_neg (by rintro rfl; exact absurd ho (by simp [connected]))

/-- A client under CLIENT REPLY OFF is sent nothing, so that not every reply counts. -/
theorem reply_off_is_dropped : ¬ ∀ (s : Out) (actions : List Action), Fresh s →
    ProperRun s actions → ∃ s' owed, run (fun _ => true) s [] actions = some (s', owed) ∧
      s'.socket ++ pending s' = flat owed := by
  intro hall
  obtain ⟨s', owed, hrun, hflat⟩ := hall (connected { Flags.fresh with replyOff := true })
    [.addReplyString [58]] (connected_fresh rfl) ⟨True.intro, fun _ _ => True.intro⟩
  cases hrun
  exact absurd hflat (by decide)

/-- `+OK` from the shared object, of which the socket takes three bytes. -/
theorem reply_stream_exact_short : ∃ s' owed,
    run Conn.accepts (connected Flags.fresh) [] [.addReply 0, .writeToClient [⟨some 3, false⟩]]
        = some (s', owed) ∧
      s'.socket ++ pending s' = flat owed ∧ SentOk s'.buf s'.sentlen (chunks s') := by
  refine reply_stream_exact (connected_fresh rfl) _
    ⟨⟨1, Shared.ok, rfl, Nat.one_pos, rfl⟩, fun s₁ h₁ => ⟨?_, fun _ _ => True.intro⟩⟩
  cases h₁
  exact fun c hc => absurd hc List.not_mem_nil

end Output

end RedisCore
