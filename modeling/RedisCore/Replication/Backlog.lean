/-
# `RedisCore.Replication.Backlog` — the replication backlog (replication.c)

A circular buffer keeps the end of the replication stream, so that a slave that comes
back can be sent what it has missed.  Offsets in the stream count from 1, and
`master_repl_offset` is the last one.  Creating the backlog uses up an offset that no byte
has, for no slave of before may continue from there.

The history of a backlog is therefore a list of offsets in use, with the byte each one
has, if any; `master_repl_offset` is its length.  The main theorem says that every offset
that is accepted for a partial resynchronization is answered with the history from there.
-/
import RedisCore.Lib.RingBuffer
import RedisCore.Networking.ReplyRuns

namespace RedisCore

namespace Replication

/-- `CONFIG_REPL_BACKLOG_MIN_SIZE`. -/
def CONFIG_REPL_BACKLOG_MIN_SIZE : Int := 1024 * 16

/-- `CONFIG_DEFAULT_REPL_BACKLOG_SIZE`. -/
def CONFIG_DEFAULT_REPL_BACKLOG_SIZE : Int := 1024 * 1024

/-- The fields of `server` for the backlog. -/
structure Backlog where
  replBacklog : Option Bytes
  replBacklogSize : Int
  replBacklogHistlen : Int
  replBacklogIdx : Int
  replBacklogOff : Int
  masterReplOffset : Int
  deriving DecidableEq

/-- The fields as `initServerConfig` and the configuration leave them. -/
def initBacklog (size : Int) : Backlog where
  replBacklog := none
  replBacklogSize := size
  replBacklogHistlen := 0
  replBacklogIdx := 0
  replBacklogOff := 0
  masterReplOffset := 0

/-- `zmalloc`; the memory has whatever was there. -/
def zmalloc (mem : Nat → UInt8) (size : Int) : Bytes := (List.range size.toNat).map mem

/-- `createReplicationBacklog`; it asserts that there is none. -/
def createReplicationBacklog (s : Backlog) (mem : Nat → UInt8) : Option Backlog :=
  if s.replBacklog.isSome then none
  else
    let offset := s.masterReplOffset + 1
    some { s with
      replBacklog := some (zmalloc mem s.replBacklogSize)
      replBacklogHistlen := 0
      replBacklogIdx := 0
      masterReplOffset := offset
      replBacklogOff := offset + 1 }

/-- `resizeReplicationBacklog`. -/
def resizeReplicationBacklog (s : Backlog) (mem : Nat → UInt8) (newsize : Int) : Backlog :=
  let newsize :=
    if newsize < CONFIG_REPL_BACKLOG_MIN_SIZE then CONFIG_REPL_BACKLOG_MIN_SIZE else newsize
  if s.replBacklogSize = newsize then s
  else
    let s := { s with replBacklogSize := newsize }
    match s.replBacklog with
    | none => s
    | some _ =>
        { s with
          replBacklog := some (zmalloc mem newsize)
          replBacklogHistlen := 0
          replBacklogIdx := 0
          replBacklogOff := s.masterReplOffset + 1 }

/-- `freeReplicationBacklog`, when there are no slaves. -/
def freeReplicationBacklog (s : Backlog) : Backlog := { s with replBacklog := none }

/-- `memcpy` to the backlog; `none` if it would write elsewhere. -/
def writeBacklog (s : Backlog) (chunk : Bytes) : Option Backlog :=
  match s.replBacklog with
  | none => none
  | some buf =>
      if 0 ≤ s.replBacklogIdx ∧ s.replBacklogIdx + chunk.length ≤ buf.length then
        some { s with
          replBacklog := some (Splice.overwrite buf s.replBacklogIdx.toNat chunk) }
      else none

/-- The loop of `feedReplicationBacklog`; it runs at most `fuel` rounds. -/
def feedLoop : Nat → Backlog → Bytes → Option Backlog
  | _, s, [] => some s
  | 0, _, _ :: _ => none
  | fuel + 1, s, b :: p =>
      let room := (s.replBacklogSize - s.replBacklogIdx).toNat
      let thislen := if room > (b :: p).length then (b :: p).length else room
      match writeBacklog s ((b :: p).take thislen) with
      | none => none
      | some s =>
          let idx := s.replBacklogIdx + thislen
          feedLoop fuel
            { s with
              replBacklogIdx := if idx = s.replBacklogSize then 0 else idx
              replBacklogHistlen := s.replBacklogHistlen + thislen }
            ((b :: p).drop thislen)

/-- `feedReplicationBacklog`. -/
def feedReplicationBacklog (s : Backlog) (p : Bytes) : Option Backlog :=
  match feedLoop p.length { s with masterReplOffset := s.masterReplOffset + p.length } p with
  | none => none
  | some s =>
      let histlen :=
        if s.replBacklogHistlen > s.replBacklogSize then s.replBacklogSize
        else s.replBacklogHistlen
      some { s with
        replBacklogHistlen := histlen
        replBacklogOff := s.masterReplOffset - histlen + 1 }

/-- The bytes `sdsnewlen(server.repl_backlog + j, len)` copies; `none` if some are
elsewhere. -/
def readBacklog (s : Backlog) (j len : Int) : Option Bytes :=
  match s.replBacklog with
  | none => none
  | some buf =>
      if 0 ≤ j ∧ 0 ≤ len ∧ j + len ≤ buf.length then some ((buf.drop j.toNat).take len.toNat)
      else none

/-- The loop of `addReplyReplicationBacklog`: the strings for `addReplySds`. -/
def replyBacklogLoop : Nat → Backlog → Int → Int → Option (List Bytes)
  | 0, _, _, len => if len = 0 then some [] else none
  | fuel + 1, s, j, len =>
      if len = 0 then some []
      else
        let thislen := if s.replBacklogSize - j < len then s.replBacklogSize - j else len
        match readBacklog s j thislen with
        | none => none
        | some chunk => (replyBacklogLoop fuel s 0 (len - thislen)).map (chunk :: ·)

/-- `addReplyReplicationBacklog`: the strings it hands to `addReplySds`, in order, and
what it returns. -/
def addReplyReplicationBacklog (s : Backlog) (offset : Int) : Option (List Bytes × Int) :=
  if s.replBacklogHistlen = 0 then some ([], 0)
  else
    let skip := offset - s.replBacklogOff
    let j := (s.replBacklogIdx + (s.replBacklogSize - s.replBacklogHistlen)).tmod
      s.replBacklogSize
    let j := (j + skip).tmod s.replBacklogSize
    let len := s.replBacklogHistlen - skip
    (replyBacklogLoop len.toNat s j len).map (·, s.replBacklogHistlen - skip)

/-- `getPsyncInitialOffset`. -/
def getPsyncInitialOffset (s : Backlog) : Int :=
  if s.replBacklog.isNone then s.masterReplOffset + 1 else s.masterReplOffset

/-- The test of `masterTryPartialResynchronization` on the offset it is asked for. -/
def backlogReaches (s : Backlog) (psyncOffset : Int) : Bool :=
  !(s.replBacklog.isNone || psyncOffset < s.replBacklogOff ||
    psyncOffset > s.replBacklogOff + s.replBacklogHistlen)

/-! ## Runs and their history -/

/-- The calls that change the backlog. -/
inductive BacklogOp where
  | create (mem : Nat → UInt8)
  | resize (mem : Nat → UInt8) (newsize : Int)
  | free
  | feed (p : Bytes)

/-- One call. -/
def actBacklog (s : Backlog) : BacklogOp → Option Backlog
  | .create mem => createReplicationBacklog s mem
  | .resize mem newsize => some (resizeReplicationBacklog s mem newsize)
  | .free => some (freeReplicationBacklog s)
  | .feed p => feedReplicationBacklog s p

/-- How the calls are used: a backlog is created where there is none and fed where there
is one. -/
def BacklogOp.Proper (s : Backlog) : BacklogOp → Prop
  | .create _ => s.replBacklog = none
  | .feed _ => s.replBacklog ≠ none
  | _ => True

/-- The offsets in use after a call, each with its byte. -/
def historyAfter (history : List (Option UInt8)) : BacklogOp → List (Option UInt8)
  | .create _ => history ++ [none]
  | .feed p => history ++ p.map some
  | _ => history

/-- A run, with its history. -/
def runBacklog : Backlog → List (Option UInt8) → List BacklogOp →
    Option (Backlog × List (Option UInt8))
  | s, history, [] => some (s, history)
  | s, history, op :: ops =>
      match actBacklog s op with
      | none => none
      | some s' => runBacklog s' (historyAfter history op) ops

/-- Every call of the run is proper. -/
def ProperBacklogRun : Backlog → List BacklogOp → Prop
  | _, [] => True
  | s, op :: ops => op.Proper s ∧ ∀ s', actBacklog s op = some s' → ProperBacklogRun s' ops

/-! ## The invariant -/

/-- What holds of a backlog and the bytes since it was created. -/
structure Kept (s : Backlog) (buf bytes : Bytes) : Prop where
  idxNonneg : 0 ≤ s.replBacklogIdx
  idxLt : s.replBacklogIdx < s.replBacklogSize
  histlenNonneg : 0 ≤ s.replBacklogHistlen
  histlenLe : s.replBacklogHistlen ≤ s.replBacklogSize
  length : (buf.length : Int) = s.replBacklogSize
  off : s.replBacklogOff = s.masterReplOffset - s.replBacklogHistlen + 1
  holds : RingBuffer.Holds buf s.replBacklogIdx.toNat s.replBacklogHistlen.toNat bytes

/-- The invariant of a run: the history is as long as `master_repl_offset` says, and its
end is what a backlog has been fed. -/
structure BacklogInv (s : Backlog) (history : List (Option UInt8)) : Prop where
  sizePos : 0 < s.replBacklogSize
  length : s.masterReplOffset = history.length
  kept : ∀ buf, s.replBacklog = some buf →
    ∃ before bytes, history = before ++ bytes.map some ∧ Kept s buf bytes

variable {s : Backlog} {buf bytes : Bytes} {history : List (Option UInt8)}

/-- What holds in `feedReplicationBacklog` while it writes: the history length may be more
than the buffer has room for. -/
structure Filling (s : Backlog) (buf bytes : Bytes) : Prop where
  backlog : s.replBacklog = some buf
  idxNonneg : 0 ≤ s.replBacklogIdx
  idxLt : s.replBacklogIdx < s.replBacklogSize
  histlenNonneg : 0 ≤ s.replBacklogHistlen
  length : (buf.length : Int) = s.replBacklogSize
  holds : RingBuffer.Holds buf s.replBacklogIdx.toNat
    (min s.replBacklogSize s.replBacklogHistlen).toNat bytes

theorem length_zmalloc (mem : Nat → UInt8) (size : Int) : (zmalloc mem size).length = size.toNat := by
  simp [zmalloc]

/-- A new buffer, with nothing in it yet. -/
theorem kept_new {size offset : Int} (hsize : 0 < size) (mem : Nat → UInt8) (bytes : Bytes) :
    Kept ⟨some (zmalloc mem size), size, 0, 0, offset + 1, offset⟩ (zmalloc mem size) bytes where
  idxNonneg := Int.le_refl 0
  idxLt := hsize
  histlenNonneg := Int.le_refl 0
  histlenLe := Int.le_of_lt hsize
  length := by
    rw [length_zmalloc]
    exact Int.toNat_of_nonneg (Int.le_of_lt hsize)
  off := by simp
  holds := RingBuffer.Holds.empty _ _

/-- One round of the loop: a chunk that does not cross the end of the buffer. -/
theorem Filling.chunk (h : Filling s buf bytes) {chunk : Bytes}
    (hend : s.replBacklogIdx + chunk.length ≤ s.replBacklogSize) {idx : Int}
    (hidx : idx = if s.replBacklogIdx + chunk.length = s.replBacklogSize then 0
      else s.replBacklogIdx + chunk.length) :
    Filling
      { s with
        replBacklog := some (Splice.overwrite buf s.replBacklogIdx.toNat chunk)
        replBacklogIdx := idx
        replBacklogHistlen := s.replBacklogHistlen + chunk.length }
      (Splice.overwrite buf s.replBacklogIdx.toNat chunk) (bytes ++ chunk) := by
  obtain ⟨hbuf, h0, hlt, hh, hlen, hholds⟩ := h
  have hwrite := hholds.write (show s.replBacklogIdx.toNat < buf.length by omega)
    (show s.replBacklogIdx.toNat + chunk.length ≤ buf.length by omega)
  have hmod : (s.replBacklogIdx.toNat + chunk.length) % buf.length = idx.toNat := by
    rw [hidx]
    split
    · rw [show s.replBacklogIdx.toNat + chunk.length = buf.length by omega, Nat.mod_self]
      rfl
    · rw [Nat.mod_eq_of_lt (by omega)]
      omega
  rw [hmod] at hwrite
  refine ⟨rfl, ?_, ?_, ?_, ?_, hwrite.shorter ?_⟩
  · show 0 ≤ idx
    rw [hidx]
    split <;> omega
  · show idx < s.replBacklogSize
    rw [hidx]
    split <;> omega
  · show 0 ≤ s.replBacklogHistlen + chunk.length
    omega
  · rw [Splice.length_overwrite (by omega)]
    exact hlen
  · show (min s.replBacklogSize (s.replBacklogHistlen + chunk.length)).toNat ≤ _
    omega

/-- **The loop** writes all of `p`, however often it comes to the end of the buffer. -/
theorem feedLoop_spec : ∀ (fuel : Nat) {s : Backlog} {buf bytes : Bytes} (p : Bytes),
    p.length ≤ fuel → Filling s buf bytes →
    ∃ s' buf', feedLoop fuel s p = some s' ∧ Filling s' buf' (bytes ++ p) ∧
      s'.replBacklogSize = s.replBacklogSize ∧ s'.masterReplOffset = s.masterReplOffset ∧
      s'.replBacklogHistlen = s.replBacklogHistlen + p.length := by
  intro fuel
  induction fuel with
  | zero =>
      intro s buf bytes p hfuel h
      have hp : p = [] := List.length_eq_zero_iff.mp (by omega)
      subst hp
      exact ⟨s, buf, rfl, by simpa using h, rfl, rfl, by simp⟩
  | succ fuel ih =>
      intro s buf bytes p hfuel h
      cases p with
      | nil => exact ⟨s, buf, rfl, by simpa using h, rfl, rfl, by simp⟩
      | cons b p =>
          have h0 := h.idxNonneg
          have hlt := h.idxLt
          have hlen := h.length
          let room := (s.replBacklogSize - s.replBacklogIdx).toNat
          let thislen := if room > (b :: p).length then (b :: p).length else room
          have hpos : 0 < thislen := by
            show 0 < if room > (b :: p).length then (b :: p).length else room
            split
            · exact Nat.succ_pos _
            · omega
          have hle : thislen ≤ (b :: p).length := by
            show (if room > (b :: p).length then (b :: p).length else room) ≤ _
            split <;> omega
          have hroom : thislen ≤ room := by
            show (if room > (b :: p).length then (b :: p).length else room) ≤ room
            split <;> omega
          have htake : ((b :: p).take thislen).length = thislen := by
            rw [List.length_take]
            omega
          have hend : s.replBacklogIdx + ((b :: p).take thislen).length ≤ s.replBacklogSize := by
            rw [htake]
            omega
          have hwrite : writeBacklog s ((b :: p).take thislen) = some { s with
              replBacklog := some (Splice.overwrite buf s.replBacklogIdx.toNat
                ((b :: p).take thislen)) } := by
            unfold writeBacklog
            rw [h.backlog]
            exact if_pos ⟨h0, by omega⟩
          have hchunk := h.chunk hend rfl
          rw [htake] at hchunk
          have hdrop : ((b :: p).drop thislen).length ≤ fuel := by
            rw [List.length_drop]
            omega
          obtain ⟨s', buf', hloop, hfill, hsize, hoff, hhist⟩ := ih ((b :: p).drop thislen) hdrop
            hchunk
          refine ⟨s', buf', ?_, ?_, hsize, hoff, ?_⟩
          · rw [← hloop, feedLoop, hwrite]
          · rw [List.append_assoc, List.take_append_drop] at hfill
            exact hfill
          · rw [hhist, List.length_drop]
            simp only
            omega

/-- A backlog between two calls is one that can be fed. -/
theorem Kept.filling (h : Kept s buf bytes) (hbuf : s.replBacklog = some buf) :
    Filling s buf bytes where
  backlog := hbuf
  idxNonneg := h.idxNonneg
  idxLt := h.idxLt
  histlenNonneg := h.histlenNonneg
  length := h.length
  holds := by
    have := h.histlenLe
    rw [min_eq_right this]
    exact h.holds

/-- **`feedReplicationBacklog`** puts the bytes at the end of the history. -/
theorem feedReplicationBacklog_spec (h : Kept s buf bytes) (hbuf : s.replBacklog = some buf)
    (p : Bytes) :
    ∃ s' buf', feedReplicationBacklog s p = some s' ∧ s'.replBacklog = some buf' ∧
      Kept s' buf' (bytes ++ p) ∧ s'.replBacklogSize = s.replBacklogSize ∧
      s'.masterReplOffset = s.masterReplOffset + p.length := by
  have hfill := h.filling hbuf
  obtain ⟨s', buf', hloop, hfill', hsize, hoff, hhist⟩ := feedLoop_spec p.length p (Nat.le_refl _)
    (show Filling { s with masterReplOffset := s.masterReplOffset + p.length } buf bytes from
      ⟨hfill.1, hfill.2, hfill.3, hfill.4, hfill.5, hfill.6⟩)
  have hholds := hfill'.holds
  have hmin : min s'.replBacklogSize s'.replBacklogHistlen =
      if s'.replBacklogHistlen > s'.replBacklogSize then s'.replBacklogSize
        else s'.replBacklogHistlen := by
    split <;> omega
  rw [hmin] at hholds
  have hnonneg := hfill'.histlenNonneg
  have h0 := hfill'.idxNonneg
  have hlt := hfill'.idxLt
  rw [feedReplicationBacklog, hloop]
  refine ⟨_, buf', rfl, hfill'.backlog, ⟨h0, hlt, ?_, ?_, hfill'.length, rfl, hholds⟩, hsize, hoff⟩
  · simp only
    split <;> omega
  · simp only
    split <;> omega

/-! ## Reading -/

/-- **The loop** that reads the last `back` bytes, in one part or in two. -/
theorem replyBacklogLoop_spec (h : Kept s buf bytes) (hbuf : s.replBacklog = some buf) :
    ∀ (fuel back : Nat) (j : Int), back ≤ fuel → back ≤ s.replBacklogHistlen.toNat →
      (back ≠ 0 → j = RingBuffer.slot buf.length s.replBacklogIdx.toNat back) →
      ∃ chunks, replyBacklogLoop fuel s j back = some chunks ∧
        chunks.flatten = bytes.drop (bytes.length - back) := by
  have h0 := h.idxNonneg
  have hlt := h.idxLt
  have hlen := h.length
  have hle := h.histlenLe
  intro fuel
  induction fuel with
  | zero =>
      intro back j hfuel _ _
      have hback : back = 0 := by omega
      subst hback
      exact ⟨[], rfl, by simp⟩
  | succ fuel ih =>
      intro back j hfuel hback hj
      by_cases hz : back = 0
      · subst hz
        exact ⟨[], rfl, by simp⟩
      · have hslot : RingBuffer.slot buf.length s.replBacklogIdx.toNat back < buf.length :=
          RingBuffer.slot_lt (by omega)
        have hhist := h.holds.histLe
        obtain ⟨k, hk⟩ : ∃ k : Nat, k = min (buf.length -
            RingBuffer.slot buf.length s.replBacklogIdx.toNat back) back := ⟨_, rfl⟩
        have hthis : (if s.replBacklogSize - j < (back : Int) then s.replBacklogSize - j
            else (back : Int)) = (k : Int) := by
          rw [hj hz, ← hlen, hk]
          split <;> omega
        have hread : readBacklog s j k =
            some ((bytes.drop (bytes.length - back)).take k) := by
          unfold readBacklog
          rw [hbuf]
          simp only
          rw [if_pos (by rw [hj hz]; omega), hj hz, Int.toNat_natCast, Int.toNat_natCast,
            h.holds.slice hback (by omega) (by omega)]
        have hnext : back - k ≠ 0 →
            (0 : Int) = RingBuffer.slot buf.length s.replBacklogIdx.toNat (back - k) := by
          intro hne
          rw [RingBuffer.slot_advance (by omega) (by omega),
            show RingBuffer.slot buf.length s.replBacklogIdx.toNat back + k = buf.length by omega,
            Nat.mod_self]
          rfl
        obtain ⟨chunks, hloop, hflat⟩ := ih (back - k) 0 (by omega) (by omega) hnext
        refine ⟨(bytes.drop (bytes.length - back)).take k :: chunks, ?_, ?_⟩
        · rw [replyBacklogLoop, if_neg (by omega), hthis]
          simp only [hread]
          rw [show (back : Int) - (k : Int) = ((back - k : Nat) : Int) by omega, hloop]
          rfl
        · rw [List.flatten_cons, hflat,
            show bytes.length - (back - k) = bytes.length - back + k by omega, ← List.drop_drop,
            List.take_append_drop]

/-- The two steps with which `addReplyReplicationBacklog` finds its place. -/
theorem replyBacklog_place (h : Kept s buf bytes) {skip : Int} (h₁ : 0 ≤ skip)
    (h₂ : skip ≤ s.replBacklogHistlen) :
    ((s.replBacklogIdx + (s.replBacklogSize - s.replBacklogHistlen)).tmod s.replBacklogSize +
        skip).tmod s.replBacklogSize =
      RingBuffer.slot buf.length s.replBacklogIdx.toNat (s.replBacklogHistlen - skip).toNat := by
  have h0 := h.idxNonneg
  have hlt := h.idxLt
  have hh := h.histlenNonneg
  have hle := h.histlenLe
  have hlen := h.length
  rw [Int.tmod_eq_emod_of_nonneg (show 0 ≤ s.replBacklogIdx +
      (s.replBacklogSize - s.replBacklogHistlen) by omega)]
  have hmod := Int.emod_nonneg (s.replBacklogIdx + (s.replBacklogSize - s.replBacklogHistlen))
    (show s.replBacklogSize ≠ 0 by omega)
  rw [Int.tmod_eq_emod_of_nonneg (by omega), Int.emod_add_emod, RingBuffer.slot, ← hlen]
  rw [Int.natCast_emod]
  congr 1
  omega

/-- **`addReplyReplicationBacklog`** sends the last bytes, from the offset on. -/
theorem addReplyReplicationBacklog_spec (h : Kept s buf bytes) (hbuf : s.replBacklog = some buf)
    {offset : Int} (h₁ : s.replBacklogOff ≤ offset)
    (h₂ : offset ≤ s.replBacklogOff + s.replBacklogHistlen) :
    ∃ chunks, addReplyReplicationBacklog s offset =
        some (chunks, s.masterReplOffset - offset + 1) ∧
      chunks.flatten = bytes.drop (bytes.length - (s.masterReplOffset - offset + 1).toNat) := by
  have hoff := h.off
  have hnonneg := h.histlenNonneg
  have hle := h.histlenLe
  have hlen := h.length
  have hback : s.replBacklogHistlen - (offset - s.replBacklogOff) =
      s.masterReplOffset - offset + 1 := by omega
  unfold addReplyReplicationBacklog
  split
  · next hz =>
      refine ⟨[], ?_, ?_⟩
      · rw [show s.masterReplOffset - offset + 1 = 0 by omega]
      · rw [show (s.masterReplOffset - offset + 1).toNat = 0 by omega]
        simp
  · simp only
    rw [replyBacklog_place h (by omega) (by omega), hback]
    obtain ⟨chunks, hloop, hflat⟩ := replyBacklogLoop_spec h hbuf _
      (s.masterReplOffset - offset + 1).toNat _ (Nat.le_refl _) (by omega) (fun _ => rfl)
    rw [Int.toNat_of_nonneg (by omega)] at hloop
    rw [hloop]
    exact ⟨chunks, rfl, hflat⟩

/-- The calls of `addReplySds` that send the strings to a client. -/
def addReplyChunks : Output.Out → List Bytes → Option Output.Out
  | c, [] => some c
  | c, b :: chunks => (Output.addReplySds c b).bind (addReplyChunks · chunks)

/-- A client that is sent replies gets them all, at the end of its stream. -/
theorem addReplyChunks_spec : ∀ (chunks : List Bytes) {c : Output.Out}, Output.Good c →
    c.conn.accepts = true →
    ∃ c', addReplyChunks c chunks = some c' ∧ Output.Adds c c' chunks.flatten := by
  intro chunks
  induction chunks with
  | nil => intro c hc _; exact ⟨c, rfl, Output.adds_nil hc⟩
  | cons b chunks ih =>
      intro c hc hacc
      obtain ⟨c₁, heq, hadds, _⟩ := Output.addReplySds_spec hc b
      rw [hacc, if_pos rfl] at hadds
      obtain ⟨c', hrest, hadds'⟩ := ih hadds.good (by rw [hadds.conn]; exact hacc)
      refine ⟨c', ?_, hadds.trans hadds'⟩
      rw [addReplyChunks, heq, Option.bind_some, hrest]

/-! ## Every run -/

theorem createReplicationBacklog_inv (h : BacklogInv s history) (hnone : s.replBacklog = none)
    (mem : Nat → UInt8) :
    ∃ s', createReplicationBacklog s mem = some s' ∧ BacklogInv s' (history ++ [none]) := by
  unfold createReplicationBacklog
  rw [hnone]
  refine ⟨_, rfl, h.sizePos, ?_, ?_⟩
  · show s.masterReplOffset + 1 = _
    rw [h.length, List.length_append]
    rfl
  · intro buf hbuf
    cases hbuf
    exact ⟨history ++ [none], [], by simp, kept_new h.sizePos mem []⟩

theorem resizeReplicationBacklog_inv (h : BacklogInv s history) (mem : Nat → UInt8)
    (newsize : Int) : BacklogInv (resizeReplicationBacklog s mem newsize) history := by
  unfold resizeReplicationBacklog
  obtain ⟨size, hsize⟩ : ∃ size, size = if newsize < CONFIG_REPL_BACKLOG_MIN_SIZE then
    CONFIG_REPL_BACKLOG_MIN_SIZE else newsize := ⟨_, rfl⟩
  have hpos : 0 < size := by
    rw [hsize]
    unfold CONFIG_REPL_BACKLOG_MIN_SIZE
    split <;> omega
  simp only [← hsize]
  split
  · exact h
  · split
    · next hnone =>
        refine ⟨hpos, h.length, ?_⟩
        intro buf hbuf
        exact absurd (hnone.symm.trans hbuf) (by simp)
    · next old hold =>
        refine ⟨hpos, h.length, ?_⟩
        intro buf hbuf
        obtain ⟨before, bytes, hhist, _⟩ := h.kept old hold
        cases hbuf
        exact ⟨before, bytes, hhist, kept_new hpos mem bytes⟩

/-- One call keeps the invariant. -/
theorem actBacklog_inv (h : BacklogInv s history) {op : BacklogOp} (hp : op.Proper s) :
    ∃ s', actBacklog s op = some s' ∧ BacklogInv s' (historyAfter history op) := by
  cases op with
  | create mem => exact createReplicationBacklog_inv h hp mem
  | resize mem newsize => exact ⟨_, rfl, resizeReplicationBacklog_inv h mem newsize⟩
  | free =>
      refine ⟨_, rfl, h.sizePos, h.length, ?_⟩
      intro buf hbuf
      exact absurd hbuf (by simp [freeReplicationBacklog])
  | feed p =>
      obtain ⟨buf, hbuf⟩ := Option.ne_none_iff_exists'.mp hp
      obtain ⟨before, bytes, hhist, hkept⟩ := h.kept buf hbuf
      obtain ⟨s', buf', heq, hbuf', hkept', hsize, hoff⟩ := feedReplicationBacklog_spec hkept hbuf p
      refine ⟨s', heq, by rw [hsize]; exact h.sizePos, ?_, ?_⟩
      · rw [hoff, h.length, historyAfter, List.length_append, List.length_map]
        omega
      · intro buf₂ hbuf₂
        rw [hbuf'] at hbuf₂
        cases hbuf₂
        exact ⟨before, bytes ++ p, by rw [historyAfter, hhist, List.map_append, List.append_assoc],
          hkept'⟩

/-- **Every run** keeps the invariant. -/
theorem runBacklog_inv : ∀ (ops : List BacklogOp) {s : Backlog} {history : List (Option UInt8)},
    BacklogInv s history → ProperBacklogRun s ops →
    ∃ s' history', runBacklog s history ops = some (s', history') ∧ BacklogInv s' history' := by
  intro ops
  induction ops with
  | nil => intro s history h _; exact ⟨s, history, rfl, h⟩
  | cons op ops ih =>
      intro s history h hp
      obtain ⟨s₁, heq, h₁⟩ := actBacklog_inv h hp.1
      obtain ⟨s', history', hrun, h'⟩ := ih h₁ (hp.2 s₁ heq)
      refine ⟨s', history', ?_, h'⟩
      rw [runBacklog, heq]
      exact hrun

theorem initBacklog_inv {size : Int} (hsize : 0 < size) : BacklogInv (initBacklog size) [] where
  sizePos := hsize
  length := rfl
  kept := by
    intro buf hbuf
    exact absurd hbuf (by simp [initBacklog])

/-- An offset the backlog reaches is answered with the history from there. -/
theorem BacklogInv.reply (h : BacklogInv s history) {offset : Int}
    (hreach : backlogReaches s offset = true) :
    ∃ chunks, addReplyReplicationBacklog s offset =
        some (chunks, s.masterReplOffset - offset + 1) ∧
      chunks.flatten.map some = history.drop (offset - 1).toNat ∧
      (chunks.flatten.length : Int) = s.masterReplOffset - offset + 1 := by
  obtain ⟨buf, hbuf⟩ : ∃ buf, s.replBacklog = some buf := by
    cases hb : s.replBacklog with
    | none => simp [backlogReaches, hb] at hreach
    | some buf => exact ⟨buf, rfl⟩
  simp only [backlogReaches, hbuf, Option.isNone_some, Bool.false_or, Bool.not_eq_true',
    Bool.or_eq_false_iff, decide_eq_false_iff_not, not_lt] at hreach
  obtain ⟨before, bytes, hhist, hkept⟩ := h.kept buf hbuf
  obtain ⟨chunks, heq, hflat⟩ := addReplyReplicationBacklog_spec hkept hbuf hreach.1 hreach.2
  have hlen := h.length
  have hoff := hkept.off
  have hnonneg := hkept.histlenNonneg
  have hle := hkept.holds.histLe
  rw [hhist, List.length_append, List.length_map] at hlen
  refine ⟨chunks, heq, ?_, ?_⟩
  · have hbefore : before.drop (offset - 1).toNat = [] := List.drop_eq_nil_of_le (by omega)
    rw [hflat, hhist, List.drop_append, hbefore, List.nil_append, ← List.map_drop]
    congr 2
    omega
  · rw [hflat, List.length_drop]
    omega

/-- **The replication backlog is exact.**  In every run the indices stay in their bounds,
and an offset that is accepted for a partial resynchronization is answered with the bytes
of the stream from that offset to `master_repl_offset`, and with their number. -/
theorem backlog_exact {size : Int} (hsize : 0 < size) (ops : List BacklogOp)
    (hp : ProperBacklogRun (initBacklog size) ops) :
    ∃ s history, runBacklog (initBacklog size) [] ops = some (s, history) ∧
      s.masterReplOffset = history.length ∧
      (s.replBacklog ≠ none →
        0 ≤ s.replBacklogIdx ∧ s.replBacklogIdx < s.replBacklogSize ∧
        0 ≤ s.replBacklogHistlen ∧ s.replBacklogHistlen ≤ s.replBacklogSize ∧
        s.replBacklogOff = s.masterReplOffset - s.replBacklogHistlen + 1) ∧
      ∀ offset, backlogReaches s offset = true →
        ∃ chunks n, addReplyReplicationBacklog s offset = some (chunks, n) ∧
          chunks.flatten.map some = history.drop (offset - 1).toNat ∧
          n = chunks.flatten.length ∧ n = s.masterReplOffset - offset + 1 ∧
          ∀ c, Output.Good c → c.conn.accepts = true →
            ∃ c', addReplyChunks c chunks = some c' ∧ Output.Adds c c' chunks.flatten := by
  obtain ⟨s, history, hrun, h⟩ := runBacklog_inv ops (initBacklog_inv hsize) hp
  refine ⟨s, history, hrun, h.length, ?_, ?_⟩
  · intro hne
    obtain ⟨buf, hbuf⟩ := Option.ne_none_iff_exists'.mp hne
    obtain ⟨before, bytes, _, hkept⟩ := h.kept buf hbuf
    exact ⟨hkept.idxNonneg, hkept.idxLt, hkept.histlenNonneg, hkept.histlenLe, hkept.off⟩
  · intro offset hreach
    obtain ⟨chunks, heq, hflat, hlen⟩ := h.reply hreach
    exact ⟨chunks, _, heq, hflat, hlen.symm, rfl, fun c hc hacc => addReplyChunks_spec chunks hc hacc⟩

/-- A buffer of four bytes, fed three times and across its end. -/
theorem backlog_exact_wrapped :
    ∃ s history, runBacklog (initBacklog 4) []
        [.create (fun _ => 0), .feed [1, 2, 3], .feed [4, 5], .feed [6, 7, 8, 9, 10]] =
          some (s, history) ∧
      s.masterReplOffset = history.length ∧
      (s.replBacklog ≠ none →
        0 ≤ s.replBacklogIdx ∧ s.replBacklogIdx < s.replBacklogSize ∧
        0 ≤ s.replBacklogHistlen ∧ s.replBacklogHistlen ≤ s.replBacklogSize ∧
        s.replBacklogOff = s.masterReplOffset - s.replBacklogHistlen + 1) ∧
      ∀ offset, backlogReaches s offset = true →
        ∃ chunks n, addReplyReplicationBacklog s offset = some (chunks, n) ∧
          chunks.flatten.map some = history.drop (offset - 1).toNat ∧
          n = chunks.flatten.length ∧ n = s.masterReplOffset - offset + 1 ∧
          ∀ c, Output.Good c → c.conn.accepts = true →
            ∃ c', addReplyChunks c chunks = some c' ∧ Output.Adds c c' chunks.flatten := by
  refine backlog_exact (by decide) _ ⟨rfl, fun s₁ h₁ => ?_⟩
  cases h₁
  refine ⟨by simp [BacklogOp.Proper], fun s₂ h₂ => ?_⟩
  cases h₂
  refine ⟨by simp [BacklogOp.Proper], fun s₃ h₃ => ?_⟩
  cases h₃
  exact ⟨by simp [BacklogOp.Proper], fun _ _ => True.intro⟩

end Replication

end RedisCore
