/-
# `RedisCore.Replication.Transfer` — the payload of a full resynchronisation (replication.c)

`readSyncBulkPayload` is called whenever the master has sent something.  The first line says
how the payload ends: after a number of bytes, or with a mark of 40 bytes that the line
announces.  After that every call writes what it reads to a file.  With a mark it keeps the last
40 bytes it has seen, compares them with the mark, and cuts the mark off the file when they are
the same.

What the sockets and files answer is part of a call; a `read` gives at most what it was asked
for.  A read of more than the 4096 bytes of the buffer is a fault.
-/
import RedisCore.Replication.Handshake
import RedisCore.Lib.Window

namespace RedisCore

namespace Transfer

open CInt
open Handshake (CONFIG_RUN_ID_SIZE Payload)
open Window (slide after after_nil slide_after after_eq_iff length_slide)

/-- `repl_transfer_size` and the fields behind it, the contents of the temporary file, and the
static variables of `readSyncBulkPayload`. -/
structure State where
  replTransferSize : Int
  replTransferRead : Int
  replTransferLastFsyncOff : Int
  replTransferLastio : Int
  file : Bytes
  usemark : Bool
  eofmark : Bytes
  lastbytes : Bytes
  deriving DecidableEq

/-- What the system answers during a call. -/
structure Call where
  unixtime : Int
  /-- the line `syncReadLine` leaves in the buffer, or its failure -/
  line : Option Bytes
  /-- what there is to read, or the failure of `read` -/
  input : Option Bytes
  /-- how many bytes `write` takes where it does not take all -/
  short : Option Nat
  truncates : Bool
  renames : Bool
  loads : Bool
  /-- the client that `createClient` returns -/
  client : Option ClientId

def REPL_MAX_WRITTEN_BEFORE_FSYNC : Int := 1024 * 1024 * 8

/-- The end of `syncWithMaster`, with the new file. -/
def startTransfer (s : State) (unixtime : Int) : State :=
  { s with
    replTransferSize := -1
    replTransferRead := 0
    replTransferLastFsyncOff := 0
    replTransferLastio := unixtime
    file := [] }

/-- The first line of the master. -/
def readHeader (s : State) (call : Call) : State × Payload :=
  match call.line.map cstring with
  | none => (s, .failed)
  | some [] => ({ s with replTransferLastio := call.unixtime }, .more)
  | some (c :: buf) =>
      if c = 45 then (s, .failed)
      else if c ≠ 36 then (s, .failed)
      else if buf.take 4 = cstr "EOF:" ∧ (buf.drop 4).length ≥ CONFIG_RUN_ID_SIZE then
        ({ s with
            usemark := true
            eofmark := (buf.drop 4).take CONFIG_RUN_ID_SIZE
            lastbytes := List.replicate CONFIG_RUN_ID_SIZE 0
            replTransferSize := 0 }, .more)
      else ({ s with usemark := false, replTransferSize := strtol buf }, .more)

/-- How many bytes are read at once. -/
def readlen (s : State) : Int :=
  if s.usemark then 4096
  else
    let left := s.replTransferSize - s.replTransferRead
    if left < 4096 then left else 4096

/-- Update the last bytes, and check if they match the delimiter. -/
def updateMark (s : State) (buf : Bytes) : State × Bool :=
  if s.usemark then
    let lastbytes := slide CONFIG_RUN_ID_SIZE s.lastbytes buf
    ({ s with lastbytes }, lastbytes = s.eofmark)
  else (s, false)

/-- Delete the mark from the file; `none` is the failure of `ftruncate`. -/
def cutMark (s : State) (call : Call) : Option State :=
  let length := s.replTransferRead - CONFIG_RUN_ID_SIZE
  if length < 0 ∨ call.truncates = false then none
  else some { s with file := s.file.take length.toNat }

/-- Sync data on disk from time to time. -/
def syncFile (s : State) : State :=
  if s.replTransferRead ≥ s.replTransferLastFsyncOff + REPL_MAX_WRITTEN_BEFORE_FSYNC then
    let syncSize := s.replTransferRead - s.replTransferLastFsyncOff
    { s with replTransferLastFsyncOff := s.replTransferLastFsyncOff + syncSize }
  else s

/-- What follows the last byte: the file is renamed and loaded. -/
def finish (call : Call) : Payload :=
  if call.renames = false then .failed
  else if call.loads = false then .failed
  else .done call.client

/-- The bytes in the buffer: count them, write them and look for the end. -/
def takeBulk (s : State) (call : Call) (buf : Bytes) : State × Payload :=
  let (s, eofReached) := updateMark s buf
  let s := { s with replTransferLastio := call.unixtime }
  let written := call.short.getD buf.length
  let s := { s with file := s.file ++ buf.take written }
  if written ≠ buf.length then (s, .failed)
  else
    let s := { s with replTransferRead := s.replTransferRead + buf.length }
    match (if s.usemark && eofReached then cutMark s call else some s) with
    | none => (s, .failed)
    | some s =>
        let s := syncFile s
        let eofReached :=
          if !s.usemark && s.replTransferRead = s.replTransferSize then true else eofReached
        (s, if eofReached then finish call else .more)

/-- `readSyncBulkPayload`: what it does to the transfer, and how it ends. -/
def readSyncBulkPayload (s : State) (call : Call) : Option (State × Payload) :=
  if s.replTransferSize = -1 then some (readHeader s call)
  else
    match call.input with
    | none => some (s, .failed)
    | some input =>
        -- to `read` a negative length is one without a limit
        let buf := if readlen s < 0 then input else input.take (readlen s).toNat
        if buf.length > 4096 then none
        else if buf = [] then some (s, .failed)
        else some (takeBulk s call buf)

/-- One call after the other, with how each of them ends. -/
def run (s : State) : List Call → Option (State × List Payload)
  | [] => some (s, [])
  | call :: calls =>
      (readSyncBulkPayload s call).bind (fun r =>
        (run r.1 calls).map (fun rs => (rs.1, r.2 :: rs.2)))

/-! ## The mark -/

/-- The mark a line announces. -/
def announced (line : Bytes) : Option Bytes :=
  match cstring line with
  | 36 :: buf =>
      if buf.take 4 = cstr "EOF:" ∧ (buf.drop 4).length ≥ CONFIG_RUN_ID_SIZE then
        some ((buf.drop 4).take CONFIG_RUN_ID_SIZE)
      else none
  | _ => none

theorem zero_not_mem_cstring (s : Bytes) : 0 ∉ cstring s := by
  intro h
  have := List.mem_takeWhile_imp h
  simp at this

/-- **The marks** that can be announced are those without a NUL byte. -/
theorem announced_iff {line mark : Bytes} : announced line = some mark ↔
    mark.length = CONFIG_RUN_ID_SIZE ∧ 0 ∉ mark ∧ ∃ rest, cstring line = cstr "$EOF:" ++ mark ++ rest := by
  have hfree := zero_not_mem_cstring line
  unfold announced
  constructor
  · intro h
    split at h
    · next buf hline =>
        split at h
        · next hbuf =>
            cases h
            rw [hline] at hfree
            refine ⟨?_, ?_, (buf.drop 4).drop CONFIG_RUN_ID_SIZE, ?_⟩
            · rw [List.length_take]
              omega
            · intro hmem
              exact hfree (List.mem_cons_of_mem _ (List.mem_of_mem_drop (List.mem_of_mem_take hmem)))
            · have hhead : cstr "$EOF:" = 36 :: cstr "EOF:" := by decide
              rw [hhead, List.append_assoc, List.take_append_drop, List.cons_append, ← hbuf.1,
                List.take_append_drop]
              exact hline
        · exact absurd h (by simp)
    · exact absurd h (by simp)
  · rintro ⟨hlen, _, rest, hline⟩
    have hhead : cstr "$EOF:" ++ mark ++ rest = 36 :: (cstr "EOF:" ++ (mark ++ rest)) := by
      rw [List.append_assoc]
      rfl
    have hfour : (cstr "EOF:").length = 4 := by decide
    rw [hline, hhead]
    simp only
    rw [List.take_left' hfour, List.drop_left' hfour, if_pos ⟨rfl, by rw [List.length_append]; omega⟩,
      List.take_left' hlen]

/-- The transfer has received these bytes and waits for more. -/
structure Receiving (mark seen : Bytes) (s : State) : Prop where
  size : s.replTransferSize = 0
  read : s.replTransferRead = seen.length
  file : s.file = seen
  usemark : s.usemark = true
  eofmark : s.eofmark = mark
  lastbytes : s.lastbytes = after CONFIG_RUN_ID_SIZE 0 seen

/-- A line that announces a mark starts the transfer. -/
theorem readHeader_announced {s : State} {call : Call} {line mark : Bytes}
    (hline : call.line = some line) (hmark : announced line = some mark)
    (hread : s.replTransferRead = 0) (hfile : s.file = []) :
    ∃ s', readHeader s call = (s', .more) ∧ Receiving mark [] s' := by
  unfold announced at hmark
  unfold readHeader
  rw [hline, Option.map_some]
  split at hmark
  · next buf hbuf =>
      split at hmark
      · next hannounce =>
          cases hmark
          refine ⟨{ s with
            usemark := true
            eofmark := (buf.drop 4).take CONFIG_RUN_ID_SIZE
            lastbytes := List.replicate CONFIG_RUN_ID_SIZE 0
            replTransferSize := 0 }, ?_, ⟨rfl, hread, hfile, rfl, rfl, after_nil.symm⟩⟩
          rw [hbuf]
          simp only
          rw [if_neg (by decide), if_neg (by decide), if_pos hannounce]
      · exact absurd hmark (by simp)
  · exact absurd hmark (by simp)

/-! ## Reading -/

/-- The writes and the truncation of a call succeed. -/
structure Call.Healthy (call : Call) : Prop where
  writes : call.short = none
  truncates : call.truncates = true

theorem syncFile_file (s : State) : (syncFile s).file = s.file := by
  unfold syncFile
  split <;> rfl

theorem syncFile_usemark (s : State) : (syncFile s).usemark = s.usemark := by
  unfold syncFile
  split <;> rfl

theorem Receiving.syncFile {s : State} {mark seen : Bytes} (h : Receiving mark seen s) :
    Receiving mark seen (syncFile s) := by
  unfold Transfer.syncFile
  split
  · exact ⟨h.size, h.read, h.file, h.usemark, h.eofmark, h.lastbytes⟩
  · exact h

/-- The state with some bytes more, written and counted. -/
def received (s : State) (call : Call) (buf : Bytes) : State :=
  { s with
    lastbytes := slide CONFIG_RUN_ID_SIZE s.lastbytes buf
    replTransferLastio := call.unixtime
    file := s.file ++ buf
    replTransferRead := s.replTransferRead + buf.length }

theorem Receiving.received {s : State} {mark seen : Bytes} (h : Receiving mark seen s) (call : Call)
    (buf : Bytes) : Receiving mark (seen ++ buf) (received s call buf) where
  size := h.size
  read := by
    simp only [Transfer.received, h.read, List.length_append]
    omega
  file := by simp only [Transfer.received, h.file]
  usemark := h.usemark
  eofmark := h.eofmark
  lastbytes := by simp only [Transfer.received, h.lastbytes, slide_after]

/-- No mark is seen. -/
theorem takeBulk_more {s : State} {call : Call} {buf : Bytes} (huse : s.usemark = true)
    (hc : call.Healthy) (hno : slide CONFIG_RUN_ID_SIZE s.lastbytes buf ≠ s.eofmark) :
    takeBulk s call buf = (syncFile (received s call buf), .more) := by
  have hstill : (syncFile (received s call buf)).usemark = true := by
    rw [syncFile_usemark]
    exact huse
  have hcond : (s.usemark && decide (slide CONFIG_RUN_ID_SIZE s.lastbytes buf = s.eofmark)) = false := by
    simp [hno]
  unfold takeBulk updateMark
  rw [if_pos huse, hc.writes]
  dsimp only [Option.getD_none]
  rw [List.take_length, if_neg (by simp), hcond]
  show (syncFile (received s call buf), if (if (!(syncFile (received s call buf)).usemark &&
    decide ((syncFile (received s call buf)).replTransferRead =
      (syncFile (received s call buf)).replTransferSize)) = true then true
    else decide (slide CONFIG_RUN_ID_SIZE s.lastbytes buf = s.eofmark)) = true then finish call
    else Payload.more) = _
  rw [hstill, Bool.not_true, Bool.false_and, if_neg Bool.false_ne_true, if_neg (by simp [hno])]

/-- The mark is seen and cut off. -/
theorem takeBulk_end {s s' : State} {call : Call} {buf : Bytes} (huse : s.usemark = true)
    (hc : call.Healthy) (hmark : slide CONFIG_RUN_ID_SIZE s.lastbytes buf = s.eofmark)
    (hcut : cutMark (received s call buf) call = some s') :
    takeBulk s call buf = (syncFile s', finish call) := by
  have hcond : (s.usemark && decide (slide CONFIG_RUN_ID_SIZE s.lastbytes buf = s.eofmark)) = true := by
    simp [huse, hmark]
  unfold takeBulk updateMark
  rw [if_pos huse, hc.writes]
  dsimp only [Option.getD_none]
  rw [List.take_length, if_neg (by simp), hcond, if_pos rfl]
  rw [received] at hcut
  rw [hcut]
  dsimp only
  rw [decide_eq_true hmark, ite_self, if_pos rfl]

/-- **Bytes that are taken** from the socket: the end is seen exactly where what has been
received ends with the mark, and then the file is left without the mark. -/
theorem takeBulk_spec {s : State} {call : Call} {mark seen : Bytes}
    (hlen : mark.length = CONFIG_RUN_ID_SIZE) (hfree : 0 ∉ mark) (h : Receiving mark seen s)
    (hc : call.Healthy) (buf : Bytes) :
    (¬mark <:+ seen ++ buf → ∃ s', takeBulk s call buf = (s', .more) ∧
      Receiving mark (seen ++ buf) s') ∧
    (∀ payload, seen ++ buf = payload ++ mark → ∃ s', takeBulk s call buf = (s', finish call) ∧
      s'.file = payload) := by
  have hwindow : slide CONFIG_RUN_ID_SIZE s.lastbytes buf = s.eofmark ↔ mark <:+ seen ++ buf := by
    rw [h.lastbytes, h.eofmark, slide_after]
    exact after_eq_iff hlen hfree
  have hnext := h.received call buf
  constructor
  · intro hno
    exact ⟨_, takeBulk_more h.usemark hc (fun heq => hno (hwindow.mp heq)), hnext.syncFile⟩
  · intro payload hall
    have hmark : slide CONFIG_RUN_ID_SIZE s.lastbytes buf = s.eofmark :=
      hwindow.mpr (hall ▸ List.suffix_append payload mark)
    have hread : (received s call buf).replTransferRead = payload.length + CONFIG_RUN_ID_SIZE := by
      rw [hnext.read, hall, List.length_append, hlen]
      push_cast
      rfl
    have hcut : cutMark (received s call buf) call =
        some { received s call buf with file := payload } := by
      have hlength : (received s call buf).replTransferRead - CONFIG_RUN_ID_SIZE = payload.length := by
        rw [hread, Int.add_sub_cancel]
      unfold cutMark
      dsimp only
      rw [hlength, if_neg (by simp [hc.truncates]), hnext.file, hall, Int.toNat_natCast,
        List.take_left]
    refine ⟨_, takeBulk_end h.usemark hc hmark hcut, ?_⟩
    rw [syncFile_file]

/-- What a call finds at the socket. -/
def Call.chunk (call : Call) : Bytes := call.input.getD []

/-- A call that reads between 1 and 4096 bytes, and whose writes succeed. -/
structure Call.Reads (call : Call) : Prop where
  healthy : call.Healthy
  some : call.chunk ≠ []
  fits : call.chunk.length ≤ 4096

/-- Such a call takes what it finds. -/
theorem readSyncBulkPayload_reads {s : State} {call : Call} {mark seen : Bytes}
    (h : Receiving mark seen s) (hc : call.Reads) :
    readSyncBulkPayload s call = some (takeBulk s call call.chunk) := by
  obtain ⟨input, hinput⟩ : ∃ input, call.input = some input := by
    cases hi : call.input with
    | none => exact absurd (by rw [Call.chunk, hi]; rfl) hc.some
    | some input => exact ⟨input, rfl⟩
  have hchunk : call.chunk = input := by rw [Call.chunk, hinput]; rfl
  have hfits := hc.fits
  have hsome := hc.some
  rw [hchunk] at hfits hsome
  have hlen : readlen s = 4096 := by rw [readlen, if_pos h.usemark]
  have hbuf : (if readlen s < 0 then input else input.take (readlen s).toNat) = input := by
    rw [hlen, if_neg (by decide)]
    exact List.take_of_length_le hfits
  unfold readSyncBulkPayload
  rw [if_neg (by rw [h.size]; decide), hinput, hchunk]
  dsimp only
  rw [hbuf, if_neg (by omega), if_neg hsome]

/-! ## Every split -/

/-- What some calls find at the socket together. -/
def chunks (calls : List Call) : Bytes := (calls.map Call.chunk).flatten

/-- **Every split** of a payload and its mark: the calls wait for more until the last one, which
sees the end and leaves the payload in the file. -/
theorem run_spec {mark payload : Bytes} (hlen : mark.length = CONFIG_RUN_ID_SIZE) (hfree : 0 ∉ mark) :
    ∀ (calls : List Call) (last : Call) (s : State) (seen : Bytes), Receiving mark seen s →
      (∀ call ∈ calls ++ [last], call.Reads) →
      seen ++ chunks (calls ++ [last]) = payload ++ mark →
      (∀ pre post, calls = pre ++ post → pre ≠ [] → ¬mark <:+ seen ++ chunks pre) →
      ∃ s', run s (calls ++ [last]) =
          some (s', List.replicate calls.length Payload.more ++ [finish last]) ∧ s'.file = payload := by
  intro calls
  induction calls with
  | nil =>
      intro last s seen h hreads hall _
      have hr := hreads last (by simp)
      have hall' : seen ++ last.chunk = payload ++ mark := by simpa [chunks] using hall
      obtain ⟨s', hbulk, hfile⟩ := (takeBulk_spec hlen hfree h hr.healthy last.chunk).2 payload hall'
      refine ⟨s', ?_, hfile⟩
      rw [List.nil_append, run, readSyncBulkPayload_reads h hr, hbulk, Option.bind_some, run]
      rfl
  | cons call calls ih =>
      intro last s seen h hreads hall hearly
      have hr := hreads call (by simp)
      have hno : ¬mark <:+ seen ++ call.chunk := by
        have := hearly [call] calls rfl (by simp)
        simpa [chunks] using this
      obtain ⟨s₁, hbulk, h₁⟩ := (takeBulk_spec hlen hfree h hr.healthy call.chunk).1 hno
      have hall₁ : seen ++ call.chunk ++ chunks (calls ++ [last]) = payload ++ mark := by
        rw [← hall]
        simp [chunks]
      have hearly₁ : ∀ pre post, calls = pre ++ post → pre ≠ [] →
          ¬mark <:+ seen ++ call.chunk ++ chunks pre := by
        intro pre post hsplit _
        have := hearly (call :: pre) post (by rw [hsplit]; rfl) (by simp)
        simpa [chunks] using this
      obtain ⟨s', hrun, hfile⟩ := ih last s₁ (seen ++ call.chunk) h₁
        (fun c hc => hreads c (by simp only [List.cons_append, List.mem_cons]; exact Or.inr hc))
        hall₁ hearly₁
      refine ⟨s', ?_, hfile⟩
      rw [List.cons_append, run, readSyncBulkPayload_reads h hr, hbulk, Option.bind_some, hrun]
      rfl

/-- **The end of a diskless transfer** does not depend on the reads.  After a line that announces
a mark, for every payload and every split of the payload and the mark into reads of 1 to 4096
bytes where no earlier read ends with the mark, every call but the last waits for more, and
the last one finishes the transfer with exactly the payload in the file. -/
theorem diskless_end (s : State) (unixtime : Int) (header : Call) (line mark payload : Bytes)
    (hline : header.line = some line) (hmark : announced line = some mark)
    (calls : List Call) (last : Call) (hreads : ∀ call ∈ calls ++ [last], call.Reads)
    (hall : chunks (calls ++ [last]) = payload ++ mark)
    (hearly : ∀ pre post, calls = pre ++ post → pre ≠ [] → ¬mark <:+ chunks pre) :
    ∃ s', run (startTransfer s unixtime) (header :: (calls ++ [last])) =
        some (s', .more :: (List.replicate calls.length .more ++ [finish last])) ∧
      s'.file = payload := by
  obtain ⟨hlen, hfree, _⟩ := announced_iff.mp hmark
  obtain ⟨s₁, hheader, h₁⟩ := readHeader_announced (s := startTransfer s unixtime) hline hmark rfl rfl
  obtain ⟨s', hrun, hfile⟩ := run_spec hlen hfree calls last s₁ [] h₁ hreads hall hearly
  have hstart : (startTransfer s unixtime).replTransferSize = -1 := rfl
  refine ⟨s', ?_, hfile⟩
  rw [run, readSyncBulkPayload, if_pos hstart, Option.bind_some, hheader, hrun]
  rfl

/-- A call in which everything succeeds. -/
def smoothCall (line input : Option Bytes) : Call where
  unixtime := 0
  line := line
  input := input
  short := none
  truncates := true
  renames := true
  loads := true
  client := some 1

/-- A payload of one byte and its mark, which come in three reads shorter than the mark. -/
theorem diskless_end_short : ∃ s',
    run (startTransfer ⟨0, 0, 0, 0, [], false, [], []⟩ 0)
      (smoothCall (some (cstr "$EOF:" ++ List.replicate 40 109)) none ::
        ([smoothCall none (some [97]), smoothCall none (some (List.replicate 39 109))] ++
          [smoothCall none (some [109])])) =
        some (s', .more :: (List.replicate 2 .more ++ [.done (some 1)])) ∧ s'.file = [97] := by
  refine diskless_end _ 0 _ (cstr "$EOF:" ++ List.replicate 40 109) (List.replicate 40 109) [97] rfl
    (by decide) [smoothCall none (some [97]), smoothCall none (some (List.replicate 39 109))]
    (smoothCall none (some [109])) ?_ (by decide) ?_
  · intro call hcall
    have hcases : call = smoothCall none (some [97]) ∨
        call = smoothCall none (some (List.replicate 39 109)) ∨
        call = smoothCall none (some [109]) := by simpa using hcall
    rcases hcases with rfl | rfl | rfl <;> exact ⟨⟨rfl, rfl⟩, by decide, by decide⟩
  · intro pre post hpre hne
    cases pre with
    | nil => exact absurd rfl hne
    | cons a pre =>
        cases pre with
        | nil =>
            obtain ⟨rfl, _⟩ := List.cons.inj hpre
            decide
        | cons b pre =>
            cases pre with
            | nil =>
                obtain ⟨rfl, hrest⟩ := List.cons.inj hpre
                obtain ⟨rfl, _⟩ := List.cons.inj hrest
                decide
            | cons c pre =>
                have := congrArg List.length hpre
                simp at this

end Transfer

end RedisCore
