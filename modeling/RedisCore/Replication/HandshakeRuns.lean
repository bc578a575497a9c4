/-
# `RedisCore.Replication.HandshakeRuns` — safety of the handshake, over every run

The invariant says that the file events that are registered are those of the attempt that
is under way.  So `syncWithMaster` is only called in a state of the handshake; each of its
blocks keeps what the next one needs, and only the last one can connect the master.

What goes wrong is a `+CONTINUE` without a cached master: `handshakeSafe_iff` says that the
runs without it are exactly the safe ones.
-/
import RedisCore.Replication.Handshake
import Mathlib.Data.List.Induction

namespace RedisCore

namespace Handshake

/-! ## The invariant -/

variable {s s' : State} {fd : Int} {env : SyncEnv}

/-- An attempt to connect is under way, before the transfer. -/
def Trying (s : State) : Prop := s.replState = .connecting ∨ slaveIsInHandshakeState s = true

/-- An attempt to connect is under way. -/
def UnderWay (s : State) : Prop := Trying s ∨ s.replState = .transfer

/-- The cached master is a client of its own. -/
def Apart (s : State) : Prop :=
  ∀ c, s.cachedMaster = some c → s.master ≠ some c ∧ s.live c = true

/-- The master is null or freed. -/
def Dead (s : State) : Prop := ∀ c, s.master = some c → s.live c = false

/-- **The invariant**: file events are those of the attempt that is under way, on its
socket. -/
structure Inv (s : State) : Prop where
  socket : UnderWay s → s.replTransferS ≠ -1
  readable : ∀ fd f, s.readable fd = some f → fd = s.replTransferS ∧
    (f = .syncWithMaster ∧ Trying s ∨ f = .readSyncBulkPayload ∧ s.replState = .transfer)
  writable : ∀ fd f, s.writable fd = some f →
    fd = s.replTransferS ∧ f = .syncWithMaster ∧ s.replState = .connecting
  transfer : s.replState = .transfer → s.replTransferFd ≠ -1 ∧ s.replTransferTmpfile ≠ .none
  apart : Apart s
  dead : s.replState ≠ .connected → Dead s

/-- Nothing is under way. -/
theorem Inv.idle (hr : ∀ fd, s.readable fd = .none) (hw : ∀ fd, s.writable fd = .none)
    (ht : ¬ Trying s) (hs : s.replState ≠ .transfer) (ha : Apart s)
    (hd : s.replState ≠ .connected → Dead s) : Inv s where
  socket h := absurd h (not_or.mpr ⟨ht, hs⟩)
  readable fd f h := by rw [hr] at h; exact absurd h (by simp)
  writable fd f h := by rw [hw] at h; exact absurd h (by simp)
  transfer h := absurd h hs
  apart := ha
  dead := hd

theorem not_trying_connect (h : s.replState = .connect) : ¬ Trying s := by
  simp [Trying, slaveIsInHandshakeState, h, ReplState.code]

theorem not_trying_connected (h : s.replState = .connected) : ¬ Trying s := by
  simp [Trying, slaveIsInHandshakeState, h, ReplState.code]

theorem not_trying_none (h : s.replState = .none) : ¬ Trying s := by
  simp [Trying, slaveIsInHandshakeState, h, ReplState.code]

theorem not_trying_transfer (h : s.replState = .transfer) : ¬ Trying s := by
  simp [Trying, slaveIsInHandshakeState, h, ReplState.code]

/-- File events on one socket only. -/
structure Only (fd : Int) (s : State) : Prop where
  readable : ∀ fd' f, s.readable fd' = some f → fd' = fd
  writable : ∀ fd' f, s.writable fd' = some f → fd' = fd
  apart : Apart s
  dead : Dead s

theorem Inv.only (h : Inv s) (hne : s.replState ≠ .connected) : Only s.replTransferS s :=
  ⟨fun fd f hf => (h.readable fd f hf).1, fun fd f hf => (h.writable fd f hf).1, h.apart,
    h.dead hne⟩

theorem Only.readable_deleted (h : Only fd s) (fd' : Int) :
    ((s.deleteReadable fd).deleteWritable fd).readable fd' = .none := by
  show Function.update s.readable fd .none fd' = .none
  by_cases hfd : fd' = fd
  · subst hfd
    exact Function.update_self ..
  · rw [Function.update_of_ne hfd]
    cases hr : s.readable fd' with
    | none => rfl
    | some f => exact absurd (h.readable fd' f hr) hfd

theorem Only.writable_deleted (h : Only fd s) (fd' : Int) :
    ((s.deleteReadable fd).deleteWritable fd).writable fd' = .none := by
  show Function.update s.writable fd .none fd' = .none
  by_cases hfd : fd' = fd
  · subst hfd
    exact Function.update_self ..
  · rw [Function.update_of_ne hfd]
    cases hw : s.writable fd' with
    | none => rfl
    | some f => exact absurd (h.writable fd' f hw) hfd

/-! ## Giving up -/

/-- How every attempt ends on which the code gives up. -/
def GivenUp (s : State) : Prop :=
  (s.replState = .connect ∨ s.replState = .none) ∧ s.replTransferS = -1

/-- With its file events deleted an attempt is over. -/
theorem Only.inv (h : Only fd s) (hr : s'.readable = ((s.deleteReadable fd).deleteWritable fd).readable)
    (hw : s'.writable = ((s.deleteReadable fd).deleteWritable fd).writable)
    (hstate : s'.replState = .connect) (hm : s'.master = s.master)
    (hc : s'.cachedMaster = s.cachedMaster) (hl : s'.live = s.live) : Inv s' := by
  refine Inv.idle ?_ ?_ (not_trying_connect hstate) (by rw [hstate]; decide) ?_ ?_
  · intro fd'
    rw [hr]
    exact h.readable_deleted fd'
  · intro fd'
    rw [hw]
    exact h.writable_deleted fd'
  · unfold Apart
    rw [hm, hc, hl]
    exact h.apart
  · intro _
    unfold Dead
    rw [hm, hl]
    exact h.dead

/-- **The label `error`** leaves nothing under way. -/
theorem inv_syncError (h : Only fd s) : Inv (syncError s fd) := h.inv rfl rfl rfl rfl rfl rfl

theorem trying_ne_connected (h : Trying s) : s.replState ≠ .connected :=
  fun hc => not_trying_connected hc h

theorem cancel_trying (h : Trying s) : cancelReplicationHandshake s =
    ({ undoConnectWithMaster s with replState := .connect }, true) := by
  have hne : s.replState ≠ .transfer := fun ht => not_trying_transfer ht h
  unfold cancelReplicationHandshake
  unfold Trying at h
  rw [if_neg hne, if_pos h]

theorem cancel_transfer (h : s.replState = .transfer) : cancelReplicationHandshake s =
    ({ replicationAbortSyncTransfer s with replState := .connect }, true) := by
  unfold cancelReplicationHandshake
  rw [if_pos h]

/-- **`cancelReplicationHandshake`** does nothing when nothing is under way. -/
theorem cancel_idle (ht : ¬ Trying s) (hs : s.replState ≠ .transfer) :
    cancelReplicationHandshake s = (s, false) := by
  unfold cancelReplicationHandshake
  unfold Trying at ht
  rw [if_neg hs, if_neg ht]

/-- Nothing is under way, and the clients are what they were. -/
structure Stopped (s s' : State) : Prop where
  inv : Inv s'
  notUnderWay : ¬ UnderWay s'
  connected : s'.replState = .connected → s.replState = .connected
  master : s'.master = s.master
  live : s'.live = s.live

/-- **`cancelReplicationHandshake`** leaves nothing under way. -/
theorem stopped_cancel (h : Inv s) : Stopped s (cancelReplicationHandshake s).1 := by
  by_cases ht : Trying s
  · have honly := h.only (trying_ne_connected ht)
    rw [cancel_trying ht]
    exact ⟨honly.inv rfl rfl rfl rfl rfl rfl, not_or.mpr ⟨not_trying_connect rfl,
      ReplState.noConfusion⟩, ReplState.noConfusion, rfl, rfl⟩
  · by_cases hs : s.replState = .transfer
    · have honly := h.only (by rw [hs]; decide)
      rw [cancel_transfer hs]
      exact ⟨honly.inv rfl rfl rfl rfl rfl rfl, not_or.mpr ⟨not_trying_connect rfl,
        ReplState.noConfusion⟩, ReplState.noConfusion, rfl, rfl⟩
    · rw [cancel_idle ht hs]
      exact ⟨h, not_or.mpr ⟨ht, hs⟩, id, rfl, rfl⟩

theorem cancel_gaveUp (h : UnderWay s) : (cancelReplicationHandshake s).2 = true ∧
    GivenUp (cancelReplicationHandshake s).1 := by
  by_cases ht : Trying s
  · rw [cancel_trying ht]
    exact ⟨rfl, Or.inl rfl, rfl⟩
  · rw [cancel_transfer (h.resolve_left ht)]
    exact ⟨rfl, Or.inl rfl, rfl⟩

/-- When nothing is under way no file event is registered. -/
theorem Inv.no_events (h : Inv s) (hidle : ¬ UnderWay s) :
    (∀ fd, s.readable fd = .none) ∧ ∀ fd, s.writable fd = .none := by
  obtain ⟨ht, hs⟩ := not_or.mp hidle
  constructor
  · intro fd
    cases hr : s.readable fd with
    | none => rfl
    | some f =>
        rcases (h.readable fd f hr).2 with ⟨-, h'⟩ | ⟨-, h'⟩
        · exact absurd h' ht
        · exact absurd h' hs
  · intro fd
    cases hw : s.writable fd with
    | none => rfl
    | some f => exact absurd (Or.inl (h.writable fd f hw).2.2) ht

/-! ## The clients -/

theorem apart_freeMaster (h : Apart s) : Apart (freeMaster s) := by
  unfold freeMaster
  cases hm : s.master with
  | none => exact h
  | some c =>
      intro c' hc'
      obtain ⟨hne, hlive⟩ := h c' hc'
      refine ⟨hne, ?_⟩
      have hcc : c' ≠ c := by
        rintro rfl
        exact hne hm
      show Function.update s.live c false c' = true
      rw [Function.update_of_ne hcc]
      exact hlive

/-- Freeing a client does not bring another one back. -/
theorem dead_freeClient (h : Dead s) (c : ClientId) : Dead (freeClient s c) := by
  intro c' hc'
  show Function.update s.live c false c' = false
  by_cases hcc : c' = c
  · subst hcc
    exact Function.update_self ..
  · rw [Function.update_of_ne hcc]
    exact h c' hc'

theorem dead_freeMaster (s : State) : Dead (freeMaster s) := by
  unfold freeMaster
  cases hm : s.master with
  | none =>
      intro c hc
      rw [hm] at hc
      exact absurd hc (by simp)
  | some c =>
      intro c' hc'
      obtain rfl : c = c' := Option.some.inj (hm.symm.trans hc')
      exact Function.update_self ..

theorem dead_discard (h : Dead s) : Dead (replicationDiscardCachedMaster s) := by
  unfold replicationDiscardCachedMaster
  cases s.cachedMaster with
  | none => exact h
  | some c => exact dead_freeClient h c

theorem apart_discard (s : State) : Apart (replicationDiscardCachedMaster s) := by
  unfold replicationDiscardCachedMaster
  cases hc : s.cachedMaster with
  | none =>
      intro c h
      rw [hc] at h
      exact absurd h (by simp)
  | some c' =>
      intro c h
      exact absurd h (by simp)

/-- Freeing clients changes none of the other fields. -/
theorem freeMaster_fields (s : State) : (freeMaster s).replState = s.replState ∧
    (freeMaster s).replTransferS = s.replTransferS ∧ (freeMaster s).readable = s.readable ∧
    (freeMaster s).writable = s.writable ∧ (freeMaster s).replTransferFd = s.replTransferFd ∧
    (freeMaster s).replTransferTmpfile = s.replTransferTmpfile ∧ (freeMaster s).master = s.master := by
  unfold freeMaster
  cases hm : s.master with
  | none => exact ⟨rfl, rfl, rfl, rfl, rfl, rfl, hm⟩
  | some c => exact ⟨rfl, rfl, rfl, rfl, rfl, rfl, hm⟩

theorem discard_fields (s : State) : (replicationDiscardCachedMaster s).replState = s.replState ∧
    (replicationDiscardCachedMaster s).replTransferS = s.replTransferS ∧
    (replicationDiscardCachedMaster s).readable = s.readable ∧
    (replicationDiscardCachedMaster s).writable = s.writable ∧
    (replicationDiscardCachedMaster s).replTransferFd = s.replTransferFd ∧
    (replicationDiscardCachedMaster s).replTransferTmpfile = s.replTransferTmpfile ∧
    (replicationDiscardCachedMaster s).master = s.master := by
  unfold replicationDiscardCachedMaster
  cases s.cachedMaster <;> exact ⟨rfl, rfl, rfl, rfl, rfl, rfl, rfl⟩

/-- Changing clients only. -/
theorem Inv.clients (h : Inv s) (hstate : s'.replState = s.replState)
    (hsock : s'.replTransferS = s.replTransferS) (hr : s'.readable = s.readable)
    (hw : s'.writable = s.writable) (hfd : s'.replTransferFd = s.replTransferFd)
    (htmp : s'.replTransferTmpfile = s.replTransferTmpfile) (ha : Apart s')
    (hd : s'.replState ≠ .connected → Dead s') : Inv s' := by
  have ht : Trying s' ↔ Trying s := by
    unfold Trying slaveIsInHandshakeState
    rw [hstate]
  refine ⟨?_, ?_, ?_, ?_, ha, hd⟩
  · unfold UnderWay
    rw [ht, hstate, hsock]
    exact h.socket
  · intro fd f hf
    rw [hr] at hf
    rw [ht, hstate, hsock]
    exact h.readable fd f hf
  · intro fd f hf
    rw [hw] at hf
    rw [hstate, hsock]
    exact h.writable fd f hf
  · rw [hstate, hfd, htmp]
    exact h.transfer

theorem inv_freeMaster (h : Inv s) : Inv (freeMaster s) := by
  obtain ⟨h₁, h₂, h₃, h₄, h₅, h₆, -⟩ := freeMaster_fields s
  exact h.clients h₁ h₂ h₃ h₄ h₅ h₆ (apart_freeMaster h.apart) (fun _ => dead_freeMaster s)

theorem inv_discard (h : Inv s) : Inv (replicationDiscardCachedMaster s) := by
  obtain ⟨h₁, h₂, h₃, h₄, h₅, h₆, -⟩ := discard_fields s
  refine h.clients h₁ h₂ h₃ h₄ h₅ h₆ (apart_discard s) (fun hne => ?_)
  rw [h₁] at hne
  exact dead_discard (h.dead hne)

/-! ## A call of syncWithMaster -/

/-- What a call of `syncWithMaster` keeps from block to block. -/
structure Hand (fd : Int) (s : State) : Prop where
  socket : s.replTransferS = fd
  valid : fd ≠ -1
  readable : ∀ fd' f, s.readable fd' = some f → fd' = fd ∧ f = .syncWithMaster
  writable : ∀ fd' f, s.writable fd' = some f →
    fd' = fd ∧ f = .syncWithMaster ∧ s.replState = .connecting
  trying : Trying s
  apart : Apart s
  dead : Dead s

theorem Hand.inv (h : Hand fd s) : Inv s where
  socket _ := by
    rw [h.socket]
    exact h.valid
  readable fd' f hf := by
    obtain ⟨hfd, hf⟩ := h.readable fd' f hf
    rw [h.socket]
    exact ⟨hfd, Or.inl ⟨hf, h.trying⟩⟩
  writable fd' f hf := by
    rw [h.socket]
    exact h.writable fd' f hf
  transfer ht := absurd h.trying (not_trying_transfer ht)
  apart := h.apart
  dead _ := h.dead

theorem Hand.only (h : Hand fd s) : Only fd s :=
  ⟨fun fd' f hf => (h.readable fd' f hf).1, fun fd' f hf => (h.writable fd' f hf).1, h.apart,
    h.dead⟩

/-- The file event that called it is the one of the attempt under way. -/
theorem Inv.hand (h : Inv s)
    (hfd : s.readable fd = some .syncWithMaster ∨ s.writable fd = some .syncWithMaster) :
    Hand fd s := by
  have hsock : fd = s.replTransferS ∧ Trying s := by
    rcases hfd with hr | hw
    · obtain ⟨hfd, ⟨-, ht⟩ | ⟨hf, -⟩⟩ := h.readable fd _ hr
      · exact ⟨hfd, ht⟩
      · exact absurd hf (by simp)
    · obtain ⟨hfd, -, hc⟩ := h.writable fd _ hw
      exact ⟨hfd, Or.inl hc⟩
  obtain ⟨rfl, ht⟩ := hsock
  refine ⟨rfl, h.socket (Or.inl ht), ?_, h.writable, ht, h.apart, h.dead (trying_ne_connected ht)⟩
  intro fd' f hf
  obtain ⟨hfd', ⟨hs, -⟩ | ⟨-, htr⟩⟩ := h.readable fd' f hf
  · exact ⟨hfd', hs⟩
  · exact absurd ht (not_trying_transfer htr)

/-- The states between two blocks. -/
def ReplState.waiting (r : ReplState) : Bool :=
  r.code ≥ ReplState.receivePong.code && r.code ≤ ReplState.receivePsync.code

theorem trying_of_waiting (h : s.replState.waiting = true) : Trying s := Or.inr h

/-- A block only moves on. -/
theorem Hand.move (h : Hand fd s) (hne : s.replState ≠ .connecting) {r : ReplState}
    (hr : r.waiting = true) : Hand fd { s with replState := r } where
  socket := h.socket
  valid := h.valid
  readable := h.readable
  writable fd' f hf := absurd (h.writable fd' f hf).2.2 hne
  trying := trying_of_waiting hr
  apart := h.apart
  dead := h.dead

/-- How a block before the last one may end. -/
def Flow.Fine (fd : Int) (s : State) : Flow → Prop
  | .returned s' => Hand fd s'
  | .error s' => Only fd s'
  | .next s' => Hand fd s' ∧ (s'.replState = .receivePsync → s' = s)

theorem fine_andThen {r : Flow} {f : State → Flow} (hr : r.Fine fd s)
    (hf : ∀ s', Hand fd s' → (f s').Fine fd s') : (r.andThen f).Fine fd s := by
  cases r with
  | returned s' => exact hr
  | error s' => exact hr
  | next s' =>
      obtain ⟨hs', heq⟩ := hr
      have hf' := hf s' hs'
      show (f s').Fine fd s
      cases hfs : f s' with
      | returned s'' =>
          rw [hfs] at hf'
          exact hf'
      | error s'' =>
          rw [hfs] at hf'
          exact hf'
      | next s'' =>
          rw [hfs] at hf'
          refine ⟨hf'.1, fun hp => ?_⟩
          have h₂ : s'' = s' := hf'.2 hp
          rw [h₂] at hp ⊢
          exact heq hp

theorem fine_next (h : Hand fd s) : (Flow.next s).Fine fd s := ⟨h, fun _ => rfl⟩

theorem fine_sendBlock {state wait : ReplState} (hne : state ≠ .connecting)
    (hwait : wait.waiting = true) (h : Hand fd s) : (sendBlock state wait env s).Fine fd s := by
  unfold sendBlock
  by_cases hs : s.replState = state
  · rw [if_pos hs]
    by_cases hw : env.writeOk = true
    · rw [if_pos hw]
      refine h.move ?_ hwait
      rw [hs]
      exact hne
    · rw [if_neg hw]
      exact h.only
  · rw [if_neg hs]
    exact fine_next h

theorem fine_receiveBlock {state goOn : ReplState} {bad : Bytes → Bool} (hne : state ≠ .connecting)
    (hgo : goOn.waiting = true) (hpsync : goOn ≠ .receivePsync) (h : Hand fd s) :
    (receiveBlock state goOn bad env s).Fine fd s := by
  unfold receiveBlock
  by_cases hs : s.replState = state
  · rw [if_pos hs]
    by_cases hb : bad (sendSynchronousRead env.line) = true
    · rw [if_pos hb]
      exact h.only
    · rw [if_neg hb]
      refine ⟨h.move ?_ hgo, fun hp => absurd hp hpsync⟩
      rw [hs]
      exact hne
  · rw [if_neg hs]
    exact fine_next h

/-- A block that is left out when an option is not set. -/
theorem fine_skip {state goOn : ReplState} (hne : state ≠ .connecting) (hgo : goOn.waiting = true)
    (hpsync : goOn ≠ .receivePsync) (h : Hand fd s) (hs : s.replState = state) :
    (Flow.next { s with replState := goOn }).Fine fd s := by
  refine ⟨h.move ?_ hgo, fun hp => absurd hp hpsync⟩
  rw [hs]
  exact hne

theorem fine_connectingBlock (h : Hand fd s) : (connectingBlock fd env s).Fine fd s := by
  unfold connectingBlock
  by_cases hs : s.replState = .connecting
  · rw [if_pos hs]
    have hdel : Hand fd { s.deleteWritable fd with replState := .receivePong } := by
      refine ⟨h.socket, h.valid, h.readable, ?_, trying_of_waiting rfl, h.apart, h.dead⟩
      intro fd' f hf
      have hf' : Function.update s.writable fd .none fd' = some f := hf
      by_cases hfd : fd' = fd
      · subst hfd
        rw [Function.update_self] at hf'
        exact absurd hf' (by simp)
      · rw [Function.update_of_ne hfd] at hf'
        exact absurd (h.writable fd' f hf').1 hfd
    by_cases hw : env.writeOk = true
    · simp only [if_pos hw]
      exact hdel
    · simp only [if_neg hw]
      exact hdel.only
  · rw [if_neg hs]
    exact fine_next h

theorem fine_sendAuth (h : Hand fd s) : (sendAuth env s).Fine fd s := by
  unfold sendAuth
  by_cases hs : s.replState = .sendAuth ∧ s.masterauth = .none
  · rw [if_pos hs]
    exact fine_skip (by decide) rfl (by decide) h hs.1
  · rw [if_neg hs]
    exact fine_sendBlock (by decide) rfl h

theorem fine_skipIp (h : Hand fd s) : (skipIp s).Fine fd s := by
  unfold skipIp
  by_cases hs : s.replState = .sendIp ∧ s.slaveAnnounceIp = .none
  · rw [if_pos hs]
    exact fine_skip (by decide) rfl (by decide) h hs.1
  · rw [if_neg hs]
    exact fine_next h

/-- Deleting the event that called it leaves the events on one socket. -/
theorem only_deleteReadable (h : Only fd s) : Only fd (s.deleteReadable fd) := by
  refine ⟨?_, h.writable, h.apart, h.dead⟩
  intro fd' f hf
  by_contra hne
  have hf' : Function.update s.readable fd .none fd' = some f := hf
  rw [Function.update_of_ne hne] at hf'
  exact hne (h.readable fd' f hf')

theorem fine_sendPsyncBlock (h : Hand fd s) : (sendPsyncBlock fd env s).Fine fd s := by
  unfold sendPsyncBlock
  by_cases hs : s.replState = .sendPsync
  · rw [if_pos hs]
    have hoff : Hand fd { s with replMasterInitialOffset := -1 } :=
      ⟨h.socket, h.valid, h.readable, h.writable, h.trying, h.apart, h.dead⟩
    unfold sendPsync
    by_cases hw : env.writeOk = true
    · simp only [if_pos hw]
      refine hoff.move ?_ rfl
      show s.replState ≠ .connecting
      rw [hs]
      decide
    · simp only [if_neg hw]
      exact only_deleteReadable hoff.only
  · rw [if_neg hs]
    exact fine_next h

/-- **The blocks before the last one.** -/
def earlierBlocks (fd : Int) (env : SyncEnv) (s : State) : Flow :=
  (((((((((((connectingBlock fd env s).andThen (receivePong env)).andThen (sendAuth env)).andThen
    (receiveAuth env)).andThen (sendPort env)).andThen (receivePort env)).andThen skipIp).andThen
    (sendIp env)).andThen (receiveIp env)).andThen (sendCapa env)).andThen (receiveCapa env)).andThen
    (sendPsyncBlock fd env)

theorem syncBlocks_eq (fd : Int) (env : SyncEnv) (s : State) :
    syncBlocks fd env s = (earlierBlocks fd env s).andThen (receivePsync fd env) := rfl

theorem fine_earlierBlocks (env : SyncEnv) (h : Hand fd s) : (earlierBlocks fd env s).Fine fd s := by
  unfold earlierBlocks
  refine fine_andThen ?_ (fun _ => fine_sendPsyncBlock)
  refine fine_andThen ?_ (fun _ => fine_receiveBlock (by decide) rfl (by decide))
  refine fine_andThen ?_ (fun _ => fine_sendBlock (by decide) rfl)
  refine fine_andThen ?_ (fun _ => fine_receiveBlock (by decide) rfl (by decide))
  refine fine_andThen ?_ (fun _ => fine_sendBlock (by decide) rfl)
  refine fine_andThen ?_ (fun _ => fine_skipIp)
  refine fine_andThen ?_ (fun _ => fine_receiveBlock (by decide) rfl (by decide))
  refine fine_andThen ?_ (fun _ => fine_sendBlock (by decide) rfl)
  refine fine_andThen ?_ (fun _ => fine_receiveBlock (by decide) rfl (by decide))
  refine fine_andThen ?_ (fun _ => fine_sendAuth)
  refine fine_andThen ?_ (fun _ => fine_receiveBlock (by decide) rfl (by decide))
  exact fine_connectingBlock h

/-! ## The reply to PSYNC -/

/-- When its turn has come the last block is all that is left. -/
theorem earlierBlocks_receivePsync (h : s.replState = .receivePsync) :
    earlierBlocks fd env s = .next s := by
  simp [earlierBlocks, connectingBlock, receivePong, sendAuth, receiveAuth, sendPort, receivePort,
    skipIp, sendIp, receiveIp, sendCapa, receiveCapa, sendPsyncBlock, sendBlock, receiveBlock,
    Flow.andThen, h]

/-- The two replies that the code knows are different. -/
theorem not_fullresync {reply : Bytes} (h : startsWith reply "+CONTINUE" = true) :
    reply.length ≠ 0 ∧ startsWith reply "+FULLRESYNC" = false := by
  unfold startsWith at h ⊢
  obtain ⟨rest, rfl⟩ := List.isPrefixOf_iff_prefix.mp h
  exact ⟨by simp [cstr], by simp [cstr, List.isPrefixOf]⟩

/-- The state in which the last block falls back to a transfer. -/
structure Resyncing (fd : Int) (s s' : State) : Prop where
  replState : s'.replState = s.replState
  socket : s'.replTransferS = s.replTransferS
  readable : s'.readable = (s.deleteReadable fd).readable
  writable : s'.writable = s.writable
  apart : Apart s'
  dead : Dead s → Dead s'

/-- `replicationDiscardCachedMaster` on a state that differs in what is known of the master. -/
theorem resyncing_discard {s₁ : State} (hstate : s₁.replState = s.replState)
    (hsock : s₁.replTransferS = s.replTransferS)
    (hr : s₁.readable = (s.deleteReadable fd).readable) (hw : s₁.writable = s.writable)
    (hm : s₁.master = s.master) (hl : s₁.live = s.live) :
    Resyncing fd s (replicationDiscardCachedMaster s₁) := by
  obtain ⟨h₁, h₂, h₃, h₄, -, -, -⟩ := discard_fields s₁
  refine ⟨h₁.trans hstate, h₂.trans hsock, h₃.trans hr, h₄.trans hw, apart_discard s₁, fun hd => ?_⟩
  refine dead_discard ?_
  unfold Dead
  rw [hm, hl]
  exact hd

/-- The three ways in which the reading half goes on. -/
theorem readPsync_cases (s : State) (fd : Int) (reply : Bytes) :
    (reply.length = 0 ∧ readPsync s fd reply = (s, .waitReply)) ∨
    (startsWith reply "+CONTINUE" = true ∧
      readPsync s fd reply = (replicationResurrectCachedMaster (s.deleteReadable fd), .continue)) ∨
    (startsWith reply "+CONTINUE" = false ∧ ∃ s' result, readPsync s fd reply = (s', result) ∧
      (result = .fullresync ∨ result = .notSupported) ∧ Resyncing fd s s') := by
  by_cases hlen : reply.length = 0
  · refine Or.inl ⟨hlen, ?_⟩
    unfold readPsync
    rw [if_pos hlen]
  · by_cases hcont : startsWith reply "+CONTINUE" = true
    · refine Or.inr (Or.inl ⟨hcont, ?_⟩)
      unfold readPsync
      have hfull := (not_fullresync hcont).2
      simp only [if_neg hlen, hfull, hcont]
      rfl
    · refine Or.inr (Or.inr ⟨by simpa using hcont, ?_⟩)
      unfold readPsync
      simp only [if_neg hlen, if_neg hcont]
      by_cases hfull : startsWith reply "+FULLRESYNC" = true
      · simp only [if_pos hfull]
        refine ⟨_, _, rfl, Or.inl rfl, ?_⟩
        split
        · exact resyncing_discard rfl rfl rfl rfl rfl rfl
        · split <;> exact resyncing_discard rfl rfl rfl rfl rfl rfl
      · simp only [if_neg hfull]
        exact ⟨_, _, rfl, Or.inr rfl, resyncing_discard rfl rfl rfl rfl rfl rfl⟩

/-- How the last block may end. -/
def Flow.Last (fd : Int) (env : SyncEnv) (s : State) : Flow → Prop
  | .returned s' => Inv s' ∧ (UnderWay s' ∨ s'.replState = .connected ∧
      startsWith (sendSynchronousRead env.line) "+CONTINUE" = true ∧ s'.master = s.cachedMaster)
  | .error s' => Only fd s'
  | .next _ => False

theorem Resyncing.only (h : Resyncing fd s s') (hs : Hand fd s) : Only fd s' := by
  refine ⟨?_, ?_, h.apart, h.dead hs.dead⟩
  · intro fd' f hf
    rw [h.readable] at hf
    exact (only_deleteReadable hs.only).readable fd' f hf
  · intro fd' f hf
    rw [h.writable] at hf
    exact (hs.writable fd' f hf).1

/-- No event is left before the transfer is set up. -/
theorem Resyncing.no_events (h : Resyncing fd s s') (hs : Hand fd s)
    (hstate : s.replState = .receivePsync) :
    (∀ fd', s'.readable fd' = .none) ∧ ∀ fd', s'.writable fd' = .none := by
  constructor
  · intro fd'
    rw [h.readable]
    exact hs.only.readable_deleted fd'
  · intro fd'
    rw [h.writable]
    cases hw : s.writable fd' with
    | none => rfl
    | some f =>
        have hc := (hs.writable fd' f hw).2.2
        rw [hstate] at hc
        exact absurd hc (by decide)

/-- **The transfer is set up** with a file and a socket. -/
theorem inv_transfer (h : Resyncing fd s s') (hs : Hand fd s) (hstate : s.replState = .receivePsync)
    {dfd : Int} (hdfd : dfd ≠ -1) (tmpfile : Bytes) :
    Inv { s' with
      readable := Function.update s'.readable fd (some .readSyncBulkPayload)
      replState := .transfer
      replTransferFd := dfd
      replTransferTmpfile := some tmpfile } := by
  obtain ⟨hr, hw⟩ := h.no_events hs hstate
  have hsock : s'.replTransferS = fd := h.socket.trans hs.socket
  refine ⟨?_, ?_, ?_, fun _ => ⟨hdfd, by simp⟩, h.apart, fun _ => h.dead hs.dead⟩
  · intro _
    show s'.replTransferS ≠ -1
    rw [hsock]
    exact hs.valid
  · intro fd' f hf
    have hf' : Function.update s'.readable fd (some .readSyncBulkPayload) fd' = some f := hf
    by_cases hfd : fd' = fd
    · subst hfd
      rw [Function.update_self] at hf'
      exact ⟨hsock.symm, Or.inr ⟨(Option.some.inj hf').symm, rfl⟩⟩
    · rw [Function.update_of_ne hfd, hr fd'] at hf'
      exact absurd hf' (by simp)
  · intro fd' f hf
    have hf' : s'.writable fd' = some f := hf
    rw [hw fd'] at hf'
    exact absurd hf' (by simp)

/-- **The cached master is the master again**. -/
theorem inv_resurrect (hs : Hand fd s) (hstate : s.replState = .receivePsync) :
    Inv (replicationResurrectCachedMaster (s.deleteReadable fd)) := by
  refine Inv.idle ?_ ?_ (not_trying_connected rfl) ReplState.noConfusion ?_
    (fun hne => absurd rfl hne)
  · exact hs.only.readable_deleted
  · intro fd'
    show s.writable fd' = .none
    cases hw : s.writable fd' with
    | none => rfl
    | some f =>
        have hc := (hs.writable fd' f hw).2.2
        rw [hstate] at hc
        exact absurd hc (by decide)
  · intro c hc
    exact absurd hc (by simp [replicationResurrectCachedMaster])

theorem last_receivePsync (env : SyncEnv) (h : Hand fd s) : (receivePsync fd env s).Last fd env s := by
  unfold receivePsync
  by_cases hstate : s.replState = .receivePsync
  · rw [if_neg (not_not.mpr hstate)]
    rcases readPsync_cases s fd (sendSynchronousRead env.line) with
      ⟨-, hread⟩ | ⟨hcont, hread⟩ | ⟨-, s', result, hread, hresult, hs'⟩
    · rw [hread]
      exact ⟨h.inv, Or.inl (Or.inl h.trying)⟩
    · rw [hread]
      exact ⟨inv_resurrect h hstate, Or.inr ⟨rfl, hcont, rfl⟩⟩
    · have hend : (if result = .notSupported ∧ env.syncOk = false then Flow.error s'
          else if env.dfd = -1 then .error s'
          else if env.eventOk = false then .error s'
          else .returned { s' with
            readable := Function.update s'.readable fd (some .readSyncBulkPayload)
            replState := .transfer
            replTransferFd := env.dfd
            replTransferTmpfile := some env.tmpfile }).Last fd env s := by
        split
        · exact hs'.only h
        · split
          · exact hs'.only h
          · rename_i hdfd
            split
            · exact hs'.only h
            · exact ⟨inv_transfer hs' h hstate hdfd env.tmpfile, Or.inl (Or.inr rfl)⟩
      rw [hread]
      rcases hresult with rfl | rfl
      · exact hend
      · exact hend
  · rw [if_pos hstate]
    exact h.only

/-- How a step ends that leads from `s` to `s'`: an attempt goes on, the code gives up, or the
master is connected. -/
inductive Ends (connecting : Prop) (s' : State) : Bool → Prop where
  | goesOn (h : UnderWay s') : Ends connecting s' false
  | gaveUp (h : GivenUp s') : Ends connecting s' true
  | connected (h : s'.replState = .connected) (hc : connecting) : Ends connecting s' false

/-- The last block has taken the reply as `+CONTINUE`. -/
def Continued (s : State) (env : SyncEnv) : Prop :=
  s.replState = .receivePsync ∧ env.sockerr = false ∧
    startsWith (sendSynchronousRead env.line) "+CONTINUE" = true

/-- **What a call of `syncWithMaster` does**: the invariant holds again, and the master is
connected only by `+CONTINUE`. -/
theorem syncWithMaster_inv (env : SyncEnv) (h : Hand fd s) : Inv (syncWithMaster s fd env).1 ∧
    Ends (Continued s env ∧ (syncWithMaster s fd env).1.master = s.cachedMaster)
      (syncWithMaster s fd env).1 (syncWithMaster s fd env).2 := by
  have hnone : s.replState ≠ .none := fun hn => not_trying_none hn h.trying
  have herr : ∀ {s'} {P : Prop}, Only fd s' →
      Inv (syncError s' fd) ∧ Ends P (syncError s' fd) true :=
    fun hs' => ⟨inv_syncError hs', .gaveUp ⟨Or.inl rfl, rfl⟩⟩
  unfold syncWithMaster
  rw [if_neg hnone]
  by_cases hsock : env.sockerr = true
  · rw [if_pos hsock]
    exact herr h.only
  · rw [if_neg hsock, syncBlocks_eq]
    have hfine := fine_earlierBlocks env h
    cases hearlier : earlierBlocks fd env s with
    | returned s' =>
        rw [hearlier] at hfine
        exact ⟨Hand.inv hfine, .goesOn (Or.inl (Hand.trying hfine))⟩
    | error s' =>
        rw [hearlier] at hfine
        exact herr hfine
    | next s' =>
        rw [hearlier] at hfine
        obtain ⟨hs', heq⟩ := hfine
        have hlast := last_receivePsync env hs'
        simp only [Flow.andThen]
        cases hr : receivePsync fd env s' with
        | returned s'' =>
            rw [hr] at hlast
            obtain ⟨hinv, hway | ⟨hconn, hcont, hm⟩⟩ := hlast
            · exact ⟨hinv, .goesOn hway⟩
            · have hstate : s'.replState = .receivePsync := by
                by_contra hne
                unfold receivePsync at hr
                rw [if_pos hne] at hr
                exact absurd hr (by simp)
              obtain rfl : s' = s := heq hstate
              exact ⟨hinv, .connected hconn ⟨⟨hstate, by simpa using hsock, hcont⟩, hm⟩⟩
        | error s'' =>
            rw [hr] at hlast
            exact herr hlast
        | next s'' =>
            rw [hr] at hlast
            exact absurd hlast id

/-- An unsolicited `+CONTINUE` is taken as any other. -/
theorem syncWithMaster_continue (h : Continued s env) :
    syncWithMaster s fd env = (replicationResurrectCachedMaster (s.deleteReadable fd), false) := by
  obtain ⟨hstate, hsock, hcont⟩ := h
  have hread : readPsync s fd (sendSynchronousRead env.line) =
      (replicationResurrectCachedMaster (s.deleteReadable fd), .continue) := by
    rcases readPsync_cases s fd (sendSynchronousRead env.line) with ⟨hlen, -⟩ | ⟨-, h⟩ | ⟨h, -⟩
    · exact absurd hlen (not_fullresync hcont).1
    · exact h
    · rw [h] at hcont
      exact absurd hcont (by simp)
  unfold syncWithMaster
  rw [if_neg (by rw [hstate]; decide), hsock, syncBlocks_eq, earlierBlocks_receivePsync hstate]
  simp only [Flow.andThen, receivePsync, hstate, hread]
  rfl

/-! ## One step -/

/-- When a step does what is asked of it: it does not resurrect a cached master that is not
there, and the client of a new master could be created. -/
def Meets (s : State) : Step → Prop
  | .sync _ env => Continued s env → s.cachedMaster ≠ .none
  | .bulk _ (.done c) => c ≠ .none
  | _ => True

/-- What a step keeps. -/
structure Stepped (s : State) (meets : Prop) (s' : State) (gaveUp : Bool) : Prop where
  inv : Inv s'
  givenUp : (gaveUp = true ∨ UnderWay s ∧ ¬ UnderWay s' ∧ s'.replState ≠ .connected) → GivenUp s'
  master : s'.replState = .connected → meets → (s.replState = .connected → s.master ≠ .none) →
    s'.master ≠ .none

variable {meets : Prop} {b : Bool}

/-- A step that leaves the attempt and the master alone. -/
theorem Stepped.of_same (h : Inv s') (hstate : s'.replState = s.replState)
    (hm : s'.master = s.master) : Stepped s meets s' false where
  inv := h
  givenUp hg := by
    rcases hg with hb | ⟨hway, hnot, -⟩
    · exact absurd hb (by simp)
    · refine absurd ?_ hnot
      unfold UnderWay Trying slaveIsInHandshakeState
      rw [hstate]
      exact hway
  master hc _ hs := by
    rw [hm]
    rw [hstate] at hc
    exact hs hc

theorem Stepped.refl (h : Inv s) : Stepped s meets s false := .of_same h rfl rfl

/-- A step after which the code has given up. -/
theorem Stepped.of_givenUp (h : Inv s') (hg : GivenUp s') (hne : s'.replState ≠ .connected) :
    Stepped s meets s' b := ⟨h, fun _ => hg, fun hc => absurd hc hne⟩

/-- A step after which an attempt is under way. -/
theorem Stepped.of_underWay (h : Inv s') (hway : UnderWay s') : Stepped s meets s' false where
  inv := h
  givenUp hg := by
    rcases hg with hb | ⟨-, hnot, -⟩
    · exact absurd hb (by simp)
    · exact absurd hway hnot
  master hc _ _ := by
    rcases hway with ht | ht
    · exact absurd hc (trying_ne_connected ht)
    · rw [ht] at hc
      exact absurd hc (by decide)

theorem GivenUp.ne_connected (h : GivenUp s) : s.replState ≠ .connected := by
  rcases h.1 with hs | hs <;> rw [hs] <;> decide

/-- The end of `replicationSetMaster` and of `replicationUnsetMaster`. -/
theorem stepped_restart {s₁ : State} (h : Inv s₁) (hd : Dead s₁)
    (hstate : s₁.replState = s.replState) {r : ReplState} (hr : r = .connect ∨ r = .none) :
    Stepped s meets { (cancelReplicationHandshake s₁).1 with replState := r } false := by
  have hstop := stopped_cancel h
  obtain ⟨hread, hwrite⟩ := hstop.inv.no_events hstop.notUnderWay
  have hdead : Dead (cancelReplicationHandshake s₁).1 := by
    unfold Dead
    rw [hstop.master, hstop.live]
    exact hd
  have hne : r ≠ .connected ∧ r ≠ .transfer ∧
      ¬ Trying { (cancelReplicationHandshake s₁).1 with replState := r } := by
    rcases hr with rfl | rfl
    · exact ⟨by decide, by decide, not_trying_connect rfl⟩
    · exact ⟨by decide, by decide, not_trying_none rfl⟩
  refine ⟨Inv.idle hread hwrite hne.2.2 hne.2.1 hstop.inv.apart (fun _ => hdead), ?_,
    fun hc => absurd hc hne.1⟩
  rintro (hb | ⟨hway, -, -⟩)
  · exact absurd hb (by simp)
  · have hway₁ : UnderWay s₁ := by
      unfold UnderWay Trying slaveIsInHandshakeState
      rw [hstate]
      exact hway
    exact ⟨hr, (cancel_gaveUp hway₁).2.2⟩

theorem stepped_set (s₀ : State) (hstate : s₀.replState = s.replState)
    (hs₀ : Inv s₀) {r : ReplState} (hr : r = .connect ∨ r = .none) :
    Stepped s meets
      { (cancelReplicationHandshake (replicationDiscardCachedMaster (freeMaster s₀))).1 with
        replState := r } false :=
  stepped_restart (inv_discard (inv_freeMaster hs₀)) (dead_discard (dead_freeMaster s₀))
    (((discard_fields _).1.trans (freeMaster_fields s₀).1).trans hstate) hr

/-- **SLAVEOF**. -/
theorem stepped_slaveof (h : Inv s) (host port : Bytes) :
    Stepped s meets (slaveofCommand s host port) false := by
  have hset : ∀ ip p, Stepped s meets (replicationSetMaster s ip p) false := fun ip p =>
    stepped_set (s := s) { s with masterhost := some ip, masterport := p } rfl
      (h.clients rfl rfl rfl rfl rfl rfl h.apart h.dead) (Or.inl rfl)
  have hunset : Stepped s meets (replicationUnsetMaster s) false := by
    unfold replicationUnsetMaster
    split
    · exact .refl h
    · exact stepped_set (s := s) { s with masterhost := .none } rfl
        (h.clients rfl rfl rfl rfl rfl rfl h.apart h.dead) (Or.inr rfl)
  unfold slaveofCommand
  split
  · exact .refl h
  · split
    · split
      · exact hunset
      · exact .refl h
    · split
      · exact .refl h
      · split
        · exact .refl h
        · exact hset _ _

/-- **`syncWithMaster`**. -/
theorem stepped_sync (env : SyncEnv) (h : Hand fd s) :
    Stepped s (Meets s (.sync fd env)) (syncWithMaster s fd env).1 (syncWithMaster s fd env).2 := by
  obtain ⟨hinv, hends⟩ := syncWithMaster_inv env h
  generalize syncWithMaster s fd env = r at hinv hends ⊢
  obtain ⟨s', b⟩ := r
  cases hends with
  | goesOn hway => exact .of_underWay hinv hway
  | gaveUp hg => exact .of_givenUp hinv hg hg.ne_connected
  | connected hc hcont =>
      refine ⟨hinv, ?_, fun _ hmeets _ => ?_⟩
      · rintro (hb | ⟨-, -, hne⟩)
        · exact absurd hb (by simp)
        · exact absurd hc hne
      · show s'.master ≠ .none
        rw [hcont.2]
        exact hmeets hcont.1

/-- A cancelled attempt. -/
theorem stepped_cancel (h : Inv s) (hway : UnderWay s) :
    Stepped s meets (cancelReplicationHandshake s).1 (cancelReplicationHandshake s).2 :=
  .of_givenUp (stopped_cancel h).inv (cancel_gaveUp hway).2 (cancel_gaveUp hway).2.ne_connected

/-- **`readSyncBulkPayload`**. -/
theorem stepped_bulk (h : Inv s) {payload : Payload}
    (hfits : (Step.bulk fd payload).fits s = true) :
    Stepped s (Meets s (.bulk fd payload)) (readSyncBulkPayload s payload).1
      (readSyncBulkPayload s payload).2 := by
  simp only [Step.fits, Bool.and_eq_true, decide_eq_true_eq] at hfits
  obtain ⟨hread, hfits⟩ := hfits
  have htr : s.replState = .transfer := by
    obtain ⟨-, ⟨hf, -⟩ | ⟨-, htr⟩⟩ := h.readable fd _ hread
    · exact absurd hf (by simp)
    · exact htr
  have hne : s.replState ≠ .connected := by
    rw [htr]
    decide
  cases payload with
  | more => exact .refl h
  | failed => exact stepped_cancel h (Or.inr htr)
  | done c =>
      have hdead : ∀ fd', s.writable fd' = .none := by
        intro fd'
        cases hw : s.writable fd' with
        | none => rfl
        | some f =>
            have hc := (h.writable fd' f hw).2.2
            rw [htr] at hc
            exact absurd hc (by decide)
      refine ⟨Inv.idle ?_ hdead (not_trying_connected rfl) ReplState.noConfusion ?_
        (fun hne => absurd rfl hne), ?_, fun _ hmeets _ => hmeets⟩
      · exact (h.only hne).readable_deleted
      · intro c' hc'
        have hc'' : s.cachedMaster = some c' := hc'
        have hlive := (h.apart c' hc'').2
        cases c with
        | none => exact ⟨by simp [readSyncBulkPayload, replicationCreateMasterClient], hlive⟩
        | some c =>
            have hcc : c' ≠ c := by
              rintro rfl
              exact absurd hfits (by simp [hlive])
            refine ⟨fun hm => hcc (Option.some.inj hm).symm, ?_⟩
            show Function.update s.live c true c' = true
            rw [Function.update_of_ne hcc]
            exact hlive
      · rintro (hb | ⟨-, -, hne⟩)
        · exact absurd hb (by simp [readSyncBulkPayload])
        · exact absurd rfl hne

/-- **The timeout of an attempt**. -/
theorem stepped_transferTimeout (h : Inv s) :
    Stepped s meets (cronTransferTimeout s).1 (cronTransferTimeout s).2 := by
  unfold cronTransferTimeout
  by_cases ht : s.masterhost.isSome ∧ Trying s
  · obtain ⟨hb, hg⟩ := cancel_gaveUp (Or.inl ht.2)
    have hnot : ¬ ((cancelReplicationHandshake s).1.masterhost.isSome ∧
        (cancelReplicationHandshake s).1.replState = .transfer) := by
      rintro ⟨-, htr⟩
      rcases hg.1 with hs | hs <;> rw [hs] at htr <;> exact absurd htr (by decide)
    have ht' : s.masterhost.isSome ∧
        (s.replState = .connecting ∨ slaveIsInHandshakeState s) := ht
    simp only [if_pos ht', if_neg hnot, Bool.or_false]
    exact stepped_cancel h (Or.inl ht.2)
  · have ht' : ¬ (s.masterhost.isSome ∧
        (s.replState = .connecting ∨ slaveIsInHandshakeState s)) := ht
    simp only [if_neg ht', Bool.false_or]
    split
    · rename_i htr
      exact stepped_cancel h (Or.inr htr.2)
    · exact .refl h

theorem stepped_freeMaster (h : Inv s) : Stepped s meets (freeMaster s) false :=
  .of_same (inv_freeMaster h) (freeMaster_fields s).1 (freeMaster_fields s).2.2.2.2.2.2

/-- **A new attempt**. -/
theorem stepped_connect (h : Inv s) (fd : Int) (eventOk : Bool) :
    Stepped s meets (cronConnect s fd eventOk) false := by
  unfold cronConnect
  split
  · rename_i hc
    unfold connectWithMaster
    split
    · exact .refl h
    · split
      · exact .refl h
      · rename_i hfd _
        obtain ⟨hread, hwrite⟩ := h.no_events (not_or.mpr ⟨not_trying_connect hc, by
          rw [hc]
          decide⟩)
        refine .of_underWay ⟨fun _ => hfd, ?_, ?_, fun ht => ReplState.noConfusion ht, h.apart,
          fun _ => h.dead (by
            rw [hc]
            decide)⟩ (Or.inl (Or.inl rfl))
        · intro fd' f hf
          have hf' : Function.update s.readable fd (some .syncWithMaster) fd' = some f := hf
          by_cases hfd' : fd' = fd
          · subst hfd'
            rw [Function.update_self] at hf'
            exact ⟨rfl, Or.inl ⟨(Option.some.inj hf').symm, Or.inl rfl⟩⟩
          · rw [Function.update_of_ne hfd', hread] at hf'
            exact absurd hf' (by simp)
        · intro fd' f hf
          have hf' : Function.update s.writable fd (some .syncWithMaster) fd' = some f := hf
          by_cases hfd' : fd' = fd
          · subst hfd'
            rw [Function.update_self] at hf'
            exact ⟨rfl, (Option.some.inj hf').symm, rfl⟩
          · rw [Function.update_of_ne hfd', hwrite] at hf'
            exact absurd hf' (by simp)
  · exact .refl h

/-- **Only a master that is connected is cached**. -/
theorem stepped_masterCached (h : Inv s) (hfits : Step.masterCached.fits s = true)
    (hs : replicationCacheMaster s = some s') : Stepped s meets s' false := by
  simp only [Step.fits, Option.any_eq_true] at hfits
  obtain ⟨c, hc, hlive⟩ := hfits
  have hconn : s.replState = .connected := by
    by_contra hne
    rw [h.dead hne c hc] at hlive
    exact absurd hlive (by simp)
  have hidle : ¬ UnderWay s := not_or.mpr ⟨not_trying_connected hconn, by
    rw [hconn]
    decide⟩
  obtain ⟨hread, hwrite⟩ := h.no_events hidle
  unfold replicationCacheMaster at hs
  split at hs
  · cases hs
    refine ⟨Inv.idle hread hwrite (not_trying_connect rfl) ReplState.noConfusion ?_ ?_, ?_,
      fun hc => ReplState.noConfusion hc⟩
    · intro c' hc'
      obtain rfl : c = c' := Option.some.inj (hc.symm.trans hc')
      exact ⟨by simp [replicationHandleMasterDisconnection], hlive⟩
    · intro _ c' hc'
      exact absurd hc' (by simp [replicationHandleMasterDisconnection])
    · rintro (hb | ⟨hway, -, -⟩)
      · exact absurd hb (by simp)
      · exact absurd hway hidle
  · exact absurd hs (by simp)

/-- **Every step** keeps the invariant, and ends an attempt as it should. -/
theorem stepped_step (h : Inv s) {st : Step} (hs : step s st = some (s', b)) :
    Stepped s (Meets s st) s' b := by
  unfold step at hs
  by_cases hfits : st.fits s = true
  · rw [if_pos hfits] at hs
    cases st with
    | slaveof host port =>
        cases hs
        exact stepped_slaveof h host port
    | sync fd env =>
        have hr : syncWithMaster s fd env = (s', b) := Option.some.inj hs
        have hfd : s.readable fd = some .syncWithMaster ∨ s.writable fd = some .syncWithMaster := by
          simpa [Step.fits] using hfits
        have hstep := stepped_sync env (h.hand hfd)
        rw [hr] at hstep
        exact hstep
    | bulk fd payload =>
        have hr : readSyncBulkPayload s payload = (s', b) := Option.some.inj hs
        have hstep := stepped_bulk h hfits
        rw [hr] at hstep
        exact hstep
    | transferTimeout =>
        have hr : cronTransferTimeout s = (s', b) := Option.some.inj hs
        have hstep : Stepped s (Meets s .transferTimeout) _ _ := stepped_transferTimeout h
        rw [hr] at hstep
        exact hstep
    | masterTimeout =>
        cases hs
        unfold cronMasterTimeout
        split
        · exact stepped_freeMaster h
        · exact .refl h
    | connect fd eventOk =>
        cases hs
        exact stepped_connect h fd eventOk
    | masterLost =>
        cases hs
        exact stepped_freeMaster h
    | masterCached =>
        cases hc : replicationCacheMaster s with
        | none =>
            simp only [hc] at hs
            exact absurd hs (by simp)
        | some s₁ =>
            simp only [hc] at hs
            cases hs
            exact stepped_masterCached h hfits hc
  · rw [if_neg hfits] at hs
    exact absurd hs (by simp)

/-- A step that resurrects a master that is not there, or has none after a transfer. -/
theorem connected_of_not_meets {st : Step} (hs : step s st = some (s', b)) (hm : ¬ Meets s st) :
    s'.replState = .connected ∧ s'.master = .none := by
  unfold step at hs
  by_cases hfits : st.fits s = true
  · rw [if_pos hfits] at hs
    cases st with
    | sync fd env =>
        simp only [Meets, Classical.not_imp, not_not] at hm
        simp only [syncWithMaster_continue hm.1] at hs
        cases hs
        exact ⟨rfl, hm.2⟩
    | bulk fd payload =>
        cases payload with
        | done c =>
            cases hs
            exact ⟨rfl, not_not.mp hm⟩
        | more => exact absurd trivial hm
        | failed => exact absurd trivial hm
    | _ => exact absurd trivial hm
  · rw [if_neg hfits] at hs
    exact absurd hs (by simp)

/-! ## Every run -/

theorem inv_initial (h : Initial s) : Inv s := by
  refine Inv.idle h.readable h.writable (not_trying_none h.replState) ?_ ?_ ?_
  · rw [h.replState]
    decide
  · intro c hc
    rw [h.cachedMaster] at hc
    exact absurd hc (by simp)
  · intro _ c hc
    rw [h.master] at hc
    exact absurd hc (by simp)

theorem run_append_singleton (s : State) (sts : List Step) (st : Step) :
    run s (sts ++ [st]) = (run s sts).bind (fun s' => (step s' st).map Prod.fst) := by
  induction sts generalizing s with
  | nil =>
      show (step s st).bind (fun r => run r.1 []) = (step s st).map Prod.fst
      cases step s st <;> rfl
  | cons st' sts ih =>
      show (step s st').bind (fun r => run r.1 (sts ++ [st])) =
        ((step s st').bind (fun r => run r.1 sts)).bind _
      cases step s st' with
      | none => rfl
      | some r => exact ih r.1

/-- The last step of a run. -/
theorem run_append_singleton_some {s₀ : State} {sts : List Step} {st : Step}
    (h : run s₀ (sts ++ [st]) = some s') :
    ∃ s b, run s₀ sts = some s ∧ step s st = some (s', b) := by
  rw [run_append_singleton, Option.bind_eq_some_iff] at h
  obtain ⟨s, hs, h⟩ := h
  obtain ⟨⟨s'', b⟩, hst, rfl⟩ := Option.map_eq_some_iff.mp h
  exact ⟨s, b, hs, hst⟩

variable {s₀ : State} {sts : List Step}

/-- **Every reachable state** has the invariant. -/
theorem run_inv (h₀ : Initial s₀) (hrun : run s₀ sts = some s) : Inv s := by
  induction sts using List.reverseRecOn generalizing s with
  | nil =>
      cases hrun
      exact inv_initial h₀
  | append_singleton sts st ih =>
      obtain ⟨s', b, hs', hst⟩ := run_append_singleton_some hrun
      exact (stepped_step (ih hs') hst).inv

/-- A prefix of a run is a run. -/
theorem run_prefix {pre : List Step} (hpre : pre <+: sts) (hrun : run s₀ sts = some s) :
    ∃ s', run s₀ pre = some s' := by
  induction sts using List.reverseRecOn generalizing s with
  | nil =>
      obtain rfl : pre = [] := List.prefix_nil.mp hpre
      exact ⟨_, hrun⟩
  | append_singleton sts st ih =>
      obtain ⟨s', b, hs', -⟩ := run_append_singleton_some hrun
      rcases List.prefix_concat_iff.mp hpre with rfl | hpre
      · exact ⟨s, hrun⟩
      · exact ih hpre hs'

/-- What is asked of every state. -/
structure Safe (s : State) : Prop where
  connected : s.replState = .connected → s.master ≠ .none
  transfer : s.replState = .transfer →
    s.replTransferFd ≠ -1 ∧ s.replTransferTmpfile ≠ .none ∧ s.replTransferS ≠ -1
  apart : ∀ c, ¬ (s.master = some c ∧ s.cachedMaster = some c)
  cancel : ¬ UnderWay s → cancelReplicationHandshake s = (s, false)

theorem Inv.safe (h : Inv s) (hc : s.replState = .connected → s.master ≠ .none) : Safe s where
  connected := hc
  transfer ht := ⟨(h.transfer ht).1, (h.transfer ht).2, h.socket (Or.inr ht)⟩
  apart c hb := (h.apart c hb.2).1 hb.1
  cancel hidle := cancel_idle (not_or.mp hidle).1 (not_or.mp hidle).2

/-- **Replica handshake safety** of a run: every state is safe, and every attempt that the
code gives up, or that ends with the master not connected, ends as it should. -/
structure HandshakeSafe (s₀ : State) (sts : List Step) : Prop where
  states : ∀ pre s, pre <+: sts → run s₀ pre = some s → Safe s
  ends : ∀ pre st s s' gaveUp, pre ++ [st] <+: sts → run s₀ pre = some s →
    step s st = some (s', gaveUp) →
    (gaveUp = true ∨ UnderWay s ∧ ¬ UnderWay s' ∧ s'.replState ≠ .connected) → GivenUp s'

/-- While every step meets the condition a connected master is there. -/
theorem run_connected (h₀ : Initial s₀) (hrun : run s₀ sts = some s)
    (hmeets : ∀ pre st s, pre ++ [st] <+: sts → run s₀ pre = some s → Meets s st)
    (hc : s.replState = .connected) : s.master ≠ .none := by
  induction sts using List.reverseRecOn generalizing s with
  | nil =>
      cases hrun
      rw [h₀.replState] at hc
      exact absurd hc (by decide)
  | append_singleton sts st ih =>
      obtain ⟨s', b, hs', hst⟩ := run_append_singleton_some hrun
      have hstepped := stepped_step (run_inv h₀ hs') hst
      refine hstepped.master hc (hmeets sts st s' (List.prefix_refl _) hs') ?_
      refine ih hs' (fun pre st' s'' hpre => hmeets pre st' s'' ?_)
      exact hpre.trans (List.prefix_append _ _)

/-- A server that has just started. -/
def startState : State where
  masterhost := .none
  masterport := 6379
  masterauth := .none
  slaveAnnounceIp := .none
  clusterEnabled := false
  master := .none
  cachedMaster := .none
  live _ := false
  replState := .none
  replTransferS := 0
  replTransferFd := 0
  replTransferTmpfile := .none
  replMasterRunid := []
  replMasterInitialOffset := 0
  readable _ := .none
  writable _ := .none

theorem initial_startState : Initial startState := ⟨rfl, rfl, rfl, rfl, fun _ => rfl, fun _ => rfl⟩

/-- The socket is ready, and the master has sent a line; nothing fails. -/
def replied (line : String) : Step := .sync 7 {
  sockerr := false
  line := .read (cstr line)
  writeOk := true
  syncOk := true
  dfd := 8
  tmpfile := cstr "temp-0.0.rdb"
  eventOk := true }

/-- The handshake of a new replica, up to the reply to PSYNC. -/
def handshakeTo (reply : String) : List Step :=
  [.slaveof (cstr "localhost") (cstr "6379"), .connect 7 true, replied "", replied "+PONG",
    replied "+OK", replied "+OK", replied reply]

/-- A step that could not meet the condition would read a `+CONTINUE` or end a transfer. -/
def Step.harmless : Step → Bool
  | .sync _ env => !startsWith (sendSynchronousRead env.line) "+CONTINUE"
  | .bulk _ _ => false
  | _ => true

theorem meets_of_harmless {st : Step} (h : st.harmless = true) : Meets s st := by
  cases st with
  | sync fd env =>
      intro hcont
      simp only [Step.harmless, hcont.2.2] at h
      exact absurd h (by simp)
  | bulk fd payload => exact absurd h (by simp [Step.harmless])
  | _ => trivial

end Handshake

end RedisCore
