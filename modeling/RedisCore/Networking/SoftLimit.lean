/-
# `RedisCore.Networking.SoftLimit` — for how long a client has had too much output

The time at which a client was found over its soft limit is kept with the client.  It is
set and cleared by `checkClientOutputBufferLimits`, which runs when something is put on
the reply list and not when `writeToClient` takes something off.  So the time outlives an
excess that the socket has drained, and the next excess is held to have begun then.

Where no excess begins behind an earlier time, a client is only reported after it has been
over the limit for longer than the limit allows.
-/
import RedisCore.Networking.OutputAccounts
import RedisCore.Lib.Sampled

namespace RedisCore

namespace OutputMemory

open Output Clients Sampled

variable {mem : Allocator} {limits : ClientType → ClientBufferLimitsConfig} {c c' c₁ c₂ : Client}

/-- The usage is at or above the soft limit of the client. -/
def OverSoft (limits : ClientType → ClientBufferLimitsConfig) (c : Client) : Prop :=
  (limitsOf limits c).softLimitBytes ≠ 0 ∧
    (limitsOf limits c).softLimitBytes ≤ getClientOutputBufferMemoryUsage c

/-- One proper step of a client. -/
def Step (mem : Allocator) (limits : ClientType → ClientBufferLimitsConfig) (c c' : Client) : Prop :=
  ∃ a, Proper c a ∧ act mem limits c a = .ok (some c')

/-- The client is reported in the step because of the soft limit. -/
def SoftReport (c c' : Client) : Prop :=
  ∃ r, c'.reports = c.reports ++ [r] ∧ r.soft = true

/-- At every moment of an interval longer than the soft limit allows, up to now, the usage
has been at or above the limit. -/
def ContinuousExcess (limits : ClientType → ClientBufferLimitsConfig) (now : Client)
    (past : List Client) : Prop :=
  ∃ first, HeldFrom (OverSoft limits) (now :: past) first ∧
    (limitsOf limits now).softLimitSeconds < now.unixtime - first.unixtime

/-! ## What leaves the clock alone -/

/-- The clock, the time that is kept and the log are as they were. -/
structure SameClock (c c' : Client) : Prop where
  unixtime : c'.unixtime = c.unixtime
  time : c'.obufSoftLimitReachedTime = c.obufSoftLimitReachedTime
  reports : c'.reports = c.reports

/-- What holds of the result, if there is one. -/
def Ends {α : Type} (P : α → Prop) (r : Except Fault α) : Prop := ∀ a, r = .ok a → P a

theorem Ends.bind {α β : Type} {P : α → Prop} {Q : β → Prop} {r : Except Fault α}
    {f : α → Except Fault β} (h : Ends P r) (hf : ∀ a, P a → Ends Q (f a)) : Ends Q (r.bind f) := by
  intro b hb
  cases r with
  | error e => cases hb
  | ok a => exact hf a (h a rfl) b hb

theorem ends_ok {α : Type} {P : α → Prop} {a : α} (h : P a) : Ends P (.ok a : Except Fault α) := by
  rintro b ⟨⟩
  exact h

theorem ends_error {α : Type} {P : α → Prop} {e : Fault} : Ends P (.error e : Except Fault α) :=
  fun _ h => nomatch h

theorem SameClock.refl (c : Client) : SameClock c c := ⟨rfl, rfl, rfl⟩

theorem SameClock.trans (h : SameClock c c₁) (h₁ : SameClock c₁ c₂) : SameClock c c₂ :=
  ⟨h₁.unixtime.trans h.unixtime, h₁.time.trans h.time, h₁.reports.trans h.reports⟩

/-- A step of its own before. -/
theorem SameClock.ends {r : Except Fault Client} (h : SameClock c c₁)
    (hr : Ends (SameClock c₁) r) : Ends (SameClock c) r :=
  fun a ha => h.trans (hr a ha)

theorem charge_clock (c : Client) (n : Nat) : Ends (SameClock c) (c.charge n) := by
  unfold Client.charge
  split
  · exact ends_ok ⟨rfl, rfl, rfl⟩
  · exact ends_error

theorem discharge_clock (c : Client) (n : Nat) : Ends (SameClock c) (c.discharge n) := by
  unfold Client.discharge
  split
  · exact ends_ok ⟨rfl, rfl, rfl⟩
  · exact ends_error

theorem onOut_clock (c : Client) (r : Option Out) : Ends (SameClock c) (c.onOut r) := by
  cases r with
  | none => exact ends_error
  | some s => exact ends_ok ⟨rfl, rfl, rfl⟩

/-- One after the other. -/
theorem clock_bind {r : Except Fault Client} {f : Client → Except Fault Client}
    (h : Ends (SameClock c) r) (hf : ∀ c₁, Ends (SameClock c₁) (f c₁)) :
    Ends (SameClock c) (r.bind f) :=
  h.bind (fun c₁ h₁ c₂ hc₂ => h₁.trans (hf c₁ c₂ hc₂))

theorem sdscatlen_clock (c : Client) (o : ObjId) (b : Bytes) :
    Ends (SameClock c) (c.sdscatlen mem o b) := by
  unfold Client.sdscatlen
  split
  · exact ends_ok ⟨rfl, rfl, rfl⟩
  · exact ends_error

theorem appendToLast_clock (c : Client) (ln : Node) (b : Bytes) :
    Ends (SameClock c) (appendToLast mem c ln b) := by
  refine clock_bind (discharge_clock c _) (fun c => ?_)
  split
  · exact ends_error
  · next s tail _ =>
      have hout : SameClock c { c with out := s } := ⟨rfl, rfl, rfl⟩
      exact clock_bind (hout.ends (sdscatlen_clock _ _ _)) (fun c => charge_clock c _)

theorem addShared_clock (c : Client) (o : ObjId) : Ends (SameClock c) (addShared o c) :=
  clock_bind (onOut_clock c _) (fun c => charge_clock c _)

theorem addNew_clock (c : Client) (r : Robj) : Ends (SameClock c) (addNew mem r c) := by
  unfold addNew
  obtain ⟨new, hnew⟩ : ∃ new, new = c.createObject mem r := ⟨_, rfl⟩
  have hsame : SameClock c { new.1 with out := listAddNodeTail new.1.out new.2 } := by
    rw [hnew]
    exact ⟨rfl, rfl, rfl⟩
  rw [← hnew]
  exact hsame.ends (charge_clock _ _)

theorem appendOrNew_clock {newNode : Client → Except Fault Client}
    (hnew : Ends (SameClock c) (newNode c)) (b : Bytes) :
    Ends (SameClock c) (appendOrNew mem c b newNode) := by
  unfold appendOrNew
  split
  · exact hnew
  · split
    · exact ends_error
    · split
      · exact appendToLast_clock _ _ _
      · exact hnew
    · exact hnew

theorem glueNext_clock (c : Client) (before after : List Node) (ln : Node) (cell : Cell)
    (text : Bytes) : Ends (SameClock c) (glueNext mem c before ln cell text after) := by
  unfold glueNext
  split
  · exact ends_ok (SameClock.refl c)
  · split
    · exact ends_error
    · exact ends_ok (SameClock.refl c)
    · split
      · exact ends_error
      · refine clock_bind (discharge_clock c _) (fun c => clock_bind (discharge_clock c _)
          (fun c => ?_))
        have hset : ∀ t, SameClock c (setString mem c ln.value cell t) := fun _ => ⟨rfl, rfl, rfl⟩
        exact clock_bind ((hset _).ends (charge_clock _ _)) (fun c => onOut_clock c _)

theorem populateLength_clock (c : Client) (id : Nat) (length : Int) :
    Ends (SameClock c) (populateLength mem c id length) := by
  unfold populateLength
  split
  · exact ends_error
  · split
    · exact ends_error
    · next cell _ =>
        have hset : ∀ o, SameClock c (setString mem c o cell (mbulkLen length)) :=
          fun _ => ⟨rfl, rfl, rfl⟩
        exact clock_bind ((hset _).ends (charge_clock _ _)) (fun c => glueNext_clock c _ _ _ _ _)

theorem deleteHead_clock (c : Client) : Ends (SameClock c) (deleteHead c) := by
  unfold deleteHead
  split
  · exact ends_error
  · exact clock_bind (onOut_clock c _) (fun c => discharge_clock c _)

theorem deleteEmptyHeads_clock : ∀ (l : List Node) (c : Client),
    Ends (SameClock c) (deleteEmptyHeads l c) := by
  intro l
  induction l with
  | nil => exact fun c => ends_ok (SameClock.refl c)
  | cons ln rest ih =>
      intro c
      unfold deleteEmptyHeads
      split
      · exact ends_error
      · split
        · exact clock_bind (deleteHead_clock c) ih
        · exact ends_ok (SameClock.refl c)

theorem writeHead_clock (c : Client) (b : Bytes) (n : Nat) :
    Ends (SameClock c) (writeHead c b n) := by
  unfold writeHead
  dsimp only
  split
  · intro c₁ hc₁
    obtain ⟨c₂, hc₂⟩ : ∃ c₂ : Client, c₂ = { c with out := { c.out with
      socket := c.out.socket ++ (b.drop c.out.sentlen).take n, sentlen := c.out.sentlen + n } } :=
      ⟨_, rfl⟩
    rw [← hc₂] at hc₁
    cases hdel : deleteHead c₂ with
    | error e => rw [hdel] at hc₁; cases hc₁
    | ok c₃ =>
        have h₃ := deleteHead_clock c₂ c₃ hdel
        rw [hdel] at hc₁
        cases hc₁
        rw [hc₂] at h₃
        exact ⟨h₃.unixtime, h₃.time, h₃.reports⟩
  · exact ends_ok ⟨rfl, rfl, rfl⟩

/-- `writeToClient` does not look at the limits. -/
theorem writeLoop_clock : ∀ (tries : List WriteTry) (totwritten : Nat) (c : Client),
    Ends (SameClock c) (writeLoop tries totwritten c) := by
  intro tries
  induction tries with
  | nil =>
      intro tot c
      unfold writeLoop
      refine clock_bind ?_ (fun c => ends_ok (SameClock.refl c))
      split
      · exact deleteEmptyHeads_clock _ c
      · exact ends_ok (SameClock.refl c)
  | cons t tries ih =>
      intro tot c
      unfold writeLoop
      refine clock_bind ?_ (fun c => ?_)
      · split
        · exact deleteEmptyHeads_clock _ c
        · exact ends_ok (SameClock.refl c)
      · dsimp only
        split
        · exact ends_ok (SameClock.refl c)
        · split
          · exact ends_error
          · exact ends_ok (SameClock.refl c)
          · split
            · exact ends_ok (SameClock.refl c)
            · refine clock_bind (writeHead_clock c _ _) (fun c => ?_)
              split
              · exact ends_ok (SameClock.refl c)
              · exact ih _ c
        · split
          · exact ends_ok (SameClock.refl c)
          · split
            · exact ends_ok (SameClock.refl c)
            · split
              · exact ends_ok ⟨rfl, rfl, rfl⟩
              · have hout : ∀ s, SameClock c { c with out := s } := fun _ => ⟨rfl, rfl, rfl⟩
                exact (hout _).ends (ih _ _)

theorem writeToClient_clock (c : Client) (tries : List WriteTry) :
    Ends (fun r => ∀ c', r = some c' → SameClock c c') (writeToClient c tries) := by
  intro r hr c' hc'
  unfold writeToClient at hr
  cases hloop : writeLoop tries 0 c with
  | error e => rw [hloop] at hr; cases hr
  | ok c₁ =>
      have h₁ := writeLoop_clock tries 0 c c₁ hloop
      rw [hloop] at hr
      cases hr
      dsimp only at hc'
      split at hc'
      · cases hc'
        exact h₁
      · split at hc'
        · cases hc'
        · cases hc'
          exact ⟨h₁.unixtime, h₁.time, h₁.reports⟩

/-! ## What the check does with them -/

/-- A step keeps the time as it should, and reports a client because of the soft limit
only where the time it found is old enough. -/
structure Checked (limits : ClientType → ClientBufferLimitsConfig) (c c' : Client) : Prop where
  keeps : Keeps (OverSoft limits) Client.unixtime Client.obufSoftLimitReachedTime c c'
  report : SoftReport c c' → OverSoft limits c' ∧ c.obufSoftLimitReachedTime ≠ 0 ∧
    c'.obufSoftLimitReachedTime = c.obufSoftLimitReachedTime ∧
    (limitsOf limits c').softLimitSeconds < c'.unixtime - c.obufSoftLimitReachedTime

theorem not_softReport (h : c'.reports = c.reports) : ¬ SoftReport c c' := by
  rintro ⟨r, hr, _⟩
  rw [h] at hr
  exact absurd (congrArg List.length hr) (by simp)

theorem SameClock.checked (h : SameClock c c') : Checked limits c c' :=
  ⟨Or.inl h.time, fun hr => absurd hr (not_softReport h.reports)⟩

/-- Being reported does not change what the limits are compared with. -/
theorem freeClientAsync_limits (c : Client) (reports : List Report) :
    limitsOf limits { freeClientAsync c with reports := reports } = limitsOf limits c ∧
      getClientOutputBufferMemoryUsage { freeClientAsync c with reports := reports }
        = getClientOutputBufferMemoryUsage c ∧
      (freeClientAsync c).unixtime = c.unixtime ∧
      (freeClientAsync c).obufSoftLimitReachedTime = c.obufSoftLimitReachedTime := by
  unfold freeClientAsync
  split
  · exact ⟨rfl, rfl, rfl, rfl⟩
  · exact ⟨rfl, rfl, rfl, rfl⟩

/-- The outcomes of `checkClientOutputBufferLimits`: the limit is newly reached, it was
reached before, or it is not reached. -/
theorem check_cases (limits : ClientType → ClientBufferLimitsConfig) (c : Client) :
    ∃ hard, (OverSoft limits c ∧ c.obufSoftLimitReachedTime = 0 ∧
        checkClientOutputBufferLimits limits c
          = ({ c with obufSoftLimitReachedTime := c.unixtime }, false, hard)) ∨
      (OverSoft limits c ∧ c.obufSoftLimitReachedTime ≠ 0 ∧
        checkClientOutputBufferLimits limits c = (c, decide (¬ c.unixtime
          - c.obufSoftLimitReachedTime ≤ (limitsOf limits c).softLimitSeconds), hard)) ∨
      checkClientOutputBufferLimits limits c
        = ({ c with obufSoftLimitReachedTime := 0 }, false, hard) := by
  refine ⟨decide ((limitsOf limits c).hardLimitBytes ≠ 0 ∧
    (limitsOf limits c).hardLimitBytes ≤ getClientOutputBufferMemoryUsage c), ?_⟩
  unfold checkClientOutputBufferLimits
  dsimp only
  by_cases hover : (limitsOf limits c).softLimitBytes ≠ 0 ∧
      (limitsOf limits c).softLimitBytes ≤ getClientOutputBufferMemoryUsage c
  · rw [if_pos hover]
    by_cases hzero : c.obufSoftLimitReachedTime = 0
    · rw [if_pos hzero]
      exact Or.inl ⟨hover, hzero, rfl⟩
    · rw [if_neg hzero]
      exact Or.inr (Or.inl ⟨hover, hzero, rfl⟩)
  · rw [if_neg hover]
    exact Or.inr (Or.inr rfl)

/-- What becomes of the client once the check has come to `c₂`. -/
theorem reported_checked (hkeeps : Keeps (OverSoft limits) Client.unixtime
      Client.obufSoftLimitReachedTime c c₂) (hreports : c₂.reports = c.reports) {soft hard : Bool}
    (hsoft : soft = true → OverSoft limits c₂ ∧ c.obufSoftLimitReachedTime ≠ 0 ∧
      c₂.obufSoftLimitReachedTime = c.obufSoftLimitReachedTime ∧
      (limitsOf limits c₂).softLimitSeconds < c₂.unixtime - c.obufSoftLimitReachedTime) :
    Ends (Checked limits c) (if soft || hard then
      (.ok { freeClientAsync c₂ with reports := c₂.reports ++ [⟨c₂.unixtime, soft, hard⟩] } :
        Except Fault Client) else .ok c₂) := by
  split
  · obtain ⟨hlimits, husage, htime, hstamp⟩ :=
      @freeClientAsync_limits limits c₂ (c₂.reports ++ [⟨c₂.unixtime, soft, hard⟩])
    have hover : OverSoft limits { freeClientAsync c₂ with
        reports := c₂.reports ++ [⟨c₂.unixtime, soft, hard⟩] } ↔ OverSoft limits c₂ := by
      unfold OverSoft
      rw [hlimits, husage]
    refine ends_ok ⟨?_, ?_⟩
    · rcases hkeeps with h | h | ⟨h, hP⟩
      · exact Or.inl (hstamp.trans h)
      · exact Or.inr (Or.inl (hstamp.trans h))
      · exact Or.inr (Or.inr ⟨hstamp.trans (h.trans htime.symm), hover.mpr hP⟩)
    · rintro ⟨r, hr, hrsoft⟩
      have hr' : c₂.reports ++ [⟨c₂.unixtime, soft, hard⟩] = c.reports ++ [r] := hr
      rw [hreports] at hr'
      cases List.append_cancel_left hr'
      obtain ⟨hP, hne, hsame, hlong⟩ := hsoft hrsoft
      refine ⟨hover.mpr hP, hne, hstamp.trans hsame, ?_⟩
      rw [hlimits]
      exact htime ▸ hlong
  · exact ends_ok ⟨hkeeps, fun hr => absurd hr (not_softReport hreports)⟩

/-- **`asyncCloseClientOnOutputBufferLimitReached`** -/
theorem asyncClose_checked (h : SameClock c c₁) :
    Ends (Checked limits c) (asyncCloseClientOnOutputBufferLimitReached limits c₁) := by
  unfold asyncCloseClientOnOutputBufferLimitReached
  split
  · split
    · exact ends_ok h.checked
    · obtain ⟨hard, ⟨hover, hzero, hcheck⟩ | ⟨hover, hne, hcheck⟩ | hcheck⟩ := check_cases limits c₁
      · rw [hcheck]
        exact @reported_checked limits c { c₁ with obufSoftLimitReachedTime := c₁.unixtime }
          (Or.inr (Or.inr ⟨rfl, hover⟩)) h.reports false hard (by simp)
      · rw [hcheck]
        refine reported_checked (Or.inl h.time) h.reports (fun hlong => ⟨hover, ?_, h.time, ?_⟩)
        · rw [← h.time]
          exact hne
        · rw [← h.time]
          exact not_le.mp (of_decide_eq_true hlong)
      · rw [hcheck]
        exact @reported_checked limits c { c₁ with obufSoftLimitReachedTime := 0 }
          (Or.inr (Or.inl rfl)) h.reports false hard (by simp)
  · exact ends_error

theorem addToList_checked (c : Client) (b : Bytes) {newNode : Client → Except Fault Client}
    (hnew : Ends (SameClock c) (newNode c)) :
    Ends (Checked limits c) (addToList mem limits c b newNode) := by
  unfold addToList
  split
  · exact ends_ok (SameClock.refl c).checked
  · exact (appendOrNew_clock hnew b).bind (fun _ h => asyncClose_checked h)

/-- **Every step** keeps the time as it should, the clock being set apart. -/
theorem act_checked {a : Action} (heq : act mem limits c a = .ok (some c')) :
    Checked limits c c' := by
  have hsome : ∀ {r : Except Fault Client}, Ends (Checked limits c) r →
      r.map some = .ok (some c') → Checked limits c c' := by
    intro r hr hmap
    cases r with
    | error e => cases hmap
    | ok c₁ =>
        cases hmap
        exact hr c' rfl
  have hclock : ∀ {r : Except Fault Client}, Ends (SameClock c) r →
      Ends (Checked limits c) r := fun hr c₁ h₁ => (hr c₁ h₁).checked
  cases a with
  | addReplyToBuffer b =>
      cases heq
      exact SameClock.checked ⟨rfl, rfl, rfl⟩
  | addReplyObjectToList o =>
      refine hsome ?_ heq
      unfold addReplyObjectToList
      split
      · split
        · exact ends_error
        · exact addToList_checked c _ (addShared_clock c o)
      · exact ends_error
  | addReplySdsToList b => exact hsome (addToList_checked c b (addNew_clock c _)) heq
  | addReplyStringToList b => exact hsome (addToList_checked c b (addNew_clock c _)) heq
  | addDeferredMultiBulkLength =>
      cases heq
      exact SameClock.checked ⟨rfl, rfl, rfl⟩
  | setDeferredMultiBulkLength node length =>
      refine hsome ?_ heq
      cases node with
      | none => exact ends_ok (SameClock.refl c).checked
      | some id => exact (populateLength_clock c id length).bind (fun _ h => asyncClose_checked h)
  | writeToClient tries => exact (writeToClient_clock c tries _ heq c' rfl).checked
  | createObject r =>
      cases heq
      exact SameClock.checked ⟨rfl, rfl, rfl⟩
  | incrRefCount o => exact hsome (hclock (onOut_clock c _)) heq
  | decrRefCount o => exact hsome (hclock (onOut_clock c _)) heq
  | setFlags flags pubsub =>
      cases heq
      exact SameClock.checked ⟨rfl, rfl, rfl⟩
  | setTime unixtime =>
      cases heq
      exact ⟨Or.inl rfl, fun hr => absurd hr (not_softReport rfl)⟩

/-! ## Runs -/

/-- In the step the usage does not come to the soft limit behind an earlier time that is
still kept. -/
def NoStaleStart (limits : ClientType → ClientBufferLimitsConfig) : Client → Client → Prop :=
  Steady (OverSoft limits) Client.unixtime Client.obufSoftLimitReachedTime

/-- **The soft limit means continuous excess** in every run in which no excess begins
behind an earlier time. -/
theorem soft_report_continuous (mem : Allocator) (limits : ClientType → ClientBufferLimitsConfig)
    (now before : Client) (past : List Client)
    (hrun : History (fun c c' => Step mem limits c c' ∧ NoStaleStart limits c c') Connected
      (now :: before :: past)) (hreport : SoftReport before now) :
    ContinuousExcess limits now (before :: past) := by
  have hchecked : ∀ c c', Step mem limits c c' → Checked limits c c' :=
    fun c c' ⟨_, _, heq⟩ => act_checked heq
  have hstep : Step mem limits before now := by
    cases hrun with
    | next _ hstep => exact hstep.1
  obtain ⟨hover, hne, hsame, hlong⟩ := (hchecked before now hstep).report hreport
  obtain ⟨first, hheld, htime⟩ := held_since (fun c c' h => (hchecked c c' h.1).keeps)
    (fun _ _ h => h.2) (fun _ h => h.obufSoftLimitReachedTime) hrun now _ rfl
    (by rw [hsame]; exact hne) hover
  refine ⟨first, hheld, ?_⟩
  rw [htime, hsame]
  exact hlong

/-- A soft limit of 44 bytes for a minute. -/
def limited : ClientType → ClientBufferLimitsConfig := fun _ => ⟨0, 44, 60⟩

instance (limits : ClientType → ClientBufferLimitsConfig) (c : Client) :
    Decidable (OverSoft limits c) :=
  inferInstanceAs (Decidable (_ ∧ _))

instance (s : Out) (id : Nat) : Decidable (OpenNode s id) :=
  inferInstanceAs (Decidable (_ ∈ _))

instance (s : Out) : Decidable (AllSet s) :=
  inferInstanceAs (Decidable (∀ c ∈ chunks s, _))

instance (limits : ClientType → ClientBufferLimitsConfig) (c c' : Client) :
    Decidable (NoStaleStart limits c c') :=
  inferInstanceAs (Decidable (_ → _ ∨ _ ∨ _))

/-- An empty multibulk reply takes the usage over the limit and is sent; the next one, 99
seconds later, has the client reported. -/
theorem drained_client_reported : ¬ ∀ (mem : Allocator)
    (limits : ClientType → ClientBufferLimitsConfig) (now before : Client) (past : List Client),
    History (Step mem limits) Connected (now :: before :: past) → SoftReport before now →
      ContinuousExcess limits now (before :: past) := by
  intro hall
  have hrun : endsIn (fun c₁ => OpenNode c₁.out 0 &&
      endsIn (fun c₂ => AllSet c₂.out &&
        endsIn (fun c₃ => c₃.unixtime ≤ 100 &&
          endsIn (fun c₄ =>
            endsIn (fun c₅ => OpenNode c₅.out 1 && ! OverSoft limited c₅ && c₅.reports = [] &&
              endsIn (fun c₆ => c₆.reports = [⟨100, true, false⟩])
                (act exactly limited c₅ (.setDeferredMultiBulkLength (some 1) 0)))
              (act exactly limited c₄ .addDeferredMultiBulkLength))
            (act exactly limited c₃ (.setTime 100)))
          (act exactly limited c₂ (.writeToClient [⟨some 100, false⟩])))
        (act exactly limited c₁ (.setDeferredMultiBulkLength (some 0) 0)))
      (act exactly limited created .addDeferredMultiBulkLength) = true := by decide +kernel
  obtain ⟨c₁, h₁, htest⟩ := of_endsIn hrun
  obtain ⟨hopen₁, htest⟩ := Bool.and_eq_true_iff.mp htest
  obtain ⟨c₂, h₂, htest⟩ := of_endsIn htest
  obtain ⟨hset₂, htest⟩ := Bool.and_eq_true_iff.mp htest
  obtain ⟨c₃, h₃, htest⟩ := of_endsIn htest
  obtain ⟨htime₃, htest⟩ := Bool.and_eq_true_iff.mp htest
  obtain ⟨c₄, h₄, htest⟩ := of_endsIn htest
  obtain ⟨c₅, h₅, htest⟩ := of_endsIn htest
  obtain ⟨htest₅, htest⟩ := Bool.and_eq_true_iff.mp htest
  obtain ⟨htest₅, hreports₅⟩ := Bool.and_eq_true_iff.mp htest₅
  obtain ⟨hopen₅, hunder₅⟩ := Bool.and_eq_true_iff.mp htest₅
  obtain ⟨c₆, h₆, hreports₆⟩ := of_endsIn htest
  have hs₁ : Step exactly limited created c₁ := ⟨.addDeferredMultiBulkLength, True.intro, h₁⟩
  have hs₂ : Step exactly limited c₁ c₂ := by
    have hopen := of_decide_eq_true hopen₁
    exact ⟨.setDeferredMultiBulkLength (some 0) 0, hopen, h₂⟩
  have hs₃ : Step exactly limited c₂ c₃ := by
    have hset := of_decide_eq_true hset₂
    exact ⟨.writeToClient [⟨some 100, false⟩], hset, h₃⟩
  have hs₄ : Step exactly limited c₃ c₄ := by
    have htime := of_decide_eq_true htime₃
    exact ⟨.setTime 100, htime, h₄⟩
  have hs₅ : Step exactly limited c₄ c₅ := ⟨.addDeferredMultiBulkLength, True.intro, h₅⟩
  have hs₆ : Step exactly limited c₅ c₆ := by
    have hopen := of_decide_eq_true hopen₅
    exact ⟨.setDeferredMultiBulkLength (some 1) 0, hopen, h₆⟩
  have hhist : History (Step exactly limited) Connected [c₆, c₅, c₄, c₃, c₂, c₁, created] :=
    ((((((History.init created_connected).next hs₁).next hs₂).next hs₃).next hs₄).next hs₅).next hs₆
  have hreport : SoftReport c₅ c₆ := by
    refine ⟨⟨100, true, false⟩, ?_, rfl⟩
    rw [of_decide_eq_true hreports₆, of_decide_eq_true hreports₅]
    rfl
  -- the excess began just now, as the client was under the limit before
  obtain ⟨first, ⟨recent, older, heq, hfirst, hrecent⟩, hlong⟩ :=
    hall exactly limited c₆ c₅ _ hhist hreport
  have hunder : ¬ OverSoft limited c₅ := by simpa using hunder₅
  cases recent with
  | nil =>
      cases heq
      have hpos : (0 : Int) ≤ (limitsOf limited c₆).softLimitSeconds := by
        show (0 : Int) ≤ 60
        decide
      omega
  | cons x recent =>
      cases recent with
      | nil =>
          cases heq
          exact hunder hfirst
      | cons y recent =>
          simp only [List.cons_append, List.cons.injEq] at heq
          exact hunder (heq.2.1 ▸ hrecent y (by simp))

/-- A multibulk reply takes the usage over the limit and is not sent; the next one, 99
seconds later, has the client reported. -/
theorem soft_report_continuous_unsent : ∃ (now before : Client) (past : List Client),
    SoftReport before now ∧ ContinuousExcess limited now (before :: past) := by
  have hrun : endsIn (fun c₁ => OpenNode c₁.out 0 && NoStaleStart limited created c₁ &&
      endsIn (fun c₂ => c₂.unixtime ≤ 100 && NoStaleStart limited c₁ c₂ &&
        endsIn (fun c₃ => NoStaleStart limited c₂ c₃ && c₃.reports = [] &&
          endsIn (fun c₄ => NoStaleStart limited c₃ c₄ && c₄.reports = [⟨100, true, false⟩])
            (act exactly limited c₃ (.addReplySdsToList (cstr ":0\r\n"))))
          (act exactly limited c₂ (.setTime 100)))
        (act exactly limited c₁ (.setDeferredMultiBulkLength (some 0) 0)))
      (act exactly limited created .addDeferredMultiBulkLength) = true := by decide +kernel
  obtain ⟨c₁, h₁, htest⟩ := of_endsIn hrun
  obtain ⟨htest₁, htest⟩ := Bool.and_eq_true_iff.mp htest
  obtain ⟨hopen₁, hsteady₁⟩ := Bool.and_eq_true_iff.mp htest₁
  obtain ⟨c₂, h₂, htest⟩ := of_endsIn htest
  obtain ⟨htest₂, htest⟩ := Bool.and_eq_true_iff.mp htest
  obtain ⟨htime₂, hsteady₂⟩ := Bool.and_eq_true_iff.mp htest₂
  obtain ⟨c₃, h₃, htest⟩ := of_endsIn htest
  obtain ⟨htest₃, htest⟩ := Bool.and_eq_true_iff.mp htest
  obtain ⟨hsteady₃, hreports₃⟩ := Bool.and_eq_true_iff.mp htest₃
  obtain ⟨c₄, h₄, htest⟩ := of_endsIn htest
  obtain ⟨hsteady₄, hreports₄⟩ := Bool.and_eq_true_iff.mp htest
  have hreport : SoftReport c₃ c₄ := by
    refine ⟨⟨100, true, false⟩, ?_, rfl⟩
    rw [of_decide_eq_true hreports₄, of_decide_eq_true hreports₃]
    rfl
  have hs₁ : Step exactly limited created c₁ := ⟨.addDeferredMultiBulkLength, True.intro, h₁⟩
  have hs₂ : Step exactly limited c₁ c₂ := by
    have hopen := of_decide_eq_true hopen₁
    exact ⟨.setDeferredMultiBulkLength (some 0) 0, hopen, h₂⟩
  have hs₃ : Step exactly limited c₂ c₃ := by
    have htime := of_decide_eq_true htime₂
    exact ⟨.setTime 100, htime, h₃⟩
  have hs₄ : Step exactly limited c₃ c₄ := ⟨.addReplySdsToList _, True.intro, h₄⟩
  have hhist : History (fun c c' => Step exactly limited c c' ∧ NoStaleStart limited c c') Connected
      [c₄, c₃, c₂, c₁, created] :=
    ((((History.init created_connected).next ⟨hs₁, of_decide_eq_true hsteady₁⟩).next
      ⟨hs₂, of_decide_eq_true hsteady₂⟩).next ⟨hs₃, of_decide_eq_true hsteady₃⟩).next
      ⟨hs₄, of_decide_eq_true hsteady₄⟩
  exact ⟨c₄, c₃, _, hreport, soft_report_continuous exactly limited c₄ c₃ _ hhist hreport⟩

end OutputMemory

end RedisCore
