/-
# `RedisCore.Networking.Executed` — what the requests of a client do to the server

Most commands leave their client alone: they change the data of the server, and neither free the
client nor touch its flags.  Where all do, a read of any bytes changes the data as the vectors of
arguments that it hands over do, one after the other, and nothing else of the server.  The flags of
the client change only if it is refused or sends QUIT.
-/
import RedisCore.Networking.QueryRuns

namespace RedisCore

namespace Query

open CInt

variable {σ : Type}

/-- The steps of a computation that succeeds. -/
theorem of_bind_ok {α β : Type} {x : Except Fault α} {f : α → Except Fault β} {b : β}
    (h : (x >>= f) = .ok b) : ∃ a, x = .ok a ∧ f a = .ok b := by
  cases x with
  | error e => cases h
  | ok a => exact ⟨a, rfl, h⟩

/-! ## Slices -/

theorem length_sdsrange_le (s : Bytes) (start stop : Int) :
    (sdsrange s start stop).length ≤ s.length := by
  unfold sdsrange
  dsimp only
  generalize (if start < 0 then max (toInt (s.length + start)) 0 else start) = start
  generalize (if stop < 0 then max (toInt (s.length + stop)) 0 else stop) = stop
  split
  · exact Nat.le_refl _
  split
  · exact Nat.zero_le _
  split
  · exact Nat.zero_le _
  · exact ((List.take_sublist _ _).trans (List.drop_sublist _ _)).length_le

theorem length_bytesAt_le {s o : Bytes} {i len : Int} (h : bytesAt s i len = .ok o) :
    o.length ≤ s.length := by
  unfold bytesAt at h
  split at h
  · cases h
    exact ((List.take_sublist _ _).trans (List.drop_sublist _ _)).length_le
  · cases h

/-- A token takes at least a byte for each of its own. -/
theorem length_splitToken_le {q : Quote} {current p token rest : Bytes}
    (h : splitToken q current p = some (token, rest)) :
    token.length + rest.length ≤ current.length + p.length := by
  revert token rest
  fun_induction splitToken q current p <;> grind

theorem length_splitLoop_le {fuel : Nat} {p : Bytes} {argv : List Bytes}
    (h : splitLoop fuel p = .ok (some argv)) :
    argv.length ≤ p.length ∧ ∀ a ∈ argv, a.length ≤ p.length := by
  induction fuel generalizing p argv with
  | zero => cases h
  | succ fuel ih =>
      have hle : (p.dropWhile isspace).length ≤ p.length := (List.dropWhile_suffix _).length_le
      rw [splitLoop] at h
      cases hp : p.dropWhile isspace with
      | nil =>
          rw [hp] at h
          cases h
          exact ⟨Nat.zero_le _, fun a ha => absurd ha List.not_mem_nil⟩
      | cons c p' =>
          rw [hp] at h hle
          dsimp only at h
          cases htoken : splitToken .plain [] (c :: p') with
          | none =>
              rw [htoken] at h
              cases h
          | some found =>
              obtain ⟨token, rest⟩ := found
              rw [htoken] at h
              obtain ⟨more, hmore, h⟩ := of_bind_ok h
              have hlt := splitToken_lt htoken
              have hsum := length_splitToken_le htoken
              rw [List.length_nil, Nat.zero_add] at hsum
              rw [List.length_cons] at hle hsum
              cases more with
              | none => cases h
              | some argv' =>
                  cases h
                  obtain ⟨hcount, hall⟩ := ih hmore
                  refine ⟨by rw [List.length_cons]; omega, fun a ha => ?_⟩
                  rcases List.mem_cons.mp ha with rfl | ha
                  · omega
                  · have := hall a ha
                    omega

theorem length_sdssplitargs_le {line : Bytes} {argv : List Bytes}
    (h : sdssplitargs line = .ok (some argv)) :
    argv.length ≤ line.length ∧ ∀ a ∈ argv, a.length ≤ line.length := by
  have hle : (cstring line).length ≤ line.length := (List.takeWhile_prefix _).length_le
  obtain ⟨hcount, hall⟩ := length_splitLoop_le h
  exact ⟨Nat.le_trans hcount hle, fun a ha => Nat.le_trans (hall a ha) hle⟩

/-! ## The parser -/

/-- What the parser leaves alone: the flags, unless the client is refused.  And what it adds: no
argument is longer than the buffer, and there is room for each. -/
structure Parses (c c' : Client) : Prop where
  quiet : c.errors.length < c'.errors.length ∨ (c'.errors = c.errors ∧ c'.flags = c.flags)
  querybuf : c'.querybuf.length ≤ c.querybuf.length
  argv : ∀ a ∈ c'.argv, a ∈ c.argv ∨ a.length ≤ c.querybuf.length
  slots : c'.slots ≤ max c.slots (max (1024 * 1024) c.querybuf.length)
  room : c.argv.length ≤ c.slots → c'.argv.length ≤ c'.slots

theorem Parses.trans {c₁ c₂ c₃ : Client} (h₁ : Parses c₁ c₂) (h₂ : Parses c₂ c₃) :
    Parses c₁ c₃ := by
  have hq₁ := h₁.querybuf
  have hq₂ := h₂.querybuf
  have hs₁ := h₁.slots
  have hs₂ := h₂.slots
  refine ⟨?_, Nat.le_trans hq₂ hq₁, fun a ha => ?_, by omega, fun h => h₂.room (h₁.room h)⟩
  · rcases h₁.quiet with h₁ | ⟨he₁, hf₁⟩
    · left
      rcases h₂.quiet with h₂ | ⟨he₂, -⟩
      · omega
      · rw [he₂]
        exact h₁
    · rcases h₂.quiet with h₂ | ⟨he₂, hf₂⟩
      · left
        rw [← he₁]
        exact h₂
      · exact .inr ⟨he₂.trans he₁, hf₂.trans hf₁⟩
  · rcases h₂.argv a ha with ha | ha
    · exact h₁.argv a ha
    · exact .inr (Nat.le_trans ha hq₁)

/-- The arguments, the flags and the errors stay. -/
theorem parses_same {c c' : Client} (herrors : c'.errors = c.errors) (hflags : c'.flags = c.flags)
    (hargv : c'.argv = c.argv) (hslots : c'.slots = c.slots)
    (hq : c'.querybuf.length ≤ c.querybuf.length) : Parses c c' := by
  refine ⟨.inr ⟨herrors, hflags⟩, hq, fun a ha => .inl (hargv ▸ ha), by omega, fun h => ?_⟩
  rw [hargv, hslots]
  exact h

theorem Parses.refl (c : Client) : Parses c c := parses_same rfl rfl rfl rfl (Nat.le_refl _)

/-- A refusal has a reply. -/
theorem parses_refused (c : Client) (s : Bytes) (pos : Int) :
    Parses c (setProtocolError (c.complain (addReplyErrorLength s)) pos) := by
  refine ⟨.inl ?_, length_sdsrange_le _ _ _, fun a ha => .inl ha, Nat.le_max_left _ _, id⟩
  show c.errors.length < (c.errors ++ addReplyErrorLength s).length
  rw [List.length_append]
  exact Nat.lt_add_of_pos_right (Nat.succ_pos _)

/-- The client that a part of the parser leaves. -/
def Next.client : Next → Client
  | .ret c _ | .leave c _ | .go c _ => c

/-- An argument more. -/
theorem storeArg_parses {c c' : Client} {o : Bytes} (ho : o.length ≤ c.querybuf.length)
    (h : storeArg c o = .ok c') : Parses c c' := by
  unfold storeArg at h
  split at h
  · next hroom =>
      cases h
      refine ⟨.inr ⟨rfl, rfl⟩, Nat.le_refl _, fun a ha => ?_, Nat.le_max_left _ _, fun _ => ?_⟩
      · rcases List.mem_append.mp ha with ha | ha
        · exact .inl ha
        · rw [List.mem_singleton.mp ha]
          exact .inr ho
      · rw [List.length_append, List.length_singleton]
        exact hroom
  · cases h

theorem processInlineBuffer_parses {c : Client} {r : Client × Bool}
    (h : processInlineBuffer c = .ok r) : Parses c r.1 := by
  unfold processInlineBuffer at h
  split at h
  · split at h <;> cases h
    · exact parses_refused c _ 0
    · exact Parses.refl c
  · obtain ⟨querylen, -, h⟩ := of_bind_ok h
    obtain ⟨aux, haux, h⟩ := of_bind_ok h
    have hline := length_bytesAt_le haux
    obtain ⟨args, hargs, h⟩ := of_bind_ok h
    cases args with
    | none =>
        cases h
        exact parses_refused c _ 0
    | some argv =>
        obtain ⟨c₁, hstore, h⟩ := of_bind_ok h
        cases h
        obtain ⟨hcount, hall⟩ := length_sdssplitargs_le hargs
        rw [storeArgs_spec argv _ (by
          dsimp only [List.length_nil]
          split <;> omega)] at hstore
        cases hstore
        refine ⟨.inr ⟨rfl, rfl⟩, length_sdsrange_le _ _ _, fun a ha => .inr ?_, ?_, fun _ => ?_⟩
        · rw [List.nil_append] at ha
          have := hall a (List.mem_of_mem_filter ha)
          omega
        · dsimp only
          split <;> omega
        · dsimp only
          have := length_stored_le argv
          rw [List.nil_append]
          split <;> omega

theorem readMultibulkLen_parses {c : Client} {next : Next} (h : readMultibulkLen c = .ok next) :
    Parses c next.client := by
  unfold readMultibulkLen at h
  split at h
  · cases h
  next hargv =>
  split at h
  · split at h <;> cases h
    · exact parses_refused c _ 0
    · exact Parses.refl c
  split at h
  · cases h
    exact Parses.refl c
  obtain ⟨first, -, h⟩ := of_bind_ok h
  split at h
  · cases h
  obtain ⟨digits, -, h⟩ := of_bind_ok h
  split at h
  · cases h
    exact parses_refused c _ 0
  split at h
  · cases h
    exact parses_refused c _ 0
  next hmany =>
  dsimp only at h
  split at h <;> cases h
  · exact parses_same rfl rfl rfl rfl (length_sdsrange_le _ _ _)
  · refine ⟨.inr ⟨rfl, rfl⟩, Nat.le_refl _, fun a ha => .inl ha, ?_, fun _ => ?_⟩
    · show Int.toNat _ ≤ _
      omega
    · show c.argv.length ≤ _
      rw [not_not.mp hargv]
      exact Nat.zero_le _

theorem readBulkLen_parses {c : Client} {pos : Int} {next : Next}
    (h : readBulkLen c pos = .ok next) : Parses c next.client := by
  unfold readBulkLen at h
  split at h
  · cases h
    exact Parses.refl c
  obtain ⟨found, -, h⟩ := of_bind_ok h
  split at h
  · split at h <;> cases h
    · exact parses_refused c _ 0
    · exact Parses.refl c
  split at h
  · cases h
    exact Parses.refl c
  obtain ⟨first, -, h⟩ := of_bind_ok h
  split at h
  · cases h
    exact parses_refused c _ pos
  obtain ⟨digits, -, h⟩ := of_bind_ok h
  split at h
  · cases h
    exact parses_refused c _ pos
  split at h
  · cases h
    exact parses_refused c _ pos
  dsimp only at h
  split at h <;> cases h
  · exact parses_same rfl rfl rfl rfl (length_sdsrange_le _ _ _)
  · exact parses_same rfl rfl rfl rfl (Nat.le_refl _)

theorem readBulk_parses {c : Client} {pos : Int} {next : Next} (h : readBulk c pos = .ok next) :
    Parses c next.client := by
  unfold readBulk at h
  split at h
  · cases h
    exact Parses.refl c
  split at h
  all_goals
    obtain ⟨o, ho, h⟩ := of_bind_ok h
    obtain ⟨c₁, hstore, h⟩ := of_bind_ok h
    have hfirst := storeArg_parses (length_bytesAt_le ho) hstore
    cases h
    refine hfirst.trans ?_
  · exact parses_same rfl rfl rfl rfl (Nat.zero_le _)
  · exact parses_same rfl rfl rfl rfl (Nat.le_refl _)

theorem bulkLoop_parses {n : Nat} {c : Client} {pos : Int} {next : Next}
    (h : bulkLoop n c pos = .ok next) : Parses c next.client := by
  induction n generalizing c pos with
  | zero =>
      cases h
      exact Parses.refl c
  | succ n ih =>
      obtain ⟨next₁, hlen, h⟩ := of_bind_ok h
      have hfirst := readBulkLen_parses hlen
      cases next₁ with
      | ret c₁ ok =>
          cases h
          exact hfirst
      | leave c₁ pos₁ =>
          cases h
          exact hfirst
      | go c₁ pos₁ =>
          obtain ⟨next₂, hbulk, h⟩ := of_bind_ok h
          have hsecond := hfirst.trans (readBulk_parses hbulk)
          cases next₂ with
          | ret c₂ ok =>
              cases h
              exact hsecond
          | leave c₂ pos₂ =>
              cases h
              exact hsecond
          | go c₂ pos₂ => exact hsecond.trans (ih h)

/-- Cutting the buffer at the end. -/
theorem parses_cut (c : Client) (pos : Int) :
    Parses c (if pos ≠ 0 then { c with querybuf := sdsrange c.querybuf pos (-1) } else c) := by
  split
  · exact parses_same rfl rfl rfl rfl (length_sdsrange_le _ _ _)
  · exact Parses.refl c

theorem readBulks_parses {c : Client} {pos : Int} {r : Client × Bool}
    (h : readBulks c pos = .ok r) : Parses c r.1 := by
  unfold readBulks at h
  split at h
  · cases h
  obtain ⟨next, hloop, h⟩ := of_bind_ok h
  have hparses := bulkLoop_parses hloop
  cases next with
  | ret c₁ ok =>
      cases h
      exact hparses
  | leave c₁ pos₁ =>
      cases h
      exact hparses.trans (parses_cut c₁ pos₁)
  | go c₁ pos₁ =>
      cases h
      exact hparses.trans (parses_cut c₁ pos₁)

theorem processMultibulkBuffer_parses {c : Client} {r : Client × Bool}
    (h : processMultibulkBuffer c = .ok r) : Parses c r.1 := by
  unfold processMultibulkBuffer at h
  split at h
  · obtain ⟨next, hlen, h⟩ := of_bind_ok h
    have hparses := readMultibulkLen_parses hlen
    cases next with
    | ret c₁ ok =>
        cases h
        exact hparses
    | leave c₁ pos => exact hparses.trans (readBulks_parses h)
    | go c₁ pos => exact hparses.trans (readBulks_parses h)
  · exact readBulks_parses h

/-- **The parser**, on any bytes. -/
theorem parse_parses {c : Client} {r : Client × Bool} (h : parse c = .ok r) : Parses c r.1 := by
  obtain ⟨c₁, htype, h⟩ := of_bind_ok h
  have hfirst : Parses c c₁ := by
    unfold requestType at htype
    split at htype
    · obtain ⟨first, -, htype⟩ := of_bind_ok htype
      cases htype
      exact parses_same rfl rfl rfl rfl (Nat.le_refl _)
    · cases htype
      exact Parses.refl c
  refine hfirst.trans ?_
  split at h
  · exact processInlineBuffer_parses h
  · exact processMultibulkBuffer_parses h
  · cases h

/-- The limits that every client is held to. -/
structure Limited (c : Client) : Prop where
  querybuf : c.querybuf.length ≤ PROTO_MAX_QUERYBUF_LEN
  argv : ∀ a ∈ c.argv, a.length ≤ PROTO_MAX_QUERYBUF_LEN
  room : c.argv.length ≤ c.slots
  slots : c.slots ≤ PROTO_MAX_QUERYBUF_LEN

theorem Limited.parse {c c' : Client} (h : Limited c) (hp : Parses c c') : Limited c' := by
  have hmax : PROTO_MAX_QUERYBUF_LEN = 2 ^ 30 := rfl
  have hq := h.querybuf
  have hs := hp.slots
  have hslots := h.slots
  refine ⟨Nat.le_trans hp.querybuf hq, fun a ha => ?_, hp.room h.room, by omega⟩
  rcases hp.argv a ha with ha | ha
  · exact h.argv a ha
  · exact Nat.le_trans ha hq

theorem Limited.reset {c : Client} (h : Limited c) : Limited (resetClient c) :=
  ⟨h.querybuf, fun _ ha => absurd ha List.not_mem_nil, Nat.zero_le _, h.slots⟩

/-- A vector of arguments within the limits. -/
def Modest (argv : List Bytes) : Prop :=
  argv.length ≤ PROTO_MAX_QUERYBUF_LEN ∧ ∀ a ∈ argv, a.length ≤ PROTO_MAX_QUERYBUF_LEN

theorem Limited.modest {c : Client} (h : Limited c) : Modest c.argv :=
  ⟨Nat.le_trans h.room h.slots, h.argv⟩

/-! ## Commands that leave the client alone -/

/-- The execution of commands that change the data and nothing else. -/
def changing (change : σ → List Bytes → σ) : Execute σ :=
  fun server flags argv => ⟨{ server with data := change server.data argv }, flags, false⟩

/-- The data after a vector of arguments: QUIT is not executed. -/
def changed (change : σ → List Bytes → σ) (data : σ) (argv : List Bytes) : σ :=
  if isQuit argv then data else change data argv

/-- What the loop has done: the vectors handed over, and what has become of the data, the client's
errors and its flags. -/
structure Executes (change : σ → List Bytes → σ) (s s' : State σ) (cmds : List (List Bytes)) :
    Prop where
  handed : s'.handed = s.handed ++ cmds
  server : s'.server = { s.server with data := cmds.foldl (changed change) s.server.data }
  freed : s'.freed = s.freed
  errors : s.client.errors.length ≤ s'.client.errors.length
  flags : s'.client.errors.length = s.client.errors.length → (∀ cmd ∈ cmds, isQuit cmd = false) →
    s'.client.flags = s.client.flags
  limits : Limited s.client → Limited s'.client ∧ ∀ cmd ∈ cmds, Modest cmd ∧ cmd ≠ []

variable {change : σ → List Bytes → σ} {s s' s₁ : State σ} {cmds cmds₁ : List (List Bytes)}

/-- No vector is handed over. -/
theorem executes_nil {c : Client} (herrors : s.client.errors.length ≤ c.errors.length)
    (hflags : c.errors.length = s.client.errors.length → c.flags = s.client.flags)
    (hlimits : Limited s.client → Limited c) : Executes change s { s with client := c } [] :=
  ⟨(List.append_nil _).symm, rfl, rfl, herrors, fun hsame _ => hflags hsame,
    fun h => ⟨hlimits h, fun _ hcmd => absurd hcmd List.not_mem_nil⟩⟩

theorem Executes.refl (s : State σ) : Executes change s s [] :=
  executes_nil (Nat.le_refl _) (fun _ => rfl) id

theorem Parses.executes {c : Client} (h : Parses s.client c) :
    Executes change s { s with client := c } [] := by
  refine executes_nil ?_ (fun hsame => ?_) (fun hl => hl.parse h)
  · rcases h.quiet with h | ⟨he, -⟩
    · exact Nat.le_of_lt h
    · rw [he]
  · rcases h.quiet with h | ⟨-, hf⟩
    · exact absurd hsame (Nat.ne_of_gt h)
    · exact hf

theorem Executes.trans (h₁ : Executes change s s₁ cmds₁) (h₂ : Executes change s₁ s' cmds) :
    Executes change s s' (cmds₁ ++ cmds) := by
  have hle₁ := h₁.errors
  have hle₂ := h₂.errors
  refine ⟨?_, ?_, h₂.freed.trans h₁.freed, Nat.le_trans hle₁ hle₂, fun hsame hquit => ?_,
    fun hl => ?_⟩
  · rw [h₂.handed, h₁.handed, List.append_assoc]
  · rw [h₂.server, h₁.server, List.foldl_append]
  · have hflags₁ := h₁.flags (by omega) fun cmd hcmd => hquit cmd (List.mem_append_left _ hcmd)
    have hflags₂ := h₂.flags (by omega) fun cmd hcmd => hquit cmd (List.mem_append_right _ hcmd)
    exact hflags₂.trans hflags₁
  · obtain ⟨hl₁, hcmds₁⟩ := h₁.limits hl
    obtain ⟨hl₂, hcmds⟩ := h₂.limits hl₁
    refine ⟨hl₂, fun cmd hcmd => ?_⟩
    rcases List.mem_append.mp hcmd with hcmd | hcmd
    · exact hcmds₁ cmd hcmd
    · exact hcmds cmd hcmd

/-- One vector of arguments. -/
theorem dispatch_executes (hfree : s.freed = false) : ∃ cmds,
    Executes change s (dispatch (changing change) s).1 cmds := by
  by_cases hargv : s.client.argv = []
  · refine ⟨[], ?_⟩
    rw [dispatch, if_pos (by rw [hargv]; rfl)]
    exact executes_nil (Nat.le_refl _) (fun _ => rfl) Limited.reset
  · refine ⟨[s.client.argv], ?_⟩
    have hone : Limited s.client → ∀ cmd ∈ [s.client.argv], Modest cmd ∧ cmd ≠ [] := by
      intro hl cmd hcmd
      rw [List.mem_singleton.mp hcmd]
      exact ⟨hl.modest, hargv⟩
    by_cases hquit : isQuit s.client.argv = true
    · rw [dispatch_quit hargv hquit]
      refine ⟨rfl, ?_, rfl, Nat.le_refl _, fun _ hno => ?_, fun hl =>
        ⟨⟨hl.querybuf, hl.argv, hl.room, hl.slots⟩, hone hl⟩⟩
      · rw [List.foldl_cons, changed, if_pos hquit]
        rfl
      · rw [hno _ (List.mem_singleton_self _)] at hquit
        cases hquit
    · rw [dispatch_execute hargv hquit]
      refine ⟨rfl, ?_, hfree.symm, Nat.le_refl _, fun _ _ => ?_, fun hl => ⟨?_, hone hl⟩⟩
      · rw [List.foldl_cons, changed, if_neg hquit]
        rfl
      · show Flags.after s.client.flags s.client.flags = s.client.flags
        simp [Flags.after]
      · exact ⟨hl.querybuf, fun _ ha => absurd ha List.not_mem_nil, Nat.zero_le _, hl.slots⟩

/-- What the loop sees of the pause, where there is none. -/
theorem pausedNow_of_unpaused {v : Service σ} (h : v.server.clientsPaused = false) :
    v.pausedNow = (v.server, false) := by
  obtain ⟨⟨data, paused, pauseEnd, now⟩, flags, freed⟩ := v
  subst h
  unfold Service.pausedNow
  split <;> rfl

/-- One turn of the loop. -/
theorem turn_executes (hpause : s.server.clientsPaused = false) (hfree : s.freed = false)
    {again : Bool} (h : turn (changing change) s = .ok (s', again)) : ∃ cmds,
      Executes change s s' cmds := by
  have hnow : s.service.pausedNow = (s.server, false) := pausedNow_of_unpaused hpause
  rw [turn_eq, hnow] at h
  split at h
  · cases h
    exact ⟨[], .refl s⟩
  · obtain ⟨⟨c, ok⟩, hparse, h⟩ := of_bind_ok h
    have hparses : Parses s.client c := parse_parses hparse
    have hfirst : Executes change s { s with client := c } [] := hparses.executes
    cases ok with
    | false =>
        cases h
        exact ⟨[], hfirst⟩
    | true =>
        obtain ⟨cmds, hrest⟩ := @dispatch_executes _ change { s with client := c } hfree
        refine ⟨cmds, ?_⟩
        have hs' : s' = (dispatch (changing change) { s with client := c }).1 :=
          (congrArg Prod.fst (Except.ok.inj h)).symm
        rw [hs']
        exact hfirst.trans hrest

/-- The loop. -/
theorem inputLoop_executes {fuel : Nat} (hpause : s.server.clientsPaused = false)
    (hfree : s.freed = false) (h : inputLoop (changing change) fuel s = .ok s') : ∃ cmds,
      Executes change s s' cmds := by
  induction fuel generalizing s with
  | zero =>
      unfold inputLoop at h
      split at h <;> cases h
      exact ⟨[], .refl _⟩
  | succ fuel ih =>
      unfold inputLoop at h
      split at h
      · cases h
        exact ⟨[], .refl _⟩
      · obtain ⟨⟨s₁, again⟩, hturn, h⟩ := of_bind_ok h
        obtain ⟨cmds₁, hfirst⟩ := turn_executes hpause hfree hturn
        cases again with
        | false =>
            cases h
            exact ⟨cmds₁, hfirst⟩
        | true =>
            obtain ⟨cmds, hrest⟩ := ih (by rw [hfirst.server]; exact hpause)
              (hfirst.freed.trans hfree) h
            exact ⟨cmds₁ ++ cmds, hfirst.trans hrest⟩

/-- **A read** of any bytes executes the vectors that it hands over, unless it is the end or the
buffer is too long; then the client is freed. -/
theorem read_executes {b : Bytes} (hpause : s.server.clientsPaused = false) (hfree : s.freed = false)
    (hlim : Limited s.client) (h : readQueryFromClient (changing change) s (.data b) = .ok s') :
    (s'.freed = true ∧ s'.server = s.server ∧ s'.handed = s.handed ∧
      (b = [] ∨ PROTO_MAX_QUERYBUF_LEN < (s.client.querybuf ++ b).length)) ∨
      ∃ cmds, Executes change s s' cmds := by
  unfold readQueryFromClient at h
  dsimp only at h
  split at h
  · next hnil =>
      cases h
      exact .inl ⟨rfl, rfl, rfl, .inl (List.eq_nil_of_length_eq_zero hnil)⟩
  split at h
  · next hlong =>
      cases h
      exact .inl ⟨rfl, rfl, rfl, .inr hlong⟩
  · next hfit =>
      obtain ⟨cmds, hexec⟩ := @inputLoop_executes σ change (s.received b) s' _ hpause hfree h
      exact .inr ⟨cmds, hexec.handed, hexec.server, hexec.freed, hexec.errors, hexec.flags, fun _ =>
        hexec.limits ⟨Nat.not_lt.mp hfit, hlim.argv, hlim.room, hlim.slots⟩⟩

/-! ## In service -/

/-- Where nothing is paused, the flags decide. -/
theorem isOpen_of_unpaused {v : Service σ} (h : v.server.clientsPaused = false) :
    v.isOpen = (!(v.flags.blocked || v.flags.closeAfterReply || v.flags.closeAsap) && !v.freed) := by
  rw [Service.isOpen, Service.isShut, pausedNow_of_unpaused h, Bool.false_or]

/-- The service stays open without QUIT. -/
theorem serves_changing {v : Service σ} (hopen : v.isOpen = true)
    (hpause : v.server.clientsPaused = false) (hcmds : ∀ cmd ∈ cmds, isQuit cmd = false) :
    v.Serves (changing change) cmds := by
  induction cmds generalizing v with
  | nil => exact True.intro
  | cons cmd cmds ih =>
      refine ⟨hopen, ?_⟩
      have hafter : v.after (changing change) cmd =
          ⟨{ v.server with data := change v.server.data cmd }, v.flags, false⟩ := by
        rw [Service.after, if_neg (by rw [hcmds cmd List.mem_cons_self]; exact Bool.false_ne_true),
          pausedNow_of_unpaused hpause]
        simp [changing, Flags.after]
      rw [hafter]
      refine ih ?_ hpause (fun cmd' h => hcmds cmd' (List.mem_cons_of_mem cmd h))
      rw [isOpen_of_unpaused hpause, Bool.and_eq_true] at hopen
      rw [isOpen_of_unpaused (by exact hpause), hopen.1]
      rfl

/-- What is handed over is a beginning of what a client waits for, and there is no error. -/
theorem read_begins {cmd : List Bytes} {later : List (List Bytes)} {b t : Bytes}
    (hw : Waits s.client cmd (b ++ t) (later.flatMap request)) (hopen : s.service.isOpen = true)
    (hpause : s.server.clientsPaused = false) (hvalid : ∀ x ∈ cmd :: later, Valid x)
    (hquit : ∀ x ∈ cmd :: later, isQuit x = false) (hb : b ≠ [])
    (hlen : (b.length : Int) ≤ readlen s.client) : ∃ s' new,
      readQueryFromClient (changing change) s (.data b) = .ok s' ∧ s'.handed = s.handed ++ new ∧
      new <+: cmd :: later ∧ s'.client.errors = s.client.errors := by
  have hcmd : Valid cmd := hvalid cmd List.mem_cons_self
  obtain ⟨hfit, hparse⟩ := parse_more hw hcmd hb hlen
  have hblen : ¬ b.length = 0 := fun h => hb (List.eq_nil_of_length_eq_zero h)
  have hne : (s.received b).client.querybuf ≠ [] := fun h => hb (List.append_eq_nil_iff.mp h).2
  obtain ⟨fuel, hfuel⟩ := Nat.exists_eq_succ_of_ne_zero (List.length_pos_of_ne_nil hne).ne'
  have hrun : readQueryFromClient (changing change) s (.data b) =
      inputLoop (changing change) (fuel + 1) (s.received b) := by
    rw [readQueryFromClient, if_neg hblen]
    dsimp only
    rw [if_neg (by omega), ← Nat.succ_eq_add_one, ← hfuel]
    rfl
  have hopen' : (s.received b).service.isOpen = true := hopen
  rcases hparse with ⟨c, hok, hc, hrest, hsmall, hless⟩ | ⟨c, hok, -, -, herrors⟩
  · obtain ⟨s₁, hturn, hhanded⟩ : ∃ s₁, turn (changing change) (s.received b) = .ok (s₁, !s₁.freed) ∧
        Handed (changing change) (s.received b) s₁ c cmd := turn_complete hopen' hok
      ⟨hc.argv, hc.multibulklen, hc.bulklen, hc.flags, hc.errors⟩ hcmd.nonempty
    have hserves := @serves_changing σ change (cmd :: complete later s₁.client.querybuf) _ hopen' hpause
      fun x hx => by
        refine hquit x ?_
        rcases List.mem_cons.mp hx with rfl | hx
        · exact List.mem_cons_self
        · rw [← complete_append_drop later s₁.client.querybuf]
          exact List.mem_cons_of_mem _ (List.mem_append_left _ hx)
    have hafter : s₁.service.Serves (changing change) (complete later s₁.client.querybuf) := by
      rw [hhanded.service]
      exact hserves.2
    have hfree : s₁.freed = false := by
      have hservice := congrArg Service.freed hhanded.service
      rw [Service.after, if_neg (by rw [hquit cmd List.mem_cons_self]; exact Bool.false_ne_true)]
        at hservice
      exact hservice
    obtain ⟨s', hloop, hends⟩ := @inputLoop_begins σ (changing change) later fuel s₁ t
      (fun x hx => hvalid x (List.mem_cons_of_mem _ hx)) hfree hhanded.idle
      ⟨hhanded.multibulklen, hhanded.bulklen⟩
      (by
        rw [hhanded.querybuf]
        omega)
      (by
        have hreceived : (s.received b).client.querybuf.length = (s.client.querybuf ++ b).length := rfl
        rw [hhanded.querybuf]
        omega)
      (by rw [hhanded.querybuf, hrest])
    have hnot : ¬ OverlongPrefix later s₁.client.querybuf := by
      intro h
      have := h.lt_length
      rw [hhanded.querybuf] at this
      omega
    refine ⟨s', cmd :: complete later s₁.client.querybuf, ?_, ?_, ?_, ?_⟩
    · rw [hrun, inputLoop_turn hne hturn, hfree]
      exact hloop
    · rw [hends.served hafter, hhanded.handed, List.append_assoc]
      rfl
    · refine List.cons_prefix_cons.mpr ⟨rfl, ?_⟩
      exact ⟨_, complete_append_drop later s₁.client.querybuf⟩
    · rw [hends.clean (fun _ => hnot), hhanded.errors]
      exact hc.errors
  · refine ⟨_, [], hrun.trans ((inputLoop_turn hne (turn_open hopen' hok)).trans rfl),
      (List.append_nil _).symm, List.nil_prefix, herrors⟩

/-- **A client without QUIT** stays in service. -/
theorem read_stays_open {cmd : List Bytes} {later : List (List Bytes)} {b t : Bytes}
    (hw : Waits s.client cmd (b ++ t) (later.flatMap request)) (hopen : s.service.isOpen = true)
    (hpause : s.server.clientsPaused = false) (hlim : Limited s.client)
    (hvalid : ∀ x ∈ cmd :: later, Valid x) (hquit : ∀ x ∈ cmd :: later, isQuit x = false) (hb : b ≠ [])
    (hlen : (b.length : Int) ≤ readlen s.client)
    (hread : readQueryFromClient (changing change) s (.data b) = .ok s') :
    s'.service.isOpen = true := by
  obtain ⟨s'', new, hrun, hhanded, hbegins, herrors⟩ :=
    @read_begins σ change s _ _ b t hw hopen hpause hvalid hquit hb hlen
  rw [hread, Except.ok.injEq] at hrun
  subst hrun
  have hdecide := hopen
  rw [isOpen_of_unpaused hpause, Bool.and_eq_true, Bool.not_eq_true', Bool.not_eq_true'] at hdecide
  obtain ⟨hflags, hfree⟩ := hdecide
  rcases read_executes hpause hfree hlim hread with ⟨-, -, -, hwhy⟩ | ⟨cmds, hexec⟩
  · exfalso
    have hfit := (parse_more hw (hvalid cmd List.mem_cons_self) hb hlen).1
    rcases hwhy with hnil | hlong
    · exact hb hnil
    · omega
  · have hsame : cmds = new := List.append_cancel_left (hexec.handed.symm.trans hhanded)
    have hkept : s'.client.flags = s.client.flags := by
      refine hexec.flags (congrArg List.length herrors) fun x hx => hquit x ?_
      rw [hsame] at hx
      exact hbegins.subset hx
    rw [isOpen_of_unpaused (by
      show s'.server.clientsPaused = false
      rw [hexec.server]
      exact hpause)]
    show (!(s'.client.flags.blocked || s'.client.flags.closeAfterReply || s'.client.flags.closeAsap) &&
      !s'.freed) = true
    rw [hkept, hexec.freed]
    exact (Bool.and_eq_true _ _).mpr ⟨by rw [Bool.not_eq_true']; exact hflags, by
      rw [Bool.not_eq_true']
      exact hfree⟩

end Query

end RedisCore
