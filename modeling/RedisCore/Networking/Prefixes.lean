/-
# `RedisCore.Networking.Prefixes` — a part of a pipeline in one buffer

While clients are paused the bytes of a client pile up, and the next read after the pause
finds any prefix of what was sent.  Its complete commands are executed, as long as they leave
the client in service.  What is behind them is left for later, except where it is `Overlong`:
there the client is refused, although nothing that it sent is wrong.
-/
import RedisCore.Networking.Framing

namespace RedisCore

namespace Query

open CInt Decimal

/-! ## In service -/

/-- What decides whether the loop goes on: the server, the flags of the client, and whether it
was freed. -/
structure Service (σ : Type) where
  server : Server σ
  flags : Flags
  freed : Bool

def State.service (s : State σ) : Service σ := ⟨s.server, s.client.flags, s.freed⟩

/-- The server after the loop has looked at the pause. -/
def Service.pausedNow (v : Service σ) : Server σ × Bool :=
  if v.flags.slave then (v.server, false) else clientsArePaused v.server

/-- The loop is left before the next request is looked at. -/
def Service.isShut (v : Service σ) : Bool :=
  v.pausedNow.2 || v.flags.blocked || v.flags.closeAfterReply || v.flags.closeAsap

/-- The next request is looked at. -/
def Service.isOpen (v : Service σ) : Bool := !v.isShut && !v.freed

/-- A command is executed. -/
def Service.after (execute : Execute σ) (v : Service σ) (cmd : List Bytes) : Service σ :=
  if isQuit cmd then ⟨v.pausedNow.1, { v.flags with closeAfterReply := true }, v.freed⟩
  else
    let e := execute v.pausedNow.1 v.flags cmd
    ⟨e.server, v.flags.after e.flags, e.freed⟩

/-- Each of the commands finds the client in service. -/
def Service.Serves (execute : Execute σ) : Service σ → List (List Bytes) → Prop
  | _, [] => True
  | v, cmd :: cmds => v.isOpen = true ∧ Serves execute (v.after execute cmd) cmds

/-- The commands are executed one after the other. -/
def Service.afterAll (execute : Execute σ) (v : Service σ) (cmds : List (List Bytes)) : Service σ :=
  cmds.foldl (Service.after execute) v

variable {execute : Execute σ} {s : State σ}

theorem turn_eq : turn execute s
    = if s.service.isShut = true then .ok ({ s with server := s.service.pausedNow.1 }, false)
      else do
        let (c, ok) ← parse s.client
        let s := { s with server := s.service.pausedNow.1, client := c }
        return if ok then dispatch execute s else (s, false) := rfl

/-- A turn out of service changes nothing but the pause. -/
theorem turn_shut (h : s.service.isShut = true) :
    turn execute s = .ok ({ s with server := s.service.pausedNow.1 }, false) := by
  rw [turn_eq, if_pos h]

/-- A turn in service parses and does what is to be done with the request. -/
theorem turn_open (h : s.service.isOpen = true) {c : Client} {ok : Bool}
    (hparse : parse s.client = .ok (c, ok)) :
    turn execute s = .ok (if ok then
        dispatch execute { s with server := s.service.pausedNow.1, client := c }
      else ({ s with server := s.service.pausedNow.1, client := c }, false)) := by
  have hgate : ¬ s.service.isShut = true := by
    intro hshut
    rw [Service.isOpen, hshut] at h
    cases h
  rw [turn_eq, if_neg hgate, hparse]
  rfl

theorem dispatch_quit (hne : s.client.argv ≠ []) (hquit : isQuit s.client.argv = true) :
    dispatch execute s = ({ s with
      handed := s.handed ++ [s.client.argv]
      client := { s.client with flags := { s.client.flags with closeAfterReply := true } } },
      !s.freed) := by
  have hargc : ¬ s.client.argv.length = 0 := fun h => hne (List.eq_nil_of_length_eq_zero h)
  rw [dispatch, if_neg hargc, processCommand]
  dsimp only
  rw [if_pos hquit]
  rfl

theorem dispatch_execute (hne : s.client.argv ≠ []) (hquit : ¬ isQuit s.client.argv = true) :
    dispatch execute s =
      let e := execute s.server s.client.flags s.client.argv
      ({ s with
        server := e.server
        handed := s.handed ++ [s.client.argv]
        client := resetClient { s.client with flags := s.client.flags.after e.flags }
        freed := e.freed }, !e.freed) := by
  have hargc : ¬ s.client.argv.length = 0 := fun h => hne (List.eq_nil_of_length_eq_zero h)
  rw [dispatch, if_neg hargc, processCommand]
  dsimp only
  rw [if_neg hquit]
  rfl

/-- What a command leaves: it was handed over, and the client is reset as long as it is in
service. -/
structure Handed (execute : Execute σ) (s s' : State σ) (c : Client) (cmd : List Bytes) : Prop where
  handed : s'.handed = s.handed ++ [cmd]
  service : s'.service = s.service.after execute cmd
  querybuf : s'.client.querybuf = c.querybuf
  multibulklen : s'.client.multibulklen = 0
  bulklen : s'.client.bulklen = -1
  errors : s'.client.errors = c.errors
  idle : s'.service.isOpen = true → Idle s'.client
  reqtype : s'.service.isOpen = true → s'.client.reqtype = .unknown

/-- A turn that finds a complete request. -/
theorem turn_complete (hopen : s.service.isOpen = true) {c : Client} {cmd : List Bytes}
    (hparse : parse s.client = .ok (c, true)) (hc : Complete s.client c cmd) (hne : cmd ≠ []) :
    ∃ s', turn execute s = .ok (s', !s'.freed) ∧ Handed execute s s' c cmd := by
  have hargv : c.argv ≠ [] := by rwa [hc.argv]
  have hflags : c.flags = s.service.flags := hc.flags
  rw [turn_open hopen hparse, if_pos rfl]
  by_cases hquit : isQuit cmd = true
  · rw [dispatch_quit hargv (by rwa [hc.argv])]
    refine ⟨_, rfl, ?_, ?_, rfl, hc.multibulklen, hc.bulklen, rfl, ?_, ?_⟩
    · rw [← hc.argv]
    · rw [Service.after, if_pos hquit, ← hflags]
      rfl
    · intro h
      simp [Service.isOpen, Service.isShut, State.service] at h
    · intro h
      simp [Service.isOpen, Service.isShut, State.service] at h
  · rw [dispatch_execute hargv (by rwa [hc.argv])]
    refine ⟨_, rfl, ?_, ?_, rfl, rfl, rfl, rfl, ?_, fun _ => rfl⟩
    · rw [← hc.argv]
    · rw [Service.after, if_neg hquit, ← hflags, ← hc.argv]
      rfl
    · intro _
      exact ⟨rfl, rfl, rfl, fun h => by cases h⟩

/-! ## Prefixes -/

/-- The commands that are complete in the bytes. -/
def complete : List (List Bytes) → Bytes → List (List Bytes)
  | [], _ => []
  | cmd :: cmds, p =>
      if request cmd <+: p then cmd :: complete cmds (p.drop (request cmd).length) else []

/-- Behind the complete commands the bytes end as `Overlong` says. -/
def OverlongPrefix : List (List Bytes) → Bytes → Prop
  | [], _ => False
  | cmd :: cmds, p =>
      if request cmd <+: p then OverlongPrefix cmds (p.drop (request cmd).length)
      else OverlongRequest cmd p

instance OverlongPrefix.decide : ∀ (cmds : List (List Bytes)) (p : Bytes),
    Decidable (OverlongPrefix cmds p)
  | [], _ => instDecidableFalse
  | cmd :: cmds, p =>
      have := OverlongPrefix.decide cmds (p.drop (request cmd).length)
      inferInstanceAs (Decidable (if request cmd <+: p then _ else _))

/-- The client has nothing of the commands but what its buffer holds in front of `t`. -/
def Ready (c : Client) : List (List Bytes) → Bytes → Prop
  | [], t => Idle c ∧ c.querybuf ++ t = []
  | cmd :: later, t => Waits c cmd t (later.flatMap request)

/-- What an overlong part ends in has not come. -/
theorem Overlong.not_complete : ∀ {args : List Bytes} {n : Nat} {avail : Bytes},
    Overlong n args avail → ¬ args.flatMap bulk <+: avail := by
  intro args
  induction args with
  | nil => intro n avail h; exact h.elim
  | cons a args ih =>
      intro n avail h hpre
      rw [List.flatMap_cons] at hpre
      have ha : bulk a <+: avail := (List.prefix_append _ _).trans hpre
      rw [Overlong, if_pos ha] at h
      obtain ⟨rest, rfl⟩ := ha
      rw [List.drop_left] at h
      exact ih h ((List.prefix_append_right_inj _).mp hpre)

theorem OverlongRequest.not_complete {cmd : List Bytes} {p : Bytes} (h : OverlongRequest cmd p) :
    ¬ request cmd <+: p := by
  intro hpre
  obtain ⟨⟨avail, rfl⟩, hover⟩ := h
  rw [List.drop_left] at hover
  exact hover.not_complete ((List.prefix_append_right_inj _).mp hpre)

theorem request_ne_nil (cmd : List Bytes) : request cmd ≠ [] := by
  rw [request, requestLine, List.cons_append]
  exact List.cons_ne_nil _ _

/-- An overlong part is longer than the limit. -/
theorem OverlongRequest.lt_length {cmd : List Bytes} {p : Bytes} (h : OverlongRequest cmd p) :
    PROTO_INLINE_MAX_SIZE < p.length := by
  have hlt := h.2.lt_length
  have hle := h.1.length_le
  rw [List.length_drop] at hlt
  omega

theorem OverlongPrefix.lt_length : ∀ {cmds : List (List Bytes)} {p : Bytes},
    OverlongPrefix cmds p → PROTO_INLINE_MAX_SIZE < p.length := by
  intro cmds
  induction cmds with
  | nil => intro p h; exact h.elim
  | cons cmd cmds ih =>
      intro p h
      rw [OverlongPrefix] at h
      split at h
      · have hlt := ih h
        rw [List.length_drop] at hlt
        omega
      · exact h.lt_length

/-- The complete commands are the first ones. -/
theorem complete_append_drop : ∀ (cmds : List (List Bytes)) (p : Bytes),
    complete cmds p ++ cmds.drop (complete cmds p).length = cmds := by
  intro cmds
  induction cmds with
  | nil => intro p; rfl
  | cons cmd cmds ih =>
      intro p
      rw [complete]
      split
      · rw [List.length_cons, List.drop_succ_cons, List.cons_append, ih]
      · rfl

theorem complete_nil (cmds : List (List Bytes)) : complete cmds [] = [] := by
  cases cmds with
  | nil => rfl
  | cons cmd cmds =>
      rw [complete, if_neg (fun h => request_ne_nil cmd (List.prefix_nil.mp h))]

theorem not_overlongPrefix_nil (cmds : List (List Bytes)) : ¬ OverlongPrefix cmds [] := by
  cases cmds with
  | nil => exact fun h => h
  | cons cmd cmds =>
      rw [OverlongPrefix, if_neg (fun h => request_ne_nil cmd (List.prefix_nil.mp h))]
      rintro ⟨hline, _⟩
      rw [List.prefix_nil, requestLine] at hline
      cases hline

/-- How the loop ends on the part `s.client.querybuf` of the requests, where `t` is the other
part. -/
structure Ends (execute : Execute σ) (s s' : State σ) (cmds : List (List Bytes)) (t : Bytes) :
    Prop where
  served : s.service.Serves execute (complete cmds s.client.querybuf) →
    s'.handed = s.handed ++ complete cmds s.client.querybuf
  unserved : ¬ s.service.Serves execute (complete cmds s.client.querybuf) →
    s'.handed.length < s.handed.length + (complete cmds s.client.querybuf).length
  refused : s.service.Serves execute (complete cmds s.client.querybuf) →
    (s.service.afterAll execute (complete cmds s.client.querybuf)).isOpen = true →
    OverlongPrefix cmds s.client.querybuf → s'.client.errors = s.client.errors ++ tooBigBulk
  clean : ((s.service.afterAll execute (complete cmds s.client.querybuf)).isOpen = true →
    ¬ OverlongPrefix cmds s.client.querybuf) → s'.client.errors = s.client.errors
  ready : s.service.Serves execute (complete cmds s.client.querybuf) →
    (s.service.afterAll execute (complete cmds s.client.querybuf)).isOpen = true →
    ¬ OverlongPrefix cmds s.client.querybuf →
    Ready s'.client (cmds.drop (complete cmds s.client.querybuf).length) t
  closed : s.service.Serves execute (complete cmds s.client.querybuf) →
    (s.service.afterAll execute (complete cmds s.client.querybuf)).isOpen = false →
    s'.service.isOpen = false
  abandoned : ¬ s.service.Serves execute (complete cmds s.client.querybuf) →
    s'.service.isOpen = false
  last : s.service.Serves execute (complete cmds s.client.querybuf) →
    cmds.length = (complete cmds s.client.querybuf).length →
    s'.client.querybuf ++ t = [] ∧ s'.client.multibulklen = 0 ∧ s'.client.bulklen = -1

/-- Out of service, nothing is executed. -/
theorem ends_shut {s' : State σ} {cmds : List (List Bytes)} {t : Bytes}
    (hshut : s.service.isOpen = false) (hshut' : s'.service.isOpen = false)
    (hhanded : s'.handed = s.handed) (herrors : s'.client.errors = s.client.errors)
    (hlast : cmds = [] → s'.client.querybuf ++ t = [] ∧ s'.client.multibulklen = 0
      ∧ s'.client.bulklen = -1) : Ends execute s s' cmds t := by
  have hserves : ∀ done, s.service.Serves execute done → done = [] := by
    intro done h
    cases done with
    | nil => rfl
    | cons cmd done =>
        rw [h.1] at hshut
        cases hshut
  have hclosed : s.service.Serves execute (complete cmds s.client.querybuf) →
      ¬ (s.service.afterAll execute (complete cmds s.client.querybuf)).isOpen = true := by
    intro h hopen
    rw [hserves _ h] at hopen
    rw [Service.afterAll, List.foldl_nil, hshut] at hopen
    cases hopen
  refine ⟨?_, ?_, ?_, fun _ => herrors, ?_, fun _ _ => hshut', fun _ => hshut', ?_⟩
  · intro h
    rw [hserves _ h, List.append_nil, hhanded]
  · intro h
    rw [hhanded]
    have : complete cmds s.client.querybuf ≠ [] := fun hnil => h (by rw [hnil]; trivial)
    have := List.length_pos_of_ne_nil this
    omega
  · exact fun h hopen => absurd hopen (hclosed h)
  · exact fun h hopen => absurd hopen (hclosed h)
  · intro h hlen
    rw [hserves _ h] at hlen
    exact hlast (List.eq_nil_of_length_eq_zero hlen)

/-- Where no command is complete, the loop ends at the part of one that there is. -/
theorem ends_part {s' : State σ} {cmds : List (List Bytes)} {t : Bytes}
    (hnone : complete cmds s.client.querybuf = []) (hhanded : s'.handed = s.handed)
    (hopen : s.service.isOpen = true)
    (hrefused : OverlongPrefix cmds s.client.querybuf →
      s'.client.errors = s.client.errors ++ tooBigBulk)
    (hclean : ¬ OverlongPrefix cmds s.client.querybuf →
      s'.client.errors = s.client.errors ∧ Ready s'.client cmds t)
    (hlast : cmds = [] → s'.client.querybuf ++ t = [] ∧ s'.client.multibulklen = 0
      ∧ s'.client.bulklen = -1) : Ends execute s s' cmds t := by
  refine ⟨?_, ?_, ?_, ?_, ?_, ?_, ?_, ?_⟩
  · intro _
    rw [hnone, List.append_nil, hhanded]
  · intro h
    rw [hnone] at h
    exact absurd trivial h
  · intro _ _ h
    exact hrefused h
  · intro h
    rw [hnone] at h
    exact (hclean (h hopen)).1
  · intro _ _ h
    rw [hnone]
    exact (hclean h).2
  · intro _ h
    rw [hnone, Service.afterAll, List.foldl_nil, hopen] at h
    cases h
  · intro h
    rw [hnone] at h
    exact absurd trivial h
  · intro _ hlen
    rw [hnone] at hlen
    exact hlast (List.eq_nil_of_length_eq_zero hlen)

/-- A complete command in front. -/
theorem Ends.cons {s₁ s' : State σ} {c : Client} {cmd : List Bytes} {cmds : List (List Bytes)}
    {t rest : Bytes} (hopen : s.service.isOpen = true) (hq : s.client.querybuf = request cmd ++ rest)
    (hhanded : Handed execute s s₁ c cmd) (hc : Complete s.client c cmd) (hrest : c.querybuf = rest)
    (h : Ends execute s₁ s' cmds t) : Ends execute s s' (cmd :: cmds) t := by
  have hq₁ : s₁.client.querybuf = rest := hhanded.querybuf.trans hrest
  have hcomplete : complete (cmd :: cmds) s.client.querybuf
      = cmd :: complete cmds s₁.client.querybuf := by
    rw [hq, complete, if_pos (List.prefix_append _ _), List.drop_left, hq₁]
  have hover : OverlongPrefix (cmd :: cmds) s.client.querybuf
      ↔ OverlongPrefix cmds s₁.client.querybuf := by
    rw [hq, OverlongPrefix, if_pos (List.prefix_append _ _), List.drop_left, hq₁]
  have hserves : s.service.Serves execute (cmd :: complete cmds s₁.client.querybuf)
      ↔ s₁.service.Serves execute (complete cmds s₁.client.querybuf) := by
    rw [hhanded.service]
    exact and_iff_right hopen
  have hafter : s.service.afterAll execute (cmd :: complete cmds s₁.client.querybuf)
      = s₁.service.afterAll execute (complete cmds s₁.client.querybuf) := by
    rw [hhanded.service]
    rfl
  have herrors : s₁.client.errors = s.client.errors := hhanded.errors.trans hc.errors
  refine ⟨?_, ?_, ?_, ?_, ?_, ?_, ?_, ?_⟩
  · rw [hcomplete, hserves]
    intro hs
    rw [h.served hs, hhanded.handed, List.append_assoc, List.singleton_append]
  · rw [hcomplete, hserves]
    intro hs
    have hlt := h.unserved hs
    rw [hhanded.handed, List.length_append, List.length_singleton] at hlt
    rw [List.length_cons]
    omega
  · rw [hcomplete, hserves, hafter, hover, ← herrors]
    exact h.refused
  · rw [hcomplete, hafter, hover, ← herrors]
    exact h.clean
  · rw [hcomplete, hserves, hafter, hover, List.length_cons, List.drop_succ_cons]
    exact h.ready
  · rw [hcomplete, hserves, hafter]
    exact h.closed
  · rw [hcomplete, hserves]
    exact h.abandoned
  · rw [hcomplete, hserves, List.length_cons, List.length_cons]
    exact fun hs hlen => h.last hs (Nat.succ.inj hlen)

/-- The end of a pause is found once. -/
theorem clientsArePaused_again (server : Server σ) :
    (clientsArePaused (clientsArePaused server).1).2 = (clientsArePaused server).2 := by
  unfold clientsArePaused
  by_cases hend : (server.clientsPaused && decide (server.clientsPauseEndTime < server.mstime)) = true
  · rw [if_pos hend]
    rfl
  · rw [if_neg hend]
    dsimp only
    rw [if_neg hend]

theorem Service.pausedNow_again (v : Service σ) :
    (Service.mk v.pausedNow.1 v.flags v.freed).pausedNow.2 = v.pausedNow.2 := by
  cases hslave : v.flags.slave with
  | true => simp [Service.pausedNow, hslave]
  | false => simp [Service.pausedNow, hslave, clientsArePaused_again]

theorem isOpen_pausedNow : ({ s with server := s.service.pausedNow.1 } : State σ).service.isOpen
    = s.service.isOpen := by
  have hpaused := s.service.pausedNow_again
  show (!((Service.mk s.service.pausedNow.1 s.service.flags s.service.freed).pausedNow.2 || _ || _ || _) && _)
    = _
  rw [hpaused]
  rfl

theorem inputLoop_nil {fuel : Nat} (h : s.client.querybuf = []) :
    inputLoop execute fuel s = .ok s := by
  have hlen : s.client.querybuf.length = 0 := by rw [h]; rfl
  cases fuel with
  | zero => rw [inputLoop, if_pos hlen]
  | succ fuel => rw [inputLoop, if_pos hlen]

theorem inputLoop_turn {fuel : Nat} {s' : State σ} {again : Bool} (hne : s.client.querybuf ≠ [])
    (hturn : turn execute s = .ok (s', again)) :
    inputLoop execute (fuel + 1) s = if again then inputLoop execute fuel s' else .ok s' := by
  have hlen : ¬ s.client.querybuf.length = 0 := fun h => hne (List.eq_nil_of_length_eq_zero h)
  rw [inputLoop, if_neg hlen, hturn]
  rfl

/-- The loop on a part of some requests. -/
theorem inputLoop_begins : ∀ (cmds : List (List Bytes)) (fuel : Nat) (s : State σ) {t : Bytes},
    (∀ cmd ∈ cmds, Valid cmd) → s.freed = false → (s.service.isOpen = true → Idle s.client) →
    s.client.multibulklen = 0 ∧ s.client.bulklen = -1 →
    s.client.querybuf.length ≤ PROTO_MAX_QUERYBUF_LEN → s.client.querybuf.length ≤ fuel →
    s.client.querybuf ++ t = cmds.flatMap request →
    ∃ s', inputLoop execute fuel s = .ok s' ∧ Ends execute s s' cmds t := by
  intro cmds
  induction cmds with
  | nil =>
      intro fuel s t _ hfree hidle hlens _ _ heq
      have hq : s.client.querybuf = [] := (List.append_eq_nil_iff.mp heq).1
      refine ⟨s, inputLoop_nil hq, ?_⟩
      by_cases hopen : s.service.isOpen = true
      · exact ends_part rfl rfl hopen (fun h => h.elim) (fun _ => ⟨rfl, hidle hopen, heq⟩)
          (fun _ => ⟨heq, hlens⟩)
      · exact ends_shut (by simpa using hopen) (by simpa using hopen) rfl rfl
          (fun _ => ⟨heq, hlens⟩)
  | cons cmd cmds ih =>
      intro fuel s t hvalid hfree hidle hlens hfit hfuel heq
      have hcmd : Valid cmd := hvalid cmd (List.mem_cons_self ..)
      have heq' : s.client.querybuf ++ t = request cmd ++ cmds.flatMap request := by
        rw [heq, List.flatMap_cons]
      by_cases hopen : s.service.isOpen = true
      · by_cases hq : s.client.querybuf = []
        · -- nothing has come of the command
          refine ⟨s, inputLoop_nil hq, ends_part (by rw [hq]; exact complete_nil _) rfl hopen ?_ ?_
            (fun h => absurd h (List.cons_ne_nil _ _))⟩
          · intro h
            rw [hq] at h
            exact absurd h (not_overlongPrefix_nil _)
          · intro _
            refine ⟨rfl, .line (hidle hopen) heq' ?_⟩
            rw [hq, length_requestLine, List.length_nil]
            omega
        · obtain ⟨fuel, rfl⟩ : ∃ k, fuel = k + 1 := by
            have := List.length_pos_of_ne_nil hq
            exact ⟨fuel - 1, by omega⟩
          have hparse := parse_request (hidle hopen) hcmd hfit hq heq'
          have hpart : ¬ request cmd <+: s.client.querybuf →
              complete (cmd :: cmds) s.client.querybuf = [] ∧
              (OverlongPrefix (cmd :: cmds) s.client.querybuf
                ↔ OverlongRequest cmd s.client.querybuf) := by
            intro h
            rw [complete, if_neg h, OverlongPrefix, if_neg h]
            exact ⟨rfl, Iff.rfl⟩
          by_cases hover : OverlongRequest cmd s.client.querybuf
          · rw [if_pos hover] at hparse
            obtain ⟨c, hok, href⟩ := hparse
            obtain ⟨hnone, hiff⟩ := hpart hover.not_complete
            refine ⟨_, (inputLoop_turn hq (turn_open hopen hok)).trans rfl,
              ends_part hnone rfl hopen (fun _ => href.errors) ?_
                (fun h => absurd h (List.cons_ne_nil _ _))⟩
            exact fun h => absurd (hiff.mpr hover) h
          · rw [if_neg hover] at hparse
            by_cases hwhole : request cmd <+: s.client.querybuf
            · rw [if_pos hwhole] at hparse
              obtain ⟨c, hok, hc, hrest⟩ := hparse
              obtain ⟨rest, hsplit⟩ := hwhole
              have hcq : c.querybuf = rest := by
                rw [← hsplit, List.append_assoc] at heq'
                exact List.append_cancel_right (hrest.trans (List.append_cancel_left heq').symm)
              obtain ⟨s₁, hturn, hhanded⟩ : ∃ s₁, turn execute s = .ok (s₁, !s₁.freed)
                  ∧ Handed execute s s₁ c cmd := turn_complete hopen hok hc hcmd.nonempty
              have hq₁ : s₁.client.querybuf = rest := hhanded.querybuf.trans hcq
              have hpos : 0 < (request cmd).length := List.length_pos_of_ne_nil (request_ne_nil cmd)
              have hlen : (request cmd).length + rest.length = s.client.querybuf.length := by
                rw [← hsplit, List.length_append]
              rw [inputLoop_turn hq hturn]
              cases hfree₁ : s₁.freed with
              | true =>
                  refine ⟨s₁, rfl, Ends.cons hopen hsplit.symm hhanded hc hcq ?_⟩
                  have hshut : s₁.service.isOpen = false := by
                    simp [Service.isOpen, State.service, hfree₁]
                  refine ends_shut hshut hshut rfl rfl ?_
                  rintro rfl
                  refine ⟨?_, hhanded.multibulklen, hhanded.bulklen⟩
                  rw [hq₁, ← hcq]
                  exact hrest
              | false =>
                  obtain ⟨s', hloop, hends⟩ := ih fuel s₁ (fun x hx =>
                      hvalid x (List.mem_cons_of_mem _ hx)) hfree₁ hhanded.idle
                    ⟨hhanded.multibulklen, hhanded.bulklen⟩
                    (by rw [hq₁]; omega) (by rw [hq₁]; omega) (by rw [hq₁, ← hcq]; exact hrest)
                  exact ⟨s', hloop, Ends.cons hopen hsplit.symm hhanded hc hcq hends⟩
            · rw [if_neg hwhole] at hparse
              obtain ⟨c, hok, hwaits, _, herrors⟩ := hparse
              obtain ⟨hnone, hiff⟩ := hpart hwhole
              refine ⟨_, (inputLoop_turn hq (turn_open hopen hok)).trans rfl,
                ends_part hnone rfl hopen ?_ (fun _ => ⟨herrors, hwaits⟩)
                  (fun h => absurd h (List.cons_ne_nil _ _))⟩
              exact fun h => absurd (hiff.mp h) hover
      · have hclosed : s.service.isOpen = false := by simpa using hopen
        by_cases hq : s.client.querybuf = []
        · exact ⟨s, inputLoop_nil hq, ends_shut hclosed hclosed rfl rfl
            (fun h => absurd h (List.cons_ne_nil _ _))⟩
        · obtain ⟨fuel, rfl⟩ : ∃ k, fuel = k + 1 := by
            have := List.length_pos_of_ne_nil hq
            exact ⟨fuel - 1, by omega⟩
          have hshut : s.service.isShut = true := by
            have : (!s.service.isShut && !s.freed) = false := hclosed
            simpa [hfree] using this
          exact ⟨_, (inputLoop_turn hq (turn_shut hshut)).trans rfl,
            ends_shut hclosed (isOpen_pausedNow.trans hclosed) rfl rfl
              (fun h => absurd h (List.cons_ne_nil _ _))⟩

/-! ## What is accepted -/

/-- A fresh client whose buffer holds `p`. -/
def arrived (server : Server σ) (p : Bytes) : State σ where
  server := server
  client := { Client.fresh with querybuf := p }
  handed := []
  freed := false

/-- The complete commands of the buffer are executed, no error is sent, and the client is ready
for the rest `t`. -/
def Accepted (execute : Execute σ) (server : Server σ) (cmds : List (List Bytes)) (p t : Bytes) :
    Prop :=
  ∃ s', processInputBuffer execute (arrived server p) = .ok s'
    ∧ s'.handed = complete cmds p ∧ s'.client.errors = []
    ∧ (((arrived server p).service.afterAll execute (complete cmds p)).isOpen = true →
        Ready s'.client (cmds.drop (complete cmds p).length) t)

/-- The run on a prefix. -/
theorem processInputBuffer_prefix (execute : Execute σ) (server : Server σ)
    {cmds : List (List Bytes)} {p t : Bytes} (hvalid : ∀ cmd ∈ cmds, Valid cmd)
    (hp : p ++ t = cmds.flatMap request) (hfit : p.length ≤ PROTO_MAX_QUERYBUF_LEN) :
    ∃ s', processInputBuffer execute (arrived server p) = .ok s'
      ∧ Ends execute (arrived server p) s' cmds t :=
  inputLoop_begins cmds p.length (arrived server p) hvalid rfl
    (fun _ => ⟨rfl, rfl, rfl, fun h => by cases h⟩) ⟨rfl, rfl⟩ hfit (Nat.le_refl _) hp

/-- A prefix with an overlong end is not accepted. -/
theorem not_accepted_of_overlong {execute : Execute σ} {server : Server σ}
    {cmds : List (List Bytes)} {p t : Bytes} (hvalid : ∀ cmd ∈ cmds, Valid cmd)
    (hp : p ++ t = cmds.flatMap request) (hfit : p.length ≤ PROTO_MAX_QUERYBUF_LEN)
    (hserves : (arrived server p).service.Serves execute (complete cmds p))
    (hopen : ((arrived server p).service.afterAll execute (complete cmds p)).isOpen = true)
    (hover : OverlongPrefix cmds p) : ¬ Accepted execute server cmds p t := by
  obtain ⟨s', hend, hends⟩ := processInputBuffer_prefix execute server hvalid hp hfit
  rintro ⟨s'', hrun, _, herrors, _⟩
  rw [hend, Except.ok.injEq] at hrun
  subst hrun
  have hreply : tooBigBulk ≠ [] := List.cons_ne_nil _ _
  have := hends.refused hserves hopen hover
  rw [herrors] at this
  exact hreply (List.append_eq_nil_iff.mp this.symm).2

/-- A prefix of a pipeline is accepted if and only if no complete command but the last takes the
client out of service and, with the client still in service, the rest is not overlong. -/
theorem prefix_accepted_iff (execute : Execute σ) (server : Server σ) {cmds : List (List Bytes)}
    {p t : Bytes} (hvalid : ∀ cmd ∈ cmds, Valid cmd) (hp : p ++ t = cmds.flatMap request)
    (hfit : p.length ≤ PROTO_MAX_QUERYBUF_LEN) :
    Accepted execute server cmds p t ↔
      (arrived server p).service.Serves execute (complete cmds p) ∧
      (((arrived server p).service.afterAll execute (complete cmds p)).isOpen = true →
        ¬ OverlongPrefix cmds p) := by
  obtain ⟨s', hend, hends⟩ := processInputBuffer_prefix execute server hvalid hp hfit
  constructor
  · intro haccepted
    have hserves : (arrived server p).service.Serves execute (complete cmds p) := by
      by_contra hno
      obtain ⟨s'', hrun, hhanded, _, _⟩ := haccepted
      rw [hend, Except.ok.injEq] at hrun
      subst hrun
      have hlt := hends.unserved hno
      rw [hhanded] at hlt
      exact absurd hlt (by simp [arrived])
    exact ⟨hserves, fun hopen hover =>
      not_accepted_of_overlong hvalid hp hfit hserves hopen hover haccepted⟩
  · rintro ⟨hserves, hnot⟩
    exact ⟨s', hend, hends.served hserves, hends.clean hnot,
      fun hopen => hends.ready hserves hopen (hnot hopen)⟩

/-- A server whose commands leave the client in service. -/
def plainServer : Server Unit := ⟨(), false, 0, 0⟩

def plainExecute : Execute Unit := fun server flags _ => ⟨server, flags, false⟩

/-- A command and a part of the next one. -/
theorem prefix_accepted_get : Accepted plainExecute plainServer
    [[cstr "GET", cstr "a"], [cstr "PING"]] (cstr "*2\r\n$3\r\nGET\r\n$1\r\na\r\n*1\r\n$4")
    (cstr "\r\nPING\r\n") := by
  have hget : request [cstr "GET", cstr "a"] = cstr "*2\r\n$3\r\nGET\r\n$1\r\na\r\n" := by
    simp [request, requestLine, bulk, bulkLine, cstr, decNat_of_lt, digit]
  have hping : request [cstr "PING"] = cstr "*1\r\n$4\r\nPING\r\n" := by
    simp [request, requestLine, bulk, bulkLine, cstr, decNat_of_lt, digit]
  have hcomplete : complete [[cstr "GET", cstr "a"], [cstr "PING"]]
      (cstr "*2\r\n$3\r\nGET\r\n$1\r\na\r\n*1\r\n$4") = [[cstr "GET", cstr "a"]] := by
    rw [complete, complete, hget, hping]
    decide
  refine (prefix_accepted_iff plainExecute plainServer ?_ ?_ (by decide)).mpr ⟨?_, ?_⟩
  · intro cmd hcmd
    simp only [List.mem_cons, List.not_mem_nil, or_false] at hcmd
    rcases hcmd with rfl | rfl
    · exact ⟨by decide, by decide, by decide⟩
    · exact ⟨by decide, by decide, by decide⟩
  · rw [List.flatMap_cons, List.flatMap_cons, hget, hping]
    rfl
  · rw [hcomplete]
    exact ⟨by decide, trivial⟩
  · intro _
    rw [OverlongPrefix, OverlongPrefix, hget, hping, if_pos (by decide), if_neg (by decide)]
    intro hover
    exact absurd hover.lt_length (by decide)

/-- A command whose first two arguments are not big but too long together. -/
theorem prefix_rejected_of_length {a : Bytes} (ha : a.length = 32767) :
    Valid [a, a, [98]] ∧ requestLine 3 ++ (bulk a ++ bulk a) ++ bulk [98] = request [a, a, [98]]
      ∧ ¬ Accepted plainExecute plainServer [[a, a, [98]]] (requestLine 3 ++ (bulk a ++ bulk a))
          (bulk [98]) := by
  have hvalid : Valid [a, a, [98]] := by
    refine ⟨List.cons_ne_nil _ _, by simp, ?_⟩
    intro b hb
    simp only [List.mem_cons, List.not_mem_nil, or_false] at hb
    rcases hb with rfl | rfl | rfl
    · omega
    · omega
    · simp
  have hsplit : requestLine 3 ++ (bulk a ++ bulk a) ++ bulk [98] = request [a, a, [98]] := by
    simp [request]
  have hdigits : (decNat a.length).length = 5 := by
    rw [ha]
    exact length_decNat_of (by omega) (by omega)
  have hbulk : (bulk a).length = 32777 := by
    rw [length_bulk]
    omega
  have hline : (requestLine 3).length = 4 := by
    rw [length_requestLine, decNat_of_lt (by decide)]
    rfl
  have hp : requestLine 3 ++ (bulk a ++ bulk a) ++ bulk [98] = [[a, a, [98]]].flatMap request := by
    rw [hsplit, List.flatMap_singleton]
  have hnone : ¬ request [a, a, [98]] <+: requestLine 3 ++ (bulk a ++ bulk a) := by
    intro h
    have := h.length_le
    rw [← hsplit, List.length_append, length_bulk] at this
    omega
  have hcomplete : complete [[a, a, [98]]] (requestLine 3 ++ (bulk a ++ bulk a)) = [] := by
    rw [complete, if_neg hnone]
  have hsmall : ¬ PROTO_MBULK_BIG_ARG ≤ a.length := by
    unfold PROTO_MBULK_BIG_ARG
    omega
  have hover : Overlong (requestLine 3).length [a, a, [98]] (bulk a ++ bulk a) := by
    rw [overlong_full, kept, if_neg hsmall]
    have htwo := overlong_full (requestLine 3 ++ bulk a) a [[98]] []
    rw [List.append_nil] at htwo
    rw [htwo, kept, if_neg hsmall, Overlong, if_neg (by simp [bulk, bulkLine])]
    refine ⟨List.not_mem_nil, ?_⟩
    simp only [List.length_append, List.length_nil]
    unfold PROTO_INLINE_MAX_SIZE
    omega
  have hlen : (requestLine 3 ++ (bulk a ++ bulk a)).length ≤ PROTO_MAX_QUERYBUF_LEN := by
    simp only [List.length_append]
    unfold PROTO_MAX_QUERYBUF_LEN
    omega
  refine ⟨hvalid, hsplit, not_accepted_of_overlong ?_ hp hlen ?_ ?_ ?_⟩
  · intro cmd hcmd
    rw [List.mem_singleton] at hcmd
    rw [hcmd]
    exact hvalid
  · rw [hcomplete]
    trivial
  · rw [hcomplete]
    rfl
  · rw [OverlongPrefix, if_neg hnone]
    refine ⟨List.prefix_append _ _, ?_⟩
    show Overlong (requestLine 3).length [a, a, [98]]
      ((requestLine 3 ++ (bulk a ++ bulk a)).drop (requestLine 3).length)
    rw [List.drop_left]
    exact hover

/-- Two arguments of 32767 bytes each, and nothing yet of the third. -/
theorem prefix_rejected : Valid [List.replicate 32767 97, List.replicate 32767 97, [98]]
    ∧ requestLine 3 ++ (bulk (List.replicate 32767 97) ++ bulk (List.replicate 32767 97)) ++ bulk [98]
        = request [List.replicate 32767 97, List.replicate 32767 97, [98]]
    ∧ ¬ Accepted plainExecute plainServer
        [[List.replicate 32767 97, List.replicate 32767 97, [98]]]
        (requestLine 3 ++ (bulk (List.replicate 32767 97) ++ bulk (List.replicate 32767 97)))
        (bulk [98]) :=
  prefix_rejected_of_length List.length_replicate

end Query

end RedisCore
