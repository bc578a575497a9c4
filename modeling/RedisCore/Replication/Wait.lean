/-
# `RedisCore.Replication.Wait` — waiting for acknowledgements (replication.c, blocked.c)

WAIT answers at once if enough slaves have acknowledged the offset of the client, and
otherwise blocks the client and puts it on `clients_waiting_acks`.
`processClientsWaitingReplicas` answers the clients for which enough slaves have
acknowledged; it reuses the last count for clients that ask for less.

The counts are right, also the reused ones.  But `unblockClient` has no body any more: a
client that is answered stays blocked and on the list, and the next call answers it again.
So the runs that are right are those in which nobody is answered, as `waits_right_iff` says.

`blockClient` and the parsing of the timeout are not in the repository; they are a parameter
and an argument.
-/
import RedisCore.Networking.Clients

namespace RedisCore

namespace Wait

open CInt Clients

/-- The fields of `bpop` for WAIT. -/
structure BlockingState where
  timeout : Int
  numreplicas : Int
  reploffset : Int
  deriving DecidableEq

/-- The fields of a client for WAIT. -/
structure Client where
  woff : Int
  multi : Bool
  blocked : Bool
  bpop : BlockingState
  deriving DecidableEq

/-- The fields of a slave for acknowledgements. -/
structure Slave where
  replstate : ReplState
  replAckOff : Int
  deriving DecidableEq

/-- The fields of `server` for WAIT. -/
structure Server where
  client : ClientId → Client
  slaves : List Slave
  clientsWaitingAcks : List ClientId
  getAckFromSlaves : Bool

def Server.setClient (s : Server) (c : ClientId) (k : Client) : Server :=
  { s with client := Function.update s.client c k }

/-- A number sent to a client. -/
abbrev Reply := ClientId × Int

/-- `replicationCountAcksByOffset`; the count is an `int`. -/
def replicationCountAcksByOffset (s : Server) (offset : Int) : Nat :=
  s.slaves.countP (fun slave =>
    decide (slave.replstate = .online) && decide (slave.replAckOff ≥ offset))

/-- `replicationRequestAckFromSlaves`. -/
def replicationRequestAckFromSlaves (s : Server) : Server := { s with getAckFromSlaves := true }

variable (blockClient : Client → Client)

/-- `waitCommand`: the state and the number it answers, if any.  The arguments are `none` where
they are answered with an error. -/
def waitCommand (s : Server) (c : ClientId) (argv₁ : Robj) (timeout : Option Int) :
    Server × Option Int :=
  match getLongLongFromObject argv₁, timeout with
  | some numreplicas, some timeout =>
      let k := s.client c
      let ackreplicas := replicationCountAcksByOffset s k.woff
      if ackreplicas ≥ numreplicas ∨ k.multi = true then (s, some ackreplicas)
      else
        -- `numreplicas` is a `long` here and an `int` in `bpop`
        let k := { k with bpop := ⟨timeout, toInt numreplicas, k.woff⟩ }
        let s := { s with clientsWaitingAcks := s.clientsWaitingAcks ++ [c] }
        (replicationRequestAckFromSlaves (s.setClient c (blockClient k)), none)
  | _, _ => (s, none)

/-- `unblockClient`, whose body is commented out. -/
def unblockClient (s : Server) (_c : ClientId) : Server := s

/-- The loop of `processClientsWaitingReplicas`. -/
def processLoop : List ClientId → Int → Int → Server → Server × List Reply
  | [], _, _, s => (s, [])
  | c :: rest, lastOffset, lastNumreplicas, s =>
      let bpop := (s.client c).bpop
      if lastOffset ≠ 0 ∧ lastOffset > bpop.reploffset ∧ lastNumreplicas > bpop.numreplicas then
        let r := processLoop rest lastOffset lastNumreplicas (unblockClient s c)
        (r.1, (c, lastNumreplicas) :: r.2)
      else
        let numreplicas := replicationCountAcksByOffset s bpop.reploffset
        if numreplicas ≥ bpop.numreplicas then
          let r := processLoop rest bpop.reploffset numreplicas (unblockClient s c)
          (r.1, (c, numreplicas) :: r.2)
        else processLoop rest lastOffset lastNumreplicas s

/-- `processClientsWaitingReplicas`. -/
def processClientsWaitingReplicas (s : Server) : Server × List Reply :=
  processLoop s.clientsWaitingAcks 0 0 s

/-! ## Runs -/

/-- What happens: a client sends WAIT or another command, the slaves or their
acknowledgements change, the waiting clients are looked at. -/
inductive Step
  | wait (c : ClientId) (argv₁ : Robj) (timeout : Option Int)
  | command (c : ClientId) (woff : Int) (multi : Bool)
  | slaves (l : List Slave)
  | process

/-- What can be seen of it: a client is blocked for a number of replicas, or the waiting
clients are looked at. -/
inductive Event
  | blocked (c : ClientId) (numreplicas : Int)
  | processed (before : Server) (replies : List Reply) (after : Server)

/-- A step; commands of a blocked client are not processed. -/
def step (s : Server) : Step → Server × List Event
  | .wait c argv₁ timeout =>
      if (s.client c).blocked then (s, [])
      else
        let s' := (waitCommand blockClient s c argv₁ timeout).1
        (s', if s'.clientsWaitingAcks = s.clientsWaitingAcks then []
          else [.blocked c ((getLongLongFromObject argv₁).getD 0)])
  | .command c woff multi =>
      if (s.client c).blocked then (s, [])
      else (s.setClient c { s.client c with woff := woff, multi := multi }, [])
  | .slaves l => ({ s with slaves := l }, [])
  | .process =>
      let r := processClientsWaitingReplicas s
      (r.1, [.processed s r.2 r.1])

/-- The events of a run. -/
def trace (s : Server) : List Step → List Event
  | [] => []
  | a :: rest => (step blockClient s a).2 ++ trace (step blockClient s a).1 rest

/-- A server on which no client waits. -/
def freshServer : Server where
  client _ := ⟨0, false, false, ⟨0, 0, 0⟩⟩
  slaves := []
  clientsWaitingAcks := []
  getAckFromSlaves := false

/-! ## What WAIT promises -/

/-- The online slaves that have acknowledged the offset of a client. -/
def acknowledged (s : Server) (c : ClientId) : Nat :=
  replicationCountAcksByOffset s (s.client c).bpop.reploffset

/-- One look at the waiting clients is right: `asked` is the number of replicas of each WAIT
that is not answered yet. -/
structure CallRight (asked : ClientId → Option Int) (before : Server) (replies : List Reply)
    (after : Server) : Prop where
  once : (replies.map Prod.fst).Nodup
  answered : ∀ c, (∃ n, (c, n) ∈ replies) ↔ ∃ k, asked c = some k ∧ k ≤ acknowledged before c
  number : ∀ c n k, (c, n) ∈ replies → asked c = some k → k ≤ n ∧ n ≤ acknowledged before c
  leaves : ∀ c n, (c, n) ∈ replies →
    c ∉ after.clientsWaitingAcks ∧ (after.client c).blocked = false

/-- The events of a run are right: every call is, and a WAIT that was answered is over. -/
def Right : (ClientId → Option Int) → List Event → Prop
  | _, [] => True
  | asked, .blocked c k :: rest => Right (Function.update asked c (some k)) rest
  | asked, .processed before replies after :: rest =>
      CallRight asked before replies after ∧
        Right (fun c => if c ∈ replies.map Prod.fst then none else asked c) rest

/-- In no call enough slaves have acknowledged the offset of a waiting client. -/
def NobodyServed (events : List Event) : Prop :=
  ∀ before replies after, Event.processed before replies after ∈ events →
    ∀ c ∈ before.clientsWaitingAcks, ¬ (before.client c).bpop.numreplicas ≤ acknowledged before c

/-- The clients that are answered are those with enough acknowledgements, and the number is
at least the one in `bpop` and at most the true one. -/
def CallSound (before : Server) (replies : List Reply) : Prop :=
  (∀ c ∈ before.clientsWaitingAcks, (∃ n, (c, n) ∈ replies) ↔
      (before.client c).bpop.numreplicas ≤ acknowledged before c) ∧
    ∀ c n, (c, n) ∈ replies → c ∈ before.clientsWaitingAcks ∧
      (before.client c).bpop.numreplicas ≤ n ∧ n ≤ acknowledged before c

/-! ## The counts -/

variable {blockClient} {s : Server} {c : ClientId}

/-- More slaves have acknowledged a smaller offset. -/
theorem countAcks_antitone {o o' : Int} (h : o ≤ o') :
    replicationCountAcksByOffset s o' ≤ replicationCountAcksByOffset s o := by
  unfold replicationCountAcksByOffset
  refine List.countP_mono_left fun slave _ hack => ?_
  rw [Bool.and_eq_true, decide_eq_true_eq, decide_eq_true_eq] at hack ⊢
  exact ⟨hack.1, Int.le_trans h hack.2⟩

theorem processLoop_state : ∀ (l : List ClientId) (o n : Int) (s : Server),
    (processLoop l o n s).1 = s := by
  intro l
  induction l with
  | nil =>
      intro o n s
      rfl
  | cons c rest ih =>
      intro o n s
      unfold processLoop
      dsimp only
      split
      · exact ih _ _ _
      · split
        · exact ih _ _ _
        · exact ih _ _ _

/-- The loop answers those with enough acknowledgements; the last count is a true one. -/
theorem processLoop_sound : ∀ (l : List ClientId) (o n : Int),
    n ≤ replicationCountAcksByOffset s o ∨ o = 0 →
    (∀ c ∈ l, (∃ m, (c, m) ∈ (processLoop l o n s).2) ↔
      (s.client c).bpop.numreplicas ≤ acknowledged s c) ∧
    ∀ c m, (c, m) ∈ (processLoop l o n s).2 → c ∈ l ∧
      (s.client c).bpop.numreplicas ≤ m ∧ m ≤ acknowledged s c := by
  intro l
  induction l with
  | nil =>
      intro o n _
      exact ⟨(fun c hc => by cases hc), fun c m hm => by cases hm⟩
  | cons c rest ih =>
      intro o n hlast
      -- an answer to the first client, and the rest of the loop
      have hcons : ∀ (o' n' m : Int), n' ≤ replicationCountAcksByOffset s o' ∨ o' = 0 →
          (s.client c).bpop.numreplicas ≤ m → m ≤ acknowledged s c →
          (∀ x ∈ c :: rest, (∃ m', (x, m') ∈ (c, m) :: (processLoop rest o' n' s).2) ↔
            (s.client x).bpop.numreplicas ≤ acknowledged s x) ∧
          ∀ x m', (x, m') ∈ (c, m) :: (processLoop rest o' n' s).2 → x ∈ c :: rest ∧
            (s.client x).bpop.numreplicas ≤ m' ∧ m' ≤ acknowledged s x := by
        intro o' n' m hlast' hlow hhigh
        obtain ⟨hiff, hbound⟩ := ih o' n' hlast'
        constructor
        · intro x hx
          constructor
          · rintro ⟨m', hm'⟩
            rcases List.mem_cons.mp hm' with heq | hm'
            · cases heq
              exact Int.le_trans hlow hhigh
            · exact Int.le_trans (hbound x m' hm').2.1 (hbound x m' hm').2.2
          · intro henough
            rcases List.mem_cons.mp hx with rfl | hx
            · exact ⟨m, List.mem_cons_self⟩
            · obtain ⟨m', hm'⟩ := (hiff x hx).mpr henough
              exact ⟨m', List.mem_cons_of_mem _ hm'⟩
        · intro x m' hm'
          rcases List.mem_cons.mp hm' with heq | hm'
          · cases heq
            exact ⟨List.mem_cons_self, hlow, hhigh⟩
          · exact ⟨List.mem_cons_of_mem _ (hbound x m' hm').1, (hbound x m' hm').2⟩
      unfold processLoop
      dsimp only
      split
      · next hfast =>
          -- the last count was for a larger offset
          obtain ⟨ho, hoff, hnum⟩ := hfast
          have hn := hlast.resolve_right ho
          have hanti := countAcks_antitone (s := s) (Int.le_of_lt hoff)
          refine hcons o n n hlast (Int.le_of_lt hnum) ?_
          show n ≤ ((acknowledged s c : Nat) : Int)
          unfold acknowledged
          omega
      · split
        · next henough =>
            exact hcons _ _ _ (.inl (Int.le_refl _)) henough (Int.le_refl _)
        · next hfew =>
            obtain ⟨hiff, hbound⟩ := ih o n hlast
            constructor
            · intro x hx
              rcases List.mem_cons.mp hx with rfl | hx
              · constructor
                · rintro ⟨m, hm⟩
                  exact Int.le_trans (hbound x m hm).2.1 (hbound x m hm).2.2
                · exact fun henough => (hfew henough).elim
              · exact hiff x hx
            · intro x m hm
              exact ⟨List.mem_cons_of_mem _ (hbound x m hm).1, (hbound x m hm).2⟩

theorem processClients_sound (s : Server) :
    CallSound s (processClientsWaitingReplicas s).2 :=
  processLoop_sound _ 0 0 (.inr rfl)

theorem processClients_state (s : Server) : (processClientsWaitingReplicas s).1 = s :=
  processLoop_state _ _ _ _

/-! ## Runs in which nobody is answered -/

variable (blockClient) in
/-- `blockClient` sets the flag and keeps what WAIT stored in `bpop`. -/
def Blocks : Prop := ∀ k, (blockClient k).blocked = true ∧ (blockClient k).bpop = k.bpop

/-- The WAITs that are not answered: the client is on the list and stays blocked. -/
def Pending (asked : ClientId → Option Int) (s : Server) : Prop :=
  ∀ c k, asked c = some k →
    c ∈ s.clientsWaitingAcks ∧ (s.client c).blocked = true ∧ 1 ≤ k ∧
      (s.client c).bpop.numreplicas = toInt k

/-- What WAIT does when it blocks. -/
theorem waitCommand_cases (s : Server) (c : ClientId) (argv₁ : Robj) (timeout : Option Int) :
    (waitCommand blockClient s c argv₁ timeout).1 = s ∨
    ∃ numreplicas t, getLongLongFromObject argv₁ = some numreplicas ∧ 1 ≤ numreplicas ∧
      (waitCommand blockClient s c argv₁ timeout).1 =
        replicationRequestAckFromSlaves
          (Server.setClient { s with clientsWaitingAcks := s.clientsWaitingAcks ++ [c] } c
            (blockClient { s.client c with
              bpop := ⟨t, toInt numreplicas, (s.client c).woff⟩ })) := by
  unfold waitCommand
  rcases hn : getLongLongFromObject argv₁ with _ | numreplicas
  · exact .inl rfl
  rcases timeout with _ | t
  · exact .inl rfl
  dsimp only
  split
  · exact .inl rfl
  · next hblock =>
      refine .inr ⟨numreplicas, t, rfl, ?_, rfl⟩
      have hfew : ¬ (replicationCountAcksByOffset s (s.client c).woff : Int) ≥ numreplicas :=
        fun h => hblock (.inl h)
      omega

/-- An `int` that was a positive `long` is not larger. -/
theorem toInt_le {k : Int} (hk : 1 ≤ k) : toInt k ≤ k := by
  unfold toInt
  rw [Int.bmod_def]
  have hmod : k % ((2 ^ 32 : Nat) : Int) ≤ k := by omega
  split <;> omega

/-- The bookkeeping of a run: the WAITs that are asked after an event. -/
def askedAfter (asked : ClientId → Option Int) : Event → ClientId → Option Int
  | .blocked c k => Function.update asked c (some k)
  | .processed _ replies _ => fun c => if c ∈ replies.map Prod.fst then none else asked c

/-- A WAIT keeps the bookkeeping. -/
theorem wait_pending {asked : ClientId → Option Int} (hblocks : Blocks blockClient)
    (argv₁ : Robj) (timeout : Option Int) (hidle : (s.client c).blocked = false)
    (hp : Pending asked s) :
    Pending ((step blockClient s (.wait c argv₁ timeout)).2.foldl askedAfter asked)
      (step blockClient s (.wait c argv₁ timeout)).1 := by
  have hstep : step blockClient s (.wait c argv₁ timeout) =
      ((waitCommand blockClient s c argv₁ timeout).1,
        if (waitCommand blockClient s c argv₁ timeout).1.clientsWaitingAcks =
          s.clientsWaitingAcks then []
        else [.blocked c ((getLongLongFromObject argv₁).getD 0)]) := by
    unfold step
    dsimp only
    rw [if_neg (by rw [hidle]; exact Bool.false_ne_true)]
  rw [hstep]
  rcases @waitCommand_cases blockClient s c argv₁ timeout with heq | hwait
  · rw [heq, if_pos rfl]
    exact hp
  · obtain ⟨numreplicas, t, hn, hpos, heq⟩ := hwait
    have hlist : (waitCommand blockClient s c argv₁ timeout).1.clientsWaitingAcks =
        s.clientsWaitingAcks ++ [c] := by
      rw [heq]
      rfl
    rw [if_neg (by rw [hlist]; simp), hn, heq]
    intro x k hx
    by_cases hxc : x = c
    · subst hxc
      have hk : numreplicas = k := by
        simpa [askedAfter] using hx
      subst hk
      obtain ⟨hflag, hbpop⟩ := hblocks { s.client x with
        bpop := ⟨t, toInt numreplicas, (s.client x).woff⟩ }
      simp only [replicationRequestAckFromSlaves, Server.setClient, Function.update_self]
      exact ⟨by simp, hflag, hpos, by rw [hbpop]⟩
    · have hx' : asked x = some k := by
        simpa [askedAfter, Function.update_of_ne hxc] using hx
      obtain ⟨hmem, hrest⟩ := hp x k hx'
      simp only [replicationRequestAckFromSlaves, Server.setClient,
        Function.update_of_ne hxc]
      exact ⟨List.mem_append_left _ hmem, hrest⟩

/-- A step keeps the bookkeeping as long as nobody is answered. -/
theorem step_pending {asked : ClientId → Option Int} (hblocks : Blocks blockClient) (a : Step)
    (hnobody : NobodyServed (step blockClient s a).2) (hp : Pending asked s) :
    Pending ((step blockClient s a).2.foldl askedAfter asked) (step blockClient s a).1 := by
  rcases a with ⟨c, argv₁, timeout⟩ | ⟨c, woff, multi⟩ | l | _
  · rcases hb : (s.client c).blocked
    · exact wait_pending hblocks argv₁ timeout hb hp
    · simp only [step, hb, if_true, List.foldl_nil]
      exact hp
  · rcases hb : (s.client c).blocked
    · simp only [step, hb, Bool.false_eq_true, if_false, List.foldl_nil]
      intro x k hx
      obtain ⟨hmem, hblocked, hrest⟩ := hp x k hx
      have hxc : x ≠ c := by
        rintro rfl
        rw [hb] at hblocked
        cases hblocked
      simp only [Server.setClient, Function.update_of_ne hxc]
      exact ⟨hmem, hblocked, hrest⟩
    · simp only [step, hb, if_true, List.foldl_nil]
      exact hp
  · exact hp
  · have hnone : (processClientsWaitingReplicas s).2 = [] := by
      refine List.eq_nil_iff_forall_not_mem.mpr ?_
      rintro ⟨c, n⟩ hc
      obtain ⟨hmem, hlow, hhigh⟩ := (processClients_sound s).2 c n hc
      exact hnobody s _ _ (List.mem_singleton.mpr rfl) c hmem (Int.le_trans hlow hhigh)
    simp only [step, List.foldl_cons, List.foldl_nil, askedAfter]
    rw [hnone, processClients_state]
    exact hp

/-- A call in which nobody is answered is right. -/
theorem callRight_of_nobody {asked : ClientId → Option Int} (hp : Pending asked s)
    (hnobody : ∀ c ∈ s.clientsWaitingAcks,
      ¬ (s.client c).bpop.numreplicas ≤ acknowledged s c) :
    CallRight asked s (processClientsWaitingReplicas s).2 (processClientsWaitingReplicas s).1 := by
  have hno : ∀ c n, (c, n) ∉ (processClientsWaitingReplicas s).2 := by
    intro c n hc
    obtain ⟨hmem, hlow, hhigh⟩ := (processClients_sound s).2 c n hc
    exact hnobody c hmem (Int.le_trans hlow hhigh)
  have hnone : (processClientsWaitingReplicas s).2 = [] :=
    List.eq_nil_iff_forall_not_mem.mpr fun r => hno r.1 r.2
  refine ⟨by rw [hnone]; exact List.nodup_nil, ?_, ?_, ?_⟩
  · intro c
    constructor
    · rintro ⟨n, hn⟩
      exact (hno c n hn).elim
    · rintro ⟨k, hk, henough⟩
      obtain ⟨hmem, -, hpos, hbpop⟩ := hp c k hk
      refine (hnobody c hmem ?_).elim
      rw [hbpop]
      exact Int.le_trans (toInt_le hpos) henough
  · exact fun c n k hn => (hno c n hn).elim
  · exact fun c n hn => (hno c n hn).elim

/-- Every call of a run is sound. -/
theorem trace_sound (steps : List Step) : ∀ (s : Server) (before : Server)
    (replies : List Reply) (after : Server),
    Event.processed before replies after ∈ trace blockClient s steps →
      CallSound before replies ∧ after = before := by
  induction steps with
  | nil =>
      intro s before replies after h
      cases h
  | cons a rest ih =>
      intro s before replies after h
      rcases List.mem_append.mp h with h | h
      · rcases a with ⟨c, argv₁, timeout⟩ | ⟨c, woff, multi⟩ | l | _
        · simp only [step] at h
          split at h
          · cases h
          · dsimp only at h
            split at h
            · cases h
            · cases List.mem_singleton.mp h
        · simp only [step] at h
          split at h <;> cases h
        · cases h
        · cases List.mem_singleton.mp h
          exact ⟨processClients_sound s, processClients_state s⟩
      · exact ih _ before replies after h

theorem nobodyServed_append {l l' : List Event} :
    NobodyServed (l ++ l') ↔ NobodyServed l ∧ NobodyServed l' := by
  constructor
  · intro h
    exact ⟨fun b r a hm => h b r a (List.mem_append_left _ hm),
      fun b r a hm => h b r a (List.mem_append_right _ hm)⟩
  · rintro ⟨hl, hl'⟩ b r a hm
    rcases List.mem_append.mp hm with hm | hm
    · exact hl b r a hm
    · exact hl' b r a hm

/-- A right run: each of its calls lets go whom it answers. -/
theorem right_leaves : ∀ (events : List Event) (asked : ClientId → Option Int),
    Right asked events → ∀ before replies after,
      Event.processed before replies after ∈ events →
      ∀ c n, (c, n) ∈ replies → c ∉ after.clientsWaitingAcks := by
  intro events
  induction events with
  | nil =>
      intro asked _ b r a hm
      cases hm
  | cons e rest ih =>
      intro asked hr b r a hm c n hc
      rcases e with ⟨c', k⟩ | ⟨b', r', a'⟩
      · rcases List.mem_cons.mp hm with heq | hm
        · cases heq
        · exact ih _ hr b r a hm c n hc
      · rcases List.mem_cons.mp hm with heq | hm
        · cases heq
          exact (hr.1.leaves c n hc).1
        · exact ih _ hr.2 b r a hm c n hc

/-- The events of one step, followed by those of the rest of the run. -/
theorem right_append {asked : ClientId → Option Int} (a : Step)
    (hnobody : NobodyServed (step blockClient s a).2) (hp : Pending asked s) {rest : List Event}
    (hrest : Right ((step blockClient s a).2.foldl askedAfter asked) rest) :
    Right asked ((step blockClient s a).2 ++ rest) := by
  rcases a with ⟨c, argv₁, timeout⟩ | ⟨c, woff, multi⟩ | l | _
  · revert hrest
    simp only [step]
    split
    · exact id
    · dsimp only
      split
      · exact id
      · exact id
  · revert hrest
    simp only [step]
    split <;> exact id
  · exact hrest
  · exact ⟨callRight_of_nobody hp fun c hc =>
      hnobody s _ _ (List.mem_singleton.mpr rfl) c hc, hrest⟩

theorem run_right (hblocks : Blocks blockClient) (steps : List Step) :
    ∀ (s : Server) (asked : ClientId → Option Int), Pending asked s →
      NobodyServed (trace blockClient s steps) → Right asked (trace blockClient s steps) := by
  induction steps with
  | nil =>
      intro s asked _ _
      exact trivial
  | cons a rest ih =>
      intro s asked hp hnobody
      obtain ⟨hfirst, hlater⟩ := nobodyServed_append.mp hnobody
      exact right_append a hfirst hp
        (ih _ _ (step_pending hblocks a hfirst hp) hlater)

/-- In every run every call answers the clients with enough acknowledgements, with a number
between what they asked for and the true count; and the run is right if and only if no
client ever has enough acknowledgements when the waiting clients are looked at. -/
theorem waits_right_iff (hblocks : Blocks blockClient) (steps : List Step) :
    (∀ before replies after,
      Event.processed before replies after ∈ trace blockClient freshServer steps →
        CallSound before replies) ∧
    (Right (fun _ => none) (trace blockClient freshServer steps) ↔
      NobodyServed (trace blockClient freshServer steps)) := by
  refine ⟨fun b r a hm => (trace_sound steps freshServer b r a hm).1, ?_, ?_⟩
  · intro hright b r a hm c hc henough
    obtain ⟨hsound, rfl⟩ := trace_sound steps freshServer b r a hm
    obtain ⟨n, hn⟩ := (hsound.1 c hc).mpr henough
    exact right_leaves _ _ hright _ r _ hm c n hn hc
  · exact run_right hblocks steps freshServer _ (fun c k hk => by cases hk)

/-- The `blockClient` of the full server, as far as WAIT sees it. -/
def setBlocked (k : Client) : Client := { k with blocked := true }

/-- A client waits for one replica, one acknowledges, and the clients are looked at twice. -/
def answeredTwice : List Step :=
  [.command 7 10 false, .wait 7 (.int 1) (some 0), .process,
    .slaves [⟨.online, 10⟩], .process, .process]

theorem waits_right_iff_twice :
    Right (fun _ => none) (trace setBlocked freshServer answeredTwice) ↔
      NobodyServed (trace setBlocked freshServer answeredTwice) :=
  (@waits_right_iff setBlocked (fun _ => ⟨rfl, rfl⟩) answeredTwice).2

/-- The client is answered twice, and never leaves the list. -/
theorem answeredTwice_not_right :
    ¬ Right (fun _ => none) (trace setBlocked freshServer answeredTwice) := by
  intro hright
  exact (hright.2.1.leaves 7 1 (by decide +kernel)).1 (by decide +kernel)

end Wait

end RedisCore
