/-
# `RedisCore.Networking.Deliveries` — a pipeline in any reads

Commands arrive in reads of any sizes that the client asks for.  Between two reads the client
waits for one command, and its buffer holds less than a line or less than an argument of it.
So the next read, which is no longer than `readlen`, either keeps the buffer short or ends with
a big argument, and no length is ever too long.
-/
import RedisCore.Networking.Prefixes

namespace RedisCore

namespace Query

open CInt Decimal

/-! ## A request that was begun -/

/-- The loop, where the length of the first argument is read already. -/
theorem bulkLoop_known {c : Client} {avail t later a : Bytes} {args : List Bytes}
    (hb : c.bulklen = a.length) (hm : c.multibulklen = (a :: args).length)
    (hq : c.querybuf = avail) (hfit : c.querybuf.length ≤ PROTO_MAX_QUERYBUF_LEN)
    (hshort : ∀ b ∈ a :: args, b.length ≤ 512 * 1024 * 1024)
    (hslots : c.argv.length + (a :: args).length ≤ c.slots)
    (heq : avail ++ t = a ++ [13, 10] ++ (args.flatMap bulk ++ later))
    (hsize : avail.length ≤ PROTO_INLINE_MAX_SIZE ∨
      PROTO_MBULK_BIG_ARG ≤ a.length ∧ avail.length ≤ a.length + 2) :
    ∃ c' done rest avail', Left (bulkLoop (args.length + 1) c 0) c c' done rest avail' t later
      ∧ a :: args = done ++ rest
      ∧ (rest = [] ↔ a ++ [13, 10] ++ args.flatMap bulk <+: avail) := by
  have ha : a.length ≤ 512 * 1024 * 1024 := hshort a (List.mem_cons_self ..)
  rw [bulkLoop, readBulkLen_known (by omega), ok_bind]
  dsimp only
  by_cases hfull : a ++ [13, 10] <+: avail
  · obtain ⟨rest, hrest⟩ := hfull
    have hbuf : c.querybuf = a ++ 13 :: 10 :: rest := by
      rw [hq, ← hrest, List.append_assoc]
      rfl
    have hlen : avail.length = a.length + 2 + rest.length := by
      rw [← hrest]
      simp only [List.length_append, List.length_cons, List.length_nil]
    have heq' : rest ++ t = args.flatMap bulk ++ later := by
      rw [← hrest, List.append_assoc] at heq
      exact List.append_cancel_left heq
    have hslots' : c.argv.length < c.slots := by
      rw [List.length_cons] at hslots
      omega
    -- the buffer keeps the argument, or goes with it
    obtain ⟨front, hread, hle, hover⟩ : ∃ front : Bytes,
        readBulk c 0 = .ok (.go
          { c with querybuf := front ++ rest, bulklen := -1, argv := c.argv ++ [a],
                   multibulklen := c.multibulklen - 1 } front.length)
        ∧ (front ++ rest).length ≤ c.querybuf.length
        ∧ (front ++ rest).length ≤ PROTO_INLINE_MAX_SIZE := by
      have hread := readBulk_ready [] a rest hb hbuf hfit hslots'
      rw [List.length_nil, Int.natCast_zero] at hread
      by_cases hwhole : Whole [] a rest
      · rw [if_pos hwhole] at hread
        have hnil : rest = [] := hwhole.2.2
        subst hnil
        exact ⟨[], hread, Nat.zero_le _, Nat.zero_le _⟩
      · rw [if_neg hwhole] at hread
        refine ⟨a ++ [13, 10], ?_, ?_, ?_⟩
        · have hpos : (a ++ [13, 10]).length = 0 + a.length + 2 := by
            simp only [List.length_append, List.length_cons, List.length_nil]
            omega
          rw [hread, hpos, hrest, ← hq]
        · rw [hrest, hq]
        · rw [hrest]
          rcases hsize with hsmall | ⟨hbig, hall⟩
          · exact hsmall
          · refine absurd ⟨rfl, hbig, List.eq_nil_of_length_eq_zero ?_⟩ hwhole
            omega
    have hloop := bulkLoop_spec args (c :=
        { c with querybuf := front ++ rest, bulklen := -1, argv := c.argv ++ [a],
                 multibulklen := c.multibulklen - 1 }) rfl
      (by dsimp only; rw [hm, List.length_cons]; rfl) rfl (by dsimp only; omega)
      (fun b hb => hshort b (List.mem_cons_of_mem _ hb))
      (by
        dsimp only
        rw [List.length_append, List.length_singleton]
        rw [List.length_cons] at hslots
        omega) heq'
    have hnot : ¬ Overlong front.length args rest := by
      intro h
      have := h.lt_length
      rw [List.length_append] at hover
      omega
    rw [if_neg hnot] at hloop
    obtain ⟨c', done, rest', avail', ⟨front', hleave, hbuf', hlen', htook, hsusp⟩, hsplit, hiff⟩ :=
      hloop
    rw [hread, ok_bind]
    dsimp only
    refine ⟨c', a :: done, rest', avail', ⟨front', hleave, hbuf', Nat.le_trans hlen' hle, ?_, hsusp⟩,
      ?_, ?_⟩
    · exact htook.cons rfl rfl rfl rfl rfl
    · rw [hsplit, List.cons_append]
    · rw [hiff, ← hrest, List.prefix_append_right_inj]
  · have hcut : avail.length < (a ++ [13, 10]).length :=
      length_lt_of_cut heq hfull
    simp only [List.length_append, List.length_cons, List.length_nil] at hcut
    have hstop := readBulk_short (c := c) [] hb ha (show c.querybuf = [] ++ avail from hq)
      (by omega)
    rw [List.length_nil, Int.natCast_zero] at hstop
    rw [hstop, ok_bind]
    refine ⟨c, [], a :: args, avail, ⟨[], rfl, hq, Nat.le_refl _, ?_, ?_⟩, rfl, ?_⟩
    · exact ⟨(List.append_nil _).symm, hm, rfl, rfl, rfl, rfl⟩
    · refine ⟨?_, ?_, ?_, ?_, ?_⟩
      · rw [heq, Owed, if_neg (by omega), List.append_assoc, List.append_assoc, List.append_assoc]
      · rintro a' args' ⟨rfl, rfl⟩
        exact .inr hb
      · intro h
        cases h
      · intro h
        omega
      · rintro a' args' ⟨rfl, rfl⟩ _
        omega
    · constructor
      · intro h
        cases h
      · intro h
        exact absurd ((List.prefix_append _ _).trans h) hfull

/-! ## The length of a read -/

theorem readlen_le (c : Client) : readlen c ≤ PROTO_IOBUF_LEN := by
  unfold readlen
  split
  · dsimp only
    split <;> omega
  · exact Int.le_refl _

/-- In a big argument no more is read than what is missing of it. -/
theorem readlen_big {c : Client} {n : Nat} (hr : c.reqtype = .multibulk) (hm : c.multibulklen ≠ 0)
    (hb : c.bulklen = n) (hbig : PROTO_MBULK_BIG_ARG ≤ n) (hn : n ≤ 512 * 1024 * 1024)
    (hshort : c.querybuf.length ≤ n + 2) :
    readlen c = min PROTO_IOBUF_LEN ((n : Int) + 2 - c.querybuf.length) := by
  have hcond : c.reqtype = .multibulk ∧ c.multibulklen ≠ 0 ∧ c.bulklen ≠ -1
      ∧ c.bulklen ≥ PROTO_MBULK_BIG_ARG := ⟨hr, hm, by omega, by omega⟩
  have hneed : toUInt (c.bulklen + 2) = n + 2 := by
    unfold toUInt
    omega
  have hleft : toULong (toUInt (c.bulklen + 2) - c.querybuf.length)
      = n + 2 - c.querybuf.length := by
    rw [hneed]
    unfold toULong
    omega
  have hint : toInt (toULong (toUInt (c.bulklen + 2) - c.querybuf.length))
      = (n : Int) + 2 - c.querybuf.length := by
    rw [hleft, toInt_eq (by omega) (by omega)]
    omega
  rw [readlen, if_pos hcond, hint]
  dsimp only
  split <;> omega

/-- A client that waits asks for at least one byte. -/
theorem Waits.readlen_pos {c : Client} {cmd : List Bytes} {t later : Bytes} (h : Waits c cmd t later)
    (hvalid : Valid cmd) : 0 < readlen c := by
  cases h with
  | line idle _ _ =>
      rw [readlen, if_neg (fun h => h.2.1 idle.multibulklen)]
      decide
  | args rest hr hsplit hsome hm hslots hsusp =>
      obtain ⟨a, args, rfl⟩ := List.exists_cons_of_ne_nil hsome
      have ha : a.length ≤ 512 * 1024 * 1024 := by
        refine hvalid.short a ?_
        rw [hsplit]
        exact List.mem_append_right _ (List.mem_cons_self ..)
      by_cases hbig : c.bulklen ≠ -1 ∧ c.bulklen ≥ PROTO_MBULK_BIG_ARG
      · have hb : c.bulklen = a.length := (hsusp.known a args rfl).resolve_left hbig.1
        have hshort := hsusp.short a args rfl hb
        rw [readlen_big hr (by rw [hm, List.length_cons]; omega) hb (by omega) ha (Nat.le_of_lt hshort)]
        unfold PROTO_IOBUF_LEN
        omega
      · rw [readlen, if_neg (fun h => hbig h.2.2)]
        decide

/-! ## One read -/

theorem length_owed_pos (bulklen : Int) (a : Bytes) (args : List Bytes) :
    0 < (Owed bulklen (a :: args)).length := by
  have hbulk := length_bulk a
  rw [Owed, List.length_append]
  split
  · omega
  · rw [List.length_append]
    exact Nat.add_pos_left (Nat.add_pos_right _ (by decide)) _

theorem length_decNat_short {n : Nat} (h : n ≤ 512 * 1024 * 1024) : (decNat n).length ≤ 9 :=
  length_decNat_le (by omega)

/-- After a read the buffer is short, or ends with the argument that is being read. -/
theorem length_received {c : Client} {a : Bytes} {args : List Bytes} {b t later : Bytes}
    (hr : c.reqtype = .multibulk) (hm : c.multibulklen ≠ 0)
    (hsusp : Suspended c.bulklen (a :: args) c.querybuf (b ++ t) later)
    (ha : a.length ≤ 512 * 1024 * 1024) (hread : (b.length : Int) ≤ readlen c) :
    (c.querybuf ++ b).length ≤ PROTO_INLINE_MAX_SIZE ∨ c.bulklen = a.length ∧
      PROTO_MBULK_BIG_ARG ≤ a.length ∧ (c.querybuf ++ b).length ≤ a.length + 2 := by
  have hinline : PROTO_INLINE_MAX_SIZE = 2 ^ 16 := rfl
  have hio : PROTO_IOBUF_LEN = 2 ^ 14 := rfl
  have hlong := readlen_le c
  have hdigits := length_decNat_short ha
  rw [List.length_append]
  rcases hsusp.known a args rfl with hnone | hknown
  · have hline := hsusp.line hnone a args rfl
    rw [length_bulkLine] at hline
    exact .inl (by omega)
  · have hshort := hsusp.short a args rfl hknown
    by_cases hbig : PROTO_MBULK_BIG_ARG ≤ a.length
    · rw [readlen_big hr hm hknown hbig ha (Nat.le_of_lt hshort)] at hread
      exact .inr ⟨hknown, hbig, by omega⟩
    · have hmbulk : PROTO_MBULK_BIG_ARG = 2 ^ 15 := rfl
      exact .inl (by omega)

/-- The loop on the arguments that are still missing, after a read. -/
theorem bulkLoop_received {c : Client} {a : Bytes} {args : List Bytes} {b t later : Bytes}
    (hm : c.multibulklen = (a :: args).length)
    (hsusp : Suspended c.bulklen (a :: args) c.querybuf (b ++ t) later)
    (hargs : ∀ x ∈ a :: args, x.length ≤ 512 * 1024 * 1024)
    (hroom : c.argv.length + (a :: args).length ≤ c.slots)
    (hfit : (c.querybuf ++ b).length ≤ PROTO_MAX_QUERYBUF_LEN)
    (hsize : (c.querybuf ++ b).length ≤ PROTO_INLINE_MAX_SIZE ∨ c.bulklen = a.length ∧
      PROTO_MBULK_BIG_ARG ≤ a.length ∧ (c.querybuf ++ b).length ≤ a.length + 2) :
    ∃ c' done rest avail',
      Left (bulkLoop (args.length + 1) { c with querybuf := c.querybuf ++ b } 0)
        { c with querybuf := c.querybuf ++ b } c' done rest avail' t later
      ∧ a :: args = done ++ rest ∧ (rest = [] → avail'.length ≤ PROTO_INLINE_MAX_SIZE) := by
  have heq : (c.querybuf ++ b) ++ t = Owed c.bulklen (a :: args) ++ later := by
    rw [List.append_assoc, hsusp.owed]
  rcases hsusp.known a args rfl with hnone | hknown
  · have hspec := bulkLoop_spec (a :: args) (c := { c with querybuf := c.querybuf ++ b })
      (show c.bulklen = -1 from hnone) hm
      (show c.querybuf ++ b = [] ++ (c.querybuf ++ b) from rfl) hfit hargs hroom
      (by rw [heq, Owed, if_pos hnone, List.flatMap_cons])
    have hsmall : (c.querybuf ++ b).length ≤ PROTO_INLINE_MAX_SIZE := by
      rcases hsize with h | ⟨h, _⟩
      · exact h
      · omega
    have hnot : ¬ Overlong ([] : Bytes).length (a :: args) (c.querybuf ++ b) := by
      intro h
      have := h.lt_length
      rw [List.length_nil] at this
      omega
    rw [if_neg hnot] at hspec
    obtain ⟨c', done, rest, avail', hleft, hdone, _⟩ := hspec
    refine ⟨c', done, rest, avail', hleft, hdone, ?_⟩
    obtain ⟨front, _, hbuf, hlen, _⟩ := hleft
    intro _
    rw [hbuf, List.length_append] at hlen
    dsimp only at hlen
    omega
  · have hspec := bulkLoop_known (c := { c with querybuf := c.querybuf ++ b })
      (show c.bulklen = a.length from hknown) hm rfl hfit hargs hroom
      (by rw [heq, Owed, if_neg (by omega), List.append_assoc])
      (hsize.imp (fun h => h) (fun h => h.2))
    obtain ⟨c', done, rest, avail', hleft, hdone, _⟩ := hspec
    refine ⟨c', done, rest, avail', hleft, hdone, ?_⟩
    rintro rfl
    obtain ⟨front, _, hbuf, hlen, _, hsusp'⟩ := hleft
    have h₁ := congrArg List.length heq
    have h₂ := congrArg List.length hsusp'.owed
    rw [Owed, if_neg (by omega)] at h₁
    simp only [Owed, List.length_append, List.length_cons, List.length_nil] at h₁ h₂
    rw [hbuf, List.length_append, List.length_append] at hlen
    rcases hsize with h | ⟨_, _, h⟩
    · rw [List.length_append] at h
      omega
    · rw [List.length_append] at h
      omega

/-- A read of a client that waits, as the parser sees it. -/
theorem parse_more {c : Client} {cmd : List Bytes} {b t later : Bytes}
    (hw : Waits c cmd (b ++ t) later) (hvalid : Valid cmd) (hb : b ≠ [])
    (hread : (b.length : Int) ≤ readlen c) :
    (c.querybuf ++ b).length ≤ PROTO_MAX_QUERYBUF_LEN ∧
    ((∃ c', parse { c with querybuf := c.querybuf ++ b } = .ok (c', true) ∧ Complete c c' cmd
        ∧ c'.querybuf ++ t = later ∧ c'.querybuf.length ≤ PROTO_INLINE_MAX_SIZE
        ∧ c'.querybuf.length < (c.querybuf ++ b).length) ∨
      ∃ c', parse { c with querybuf := c.querybuf ++ b } = .ok (c', false) ∧ Waits c' cmd t later
        ∧ c'.flags = c.flags ∧ c'.errors = c.errors) := by
  have hmax : PROTO_MAX_QUERYBUF_LEN = 2 ^ 30 := rfl
  have hinline : PROTO_INLINE_MAX_SIZE = 2 ^ 16 := rfl
  have hio : PROTO_IOBUF_LEN = 2 ^ 14 := rfl
  have hne : c.querybuf ++ b ≠ [] := fun h => hb (List.append_eq_nil_iff.mp h).2
  have hlong := readlen_le c
  cases hw with
  | line hidle howed hshort =>
      have hdigits := length_decNat_short (n := cmd.length) (by have := hvalid.count; omega)
      rw [length_requestLine] at hshort
      have hlen : (c.querybuf ++ b).length ≤ PROTO_INLINE_MAX_SIZE := by
        rw [List.length_append]
        omega
      have heq : (c.querybuf ++ b) ++ t = request cmd ++ later := by
        rw [List.append_assoc, howed]
      have hparse := parse_request (c := { c with querybuf := c.querybuf ++ b })
        ⟨hidle.argv, hidle.multibulklen, hidle.bulklen, hidle.reqtype⟩ hvalid
        (by dsimp only; omega) hne heq
      have hnot : ¬ OverlongRequest cmd (c.querybuf ++ b) := by
        intro h
        have := h.lt_length
        omega
      rw [if_neg hnot] at hparse
      refine ⟨by omega, ?_⟩
      by_cases hwhole : request cmd <+: c.querybuf ++ b
      · rw [if_pos hwhole] at hparse
        obtain ⟨c', hok, hc, hrest⟩ := hparse
        have h₁ := congrArg List.length heq
        have h₂ := congrArg List.length hrest
        have h₃ := List.length_pos_of_ne_nil (request_ne_nil cmd)
        simp only [List.length_append] at h₁ h₂ hlen
        refine .inl ⟨c', hok, ⟨hc.argv, hc.multibulklen, hc.bulklen, hc.flags, hc.errors⟩, hrest,
          by omega, ?_⟩
        rw [List.length_append]
        omega
      · rw [if_neg hwhole] at hparse
        exact .inr hparse
  | args rest hr hsplit hsome hm hslots hsusp =>
      obtain ⟨a, args, rfl⟩ := List.exists_cons_of_ne_nil hsome
      have hargs : ∀ x ∈ a :: args, x.length ≤ 512 * 1024 * 1024 := by
        intro x hx
        refine hvalid.short x ?_
        rw [hsplit]
        exact List.mem_append_right _ hx
      have ha := hargs a (List.mem_cons_self ..)
      have hroom : c.argv.length + (a :: args).length ≤ c.slots := by
        rw [hslots, hsplit, List.length_append]
      have hm' : c.multibulklen ≠ 0 := by
        rw [hm, List.length_cons]
        omega
      have hsize := length_received hr hm' hsusp ha hread
      have hfit : (c.querybuf ++ b).length ≤ PROTO_MAX_QUERYBUF_LEN := by
        rcases hsize with h | ⟨_, _, h⟩ <;> omega
      have heq : (c.querybuf ++ b) ++ t = Owed c.bulklen (a :: args) ++ later := by
        rw [List.append_assoc, hsusp.owed]
      refine ⟨hfit, ?_⟩
      obtain ⟨c', done, rest', avail', hleft, hdone, hsmall⟩ :=
        bulkLoop_received hm hsusp hargs hroom hfit hsize
      rw [← List.length_cons (a := a), ← hm] at hleft
      have hret := readBulks_left (c := { c with querybuf := c.querybuf ++ b }) hm' hfit hleft
      obtain ⟨front, _, _, _, htook, hsusp'⟩ := hleft
      have hparse : parse { c with querybuf := c.querybuf ++ b }
          = .ok ({ c' with querybuf := avail' }, decide (rest' = [])) := by
        rw [parse_multibulk (c := { c with querybuf := c.querybuf ++ b }) hr,
          processMultibulkBuffer, if_neg hm', hret]
      have hcmd : cmd = c'.argv ++ rest' := by
        rw [htook.argv, List.append_assoc, ← hdone, hsplit]
      by_cases hnil : rest' = []
      · rw [decide_eq_true hnil] at hparse
        subst hnil
        refine .inl ⟨_, hparse, ⟨?_, htook.multibulklen, hsusp'.none rfl, htook.flags,
          htook.errors⟩, hsusp'.owed, hsmall rfl, ?_⟩
        · rw [hcmd, List.append_nil]
        · have h₁ := congrArg List.length heq
          have h₂ := congrArg List.length hsusp'.owed
          have h₃ := length_owed_pos c.bulklen a args
          rw [List.length_append, @List.length_append _ (Owed _ _)] at h₁
          simp only [Owed, List.length_append, List.length_nil] at h₂
          dsimp only
          omega
      · rw [decide_eq_false hnil] at hparse
        exact .inr ⟨_, hparse, .args rest' (htook.reqtype.trans hr) hcmd hnil htook.multibulklen
          (htook.slots.trans hslots) hsusp', htook.flags, htook.errors⟩

/-- The client's buffer after a read. -/
def State.received (s : State σ) (b : Bytes) : State σ :=
  { s with client := { s.client with querybuf := s.client.querybuf ++ b } }

/-- A read of a client that waits for `cmd` and is in service: it still waits, or `cmd` is
executed and then what has come of the `later` commands. -/
theorem read_waits (execute : Execute σ) {s : State σ} {cmd : List Bytes}
    {later : List (List Bytes)} {b t : Bytes} (hw : Waits s.client cmd (b ++ t) (later.flatMap request))
    (hopen : s.service.isOpen = true) (hvalid : ∀ x ∈ cmd :: later, Valid x) (hb : b ≠ [])
    (hread : (b.length : Int) ≤ readlen s.client) :
    ∃ s', readQueryFromClient execute s (.data b) = .ok s' ∧
      ((s'.handed = s.handed ∧ s'.client.errors = s.client.errors
          ∧ Waits s'.client cmd t (later.flatMap request)) ∨
        ∃ s₁, s₁.handed = s.handed ++ [cmd] ∧ s₁.client.errors = s.client.errors
          ∧ ¬ OverlongPrefix later s₁.client.querybuf ∧ Ends execute s₁ s' later t) := by
  have hcmd : Valid cmd := hvalid cmd (List.mem_cons_self ..)
  obtain ⟨hfit, hparse⟩ := parse_more hw hcmd hb hread
  have hblen : ¬ b.length = 0 := fun h => hb (List.eq_nil_of_length_eq_zero h)
  have hne : (s.received b).client.querybuf ≠ [] := fun h => hb (List.append_eq_nil_iff.mp h).2
  obtain ⟨fuel, hfuel⟩ : ∃ fuel, (s.received b).client.querybuf.length = fuel + 1 := by
    have := List.length_pos_of_ne_nil hne
    exact ⟨(s.received b).client.querybuf.length - 1, by omega⟩
  have hrun : readQueryFromClient execute s (.data b)
      = inputLoop execute (fuel + 1) (s.received b) := by
    rw [readQueryFromClient, if_neg hblen]
    dsimp only
    rw [if_neg (by omega), ← hfuel]
    rfl
  have hopen' : (s.received b).service.isOpen = true := hopen
  rcases hparse with ⟨c, hok, hc, hrest, hsmall, hless⟩ | ⟨c, hok, hwaits, _, herrors⟩
  · obtain ⟨s₁, hturn, hhanded⟩ : ∃ s₁, turn execute (s.received b) = .ok (s₁, !s₁.freed)
        ∧ Handed execute (s.received b) s₁ c cmd := turn_complete hopen' hok
      ⟨hc.argv, hc.multibulklen, hc.bulklen, hc.flags, hc.errors⟩ hcmd.nonempty
    have hq₁ : s₁.client.querybuf = c.querybuf := hhanded.querybuf
    have hlen₁ : s₁.client.querybuf.length ≤ fuel := by
      have : (s.received b).client.querybuf.length = (s.client.querybuf ++ b).length := rfl
      rw [hq₁]
      omega
    have hnot : ¬ OverlongPrefix later s₁.client.querybuf := by
      intro h
      have := h.lt_length
      rw [hq₁] at this
      omega
    have heq : s₁.client.querybuf ++ t = later.flatMap request := by rw [hq₁, hrest]
    rw [hrun, inputLoop_turn hne hturn]
    cases hfree : s₁.freed with
    | true =>
        have hshut : s₁.service.isOpen = false := by
          simp [Service.isOpen, State.service, hfree]
        refine ⟨s₁, rfl, .inr ⟨s₁, hhanded.handed, hhanded.errors.trans hc.errors, hnot,
          ends_shut hshut hshut rfl rfl ?_⟩⟩
        rintro rfl
        exact ⟨heq, hhanded.multibulklen, hhanded.bulklen⟩
    | false =>
        obtain ⟨s', hloop, hends⟩ := @inputLoop_begins σ execute later fuel s₁ t
          (fun x hx => hvalid x (List.mem_cons_of_mem _ hx)) hfree hhanded.idle
          ⟨hhanded.multibulklen, hhanded.bulklen⟩
          (by
            have : (s.received b).client.querybuf.length = (s.client.querybuf ++ b).length := rfl
            omega) hlen₁ heq
        exact ⟨s', hloop, .inr ⟨s₁, hhanded.handed, hhanded.errors.trans hc.errors, hnot, hends⟩⟩
  · refine ⟨_, hrun.trans ((inputLoop_turn hne (turn_open hopen' hok)).trans rfl), .inl ⟨rfl, ?_, ?_⟩⟩
    · exact herrors
    · exact hwaits

/-! ## Deliveries -/

/-- The client is in service, or it was handed all commands. -/
def InService (cmds : List (List Bytes)) (s : State σ) : Prop :=
  s.service.isOpen = true ∨ cmds.length ≤ s.handed.length

/-- The states of a delivery of `cmds`, with the bytes that are still to come.  A fresh client in
service reads at least a byte and at most what it asks for; meanwhile the server and the flags
of the client may change.  Until it has all commands the client stays in service. -/
inductive Delivery (execute : Execute σ) (cmds : List (List Bytes)) : State σ → Bytes → Prop
  | fresh (server : Server σ) (h : (arrived server []).service.isOpen = true) :
      Delivery execute cmds (arrived server []) (cmds.flatMap request)
  | read {s s' : State σ} {b t : Bytes} (h : Delivery execute cmds s (b ++ t)) (hb : b ≠ [])
      (hlen : (b.length : Int) ≤ readlen s.client)
      (hread : readQueryFromClient execute s (.data b) = .ok s') (hin : InService cmds s') :
      Delivery execute cmds s' t
  | meanwhile {s : State σ} {t : Bytes} (h : Delivery execute cmds s t) (server : Server σ)
      (flags : Flags)
      (hin : InService cmds { s with server := server, client := { s.client with flags := flags } }) :
      Delivery execute cmds { s with server := server, client := { s.client with flags := flags } } t

/-- Between two reads: the client was handed the first commands and waits for the next. -/
structure Delivering (cmds : List (List Bytes)) (s : State σ) (t : Bytes)
    (todo : List (List Bytes)) : Prop where
  split : cmds = s.handed ++ todo
  errors : s.client.errors = []
  inService : InService cmds s
  done : todo = [] → t = [] ∧ s.client.querybuf = [] ∧ s.client.multibulklen = 0
    ∧ s.client.bulklen = -1
  waits : ∀ cmd later, todo = cmd :: later → Waits s.client cmd t (later.flatMap request)

theorem Waits.flags {c : Client} {cmd : List Bytes} {t later : Bytes} (h : Waits c cmd t later)
    (flags : Flags) : Waits { c with flags := flags } cmd t later := by
  cases h with
  | line idle owed short =>
      exact .line ⟨idle.argv, idle.multibulklen, idle.bulklen, idle.reqtype⟩ owed short
  | args rest reqtype split some multibulklen slots suspended =>
      exact .args rest reqtype split some multibulklen slots suspended

/-- What a client waits for has not come. -/
theorem Waits.not_nil {c : Client} {cmd : List Bytes} {later : Bytes} (hw : Waits c cmd [] later) :
    False := by
  cases hw with
  | line _ howed hshort =>
      have hlen := congrArg List.length howed
      simp only [request, List.append_nil, List.length_append] at hlen
      omega
  | args rest _ _ hsome _ _ hsusp =>
      obtain ⟨a, args, rfl⟩ := List.exists_cons_of_ne_nil hsome
      have hlen := congrArg List.length hsusp.owed
      have hbulk := length_bulk a
      have hline := length_bulkLine a.length
      rw [List.append_nil, List.length_append, Owed, List.length_append] at hlen
      rcases hsusp.known a args rfl with hnone | hknown
      · have hcut := hsusp.line hnone a args rfl
        rw [if_pos hnone] at hlen
        omega
      · have hcut := hsusp.short a args rfl hknown
        rw [if_neg (by omega), List.length_append, List.length_cons, List.length_singleton] at hlen
        omega

/-- A client that has commands to come is in service. -/
theorem Delivering.isOpen {cmds : List (List Bytes)} {s : State σ} {t : Bytes} {cmd : List Bytes}
    {later : List (List Bytes)} (h : Delivering cmds s t (cmd :: later)) :
    s.service.isOpen = true := by
  refine h.inService.resolve_right ?_
  rw [h.split, List.length_append, List.length_cons]
  omega

/-- A read keeps the client delivering. -/
theorem Delivering.read {execute : Execute σ} {cmds : List (List Bytes)} {s s' : State σ}
    {b t : Bytes} {todo : List (List Bytes)} (h : Delivering cmds s (b ++ t) todo)
    (hvalid : ∀ cmd ∈ cmds, Valid cmd) (hb : b ≠ []) (hlen : (b.length : Int) ≤ readlen s.client)
    (hread : readQueryFromClient execute s (.data b) = .ok s') (hin : InService cmds s') :
    ∃ todo', Delivering cmds s' t todo' := by
  cases todo with
  | nil => exact absurd (List.append_eq_nil_iff.mp (h.done rfl).1).1 hb
  | cons cmd later =>
      have hmem : ∀ x ∈ cmd :: later, Valid x := by
        intro x hx
        refine hvalid x ?_
        rw [h.split]
        exact List.mem_append_right _ hx
      obtain ⟨s'', hrun, hcases⟩ := read_waits execute (h.waits cmd later rfl) h.isOpen hmem hb hlen
      rw [hread, Except.ok.injEq] at hrun
      subst hrun
      rcases hcases with ⟨hhanded, herrors, hwaits⟩ | ⟨s₁, hhanded, herrors, hnot, hends⟩
      · refine ⟨cmd :: later, ?_, herrors.trans h.errors, hin, ?_, ?_⟩
        · rw [hhanded]
          exact h.split
        · intro hnil
          cases hnil
        · rintro _ _ ⟨rfl, rfl⟩
          exact hwaits
      · -- the command is executed, and what has come of the later ones
        have happend := complete_append_drop later s₁.client.querybuf
        obtain ⟨done, hdone⟩ : ∃ done, done = complete later s₁.client.querybuf := ⟨_, rfl⟩
        have hcount : cmds.length = s₁.handed.length + later.length := by
          rw [h.split, hhanded]
          simp only [List.length_append, List.length_cons, List.length_nil]
          omega
        have hserves : s₁.service.Serves execute (complete later s₁.client.querybuf) := by
          by_contra hno
          have hlt := hends.unserved hno
          have hle := congrArg List.length happend
          rw [List.length_append] at hle
          rcases hin with hopen | hall
          · rw [hends.abandoned hno] at hopen
            cases hopen
          · omega
        have hserved := hends.served hserves
        refine ⟨later.drop (complete later s₁.client.querybuf).length, ?_, ?_, hin, ?_, ?_⟩
        · rw [hserved, List.append_assoc, happend, hhanded, h.split, List.append_assoc,
            List.singleton_append]
        · rw [hends.clean (fun _ => hnot), herrors]
          exact h.errors
        · intro hnil
          have hle := congrArg List.length happend
          rw [hnil, List.append_nil] at hle
          obtain ⟨hempty, hm, hbl⟩ := hends.last hserves hle.symm
          exact ⟨(List.append_eq_nil_iff.mp hempty).2, (List.append_eq_nil_iff.mp hempty).1, hm, hbl⟩
        · intro cmd' later' hnext
          have hopen : s'.service.isOpen = true := by
            refine hin.resolve_right ?_
            have hle := congrArg List.length happend
            rw [hnext, List.length_append, List.length_cons] at hle
            rw [hserved, List.length_append]
            omega
          have hafter : (s₁.service.afterAll execute
              (complete later s₁.client.querybuf)).isOpen = true := by
            by_contra hno
            rw [hends.closed hserves (by simpa using hno)] at hopen
            cases hopen
          have hready := hends.ready hserves hafter hnot
          rw [hnext] at hready
          exact hready

/-- Every state of a delivery. -/
theorem Delivery.delivering {execute : Execute σ} {cmds : List (List Bytes)} {s : State σ}
    {t : Bytes} (hvalid : ∀ cmd ∈ cmds, Valid cmd) (h : Delivery execute cmds s t) :
    ∃ todo, Delivering cmds s t todo := by
  induction h with
  | fresh server hopen =>
      refine ⟨cmds, rfl, rfl, .inl hopen, ?_, ?_⟩
      · rintro rfl
        exact ⟨rfl, rfl, rfl, rfl⟩
      · rintro cmd later rfl
        refine .line ⟨rfl, rfl, rfl, fun h => by cases h⟩ rfl ?_
        rw [length_requestLine]
        exact Nat.succ_pos _
  | read _ hb hlen hread hin ih =>
      obtain ⟨todo, ih⟩ := ih
      exact ih.read hvalid hb hlen hread hin
  | meanwhile _ server flags hin ih =>
      obtain ⟨todo, ih⟩ := ih
      exact ⟨todo, ih.split, ih.errors, hin, ih.done,
        fun cmd later htodo => (ih.waits cmd later htodo).flags flags⟩

/-- In every delivery each read returns, and asks for a byte as long as there are any; when all
bytes have come, exactly the commands were handed over, without an error, and the client has
nothing left. -/
theorem delivery_hands {execute : Execute σ} {cmds : List (List Bytes)} {s : State σ} {t : Bytes}
    (hvalid : ∀ cmd ∈ cmds, Valid cmd) (h : Delivery execute cmds s t) :
    (t ≠ [] → 0 < readlen s.client) ∧
    (∀ b t', t = b ++ t' → b ≠ [] → (b.length : Int) ≤ readlen s.client →
      ∃ s', readQueryFromClient execute s (.data b) = .ok s') ∧
    s.client.errors = [] ∧ s.handed <+: cmds ∧
    (t = [] → s.handed = cmds ∧ s.client.querybuf = [] ∧ s.client.multibulklen = 0
      ∧ s.client.bulklen = -1) := by
  obtain ⟨todo, hd⟩ := h.delivering hvalid
  have hvalid' : ∀ x ∈ todo, Valid x := by
    intro x hx
    refine hvalid x ?_
    rw [hd.split]
    exact List.mem_append_right _ hx
  refine ⟨?_, ?_, hd.errors, ⟨todo, hd.split.symm⟩, ?_⟩
  · intro ht
    cases todo with
    | nil => exact absurd (hd.done rfl).1 ht
    | cons cmd later =>
        exact (hd.waits cmd later rfl).readlen_pos (hvalid' cmd (List.mem_cons_self ..))
  · rintro b t' rfl hb hlen
    cases todo with
    | nil => exact absurd (List.append_eq_nil_iff.mp (hd.done rfl).1).1 hb
    | cons cmd later =>
        obtain ⟨s', hrun, _⟩ :=
          read_waits execute (hd.waits cmd later rfl) hd.isOpen hvalid' hb hlen
        exact ⟨s', hrun⟩
  · rintro rfl
    cases todo with
    | nil =>
        obtain ⟨_, hq, hm, hbl⟩ := hd.done rfl
        exact ⟨by rw [hd.split, List.append_nil], hq, hm, hbl⟩
    | cons cmd later =>
        exact ((hd.waits cmd later rfl).not_nil).elim

theorem request_ping : request [cstr "PING"] = cstr "*1\r\n$4\r\nPING\r\n" := by
  simp [request, requestLine, bulk, bulkLine, cstr, decNat_of_lt, digit]

/-- One command in one read. -/
theorem delivery_hands_ping : ∃ s, Delivery plainExecute [[cstr "PING"]] s []
    ∧ s.handed = [[cstr "PING"]] := by
  have hvalid : ∀ cmd ∈ [[cstr "PING"]], Valid cmd := by
    intro cmd hcmd
    rw [List.mem_singleton] at hcmd
    subst hcmd
    exact ⟨by decide, by decide, by decide⟩
  have hstart := @Delivery.fresh _ plainExecute [[cstr "PING"]] plainServer rfl
  have hbytes : [[cstr "PING"]].flatMap request = cstr "*1\r\n$4\r\nPING\r\n" ++ [] := by
    rw [List.flatMap_singleton, request_ping, List.append_nil]
  rw [hbytes] at hstart
  obtain ⟨s, hread⟩ := (delivery_hands hvalid hstart).2.1 _ _ rfl (by decide) (by decide)
  have hopen : (readQueryFromClient plainExecute (arrived plainServer [])
      (.data (cstr "*1\r\n$4\r\nPING\r\n"))).toOption.map (fun s => s.service.isOpen)
      = some true := rfl
  rw [hread] at hopen
  have hend : Delivery plainExecute [[cstr "PING"]] s [] :=
    .read hstart (by decide) (by decide) hread (.inl (Option.some.inj hopen))
  exact ⟨s, hend, ((delivery_hands hvalid hend).2.2.2.2 rfl).1⟩

/-- Nothing behind QUIT is executed, although the client was in service and read everything. -/
theorem delivery_stops_at_quit :
    (∀ cmd ∈ [[cstr "QUIT"], [cstr "PING"]], Valid cmd)
    ∧ (arrived plainServer []).service.isOpen = true
    ∧ (([[cstr "QUIT"], [cstr "PING"]].flatMap request).length : Int)
        ≤ readlen (arrived plainServer []).client
    ∧ (readQueryFromClient plainExecute (arrived plainServer [])
        (.data ([[cstr "QUIT"], [cstr "PING"]].flatMap request))).toOption.map State.handed
        = some [[cstr "QUIT"]] := by
  have hquit : request [cstr "QUIT"] = cstr "*1\r\n$4\r\nQUIT\r\n" := by
    simp [request, requestLine, bulk, bulkLine, cstr, decNat_of_lt, digit]
  have hall : [[cstr "QUIT"], [cstr "PING"]].flatMap request
      = cstr "*1\r\n$4\r\nQUIT\r\n*1\r\n$4\r\nPING\r\n" := by
    rw [List.flatMap_cons, List.flatMap_singleton, hquit, request_ping]
    rfl
  rw [hall]
  refine ⟨?_, rfl, by decide, rfl⟩
  intro cmd hcmd
  simp only [List.mem_cons, List.not_mem_nil, or_false] at hcmd
  rcases hcmd with rfl | rfl
  · exact ⟨by decide, by decide, by decide⟩
  · exact ⟨by decide, by decide, by decide⟩

end Query

end RedisCore
