/-
# `RedisCore.Networking.QueryRuns` — whatever the bytes are

The parser on any bytes in any reads.  `Sound` says what a client may hold between two turns of
the loop: nothing of a request, a multibulk request with room for its arguments, or a request
that was refused.  No turn reads outside of the buffer, stores outside of `argv` or fails an
assertion, and a turn that goes on has taken a byte.
-/
import RedisCore.Networking.Inline

namespace RedisCore

namespace Query

open CInt Decimal

/-! ## Arguments of any bytes -/

/-- A multibulk request with room for the arguments to come. -/
structure InRequest (c : Client) : Prop where
  reqtype : c.reqtype = .multibulk
  room : c.argv.length + c.multibulklen ≤ c.slots
  known : c.bulklen = -1 ∨ ∃ n : Nat, c.bulklen = n ∧ n ≤ 512 * 1024 * 1024

/-- A refused client. -/
structure Closed (c c' : Client) : Prop where
  flags : c'.flags = { c.flags with closeAfterReply := true }
  querybuf : c'.querybuf.length ≤ c.querybuf.length
  room : c'.argv.length ≤ c'.slots
  bulklen : c'.bulklen = -1

/-- A protocol error cuts the buffer. -/
theorem closed_of_error {c : Client} {reply : List ReplyCall} (pos : Nat)
    (hfit : c.querybuf.length ≤ PROTO_MAX_QUERYBUF_LEN) (hroom : c.argv.length ≤ c.slots)
    (hb : c.bulklen = -1) : Closed c (setProtocolError (c.complain reply) pos) where
  flags := rfl
  querybuf := by
    show (sdsrange c.querybuf pos (-1)).length ≤ _
    rw [sdsrange_from hfit, List.length_drop]
    omega
  room := hroom
  bulklen := hb

/-- What `readBulkLen` can do. -/
inductive LenRead (c : Client) (pos : Nat) : Next → Prop
  | refused {c' : Client} (h : Closed c c') : LenRead c pos (.ret c' false)
  | waits : LenRead c pos (.leave c pos)
  | read {q : Bytes} {n pos' : Nat} (hn : n ≤ 512 * 1024 * 1024) (hpos : pos' ≤ q.length)
      (hq : q.length ≤ c.querybuf.length) (hleft : q.length - pos' ≤ c.querybuf.length - pos) :
      LenRead c pos (.go { c with querybuf := q, bulklen := n } pos')

theorem readBulkLen_any {c : Client} {pos : Nat} (hb : c.bulklen = -1)
    (hpos : pos ≤ c.querybuf.length) (hfit : c.querybuf.length ≤ PROTO_MAX_QUERYBUF_LEN)
    (hroom : c.argv.length ≤ c.slots) :
    ∃ next, readBulkLen c pos = .ok next ∧ LenRead c pos next := by
  have hmax : PROTO_MAX_QUERYBUF_LEN = 2 ^ 30 := rfl
  have hint : toInt c.querybuf.length = c.querybuf.length := toInt_eq (by omega) (by omega)
  rw [readBulkLen, if_neg (by rw [hb]; decide), strchrFrom_eq hpos, ok_bind]
  cases hchr : strchr (c.querybuf.drop pos) 13 with
  | none =>
      rw [Option.map_none]
      dsimp only
      by_cases hlong : c.querybuf.length > PROTO_INLINE_MAX_SIZE
      · rw [if_pos hlong]
        exact ⟨_, rfl, .refused (closed_of_error 0 hfit hroom hb)⟩
      · rw [if_neg hlong]
        exact ⟨_, rfl, .waits⟩
  | some i =>
      obtain ⟨h, t, hsplit, rfl, hcr, _⟩ := strchr_some hchr
      rw [Option.map_some]
      dsimp only
      by_cases hhalf : ((h.length + pos : Nat) : Int) > toInt c.querybuf.length - 2
      · rw [if_pos hhalf]
        exact ⟨_, rfl, .waits⟩
      rw [hint] at hhalf
      rw [hint, if_neg hhalf]
      have hlt : pos < c.querybuf.length := by omega
      rw [byteAt_eq hlt, ok_bind]
      by_cases hfirst : c.querybuf[pos] ≠ 36
      · rw [if_pos hfirst]
        exact ⟨_, rfl, .refused (closed_of_error pos hfit hroom hb)⟩
      · rw [if_neg hfirst]
        have hfirst : c.querybuf[pos] = 36 := by simpa using hfirst
        -- the line has a first byte, which is not the carriage return
        have hh : 0 < h.length := by
          rcases Nat.eq_zero_or_pos h.length with h0 | h0
          · rw [List.eq_nil_of_length_eq_zero h0, List.nil_append,
              List.drop_eq_getElem_cons hlt, List.cons.injEq, hfirst] at hsplit
            exact absurd hsplit.1 (by decide)
          · exact h0
        have hlen : ((h.length + pos : Nat) : Int) - (pos + 1) = ((h.length - 1 : Nat) : Int) := by
          omega
        have hstart : (pos : Int) + 1 = ((pos + 1 : Nat) : Int) := by omega
        rw [hlen, hstart, bytesAt_eq (by omega), ok_bind]
        cases hll : string2ll ((c.querybuf.drop (pos + 1)).take (h.length - 1)) with
        | none => exact ⟨_, rfl, .refused (closed_of_error pos hfit hroom hb)⟩
        | some ll =>
            dsimp only
            by_cases hrange : ll < 0 ∨ ll > 512 * 1024 * 1024
            · rw [if_pos hrange]
              exact ⟨_, rfl, .refused (closed_of_error pos hfit hroom hb)⟩
            · rw [if_neg hrange]
              obtain ⟨n, rfl⟩ : ∃ n : Nat, ll = n := ⟨ll.toNat, by omega⟩
              have hnext : toInt ((pos : Int) + (((h.length + pos : Nat) : Int) - pos + 2))
                  = ((h.length + pos + 2 : Nat) : Int) := by
                rw [toInt_eq (by omega) (by omega)]
                omega
              rw [hnext]
              by_cases hbig : (n : Int) ≥ PROTO_MBULK_BIG_ARG
              · rw [if_pos hbig, sdsrange_from hfit]
                exact ⟨_, rfl, @LenRead.read c pos _ n 0 (by omega) (Nat.zero_le _)
                  (by rw [List.length_drop]; omega) (by rw [List.length_drop]; omega)⟩
              · rw [if_neg hbig]
                exact ⟨_, rfl, .read (by omega) (by omega) (Nat.le_refl _) (by omega)⟩

/-- An argument whose length is known is taken, or too short. -/
theorem readBulk_any {c : Client} {n pos : Nat} (hb : c.bulklen = n) (hn : n ≤ 512 * 1024 * 1024)
    (hpos : pos ≤ c.querybuf.length) (hfit : c.querybuf.length ≤ PROTO_MAX_QUERYBUF_LEN)
    (hslots : c.argv.length < c.slots) :
    (c.querybuf.length - pos < n + 2 ∧ readBulk c pos = .ok (.leave c pos)) ∨
    ∃ (q a : Bytes) (pos' : Nat), readBulk c pos = .ok (.go
        { c with querybuf := q, bulklen := -1, argv := c.argv ++ [a],
                 multibulklen := c.multibulklen - 1 } pos')
      ∧ pos' ≤ q.length ∧ q.length ≤ c.querybuf.length
      ∧ q.length - pos' + 2 ≤ c.querybuf.length - pos := by
  have hfront : (c.querybuf.take pos).length = pos := by
    rw [List.length_take]
    omega
  have hsplit : c.querybuf = c.querybuf.take pos ++ c.querybuf.drop pos :=
    (List.take_append_drop _ _).symm
  by_cases hshort : c.querybuf.length - pos < n + 2
  · have := readBulk_short (c.querybuf.take pos) hb hn hsplit (by rw [List.length_drop]; exact hshort)
    rw [hfront] at this
    exact .inl ⟨hshort, this⟩
  · -- the argument and the two bytes behind it
    obtain ⟨a, x, y, rest, hrest, ha⟩ : ∃ a x y rest, c.querybuf.drop pos = a ++ x :: y :: rest
        ∧ a.length = n := by
      have hlen : (c.querybuf.drop pos).length = c.querybuf.length - pos := List.length_drop
      have hcut : n < (c.querybuf.drop pos).length := by omega
      have hcut' : n + 1 < (c.querybuf.drop pos).length := by omega
      refine ⟨(c.querybuf.drop pos).take n, (c.querybuf.drop pos)[n], (c.querybuf.drop pos)[n + 1],
        (c.querybuf.drop pos).drop (n + 2), ?_, ?_⟩
      · rw [List.getElem_cons_drop, List.getElem_cons_drop, List.take_append_drop]
      · rw [List.length_take]
        omega
    rw [hrest] at hsplit
    have hlen : c.querybuf.length = pos + n + 2 + rest.length := by
      have h := congrArg List.length hsplit
      rw [List.length_append, hfront, List.length_append, List.length_cons, List.length_cons] at h
      omega
    have hread := readBulk_ready (c.querybuf.take pos) a rest (by rw [hb, ha]) hsplit hfit hslots
    rw [hfront, ha] at hread
    refine .inr ?_
    by_cases hwhole : Whole (c.querybuf.take pos) a rest
    · rw [if_pos hwhole] at hread
      exact ⟨[], a, 0, hread, Nat.le_refl _, Nat.zero_le _, by simp; omega⟩
    · rw [if_neg hwhole] at hread
      exact ⟨c.querybuf, a, pos + n + 2, hread, by omega, Nat.le_refl _, by omega⟩

/-- How the loop leaves a client: it waits for arguments or has them all. -/
structure Waiting (c c' : Client) (n pos pos' : Nat) : Prop where
  request : InRequest c'
  flags : c'.flags = c.flags
  errors : c'.errors = c.errors
  inside : pos' ≤ c'.querybuf.length
  querybuf : c'.querybuf.length ≤ c.querybuf.length
  count : c'.multibulklen ≤ n
  taken : c'.querybuf.length - pos' + 2 * (n - c'.multibulklen) ≤ c.querybuf.length - pos
  none : c'.multibulklen = 0 → c'.bulklen = -1
  short : ∀ k : Nat, c'.bulklen = k → c'.querybuf.length - pos' < k + 2

/-- The loop on any bytes. -/
theorem bulkLoop_any : ∀ (n : Nat) {c : Client} {pos : Nat}, c.multibulklen = n → InRequest c →
    (n = 0 → c.bulklen = -1) → pos ≤ c.querybuf.length →
    c.querybuf.length ≤ PROTO_MAX_QUERYBUF_LEN →
    (∃ c', bulkLoop n c pos = .ok (.ret c' false) ∧ Closed c c') ∨
    ∃ (c' : Client) (pos' : Nat), bulkLoop n c pos = .ok (.leave c' pos') ∧ Waiting c c' n pos pos' := by
  intro n
  induction n with
  | zero =>
      intro c pos hm hr hnone hpos _
      have hb := hnone rfl
      refine .inr ⟨c, pos, rfl, hr, rfl, rfl, hpos, Nat.le_refl _, by omega, by omega,
        fun _ => hb, ?_⟩
      intro k hk
      omega
  | succ n ih =>
      intro c pos hm hr _ hpos hfit
      have hroom : c.argv.length < c.slots := by
        have := hr.room
        omega
      -- an argument whose length is known
      have hknown : ∀ {c₁ : Client} {k pos₁ : Nat}, c₁.bulklen = k → k ≤ 512 * 1024 * 1024 →
          c₁.reqtype = c.reqtype → c₁.argv = c.argv → c₁.slots = c.slots →
          c₁.multibulklen = c.multibulklen → c₁.flags = c.flags → c₁.errors = c.errors →
          pos₁ ≤ c₁.querybuf.length → c₁.querybuf.length ≤ c.querybuf.length →
          c₁.querybuf.length - pos₁ ≤ c.querybuf.length - pos →
          readBulkLen c pos = .ok (.go c₁ pos₁) →
          (∃ c', bulkLoop (n + 1) c pos = .ok (.ret c' false) ∧ Closed c c') ∨
          ∃ (c' : Client) (pos' : Nat), bulkLoop (n + 1) c pos = .ok (.leave c' pos')
            ∧ Waiting c c' (n + 1) pos pos' := by
        intro c₁ k pos₁ hb hk hreq hargv hslots hmb hflags herrors hpos₁ hq₁ hleft hlen
        rw [bulkLoop, hlen, ok_bind]
        dsimp only
        rcases readBulk_any hb hk hpos₁ (Nat.le_trans hq₁ hfit) (by rw [hargv, hslots]; exact hroom) with
          ⟨hshort, hwait⟩ | ⟨q, a, pos₂, hgo, hpos₂, hq₂, htaken⟩
        · rw [hwait, ok_bind]
          refine .inr ⟨c₁, pos₁, rfl, ⟨hreq.trans hr.reqtype, ?_, .inr ⟨k, hb, hk⟩⟩, hflags, herrors,
            hpos₁, hq₁, by omega, by omega, by omega, ?_⟩
          · rw [hargv, hmb, hslots]
            exact hr.room
          · intro k' hk'
            omega
        · rw [hgo, ok_bind]
          dsimp only
          have hrec := @ih { c₁ with querybuf := q, bulklen := -1, argv := c₁.argv ++ [a],
                                     multibulklen := c₁.multibulklen - 1 } pos₂
            (by dsimp only; omega)
            ⟨hreq.trans hr.reqtype, by
              dsimp only
              rw [List.length_append, List.length_singleton, hargv, hslots, hmb]
              have := hr.room
              omega, .inl rfl⟩
            (fun _ => rfl) hpos₂ (by dsimp only; omega)
          rcases hrec with ⟨c', hloop, hclosed⟩ | ⟨c', pos', hloop, hw⟩
          · refine .inl ⟨c', hloop, ?_, ?_, hclosed.room, hclosed.bulklen⟩
            · rw [hclosed.flags]
              dsimp only
              rw [hflags]
            · have := hclosed.querybuf
              dsimp only at this
              omega
          · have hcount := hw.count
            have hbuf := hw.querybuf
            have htake := hw.taken
            dsimp only at hbuf htake
            exact .inr ⟨c', pos', hloop, hw.request, hw.flags.trans hflags, hw.errors.trans herrors,
              hw.inside, by omega, by omega, by omega, hw.none, hw.short⟩
      rcases hr.known with hb | ⟨k, hb, hk⟩
      · obtain ⟨next, hlen, hread⟩ := readBulkLen_any hb hpos hfit (by omega)
        cases hread with
        | refused hclosed =>
            refine .inl ⟨_, ?_, hclosed⟩
            rw [bulkLoop, hlen, ok_bind]
            rfl
        | waits =>
            refine .inr ⟨c, pos, ?_, hr, rfl, rfl, hpos, Nat.le_refl _, by omega, by omega, by omega,
              ?_⟩
            · rw [bulkLoop, hlen, ok_bind]
              rfl
            · intro k hk
              omega
        | @read q k pos' hk hpos' hq hleft =>
            exact @hknown { c with querybuf := q, bulklen := k } k pos' rfl hk rfl rfl rfl rfl rfl rfl
              hpos' hq hleft hlen
      · exact hknown hb hk rfl rfl rfl rfl rfl rfl hpos (Nat.le_refl _) (Nat.le_refl _)
          (readBulkLen_known (by omega) pos)

/-! ## Requests of any bytes -/

/-- What a client that was not refused may hold: at most the first line of a request, or a
multibulk request whose big argument is not longer in the buffer than it should be. -/
inductive Holding (c : Client) : Prop
  | line (argv : c.argv = []) (multibulklen : c.multibulklen = 0) (bulklen : c.bulklen = -1)
      (star : c.reqtype = .multibulk → c.querybuf.head? = some 42)
  | args (request : InRequest c) (some : c.multibulklen ≠ 0)
      (big : ∀ k : Nat, c.bulklen = k → PROTO_MBULK_BIG_ARG ≤ k → c.querybuf.length ≤ k + 2)

/-- What the parser can do. -/
inductive Parsed (c : Client) : Client × Bool → Prop
  | wait {c' : Client} (holding : Holding c') (querybuf : c'.querybuf.length ≤ c.querybuf.length)
      (room : c'.argv.length ≤ c'.slots) (flags : c'.flags = c.flags)
      (errors : c'.errors = c.errors) : Parsed c (c', false)
  | refused {c' : Client} (h : Closed c c') : Parsed c (c', false)
  | request {c' : Client} (querybuf : c'.querybuf.length < c.querybuf.length)
      (multibulklen : c'.multibulklen = 0) (bulklen : c'.bulklen = -1)
      (room : c'.argv.length ≤ c'.slots) (flags : c'.flags = c.flags)
      (errors : c'.errors = c.errors) : Parsed c (c', true)

/-- The first line of a multibulk request of any bytes. -/
theorem readMultibulkLen_any {c : Client} (hargv : c.argv = []) (hb : c.bulklen = -1)
    (hstar : c.querybuf.head? = some 42) (hfit : c.querybuf.length ≤ PROTO_MAX_QUERYBUF_LEN) :
    readMultibulkLen c = .ok (.ret c false) ∨
    (∃ c', readMultibulkLen c = .ok (.ret c' false) ∧ Closed c c') ∨
    (∃ q : Bytes, q.length < c.querybuf.length
      ∧ readMultibulkLen c = .ok (.ret { c with querybuf := q } true)) ∨
    ∃ n pos : Nat, 0 < n ∧ 0 < pos ∧ pos ≤ c.querybuf.length
      ∧ readMultibulkLen c = .ok (.go { c with multibulklen := n, slots := n } pos) := by
  have hmax : PROTO_MAX_QUERYBUF_LEN = 2 ^ 30 := rfl
  have hint : toInt c.querybuf.length = c.querybuf.length := toInt_eq (by omega) (by omega)
  have hroom : c.argv.length ≤ c.slots := by
    rw [hargv]
    exact Nat.zero_le _
  rw [readMultibulkLen, if_neg (fun h => h hargv)]
  cases hchr : strchr c.querybuf 13 with
  | none =>
      dsimp only
      by_cases hlong : c.querybuf.length > PROTO_INLINE_MAX_SIZE
      · rw [if_pos hlong]
        exact .inr (.inl ⟨_, rfl, closed_of_error 0 hfit hroom hb⟩)
      · rw [if_neg hlong]
        exact .inl rfl
  | some i =>
      obtain ⟨h, t, hsplit, rfl, hcr, _⟩ := strchr_some hchr
      have hlen : c.querybuf.length = h.length + 1 + t.length := by
        rw [hsplit, List.length_append, List.length_cons]
        omega
      dsimp only
      by_cases hhalf : (h.length : Int) > toInt c.querybuf.length - 2
      · rw [if_pos hhalf]
        exact .inl rfl
      rw [hint] at hhalf
      have hfirst : byteAt c.querybuf 0 = .ok 42 := by
        have := byteAt_eq (s := c.querybuf) (i := 0) (by omega)
        rw [show (0 : Int) = ((0 : Nat) : Int) from rfl, this]
        rw [List.head?_eq_getElem?, List.getElem?_eq_getElem (by omega), Option.some.injEq] at hstar
        rw [hstar]
      -- the star is in front of the carriage return
      have hh : 0 < h.length := by
        rcases Nat.eq_zero_or_pos h.length with h0 | h0
        · rw [hsplit, List.eq_nil_of_length_eq_zero h0, List.nil_append, List.head?_cons] at hstar
          cases hstar
        · exact h0
      have hsub : (h.length : Int) - 1 = ((h.length - 1 : Nat) : Int) := by omega
      have hdigits : bytesAt c.querybuf 1 ((h.length - 1 : Nat) : Int)
          = .ok ((c.querybuf.drop 1).take (h.length - 1)) :=
        bytesAt_eq (i := 1) (by omega)
      rw [hint, if_neg hhalf, hfirst, ok_bind, if_neg (fun h => h rfl), hsub, hdigits, ok_bind]
      cases string2ll ((c.querybuf.drop 1).take (h.length - 1)) with
      | none => exact .inr (.inl ⟨_, rfl, closed_of_error 0 hfit hroom hb⟩)
      | some ll =>
          dsimp only
          have hpos : toInt ((h.length : Int) + 2) = ((h.length + 2 : Nat) : Int) := by
            rw [toInt_eq (by omega) (by omega)]
            rfl
          by_cases hmany : ll > 1024 * 1024
          · rw [if_pos hmany]
            exact .inr (.inl ⟨_, rfl, closed_of_error 0 hfit hroom hb⟩)
          · rw [if_neg hmany, hpos]
            by_cases hnone : ll ≤ 0
            · rw [if_pos hnone, sdsrange_from hfit]
              refine .inr (.inr (.inl ⟨_, ?_, rfl⟩))
              rw [List.length_drop]
              omega
            · rw [if_neg hnone]
              exact .inr (.inr (.inr ⟨ll.toNat, h.length + 2, by omega, by omega, by omega, rfl⟩))

/-- From the loop on. -/
theorem readBulks_any {c : Client} {pos : Nat} (hr : InRequest c) (hsome : c.multibulklen ≠ 0)
    (hpos : pos ≤ c.querybuf.length) (hfit : c.querybuf.length ≤ PROTO_MAX_QUERYBUF_LEN) :
    ∃ r, readBulks c pos = .ok r ∧ Parsed c r := by
  rw [readBulks, if_neg hsome]
  rcases bulkLoop_any c.multibulklen rfl hr (fun h => absurd h hsome) hpos hfit with
    ⟨c', hloop, hclosed⟩ | ⟨c', pos', hloop, hw⟩
  · rw [hloop, ok_bind]
    exact ⟨_, rfl, .refused hclosed⟩
  · rw [hloop, ok_bind]
    dsimp only
    have hinside := hw.inside
    have hbuf := hw.querybuf
    have hcount := hw.count
    have htaken := hw.taken
    obtain ⟨q, hq, hqlen⟩ : ∃ q : Bytes,
        (if (pos' : Int) ≠ 0 then { c' with querybuf := sdsrange c'.querybuf pos' (-1) } else c')
          = { c' with querybuf := q } ∧ q.length = c'.querybuf.length - pos' := by
      by_cases h0 : (pos' : Int) ≠ 0
      · rw [if_pos h0, sdsrange_from (Nat.le_trans hbuf hfit)]
        exact ⟨_, rfl, List.length_drop⟩
      · rw [if_neg h0]
        exact ⟨c'.querybuf, rfl, by omega⟩
    rw [hq]
    refine ⟨_, rfl, ?_⟩
    have hroom := hw.request.room
    by_cases hdone : c'.multibulklen = 0
    · rw [decide_eq_true hdone]
      exact .request (by dsimp only; omega) hdone (hw.none hdone) (by dsimp only; omega) hw.flags
        hw.errors
    · rw [decide_eq_false hdone]
      refine .wait (.args ⟨hw.request.reqtype, hroom, hw.request.known⟩ hdone ?_)
        (by dsimp only; omega) (by dsimp only; omega) hw.flags hw.errors
      intro k hk _
      have := hw.short k hk
      dsimp only
      omega

theorem processMultibulkBuffer_any {c : Client} (h : Holding c) (hr : c.reqtype = .multibulk)
    (hstar : c.multibulklen = 0 → c.querybuf.head? = some 42)
    (hfit : c.querybuf.length ≤ PROTO_MAX_QUERYBUF_LEN) :
    ∃ r, processMultibulkBuffer c = .ok r ∧ Parsed c r := by
  rw [processMultibulkBuffer]
  cases h with
  | args request some big =>
      rw [if_neg some]
      exact @readBulks_any c 0 request some (Nat.zero_le _) hfit
  | line hargv hm hb _ =>
      rw [if_pos hm]
      rcases readMultibulkLen_any hargv hb (hstar hm) hfit with
        hret | ⟨c', hret, hclosed⟩ | ⟨q, hless, hret⟩ | ⟨n, pos, hn, hpos, hle, hret⟩
      · rw [hret, ok_bind]
        exact ⟨_, rfl, .wait (.line hargv hm hb (fun _ => hstar hm)) (Nat.le_refl _)
          (by rw [hargv]; exact Nat.zero_le _) rfl rfl⟩
      · rw [hret, ok_bind]
        exact ⟨_, rfl, .refused hclosed⟩
      · rw [hret, ok_bind]
        refine ⟨_, rfl, .request hless hm hb ?_ rfl rfl⟩
        dsimp only
        rw [hargv]
        exact Nat.zero_le _
      · rw [hret, ok_bind]
        dsimp only
        obtain ⟨r, hrun, hparsed⟩ := @readBulks_any { c with multibulklen := n, slots := n } pos
          ⟨hr, by dsimp only; rw [hargv]; simp, .inl hb⟩ (by dsimp only; omega) hle hfit
        refine ⟨r, hrun, ?_⟩
        cases hparsed with
        | wait holding querybuf room flags errors => exact .wait holding querybuf room flags errors
        | refused h => exact .refused ⟨h.flags, h.querybuf, h.room, h.bulklen⟩
        | request querybuf multibulklen bulklen room flags errors =>
            exact .request querybuf multibulklen bulklen room flags errors

theorem length_stored_le (argv : List Bytes) : (stored argv).length ≤ argv.length :=
  List.length_filter_le _ _

/-- A line of any bytes. -/
theorem processInlineBuffer_any {c : Client} (hargv : c.argv = []) (hm : c.multibulklen = 0)
    (hb : c.bulklen = -1) (hr : c.reqtype = .inline) (hne : c.querybuf ≠ [])
    (hfit : c.querybuf.length ≤ PROTO_MAX_QUERYBUF_LEN) :
    ∃ r, processInlineBuffer c = .ok r ∧ Parsed c r := by
  have hroom : c.argv.length ≤ c.slots := by
    rw [hargv]
    exact Nat.zero_le _
  have hpos := List.length_pos_of_ne_nil hne
  cases hchr : strchr c.querybuf 10 with
  | none =>
      rw [processInlineBuffer, hchr]
      dsimp only
      by_cases hlong : c.querybuf.length > PROTO_INLINE_MAX_SIZE
      · rw [if_pos hlong]
        exact ⟨_, rfl, .refused (closed_of_error 0 hfit hroom hb)⟩
      · rw [if_neg hlong]
        refine ⟨_, rfl, .wait (.line hargv hm hb ?_) (Nat.le_refl _) hroom rfl rfl⟩
        intro h
        rw [hr] at h
        cases h
  | some i =>
      obtain ⟨h, t, hsplit, rfl, hfeed, hnul⟩ := strchr_some hchr
      obtain ⟨vector, hvector⟩ := sdssplitargs_ok (h.take (lineLen h))
      refine ⟨_, processInlineBuffer_feed hsplit hfeed hnul hfit hvector, ?_⟩
      cases vector with
      | none => exact .refused (closed_of_error 0 hfit hroom hb)
      | some argv =>
          have hstored := length_stored_le argv
          refine .request ?_ hm hb ?_ rfl rfl
          · show (c.querybuf.drop (lineLen h + 2)).length < _
            rw [List.length_drop]
            omega
          · show (stored argv).length ≤ if argv.length ≠ 0 then argv.length else c.slots
            split <;> omega

/-- The parser on any bytes. -/
theorem parse_any {c : Client} (h : Holding c) (hne : c.querybuf ≠ [])
    (hfit : c.querybuf.length ≤ PROTO_MAX_QUERYBUF_LEN) : ∃ r, parse c = .ok r ∧ Parsed c r := by
  have hmulti : ∀ {c₁ : Client}, Holding c₁ → c₁.reqtype = .multibulk →
      (c₁.multibulklen = 0 → c₁.querybuf.head? = some 42) →
      c₁.querybuf = c.querybuf → parse c = processMultibulkBuffer c₁ → c₁.flags = c.flags →
      c₁.errors = c.errors → ∃ r, parse c = .ok r ∧ Parsed c r := by
    intro c₁ hh hr hstar hq hparse hflags herrors
    obtain ⟨r, hrun, hparsed⟩ := processMultibulkBuffer_any hh hr hstar (by rw [hq]; exact hfit)
    refine ⟨r, hparse.trans hrun, ?_⟩
    cases hparsed with
    | wait holding querybuf room flags errors =>
        exact .wait holding (by rw [← hq]; exact querybuf) room (flags.trans hflags)
          (errors.trans herrors)
    | refused h =>
        exact .refused ⟨by rw [h.flags, hflags], by rw [← hq]; exact h.querybuf, h.room, h.bulklen⟩
    | request querybuf multibulklen bulklen room flags errors =>
        exact .request (by rw [← hq]; exact querybuf) multibulklen bulklen room (flags.trans hflags)
          (errors.trans herrors)
  cases h with
  | args request some big =>
      refine hmulti (.args request some big) request.reqtype (fun h => absurd h some) rfl ?_ rfl rfl
      exact parse_multibulk request.reqtype
  | line hargv hm hb hstar =>
      by_cases hfirst : c.reqtype = .multibulk ∨
          c.reqtype = .unknown ∧ c.querybuf.head? = some 42
      · have hhead : c.querybuf.head? = some 42 := by
          rcases hfirst with h | ⟨_, h⟩
          · exact hstar h
          · exact h
        have hreq : c.reqtype ≠ .inline := by
          rcases hfirst with h | ⟨h, _⟩ <;> rw [h] <;> decide
        exact @hmulti { c with reqtype := .multibulk } (.line hargv hm hb (fun _ => hhead)) rfl
          (fun _ => hhead) rfl (parse_star hreq hhead) rfl rfl
      · have hreq : c.reqtype ≠ .multibulk := fun h => hfirst (.inl h)
        have hrun : parse c = processInlineBuffer { c with reqtype := .inline } := by
          cases hr : c.reqtype with
          | multibulk => exact absurd hr hreq
          | unknown =>
              exact parse_inline hreq hne (fun hstar => hfirst (.inr ⟨hr, hstar⟩))
          | inline =>
              have hc : { c with reqtype := .inline } = c := by rw [← hr]
              rw [hc, parse, requestType, if_neg (by rw [hr]; decide), ok_bind]
              simp only [hr]
        obtain ⟨r, hline, hparsed⟩ := @processInlineBuffer_any { c with reqtype := .inline } hargv hm
          hb rfl hne hfit
        refine ⟨r, hrun.trans hline, ?_⟩
        cases hparsed with
        | wait holding querybuf room flags errors => exact .wait holding querybuf room flags errors
        | refused h => exact .refused ⟨h.flags, h.querybuf, h.room, h.bulklen⟩
        | request querybuf multibulklen bulklen room flags errors =>
            exact .request querybuf multibulklen bulklen room flags errors

/-! ## Runs -/

/-- What holds of a client in every state: a request in parts, or a refusal, and then it is to
be closed. -/
structure Sound (c : Client) : Prop where
  fits : c.querybuf.length ≤ PROTO_MAX_QUERYBUF_LEN
  room : c.argv.length ≤ c.slots
  holding : Holding c ∨ c.flags.closeAfterReply = true ∧ c.bulklen = -1
  refused : c.errors ≠ [] → c.flags.closeAfterReply = true

/-- A step of the server with this client: bytes arrive, no more than it asks for; the loop makes
a turn; or something else happens, which takes no closing flag away. -/
inductive Step (execute : Execute σ) : State σ → State σ → Prop
  | arrive {s : State σ} {b : Bytes} (hfree : s.freed = false) (hb : b ≠ [])
      (hlen : (b.length : Int) ≤ readlen s.client)
      (hfit : (s.client.querybuf ++ b).length ≤ PROTO_MAX_QUERYBUF_LEN) : Step execute s (s.received b)
  | turn {s s' : State σ} {again : Bool} (hne : s.client.querybuf ≠ [])
      (h : turn execute s = .ok (s', again)) : Step execute s s'
  | meanwhile {s : State σ} (server : Server σ) (flags : Flags)
      (h : s.client.flags.closeAfterReply = true → flags.closeAfterReply = true) :
      Step execute s { s with server := server, client := { s.client with flags := flags } }

/-- Any number of steps. -/
inductive Steps (execute : Execute σ) : State σ → State σ → Prop
  | refl (s : State σ) : Steps execute s s
  | tail {s s' s'' : State σ} (h : Steps execute s s') (step : Step execute s' s'') :
      Steps execute s s''

/-- What is left of the request is forgotten. -/
theorem sound_reset {c : Client} (hfit : c.querybuf.length ≤ PROTO_MAX_QUERYBUF_LEN)
    (herrors : c.errors ≠ [] → c.flags.closeAfterReply = true) : Sound (resetClient c) where
  fits := hfit
  room := Nat.zero_le _
  holding := .inl (.line rfl rfl rfl (fun h => by cases h))
  refused := herrors

/-- Out of service because of a refusal. -/
theorem isShut_of_close {s : State σ} (h : s.client.flags.closeAfterReply = true) :
    s.service.isShut = true := by
  simp [Service.isShut, State.service, h]

/-- A turn on any bytes returns; the client is sound again, and if the turn goes on the buffer is
shorter. -/
theorem turn_any (execute : Execute σ) {s : State σ} (h : Sound s.client)
    (hne : s.client.querybuf ≠ []) :
    ∃ s' again, turn execute s = .ok (s', again) ∧ Sound s'.client
      ∧ s'.client.querybuf.length ≤ s.client.querybuf.length
      ∧ (again = true → s'.client.querybuf.length < s.client.querybuf.length)
      ∧ (s.client.flags.closeAfterReply = true →
        s'.handed = s.handed ∧ s'.client.flags.closeAfterReply = true ∧ again = false) := by
  by_cases hshut : s.service.isShut = true
  · refine ⟨_, false, turn_shut hshut, h, Nat.le_refl _, ?_, fun hc => ⟨rfl, hc, rfl⟩⟩
    intro hagain
    cases hagain
  · have hlive : ¬ s.client.flags.closeAfterReply = true := fun hc => hshut (isShut_of_close hc)
    have hclean : s.client.errors = [] := by
      by_contra herrors
      exact hlive (h.refused herrors)
    have hholding : Holding s.client := h.holding.resolve_right (fun hc => hlive hc.1)
    obtain ⟨⟨c, ok⟩, hparse, hparsed⟩ := parse_any hholding hne h.fits
    have hturn : turn execute s = .ok (if ok then
        dispatch execute { s with server := s.service.pausedNow.1, client := c }
      else ({ s with server := s.service.pausedNow.1, client := c }, false)) := by
      rw [turn_eq, if_neg hshut, hparse]
      rfl
    cases hparsed with
    | wait holding querybuf room flags errors =>
        refine ⟨_, false, hturn, ⟨Nat.le_trans querybuf h.fits, room, .inl holding, ?_⟩, querybuf, ?_,
          fun hc => absurd hc hlive⟩
        · intro herrors
          exact absurd (errors.trans hclean) herrors
        · intro hagain
          cases hagain
    | refused hclosed =>
        have hflag : c.flags.closeAfterReply = true := by rw [hclosed.flags]
        refine ⟨_, false, hturn, ⟨Nat.le_trans hclosed.querybuf h.fits, hclosed.room,
          .inr ⟨hflag, hclosed.bulklen⟩, fun _ => hflag⟩, hclosed.querybuf, ?_,
          fun hc => absurd hc hlive⟩
        intro hagain
        cases hagain
    | request querybuf multibulklen bulklen room flags errors =>
        have hfit : c.querybuf.length ≤ PROTO_MAX_QUERYBUF_LEN :=
          Nat.le_trans (Nat.le_of_lt querybuf) h.fits
        have hcerrors : c.errors = [] := errors.trans hclean
        rw [if_pos rfl] at hturn
        by_cases hargv : c.argv = []
        · rw [dispatch, if_pos (by dsimp only; rw [hargv]; rfl)] at hturn
          exact ⟨_, true, hturn, sound_reset hfit (fun h => absurd hcerrors h), Nat.le_of_lt querybuf,
            fun _ => querybuf, fun hc => absurd hc hlive⟩
        · by_cases hquit : isQuit c.argv = true
          · rw [dispatch_quit hargv hquit] at hturn
            exact ⟨_, _, hturn, ⟨hfit, room, .inr ⟨rfl, bulklen⟩, fun _ => rfl⟩, Nat.le_of_lt querybuf,
              fun _ => querybuf, fun hc => absurd hc hlive⟩
          · rw [dispatch_execute hargv hquit] at hturn
            exact ⟨_, _, hturn, sound_reset hfit (fun h => absurd hcerrors h), Nat.le_of_lt querybuf,
              fun _ => querybuf, fun hc => absurd hc hlive⟩

/-- A client in a big argument never has more of it than it is long. -/
theorem Holding.readlen_nonneg {c : Client} (h : Holding c) : 0 ≤ readlen c := by
  cases h with
  | line _ hm _ _ =>
      rw [readlen, if_neg (fun h => h.2.1 hm)]
      decide
  | args request some big =>
      rcases request.known with hb | ⟨k, hb, hk⟩
      · rw [readlen, if_neg (fun h => h.2.2.1 hb)]
        decide
      · by_cases hbig : PROTO_MBULK_BIG_ARG ≤ k
        · have hle := big k hb hbig
          rw [readlen_big request.reqtype some hb hbig hk hle]
          unfold PROTO_IOBUF_LEN
          omega
        · rw [readlen, if_neg (fun h => hbig (by omega))]
          decide

theorem Sound.readlen_nonneg {c : Client} (h : Sound c) : 0 ≤ readlen c := by
  rcases h.holding with hh | ⟨_, hb⟩
  · exact hh.readlen_nonneg
  · rw [readlen, if_neg (fun h => h.2.2.1 hb)]
    decide

/-- More bytes. -/
theorem Holding.append {c : Client} {b : Bytes} (h : Holding c)
    (hlen : (b.length : Int) ≤ readlen c) : Holding { c with querybuf := c.querybuf ++ b } := by
  cases h with
  | line hargv hm hb hstar =>
      refine .line hargv hm hb ?_
      intro hr
      have hhead := hstar hr
      have hne : c.querybuf ≠ [] := by
        intro hnil
        rw [hnil] at hhead
        cases hhead
      dsimp only
      rw [List.head?_append_of_ne_nil _ hne]
      exact hhead
  | args request some big =>
      refine .args ⟨request.reqtype, request.room, request.known⟩ some ?_
      intro k hk hbig
      dsimp only at hk ⊢
      have hle := big k hk hbig
      have hshort : k ≤ 512 * 1024 * 1024 := by
        rcases request.known with hb | ⟨k', hb, hk'⟩ <;> omega
      rw [readlen_big request.reqtype some hk hbig hshort hle] at hlen
      rw [List.length_append]
      omega

/-- A step keeps the client sound. -/
theorem Sound.step {execute : Execute σ} {s s' : State σ} (h : Sound s.client)
    (hstep : Step execute s s') : Sound s'.client := by
  cases hstep with
  | arrive _ _ hlen hfit =>
      refine ⟨hfit, h.room, ?_, h.refused⟩
      rcases h.holding with hh | hclosed
      · exact .inl (hh.append hlen)
      · exact .inr hclosed
  | turn hne hturn =>
      obtain ⟨s'', again, hrun, hsound, _⟩ := turn_any execute h hne
      rw [hturn, Except.ok.injEq, Prod.mk.injEq] at hrun
      rw [hrun.1]
      exact hsound
  | meanwhile server flags hflags =>
      refine ⟨h.fits, h.room, ?_, fun he => hflags (h.refused he)⟩
      rcases h.holding with hh | ⟨hclosed, hb⟩
      · left
        cases hh with
        | line hargv hm hb hstar => exact .line hargv hm hb hstar
        | args request some big =>
            exact .args ⟨request.reqtype, request.room, request.known⟩ some big
      · exact .inr ⟨hflags hclosed, hb⟩

theorem sound_fresh (server : Server σ) : Sound (arrived server []).client where
  fits := Nat.zero_le _
  room := Nat.zero_le _
  holding := .inl (.line rfl rfl rfl (fun h => by cases h))
  refused := fun h => absurd rfl h

/-- Every state of a run. -/
theorem Steps.sound {execute : Execute σ} {s s' : State σ} (h : Steps execute s s')
    (hs : Sound s.client) : Sound s'.client := by
  induction h with
  | refl => exact hs
  | tail _ hstep ih => exact ih.step hstep

/-- The loop ends within as many turns as there are bytes. -/
theorem inputLoop_any (execute : Execute σ) : ∀ (fuel : Nat) (s : State σ), Sound s.client →
    s.client.querybuf.length ≤ fuel →
    ∃ s', inputLoop execute fuel s = .ok s' ∧ Steps execute s s' := by
  intro fuel
  induction fuel with
  | zero =>
      intro s _ hlen
      have hq : s.client.querybuf = [] := List.eq_nil_of_length_eq_zero (by omega)
      exact ⟨s, inputLoop_nil hq, .refl s⟩
  | succ fuel ih =>
      intro s hs hlen
      by_cases hq : s.client.querybuf = []
      · exact ⟨s, inputLoop_nil hq, .refl s⟩
      · obtain ⟨s₁, again, hturn, hsound, _, hless, _⟩ := turn_any execute hs hq
        rw [inputLoop_turn hq hturn]
        cases again with
        | false => exact ⟨s₁, rfl, .tail (.refl s) (.turn hq hturn)⟩
        | true =>
            have := hless rfl
            obtain ⟨s', hloop, hsteps⟩ := ih s₁ hsound (by omega)
            refine ⟨s', hloop, ?_⟩
            clear hloop
            induction hsteps with
            | refl => exact .tail (.refl s) (.turn hq hturn)
            | tail _ hstep ih' => exact .tail ih' hstep

/-- A refused client stays refused, and nothing more of it is executed. -/
theorem Steps.refused {execute : Execute σ} {s s' : State σ} (h : Steps execute s s')
    (hs : Sound s.client) (hclosed : s.client.flags.closeAfterReply = true) :
    s'.handed = s.handed ∧ s'.client.flags.closeAfterReply = true := by
  induction h with
  | refl => exact ⟨rfl, hclosed⟩
  | @tail s₁ s₂ hsteps hstep ih =>
      have hsound := hsteps.sound hs
      cases hstep with
      | arrive _ _ _ _ => exact ih
      | turn hne hturn =>
          obtain ⟨s'', again, hrun, _, _, _, hkeep⟩ := turn_any execute hsound hne
          rw [hturn, Except.ok.injEq, Prod.mk.injEq] at hrun
          obtain ⟨hhanded, hflag, _⟩ := hkeep ih.2
          rw [hrun.1]
          exact ⟨hhanded.trans ih.1, hflag⟩
      | meanwhile server flags hflags => exact ⟨ih.1, hflags ih.2⟩

end Query

end RedisCore
