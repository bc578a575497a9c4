/-
# `RedisCore.Networking.Inline` — requests that are lines

A line ends at its line feed, with or without a carriage return in front.  The buffer is cut
two bytes behind the words in both cases, so a line that ends in a bare line feed takes the
next byte with it, unless it is the last that the buffer has.
-/
import RedisCore.Networking.Deliveries
import RedisCore.Networking.Words

namespace RedisCore

namespace Query

open CInt Decimal

/-! ## Arguments -/

/-- The arguments that are stored. -/
def stored (argv : List Bytes) : List Bytes := argv.filter (· ≠ [])

/-- Room for the arguments is room for the ones that are stored. -/
theorem storeArgs_spec : ∀ (argv : List Bytes) (c : Client),
    c.argv.length + argv.length ≤ c.slots →
    storeArgs argv c = .ok { c with argv := c.argv ++ stored argv } := by
  intro argv
  induction argv with
  | nil =>
      intro c _
      simp [storeArgs, stored]
  | cons a argv ih =>
      intro c h
      rw [List.length_cons] at h
      rw [storeArgs]
      by_cases ha : a.length ≠ 0
      · have hne : a ≠ [] := fun hnil => ha (by rw [hnil]; rfl)
        rw [if_pos ha, storeArg, if_pos (by omega), ok_bind]
        dsimp only
        rw [ih _ (by simp; omega)]
        simp [stored, hne]
      · have hnil : a = [] := List.eq_nil_of_length_eq_zero (by simpa using ha)
        rw [if_neg ha, ok_bind]
        dsimp only
        rw [ih _ (by omega)]
        simp [stored, hnil]

/-! ## Lines -/

/-- A line, and whether a carriage return stands in front of its line feed. -/
structure Line where
  content : Bytes
  crlf : Bool

def Line.bytes (l : Line) : Bytes := l.content ++ if l.crlf then [13, 10] else [10]

/-- A line that is a request of its own. -/
structure Line.Valid (l : Line) : Prop where
  nul : 0 ∉ l.content
  feed : 10 ∉ l.content
  star : l.content.head? ≠ some 42
  short : l.content.length < 64 * 1024
  balanced : ∃ argv, sdssplitargs l.content = .ok (some argv)
  bare : l.crlf = false → l.content.getLast? ≠ some 13

/-- The request of a line: its words that are not empty, if there are any. -/
def Line.requests (l : Line) : List (List Bytes) :=
  match sdssplitargs l.content with
  | .ok (some argv) => if stored argv = [] then [] else [stored argv]
  | _ => []

/-- A part of a line is left alone. -/
theorem processInlineBuffer_part {c : Client} (hfeed : 10 ∉ c.querybuf)
    (hshort : c.querybuf.length ≤ PROTO_INLINE_MAX_SIZE) :
    processInlineBuffer c = .ok (c, false) := by
  rw [processInlineBuffer, strchr_none hfeed]
  dsimp only
  rw [if_neg (by omega)]

/-- The length of a line whose line feed is cut off. -/
def lineLen (h : Bytes) : Nat := if h.getLast? = some 13 then h.length - 1 else h.length

theorem lineLen_le (h : Bytes) : lineLen h ≤ h.length := by
  unfold lineLen
  split <;> omega

/-- The reply to quotes that are not closed. -/
def unbalanced : List ReplyCall := addReplyError "Protocol error: unbalanced quotes in request"

/-- The client behind a line of `n` bytes, by what `sdssplitargs` says of it. -/
def afterLine (c : Client) (n : Nat) : Option (List Bytes) → Client × Bool
  | none => (setProtocolError (c.complain unbalanced) 0, false)
  | some argv =>
      ({ c with
        querybuf := c.querybuf.drop (n + 2)
        slots := if argv.length ≠ 0 then argv.length else c.slots
        argv := stored argv }, true)

/-- What is made of the bytes in front of a line feed. -/
theorem processInlineBuffer_feed {c : Client} {h rest : Bytes} {vector : Option (List Bytes)}
    (hq : c.querybuf = h ++ 10 :: rest) (hfeed : 10 ∉ h) (hnul : 0 ∉ h)
    (hfit : c.querybuf.length ≤ PROTO_MAX_QUERYBUF_LEN)
    (hvector : sdssplitargs (h.take (lineLen h)) = .ok vector) :
    processInlineBuffer c = .ok (afterLine c (lineLen h) vector) := by
  have hmax : PROTO_MAX_QUERYBUF_LEN = 2 ^ 30 := rfl
  have hlen : c.querybuf.length = h.length + 1 + rest.length := by
    rw [hq, List.length_append, List.length_cons]
    omega
  have hle := lineLen_le h
  have hend : lineEnd c.querybuf h.length = .ok (lineLen h) := by
    unfold lineLen
    cases hlast : h.getLast? with
    | none =>
        rw [List.getLast?_eq_none_iff] at hlast
        subst hlast
        rfl
    | some b =>
        obtain ⟨front, hfront⟩ := List.getLast?_eq_some_iff.mp hlast
        have hidx : ((h.length : Nat) : Int) - 1 = ((front.length : Nat) : Int) := by
          rw [hfront, List.length_append, List.length_singleton]
          omega
        have hbyte : byteAt c.querybuf front.length = .ok b := by
          rw [byteAt_eq (by rw [hq, hfront]; simp)]
          simp only [hq, hfront, List.append_assoc, List.getElem_append_right (Nat.le_refl _)]
          simp
        rw [lineEnd, if_pos (by rw [hfront]; simp), hidx, hbyte, ok_bind]
        by_cases hb : b = 13
        · rw [if_pos hb, if_pos (by rw [hb])]
          rfl
        · rw [if_neg hb, if_neg (fun hc => hb (Option.some.inj hc))]
          rfl
  have haux : bytesAt c.querybuf 0 (lineLen h) = .ok (h.take (lineLen h)) := by
    have := bytesAt_eq (s := c.querybuf) (i := 0) (n := lineLen h) (by omega)
    rw [show (0 : Int) = ((0 : Nat) : Int) from rfl, this, List.drop_zero, hq,
      List.take_append_of_le_length hle]
  have hcut : sdsrange c.querybuf (toInt (lineLen h + 2)) (-1) = c.querybuf.drop (lineLen h + 2) := by
    have hint : toInt ((lineLen h : Int) + 2) = ((lineLen h + 2 : Nat) : Int) := by
      rw [toInt_eq (by omega) (by omega)]
      rfl
    rw [hint, sdsrange_from hfit]
  rw [processInlineBuffer, hq, strchr_append (by decide) hfeed hnul, ← hq]
  dsimp only
  rw [hend, ok_bind, haux, ok_bind, hvector, ok_bind]
  cases vector with
  | none => rfl
  | some argv =>
      dsimp only
      rw [hcut, storeArgs_spec _ _ (by
        dsimp only
        split
        · simp
        · simp
          omega)]
      rfl

/-! ## One line -/

/-- A client between two lines, or with a part of one. -/
structure Resting (c : Client) : Prop where
  argv : c.argv = []
  multibulklen : c.multibulklen = 0
  bulklen : c.bulklen = -1
  reqtype : c.reqtype ≠ .multibulk

theorem Line.bytes_ne_nil (l : Line) : l.bytes ≠ [] := by
  intro h
  have := (List.append_eq_nil_iff.mp h).2
  split at this <;> cases this

/-- A line does not start with a star. -/
theorem Line.Valid.head {l : Line} (h : l.Valid) : l.bytes.head? ≠ some 42 := by
  have hstar := h.star
  unfold Line.bytes
  cases hc : l.content with
  | nil =>
      rw [List.nil_append]
      split <;> simp
  | cons x xs =>
      rw [hc] at hstar
      exact hstar

/-- A line is what `lineLen` cuts the line feed off from. -/
theorem Line.Valid.cut {l : Line} (h : l.Valid) : ∃ front, l.bytes = front ++ [10] ∧ 10 ∉ front
    ∧ 0 ∉ front ∧ lineLen front = l.content.length ∧ front.take (lineLen front) = l.content := by
  cases hcrlf : l.crlf with
  | true =>
      have hlen : lineLen (l.content ++ [13]) = l.content.length := by
        rw [lineLen, if_pos List.getLast?_concat, List.length_append, List.length_singleton]
        omega
      refine ⟨l.content ++ [13], ?_, ?_, ?_, hlen, ?_⟩
      · rw [Line.bytes, hcrlf, if_pos rfl, List.append_assoc]
        rfl
      · rw [List.mem_append, List.mem_singleton]
        exact not_or.mpr ⟨h.feed, by decide⟩
      · rw [List.mem_append, List.mem_singleton]
        exact not_or.mpr ⟨h.nul, by decide⟩
      · rw [hlen, List.take_left]
  | false =>
      have hlen : lineLen l.content = l.content.length := by
        rw [lineLen, if_neg (h.bare hcrlf)]
      refine ⟨l.content, ?_, h.feed, h.nul, hlen, ?_⟩
      · rw [Line.bytes, hcrlf]
        rfl
      · rw [hlen, List.take_length]

/-- The first byte decides for a line. -/
theorem parse_inline {c : Client} (h : c.reqtype ≠ .multibulk) (hne : c.querybuf ≠ [])
    (hstar : c.querybuf.head? ≠ some 42) :
    parse c = processInlineBuffer { c with reqtype := .inline } := by
  cases hr : c.reqtype with
  | multibulk => exact absurd hr h
  | inline =>
      have hc : { c with reqtype := .inline } = c := by rw [← hr]
      rw [hc, parse, requestType, if_neg (by rw [hr]; decide), ok_bind]
      simp only [hr]
  | unknown =>
      cases hq : c.querybuf with
      | nil => exact absurd hq hne
      | cons first rest =>
          have hfirst : first ≠ 42 := by
            rintro rfl
            exact hstar (by rw [hq]; rfl)
          have hbyte : byteAt (first :: rest) 0 = .ok first :=
            byteAt_eq (s := first :: rest) (i := 0) (Nat.succ_pos _)
          rw [parse, requestType, if_pos hr, hq, hbyte, ok_bind, if_neg hfirst]
          rfl

/-- A complete line at the front. -/
theorem parse_line {c : Client} {l : Line} {rest : Bytes} {argv : List Bytes} (hrest : Resting c)
    (hl : l.Valid) (hargv : sdssplitargs l.content = .ok (some argv))
    (hq : c.querybuf = l.bytes ++ rest) (hfit : c.querybuf.length ≤ PROTO_MAX_QUERYBUF_LEN) :
    ∃ c', parse c = .ok (c', true) ∧ Complete c c' (stored argv)
      ∧ c'.querybuf = if l.crlf then rest else rest.drop 1 := by
  obtain ⟨front, hbytes, hfeed, hnul, hlen, htake⟩ := hl.cut
  have hq' : c.querybuf = front ++ 10 :: rest := by
    rw [hq, hbytes, List.append_assoc]
    rfl
  have hstar : c.querybuf.head? ≠ some 42 := by
    rw [hq, List.head?_append_of_ne_nil _ l.bytes_ne_nil]
    exact hl.head
  have hne : c.querybuf ≠ [] := by
    rw [hq]
    exact fun h => l.bytes_ne_nil (List.append_eq_nil_iff.mp h).1
  have hparse := processInlineBuffer_feed (c := { c with reqtype := .inline }) hq' hfeed hnul hfit
    (by rw [htake]; exact hargv)
  rw [parse_inline hrest.reqtype hne hstar, hparse, hlen]
  refine ⟨_, rfl, ⟨rfl, hrest.multibulklen, hrest.bulklen, rfl, rfl⟩, ?_⟩
  show c.querybuf.drop (l.content.length + 2) = _
  rw [hq, Line.bytes]
  cases l.crlf with
  | true =>
      have : l.content.length + 2 = (l.content ++ [13, 10]).length := by
        rw [List.length_append]
        rfl
      rw [if_pos rfl, if_pos rfl, this, List.drop_left]
  | false =>
      have : l.content.length + 2 = (l.content ++ [10]).length + 1 := by
        rw [List.length_append]
        rfl
      rw [if_neg (by decide), if_neg (by decide), this, ← List.drop_drop, List.drop_left]

/-- A part of a line at the front. -/
theorem parse_part {c : Client} {l : Line} {t more : Bytes} (hrest : Resting c) (hl : l.Valid)
    (hne : c.querybuf ≠ []) (heq : c.querybuf ++ t = l.bytes ++ more)
    (hpart : ¬ l.bytes <+: c.querybuf) :
    parse c = .ok ({ c with reqtype := .inline }, false) ∧ 10 ∉ c.querybuf := by
  obtain ⟨front, hbytes, hfeed, _, hlen, _⟩ := hl.cut
  have hshort := hl.short
  have hlt := length_lt_of_cut heq hpart
  have hwhole : c.querybuf <+: l.bytes ++ more := ⟨t, heq⟩
  have hpre : c.querybuf <+: front := by
    refine List.prefix_of_prefix_length_le hwhole ?_ ?_
    · rw [hbytes, List.append_assoc]
      exact List.prefix_append _ _
    · rw [hbytes, List.length_append, List.length_singleton] at hlt
      omega
  have hno : 10 ∉ c.querybuf := fun h => hfeed (hpre.subset h)
  have hfront : front.length ≤ l.content.length + 1 := by
    unfold lineLen at hlen
    split at hlen <;> omega
  have hsmall : c.querybuf.length ≤ PROTO_INLINE_MAX_SIZE := by
    have := hpre.length_le
    unfold PROTO_INLINE_MAX_SIZE
    omega
  have hstar : c.querybuf.head? ≠ some 42 := by
    have hhead := congrArg List.head? heq
    rw [List.head?_append_of_ne_nil _ hne, List.head?_append_of_ne_nil _ l.bytes_ne_nil] at hhead
    rw [hhead]
    exact hl.head
  rw [parse_inline hrest.reqtype hne hstar]
  exact ⟨processInlineBuffer_part hno hsmall, hno⟩

/-! ## The lines of a buffer -/

variable {execute : Execute σ} {s : State σ}

/-- A turn that finds a line. -/
theorem turn_line (hopen : s.service.isOpen = true) {l : Line} {rest : Bytes}
    (hrest : Resting s.client) (hl : l.Valid) (hq : s.client.querybuf = l.bytes ++ rest)
    (hfit : s.client.querybuf.length ≤ PROTO_MAX_QUERYBUF_LEN) :
    ∃ s', turn execute s = .ok (s', !s'.freed) ∧ s'.handed = s.handed ++ l.requests
      ∧ s'.client.errors = s.client.errors
      ∧ s'.client.querybuf = (if l.crlf then rest else rest.drop 1)
      ∧ (s'.service.isOpen = true → Resting s'.client) := by
  obtain ⟨argv, hargv⟩ := hl.balanced
  obtain ⟨c, hparse, hc, hcut⟩ := parse_line hrest hl hargv hq hfit
  have hfree : s.freed = false := by
    have := (Bool.and_eq_true _ _).mp hopen
    simpa [State.service] using this.2
  by_cases hnone : stored argv = []
  · have hrequests : l.requests = [] := by
      rw [Line.requests, hargv]
      dsimp only
      rw [if_pos hnone]
    have hargc : c.argv.length = 0 := by rw [hc.argv, hnone]; rfl
    rw [turn_open hopen hparse, if_pos rfl, dispatch, if_pos hargc]
    refine ⟨{ s with server := s.service.pausedNow.1, client := resetClient c }, ?_, ?_, ?_, ?_, ?_⟩
    · rw [hfree]
      rfl
    · exact (by rw [hrequests, List.append_nil] : s.handed = s.handed ++ l.requests)
    · exact hc.errors
    · exact hcut
    · intro _
      exact ⟨rfl, rfl, rfl, fun h => by cases h⟩
  · have hrequests : l.requests = [stored argv] := by
      rw [Line.requests, hargv]
      dsimp only
      rw [if_neg hnone]
    obtain ⟨s', hturn, hhanded⟩ : ∃ s', turn execute s = .ok (s', !s'.freed)
        ∧ Handed execute s s' c (stored argv) := turn_complete hopen hparse hc hnone
    refine ⟨s', hturn, ?_, ?_, ?_, ?_⟩
    · rw [hrequests, hhanded.handed]
    · rw [hhanded.errors, hc.errors]
    · rw [hhanded.querybuf, hcut]
    · intro h
      have hidle := hhanded.idle h
      exact ⟨hidle.argv, hidle.multibulklen, hidle.bulklen, by rw [hhanded.reqtype h]; decide⟩

/-- What the loop leaves of the lines: those in front are done, the client has the rest. -/
structure Lined (s s' : State σ) (t : Bytes) (done todo : List Line) : Prop where
  handed : s'.handed = s.handed ++ done.flatMap Line.requests
  errors : s'.client.errors = s.client.errors
  owed : s'.client.querybuf ++ t = todo.flatMap Line.bytes
  resting : s'.service.isOpen = true → Resting s'.client ∧ 10 ∉ s'.client.querybuf

/-- No line that ends in a bare line feed ends in front of the last byte that has come. -/
def FeedsLast (lines : List Line) (t : Bytes) : Prop :=
  ∀ done l todo, lines = done ++ l :: todo → l.crlf = false →
    (todo.flatMap Line.bytes).length ≤ t.length

/-- The loop on some lines and a part of one. -/
theorem inputLoop_lines : ∀ (lines : List Line) (fuel : Nat) (s : State σ) {t : Bytes},
    (∀ l ∈ lines, l.Valid) → s.freed = false → (s.service.isOpen = true → Resting s.client) →
    s.client.querybuf.length ≤ PROTO_MAX_QUERYBUF_LEN → s.client.querybuf.length ≤ fuel →
    s.client.querybuf ++ t = lines.flatMap Line.bytes → FeedsLast lines t →
    ∃ s' done todo, inputLoop execute fuel s = .ok s' ∧ lines = done ++ todo
      ∧ Lined s s' t done todo := by
  intro lines
  induction lines with
  | nil =>
      intro fuel s t _ hfree hrest _ _ heq _
      have hq : s.client.querybuf = [] := (List.append_eq_nil_iff.mp heq).1
      refine ⟨s, [], [], inputLoop_nil hq, rfl, (List.append_nil _).symm, rfl, heq, ?_⟩
      intro h
      exact ⟨hrest h, by rw [hq]; exact List.not_mem_nil⟩
  | cons l lines ih =>
      intro fuel s t hvalid hfree hrest hfit hfuel heq hfeeds
      have hl : l.Valid := hvalid l (List.mem_cons_self ..)
      by_cases hq : s.client.querybuf = []
      · refine ⟨s, [], l :: lines, inputLoop_nil hq, rfl, (List.append_nil _).symm, rfl, heq, ?_⟩
        intro h
        exact ⟨hrest h, by rw [hq]; exact List.not_mem_nil⟩
      obtain ⟨fuel, rfl⟩ : ∃ k, fuel = k + 1 := by
        have := List.length_pos_of_ne_nil hq
        exact ⟨fuel - 1, by omega⟩
      by_cases hopen : s.service.isOpen = true
      · have heq' : s.client.querybuf ++ t = l.bytes ++ lines.flatMap Line.bytes := by
          rw [heq, List.flatMap_cons]
        by_cases hwhole : l.bytes <+: s.client.querybuf
        · obtain ⟨rest, hsplit⟩ := hwhole
          have hrest' : rest ++ t = lines.flatMap Line.bytes := by
            rw [← hsplit, List.append_assoc] at heq'
            exact List.append_cancel_left heq'
          obtain ⟨s₁, hturn, hhanded, herrors, hcut, hresting⟩ :
              ∃ s₁, turn execute s = .ok (s₁, !s₁.freed) ∧ s₁.handed = s.handed ++ l.requests
                ∧ s₁.client.errors = s.client.errors
                ∧ s₁.client.querybuf = (if l.crlf then rest else rest.drop 1)
                ∧ (s₁.service.isOpen = true → Resting s₁.client) :=
            turn_line hopen (hrest hopen) hl hsplit.symm hfit
          -- nothing follows a bare line feed
          have hq₁ : s₁.client.querybuf = rest := by
            rw [hcut]
            cases hcrlf : l.crlf with
            | true => rw [if_pos rfl]
            | false =>
                have hlast := hfeeds [] l lines rfl hcrlf
                have hlen := congrArg List.length hrest'
                rw [List.length_append] at hlen
                have hnil : rest = [] := List.eq_nil_of_length_eq_zero (by omega)
                rw [hnil]
                rfl
          have hlen : l.bytes.length + rest.length = s.client.querybuf.length := by
            rw [← hsplit, List.length_append]
          have hpos := List.length_pos_of_ne_nil l.bytes_ne_nil
          rw [inputLoop_turn hq hturn]
          cases hfree₁ : s₁.freed with
          | true =>
              refine ⟨s₁, [l], lines, rfl, rfl, ?_, herrors, by rw [hq₁]; exact hrest', ?_⟩
              · rw [hhanded, List.flatMap_singleton]
              · intro h
                rw [Service.isOpen] at h
                have : s₁.service.freed = true := hfree₁
                rw [this] at h
                simp at h
          | false =>
              obtain ⟨s', done, todo, hloop, hlines, hlined⟩ := ih fuel s₁
                (fun x hx => hvalid x (List.mem_cons_of_mem _ hx)) hfree₁ hresting
                (by rw [hq₁]; omega) (by rw [hq₁]; omega) (by rw [hq₁]; exact hrest')
                (fun done x todo hx => hfeeds (l :: done) x todo (by rw [hx]; rfl))
              refine ⟨s', l :: done, todo, hloop, by rw [hlines]; rfl, ?_, ?_, hlined.owed,
                hlined.resting⟩
              · rw [hlined.handed, hhanded, List.flatMap_cons, List.append_assoc]
              · rw [hlined.errors, herrors]
        · obtain ⟨hparse, hno⟩ := parse_part (hrest hopen) hl hq heq' hwhole
          refine ⟨_, [], l :: lines, (inputLoop_turn hq (turn_open hopen hparse)).trans rfl, rfl,
            (List.append_nil _).symm, rfl, heq, ?_⟩
          intro _
          have hr := hrest hopen
          exact ⟨⟨hr.argv, hr.multibulklen, hr.bulklen, fun h => by cases h⟩, hno⟩
      · have hclosed : s.service.isOpen = false := by simpa using hopen
        have hshut : s.service.isShut = true := by
          have : (!s.service.isShut && !s.freed) = false := hclosed
          simpa [hfree] using this
        refine ⟨_, [], l :: lines, (inputLoop_turn hq (turn_shut hshut)).trans rfl, rfl,
          (List.append_nil _).symm, rfl, heq, ?_⟩
        intro h
        rw [isOpen_pausedNow, hclosed] at h
        cases h

/-! ## Deliveries of lines -/

/-- No line that ends in a bare line feed ends in front of the last byte of the read `b`. -/
def FeedsInside (lines : List Line) (b t : Bytes) : Prop :=
  ∀ done l todo, lines = done ++ l :: todo → l.crlf = false →
    (todo.flatMap Line.bytes).length ≤ t.length
      ∨ (b ++ t).length ≤ (todo.flatMap Line.bytes).length

/-- The states of a delivery of lines, with the bytes that are still to come.  Each read finds
the client in service and has at least a byte and at most what the client asks for; bare line
feeds come last in their reads.  Until it has all requests the client stays in service. -/
inductive LineDelivery (execute : Execute σ) (lines : List Line) : State σ → Bytes → Prop
  | fresh (server : Server σ) (h : (arrived server []).service.isOpen = true) :
      LineDelivery execute lines (arrived server []) (lines.flatMap Line.bytes)
  | read {s s' : State σ} {b t : Bytes} (h : LineDelivery execute lines s (b ++ t))
      (hopen : s.service.isOpen = true) (hb : b ≠ []) (hlen : (b.length : Int) ≤ readlen s.client)
      (hfeeds : FeedsInside lines b t) (hread : readQueryFromClient execute s (.data b) = .ok s')
      (hin : InService (lines.flatMap Line.requests) s') : LineDelivery execute lines s' t
  | meanwhile {s : State σ} {t : Bytes} (h : LineDelivery execute lines s t)
      (hopen : s.service.isOpen = true) (server : Server σ) (flags : Flags)
      (hin : ({ s with server := server, client := { s.client with flags := flags } } :
        State σ).service.isOpen = true) :
      LineDelivery execute lines
        { s with server := server, client := { s.client with flags := flags } } t

/-- The lines `done` were requests, and the client has nothing of `todo` but what its buffer
holds in front of `t`. -/
structure LinesLeft (s : State σ) (t : Bytes) (done todo : List Line) : Prop where
  handed : s.handed = done.flatMap Line.requests
  errors : s.client.errors = []
  owed : s.client.querybuf ++ t = todo.flatMap Line.bytes
  resting : s.service.isOpen = true → Resting s.client ∧ 10 ∉ s.client.querybuf

/-- A buffer without a line feed is shorter than the next line. -/
theorem length_lt_of_line {q t : Bytes} {l : Line} {todo : List Line} (hl : l.Valid)
    (hno : 10 ∉ q) (heq : q ++ t = (l :: todo).flatMap Line.bytes) : q.length < l.bytes.length := by
  rw [List.flatMap_cons] at heq
  refine length_lt_of_cut heq ?_
  intro hpre
  obtain ⟨front, hbytes, _⟩ := hl.cut
  refine hno (hpre.subset ?_)
  rw [hbytes]
  exact List.mem_append_right _ (List.mem_singleton_self _)

/-- Of the lines that are left, none ends in what the buffer held before. -/
theorem FeedsInside.last {done todo : List Line} {q b t : Bytes}
    (h : FeedsInside (done ++ todo) b t) (hvalid : ∀ l ∈ todo, l.Valid) (hno : 10 ∉ q)
    (heq : q ++ (b ++ t) = todo.flatMap Line.bytes) : FeedsLast todo t := by
  rintro front l rest rfl hcrlf
  refine (h (done ++ front) l rest (List.append_assoc _ _ _).symm hcrlf).resolve_right ?_
  intro hle
  -- the line would end inside of the old buffer
  obtain ⟨head, hbytes, _⟩ := (hvalid l (List.mem_append_right _ (List.mem_cons_self ..))).cut
  rw [List.flatMap_append, List.flatMap_cons, ← List.append_assoc _ l.bytes] at heq
  have hlen := congrArg List.length heq
  rw [List.length_append, @List.length_append _ (_ ++ _)] at hlen
  have hpre : front.flatMap Line.bytes ++ l.bytes <+: q := by
    refine List.prefix_of_prefix_length_le (List.prefix_append _ (rest.flatMap Line.bytes)) ?_
      (by omega)
    rw [← heq]
    exact List.prefix_append _ _
  refine hno (hpre.subset (List.mem_append_right _ ?_))
  rw [hbytes]
  exact List.mem_append_right _ (List.mem_singleton_self _)

/-- A read of a client that waits for lines. -/
theorem read_lines (execute : Execute σ) {s : State σ} {b t : Bytes} {done todo : List Line}
    (h : LinesLeft s (b ++ t) done todo) (hvalid : ∀ l ∈ todo, l.Valid)
    (hopen : s.service.isOpen = true) (hb : b ≠ []) (hlen : (b.length : Int) ≤ readlen s.client)
    (hfeeds : FeedsInside (done ++ todo) b t) :
    ∃ s' now later, readQueryFromClient execute s (.data b) = .ok s' ∧ todo = now ++ later
      ∧ LinesLeft s' t (done ++ now) later := by
  have hmax : PROTO_MAX_QUERYBUF_LEN = 2 ^ 30 := rfl
  have hio : PROTO_IOBUF_LEN = 2 ^ 14 := rfl
  obtain ⟨hrest, hno⟩ := h.resting hopen
  have hread : (b.length : Int) ≤ PROTO_IOBUF_LEN := Int.le_trans hlen (readlen_le _)
  have hfit : (s.client.querybuf ++ b).length ≤ PROTO_MAX_QUERYBUF_LEN := by
    cases todo with
    | nil => exact absurd (List.append_eq_nil_iff.mp (List.append_eq_nil_iff.mp h.owed).2).1 hb
    | cons l later =>
        have hl := hvalid l (List.mem_cons_self ..)
        have hlt := length_lt_of_line hl hno h.owed
        have hshort := hl.short
        have hbytes : l.bytes.length ≤ l.content.length + 2 := by
          rw [Line.bytes, List.length_append]
          split <;> simp
        rw [List.length_append]
        omega
  have hfree : s.freed = false := by
    have := (Bool.and_eq_true _ _).mp hopen
    simpa [State.service] using this.2
  have hblen : ¬ b.length = 0 := fun h0 => hb (List.eq_nil_of_length_eq_zero h0)
  have hrun : readQueryFromClient execute s (.data b)
      = inputLoop execute (s.client.querybuf ++ b).length (s.received b) := by
    rw [readQueryFromClient, if_neg hblen]
    dsimp only
    rw [if_neg (by omega)]
    rfl
  obtain ⟨s', now, later, hloop, hsplit, hlined⟩ := @inputLoop_lines σ execute todo
    (s.client.querybuf ++ b).length (s.received b) t hvalid hfree
    (fun _ => ⟨hrest.argv, hrest.multibulklen, hrest.bulklen, hrest.reqtype⟩) hfit (Nat.le_refl _)
    (by rw [← h.owed]; exact List.append_assoc _ _ _) (hfeeds.last hvalid hno h.owed)
  refine ⟨s', now, later, hrun.trans hloop, hsplit, ?_, ?_, hlined.owed, hlined.resting⟩
  · rw [hlined.handed, List.flatMap_append, ← h.handed]
    rfl
  · rw [hlined.errors]
    exact h.errors

/-- Every state of a delivery of lines. -/
theorem LineDelivery.left {execute : Execute σ} {lines : List Line} {s : State σ} {t : Bytes}
    (hvalid : ∀ l ∈ lines, l.Valid) (h : LineDelivery execute lines s t) :
    InService (lines.flatMap Line.requests) s
      ∧ ∃ done todo, lines = done ++ todo ∧ LinesLeft s t done todo := by
  induction h with
  | fresh server hopen =>
      refine ⟨.inl hopen, [], lines, rfl, rfl, rfl, rfl, fun _ => ⟨?_, List.not_mem_nil⟩⟩
      exact ⟨rfl, rfl, rfl, fun h => by cases h⟩
  | read _ hopen hb hlen hfeeds hread hin ih =>
      obtain ⟨_, done, todo, rfl, hleft⟩ := ih
      obtain ⟨s', now, later, hrun, hsplit, hleft'⟩ := read_lines execute hleft
        (fun l hl => hvalid l (List.mem_append_right _ hl)) hopen hb hlen hfeeds
      rw [hread, Except.ok.injEq] at hrun
      subst hrun
      refine ⟨hin, done ++ now, later, ?_, hleft'⟩
      rw [hsplit, List.append_assoc]
  | meanwhile _ hopen server flags hin ih =>
      obtain ⟨_, done, todo, hsplit, hleft⟩ := ih
      obtain ⟨hrest, hno⟩ := hleft.resting hopen
      exact ⟨.inl hin, done, todo, hsplit, hleft.handed, hleft.errors, hleft.owed,
        fun _ => ⟨⟨hrest.argv, hrest.multibulklen, hrest.bulklen, hrest.reqtype⟩, hno⟩⟩

/-- In a delivery of lines whose bare line feeds come last in their reads, each read returns, no
error is sent, and the requests of the first lines were handed over while the buffer and the
bytes to come are exactly the other lines.  When all bytes have come, all requests were handed
over, and a client in service has nothing left. -/
theorem lines_handed {execute : Execute σ} {lines : List Line} {s : State σ} {t : Bytes}
    (hvalid : ∀ l ∈ lines, l.Valid) (h : LineDelivery execute lines s t) :
    (∀ b t', t = b ++ t' → s.service.isOpen = true → b ≠ [] → (b.length : Int) ≤ readlen s.client →
      FeedsInside lines b t' → ∃ s', readQueryFromClient execute s (.data b) = .ok s') ∧
    s.client.errors = [] ∧
    (∃ done todo, lines = done ++ todo ∧ s.handed = done.flatMap Line.requests
      ∧ s.client.querybuf ++ t = todo.flatMap Line.bytes) ∧
    (t = [] → s.handed = lines.flatMap Line.requests
      ∧ (s.service.isOpen = true → s.client.querybuf = [])) := by
  obtain ⟨hin, done, todo, hsplit, hleft⟩ := h.left hvalid
  have hvalid' : ∀ l ∈ todo, l.Valid := by
    intro l hl
    refine hvalid l ?_
    rw [hsplit]
    exact List.mem_append_right _ hl
  have hempty : t = [] → s.service.isOpen = true → todo = [] := by
    rintro rfl hopen
    cases todo with
    | nil => rfl
    | cons l later =>
        have hlt := length_lt_of_line (hvalid' l (List.mem_cons_self ..)) (hleft.resting hopen).2
          hleft.owed
        have hlen := congrArg List.length hleft.owed
        rw [List.append_nil, List.flatMap_cons, List.length_append] at hlen
        omega
  refine ⟨?_, hleft.errors, ⟨done, todo, hsplit, hleft.handed, hleft.owed⟩, ?_⟩
  · rintro b t' rfl hopen hb hlen hfeeds
    rw [hsplit] at hfeeds
    obtain ⟨s', _, _, hrun, _⟩ := read_lines execute hleft hvalid' hopen hb hlen hfeeds
    exact ⟨s', hrun⟩
  · intro ht
    refine ⟨?_, ?_⟩
    · rcases hin with hopen | hall
      · rw [hleft.handed, hsplit, hempty ht hopen, List.append_nil]
      · -- the lines that are left have no requests
        rw [hleft.handed, hsplit, List.flatMap_append, List.length_append] at hall
        have hnil : todo.flatMap Line.requests = [] := List.eq_nil_of_length_eq_zero (by omega)
        rw [hleft.handed, hsplit, List.flatMap_append, hnil, List.append_nil]
    · intro hopen
      have hq := hleft.owed
      rw [hempty ht hopen] at hq
      exact (List.append_eq_nil_iff.mp hq).1

/-- A line that ends in a bare line feed, in one read. -/
theorem lines_handed_ping : ∃ s, LineDelivery plainExecute [⟨cstr "PING", false⟩] s []
    ∧ s.handed = [[cstr "PING"]] := by
  have hvalid : ∀ l ∈ [Line.mk (cstr "PING") false], l.Valid := by
    intro l hl
    rw [List.mem_singleton] at hl
    subst hl
    exact ⟨by decide, by decide, by decide, by decide, ⟨[cstr "PING"], rfl⟩, fun _ => by decide⟩
  have hstart := @LineDelivery.fresh _ plainExecute [⟨cstr "PING", false⟩] plainServer rfl
  have hbytes : [Line.mk (cstr "PING") false].flatMap Line.bytes = cstr "PING\n" ++ [] := rfl
  rw [hbytes] at hstart
  have hfeeds : FeedsInside [Line.mk (cstr "PING") false] (cstr "PING\n") [] := by
    intro done l todo hsplit _
    cases done with
    | nil =>
        cases hsplit
        exact .inl (Nat.le_refl _)
    | cons x done =>
        rw [List.cons_append, List.cons.injEq] at hsplit
        exact absurd hsplit.2 (by simp)
  obtain ⟨s, hread⟩ := (lines_handed hvalid hstart).1 _ _ rfl rfl (by decide) (by decide) hfeeds
  have hopen : (readQueryFromClient plainExecute (arrived plainServer [])
      (.data (cstr "PING\n"))).toOption.map (fun s => s.service.isOpen) = some true := rfl
  rw [hread] at hopen
  have hend : LineDelivery plainExecute [⟨cstr "PING", false⟩] s [] :=
    .read hstart rfl (by decide) (by decide) hfeeds hread (.inl (Option.some.inj hopen))
  exact ⟨s, hend, ((lines_handed hvalid hend).2.2.2 rfl).1⟩

/-- Two such lines in one read: the second one loses its first byte. -/
theorem line_loses_byte :
    (∀ l ∈ [Line.mk (cstr "PING") false, Line.mk (cstr "PING") false], l.Valid)
    ∧ (arrived plainServer []).service.isOpen = true
    ∧ [Line.mk (cstr "PING") false, Line.mk (cstr "PING") false].flatMap Line.bytes
        = cstr "PING\nPING\n"
    ∧ ((cstr "PING\nPING\n").length : Int) ≤ readlen (arrived plainServer []).client
    ∧ (readQueryFromClient plainExecute (arrived plainServer [])
        (.data (cstr "PING\nPING\n"))).toOption.map State.handed
        = some [[cstr "PING"], [cstr "ING"]] := by
  refine ⟨?_, rfl, rfl, by decide, rfl⟩
  intro l hl
  simp only [List.mem_cons, List.not_mem_nil, or_false, or_self] at hl
  subst hl
  exact ⟨by decide, by decide, by decide, by decide, ⟨[cstr "PING"], rfl⟩, fun _ => by decide⟩

end Query

end RedisCore
