/-
# `RedisCore.Networking.Framing` — commands in, vectors out

A command is sent as the number of its arguments and then each argument behind its length.
Wherever the bytes are cut, what is parsed and what is still in the buffer add up to what was
sent: `Owed` says what is left of the arguments, for a client whose next one may have its
length read already.

The one thing that goes wrong is a cut in a length whose carriage return has not come: the
test for a length that is too long counts the whole buffer.  `Overlong` walks over the
arguments the way the parser does, with the bytes that it still keeps in front of them.
-/
import RedisCore.Networking.Query

namespace RedisCore

namespace Query

open CInt Decimal

/-! ## Encodings -/

/-- The first line of a request. -/
def requestLine (n : Nat) : Bytes := 42 :: (decNat n ++ [13, 10])

/-- The line in front of an argument. -/
def bulkLine (n : Nat) : Bytes := 36 :: (decNat n ++ [13, 10])

/-- An argument: a bulk string. -/
def bulk (a : Bytes) : Bytes := bulkLine a.length ++ (a ++ [13, 10])

/-- A command as a request. -/
def request (cmd : List Bytes) : Bytes := requestLine cmd.length ++ cmd.flatMap bulk

/-- The limits of the protocol. -/
structure Valid (cmd : List Bytes) : Prop where
  nonempty : cmd ≠ []
  count : cmd.length ≤ 1024 * 1024
  short : ∀ a ∈ cmd, a.length ≤ 512 * 1024 * 1024

/-- An argument is encoded as the replies encode it. -/
theorem bulk_eq_respBulk (a : Bytes) : bulk a = respBulk a := by
  have hdec : decInt (a.length : Int) = decNat a.length := by
    rw [decInt, if_neg (by omega), Int.natAbs_natCast]
  simp [bulk, bulkLine, respBulk, hdec, cstr]

theorem not_mem_decNat {n : Nat} {c : UInt8} (hc : c.toNat < 48) : c ∉ decNat n := by
  intro h
  have := (isDigit_of_mem h).1
  omega

theorem string2ll_decNat {n : Nat} (h : n < 2 ^ 63) : string2ll (decNat n) = some (n : Int) := by
  have hdec : decInt (n : Int) = decNat n := by
    rw [decInt, if_neg (by omega), Int.natAbs_natCast]
  rw [← hdec]
  exact string2ll_complete (by unfold LONG_MIN; omega) (by unfold LONG_MAX; omega)

theorem length_bulkLine (n : Nat) : (bulkLine n).length = (decNat n).length + 3 := by
  simp [bulkLine]

theorem length_bulk (a : Bytes) : (bulk a).length = (decNat a.length).length + a.length + 5 := by
  simp only [bulk, List.length_append, length_bulkLine, List.length_cons, List.length_nil]
  omega

/-! ## One argument -/

section Step

variable {c : Client} {front : Bytes}

/-- A length that has come completely is read. -/
theorem readBulkLen_line {n : Nat} {rest : Bytes} (hb : c.bulklen = -1)
    (hq : c.querybuf = front ++ (bulkLine n ++ rest))
    (hfit : c.querybuf.length ≤ PROTO_MAX_QUERYBUF_LEN) (hn : n ≤ 512 * 1024 * 1024) :
    readBulkLen c front.length = .ok (if PROTO_MBULK_BIG_ARG ≤ n then
        .go { c with querybuf := rest, bulklen := n } 0
      else .go { c with bulklen := n } ((front ++ bulkLine n).length : Nat)) := by
  have hmax : PROTO_MAX_QUERYBUF_LEN = 2 ^ 30 := rfl
  obtain ⟨digits, hdigits⟩ : ∃ d, d = decNat n := ⟨_, rfl⟩
  have hq' : c.querybuf = front ++ (36 :: digits) ++ (13 :: 10 :: rest) := by
    rw [hq, bulkLine, hdigits]
    simp
  have hdrop : c.querybuf.drop front.length = (36 :: digits) ++ 13 :: (10 :: rest) := by
    rw [hq', List.append_assoc, List.drop_left]
  have hlen : c.querybuf.length = front.length + digits.length + 3 + rest.length := by
    rw [hq']
    simp only [List.length_append, List.length_cons]
    omega
  have hchr : strchr ((36 :: digits) ++ 13 :: (10 :: rest)) 13 = some (digits.length + 1) := by
    refine strchr_append (by decide) ?_ ?_
    · rw [hdigits, List.mem_cons]
      exact not_or.mpr ⟨by decide, not_mem_decNat (by decide)⟩
    · rw [hdigits, List.mem_cons]
      exact not_or.mpr ⟨by decide, not_mem_decNat (by decide)⟩
  have hint : toInt c.querybuf.length = c.querybuf.length := toInt_eq (by omega) (by omega)
  have hfirst : byteAt c.querybuf front.length = .ok 36 := by
    rw [byteAt_eq (by omega)]
    simp only [hq', List.append_assoc, List.getElem_append_right (Nat.le_refl _)]
    simp
  have hline : bytesAt c.querybuf (front.length + 1)
      (((digits.length + 1 + front.length : Nat) : Int) - (front.length + 1)) = .ok digits := by
    have hsub : ((digits.length + 1 + front.length : Nat) : Int) - (front.length + 1)
        = (digits.length : Nat) := by omega
    have hpos : (front.length : Int) + 1 = ((front.length + 1 : Nat) : Int) := by omega
    rw [hsub, hpos, bytesAt_eq (by omega), ← List.drop_drop, hdrop, List.cons_append,
      List.drop_succ_cons, List.drop_zero, List.take_left]
  have hpos : toInt (front.length + (((digits.length + 1 + front.length : Nat) : Int)
      - front.length + 2)) = ((front ++ bulkLine n).length : Nat) := by
    rw [toInt_eq (by omega) (by omega), List.length_append, length_bulkLine, ← hdigits]
    omega
  have hsds : sdsrange c.querybuf ((front ++ bulkLine n).length : Nat) (-1) = rest := by
    rw [sdsrange_from hfit, hq, ← List.append_assoc, List.drop_left]
  have hnew : ¬ ((digits.length + 1 + front.length : Nat) : Int) > toInt c.querybuf.length - 2 := by
    rw [hint]
    omega
  have hll : ¬ ((n : Int) < 0 ∨ (n : Int) > 512 * 1024 * 1024) := by omega
  have hstr : string2ll digits = some (n : Int) := by rw [hdigits, string2ll_decNat (by omega)]
  rw [readBulkLen, if_neg (by rw [hb]; decide), strchrFrom_eq (by omega), hdrop, hchr]
  rw [ok_bind, Option.map_some]
  dsimp only
  rw [if_neg hnew, hfirst, ok_bind, if_neg (by decide), hline, ok_bind, hstr]
  dsimp only
  rw [if_neg hll, hpos, hsds]
  by_cases hbig : PROTO_MBULK_BIG_ARG ≤ n
  · rw [if_pos hbig, if_pos hbig]
    rfl
  · rw [if_neg hbig, if_neg hbig]
    rfl

/-- The reply to a length that does not end. -/
def tooBigBulk : List ReplyCall := addReplyError "Protocol error: too big bulk count string"

/-- Without a carriage return the length of the whole buffer decides. -/
theorem readBulkLen_open {avail : Bytes} (hb : c.bulklen = -1)
    (hq : c.querybuf = front ++ avail) (hcr : 13 ∉ avail) :
    readBulkLen c front.length = .ok (if c.querybuf.length > PROTO_INLINE_MAX_SIZE then
        c.refuse tooBigBulk 0 else .leave c front.length) := by
  have hdrop : c.querybuf.drop front.length = avail := by rw [hq, List.drop_left]
  have hle : front.length ≤ c.querybuf.length := by
    rw [hq, List.length_append]
    omega
  rw [readBulkLen, if_neg (by rw [hb]; decide), strchrFrom_eq hle, hdrop, strchr_none hcr, ok_bind,
    Option.map_none]
  dsimp only
  split <;> rfl

/-- A carriage return at the end is not yet a line. -/
theorem readBulkLen_half {h : Bytes} (hb : c.bulklen = -1)
    (hq : c.querybuf = front ++ (h ++ [13])) (hcr : 13 ∉ h) (h0 : 0 ∉ h)
    (hfit : c.querybuf.length ≤ PROTO_MAX_QUERYBUF_LEN) :
    readBulkLen c front.length = .ok (.leave c front.length) := by
  have hmax : PROTO_MAX_QUERYBUF_LEN = 2 ^ 30 := rfl
  have hdrop : c.querybuf.drop front.length = h ++ 13 :: [] := by rw [hq, List.drop_left]
  have hlen : c.querybuf.length = front.length + h.length + 1 := by
    rw [hq, List.length_append, List.length_append, List.length_singleton]
    omega
  have hint : toInt c.querybuf.length = c.querybuf.length := toInt_eq (by omega) (by omega)
  have hshort : ((h.length + front.length : Nat) : Int) > toInt c.querybuf.length - 2 := by
    rw [hint]
    omega
  rw [readBulkLen, if_neg (by rw [hb]; decide), strchrFrom_eq (by omega), hdrop,
    strchr_append (by decide) hcr h0, ok_bind, Option.map_some]
  dsimp only
  rw [if_pos hshort]
  rfl

/-- Of a known length nothing is read. -/
theorem readBulkLen_known (hb : c.bulklen ≠ -1) (pos : Int) :
    readBulkLen c pos = .ok (.go c pos) := by
  rw [readBulkLen, if_pos hb]

/-- The buffer is the argument: it holds nothing else. -/
def Whole (front a rest : Bytes) : Prop :=
  front = [] ∧ PROTO_MBULK_BIG_ARG ≤ a.length ∧ rest = []

instance (front a rest : Bytes) : Decidable (Whole front a rest) := instDecidableAnd

/-- An argument that has come with the two bytes behind it is stored, copied or not. -/
theorem readBulk_ready (front a rest : Bytes) {x y : UInt8} (hb : c.bulklen = a.length)
    (hq : c.querybuf = front ++ (a ++ x :: y :: rest))
    (hfit : c.querybuf.length ≤ PROTO_MAX_QUERYBUF_LEN) (hslots : c.argv.length < c.slots) :
    readBulk c front.length = .ok (if Whole front a rest then
        .go { c with querybuf := [], bulklen := -1, argv := c.argv ++ [a],
                     multibulklen := c.multibulklen - 1 } 0
      else .go { c with bulklen := -1, argv := c.argv ++ [a],
                        multibulklen := c.multibulklen - 1 } ((front.length + a.length + 2 : Nat))) := by
  have hmax : PROTO_MAX_QUERYBUF_LEN = 2 ^ 30 := rfl
  have hdrop : c.querybuf.drop front.length = a ++ x :: y :: rest := by rw [hq, List.drop_left]
  have hlen : c.querybuf.length = front.length + a.length + 2 + rest.length := by
    rw [hq]
    simp only [List.length_append, List.length_cons]
    omega
  have hint : toInt c.querybuf.length = c.querybuf.length := toInt_eq (by omega) (by omega)
  have hleft : toULong (c.querybuf.length - front.length)
      = a.length + 2 + rest.length := by
    unfold toULong
    omega
  have hneed : toUInt (c.bulklen + 2) = a.length + 2 := by
    unfold toUInt
    omega
  rw [readBulk, hleft, hneed, if_neg (by omega)]
  by_cases hwhole : Whole front a rest
  · obtain ⟨rfl, hbig, rfl⟩ := hwhole
    have hcond : (([] : Bytes).length : Int) = 0 ∧ c.bulklen ≥ PROTO_MBULK_BIG_ARG
        ∧ toInt c.querybuf.length = c.bulklen + 2 := by
      refine ⟨rfl, by omega, ?_⟩
      simp only [List.length_nil] at hlen
      omega
    have hobj : bytesAt c.querybuf 0 (c.querybuf.length - 2) = .ok a := by
      have hsub : (c.querybuf.length : Int) - 2 = (a.length : Nat) := by
        simp only [List.length_nil] at hlen
        omega
      have := bytesAt_eq (s := c.querybuf) (i := 0) (n := a.length) (by omega)
      rw [hsub]
      show bytesAt c.querybuf ((0 : Nat) : Int) (a.length : Nat) = _
      rw [this, List.drop_zero, hq, List.nil_append, List.take_left]
    rw [if_pos hcond, if_pos ⟨rfl, hbig, rfl⟩, hobj, ok_bind, storeArg, if_pos hslots]
    rfl
  · have hcond : ¬ ((front.length : Int) = 0 ∧ c.bulklen ≥ PROTO_MBULK_BIG_ARG
        ∧ toInt c.querybuf.length = c.bulklen + 2) := by
      rintro ⟨hfront, hbig, hall⟩
      refine hwhole ⟨List.eq_nil_of_length_eq_zero (by omega), by omega, ?_⟩
      exact List.eq_nil_of_length_eq_zero (by omega)
    have hobj : bytesAt c.querybuf front.length c.bulklen = .ok a := by
      rw [hb, bytesAt_eq (by omega), hdrop, List.take_left]
    have hpos : toInt (front.length + (c.bulklen + 2)) = ((front.length + a.length + 2 : Nat)) := by
      rw [toInt_eq (by omega) (by omega)]
      omega
    rw [if_neg hcond, if_neg hwhole, hobj, ok_bind, storeArg, if_pos hslots, ok_bind, hpos]
    rfl

/-- An argument that has not come is waited for. -/
theorem readBulk_short (front : Bytes) {avail : Bytes} {n : Nat} (hb : c.bulklen = n) (hn : n ≤ 512 * 1024 * 1024)
    (hq : c.querybuf = front ++ avail) (hshort : avail.length < n + 2) :
    readBulk c front.length = .ok (.leave c front.length) := by
  have hlen : c.querybuf.length = front.length + avail.length := by rw [hq, List.length_append]
  have hleft : toULong (c.querybuf.length - front.length) = avail.length := by
    unfold toULong
    omega
  have hneed : toUInt (c.bulklen + 2) = n + 2 := by
    unfold toUInt
    omega
  rw [readBulk, hleft, hneed, if_pos hshort]

/-- What the buffer still holds in front of `rest` when `a` has been read behind `front`: a big
argument is moved to the front, and goes with the buffer if nothing follows. -/
def kept (front a rest : Bytes) : Bytes :=
  if PROTO_MBULK_BIG_ARG ≤ a.length then if rest = [] then [] else a ++ [13, 10]
  else front ++ bulk a

/-- An argument that has come completely is one turn of the loop. -/
theorem bulkLoop_full {a rest : Bytes} {n : Nat} (hb : c.bulklen = -1)
    (hq : c.querybuf = front ++ (bulk a ++ rest))
    (hfit : c.querybuf.length ≤ PROTO_MAX_QUERYBUF_LEN) (ha : a.length ≤ 512 * 1024 * 1024)
    (hslots : c.argv.length < c.slots) :
    bulkLoop (n + 1) c front.length
      = bulkLoop n { c with querybuf := kept front a rest ++ rest, argv := c.argv ++ [a],
                            multibulklen := c.multibulklen - 1 } (kept front a rest).length := by
  have hq' : c.querybuf = front ++ (bulkLine a.length ++ (a ++ 13 :: 10 :: rest)) := by
    rw [hq, bulk]
    simp only [List.append_assoc, List.cons_append, List.nil_append]
  have hsub : (a ++ 13 :: 10 :: rest).length ≤ c.querybuf.length := by
    rw [hq']
    simp only [List.length_append]
    omega
  rw [bulkLoop, readBulkLen_line hb hq' hfit ha, ok_bind]
  by_cases hbig : PROTO_MBULK_BIG_ARG ≤ a.length
  · rw [if_pos hbig]
    dsimp only
    have hread := readBulk_ready [] a rest
      (c := { c with querybuf := a ++ 13 :: 10 :: rest, bulklen := a.length })
      rfl rfl (by dsimp only; omega) hslots
    rw [List.length_nil, Int.natCast_zero] at hread
    rw [hread, ok_bind]
    by_cases hrest : rest = []
    · subst hrest
      rw [if_pos ⟨rfl, hbig, rfl⟩]
      simp only [kept, if_pos hbig, if_true, List.append_nil, List.length_nil, Int.natCast_zero, hb]
    · rw [if_neg (fun h => hrest h.2.2)]
      have hkept : kept front a rest = a ++ [13, 10] := by
        rw [kept, if_pos hbig, if_neg hrest]
      have hlen : 0 + a.length + 2 = (a ++ [13, 10]).length := by
        simp only [List.length_append, List.length_cons, List.length_nil]
        omega
      rw [hkept, hlen, List.append_assoc, hb]
      rfl
  · rw [if_neg hbig]
    dsimp only
    have hread := readBulk_ready (c := { c with bulklen := a.length })
      (front ++ bulkLine a.length) a rest rfl
      (by rw [List.append_assoc]; exact hq') hfit hslots
    have hkept : kept front a rest = front ++ bulk a := by rw [kept, if_neg hbig]
    have hlen : (front ++ bulkLine a.length).length + a.length + 2 = (front ++ bulk a).length := by
      simp only [bulk, List.length_append, List.length_cons, List.length_nil]
      omega
    have hbuf : c.querybuf = front ++ bulk a ++ rest := by rw [hq, List.append_assoc]
    rw [hread, ok_bind, if_neg (fun h => hbig h.2.1), hkept, ← hbuf, hlen, hb]

end Step

/-! ## All arguments -/

/-- What the arguments that are left still take, where the length of the first one may be
read. -/
def Owed (bulklen : Int) : List Bytes → Bytes
  | [] => []
  | a :: args => (if bulklen = -1 then bulk a else a ++ [13, 10]) ++ args.flatMap bulk

/-- The bytes `avail` of the arguments `args` end in a length whose carriage return is missing,
while the buffer holds too much: `n` bytes in front, and what is kept of the arguments
between. -/
def Overlong (n : Nat) : List Bytes → Bytes → Prop
  | [], _ => False
  | a :: args, avail =>
      if bulk a <+: avail then
        Overlong
          (if PROTO_MBULK_BIG_ARG ≤ a.length then
            if avail.length = (bulk a).length then 0 else a.length + 2
          else n + (bulk a).length)
          args (avail.drop (bulk a).length)
      else 13 ∉ avail ∧ PROTO_INLINE_MAX_SIZE < n + avail.length

instance Overlong.decide : ∀ (n : Nat) (args : List Bytes) (avail : Bytes),
    Decidable (Overlong n args avail)
  | _, [], _ => instDecidableFalse
  | n, a :: args, avail =>
      have := Overlong.decide
        (if PROTO_MBULK_BIG_ARG ≤ a.length then
          if avail.length = (bulk a).length then 0 else a.length + 2
        else n + (bulk a).length) args (avail.drop (bulk a).length)
      inferInstanceAs (Decidable (if bulk a <+: avail then _ else _))

theorem length_kept (front a rest : Bytes) :
    (kept front a rest).length
      = if PROTO_MBULK_BIG_ARG ≤ a.length then
          if (bulk a ++ rest).length = (bulk a).length then 0 else a.length + 2
        else front.length + (bulk a).length := by
  have hiff : (bulk a ++ rest).length = (bulk a).length ↔ rest = [] := by
    rw [List.length_append]
    constructor
    · intro h
      exact List.eq_nil_of_length_eq_zero (by omega)
    · rintro rfl
      rfl
  unfold kept
  by_cases hbig : PROTO_MBULK_BIG_ARG ≤ a.length
  · rw [if_pos hbig, if_pos hbig]
    by_cases hrest : rest = []
    · rw [if_pos hrest, if_pos (hiff.mpr hrest)]
      rfl
    · rw [if_neg hrest, if_neg (fun h => hrest (hiff.mp h)), List.length_append]
      rfl
  · rw [if_neg hbig, if_neg hbig, List.length_append]

theorem length_kept_le (front a rest : Bytes) :
    (kept front a rest).length ≤ (front ++ bulk a).length := by
  have hbulk := length_bulk a
  rw [length_kept, @List.length_append _ front]
  split
  · split <;> omega
  · omega

theorem overlong_full (front : Bytes) (a : Bytes) (args : List Bytes) (rest : Bytes) :
    Overlong front.length (a :: args) (bulk a ++ rest)
      ↔ Overlong (kept front a rest).length args rest := by
  rw [Overlong, if_pos (List.prefix_append _ _), List.drop_left, length_kept]

/-- Too much is more than what the buffer held from the start. -/
theorem Overlong.lt_length : ∀ {args : List Bytes} {n : Nat} {avail : Bytes},
    Overlong n args avail → PROTO_INLINE_MAX_SIZE < n + avail.length := by
  intro args
  induction args with
  | nil => intro n avail h; exact h.elim
  | cons a args ih =>
      intro n avail h
      unfold Overlong at h
      split at h
      next hpre =>
        have hlt := ih h
        have hle := hpre.length_le
        rw [List.length_drop] at hlt
        have hbulk := length_bulk a
        split at hlt
        · split at hlt <;> omega
        · omega
      next => exact h.2

/-- The client has read `done` of the arguments, and `rest` are left. -/
structure Took (c c' : Client) (done rest : List Bytes) : Prop where
  argv : c'.argv = c.argv ++ done
  multibulklen : c'.multibulklen = rest.length
  slots : c'.slots = c.slots
  reqtype : c'.reqtype = c.reqtype
  flags : c'.flags = c.flags
  errors : c'.errors = c.errors

/-- The client waits for an argument of which the buffer holds only a part, or for none:
together with `t`, the buffer has what is left of the arguments and `later`. -/
structure Suspended (bulklen : Int) (rest : List Bytes) (avail t later : Bytes) : Prop where
  owed : avail ++ t = Owed bulklen rest ++ later
  known : ∀ a args, rest = a :: args → bulklen = -1 ∨ bulklen = a.length
  none : rest = [] → bulklen = -1
  line : bulklen = -1 → ∀ a args, rest = a :: args → avail.length < (bulkLine a.length).length
  short : ∀ a args, rest = a :: args → bulklen = a.length → avail.length < a.length + 2

/-- How a client is refused: an error is sent, and it will be closed. -/
structure Refused (c c' : Client) (reply : List ReplyCall) : Prop where
  errors : c'.errors = c.errors ++ reply
  flags : c'.flags = { c.flags with closeAfterReply := true }

/-- Where bytes that start with a line are cut: in front of its carriage return, behind it, or
behind the line. -/
theorem cut_line {h avail t more : Bytes} (hcr : 13 ∉ h)
    (heq : avail ++ t = h ++ [13, 10] ++ more) :
    (13 ∉ avail ∧ avail.length ≤ h.length) ∨ avail = h ++ [13]
      ∨ ∃ pay, avail = h ++ [13, 10] ++ pay ∧ pay ++ t = more := by
  rcases List.append_eq_append_iff.mp heq with ⟨gap, hline, _⟩ | ⟨pay, havail, hmore⟩
  · -- the cut is in the line
    have hpre : avail <+: h ++ [13, 10] := ⟨gap, hline.symm⟩
    by_cases hle : avail.length ≤ h.length
    · have hin : avail <+: h :=
        List.prefix_of_prefix_length_le hpre (List.prefix_append _ _) hle
      exact .inl ⟨fun hmem => hcr (hin.subset hmem), hle⟩
    have htotal := hpre.length_le
    simp only [List.length_append, List.length_cons, List.length_nil] at htotal
    have htake : avail = (h ++ [13, 10]).take avail.length := List.prefix_iff_eq_take.mp hpre
    by_cases hone : avail.length = h.length + 1
    · refine .inr (.inl ?_)
      rw [htake, hone, List.take_append, List.take_of_length_le (by omega)]
      simp
    · refine .inr (.inr ⟨[], ?_, ?_⟩)
      · rw [htake, List.take_of_length_le (by simp; omega), List.append_nil]
      · have havail : avail = h ++ [13, 10] := by
          rw [htake, List.take_of_length_le (by simp; omega)]
        rw [havail] at heq
        exact List.append_cancel_left heq
  · exact .inr (.inr ⟨pay, havail, hmore.symm⟩)

/-- Of an argument that has not come completely, the buffer holds less than the argument. -/
theorem length_lt_of_cut {avail t b more : Bytes} (heq : avail ++ t = b ++ more)
    (hcut : ¬ b <+: avail) : avail.length < b.length := by
  by_contra hge
  refine hcut (List.prefix_of_prefix_length_le ⟨more, rfl⟩ ?_ (by omega))
  rw [← heq]
  exact List.prefix_append _ _

theorem append_prefix_append_iff {b args rest : Bytes} :
    b ++ args <+: b ++ rest ↔ args <+: rest := List.prefix_append_right_inj b

/-- The loop is left with `done` read and `rest` to come; `avail` is not used yet. -/
def Left (loop : Except Fault Next) (c c' : Client) (done rest : List Bytes)
    (avail t later : Bytes) : Prop :=
  ∃ front : Bytes, loop = .ok (.leave c' front.length) ∧ c'.querybuf = front ++ avail
    ∧ c'.querybuf.length ≤ c.querybuf.length ∧ Took c c' done rest
    ∧ Suspended c'.bulklen rest avail t later

/-- The end of the loop for an argument of which only a part has come. -/
theorem bulkLoop_cut {c : Client} {front avail t later a : Bytes} {args : List Bytes}
    (hb : c.bulklen = -1) (hm : c.multibulklen = (a :: args).length)
    (hq : c.querybuf = front ++ avail)
    (hfit : c.querybuf.length ≤ PROTO_MAX_QUERYBUF_LEN) (ha : a.length ≤ 512 * 1024 * 1024)
    (heq : avail ++ t = (a :: args).flatMap bulk ++ later) (hcut : ¬ bulk a <+: avail) :
    if 13 ∉ avail ∧ PROTO_INLINE_MAX_SIZE < front.length + avail.length then
      ∃ c', bulkLoop (args.length + 1) c front.length = .ok (.ret c' false)
        ∧ Refused c c' tooBigBulk
    else
      ∃ c' avail', Left (bulkLoop (args.length + 1) c front.length) c c' [] (a :: args)
        avail' t later := by
  have hlen : c.querybuf.length = front.length + avail.length := by rw [hq, List.length_append]
  have hwaits : avail.length < (bulkLine a.length).length →
      Suspended c.bulklen (a :: args) avail t later := by
    intro hshort
    refine ⟨?_, ?_, ?_, ?_, ?_⟩
    · rw [heq, Owed, if_pos hb, List.flatMap_cons]
    · exact fun _ _ _ => .inl hb
    · exact fun _ => hb
    · rintro - a' args' ⟨rfl, rfl⟩
      exact hshort
    · intro a' args' _ h
      omega
  have hsame : Took c c [] (a :: args) := ⟨by simp, hm, rfl, rfl, rfl, rfl⟩
  have heq' : avail ++ t = (36 :: decNat a.length) ++ [13, 10]
      ++ (a ++ [13, 10] ++ (args.flatMap bulk ++ later)) := by
    rw [heq, List.flatMap_cons, bulk, bulkLine]
    simp only [List.cons_append, List.append_assoc]
  have hcr : 13 ∉ 36 :: decNat a.length :=
    List.mem_cons.not.mpr (not_or.mpr ⟨by decide, not_mem_decNat (by decide)⟩)
  have h0 : 0 ∉ 36 :: decNat a.length :=
    List.mem_cons.not.mpr (not_or.mpr ⟨by decide, not_mem_decNat (by decide)⟩)
  have hline : (bulkLine a.length).length = (36 :: decNat a.length).length + 2 := by
    rw [length_bulkLine, List.length_cons]
  rw [bulkLoop]
  rcases cut_line hcr heq' with ⟨hopen, hle⟩ | hhalf | ⟨pay, hpay, hrest⟩
  · rw [readBulkLen_open hb hq hopen, ok_bind, hlen]
    by_cases hbig : front.length + avail.length > PROTO_INLINE_MAX_SIZE
    · rw [if_pos ⟨hopen, hbig⟩, if_pos hbig]
      exact ⟨_, rfl, rfl, rfl⟩
    · rw [@if_neg (13 ∉ avail ∧ _) _ (fun h => hbig h.2), if_neg hbig]
      exact ⟨c, avail, front, rfl, hq, Nat.le_refl _, hsame, hwaits (by omega)⟩
  · have hmem : 13 ∈ avail := by
      rw [hhalf]
      exact List.mem_append_right _ (List.mem_singleton_self _)
    have hle : avail.length = (36 :: decNat a.length).length + 1 := by
      rw [hhalf, List.length_append, List.length_singleton]
    rw [readBulkLen_half hb (by rw [hq, hhalf]) hcr h0 hfit, ok_bind, if_neg (fun h => h.1 hmem)]
    exact ⟨c, avail, front, rfl, hq, Nat.le_refl _, hsame, hwaits (by omega)⟩
  · -- the length is read, the argument is not there
    have hmem : 13 ∈ avail := by
      rw [hpay]
      simp
    have hq' : c.querybuf = front ++ (bulkLine a.length ++ pay) := by
      rw [hq, hpay, bulkLine]
      rfl
    have hshort : pay.length < a.length + 2 := by
      have hlt := length_lt_of_cut (by rw [heq, List.flatMap_cons, List.append_assoc]) hcut
      rw [hpay, length_bulk] at hlt
      simp only [List.length_append, List.length_cons, List.length_nil] at hlt
      omega
    have hwait : Suspended a.length (a :: args) pay t later := by
      refine ⟨?_, ?_, ?_, ?_, ?_⟩
      · rw [hrest, Owed, if_neg (by omega)]
        simp only [List.append_assoc]
      · rintro a' args' ⟨rfl, rfl⟩
        exact .inr rfl
      · intro h
        cases h
      · intro h
        omega
      · rintro a' args' ⟨rfl, rfl⟩ _
        exact hshort
    rw [if_neg (fun h => h.1 hmem), readBulkLen_line hb hq' hfit ha, ok_bind]
    by_cases hbig : PROTO_MBULK_BIG_ARG ≤ a.length
    · have hstop := readBulk_short (c := { c with querybuf := pay, bulklen := a.length })
        [] rfl ha rfl hshort
      rw [if_pos hbig]
      dsimp only
      rw [List.length_nil, Int.natCast_zero] at hstop
      rw [hstop, ok_bind]
      refine ⟨_, pay, [], rfl, rfl, ?_, ⟨by simp, hm, rfl, rfl, rfl, rfl⟩, hwait⟩
      rw [hq', List.length_append, List.length_append]
      dsimp only
      omega
    · have hstop := readBulk_short (c := { c with bulklen := a.length })
        (front ++ bulkLine a.length) rfl ha (by rw [List.append_assoc]; exact hq') hshort
      rw [if_neg hbig]
      dsimp only
      rw [hstop, ok_bind]
      refine ⟨_, pay, front ++ bulkLine a.length, rfl, ?_, Nat.le_refl _,
        ⟨by simp, hm, rfl, rfl, rfl, rfl⟩, hwait⟩
      rw [List.append_assoc]
      exact hq'

theorem Took.cons {c c₁ c₂ : Client} {a : Bytes} {done rest : List Bytes} (h : Took c₁ c₂ done rest)
    (h₁ : c₁.argv = c.argv ++ [a]) (hs : c₁.slots = c.slots) (hr : c₁.reqtype = c.reqtype)
    (hf : c₁.flags = c.flags) (he : c₁.errors = c.errors) : Took c c₂ (a :: done) rest where
  argv := by rw [h.argv, h₁, List.append_assoc, List.singleton_append]
  multibulklen := h.multibulklen
  slots := h.slots.trans hs
  reqtype := h.reqtype.trans hr
  flags := h.flags.trans hf
  errors := h.errors.trans he

/-- The loop takes every argument that has come. -/
theorem bulkLoop_spec : ∀ (args : List Bytes) {c : Client} {front avail t later : Bytes},
    c.bulklen = -1 → c.multibulklen = args.length → c.querybuf = front ++ avail →
    c.querybuf.length ≤ PROTO_MAX_QUERYBUF_LEN → (∀ a ∈ args, a.length ≤ 512 * 1024 * 1024) →
    c.argv.length + args.length ≤ c.slots → avail ++ t = args.flatMap bulk ++ later →
    if Overlong front.length args avail then
      ∃ c', bulkLoop args.length c front.length = .ok (.ret c' false) ∧ Refused c c' tooBigBulk
    else
      ∃ c' done rest avail', Left (bulkLoop args.length c front.length) c c' done rest avail' t later
        ∧ args = done ++ rest ∧ (rest = [] ↔ args.flatMap bulk <+: avail) := by
  intro args
  induction args with
  | nil =>
      intro c front avail t later hb hm hq hfit _ _ heq
      rw [if_neg (show ¬ Overlong front.length [] avail from fun h => h)]
      refine ⟨c, [], [], avail, ⟨front, rfl, hq, Nat.le_refl _, ?_, ?_⟩, rfl, ?_⟩
      · exact ⟨(List.append_nil _).symm, hm, rfl, rfl, rfl, rfl⟩
      · refine ⟨?_, ?_, fun _ => hb, ?_, ?_⟩
        · rw [heq]
          rfl
        · intro _ _ h
          cases h
        · intro _ _ _ h
          cases h
        · intro _ _ h
          cases h
      · simp
  | cons a args ih =>
      intro c front avail t later hb hm hq hfit hshort hslots heq
      have ha : a.length ≤ 512 * 1024 * 1024 := hshort a (List.mem_cons_self ..)
      have hargs : ∀ b ∈ args, b.length ≤ 512 * 1024 * 1024 :=
        fun b hb => hshort b (List.mem_cons_of_mem _ hb)
      rw [List.length_cons] at hm hslots ⊢
      by_cases hfull : bulk a <+: avail
      · obtain ⟨rest, rfl⟩ := hfull
        have heq' : rest ++ t = args.flatMap bulk ++ later := by
          rw [List.flatMap_cons, List.append_assoc, List.append_assoc] at heq
          exact List.append_cancel_left heq
        have hkept := length_kept_le front a rest
        have hle : (kept front a rest ++ rest).length ≤ c.querybuf.length := by
          rw [hq, ← List.append_assoc, List.length_append, @List.length_append _ (_ ++ _)]
          omega
        have hnext := @ih { c with querybuf := kept front a rest ++ rest, argv := c.argv ++ [a],
                                   multibulklen := c.multibulklen - 1 }
          (kept front a rest) rest t later hb (by dsimp only; omega) rfl (by dsimp only; omega)
          hargs (by dsimp only; rw [List.length_append, List.length_singleton]; omega) heq'
        rw [bulkLoop_full hb hq hfit ha (by omega)]
        by_cases hover : Overlong (kept front a rest).length args rest
        · rw [if_pos hover] at hnext
          rw [if_pos ((overlong_full front a args rest).mpr hover)]
          obtain ⟨c', hloop, href⟩ := hnext
          exact ⟨c', hloop, href.errors, href.flags⟩
        · rw [if_neg hover] at hnext
          rw [if_neg (fun h => hover ((overlong_full front a args rest).mp h))]
          obtain ⟨c', done, rest', avail', ⟨front', hloop, hbuf, hlen, htook, hsusp⟩, hsplit, hiff⟩ :=
            hnext
          refine ⟨c', a :: done, rest', avail',
            ⟨front', hloop, hbuf, Nat.le_trans hlen hle, ?_, hsusp⟩, ?_, ?_⟩
          · exact htook.cons rfl rfl rfl rfl rfl
          · rw [hsplit, List.cons_append]
          · rw [hiff, List.flatMap_cons, List.prefix_append_right_inj]
      · have hcut := bulkLoop_cut hb hm hq hfit ha heq hfull
        have hiff : Overlong front.length (a :: args) avail
            ↔ 13 ∉ avail ∧ PROTO_INLINE_MAX_SIZE < front.length + avail.length := by
          rw [Overlong, if_neg hfull]
        by_cases hover : 13 ∉ avail ∧ PROTO_INLINE_MAX_SIZE < front.length + avail.length
        · rw [if_pos hover] at hcut
          rw [if_pos (hiff.mpr hover)]
          exact hcut
        · rw [if_neg hover] at hcut
          rw [if_neg (fun h => hover (hiff.mp h))]
          obtain ⟨c', avail', hleft⟩ := hcut
          refine ⟨c', [], a :: args, avail', hleft, rfl, ?_⟩
          constructor
          · intro h
            cases h
          · intro h
            exact absurd ((List.prefix_append _ _).trans h) hfull

/-! ## A request -/

/-- A complete first line of a request. -/
theorem readMultibulkLen_line {c : Client} {n : Nat} {rest : Bytes} (ha : c.argv = [])
    (hq : c.querybuf = requestLine n ++ rest) (hn : 0 < n) (hmaxn : n ≤ 1024 * 1024)
    (hfit : c.querybuf.length ≤ PROTO_MAX_QUERYBUF_LEN) :
    readMultibulkLen c
      = .ok (.go { c with multibulklen := n, slots := n } (requestLine n).length) := by
  have hmax : PROTO_MAX_QUERYBUF_LEN = 2 ^ 30 := rfl
  have hq' : c.querybuf = (42 :: decNat n) ++ 13 :: (10 :: rest) := by
    rw [hq, requestLine]
    simp
  have hlen : c.querybuf.length = (decNat n).length + 3 + rest.length := by
    rw [hq']
    simp only [List.length_append, List.length_cons]
    omega
  have hchr : strchr c.querybuf 13 = some ((decNat n).length + 1) := by
    rw [hq']
    refine strchr_append (by decide) ?_ ?_
    · exact List.mem_cons.not.mpr (not_or.mpr ⟨by decide, not_mem_decNat (by decide)⟩)
    · exact List.mem_cons.not.mpr (not_or.mpr ⟨by decide, not_mem_decNat (by decide)⟩)
  have hint : toInt c.querybuf.length = c.querybuf.length := toInt_eq (by omega) (by omega)
  have hwhole : ¬ (((decNat n).length + 1 : Nat) : Int) > toInt c.querybuf.length - 2 := by
    rw [hint]
    omega
  have hfirst : byteAt c.querybuf 0 = .ok 42 := by
    have := byteAt_eq (s := c.querybuf) (i := 0) (by omega)
    rw [show (0 : Int) = ((0 : Nat) : Int) from rfl, this]
    simp only [hq', List.cons_append, List.getElem_cons_zero]
  have hdigits : bytesAt c.querybuf 1 ((((decNat n).length + 1 : Nat) : Int) - 1)
      = .ok (decNat n) := by
    have hsub : (((decNat n).length + 1 : Nat) : Int) - 1 = ((decNat n).length : Nat) := by omega
    have := bytesAt_eq (s := c.querybuf) (i := 1) (n := (decNat n).length) (by omega)
    rw [hsub, show (1 : Int) = ((1 : Nat) : Int) from rfl, this, hq', List.cons_append,
      List.drop_succ_cons, List.drop_zero, List.take_left]
  have hpos : toInt ((((decNat n).length + 1 : Nat) : Int) + 2) = (requestLine n).length := by
    rw [toInt_eq (by omega) (by omega)]
    simp only [requestLine, List.length_cons, List.length_append, List.length_nil]
    omega
  have hmany : ¬ (n : Int) > 1024 * 1024 := by omega
  have hsome : ¬ (n : Int) ≤ 0 := by omega
  rw [readMultibulkLen, if_neg (fun h => h ha), hchr]
  dsimp only
  rw [if_neg hwhole, hfirst, ok_bind, if_neg (fun h => h rfl), hdigits, ok_bind,
    string2ll_decNat (by omega)]
  dsimp only
  rw [if_neg hmany, if_neg hsome, hpos, Int.toNat_natCast]
  rfl

/-- A part of the first line is left alone. -/
theorem readMultibulkLen_cut {c : Client} {n : Nat} {t more : Bytes} (ha : c.argv = [])
    (heq : c.querybuf ++ t = requestLine n ++ more) (hn : n ≤ 1024 * 1024)
    (hcut : ¬ requestLine n <+: c.querybuf) :
    readMultibulkLen c = .ok (.ret c false) := by
  have hcr : 13 ∉ 42 :: decNat n :=
    List.mem_cons.not.mpr (not_or.mpr ⟨by decide, not_mem_decNat (by decide)⟩)
  have h0 : 0 ∉ 42 :: decNat n :=
    List.mem_cons.not.mpr (not_or.mpr ⟨by decide, not_mem_decNat (by decide)⟩)
  have hdigits : (decNat n).length ≤ 7 := length_decNat_le (by omega)
  have hlt : c.querybuf.length < (requestLine n).length := length_lt_of_cut heq hcut
  have hline : (requestLine n).length = (decNat n).length + 3 := by
    simp only [requestLine, List.length_cons, List.length_append, List.length_nil]
  rw [readMultibulkLen, if_neg (fun h => h ha)]
  rcases cut_line hcr (heq.trans rfl) with ⟨hopen, _⟩ | hhalf | ⟨pay, hpay, _⟩
  · have hshort : ¬ c.querybuf.length > PROTO_INLINE_MAX_SIZE := by
      unfold PROTO_INLINE_MAX_SIZE
      omega
    rw [strchr_none hopen]
    dsimp only
    rw [if_neg hshort]
  · have hlen : c.querybuf.length = (42 :: decNat n).length + 1 := by
      rw [hhalf, List.length_append, List.length_singleton]
    have hint : toInt c.querybuf.length = c.querybuf.length := toInt_eq (by omega) (by omega)
    have hlast : (((42 :: decNat n).length : Nat) : Int) > toInt c.querybuf.length - 2 := by
      rw [hint]
      omega
    rw [hint] at hlast
    rw [hint, hhalf, strchr_append (by decide) hcr h0]
    dsimp only
    rw [← hhalf, if_pos hlast]
  · exact absurd ⟨pay, hpay.symm⟩ hcut

/-- The loop is left, and the buffer is cut in front of what is not used. -/
theorem readBulks_left {c c' : Client} {pos : Int} {done rest : List Bytes} {avail t later : Bytes}
    (hm : c.multibulklen ≠ 0) (hfit : c.querybuf.length ≤ PROTO_MAX_QUERYBUF_LEN)
    (h : Left (bulkLoop c.multibulklen c pos) c c' done rest avail t later) :
    readBulks c pos = .ok ({ c' with querybuf := avail }, decide (rest = [])) := by
  obtain ⟨front, hloop, hbuf, hlen, htook, _⟩ := h
  have hrest : decide (c'.multibulklen = 0) = decide (rest = []) := by
    rw [htook.multibulklen, decide_eq_decide]
    exact List.length_eq_zero_iff
  rw [readBulks, if_neg hm, hloop, ok_bind]
  dsimp only
  by_cases hfront : front = []
  · subst hfront
    rw [if_neg (by simp), hrest]
    have havail : c'.querybuf = avail := hbuf
    rw [← havail]
    rfl
  · have hpos : 0 < front.length := List.length_pos_of_ne_nil hfront
    rw [if_pos (by omega), sdsrange_from (by omega), hbuf, List.drop_left]
    dsimp only
    rw [hrest]
    rfl

/-- A client between two requests. -/
structure Idle (c : Client) : Prop where
  argv : c.argv = []
  multibulklen : c.multibulklen = 0
  bulklen : c.bulklen = -1
  reqtype : c.reqtype ≠ .inline

/-- The client waits for `cmd`: together with `t`, its buffer has what is left of `cmd` and
`later`. -/
inductive Waits (c : Client) (cmd : List Bytes) (t later : Bytes) : Prop
  | line (idle : Idle c) (owed : c.querybuf ++ t = request cmd ++ later)
      (short : c.querybuf.length < (requestLine cmd.length).length)
  | args (rest : List Bytes) (reqtype : c.reqtype = .multibulk) (split : cmd = c.argv ++ rest)
      (some : rest ≠ []) (multibulklen : c.multibulklen = rest.length)
      (slots : c.slots = cmd.length) (suspended : Suspended c.bulklen rest c.querybuf t later)

/-- A part of a request that ends as `Overlong` says. -/
def OverlongRequest (cmd : List Bytes) (p : Bytes) : Prop :=
  requestLine cmd.length <+: p ∧
    Overlong (requestLine cmd.length).length cmd (p.drop (requestLine cmd.length).length)

instance (cmd : List Bytes) (p : Bytes) : Decidable (OverlongRequest cmd p) := instDecidableAnd

/-- The client has the request `cmd` and nothing of the next one. -/
structure Complete (c c' : Client) (cmd : List Bytes) : Prop where
  argv : c'.argv = cmd
  multibulklen : c'.multibulklen = 0
  bulklen : c'.bulklen = -1
  flags : c'.flags = c.flags
  errors : c'.errors = c.errors

theorem length_requestLine (n : Nat) : (requestLine n).length = (decNat n).length + 3 := by
  simp only [requestLine, List.length_cons, List.length_append, List.length_nil]

theorem parse_multibulk {c : Client} (h : c.reqtype = .multibulk) :
    parse c = processMultibulkBuffer c := by
  rw [parse, requestType, if_neg (by rw [h]; decide), ok_bind]
  simp only [h]

/-- The type of a request that starts with a star. -/
theorem parse_star {c : Client} (h : c.reqtype ≠ .inline) (hstar : c.querybuf.head? = some 42) :
    parse c = processMultibulkBuffer { c with reqtype := .multibulk } := by
  cases hr : c.reqtype with
  | inline => exact absurd hr h
  | multibulk =>
      have hc : { c with reqtype := .multibulk } = c := by rw [← hr]
      rw [hc, parse_multibulk hr]
  | unknown =>
      cases hq : c.querybuf with
      | nil => rw [hq] at hstar; cases hstar
      | cons first rest =>
          rw [hq, List.head?_cons, Option.some.injEq] at hstar
          have hbyte : byteAt (first :: rest) 0 = .ok 42 := by
            have := byteAt_eq (s := first :: rest) (i := 0) (Nat.succ_pos _)
            rw [show (0 : Int) = ((0 : Nat) : Int) from rfl, this, List.getElem_cons_zero, hstar]
          rw [parse, requestType, if_pos hr, hq, hbyte, ok_bind]
          rfl

/-- What the parser makes of the bytes at the front of the buffer of an idle client. -/
theorem parse_request {c : Client} {cmd : List Bytes} {t later : Bytes} (hidle : Idle c)
    (hvalid : Valid cmd) (hfit : c.querybuf.length ≤ PROTO_MAX_QUERYBUF_LEN)
    (hne : c.querybuf ≠ []) (heq : c.querybuf ++ t = request cmd ++ later) :
    if OverlongRequest cmd c.querybuf then
      ∃ c', parse c = .ok (c', false) ∧ Refused c c' tooBigBulk
    else if request cmd <+: c.querybuf then
      ∃ c', parse c = .ok (c', true) ∧ Complete c c' cmd ∧ c'.querybuf ++ t = later
    else ∃ c', parse c = .ok (c', false) ∧ Waits c' cmd t later ∧ c'.flags = c.flags
      ∧ c'.errors = c.errors := by
  have hpos : 0 < cmd.length := List.length_pos_of_ne_nil hvalid.nonempty
  have hstar : c.querybuf.head? = some 42 := by
    cases hq : c.querybuf with
    | nil => exact absurd hq hne
    | cons first rest =>
        rw [hq, request, requestLine, List.cons_append, List.cons_append, List.cons_append,
          List.cons.injEq] at heq
        rw [heq.1, List.head?_cons]
  have heq' : c.querybuf ++ t = requestLine cmd.length ++ (cmd.flatMap bulk ++ later) := by
    rw [heq, request, List.append_assoc]
  rw [parse_star hidle.reqtype hstar, processMultibulkBuffer, if_pos hidle.multibulklen]
  by_cases hline : requestLine cmd.length <+: c.querybuf
  · obtain ⟨avail, havail⟩ := hline
    have hread := readMultibulkLen_line (c := { c with reqtype := .multibulk }) hidle.argv
      havail.symm hpos hvalid.count hfit
    have heq'' : avail ++ t = cmd.flatMap bulk ++ later := by
      rw [← havail, List.append_assoc] at heq'
      exact List.append_cancel_left heq'
    have hbulks := bulkLoop_spec cmd (c := { c with
        reqtype := .multibulk, multibulklen := cmd.length, slots := cmd.length })
      hidle.bulklen rfl havail.symm hfit
      hvalid.short (by dsimp only; rw [hidle.argv]; simp) heq''
    have hdrop : c.querybuf.drop (requestLine cmd.length).length = avail := by
      rw [← havail, List.drop_left]
    have hover : OverlongRequest cmd c.querybuf
        ↔ Overlong (requestLine cmd.length).length cmd avail := by
      rw [OverlongRequest, hdrop]
      exact and_iff_right ⟨avail, havail⟩
    have hwhole : request cmd <+: c.querybuf ↔ cmd.flatMap bulk <+: avail := by
      rw [← havail, request, List.prefix_append_right_inj]
    rw [hread, ok_bind]
    dsimp only
    by_cases hstuck : Overlong (requestLine cmd.length).length cmd avail
    · rw [if_pos hstuck] at hbulks
      rw [if_pos (hover.mpr hstuck)]
      obtain ⟨c', hloop, href⟩ := hbulks
      refine ⟨c', ?_, href.errors, href.flags⟩
      rw [readBulks, if_neg (by dsimp only; omega), hloop]
      rfl
    · rw [if_neg hstuck] at hbulks
      rw [if_neg (fun h => hstuck (hover.mp h))]
      obtain ⟨c', done, rest, avail', hleft, hsplit, hiff⟩ := hbulks
      have hret := readBulks_left (c := { c with
          reqtype := .multibulk, multibulklen := cmd.length, slots := cmd.length })
        (by dsimp only; omega) hfit hleft
      obtain ⟨front', hloop, hbuf, hlen, htook, hsusp⟩ := hleft
      have hargv : c'.argv = done := by rw [htook.argv, hidle.argv, List.nil_append]
      rw [hret]
      by_cases hall : request cmd <+: c.querybuf
      · have hnil : rest = [] := hiff.mpr (hwhole.mp hall)
        rw [if_pos hall, decide_eq_true hnil]
        subst hnil
        refine ⟨_, rfl,
          ⟨?_, htook.multibulklen, hsusp.none rfl, htook.flags, htook.errors⟩, ?_⟩
        · rw [hsplit, List.append_nil]
          exact hargv
        · exact hsusp.owed
      · have hsome : rest ≠ [] := fun h => hall (hwhole.mpr (hiff.mp h))
        rw [if_neg hall, decide_eq_false hsome]
        refine ⟨_, rfl, .args rest htook.reqtype ?_ hsome htook.multibulklen htook.slots hsusp,
          htook.flags, htook.errors⟩
        show cmd = c'.argv ++ rest
        rw [hargv, hsplit]
  · have hread := readMultibulkLen_cut (c := { c with reqtype := .multibulk }) hidle.argv heq'
      hvalid.count hline
    have hpart : ¬ request cmd <+: c.querybuf := fun h =>
      hline ((List.prefix_append _ _).trans h)
    rw [if_neg (fun h => hline h.1), if_neg hpart, hread]
    refine ⟨_, rfl, .line ⟨hidle.argv, hidle.multibulklen, hidle.bulklen, ?_⟩ heq
      (length_lt_of_cut heq' hline), rfl, rfl⟩
    intro h
    cases h

end Query

end RedisCore
