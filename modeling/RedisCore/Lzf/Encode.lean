/-
# `RedisCore.Lzf.Encode` — what the compressor writes is read back

Whatever the hash table holds at first, a place from it is used only after the bytes there were
compared, so every back reference is true.  The invariant of the compressor is that the bytes
before the open literal run are those of tokens which tell the text up to the run, and that the
run has been copied; it does not say anything about the table.

The second invariant is the weight: a full literal run is one byte longer than its text, a shorter
one is made up for by the back reference behind it.  So compression makes a text longer by one
byte in thirty-two at most, and a buffer with that much room is never refused.
-/
import RedisCore.Lzf.Decode

namespace RedisCore

namespace Lzf

open BackRef CInt Splice

variable {data out bs cs : Bytes} {s s' s'' : Enc} {ip ref off len n : Nat} {E : Stop → Prop}
  {Q : Enc → Prop}

/-! ## Writing -/

theorem take_set_succ {l : Bytes} {i : Nat} (b : UInt8) (h : i < l.length) :
    (l.set i b).take (i + 1) = l.take i ++ [b] := by
  have hset : i < (l.set i b).length := by rwa [List.length_set]
  rw [List.take_succ_eq_append_getElem hset, List.take_set_of_le (Nat.le_refl i),
    List.getElem_set_self]

/-- Bytes were written behind the others. -/
structure Wrote (s s' : Enc) (bs : Bytes) : Prop where
  op : s'.op = s.op + bs.length
  length : s'.out.length = s.out.length
  bytes : s'.out.take s'.op = s.out.take s.op ++ bs
  ip : s'.ip = s.ip

theorem Wrote.trans (h : Wrote s s' bs) (h' : Wrote s' s'' cs) : Wrote s s'' (bs ++ cs) where
  op := by rw [h'.op, h.op, List.length_append, Nat.add_assoc]
  length := h'.length.trans h.length
  bytes := by rw [h'.bytes, h.bytes, List.append_assoc]
  ip := h'.ip.trans h.ip

theorem ends_emit {b : UInt8} (h : s.op < s.out.length) (hQ : ∀ s', Wrote s s' [b] → Q s') :
    Ends E (s.emit b) Q := by
  unfold Enc.emit poke
  rw [if_pos h, ok_bind]
  exact hQ _ ⟨rfl, List.length_set, take_set_succ b h, rfl⟩

/-- A back reference behind what is written. -/
theorem ends_emitRef (h : s.op + 3 ≤ s.out.length)
    (hQ : ∀ s', Wrote s s' (refBytes off len) → Q s') : Ends E (s.emitRef len off) Q := by
  unfold Enc.emitRef
  unfold refBytes at hQ
  refine ends_bind.mpr (ends_ite.mpr ?_)
  split
  · next hshort =>
    rw [if_pos hshort] at hQ
    refine ends_emit (by omega) fun s₁ h₁ => ends_emit ?_ fun s₂ h₂ => hQ s₂ (h₁.trans h₂)
    rw [h₁.op, h₁.length, List.length_singleton]
    omega
  · next hlong =>
    rw [if_neg hlong] at hQ
    refine ends_bind.mpr (ends_emit (by omega) fun s₁ h₁ => ends_emit ?_ fun s₂ h₂ => ends_emit ?_
      fun s₃ h₃ => hQ s₃ (h₁.trans (h₂.trans h₃)))
    · rw [h₁.op, h₁.length, List.length_singleton]
      omega
    · rw [h₂.op, h₂.length, h₁.op, h₁.length, List.length_singleton, List.length_singleton]
      omega

/-! ## Matches -/

/-- As many bytes are the same at two places. -/
def Agree (data : Bytes) (ref ip n : Nat) : Prop := ∀ k < n, data[ref + k]? = data[ip + k]?

theorem Agree.succ (h : Agree data ref ip n) (heq : data[ref + n]? = data[ip + n]?) :
    Agree data ref ip (n + 1) := by
  intro k hk
  rcases Nat.lt_succ_iff_lt_or_eq.mp hk with hlt | rfl
  · exact h k hlt
  · exact heq

/-- An offset that is small enough is a distance to a place before. -/
theorem toULong_off (hip : ip < 2 ^ 32) (href : ref < 2 ^ 32)
    (hoff : toULong (ip - ref - 1 : Int) < MAX_OFF) :
    ref < ip ∧ toULong (ip - ref - 1 : Int) = ip - ref - 1 := by
  have hoff' : toULong (ip - ref - 1 : Int) < 8192 := hoff
  unfold toULong at hoff' ⊢
  omega

/-- The test for a match is right, whatever the place is. -/
theorem ends_isMatch {Q : Bool → Prop} (hip : ip + 2 < data.length) (hsmall : data.length < 2 ^ 32)
    (href : ref < 2 ^ 32) (hno : Q false)
    (hyes : ref < ip → 0 < ref → ip - ref ≤ MAX_OFF →
      toULong (ip - ref - 1 : Int) = ip - ref - 1 → Agree data ref ip 3 → Q true) :
    Ends E (isMatch data ref ip (toULong (ip - ref - 1 : Int))) Q := by
  unfold isMatch
  refine ends_ite.mpr ?_
  split
  case isFalse => exact hno
  case isTrue hoff =>
    obtain ⟨hlt, heq⟩ := toULong_off (by omega) href hoff.1
    have hnear : ip - ref ≤ MAX_OFF := by
      have := hoff.1
      omega
    refine ends_bind.mpr (ends_byteAt (by omega) fun a₂ ha₂ => ?_)
    refine ends_bind.mpr (ends_byteAt (by omega) fun b₂ hb₂ => ?_)
    refine ends_ite.mpr ?_
    split
    case isFalse => exact hno
    case isTrue h₂ =>
      refine ends_bind.mpr (ends_byteAt (by omega) fun a₀ ha₀ => ?_)
      refine ends_bind.mpr (ends_byteAt (by omega) fun a₁ ha₁ => ?_)
      refine ends_bind.mpr (ends_byteAt (by omega) fun b₀ hb₀ => ?_)
      refine ends_bind.mpr (ends_byteAt (by omega) fun b₁ hb₁ => ?_)
      show Q (decide (a₀ = b₀ ∧ a₁ = b₁))
      by_cases h₀₁ : a₀ = b₀ ∧ a₁ = b₁
      · rw [decide_eq_true h₀₁]
        refine hyes hlt hoff.2 hnear heq fun k hk => ?_
        obtain ⟨h₀, h₁⟩ := h₀₁
        obtain rfl | rfl | rfl : k = 0 ∨ k = 1 ∨ k = 2 := by omega
        · exact ha₀.trans (h₀ ▸ hb₀.symm)
        · exact ha₁.trans (h₁ ▸ hb₁.symm)
        · exact ha₂.trans (h₂ ▸ hb₂.symm)
      · rw [decide_eq_false h₀₁]
        exact hno

theorem ends_matchSome {Q : Nat × Bool → Prop} (href : ref < ip) (hend : ip + len + n < data.length)
    (h : Agree data ref ip (len + 1))
    (hstop : ∀ len', len < len' → len' ≤ len + n → Agree data ref ip len' → Q (len', true))
    (hgo : Agree data ref ip (len + n + 1) → Q (len + n, false)) :
    Ends E (matchSome data ref ip n len) Q := by
  induction n generalizing len with
  | zero => exact hgo h
  | succ n ih =>
      refine ends_bind.mpr (ends_byteAt (by omega) fun a ha => ?_)
      refine ends_bind.mpr (ends_byteAt (by omega) fun b hb => ?_)
      refine ends_ite.mpr ?_
      split
      · exact hstop (len + 1) (Nat.lt_succ_self len) (by omega) h
      · next hsame =>
        have h' := h.succ (ha.trans (Decidable.of_not_not hsame ▸ hb.symm))
        refine ih (by omega) h' (fun len' hlt hle => hstop len' (by omega) (by omega)) fun hgo' => ?_
        rw [show len + 1 + n = len + (n + 1) by omega] at hgo' ⊢
        exact hgo hgo'

theorem ends_matchRest {Q : Nat → Prop} {maxlen fuel : Nat} (href : ref < ip)
    (hmax : ip + maxlen + 2 ≤ data.length) (hend : ip + len < data.length)
    (hfuel : maxlen < len + 1 + fuel) (hpos : 0 < fuel) (h : Agree data ref ip (len + 1))
    (hQ : ∀ len', len < len' → (len' = len + 1 ∨ len' ≤ maxlen) → Agree data ref ip len' →
      Q len') : Ends E (matchRest data ref ip maxlen fuel len) Q := by
  induction fuel generalizing len with
  | zero => omega
  | succ fuel ih =>
      have hhere := hQ (len + 1) (Nat.lt_succ_self len) (.inl rfl) h
      refine ends_ite.mpr ?_
      split
      case isFalse => exact hhere
      case isTrue hmore =>
        refine ends_bind.mpr (ends_byteAt (by omega) fun a ha => ?_)
        refine ends_bind.mpr (ends_byteAt (by omega) fun b hb => ?_)
        refine ends_ite.mpr ?_
        split
        case isFalse => exact hhere
        case isTrue hsame =>
          refine ih (by omega) (by omega) (by omega) (h.succ (ha.trans (hsame ▸ hb.symm)))
            fun len' hlt hle => hQ len' (by omega) (.inr (by omega))

/-- The length of a match: so many bytes are the same, at least three. -/
theorem ends_matchLength {Q : Nat → Prop} (href : ref < ip) (hip : ip + 2 < data.length)
    (hsmall : data.length < 2 ^ 32) (h : Agree data ref ip 3)
    (hQ : ∀ len, 3 ≤ len → len ≤ MAX_REF → ip + len ≤ data.length → Agree data ref ip len → Q len) :
    Ends E (matchLength data ref ip) Q := by
  have hroom : toUInt (data.length - ip - 2 : Int) = data.length - ip - 2 := by
    unfold toUInt
    omega
  unfold matchLength
  rw [hroom]
  obtain ⟨maxlen, hmaxlen, hle, href'⟩ : ∃ maxlen, (if data.length - ip - 2 > MAX_REF then MAX_REF
      else data.length - ip - 2) = maxlen ∧ maxlen ≤ data.length - ip - 2 ∧ maxlen ≤ 264 := by
    have hmax : MAX_REF = 264 := rfl
    refine ⟨_, rfl, ?_, ?_⟩
    · split <;> omega
    · split <;> omega
  dsimp only
  rw [hmaxlen]
  have hmax : MAX_REF = 264 := rfl
  have hrest : ∀ len, 2 ≤ len → len ≤ 18 → ip + len < data.length → Agree data ref ip (len + 1) →
      Ends E (matchRest data ref ip maxlen (maxlen + 1) len) Q := fun len hmin hmax' hend hagree =>
    ends_matchRest href (by omega) hend (by omega) (Nat.succ_pos _) hagree
      fun len' hlt hcases hagree' => hQ len' (by omega) (by omega) (by omega) hagree'
  refine ends_bind.mpr (ends_ite.mpr ?_)
  split
  · refine ends_matchSome href (by omega) h (fun len' hlt hle' hagree => ?_) fun hagree => ?_
    · exact hQ len' hlt (by omega) (by omega) hagree
    · exact hrest 18 (by omega) (Nat.le_refl _) (by omega) hagree
  · exact hrest 2 (Nat.le_refl _) (by omega) (by omega) h

/-! ## Runs -/

/-- The text up to `ip` is told by the bytes up to `op`. -/
structure Told (data : Bytes) (s : Enc) : Prop where
  room : s.op ≤ s.out.length
  ip : s.ip ≤ data.length
  tokens : ∃ ts, AllFit [] ts ∧ expand [] ts = data.take s.ip ∧ s.out.take s.op = stream ts

/-- The text up to the open run is told by the bytes up to its header, and the run is copied. -/
structure Running (data : Bytes) (s : Enc) : Prop where
  header : s.lit + 1 ≤ s.op
  short : s.lit ≤ MAX_LIT
  lit : s.lit ≤ s.ip
  ip : s.ip ≤ data.length
  room : s.op ≤ s.out.length + 1
  full : 0 < s.lit → s.op ≤ s.out.length
  run : slice s.out (s.op - s.lit) s.lit = slice data (s.ip - s.lit) s.lit
  tokens : ∃ ts, AllFit [] ts ∧ expand [] ts = data.take (s.ip - s.lit) ∧
    s.out.take (s.op - s.lit - 1) = stream ts
  weight : 32 * (s.op - s.lit - 1) ≤ 33 * (s.ip - s.lit)

/-- Only the table and the hash value may be others. -/
theorem Running.congr (h : Running data s) (hip : s'.ip = s.ip) (hop : s'.op = s.op)
    (hlit : s'.lit = s.lit) (hout : s'.out = s.out) : Running data s' := by
  obtain ⟨ip, op, lit, hval, out, htab⟩ := s
  obtain ⟨ip', op', lit', hval', out', htab'⟩ := s'
  dsimp only at hip hop hlit hout
  subst hip hop hlit hout
  exact ⟨h.header, h.short, h.lit, h.ip, h.room, h.full, h.run, h.tokens, h.weight⟩

/-- The next run begins. -/
theorem Told.startRun (h : Told data s) (hweight : 32 * s.op ≤ 33 * s.ip) :
    Running data s.startRun := by
  unfold Enc.startRun
  refine ⟨?_, Nat.zero_le _, Nat.zero_le _, h.ip, Nat.succ_le_succ h.room, ?_, ?_, ?_, ?_⟩
  · show 0 + 1 ≤ s.op + 1
    omega
  · exact fun hlt => absurd hlt (Nat.lt_irrefl 0)
  · show slice _ _ 0 = slice _ _ 0
    simp [slice]
  · exact h.tokens
  · exact hweight

/-- The bytes up to `op` when the header of the run is written. -/
theorem take_header {l : Bytes} {i n : Nat} (b : UInt8) (h : i + 1 + n ≤ l.length) :
    (l.set i b).take (i + 1 + n) = l.take i ++ b :: slice l (i + 1) n := by
  have hlen : (l.take i).length = i := List.length_take_of_le (by omega)
  have hset : l.set i b = l.take i ++ b :: l.drop (i + 1) := by
    rw [List.set_eq_take_append_cons_drop, if_pos (by omega)]
  rw [hset, show i + 1 + n = (l.take i).length + (n + 1) by omega, List.take_length_add_append,
    List.take_succ_cons]
  rfl

/-- The run ends, or there was none: the text up to `ip` is told. -/
theorem Running.close (h : Running data s) (hroom : s.op ≤ s.out.length) :
    Ends E s.endRun fun s₁ => Told data s₁.undoRun ∧ s₁.undoRun.ip = s.ip ∧
      s₁.undoRun.op = s.undoRun.op ∧ s₁.undoRun.out.length = s.out.length ∧
      (s.lit = MAX_LIT → s₁ = s₁.undoRun) := by
  obtain ⟨ts, hfit, htext, hbytes⟩ := h.tokens
  have hheader := h.header
  have hlit := h.lit
  have hip := h.ip
  have hmax : MAX_LIT = 32 := rfl
  unfold Enc.endRun poke
  rw [if_pos hheader, if_pos (by omega), ok_bind]
  refine ⟨⟨?_, hip, ?_⟩, rfl, rfl, List.length_set, ?_⟩
  · unfold Enc.undoRun
    dsimp only
    rw [List.length_set]
    omega
  · unfold Enc.undoRun
    dsimp only
    rcases Nat.eq_zero_or_pos s.lit with hzero | hpos
    · refine ⟨ts, hfit, ?_, ?_⟩
      · rw [htext, hzero, Nat.sub_zero]
      · rw [if_pos hzero, hzero, Nat.sub_zero, List.take_set_of_le (Nat.le_refl _), ← hbytes, hzero,
          Nat.sub_zero]
    · have hrun : (slice data (s.ip - s.lit) s.lit).length = s.lit := length_slice (by omega)
      refine ⟨ts ++ [.lit (slice data (s.ip - s.lit) s.lit)], ?_, ?_, ?_⟩
      · refine allFit_concat.mpr ⟨hfit, ?_, ?_⟩
        · rw [hrun]
          exact hpos
        · rw [hrun]
          exact h.short
      · rw [expand_concat, htext]
        show data.take (s.ip - s.lit) ++ (data.drop (s.ip - s.lit)).take s.lit = _
        rw [← List.take_add, Nat.sub_add_cancel hlit]
      · have hop : s.op - 0 = s.op - s.lit - 1 + 1 + s.lit := by omega
        rw [if_neg (by omega), hop, take_header _ (by omega), hbytes, stream_concat, tokenBytes, hrun,
          show s.op - s.lit - 1 + 1 = s.op - s.lit by omega, h.run]
  · intro hfull
    unfold Enc.undoRun
    dsimp only
    rw [if_neg (by omega)]
    rfl

theorem undoRun_op (s : Enc) : s.undoRun.op = s.op - if s.lit = 0 then 1 else 0 := rfl

theorem slice_succ {l : Bytes} {i : Nat} {b : UInt8} (h : l[i + n]? = some b) :
    slice l i (n + 1) = slice l i n ++ [b] := by
  unfold slice
  rw [List.take_add_one, List.getElem?_drop, h]
  rfl

theorem slice_set {l : Bytes} {i j : Nat} (b : UInt8) (h : i + n ≤ j) :
    slice (l.set j b) i n = slice l i n := by
  refine List.ext_getElem? fun k => ?_
  rw [getElem?_slice, getElem?_slice]
  split
  · rw [List.getElem?_set_ne (by omega)]
  · rfl

/-- The run with a byte more. -/
theorem Running.grow {b : UInt8} (h : Running data s) (hlit : s.lit < MAX_LIT)
    (hop : s.op < s.out.length) (hb : data[s.ip]? = some b) :
    Running data { s with lit := s.lit + 1, out := s.out.set s.op b, op := s.op + 1, ip := s.ip + 1 } := by
  obtain ⟨ts, hfit, htext, hbytes⟩ := h.tokens
  have hheader := h.header
  have hle := h.lit
  have hip := (List.getElem?_eq_some_iff.mp hb).1
  have hset : (s.out.set s.op b).length = s.out.length := List.length_set
  refine ⟨?_, hlit, ?_, hip, ?_, fun _ => ?_, ?_, ⟨ts, hfit, ?_, ?_⟩, ?_⟩
  · dsimp only
    omega
  · dsimp only
    omega
  · dsimp only
    omega
  · dsimp only
    omega
  · dsimp only
    have hout : (s.out.set s.op b)[s.op - s.lit + s.lit]? = some b := by
      rw [show s.op - s.lit + s.lit = s.op by omega, List.getElem?_set_self hop]
    have hdata : data[s.ip - s.lit + s.lit]? = some b := by
      rw [Nat.sub_add_cancel hle, hb]
    rw [Nat.add_sub_add_right, Nat.add_sub_add_right, slice_succ hout, slice_succ hdata,
      slice_set b (by omega), h.run]
  · dsimp only
    rw [Nat.add_sub_add_right, htext]
  · dsimp only
    rw [Nat.add_sub_add_right, List.take_set_of_le (by omega), hbytes]
  · have := h.weight
    dsimp only
    omega

/-- One more literal byte is copied, and a full run ends. -/
theorem Running.literal (h : Running data s) (hlit : s.lit < MAX_LIT) (hip : s.ip < data.length)
    (hop : s.op < s.out.length)
    (hQ : ∀ s', Running data s' → s'.lit < MAX_LIT → s'.ip = s.ip + 1 →
      s'.out.length = s.out.length → (s.lit + 1 = MAX_LIT ∧ s'.lit = 0 ∧ s'.op = s.op + 2 ∨
        s'.lit = s.lit + 1 ∧ s'.op = s.op + 1) → Q s') :
    Ends E (Lzf.literal data s) Q := by
  unfold Lzf.literal
  refine ends_bind.mpr (ends_byteAt hip fun b hb => ?_)
  have hgrow := h.grow hlit hop hb
  have hset : (s.out.set s.op b).length = s.out.length := List.length_set
  unfold Enc.emit poke
  dsimp only
  rw [if_pos hop, ok_bind]
  show Ends E (if s.lit + 1 = MAX_LIT then _ else _) Q
  split
  case isFalse hmore => exact hQ _ hgrow (by dsimp only; omega) rfl hset (.inr ⟨rfl, rfl⟩)
  case isTrue hfull =>
    refine ends_bind.mpr ((hgrow.close (by dsimp only; omega)).mono ?_)
    rintro s₁ ⟨htold, hip₁, hop₁, hlen₁, hsame⟩
    rw [← hsame hfull] at htold hip₁ hop₁ hlen₁
    dsimp only at hip₁ hlen₁
    rw [undoRun_op] at hop₁
    dsimp only at hop₁
    rw [if_neg (Nat.succ_ne_zero _)] at hop₁
    have hweight := hgrow.weight
    have hheader := h.header
    have hle := h.lit
    have hmax : MAX_LIT = 32 := rfl
    dsimp only at hweight
    refine hQ _ (htold.startRun (by omega)) (Nat.succ_pos _) hip₁ (hlen₁.trans hset)
      (.inl ⟨hfull, rfl, ?_⟩)
    show s₁.op + 1 = s.op + 2
    omega

/-! ## The main loop -/

/-- What the compressor may end with: a zero, if the buffer has no room for the text with one byte
in thirty-two more, and five. -/
def Cramped (data out : Bytes) (e : Stop) : Prop :=
  e = .zero ∧ 32 * out.length ≤ 33 * data.length + 160

theorem length_refBytes (h : 3 ≤ len) : (refBytes off (len - 2)).length + 1 ≤ len ∧
    (refBytes off (len - 2)).length ≤ 3 := by
  unfold refBytes
  split
  · exact ⟨h, Nat.le_succ 2⟩
  · next hlong => exact ⟨by show 3 + 1 ≤ len; omega, Nat.le_refl 3⟩

/-- A match is written behind the run. -/
theorem Running.match (h : Running data s) (hip : s.ip + 2 < data.length)
    (hsmall : data.length < 2 ^ 32) (href : ref < s.ip) (hpos : 0 < ref)
    (hnear : s.ip - ref ≤ MAX_OFF) (hagree : Agree data ref s.ip 3)
    (hQ : ∀ s', Running data s' → s'.lit = 0 → s.ip < s'.ip → 2 ≤ s'.ip →
      s'.out.length = s.out.length → Q s') :
    Ends (Cramped data s.out) (s.match data ref (s.ip - ref - 1)) Q := by
  have hweight := h.weight
  have hheader := h.header
  have hle := h.lit
  have hmax := h.short
  have hmax' : MAX_LIT = 32 := rfl
  have hundo := undoRun_op s
  unfold Enc.match
  refine ends_ite.mpr ?_
  split
  case isTrue hfull =>
    refine ⟨rfl, ?_⟩
    have := hfull.1
    omega
  case isFalse hroom =>
    have hroom' : s.undoRun.op + 4 < s.out.length := by
      by_contra hno
      refine hroom ⟨?_, by omega⟩
      have : s.undoRun.op ≤ s.op := by
        rw [hundo]
        exact Nat.sub_le _ _
      omega
    have hop : s.op ≤ s.out.length := by
      split at hundo <;> omega
    refine ends_bind.mpr ((h.close hop).mono ?_)
    rintro s₁ ⟨htold, hip₁, hop₁, hlen₁, -⟩
    dsimp only
    rw [hip₁]
    refine ends_bind.mpr (ends_matchLength href hip hsmall hagree fun len hmin hmax hend hsame => ?_)
    refine ends_bind.mpr (ends_emitRef (by dsimp only; omega) fun s₂ h₂ => ?_)
    obtain ⟨ts, hfit, htext, hbytes⟩ := htold.tokens
    obtain ⟨hshort, hthree⟩ := @length_refBytes (s.ip - ref - 1) len hmin
    have hop₂ : s₂.op = s₁.undoRun.op + (refBytes (s.ip - ref - 1) (len - 2)).length := h₂.op
    have hlen₂ : s₂.out.length = s.out.length := h₂.length.trans hlen₁
    have hip₂ : s₂.ip = s.ip + 1 := h₂.ip
    have hbytes₂ : s₂.out.take s₂.op = s₁.undoRun.out.take s₁.undoRun.op ++
      refBytes (s.ip - ref - 1) (len - 2) := h₂.bytes
    have hnext : s₂.ip + (len - 2) + 1 = s.ip + len := by omega
    have htold₂ : Told data { s₂ with ip := s₂.ip + (len - 2) + 1 } := by
      refine ⟨by dsimp only; omega, by dsimp only; omega, ts ++ [.ref (s.ip - ref) len], ?_, ?_, ?_⟩
      · refine allFit_concat.mpr ⟨hfit, by omega, hnear, ?_, hmin, hmax⟩
        rw [htext, hip₁, List.length_take_of_le (by omega)]
        omega
      · rw [expand_concat, htext, hip₁]
        dsimp only
        rw [hnext]
        exact copyBack_take (by omega) (by omega) hend fun k hk => by
          rw [Nat.sub_sub_self (by omega)]
          exact hsame k hk
      · rw [stream_concat, hbytes₂, hbytes]
        rfl
    refine hQ _ (htold₂.startRun ?_) rfl ?_ ?_ hlen₂
    · dsimp only
      rw [hundo] at hop₁
      split at hop₁ <;> omega
    · show s.ip < s₂.ip + (len - 2) + 1
      omega
    · show 2 ≤ s₂.ip + (len - 2) + 1
      omega

/-- The table takes nothing but places, and it is not part of the invariant. -/
theorem Running.rehash (h : Running data s) (hlit : s.lit = 0) (htwo : 2 ≤ s.ip)
    (hip : s.ip + 2 < data.length)
    (hQ : ∀ s', Running data s' → s'.lit = 0 → s'.ip = s.ip → s'.out.length = s.out.length → Q s') :
    Ends E (s.rehash data) Q := by
  unfold Enc.rehash FRST NEXT
  refine ends_bind.mpr (ends_bind.mpr (ends_byteAt (by omega) fun a ha => ?_))
  refine ends_bind.mpr (ends_byteAt (by omega) fun b hb => ?_)
  refine ends_bind.mpr (ends_bind.mpr (ends_byteAt (by omega) fun c hc => ?_))
  refine ends_bind.mpr (ends_bind.mpr (ends_byteAt (by omega) fun d hd => ?_))
  exact hQ _ (h.congr rfl rfl rfl rfl) hlit rfl rfl

/-- An iteration goes on in the text, whatever place the table has. -/
theorem Running.tryMatch (h : Running data s) (hlit : s.lit < MAX_LIT) (hip : s.ip + 2 < data.length)
    (hsmall : data.length < 2 ^ 32) (href : ref < 2 ^ 32) :
    Ends (Cramped data s.out) (Lzf.tryMatch data s ref) fun r => Running data r.1 ∧
      r.1.lit < MAX_LIT ∧ s.ip < r.1.ip ∧ r.1.out.length = s.out.length ∧
      (r.2 = true → data.length ≤ r.1.ip + 2) := by
  refine ends_bind.mpr (ends_isMatch hip hsmall href ?_ fun hback hpos hnear hoff hagree => ?_)
  · -- a literal byte
    refine ends_ite.mpr ?_
    split
    case isTrue hfalse => cases hfalse
    refine ends_ite.mpr ?_
    split
    case isTrue hfull =>
      have hweight := h.weight
      have hheader := h.header
      have hle := h.lit
      have hmax : MAX_LIT = 32 := rfl
      exact ⟨rfl, by omega⟩
    case isFalse hroom =>
      refine ends_bind.mpr (h.literal hlit (by omega) (Nat.lt_of_not_le hroom)
        fun s' h' hlit' hip' hlen' _ => ?_)
      exact ⟨h', hlit', by dsimp only; omega, hlen', fun hfalse => by cases hfalse⟩
  · -- a back reference
    rw [hoff]
    refine ends_ite.mpr ?_
    rw [if_pos rfl]
    refine ends_bind.mpr (h.match hip hsmall hback hpos hnear hagree
      fun s' h' hlit' hip' htwo hlen' => ?_)
    have hshort : 0 < MAX_LIT := Nat.succ_pos 31
    refine ends_ite.mpr ?_
    split
    case isTrue hend => exact ⟨h', hlit' ▸ hshort, hip', hlen', fun _ => hend⟩
    case isFalse hmore =>
      refine ends_bind.mpr (h'.rehash hlit' htwo (by omega) fun s'' h'' hlit'' hip'' hlen'' => ?_)
      exact ⟨h'', hlit'' ▸ hshort, by dsimp only; omega, hlen''.trans hlen',
        fun hfalse => by cases hfalse⟩

theorem compressLoop_spec {fuel : Nat} (hsmall : data.length < 2 ^ 32) (h : Running data s)
    (hlit : s.lit < MAX_LIT) (hfuel : data.length < s.ip + fuel) :
    Ends (Cramped data s.out) (compressLoop data fuel s) fun s' => Running data s' ∧
      s'.lit < MAX_LIT ∧ s'.out.length = s.out.length ∧ data.length ≤ s'.ip + 2 := by
  induction fuel generalizing s with
  | zero =>
      have := h.ip
      omega
  | succ fuel ih =>
      refine ends_ite.mpr ?_
      split
      case isFalse hdone => exact ⟨h, hlit, rfl, by omega⟩
      case isTrue hip =>
        unfold NEXT
        refine ends_bind.mpr (ends_bind.mpr (ends_byteAt hip fun b _ => ?_))
        have hnew : Running data ({ s with hval := (s.hval <<< 8) ||| b.toUInt32 }.remember s.ip) :=
          h.congr rfl rfl rfl rfl
        refine ends_bind.mpr ((hnew.tryMatch hlit hip hsmall (UInt32.toNat_lt _)).mono ?_)
        rintro ⟨s', final⟩ ⟨h', hlit', hip', hlen', hend⟩
        dsimp only at h' hlit' hip' hlen' hend ⊢
        refine ends_ite.mpr ?_
        split
        case isTrue hfinal => exact ⟨h', hlit', hlen', hend hfinal⟩
        case isFalse hmore =>
          have hcramped : Cramped data s.out = Cramped data s'.out := by
            unfold Cramped
            rw [hlen']
            rfl
          have hip' : s.ip < s'.ip := hip'
          rw [hcramped]
          refine (ih h' hlit' (by omega)).mono ?_
          rintro s'' ⟨h'', hlit'', hlen'', hend''⟩
          exact ⟨h'', hlit'', hlen''.trans hlen', hend''⟩

/-- The last bytes of the text are literal, at most one run ending with them. -/
theorem literals_spec {fuel : Nat} (h : Running data s) (hlit : s.lit < MAX_LIT)
    (hfuel : data.length < s.ip + fuel) (hleft : data.length ≤ s.ip + 2)
    (hroom : s.op + (data.length - s.ip) +
      (if MAX_LIT ≤ s.lit + (data.length - s.ip) then 1 else 0) ≤ s.out.length) :
    Ends E (literals data fuel s) fun s' => Running data s' ∧ s'.ip = data.length ∧
      s'.op ≤ s'.out.length ∧ s'.out.length = s.out.length := by
  induction fuel generalizing s with
  | zero =>
      have := h.ip
      omega
  | succ fuel ih =>
      have hmax : MAX_LIT = 32 := rfl
      refine ends_ite.mpr ?_
      split
      case isFalse hdone =>
        have hip := h.ip
        exact ⟨h, by omega, by omega, rfl⟩
      case isTrue hip =>
        refine ends_bind.mpr (h.literal hlit hip (by omega) fun s' h' hlit' hip' hlen' hcases => ?_)
        have hroom' : s'.op + (data.length - s'.ip) +
            (if MAX_LIT ≤ s'.lit + (data.length - s'.ip) then 1 else 0) ≤ s'.out.length := by
          rw [hip', hlen']
          rcases hcases with ⟨hfull, hzero, hop⟩ | ⟨hmore, hop⟩
          · rw [hzero, hop, if_neg (by omega)]
            rw [if_pos (by omega)] at hroom
            omega
          · rw [hmore, hop, show s.lit + 1 + (data.length - (s.ip + 1)) =
              s.lit + (data.length - s.ip) by omega]
            omega
        refine (ih h' hlit' (by omega) (by omega) hroom').mono ?_
        rintro s'' ⟨h'', hip'', hop'', hlen''⟩
        exact ⟨h'', hip'', hop'', hlen''.trans hlen'⟩

/-! ## The codec -/

/-- **Writing.**  The compressor writes the bytes of tokens that tell its text, or it refuses a
buffer without room. -/
theorem lzfCompress_spec (data : Bytes) (htab : UInt32 → UInt32) (out : Bytes)
    (htwo : 2 ≤ data.length) (hsmall : data.length < 2 ^ 32) :
    Ends (Cramped data out) (lzfCompress data htab out) fun r => r.2.length = out.length ∧
      r.1 ≤ out.length ∧ 32 * r.1 ≤ 33 * data.length + 32 ∧
      ∃ ts, AllFit [] ts ∧ expand [] ts = data ∧ r.2.take r.1 = stream ts := by
  unfold lzfCompress
  refine ends_ite.mpr ?_
  split
  case isTrue hempty => exact ⟨rfl, by omega⟩
  case isFalse hsome =>
    unfold FRST
    refine ends_bind.mpr (ends_bind.mpr (ends_byteAt (by omega) fun a _ => ?_))
    refine ends_bind.mpr (ends_byteAt (by omega) fun b _ => ?_)
    have hstart : Told data ⟨0, 0, 0, (a.toUInt32 <<< 8) ||| b.toUInt32, out, htab⟩ :=
      ⟨Nat.zero_le _, Nat.zero_le _, [], trivial, rfl, rfl⟩
    have hmax : MAX_LIT = 32 := rfl
    refine ends_bind.mpr ((compressLoop_spec hsmall (hstart.startRun (Nat.le_refl 0))
      (Nat.succ_pos 31) (Nat.lt_add_left _ (Nat.lt_succ_self _))).mono ?_)
    rintro s ⟨h, hlit, hlen, hleft⟩
    have hlen : s.out.length = out.length := hlen
    have hweight := h.weight
    have hheader := h.header
    have hle := h.lit
    have hip := h.ip
    refine ends_ite.mpr ?_
    split
    case isTrue hfull => exact ⟨rfl, by omega⟩
    case isFalse hroom =>
      refine ends_bind.mpr ((literals_spec h hlit (by omega) hleft ?_).mono ?_)
      · split <;> omega
      rintro s₁ ⟨h₁, hip₁, hop₁, hlen₁⟩
      refine ends_bind.mpr ((h₁.close hop₁).mono ?_)
      rintro s₂ ⟨htold, hip₂, hop₂, hlen₂, -⟩
      obtain ⟨ts, hfit, htext, hbytes⟩ := htold.tokens
      have hroom₂ := htold.room
      have hweight₁ := h₁.weight
      have hheader₁ := h₁.header
      have hshort₁ := h₁.short
      have hle₁ := h₁.lit
      rw [undoRun_op s₁] at hop₂
      refine ⟨by dsimp only; omega, by dsimp only; omega, ?_, ts, hfit, ?_, hbytes⟩
      · dsimp only
        split at hop₂ <;> omega
      · rw [htext, hip₂, hip₁, List.take_length]

/-- What is written for a text. -/
structure Packed (data out : Bytes) (r : Nat × Bytes) : Prop where
  pos : 0 < r.1
  room : r.1 ≤ out.length
  weight : 32 * r.1 ≤ 33 * data.length + 32
  back : ∀ outLen, data.length ≤ outLen → lzfDecompress (r.2.take r.1) outLen = .ok data

theorem lzfCompress_packed (htab : UInt32 → UInt32) (htwo : 2 ≤ data.length)
    (hsmall : data.length < 2 ^ 32) :
    Ends (Cramped data out) (lzfCompress data htab out) (Packed data out) := by
  refine (lzfCompress_spec data htab out htwo hsmall).mono ?_
  rintro ⟨k, out'⟩ ⟨hlen, hk, hweight, ts, hfit, htext, hbytes⟩
  dsimp only at hlen hk hweight hbytes
  have hne : ts ≠ [] := by
    rintro rfl
    rw [← htext] at htwo
    exact absurd htwo (by decide)
  refine ⟨?_, hk, hweight, fun outLen hroom => ?_⟩
  · have hts := List.length_pos_of_ne_nil hne
    have hmore := @length_le_stream ts
    rw [← hbytes, List.length_take] at hmore
    dsimp only
    omega
  · dsimp only
    rw [hbytes, lzfDecompress_stream hne hfit (by rw [htext]; exact hroom), htext]

/-- Of a single byte the compressor reads the one behind it. -/
theorem two_le_of_packed {htab : UInt32 → UInt32} {r : Nat × Bytes}
    (h : lzfCompress data htab out = .ok r) : 2 ≤ data.length := by
  by_contra hno
  unfold lzfCompress at h
  split at h
  · cases h
  · have hone : byteAt data 1 = .error .memory := by
      unfold byteAt
      rw [List.getElem?_eq_none (by omega)]
    have hfrst : ∃ e, FRST data 0 = .error e := by
      unfold FRST
      rcases byteAt data 0 with e | b
      · exact ⟨e, rfl⟩
      · rw [hone]
        exact ⟨.memory, rfl⟩
    obtain ⟨e, hfrst⟩ := hfrst
    rw [hfrst] at h
    cases h

/-- **The codec.**  Whatever is in the hash table and in the buffer, the compressor stays inside
of its buffers; what it writes is at most one byte in thirty-two longer than the text, and the
decompressor makes the text of it, given enough room.  A buffer is refused only if it has no room
for that, and five bytes. -/
theorem lzf_codec (data : Bytes) (htab : UInt32 → UInt32) (out : Bytes)
    (htwo : 2 ≤ data.length) (hsmall : data.length < 2 ^ 32) :
    (∀ k out', lzfCompress data htab out = .ok (k, out') →
      0 < k ∧ k ≤ out.length ∧ 32 * k ≤ 33 * data.length + 32 ∧
        ∀ outLen, data.length ≤ outLen → lzfDecompress (out'.take k) outLen = .ok data) ∧
    ∀ e, lzfCompress data htab out = .error e →
      e = .zero ∧ 32 * out.length ≤ 33 * data.length + 160 := by
  have h := @lzfCompress_packed data out htab htwo hsmall
  unfold Ends at h
  rcases hr : lzfCompress data htab out with e | r
  · rw [hr] at h
    refine ⟨fun k out' hok => (by cases hok), fun e' he => ?_⟩
    cases he
    exact h
  · rw [hr] at h
    refine ⟨fun k out' hok => ?_, fun e he => by cases he⟩
    cases hok
    exact ⟨h.pos, h.room, h.weight, h.back⟩

/-- Of twelve equal bytes the last seven become a reference to the ones in front of them. -/
theorem lzf_codec_twelve : lzfCompress (List.replicate 12 97) (fun _ => 0) (List.replicate 12 0) =
      .ok (8, [1, 97, 97, 192, 0, 1, 97, 97, 0, 0, 0, 0]) ∧
    lzfDecompress [1, 97, 97, 192, 0, 1, 97, 97] 12 = .ok (List.replicate 12 97) := by
  have h : lzfCompress (List.replicate 12 97) (fun _ => 0) (List.replicate 12 0) =
      .ok (8, [1, 97, 97, 192, 0, 1, 97, 97, 0, 0, 0, 0]) := by decide +kernel
  obtain ⟨-, -, -, hback⟩ := (lzf_codec (List.replicate 12 97) (fun _ => 0) (List.replicate 12 0)
    (by decide) (by decide)).1 _ _ h
  exact ⟨h, hback 12 (by decide)⟩

end Lzf

end RedisCore
