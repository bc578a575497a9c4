/-
# `RedisCore.Lib.RevCursor` — cursors that count from the top bit

A table of `2^k` buckets files an element of hash `h` under `h mod 2^k`, that is
under the last `k` bits of `h`.  A cursor that is incremented *after reversing its
bits* walks these suffixes in an order that does not depend on `k`: read the bits
backwards and every bucket becomes an interval of `[0, 2^w)`, larger tables only
cut the intervals finer.

    position of v          pos v           the reversed bits, as a number
    bucket of v, 2^k wide   [⌊pos v⌋, ⌊pos v⌋ + 2^(w-k))
    next cursor            the end of that interval

Nothing here names a program; the width `w` and the two table sizes are parameters.
-/
import Mathlib.Data.Nat.Bitwise
import Mathlib.Tactic.Ring

namespace RevCursor

variable {w : Nat}

/-- The `k` low bits. -/
def lowMask (w k : Nat) : BitVec w := BitVec.ofNat w (2 ^ k - 1)

/-- Where a cursor stands in the reversed order. -/
def pos (v : BitVec w) : Nat := v.reverse.toNat

/-- Set the bits above the mask, reverse, increment, reverse back. -/
def advance (k : Nat) (v : BitVec w) : BitVec w :=
  ((v ||| ~~~(lowMask w k)).reverse + 1).reverse

/-- Increment the bits above the `a` low ones, which stay as they are. -/
def expand (a : Nat) (v : BitVec w) : BitVec w :=
  (((v ||| lowMask w a) + 1) &&& ~~~(lowMask w a)) ||| (v &&& lowMask w a)

/-! ## Masks, bit by bit and as arithmetic -/

theorem getLsbD_lowMask {k i : Nat} :
    (lowMask w k).getLsbD i = (decide (i < w) && decide (i < k)) := by
  simp [lowMask, BitVec.getLsbD_ofNat, Nat.testBit_two_pow_sub_one]

theorem toNat_lowMask {k : Nat} (hk : k ≤ w) : (lowMask w k).toNat = 2 ^ k - 1 := by
  have h : 2 ^ k ≤ 2 ^ w := Nat.pow_le_pow_right (by omega) hk
  have h0 : 0 < 2 ^ k := Nat.two_pow_pos k
  simp only [lowMask, BitVec.toNat_ofNat]
  exact Nat.mod_eq_of_lt (by omega)

theorem toNat_and_lowMask {k : Nat} (hk : k ≤ w) (v : BitVec w) :
    (v &&& lowMask w k).toNat = v.toNat % 2 ^ k := by
  rw [BitVec.toNat_and, toNat_lowMask hk, Nat.and_two_pow_sub_one_eq_mod]

theorem testBit_pos (v : BitVec w) (i : Nat) :
    (pos v).testBit i = (decide (i < w) && v.getLsbD (w - 1 - i)) := by
  show v.reverse.getLsbD i = _
  rw [BitVec.getLsbD_reverse, BitVec.getMsbD_eq_getLsbD]

theorem pos_lt (v : BitVec w) : pos v < 2 ^ w := v.reverse.isLt

theorem pos_zero : pos (0#w) = 0 := by
  simp [pos, BitVec.reverse_eq_zero_iff.mpr rfl]

theorem pos_eq_zero_iff {v : BitVec w} : pos v = 0 ↔ v = 0#w := by
  constructor
  · intro h
    have : v.reverse = 0#w := BitVec.eq_of_toNat_eq (by simpa [pos] using h)
    exact BitVec.reverse_eq_zero_iff.mp this
  · rintro rfl; exact pos_zero

theorem pos_injective {u v : BitVec w} (h : pos u = pos v) : u = v := by
  have : u.reverse = v.reverse := BitVec.eq_of_toNat_eq h
  rw [← BitVec.reverse_reverse_eq (x := u), this, BitVec.reverse_reverse_eq]

theorem pos_reverse (v : BitVec w) : pos v.reverse = v.toNat := by
  simp [pos, BitVec.reverse_reverse_eq]

/-! ## Buckets are intervals -/

/-- Two cursors share their last `k` bits exactly when their positions share the
first `k`. -/
theorem mod_eq_iff_pos_div_eq {k : Nat} (hk : k ≤ w) (u v : BitVec w) :
    u.toNat % 2 ^ k = v.toNat % 2 ^ k ↔ pos u / 2 ^ (w - k) = pos v / 2 ^ (w - k) := by
  constructor
  · intro h
    apply Nat.eq_of_testBit_eq
    intro i
    rw [Nat.testBit_div_two_pow, Nat.testBit_div_two_pow, testBit_pos, testBit_pos]
    by_cases hi : i + (w - k) < w
    · have hlow : w - 1 - (i + (w - k)) < k := by omega
      have hb := congrArg (fun n => n.testBit (w - 1 - (i + (w - k)))) h
      simp only [Nat.testBit_mod_two_pow, hlow, decide_true, Bool.true_and] at hb
      simp only [hi, decide_true, Bool.true_and]
      exact hb
    · simp [hi]
  · intro h
    apply Nat.eq_of_testBit_eq
    intro i
    rw [Nat.testBit_mod_two_pow, Nat.testBit_mod_two_pow]
    by_cases hi : i < k
    · have hb := congrArg (fun n => n.testBit (k - 1 - i)) h
      simp only [Nat.testBit_div_two_pow, testBit_pos] at hb
      have h1 : k - 1 - i + (w - k) < w := by omega
      have h2 : w - 1 - (k - 1 - i + (w - k)) = i := by omega
      simp only [h1, h2, decide_true, Bool.true_and] at hb
      simp only [hi, decide_true, Bool.true_and]
      exact hb
    · simp [hi]

/-- Setting the bits above the mask moves to the last position of the bucket. -/
theorem pos_or_not_lowMask {k : Nat} (hk : k ≤ w) (v : BitVec w) :
    pos (v ||| ~~~(lowMask w k)) = 2 ^ (w - k) * (pos v / 2 ^ (w - k)) + (2 ^ (w - k) - 1) := by
  have hlt : 2 ^ (w - k) - 1 < 2 ^ (w - k) := by
    have := Nat.two_pow_pos (w - k)
    omega
  apply Nat.eq_of_testBit_eq
  intro i
  rw [Nat.testBit_two_pow_mul_add _ hlt, testBit_pos]
  simp only [BitVec.getLsbD_or, BitVec.getLsbD_not, getLsbD_lowMask,
    Nat.testBit_two_pow_sub_one, Nat.testBit_div_two_pow, testBit_pos]
  by_cases hiw : i < w
  · have hj : w - 1 - i < w := by omega
    by_cases hi : i < w - k
    · have : ¬ w - 1 - i < k := by omega
      simp [hiw, hj, hi, this]
    · have h1 : w - 1 - i < k := by omega
      have h2 : i - (w - k) + (w - k) = i := by omega
      simp [hiw, hj, hi, h1, h2]
  · have hi : ¬ i < w - k := by omega
    have h2 : ¬ i - (w - k) + (w - k) < w := by omega
    simp [hiw, hi, h2]

/-- The next cursor stands at the end of the bucket, modulo `2^w`. -/
theorem pos_advance {k : Nat} (hk : k ≤ w) (v : BitVec w) :
    pos (advance k v) = (2 ^ (w - k) * (pos v / 2 ^ (w - k) + 1)) % 2 ^ w := by
  have h0 := Nat.two_pow_pos (w - k)
  rw [advance, pos_reverse, BitVec.toNat_add]
  have : (v ||| ~~~(lowMask w k)).reverse.toNat
      = 2 ^ (w - k) * (pos v / 2 ^ (w - k)) + (2 ^ (w - k) - 1) := pos_or_not_lowMask hk v
  rw [this]
  by_cases hw : w = 0
  · subst hw; simp
  · have h1 : (1#w).toNat = 1 := by
      simp only [BitVec.toNat_ofNat]
      exact Nat.mod_eq_of_lt (Nat.one_lt_two_pow hw)
    show (_ + (1#w).toNat) % 2 ^ w = _
    rw [h1, Nat.add_assoc, Nat.sub_add_cancel h0, Nat.mul_add, Nat.mul_one]

/-- The end of a bucket never lies beyond the end of the whole range. -/
theorem bucket_end_le {k : Nat} (hk : k ≤ w) (v : BitVec w) :
    2 ^ (w - k) * (pos v / 2 ^ (w - k) + 1) ≤ 2 ^ w := by
  have hsplit : 2 ^ w = 2 ^ (w - k) * 2 ^ k := by rw [← Nat.pow_add]; congr 1; omega
  have hlt : pos v / 2 ^ (w - k) < 2 ^ k := by
    apply Nat.div_lt_of_lt_mul
    rw [← hsplit]
    exact pos_lt v
  rw [hsplit]
  exact Nat.mul_le_mul_left _ hlt

/-- **One step of the walk.**  Whatever the next cursor has left behind was either
behind the old cursor or in the bucket just visited; when the next cursor is `0`
everything has been left behind. -/
theorem covered_of_advance {k : Nat} (hk : k ≤ w) (v h : BitVec w)
    (hcov : pos h < pos (advance k v) ∨ advance k v = 0#w) :
    pos h < pos v ∨ h.toNat % 2 ^ k = v.toNat % 2 ^ k := by
  by_cases hlt : pos h < pos v
  · exact Or.inl hlt
  right
  rw [mod_eq_iff_pos_div_eq hk]
  have hend : pos h < 2 ^ (w - k) * (pos v / 2 ^ (w - k) + 1) := by
    have hadv := pos_advance hk v
    have hle := bucket_end_le hk v
    rcases hcov with hcov | hzero
    · rw [hadv] at hcov
      exact Nat.lt_of_lt_of_le hcov (Nat.mod_le _ _)
    · rw [hzero, pos_zero] at hadv
      rcases Nat.lt_or_eq_of_le hle with hl | he
      · rw [Nat.mod_eq_of_lt hl] at hadv
        have := Nat.two_pow_pos (w - k)
        have hpos : 0 < 2 ^ (w - k) * (pos v / 2 ^ (w - k) + 1) :=
          Nat.mul_pos this (Nat.succ_pos _)
        omega
      · rw [he]; exact pos_lt h
  apply Nat.le_antisymm
  · have : pos h / 2 ^ (w - k) < pos v / 2 ^ (w - k) + 1 := by
      apply Nat.div_lt_of_lt_mul
      exact hend
    omega
  · exact Nat.div_le_div_right (by omega)

/-- The bucket of a cursor, as a cursor. -/
theorem toNat_bucket_mod {k : Nat} (hk : k ≤ w) (v : BitVec w) :
    (BitVec.ofNat w (v.toNat % 2 ^ k)).toNat % 2 ^ k = v.toNat % 2 ^ k := by
  rw [BitVec.toNat_ofNat, Nat.mod_mod_of_dvd _ (Nat.pow_dvd_pow 2 hk), Nat.mod_mod]

/-- Two cursors of different buckets stand in the order of the buckets. -/
theorem pos_lt_of_bucket_le {k : Nat} (hk : k ≤ w) (u v : BitVec w)
    (hne : u.toNat % 2 ^ k ≠ v.toNat % 2 ^ k)
    (hle : pos (BitVec.ofNat w (u.toNat % 2 ^ k)) ≤ pos (BitVec.ofNat w (v.toNat % 2 ^ k))) :
    pos u < pos v := by
  have hu := (mod_eq_iff_pos_div_eq hk _ u).mp (toNat_bucket_mod hk u)
  have hv := (mod_eq_iff_pos_div_eq hk _ v).mp (toNat_bucket_mod hk v)
  have hdiv : pos u / 2 ^ (w - k) ≤ pos v / 2 ^ (w - k) := by
    rw [← hu, ← hv]
    exact Nat.div_le_div_right hle
  have hne' : pos u / 2 ^ (w - k) ≠ pos v / 2 ^ (w - k) :=
    fun heq => hne ((mod_eq_iff_pos_div_eq hk u v).mpr heq)
  by_contra hge
  exact hne' (Nat.le_antisymm hdiv (Nat.div_le_div_right (Nat.le_of_not_lt hge)))

/-! ## Walking the expansions of a bucket in a larger table -/

theorem toNat_or_lowMask {a : Nat} (ha : a ≤ w) (v : BitVec w) :
    (v ||| lowMask w a).toNat = 2 ^ a * (v.toNat / 2 ^ a) + (2 ^ a - 1) := by
  have hlt : 2 ^ a - 1 < 2 ^ a := by
    have := Nat.two_pow_pos a
    omega
  apply Nat.eq_of_testBit_eq
  intro i
  rw [Nat.testBit_two_pow_mul_add _ hlt, BitVec.toNat_or, toNat_lowMask ha, Nat.testBit_or]
  simp only [Nat.testBit_two_pow_sub_one, Nat.testBit_div_two_pow]
  by_cases hi : i < a
  · simp [hi]
  · have : i - a + a = i := by omega
    simp [hi, this]

theorem toNat_and_not_lowMask {a : Nat} (v : BitVec w) :
    (v &&& ~~~(lowMask w a)).toNat = 2 ^ a * (v.toNat / 2 ^ a) := by
  apply Nat.eq_of_testBit_eq
  intro i
  have hmul := Nat.testBit_two_pow_mul_add (v.toNat / 2 ^ a) (Nat.two_pow_pos a) i
  rw [Nat.add_zero] at hmul
  rw [hmul]
  show (v &&& ~~~(lowMask w a)).getLsbD i = _
  simp only [BitVec.getLsbD_and, BitVec.getLsbD_not, getLsbD_lowMask, Nat.testBit_div_two_pow]
  by_cases hi : i < a
  · by_cases hiw : i < w
    · simp [hi, hiw]
    · simp [hi, hiw, BitVec.getLsbD_of_ge v i (by omega)]
  · have h2 : i - a + a = i := by omega
    by_cases hiw : i < w
    · simp [hi, hiw, h2, BitVec.getLsbD]
    · have : v.toNat.testBit i = false := BitVec.getLsbD_of_ge v i (by omega)
      simp [hi, hiw, h2, this]

/-- `expand` adds one to the part above the mask, modulo `2^w`. -/
theorem toNat_expand {a : Nat} (ha : a ≤ w) (v : BitVec w) :
    (expand a v).toNat = (2 ^ a * (v.toNat / 2 ^ a + 1)) % 2 ^ w + v.toNat % 2 ^ a := by
  have ha0 := Nat.two_pow_pos a
  by_cases hw : w = 0
  · subst hw
    have ha0 : a = 0 := by omega
    subst ha0
    have hv : v.toNat = 0 := by have := v.isLt; omega
    have he : (expand 0 v).toNat = 0 := by have := (expand 0 v).isLt; omega
    simp [he, hv]
  have h1 : (1#w).toNat = 1 := by
    simp only [BitVec.toNat_ofNat]
    exact Nat.mod_eq_of_lt (Nat.one_lt_two_pow hw)
  have hdvd : 2 ^ a ∣ 2 ^ w := Nat.pow_dvd_pow 2 ha
  have hsum : ((v ||| lowMask w a) + 1).toNat = (2 ^ a * (v.toNat / 2 ^ a + 1)) % 2 ^ w := by
    rw [BitVec.toNat_add, toNat_or_lowMask ha]
    show (_ + (1#w).toNat) % 2 ^ w = _
    rw [h1, Nat.add_assoc, Nat.sub_add_cancel ha0, Nat.mul_add, Nat.mul_one]
  have hdiv : 2 ^ a ∣ (2 ^ a * (v.toNat / 2 ^ a + 1)) % 2 ^ w :=
    (Nat.dvd_mod_iff hdvd).mpr (Nat.dvd_mul_right _ _)
  have hhigh : (((v ||| lowMask w a) + 1) &&& ~~~(lowMask w a)).toNat
      = (2 ^ a * (v.toNat / 2 ^ a + 1)) % 2 ^ w := by
    rw [toNat_and_not_lowMask, hsum, Nat.mul_div_cancel' hdiv]
  rw [expand, BitVec.toNat_or, hhigh, toNat_and_lowMask ha]
  obtain ⟨q, hq⟩ := hdiv
  rw [hq]
  exact (Nat.two_pow_add_eq_or_of_lt (Nat.mod_lt _ ha0) q).symm

/-- Seen through the mask of the larger table, `expand` moves to the next bucket
with the same low bits, and comes back to the first one after the last. -/
theorem toNat_expand_mod {a b : Nat} (hab : a ≤ b) (hb : b ≤ w) (v : BitVec w) :
    (expand a v).toNat % 2 ^ b
      = (2 ^ a * (v.toNat % 2 ^ b / 2 ^ a + 1)) % 2 ^ b + v.toNat % 2 ^ a := by
  have ha0 := Nat.two_pow_pos a
  have hdvd : 2 ^ b ∣ 2 ^ w := Nat.pow_dvd_pow 2 hb
  have hdvdab : 2 ^ a ∣ 2 ^ b := Nat.pow_dvd_pow 2 hab
  have hsplit : 2 ^ b = 2 ^ a * 2 ^ (b - a) := by rw [← Nat.pow_add]; congr 1; omega
  rw [toNat_expand (Nat.le_trans hab hb), Nat.add_mod, Nat.mod_mod_of_dvd _ hdvd]
  have hsame : (2 ^ a * (v.toNat / 2 ^ a + 1)) % 2 ^ b
      = (2 ^ a * (v.toNat % 2 ^ b / 2 ^ a + 1)) % 2 ^ b := by
    rw [hsplit, Nat.mul_mod_mul_left, Nat.mul_mod_mul_left, Nat.mod_mul_right_div_self]
    simp [Nat.add_mod]
  rw [hsame]
  have hlow : v.toNat % 2 ^ a % 2 ^ b = v.toNat % 2 ^ a :=
    Nat.mod_eq_of_lt (Nat.lt_of_lt_of_le (Nat.mod_lt _ ha0)
      (Nat.pow_le_pow_right (by omega) hab))
  rw [hlow]
  apply Nat.mod_eq_of_lt
  -- a multiple of `2^a` below `2^b` leaves room for the low part
  have hmul : 2 ^ a ∣ (2 ^ a * (v.toNat % 2 ^ b / 2 ^ a + 1)) % 2 ^ b :=
    (Nat.dvd_mod_iff hdvdab).mpr (Nat.dvd_mul_right _ _)
  obtain ⟨q, hq⟩ := hmul
  have hlt : 2 ^ a * q < 2 ^ a * 2 ^ (b - a) := by
    rw [← hq, ← hsplit]
    exact Nat.mod_lt _ (Nat.two_pow_pos b)
  have hq' : q + 1 ≤ 2 ^ (b - a) := Nat.lt_of_mul_lt_mul_left hlt
  rw [hq]
  calc 2 ^ a * q + v.toNat % 2 ^ a < 2 ^ a * q + 2 ^ a := by
        have := Nat.mod_lt v.toNat ha0
        omega
    _ = 2 ^ a * (q + 1) := by ring
    _ ≤ 2 ^ a * 2 ^ (b - a) := Nat.mul_le_mul_left _ hq'
    _ = 2 ^ b := hsplit.symm

theorem expand_low {a : Nat} (ha : a ≤ w) (v : BitVec w) :
    (expand a v).toNat % 2 ^ a = v.toNat % 2 ^ a := by
  rw [toNat_expand_mod (Nat.le_refl a) ha, Nat.mul_mod_right, Nat.zero_add]

theorem expand_high {a b : Nat} (hab : a ≤ b) (hb : b ≤ w) (v : BitVec w) :
    (expand a v).toNat % 2 ^ b / 2 ^ a = (v.toNat % 2 ^ b / 2 ^ a + 1) % 2 ^ (b - a) := by
  have ha0 := Nat.two_pow_pos a
  have hsplit : 2 ^ b = 2 ^ a * 2 ^ (b - a) := by rw [← Nat.pow_add]; congr 1; omega
  rw [toNat_expand_mod hab hb]
  conv_lhs => rw [hsplit, Nat.mul_mod_mul_left, ← hsplit]
  rw [Nat.mul_add_div ha0, Nat.div_eq_of_lt (Nat.mod_lt _ ha0), Nat.add_zero]

/-- The bits between the two masks are zero exactly at the first expansion. -/
theorem and_xor_lowMask_eq_zero {a b : Nat} (hab : a ≤ b) (hb : b ≤ w) (v : BitVec w) :
    v &&& (lowMask w a ^^^ lowMask w b) = 0#w ↔ v.toNat % 2 ^ b / 2 ^ a = 0 := by
  have hbit : ∀ i, (v.toNat % 2 ^ b / 2 ^ a).testBit i
      = (decide (i + a < b) && v.getLsbD (i + a)) := by
    intro i
    rw [Nat.testBit_div_two_pow, Nat.testBit_mod_two_pow]
    rfl
  constructor
  · intro h
    apply Nat.eq_of_testBit_eq
    intro i
    rw [hbit, Nat.zero_testBit]
    by_cases hi : i + a < b
    · have hv := congrArg (fun u => u.getLsbD (i + a)) h
      have hiw : i + a < w := by omega
      have hna : ¬ i + a < a := by omega
      simp only [BitVec.getLsbD_and, BitVec.getLsbD_xor, getLsbD_lowMask, BitVec.getLsbD_zero, hi,
        hiw, hna, decide_true, decide_false, Bool.true_and, Bool.false_xor, Bool.and_true] at hv
      simp [hi, hv]
    · simp [hi]
  · intro h
    apply BitVec.eq_of_getLsbD_eq
    intro i hi
    have hv := hbit (i - a)
    rw [h, Nat.zero_testBit] at hv
    simp only [BitVec.getLsbD_and, BitVec.getLsbD_xor, getLsbD_lowMask, BitVec.getLsbD_zero, hi,
      decide_true, Bool.true_and]
    by_cases hia : i < a
    · simp [hia, Nat.lt_of_lt_of_le hia hab]
    · have hvi : i - a + a = i := by omega
      rw [hvi] at hv
      by_cases hib : i < b
      · simpa [hia, hib] using hv.symm
      · simp [hia, hib]

end RevCursor
