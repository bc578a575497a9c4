/-
# `RedisCore.Sds.Cut` — cutting dynamic strings down (`sdstrim`, `sdsrange`)

Both functions move a part of the string to its front and set the length.  `sdsrange` takes the
part between two indices, which count from the end where they are negative; an index before the
first byte stands for the first byte, also at the right end (`sdsrange_spec`).

`sdstrim` takes away characters of a set at both ends.  It looks for a character with `strchr`,
which finds the NUL at the end of the set too, so that NUL bytes at the ends of the string are
taken away along with the characters (`sdstrim_iff`).
-/
import RedisCore.Lib.Trim
import RedisCore.Sds.Runs

namespace RedisCore

namespace Sdshdr

open Trim

/-! ## The code -/

/-- `memmove(s, s+from, n)`. -/
def moveDown (s : Sdshdr) (src n : Nat) : Option Sdshdr := do s.store 0 (← s.load src n)

/-- `if (b < 0) { b = len+b; if (b < 0) b = 0; }` -/
def rangeBound (len : Nat) (b : Int) : Int :=
  if b < 0 then
    let b := CInt.toInt (size_t (len + CInt.toULong b))
    if b < 0 then 0 else b
  else b

/-- `(start > end) ? 0 : (end-start)+1`, as a `size_t`. -/
def rangeLen (start stop : Int) : Nat :=
  if start > stop then 0 else CInt.toULong (CInt.toInt (CInt.toInt (stop - start) + 1))

/-- The `start` and `newlen` that `sdsrange` computes, from bounds that are not negative. -/
def rangePart (len : Nat) (start stop : Int) : Int × Nat :=
  let newlen := rangeLen start stop
  if newlen ≠ 0 then
    if start ≥ CInt.toInt len then (start, 0)
    else if stop ≥ CInt.toInt len then (start, rangeLen start (CInt.toInt (len - 1)))
    else (start, newlen)
  else (0, newlen)

def sdsrange (s : Sdshdr) (start stop : Int) : Option Sdshdr :=
  let len := s.sdslen
  if len = 0 then some s
  else do
    let (start, newlen) := rangePart len (rangeBound len start) (rangeBound len stop)
    let s ← (if start ≠ 0 ∧ newlen ≠ 0 then s.moveDown start.toNat newlen else some s :
      Option Sdshdr)
    let s ← s.store newlen [0]
    some (s.sdssetlen newlen)

/-- `strchr(cset, c)`, which finds the terminating NUL too. -/
def strchr (cset : Bytes) (c : UInt8) : Bool := (cstring cset ++ [0]).contains c

/-- A byte of the string; `none` outside of it. -/
def byte (s : Sdshdr) (i : Int) : Option UInt8 :=
  if 0 ≤ i ∧ i < s.sdslen then s.buf[i.toNat]? else none

/-- `while(sp <= end && strchr(cset, *sp)) sp++;`, at most so often. -/
def frontLoop (s : Sdshdr) (cset : Bytes) (stop : Int) : Nat → Int → Option Int
  | 0, _ => none
  | fuel + 1, sp =>
    if sp ≤ stop then do
      let c ← s.byte sp
      if strchr cset c then frontLoop s cset stop fuel (sp + 1) else some sp
    else some sp

/-- `while(ep > sp && strchr(cset, *ep)) ep--;`, at most so often. -/
def backLoop (s : Sdshdr) (cset : Bytes) (sp : Int) : Nat → Int → Option Int
  | 0, _ => none
  | fuel + 1, ep =>
    if ep > sp then do
      let c ← s.byte ep
      if strchr cset c then backLoop s cset sp fuel (ep - 1) else some ep
    else some ep

/-- `sdstrim`; the pointers are offsets into the string, the one of its end is -1 where it is
empty. -/
def sdstrim (s : Sdshdr) (cset : Bytes) : Option Sdshdr := do
  let stop : Int := s.sdslen - 1
  let sp ← frontLoop s cset stop (s.sdslen + 1) 0
  let ep ← backLoop s cset sp (s.sdslen + 1) stop
  let len := if sp > ep then 0 else (ep - sp + 1).toNat
  let s ← (if sp ≠ 0 then s.moveDown sp.toNat len else some s : Option Sdshdr)
  let s ← s.store len [0]
  some (s.sdssetlen len)

/-! ## A part of the string -/

variable {s s' : Sdshdr} {b c spare : Bytes} {i n : Nat}

theorem Sound.has (hs : s.Sound b) : s.Has b s.spare := by
  have hlen := hs.len
  have hterm := hs.terminated
  have hblock := hs.block
  have halloc := hs.alloc
  have hbuf : s.buf = b ++ 0 :: s.spare := by
    obtain ⟨hlt, hget⟩ := List.getElem?_eq_some_iff.mp hterm
    calc s.buf = s.buf.take s.sdslen ++ s.buf.drop s.sdslen := (List.take_append_drop _ _).symm
      _ = b ++ 0 :: s.spare := by
        rw [hs.content, List.drop_eq_getElem_cons hlt, hget]
        rfl
  refine ⟨hbuf, hlen, hlen ▸ halloc, ?_, hs.fits⟩
  rw [hbuf, List.length_append, List.length_cons] at hblock
  omega

theorem Has.sound (hs : s.Has b spare) : s.Sound b := by
  have hlen : s.sdslen = b.length := hs.len
  refine ⟨by rw [hlen, hs.buf, List.take_left], hlen, ?_, by rw [hlen]; exact hs.alloc, hs.fits,
    hs.length_buf⟩
  rw [hlen, hs.buf, List.getElem?_append_right (Nat.le_refl _), Nat.sub_self]
  rfl

/-- A part is moved to the front, or is there already. -/
theorem moveDown_spec (hs : s.Has b spare) {q : Prop} [Decidable q] (hle : q → i + n ≤ b.length)
    (hq : ¬ q → n = 0 ∨ i = 0 ∧ n ≤ b.length) :
    (if q then s.moveDown i n else some s) =
      some { s with buf := (b.drop i).take n ++ s.buf.drop n } := by
  by_cases h : q
  · have hle := hle h
    have hpart : Splice.slice s.buf i n = (b.drop i).take n := by
      rw [hs.buf, Splice.slice_append_left hle]
      rfl
    have hlen : ((b.drop i).take n).length = n := by
      rw [List.length_take, List.length_drop]
      omega
    have hroom : i + n ≤ s.buf.length := by
      rw [hs.buf, List.length_append]
      omega
    rw [if_pos h, moveDown, load, if_pos hroom, hpart]
    simp only [Option.bind_eq_bind, Option.bind_some]
    rw [store_zero (by rw [hlen]; omega), hlen]
  · have hsame : (b.drop i).take n ++ s.buf.drop n = s.buf := by
      rcases hq h with rfl | ⟨rfl, hn⟩
      · rw [List.take_zero, List.drop_zero, List.nil_append]
      · rw [List.drop_zero, hs.buf, List.drop_append_of_le_length hn, ← List.append_assoc,
          List.take_append_drop]
    rw [if_neg h, hsame]

/-- Behind the end of `s` the block is as it was. -/
def SameBehind (s s' : Sdshdr) : Prop := s'.buf.drop s.sdslen = s.buf.drop s.sdslen

/-- The part is what the string is afterwards, and behind the string nothing is written. -/
theorem cutDown_spec (hs : s.Has b spare) (hin : n = 0 ∨ i + n ≤ b.length) :
    ∃ s', Sdshdr.store { s with buf := (b.drop i).take n ++ s.buf.drop n } n [0] = some s' ∧
      (s'.sdssetlen n).Sound ((b.drop i).take n) ∧ s.SameBehind (s'.sdssetlen n) := by
  have halloc := hs.alloc
  have hblock := hs.length_buf
  have hlen : s.sdslen = b.length := hs.len
  have hpart : ((b.drop i).take n).length = n := by
    rw [List.length_take, List.length_drop]
    omega
  have hdrop : (s.buf.drop n).length = s.buf.length - n := List.length_drop
  obtain ⟨s', spare', hrun, hs', -⟩ := cut_has
    (s := { s with buf := (b.drop i).take n ++ s.buf.drop n }) rfl
    (by rw [hpart]; exact Nat.le_trans (by omega) halloc)
    (by
      show s.sdsalloc + 1 ≤ ((b.drop i).take n ++ s.buf.drop n).length
      rw [List.length_append]
      omega) hs.fits
  rw [hpart] at hrun hs'
  refine ⟨s', hrun, hs'.sound, ?_⟩
  rw [store_append (a := (b.drop i).take n) (l := s.buf.drop n) rfl hpart.symm
    (by rw [hdrop, List.length_singleton]; omega)] at hrun
  cases hrun
  show ((b.drop i).take n ++ [0] ++ (s.buf.drop n).drop [(0 : UInt8)].length).drop s.sdslen = _
  rw [hlen, List.drop_drop, List.length_singleton]
  by_cases hn : n = b.length
  · have hall : (b.drop i).take n = b := by
      rcases Nat.eq_zero_or_pos n with hz | hpos
      · rw [hz, List.take_zero, List.length_eq_zero_iff.mp (hn.symm.trans hz)]
      · obtain rfl : i = 0 := by omega
        rw [hn, List.drop_zero, List.take_length]
    rw [hall, hn, hs.buf]
    simp [List.drop_append]
  · rw [List.drop_append, List.drop_of_length_le (by rw [List.length_append, hpart]; simp; omega),
      List.nil_append, List.drop_drop, List.length_append, hpart, List.length_singleton]
    congr 1
    omega

/-! ## `sdsrange` -/

/-- The index of a byte is from `lo` to `hi`. -/
def between (lo hi : Int) (x : UInt8 × Nat) : Bool := lo ≤ x.2 ∧ x.2 ≤ hi

/-- The bytes at the indices from `lo` to `hi`, both included. -/
def inclusive (b : Bytes) (lo hi : Int) : Bytes := (b.zipIdx.filter (between lo hi)).map Prod.fst

/-- An index that counts from the end where it is negative; before the first byte it stands for
that byte. -/
def fromEnd (len : Nat) (i : Int) : Int := if i < 0 then max (len + i) 0 else i

theorem inclusive_from (b : Bytes) (lo hi : Int) (k : Nat) :
    ((b.zipIdx k).filter (between lo hi)).map Prod.fst =
      (b.drop (lo - k).toNat).take (hi + 1 - max lo k).toNat := by
  induction b generalizing k with
  | nil => simp
  | cons a b ih =>
      rw [List.zipIdx_cons]
      by_cases hlo : lo ≤ k
      · by_cases hhi : (k : Int) ≤ hi
        · have hin : between lo hi (a, k) = true := decide_eq_true ⟨hlo, hhi⟩
          rw [List.filter_cons_of_pos hin, List.map_cons, ih (k + 1),
            show (lo - k).toNat = 0 by omega, show (lo - (k + 1 : Nat)).toNat = 0 by omega,
            show (hi + 1 - max lo k).toNat = (hi + 1 - max lo (k + 1 : Nat)).toNat + 1 by omega]
          rfl
        · have hout : ¬ between lo hi (a, k) = true := fun h => hhi (of_decide_eq_true h).2
          rw [List.filter_cons_of_neg hout, ih (k + 1),
            show (hi + 1 - max lo k).toNat = 0 by omega,
            show (hi + 1 - max lo (k + 1 : Nat)).toNat = 0 by omega, List.take_zero, List.take_zero]
      · have hout : ¬ between lo hi (a, k) = true := fun h => hlo (of_decide_eq_true h).1
        rw [List.filter_cons_of_neg hout, ih (k + 1),
          show (lo - k).toNat = (lo - (k + 1 : Nat)).toNat + 1 by omega, List.drop_succ_cons,
          show max lo (k : Int) = max lo (k + 1 : Nat) by omega]

theorem inclusive_eq (b : Bytes) {lo : Int} (hlo : 0 ≤ lo) (hi : Int) :
    inclusive b lo hi = (b.drop lo.toNat).take (hi + 1 - lo).toNat := by
  rw [inclusive, inclusive_from b lo hi 0, show lo - ((0 : Nat) : Int) = lo by omega,
    show max lo ((0 : Nat) : Int) = lo by omega]

theorem rangeBound_eq {len : Nat} (hlen : len < 2 ^ 31) {i : Int} (h₁ : -(2 ^ 31) ≤ i)
    (h₂ : i < 2 ^ 31) : rangeBound len i = fromEnd len i := by
  rw [rangeBound, fromEnd]
  by_cases hi : i < 0
  · rw [if_pos hi, if_pos hi]
    have hsum : CInt.toInt (size_t (len + CInt.toULong i)) = len + i := by
      unfold size_t CInt.toULong CInt.toInt
      rw [Int.bmod_def]
      split <;> omega
    rw [hsum]
    dsimp only
    split <;> omega
  · rw [if_neg hi, if_neg hi]

theorem rangeLen_eq {start stop : Int} (h₁ : 0 ≤ start) (h₂ : start ≤ stop) (h₃ : stop < 2 ^ 31 - 1) :
    rangeLen start stop = (stop + 1 - start).toNat := by
  rw [rangeLen, if_neg (by omega), CInt.toInt_eq (n := stop - start) (by omega) (by omega),
    CInt.toInt_eq (by omega) (by omega)]
  unfold CInt.toULong
  omega

/-- The difference of the bounds may be too large for an `int`; it is not zero then either. -/
theorem rangeLen_ne_zero {start stop : Int} (h₁ : 0 ≤ start) (h₂ : start ≤ stop)
    (h₃ : stop < 2 ^ 31) : rangeLen start stop ≠ 0 := by
  rw [rangeLen, if_neg (by omega), CInt.toInt_eq (n := stop - start) (by omega) (by omega)]
  unfold CInt.toULong CInt.toInt
  rw [Int.bmod_def]
  split <;> omega

/-- The part that `sdsrange` computes is the one between the bounds, or empty like that. -/
theorem rangePart_spec {len : Nat} (hpos : 0 < len) (hlen : len < 2 ^ 31) {start stop : Int}
    (h₁ : 0 ≤ start) (h₂ : start < 2 ^ 31) (h₃ : 0 ≤ stop) (h₄ : stop < 2 ^ 31) :
    ∃ i n : Nat, rangePart len start stop = ((i : Int), n) ∧ (n = 0 ∨ i + n ≤ len) ∧
      ∀ b : Bytes, b.length = len → (b.drop i).take n = inclusive b start stop := by
  have hintlen : CInt.toInt len = len := CInt.toInt_eq (by omega) (by omega)
  have hintlast : CInt.toInt (len - 1) = len - 1 := CInt.toInt_eq (by omega) (by omega)
  obtain ⟨i, rfl⟩ : ∃ i : Nat, start = i := ⟨start.toNat, by omega⟩
  unfold rangePart
  by_cases hempty : stop < i
  · -- nothing is between the bounds
    refine ⟨0, 0, ?_, .inl rfl, fun b _ => ?_⟩
    · rw [rangeLen, if_pos hempty]
      rfl
    · rw [inclusive_eq b h₁, show (stop + 1 - (i : Int)).toNat = 0 by omega, List.take_zero,
        List.take_zero]
  · dsimp only
    rw [if_pos (rangeLen_ne_zero h₁ (by omega) h₄), hintlen, hintlast]
    by_cases hbehind : (i : Int) ≥ len
    · refine ⟨i, 0, by rw [if_pos hbehind], .inl rfl, fun b hb => ?_⟩
      rw [inclusive_eq b h₁, List.take_zero, Int.toNat_natCast, List.drop_of_length_le (by omega),
        List.take_nil]
    · rw [if_neg hbehind]
      by_cases hover : stop ≥ len
      · refine ⟨i, len - i, ?_, .inr (by omega), fun b hb => ?_⟩
        · rw [if_pos hover, rangeLen_eq h₁ (by omega) (by omega),
            show ((len : Int) - 1 + 1 - i).toNat = len - i by omega]
        · rw [inclusive_eq b h₁, Int.toNat_natCast, List.take_of_length_le (by simp; omega),
            List.take_of_length_le (by simp; omega)]
      · refine ⟨i, (stop + 1 - i).toNat, ?_, .inr (by omega), fun b hb => ?_⟩
        · rw [if_neg hover, rangeLen_eq h₁ (by omega) (by omega)]
        · rw [inclusive_eq b h₁, Int.toNat_natCast]

/-- **`sdsrange`** leaves the bytes between the two bounds, of which a negative one counts from
the end but not beyond the first byte. -/
theorem sdsrange_spec (hs : s.Sound b) (hlen : b.length < 2 ^ 31) {start stop : Int}
    (h₁ : -(2 ^ 31) ≤ start) (h₂ : start < 2 ^ 31) (h₃ : -(2 ^ 31) ≤ stop) (h₄ : stop < 2 ^ 31) :
    ∃ s', s.sdsrange start stop = some s' ∧
      s'.Sound (inclusive b (fromEnd b.length start) (fromEnd b.length stop)) ∧
      s.SameBehind s' := by
  have hslen : s.sdslen = b.length := hs.len
  rw [sdsrange, hslen]
  by_cases hzero : b.length = 0
  · obtain rfl : b = [] := List.length_eq_zero_iff.mp hzero
    exact ⟨s, if_pos rfl, hs, rfl⟩
  · have hstart : 0 ≤ fromEnd b.length start ∧ fromEnd b.length start < 2 ^ 31 := by
      unfold fromEnd
      split <;> omega
    have hstop : 0 ≤ fromEnd b.length stop ∧ fromEnd b.length stop < 2 ^ 31 := by
      unfold fromEnd
      split <;> omega
    obtain ⟨i, n, hpart, hin, hbytes⟩ := rangePart_spec (Nat.pos_of_ne_zero hzero) hlen hstart.1
      hstart.2 hstop.1 hstop.2
    have hmove := moveDown_spec hs.has (i := i) (n := n) (q := (i : Int) ≠ 0 ∧ n ≠ 0)
      (fun hq => hin.resolve_left hq.2) (fun hq => by omega)
    obtain ⟨s', hrun, hs', hsame⟩ := cutDown_spec hs.has (i := i) (n := n) hin
    rw [hbytes b rfl] at hs'
    refine ⟨_, ?_, hs', hsame⟩
    rw [if_neg hzero, rangeBound_eq hlen h₁ h₂, rangeBound_eq hlen h₃ h₄, hpart]
    simp only [Int.toNat_natCast, hmove, hrun, Option.bind_eq_bind, Option.bind_some]

/-- `"abc"`, in a header of the smallest type. -/
def abc : Sdshdr := ⟨SdsType.SDS_TYPE_5, 3, 0, [97, 98, 99, 0]⟩

theorem abc_sound : abc.Sound [97, 98, 99] :=
  ⟨by decide, by decide, by decide, by decide, by decide, by decide⟩

/-- `"ello"` of `"Hello"`, with bounds of both signs. -/
theorem sdsrange_spec_hello : ∃ s',
    (⟨SdsType.SDS_TYPE_8, 5, 6, [72, 101, 108, 108, 111, 0, 33]⟩ : Sdshdr).sdsrange 1 (-1) =
      some s' ∧ s'.Sound (inclusive [72, 101, 108, 108, 111] (fromEnd 5 1) (fromEnd 5 (-1))) ∧
      Sdshdr.SameBehind ⟨SdsType.SDS_TYPE_8, 5, 6, [72, 101, 108, 108, 111, 0, 33]⟩ s' :=
  sdsrange_spec (b := [72, 101, 108, 108, 111])
    ⟨by decide, by decide, by decide, by decide, by decide, by decide⟩ (by decide) (by decide)
    (by decide) (by decide) (by decide)

/-- No byte of `"abc"` is at an index up to -7, but the first one is left. -/
theorem sdsrange_before_first : abc.Sound [97, 98, 99] ∧
    ¬ ∃ s', abc.sdsrange 0 (-10) = some s' ∧ s'.Sound (inclusive [97, 98, 99] 0 (3 + -10)) := by
  refine ⟨abc_sound, ?_⟩
  rintro ⟨s', hrun, hs'⟩
  have hres : abc.sdsrange 0 (-10) = some ⟨SdsType.SDS_TYPE_5, 1, 0, [97, 0, 99, 0]⟩ := by
    decide +kernel
  rw [hres] at hrun
  cases hrun
  exact absurd hs'.len (by decide +kernel)

/-! ## `sdstrim` -/

theorem Has.byte (hs : s.Has b spare) {j : Nat} {a : UInt8} (ha : b[j]? = some a) :
    s.byte j = some a := by
  obtain ⟨hj, -⟩ := List.getElem?_eq_some_iff.mp ha
  have hlen : s.sdslen = b.length := hs.len
  rw [Sdshdr.byte, if_pos (by omega), Int.toNat_natCast, hs.buf, List.getElem?_append_left hj, ha]

variable {cset : Bytes} {fuel m : Nat}

/-- The pointer from the front stops where the first character is that is not in the set. -/
theorem frontLoop_spec (cset : Bytes) (hs : s.Has b spare) (hm : m ≤ b.length)
    (hstop : ∀ a, b[m]? = some a → strchr cset a = false)
    (hskip : ∀ j a, j < m → b[j]? = some a → strchr cset a = true) {j : Nat} (hj : j ≤ m)
    (hfuel : m - j < fuel) : frontLoop s cset ((b.length : Int) - 1) fuel j = some (m : Int) := by
  induction fuel generalizing j with
  | zero => exact absurd hfuel (Nat.not_lt_zero _)
  | succ fuel ih =>
      rw [frontLoop]
      by_cases hend : j = b.length
      · obtain rfl : m = j := by omega
        rw [if_neg (by omega)]
      · obtain ⟨a, ha⟩ : ∃ a, b[j]? = some a :=
          ⟨b.get ⟨j, by omega⟩, List.getElem?_eq_getElem (by omega)⟩
        rw [if_pos (by omega), hs.byte ha]
        simp only [Option.bind_eq_bind, Option.bind_some]
        by_cases hjm : j = m
        · subst hjm
          rw [if_neg (by rw [hstop a ha]; decide)]
        · rw [if_pos (hskip j a (by omega) ha)]
          exact ih (j := j + 1) (by omega) (by omega)

/-- The pointer from the end stops where the last such character is. -/
theorem backLoop_spec (cset : Bytes) (hs : s.Has b spare) (sp : Nat) (hm : sp ≤ m)
    (hstop : ∀ a, b[m]? = some a → strchr cset a = false)
    (hskip : ∀ j a, m < j → b[j]? = some a → strchr cset a = true) {j : Nat} (hj : m ≤ j)
    (hlt : j < b.length) (hfuel : j - m < fuel) :
    backLoop s cset sp fuel j = some (m : Int) := by
  induction fuel generalizing j with
  | zero => exact absurd hfuel (Nat.not_lt_zero _)
  | succ fuel ih =>
      rw [backLoop]
      obtain ⟨a, ha⟩ : ∃ a, b[j]? = some a := ⟨b[j], List.getElem?_eq_getElem hlt⟩
      by_cases hjm : j = m
      · subst hjm
        by_cases hgt : (j : Int) > sp
        · rw [if_pos hgt, hs.byte ha]
          simp only [Option.bind_eq_bind, Option.bind_some]
          rw [if_neg (by rw [hstop a ha]; decide)]
        · rw [if_neg hgt]
      · rw [if_pos (by omega), hs.byte ha]
        simp only [Option.bind_eq_bind, Option.bind_some]
        rw [if_pos (hskip j a (by omega) ha), show (j : Int) - 1 = (j - 1 : Nat) by omega]
        exact ih (by omega) (by omega) (by omega)

/-- Where the pointers of `sdstrim` stop: at the ends of what is left. -/
theorem trim_pointers (hs : s.Has b spare) (cset : Bytes) :
    ∃ (i n : Nat) (ep : Int), i + n ≤ b.length ∧ (b.drop i).take n = trim (strchr cset) b ∧
      frontLoop s cset ((b.length : Int) - 1) (b.length + 1) 0 = some (i : Int) ∧
      backLoop s cset i (b.length + 1) ((b.length : Int) - 1) = some ep ∧
      (if (i : Int) > ep then 0 else (ep - i + 1).toNat) = n := by
  obtain ⟨pre, suf, hb, hpre, hsuf⟩ := trim_parts (strchr cset) b
  have hbare := trim_bare (strchr cset) b
  generalize trim (strchr cset) b = r at hb hbare ⊢
  by_cases hne : r = []
  · -- all characters are in the set: the first pointer goes beyond the other one
    subst hne
    rw [List.append_nil] at hb
    have hall : ∀ (j : Nat) (a : UInt8), b[j]? = some a → strchr cset a = true := by
      intro j a ha
      have hmem : a ∈ pre ++ suf := hb ▸ List.mem_of_getElem? ha
      exact (List.mem_append.mp hmem).elim (hpre a) (hsuf a)
    have hfront := frontLoop_spec cset hs (Nat.le_refl b.length)
      (by intro a ha; rw [List.getElem?_eq_none (Nat.le_refl _)] at ha; exact nomatch ha)
      (fun j a _ ha => hall j a ha) (j := 0) (Nat.zero_le _)
      (show b.length - 0 < b.length + 1 by omega)
    refine ⟨b.length, 0, (b.length : Int) - 1, by omega, List.take_zero, hfront, ?_, ?_⟩
    · rw [backLoop, if_neg (by omega)]
    · rw [if_pos (by omega)]
  · have hlen : b.length = pre.length + r.length + suf.length := by
      rw [hb, List.length_append, List.length_append]
    have hrpos : 0 < r.length := List.length_pos_iff.mpr hne
    have hget : ∀ j, b[j]? = if j < pre.length then pre[j]? else
        if j < pre.length + r.length then r[j - pre.length]?
        else suf[j - (pre.length + r.length)]? := by
      intro j
      rw [hb, List.getElem?_append, List.getElem?_append, List.length_append]
      split <;> split <;> first | rfl | omega
    have hfront := frontLoop_spec cset hs (m := pre.length) (by omega)
      (by
        intro a ha
        rw [hget, if_neg (by omega), if_pos (by omega), Nat.sub_self, ← List.head?_eq_getElem?] at ha
        exact hbare.head a ha)
      (by
        intro j a hj ha
        rw [hget, if_pos hj] at ha
        exact hpre a (List.mem_of_getElem? ha)) (j := 0) (Nat.zero_le _)
      (show pre.length - 0 < b.length + 1 by omega)
    have hback := backLoop_spec cset hs pre.length
      (m := pre.length + r.length - 1) (by omega)
      (by
        intro a ha
        rw [hget, if_neg (by omega), if_pos (by omega),
          show pre.length + r.length - 1 - pre.length = r.length - 1 by omega,
          ← List.getLast?_eq_getElem?] at ha
        exact hbare.last a ha)
      (by
        intro j a hj ha
        rw [hget, if_neg (by omega), if_neg (by omega)] at ha
        exact hsuf a (List.mem_of_getElem? ha)) (j := b.length - 1) (by omega) (by omega)
      (show b.length - 1 - (pre.length + r.length - 1) < b.length + 1 by omega)
    refine ⟨pre.length, r.length, ((pre.length + r.length - 1 : Nat) : Int), by omega, ?_, hfront,
      ?_, ?_⟩
    · rw [hb, List.append_assoc, List.drop_left, List.take_left]
    · rw [show (b.length : Int) - 1 = (b.length - 1 : Nat) by omega]
      exact hback
    · rw [if_neg (by omega)]
      omega

/-- What `sdstrim` does: it trims with what `strchr` finds. -/
theorem sdstrim_spec (hs : s.Sound b) (cset : Bytes) :
    ∃ s', s.sdstrim cset = some s' ∧ s'.Sound (trim (strchr cset) b) ∧ s.SameBehind s' := by
  obtain ⟨i, n, ep, hle, hpart, hfront, hback, hn⟩ := trim_pointers hs.has cset
  have hlen : s.sdslen = b.length := hs.len
  have hmove := moveDown_spec hs.has (i := i) (n := n) (q := (i : Int) ≠ 0) (fun _ => hle)
    (fun hq => .inr (by omega))
  obtain ⟨s', hrun, hs', hsame⟩ := cutDown_spec hs.has (i := i) (n := n) (.inr hle)
  rw [hpart] at hs'
  refine ⟨_, ?_, hs', hsame⟩
  rw [sdstrim, hlen]
  simp only [hfront, hback, hn, Int.toNat_natCast, hmove, hrun, Option.bind_eq_bind,
    Option.bind_some]

/-- The characters listed in a set. -/
def listed (cset : Bytes) (c : UInt8) : Bool := (cstring cset).contains c

theorem strchr_eq (cset : Bytes) (c : UInt8) : strchr cset c = (listed cset c || decide (c = 0)) := by
  rw [strchr, listed, List.contains_append]
  simp

/-- **`sdstrim`** takes away the longest prefix and the longest suffix of characters in the set,
and nothing else, just where what is between them is empty or has no NUL at its ends. -/
theorem sdstrim_iff (hs : s.Sound b) (cset : Bytes) :
    (∃ s', s.sdstrim cset = some s' ∧ s'.Sound (trim (listed cset) b) ∧ s.SameBehind s') ↔
      (trim (listed cset) b).head? ≠ some 0 ∧ (trim (listed cset) b).getLast? ≠ some 0 := by
  obtain ⟨s', hrun, hs', hsame⟩ := sdstrim_spec hs cset
  have himp : ∀ a, listed cset a = true → strchr cset a = true := by
    intro a ha
    rw [strchr_eq, ha]
    rfl
  have hlisted := trim_bare (listed cset) b
  have hiff : (∃ s', s.sdstrim cset = some s' ∧ s'.Sound (trim (listed cset) b) ∧
      s.SameBehind s') ↔ trim (strchr cset) b = trim (listed cset) b := by
    constructor
    · rintro ⟨s₂, hrun₂, hs₂, -⟩
      rw [← Option.some.inj (hrun.symm.trans hrun₂)] at hs₂
      rw [← hs'.content, hs₂.content]
    · intro heq
      exact ⟨s', hrun, heq ▸ hs', hsame⟩
  rw [hiff, trim_eq_trim_iff himp]
  constructor
  · rintro (hnil | hbare)
    · rw [hnil]
      exact ⟨nofun, nofun⟩
    · exact ⟨fun h => by simpa [strchr_eq] using hbare.head 0 h,
        fun h => by simpa [strchr_eq] using hbare.last 0 h⟩
  · rintro ⟨hhead, hlast⟩
    refine .inr ⟨fun a ha => ?_, fun a ha => ?_⟩
    · have hne : a ≠ 0 := fun hz => hhead (hz ▸ ha)
      rw [strchr_eq, hlisted.head a ha]
      simpa using hne
    · have hne : a ≠ 0 := fun hz => hlast (hz ▸ ha)
      rw [strchr_eq, hlisted.last a ha]
      simpa using hne

/-- `"A.Hi: "`, with the set `"Aa. :"`. -/
theorem sdstrim_iff_hello :
    (∃ s', (⟨SdsType.SDS_TYPE_8, 6, 7, [65, 46, 72, 105, 58, 32, 0, 9]⟩ : Sdshdr).sdstrim
        [65, 97, 46, 32, 58] = some s' ∧
      s'.Sound (trim (listed [65, 97, 46, 32, 58]) [65, 46, 72, 105, 58, 32]) ∧
      Sdshdr.SameBehind ⟨SdsType.SDS_TYPE_8, 6, 7, [65, 46, 72, 105, 58, 32, 0, 9]⟩ s') ↔
    (trim (listed [65, 97, 46, 32, 58]) [65, 46, 72, 105, 58, 32]).head? ≠ some 0 ∧
      (trim (listed [65, 97, 46, 32, 58]) [65, 46, 72, 105, 58, 32]).getLast? ≠ some 0 :=
  sdstrim_iff ⟨by decide, by decide, by decide, by decide, by decide, by decide⟩ _

/-- Of a string that is one NUL byte nothing is left, whatever the set is. -/
theorem sdstrim_nul :
    (⟨SdsType.SDS_TYPE_5, 1, 0, [0, 0]⟩ : Sdshdr).Sound [0] ∧
    ¬ ∃ s', (⟨SdsType.SDS_TYPE_5, 1, 0, [0, 0]⟩ : Sdshdr).sdstrim [] = some s' ∧
      s'.Sound (trim (listed []) [0]) ∧ Sdshdr.SameBehind ⟨SdsType.SDS_TYPE_5, 1, 0, [0, 0]⟩ s' := by
  refine ⟨⟨by decide, by decide, by decide, by decide, by decide, by decide⟩, ?_⟩
  rintro ⟨s', hrun, hs', -⟩
  have hres : (⟨SdsType.SDS_TYPE_5, 1, 0, [0, 0]⟩ : Sdshdr).sdstrim [] =
      some ⟨SdsType.SDS_TYPE_5, 0, 0, [0, 0]⟩ := by
    decide +kernel
  rw [hres] at hrun
  cases hrun
  exact absurd hs'.len (by decide +kernel)

end Sdshdr

end RedisCore
