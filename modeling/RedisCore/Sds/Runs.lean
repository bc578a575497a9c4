/-
# `RedisCore.Sds.Runs` — dynamic strings over whole runs

A run makes a string and calls the functions that change it, with lengths below 2^63.
`Sound s b` says what is to hold after each call: the string is `b`, there is a NUL behind it,
and the header has its length and a size that fits into the header and into the block.

Each call keeps this but for one: a decrement by the smallest `int`, on a string with the
largest header, is stopped by the `assert` of `sdsIncrLen` although the string is long enough
(`always_sound_iff`).
-/
import RedisCore.Sds.Contents

namespace RedisCore

namespace Sdshdr

open SdsType

/-- A call on a string.  Before `sdsIncrLen` the caller may write into the free space. -/
inductive Op where
  | catlen (t : Bytes)
  | cpylen (t : Bytes)
  | makeRoomFor (addlen : Nat)
  | incrLen (written : Bytes) (incr : Int)
  | removeFreeSpace
  | growzero (len : Nat)
  | clear
  | dup

/-- What is called, and what is in the memory it allocates. -/
abbrev Step := Op × (Nat → UInt8)

def step (s : Sdshdr) : Step → Option Sdshdr
  | (.catlen t, junk) => s.sdscatlen t junk
  | (.cpylen t, junk) => s.sdscpylen t junk
  | (.makeRoomFor addlen, junk) => s.sdsMakeRoomFor addlen junk
  | (.incrLen written incr, _) => do (← s.store s.sdslen written).sdsIncrLen incr
  | (.removeFreeSpace, junk) => s.sdsRemoveFreeSpace junk
  | (.growzero len, junk) => s.sdsgrowzero len junk
  | (.clear, _) => s.sdsclear
  | (.dup, junk) => s.sdsdup junk

/-- The call is allowed: no length reaches 2^63, and the length is changed within what there
is. -/
def Allowed (s : Sdshdr) : Op → Prop
  | .catlen t => s.sdslen + t.length < 2 ^ 63
  | .cpylen t => t.length < 2 ^ 63
  | .makeRoomFor addlen => s.sdslen + addlen < 2 ^ 63
  | .incrLen written incr =>
    -(2 ^ 31) ≤ incr ∧ incr < 2 ^ 31 ∧ incr ≠ 0 ∧ incr ≤ s.sdsavail ∧ -incr ≤ s.sdslen ∧
      written.length ≤ incr.toNat
  | .growzero len => len < 2 ^ 63
  | .removeFreeSpace | .clear | .dup => True

/-- What a call makes of a string and the bytes behind its NUL. -/
def expected (b spare : Bytes) : Op → Bytes
  | .catlen t => b ++ t
  | .cpylen t => t
  | .incrLen written incr =>
    if 0 < incr then b ++ (written ++ (0 :: spare).drop written.length).take incr.toNat
    else b.take (b.length - (-incr).toNat)
  | .growzero len => b ++ List.replicate (len - b.length) 0
  | .clear => []
  | .makeRoomFor _ | .removeFreeSpace | .dup => b

/-- The bytes behind the NUL, to the end of the block. -/
def spare (s : Sdshdr) : Bytes := s.buf.drop (s.sdslen + 1)

/-- The string is `b`, and its header is right. -/
structure Sound (s : Sdshdr) (b : Bytes) : Prop where
  content : s.buf.take s.sdslen = b
  len : s.sdslen = b.length
  terminated : s.buf[s.sdslen]? = some 0
  alloc : s.sdslen ≤ s.sdsalloc
  fits : s.sdsalloc < 2 ^ s.type.bits
  block : s.sdsalloc + 1 ≤ s.buf.length

/-- The string is what it should be after each call, and `sdsMakeRoomFor` gives the room that
it is asked for. -/
def AlwaysSound : Sdshdr → Bytes → List Step → Prop
  | s, b, [] => s.Sound b
  | s, b, c :: cs => s.Sound b ∧ ∃ s', s.step c = some s' ∧
      (∀ addlen, c.1 = .makeRoomFor addlen → addlen ≤ s'.sdsavail) ∧
      AlwaysSound s' (expected b s.spare c.1) cs

/-- All calls are allowed when they are made. -/
def AllAllowed : Sdshdr → List Step → Prop
  | _, [] => True
  | s, c :: cs => s.Allowed c.1 ∧ ∀ s', s.step c = some s' → AllAllowed s' cs

/-- The smallest `int` is subtracted from the length of a string with the largest header. -/
def Unnegatable (s : Sdshdr) : Op → Prop
  | .incrLen _ incr => s.type = SDS_TYPE_64 ∧ incr = -(2 ^ 31)
  | _ => False

/-- This does not happen in a run. -/
def NeverUnnegatable : Sdshdr → List Step → Prop
  | _, [] => True
  | s, c :: cs => ¬ s.Unnegatable c.1 ∧ ∀ s', s.step c = some s' → NeverUnnegatable s' cs

variable {s : Sdshdr} {b spare : Bytes} {junk : Nat → UInt8}

theorem Holds.sound (hs : s.Holds b spare) : s.Sound b := by
  have hlen : s.sdslen = b.length := hs.len
  refine ⟨hs.take, hlen, ?_, by rw [hlen]; exact hs.alloc, hs.fits, hs.length_buf⟩
  rw [hlen, hs.buf, List.getElem?_append_right (Nat.le_refl _), Nat.sub_self]
  rfl

theorem Holds.spare_eq (hs : s.Holds b spare) : s.spare = spare := by
  have hlen : s.sdslen = b.length := hs.len
  rw [Sdshdr.spare, hlen, hs.buf, List.drop_append, List.drop_of_length_le (Nat.le_succ _),
    Nat.add_sub_cancel_left]
  rfl

/-- An increment into the free space, some of which the caller has filled. -/
theorem incrLen_pos (hs : s.Holds b spare) {written : Bytes} {incr : Nat} (hpos : 0 < incr)
    (hmax : incr < 2 ^ 31) (havail : incr ≤ s.sdsavail) (hwritten : written.length ≤ incr) :
    ∃ s' spare', s.step (.incrLen written incr, junk) = some s' ∧
      s'.Holds (b ++ (written ++ (0 :: spare).drop written.length).take incr) spare' := by
  have hlen : s.len = b.length := hs.len
  have hle := avail_le s (by rw [hlen]; exact hs.alloc)
  have hroom := hs.room
  have hstore := store_append (s := s) (t := written) hs.buf hs.len
    (by rw [List.length_cons]; omega)
  generalize hs₁ : ({ s with buf := b ++ written ++ (0 :: spare).drop written.length } : Sdshdr) = s₁
    at hstore
  have hbuf : s₁.buf = b ++ (written ++ (0 :: spare).drop written.length) := by
    rw [← hs₁, ← List.append_assoc]
  have hblock : s₁.buf.length = s.buf.length := by
    rw [hbuf, hs.buf]
    simp only [List.length_append, List.length_drop, List.length_cons]
    omega
  have hallowed : s₁.incrAllowed (incr : Int) = true := by
    refine incrAllowed_of_pos hpos hmax ?_
    rw [← hs₁]
    exact havail
  have hlen₁ : s₁.len = b.length := by rw [← hs₁]; exact hlen
  have halloc₁ : s₁.sdsalloc = s.sdsalloc := by rw [← hs₁]; rfl
  obtain ⟨s', spare', hrun, hs'⟩ := sdsIncrLen_spec hallowed (n := b.length + incr)
    (by rw [hlen₁]; omega) (by rw [halloc₁]; omega)
    (by rw [halloc₁, hblock]; exact hs.length_buf) (by rw [halloc₁, ← hs₁]; exact hs.fits)
    (by rw [halloc₁]; exact hs.bound)
  refine ⟨s', spare', ?_, ?_⟩
  · rw [step]
    simp only [hstore, Option.bind_eq_bind, Option.bind_some]
    exact hrun
  · rw [hbuf, List.take_append, List.take_of_length_le (by omega), Nat.add_sub_cancel_left] at hs'
    exact hs'

/-- A decrement within the length: it is made but for the one that is not allowed. -/
theorem incrLen_neg (hs : s.Holds b spare) {decr : Nat} (hpos : 0 < decr) (hmax : decr ≤ 2 ^ 31)
    (hle : decr ≤ b.length) :
    (s.type = SDS_TYPE_64 ∧ decr = 2 ^ 31 ∧ s.step (.incrLen [] (-(decr : Int)), junk) = none) ∨
      ¬ (s.type = SDS_TYPE_64 ∧ decr = 2 ^ 31) ∧
        ∃ s' spare', s.step (.incrLen [] (-(decr : Int)), junk) = some s' ∧
          s'.Holds (b.take (b.length - decr)) spare' := by
  have hlen : s.len = b.length := hs.len
  have hbound : s.len < tooLong := by
    rw [hlen]
    exact Nat.lt_of_le_of_lt hs.alloc hs.bound
  have hiff := incrAllowed_of_neg (s := s) hpos hmax (by omega) hbound
  have hstore : s.store s.sdslen [] = some s := by
    have hnil := store_append (s := s) (t := []) hs.buf hs.len (Nat.zero_le _)
    rw [hnil, List.length_nil, List.drop_zero, List.append_nil, ← hs.buf]
  have hstep : s.step (.incrLen [] (-(decr : Int)), junk) = s.sdsIncrLen (-(decr : Int)) := by
    rw [step, hstore]
    rfl
  rw [hstep]
  by_cases hmin : s.type = SDS_TYPE_64 ∧ decr = 2 ^ 31
  · left
    refine ⟨hmin.1, hmin.2, ?_⟩
    rw [sdsIncrLen, if_neg (fun h => hiff.mp h hmin)]
  · right
    have halloc := hs.alloc
    obtain ⟨s', spare', hrun, hs'⟩ := sdsIncrLen_spec (hiff.mpr hmin) (n := b.length - decr)
      (by rw [hlen]; omega) (by omega) hs.length_buf hs.fits hs.bound
    refine ⟨hmin, s', spare', hrun, ?_⟩
    rw [hs.buf, List.take_append_of_le_length (Nat.sub_le _ _)] at hs'
    exact hs'

/-- An allowed call is made as it should be, or is the one that is not. -/
theorem step_holds (hs : s.Holds b spare) {op : Op} (ha : s.Allowed op) (junk : Nat → UInt8) :
    (s.Unnegatable op ∧ s.step (op, junk) = none) ∨
      ¬ s.Unnegatable op ∧ ∃ s' spare', s.step (op, junk) = some s' ∧
        s'.Holds (expected b spare op) spare' ∧
        ∀ addlen, op = .makeRoomFor addlen → addlen ≤ s'.sdsavail := by
  have hlen : s.sdslen = b.length := hs.len
  cases op with
  | catlen t =>
      have ht : s.sdslen + t.length < 2 ^ 63 := ha
      rw [hlen] at ht
      obtain ⟨s', spare', hrun, hs'⟩ := sdscatlen_holds hs ht junk
      exact .inr ⟨id, s', spare', hrun, hs', fun _ h => nomatch h⟩
  | cpylen t =>
      obtain ⟨s', spare', hrun, hs'⟩ := sdscpylen_holds hs ha junk
      exact .inr ⟨id, s', spare', hrun, hs', fun _ h => nomatch h⟩
  | makeRoomFor addlen =>
      have hn : s.sdslen + addlen < 2 ^ 63 := ha
      rw [hlen] at hn
      obtain ⟨s', spare', hrun, hs', havail, -⟩ := sdsMakeRoomFor_keeps hs hn junk
      exact .inr ⟨id, s', spare', hrun, hs', fun n h => by cases h; exact havail⟩
  | incrLen written incr =>
      obtain ⟨hmin, hmax, hne, havail, hdecr, hwritten⟩ := ha
      by_cases hpos : 0 < incr
      · obtain ⟨k, rfl⟩ : ∃ k : Nat, incr = k := ⟨incr.toNat, by omega⟩
        obtain ⟨s', spare', hrun, hs'⟩ := @incrLen_pos s b spare junk hs written k (by omega) (by omega)
          (by omega) (by omega)
        refine .inr ⟨fun h => by have := h.2; omega, s', spare', hrun, ?_, fun _ h => nomatch h⟩
        rw [expected, if_pos hpos, Int.toNat_natCast]
        exact hs'
      · obtain ⟨k, rfl⟩ : ∃ k : Nat, incr = -(k : Int) := ⟨(-incr).toNat, by omega⟩
        obtain rfl : written = [] := List.length_eq_zero_iff.mp (by omega)
        rcases @incrLen_neg s b spare junk hs k (by omega) (by omega) (by omega) with
          ⟨ht, rfl, hnone⟩ | ⟨hno, s', spare', hrun, hs'⟩
        · exact .inl ⟨⟨ht, rfl⟩, hnone⟩
        · refine .inr ⟨?_, s', spare', hrun, ?_, fun _ h => nomatch h⟩
          · rintro ⟨ht, hk⟩
            exact hno ⟨ht, by omega⟩
          · rw [expected, if_neg hpos, Int.neg_neg, Int.toNat_natCast]
            exact hs'
  | removeFreeSpace =>
      obtain ⟨s', spare', hrun, hs'⟩ := sdsRemoveFreeSpace_holds hs junk
      exact .inr ⟨id, s', spare', hrun, hs', fun _ h => nomatch h⟩
  | growzero len =>
      obtain ⟨s', spare', hrun, hs'⟩ := sdsgrowzero_holds hs ha junk
      exact .inr ⟨id, s', spare', hrun, hs', fun _ h => nomatch h⟩
  | clear =>
      obtain ⟨s', spare', hrun, hs'⟩ := sdsclear_holds hs
      exact .inr ⟨id, s', spare', hrun, hs', fun _ h => nomatch h⟩
  | dup =>
      obtain ⟨s', hrun, hs'⟩ := sdsdup_holds hs junk
      exact .inr ⟨id, s', [], hrun, hs', fun _ h => nomatch h⟩

theorem alwaysSound_iff (hs : s.Holds b spare) {cs : List Step} (ha : AllAllowed s cs) :
    AlwaysSound s b cs ↔ NeverUnnegatable s cs := by
  induction cs generalizing s b spare with
  | nil => exact iff_of_true hs.sound trivial
  | cons c cs ih =>
      obtain ⟨op, junk⟩ := c
      rcases step_holds hs ha.1 junk with ⟨hbad, hnone⟩ | ⟨hgood, s', spare', hrun, hs', havail⟩
      · refine iff_of_false ?_ (fun h => h.1 hbad)
        rintro ⟨-, s', hrun, -⟩
        rw [hnone] at hrun
        exact nomatch hrun
      · have hrest := ih hs' (ha.2 s' hrun)
        rw [← hs.spare_eq] at hrest
        constructor
        · rintro ⟨-, s₂, hrun₂, -, htail⟩
          have heq : s' = s₂ := Option.some.inj (hrun.symm.trans hrun₂)
          subst heq
          refine ⟨hgood, fun s₂ hrun₂ => ?_⟩
          rw [← Option.some.inj (hrun.symm.trans hrun₂)]
          exact hrest.mp htail
        · rintro ⟨-, hall⟩
          exact ⟨hs.sound, s', hrun, havail, hrest.mpr (hall s' hrun)⟩

/-- A string that is made from `initlen` bytes, or from zeros, is sound after every allowed call
of a run, in just those runs that do not subtract the smallest `int` from the length of a string
with the largest header. -/
theorem always_sound_iff {init : Option Bytes} {initlen : Nat} (hlen : initlen < 2 ^ 63)
    (hinit : ∀ bytes, init = some bytes → initlen ≤ bytes.length) (junk : Nat → UInt8) :
    ∃ s, sdsnewlen init initlen junk = some s ∧ ∀ cs, AllAllowed s cs →
      (AlwaysSound s (newContent init initlen) cs ↔ NeverUnnegatable s cs) := by
  have htoo : tooLong = 2 ^ 63 + 2 ^ 20 := rfl
  obtain ⟨s, hrun, hs⟩ := sdsnewlen_spec init (by omega) hinit junk
  exact ⟨s, hrun, fun cs ha => alwaysSound_iff hs ha⟩

/-- A string of four gigabytes, with the largest header: it cannot be shortened by the smallest
`int`. -/
theorem not_always_sound : ∃ s, sdsnewlen none (2 ^ 32) (fun _ => 0) = some s ∧
    AllAllowed s [(.incrLen [] (-(2 ^ 31)), fun _ => 0)] ∧
    ¬ AlwaysSound s (newContent none (2 ^ 32)) [(.incrLen [] (-(2 ^ 31)), fun _ => 0)] := by
  obtain ⟨s, hrun, hs⟩ := sdsnewlen_spec none (n := 2 ^ 32) (by decide)
    (fun bytes h => nomatch h) (fun _ => 0)
  have hlen : s.sdslen = 2 ^ 32 := hs.len.trans List.length_replicate
  have htype : s.type = SDS_TYPE_64 := sdsnewlen_type (by decide) hrun
  have hallowed : s.Allowed (.incrLen [] (-(2 ^ 31))) := by
    refine ⟨by decide, by decide, by decide, by omega, by omega, by decide⟩
  have hall : AllAllowed s [(.incrLen [] (-(2 ^ 31)), fun _ => 0)] :=
    ⟨hallowed, fun _ _ => trivial⟩
  exact ⟨s, hrun, hall, fun h => ((alwaysSound_iff hs hall).mp h).1 ⟨htype, rfl⟩⟩

/-- A string that gets a larger header, is filled, cut and copied. -/
theorem always_sound_iff_abc : ∃ s, sdsnewlen (some [97, 98, 99]) 3 (fun _ => 7) = some s ∧
    (AlwaysSound s [97, 98, 99]
        [(.makeRoomFor 4, fun _ => 7), (.incrLen [100] 2, fun _ => 7), (.dup, fun _ => 7)] ↔
      NeverUnnegatable s
        [(.makeRoomFor 4, fun _ => 7), (.incrLen [100] 2, fun _ => 7), (.dup, fun _ => 7)]) := by
  obtain ⟨s, hrun, hiff⟩ := @always_sound_iff (some [97, 98, 99]) 3 (by decide)
    (by rintro bytes ⟨⟩; decide) (fun _ => 7)
  refine ⟨s, hrun, hiff _ ?_⟩
  have hnew : sdsnewlen (some [97, 98, 99]) 3 (fun _ => 7) =
      some ⟨SDS_TYPE_5, 3, 0, [97, 98, 99, 0]⟩ := by decide +kernel
  have hroom : step ⟨SDS_TYPE_5, 3, 0, [97, 98, 99, 0]⟩ (.makeRoomFor 4, fun _ => 7) =
      some ⟨SDS_TYPE_8, 3, 14, [97, 98, 99, 0, 7, 7, 7, 7, 7, 7, 7, 7, 7, 7, 7]⟩ := by
    decide +kernel
  rw [hnew] at hrun
  cases hrun
  refine ⟨show (7 : Nat) < 2 ^ 63 by decide, fun s₁ hs₁ => ?_⟩
  rw [hroom] at hs₁
  cases hs₁
  exact ⟨by refine ⟨?_, ?_, ?_, ?_, ?_, ?_⟩ <;> decide, fun _ _ => ⟨trivial, fun _ _ => trivial⟩⟩

end Sdshdr

end RedisCore
