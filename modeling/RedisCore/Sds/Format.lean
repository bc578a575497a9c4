/-
# `RedisCore.Sds.Format` — formatting into a block of memory (`sdscatfmt`)

The loop of `sdscatfmt` walks through the format with one pointer and through the string with
another, and makes room as it goes: for one byte before it looks at a character, and for the
text of a directive once it knows how long that is.  The header has the length of what is
written after each step, but there is no NUL behind it before the end (`Sdshdr.Lies`).

The directive after a `%` is read without a look at whether the format goes on.  Where it ends
there, its NUL is taken for a directive and the loop reads on behind it; everywhere else the
text of the format is appended (`sdscatfmt_iff`).
-/
import RedisCore.Sds
import RedisCore.Sds.Cut

namespace RedisCore

open Decimal

namespace Sdshdr

/-! ## The code -/

/-- `*f`: there are the format and its NUL, and nothing to read behind it. -/
def fmtByte (fmt : Bytes) (f : Nat) : Option UInt8 := (fmt ++ [0])[f]?

def SDS_LLSTR_SIZE : Nat := 21

/-- A directive that takes an argument. -/
def takesArg (next : UInt8) : Bool := [115, 83, 105, 73, 117, 85].contains next

/-- A directive whose text is written into `buf` first, and a NUL behind it. -/
def usesBuf (next : UInt8) : Bool := [105, 73, 117, 85].contains next

/-- The text of a directive, and the arguments left. -/
def fmtText (next : UInt8) (args : List FmtArg) : Option (Bytes × List FmtArg) := do
  let (str, args) ← sdsConversion next args
  if usesBuf next = true ∧ SDS_LLSTR_SIZE < str.length + 1 then none else some (str, args)

/-- `memcpy(s+i,str,l); sdsinclen(s,l); i += l;` -/
def put (s : Sdshdr) (i : Int) (str : Bytes) : Option (Sdshdr × Int) := do
  let s ← (if 0 ≤ i then s.store i.toNat str else none : Option Sdshdr)
  some (s.sdsinclen str.length, CInt.toInt (i + str.length))

/-- The `while` loop, at most so often; `junk` is what is in memory that is allocated at a
character of the format. -/
def fmtLoop (fmt : Bytes) (junk : Nat → Nat → UInt8) :
    Nat → Sdshdr → Int → Nat → List FmtArg → Option (Sdshdr × Int)
  | 0, _, _, _, _ => none
  | fuel + 1, s, i, f, args => do
    let c ← fmtByte fmt f
    if c = 0 then some (s, i)
    else do
      -- there is always space for one character
      let s ← (if s.sdsavail = 0 then s.sdsMakeRoomFor 1 (junk (2 * f)) else some s :
        Option Sdshdr)
      if c = 37 then do
        let next ← fmtByte fmt (f + 1)
        let (str, args) ← fmtText next args
        let s ← (if takesArg next = true ∧ s.sdsavail < str.length then
          s.sdsMakeRoomFor str.length (junk (2 * f + 1)) else some s : Option Sdshdr)
        let (s, i) ← s.put i str
        fmtLoop fmt junk fuel s i (f + 2) args
      else do
        let (s, i) ← s.put i [c]
        fmtLoop fmt junk fuel s i (f + 1) args

def sdscatfmt (s : Sdshdr) (fmt : Bytes) (args : List FmtArg) (junk : Nat → Nat → UInt8) :
    Option Sdshdr := do
  let (s, i) ← fmtLoop fmt junk (fmt.length + 1) s (CInt.toInt s.sdslen) 0 args
  if 0 ≤ i then s.store i.toNat [0] else none

/-! ## The format language -/

/-- The numeral of an argument from `lo` to below `hi`. -/
def numeral (lo hi : Int) : List FmtArg → Option (Bytes × List FmtArg)
  | .num n :: args => if lo ≤ n ∧ n < hi then some (decInt n, args) else none
  | _ => none

/-- What a directive stands for, if there is an argument for it, and the arguments left. -/
def directive (next : UInt8) (args : List FmtArg) : Option (Bytes × List FmtArg) :=
  if next = 115 then
    match args with
    | .str t :: args => some (cstring t, args)
    | _ => none
  else if next = 83 then
    match args with
    | .str t :: args => some (t, args)
    | _ => none
  else if next = 105 then numeral (-(2 ^ 31)) (2 ^ 31) args
  else if next = 73 then numeral (-(2 ^ 63)) (2 ^ 63) args
  else if next = 117 then numeral 0 (2 ^ 32) args
  else if next = 85 then numeral 0 (2 ^ 64) args
  else some ([next], args)

/-- The text of a format, if the arguments match it.  A lone `%` at the end has none. -/
def formatted : Bytes → List FmtArg → Option Bytes
  | [], _ => some []
  | [c], _ => if c = 37 then some [] else some [c]
  | c :: next :: f, args =>
      if c = 37 then
        match directive next args with
        | none => none
        | some (str, args) => (formatted f args).map (str ++ ·)
      else (formatted (next :: f) args).map (c :: ·)

/-- The format ends in an odd number of `%`: the last one has no directive behind it, and does
not stand for itself behind another one. -/
def EndsInLonePercent (fmt : Bytes) : Prop :=
  (fmt.reverse.takeWhile (· == 37)).length % 2 = 1

instance (fmt : Bytes) : Decidable (EndsInLonePercent fmt) := by
  unfold EndsInLonePercent
  infer_instance

variable {s : Sdshdr} {b fmt pre f str out spare : Bytes} {x c next : UInt8}
  {args args' : List FmtArg} {junk : Nat → Nat → UInt8} {fuel i : Nat}

theorem lonePercent_singleton : EndsInLonePercent [c] ↔ c = 37 := by
  by_cases hc : c = 37
  · exact iff_of_true (by rw [hc]; decide) hc
  · refine iff_of_false ?_ hc
    simp [EndsInLonePercent, hc]

/-- The directive behind a `%` belongs to it. -/
theorem lonePercent_directive :
    EndsInLonePercent (37 :: next :: f) ↔ EndsInLonePercent f := by
  have htwo : ([next, 37].takeWhile (· == 37)).length % 2 = 0 := by
    by_cases hnext : next = 37
    · rw [hnext]
      decide
    · simp [hnext]
  rw [EndsInLonePercent, EndsInLonePercent, List.reverse_cons, List.reverse_cons,
    List.append_assoc, List.takeWhile_append]
  split
  · next h =>
      rw [h, List.length_append]
      show (f.reverse.length + ([next, 37].takeWhile (· == 37)).length) % 2 = 1 ↔ _
      omega
  · exact Iff.rfl

/-- Another character in front of a format makes no difference. -/
theorem lonePercent_cons (hc : c ≠ 37) : EndsInLonePercent (c :: f) ↔ EndsInLonePercent f := by
  rw [EndsInLonePercent, EndsInLonePercent, List.reverse_cons, List.takeWhile_append]
  split
  · next h => rw [h, List.takeWhile_cons_of_neg (by simp [hc]), List.append_nil]
  · exact Iff.rfl

/-! ## Directives -/

/-- A numeral and its NUL fit into the buffer. -/
theorem length_decInt_lt {n : Int} (h₁ : -(2 ^ 63) ≤ n) (h₂ : n < 2 ^ 64) :
    (decInt n).length + 1 ≤ SDS_LLSTR_SIZE := by
  rw [decInt]
  split
  · have hlen := length_decNat_le (k := 18) (n := n.natAbs) (by omega)
    rw [List.length_cons, SDS_LLSTR_SIZE]
    omega
  · have hlen := length_decNat_le (k := 19) (n := n.natAbs) (by omega)
    rw [SDS_LLSTR_SIZE]
    omega

theorem numeral_eq {lo hi : Int} (h : numeral lo hi args = some (str, args')) :
    ∃ n, args = .num n :: args' ∧ lo ≤ n ∧ n < hi ∧ str = decInt n := by
  unfold numeral at h
  split at h
  · next n rest =>
      split at h
      · next hn =>
          cases h
          exact ⟨n, rfl, hn.1, hn.2, rfl⟩
      · exact nomatch h
  · exact nomatch h

theorem sdsull2str_nonneg {n : Int} (h₁ : 0 ≤ n) (h₂ : n < 2 ^ 64) :
    sdsull2str n.toNat = decInt n := by
  rw [sdsull2str_eq (by omega), decInt, if_neg (by omega)]
  congr 1
  omega

/-- The conversions write what the directives stand for. -/
theorem sdsConversion_eq (h : directive next args = some (str, args')) :
    sdsConversion next args = some (str, args') ∧
      (usesBuf next = true → str.length + 1 ≤ SDS_LLSTR_SIZE) := by
  unfold directive at h
  split at h
  · next hnext =>
      subst hnext
      refine ⟨?_, fun hbuf => absurd hbuf (by decide)⟩
      split at h
      · cases h
        rfl
      · exact nomatch h
  split at h
  · next hnext =>
      subst hnext
      refine ⟨?_, fun hbuf => absurd hbuf (by decide)⟩
      split at h
      · cases h
        rfl
      · exact nomatch h
  split at h
  · next hnext =>
      obtain ⟨n, rfl, h₁, h₂, rfl⟩ := numeral_eq h
      subst hnext
      refine ⟨?_, fun _ => length_decInt_lt (by omega) (by omega)⟩
      show some (sdsll2str (CInt.toInt n), args') = _
      rw [CInt.toInt_eq h₁ h₂, sdsll2str_eq (by unfold CInt.LONG_MIN; omega)
        (by unfold CInt.LONG_MAX; omega)]
  split at h
  · next hnext =>
      obtain ⟨n, rfl, h₁, h₂, rfl⟩ := numeral_eq h
      subst hnext
      refine ⟨?_, fun _ => length_decInt_lt (by omega) (by omega)⟩
      show some (sdsll2str (CInt.toLong n), args') = _
      rw [CInt.toLong_eq h₁ h₂, sdsll2str_eq (by unfold CInt.LONG_MIN; omega)
        (by unfold CInt.LONG_MAX; omega)]
  split at h
  · next hnext =>
      obtain ⟨n, rfl, h₁, h₂, rfl⟩ := numeral_eq h
      subst hnext
      refine ⟨?_, fun _ => length_decInt_lt (by omega) (by omega)⟩
      show some (sdsull2str (CInt.toUInt n), args') = _
      rw [CInt.toUInt, Int.emod_eq_of_lt h₁ h₂, sdsull2str_nonneg h₁ (by omega)]
  split at h
  · next hnext =>
      obtain ⟨n, rfl, h₁, h₂, rfl⟩ := numeral_eq h
      subst hnext
      refine ⟨?_, fun _ => length_decInt_lt (by omega) (by omega)⟩
      show some (sdsull2str (CInt.toULong n), args') = _
      rw [CInt.toULong, Int.emod_eq_of_lt h₁ h₂, sdsull2str_nonneg h₁ h₂]
  · next h115 h83 h105 h73 h117 h85 =>
      cases h
      refine ⟨?_, fun hbuf => absurd hbuf (by simp [usesBuf, h105, h73, h117, h85])⟩
      unfold sdsConversion
      rw [if_neg (by simp [h115, h83]), if_neg (by simp [h105, h73]),
        if_neg (by simp [h117, h85])]

theorem fmtText_eq (h : directive next args = some (str, args')) :
    fmtText next args = some (str, args') := by
  obtain ⟨hconv, hbuf⟩ := sdsConversion_eq h
  rw [fmtText, hconv]
  refine if_neg ?_
  rintro ⟨huses, hlong⟩
  exact absurd (hbuf huses) (by omega)

/-- A directive without an argument is one character. -/
theorem directive_plain (h : directive next args = some (str, args'))
    (hplain : takesArg next = false) : str.length = 1 := by
  unfold directive at h
  simp only [takesArg, List.contains_cons, Bool.or_eq_false_iff, beq_eq_false_iff_ne] at hplain
  obtain ⟨h115, h83, h105, h73, h117, h85, -⟩ := hplain
  rw [if_neg h115, if_neg h83, if_neg h105, if_neg h73, if_neg h117, if_neg h85] at h
  cases h
  rfl

/-! ## Appending -/

/-- There is room for more, after the string has been given some where it had none. -/
theorem makeRoom_lies (hs : s.Lies b x spare) {q : Prop} [Decidable q] {n : Nat}
    (hq : ¬ q → n ≤ s.sdsavail) (hn : b.length + n < 2 ^ 63) (junk : Nat → UInt8) :
    ∃ s' spare', (if q then s.sdsMakeRoomFor n junk else some s) = some s' ∧
      s'.Lies b x spare' ∧ n ≤ s'.sdsavail := by
  by_cases havail : n ≤ s.sdsavail
  · refine ⟨s, spare, ?_, hs, havail⟩
    split
    · rw [sdsMakeRoomFor, if_pos havail]
    · rfl
  · have hlen : s.len = b.length := hs.len
    have hbound : s.sdsalloc < tooLong := by
      have htoo : tooLong = 2 ^ 63 + 2 ^ 20 := rfl
      have halloc : s.sdsalloc ≤ s.len + s.sdsavail := by
        unfold sdsalloc sdsavail
        cases s.type <;> simp <;> omega
      omega
    obtain ⟨s', spare', hrun, hs', hroom, -⟩ := sdsMakeRoomFor_keeps ⟨hs, hbound⟩ hn junk
    refine ⟨s', spare', ?_, hs'.toLies, hroom⟩
    rw [if_pos (Classical.not_not.mp (fun h => havail (hq h))), hrun]

/-- The bytes are written behind the string, and are counted. -/
theorem put_lies (hs : s.Lies b x spare) (str : Bytes) (hroom : str.length ≤ s.sdsavail)
    (hlen : b.length + str.length < 2 ^ 31) :
    ∃ s' x' spare', s.put b.length str = some (s', ((b ++ str).length : Int)) ∧
      s'.Lies (b ++ str) x' spare' := by
  have hslen : s.len = b.length := hs.len
  have havail := avail_le s (by rw [hslen]; exact hs.alloc)
  have hblock := hs.room
  have hstore := store_append (s := s) (t := str) hs.buf rfl
    (by rw [List.length_cons]; omega)
  obtain ⟨x', rest, hrest⟩ : ∃ x' rest, (x :: spare).drop str.length = x' :: rest := by
    cases h : (x :: spare).drop str.length with
    | nil => exact absurd (List.drop_eq_nil_iff.mp h) (by rw [List.length_cons]; omega)
    | cons x' rest => exact ⟨x', rest, rfl⟩
  have hrestlen : rest.length + str.length = spare.length := by
    have hdrop := congrArg List.length hrest
    rw [List.length_drop, List.length_cons, List.length_cons] at hdrop
    omega
  rw [hrest] at hstore
  have hfits : b.length + str.length < 2 ^ s.type.bits :=
    Nat.lt_of_le_of_lt (by omega) hs.fits
  have hsum : (s.len + str.length) % 2 ^ s.type.bits = b.length + str.length := by
    rw [hslen, Nat.mod_eq_of_lt hfits]
  have halloc : (Sdshdr.sdsinclen { s with buf := b ++ str ++ x' :: rest } str.length).sdsalloc =
      s.sdsalloc := by
    unfold sdsinclen sdsalloc
    unfold sdsavail at hroom
    cases ht : s.type with
    | SDS_TYPE_5 =>
        rw [ht] at hroom hsum
        show (s.len + str.length) % 2 ^ SdsType.SDS_TYPE_5.bits = s.len
        rw [hsum]
        have hzero : str.length = 0 := Nat.le_zero.mp hroom
        omega
    | SDS_TYPE_8 | SDS_TYPE_16 | SDS_TYPE_32 | SDS_TYPE_64 => rfl
  refine ⟨Sdshdr.sdsinclen { s with buf := b ++ str ++ x' :: rest } str.length, x', rest, ?_,
    ⟨rfl, ?_, ?_, ?_, ?_⟩⟩
  · rw [put, if_pos (Int.natCast_nonneg _), Int.toNat_natCast, hstore]
    simp only [Option.bind_eq_bind, Option.bind_some, List.length_append]
    rw [CInt.toInt_eq (by omega) (by omega)]
    rfl
  · rw [List.length_append]
    exact hsum
  · rw [halloc, List.length_append]
    omega
  · rw [halloc, List.length_append]
    omega
  · rw [halloc]
    exact hs.fits

/-- A byte of the format behind what has been read. -/
theorem fmtByte_append (pre f : Bytes) (i : Nat) :
    fmtByte (pre ++ f) (pre.length + i) = (f ++ [0])[i]? := by
  rw [fmtByte, List.append_assoc, List.getElem?_append_right (Nat.le_add_right _ _),
    Nat.add_sub_cancel_left]

/-- At the end of the format the loop stops. -/
theorem fmtLoop_end (junk : Nat → Nat → UInt8) (s : Sdshdr) (j : Int) (pre : Bytes)
    (args : List FmtArg) (fuel : Nat) :
    fmtLoop pre junk (fuel + 1) s j pre.length args = some (s, j) := by
  have hbyte : fmtByte pre pre.length = some 0 := by
    rw [fmtByte, List.getElem?_append_right (Nat.le_refl _), Nat.sub_self]
    rfl
  rw [fmtLoop, hbyte]
  rfl

/-- A character that is not `%` is appended. -/
theorem fmtLoop_char (hs : s.Lies b x spare) (hnul : c ≠ 0) (hc : c ≠ 37)
    (hlen : b.length + 1 < 2 ^ 31) (pre f : Bytes) (args : List FmtArg)
    (junk : Nat → Nat → UInt8) :
    ∃ s' x' spare', s'.Lies (b ++ [c]) x' spare' ∧ ∀ fuel,
      fmtLoop (pre ++ c :: f) junk (fuel + 1) s b.length pre.length args =
        fmtLoop (pre ++ c :: f) junk fuel s' ((b ++ [c]).length : Int) (pre.length + 1) args := by
  obtain ⟨s₁, spare₁, hone, hs₁, havail⟩ := makeRoom_lies hs (n := 1) (q := s.sdsavail = 0)
    (by omega) (by omega) (junk (2 * pre.length))
  obtain ⟨s₂, x₂, spare₂, hput, hs₂⟩ := put_lies hs₁ [c] havail hlen
  refine ⟨s₂, x₂, spare₂, hs₂, fun fuel => ?_⟩
  have hbyte : fmtByte (pre ++ c :: f) pre.length = some c := fmtByte_append pre (c :: f) 0
  rw [fmtLoop, hbyte]
  simp only [Option.bind_eq_bind, Option.bind_some, if_neg hnul, hone, if_neg hc, hput]

/-- The text of a directive is appended. -/
theorem fmtLoop_directive (hs : s.Lies b x spare) (htext : directive next args = some (str, args'))
    (hlen : b.length + str.length < 2 ^ 31) (pre f : Bytes) (junk : Nat → Nat → UInt8) :
    ∃ s' x' spare', s'.Lies (b ++ str) x' spare' ∧ ∀ fuel,
      fmtLoop (pre ++ 37 :: next :: f) junk (fuel + 1) s b.length pre.length args =
        fmtLoop (pre ++ 37 :: next :: f) junk fuel s' ((b ++ str).length : Int) (pre.length + 2)
          args' := by
  obtain ⟨s₁, spare₁, hone, hs₁, havail⟩ := makeRoom_lies hs (n := 1) (q := s.sdsavail = 0)
    (by omega) (by omega) (junk (2 * pre.length))
  obtain ⟨s₂, spare₂, hroom, hs₂, havail₂⟩ := makeRoom_lies hs₁ (n := str.length)
    (q := takesArg next = true ∧ s₁.sdsavail < str.length) (by
      intro hq
      by_cases htakes : takesArg next = true
      · exact Nat.le_of_not_lt (fun hlt => hq ⟨htakes, hlt⟩)
      · rw [directive_plain htext (Bool.eq_false_iff.mpr htakes)]
        exact havail) (by omega) (junk (2 * pre.length + 1))
  obtain ⟨s₃, x₃, spare₃, hput, hs₃⟩ := put_lies hs₂ str havail₂ hlen
  refine ⟨s₃, x₃, spare₃, hs₃, fun fuel => ?_⟩
  have hbyte : fmtByte (pre ++ 37 :: next :: f) pre.length = some 37 :=
    fmtByte_append pre (37 :: next :: f) 0
  have hnext : fmtByte (pre ++ 37 :: next :: f) (pre.length + 1) = some next :=
    fmtByte_append pre (37 :: next :: f) 1
  rw [fmtLoop, hbyte]
  simp only [Option.bind_eq_bind, Option.bind_some, hone, hnext, fmtText_eq htext, hroom, hput]
  rfl

/-- The loop appends the text of what is left of the format. -/
theorem fmtLoop_spec (junk : Nat → Nat → UInt8) (pre : Bytes) (hs : s.Lies b x spare) (hfmt : ∀ c ∈ f, c ≠ 0)
    (hout : formatted f args = some out) (hlone : ¬ EndsInLonePercent f)
    (hlen : b.length + out.length < 2 ^ 31) (hfuel : f.length < fuel) :
    ∃ s' x' spare', fmtLoop (pre ++ f) junk fuel s b.length pre.length args =
        some (s', ((b ++ out).length : Int)) ∧ s'.Lies (b ++ out) x' spare' := by
  obtain ⟨fuel, rfl⟩ : ∃ n, fuel = n + 1 := ⟨fuel - 1, by omega⟩
  induction f, args using formatted.induct generalizing s b x spare pre out fuel with
  | case1 args =>
      cases hout
      rw [List.append_nil, List.append_nil]
      exact ⟨s, x, spare, fmtLoop_end junk s _ pre args fuel, hs⟩
  | case2 args => exact absurd (lonePercent_singleton.mpr rfl) hlone
  | case3 c args hc =>
      rw [formatted, if_neg hc] at hout
      cases hout
      obtain ⟨s', x', spare', hs', hrun⟩ :=
        fmtLoop_char hs (hfmt c (by simp)) hc hlen pre [] args junk
      obtain ⟨fuel, rfl⟩ : ∃ n, fuel = n + 1 := ⟨fuel - 1, by simp at hfuel; omega⟩
      have hend := fmtLoop_end junk s' ((b ++ [c]).length : Int) (pre ++ [c]) args fuel
      rw [@List.length_append _ pre, List.length_singleton] at hend
      exact ⟨s', x', spare', (hrun _).trans hend, hs'⟩
  | case4 next f args hnone =>
      rw [formatted, if_pos rfl, hnone] at hout
      exact nomatch hout
  | case5 next f args str args' htext ih =>
      rw [formatted, if_pos rfl, htext] at hout
      obtain ⟨out, hrest, rfl⟩ := Option.map_eq_some_iff.mp hout
      rw [List.length_append] at hlen
      obtain ⟨s₁, x₁, spare₁, hs₁, hrun⟩ :=
        fmtLoop_directive hs htext (by omega) pre f junk
      obtain ⟨fuel, rfl⟩ : ∃ n, fuel = n + 1 := ⟨fuel - 1, by simp at hfuel; omega⟩
      obtain ⟨s', x', spare', hrec, hs'⟩ := ih (pre ++ [37, next]) hs₁
        (fun c hc => hfmt c (List.mem_cons_of_mem _ (List.mem_cons_of_mem _ hc))) hrest
        (fun h => hlone (lonePercent_directive.mpr h))
        (by rw [List.length_append]; omega) fuel
        (by simp at hfuel ⊢; omega)
      rw [List.append_assoc, List.append_assoc, @List.length_append _ pre] at hrec
      rw [List.append_assoc] at hs'
      exact ⟨s', x', spare', (hrun _).trans hrec, hs'⟩
  | case6 c next f args hc ih =>
      rw [formatted, if_neg hc] at hout
      obtain ⟨out, hrest, rfl⟩ := Option.map_eq_some_iff.mp hout
      rw [List.length_cons] at hlen
      obtain ⟨s₁, x₁, spare₁, hs₁, hrun⟩ :=
        fmtLoop_char hs (hfmt c (by simp)) hc (by omega) pre (next :: f) args junk
      obtain ⟨fuel, rfl⟩ : ∃ n, fuel = n + 1 := ⟨fuel - 1, by simp at hfuel; omega⟩
      obtain ⟨s', x', spare', hrec, hs'⟩ := ih (pre ++ [c]) hs₁
        (fun c hc => hfmt c (List.mem_cons_of_mem _ hc)) hrest
        (fun h => hlone ((lonePercent_cons hc).mpr h))
        (by rw [List.length_append, List.length_singleton]; omega) fuel
        (by simp at hfuel ⊢; omega)
      rw [List.append_assoc, List.append_assoc, @List.length_append _ pre] at hrec
      rw [List.append_assoc] at hs'
      exact ⟨s', x', spare', (hrun _).trans hrec, hs'⟩

/-- A step of the loop comes to nothing if the rest of it does. -/
theorem fmtLoop_none {k : Nat} (hbyte : fmtByte fmt k = some c) (hnul : c ≠ 0)
    (hrest : ∀ s j args, fmtLoop fmt junk fuel s j (if c = 37 then k + 2 else k + 1) args = none)
    (s : Sdshdr) (j : Int) (args : List FmtArg) :
    fmtLoop fmt junk (fuel + 1) s j k args = none := by
  rw [fmtLoop, hbyte]
  simp only [Option.bind_eq_bind, Option.bind_some, if_neg hnul]
  refine Option.bind_eq_none_iff.mpr (fun s₁ _ => ?_)
  by_cases hc : c = 37
  · simp only [if_pos hc] at hrest ⊢
    refine Option.bind_eq_none_iff.mpr (fun next _ => ?_)
    refine Option.bind_eq_none_iff.mpr (fun text _ => ?_)
    refine Option.bind_eq_none_iff.mpr (fun s₂ _ => ?_)
    exact Option.bind_eq_none_iff.mpr (fun written _ => hrest _ _ _)
  · simp only [if_neg hc] at hrest ⊢
    exact Option.bind_eq_none_iff.mpr (fun written _ => hrest _ _ _)

/-- Behind a lone `%` the loop has nothing to read. -/
theorem fmtLoop_lone (junk : Nat → Nat → UInt8) (fuel : Nat) (pre : Bytes) (hfmt : ∀ c ∈ f, c ≠ 0)
    (hlone : EndsInLonePercent f) (s : Sdshdr) (j : Int) (args : List FmtArg) :
    fmtLoop (pre ++ f) junk fuel s j pre.length args = none := by
  induction f using List.twoStepInduction generalizing s j pre args fuel with
  | nil => exact absurd hlone (by decide)
  | singleton c =>
      obtain rfl := lonePercent_singleton.mp hlone
      cases fuel with
      | zero => rfl
      | succ fuel =>
          refine fmtLoop_none (fmtByte_append pre [37] 0) (by decide) (fun s j args => ?_) s j args
          cases fuel with
          | zero => rfl
          | succ fuel =>
              have hbehind : fmtByte (pre ++ [37]) (pre.length + 2) = none :=
                fmtByte_append pre [37] 2
              rw [if_pos rfl, fmtLoop, hbehind]
              rfl
  | cons_cons c next f ih ih' =>
      cases fuel with
      | zero => rfl
      | succ fuel =>
          refine fmtLoop_none (fmtByte_append pre (c :: next :: f) 0) (hfmt c List.mem_cons_self)
            (fun s j args => ?_) s j args
          by_cases hc : c = 37
          · subst hc
            have hrec := ih fuel (pre ++ [37, next])
              (fun c hc => hfmt c (List.mem_cons_of_mem _ (List.mem_cons_of_mem _ hc)))
              (lonePercent_directive.mp hlone) s j args
            rw [List.append_assoc, @List.length_append _ pre] at hrec
            exact hrec
          · have hrec := ih' next fuel (pre ++ [c])
              (fun c hc => hfmt c (List.mem_cons_of_mem _ hc)) ((lonePercent_cons hc).mp hlone)
              s j args
            rw [List.append_assoc, @List.length_append _ pre] at hrec
            rw [if_neg hc]
            exact hrec

/-- **`sdscatfmt`** appends the text of the format, with arguments that match it, exactly when
the format does not end in a lone `%`. -/
theorem sdscatfmt_iff (hs : s.Sound b) (hfmt : ∀ c ∈ fmt, c ≠ 0)
    (hout : formatted fmt args = some out) (hlen : b.length + out.length < 2 ^ 31)
    (junk : Nat → Nat → UInt8) :
    (∃ s', s.sdscatfmt fmt args junk = some s' ∧ s'.Sound (b ++ out)) ↔
      ¬ EndsInLonePercent fmt := by
  have hslen : s.sdslen = b.length := hs.len
  have hi : CInt.toInt s.sdslen = (b.length : Int) := by
    rw [hslen, CInt.toInt_eq (by omega) (by omega)]
  constructor
  · rintro ⟨s', hrun, -⟩ hlone
    have hnone := fmtLoop_lone junk (fmt.length + 1) [] hfmt hlone s
      b.length args
    rw [sdscatfmt, hi] at hrun
    rw [List.nil_append, List.length_nil] at hnone
    rw [hnone] at hrun
    exact nomatch hrun
  · intro hlone
    obtain ⟨s₁, x, spare, hrun, hs₁⟩ := fmtLoop_spec junk [] hs.has hfmt
      hout hlone hlen (Nat.lt_succ_self _)
    obtain ⟨s', hnul, hs', -⟩ := has_of_nul hs₁.buf hs₁.len hs₁.alloc hs₁.room hs₁.fits
    refine ⟨s', ?_, hs'.sound⟩
    rw [List.nil_append, List.length_nil] at hrun
    rw [sdscatfmt, hi, hrun]
    simp only [Option.bind_eq_bind, Option.bind_some]
    rw [if_pos (Int.natCast_nonneg _), Int.toNat_natCast, hnul]

/-- `sdscatfmt("abc", "%s=%i%%", "k", -5)`. -/
theorem sdscatfmt_iff_abc : (∃ s', abc.sdscatfmt (cstr "%s=%i%%") [.str (cstr "k"), .num (-5)]
      (fun _ _ => 0) = some s' ∧ s'.Sound ([97, 98, 99] ++ cstr "k=-5%")) ↔
    ¬ EndsInLonePercent (cstr "%s=%i%%") :=
  sdscatfmt_iff abc_sound (by decide +kernel) (by decide +kernel) (by decide) _

/-- The format `"%"` has no text, and the loop runs out of it. -/
theorem sdscatfmt_lone : abc.Sound [97, 98, 99] ∧ formatted [37] [] = some [] ∧
    ¬ ∃ s', abc.sdscatfmt [37] [] (fun _ _ => 0) = some s' ∧ s'.Sound ([97, 98, 99] ++ []) := by
  refine ⟨abc_sound, rfl, ?_⟩
  rintro ⟨s', hrun, -⟩
  have hres : abc.sdscatfmt [37] [] (fun _ _ => 0) = none := by decide +kernel
  rw [hres] at hrun
  exact nomatch hrun

end Sdshdr

open Sdshdr in
/-- The formatting of replies, which has no memory, makes the same text. -/
theorem sdscatfmt_formatted {s fmt out : Bytes} {args : List FmtArg}
    (hout : formatted fmt args = some out) (hlone : ¬ EndsInLonePercent fmt) :
    RedisCore.sdscatfmt s fmt args = some (s ++ out) := by
  induction fmt, args using formatted.induct generalizing s out with
  | case1 args =>
      cases hout
      rw [sdscatfmt, List.append_nil]
  | case2 args => exact absurd (lonePercent_singleton.mpr rfl) hlone
  | case3 c args hc =>
      rw [formatted, if_neg hc] at hout
      cases hout
      rw [sdscatfmt, if_neg hc]
  | case4 next f args hnone =>
      rw [formatted, if_pos rfl, hnone] at hout
      exact nomatch hout
  | case5 next f args str args' htext ih =>
      rw [formatted, if_pos rfl, htext] at hout
      obtain ⟨out, hrest, rfl⟩ := Option.map_eq_some_iff.mp hout
      rw [sdscatfmt, if_pos rfl, (sdsConversion_eq htext).1]
      dsimp only
      rw [ih hrest (fun h => hlone (lonePercent_directive.mpr h)), List.append_assoc]
  | case6 c next f args hc ih =>
      rw [formatted, if_neg hc] at hout
      obtain ⟨out, hrest, rfl⟩ := Option.map_eq_some_iff.mp hout
      rw [sdscatfmt, if_neg hc, ih hrest (fun h => hlone ((lonePercent_cons hc).mpr h)),
        List.append_assoc]
      rfl

end RedisCore
