/-
# `RedisCore.Util` — numbers to strings and back (util.c)

`ll2string` fills a caller's buffer from the right, two digits at a time, after
`digits10` has said where the right end is.  `string2ll` accepts a string only if it
is the one numeral of a `long long`.  The two agree: a string is accepted with value
`v` exactly when `ll2string` writes it for `v`.
-/
import RedisCore.Lib.CInt
import RedisCore.Lib.Decimal

namespace RedisCore

open Decimal CInt

/-- The contents of a character buffer, or of a string that knows its length. -/
abbrev Bytes := List UInt8

/-- The characters of a C string literal. -/
def cstr (s : String) : Bytes := s.toList.map (fun c => UInt8.ofNat c.toNat)

/-- What a C string function sees of a string. -/
def cstring (s : Bytes) : Bytes := s.takeWhile (· ≠ 0)

/-- `tolower` of the C locale. -/
def lower (c : UInt8) : UInt8 := if 65 ≤ c ∧ c ≤ 90 then c + 32 else c

/-- `strcasecmp` finds no difference. -/
def strcaseEq (s t : Bytes) : Bool := s.map lower = t.map lower

/-- `isspace` of the C locale. -/
def isspace (c : UInt8) : Bool := (9 ≤ c && c ≤ 13) || c = 32

/-- `strtol` in base 10: the number a string begins with, or the nearest `long`. -/
def strtol (s : Bytes) : Int :=
  let s := s.dropWhile isspace
  let (negative, s) :=
    match s with
    | 45 :: s => (true, s)
    | 43 :: s => (false, s)
    | s => (false, s)
  let v : Int := fold 0 (s.takeWhile (fun c => 48 ≤ c && c ≤ 57))
  if negative then max LONG_MIN (-v) else min LONG_MAX v

/-- `digits10`; the recursion divides by `10 ^ 12`, so two calls see a `uint64_t`
through. -/
def digits10Calls : Nat → Nat → Nat
  | 0, _ => 0
  | calls + 1, v =>
      if v < 10 then 1
      else if v < 100 then 2
      else if v < 1000 then 3
      else if v < 1000000000000 then
        if v < 100000000 then
          if v < 1000000 then
            if v < 10000 then 4
            else 5 + (if v ≥ 100000 then 1 else 0)
          else 7 + (if v ≥ 10000000 then 1 else 0)
        else if v < 10000000000 then 9 + (if v ≥ 1000000000 then 1 else 0)
        else 11 + (if v ≥ 100000000000 then 1 else 0)
      else 12 + digits10Calls calls (v / 1000000000000)

def digits10 (v : Nat) : Nat := digits10Calls 2 v

def sdigits10 (v : Int) : Nat :=
  if v < 0 then digits10 (if v ≠ LONG_MIN then (-v).toNat else LONG_MAX.toNat + 1) + 1
  else digits10 v.toNat

/-- The table of `ll2string`. -/
def digits : Bytes :=
  cstr "0001020304050607080910111213141516171819" ++
  cstr "2021222324252627282930313233343536373839" ++
  cstr "4041424344454647484950515253545556575859" ++
  cstr "6061626364656667686970717273747576777879" ++
  cstr "8081828384858687888990919293949596979899"

/-- The main loop of `ll2string`: the value that is left, `next`, and the buffer. -/
def ll2stringLoop : Nat → Nat → Nat → Bytes → Nat × Nat × Bytes
  | 0, value, next, dst => (value, next, dst)
  | fuel + 1, value, next, dst =>
      if value ≥ 100 then
        let i := value % 100 * 2
        ll2stringLoop fuel (value / 100) (next - 2)
          ((dst.set next (digits.getD (i + 1) 0)).set (next - 1) (digits.getD i 0))
      else (value, next, dst)

/-- `ll2string` after its loop: the last one or two digits. -/
def ll2stringLast (value next : Nat) (dst : Bytes) : Bytes :=
  if value < 10 then dst.set next (UInt8.ofNat (48 + value))
  else
    let i := value * 2
    (dst.set next (digits.getD (i + 1) 0)).set (next - 1) (digits.getD i 0)

/-- `ll2string`: the buffer and the length, which is 0 if it does not fit. -/
def ll2string (dst : Bytes) (svalue : Int) : Bytes × Nat :=
  let negative := decide (svalue < 0)
  let value :=
    if svalue < 0 then
      if svalue ≠ LONG_MIN then (-svalue).toNat else LONG_MAX.toNat + 1
    else svalue.toNat
  let length := digits10 value + (if negative then 1 else 0)
  if length ≥ dst.length then (dst, 0)
  else
    let dst := dst.set length 0
    let next := length - 1
    let (value, next, dst) := ll2stringLoop 10 value next dst
    let dst := ll2stringLast value next dst
    let dst := if negative then dst.set 0 45 else dst
    (dst, length)

/-- The digit loop of `string2ll`: the value and the bytes left, or an overflow. -/
def string2llLoop : Bytes → Nat → Option (Nat × Bytes)
  | [], v => some (v, [])
  | c :: cs, v =>
      if 48 ≤ c ∧ c ≤ 57 then
        if v > ULLONG_MAX / 10 then none
        else
          let v := v * 10
          if v > ULLONG_MAX - (c.toNat - 48) then none
          else string2llLoop cs (v + (c.toNat - 48))
      else some (v, c :: cs)

/-- `string2ll`. -/
def string2ll (s : Bytes) : Option Int :=
  if s.length = 0 then none
  else if s.length = 1 ∧ s.getD 0 0 = 48 then some 0
  else
    let negative := decide (s.getD 0 0 = 45)
    let p := if negative then s.drop 1 else s
    match p with
    | [] => none
    | c :: cs =>
        if 49 ≤ c ∧ c ≤ 57 then
          match string2llLoop cs (c.toNat - 48) with
          | none => none
          | some (_, _ :: _) => none
          | some (v, []) =>
              if negative then
                if v > (-(LONG_MIN + 1)).toNat + 1 then none else some (toLong (-(v : Int)))
              else if v > LONG_MAX.toNat then none
              else some v
        else if c = 48 ∧ s.length = 1 then some 0
        else none

/-- `string2l`. -/
def string2l (s : Bytes) : Option Int :=
  match string2ll s with
  | none => none
  | some llval => if llval < LONG_MIN ∨ llval > LONG_MAX then none else some llval

/-- What the callers make of `ll2string`: a buffer of 32 bytes, cut at the length. -/
def ll2str (v : Int) : Bytes :=
  let (buf, len) := ll2string (List.replicate 32 0) v
  buf.take len

/-! ## `digits10` is the length of the numeral -/

theorem digits10Calls_spec : ∀ (calls v : Nat), v < 10 ^ (12 * calls) → 0 < calls →
    digits10Calls calls v = (decNat v).length := by
  intro calls
  induction calls with
  | zero => intro v _ h; exact absurd h (by decide)
  | succ calls ih =>
      intro v hv _
      simp only [digits10Calls]
      by_cases hbig : v < 1000000000000
      · -- between two powers of ten the length is known
        have h0 : v < 10 → (decNat v).length = 1 := fun h => by rw [decNat_of_lt h]; rfl
        have hk : ∀ k, 10 ^ k ≤ v → v < 10 ^ (k + 1) → (decNat v).length = k + 1 :=
          fun k h1 h2 => length_decNat_of h1 h2
        have h1 := hk 1; have h2 := hk 2; have h3 := hk 3; have h4 := hk 4
        have h5 := hk 5; have h6 := hk 6; have h7 := hk 7; have h8 := hk 8
        have h9 := hk 9; have h10 := hk 10; have h11 := hk 11
        norm_num at h1 h2 h3 h4 h5 h6 h7 h8 h9 h10 h11
        split_ifs <;> omega
      · have hlow : 10 ^ 12 ≤ v := by omega
        have hcalls : 0 < calls := by
          rcases Nat.eq_zero_or_pos calls with rfl | h
          · simp at hv; omega
          · exact h
        have hdiv : v / 10 ^ 12 < 10 ^ (12 * calls) := by
          apply Nat.div_lt_of_lt_mul
          rw [← Nat.pow_add]
          calc v < 10 ^ (12 * (calls + 1)) := hv
            _ = 10 ^ (12 + 12 * calls) := by congr 1; ring
        have hrec := ih (v / 10 ^ 12) hdiv hcalls
        rw [length_decNat_div hlow, ← hrec]
        split_ifs <;> first | omega | rfl

theorem digits10_spec {v : Nat} (h : v < 2 ^ 64) : digits10 v = (decNat v).length :=
  digits10Calls_spec 2 v (Nat.lt_trans h (by decide)) (by decide)

/-! ## `ll2string` writes the numeral -/

/-- The table lists the two digits of every number below 100. -/
theorem digits_eq : digits = (List.range 100).flatMap (fun i => [digit (i / 10), digit (i % 10)]) := by
  decide +kernel

theorem digits_pair : ∀ i < 100, digits.getD (i * 2) 0 = digit (i / 10) ∧
    digits.getD (i * 2 + 1) 0 = digit (i % 10) := by
  rw [digits_eq]
  decide +kernel

theorem drop_set_set {dst : Bytes} {next : Nat} {a b : UInt8} (hn : 0 < next)
    (hlt : next < dst.length) :
    ((dst.set next a).set (next - 1) b).drop (next - 1) = b :: a :: dst.drop (next + 1) := by
  obtain ⟨k, rfl⟩ : ∃ k, next = k + 1 := ⟨next - 1, by omega⟩
  simp only [Nat.add_sub_cancel]
  rw [List.drop_eq_getElem_cons (by simpa using by omega), List.drop_eq_getElem_cons (by simpa),
    List.drop_set_of_lt (by omega), List.drop_set_of_lt (by omega)]
  simp

/-- The loop, together with the last digits, writes a numeral in front of what is
already there. -/
theorem ll2stringLoop_spec : ∀ (fuel value next : Nat) (dst : Bytes) (neg : Nat),
    value < 100 * 100 ^ fuel → (decNat value).length + neg = next + 1 → next < dst.length →
    let r := ll2stringLoop fuel value next dst
    r.1 < 100 ∧ (decNat r.1).length + neg = r.2.1 + 1 ∧ r.2.1 < r.2.2.length ∧
      r.2.2.length = dst.length ∧ r.2.2.take neg = dst.take neg ∧
      decNat r.1 ++ r.2.2.drop (r.2.1 + 1) = decNat value ++ dst.drop (next + 1) := by
  intro fuel
  induction fuel with
  | zero =>
      intro value next dst neg hv hlen hlt
      exact ⟨(by simpa using hv : value < 100), hlen, hlt, rfl, rfl, rfl⟩
  | succ fuel ih =>
      intro value next dst neg hv hlen hlt
      by_cases hbig : value ≥ 100
      · have hsnoc := decNat_snoc₂ hbig
        have hne := List.length_pos_of_ne_nil (decNat_ne_nil (value / 100))
        have hlen' := hlen
        rw [hsnoc, List.length_append, List.length_cons, List.length_singleton] at hlen'
        obtain ⟨hd0, hd1⟩ := digits_pair (value % 100) (Nat.mod_lt _ (by decide))
        have hstep := ih (value / 100) (next - 2)
          ((dst.set next (digits.getD (value % 100 * 2 + 1) 0)).set (next - 1)
            (digits.getD (value % 100 * 2) 0)) neg
          (by rw [Nat.pow_succ] at hv; omega) (by omega) (by simp only [List.length_set]; omega)
        simp only [ll2stringLoop, hbig, if_true]
        obtain ⟨h1, h2, h3, h4, h5, h6⟩ := hstep
        refine ⟨h1, h2, h3, by rw [h4]; simp, ?_, ?_⟩
        · rw [h5, List.take_set_of_le (by omega), List.take_set_of_le (by omega)]
        · have hidx : next - 2 + 1 = next - 1 := by omega
          rw [h6, hidx, drop_set_set (by omega) hlt, hd0, hd1, hsnoc, Nat.mod_mod_of_dvd _ (by decide),
            List.append_assoc]
          rfl
      · have hr : ll2stringLoop (fuel + 1) value next dst = (value, next, dst) := by
          simp only [ll2stringLoop, hbig, if_false]
        rw [hr]
        exact ⟨Nat.lt_of_not_le hbig, hlen, hlt, rfl, rfl, rfl⟩

theorem ll2stringLast_spec {value next neg : Nat} {dst : Bytes} (hv : value < 100)
    (hlen : (decNat value).length + neg = next + 1) (hlt : next < dst.length) :
    ll2stringLast value next dst = dst.take neg ++ decNat value ++ dst.drop (next + 1) := by
  by_cases h10 : value < 10
  · rw [decNat_of_lt h10, List.length_singleton] at hlen
    have hn : next = neg := by omega
    simp only [ll2stringLast, h10, if_true]
    rw [decNat_of_lt h10, hn, List.set_eq_take_append_cons_drop, if_pos (by omega)]
    simp [digit]
  · have htwo := decNat_two (Nat.le_of_not_lt h10) hv
    rw [htwo, List.length_cons, List.length_singleton] at hlen
    obtain ⟨k, rfl⟩ : ∃ k, next = k + 1 := ⟨next - 1, by omega⟩
    have hk : k = neg := by omega
    obtain ⟨hd0, hd1⟩ := digits_pair value hv
    simp only [ll2stringLast, h10, if_false]
    have hdrop := drop_set_set (a := digit (value % 10)) (b := digit (value / 10))
      (Nat.succ_pos k) hlt
    rw [Nat.succ_eq_add_one, Nat.add_sub_cancel] at hdrop
    rw [htwo, hd0, hd1, ← hk, Nat.add_sub_cancel,
      ← List.take_append_drop k (((dst.set (k + 1) (digit (value % 10))).set k _)), hdrop,
      List.take_set_of_le (Nat.le_refl k), List.take_set_of_le (Nat.le_succ k)]
    simp

/-- The sign and the magnitude `ll2string` works with. -/
theorem natAbs_of_range {v : Int} (h₁ : LONG_MIN ≤ v) :
    (if v < 0 then if v ≠ LONG_MIN then (-v).toNat else LONG_MAX.toNat + 1 else v.toNat)
      = v.natAbs := by
  have hmin : LONG_MIN = -(2 ^ 63) := rfl
  have hmax : LONG_MAX = 2 ^ 63 - 1 := rfl
  split_ifs with hneg hne
  · omega
  · have : v = LONG_MIN := Classical.not_not.mp hne
    rw [this]
    rfl
  · omega

/-- `sdigits10` is the length of the numeral. -/
theorem sdigits10_spec {v : Int} (h₁ : LONG_MIN ≤ v) (h₂ : v ≤ LONG_MAX) :
    sdigits10 v = (decInt v).length := by
  have hmin : LONG_MIN = -(2 ^ 63) := rfl
  have hmax : LONG_MAX = 2 ^ 63 - 1 := rfl
  have habs := natAbs_of_range h₁
  by_cases hv : v < 0
  · rw [if_pos hv] at habs
    rw [sdigits10, if_pos hv, habs, digits10_spec (by omega), decInt, if_pos hv]
    rfl
  · rw [if_neg hv] at habs
    rw [sdigits10, if_neg hv, habs, digits10_spec (by omega), decInt, if_neg hv]

/-- The length `ll2string` computes is the one of `sdigits10`. -/
theorem ll2string_length {v : Int} (h₁ : LONG_MIN ≤ v) (h₂ : v ≤ LONG_MAX) :
    digits10 v.natAbs + (if v < 0 then 1 else 0) = (decInt v).length := by
  have hmin : LONG_MIN = -(2 ^ 63) := rfl
  have hmax : LONG_MAX = 2 ^ 63 - 1 := rfl
  rw [digits10_spec (by omega), decInt]
  split <;> rfl

/-- A buffer without room for the numeral and the terminating zero is left alone. -/
theorem ll2string_short {v : Int} (h₁ : LONG_MIN ≤ v) (h₂ : v ≤ LONG_MAX) {dst : Bytes}
    (hroom : dst.length ≤ (decInt v).length) : ll2string dst v = (dst, 0) := by
  simp only [ll2string, natAbs_of_range h₁, decide_eq_true_eq, ll2string_length h₁ h₂, ge_iff_le,
    hroom, if_true]

/-- A `long long` is written as its numeral and a terminating zero, if the buffer has
room for them; what lies behind is left alone. -/
theorem ll2string_eq {v : Int} (h₁ : LONG_MIN ≤ v) (h₂ : v ≤ LONG_MAX) {dst : Bytes}
    (hroom : (decInt v).length < dst.length) :
    ll2string dst v =
      (decInt v ++ 0 :: dst.drop ((decInt v).length + 1), (decInt v).length) := by
  have hmin : LONG_MIN = -(2 ^ 63) := rfl
  have hmax : LONG_MAX = 2 ^ 63 - 1 := rfl
  have habs : v.natAbs < 2 ^ 64 := by omega
  -- `neg` is the width of the sign
  obtain ⟨neg, hneg⟩ : ∃ neg, neg = if v < 0 then 1 else 0 := ⟨_, rfl⟩
  have hlen : (decInt v).length = (decNat v.natAbs).length + neg := by
    rw [decInt, hneg]
    split <;> rfl
  have hpos := List.length_pos_of_ne_nil (decNat_ne_nil v.natAbs)
  obtain ⟨next, hnext⟩ : ∃ next, next = (decInt v).length - 1 := ⟨_, rfl⟩
  have hloop := ll2stringLoop_spec 10 v.natAbs next (dst.set (decInt v).length 0) neg
    (Nat.lt_trans habs (by decide)) (by omega) (by rw [List.length_set]; omega)
  obtain ⟨r, hr⟩ : ∃ r, r = ll2stringLoop 10 v.natAbs next (dst.set (decInt v).length 0) := ⟨_, rfl⟩
  rw [← hr] at hloop
  obtain ⟨h100, hl, hlt, hlen', htake, happ⟩ := hloop
  rw [List.length_set] at hlen'
  have hlast := ll2stringLast_spec h100 hl hlt
  rw [htake, List.append_assoc, happ] at hlast
  have hres : ll2string dst v =
      ((if v < 0 then (ll2stringLast r.1 r.2.1 r.2.2).set 0 45
        else ll2stringLast r.1 r.2.1 r.2.2), (decInt v).length) := by
    simp only [ll2string, natAbs_of_range h₁, decide_eq_true_eq, ll2string_length h₁ h₂, ge_iff_le,
      Nat.not_le.mpr hroom, if_false, ← hnext, ← hr]
  have hnl : next + 1 = (decInt v).length := by omega
  have hbehind : (dst.set (decInt v).length 0).drop (next + 1) =
      0 :: dst.drop ((decInt v).length + 1) := by
    rw [hnl, List.drop_eq_getElem_cons (by rwa [List.length_set]), List.getElem_set_self,
      List.drop_set_of_lt (Nat.lt_succ_self _)]
  rw [hbehind] at hlast
  rw [hres]
  refine congrArg (·, (decInt v).length) ?_
  by_cases hv : v < 0
  · have hone : neg = 1 := by rw [hneg, if_pos hv]
    rw [if_pos hv, hlast, hone]
    cases hdst : dst.set (decInt v).length 0 with
    | nil => rw [← List.length_eq_zero_iff, List.length_set] at hdst; omega
    | cons c cs =>
        have hdec : decInt v = 45 :: decNat v.natAbs := by rw [decInt, if_pos hv]
        rw [hdec]
        rfl
  · have hzero : neg = 0 := by rw [hneg, if_neg hv]
    have hdec : decInt v = decNat v.natAbs := by rw [decInt, if_neg hv]
    rw [if_neg hv, hlast, hzero, hdec]
    rfl

theorem ll2string_spec {v : Int} (h₁ : LONG_MIN ≤ v) (h₂ : v ≤ LONG_MAX) {dst : Bytes}
    (hroom : (decInt v).length < dst.length) :
    (ll2string dst v).2 = (decInt v).length ∧
      (ll2string dst v).1.take (decInt v).length = decInt v ∧
      (ll2string dst v).1.length = dst.length := by
  rw [ll2string_eq h₁ h₂ hroom]
  refine ⟨rfl, List.take_left, ?_⟩
  simp only [List.length_append, List.length_cons, List.length_drop]
  omega

theorem length_decInt_le {v : Int} (h₁ : LONG_MIN ≤ v) (h₂ : v ≤ LONG_MAX) :
    (decInt v).length ≤ 20 := by
  have hmin : LONG_MIN = -(2 ^ 63) := rfl
  have hmax : LONG_MAX = 2 ^ 63 - 1 := rfl
  have hlen : (decNat v.natAbs).length ≤ 19 := length_decNat_le (k := 18) (by omega)
  rw [decInt]
  split
  · simp only [List.length_cons]; omega
  · omega

/-- What the callers get is the numeral. -/
theorem ll2str_eq {v : Int} (h₁ : LONG_MIN ≤ v) (h₂ : v ≤ LONG_MAX) : ll2str v = decInt v := by
  have hlen := length_decInt_le h₁ h₂
  obtain ⟨h, htake, _⟩ := @ll2string_spec v h₁ h₂ (List.replicate 32 0)
    (by rw [List.length_replicate]; omega)
  show (ll2string (List.replicate 32 0) v).1.take (ll2string (List.replicate 32 0) v).2 = decInt v
  rw [h, htake]

/-! ## `string2ll` reads the numeral, and nothing else -/

/-- The digit loop that comes to the end has read digits only. -/
theorem string2llLoop_some : ∀ (cs : Bytes) {v v' : Nat}, string2llLoop cs v = some (v', []) →
    (∀ c ∈ cs, IsDigit c) ∧ v' = fold v cs := by
  intro cs
  induction cs with
  | nil =>
      intro v v' h
      simp only [string2llLoop, Option.some.injEq, Prod.mk.injEq, and_true] at h
      exact ⟨by simp, h.symm⟩
  | cons c cs ih =>
      intro v v' h
      simp only [string2llLoop] at h
      split at h
      · next hd =>
          split at h
          · exact absurd h (by simp)
          · split at h
            · exact absurd h (by simp)
            · obtain ⟨h1, h2⟩ := ih h
              refine ⟨?_, ?_⟩
              · intro x hx
                rcases List.mem_cons.mp hx with rfl | hx
                · exact hd
                · exact h1 x hx
              · rw [h2, fold_cons, Nat.mul_comm v 10]
                rfl
      · exact absurd h (by simp)

/-- Digits whose value fits are all read. -/
theorem string2llLoop_fold : ∀ (cs : Bytes) (v : Nat), (∀ c ∈ cs, IsDigit c) →
    fold v cs ≤ ULLONG_MAX → string2llLoop cs v = some (fold v cs, []) := by
  intro cs
  induction cs with
  | nil => intro v _ _; rfl
  | cons c cs ih =>
      intro v hcs hle
      have hc := hcs c List.mem_cons_self
      have hstep : 10 * v + val c ≤ ULLONG_MAX := by
        rw [fold_cons] at hle
        exact Nat.le_trans (le_fold cs _) hle
      have hv : c.toNat - 48 = val c := rfl
      have hmax : ULLONG_MAX = 2 ^ 64 - 1 := rfl
      have hd : 48 ≤ c ∧ c ≤ 57 := hc
      have h1 : ¬ v > ULLONG_MAX / 10 := by omega
      have h2 : ¬ v * 10 > ULLONG_MAX - val c := by omega
      simp only [string2llLoop, hd, and_self, if_true, h1, if_false, hv, h2]
      rw [fold_cons] at hle ⊢
      rw [Nat.mul_comm v 10]
      exact ih _ (fun x hx => hcs x (List.mem_cons_of_mem c hx)) hle

/-- A leading digit from 1 to 9 and more digits are the numeral of what they fold to. -/
theorem decNat_of_digits {c : UInt8} {cs : Bytes} (h1 : 49 ≤ c) (h2 : c ≤ 57)
    (hcs : ∀ x ∈ cs, IsDigit x) :
    decNat (fold (val c) cs) = c :: cs ∧ 0 < fold (val c) cs := by
  have h1' : 49 ≤ c.toNat := h1
  have h2' : c.toNat ≤ 57 := h2
  have hc : IsDigit c := ⟨by omega, h2'⟩
  have hpos : 0 < val c := by unfold val; omega
  refine ⟨?_, Nat.lt_of_lt_of_le hpos (le_fold cs _)⟩
  rw [decNat_fold cs hpos hcs, decNat_of_lt (val_lt hc), digit_val hc]
  rfl

theorem string2ll_sound {s : Bytes} {v : Int} (h : string2ll s = some v) :
    LONG_MIN ≤ v ∧ v ≤ LONG_MAX ∧ s = decInt v := by
  have hmin : LONG_MIN = -(2 ^ 63) := rfl
  have hmax : LONG_MAX = 2 ^ 63 - 1 := rfl
  unfold string2ll at h
  split at h
  · exact absurd h (by simp)
  split at h
  · next hzero =>
      cases h
      obtain ⟨c, rfl⟩ := List.length_eq_one_iff.mp hzero.1
      have hc : c = 48 := hzero.2
      exact ⟨by decide, by decide, by rw [hc]; simp [decInt, decNat_of_lt, digit]⟩
  next hne hnz =>
  simp only at h
  split at h
  · exact absurd h (by simp)
  · next c cs hp =>
    split at h
    · next hd =>
        split at h
        · exact absurd h (by simp)
        · exact absurd h (by simp)
        · next w hloop =>
            obtain ⟨hcs, hw⟩ := string2llLoop_some cs hloop
            obtain ⟨hdec, hpos⟩ := decNat_of_digits hd.1 hd.2 hcs
            rw [show fold (val c) cs = w from hw.symm] at hdec hpos
            by_cases hneg : s.getD 0 0 = 45
            · simp only [hneg, decide_true, if_true] at h hp
              have hs : s = 45 :: c :: cs := by
                cases s with
                | nil => exact absurd rfl hne
                | cons x xs =>
                    have hx : x = 45 := hneg
                    rw [hx, ← hp]
                    rfl
              split at h
              · exact absurd h (by simp)
              · next hle =>
                  have hle' : w ≤ 2 ^ 63 := by
                    have : (-(LONG_MIN + 1)).toNat + 1 = 2 ^ 63 := by decide
                    omega
                  rw [toLong_eq (by omega) (by omega)] at h
                  cases h
                  refine ⟨by omega, by omega, ?_⟩
                  rw [hs, decInt, if_pos (by omega), Int.natAbs_neg, Int.natAbs_natCast, hdec]
            · simp only [hneg, decide_false, Bool.false_eq_true, if_false] at h hp
              split at h
              · exact absurd h (by simp)
              · next hle =>
                  cases h
                  refine ⟨by omega, by omega, ?_⟩
                  rw [decInt, if_neg (by omega), Int.natAbs_natCast, hdec]
                  exact hp
    · next hd =>
        split at h
        · next hz =>
            exfalso
            apply hnz
            refine ⟨hz.2, ?_⟩
            obtain ⟨x, rfl⟩ := List.length_eq_one_iff.mp hz.2
            by_cases hneg : x = 45
            · subst hneg
              simp at hp
            · simp [hneg] at hp
              rw [hp.1]
              exact hz.1
        · exact absurd h (by simp)

theorem string2ll_complete {v : Int} (h₁ : LONG_MIN ≤ v) (h₂ : v ≤ LONG_MAX) :
    string2ll (decInt v) = some v := by
  have hmin : LONG_MIN = -(2 ^ 63) := rfl
  have hmax : LONG_MAX = 2 ^ 63 - 1 := rfl
  by_cases hz : v = 0
  · subst hz
    simp [string2ll, decInt, decNat_of_lt, digit]
  -- `n` is the magnitude
  obtain ⟨n, hn⟩ : ∃ n, n = v.natAbs := ⟨_, rfl⟩
  obtain ⟨c, cs, heq, hc, hpos, hcs, hfold⟩ := decNat_reads (n := n) (by omega)
  have hmaxu : ULLONG_MAX = 2 ^ 64 - 1 := rfl
  have hloop : string2llLoop cs (c.toNat - 48) = some (n, []) := by
    have := string2llLoop_fold cs (val c) hcs (by rw [hfold]; omega)
    rwa [hfold] at this
  have hge : 49 ≤ c := by
    show 49 ≤ c.toNat
    unfold val at hpos
    omega
  have hle : c ≤ 57 := hc.2
  have hne48 : c ≠ 48 := by rintro rfl; exact absurd hpos (by decide)
  have hne45 : c ≠ 45 := by rintro rfl; exact absurd hc.1 (by decide)
  by_cases hneg : v < 0
  · have hs : decInt v = 45 :: c :: cs := by rw [decInt, if_pos hneg, ← hn, heq]
    have hval : toLong (-(n : Int)) = v := by
      rw [toLong_eq (by omega) (by omega)]
      omega
    rw [hs]
    simp [string2ll, hge, hle, hloop]
    exact ⟨by omega, hval⟩
  · have hs : decInt v = c :: cs := by rw [decInt, if_neg hneg, ← hn, heq]
    have hbound : ¬ n > LONG_MAX.toNat := by omega
    rw [hs]
    simp [string2ll, hge, hle, hloop, hne48, hne45, hbound]
    omega

/-- `string2ll` accepts exactly the numerals of the `long long` range. -/
theorem string2ll_eq_some_iff {s : Bytes} {v : Int} :
    string2ll s = some v ↔ LONG_MIN ≤ v ∧ v ≤ LONG_MAX ∧ s = decInt v := by
  constructor
  · exact string2ll_sound
  · rintro ⟨h₁, h₂, rfl⟩
    exact string2ll_complete h₁ h₂

/-- A `long` is as wide as a `long long`: the second range check of `string2l` always
passes. -/
theorem string2l_eq (s : Bytes) : string2l s = string2ll s := by
  unfold string2l
  cases h : string2ll s with
  | none => rfl
  | some v =>
      obtain ⟨h₁, h₂, _⟩ := string2ll_sound h
      simp only [Int.not_lt.mpr h₁, gt_iff_lt, Int.not_lt.mpr h₂, or_self, if_false]

/-- What was read is written back byte for byte. -/
theorem ll2str_of_string2ll {s : Bytes} {v : Int} (h : string2ll s = some v) : ll2str v = s := by
  obtain ⟨h₁, h₂, rfl⟩ := string2ll_sound h
  exact ll2str_eq h₁ h₂

/-- A numeral has no zero byte, so in a buffer it ends where `ll2string` says. -/
theorem cstring_decInt (v : Int) (rest : Bytes) : cstring (decInt v ++ 0 :: rest) = decInt v := by
  have hdigit : ∀ c ∈ decNat v.natAbs, c ≠ 0 := by
    rintro c hc rfl
    exact absurd (isDigit_of_mem hc).1 (by decide)
  have hne : ∀ c ∈ decInt v, c ≠ 0 := by
    intro c hc
    rw [decInt] at hc
    split at hc
    · rcases List.mem_cons.mp hc with rfl | hc
      · decide
      · exact hdigit c hc
    · exact hdigit c hc
  rw [cstring, List.takeWhile_append_of_pos (by simpa using hne)]
  simp

/-- The decimal codec.  Into a buffer `dst`, `ll2string` writes `sdigits10` characters and
a zero, or, where they do not fit, nothing; and `string2ll`, which reads `long long`s
only, reads `v` from exactly the string that is written for `v`. -/
theorem ll2string_string2ll_codec (v : Int) (h : LONG_MIN ≤ v ∧ v ≤ LONG_MAX) (dst : Bytes) :
    (∀ (s : Bytes) (w : Int), string2ll s = some w → LONG_MIN ≤ w ∧ w ≤ LONG_MAX) ∧
    ((ll2string dst v).2 = 0 ↔ dst.length ≤ sdigits10 v) ∧
    (dst.length ≤ sdigits10 v → (ll2string dst v).1 = dst) ∧
    (sdigits10 v < dst.length →
      (ll2string dst v).2 = sdigits10 v ∧
      (0 ≤ v → sdigits10 v = digits10 v.toNat) ∧
      (∃ text : Bytes, text.length = sdigits10 v ∧ text = decInt v ∧
        (ll2string dst v).1 = text ++ 0 :: dst.drop (sdigits10 v + 1)) ∧
      ∀ s : Bytes, string2ll s = some v ↔ s = (ll2string dst v).1.take (ll2string dst v).2) := by
  obtain ⟨h₁, h₂⟩ := h
  have hpos : 0 < (decInt v).length := by
    rw [decInt]
    split
    · exact Nat.succ_pos _
    · exact List.length_pos_of_ne_nil (decNat_ne_nil _)
  refine ⟨fun s w hs => ⟨(string2ll_sound hs).1, (string2ll_sound hs).2.1⟩, ?_⟩
  rw [sdigits10_spec h₁ h₂]
  rcases Nat.lt_or_ge (decInt v).length dst.length with hroom | hshort
  · rw [ll2string_eq h₁ h₂ hroom]
    refine ⟨⟨fun h => absurd h (Nat.ne_of_gt hpos), fun h => absurd hroom (Nat.not_lt.mpr h)⟩,
      fun h => absurd hroom (Nat.not_lt.mpr h), fun _ => ⟨rfl, ?_, ⟨_, rfl, rfl, rfl⟩, ?_⟩⟩
    · intro hv
      rw [← sdigits10_spec h₁ h₂, sdigits10, if_neg (Int.not_lt.mpr hv)]
    · intro s
      rw [List.take_left, string2ll_eq_some_iff]
      exact ⟨fun h => h.2.2, fun h => ⟨h₁, h₂, h⟩⟩
  · rw [ll2string_short h₁ h₂ hshort]
    exact ⟨⟨fun _ => hshort, fun _ => rfl⟩, fun _ => rfl,
      fun h => absurd h (Nat.not_lt.mpr hshort)⟩

/-- The least `long long` in a buffer of its length and one byte. -/
theorem ll2string_string2ll_codec_min :
    (LONG_MIN ≤ LONG_MIN ∧ LONG_MIN ≤ LONG_MAX) ∧
    ((ll2string (List.replicate 21 7) LONG_MIN).2 = 0 ↔
      (List.replicate 21 (7 : UInt8)).length ≤ sdigits10 LONG_MIN) ∧
    string2ll (cstr "-9223372036854775808") = some LONG_MIN := by
  have hcodec := ll2string_string2ll_codec LONG_MIN ⟨by decide, by decide⟩ (List.replicate 21 7)
  exact ⟨⟨by decide, by decide⟩, hcodec.2.1,
    ((hcodec.2.2.2 (by decide +kernel)).2.2.2 _).mpr (by decide +kernel)⟩

end RedisCore
