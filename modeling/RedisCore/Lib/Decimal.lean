/-
# `RedisCore.Lib.Decimal` — decimal numerals as byte strings

`decNat n` is the numeral of `n` and `decInt i` the one of `i`, with a minus sign in
front of a negative number.  A numeral grows at its right end, so both a writer that
fills a buffer from the right and a reader that folds from the left have a one-line
step against it.
-/
import Mathlib.Data.List.Basic
import Mathlib.Tactic.Ring
import Mathlib.Tactic.IntervalCases

namespace Decimal

/-- The character of a digit. -/
def digit (d : Nat) : UInt8 := UInt8.ofNat (48 + d)

/-- The numeral of a natural number. -/
def decNat (n : Nat) : List UInt8 :=
  if n < 10 then [digit n] else decNat (n / 10) ++ [digit (n % 10)]

/-- The numeral of an integer. -/
def decInt (i : Int) : List UInt8 :=
  if i < 0 then 45 :: decNat i.natAbs else decNat i.natAbs

/-- The value of a digit character. -/
def val (c : UInt8) : Nat := c.toNat - 48

def IsDigit (c : UInt8) : Prop := 48 ≤ c.toNat ∧ c.toNat ≤ 57

/-- What a left-to-right reader makes of digits after it has read `v`. -/
def fold (v : Nat) (cs : List UInt8) : Nat := cs.foldl (fun v c => 10 * v + val c) v

theorem toNat_digit {d : Nat} (h : d < 10) : (digit d).toNat = 48 + d := by
  simp only [digit, UInt8.toNat_ofNat']
  omega

theorem isDigit_digit {d : Nat} (h : d < 10) : IsDigit (digit d) := by
  rw [IsDigit, toNat_digit h]
  omega

@[simp] theorem val_digit {d : Nat} (h : d < 10) : val (digit d) = d := by
  rw [val, toNat_digit h]
  omega

theorem digit_val {c : UInt8} (h : IsDigit c) : digit (val c) = c := by
  apply UInt8.toNat_inj.mp
  obtain ⟨h1, h2⟩ := h
  rw [toNat_digit (by unfold val; omega)]
  unfold val
  omega

theorem val_lt {c : UInt8} (h : IsDigit c) : val c < 10 := by
  obtain ⟨h1, h2⟩ := h
  unfold val
  omega

theorem decNat_of_lt {n : Nat} (h : n < 10) : decNat n = [digit n] := by
  rw [decNat, if_pos h]

/-- One more digit at the right end. -/
theorem decNat_snoc {v d : Nat} (hv : 0 < v) (hd : d < 10) :
    decNat (10 * v + d) = decNat v ++ [digit d] := by
  rw [decNat, if_neg (by omega)]
  have hq : (10 * v + d) / 10 = v := by omega
  have hr : (10 * v + d) % 10 = d := by omega
  rw [hq, hr]

/-- Two more digits at the right end. -/
theorem decNat_snoc₂ {n : Nat} (h : 100 ≤ n) :
    decNat n = decNat (n / 100) ++ [digit (n % 100 / 10), digit (n % 10)] := by
  have h1 : n = 10 * (n / 10) + n % 10 := by omega
  have h2 : n / 10 = 10 * (n / 100) + n % 100 / 10 := by omega
  conv_lhs => rw [h1, decNat_snoc (by omega) (by omega), h2, decNat_snoc (by omega) (by omega)]
  rw [List.append_assoc]
  rfl

theorem decNat_two {n : Nat} (h1 : 10 ≤ n) (h2 : n < 100) :
    decNat n = [digit (n / 10), digit (n % 10)] := by
  rw [decNat, if_neg (by omega), decNat_of_lt (by omega)]
  rfl

theorem decNat_ne_nil (n : Nat) : decNat n ≠ [] := by
  rw [decNat]
  split <;> simp

/-! ## Length -/

theorem length_decNat_of {k : Nat} : ∀ {n : Nat}, 10 ^ k ≤ n → n < 10 ^ (k + 1) →
    (decNat n).length = k + 1 := by
  induction k with
  | zero => intro n _ h; rw [decNat_of_lt (by omega)]; rfl
  | succ k ih =>
      intro n h1 h2
      have h10 : 10 ^ (k + 1) = 10 * 10 ^ k := by ring
      have h10' : 10 ^ (k + 1 + 1) = 10 * 10 ^ (k + 1) := by ring
      have hpos : 0 < 10 ^ k := Nat.pow_pos (by decide)
      rw [decNat, if_neg (by omega), List.length_append, ih (n := n / 10) (by omega) (by omega)]
      rfl

theorem length_decNat_div {k : Nat} : ∀ {n : Nat}, 10 ^ k ≤ n →
    (decNat n).length = k + (decNat (n / 10 ^ k)).length := by
  induction k with
  | zero => intro n _; simp
  | succ k ih =>
      intro n h
      have h10 : 10 ^ (k + 1) = 10 * 10 ^ k := by ring
      have hpos : 0 < 10 ^ k := Nat.pow_pos (by decide)
      have hrec := ih (n := n / 10) (by omega)
      rw [decNat, if_neg (by omega), List.length_append, hrec, Nat.div_div_eq_div_mul, h10]
      simp only [List.length_singleton]
      omega

theorem length_decNat_le {k : Nat} : ∀ {n : Nat}, n < 10 ^ (k + 1) →
    (decNat n).length ≤ k + 1 := by
  induction k with
  | zero =>
      intro n h
      have hn : n < 10 := by simpa using h
      rw [decNat_of_lt hn]
      exact Nat.le_refl 1
  | succ k ih =>
      intro n h
      by_cases hn : n < 10
      · rw [decNat_of_lt hn]
        exact Nat.le_add_left 1 _
      · have hdiv : n / 10 < 10 ^ (k + 1) := by
          apply Nat.div_lt_of_lt_mul
          rw [Nat.mul_comm, ← Nat.pow_succ]
          exact h
        rw [decNat, if_neg hn, List.length_append]
        exact Nat.add_le_add_right (ih hdiv) 1

/-! ## Reading -/

theorem fold_cons (v : Nat) (c : UInt8) (cs : List UInt8) :
    fold v (c :: cs) = fold (10 * v + val c) cs := by
  simp only [fold, List.foldl_cons]

theorem le_fold : ∀ (cs : List UInt8) (v : Nat), v ≤ fold v cs := by
  intro cs
  induction cs with
  | nil => intro v; exact Nat.le_refl v
  | cons c cs ih => intro v; have := ih (10 * v + val c); rw [fold_cons]; omega

/-- Digits read after a number spell the longer number. -/
theorem decNat_fold : ∀ (cs : List UInt8) {v : Nat}, 0 < v → (∀ c ∈ cs, IsDigit c) →
    decNat (fold v cs) = decNat v ++ cs := by
  intro cs
  induction cs with
  | nil => intro v _ _; simp [fold]
  | cons c cs ih =>
      intro v hv hcs
      have hc := hcs c List.mem_cons_self
      rw [fold_cons, ih (by omega) (fun x hx => hcs x (List.mem_cons_of_mem c hx)),
        decNat_snoc hv (val_lt hc), digit_val hc, List.append_assoc]
      rfl

/-- A numeral is a leading non-zero digit and more digits, and reads back. -/
theorem decNat_reads : ∀ {n : Nat}, 0 < n → ∃ c cs, decNat n = c :: cs ∧ IsDigit c ∧ 0 < val c ∧
    (∀ x ∈ cs, IsDigit x) ∧ fold (val c) cs = n := by
  intro n
  induction n using Nat.strongRecOn with
  | ind n ih =>
      intro hn
      by_cases h : n < 10
      · refine ⟨digit n, [], decNat_of_lt h, isDigit_digit h, ?_, by simp, ?_⟩
        · rw [val_digit h]; exact hn
        · simp [fold, val_digit h]
      · obtain ⟨c, cs, heq, hc, hpos, hcs, hfold⟩ := ih (n / 10) (by omega) (by omega)
        refine ⟨c, cs ++ [digit (n % 10)], ?_, hc, hpos, ?_, ?_⟩
        · rw [decNat, if_neg h, heq]; rfl
        · intro x hx
          rcases List.mem_append.mp hx with hx | hx
          · exact hcs x hx
          · rw [List.mem_singleton.mp hx]
            exact isDigit_digit (Nat.mod_lt _ (by decide))
        · have hsnoc : fold (val c) (cs ++ [digit (n % 10)])
              = 10 * fold (val c) cs + val (digit (n % 10)) := by
            simp only [fold, List.foldl_append, List.foldl_cons, List.foldl_nil]
          rw [hsnoc, hfold, val_digit (Nat.mod_lt _ (by decide))]
          omega

/-- Every character of a numeral is a digit. -/
theorem isDigit_of_mem {n : Nat} {c : UInt8} (h : c ∈ decNat n) : IsDigit c := by
  rcases Nat.eq_zero_or_pos n with rfl | hn
  · rw [decNat_of_lt (by decide), List.mem_singleton] at h
    rw [h]
    exact isDigit_digit (by decide)
  · obtain ⟨c', cs, heq, hc', _, hcs, _⟩ := decNat_reads hn
    rw [heq] at h
    rcases List.mem_cons.mp h with rfl | h
    · exact hc'
    · exact hcs c h

end Decimal
