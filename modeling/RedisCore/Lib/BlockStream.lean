/-
# `RedisCore.Lib.BlockStream` — a state that takes its input in blocks

A stream of bytes of any kind is cut into blocks of one size, and a state is compressed with one
block after the other; what is left is shorter than a block and waits.  It makes no difference
where the stream is cut into pieces: what waits goes in front of the next piece.
-/
import Mathlib.Data.List.Basic
import Mathlib.Tactic.Common

namespace RedisCore

namespace BlockStream

variable {α σ : Type} {n : Nat} {xs ys b : List α}

/-- The whole blocks at the front of a list. -/
def blocks (n : Nat) (xs : List α) : List (List α) :=
  (List.range (xs.length / n)).map (fun i => (xs.drop (i * n)).take n)

/-- What is behind them. -/
def rest (n : Nat) (xs : List α) : List α := xs.drop (xs.length / n * n)

/-- Compress all whole blocks. -/
def absorb (n : Nat) (compress : σ → List α → σ) (s : σ) (xs : List α) : σ × List α :=
  ((blocks n xs).foldl compress s, rest n xs)

variable {compress : σ → List α → σ} {s : σ}

theorem absorb_short (h : xs.length < n) : absorb n compress s xs = (s, xs) := by
  unfold absorb blocks rest
  rw [Nat.div_eq_of_lt h, List.range_zero, List.map_nil, List.foldl_nil, Nat.zero_mul, List.drop_zero]

/-- A block at the front is compressed first. -/
theorem absorb_block (hn : 0 < n) (hb : b.length = n) :
    absorb n compress s (b ++ xs) = absorb n compress (compress s b) xs := by
  have hlen : (b ++ xs).length / n = xs.length / n + 1 := by
    rw [List.length_append, hb, Nat.add_comm, Nat.add_div_right _ hn]
  have hblocks : blocks n (b ++ xs) = b :: blocks n xs := by
    unfold blocks
    rw [hlen, List.range_succ_eq_map, List.map_cons, List.map_map, Nat.zero_mul, List.drop_zero,
      List.take_left' hb]
    congr 1
    refine List.map_congr_left fun i _ => ?_
    show ((b ++ xs).drop ((i + 1) * n)).take n = (xs.drop (i * n)).take n
    rw [Nat.succ_mul, Nat.add_comm, ← List.drop_drop, List.drop_left' hb]
  have hrest : rest n (b ++ xs) = rest n xs := by
    unfold rest
    rw [hlen, Nat.succ_mul, Nat.add_comm, ← List.drop_drop, List.drop_left' hb]
  unfold absorb
  rw [hblocks, hrest, List.foldl_cons]

theorem length_rest : (absorb n compress s xs).2.length = xs.length % n := by
  show (xs.drop _).length = _
  rw [List.length_drop, Nat.mod_eq_sub_div_mul]

/-- **What waits goes in front** of what comes next. -/
theorem absorb_append (hn : 0 < n) : absorb n compress s (xs ++ ys) =
    absorb n compress (absorb n compress s xs).1 ((absorb n compress s xs).2 ++ ys) := by
  induction hlen : xs.length using Nat.strongRecOn generalizing s xs with
  | ind k ih =>
      by_cases hshort : xs.length < n
      · rw [absorb_short hshort]
      · obtain ⟨b, more, rfl, hb⟩ : ∃ b more, xs = b ++ more ∧ b.length = n := by
          refine ⟨xs.take n, xs.drop n, (List.take_append_drop n xs).symm, ?_⟩
          rw [List.length_take]
          omega
        rw [List.append_assoc, absorb_block hn hb, absorb_block hn hb]
        refine ih more.length ?_ rfl
        rw [← hlen, List.length_append]
        omega

/-- Nothing waits behind whole blocks. -/
theorem absorb_whole (h : xs.length % n = 0) :
    absorb n compress s xs = ((blocks n xs).foldl compress s, []) := by
  refine Prod.ext rfl (List.length_eq_zero_iff.mp ?_)
  rw [length_rest, h]

end BlockStream

end RedisCore
