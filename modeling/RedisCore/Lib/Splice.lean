/-
# `RedisCore.Lib.Splice` — reading and writing stretches of a list

Memory that a program reads and writes in pieces is a list of cells; `slice` is a piece
of it and `overwrite` puts a piece in the place of as many cells.
-/
import Mathlib.Data.List.TakeDrop

namespace Splice

variable {α : Type} {l chunk as bs cs : List α} {i j n m : Nat}

/-- `n` cells from `i` on. -/
def slice (l : List α) (i n : Nat) : List α := (l.drop i).take n

/-- Overwrite the cells from `i` on. -/
def overwrite (l : List α) (i : Nat) (chunk : List α) : List α :=
  l.take i ++ chunk ++ l.drop (i + chunk.length)

theorem length_slice (h : i + n ≤ l.length) : (slice l i n).length = n := by
  simp only [slice, List.length_take, List.length_drop]
  omega

theorem length_overwrite (h : i + chunk.length ≤ l.length) :
    (overwrite l i chunk).length = l.length := by
  simp only [overwrite, List.length_append, List.length_take, List.length_drop]
  omega

theorem getElem?_slice (k : Nat) : (slice l i n)[k]? = if k < n then l[i + k]? else none := by
  unfold slice
  split
  · next h => rw [List.getElem?_take_of_lt h, List.getElem?_drop]
  · next h => rw [List.getElem?_take_eq_none (by omega)]

theorem getElem?_overwrite (h : i + chunk.length ≤ l.length) (k : Nat) :
    (overwrite l i chunk)[k]? =
      if k < i then l[k]? else if k < i + chunk.length then chunk[k - i]? else l[k]? := by
  have htake : (l.take i).length = i := by
    rw [List.length_take]
    omega
  unfold overwrite
  split
  · next hk =>
      rw [List.append_assoc, List.getElem?_append_left (by omega), List.getElem?_take_of_lt hk]
  · next hk =>
      rw [List.append_assoc, List.getElem?_append_right (by omega), htake]
      split
      · rw [List.getElem?_append_left (by omega)]
      · rw [List.getElem?_append_right (by omega), List.getElem?_drop]
        congr 1
        omega

/-- What was written is read. -/
theorem slice_overwrite_self (h : i + chunk.length ≤ l.length) :
    slice (overwrite l i chunk) i chunk.length = chunk := by
  apply List.ext_getElem?
  intro k
  rw [getElem?_slice]
  split
  · rw [getElem?_overwrite h, if_neg (by omega), if_pos (by omega), Nat.add_sub_cancel_left]
  · rw [List.getElem?_eq_none (by omega)]

/-- What is elsewhere is as before. -/
theorem slice_overwrite_other (h : i + chunk.length ≤ l.length)
    (hout : j + n ≤ i ∨ i + chunk.length ≤ j) : slice (overwrite l i chunk) j n = slice l j n := by
  apply List.ext_getElem?
  intro k
  rw [getElem?_slice, getElem?_slice]
  split
  · rw [getElem?_overwrite h]
    rcases hout with hout | hout
    · rw [if_pos (by omega)]
    · rw [if_neg (by omega), if_neg (by omega)]
  · rfl

theorem slice_append_left (h : i + n ≤ as.length) : slice (as ++ bs) i n = slice as i n := by
  unfold slice
  rw [List.drop_append_of_le_length (by omega), List.take_append_of_le_length (by
    rw [List.length_drop]
    omega)]

/-- The middle of three pieces. -/
theorem slice_middle : slice (as ++ bs ++ cs) as.length bs.length = bs := by
  unfold slice
  rw [List.append_assoc, List.drop_left, List.take_left]

/-- Overwriting the middle of three pieces. -/
theorem overwrite_middle (h : chunk.length = bs.length) :
    overwrite (as ++ bs ++ cs) as.length chunk = as ++ chunk ++ cs := by
  unfold overwrite
  rw [List.append_assoc as bs cs, List.take_left, h, ← List.append_assoc as bs cs,
    ← List.length_append, List.drop_left]

end Splice
