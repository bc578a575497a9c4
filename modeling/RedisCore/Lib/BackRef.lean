/-
# `RedisCore.Lib.BackRef` — text told by references to what stands before

A text can be told in tokens: some cells as they are, or so many cells from a distance back.
The cells of a reference are added one after the other, so a reference may reach into the
cells that it adds, and then it tells a text with that distance as its period.

Who writes such tokens compares cells of the text; `copyBack_take` says that this is enough.
Who reads them may copy all cells at once, if they do not reach that far (`copyBack_apart`).
-/
import RedisCore.Lib.Splice

namespace BackRef

open Splice

variable {α : Type} {text run : List α} {dist len n pos : Nat}

/-- Add `n` cells, each the one at a distance back. -/
def copyBack (dist : Nat) : Nat → List α → List α
  | 0, text => text
  | n + 1, text =>
      match text[text.length - dist]? with
      | some a => copyBack dist n (text ++ [a])
      | none => text

/-- A piece of a text. -/
inductive Token (α : Type)
  | lit (run : List α)
  | ref (dist len : Nat)

/-- The text with a piece more. -/
def Token.add (text : List α) : Token α → List α
  | .lit run => text ++ run
  | .ref dist len => copyBack dist len text

/-- The text that tokens tell, behind one that is there. -/
def expand (text : List α) (ts : List (Token α)) : List α := ts.foldl Token.add text

@[simp] theorem expand_nil : expand text [] = text := rfl

@[simp] theorem expand_cons (t : Token α) (ts : List (Token α)) :
    expand text (t :: ts) = expand (t.add text) ts := rfl

theorem expand_concat (t : Token α) (ts : List (Token α)) :
    expand text (ts ++ [t]) = t.add (expand text ts) := by
  unfold expand
  rw [List.foldl_append]
  rfl

/-! ## References -/

theorem copyBack_succ {a : α} (h : text[text.length - dist]? = some a) :
    copyBack dist (n + 1) text = copyBack dist n (text ++ [a]) := by
  rw [copyBack, h]

/-- The cell that a reference reads. -/
theorem exists_back (hpos : 0 < dist) (hdist : dist ≤ text.length) :
    ∃ a, text[text.length - dist]? = some a :=
  ⟨_, List.getElem?_eq_getElem (show text.length - dist < text.length by omega)⟩

theorem length_copyBack (hpos : 0 < dist) (hdist : dist ≤ text.length) :
    (copyBack dist n text).length = text.length + n := by
  induction n generalizing text with
  | zero => rfl
  | succ n ih =>
      obtain ⟨a, ha⟩ := exists_back hpos hdist
      have hlen : (text ++ [a]).length = text.length + 1 := by simp
      rw [copyBack_succ ha, ih (by omega), hlen]
      omega

/-- **Writing.**  A reference continues a text by as many cells as are equal to those at the
distance back. -/
theorem copyBack_take (hpos : 0 < dist) (hdist : dist ≤ pos) (hend : pos + n ≤ text.length)
    (hsame : ∀ k < n, text[pos - dist + k]? = text[pos + k]?) :
    copyBack dist n (text.take pos) = text.take (pos + n) := by
  induction n generalizing pos with
  | zero => rfl
  | succ n ih =>
      have hlen : (text.take pos).length = pos := List.length_take_of_le (by omega)
      have hlt : pos < text.length := by omega
      have hback : (text.take pos)[(text.take pos).length - dist]? = some text[pos] := by
        rw [hlen, List.getElem?_take_of_lt (by omega), ← List.getElem?_eq_getElem hlt]
        exact hsame 0 (Nat.succ_pos n)
      rw [copyBack_succ hback, List.take_append_getElem, ih (by omega) (by omega) fun k hk => ?_]
      · congr 1
        omega
      · have := hsame (k + 1) (Nat.succ_lt_succ hk)
        rwa [show pos - dist + (k + 1) = pos + 1 - dist + k by omega,
          show pos + (k + 1) = pos + 1 + k by omega] at this

/-- **Reading.**  Cells that do not reach into themselves can be copied at once. -/
theorem copyBack_apart (hn : n ≤ dist) (hdist : dist ≤ text.length) :
    copyBack dist n text = text ++ slice text (text.length - dist) n := by
  have hend : text.length + n = (text ++ slice text (text.length - dist) n).length := by
    rw [List.length_append, length_slice (by omega)]
  rcases Nat.eq_zero_or_pos dist with hzero | hpos
  · obtain rfl : n = 0 := by omega
    simp [copyBack, slice]
  · have h := @copyBack_take _ (text ++ slice text (text.length - dist) n) dist n text.length hpos
      hdist (Nat.le_of_eq hend) fun k hk => ?_
    · rw [List.take_left, List.take_of_length_le] at h
      · exact h
      · exact Nat.le_of_eq hend.symm
    · rw [List.getElem?_append_left (by omega), List.getElem?_append_right (by omega),
        Nat.add_sub_cancel_left, getElem?_slice, if_pos hk]

end BackRef
