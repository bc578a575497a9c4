/-
# `RedisCore.Lib.Window` — the last cells of a stream

A window holds the last `n` cells of what has been seen of a stream, which starts out filled
with some cell.  A chunk that is long enough replaces it, and a shorter one shifts it.  So the
window does not depend on how the stream is cut into chunks.  A pattern of `n` cells without the
filling is in the window exactly when the stream seen so far ends with it.
-/
import Mathlib.Data.List.DropRight

namespace Window

variable {α : Type} {n : Nat} {window seen chunk pattern : List α} {filling : α}

/-- Take a chunk into the window. -/
def slide (n : Nat) (window chunk : List α) : List α :=
  if chunk.length ≥ n then chunk.drop (chunk.length - n)
  else window.drop chunk.length ++ chunk

theorem length_slide (h : window.length = n) : (slide n window chunk).length = n := by
  unfold slide
  split
  · rw [List.length_drop]
    omega
  · rw [List.length_append, List.length_drop]
    omega

/-- The window after some cells of the stream. -/
def after (n : Nat) (filling : α) (seen : List α) : List α := (List.replicate n filling ++ seen).rtake n

theorem after_nil : after n filling [] = List.replicate n filling := by
  simp [after, List.rtake]

/-- **A chunk** moves the window over the stream. -/
theorem slide_after : slide n (after n filling seen) chunk = after n filling (seen ++ chunk) := by
  unfold slide after List.rtake
  rw [← List.append_assoc]
  generalize hall : List.replicate n filling ++ seen = all
  have hlen : n ≤ all.length := by rw [← hall]; simp
  rw [List.length_append]
  split
  · next h =>
      have hgone : all.drop (all.length + chunk.length - n) = [] := List.drop_eq_nil_of_le (by omega)
      rw [List.drop_append, hgone, List.nil_append]
      congr 1
      omega
  · next h =>
      rw [List.drop_append_of_le_length (by omega), List.drop_drop]
      congr 2
      omega

/-- **A pattern** is in the window exactly when the stream ends with it. -/
theorem after_eq_iff (hlen : pattern.length = n) (hfree : filling ∉ pattern) :
    after n filling seen = pattern ↔ pattern <:+ seen := by
  unfold after List.rtake
  rw [List.length_append, List.length_replicate]
  constructor
  · intro h
    by_cases hn : n ≤ seen.length
    · have hgone : (List.replicate n filling).drop (n + seen.length - n) = [] :=
        List.drop_eq_nil_of_le (by rw [List.length_replicate]; omega)
      rw [List.drop_append, hgone, List.nil_append] at h
      exact h ▸ List.drop_suffix _ _
    · -- some of the filling is still there
      refine absurd ?_ hfree
      rw [← h, List.drop_append_of_le_length (by rw [List.length_replicate]; omega),
        List.drop_replicate]
      exact List.mem_append_left _ (List.mem_replicate.mpr ⟨by omega, rfl⟩)
  · intro h
    have hall : pattern <:+ List.replicate n filling ++ seen := h.trans (List.suffix_append _ _)
    have hdrop := List.suffix_iff_eq_drop.mp hall
    rw [List.length_append, List.length_replicate, hlen] at hdrop
    exact hdrop.symm

end Window
