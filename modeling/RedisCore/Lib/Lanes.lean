/-
# `RedisCore.Lib.Lanes` — express lanes over a list

Some cells of a list are tall.  From any place in the list `ahead` finds the next tall
cell and how many steps away it is; where none is left it counts the steps to the end.
This is what a link of a skip list and its span have to say, and the lemmas are how the
answer changes with the list.
-/
import Mathlib.Data.List.Basic

namespace Lanes

variable {α : Type} {tall tall' : α → Bool} {xs ys : List α} {y : α}

/-- The next tall cell with its distance, or the distance to the end. -/
def ahead (tall : α → Bool) : List α → Option α × Nat
  | [] => (none, 0)
  | y :: ys => if tall y then (some y, 1) else ((ahead tall ys).1, (ahead tall ys).2 + 1)

@[simp] theorem ahead_nil : ahead tall ([] : List α) = (none, 0) := rfl

theorem ahead_cons_tall (hy : tall y = true) : ahead tall (y :: ys) = (some y, 1) := by
  rw [ahead, if_pos hy]

/-- Low cells are passed. -/
theorem ahead_append_low (h : ∀ x ∈ xs, tall x = false) :
    ahead tall (xs ++ ys) = ((ahead tall ys).1, xs.length + (ahead tall ys).2) := by
  induction xs with
  | nil => simp
  | cons x xs ih =>
      rw [List.cons_append, ahead, if_neg (by simp [h x]), ih (fun z hz => h z (by simp [hz]))]
      simp only [List.length_cons, Prod.mk.injEq, true_and]
      omega

/-- Nothing behind a tall cell is seen. -/
theorem ahead_append_tall (h : ∃ x ∈ xs, tall x = true) : ahead tall (xs ++ ys) = ahead tall xs := by
  induction xs with
  | nil => simp at h
  | cons x xs ih =>
      rw [List.cons_append, ahead, ahead]
      by_cases hx : tall x = true
      · rw [if_pos hx, if_pos hx]
      · obtain ⟨z, hz, htall⟩ := h
        have hzx : z ∈ xs := by
          rcases List.mem_cons.mp hz with rfl | hz
          · exact absurd htall hx
          · exact hz
        rw [if_neg hx, if_neg hx, ih ⟨z, hzx, htall⟩]

theorem ahead_congr (h : ∀ x ∈ xs, tall x = tall' x) : ahead tall xs = ahead tall' xs := by
  induction xs with
  | nil => rfl
  | cons x xs ih =>
      rw [ahead, ahead, h x (by simp), ih (fun z hz => h z (by simp [hz]))]

/-- What the next tall cell is. -/
theorem ahead_some {x : α} (h : (ahead tall xs).1 = some x) :
    ∃ low rest, xs = low ++ x :: rest ∧ (∀ z ∈ low, tall z = false) ∧ tall x = true ∧
      (ahead tall xs).2 = low.length + 1 := by
  induction xs with
  | nil => exact absurd h (by simp)
  | cons y ys ih =>
      by_cases hy : tall y = true
      · rw [ahead_cons_tall hy] at h ⊢
        cases h
        exact ⟨[], ys, rfl, by simp, hy, rfl⟩
      · rw [ahead, if_neg hy] at h ⊢
        obtain ⟨low, rest, rfl, hlow, hx, hlen⟩ := ih h
        refine ⟨y :: low, rest, rfl, ?_, hx, by simp [hlen]⟩
        intro z hz
        rcases List.mem_cons.mp hz with rfl | hz
        · exact Bool.eq_false_iff.mpr hy
        · exact hlow z hz

/-- No tall cell is left. -/
theorem ahead_none (h : (ahead tall xs).1 = none) :
    (∀ z ∈ xs, tall z = false) ∧ (ahead tall xs).2 = xs.length := by
  induction xs with
  | nil => simp
  | cons y ys ih =>
      by_cases hy : tall y = true
      · rw [ahead_cons_tall hy] at h
        exact absurd h (by simp)
      · rw [ahead, if_neg hy] at h ⊢
        obtain ⟨hlow, hlen⟩ := ih h
        refine ⟨?_, by simp [hlen]⟩
        intro z hz
        rcases List.mem_cons.mp hz with rfl | hz
        · exact Bool.eq_false_iff.mpr hy
        · exact hlow z hz

theorem ahead_none_of_low (h : ∀ x ∈ xs, tall x = false) : ahead tall xs = (none, xs.length) := by
  have := @ahead_append_low α tall xs [] h
  simpa using this

/-- The first tall cell of a list, if there is one. -/
theorem exists_first_tall : (∀ x ∈ xs, tall x = false) ∨
    ∃ low x rest, xs = low ++ x :: rest ∧ tall x = true ∧ ∀ z ∈ low, tall z = false := by
  cases h : (ahead tall xs).1 with
  | none => exact Or.inl (ahead_none h).1
  | some x =>
      obtain ⟨low, rest, hxs, hlow, hx, _⟩ := ahead_some h
      exact Or.inr ⟨low, x, rest, hxs, hx, hlow⟩

end Lanes
