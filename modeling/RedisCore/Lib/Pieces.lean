/-
# `RedisCore.Lib.Pieces` — a list cut at the occurrences of another one

The occurrences of a list `sep` in `l` are taken from the left, without overlap.  `pieces sep l`
is what lies between them.  Put together with `sep` between them the pieces are `l` again
(`intercalate_pieces`), none of them has `sep` in it (`not_infix_of_mem_pieces`), and there is
one more of them than there are occurrences (`length_pieces`).

A claim about a scan is proved along `scan`: an occurrence is passed as a whole, and any other
element alone.
-/
import Mathlib.Data.List.Infix

namespace Pieces

variable {α : Type} [DecidableEq α] {sep l : List α} {cur : List α} {c : α}

/-- How often `sep` occurs, after so many elements that belong to an occurrence. -/
def occurrencesFrom (sep : List α) : Nat → List α → Nat
  | _, [] => 0
  | k + 1, _ :: l => occurrencesFrom sep k l
  | 0, c :: l =>
    if sep <+: c :: l then occurrencesFrom sep (sep.length - 1) l + 1 else occurrencesFrom sep 0 l

/-- The occurrences from the left that do not overlap. -/
def occurrences (sep l : List α) : Nat := occurrencesFrom sep 0 l

/-- The pieces after so many elements of an occurrence, the first one behind `cur`. -/
def piecesFrom (sep : List α) : Nat → List α → List α → List (List α)
  | _, cur, [] => [cur]
  | k + 1, cur, _ :: l => piecesFrom sep k cur l
  | 0, cur, c :: l =>
    if sep <+: c :: l then cur :: piecesFrom sep (sep.length - 1) [] l
    else piecesFrom sep 0 (cur ++ [c]) l

/-- What is between the occurrences. -/
def pieces (sep l : List α) : List (List α) := piecesFrom sep 0 [] l

theorem occurrencesFrom_skip (k : Nat) (l : List α) :
    occurrencesFrom sep k l = occurrences sep (l.drop k) := by
  induction k generalizing l with
  | zero => rfl
  | succ k ih =>
      cases l with
      | nil => rfl
      | cons c l => exact ih l

theorem piecesFrom_skip (k : Nat) (cur l : List α) :
    piecesFrom sep k cur l = piecesFrom sep 0 cur (l.drop k) := by
  induction k generalizing l with
  | zero => rfl
  | succ k ih =>
      cases l with
      | nil => simp only [piecesFrom, List.drop_nil]
      | cons c l => exact ih l

@[simp] theorem occurrences_nil : occurrences sep [] = 0 := rfl

/-- An occurrence is passed as a whole. -/
theorem occurrences_append (hsep : sep ≠ []) (l : List α) :
    occurrences sep (sep ++ l) = occurrences sep l + 1 := by
  obtain ⟨a, sep', rfl⟩ := List.exists_cons_of_ne_nil hsep
  have hp : a :: sep' <+: a :: (sep' ++ l) := List.prefix_append (a :: sep') l
  rw [List.cons_append, occurrences, occurrencesFrom, if_pos hp, occurrencesFrom_skip,
    List.length_cons, Nat.add_sub_cancel, List.drop_left]

theorem piecesFrom_append (hsep : sep ≠ []) (cur l : List α) :
    piecesFrom sep 0 cur (sep ++ l) = cur :: pieces sep l := by
  obtain ⟨a, sep', rfl⟩ := List.exists_cons_of_ne_nil hsep
  have hp : a :: sep' <+: a :: (sep' ++ l) := List.prefix_append (a :: sep') l
  rw [List.cons_append, piecesFrom, if_pos hp, piecesFrom_skip, List.length_cons,
    Nat.add_sub_cancel, List.drop_left, pieces]

theorem occurrences_cons (h : ¬ sep <+: c :: l) : occurrences sep (c :: l) = occurrences sep l := by
  rw [occurrences, occurrencesFrom, if_neg h]
  rfl

theorem piecesFrom_cons (h : ¬ sep <+: c :: l) (cur : List α) :
    piecesFrom sep 0 cur (c :: l) = piecesFrom sep 0 (cur ++ [c]) l := by
  rw [piecesFrom, if_neg h]

/-- Along a scan from the left. -/
theorem scan {P : List α → Prop} (hsep : sep ≠ []) (nil : P [])
    (hit : ∀ l, P l → P (sep ++ l)) (miss : ∀ c l, ¬ sep <+: c :: l → P l → P (c :: l)) :
    ∀ l, P l := by
  intro l
  induction hn : l.length using Nat.strongRecOn generalizing l with
  | ind n ih =>
      cases l with
      | nil => exact nil
      | cons c l =>
          by_cases h : sep <+: c :: l
          · obtain ⟨rest, hrest⟩ := h
            have hpos := List.length_pos_iff.mpr hsep
            rw [← hrest] at hn ⊢
            rw [List.length_append] at hn
            exact hit rest (ih rest.length (by omega) rest rfl)
          · exact miss c l h (ih l.length (by rw [← hn, List.length_cons]; omega) l rfl)

/-! ## The pieces -/

theorem piecesFrom_ne_nil (hsep : sep ≠ []) (cur l : List α) : piecesFrom sep 0 cur l ≠ [] := by
  induction l using scan hsep generalizing cur with
  | nil => exact List.cons_ne_nil _ _
  | hit l ih => rw [piecesFrom_append hsep]; exact List.cons_ne_nil _ _
  | miss c l h ih => rw [piecesFrom_cons h]; exact ih _

theorem length_piecesFrom (hsep : sep ≠ []) (cur l : List α) :
    (piecesFrom sep 0 cur l).length = occurrences sep l + 1 := by
  induction l using scan hsep generalizing cur with
  | nil => rfl
  | hit l ih => rw [piecesFrom_append hsep, occurrences_append hsep, List.length_cons, pieces, ih]
  | miss c l h ih => rw [piecesFrom_cons h, occurrences_cons h, ih]

theorem length_pieces (hsep : sep ≠ []) (l : List α) :
    (pieces sep l).length = occurrences sep l + 1 := length_piecesFrom hsep [] l

theorem intercalate_piecesFrom (hsep : sep ≠ []) (cur l : List α) :
    sep.intercalate (piecesFrom sep 0 cur l) = cur ++ l := by
  induction l using scan hsep generalizing cur with
  | nil => rw [List.append_nil]; exact List.intercalate_singleton
  | hit l ih =>
      rw [piecesFrom_append hsep, pieces,
        List.intercalate_cons_of_ne_nil (piecesFrom_ne_nil hsep _ _), ih, List.nil_append,
        List.append_assoc]
  | miss c l h ih => rw [piecesFrom_cons h, ih, List.append_assoc]; rfl

theorem intercalate_pieces (hsep : sep ≠ []) (l : List α) :
    sep.intercalate (pieces sep l) = l := intercalate_piecesFrom hsep [] l

/-- A piece that starts with `cur` has no `sep` in it if there is none that begins in `cur`. -/
theorem not_infix_of_mem_piecesFrom (hsep : sep ≠ [])
    (hcur : ∀ k, k < cur.length → ¬ sep <+: (cur ++ l).drop k) :
    ∀ piece ∈ piecesFrom sep 0 cur l, ¬ sep <:+: piece := by
  have hout : ∀ {cur l : List α}, (∀ k, k < cur.length → ¬ sep <+: (cur ++ l).drop k) →
      ¬ sep <:+: cur := by
    rintro cur l hcur ⟨pre, suf, rfl⟩
    have hpos := List.length_pos_iff.mpr hsep
    refine hcur pre.length (by simp only [List.length_append]; omega) ?_
    rw [List.append_assoc, List.append_assoc, List.drop_left]
    exact List.prefix_append _ _
  induction l using scan hsep generalizing cur with
  | nil =>
      intro piece hp
      rw [List.mem_singleton.mp hp]
      exact hout hcur
  | hit l ih =>
      intro piece hp
      rw [piecesFrom_append hsep] at hp
      rcases List.mem_cons.mp hp with rfl | hp
      · exact hout hcur
      · have hnil : ∀ k, k < ([] : List α).length → ¬ sep <+: ([] ++ l).drop k :=
          fun k hk => absurd hk (Nat.not_lt_zero k)
        exact ih hnil piece hp
  | miss c l h ih =>
      rw [piecesFrom_cons h]
      refine ih (fun k hk => ?_)
      rw [List.append_assoc, List.singleton_append]
      rw [List.length_append, List.length_singleton] at hk
      by_cases hlt : k < cur.length
      · exact hcur k hlt
      · obtain rfl : k = cur.length := by omega
        rw [List.drop_left]
        exact h

theorem not_infix_of_mem_pieces (hsep : sep ≠ []) :
    ∀ piece ∈ pieces sep l, ¬ sep <:+: piece :=
  not_infix_of_mem_piecesFrom hsep (fun k hk => absurd hk (Nat.not_lt_zero k))

/-! ## How often -/

/-- The occurrences fit into the list. -/
theorem occurrences_mul_le (hsep : sep ≠ []) (l : List α) :
    occurrences sep l * sep.length ≤ l.length := by
  induction l using scan hsep with
  | nil => exact Nat.le_of_eq (Nat.zero_mul _)
  | hit l ih =>
      rw [occurrences_append hsep, Nat.add_mul, List.length_append]
      omega
  | miss c l h ih => rw [occurrences_cons h, List.length_cons]; omega

/-- In a list that is too short nothing occurs, and it is all one piece. -/
theorem piecesFrom_of_short (cur : List α) (h : l.length < sep.length) :
    piecesFrom sep 0 cur l = [cur ++ l] := by
  induction l generalizing cur with
  | nil => rw [piecesFrom, List.append_nil]
  | cons c l ih =>
      have hno : ¬ sep <+: c :: l := fun hp => by have := hp.length_le; omega
      rw [piecesFrom_cons hno, ih _ (by rw [List.length_cons] at h; omega), List.append_assoc]
      rfl

/-- Without the last element: the first occurrence is still there, unless it is the whole list. -/
theorem occurrences_dropLast_append (hsep : sep ≠ []) (hl : l ≠ []) :
    occurrences sep (sep ++ l).dropLast = occurrences sep l.dropLast + 1 := by
  rw [List.dropLast_append_of_ne_nil hl, occurrences_append hsep]

theorem occurrences_dropLast_cons (h : ¬ sep <+: c :: l) (hl : l ≠ []) :
    occurrences sep (c :: l).dropLast = occurrences sep l.dropLast := by
  have hno : ¬ sep <+: c :: l.dropLast := by
    intro hp
    refine h (hp.trans ?_)
    rw [← List.dropLast_cons_of_ne_nil hl]
    exact List.dropLast_prefix _
  rw [List.dropLast_cons_of_ne_nil hl, occurrences_cons hno]

theorem occurrences_replicate (c : α) (n : Nat) : occurrences [c] (List.replicate n c) = n := by
  induction n with
  | zero => rfl
  | succ n ih =>
      exact (occurrences_append (List.cons_ne_nil c []) (List.replicate n c)).trans (by rw [ih])

end Pieces
