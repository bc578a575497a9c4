/-
# `RedisCore.Lib.Trim` — a list without what is at its ends

`trim p l` is `l` without its longest prefix and its longest suffix of elements with `p`.  It is
the only part of `l` with such elements in front and behind that does not begin or end with one
(`trim_eq`).
-/
import Mathlib.Data.List.DropRight

namespace Trim

variable {α : Type} {p q : α → Bool} {l r pre suf : List α}

/-- Without the longest prefix and the longest suffix of elements with `p`. -/
def trim (p : α → Bool) (l : List α) : List α := (l.dropWhile p).rdropWhile p

/-- What is left begins and ends with an element without `p`. -/
structure Bare (p : α → Bool) (r : List α) : Prop where
  head : ∀ a, r.head? = some a → p a = false
  last : ∀ a, r.getLast? = some a → p a = false

theorem dropWhile_append_of_all (hpre : ∀ a ∈ pre, p a = true) :
    (pre ++ r).dropWhile p = r.dropWhile p := by
  induction pre with
  | nil => rfl
  | cons a pre ih =>
      rw [List.cons_append, List.dropWhile_cons, if_pos (hpre a List.mem_cons_self)]
      exact ih (fun b hb => hpre b (List.mem_cons_of_mem a hb))

theorem dropWhile_of_head (h : ∀ a, r.head? = some a → p a = false) : r.dropWhile p = r := by
  cases r with
  | nil => rfl
  | cons a r => rw [List.dropWhile_cons, if_neg (by simp [h a rfl])]

theorem rdropWhile_append_of_all (hsuf : ∀ a ∈ suf, p a = true) :
    (r ++ suf).rdropWhile p = r.rdropWhile p := by
  rw [List.rdropWhile, List.rdropWhile, List.reverse_append,
    dropWhile_append_of_all (fun a ha => hsuf a (List.mem_reverse.mp ha))]

theorem rdropWhile_of_last (h : ∀ a, r.getLast? = some a → p a = false) : r.rdropWhile p = r := by
  rw [List.rdropWhile, dropWhile_of_head (by rw [List.head?_reverse]; exact h), List.reverse_reverse]

/-- All of it has `p`. -/
theorem trim_of_all (h : ∀ a ∈ l, p a = true) : trim p l = [] := by
  rw [trim, List.dropWhile_eq_nil_iff.mpr h]
  rfl

/-- The part between two parts with `p` that has none at its ends. -/
theorem trim_eq (hpre : ∀ a ∈ pre, p a = true) (hsuf : ∀ a ∈ suf, p a = true) (hr : Bare p r)
    (hne : r ≠ []) : trim p (pre ++ r ++ suf) = r := by
  have hhead : ∀ a, (r ++ suf).head? = some a → p a = false := by
    intro a ha
    cases r with
    | nil => exact absurd rfl hne
    | cons b r => exact hr.head a ha
  rw [trim, List.append_assoc, dropWhile_append_of_all hpre, dropWhile_of_head hhead,
    rdropWhile_append_of_all hsuf, rdropWhile_of_last hr.last]

theorem head_dropWhile {a : α} (h : (l.dropWhile p).head? = some a) : p a = false := by
  have hnot := List.head?_dropWhile_not p l
  rw [h] at hnot
  exact hnot

theorem trim_bare (p : α → Bool) (l : List α) : Bare p (trim p l) := by
  refine ⟨fun a ha => ?_, fun a ha => ?_⟩
  · obtain ⟨suf, hsuf⟩ : trim p l <+: l.dropWhile p := List.rdropWhile_prefix p _
    refine head_dropWhile (l := l) ?_
    rw [← hsuf, List.head?_append, ha]
    rfl
  · rw [trim, List.rdropWhile, List.getLast?_reverse] at ha
    exact head_dropWhile ha

/-- What is taken away has `p`. -/
theorem trim_parts (p : α → Bool) (l : List α) :
    ∃ pre suf, l = pre ++ trim p l ++ suf ∧ (∀ a ∈ pre, p a = true) ∧ ∀ a ∈ suf, p a = true := by
  refine ⟨l.takeWhile p, (l.dropWhile p).rtakeWhile p, ?_, fun a ha => ?_, fun a ha => ?_⟩
  · rw [trim, List.append_assoc, List.rdropWhile_append_rtakeWhile, List.takeWhile_append_dropWhile]
  · exact List.mem_takeWhile_imp ha
  · exact List.mem_rtakeWhile_imp ha

/-- Trimming with more elements: the same just where none of the others is at an end. -/
theorem trim_eq_trim_iff (hpq : ∀ a, p a = true → q a = true) :
    trim q l = trim p l ↔ trim p l = [] ∨ Bare q (trim p l) := by
  obtain ⟨pre, suf, hl, hpre, hsuf⟩ := trim_parts p l
  constructor
  · intro heq
    by_cases hne : trim p l = []
    · exact .inl hne
    · exact .inr (heq ▸ trim_bare q l)
  · intro h
    by_cases hne : trim p l = []
    · rw [hne] at hl ⊢
      refine trim_of_all (fun a ha => hpq a ?_)
      rw [hl, List.append_nil] at ha
      exact (List.mem_append.mp ha).elim (hpre a) (hsuf a)
    · conv_lhs => rw [hl]
      exact trim_eq (fun a ha => hpq a (hpre a ha)) (fun a ha => hpq a (hsuf a ha))
        (h.resolve_left hne) hne

end Trim
